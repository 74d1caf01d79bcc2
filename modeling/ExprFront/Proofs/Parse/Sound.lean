import ExprFront.Proofs.Parse.Complete
/-!
# What a run of the parser has read

Every run of a grammar function ends in one of two ways, and `Reads` says what each means for
the derivations of its level:

* it gives a tree: then it has read a prefix of its input that derives that tree, nesting no
  deeper than the limit allows;
* it fails: then the error names the token at which it stopped, and unless the limit stopped it,
  the prefix read so far can be completed into a derivation. An error that wanted a token of
  some kind can be completed starting with that kind.

The first half is soundness. The second half says that the parser never gives up on a prefix
that could still be read: it is what places its errors exactly (see `Parse.Viable`).

Both halves are proved together by the parser's own induction principle
(`Grammar.comma.mutual_induct`), one case per branch of the eight mutually recursive grammar
functions. The loops of the comma and binary levels carry the tokens read before them, so their
statement is about derivations that start with those tokens.

Completions are made of stand-in tokens (`Token.ofKind`): only kinds matter to the grammar.
-/

namespace ExprFront

/-- A token of a given kind, standing in for any token of that kind where only kinds matter. -/
def Token.ofKind {π : Type} [Inhabited π] (k : TokenKind) : Token π :=
  { (default : Token π) with kind := k }

@[simp] theorem Token.kind_ofKind {π : Type} [Inhabited π] (k : TokenKind) :
    (Token.ofKind k : Token π).kind = k := rfl

namespace Sentence

open Grammar

variable {π : Type}

/-- A literal token is a whole condition, one level deep. -/
theorem Ternary.literal {t : Token π} (ht : isLiteralKind t.kind = true) :
    Ternary [t] (.literal (t.literal.getD .nil) ⟨t.start, t.stop⟩) 1 :=
  .plain (.single (.equality (.single (.comparison (.single (.term (.single
    (.factor (.primary (.literal ht))))))))))

/-- Prefix operators in front of a prefix expression, applied from the innermost out. -/
theorem Unary.prefixes {ops ts : List (Token π)} {e : Expr π} {n : Nat}
    (hops : ∀ t ∈ ops, isPrefixKind t.kind = true) (h : Unary ts e n) :
    Unary (ops ++ ts) (ops.foldr .unary e) n := by
  induction ops with
  | nil => exact h
  | cons t ops ih =>
    exact .op (hops t List.mem_cons_self) (ih fun u hu => hops u (List.mem_cons_of_mem t hu))

/-- A completion `c` of what an error stopped in starts with the kind the error asked for. -/
def Expects (x : ParseError π) (c : List (Token π)) : Prop :=
  ∀ k t, x = .unexpectedToken k t → ∃ u c', c = u :: c' ∧ u.kind = k

theorem Expects.append {x : ParseError π} {c : List (Token π)} (h : Expects x c)
    (post : List (Token π)) : Expects x (c ++ post) := by
  intro k t hx
  obtain ⟨u, c', rfl, hu⟩ := h k t hx
  exact ⟨u, c' ++ post, rfl, hu⟩

/-- What a run at `depth` on `ts` for the derivations `R` of its level has read: a tree from a
prefix that derives it within the limit, or an error at the next token with a completable prefix
read before it. -/
def Reads (env : Env π) (R : List (Token π) → Expr π → Nat → Prop) (depth : Nat)
    (ts : List (Token π)) : Except (ParseError π) (Expr π) × List (Token π) → Prop
  | (.ok e, r) => ∃ p n, ts = p ++ r ∧ R p e n ∧ env.Fits depth n
  | (.error x, r) =>
    x.found = env.peek r ∧
      (x.kindName ≠ "NESTING_TOO_DEEP" → ∃ p c e n, ts = p ++ r ∧ R (p ++ c) e n ∧ Expects x c)

namespace Reads

variable {env : Env π} {R R' : List (Token π) → Expr π → Nat → Prop} {d d' : Nat}

/-- A run after `pre` has read `pre` too. -/
theorem prepend (pre : List (Token π)) {r ts : List (Token π)}
    {o : Except (ParseError π) (Expr π) × List (Token π)} (h : Reads env R d r o)
    (hts : ts = pre ++ r) (hR : ∀ p e n, R p e n → R' (pre ++ p) e n) :
    Reads env R' d ts o := by
  obtain ⟨_ | e, rest⟩ := o
  · obtain ⟨hfound, hcomplete⟩ := h
    refine ⟨hfound, fun hx => ?_⟩
    obtain ⟨p, c, e, n, rfl, hp, hc⟩ := hcomplete hx
    exact ⟨pre ++ p, c, e, n, by simp [hts], by simpa using hR _ _ _ hp, hc⟩
  · obtain ⟨p, n, rfl, hp, hfit⟩ := h
    exact ⟨pre ++ p, n, by simp [hts], hR _ _ _ hp, hfit⟩

/-- An error inside a part is an error of the whole, whose completions surround the part's. -/
theorem error_wrap (pre post : List (Token π)) {r₁ ts r : List (Token π)} {x : ParseError π}
    (h : Reads env R d' r₁ (.error x, r)) (hts : ts = pre ++ r₁)
    (hR : ∀ p e n, R p e n → ∃ e' n', R' (pre ++ p ++ post) e' n') :
    Reads env R' d ts (.error x, r) := by
  obtain ⟨hfound, hcomplete⟩ := h
  refine ⟨hfound, fun hx => ?_⟩
  obtain ⟨p, c, e, n, rfl, hp, hc⟩ := hcomplete hx
  obtain ⟨e', n', hp'⟩ := hR _ _ _ hp
  exact ⟨pre ++ p, c ++ post, e', n', by simp [hts], by simpa using hp', hc.append post⟩

/-- An error of `expect` after reading `p`: completable by a token of the wanted kind. -/
theorem expect_error (p c : List (Token π)) {r r' ts : List (Token π)} {k : TokenKind}
    {x : ParseError π} (hE : (expect env k r).view = (.error x, r')) (hts : ts = p ++ r)
    {u : Token π} (hu : u.kind = k) {e : Expr π} {n : Nat} (hp : R (p ++ u :: c) e n) :
    Reads env R d ts (.error x, r') := by
  obtain ⟨rfl, rfl⟩ := expect_eq_error env hE
  exact ⟨rfl, fun _ => ⟨p, u :: c, e, n, hts, hp, fun k' t hk' => by
    cases hk'; exact ⟨u, c, rfl, hu⟩⟩⟩

end Reads

/-! ## Every run reads what it says -/

variable [Inhabited π] (env : Env π)

/-- Soundness of the eight grammar functions and completability of their failures, by the
parser's own induction. The loops are stated for derivations that start with what was read
before them (`p₀`). -/
theorem reads_all (hend : env.atEnd.kind = .eof) :
    (∀ d ts, env.Fits d 0 → Reads env Comma d ts (comma env d ts).view) ∧
    (∀ d lhs ts p₀ n₀, Comma p₀ lhs n₀ → env.Fits d n₀ →
      Reads env (fun p e n => Comma (p₀ ++ p) e n) d ts (commaTail env d lhs ts).view) ∧
    (∀ d ts, env.Fits d 0 → Reads env Ternary d ts (ternary env d ts).view) ∧
    (∀ d level ts, env.Fits d 0 → Reads env (Binary level) d ts (binary env d level ts).view) ∧
    (∀ d level lhs ts p₀ n₀, Binary level p₀ lhs n₀ → env.Fits d n₀ →
      Reads env (fun p e n => Binary level (p₀ ++ p) e n) d ts
        (binaryTail env d level lhs ts).view) ∧
    (∀ d level ts, env.Fits d 0 →
      Reads env (Operand level) d ts (operand env d level ts).view) ∧
    (∀ d ts, env.Fits d 0 → Reads env Unary d ts (unary env d ts).view) ∧
    (∀ d ts, env.Fits d 0 → Reads env Primary d ts (primary env d ts).view) := by
  have hlit : isLiteralKind TokenKind.number = true := rfl
  apply comma.mutual_induct env
  -- `comma`: the first condition fails
  · intro d ts x r _ hT ihT hd
    rw [comma_view, Parsed.view_of_eq hT, andThen_error]
    have := ihT hd
    rw [Parsed.view_of_eq hT] at this
    exact this.error_wrap [] [] rfl fun p e n hp => ⟨e, n, by simpa using Comma.single hp⟩
  -- `comma`: the first condition is read, the loop goes on from there
  · intro d ts lhs r _ hT _ ihT ihTail hd
    have := ihT hd
    rw [Parsed.view_of_eq hT] at this
    obtain ⟨p, n, rfl, hp, hfit⟩ := this
    rw [comma_view, Parsed.view_of_eq hT, andThen_ok]
    exact (ihTail p n (.single hp) hfit).prepend p rfl fun _ _ _ h => h
  -- `commaTail`: the end of the list
  · intro d lhs p₀ n₀ hc hfit
    rw [commaTail_nil]
    exact ⟨[], n₀, rfl, by simpa using hc, hfit⟩
  -- `commaTail`: the condition after a comma fails
  · intro d lhs t rest hk x r _ hT ihT p₀ n₀ hc hfit
    rw [commaTail_comma env d lhs hk, Parsed.view_of_eq hT, andThen_error]
    have := ihT (hfit.mono (Nat.zero_le _))
    rw [Parsed.view_of_eq hT] at this
    exact this.error_wrap [t] [] rfl fun p e n hp =>
      ⟨_, _, by simpa using Comma.more hc hk hp⟩
  -- `commaTail`: one more condition, and the loop goes on
  · intro d lhs t rest hk rhs r _ hT _ ihT ihTail p₀ n₀ hc hfit
    have := ihT (hfit.mono (Nat.zero_le _))
    rw [Parsed.view_of_eq hT] at this
    obtain ⟨p, m, rfl, hp, hfitp⟩ := this
    rw [commaTail_comma env d lhs hk, Parsed.view_of_eq hT, andThen_ok]
    exact (ihTail _ _ (.more hc hk hp) (hfit.max hfitp)).prepend (t :: p) rfl
      fun _ _ _ h => by simpa using h
  -- `commaTail`: no comma, the loop stops
  · intro d lhs t rest hk p₀ n₀ hc hfit
    rw [commaTail_stop env d lhs (by rwa [Env.peek_cons])]
    exact ⟨[], n₀, rfl, by simpa using hc, hfit⟩
  -- `ternary`: the limit is reached
  · intro d ts n hb _
    rw [ternary_blocked env d hb]
    exact ⟨rfl, fun hx => absurd rfl hx⟩
  -- `ternary`: the condition fails
  · intro d ts hopen x r _ hB ihB _
    have hd' := Env.fits_succ.2 (Env.blocks_eq_none_iff.1 hopen)
    have := ihB hd'
    rw [Parsed.view_of_eq hB] at this
    rw [ternary_error env d hopen (Parsed.view_of_eq hB)]
    exact this.error_wrap [] [] rfl fun p e n hp => ⟨e, n + 1, by simpa using Ternary.plain hp⟩
  -- `ternary`: the condition is all there is
  · intro d ts hopen c _ hB ihB _
    have := ihB (Env.fits_succ.2 (Env.blocks_eq_none_iff.1 hopen))
    rw [Parsed.view_of_eq hB] at this
    obtain ⟨p, n, rfl, hp, hfit⟩ := this
    rw [ternary_end env d hopen (Parsed.view_of_eq hB)]
    exact ⟨p, n + 1, rfl, .plain hp, Env.fits_succ.1 hfit⟩
  -- `ternary`: the then-branch fails
  · intro d ts hopen c q r1 _ hB hq _ _ x r _ hC ihB ihC _
    have hd' := Env.fits_succ.2 (Env.blocks_eq_none_iff.1 hopen)
    have hb := ihB hd'
    rw [Parsed.view_of_eq hB] at hb
    obtain ⟨p, n, rfl, hp, -⟩ := hb
    have hc := ihC hd'
    rw [Parsed.view_of_eq hC] at hc
    rw [ternary_question env d hopen (Parsed.view_of_eq hB) hq, Parsed.view_of_eq hC,
      andThen_error]
    exact hc.error_wrap (p ++ [q]) ([Token.ofKind .colon, Token.ofKind .number])
      (by simp) fun u e m hu => ⟨_, _, by
        simpa using Ternary.cond hp hq hu (Token.kind_ofKind _) (Ternary.literal hlit)⟩
  -- `ternary`: no `:` after the then-branch
  · intro d ts hopen c q r1 _ hB hq _ _ th r2 _ hC x r3 _ hE ihB ihC _
    have hd' := Env.fits_succ.2 (Env.blocks_eq_none_iff.1 hopen)
    have hb := ihB hd'
    rw [Parsed.view_of_eq hB] at hb
    obtain ⟨p, n, rfl, hp, -⟩ := hb
    have hc := ihC hd'
    rw [Parsed.view_of_eq hC] at hc
    obtain ⟨u, m, rfl, hu, -⟩ := hc
    rw [ternary_question env d hopen (Parsed.view_of_eq hB) hq, Parsed.view_of_eq hC,
      andThen_ok, Parsed.view_of_eq hE, andThen_error]
    exact Reads.expect_error (p ++ q :: u) [Token.ofKind .number] (Parsed.view_of_eq hE) (by simp)
      (Token.kind_ofKind .colon)
      (by simpa using Ternary.cond hp hq hu (Token.kind_ofKind _) (Ternary.literal hlit))
  -- `ternary`: the else-branch fails
  · intro d ts hopen c q r1 _ hB hq _ _ th r2 _ hC a r3 _ hE _ x r4 _ hT ihB ihC ihT _
    have hd' := Env.fits_succ.2 (Env.blocks_eq_none_iff.1 hopen)
    have hb := ihB hd'
    rw [Parsed.view_of_eq hB] at hb
    obtain ⟨p, n, rfl, hp, -⟩ := hb
    have hc := ihC hd'
    rw [Parsed.view_of_eq hC] at hc
    obtain ⟨u, m, rfl, hu, -⟩ := hc
    obtain ⟨rfl, ha⟩ := expect_eq_ok env hend (by decide) (Parsed.view_of_eq hE)
    have ht := ihT hd'
    rw [Parsed.view_of_eq hT] at ht
    rw [ternary_question env d hopen (Parsed.view_of_eq hB) hq, Parsed.view_of_eq hC,
      andThen_ok, Parsed.view_of_eq hE, andThen_ok, Parsed.view_of_eq hT, andThen_error]
    exact ht.error_wrap (p ++ q :: (u ++ [a])) [] (by simp)
      fun v e k hv => ⟨_, _, by simpa using Ternary.cond hp hq hu ha hv⟩
  -- `ternary`: a whole `c ? t : e`
  · intro d ts hopen c q r1 _ hB hq _ _ th r2 _ hC a r3 _ hE _ el r4 _ hT ihB ihC ihT _
    have hd' := Env.fits_succ.2 (Env.blocks_eq_none_iff.1 hopen)
    have hb := ihB hd'
    rw [Parsed.view_of_eq hB] at hb
    obtain ⟨p, n, rfl, hp, hfitp⟩ := hb
    have hc := ihC hd'
    rw [Parsed.view_of_eq hC] at hc
    obtain ⟨u, m, rfl, hu, hfitu⟩ := hc
    obtain ⟨rfl, ha⟩ := expect_eq_ok env hend (by decide) (Parsed.view_of_eq hE)
    have ht := ihT hd'
    rw [Parsed.view_of_eq hT] at ht
    obtain ⟨v, k, rfl, hv, hfitv⟩ := ht
    rw [ternary_question env d hopen (Parsed.view_of_eq hB) hq, Parsed.view_of_eq hC,
      andThen_ok, Parsed.view_of_eq hE, andThen_ok, Parsed.view_of_eq hT, andThen_ok]
    exact ⟨p ++ q :: (u ++ a :: v), _, by simp, Ternary.cond hp hq hu ha hv,
      Env.fits_succ.1 (hfitp.max (hfitu.max hfitv))⟩
  -- `ternary`: a condition followed by something else than `?`
  · intro d ts hopen c q r1 _ hB hq ihB _
    have := ihB (Env.fits_succ.2 (Env.blocks_eq_none_iff.1 hopen))
    rw [Parsed.view_of_eq hB] at this
    obtain ⟨p, n, rfl, hp, hfit⟩ := this
    rw [ternary_not_question env d hopen (Parsed.view_of_eq hB) hq]
    exact ⟨p, n + 1, rfl, .plain hp, Env.fits_succ.1 hfit⟩
  -- `binary`: the first operand fails
  · intro d level ts x r _ hO ihO hd
    have := ihO hd
    rw [Parsed.view_of_eq hO] at this
    rw [binary_view, Parsed.view_of_eq hO, andThen_error]
    exact this.error_wrap [] [] rfl fun p e n hp => ⟨e, n, by simpa using Binary.single hp⟩
  -- `binary`: the first operand is read, the loop goes on from there
  · intro d level ts lhs r _ hO _ ihO ihTail hd
    have := ihO hd
    rw [Parsed.view_of_eq hO] at this
    obtain ⟨p, n, rfl, hp, hfit⟩ := this
    rw [binary_view, Parsed.view_of_eq hO, andThen_ok]
    exact (ihTail p n (.single hp) hfit).prepend p rfl fun _ _ _ h => h
  -- `binaryTail`: the end of the list
  · intro d level lhs p₀ n₀ hb hfit
    rw [binaryTail_nil]
    exact ⟨[], n₀, rfl, by simpa using hb, hfit⟩
  -- `binaryTail`: the operand after an operator fails
  · intro d level lhs t rest hk x r _ hO ihO p₀ n₀ hb hfit
    have hk' := List.contains_iff_mem.1 hk
    have := ihO (hfit.mono (Nat.zero_le _))
    rw [Parsed.view_of_eq hO] at this
    rw [binaryTail_operator env d level lhs hk', Parsed.view_of_eq hO, andThen_error]
    exact this.error_wrap [t] [] rfl fun p e n hp =>
      ⟨_, _, by simpa using Binary.more hb hk' hp⟩
  -- `binaryTail`: one more operand, and the loop goes on
  · intro d level lhs t rest hk rhs r _ hO _ ihO ihTail p₀ n₀ hb hfit
    have hk' := List.contains_iff_mem.1 hk
    have := ihO (hfit.mono (Nat.zero_le _))
    rw [Parsed.view_of_eq hO] at this
    obtain ⟨p, m, rfl, hp, hfitp⟩ := this
    rw [binaryTail_operator env d level lhs hk', Parsed.view_of_eq hO, andThen_ok]
    exact (ihTail _ _ (.more hb hk' hp) (hfit.max hfitp)).prepend (t :: p) rfl
      fun _ _ _ h => by simpa using h
  -- `binaryTail`: no operator of the level, the loop stops
  · intro d level lhs t rest hk p₀ n₀ hb hfit
    rw [binaryTail_stop env d level lhs
      (by rw [Env.peek_cons]; exact fun h => hk (List.contains_iff_mem.2 h))]
    exact ⟨[], n₀, rfl, by simpa using hb, hfit⟩
  -- `operand`, one case per level
  · intro d ts ih hd
    rw [operand_equality]
    exact (ih hd).prepend [] rfl fun _ _ _ h => .equality h
  · intro d ts ih hd
    rw [operand_comparison]
    exact (ih hd).prepend [] rfl fun _ _ _ h => .comparison h
  · intro d ts ih hd
    rw [operand_term]
    exact (ih hd).prepend [] rfl fun _ _ _ h => .term h
  · intro d ts ih hd
    rw [operand_factor]
    exact (ih hd).prepend [] rfl fun _ _ _ h => .factor h
  -- `unary`: the primary after the prefix operators fails
  · intro d ts ops r _ hpre _ x r₁ _ hP ihP hd
    obtain ⟨hsplit, hops⟩ := prefixRun_spec ts
    rw [hpre] at hsplit hops
    have := ihP hd
    rw [Parsed.view_of_eq hP] at this
    rw [unary_view, hpre]
    dsimp only
    rw [Parsed.view_of_eq hP, andThen_error]
    exact this.error_wrap ops [] hsplit.symm fun p e n hp =>
      ⟨_, _, by simpa using Unary.prefixes hops (.primary hp)⟩
  -- `unary`: a primary after the prefix operators
  · intro d ts ops r _ hpre _ e r₁ _ hP ihP hd
    obtain ⟨hsplit, hops⟩ := prefixRun_spec ts
    rw [hpre] at hsplit hops
    have := ihP hd
    rw [Parsed.view_of_eq hP] at this
    obtain ⟨p, n, rfl, hp, hfit⟩ := this
    rw [unary_view, hpre]
    dsimp only
    rw [Parsed.view_of_eq hP, andThen_ok]
    exact ⟨ops ++ p, n, by simp [← hsplit], Unary.prefixes hops (.primary hp), hfit⟩
  -- `primary`: the end of the list
  · intro d _
    rw [primary_nil]
    exact ⟨rfl, fun _ => ⟨[], [Token.ofKind .number], _, _, rfl, .literal hlit,
      fun k t hx => by cases hx⟩⟩
  -- `primary`: a literal
  · intro d t rest ht hd
    rw [primary_literal env d ht]
    exact ⟨[t], 0, rfl, .literal ht, hd⟩
  -- `primary`: the expression inside `(` fails
  · intro d t rest hl hp x r _ hC ihC hd
    have := ihC hd
    rw [Parsed.view_of_eq hC] at this
    rw [primary_group env d (by simpa using hl) hp, Parsed.view_of_eq hC, andThen_error]
    exact this.error_wrap [t] [Token.ofKind .rightParen] rfl
      fun p e n h => ⟨_, _, by simpa using Primary.group hp h (Token.kind_ofKind _)⟩
  -- `primary`: no `)` after the expression
  · intro d t rest hl hp inner r _ hC x r₃ _ hE ihC hd
    have := ihC hd
    rw [Parsed.view_of_eq hC] at this
    obtain ⟨u, n, rfl, hu, -⟩ := this
    rw [primary_group env d (by simpa using hl) hp, Parsed.view_of_eq hC, andThen_ok,
      Parsed.view_of_eq hE, andThen_error]
    exact Reads.expect_error (t :: u) [] (Parsed.view_of_eq hE) rfl
      (Token.kind_ofKind .rightParen)
      (by simpa using Primary.group hp hu (Token.kind_ofKind _))
  -- `primary`: a whole `( e )`
  · intro d t rest hl hp inner r _ hC a r₃ _ hE ihC hd
    have := ihC hd
    rw [Parsed.view_of_eq hC] at this
    obtain ⟨u, n, rfl, hu, hfit⟩ := this
    obtain ⟨rfl, ha⟩ := expect_eq_ok env hend (by decide) (Parsed.view_of_eq hE)
    rw [primary_group env d (by simpa using hl) hp, Parsed.view_of_eq hC, andThen_ok,
      Parsed.view_of_eq hE, andThen_ok]
    exact ⟨t :: (u ++ [a]), n, by simp, Primary.group hp hu ha, hfit⟩
  -- `primary`: a token that starts no expression
  · intro d t rest hl hp _
    rw [primary_other env d (by simpa using hl) hp]
    exact ⟨rfl, fun _ => ⟨[], [Token.ofKind .number], _, _, rfl, .literal hlit,
      fun k t hx => by cases hx⟩⟩

end Sentence

end ExprFront
