import ExprFront.Parse.Sentence
/-!
# Facts about derivations alone

Three facts about the sentences of the grammar that do not involve the parser:

* a sentence is made of literals, operators, `,`, `?`, `:` and parentheses
  (`Comma.sentenceKind`): no token of a derivation is an end-of-input token
  (`Comma.kind_ne_eof`), so a sentence never reaches past the first one, and none is a comment;
* a derivation depends on its tokens only through their kinds: any tokens of the same kinds
  derive a tree too, with the same nesting (`Comma.exists_of_kinds_eq`);
* a primary starts with a token that is no prefix operator (`Primary.exists_cons`), which is
  what stops a run of prefix operators in front of it.
-/

namespace ExprFront.Sentence

open Grammar

variable {π : Type}

/-- Splitting a list of tokens along the kinds of `a ++ t :: b`. -/
theorem map_kind_eq_append_cons {us a b : List (Token π)} {t : Token π}
    (h : us.map (·.kind) = (a ++ t :: b).map (·.kind)) :
    ∃ u₁ t' u₂, us = u₁ ++ t' :: u₂ ∧ u₁.map (·.kind) = a.map (·.kind) ∧ t'.kind = t.kind ∧
      u₂.map (·.kind) = b.map (·.kind) := by
  rw [List.map_append, List.map_cons] at h
  obtain ⟨u₁, u, rfl, h₁, hu⟩ := List.map_eq_append_iff.1 h
  obtain ⟨t', u₂, rfl, ht, h₂⟩ := List.map_eq_cons_iff.1 hu
  exact ⟨u₁, t', u₂, rfl, h₁, ht, h₂⟩

theorem isPrefixKind_eq_false_of_isLiteralKind {k : TokenKind} (h : isLiteralKind k = true) :
    isPrefixKind k = false := by
  cases k <;> simp_all [isLiteralKind, isPrefixKind]

theorem Primary.exists_cons {ts : List (Token π)} {e : Expr π} {n : Nat} (h : Primary ts e n) :
    ∃ t rest, ts = t :: rest ∧ isPrefixKind t.kind = false := by
  cases h with
  | literal hl => exact ⟨_, [], rfl, isPrefixKind_eq_false_of_isLiteralKind hl⟩
  | group ho _ _ => exact ⟨_, _, rfl, by simp [ho, isPrefixKind]⟩

/-! ## What a sentence is made of -/

/-- The kinds a sentence is made of: literals, prefix and binary operators, the comma, `?`,
`:` and parentheses. -/
def isSentenceKind (k : TokenKind) : Bool :=
  isLiteralKind k || isPrefixKind k || k ∈ [.comma, .question, .colon, .leftParen, .rightParen] ||
    [BinaryLevel.equality, .comparison, .term, .factor].any (k ∈ ·.operators)

theorem isSentenceKind_of_mem_operators {level : BinaryLevel} {k : TokenKind}
    (hk : k ∈ level.operators) : isSentenceKind k = true := by
  cases level <;> simp_all [isSentenceKind, BinaryLevel.operators]

mutual

theorem Comma.sentenceKind {ts : List (Token π)} {e : Expr π} {n : Nat} :
    Comma ts e n → ∀ t ∈ ts, isSentenceKind t.kind = true
  | .single h => h.sentenceKind
  | .more hc hk ht => by
    intro t hmem
    simp only [List.mem_append, List.mem_cons] at hmem
    rcases hmem with hmem | rfl | hmem
    · exact hc.sentenceKind t hmem
    · simp [hk, isSentenceKind]
    · exact ht.sentenceKind t hmem

theorem Ternary.sentenceKind {ts : List (Token π)} {e : Expr π} {n : Nat} :
    Ternary ts e n → ∀ t ∈ ts, isSentenceKind t.kind = true
  | .plain h => h.sentenceKind
  | .cond hb hq hc hk ht => by
    intro t hmem
    simp only [List.mem_append, List.mem_cons] at hmem
    rcases hmem with hmem | rfl | hmem | rfl | hmem
    · exact hb.sentenceKind t hmem
    · simp [hq, isSentenceKind]
    · exact hc.sentenceKind t hmem
    · simp [hk, isSentenceKind]
    · exact ht.sentenceKind t hmem

theorem Binary.sentenceKind {level : BinaryLevel} {ts : List (Token π)} {e : Expr π} {n : Nat} :
    Binary level ts e n → ∀ t ∈ ts, isSentenceKind t.kind = true
  | .single h => h.sentenceKind
  | .more hb hk ho => by
    intro t hmem
    simp only [List.mem_append, List.mem_cons] at hmem
    rcases hmem with hmem | rfl | hmem
    · exact hb.sentenceKind t hmem
    · exact isSentenceKind_of_mem_operators hk
    · exact ho.sentenceKind t hmem

theorem Operand.sentenceKind {level : BinaryLevel} {ts : List (Token π)} {e : Expr π} {n : Nat} :
    Operand level ts e n → ∀ t ∈ ts, isSentenceKind t.kind = true
  | .equality h => h.sentenceKind
  | .comparison h => h.sentenceKind
  | .term h => h.sentenceKind
  | .factor h => h.sentenceKind

theorem Unary.sentenceKind {ts : List (Token π)} {e : Expr π} {n : Nat} :
    Unary ts e n → ∀ t ∈ ts, isSentenceKind t.kind = true
  | .op hp h => by
    intro t hmem
    rcases List.mem_cons.1 hmem with rfl | hmem
    · simp [hp, isSentenceKind]
    · exact h.sentenceKind t hmem
  | .primary h => h.sentenceKind

theorem Primary.sentenceKind {ts : List (Token π)} {e : Expr π} {n : Nat} :
    Primary ts e n → ∀ t ∈ ts, isSentenceKind t.kind = true
  | .literal hl => by
    intro t hmem
    rw [List.mem_singleton.1 hmem]
    simp [hl, isSentenceKind]
  | .group ho hc hk => by
    intro t hmem
    rcases List.mem_cons.1 hmem with rfl | hmem
    · simp [ho, isSentenceKind]
    rcases List.mem_append.1 hmem with hmem | hmem
    · exact hc.sentenceKind t hmem
    · rw [List.mem_singleton.1 hmem]
      simp [hk, isSentenceKind]

end

theorem Comma.kind_ne_eof {ts : List (Token π)} {e : Expr π} {n : Nat} (h : Comma ts e n) :
    ∀ t ∈ ts, t.kind ≠ .eof := fun t ht he => by
  have := h.sentenceKind t ht
  rw [he] at this
  exact absurd this (by decide)

theorem Comma.kind_ne_comment {ts : List (Token π)} {e : Expr π} {n : Nat} (h : Comma ts e n) :
    ∀ t ∈ ts, t.kind ≠ .comment := fun t ht hc => by
  have := h.sentenceKind t ht
  rw [hc] at this
  exact absurd this (by decide)

/-! ## Only the kinds matter -/

mutual

theorem Comma.exists_of_kinds_eq {ts : List (Token π)} {e : Expr π} {n : Nat} :
    Comma ts e n → ∀ us : List (Token π), us.map (·.kind) = ts.map (·.kind) →
      ∃ e', Comma us e' n
  | .single h, us, hus => by
    obtain ⟨e', h'⟩ := h.exists_of_kinds_eq us hus
    exact ⟨e', .single h'⟩
  | .more hc hk ht, us, hus => by
    obtain ⟨u₁, t', u₂, rfl, h₁, hk', h₂⟩ := map_kind_eq_append_cons hus
    obtain ⟨e₁, hc'⟩ := hc.exists_of_kinds_eq u₁ h₁
    obtain ⟨e₂, ht'⟩ := ht.exists_of_kinds_eq u₂ h₂
    exact ⟨_, .more hc' (hk'.trans hk) ht'⟩

theorem Ternary.exists_of_kinds_eq {ts : List (Token π)} {e : Expr π} {n : Nat} :
    Ternary ts e n → ∀ us : List (Token π), us.map (·.kind) = ts.map (·.kind) →
      ∃ e', Ternary us e' n
  | .plain h, us, hus => by
    obtain ⟨e', h'⟩ := h.exists_of_kinds_eq us hus
    exact ⟨e', .plain h'⟩
  | .cond hb hq hc hk ht, us, hus => by
    obtain ⟨u₁, q', u, rfl, h₁, hq', hu⟩ := map_kind_eq_append_cons hus
    obtain ⟨u₂, k', u₃, rfl, h₂, hk', h₃⟩ := map_kind_eq_append_cons hu
    obtain ⟨c', hb'⟩ := hb.exists_of_kinds_eq u₁ h₁
    obtain ⟨t', hc'⟩ := hc.exists_of_kinds_eq u₂ h₂
    obtain ⟨f', ht'⟩ := ht.exists_of_kinds_eq u₃ h₃
    exact ⟨_, .cond hb' (hq'.trans hq) hc' (hk'.trans hk) ht'⟩

theorem Binary.exists_of_kinds_eq {level : BinaryLevel} {ts : List (Token π)} {e : Expr π}
    {n : Nat} :
    Binary level ts e n → ∀ us : List (Token π), us.map (·.kind) = ts.map (·.kind) →
      ∃ e', Binary level us e' n
  | .single h, us, hus => by
    obtain ⟨e', h'⟩ := h.exists_of_kinds_eq us hus
    exact ⟨e', .single h'⟩
  | .more hb hk ho, us, hus => by
    obtain ⟨u₁, t', u₂, rfl, h₁, hk', h₂⟩ := map_kind_eq_append_cons hus
    obtain ⟨e₁, hb'⟩ := hb.exists_of_kinds_eq u₁ h₁
    obtain ⟨e₂, ho'⟩ := ho.exists_of_kinds_eq u₂ h₂
    exact ⟨_, .more hb' (hk' ▸ hk) ho'⟩

theorem Operand.exists_of_kinds_eq {level : BinaryLevel} {ts : List (Token π)} {e : Expr π}
    {n : Nat} :
    Operand level ts e n → ∀ us : List (Token π), us.map (·.kind) = ts.map (·.kind) →
      ∃ e', Operand level us e' n
  | .equality h, us, hus => (h.exists_of_kinds_eq us hus).imp fun _ h' => .equality h'
  | .comparison h, us, hus => (h.exists_of_kinds_eq us hus).imp fun _ h' => .comparison h'
  | .term h, us, hus => (h.exists_of_kinds_eq us hus).imp fun _ h' => .term h'
  | .factor h, us, hus => (h.exists_of_kinds_eq us hus).imp fun _ h' => .factor h'

theorem Unary.exists_of_kinds_eq {ts : List (Token π)} {e : Expr π} {n : Nat} :
    Unary ts e n → ∀ us : List (Token π), us.map (·.kind) = ts.map (·.kind) →
      ∃ e', Unary us e' n
  | .op hp h, us, hus => by
    obtain ⟨t', u, rfl, ht, hu⟩ := List.map_eq_cons_iff.1 hus
    obtain ⟨e', h'⟩ := h.exists_of_kinds_eq u hu
    exact ⟨_, .op (ht ▸ hp) h'⟩
  | .primary h, us, hus => (h.exists_of_kinds_eq us hus).imp fun _ h' => .primary h'

theorem Primary.exists_of_kinds_eq {ts : List (Token π)} {e : Expr π} {n : Nat} :
    Primary ts e n → ∀ us : List (Token π), us.map (·.kind) = ts.map (·.kind) →
      ∃ e', Primary us e' n
  | .literal hl, us, hus => by
    obtain ⟨t', rfl, ht⟩ := List.map_eq_singleton_iff.1 hus
    exact ⟨_, .literal (ht ▸ hl)⟩
  | .group ho hc hk, us, hus => by
    obtain ⟨o', u, rfl, ho', hu⟩ := List.map_eq_cons_iff.1 hus
    rw [List.map_append] at hu
    obtain ⟨u₁, u₂, rfl, h₁, h₂⟩ := List.map_eq_append_iff.1 hu
    obtain ⟨c', rfl, hc'⟩ := List.map_eq_singleton_iff.1 h₂
    obtain ⟨e', hcomma⟩ := hc.exists_of_kinds_eq u₁ h₁
    exact ⟨_, .group (ho'.trans ho) hcomma (hc'.trans hk)⟩

end

end ExprFront.Sentence
