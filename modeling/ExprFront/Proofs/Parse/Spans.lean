import ExprFront.Parse.Sentence
/-!
# Where the nodes of a derived tree lie

A tree read from tokens keeps no token but its operators, yet every node knows where it starts:
a literal and a grouping store their span, and every other node starts where its first part
does, or at its operator for a prefix expression. So every node of a tree that a list of tokens
derives starts where one of those tokens starts (`Comma.startsAt`).

More is true: every node is derived from a stretch of the tokens and spans exactly that
stretch, from the start of its first token to the stop of its last (`Comma.spans`). Over
offsets, when the tokens come in source order, it follows that the nodes nest: each child lies
inside its parent and the children of a node follow one another (`Comma.nested`).

## Main definitions

* `Expr.nodes`, `Expr.children`: a tree and all its subtrees; the subtrees right below it.
* `Sentence.StartsAt`: every node starts at one of the tokens.
* `Sentence.SpansTokens`, `Sentence.NodesSpan`: a tree, and every node of it, spans its tokens.
* `Sentence.Ordered`, `Sentence.Nested`: tokens in source order; children inside their parent.
-/

namespace ExprFront

namespace Expr

variable {π : Type}

/-- A tree and its subtrees, the root first, then the nodes of its parts from left to right. -/
def nodes : Expr π → List (Expr π)
  | e@(literal ..) => [e]
  | e@(grouping inner _) => e :: inner.nodes
  | e@(unary _ operand) => e :: operand.nodes
  | e@(binary l _ r) => e :: (l.nodes ++ r.nodes)
  | e@(condition c t f) => e :: (c.nodes ++ t.nodes ++ f.nodes)

theorem self_mem_nodes (e : Expr π) : e ∈ e.nodes := by
  cases e <;> simp [nodes]

/-- The subtrees right below a node, from left to right. -/
def children : Expr π → List (Expr π)
  | literal .. => []
  | grouping inner _ => [inner]
  | unary _ operand => [operand]
  | binary l _ r => [l, r]
  | condition c t f => [c, t, f]

/-- A node of a tree is the tree itself or a node of one of its children. -/
theorem mem_nodes {m e : Expr π} : m ∈ e.nodes ↔ m = e ∨ ∃ x ∈ e.children, m ∈ x.nodes := by
  cases e <;> simp [nodes, children]

end Expr

namespace Sentence

open Grammar

variable {π : Type}

/-- Every node of `e` starts where some token of `ts` starts. -/
def StartsAt (ts : List (Token π)) (e : Expr π) : Prop :=
  ∀ m ∈ e.nodes, ∃ t ∈ ts, t.start = m.span.start

namespace StartsAt

variable {ts us vs : List (Token π)} {e l r c f : Expr π} {t q k o cl : Token π}

theorem mono (h : StartsAt ts e) (hsub : ts ⊆ us) : StartsAt us e := fun m hm =>
  (h m hm).imp fun _ ht => ⟨hsub ht.1, ht.2⟩

theorem literal {v : Literal} : StartsAt [t] (.literal v ⟨t.start, t.stop⟩) := by
  intro m hm
  simp only [Expr.nodes, List.mem_singleton] at hm
  subst hm
  exact ⟨t, List.mem_singleton_self t, rfl⟩

theorem grouping {s : Span π} (h : StartsAt ts e) (hs : s.start = o.start) :
    StartsAt (o :: (ts ++ [cl])) (.grouping e s) := by
  intro m hm
  rcases List.mem_cons.1 hm with rfl | hm
  · exact ⟨o, List.mem_cons_self, hs.symm⟩
  · exact (h.mono fun x hx => List.mem_cons_of_mem _ (List.mem_append_left _ hx)) m hm

theorem unary (h : StartsAt ts e) : StartsAt (t :: ts) (.unary t e) := by
  intro m hm
  rcases List.mem_cons.1 hm with rfl | hm
  · exact ⟨t, List.mem_cons_self, rfl⟩
  · exact (h.mono fun x hx => List.mem_cons_of_mem _ hx) m hm

/-- A binary node starts with its left operand. -/
theorem binary (hl : StartsAt ts l) (hr : StartsAt us r) :
    StartsAt (ts ++ t :: us) (.binary l t r) := by
  have hl' : StartsAt (ts ++ t :: us) l := hl.mono fun x hx => List.mem_append_left _ hx
  have hr' : StartsAt (ts ++ t :: us) r :=
    hr.mono fun x hx => List.mem_append_right _ (List.mem_cons_of_mem _ hx)
  intro m hm
  rcases List.mem_cons.1 hm with rfl | hm
  · exact hl' l (Expr.self_mem_nodes l)
  · rcases List.mem_append.1 hm with hm | hm
    · exact hl' m hm
    · exact hr' m hm

/-- A condition starts with its condition. -/
theorem condition (hc : StartsAt ts c) (ht : StartsAt us e) (hf : StartsAt vs f) :
    StartsAt (ts ++ q :: (us ++ k :: vs)) (.condition c e f) := by
  have hc' : StartsAt (ts ++ q :: (us ++ k :: vs)) c :=
    hc.mono fun x hx => List.mem_append_left _ hx
  have ht' : StartsAt (ts ++ q :: (us ++ k :: vs)) e := ht.mono fun x hx =>
    List.mem_append_right _ (List.mem_cons_of_mem _ (List.mem_append_left _ hx))
  have hf' : StartsAt (ts ++ q :: (us ++ k :: vs)) f := hf.mono fun x hx => List.mem_append_right _
    (List.mem_cons_of_mem _ (List.mem_append_right _ (List.mem_cons_of_mem _ hx)))
  intro m hm
  rcases List.mem_cons.1 hm with rfl | hm
  · exact hc' c (Expr.self_mem_nodes c)
  · rcases List.mem_append.1 hm with hm | hm
    · rcases List.mem_append.1 hm with hm | hm
      · exact hc' m hm
      · exact ht' m hm
    · exact hf' m hm

end StartsAt

mutual

theorem Comma.startsAt {ts : List (Token π)} {e : Expr π} {n : Nat} (h : Comma ts e n) :
    StartsAt ts e :=
  match h with
  | .single ht => ht.startsAt
  | .more hc _ ht => hc.startsAt.binary ht.startsAt

theorem Ternary.startsAt {ts : List (Token π)} {e : Expr π} {n : Nat} (h : Ternary ts e n) :
    StartsAt ts e :=
  match h with
  | .plain hb => hb.startsAt
  | .cond hb _ hc _ ht => hb.startsAt.condition hc.startsAt ht.startsAt

theorem Binary.startsAt {level : BinaryLevel} {ts : List (Token π)} {e : Expr π} {n : Nat}
    (h : Binary level ts e n) : StartsAt ts e :=
  match h with
  | .single ho => ho.startsAt
  | .more hb _ ho => hb.startsAt.binary ho.startsAt

theorem Operand.startsAt {level : BinaryLevel} {ts : List (Token π)} {e : Expr π} {n : Nat}
    (h : Operand level ts e n) : StartsAt ts e :=
  match h with
  | .equality hb => hb.startsAt
  | .comparison hb => hb.startsAt
  | .term hb => hb.startsAt
  | .factor hu => hu.startsAt

theorem Unary.startsAt {ts : List (Token π)} {e : Expr π} {n : Nat} (h : Unary ts e n) :
    StartsAt ts e :=
  match h with
  | .op _ hu => hu.startsAt.unary
  | .primary hp => hp.startsAt

theorem Primary.startsAt {ts : List (Token π)} {e : Expr π} {n : Nat} (h : Primary ts e n) :
    StartsAt ts e :=
  match h with
  | .literal _ => StartsAt.literal
  | .group _ hc _ => hc.startsAt.grouping rfl

end

/-! ## Where the nodes stop -/

/-- `w` derives `e` by the production that builds the root of `e`. -/
inductive Derives : List (Token π) → Expr π → Prop where
  | comma {w : List (Token π)} {e : Expr π} {n : Nat} : Comma w e n → Derives w e
  | ternary {w : List (Token π)} {e : Expr π} {n : Nat} : Ternary w e n → Derives w e
  | binary {level : BinaryLevel} {w : List (Token π)} {e : Expr π} {n : Nat} :
      Binary level w e n → Derives w e
  | unary {w : List (Token π)} {e : Expr π} {n : Nat} : Unary w e n → Derives w e
  | primary {w : List (Token π)} {e : Expr π} {n : Nat} : Primary w e n → Derives w e

/-- `e` spans the tokens `w`: from the start of the first to the stop of the last. -/
def SpansTokens (w : List (Token π)) (e : Expr π) : Prop :=
  ∃ a b, w.head? = some a ∧ w.getLast? = some b ∧ e.span = ⟨a.start, b.stop⟩

/-- Every node of `e` is derived from a stretch of `w`, which it spans. -/
def NodesSpan (w : List (Token π)) (e : Expr π) : Prop :=
  ∀ m ∈ e.nodes, ∃ v, v <:+: w ∧ Derives v m ∧ SpansTokens v m

namespace SpansTokens

variable {ts us vs : List (Token π)} {e l r c f : Expr π} {t q k o cl : Token π}

theorem literal {v : Literal} : SpansTokens [t] (.literal v ⟨t.start, t.stop⟩) :=
  ⟨t, t, rfl, rfl, rfl⟩

theorem grouping {s : Span π} (hs : s = ⟨o.start, cl.stop⟩) :
    SpansTokens (o :: (ts ++ [cl])) (.grouping e s) :=
  ⟨o, cl, rfl, by rw [← List.cons_append, List.getLast?_concat], hs⟩

/-- A prefix expression starts at its operator. -/
theorem unary (h : SpansTokens ts e) : SpansTokens (t :: ts) (.unary t e) := by
  obtain ⟨a, b, ha, hb, he⟩ := h
  refine ⟨t, b, rfl, by simp [List.getLast?_cons, hb], ?_⟩
  simp [Expr.span, he]

/-- A binary node starts with its left operand and stops with its right one. -/
theorem binary (hl : SpansTokens ts l) (hr : SpansTokens us r) :
    SpansTokens (ts ++ t :: us) (.binary l t r) := by
  obtain ⟨a, _, ha, _, hla⟩ := hl
  obtain ⟨_, b, _, hb, hrb⟩ := hr
  refine ⟨a, b, by simp [List.head?_append, ha], by simp [List.getLast?_cons, hb], ?_⟩
  simp [Expr.span, hla, hrb]

/-- A condition starts with its condition and stops with its else-branch. -/
theorem condition (hc : SpansTokens ts c) (hf : SpansTokens vs f) :
    SpansTokens (ts ++ q :: (us ++ k :: vs)) (.condition c e f) := by
  obtain ⟨a, _, ha, _, hca⟩ := hc
  obtain ⟨_, b, _, hb, hfb⟩ := hf
  refine ⟨a, b, by simp [List.head?_append, ha], by simp [List.getLast?_cons, hb], ?_⟩
  simp [Expr.span, hca, hfb]

end SpansTokens

namespace NodesSpan

variable {w ts us vs : List (Token π)} {e l r c f : Expr π} {t q k o cl : Token π}

/-- The nodes of a tree derived from `w` and spanning it lie in `w` when those of its children
lie in stretches of `w`. -/
theorem of_children (hd : Derives w e) (hs : SpansTokens w e)
    (hch : ∀ x ∈ e.children, ∃ v, v <:+: w ∧ NodesSpan v x) : NodesSpan w e := by
  intro m hm
  rcases Expr.mem_nodes.1 hm with rfl | ⟨x, hx, hm⟩
  · exact ⟨w, List.infix_refl w, hd, hs⟩
  · obtain ⟨v, hv, hnodes⟩ := hch x hx
    obtain ⟨v', hv', hd', hs'⟩ := hnodes m hm
    exact ⟨v', hv'.trans hv, hd', hs'⟩

theorem literal {v : Literal} (hd : Derives [t] (.literal v ⟨t.start, t.stop⟩)) :
    NodesSpan [t] (.literal v ⟨t.start, t.stop⟩) :=
  of_children hd .literal (by simp [Expr.children])

theorem grouping {s : Span π} (hd : Derives (o :: (ts ++ [cl])) (.grouping e s))
    (hs : s = ⟨o.start, cl.stop⟩) (h : NodesSpan ts e) :
    NodesSpan (o :: (ts ++ [cl])) (.grouping e s) :=
  of_children hd (.grouping hs) (by simpa [Expr.children] using ⟨ts, ⟨[o], [cl], by simp⟩, h⟩)

theorem unary (hd : Derives (t :: ts) (.unary t e)) (hs : SpansTokens ts e) (h : NodesSpan ts e) :
    NodesSpan (t :: ts) (.unary t e) :=
  of_children hd hs.unary (by simpa [Expr.children] using ⟨ts, ⟨[t], [], by simp⟩, h⟩)

theorem binary (hd : Derives (ts ++ t :: us) (.binary l t r)) (hsl : SpansTokens ts l)
    (hsr : SpansTokens us r) (hl : NodesSpan ts l) (hr : NodesSpan us r) :
    NodesSpan (ts ++ t :: us) (.binary l t r) :=
  of_children hd (hsl.binary hsr) (by
    simpa [Expr.children] using
      ⟨⟨ts, ⟨[], t :: us, by simp⟩, hl⟩, ⟨us, ⟨ts ++ [t], [], by simp⟩, hr⟩⟩)

theorem condition (hd : Derives (ts ++ q :: (us ++ k :: vs)) (.condition c e f))
    (hsc : SpansTokens ts c) (hsf : SpansTokens vs f) (hc : NodesSpan ts c) (he : NodesSpan us e)
    (hf : NodesSpan vs f) : NodesSpan (ts ++ q :: (us ++ k :: vs)) (.condition c e f) :=
  of_children hd (hsc.condition hsf) (by
    simpa [Expr.children] using
      ⟨⟨ts, ⟨[], q :: (us ++ k :: vs), by simp⟩, hc⟩, ⟨us, ⟨ts ++ [q], k :: vs, by simp⟩, he⟩,
        ⟨vs, ⟨ts ++ q :: (us ++ [k]), [], by simp⟩, hf⟩⟩)

end NodesSpan

/-! Every derivation spans its tokens, and so does every node of its tree, by structural
recursion on the derivation: one line per production, the unit productions passing through. -/

mutual

theorem Comma.spans {ts : List (Token π)} {e : Expr π} {n : Nat} (h : Comma ts e n) :
    SpansTokens ts e ∧ NodesSpan ts e :=
  match h with
  | .single ht => ht.spans
  | .more hc hk ht =>
    ⟨hc.spans.1.binary ht.spans.1,
      .binary (.comma (.more hc hk ht)) hc.spans.1 ht.spans.1 hc.spans.2 ht.spans.2⟩

theorem Ternary.spans {ts : List (Token π)} {e : Expr π} {n : Nat} (h : Ternary ts e n) :
    SpansTokens ts e ∧ NodesSpan ts e :=
  match h with
  | .plain hb => hb.spans
  | .cond hb hq hc hk ht =>
    ⟨hb.spans.1.condition ht.spans.1,
      .condition (.ternary (.cond hb hq hc hk ht)) hb.spans.1 ht.spans.1 hb.spans.2 hc.spans.2
        ht.spans.2⟩

theorem Binary.spans {level : BinaryLevel} {ts : List (Token π)} {e : Expr π} {n : Nat}
    (h : Binary level ts e n) : SpansTokens ts e ∧ NodesSpan ts e :=
  match h with
  | .single ho => ho.spans
  | .more hb hk ho =>
    ⟨hb.spans.1.binary ho.spans.1,
      .binary (.binary (.more hb hk ho)) hb.spans.1 ho.spans.1 hb.spans.2 ho.spans.2⟩

theorem Operand.spans {level : BinaryLevel} {ts : List (Token π)} {e : Expr π} {n : Nat}
    (h : Operand level ts e n) : SpansTokens ts e ∧ NodesSpan ts e :=
  match h with
  | .equality hb => hb.spans
  | .comparison hb => hb.spans
  | .term hb => hb.spans
  | .factor hu => hu.spans

theorem Unary.spans {ts : List (Token π)} {e : Expr π} {n : Nat} (h : Unary ts e n) :
    SpansTokens ts e ∧ NodesSpan ts e :=
  match h with
  | .op hk hu => ⟨hu.spans.1.unary, .unary (.unary (.op hk hu)) hu.spans.1 hu.spans.2⟩
  | .primary hp => hp.spans

theorem Primary.spans {ts : List (Token π)} {e : Expr π} {n : Nat} (h : Primary ts e n) :
    SpansTokens ts e ∧ NodesSpan ts e :=
  match h with
  | .literal hk => ⟨.literal, .literal (.primary (.literal hk))⟩
  | .group ho hc hcl => ⟨.grouping rfl, .grouping (.primary (.group ho hc hcl)) rfl hc.spans.2⟩

end

/-! ## How the nodes nest

Over offsets, tokens read from a text come in source order, each ending where or before the
next starts. The nodes of a tree derived from such tokens then nest: every child lies inside
its parent, and the children of a node follow one another. -/

/-- Tokens in source order: none ends after it starts again, none after the next starts. -/
def Ordered (w : List (Token Nat)) : Prop :=
  w.Pairwise (fun a b => a.stop ≤ b.start) ∧ ∀ t ∈ w, t.start ≤ t.stop

/-- The children of a node lie inside its span, one after another. -/
def Nested (m : Expr Nat) : Prop :=
  (∀ x ∈ m.children, m.span.start ≤ x.span.start ∧ x.span.stop ≤ m.span.stop) ∧
    m.children.Pairwise (fun x y => x.span.stop ≤ y.span.start)

namespace Ordered

variable {w v ts us : List (Token Nat)}

theorem of_sublist (hw : Ordered w) (h : v.Sublist w) : Ordered v :=
  ⟨hw.1.sublist h, fun t ht => hw.2 t (h.subset ht)⟩

theorem of_infix (hw : Ordered w) (h : v <:+: w) : Ordered v :=
  hw.of_sublist h.sublist

theorem left (hw : Ordered (ts ++ us)) : Ordered ts :=
  hw.of_sublist (List.sublist_append_left ts us)

theorem right (hw : Ordered (ts ++ us)) : Ordered us :=
  hw.of_sublist (List.sublist_append_right ts us)

theorem tail {t : Token Nat} (hw : Ordered (t :: ts)) : Ordered ts :=
  hw.of_sublist (List.sublist_cons_self t ts)

theorem head_start_le {a t : Token Nat} (hw : Ordered w) (ha : w.head? = some a) (ht : t ∈ w) :
    a.start ≤ t.start := by
  obtain ⟨rest, rfl⟩ := List.head?_eq_some_iff.1 ha
  rcases List.mem_cons.1 ht with rfl | ht
  · exact Nat.le_refl _
  · have hat := List.rel_of_pairwise_cons hw.1 ht
    have ha := hw.2 a List.mem_cons_self
    omega

theorem stop_le_last {b t : Token Nat} (hw : Ordered w) (hb : w.getLast? = some b) (ht : t ∈ w) :
    t.stop ≤ b.stop := by
  obtain ⟨init, rfl⟩ := List.getLast?_eq_some_iff.1 hb
  rcases List.mem_append.1 ht with ht | ht
  · have htb := (List.pairwise_append.1 hw.1).2.2 t ht b (List.mem_singleton_self b)
    have hb := hw.2 b (by simp)
    omega
  · obtain rfl := List.mem_singleton.1 ht
    exact Nat.le_refl _

end Ordered

namespace SpansTokens

variable {w v ts us : List (Token Nat)} {e m x l r : Expr Nat}

theorem start_le_stop (hw : Ordered w) (h : SpansTokens w e) : e.span.start ≤ e.span.stop := by
  obtain ⟨a, b, ha, hb, he⟩ := h
  rw [he]
  exact Nat.le_trans (hw.2 a (List.mem_of_head? ha)) (hw.stop_le_last hb (List.mem_of_head? ha))

/-- A tree spanning a stretch of the tokens of another lies inside it. -/
theorem within (hw : Ordered w) (hm : SpansTokens w m) (hv : v <:+: w) (hx : SpansTokens v x) :
    m.span.start ≤ x.span.start ∧ x.span.stop ≤ m.span.stop := by
  obtain ⟨a, b, ha, hb, hma⟩ := hm
  obtain ⟨c, d, hc, hd, hxc⟩ := hx
  rw [hma, hxc]
  exact ⟨hw.head_start_le ha (hv.subset (List.mem_of_head? hc)),
    hw.stop_le_last hb (hv.subset (List.mem_of_getLast? hd))⟩

/-- A tree spanning tokens before those of another stops before it starts. -/
theorem before (hw : Ordered (ts ++ us)) (hl : SpansTokens ts l) (hr : SpansTokens us r) :
    l.span.stop ≤ r.span.start := by
  obtain ⟨_, b, _, hb, hlb⟩ := hl
  obtain ⟨c, _, hc, _, hrc⟩ := hr
  rw [hlb, hrc]
  exact (List.pairwise_append.1 hw.1).2.2 b (List.mem_of_getLast? hb) c (List.mem_of_head? hc)

end SpansTokens

namespace Nested

variable {w ts us vs : List (Token Nat)} {e l r c f : Expr Nat} {t q k o cl : Token Nat}

/-- Every node of a tree nests when its root does and every node of its children does. -/
theorem nodes (he : Nested e) (hch : ∀ x ∈ e.children, ∀ m ∈ x.nodes, Nested m) :
    ∀ m ∈ e.nodes, Nested m := by
  intro m hm
  rcases Expr.mem_nodes.1 hm with rfl | ⟨x, hx, hm⟩
  · exact he
  · exact hch x hx m hm

theorem literal {v : Literal} {s : Span Nat} : Nested (.literal v s) := by
  simp [Nested, Expr.children]

theorem grouping {s : Span Nat} (hw : Ordered (o :: (ts ++ [cl]))) (hs : s = ⟨o.start, cl.stop⟩)
    (he : SpansTokens ts e) : Nested (.grouping e s) := by
  have hg : SpansTokens (o :: (ts ++ [cl])) (.grouping e s) := .grouping hs
  have hin := hg.within hw ⟨[o], [cl], by simp⟩ he
  simpa [Nested, Expr.children] using hin

theorem unary (hw : Ordered (t :: ts)) (he : SpansTokens ts e) : Nested (.unary t e) := by
  have hin := he.unary.within hw ⟨[t], [], by simp⟩ he
  simpa [Nested, Expr.children] using hin

theorem binary (hw : Ordered (ts ++ t :: us)) (hl : SpansTokens ts l) (hr : SpansTokens us r) :
    Nested (.binary l t r) := by
  have hm : SpansTokens (ts ++ t :: us) (.binary l t r) := hl.binary hr
  have hinl := hm.within hw ⟨[], t :: us, by simp⟩ hl
  have hinr := hm.within hw ⟨ts ++ [t], [], by simp⟩ hr
  have hlr := hl.before (hw.of_sublist (by simp)) hr
  simp [Nested, Expr.children, hinl, hinr, hlr]

theorem condition (hw : Ordered (ts ++ q :: (us ++ k :: vs))) (hc : SpansTokens ts c)
    (he : SpansTokens us e) (hf : SpansTokens vs f) : Nested (.condition c e f) := by
  have hm : SpansTokens (ts ++ q :: (us ++ k :: vs)) (.condition c e f) := hc.condition hf
  have hinc := hm.within hw ⟨[], q :: (us ++ k :: vs), by simp⟩ hc
  have hine := hm.within hw ⟨ts ++ [q], k :: vs, by simp⟩ he
  have hinf := hm.within hw ⟨ts ++ q :: (us ++ [k]), [], by simp⟩ hf
  -- the separators between the parts are dropped, and the parts stay in order
  have hce := hc.before (hw.of_sublist (by simp)) he
  have hrest : Ordered (us ++ k :: vs) := hw.right.tail
  have hef := he.before (hrest.of_sublist (by simp)) hf
  have hcf : c.span.stop ≤ f.span.start :=
    calc c.span.stop ≤ e.span.start := hce
      _ ≤ e.span.stop := he.start_le_stop hrest.left
      _ ≤ f.span.start := hef
  simp [Nested, Expr.children, hinc, hine, hinf, hce, hef, hcf]

end Nested

/-! Every node of a tree derived from ordered tokens nests, again by recursion on the
derivation; each part is derived from a stretch of the tokens, which stays ordered. -/

mutual

theorem Comma.nested {ts : List (Token Nat)} {e : Expr Nat} {n : Nat} (h : Comma ts e n)
    (hw : Ordered ts) : ∀ m ∈ e.nodes, Nested m :=
  match h with
  | .single ht => ht.nested hw
  | .more hc _ ht =>
    Nested.nodes (.binary hw hc.spans.1 ht.spans.1) (by
      simpa [Expr.children] using
        ⟨hc.nested hw.left, ht.nested hw.right.tail⟩)

theorem Ternary.nested {ts : List (Token Nat)} {e : Expr Nat} {n : Nat} (h : Ternary ts e n)
    (hw : Ordered ts) : ∀ m ∈ e.nodes, Nested m :=
  match h with
  | .plain hb => hb.nested hw
  | .cond hb _ hc _ ht =>
    Nested.nodes (.condition hw hb.spans.1 hc.spans.1 ht.spans.1) (by
      simpa [Expr.children] using
        ⟨hb.nested hw.left, hc.nested hw.right.tail.left, ht.nested hw.right.tail.right.tail⟩)

theorem Binary.nested {level : BinaryLevel} {ts : List (Token Nat)} {e : Expr Nat} {n : Nat}
    (h : Binary level ts e n) (hw : Ordered ts) : ∀ m ∈ e.nodes, Nested m :=
  match h with
  | .single ho => ho.nested hw
  | .more hb _ ho =>
    Nested.nodes (.binary hw hb.spans.1 ho.spans.1) (by
      simpa [Expr.children] using
        ⟨hb.nested hw.left, ho.nested hw.right.tail⟩)

theorem Operand.nested {level : BinaryLevel} {ts : List (Token Nat)} {e : Expr Nat} {n : Nat}
    (h : Operand level ts e n) (hw : Ordered ts) : ∀ m ∈ e.nodes, Nested m :=
  match h with
  | .equality hb => hb.nested hw
  | .comparison hb => hb.nested hw
  | .term hb => hb.nested hw
  | .factor hu => hu.nested hw

theorem Unary.nested {ts : List (Token Nat)} {e : Expr Nat} {n : Nat} (h : Unary ts e n)
    (hw : Ordered ts) : ∀ m ∈ e.nodes, Nested m :=
  match h with
  | .op _ hu =>
    Nested.nodes (.unary hw hu.spans.1) (by
      simpa [Expr.children] using hu.nested hw.tail)
  | .primary hp => hp.nested hw

theorem Primary.nested {ts : List (Token Nat)} {e : Expr Nat} {n : Nat} (h : Primary ts e n)
    (hw : Ordered ts) : ∀ m ∈ e.nodes, Nested m :=
  match h with
  | .literal _ => Nested.nodes .literal (by simp [Expr.children])
  | .group _ hc _ =>
    Nested.nodes (.grouping hw rfl hc.spans.1) (by
      simpa [Expr.children] using hc.nested hw.tail.left)

end

end Sentence

end ExprFront
