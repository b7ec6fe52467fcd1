import BasicToC.Proofs.Grammar.Derivation
import Mathlib.Data.List.Basic

/-!
# The parts of a tree

What is computed or printed in a program is derived from some of the tokens of the program, wherever it
stands in the tree.

* `Tree.fields`, `Tree.PartOf`: the trees in the fields of a node, and all that stand in a tree.
* `Grammar.Rooted`: what a computation or a text in a tree is derived from.
* `Program.rooted`: every part of a program is rooted in its tokens.
-/

set_option autoImplicit false

namespace BasicToC

/-- The trees in the fields of a node. -/
def Tree.fields : Tree → List Tree
  | .leaf _ | .symbol _ | .done => []
  | .integer t | .float t | .variable t | .print t | .printText t | .input t | .label t
  | .goto t => [t]
  | .unary t u | .assign t u | .when t u | .loop t u | .sequence t u => [t, u]
  | .term t u v | .expression t u v | .comparison t u v => [t, u, v]

/-- A tree stands in another one, of which it may be the whole. -/
inductive Tree.PartOf (t : Tree) : Tree → Prop where
  | self : PartOf t t
  | field {u v : Tree} : v ∈ u.fields → PartOf t v → PartOf t u

theorem Tree.PartOf.trans {t u v : Tree} (h : PartOf t u) (h' : PartOf u v) : PartOf t v := by
  induction h' with
  | self => exact h
  | field hm _ ih => exact .field hm ih

namespace Grammar

open BasicToC.Tree (PartOf)

variable {ts us : List Token} {t u : Tree}

/-- A computation in a program is derived from some of the tokens, and a number or a text is one of
them. -/
def Rooted (ts : List Token) : Tree → Prop
  | .integer value => ∃ token ∈ ts, token.kind = .integer ∧ value = .leaf token.value
  | .float value => ∃ token ∈ ts, token.kind = .float ∧ value = .leaf token.value
  | .comparison left operator right => ∃ us ⊆ ts, Comparison us (.comparison left operator right)
  | .expression first operator rest => ∃ us ⊆ ts, Expression us (.expression first operator rest)
  | .term first operator rest => ∃ us ⊆ ts, Term us (.term first operator rest)
  | .printText text => ∃ token ∈ ts, token.kind = .string ∧ text = .leaf token.value
  | _ => True

theorem Rooted.mono (h : Rooted us t) (hs : us ⊆ ts) : Rooted ts t := by
  cases t
  case comparison | expression | term =>
    obtain ⟨vs, hvs, hd⟩ := h
    exact ⟨vs, List.Subset.trans hvs hs, hd⟩
  case integer | float | printText =>
    obtain ⟨token, hm, hk⟩ := h
    exact ⟨token, hs hm, hk⟩
  all_goals trivial

/-- Every part of a tree is rooted in the same tokens. -/
def AllRooted (ts : List Token) (t : Tree) : Prop := ∀ u, PartOf u t → Rooted ts u

theorem AllRooted.mono (h : AllRooted us t) (hs : us ⊆ ts) : AllRooted ts t :=
  fun u hu => (h u hu).mono hs

/-- A node and what stands in its fields. -/
theorem AllRooted.node (h : Rooted ts t) (hfields : t.fields.Forall (AllRooted ts)) :
    AllRooted ts t := by
  intro u hu
  cases hu with
  | self => exact h
  | field hm hu => exact List.forall_iff_forall_mem.1 hfields _ hm u hu

theorem AllRooted.leaf (value : Value) : AllRooted ts (.leaf value) := .node trivial trivial

theorem AllRooted.symbol (kind : Token.Kind) : AllRooted ts (.symbol kind) := .node trivial trivial

/-! ## What is computed -/

theorem Factor.rooted (h : Factor us t) : AllRooted us t := by
  have hoperand {token : Token} {t : Tree} {us : List Token} (h : Operand token t)
      (hm : token ∈ us) : AllRooted us t := by
    cases h with
    | integer hk => exact .node ⟨token, hm, hk, rfl⟩ (.leaf _)
    | float hk => exact .node ⟨token, hm, hk, rfl⟩ (.leaf _)
    | named hk => exact .node trivial (.leaf _)
  cases h with
  | plain h => exact .node trivial ⟨hoperand h (by simp), .leaf _⟩
  | signed hs h => exact .node trivial ⟨hoperand h (by simp), .symbol _⟩

theorem Chain.rooted {operators : List Token.Kind} {node : Tree → Tree → Tree → Tree}
    {operand : List Token → Tree → Prop}
    (hself : ∀ us t u v, Chain operators node operand us (node t u v) → Rooted us (node t u v))
    (hfields : ∀ t u v, (node t u v).fields = [t, u, v])
    (hoperand : ∀ us t, operand us t → AllRooted us t) (h : Chain operators node operand us t) :
    AllRooted us t := by
  induction h with
  | last ht =>
    refine .node (hself _ _ _ _ (.last ht)) ?_
    rw [hfields]
    exact ⟨hoperand _ _ ht, .leaf _, .leaf _⟩
  | @link us vs operator t u ht hk hrest ih =>
    have hfirst : AllRooted (us ++ operator :: vs) t := (hoperand _ _ ht).mono (by simp)
    have hothers : AllRooted (us ++ operator :: vs) u :=
      ih.mono (List.Subset.trans (List.subset_cons_self _ _) (List.subset_append_right _ _))
    refine .node (hself _ _ _ _ (.link ht hk hrest)) ?_
    rw [hfields]
    exact ⟨hfirst, .symbol _, hothers⟩

theorem Term.rooted (h : Term us t) : AllRooted us t := by
  refine Chain.rooted ?_ (fun _ _ _ => rfl) (fun _ _ => Factor.rooted) h
  exact fun us _ _ _ h => ⟨us, List.Subset.refl _, h⟩

theorem Expression.rooted (h : Expression us t) : AllRooted us t := by
  refine Chain.rooted ?_ (fun _ _ _ => rfl) (fun _ _ => Term.rooted) h
  exact fun us _ _ _ h => ⟨us, List.Subset.refl _, h⟩

theorem Comparison.rooted (h : Comparison us t) : AllRooted us t := by
  refine Chain.rooted ?_ (fun _ _ _ => rfl) (fun _ _ => Expression.rooted) h
  exact fun us _ _ _ h => ⟨us, List.Subset.refl _, h⟩

/-! ## What is done -/

theorem Rows.rooted {statement : List Token → Tree → Prop}
    (hs : ∀ vs v, vs.length ≤ us.length → statement vs v → AllRooted vs v)
    (h : Rows statement us t) : AllRooted us t := by
  induction h with
  | done hb => exact .node trivial trivial
  | @next blank vs ws first rest hb hfirst _ ih =>
    have hlen : vs.length ≤ (blank ++ vs ++ ws).length ∧ ws.length ≤ (blank ++ vs ++ ws).length := by
      simp only [List.length_append]
      omega
    have hhead : AllRooted (blank ++ vs ++ ws) first := (hs vs first hlen.1 hfirst).mono (by simp)
    have hmore : AllRooted (blank ++ vs ++ ws) rest :=
      (ih fun xs x hx => hs xs x (Nat.le_trans hx hlen.2)).mono (by simp)
    exact .node trivial ⟨hhead, hmore⟩

theorem Statement.rooted (h : Statement us t) : AllRooted us t := by
  refine Statement.induction (motive := AllRooted) (fun us t h ih => ?_) h
  cases h with
  | @print word stop ts value hw he hs =>
    have hvalue : AllRooted (word :: ts ++ [stop]) value :=
      he.rooted.mono (List.Subset.trans (List.subset_cons_self _ _) (List.subset_append_left _ _))
    exact .node trivial hvalue
  | @printText word text stop hw ht hs => exact .node ⟨text, by simp, ht, rfl⟩ (.leaf _)
  | @block opener middle closer node o m s c stop ts us condition body hb ho hc hm hs hrows hcl ht =>
    have hcondition : AllRooted (o :: ts ++ m :: s :: us ++ [c, stop]) condition :=
      hc.rooted.mono fun token hm => by simp [hm]
    have hbody : AllRooted (o :: ts ++ m :: s :: us ++ [c, stop]) body := by
      have hrooted : AllRooted us body := by
        refine Rows.rooted (fun vs v hlen hv => ih vs v ?_ hv) hrows
        simp only [List.length_append, List.length_cons]
        omega
      exact hrooted.mono fun token hm => by simp [hm]
    cases hb <;> exact .node trivial ⟨hcondition, hbody⟩
  | label hw hn hs | goto hw hn hs | input hw hn hs => exact .node trivial (.leaf _)
  | @assign word name eq stop ts value hw hn he hx hs =>
    have hvalue : AllRooted (word :: name :: eq :: ts ++ [stop]) value :=
      hx.rooted.mono fun token hm => by simp [hm]
    exact .node trivial ⟨.leaf _, hvalue⟩

/-- **Every part of a program is rooted in the tokens of the program.** -/
theorem Program.rooted (h : Program us t) : AllRooted us t :=
  Rows.rooted (fun _ _ _ => Statement.rooted) h

end Grammar

end BasicToC
