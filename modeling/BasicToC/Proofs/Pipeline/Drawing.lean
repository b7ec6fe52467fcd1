import BasicToC.Proofs.Grammar.Shape
import BasicToC.Proofs.Sequence
import BasicToC.Tree.Outline

/-!
# Drawing trees

The outline of a well-formed tree is drawn unless its nodes stand too deep in one another.

* `Sketch.Whole`: a sketch in which everything is a node.
* `Sketch.Reaches`: how many nodes stand in one another.
* `draw_whole`: when the drawing of such a sketch fails, and that it fails in no other way.
* `Tree.Shaped.whole`: the sketch of a well-formed tree.
-/

set_option autoImplicit false

namespace BasicToC

namespace Sketch

/-- A sketch in which everything is a node. -/
inductive Whole : Sketch → Prop where
  | node {name : String} {words : List String} {below : List Sketch} :
      (∀ s ∈ below, Whole s) → Whole (.node name words below)

/-- Below a sketch nodes stand in one another that many levels deep. -/
def Reaches : Nat → Sketch → Prop
  | 0, _ => True
  | levels + 1, .node _ _ below => ∃ s ∈ below, s.Reaches levels
  | _ + 1, .bare => False

/-- A sketch that goes deep goes any less deep as well. -/
theorem Reaches.mono {levels more : Nat} {s : Sketch} (h : s.Reaches more)
    (hle : levels ≤ more) : s.Reaches levels := by
  induction levels generalizing s more with
  | zero => cases s <;> trivial
  | succ levels ih =>
    obtain ⟨deeper, rfl⟩ : ∃ deeper, more = deeper + 1 := ⟨more - 1, by omega⟩
    cases s with
    | bare => exact h.elim
    | node name words below =>
      obtain ⟨t, ht, hreach⟩ := h
      exact ⟨t, ht, ih hreach (by omega)⟩

theorem mapM_error {α β ε : Type} {f : α → Except ε β} {xs : List α} {e : ε}
    (h : xs.mapM f = .error e) : ∃ x ∈ xs, f x = .error e := by
  induction xs with
  | nil => cases h
  | cons x xs ih =>
    rw [List.mapM_cons] at h
    cases hx : f x with
    | error e' =>
      rw [hx] at h
      cases h
      exact ⟨x, by simp, hx⟩
    | ok y =>
      rw [hx] at h
      cases hxs : xs.mapM f with
      | error e' =>
        obtain ⟨z, hz, hf⟩ := ih (by rw [hxs] at h ⊢; exact h)
        exact ⟨z, by simp [hz], hf⟩
      | ok ys =>
        simp only [hxs] at h
        cases h

theorem mapM_ok {α β ε : Type} {f : α → Except ε β} {xs : List α} {ys : List β}
    (h : xs.mapM f = .ok ys) : ∀ x ∈ xs, ∃ y, f x = .ok y := by
  induction xs generalizing ys with
  | nil => simp
  | cons x xs ih =>
    obtain ⟨y, ys, hx, hxs, -⟩ := mapM_cons_ok h
    exact List.forall_mem_cons.2 ⟨⟨y, hx⟩, ih hxs⟩

/-- **A whole sketch is drawn unless it goes deeper than there is room for**, and then that is what
is wrong with it. -/
theorem draw_whole {s : Sketch} (h : s.Whole) (room : Nat) (indents : Int) :
    (∀ text, draw room indents s = .ok text → ¬ s.Reaches room) ∧
    ∀ fault, draw room indents s = .error fault → fault = .tooDeep ∧ s.Reaches room := by
  induction room generalizing s indents with
  | zero =>
    cases h with
    | node hbelow =>
      refine ⟨fun text hd => ?_, fun fault hd => ?_⟩ <;> rw [draw] at hd <;> cases hd
      exact ⟨rfl, trivial⟩
  | succ room ih =>
    cases h with
    | @node name words below hbelow =>
      rw [draw]
      cases hm : below.mapM (draw room (indents + 1)) with
      | error fault =>
        obtain ⟨s, hs, hd⟩ := mapM_error hm
        obtain ⟨rfl, hreach⟩ := (ih (hbelow s hs) _).2 _ hd
        refine ⟨fun text hd => ?_, fun fault hd => ?_⟩
        · simp only at hd
          cases hd
        · simp only at hd
          cases hd
          exact ⟨rfl, s, hs, hreach⟩
      | ok outlines =>
        refine ⟨fun text _ => ?_, fun fault hd => ?_⟩
        · rintro ⟨s, hs, hreach⟩
          obtain ⟨text, htext⟩ := mapM_ok hm s hs
          exact (ih (hbelow s hs) _).1 text htext hreach
        · cases outlines <;> simp only at hd <;> cases hd

/-- The nodes below a node made of its parts. -/
theorem ofParts_whole (name : String) {parts : List Part}
    (h : ∀ part ∈ parts, ∀ s, part.below? = some s → s.Whole) : (ofParts name parts).Whole := by
  refine .node fun s hs => ?_
  obtain ⟨part, hpart, hbelow⟩ := List.mem_filterMap.1 hs
  exact h part hpart s hbelow

end Sketch

namespace Tree

/-- What a field adds to its node is whole, if the tree in it is a node at all. -/
theorem part_whole (name : String) {t : Tree} (h : t.isNode = true → t.sketch.Whole) {s : Sketch}
    (hs : (part name t t.sketch).below? = some s) : s.Whole := by
  cases t with
  | leaf v => cases v <;> cases hs
  | symbol k => cases hs
  | _ =>
    cases hs
    exact h rfl

/-- A tree that is whole as far as it is a node. -/
def Whole (t : Tree) : Prop := t.isNode = true → t.sketch.Whole

theorem Whole.leaf (v : Value) : (Tree.leaf v).Whole := fun h => by cases h

theorem Whole.symbol (k : Token.Kind) : (Tree.symbol k).Whole := fun h => by cases h

/-- A node is whole if what stands in its fields is. -/
theorem fields_whole (name : String) (fields : List (String × Tree))
    (h : ∀ field ∈ fields, field.2.Whole) :
    (Sketch.ofParts name (fields.map fun field => part field.1 field.2 field.2.sketch)).Whole := by
  refine Sketch.ofParts_whole _ fun part hp s hs => ?_
  obtain ⟨field, hfield, rfl⟩ := List.mem_map.1 hp
  exact part_whole _ (h field hfield) hs

theorem IsOperand.whole {t : Tree} (h : IsOperand t) : t.Whole := by
  intro _
  cases h with
  | integer v => exact fields_whole "Integer" [("value", .leaf _)] (by simp [Whole.leaf])
  | float v => exact fields_whole "Float" [("value", .leaf _)] (by simp [Whole.leaf])
  | named s => exact fields_whole "Variable" [("name", .leaf _)] (by simp [Whole.leaf])

theorem IsFactor.whole {t : Tree} (h : IsFactor t) : t.Whole := by
  intro _
  cases h with
  | plain h =>
    exact fields_whole "Unary" [("primary", _), ("operator", .nothing)] (by simp [h.whole, Whole.leaf])
  | signed sign h =>
    exact fields_whole "Unary" [("primary", _), ("operator", .symbol sign)]
      (by simp [h.whole, Whole.symbol])

theorem IsChain.whole {node : Tree → Tree → Tree → Tree} {operand : Tree → Prop} {t : Tree}
    (hnode : ∀ {u o v : Tree}, u.Whole → o.Whole → v.Whole → (node u o v).Whole)
    (hoperand : ∀ u, operand u → u.Whole) (h : IsChain node operand t) : t.Whole := by
  induction h with
  | last h => exact hnode (hoperand _ h) (Whole.leaf _) (Whole.leaf _)
  | link k h _ ih => exact hnode (hoperand _ h) (Whole.symbol k) ih

theorem term_whole {u o v : Tree} (hu : u.Whole) (ho : o.Whole) (hv : v.Whole) :
    (Tree.term u o v).Whole :=
  fun _ => fields_whole "Term" [("unary", u), ("operator", o), ("rest", v)] (by simp [hu, ho, hv])

theorem expression_whole {u o v : Tree} (hu : u.Whole) (ho : o.Whole) (hv : v.Whole) :
    (Tree.expression u o v).Whole :=
  fun _ => fields_whole "Expression" [("term", u), ("operator", o), ("rest", v)]
    (by simp [hu, ho, hv])

theorem comparison_whole {u o v : Tree} (hu : u.Whole) (ho : o.Whole) (hv : v.Whole) :
    (Tree.comparison u o v).Whole :=
  fun _ => fields_whole "Comparison" [("left", u), ("operator", o), ("right", v)]
    (by simp [hu, ho, hv])

theorem IsExpression.whole {t : Tree} (h : IsExpression t) : t.Whole :=
  IsChain.whole expression_whole
    (fun _ => IsChain.whole term_whole fun _ => IsFactor.whole) h

theorem IsComparison.whole {t : Tree} (h : IsComparison t) : t.Whole :=
  IsChain.whole comparison_whole (fun _ => IsExpression.whole) h

/-- **Everything in the sketch of a well-formed tree is a node**, also among the statements of a
chain. -/
theorem Shaped.whole {form : Form} {t : Tree} (h : Shaped form t) :
    t.sketch.Whole ∧ ∀ s ∈ t.sketchChain, s.Whole := by
  induction h with
  | print he =>
    exact ⟨fields_whole "Print" [("expression", _)] (by simp [he.whole]), by simp [sketchChain]⟩
  | printText s =>
    exact ⟨fields_whole "PrintString" [("text", .leaf _)] (by simp [Whole.leaf]),
      by simp [sketchChain]⟩
  | label s =>
    exact ⟨fields_whole "Label" [("name", .leaf _)] (by simp [Whole.leaf]), by simp [sketchChain]⟩
  | goto s =>
    exact ⟨fields_whole "Goto" [("name", .leaf _)] (by simp [Whole.leaf]), by simp [sketchChain]⟩
  | input s =>
    exact ⟨fields_whole "Input" [("name", .leaf _)] (by simp [Whole.leaf]), by simp [sketchChain]⟩
  | assign s he =>
    exact ⟨fields_whole "Let" [("name", .leaf _), ("expression", _)] (by simp [Whole.leaf, he.whole]),
      by simp [sketchChain]⟩
  | when hc _ ih =>
    have hbody : Tree.Whole _ := fun _ => ih.1
    exact ⟨fields_whole "If" [("comparison", _), ("body", _)] (by simp [hc.whole, hbody]),
      by simp [sketchChain]⟩
  | loop hc _ ih =>
    have hbody : Tree.Whole _ := fun _ => ih.1
    exact ⟨fields_whole "While" [("comparison", _), ("body", _)] (by simp [hc.whole, hbody]),
      by simp [sketchChain]⟩
  | nested _ ih => exact ih
  | done => exact ⟨.node (by simp), by simp [sketchChain]⟩
  | next _ _ ihf ihr =>
    have hall := List.forall_mem_cons.2 ⟨ihf.1, ihr.2⟩
    exact ⟨.node hall, hall⟩

end Tree

end BasicToC
