import BasicToC.Listing.Statements
import BasicToC.Proofs.Grammar.Parts

/-!
# The bounds of writing

A number is written only up to some length, and statements only up to some depth. Both are read off
the tree.

* `Tree.Short`: no number in a tree is too long.
* `Tree.statementCalls`, `Tree.chainCalls`: how many calls stand in one another where a statement, or a
  chain of statements, is written.
-/

set_option autoImplicit false

namespace BasicToC.Tree

variable {t u : Tree}

/-! ## Numbers -/

/-- No number in a tree has more digits than are written. -/
def Short : Tree → Prop
  | .leaf _ | .symbol _ | .done => True
  | .integer t | .float t => t.isLong = false ∧ t.Short
  | .variable t | .print t | .printText t | .input t | .label t | .goto t => t.Short
  | .unary t u | .assign t u | .when t u | .loop t u | .sequence t u => t.Short ∧ u.Short
  | .term t u v | .expression t u v | .comparison t u v => t.Short ∧ u.Short ∧ v.Short

instance decidableShort : (t : Tree) → Decidable t.Short
  | .leaf _ | .symbol _ | .done => inferInstanceAs (Decidable True)
  | .integer t | .float t =>
    have := decidableShort t
    inferInstanceAs (Decidable (t.isLong = false ∧ t.Short))
  | .variable t | .print t | .printText t | .input t | .label t | .goto t => decidableShort t
  | .unary t u | .assign t u | .when t u | .loop t u | .sequence t u =>
    have := decidableShort t
    have := decidableShort u
    inferInstanceAs (Decidable (t.Short ∧ u.Short))
  | .term t u v | .expression t u v | .comparison t u v =>
    have := decidableShort t
    have := decidableShort u
    have := decidableShort v
    inferInstanceAs (Decidable (t.Short ∧ u.Short ∧ v.Short))

theorem Short.field (h : t.Short) (hfield : u ∈ t.fields) : u.Short := by
  cases t <;> simp_all only [fields, Short, List.mem_cons, List.not_mem_nil, or_false] <;> grind

theorem Short.part (h : t.Short) (hpart : PartOf u t) : u.Short := by
  induction hpart with
  | self => exact h
  | field hfield _ ih => exact ih (h.field hfield)

/-- A tree is short if the numbers among its parts are. -/
theorem Short.of_parts
    (h : ∀ value, PartOf (.integer value) t ∨ PartOf (.float value) t → value.isLong = false) :
    t.Short := by
  have hfield {u v : Tree} (hfield : v ∈ u.fields)
      (h : ∀ value, PartOf (.integer value) u ∨ PartOf (.float value) u → value.isLong = false) :
      ∀ value, PartOf (.integer value) v ∨ PartOf (.float value) v → value.isLong = false :=
    fun value hvalue => h value (hvalue.imp (.field hfield) (.field hfield))
  induction t with
  | leaf | symbol | done => exact trivial
  | integer t ih => exact ⟨h t (.inl .self), ih (hfield (by simp [fields]) h)⟩
  | float t ih => exact ⟨h t (.inr .self), ih (hfield (by simp [fields]) h)⟩
  | «variable» t ih | print t ih | printText t ih | input t ih | label t ih | goto t ih =>
    exact ih (hfield (by simp [fields]) h)
  | unary t u iht ihu | assign t u iht ihu | when t u iht ihu | loop t u iht ihu
  | sequence t u iht ihu =>
    exact ⟨iht (hfield (by simp [fields]) h), ihu (hfield (by simp [fields]) h)⟩
  | term t u v iht ihu ihv | expression t u v iht ihu ihv | comparison t u v iht ihu ihv =>
    exact ⟨iht (hfield (by simp [fields]) h), ihu (hfield (by simp [fields]) h),
      ihv (hfield (by simp [fields]) h)⟩

/-! ## Bodies -/

mutual

/-- The calls that stand in one another where a tree is written as a statement: three more for a body
than inside it, and one more for a chain in the place of a statement. -/
def statementCalls : Tree → Nat
  | .when _ body | .loop _ body => body.chainCalls + 3
  | .sequence first rest => max first.statementCalls rest.chainCalls + 1
  | _ => 0

/-- The calls that stand in one another where the statements of a chain are written. -/
def chainCalls : Tree → Nat
  | .sequence first rest => max first.statementCalls rest.chainCalls
  | _ => 0

end

end BasicToC.Tree
