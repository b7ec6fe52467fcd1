import BasicToC.Text.Lines

/-!
# The pieces of a text

A text that is split at a mark falls into what stands in front of the marks, between them and behind
them.

* `splitAt_plain`: a text without the mark is one piece.
* `splitAt_append`: the pieces of two texts with a mark between them.
-/

set_option autoImplicit false

namespace BasicToC.Text

variable {mark : Char}

theorem splitAt_ne_nil (mark : Char) (text : List Char) : splitAt mark text ≠ [] := by
  cases text with
  | nil => simp [splitAt]
  | cons c rest =>
    rw [splitAt]
    split
    · simp
    · split <;> simp

theorem splitAt_mark (mark : Char) (rest : List Char) :
    splitAt mark (mark :: rest) = [] :: splitAt mark rest := by
  obtain ⟨piece, pieces, h⟩ := List.exists_cons_of_ne_nil (splitAt_ne_nil mark rest)
  simp only [splitAt, h]
  simp

theorem splitAt_cons {c : Char} (hc : c ≠ mark) (rest : List Char) :
    ∃ piece pieces, splitAt mark rest = piece :: pieces ∧
      splitAt mark (c :: rest) = (c :: piece) :: pieces := by
  obtain ⟨piece, pieces, h⟩ := List.exists_cons_of_ne_nil (splitAt_ne_nil mark rest)
  refine ⟨piece, pieces, h, ?_⟩
  simp only [splitAt, h]
  simp [hc]

/-- A text without the mark is one piece. -/
theorem splitAt_plain {text : List Char} (h : mark ∉ text) : splitAt mark text = [text] := by
  induction text with
  | nil => rfl
  | cons c rest ih =>
    obtain ⟨piece, pieces, hrest, hcons⟩ := splitAt_cons (List.ne_of_not_mem_cons h).symm rest
    rw [ih (List.not_mem_of_not_mem_cons h), List.cons.injEq] at hrest
    rw [hcons, ← hrest.1, ← hrest.2]

/-- **The pieces of two texts with a mark between them** are those of the one and those of the other. -/
theorem splitAt_append (mark : Char) (before after : List Char) :
    splitAt mark (before ++ mark :: after) = splitAt mark before ++ splitAt mark after := by
  induction before with
  | nil => exact splitAt_mark mark after
  | cons c before ih =>
    by_cases hc : c = mark
    · rw [hc, List.cons_append, splitAt_mark, splitAt_mark, ih]
      rfl
    · obtain ⟨piece, pieces, h, hcons⟩ := splitAt_cons hc before
      obtain ⟨piece', pieces', h', hcons'⟩ := splitAt_cons hc (before ++ mark :: after)
      rw [ih, h, List.cons_append, List.cons.injEq] at h'
      rw [List.cons_append, hcons', hcons, ← h'.1, ← h'.2]
      rfl

end BasicToC.Text
