import BasicToC.Message.Template

/-!
# Templates taken apart

* `segments_plain`: a text without braces is taken apart into its characters.
* `mem_of_segments`: the characters that are left are those of the text.
* `segments_chars_le`: they are no more than there were, and fewer if there was a brace.
-/

set_option autoImplicit false

namespace BasicToC.Template

/-- A text without braces is taken apart into its characters. -/
theorem segments_plain {text : List Char} (hopen : '{' ∉ text) (hclose : '}' ∉ text) :
    segments none text = text.map .char := by
  induction text with
  | nil => simp [segments]
  | cons c text ih =>
    have hc : c ≠ '{' := (List.ne_of_not_mem_cons hopen).symm
    have hc' : c ≠ '}' := (List.ne_of_not_mem_cons hclose).symm
    rw [List.map_cons,
      ← ih (List.not_mem_of_not_mem_cons hopen) (List.not_mem_of_not_mem_cons hclose)]
    simp [segments, hc, hc']

/-- The characters among the segments of a text are in the text. -/
theorem mem_of_segments {state : Option (List Char)} {text : List Char} {c : Char}
    (h : .char c ∈ segments state text) : c ∈ text := by
  fun_induction segments state text with
  | case1 => cases h
  | case2 rest ih | case3 rest ih =>
    -- Of a doubled brace one is left.
    rcases List.mem_cons.1 h with heq | h
    · cases heq
      exact List.mem_cons_self
    · exact List.mem_cons_of_mem _ (List.mem_cons_of_mem _ (ih h))
  | case4 _ _ _ _ _ ih => exact List.mem_cons_of_mem _ (ih h)
  | case5 | case7 | case8 => simp at h
  | case6 d rest _ _ _ _ ih =>
    rcases List.mem_cons.1 h with heq | h
    · cases heq
      exact List.mem_cons_self
    · exact List.mem_cons_of_mem _ (ih h)
  | case9 content d rest _ _ ih =>
    rcases List.mem_cons.1 h with heq | h
    · cases heq
    · exact List.mem_cons_of_mem _ (ih h)
  | case10 _ _ _ _ _ ih => exact List.mem_cons_of_mem _ (ih h)

/-- A segment that is a character. -/
def Segment.isChar : Segment → Bool
  | .char _ => true
  | .field _ | .stray => false

theorem countP_char (c : Char) (parts : List Segment) :
    (Segment.char c :: parts).countP Segment.isChar = parts.countP Segment.isChar + 1 :=
  List.countP_cons_of_pos rfl

/-- **A template has no more characters than it is written with**, and fewer if there is a brace in
it. -/
theorem segments_chars_le (state : Option (List Char)) (text : List Char) :
    (segments state text).countP Segment.isChar ≤ text.length ∧
      ('{' ∈ text ∨ '}' ∈ text → (segments state text).countP Segment.isChar < text.length) := by
  fun_induction segments state text with
  | case1 => simp
  | case2 rest ih | case3 rest ih =>
    -- Of a doubled brace one is left.
    have hle := ih.1
    rw [countP_char, List.length_cons, List.length_cons]
    exact ⟨by omega, fun _ => by omega⟩
  | case4 c rest _ _ hopen ih =>
    have hle := ih.1
    rw [List.length_cons]
    exact ⟨by omega, fun _ => by omega⟩
  | case5 => simp [Segment.isChar]
  | case6 c rest _ _ hopen hclose ih =>
    obtain ⟨hle, hlt⟩ := ih
    rw [countP_char, List.length_cons]
    refine ⟨by omega, fun hbrace => Nat.succ_lt_succ (hlt (hbrace.imp ?_ ?_))⟩
    · exact List.mem_of_ne_of_mem fun heq => hopen (beq_iff_eq.2 heq.symm)
    · exact List.mem_of_ne_of_mem fun heq => hclose (beq_iff_eq.2 heq.symm)
  | case7 | case8 => simp [Segment.isChar]
  | case9 content c rest _ hclose ih =>
    have hle := ih.1
    rw [List.countP_cons_of_neg (by simp [Segment.isChar]), List.length_cons]
    exact ⟨by omega, fun _ => by omega⟩
  | case10 content c rest _ _ ih =>
    have hle := ih.1
    rw [List.length_cons]
    exact ⟨by omega, fun _ => by omega⟩

end BasicToC.Template
