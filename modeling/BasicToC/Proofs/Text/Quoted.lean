import BasicToC.Text.Quoted

/-!
# Quoted text read back

A quoted text tells where it ends and which text it was, whatever stands behind it.

* `hexValue_hexDigits`: the number that hexadecimal digits spell.
* `readEscaped`, `readEscaped_escaped`: the first character of what stands between quotes.
* `quotedChars_cancel`: two quoted texts at the head of one text.
-/

set_option autoImplicit false

namespace BasicToC.Text

/-! ## Digits -/

/-- The number that hexadecimal digits spell, most significant first. -/
def hexValue (digits : List Char) : Nat :=
  digits.foldl (fun n c => n * 16 + "0123456789abcdef".toList.idxOf c) 0

theorem hexDigits_length (width n : Nat) : (hexDigits width n).length = width := by
  induction width generalizing n with
  | zero => rfl
  | succ width ih => rw [hexDigits, List.length_append, ih, List.length_singleton]

/-- The last digits of a number spell its remainder. -/
theorem hexValue_hexDigits (width n : Nat) :
    hexValue (hexDigits width n) = n % Nat.pow 16 width := by
  induction width generalizing n with
  | zero => simp [hexDigits, hexValue, Nat.mod_one]
  | succ width ih =>
    have hdigit : ∀ d < 16, "0123456789abcdef".toList.idxOf (Nat.digitChar d) = d := by decide
    have hfront := ih (n / 16)
    have hpower : Nat.pow 16 (width + 1) = 16 * Nat.pow 16 width := Nat.pow_succ'
    unfold hexValue at hfront ⊢
    rw [hexDigits, List.foldl_append, hfront, List.foldl_cons, List.foldl_nil,
      hdigit _ (Nat.mod_lt n (by decide)), hpower, Nat.mod_mul]
    omega

/-! ## Escapes -/

/-- The character that a hexadecimal escape of some width stands for, and the rest. -/
def readHex (width : Nat) (text : List Char) : Char × List Char :=
  (Char.ofNat (hexValue (text.take width)), text.drop width)

/-- The first character of what stands between quotes, and the rest. -/
def readEscaped : List Char → Option (Char × List Char)
  | [] => none
  | '\\' :: 'n' :: rest => some ('\n', rest)
  | '\\' :: 'r' :: rest => some ('\r', rest)
  | '\\' :: 't' :: rest => some ('\t', rest)
  | '\\' :: 'x' :: rest => some (readHex 2 rest)
  | '\\' :: 'u' :: rest => some (readHex 4 rest)
  | '\\' :: 'U' :: rest => some (readHex 8 rest)
  | '\\' :: c :: rest => some (c, rest)
  | c :: rest => some (c, rest)

theorem readHex_hexDigits {width : Nat} {c : Char} (h : c.toNat < Nat.pow 16 width) (rest : List Char) :
    readHex width (hexDigits width c.toNat ++ rest) = (c, rest) := by
  have hlength := hexDigits_length width c.toNat
  unfold readHex
  rw [List.take_left' hlength, List.drop_left' hlength, hexValue_hexDigits, Nat.mod_eq_of_lt h,
    Char.ofNat_toNat]

/-- The marks that texts are quoted with. -/
def IsMark (mark : Char) : Prop := mark = '\'' ∨ mark = '"'

theorem quoteMark_isMark (text : List Char) : IsMark (quoteMark text) := by
  unfold quoteMark
  split
  · exact .inr rfl
  · exact .inl rfl

/-- **A character between quotes is read as what it is**, whatever stands behind it. -/
theorem readEscaped_escaped {mark : Char} (hmark : IsMark mark) (c : Char) (rest : List Char) :
    readEscaped (escaped mark c ++ rest) = some (c, rest) := by
  unfold escaped
  split
  · rename_i hc
    simp only [Bool.or_eq_true, beq_iff_eq] at hc
    rcases hc with rfl | rfl
    · rcases hmark with rfl | rfl <;> rfl
    · rfl
  · rename_i hplain
    simp only [Bool.or_eq_true, beq_iff_eq, not_or] at hplain
    repeat' split
    · rename_i hc
      rw [beq_iff_eq.1 hc]
      rfl
    · rename_i hc
      rw [beq_iff_eq.1 hc]
      rfl
    · rename_i hc
      rw [beq_iff_eq.1 hc]
      rfl
    · simp [readEscaped, hplain.2]
    · rename_i hsmall
      exact congrArg some (readHex_hexDigits hsmall rest)
    · rename_i hsmall
      exact congrArg some (readHex_hexDigits hsmall rest)
    · have hsmall : c.toNat < Nat.pow 16 8 := c.val.toNat_lt
      exact congrArg some (readHex_hexDigits hsmall rest)

/-- A character between quotes is written as an escape, or as itself if it is not the mark. -/
theorem escaped_cases (mark c : Char) :
    (∃ code, escaped mark c = '\\' :: code) ∨ escaped mark c = [c] ∧ c ≠ mark := by
  unfold escaped
  split
  · exact .inl ⟨_, rfl⟩
  · rename_i hplain
    simp only [Bool.or_eq_true, beq_iff_eq, not_or] at hplain
    repeat' split
    all_goals first | exact .inl ⟨_, rfl⟩ | exact .inr ⟨rfl, hplain.1⟩

theorem escaped_ne_mark {mark : Char} (hmark : IsMark mark) (c : Char) (rest more : List Char) :
    escaped mark c ++ rest ≠ mark :: more := by
  have hslash : '\\' ≠ mark := by rcases hmark with rfl | rfl <;> decide
  intro h
  obtain ⟨code, hcode⟩ | ⟨hself, hc⟩ := escaped_cases mark c
  · rw [hcode, List.cons_append, List.cons.injEq] at h
    exact hslash h.1
  · rw [hself, List.cons_append, List.cons.injEq] at h
    exact hc h.1

variable {s t : List Char}

theorem escaped_cancel {mark : Char} (hmark : IsMark mark) {c d : Char} {rest more : List Char}
    (h : escaped mark c ++ rest = escaped mark d ++ more) : c = d ∧ rest = more := by
  have hread := readEscaped_escaped hmark c rest
  rw [h, readEscaped_escaped hmark d more] at hread
  cases hread
  exact ⟨rfl, rfl⟩

/-- What stands between two marks is told from what stands behind. The induction is on the text. -/
theorem flatMap_escaped_cancel {mark : Char} (hmark : IsMark mark) {rest more : List Char}
    (h : s.flatMap (escaped mark) ++ mark :: rest = t.flatMap (escaped mark) ++ mark :: more) :
    s = t ∧ rest = more := by
  induction s generalizing t with
  | nil =>
    cases t with
    | nil => simpa using h
    | cons d t =>
      rw [List.flatMap_cons, List.append_assoc] at h
      exact absurd h.symm (escaped_ne_mark hmark d _ _)
  | cons c s ih =>
    cases t with
    | nil =>
      rw [List.flatMap_cons, List.append_assoc] at h
      exact absurd h (escaped_ne_mark hmark c _ _)
    | cons d t =>
      rw [List.flatMap_cons, List.flatMap_cons, List.append_assoc, List.append_assoc] at h
      obtain ⟨rfl, htail⟩ := escaped_cancel hmark h
      obtain ⟨rfl, hrest⟩ := ih htail
      exact ⟨rfl, hrest⟩

/-- **Two quoted texts at the head of one text are the same**, and so is what stands behind them. -/
theorem quotedChars_cancel {rest more : List Char}
    (h : quotedChars s ++ rest = quotedChars t ++ more) : s = t ∧ rest = more := by
  unfold quotedChars at h
  rw [List.cons_append, List.cons_append, List.cons.injEq, List.append_assoc, List.append_assoc]
    at h
  obtain ⟨hmark, htext⟩ := h
  rw [← hmark] at htext
  exact flatMap_escaped_cancel (quoteMark_isMark s) htext

end BasicToC.Text
