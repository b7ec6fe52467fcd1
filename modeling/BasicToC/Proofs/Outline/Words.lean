import BasicToC.Proofs.Decimal.Notation
import BasicToC.Proofs.Text.Quoted
import BasicToC.Tree.Outline

/-!
# The words of an outline

What stands in the brackets of a node tells where it ends: a quoted text at its second mark, and
everything else in front of a comma or a closing bracket, as it holds neither.

* `EndsAt`, `EndsAt.intercalate`: texts that are told from what stands behind them, also with marks
  between them.
* `Content`, `record_content`: what stands behind the key of a word.
* `IsWord`, `key_cancel`: the words of a node.
-/

set_option autoImplicit false

namespace BasicToC.Outline

variable {rest more : List Char}

/-- What stands in front of the first character of another sort is told from what stands behind. -/
theorem sort_cancel {p : Char → Bool} {x y : List Char} {c d : Char} (hx : ∀ a ∈ x, p a = true)
    (hy : ∀ a ∈ y, p a = true) (hc : p c = false) (hd : p d = false)
    (h : x ++ c :: rest = y ++ d :: more) : x = y := by
  have hfront := congrArg (List.takeWhile p) h
  rwa [takeWhile_eq_of_append hx (by simpa using hc),
    takeWhile_eq_of_append hy (by simpa using hd)] at hfront

/-- Texts of a family that stand in front of marks at the head of one text are the same. -/
def EndsAt (marks : List Char) (family : List Char → Prop) : Prop :=
  ∀ x y, family x → family y → ∀ c ∈ marks, ∀ d ∈ marks, ∀ rest more,
    x ++ c :: rest = y ++ d :: more → x = y

section Lists

variable {family : List Char → Prop} {mark close : Char} {gap : List Char}

/-- What stands behind the first text of a list: the others, each behind a mark and a gap, and the
closing mark with what follows. -/
def behindFirst (mark close : Char) (gap rest : List Char) : List (List Char) → List Char
  | [] => close :: rest
  | y :: ys => mark :: (gap ++ (y ++ behindFirst mark close gap rest ys))

theorem intercalate_append (x : List Char) (xs : List (List Char)) (rest : List Char) :
    (mark :: gap).intercalate (x :: xs) ++ close :: rest =
      x ++ behindFirst mark close gap rest xs := by
  induction xs generalizing x with
  | nil => simp [behindFirst]
  | cons y ys ih =>
    rw [List.intercalate_cons_cons, List.append_assoc, ih, behindFirst]
    simp

theorem behindFirst_head (xs : List (List Char)) (rest : List Char) :
    ∃ c ∈ [mark, close], ∃ others, behindFirst mark close gap rest xs = c :: others := by
  cases xs with
  | nil => exact ⟨close, by simp, _, rfl⟩
  | cons y ys => exact ⟨mark, by simp, _, rfl⟩

theorem EndsAt.first {x y : List Char} {xs ys : List (List Char)} (h : EndsAt [mark, close] family)
    (hx : family x) (hy : family y)
    (heq : x ++ behindFirst mark close gap rest xs = y ++ behindFirst mark close gap more ys) :
    x = y ∧ behindFirst mark close gap rest xs = behindFirst mark close gap more ys := by
  obtain ⟨c, hc, others, hxs⟩ := behindFirst_head xs rest
  obtain ⟨d, hd, others', hys⟩ := behindFirst_head ys more
  obtain rfl : x = y := h x y hx hy c hc d hd others others' (by rw [← hxs, ← hys, heq])
  exact ⟨rfl, List.append_cancel_left heq⟩

theorem behindFirst_cancel (h : EndsAt [mark, close] family) (hne : mark ≠ close)
    {xs ys : List (List Char)} (hx : ∀ z ∈ xs, family z) (hy : ∀ z ∈ ys, family z)
    (heq : behindFirst mark close gap rest xs = behindFirst mark close gap more ys) :
    xs = ys ∧ rest = more := by
  induction xs generalizing ys with
  | nil =>
    cases ys with
    | nil => exact ⟨rfl, (List.cons_eq_cons.1 heq).2⟩
    | cons y ys => exact absurd (List.cons_eq_cons.1 heq).1.symm hne
  | cons x xs ih =>
    cases ys with
    | nil => exact absurd (List.cons_eq_cons.1 heq).1 hne
    | cons y ys =>
      obtain ⟨hxf, hxs⟩ := List.forall_mem_cons.1 hx
      obtain ⟨hyf, hys⟩ := List.forall_mem_cons.1 hy
      obtain ⟨rfl, hothers⟩ := h.first hxf hyf (List.append_cancel_left (List.cons_eq_cons.1 heq).2)
      obtain ⟨rfl, hrest⟩ := ih hxs hys hothers
      exact ⟨rfl, hrest⟩

/-- **Texts that end at marks are told from what stands behind them, also one after another.** -/
theorem EndsAt.intercalate (h : EndsAt [mark, close] family) (hne : mark ≠ close)
    {x y : List Char} {xs ys : List (List Char)} (hx : ∀ z ∈ x :: xs, family z)
    (hy : ∀ z ∈ y :: ys, family z)
    (heq : (mark :: gap).intercalate (x :: xs) ++ close :: rest =
      (mark :: gap).intercalate (y :: ys) ++ close :: more) : x :: xs = y :: ys ∧ rest = more := by
  rw [intercalate_append, intercalate_append] at heq
  obtain ⟨hxf, hxs⟩ := List.forall_mem_cons.1 hx
  obtain ⟨hyf, hys⟩ := List.forall_mem_cons.1 hy
  obtain ⟨rfl, hothers⟩ := h.first hxf hyf heq
  obtain ⟨rfl, hrest⟩ := behindFirst_cancel h hne hxs hys hothers
  exact ⟨rfl, hrest⟩

theorem intercalate_concat {xs : List (List Char)} (hne : xs ≠ []) (sep last : List Char) :
    sep.intercalate (xs ++ [last]) = sep.intercalate xs ++ sep ++ last := by
  induction xs with
  | nil => exact absurd rfl hne
  | cons x xs ih =>
    cases xs with
    | nil => simp [List.intercalate_cons_cons]
    | cons y ys =>
      have hmore := ih (by simp)
      rw [List.cons_append] at hmore
      rw [List.cons_append, List.cons_append, List.intercalate_cons_cons, hmore,
        List.intercalate_cons_cons]
      simp

end Lists

/-! ## Values -/

/-- The characters of numbers and of the names of values that are no texts. -/
def isFigure (c : Char) : Bool := c.isAlphanum || c == '-' || c == '+' || c == '.'

/-- A text of such characters. -/
def Figures (chars : List Char) : Prop := ∀ c ∈ chars, isFigure c = true

instance (chars : List Char) : Decidable (Figures chars) := List.decidableBAll _ _

/-- A text of letters. -/
def Letters (chars : List Char) : Prop := ∀ c ∈ chars, c.isAlpha = true

instance (chars : List Char) : Decidable (Letters chars) := List.decidableBAll _ _

/-- What stands behind the key of a word. -/
inductive Content : List Char → Prop where
  | quoted (text : List Char) : Content (Text.quotedChars text)
  | bare {chars : List Char} : Figures chars → Content chars

theorem Content.endsAt : EndsAt [',', ')'] Content := by
  have hmarks : ∀ c ∈ [',', ')'], isFigure c = false := by simp [isFigure]
  have hquote (text : List Char) : isFigure (Text.quoteMark text) = false := by
    rcases Text.quoteMark_isMark text with h | h <;> rw [h] <;> decide
  -- a bare content does not start with the mark that a quoted one starts with, nor what follows it
  have happart {chars text : List Char} {c : Char} {rest more : List Char}
      (hchars : Figures chars) (hc : c ∈ [',', ')'])
      (h : chars ++ c :: rest = Text.quotedChars text ++ more) : False := by
    cases chars with
    | nil =>
      have hsame : c = Text.quoteMark text := (List.cons_eq_cons.1 h).1
      rcases Text.quoteMark_isMark text with hmark | hmark <;> rw [hsame, hmark] at hc <;>
        simp at hc
    | cons a chars =>
      have hsame : a = Text.quoteMark text := (List.cons_eq_cons.1 h).1
      have hfigure := hchars a (List.mem_cons_self ..)
      rw [hsame, hquote] at hfigure
      cases hfigure
  intro x y hx hy c hc d hd rest more h
  cases hx with
  | quoted text =>
    cases hy with
    | quoted other => rw [(Text.quotedChars_cancel h).1]
    | bare hchars => exact (happart hchars hd h.symm).elim
  | bare hchars =>
    cases hy with
    | quoted text => exact (happart hchars hc h).elim
    | bare hothers => exact sort_cancel hchars hothers (hmarks c hc) (hmarks d hd) h

/-! ## Values in writing -/

theorem Figures.digits {digits : List Char} (h : ∀ c ∈ digits, c.isDigit) : Figures digits := by
  intro c hc
  simp [isFigure, Char.isAlphanum, h c hc]

theorem Figures.append {front back : List Char} (hf : Figures front) (hb : Figures back) :
    Figures (front ++ back) :=
  List.forall_mem_append.2 ⟨hf, hb⟩

theorem Figures.cons {c : Char} {chars : List Char} (hc : isFigure c = true) (h : Figures chars) :
    Figures (c :: chars) :=
  List.forall_mem_cons.2 ⟨hc, h⟩

theorem inFull_figures {digits : List Char} (h : ∀ c ∈ digits, c.isDigit) (exponent : Int) :
    Figures (Decimal.inFull digits exponent) := by
  have hzeros (count : Nat) : Figures (List.replicate count '0') := .digits (zero_isDigit count)
  unfold Decimal.inFull
  split
  · exact ((Figures.digits h).append (hzeros _)).append (by decide)
  · simp only
    split
    · exact .append (.digits fun c hc => h c (List.mem_of_mem_take hc))
        (.cons (by decide) (.digits fun c hc => h c (List.mem_of_mem_drop hc)))
    · exact .cons (by decide) (.cons (by decide) ((hzeros _).append (.digits h)))

theorem withExponent_figures (width : Nat) {digits : List Char} (h : ∀ c ∈ digits, c.isDigit)
    (power : Int) : Figures (Decimal.withExponent width digits power) := by
  have hsize : Figures (List.replicate (width - (decimalDigits power.natAbs).length) '0' ++
      decimalDigits power.natAbs) :=
    .append (.digits (zero_isDigit _)) (.digits decimalDigits_isDigit)
  have hsign : isFigure (if power < 0 then '-' else '+') = true := by split <;> decide
  unfold Decimal.withExponent
  simp only
  refine .append ?_ (.cons (by decide) (.cons hsign hsize))
  match digits, h with
  | [], _ => exact .digits (by simp)
  | [first], h => exact .digits h
  | first :: second :: others, h =>
    obtain ⟨hfirst, hothers⟩ := List.forall_mem_cons.1 h
    exact .cons (by simp [isFigure, Char.isAlphanum, hfirst]) (.cons (by decide) (.digits hothers))

theorem binary64_figures (x : Binary64) : Figures x.chars := by
  cases x with
  | undefined => decide
  | infinite negative => cases negative <;> decide
  | finite negative s e =>
    have hsize : Figures (if s == 0 then "0.0".toList
        else (Decimal.shortest s e).chars Layout.standard) := by
      split
      · decide
      · unfold Decimal.chars
        simp only
        split
        · exact inFull_figures decimalDigits_isDigit _
        · exact withExponent_figures _ decimalDigits_isDigit _
    simp only [Binary64.chars]
    split
    · exact .cons (by decide) hsize
    · exact hsize

theorem whole_figures (n : Int) : Figures (toString n).toList := by
  cases n with
  | ofNat n =>
    have hdigits : (toString (Int.ofNat n)).toList = decimalDigits n := whole_shown n
    rw [hdigits]
    exact .digits decimalDigits_isDigit
  | negSucc n =>
    have hsize : (n + 1).repr.toList = decimalDigits (n + 1) := whole_shown (n + 1)
    show Figures ("-" ++ (n + 1).repr).toList
    rw [String.toList_append, hsize]
    exact .append (by decide) (.digits decimalDigits_isDigit)

/-- **The record of a value tells where it ends.** -/
theorem record_content (v : Value) : Content v.record.toList := by
  cases v with
  | text s =>
    show Content (Text.quoted s).toList
    rw [Text.quoted, String.toList_ofList]
    exact .quoted _
  | absent => exact .bare (by decide)
  | flag b => cases b <;> exact .bare (by decide)
  | whole n => exact .bare (whole_figures n)
  | real x =>
    show Content x.text.toList
    rw [Binary64.text, String.toList_ofList]
    exact .bare (binary64_figures x)

/-- An operator in brackets is quoted as any text. -/
theorem spelling_quoted (kind : Token.Kind) :
    "'" ++ kind.spelling ++ "'" = Text.quoted kind.spelling := by
  cases kind <;> decide +kernel

/-! ## Words -/

/-- A word of a node: a key and what it stands for. No word goes by the key of the nodes below. -/
inductive IsWord : List Char → Prop where
  | intro {key content : List Char} : Letters key → key ≠ "nodes".toList →
      Content content → IsWord (key ++ '=' :: content)

/-- The key of a word is told from what stands behind it. -/
theorem key_cancel {key other content content' : List Char} (hkey : Letters key)
    (hother : Letters other) (h : key ++ '=' :: content = other ++ '=' :: content') :
    key = other ∧ content = content' := by
  obtain rfl := sort_cancel hkey hother (by decide) (by decide) h
  exact ⟨rfl, (List.cons_eq_cons.1 (List.append_cancel_left h)).2⟩

end BasicToC.Outline
