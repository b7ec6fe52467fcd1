import BasicToC.Proofs.Scanning.Rules
import Mathlib.Data.List.TakeWhile

/-!
# The head of a text

What is found at the head of a text, compared with the rules.

* `Gap`, `Stuck`: what is skipped, and where no token can be read.
* `Piece.Fits`: a piece is what the rules say of the text that it heads.
* `numeral_denotes`: numerals are read as the numbers that they stand for.
* `piece_fits`: the head of every text fits the rules.
* `scanFrom_induction`: induction on the pieces of a text.
-/

set_option autoImplicit false

namespace BasicToC

/-- A line is over at the end of the text or at a line feed. -/
def LineOver (rest : List Char) : Prop := rest = [] ∨ ∃ more, rest = '\n' :: more

/-- What is skipped in front of a text: a blank, or a comment up to the end of the line. -/
inductive Gap : List Char → List Char → Prop
  | blank {c : Char} {rest : List Char} (blank : c = ' ' ∨ c = '\t' ∨ c = '\r') : Gap [c] rest
  | comment {chars rest : List Char} (inLine : '\n' ∉ chars) (ended : LineOver rest) :
      Gap ('#' :: chars) rest

/-- The texts at whose head no token can be read: no rule describes it, a quote is not closed in its
line, or a numeral stands for no number. -/
inductive Stuck : List Char → Prop
  | unknown {c : Char} {rest : List Char} (blank : ¬ (c = ' ' ∨ c = '\t' ∨ c = '\r'))
      (hash : c ≠ '#') (quote : c ≠ '"')
      (none : ∀ (rule : Rule) (lexeme : List Char), rule.Matches lexeme → ¬ lexeme <+: c :: rest) :
      Stuck (c :: rest)
  | unclosed {inner rest : List Char} (verbatim : ∀ c ∈ inner, c ≠ '"' ∧ c ≠ '\n')
      (ended : LineOver rest) : Stuck ('"' :: inner ++ rest)
  | numeral {lexeme text : List Char} (longest : Longest text lexeme)
      (unreadable : Unreadable lexeme) : Stuck text

/-- A piece is what the rules say of the text that it heads. -/
def Piece.Fits (text : List Char) : Piece → Prop
  | .lineEnd => ∃ rest, text = '\n' :: rest
  | .gap more => ∃ gap rest, text = gap ++ rest ∧ gap.length = more + 1 ∧ Gap gap rest
  | .token kind value more => ∃ (rule : Rule) (lexeme rest : List Char), text = lexeme ++ rest ∧
      lexeme.length = more + 1 ∧ Longest text lexeme ∧ rule.Denotes lexeme kind value ∧
      rule ≠ .newline
  | .fault _ _ => Stuck text

/-! ## Numerals -/

section Numerals

variable {digits fraction rest : List Char}

theorem numeralLength_digits (pointMet : Bool) (all : ∀ c ∈ digits, c.isDigit) :
    Lexeme.numeralLength pointMet (digits ++ rest) =
      digits.length + Lexeme.numeralLength pointMet rest := by
  induction digits with
  | nil => simp
  | cons c digits ih =>
    have hc : c.isDigit := all c List.mem_cons_self
    rw [List.cons_append, Lexeme.numeralLength, if_pos hc,
      ih fun d hd => all d (List.mem_cons_of_mem _ hd), List.length_cons]
    omega

theorem numeralLength_point (rest : List Char) :
    Lexeme.numeralLength false ('.' :: rest) = Lexeme.numeralLength true rest + 1 := rfl

/-- A numeral takes in every head of the text that is one. -/
theorem numeralLength_longest {other text : List Char} (h : Rule.number.Matches other)
    (head : other <+: text) : other.length ≤ Lexeme.numeralLength false text := by
  obtain ⟨rest, rfl⟩ := head
  cases h with
  | whole some all =>
    rw [numeralLength_digits false all]
    omega
  | real some all behind =>
    rw [List.append_assoc, numeralLength_digits false all, List.cons_append, numeralLength_point,
      numeralLength_digits true behind]
    simp only [List.length_append, List.length_cons]
    omega

/-- Behind the point a numeral is made of digits. -/
theorem numeralLength_behind (text : List Char) :
    ∃ fraction rest, text = fraction ++ rest ∧
      Lexeme.numeralLength true text = fraction.length ∧ ∀ c ∈ fraction, c.isDigit := by
  induction text with
  | nil => exact ⟨[], [], rfl, rfl, by simp⟩
  | cons c text ih =>
    obtain ⟨fraction, rest, htext, hlength, hall⟩ := ih
    by_cases hc : c.isDigit
    · refine ⟨c :: fraction, rest, by rw [htext]; rfl, ?_, ?_⟩
      · rw [Lexeme.numeralLength, if_pos hc, hlength, List.length_cons]
      · exact List.forall_mem_cons.2 ⟨hc, hall⟩
    · exact ⟨[], c :: text, rfl, by simp [Lexeme.numeralLength, hc], by simp⟩

/-- What a numeral takes in is made of digits, or of digits with a point between them. -/
theorem numeralLength_spec (text : List Char) :
    ∃ lexeme rest, text = lexeme ++ rest ∧ Lexeme.numeralLength false text = lexeme.length ∧
      ((∀ c ∈ lexeme, c.isDigit) ∨ ∃ digits fraction, lexeme = digits ++ '.' :: fraction ∧
        (∀ c ∈ digits, c.isDigit) ∧ ∀ c ∈ fraction, c.isDigit) := by
  induction text with
  | nil => exact ⟨[], [], rfl, rfl, by simp⟩
  | cons c text ih =>
    by_cases hc : c.isDigit
    · obtain ⟨lexeme, rest, htext, hlength, hshape⟩ := ih
      refine ⟨c :: lexeme, rest, by rw [htext]; rfl, ?_, ?_⟩
      · rw [Lexeme.numeralLength, if_pos hc, hlength, List.length_cons]
      · rcases hshape with hall | ⟨digits, fraction, rfl, hdigits, hfraction⟩
        · exact .inl (List.forall_mem_cons.2 ⟨hc, hall⟩)
        · exact .inr ⟨c :: digits, fraction, rfl, List.forall_mem_cons.2 ⟨hc, hdigits⟩, hfraction⟩
    · by_cases hpoint : c = '.'
      · subst hpoint
        obtain ⟨fraction, rest, htext, hlength, hall⟩ := numeralLength_behind text
        refine ⟨'.' :: fraction, rest, by rw [htext]; rfl, ?_, ?_⟩
        · rw [numeralLength_point, hlength, List.length_cons]
        · exact .inr ⟨[], fraction, rfl, by simp, hall⟩
      · exact ⟨[], c :: text, rfl, by simp [Lexeme.numeralLength, hc, hpoint], by simp⟩

theorem digitsValue_append (a b : List Char) :
    digitsValue (a ++ b) = digitsValue a * 10 ^ b.length + digitsValue b := by
  have hfold : ∀ (b : List Char) (n : Nat),
      b.foldl (fun n c => n * 10 + (c.toNat - '0'.toNat)) n = n * 10 ^ b.length + digitsValue b := by
    intro b
    induction b with
    | nil => simp [digitsValue]
    | cons c b ih =>
      intro n
      simp only [digitsValue, List.foldl_cons, List.length_cons] at ih ⊢
      rw [ih, ih (0 * 10 + _)]
      ring
  rw [digitsValue, List.foldl_append, hfold]
  rfl

/-- The digits on both sides of the point, shifted behind it, are the number that they spell. -/
theorem amount_eq (digits fraction : List Char) :
    (digitsValue (digits ++ fraction) : ℚ) * 10 ^ (-(fraction.length : Int)) =
      amount digits fraction := by
  have hten : (10 : ℚ) ^ fraction.length ≠ 0 := by positivity
  rw [digitsValue_append, amount, zpow_neg, zpow_natCast]
  push_cast
  field_simp

/-- What is read of a numeral: the number that it stands for, or that it stands for none. -/
def NumeralDenotes (lexeme : List Char) : Except Complaint (Token.Kind × Value) → Prop
  | .ok (kind, value) => Rule.number.Denotes lexeme kind value
  | .error _ => Unreadable lexeme

theorem realNumeral_denotes (some : digits ≠ []) (all : ∀ c ∈ digits, c.isDigit)
    (behind : ∀ c ∈ fraction, c.isDigit) :
    NumeralDenotes (digits ++ '.' :: fraction)
      (Lexeme.realNumeral (digits ++ '.' :: fraction)) := by
  have hrounded := Binary64.ofDecimal_spec false (digitsValue (digits ++ fraction)) (-fraction.length)
  rw [amount_eq] at hrounded
  have hread : ((digits ++ fraction).isEmpty || !(digits ++ fraction).all Char.isDigit) = false := by
    have hall : (digits ++ fraction).all Char.isDigit := by
      simp only [List.all_append, Bool.and_eq_true, List.all_eq_true]
      exact ⟨all, behind⟩
    simp [some, hall]
  simp only [Lexeme.realNumeral, takeWhile_digits all, List.drop_left, List.drop_one, List.tail_cons,
    hread, Bool.false_eq_true, if_false]
  cases hvalue : Binary64.ofDecimal false (digitsValue (digits ++ fraction)) (-fraction.length) with
  | finite negative significand exponent =>
    rw [hvalue] at hrounded
    obtain ⟨rfl, hround⟩ := hrounded
    exact .float some all behind hround
  | infinite negative =>
    rw [hvalue] at hrounded
    exact .infinite some all behind hrounded.2
  | undefined =>
    rw [hvalue] at hrounded
    exact hrounded.elim

theorem wholeNumeral_denotes (some : digits ≠ []) (all : ∀ c ∈ digits, c.isDigit) :
    NumeralDenotes digits (Lexeme.wholeNumeral digits) := by
  have hall : digits.all Char.isDigit := List.all_eq_true.2 all
  have hmax : Lexeme.maxWhole = 2 ^ 63 - 1 := rfl
  simp only [Lexeme.wholeNumeral, List.isEmpty_iff, some, hall, Bool.or_eq_true, decide_eq_true_eq,
    Bool.not_true, Bool.false_eq_true, or_false, false_or]
  split
  · rename_i hmany
    exact .long some all hmany
  · split
    · rename_i hlarge
      exact .great some all (by omega)
    · rename_i hmany hlarge
      exact .integer some all (by unfold Lexeme.maxDigits at hmany; omega) (by omega)

/-- **A numeral is read as the number that it stands for, or it stands for none.** -/
theorem numeral_denotes {lexeme : List Char} (h : Rule.number.Matches lexeme) :
    NumeralDenotes lexeme (Lexeme.numeral (lexeme.contains '.') lexeme) := by
  cases h with
  | whole some all =>
    have hpoint : lexeme.contains '.' = false := by
      simpa using point_not_digits all
    rw [hpoint]
    exact wholeNumeral_denotes some all
  | real some all behind =>
    rw [show (_ ++ '.' :: _).contains '.' = true by simp]
    exact realNumeral_denotes some all behind

end Numerals

/-! ## Pieces -/

section Pieces

variable {c : Char} {rest : List Char}

/-- What stands in front of the first character that a test refuses. -/
theorem takeWhile_eq_of_append {p : Char → Bool} {inner tail : List Char} (h : ∀ c ∈ inner, p c)
    (hstop : ∀ c ∈ tail.head?, p c = false) : (inner ++ tail).takeWhile p = inner := by
  rw [List.takeWhile_append_of_pos h]
  cases tail with
  | nil => simp
  | cons c tail => rw [List.takeWhile_cons_of_neg (by simp [hstop c rfl]), List.append_nil]

/-- A text in quotes is closed by the next quote, or its line is over before that. -/
theorem quotedPiece_cases (rest : List Char) : ∃ inner tail, rest = inner ++ tail ∧
    (∀ c ∈ inner, c ≠ '"' ∧ c ≠ '\n') ∧
    ((∃ more, tail = '"' :: more ∧
        quotedPiece rest = .token .string (.text (String.ofList inner)) (inner.length + 1)) ∨
      LineOver tail ∧
        quotedPiece rest = .fault (.unclosedText (String.ofList ('"' :: inner))) (inner.length + 1)) := by
  obtain ⟨inner, hinner⟩ : ∃ inner, inner = rest.takeWhile fun c => c != '"' && c != '\n' := ⟨_, rfl⟩
  obtain ⟨tail, htail⟩ : ∃ tail, tail = rest.dropWhile fun c => c != '"' && c != '\n' := ⟨_, rfl⟩
  have hsplit : rest = inner ++ tail := by rw [hinner, htail, List.takeWhile_append_dropWhile]
  have hverbatim : ∀ c ∈ inner, c ≠ '"' ∧ c ≠ '\n' := by
    intro c hc
    rw [hinner] at hc
    simpa using List.mem_takeWhile_imp hc
  have hdrop : rest.drop inner.length = tail := by rw [hsplit, List.drop_left]
  refine ⟨inner, tail, hsplit, hverbatim, ?_⟩
  unfold quotedPiece
  rw [← hinner]
  simp only [hdrop]
  split
  · exact .inl ⟨_, rfl, rfl⟩
  · rename_i hopen
    refine .inr ⟨?_, rfl⟩
    cases htail' : tail with
    | nil => exact .inl rfl
    | cons c more =>
      have hstop : (c != '"' && c != '\n') = false := by
        have := List.head?_dropWhile_not (fun c => c != '"' && c != '\n') rest
        rw [← htail, htail'] at this
        simpa using this
      by_cases hquote : c = '"'
      · exact absurd (by rw [htail', hquote]) (hopen more)
      · have : c = '\n' := by simpa [hquote] using hstop
        exact .inr ⟨more, by rw [this]⟩

theorem quotedPiece_fits (rest : List Char) : (quotedPiece rest).Fits ('"' :: rest) := by
  obtain ⟨inner, tail, rfl, hverbatim, ⟨more, rfl, hpiece⟩ | ⟨hover, hpiece⟩⟩ := quotedPiece_cases rest
  · rw [hpiece]
    refine ⟨.string, '"' :: inner ++ ['"'], more, by simp, by simp, ?_, .string hverbatim, by decide⟩
    refine .of_rule ⟨more, by simp⟩ (.string hverbatim) ?_
    intro other hother hhead
    cases hother with
    | string verbatim =>
      rename_i inner'
      obtain ⟨more', hmore⟩ := hhead
      have heq : inner' ++ '"' :: more' = inner ++ '"' :: more := by simpa using hmore
      have htake := congrArg (List.takeWhile fun c => c != '"' && c != '\n') heq
      rw [takeWhile_eq_of_append (by simpa using verbatim) (by simp),
        takeWhile_eq_of_append (by simpa using hverbatim) (by simp)] at htake
      rw [htake]
  · rw [hpiece]
    exact .unclosed hverbatim hover

theorem numberPiece_fits {c : Char} (hc : c.isDigit) (rest : List Char) :
    ∃ lexeme tail, c :: rest = lexeme ++ tail ∧
      (c :: rest).take (Lexeme.numeralLength false (c :: rest)) = lexeme ∧
      Longest (c :: rest) lexeme ∧ Rule.number.Matches lexeme := by
  obtain ⟨lexeme, tail, htext, hlength, hshape⟩ := numeralLength_spec (c :: rest)
  have hsome : 1 ≤ lexeme.length := by
    rw [← hlength, Lexeme.numeralLength, if_pos hc]
    omega
  have hmatches : Rule.number.Matches lexeme := by
    rcases hshape with hall | ⟨digits, fraction, rfl, hdigits, hfraction⟩
    · exact .whole (List.length_pos_iff.1 hsome) hall
    · refine .real ?_ hdigits hfraction
      rintro rfl
      cases htext
      exact absurd hc (by decide)
  refine ⟨lexeme, tail, htext, by rw [hlength, htext, List.take_left], ?_, hmatches⟩
  exact .of_rule ⟨tail, htext.symm⟩ hmatches fun other hother hhead =>
    hlength ▸ numeralLength_longest hother hhead

theorem wordKind_denotes {word : List Char} (h : Rule.word.Matches word) :
    Rule.word.Denotes word (Lexeme.wordKind word).1 (Lexeme.wordKind word).2 := by
  unfold Lexeme.wordKind
  split
  · rename_i kind hkind
    have hspelling : kind.spelling.toList = word := by simpa using List.find?_some hkind
    rw [← hspelling]
    exact .keyword (List.mem_of_find?_eq_some hkind)
  · rename_i hnone
    refine .name h fun kind hmem => ?_
    simpa using List.find?_eq_none.1 hnone kind hmem

theorem wordPiece_fits {c : Char} (hc : c.isAlpha) (rest : List Char) :
    ∃ lexeme tail, c :: rest = lexeme ++ tail ∧
      (c :: rest).take (Lexeme.wordLength (c :: rest)) = lexeme ∧
      Longest (c :: rest) lexeme ∧ Rule.word.Matches lexeme := by
  have hword : Lexeme.isWordChar c := by simp [Lexeme.isWordChar, hc]
  have hsplit : rest = rest.takeWhile Lexeme.isWordChar ++ rest.dropWhile Lexeme.isWordChar :=
    List.takeWhile_append_dropWhile.symm
  have htake : (c :: rest).takeWhile Lexeme.isWordChar = c :: rest.takeWhile Lexeme.isWordChar :=
    List.takeWhile_cons_of_pos hword
  have hmatches : Rule.word.Matches (c :: rest.takeWhile Lexeme.isWordChar) := by
    refine .word hc fun d hd => ?_
    have := List.mem_takeWhile_imp hd
    simpa [Lexeme.isWordChar, or_assoc] using this
  refine ⟨_, _, congrArg (c :: ·) hsplit, ?_, ?_, hmatches⟩
  · rw [Lexeme.wordLength, htake]
    nth_rewrite 2 [hsplit]
    rw [← List.cons_append, List.take_left]
  · refine .of_rule ⟨_, (congrArg (c :: ·) hsplit).symm⟩ hmatches ?_
    intro other hother hhead
    cases hother with
    | word letter others =>
      rename_i first more
      obtain ⟨tail, hmore⟩ := hhead
      have hall : ∀ d ∈ more, Lexeme.isWordChar d := fun d hd => by
        simpa [Lexeme.isWordChar, or_assoc] using others d hd
      have hrest : rest = more ++ tail := (List.cons_eq_cons.1 hmore).2.symm
      rw [hrest, List.takeWhile_append_of_pos hall]
      simp

theorem operator_some {spelling : List Char} {kind : Token.Kind}
    (h : Token.Kind.operator? spelling = some kind) :
    kind ∈ Token.Kind.operators ∧ kind.spelling.toList = spelling :=
  ⟨List.mem_of_find?_eq_some h, by simpa using List.find?_some h⟩

theorem operator_none {spelling : List Char} (h : Token.Kind.operator? spelling = none) :
    ¬ Rule.operator.Matches spelling := by
  intro hm
  cases hm with
  | operator known => simpa using List.find?_eq_none.1 h _ known

/-- An operator at the head of a text has one character or two. -/
theorem operator_head {c : Char} {rest other : List Char} (h : Rule.operator.Matches other)
    (head : other <+: c :: rest) :
    other = [c] ∨ other = c :: rest.take 1 ∧ (c :: rest.take 1).length = 2 := by
  obtain ⟨d, more, rfl, _⟩ := h.starts
  obtain ⟨rfl, hmore⟩ := List.cons_prefix_cons.1 head
  have hlength : ∀ kind ∈ Token.Kind.operators, kind.spelling.toList.length ≤ 2 := by decide
  generalize hother : d :: more = other at h
  cases h with
  | operator known =>
    have hle := hlength _ known
    rw [← hother] at hle
    match more with
    | [] => exact .inl hother.symm
    | [e] =>
      obtain ⟨tail, rfl⟩ := hmore
      exact .inr ⟨hother.symm, rfl⟩
    | e :: f :: more => simp at hle

/-- The longer of the two candidates is the longest operator at the head of a text, unless there is
none. -/
theorem pickOperator_fits (c : Char) (rest : List Char) :
    (∃ kind ∈ Token.Kind.operators, kind.spelling.toList <+: c :: rest ∧
      Longest (c :: rest) kind.spelling.toList ∧
      Lexeme.pickOperator (c :: rest.take 1) [c] = some (kind, kind.spelling.toList)) ∨
    Lexeme.pickOperator (c :: rest.take 1) [c] = none ∧
      ∀ lexeme, Rule.operator.Matches lexeme → ¬ lexeme <+: c :: rest := by
  have hhead : c :: rest.take 1 <+: c :: rest := List.cons_prefix_cons.2 ⟨rfl, List.take_prefix 1 rest⟩
  have hone : [c] <+: c :: rest := ⟨rest, rfl⟩
  unfold Lexeme.pickOperator
  cases htwo : (if (c :: rest.take 1).length == 2 then Token.Kind.operator? (c :: rest.take 1)
      else none) with
  | some kind =>
    rw [Option.ite_none_right_eq_some] at htwo
    obtain ⟨hmem, hspelling⟩ := operator_some htwo.2
    have hlength : (c :: rest.take 1).length = 2 := by simpa using htwo.1
    refine .inl ⟨kind, hmem, hspelling ▸ hhead, ?_, by rw [hspelling]⟩
    refine .of_rule (hspelling ▸ hhead) (.operator hmem) fun other hother hprefix => ?_
    rw [hspelling]
    rcases operator_head hother hprefix with rfl | ⟨rfl, _⟩
    · simp
    · exact le_rfl
  | none =>
    have hshort : ∀ other, Rule.operator.Matches other → other <+: c :: rest → other = [c] := by
      intro other hother hprefix
      refine (operator_head hother hprefix).resolve_right ?_
      rintro ⟨rfl, hlength⟩
      rw [if_pos (by simpa using hlength)] at htwo
      exact operator_none htwo hother
    simp only [List.length_singleton, beq_self_eq_true, if_true]
    cases hop : Token.Kind.operator? [c] with
    | some kind =>
      obtain ⟨hmem, hspelling⟩ := operator_some hop
      refine .inl ⟨kind, hmem, hspelling ▸ hone, ?_, by rw [hspelling]; rfl⟩
      refine .of_rule (hspelling ▸ hone) (.operator hmem) fun other hother hprefix => ?_
      rw [hshort other hother hprefix, hspelling]
    | none =>
      refine .inr ⟨rfl, fun lexeme hlexeme hprefix => operator_none hop ?_⟩
      exact hshort lexeme hlexeme hprefix ▸ hlexeme

/-- **The head of every text fits the rules.** -/
theorem piece_fits (c : Char) (rest : List Char) : (piece c rest).Fits (c :: rest) := by
  unfold piece
  split
  · rename_i hc
    exact ⟨rest, by rw [beq_iff_eq.1 hc]⟩
  split
  · rename_i hblank
    exact ⟨[c], rest, rfl, rfl, .blank (by simpa [Lexeme.isBlank, or_assoc] using hblank)⟩
  split
  · rename_i hc
    refine ⟨c :: rest.takeWhile (· != '\n'), rest.dropWhile (· != '\n'), ?_, rfl, ?_⟩
    · rw [List.cons_append, List.takeWhile_append_dropWhile]
    · rw [beq_iff_eq.1 hc]
      refine .comment (fun h => by simpa using List.mem_takeWhile_imp h) ?_
      cases htail : rest.dropWhile (· != '\n') with
      | nil => exact .inl rfl
      | cons d more =>
        have := List.head?_dropWhile_not (· != '\n') rest
        rw [htail] at this
        exact .inr ⟨more, by simpa using this⟩
  split
  · rename_i hc
    rw [beq_iff_eq.1 hc]
    exact quotedPiece_fits rest
  split
  · rename_i hdigit
    obtain ⟨lexeme, tail, htext, htake, hlongest, hmatches⟩ := numberPiece_fits hdigit rest
    have hdenotes := numeral_denotes hmatches
    have hsome := hmatches.length_pos
    simp only [htake]
    cases hnumeral : Lexeme.numeral (lexeme.contains '.') lexeme with
    | ok read =>
      rw [hnumeral] at hdenotes
      exact ⟨.number, lexeme, tail, htext, by omega, hlongest, hdenotes, by decide⟩
    | error complaint =>
      rw [hnumeral] at hdenotes
      exact .numeral hlongest hdenotes
  rename_i hnewline hblank hhash hquote hdigit
  split
  · rename_i halpha
    obtain ⟨lexeme, tail, htext, htake, hlongest, hmatches⟩ := wordPiece_fits halpha rest
    have hsome := hmatches.length_pos
    simp only [htake]
    exact ⟨.word, lexeme, tail, htext, by omega, hlongest, wordKind_denotes hmatches, by decide⟩
  · rename_i halpha
    rcases pickOperator_fits c rest with ⟨kind, hmem, ⟨tail, htext⟩, hlongest, hpick⟩ | ⟨hpick, hnone⟩
    · have hsome := (Rule.Matches.operator hmem).length_pos
      rw [hpick]
      exact ⟨.operator, _, tail, htext.symm, by omega, hlongest, .operator hmem, by decide⟩
    · rw [hpick]
      refine .unknown (by simpa [Lexeme.isBlank, or_assoc] using hblank) (by simpa using hhash)
        (by simpa using hquote) fun rule lexeme hmatches hprefix => ?_
      obtain ⟨d, more, rfl, hstart⟩ := hmatches.starts
      obtain rfl : d = c := (List.cons_prefix_cons.1 hprefix).1
      cases rule with
      | newline => exact hnewline (beq_iff_eq.2 hstart)
      | string => exact hquote (beq_iff_eq.2 hstart)
      | number => exact hdigit hstart
      | word => exact halpha hstart
      | operator => exact hnone _ hmatches hprefix

/-- The head of a text leaves no more of it than there is. -/
theorem length_at_head {a b : List Char} {more : Nat} (h : c :: rest = a ++ b)
    (hlength : a.length = more + 1) : more ≤ rest.length := by
  have hwhole := congrArg List.length h
  simp only [List.length_cons, List.length_append] at hwhole
  omega

/-- A text taken apart behind a given number of characters. -/
theorem split_at_length {a b : List Char} {more : Nat} (h : c :: rest = a ++ b)
    (hlength : a.length = more + 1) : c :: rest.take more = a ∧ rest.drop more = b := by
  have htake := congrArg (List.take (more + 1)) h
  have hdrop := congrArg (List.drop (more + 1)) h
  rw [← hlength, List.take_left, hlength] at htake
  rw [← hlength, List.drop_left, hlength] at hdrop
  exact ⟨htake, hdrop⟩

end Pieces

/-- **Induction on the pieces of a text**: the end, a line feed, a gap, a lexeme or a fault, each with
what is read where it heads the text. -/
theorem scanFrom_induction {motive : Place → List Char → Prop}
    (stop : ∀ place : Place, scanFrom place [] = ⟨[place.token .eof .absent []], place, none⟩ →
      motive place [])
    (line : ∀ (place : Place) (rest : List Char),
      scanFrom place ('\n' :: rest) =
        (scanFrom place.below rest).cons (place.token .newline .absent ['\n']) →
      motive place.below rest → motive place ('\n' :: rest))
    (gap : ∀ (place : Place) (gap rest : List Char), Gap gap rest →
      scanFrom place (gap ++ rest) = scanFrom (place.right gap.length) rest →
      motive (place.right gap.length) rest → motive place (gap ++ rest))
    (token : ∀ (place : Place) (rule : Rule) (kind : Token.Kind) (value : Value)
      (lexeme rest : List Char), Longest (lexeme ++ rest) lexeme → rule.Denotes lexeme kind value →
      rule ≠ .newline → kind ≠ .eof →
      scanFrom place (lexeme ++ rest) =
        (scanFrom (place.right lexeme.length) rest).cons (place.token kind value lexeme) →
      motive (place.right lexeme.length) rest → motive place (lexeme ++ rest))
    (fault : ∀ (place : Place) (c : Char) (rest : List Char) (complaint : Complaint) (length : Nat),
      piece c rest = .fault complaint length →
      scanFrom place (c :: rest) = ⟨[], place, some (place.reject complaint length)⟩ →
      motive place (c :: rest))
    (place : Place) (text : List Char) : motive place text := by
  fun_induction scanFrom place text with
  | case1 place => exact stop place (by rw [scanFrom])
  | case2 place c rest h ih =>
    have hfits := piece_fits c rest
    rw [h] at hfits
    obtain ⟨rest', heq⟩ := hfits
    cases heq
    exact line place rest (by rw [scanFrom, h]) ih
  | case3 place c rest more h ih =>
    have hfits := piece_fits c rest
    rw [h] at hfits
    obtain ⟨skipped, tail, htext, hlength, hgap⟩ := hfits
    obtain ⟨-, hdrop⟩ := split_at_length htext hlength
    have hscan : scanFrom place (skipped ++ tail) = scanFrom (place.right skipped.length) tail := by
      rw [← htext, scanFrom, h, hlength]
      simp only [hdrop]
    rw [hdrop, ← hlength] at ih
    rw [htext]
    exact gap place skipped tail hgap hscan ih
  | case4 place c rest kind value more h ih =>
    have hfits := piece_fits c rest
    have hsound := piece_sound c rest
    rw [h] at hfits hsound
    obtain ⟨rule, lexeme, tail, htext, hlength, hlongest, hdenotes, hrule⟩ := hfits
    obtain ⟨htake, hdrop⟩ := split_at_length htext hlength
    have hscan : scanFrom place (lexeme ++ tail) =
        (scanFrom (place.right lexeme.length) tail).cons (place.token kind value lexeme) := by
      rw [← htext, scanFrom, h, hlength]
      simp only [hdrop, htake]
    rw [hdrop, ← hlength] at ih
    rw [htext] at hlongest ⊢
    exact token place rule kind value lexeme tail hlongest hdenotes hrule hsound.1 hscan ih
  | case5 place c rest complaint length h =>
    exact fault place c rest complaint length h (by rw [scanFrom, h])

end BasicToC
