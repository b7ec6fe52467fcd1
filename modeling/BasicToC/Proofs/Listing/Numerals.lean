import BasicToC.Proofs.Joining.Composition
import BasicToC.Proofs.Listing.Constants
import BasicToC.Proofs.Listing.Renderings
import BasicToC.Proofs.Scanning.Meaning
import Mathlib.Data.List.Forall2

/-!
# Numerals in the listing

Every numeral of a program is written as a constant of C, in the order of the program: a whole one as a
whole one of the same value, whatever zeros stand in front of it, and a real one as a floating one.

* `Token.isNumeral`, `Code.figures`: the numerals among tokens, and the numbers in C with their signs.
* `Token.KeptIn`, `Kept`: a numeral is kept in a text of C, and all numerals are.
* `Grammar.Chain.kept`, `Grammar.Statement.kept`: the numerals of what is computed and of what is done.
* `Holds`: numbers stand in a text one behind the other, each of them apart.
* `Code.holds`: the numbers of statements stand in their lines.
* `numerals_kept`: the numerals of a text that is compiled.
-/

set_option autoImplicit false

namespace BasicToC

/-! ## Numerals on both sides -/

/-- Whether a token is a numeral. -/
def Token.isNumeral (token : Token) : Bool := token.kind == .integer || token.kind == .float

/-- A number as it is written, behind its sign. -/
structure Figure where
  sign : String
  digits : String
  deriving DecidableEq, Repr

/-- The number that a word is made of. -/
def Word.figure? : Word → Option Figure
  | .number sign digits => some ⟨sign, digits⟩
  | _ => none

/-- The numbers in a simple statement. -/
def Line.figures : Line → List Figure
  | .print value | .assign _ value => value.filterMap Word.figure?
  | _ => []

/-- The numbers in statements one after another. A condition comes in front of its body. -/
def Code.figures : Code → List Figure
  | .done => []
  | .simple line rest => line.figures ++ rest.figures
  | .block _ condition body rest =>
    condition.filterMap Word.figure? ++ body.figures ++ rest.figures

theorem Code.figures_append (code more : Code) :
    (code.append more).figures = code.figures ++ more.figures := by
  induction code with
  | done => rfl
  | simple line rest ih => simp [append, figures, ih]
  | block keyword condition body rest _ ih => simp [append, figures, ih]

@[simp] theorem Word.figure_bare (word : Word) : word.bare.figure? = word.figure? := by
  cases word <;> rfl

theorem Code.figures_bare (code : Code) : code.bare.figures = code.figures := by
  induction code with
  | done => rfl
  | simple line rest ih =>
    have hline : line.bare.figures = line.figures := by
      cases line <;> simp [Line.bare, Line.figures]
    rw [bare, figures, figures, hline, ih]
  | block keyword condition body rest ihb ihr => simp [bare, figures, ihb, ihr]

/-- Declarations leave the numbers as they are. -/
theorem Code.figures_declare (pending : List Value) (code : Code) :
    (code.declare pending).1.figures = code.figures := by
  rw [← figures_bare, declare_bare, figures_bare]

/-- A numeral is kept in a text of C. A whole one is written by its digits, without zeros in front, and
C reads it as the same number. A real one is written as a floating constant, and both round to the
binary64 number that the token carries. -/
inductive Token.KeptIn (token : Token) (text : String) : Prop where
  | integer {n : Nat} (kind : token.kind = .integer) (value : token.value = .whole n)
      (all : ∀ c ∈ token.lexeme.toList, c.isDigit) (spelt : digitsValue token.lexeme.toList = n)
      (small : n ≤ 2 ^ 63 - 1)
      (written : text.toList = decimalDigits n)
      (unpadded : ∀ more, text.toList = '0' :: more → n = 0 ∧ text = "0")
      (meant : ∀ m, Constant.Whole text.toList m ↔ m = n)
  | float {s : Nat} {e : Int} {digits fraction : List Char} {value : ℚ} (kind : token.kind = .float)
      (carried : token.value = .real (.finite false s e))
      (spelt : token.lexeme.toList = digits ++ '.' :: fraction)
      (all : ∀ c ∈ digits, c.isDigit) (behind : ∀ c ∈ fraction, c.isDigit)
      (rounded : Binary64.RoundsTo (amount digits fraction) s e)
      (meant : Constant.Floating text.toList value) (again : Binary64.RoundsTo value s e)
      (marked : '.' ∈ text.toList ∨ 'e' ∈ text.toList ∨ 'E' ∈ text.toList)
      (other : text ≠ "inf" ∧ text ≠ "nan" ∧ ¬ ∀ c ∈ text.toList, c.isDigit)

section Operands

variable {token : Token}

/-- A whole numeral is kept in what is written for its value. -/
theorem Token.Meant.integer_kept (hm : token.Meant) (hk : token.kind = .integer) :
    token.KeptIn token.value.shown := by
  obtain ⟨rule, hd⟩ := hm
  generalize hlexeme : token.lexeme.toList = lexeme at hd
  generalize hvalue : token.value = value at hd
  rw [hk] at hd
  cases hd with
  | integer some all few small =>
    subst hlexeme
    refine .integer hk hvalue all rfl small (whole_shown _) ?_ ?_
    · intro more hzero
      rw [whole_shown] at hzero
      have hn := decimalDigits_unpadded hzero
      exact ⟨hn, by rw [hn]; rfl⟩
    · intro m
      rw [whole_shown]
      exact Constant.whole_iff
  | keyword known | operator known => exact absurd known (by decide)

/-- A real numeral is kept in what is written for its value. -/
theorem Token.Meant.float_kept (hm : token.Meant) (hk : token.kind = .float) :
    token.KeptIn token.value.record := by
  obtain ⟨rule, hd⟩ := hm
  generalize hlexeme : token.lexeme.toList = lexeme at hd
  generalize hvalue : token.value = value at hd
  rw [hk] at hd
  cases hd with
  | float some all behind rounded =>
    obtain ⟨v, hfloating, hround⟩ := floating_text rounded.canonical
    exact .float hk hvalue hlexeme all behind rounded hfloating hround hfloating.marked
      hfloating.other
  | keyword known | operator known => exact absurd known (by decide)

end Operands

/-! ## From tokens to words -/

/-- The numerals among tokens are kept in numbers of C, one by one and in their order. There may be a
sign in front of each. -/
def Kept (ts : List Token) (figures : List Figure) : Prop :=
  List.Forall₂ (fun token figure => figure.sign ∈ ["", "+", "-"] ∧ token.KeptIn figure.digits)
    (ts.filter Token.isNumeral) figures

/-- What is derived from tokens keeps their numerals among the numbers that belong to it. -/
def KeptBy (figures : Tree → List Figure) (derives : List Token → Tree → Prop) : Prop :=
  ∀ ⦃ts t⦄, derives ts t → (∀ token ∈ ts, token.Meant) → Kept ts (figures t)

section Kept

variable {ts us : List Token} {figures more : List Figure} {token : Token} {t : Tree}

theorem Kept.append (h : Kept ts figures) (h' : Kept us more) : Kept (ts ++ us) (figures ++ more) := by
  unfold Kept
  rw [List.filter_append]
  exact List.rel_append h h'

theorem Kept.single {figure : Figure} (hk : token.isNumeral = true)
    (hsign : figure.sign ∈ ["", "+", "-"]) (h : token.KeptIn figure.digits) :
    Kept [token] [figure] := by
  unfold Kept
  rw [List.filter_cons_of_pos hk]
  exact .cons ⟨hsign, h⟩ .nil

/-- Tokens that are no numerals do not count. -/
theorem Kept.other (h : ∀ token ∈ ts, token.isNumeral = false) : Kept ts [] := by
  unfold Kept
  rw [List.filter_eq_nil_iff.2 fun token hm => by simp [h token hm]]
  exact .nil

namespace Grammar

theorem Operand.kept (h : Operand token t) (hm : token.Meant) {operator : Tree}
    (hsign : operator.sign ∈ ["", "+", "-"]) :
    Kept [token] ((Tree.unary t operator).words.filterMap Word.figure?) := by
  cases h with
  | integer hk => exact .single (by simp [Token.isNumeral, hk]) hsign (hm.integer_kept hk)
  | float hk => exact .single (by simp [Token.isNumeral, hk]) hsign (hm.float_kept hk)
  | named hk => exact .other (by simp [Token.isNumeral, hk])

theorem Factor.kept : KeptBy (fun t => t.words.filterMap Word.figure?) Factor := by
  intro ts t h hm
  cases h with
  | plain h => exact h.kept (hm _ (by simp)) (by simp [Tree.sign])
  | @signed sign token t hs h =>
    have hadditive : ∀ kind ∈ additive, kind.spelling ∈ ["", "+", "-"] ∧
        (kind == .integer || kind == .float) = false := by decide
    obtain ⟨hspelling, hother⟩ := hadditive _ hs
    have hsign : Kept [sign] [] := .other (by simpa [Token.isNumeral] using hother)
    exact hsign.append (h.kept (hm _ (by simp)) hspelling)

/-- The numerals of a chain are those of its operands: no operator is a numeral. -/
theorem Chain.kept {operators : List Token.Kind} {node : Tree → Tree → Tree → Tree}
    {operand : List Token → Tree → Prop}
    (hother : ∀ kind ∈ operators, (kind == .integer || kind == .float) = false)
    (hlast : ∀ u, (node u .nothing .nothing).words = u.words)
    (hlink : ∀ u kind v, (node u (.symbol kind) v).words = u.words ++ .operator kind :: v.words)
    (hoperand : KeptBy (fun t => t.words.filterMap Word.figure?) operand) :
    KeptBy (fun t => t.words.filterMap Word.figure?) (Chain operators node operand) := by
  intro ts t h hm
  induction h with
  | last h =>
    simp only [hlast]
    exact hoperand h hm
  | @link us vs operator t u h hk _ ih =>
    have hsign : Kept [operator] [] := .other (by simpa [Token.isNumeral] using hother _ hk)
    have hfirst := hoperand h fun token ht => hm token (by simp [ht])
    have hrest := ih fun token ht => hm token (by simp [ht])
    simp only [hlink, List.filterMap_append]
    exact hfirst.append (hsign.append hrest)

theorem Expression.kept : KeptBy (fun t => t.words.filterMap Word.figure?) Expression :=
  Chain.kept (by decide) (fun _ => rfl) (fun _ _ _ => rfl)
    (Chain.kept (by decide) (fun _ => rfl) (fun _ _ _ => rfl) Factor.kept)

theorem Comparison.kept : KeptBy (fun t => t.words.filterMap Word.figure?) Comparison :=
  Chain.kept (by decide) (fun _ => rfl) (fun _ _ _ => rfl) Expression.kept

theorem Rows.kept {statement : List Token → Tree → Prop} (hm : ∀ token ∈ ts, token.Meant)
    (hs : ∀ us u, us.length ≤ ts.length → (∀ token ∈ us, token.Meant) → statement us u →
      Kept us u.code.figures) (h : Rows statement ts t) : Kept ts t.code.figures := by
  have hblank {blank : List Token} (hb : LineEnds blank) : Kept blank [] :=
    .other fun token ht => by simp [Token.isNumeral, hb token ht]
  induction h with
  | done hb => exact hblank hb
  | @next blank us vs first rest hb h _ ih =>
    have hlen : us.length ≤ (blank ++ us ++ vs).length ∧ vs.length ≤ (blank ++ us ++ vs).length := by
      simp only [List.length_append]
      omega
    have hfirst := hs us first hlen.1 (fun token ht => hm token (by simp [ht])) h
    have hrest := ih (fun token ht => hm token (by simp [ht]))
      fun ws w hw => hs ws w (Nat.le_trans hw hlen.2)
    rw [Tree.code, Code.figures_append]
    exact ((hblank hb).append hfirst).append hrest

/-- **The numerals of a statement are kept in its C.** -/
theorem Statement.kept : KeptBy (fun t => t.code.figures) Statement := by
  intro ts t h
  refine Statement.induction
    (motive := fun ts t => (∀ token ∈ ts, token.Meant) → Kept ts t.code.figures) ?_ h
  intro ts t h ih hm
  cases h with
  | @print word stop ts value hw he hs =>
    have hvalue := he.kept fun token ht => hm token (by simp [ht])
    simpa [Kept, Token.isNumeral, Tree.code, Code.figures, Line.figures, hw, hs] using hvalue
  | printText hw ht hs => exact .other (by simp [Token.isNumeral, hw, ht, hs])
  | label hw hn hs | goto hw hn hs | input hw hn hs =>
    exact .other (by simp [Token.isNumeral, hw, hn, hs])
  | @assign word name eq stop ts value hw hn he hx hs =>
    have hvalue := hx.kept fun token ht => hm token (by simp [ht])
    simpa [Kept, Token.isNumeral, Tree.code, Code.figures, Line.figures, hw, hn, he, hs] using hvalue
  | @block opener middle closer node o m s c stop ts us condition body hb ho hc hk hs hrows hcl ht =>
    have hcondition := hc.kept fun token ht => hm token (by simp [ht])
    have hbody : Kept us body.code.figures := by
      refine hrows.kept (fun token ht => hm token (by simp [ht])) fun vs v hlen hvs hv =>
        ih vs v ?_ hv hvs
      simp only [List.length_append, List.length_cons]
      omega
    have hboth := hcondition.append hbody
    cases hb <;>
      simpa [Kept, Token.isNumeral, Tree.code, Code.figures, ho, hk, hs, hcl, ht] using hboth

theorem Program.kept : KeptBy (fun t => t.code.figures) Program :=
  fun _ _ h hm => Rows.kept hm (fun _ _ _ hus hs => Statement.kept hs hus) h

end Grammar

end Kept

/-! ## From words to the listing -/

/-- What may stand in front of a number and its sign. -/
def openings : List Char := [' ', '(']

/-- What may stand behind a number. -/
def closings : List Char := [' ', ')', ';']

/-- Numbers stand in a text in their order, each with its sign between one of the openings and one of
the closings, so that nothing joins them. -/
inductive Holds : List Figure → List Char → Prop where
  | nil (text : List Char) : Holds [] text
  | cons (figure : Figure) {more : List Figure} {opening closing : Char} {rest : List Char}
      (front : List Char) (opens : opening ∈ openings) (closes : closing ∈ closings) :
      Holds more (closing :: rest) →
      Holds (figure :: more)
        (front ++ opening :: (figure.sign.toList ++ figure.digits.toList ++ closing :: rest))

theorem bracket_opens : '(' ∈ openings := by decide

theorem blank_opens : ' ' ∈ openings := by decide

section Holds

variable {figures more : List Figure} {text rest : List Char} {opening closing : Char}

theorem Holds.behind (h : Holds figures text) (front : List Char) : Holds figures (front ++ text) := by
  cases h with
  | nil => exact .nil _
  | cons figure before opens closes h =>
    rw [← List.append_assoc]
    exact .cons figure _ opens closes h

theorem Word.holds (word : Word) (hopen : opening ∈ openings) (hclose : closing ∈ closings)
    (h : Holds more (closing :: rest)) :
    Holds (word.figure?.toList ++ more) (opening :: (word.text.toList ++ closing :: rest)) := by
  cases word with
  | number sign digits =>
    have hholds := Holds.cons ⟨sign, digits⟩ [] hopen hclose h
    simpa [figure?, text] using hholds
  | name sign r => exact h.behind (opening :: (Word.name sign r).text.toList)
  | operator kind => exact h.behind (opening :: (Word.operator kind).text.toList)

/-- **The numbers of words stand where the words are written.** Between two words there is a blank, which
closes one number and opens another. -/
theorem Word.joined_holds (words : List Word) (hopen : opening ∈ openings)
    (hclose : closing ∈ closings) (h : Holds more (closing :: rest)) :
    Holds (words.filterMap Word.figure? ++ more)
      (opening :: ((Word.joined words).toList ++ closing :: rest)) := by
  induction words generalizing opening with
  | nil => exact h.behind [opening]
  | cons word words ih =>
    have hsplit : (word :: words).filterMap Word.figure? =
        word.figure?.toList ++ words.filterMap Word.figure? := by
      cases word <;> rfl
    rw [hsplit, List.append_assoc]
    cases words with
    | nil => exact word.holds hopen hclose h
    | cons next words =>
      have hjoined : (Word.joined (word :: next :: words)).toList =
          word.text.toList ++ ' ' :: (Word.joined (next :: words)).toList := by
        simp [Word.joined, String.intercalate_cons_of_ne_nil]
      have hrest := ih blank_opens
      rw [hjoined, List.append_assoc]
      exact word.holds hopen (by decide) hrest

/-- The characters of some lines, each of which ends in a line feed. -/
def lineChars (lines : List String) : List Char := lines.flatMap fun line => line.toList ++ ['\n']

theorem lineChars_append (lines others : List String) :
    lineChars (lines ++ others) = lineChars lines ++ lineChars others := List.flatMap_append

theorem Line.holds (depth : Int) (line : Line) (h : Holds more text) :
    Holds (line.figures ++ more) (lineChars (line.lines depth) ++ text) := by
  cases line with
  | print value =>
    have hend : Holds more (')' :: ')' :: ';' :: '\n' :: text) := h.behind [')', ')', ';', '\n']
    have hvalue := Word.joined_holds value bracket_opens (by decide) hend
    have hline := hvalue.behind
      ((Text.indentation depth).toList ++ "printf(\"%.2f\\n\", (float)".toList)
    simpa [lineChars, lines, indented, figures] using hline
  | assign target value =>
    have hend : Holds more (';' :: '\n' :: text) := h.behind [';', '\n']
    have hvalue := Word.joined_holds value blank_opens (by decide) hend
    have hline := hvalue.behind
      ((Text.indentation depth).toList ++ target.text.toList ++ " =".toList)
    simpa [lineChars, lines, indented, figures] using hline
  | printText | input | label | goto => exact h.behind _

/-- **The numbers of statements stand in their lines**, in front of those of what follows. -/
theorem Code.holds (depth : Int) (code : Code) (h : Holds more text) :
    Holds (code.figures ++ more) (lineChars (code.lines depth) ++ text) := by
  induction code generalizing depth more text with
  | done => exact h
  | simple line rest ih =>
    rw [lines, lineChars_append, figures, List.append_assoc, List.append_assoc]
    exact line.holds depth (ih depth h)
  | block keyword condition body rest ihb ihr =>
    have hrest := (ihr depth h).behind (indented depth "\x7d\n").toList
    have hbody : Holds (body.figures ++ (rest.figures ++ more)) (')' :: '\x7b' :: '\n' :: _) :=
      (ihb (depth + 1) hrest).behind [')', '\x7b', '\n']
    have hcondition := Word.joined_holds condition bracket_opens (by decide) hbody
    have hblock := hcondition.behind ((Text.indentation depth).toList ++ keyword.toList)
    simpa [lineChars, lines, indented, figures] using hblock

theorem lineChars_join (lines : List String) :
    (String.join (lines.map (· ++ "\n"))).toList = lineChars lines := by
  induction lines with
  | nil => rfl
  | cons line lines ih =>
    rw [List.map_cons, String.join_cons, String.toList_append, ih]
    simp [lineChars]

theorem Holds.within {body : String} (h : ∀ rest, Holds figures (body.toList ++ rest))
    (front back : String) : Holds figures (front ++ body ++ back).toList := by
  rw [String.toList_append, String.toList_append, List.append_assoc]
  exact (h _).behind _

/-- **The numbers of a program stand in its listing.** -/
theorem Code.listing_holds (code : Code) : Holds code.figures code.listing.toList := by
  have hbody (rest : List Char) : Holds code.figures (code.body.toList ++ rest) := by
    have hlines := code.holds 1 (.nil rest)
    rwa [List.append_nil, ← lineChars_join] at hlines
  rw [listing_around]
  exact Holds.within hbody _ _

end Holds

/-- **Every numeral of a text that is compiled is kept in the listing.** The numbers in the C are the
numerals of the text in their order, and they stand in the listing in that order, nothing joined to
them but their signs. -/
theorem numerals_kept {noteTree : Bool} {source listing : String}
    (h : (compile noteTree source).1 = .ok listing) :
    ∃ tokens program reader, Token.scan source = .ok tokens ∧
      Read.program (Reader.ofTokens tokens) = .ok program reader ∧
      listing = (program.code reader).listing ∧ Kept tokens (program.code reader).figures ∧
      Holds (program.code reader).figures listing.toList := by
  obtain ⟨tokens, program, reader, writer, hscan, hread, hwrite⟩ := compile_ok h
  obtain ⟨rfl, -⟩ := compile_listing hscan hread hwrite
  obtain ⟨hgrammar, -⟩ := program_of_text hscan hread
  obtain ⟨ts, stop, rfl, hstop, hmeant⟩ := scan_meant hscan
  refine ⟨_, program, reader, hscan, hread, rfl, ?_, Code.listing_holds _⟩
  rw [List.dropLast_concat] at hgrammar
  have hkept := hgrammar.kept hmeant
  have hlast : Kept [stop] [] := .other (by simp [Token.isNumeral, hstop])
  rw [Program.code, Code.figures_declare, ← List.append_nil (Tree.code _).figures]
  exact hkept.append hlast

/-- A program with zeros in front of its numerals, a point at the end of one, and numbers that are
written with exponents. -/
def paddedText : String :=
  "LET a = 007 - 0000 * -1.\nWHILE a < 00100000000000000000000000.0 REPEAT\nLET a = a * 00.00001\n" ++
    "ENDWHILE\nPRINT +9223372036854775807\n"

/-- The listing of that program. -/
def paddedListing : String :=
  "#include <stdio.h>\nint main(void)\x7b\n    float a = 7 - 0 * -1.0;\n    while(a < 1e+23)\x7b\n" ++
    "        a = a * 1e-05;\n    \x7d\n    printf(\"%.2f\\n\", (float)(+9223372036854775807));\n" ++
    "    return 0;\n\x7d\n"

theorem paddedText_kept : (compile false paddedText).1 = .ok paddedListing ∧
    ∃ tokens program reader, Token.scan paddedText = .ok tokens ∧
      Read.program (Reader.ofTokens tokens) = .ok program reader ∧
      paddedListing = (program.code reader).listing ∧ Kept tokens (program.code reader).figures ∧
      Holds (program.code reader).figures paddedListing.toList := by
  have h : (compile false paddedText).1 = .ok paddedListing := by decide +kernel
  exact ⟨h, numerals_kept h⟩

end BasicToC
