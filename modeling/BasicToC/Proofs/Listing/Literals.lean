import BasicToC.Proofs.Grammar.Parts
import BasicToC.Proofs.Listing.Renderings
import BasicToC.Proofs.Pipeline.Stages
import BasicToC.Proofs.Scanning.Meaning

/-!
# Printed texts as C reads them

A text that a program prints stands in the listing as it stands in the program. The language has no
escapes in its texts, C has; so C reads the same text exactly when there is no backslash in it. The
literals are read as they stand: trigraphs, which older C replaces before it looks for literals, are
left out.

* `Literal.escape?`, `Literal.rest?`: a string literal of C, behind its first quote.
* `Literal.second?`: the second literal of a line.
* `Literal.rest_verbatim_iff`: when a literal stands for what is written in it.
* `Statement.Inside`: a statement of a program, inside some blocks.
* `printed_text_iff`: the line of every text that a program prints.
-/

set_option autoImplicit false

namespace BasicToC

/-! ## String literals of C -/

namespace Literal

def isOctal (c : Char) : Bool := '0' ≤ c && c ≤ '7'

def isHex (c : Char) : Bool := c.isDigit || ('a' ≤ c && c ≤ 'f') || ('A' ≤ c && c ≤ 'F')

/-- The value of a digit of any base up to sixteen. -/
def digit (c : Char) : Nat :=
  if c.isDigit then c.toNat - '0'.toNat else c.toLower.toNat - 'a'.toNat + 10

/-- The character whose code is written in some digits. -/
def coded (base : Nat) (digits : List Char) : Char :=
  Char.ofNat (digits.foldl (fun code c => base * code + digit c) 0)

/-- The character that a simple escape stands for. -/
def simple? : Char → Option Char
  | '\'' => some '\''
  | '"' => some '"'
  | '?' => some '?'
  | '\\' => some '\\'
  | 'a' => some '\x07'
  | 'b' => some '\x08'
  | 'f' => some '\x0c'
  | 'n' => some '\n'
  | 'r' => some '\r'
  | 't' => some '\t'
  | 'v' => some '\x0b'
  | _ => none

/-- What the characters behind a backslash stand for, and how many of them the escape takes: up to
three octal digits, hexadecimal digits behind an `x`, four of them behind a `u` or eight behind a `U`,
or a single character. -/
def escape? : List Char → Option (Char × Nat)
  | [] => none
  | 'x' :: rest =>
    let digits := rest.takeWhile isHex
    if digits.isEmpty then none else some (coded 16 digits, digits.length + 1)
  | 'u' :: rest => universal? 4 rest
  | 'U' :: rest => universal? 8 rest
  | c :: rest =>
    if isOctal c then
      let digits := c :: (rest.take 2).takeWhile isOctal
      some (coded 8 digits, digits.length)
    else (simple? c).map fun character => (character, 1)
where
  /-- A universal name of some length. -/
  universal? (count : Nat) (rest : List Char) : Option (Char × Nat) :=
    let digits := rest.take count
    if digits.length = count ∧ digits.all isHex then some (coded 16 digits, count + 1) else none

/-- What a literal stands for, given what follows its first quote, and what follows the quote that
closes it. The line has to end behind that quote, and every backslash starts an escape. -/
def rest? (text : List Char) : Option (List Char × List Char) :=
  match text with
  | [] => none
  | '"' :: rest => some ([], rest)
  | '\n' :: _ => none
  | '\\' :: rest =>
    match escape? rest with
    | none => none
    | some (c, count) => (rest? (rest.drop count)).map fun read => (c :: read.1, read.2)
  | c :: rest => (rest? rest).map fun read => (c :: read.1, read.2)
termination_by text.length
decreasing_by all_goals simp only [List.length_cons, List.length_drop]; omega

/-- The first literal of a line. -/
def first? (line : List Char) : Option (List Char × List Char) :=
  rest? ((line.dropWhile (· != '"')).drop 1)

/-- The second literal of a line. -/
def second? (line : List Char) : Option (List Char × List Char) :=
  (first? line).bind fun read => first? read.2

variable {text rest content : List Char}

theorem rest_plain {c : Char} (h : c ≠ '"' ∧ c ≠ '\n' ∧ c ≠ '\\') (text : List Char) :
    rest? (c :: text) = (rest? text).map fun read => (c :: read.1, read.2) := by
  rw [rest?.eq_def]
  split <;> simp_all

theorem rest_closed (rest : List Char) : rest? ('"' :: rest) = some ([], rest) := by
  simp [rest?]

/-- Plain characters stand for themselves. -/
theorem rest_append {front : List Char} (h : ∀ c ∈ front, c ≠ '"' ∧ c ≠ '\n' ∧ c ≠ '\\')
    (text : List Char) :
    rest? (front ++ text) = (rest? text).map fun read => (front ++ read.1, read.2) := by
  induction front with
  | nil => simp
  | cons c front ih =>
    rw [List.cons_append, rest_plain (h c List.mem_cons_self),
      ih fun d hd => h d (List.mem_cons_of_mem _ hd), Option.map_map]
    rfl

theorem universal_pos {c : Char} {length count : Nat}
    (h : escape?.universal? length text = some (c, count)) : 0 < count := by
  simp only [escape?.universal?] at h
  split at h
  · cases h
    exact Nat.succ_pos _
  · cases h

theorem escape_pos {c : Char} {count : Nat} (h : escape? text = some (c, count)) : 0 < count := by
  unfold escape? at h
  split at h
  · cases h
  · simp only at h
    split at h
    · cases h
    · cases h
      exact Nat.succ_pos _
  · exact universal_pos h
  · exact universal_pos h
  · split at h
    · cases h
      exact Nat.succ_pos _
    · obtain ⟨_, _, he⟩ := Option.map_eq_some_iff.1 h
      cases he
      exact Nat.one_pos

/-- A literal stands for fewer characters than it is written with. -/
theorem rest_length (h : rest? text = some (content, rest)) :
    content.length + rest.length < text.length := by
  fun_induction rest? text generalizing content with
  | case1 => cases h
  | case2 rest => cases h; simp
  | case3 => cases h
  | case4 => cases h
  | case5 tail c count hescape ih =>
    obtain ⟨read, hread, he⟩ := Option.map_eq_some_iff.1 h
    cases he
    have hshort := ih hread
    have hpos := escape_pos hescape
    simp only [List.length_drop, List.length_cons] at hshort ⊢
    omega
  | case6 c tail _ _ _ ih =>
    obtain ⟨read, hread, he⟩ := Option.map_eq_some_iff.1 h
    cases he
    have hshort := ih hread
    simp only [List.length_cons]
    omega

/-- An escape takes two characters at least. -/
theorem rest_length_escape (h : rest? ('\\' :: text) = some (content, rest)) :
    content.length + rest.length < text.length := by
  rw [rest?.eq_def] at h
  simp only at h
  split at h
  · cases h
  · rename_i c count hescape
    obtain ⟨read, hread, he⟩ := Option.map_eq_some_iff.1 h
    cases he
    have hshort := rest_length hread
    have hpos := escape_pos hescape
    have htext : text ≠ [] := by
      rintro rfl
      cases hescape
    have hlen := List.length_pos_iff.2 htext
    simp only [List.length_drop, List.length_cons] at hshort ⊢
    omega

/-- **A literal stands for what is written in it exactly when there is no backslash in that.** One
backslash is enough: whatever escape it starts, some character is missing. -/
theorem rest_verbatim_iff (h : ∀ c ∈ text, c ≠ '"' ∧ c ≠ '\n') (rest : List Char) :
    rest? (text ++ '"' :: rest) = some (text, rest) ↔ '\\' ∉ text := by
  constructor
  · intro hread hmem
    obtain ⟨front, behind, rfl, hfront⟩ := List.eq_append_cons_of_mem hmem
    have hplain : ∀ c ∈ front, c ≠ '"' ∧ c ≠ '\n' ∧ c ≠ '\\' := fun c hc =>
      ⟨(h c (List.mem_append_left _ hc)).1, (h c (List.mem_append_left _ hc)).2,
        fun he => hfront (he ▸ hc)⟩
    rw [List.append_assoc, rest_append hplain] at hread
    obtain ⟨⟨content, others⟩, hescape, he⟩ := Option.map_eq_some_iff.1 hread
    simp only [Prod.mk.injEq] at he
    obtain ⟨hcontent, rfl⟩ := he
    have hescape' : rest? ('\\' :: (behind ++ '"' :: others)) = some (content, others) := hescape
    have hshort := rest_length_escape hescape'
    have hlen := congrArg List.length hcontent
    simp only [List.length_append, List.length_cons] at hshort hlen
    omega
  · intro hmem
    have hplain : ∀ c ∈ text, c ≠ '"' ∧ c ≠ '\n' ∧ c ≠ '\\' :=
      fun c hc => ⟨(h c hc).1, (h c hc).2, fun he => hmem (he ▸ hc)⟩
    rw [rest_append hplain, rest_closed]
    simp

theorem first_behind {front : List Char} (h : '"' ∉ front) (text : List Char) :
    first? (front ++ '"' :: text) = rest? text := by
  have hfront : ∀ c ∈ front, (c != '"') = true := fun c hc => by
    simpa using fun he : c = '"' => h (he ▸ hc)
  rw [first?, List.dropWhile_append_of_pos hfront]
  simp

theorem rest_format (rest : List Char) :
    rest? ("%s\\n".toList ++ '"' :: rest) = some ("%s\n".toList, rest) := by
  have hescape : rest? ('\\' :: 'n' :: '"' :: rest) = some (['\n'], rest) := by
    rw [rest?.eq_def]
    simp [escape?, isOctal, simple?, rest_closed]
  have hplain : rest? (['%', 's'] ++ '\\' :: 'n' :: '"' :: rest) =
      (rest? ('\\' :: 'n' :: '"' :: rest)).map fun read => (['%', 's'] ++ read.1, read.2) :=
    rest_append (by simp) _
  rw [hescape] at hplain
  exact hplain

/-- The second literal of the line that prints a text is what stands for the text. -/
theorem second_of_line (depth : Int) (text : String) :
    second? (indented depth ("printf(\"%s\\n\", \"" ++ text ++ "\");")).toList =
      rest? (text.toList ++ '"' :: [')', ';']) := by
  have hsplit : (indented depth ("printf(\"%s\\n\", \"" ++ text ++ "\");")).toList =
      ((Text.indentation depth).toList ++ "printf(".toList) ++ '"' :: ("%s\\n".toList ++ '"' ::
        (", ".toList ++ '"' :: (text.toList ++ '"' :: [')', ';']))) := by
    simp [indented]
  have hfront : '"' ∉ (Text.indentation depth).toList ++ "printf(".toList := by
    simp [Text.indentation, Text.repeated]
  rw [hsplit, second?, first_behind hfront, rest_format, Option.bind_some,
    first_behind (by decide)]

end Literal

/-! ## Statements inside blocks -/

/-- A statement stands in a program, inside some blocks. -/
inductive Statement.Inside (statement : Statement) : (blocks : Nat) → Program → Prop where
  | here (rest : Program) : Inside statement 0 (statement :: rest)
  | later (first : Statement) {blocks : Nat} {rest : Program} : Inside statement blocks rest →
      Inside statement blocks (first :: rest)
  | when (condition : Comparison) (rest : Program) {blocks : Nat} {body : Program} :
      Inside statement blocks body → Inside statement (blocks + 1) (.when condition body :: rest)
  | loop (condition : Comparison) (rest : Program) {blocks : Nat} {body : Program} :
      Inside statement blocks body → Inside statement (blocks + 1) (.loop condition body :: rest)

namespace Statement.Inside

variable {statement : Statement} {blocks : Nat} {program : Program}

/-- A statement in a program is a part of its tree. -/
theorem partOf (h : statement.Inside blocks program) :
    statement.tree.PartOf (Program.tree program) := by
  induction h with
  | here rest => exact .field (v := statement.tree) (by simp [Program.tree, Tree.fields]) .self
  | @later first blocks rest _ ih =>
    exact .field (v := Program.tree rest) (by simp [Program.tree, Tree.fields]) ih
  | @when condition rest blocks body _ ih =>
    refine .field (v := (Statement.when condition body).tree)
      (by simp [Program.tree, Tree.fields]) ?_
    exact .field (v := Program.tree body) (by simp [Statement.tree, Tree.fields]) ih
  | @loop condition rest blocks body _ ih =>
    refine .field (v := (Statement.loop condition body).tree)
      (by simp [Program.tree, Tree.fields]) ?_
    exact .field (v := Program.tree body) (by simp [Statement.tree, Tree.fields]) ih

end Statement.Inside

theorem Code.Inside.append {blocks : Nat} {part code : Code} (front : Code)
    (h : Code.Inside blocks part code) : Code.Inside blocks part (front.append code) := by
  induction front with
  | done => exact h
  | simple line rest ih => exact .later line ih
  | block keyword condition body rest _ ih => exact .behind keyword condition body ih

/-- A text that is printed inside some blocks is printed inside as many blocks of the listing. -/
theorem Statement.Inside.code {text : Value} {blocks : Nat} {program : Program}
    (h : Statement.Inside (.printText text) blocks program) (names : List Value) :
    ∃ rest, Code.Inside blocks (.simple (.printText text.shown) rest)
      ((Program.tree program).code.declare names).1 := by
  induction h generalizing names with
  | here rest => exact ⟨_, .self _⟩
  | @later first blocks rest _ ih =>
    simp only [Program.tree, Tree.code, Code.declare_append]
    obtain ⟨behind, hinside⟩ := ih (first.tree.code.declare names).2
    exact ⟨behind, hinside.append _⟩
  | @when condition rest blocks body _ ih =>
    obtain ⟨behind, hinside⟩ := ih (Word.declare names (Comparison.tree condition).words).2
    exact ⟨behind, .within _ _ _ hinside⟩
  | @loop condition rest blocks body _ ih =>
    obtain ⟨behind, hinside⟩ := ih (Word.declare names (Comparison.tree condition).words).2
    exact ⟨behind, .within _ _ _ hinside⟩

/-- A line among others stands between line feeds. -/
theorem intercalate_line {before after : List String} (hb : before ≠ []) (ha : after ≠ [])
    (line : String) : String.intercalate "\n" (before ++ line :: after) =
      String.intercalate "\n" before ++ "\n" ++ line ++ "\n" ++ String.intercalate "\n" after := by
  rw [String.intercalate_append_of_ne_nil hb (by simp), String.intercalate_cons_of_ne_nil ha]
  simp [String.append_assoc]

/-- The lines of statements stand in the listing between line feeds. -/
theorem Code.Inside.listed {blocks : Nat} {line : String} {simple : Line} {rest code : Code}
    (h : Code.Inside blocks (.simple simple rest) code)
    (hline : simple.lines (1 + blocks) = [line]) :
    ∃ before after, code.listing = before ++ "\n" ++ line ++ "\n" ++ after := by
  obtain ⟨before, after, hlines⟩ := h.lines 1
  rw [Code.lines, hline] at hlines
  have hlisting : code.listing = String.intercalate "\n"
      ((["#include <stdio.h>", "int main(void)\x7b"] ++ before) ++ line ::
        (rest.lines (1 + blocks) ++ after ++ [indented 1 "return 0;", "\x7d"])) ++ "\n" := by
    rw [Code.listing, hlines]
    simp
  rw [hlisting, intercalate_line (by simp) (by simp), String.append_assoc]
  exact ⟨_, _, rfl⟩

/-! ## Printed texts -/

/-- What a token of a text in quotes carries has neither a quote nor a line feed. -/
theorem Rule.Denotes.verbatim {rule : Rule} {lexeme : List Char} {kind : Token.Kind} {value : Value}
    (h : rule.Denotes lexeme kind value) (hk : kind = .string) :
    ∃ text, value = .text text ∧ ∀ c ∈ text.toList, c ≠ '"' ∧ c ≠ '\n' := by
  cases h with
  | @string inner verbatim =>
    refine ⟨_, rfl, ?_⟩
    rw [String.toList_ofList]
    exact verbatim
  | newline | integer | float | name => cases hk
  | keyword known | operator known => exact absurd (hk ▸ known) (by decide)

/-- What a program prints as a text has neither a quote nor a line feed. -/
theorem printed_verbatim {tokens : List Token} {program : Program} {reader : Reader} {source : String}
    (hscan : Token.scan source = .ok tokens)
    (hread : Read.program (Reader.ofTokens tokens) = .ok program reader) {blocks : Nat}
    {value : Value} (h : Statement.Inside (.printText value) blocks program) :
    ∃ text, value = .text text ∧ ∀ c ∈ text.toList, c ≠ '"' ∧ c ≠ '\n' := by
  obtain ⟨ts, stop, rfl, -, hmeant⟩ := scan_meant hscan
  obtain ⟨hgrammar, -⟩ := program_of_text hscan hread
  rw [List.dropLast_concat] at hgrammar
  obtain ⟨token, hm, hk, hleaf⟩ := hgrammar.rooted _ h.partOf
  obtain ⟨rule, hdenotes⟩ := hmeant token hm
  cases hleaf
  exact hdenotes.verbatim hk

/-- **C reads a printed text as it stands in the program exactly when there is no backslash in it.**
Every text that a program prints has its line in the listing, and the second literal of that line
stands for the text, closed by the quote behind it, in that case only. -/
theorem printed_text_iff {noteTree : Bool} {source listing : String}
    (h : (compile noteTree source).1 = .ok listing) :
    ∃ tokens program reader, Token.scan source = .ok tokens ∧
      Read.program (Reader.ofTokens tokens) = .ok program reader ∧
      ∀ blocks value, Statement.Inside (.printText value) blocks program →
        ∃ text line before after, value = .text text ∧
          line = indented (1 + blocks) ("printf(\"%s\\n\", \"" ++ text ++ "\");") ∧
          listing = before ++ "\n" ++ line ++ "\n" ++ after ∧
          (Literal.second? line.toList = some (text.toList, [')', ';']) ↔ '\\' ∉ text.toList) := by
  obtain ⟨tokens, program, reader, writer, hscan, hread, hwrite⟩ := compile_ok h
  obtain ⟨rfl, -⟩ := compile_listing hscan hread hwrite
  refine ⟨tokens, program, reader, hscan, hread, fun blocks value hinside => ?_⟩
  obtain ⟨text, rfl, hverbatim⟩ := printed_verbatim hscan hread hinside
  obtain ⟨rest, hcode⟩ := hinside.code reader.names.declared
  obtain ⟨before, after, hlisting⟩ := hcode.listed rfl
  refine ⟨text, _, before, after, rfl, rfl, hlisting, ?_⟩
  rw [Literal.second_of_line]
  exact Literal.rest_verbatim_iff hverbatim _

/-- A program that prints a path with a backslash. -/
def pathText : String := "PRINT \"C:\\new\"\n"

/-- The line of the path. -/
def pathLine : String := "    printf(\"%s\\n\", \"C:\\new\");"

/-- The listing of that program. -/
def pathListing : String :=
  "#include <stdio.h>\nint main(void)\x7b\n" ++ pathLine ++ "\n    return 0;\n\x7d\n"

/-- The program is compiled, and what C makes of its text is settled by the backslash. -/
theorem path_printed : (compile false pathText).1 = .ok pathListing ∧
    ∃ tokens program reader, Token.scan pathText = .ok tokens ∧
      Read.program (Reader.ofTokens tokens) = .ok program reader ∧
      ∀ blocks value, Statement.Inside (.printText value) blocks program →
        ∃ text line before after, value = .text text ∧
          line = indented (1 + blocks) ("printf(\"%s\\n\", \"" ++ text ++ "\");") ∧
          pathListing = before ++ "\n" ++ line ++ "\n" ++ after ∧
          (Literal.second? line.toList = some (text.toList, [')', ';']) ↔
            '\\' ∉ text.toList) := by
  have h : (compile false pathText).1 = .ok pathListing := by decide +kernel
  exact ⟨h, printed_text_iff h⟩

/-- C reads a line feed where the path has a backslash and the letter behind it. -/
theorem path_misread : (compile false pathText).1 = .ok pathListing ∧
    (∃ program reader, Read.program (.ofTokens (scanText pathText).tokens) = .ok program reader ∧
      Program.tree program = .sequence (.printText (.leaf (.text "C:\\new"))) .done) ∧
    Literal.second? pathLine.toList = some ("C:\new".toList, [')', ';']) := by
  have hread : (match Read.program (.ofTokens (scanText pathText).tokens) with
      | .ok program _ =>
        Program.tree program == .sequence (.printText (.leaf (.text "C:\\new"))) .done
      | .error _ _ => false) = true := by decide +kernel
  refine ⟨by decide +kernel, ?_, by decide +kernel⟩
  split at hread
  · rename_i program reader h
    exact ⟨program, reader, h, by simpa using hread⟩
  · cases hread

end BasicToC
