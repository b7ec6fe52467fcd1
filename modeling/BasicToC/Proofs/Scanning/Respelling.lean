import BasicToC.Proofs.Scanning.Spelling

/-!
# Lexemes written out again

The lexemes of a text with single blanks behind them are read as the same tokens: every lexeme stops
at a blank, and stands for the same thing without its neighbours.

* `Token.Alike`: two tokens that differ in their columns at most.
* `Token.writtenOut`, `respelled`: tokens written out with a blank behind each.
* `longest_string`, `longest_spaced`: in front of a blank every lexeme ends.
* `scanFrom_respelled`, `scan_respelled`: what is read of tokens that are written out.
-/

set_option autoImplicit false

namespace BasicToC

/-- Two tokens of one kind that carry the same value, are written in the same way and stand in the
same line. -/
structure Token.Alike (a b : Token) : Prop where
  kind : a.kind = b.kind
  value : a.value = b.value
  lexeme : a.lexeme = b.lexeme
  line : a.line = b.line

/-- A token written out with a blank behind it. A line end has none, and the mark for the end of a
text is not written. -/
def Token.writtenOut (token : Token) : List Char :=
  if token.kind = .eof then []
  else if token.kind = .newline then token.lexeme.toList
  else token.lexeme.toList ++ [' ']

/-- Tokens written out one behind the other. -/
def respelled (tokens : List Token) : List Char := tokens.flatMap Token.writtenOut

/-! ## Where a lexeme ends -/

section Ends

variable {rule : Rule} {lexeme : List Char}

/-- **A text in quotes ends at its second quote**, whatever stands behind it. -/
theorem longest_string (h : Rule.string.Matches lexeme) (rest : List Char) :
    Longest (lexeme ++ rest) lexeme := by
  refine .of_rule (List.prefix_append _ _) h fun other hother hhead => ?_
  cases h with
  | @string inner verbatim =>
    cases hother with
    | @string inner' verbatim' =>
      obtain ⟨tail, htail⟩ := hhead
      have heq : inner' ++ '"' :: tail = inner ++ '"' :: rest := by simpa using htail
      have hinner := congrArg (List.takeWhile fun c => c != '"' && c != '\n') heq
      rw [takeWhile_eq_of_append (by simpa using verbatim') (by simp),
        takeWhile_eq_of_append (by simpa using verbatim) (by simp)] at hinner
      rw [hinner]

/-- **In front of a blank every lexeme ends**, a text in quotes with blanks in it too. -/
theorem longest_spaced (h : rule.Matches lexeme) (rest : List Char) :
    Longest (lexeme ++ ' ' :: rest) lexeme := by
  by_cases hrule : rule = .string
  · subst hrule
    exact longest_string h _
  · exact longest_parted h hrule (.inr ⟨rest, rfl⟩)

end Ends

/-! ## What is read -/

section Written

variable {kind : Token.Kind}

theorem respelled_line (place : Place) (tokens : List Token) :
    respelled (place.token .newline .absent ['\n'] :: tokens) = '\n' :: respelled tokens := by
  simp [respelled, Token.writtenOut, Place.token]

/-- A token that is neither a line end nor the mark for the end is written with a blank. -/
theorem respelled_token (heof : kind ≠ .eof) (hline : kind ≠ .newline) (place : Place)
    (value : Value) (lexeme : List Char) (tokens : List Token) :
    respelled (place.token kind value lexeme :: tokens) = lexeme ++ ' ' :: respelled tokens := by
  simp [respelled, Token.writtenOut, Place.token, heof, hline]

end Written

/-- **The tokens of a text are read again where they are written out.** The induction is on the
pieces of the text. What is written out may stand anywhere in the same line, so that gaps and the
blanks that are written do not count. -/
theorem scanFrom_respelled (place : Place) (text : List Char) : ∀ place' : Place,
    place'.line = place.line → (scanFrom place text).fault? = none →
    (scanFrom place' (respelled (scanFrom place text).tokens)).fault? = none ∧
      List.Forall₂ Token.Alike (scanFrom place text).tokens
        (scanFrom place' (respelled (scanFrom place text).tokens)).tokens := by
  induction place, text using scanFrom_induction with
  | stop place hscan =>
    intro place' hline _
    have hempty : respelled [place.token .eof .absent []] = [] := rfl
    rw [hscan, hempty, scanFrom]
    exact ⟨rfl, .cons ⟨rfl, rfl, rfl, hline.symm⟩ .nil⟩
  | line place rest hscan ih =>
    intro place' hline hfault
    have hpiece (more : List Char) : piece '\n' more = .lineEnd := rfl
    have hbelow : place'.below.line = place.below.line := congrArg (· + 1) hline
    rw [hscan] at hfault ⊢
    obtain ⟨hread, halike⟩ := ih place'.below hbelow hfault
    rw [Scan.cons, respelled_line, scanFrom, hpiece]
    exact ⟨hread, .cons ⟨rfl, rfl, rfl, hline.symm⟩ halike⟩
  | gap place gap rest _ hscan ih =>
    rw [hscan]
    exact ih
  | token place rule kind value lexeme rest _ hdenotes hrule hkind hscan ih =>
    intro place' hline hfault
    have hother : kind ≠ .newline := fun hk => hdenotes.matched.lineFeed hrule <| by
      rw [hdenotes.newline_iff.1 hk]
      exact List.mem_singleton_self _
    rw [hscan] at hfault ⊢
    obtain ⟨hread, halike⟩ := ih ((place'.right lexeme.length).right 1) hline hfault
    rw [Scan.cons, respelled_token hkind hother,
      scanFrom_lexeme (longest_spaced hdenotes.matched _) hdenotes hrule, scanFrom_blank]
    exact ⟨hread, .cons ⟨rfl, rfl, rfl, hline.symm⟩ halike⟩
  | fault place c rest complaint length _ hscan =>
    intro place' _ hfault
    rw [hscan] at hfault
    cases hfault

/-- **Lexemes that are written out are read as the tokens that they come from.** For every text that
is read, its lexemes with a blank behind each that is no line end make a text that is read as tokens
of the same kinds, with the same values and lexemes, in the same lines. -/
theorem scan_respelled {source : String} {tokens : List Token}
    (h : Token.scan source = .ok tokens) :
    ∃ again, Token.scan (String.ofList (respelled tokens)) = .ok again ∧
      List.Forall₂ Token.Alike tokens again := by
  have hscan := scanFrom_respelled {} source.toList {} rfl (Token.scan_fault h)
  rw [show (scanFrom {} source.toList).tokens = tokens from Token.scan_tokens h] at hscan
  obtain ⟨hread, halike⟩ := hscan
  refine ⟨_, ?_, halike⟩
  unfold Token.scan scanText
  rw [String.toList_ofList]
  simp only [hread]

/-- A text in which tokens touch, with blanks and a hash in quotes and a numeral that ends in its
point. -/
def tightText : String := "PRINT\"# a\tb\"#c\nLET x=1.\n\tWHILE x<=2 3abc==+"

theorem tightText_respelled : ∃ tokens again, Token.scan tightText = .ok tokens ∧
    Token.scan (String.ofList (respelled tokens)) = .ok again ∧
    List.Forall₂ Token.Alike tokens again := by
  have hscan : Token.scan tightText = .ok (scanText tightText).tokens := by decide +kernel
  obtain ⟨again, hagain, halike⟩ := scan_respelled hscan
  exact ⟨_, again, hscan, hagain, halike⟩

/-- The lexemes are parted where they touch, and the comment is left out. -/
example : String.ofList (respelled (scanText tightText).tokens) =
    "PRINT \"# a\tb\" \nLET x = 1. \nWHILE x <= 2 3 abc == + " := by
  decide +kernel

end BasicToC
