import BasicToC.Proofs.Pipeline.Drawing
import BasicToC.Proofs.Pipeline.Stages
import BasicToC.Proofs.Reading.Safety

/-!
# How compiling ends

A text whose blocks do not stand too deep in one another is compiled or complained of. Only the
drawing of its tree, if that is asked for, can fail besides, as it goes as deep as the tree does.

* `Compile.Ending`: the ways in which the compiling of a text ends.
* `compile_ending`: there are no other ways.
* `sum_ends`: long sums are compiled, but not drawn.
* `compile_ends`: what becomes of a text, and why.
-/

set_option autoImplicit false

namespace BasicToC

variable {noteTree : Bool} {source : String}

/-- The tree of a program goes deeper than trees are drawn. -/
def Program.Deep (program : Program) : Prop :=
  (Program.tree program).sketch.Reaches Sketch.maxLevels

/-- The ways in which the compiling of a text ends: it is refused by one of the first two stages, its
tree is to be drawn and goes too deep, or there is a listing. -/
inductive Compile.Ending (noteTree : Bool) (source : String) : Except Compile.Fault String → Prop where
  | scanning {rejection : Rejection} : Token.scan source = .error rejection →
      rejection.complaint.category = .lexical → Compile.Ending noteTree source (.error (.scanning rejection))
  | reading {tokens : List Token} {reader : Reader} {fault : Reader.Fault} :
      Token.scan source = .ok tokens →
      Read.program (Reader.ofTokens tokens) = .error fault reader → fault.Refusal →
      Compile.Ending noteTree source (.error (.reading fault))
  | drawing {tokens : List Token} {reader : Reader} {program : Program} :
      Token.scan source = .ok tokens →
      Read.program (Reader.ofTokens tokens) = .ok program reader → noteTree = true →
      program.Deep → Compile.Ending noteTree source (.error (.drawing .tooDeep))
  | listing {tokens : List Token} {reader : Reader} {program : Program} :
      Token.scan source = .ok tokens →
      Read.program (Reader.ofTokens tokens) = .ok program reader →
      (noteTree = true → ¬ program.Deep) →
      Compile.Ending noteTree source (.ok (program.code reader).listing)

/-- Whether a text that is read as a program is compiled is up to its tree, and whether that is to be
drawn. -/
theorem Compile.Ending.of_read {result : Except Compile.Fault String} {tokens : List Token}
    {program : Program} {reader : Reader} (h : Compile.Ending noteTree source result)
    (hscan : Token.scan source = .ok tokens)
    (hread : Read.program (Reader.ofTokens tokens) = .ok program reader) :
    (noteTree = true → program.Deep → result = .error (.drawing .tooDeep)) ∧
    ((noteTree = true → ¬ program.Deep) → result = .ok (program.code reader).listing) := by
  cases h with
  | scanning hscan' =>
    rw [hscan] at hscan'
    cases hscan'
  | reading hscan' hread' =>
    rw [hscan] at hscan'
    cases hscan'
    rw [hread] at hread'
    cases hread'
  | drawing hscan' hread' hnote hdeep =>
    rw [hscan] at hscan'
    cases hscan'
    rw [hread] at hread'
    cases hread'
    exact ⟨fun _ _ => rfl, fun hshallow => absurd hdeep (hshallow hnote)⟩
  | listing hscan' hread' hshallow =>
    rw [hscan] at hscan'
    cases hscan'
    rw [hread] at hread'
    cases hread'
    exact ⟨fun hnote hdeep => absurd hdeep (hshallow hnote), fun _ => rfl⟩

/-- A text that is not read as a program is refused for what it is not read for. -/
theorem Compile.Ending.of_unread {result : Except Compile.Fault String} {tokens : List Token}
    {fault : Reader.Fault} {reader : Reader} (h : Compile.Ending noteTree source result)
    (hscan : Token.scan source = .ok tokens)
    (hread : Read.program (Reader.ofTokens tokens) = .error fault reader) :
    result = .error (.reading fault) ∧ fault.Refusal := by
  cases h with
  | scanning hscan' =>
    rw [hscan] at hscan'
    cases hscan'
  | reading hscan' hread' hrefusal =>
    rw [hscan] at hscan'
    cases hscan'
    rw [hread] at hread'
    cases hread'
    exact ⟨rfl, hrefusal⟩
  | drawing hscan' hread' | listing hscan' hread' =>
    rw [hscan] at hscan'
    cases hscan'
    rw [hread] at hread'
    cases hread'

/-- The tokens of a text are those of a good reader. -/
theorem start_good {tokens : List Token} (hscan : Token.scan source = .ok tokens) :
    (Read.start (Reader.ofTokens tokens)).Good ∧
      (Read.start (Reader.ofTokens tokens)).ahead = tokens := by
  obtain ⟨ts, stop, rfl, hstop, hts⟩ := Token.scan_ok hscan
  have hahead : (Read.start (Reader.ofTokens (ts ++ [stop]))).ahead = ts ++ [stop] :=
    (Read.start_ahead _).trans (closed_eq hstop)
  exact ⟨⟨ts, stop, hahead, hstop, hts⟩, hahead⟩

/-- What is noted of the tree of a program that has been read. -/
theorem drawTree_program {tokens : List Token} {program : Program} {reader : Reader}
    (hscan : Token.scan source = .ok tokens)
    (hread : Read.program (Reader.ofTokens tokens) = .ok program reader) :
    (∀ notes, drawTree noteTree (Program.tree program) = .ok notes →
      noteTree = true → ¬ program.Deep) ∧
    ∀ fault, drawTree noteTree (Program.tree program) = .error fault →
      fault = .tooDeep ∧ noteTree = true ∧ program.Deep := by
  obtain ⟨-, hshaped, -, -⟩ := program_of_text hscan hread
  have hdraw := Sketch.draw_whole hshaped.whole.1 Sketch.maxLevels 0
  unfold drawTree Tree.outline
  cases noteTree with
  | false =>
    constructor
    · intro _ _ h
      cases h
    · intro _ h
      cases h
  | true =>
    simp only [if_true]
    cases hd : (Program.tree program).sketch.draw Sketch.maxLevels 0 with
    | ok outline =>
      constructor
      · intro _ _ _
        exact hdraw.1 _ hd
      · intro _ h
        cases h
    | error fault =>
      constructor
      · intro _ h
        cases h
      · intro _ h
        cases h
        obtain ⟨rfl, hdeep⟩ := hdraw.2 _ hd
        exact ⟨rfl, trivial, hdeep⟩

theorem compile_ending (hnesting : Grammar.nesting (scanText source).tokens ≤ 200) :
    Compile.Ending noteTree source (compile noteTree source).1 := by
  unfold compile
  cases hscan : Token.scan source with
  | error rejection => exact .scanning hscan (Token.scan_error hscan)
  | ok tokens =>
    simp only [compileTokens]
    cases hread : Read.program (Reader.ofTokens tokens) with
    | error fault reader =>
      obtain ⟨hgood, hahead⟩ := start_good hscan
      refine .reading hscan hread (Read.program_refused hgood ?_ hread)
      rw [hahead, ← Token.scan_tokens hscan]
      show Grammar.nesting (scanText source).tokens < Read.maxNesting
      unfold Read.maxNesting
      omega
    | ok program reader =>
      obtain ⟨hdrawn, hundrawn⟩ := @drawTree_program noteTree _ _ _ _ hscan hread
      simp only
      cases hdraw : drawTree noteTree (Program.tree program) with
      | error fault =>
        obtain ⟨rfl, hnote, hdeep⟩ := hundrawn _ hdraw
        exact .drawing hscan hread hnote hdeep
      | ok drawn =>
        obtain ⟨writer, hwrite, -⟩ := program_written hscan hread (List.Subset.refl _)
        simp only [writeTree, hwrite]
        exact .listing hscan hread (hdrawn _ hdraw)

/-! ## Sums that are not drawn -/

/-- A sum of ones, with that many of them in front of the last. -/
def onesText : Nat → List Char
  | 0 => ['1', '\n']
  | count + 1 => '1' :: '+' :: onesText count

/-- A text that prints the sum. -/
def sumText (count : Nat) : String :=
  String.ofList ('P' :: 'R' :: 'I' :: 'N' :: 'T' :: ' ' :: onesText count)

/-- The tree of one of them. -/
def oneTree : Tree := .term (.unary (.integer (.leaf (.whole 1))) .nothing) .nothing .nothing

/-- The tree of the sum. -/
def onesTree : Nat → Tree
  | 0 => .expression oneTree .nothing .nothing
  | count + 1 => .expression oneTree (.symbol .plus) (onesTree count)

/-- The tree of the text. -/
def sumTree (count : Nat) : Tree := .sequence (.print (onesTree count)) .done

theorem onesTree_mentions (count : Nat) : (onesTree count).mentions = [] := by
  induction count with
  | zero => rfl
  | succ count ih => simpa [onesTree, oneTree, Tree.mentions] using ih

theorem onesTree_reaches (count : Nat) : (onesTree count).sketch.Reaches count := by
  induction count with
  | zero => trivial
  | succ count ih =>
    refine ⟨(onesTree count).sketch, ?_, ih⟩
    cases count <;> simp [onesTree, oneTree, Tree.part, Sketch.Part.below?]

theorem sumTree_reaches (count : Nat) : (sumTree count).sketch.Reaches (count + 2) := by
  refine ⟨(Tree.print (onesTree count)).sketch, ?_, ?_⟩
  · simp [Tree.sketchChain]
  · refine ⟨(onesTree count).sketch, ?_, onesTree_reaches count⟩
    cases count <;> simp [onesTree, oneTree, Tree.part, Sketch.Part.below?]

section Scan

variable (place : Place) (rest : List Char)

theorem scan_one (c : Char) (h : c = '+' ∨ c = '\n') :
    scanFrom place ('1' :: c :: rest) =
      (scanFrom (place.right 1) (c :: rest)).cons (place.token .integer (.whole 1) ['1']) := by
  have hpiece : piece '1' (c :: rest) = .token .integer (.whole 1) 0 := by
    rcases h with rfl | rfl <;> rfl
  rw [scanFrom, hpiece]
  rfl

theorem scan_plus :
    scanFrom place ('+' :: '1' :: rest) =
      (scanFrom (place.right 1) ('1' :: rest)).cons (place.token .plus .absent ['+']) := by
  have hpiece : piece '+' ('1' :: rest) = .token .plus .absent 0 := rfl
  rw [scanFrom, hpiece]
  rfl

theorem scan_stop :
    scanFrom place ['\n'] =
      ⟨[place.token .newline .absent ['\n'], place.below.token .eof .absent []], place.below,
        none⟩ := by
  have hpiece : piece '\n' [] = .lineEnd := rfl
  rw [scanFrom, hpiece]
  simp only
  rw [scanFrom]
  rfl

theorem scan_print :
    scanFrom place ('P' :: 'R' :: 'I' :: 'N' :: 'T' :: ' ' :: rest) =
      (scanFrom (place.right 6) rest).cons (place.token .print .absent "PRINT".toList) := by
  have hpiece : piece 'P' ('R' :: 'I' :: 'N' :: 'T' :: ' ' :: rest) = .token .print .absent 4 := rfl
  have hgap : piece ' ' rest = .gap 0 := rfl
  rw [scanFrom, hpiece]
  show (scanFrom (place.right 5) (' ' :: rest)).cons _ = _
  rw [scanFrom, hgap]
  simp [Place.right, Int.add_assoc]

end Scan

/-- The sum is read as the tokens of its tree, with the end of the line and the mark for the end
behind them. -/
theorem scan_ones (count : Nat) (place : Place) : ∃ ts stop last,
    (scanFrom place (onesText count)).fault? = none ∧
    (scanFrom place (onesText count)).tokens = ts ++ [stop, last] ∧
    Grammar.Expression ts (onesTree count) ∧ stop.kind = .newline ∧ last.kind = .eof := by
  have hone (place : Place) :
      Grammar.Term [place.token .integer (.whole 1) ['1']] oneTree :=
    .last (.plain (.integer rfl))
  induction count generalizing place with
  | zero =>
    rw [onesText, scan_one _ _ _ (.inr rfl), scan_stop]
    exact ⟨[_], _, _, rfl, rfl, .last (hone place), rfl, rfl⟩
  | succ count ih =>
    obtain ⟨ts, stop, last, hfault, htokens, hg, hstop, hlast⟩ := ih ((place.right 1).right 1)
    obtain ⟨rest, hrest⟩ : ∃ rest, onesText count = '1' :: rest := by
      cases count <;> exact ⟨_, rfl⟩
    rw [hrest] at hfault htokens
    rw [onesText, scan_one _ _ _ (.inl rfl), hrest, scan_plus]
    let plus := (place.right 1).token .plus .absent ['+']
    have hlink : Grammar.Expression
        ([place.token .integer (.whole 1) ['1']] ++ plus :: ts) (onesTree (count + 1)) :=
      .link (hone place) (List.mem_cons_self ..) hg
    refine ⟨_, stop, last, hfault, ?_, hlink, hstop, hlast⟩
    simp only [Scan.cons, htokens]
    rfl

/-- The text of the sum is a program of the grammar, and has no blocks. -/
theorem scan_sum (count : Nat) : ∃ tokens, Token.scan (sumText count) = .ok tokens ∧
    Grammar.nesting tokens = 0 ∧ Grammar.Program tokens.dropLast (sumTree count) := by
  obtain ⟨ts, stop, last, hfault, htokens, hg, hstop, hlast⟩ :=
    scan_ones count (({} : Place).right 6)
  let word := ({} : Place).token .print .absent "PRINT".toList
  refine ⟨(word :: ts ++ [stop]) ++ [last], ?_, ?_, ?_⟩
  · have hjoin : word :: (ts ++ [stop, last]) = word :: ts ++ [stop] ++ [last] := by simp
    unfold Token.scan scanText sumText
    rw [String.toList_ofList, scan_print]
    simp only [Scan.cons, hfault, htokens]
    exact congrArg Except.ok hjoin
  · have hline : Grammar.Flat (word :: ts ++ [stop]) :=
      Grammar.Flat.cons (by simp [word, Place.token]) (hg.flat.append (by simp [Grammar.Flat, hstop]))
    exact (hline.append (by simp [Grammar.Flat, hlast])).nesting
  · rw [List.dropLast_concat]
    have hprint : Grammar.Statement (word :: ts ++ [stop]) (.print (onesTree count)) :=
      .print rfl hg hstop
    have hdone : Grammar.Program [] .done := .done (fun _ h => by cases h)
    have hrows : Grammar.Program ([] ++ (word :: ts ++ [stop]) ++ []) (sumTree count) :=
      .next (fun _ h => by cases h) hprint hdone
    simpa using hrows

/-- A long sum is read as a program whose tree goes too deep. -/
theorem sum_deep {count : Nat} (h : Sketch.maxLevels ≤ count) :
    Grammar.nesting (scanText (sumText count)).tokens = 0 ∧
    ∃ tokens program reader, Token.scan (sumText count) = .ok tokens ∧
      Read.program (Reader.ofTokens tokens) = .ok program reader ∧ program.Deep := by
  obtain ⟨tokens, hscan, hnesting, hg⟩ := scan_sum count
  have hnames : WellNamed (sumTree count).mentions := by
    have hmentions : (sumTree count).mentions = [] := by
      simp [sumTree, Tree.mentions, onesTree_mentions]
    rw [hmentions]
    exact ⟨by simp, by simp, by simp⟩
  obtain ⟨program, reader, hread, htree⟩ :=
    program_of_grammar hscan (by omega) hg hnames
  refine ⟨(Token.scan_tokens hscan).symm ▸ hnesting, tokens, program, reader, hscan, hread, ?_⟩
  show (Program.tree program).sketch.Reaches Sketch.maxLevels
  rw [htree]
  exact (sumTree_reaches count).mono (by omega)

/-- **Long sums are compiled, but not drawn.** -/
theorem sum_ends {count : Nat} (h : Sketch.maxLevels ≤ count) :
    (compile true (sumText count)).1 = .error (.drawing .tooDeep) ∧
    ∃ listing, (compile false (sumText count)).1 = .ok listing := by
  obtain ⟨hnesting, tokens, program, reader, hscan, hread, hdeep⟩ := sum_deep h
  have hends (noteTree : Bool) :
      Compile.Ending noteTree (sumText count) (compile noteTree (sumText count)).1 :=
    compile_ending (by omega)
  constructor
  · exact ((hends true).of_read hscan hread).1 rfl hdeep
  · exact ⟨_, ((hends false).of_read hscan hread).2 fun hnote => by cases hnote⟩

/-! ## Every text -/

/-- **A text is compiled or complained of**, whatever its characters, unless its tree is to be drawn
and goes too deep. The rest says why: a numeral that stands for no number is a lexical fault, and a
program that has been read is well-formed, so that the writer knows every node of it. -/
theorem compile_ends (noteTree : Bool) (source : String)
    (hnesting : Grammar.nesting (scanText source).tokens ≤ 200) :
    Compile.Ending noteTree source (compile noteTree source).1 ∧
    (∀ hasPoint lexeme, NumeralSound (Lexeme.numeral hasPoint lexeme)) ∧
    ∀ tokens program reader, Token.scan source = .ok tokens →
      Read.program (Reader.ofTokens tokens) = .ok program reader →
      Tree.Shaped .chain (Program.tree program) := by
  refine ⟨compile_ending hnesting, numeral_sound, fun tokens program reader hscan hread => ?_⟩
  exact (program_of_text hscan hread).2.1

theorem countText_ends :
    Grammar.nesting (scanText countText).tokens ≤ 200 ∧
    Compile.Ending true countText (compile true countText).1 := by
  have hnesting : Grammar.nesting (scanText countText).tokens ≤ 200 := by decide +kernel
  exact ⟨hnesting, (compile_ends true countText hnesting).1⟩

theorem long_sum_not_drawn :
    Grammar.nesting (scanText (sumText 1000)).tokens ≤ 200 ∧
    (compile true (sumText 1000)).1 = .error (.drawing .tooDeep) ∧
    (Compile.Fault.drawing .tooDeep).rejection? = none := by
  have hlong : Sketch.maxLevels ≤ 1000 := by decide
  obtain ⟨hnesting, -⟩ := sum_deep hlong
  exact ⟨by omega, (sum_ends hlong).1, rfl⟩

end BasicToC
