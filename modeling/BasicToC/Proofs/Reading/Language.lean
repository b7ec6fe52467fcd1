import BasicToC.Proofs.Grammar.Shape
import BasicToC.Proofs.Reading.Program

/-!
# The language that is read

The texts that are read as programs are those whose tokens the grammar derives and whose names keep
the rules.

* `program_of_text`: what a program that has been read from a text is like.
* `program_of_derivation`, `program_of_grammar`: when a program that the grammar derives is read.
* `program_reads_iff`: reading, grammar and rules agree on every text whose blocks stand at most 200
  deep in one another.
-/

set_option autoImplicit false

namespace BasicToC

theorem closed_eq {ts : List Token} {stop : Token} (h : stop.kind = .eof) :
    Reader.closed (ts ++ [stop]) = ts ++ [stop] := by
  simp [Reader.closed, h]

/-- The mark for the end stands behind the tokens of the program, as none of them is one. -/
theorem split_at_end {ts us rest : List Token} {stop token : Token}
    (hts : ∀ t ∈ ts, t.Proper) (hk : token.kind = .eof)
    (h : ts ++ [stop] = us ++ token :: rest) : ts = us := by
  induction ts generalizing us with
  | nil =>
    cases us with
    | nil => rfl
    | cons u us => simp at h
  | cons t ts ih =>
    cases us with
    | nil =>
      have he : t = token := by simpa using congrArg List.head? h
      exact absurd (he ▸ hk) (hts t (by simp)).kind
    | cons u us =>
      rw [List.cons_append, List.cons_append, List.cons.injEq] at h
      rw [h.1, ih (fun t ht => hts t (by simp [ht])) h.2]

/-- What a program that has been read from a text is like: its tree comes from the grammar, its names
keep the rules, and the reader holds exactly the names in it. -/
theorem program_of_text {source : String} {tokens : List Token} {program : Program}
    {reader : Reader} (hscan : Token.scan source = .ok tokens)
    (hread : Read.program (Reader.ofTokens tokens) = .ok program reader) :
    Grammar.Program tokens.dropLast (Program.tree program) ∧
    Tree.Shaped .chain (Program.tree program) ∧ WellNamed (Program.tree program).mentions ∧
    reader.names.ledger.Holds (Program.tree program).mentions := by
  obtain ⟨ts, stop, rfl, hstop, hts⟩ := Token.scan_ok hscan
  rw [List.dropLast_concat]
  obtain ⟨us, token, rest, htokens, hk, hg, hn, hledger, hsettled⟩ := Read.program_ok hread
  have hclosed : ts ++ [stop] = us ++ token :: rest := (closed_eq hstop).symm.trans htokens
  obtain rfl := split_at_end hts hk hclosed
  have hholds := Ledger.Holds.empty.record (hg.texts hts)
  rw [← hledger, List.nil_append] at hholds
  exact ⟨hg, hg.shaped hts, (allows_iff_wellNamed (hg.texts hts)).1 ⟨hn, hledger ▸ hsettled⟩, hholds⟩

/-- Tokens that the grammar derives are read as that tree, if its names keep the rules and its blocks
are not nested too deep. -/
theorem program_of_derivation {ts : List Token} {stop : Token} {t : Tree}
    (hts : ∀ t ∈ ts, t.Proper) (hstop : stop.kind = .eof)
    (hdeep : Grammar.nesting ts < Read.maxNesting) (hg : Grammar.Program ts t)
    (hnames : WellNamed t.mentions) :
    ∃ program reader, Read.program (Reader.ofTokens (ts ++ [stop])) = .ok program reader ∧
      Program.tree program = t := by
  obtain ⟨hn, hsettled⟩ := (allows_iff_wellNamed (hg.texts hts)).2 hnames
  have hholds := Ledger.Holds.empty.record (hg.texts hts)
  refine Read.program_takes hg hdeep (closed_eq hstop) hstop hn hsettled fun v hv => ?_
  exact hg.texts hts _ ((hholds.declared v).1 hv)

/-- A text whose tokens the grammar derives is read as that tree, if its names keep the rules and its
blocks are not nested too deep. -/
theorem program_of_grammar {source : String} {tokens : List Token} {t : Tree}
    (hscan : Token.scan source = .ok tokens) (hnesting : Grammar.nesting tokens ≤ 200)
    (hg : Grammar.Program tokens.dropLast t) (hnames : WellNamed t.mentions) :
    ∃ program reader, Read.program (Reader.ofTokens tokens) = .ok program reader ∧
      Program.tree program = t := by
  obtain ⟨ts, stop, rfl, hstop, hts⟩ := Token.scan_ok hscan
  rw [List.dropLast_concat] at hg
  have hfront := Grammar.nesting_le_append ts [stop]
  have hdeep : Grammar.nesting ts < Read.maxNesting := by
    unfold Read.maxNesting
    omega
  exact program_of_derivation hts hstop hdeep hg hnames

/-- **Exactly the programs of the grammar whose names keep the rules are read**, and each as the tree
that the grammar derives, whatever text the tokens come from. -/
theorem program_reads_iff {source : String} {tokens : List Token}
    (hscan : Token.scan source = .ok tokens) (hnesting : Grammar.nesting tokens ≤ 200) (t : Tree) :
    (∃ program reader, Read.program (Reader.ofTokens tokens) = .ok program reader ∧
      Program.tree program = t) ↔
    Grammar.Program tokens.dropLast t ∧ WellNamed t.mentions := by
  constructor
  · rintro ⟨program, reader, hread, rfl⟩
    obtain ⟨hg, -, hnames, -⟩ := program_of_text hscan hread
    exact ⟨hg, hnames⟩
  · rintro ⟨hg, hnames⟩
    exact program_of_grammar hscan hnesting hg hnames

/-- A text that counts to three, with a blank line. -/
def countText : String := "LET a = 1\n\nWHILE a < 3 REPEAT\nLET a = a + 1\nENDWHILE\nPRINT a\n"

/-- The program of that text. -/
def countProgram : Program :=
  let a : Term := ⟨⟨none, .variable (.text "a")⟩, []⟩
  let number (n : Int) : Term := ⟨⟨none, .integer (.whole n)⟩, []⟩
  [.assign (.text "a") ⟨number 1, []⟩,
    .loop ⟨⟨a, []⟩, [(.lt, ⟨number 3, []⟩)]⟩
      [.assign (.text "a") ⟨a, [(.plus, number 1)]⟩],
    .print ⟨a, []⟩]

theorem countProgram_in_grammar :
    Token.scan countText = .ok (scanText countText).tokens ∧
    Grammar.nesting (scanText countText).tokens ≤ 200 ∧
    Grammar.Program (scanText countText).tokens.dropLast (Program.tree countProgram) ∧
    WellNamed (Program.tree countProgram).mentions := by
  have hscan : Token.scan countText = .ok (scanText countText).tokens := by decide +kernel
  have hnesting : Grammar.nesting (scanText countText).tokens ≤ 200 := by decide +kernel
  have hread : (match Read.program (Reader.ofTokens (scanText countText).tokens) with
      | .ok program _ => Program.tree program == Program.tree countProgram
      | .error _ _ => false) = true := by decide +kernel
  refine ⟨hscan, hnesting, (program_reads_iff hscan hnesting _).1 ?_⟩
  split at hread
  · rename_i program reader h
    exact ⟨program, reader, h, by simpa using hread⟩
  · cases hread

end BasicToC
