import BasicToC.Proofs.Joining.Declarations
import BasicToC.Proofs.Joining.Programs
import BasicToC.Proofs.Listing.Declaration

/-!
# Programs compose

Two programs with different labels are compiled together as they are apart: the listing of both has
the lines of the first and then those of the second, which declares the variables that the first does
not have.

* `listingAround`, `Code.body`: a listing around the lines of its statements.
* `Program.code_append`, `Program.deep_append`: the C of two programs, and how deep it goes.
* `compile_read`: the listing of a program that is read.
* `Program.code_joined`: the C of joined programs with its declarations.
* `programs_compose`: the listing of joined programs.
-/

set_option autoImplicit false

namespace BasicToC

/-! ## Listings and their lines -/

/-- A listing around the lines of its statements, each of which ends in a line feed. -/
def listingAround (body : String) : String :=
  "#include <stdio.h>\nint main(void)\x7b\n" ++ body ++ "    return 0;\n\x7d\n"

/-- The lines of statements, each with its line feed. -/
def Code.body (code : Code) : String := String.join ((code.lines 1).map (· ++ "\n"))

theorem intercalate_lines {lines : List String} (h : lines ≠ []) :
    String.intercalate "\n" lines ++ "\n" = String.join (lines.map (· ++ "\n")) := by
  induction lines with
  | nil => exact absurd rfl h
  | cons line lines ih =>
    cases lines with
    | nil => simp [String.join_cons]
    | cons next lines =>
      rw [String.intercalate_cons_of_ne_nil (by simp), String.append_assoc, ih (by simp),
        List.map_cons (a := line), String.join_cons]

theorem Code.listing_around (code : Code) : code.listing = listingAround code.body := by
  have hfirst (text : String) : "#include <stdio.h>\nint main(void)\x7b\n" ++ text =
      "#include <stdio.h>\n" ++ ("int main(void)\x7b\n" ++ text) := by
    rw [← String.append_assoc]
    rfl
  have hlast : indented 1 "return 0;" = "    return 0;" := by decide
  unfold Code.listing listingAround Code.body
  rw [intercalate_lines (by simp), hlast, String.append_assoc, hfirst]
  simp [String.join_append, String.join_cons]

theorem Code.body_append (code more : Code) : (code.append more).body = code.body ++ more.body := by
  simp [Code.body, Code.lines_append, String.join_append]

/-! ## Two programs -/

theorem Code.append_assoc (a b c : Code) : (a.append b).append c = a.append (b.append c) := by
  induction a with
  | done => rfl
  | simple line rest ih => rw [append, append, append, ih]
  | block keyword condition body rest _ ih => rw [append, append, append, ih]

namespace Program

variable (p q : Program)

/-- The C of two programs, one behind the other. -/
theorem code_append : (tree (p ++ q)).code = (tree p).code.append (tree q).code := by
  induction p with
  | nil => rfl
  | cons statement p ih =>
    rw [List.cons_append, tree, tree, Tree.code, Tree.code, ih, Code.append_assoc]

theorem sketchChain_tree : (tree p).sketchChain = p.map fun statement => statement.tree.sketch := by
  induction p with
  | nil => simp [tree, Tree.sketchChain]
  | cons statement p ih => rw [tree, Tree.sketchChain, ih, List.map_cons]

/-- A program goes as deep as one of its statements. -/
theorem reaches_succ (levels : Nat) : (tree p).sketch.Reaches (levels + 1) ↔
    ∃ statement ∈ p, statement.tree.sketch.Reaches levels := by
  cases p with
  | nil => simp [tree, Tree.sketch, Sketch.Reaches]
  | cons statement p => simp [tree, Tree.sketch, Sketch.Reaches, sketchChain_tree]

variable {p q}

/-- Two programs go no deeper than one of them does. -/
theorem deep_append (h : Deep (p ++ q)) : Deep p ∨ Deep q := by
  have hlevels : Sketch.maxLevels = 489 + 1 := rfl
  unfold Deep at h ⊢
  rw [hlevels, reaches_succ] at h ⊢
  rw [reaches_succ]
  obtain ⟨statement, hs, hreach⟩ := h
  exact (List.mem_append.1 hs).imp (⟨statement, ·, hreach⟩) (⟨statement, ·, hreach⟩)

end Program

/-- The listing of a program that is read, unless it is not to be drawn. -/
theorem compile_read {noteTree : Bool} {source listing : String} {tokens : List Token}
    {program : Program} {reader : Reader} (hnesting : Grammar.nesting tokens ≤ 200)
    (hscan : Token.scan source = .ok tokens)
    (hread : Read.program (Reader.ofTokens tokens) = .ok program reader)
    (h : (compile noteTree source).1 = .ok listing) :
    (noteTree = true → ¬ program.Deep) ∧ listing = (program.code reader).listing := by
  have hends : Compile.Ending noteTree source (compile noteTree source).1 :=
    compile_ending ((Token.scan_tokens hscan).symm ▸ hnesting)
  obtain ⟨hdeep, hlisting⟩ := hends.of_read hscan hread
  have hshallow : noteTree = true → ¬ program.Deep := fun hnote hd => by
    rw [hdeep hnote hd] at h
    cases h
  refine ⟨hshallow, ?_⟩
  rw [hlisting hshallow] at h
  cases h
  rfl

section Joined

variable {source next listing listing' : String} {ts us tokens : List Token}
variable {p q program : Program} {reader reader' joined : Reader} {noteTree : Bool}

/-- The names that are written in the listing of a program are its variables. -/
theorem site_declared (hscan : Token.scan source = .ok ts)
    (hread : Read.program (Reader.ofTokens ts) = .ok p reader) :
    ∀ s ∈ (Program.tree p).code.sites [] 0, s.mention.name ∈ reader.names.declared := by
  intro s hs
  obtain ⟨-, hshaped, hnamed, hholds⟩ := program_of_text hscan hread
  obtain ⟨hmention, hv⟩ := List.mem_filter.1 (hshaped.mentions ▸ List.mem_map_of_mem hs)
  exact (hholds.declared _).2 (hnamed.sets_variable hmention hv)

/-- **The C of joined programs** is that of both, where the second declares what the first does not
have. -/
theorem Program.code_joined (hscan : Token.scan source = .ok ts)
    (hread : Read.program (Reader.ofTokens ts) = .ok p reader)
    (hscan' : Token.scan next = .ok us)
    (hread' : Read.program (Reader.ofTokens us) = .ok q reader')
    (hjoined : Token.scan (source ++ "\n" ++ next) = .ok tokens)
    (hreadjoined : Read.program (Reader.ofTokens tokens) = .ok program joined)
    (htree : Program.tree program = Program.tree (p ++ q)) :
    program.code joined = (p.code reader).append
      ((Program.tree q).code.declare
        (reader'.names.declared.filter fun v => !v.isIn reader.names.declared)).1 := by
  obtain ⟨hg, hshaped, -, hholds⟩ := program_of_text hscan hread
  obtain ⟨-, hshaped', -, hholds'⟩ := program_of_text hscan' hread'
  obtain ⟨-, -, -, hall⟩ := program_of_text hjoined hreadjoined
  have hmentions : (Program.tree program).mentions =
      (Program.tree p).mentions ++ (Program.tree q).mentions := by
    rw [htree, Program.tree_append, Grammar.Rows.append_mentions hg]
  have hsets (v : Value) : v ∈ joined.names.declared ↔
      v ∈ reader.names.declared ∨ v ∈ reader'.names.declared := by
    have h := hall.declared v
    rw [hmentions, List.mem_append, ← hholds.declared, ← hholds'.declared] at h
    exact h
  have htexts : ∀ v ∈ reader.names.declared, v.IsText := fun v hv =>
    hshaped.texts _ ((hholds.declared v).1 hv)
  have hmore : ∀ s ∈ (Program.tree q).code.sites [] 0, s.mention.name.IsText := fun s hs =>
    hshaped'.texts (.sets _) ((hholds'.declared _).1 (site_declared hscan' hread' s hs))
  obtain ⟨-, -, hwaiting⟩ := program_declares_once hscan hread
  rw [Program.code, htree, Program.code_append]
  exact Code.declare_joined hsets htexts (site_declared hscan hread) hwaiting hmore

/-- **Programs compose.** Two texts that are compiled and whose labels are different ones are compiled
with a line feed between them. The listing of both has the lines of the first listing and then those
that are written for the second program when the variables of the first are declared already. If no
variable is set in both, these are the lines of the second listing. -/
theorem programs_compose (hscan : Token.scan source = .ok ts) (hscan' : Token.scan next = .ok us)
    (hread : Read.program (Reader.ofTokens ts) = .ok p reader)
    (hread' : Read.program (Reader.ofTokens us) = .ok q reader')
    (hcompile : (compile noteTree source).1 = .ok listing)
    (hcompile' : (compile noteTree next).1 = .ok listing')
    (hnesting : Grammar.nesting ts ≤ 200) (hnesting' : Grammar.nesting us ≤ 200)
    (hlabels : List.Disjoint reader.names.labels reader'.names.labels) :
    ∃ body body' writer, listing = listingAround body ∧
      Write.program
        { tree := Program.tree q
          declared := reader'.names.declared.filter fun v => !v.isIn reader.names.declared } =
        .ok (listingAround body') writer ∧
      (compile noteTree (source ++ "\n" ++ next)).1 = .ok (listingAround (body ++ body')) ∧
      (List.Disjoint reader.names.declared reader'.names.declared → listing' = listingAround body') := by
  obtain ⟨tokens, program, joined, hjoined, hreadjoined, htree, hdepth⟩ :=
    program_joined hscan hscan' hread hread' hnesting hnesting' hlabels
  obtain ⟨hshallow, rfl⟩ := compile_read hnesting hscan hread hcompile
  obtain ⟨hshallow', rfl⟩ := compile_read hnesting' hscan' hread' hcompile'
  obtain ⟨-, hshaped, -, hholds⟩ := program_of_text hscan' hread'
  have hcode := Program.code_joined hscan hread hscan' hread' hjoined hreadjoined htree
  generalize hleft : (reader'.names.declared.filter fun v => !v.isIn reader.names.declared) = left
    at hcode ⊢
  have hsubset : left ⊆ reader'.names.declared := hleft ▸ fun v hv => (List.mem_filter.1 hv).1
  obtain ⟨writer, hwrite, -⟩ := program_written hscan' hread' hsubset
  refine ⟨(p.code reader).body, ((Program.tree q).code.declare left).1.body, writer,
    Code.listing_around _, ?_, ?_, fun hdisjoint => ?_⟩
  · rw [hwrite, Code.listing_around]
  · have hends : Compile.Ending noteTree (source ++ "\n" ++ next)
        (compile noteTree (source ++ "\n" ++ next)).1 :=
      compile_ending ((Token.scan_tokens hjoined).symm ▸ hdepth)
    have hdeep : noteTree = true → ¬ program.Deep := fun hnote hd => by
      have hd : Program.Deep (p ++ q) := by
        unfold Program.Deep
        rw [← htree]
        exact hd
      exact (Program.deep_append hd).elim (hshallow hnote) (hshallow' hnote)
    rw [(hends.of_read hjoined hreadjoined).2 hdeep, hcode, Code.listing_around, Code.body_append]
  · have hkept : left = reader'.names.declared := by
      rw [← hleft, List.filter_eq_self]
      intro v hv
      have htext : v.IsText := hshaped.texts _ ((hholds.declared v).1 hv)
      rw [Bool.not_eq_true', ← Bool.not_eq_true, Value.isIn_text htext]
      exact fun hin => hdisjoint hin hv
    rw [hkept, Program.code, Code.listing_around]

end Joined

/-- A text that ends in a comment and goes round for ever. -/
def topText : String := "LABEL top\nLET a = 1\nGOTO top\n# never reached"

/-- A text that sets the same variable and places another label. -/
def bottomText : String := "LET a = 2\nLET b = a\nLABEL bottom\nPRINT b\n"

theorem topText_before_bottomText : ∃ p q reader reader' body body' writer,
    Read.program (Reader.ofTokens (scanText topText).tokens) = .ok p reader ∧
    Read.program (Reader.ofTokens (scanText bottomText).tokens) = .ok q reader' ∧
    List.Disjoint reader.names.labels reader'.names.labels ∧
    (compile true topText).1 = .ok (listingAround body) ∧
    Write.program
      { tree := Program.tree q
        declared := reader'.names.declared.filter fun v => !v.isIn reader.names.declared } =
      .ok (listingAround body') writer ∧
    (compile true (topText ++ "\n" ++ bottomText)).1 = .ok (listingAround (body ++ body')) := by
  have hread {text : String} {labels : List Value}
      (h : (match Read.program (Reader.ofTokens (scanText text).tokens) with
        | .ok _ reader => reader.names.labels == labels
        | .error _ _ => false) = true) : ∃ program reader,
      Read.program (Reader.ofTokens (scanText text).tokens) = .ok program reader ∧
        reader.names.labels = labels := by
    split at h
    · exact ⟨_, _, ‹_›, by simpa using h⟩
    · cases h
  have hlisting {text : String} (h : (compile true text).1.toOption.isSome = true) :
      ∃ listing, (compile true text).1 = .ok listing := by
    cases hresult : (compile true text).1 with
    | ok listing => exact ⟨listing, rfl⟩
    | error fault =>
      rw [hresult] at h
      cases h
  have hscan : Token.scan topText = .ok (scanText topText).tokens := by decide +kernel
  have hscan' : Token.scan bottomText = .ok (scanText bottomText).tokens := by decide +kernel
  have hnesting : Grammar.nesting (scanText topText).tokens ≤ 200 := by decide +kernel
  have hnesting' : Grammar.nesting (scanText bottomText).tokens ≤ 200 := by decide +kernel
  obtain ⟨p, reader, hp, hlabels⟩ := @hread topText [.text "top"] (by decide +kernel)
  obtain ⟨q, reader', hq, hlabels'⟩ := @hread bottomText [.text "bottom"] (by decide +kernel)
  obtain ⟨listing, hcompile⟩ := @hlisting topText (by decide +kernel)
  obtain ⟨listing', hcompile'⟩ := @hlisting bottomText (by decide +kernel)
  have hdisjoint : List.Disjoint reader.names.labels reader'.names.labels := by
    rw [hlabels, hlabels']
    simp
  obtain ⟨body, body', writer, rfl, hwrite, hjoined, -⟩ := programs_compose hscan hscan' hp hq
    hcompile hcompile' hnesting hnesting' hdisjoint
  exact ⟨p, q, reader, reader', body, body', writer, hp, hq, hdisjoint, hcompile, hwrite, hjoined⟩

end BasicToC
