import BasicToC.Compile
import BasicToC.Proofs.Pipeline.Bounds

/-!
# The stages of compiling

* `compile_ok`: the stages that a text has passed which is compiled.
* `compile_rejected`: the stage that refuses a text.
* `compile_listing`: its listing, as the C of the program's tree.
-/

set_option autoImplicit false

namespace BasicToC

variable {noteTree : Bool} {source listing : String}

/-- A text that is compiled has been scanned, read and written. -/
theorem compile_ok (h : (compile noteTree source).1 = .ok listing) :
    ∃ tokens program reader writer, Token.scan source = .ok tokens ∧
      Read.program (Reader.ofTokens tokens) = .ok program reader ∧
      Write.program { tree := Program.tree program, declared := reader.names.declared } =
        .ok listing writer := by
  unfold compile at h
  cases hscan : Token.scan source with
  | error rejection => rw [hscan] at h; cases h
  | ok tokens =>
    rw [hscan] at h
    simp only [compileTokens] at h
    cases hread : Read.program (Reader.ofTokens tokens) with
    | error fault reader => rw [hread] at h; cases h
    | ok program reader =>
      rw [hread] at h
      simp only at h
      cases hdraw : drawTree noteTree (Program.tree program) with
      | error fault => rw [hdraw] at h; cases h
      | ok drawn =>
        rw [hdraw] at h
        simp only [writeTree] at h
        cases hwrite : Write.program
            { tree := Program.tree program, declared := reader.names.declared } with
        | error fault writer => rw [hwrite] at h; cases h
        | ok text writer =>
          rw [hwrite] at h
          cases h
          exact ⟨tokens, program, reader, writer, rfl, hread, hwrite⟩

/-- A text that is refused is refused by the first stage or by the second one. -/
theorem compile_rejected {fault : Compile.Fault} {rejection : Rejection}
    (h : (compile noteTree source).1 = .error fault) (hr : fault.rejection? = some rejection) :
    Token.scan source = .error rejection ∨
      ∃ tokens reader, Token.scan source = .ok tokens ∧
        Read.program (Reader.ofTokens tokens) = .error (.rejected rejection) reader := by
  unfold compile at h
  cases hscan : Token.scan source with
  | error refusal =>
    rw [hscan] at h
    cases h
    cases hr
    exact .inl rfl
  | ok tokens =>
    refine .inr ⟨tokens, ?_⟩
    rw [hscan] at h
    simp only [compileTokens] at h
    split at h
    · rename_i fault reader hread
      cases h
      cases fault <;> cases hr
      exact ⟨reader, rfl, hread⟩
    · split at h
      · cases h
        cases hr
      · split at h
        · cases h
        · cases h
          cases hr

/-- The C of a program that has been read, with its declarations. -/
def Program.code (program : Program) (reader : Reader) : Code :=
  ((Program.tree program).code.declare reader.names.declared).1

/-- **The listing of a text is the C of its program**, and nothing waits for its declaration at the
end that does not wait behind that. -/
theorem compile_listing {tokens : List Token} {program : Program} {reader : Reader}
    {writer : Writer} (hscan : Token.scan source = .ok tokens)
    (hread : Read.program (Reader.ofTokens tokens) = .ok program reader)
    (hwrite : Write.program { tree := Program.tree program, declared := reader.names.declared } =
      .ok listing writer) :
    listing = (program.code reader).listing ∧
      writer.pending = ((Program.tree program).code.declare reader.names.declared).2 := by
  obtain ⟨w, hw, hpending⟩ := program_written hscan hread (List.Subset.refl _)
  rw [hwrite] at hw
  cases hw
  exact ⟨rfl, hpending⟩

end BasicToC
