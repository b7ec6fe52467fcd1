import BasicToC.Proofs.Layout.Reading
import BasicToC.Proofs.Pipeline.Outcome

/-!
# Layout does not matter

Two texts whose tokens are the same up to blank lines are compiled alike. Blanks, comments, carriage
returns and other ways to write the same number are no matter of tokens, or not of what they carry.

* `Compile.SameFate`: two texts are compiled to one listing, or refused by one stage.
* `reads_agree`: they are read alike.
* `layout_independent`: they are compiled alike.
-/

set_option autoImplicit false

namespace BasicToC

/-- Two texts become of the same: they have one listing, or are refused for reasons of one category,
or the tree of both goes too deep to be drawn, where that is asked for. -/
inductive Compile.SameFate (noteTree : Bool) :
    Except Compile.Fault String → Except Compile.Fault String → Prop
  | listing (listing : String) : SameFate noteTree (.ok listing) (.ok listing)
  | refused {fault fault' : Compile.Fault} {a b : Rejection} (first : fault.rejection? = some a)
      (second : fault'.rejection? = some b) (category : a.complaint.category = b.complaint.category) :
      SameFate noteTree (.error fault) (.error fault')
  | undrawn (noted : noteTree = true) :
      SameFate noteTree (.error (.drawing .tooDeep)) (.error (.drawing .tooDeep))

variable {source source' : String} {ts us : List Token}

/-- Texts whose tokens are twins up to blank lines are read alike. -/
theorem reads_agree (hscan : Token.scan source = .ok ts) (hscan' : Token.scan source' = .ok us)
    (htwins : Twins true ts us) :
    Read.Agree true Eq (Read.program (Reader.ofTokens ts)) (Read.program (Reader.ofTokens us)) := by
  refine Read.program_agree ⟨?_, rfl⟩
  rw [(start_good hscan).2, (start_good hscan').2]
  exact htwins

/-- **Layout does not matter.** Two texts whose tokens are the same up to blank lines are compiled to
one listing, or refused for reasons of one category. -/
theorem layout_independent (noteTree : Bool) (hscan : Token.scan source = .ok ts)
    (hscan' : Token.scan source' = .ok us) (hnesting : Grammar.nesting ts ≤ 200)
    (hnesting' : Grammar.nesting us ≤ 200)
    (hsame : List.Forall₂ (fun a b => a.same b = true) (collapseLines true ts)
      (collapseLines true us)) :
    Compile.SameFate noteTree (compile noteTree source).1 (compile noteTree source').1 := by
  have hagree := reads_agree hscan hscan' (twins_of_same hscan hscan' hsame)
  have hends : Compile.Ending noteTree source (compile noteTree source).1 :=
    compile_ending ((Token.scan_tokens hscan).symm ▸ hnesting)
  have hends' : Compile.Ending noteTree source' (compile noteTree source').1 :=
    compile_ending ((Token.scan_tokens hscan').symm ▸ hnesting')
  cases hread : Read.program (Reader.ofTokens ts) with
  | ok program reader =>
    cases hread' : Read.program (Reader.ofTokens us) with
    | error fault' reader' =>
      rw [hread, hread'] at hagree
      exact hagree.elim
    | ok program' reader' =>
      rw [hread, hread'] at hagree
      obtain ⟨rfl, halike⟩ := hagree
      have hdeclared : reader.names.declared = reader'.names.declared :=
        congrArg Ledger.declared halike.ledger
      obtain ⟨hdeep, hlisting⟩ := hends.of_read hscan hread
      obtain ⟨hdeep', hlisting'⟩ := hends'.of_read hscan' hread'
      by_cases hundrawn : noteTree = true ∧ program.Deep
      · rw [hdeep hundrawn.1 hundrawn.2, hdeep' hundrawn.1 hundrawn.2]
        exact .undrawn hundrawn.1
      · have hshallow : noteTree = true → ¬ program.Deep := fun hn hd => hundrawn ⟨hn, hd⟩
        rw [hlisting hshallow, hlisting' hshallow, Program.code, Program.code, hdeclared]
        exact .listing _
  | error fault reader =>
    cases hread' : Read.program (Reader.ofTokens us) with
    | ok program' reader' =>
      rw [hread, hread'] at hagree
      exact hagree.elim
    | error fault' reader' =>
      rw [hread, hread'] at hagree
      obtain ⟨hresult, a, rfl, -⟩ := hends.of_unread hscan hread
      obtain ⟨hresult', b, rfl, -⟩ := hends'.of_unread hscan' hread'
      rw [hresult, hresult']
      cases hagree with
      | refl => exact .refused rfl rfl rfl
      | rejected category => exact .refused rfl rfl category

/-- A text with comments, blank lines and a longer numeral. -/
def airyText : String := "\n# start\nLET a = 1.50 # set\r\n\n\tIF a > 1 THEN\n\nPRINT a\n# done\nENDIF\n"

/-- The same program, with nothing that it does not need. -/
def denseText : String := "LET a=1.5\nIF a>1THEN\nPRINT a\nENDIF\n"

theorem airyText_like_denseText :
    Token.scan airyText = .ok (scanText airyText).tokens ∧
    Token.scan denseText = .ok (scanText denseText).tokens ∧
    Compile.SameFate false (compile false airyText).1 (compile false denseText).1 := by
  have hscan : Token.scan airyText = .ok (scanText airyText).tokens := by decide +kernel
  have hscan' : Token.scan denseText = .ok (scanText denseText).tokens := by decide +kernel
  have hnesting : Grammar.nesting (scanText airyText).tokens ≤ 200 := by decide +kernel
  have hnesting' : Grammar.nesting (scanText denseText).tokens ≤ 200 := by decide +kernel
  have hsame : List.Forall₂ (fun a b => a.same b = true)
      (collapseLines true (scanText airyText).tokens)
      (collapseLines true (scanText denseText).tokens) := by decide +kernel
  exact ⟨hscan, hscan', layout_independent false hscan hscan' hnesting hnesting' hsame⟩

end BasicToC
