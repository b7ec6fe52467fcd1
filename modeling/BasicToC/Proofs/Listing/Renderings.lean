import BasicToC.Proofs.Listing.Declaration

/-!
# Names in a listing

The writer changes its state as it goes; what comes out is the C of the tree all the same, and where
a declaration stands in it can be read off the listing alone.

* `Code.bare`: a listing without its declarations.
* `Code.renderings`: the names in a listing, from left to right.
* `renderings_declare`: a name is declared where it is written for the first time, if it is one of
  those that wait.
* `Code.Inside`: how many blocks stand around a statement.
* `program_translates`: the listing of every well-formed tree within the bounds of writing.
* `program_not_translated`: trees and names beyond them.
-/

set_option autoImplicit false

namespace BasicToC

/-! ## Without declarations -/

/-- A name without its declaration. -/
def Rendering.bare (r : Rendering) : Rendering := ⟨false, r.name⟩

/-- A word without the declaration of its name. -/
def Word.bare : Word → Word
  | .name sign r => .name sign r.bare
  | word => word

/-- A simple statement without the declarations in it. -/
def Line.bare : Line → Line
  | .print value => .print (value.map Word.bare)
  | .assign target value => .assign target.bare (value.map Word.bare)
  | .input target => .input target.bare
  | line => line

/-- Statements without the declarations in them. -/
def Code.bare : Code → Code
  | .done => .done
  | .simple line rest => .simple line.bare rest.bare
  | .block keyword condition body rest =>
    .block keyword (condition.map Word.bare) body.bare rest.bare

theorem Rendering.declare_bare (pending : List Value) (r : Rendering) :
    (r.declare pending).1.bare = r.bare := by
  unfold declare
  split <;> rfl

theorem Word.declare_bare (pending : List Value) (words : List Word) :
    (Word.declare pending words).1.map Word.bare = words.map Word.bare := by
  induction words generalizing pending with
  | nil => rfl
  | cons word words ih => cases word <;> simp [declare, bare, ih, Rendering.declare_bare]

theorem Line.declare_bare (pending : List Value) (line : Line) :
    (line.declare pending).1.bare = line.bare := by
  cases line <;> simp [declare, bare, Rendering.declare_bare, Word.declare_bare]

/-- Declarations are all that declaring changes. -/
theorem Code.declare_bare (pending : List Value) (code : Code) :
    (code.declare pending).1.bare = code.bare := by
  induction code generalizing pending with
  | done => rfl
  | simple line rest ih => simp [declare, bare, ih, Line.declare_bare]
  | block keyword condition body rest ihb ihr =>
    simp [declare, bare, ihb, ihr, Word.declare_bare]

theorem Code.bare_append (code more : Code) :
    (code.append more).bare = code.bare.append more.bare := by
  induction code with
  | done => rfl
  | simple line rest ih => simp [append, bare, ih]
  | block keyword condition body rest _ ih => simp [append, bare, ih]

theorem Tree.words_bare (t : Tree) : t.words.map Word.bare = t.words := by
  induction t using Tree.words.induct <;>
    simp_all [words, Word.bare, Rendering.bare]

/-- The C of a tree has no declarations of its own. -/
theorem Tree.code_bare (t : Tree) : t.code.bare = t.code := by
  induction t using Tree.code.induct <;>
    simp_all [code, Code.bare, Line.bare, Rendering.bare, Tree.words_bare, Code.bare_append]

/-! ## From left to right -/

/-- The name that a word is made of. -/
def Word.rendering? : Word → Option Rendering
  | .name _ r => some r
  | _ => none

/-- The names in a simple statement. -/
def Line.renderings : Line → List Rendering
  | .print value => value.filterMap Word.rendering?
  | .assign target value => target :: value.filterMap Word.rendering?
  | .input target => [target]
  | _ => []

/-- The names in statements one after another. A condition comes in front of its body. -/
def Code.renderings : Code → List Rendering
  | .done => []
  | .simple line rest => line.renderings ++ rest.renderings
  | .block _ condition body rest =>
    condition.filterMap Word.rendering? ++ body.renderings ++ rest.renderings

/-- What is written at a place. -/
def Site.rendering (s : Site) : Rendering := ⟨s.declares, s.mention.name⟩

theorem Word.sites_renderings (block : List Nat) (words : List Word) :
    (Word.sites block words).map Site.rendering = words.filterMap Word.rendering? := by
  unfold Word.sites
  rw [List.map_filterMap]
  congr 1
  funext word
  cases word <;> rfl

theorem Line.sites_renderings (block : List Nat) (index : Nat) (line : Line) :
    (line.sites block index).map Site.rendering = line.renderings := by
  cases line with
  | print value => exact Word.sites_renderings block value
  | assign target value => simp [sites, renderings, Word.sites_renderings, Site.rendering, Mention.name]
  | input target => rfl
  | printText text => rfl
  | label name => rfl
  | goto name => rfl

/-- The names in a listing stand at its places. -/
theorem Code.sites_renderings (block : List Nat) (index : Nat) (code : Code) :
    (code.sites block index).map Site.rendering = code.renderings := by
  induction code generalizing block index with
  | done => rfl
  | simple line rest ih => simp [sites, renderings, ih, Line.sites_renderings]
  | block keyword condition body rest ihb ihr =>
    simp [sites, renderings, ihb, ihr, Word.sites_renderings]

/-- **A name is declared exactly where it waits for that and has not been written before.** -/
theorem renderings_declare {t : Tree} (h : Tree.Shaped .chain t) {names : List Value}
    {before after : List Rendering} {r : Rendering}
    (hsplit : (t.code.declare names).1.renderings = before ++ r :: after) :
    r.declares = true ↔ r.name ∈ names ∧ ∀ earlier ∈ before, earlier.name ≠ r.name := by
  have htexts : ∀ s ∈ t.code.sites [] 0, s.mention.name.IsText := fun s hs => by
    have hmem : s.mention ∈ t.mentions.filter Mention.isVariable :=
      h.mentions ▸ List.mem_map_of_mem hs
    exact h.texts _ (List.mem_filter.1 hmem).1
  have hsites := Code.sites_declare names [] 0 t.code
  rw [← Code.sites_renderings [] 0] at hsplit
  obtain ⟨bs, rest, hrest, rfl, hmap⟩ := List.map_eq_append_iff.1 hsplit
  obtain ⟨s, as, rfl, rfl, rfl⟩ := List.map_eq_cons_iff.1 hmap
  have hdeclares := Site.declareAll_declares names htexts bs as s (by rw [hsites, hrest])
  refine hdeclares.trans (and_congr_right fun _ => ?_)
  rw [List.forall_mem_map]
  exact forall₂_congr fun u _ => ne_comm

/-! ## Inside blocks -/

/-- Statements that stand in others, inside some blocks: `part` is what follows from one of them on. -/
inductive Code.Inside : (blocks : Nat) → (part code : Code) → Prop where
  | self (code : Code) : Inside 0 code code
  | later {blocks : Nat} {part rest : Code} (line : Line) : Inside blocks part rest →
      Inside blocks part (.simple line rest)
  | behind {blocks : Nat} {part rest : Code} (keyword : String) (condition : List Word)
      (body : Code) : Inside blocks part rest → Inside blocks part (.block keyword condition body rest)
  | within {blocks : Nat} {part body : Code} (keyword : String) (condition : List Word)
      (rest : Code) : Inside blocks part body →
      Inside (blocks + 1) part (.block keyword condition body rest)

/-- **Every block around a statement moves its lines one step further in**, and they stand together
wherever the statement is. -/
theorem Code.Inside.lines {blocks : Nat} {part code : Code} (h : Inside blocks part code)
    (depth : Int) :
    ∃ before after, code.lines depth = before ++ part.lines (depth + blocks) ++ after := by
  induction h generalizing depth with
  | self code => exact ⟨[], [], by simp⟩
  | later line _ ih =>
    obtain ⟨before, after, hlines⟩ := ih depth
    exact ⟨line.lines depth ++ before, after, by simp [Code.lines, hlines]⟩
  | behind keyword condition body _ ih =>
    obtain ⟨before, after, hlines⟩ := ih depth
    refine ⟨indented depth (keyword ++ "(" ++ Word.joined condition ++ ")\x7b") ::
      body.lines (depth + 1) ++ indented depth "\x7d" :: before, after, ?_⟩
    simp [Code.lines, hlines]
  | @within blocks part body keyword condition rest _ ih =>
    obtain ⟨before, after, hlines⟩ := ih (depth + 1)
    have hdepth : depth + 1 + blocks = depth + (blocks + 1 : Nat) := by omega
    refine ⟨indented depth (keyword ++ "(" ++ Word.joined condition ++ ")\x7b") :: before,
      after ++ indented depth "\x7d" :: rest.lines depth, ?_⟩
    simp [Code.lines, hlines, hdepth]

/-! ## The listing of a tree -/

/-- **Writing a well-formed tree gives the listing of its C**, between the headers and the end of the
program. A statement inside some blocks is moved in by one step more than there are blocks. The C
differs from the bare C of the tree in declarations only: a name is declared exactly if it is among
`names` and is written nowhere further left.

Calls may stand in one another only so deep, a number may have only so many digits, and the names of
which none is written are put in order at the end. -/
theorem program_translates {t : Tree} (h : Tree.Shaped .chain t) (hshort : t.Short)
    (hcalls : t.chainCalls ≤ Write.maxCalls) {names : List Value}
    (hsorted : ∃ sorted, sortedValues? (t.code.declare names).2 = some sorted) :
    ∃ code writer,
      Write.program { tree := t, declared := names } = .ok code.listing writer ∧
      code = (t.code.declare names).1 ∧ code.bare = t.code ∧
      (∀ blocks part, Code.Inside blocks part code →
        ∃ before after, code.lines 1 = before ++ part.lines (1 + blocks) ++ after) ∧
      ∀ before r after, code.renderings = before ++ r :: after →
        (r.declares = true ↔ r.name ∈ names ∧ ∀ earlier ∈ before, earlier.name ≠ r.name) := by
  obtain ⟨writer, hwrite, -⟩ := Write.program_writes h hshort hcalls hsorted
  refine ⟨_, writer, hwrite, rfl, ?_, fun _ _ hinside => hinside.lines 1,
    fun before r after hsplit => renderings_declare h hsplit⟩
  rw [Code.declare_bare, Tree.code_bare]

/-- A tree in which a chain stands in the place of a statement: a number is read and doubled, in a
block as long as it is below ten. -/
def doublingTree : Tree :=
  let operand (t : Tree) : Tree := .term (.unary t .nothing) .nothing .nothing
  let value (t : Tree) : Tree := .expression (operand t) .nothing .nothing
  let n : Tree := .variable (.leaf (.text "n"))
  let ten : Tree := .integer (.leaf (.whole 10))
  let twice : Tree := .expression (operand n) (.symbol .plus) (value n)
  let body : Tree := .sequence (.assign (.leaf (.text "n")) twice)
    (.sequence (.assign (.leaf (.text "m")) (value n)) .done)
  let below : Tree := .comparison (value n) (.symbol .lt) (.comparison (value ten) .nothing .nothing)
  .sequence (.sequence (.input (.leaf (.text "n"))) (.sequence (.loop below body) .done)) .done

/-- The listing of that tree. -/
def doublingListing : String :=
  "#include <stdio.h>\nint main(void)\x7b\n    float n;\n    if(0 == scanf(\"%f\", &n)) \x7b\n" ++
  "        n = 0;\n        scanf(\"%*s\");\n    \x7d\n    while(n < 10)\x7b\n        n = n + n;\n" ++
  "        float m = n;\n    \x7d\n    return 0;\n\x7d\n"

theorem doublingTree_shaped : Tree.Shaped .chain doublingTree := by
  have hoperand {t : Tree} (ht : Tree.IsOperand t) :
      Tree.IsTerm (.term (.unary t .nothing) .nothing .nothing) := .last (.plain ht)
  have hvalue {t : Tree} (ht : Tree.IsOperand t) :
      Tree.IsExpression (.expression (.term (.unary t .nothing) .nothing .nothing) .nothing .nothing) :=
    .last (hoperand ht)
  exact .next (.nested (.next (.input "n") (.next (.loop
    (.link .lt (hvalue (.named "n")) (.last (hvalue (.integer (.whole 10)))))
    (.next (.assign "n" (.link .plus (hoperand (.named "n")) (hvalue (.named "n"))))
      (.next (.assign "m" (hvalue (.named "n"))) .done))) .done))) .done

theorem doublingTree_translates :
    (Tree.Shaped .chain doublingTree ∧ doublingTree.Short ∧
      doublingTree.chainCalls ≤ Write.maxCalls ∧
      ∃ sorted, sortedValues? (doublingTree.code.declare [.text "m", .text "n"]).2 = some sorted) ∧
    ∃ writer, Write.program { tree := doublingTree, declared := [.text "m", .text "n"] } =
      .ok doublingListing writer := by
  have hshort : doublingTree.Short := by decide
  have hcalls : doublingTree.chainCalls ≤ Write.maxCalls := by decide
  have hsorted : ∃ sorted,
      sortedValues? (doublingTree.code.declare [.text "m", .text "n"]).2 = some sorted :=
    ⟨[], by
      rw [show (doublingTree.code.declare [.text "m", .text "n"]).2 = [] by decide]
      simp [sortedValues?]⟩
  obtain ⟨code, writer, hwrite, rfl, -⟩ :=
    program_translates doublingTree_shaped hshort hcalls hsorted
  have hlisting : (doublingTree.code.declare [.text "m", .text "n"]).1.listing = doublingListing := by
    decide +kernel
  exact ⟨⟨doublingTree_shaped, hshort, hcalls, hsorted⟩, writer, hlisting ▸ hwrite⟩

/-! ## Beyond the bounds -/

/-- The value of a whole number. -/
def wholeTree (n : Int) : Tree :=
  .expression (.term (.unary (.integer (.leaf (.whole n))) .nothing) .nothing .nothing) .nothing .nothing

/-- So many loops in one another, the innermost of them around nothing. -/
def towerTree : Nat → Tree
  | 0 => .done
  | loops + 1 =>
    .sequence (.loop (.comparison (wholeTree 1) .nothing .nothing) (towerTree loops)) .done

theorem wholeTree_isExpression (n : Int) : Tree.IsExpression (wholeTree n) :=
  .last (.last (.plain (.integer (.whole n))))

theorem towerTree_shaped (loops : Nat) : Tree.Shaped .chain (towerTree loops) := by
  induction loops with
  | zero => exact .done
  | succ loops ih => exact .next (.loop (.last (wholeTree_isExpression 1)) ih) .done

theorem towerTree_short (loops : Nat) : (towerTree loops).Short := by
  have hcondition : (Tree.comparison (wholeTree 1) .nothing .nothing).Short := by decide
  induction loops with
  | zero => exact trivial
  | succ loops ih => exact ⟨⟨hcondition, ih⟩, trivial⟩

theorem towerTree_calls (loops : Nat) : (towerTree loops).chainCalls = 3 * loops := by
  induction loops with
  | zero => rfl
  | succ loops ih =>
    show max ((towerTree loops).chainCalls + 3) 0 = _
    omega

/-- A number of too many digits stops the writer. -/
theorem long_not_written {n : Int} (h : (Tree.leaf (.whole n)).isLong = true) (names : List Value) :
    ∃ writer, Write.program { tree := .sequence (.print (wholeTree n)) .done, declared := names } =
      .error .tooLong writer := by
  have hoperand (w : Writer) :
      Write.operand (.integer (.leaf (.whole n))) w = .error .tooLong w := by
    show Write.numeral _ _ w = _
    unfold Write.numeral
    rw [if_pos h]
    rfl
  have hfactor (w : Writer) :
      Write.factor (.unary (.integer (.leaf (.whole n))) .nothing) w = .error .tooLong w := by
    unfold Write.factor
    simp only
    rw [bind_eq (Write.operatorText_nothing w), bind_error_eq (hoperand w)]
  have hexpression (w : Writer) : Write.expression (wholeTree n) w = .error .tooLong w :=
    bind_error_eq (bind_error_eq (bind_error_eq (bind_error_eq (hfactor w))))
  have hprint (w : Writer) :
      Write.statement Write.maxCalls (.print (wholeTree n)) w = .error .tooLong w := by
    rw [Write.statement]
    exact bind_error_eq (f := Write.expression (wholeTree n)) (hexpression w)
  refine ⟨Write.opened (.sequence (.print (wholeTree n)) .done) names, ?_⟩
  rw [Write.program_eq]
  refine bind_error_eq ?_
  unfold Write.statements
  rw [Write.each_chain (.next (.print (wholeTree_isExpression n)) .done)]
  exact bind_error_eq (hprint _)

/-- Loops that are nested too deep, numbers of too many digits, and names that cannot be put in order
are not written. -/
theorem program_not_translated :
    (Tree.Shaped .chain (towerTree 1000) ∧
      ∃ writer, Write.program { tree := towerTree 1000, declared := [] } = .error .tooDeep writer) ∧
    (Tree.Shaped .chain (.sequence (.print (wholeTree (10 ^ Lexeme.maxDigits : Nat))) .done) ∧
      ∃ writer, Write.program
        { tree := .sequence (.print (wholeTree (10 ^ Lexeme.maxDigits : Nat))) .done, declared := [] } =
        .error .tooLong writer) ∧
    (Tree.Shaped .chain .done ∧
      ∃ writer, Write.program { tree := .done, declared := [.text "a", .whole 1] } =
        .error .unordered writer) := by
  refine ⟨⟨towerTree_shaped 1000, ?_⟩, ⟨.next (.print (wholeTree_isExpression _)) .done, ?_⟩, .done, ?_⟩
  · refine Write.program_too_deep (towerTree_shaped 1000) (towerTree_short 1000) ?_ []
    rw [towerTree_calls]
    decide
  · refine long_not_written (decide_eq_true (Nat.lt_of_not_le fun hle => ?_)) []
    rw [decimalDigits, Nat.length_toDigits_le_iff (by decide) (by decide), Int.natAbs_natCast] at hle
    exact Nat.lt_irrefl _ hle
  · exact ⟨_, rfl⟩

end BasicToC
