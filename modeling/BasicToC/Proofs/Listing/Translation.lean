import BasicToC.Proofs.Grammar.Shape
import BasicToC.Proofs.Listing.Bounds
import BasicToC.Proofs.Listing.Code
import BasicToC.Proofs.Sequence

/-!
# What is written

Writing a well-formed tree within the bounds ends well and writes the C of the tree, in which every
name that waits for its declaration gets it where it first comes.

* `Writer.after`: a writer that has written some C.
* `factor_writes`, `pieces_write`, `expression_writes`, `comparison_writes`: what is computed.
* `asAssignment_writes`, `reading_writes`, `block_writes`: one statement.
* `shaped_written`: well-formed statements and chains, as far as there is room for their bodies.
* `program_writes`, `program_too_deep`: a whole program.
-/

set_option autoImplicit false

namespace BasicToC

open BasicToC.Tree (IsOperand IsFactor IsChain IsTerm IsExpression IsComparison Shaped)

/-- A writer behind some words. -/
def Writer.past (w : Writer) (words : List Word) : Writer :=
  { w with pending := (Word.declare w.pending words).2 }

/-- A writer that has written some statements. -/
def Writer.after (w : Writer) (code : Code) : Writer :=
  { w with
    code := w.code ++ ((code.declare w.pending).1.lines w.depth).toArray
    pending := (code.declare w.pending).2 }

theorem Writer.after_done (w : Writer) : w.after .done = w := by
  simp [after, Code.declare, Code.lines]

theorem Writer.after_append (w : Writer) (code more : Code) :
    w.after (code.append more) = (w.after code).after more := by
  simp [after, Code.declare_append, Code.lines_append]

namespace Write

/-! ## What is computed -/

/-- What a step writes for a tree: its words, the names among them declared as they have to be. -/
def Writes (f : Tree → Write String) (t : Tree) : Prop :=
  t.words ≠ [] ∧ ∀ w : Writer,
    f t w = .ok (Word.joined (Word.declare w.pending t.words).1) (w.past t.words)

/-- What is written for a name, with its declaration if it waits for that. -/
theorem name_writes (s : String) (w : Writer) :
    Write.name (.leaf (.text s)) w =
      .ok (.leaf (.text (Rendering.declare w.pending ⟨false, .text s⟩).1.text))
        { w with pending := (Rendering.declare w.pending ⟨false, .text s⟩).2 } := by
  unfold Write.name
  simp only
  rw [bind_eq (get_eq w)]
  unfold Rendering.declare
  by_cases h : (Value.text s).isIn w.pending = true
  · simp only [h, if_true]
    rfl
  · simp only [h]
    rfl

theorem operatorText_nothing (w : Writer) : operatorText .nothing w = .ok none w := rfl

theorem operatorText_symbol (kind : Token.Kind) (w : Writer) :
    operatorText (.symbol kind) w = .ok (some kind.spelling) w := rfl

theorem numeral_writes {value : Tree} (h : value.isLong = false) (text : String) (w : Writer) :
    numeral value text w = .ok (.leaf (.text text)) w := by
  unfold numeral
  rw [h]
  rfl

theorem operand_writes {t : Tree} (h : IsOperand t) (hs : t.Short) (operator : Tree) :
    (Tree.unary t operator).words ≠ [] ∧ ∀ w : Writer, ∃ text,
      operand t w = .ok (.leaf (.text text)) (w.past (Tree.unary t operator).words) ∧
      Word.joined (Word.declare w.pending (Tree.unary t operator).words).1 = operator.sign ++ text := by
  cases h with
  | integer v =>
    refine ⟨by simp [Tree.words], fun w => ⟨v.shown, numeral_writes hs.1 _ w, ?_⟩⟩
    simp [Tree.words, Word.declare, Word.joined, Word.text, Tree.shown]
  | float v =>
    refine ⟨by simp [Tree.words], fun w => ⟨v.record, numeral_writes hs.1 _ w, ?_⟩⟩
    simp [Tree.words, Word.declare, Word.joined, Word.text, Tree.record]
  | named s =>
    refine ⟨by simp [Tree.words], fun w => ⟨_, name_writes s w, ?_⟩⟩
    simp [Tree.words, Word.declare, Word.joined, Word.text]

theorem factor_writes {t : Tree} (h : IsFactor t) (hs : t.Short) : Writes factor t := by
  cases h with
  | @plain t h =>
    obtain ⟨hne, hwrite⟩ := operand_writes h hs.1 .nothing
    refine ⟨hne, fun w => ?_⟩
    obtain ⟨text, hop, htext⟩ := hwrite w
    rw [htext]
    unfold factor
    simp only
    rw [bind_eq (operatorText_nothing w), bind_eq hop]
    simp [Tree.sign]
    rfl
  | @signed t sign h =>
    obtain ⟨hne, hwrite⟩ := operand_writes h hs.1 (.symbol sign)
    refine ⟨hne, fun w => ?_⟩
    obtain ⟨text, hop, htext⟩ := hwrite w
    rw [htext]
    unfold factor
    simp only
    rw [bind_eq (operatorText_symbol sign w), bind_eq hop]
    rfl

theorem past_append (w : Writer) (words more : List Word) :
    w.past (words ++ more) = (w.past words).past more := by
  simp [Writer.past, Word.declare_append]

theorem joined_link {words more : List Word} (h : words ≠ []) (hm : more ≠ []) (kind : Token.Kind) :
    Word.joined (words ++ .operator kind :: more) =
      Word.joined words ++ " " ++ kind.spelling ++ " " ++ Word.joined more := by
  unfold Word.joined
  rw [List.map_append, String.intercalate_append_of_ne_nil (by simpa using h) (by simp),
    List.map_cons, String.intercalate_cons_of_ne_nil (by simpa using hm)]
  simp [Word.text, String.append_assoc]

section Chains

variable {node : Tree → Tree → Tree → Tree} {operand : Tree → Prop} {item : Tree → Write String}
variable {t : Tree}

/-- The pieces of a chain are its operands and operators in the order in which they stand. -/
theorem pieces_write (pieces : Tree → Write (List String))
    (hfields : ∀ u operator v, (node u operator v).fields = [u, operator, v])
    (hitem : ∀ u, operand u → u.Short → Writes item u)
    (hlast : ∀ u, (node u .nothing .nothing).words = u.words)
    (hlink : ∀ u kind v, (node u (.symbol kind) v).words = u.words ++ .operator kind :: v.words)
    (hpieces : ∀ u operator v, pieces (node u operator v) = do
      let text ← item u
      match ← operatorText operator with
      | none => pure [text]
      | some sign => pure (text :: sign :: (← pieces v)))
    (h : IsChain node operand t) (hs : t.Short) :
    t.words ≠ [] ∧ ∀ w : Writer, ∃ texts, pieces t w = .ok texts (w.past t.words) ∧ texts ≠ [] ∧
      String.intercalate " " texts = Word.joined (Word.declare w.pending t.words).1 := by
  induction h with
  | @last u h =>
    obtain ⟨hne, hwrite⟩ := hitem u h (hs.field (by simp [hfields]))
    rw [hlast]
    refine ⟨hne, fun w => ⟨_, ?_, List.cons_ne_nil _ [], String.intercalate_singleton⟩⟩
    rw [hpieces, bind_eq (hwrite w), bind_eq (operatorText_nothing _)]
    rfl
  | @link u v kind h _ ih =>
    obtain ⟨hne, hwrite⟩ := hitem u h (hs.field (by simp [hfields]))
    obtain ⟨hne', ih⟩ := ih (hs.field (by simp [hfields]))
    rw [hlink]
    refine ⟨by simp, fun w => ?_⟩
    obtain ⟨texts, hrest, htexts, hjoined⟩ := ih (w.past u.words)
    have hread : pieces (node u (.symbol kind) v) w =
        .ok (Word.joined (Word.declare w.pending u.words).1 :: kind.spelling :: texts)
          (w.past (u.words ++ .operator kind :: v.words)) := by
      rw [past_append, hpieces, bind_eq (hwrite w), bind_eq (operatorText_symbol kind _)]
      simp only
      rw [bind_eq hrest]
      rfl
    refine ⟨_, hread, List.cons_ne_nil _ _, ?_⟩
    rw [Word.declare_append, String.intercalate_cons_of_ne_nil (by simp),
      String.intercalate_cons_of_ne_nil htexts, hjoined]
    show _ = Word.joined ((Word.declare w.pending u.words).1 ++
      .operator kind :: (Word.declare (Word.declare w.pending u.words).2 v.words).1)
    rw [joined_link (Word.declare_ne_nil hne) (Word.declare_ne_nil hne')]
    simp [String.append_assoc, Writer.past]

/-- A chain is written as its pieces with blanks between them. -/
theorem chain_writes (pieces : Tree → Write (List String)) {write : Tree → Write String}
    (hfields : ∀ u operator v, (node u operator v).fields = [u, operator, v])
    (hitem : ∀ u, operand u → u.Short → Writes item u)
    (hlast : ∀ u, (node u .nothing .nothing).words = u.words)
    (hlink : ∀ u kind v, (node u (.symbol kind) v).words = u.words ++ .operator kind :: v.words)
    (hpieces : ∀ u operator v, pieces (node u operator v) = do
      let text ← item u
      match ← operatorText operator with
      | none => pure [text]
      | some sign => pure (text :: sign :: (← pieces v)))
    (hwrite : ∀ u, write u = do pure (String.intercalate " " (← pieces u)))
    (h : IsChain node operand t) (hs : t.Short) : Writes write t := by
  obtain ⟨hne, hpieces⟩ := pieces_write pieces hfields hitem hlast hlink hpieces h hs
  refine ⟨hne, fun w => ?_⟩
  obtain ⟨texts, hread, -, hjoined⟩ := hpieces w
  rw [hwrite, bind_eq hread, hjoined]
  rfl

end Chains

theorem term_writes {t : Tree} (h : IsTerm t) (hs : t.Short) : Writes term t :=
  chain_writes termPieces (fun _ _ _ => rfl) (fun _ => factor_writes) (fun _ => rfl)
    (fun _ _ _ => rfl) (fun _ _ _ => rfl) (fun _ => rfl) h hs

theorem expression_writes {t : Tree} (h : IsExpression t) (hs : t.Short) : Writes expression t :=
  chain_writes expressionPieces (fun _ _ _ => rfl) (fun _ => term_writes) (fun _ => rfl)
    (fun _ _ _ => rfl) (fun _ _ _ => rfl) (fun _ => rfl) h hs

theorem comparison_writes {t : Tree} (h : IsComparison t) (hs : t.Short) : Writes comparison t :=
  chain_writes comparisonPieces (fun _ _ _ => rfl) (fun _ => expression_writes) (fun _ => rfl)
    (fun _ _ _ => rfl) (fun _ _ _ => rfl) (fun _ => rfl) h hs

/-! ## What is done -/

theorem line_eq (text : String) (w : Writer) :
    line text w = .ok () { w with code := w.code.push (indented w.depth text) } := rfl

theorem shift_eq (steps : Int) (w : Writer) :
    shift steps w = .ok () { w with depth := w.depth + steps } := rfl

theorem printLine_writes {e : Tree} (h : IsExpression e) (hs : e.Short) (w : Writer) :
    printLine e w = .ok () (w.after (Tree.print e).code) := by
  unfold printLine
  rw [bind_eq ((expression_writes h hs).2 w), line_eq]
  simp [Writer.after, Writer.past, Tree.code, Code.declare, Line.declare, Code.lines, Line.lines]

theorem asAssignment_writes (s : String) {e : Tree} (h : IsExpression e) (hs : e.Short) (w : Writer) :
    asAssignment (.assign (.leaf (.text s)) e) w =
      .ok () (w.after (Tree.assign (.leaf (.text s)) e).code) := by
  unfold asAssignment assignTo nameOf expressionOf
  simp only [pure_bind]
  rw [bind_eq (name_writes s w), bind_eq ((expression_writes h hs).2 _), line_eq]
  simp [Writer.after, Writer.past, Tree.code, Code.declare, Line.declare, Code.lines, Line.lines,
    Tree.shown, Value.shown]

/-- A declaration is longer than the bare name. -/
theorem declared_ne (s : String) : ("float " ++ s == s) = false := by
  have hlen : ("float " ++ s).length ≠ s.length := by
    rw [String.length_append]
    have : "float ".length = 6 := by decide
    omega
  simp only [beq_eq_false_iff_ne, ne_eq]
  exact fun h => hlen (congrArg String.length h)

/-- The lines that read a number, behind the declaration if there is one. -/
theorem test_writes (s : String) (w : Writer) :
    (do
      line ("if(0 == scanf(\"%f\", &" ++ (Tree.leaf (.text s)).shown ++ ")) \x7b")
      shift 1
      line ((Tree.leaf (.text s)).shown ++ " = 0;")
      line "scanf(\"%*s\");"
      shift (-1)
      line "\x7d" : Write Unit) w =
    .ok () { w with
      code := w.code ++ (Line.lines w.depth (.input ⟨false, .text s⟩)).toArray } := by
  have hdepth : w.depth + 1 + -1 = w.depth := by omega
  rw [bind_eq (line_eq _ w), bind_eq (shift_eq 1 _), bind_eq (line_eq _ _), bind_eq (line_eq _ _),
    bind_eq (shift_eq (-1) _), line_eq]
  simp [hdepth, Line.lines, Tree.shown, Value.shown, ← Array.toList_inj]

theorem reading_writes (s : String) (w : Writer) :
    reading (.leaf (.text s)) w = .ok () (w.after (Tree.input (.leaf (.text s))).code) := by
  unfold reading
  rw [bind_eq (name_writes s w)]
  by_cases h : (Value.text s).isIn w.pending = true
  · have hsame : (Tree.leaf (.text ("float " ++ s))).same (.leaf (.text s)) = false := declared_ne s
    simp only [Rendering.declare, h, if_true, Rendering.text, Value.shown, hsame, Bool.not_false]
    rw [bind_eq (line_eq _ _), test_writes]
    simp [Writer.after, Tree.code, Code.declare, Line.declare, Rendering.declare, h, Code.lines,
      Line.lines, Rendering.text, Tree.shown, Value.shown]
  · have hsame : (Tree.leaf (.text s)).same (.leaf (.text s)) = true := beq_self_eq_true s
    simp only [Rendering.declare, h, Rendering.text, Value.shown, hsame, Bool.not_true,
      Bool.false_eq_true, if_false]
    rw [test_writes]
    simp [Writer.after, Tree.code, Code.declare, Line.declare, Rendering.declare, h, Code.lines]

/-- A step that writes the body of a block. -/
theorem block_writes (keyword : String) {c b : Tree} (hc : IsComparison c) (hs : c.Short)
    {body : Write Unit} (hbody : ∀ w : Writer, body w = .ok () (w.after b.code)) (w : Writer) :
    block keyword c body w = .ok () (w.after (.block keyword c.words b.code .done)) := by
  have hdepth : w.depth + 1 + -1 = w.depth := by omega
  unfold block
  rw [bind_eq ((comparison_writes hc hs).2 w), bind_eq (line_eq _ _), bind_eq (shift_eq 1 _),
    bind_eq (hbody _), bind_eq (shift_eq (-1) _), line_eq]
  simp [Writer.after, Writer.past, Code.declare, Code.lines, hdepth]

/-- A step that fails in the body of a block fails there. -/
theorem block_fails (keyword : String) {c : Tree} (hc : IsComparison c) (hs : c.Short)
    {body : Write Unit} {fault : Writer.Fault} (hbody : ∀ w, ∃ w', body w = .error fault w')
    (w : Writer) : ∃ w', block keyword c body w = .error fault w' := by
  unfold block
  rw [bind_eq ((comparison_writes hc hs).2 w), bind_eq (line_eq _ _), bind_eq (shift_eq 1 _)]
  obtain ⟨w', hfails⟩ := hbody { (w.past c.words) with
    code := (w.past c.words).code.push (indented (w.past c.words).depth
      (keyword ++ "(" ++ Word.joined (Word.declare w.pending c.words).1 ++ ")\x7b"))
    depth := (w.past c.words).depth + 1 }
  exact ⟨w', bind_error_eq hfails⟩

/-- A step writes some C as long as there is room for so many calls, and has no room for its bodies
otherwise. -/
def WritesWithin (calls : Nat) (step : (room : Nat) → Write Unit) (code : Code) : Prop :=
  ∀ room w, (calls ≤ room → step room w = .ok () (w.after code)) ∧
    (room < calls → ∃ w', step room w = .error .tooDeep w')

/-- Writing a tree of a given form writes its C, within the calls that it takes. -/
def Written : Tree.Form → Tree → Prop
  | .statement, t => WritesWithin t.statementCalls (statement · t) t.code
  | .chain, t => WritesWithin t.chainCalls (fun room => t.elements.forM (statement room)) t.code

/-- The statements of a chain are written one after another. -/
theorem each_chain {t : Tree} (h : Shaped .chain t) (f : Tree → Write Unit) :
    each f t = t.elements.forM f := by
  cases h <;> rfl

/-- What a step writes that needs no room of its own. -/
theorem WritesWithin.simple {step : (room : Nat) → Write Unit} {code : Code}
    (h : ∀ room w, step room w = .ok () (w.after code)) : WritesWithin 0 step code :=
  fun room w => ⟨fun _ => h room w, fun hroom => absurd hroom (Nat.not_lt_zero room)⟩

/-- A block is written three calls around its body. -/
theorem WritesWithin.block {keyword : String} {c b : Tree} {step : (room : Nat) → Write Unit}
    (hc : IsComparison c) (hs : c.Short) (hchain : Shaped .chain b) (hbody : Written .chain b)
    (hdeep : ∀ room < 3, step room = throw .tooDeep)
    (hstep : ∀ room, step (room + 3) = Write.block keyword c (each (statement room) b)) :
    WritesWithin (b.chainCalls + 3) step (.block keyword c.words b.code .done) := by
  intro room w
  by_cases hroom : room < 3
  · refine ⟨fun hle => absurd hroom (by omega), fun _ => ⟨w, ?_⟩⟩
    rw [hdeep room hroom]
    rfl
  · obtain ⟨room, rfl⟩ := Nat.exists_eq_add_of_le' (Nat.le_of_not_lt hroom)
    rw [hstep, each_chain hchain]
    exact ⟨fun hle => block_writes keyword hc hs (fun w => (hbody room w).1 (by omega)) w,
      fun hlt => block_fails keyword hc hs (fun w => (hbody room w).2 (by omega)) w⟩

/-- A chain in the place of a statement is written one call further in. -/
theorem WritesWithin.inner {calls : Nat} {step outer : (room : Nat) → Write Unit} {code : Code}
    (h : WritesWithin calls step code) (hdeep : outer 0 = throw .tooDeep)
    (hstep : ∀ room, outer (room + 1) = step room) : WritesWithin (calls + 1) outer code := by
  intro room w
  cases room with
  | zero =>
    rw [hdeep]
    exact ⟨fun hle => absurd hle (Nat.not_succ_le_zero calls), fun _ => ⟨w, rfl⟩⟩
  | succ room =>
    rw [hstep]
    exact ⟨fun hle => (h room w).1 (by omega), fun hlt => (h room w).2 (by omega)⟩

/-- Steps one after another need the room of the one that needs most. -/
theorem WritesWithin.followed {calls calls' : Nat} {step next : (room : Nat) → Write Unit}
    {code more : Code} (h : WritesWithin calls step code) (h' : WritesWithin calls' next more) :
    WritesWithin (max calls calls') (fun room => do step room; next room) (code.append more) := by
  intro room w
  rw [Writer.after_append]
  beta_reduce
  refine ⟨fun hle => ?_, fun hlt => ?_⟩
  · rw [bind_eq ((h room w).1 (by omega))]
    exact (h' room _).1 (by omega)
  · by_cases hroom : room < calls
    · obtain ⟨w', hfails⟩ := (h room w).2 hroom
      exact ⟨w', bind_error_eq hfails⟩
    · rw [bind_eq ((h room w).1 (by omega))]
      exact (h' room _).2 (by omega)

/-- **Well-formed statements and chains are written as far as there is room**, and what is written is
their C. The induction follows the shape of the tree. -/
theorem shaped_written {form : Tree.Form} {t : Tree} (h : Shaped form t) (hs : t.Short) :
    Written form t := by
  induction h with
  | print he =>
    refine .simple fun room w => ?_
    rw [statement]
    exact printLine_writes he hs w
  | assign s he =>
    refine .simple fun room w => ?_
    rw [statement]
    exact asAssignment_writes s he hs.2 w
  | input s =>
    refine .simple fun room w => ?_
    rw [statement]
    exact reading_writes s w
  | printText s | label s | goto s =>
    refine .simple fun room w => ?_
    rw [statement]
    show line _ w = _
    rw [line_eq]
    simp [Writer.after, Tree.code, Code.declare, Line.declare, Code.lines, Line.lines]
  | when hc hb ih | loop hc hb ih =>
    refine .block hc hs.1 hb (ih hs.2) (fun room hroom => ?_) fun room => by rw [statement]; rfl
    have hnone : room = 0 ∨ room = 1 ∨ room = 2 := by omega
    rcases hnone with rfl | rfl | rfl <;> rfl
  | nested hchain ih =>
    exact .inner (ih hs) (by rw [statement]) fun room => by rw [statement, each_chain hchain]
  | done => exact .simple fun room w => congrArg (EStateM.Result.ok ()) w.after_done.symm
  | next _ _ ihf ihr => exact .followed (ihf hs.1) (ihr hs.2)

/-! ## Whole programs -/

/-- A writer at the first line of a program, behind the headers. -/
def opened (t : Tree) (declared : List Value) : Writer where
  tree := t
  declared := declared
  pending := declared
  headers := #["#include <stdio.h>", "int main(void)\x7b"]
  depth := 1

/-- What is written behind the statements of a program. -/
def close : Write String := do
  line "return 0;"
  modify fun writer => { writer with depth := 0 }
  line "\x7d"
  let writer ← get
  if !writer.pending.isEmpty then
    match sortedValues? writer.pending with
    | none => throw .unordered
    | some names => set { writer with notes := .neverDeclared names :: writer.notes }
  pure (listing writer)

theorem program_eq (t : Tree) (declared : List Value) :
    Write.program { tree := t, declared := declared } =
      (do statements t; close : Write String) (opened t declared) := rfl

theorem close_writes (w : Writer) (hd : w.depth = 1) (hsorted : ∃ ws, sortedValues? w.pending = some ws) :
    ∃ w', close w = .ok (String.intercalate "\n" ((w.headers ++ w.code).toList ++
      [indented 1 "return 0;", "\x7d"]) ++ "\n") w' ∧ w'.pending = w.pending := by
  have hlast : indented 0 "\x7d" = "\x7d" := by decide
  obtain ⟨ws, hws⟩ := hsorted
  unfold close
  rw [bind_eq (line_eq _ w), bind_eq (modify_eq _ _), bind_eq (line_eq _ _), bind_eq (get_eq _)]
  have hlisting : ∀ notes, listing { w with
      code := (w.code.push (indented w.depth "return 0;")).push (indented 0 "\x7d"), depth := 0,
      notes := notes } = String.intercalate "\n" ((w.headers ++ w.code).toList ++
        [indented 1 "return 0;", "\x7d"]) ++ "\n" := by
    intro notes
    rw [hlast, hd]
    simp [listing]
  by_cases hp : w.pending.isEmpty = true
  · simp only [hp, Bool.not_true, Bool.false_eq_true, if_false]
    rw [← hlisting w.notes]
    exact ⟨_, rfl, rfl⟩
  · simp only [hp, Bool.not_false, if_true, hws]
    rw [← hlisting w.notes]
    exact ⟨_, rfl, rfl⟩

/-- **The listing of a well-formed tree is the C of the tree** with its declarations, if there is room
for its bodies and its numbers, and what waits at the end is what waits behind that. -/
theorem program_writes {t : Tree} (h : Shaped .chain t) (hs : t.Short)
    (hcalls : t.chainCalls ≤ maxCalls) {declared : List Value}
    (hsorted : ∃ ws, sortedValues? (t.code.declare declared).2 = some ws) :
    ∃ w, Write.program { tree := t, declared := declared } =
      .ok (Code.listing (t.code.declare declared).1) w ∧
      w.pending = (t.code.declare declared).2 := by
  have hstatements : statements t (opened t declared) = .ok () ((opened t declared).after t.code) := by
    unfold statements
    rw [each_chain h]
    exact (shaped_written h hs maxCalls _).1 hcalls
  rw [program_eq, bind_eq hstatements]
  obtain ⟨w, hclose, hpending⟩ := close_writes ((opened t declared).after t.code) rfl hsorted
  refine ⟨w, hclose.trans ?_, hpending⟩
  simp [Code.listing, opened, Writer.after]

/-- Where bodies are nested deeper than there is room, nothing is written. -/
theorem program_too_deep {t : Tree} (h : Shaped .chain t) (hs : t.Short)
    (hcalls : maxCalls < t.chainCalls) (declared : List Value) :
    ∃ w, Write.program { tree := t, declared := declared } = .error .tooDeep w := by
  obtain ⟨w, hfails⟩ := (shaped_written h hs maxCalls (opened t declared)).2 hcalls
  refine ⟨w, ?_⟩
  rw [program_eq]
  refine bind_error_eq ?_
  unfold statements
  rw [each_chain h]
  exact hfails

end Write

end BasicToC
