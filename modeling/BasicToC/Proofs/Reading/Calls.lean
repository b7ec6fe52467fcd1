import BasicToC.Message.Template
import BasicToC.Proofs.Reading.Tables

/-!
# Any calls in any order

The steps of reading may be called one by one, in any order and from wherever the last one has left the
reader, also when that one has failed.

* `Call`, `Call.run`: the steps that may be called.
* `Reader.afterCall`, `Reader.afterCalls`: what calls leave of a reader.
* `Call.course`: a call passes tokens up to the first mark for the end at most.
* `calls_stay`: where the reader stands behind any calls, and how a further call ends.
-/

set_option autoImplicit false

namespace BasicToC

namespace Read

/-- A step of reading that may be called. Statements are given how deep blocks may still be nested. -/
inductive Call where
  | peek
  | advance
  | skipLineEnds
  | expect (kind : Token.Kind) (after : String)
  | identifier (after : String)
  | lineEnd (after : String)
  | operand
  | factor
  | term
  | expression
  | comparison
  | printRest
  | whenRest (depth : Nat)
  | loopRest (depth : Nat)
  | labelRest
  | gotoRest
  | assignRest
  | inputRest
  | statement (depth : Nat)
  | block (depth : Nat) (opener closer : Token.Kind)
  | program
  deriving DecidableEq, Repr

/-- Makes a call, whose result is not looked at. -/
def Call.run : Call → Read Unit
  | .peek => do let _ ← Read.peek
  | .advance => do let _ ← Read.advance
  | .skipLineEnds => Read.skipLineEnds
  | .expect kind after => do let _ ← Read.expect kind after
  | .identifier after => do let _ ← Read.identifier after
  | .lineEnd after => Read.lineEnd after
  | .operand => do let _ ← Read.operand
  | .factor => do let _ ← Read.factor
  | .term => do let _ ← Read.term
  | .expression => do let _ ← Read.expression
  | .comparison => do let _ ← Read.comparison
  | .printRest => do let _ ← Read.printRest
  | .whenRest depth => do let _ ← Read.whenRest (Read.statement depth)
  | .loopRest depth => do let _ ← Read.loopRest (Read.statement depth)
  | .labelRest => do let _ ← Read.labelRest
  | .gotoRest => do let _ ← Read.gotoRest
  | .assignRest => do let _ ← Read.assignRest
  | .inputRest => do let _ ← Read.inputRest
  | .statement depth => do let _ ← Read.statement depth
  | .block depth opener closer => do let _ ← blockOf (Read.statement depth) opener closer
  | .program => do let _ ← Read.program

end Read

/-- What a call leaves of a reader, whether it ends well or not. -/
def Reader.afterCall (r : Reader) (call : Read.Call) : Reader :=
  match call.run r with
  | .ok _ r' | .error _ r' => r'

/-- What some calls leave of a reader. -/
def Reader.afterCalls (r : Reader) (calls : List Read.Call) : Reader := calls.foldl afterCall r

namespace Read

open Reader (Passed Ready closed closed_ends)

variable {α : Type} {f : Read α} {r r' : Reader} {base base' : Names} {passed passed' : List Token}

/-! ## One call -/

/-- When names are not kept track of, it does not matter which there were. -/
theorem Course.loose (h : Course False base passed f r) : Course False base' passed' f r where
  ok hf := (h.ok hf).imp fun _ hp => ⟨hp.1, False.elim⟩
  error hf := ⟨(h.error hf).1, (h.error hf).2.imp fun _ hp => ⟨hp.1, False.elim⟩⟩

/-- A token of some kind is called for, be it the mark for the end. -/
theorem called_course {kind : Token.Kind} {complaint : Token → Complaint} (hr : r.Ready)
    (hname : ∀ token, (complaint token).isNameless = false) :
    Course False {} [] (do
      let token ← advance
      if token.kind != kind then refuse (complaint token) token else pure ()) r := by
  have hend (token : Token) (s : Reader) (passed : List Token) : Course False {} passed
      (if token.kind != kind then refuse (complaint token) token else pure () : Read Unit) s := by
    split
    · exact Course.refuse False.elim fun h => by rw [hname] at h; cases h
    · exact Course.pure False.elim
  exact advance_course hr (fun token _ _ _ => hend token _ _) fun token _ _ _ _ => hend token _ _

/-- **A call passes tokens up to the first mark for the end at most**, wherever the reader stands. -/
theorem Call.course {call : Call} (hcall : call ≠ .program) (hr : r.Ready) :
    Course False {} [] call.run r := by
  have hdone {s : Reader} {passed : List Token} : Course False {} passed (pure ()) s :=
    Course.pure False.elim
  have hword (kind : Token.Kind) : ({ kind := kind } : Token).kind = kind := rfl
  cases call with
  | program => exact absurd rfl hcall
  | peek => exact peek_course hr fun _ _ _ => hdone
  | advance => exact advance_course hr (fun _ _ _ _ => hdone) fun _ _ _ _ _ => hdone
  | skipLineEnds => exact (skipLineEnds_steady hr).loose
  | expect kind after =>
    rw [Call.run, expect_bind]
    exact called_course hr fun _ => rfl
  | identifier after => exact identifier_course hr False.elim fun _ _ _ _ _ => hdone
  | lineEnd after => exact called_course hr fun _ => rfl
  | operand => exact (operand_steady hr).loose.map
  | factor => exact (factor_steady hr).loose.map
  | term => exact (term_steady hr).loose.map
  | expression => exact (expression_steady hr).loose.map
  | comparison => exact (comparison_steady hr).loose.map
  | printRest => exact (printRest_steady (hword .print) hr).loose.map
  | whenRest depth =>
    exact (blockRest_steady .when (statement_ok depth) (statement_steady depth) (hword .when) .when
      "IF" hr).loose.map
  | loopRest depth =>
    exact (blockRest_steady .loop (statement_ok depth) (statement_steady depth) (hword .loop) .loop
      "WHILE" hr).loose.map
  | labelRest => exact (labelRest_steady (hword .label) hr).loose.map
  | gotoRest => exact (gotoRest_steady (hword .goto) hr).loose.map
  | assignRest => exact (assignRest_steady (hword .assign) hr).loose.map
  | inputRest => exact (inputRest_steady (hword .input) hr).loose.map
  | statement depth => exact (statement_steady depth hr).loose.map
  | block depth opener closer =>
    exact (blockOf_steady (statement_ok depth) (statement_steady depth) False.elim hr).loose.map

/-! ## Calls one after another -/

variable {tokens : List Token}

theorem ofTokens_ready {passed : List Token} (hp : (Reader.ofTokens tokens).Passed passed r) :
    r.Ready := by
  obtain ⟨front, stop, hclosed, hk⟩ := closed_ends tokens
  refine hp.ready ⟨List.Subset.refl _, stop, ?_, hk⟩
  show stop ∈ closed tokens
  rw [hclosed]
  exact List.mem_append_right _ (List.mem_singleton_self _)

/-- What a call leaves of a reader, and which faults it may end with. -/
theorem Course.left {kept : Prop} {call : Call} (h : Course kept base passed call.run r) :
    (∃ ts, r.Passed ts (r.afterCall call)) ∧
      ∀ fault r', call.run r = .error fault r' → fault.Fair r.tokens := by
  unfold Reader.afterCall
  cases hrun : call.run r with
  | ok u r' =>
    obtain ⟨ts, hp, -⟩ := h.ok hrun
    exact ⟨⟨ts, hp⟩, fun _ _ he => by cases he⟩
  | error fault r' =>
    obtain ⟨hfair, ts, hp, -⟩ := h.error hrun
    exact ⟨⟨ts, hp⟩, fun _ _ he => by cases he; exact hfair⟩

/-- One call: the reader goes on from where it stood, or a program is read anew. -/
theorem Call.step (call : Call) (hp : (Reader.ofTokens tokens).Passed passed r) :
    (∃ ts, (Reader.ofTokens tokens).Passed ts (r.afterCall call)) ∧
      (∀ fault r', call.run r = .error fault r' → fault.Fair (closed tokens)) ∧
      (call ≠ .program → r.position ≤ (r.afterCall call).position) := by
  have hr := ofTokens_ready hp
  have htokens : r.tokens = closed tokens := hp.tokens
  by_cases hcall : call = .program
  · subst hcall
    have hends : ∃ stop ∈ r.tokens, stop.kind = .eof := by
      obtain ⟨stop, hm, hk⟩ := hr.ends
      exact ⟨stop, hr.among hm, hk⟩
    have hstart : (Reader.ofTokens tokens).Passed [] (start r) :=
      ⟨htokens, rfl, by rw [start_ahead, htokens]; rfl, by simp⟩
    have hcourse : Course True {} [] (Call.run .program) (start r) := (program_course hends).map
    obtain ⟨⟨ts, hp'⟩, hfair⟩ := hcourse.left
    exact ⟨⟨ts, hstart.trans hp'⟩, htokens ▸ hfair, fun hne => absurd rfl hne⟩
  · obtain ⟨⟨ts, hp'⟩, hfair⟩ := (Call.course hcall hr).left
    refine ⟨⟨passed ++ ts, hp.trans hp'⟩, htokens ▸ hfair, fun _ => ?_⟩
    rw [hp'.position]
    omega

/-- Behind any calls the reader stands where it has passed some tokens from the first one on. -/
theorem afterCalls_passed (calls : List Call) (tokens : List Token) :
    ∃ passed, (Reader.ofTokens tokens).Passed passed ((Reader.ofTokens tokens).afterCalls calls) := by
  induction calls using List.reverseRecOn with
  | nil => exact ⟨[], .refl⟩
  | append_singleton calls call ih =>
    obtain ⟨passed, hp⟩ := ih
    obtain ⟨ts, hp'⟩ := (Call.step call hp).1
    rw [Reader.afterCalls, List.foldl_append]
    exact ⟨ts, hp'⟩

/-- **Reading never runs off the tokens**, whatever they are and whatever is called in whichever order,
also behind calls that have failed. The last token is a mark for the end; the reader's place is in
front of the first such mark or at it, and only reading a program anew moves it back. A further call
ends, and the tokens do not run out in it; it lacks words for a complaint only if the tokens have a
name without a text. -/
theorem calls_stay (tokens : List Token) (calls : List Call) (call : Call) :
    let r := (Reader.ofTokens tokens).afterCalls calls
    (∃ front stop, r.tokens = front ++ [stop] ∧ stop.kind = .eof) ∧
    0 ≤ r.position ∧ r.position < r.tokens.length ∧
    (∀ (k : Nat) (token : Token), r.tokens[k]? = some token → token.kind = .eof → r.position ≤ k) ∧
    (∀ fault r', call.run r = .error fault r' → fault ≠ .exhausted ∧
      (fault = .nameless → ∃ token ∈ tokens, token.kind = .ident ∧ token.value = .absent)) ∧
    (call ≠ .program → r.position ≤ (r.afterCall call).position) := by
  intro r
  obtain ⟨passed, hp⟩ := afterCalls_passed calls tokens
  obtain ⟨-, hfair, hmono⟩ := Call.step call hp
  have htokens : r.tokens = closed tokens := hp.tokens
  have hposition : r.position = passed.length := by
    rw [hp.position]
    exact Int.zero_add _
  have hsplit : r.tokens = passed ++ r.ahead := by
    rw [htokens]
    exact hp.ahead
  have hmore : 0 < r.ahead.length := List.length_pos_iff.2 (ofTokens_ready hp).ne_nil
  refine ⟨?_, by omega, ?_, fun k token hk he => ?_, fun fault r' h => ?_, hmono⟩
  · rw [htokens]
    exact closed_ends tokens
  · rw [hposition, hsplit, List.length_append]
    omega
  · by_contra hlt
    rw [hsplit, List.getElem?_append_left (by omega)] at hk
    exact hp.running token (List.mem_of_getElem? hk) he
  · have hfault := hfair fault r' h
    refine ⟨fun he => by rw [he] at hfault; exact hfault, fun he => ?_⟩
    rw [he] at hfault
    obtain ⟨token, hm, hk, hv⟩ := hfault
    exact ⟨token, Reader.ident_of_closed hm hk, hk, hv⟩

/-- The tokens of a line that prints a variable without a name. -/
def unnamedTokens : List Token := [{ kind := .print }, { kind := .ident }, { kind := .newline }]

/-- Such a variable cannot be complained of: the message asks for a value that is not there. -/
theorem unnamed_not_complained :
    (∃ r', Call.run .program (.ofTokens unnamedTokens) = .error .nameless r') ∧
      Template.fill "variable {} referenced before assignment" [] = .error (.missingValue 0) :=
  ⟨⟨_, rfl⟩, by decide +kernel⟩

end Read

end BasicToC
