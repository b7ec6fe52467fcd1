import BasicToC.Proofs.Decimal.Notation
import BasicToC.Proofs.Grammar.Parts
import BasicToC.Proofs.Listing.Translation
import BasicToC.Proofs.Reading.Language
import BasicToC.Proofs.Scanning.Meaning

/-!
# What is read can be written

The reader goes no deeper into blocks than the writer has room for, the scanner takes no number that
is too long to be written, and names that are read can be put in order. So the writer has nothing to
refuse in a program that has been read.

* `Yields`: what all results of a step of reading have in common.
* `statement_fits`, `program_fits`: the calls that writing takes, by the depth of reading.
* `program_short`: the numbers of a program.
* `program_written`: every program that has been read is written.
-/

set_option autoImplicit false

namespace BasicToC

namespace Read

variable {α β : Type}

/-- Whatever a step reads has some property. -/
def Yields (P : α → Prop) (f : Read α) : Prop :=
  ∀ ⦃r : Reader⦄ ⦃a : α⦄ ⦃r' : Reader⦄, f r = .ok a r' → P a

section Yields

variable {P : β → Prop} {Q : α → Prop} {f : Read α} {g : α → Read β}

theorem Yields.bind (hf : Yields Q f) (hg : ∀ a, Q a → Yields P (g a)) : Yields P (f >>= g) := by
  intro r b r' h
  obtain ⟨a, r₁, ha, hb⟩ := bind_ok h
  exact hg a (hf ha) hb

theorem Yields.behind (hg : ∀ a, Yields P (g a)) : Yields P (f >>= g) :=
  .bind (Q := fun _ => True) (fun _ _ _ _ => trivial) fun a _ => hg a

theorem Yields.pure {b : β} (h : P b) : Yields P (pure b) := by
  intro r a r' heq
  cases heq
  exact h

theorem Yields.refuse (complaint : Complaint) (token : Token) :
    Yields P (refuse complaint token) := fun _ _ _ h => absurd h refuse_ne_ok

end Yields

/-! ## Bodies -/

/-- There is room for a statement where so many calls may stand in one another. -/
def FitsIn (room : Nat) (s : Statement) : Prop := s.tree.statementCalls ≤ room

theorem chain_fits {room : Nat} {body : List Statement} (h : ∀ s ∈ body, FitsIn room s) :
    (Program.tree body).chainCalls ≤ room := by
  induction body with
  | nil => exact Nat.zero_le room
  | cons s body ih =>
    obtain ⟨hs, hbody⟩ := List.forall_mem_cons.1 h
    exact Nat.max_le.2 ⟨hs, ih hbody⟩

variable {room : Nat} {f : Read Statement}

theorem blockRounds_fits (hf : Yields (FitsIn room) f) (opener closer : Token.Kind)
    (rounds : List Token) :
    Yields (fun body => ∀ s ∈ body, FitsIn room s) (blockRounds f opener closer rounds) := by
  induction rounds with
  | nil => exact fun _ _ _ h => by cases h
  | cons _ rounds ih =>
    rw [blockRounds]
    refine .behind fun _ => .behind fun token => ?_
    split
    · exact .behind fun _ => .behind fun _ => .pure (by simp)
    · split
      · exact .refuse _ _
      · exact .bind hf fun first hfirst => .bind ih fun more hmore =>
          .pure (List.forall_mem_cons.2 ⟨hfirst, hmore⟩)

theorem blockOf_fits (hf : Yields (FitsIn room) f) (opener closer : Token.Kind) :
    Yields (fun body => (Program.tree body).chainCalls ≤ room) (blockOf f opener closer) := by
  intro r body r' h
  exact chain_fits (blockRounds_fits hf opener closer r.ahead h)

theorem whenRest_fits (hf : Yields (FitsIn room) f) : Yields (FitsIn (room + 3)) (whenRest f) :=
  .behind fun _ => .behind fun _ => .behind fun _ => .bind (blockOf_fits hf .when .endWhen)
    fun _ hbody => .pure (Nat.add_le_add_right hbody 3)

theorem loopRest_fits (hf : Yields (FitsIn room) f) : Yields (FitsIn (room + 3)) (loopRest f) :=
  .behind fun _ => .behind fun _ => .behind fun _ => .bind (blockOf_fits hf .loop .endLoop)
    fun _ hbody => .pure (Nat.add_le_add_right hbody 3)

theorem printRest_fits : Yields (FitsIn room) printRest := by
  unfold printRest
  simp only [pure_bind]
  refine .behind fun token => ?_
  split
  · exact .behind fun _ => .behind fun _ => .pure (Nat.zero_le _)
  · exact .behind fun _ => .behind fun _ => .pure (Nat.zero_le _)

theorem labelRest_fits : Yields (FitsIn room) labelRest := by
  refine .behind fun token => .behind fun name => .behind fun reader => ?_
  split
  · exact .behind fun _ => .behind fun _ => .behind fun _ => .pure (Nat.zero_le _)
  · exact .behind fun _ => .behind fun _ => .pure (Nat.zero_le _)

theorem gotoRest_fits : Yields (FitsIn room) gotoRest :=
  .behind fun _ => .behind fun _ => .behind fun _ => .behind fun _ => .pure (Nat.zero_le _)

theorem assignRest_fits : Yields (FitsIn room) assignRest :=
  .behind fun _ => .behind fun _ => .behind fun _ => .behind fun _ => .behind fun _ =>
    .pure (Nat.zero_le _)

theorem inputRest_fits : Yields (FitsIn room) inputRest :=
  .behind fun _ => .behind fun _ => .behind fun _ => .pure (Nat.zero_le _)

/-- A statement that is read at some depth takes three calls for each level of it at most. -/
theorem statement_fits (depth : Nat) : Yields (FitsIn (3 * depth)) (statement depth) := by
  induction depth with
  | zero => exact fun _ _ _ h => by cases h
  | succ depth ih =>
    rw [statement]
    refine .behind fun _ => .behind fun _ => .behind fun _ => .behind fun token => ?_
    cases token.kind
    case print => exact .behind fun _ => printRest_fits
    case when => exact .behind fun _ => whenRest_fits ih
    case loop => exact .behind fun _ => loopRest_fits ih
    case label => exact .behind fun _ => labelRest_fits
    case goto => exact .behind fun _ => gotoRest_fits
    case assign => exact .behind fun _ => assignRest_fits
    case input => exact .behind fun _ => inputRest_fits
    all_goals exact .refuse _ _

theorem statements_fits (rounds : List Token) :
    Yields (fun body => ∀ s ∈ body, FitsIn (3 * maxNesting) s) (statements rounds) := by
  induction rounds with
  | nil => exact fun _ _ _ h => by cases h
  | cons _ rounds ih =>
    rw [statements]
    refine .behind fun _ => .behind fun token => ?_
    split
    · exact .pure (by simp)
    · exact .bind (statement_fits maxNesting) fun first hfirst => .bind ih fun more hmore =>
        .pure (List.forall_mem_cons.2 ⟨hfirst, hmore⟩)

/-- **There is room for the bodies of every program that has been read.** -/
theorem program_fits : Yields (fun p => (Program.tree p).chainCalls ≤ Write.maxCalls) program := by
  intro r p r' h
  rw [program_eq] at h
  obtain ⟨body, r₁, hbody, h⟩ := bind_ok h
  have hcalls : (Program.tree body).chainCalls ≤ Write.maxCalls :=
    chain_fits (statements_fits _ hbody)
  refine Yields.behind (P := fun p => (Program.tree p).chainCalls ≤ Write.maxCalls)
    (fun reader => ?_) h
  split
  · exact .refuse _ _
  · refine .behind fun reader => ?_
    split
    · exact fun _ _ _ h => by cases h
    · exact .behind fun _ => .pure hcalls

end Read

/-! ## Programs -/

variable {source : String} {tokens : List Token} {program : Program} {reader : Reader}

/-- No number of a program is too long to be written. -/
theorem program_short (hscan : Token.scan source = .ok tokens)
    (hread : Read.program (Reader.ofTokens tokens) = .ok program reader) :
    (Program.tree program).Short := by
  obtain ⟨hg, -⟩ := program_of_text hscan hread
  obtain ⟨ts, stop, rfl, -, hmeant⟩ := scan_meant hscan
  rw [List.dropLast_concat] at hg
  refine Tree.Short.of_parts fun value hvalue => ?_
  rcases hvalue with hpart | hpart
  · obtain ⟨token, hm, hk, rfl⟩ := hg.rooted _ hpart
    obtain ⟨rule, hd⟩ := hmeant token hm
    rw [hk] at hd
    obtain ⟨n, hn, hsmall⟩ := hd.whole
    rw [hn]
    exact decide_eq_false (Nat.not_lt.2 (decimalDigits_few hsmall))
  · obtain ⟨token, hm, hk, rfl⟩ := hg.rooted _ hpart
    obtain ⟨rule, hd⟩ := hmeant token hm
    rw [hk] at hd
    obtain ⟨s, e, hv, -⟩ := hd.real
    rw [hv]
    rfl

/-- **Every program that has been read is written**, whichever of its names are declared by it. -/
theorem program_written (hscan : Token.scan source = .ok tokens)
    (hread : Read.program (Reader.ofTokens tokens) = .ok program reader) {names : List Value}
    (hnames : names ⊆ reader.names.declared) :
    ∃ w, Write.program { tree := Program.tree program, declared := names } =
        .ok ((Program.tree program).code.declare names).1.listing w ∧
      w.pending = ((Program.tree program).code.declare names).2 := by
  obtain ⟨-, hshaped, -, hholds⟩ := program_of_text hscan hread
  refine Write.program_writes hshaped (program_short hscan hread) (Read.program_fits hread) ?_
  refine sortedValues_texts fun v hv => ?_
  have hdeclared : v ∈ reader.names.declared := hnames (Code.declare_subset _ _ hv)
  exact hshaped.texts _ ((hholds.declared v).1 hdeclared)

end BasicToC
