import BasicToC.Proofs.Names.Occurrence
import BasicToC.Proofs.Reading.Course

/-!
# The names held at the end

Whether a program is read or refused, and at whichever token it is refused, the reader holds exactly
the names of the tokens that it has passed by then.

* `closed_ends`: the tokens of a program end with a mark for the end.
* `program_course`: how reading a whole program ends.
* `names_of_passed`: what the reader holds then, said of the places of the tokens.
-/

set_option autoImplicit false

namespace BasicToC

namespace Reader

variable {r : Reader} {tokens : List Token}

/-- The tokens of a program end with a mark for the end. -/
theorem closed_ends (tokens : List Token) :
    ∃ front stop, closed tokens = front ++ [stop] ∧ stop.kind = .eof := by
  unfold closed
  cases hlast : tokens.getLast? with
  | none => exact ⟨[], _, rfl, rfl⟩
  | some last =>
    obtain ⟨front, rfl⟩ := List.getLast?_eq_some_iff.1 hlast
    by_cases hk : last.kind = .eof
    · exact ⟨front, last, by simp [hk], hk⟩
    · exact ⟨front ++ [last], { kind := .eof }, by simp [hk], rfl⟩

/-- Closing a program puts no name into it. -/
theorem ident_of_closed {token : Token} (h : token ∈ closed tokens) (hk : token.kind = .ident) :
    token ∈ tokens := by
  unfold closed at h
  split at h
  · split at h
    · exact h
    · rcases List.mem_append.1 h with h | h
      · exact h
      · rw [List.mem_singleton.1 h] at hk
        cases hk
  · rw [List.mem_singleton.1 h] at hk
    cases hk

end Reader

namespace Read

open Reader (closed closed_ends)

variable {r r' : Reader} {kept : Prop}

/-- A program is read from its first token on, and ends somewhere. -/
theorem start_ready (h : ∃ stop ∈ r.tokens, stop.kind = .eof) : (start r).Ready where
  among := by
    rw [start_ahead]
    exact List.Subset.refl _
  ends := by
    rw [start_ahead]
    exact h

/-- A program is read from its first token on, from wherever it is asked for. -/
theorem program_start (r : Reader) : Read.program (start r) = Read.program r := rfl

/-- **However reading a program ends**, the names held are those of the tokens passed. -/
theorem program_course (h : ∃ stop ∈ r.tokens, stop.kind = .eof) :
    Course True {} [] Read.program (start r) := by
  refine Course.after .refl (program_eq (start r)) ?_
  refine (statements_steady (start_ready h) (Nat.le_refl _)).bind fun body r₁ ts _ hp hn => ?_
  have hn := hn trivial
  refine get_course ?_
  split
  · rename_i label token hstray
    refine Course.refuse (fun _ => hn.names) fun hless => ?_
    have hjump : (label, token) ∈ r₁.names.jumps := List.mem_of_find?_eq_some hstray
    rw [hn.names] at hjump
    rcases Names.jump_of_follow hjump with hnone | ⟨hvalue, hm, hk⟩
    · cases hnone
    · refine ⟨token, ?_, hk, hvalue.symm.trans (beq_iff_eq.1 hless)⟩
      rw [hp.tokens]
      exact (start_ready h).among (hp.ahead ▸ List.mem_append_left _ hm)
  · refine get_course ?_
    split
    · exact Course.throw trivial fun _ => hn.names
    · exact note_course (hp.ready (start_ready h)) fun s _ hs => Course.pure fun _ => hs ▸ hn

variable {tokens : List Token}

/-- What a reader of `tokens` has passed, and the names that it holds, when reading ends. -/
theorem program_left (hr : r.tokens = closed tokens)
    (h : (∃ program, Read.program r = .ok program r') ∨
      ∃ fault, Read.program r = .error fault r') :
    ∃ passed, (start r).Passed passed r' ∧ r'.names = ({} : Names).follow passed := by
  have hends : ∃ stop ∈ r.tokens, stop.kind = .eof := by
    obtain ⟨front, stop, hclosed, hk⟩ := closed_ends tokens
    exact ⟨stop, by simp [hr, hclosed], hk⟩
  have hcourse := program_course hends
  rw [← program_start r] at h
  rcases h with ⟨program, h⟩ | ⟨fault, h⟩
  · obtain ⟨passed, hp, hn⟩ := hcourse.ok h
    exact ⟨passed, hp, (hn trivial).names⟩
  · obtain ⟨-, passed, hp, hn⟩ := hcourse.error h
    exact ⟨passed, hp, hn trivial⟩

/-- **The names held when reading ends are those of the tokens in front of the reader's place**,
whether the program has been read or refused: the variables set, the labels placed, and the labels
jumped to, each with the token of the first jump to it. -/
theorem names_of_passed (htexts : ∀ token ∈ tokens, token.kind = .ident → token.value.IsText)
    (hr : r.tokens = closed tokens)
    (h : (∃ program, Read.program r = .ok program r') ∨
      ∃ rejection, Read.program r = .error (.rejected rejection) r') :
    r'.tokens = closed tokens ∧ 0 ≤ r'.position ∧ r'.position ≤ (closed tokens).length ∧
      r'.names.Records ((closed tokens).take r'.position.toNat) := by
  obtain ⟨passed, hp, hn⟩ := program_left hr (h.imp_right fun ⟨rejection, h⟩ => ⟨_, h⟩)
  have hsplit : closed tokens = passed ++ r'.ahead := by
    rw [← hr, ← start_ahead r, hp.ahead]
  have hposition : r'.position = passed.length := by
    rw [hp.position]
    exact Int.zero_add _
  refine ⟨hp.tokens.trans hr, by omega, by rw [hposition, hsplit, List.length_append]; omega, ?_⟩
  rw [hposition, Int.toNat_natCast, hsplit, List.take_left, hn]
  refine Names.follow_records fun token hm hk => htexts token (Reader.ident_of_closed ?_ hk) hk
  exact hsplit ▸ List.mem_append_left _ hm

/-- The tokens of `GOTO a`, of `LET x = y` and of the end of the first of these lines. -/
def unassignedTokens : List Token :=
  [{ kind := .goto }, { kind := .ident, value := .text "a" }, { kind := .newline },
    { kind := .assign }, { kind := .ident, value := .text "x" }, { kind := .eq },
    { kind := .ident, value := .text "y" }]

/-- The variable of a refused assignment is held, and so is a jump in front of it. -/
theorem unassigned_names : ∃ rejection r',
    Read.program (.ofTokens unassignedTokens) = .error (.rejected rejection) r' ∧
    r'.position = 7 ∧ r'.names.declared = [.text "x"] ∧
    r'.names.jumps = [(.text "a", { kind := .ident, value := .text "a" })] ∧
    r'.names.Records ((closed unassignedTokens).take 7) := by
  have htexts : ∀ token ∈ unassignedTokens, token.kind = .ident → token.value.IsText := by
    intro token hm hk
    simp only [unassignedTokens, List.mem_cons, List.not_mem_nil, or_false] at hm
    rcases hm with rfl | rfl | rfl | rfl | rfl | rfl | rfl <;> cases hk <;> exact ⟨_, rfl⟩
  refine ⟨_, _, rfl, by decide, by decide, by decide, ?_⟩
  exact (names_of_passed htexts (r := .ofTokens unassignedTokens) rfl (.inr ⟨_, rfl⟩)).2.2.2

end Read

end BasicToC
