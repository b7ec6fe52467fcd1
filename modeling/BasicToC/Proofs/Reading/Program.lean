import BasicToC.Proofs.Reading.Statements

/-!
# Reading a whole program

* `program_ok`: what a program that has been read looks like, and which rules its names keep.
* `program_takes`: every program of the grammar whose names keep the rules is read.
-/

set_option autoImplicit false

namespace BasicToC

/-- No jump is stray exactly when every label that is jumped to is placed. -/
theorem Names.strayJump_none (names : Names) : names.strayJump? = none ↔ names.ledger.Settled := by
  unfold Names.strayJump? Names.ledger Ledger.Settled
  rw [List.find?_eq_none]
  simp

theorem sortedValues_texts {vs : List Value} (h : ∀ v ∈ vs, v.IsText) :
    ∃ ws, sortedValues? vs = some ws := by
  have hall : (vs.all fun v => vs.all fun w => v == w || (v.notAfter? w).isSome) = true := by
    rw [List.all_eq_true]
    intro v hv
    rw [List.all_eq_true]
    intro w hw
    obtain ⟨s, rfl⟩ := h v hv
    obtain ⟨t, rfl⟩ := h w hw
    simp [Value.notAfter?]
  unfold sortedValues?
  rw [if_pos hall]
  exact ⟨_, rfl⟩

namespace Read

open Reader (Moves)
open Grammar (Rows nesting nestingFrom)

variable {r r' : Reader} {p : Program} {us : List Token} {t : Tree}

/-- The reader that a program is read with: at the first token, without names. -/
def start (r : Reader) : Reader := { r.moveTo r.tokens 0 with names := {} }

theorem start_ahead (r : Reader) : (start r).ahead = r.tokens := by
  simp [start, Reader.moveTo, Text.upcoming?]

theorem program_eq (r : Reader) :
    Read.program r = (do
      let program ← statements (start r).ahead
      match (← get).names.strayJump? with
      | some (label, token) => refuse (.labelUndeclared label) token
      | none =>
        match sortedValues? (← get).names.declared with
        | none => throw Reader.Fault.unordered
        | some declared =>
          note (.programRead program.length declared)
          pure program) (start r) := rfl

/-- **A program that has been read stands in the grammar and keeps the rules for names.** What the
reader holds at the end are the names mentioned. -/
theorem program_ok (h : Read.program r = .ok p r') :
    ∃ us token rest, r.tokens = us ++ token :: rest ∧ token.kind = .eof ∧
      Grammar.Program us (Program.tree p) ∧ ({} : Ledger).Allows (Program.tree p).mentions ∧
      r'.names.ledger = ({} : Ledger).record (Program.tree p).mentions ∧
      r'.names.ledger.Settled := by
  rw [program_eq] at h
  obtain ⟨body, r₁, hbody, h⟩ := bind_ok h
  obtain ⟨us, hrows, hm, token, rest, ha, hk⟩ := statements_ok hbody
  rw [bind_eq (get_eq r₁)] at h
  cases hstray : r₁.names.strayJump? with
  | some jump =>
    rw [hstray] at h
    exact absurd h refuse_ne_ok
  | none =>
    rw [hstray] at h
    simp only at h
    rw [bind_eq (get_eq r₁)] at h
    cases hsort : sortedValues? r₁.names.declared with
    | none => rw [hsort] at h; cases h
    | some declared =>
      rw [hsort] at h
      cases h
      refine ⟨us, token, rest, ?_, hk, hrows, hm.allowed, hm.ledger, ?_⟩
      · rw [← start_ahead r, hm.ahead, ha]
      · exact (Names.strayJump_none _).1 hstray

theorem statements_takes (hrows : Rows (Readable (statement maxNesting)) us t) {r : Reader}
    {token : Token} {rest rounds : List Token} (ha : r.ahead = us ++ token :: rest)
    (hk : token.kind = .eof) (hlen : r.ahead.length ≤ rounds.length)
    (hn : r.names.ledger.Allows t.mentions) :
    ∃ body r', statements rounds r = .ok body r' ∧ Program.tree body = t ∧
      r.Moves us t.mentions r' := by
  induction hrows generalizing r rounds with
  | @done blank hblank =>
    cases rounds with
    | nil => simp [ha] at hlen
    | cons _ rounds =>
      obtain ⟨r₁, hskip, hm⟩ := skipLineEnds_takes ha hblank (by simp [hk])
      refine ⟨[], r₁, ?_, rfl, hm⟩
      rw [statements, bind_eq hskip, bind_eq (peek_eq (hm.ahead_eq ha)), if_pos (by simp [hk])]
      rfl
  | @next blank ts vs first others hblank hfirst _ ih =>
    cases rounds with
    | nil =>
      rw [ha] at hlen
      simp at hlen
    | cons _ rounds =>
      have ha : r.ahead = blank ++ ts ++ (vs ++ token :: rest) := by simpa using ha
      obtain ⟨word, r₁, a, r₂, hword, hskip, hpeek, hr, rfl, hm, hlt⟩ :=
        row_takes hblank hfirst ha (by simp) (Ledger.allows_append.1 hn).1
      have hne : word.kind ≠ .eof := fun he => by
        rw [he] at hword
        exact absurd hword (by decide)
      have hlen₂ : r₂.ahead.length ≤ rounds.length := by
        rw [List.length_cons] at hlen
        omega
      obtain ⟨body, r₃, hrs, rfl, hm₃⟩ := ih (hm.ahead_eq ha) hlen₂ (hm.allows hn)
      refine ⟨a :: body, r₃, ?_, rfl, hm.trans' hm₃ (by simp) rfl⟩
      rw [statements, bind_eq hskip, bind_eq hpeek, if_neg (by simpa using hne), bind_eq hr,
        bind_eq hrs]
      rfl

/-- **Every program of the grammar whose names keep the rules is read**, unless its blocks are nested
too deep. -/
theorem program_takes (h : Grammar.Program us t) (hd : nesting us < maxNesting) {token : Token}
    {rest : List Token} (ha : r.tokens = us ++ token :: rest) (hk : token.kind = .eof)
    (hn : ({} : Ledger).Allows t.mentions) (hsettled : (({} : Ledger).record t.mentions).Settled)
    (htexts : ∀ v ∈ (({} : Ledger).record t.mentions).declared, v.IsText) :
    ∃ p r', Read.program r = .ok p r' ∧ Program.tree p = t := by
  have hrows : Rows (Readable (statement maxNesting)) us t := by
    refine (Rows.within 0 h).mono fun vs v _ hv => ⟨hv.1, statement_takes hv.1 0 maxNesting ?_⟩
    have := hv.2
    unfold nesting at hd
    omega
  obtain ⟨body, r₁, hbody, rfl, hm⟩ :=
    statements_takes hrows ((start_ahead r).trans ha) hk (Nat.le_refl _) hn
  have hledger : r₁.names.ledger = ({} : Ledger).record (Program.tree body).mentions := hm.ledger
  have hstray : r₁.names.strayJump? = none := by
    rw [Names.strayJump_none, hledger]
    exact hsettled
  obtain ⟨ws, hws⟩ : ∃ ws, sortedValues? r₁.names.declared = some ws := by
    refine sortedValues_texts fun v hv => htexts v ?_
    rw [← hledger]
    exact hv
  have hread : Read.program r = (do note (.programRead body.length ws); pure body : Read _) r₁ := by
    rw [program_eq, bind_eq hbody, bind_eq (get_eq r₁), hstray]
    simp only
    rw [bind_eq (get_eq r₁), hws]
  exact ⟨body, _, hread, rfl⟩

end Read

end BasicToC
