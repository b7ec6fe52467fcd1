import BasicToC.Proofs.Reading.Safety

/-!
# Rounds

The loops of reading count their rounds by the tokens ahead. Every round takes a token, so the count
never ends a loop, and each loop can be unfolded as if there were no count.

* `Onward`: a step behind which no more tokens lie ahead.
* `links_rounds`, `blockRounds_rounds`, `statements_rounds`: enough rounds are as good as more.
* `allLinks_eq`, `blockOf_eq`, `allStatements_eq`: one round, and then the same loop again.
-/

set_option autoImplicit false

namespace BasicToC.Read

variable {α β Op : Type} {f : Read α} {g g' : α → Read β} {r r' : Reader}

/-! ## Steps -/

/-- Two steps go on alike when what follows the first does. -/
theorem bind_congr_ok (h : ∀ a r', f r = .ok a r' → g a r' = g' a r') :
    (f >>= g) r = (f >>= g') r := by
  simp only [bind, EStateM.bind]
  cases hf : f r with
  | ok a r' => exact h a r' hf
  | error fault r' => rfl

/-- Two steps go on alike when the first ones do. -/
theorem bind_congr_left {f' : Read α} (h : f r = f' r) : (f >>= g) r = (f' >>= g) r := by
  simp only [bind, EStateM.bind, h]

/-- A step behind which no more tokens lie ahead than in front of it. -/
def Onward (f : Read α) : Prop :=
  ∀ ⦃r r' : Reader⦄ ⦃a : α⦄, f r = .ok a r' → r'.ahead.length ≤ r.ahead.length

theorem Onward.of_moves
    (h : ∀ {r r' : Reader} {a : α}, f r = .ok a r' → ∃ ts ms, r.Moves ts ms r') : Onward f := by
  intro r r' a hf
  obtain ⟨ts, ms, hm⟩ := h hf
  rw [hm.ahead, List.length_append]
  omega

theorem Exact.onward {tree : α → Tree} {derives : List Token → Tree → Prop}
    {avoid : List Token.Kind} (hf : Exact f tree derives avoid) : Onward f :=
  .of_moves fun h => (hf.ok h).imp fun _ h => ⟨_, h.2⟩

theorem skipLineEnds_onward : Onward skipLineEnds :=
  .of_moves fun h => (skipLineEnds_ok h).imp fun _ h => ⟨_, h.2⟩

/-- A token that is taken and is not the mark for the end lies no longer ahead. -/
theorem advance_shorter {token t : Token} {rest : List Token} (ha : r.ahead = token :: rest)
    (hk : token.kind ≠ .eof) (h : advance r = .ok t r') : r'.ahead = rest := by
  rw [advance_eq ha, if_neg hk] at h
  cases h
  simp [Reader.skip, ha]

/-! ## The further operands of a chain -/

section Links

variable {operator? : Token.Kind → Option Op} {kind : Op → Token.Kind}
variable {operators : List Token.Kind} {node : Tree → Tree → Tree → Tree}

/-- Without a token ahead a loop runs out, whatever its rounds. -/
theorem links_nil (operator? : Token.Kind → Option Op) (f : Read α) (rounds : List Token)
    (h : r.ahead = []) : links operator? f rounds r = .error .exhausted r := by
  cases rounds with
  | nil => rfl
  | cons _ rounds =>
    rw [links]
    simp only [bind, EStateM.bind, peek_nil h]

/-- Enough rounds for the tokens ahead are as good as more. -/
theorem links_rounds (hl : Level operator? kind operators node) (hf : Onward f)
    {rounds rounds' : List Token} (h : r.ahead.length ≤ rounds.length)
    (h' : r.ahead.length ≤ rounds'.length) :
    links operator? f rounds r = links operator? f rounds' r := by
  induction rounds generalizing r rounds' with
  | nil =>
    have hnil : r.ahead = [] := List.length_eq_zero_iff.1 (Nat.le_zero.1 h)
    rw [links_nil _ _ _ hnil, links_nil _ _ _ hnil]
  | cons _ rounds ih =>
    cases rounds' with
    | nil =>
      have hnil : r.ahead = [] := List.length_eq_zero_iff.1 (Nat.le_zero.1 h')
      rw [links_nil _ _ _ hnil, links_nil _ _ _ hnil]
    | cons _ rounds' =>
      rw [links, links]
      refine bind_congr_ok fun token r₁ hpeek => ?_
      obtain ⟨rfl, rest, ha⟩ := peek_ok hpeek
      cases hop : operator? token.kind with
      | none => rfl
      | some operator =>
        have hk : token.kind ≠ .eof := fun he => hl.proper (he ▸ (hl.read hop).2)
        refine bind_congr_ok fun t r₂ hadv => ?_
        refine bind_congr_ok fun right r₃ hright => bind_congr_left (ih ?_ ?_)
        all_goals
          have hlen := congrArg List.length (advance_shorter ha hk hadv)
          have hle := hf hright
          simp only [ha, List.length_cons] at h h'
          omega

/-- The further operands of a chain, as many as there are. -/
def allLinks (operator? : Token.Kind → Option Op) (f : Read α) : Read (List (Op × α)) := do
  links operator? f (← get).ahead

theorem chain_eq (operator? : Token.Kind → Option Op) (f : Read α) :
    chain operator? f = (do
      let first ← f
      let rest ← allLinks operator? f
      pure ⟨first, rest⟩) := rfl

/-- **One further operand, and then the others.** -/
theorem allLinks_eq (hl : Level operator? kind operators node) (hf : Onward f) :
    allLinks operator? f = (do
      match operator? (← peek).kind with
      | none => pure []
      | some operator =>
        let _ ← advance
        let right ← f
        let rest ← allLinks operator? f
        pure ((operator, right) :: rest)) := by
  funext r
  have hmore : r.ahead.length ≤ (({ kind := .eof } : Token) :: r.ahead).length := Nat.le_succ _
  show links operator? f r.ahead r = _
  rw [links_rounds hl hf (Nat.le_refl _) hmore, links]
  refine bind_congr_ok fun token r₁ hpeek => ?_
  obtain ⟨rfl, rest, ha⟩ := peek_ok hpeek
  cases hop : operator? token.kind with
  | none => rfl
  | some operator =>
    have hk : token.kind ≠ .eof := fun he => hl.proper (he ▸ (hl.read hop).2)
    refine bind_congr_ok fun t r₂ hadv => ?_
    refine bind_congr_ok fun right r₃ hright => bind_congr_left ?_
    have hlen := congrArg List.length (advance_shorter ha hk hadv)
    have hle := hf hright
    rw [ha, List.length_cons] at *
    exact links_rounds hl hf (by rw [List.length_cons]; omega) (Nat.le_refl _)

end Links

/-! ## The statements of a block -/

section Lists

variable {f : Read Statement} {opener closer : Token.Kind}

/-- A statement takes a token at least. -/
theorem Sound.shorter (hf : Sound f) {a : Statement} (h : f r = .ok a r') :
    r'.ahead.length < r.ahead.length := (hf.behind h 0).2

theorem skipLineEnds_nil (h : r.ahead = []) : skipLineEnds r = .error .exhausted r := by
  have hskip : r.skip (r.ahead.takeWhile (·.kind == .newline)).length = r := by
    cases r
    simp_all [Reader.skip]
  unfold skipLineEnds
  rw [bind_eq (modify_eq _ r), hskip]
  simp only [bind, EStateM.bind, peek_nil h]

theorem blockRounds_nil (f : Read Statement) (opener closer : Token.Kind) (rounds : List Token)
    (h : r.ahead = []) : blockRounds f opener closer rounds r = .error .exhausted r := by
  cases rounds with
  | nil => rfl
  | cons _ rounds =>
    rw [blockRounds]
    simp only [bind, EStateM.bind, skipLineEnds_nil h]

theorem blockRounds_rounds (hf : Sound f) {rounds rounds' : List Token}
    (h : r.ahead.length ≤ rounds.length) (h' : r.ahead.length ≤ rounds'.length) :
    blockRounds f opener closer rounds r = blockRounds f opener closer rounds' r := by
  induction rounds generalizing r rounds' with
  | nil =>
    have hnil : r.ahead = [] := List.length_eq_zero_iff.1 (Nat.le_zero.1 h)
    rw [blockRounds_nil _ _ _ _ hnil, blockRounds_nil _ _ _ _ hnil]
  | cons _ rounds ih =>
    cases rounds' with
    | nil =>
      have hnil : r.ahead = [] := List.length_eq_zero_iff.1 (Nat.le_zero.1 h')
      rw [blockRounds_nil _ _ _ _ hnil, blockRounds_nil _ _ _ _ hnil]
    | cons _ rounds' =>
      rw [blockRounds, blockRounds]
      refine bind_congr_ok fun _ r₁ hskip => bind_congr_ok fun token r₂ hpeek => ?_
      obtain ⟨rfl, -⟩ := peek_ok hpeek
      have hle := skipLineEnds_onward hskip
      split
      · rfl
      split
      · rfl
      · refine bind_congr_ok fun first r₃ hfirst => bind_congr_left (ih ?_ ?_)
        all_goals
          have hlt := hf.shorter hfirst
          simp only [List.length_cons] at h h'
          omega

/-- **One statement of a block, and then the others.** -/
theorem blockOf_eq (hf : Sound f) :
    blockOf f opener closer = (do
      skipLineEnds
      let token ← peek
      if token.kind == closer then
        let _ ← advance
        lineEnd closer.spelling
        pure []
      else if token.kind == .eof then refuse (.closerMissing opener closer) token
      else
        let first ← f
        let rest ← blockOf f opener closer
        pure (first :: rest)) := by
  funext r
  have hmore : r.ahead.length ≤ (({ kind := .eof } : Token) :: r.ahead).length := Nat.le_succ _
  show blockRounds f opener closer r.ahead r = _
  rw [blockRounds_rounds (f := f) hf (Nat.le_refl _) hmore, blockRounds]
  refine bind_congr_ok fun _ r₁ hskip => bind_congr_ok fun token r₂ hpeek => ?_
  obtain ⟨rfl, -⟩ := peek_ok hpeek
  have hle := skipLineEnds_onward hskip
  split
  · rfl
  split
  · rfl
  · refine bind_congr_ok fun first r₃ hfirst => bind_congr_left ?_
    have hlt := hf.shorter hfirst
    exact blockRounds_rounds hf (by omega) (Nat.le_refl _)

/-! ## The statements of a program -/

theorem statements_nil (rounds : List Token) (h : r.ahead = []) :
    statements rounds r = .error .exhausted r := by
  cases rounds with
  | nil => rfl
  | cons _ rounds =>
    rw [statements]
    simp only [bind, EStateM.bind, skipLineEnds_nil h]

theorem statements_rounds {rounds rounds' : List Token} (h : r.ahead.length ≤ rounds.length)
    (h' : r.ahead.length ≤ rounds'.length) : statements rounds r = statements rounds' r := by
  induction rounds generalizing r rounds' with
  | nil =>
    have hnil : r.ahead = [] := List.length_eq_zero_iff.1 (Nat.le_zero.1 h)
    rw [statements_nil _ hnil, statements_nil _ hnil]
  | cons _ rounds ih =>
    cases rounds' with
    | nil =>
      have hnil : r.ahead = [] := List.length_eq_zero_iff.1 (Nat.le_zero.1 h')
      rw [statements_nil _ hnil, statements_nil _ hnil]
    | cons _ rounds' =>
      rw [statements, statements]
      refine bind_congr_ok fun _ r₁ hskip => bind_congr_ok fun token r₂ hpeek => ?_
      obtain ⟨rfl, -⟩ := peek_ok hpeek
      have hle := skipLineEnds_onward hskip
      split
      · rfl
      · refine bind_congr_ok fun first r₃ hfirst => bind_congr_left (ih ?_ ?_)
        all_goals
          have hlt := Sound.shorter (statement_ok maxNesting) hfirst
          simp only [List.length_cons] at h h'
          omega

/-- The statements up to the end of the program, as many as there are. -/
def allStatements : Read (List Statement) := do statements (← get).ahead

/-- **One statement of a program, and then the others.** -/
theorem allStatements_eq :
    allStatements = (do
      skipLineEnds
      if (← peek).kind == .eof then pure []
      else
        let first ← statement maxNesting
        let rest ← allStatements
        pure (first :: rest)) := by
  funext r
  have hmore : r.ahead.length ≤ (({ kind := .eof } : Token) :: r.ahead).length := Nat.le_succ _
  show statements r.ahead r = _
  rw [statements_rounds (Nat.le_refl _) hmore, statements]
  refine bind_congr_ok fun _ r₁ hskip => bind_congr_ok fun token r₂ hpeek => ?_
  obtain ⟨rfl, -⟩ := peek_ok hpeek
  have hle := skipLineEnds_onward hskip
  split
  · rfl
  · refine bind_congr_ok fun first r₃ hfirst => bind_congr_left ?_
    have hlt := Sound.shorter (statement_ok maxNesting) hfirst
    exact statements_rounds (by omega) (Nat.le_refl _)

end Lists

end BasicToC.Read
