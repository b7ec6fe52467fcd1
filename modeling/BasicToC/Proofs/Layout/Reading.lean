import BasicToC.Proofs.Layout.Runs
import BasicToC.Proofs.Reading.Rounds

/-!
# Reading is blind to layout

Every part of a program is read alike from any two readers alike. Statements start and end directly
behind a line, computations stand within one.

* `operand_blind`, `factor_blind`, `chain_blind`, `expression_blind`, `comparison_blind`: what is
  computed.
* `printRest_blind`, `labelRest_blind`, `gotoRest_blind`, `assignRest_blind`, `inputRest_blind`,
  `blockOf_blind`: what follows the first word of a statement.
* `statement_blind`, `statements_blind`: statements, and lists of them.
* `program_agree`: whole programs.
-/

set_option autoImplicit false

namespace BasicToC.Read

variable {α Op : Type} {f : Read α} {r s : Reader}

/-! ## What is computed -/

theorem operand_blind : Blind false false operand := by
  intro r s h
  unfold operand
  refine peek_agree h fun _ _ _ _ _ _ _ => note_agree h fun r₁ s₁ h₁ => ?_
  refine advance_agree h₁ fun a b _ _ r₂ s₂ _ _ htwin h₂ => ?_
  have hline (hk : a.kind ≠ .newline) : r₂.Alike false s₂ := by rwa [beq_false_of_ne hk] at h₂
  rw [← htwin.kind, ← htwin.value]
  cases hk : a.kind
  case integer => exact Agree.pure rfl (hline (by simp [hk]))
  case float => exact Agree.pure rfl (hline (by simp [hk]))
  case ident =>
    have hdeclared : r₂.names.declared = s₂.names.declared := congrArg Ledger.declared h₂.ledger
    simp only
    rw [bind_eq (get_eq r₂), bind_eq (get_eq s₂), hdeclared]
    split
    · exact Agree.pure rfl (hline (by simp [hk]))
    · exact refuse_agree (by exact ⟨rfl, rfl⟩) a b
  all_goals exact refuse_agree (by exact ⟨rfl, rfl⟩) a b

/-- The token that has been looked at is taken. -/
theorem advance_known {β γ : Type} {g : Token → Read β} {g' : Token → Read γ} {same : β → γ → Prop}
    {back : Bool} {a b : Token} {rest rest' : List Token} (h : r.Alike false s)
    (ha : r.ahead = a :: rest) (hb : s.ahead = b :: rest') (hk : a.kind ≠ .newline)
    (hg : ∀ r' s', r'.Alike false s' → Agree back same (g a r') (g' b s')) :
    Agree back same ((advance >>= g) r) ((advance >>= g') s) := by
  refine advance_agree h fun a' b' _ _ r' s' ha' hb' _ halike => ?_
  obtain ⟨rfl, -⟩ := List.cons_eq_cons.1 (ha'.symm.trans ha)
  obtain ⟨rfl, -⟩ := List.cons_eq_cons.1 (hb'.symm.trans hb)
  exact hg r' s' (by rwa [beq_false_of_ne hk] at halike)

theorem factor_blind : Blind false false factor := by
  intro r s h
  unfold factor
  refine peek_agree h fun a b _ _ ha hb htwin => ?_
  rw [← htwin.kind]
  cases hsign : Additive.ofKind? a.kind with
  | some sign =>
    have hk : a.kind ≠ .newline := fun hk => by
      rw [hk] at hsign
      cases hsign
    exact advance_known h ha hb hk fun r₁ s₁ h₁ =>
      operand_blind.bind h₁ fun x r₂ s₂ h₂ => Agree.pure rfl h₂
  | none => exact operand_blind.bind h fun x r₁ s₁ h₁ => Agree.pure rfl h₁

section Chains

variable {operator? : Token.Kind → Option Op} {kind : Op → Token.Kind}
variable {operators : List Token.Kind} {node : Tree → Tree → Tree → Tree}

/-- With as many rounds, the further operands of a chain are read alike. -/
theorem links_blind (hf : Blind false false f) (hop : operator? .newline = none)
    (rounds : List Token) : Blind false false (links operator? f rounds) := by
  induction rounds with
  | nil => exact fun r s _ => .refl _
  | cons _ rounds ih =>
    intro r s h
    rw [links]
    refine peek_agree h fun a b _ _ ha hb htwin => ?_
    rw [← htwin.kind]
    cases hoperator : operator? a.kind with
    | none => exact Agree.pure rfl h
    | some operator =>
      have hk : a.kind ≠ .newline := fun hk => by
        rw [hk, hop] at hoperator
        cases hoperator
      exact advance_known h ha hb hk fun r₁ s₁ h₁ => hf.bind h₁ fun right r₂ s₂ h₂ =>
        ih.bind h₂ fun rest r₃ s₃ h₃ => Agree.pure rfl h₃

/-- The rounds are counted by the tokens ahead, which may be more in one run than in the other; both
runs may take the rounds of both. -/
theorem allLinks_blind (hl : Level operator? kind operators node) (hf : Blind false false f)
    (hon : Onward f) (hop : operator? .newline = none) :
    Blind false false (allLinks operator? f) := by
  intro r s h
  have hrounds := links_blind hf hop (r.ahead ++ s.ahead) h
  have hfirst : links operator? f (r.ahead ++ s.ahead) r = links operator? f r.ahead r :=
    links_rounds hl hon (by simp) (Nat.le_refl _)
  have hsecond : links operator? f (r.ahead ++ s.ahead) s = links operator? f s.ahead s :=
    links_rounds hl hon (by simp) (Nat.le_refl _)
  rw [hfirst, hsecond] at hrounds
  exact hrounds

theorem chain_blind (hl : Level operator? kind operators node) (hf : Blind false false f)
    (hon : Onward f) (hop : operator? .newline = none) : Blind false false (chain operator? f) := by
  intro r s h
  rw [chain_eq]
  exact hf.bind h fun first r₁ s₁ h₁ => (allLinks_blind hl hf hon hop).bind h₁
    fun rest r₂ s₂ h₂ => Agree.pure rfl h₂

end Chains

theorem term_blind : Blind false false term :=
  chain_blind multiplicative_level factor_blind factor_exact.onward rfl

theorem expression_blind : Blind false false expression :=
  chain_blind additive_level term_blind term_exact.onward rfl

theorem comparison_blind : Blind false false comparison := by
  intro r s h
  unfold comparison
  refine peek_agree h fun _ _ _ _ _ _ _ => note_agree h fun r₁ s₁ h₁ => ?_
  exact chain_blind relational_level expression_blind expression_exact.onward rfl h₁

/-! ## What follows the first word of a statement -/

theorem printRest_blind : Blind false true printRest := by
  intro r s h
  unfold printRest
  simp only [pure_bind]
  refine peek_agree h fun a b _ _ ha hb htwin => ?_
  rw [← htwin.kind, ← htwin.value]
  split
  · rename_i hk
    have hk : a.kind ≠ .newline := by
      rw [beq_iff_eq.1 hk]
      decide
    exact advance_known h ha hb hk fun r₁ s₁ h₁ => ended_agree rfl h₁
  · exact expression_blind.bind h fun value r₁ s₁ h₁ => ended_agree rfl h₁

theorem labelRest_blind : Blind false true labelRest := by
  intro r s h
  unfold labelRest
  refine peek_agree h fun a b _ _ ha hb htwin => identifier_agree h fun name r₁ s₁ h₁ => ?_
  have hlabels : r₁.names.labels = s₁.names.labels := congrArg Ledger.labels h₁.ledger
  rw [bind_eq (get_eq r₁), bind_eq (get_eq s₁), hlabels]
  split
  · rw [refuse_bind, refuse_bind]
    exact refuse_agree (by exact ⟨rfl, rfl⟩) a b
  · have hnames : (r₁.names.addLabel name).ledger = (s₁.names.addLabel name).ledger := by
      show r₁.names.ledger.note (.places name) = s₁.names.ledger.note (.places name)
      rw [h₁.ledger]
    exact change_agree ⟨h₁.ahead, hnames⟩ fun r₂ s₂ h₂ => ended_agree rfl h₂

theorem gotoRest_blind : Blind false true gotoRest := by
  intro r s h
  unfold gotoRest
  refine peek_agree h fun a b _ _ ha hb htwin => identifier_agree h fun name r₁ s₁ h₁ => ?_
  have hnames : (r₁.names.addJump name a).ledger = (s₁.names.addJump name b).ledger := by
    rw [addJump_ledger, addJump_ledger, h₁.ledger]
  exact change_agree ⟨h₁.ahead, hnames⟩ fun r₂ s₂ h₂ => ended_agree rfl h₂

/-- A variable that is set is kept alike. -/
theorem addVariable_alike {front : Bool} (h : r.Alike front s) (name : Value) :
    Reader.Alike front { r with names := r.names.addVariable name }
      { s with names := s.names.addVariable name } := by
  refine ⟨h.ahead, ?_⟩
  show r.names.ledger.note (.sets name) = s.names.ledger.note (.sets name)
  rw [h.ledger]

theorem assignRest_blind : Blind false true assignRest := by
  intro r s h
  unfold assignRest
  refine identifier_agree h fun name r₁ s₁ h₁ =>
    change_agree (addVariable_alike h₁ name) fun r₂ s₂ h₂ => ?_
  exact expect_agree h₂ fun _ _ r₃ s₃ _ h₃ => expression_blind.bind h₃ fun value r₄ s₄ h₄ =>
    ended_agree rfl h₄

theorem inputRest_blind : Blind false true inputRest := by
  intro r s h
  unfold inputRest
  exact identifier_agree h fun name r₁ s₁ h₁ =>
    change_agree (addVariable_alike h₁ name) fun r₂ s₂ h₂ => ended_agree rfl h₂

/-! ## Lists of statements -/

section Lists

variable {f : Read Statement} {opener middle closer : Token.Kind}

/-- With as many rounds, the statements of a block are read alike. -/
theorem blockRounds_blind (hf : Blind true true f) (hc : closer ≠ .newline) (rounds : List Token) :
    Blind true true (blockRounds f opener closer rounds) := by
  induction rounds with
  | nil => exact fun r s _ => .refl _
  | cons _ rounds ih =>
    intro r s h
    rw [blockRounds]
    refine skipLineEnds_agree h fun r₁ s₁ h₁ => peek_agree h₁ fun a b _ _ ha hb htwin => ?_
    rw [← htwin.kind]
    split
    · rename_i hk
      have hk : a.kind ≠ .newline := beq_iff_eq.1 hk ▸ hc
      exact advance_known h₁ ha hb hk fun r₂ s₂ h₂ => ended_agree rfl h₂
    split
    · exact refuse_agree (by exact ⟨rfl, rfl⟩) a b
    · exact hf.bind h₁.loosen fun first r₂ s₂ h₂ => ih.bind h₂ fun rest r₃ s₃ h₃ =>
        Agree.pure rfl h₃

theorem blockOf_blind (hs : Sound f) (hf : Blind true true f) (hc : closer ≠ .newline) :
    Blind true true (blockOf f opener closer) := by
  intro r s h
  have hrounds : Agree true Eq (blockRounds f opener closer (r.ahead ++ s.ahead) r)
      (blockRounds f opener closer (r.ahead ++ s.ahead) s) := blockRounds_blind hf hc _ h
  have hfirst : blockRounds f opener closer (r.ahead ++ s.ahead) r =
      blockRounds f opener closer r.ahead r := blockRounds_rounds hs (by simp) (Nat.le_refl _)
  have hsecond : blockRounds f opener closer (r.ahead ++ s.ahead) s =
      blockRounds f opener closer s.ahead s := blockRounds_rounds hs (by simp) (Nat.le_refl _)
  rw [hfirst, hsecond] at hrounds
  exact hrounds

/-- What follows the first word of a block, whichever it is. -/
theorem blockRest_blind (hs : Sound f) (hf : Blind true true f) (hm : middle ≠ .newline)
    (hc : closer ≠ .newline) {make : Comparison → List Statement → Statement} {after : String} :
    Blind false true (do
      let condition ← comparison
      let _ ← expect middle after
      lineEnd middle.spelling
      pure (make condition (← blockOf f opener closer)) : Read Statement) := by
  intro r s h
  refine comparison_blind.bind h fun condition r₁ s₁ h₁ => expect_agree h₁ fun _ _ r₂ s₂ _ h₂ => ?_
  rw [beq_false_of_ne hm] at h₂
  exact lineEnd_agree h₂ fun r₃ s₃ h₃ => (blockOf_blind hs hf hc).bind h₃ fun body r₄ s₄ h₄ =>
    Agree.pure rfl h₄

end Lists

/-- **A statement is read alike from any two readers alike**, however deep blocks may be nested. -/
theorem statement_blind (depth : Nat) : Blind true true (statement depth) := by
  induction depth with
  | zero => exact fun r s _ => .refl _
  | succ depth ih =>
    intro r s h
    rw [statement]
    refine skipLineEnds_agree h fun r₁ s₁ h₁ => peek_agree h₁ fun _ _ _ _ _ _ _ =>
      note_agree h₁ fun r₂ s₂ h₂ => peek_agree h₂ fun a b _ _ ha hb htwin => ?_
    have hopened {rest : Read Statement} (hrest : Blind false true rest) (hk : a.kind ≠ .newline) :
        Agree true Eq ((do let _ ← advance; rest) r₂) ((do let _ ← advance; rest) s₂) :=
      advance_known h₂ ha hb hk fun r₃ s₃ h₃ => hrest h₃
    rw [← htwin.kind]
    cases hk : a.kind
    case print => exact hopened printRest_blind (by simp [hk])
    case when =>
      exact hopened (blockRest_blind (statement_ok depth) ih (by decide) (by decide)) (by simp [hk])
    case loop =>
      exact hopened (blockRest_blind (statement_ok depth) ih (by decide) (by decide)) (by simp [hk])
    case label => exact hopened labelRest_blind (by simp [hk])
    case goto => exact hopened gotoRest_blind (by simp [hk])
    case assign => exact hopened assignRest_blind (by simp [hk])
    case input => exact hopened inputRest_blind (by simp [hk])
    all_goals exact refuse_agree (by exact ⟨rfl, rfl⟩) a b

/-- With as many rounds, the statements of a program are read alike. -/
theorem statements_blind (rounds : List Token) : Blind true true (statements rounds) := by
  induction rounds with
  | nil => exact fun r s _ => .refl _
  | cons _ rounds ih =>
    intro r s h
    rw [statements]
    refine skipLineEnds_agree h fun r₁ s₁ h₁ => peek_agree h₁ fun a b _ _ _ _ htwin => ?_
    rw [← htwin.kind]
    split
    · exact Agree.pure rfl h₁.loosen
    · exact (statement_blind maxNesting).bind h₁.loosen fun first r₂ s₂ h₂ =>
        ih.bind h₂ fun rest r₃ s₃ h₃ => Agree.pure rfl h₃

theorem allStatements_blind : Blind true true allStatements := by
  intro r s h
  have hrounds := statements_blind (r.ahead ++ s.ahead) h
  have hfirst : statements (r.ahead ++ s.ahead) r = statements r.ahead r :=
    statements_rounds (by simp) (Nat.le_refl _)
  have hsecond : statements (r.ahead ++ s.ahead) s = statements s.ahead s :=
    statements_rounds (by simp) (Nat.le_refl _)
  rw [hfirst, hsecond] at hrounds
  exact hrounds

/-! ## Whole programs -/

/-- Whether a jump is stray, and to which label, is a matter of the names alone. -/
theorem strayJump_ledger {names names' : Names} (h : names.ledger = names'.ledger) :
    names.strayJump?.map Prod.fst = names'.strayJump?.map Prod.fst := by
  have hjumps : names.jumps.map Prod.fst = names'.jumps.map Prod.fst := congrArg Ledger.jumps h
  have hlabels : names.labels = names'.labels := congrArg Ledger.labels h
  have hfind (names : Names) : names.strayJump?.map Prod.fst =
      (names.jumps.map Prod.fst).find? fun name => !name.isIn names.labels := by
    rw [List.find?_map]
    rfl
  rw [hfind, hfind, hjumps, hlabels]

/-- **Two programs that are twins up to blank lines are read alike.** -/
theorem program_agree (h : (start r).Alike true (start s)) :
    Agree true Eq (Read.program r) (Read.program s) := by
  rw [program_eq, program_eq]
  refine allStatements_blind.bind h fun body r₁ s₁ h₁ => ?_
  rw [bind_eq (get_eq r₁), bind_eq (get_eq s₁)]
  have hstray := strayJump_ledger h₁.ledger
  have hdeclared : r₁.names.declared = s₁.names.declared := congrArg Ledger.declared h₁.ledger
  cases hr : r₁.names.strayJump? with
  | some jump =>
    obtain ⟨jump', hs, hname⟩ : ∃ jump', s₁.names.strayJump? = some jump' ∧ jump'.1 = jump.1 := by
      rw [hr] at hstray
      exact Option.map_eq_some_iff.1 hstray.symm
    rw [hs]
    show Agree true Eq (refuse (.labelUndeclared jump.1) jump.2 r₁)
      (refuse (.labelUndeclared jump'.1) jump'.2 s₁)
    rw [hname]
    exact refuse_agree (by exact ⟨rfl, rfl⟩) _ _
  | none =>
    have hs : s₁.names.strayJump? = none := by
      rw [hr] at hstray
      exact Option.map_eq_none_iff.1 hstray.symm
    rw [hs]
    simp only
    rw [bind_eq (get_eq r₁), bind_eq (get_eq s₁), hdeclared]
    cases sortedValues? s₁.names.declared with
    | none => exact .refl _
    | some declared => exact note_agree h₁ fun _ _ h₂ => Agree.pure rfl h₂

end BasicToC.Read
