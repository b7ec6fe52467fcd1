import BasicToC.Proofs.Reading.Computation

/-!
# Reading what is done

Statements are read exactly as the grammar has them, as far as blocks may be nested.

* `printRest_ok`, `blockRest_ok`, `labelRest_ok`, `gotoRest_ok`, `assignRest_ok`, `inputRest_ok`:
  what stands behind the first word of a statement that has been read.
* `statement_ok`, `statements_ok`: a statement that has been read, and a list of them.
* `statement_takes`, `blockRounds_takes`: statements that are read when they lie ahead.
-/

set_option autoImplicit false

namespace BasicToC.Read

open Reader (Moves)
open Grammar (LineEnds Rows nestingFrom additive multiplicative relational)

variable {r r' : Reader} {a : Statement}

/-! ## Statements that have been read -/

/-- The rest of a statement whose first word is of a given kind. -/
def Follows (kind : Token.Kind) (rest : List Token) (t : Tree) : Prop :=
  ∀ word : Token, word.kind = kind → Grammar.Statement (word :: rest) t

/-- A step that passes blank lines and a statement whenever it ends well. -/
def Sound (f : Read Statement) : Prop :=
  ∀ {r r' : Reader} {a : Statement}, f r = .ok a r' → ∃ blank ts, LineEnds blank ∧
    Grammar.Statement ts a.tree ∧ r.Moves (blank ++ ts) a.tree.mentions r'

theorem printRest_ok (h : printRest r = .ok a r') :
    ∃ ts, Follows .print ts a.tree ∧ r.Moves ts a.tree.mentions r' := by
  unfold printRest at h
  simp only [pure_bind] at h
  obtain ⟨token, rest, ha, h⟩ := peek_bind_ok h
  split at h
  · rename_i hk
    have hk : token.kind = .string := by simpa using hk
    rw [bind_eq (advance_eq ha), if_neg (by simp [hk])] at h
    obtain ⟨_, r₁, hend, h⟩ := bind_ok h
    cases h
    obtain ⟨stop, hs, hm⟩ := lineEnd_ok hend
    exact ⟨[token, stop], fun word hw => .printText hw hk hs, (skip_one ha).trans hm⟩
  · obtain ⟨value, r₁, hvalue, h⟩ := bind_ok h
    obtain ⟨_, r₂, hend, h⟩ := bind_ok h
    cases h
    obtain ⟨ts, hts, hm⟩ := expression_exact.ok hvalue
    obtain ⟨stop, hs, hm'⟩ := lineEnd_ok hend
    exact ⟨ts ++ [stop], fun word hw => .print hw hts hs, hm.trans' hm' rfl (List.append_nil _).symm⟩

theorem labelRest_ok (h : labelRest r = .ok a r') :
    ∃ ts, Follows .label ts a.tree ∧ r.Moves ts a.tree.mentions r' := by
  unfold labelRest at h
  obtain ⟨token, rest, ha, h⟩ := peek_bind_ok h
  obtain ⟨name, r₁, hname, h⟩ := bind_ok h
  rw [bind_eq (get_eq r₁)] at h
  split at h
  · obtain ⟨_, _, hr, -⟩ := bind_ok h
    exact absurd hr refuse_ne_ok
  · rename_i hin
    simp only at h
    rw [bind_eq (modify_eq _ r₁)] at h
    obtain ⟨_, r₂, hend, h⟩ := bind_ok h
    cases h
    obtain ⟨t, ht, rfl, hm⟩ := identifier_ok hname
    obtain ⟨stop, hs, hm'⟩ := lineEnd_ok hend
    have hplace := addLabel_moves (r := r₁) (by simpa using hin)
    exact ⟨[t, stop], fun word hw => .label hw ht hs, (hm.trans hplace).trans hm'⟩

theorem gotoRest_ok (h : gotoRest r = .ok a r') :
    ∃ ts, Follows .goto ts a.tree ∧ r.Moves ts a.tree.mentions r' := by
  unfold gotoRest at h
  obtain ⟨token, rest, ha, h⟩ := peek_bind_ok h
  obtain ⟨name, r₁, hname, h⟩ := bind_ok h
  rw [bind_eq (modify_eq _ r₁)] at h
  obtain ⟨_, r₂, hend, h⟩ := bind_ok h
  cases h
  obtain ⟨t, ht, rfl, hm⟩ := identifier_ok hname
  obtain ⟨stop, hs, hm'⟩ := lineEnd_ok hend
  have hjump := addJump_moves r₁ t.value token
  exact ⟨[t, stop], fun word hw => .goto hw ht hs, (hm.trans hjump).trans hm'⟩

theorem assignRest_ok (h : assignRest r = .ok a r') :
    ∃ ts, Follows .assign ts a.tree ∧ r.Moves ts a.tree.mentions r' := by
  unfold assignRest at h
  obtain ⟨name, r₁, hname, h⟩ := bind_ok h
  rw [bind_eq (modify_eq _ r₁)] at h
  obtain ⟨eq, r₂, heq, h⟩ := bind_ok h
  obtain ⟨value, r₃, hvalue, h⟩ := bind_ok h
  obtain ⟨_, r₄, hend, h⟩ := bind_ok h
  cases h
  obtain ⟨t, ht, rfl, hm⟩ := identifier_ok hname
  obtain ⟨he, hm₂⟩ := expect_ok heq (by decide)
  obtain ⟨ts, hts, hm₃⟩ := expression_exact.ok hvalue
  obtain ⟨stop, hs, hm₄⟩ := lineEnd_ok hend
  have hset := addVariable_moves r₁ t.value
  refine ⟨t :: eq :: ts ++ [stop], fun word hw => .assign hw ht he hts hs, ?_⟩
  exact ((hm.trans hset).trans hm₂).trans' (hm₃.trans hm₄) rfl (by simp [Statement.tree, Tree.mentions])

theorem inputRest_ok (h : inputRest r = .ok a r') :
    ∃ ts, Follows .input ts a.tree ∧ r.Moves ts a.tree.mentions r' := by
  unfold inputRest at h
  obtain ⟨name, r₁, hname, h⟩ := bind_ok h
  rw [bind_eq (modify_eq _ r₁)] at h
  obtain ⟨_, r₂, hend, h⟩ := bind_ok h
  cases h
  obtain ⟨t, ht, rfl, hm⟩ := identifier_ok hname
  obtain ⟨stop, hs, hm'⟩ := lineEnd_ok hend
  have hset := addVariable_moves r₁ t.value
  exact ⟨[t, stop], fun word hw => .input hw ht hs, (hm.trans hset).trans hm'⟩

/-! ## Lists of statements that have been read -/

section Lists

variable {f : Read Statement} {opener middle closer : Token.Kind} {node : Tree → Tree → Tree}
variable {body : List Statement}

theorem Block.mentions (hb : Grammar.Block opener middle closer node) (condition body : Tree) :
    (node condition body).mentions = condition.mentions ++ body.mentions := by
  cases hb <;> rfl

/-- No word of a block ends a line or the program. -/
theorem Block.words (hb : Grammar.Block opener middle closer node) :
    (middle ≠ .newline ∧ middle ≠ .eof) ∧ (closer ≠ .newline ∧ closer ≠ .eof) := by
  cases hb <;> decide

/-- The induction is on the rounds: each passes one statement. -/
theorem blockRounds_ok (hf : Sound f) (hc : closer ≠ .eof) {rounds : List Token}
    (h : blockRounds f opener closer rounds r = .ok body r') :
    ∃ us c t, Rows Grammar.Statement us (Program.tree body) ∧ c.kind = closer ∧ t.kind = .newline ∧
      r.Moves (us ++ [c, t]) (Program.tree body).mentions r' := by
  induction rounds generalizing r body with
  | nil => cases h
  | cons _ rounds ih =>
    rw [blockRounds] at h
    obtain ⟨_, r₁, hskip, h⟩ := bind_ok h
    obtain ⟨blank, hblank, hm⟩ := skipLineEnds_ok hskip
    obtain ⟨token, rest, ha, h⟩ := peek_bind_ok h
    split at h
    · rename_i hk
      have hk : token.kind = closer := by simpa using hk
      rw [bind_eq (advance_eq ha), if_neg (hk ▸ hc)] at h
      obtain ⟨_, r₂, hend, h⟩ := bind_ok h
      cases h
      obtain ⟨stop, hs, hm'⟩ := lineEnd_ok hend
      exact ⟨blank, token, stop, .done hblank, hk, hs, hm.trans ((skip_one ha).trans hm')⟩
    · split at h
      · exact absurd h refuse_ne_ok
      · obtain ⟨first, r₂, hfirst, h⟩ := bind_ok h
        obtain ⟨more, r₃, hmore, h⟩ := bind_ok h
        cases h
        obtain ⟨blank', ts, hblank', hts, hm₂⟩ := hf hfirst
        obtain ⟨us, c, t, hrows, hc, ht, hm₃⟩ := ih hmore
        refine ⟨(blank ++ blank') ++ ts ++ us, c, t,
          .next (hblank.append hblank') hts hrows, hc, ht, ?_⟩
        exact hm.trans' (hm₂.trans hm₃) (by simp) rfl

/-- What stands behind the first word of a block, whichever it is. -/
theorem blockRest_ok (hf : Sound f) (hb : Grammar.Block opener middle closer node)
    {make : Comparison → List Statement → Statement}
    (hmake : ∀ condition body, (make condition body).tree =
      node (Comparison.tree condition) (Program.tree body)) {word : String}
    (h : (do
      let condition ← comparison
      let _ ← expect middle word
      lineEnd middle.spelling
      pure (make condition (← blockOf f opener closer)) : Read Statement) r = .ok a r') :
    ∃ ts, Follows opener ts a.tree ∧ r.Moves ts a.tree.mentions r' := by
  obtain ⟨condition, r₁, hcondition, h⟩ := bind_ok h
  obtain ⟨m, r₂, hmiddle, h⟩ := bind_ok h
  obtain ⟨_, r₃, hend, h⟩ := bind_ok h
  obtain ⟨body, r₄, hbody, h⟩ := bind_ok h
  cases h
  unfold blockOf at hbody
  rw [bind_eq (get_eq r₃)] at hbody
  obtain ⟨ts, hts, hm⟩ := comparison_exact.ok hcondition
  obtain ⟨hmk, hm₂⟩ := expect_ok hmiddle (Block.words hb).1.2
  obtain ⟨s, hs, hm₃⟩ := lineEnd_ok hend
  obtain ⟨us, c, t, hrows, hc, ht, hm₄⟩ := blockRounds_ok hf (Block.words hb).2.2 hbody
  refine ⟨ts ++ m :: s :: us ++ [c, t], fun word hw => ?_, ?_⟩
  · rw [hmake]
    exact .block hb hw hts hmk hs hrows hc ht
  · rw [hmake, Block.mentions hb]
    exact hm.trans' ((hm₂.trans hm₃).trans hm₄) (by simp) rfl

theorem whenRest_ok (hf : Sound f) (h : whenRest f r = .ok a r') :
    ∃ ts, Follows .when ts a.tree ∧ r.Moves ts a.tree.mentions r' :=
  blockRest_ok hf .when (fun _ _ => rfl) h

theorem loopRest_ok (hf : Sound f) (h : loopRest f r = .ok a r') :
    ∃ ts, Follows .loop ts a.tree ∧ r.Moves ts a.tree.mentions r' :=
  blockRest_ok hf .loop (fun _ _ => rfl) h

/-- A first word and what follows it. -/
theorem Follows.sound {kind : Token.Kind} {rest : Read Statement} {token : Token}
    {ahead : List Token} (ha : r.ahead = token :: ahead) (hk : token.kind = kind)
    (hkind : kind ≠ .eof)
    (hrest : ∀ {r r' : Reader} {a : Statement}, rest r = .ok a r' →
      ∃ ts, Follows kind ts a.tree ∧ r.Moves ts a.tree.mentions r')
    (h : (do let _ ← advance; rest) r = .ok a r') :
    ∃ ts, Grammar.Statement ts a.tree ∧ r.Moves ts a.tree.mentions r' := by
  rw [bind_eq (advance_eq ha), if_neg (hk ▸ hkind)] at h
  obtain ⟨ts, hts, hm⟩ := hrest h
  exact ⟨token :: ts, hts token hk, (skip_one ha).trans hm⟩

/-- **A statement that has been read stands in the grammar**, however deep blocks may be nested. -/
theorem statement_ok (depth : Nat) : Sound (statement depth) := by
  induction depth with
  | zero => exact fun h => by cases h
  | succ depth ih =>
    intro r r' a h
    rw [statement] at h
    obtain ⟨_, r₁, hskip, h⟩ := bind_ok h
    obtain ⟨blank, hblank, hm⟩ := skipLineEnds_ok hskip
    obtain ⟨token, rest, ha, h⟩ := peek_bind_ok h
    rw [bind_eq (note_eq _ r₁)] at h
    have hm := hm.trans (note_moves (.statementAt token) r₁)
    obtain ⟨token, rest, ha, h⟩ := peek_bind_ok h
    suffices hst : ∃ ts, Grammar.Statement ts a.tree ∧
        Moves { r₁ with notes := _ } ts a.tree.mentions r' by
      obtain ⟨ts, hts, hm'⟩ := hst
      exact ⟨blank, ts, hblank, hts, hm.trans' hm' (by simp) rfl⟩
    cases hk : token.kind <;> rw [hk] at h
    case print => exact Follows.sound ha hk (by decide) printRest_ok h
    case when => exact Follows.sound ha hk (by decide) (whenRest_ok ih) h
    case loop => exact Follows.sound ha hk (by decide) (loopRest_ok ih) h
    case label => exact Follows.sound ha hk (by decide) labelRest_ok h
    case goto => exact Follows.sound ha hk (by decide) gotoRest_ok h
    case assign => exact Follows.sound ha hk (by decide) assignRest_ok h
    case input => exact Follows.sound ha hk (by decide) inputRest_ok h
    all_goals exact absurd h refuse_ne_ok

theorem statements_ok {rounds : List Token} (h : statements rounds r = .ok body r') :
    ∃ us, Rows Grammar.Statement us (Program.tree body) ∧
      r.Moves us (Program.tree body).mentions r' ∧
      ∃ token rest, r'.ahead = token :: rest ∧ token.kind = .eof := by
  induction rounds generalizing r body with
  | nil => cases h
  | cons _ rounds ih =>
    rw [statements] at h
    obtain ⟨_, r₁, hskip, h⟩ := bind_ok h
    obtain ⟨blank, hblank, hm⟩ := skipLineEnds_ok hskip
    obtain ⟨token, rest, ha, h⟩ := peek_bind_ok h
    split at h
    · rename_i hk
      cases h
      exact ⟨blank, .done hblank, hm, token, rest, ha, by simpa using hk⟩
    · obtain ⟨first, r₂, hfirst, h⟩ := bind_ok h
      obtain ⟨more, r₃, hmore, h⟩ := bind_ok h
      cases h
      obtain ⟨blank', ts, hblank', hts, hm₂⟩ := statement_ok _ hfirst
      obtain ⟨us, hrows, hm₃, hend⟩ := ih hmore
      refine ⟨(blank ++ blank') ++ ts ++ us, .next (hblank.append hblank') hts hrows, ?_,
        hend⟩
      exact hm.trans' (hm₂.trans hm₃) (by simp) rfl

end Lists

/-! ## Statements that lie ahead -/

/-- A step that reads some tokens into a tree whenever they lie ahead and their names pass. -/
def Takes (f : Read Statement) (ts : List Token) (t : Tree) : Prop :=
  ∀ ⦃r : Reader⦄ ⦃token : Token⦄ ⦃rest : List Token⦄, r.ahead = ts ++ token :: rest →
    r.names.ledger.Allows t.mentions →
    ∃ a r', f r = .ok a r' ∧ a.tree = t ∧ r.Moves ts t.mentions r'

section Rests

variable {ts : List Token} {value : Tree} {name text eq stop : Token}

theorem printRest_takes (he : Grammar.Expression ts value) (hs : stop.kind = .newline) :
    Takes printRest (ts ++ [stop]) (.print value) := by
  intro r token rest ha hn
  have ha : r.ahead = ts ++ stop :: token :: rest := by simpa using ha
  obtain ⟨first, us, hts, hfirst⟩ := Grammar.Expression.first he
  obtain ⟨e, r₁, hr, rfl, hm⟩ := expression_exact.takes he ha (by rw [hs]; decide) hn
  obtain ⟨r₂, hend, hm'⟩ := lineEnd_takes "PRINT" (hm.ahead_eq ha) hs
  refine ⟨.print e, r₂, ?_, rfl, hm.trans' hm' rfl (List.append_nil _).symm⟩
  unfold printRest
  simp only [pure_bind]
  rw [bind_eq (peek_eq (by rw [ha, hts]; rfl)), if_neg (by simpa using hfirst), bind_eq hr,
    bind_eq hend]
  rfl

theorem printTextRest_takes (ht : text.kind = .string) (hs : stop.kind = .newline) :
    Takes printRest [text, stop] (.printText (.leaf text.value)) := by
  intro r token rest ha _
  obtain ⟨r₁, hadv, hm⟩ := advance_takes ha (by simp [ht])
  obtain ⟨r₂, hend, hm'⟩ := lineEnd_takes "PRINT" (hm.ahead_eq ha) hs
  refine ⟨.printText text.value, r₂, ?_, rfl, hm.trans hm'⟩
  unfold printRest
  simp only [pure_bind]
  rw [bind_eq (peek_eq ha), if_pos (by simp [ht]), bind_eq hadv, bind_eq hend]
  rfl

theorem labelRest_takes (hk : name.kind = .ident) (hs : stop.kind = .newline) :
    Takes labelRest [name, stop] (.label (.leaf name.value)) := by
  intro r token rest ha hn
  obtain ⟨r₁, hname, hm⟩ := identifier_takes "LABEL" ha hk
  have hfresh : name.value.isIn r₁.names.labels = false := (hm.still hn).1
  have hm := hm.trans (addLabel_moves hfresh)
  obtain ⟨r₂, hend, hm'⟩ := lineEnd_takes "LABEL" (hm.ahead_eq ha) hs
  refine ⟨.label name.value, r₂, ?_, rfl, hm.trans hm'⟩
  unfold labelRest
  rw [bind_eq (peek_eq ha), bind_eq hname, bind_eq (get_eq r₁)]
  simp only [hfresh, Bool.false_eq_true, if_false]
  rw [bind_eq (modify_eq _ r₁), bind_eq hend]
  rfl

theorem gotoRest_takes (hk : name.kind = .ident) (hs : stop.kind = .newline) :
    Takes gotoRest [name, stop] (.goto (.leaf name.value)) := by
  intro r token rest ha _
  obtain ⟨r₁, hname, hm⟩ := identifier_takes "GOTO" ha hk
  have hm := hm.trans (addJump_moves r₁ name.value name)
  obtain ⟨r₂, hend, hm'⟩ := lineEnd_takes "GOTO" (hm.ahead_eq ha) hs
  refine ⟨.goto name.value, r₂, ?_, rfl, hm.trans hm'⟩
  unfold gotoRest
  rw [bind_eq (peek_eq ha), bind_eq hname, bind_eq (modify_eq _ r₁), bind_eq hend]
  rfl

theorem assignRest_takes (hk : name.kind = .ident) (he : eq.kind = .eq)
    (hx : Grammar.Expression ts value) (hs : stop.kind = .newline) :
    Takes assignRest (name :: eq :: ts ++ [stop]) (.assign (.leaf name.value) value) := by
  intro r token rest ha hn
  have ha : r.ahead = name :: eq :: (ts ++ stop :: token :: rest) := by simpa using ha
  obtain ⟨r₁, hname, hm⟩ := identifier_takes "LET" ha hk
  have hm := hm.trans (addVariable_moves r₁ name.value)
  obtain ⟨r₂, heq, hm₂⟩ := expect_takes ("LET " ++ name.value.shown) (hm.ahead_eq ha) he (by decide)
  have hm₂ := hm.trans hm₂
  have ha₂ : r₂.ahead = ts ++ stop :: token :: rest := hm₂.ahead_eq ha
  obtain ⟨e, r₃, hr, rfl, hm₃⟩ := expression_exact.takes hx ha₂ (by rw [hs]; decide) (hm₂.allows hn)
  obtain ⟨r₄, hend, hm₄⟩ := lineEnd_takes "LET" (hm₃.ahead_eq ha₂) hs
  refine ⟨.assign name.value e, r₄, ?_, rfl,
    hm₂.trans' (hm₃.trans hm₄) rfl (by simp [Tree.mentions])⟩
  unfold assignRest
  rw [bind_eq hname, bind_eq (modify_eq _ r₁), bind_eq heq, bind_eq hr, bind_eq hend]
  rfl

theorem inputRest_takes (hk : name.kind = .ident) (hs : stop.kind = .newline) :
    Takes inputRest [name, stop] (.input (.leaf name.value)) := by
  intro r token rest ha _
  obtain ⟨r₁, hname, hm⟩ := identifier_takes "INPUT" ha hk
  have hm := hm.trans (addVariable_moves r₁ name.value)
  obtain ⟨r₂, hend, hm'⟩ := lineEnd_takes "INPUT" (hm.ahead_eq ha) hs
  refine ⟨.input name.value, r₂, ?_, rfl, hm.trans hm'⟩
  unfold inputRest
  rw [bind_eq hname, bind_eq (modify_eq _ r₁), bind_eq hend]
  rfl

end Rests

/-! ## Lists of statements that lie ahead -/

section Lists

variable {f : Read Statement} {opener middle closer : Token.Kind} {node : Tree → Tree → Tree}
variable {ts us : List Token} {t condition : Tree} {c s m stop : Token}

/-- A statement that the grammar derives and that a step reads. -/
def Readable (f : Read Statement) (ts : List Token) (t : Tree) : Prop :=
  Grammar.Statement ts t ∧ Takes f ts t

/-- One round: blank lines are passed, and the statement behind them is read. -/
theorem row_takes {blank more : List Token} {r : Reader} (hblank : LineEnds blank)
    (h : Readable f ts t) (ha : r.ahead = blank ++ ts ++ more) (hmore : more ≠ [])
    (hn : r.names.ledger.Allows t.mentions) :
    ∃ word r₁ a r₂, word.kind ∈ Grammar.openers ∧ skipLineEnds r = .ok () r₁ ∧
      peek r₁ = .ok word r₁ ∧ f r₁ = .ok a r₂ ∧ a.tree = t ∧
      r.Moves (blank ++ ts) t.mentions r₂ ∧ r₂.ahead.length < r.ahead.length := by
  obtain ⟨word, tail, rfl, hword⟩ := h.1.first
  obtain ⟨x, xs, rfl⟩ := List.exists_cons_of_ne_nil hmore
  have hw : word.kind ≠ .newline := fun he => by
    rw [he] at hword
    exact absurd hword (by decide)
  have ha : r.ahead = blank ++ word :: (tail ++ x :: xs) := by simpa using ha
  obtain ⟨r₁, hskip, hm⟩ := skipLineEnds_takes ha hblank hw
  have ha₁ : r₁.ahead = (word :: tail) ++ x :: xs := hm.ahead_eq ha
  obtain ⟨a, r₂, hr, ht, hm₂⟩ := h.2 ha₁ (hm.still hn)
  refine ⟨word, r₁, a, r₂, hword, hskip, peek_eq ha₁, hr, ht, hm.trans hm₂, ?_⟩
  have ha₂ := hm₂.ahead_eq ha₁
  simp only [ha, ha₂, List.length_append, List.length_cons]
  omega

/-- The statements of a block are read one in each round, and its end in the last. -/
theorem blockRounds_takes (hb : Grammar.Block opener middle closer node)
    (hrows : Rows (Readable f) us t) (hc : c.kind = closer) (hs : stop.kind = .newline)
    {r : Reader} {token : Token} {rest rounds : List Token}
    (ha : r.ahead = us ++ c :: stop :: token :: rest) (hlen : r.ahead.length ≤ rounds.length)
    (hn : r.names.ledger.Allows t.mentions) :
    ∃ body r', blockRounds f opener closer rounds r = .ok body r' ∧ Program.tree body = t ∧
      r.Moves (us ++ [c, stop]) t.mentions r' := by
  obtain ⟨-, hnewline, heof⟩ := Block.words hb
  induction hrows generalizing r rounds with
  | @done blank hblank =>
    cases rounds with
    | nil => simp [ha] at hlen
    | cons _ rounds =>
      obtain ⟨r₁, hskip, hm⟩ := skipLineEnds_takes ha hblank (hc ▸ hnewline)
      have ha₁ := hm.ahead_eq ha
      obtain ⟨r₂, hadv, hm₂⟩ := advance_takes ha₁ (hc ▸ heof)
      obtain ⟨r₃, hend, hm₃⟩ := lineEnd_takes closer.spelling (hm₂.ahead_eq ha₁) hs
      refine ⟨[], r₃, ?_, rfl, hm.trans (hm₂.trans hm₃)⟩
      rw [blockRounds, bind_eq hskip, bind_eq (peek_eq ha₁), if_pos (by simp [hc]), bind_eq hadv,
        bind_eq hend]
      rfl
  | @next blank ts vs first others hblank hfirst _ ih =>
    cases rounds with
    | nil =>
      rw [ha] at hlen
      simp at hlen
    | cons _ rounds =>
      have ha : r.ahead = blank ++ ts ++ (vs ++ c :: stop :: token :: rest) := by simpa using ha
      obtain ⟨word, r₁, a, r₂, hword, hskip, hpeek, hr, rfl, hm, hlt⟩ :=
        row_takes hblank hfirst ha (by simp) (Ledger.allows_append.1 hn).1
      have hne : word.kind ≠ closer ∧ word.kind ≠ .eof := by
        refine ⟨?_, ?_⟩ <;> intro he <;> rw [he] at hword
        · exact absurd hword (by cases hb <;> decide)
        · exact absurd hword (by decide)
      have hlen₂ : r₂.ahead.length ≤ rounds.length := by
        rw [List.length_cons] at hlen
        omega
      obtain ⟨body, r₃, hrs, rfl, hm₃⟩ := ih (hm.ahead_eq ha) hlen₂ (hm.allows hn)
      refine ⟨a :: body, r₃, ?_, rfl, hm.trans' hm₃ (by simp) rfl⟩
      rw [blockRounds, bind_eq hskip, bind_eq hpeek, if_neg (by simpa using hne.1),
        if_neg (by simpa using hne.2), bind_eq hr, bind_eq hrs]
      rfl

/-- What stands behind the first word of a block is read, whichever block it is. -/
theorem blockRest_takes (hb : Grammar.Block opener middle closer node)
    (make : Comparison → List Statement → Statement)
    (hmake : ∀ condition body, (make condition body).tree =
      node (Comparison.tree condition) (Program.tree body)) (word : String)
    (hcondition : Grammar.Comparison ts condition) (hm : m.kind = middle) (hs : s.kind = .newline)
    (hrows : Rows (Readable f) us t) (hc : c.kind = closer) (hstop : stop.kind = .newline) :
    Takes (do
      let condition ← comparison
      let _ ← expect middle word
      lineEnd middle.spelling
      pure (make condition (← blockOf f opener closer)))
      (ts ++ m :: s :: us ++ [c, stop]) (node condition t) := by
  intro r token rest ha hn
  rw [Block.mentions hb] at hn ⊢
  have ha : r.ahead = ts ++ m :: s :: (us ++ c :: stop :: token :: rest) := by simpa using ha
  have hmid : m.kind ∉ relational ++ (additive ++ multiplicative) := by
    rw [hm]
    cases hb <;> decide
  obtain ⟨e, r₁, hr, rfl, hm₁⟩ :=
    comparison_exact.takes hcondition ha hmid (Ledger.allows_append.1 hn).1
  have ha₁ := hm₁.ahead_eq ha
  obtain ⟨r₂, hex, hm₂⟩ := expect_takes word ha₁ hm (Block.words hb).1.2
  have ha₂ := hm₂.ahead_eq ha₁
  obtain ⟨r₃, hend, hm₃⟩ := lineEnd_takes middle.spelling ha₂ hs
  have ha₃ := hm₃.ahead_eq ha₂
  have hn₃ := hm₃.still (hm₂.still (hm₁.allows hn))
  obtain ⟨body, r₄, hbody, rfl, hm₄⟩ :=
    blockRounds_takes hb hrows hc hstop ha₃ (Nat.le_refl _) hn₃
  refine ⟨make e body, r₄, ?_, hmake e body, ?_⟩
  · unfold blockOf
    rw [bind_eq hr, bind_eq hex, bind_eq hend, bind_eq ((bind_eq (get_eq r₃)).trans hbody)]
    rfl
  · exact hm₁.trans' ((hm₂.trans hm₃).trans hm₄) (by simp) rfl

/-- How the rest of a statement is read, given its first word. -/
def rest? (depth : Nat) : Token.Kind → Option (Read Statement)
  | .print => some printRest
  | .when => some (whenRest (statement depth))
  | .loop => some (loopRest (statement depth))
  | .label => some labelRest
  | .goto => some gotoRest
  | .assign => some assignRest
  | .input => some inputRest
  | _ => none

/-- The first word of a statement is read, and then the rest. -/
theorem statement_word {depth : Nat} {r : Reader} {word : Token} {ahead : List Token}
    (ha : r.ahead = word :: ahead) (hf : rest? depth word.kind = some f) :
    ∃ r', r.Moves [word] [] r' ∧ statement (depth + 1) r = f r' := by
  have hk : word.kind ≠ .newline ∧ word.kind ≠ .eof := by
    refine ⟨?_, ?_⟩ <;> intro he <;> simp [he, rest?] at hf
  obtain ⟨r₁, hskip, hm⟩ := skipLineEnds_takes ha LineEnds.nil hk.1
  have ha₁ := hm.ahead_eq ha
  have hm := hm.trans (note_moves (.statementAt word) r₁)
  have ha₂ := hm.ahead_eq ha
  obtain ⟨r₂, hadv, hm₂⟩ := advance_takes ha₂ hk.2
  refine ⟨r₂, hm.trans hm₂, ?_⟩
  rw [statement, bind_eq hskip, bind_eq (peek_eq ha₁), bind_eq (note_eq _ r₁), bind_eq (peek_eq ha₂)]
  cases hw : word.kind <;> rw [hw] at hf <;> simp only [rest?, Option.some.injEq, reduceCtorEq] at hf
  all_goals
    subst hf
    exact bind_eq hadv

/-- The rest of a statement that is read makes the statement be read. -/
theorem Takes.statement {depth : Nat} {word : Token} (hf : rest? depth word.kind = some f)
    (h : Takes f ts t) : Takes (statement (depth + 1)) (word :: ts) t := by
  intro r token rest ha hn
  obtain ⟨r₁, hm, heq⟩ := statement_word ha hf
  obtain ⟨a, r', hr, ht, hm'⟩ := h (hm.ahead_eq ha) (hm.still hn)
  exact ⟨a, r', heq.trans hr, ht, hm.trans hm'⟩

/-- **Every statement of the grammar is read** at a depth that its nesting leaves open. The level
says how many blocks stand open around it. -/
theorem statement_takes (h : Grammar.Statement ts t) (level depth : Nat)
    (hd : nestingFrom level ts < level + depth) : Takes (statement depth) ts t := by
  revert level depth
  refine Grammar.Statement.induction (motive := fun ts t => ∀ level depth : Nat,
    nestingFrom level ts < level + depth → Takes (statement depth) ts t) ?_ h
  intro ts t h ih level depth hd
  cases depth with
  | zero =>
    have := Grammar.level_le_nestingFrom level ts
    omega
  | succ depth =>
    cases h with
    | print hw he hs => exact (printRest_takes he hs).statement (by rw [hw]; rfl)
    | printText hw ht hs => exact (printTextRest_takes ht hs).statement (by rw [hw]; rfl)
    | label hw hn hs => exact (labelRest_takes hn hs).statement (by rw [hw]; rfl)
    | goto hw hn hs => exact (gotoRest_takes hn hs).statement (by rw [hw]; rfl)
    | assign hw hn he hx hs => exact (assignRest_takes hn he hx hs).statement (by rw [hw]; rfl)
    | input hw hn hs => exact (inputRest_takes hn hs).statement (by rw [hw]; rfl)
    | @block opener middle closer node o m s c stop ts us condition body hb ho hc hm hs hrows hcl
        hstop =>
      -- The body stands one level further in, where the depth is one less.
      have hbody : Rows (Readable (statement depth)) us body := by
        refine (hrows.within (level + 1)).mono fun vs v hvs hv => ⟨hv.1, ih vs v ?_ hv.1 (level + 1) depth ?_⟩
        · simp only [List.length_append, List.length_cons]
          omega
        · have := hb.deeper ho hc.flat hm hs level us [c, stop]
          omega
      cases hb with
      | when =>
        exact (blockRest_takes .when .when (fun _ _ => rfl) "IF" hc hm hs hbody hcl hstop).statement
          (by rw [ho]; rfl)
      | loop =>
        exact (blockRest_takes .loop .loop (fun _ _ => rfl) "WHILE" hc hm hs hbody hcl hstop).statement
          (by rw [ho]; rfl)

end Lists

end BasicToC.Read
