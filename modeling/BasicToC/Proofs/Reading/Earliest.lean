import BasicToC.Proofs.Grammar.Completion
import BasicToC.Proofs.Reading.Prompt

/-!
# No complaint comes late

Every part of a program is read promptly: when a token is complained of, what stands in front of it
can still be finished.

* `operand_prompt`, `factor_prompt`, `allLinks_prompt`, `expression_prompt`, `comparison_prompt`:
  computations, which keep no names.
* `printRest_prompt`, `labelRest_prompt`, `gotoRest_prompt`, `assignRest_prompt`, `inputRest_prompt`,
  `blockRest_prompt`: what follows the first word of a statement.
* `statement_prompt`, `allStatements_prompt`: statements, and lists of them.
-/

set_option autoImplicit false

namespace BasicToC.Read

open Grammar (LineEnds Listing Plain Viable Begun Body mark one nameOf plain_mark plain_line
  plain_one plain_name exists_fresh body_listing program_listing)

variable {α β Op : Type} {f : Read α} {r r' : Reader}
variable {viable viable' : List Token → Prop} {names : List Token → Names}

/-! ## What is computed -/

/-- A number or a variable is complained of before anything has been passed. -/
theorem operand_prompt (hv : viable []) : Prompt operand r viable fun _ => r.names := by
  unfold operand
  refine peek_prompt fun first rest ha => note_prompt ?_
  refine advance_prompt fun token rest' ha' => ?_
  cases hk : token.kind
  case integer => exact .inr ⟨by simp, Prompt.pure rfl⟩
  case float => exact .inr ⟨by simp, Prompt.pure rfl⟩
  case ident =>
    by_cases hin : token.value.isIn r.names.declared = true
    · refine .inr ⟨by simp, get_prompt (f := pure (.variable token.value)) (fun s hs => ?_)
        (Prompt.pure rfl)⟩
      rw [hs]
      exact if_pos hin
    · refine .inl ⟨hv, .variableUnassigned token.value, ⟨hk, rfl⟩, fun s hs => ?_⟩
      simp only
      rw [bind_eq (get_eq s), hs, if_neg hin]
  all_goals exact .inl ⟨hv, .operandExpected token, rfl, fun _ _ => rfl⟩

theorem factor_prompt (r : Reader) :
    Prompt factor r (Viable Grammar.Factor r.names.ledger) fun _ => r.names := by
  have hplain : Grammar.Factor [one] (.unary (.integer (.leaf one.value)) .nothing) :=
    .plain (.integer rfl)
  unfold factor
  refine peek_prompt fun token rest ha => ?_
  cases hsign : Additive.ofKind? token.kind with
  | some sign =>
    have hmem := (additive_level.read hsign).2
    have hsigned : Grammar.Factor [token, one]
        (.unary (.integer (.leaf one.value)) (.symbol token.kind)) := .signed hmem (.integer rfl)
    refine advance_prompt fun t rest' ha' => .inr ⟨?_, ?_⟩
    all_goals obtain ⟨rfl, -⟩ := List.cons_eq_cons.1 (ha'.symm.trans ha)
    · exact fun he => additive_level.proper (he ▸ hmem)
    · refine Prompt.bind (operand_prompt ?_) (fun _ h => h) fun a r' ts _ _ hn => Prompt.pure hn
      exact ⟨[one], _, plain_one, hsigned, trivial⟩
  | none =>
    refine Prompt.bind (operand_prompt ?_) (fun _ h => h) fun a r' ts _ _ hn => Prompt.pure hn
    exact ⟨[one], _, plain_one, hplain, trivial⟩

/-- A computation that is read exactly and keeps no names, and what follows it. -/
theorem Prompt.computed {tree : α → Tree} {derives : List Token → Tree → Prop}
    {avoid : List Token.Kind} {g : α → Read β} (hexact : Exact f tree derives avoid)
    (hf : Prompt f r viable' fun _ => r.names) (hviable : ∀ passed, viable' passed → viable passed)
    (hg : ∀ a r' ts, derives ts (tree a) → r.ahead = ts ++ r'.ahead → r'.names = r.names →
      r.names.ledger.Allows (tree a).mentions →
      r.names.ledger = r.names.ledger.record (tree a).mentions →
      Prompt (g a) r' (fun passed => viable (ts ++ passed)) fun us => names (ts ++ us)) :
    Prompt (f >>= g) r viable names := by
  refine hf.bind hviable fun a r' ts hp ha hn => ?_
  obtain ⟨us, hus, hm⟩ := hexact.ok hp
  obtain rfl : ts = us := List.append_cancel_right (ha.symm.trans hm.ahead)
  have hledger : r.names.ledger = r.names.ledger.record (tree a).mentions := by
    rw [← hm.ledger, hn]
  exact hg a r' ts hus ha hn hm.allowed hledger

section Chains

variable {operator? : Token.Kind → Option Op} {kind : Op → Token.Kind}
variable {operators avoid : List Token.Kind} {node : Tree → Tree → Tree → Tree}
variable {tree : α → Tree} {derives : List Token → Tree → Prop}

/-- An operand is a chain of one. -/
theorem Level.viable_last (hl : Level operator? kind operators node) {ledger : Ledger}
    {passed : List Token} (h : Viable derives ledger passed) :
    Viable (Grammar.Chain operators node derives) ledger passed := by
  refine h.map fun ts t ht => ⟨node t .nothing .nothing, .last ht, ?_⟩
  rw [hl.mentions]
  simp [Tree.mentions]

/-- Behind an operand and an operator any chain may follow. -/
theorem Level.viable_link (hl : Level operator? kind operators node) {ledger : Ledger}
    {ts passed : List Token} {t : Tree} {token : Token} (ht : derives ts t)
    (htoken : token.kind ∈ operators) (hallows : ledger.Allows t.mentions)
    (h : Viable (Grammar.Chain operators node derives) (ledger.record t.mentions) passed) :
    Viable (Grammar.Chain operators node derives) ledger (ts ++ token :: passed) := by
  have hfront : ts ++ token :: passed = ts ++ [token] ++ passed := by simp
  rw [hfront]
  refine Viable.wrap _ [] t.mentions h hallows Plain.nil fun us u hu =>
    ⟨node t (.symbol token.kind) u, ?_, hl.mentions _ _ _⟩
  simpa using Grammar.Chain.link ht htoken hu

/-- What follows the first operand of a chain. The induction is on the tokens ahead, of which each
round passes an operator at least. -/
theorem allLinks_prompt (hl : Level operator? kind operators node)
    (hexact : Exact f tree derives avoid)
    (hf : ∀ r, Prompt f r (Viable derives r.names.ledger) fun _ => r.names) {ts : List Token}
    {t : Tree} (ht : derives ts t) (hallows : r.names.ledger.Allows t.mentions)
    (hledger : r.names.ledger = r.names.ledger.record t.mentions) :
    Prompt (allLinks operator? f) r
      (fun passed => Viable (Grammar.Chain operators node derives) r.names.ledger (ts ++ passed))
      fun _ => r.names := by
  induction hn : r.ahead.length using Nat.strongRecOn generalizing r ts t with
  | ind n ih =>
    rw [allLinks_eq hl hexact.onward]
    refine peek_prompt fun token rest ha => ?_
    cases hop : operator? token.kind with
    | none => exact Prompt.pure rfl
    | some operator =>
      have hmem := (hl.read hop).2
      refine advance_prompt fun s rest' ha' => .inr ?_
      obtain ⟨rfl, rfl⟩ := List.cons_eq_cons.1 (ha'.symm.trans ha)
      refine ⟨fun he => hl.proper (he ▸ hmem), ?_⟩
      refine Prompt.computed hexact (hf (r.skip 1)) (fun passed h => ?_)
        fun right r₂ us hus ha₂ hn₂ hallows₂ hledger₂ => ?_
      · exact hl.viable_link ht hmem hallows (hledger ▸ hl.viable_last h)
      · have hnames : r₂.names = r.names := hn₂
        have hshort : r₂.ahead.length < n := by
          have hskip : (r.skip 1).ahead = rest' := by simp [Reader.skip, ha]
          have hlen := congrArg List.length (hskip.symm.trans ha₂)
          rw [← hn, ha, List.length_cons]
          rw [List.length_append] at hlen
          omega
        have hmore := ih _ hshort hus (hnames ▸ hallows₂) (hnames ▸ hledger₂) rfl
        refine hmore.bind (fun passed h => ?_) fun others r₃ vs _ _ hn₃ => Prompt.pure ?_
        · rw [hnames] at h
          exact hl.viable_link ht hmem hallows (hledger ▸ h)
        · exact hn₃.trans hnames

/-- **Operands that are read promptly make chains that are read promptly.** -/
theorem chain_prompt (hl : Level operator? kind operators node)
    (hexact : Exact f tree derives avoid)
    (hf : ∀ r, Prompt f r (Viable derives r.names.ledger) fun _ => r.names) (r : Reader) :
    Prompt (chain operator? f) r (Viable (Grammar.Chain operators node derives) r.names.ledger)
      fun _ => r.names := by
  rw [chain_eq]
  refine Prompt.computed hexact (hf r) (fun passed h => hl.viable_last h)
    fun first r' ts hts ha hn hallows hledger => ?_
  have hmore := allLinks_prompt hl hexact hf hts (hn ▸ hallows) (hn ▸ hledger)
  rw [hn] at hmore
  exact hmore.bind (fun _ h => h) fun others r₂ us _ _ hn₂ => Prompt.pure hn₂

end Chains

theorem term_prompt (r : Reader) :
    Prompt term r (Viable Grammar.Term r.names.ledger) fun _ => r.names :=
  chain_prompt multiplicative_level factor_exact factor_prompt r

theorem expression_prompt (r : Reader) :
    Prompt expression r (Viable Grammar.Expression r.names.ledger) fun _ => r.names :=
  chain_prompt additive_level term_exact term_prompt r

theorem comparison_prompt (r : Reader) :
    Prompt comparison r (Viable Grammar.Comparison r.names.ledger) fun _ => r.names := by
  unfold comparison
  refine peek_prompt fun first rest ha => note_prompt ?_
  exact chain_prompt relational_level expression_exact expression_prompt _

/-! ## What follows the first word of a statement -/

/-- What follows the first word of a statement is read promptly. -/
def PromptBehind (word : Token) (rest : Read Statement) : Prop :=
  ∀ r : Reader, Prompt rest r
    (fun passed => Viable Grammar.Statement r.names.ledger (word :: passed))
    fun ts => r.names.follow (word :: ts)

section Rests

variable {word : Token}

theorem printRest_prompt (hw : word.kind = .print) : PromptBehind word printRest := by
  intro r
  have hquiet : word.kind ∉ Grammar.naming := by rw [hw]; decide
  unfold printRest
  simp only [pure_bind]
  refine peek_prompt fun token rest ha => ?_
  split
  · rename_i hk
    have hk : token.kind = .string := by simpa using hk
    refine advance_prompt fun t rest' ha' => .inr ?_
    obtain ⟨rfl, -⟩ := List.cons_eq_cons.1 (ha'.symm.trans ha)
    refine ⟨by simp [hk], ended_prompt ?_ fun stop _ => ?_⟩
    · exact ⟨[mark .newline], _, plain_line, .printText hw hk rfl, trivial⟩
    · rw [Names.follow_cons hquiet, Names.follow_cons (by rw [hk]; decide)]
      rfl
  · refine Prompt.computed expression_exact (expression_prompt r) (fun passed h => ?_)
      fun value r' ts hts _ hn hallows _ => ended_prompt ?_ fun stop _ => ?_
    · exact Viable.wrap [word] [mark .newline] [] h trivial plain_line
        fun us u hu => ⟨.print u, .print hw hu rfl, rfl⟩
    · rw [List.append_nil]
      exact ⟨[mark .newline], _, plain_line, .print hw hts rfl, hallows⟩
    · rw [hn, Names.follow_cons hquiet, Names.follow_line hts.quiet]

theorem labelRest_prompt (hw : word.kind = .label) : PromptBehind word labelRest := by
  intro r
  -- Some name is still left for a label.
  have hbad : Viable Grammar.Statement r.names.ledger [word] := by
    obtain ⟨s, hfresh⟩ := exists_fresh r.names.labels
    exact ⟨[nameOf s, mark .newline], _, (plain_name s).cons plain_line,
      .label hw rfl rfl, hfresh, trivial⟩
  unfold labelRest
  refine peek_prompt fun token rest ha => ?_
  rw [identifier_bind]
  refine advance_prompt fun t rest' ha' => ?_
  obtain ⟨rfl, -⟩ := List.cons_eq_cons.1 (ha'.symm.trans ha)
  by_cases hk : t.kind = .ident
  · simp only [hk, bne_self_eq_false, Bool.false_eq_true, if_false]
    by_cases hin : t.value.isIn r.names.labels = true
    · refine .inl ⟨hbad, .labelRepeated t.value, ⟨hk, rfl⟩, fun s hs => ?_⟩
      rw [bind_eq (get_eq s), hs, if_pos hin, refuse_bind]
    · refine .inr ⟨by decide, get_prompt (f := do
        modify fun reader => { reader with names := reader.names.addLabel t.value }
        lineEnd "LABEL"
        pure (.label t.value)) (fun s hs => ?_) ?_⟩
      · rw [hs]
        exact if_neg hin
      refine change_prompt (fun _ _ => rfl) (ended_prompt ?_ fun stop _ => ?_)
      · exact ⟨[mark .newline], _, plain_line, .label hw hk rfl,
          Bool.eq_false_iff.2 hin, trivial⟩
      · rw [Names.follow_named hk]
        simp [Names.meet, hw, hk, Names.follow, Reader.skip]
  · refine .inl ⟨hbad, .identifierExpected "LABEL" t, rfl, fun s _ => ?_⟩
    simp [hk]

theorem gotoRest_prompt (hw : word.kind = .goto) : PromptBehind word gotoRest := by
  intro r
  unfold gotoRest
  refine peek_prompt fun token rest ha => identifier_prompt ?_ fun t rest' ha' hk => ?_
  · exact ⟨[nameOf "x", mark .newline], _, (plain_name "x").cons plain_line,
      .goto hw rfl rfl, trivial, trivial⟩
  · obtain ⟨rfl, -⟩ := List.cons_eq_cons.1 (ha'.symm.trans ha)
    refine change_prompt (fun _ _ => rfl) (ended_prompt ?_ fun stop _ => ?_)
    · exact ⟨[mark .newline], _, plain_line, .goto hw hk rfl, trivial, trivial⟩
    · rw [Names.follow_named hk]
      simp [Names.meet, hw, hk, Names.follow, Reader.skip]

theorem inputRest_prompt (hw : word.kind = .input) : PromptBehind word inputRest := by
  intro r
  unfold inputRest
  refine identifier_prompt ?_ fun t rest ha hk => ?_
  · exact ⟨[nameOf "x", mark .newline], _, (plain_name "x").cons plain_line,
      .input hw rfl rfl, trivial, trivial⟩
  · refine change_prompt (fun _ _ => rfl) (ended_prompt ?_ fun stop _ => ?_)
    · exact ⟨[mark .newline], _, plain_line, .input hw hk rfl, trivial, trivial⟩
    · rw [Names.follow_named hk]
      simp [Names.meet, hw, hk, Names.follow, Reader.skip]

theorem assignRest_prompt (hw : word.kind = .assign) : PromptBehind word assignRest := by
  intro r
  have hone : Grammar.Expression [one] _ := .last (.last (.plain (.integer rfl)))
  have hfinished {name eq : Token} (hn : name.kind = .ident) (he : eq.kind = .eq) :
      Viable Grammar.Statement r.names.ledger [word, name, eq] :=
    ⟨[one, mark .newline], _, plain_one.cons plain_line, .assign hw hn he hone rfl, trivial, trivial⟩
  have heq : Plain [mark .eq] := plain_mark (by decide)
  unfold assignRest
  refine identifier_prompt ?_ fun name rest ha hn => ?_
  · exact Viable.shorten [nameOf "x", mark .eq] (hfinished rfl rfl) ((plain_name "x").cons heq)
  refine change_prompt (fun _ _ => rfl) (expect_prompt (by decide) ?_ fun eq rest' ha' he => ?_)
  · exact Viable.shorten [mark .eq] (hfinished hn rfl) heq
  refine Prompt.computed expression_exact (expression_prompt _) (fun passed h => ?_)
    fun value r' ts hts _ hkept hallows _ => ended_prompt ?_ fun stop _ => ?_
  · exact Viable.wrap [word, name, eq] [mark .newline] [.sets name.value] h ⟨trivial, trivial⟩
      plain_line fun us u hu => ⟨_, .assign hw hn he hu rfl, rfl⟩
  · rw [List.append_nil]
    exact ⟨[mark .newline], _, plain_line, .assign hw hn he hts rfl, trivial, hallows⟩
  · rw [Names.follow_named hn, Names.follow_cons (by rw [he]; decide), Names.follow_line hts.quiet,
      hkept]
    simp [Names.meet, hw, hn, Reader.skip]

end Rests

/-! ## Lists of statements -/

section Lists

variable {f : Read Statement} {rows : List Token → Tree → Prop} {blank : List Token}

/-- One statement of a list, behind blank lines, and then the others. -/
theorem further_prompt (hrows : Listing rows) (hs : Sound f)
    (hf : ∀ r, Prompt f r (Begun r.names.ledger) r.names.follow) (hb : LineEnds blank)
    {loop : Read (List Statement)} (hloop : ∀ r' : Reader, r'.ahead.length < r.ahead.length →
      Prompt loop r' (Viable rows r'.names.ledger) r'.names.follow) :
    Prompt (do
      let first ← f
      let rest ← loop
      pure (first :: rest)) r (fun passed => Viable rows r.names.ledger (blank ++ passed))
      fun ts => r.names.follow (blank ++ ts) := by
  refine (hf r).bind (fun passed h => hrows.viable_begun hb h) fun first r' ts hp ha hn => ?_
  obtain ⟨blank', us, hb', hfirst, hm⟩ := hs hp
  obtain rfl : ts = blank' ++ us := List.append_cancel_right (ha.symm.trans hm.ahead)
  have hnames : ∀ vs, r'.names.follow vs = r.names.follow (blank ++ (blank' ++ us ++ vs)) := by
    intro vs
    rw [hn, Names.follow_quiet hb.quiet, List.append_assoc, Names.follow_quiet hb'.quiet,
      Names.follow_quiet hb'.quiet, hfirst.follow]
  refine (hloop r' (hs.shorter hp)).bind (fun passed h => ?_) fun rest r'' vs _ _ hn' => ?_
  · rw [hm.ledger] at h
    have hnext := hrows.viable_next (hb.append hb') hfirst hm.allowed h
    simpa using hnext
  · exact Prompt.pure (by rw [hn', hnames, List.append_nil])

/-- **Statements that are read promptly make blocks that are read promptly.** The induction is on the
tokens ahead, of which each statement takes one at least. -/
theorem blockOf_prompt {opener closer : Token.Kind}
    (hc : closer ∈ [Token.Kind.endWhen, .endLoop]) (hs : Sound f)
    (hf : ∀ r, Prompt f r (Begun r.names.ledger) r.names.follow) (r : Reader) :
    Prompt (blockOf f opener closer) r (Viable (Body closer) r.names.ledger) r.names.follow := by
  induction hlen : r.ahead.length using Nat.strongRecOn generalizing r with
  | ind n ih =>
    have hrows := body_listing hc
    have hall : ∀ kind ∈ [Token.Kind.endWhen, .endLoop], kind ≠ .eof ∧ kind ∉ Grammar.naming := by
      decide
    obtain ⟨heof, hquiet⟩ := hall closer hc
    rw [blockOf_eq hs]
    refine skipLineEnds_prompt fun blank r₁ hb ha hn => ?_
    have hle : r₁.ahead.length ≤ r.ahead.length := by
      rw [ha, List.length_append]
      omega
    refine peek_prompt fun token rest ha₁ => ?_
    split
    · rename_i hk
      have hk : token.kind = closer := by simpa using hk
      refine advance_prompt fun c rest' ha' => .inr ?_
      obtain ⟨rfl, -⟩ := List.cons_eq_cons.1 (ha'.symm.trans ha₁)
      refine ⟨hk ▸ heof, ended_prompt ?_ fun stop _ => ?_⟩
      · refine ⟨[mark .newline], .done, plain_line, ?_, trivial⟩
        exact ⟨blank, c, mark .newline, by simp, .done hb, hk, rfl⟩
      · rw [Names.follow_quiet hb.quiet, Names.follow_cons (hk ▸ hquiet)]
        exact hn
    split
    · rename_i hend
      refine refuse_prompt ha₁ ?_ (beq_iff_eq.1 hend)
      rw [List.append_nil]
      exact hrows.viable_blank hb
    · rw [← hn]
      exact further_prompt hrows hs hf hb fun r' hr' => ih _ (by omega) r' rfl

section Blocks

variable {opener middle closer : Token.Kind} {node : Tree → Tree → Tree}
variable {ledger : Ledger} {ts passed : List Token} {condition : Tree} {word m s : Token}

theorem Block.closes (hb : Grammar.Block opener middle closer node) :
    closer ∈ [Token.Kind.endWhen, .endLoop] := by
  cases hb <;> decide

/-- Behind the condition of a block and its line its statements may follow, and its end. -/
theorem Block.viable_body (hb : Grammar.Block opener middle closer node) (hw : word.kind = opener)
    (hts : Grammar.Comparison ts condition) (hm : m.kind = middle) (hs : s.kind = .newline)
    (hallows : ledger.Allows condition.mentions)
    (h : Viable (Body closer) (ledger.record condition.mentions) passed) :
    Viable Grammar.Statement ledger (word :: ts ++ [m, s] ++ passed) := by
  refine Viable.wrap _ [] condition.mentions h hallows Plain.nil ?_
  rintro vs body ⟨us, c, stop, rfl, hrows, hc, hstop⟩
  refine ⟨node condition body, ?_, Block.mentions hb condition body⟩
  simpa using Grammar.Statement.block hb hw hts hm hs hrows hc hstop

/-- The body of a block may be empty. -/
theorem Block.viable_line (hb : Grammar.Block opener middle closer node) (hw : word.kind = opener)
    (hts : Grammar.Comparison ts condition) (hm : m.kind = middle) (hs : s.kind = .newline)
    (hallows : ledger.Allows condition.mentions) :
    Viable Grammar.Statement ledger (word :: ts ++ [m, s]) := by
  have hempty : Viable (Body closer) (ledger.record condition.mentions) [] :=
    (body_listing (Block.closes hb)).viable_blank LineEnds.nil
  simpa using Block.viable_body hb hw hts hm hs hallows hempty

/-- What follows the first word of a block, whichever it is. -/
theorem blockRest_prompt (hsound : Sound f)
    (hf : ∀ r, Prompt f r (Begun r.names.ledger) r.names.follow)
    (hb : Grammar.Block opener middle closer node)
    {make : Comparison → List Statement → Statement} {after : String} (hw : word.kind = opener) :
    PromptBehind word (do
      let condition ← comparison
      let _ ← expect middle after
      lineEnd middle.spelling
      pure (make condition (← blockOf f opener closer)) : Read Statement) := by
  intro r
  have hmiddle : Plain [mark middle, mark .newline] :=
    (plain_mark (by cases hb <;> decide)).cons plain_line
  obtain ⟨hopener, hquiet⟩ : opener ∉ Grammar.naming ∧ middle ∉ Grammar.naming := by
    cases hb <;> decide
  refine Prompt.computed comparison_exact (comparison_prompt r) (fun passed h => ?_)
    fun condition r₁ ts hts _ hn hallows hledger => ?_
  · obtain ⟨more, u, hmore, hu, hallows⟩ := h
    refine Viable.shorten (more ++ [mark middle, mark .newline]) ?_ (hmore.append hmiddle)
    have hviable := Block.viable_line hb hw hu (m := mark middle) (s := mark .newline) rfl rfl hallows
    simpa using hviable
  refine expect_prompt (Block.words hb).1.2 ?_ fun m rest ha hm =>
    lineEnd_prompt ?_ fun s rest' ha' hs => ?_
  · refine Viable.shorten [mark middle, mark .newline] ?_ hmiddle
    rw [List.append_nil]
    exact Block.viable_line hb hw hts rfl rfl hallows
  · refine Viable.shorten [mark .newline] ?_ plain_line
    simpa using Block.viable_line hb hw hts hm (s := mark .newline) rfl hallows
  refine (blockOf_prompt (Block.closes hb) hsound hf _).bind (fun passed h => ?_)
    fun body r₂ vs _ _ hn₂ => Prompt.pure ?_
  · have hkept : Viable (Body closer) r₁.names.ledger passed := h
    rw [hn, hledger] at hkept
    simpa using Block.viable_body hb hw hts hm hs hallows hkept
  · have hkept : r₂.names = r.names.follow vs := hn ▸ hn₂
    rw [hkept, List.append_nil, Names.follow_cons (hw ▸ hopener), Names.follow_quiet hts.quiet,
      Names.follow_cons (hm ▸ hquiet), Names.follow_cons (by rw [hs]; decide)]

end Blocks

theorem whenRest_prompt (hs : Sound f)
    (hf : ∀ r, Prompt f r (Begun r.names.ledger) r.names.follow) {word : Token}
    (hw : word.kind = .when) : PromptBehind word (whenRest f) :=
  blockRest_prompt hs hf .when hw

theorem loopRest_prompt (hs : Sound f)
    (hf : ∀ r, Prompt f r (Begun r.names.ledger) r.names.follow) {word : Token}
    (hw : word.kind = .loop) : PromptBehind word (loopRest f) :=
  blockRest_prompt hs hf .loop hw

end Lists

/-! ## Statements -/

/-- A first word, and what follows it. -/
theorem PromptBehind.opened {word : Token} {rest : Read Statement} (hrest : PromptBehind word rest)
    {ahead : List Token} (ha : r.ahead = word :: ahead) (hk : word.kind ≠ .eof) :
    Prompt (do let _ ← advance; rest) r (Viable Grammar.Statement r.names.ledger)
      r.names.follow := by
  refine advance_prompt fun token rest' ha' => .inr ?_
  obtain ⟨rfl, -⟩ := List.cons_eq_cons.1 (ha'.symm.trans ha)
  exact ⟨hk, hrest (r.skip 1)⟩

/-- **A statement is complained of at once**, however deep blocks may be nested. -/
theorem statement_prompt (depth : Nat) (r : Reader) :
    Prompt (statement depth) r (Begun r.names.ledger) r.names.follow := by
  induction depth generalizing r with
  | zero => constructor <;> intro _ _ h <;> cases h
  | succ depth ih =>
    rw [statement]
    refine skipLineEnds_prompt fun blank r₁ hb ha hn => ?_
    refine peek_prompt fun _ _ _ => note_prompt (peek_prompt fun token rest ha₁ => ?_)
    have hopened {rest' : Read Statement} (hrest : PromptBehind token rest')
        (hk : token.kind ≠ .eof) {notes : List Event} :
        Prompt (do let _ ← advance; rest') { r₁ with notes := notes }
          (fun passed => Begun r.names.ledger (blank ++ passed))
          fun ts => r.names.follow (blank ++ ts) := by
      refine (hrest.opened (r := { r₁ with notes := notes }) ha₁ hk).imp (fun passed h => ?_)
        fun ts => ?_
      · exact .inr ⟨blank, passed, rfl, hb, hn ▸ h⟩
      · rw [Names.follow_quiet hb.quiet, ← hn]
    cases hk : token.kind
    case print => exact hopened (printRest_prompt hk) (by simp [hk])
    case when => exact hopened (whenRest_prompt (statement_ok depth) ih hk) (by simp [hk])
    case loop => exact hopened (loopRest_prompt (statement_ok depth) ih hk) (by simp [hk])
    case label => exact hopened (labelRest_prompt hk) (by simp [hk])
    case goto => exact hopened (gotoRest_prompt hk) (by simp [hk])
    case assign => exact hopened (assignRest_prompt hk) (by simp [hk])
    case input => exact hopened (inputRest_prompt hk) (by simp [hk])
    all_goals exact refuse_prompt ha₁ (.inl (by rw [List.append_nil]; exact hb)) rfl

/-- **The statements of a program are complained of at once.** -/
theorem allStatements_prompt (r : Reader) :
    Prompt allStatements r (Viable Grammar.Program r.names.ledger) r.names.follow := by
  induction hlen : r.ahead.length using Nat.strongRecOn generalizing r with
  | ind n ih =>
    rw [allStatements_eq]
    refine skipLineEnds_prompt fun blank r₁ hb ha hn => ?_
    have hle : r₁.ahead.length ≤ r.ahead.length := by
      rw [ha, List.length_append]
      omega
    refine peek_prompt fun token rest ha₁ => ?_
    split
    · exact Prompt.pure (by rw [Names.follow_quiet hb.quiet, hn]; rfl)
    · rw [← hn]
      exact further_prompt program_listing (statement_ok maxNesting) (statement_prompt maxNesting) hb
        fun r' hr' => ih _ (by omega) r' rfl

end BasicToC.Read
