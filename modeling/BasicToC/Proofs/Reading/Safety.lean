import BasicToC.Proofs.Reading.Language

/-!
# How reading ends

Reading the tokens of a text ends with a program or with a complaint about the program, and in no
other way: the tokens do not run out, no complaint lacks its name, and blocks that stand at most 200
deep in one another are not nested too deep.

* `Reader.Good`: the tokens ahead are those of a text, with the mark for the end.
* `Read.Ends`: a step that, from a good reader, ends with a result and a good reader or is refused.
* `Ends.bind`: two such steps one after the other.
* `statement_safe`, `blockRounds_ends`: statements, as far as blocks may be nested.
* `program_refused`: whole programs.
-/

set_option autoImplicit false

namespace BasicToC

/-- The tokens ahead of a reader are proper ones and, last of all, the mark for the end. -/
def Reader.Good (r : Reader) : Prop :=
  ∃ ts stop, r.ahead = ts ++ [stop] ∧ stop.kind = .eof ∧ ∀ token ∈ ts, token.Proper

/-- A complaint about the grammar or the meaning of a program. -/
def Reader.Fault.Refusal (fault : Reader.Fault) : Prop :=
  ∃ rejection : Rejection, fault = .rejected rejection ∧
    (rejection.complaint.category = .grammar ∨ rejection.complaint.category = .meaning)

namespace Reader.Good

variable {r r' : Reader}

/-- A good reader that has moved on and has not passed the mark for the end is still good. -/
theorem suffix (h : r.Good) (hs : r'.ahead <:+ r.ahead) (hne : r'.ahead ≠ []) : r'.Good := by
  obtain ⟨ts, stop, ha, hk, hts⟩ := h
  obtain ⟨passed, hp⟩ := hs
  obtain ⟨us, last, hu⟩ : ∃ us last, r'.ahead = us ++ [last] :=
    ⟨_, _, (List.dropLast_concat_getLast hne).symm⟩
  rw [hu, ha, ← List.append_assoc] at hp
  obtain ⟨hfront, hlast⟩ := List.append_inj' hp rfl
  refine ⟨us, last, hu, ?_, fun token hm => hts token ?_⟩
  · have he : last = stop := by simpa using hlast
    rw [he]
    exact hk
  · rw [← hfront]
    exact List.mem_append_right _ hm

/-- The token at the place of a good reader: the mark for the end, with nothing behind it, or a
proper one with a good reader behind it. -/
theorem cases (h : r.Good) :
    (∃ stop, r.ahead = [stop] ∧ stop.kind = .eof) ∨
    ∃ token, ∃ rest, r.ahead = token :: rest ∧ token.Proper ∧ rest ≠ [] := by
  obtain ⟨ts, stop, ha, hk, hts⟩ := h
  cases ts with
  | nil => exact .inl ⟨stop, ha, hk⟩
  | cons t ts => exact .inr ⟨t, ts ++ [stop], ha, hts t (by simp), by simp⟩

end Reader.Good

namespace Read

open Reader (Good)
open Grammar (nestingFrom levelAfter)

variable {α β : Type} {f : Read α} {g : α → Read β} {r r' : Reader} {P : α → Prop} {Q : β → Prop}

/-- A run that ends with a result of some sort and a good reader further on, or is refused. -/
def Ends (f : Read α) (r : Reader) (P : α → Prop) : Prop :=
  match f r with
  | .ok a r' => P a ∧ r'.Good ∧ r'.ahead <:+ r.ahead
  | .error fault _ => fault.Refusal

theorem Ends.of_ok {a : α} (h : f r = .ok a r') (ha : P a) (hg : r'.Good)
    (hs : r'.ahead <:+ r.ahead) : Ends f r P := by
  unfold Ends
  rw [h]
  exact ⟨ha, hg, hs⟩

theorem Ends.error {fault : Reader.Fault} (h : Ends f r P) (hf : f r = .error fault r') :
    fault.Refusal := by
  unfold Ends at h
  rw [hf] at h
  exact h

theorem Ends.bind (hf : Ends f r P)
    (hg : ∀ a r', f r = .ok a r' → P a → r'.Good → r'.ahead <:+ r.ahead → Ends (g a) r' Q) :
    Ends (f >>= g) r Q := by
  unfold Ends at hf
  cases h : f r with
  | ok a r' =>
    rw [h] at hf
    obtain ⟨ha, hgood, hs⟩ := hf
    have hnext := hg a r' h ha hgood hs
    unfold Ends at hnext ⊢
    rw [bind_eq h]
    split at hnext
    · exact ⟨hnext.1, hnext.2.1, hnext.2.2.trans hs⟩
    · exact hnext
  | error fault r' =>
    rw [h] at hf
    have herror : (f >>= g) r = .error fault r' := by simp only [Bind.bind, EStateM.bind, h]
    unfold Ends
    rw [herror]
    exact hf

theorem Ends.pure (hr : r.Good) {a : α} (ha : P a) : Ends (pure a : Read α) r P :=
  Ends.of_ok rfl ha hr (List.suffix_refl _)

/-- A change of the names or the notes moves nothing. -/
theorem Ends.modify {change : Reader → Reader} (hr : r.Good)
    (hc : (change r).ahead = r.ahead) : Ends (modify change : Read Unit) r fun _ => True := by
  refine Ends.of_ok (modify_eq change r) trivial ?_ (hc ▸ List.suffix_refl _)
  unfold Reader.Good
  rw [hc]
  exact hr

theorem get_ends (hr : r.Good) : Ends (get : Read Reader) r fun a => a = r :=
  Ends.of_ok (get_eq r) rfl hr (List.suffix_refl _)

theorem note_ends (event : Event) (hr : r.Good) : Ends (note event) r fun _ => True :=
  Ends.modify hr rfl

theorem refuse_ends {complaint : Complaint} {token : Token} (hn : complaint.isNameless = false)
    (hc : complaint.category = .grammar ∨ complaint.category = .meaning) :
    Ends (refuse complaint token : Read α) r P := by
  unfold Ends refuse
  rw [hn]
  exact ⟨_, rfl, hc⟩

theorem refuse_bind_ends {complaint : Complaint} {token : Token}
    (hn : complaint.isNameless = false)
    (hc : complaint.category = .grammar ∨ complaint.category = .meaning) :
    Ends (refuse complaint token >>= g) r Q :=
  (refuse_ends (P := fun _ => False) hn hc).bind fun _ _ _ h => h.elim

theorem IsText.ne_absent {v : Value} (h : v.IsText) : (v == .absent) = false := by
  obtain ⟨s, rfl⟩ := h
  rfl

/-! ## One token -/

/-- A token that a good reader may meet. -/
def Met (token : Token) : Prop := token.Proper ∨ token.kind = .eof

theorem Met.ident {token : Token} (h : Met token) (hk : token.kind = .ident) :
    token.value.IsText := by
  rcases h with h | h
  · exact Grammar.ident_text h hk
  · rw [hk] at h
    cases h

theorem peek_ends (hr : r.Good) : Ends peek r Met := by
  rcases hr.cases with ⟨stop, ha, hk⟩ | ⟨token, rest, ha, hp, -⟩
  · exact Ends.of_ok (peek_eq ha) (.inr hk) hr (List.suffix_refl _)
  · exact Ends.of_ok (peek_eq ha) (.inl hp) hr (List.suffix_refl _)

theorem advance_ends (hr : r.Good) : Ends advance r Met := by
  rcases hr.cases with ⟨stop, ha, hk⟩ | ⟨token, rest, ha, hp, hne⟩
  · have hadvance : advance r = .ok stop r := by
      rw [advance_eq ha, if_pos hk]
    exact Ends.of_ok hadvance (.inr hk) hr (List.suffix_refl _)
  · have hadvance : advance r = .ok token (r.skip 1) := by
      rw [advance_eq ha, if_neg hp.kind]
    have hskip : (r.skip 1).ahead = rest := by simp [Reader.skip, ha]
    have hs : (r.skip 1).ahead <:+ r.ahead := by
      rw [hskip, ha]
      exact List.suffix_cons token rest
    exact Ends.of_ok hadvance (.inl hp) (hr.suffix hs (hskip ▸ hne)) hs

theorem skipLineEnds_ends (hr : r.Good) : Ends skipLineEnds r fun _ => True := by
  have hm := skip_takeWhile r (·.kind == .newline)
  have hs : (r.skip (r.ahead.takeWhile (·.kind == .newline)).length).ahead <:+ r.ahead :=
    ⟨_, hm.ahead.symm⟩
  have hne : (r.skip (r.ahead.takeWhile (·.kind == .newline)).length).ahead ≠ [] := by
    intro h
    obtain ⟨ts, stop, ha, hk, -⟩ := hr
    have hall := hm.ahead
    rw [h, List.append_nil] at hall
    have hstop : stop ∈ r.ahead.takeWhile (·.kind == .newline) := by
      rw [← hall, ha]
      simp
    have := List.all_eq_true.1 List.all_takeWhile stop hstop
    simp [hk] at this
  have hgood := hr.suffix hs hne
  obtain ⟨token, rest, ha⟩ := List.exists_cons_of_ne_nil hne
  refine Ends.of_ok (a := ()) ?_ trivial hgood hs
  unfold skipLineEnds
  rw [bind_eq (modify_eq _ r), bind_eq (peek_eq ha)]
  rfl

theorem expect_ends (hr : r.Good) (kind : Token.Kind) (after : String) :
    Ends (expect kind after) r fun _ => True := by
  refine (advance_ends hr).bind fun token r₁ _ _ hr₁ _ => ?_
  split
  · exact refuse_bind_ends rfl (.inl rfl)
  · exact Ends.pure hr₁ trivial

theorem identifier_ends (hr : r.Good) (after : String) :
    Ends (identifier after) r Value.IsText := by
  refine (advance_ends hr).bind fun token r₁ _ ht hr₁ _ => ?_
  split
  · exact refuse_bind_ends rfl (.inl rfl)
  · rename_i hk
    exact Ends.pure hr₁ (ht.ident (by simpa using hk))

theorem lineEnd_ends (hr : r.Good) (after : String) : Ends (lineEnd after) r fun _ => True := by
  refine (advance_ends hr).bind fun token r₁ _ _ hr₁ _ => ?_
  split
  · exact refuse_ends rfl (.inl rfl)
  · exact Ends.pure hr₁ trivial

/-! ## What is computed -/

/-- A step that ends well or is refused, from every good reader. -/
def Safe (f : Read α) : Prop := ∀ ⦃r : Reader⦄, r.Good → Ends f r fun _ => True

theorem operand_safe : Safe operand := by
  intro r hr
  refine (peek_ends hr).bind fun first r₁ _ _ hr₁ _ => ?_
  refine (note_ends _ hr₁).bind fun _ r₂ _ _ hr₂ _ => ?_
  refine (advance_ends hr₂).bind fun token r₃ _ ht hr₃ _ => ?_
  cases hk : token.kind
  case integer => exact Ends.pure hr₃ trivial
  case float => exact Ends.pure hr₃ trivial
  case ident =>
    refine (get_ends hr₃).bind fun reader r₄ _ _ hr₄ _ => ?_
    split
    · exact Ends.pure hr₄ trivial
    · exact refuse_ends (IsText.ne_absent (ht.ident hk)) (.inr rfl)
  all_goals exact refuse_ends rfl (.inl rfl)

theorem factor_safe : Safe factor := by
  intro r hr
  refine (peek_ends hr).bind fun token r₁ _ _ hr₁ _ => ?_
  split
  · refine (advance_ends hr₁).bind fun _ r₂ _ _ hr₂ _ => ?_
    refine (operand_safe hr₂).bind fun operand r₃ _ _ hr₃ _ => ?_
    exact Ends.pure hr₃ trivial
  · refine (operand_safe hr₁).bind fun operand r₂ _ _ hr₂ _ => ?_
    exact Ends.pure hr₂ trivial

section Chains

variable {Op : Type} {operator? : Token.Kind → Option Op} {kind : Op → Token.Kind}
variable {operators : List Token.Kind} {node : Tree → Tree → Tree → Tree}

/-- Each round takes an operator, so the rounds do not run out before the tokens do. -/
theorem links_ends (hl : Level operator? kind operators node) (hf : Safe f) {rounds : List Token}
    (hr : r.Good) (hlen : r.ahead.length ≤ rounds.length) :
    Ends (links operator? f rounds) r fun _ => True := by
  induction rounds generalizing r with
  | nil =>
    obtain ⟨ts, stop, ha, -⟩ := hr
    simp [ha] at hlen
  | cons _ rounds ih =>
    refine (peek_ends hr).bind fun token r₁ hpeek _ hr₁ _ => ?_
    obtain ⟨rfl, rest, ha⟩ := peek_ok hpeek
    split
    · exact Ends.pure hr₁ trivial
    · rename_i operator hop
      refine (advance_ends hr₁).bind fun t r₂ hadv _ hr₂ _ => ?_
      refine (hf hr₂).bind fun right r₃ _ _ hr₃ hs₃ => ?_
      obtain rfl := advance_token hadv ha
      have hm := advance_ok hadv fun he => hl.proper (he ▸ (hl.read hop).2)
      have hlen₃ : r₃.ahead.length ≤ rounds.length := by
        have h₂ := congrArg List.length hm.ahead
        have h₃ := hs₃.length_le
        simp only [List.length_append, List.length_cons, List.length_nil] at h₂ hlen
        omega
      refine (ih hr₃ hlen₃).bind fun more r₄ _ _ hr₄ _ => ?_
      exact Ends.pure hr₄ trivial

theorem chain_safe (hl : Level operator? kind operators node) (hf : Safe f) :
    Safe (chain operator? f) := by
  intro r hr
  refine (hf hr).bind fun first r₁ _ _ hr₁ _ => ?_
  refine (get_ends hr₁).bind fun reader r₂ _ hreader hr₂ hs => ?_
  refine (links_ends hl hf hr₂ ?_).bind fun rest r₃ _ _ hr₃ _ => Ends.pure hr₃ trivial
  rw [hreader]
  exact hs.length_le

end Chains

theorem term_safe : Safe term := chain_safe multiplicative_level factor_safe

theorem expression_safe : Safe expression := chain_safe additive_level term_safe

theorem comparison_safe : Safe comparison := by
  intro r hr
  refine (peek_ends hr).bind fun first r₁ _ _ hr₁ _ => ?_
  refine (note_ends _ hr₁).bind fun _ r₂ _ _ hr₂ _ => ?_
  exact chain_safe relational_level expression_safe hr₂

/-! ## What is done -/

theorem printRest_safe : Safe printRest := by
  intro r hr
  unfold printRest
  simp only [pure_bind]
  refine (peek_ends hr).bind fun token r₁ _ _ hr₁ _ => ?_
  split
  · refine (advance_ends hr₁).bind fun _ r₂ _ _ hr₂ _ => ?_
    refine (lineEnd_ends hr₂ _).bind fun _ r₃ _ _ hr₃ _ => Ends.pure hr₃ trivial
  · refine (expression_safe hr₁).bind fun value r₂ _ _ hr₂ _ => ?_
    refine (lineEnd_ends hr₂ _).bind fun _ r₃ _ _ hr₃ _ => Ends.pure hr₃ trivial

theorem labelRest_safe : Safe labelRest := by
  intro r hr
  refine (peek_ends hr).bind fun token r₁ _ _ hr₁ _ => ?_
  refine (identifier_ends hr₁ _).bind fun name r₂ _ hname hr₂ _ => ?_
  refine (get_ends hr₂).bind fun reader r₃ _ _ hr₃ _ => ?_
  split
  · exact refuse_bind_ends (IsText.ne_absent hname) (.inr rfl)
  · refine (Ends.modify hr₃ rfl).bind fun _ r₄ _ _ hr₄ _ => ?_
    refine (lineEnd_ends hr₄ _).bind fun _ r₅ _ _ hr₅ _ => Ends.pure hr₅ trivial

theorem gotoRest_safe : Safe gotoRest := by
  intro r hr
  refine (peek_ends hr).bind fun token r₁ _ _ hr₁ _ => ?_
  refine (identifier_ends hr₁ _).bind fun name r₂ _ _ hr₂ _ => ?_
  refine (Ends.modify hr₂ rfl).bind fun _ r₃ _ _ hr₃ _ => ?_
  refine (lineEnd_ends hr₃ _).bind fun _ r₄ _ _ hr₄ _ => Ends.pure hr₄ trivial

theorem assignRest_safe : Safe assignRest := by
  intro r hr
  refine (identifier_ends hr _).bind fun name r₁ _ _ hr₁ _ => ?_
  refine (Ends.modify hr₁ rfl).bind fun _ r₂ _ _ hr₂ _ => ?_
  refine (expect_ends hr₂ _ _).bind fun _ r₃ _ _ hr₃ _ => ?_
  refine (expression_safe hr₃).bind fun value r₄ _ _ hr₄ _ => ?_
  refine (lineEnd_ends hr₄ _).bind fun _ r₅ _ _ hr₅ _ => Ends.pure hr₅ trivial

theorem inputRest_safe : Safe inputRest := by
  intro r hr
  refine (identifier_ends hr _).bind fun name r₁ _ _ hr₁ _ => ?_
  refine (Ends.modify hr₁ rfl).bind fun _ r₂ _ _ hr₂ _ => ?_
  refine (lineEnd_ends hr₂ _).bind fun _ r₃ _ _ hr₃ _ => Ends.pure hr₃ trivial

/-! ## Lists of statements -/

/-- Behind some tokens no more blocks stand open at most than on the way through them and on. -/
theorem nesting_moves {ts : List Token} {ms : List Mention} (h : r.Moves ts ms r') (level : Nat) :
    nestingFrom (ts.foldl levelAfter level) r'.ahead ≤ nestingFrom level r.ahead := by
  rw [h.ahead, Grammar.nestingFrom_append]
  exact Nat.le_max_right _ _

theorem skipped_nesting {u : Unit} (h : skipLineEnds r = .ok u r') (level : Nat) :
    nestingFrom level r'.ahead ≤ nestingFrom level r.ahead := by
  obtain ⟨blank, hblank, hm⟩ := skipLineEnds_ok h
  have hn := nesting_moves hm level
  rwa [hblank.flat.level] at hn

/-- Behind a statement no more blocks stand open, and fewer tokens lie ahead. -/
theorem Sound.behind {f : Read Statement} (hs : Sound f) {a : Statement} (h : f r = .ok a r')
    (level : Nat) : nestingFrom level r'.ahead ≤ nestingFrom level r.ahead ∧
      r'.ahead.length < r.ahead.length := by
  obtain ⟨blank, ts, hblank, hts, hm⟩ := hs h
  have hn := nesting_moves hm level
  rw [List.foldl_append, hblank.flat.level, hts.level] at hn
  refine ⟨hn, ?_⟩
  obtain ⟨word, rest, rfl, -⟩ := hts.first
  have hlen := congrArg List.length hm.ahead
  simp only [List.length_append, List.length_cons] at hlen
  omega

/-- A step that ends well or is refused from every good reader ahead of which at most `bound` blocks
stand open at once, `level` of them already. -/
def SafeWithin (level bound : Nat) (f : Read α) : Prop :=
  ∀ ⦃r : Reader⦄, r.Good → nestingFrom level r.ahead ≤ bound → Ends f r fun _ => True

theorem Safe.within (h : Safe f) (level bound : Nat) : SafeWithin level bound f :=
  fun _ hr _ => h hr

section Lists

variable {f : Read Statement} {opener middle closer : Token.Kind} {node : Tree → Tree → Tree}
variable {level bound : Nat}

/-- Each round takes a statement, which closes the blocks that it opens. -/
theorem blockRounds_ends (hs : Sound f) (hf : SafeWithin level bound f) {rounds : List Token}
    (hr : r.Good) (hn : nestingFrom level r.ahead ≤ bound)
    (hlen : r.ahead.length ≤ rounds.length) :
    Ends (blockRounds f opener closer rounds) r fun _ => True := by
  induction rounds generalizing r with
  | nil =>
    obtain ⟨ts, stop, ha, -⟩ := hr
    simp [ha] at hlen
  | cons _ rounds ih =>
    refine (skipLineEnds_ends hr).bind fun _ r₁ hskip _ hr₁ hs₁ => ?_
    have hn₁ := skipped_nesting hskip level
    refine (peek_ends hr₁).bind fun token r₂ hpeek _ hr₂ _ => ?_
    obtain ⟨rfl, -⟩ := peek_ok hpeek
    split
    · refine (advance_ends hr₂).bind fun _ r₃ _ _ hr₃ _ => ?_
      exact (lineEnd_ends hr₃ _).bind fun _ r₄ _ _ hr₄ _ => Ends.pure hr₄ trivial
    split
    · exact refuse_ends rfl (.inl rfl)
    · refine (hf hr₂ (by omega)).bind fun first r₃ hfirst _ hr₃ _ => ?_
      obtain ⟨hn₃, hlt⟩ := Sound.behind hs hfirst level
      have hle := hs₁.length_le
      rw [List.length_cons] at hlen
      refine (ih hr₃ (by omega) (by omega)).bind fun rest r₄ _ _ hr₄ _ => ?_
      exact Ends.pure hr₄ trivial

/-- What follows the first word of a block, whichever it is. -/
theorem blockRest_safe (hb : Grammar.Block opener middle closer node) (hs : Sound f)
    (hf : SafeWithin level bound f) (make : Comparison → List Statement → Statement)
    (word : String) :
    SafeWithin level bound (do
      let condition ← comparison
      let _ ← expect middle word
      lineEnd middle.spelling
      pure (make condition (← blockOf f opener closer))) := by
  intro r hr hn
  refine (comparison_safe hr).bind fun condition r₁ hcondition _ hr₁ _ => ?_
  obtain ⟨ts, hts, hm₁⟩ := comparison_exact.ok hcondition
  have hn₁ := nesting_moves hm₁ level
  rw [hts.flat.level] at hn₁
  refine (expect_ends hr₁ _ _).bind fun m r₂ hmiddle _ hr₂ _ => ?_
  obtain ⟨hm, hm₂⟩ := expect_ok hmiddle (Block.words hb).1.2
  have hn₂ := nesting_moves hm₂ level
  have hmflat : m.kind ∉ [Token.Kind.when, .loop, .endWhen, .endLoop] := by
    rw [hm]
    cases hb <;> decide
  rw [List.foldl_cons, List.foldl_nil, Grammar.levelAfter_flat hmflat] at hn₂
  refine (lineEnd_ends hr₂ _).bind fun _ r₃ hend _ hr₃ _ => ?_
  obtain ⟨s, hs₃, hm₃⟩ := lineEnd_ok hend
  have hn₃ := nesting_moves hm₃ level
  rw [List.foldl_cons, List.foldl_nil, Grammar.levelAfter_flat (by simp [hs₃])] at hn₃
  refine Ends.bind (P := fun _ => True) ?_ fun body r₄ _ _ hr₄ _ => Ends.pure hr₄ trivial
  refine (get_ends hr₃).bind fun reader r₄ hget hreader hr₄ hs₄ => ?_
  cases hget
  exact blockRounds_ends hs hf hr₃ (by omega) (Nat.le_refl _)

/-- Behind the first word of a block one more block stands open. -/
theorem opened_ends (hb : Grammar.Block opener middle closer node) {token : Token}
    {rest : List Token} (ha : r.ahead = token :: rest) (hk : token.kind = opener) (hr : r.Good)
    (hn : nestingFrom level r.ahead ≤ bound) (hf : SafeWithin (level + 1) bound f) :
    Ends (do let _ ← advance; f) r fun _ => True := by
  refine (advance_ends hr).bind fun t r₁ hadv _ hr₁ _ => hf hr₁ ?_
  obtain rfl := advance_token hadv ha
  have hm := advance_ok hadv (by rw [hk]; cases hb <;> decide)
  have hn₁ := nesting_moves hm level
  have hopen : levelAfter level t = level + 1 := by
    cases hb <;> simp [levelAfter, hk]
  rw [List.foldl_cons, List.foldl_nil, hopen] at hn₁
  exact Nat.le_trans hn₁ hn

/-- **Reading a statement ends well or with a complaint** as long as the blocks ahead are not nested
deeper than it may go. -/
theorem statement_safe {depth : Nat} (hd : bound < level + depth) :
    SafeWithin level bound (statement depth) := by
  induction depth generalizing level with
  | zero =>
    intro r hr hn
    have := Grammar.level_le_nestingFrom level r.ahead
    omega
  | succ depth ih =>
    intro r hr hn
    refine (skipLineEnds_ends hr).bind fun _ r₁ hskip _ hr₁ _ => ?_
    have hn₁ := skipped_nesting hskip level
    refine (peek_ends hr₁).bind fun first r₂ hpeek _ hr₂ _ => ?_
    obtain ⟨rfl, -⟩ := peek_ok hpeek
    refine (note_ends _ hr₂).bind fun _ r₃ hnote _ hr₃ _ => ?_
    have hm₃ : r₂.Moves [] [] r₃ := by
      cases hnote
      exact note_moves _ r₂
    have hn₃ : nestingFrom level r₃.ahead ≤ bound :=
      Nat.le_trans (nesting_moves hm₃ level) (Nat.le_trans hn₁ hn)
    refine (peek_ends hr₃).bind fun token r₄ hpeek' _ hr₄ _ => ?_
    obtain ⟨rfl, rest, ha⟩ := peek_ok hpeek'
    have hbody : SafeWithin (level + 1) bound (statement depth) := ih (by omega)
    cases hk : token.kind
    case print => exact (advance_ends hr₄).bind fun _ _ _ _ hr₅ _ => printRest_safe hr₅
    case label => exact (advance_ends hr₄).bind fun _ _ _ _ hr₅ _ => labelRest_safe hr₅
    case goto => exact (advance_ends hr₄).bind fun _ _ _ _ hr₅ _ => gotoRest_safe hr₅
    case assign => exact (advance_ends hr₄).bind fun _ _ _ _ hr₅ _ => assignRest_safe hr₅
    case input => exact (advance_ends hr₄).bind fun _ _ _ _ hr₅ _ => inputRest_safe hr₅
    case when =>
      exact opened_ends .when ha hk hr₄ hn₃
        (blockRest_safe .when (statement_ok depth) hbody .when "IF")
    case loop =>
      exact opened_ends .loop ha hk hr₄ hn₃
        (blockRest_safe .loop (statement_ok depth) hbody .loop "WHILE")
    all_goals exact refuse_ends rfl (.inl rfl)

theorem statements_ends {rounds : List Token} (hr : r.Good)
    (hn : nestingFrom 0 r.ahead < maxNesting) (hlen : r.ahead.length ≤ rounds.length) :
    Ends (statements rounds) r fun _ => True := by
  induction rounds generalizing r with
  | nil =>
    obtain ⟨ts, stop, ha, -⟩ := hr
    simp [ha] at hlen
  | cons _ rounds ih =>
    refine (skipLineEnds_ends hr).bind fun _ r₁ hskip _ hr₁ hs₁ => ?_
    have hn₁ := skipped_nesting hskip 0
    refine (peek_ends hr₁).bind fun token r₂ hpeek _ hr₂ _ => ?_
    obtain ⟨rfl, -⟩ := peek_ok hpeek
    split
    · exact Ends.pure hr₂ trivial
    · have hsafe : SafeWithin 0 (maxNesting - 1) (statement maxNesting) :=
        statement_safe (by unfold maxNesting; omega)
      refine (hsafe hr₂ (by omega)).bind fun first r₃ hfirst _ hr₃ _ => ?_
      obtain ⟨hn₃, hlt⟩ := Sound.behind (statement_ok _) hfirst 0
      have hle := hs₁.length_le
      rw [List.length_cons] at hlen
      refine (ih hr₃ (by omega) (by omega)).bind fun rest r₄ _ _ hr₄ _ => ?_
      exact Ends.pure hr₄ trivial

end Lists

/-! ## Whole programs -/

/-- The names that a reader has met in a text are texts. -/
theorem statements_texts {rounds : List Token} {body : List Statement} (hr : (start r).Good)
    (h : statements rounds (start r) = .ok body r') :
    (∀ v ∈ r'.names.ledger.declared, v.IsText) ∧ ∀ v ∈ r'.names.ledger.jumps, v.IsText := by
  obtain ⟨us, hrows, hm, token, rest, ha, hk⟩ := statements_ok h
  obtain ⟨ts, stop, hahead, hstop, hts⟩ := hr
  have hsplit : ts ++ [stop] = us ++ token :: rest := by rw [← hahead, hm.ahead, ha]
  obtain rfl := split_at_end hts hk hsplit
  have htexts := Grammar.Program.texts hts hrows
  have hholds := Ledger.Holds.empty.record htexts
  have hledger : r'.names.ledger = ({} : Ledger).record (Program.tree body).mentions := hm.ledger
  rw [hledger]
  rw [List.nil_append] at hholds
  exact ⟨fun v hv => htexts _ ((hholds.declared v).1 hv), fun v hv => htexts _ ((hholds.jumps v).1 hv)⟩

/-- **A program is read or complained of**, whatever the tokens of the text, unless its blocks are
nested too deep. -/
theorem program_refused (hr : (start r).Good) (hn : nestingFrom 0 (start r).ahead < maxNesting)
    {fault : Reader.Fault} (h : Read.program r = .error fault r') : fault.Refusal := by
  rw [program_eq] at h
  refine Ends.error (P := fun _ => True) ?_ h
  refine (statements_ends hr hn (Nat.le_refl _)).bind fun body r₁ hbody _ hr₁ _ => ?_
  obtain ⟨hdeclared, hjumps⟩ := statements_texts hr hbody
  refine (get_ends hr₁).bind fun reader r₂ hget _ hr₂ _ => ?_
  cases hget
  split
  · rename_i label token hstray
    have hmem : (label, token) ∈ r₁.names.jumps := List.mem_of_find?_eq_some hstray
    have hlabel : label.IsText := hjumps label (List.mem_map.2 ⟨_, hmem, rfl⟩)
    exact refuse_ends (IsText.ne_absent hlabel) (.inr rfl)
  · refine (get_ends hr₂).bind fun reader r₃ hget _ hr₃ _ => ?_
    cases hget
    obtain ⟨declared, hsorted⟩ := sortedValues_texts hdeclared
    split
    · rename_i hnone
      rw [show sortedValues? r₁.names.declared = some declared from hsorted] at hnone
      cases hnone
    · exact (note_ends _ hr₃).bind fun _ r₄ _ _ hr₄ _ => Ends.pure hr₄ trivial

end Read

end BasicToC
