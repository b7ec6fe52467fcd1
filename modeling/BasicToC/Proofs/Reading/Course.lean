import BasicToC.Proofs.Reading.Prompt

/-!
# The course of reading

Reading may end at any of its steps, well or not. Wherever it ends, the tokens have not run out, the
reader has passed tokens one after another and no mark for the end among them, and the names that it
holds are those of the tokens passed.

* `Reader.Passed`: from one reader to a later one.
* `Reader.Ready`: a reader ahead of which the program ends somewhere.
* `Names.Complete`: the names of some tokens, the last of which is no word that waits for a name.
* `Course`: what is left of a reader when a step ends.
* `Steady`: a step that keeps the names of what it passes, whatever stands in front of it.
* `chain_steady`, `blockOf_steady`, `statement_steady`, `statements_steady`: all of reading is steady.
-/

set_option autoImplicit false

namespace BasicToC

open Grammar (naming Quiet)

/-- A reader has passed `ts`, in which the program does not end. -/
structure Reader.Passed (r : Reader) (ts : List Token) (r' : Reader) : Prop where
  tokens : r'.tokens = r.tokens
  position : r'.position = r.position + ts.length
  ahead : r.ahead = ts ++ r'.ahead
  running : ∀ token ∈ ts, token.kind ≠ .eof

/-- The tokens ahead of a reader belong to its program, which ends somewhere ahead. -/
structure Reader.Ready (r : Reader) : Prop where
  among : r.ahead ⊆ r.tokens
  ends : ∃ stop ∈ r.ahead, stop.kind = .eof

/-- The faults that reading a list of tokens may end with: the tokens never run out, and a name
lacks its text only if a token does. -/
def Reader.Fault.Fair (tokens : List Token) : Reader.Fault → Prop
  | .exhausted => False
  | .nameless => ∃ token ∈ tokens, token.kind = .ident ∧ token.value = .absent
  | _ => True

/-- The names kept behind `ts`, the last of which is no word that waits for a name. -/
structure Names.Complete (base : Names) (ts : List Token) (names : Names) : Prop where
  names : names = base.follow ts
  settled : ∀ last ∈ ts.getLast?, last.kind ∉ naming

namespace Reader

variable {r r' r'' : Reader} {ts us : List Token} {token : Token} {rest : List Token}

namespace Passed

theorem refl : r.Passed [] r := ⟨rfl, by simp, rfl, by simp⟩

theorem trans (h : r.Passed ts r') (h' : r'.Passed us r'') : r.Passed (ts ++ us) r'' where
  tokens := h'.tokens.trans h.tokens
  position := by rw [h'.position, h.position, List.length_append]; omega
  ahead := by rw [h.ahead, h'.ahead, List.append_assoc]
  running token hm := (List.mem_append.1 hm).elim (h.running token) (h'.running token)

theorem suffix (h : r.Passed ts r') : r'.ahead <:+ r.ahead := ⟨ts, h.ahead.symm⟩

/-- Passing on leaves a reader in front of the same end. -/
theorem ready (h : r.Passed ts r') (hr : r.Ready) : r'.Ready where
  among token hm := by
    rw [h.tokens]
    exact hr.among (h.suffix.subset hm)
  ends := by
    obtain ⟨stop, hm, hk⟩ := hr.ends
    rw [h.ahead] at hm
    rcases List.mem_append.1 hm with hm | hm
    · exact absurd hk (h.running stop hm)
    · exact ⟨stop, hm, hk⟩

end Passed

theorem Ready.ne_nil (hr : r.Ready) : r.ahead ≠ [] := by
  obtain ⟨stop, hm, -⟩ := hr.ends
  exact List.ne_nil_of_mem hm

theorem passed_one (ha : r.ahead = token :: rest) (hk : token.kind ≠ .eof) :
    r.Passed [token] (r.skip 1) :=
  ⟨rfl, rfl, by simp [Reader.skip, ha], by simpa using hk⟩

end Reader

namespace Names.Complete

variable {base names names' : Names} {ts us : List Token} {word token : Token}

theorem refl : names.Complete [] names := ⟨rfl, by simp⟩

/-- What comes behind complete names goes on from them alone. -/
theorem follow_append (h : base.Complete ts names) (us : List Token) :
    base.follow (ts ++ us) = names.follow us := by
  cases ts using List.reverseRecOn with
  | nil => rw [List.nil_append, h.names]; rfl
  | append_singleton ts last =>
    rw [Names.follow_append (h.settled last (by simp)), h.names]

theorem trans (h : base.Complete ts names) (h' : names.Complete us names') :
    base.Complete (ts ++ us) names' where
  names := by rw [h.follow_append, h'.names]
  settled last hlast := by
    rw [List.getLast?_append] at hlast
    cases hus : us.getLast? with
    | none =>
      rw [hus] at hlast
      exact h.settled last hlast
    | some other =>
      rw [hus] at hlast
      exact h'.settled last (hus ▸ hlast)

/-- Tokens that are no such words at all. -/
theorem quiet (hq : Quiet ts) : names.Complete ts names where
  names := by
    have hfollow : names.follow (ts ++ []) = names := Names.follow_quiet hq
    rw [List.append_nil] at hfollow
    exact hfollow.symm
  settled last hlast := hq last (List.mem_of_mem_getLast? hlast)

theorem one (hk : token.kind ∉ naming) : names.Complete [token] names :=
  quiet fun _ hm => List.mem_singleton.1 hm ▸ hk

/-- A name directly behind its word. -/
theorem named (hk : token.kind = .ident) :
    names.Complete [word, token] (names.meet word token) where
  names := rfl
  settled last hlast := by
    simp only [List.getLast?_cons_cons, List.getLast?_singleton, Option.mem_def,
      Option.some.injEq] at hlast
    rw [← hlast, hk]
    decide

end Names.Complete

namespace Read

open Reader (Passed Ready passed_one)
open Names (Complete)

variable {α β : Type} {f : Read α} {g : α → Read β} {a : α} {r r' : Reader}
variable {kept : Prop} {base : Names} {passed ts rest : List Token} {token word : Token}

/-- How a step ends behind the tokens `passed`, in front of which the names `base` were held. Whether
it is `kept` track of the names may be left open. -/
structure Course (kept : Prop) (base : Names) (passed : List Token) (f : Read α) (r : Reader) :
    Prop where
  ok : ∀ {a r'}, f r = .ok a r' →
    ∃ ts, r.Passed ts r' ∧ (kept → base.Complete (passed ++ ts) r'.names)
  error : ∀ {fault r'}, f r = .error fault r' → fault.Fair r.tokens ∧
    ∃ ts, r.Passed ts r' ∧ (kept → r'.names = base.follow (passed ++ ts))

/-- A step that keeps the names of what it passes. -/
def Steady (kept : Prop) (f : Read α) : Prop :=
  ∀ ⦃r : Reader⦄, r.Ready → Course kept r.names [] f r

/-- What follows a word, and keeps the names of what it passes together with the word. -/
def SteadyBehind (kept : Prop) (word : Token) (f : Read α) : Prop :=
  ∀ ⦃r : Reader⦄, r.Ready → Course kept r.names [word] f r

/-! ## Steps one after another -/

theorem Course.pure (h : kept → base.Complete passed r.names) :
    Course kept base passed (pure a) r where
  ok h' := by
    cases h'
    exact ⟨[], .refl, by simpa using h⟩
  error h' := by cases h'

/-- A fault other than a complaint. -/
theorem Course.throw {fault : Reader.Fault} (hfair : fault.Fair r.tokens)
    (hn : kept → r.names = base.follow passed) :
    Course kept base passed (throw fault : Read α) r where
  ok h := by cases h
  error h := by
    cases h
    exact ⟨hfair, [], .refl, by simpa using hn⟩

theorem Course.refuse {complaint : Complaint} (hn : kept → r.names = base.follow passed)
    (hname : complaint.isNameless = true →
      ∃ token ∈ r.tokens, token.kind = .ident ∧ token.value = .absent) :
    Course kept base passed (refuse complaint token : Read α) r where
  ok h := absurd h refuse_ne_ok
  error h := by
    rw [refuse_eq] at h
    cases h
    refine ⟨?_, [], .refl, by simpa using hn⟩
    split
    · rename_i hless
      exact hname hless
    · trivial

/-- A step that goes on like another one, further on. -/
theorem Course.after {g : Read α} (hp : r.Passed ts r') (hrun : f r = g r')
    (h : Course kept base (passed ++ ts) g r') : Course kept base passed f r where
  ok hf := by
    obtain ⟨us, hp', hn⟩ := h.ok (hrun.symm.trans hf)
    exact ⟨ts ++ us, hp.trans hp', by rwa [← List.append_assoc]⟩
  error hf := by
    obtain ⟨hfair, us, hp', hn⟩ := h.error (hrun.symm.trans hf)
    exact ⟨hp.tokens ▸ hfair, ts ++ us, hp.trans hp', by rwa [← List.append_assoc]⟩

/-- Behind complete names nothing counts but them. -/
theorem Course.resume (hk : kept → base.Complete passed r.names)
    (h : Course kept r.names [] f r) : Course kept base passed f r where
  ok hf := by
    obtain ⟨ts, hp, hn⟩ := h.ok hf
    exact ⟨ts, hp, fun hkept => (hk hkept).trans (hn hkept)⟩
  error hf := by
    obtain ⟨hfair, ts, hp, hn⟩ := h.error hf
    exact ⟨hfair, ts, hp, fun hkept => by rw [(hk hkept).follow_append, hn hkept]; rfl⟩

/-- Two steps, of which the second goes on behind what the first has passed. -/
theorem Course.bind (hf : Course kept base passed f r)
    (hg : ∀ a r' ts, f r = .ok a r' → r.Passed ts r' →
      (kept → base.Complete (passed ++ ts) r'.names) →
      Course kept base (passed ++ ts) (g a) r') :
    Course kept base passed (f >>= g) r := by
  cases hrun : f r with
  | ok a r' =>
    obtain ⟨ts, hp, hn⟩ := hf.ok hrun
    exact Course.after hp (bind_eq hrun) (hg a r' ts hrun hp hn)
  | error fault r' =>
    constructor
    · intro b r'' h
      rw [bind_error_eq hrun] at h
      cases h
    · intro fault' r'' h
      rw [bind_error_eq hrun] at h
      cases h
      exact hf.error hrun

/-- **A steady step, and what goes on from the names it keeps.** -/
theorem Steady.bind (hf : Steady kept f) (hr : r.Ready)
    (hk : kept → base.Complete passed r.names)
    (hg : ∀ a r', f r = .ok a r' → r'.Ready → r'.ahead <:+ r.ahead →
      Course kept r'.names [] (g a) r') :
    Course kept base passed (f >>= g) r :=
  Course.resume hk <| (hf hr).bind fun a r' _ hrun hp hn =>
    Course.resume hn (hg a r' hrun (hp.ready hr) hp.suffix)

/-- What is made of the result changes nothing else. -/
theorem Course.map {b : α → β} (hf : Course kept base passed f r) :
    Course kept base passed (f >>= fun a => Pure.pure (b a)) r where
  ok h := by
    obtain ⟨a, r', hrun, h⟩ := bind_ok h
    cases h
    exact hf.ok hrun
  error h := by
    rcases bind_error h with hrun | ⟨a, r', -, h⟩
    · exact hf.error hrun
    · cases h

/-! ## Single steps -/

theorem peek_course {g : Token → Read β} (hr : r.Ready)
    (h : ∀ token rest, r.ahead = token :: rest → Course kept base passed (g token) r) :
    Course kept base passed (peek >>= g) r := by
  obtain ⟨token, rest, ha⟩ := List.exists_cons_of_ne_nil hr.ne_nil
  refine Course.after .refl (bind_eq (peek_eq ha)) ?_
  rw [List.append_nil]
  exact h token rest ha

/-- The next token is taken, or left where it is when the program ends there. -/
theorem advance_course {g : Token → Read β} (hr : r.Ready)
    (hstop : ∀ token rest, r.ahead = token :: rest → token.kind = .eof →
      Course kept base passed (g token) r)
    (htaken : ∀ token rest, r.ahead = token :: rest → token.kind ≠ .eof → (r.skip 1).Ready →
      Course kept base (passed ++ [token]) (g token) (r.skip 1)) :
    Course kept base passed (advance >>= g) r := by
  obtain ⟨token, rest, ha⟩ := List.exists_cons_of_ne_nil hr.ne_nil
  have hrun := advance_bind (g := g) ha
  by_cases hk : token.kind = .eof
  · rw [if_pos hk] at hrun
    refine Course.after .refl hrun ?_
    rw [List.append_nil]
    exact hstop token rest ha hk
  · rw [if_neg hk] at hrun
    have hp := passed_one ha hk
    exact Course.after hp hrun (htaken token rest ha hk (hp.ready hr))

/-- A change that leaves the reader at its place. -/
theorem change_course {f : Read β} {change : Reader → Reader} (hc : r.Passed [] (change r))
    (h : Course kept base passed f (change r)) :
    Course kept base passed (do modify change; f) r := by
  refine Course.after hc (bind_eq (modify_eq change r)) ?_
  rwa [List.append_nil]

theorem get_course {g : Reader → Read β} (h : Course kept base passed (g r) r) :
    Course kept base passed (get >>= g) r := by
  refine Course.after .refl (bind_eq (get_eq r)) ?_
  rwa [List.append_nil]

theorem note_course {f : Read β} {event : Event} (hr : r.Ready)
    (h : ∀ s : Reader, s.Ready → s.names = r.names → Course kept base passed f s) :
    Course kept base passed (do note event; f) r :=
  change_course ⟨rfl, by simp, rfl, by simp⟩ (h _ ⟨hr.among, hr.ends⟩ rfl)

/-- A token of some kind is taken, or complained of. -/
theorem take_course {g : Token → Read β} {complaint : Token → Complaint} {kind : Token.Kind}
    (hr : r.Ready) (hend : kind ≠ .eof) (hname : ∀ token, (complaint token).isNameless = false)
    (hn : kept → r.names = base.follow passed)
    (hbad : ∀ token : Token, token.kind ≠ kind → kept → r.names = base.follow (passed ++ [token]))
    (hgood : ∀ token rest, r.ahead = token :: rest → token.kind = kind →
      (r.skip 1).Ready → Course kept base (passed ++ [token]) (g token) (r.skip 1)) :
    Course kept base passed (do
      let token ← advance
      if token.kind != kind then refuse (complaint token) token else g token) r := by
  have hnone (token : Token) {P : Prop} (h : (complaint token).isNameless = true) : P := by
    rw [hname] at h
    cases h
  refine advance_course hr (fun token rest ha hk => ?_) fun token rest ha hk hr' => ?_
  · rw [if_pos (by simpa [hk] using hend.symm)]
    exact Course.refuse hn (hnone token)
  · by_cases he : token.kind = kind
    · rw [if_neg (by simp [he])]
      exact hgood token rest ha he hr'
    · rw [if_pos (by simpa using he)]
      exact Course.refuse (hbad token he) (hnone token)

/-- A name is taken, directly behind the word that gives it its part or elsewhere. -/
theorem identifier_course {g : Value → Read β} {after : String} (hr : r.Ready)
    (hn : kept → r.names = base.follow passed)
    (hgood : ∀ token rest, r.ahead = token :: rest → token.kind = .ident → (r.skip 1).Ready →
      Course kept base (passed ++ [token]) (g token.value) (r.skip 1)) :
    Course kept base passed (identifier after >>= g) r := by
  rw [identifier_bind]
  refine take_course hr (by decide) (fun _ => rfl) hn (fun token hk hkept => ?_) hgood
  rw [Names.follow_stop hk]
  exact hn hkept

theorem expect_course {g : Token → Read β} {kind : Token.Kind} {after : String}
    (hr : r.Ready) (hkind : kind ≠ .eof ∧ kind ∉ naming)
    (hg : ∀ token, (r.skip 1).Ready → Course kept r.names [] (g token) (r.skip 1)) :
    Course kept r.names [] (expect kind after >>= g) r := by
  rw [expect_bind]
  exact take_course hr hkind.1 (fun _ => rfl) (fun _ => rfl) (fun _ _ _ => rfl)
    fun token rest _ hk hr' => Course.resume (fun _ => .one (hk ▸ hkind.2)) (hg token hr')

theorem lineEnd_course {f : Read β} {after : String} (hr : r.Ready)
    (hf : (r.skip 1).Ready → Course kept r.names [] f (r.skip 1)) :
    Course kept r.names [] (do lineEnd after; f) r := by
  rw [lineEnd_bind]
  exact take_course hr (by decide) (fun _ => rfl) (fun _ => rfl) (fun _ _ _ => rfl)
    fun token rest _ hk hr' => Course.resume (fun _ => .one (by rw [hk]; decide)) (hf hr')

/-- The end of a statement. -/
theorem ended_course {after : String} (hr : r.Ready) :
    Course kept r.names [] (do lineEnd after; pure a) r :=
  lineEnd_course hr fun _ => Course.pure fun _ => .refl

theorem skipLineEnds_steady : Steady kept skipLineEnds := by
  intro r hr
  obtain ⟨blank, hblank⟩ : ∃ blank, blank = r.ahead.takeWhile (·.kind == .newline) := ⟨_, rfl⟩
  have hends : ∀ token ∈ blank, token.kind = .newline := fun token hm => by
    rw [hblank] at hm
    simpa using List.all_eq_true.1 List.all_takeWhile token hm
  have hp : r.Passed blank (r.skip blank.length) := by
    have hm := skip_takeWhile r (·.kind == .newline)
    rw [← hblank] at hm
    exact ⟨hm.tokens, hm.position, hm.ahead, fun token ht => by rw [hends token ht]; decide⟩
  have hcomplete : r.names.Complete blank r.names :=
    .quiet fun token hm => by rw [hends token hm]; decide
  refine Course.after (g := do let _ ← peek) hp ?_ ?_
  · unfold skipLineEnds
    rw [bind_eq (modify_eq _ r), ← hblank]
  · exact peek_course (hp.ready hr) fun _ _ _ => Course.pure fun _ => hcomplete

/-! ## What is computed -/

theorem operand_steady : Steady kept operand := by
  intro r hr
  refine peek_course hr fun first rest _ => note_course hr fun s hs hnames => ?_
  rw [← hnames]
  refine advance_course hs (fun token rest ha hk => ?_) fun token rest ha hk hs' => ?_
  · simp only [hk]
    exact Course.refuse (fun _ => rfl) (fun h => by cases h)
  have hother : Course kept s.names [token] (refuse (.operandExpected token) token : Read Operand)
      (s.skip 1) := Course.refuse (fun _ => rfl) (fun h => by cases h)
  cases hkind : token.kind
  case integer => exact Course.pure fun _ => .one (by rw [hkind]; decide)
  case float => exact Course.pure fun _ => .one (by rw [hkind]; decide)
  case ident =>
    refine get_course ?_
    split
    · exact Course.pure fun _ => .one (by rw [hkind]; decide)
    · refine Course.refuse (fun _ => rfl) fun h => ⟨token, ?_, hkind, beq_iff_eq.1 h⟩
      exact hs.among (by rw [ha]; exact List.mem_cons_self)
  all_goals exact hother

theorem factor_steady : Steady kept factor := by
  intro r hr
  refine peek_course hr fun token rest ha => ?_
  split
  · rename_i sign hsign
    have hmem := (additive_level.read hsign).2
    have hkinds : ∀ kind ∈ Grammar.additive, kind ≠ .eof ∧ kind ∉ naming := by decide
    refine advance_course hr (fun t rest' ha' hk => ?_) fun t rest' ha' hk hr' => ?_
    all_goals obtain ⟨rfl, -⟩ := List.cons_eq_cons.1 (ha'.symm.trans ha)
    · exact absurd hk (hkinds _ hmem).1
    · exact Course.resume (fun _ => .one (hkinds _ hmem).2) (operand_steady hr').map
  · exact (operand_steady hr).map

section Chains

variable {Op : Type} {operator? : Token.Kind → Option Op} {kind : Op → Token.Kind}
variable {operators : List Token.Kind} {node : Tree → Tree → Tree → Tree}

/-- Each round takes an operator, so the rounds do not run out before the tokens do. -/
theorem links_steady (hl : Level operator? kind operators node)
    (hquiet : ∀ kind ∈ operators, kind ∉ naming) (hf : Steady kept f) {rounds : List Token}
    (hr : r.Ready) (hlen : r.ahead.length ≤ rounds.length) :
    Course kept r.names [] (links operator? f rounds) r := by
  induction rounds generalizing r with
  | nil => exact absurd (List.length_eq_zero_iff.1 (Nat.le_zero.1 hlen)) hr.ne_nil
  | cons _ rounds ih =>
    refine peek_course hr fun token rest ha => ?_
    split
    · exact Course.pure fun _ => .refl
    · rename_i operator hop
      have hmem := (hl.read hop).2
      refine advance_course hr (fun t rest' ha' hk => ?_) fun t rest' ha' hk hr₁ => ?_
      all_goals obtain ⟨rfl, -⟩ := List.cons_eq_cons.1 (ha'.symm.trans ha)
      · exact absurd (hk ▸ hmem) hl.proper
      · refine hf.bind hr₁ (fun _ => .one (hquiet _ hmem)) fun right r₂ _ hr₂ hs => ?_
        have hshort : r₂.ahead.length ≤ rounds.length := by
          have hle := hs.length_le
          simp only [Reader.skip, ha, List.drop_one, List.tail_cons] at hle
          rw [ha, List.length_cons, List.length_cons] at hlen
          omega
        exact (ih hr₂ hshort).map

/-- **Operands that are read steadily make chains that are read steadily.** -/
theorem chain_steady (hl : Level operator? kind operators node)
    (hquiet : ∀ kind ∈ operators, kind ∉ naming) (hf : Steady kept f) :
    Steady kept (chain operator? f) :=
  fun _ hr => hf.bind hr (fun _ => .refl) fun _ _ _ hr₁ _ =>
    get_course (links_steady hl hquiet hf hr₁ (Nat.le_refl _)).map

end Chains

theorem term_steady : Steady kept term :=
  chain_steady multiplicative_level (by decide) factor_steady

theorem expression_steady : Steady kept expression :=
  chain_steady additive_level (by decide) term_steady

theorem comparison_steady : Steady kept comparison := by
  intro r hr
  refine peek_course hr fun first rest _ => note_course hr fun s hs hnames => ?_
  rw [← hnames]
  exact chain_steady relational_level (by decide) expression_steady hs

/-! ## What follows the first word of a statement -/

theorem printRest_steady (hw : word.kind = .print) : SteadyBehind kept word printRest := by
  intro r hr
  refine Course.resume (fun _ => .one (by rw [hw]; decide)) ?_
  unfold printRest
  simp only [pure_bind]
  refine peek_course hr fun token rest ha => ?_
  split
  · rename_i hk
    have hk : token.kind = .string := by simpa using hk
    refine advance_course hr (fun t rest' ha' he => ?_) fun t rest' ha' _ hr' => ?_
    all_goals obtain ⟨rfl, -⟩ := List.cons_eq_cons.1 (ha'.symm.trans ha)
    · rw [hk] at he
      cases he
    · exact Course.resume (fun _ => .one (by rw [hk]; decide)) (ended_course hr')
  · exact expression_steady.bind hr (fun _ => .refl) fun value r' _ hr' _ => ended_course hr'

/-- A name that is noted directly behind its word. -/
theorem noted_course {f : Read β} (change : Names → Names) (hr : r.Ready)
    (hk : token.kind = .ident) (hc : kept → change r.names = r.names.meet word token)
    (hf : ∀ s : Reader, s.Ready → Course kept s.names [] f s) :
    Course kept r.names [word, token]
      (do modify fun reader => { reader with names := change reader.names }; f) r := by
  have hp : r.Passed [] { r with names := change r.names } := ⟨rfl, by simp, rfl, by simp⟩
  refine change_course hp (Course.resume (fun hkept => ?_) (hf _ (hp.ready hr)))
  show r.names.Complete [word, token] (change r.names)
  rw [hc hkept]
  exact .named hk

theorem addLabel_same {names : Names} {name : Value} (h : name.isIn names.labels = true) :
    names.addLabel name = names := by
  simp [Names.addLabel, Value.insertInto, h]

theorem labelRest_steady (hw : word.kind = .label) : SteadyBehind kept word labelRest := by
  intro r hr
  unfold labelRest
  refine peek_course hr fun first rest ha => identifier_course hr (fun _ => rfl) ?_
  intro token rest' ha' hk hr'
  have hmeet (names : Names) : names.meet word token = names.addLabel token.value := by
    simp [Names.meet, hk, hw]
  refine get_course ?_
  split
  · rename_i hin
    rw [refuse_bind]
    -- A label that stands among the labels already is kept all the same.
    refine Course.refuse (fun _ => ?_) fun h => ⟨token, ?_, hk, beq_iff_eq.1 h⟩
    · exact (addLabel_same hin).symm.trans (hmeet _).symm
    · exact hr.among (by rw [ha']; exact List.mem_cons_self)
  · exact noted_course (·.addLabel token.value) hr' hk (fun _ => (hmeet _).symm)
      fun s hs => ended_course hs

theorem gotoRest_steady (hw : word.kind = .goto) : SteadyBehind kept word gotoRest := by
  intro r hr
  unfold gotoRest
  refine peek_course hr fun first rest ha => identifier_course hr (fun _ => rfl) ?_
  intro token rest' ha' hk hr'
  obtain ⟨rfl, -⟩ := List.cons_eq_cons.1 (ha'.symm.trans ha)
  exact noted_course (·.addJump token.value token) hr' hk (fun _ => by simp [Names.meet, hk, hw])
    fun s hs => ended_course hs

theorem inputRest_steady (hw : word.kind = .input) : SteadyBehind kept word inputRest := by
  intro r hr
  unfold inputRest
  refine identifier_course hr (fun _ => rfl) fun token rest ha hk hr' => ?_
  exact noted_course (·.addVariable token.value) hr' hk (fun _ => by simp [Names.meet, hk, hw])
    fun s hs => ended_course hs

theorem assignRest_steady (hw : word.kind = .assign) : SteadyBehind kept word assignRest := by
  intro r hr
  unfold assignRest
  refine identifier_course hr (fun _ => rfl) fun token rest ha hk hr' => ?_
  refine noted_course (·.addVariable token.value) hr' hk (fun _ => by simp [Names.meet, hk, hw])
    fun s hs => ?_
  refine expect_course hs (by decide) fun eq hs' => ?_
  exact expression_steady.bind hs' (fun _ => .refl) fun value r₁ _ hr₁ _ => ended_course hr₁

/-! ## Lists of statements -/

section Lists

variable {f : Read Statement} {opener middle closer : Token.Kind} {node : Tree → Tree → Tree}

/-- Each round takes a statement. Names are kept unless the block ends with a word that waits for a
name. -/
theorem blockRounds_steady (hs : Sound f) (hf : Steady kept f) (hc : kept → closer ∉ naming)
    {rounds : List Token} (hr : r.Ready) (hlen : r.ahead.length ≤ rounds.length) :
    Course kept r.names [] (blockRounds f opener closer rounds) r := by
  induction rounds generalizing r with
  | nil => exact absurd (List.length_eq_zero_iff.1 (Nat.le_zero.1 hlen)) hr.ne_nil
  | cons _ rounds ih =>
    refine skipLineEnds_steady.bind hr (fun _ => .refl) fun _ r₁ _ hr₁ hs₁ => ?_
    refine peek_course hr₁ fun token rest ha => ?_
    split
    · rename_i hclose
      have hclose : token.kind = closer := by simpa using hclose
      refine advance_course hr₁ (fun t rest' ha' hk => ?_) fun t rest' ha' hk hr₂ => ?_
      all_goals obtain ⟨rfl, -⟩ := List.cons_eq_cons.1 (ha'.symm.trans ha)
      · exact ended_course hr₁
      · exact Course.resume (fun hkept => .one (hclose ▸ hc hkept)) (ended_course hr₂)
    split
    · exact Course.refuse (fun _ => rfl) fun h => by cases h
    · refine hf.bind hr₁ (fun _ => .refl) fun first r₂ hfirst hr₂ _ => ?_
      have hlt := hs.shorter hfirst
      have hle := hs₁.length_le
      rw [List.length_cons] at hlen
      exact (ih hr₂ (by omega)).map

theorem blockOf_steady (hs : Sound f) (hf : Steady kept f) (hc : kept → closer ∉ naming) :
    Steady kept (blockOf f opener closer) :=
  fun _ hr => get_course (blockRounds_steady hs hf hc hr (Nat.le_refl _))

/-- What follows the first word of a block, whichever it is. -/
theorem blockRest_steady (hb : Grammar.Block opener middle closer node) (hs : Sound f)
    (hf : Steady kept f) (hw : word.kind = opener)
    (make : Comparison → List Statement → Statement) (after : String) :
    SteadyBehind kept word (do
      let condition ← comparison
      let _ ← expect middle after
      lineEnd middle.spelling
      pure (make condition (← blockOf f opener closer))) := by
  have hquiet : opener ∉ naming ∧ (middle ≠ .eof ∧ middle ∉ naming) ∧ closer ∉ naming := by
    cases hb <;> decide
  intro r hr
  refine Course.resume (fun _ => .one (hw ▸ hquiet.1)) ?_
  refine comparison_steady.bind hr (fun _ => .refl) fun condition r₁ _ hr₁ _ => ?_
  refine expect_course hr₁ hquiet.2.1 fun token hr₂ => ?_
  refine lineEnd_course (r := r₁.skip 1) hr₂ fun hr₃ => ?_
  exact (blockOf_steady hs hf (fun _ => hquiet.2.2) hr₃).map

/-- The first word of a statement and what follows it. -/
theorem opened_course {rest : Read Statement} {more : List Token} (hr : r.Ready)
    (ha : r.ahead = word :: more) (hk : word.kind ≠ .eof) (hf : SteadyBehind kept word rest) :
    Course kept r.names [] (do let _ ← advance; rest) r := by
  refine advance_course hr (fun t rest' ha' he => ?_) fun t rest' ha' _ hr' => ?_
  all_goals obtain ⟨rfl, -⟩ := List.cons_eq_cons.1 (ha'.symm.trans ha)
  · exact absurd he hk
  · exact hf hr'

/-- **Statements keep the names of what they pass**, wherever they end. -/
theorem statement_steady (depth : Nat) : Steady kept (statement depth) := by
  induction depth with
  | zero => exact fun _ _ => Course.throw trivial fun _ => rfl
  | succ depth ih =>
    intro r hr
    refine skipLineEnds_steady.bind hr (fun _ => .refl) fun _ r₁ _ hr₁ _ => ?_
    refine peek_course hr₁ fun first more _ => note_course hr₁ fun s hs hnames => ?_
    rw [← hnames]
    refine peek_course hs fun token rest ha => ?_
    have hbody : Sound (statement depth) := statement_ok depth
    cases hk : token.kind
    case print => exact opened_course hs ha (by simp [hk]) (printRest_steady hk)
    case label => exact opened_course hs ha (by simp [hk]) (labelRest_steady hk)
    case goto => exact opened_course hs ha (by simp [hk]) (gotoRest_steady hk)
    case assign => exact opened_course hs ha (by simp [hk]) (assignRest_steady hk)
    case input => exact opened_course hs ha (by simp [hk]) (inputRest_steady hk)
    case when =>
      exact opened_course hs ha (by simp [hk]) (blockRest_steady .when hbody ih hk .when "IF")
    case loop =>
      exact opened_course hs ha (by simp [hk]) (blockRest_steady .loop hbody ih hk .loop "WHILE")
    all_goals exact Course.refuse (fun _ => rfl) fun h => by cases h

theorem statements_steady {rounds : List Token} (hr : r.Ready)
    (hlen : r.ahead.length ≤ rounds.length) :
    Course kept r.names [] (statements rounds) r := by
  induction rounds generalizing r with
  | nil => exact absurd (List.length_eq_zero_iff.1 (Nat.le_zero.1 hlen)) hr.ne_nil
  | cons _ rounds ih =>
    refine skipLineEnds_steady.bind hr (fun _ => .refl) fun _ r₁ _ hr₁ hs₁ => ?_
    refine peek_course hr₁ fun token rest ha => ?_
    split
    · exact Course.pure fun _ => .refl
    · refine (statement_steady maxNesting).bind hr₁ (fun _ => .refl) fun first r₂ hfirst hr₂ _ => ?_
      have hlt := Sound.shorter (statement_ok maxNesting) hfirst
      have hle := hs₁.length_le
      rw [List.length_cons] at hlen
      exact (ih hr₂ (by omega)).map

end Lists

end Read

end BasicToC
