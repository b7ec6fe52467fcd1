import BasicToC.Proofs.Names.Follow

/-!
# Where names stand

The names that are kept behind some tokens, said of the places of the tokens alone: which names stand
behind which words, and which of the jumps to a label is the first.

* `Grammar.FirstAt`: a name that stands behind a word of some kind for the first time.
* `Names.Records`: names that are exactly those of some tokens.
* `follow_records`: what is kept behind some tokens are exactly their names.
-/

set_option autoImplicit false

namespace BasicToC

namespace Grammar

variable {kind : Token.Kind} {ts : List Token} {word token t : Token} {k : Nat}

/-- A name stands at a place behind a word of some kind, and nowhere in front of it. -/
structure FirstAt (kind : Token.Kind) (ts : List Token) (k : Nat) (token : Token) : Prop where
  here : NamedAt kind ts k token
  first : ∀ j other, NamedAt kind ts j other → other.value = token.value → k ≤ j

theorem NamedAt.short (h : ts.length ≤ 1) : ¬ NamedAt kind ts k token := by
  intro hn
  have hlt := (List.getElem?_eq_some_iff.1 hn.found).1
  omega

theorem NamedAt.before (h : NamedAt kind (ts ++ [word]) k token) : k < ts.length := by
  have hlt := (List.getElem?_eq_some_iff.1 h.found).1
  rw [List.length_append, List.length_singleton] at hlt
  omega

/-- With one token more, the names are those there were and perhaps this token. -/
theorem namedAt_snoc : NamedAt kind (ts ++ [word, token]) k t ↔
    NamedAt kind (ts ++ [word]) k t ∨
      k = ts.length ∧ word.kind = kind ∧ token = t ∧ token.kind = .ident := by
  have hsplit : ts ++ [word, token] = ts ++ [word] ++ [token] := by simp
  have hfront {i : Nat} (hi : i < (ts ++ [word]).length) :
      (ts ++ [word, token])[i]? = (ts ++ [word])[i]? := by
    rw [hsplit, List.getElem?_append_left hi]
  rcases Nat.lt_trichotomy k ts.length with hlt | heq | hgt
  · have hk : (ts ++ [word, token])[k]? = (ts ++ [word])[k]? := hfront (by simp; omega)
    have hk' : (ts ++ [word, token])[k + 1]? = (ts ++ [word])[k + 1]? := hfront (by simp; omega)
    constructor
    · exact fun h => .inl ⟨hk ▸ h.behind, hk' ▸ h.found, h.ident⟩
    · rintro (h | ⟨rfl, -⟩)
      · exact ⟨hk ▸ h.behind, hk' ▸ h.found, h.ident⟩
      · omega
  · subst heq
    have hword : (ts ++ [word, token])[ts.length]? = some word := by simp
    have htoken : (ts ++ [word, token])[ts.length + 1]? = some token := by
      rw [List.getElem?_append_right (by omega)]
      simp
    constructor
    · rintro ⟨⟨w, hw, hk⟩, hfound, hident⟩
      cases hword.symm.trans hw
      cases htoken.symm.trans hfound
      exact .inr ⟨rfl, hk, rfl, hident⟩
    · rintro (h | ⟨-, hk, rfl, hident⟩)
      · exact absurd h.before (Nat.lt_irrefl _)
      · exact ⟨⟨word, hword, hk⟩, htoken, hident⟩
  · constructor
    · intro h
      have hlt := (List.getElem?_eq_some_iff.1 h.found).1
      simp only [List.length_append, List.length_cons, List.length_nil] at hlt
      omega
    · rintro (h | ⟨rfl, -⟩)
      · have := h.before
        omega
      · omega

theorem firstAt_snoc : FirstAt kind (ts ++ [word, token]) k t ↔
    FirstAt kind (ts ++ [word]) k t ∨
      (k = ts.length ∧ word.kind = kind ∧ token = t ∧ token.kind = .ident ∧
        ∀ j other, NamedAt kind (ts ++ [word]) j other → other.value ≠ token.value) := by
  constructor
  · rintro ⟨hhere, hfirst⟩
    rcases namedAt_snoc.1 hhere with hold | ⟨rfl, hw, rfl, hident⟩
    · exact .inl ⟨hold, fun j other hj => hfirst j other (namedAt_snoc.2 (.inl hj))⟩
    · refine .inr ⟨rfl, hw, rfl, hident, fun j other hj he => ?_⟩
      have hle := hfirst j other (namedAt_snoc.2 (.inl hj)) he
      have hlt := hj.before
      omega
  · rintro (⟨hhere, hfirst⟩ | ⟨rfl, hw, rfl, hident, hnone⟩)
    · refine ⟨namedAt_snoc.2 (.inl hhere), fun j other hj he => ?_⟩
      rcases namedAt_snoc.1 hj with hold | ⟨rfl, -⟩
      · exact hfirst j other hold he
      · exact Nat.le_of_lt hhere.before
    · refine ⟨namedAt_snoc.2 (.inr ⟨rfl, hw, rfl, hident⟩), fun j other hj he => ?_⟩
      rcases namedAt_snoc.1 hj with hold | ⟨rfl, -⟩
      · exact absurd he (hnone j other hold)
      · exact Nat.le_refl _

/-- Every name stands somewhere for the first time. -/
theorem NamedAt.exists_first (h : NamedAt kind ts k token) :
    ∃ j other, FirstAt kind ts j other ∧ other.value = token.value := by
  induction k using Nat.strongRecOn generalizing token with
  | ind k ih =>
    by_cases hearlier : ∃ j other, NamedAt kind ts j other ∧ other.value = token.value ∧ j < k
    · obtain ⟨j, other, hj, he, hlt⟩ := hearlier
      obtain ⟨i, first, hi, hfirst⟩ := ih j hlt hj
      exact ⟨i, first, hi, hfirst.trans he⟩
    · refine ⟨k, token, ⟨h, fun j other hj he => ?_⟩, rfl⟩
      by_contra hlt
      exact hearlier ⟨j, other, hj, he, by omega⟩

end Grammar

open Grammar (NamedAt FirstAt namedAt_snoc firstAt_snoc)

namespace Names

variable {names : Names} {ts : List Token} {word token : Token}

/-- The variables set and the labels placed are those whose names stand in `ts` behind such a word,
each kept once. The labels jumped to stand in the order in which the jumps to them come first, each
with the token of that first jump. -/
structure Records (names : Names) (ts : List Token) : Prop where
  declared : ∀ name, name ∈ names.declared ↔
    ∃ k token, (NamedAt .assign ts k token ∨ NamedAt .input ts k token) ∧ token.value = name
  labels : ∀ name, name ∈ names.labels ↔ ∃ k token, NamedAt .label ts k token ∧ token.value = name
  distinct : names.declared.Nodup ∧ names.labels.Nodup
  jumps : ∃ firsts : List (Nat × Token), firsts.Pairwise (·.1 < ·.1) ∧
    (∀ k token, (k, token) ∈ firsts ↔ FirstAt .goto ts k token) ∧
    names.jumps = firsts.map fun first => (first.2.value, first.2)

/-- Behind one more token counts only whether it is the name of the word in front of it. -/
theorem follow_snoc : names.follow (ts ++ [word, token]) =
    (names.follow (ts ++ [word])).meet word token := by
  induction ts generalizing names with
  | nil => rfl
  | cons first ts ih =>
    cases ts with
    | nil => exact ih
    | cons second rest => exact ih

theorem nodup_insertInto {v : Value} {vs : List Value} (hv : v.IsText) (h : vs.Nodup) :
    (v.insertInto vs).Nodup := by
  unfold Value.insertInto
  split
  · exact h
  · rename_i hnot
    rw [Value.isIn_text hv] at hnot
    exact List.nodup_append.2 ⟨h, by simp, by simpa using fun w hw => by rintro rfl; exact hnot hw⟩

@[simp] theorem addJump_declared (names : Names) (name : Value) (token : Token) :
    (names.addJump name token).declared = names.declared := by
  unfold addJump
  split <;> rfl

@[simp] theorem addJump_labels (names : Names) (name : Value) (token : Token) :
    (names.addJump name token).labels = names.labels := by
  unfold addJump
  split <;> rfl

theorem mem_meet_declared (htext : token.kind = .ident → token.value.IsText) {name : Value} :
    name ∈ (names.meet word token).declared ↔
      ((word.kind = .assign ∨ word.kind = .input) ∧ token.kind = .ident ∧ name = token.value) ∨
        name ∈ names.declared := by
  by_cases hk : token.kind = .ident
  · have hmem := Value.mem_insertInto (htext hk) name names.declared
    cases hw : word.kind <;> simp [meet, hk, hw, addVariable, addLabel, hmem]
  · simp [meet, hk]

theorem mem_meet_labels (htext : token.kind = .ident → token.value.IsText) {name : Value} :
    name ∈ (names.meet word token).labels ↔
      (word.kind = .label ∧ token.kind = .ident ∧ name = token.value) ∨ name ∈ names.labels := by
  by_cases hk : token.kind = .ident
  · have hmem := Value.mem_insertInto (htext hk) name names.labels
    cases hw : word.kind <;> simp [meet, hk, hw, addVariable, addLabel, hmem]
  · simp [meet, hk]

theorem nodup_meet (htext : token.kind = .ident → token.value.IsText)
    (h : names.declared.Nodup ∧ names.labels.Nodup) :
    (names.meet word token).declared.Nodup ∧ (names.meet word token).labels.Nodup := by
  by_cases hk : token.kind = .ident
  · have hd := nodup_insertInto (htext hk) h.1
    have hl := nodup_insertInto (htext hk) h.2
    cases hw : word.kind <;> simp [meet, hk, hw, addVariable, addLabel, h, hd, hl]
  · simpa [meet, hk] using h

/-- Only a name behind the word of a jump changes the jumps, and only when it has not been jumped
to. -/
theorem meet_jumps (htext : token.kind = .ident → token.value.IsText) :
    (names.meet word token).jumps =
      if word.kind = .goto ∧ token.kind = .ident ∧ token.value ∉ names.jumps.map Prod.fst then
        names.jumps ++ [(token.value, token)]
      else names.jumps := by
  by_cases hk : token.kind = .ident
  · obtain ⟨s, hs⟩ := htext hk
    have hany : (names.jumps.any fun jump => token.value.same jump.1) = true ↔
        token.value ∈ names.jumps.map Prod.fst := by
      rw [← Value.isIn_text ⟨s, hs⟩, Value.isIn, List.any_map]
      rfl
    cases hw : word.kind
    case goto =>
      simp only [meet, hk, hw, if_true, addJump, true_and]
      by_cases hin : token.value ∈ names.jumps.map Prod.fst
      · rw [if_pos (hany.2 hin), if_neg (not_not.2 hin)]
      · rw [if_neg (mt hany.1 hin), if_pos hin]
    all_goals simp [meet, hk, hw, addVariable, addLabel]
  · simp [meet, hk]

/-- A label that is jumped to is the name of a token, whatever that is. -/
theorem jump_of_follow {jump : Value × Token} (h : jump ∈ (names.follow ts).jumps) :
    jump ∈ names.jumps ∨ jump.1 = jump.2.value ∧ jump.2 ∈ ts ∧ jump.2.kind = .ident := by
  induction ts generalizing names with
  | nil => exact .inl h
  | cons word ts ih =>
    cases ts with
    | nil => exact .inl h
    | cons token rest =>
      rcases ih h with hmet | ⟨hvalue, hmem, hk⟩
      · by_cases hk : token.kind = .ident
        · cases hw : word.kind
          case goto =>
            simp only [meet, hk, hw, if_true, addJump] at hmet
            split at hmet
            · exact .inl hmet
            · rcases List.mem_append.1 hmet with hold | hnew
              · exact .inl hold
              · rw [List.mem_singleton.1 hnew]
                exact .inr ⟨rfl, by simp, hk⟩
          all_goals exact .inl (by simpa [meet, hk, hw, addVariable, addLabel] using hmet)
        · exact .inl (by simpa [meet, hk] using hmet)
      · exact .inr ⟨hvalue, List.mem_cons_of_mem _ hmem, hk⟩

/-! ## Token by token -/

/-- With less than two tokens there is no name behind a word. -/
theorem Records.none (h : ts.length ≤ 1) : ({} : Names).Records ts where
  declared name := by simp [NamedAt.short h]
  labels name := by simp [NamedAt.short h]
  distinct := by simp
  jumps := ⟨[], .nil, fun k token => by simpa using fun hf : FirstAt _ _ _ _ => hf.here.short h, rfl⟩

/-- The labels jumped to are those behind the word of a jump. -/
theorem Records.mem_jumps (h : names.Records ts) {name : Value} :
    name ∈ names.jumps.map Prod.fst ↔ ∃ k token, NamedAt .goto ts k token ∧ token.value = name := by
  obtain ⟨firsts, -, hfirsts, hjumps⟩ := h.jumps
  rw [hjumps, List.map_map]
  constructor
  · intro hm
    obtain ⟨⟨k, token⟩, hmem, hvalue⟩ := List.mem_map.1 hm
    exact ⟨k, token, ((hfirsts k token).1 hmem).here, hvalue⟩
  · rintro ⟨k, token, hk, rfl⟩
    obtain ⟨j, first, hfirst, hvalue⟩ := hk.exists_first
    exact List.mem_map.2 ⟨(j, first), (hfirsts j first).2 hfirst, hvalue⟩

/-- One token more is recorded. -/
theorem Records.step (h : names.Records (ts ++ [word]))
    (htext : token.kind = .ident → token.value.IsText) :
    (names.meet word token).Records (ts ++ [word, token]) where
  declared name := by
    rw [mem_meet_declared htext, h.declared]
    simp only [namedAt_snoc]
    grind
  labels name := by
    rw [mem_meet_labels htext, h.labels]
    simp only [namedAt_snoc]
    grind
  distinct := nodup_meet htext h.distinct
  jumps := by
    obtain ⟨firsts, hsorted, hfirsts, hjumps⟩ := h.jumps
    have hnone : token.value ∉ names.jumps.map Prod.fst ↔
        ∀ j other, NamedAt .goto (ts ++ [word]) j other → other.value ≠ token.value := by
      rw [h.mem_jumps]
      push Not
      rfl
    rw [meet_jumps htext]
    split
    · rename_i hnew
      obtain ⟨hw, hk, hnot⟩ := hnew
      refine ⟨firsts ++ [(ts.length, token)], ?_, fun k t => ?_, by simp [hjumps]⟩
      · refine List.pairwise_append.2 ⟨hsorted, List.pairwise_singleton _ _, fun first hm last hl => ?_⟩
        rw [List.mem_singleton.1 hl]
        exact ((hfirsts _ _).1 hm).here.before
      · rw [firstAt_snoc, List.mem_append, hfirsts, List.mem_singleton, Prod.mk.injEq]
        exact or_congr_right ⟨fun ⟨hl, ht⟩ => ⟨hl, hw, ht.symm, hk, hnone.1 hnot⟩,
          fun ⟨hl, _, ht, _⟩ => ⟨hl, ht.symm⟩⟩
    · rename_i hold
      refine ⟨firsts, hsorted, fun k t => ?_, hjumps⟩
      rw [firstAt_snoc, hfirsts]
      refine ⟨.inl, fun hf => hf.elim id fun ⟨_, hw, _, hk, hn⟩ => ?_⟩
      exact absurd ⟨hw, hk, hnone.2 hn⟩ hold

/-- **What is kept behind some tokens are exactly their names.** -/
theorem follow_records (htexts : ∀ token ∈ ts, token.kind = .ident → token.value.IsText) :
    (({} : Names).follow ts).Records ts := by
  induction ts using List.reverseRecOn with
  | nil => exact Records.none (Nat.zero_le _)
  | append_singleton us token ih =>
    cases us using List.reverseRecOn with
    | nil => exact Records.none (Nat.le_refl _)
    | append_singleton ts word =>
      rw [List.append_assoc, List.singleton_append, follow_snoc]
      exact (ih fun t ht => htexts t (List.mem_append_left _ ht)).step (htexts token (by simp))

end Names

end BasicToC
