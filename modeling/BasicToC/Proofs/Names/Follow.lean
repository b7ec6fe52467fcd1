import BasicToC.Proofs.Grammar.Derivation
import BasicToC.Proofs.Names.Ledger

/-!
# Names from tokens alone

Which names a reader keeps depends on nothing but the tokens that it has passed: each name stands
directly behind the word that gives it its part.

* `Names.meet`, `Names.follow`: the names that are kept behind some tokens.
* `follow_quiet`, `follow_append`: tokens without such words, and tokens one after another.
* `Grammar.named`, `Grammar.NamedAt`: the names directly behind a word of some kind.
* `strayJump_follow`, `first_stray`: the jump that is found to be stray is the first one in the
  program.
-/

set_option autoImplicit false

namespace BasicToC

namespace Grammar

/-- The words that a name stands behind which is set, placed or jumped to. -/
def naming : List Token.Kind := [.assign, .input, .label, .goto]

/-- Tokens of which none is such a word. -/
def Quiet (ts : List Token) : Prop := ∀ token ∈ ts, token.kind ∉ naming

/-- The names that stand directly behind a word of some kind. -/
def named (kind : Token.Kind) : List Token → List Token
  | word :: token :: rest =>
    if word.kind = kind ∧ token.kind = .ident then token :: named kind (token :: rest)
    else named kind (token :: rest)
  | _ => []

theorem named_mem {kind : Token.Kind} {ts : List Token} :
    ∀ token ∈ named kind ts, token ∈ ts ∧ token.kind = .ident := by
  induction ts with
  | nil => simp [named]
  | cons word ts ih =>
    cases ts with
    | nil => simp [named]
    | cons token rest =>
      intro t ht
      unfold named at ht
      split at ht
      · rename_i h
        rcases List.mem_cons.1 ht with rfl | ht
        · exact ⟨by simp, h.2⟩
        · exact ⟨List.mem_cons_of_mem _ (ih t ht).1, (ih t ht).2⟩
      · exact ⟨List.mem_cons_of_mem _ (ih t ht).1, (ih t ht).2⟩

/-- A name stands directly behind a word of some kind, which is the `k`-th token. -/
structure NamedAt (kind : Token.Kind) (ts : List Token) (k : Nat) (token : Token) : Prop where
  behind : ∃ word, ts[k]? = some word ∧ word.kind = kind
  found : ts[k + 1]? = some token
  ident : token.kind = .ident

/-- A label that no part of the program places. -/
def Stray (ts : List Token) (token : Token) : Prop :=
  ∀ k label, NamedAt .label ts k label → label.value ≠ token.value

theorem NamedAt.succ {kind : Token.Kind} {ts : List Token} {k : Nat} {word token : Token} :
    NamedAt kind (word :: ts) (k + 1) token ↔ NamedAt kind ts k token :=
  ⟨fun h => ⟨by simpa using h.behind, by simpa using h.found, h.ident⟩,
    fun h => ⟨by simpa using h.behind, by simpa using h.found, h.ident⟩⟩

theorem NamedAt.zero {kind : Token.Kind} {ts : List Token} {word next token : Token} :
    NamedAt kind (word :: next :: ts) 0 token ↔
      word.kind = kind ∧ next = token ∧ token.kind = .ident :=
  ⟨fun h => ⟨by simpa using h.behind, by simpa using h.found, h.ident⟩,
    fun ⟨hw, hn, hk⟩ => ⟨by simpa using hw, by simpa using hn, hk⟩⟩

/-- The names behind words of a kind are found at those words, and those in front of one of them are
found in front of it. -/
theorem named_split {kind : Token.Kind} {ts before after : List Token} {token : Token}
    (h : named kind ts = before ++ token :: after) :
    ∃ k, NamedAt kind ts k token ∧
      ∀ j other, NamedAt kind ts j other → j < k → other ∈ before := by
  induction ts generalizing before with
  | nil => simp [named] at h
  | cons word ts ih =>
    cases ts with
    | nil => simp [named] at h
    | cons next rest =>
      rw [named] at h
      split at h
      · rename_i hword
        cases before with
        | nil =>
          rw [List.nil_append, List.cons.injEq] at h
          exact ⟨0, NamedAt.zero.2 ⟨hword.1, h.1, h.1 ▸ hword.2⟩, by simp⟩
        | cons first before =>
          rw [List.cons_append, List.cons.injEq] at h
          obtain ⟨k, hk, hbefore⟩ := ih h.2
          refine ⟨k + 1, NamedAt.succ.2 hk, fun j other hj hlt => ?_⟩
          cases j with
          | zero => exact List.mem_cons.2 (.inl ((NamedAt.zero.1 hj).2.1.symm.trans h.1))
          | succ j => exact List.mem_cons_of_mem _ (hbefore j other (NamedAt.succ.1 hj) (by omega))
      · rename_i hword
        obtain ⟨k, hk, hbefore⟩ := ih h
        refine ⟨k + 1, NamedAt.succ.2 hk, fun j other hj hlt => ?_⟩
        cases j with
        | zero =>
          obtain ⟨hw, rfl, hident⟩ := NamedAt.zero.1 hj
          exact absurd ⟨hw, hident⟩ hword
        | succ j => exact hbefore j other (NamedAt.succ.1 hj) (by omega)

theorem mem_named_iff {kind : Token.Kind} {ts : List Token} {token : Token} :
    token ∈ named kind ts ↔ ∃ k, NamedAt kind ts k token := by
  constructor
  · intro h
    obtain ⟨before, after, hsplit⟩ := List.append_of_mem h
    exact (named_split hsplit).imp fun k hk => hk.1
  · rintro ⟨k, h⟩
    induction k generalizing ts with
    | zero =>
      obtain ⟨word, hword, hk⟩ := h.behind
      match ts, h, hword with
      | [], _, hword => simp at hword
      | [_], h, _ => simpa using h.found
      | first :: next :: rest, h, _ =>
        obtain ⟨hw, rfl, hident⟩ := NamedAt.zero.1 h
        rw [named, if_pos ⟨hw, hident⟩]
        exact List.mem_cons_self
    | succ k ih =>
      cases ts with
      | nil => simpa using h.found
      | cons word ts =>
        have hmem := ih (NamedAt.succ.1 h)
        cases ts with
        | nil => simp [named] at hmem
        | cons next rest =>
          rw [named]
          split
          · exact List.mem_cons_of_mem _ hmem
          · exact hmem

end Grammar

open Grammar (naming Quiet named NamedAt Stray)

namespace Names

variable {names : Names} {ts us : List Token} {word token : Token}

/-- What is kept of a name that stands directly behind a word. -/
def meet (names : Names) (word token : Token) : Names :=
  if token.kind = .ident then
    match word.kind with
    | .assign | .input => names.addVariable token.value
    | .label => names.addLabel token.value
    | .goto => names.addJump token.value token
    | _ => names
  else names

/-- The names that are kept behind some tokens. -/
def follow (names : Names) : List Token → Names
  | word :: token :: rest => (names.meet word token).follow (token :: rest)
  | _ => names

/-! ## Tokens one after another -/

theorem meet_quiet (h : word.kind ∉ naming) (token : Token) : names.meet word token = names := by
  unfold meet
  split
  · split <;> simp_all [naming]
  · rfl

theorem follow_cons (h : word.kind ∉ naming) : names.follow (word :: ts) = names.follow ts := by
  cases ts with
  | nil => rfl
  | cons token rest => rw [follow, meet_quiet h]

theorem follow_quiet (h : Quiet ts) : names.follow (ts ++ us) = names.follow us := by
  induction ts with
  | nil => rfl
  | cons word ts ih =>
    rw [List.cons_append, follow_cons (h word List.mem_cons_self),
      ih fun t ht => h t (List.mem_cons_of_mem _ ht)]

theorem follow_line {stop : Token} (h : Quiet ts) : names.follow (ts ++ [stop]) = names :=
  follow_quiet h

/-- Nothing is kept across the seam behind a token that is no naming word. -/
theorem follow_append {stop : Token} (h : stop.kind ∉ naming) :
    names.follow (ts ++ [stop] ++ us) = (names.follow (ts ++ [stop])).follow us := by
  induction ts generalizing names with
  | nil =>
    rw [List.nil_append, List.singleton_append, follow_cons h]
    rfl
  | cons word ts ih =>
    cases ts with
    | nil => exact ih
    | cons token rest => exact ih

/-- A name behind its word. -/
theorem follow_named (h : token.kind = .ident) :
    names.follow (word :: token :: ts) = (names.meet word token).follow ts := by
  rw [follow, follow_cons (by rw [h]; decide)]

/-- Behind the last word only a name counts. -/
theorem follow_stop {stop : Token} (h : stop.kind ≠ .ident) :
    names.follow (ts ++ [stop]) = names.follow ts := by
  induction ts generalizing names with
  | nil => rfl
  | cons word ts ih =>
    cases ts with
    | nil =>
      show names.meet word stop = names
      rw [meet, if_neg h]
    | cons token rest => exact ih

/-! ## Jumps and labels -/

theorem follow_labels (ts : List Token) (names : Names) :
    (names.follow ts).labels =
      (named .label ts).foldl (fun labels token => token.value.insertInto labels) names.labels := by
  induction ts generalizing names with
  | nil => rfl
  | cons word ts ih =>
    cases ts with
    | nil => rfl
    | cons token rest =>
      rw [follow, ih, named]
      by_cases h : word.kind = .label ∧ token.kind = .ident
      · rw [if_pos h, List.foldl_cons]
        simp [meet, h.1, h.2, addLabel]
      · rw [if_neg h]
        congr 1
        unfold meet addVariable addJump
        grind

theorem follow_jumps (ts : List Token) (names : Names) :
    (names.follow ts).jumps = (named .goto ts).foldl
      (fun jumps token => (({ jumps := jumps } : Names).addJump token.value token).jumps)
      names.jumps := by
  induction ts generalizing names with
  | nil => rfl
  | cons word ts ih =>
    cases ts with
    | nil => rfl
    | cons token rest =>
      rw [follow, ih, named]
      by_cases h : word.kind = .goto ∧ token.kind = .ident
      · rw [if_pos h, List.foldl_cons]
        congr 1
        simp only [meet, h.1, h.2, if_true, addJump]
        split <;> rfl
      · rw [if_neg h]
        congr 1
        unfold meet addVariable addLabel
        grind

/-- Among the first jumps to each label, the first one of some sort is the first one among all of
them. -/
theorem find_addJump {gotos : List Token} (htexts : ∀ token ∈ gotos, token.value.IsText)
    (p : Value → Bool) (jumps : List (Value × Token)) :
    ((gotos.foldl (fun jumps token =>
        (({ jumps := jumps } : Names).addJump token.value token).jumps) jumps).find?
      fun jump => p jump.1) =
      (jumps.find? fun jump => p jump.1).or
        ((gotos.find? fun token => p token.value).map fun token => (token.value, token)) := by
  induction gotos generalizing jumps with
  | nil => simp
  | cons token gotos ih =>
    obtain ⟨name, hname⟩ := htexts token List.mem_cons_self
    rw [List.foldl_cons, ih fun t ht => htexts t (List.mem_cons_of_mem _ ht)]
    simp only [addJump]
    split
    · rename_i hknown
      obtain ⟨jump, hjump, hsame⟩ := List.any_eq_true.1 hknown
      rw [hname, Value.same_text] at hsame
      by_cases hp : p token.value = true
      · -- The label is among the known ones, and so is a first one of the sort.
        have hfound : (jumps.find? fun jump => p jump.1).isSome := by
          rw [List.find?_isSome]
          exact ⟨jump, hjump, by rw [hsame, ← hname]; exact hp⟩
        rw [Option.or_of_isSome hfound, Option.or_of_isSome hfound]
      · rw [List.find?_cons_of_neg (by simpa using hp)]
    · rw [List.find?_append, Option.or_assoc]
      congr 1
      by_cases hp : p token.value = true
      · rw [List.find?_cons_of_pos (by simpa using hp),
          List.find?_cons_of_pos (by simpa using hp)]
        simp
      · rw [List.find?_cons_of_neg (by simpa using hp),
          List.find?_cons_of_neg (by simpa using hp)]
        simp

/-- A label is kept exactly when it is placed in the tokens passed. -/
theorem isIn_follow_labels {ts : List Token} (htexts : ∀ token ∈ named .label ts, token.value.IsText)
    {name : Value} (hname : name.IsText) :
    name.isIn (({} : Names).follow ts).labels = true ↔ ∃ label ∈ named .label ts, label.value = name := by
  have hmem : ∀ (labels : List Token) (kept : List Value), (∀ token ∈ labels, token.value.IsText) →
      (name ∈ labels.foldl (fun kept token => token.value.insertInto kept) kept ↔
        name ∈ kept ∨ ∃ label ∈ labels, label.value = name) := by
    intro labels
    induction labels with
    | nil => simp
    | cons label labels ih =>
      intro kept h
      rw [List.foldl_cons, ih _ fun t ht => h t (List.mem_cons_of_mem _ ht),
        Value.mem_insertInto (v := label.value) (h label List.mem_cons_self)]
      simp only [List.mem_cons, exists_eq_or_imp]
      tauto
  rw [Value.isIn_text hname, follow_labels, hmem _ _ htexts]
  simp

/-- **The jump that is found to be stray is the first one in the program.** -/
theorem strayJump_follow {ts : List Token}
    (htexts : ∀ token ∈ ts, token.kind = .ident → token.value.IsText) :
    (({} : Names).follow ts).strayJump? =
      ((named .goto ts).find? fun token => !token.value.isIn (({} : Names).follow ts).labels).map
        fun token => (token.value, token) := by
  have hgotos : ∀ token ∈ named .goto ts, token.value.IsText := fun token h =>
    htexts token (Grammar.named_mem token h).1 (Grammar.named_mem token h).2
  have hjumps := follow_jumps ts {}
  unfold strayJump?
  rw [hjumps, find_addJump hgotos fun name => !name.isIn (({} : Names).follow ts).labels]
  rfl

theorem stray_iff {ts : List Token}
    (htexts : ∀ token ∈ ts, token.kind = .ident → token.value.IsText) {token : Token}
    (h : token ∈ named .goto ts) :
    (!token.value.isIn (({} : Names).follow ts).labels) = true ↔ Stray ts token := by
  have hlabels : ∀ token ∈ named .label ts, token.value.IsText := fun token h =>
    htexts token (Grammar.named_mem token h).1 (Grammar.named_mem token h).2
  have htext := htexts token (Grammar.named_mem token h).1 (Grammar.named_mem token h).2
  rw [Bool.not_eq_true', ← Bool.not_eq_true, isIn_follow_labels hlabels htext]
  simp only [Grammar.mem_named_iff]
  exact ⟨fun h k label hk he => h ⟨label, ⟨k, hk⟩, he⟩,
    fun h ⟨label, ⟨k, hk⟩, he⟩ => h k label hk he⟩

/-- A program with a stray jump is refused because of the first one. -/
theorem first_stray {ts : List Token}
    (htexts : ∀ token ∈ ts, token.kind = .ident → token.value.IsText)
    (h : ∃ j token, NamedAt .goto ts j token ∧ Stray ts token) :
    ∃ k token, NamedAt .goto ts k token ∧ Stray ts token ∧
      (∀ j other, NamedAt .goto ts j other → Stray ts other → k ≤ j) ∧
      (({} : Names).follow ts).strayJump? = some (token.value, token) := by
  cases hfind : (named .goto ts).find? fun token =>
      !token.value.isIn (({} : Names).follow ts).labels with
  | none =>
    obtain ⟨j, token, hjump, hstray⟩ := h
    have hmem := Grammar.mem_named_iff.2 ⟨j, hjump⟩
    exact absurd ((stray_iff htexts hmem).2 hstray) (List.find?_eq_none.1 hfind token hmem)
  | some token =>
    obtain ⟨hp, before, after, hsplit, hbefore⟩ := List.find?_eq_some_iff_append.1 hfind
    obtain ⟨k, hk, hfront⟩ := Grammar.named_split hsplit
    refine ⟨k, token, hk, ?_, fun j other hj hstray => ?_, ?_⟩
    · exact (stray_iff htexts (Grammar.mem_named_iff.2 ⟨k, hk⟩)).1 hp
    · by_contra hlt
      have hlate := hbefore other (hfront j other hj (by omega))
      rw [(stray_iff htexts (Grammar.mem_named_iff.2 ⟨j, hj⟩)).2 hstray] at hlate
      exact absurd hlate (by decide)
    · rw [strayJump_follow htexts, hfind]
      rfl

end Names

end BasicToC
