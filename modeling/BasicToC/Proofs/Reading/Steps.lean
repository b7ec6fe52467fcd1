import BasicToC.Program.Statements
import BasicToC.Proofs.Grammar.Derivation
import BasicToC.Proofs.Names.Ledger
import BasicToC.Proofs.Sequence

/-!
# Steps of reading

What the steps do that all reading is made of, both ways: what a step that ends well has passed, and
what has to lie ahead for it to end well.

* `Reader.Moves`: from one reader to a later one, the tokens passed and the names mentioned.
* `advance_ok`, `expect_ok`, `identifier_ok`, `lineEnd_ok`, `skipLineEnds_ok`: what has been passed.
* `advance_takes`, `expect_takes`, `identifier_takes`, `lineEnd_takes`, `skipLineEnds_takes`: what
  may lie ahead.
-/

set_option autoImplicit false

namespace BasicToC

/-- A reader has passed `ts`, in which the names of `ms` are mentioned and pass their checks. -/
structure Reader.Moves (r : Reader) (ts : List Token) (ms : List Mention) (r' : Reader) : Prop where
  tokens : r'.tokens = r.tokens
  position : r'.position = r.position + ts.length
  ahead : r.ahead = ts ++ r'.ahead
  allowed : r.names.ledger.Allows ms
  ledger : r'.names.ledger = r.names.ledger.record ms

namespace Reader.Moves

variable {r r' r'' : Reader} {ts us rest : List Token} {ms ns : List Mention}

theorem refl : r.Moves [] [] r := ⟨rfl, by simp, rfl, trivial, rfl⟩

theorem trans (h : r.Moves ts ms r') (h' : r'.Moves us ns r'') :
    r.Moves (ts ++ us) (ms ++ ns) r'' where
  tokens := h'.tokens.trans h.tokens
  position := by rw [h'.position, h.position, List.length_append]; omega
  ahead := by rw [h.ahead, h'.ahead, List.append_assoc]
  allowed := Ledger.allows_append.2 ⟨h.allowed, h.ledger ▸ h'.allowed⟩
  ledger := by rw [h'.ledger, h.ledger, Ledger.record_append]

/-- Two moves, with their tokens and mentions written in another way. -/
theorem trans' {vs : List Token} {ls : List Mention} (h : r.Moves ts ms r')
    (h' : r'.Moves us ns r'') (ht : vs = ts ++ us) (hm : ls = ms ++ ns) : r.Moves vs ls r'' := by
  rw [ht, hm]
  exact h.trans h'

theorem ahead_eq (h : r.Moves ts ms r') (ha : r.ahead = ts ++ rest) : r'.ahead = rest :=
  List.append_cancel_left (h.ahead.symm.trans ha)

theorem allows (h : r.Moves ts ms r') (hn : r.names.ledger.Allows (ms ++ ns)) :
    r'.names.ledger.Allows ns :=
  h.ledger ▸ (Ledger.allows_append.1 hn).2

/-- Without a mention everything stays allowed. -/
theorem still (h : r.Moves ts [] r') (hn : r.names.ledger.Allows ns) :
    r'.names.ledger.Allows ns := h.allows hn

end Reader.Moves

namespace Read

open Reader (Moves)
open Grammar (LineEnds)

variable {α β : Type} {f : Read α} {g : α → Read β} {a : α} {b : β} {r r' r'' : Reader}
variable {token : Token} {kind : Token.Kind} {after : String} {rest : List Token}

theorem refuse_ne_ok {complaint : Complaint} : (refuse complaint token : Read α) r ≠ .ok a r' := by
  unfold refuse
  split <;> intro h <;> cases h

/-! ## One token -/

theorem peek_eq (h : r.ahead = token :: rest) : peek r = .ok token r := by
  unfold peek
  rw [bind_eq (get_eq r), h]
  rfl

theorem peek_nil (h : r.ahead = []) : peek r = .error .exhausted r := by
  unfold peek
  rw [bind_eq (get_eq r), h]
  rfl

theorem peek_ok (h : peek r = .ok token r') : r' = r ∧ ∃ rest, r.ahead = token :: rest := by
  cases ha : r.ahead with
  | nil => rw [peek_nil ha] at h; cases h
  | cons t rest =>
    rw [peek_eq ha] at h
    cases h
    exact ⟨rfl, rest, rfl⟩

theorem peek_bind_ok {g : Token → Read β} (h : (peek >>= g) r = .ok b r'') :
    ∃ token rest, r.ahead = token :: rest ∧ g token r = .ok b r'' := by
  obtain ⟨token, r', hp, h'⟩ := bind_ok h
  obtain ⟨hr, rest, ha⟩ := peek_ok hp
  exact ⟨token, rest, ha, hr ▸ h'⟩

theorem advance_eq (h : r.ahead = token :: rest) :
    advance r = .ok token (if token.kind = .eof then r else r.skip 1) := by
  unfold advance
  rw [bind_eq (peek_eq h)]
  by_cases hk : token.kind = .eof
  · simp only [hk, bne_self_eq_false, if_true]
    rfl
  · simp only [bne_iff_ne, ne_eq, hk, not_false_eq_true, if_true, if_false]
    rfl

theorem advance_token {t : Token} (h : advance r = .ok t r') (ha : r.ahead = token :: rest) :
    t = token := by
  rw [advance_eq ha] at h
  cases h
  rfl

theorem skip_one (h : r.ahead = token :: rest) : r.Moves [token] [] (r.skip 1) :=
  ⟨rfl, rfl, by simp [Reader.skip, h], trivial, rfl⟩

theorem advance_ok (h : advance r = .ok token r') (hk : token.kind ≠ .eof) :
    r.Moves [token] [] r' := by
  obtain ⟨t, rest, ha, -⟩ := peek_bind_ok h
  rw [advance_eq ha] at h
  cases h
  rw [if_neg hk]
  exact skip_one ha

theorem advance_takes (ha : r.ahead = token :: rest) (hk : token.kind ≠ .eof) :
    ∃ r', advance r = .ok token r' ∧ r.Moves [token] [] r' := by
  refine ⟨_, advance_eq ha, ?_⟩
  rw [if_neg hk]
  exact skip_one ha

theorem expect_ok (h : expect kind after r = .ok token r') (hk : kind ≠ .eof) :
    token.kind = kind ∧ r.Moves [token] [] r' := by
  obtain ⟨t, r₁, hadv, h⟩ := bind_ok h
  split at h
  · obtain ⟨_, _, hr, -⟩ := bind_ok h
    exact absurd hr refuse_ne_ok
  · rename_i hne
    cases h
    have hkind : token.kind = kind := by simpa using hne
    exact ⟨hkind, advance_ok hadv (hkind ▸ hk)⟩

theorem expect_takes (after : String) (ha : r.ahead = token :: rest) (hkind : token.kind = kind)
    (hk : kind ≠ .eof) :
    ∃ r', expect kind after r = .ok token r' ∧ r.Moves [token] [] r' := by
  obtain ⟨r', hadv, hm⟩ := advance_takes ha (hkind ▸ hk)
  refine ⟨r', ?_, hm⟩
  unfold expect
  rw [bind_eq hadv, if_neg (by simp [hkind])]
  rfl

theorem identifier_ok {name : Value} (h : identifier after r = .ok name r') :
    ∃ token, token.kind = .ident ∧ name = token.value ∧ r.Moves [token] [] r' := by
  obtain ⟨t, r₁, hadv, h⟩ := bind_ok h
  split at h
  · obtain ⟨_, _, hr, -⟩ := bind_ok h
    exact absurd hr refuse_ne_ok
  · rename_i hne
    cases h
    have hkind : t.kind = .ident := by simpa using hne
    exact ⟨t, hkind, rfl, advance_ok hadv (by simp [hkind])⟩

theorem identifier_takes (after : String) (ha : r.ahead = token :: rest) (hk : token.kind = .ident) :
    ∃ r', identifier after r = .ok token.value r' ∧ r.Moves [token] [] r' := by
  obtain ⟨r', hadv, hm⟩ := advance_takes ha (by simp [hk])
  refine ⟨r', ?_, hm⟩
  unfold identifier
  rw [bind_eq hadv, if_neg (by simp [hk])]
  rfl

theorem lineEnd_ok {u : Unit} (h : lineEnd after r = .ok u r') :
    ∃ token, token.kind = .newline ∧ r.Moves [token] [] r' := by
  obtain ⟨t, r₁, hadv, h⟩ := bind_ok h
  split at h
  · exact absurd h refuse_ne_ok
  · rename_i hne
    cases h
    have hkind : t.kind = .newline := by simpa using hne
    exact ⟨t, hkind, advance_ok hadv (by simp [hkind])⟩

theorem lineEnd_takes (after : String) (ha : r.ahead = token :: rest) (hk : token.kind = .newline) :
    ∃ r', lineEnd after r = .ok () r' ∧ r.Moves [token] [] r' := by
  obtain ⟨r', hadv, hm⟩ := advance_takes ha (by simp [hk])
  refine ⟨r', ?_, hm⟩
  unfold lineEnd
  rw [bind_eq hadv, if_neg (by simp [hk])]
  rfl

/-! ## Line ends -/

theorem skip_takeWhile (r : Reader) (p : Token → Bool) :
    r.Moves (r.ahead.takeWhile p) [] (r.skip (r.ahead.takeWhile p).length) := by
  refine ⟨rfl, rfl, ?_, trivial, rfl⟩
  exact List.prefix_iff_eq_append.1 (List.takeWhile_prefix p) |>.symm

theorem skipLineEnds_ok {u : Unit} (h : skipLineEnds r = .ok u r') :
    ∃ blank, LineEnds blank ∧ r.Moves blank [] r' := by
  unfold skipLineEnds at h
  rw [bind_eq (modify_eq _ r)] at h
  obtain ⟨t, rest, -, h⟩ := peek_bind_ok h
  cases h
  refine ⟨_, fun token ht => ?_, skip_takeWhile r _⟩
  simpa using List.all_eq_true.1 List.all_takeWhile token ht

theorem skipLineEnds_eq {blank : List Token} (ha : r.ahead = blank ++ token :: rest)
    (hb : LineEnds blank) (hk : token.kind ≠ .newline) :
    skipLineEnds r = .ok () (r.skip blank.length) := by
  have htake : r.ahead.takeWhile (·.kind == .newline) = blank := by
    rw [ha, List.takeWhile_append_of_pos (fun t ht => by simp [hb t ht])]
    simp [hk]
  have hm := skip_takeWhile r (·.kind == .newline)
  rw [htake] at hm
  unfold skipLineEnds
  rw [bind_eq (modify_eq _ r), htake, bind_eq (peek_eq (hm.ahead_eq ha))]
  rfl

theorem skipLineEnds_takes {blank : List Token} (ha : r.ahead = blank ++ token :: rest)
    (hb : LineEnds blank) (hk : token.kind ≠ .newline) :
    ∃ r', skipLineEnds r = .ok () r' ∧ r.Moves blank [] r' :=
  ⟨_, skipLineEnds_eq ha hb hk, rfl, rfl, by simp [Reader.skip, ha], trivial, rfl⟩

/-! ## Notes and names -/

theorem note_eq (event : Event) (r : Reader) :
    note event r = .ok () { r with notes := event :: r.notes } := rfl

theorem note_moves (event : Event) (r : Reader) :
    r.Moves [] [] { r with notes := event :: r.notes } := ⟨rfl, by simp, rfl, trivial, rfl⟩

theorem addVariable_moves (r : Reader) (name : Value) :
    r.Moves [] [.sets name] { r with names := r.names.addVariable name } :=
  ⟨rfl, by simp, rfl, ⟨trivial, trivial⟩, rfl⟩

theorem reads_moves {name : Value} (h : name.isIn r.names.declared = true) :
    r.Moves [] [.reads name] r := ⟨rfl, by simp, rfl, ⟨h, trivial⟩, rfl⟩

theorem addLabel_moves {name : Value} (h : name.isIn r.names.labels = false) :
    r.Moves [] [.places name] { r with names := r.names.addLabel name } :=
  ⟨rfl, by simp, rfl, ⟨h, trivial⟩, rfl⟩

theorem addJump_ledger (names : Names) (name : Value) (token : Token) :
    (names.addJump name token).ledger = names.ledger.note (.jumps name) := by
  have hany : (names.jumps.any fun jump => name.same jump.1) =
      name.isIn (names.jumps.map Prod.fst) := by
    simp [Value.isIn, List.any_map, Function.comp_def]
  unfold Names.addJump Names.ledger
  rw [hany]
  split
  · rename_i h
    simp [Ledger.note, Value.insertInto, h]
  · rename_i h
    simp [Ledger.note, Value.insertInto, h]

theorem addJump_moves (r : Reader) (name : Value) (token : Token) :
    r.Moves [] [.jumps name] { r with names := r.names.addJump name token } :=
  ⟨rfl, by simp, rfl, ⟨trivial, trivial⟩, addJump_ledger _ _ _⟩

end Read

end BasicToC
