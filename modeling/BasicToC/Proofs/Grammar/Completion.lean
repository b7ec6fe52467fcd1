import BasicToC.Proofs.Grammar.Shape
import BasicToC.Proofs.Names.Follow
import Mathlib.Algebra.Order.BigOperators.Group.List
import Mathlib.Algebra.Order.Group.Nat
import Mathlib.Data.List.Dedup

/-!
# Completing what has been begun

Which tokens can be continued to something that the grammar derives and whose names keep the rules.

* `Plain`: tokens to finish with.
* `Viable`: tokens that can be finished. `Viable.wrap`: part of a whole.
* `Begun`, `Body`: a statement that has been begun, and the inside of a block up to its end.
* `Listing`: lists of statements, which can be finished behind each of them.
* `Comparison.quiet`, `Statement.follow`: which names computations and statements leave behind.
* `Plain.nesting`: finishing opens no block.
* `Viable.program`: a program that can be finished can be finished so that no jump is stray.
-/

set_option autoImplicit false

namespace BasicToC.Grammar

variable {ts us : List Token} {t : Tree}

/-! ## Tokens to finish with -/

/-- Tokens to finish a program with: they may stand in a text, and they open no block. -/
def Plain (ts : List Token) : Prop :=
  ∀ token ∈ ts, token.Proper ∧ token.kind ≠ .when ∧ token.kind ≠ .loop

/-- A keyword, an operator or a line end. -/
def mark (kind : Token.Kind) : Token := { kind := kind }

/-- The number one. -/
def one : Token := { kind := .integer, value := .whole 1 }

/-- A name. -/
def nameOf (s : String) : Token := { kind := .ident, value := .text s }

theorem Plain.append (ht : Plain ts) (hu : Plain us) : Plain (ts ++ us) := by
  intro token h
  rcases List.mem_append.1 h with h | h
  · exact ht token h
  · exact hu token h

theorem Plain.cons {token : Token} (h : Plain [token]) (ht : Plain ts) : Plain (token :: ts) :=
  h.append ht

theorem Plain.nil : Plain [] := fun _ h => by simp at h

theorem plain_one : Plain [one] := by
  intro token h
  rw [List.mem_singleton.1 h]
  exact ⟨⟨by decide, 1, rfl⟩, by decide, by decide⟩

theorem plain_name (s : String) : Plain [nameOf s] := by
  intro token h
  rw [List.mem_singleton.1 h]
  exact ⟨⟨by simp [nameOf], s, rfl⟩, by simp [nameOf], by simp [nameOf]⟩

/-- The kinds of the marks that a program is finished with. -/
def finishing : List Token.Kind := [.newline, .eq, .andThen, .again, .endWhen, .endLoop, .label]

theorem plain_mark {kind : Token.Kind} (h : kind ∈ finishing) : Plain [mark kind] := by
  intro token hm
  rw [List.mem_singleton.1 hm]
  have hall : ∀ kind ∈ finishing, kind ≠ .eof ∧ kind ≠ .when ∧ kind ≠ .loop := by decide
  obtain ⟨heof, hwhen, hloop⟩ := hall kind h
  refine ⟨⟨heof, ?_⟩, hwhen, hloop⟩
  simp only [finishing, List.mem_cons, List.not_mem_nil, or_false] at h
  rcases h with rfl | rfl | rfl | rfl | rfl | rfl | rfl <;> rfl

theorem plain_line : Plain [mark .newline] := plain_mark (by decide)

theorem Plain.nestingFrom_eq (h : Plain us) (level : Nat) : nestingFrom level us = level := by
  induction us generalizing level with
  | nil => rfl
  | cons token us ih =>
    have hle : levelAfter level token ≤ level := by
      obtain ⟨-, hwhen, hloop⟩ := h token List.mem_cons_self
      unfold levelAfter
      split <;> simp_all
    rw [nestingFrom, ih fun t ht => h t (List.mem_cons_of_mem _ ht)]
    omega

/-- Finishing opens no block. -/
theorem Plain.nesting (h : Plain us) (level : Nat) :
    nestingFrom level (ts ++ us) = nestingFrom level ts := by
  have hlast := last_le_nestingFrom level ts
  rw [nestingFrom_append, h.nestingFrom_eq]
  omega

/-! ## Names in computations and statements -/

theorem quiet_of_kinds (h : ∀ token ∈ ts, token.kind ∈ computing) : Quiet ts := by
  have hall : ∀ kind ∈ computing, kind ∉ naming := by decide
  exact fun token hm => hall _ (h token hm)

theorem Expression.quiet (h : Expression ts t) : Quiet ts := quiet_of_kinds h.kinds

theorem Comparison.quiet (h : Comparison ts t) : Quiet ts := quiet_of_kinds h.kinds

theorem LineEnds.quiet (h : LineEnds ts) : Quiet ts := fun token hm => by
  rw [h token hm]
  decide

/-- A statement ends with its line. -/
theorem Statement.last (h : Statement ts t) :
    ∃ front stop, ts = front ++ [stop] ∧ stop.kind = .newline := by
  cases h with
  | print hw he hs => exact ⟨_, _, rfl, hs⟩
  | @printText word text stop hw ht hs => exact ⟨[word, text], stop, rfl, hs⟩
  | @block opener middle closer node o m s c stop ts us condition body hb ho hc hm hs hrows hcl ht =>
    exact ⟨o :: ts ++ m :: s :: us ++ [c], stop, by simp, ht⟩
  | @label word name stop hw hn hs => exact ⟨[word, name], stop, rfl, hs⟩
  | @goto word name stop hw hn hs => exact ⟨[word, name], stop, rfl, hs⟩
  | assign hw hn he hx hs => exact ⟨_, _, rfl, hs⟩
  | @input word name stop hw hn hs => exact ⟨[word, name], stop, rfl, hs⟩

/-- No name is kept across the end of a statement. -/
theorem Statement.follow (h : Statement ts t) (names : Names) (us : List Token) :
    names.follow (ts ++ us) = (names.follow ts).follow us := by
  obtain ⟨front, stop, rfl, hs⟩ := h.last
  exact Names.follow_append (by rw [hs]; decide)

/-! ## Tokens that can be finished -/

/-- Tokens that can be finished to something derived whose names pass their checks. -/
def Viable (derives : List Token → Tree → Prop) (ledger : Ledger) (passed : List Token) : Prop :=
  ∃ more t, Plain more ∧ derives (passed ++ more) t ∧ ledger.Allows t.mentions

/-- The front of what can be finished can be finished. -/
theorem Viable.shorten {derives : List Token → Tree → Prop} {ledger : Ledger}
    {front : List Token} (back : List Token) (h : Viable derives ledger (front ++ back)) (hback : Plain back) :
    Viable derives ledger front := by
  obtain ⟨more, t, hmore, ht, hallows⟩ := h
  exact ⟨back ++ more, t, hback.append hmore, by rw [← List.append_assoc]; exact ht, hallows⟩

/-- What can be finished can be finished as part of a whole: behind what has been passed of it and
mentioned in it, and in front of what it ends with. -/
theorem Viable.wrap {derives derives' : List Token → Tree → Prop} {ledger : Ledger}
    {passed : List Token} (front back : List Token) (ms : List Mention)
    (h : Viable derives (ledger.record ms) passed) (hms : ledger.Allows ms) (hback : Plain back)
    (hwrap : ∀ ts t, derives ts t →
      ∃ u, derives' (front ++ ts ++ back) u ∧ u.mentions = ms ++ t.mentions) :
    Viable derives' ledger (front ++ passed) := by
  obtain ⟨more, t, hmore, ht, hallows⟩ := h
  obtain ⟨u, hu, hmentions⟩ := hwrap _ _ ht
  refine ⟨more ++ back, u, hmore.append hback, ?_, ?_⟩
  · have hassoc : front ++ passed ++ (more ++ back) = front ++ (passed ++ more) ++ back := by simp
    rw [hassoc]
    exact hu
  · rw [hmentions]
    exact Ledger.allows_append.2 ⟨hms, hallows⟩

/-- What can be finished can be finished as something else that is spelled alike. -/
theorem Viable.map {derives derives' : List Token → Tree → Prop} {ledger : Ledger}
    {passed : List Token} (h : Viable derives ledger passed)
    (hmap : ∀ ts t, derives ts t → ∃ u, derives' ts u ∧ u.mentions = t.mentions) :
    Viable derives' ledger passed := by
  obtain ⟨more, t, hmore, ht, hallows⟩ := h
  obtain ⟨u, hu, hmentions⟩ := hmap _ _ ht
  exact ⟨more, u, hmore, hu, hmentions ▸ hallows⟩

/-- What has been passed on the way to the end of a statement: blank lines, and then a statement that
can be finished, if any has been begun. -/
def Begun (ledger : Ledger) (passed : List Token) : Prop :=
  LineEnds passed ∨ ∃ blank ts, passed = blank ++ ts ∧ LineEnds blank ∧ Viable Statement ledger ts

/-- The statements of a block and its end. -/
def Body (closer : Token.Kind) (ts : List Token) (t : Tree) : Prop :=
  ∃ us c stop, ts = us ++ [c, stop] ∧ Rows Statement us t ∧ c.kind = closer ∧ stop.kind = .newline

/-- Lists of statements: those of a program, and those of a block with its end. -/
structure Listing (rows : List Token → Tree → Prop) : Prop where
  ends : ∃ fin, Plain fin ∧ rows fin .done
  next : ∀ {blank ts us : List Token} {first rest : Tree}, LineEnds blank → Statement ts first →
    rows us rest → rows (blank ++ ts ++ us) (.sequence first rest)
  blank : ∀ {blank us : List Token} {t : Tree}, LineEnds blank → rows us t → rows (blank ++ us) t

theorem Rows.blank {statement : List Token → Tree → Prop} {blank : List Token}
    (hb : LineEnds blank) (h : Rows statement ts t) : Rows statement (blank ++ ts) t := by
  cases h with
  | done hb' => exact .done (hb.append hb')
  | next hb' hs hrest =>
    rw [← List.append_assoc, ← List.append_assoc]
    exact .next (hb.append hb') hs hrest

theorem program_listing : Listing Program where
  ends := ⟨[], Plain.nil, .done LineEnds.nil⟩
  next := .next
  blank := Rows.blank

theorem body_listing {closer : Token.Kind} (h : closer ∈ [Token.Kind.endWhen, .endLoop]) :
    Listing (Body closer) where
  ends := by
    have hmark : closer ∈ finishing := by
      simp only [List.mem_cons, List.not_mem_nil, or_false] at h
      rcases h with rfl | rfl <;> decide
    refine ⟨[mark closer, mark .newline], (plain_mark hmark).cons plain_line, ?_⟩
    exact ⟨[], _, _, rfl, .done LineEnds.nil, rfl, rfl⟩
  next := by
    rintro blank ts us first rest hb hs ⟨vs, c, stop, rfl, hrows, hc, hstop⟩
    exact ⟨blank ++ ts ++ vs, c, stop, by simp, .next hb hs hrows, hc, hstop⟩
  blank := by
    rintro blank us t hb ⟨vs, c, stop, rfl, hrows, hc, hstop⟩
    exact ⟨blank ++ vs, c, stop, by simp, hrows.blank hb, hc, hstop⟩

section Listings

variable {rows : List Token → Tree → Prop} {ledger : Ledger} {blank passed : List Token}

/-- Blank lines can be finished. -/
theorem Listing.viable_blank (h : Listing rows) (hb : LineEnds blank) : Viable rows ledger blank := by
  obtain ⟨fin, hfin, hrows⟩ := h.ends
  exact ⟨fin, .done, hfin, h.blank hb hrows, trivial⟩

/-- A statement that has been begun can be finished, and then the list. -/
theorem Listing.viable_begun (h : Listing rows) (hb : LineEnds blank) (hbegun : Begun ledger passed) :
    Viable rows ledger (blank ++ passed) := by
  rcases hbegun with hpassed | ⟨blank', ts, rfl, hb', hviable⟩
  · exact h.viable_blank (hb.append hpassed)
  · obtain ⟨fin, hfin, hrows⟩ := h.ends
    rw [← List.append_assoc]
    refine Viable.wrap _ fin [] hviable trivial hfin fun us u hu => ⟨.sequence u .done, ?_, ?_⟩
    · exact h.next (hb.append hb') hu hrows
    · simp [Tree.mentions]

/-- Statements can be finished behind a statement. -/
theorem Listing.viable_next (h : Listing rows) {first : Tree} (hb : LineEnds blank)
    (hfirst : Statement ts first) (hallows : ledger.Allows first.mentions)
    (hviable : Viable rows (ledger.record first.mentions) passed) :
    Viable rows ledger (blank ++ ts ++ passed) :=
  Viable.wrap _ [] first.mentions hviable hallows Plain.nil fun us u hu =>
    ⟨.sequence first u, by rw [List.append_nil]; exact h.next hb hfirst hu, rfl⟩

end Listings

/-- How many characters a name has. -/
def nameLength : Value → Nat
  | .text s => s.length
  | _ => 0

/-- There is always a name left: one that is longer than all others together. -/
theorem exists_fresh (vs : List Value) : ∃ s, (Value.text s).isIn vs = false := by
  obtain ⟨s, hlength⟩ : ∃ s : String, s.length = (vs.map nameLength).sum + 1 :=
    ⟨String.ofList (List.replicate ((vs.map nameLength).sum + 1) 'x'), by simp⟩
  refine ⟨s, ?_⟩
  rw [← Bool.not_eq_true, Value.isIn_text ⟨s, rfl⟩]
  intro hmem
  have hle : nameLength (.text s) ≤ (vs.map nameLength).sum :=
    List.le_sum_of_mem (List.mem_map_of_mem hmem)
  have hsize : nameLength (.text s) = s.length := rfl
  omega

/-! ## Finishing a program -/

/-- Two lists of statements, one behind the other. -/
theorem Rows.append (h : Rows Statement ts t) {u : Tree} (hu : Rows Statement us u) :
    Rows Statement (ts ++ us) (u.chainOnto t.elements) := by
  induction h with
  | done hb => exact hu.blank hb
  | @next blank vs ws first rest hb hs _ ih =>
    rw [List.append_assoc]
    exact .next hb hs ih

/-- The names in them are the names in both. -/
theorem Rows.append_mentions (h : Rows Statement ts t) (u : Tree) :
    (u.chainOnto t.elements).mentions = t.mentions ++ u.mentions := by
  induction h with
  | done hb => rfl
  | @next blank vs ws first rest hb hs _ ih =>
    show first.mentions ++ (u.chainOnto rest.elements).mentions = _
    rw [ih, Tree.mentions, List.append_assoc]

/-- Statements that place some labels. -/
def placing (labels : List Value) : List Token :=
  labels.flatMap fun label => [mark .label, { kind := .ident, value := label }, mark .newline]

theorem placing_rows (labels : List Value) :
    ∃ t, Rows Statement (placing labels) t ∧ t.mentions = labels.map .places := by
  induction labels with
  | nil => exact ⟨.done, .done LineEnds.nil, rfl⟩
  | cons label labels ih =>
    obtain ⟨t, ht, hmentions⟩ := ih
    have hlabel : Statement [mark .label, { kind := .ident, value := label }, mark .newline]
        (.label (.leaf label)) := .label rfl rfl rfl
    refine ⟨.sequence (.label (.leaf label)) t, ?_, ?_⟩
    · exact program_listing.next LineEnds.nil hlabel ht
    · simp only [Tree.mentions, hmentions, List.map_cons, List.singleton_append]

theorem plain_placing {labels : List Value} (h : ∀ label ∈ labels, label.IsText) :
    Plain (placing labels) := by
  intro token hm
  obtain ⟨label, hlabel, hm⟩ := List.mem_flatMap.1 hm
  obtain ⟨s, rfl⟩ := h label hlabel
  have hall : Plain [mark .label, nameOf s, mark .newline] :=
    (plain_mark (by decide)).cons ((plain_name s).cons plain_line)
  exact hall token hm

/-- New labels can be placed at the end. -/
theorem allows_places {labels : List Value} (htexts : ∀ label ∈ labels, label.IsText)
    (hnodup : labels.Nodup) {ledger : Ledger}
    (hfresh : ∀ label ∈ labels, label ∉ ledger.labels) :
    ledger.Allows (labels.map .places) := by
  induction labels generalizing ledger with
  | nil => trivial
  | cons label labels ih =>
    obtain ⟨hnot, hnodup⟩ := List.nodup_cons.1 hnodup
    have htext := htexts label List.mem_cons_self
    refine ⟨?_, ih (fun l hl => htexts l (List.mem_cons_of_mem _ hl)) hnodup fun l hl hmem => ?_⟩
    · show label.isIn ledger.labels = false
      rw [← Bool.not_eq_true, Value.isIn_text htext]
      exact hfresh label List.mem_cons_self
    · rcases (Value.mem_insertInto (v := label) htext l ledger.labels).1 hmem with rfl | hmem
      · exact hnot hl
      · exact hfresh l (List.mem_cons_of_mem _ hl) hmem

/-- **A program that can be finished can be finished so that its names keep the rules**: the labels
that are jumped to and not placed are placed at its end. -/
theorem Viable.program {passed : List Token} (hpassed : ∀ token ∈ passed, token.Proper)
    (h : Viable Program {} passed) :
    ∃ more t, Plain more ∧ Program (passed ++ more) t ∧ WellNamed t.mentions := by
  obtain ⟨more, t, hmore, ht, hallows⟩ := h
  have hproper : ∀ token ∈ passed ++ more, token.Proper := by
    intro token hm
    rcases List.mem_append.1 hm with hm | hm
    · exact hpassed token hm
    · exact (hmore token hm).1
  have htexts := Program.texts hproper ht
  have hholds := Ledger.Holds.empty.record htexts
  rw [List.nil_append] at hholds
  -- The labels that are still to be placed, each once.
  obtain ⟨labels, hlabels⟩ : ∃ labels, labels = ((({} : Ledger).record t.mentions).jumps.filter
    fun name => !name.isIn (({} : Ledger).record t.mentions).labels).dedup := ⟨_, rfl⟩
  have hmem : ∀ name, name ∈ labels ↔
      .jumps name ∈ t.mentions ∧ .places name ∉ t.mentions := by
    intro name
    rw [hlabels, List.mem_dedup, List.mem_filter, hholds.jumps]
    refine and_congr_right fun hjump => ?_
    rw [Bool.not_eq_true', ← Bool.not_eq_true, Value.isIn_text (v := name) (htexts _ hjump),
      hholds.labels]
  have hlabeltexts : ∀ label ∈ labels, label.IsText := fun label h => htexts _ ((hmem label).1 h).1
  obtain ⟨u, hu, hplaces⟩ := placing_rows labels
  obtain ⟨v, hv, hmentions⟩ : ∃ v, Rows Statement (passed ++ more ++ placing labels) v ∧
      v.mentions = t.mentions ++ u.mentions := ⟨_, Rows.append ht hu, Rows.append_mentions ht u⟩
  refine ⟨more ++ placing labels, v, hmore.append (plain_placing hlabeltexts), ?_, ?_⟩
  · rw [← List.append_assoc]
    exact hv
  · have hall : ∀ m ∈ v.mentions, m.name.IsText := by
      intro m hm
      rw [hmentions, hplaces] at hm
      rcases List.mem_append.1 hm with hm | hm
      · exact htexts m hm
      · obtain ⟨label, hlabel, rfl⟩ := List.mem_map.1 hm
        exact hlabeltexts label hlabel
    have hfresh : (({} : Ledger).record t.mentions).Allows (labels.map .places) := by
      refine allows_places hlabeltexts (hlabels ▸ List.nodup_dedup _) fun label hlabel hin => ?_
      exact ((hmem label).1 hlabel).2 ((hholds.labels label).1 hin)
    have hset := Ledger.Holds.empty.record hall
    rw [List.nil_append] at hset
    refine (allows_iff_wellNamed hall).1 ⟨?_, fun name hjump => ?_⟩
    · rw [hmentions, hplaces]
      exact Ledger.allows_append.2 ⟨hallows, hfresh⟩
    · have hjump := (hset.jumps name).1 hjump
      rw [Value.isIn_text (v := name) (hall _ hjump), hset.labels]
      rw [hmentions, hplaces] at hjump ⊢
      have hold : .jumps name ∈ t.mentions := by
        rcases List.mem_append.1 hjump with h | h
        · exact h
        · obtain ⟨label, -, hlabel⟩ := List.mem_map.1 h
          cases hlabel
      by_cases hplaced : .places name ∈ t.mentions
      · exact List.mem_append_left _ hplaced
      · exact List.mem_append_right _ (List.mem_map_of_mem ((hmem name).2 ⟨hold, hplaced⟩))

end BasicToC.Grammar
