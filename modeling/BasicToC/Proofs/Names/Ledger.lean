import BasicToC.Program.Reader
import BasicToC.Tree.Basic
import Mathlib.Data.List.Induction

/-!
# The names of a program

A program names variables and labels as it is read from left to right. What the reader keeps of
them is a ledger, and each mention of a name is one entry into it.

* `Mention`, `Tree.mentions`: the names in a tree, in the order of the program.
* `WellNamed`: the rules for names, said of the mentions alone.
* `Ledger`, `Ledger.Allows`, `Ledger.record`: what is kept, what is checked at each mention, and
  what is kept after some.
* `allows_iff_wellNamed`: the checks on the way and the check of the jumps at the end hold together
  exactly when the program is well named.
-/

set_option autoImplicit false

namespace BasicToC

/-! ## Lists of names -/

namespace Value

/-- A name that is a text. -/
def IsText (v : Value) : Prop := ∃ s, v = .text s

theorem same_text (s : String) (v : Value) : (Value.text s).same v = true ↔ v = .text s := by
  cases v <;> simp [same, compareNumbers?, counted]
  exact eq_comm

theorem isIn_text {v : Value} (hv : v.IsText) (vs : List Value) : v.isIn vs = true ↔ v ∈ vs := by
  obtain ⟨s, rfl⟩ := hv
  simp only [isIn, List.any_eq_true, same_text]
  exact ⟨fun ⟨w, hw, he⟩ => he ▸ hw, fun h => ⟨_, h, rfl⟩⟩

theorem mem_insertInto {v : Value} (hv : v.IsText) (w : Value) (vs : List Value) :
    w ∈ v.insertInto vs ↔ w = v ∨ w ∈ vs := by
  unfold insertInto
  split
  · rename_i h
    have hm := (isIn_text hv vs).1 h
    exact ⟨.inr, fun h => h.elim (fun e => e ▸ hm) id⟩
  · simp [or_comm]

end Value

/-! ## Mentions -/

/-- A name in a program: of a variable that is set or read, or of a label that is placed or jumped
to. -/
inductive Mention where
  | sets (name : Value)
  | reads (name : Value)
  | places (name : Value)
  | jumps (name : Value)
  deriving DecidableEq, Repr

/-- The name that is mentioned. -/
def Mention.name : Mention → Value
  | .sets name | .reads name | .places name | .jumps name => name

/-- The label that is placed. -/
def Mention.placed? : Mention → Option Value
  | .places name => some name
  | _ => none

/-- The names in a tree, in the order of the program. The variable of an assignment stands in front
of its expression. -/
def Tree.mentions : Tree → List Mention
  | .variable (.leaf name) => [.reads name]
  | .unary primary _ => primary.mentions
  | .term first _ rest => first.mentions ++ rest.mentions
  | .expression first _ rest => first.mentions ++ rest.mentions
  | .comparison left _ right => left.mentions ++ right.mentions
  | .print value => value.mentions
  | .assign (.leaf name) value => .sets name :: value.mentions
  | .input (.leaf name) => [.sets name]
  | .label (.leaf name) => [.places name]
  | .goto (.leaf name) => [.jumps name]
  | .when condition body => condition.mentions ++ body.mentions
  | .loop condition body => condition.mentions ++ body.mentions
  | .sequence first rest => first.mentions ++ rest.mentions
  | _ => []

/-- The rules for names: a variable is set before it is read; no label is placed twice; every label
that is jumped to is placed somewhere. -/
structure WellNamed (mentions : List Mention) : Prop where
  set_before : ∀ before name after, mentions = before ++ .reads name :: after → .sets name ∈ before
  placed_once : (mentions.filterMap Mention.placed?).Nodup
  placed : ∀ name, .jumps name ∈ mentions → .places name ∈ mentions

/-! ## The ledger -/

/-- The distinct names of the variables set, of the labels placed and of the labels jumped to. -/
structure Ledger where
  declared : List Value := []
  labels : List Value := []
  jumps : List Value := []
  deriving DecidableEq, Repr

/-- What a reader keeps of the names, apart from the tokens of the jumps. -/
def Names.ledger (names : Names) : Ledger :=
  ⟨names.declared, names.labels, names.jumps.map Prod.fst⟩

namespace Ledger

/-- The check made at a mention. -/
def permits (ledger : Ledger) : Mention → Prop
  | .reads name => name.isIn ledger.declared = true
  | .places name => name.isIn ledger.labels = false
  | _ => True

/-- The ledger after a mention. -/
def note (ledger : Ledger) : Mention → Ledger
  | .sets name => { ledger with declared := name.insertInto ledger.declared }
  | .reads _ => ledger
  | .places name => { ledger with labels := name.insertInto ledger.labels }
  | .jumps name => { ledger with jumps := name.insertInto ledger.jumps }

/-- Every mention passes its check. -/
def Allows (ledger : Ledger) : List Mention → Prop
  | [] => True
  | mention :: rest => ledger.permits mention ∧ (ledger.note mention).Allows rest

/-- The ledger after some mentions. -/
def record (ledger : Ledger) (mentions : List Mention) : Ledger := mentions.foldl note ledger

/-- Every label that is jumped to has been placed. -/
def Settled (ledger : Ledger) : Prop := ∀ name ∈ ledger.jumps, name.isIn ledger.labels = true

variable {ledger : Ledger} {ms ns : List Mention}

@[simp] theorem allows_nil : ledger.Allows [] := trivial

@[simp] theorem record_nil : ledger.record [] = ledger := rfl

theorem record_append : ledger.record (ms ++ ns) = (ledger.record ms).record ns :=
  List.foldl_append

theorem allows_append : ledger.Allows (ms ++ ns) ↔ ledger.Allows ms ∧ (ledger.record ms).Allows ns := by
  induction ms generalizing ledger with
  | nil => simp [record]
  | cons m ms ih =>
    simp only [List.cons_append, Allows, ih, and_assoc]
    rfl

/-! ## What a ledger says about the mentions behind it -/

/-- A ledger holds exactly the names of the mentions seen. -/
structure Holds (ledger : Ledger) (seen : List Mention) : Prop where
  declared : ∀ name, name ∈ ledger.declared ↔ .sets name ∈ seen
  labels : ∀ name, name ∈ ledger.labels ↔ .places name ∈ seen
  jumps : ∀ name, name ∈ ledger.jumps ↔ .jumps name ∈ seen

theorem Holds.empty : ({} : Ledger).Holds [] := ⟨by simp, by simp, by simp⟩

theorem Holds.note {seen : List Mention} (h : ledger.Holds seen) {m : Mention}
    (hm : m.name.IsText) : (ledger.note m).Holds (seen ++ [m]) := by
  cases m with
  | sets name =>
    refine ⟨fun v => ?_, by simp [Ledger.note, h.labels], by simp [Ledger.note, h.jumps]⟩
    rw [Ledger.note, Value.mem_insertInto (v := name) hm, h.declared]
    simp [or_comm]
  | reads name =>
    exact ⟨by simp [Ledger.note, h.declared], by simp [Ledger.note, h.labels],
      by simp [Ledger.note, h.jumps]⟩
  | places name =>
    refine ⟨by simp [Ledger.note, h.declared], fun v => ?_, by simp [Ledger.note, h.jumps]⟩
    rw [Ledger.note, Value.mem_insertInto (v := name) hm, h.labels]
    simp [or_comm]
  | jumps name =>
    refine ⟨by simp [Ledger.note, h.declared], by simp [Ledger.note, h.labels], fun v => ?_⟩
    rw [Ledger.note, Value.mem_insertInto (v := name) hm, h.jumps]
    simp [or_comm]

/-- After a run of mentions the ledger holds the names seen before it and in it. -/
theorem Holds.record {seen : List Mention} (h : ledger.Holds seen)
    (hms : ∀ m ∈ ms, m.name.IsText) : (ledger.record ms).Holds (seen ++ ms) := by
  induction ms generalizing ledger seen with
  | nil => simpa using h
  | cons m ms ih =>
    have := ih (h.note (hms m (by simp))) fun n hn => hms n (by simp [hn])
    rwa [List.append_assoc] at this

end Ledger

/-! ## The checks on the way and the rules -/

/-- The rules for variables and for placing labels, for mentions behind those already seen. -/
structure Orderly (seen mentions : List Mention) : Prop where
  set_before : ∀ before name after, mentions = before ++ .reads name :: after →
    .sets name ∈ seen ++ before
  fresh : ∀ before name after, mentions = before ++ .places name :: after →
    .places name ∉ seen ++ before

theorem orderly_cons {seen ms : List Mention} {m : Mention} :
    Orderly seen (m :: ms) ↔
      (∀ name, m = .reads name → .sets name ∈ seen) ∧
      (∀ name, m = .places name → .places name ∉ seen) ∧ Orderly (seen ++ [m]) ms := by
  constructor
  · intro h
    refine ⟨fun name e => ?_, fun name e => ?_, fun before name after e => ?_,
      fun before name after e => ?_⟩
    · simpa using h.set_before [] name ms (by rw [e]; rfl)
    · simpa using h.fresh [] name ms (by rw [e]; rfl)
    · simpa using h.set_before (m :: before) name after (by rw [e]; rfl)
    · simpa using h.fresh (m :: before) name after (by rw [e]; rfl)
  · rintro ⟨hr, hp, h⟩
    constructor
    · intro before name after e
      cases before with
      | nil =>
        simp only [List.nil_append, List.cons.injEq] at e
        simpa using hr name e.1
      | cons b before =>
        simp only [List.cons_append, List.cons.injEq] at e
        simpa [e.1] using h.set_before before name after e.2
    · intro before name after e
      cases before with
      | nil =>
        simp only [List.nil_append, List.cons.injEq] at e
        simpa using hp name e.1
      | cons b before =>
        simp only [List.cons_append, List.cons.injEq] at e
        simpa [e.1] using h.fresh before name after e.2

/-- **The checks on the way are the rules**, whatever has been seen before. -/
theorem Ledger.Holds.allows_iff {ledger : Ledger} {seen ms : List Mention} (h : ledger.Holds seen)
    (hms : ∀ m ∈ ms, m.name.IsText) : ledger.Allows ms ↔ Orderly seen ms := by
  induction ms generalizing ledger seen with
  | nil =>
    simp only [allows_nil, true_iff]
    exact ⟨fun before name after e => by simp at e, fun before name after e => by simp at e⟩
  | cons m ms ih =>
    have hm := hms m (by simp)
    rw [orderly_cons, ← ih (h.note hm) fun n hn => hms n (by simp [hn]), ← and_assoc]
    refine and_congr ?_ Iff.rfl
    cases m with
    | sets name => simp [permits]
    | jumps name => simp [permits]
    | reads name =>
      rw [permits, Value.isIn_text (v := name) hm, h.declared]
      simp
    | places name =>
      rw [permits, ← Bool.not_eq_true, Value.isIn_text (v := name) hm, h.labels]
      simp

theorem nodup_placed_iff {ms : List Mention} : (ms.filterMap Mention.placed?).Nodup ↔
    ∀ before name after, ms = before ++ .places name :: after → .places name ∉ before := by
  have hmem : ∀ (l : List Mention) (name : Value),
      name ∈ l.filterMap Mention.placed? ↔ .places name ∈ l := by
    intro l name
    simp only [List.mem_filterMap]
    constructor
    · rintro ⟨m, hm, e⟩
      cases m <;> simp [Mention.placed?] at e
      exact e ▸ hm
    · exact fun h => ⟨_, h, rfl⟩
  constructor
  · intro h before name after e hb
    rw [e, List.filterMap_append, List.nodup_append] at h
    exact h.2.2 name ((hmem before name).2 hb) name (by simp [Mention.placed?]) rfl
  · intro h
    induction ms using List.reverseRecOn with
    | nil => simp
    | append_singleton ms m ih =>
      have hi := ih fun before name after e => h before name (after ++ [m]) (by rw [e]; simp)
      cases hp : m.placed? with
      | none => simpa [List.filterMap_append, hp] using hi
      | some name =>
        obtain rfl : m = .places name := by
          cases m <;> simp [Mention.placed?] at hp
          rw [hp]
        rw [List.filterMap_append, List.nodup_append]
        refine ⟨hi, by simp [Mention.placed?], fun a ha b hb => ?_⟩
        simp only [List.filterMap_cons_some hp, List.filterMap_nil, List.mem_singleton] at hb
        subst hb
        rintro rfl
        exact h ms a [] rfl ((hmem ms a).1 ha)

/-- **Reading a whole program checks exactly the rules for names**: those for variables and placed
labels on the way, that for jumps at the end. -/
theorem allows_iff_wellNamed {ms : List Mention} (hms : ∀ m ∈ ms, m.name.IsText) :
    ({} : Ledger).Allows ms ∧ (({} : Ledger).record ms).Settled ↔ WellNamed ms := by
  have hh := Ledger.Holds.empty.record hms
  rw [List.nil_append] at hh
  have hs : (({} : Ledger).record ms).Settled ↔ ∀ name, .jumps name ∈ ms → .places name ∈ ms := by
    unfold Ledger.Settled
    constructor
    · intro h name hj
      rw [← hh.labels, ← Value.isIn_text (v := name) (hms _ hj)]
      exact h name ((hh.jumps name).2 hj)
    · intro h name hj
      have hj := (hh.jumps name).1 hj
      rw [Value.isIn_text (v := name) (hms _ hj), hh.labels]
      exact h name hj
  rw [Ledger.Holds.empty.allows_iff hms, hs]
  constructor
  · rintro ⟨ho, hp⟩
    exact ⟨fun b n a e => by simpa using ho.set_before b n a e,
      nodup_placed_iff.2 fun b n a e => by simpa using ho.fresh b n a e, hp⟩
  · rintro ⟨hsb, hn, hp⟩
    exact ⟨⟨fun b n a e => by simpa using hsb b n a e,
      fun b n a e => by simpa using nodup_placed_iff.1 hn b n a e⟩, hp⟩

end BasicToC
