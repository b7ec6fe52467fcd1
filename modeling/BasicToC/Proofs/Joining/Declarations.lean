import BasicToC.Proofs.Listing.Sites

/-!
# The declarations of joined listings

Which names wait for their declaration only matters as far as these names are written. Behind the
first of two listings the names wait that are written in the second alone.

* `HoldSame`: two lists hold the same of some names.
* `Rendering.declare_congr`, `Word.declare_congr`, `Line.declare_congr`, `Code.declare_congr`: the
  declarations depend on nothing else.
* `Code.declare_joined`: the declarations of two listings, one behind the other.
-/

set_option autoImplicit false

namespace BasicToC

/-- Two lists hold the same of some names. -/
def HoldSame (names : Value → Prop) (p q : List Value) : Prop := ∀ v, names v → (v ∈ p ↔ v ∈ q)

variable {names : Value → Prop} {p q : List Value}

/-! ## What declarations depend on -/

section Congruence

variable (htexts : ∀ v, names v → v.IsText)

include htexts

theorem Rendering.declare_congr (h : HoldSame names p q) {r : Rendering} (hr : names r.name) :
    (r.declare p).1 = (r.declare q).1 ∧ HoldSame names (r.declare p).2 (r.declare q).2 := by
  have hin : r.name.isIn p = r.name.isIn q := by
    rw [Bool.eq_iff_iff, Value.isIn_text (htexts _ hr), Value.isIn_text (htexts _ hr)]
    exact h _ hr
  unfold declare
  rw [hin]
  split
  · refine ⟨rfl, fun v hv => ?_⟩
    simp only [List.mem_filter, h v hv]
  · exact ⟨rfl, h⟩

theorem Word.declare_congr (h : HoldSame names p q) (block : List Nat) {words : List Word}
    (hw : ∀ s ∈ Word.sites block words, names s.mention.name) :
    (Word.declare p words).1 = (Word.declare q words).1 ∧
      HoldSame names (Word.declare p words).2 (Word.declare q words).2 := by
  induction words generalizing p q with
  | nil => exact ⟨rfl, h⟩
  | cons word words ih =>
    cases word with
    | name sign r =>
      obtain ⟨hr, hrest⟩ := List.forall_mem_cons.1
        (show ∀ s ∈ ⟨.reads r.name, r.declares, block, none⟩ :: Word.sites block words,
          names s.mention.name from hw)
      obtain ⟨hfirst, hleft⟩ := Rendering.declare_congr htexts h (r := r) hr
      obtain ⟨hwords, hend⟩ := ih hleft hrest
      exact ⟨by simp only [declare, hfirst, hwords], hend⟩
    | number sign digits | operator kind =>
      obtain ⟨hwords, hend⟩ := ih h hw
      exact ⟨by simp only [declare, hwords], hend⟩

theorem Line.declare_congr (h : HoldSame names p q) (block : List Nat) (index : Nat) {line : Line}
    (hl : ∀ s ∈ line.sites block index, names s.mention.name) :
    (line.declare p).1 = (line.declare q).1 ∧
      HoldSame names (line.declare p).2 (line.declare q).2 := by
  cases line with
  | print value =>
    obtain ⟨hwords, hend⟩ := Word.declare_congr htexts h block hl
    exact ⟨congrArg Line.print hwords, hend⟩
  | assign target value =>
    obtain ⟨hname, hvalue⟩ := List.forall_mem_cons.1 hl
    obtain ⟨htarget, hleft⟩ := Rendering.declare_congr htexts h (r := target) hname
    obtain ⟨hwords, hend⟩ := Word.declare_congr htexts hleft block hvalue
    exact ⟨by simp only [declare, htarget, hwords], hend⟩
  | input target =>
    obtain ⟨hname, -⟩ := List.forall_mem_cons.1 hl
    obtain ⟨htarget, hend⟩ := Rendering.declare_congr htexts h (r := target) hname
    exact ⟨congrArg Line.input htarget, hend⟩
  | printText text => exact ⟨rfl, h⟩
  | label name => exact ⟨rfl, h⟩
  | goto name => exact ⟨rfl, h⟩

/-- **The declarations in a listing depend on which of its names wait**, and on nothing else. -/
theorem Code.declare_congr (h : HoldSame names p q) (block : List Nat) (index : Nat) {code : Code}
    (hc : ∀ s ∈ code.sites block index, names s.mention.name) :
    (code.declare p).1 = (code.declare q).1 ∧
      HoldSame names (code.declare p).2 (code.declare q).2 := by
  induction code generalizing p q block index with
  | done => exact ⟨rfl, h⟩
  | simple line rest ih =>
    obtain ⟨hl, hr⟩ := List.forall_mem_append.1 hc
    obtain ⟨hline, hleft⟩ := Line.declare_congr htexts h block index hl
    obtain ⟨hrest, hend⟩ := ih hleft block (index + 1) hr
    exact ⟨by simp only [declare, hline, hrest], hend⟩
  | block keyword condition body rest ihb ihr =>
    obtain ⟨hfront, hr⟩ := List.forall_mem_append.1 hc
    obtain ⟨hw, hb⟩ := List.forall_mem_append.1 hfront
    obtain ⟨hcondition, hleft⟩ := Word.declare_congr htexts h block hw
    obtain ⟨hbody, hleft'⟩ := ihb hleft (block ++ [index]) 0 hb
    obtain ⟨hrest, hend⟩ := ihr hleft' block (index + 1) hr
    exact ⟨by simp only [declare, hcondition, hbody, hrest], hend⟩

end Congruence

/-! ## Two listings -/

/-- **The declarations of two listings, one behind the other.** If the names of the first are those
written in it, they are all declared there, and of the names of the second those are left that are
none of them. -/
theorem Code.declare_joined {code more : Code} {all first second : List Value}
    (hall : ∀ v, v ∈ all ↔ v ∈ first ∨ v ∈ second) (htexts : ∀ v ∈ first, v.IsText)
    (hwritten : ∀ s ∈ code.sites [] 0, s.mention.name ∈ first)
    (hwaiting : (code.declare first).2 = [])
    (hmore : ∀ s ∈ more.sites [] 0, s.mention.name.IsText) :
    ((code.append more).declare all).1 =
      (code.declare first).1.append
        (more.declare (second.filter fun v => !v.isIn first)).1 := by
  have hsame : HoldSame (· ∈ first) all first := fun v hv => by simp [hall, hv]
  have hfirst : (code.declare all).1 = (code.declare first).1 :=
    (Code.declare_congr htexts hsame [] 0 hwritten).1
  have hsites : ∀ s ∈ code.sites [] 0, s.mention.name.IsText :=
    fun s hs => htexts _ (hwritten s hs)
  have hleft (waiting : List Value) (v : Value) : v ∈ (code.declare waiting).2 ↔
      v ∈ waiting ∧ ∀ s ∈ code.sites [] 0, v ≠ s.mention.name := by
    rw [← Site.mem_declareAll hsites, Code.sites_declare]
  -- The names of the first listing are exactly those written in it.
  have hnames (v : Value) : v ∈ first ↔ ∃ s ∈ code.sites [] 0, v = s.mention.name := by
    constructor
    · intro hv
      by_contra hnone
      have hwaits : v ∈ (code.declare first).2 :=
        (hleft first v).2 ⟨hv, fun s hs heq => hnone ⟨s, hs, heq⟩⟩
      rw [hwaiting] at hwaits
      cases hwaits
    · rintro ⟨s, hs, rfl⟩
      exact hwritten s hs
  have hrest : HoldSame Value.IsText (code.declare all).2
      (second.filter fun v => !v.isIn first) := by
    intro v hv
    have hnot : (∀ s ∈ code.sites [] 0, v ≠ s.mention.name) ↔ v ∉ first := by
      rw [hnames]
      push Not
      rfl
    rw [hleft, hnot, hall, List.mem_filter, Bool.not_eq_true', ← Bool.not_eq_true,
      Value.isIn_text hv]
    exact ⟨fun ⟨hin, hout⟩ => ⟨hin.resolve_left hout, hout⟩, fun ⟨hin, hout⟩ => ⟨.inr hin, hout⟩⟩
  rw [Code.declare_append, hfirst, (Code.declare_congr (fun _ hv => hv) hrest [] 0 hmore).1]

end BasicToC
