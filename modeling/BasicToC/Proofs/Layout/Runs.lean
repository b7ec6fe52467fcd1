import BasicToC.Proofs.Layout.Tokens
import BasicToC.Proofs.Reading.Prompt

/-!
# Two runs of reading

Two readers whose tokens are twins up to blank lines read the same things. Directly behind a line any
number of line ends may be left out, and within a line none.

* `Reader.Alike`: two readers in front of twins, with the same names.
* `Agree`: two runs that end alike, with results of some sort and readers alike, or with faults alike.
* `Agree.bind`, `peek_agree`, `advance_agree`, `take_agree`: steps one after another, and single ones.
* `expect_agree`, `identifier_agree`, `lineEnd_agree`, `skipLineEnds_agree`: the steps that all others
  are made of.
* `Blind`: a step that ends alike from any two readers alike.
-/

set_option autoImplicit false

namespace BasicToC

namespace Reader

/-- Two readers in front of tokens that are twins up to blank lines, who keep the same names. -/
structure Alike (behindLine : Bool) (r s : Reader) : Prop where
  ahead : Twins behindLine r.ahead s.ahead
  ledger : r.names.ledger = s.names.ledger

/-- Two faults are alike when they are one, or refuse a program for reasons of one category. -/
inductive Fault.Alike : Fault → Fault → Prop
  | refl (fault : Fault) : Alike fault fault
  | rejected {a b : Rejection} (category : a.complaint.category = b.complaint.category) :
      Alike (.rejected a) (.rejected b)

namespace Alike

variable {r s : Reader}

theorem loosen (h : r.Alike false s) : r.Alike true s := ⟨h.ahead.loosen, h.ledger⟩

/-- Within a line both readers are at their end, or at twins. -/
theorem cases (h : r.Alike false s) : r.ahead = [] ∧ s.ahead = [] ∨
    ∃ a b rest rest', r.ahead = a :: rest ∧ s.ahead = b :: rest' ∧ a.Twin b ∧
      Twins (a.kind == .newline) rest rest' := by
  have hahead := h.ahead
  cases ha : r.ahead with
  | nil =>
    rw [ha] at hahead
    exact .inl ⟨rfl, hahead.nil⟩
  | cons a rest =>
    rw [ha] at hahead
    obtain ⟨b, rest', hb, htwin, hrest⟩ := hahead.cons
    exact .inr ⟨a, b, rest, rest', rfl, hb, htwin, hrest⟩

/-- Passing over line ends. -/
theorem skip (h : r.Alike true s) :
    (r.skip (r.ahead.takeWhile (·.kind == .newline)).length).Alike false
      (s.skip (s.ahead.takeWhile (·.kind == .newline)).length) := by
  have hdrop (ts : List Token) : ts.drop (ts.takeWhile (·.kind == .newline)).length =
      ts.dropWhile (·.kind == .newline) :=
    calc ts.drop (ts.takeWhile (·.kind == .newline)).length
        = (ts.takeWhile (·.kind == .newline) ++ ts.dropWhile (·.kind == .newline)).drop
            (ts.takeWhile (·.kind == .newline)).length := by rw [List.takeWhile_append_dropWhile]
      _ = ts.dropWhile (·.kind == .newline) := List.drop_left
  refine ⟨?_, h.ledger⟩
  show Twins false (r.ahead.drop _) (s.ahead.drop _)
  rw [hdrop, hdrop]
  exact h.ahead.skip

end Alike

end Reader

/-- Two complaints that are made alike. -/
structure Complaint.Alike (a b : Complaint) : Prop where
  category : a.category = b.category
  nameless : a.isNameless = b.isNameless

namespace Read

variable {α β γ δ : Type} {f : Read α} {f' : Read β} {g : α → Read γ} {g' : β → Read δ}
variable {front mid back : Bool} {r s : Reader} {a : α} {b : β}
variable {same : α → β → Prop} {same' : γ → δ → Prop}

/-- Two runs end alike: with results of some sort and readers alike, or with faults alike. -/
def Agree (back : Bool) (same : α → β → Prop) :
    EStateM.Result Reader.Fault Reader α → EStateM.Result Reader.Fault Reader β → Prop
  | .ok a r, .ok b s => same a b ∧ r.Alike back s
  | .error fault _, .error fault' _ => fault.Alike fault'
  | _, _ => False

/-- A step that ends alike, with one result, from any two readers alike. -/
def Blind (front back : Bool) (f : Read α) : Prop :=
  ∀ ⦃r s : Reader⦄, r.Alike front s → Agree back Eq (f r) (f s)

/-! ## Steps one after another -/

theorem Agree.pure (hab : same a b) (h : r.Alike back s) :
    Agree back same ((pure a : Read α) r) ((pure b : Read β) s) := ⟨hab, h⟩

/-- **Steps that end alike end alike one after the other.** -/
theorem Agree.bind (hf : Agree mid same (f r) (f' s))
    (hg : ∀ a b r' s', same a b → r'.Alike mid s' → Agree back same' (g a r') (g' b s')) :
    Agree back same' ((f >>= g) r) ((f' >>= g') s) := by
  simp only [Bind.bind, EStateM.bind]
  cases hfr : f r with
  | ok a r' =>
    cases hfs : f' s with
    | ok b s' =>
      rw [hfr, hfs] at hf
      exact hg a b r' s' hf.1 hf.2
    | error fault' s' =>
      rw [hfr, hfs] at hf
      exact hf.elim
  | error fault r' =>
    cases hfs : f' s with
    | ok b s' =>
      rw [hfr, hfs] at hf
      exact hf.elim
    | error fault' s' =>
      rw [hfr, hfs] at hf
      exact hf

/-- A step that is blind, and what follows it. -/
theorem Blind.bind {g' : α → Read δ} (hf : Blind front mid f) (h : r.Alike front s)
    (hg : ∀ a r' s', r'.Alike mid s' → Agree back same' (g a r') (g' a s')) :
    Agree back same' ((f >>= g) r) ((f >>= g') s) :=
  (hf h).bind fun a _ r' s' hab halike => hab ▸ hg a r' s' halike

/-! ## Single steps -/

theorem refuse_agree {c c' : Complaint} (h : c.Alike c') (token token' : Token) :
    Agree back same ((refuse c token : Read α) r) ((refuse c' token' : Read β) s) := by
  rw [refuse_eq, refuse_eq, h.nameless]
  split
  · exact .refl _
  · exact .rejected h.category

/-- A change that has nothing to do with the tokens. -/
theorem change_agree {f : Read α} {f' : Read β} {change change' : Reader → Reader}
    (h : (change r).Alike mid (change' s))
    (hf : ∀ r' s', r'.Alike mid s' → Agree back same (f r') (f' s')) :
    Agree back same ((do modify change; f) r) ((do modify change'; f') s) := by
  rw [bind_eq (modify_eq change r), bind_eq (modify_eq change' s)]
  exact hf _ _ h

theorem note_agree {event event' : Event} (h : r.Alike mid s)
    (hf : ∀ r' s', r'.Alike mid s' → Agree back same (f r') (f' s')) :
    Agree back same ((do note event; f) r) ((do note event'; f') s) :=
  change_agree ⟨h.ahead, h.ledger⟩ hf

section Tokens

variable {g : Token → Read α} {g' : Token → Read β} {kind : Token.Kind}

/-- A look at the next token. -/
theorem peek_agree (h : r.Alike false s)
    (hg : ∀ a b rest rest', r.ahead = a :: rest → s.ahead = b :: rest' → a.Twin b →
      Agree back same (g a r) (g' b s)) :
    Agree back same ((peek >>= g) r) ((peek >>= g') s) := by
  rcases h.cases with ⟨ha, hb⟩ | ⟨a, b, rest, rest', ha, hb, htwin, -⟩
  · rw [bind_error_eq (peek_nil ha), bind_error_eq (peek_nil hb)]
    exact .refl _
  · rw [bind_eq (peek_eq ha), bind_eq (peek_eq hb)]
    exact hg a b rest rest' ha hb htwin

/-- The next token is taken. Behind a line end, more of them may be left out. -/
theorem advance_agree (h : r.Alike false s)
    (hg : ∀ a b rest rest' r' s', r.ahead = a :: rest → s.ahead = b :: rest' → a.Twin b →
      r'.Alike (a.kind == .newline) s' → Agree back same (g a r') (g' b s')) :
    Agree back same ((advance >>= g) r) ((advance >>= g') s) := by
  rcases h.cases with ⟨ha, hb⟩ | ⟨a, b, rest, rest', ha, hb, htwin, hrest⟩
  · have hnone {r : Reader} (ha : r.ahead = []) : advance r = .error .exhausted r := by
      unfold advance
      exact bind_error_eq (peek_nil ha)
    rw [bind_error_eq (hnone ha), bind_error_eq (hnone hb)]
    exact .refl _
  · rw [advance_bind ha, advance_bind hb]
    refine hg a b rest rest' _ _ ha hb htwin ?_
    rw [← htwin.kind]
    split
    · rename_i heof
      rw [heof]
      exact h
    · refine ⟨?_, h.ledger⟩
      show Twins (a.kind == .newline) (r.ahead.drop 1) (s.ahead.drop 1)
      rw [ha, hb]
      exact hrest

/-- A token of some kind is taken, or complained of. -/
theorem take_agree {c c' : Token → Complaint} (h : r.Alike false s)
    (hc : ∀ a b, a.Twin b → (c a).Alike (c' b))
    (hg : ∀ a b rest rest' r' s', r.ahead = a :: rest → s.ahead = b :: rest' → a.Twin b →
      a.kind = kind → r'.Alike (kind == .newline) s' → Agree back same (g a r') (g' b s')) :
    Agree back same
      ((do
        let token ← advance
        if token.kind != kind then refuse (c token) token else g token) r)
      ((do
        let token ← advance
        if token.kind != kind then refuse (c' token) token else g' token) s) := by
  refine advance_agree h fun a b rest rest' r' s' ha hb htwin halike => ?_
  rw [← htwin.kind]
  by_cases hk : a.kind = kind
  · rw [if_neg (by simp [hk]), if_neg (by simp [hk])]
    exact hg a b rest rest' r' s' ha hb htwin hk (hk ▸ halike)
  · rw [if_pos (by simpa using hk), if_pos (by simpa using hk)]
    exact refuse_agree (hc a b htwin) a b

theorem expect_agree {after after' : String} (h : r.Alike false s)
    (hg : ∀ a b r' s', a.Twin b → r'.Alike (kind == .newline) s' →
      Agree back same (g a r') (g' b s')) :
    Agree back same ((expect kind after >>= g) r) ((expect kind after' >>= g') s) := by
  rw [expect_bind, expect_bind]
  exact take_agree h (fun _ _ _ => ⟨rfl, rfl⟩)
    fun a b _ _ r' s' _ _ htwin _ halike => hg a b r' s' htwin halike

end Tokens

theorem identifier_agree {g : Value → Read α} {g' : Value → Read β} {after : String}
    (h : r.Alike false s)
    (hg : ∀ name r' s', r'.Alike false s' → Agree back same (g name r') (g' name s')) :
    Agree back same ((identifier after >>= g) r) ((identifier after >>= g') s) := by
  rw [identifier_bind, identifier_bind]
  refine take_agree h (fun _ _ _ => ⟨rfl, rfl⟩) fun a b _ _ r' s' _ _ htwin _ halike => ?_
  rw [← htwin.value]
  exact hg a.value r' s' halike

/-- Behind the end of a line, more line ends may be left out. -/
theorem lineEnd_agree {after : String} (h : r.Alike false s)
    (hf : ∀ r' s', r'.Alike true s' → Agree back same (f r') (f' s')) :
    Agree back same ((do lineEnd after; f) r) ((do lineEnd after; f') s) := by
  rw [lineEnd_bind, lineEnd_bind]
  exact take_agree h (fun _ _ _ => ⟨rfl, rfl⟩) fun _ _ _ _ r' s' _ _ _ _ halike => hf r' s' halike

theorem ended_agree {after : String} (hab : same a b) (h : r.Alike false s) :
    Agree true same ((do lineEnd after; pure a : Read α) r)
      ((do lineEnd after; pure b : Read β) s) :=
  lineEnd_agree h fun _ _ halike => Agree.pure hab halike

/-- Behind line ends that are passed over, none may be left out. -/
theorem skipLineEnds_agree (h : r.Alike true s)
    (hf : ∀ r' s', r'.Alike false s' → Agree back same (f r') (f' s')) :
    Agree back same ((do skipLineEnds; f) r) ((do skipLineEnds; f') s) := by
  have hskip : Agree false Eq (skipLineEnds r) (skipLineEnds s) := by
    unfold skipLineEnds
    rw [bind_eq (modify_eq _ r), bind_eq (modify_eq _ s)]
    exact peek_agree h.skip fun _ _ _ _ _ _ _ => Agree.pure rfl h.skip
  exact hskip.bind fun _ _ r' s' _ halike => hf r' s' halike

end Read

end BasicToC
