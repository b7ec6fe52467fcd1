import BasicToC.Proofs.Names.Follow
import BasicToC.Proofs.Reading.Rounds

/-!
# Complaining at once

A step of reading looks at one token at a time, from the first one on. What it passes it has accepted
for good, and what it complains of it would complain of whatever came behind.

* `Reader.among`: the same reader in front of other tokens.
* `Complaint.IsAbout`: the token that a complaint is about.
* `Passes`, `Blames`: a run that depends on no token behind the ones that it has passed or blamed.
* `Prompt`: a step all of whose runs are such, together with what may be said of the tokens passed
  when it complains, and of the names kept when it does not.
* `Prompt.bind`, `blamed_prompt`, `passed_prompt`: steps one after another, and single ones.
* `Prompt.of_among`: looks at the names, and changes that have nothing to do with the tokens.
-/

set_option autoImplicit false

namespace BasicToC

/-- The same reader in front of other tokens. -/
def Reader.among (r : Reader) (tokens ahead : List Token) : Reader :=
  { r with tokens := tokens, ahead := ahead }

/-- What a complaint about a token says of it: what was found in the place of something else, where a
block goes on to the end of the program, or which name is repeated or unknown. -/
def Complaint.IsAbout (token : Token) : Complaint → Prop
  | .statementExpected found | .identifierExpected _ found | .newlineExpected _ found
  | .tokenExpected _ _ found | .operandExpected found => found = token
  | .closerMissing .. => token.kind = .eof
  | .labelRepeated name | .labelUndeclared name | .variableUnassigned name =>
    token.kind = .ident ∧ token.value = name
  | _ => False

namespace Read

open Grammar (LineEnds)

variable {α β : Type} {f : Read α} {g : α → Read β} {a : α} {b : β} {r r' r'' : Reader}
variable {ts us passed : List Token} {token : Token} {rejection : Rejection}
variable {viable viable' : List Token → Prop} {names names' : List Token → Names}

/-- A run that ends well behind some tokens, and does so whatever follows the next one. -/
structure Passes (f : Read α) (r : Reader) (ts : List Token) (a : α) (r' : Reader) : Prop where
  ahead : r.ahead = ts ++ r'.ahead
  again : ∀ tokens ahead, ahead.head? = r'.ahead.head? →
    f (r.among tokens (ts ++ ahead)) = .ok a (r'.among tokens ahead)

/-- A run that complains of a token behind some others, and does so whatever follows it. The
complaint is about that token. -/
structure Blames (f : Read α) (r : Reader) (passed : List Token) (token : Token)
    (rejection : Rejection) : Prop where
  ahead : ∃ rest, r.ahead = passed ++ token :: rest
  place : rejection = Read.rejection rejection.complaint token
  about : rejection.complaint.IsAbout token
  again : ∀ tokens rest, ∃ r',
    f (r.among tokens (passed ++ token :: rest)) = .error (.rejected rejection) r'

/-- A step whose runs depend on no token behind the ones that they have passed or blamed. What it has
passed when it complains is `viable`; when it ends well it keeps the `names` of what it has passed. -/
structure Prompt (f : Read α) (r : Reader) (viable : List Token → Prop)
    (names : List Token → Names) : Prop where
  passes : ∀ {a r'}, f r = .ok a r' → ∃ ts, Passes f r ts a r' ∧ r'.names = names ts
  blames : ∀ {rejection r'}, f r = .error (.rejected rejection) r' →
    ∃ passed token, Blames f r passed token rejection ∧ viable passed

/-! ## Steps one after another -/

/-- What is said of the tokens passed and of the names may be said in other words. -/
theorem Prompt.imp (h : Prompt f r viable' names') (hviable : ∀ passed, viable' passed → viable passed)
    (hnames : ∀ ts, names' ts = names ts) : Prompt f r viable names where
  passes hp := by
    obtain ⟨ts, hpasses, hn⟩ := h.passes hp
    exact ⟨ts, hpasses, hn.trans (hnames ts)⟩
  blames hp := by
    obtain ⟨passed, token, hblames, hv⟩ := h.blames hp
    exact ⟨passed, token, hblames, hviable _ hv⟩

theorem Prompt.pure (h : r.names = names []) : Prompt (pure a) r viable names where
  passes hp := by
    cases hp
    exact ⟨[], ⟨rfl, fun _ _ _ => rfl⟩, h⟩
  blames hp := by cases hp

/-- **Two prompt steps are prompt one after the other.** The second one is judged by all that has been
passed. -/
theorem Prompt.bind (hf : Prompt f r viable' names')
    (hviable : ∀ passed, viable' passed → viable passed)
    (hg : ∀ a r' ts, f r = .ok a r' → r.ahead = ts ++ r'.ahead → r'.names = names' ts →
      Prompt (g a) r' (fun passed => viable (ts ++ passed)) fun us => names (ts ++ us)) :
    Prompt (f >>= g) r viable names where
  passes hp := by
    rename_i b r''
    obtain ⟨a, r', hfirst, hsecond⟩ := bind_ok hp
    obtain ⟨ts, hpasses, hnames⟩ := hf.passes hfirst
    obtain ⟨us, hpasses', hnames'⟩ := (hg a r' ts hfirst hpasses.ahead hnames).passes hsecond
    refine ⟨ts ++ us, ⟨?_, fun tokens ahead hhead => ?_⟩, hnames'⟩
    · rw [hpasses.ahead, hpasses'.ahead, List.append_assoc]
    · have hnext : (us ++ ahead).head? = r'.ahead.head? := by
        rw [hpasses'.ahead, List.head?_append, List.head?_append, hhead]
      rw [List.append_assoc, bind_eq (hpasses.again tokens (us ++ ahead) hnext)]
      exact hpasses'.again tokens ahead hhead
  blames hp := by
    rename_i rejection r''
    rcases bind_error hp with hfirst | ⟨a, r', hfirst, hsecond⟩
    · obtain ⟨passed, token, hblames, hv⟩ := hf.blames hfirst
      refine ⟨passed, token,
        ⟨hblames.ahead, hblames.place, hblames.about, fun tokens rest => ?_⟩, hviable _ hv⟩
      obtain ⟨s, hs⟩ := hblames.again tokens rest
      exact ⟨s, bind_error_eq hs⟩
    · obtain ⟨ts, hpasses, hnames⟩ := hf.passes hfirst
      obtain ⟨passed, token, hblames, hv⟩ :=
        (hg a r' ts hfirst hpasses.ahead hnames).blames hsecond
      obtain ⟨rest, hrest⟩ := hblames.ahead
      refine ⟨ts ++ passed, token,
        ⟨⟨rest, ?_⟩, hblames.place, hblames.about, fun tokens rest' => ?_⟩, hv⟩
      · rw [hpasses.ahead, hrest, List.append_assoc]
      · have hnext : (passed ++ token :: rest').head? = r'.ahead.head? := by
          rw [hrest, List.head?_append, List.head?_append, List.head?_cons, List.head?_cons]
        obtain ⟨s, hs⟩ := hblames.again tokens rest'
        refine ⟨s, ?_⟩
        rw [List.append_assoc, bind_eq (hpasses.again tokens _ hnext)]
        exact hs

/-! ## Single steps -/

theorem refuse_eq (complaint : Complaint) (token : Token) (r : Reader) :
    (refuse complaint token : Read α) r = .error
      (if complaint.isNameless then .nameless else .rejected (Read.rejection complaint token)) r := by
  unfold refuse
  split <;> rfl

theorem refuse_bind (complaint : Complaint) (token : Token) :
    ((refuse complaint token : Read α) >>= g) = refuse complaint token := by
  funext r
  rw [bind_error_eq (refuse_eq complaint token r), refuse_eq]

/-- A complaint about the next token. -/
theorem refuse_prompt {complaint : Complaint} {rest : List Token} (ha : r.ahead = token :: rest)
    (hv : viable []) (habout : complaint.IsAbout token) :
    Prompt (refuse complaint token : Read α) r viable names where
  passes hp := absurd hp refuse_ne_ok
  blames hp := by
    rw [refuse_eq] at hp
    split at hp
    · cases hp
    · rename_i hnamed
      cases hp
      refine ⟨[], token, ⟨⟨rest, ha⟩, rfl, habout, fun tokens rest => ?_⟩, hv⟩
      rw [refuse_eq, if_neg hnamed]
      exact ⟨_, rfl⟩

theorem look_prompt (viable : List Token → Prop) : Prompt peek r viable fun _ => r.names where
  passes hp := by
    obtain ⟨rfl, rest, ha⟩ := peek_ok hp
    refine ⟨[], ⟨rfl, fun tokens ahead hhead => ?_⟩, rfl⟩
    rw [ha] at hhead
    obtain ⟨rest', hahead⟩ := List.head?_eq_some_iff.1 hhead
    exact peek_eq hahead
  blames hp := by
    cases ha : r.ahead with
    | nil => rw [peek_nil ha] at hp; cases hp
    | cons t rest => rw [peek_eq ha] at hp; cases hp

/-- A look at the next token. -/
theorem peek_prompt {g : Token → Read β}
    (h : ∀ token rest, r.ahead = token :: rest → Prompt (g token) r viable names) :
    Prompt (peek >>= g) r viable names := by
  refine Prompt.bind (look_prompt fun _ => False) (fun _ => False.elim)
    fun token r' ts hp ha _ => ?_
  obtain ⟨rfl, rest, hahead⟩ := peek_ok hp
  obtain rfl : ts = [] := by simpa using ha
  exact h token rest hahead

theorem advance_bind {g : Token → Read β} {rest : List Token} (ha : r.ahead = token :: rest) :
    (advance >>= g) r = g token (if token.kind = .eof then r else r.skip 1) :=
  bind_eq (advance_eq ha)

/-- The next token is taken and complained of, for which nothing but the token and the names
counts. -/
theorem blamed_prompt {g : Token → Read β} {rest : List Token} {complaint : Complaint}
    (ha : r.ahead = token :: rest) (hv : viable []) (habout : complaint.IsAbout token)
    (hg : ∀ s : Reader, s.names = r.names → g token s = refuse complaint token s) :
    Prompt (advance >>= g) r viable names := by
  have hrun (tokens rest : List Token) : ∃ s, (advance >>= g) (r.among tokens (token :: rest)) =
      refuse complaint token s := by
    rw [advance_bind rfl]
    exact ⟨_, hg _ (by split <;> rfl)⟩
  obtain ⟨s, hs⟩ : ∃ s, (advance >>= g) r = refuse complaint token s := by
    rw [advance_bind ha]
    exact ⟨_, hg _ (by split <;> rfl)⟩
  constructor
  · intro b r'' hp
    rw [hs] at hp
    exact absurd hp refuse_ne_ok
  · intro rejection r'' hp
    rw [hs, refuse_eq] at hp
    split at hp
    · cases hp
    · rename_i hnamed
      cases hp
      refine ⟨[], token, ⟨⟨rest, ha⟩, rfl, habout, fun tokens rest => ?_⟩, hv⟩
      obtain ⟨s', hs'⟩ := hrun tokens rest
      rw [List.nil_append, hs', refuse_eq, if_neg hnamed]
      exact ⟨_, rfl⟩

/-- The next token is taken and passed. -/
theorem passed_prompt {g : Token → Read β} {rest : List Token} (ha : r.ahead = token :: rest)
    (hk : token.kind ≠ .eof)
    (h : Prompt (g token) (r.skip 1) (fun passed => viable (token :: passed))
      fun ts => names (token :: ts)) :
    Prompt (advance >>= g) r viable names := by
  have hadvance : advance r = .ok token (r.skip 1) := by rw [advance_eq ha, if_neg hk]
  have hone : Prompt advance r (fun _ => False) fun _ => r.names := by
    constructor
    · intro t r' hp
      cases hadvance.symm.trans hp
      refine ⟨[token], ⟨(skip_one ha).ahead, fun tokens ahead _ => ?_⟩, rfl⟩
      rw [List.singleton_append, advance_eq rfl, if_neg hk]
      rfl
    · intro rejection r' hp
      cases hadvance.symm.trans hp
  refine hone.bind (fun _ => False.elim) fun t r' ts hp hts _ => ?_
  cases hadvance.symm.trans hp
  obtain rfl : ts = [token] := List.append_cancel_right (hts.symm.trans (skip_one ha).ahead)
  exact h

/-- The next token is taken, and either complained of or passed. -/
theorem advance_prompt {g : Token → Read β} (h : ∀ token rest, r.ahead = token :: rest →
    (viable [] ∧ ∃ complaint : Complaint, complaint.IsAbout token ∧ ∀ s : Reader,
      s.names = r.names → g token s = refuse complaint token s) ∨
    (token.kind ≠ .eof ∧ Prompt (g token) (r.skip 1) (fun passed => viable (token :: passed))
      fun ts => names (token :: ts))) :
    Prompt (advance >>= g) r viable names := by
  cases ha : r.ahead with
  | nil =>
    have hempty : (advance >>= g) r = .error .exhausted r := by
      refine bind_error_eq ?_
      unfold advance
      exact bind_error_eq (peek_nil ha)
    constructor <;> intro _ _ hp <;> rw [hempty] at hp <;> cases hp
  | cons token rest =>
    rcases h token rest ha with ⟨hv, complaint, habout, hg⟩ | ⟨hk, hg⟩
    · exact blamed_prompt ha hv habout hg
    · exact passed_prompt ha hk hg

/-- A token of some kind is taken, or complained of. -/
theorem take_prompt {g : Token → Read β} {complaint : Token → Complaint} {kind : Token.Kind}
    (habout : ∀ token, (complaint token).IsAbout token) (hkind : kind ≠ .eof) (hbad : viable [])
    (hgood : ∀ token rest, r.ahead = token :: rest → token.kind = kind →
      Prompt (g token) (r.skip 1) (fun passed => viable (token :: passed))
        fun ts => names (token :: ts)) :
    Prompt (do
      let token ← advance
      if token.kind != kind then refuse (complaint token) token else g token) r viable names := by
  refine advance_prompt fun token rest ha => ?_
  by_cases hk : token.kind = kind
  · refine .inr ⟨hk ▸ hkind, ?_⟩
    simp only [hk, bne_self_eq_false, Bool.false_eq_true, if_false]
    exact hgood token rest ha hk
  · refine .inl ⟨hbad, complaint token, habout token, fun s _ => ?_⟩
    simp [hk]

theorem expect_bind (kind : Token.Kind) (after : String) (g : Token → Read β) :
    expect kind after >>= g = (do
      let token ← advance
      if token.kind != kind then refuse (.tokenExpected after kind token) token
      else g token) := by
  unfold expect
  rw [bind_assoc]
  congr 1
  funext token
  split
  · rw [bind_assoc, refuse_bind]
  · rw [pure_bind]

theorem expect_prompt {g : Token → Read β} {after : String} {kind : Token.Kind}
    (hkind : kind ≠ .eof) (hbad : viable [])
    (hgood : ∀ token rest, r.ahead = token :: rest → token.kind = kind →
      Prompt (g token) (r.skip 1) (fun passed => viable (token :: passed))
        fun ts => names (token :: ts)) :
    Prompt (expect kind after >>= g) r viable names := by
  rw [expect_bind]
  exact take_prompt (fun _ => rfl) hkind hbad hgood

theorem identifier_bind (after : String) (g : Value → Read β) :
    identifier after >>= g = (do
      let token ← advance
      if token.kind != .ident then refuse (.identifierExpected after token) token
      else g token.value) := by
  unfold identifier
  rw [bind_assoc]
  congr 1
  funext token
  split
  · rw [bind_assoc, refuse_bind]
  · rw [pure_bind]

theorem identifier_prompt {g : Value → Read β} {after : String} (hbad : viable [])
    (hgood : ∀ token rest, r.ahead = token :: rest → token.kind = .ident →
      Prompt (g token.value) (r.skip 1) (fun passed => viable (token :: passed))
        fun ts => names (token :: ts)) :
    Prompt (identifier after >>= g) r viable names := by
  rw [identifier_bind]
  exact take_prompt (fun _ => rfl) (by decide) hbad hgood

theorem lineEnd_bind (after : String) (f : Read β) :
    (do lineEnd after; f) = (do
      let token ← advance
      if token.kind != .newline then refuse (.newlineExpected after token) token
      else f) := by
  unfold lineEnd
  rw [bind_assoc]
  congr 1
  funext token
  split
  · rw [refuse_bind]
  · rw [pure_bind]

theorem lineEnd_prompt {f : Read β} {after : String} (hbad : viable [])
    (hgood : ∀ token rest, r.ahead = token :: rest → token.kind = .newline →
      Prompt f (r.skip 1) (fun passed => viable (token :: passed)) fun ts => names (token :: ts)) :
    Prompt (do lineEnd after; f) r viable names := by
  rw [lineEnd_bind]
  exact take_prompt (fun _ => rfl) (by decide) hbad hgood

/-- The end of a statement. -/
theorem ended_prompt {after : String} (hbad : viable [])
    (hnames : ∀ stop : Token, stop.kind = .newline → r.names = names [stop]) :
    Prompt (do lineEnd after; pure a) r viable names :=
  lineEnd_prompt hbad fun stop _ _ hs => Prompt.pure (hnames stop hs)

/-- A step that does the same as another one from another place, whatever the tokens. -/
theorem Prompt.of_among {f f' : Read β} {s : Reader} (hs : s = s.among r.tokens r.ahead)
    (hsame : ∀ tokens ahead, f (r.among tokens ahead) = f' (s.among tokens ahead))
    (h : Prompt f' s viable names) : Prompt f r viable names := by
  have hahead : r.ahead = s.ahead := by
    rw [hs]
    rfl
  have hrun : f r = f' s := by
    rw [hs]
    exact hsame r.tokens r.ahead
  constructor
  · intro b r' hp
    obtain ⟨ts, hpasses, hn⟩ := h.passes (hrun.symm.trans hp)
    refine ⟨ts, ⟨hahead.trans hpasses.ahead, fun tokens ahead hhead => ?_⟩, hn⟩
    rw [hsame]
    exact hpasses.again tokens ahead hhead
  · intro rejection r' hp
    obtain ⟨passed, token, hblames, hv⟩ := h.blames (hrun.symm.trans hp)
    refine ⟨passed, token,
      ⟨hahead ▸ hblames.ahead, hblames.place, hblames.about, fun tokens rest => ?_⟩, hv⟩
    rw [hsame]
    exact hblames.again tokens rest

/-- A look at the names. -/
theorem get_prompt {f : Read β} {g : Reader → Read β} (hg : ∀ s, s.names = r.names → g s = f)
    (h : Prompt f r viable names) : Prompt (get >>= g) r viable names :=
  h.of_among rfl fun tokens ahead => by
    rw [bind_eq (get_eq _), hg (r.among tokens ahead) rfl]

/-- A change that has nothing to do with the tokens. -/
theorem change_prompt {f : Read β} {change : Reader → Reader}
    (hc : ∀ tokens ahead, change (r.among tokens ahead) = (change r).among tokens ahead)
    (h : Prompt f (change r) viable names) : Prompt (do modify change; f) r viable names :=
  h.of_among (s := change r) (hc r.tokens r.ahead) fun tokens ahead => by
    rw [bind_eq (modify_eq change _), hc]

theorem note_prompt {f : Read β} {event : Event}
    (h : Prompt f { r with notes := event :: r.notes } viable names) :
    Prompt (do note event; f) r viable names :=
  change_prompt (fun _ _ => rfl) h

theorem blank_prompt (viable : List Token → Prop) :
    Prompt skipLineEnds r viable fun _ => r.names := by
  obtain ⟨blank, hblank⟩ : ∃ blank, blank = r.ahead.takeWhile (·.kind == .newline) := ⟨_, rfl⟩
  obtain ⟨rest, hrest⟩ : ∃ rest, rest = r.ahead.dropWhile (·.kind == .newline) := ⟨_, rfl⟩
  have hsplit : r.ahead = blank ++ rest := by
    rw [hblank, hrest, List.takeWhile_append_dropWhile]
  have hends : LineEnds blank := fun token hm => by
    rw [hblank] at hm
    simpa using List.all_eq_true.1 List.all_takeWhile token hm
  have hmoved : (r.skip blank.length).ahead = rest := by
    show r.ahead.drop blank.length = rest
    rw [hsplit, List.drop_left]
  cases hr : rest with
  | nil =>
    have hnone : skipLineEnds r = .error .exhausted (r.skip blank.length) := by
      unfold skipLineEnds
      rw [bind_eq (modify_eq _ r), ← hblank]
      exact bind_error_eq (peek_nil (hmoved.trans hr))
    constructor <;> intro _ _ hp <;> rw [hnone] at hp <;> cases hp
  | cons token rest' =>
    have hk : token.kind ≠ .newline := by
      have hhead := List.head?_dropWhile_not (fun token : Token => token.kind == .newline) r.ahead
      rw [← hrest, hr] at hhead
      simpa using hhead
    have hskip := skipLineEnds_eq (hsplit.trans (by rw [hr])) hends hk
    constructor
    · intro u r' hp
      rw [hskip] at hp
      cases hp
      refine ⟨blank, ⟨by rw [hmoved, hsplit], fun tokens ahead hhead => ?_⟩, rfl⟩
      rw [hmoved, hr] at hhead
      obtain ⟨more, rfl⟩ := List.head?_eq_some_iff.1 hhead
      rw [skipLineEnds_eq (r := r.among tokens (blank ++ token :: more)) rfl hends hk]
      simp [Reader.skip, Reader.among]
    · intro rejection r' hp
      rw [hskip] at hp
      cases hp

/-- Blank lines are passed. -/
theorem skipLineEnds_prompt {f : Read β}
    (h : ∀ blank r', LineEnds blank → r.ahead = blank ++ r'.ahead → r'.names = r.names →
      Prompt f r' (fun passed => viable (blank ++ passed)) fun ts => names (blank ++ ts)) :
    Prompt (do skipLineEnds; f) r viable names := by
  refine Prompt.bind (blank_prompt fun _ => False) (fun _ => False.elim) fun u r' ts hp ha hn => ?_
  obtain ⟨blank, hblank, hm⟩ := skipLineEnds_ok hp
  obtain rfl : ts = blank := List.append_cancel_right (ha.symm.trans hm.ahead)
  exact h ts r' hblank ha hn

end Read

end BasicToC
