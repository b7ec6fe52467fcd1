import BasicToC.Proofs.Reading.Earliest
import BasicToC.Proofs.Scanning.Places

/-!
# Where a program is refused

A program is refused at the earliest token at which it can be known that it is none.

* `Rejection.PointsAt`: a rejection says which token it is about.
* `Accepted`: tokens that are read as a program.
* `accepted_behind`, `refused_behind`: what may follow the tokens in front of the one complained of,
  and that nothing may follow that one.
* `refusal_at_earliest_token`: whole programs, and the jumps to labels that are nowhere placed.
-/

set_option autoImplicit false

namespace BasicToC

open Grammar (Viable NamedAt Stray mark nesting)

/-- Tokens that are read as a program. -/
def Accepted (ts : List Token) : Prop :=
  ∃ program reader, Read.program (Reader.ofTokens ts) = .ok program reader

/-- A rejection is about the `k`-th token of a list, and says so: it is about no other one. -/
structure Rejection.PointsAt (rejection : Rejection) (tokens : List Token) (k : Nat) : Prop where
  place : ∃ token, tokens[k]? = some token ∧ rejection = Read.rejection rejection.complaint token
  only : ∀ j other, tokens[j]? = some other →
    rejection = Read.rejection rejection.complaint other → j = k

variable {source : String} {tokens passed rest : List Token} {token : Token}

/-- A complaint about a token of a text says which token that is. -/
theorem pointsAt_of_scan (hscan : Token.scan source = .ok tokens) {k : Nat}
    (hk : tokens[k]? = some token) (complaint : Complaint) :
    (Read.rejection complaint token).PointsAt tokens k where
  place := ⟨token, hk, rfl⟩
  only j other hj hsame := by
    obtain ⟨hline, hcolumn⟩ := scan_place_pos hscan (List.mem_of_getElem? hk)
    obtain ⟨hline', hcolumn'⟩ := scan_place_pos hscan (List.mem_of_getElem? hj)
    simp only [Read.rejection, Rejection.mk.injEq, if_neg hline.ne', if_neg hline'.ne',
      Option.some.injEq] at hsame
    obtain ⟨-, hlines, hstarts, -⟩ := hsame
    exact scan_place_unique hscan hj hk hlines.symm (by omega)

theorem scanned_ahead (hscan : Token.scan source = .ok tokens) :
    (Read.start (Reader.ofTokens tokens)).ahead = tokens := by
  obtain ⟨ts, stop, rfl, hstop, -⟩ := Token.scan_ok hscan
  exact (Read.start_ahead _).trans (closed_eq hstop)

/-- No token in front of another one is the mark for the end. -/
theorem proper_front (hscan : Token.scan source = .ok tokens)
    (hsplit : tokens = passed ++ token :: rest) : ∀ t ∈ passed, t.Proper := by
  obtain ⟨ts, stop, htokens, -, hts⟩ := Token.scan_ok hscan
  have hfront : ts = passed ++ (token :: rest).dropLast := by
    rw [← List.dropLast_append_cons, ← hsplit, htokens, List.dropLast_concat]
  intro t ht
  exact hts t (hfront ▸ List.mem_append_left _ ht)

/-! ## The statements of a program -/

/-- Reading starts in front of all tokens, and differs in nothing else. -/
theorem start_among (ts us : List Token) :
    Read.start (Reader.ofTokens us) =
      (Read.start (Reader.ofTokens ts)).among (Reader.closed us) (Reader.closed us) := by
  have hahead : (Read.start (Reader.ofTokens us)).ahead = Reader.closed us := Read.start_ahead _
  rw [← hahead]
  rfl

theorem closed_prefix (ts : List Token) : ∃ more, Reader.closed ts = ts ++ more := by
  unfold Reader.closed
  split
  · split
    · exact ⟨[], (List.append_nil ts).symm⟩
    · exact ⟨_, rfl⟩
  · rename_i hnone
    exact ⟨_, by rw [List.getLast?_eq_none_iff.1 hnone]; rfl⟩

/-- Whatever can be finished is accepted when it is finished. -/
theorem accepted_behind (hpassed : ∀ t ∈ passed, t.Proper) (hnesting : nesting passed ≤ 200)
    (hviable : Viable Grammar.Program {} passed) : ∃ more, Accepted (passed ++ more) := by
  obtain ⟨more, t, hmore, ht, hnamed⟩ := hviable.program hpassed
  have hproper : ∀ t ∈ passed ++ more, t.Proper := by
    intro t ht
    rcases List.mem_append.1 ht with ht | ht
    · exact hpassed t ht
    · exact (hmore t ht).1
  have hdeep : nesting (passed ++ more) < Read.maxNesting := by
    have hsame : nesting (passed ++ more) = nesting passed := hmore.nesting 0
    unfold Read.maxNesting
    omega
  obtain ⟨program, reader, hread, -⟩ :=
    program_of_derivation hproper (rfl : (mark .eof).kind = .eof) hdeep ht hnamed
  refine ⟨more ++ [mark .eof], program, reader, ?_⟩
  rw [← List.append_assoc]
  exact hread

/-- Behind a token that has been complained of nothing is accepted. -/
theorem refused_behind {ts : List Token} {rejection : Rejection}
    (hblames : Read.Blames Read.allStatements (Read.start (Reader.ofTokens ts)) passed token
      rejection) (more : List Token) : ¬ Accepted (passed ++ [token] ++ more) := by
  rintro ⟨program, reader, hread⟩
  obtain ⟨fin, hclosed⟩ := closed_prefix (passed ++ [token] ++ more)
  have htokens : Reader.closed (passed ++ [token] ++ more) = passed ++ token :: (more ++ fin) := by
    rw [hclosed]
    simp
  obtain ⟨r, hrefused⟩ := hblames.again (Reader.closed (passed ++ [token] ++ more)) (more ++ fin)
  rw [← htokens, ← start_among] at hrefused
  rw [Read.program_eq] at hread
  obtain ⟨body, r', hbody, -⟩ := bind_ok hread
  cases hbody.symm.trans hrefused

/-- Every complaint but the one about a stray jump is made while the statements are read. -/
theorem rejected_in_statements {r reader : Reader} {rejection : Rejection}
    (h : Read.program r = .error (.rejected rejection) reader)
    (hstray : ∀ name, rejection.complaint ≠ .labelUndeclared name) :
    Read.allStatements (Read.start r) = .error (.rejected rejection) reader := by
  rw [Read.program_eq] at h
  rcases bind_error h with h | ⟨body, r', -, h⟩
  · exact h
  · rw [bind_eq (get_eq r')] at h
    cases hjump : r'.names.strayJump? with
    | some jump =>
      rw [hjump] at h
      simp only at h
      rw [Read.refuse_eq] at h
      split at h
      · cases h
      · cases h
        exact absurd rfl (hstray _)
    | none =>
      rw [hjump] at h
      simp only at h
      rw [bind_eq (get_eq r')] at h
      cases hsort : sortedValues? r'.names.declared with
      | none => rw [hsort] at h; cases h
      | some declared => rw [hsort] at h; cases h

/-- When a complaint is made while the statements of a text are read, the tokens in front of the one
complained of start some program, and together with that one they start none. -/
theorem refused_in_statements (hscan : Token.scan source = .ok tokens)
    (hnesting : nesting tokens ≤ 200) {rejection : Rejection} {reader : Reader}
    (h : Read.allStatements (Read.start (Reader.ofTokens tokens)) =
      .error (.rejected rejection) reader) :
    ∃ k, rejection.PointsAt tokens k ∧ (∃ more, Accepted (tokens.take k ++ more)) ∧
      ∀ more, ¬ Accepted (tokens.take (k + 1) ++ more) := by
  obtain ⟨passed, token, hblames, hviable⟩ := (Read.allStatements_prompt _).blames h
  obtain ⟨rest, hrest⟩ := hblames.ahead
  have htokens : tokens = passed ++ token :: rest := (scanned_ahead hscan).symm.trans hrest
  have htake : tokens.take passed.length = passed := by rw [htokens, List.take_left]
  have htake' : tokens.take (passed.length + 1) = passed ++ [token] := by
    rw [htokens, List.take_length_add_append]
    rfl
  have hfront := Grammar.nesting_le_append passed (token :: rest)
  rw [← htokens] at hfront
  refine ⟨passed.length, ?_, ?_, fun more => ?_⟩
  · rw [hblames.place]
    exact pointsAt_of_scan hscan (by rw [htokens]; simp) _
  · rw [htake]
    exact accepted_behind (proper_front hscan htokens) (hfront.trans hnesting) hviable
  · rw [htake']
    exact refused_behind hblames more

/-! ## Jumps -/

/-- The names that are kept behind all statements of a text are those of its tokens. -/
theorem names_of_statements (hscan : Token.scan source = .ok tokens) {body : List Statement}
    {after : Reader}
    (h : Read.allStatements (Read.start (Reader.ofTokens tokens)) = .ok body after) :
    after.names = ({} : Names).follow tokens := by
  obtain ⟨ts, stop, rfl, hstop, hts⟩ := Token.scan_ok hscan
  obtain ⟨us, hpasses, hnames⟩ := (Read.allStatements_prompt _).passes h
  obtain ⟨vs, -, -, token, rest, ha, hk⟩ := Read.statements_ok h
  have hsplit : ts ++ [stop] = us ++ token :: rest := by
    rw [← ha, ← hpasses.ahead, scanned_ahead hscan]
  rw [Names.follow_stop (by rw [hstop]; decide), split_at_end hts hk hsplit]
  exact hnames

/-- A name in a text is a text. -/
theorem ident_texts (hscan : Token.scan source = .ok tokens) :
    ∀ token ∈ tokens, token.kind = .ident → token.value.IsText := by
  obtain ⟨ts, stop, rfl, hstop, hts⟩ := Token.scan_ok hscan
  intro token hm hk
  rcases List.mem_append.1 hm with hm | hm
  · exact Grammar.ident_text (hts token hm) hk
  · rw [List.mem_singleton.1 hm, hstop] at hk
    cases hk

/-- When the statements of a text can be read and some jump is stray, the complaint is about the
first stray jump. -/
theorem refused_at_first_stray (hscan : Token.scan source = .ok tokens) {body : List Statement}
    {after : Reader}
    (h : Read.allStatements (Read.start (Reader.ofTokens tokens)) = .ok body after)
    (hstray : ∃ j token, NamedAt .goto tokens j token ∧ Stray tokens token) :
    ∃ k token rejection reader,
      Read.program (Reader.ofTokens tokens) = .error (.rejected rejection) reader ∧
      rejection.complaint = .labelUndeclared token.value ∧
      rejection.PointsAt tokens (k + 1) ∧ NamedAt .goto tokens k token ∧ Stray tokens token ∧
      ∀ j other, NamedAt .goto tokens j other → Stray tokens other → k ≤ j := by
  obtain ⟨k, token, hjump, hstray, hfirst, hfound⟩ := Names.first_stray (ident_texts hscan) hstray
  have hmem : tokens[k + 1]? = some token := hjump.found
  have htext := ident_texts hscan token (List.mem_of_getElem? hmem) hjump.ident
  refine ⟨k, token, Read.rejection (.labelUndeclared token.value) token, after, ?_, rfl,
    pointsAt_of_scan hscan hmem _, hjump, hstray, hfirst⟩
  have hstatements : Read.statements (Read.start (Reader.ofTokens tokens)).ahead
      (Read.start (Reader.ofTokens tokens)) = .ok body after := h
  rw [Read.program_eq, bind_eq hstatements, bind_eq (get_eq after),
    names_of_statements hscan h, hfound]
  simp only
  rw [Read.refuse_eq, if_neg]
  rw [Complaint.isNameless, Read.IsText.ne_absent htext]
  decide

/-! ## Whole programs -/

/-- **A program is refused at the earliest token.** When a complaint is made while its statements are
read, the tokens in front of the one complained of start some program, and together with that one
they start none. When its statements can be read and some jump is stray, the complaint is about the
first stray jump. -/
theorem refusal_at_earliest_token (hscan : Token.scan source = .ok tokens)
    (hnesting : nesting tokens ≤ 200) :
    (∀ rejection reader,
      Read.program (Reader.ofTokens tokens) = .error (.rejected rejection) reader →
      (∀ name, rejection.complaint ≠ .labelUndeclared name) →
      ∃ k, rejection.PointsAt tokens k ∧ (∃ more, Accepted (tokens.take k ++ more)) ∧
        ∀ more, ¬ Accepted (tokens.take (k + 1) ++ more)) ∧
    (∀ body after,
      Read.statements tokens (Read.start (Reader.ofTokens tokens)) = .ok body after →
      (∃ j token, NamedAt .goto tokens j token ∧ Stray tokens token) →
      ∃ k token rejection reader,
        Read.program (Reader.ofTokens tokens) = .error (.rejected rejection) reader ∧
        rejection.complaint = .labelUndeclared token.value ∧
        rejection.PointsAt tokens (k + 1) ∧ NamedAt .goto tokens k token ∧ Stray tokens token ∧
        ∀ j other, NamedAt .goto tokens j other → Stray tokens other → k ≤ j) := by
  refine ⟨fun rejection reader hrefused hcomplaint => ?_, fun body after hread hstray => ?_⟩
  · exact refused_in_statements hscan hnesting (rejected_in_statements hrefused hcomplaint)
  · have hall : Read.allStatements (Read.start (Reader.ofTokens tokens)) = .ok body after := by
      show Read.statements (Read.start (Reader.ofTokens tokens)).ahead _ = _
      rw [scanned_ahead hscan]
      exact hread
    exact refused_at_first_stray hscan hall hstray

/-- A text with a variable that is never set, in a block that is never closed. -/
def unsetText : String := "IF 1 == 1 THEN\nPRINT 2 * b\nGOTO c\n"

/-- A text with two stray jumps, and with one to a label in between. -/
def strayText : String := "LABEL a\nGOTO b\nGOTO a\nGOTO c\n"

theorem unsetText_and_strayText_refused :
    (Token.scan unsetText = .ok (scanText unsetText).tokens ∧
      nesting (scanText unsetText).tokens ≤ 200 ∧
      (Rejection.mk (.variableUnassigned (.text "b")) (some 2) 10 11).PointsAt
        (scanText unsetText).tokens 9 ∧
      (∃ more, Accepted ((scanText unsetText).tokens.take 9 ++ more)) ∧
      ∀ more, ¬ Accepted ((scanText unsetText).tokens.take 10 ++ more)) ∧
    (Token.scan strayText = .ok (scanText strayText).tokens ∧
      nesting (scanText strayText).tokens ≤ 200 ∧
      ∃ rejection reader,
        Read.program (Reader.ofTokens (scanText strayText).tokens) =
          .error (.rejected rejection) reader ∧
        rejection.complaint = .labelUndeclared (.text "b") ∧
        rejection.PointsAt (scanText strayText).tokens 4) := by
  constructor
  · have hscan : Token.scan unsetText = .ok (scanText unsetText).tokens := by decide +kernel
    have hnesting : nesting (scanText unsetText).tokens ≤ 200 := by decide +kernel
    have hread : (match Read.program (Reader.ofTokens (scanText unsetText).tokens) with
        | .error (.rejected rejection) _ =>
          rejection == ⟨.variableUnassigned (.text "b"), some 2, 10, 11⟩
        | _ => false) = true := by decide +kernel
    refine ⟨hscan, hnesting, ?_⟩
    split at hread
    · rename_i rejection reader hprogram
      obtain rfl : rejection = ⟨.variableUnassigned (.text "b"), some 2, 10, 11⟩ := by
        simpa using hread
      obtain ⟨k, hpoints, haccepted, hrefused⟩ :=
        (refusal_at_earliest_token hscan hnesting).1 _ reader hprogram (by simp)
      have hfound : (scanText unsetText).tokens[9]? =
          some ⟨.ident, .text "b", 2, 11, "b"⟩ := by decide +kernel
      obtain rfl : 9 = k := hpoints.only 9 _ hfound (by decide +kernel)
      exact ⟨hpoints, haccepted, hrefused⟩
    · cases hread
  · have hscan : Token.scan strayText = .ok (scanText strayText).tokens := by decide +kernel
    have hnesting : nesting (scanText strayText).tokens ≤ 200 := by decide +kernel
    have hread : (match Read.statements (scanText strayText).tokens
        (Read.start (Reader.ofTokens (scanText strayText).tokens)) with
        | .ok _ _ => true
        | .error _ _ => false) = true := by decide +kernel
    have hlabels : Grammar.named .label (scanText strayText).tokens =
        [⟨.ident, .text "a", 1, 7, "a"⟩] := by decide +kernel
    have hword : (scanText strayText).tokens[3]? = some ⟨.goto, .absent, 2, 1, "GOTO"⟩ := by
      decide +kernel
    have hname : (scanText strayText).tokens[4]? = some ⟨.ident, .text "b", 2, 6, "b"⟩ := by
      decide +kernel
    have hjump : NamedAt .goto (scanText strayText).tokens 3 ⟨.ident, .text "b", 2, 6, "b"⟩ :=
      ⟨⟨_, hword, rfl⟩, hname, rfl⟩
    have hstray : Stray (scanText strayText).tokens ⟨.ident, .text "b", 2, 6, "b"⟩ := by
      intro k label hlabel
      have hmem := Grammar.mem_named_iff.2 ⟨k, hlabel⟩
      rw [hlabels, List.mem_singleton] at hmem
      rw [hmem]
      decide
    refine ⟨hscan, hnesting, ?_⟩
    split at hread
    · rename_i body after hstatements
      obtain ⟨k, token, rejection, reader, hprogram, hcomplaint, hpoints, hfirst, -, hle⟩ :=
        (refusal_at_earliest_token hscan hnesting).2 body after hstatements ⟨3, _, hjump, hstray⟩
      have hkinds : ∀ j < 3, (scanText strayText).tokens[j]?.map Token.kind ≠ some .goto := by
        decide +kernel
      obtain ⟨word, hat, hgoto⟩ := hfirst.behind
      obtain rfl : k = 3 := by
        have hle := hle 3 _ hjump hstray
        by_contra hne
        exact hkinds k (by omega) (by rw [hat, Option.map_some, hgoto])
      obtain rfl : token = ⟨.ident, .text "b", 2, 6, "b"⟩ :=
        Option.some.inj (hfirst.found.symm.trans hname)
      exact ⟨rejection, reader, hprogram, hcomplaint, hpoints⟩
    · cases hread

end BasicToC
