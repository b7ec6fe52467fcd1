import BasicToC.Proofs.Pipeline.Stages
import BasicToC.Proofs.Reading.Refusal
import BasicToC.Proofs.Scanning.Faults

/-!
# What is wrong with a text

A text that is refused has an offence: the place where no token can be read, or a token at which it
turns out to be no program. The diagnostic of the refusal points at it.

* `Offence`: what is complained of in a text, where that stands and how it is shown.
* `rejected_about`: the token because of which a program is refused.
* `scanning_shown`, `reading_shown`: what is shown of either kind of offence.
* `diagnostic_points_at_offence`: every diagnostic of a text that is refused points at its offence.
-/

set_option autoImplicit false

namespace BasicToC

variable {source : String} {tokens : List Token} {token : Token} {rejection : Rejection}

/-- What is complained of in a text, the offset at which that stands, and the text that is shown of
it. Reading stops at the head of a text at which the rules are stuck; or the program is refused
because of a token that the complaint is about, of which the lexeme is shown, unless it is the end of
a line or of the program. -/
inductive Offence (source : String) : Complaint → Nat → List Char → Prop
  | scanning {complaint : Complaint} {before after lexeme shown : List Char} {ts : List Token}
      (split : source.toList = before ++ after) (stops : Munches source.toList ts after)
      (faulty : Faulty complaint after lexeme shown) : Offence source complaint before.length shown
  | reading {complaint : Complaint} {tokens : List Token} {token : Token} {reader : Reader}
      {offset : Nat} (scanned : Token.scan source = .ok tokens) (met : token ∈ tokens)
      (refused : Read.program (Reader.ofTokens tokens) =
        .error (.rejected (Read.rejection complaint token)) reader)
      (about : complaint.IsAbout token) (stands : token.StandsAt source.toList offset) :
      Offence source complaint offset
        (if token.kind = .newline ∨ token.kind = .eof then [] else token.lexeme.toList)

/-! ## The token that is complained of -/

/-- **A program is refused because of a token that the complaint is about.** -/
theorem rejected_about {reader : Reader} (hscan : Token.scan source = .ok tokens)
    (h : Read.program (Reader.ofTokens tokens) = .error (.rejected rejection) reader) :
    ∃ token ∈ tokens, rejection = Read.rejection rejection.complaint token ∧
      rejection.complaint.IsAbout token := by
  rw [Read.program_eq] at h
  rcases bind_error h with h | ⟨body, after, hbody, h⟩
  · obtain ⟨passed, token, hblames, -⟩ := (Read.allStatements_prompt _).blames h
    obtain ⟨rest, hrest⟩ := hblames.ahead
    rw [scanned_ahead hscan] at hrest
    exact ⟨token, by simp [hrest], hblames.place, hblames.about⟩
  · have hnames : after.names = ({} : Names).follow tokens := names_of_statements hscan hbody
    rw [bind_eq (get_eq after), hnames, Names.strayJump_follow (ident_texts hscan)] at h
    cases hfind : (Grammar.named .goto tokens).find? fun token =>
        !token.value.isIn (({} : Names).follow tokens).labels with
    | none =>
      rw [hfind, Option.map_none] at h
      simp only at h
      rw [bind_eq (get_eq after)] at h
      cases hsort : sortedValues? after.names.declared with
      | none => rw [hsort] at h; cases h
      | some declared => rw [hsort] at h; cases h
    | some token =>
      obtain ⟨hmem, hident⟩ := Grammar.named_mem token (List.mem_of_find?_eq_some hfind)
      rw [hfind, Option.map_some] at h
      simp only at h
      rw [Read.refuse_eq] at h
      split at h <;> cases h
      exact ⟨token, hmem, rfl, hident, rfl⟩

/-- A token of a text stands somewhere in it: the mark for the end at its end, and every other one
where the lexeme is written that it stands for. -/
theorem token_stands (hscan : Token.scan source = .ok tokens) (hm : token ∈ tokens) :
    ∃ offset, token.StandsAt source.toList offset ∧
      (token.Meant ∧ token.kind ≠ .eof ∨ token.kind = .eof ∧ offset = source.toList.length) := by
  obtain ⟨placed, stop, htokens, htiles⟩ :=
    scanFrom_tiles {} source.toList [] .start (Token.scan_fault hscan)
  obtain ⟨ts, last, hts, -, hmeant⟩ := scan_meant hscan
  rw [show (scanFrom {} source.toList).tokens = tokens from Token.scan_tokens hscan] at htokens
  obtain ⟨hplaced, -⟩ := List.append_inj' (htokens.symm.trans hts) rfl
  rw [htokens] at hm
  rcases List.mem_append.1 hm with hm | hm
  · have hmean := hmeant token (hplaced ▸ hm)
    obtain ⟨t, ht, rfl⟩ := List.mem_map.1 hm
    exact ⟨t.2, htiles.stands t ht, .inl ⟨hmean, (htiles.proper t ht).1⟩⟩
  · obtain rfl := List.mem_singleton.1 hm
    exact ⟨_, htiles.stop.2, .inr ⟨htiles.stop.1, rfl⟩⟩

/-! ## What is shown -/

/-- The diagnostic of a place where no token can be read. -/
theorem scanning_shown (h : Token.scan source = .error rejection) :
    ∃ offset text, Offence source rejection.complaint offset text ∧
      ((Diagnostic.ofRejection rejection).locate source).Shows source.toList offset text := by
  obtain ⟨before, after, lexeme, shown, stop, hsplit, hmunches, hfaulty, hstop, hreject⟩ :=
    scanFrom_faulty {} source.toList [] .start (Token.scan_rejection h)
  rw [List.nil_append] at hstop
  have hline := hstop.line
  have hcolumn := hstop.column
  unfold Place.column at hcolumn
  obtain ⟨hsome, hleft⟩ := hfaulty.left
  refine ⟨before.length, shown, .scanning hsplit hmunches hfaulty, ?_⟩
  refine Diagnostic.locate_shows hsplit ?_ ?_ ?_ hsome hleft
  · rw [hreject]
    show some stop.line = _
    rw [hline]
    rfl
  · rw [hreject]
    show stop.offset - stop.lineStart = _
    omega
  · rw [hreject]
    rfl

/-- What is left behind a token in its line: the token, unless it is the end of the line or of the
program. -/
theorem token_left (after : List Char)
    (hwritten : after.take token.lexeme.toList.length = token.lexeme.toList)
    (h : token.Meant ∧ token.kind ≠ .eof ∨ token.kind = .eof ∧ after = []) (front : List Char) :
    ((Text.trimReturns (front ++ after.takeWhile (· != '\n'))).take
      (front.length + max token.lexeme.toList.length 1)).drop front.length =
      if token.kind = .newline ∨ token.kind = .eof then [] else token.lexeme.toList := by
  rcases h with ⟨hmeant, hne⟩ | ⟨heof, rfl⟩
  · obtain ⟨more, hmore⟩ : ∃ more, after = token.lexeme.toList ++ more :=
      ⟨_, by conv_lhs => rw [← List.take_append_drop token.lexeme.toList.length after, hwritten]⟩
    by_cases hk : token.kind = .newline
    · have hend : after.takeWhile (· != '\n') = [] := by
        rw [hmore, hmeant.newline_iff.1 hk]
        rfl
      rw [if_pos (.inl hk), hend]
      exact Text.stretch_none _ front
    · have hsome := hmeant.length_pos
      rw [if_neg (by simp [hk, hne]), hmore, Text.takeWhile_inLine (hmeant.inLine hk),
        Nat.max_eq_left hsome]
      exact Text.stretch_solid (List.length_pos_iff.1 hsome) hmeant.solid _ front
  · rw [if_pos (.inr heof)]
    exact Text.stretch_none _ front

/-- The diagnostic of a token because of which a program is refused. -/
theorem reading_shown {reader : Reader} (hscan : Token.scan source = .ok tokens)
    (h : Read.program (Reader.ofTokens tokens) = .error (.rejected rejection) reader) :
    ∃ offset text, Offence source rejection.complaint offset text ∧
      ((Diagnostic.ofRejection rejection).locate source).Shows source.toList offset text := by
  obtain ⟨token, hm, hplace, habout⟩ := rejected_about hscan h
  obtain ⟨offset, hstands, hkind⟩ := token_stands hscan hm
  have hinside := hstands.inside
  have hcolumn := hstands.column
  refine ⟨offset, _, .reading hscan hm (hplace ▸ h) habout hstands, ?_⟩
  have hsplit : source.toList = source.toList.take offset ++ source.toList.drop offset :=
    (List.take_append_drop offset _).symm
  have hlength : (source.toList.take offset).length = offset := by
    rw [List.length_take, Nat.min_eq_left (by omega)]
  have hleft := token_left _ hstands.written (hkind.imp_right fun ⟨heof, hend⟩ =>
    ⟨heof, by rw [hend]; exact List.drop_length⟩)
  have hshows := @Diagnostic.locate_shows _ rejection _ _ _ _ hsplit ?_ ?_ ?_ (by omega) hleft
  · rwa [hlength] at hshows
  · rw [hplace]
    show (if token.line = 0 then none else some token.line) = _
    rw [if_neg (by have := hstands.line; omega), hstands.line]
    rfl
  · rw [hplace]
    show max (token.column - 1) 0 = _
    omega
  · rw [hplace]
    show max (token.column - 1) 0 + max (token.lexeme.length : Int) 1 = _
    rw [← String.length_toList]
    show _ = max (token.column - 1) 0 + _
    omega

/-- **A diagnostic points at the offence.** Whenever a text is refused, what it is refused for stands
at some offset of it, and the diagnostic of the refusal shows that: its line, and under that an arrow
to the text that is complained of. -/
theorem diagnostic_points_at_offence {noteTree : Bool} {fault : Compile.Fault}
    (h : (compile noteTree source).1 = .error fault) (hr : fault.rejection? = some rejection) :
    ∃ offset text, Offence source rejection.complaint offset text ∧
      ((Diagnostic.ofRejection rejection).locate source).Shows source.toList offset text := by
  rcases compile_rejected h hr with hscan | ⟨tokens, reader, hscan, hread⟩
  · exact scanning_shown hscan
  · exact reading_shown hscan hread

/-- A text with a quote that is not closed, in front of two carriage returns. -/
def openText : String := "LET a = 1\r\nPRINT \"abc\r\r\n"

/-- A text in which nothing is printed, with a carriage return in front of the line feed. -/
def bareText : String := "LET a = 1\r\nPRINT\r\n"

theorem openText_and_bareText_pointed :
    ((compile false openText).1 =
        .error (.scanning ⟨.unclosedText "\"abc\r\r", some 2, 6, 12⟩) ∧
      ∃ offset text, Offence openText (.unclosedText "\"abc\r\r") offset text ∧
        ((Diagnostic.ofRejection ⟨.unclosedText "\"abc\r\r", some 2, 6, 12⟩).locate openText).Shows
          openText.toList offset text) ∧
    ((compile false bareText).1 = .error (.reading (.rejected
        ⟨.operandExpected ⟨.newline, .absent, 2, 7, "\n"⟩, some 2, 6, 7⟩)) ∧
      ∃ offset text, Offence bareText (.operandExpected ⟨.newline, .absent, 2, 7, "\n"⟩) offset text ∧
        ((Diagnostic.ofRejection ⟨.operandExpected ⟨.newline, .absent, 2, 7, "\n"⟩, some 2, 6, 7⟩).locate
          bareText).Shows bareText.toList offset text) := by
  have hopen : (compile false openText).1 =
      .error (.scanning ⟨.unclosedText "\"abc\r\r", some 2, 6, 12⟩) := by decide +kernel
  have hbare : (compile false bareText).1 = .error (.reading (.rejected
      ⟨.operandExpected ⟨.newline, .absent, 2, 7, "\n"⟩, some 2, 6, 7⟩)) := by decide +kernel
  exact ⟨⟨hopen, diagnostic_points_at_offence hopen rfl⟩,
    hbare, diagnostic_points_at_offence hbare rfl⟩

/-- The carriage returns behind an open quote are not shown. -/
example : ((Diagnostic.ofRejection ⟨.unclosedText "\"abc\r\r", some 2, 6, 12⟩).locate openText).pointer
    .bare = "  PRINT \"abc\n        ^~~~" := by decide +kernel

end BasicToC
