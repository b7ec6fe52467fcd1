import BasicToC.Proofs.Report.Excerpt
import BasicToC.Proofs.Scanning.Meaning

/-!
# Where no token can be read

A text is refused at a place where the rules are stuck. What is complained of there is the stretch at
its head that is no token: a single character, a whole numeral, or everything from a quote to the end
of the line.

* `Faulty`: a complaint about the head of a text, the stretch that it is about and what is shown of it.
* `piece_faulty`: the faults that are found at the head of a text are such.
* `scanFrom_faulty`: the fault at which reading stops, and where that is.
* `Faulty.left`: what is left of the stretch in a line without the carriage returns at its end.
-/

set_option autoImplicit false

namespace BasicToC

/-- A complaint that a numeral stands for no number. -/
def Complaint.OfNumeral (lexeme : List Char) (complaint : Complaint) : Prop :=
  complaint = .malformedNumber (String.ofList lexeme) ∨
    complaint = .realTooLarge (String.ofList lexeme) ∨
    complaint = .wholeTooLarge (String.ofList lexeme)

/-- A complaint about the head of a text, the stretch that it is about, and what is shown of that: a
character that starts nothing, a numeral that stands for no number, or a text whose quote is not
closed in its line. Only the last can end in carriage returns, which are not shown. -/
inductive Faulty : Complaint → List Char → List Char → List Char → Prop
  | character {c : Char} {rest : List Char} (blank : ¬ (c = ' ' ∨ c = '\t' ∨ c = '\r'))
      (none : ∀ (rule : Rule) (lexeme : List Char), rule.Matches lexeme → ¬ lexeme <+: c :: rest) :
      Faulty (.unknownCharacter (Lexeme.characterName (some c))) (c :: rest) [c] [c]
  | numeral {complaint : Complaint} {lexeme text : List Char} (longest : Longest text lexeme)
      (unreadable : Unreadable lexeme) (named : complaint.OfNumeral lexeme) :
      Faulty complaint text lexeme lexeme
  | text {inner rest : List Char} (verbatim : ∀ c ∈ inner, c ≠ '"' ∧ c ≠ '\n')
      (ended : LineOver rest) :
      Faulty (.unclosedText (String.ofList ('"' :: inner))) ('"' :: inner ++ rest) ('"' :: inner)
        (Text.trimReturns ('"' :: inner))

/-! ## The head of a text -/

section Head

variable {c : Char} {rest : List Char} {complaint : Complaint} {length : Nat}

theorem numeral_ofNumeral {hasPoint : Bool} {lexeme : List Char}
    (h : Lexeme.numeral hasPoint lexeme = .error complaint) : complaint.OfNumeral lexeme := by
  unfold Lexeme.numeral at h
  split at h
  · simp only [Lexeme.realNumeral] at h
    split at h
    · exact .inl (by cases h; rfl)
    · split at h
      · cases h
      · exact .inr (.inl (by cases h; rfl))
  · unfold Lexeme.wholeNumeral at h
    split at h
    · exact .inl (by cases h; rfl)
    · split at h
      · exact .inr (.inr (by cases h; rfl))
      · cases h

/-- A text without a closing quote is complained of up to the end of the line. -/
theorem quotedPiece_faulty (h : quotedPiece rest = .fault complaint length) :
    ∃ lexeme shown, lexeme.length = length ∧ Faulty complaint ('"' :: rest) lexeme shown := by
  obtain ⟨inner, tail, rfl, hverbatim, ⟨more, rfl, hpiece⟩ | ⟨hover, hpiece⟩⟩ := quotedPiece_cases rest
  · rw [h] at hpiece
    cases hpiece
  · rw [h] at hpiece
    cases hpiece
    exact ⟨_, _, rfl, .text hverbatim hover⟩

theorem numeralPiece_faulty (hc : c.isDigit)
    (h : Lexeme.numeral
      (((c :: rest).take (Lexeme.numeralLength false (c :: rest))).contains '.')
      ((c :: rest).take (Lexeme.numeralLength false (c :: rest))) = .error complaint) :
    Faulty complaint (c :: rest) ((c :: rest).take (Lexeme.numeralLength false (c :: rest)))
      ((c :: rest).take (Lexeme.numeralLength false (c :: rest))) := by
  obtain ⟨lexeme, tail, -, htake, hlongest, hmatches⟩ := numberPiece_fits hc rest
  have hdenotes := numeral_denotes hmatches
  rw [htake] at h ⊢
  rw [h] at hdenotes
  exact .numeral hlongest hdenotes (numeral_ofNumeral h)

/-- **The faults that are found at the head of a text.** -/
theorem piece_faulty (h : piece c rest = .fault complaint length) :
    ∃ lexeme shown, lexeme.length = length ∧ Faulty complaint (c :: rest) lexeme shown := by
  have hfits := piece_fits c rest
  rw [h] at hfits
  unfold piece at h
  split at h
  · cases h
  split at h
  · cases h
  split at h
  · cases h
  split at h
  · rename_i hquote
    rw [beq_iff_eq.1 hquote]
    exact quotedPiece_faulty h
  split at h
  · rename_i hdigit
    simp only at h
    split at h
    · cases h
    · rename_i hnumeral
      cases h
      exact ⟨_, _, rfl, numeralPiece_faulty hdigit hnumeral⟩
  rename_i hquote hdigit
  split at h
  · cases h
  · split at h
    · cases h
    · cases h
      refine ⟨[c], [c], rfl, ?_⟩
      -- The rules can only be stuck here because none describes the character.
      generalize htext : c :: rest = text at hfits ⊢
      cases hfits with
      | unknown blank _ _ none =>
        cases htext
        exact .character blank none
      | unclosed => exact absurd (beq_iff_eq.2 (List.cons_eq_cons.1 htext).1) hquote
      | numeral longest unreadable =>
        obtain ⟨d, more, rfl, hd⟩ := unreadable.matched.starts
        subst htext
        obtain rfl : d = c := (List.cons_prefix_cons.1 longest.head).1
        exact absurd hd hdigit

end Head

/-! ## A whole text -/

/-- **Reading a text stops at a fault that the rules say of what is left.** The place of the
complaint is the one behind what has been read. -/
theorem scanFrom_faulty (place : Place) (text : List Char) : ∀ (passed : List Char)
    {rejection : Rejection}, place.Behind passed →
    (scanFrom place text).fault? = some rejection →
    ∃ (before after lexeme shown : List Char) (stop : Place), text = before ++ after ∧
      Munches text (scanFrom place text).tokens after ∧
      Faulty rejection.complaint after lexeme shown ∧ stop.Behind (passed ++ before) ∧
      rejection = stop.reject rejection.complaint lexeme.length := by
  induction place, text using scanFrom_induction with
  | stop place hscan =>
    intro passed rejection _ hfault
    rw [hscan] at hfault
    cases hfault
  | line place rest hscan ih =>
    intro passed rejection hplace hfault
    rw [hscan] at hfault ⊢
    obtain ⟨before, after, lexeme, shown, stop, hsplit, hmunches, hfaulty, hstop, hreject⟩ :=
      ih (passed ++ ['\n']) hplace.below hfault
    rw [List.append_assoc] at hstop
    have hall : Munches (['\n'] ++ rest)
        (place.token .newline .absent ['\n'] :: (scanFrom place.below rest).tokens) after :=
      .token (longest_newline rest) .newline rfl hmunches
    exact ⟨'\n' :: before, after, lexeme, shown, stop, congrArg ('\n' :: ·) hsplit, hall, hfaulty,
      hstop, hreject⟩
  | gap place gap rest hgap hscan ih =>
    intro passed rejection hplace hfault
    rw [hscan] at hfault ⊢
    obtain ⟨before, after, lexeme, shown, stop, hsplit, hmunches, hfaulty, hstop, hreject⟩ :=
      ih (passed ++ gap) (hplace.right hgap.inLine) hfault
    rw [List.append_assoc] at hstop
    exact ⟨gap ++ before, after, lexeme, shown, stop, by rw [hsplit, List.append_assoc],
      .gap hgap hmunches, hfaulty, hstop, hreject⟩
  | token place rule kind value written rest hlongest hdenotes hrule _ hscan ih =>
    intro passed rejection hplace hfault
    rw [hscan] at hfault ⊢
    obtain ⟨before, after, lexeme, shown, stop, hsplit, hmunches, hfaulty, hstop, hreject⟩ :=
      ih (passed ++ written) (hplace.right (hdenotes.matched.lineFeed hrule)) hfault
    rw [List.append_assoc] at hstop
    exact ⟨written ++ before, after, lexeme, shown, stop, by rw [hsplit, List.append_assoc],
      .token hlongest hdenotes rfl hmunches, hfaulty, hstop, hreject⟩
  | fault place c rest complaint length h hscan =>
    intro passed rejection hplace hfault
    rw [hscan] at hfault ⊢
    cases hfault
    obtain ⟨lexeme, shown, rfl, hfaulty⟩ := piece_faulty h
    exact ⟨[], c :: rest, lexeme, shown, place, rfl, .stop _, hfaulty, by simpa using hplace, rfl⟩

/-! ## In its line -/

/-- A line without the carriage returns at its end still has the stretch that is shown. -/
theorem Faulty.left {complaint : Complaint} {text lexeme shown : List Char}
    (h : Faulty complaint text lexeme shown) : 0 < lexeme.length ∧ ∀ front : List Char,
      ((Text.trimReturns (front ++ text.takeWhile (· != '\n'))).take
        (front.length + lexeme.length)).drop front.length = shown := by
  cases h with
  | @character c rest blank none =>
    have hinLine : '\n' ∉ [c] := by
      intro hmem
      obtain rfl := List.mem_singleton.1 hmem
      exact none .newline _ .newline ⟨rest, rfl⟩
    have hsolid : [c].getLast? ≠ some '\r' := by
      intro hlast
      exact blank (.inr (.inr (Option.some.inj hlast)))
    refine ⟨Nat.one_pos, fun front => ?_⟩
    rw [← List.singleton_append (l := rest), Text.takeWhile_inLine hinLine]
    exact Text.stretch_solid (by simp) hsolid _ front
  | numeral longest unreadable =>
    obtain ⟨more, rfl⟩ := longest.head
    have hmatched := unreadable.matched
    refine ⟨hmatched.length_pos, fun front => ?_⟩
    rw [Text.takeWhile_inLine (hmatched.lineFeed (by decide))]
    exact Text.stretch_solid (List.length_pos_iff.1 hmatched.length_pos) hmatched.solid _ front
  | @text inner rest verbatim ended =>
    have hinLine : '\n' ∉ '"' :: inner := by
      simpa using fun hmem : '\n' ∈ inner => (verbatim _ hmem).2 rfl
    have hend : rest.takeWhile (· != '\n') = [] := by
      rcases ended with rfl | ⟨more, rfl⟩ <;> rfl
    refine ⟨Nat.succ_pos _, fun front => ?_⟩
    rw [Text.takeWhile_inLine hinLine, hend, List.append_nil]
    refine Text.stretch_end (fun hnil => ?_) front
    simpa using List.rdropWhile_eq_nil_iff.1 hnil '"' List.mem_cons_self

end BasicToC
