import BasicToC.Proofs.Scanning.Pieces
import BasicToC.Token.Cursor

/-!
# Cursors in a text

A cursor can be set anywhere and asked for a token of any sort. Asked for the sort that the character
at it calls for, it takes the piece that stands there, and round after round it reads the whole text.

* `Cursor.Between`: a cursor somewhere in its text, with what lies in front of it and behind.
* `Cursor.meets`: what a cursor makes of a piece.
* `skipComment_eq`, `string_closed`, `number_read`, `word_eq`, `operator_read`: each way of reading.
* `Cursor.round`, `round_meets`: a round takes the piece at the cursor.
* `Cursor.rounds`, `scan_rounds`: scanning is one round after another.
-/

set_option autoImplicit false

namespace BasicToC.Cursor

variable {cursor : Cursor} {passed inner rest : List Char} {c : Char}

/-- A cursor somewhere in its text: `passed` lies in front of it, and `rest` behind. -/
structure Between (cursor : Cursor) (passed rest : List Char) : Prop where
  text : cursor.text = passed ++ rest
  offset : cursor.place.offset = passed.length

/-! ## Looking ahead -/

/-- A distance from the start is a position of its own. -/
theorem fromStart_natCast (n k : Nat) : Text.fromStart n k = k := if_neg (by omega)

theorem Between.advance (h : cursor.Between passed (inner ++ rest)) :
    (cursor.advance inner.length).Between (passed ++ inner) rest where
  text := by rw [List.append_assoc]; exact h.text
  offset := by simp [Cursor.advance, Place.right, h.offset]

theorem Between.upTo (h : cursor.Between passed rest) (count : Nat) :
    cursor.upTo (cursor.place.offset + count) = rest.take count := by
  rw [Cursor.upTo, Text.slice, h.offset, ← Int.natCast_add, fromStart_natCast, fromStart_natCast,
    Int.toNat_natCast, Int.toNat_natCast, h.text, List.take_length_add_append, List.drop_left]

theorem Between.upcoming (h : cursor.Between passed rest) :
    Text.upcoming? cursor.text cursor.place.offset = some rest := by
  simp [Text.upcoming?, h.offset, h.text]

theorem Between.charAt (h : cursor.Between passed (c :: rest)) : cursor.charAt 0 = .ok (some c) := by
  have hinside : ¬ (cursor.text.length : Int) ≤ passed.length := by
    rw [h.text, List.length_append, List.length_cons]
    omega
  have hat : Text.at? cursor.text passed.length = some c := by
    rw [Text.at?, fromStart_natCast]
    simp [h.text]
  simp only [Cursor.charAt, h.offset, Int.add_zero, if_neg hinside, hat]

theorem Between.find (h : cursor.Between passed rest) (x : Char) :
    Text.find? cursor.text x cursor.place.offset =
      (rest.findIdx? (· == x)).map (· + passed.length) := by
  rw [Text.find?, h.offset, fromStart_natCast]
  simp [h.text]

/-- What is looked for behind the cursor is found past the characters that are none of it. -/
theorem Between.find_past {tail : List Char} (h : cursor.Between passed (c :: (inner ++ tail)))
    {x : Char} (hinner : ∀ d ∈ inner, d ≠ x) :
    Text.find? cursor.text x (cursor.place.offset + 1) =
      (tail.findIdx? (· == x)).map (· + (passed.length + (inner.length + 1))) := by
  have hnext : (cursor.advance [c].length).Between (passed ++ [c]) (inner ++ tail) :=
    Between.advance h
  have hnone : inner.findIdx? (· == x) = none := by simpa [List.findIdx?_eq_none_iff] using hinner
  have hfind := hnext.find x
  rw [List.findIdx?_append, hnone, Option.none_or, Option.map_map] at hfind
  refine hfind.trans (congrArg (Option.map · _) (funext fun k => ?_))
  simp only [Function.comp_apply, List.length_append, List.length_singleton]
  omega

theorem findIdx_takeWhile (x : Char) (text : List Char) :
    (text.findIdx? (· == x)).getD text.length = (text.takeWhile (· != x)).length := by
  induction text with
  | nil => rfl
  | cons c text ih =>
    by_cases hc : c = x
    · simp [List.findIdx?_cons, hc]
    · simp [List.findIdx?_cons, hc, ← ih]

/-! ## Each way of reading -/

/-- What a cursor makes of a piece that heads `c :: rest`: a token, or nothing behind a gap. -/
def meets (cursor : Cursor) (c : Char) (rest : List Char) : Piece → Outcome (Option Token)
  | .lineEnd =>
    (.ok (some (cursor.place.token .newline .absent [c])),
      { cursor with place := cursor.place.below })
  | .gap more => (.ok none, cursor.advance (more + 1))
  | .token kind value more =>
    (.ok (some (cursor.place.token kind value (c :: rest.take more))), cursor.advance (more + 1))
  | .fault complaint length => cursor.refuse complaint length

/-- A token that is read, among what may be met. -/
def found (outcome : Outcome Token) : Outcome (Option Token) := (outcome.1.map some, outcome.2)

theorem meets_token {kind : Token.Kind} {value : Value} {lexeme tail : List Char}
    (htext : c :: rest = lexeme ++ tail) (hsome : 0 < lexeme.length) :
    cursor.meets c rest (.token kind value (lexeme.length - 1)) =
      (.ok (some (cursor.place.token kind value lexeme)), cursor.advance lexeme.length) := by
  have hlength : lexeme.length = lexeme.length - 1 + 1 := by omega
  simp only [meets, (split_at_length htext hlength).1, ← hlength]

/-- A comment is passed up to the end of its line. -/
theorem skipComment_eq (h : cursor.Between passed ('#' :: rest)) :
    cursor.skipComment = (.ok (), cursor.advance ((rest.takeWhile (· != '\n')).length + 1)) := by
  have hstop : (Text.find? cursor.text '\n' cursor.place.offset).getD cursor.text.length =
      passed.length + ((rest.takeWhile (· != '\n')).length + 1) := by
    have htake := findIdx_takeWhile '\n' ('#' :: rest)
    rw [List.takeWhile_cons_of_pos (by decide)] at htake
    rw [h.find, h.text, List.length_append, ← List.length_cons, ← htake]
    cases ('#' :: rest).findIdx? (· == '\n') <;> simp [Nat.add_comm]
  rw [Cursor.skipComment, hstop, Cursor.advance, Place.right, h.offset, Int.natCast_add]

/-- A text in quotes ends at the next quote. -/
theorem string_closed {more : List Char} (h : cursor.Between passed ('"' :: (inner ++ '"' :: more)))
    (hverbatim : ∀ c ∈ inner, c ≠ '"' ∧ c ≠ '\n') :
    cursor.string = (.ok (cursor.place.token .string (.text (String.ofList inner))
      ('"' :: inner ++ ['"'])), cursor.advance (inner.length + 2)) := by
  have hquote := h.find_past fun d hd => (hverbatim d hd).1
  have hline := h.find_past fun d hd => (hverbatim d hd).2
  have hfirst : ('"' :: more).findIdx? (· == '"') = some 0 := by simp [List.findIdx?_cons]
  have hlater : ('"' :: more).findIdx? (· == '\n') = (more.findIdx? (· == '\n')).map (· + 1) := by
    simp [List.findIdx?_cons]
  rw [hfirst] at hquote
  rw [hlater] at hline
  have hclosed : string.closed cursor (0 + (passed.length + (inner.length + 1))) =
      (.ok (cursor.place.token .string (.text (String.ofList inner)) ('"' :: inner ++ ['"'])),
        cursor.advance (inner.length + 2)) := by
    have hstop : ((0 + (passed.length + (inner.length + 1)) : Nat) : Int) + 1 =
        cursor.place.offset + (inner.length + 2 : Nat) := by rw [h.offset]; omega
    have htake : ('"' :: (inner ++ '"' :: more)).take (inner.length + 2) = '"' :: inner ++ ['"'] := by
      simp [List.take_length_add_append]
    have hinner : Text.slice ('"' :: inner ++ ['"']) 1 (-1) = inner := by
      simp [Text.slice, Text.fromStart]
    rw [string.closed, hstop, h.upTo, htake, hinner]
    rfl
  simp only [Cursor.string, hquote, hline, Option.map_some]
  cases more.findIdx? (· == '\n') with
  | none => exact hclosed
  | some newline =>
    simp only [Option.map_some]
    rw [if_neg (by omega)]
    exact hclosed

/-- A text whose line is over before the next quote is refused up to there. -/
theorem string_unclosed {tail : List Char} (h : cursor.Between passed ('"' :: (inner ++ tail)))
    (hverbatim : ∀ c ∈ inner, c ≠ '"' ∧ c ≠ '\n') (hover : LineOver tail) :
    cursor.string =
      cursor.refuse (.unclosedText (String.ofList ('"' :: inner))) (inner.length + 1 : Nat) := by
  have hquote := h.find_past fun d hd => (hverbatim d hd).1
  have hline := h.find_past fun d hd => (hverbatim d hd).2
  have hrefuse {stop : Nat} (hstop : stop = passed.length + (inner.length + 1)) :
      cursor.refuse (.unclosedText (String.ofList (cursor.upTo stop))) (stop - cursor.place.offset) =
        (cursor.refuse (.unclosedText (String.ofList ('"' :: inner))) (inner.length + 1 : Nat) :
          Outcome Token) := by
    have hoffset : (stop : Int) = cursor.place.offset + (inner.length + 1 : Nat) := by
      rw [hstop, h.offset, Int.natCast_add]
    have htake : ('"' :: (inner ++ tail)).take (inner.length + 1) = '"' :: inner := by simp
    rw [hoffset, h.upTo, htake, add_sub_cancel_left]
  rcases hover with rfl | ⟨more, rfl⟩
  · simp only [Cursor.string, hquote, hline, List.findIdx?_nil, Option.map_none]
    refine hrefuse ?_
    simp [h.text]
  · have hfirst : ('\n' :: more).findIdx? (· == '\n') = some 0 := by simp [List.findIdx?_cons]
    have hlater : ('\n' :: more).findIdx? (· == '"') = (more.findIdx? (· == '"')).map (· + 1) := by
      simp [List.findIdx?_cons]
    rw [hfirst] at hline
    rw [hlater] at hquote
    simp only [Cursor.string, hquote, hline, Option.map_some]
    cases more.findIdx? (· == '"') with
    | none => exact hrefuse (Nat.zero_add _)
    | some close =>
      simp only [Option.map_some]
      rw [if_pos (by omega)]
      exact hrefuse (Nat.zero_add _)

section Numbers

variable {lexeme : List Char}

/-- As much is read as belongs to a numeral, and it is the number that this stands for. -/
theorem number_read {kind : Token.Kind} {value : Value} (h : cursor.Between passed rest)
    (hlexeme : rest.take (Lexeme.numeralLength false rest) = lexeme)
    (hread : Lexeme.numeral (lexeme.contains '.') lexeme = .ok (kind, value)) :
    cursor.number = (.ok (cursor.place.token kind value lexeme), cursor.advance lexeme.length) := by
  simp only [Cursor.number, h.upcoming, h.upTo, hlexeme, hread]

theorem number_refused {complaint : Complaint} (h : cursor.Between passed rest)
    (hlexeme : rest.take (Lexeme.numeralLength false rest) = lexeme)
    (hread : Lexeme.numeral (lexeme.contains '.') lexeme = .error complaint) :
    cursor.number = cursor.refuse complaint lexeme.length := by
  simp only [Cursor.number, h.upcoming, h.upTo, hlexeme, hread]

end Numbers

/-- As much is read as belongs to a word. -/
theorem word_eq {lexeme : List Char} (h : cursor.Between passed rest)
    (hlexeme : rest.take (Lexeme.wordLength rest) = lexeme) :
    cursor.word =
      (.ok (cursor.place.token (Lexeme.wordKind lexeme).1 (Lexeme.wordKind lexeme).2 lexeme),
        cursor.advance lexeme.length) := by
  simp only [Cursor.word, h.upcoming, h.upTo, hlexeme]

section Operators

theorem Between.one (h : cursor.Between passed (c :: rest)) :
    cursor.upTo (cursor.place.offset + 1) = [c] := h.upTo 1

theorem Between.two (h : cursor.Between passed (c :: rest)) :
    cursor.upTo (cursor.place.offset + 2) = c :: rest.take 1 := h.upTo 2

/-- The longer operator at a cursor is read. -/
theorem operator_read {kind : Token.Kind} {spelling : List Char}
    (h : cursor.Between passed (c :: rest))
    (hpick : Lexeme.pickOperator (c :: rest.take 1) [c] = some (kind, spelling)) :
    cursor.operator =
      (.ok (cursor.place.token kind .absent spelling), cursor.advance spelling.length) := by
  simp only [Cursor.operator, h.one, h.two, hpick]

theorem operator_refused (h : cursor.Between passed (c :: rest))
    (hpick : Lexeme.pickOperator (c :: rest.take 1) [c] = none) :
    cursor.operator = cursor.refuse (.unknownCharacter (Lexeme.characterName (some c))) 1 := by
  simp only [Cursor.operator, h.one, h.two, hpick, h.charAt]

end Operators

/-! ## Rounds -/

/-- Reads what stands at the cursor, as the character there calls for: a token, or a stretch that
stands for nothing. -/
def round (cursor : Cursor) (c : Char) : Outcome (Option Token) :=
  if c == '\n' then
    (.ok (some (cursor.place.token .newline .absent [c])),
      { cursor with place := cursor.place.below })
  else if Lexeme.isBlank c then (.ok none, cursor.advance 1)
  else if c == '#' then (.ok none, cursor.skipComment.2)
  else if c == '"' then found cursor.string
  else if c.isDigit then found cursor.number
  else if c.isAlpha then found cursor.word
  else found cursor.operator

/-- **Every round takes the piece at the cursor**, whatever stands there and wherever that is. -/
theorem round_meets (h : cursor.Between passed (c :: rest)) :
    cursor.round c = cursor.meets c rest (piece c rest) := by
  unfold round piece
  split
  · rfl
  split
  · rfl
  split
  · rename_i hhash
    obtain rfl := beq_iff_eq.1 hhash
    rw [skipComment_eq h]
    rfl
  split
  · rename_i hquote
    obtain rfl := beq_iff_eq.1 hquote
    obtain ⟨inner, tail, rfl, hverbatim, ⟨more, rfl, hpiece⟩ | ⟨hover, hpiece⟩⟩ :=
      quotedPiece_cases rest
    · have htext : '"' :: (inner ++ '"' :: more) = ('"' :: inner ++ ['"']) ++ more := by simp
      have hlength : ('"' :: inner ++ ['"']).length = inner.length + 2 := by simp
      have hmore : inner.length + 1 = ('"' :: inner ++ ['"']).length - 1 := by rw [hlength]; rfl
      rw [hpiece, string_closed h hverbatim, hmore, meets_token htext (by simp), hlength]
      rfl
    · rw [hpiece, string_unclosed h hverbatim hover]
      rfl
  split
  · rename_i hdigit
    obtain ⟨lexeme, tail, htext, htake, -, hmatches⟩ := numberPiece_fits hdigit rest
    cases hread : Lexeme.numeral (lexeme.contains '.') lexeme with
    | error complaint =>
      simp only [htake, hread]
      rw [number_refused h htake hread]
      rfl
    | ok read =>
      simp only [htake, hread]
      rw [number_read h htake hread]
      exact (meets_token htext hmatches.length_pos).symm
  split
  · rename_i halpha
    obtain ⟨lexeme, tail, htext, htake, -, hmatches⟩ := wordPiece_fits halpha rest
    rw [word_eq h htake, htake]
    exact (meets_token htext hmatches.length_pos).symm
  · rcases pickOperator_fits c rest with ⟨kind, hmem, ⟨tail, htext⟩, -, hpick⟩ | ⟨hpick, -⟩
    · rw [operator_read h hpick]
      simp only [hpick]
      exact (meets_token htext.symm (Rule.Matches.operator hmem).length_pos).symm
    · rw [operator_refused h hpick]
      simp only [hpick]
      rfl

/-- Reads round after round up to the end of the text. Every round takes a character, so a text is
enough to count its rounds by. -/
def rounds (cursor : Cursor) : (count : List Char) → Outcome (List Token)
  | [] => (.ok [cursor.place.token .eof .absent []], cursor)
  | _ :: count =>
    match (cursor.peek 0).1 with
    | .error fault => (.error fault, cursor)
    | .ok none => (.ok [cursor.place.token .eof .absent []], cursor)
    | .ok (some c) =>
      match cursor.round c with
      | (.error fault, next) => (.error fault, next)
      | (.ok token?, next) =>
        ((next.rounds count).1.map (token?.toList ++ ·), (next.rounds count).2)

theorem Between.peek (h : cursor.Between passed (c :: rest)) :
    cursor.peek 0 = (.ok (some c), cursor) := by rw [Cursor.peek, h.charAt]

theorem Between.peek_end (h : cursor.Between passed []) : cursor.peek 0 = (.ok none, cursor) := by
  simp [Cursor.peek, Cursor.charAt, h.offset, h.text]

theorem Between.below (h : cursor.Between passed (c :: rest)) :
    Between { cursor with place := cursor.place.below } (passed ++ [c]) rest where
  text := by rw [List.append_assoc]; exact h.text
  offset := by simp [Place.below, h.offset]

theorem Between.behind (h : cursor.Between passed (c :: rest)) {more : Nat}
    (hmore : more ≤ rest.length) :
    (cursor.advance (more + 1)).Between (passed ++ c :: rest.take more) (rest.drop more) := by
  have hsplit : c :: rest = (c :: rest.take more) ++ rest.drop more := by simp
  have hlength : (c :: rest.take more).length = more + 1 := by simp [hmore]
  rw [hsplit] at h
  exact hlength ▸ h.advance

theorem report_cons (cursor : Cursor) (scan : Scan) (token : Token) :
    cursor.report (scan.cons token) =
      ((cursor.report scan).1.map ([token] ++ ·), (cursor.report scan).2) := by
  unfold report Scan.cons
  dsimp only
  cases scan.fault? <;> rfl

theorem map_nil (outcome : Outcome (List Token)) :
    (outcome.1.map (([] : List Token) ++ ·), outcome.2) = outcome := by
  obtain ⟨_ | _, _⟩ := outcome <;> rfl

/-- What is read round by round from some place on is what is scanned there. -/
theorem rounds_report (h : cursor.Between passed rest) {count : List Char}
    (hcount : rest.length ≤ count.length) :
    cursor.rounds count = cursor.report (scanFrom cursor.place rest) := by
  induction count generalizing cursor passed rest with
  | nil =>
    obtain rfl := List.eq_nil_of_length_eq_zero (Nat.le_zero.1 hcount)
    rw [rounds, scanFrom]
    rfl
  | cons _ count ih =>
    cases rest with
    | nil =>
      rw [rounds, h.peek_end, scanFrom]
      rfl
    | cons c rest =>
      have hshort : rest.length ≤ count.length := Nat.le_of_succ_le_succ hcount
      have hdrop (more : Nat) : (rest.drop more).length ≤ count.length := by
        rw [List.length_drop]
        omega
      have hfits := piece_fits c rest
      rw [rounds, h.peek, scanFrom]
      simp only [round_meets h]
      cases hpiece : piece c rest with
      | lineEnd =>
        simp only [meets]
        rw [ih h.below hshort, report_cons]
        rfl
      | gap more =>
        rw [hpiece] at hfits
        obtain ⟨gap, tail, htext, hlength, -⟩ := hfits
        simp only [meets]
        rw [ih (h.behind (length_at_head htext hlength)) (hdrop more)]
        exact map_nil _
      | token kind value more =>
        rw [hpiece] at hfits
        obtain ⟨rule, lexeme, tail, htext, hlength, -⟩ := hfits
        simp only [meets]
        rw [ih (h.behind (length_at_head htext hlength)) (hdrop more), report_cons]
        rfl
      | fault complaint length => rfl

/-- **Scanning is reading round by round** from the start of the text: the first round that is refused
ends it, and the cursor stays there. -/
theorem scan_rounds (cursor : Cursor) :
    cursor.scan = rounds { cursor with place := {} } cursor.text := by
  have hstart : Between { cursor with place := {} } [] cursor.text := ⟨rfl, rfl⟩
  exact (rounds_report hstart (Nat.le_refl _)).symm

end BasicToC.Cursor
