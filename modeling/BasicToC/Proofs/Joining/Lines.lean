import BasicToC.Proofs.Joining.Tokens

/-!
# Texts line by line

No token, comment or fault reaches beyond its line. So a text with a line feed in it is read as what
stands in front of the line feed and what stands behind it, which only lies some lines further down.

* `lineCount`, `Token.lineFeed`: the lines of a text, and the line end behind it.
* `Token.lower`, `Rejection.lower`, `Scan.lower`: what has been read, some lines further down.
* `scanFrom_lower`: a text that stands further down is read as such.
* `scanFrom_fault_joined`: a fault is found whatever lines follow.
* `scanFrom_stop`: where reading ends, and the mark that is set there.
* `scan_behind`, `scan_refused_before`, `scan_refused_behind`: what becomes of two texts.
* `scan_line_by_line`: two texts with a line feed between them.
-/

set_option autoImplicit false

namespace BasicToC

/-- How many lines a text has: one more than it has line feeds. -/
def lineCount (text : String) : Nat := 1 + text.toList.count '\n'

/-- The line end that stands behind a text. -/
def Token.lineFeed (text : String) : Token :=
  ⟨.newline, .absent, lineCount text, 1 + behindLineFeed text.toList, "\n"⟩

/-! ## Further down -/

/-- The same token, some lines further down. -/
def Token.lower (lines : Nat) (token : Token) : Token := { token with line := token.line + lines }

/-- The same complaint about the same stretch of a line, some lines further down. -/
def Rejection.lower (lines : Nat) (rejection : Rejection) : Rejection :=
  { rejection with line := rejection.line.map (· + (lines : Int)) }

/-- A place of a text, in a text in front of which some characters and lines have been put. -/
def Place.lower (characters lines : Nat) (place : Place) : Place :=
  ⟨place.offset + characters, place.line + lines, place.lineStart + characters⟩

/-- What is read of a text, in a text in front of which some characters and lines have been put. -/
def Scan.lower (characters lines : Nat) (scan : Scan) : Scan :=
  ⟨scan.tokens.map (Token.lower lines), scan.stop.lower characters lines,
    scan.fault?.map (Rejection.lower lines)⟩

section Lower

variable {characters lines : Nat} {place : Place}

theorem Place.lower_column : (place.lower characters lines).column = place.column := by
  show place.offset + characters - (place.lineStart + characters) + 1 =
    place.offset - place.lineStart + 1
  omega

theorem Place.lower_right (count : Nat) :
    (place.lower characters lines).right count = (place.right count).lower characters lines := by
  unfold Place.right Place.lower
  simp only [Place.mk.injEq, and_true]
  omega

theorem Place.lower_below :
    (place.lower characters lines).below = place.below.lower characters lines := by
  unfold Place.below Place.lower
  simp only [Place.mk.injEq]
  omega

theorem Place.lower_token (kind : Token.Kind) (value : Value) (lexeme : List Char) :
    (place.lower characters lines).token kind value lexeme =
      (place.token kind value lexeme).lower lines := by
  unfold Place.token Token.lower
  rw [Place.lower_column]
  rfl

theorem Place.lower_reject (complaint : Complaint) (length : Int) :
    (place.lower characters lines).reject complaint length =
      (place.reject complaint length).lower lines := by
  unfold Place.reject Rejection.lower Place.lower
  simp only [Rejection.mk.injEq, true_and, Option.map_some]
  omega

theorem Scan.lower_cons (scan : Scan) (token : Token) :
    (scan.lower characters lines).cons (token.lower lines) =
      (scan.cons token).lower characters lines := rfl

/-- **A text that stands further down is read as the same tokens or the same fault**, further down.
The pieces of a text do not depend on its place; the induction is on them. -/
theorem scanFrom_lower (place : Place) (text : List Char) :
    scanFrom (place.lower characters lines) text =
      (scanFrom place text).lower characters lines := by
  fun_induction scanFrom place text with
  | case1 place =>
    rw [scanFrom, Place.lower_token]
    rfl
  | case2 place c rest h ih =>
    rw [scanFrom, h]
    simp only
    rw [Place.lower_below, Place.lower_token, ih, Scan.lower_cons]
  | case3 place c rest more h ih =>
    rw [scanFrom, h]
    simp only
    rw [Place.lower_right, ih]
  | case4 place c rest kind value more h ih =>
    rw [scanFrom, h]
    simp only
    rw [Place.lower_right, Place.lower_token, ih, Scan.lower_cons]
  | case5 place c rest complaint length h =>
    rw [scanFrom, h]
    simp only
    rw [Place.lower_reject]
    rfl

end Lower

/-! ## In front of a line feed -/

/-- **A fault is found whatever lines follow.** -/
theorem scanFrom_fault_joined {place : Place} {text : List Char} {rejection : Rejection}
    (h : (scanFrom place text).fault? = some rejection) (more : List Char) :
    (scanFrom place (text ++ '\n' :: more)).fault? = some rejection := by
  fun_induction scanFrom place text with
  | case1 => cases h
  | case2 place c rest hpiece ih =>
    rw [List.cons_append, scanFrom, piece_behind_line, hpiece]
    exact ih h
  | case3 place c rest taken hpiece ih =>
    rw [List.cons_append, scanFrom, piece_behind_line, hpiece]
    simp only
    rw [List.drop_append_of_le_length (gap_le hpiece)]
    exact ih h
  | case4 place c rest kind value taken hpiece ih =>
    rw [List.cons_append, scanFrom, piece_behind_line, hpiece]
    simp only
    rw [List.drop_append_of_le_length (token_le hpiece)]
    exact ih h
  | case5 place c rest complaint length hpiece =>
    rw [List.cons_append, scanFrom, piece_behind_line, hpiece]
    exact h

/-- **Reading ends behind the last character**, where the mark for the end is set. The place is the
one behind what has been passed. -/
theorem scanFrom_stop (place : Place) (text : List Char) : ∀ passed : List Char,
    place.Behind passed → (scanFrom place text).fault? = none →
    (scanFrom place text).stop.Behind (passed ++ text) ∧
      ∃ ts, (scanFrom place text).tokens = ts ++ [(scanFrom place text).stop.token .eof .absent []] := by
  induction place, text using scanFrom_induction with
  | stop place hscan =>
    intro passed hplace _
    rw [hscan]
    exact ⟨by rwa [List.append_nil], [], rfl⟩
  | line place rest hscan ih =>
    intro passed hplace hfault
    rw [hscan] at hfault ⊢
    obtain ⟨hstop, ts, htokens⟩ := ih (passed ++ ['\n']) hplace.below hfault
    rw [List.append_assoc] at hstop
    exact ⟨hstop, _ :: ts, congrArg _ htokens⟩
  | gap place gap rest hgap hscan ih =>
    intro passed hplace hfault
    rw [hscan] at hfault ⊢
    rw [← List.append_assoc]
    exact ih (passed ++ gap) (hplace.right hgap.inLine) hfault
  | token place rule kind value lexeme rest _ hdenotes hrule _ hscan ih =>
    intro passed hplace hfault
    rw [hscan] at hfault ⊢
    obtain ⟨hstop, ts, htokens⟩ :=
      ih (passed ++ lexeme) (hplace.right (hdenotes.matched.lineFeed hrule)) hfault
    rw [List.append_assoc] at hstop
    exact ⟨hstop, _ :: ts, congrArg _ htokens⟩
  | fault place c rest complaint length _ hscan =>
    intro passed _ hfault
    rw [hscan] at hfault
    cases hfault

/-! ## Two texts -/

section Joined

variable {source next : String} {ts us : List Token} {rejection : Rejection}

theorem scanText_joined (source next : String) :
    scanText (source ++ "\n" ++ next) = scanFrom {} (source.toList ++ '\n' :: next.toList) := by
  unfold scanText
  simp

/-- What is read behind a text and a line feed is what is read of it alone, as many lines further
down as the text has. -/
theorem scanText_behind (h : Token.scan source = .ok ts) (next : String) :
    ∃ front stop, ts = front ++ [stop] ∧ stop.kind = .eof ∧ scanText (source ++ "\n" ++ next) =
      ((scanText next).lower (source.toList.length + 1) (lineCount source)).behind
        (front ++ [Token.lineFeed source]) := by
  have hfault := Token.scan_fault h
  obtain ⟨hstop, front, htokens⟩ := scanFrom_stop {} source.toList [] .start hfault
  rw [List.nil_append] at hstop
  generalize hplace : (scanFrom {} source.toList).stop = place at hstop htokens
  have hfeed : place.token .newline .absent ['\n'] = Token.lineFeed source := by
    unfold Place.token Token.lineFeed lineCount
    rw [hstop.line, hstop.column]
    push_cast
    rfl
  have hbelow : place.below = Place.lower (source.toList.length + 1) (lineCount source) {} := by
    have hoffset := hstop.offset
    have hline := hstop.line
    unfold Place.below Place.lower lineCount
    simp only [Place.mk.injEq]
    omega
  refine ⟨front, _, (Token.scan_tokens h).symm.trans htokens, rfl, ?_⟩
  rw [scanText_joined, scanFrom_joined hfault, htokens, hplace, hfeed, hbelow, scanFrom_lower,
    List.dropLast_concat]
  rfl

/-- Two texts that are read are read together. -/
theorem scan_behind (h : Token.scan source = .ok ts) (h' : Token.scan next = .ok us) :
    ∃ front stop, ts = front ++ [stop] ∧ stop.kind = .eof ∧
      Token.scan (source ++ "\n" ++ next) =
        .ok (front ++ Token.lineFeed source :: us.map (Token.lower (lineCount source))) := by
  obtain ⟨front, stop, hts, hstop, hjoined⟩ := scanText_behind h next
  refine ⟨front, stop, hts, hstop, ?_⟩
  unfold Token.scan
  rw [hjoined]
  simp [Scan.behind, Scan.lower, Token.scan_fault h', Token.scan_tokens h']

/-- Where the first text is refused both are. -/
theorem scan_refused_before (h : Token.scan source = .error rejection) (next : String) :
    Token.scan (source ++ "\n" ++ next) = .error rejection := by
  have hfault := scanFrom_fault_joined (Token.scan_rejection h) next.toList
  rw [← scanText_joined] at hfault
  unfold Token.scan
  simp only [hfault]

/-- Where only the second text is refused both are, further down. -/
theorem scan_refused_behind (h : Token.scan source = .ok ts)
    (h' : Token.scan next = .error rejection) :
    Token.scan (source ++ "\n" ++ next) = .error (rejection.lower (lineCount source)) := by
  obtain ⟨front, stop, -, -, hjoined⟩ := scanText_behind h next
  unfold Token.scan
  rw [hjoined]
  simp [Scan.behind, Scan.lower, Token.scan_rejection h']

/-- **A text is read line by line.** Two texts with a line feed between them are read when both are.
Their tokens are those of the first text without the mark for its end, the line end, and those of
the second text, as many lines further down as the first text has. If the first text is refused,
both are, with the same complaint; if only the second one is, both are with its complaint, as many
lines further down. -/
theorem scan_line_by_line (source next : String) :
    ((∃ tokens, Token.scan (source ++ "\n" ++ next) = .ok tokens) ↔
      (∃ ts, Token.scan source = .ok ts) ∧ ∃ us, Token.scan next = .ok us) ∧
    (∀ ts us, Token.scan source = .ok ts → Token.scan next = .ok us →
      ∃ front stop, ts = front ++ [stop] ∧ stop.kind = .eof ∧
        Token.scan (source ++ "\n" ++ next) =
          .ok (front ++ Token.lineFeed source :: us.map (Token.lower (lineCount source)))) ∧
    (∀ rejection, Token.scan source = .error rejection →
      Token.scan (source ++ "\n" ++ next) = .error rejection) ∧
    ∀ ts rejection, Token.scan source = .ok ts → Token.scan next = .error rejection →
      Token.scan (source ++ "\n" ++ next) = .error (rejection.lower (lineCount source)) := by
  refine ⟨⟨?_, ?_⟩, fun _ _ => scan_behind, fun _ h => scan_refused_before h next,
    fun _ _ => scan_refused_behind⟩
  · rintro ⟨tokens, hjoined⟩
    cases hscan : Token.scan source with
    | error rejection =>
      rw [scan_refused_before hscan] at hjoined
      cases hjoined
    | ok ts =>
      cases hscan' : Token.scan next with
      | error rejection =>
        rw [scan_refused_behind hscan hscan'] at hjoined
        cases hjoined
      | ok us => exact ⟨⟨ts, rfl⟩, us, rfl⟩
  · rintro ⟨⟨ts, hscan⟩, us, hscan'⟩
    obtain ⟨front, stop, -, -, hjoined⟩ := scan_behind hscan hscan'
    exact ⟨_, hjoined⟩

end Joined

end BasicToC
