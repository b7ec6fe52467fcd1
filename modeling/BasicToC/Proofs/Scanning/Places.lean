import BasicToC.Proofs.Scanning.Pieces

/-!
# The places of tokens

* `behindLineFeed`, `Place.Behind`: lines and columns, counted from the text that has been passed.
* `Token.StandsAt`: a token is written where it says it is.
* `StandsAt.start_unique`: no two places of a text have the same line and column.
* `Skips`, `Separated`: between tokens only gaps are skipped.
* `scanFrom_tiles`, `scan_tiles_source`: the tokens of a text tile it.
* `scan_placed`, `scan_place_unique`: a line and a column say which token is meant.
-/

set_option autoImplicit false

namespace BasicToC

/-- How many characters stand behind the last line feed of a text. -/
def behindLineFeed (passed : List Char) : Nat := (passed.reverse.takeWhile (· != '\n')).length

theorem behindLineFeed_append {passed more : List Char} (h : '\n' ∉ more) :
    behindLineFeed (passed ++ more) = behindLineFeed passed + more.length := by
  have hall : ∀ c ∈ more.reverse, (c != '\n') = true := by
    intro c hc
    simpa using fun heq : c = '\n' => h (heq ▸ List.mem_reverse.1 hc)
  unfold behindLineFeed
  rw [List.reverse_append, List.takeWhile_append_of_pos hall, List.length_append,
    List.length_reverse]
  omega

theorem behindLineFeed_newline (passed : List Char) : behindLineFeed (passed ++ ['\n']) = 0 := by
  simp [behindLineFeed]

/-- A place is the one behind a text that has been passed. -/
structure Place.Behind (place : Place) (passed : List Char) : Prop where
  offset : place.offset = passed.length
  line : place.line = 1 + passed.count '\n'
  column : place.column = 1 + behindLineFeed passed

/-- A token is written in a text from `start` on, and its line and column are those of that
place. -/
structure Token.StandsAt (source : List Char) (token : Token) (start : Nat) : Prop where
  inside : start + token.lexeme.toList.length ≤ source.length
  written : (source.drop start).take token.lexeme.toList.length = token.lexeme.toList
  line : token.line = 1 + (source.take start).count '\n'
  column : token.column = 1 + behindLineFeed (source.take start)

namespace Place.Behind

variable {place : Place} {passed : List Char}

theorem start : Place.Behind {} [] := ⟨rfl, rfl, rfl⟩

theorem right (h : place.Behind passed) {more : List Char} (inLine : '\n' ∉ more) :
    (place.right more.length).Behind (passed ++ more) where
  offset := by
    show place.offset + more.length = (passed ++ more).length
    rw [h.offset, List.length_append]
    omega
  line := by
    show place.line = 1 + ((passed ++ more).count '\n' : Nat)
    rw [h.line, List.count_append, List.count_eq_zero_of_not_mem inLine, Nat.add_zero]
  column := by
    have hcolumn := h.column
    rw [behindLineFeed_append inLine]
    unfold Place.column at hcolumn ⊢
    show place.offset + more.length - place.lineStart + 1 = _
    omega

theorem below (h : place.Behind passed) : place.below.Behind (passed ++ ['\n']) where
  offset := by
    show place.offset + 1 = (passed ++ ['\n']).length
    rw [h.offset, List.length_append]
    rfl
  line := by
    show place.line + 1 = 1 + ((passed ++ ['\n']).count '\n' : Nat)
    rw [h.line, List.count_append]
    simp
    omega
  column := by
    rw [behindLineFeed_newline]
    show place.offset + 1 - (place.offset + 1) + 1 = 1 + ((0 : Nat) : Int)
    omega

/-- A token made at a place stands there. -/
theorem stands (h : place.Behind passed) (kind : Token.Kind) (value : Value)
    (lexeme rest : List Char) :
    (place.token kind value lexeme).StandsAt (passed ++ (lexeme ++ rest)) passed.length := by
  have hlexeme : (place.token kind value lexeme).lexeme.toList = lexeme :=
    String.toList_ofList
  refine ⟨?_, ?_, ?_, ?_⟩
  · rw [hlexeme]
    simp only [List.length_append]
    omega
  · rw [hlexeme, List.drop_left, List.take_left]
  · rw [List.take_left]
    exact h.line
  · rw [List.take_left]
    exact h.column

end Place.Behind

/-- **No two places of a text have the same line and column.** -/
theorem Token.StandsAt.start_unique {source : List Char} {a b : Token} {p q : Nat}
    (ha : a.StandsAt source p) (hb : b.StandsAt source q) (hline : a.line = b.line)
    (hcolumn : a.column = b.column) : p = q := by
  wlog hle : p ≤ q generalizing a b p q with hsym
  · exact (hsym hb ha hline.symm hcolumn.symm (by omega)).symm
  obtain ⟨between, hsplit⟩ : ∃ between, source.take q = source.take p ++ between :=
    (List.take_prefix_take_left hle).imp fun _ h => h.symm
  have hcount : (source.take q).count '\n' = (source.take p).count '\n' := by
    have := ha.line.symm.trans (hline.trans hb.line)
    omega
  have hbehind : behindLineFeed (source.take q) = behindLineFeed (source.take p) := by
    have := ha.column.symm.trans (hcolumn.trans hb.column)
    omega
  have hinLine : '\n' ∉ between := by
    rw [hsplit, List.count_append] at hcount
    exact List.count_eq_zero.1 (by omega)
  have hempty : between.length = 0 := by
    rw [hsplit, behindLineFeed_append hinLine] at hbehind
    omega
  have hlength := congrArg List.length hsplit
  have hp := ha.inside
  have hq := hb.inside
  rw [List.length_append, List.length_take, List.length_take, hempty] at hlength
  omega

/-! ## The tokens of a text -/

/-- What is skipped in front of a text: gaps. -/
inductive Skips : List Char → List Char → Prop
  | none (rest : List Char) : Skips [] rest
  | gap {gap skipped rest : List Char} (first : Gap gap (skipped ++ rest))
      (more : Skips skipped rest) : Skips (gap ++ skipped) rest

/-- From `start` on, only gaps stand in front of each token and behind the last one; no token starts
before the one in front of it ends. -/
def Separated (source : List Char) : Nat → List (Token × Nat) → Prop
  | start, [] => Skips (source.drop start) []
  | start, (token, place) :: more =>
    start ≤ place ∧ Skips ((source.take place).drop start) (source.drop place) ∧
      Separated source (place + token.lexeme.toList.length) more

/-- What is skipped in front of separated tokens may be more. -/
theorem Separated.skip {passed gap rest : List Char} {placed : List (Token × Nat)}
    (hgap : Gap gap rest)
    (h : Separated (passed ++ (gap ++ rest)) (passed.length + gap.length) placed) :
    Separated (passed ++ (gap ++ rest)) passed.length placed := by
  have hpassed : (passed ++ (gap ++ rest)).drop passed.length = gap ++ rest := List.drop_left
  have hrest : (passed ++ (gap ++ rest)).drop (passed.length + gap.length) = rest := by
    rw [← List.drop_drop, hpassed, List.drop_left]
  cases placed with
  | nil =>
    unfold Separated at h ⊢
    rw [hrest] at h
    rw [hpassed]
    exact .gap (by rwa [List.append_nil]) h
  | cons first more =>
    obtain ⟨token, place⟩ := first
    obtain ⟨hle, hskips, hmore⟩ := h
    refine ⟨by omega, ?_, hmore⟩
    obtain ⟨k, rfl⟩ : ∃ k, place = passed.length + gap.length + k :=
      ⟨_, (Nat.add_sub_of_le hle).symm⟩
    have htake : (passed ++ (gap ++ rest)).take (passed.length + gap.length + k) =
        passed ++ (gap ++ rest.take k) := by
      rw [Nat.add_assoc, List.take_length_add_append, List.take_length_add_append]
    have hdrop : (passed ++ (gap ++ rest)).drop (passed.length + gap.length + k) = rest.drop k := by
      rw [← List.drop_drop, hrest]
    rw [htake, hdrop, ← List.drop_drop, List.drop_left, List.drop_left] at hskips
    rw [htake, hdrop, List.drop_left]
    exact .gap (by rwa [List.take_append_drop]) hskips

/-- A token at the place that has been reached is separated from those behind it. -/
theorem Separated.token {source passed : List Char} {placed : List (Token × Nat)} {token : Token}
    (h : Separated source (passed.length + token.lexeme.toList.length) placed) :
    Separated source passed.length ((token, passed.length) :: placed) := by
  refine ⟨le_rfl, ?_, h⟩
  rw [List.drop_of_length_le (by simp)]
  exact .none _

/-- Separated tokens that are written with at least one character start one behind the other. -/
theorem Separated.increasing {source : List Char} {start : Nat} {placed : List (Token × Nat)}
    (h : Separated source start placed) (hsome : ∀ t ∈ placed, 0 < t.1.lexeme.toList.length) :
    (∀ t ∈ placed, start ≤ t.2) ∧ (placed.map Prod.snd).Pairwise (· < ·) := by
  induction placed generalizing start with
  | nil => exact ⟨by simp, List.Pairwise.nil⟩
  | cons first more ih =>
    obtain ⟨token, place⟩ := first
    obtain ⟨hle, -, hmore⟩ := h
    obtain ⟨hbehind, hincreasing⟩ := ih hmore fun t ht => hsome t (List.mem_cons_of_mem _ ht)
    have hpos : 0 < token.lexeme.toList.length := hsome _ List.mem_cons_self
    refine ⟨?_, ?_⟩
    · intro t ht
      rcases List.mem_cons.1 ht with rfl | ht
      · exact hle
      · have := hbehind t ht
        omega
    · refine List.pairwise_cons.2 ⟨?_, hincreasing⟩
      intro place' hplace'
      obtain ⟨t, ht, rfl⟩ := List.mem_map.1 hplace'
      have := hbehind t ht
      show place < t.2
      omega

/-- How the tokens of a text lie in it from `start` on: each is written where it stands, in front of
each and behind the last one only gaps are skipped, and the mark for the end stands at the end. -/
structure Tiles (source : List Char) (start : Nat) (placed : List (Token × Nat)) (stop : Token) :
    Prop where
  proper : ∀ t ∈ placed, t.1.kind ≠ .eof ∧ 0 < t.1.lexeme.toList.length
  stands : ∀ t ∈ placed, t.1.StandsAt source t.2
  separated : Separated source start placed
  stop : stop.kind = .eof ∧ stop.StandsAt source source.length

/-- One more token in front. -/
theorem Tiles.token {passed lexeme rest : List Char} {placed : List (Token × Nat)} {stop : Token}
    {place : Place} {kind : Token.Kind} {value : Value}
    (h : Tiles (passed ++ lexeme ++ rest) (passed ++ lexeme).length placed stop)
    (hplace : place.Behind passed) (hkind : kind ≠ .eof) (hsome : 0 < lexeme.length) :
    Tiles (passed ++ (lexeme ++ rest)) passed.length
      ((place.token kind value lexeme, passed.length) :: placed) stop := by
  have hlexeme : (place.token kind value lexeme).lexeme.toList = lexeme := String.toList_ofList
  rw [List.append_assoc, List.length_append] at h
  refine ⟨List.forall_mem_cons.2 ⟨⟨hkind, by rwa [hlexeme]⟩, h.proper⟩,
    List.forall_mem_cons.2 ⟨hplace.stands kind value lexeme rest, h.stands⟩, ?_, h.stop⟩
  refine .token ?_
  rw [hlexeme]
  exact h.separated

/-- One more gap in front. -/
theorem Tiles.skip {passed gap rest : List Char} {placed : List (Token × Nat)} {stop : Token}
    (h : Tiles (passed ++ gap ++ rest) (passed ++ gap).length placed stop) (hgap : Gap gap rest) :
    Tiles (passed ++ (gap ++ rest)) passed.length placed stop := by
  rw [List.append_assoc, List.length_append] at h
  exact ⟨h.proper, h.stands, h.separated.skip hgap, h.stop⟩

theorem Gap.inLine {gap rest : List Char} (h : Gap gap rest) : '\n' ∉ gap := by
  cases h with
  | blank blank => rcases blank with rfl | rfl | rfl <;> decide
  | comment inLine => simpa using inLine

/-- **The tokens read from a place on tile the text behind it.** The induction is on the pieces of
the text; the place is the one behind what has been passed. -/
theorem scanFrom_tiles (place : Place) (text : List Char) : ∀ passed : List Char,
    place.Behind passed → (scanFrom place text).fault? = none →
    ∃ placed stop, (scanFrom place text).tokens = placed.map Prod.fst ++ [stop] ∧
      Tiles (passed ++ text) passed.length placed stop := by
  induction place, text using scanFrom_induction with
  | stop place hscan =>
    intro passed hplace _
    rw [hscan]
    refine ⟨[], _, rfl, by simp, by simp, ?_, rfl, ?_⟩
    · show Skips ((passed ++ []).drop passed.length) []
      rw [List.drop_left]
      exact .none []
    · simpa using hplace.stands .eof .absent [] []
  | line place rest hscan ih =>
    intro passed hplace hfault
    rw [hscan] at hfault ⊢
    obtain ⟨placed, stop, htokens, htiles⟩ := ih (passed ++ ['\n']) hplace.below hfault
    refine ⟨(place.token .newline .absent ['\n'], passed.length) :: placed, stop, ?_, ?_⟩
    · show _ :: (scanFrom place.below rest).tokens = _
      rw [htokens]
      rfl
    · exact htiles.token hplace (by decide) (by decide)
  | gap place gap rest hgap hscan ih =>
    intro passed hplace hfault
    rw [hscan] at hfault ⊢
    obtain ⟨placed, stop, htokens, htiles⟩ :=
      ih (passed ++ gap) (hplace.right hgap.inLine) hfault
    exact ⟨placed, stop, htokens, htiles.skip hgap⟩
  | token place rule kind value lexeme rest _ hdenotes hrule hkind hscan ih =>
    intro passed hplace hfault
    rw [hscan] at hfault ⊢
    obtain ⟨placed, stop, htokens, htiles⟩ :=
      ih (passed ++ lexeme) (hplace.right (hdenotes.matched.lineFeed hrule)) hfault
    refine ⟨(place.token kind value lexeme, passed.length) :: placed, stop, ?_, ?_⟩
    · show _ :: (scanFrom (place.right lexeme.length) rest).tokens = _
      rw [htokens]
      rfl
    · exact htiles.token hplace hkind hdenotes.matched.length_pos
  | fault place c rest complaint length _ hscan =>
    intro passed _ hfault
    rw [hscan] at hfault
    cases hfault

/-- Every token of a text stands somewhere in it, the mark for the end included, and no two stand at
one place. -/
theorem scan_placed {source : String} {tokens : List Token} (h : Token.scan source = .ok tokens) :
    ∃ placed : List (Token × Nat), tokens = placed.map Prod.fst ∧
      (∀ t ∈ placed, t.1.StandsAt source.toList t.2) ∧ (placed.map Prod.snd).Nodup := by
  obtain ⟨placed, stop, htokens, htiles⟩ :=
    scanFrom_tiles {} source.toList [] .start (Token.scan_fault h)
  refine ⟨placed ++ [(stop, source.toList.length)], ?_, fun t ht => ?_, ?_⟩
  · rw [List.map_append]
    exact (Token.scan_tokens h).symm.trans htokens
  · rcases List.mem_append.1 ht with ht | ht
    · exact htiles.stands t ht
    · rw [List.mem_singleton.1 ht]
      exact htiles.stop.2
  · have hincreasing := (htiles.separated.increasing fun t ht => (htiles.proper t ht).2).2
    refine List.Pairwise.imp Nat.ne_of_lt ?_
    rw [List.map_append]
    refine List.pairwise_append.2 ⟨hincreasing, List.pairwise_singleton _ _, fun p hp q hq => ?_⟩
    obtain ⟨t, ht, rfl⟩ := List.mem_map.1 hp
    obtain rfl : q = source.toList.length := by simpa using hq
    have hinside : t.2 + t.1.lexeme.toList.length ≤ source.toList.length :=
      (htiles.stands t ht).inside
    have hsome := (htiles.proper t ht).2
    omega

/-- Lines and columns are counted from one. -/
theorem scan_place_pos {source : String} {tokens : List Token} (h : Token.scan source = .ok tokens)
    {token : Token} (ht : token ∈ tokens) : 0 < token.line ∧ 0 < token.column := by
  obtain ⟨placed, rfl, hstands, -⟩ := scan_placed h
  obtain ⟨t, hmem, rfl⟩ := List.mem_map.1 ht
  have hline := (hstands t hmem).line
  have hcolumn := (hstands t hmem).column
  omega

/-- **A line and a column say which token of a text is meant.** -/
theorem scan_place_unique {source : String} {tokens : List Token}
    (h : Token.scan source = .ok tokens) {j k : Nat} {a b : Token} (ha : tokens[j]? = some a)
    (hb : tokens[k]? = some b) (hline : a.line = b.line) (hcolumn : a.column = b.column) :
    j = k := by
  obtain ⟨placed, rfl, hstands, hnodup⟩ := scan_placed h
  rw [List.getElem?_map] at ha hb
  obtain ⟨s, hs, rfl⟩ := Option.map_eq_some_iff.1 ha
  obtain ⟨t, ht, rfl⟩ := Option.map_eq_some_iff.1 hb
  have hstart := (hstands s (List.mem_of_getElem? hs)).start_unique
    (hstands t (List.mem_of_getElem? ht)) hline hcolumn
  have hlt : j < (placed.map Prod.snd).length := by
    rw [List.length_map]
    exact (List.getElem?_eq_some_iff.1 hs).1
  refine (List.getElem?_inj hlt hnodup).1 ?_
  rw [List.getElem?_map, List.getElem?_map, hs, ht, Option.map_some, Option.map_some, hstart]

/-- **The tokens of a text tile it.** They start one behind the other, each is written where it
stands and says so, only blanks and comments lie between them, and one mark for the end stands behind
the last character. -/
theorem scan_tiles_source {source : String} {tokens : List Token}
    (h : Token.scan source = .ok tokens) :
    ∃ (placed : List (Token × Nat)) (stop : Token), tokens = placed.map Prod.fst ++ [stop] ∧
      (placed.map Prod.snd).Pairwise (· < ·) ∧ Tiles source.toList 0 placed stop := by
  obtain ⟨placed, stop, htokens, htiles⟩ :=
    scanFrom_tiles {} source.toList [] .start (Token.scan_fault h)
  have hincreasing := (htiles.separated.increasing fun t ht => (htiles.proper t ht).2).2
  exact ⟨placed, stop, (Token.scan_tokens h).symm.trans htokens, hincreasing, htiles⟩

/-- A text with comments, blanks, an empty line and a numeral that ends in its point. -/
def commentedText : String := "LABEL a # \"here\"\n\n\tPRINT 1 <=2.\r # end"

theorem commentedText_tiled :
    Token.scan commentedText = .ok (scanText commentedText).tokens ∧
    ∃ (placed : List (Token × Nat)) (stop : Token),
      (scanText commentedText).tokens = placed.map Prod.fst ++ [stop] ∧
      (placed.map Prod.snd).Pairwise (· < ·) ∧ Tiles commentedText.toList 0 placed stop := by
  have hscan : Token.scan commentedText = .ok (scanText commentedText).tokens := by decide +kernel
  exact ⟨hscan, scan_tiles_source hscan⟩

end BasicToC
