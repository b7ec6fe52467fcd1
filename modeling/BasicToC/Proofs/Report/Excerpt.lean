import BasicToC.Proofs.Scanning.Places
import BasicToC.Proofs.Text.Splitting
import BasicToC.Report.Diagnostic
import Mathlib.Data.List.DropRight

/-!
# The line that a diagnostic shows

A diagnostic is located by the number of its line and by two columns. What it shows is the line of
that number without the carriage returns at its end, and in it the stretch between the columns as far
as the line goes.

* `splitLines_append`, `splitLines_place`: the lines of a text, and the one on which a place lies.
* `trimReturns_append`, `trimReturns_solid`: what is left of a line.
* `Diagnostic.Shows`: a diagnostic shows the text at some offset of its source.
* `pointer_bare`, `locate_shows`: what is shown of every located diagnostic.
-/

set_option autoImplicit false

namespace BasicToC

namespace Text

/-! ## Lines -/

theorem splitLines_newline (rest : List Char) : splitLines ('\n' :: rest) = [] :: splitLines rest :=
  splitAt_mark '\n' rest

theorem splitLines_cons {c : Char} (hc : c ≠ '\n') (rest : List Char) :
    ∃ line lines, splitLines rest = line :: lines ∧
      splitLines (c :: rest) = (c :: line) :: lines :=
  splitAt_cons hc rest

/-- The lines of two texts with a line feed between them. -/
theorem splitLines_append (above below : List Char) :
    splitLines (above ++ '\n' :: below) = splitLines above ++ splitLines below :=
  splitAt_append '\n' above below

/-- The lines of a text are one more than its line feeds. -/
theorem splitLines_length (text : List Char) : (splitLines text).length = text.count '\n' + 1 := by
  induction text with
  | nil => rfl
  | cons c rest ih =>
    by_cases hc : c = '\n'
    · rw [hc, splitLines_newline, List.length_cons, ih, List.count_cons_self]
    · obtain ⟨line, lines, h, hcons⟩ := splitLines_cons hc rest
      rw [hcons, List.length_cons, ← List.length_cons (a := line), ← h, ih,
        List.count_cons_of_ne hc]

theorem splitLines_first (text : List Char) :
    (splitLines text)[0]? = some (text.takeWhile (· != '\n')) := by
  induction text with
  | nil => rfl
  | cons c rest ih =>
    by_cases hc : c = '\n'
    · rw [hc, splitLines_newline]
      rfl
    · obtain ⟨line, lines, h, hcons⟩ := splitLines_cons hc rest
      rw [h] at ih
      rw [hcons, List.takeWhile_cons_of_pos (by simpa using hc)]
      simpa using ih

/-- A text is all on one line, or its last line stands behind a line feed. -/
theorem last_line (text : List Char) :
    '\n' ∉ text ∨ ∃ above front, text = above ++ '\n' :: front ∧ '\n' ∉ front := by
  induction text with
  | nil => exact .inl (by simp)
  | cons c rest ih =>
    rcases ih with hrest | ⟨above, front, rfl, hfront⟩
    · by_cases hc : c = '\n'
      · exact .inr ⟨[], rest, by rw [hc]; rfl, hrest⟩
      · exact .inl (by simpa using ⟨Ne.symm hc, hrest⟩)
    · exact .inr ⟨c :: above, front, rfl, hfront⟩

theorem takeWhile_inLine {lexeme : List Char} (h : '\n' ∉ lexeme) (more : List Char) :
    (lexeme ++ more).takeWhile (· != '\n') = lexeme ++ more.takeWhile (· != '\n') := by
  refine List.takeWhile_append_of_pos fun c hc => ?_
  simpa using fun heq : c = '\n' => h (heq ▸ hc)

/-- **The line on which a place lies** is made of what stands in front of the place behind the last
line feed, and of what stands behind it up to the next one. Its number is that of the line feeds in
front of the place. -/
theorem splitLines_place (before after : List Char) :
    ∃ front, front.length = behindLineFeed before ∧ '\n' ∉ front ∧
      (splitLines (before ++ after))[before.count '\n']? =
        some (front ++ after.takeWhile (· != '\n')) := by
  have hfirst {front : List Char} (hfront : '\n' ∉ front) :
      (splitLines (front ++ after))[0]? = some (front ++ after.takeWhile (· != '\n')) := by
    rw [splitLines_first, takeWhile_inLine hfront]
  rcases last_line before with hbefore | ⟨above, front, rfl, hfront⟩
  · refine ⟨before, ?_, hbefore, ?_⟩
    · have hbehind : behindLineFeed ([] ++ before) = behindLineFeed [] + before.length :=
        behindLineFeed_append hbefore
      simpa [behindLineFeed] using hbehind.symm
    · rw [List.count_eq_zero_of_not_mem hbefore]
      exact hfirst hbefore
  · refine ⟨front, ?_, hfront, ?_⟩
    · have hbehind : behindLineFeed ((above ++ ['\n']) ++ front) =
          behindLineFeed (above ++ ['\n']) + front.length := behindLineFeed_append hfront
      rw [behindLineFeed_newline, Nat.zero_add] at hbehind
      simpa using hbehind.symm
    · have hcount : (above ++ '\n' :: front).count '\n' = (splitLines above).length + 0 := by
        rw [splitLines_length, List.count_append, List.count_cons_self,
          List.count_eq_zero_of_not_mem hfront]
      rw [hcount, List.append_assoc, List.cons_append, splitLines_append,
        List.getElem?_append_right (Nat.le_add_right _ _), Nat.add_sub_cancel_left]
      exact hfirst hfront

/-! ## Carriage returns -/

theorem trimReturns_head (line : List Char) : trimReturns line <+: line :=
  List.rdropWhile_prefix (· == '\r') line

/-- What is left of the end of a line is left of the line, unless it is nothing. -/
theorem trimReturns_append {rest : List Char} (front : List Char) (h : trimReturns rest ≠ []) :
    trimReturns (front ++ rest) = front ++ trimReturns rest := by
  have hrest : ¬ (rest.reverse.dropWhile (· == '\r')).isEmpty := by
    simpa [trimReturns] using h
  unfold trimReturns
  rw [List.reverse_append, List.dropWhile_append, if_neg hrest, List.reverse_append,
    List.reverse_reverse]

/-- A text that does not end in a carriage return stays whole. -/
theorem trimReturns_solid {text : List Char} (solid : text.getLast? ≠ some '\r') :
    trimReturns text = text := by
  refine List.rdropWhile_eq_self_iff.2 fun hne => ?_
  rw [List.getLast?_eq_some_getLast hne] at solid
  simpa using solid

theorem trimReturns_solid_append {text : List Char} (solid : text.getLast? ≠ some '\r')
    (rest : List Char) :
    trimReturns (text ++ rest) = text ++ trimReturns rest := by
  by_cases h : trimReturns rest = []
  · have hrest : (rest.reverse.dropWhile (· == '\r')).isEmpty := by simpa [trimReturns] using h
    have htext := trimReturns_solid solid
    unfold trimReturns at htext h ⊢
    rw [List.reverse_append, List.dropWhile_append, if_pos hrest, htext, h, List.append_nil]
  · exact trimReturns_append text h

end Text

/-! ## What a diagnostic shows -/

namespace Diagnostic

/-- A located diagnostic shows some text, which stands at an offset of its source. Its line is the
one on which that offset lies, its excerpt is the line without the carriage returns at its end, and
the text is the stretch of the excerpt from its first column on. It is nothing if that column lies
behind the excerpt. The pointer shows the excerpt as it is, and under it an arrow below the first
column. -/
structure Shows (d : Diagnostic) (source : List Char) (offset : Nat) (text : List Char) : Prop where
  line : d.line = some ((1 + (source.take offset).count '\n' : Nat) : Int)
  exists_line : 1 + (source.take offset).count '\n' ≤ (Text.splitLines source).length
  start : d.start = behindLineFeed (source.take offset)
  excerpt : (Text.splitLines source)[(source.take offset).count '\n']?.map Text.trimReturns =
    some d.excerpt.toList
  stretch : Text.slice d.excerpt.toList d.start d.stop = text
  beyond : text = [] → (d.excerpt.toList.length : Int) ≤ d.start
  inLine : '\n' ∉ d.excerpt.toList
  pointer : d.pointer .bare = "  " ++ d.excerpt ++ "\n" ++ "  " ++
    Text.repeated ' ' d.start.toNat ++ "^" ++
    Text.repeated '~' (max d.stop (d.start + 1) - d.start - 1).toNat

theorem slice_nat (items : List Char) (start stop : Nat) :
    Text.slice items start stop = (items.take stop).drop start := by
  have hnat (n : Nat) : (Text.fromStart items.length n).toNat = n := by
    unfold Text.fromStart
    rw [if_neg (by omega)]
    rfl
  rw [Text.slice, hnat, hnat]

/-- **The pointer leaves the excerpt as it is** when nothing is emphasised. -/
theorem pointer_bare {d : Diagnostic} {start : Nat} (h : d.start = start) :
    d.pointer .bare = "  " ++ d.excerpt ++ "\n" ++ "  " ++ Text.repeated ' ' start ++ "^" ++
      Text.repeated '~' (max d.stop (start + 1) - start - 1).toNat := by
  obtain ⟨stop, hstop⟩ : ∃ stop : Nat, max d.stop ((start : Int) + 1) = stop :=
    Int.eq_ofNat_of_zero_le (by omega)
  have hle : start ≤ stop := by omega
  have hzero : Text.slice d.excerpt.toList 0 start = d.excerpt.toList.take start :=
    (slice_nat d.excerpt.toList 0 start).trans List.drop_zero
  have hparts : d.excerpt.toList.take start ++ (d.excerpt.toList.take stop).drop start ++
      (d.excerpt.toList.take d.excerpt.toList.length).drop stop = d.excerpt.toList := by
    have hfront : d.excerpt.toList.take start = (d.excerpt.toList.take stop).take start := by
      rw [List.take_take, Nat.min_eq_left hle]
    rw [hfront, List.take_append_drop, List.take_length, List.take_append_drop]
  have hexcerpt := congrArg String.ofList hparts
  rw [String.ofList_append, String.ofList_append, String.ofList_toList] at hexcerpt
  have hjoin (a b c : String) : "  " ++ a ++ b ++ c = "  " ++ (a ++ b ++ c) := by
    simp only [String.append_assoc]
  unfold pointer
  simp only [h, hstop, hzero, slice_nat, Style.alarm, Int.toNat_natCast]
  rw [hjoin, hexcerpt]
  simp only [String.append_assoc]

/-- **A located diagnostic shows its stretch of the line** on which its place lies. What is left of
that line is asked for without its front. -/
theorem locate_shows {source : String} {rejection : Rejection} {before after shown : List Char}
    {length : Nat} (hsource : source.toList = before ++ after)
    (hline : rejection.line = some ((1 + before.count '\n' : Nat) : Int))
    (hstart : rejection.start = behindLineFeed before)
    (hstop : rejection.stop = rejection.start + length) (hsome : 0 < length)
    (hshown : ∀ front : List Char,
      ((Text.trimReturns (front ++ after.takeWhile (· != '\n'))).take
        (front.length + length)).drop front.length = shown) :
    ((ofRejection rejection).locate source).Shows source.toList before.length shown := by
  obtain ⟨front, hfront, hinLine, hplace⟩ := Text.splitLines_place before after
  obtain ⟨line, hlineEq⟩ : ∃ line, Text.trimReturns (front ++ after.takeWhile (· != '\n')) = line :=
    ⟨_, rfl⟩
  have hbefore : source.toList.take before.length = before := by rw [hsource, List.take_left]
  have hlines := hsource ▸ hplace
  have hbehind : rejection.start = front.length := by rw [hstart, hfront]
  have hbound : rejection.line.bind (lineOf? source) = some line := by
    rw [hline, Option.bind_some, lineOf?, if_pos (by omega)]
    have hnumber : (((1 + before.count '\n' : Nat) : Int) - 1).toNat = before.count '\n' := by omega
    rw [hnumber, hlines, Option.map_some, hlineEq]
  obtain ⟨stop, hstopEq, hstopNat⟩ : ∃ stop : Nat,
      (if rejection.stop = -1 ∨ (line.length : Int) < rejection.stop then (line.length : Int)
        else rejection.stop) = stop ∧ line.take stop = line.take (front.length + length) := by
    split
    · refine ⟨line.length, rfl, ?_⟩
      rw [List.take_length, List.take_of_length_le (by omega)]
    · exact ⟨front.length + length, by omega, rfl⟩
  have hlocated : (ofRejection rejection).locate source =
      { ofRejection rejection with excerpt := String.ofList line, stop := stop } := by
    have hline' : (ofRejection rejection).line = rejection.line := rfl
    simp only [locate, hline', hbound]
    exact congrArg (fun stop : Int =>
      { ofRejection rejection with excerpt := String.ofList line, stop := stop }) hstopEq
  have hstretch := hshown front
  rw [hlineEq] at hstretch
  have hhead : line <+: front ++ after.takeWhile (· != '\n') :=
    hlineEq ▸ Text.trimReturns_head _
  rw [hlocated]
  refine ⟨?_, ?_, ?_, ?_, ?_, ?_, ?_, ?_⟩
  · rw [hbefore]
    exact hline
  · rw [hbefore]
    have := (List.getElem?_eq_some_iff.1 hlines).1
    omega
  · rw [hbefore]
    exact hstart
  · rw [hbefore, hlines, Option.map_some, hlineEq, String.toList_ofList]
  · show Text.slice (String.ofList line).toList rejection.start stop = shown
    rw [String.toList_ofList, hbehind, slice_nat, hstopNat, hstretch]
  · intro hempty
    show ((String.ofList line).toList.length : Int) ≤ rejection.start
    rw [hempty, List.drop_eq_nil_iff, List.length_take] at hstretch
    rw [String.toList_ofList, hbehind]
    omega
  · show '\n' ∉ (String.ofList line).toList
    rw [String.toList_ofList]
    intro hmem
    rcases List.mem_append.1 (hhead.subset hmem) with hmem | hmem
    · exact hinLine hmem
    · simpa using List.mem_takeWhile_imp hmem
  · show pointer .bare { ofRejection rejection with excerpt := String.ofList line, stop := stop } =
      "  " ++ String.ofList line ++ "\n" ++ "  " ++ Text.repeated ' ' rejection.start.toNat ++ "^" ++
        Text.repeated '~' (max (stop : Int) (rejection.start + 1) - rejection.start - 1).toNat
    rw [hbehind, Int.toNat_natCast]
    exact pointer_bare (by exact hbehind)

end Diagnostic

/-! ## What is left of a line behind its front -/

namespace Text

/-- A stretch that does not end in a carriage return is left as it is. -/
theorem stretch_solid {lexeme : List Char} (hsome : lexeme ≠ [])
    (solid : lexeme.getLast? ≠ some '\r') (more front : List Char) :
    ((trimReturns (front ++ (lexeme ++ more))).take (front.length + lexeme.length)).drop
      front.length = lexeme := by
  have hsolid : (front ++ lexeme).getLast? ≠ some '\r' := by
    rwa [List.getLast?_append_of_ne_nil _ hsome]
  rw [← List.append_assoc, trimReturns_solid_append hsolid, ← List.length_append, List.take_left,
    List.drop_left]

/-- Of a stretch that ends with the line, the carriage returns at its end are lost. -/
theorem stretch_end {rest : List Char} (hsome : trimReturns rest ≠ []) (front : List Char) :
    ((trimReturns (front ++ rest)).take (front.length + rest.length)).drop front.length =
      trimReturns rest := by
  have hle := (trimReturns_head rest).length_le
  rw [trimReturns_append front hsome, List.take_of_length_le (by simpa using hle), List.drop_left]

/-- Behind the end of the line there is nothing. -/
theorem stretch_none (length : Nat) (front : List Char) :
    ((trimReturns (front ++ [])).take (front.length + length)).drop front.length = [] := by
  have hle := (trimReturns_head (front ++ [])).length_le
  rw [List.append_nil] at hle ⊢
  exact List.drop_of_length_le ((List.length_take_le' _ _).trans hle)

end Text

end BasicToC
