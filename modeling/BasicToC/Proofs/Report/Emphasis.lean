import BasicToC.Proofs.Message.Segments
import BasicToC.Report.Diagnostic

/-!
# Emphasis in messages

What an error says does not depend on whether a terminal shows it: its template is filled in the same
way with emphasised values, and what is shown differs from what is said in nothing but codes.

* `Style.behindCode?`, `Style.withoutCodes`: a text without the codes of a terminal.
* `Style.Wraps`: what is asked of emphasis, which `bold_wraps` and `alarm_wraps` say of both styles.
* `Message.withoutCodes_render`: without its codes, a message that is shown is the message.
* `Template.fill_map`: values that are changed are set into the same places.
* `Template.fill_clear`: nothing but a template and values makes up a message.
* `Template.worded`, `worded_eq`: a template filled for what is said and once more for what is shown.
* `emphasis_keeps_message`: what emphasis does to a message.
* `withoutCodes_pointer`: and to the pointer under it.
-/

set_option autoImplicit false

namespace BasicToC

/-! ## Codes -/

namespace Style

/-- Whether a character may stand between the bracket and the letter of a code. -/
def isParameter (c : Char) : Bool := c.isDigit || c == ';'

/-- What stands behind a code at the head of a text: the escape character, a bracket, digits and
semicolons, and the letter for emphasis. -/
def behindCode? : List Char → Option (List Char)
  | '\x1b' :: '[' :: rest =>
    match rest.dropWhile isParameter with
    | 'm' :: more => some more
    | _ => none
  | _ => none

theorem behindCode?_length {text more : List Char} (h : behindCode? text = some more) :
    more.length < text.length := by
  unfold behindCode? at h
  split at h
  · rename_i rest
    have hle := (List.dropWhile_sublist isParameter (l := rest)).length_le
    split at h
    · rename_i hrest
      cases h
      rw [hrest, List.length_cons] at hle
      simp only [List.length_cons]
      omega
    · cases h
  · cases h

/-- A text without its codes. -/
def withoutCodes : List Char → List Char
  | [] => []
  | c :: rest =>
    match _h : behindCode? (c :: rest) with
    | some more => withoutCodes more
    | none => c :: withoutCodes rest
termination_by text => text.length
decreasing_by
  · exact behindCode?_length _h
  · simp

variable {text rest parameters : List Char}

/-- Codes start with the escape character. -/
theorem withoutCodes_append (h : '\x1b' ∉ text) :
    withoutCodes (text ++ rest) = text ++ withoutCodes rest := by
  induction text with
  | nil => rfl
  | cons c text ih =>
    have hc : c ≠ '\x1b' := (List.ne_of_not_mem_cons h).symm
    have hnone : behindCode? (c :: (text ++ rest)) = none := by
      unfold behindCode?
      split
      · rename_i heq
        exact absurd (List.cons_eq_cons.1 heq).1 hc
      · rfl
    rw [List.cons_append, withoutCodes]
    split
    · rename_i heq
      rw [hnone] at heq
      cases heq
    · rw [ih (List.not_mem_of_not_mem_cons h), List.cons_append]

theorem withoutCodes_code (h : ∀ c ∈ parameters, isParameter c) :
    withoutCodes ('\x1b' :: '[' :: (parameters ++ 'm' :: rest)) = withoutCodes rest := by
  have hletter : isParameter 'm' = false := by decide
  have hcode : behindCode? ('\x1b' :: '[' :: (parameters ++ 'm' :: rest)) = some rest := by
    simp only [behindCode?]
    rw [List.dropWhile_append_of_pos h, List.dropWhile_cons_of_neg (by simp [hletter])]
    rfl
  rw [withoutCodes]
  split
  · rename_i heq
    rw [hcode] at heq
    cases heq
    rfl
  · rename_i heq
    rw [hcode] at heq
    cases heq

/-- Codes one behind the other. -/
inductive Codes : List Char → Prop where
  | none : Codes []
  | code {parameters rest : List Char} : (∀ c ∈ parameters, isParameter c) → Codes rest →
      Codes ('\x1b' :: '[' :: (parameters ++ 'm' :: rest))

theorem withoutCodes_codes {codes : List Char} (h : Codes codes) :
    withoutCodes (codes ++ rest) = withoutCodes rest := by
  induction h with
  | none => rfl
  | code hparameters _ ih =>
    simp only [List.cons_append, List.append_assoc]
    rw [withoutCodes_code hparameters, ih]

/-- A text is emphasised by codes in front of it and behind it. -/
def Wraps (emphasise : String → String) : Prop :=
  ∀ text, ∃ opening closing, Codes opening ∧ Codes closing ∧
    (emphasise text).toList = opening ++ text.toList ++ closing

/-- What is emphasised is the text itself, but for the codes. -/
theorem Wraps.withoutCodes {emphasise : String → String} (h : Wraps emphasise) {value : String}
    (hvalue : '\x1b' ∉ value.toList) :
    withoutCodes ((emphasise value).toList ++ rest) = value.toList ++ Style.withoutCodes rest := by
  obtain ⟨opening, closing, hopening, hclosing, hwrapped⟩ := h value
  rw [hwrapped, List.append_assoc, List.append_assoc, withoutCodes_codes hopening,
    withoutCodes_append hvalue, withoutCodes_codes hclosing]

theorem bold_wraps (style : Style) : Wraps style.bold := by
  intro text
  cases style with
  | bare => exact ⟨[], [], .none, .none, by simp [bold]⟩
  | terminal =>
    have hopening : Codes ('\x1b' :: '[' :: (['1'] ++ ['m'])) := .code (by simp [isParameter]) .none
    have hclosing : Codes ('\x1b' :: '[' :: (['0'] ++ ['m'])) := .code (by simp [isParameter]) .none
    exact ⟨_, _, hopening, hclosing, by simp [bold]⟩

theorem alarm_wraps (style : Style) : Wraps style.alarm := by
  intro text
  cases style with
  | bare => exact ⟨[], [], .none, .none, by simp [alarm]⟩
  | terminal =>
    have hred : Codes ('\x1b' :: '[' :: (['3', '1'] ++ ['m'])) := .code (by simp [isParameter]) .none
    have hopening : Codes ('\x1b' :: '[' :: (['1'] ++ 'm' :: '\x1b' :: '[' :: (['3', '1'] ++ ['m']))) :=
      .code (by simp [isParameter]) hred
    have hclosing : Codes ('\x1b' :: '[' :: (['0'] ++ ['m'])) := .code (by simp [isParameter]) .none
    exact ⟨_, _, hopening, hclosing, by simp [alarm]⟩

end Style

/-! ## Messages -/

namespace Message

/-- The text of a piece. -/
def Piece.text : Piece → String
  | .words text | .value text => text

/-- A piece with its value changed, if it is one. -/
def Piece.mapValue (f : String → String) : Piece → Piece
  | .words text => .words text
  | .value text => .value (f text)

/-- A message without the escape character. -/
def Clear (message : Message) : Prop := ∀ piece ∈ message, '\x1b' ∉ piece.text.toList

/-- To emphasise values is to set emphasised values in. -/
theorem plain_map (f : String → String) (message : Message) :
    plain (message.map (Piece.mapValue f)) = message.render f := by
  induction message with
  | nil => rfl
  | cons piece message ih =>
    cases piece <;> exact congrArg (_ ++ ·) ih

/-- **Without its codes, what is shown of a message is what it says.** -/
theorem withoutCodes_render {emphasise : String → String} (hwraps : Style.Wraps emphasise)
    {message : Message} (h : message.Clear) :
    Style.withoutCodes (message.render emphasise).toList = message.plain.toList := by
  induction message with
  | nil => simp [plain, render, Style.withoutCodes]
  | cons piece message ih =>
    obtain ⟨hpiece, hmessage⟩ := List.forall_mem_cons.1 h
    have hrest := ih hmessage
    unfold plain at hrest ⊢
    cases piece with
    | words text =>
      have htext : '\x1b' ∉ text.toList := hpiece
      rw [render, render, String.toList_append, Style.withoutCodes_append htext, hrest,
        String.toList_append]
    | value text =>
      have htext : '\x1b' ∉ text.toList := hpiece
      rw [render, render, String.toList_append, hwraps.withoutCodes htext, hrest,
        String.toList_append, id]

end Message

/-! ## Templates -/

namespace Template

variable {values : List String}

/-- **Values that are changed are set into the same places**, and what fails does so in the same way. -/
theorem fillFrom_map (f : String → String) (values : List String) (numbering : Numbering)
    (parts : List Segment) :
    fillFrom (values.map f) numbering parts =
      (fillFrom values numbering parts).map (List.map (Message.Piece.mapValue f)) := by
  induction parts generalizing numbering with
  | nil => rfl
  | cons part parts ih =>
    cases part with
    | stray => rfl
    | char c =>
      rw [fillFrom, fillFrom, ih]
      cases fillFrom values numbering parts <;> rfl
    | field content =>
      rw [fillFrom, fillFrom]
      cases place numbering content with
      | error fault => rfl
      | ok chosen =>
        obtain ⟨index, next⟩ := chosen
        simp only [List.getElem?_map, ih]
        cases values[index]? with
        | none => rfl
        | some value => cases fillFrom values next parts <;> rfl

theorem fill_map (f : String → String) (template : String) (values : List String) :
    fill template (values.map f) =
      (fill template values).map (List.map (Message.Piece.mapValue f)) :=
  fillFrom_map f values _ _

/-- **Nothing but its template and its values makes up a message.** -/
theorem fillFrom_clear (hvalues : ∀ value ∈ values, '\x1b' ∉ value.toList) {numbering : Numbering}
    {parts : List Segment} {message : Message} (hparts : .char '\x1b' ∉ parts)
    (h : fillFrom values numbering parts = .ok message) : message.Clear := by
  induction parts generalizing numbering message with
  | nil =>
    cases h
    exact fun _ hmem => by cases hmem
  | cons part parts ih =>
    have hrest : .char '\x1b' ∉ parts := List.not_mem_of_not_mem_cons hparts
    cases part with
    | stray => cases h
    | char c =>
      rw [fillFrom] at h
      split at h
      · cases h
      · rename_i more hmore
        cases h
        refine List.forall_mem_cons.2 ⟨?_, ih hrest hmore⟩
        have hc : c ≠ '\x1b' := fun heq => hparts (heq ▸ List.mem_cons_self)
        simpa [Message.Piece.text] using hc.symm
    | field content =>
      rw [fillFrom] at h
      split at h
      · cases h
      · split at h
        · cases h
        · rename_i value hvalue
          split at h
          · cases h
          · rename_i more hmore
            cases h
            exact List.forall_mem_cons.2 ⟨hvalues _ (List.mem_of_getElem? hvalue), ih hrest hmore⟩

theorem fill_clear {template : String} (htemplate : '\x1b' ∉ template.toList)
    (hvalues : ∀ value ∈ values, '\x1b' ∉ value.toList) {message : Message}
    (h : fill template values = .ok message) : message.Clear :=
  fillFrom_clear hvalues (fun hmem => htemplate (mem_of_segments hmem)) h

/-- What an error says and what is shown of it: its template is filled with the values, and once more
with the values emphasised. -/
def worded (emphasise : String → String) (template : String) (values : List String) :
    Except Fault (String × String) :=
  match fill template values with
  | .error fault => .error fault
  | .ok said =>
    match fill template (values.map emphasise) with
    | .error fault => .error fault
    | .ok shown => .ok (said.plain, shown.plain)

/-- One message does for both. -/
theorem worded_eq (emphasise : String → String) (template : String) (values : List String) :
    worded emphasise template values =
      (fill template values).map fun message => (message.plain, message.render emphasise) := by
  rw [worded, fill_map]
  cases fill template values with
  | error fault => rfl
  | ok message =>
    have hshown := Message.plain_map emphasise message
    simp only [Except.map, hshown]

/-- **Emphasis never changes what an error says.** A diagnostic carries what its template gives when it
is filled for what is said and once more for what is shown. With emphasis, which puts codes around the
values, and without it the template fails in the same way, or says the same; and what is shown with
emphasis is that, but for the codes. -/
theorem emphasis_keeps_message (category : Category) {emphasise : String → String}
    (hwraps : Style.Wraps emphasise) {template : String} (htemplate : '\x1b' ∉ template.toList)
    (hvalues : ∀ value ∈ values, '\x1b' ∉ value.toList) :
    (∀ highlight, (Diagnostic.ofTemplate category template values).map
        (fun diagnostic => (diagnostic.message.plain, diagnostic.message.render highlight)) =
      worded highlight template values) ∧
    ((∃ fault, worded id template values = .error fault ∧
        worded emphasise template values = .error fault) ∨
      ∃ said shown, worded id template values = .ok (said, said) ∧
        worded emphasise template values = .ok (said, shown) ∧
        Style.withoutCodes shown.toList = said.toList) := by
  simp only [worded_eq, Diagnostic.ofTemplate]
  cases hfill : fill template values with
  | error fault => exact ⟨fun _ => rfl, .inl ⟨fault, rfl, rfl⟩⟩
  | ok message =>
    have hclear := fill_clear htemplate hvalues hfill
    exact ⟨fun _ => rfl, .inr ⟨message.plain, message.render emphasise, rfl, rfl,
      Message.withoutCodes_render hwraps hclear⟩⟩

/-- A template with two fields by number and a pair of braces. -/
def swapped : String := "\x7b1\x7d follows \x7b\x7b\x7d\x7d, not \x7b0\x7d"

theorem swapped_keeps_message : Style.Wraps Style.terminal.bold ∧ '\x1b' ∉ swapped.toList ∧
    (∀ value ∈ ["IF", "[1m;"], '\x1b' ∉ value.toList) ∧
    ∃ shown, worded Style.terminal.bold swapped ["IF", "[1m;"] =
        .ok ("[1m; follows \x7b\x7d, not IF", shown) ∧
      Style.withoutCodes shown.toList = "[1m; follows \x7b\x7d, not IF".toList := by
  have hwraps : Style.Wraps Style.terminal.bold := Style.bold_wraps .terminal
  have htemplate : '\x1b' ∉ swapped.toList := by decide
  have hvalues : ∀ value ∈ ["IF", "[1m;"], '\x1b' ∉ value.toList := by decide
  have hsaid : worded id swapped ["IF", "[1m;"] =
      .ok ("[1m; follows \x7b\x7d, not IF", "[1m; follows \x7b\x7d, not IF") := by rfl
  refine ⟨hwraps, htemplate, hvalues, ?_⟩
  rcases (emphasis_keeps_message .general hwraps htemplate hvalues).2 with
    ⟨fault, hbare, -⟩ | ⟨said, shown, hbare, hterminal, hcodes⟩
  · rw [hsaid] at hbare
    cases hbare
  · rw [hsaid] at hbare
    cases hbare
    exact ⟨shown, hterminal, hcodes⟩

end Template

/-! ## The line under a message -/

namespace Diagnostic

/-- **Without its codes, the pointer that is shown is the one without emphasis.** -/
theorem withoutCodes_pointer (style : Style) {diagnostic : Diagnostic}
    (h : '\x1b' ∉ diagnostic.excerpt.toList) :
    Style.withoutCodes (diagnostic.pointer style).toList = (diagnostic.pointer .bare).toList := by
  have hslice (a b : Int) : '\x1b' ∉ (String.ofList (Text.slice diagnostic.excerpt.toList a b)).toList := by
    rw [String.toList_ofList]
    exact fun hmem => h (List.mem_of_mem_take (List.mem_of_mem_drop hmem))
  have hrepeated {c : Char} (hc : c ≠ '\x1b') (count : Nat) : '\x1b' ∉ (Text.repeated c count).toList := by
    rw [Text.repeated, String.toList_ofList]
    exact fun hmem => hc (List.eq_of_mem_replicate hmem).symm
  have hmark (count : Nat) : '\x1b' ∉ ("^" ++ Text.repeated '~' count).toList := by
    rw [String.toList_append]
    exact fun hmem => (List.mem_append.1 hmem).elim (by decide) (hrepeated (by decide) count)
  have halarm {value : String} {rest : List Char} (hvalue : '\x1b' ∉ value.toList) :
      Style.withoutCodes ((style.alarm value).toList ++ rest) =
        value.toList ++ Style.withoutCodes rest := (Style.alarm_wraps style).withoutCodes hvalue
  have hlast {value : String} (hvalue : '\x1b' ∉ value.toList) :
      Style.withoutCodes (style.alarm value).toList = value.toList := by
    simpa [Style.withoutCodes] using @halarm value [] hvalue
  have hspaces : '\x1b' ∉ "  ".toList := by decide
  have hline : '\x1b' ∉ "\n".toList := by decide
  unfold pointer
  simp only [String.toList_append, List.append_assoc]
  rw [Style.withoutCodes_append hspaces, Style.withoutCodes_append (hslice _ _), halarm (hslice _ _),
    Style.withoutCodes_append (hslice _ _), Style.withoutCodes_append hline,
    Style.withoutCodes_append hspaces, Style.withoutCodes_append (hrepeated (by decide) _),
    hlast (hmark _)]
  simp only [Style.alarm, String.toList_append]

end Diagnostic

end BasicToC
