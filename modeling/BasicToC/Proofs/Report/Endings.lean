import BasicToC.Proofs.Report.Guard

/-!
# What becomes of an ending

A guard reports how a piece of work has ended, and lets through what it is not to keep back. The text
of an unforeseen failure is taken for a template on the way, so braces in it get lost, or the fault of
the template takes the place of the failure.

* `Ending.due?`, `Ending.passed`: what is to be reported of an ending, and what is to leave.
* `Reporter.Keeps`: a guard does as much.
* `Template.fill_self_iff`: the templates that stand for themselves.
* `report_unforeseen`: the report of an unforeseen failure.
* `guard_keeps_iff`: the endings that are kept.
-/

set_option autoImplicit false

namespace BasicToC

/-- A text without braces. -/
def BraceFree (text : String) : Prop := '{' ∉ text.toList ∧ '}' ∉ text.toList

/-- What is to be reported of an ending. Neither the end of the work nor that of the program is. -/
def Ending.due? : Ending → Option Diagnostic
  | .finished | .exit _ => none
  | .interrupted => some { category := .general, message := [.words "keyboard interrupt"] }
  | .tooDeep => some
    { category := .general
      message := [.words
        "program is too deeply nested to compile, maximum recursion depth exceeded"] }
  | .diagnosed diagnostic => some diagnostic
  | .unforeseen name text => some
    { category := .general
      message := [.words ("unknown error: '" ++ name ++ ": " ++ text ++ "'")]
      inner := true }

/-- What is to leave a guard that does not end the program: the end of the program, or the unforeseen
failure that came in. -/
def Ending.passed : Ending → Leaving
  | .exit code => .exit code
  | .unforeseen name _ => .unforeseen name
  | .finished | .interrupted | .tooDeep | .diagnosed _ => .nothing

/-- A guard keeps an ending: what is due is reported once, and then the program ends or what is to
leave does; a reporter that does not end the program has no history then. If nothing is due, nothing is
printed. -/
def Reporter.Keeps (reporter : Reporter) (ending : Ending) : Prop :=
  reporter.guard ending =
    match ending.due? with
    | none => ("", reporter, ending.passed)
    | some diagnostic =>
      (reporter.report diagnostic,
        if reporter.fatal then reporter else { reporter with history := [] },
        if reporter.fatal then .exit (.whole 1) else ending.passed)

/-! ## Templates that stand for themselves -/

namespace Template

/-- A template into which no value can be set has no fields. -/
theorem fillFrom_nil {numbering : Numbering} {parts : List Segment} {message : Message}
    (h : fillFrom [] numbering parts = .ok message) :
    ∃ chars : List Char, parts = chars.map .char ∧
      message = chars.map fun c => .words (String.singleton c) := by
  induction parts generalizing numbering message with
  | nil =>
    cases h
    exact ⟨[], rfl, rfl⟩
  | cons part parts ih =>
    cases part with
    | char c =>
      rw [fillFrom] at h
      split at h
      · cases h
      · rename_i rest hrest
        cases h
        obtain ⟨chars, rfl, rfl⟩ := ih hrest
        exact ⟨c :: chars, rfl, rfl⟩
    | stray => cases h
    | field content =>
      rw [fillFrom] at h
      split at h
      · cases h
      · simp at h

theorem render_chars (emphasise : String → String) (chars : List Char) :
    Message.render emphasise (chars.map fun c => .words (String.singleton c)) =
      String.ofList chars := by
  induction chars with
  | nil => rfl
  | cons c chars ih =>
    rw [List.map_cons, Message.render, ih, ← String.toList_inj]
    simp

/-- **A template stands for itself exactly when there is no brace in it.** -/
theorem fill_self_iff (template : String) (emphasise : String → String) :
    (∃ message, fill template [] = .ok message ∧ message.render emphasise = template) ↔
      BraceFree template := by
  constructor
  · rintro ⟨message, hfill, hrender⟩
    obtain ⟨chars, hparts, rfl⟩ := fillFrom_nil hfill
    rw [render_chars] at hrender
    obtain rfl : chars = template.toList := by rw [← hrender, String.toList_ofList]
    have hcount : (segments none template.toList).countP Segment.isChar =
        template.toList.length := by
      rw [hparts, List.countP_map, List.countP_eq_length.2 (by simp [Segment.isChar])]
    have hbrace := (segments_chars_le none template.toList).2
    rw [hcount] at hbrace
    exact not_or.1 fun h => Nat.lt_irrefl _ (hbrace h)
  · rintro ⟨hopen, hclose⟩
    exact ⟨_, fill_plain [] hopen hclose, by rw [render_chars, String.ofList_toList]⟩

end Template

/-! ## Endings -/

namespace Reporter

variable {reporter : Reporter}

/-- The report of an unforeseen failure has its name and its text. -/
theorem report_unforeseen (reporter : Reporter) (name text : String) :
    ((Ending.unforeseen name text).due?).map reporter.report =
      some (reporter.history.text ++ reporter.style.alarm "[internal] " ++
        reporter.style.alarm "error: " ++ ("unknown error: '" ++ name ++ ": " ++ text ++ "'") ++
          "\n") := by
  simp [Ending.due?, report, Category.title, Message.render]

/-- Reports of failures of the compiler itself differ in nothing but what is said. -/
theorem report_inner_iff {message other : Message} :
    reporter.report { category := .general, message := message, inner := true } =
        reporter.report { category := .general, message := other, inner := true } ↔
      message.render reporter.style.bold = other.render reporter.style.bold := by
  simp [report]

theorem conclude_eq (reporter : Reporter) (diagnostic : Diagnostic) (after : Leaving) :
    reporter.conclude diagnostic after =
      (reporter.report diagnostic,
        if reporter.fatal then reporter else { reporter with history := [] },
        if reporter.fatal then .exit (.whole 1) else after) := rfl

/-- The words around a name and a text have no braces. -/
theorem braceFree_unknown {name text : String} :
    BraceFree ("unknown error: '" ++ name ++ ": " ++ text ++ "'") ↔
      BraceFree name ∧ BraceFree text := by
  simpa [BraceFree] using and_and_and_comm

/-- An unforeseen failure is kept exactly when its template stands for itself. -/
theorem keeps_unforeseen_iff {name text : String} :
    reporter.Keeps (.unforeseen name text) ↔
      BraceFree ("unknown error: '" ++ name ++ ": " ++ text ++ "'") := by
  rw [← Template.fill_self_iff _ reporter.style.bold, Keeps, guard]
  simp only [Diagnostic.ofTemplate, Ending.due?, Ending.passed]
  cases hfill : Template.fill ("unknown error: '" ++ name ++ ": " ++ text ++ "'") [] with
  | error fault =>
    simp only [reduceCtorEq, false_and, exists_false, iff_false]
    intro h
    exact report_ne_empty reporter _ (Prod.mk.inj h).1.symm
  | ok message =>
    simp only [conclude_eq, Prod.mk.injEq, and_true, report_inner_iff]
    simp [Message.render]

/-- **An ending is kept exactly when it is no unforeseen failure with a brace in its name or text.**
A guard that does not end the program has no history behind any report. -/
theorem guard_keeps_iff (reporter : Reporter) (ending : Ending) :
    (reporter.Keeps ending ↔
      ∀ name text, ending = .unforeseen name text → BraceFree name ∧ BraceFree text) ∧
    (reporter.fatal = false → (reporter.guard ending).1 ≠ "" →
      (reporter.guard ending).2.1.history = []) := by
  have hconclude (diagnostic : Diagnostic) (after : Leaving) (hfatal : reporter.fatal = false) :
      (reporter.conclude diagnostic after).2.1.history = [] := by
    rw [conclude_eq]
    simp [hfatal]
  constructor
  · cases ending with
    | unforeseen name text =>
      rw [keeps_unforeseen_iff, braceFree_unknown]
      constructor
      · rintro h _ _ ⟨⟩
        exact h
      · exact fun h => h name text rfl
    | finished | exit | interrupted | tooDeep | diagnosed =>
      exact iff_of_true rfl fun _ _ h => by cases h
  · intro hfatal hprinted
    cases ending with
    | finished | exit => exact absurd rfl hprinted
    | interrupted | tooDeep | diagnosed => exact hconclude _ _ hfatal
    | unforeseen name text =>
      rw [guard] at hprinted ⊢
      split at hprinted
      · exact absurd rfl hprinted
      · exact hconclude _ _ hfatal

/-- A reporter that does not end the program and has got to the third line of a file. -/
def atThirdLine : Reporter := { fatal := false, history := [⟨"a.bas", some "PRINT 1", some 3⟩] }

theorem failure_at_third_line : atThirdLine.Keeps (.unforeseen "ValueError" "no number") ∧
    (atThirdLine.guard (.unforeseen "ValueError" "no number")).2.1.history = [] := by
  obtain ⟨hkeeps, hhistory⟩ := guard_keeps_iff atThirdLine (.unforeseen "ValueError" "no number")
  refine ⟨hkeeps.2 ?_, hhistory rfl (by decide)⟩
  rintro _ _ ⟨⟩
  exact ⟨⟨by decide, by decide⟩, by decide, by decide⟩

/-- A failure whose text is a pair of braces is not reported, and another one leaves in its place. -/
theorem braces_not_kept :
    guard { fatal := false } (.unforeseen "ValueError" "\x7b\x7d") =
      ("", { fatal := false }, .unspeakable (.missingValue 0)) ∧
    ¬ Keeps { fatal := false } (.unforeseen "ValueError" "\x7b\x7d") := by
  refine ⟨by decide, ?_⟩
  unfold Keeps
  decide

end Reporter

end BasicToC
