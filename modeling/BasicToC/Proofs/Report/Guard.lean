import BasicToC.Build.Basic
import BasicToC.Proofs.Message.Segments

/-!
# What a guard reports

A strict reporter ends the program with a report, whatever a job has failed at.

* `fill_plain`: a text without braces is its own message.
* `report_ne_empty`: no report is empty.
* `guard_reports`: the report of a job that has failed.
-/

set_option autoImplicit false

namespace BasicToC

namespace Template

theorem fillFrom_chars (values : List String) (numbering : Numbering) (text : List Char) :
    fillFrom values numbering (text.map .char) =
      .ok (text.map fun c => .words (String.singleton c)) := by
  induction text with
  | nil => rfl
  | cons c text ih => simp [fillFrom, ih]

/-- **A template without braces is its own message**, whatever values there are. -/
theorem fill_plain {template : String} (values : List String) (hopen : '{' ∉ template.toList)
    (hclose : '}' ∉ template.toList) :
    fill template values = .ok (template.toList.map fun c => .words (String.singleton c)) := by
  rw [fill, segments_plain hopen hclose, fillFrom_chars]

end Template

namespace Reporter

variable {reporter : Reporter}

/-- Every report has at least one line. -/
theorem report_ne_empty (reporter : Reporter) (diagnostic : Diagnostic) :
    reporter.report diagnostic ≠ "" := by
  intro h
  have hlength := congrArg String.length h
  have hline : "\n".length = 1 := rfl
  have hnone : "".length = 0 := rfl
  simp only [report, String.length_append, hline, hnone] at hlength
  omega

/-- **A strict reporter ends the program with a report**, whatever a job has failed at. -/
theorem guard_reports (hfatal : reporter.fatal = true) (fault : Build.Fault) :
    ∃ diagnostic, reporter.guard fault.ending =
      (reporter.report diagnostic, reporter, .exit (.whole 1)) := by
  have hconclude (diagnostic : Diagnostic) (after : Leaving) :
      reporter.conclude diagnostic after = (reporter.report diagnostic, reporter, .exit (.whole 1)) := by
    simp [conclude, throw, hfatal]
  have hunforeseen (name text : String)
      (hopen : '{' ∉ ("unknown error: '" ++ name ++ ": " ++ text ++ "'").toList)
      (hclose : '}' ∉ ("unknown error: '" ++ name ++ ": " ++ text ++ "'").toList) :
      ∃ diagnostic, reporter.guard (.unforeseen name text) =
        (reporter.report diagnostic, reporter, .exit (.whole 1)) := by
    simp only [guard, Diagnostic.ofTemplate, Template.fill_plain [] hopen hclose, hconclude]
    exact ⟨_, rfl⟩
  cases fault with
  | diagnosed diagnostic => exact ⟨diagnostic, hconclude _ _⟩
  | tooDeep => exact ⟨_, hconclude _ _⟩
  | nulInPath => exact hunforeseen _ _ (by decide) (by decide)
  | nothingRead => exact hunforeseen _ _ (by decide) (by decide)
  | nothingCompiled => exact hunforeseen _ _ (by decide) (by decide)
  | broken fault => exact hunforeseen _ _ (by decide) (by decide)

end Reporter

end BasicToC
