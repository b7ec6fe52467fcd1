import BasicToC.CommandLine.Execute
import BasicToC.Proofs.Build.Steps
import BasicToC.Proofs.Report.Guard

/-!
# All or nothing

A command line that names a file either has its listing written, with every other file as it was, or
ends the program with a report, with every file as it was.

* `Switches`: the options that may stand behind the file.
* `interpretWords_switches`, `interpret_switches`: what such a command line asks for.
* `Reported`: what is printed ends in a report.
* `execute_ends`: what becomes of a request.
* `compiling_all_or_nothing`: what becomes of a command line, and of a job.
-/

set_option autoImplicit false

namespace BasicToC.CommandLine

/-! ## What a command line asks for -/

/-- Options behind the file, with the output that they name and whether notes are to be shown. Of two
outputs the last one counts. The argument of an option is no option and not empty. -/
inductive Switches : List String → Option String → Bool → Prop
  | none : Switches [] none false
  | debug {words : List String} {output? : Option String} {debug : Bool}
      (more : Switches words output? debug) : Switches ("--debug" :: words) output? true
  | output {words : List String} {output? : Option String} {debug : Bool} {spelling text : String}
      (spelt : spelling ∈ Switch.output.spellings)
      (argument : classifyWord text = .ok (.argument text)) (filled : text ≠ "")
      (more : Switches words output? debug) :
      Switches (spelling :: text :: words) (output?.or (some text)) debug

variable {word text path : String} {words rest : List String} {output? : Option String} {debug : Bool}

/-- A word that has a meaning of its own is none that bars the options. -/
theorem classify_cons {first : Word} {others : List Word} (h : classifyWord word = .ok first)
    (hrest : classify rest = .ok others) : classify (word :: rest) = .ok (first :: others) := by
  have hbarrier : word ≠ "--" := by
    rintro rfl
    have hambiguous : classifyWord "--" =
        .error (.ambiguous "--" ["--help", "--output", "--debug"]) := rfl
    rw [hambiguous] at h
    cases h
  rw [classify, if_neg (by simpa using hbarrier), h, hrest]

theorem classifyWord_plain (h : hasDash word = false) :
    classifyWord word = .ok (.argument word) := by
  simp [classifyWord, h]

theorem classifyWord_output {spelling : String} (h : spelling ∈ Switch.output.spellings) :
    ∃ short, classifyWord spelling = .ok (.option .output short none) := by
  simp only [Switch.spellings, List.mem_cons, List.not_mem_nil, or_false] at h
  rcases h with rfl | rfl
  · exact ⟨true, rfl⟩
  · exact ⟨false, rfl⟩

/-- Once the file has been read, options add what they ask for. The induction follows the options;
what has been read before is generalized. -/
theorem interpretWords_switches (path : String) (h : Switches words output? debug) :
    ∃ meant, classify words = .ok meant ∧ (∀ more, meant ≠ .barrier :: more) ∧
      ∀ reading : Reading, reading.file = some path → reading.extras = [] →
        interpretWords reading meant =
          .run ⟨path, output?.or reading.output, debug || reading.debug⟩ := by
  induction h with
  | none =>
    refine ⟨[], rfl, by simp, fun reading hfile hextras => ?_⟩
    simp [interpretWords, interpretWords.finish, hfile, hextras]
  | @debug words output? debug _ ih =>
    obtain ⟨meant, hmeant, -, hread⟩ := ih
    have hword : classifyWord "--debug" = .ok (.option .debug false none) := rfl
    refine ⟨_, classify_cons hword hmeant, by simp, fun reading hfile hextras => ?_⟩
    rw [interpretWords, hread { reading with debug := true } hfile hextras]
    simp
  | @output words output? debug spelling text spelt argument filled _ ih =>
    obtain ⟨meant, hmeant, -, hread⟩ := ih
    obtain ⟨short, hword⟩ := classifyWord_output spelt
    refine ⟨_, classify_cons hword (classify_cons argument hmeant), by simp,
      fun reading hfile hextras => ?_⟩
    rw [interpretWords, hread { reading with output := some text } hfile hextras]
    cases output? <;> simp

/-- **A file with options behind it is a request for that file.** -/
theorem interpret_switches (hpath : hasDash path = false) (h : Switches words output? debug) :
    interpret (path :: words) = .run ⟨path, output?, debug⟩ := by
  obtain ⟨meant, hmeant, hbarrier, hread⟩ := interpretWords_switches path h
  have hargument : interpretWords {} (.argument path :: meant) =
      interpretWords { file := some path } meant := by
    rw [interpretWords]
    · rfl
    · exact hbarrier
  rw [interpret, classify_cons (classifyWord_plain hpath) hmeant]
  simp only
  rw [hargument, hread { file := some path } rfl rfl]
  simp

/-- The output that options name is not empty. -/
theorem Switches.filled (h : Switches words output? debug) : output? ≠ some "" := by
  induction h with
  | none => simp
  | debug _ ih => exact ih
  | @output words output? debug spelling text _ _ filled _ ih => cases output? <;> simp_all

/-! ## What becomes of it -/

/-- What is printed ends in a report. Notes stand in front of it only if they are to be shown. -/
def Reported (debug : Bool) (errors : String) : Prop :=
  ∃ notes reporter diagnostic, errors = noteLines notes ++ Reporter.report reporter diagnostic ∧
    Reporter.report reporter diagnostic ≠ "" ∧ (debug = false → notes = [])

/-- **A request is carried out, or the program ends with a report and nothing has changed.** -/
theorem execute_ends (style : Style) (files : Files) {request : Request}
    (h : interpret words = .run request) :
    (∃ listing, (execute style files words).exit = none ∧
      Build.Ends request.debug files request.file (Job.forPath request.file request.output).output
        (some listing) (execute style files words).files) ∨
    ((execute style files words).exit = some 1 ∧
      Build.Ends request.debug files request.file (Job.forPath request.file request.output).output
        none (execute style files words).files ∧
      Reported request.debug (execute style files words).errors) := by
  unfold execute
  simp only [h, Build.runGuarded]
  rcases Build.run_ends request.debug
    (Build.start files { fatal := true, style := style } request.file request.output) with
    ⟨listing, after, hrun, hends⟩ | ⟨fault, after, hrun, hends, hfatal⟩
  · rw [hrun]
    exact .inl ⟨listing, rfl, hends⟩
  · have hstrict : after.reporter.fatal = true := hfatal
    obtain ⟨diagnostic, hguard⟩ := Reporter.guard_reports hstrict fault
    rw [hrun]
    simp only [hguard]
    refine .inr ⟨rfl, hends, if request.debug then after.notes.reverse else [], after.reporter,
      diagnostic, ?_, Reporter.report_ne_empty _ _, fun hquiet => ?_⟩
    · split <;> rfl
    · rw [hquiet]
      rfl

/-- **Compiling a file is all or nothing.** A job either ends with its listing, which is then what its
output holds, or with a fault; a command line either comes to its end, or ends the program with a
report. In both, every other file is as it was, and the work is done exactly when the file can be
read, its text is compiled, and the output can be written. -/
theorem compiling_all_or_nothing (style : Style) (files : Files) (hpath : hasDash path = false)
    (hswitches : Switches words output? debug) :
    (∀ (noteTree : Bool) (workshop : Workshop),
      (∃ listing after, Build.run noteTree workshop = .ok listing after ∧
        Build.Ends noteTree workshop.files workshop.job.path workshop.job.output (some listing)
          after.files) ∨
      ∃ fault after, Build.run noteTree workshop = .error fault after ∧
        Build.Ends noteTree workshop.files workshop.job.path workshop.job.output none after.files) ∧
    ((∃ listing, (execute style files (path :: words)).exit = none ∧
        Build.Ends debug files path (output?.getD (Job.defaultOutput path)) (some listing)
          (execute style files (path :: words)).files) ∨
      ((execute style files (path :: words)).exit = some 1 ∧
        Build.Ends debug files path (output?.getD (Job.defaultOutput path)) none
          (execute style files (path :: words)).files ∧
        Reported debug (execute style files (path :: words)).errors)) := by
  constructor
  · intro noteTree workshop
    rcases Build.run_ends noteTree workshop with done | ⟨fault, after, hrun, hends, -⟩
    · exact .inl done
    · exact .inr ⟨fault, after, hrun, hends⟩
  · have houtput : (Job.forPath path output?).output = output?.getD (Job.defaultOutput path) := by
      cases output? with
      | none => rfl
      | some output =>
        have hfilled : output ≠ "" := fun hempty => hswitches.filled (congrArg some hempty)
        simp [Job.forPath, hfilled]
    rw [← houtput]
    exact execute_ends style files (interpret_switches hpath hswitches)

/-- One file, which prints a number. -/
def oneFile : Files := { contents := [(["one.bas"], [80, 82, 73, 78, 84, 32, 49, 10])] }

theorem oneFile_compiled :
    hasDash "one.bas" = false ∧ Switches ["-o", "two.c", "--debug"] (some "two.c") true ∧
    ∃ listing, Build.Ends true oneFile "one.bas" "two.c" (some listing)
      (execute .bare oneFile ["one.bas", "-o", "two.c", "--debug"]).files := by
  have hpath : hasDash "one.bas" = false := by decide
  have hswitches : Switches ["-o", "two.c", "--debug"] (some "two.c") true :=
    .output (List.mem_cons_self ..) rfl (by decide) (.debug .none)
  have hexit : (execute .bare oneFile ["one.bas", "-o", "two.c", "--debug"]).exit = none := by
    decide +kernel
  refine ⟨hpath, hswitches, ?_⟩
  rcases (compiling_all_or_nothing .bare oneFile hpath hswitches).2 with
    ⟨listing, -, hends⟩ | ⟨hstopped, -⟩
  · exact ⟨listing, hends⟩
  · rw [hexit] at hstopped
    cases hstopped

end BasicToC.CommandLine
