import BasicToC.Report.Reporter

/-!
# What a report says of the files

A reporter that does not end the program goes through registrations and reports. The lines that a
report shows are those of the registrations since the report before it.

* `History.Latest`, `History.firstOf`: the last registration of a path, and the place of its first one.
* `History.Recalls`: a history keeps the last registration of every path, in the order of the first
  ones.
* `Recalls.register`: what one more registration does to that.
* `Reporter.Act`, `Reporter.perform`: registrations and reports one after another.
* `Act.recent`, `perform_recalls`: the registrations since the last report, and the history of them.
* `traceback_is_history`: what each report shows.
-/

set_option autoImplicit false

namespace BasicToC

namespace History

variable {events : List Entry} {history : History} {entry other : Entry}

/-- An entry is what was last registered for its path. -/
def Latest (events : List Entry) (entry : Entry) : Prop :=
  ∃ before after, events = before ++ entry :: after ∧ ∀ later ∈ after, later.path ≠ entry.path

/-- The place of the first registration of a path. -/
def firstOf (events : List Entry) (path : String) : Nat := events.findIdx (·.path == path)

/-- A history keeps what was last registered for every path, in the order in which the paths were
first registered. -/
structure Recalls (events : List Entry) (history : History) : Prop where
  latest : ∀ entry, entry ∈ history ↔ Latest events entry
  ordered : history.Pairwise fun a b => firstOf events a.path < firstOf events b.path

/-! ## One more registration -/

theorem Latest.mem (h : Latest events entry) : entry ∈ events := by
  obtain ⟨before, after, rfl, -⟩ := h
  simp

/-- A path that has been registered has a last registration. -/
theorem exists_latest (h : entry ∈ events) : ∃ last, last.path = entry.path ∧ Latest events last := by
  induction events generalizing entry with
  | nil => cases h
  | cons first events ih =>
    by_cases hlater : ∃ later ∈ events, later.path = entry.path
    · obtain ⟨later, hmem, hpath⟩ := hlater
      obtain ⟨last, hlast, before, after, rfl, hafter⟩ := ih hmem
      exact ⟨last, hlast.trans hpath, first :: before, after, rfl, hafter⟩
    · have hnone : ∀ later ∈ events, later.path ≠ entry.path :=
        fun later hmem hpath => hlater ⟨later, hmem, hpath⟩
      rcases List.mem_cons.1 h with rfl | hmem
      · exact ⟨entry, rfl, [], events, rfl, hnone⟩
      · exact absurd rfl (hnone entry hmem)

/-- A registration at the end takes the place of those of its own path. -/
theorem latest_concat :
    Latest (events ++ [entry]) other ↔
      other = entry ∨ Latest events other ∧ other.path ≠ entry.path := by
  constructor
  · rintro ⟨before, after, hsplit, hafter⟩
    rcases List.eq_nil_or_concat after with rfl | ⟨after, last, rfl⟩
    · exact .inl (List.singleton_inj.1 (List.append_inj' hsplit rfl).2).symm
    · have hsplit' : events ++ [entry] = before ++ other :: after ++ [last] := by simpa using hsplit
      obtain ⟨rfl, hlast⟩ := List.append_inj' hsplit' rfl
      obtain rfl := List.singleton_inj.1 hlast
      refine .inr ⟨⟨before, after, rfl, fun later hmem => hafter later (by simp [hmem])⟩, ?_⟩
      exact (hafter entry (by simp)).symm
  · rintro (rfl | ⟨⟨before, after, rfl, hafter⟩, hne⟩)
    · exact ⟨events, [], rfl, by simp⟩
    · refine ⟨before, after ++ [entry], by simp, fun later hmem => ?_⟩
      rcases List.mem_append.1 hmem with hmem | hmem
      · exact hafter later hmem
      · rw [List.mem_singleton.1 hmem]
        exact hne.symm

/-- Where a path has been registered, later registrations leave the place of the first one. -/
theorem firstOf_concat (h : other ∈ events) :
    firstOf (events ++ [entry]) other.path = firstOf events other.path := by
  have hfound : events.findIdx (·.path == other.path) < events.length :=
    List.findIdx_lt_length.2 ⟨other, h, beq_self_eq_true _⟩
  rw [firstOf, List.findIdx_append, if_pos hfound, firstOf]

/-- A path that is new is registered behind all others. -/
theorem firstOf_new (hnew : ∀ earlier ∈ events, earlier.path ≠ entry.path) (h : other ∈ events) :
    firstOf events other.path < firstOf (events ++ [entry]) entry.path := by
  have hnone : ¬ events.findIdx (·.path == entry.path) < events.length := by
    rw [List.findIdx_lt_length]
    rintro ⟨earlier, hmem, hpath⟩
    exact hnew earlier hmem (beq_iff_eq.1 hpath)
  calc firstOf events other.path < events.length :=
        List.findIdx_lt_length.2 ⟨other, h, beq_self_eq_true _⟩
    _ ≤ firstOf (events ++ [entry]) entry.path := by
        rw [firstOf, List.findIdx_append, if_neg hnone]
        exact Nat.le_add_left _ _

theorem mem_of_register (h : other ∈ register entry history) : other = entry ∨ other ∈ history := by
  induction history with
  | nil => exact .inl (List.mem_singleton.1 h)
  | cons first rest ih =>
    rw [register] at h
    split at h
    · exact (List.mem_cons.1 h).imp_right (List.mem_cons_of_mem _)
    · rcases List.mem_cons.1 h with rfl | h
      · exact .inr List.mem_cons_self
      · exact (ih h).imp_right (List.mem_cons_of_mem _)

/-- An entry takes the place of the one with its path, if there is one, and all others stay. -/
theorem mem_register (h : history.Pairwise fun a b => a.path ≠ b.path) :
    other ∈ register entry history ↔ other = entry ∨ other ∈ history ∧ other.path ≠ entry.path := by
  induction history with
  | nil => simp [register]
  | cons first rest ih =>
    obtain ⟨hfirst, hrest⟩ := List.pairwise_cons.1 h
    rw [register]
    split
    · rename_i hpath
      rw [beq_iff_eq] at hpath
      constructor
      · intro hmem
        rcases List.mem_cons.1 hmem with rfl | hmem
        · exact .inl rfl
        · exact .inr ⟨List.mem_cons_of_mem _ hmem, fun heq => hfirst other hmem (hpath.trans heq.symm)⟩
      · rintro (rfl | ⟨hmem, hne⟩)
        · exact List.mem_cons_self
        · rcases List.mem_cons.1 hmem with rfl | hmem
          · exact absurd hpath hne
          · exact List.mem_cons_of_mem _ hmem
    · rename_i hpath
      rw [beq_iff_eq] at hpath
      rw [List.mem_cons, ih hrest, List.mem_cons]
      constructor
      · rintro (rfl | rfl | ⟨hmem, hne⟩)
        · exact .inr ⟨.inl rfl, hpath⟩
        · exact .inl rfl
        · exact .inr ⟨.inr hmem, hne⟩
      · rintro (rfl | ⟨rfl | hmem, hne⟩)
        · exact .inr (.inl rfl)
        · exact .inl rfl
        · exact .inr (.inr ⟨hmem, hne⟩)

/-- Entries stay in the order of their paths when an entry with a path of theirs, or with a later one,
is put among them. -/
theorem pairwise_register (place : String → Nat)
    (h : history.Pairwise fun a b => place a.path < place b.path)
    (hnew : (∀ other ∈ history, other.path ≠ entry.path) →
      ∀ other ∈ history, place other.path < place entry.path) :
    (register entry history).Pairwise fun a b => place a.path < place b.path := by
  induction history with
  | nil => exact List.pairwise_singleton _ _
  | cons first rest ih =>
    obtain ⟨hfirst, hrest⟩ := List.pairwise_cons.1 h
    rw [register]
    split
    · rename_i hpath
      rw [beq_iff_eq] at hpath
      exact List.pairwise_cons.2 ⟨hpath ▸ hfirst, hrest⟩
    · rename_i hpath
      rw [beq_iff_eq] at hpath
      have hothers (hnone : ∀ other ∈ rest, other.path ≠ entry.path) :
          ∀ other ∈ first :: rest, place other.path < place entry.path :=
        hnew (List.forall_mem_cons.2 ⟨hpath, hnone⟩)
      refine List.pairwise_cons.2 ⟨fun other hmem => ?_, ih hrest fun hnone other hmem =>
        hothers hnone other (List.mem_cons_of_mem _ hmem)⟩
      rcases mem_of_register hmem with rfl | hmem
      · by_cases hknown : ∃ known ∈ rest, known.path = other.path
        · obtain ⟨known, hmem, hsame⟩ := hknown
          exact hsame ▸ hfirst known hmem
        · exact hothers (fun known hmem hsame => hknown ⟨known, hmem, hsame⟩) first
            List.mem_cons_self
      · exact hfirst other hmem

theorem Recalls.nil : Recalls [] [] where
  latest entry := by simp [Latest]
  ordered := .nil

/-- **A history goes on recalling what is registered.** -/
theorem Recalls.register (h : Recalls events history) (entry : Entry) :
    Recalls (events ++ [entry]) (register entry history) where
  latest other := by
    have hdistinct : history.Pairwise fun a b => a.path ≠ b.path :=
      h.ordered.imp fun {a b} hlt heq => by
        rw [heq] at hlt
        exact Nat.lt_irrefl _ hlt
    rw [mem_register hdistinct, latest_concat, h.latest]
  ordered := by
    have hmem {other : Entry} (hother : other ∈ history) : other ∈ events :=
      ((h.latest other).1 hother).mem
    refine pairwise_register (firstOf (events ++ [entry])) ?_ fun hnone other hother => ?_
    · refine h.ordered.imp_of_mem fun {a b} ha hb hlt => ?_
      rwa [firstOf_concat (hmem ha), firstOf_concat (hmem hb)]
    · rw [firstOf_concat (hmem hother)]
      refine firstOf_new (fun earlier hearlier hpath => ?_) (hmem hother)
      obtain ⟨last, hlast, hlatest⟩ := exists_latest hearlier
      exact hnone last ((h.latest last).2 hlatest) (hlast.trans hpath)

/-- The lines of a history are those that were registered last for their paths. -/
theorem Recalls.mem_lines (h : Recalls events history) (path text : String) (number : Option Int) :
    (path, text, number) ∈ history.lines ↔ Latest events ⟨path, some text, number⟩ := by
  rw [← h.latest, lines, List.mem_filterMap]
  constructor
  · rintro ⟨⟨path', line, number'⟩, hmem, hline⟩
    obtain ⟨text', rfl, heq⟩ := Option.map_eq_some_iff.1 hline
    cases heq
    exact hmem
  · exact fun hmem => ⟨_, hmem, rfl⟩

/-- The lines of a history stand in the order of its files. -/
theorem Recalls.pairwise_lines (h : Recalls events history) :
    history.lines.Pairwise fun a b => firstOf events a.1 < firstOf events b.1 := by
  refine List.pairwise_filterMap.2 (h.ordered.imp fun {a b} hlt x hx y hy => ?_)
  obtain ⟨_, -, rfl⟩ := Option.map_eq_some_iff.1 hx
  obtain ⟨_, -, rfl⟩ := Option.map_eq_some_iff.1 hy
  exact hlt

end History

/-! ## Registrations and reports -/

namespace Reporter

open History (Latest firstOf Recalls)

/-- A file or a line of it is registered, or an error is reported. -/
inductive Act where
  | file (path : String)
  | line (path text : String) (number : Option Int)
  | throw (diagnostic : Diagnostic)

/-- What is registered. -/
def Act.entry? : Act → Option History.Entry
  | .file path => some ⟨path, none, none⟩
  | .line path text number => some ⟨path, some text, number⟩
  | .throw _ => none

/-- The registrations since the last report, when there have been some already. -/
def Act.recentFrom (events : List History.Entry) (acts : List Act) : List History.Entry :=
  acts.foldl (fun events act => (act.entry?.map fun entry => events ++ [entry]).getD []) events

/-- The registrations since the last report. -/
def Act.recent (acts : List Act) : List History.Entry := recentFrom [] acts

/-- What is printed, and the reporter afterwards. -/
def act (reporter : Reporter) : Act → String × Reporter
  | .file path => ("", reporter.registerFile path)
  | .line path text number => ("", reporter.registerLine path (some text) number)
  | .throw diagnostic => reporter.throw diagnostic

/-- What is printed by acts one after another, and the reporter afterwards. -/
def perform (reporter : Reporter) : List Act → List String × Reporter
  | [] => ([], reporter)
  | act :: acts =>
    let (printed, next) := reporter.act act
    let (more, last) := next.perform acts
    (printed :: more, last)

/-- A line at fault as it is shown, with its file and number. -/
def shownLine : String × String × Option Int → String
  | (path, text, number) =>
    "  File '" ++ path ++ "', line " ++ (match number with
      | some n => toString n
      | none => "None") ++ ":\n    " ++ text ++ "\n"

/-- Lines at fault as they are shown; from two lines on there is a title. -/
def shownLines (lines : List (String × String × Option Int)) : String :=
  (if 2 ≤ lines.length then "Traceback:\n" else "") ++ String.join (lines.map shownLine)

/-- A reporter that does not end the program and has not been told of any file. -/
def lenient (style : Style) : Reporter := { fatal := false, style := style }

section Perform

variable {reporter : Reporter} {events : List History.Entry} {history : History}

theorem perform_cons (first : Act) (acts : List Act) :
    reporter.perform (first :: acts) =
      ((reporter.act first).1 :: ((reporter.act first).2.perform acts).1,
        ((reporter.act first).2.perform acts).2) := rfl

theorem perform_append (before after : List Act) :
    reporter.perform (before ++ after) =
      ((reporter.perform before).1 ++ ((reporter.perform before).2.perform after).1,
        ((reporter.perform before).2.perform after).2) := by
  induction before generalizing reporter with
  | nil => rfl
  | cons first before ih => rw [List.cons_append, perform_cons, ih, perform_cons, List.cons_append]

/-- A report that does not end the program leaves no history. -/
theorem throw_lenient (hfatal : reporter.fatal = false) (diagnostic : Diagnostic) :
    reporter.throw diagnostic = (reporter.report diagnostic, { reporter with history := [] }) := by
  simp [throw, hfatal]

/-- **A reporter keeps the registrations since the last report**, as long as none ends the program. -/
theorem perform_recalls (hfatal : reporter.fatal = false) (h : Recalls events reporter.history)
    (acts : List Act) :
    ∃ history, (reporter.perform acts).2 = { reporter with history := history } ∧
      Recalls (Act.recentFrom events acts) history := by
  induction acts generalizing reporter events with
  | nil => exact ⟨reporter.history, rfl, h⟩
  | cons first acts ih =>
    rw [perform_cons]
    cases first with
    | file path => exact @ih (reporter.registerFile path) _ hfatal (h.register _)
    | line path text number =>
      exact @ih (reporter.registerLine path (some text) number) _ hfatal (h.register _)
    | throw diagnostic =>
      rw [act, throw_lenient hfatal]
      exact @ih { reporter with history := [] } _ hfatal .nil

end Perform

/-! ## What is shown -/

theorem text_eq_shownLines (history : History) : history.text = shownLines history.lines := by
  unfold History.text shownLines
  simp only [List.length_map]
  rfl

/-- In front of a report stand the lines of the history. -/
theorem report_lines (reporter : Reporter) (diagnostic : Diagnostic) :
    reporter.report diagnostic = shownLines reporter.history.lines ++
      { reporter with history := [] }.report diagnostic := by
  have hnone : History.text [] = "" := rfl
  unfold report
  simp only [text_eq_shownLines reporter.history, hnone, String.append_assoc, String.empty_append]

/-- **A report shows the lines that have been registered since the last one.** In front of the message
stand the lines of exactly those files of which a line was registered last, with that line and its
number, in the order in which the files were first registered; from two lines on there is a title.
After the report nothing is left of them, and the reporter goes on as it has begun. -/
theorem traceback_is_history (style : Style) (before after : List Act) (diagnostic : Diagnostic) :
    ∃ lines,
      ((lenient style).perform (before ++ .throw diagnostic :: after)).1 =
        ((lenient style).perform before).1 ++
          (shownLines lines ++ (lenient style).report diagnostic) ::
          ((lenient style).perform after).1 ∧
      (∀ path text number, (path, text, number) ∈ lines ↔
        Latest (Act.recent before) ⟨path, some text, number⟩) ∧
      (lines.Pairwise fun a b =>
        firstOf (Act.recent before) a.1 < firstOf (Act.recent before) b.1) ∧
      ((lenient style).perform (before ++ [.throw diagnostic])).2 = lenient style := by
  obtain ⟨history, hbefore, hrecalls⟩ := @perform_recalls (lenient style) [] rfl .nil before
  have hthrow : ({ lenient style with history := history }).throw diagnostic =
      (shownLines history.lines ++ (lenient style).report diagnostic, lenient style) := by
    rw [throw_lenient rfl, report_lines]
    rfl
  refine ⟨history.lines, ?_, hrecalls.mem_lines, hrecalls.pairwise_lines, ?_⟩
  · rw [perform_append, hbefore, perform_cons, act, hthrow]
  · rw [perform_append, hbefore, perform_cons, act, hthrow]
    rfl

/-- A file that is registered again loses its line and keeps its place. -/
example : ((lenient .bare).perform [.line "a" "x" (some 1), .line "b" "y" (some 2), .file "a",
    .line "a" "z" (some 3), .throw { category := .general, message := [.words "no"] }]).1.getLast? =
    some "Traceback:\n  File 'a', line 3:\n    z\n  File 'b', line 2:\n    y\nerror: no\n" := by
  decide +kernel

end Reporter

end BasicToC
