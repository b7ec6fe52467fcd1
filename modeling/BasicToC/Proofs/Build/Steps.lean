import BasicToC.Build.Basic
import BasicToC.Proofs.Files.Store
import BasicToC.Proofs.Sequence

/-!
# The steps of building a file

Reading, compiling and writing, each with what it needs and with what it leaves alone when it fails.

* `Legible`, `Writable`: a file that can be read as a text, and a path that can be written.
* `loaded`, `compiled`: what has been done of a job.
* `read_legible`, `read_illegible`, `compile_done`, `compile_refused`, `write_done`, `write_refused`:
  the steps.
* `Ends`: a listing that has been written, or nothing done.
* `run_ends`: all steps together.
-/

set_option autoImplicit false

namespace BasicToC.Build

/-- A file can be read as a text; every way to end a line is read as a line feed. -/
def Legible (files : Files) (path source : String) : Prop :=
  hasNul path = false ∧ ∃ bytes text, files.read path = .ok bytes ∧
    Text.Utf8.decode bytes = .ok text ∧ source = String.ofList (Text.joinNewlines text)

/-- A path can be opened for writing. -/
def Writable (files : Files) (path : String) : Prop :=
  hasNul path = false ∧ ∃ emptied, files.write path [] = .ok emptied

theorem Legible.unique {files : Files} {path source other : String} (h : Legible files path source)
    (h' : Legible files path other) : source = other := by
  obtain ⟨-, bytes, text, hread, hdecode, rfl⟩ := h
  obtain ⟨-, bytes', text', hread', hdecode', rfl⟩ := h'
  obtain rfl : bytes = bytes' := Except.ok.inj (hread.symm.trans hread')
  obtain rfl : text = text' := Except.ok.inj (hdecode.symm.trans hdecode')
  rfl

/-- A workshop whose program has been read. -/
def loaded (w : Workshop) (source : String) : Workshop :=
  { w with job := { w.job with source := some source } }

/-- A workshop whose program has been compiled. -/
def compiled (w : Workshop) (notes : List Event) (listing : String) : Workshop :=
  { w with notes := notes, job := { w.job with listing := some listing } }

section Steps

variable {α : Type} {w : Workshop}

/-- A step that stops at a path which holds the character that ends paths. -/
theorem guarded_eq {path : String} {f : Build α} :
    (do
      if hasNul path then throw Fault.nulInPath
      f : Build α) w =
      if hasNul path = true then .error .nulInPath w else f w := by
  by_cases h : hasNul path = true
  · simp only [h, if_true]
    rfl
  · simp only [h]
    rfl

/-! ## Reading -/

variable {noteTree : Bool} {source listing : String}

theorem read_legible (h : Legible w.files w.job.path source) :
    read w = .ok source (loaded w source) := by
  obtain ⟨hnul, bytes, text, hread, hdecode, rfl⟩ := h
  unfold read
  rw [bind_eq (get_eq w)]
  simp only
  rw [guarded_eq, hnul, if_neg Bool.false_ne_true, hread]
  simp only [hdecode]
  rfl

theorem read_illegible (h : ∀ source, ¬ Legible w.files w.job.path source) :
    ∃ fault, read w = .error fault w := by
  unfold read
  rw [bind_eq (get_eq w)]
  simp only
  rw [guarded_eq]
  split
  · exact ⟨_, rfl⟩
  · rename_i hnul
    cases hread : w.files.read w.job.path with
    | error refusal => exact ⟨_, rfl⟩
    | ok bytes =>
      simp only
      cases hdecode : Text.Utf8.decode bytes with
      | error fault => exact ⟨_, rfl⟩
      | ok text => exact absurd ⟨by simpa using hnul, bytes, text, hread, hdecode, rfl⟩ (h _)

/-! ## Compiling -/

theorem compile_done (hsource : w.job.source = some source)
    (h : (BasicToC.compile noteTree source).1 = .ok listing) :
    ∃ notes, compile noteTree w = .ok listing (compiled w notes listing) := by
  unfold compile
  rw [bind_eq (get_eq w), hsource]
  simp only
  rw [bind_eq (modify_eq _ w), h]
  exact ⟨_, rfl⟩

/-- A program that is refused leaves the files as they are, and the reporter as strict as it is. -/
theorem refuse_eq (source : String) (rejection : Rejection) :
    ∃ fault after, (refuse source rejection : Build α) w = .error fault after ∧
      after.files = w.files ∧ after.reporter.fatal = w.reporter.fatal := by
  unfold refuse
  simp only
  rw [bind_eq (get_eq w)]
  split <;> exact ⟨_, _, rfl, rfl, rfl⟩

theorem compile_refused {refusal : Compile.Fault} (hsource : w.job.source = some source)
    (h : (BasicToC.compile noteTree source).1 = .error refusal) :
    ∃ fault after, compile noteTree w = .error fault after ∧ after.files = w.files ∧
      after.reporter.fatal = w.reporter.fatal := by
  unfold compile
  rw [bind_eq (get_eq w), hsource]
  simp only
  rw [bind_eq (modify_eq _ w), h]
  cases hrejection : refusal.rejection? with
  | some rejection =>
    simp only [hrejection]
    exact refuse_eq source rejection
  | none =>
    simp only [hrejection]
    split <;> exact ⟨_, _, rfl, rfl, rfl⟩

/-! ## Writing -/

theorem write_done (hlisting : w.job.listing = some listing) (h : Writable w.files w.job.output) :
    ∃ after, write w = .ok () after ∧
      w.files.Rewritten w.job.output (bytesOf listing) after.files := by
  obtain ⟨hnul, emptied, hwrite⟩ := h
  obtain ⟨files, hlast⟩ := Files.write_any hwrite (bytesOf listing)
  unfold write
  rw [bind_eq (get_eq w)]
  simp only
  rw [guarded_eq, hnul, if_neg Bool.false_ne_true, hwrite]
  simp only [hlisting, hlast]
  exact ⟨_, rfl, Files.write_rewritten hlast⟩

theorem write_refused (h : ¬ Writable w.files w.job.output) : ∃ fault, write w = .error fault w := by
  unfold write
  rw [bind_eq (get_eq w)]
  simp only
  rw [guarded_eq]
  split
  · exact ⟨_, rfl⟩
  · rename_i hnul
    cases hwrite : w.files.write w.job.output [] with
    | error refusal => exact ⟨_, rfl⟩
    | ok emptied => exact absurd ⟨by simpa using hnul, emptied, hwrite⟩ h

end Steps

/-! ## All steps -/

/-- How a job ends: with a listing in its file and every other file as it was, or with nothing done,
as there is no text, no listing of the text, or no place for it. -/
inductive Ends (noteTree : Bool) (files : Files) (path output : String) :
    Option String → Files → Prop
  | done {source listing : String} {after : Files} (legible : Legible files path source)
      (compiled : (BasicToC.compile noteTree source).1 = .ok listing)
      (writable : Writable files output)
      (written : files.Rewritten output (bytesOf listing) after) :
      Ends noteTree files path output (some listing) after
  | undone (impossible : ∀ source listing, Legible files path source →
      (BasicToC.compile noteTree source).1 = .ok listing → ¬ Writable files output) :
      Ends noteTree files path output none files

/-- **A job is done, or nothing is.** It is done exactly when its file can be read, its text is
compiled, and its listing can be written. -/
theorem run_ends (noteTree : Bool) (w : Workshop) :
    (∃ listing after, run noteTree w = .ok listing after ∧
      Ends noteTree w.files w.job.path w.job.output (some listing) after.files) ∨
    ∃ fault after, run noteTree w = .error fault after ∧
      Ends noteTree w.files w.job.path w.job.output none after.files ∧
      after.reporter.fatal = w.reporter.fatal := by
  unfold run
  by_cases hlegible : ∃ source, Legible w.files w.job.path source
  · obtain ⟨source, hlegible⟩ := hlegible
    have hsource : (loaded w source).job.source = some source := rfl
    rw [bind_eq (read_legible hlegible)]
    cases hcompile : (BasicToC.compile noteTree source).1 with
    | error refusal =>
      obtain ⟨fault, after, hfault, hfiles, hfatal⟩ := compile_refused hsource hcompile
      refine .inr ⟨fault, after, bind_error_eq hfault, ?_, hfatal⟩
      rw [hfiles]
      refine .undone fun other listing hother hlisting => ?_
      rw [hother.unique hlegible, hcompile] at hlisting
      cases hlisting
    | ok listing =>
      obtain ⟨notes, hdone⟩ := compile_done hsource hcompile
      rw [bind_eq hdone]
      have hlisting : (compiled (loaded w source) notes listing).job.listing = some listing := rfl
      by_cases hwritable : Writable w.files w.job.output
      · obtain ⟨after, hwrite, hrewritten⟩ := write_done hlisting hwritable
        refine .inl ⟨listing, after, ?_, .done hlegible hcompile hwritable hrewritten⟩
        rw [bind_eq hwrite]
        rfl
      · have hunwritable : ¬ Writable (compiled (loaded w source) notes listing).files
            (compiled (loaded w source) notes listing).job.output := hwritable
        obtain ⟨fault, hwrite⟩ := write_refused hunwritable
        exact .inr ⟨fault, _, bind_error_eq hwrite, .undone fun _ _ _ _ => hwritable, rfl⟩
  · have hnone : ∀ source, ¬ Legible w.files w.job.path source :=
      fun source h => hlegible ⟨source, h⟩
    obtain ⟨fault, hread⟩ := read_illegible hnone
    refine .inr ⟨fault, w, bind_error_eq hread, ?_, rfl⟩
    exact .undone fun source _ h => absurd h (hnone source)

end BasicToC.Build
