import BasicToC.Files.Store

/-!
# Writing files

What is written into a file is what is in it afterwards, and nothing else changes.

* `content?_put`, `content?_put_ne`: the content of a file, and of every other file.
* `locate_kept`: paths lead where they led before.
* `read_ok_iff`: what can be read.
* `Rewritten`: files in which one has a new content.
* `write_rewritten`, `write_any`: what is written into a file, and when that can be done.
* `Rewritten.read_other`: every other file is read as before.
-/

set_option autoImplicit false

namespace BasicToC.Files

variable {files : Files} {names other : List String} {bytes : List UInt8} {path : String}

/-- The names of the files do not change where a content is replaced. -/
theorem find_replaced (files : Files) (names other : List String) (bytes : List UInt8) :
    (files.contents.map fun entry => if entry.1 == names then (names, bytes) else entry).find?
        (·.1 == other) =
      (files.contents.find? (·.1 == other)).map fun entry =>
        if entry.1 == names then (names, bytes) else entry := by
  rw [List.find?_map]
  congr 2
  funext entry
  by_cases h : entry.1 = names <;> simp [h]

/-- A file holds what has been put into it. -/
theorem content?_put (files : Files) (names : List String) (bytes : List UInt8) :
    (files.put names bytes).content? names = some bytes := by
  unfold put
  cases hold : files.content? names with
  | some old =>
    obtain ⟨entry, hfind, -⟩ := Option.map_eq_some_iff.1 hold
    have hname : (entry.1 == names) = true := by simpa using List.find?_some hfind
    simp only [content?, Option.isSome_some, if_true, find_replaced, hfind, Option.map_some, hname]
  | none =>
    have hfind : files.contents.find? (·.1 == names) = none := Option.map_eq_none_iff.1 hold
    simp [content?, List.find?_append, hfind]

/-- Every other file holds what it held before. -/
theorem content?_put_ne (files : Files) (bytes : List UInt8) (h : other ≠ names) :
    (files.put names bytes).content? other = files.content? other := by
  have hne : (names == other) = false := by simpa using h.symm
  unfold put
  cases hold : files.content? names with
  | some old =>
    simp only [content?, Option.isSome_some, if_true, find_replaced]
    cases hfind : files.contents.find? (·.1 == other) with
    | none => rfl
    | some entry =>
      have hname : entry.1 = other := by simpa using List.find?_some hfind
      rw [Option.map_some, if_neg (by simpa [hname] using h)]
  | none => simp [content?, List.find?_append, hne]

/-! ## Paths -/

/-- Where no directory has come or gone, a path leads where it led before. -/
theorem foldlM_step_kept {after : Files} (hdirectories : after.directories = files.directories)
    {start found : List String} (path : List String)
    (h : path.foldlM files.step start = .ok found) : path.foldlM after.step start = .ok found := by
  induction path generalizing start with
  | nil => exact h
  | cons name path ih =>
    rw [List.foldlM_cons] at h ⊢
    cases hstep : files.step start name with
    | error refusal =>
      rw [hstep] at h
      cases h
    | ok next =>
      have hnext : after.step start name = .ok next := by
        rw [← hstep]
        unfold step at hstep ⊢
        have hdirectory : after.hasDirectory start = files.hasDirectory start := by
          unfold hasDirectory
          rw [hdirectories]
        rw [hdirectory]
        by_cases hd : files.hasDirectory start = true
        · rw [if_pos hd, if_pos hd]
        · rw [if_neg hd] at hstep
          split at hstep <;> cases hstep
      rw [hstep] at h
      rw [hnext]
      exact ih h

theorem locate_kept {after : Files} (hdirectories : after.directories = files.directories)
    (hhere : after.here = files.here) (h : files.locate path = .ok names) :
    after.locate path = .ok names := by
  unfold locate at h ⊢
  split at h
  · cases h
  · rename_i hsome
    rw [if_neg hsome]
    split at h
    · cases h
    · rename_i hshort
      rw [if_neg hshort, hhere]
      exact foldlM_step_kept hdirectories _ h

/-- What can be read is a file, and its path asks for no directory. -/
theorem read_ok_iff : files.read path = .ok bytes ↔
    ∃ names, files.locate path = .ok names ∧ files.hasDirectory names = false ∧
      files.content? names = some bytes ∧ asksDirectory path = false := by
  unfold read
  cases hlocate : files.locate path with
  | error refusal => simp
  | ok names =>
    cases hdirectory : files.hasDirectory names with
    | true => simp [hdirectory]
    | false =>
      cases hcontent : files.content? names with
      | none => simp [hdirectory, hcontent]
      | some old => cases hasks : asksDirectory path <;> simp [hdirectory, hcontent]

/-! ## A new content -/

/-- Files in which the one that a path leads to has a new content, and nothing else has changed. -/
structure Rewritten (files : Files) (path : String) (bytes : List UInt8) (after : Files) : Prop where
  content : after.read path = .ok bytes
  others : ∃ names, files.locate path = .ok names ∧
    ∀ other, other ≠ names → after.content? other = files.content? other
  directories : after.directories = files.directories
  here : after.here = files.here

/-- When a file can be written, whatever is to be written. -/
theorem write_ok_iff {after : Files} : files.write path bytes = .ok after ↔
    ∃ names, files.locate path = .ok names ∧ files.hasDirectory names = false ∧
      asksDirectory path = false ∧ after = files.put names bytes := by
  unfold write
  cases hlocate : files.locate path with
  | error refusal => simp
  | ok names =>
    simp only
    split
    · rename_i h
      simp only [Bool.or_eq_true] at h
      constructor
      · intro hwrite
        cases hwrite
      · rintro ⟨found, hfound, hdirectory, hasks, -⟩
        cases hfound
        rcases h with h | h
        · rw [h] at hdirectory
          cases hdirectory
        · rw [h] at hasks
          cases hasks
    · rename_i h
      simp only [Bool.or_eq_true, not_or, Bool.not_eq_true] at h
      constructor
      · intro hwrite
        cases hwrite
        exact ⟨names, rfl, h.1, h.2, rfl⟩
      · rintro ⟨found, hfound, -, -, rfl⟩
        cases hfound
        rfl

/-- **What is written into a file is in it afterwards, and no other file changes.** -/
theorem write_rewritten {after : Files} (h : files.write path bytes = .ok after) :
    files.Rewritten path bytes after := by
  obtain ⟨names, hlocate, hdirectory, hasks, rfl⟩ := write_ok_iff.1 h
  have hdirectories : (files.put names bytes).directories = files.directories := rfl
  have hhere : (files.put names bytes).here = files.here := rfl
  refine ⟨?_, ⟨names, hlocate, fun other hne => content?_put_ne files bytes hne⟩, rfl, rfl⟩
  exact read_ok_iff.2 ⟨names, locate_kept hdirectories hhere hlocate, hdirectory,
    content?_put files names bytes, hasks⟩

/-- A file at another place is read as before. -/
theorem Rewritten.read_other {after : Files} {other : String} {old : List UInt8}
    (h : files.Rewritten path bytes after) (hread : files.read other = .ok old)
    (hapart : ∀ names, files.locate other = .ok names → files.locate path ≠ .ok names) :
    after.read other = .ok old := by
  obtain ⟨names, hlocate, hdirectory, hcontent, hasks⟩ := read_ok_iff.1 hread
  obtain ⟨written, hwritten, hothers⟩ := h.others
  have hne : names ≠ written := by
    rintro rfl
    exact hapart names hlocate hwritten
  refine read_ok_iff.2
    ⟨names, locate_kept h.directories h.here hlocate, ?_, by rw [hothers names hne, hcontent], hasks⟩
  unfold hasDirectory at hdirectory ⊢
  rw [h.directories]
  exact hdirectory

/-- Whether a file can be written is no matter of what is to be written. -/
theorem write_any {after : Files} (h : files.write path bytes = .ok after) (more : List UInt8) :
    ∃ after, files.write path more = .ok after := by
  obtain ⟨names, hlocate, hdirectory, hasks, -⟩ := write_ok_iff.1 h
  exact ⟨_, write_ok_iff.2 ⟨names, hlocate, hdirectory, hasks, rfl⟩⟩

end BasicToC.Files
