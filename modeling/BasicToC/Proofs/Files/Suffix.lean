import BasicToC.Build.Basic
import BasicToC.Proofs.Files.Store
import BasicToC.Proofs.Text.Splitting
import Mathlib.Data.List.TakeWhile

/-!
# Paths and their suffixes

A path is a folder and a name in it. A listing goes into the folder of its program, so it takes the
place of the program only if it gets the same name.

* `IsFolder`, `exists_folder`: a path as a folder and a name.
* `stemOf`, `withoutSuffix_name`: only the name loses its suffix.
* `NamedAsListing`, `defaultOutput_eq_iff`: the programs whose listing gets the name of the program.
* `locate_name`, `locate_listing`: two names in a folder do not lead to one file.
-/

set_option autoImplicit false

namespace BasicToC.Files

/-! ## Folders and names -/

/-- What stands in front of a name in a path: nothing, or a text that ends with a slash. -/
def IsFolder (folder : List Char) : Prop := folder = [] ∨ ∃ front, folder = front ++ ['/']

variable {folder name stem : List Char}

/-- Back to front, a text without a mark goes on up to its end. -/
theorem reverse_without {mark : Char} {text : List Char} (h : mark ∉ text) :
    ∀ c ∈ text.reverse, (c != mark) = true := by
  intro c hc
  have hne : c ≠ mark := fun heq => h (heq ▸ List.mem_reverse.1 hc)
  simpa using hne

theorem lastName_name (hfolder : IsFolder folder) (hname : '/' ∉ name) :
    lastName (folder ++ name) = name := by
  unfold lastName
  rw [List.reverse_append, List.takeWhile_append_of_pos (reverse_without hname)]
  obtain rfl | ⟨front, rfl⟩ := hfolder <;> simp

theorem exists_folder (path : List Char) :
    ∃ folder name, IsFolder folder ∧ '/' ∉ name ∧ path = folder ++ name := by
  refine ⟨(path.reverse.dropWhile (· != '/')).reverse, lastName path, ?_, ?_, ?_⟩
  · cases hdrop : path.reverse.dropWhile (· != '/') with
    | nil => exact .inl rfl
    | cons c front =>
      have hc := List.head?_dropWhile_not (· != '/') path.reverse
      rw [hdrop] at hc
      obtain rfl : c = '/' := by simpa using hc
      exact .inr ⟨front.reverse, by simp⟩
  · intro h
    simpa using List.mem_takeWhile_imp (List.mem_reverse.1 h)
  · unfold lastName
    rw [← List.reverse_append, List.takeWhile_append_dropWhile, List.reverse_reverse]

/-! ## Suffixes -/

theorem beforePoint?_point {suffix : List Char} (h : '.' ∉ suffix) :
    beforePoint? (stem ++ '.' :: suffix) = some stem := by
  unfold beforePoint?
  rw [List.reverse_append, List.reverse_cons, List.append_assoc,
    List.dropWhile_append_of_pos (reverse_without h)]
  simp

theorem mem_of_beforePoint? (h : beforePoint? name = some stem) {c : Char} (hc : c ∈ stem) :
    c ∈ name := by
  unfold beforePoint? at h
  split at h
  · cases h
  · rename_i point before hdrop
    cases h
    have hbefore : c ∈ name.reverse.dropWhile (· != '.') := by
      rw [hdrop]
      exact List.mem_cons_of_mem _ (List.mem_reverse.1 hc)
    exact List.mem_reverse.1 ((List.dropWhile_sublist _).subset hbefore)

/-- A name without its suffix. -/
def stemOf (name : List Char) : List Char :=
  match beforePoint? name with
  | none => name
  | some stem => if stem.any (· != '.') then stem else name

theorem mem_of_stemOf {c : Char} (hc : c ∈ stemOf name) : c ∈ name := by
  unfold stemOf at hc
  cases hpoint : beforePoint? name with
  | none => simpa [hpoint] using hc
  | some stem =>
    simp only [hpoint] at hc
    split at hc
    · exact mem_of_beforePoint? hpoint hc
    · exact hc

theorem withoutSuffix_name (hfolder : IsFolder folder) (hname : '/' ∉ name) :
    withoutSuffix (folder ++ name) = folder ++ stemOf name := by
  unfold withoutSuffix stemOf
  rw [lastName_name hfolder hname]
  cases beforePoint? name with
  | none => rfl
  | some stem => by_cases h : stem.any (· != '.') = true <;> simp [h]

/-- A name gets its own suffix back exactly when there is something else than points before it. -/
theorem stemOf_listing_iff : stemOf name ++ ['.', 'c'] = name ↔
    ∃ stem, name = stem ++ ['.', 'c'] ∧ ∃ c ∈ stem, c ≠ '.' := by
  constructor
  · intro h
    have hshorter : stemOf name ≠ name := by
      intro hsame
      rw [hsame] at h
      simp at h
    unfold stemOf at h hshorter
    cases hpoint : beforePoint? name with
    | none => simp [hpoint] at hshorter
    | some stem =>
      simp only [hpoint] at h hshorter
      split at h
      · rename_i hany
        exact ⟨stem, h.symm, by simpa using hany⟩
      · rename_i hany
        simp [hany] at hshorter
  · rintro ⟨stem, rfl, hstem⟩
    have hany : stem.any (· != '.') = true := by simpa using hstem
    unfold stemOf
    rw [beforePoint?_point (by decide)]
    simp only
    rw [if_pos hany]

end BasicToC.Files

namespace BasicToC

/-- The last name of a path is the name of a listing: it has the suffix of one, and something else
than points before it. -/
def NamedAsListing (path : String) : Prop :=
  ∃ folder stem, Files.IsFolder folder ∧ '/' ∉ stem ∧ (∃ c ∈ stem, c ≠ '.') ∧
    path.toList = folder ++ (stem ++ ['.', 'c'])

theorem defaultOutput_name {path : String} {folder name : List Char} (hfolder : Files.IsFolder folder)
    (hname : '/' ∉ name) (hpath : path.toList = folder ++ name) :
    (Job.defaultOutput path).toList = folder ++ (Files.stemOf name ++ ['.', 'c']) := by
  unfold Job.defaultOutput
  rw [hpath, Files.withoutSuffix_name hfolder hname]
  simp

/-- **A listing gets the path of its program exactly when that is named as a listing.** -/
theorem defaultOutput_eq_iff (path : String) : Job.defaultOutput path = path ↔ NamedAsListing path := by
  rw [← String.toList_inj]
  constructor
  · intro h
    obtain ⟨folder, name, hfolder, hname, hpath⟩ := Files.exists_folder path.toList
    rw [defaultOutput_name hfolder hname hpath, hpath, List.append_cancel_left_eq] at h
    obtain ⟨stem, rfl, hstem⟩ := Files.stemOf_listing_iff.1 h
    exact ⟨folder, stem, hfolder, fun hmem => hname (List.mem_append_left _ hmem), hstem, hpath⟩
  · rintro ⟨folder, stem, hfolder, hmem, hstem, hpath⟩
    have hname : '/' ∉ stem ++ ['.', 'c'] := by simpa using hmem
    rw [defaultOutput_name hfolder hname hpath, hpath,
      Files.stemOf_listing_iff.2 ⟨stem, rfl, hstem⟩]

namespace Files

/-! ## Where the names of a folder lead -/

variable {files : Files} {path : String} {folder name : List Char} {names base : List String}

theorem namesOf_name (hfolder : IsFolder folder) (hname : '/' ∉ name) (hfilled : name ≠ [])
    (hpath : path.toList = folder ++ name) :
    namesOf path = namesOf (String.ofList folder) ++ [String.ofList name] := by
  unfold namesOf
  rw [hpath, String.toList_ofList]
  obtain rfl | ⟨front, rfl⟩ := hfolder
  · simp [Text.splitAt_plain hname, Text.splitAt, hfilled]
  · rw [List.append_assoc, List.singleton_append, Text.splitAt_append, Text.splitAt_append,
      Text.splitAt_plain hname]
    simp [Text.splitAt, hfilled]

theorem isAbsolute_name (hfolder : IsFolder folder) (hname : '/' ∉ name)
    (hpath : path.toList = folder ++ name) :
    isAbsolute path = isAbsolute (String.ofList folder) := by
  unfold isAbsolute
  rw [hpath, String.toList_ofList]
  obtain rfl | ⟨front, rfl⟩ := hfolder
  · cases name with
    | nil => rfl
    | cons c name =>
      have hc : c ≠ '/' := (List.ne_of_not_mem_cons hname).symm
      simpa using hc
  · cases front <;> rfl

/-- A path to what can be read ends with a name. -/
theorem read_name {bytes : List UInt8} (hfolder : IsFolder folder)
    (hpath : path.toList = folder ++ name) (h : files.read path = .ok bytes) : name ≠ [] := by
  rintro rfl
  obtain ⟨names, hlocate, -, -, hasks⟩ := read_ok_iff.1 h
  rw [List.append_nil] at hpath
  obtain rfl | ⟨front, rfl⟩ := hfolder
  · obtain rfl : path = "" := String.toList_inj.1 hpath
    cases hlocate
  · simp [asksDirectory, hpath] at hasks

/-- Where the names in front of the last one lead. -/
def folderOf (files : Files) (folder : List Char) : Except Refusal (List String) :=
  (namesOf (String.ofList folder)).foldlM files.step
    (if isAbsolute (String.ofList folder) then [] else files.here)

/-- A path leads from its folder to its name. -/
theorem locate_name (hfolder : IsFolder folder) (hname : '/' ∉ name) (hfilled : name ≠ [])
    (hpath : path.toList = folder ++ name) (h : files.locate path = .ok names) :
    ∃ base, files.folderOf folder = .ok base ∧ files.step base (String.ofList name) = .ok names := by
  unfold locate at h
  split at h
  · cases h
  · split at h
    · cases h
    · rw [namesOf_name hfolder hname hfilled hpath, isAbsolute_name hfolder hname hpath,
        List.foldlM_append] at h
      change (files.folderOf folder >>= fun base =>
        [String.ofList name].foldlM files.step base) = .ok names at h
      cases hbase : files.folderOf folder with
      | error refusal =>
        rw [hbase] at h
        cases h
      | ok base =>
        rw [hbase] at h
        change ([String.ofList name].foldlM files.step base) = .ok names at h
        exact ⟨base, rfl, by simpa using h⟩

/-- A name leads to what it names in a folder, and only the two names for folders lead elsewhere. -/
theorem step_cases {name : String} (h : files.step base name = .ok names) :
    names = base ++ [name] ∨
      (name = "." ∨ name = "..") ∧ names.length ≤ base.length := by
  unfold step at h
  split at h
  · split at h
    · rename_i hname
      cases h
      exact .inr ⟨.inl (by simpa using hname), le_rfl⟩
    · split at h
      · rename_i hname
        cases h
        exact .inr ⟨.inr (by simpa using hname), by simp⟩
      · split at h
        · cases h
        · cases h
          exact .inl rfl
  · split at h <;> cases h

/-- **A listing in the folder of a file takes the place of that file only under its name.** -/
theorem locate_listing {output : String} {stem : List Char} (hfolder : IsFolder folder)
    (hname : '/' ∉ name) (hfilled : name ≠ []) (hpath : path.toList = folder ++ name)
    (hstem : '/' ∉ stem) (houtput : output.toList = folder ++ (stem ++ ['.', 'c']))
    (h : files.locate path = .ok names) (h' : files.locate output = .ok names) :
    stem ++ ['.', 'c'] = name := by
  have hlisting : '/' ∉ stem ++ ['.', 'c'] := by simpa using hstem
  obtain ⟨base, hbase, hstep⟩ := locate_name hfolder hname hfilled hpath h
  obtain ⟨base', hbase', hstep'⟩ := locate_name hfolder hlisting (by simp) houtput h'
  obtain rfl : base = base' := Except.ok.inj (hbase.symm.trans hbase')
  obtain hnames | ⟨hspecial, -⟩ := step_cases hstep'
  · obtain hnames' | ⟨-, hshort⟩ := step_cases hstep
    · rw [hnames, List.append_cancel_left_eq, List.singleton_inj] at hnames'
      exact String.ofList_inj.1 hnames'
    · rw [hnames, List.length_append, List.length_singleton] at hshort
      omega
  · -- a name that ends with a letter is none of the two for folders
    have hlast : (stem ++ ['.', 'c']).getLast? = some 'c' := by simp
    rcases hspecial with hspecial | hspecial <;>
    · rw [← String.toList_inj, String.toList_ofList] at hspecial
      rw [hspecial] at hlast
      exact absurd hlast (by decide)

end Files

end BasicToC
