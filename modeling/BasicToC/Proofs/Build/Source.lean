import BasicToC.Proofs.Build.Steps
import BasicToC.Proofs.Files.Suffix
import BasicToC.Proofs.Joining.Lines
import BasicToC.Proofs.Pipeline.Stages
import BasicToC.Proofs.Text.Utf8

/-!
# What becomes of the source

The listing of a program goes beside it, under the same name with the suffix of a listing. There is
no look at what is there. So the file that has been read keeps its content unless its own name has
that suffix already; then the listing takes its place, and that is a new content, as no listing can
be compiled.

* `opening`, `listing_opening`, `listing_not_compiled`: listings are no programs.
* `filesAfter`: the files after a step, however it has ended.
* `source_kept_iff`: when the source keeps its content.
-/

set_option autoImplicit false

namespace BasicToC.Build

/-! ## Listings are no programs -/

/-- What every listing starts with. -/
def opening : String := "#include <stdio.h>\nint main(void)\x7b"

variable {noteTree : Bool} {source listing : String}

theorem listing_opening (h : (BasicToC.compile noteTree source).1 = .ok listing) :
    ∃ rest, listing = opening ++ "\n" ++ rest := by
  obtain ⟨tokens, program, reader, writer, hscan, hread, hwrite⟩ := compile_ok h
  obtain ⟨rfl, -⟩ := compile_listing hscan hread hwrite
  unfold Code.listing opening
  cases hlines : (program.code reader).lines 1 ++ [indented 1 "return 0;", "\x7d"] with
  | nil => simp at hlines
  | cons first more =>
    refine ⟨String.intercalate "\n" (first :: more) ++ "\n", ?_⟩
    rw [List.append_assoc, hlines, List.cons_append, List.cons_append, List.nil_append,
      String.intercalate_cons_cons, String.intercalate_cons_cons]
    rw [← String.toList_inj]
    simp

theorem opening_refused : ∃ rejection, Token.scan opening = .error rejection :=
  ⟨(scanText opening).fault?.get (by decide +kernel), by decide +kernel⟩

/-- The bytes of what every listing starts with, and of the line end there. -/
def openingBytes : List UInt8 := bytesOf (opening ++ "\n")

theorem bytesOf_append (first second : String) :
    bytesOf (first ++ second) = bytesOf first ++ bytesOf second := by
  unfold bytesOf
  rw [← Text.Utf8.toList_append]
  exact congrArg ByteArray.toList String.toByteArray_append

theorem joinNewlines_plain {front : List Char} (h : '\r' ∉ front) (more : List Char) :
    Text.joinNewlines (front ++ more) = front ++ Text.joinNewlines more := by
  induction front with
  | nil => rfl
  | cons c front ih =>
    have hc : c ≠ '\r' := (List.ne_of_not_mem_cons h).symm
    rw [List.cons_append, Text.joinNewlines, ih (List.not_mem_of_not_mem_cons h)]
    · simp [hc]
    · intro rest heq
      exact absurd heq hc

/-- **A file that holds a listing cannot be compiled.** -/
theorem listing_not_compiled {text : List Char}
    (h : (BasicToC.compile noteTree source).1 = .ok listing)
    (hdecode : Text.Utf8.decode (bytesOf listing) = .ok text) (other : String) :
    (BasicToC.compile noteTree (String.ofList (Text.joinNewlines text))).1 ≠ .ok other := by
  intro hother
  obtain ⟨rest, rfl⟩ := listing_opening h
  have hplain : ∀ byte ∈ openingBytes, byte.toNat < 0x80 := by decide +kernel
  have hchars : Text.Utf8.plainChars openingBytes = opening.toList ++ ['\n'] := by decide +kernel
  have hreturn : '\r' ∉ opening.toList ++ ['\n'] := by decide +kernel
  rw [bytesOf_append] at hdecode
  obtain ⟨more, rfl⟩ := Text.Utf8.decodeFrom_plain hplain hdecode
  rw [hchars, joinNewlines_plain hreturn] at hother
  obtain ⟨rejection, hrefused⟩ := opening_refused
  have hscan := scan_refused_before hrefused (String.ofList (Text.joinNewlines more))
  obtain ⟨tokens, -, -, -, hscanned, -, -⟩ := compile_ok hother
  have hsame : String.ofList (opening.toList ++ ['\n'] ++ Text.joinNewlines more) =
      opening ++ "\n" ++ String.ofList (Text.joinNewlines more) := by
    rw [← String.toList_inj]
    simp
  rw [hsame, hscan] at hscanned
  cases hscanned

/-! ## The file that is read -/

/-- The files after a step, however it has ended. -/
def filesAfter {α : Type} : EStateM.Result Fault Workshop α → Files
  | .ok _ after => after.files
  | .error _ after => after.files

variable {files after : Files} {path : String}

/-- A listing that goes beside its program leaves it as it is, if it has another name. -/
theorem rewritten_keeps {bytes old : List UInt8} (hnamed : ¬ NamedAsListing path)
    (hread : files.read path = .ok old)
    (h : files.Rewritten (Job.defaultOutput path) bytes after) : after.read path = .ok old := by
  obtain ⟨folder, name, hfolder, hname, hpath⟩ := Files.exists_folder path.toList
  refine h.read_other hread fun names hlocate hsame => ?_
  have houtput := defaultOutput_name hfolder hname hpath
  have hfilled := Files.read_name hfolder hpath hread
  have hstem : '/' ∉ Files.stemOf name := fun hmem => hname (Files.mem_of_stemOf hmem)
  have hlisting := Files.locate_listing hfolder hname hfilled hpath hstem houtput hlocate hsame
  rw [hlisting, ← hpath] at houtput
  exact hnamed ((defaultOutput_eq_iff path).1 (String.toList_inj.1 houtput))

/-- **The source keeps its content unless it is named as a listing and its program is compiled.**
However a job ends, what its path leads to is afterwards what it was, or else the job has ended with
a listing, and this has gone to the very path of the source: the path of the listing is that path
exactly when its last name has the suffix of a listing. -/
theorem source_kept_iff (noteTree : Bool) (files : Files) (reporter : Reporter) (path : String) :
    ((filesAfter (run noteTree (start files reporter path none))).read path = files.read path ↔
      ¬ (NamedAsListing path ∧
        ∃ listing after, run noteTree (start files reporter path none) = .ok listing after)) ∧
    (Job.defaultOutput path = path ↔ NamedAsListing path) := by
  refine ⟨?_, defaultOutput_eq_iff path⟩
  rcases run_ends noteTree (start files reporter path none) with
    ⟨listing, after, hrun, hends⟩ | ⟨fault, after, hrun, hends, -⟩
  · rw [hrun]
    obtain ⟨legible, compiled, -, written⟩ := hends
    obtain ⟨-, bytes, text, hread, hdecode, rfl⟩ := legible
    have hbytes : files.read path = .ok bytes := hread
    have hwritten : files.Rewritten (Job.defaultOutput path) (bytesOf listing) after.files := written
    constructor
    · rintro hkept ⟨hnamed, -⟩
      rw [(defaultOutput_eq_iff path).2 hnamed] at hwritten
      have hsame : bytesOf listing = bytes :=
        Except.ok.inj (hwritten.content.symm.trans (hkept.trans hbytes))
      rw [← hsame] at hdecode
      exact listing_not_compiled compiled hdecode listing compiled
    · intro hnot
      have hnamed : ¬ NamedAsListing path := fun h => hnot ⟨h, listing, after, rfl⟩
      exact (rewritten_keeps hnamed hbytes hwritten).trans hbytes.symm
  · rw [hrun]
    have hfiles : after.files = files := by
      cases hends
      rfl
    constructor
    · rintro - ⟨-, listing, other, hdone⟩
      cases hdone
    · intro _
      show after.files.read path = files.read path
      rw [hfiles]

/-- A program that is named as a listing. -/
def listingFile : Files := { contents := [(["prog.c"], [80, 82, 73, 78, 84, 32, 49, 10])] }

/-- Its listing takes its place. -/
theorem listingFile_overwritten : Job.defaultOutput "prog.c" = "prog.c" ∧
    (filesAfter (run false (start listingFile {} "prog.c" none))).read "prog.c" ≠
      listingFile.read "prog.c" := by
  constructor
  · decide +kernel
  · decide +kernel

end BasicToC.Build
