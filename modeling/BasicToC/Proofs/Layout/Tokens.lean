import BasicToC.Proofs.Scanning.Meaning

/-!
# Tokens apart from their layout

Where a token stands and how it is written is layout, and so are blank lines.

* `Token.Twin`: two tokens of one kind that carry the same value.
* `twin_of_same`: tokens of texts that are the same are twins; equal numbers are one number.
* `collapseLines`: tokens without blank lines.
* `Twins`: tokens that are twins up to blank lines.
* `Twins.cons`, `Twins.loosen`, `Twins.skip`: taking a token, and passing over line ends.
-/

set_option autoImplicit false

namespace BasicToC

/-- Two tokens of one kind that carry the same value, wherever they stand. -/
structure Token.Twin (a b : Token) : Prop where
  kind : a.kind = b.kind
  value : a.value = b.value

/-! ## Equal values -/

/-- **What the rules say of two lexemes is equal when it compares as equal.** -/
theorem Rule.Denotes.value_eq {rule rule' : Rule} {lexeme lexeme' : List Char} {kind : Token.Kind}
    {v w : Value} (h : rule.Denotes lexeme kind v) (h' : rule'.Denotes lexeme' kind w)
    (hs : v.same w = true) : v = w := by
  have habsent {v : Value} (hv : Value.absent.same v = true) : Value.absent = v := by
    cases v <;> simp [Value.same, Value.compareNumbers?, Value.counted] at hv ⊢
  cases h with
  | newline | keyword | operator => exact habsent hs
  | string | name => exact ((Value.same_text _ _).1 hs).symm
  | integer =>
    generalize hkind : Token.Kind.integer = kind at h'
    cases h' with
    | integer => simpa [Value.same, Value.compareNumbers?, Value.counted] using hs
    | newline | string | float | name => cases hkind
    | keyword known | operator known => exact absurd (hkind ▸ known) (by decide)
  | float _ _ _ rounded =>
    generalize hkind : Token.Kind.float = kind at h'
    cases h' with
    | float _ _ _ rounded' =>
      have hsize := Binary64.compare_eq (by simpa [Value.same, Value.compareNumbers?, Value.counted] using hs)
      obtain ⟨rfl, rfl⟩ := rounded.canonical.eq_of_size rounded'.canonical hsize
      rfl
    | newline | string | integer | name => cases hkind
    | keyword known | operator known => exact absurd (hkind ▸ known) (by decide)

/-- The mark for the end carries nothing. -/
theorem scanFrom_mark (place : Place) (text : List Char) :
    ∀ token ∈ (scanFrom place text).tokens, token.kind = .eof → token.value = .absent := by
  fun_induction scanFrom place text with
  | case1 place => simp [Place.token]
  | case2 place c rest h ih => exact List.forall_mem_cons.2 ⟨fun _ => rfl, ih⟩
  | case3 place c rest more h ih => exact ih
  | case4 place c rest kind value more h ih =>
    have hsound := piece_sound c rest
    rw [h] at hsound
    exact List.forall_mem_cons.2 ⟨fun heof => absurd heof hsound.1, ih⟩
  | case5 => simp

/-- **Tokens of texts that are the same are twins.** -/
theorem twin_of_same {source source' : String} {ts us : List Token} {a b : Token}
    (hscan : Token.scan source = .ok ts) (hscan' : Token.scan source' = .ok us) (ha : a ∈ ts)
    (hb : b ∈ us) (h : a.same b = true) : a.Twin b := by
  unfold Token.same at h
  rw [Bool.and_eq_true, beq_iff_eq] at h
  obtain ⟨hkind, hvalue⟩ := h
  refine ⟨hkind, ?_⟩
  have hmark {source : String} {ts : List Token} {t : Token} (hscan : Token.scan source = .ok ts)
      (ht : t ∈ ts) (heof : t.kind = .eof) : t.value = .absent :=
    scanFrom_mark {} source.toList t ((Token.scan_tokens hscan).symm ▸ ht) heof
  have hmeant {source : String} {ts : List Token} {t : Token} (hscan : Token.scan source = .ok ts)
      (ht : t ∈ ts) (hne : t.kind ≠ .eof) : t.Meant := by
    obtain ⟨us, stop, rfl, hstop, hus⟩ := scan_meant hscan
    rcases List.mem_append.1 ht with ht | ht
    · exact hus t ht
    · exact absurd (List.mem_singleton.1 ht ▸ hstop) hne
  by_cases heof : a.kind = .eof
  · rw [hmark hscan ha heof, hmark hscan' hb (hkind ▸ heof)]
  · obtain ⟨rule, hd⟩ := hmeant hscan ha heof
    obtain ⟨rule', hd'⟩ := hmeant hscan' hb (hkind ▸ heof)
    exact hd.value_eq (hkind ▸ hd') hvalue

/-! ## Blank lines -/

/-- Tokens without blank lines: of the line ends that stand one behind the other only the first is
left, and none is left `behindLine`, where a line end or nothing at all stands in front. -/
def collapseLines (behindLine : Bool) : List Token → List Token
  | [] => []
  | token :: rest =>
    if token.kind == .newline && behindLine then collapseLines true rest
    else token :: collapseLines (token.kind == .newline) rest

/-- Tokens that are twins up to blank lines. -/
def Twins (behindLine : Bool) (ts us : List Token) : Prop :=
  List.Forall₂ Token.Twin (collapseLines behindLine ts) (collapseLines behindLine us)

variable {token : Token} {ts us : List Token} {behindLine : Bool}

theorem collapseLines_blank (h : token.kind = .newline) :
    collapseLines true (token :: ts) = collapseLines true ts := by
  simp [collapseLines, h]

theorem collapseLines_keep (h : token.kind ≠ .newline ∨ behindLine = false) :
    collapseLines behindLine (token :: ts) = token :: collapseLines (token.kind == .newline) ts := by
  rw [collapseLines, if_neg]
  rcases h with h | rfl <;> simp [*]

theorem collapseLines_subset : collapseLines behindLine ts ⊆ ts := by
  induction ts generalizing behindLine with
  | nil => exact List.Subset.refl _
  | cons token ts ih =>
    unfold collapseLines
    split
    · exact List.Subset.trans ih (List.subset_cons_self token ts)
    · exact List.cons_subset_cons token ih

/-- Passing over line ends leaves a token that is none, so that nothing more is left out. -/
theorem collapseLines_skip (ts : List Token) :
    collapseLines true ts = collapseLines false (ts.dropWhile (·.kind == .newline)) := by
  induction ts with
  | nil => rfl
  | cons token ts ih =>
    by_cases h : token.kind = .newline
    · rw [collapseLines_blank h, List.dropWhile_cons_of_pos (by simpa using h), ih]
    · rw [List.dropWhile_cons_of_neg (by simpa using h), collapseLines_keep (.inl h),
        collapseLines_keep (.inl h)]

namespace Twins

/-- The first tokens are twins, and so is what stands behind them. -/
theorem cons (h : Twins false (token :: ts) us) : ∃ token' us', us = token' :: us' ∧
    token.Twin token' ∧ Twins (token.kind == .newline) ts us' := by
  cases us with
  | nil =>
    unfold Twins at h
    rw [collapseLines_keep (.inr rfl)] at h
    cases h
  | cons token' us =>
    unfold Twins at h
    rw [collapseLines_keep (.inr rfl), collapseLines_keep (.inr rfl)] at h
    obtain ⟨htwin, hrest⟩ := List.forall₂_cons.1 h
    exact ⟨token', us, rfl, htwin, by rwa [← htwin.kind] at hrest⟩

theorem nil (h : Twins false [] us) : us = [] := by
  cases us with
  | nil => rfl
  | cons token us =>
    unfold Twins at h
    rw [collapseLines_keep (.inr rfl)] at h
    cases h

/-- Passing over line ends. -/
theorem skip (h : Twins true ts us) :
    Twins false (ts.dropWhile (·.kind == .newline)) (us.dropWhile (·.kind == .newline)) := by
  unfold Twins at h ⊢
  rwa [← collapseLines_skip, ← collapseLines_skip]

/-- Twins are twins up to blank lines. -/
theorem of_twins (h : List.Forall₂ Token.Twin ts us) : Twins behindLine ts us := by
  induction h generalizing behindLine with
  | nil => exact List.Forall₂.nil
  | @cons a b ts us htwin _ ih =>
    unfold Twins collapseLines
    rw [htwin.kind]
    split
    · exact ih
    · exact List.Forall₂.cons htwin ih

/-- Where no line end may be left out, any may. -/
theorem loosen (h : Twins false ts us) : Twins true ts us := by
  cases ts with
  | nil =>
    rw [h.nil]
    exact List.Forall₂.nil
  | cons token ts =>
    obtain ⟨token', us, rfl, htwin, hrest⟩ := h.cons
    unfold Twins at hrest ⊢
    by_cases hk : token.kind = .newline
    · rw [collapseLines_blank hk, collapseLines_blank (htwin.kind ▸ hk)]
      simpa [hk] using hrest
    · rw [collapseLines_keep (.inl hk), collapseLines_keep (.inl (htwin.kind ▸ hk)), ← htwin.kind]
      exact List.Forall₂.cons htwin hrest

end Twins

/-- **Tokens of texts that are the same up to blank lines are twins up to blank lines.** -/
theorem twins_of_same {source source' : String} (hscan : Token.scan source = .ok ts)
    (hscan' : Token.scan source' = .ok us)
    (h : List.Forall₂ (fun a b => a.same b = true) (collapseLines true ts) (collapseLines true us)) :
    Twins true ts us := by
  obtain ⟨hlength, hsame⟩ := List.forall₂_iff_zip.1 h
  refine List.forall₂_iff_zip.2 ⟨hlength, fun {a b} hm => ?_⟩
  obtain ⟨ha, hb⟩ := List.of_mem_zip hm
  exact twin_of_same hscan hscan' (collapseLines_subset ha) (collapseLines_subset hb) (hsame hm)

end BasicToC
