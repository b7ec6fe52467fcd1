import BasicToC.Proofs.Decimal.Neighbours
import BasicToC.Proofs.Joining.Tokens

/-!
# Texts made of lexemes

What is read of a text that starts with a lexeme, when nothing behind the lexeme can be part of it.

* `Denotes.unique`: a lexeme stands for one thing.
* `Parted`, `longest_parted`: at the end of a text and in front of a blank a lexeme ends.
* `longest_sign`: a sign ends wherever it stands.
* `scanFrom_lexeme`, `scanFrom_blank`: what is read of such a text.
-/

set_option autoImplicit false

namespace BasicToC

variable {rule other : Rule} {lexeme rest : List Char} {kind kind' : Token.Kind} {v w : Value}

/-! ## What a lexeme stands for -/

/-- **A lexeme stands for one thing.** -/
theorem Rule.Denotes.unique (h : rule.Denotes lexeme kind v) (h' : other.Denotes lexeme kind' w) :
    kind = kind' ∧ v = w := by
  obtain rfl := h.matched.rule_eq h'.matched
  have hspelling {kinds : List Token.Kind} (hinj : ∀ k ∈ kinds, ∀ l ∈ kinds,
      k.spelling.toList = l.spelling.toList → k = l) {k l : Token.Kind} (hk : k ∈ kinds)
      (hl : l ∈ kinds) (heq : k.spelling.toList = l.spelling.toList) : k = l :=
    hinj k hk l hl heq
  cases h with
  | newline =>
    cases h'
    exact ⟨rfl, rfl⟩
  | string =>
    generalize hlexeme : '"' :: _ ++ _ = lexeme at h'
    cases h' with
    | string =>
      have hinner := (List.cons_eq_cons.1 hlexeme).2
      rw [List.append_cancel_right hinner]
      exact ⟨rfl, rfl⟩
  | integer some all =>
    cases h' with
    | integer => exact ⟨rfl, rfl⟩
    | float => exact absurd (by simp) (point_not_digits all)
  | float some all behind rounded =>
    generalize hlexeme : _ ++ '.' :: _ = lexeme at h'
    cases h' with
    | integer _ all' => exact absurd (by simp [← hlexeme]) (point_not_digits all')
    | float _ all' _ rounded' =>
      obtain ⟨rfl, rfl⟩ := point_splits all all' hlexeme
      obtain ⟨rfl, rfl⟩ := rounded.unique rounded'
      exact ⟨rfl, rfl⟩
  | keyword known =>
    generalize hlexeme : kind.spelling.toList = lexeme at h'
    cases h' with
    | keyword known' => exact ⟨hspelling (by decide) known known' hlexeme, rfl⟩
    | name _ unlike => exact absurd hlexeme (unlike kind known)
  | name matched unlike =>
    cases h' with
    | keyword known => exact absurd rfl (unlike _ known)
    | name => exact ⟨rfl, rfl⟩
  | operator known =>
    generalize hlexeme : kind.spelling.toList = lexeme at h'
    cases h' with
    | operator known' => exact ⟨hspelling (by decide) known known' hlexeme, rfl⟩

/-! ## Where a lexeme ends -/

/-- A text behind a lexeme that cannot be part of it: nothing, or what starts with a blank. -/
def Parted (rest : List Char) : Prop := rest = [] ∨ ∃ more, rest = ' ' :: more

/-- Only quotes hold blanks. -/
theorem Rule.Matches.blank (h : rule.Matches lexeme) (hrule : rule ≠ .string) : ' ' ∉ lexeme := by
  have hdigits {digits : List Char} (all : ∀ c ∈ digits, c.isDigit) : ' ' ∉ digits :=
    fun hmem => absurd (all _ hmem) (by decide)
  cases h with
  | newline => decide
  | string => exact absurd rfl hrule
  | whole some all => exact hdigits all
  | real some all behind =>
    intro hmem
    rcases List.mem_append.1 hmem with hmem | hmem
    · exact hdigits all hmem
    · exact hdigits behind (List.mem_of_ne_of_mem (by decide) hmem)
  | word letter others =>
    intro hmem
    rcases List.mem_cons.1 hmem with rfl | hmem
    · exact absurd letter (by decide)
    · exact absurd (others _ hmem) (by decide)
  | operator known =>
    have hall : ∀ kind ∈ Token.Kind.operators, ' ' ∉ kind.spelling.toList := by decide
    exact hall _ known

/-- **At the end of a text and in front of a blank a lexeme ends.** -/
theorem longest_parted (h : rule.Matches lexeme) (hrule : rule ≠ .string) (hrest : Parted rest) :
    Longest (lexeme ++ rest) lexeme := by
  refine .of_rule (List.prefix_append _ _) h fun longer hlonger hhead => ?_
  by_contra hlt
  obtain ⟨more, rfl⟩ : lexeme <+: longer :=
    List.prefix_of_prefix_length_le (List.prefix_append _ _) hhead (by omega)
  obtain ⟨tail, htail⟩ := hhead
  rw [List.append_assoc] at htail
  have hmore := List.append_cancel_left htail
  cases more with
  | nil => simp at hlt
  | cons c more =>
    rcases hrest with rfl | ⟨others, rfl⟩
    · simp at hmore
    · obtain rfl := (List.cons_eq_cons.1 hmore).1
      exact hlonger.blank hrule (by simp)

/-- **A sign ends wherever it stands**, as no operator starts with it and goes on. -/
theorem longest_sign (h : kind ∈ [Token.Kind.plus, .minus]) (rest : List Char) :
    Longest (kind.spelling.toList ++ rest) kind.spelling.toList := by
  have hknown : kind ∈ Token.Kind.operators := by
    have hall : ∀ kind ∈ [Token.Kind.plus, .minus], kind ∈ Token.Kind.operators := by decide
    exact hall kind h
  have halone : ∀ sign ∈ [Token.Kind.plus, .minus], ∀ other ∈ Token.Kind.operators,
      sign.spelling.toList.head? = other.spelling.toList.head? →
      other.spelling.toList.length ≤ sign.spelling.toList.length := by decide
  refine .of_rule (List.prefix_append _ _) (.operator hknown) fun longer hlonger hhead => ?_
  cases hlonger with
  | @operator other known =>
    refine halone kind h other known ?_
    obtain ⟨c, more, hc, -⟩ := operator_starts other known
    obtain ⟨d, more', hd, -⟩ := operator_starts kind hknown
    rw [hc, hd] at hhead ⊢
    rw [(List.cons_prefix_cons.1 hhead).1, List.head?_cons, List.head?_cons]

/-! ## What is read -/

/-- **A lexeme that ends is read as what it stands for.** -/
theorem scanFrom_lexeme (longest : Longest (lexeme ++ rest) lexeme)
    (denotes : rule.Denotes lexeme kind v) (hrule : rule ≠ .newline) (place : Place) :
    scanFrom place (lexeme ++ rest) =
      (scanFrom (place.right lexeme.length) rest).cons (place.token kind v lexeme) := by
  obtain ⟨c, more, hlexeme, hstart⟩ := denotes.matched.starts
  have htext : lexeme ++ rest = c :: (more ++ rest) := by rw [hlexeme, List.cons_append]
  have hfits := piece_fits c (more ++ rest)
  rw [htext] at longest ⊢
  rw [scanFrom]
  cases hpiece : piece c (more ++ rest) with
  | lineEnd =>
    rw [hpiece] at hfits
    obtain ⟨others, heq⟩ := hfits
    have hnewline : Rule.newline.Starts c := (List.cons_eq_cons.1 heq).1
    exact absurd (hstart.unique hnewline) hrule
  | gap taken =>
    rw [hpiece] at hfits
    obtain ⟨gap, others, heq, -, hgap⟩ := hfits
    exact absurd (heq ▸ longest.head) (hgap.not_matches denotes.matched)
  | token kind' w taken =>
    rw [hpiece] at hfits
    obtain ⟨rule', lexeme', others, heq, hlength, hlongest, hdenotes, -⟩ := hfits
    obtain rfl := longest.unique hlongest
    obtain ⟨rfl, rfl⟩ := denotes.unique hdenotes
    obtain ⟨htake, hdrop⟩ := split_at_length heq hlength
    obtain rfl := List.append_cancel_left (htext.trans heq)
    rw [hlength]
    simp only [htake, hdrop]
  | fault complaint length =>
    rw [hpiece] at hfits
    exact absurd denotes (hfits.not_token longest)

theorem scanFrom_blank (place : Place) (rest : List Char) :
    scanFrom place (' ' :: rest) = scanFrom (place.right 1) rest := by
  have hpiece : piece ' ' rest = .gap 0 := rfl
  rw [scanFrom, hpiece]
  rfl

end BasicToC
