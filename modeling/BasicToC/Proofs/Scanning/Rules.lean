import BasicToC.Proofs.Decimal.Nearest
import BasicToC.Proofs.Scanning.Tokens
import Mathlib.Data.List.Infix

/-!
# The rules of tokens

What a token may look like and what it stands for, said without reading a text from left to right.

* `Rule`, `Rule.Matches`: the five rules and the texts that they describe.
* `Longest`: the longest head of a text that a rule describes.
* `Rule.Denotes`: the kind and the value that a lexeme stands for.
* `Unreadable`: the numerals that stand for no number.
* `Matches.starts`, `Starts.unique`: the first character decides which rule applies.
* `Denotes.number_iff`, `Denotes.word_iff`: when a numeral is a real one, and a word a keyword.
-/

set_option autoImplicit false

namespace BasicToC

/-- The rules that say what may be a token. -/
inductive Rule where
  | newline | string | number | word | operator
  deriving DecidableEq, Repr

/-- The texts that a rule describes. There is no way to write a quote inside a text in quotes, so the
next quote ends it. -/
inductive Rule.Matches : Rule → List Char → Prop
  | newline : Matches .newline ['\n']
  | string {inner : List Char} (verbatim : ∀ c ∈ inner, c ≠ '"' ∧ c ≠ '\n') :
      Matches .string ('"' :: inner ++ ['"'])
  | whole {digits : List Char} (some : digits ≠ []) (all : ∀ c ∈ digits, c.isDigit) :
      Matches .number digits
  | real {digits fraction : List Char} (some : digits ≠ []) (all : ∀ c ∈ digits, c.isDigit)
      (behind : ∀ c ∈ fraction, c.isDigit) : Matches .number (digits ++ '.' :: fraction)
  | word {first : Char} {more : List Char} (letter : first.isAlpha)
      (others : ∀ c ∈ more, c.isAlpha ∨ c.isDigit ∨ c = '_') : Matches .word (first :: more)
  | operator {kind : Token.Kind} (known : kind ∈ Token.Kind.operators) :
      Matches .operator kind.spelling.toList

/-- The longest head of a text that any of the rules describes. -/
structure Longest (text lexeme : List Char) : Prop where
  head : lexeme <+: text
  matched : ∃ rule : Rule, rule.Matches lexeme
  longest : ∀ (rule : Rule) (other : List Char), rule.Matches other → other <+: text →
    other.length ≤ lexeme.length

/-- The number spelt by digits in front of a point and behind it. -/
def amount (digits fraction : List Char) : ℚ :=
  digitsValue digits + digitsValue fraction / 10 ^ fraction.length

/-- The kind and the value that a lexeme of a rule stands for. -/
inductive Rule.Denotes : Rule → List Char → Token.Kind → Value → Prop
  | newline : Denotes .newline ['\n'] .newline .absent
  | string {inner : List Char} (verbatim : ∀ c ∈ inner, c ≠ '"' ∧ c ≠ '\n') :
      Denotes .string ('"' :: inner ++ ['"']) .string (.text (String.ofList inner))
  | integer {digits : List Char} (some : digits ≠ []) (all : ∀ c ∈ digits, c.isDigit)
      (few : digits.length ≤ 4300) (small : digitsValue digits ≤ 2 ^ 63 - 1) :
      Denotes .number digits .integer (.whole (digitsValue digits))
  | float {digits fraction : List Char} {significand : Nat} {exponent : Int} (some : digits ≠ [])
      (all : ∀ c ∈ digits, c.isDigit) (behind : ∀ c ∈ fraction, c.isDigit)
      (rounded : Binary64.RoundsTo (amount digits fraction) significand exponent) :
      Denotes .number (digits ++ '.' :: fraction) .float
        (.real (.finite false significand exponent))
  | keyword {kind : Token.Kind} (known : kind ∈ Token.Kind.keywords) :
      Denotes .word kind.spelling.toList kind .absent
  | name {word : List Char} (matched : Rule.word.Matches word)
      (other : ∀ kind ∈ Token.Kind.keywords, kind.spelling.toList ≠ word) :
      Denotes .word word .ident (.text (String.ofList word))
  | operator {kind : Token.Kind} (known : kind ∈ Token.Kind.operators) :
      Denotes .operator kind.spelling.toList kind .absent

/-- The numerals that stand for no number: whole ones with too many digits or of too great a value,
and real ones that round to infinity. -/
inductive Unreadable : List Char → Prop
  | long {digits : List Char} (some : digits ≠ []) (all : ∀ c ∈ digits, c.isDigit)
      (many : 4300 < digits.length) : Unreadable digits
  | great {digits : List Char} (some : digits ≠ []) (all : ∀ c ∈ digits, c.isDigit)
      (large : 2 ^ 63 - 1 < digitsValue digits) : Unreadable digits
  | infinite {digits fraction : List Char} (some : digits ≠ []) (all : ∀ c ∈ digits, c.isDigit)
      (behind : ∀ c ∈ fraction, c.isDigit)
      (large : Binary64.tooLarge ≤ amount digits fraction) : Unreadable (digits ++ '.' :: fraction)

/-! ## The first character -/

/-- The characters that a lexeme of a rule starts with. -/
def Rule.Starts : Rule → Char → Prop
  | .newline, c => c = '\n'
  | .string, c => c = '"'
  | .number, c => c.isDigit
  | .word, c => c.isAlpha
  | .operator, c => c ∈ ['=', '+', '-', '*', '/', '!', '<', '>']

theorem isAlpha_not_isDigit {c : Char} (h : c.isAlpha) : ¬ c.isDigit := by
  intro hd
  have hletter : (decide ('A'.val ≤ c.val ∧ c.val ≤ 'Z'.val) ||
      decide ('a'.val ≤ c.val) && decide (c.val ≤ 'z'.val)) = true := h
  have hdigit : (decide ('0'.val ≤ c.val) && decide (c.val ≤ '9'.val)) = true := hd
  simp only [Bool.or_eq_true, Bool.and_eq_true, decide_eq_true_eq,
    UInt32.le_iff_toNat_le] at hletter hdigit
  simp at hletter hdigit
  omega

theorem operatorStart_plain (c : Char) (h : Rule.operator.Starts c) :
    c ≠ '\n' ∧ c ≠ '"' ∧ c.isDigit = false ∧ c.isAlpha = false := by
  simp only [Rule.Starts, List.mem_cons, List.not_mem_nil, or_false] at h
  rcases h with rfl | rfl | rfl | rfl | rfl | rfl | rfl | rfl <;> decide

/-- **No character starts lexemes of two rules.** -/
theorem Rule.Starts.unique {rule other : Rule} {c : Char} (h : rule.Starts c) (h' : other.Starts c) :
    rule = other := by
  have hplain := operatorStart_plain c
  have halpha := @isAlpha_not_isDigit c
  have hnewline : '\n'.isDigit = false ∧ '\n'.isAlpha = false := by decide
  have hquote : '"'.isDigit = false ∧ '"'.isAlpha = false := by decide
  cases rule <;> cases other <;> simp_all [Rule.Starts]

theorem operator_starts : ∀ kind ∈ Token.Kind.operators, ∃ c more,
    kind.spelling.toList = c :: more ∧ Rule.operator.Starts c := by
  intro kind h
  have hall : ∀ kind ∈ Token.Kind.operators, (kind.spelling.toList.head?.all fun c =>
      ['=', '+', '-', '*', '/', '!', '<', '>'].contains c) = true := by decide
  have hsome : ∀ kind ∈ Token.Kind.operators, kind.spelling.toList ≠ [] := by decide
  obtain ⟨c, more, heq⟩ := List.exists_cons_of_ne_nil (hsome kind h)
  have hstart := hall kind h
  rw [heq, List.head?_cons, Option.all_some] at hstart
  exact ⟨c, more, heq, List.contains_iff_mem.1 hstart⟩

/-- Every lexeme starts with a character of its rule. -/
theorem Rule.Matches.starts {rule : Rule} {lexeme : List Char} (h : rule.Matches lexeme) :
    ∃ c more, lexeme = c :: more ∧ rule.Starts c := by
  cases h with
  | newline => exact ⟨_, _, rfl, rfl⟩
  | string => exact ⟨_, _, rfl, rfl⟩
  | whole some all =>
    obtain ⟨c, more, rfl⟩ := List.exists_cons_of_ne_nil some
    exact ⟨c, more, rfl, all c List.mem_cons_self⟩
  | real some all =>
    obtain ⟨c, more, rfl⟩ := List.exists_cons_of_ne_nil some
    exact ⟨c, _, rfl, all c List.mem_cons_self⟩
  | word letter => exact ⟨_, _, rfl, letter⟩
  | operator known => exact operator_starts _ known

theorem Rule.Matches.length_pos {rule : Rule} {lexeme : List Char} (h : rule.Matches lexeme) :
    0 < lexeme.length := by
  obtain ⟨c, more, rfl, _⟩ := h.starts
  exact Nat.succ_pos _

theorem Rule.Matches.rule_eq {rule other : Rule} {lexeme : List Char} (h : rule.Matches lexeme)
    (h' : other.Matches lexeme) : rule = other := by
  obtain ⟨c, more, rfl, hc⟩ := h.starts
  obtain ⟨d, _, heq, hd⟩ := h'.starts
  cases heq
  exact hc.unique hd

/-- Only the lexemes of one rule have to be compared. -/
theorem Longest.of_rule {rule : Rule} {text lexeme : List Char} (head : lexeme <+: text)
    (matched : rule.Matches lexeme)
    (longest : ∀ other, rule.Matches other → other <+: text → other.length ≤ lexeme.length) :
    Longest text lexeme where
  head := head
  matched := ⟨rule, matched⟩
  longest other_rule other hother hhead := by
    obtain ⟨c, more, rfl, hc⟩ := matched.starts
    obtain ⟨d, more', rfl, hd⟩ := hother.starts
    obtain ⟨rest, rfl⟩ := head
    obtain rfl : d = c := (List.cons_prefix_cons.1 hhead).1
    obtain rfl := hc.unique hd
    exact longest _ hother hhead

/-- A text has one longest head. -/
theorem Longest.unique {text a b : List Char} (ha : Longest text a) (hb : Longest text b) : a = b := by
  obtain ⟨rule, hmatched⟩ := ha.matched
  obtain ⟨rule', hmatched'⟩ := hb.matched
  have hle := hb.longest rule a hmatched ha.head
  have hge := ha.longest rule' b hmatched' hb.head
  exact (List.prefix_of_prefix_length_le ha.head hb.head hle).eq_of_length (by omega)

/-- A line feed is a lexeme and stands in no other one. -/
theorem Rule.Matches.lineFeed {rule : Rule} {lexeme : List Char} (h : rule.Matches lexeme)
    (hne : rule ≠ .newline) : '\n' ∉ lexeme := by
  have hdigits : ∀ digits : List Char, (∀ c ∈ digits, c.isDigit) → '\n' ∉ digits :=
    fun digits all hmem => absurd (all _ hmem) (by decide)
  cases h with
  | newline => exact absurd rfl hne
  | string verbatim =>
    intro hmem
    simp only [List.cons_append, List.mem_cons, List.mem_append, List.not_mem_nil, or_false] at hmem
    rcases hmem with h | h | h
    · exact absurd h (by decide)
    · exact (verbatim _ h).2 rfl
    · exact absurd h (by decide)
  | whole some all => exact hdigits _ all
  | real some all behind =>
    intro hmem
    rcases List.mem_append.1 hmem with h | h
    · exact hdigits _ all h
    · rcases List.mem_cons.1 h with h | h
      · exact absurd h (by decide)
      · exact hdigits _ behind h
  | word letter others =>
    intro hmem
    rcases List.mem_cons.1 hmem with rfl | h
    · exact absurd letter (by decide)
    · exact absurd (others _ h) (by decide)
  | operator known =>
    have hall : ∀ kind ∈ Token.Kind.operators, '\n' ∉ kind.spelling.toList := by decide
    exact hall _ known

/-! ## What a lexeme stands for -/

theorem keyword_matches : ∀ kind ∈ Token.Kind.keywords, Rule.word.Matches kind.spelling.toList := by
  have hletters : ∀ kind ∈ Token.Kind.keywords, kind.spelling.toList.all Char.isAlpha = true := by
    decide
  have hsome : ∀ kind ∈ Token.Kind.keywords, kind.spelling.toList ≠ [] := by decide
  intro kind h
  obtain ⟨c, more, heq⟩ := List.exists_cons_of_ne_nil (hsome kind h)
  have hall := List.all_eq_true.1 (hletters kind h)
  rw [heq] at hall ⊢
  exact .word (hall c List.mem_cons_self) fun d hd => .inl (hall d (List.mem_cons_of_mem _ hd))

theorem takeWhile_digits {digits : List Char} (all : ∀ c ∈ digits, c.isDigit) (fraction : List Char) :
    (digits ++ '.' :: fraction).takeWhile Char.isDigit = digits := by
  rw [List.takeWhile_append_of_pos all, List.takeWhile_cons_of_neg (by decide), List.append_nil]

/-- The first point splits a numeral. -/
theorem point_splits {digits digits' fraction fraction' : List Char} (all : ∀ c ∈ digits, c.isDigit)
    (all' : ∀ c ∈ digits', c.isDigit) (h : digits ++ '.' :: fraction = digits' ++ '.' :: fraction') :
    digits = digits' ∧ fraction = fraction' := by
  have hdigits := congrArg (List.takeWhile Char.isDigit) h
  rw [takeWhile_digits all, takeWhile_digits all'] at hdigits
  subst hdigits
  exact ⟨rfl, (List.cons_eq_cons.1 (List.append_cancel_left h)).2⟩

theorem point_not_digits {digits : List Char} (all : ∀ c ∈ digits, c.isDigit) : '.' ∉ digits :=
  fun h => absurd (all _ h) (by decide)

namespace Rule.Denotes

variable {rule : Rule} {lexeme : List Char} {kind : Token.Kind} {value : Value}

/-- Only what a rule describes stands for something by it. -/
theorem matched (h : rule.Denotes lexeme kind value) : rule.Matches lexeme := by
  cases h with
  | newline => exact .newline
  | string verbatim => exact .string verbatim
  | integer some all => exact .whole some all
  | float some all behind => exact .real some all behind
  | keyword known => exact keyword_matches kind known
  | name matched => exact matched
  | operator known => exact .operator known

/-- **A numeral is a real one exactly when it has a point, and a whole one otherwise.** -/
theorem number_iff (h : Rule.number.Denotes lexeme kind value) :
    (kind = .float ↔ '.' ∈ lexeme) ∧ (kind = .integer ↔ '.' ∉ lexeme) := by
  cases h with
  | integer some all => simp [point_not_digits all]
  | float => simp

/-- **A word is a keyword exactly when the whole of it is one, and a name otherwise.** -/
theorem word_iff (h : Rule.word.Denotes lexeme kind value) :
    (kind ∈ Token.Kind.keywords ↔
        ∃ keyword ∈ Token.Kind.keywords, keyword.spelling.toList = lexeme) ∧
      (kind ∉ Token.Kind.keywords → kind = .ident ∧ value = .text (String.ofList lexeme)) := by
  cases h with
  | keyword known => exact ⟨⟨fun h => ⟨_, h, rfl⟩, fun _ => known⟩, fun h => absurd known h⟩
  | name matched other =>
    refine ⟨⟨fun h => absurd h (by decide), ?_⟩, fun _ => ⟨rfl, rfl⟩⟩
    rintro ⟨keyword, hmem, heq⟩
    exact absurd heq (other keyword hmem)

end Rule.Denotes

theorem Unreadable.matched {lexeme : List Char} (h : Unreadable lexeme) :
    Rule.number.Matches lexeme := by
  cases h with
  | long some all => exact .whole some all
  | great some all => exact .whole some all
  | infinite some all behind => exact .real some all behind

/-- What stands for no number stands for nothing. -/
theorem Unreadable.not_denotes {rule : Rule} {lexeme : List Char} {kind : Token.Kind} {value : Value}
    (h : Unreadable lexeme) : ¬ rule.Denotes lexeme kind value := by
  intro hd
  obtain rfl := h.matched.rule_eq hd.matched
  have hpoint := hd.number_iff
  cases h with
  | long some all many =>
    cases hd with
    | integer _ _ few => omega
    | float => exact point_not_digits all (by simp)
  | great some all large =>
    cases hd with
    | integer _ _ _ small => omega
    | float => exact point_not_digits all (by simp)
  | infinite some all behind large =>
    generalize hlexeme : _ ++ '.' :: _ = lexeme at hd
    cases hd with
    | integer _ all' => exact point_not_digits all' (by simp [← hlexeme])
    | float _ all' _ rounded =>
      obtain ⟨rfl, rfl⟩ := point_splits all all' hlexeme
      exact absurd rounded.inRange (not_lt.2 large)

end BasicToC
