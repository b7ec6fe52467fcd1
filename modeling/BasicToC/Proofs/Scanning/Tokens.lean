import BasicToC.Proofs.Grammar.Derivation
import BasicToC.Proofs.Names.Ledger
import BasicToC.Token.Scan

/-!
# The tokens of a text

* `Token.Kind.Carries`: what a token of a given kind carries.
* `numeral_sound`, `piece_sound`: what is read of a numeral, and what stands at the head of a text.
* `Scan.Sound`, `scanFrom_sound`: the tokens of a text carry what their kinds ask for, and one mark
  stands at their end and nowhere else; every fault is lexical.
-/

set_option autoImplicit false

namespace BasicToC

/-- What a token of a given kind carries: names and texts in quotes their characters, numbers their
value, all others nothing. -/
def Token.Kind.Carries : Token.Kind → Value → Prop
  | .ident, v | .string, v => v.IsText
  | .integer, v => ∃ n, v = .whole n
  | .float, v => ∃ negative significand exponent, v = .real (.finite negative significand exponent)
  | _, v => v = .absent

/-- A token that a program is made of: no mark for its end, and carrying what its kind asks for. -/
structure Token.Proper (token : Token) : Prop where
  kind : token.kind ≠ .eof
  value : token.kind.Carries token.value

/-! ## The head of a text -/

section Head

variable {kind : Token.Kind}

theorem keyword_carries {word : List Char} (h : Token.Kind.keyword? word = some kind) :
    kind ≠ .eof ∧ kind.Carries .absent := by
  have hmem : kind ∈ Token.Kind.keywords := List.mem_of_find?_eq_some h
  revert hmem
  cases kind <;> simp [Token.Kind.keywords, Token.Kind.Carries]

theorem operator_carries {spelling : List Char} (h : Token.Kind.operator? spelling = some kind) :
    kind ≠ .eof ∧ kind.Carries .absent := by
  have hmem : kind ∈ Token.Kind.operators := List.mem_of_find?_eq_some h
  revert hmem
  cases kind <;> simp [Token.Kind.operators, Token.Kind.Carries]

theorem pickOperator_carries {two one spelling : List Char}
    (h : Lexeme.pickOperator two one = some (kind, spelling)) :
    kind ≠ .eof ∧ kind.Carries .absent := by
  unfold Lexeme.pickOperator at h
  split at h
  · rename_i two' htwo
    cases h
    split at htwo
    · exact operator_carries htwo
    · cases htwo
  · split at h
    · obtain ⟨k, hk, he⟩ := Option.map_eq_some_iff.1 h
      cases he
      exact operator_carries hk
    · cases h

theorem wordKind_carries (word : List Char) :
    (Lexeme.wordKind word).1 ≠ .eof ∧ (Lexeme.wordKind word).1.Carries (Lexeme.wordKind word).2 := by
  unfold Lexeme.wordKind
  split
  · rename_i kind h
    exact keyword_carries h
  · exact ⟨by simp, _, rfl⟩

/-- What is read of a numeral is like: a number within bounds, or a lexical fault. -/
def NumeralSound : Except Complaint (Token.Kind × Value) → Prop
  | .ok (kind, value) => kind ≠ .eof ∧ kind.Carries value
  | .error complaint => complaint.category = .lexical

theorem realNumeral_sound (lexeme : List Char) : NumeralSound (Lexeme.realNumeral lexeme) := by
  unfold Lexeme.realNumeral
  simp only
  split
  · exact rfl
  · split
    · exact ⟨by decide, _, _, _, rfl⟩
    · exact rfl

theorem wholeNumeral_sound (lexeme : List Char) : NumeralSound (Lexeme.wholeNumeral lexeme) := by
  unfold Lexeme.wholeNumeral
  split
  · exact rfl
  · split
    · exact rfl
    · exact ⟨by decide, _, rfl⟩

/-- **Every numeral that stands for no number is a lexical fault.** -/
theorem numeral_sound (hasPoint : Bool) (lexeme : List Char) :
    NumeralSound (Lexeme.numeral hasPoint lexeme) := by
  unfold Lexeme.numeral
  split
  · exact realNumeral_sound lexeme
  · exact wholeNumeral_sound lexeme

/-- What stands at the head of a text is like: a token that carries what its kind asks for, or a
lexical fault. -/
def Piece.Sound : Piece → Prop
  | .token kind value _ => kind ≠ .eof ∧ kind.Carries value
  | .fault complaint _ => complaint.category = .lexical
  | .lineEnd | .gap _ => True

theorem quotedPiece_sound (rest : List Char) : (quotedPiece rest).Sound := by
  unfold quotedPiece
  simp only
  split
  · exact ⟨by decide, _, rfl⟩
  · exact rfl

theorem piece_sound (c : Char) (rest : List Char) : (piece c rest).Sound := by
  unfold piece
  split
  · trivial
  split
  · trivial
  split
  · trivial
  split
  · exact quotedPiece_sound rest
  split
  · simp only
    have hnumeral := numeral_sound
      (((c :: rest).take (Lexeme.numeralLength false (c :: rest))).contains '.')
      ((c :: rest).take (Lexeme.numeralLength false (c :: rest)))
    split <;> rename_i h <;> rw [h] at hnumeral <;> exact hnumeral
  split
  · exact wordKind_carries _
  · split
    · rename_i h
      exact pickOperator_carries h
    · exact rfl

end Head

/-! ## A whole text -/

/-- What a scan is like: either it stopped at a lexical fault, or its tokens are proper ones and the
mark for the end. -/
structure Scan.Sound (scan : Scan) : Prop where
  fault : ∀ rejection, scan.fault? = some rejection → rejection.complaint.category = .lexical
  tokens : scan.fault? = none → ∃ ts stop, scan.tokens = ts ++ [stop] ∧ stop.kind = .eof ∧
    ∀ token ∈ ts, token.Proper

theorem Scan.Sound.cons {scan : Scan} (h : scan.Sound) {token : Token} (ht : token.Proper) :
    (scan.cons token).Sound where
  fault := h.fault
  tokens hf := by
    obtain ⟨ts, stop, htokens, hstop, hts⟩ := h.tokens hf
    refine ⟨token :: ts, stop, ?_, hstop, ?_⟩
    · show token :: scan.tokens = token :: ts ++ [stop]
      rw [htokens]
      rfl
    · intro t hm
      rcases List.mem_cons.1 hm with rfl | hm
      · exact ht
      · exact hts t hm

/-- The induction follows the pieces of the text, each of which adds at most one token. -/
theorem scanFrom_sound (place : Place) (text : List Char) : (scanFrom place text).Sound := by
  fun_induction scanFrom place text with
  | case1 place => exact ⟨by simp, fun _ => ⟨[], _, rfl, rfl, by simp⟩⟩
  | case2 place c rest h ih => exact ih.cons ⟨by simp [Place.token], rfl⟩
  | case3 place c rest more h ih => exact ih
  | case4 place c rest kind value more h ih =>
    have hp := piece_sound c rest
    rw [h] at hp
    exact ih.cons ⟨hp.1, hp.2⟩
  | case5 place c rest complaint length h =>
    have hp := piece_sound c rest
    rw [h] at hp
    refine ⟨fun rejection he => ?_, by simp⟩
    cases he
    exact hp

/-- **The tokens of a text are proper ones, and behind them the mark for the end.** -/
theorem Token.scan_ok {source : String} {tokens : List Token} (h : Token.scan source = .ok tokens) :
    ∃ ts stop, tokens = ts ++ [stop] ∧ stop.kind = .eof ∧ ∀ token ∈ ts, token.Proper := by
  unfold Token.scan at h
  simp only at h
  split at h
  · cases h
  · rename_i hf
    cases h
    exact (scanFrom_sound {} source.toList).tokens hf

theorem Token.scan_tokens {source : String} {tokens : List Token}
    (h : Token.scan source = .ok tokens) : (scanText source).tokens = tokens := by
  unfold Token.scan at h
  simp only at h
  split at h
  · cases h
  · cases h
    rfl

theorem Token.scan_fault {source : String} {tokens : List Token}
    (h : Token.scan source = .ok tokens) : (scanText source).fault? = none := by
  unfold Token.scan at h
  simp only at h
  split at h
  · cases h
  · assumption

theorem Token.scan_rejection {source : String} {rejection : Rejection}
    (h : Token.scan source = .error rejection) : (scanText source).fault? = some rejection := by
  unfold Token.scan at h
  simp only at h
  split at h
  · rename_i hf
    cases h
    exact hf
  · cases h

theorem Token.scan_error {source : String} {rejection : Rejection}
    (h : Token.scan source = .error rejection) : rejection.complaint.category = .lexical := by
  unfold Token.scan at h
  simp only at h
  split at h
  · rename_i hf
    cases h
    exact (scanFrom_sound {} source.toList).fault _ hf
  · cases h

end BasicToC
