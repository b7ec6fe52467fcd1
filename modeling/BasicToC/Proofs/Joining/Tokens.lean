import BasicToC.Proofs.Layout.Tokens

/-!
# The tokens of joined texts

Two texts with a line feed between them are read as the tokens of the first, the line end, and the
tokens of the second, which only stand elsewhere.

* `takeWhile_behind`, `numeralLength_behind_line`: a line feed ends whatever stops at one.
* `piece_behind_line`: what heads a text does not change when more lines follow.
* `Scan.behind`: tokens that have been read in front.
* `scanFrom_joined`: the tokens of joined texts.
* `scanFrom_moved`: the tokens of a text that stands elsewhere.
* `scan_joined`: two whole texts, joined.
-/

set_option autoImplicit false

namespace BasicToC

variable {c : Char} {text rest more : List Char}

/-! ## The head of a text in front of a line feed -/

theorem takeWhile_behind {α : Type} {p : α → Bool} {x : α} (hx : p x = false) (front back : List α) :
    (front ++ x :: back).takeWhile p = front.takeWhile p := by
  induction front with
  | nil => simp [hx]
  | cons a front ih =>
    by_cases ha : p a = true <;> simp [ha, ih]

theorem numeralLength_behind_line (pointMet : Bool) (text more : List Char) :
    Lexeme.numeralLength pointMet (text ++ '\n' :: more) = Lexeme.numeralLength pointMet text := by
  induction text generalizing pointMet with
  | nil =>
    have hdigit : ('\n' : Char).isDigit = false := by decide
    simp [Lexeme.numeralLength, hdigit]
  | cons c text ih => simp [Lexeme.numeralLength, ih]

theorem numeralLength_le (pointMet : Bool) (text : List Char) :
    Lexeme.numeralLength pointMet text ≤ text.length := by
  induction text generalizing pointMet with
  | nil => exact Nat.le_refl 0
  | cons c text ih =>
    have hmet := ih pointMet
    have hnow := ih true
    simp only [Lexeme.numeralLength, List.length_cons]
    split
    · omega
    · split <;> omega

/-- No operator holds a line feed. -/
theorem operator_behind_line (c : Char) : Token.Kind.operator? [c, '\n'] = none := by
  refine List.find?_eq_none.2 fun kind hkind => ?_
  have hall : ∀ kind ∈ Token.Kind.operators, '\n' ∉ kind.spelling.toList := by decide
  rw [beq_iff_eq]
  exact fun heq => hall kind hkind (heq ▸ by simp)

theorem quotedPiece_behind_line (rest more : List Char) :
    quotedPiece (rest ++ '\n' :: more) = quotedPiece rest := by
  unfold quotedPiece
  rw [takeWhile_behind (by decide)]
  generalize hinner : rest.takeWhile (fun c => c != '"' && c != '\n') = inner
  have hle : inner.length ≤ rest.length := hinner ▸ (List.takeWhile_prefix _).length_le
  simp only
  rw [List.drop_append_of_le_length hle]
  cases rest.drop inner.length with
  | nil => rfl
  | cons d others =>
    by_cases hd : d = '"'
    · rw [hd]
      rfl
    · simp [hd]

/-- **What heads a text does not change when more lines follow.** -/
theorem piece_behind_line (c : Char) (rest more : List Char) :
    piece c (rest ++ '\n' :: more) = piece c rest := by
  have htext : c :: (rest ++ '\n' :: more) = (c :: rest) ++ '\n' :: more := rfl
  have hword : Lexeme.wordLength (c :: (rest ++ '\n' :: more)) = Lexeme.wordLength (c :: rest) := by
    unfold Lexeme.wordLength
    rw [htext, takeWhile_behind (by decide)]
  have hwordLe : Lexeme.wordLength (c :: rest) ≤ (c :: rest).length :=
    (List.takeWhile_prefix _).length_le
  have hnumeral : Lexeme.numeralLength false (c :: (rest ++ '\n' :: more)) =
      Lexeme.numeralLength false (c :: rest) := numeralLength_behind_line false (c :: rest) more
  have hoperator : Lexeme.pickOperator (c :: (rest ++ '\n' :: more).take 1) [c] =
      Lexeme.pickOperator (c :: rest.take 1) [c] := by
    cases rest with
    | nil => simp [Lexeme.pickOperator, operator_behind_line]
    | cons d rest => rfl
  unfold piece
  rw [hword, hnumeral, hoperator, quotedPiece_behind_line, takeWhile_behind (by decide), htext,
    List.take_append_of_le_length hwordLe,
    List.take_append_of_le_length (numeralLength_le false (c :: rest))]

/-- What is skipped at the head of a text is no longer than the text, and so is a token. -/
theorem gap_le {taken : Nat} (h : piece c rest = .gap taken) : taken ≤ rest.length := by
  have hfits := piece_fits c rest
  rw [h] at hfits
  obtain ⟨gap, others, htext, hlength, -⟩ := hfits
  exact length_at_head htext hlength

theorem token_le {kind : Token.Kind} {value : Value} {taken : Nat}
    (h : piece c rest = .token kind value taken) : taken ≤ rest.length := by
  have hfits := piece_fits c rest
  rw [h] at hfits
  obtain ⟨rule, lexeme, others, htext, hlength, -⟩ := hfits
  exact length_at_head htext hlength

/-! ## Joined texts -/

/-- The same reading with tokens in front. -/
def Scan.behind (front : List Token) (scan : Scan) : Scan :=
  { scan with tokens := front ++ scan.tokens }

theorem Scan.behind_cons (front : List Token) (scan : Scan) (token : Token) :
    (scan.behind front).cons token = scan.behind (token :: front) := rfl

theorem scanFrom_ne_nil {place : Place} (h : (scanFrom place text).fault? = none) :
    (scanFrom place text).tokens ≠ [] := by
  obtain ⟨ts, stop, htokens, -⟩ := (scanFrom_munches place text).ended h
  simp [htokens]

/-- **The tokens of joined texts** are those of the first up to the mark for its end, the line end
in the place of that mark, and those that are read behind it. -/
theorem scanFrom_joined {place : Place} (h : (scanFrom place text).fault? = none) :
    scanFrom place (text ++ '\n' :: more) =
      (scanFrom (scanFrom place text).stop.below more).behind
        ((scanFrom place text).tokens.dropLast ++
          [(scanFrom place text).stop.token .newline .absent ['\n']]) := by
  fun_induction scanFrom place text with
  | case1 place =>
    have hpiece : piece '\n' more = .lineEnd := rfl
    rw [List.nil_append, scanFrom, hpiece]
    rfl
  | case2 place c rest hpiece ih =>
    have hne := scanFrom_ne_nil h
    rw [List.cons_append, scanFrom, piece_behind_line, hpiece]
    simp only
    rw [ih h, Scan.behind_cons]
    simp [Scan.cons, List.dropLast_cons_of_ne_nil hne]
  | case3 place c rest taken hpiece ih =>
    have hle : taken ≤ rest.length := gap_le hpiece
    rw [List.cons_append, scanFrom, piece_behind_line, hpiece]
    simp only
    rw [List.drop_append_of_le_length hle, ih h]
  | case4 place c rest kind value taken hpiece ih =>
    have hle : taken ≤ rest.length := token_le hpiece
    have hne := scanFrom_ne_nil h
    rw [List.cons_append, scanFrom, piece_behind_line, hpiece]
    simp only
    rw [List.drop_append_of_le_length hle, List.take_append_of_le_length hle, ih h,
      Scan.behind_cons]
    simp [Scan.cons, List.dropLast_cons_of_ne_nil hne]
  | case5 => cases h

/-- **A text that stands elsewhere has the same tokens**, up to their places, and no other faults. -/
theorem scanFrom_moved (place place' : Place) (text : List Char) :
    List.Forall₂ Token.Twin (scanFrom place text).tokens (scanFrom place' text).tokens ∧
      ((scanFrom place text).fault? = none ↔ (scanFrom place' text).fault? = none) := by
  fun_induction scanFrom place text generalizing place' with
  | case1 place =>
    rw [scanFrom]
    exact ⟨.cons ⟨rfl, rfl⟩ .nil, Iff.rfl⟩
  | case2 place c rest hpiece ih =>
    rw [scanFrom, hpiece]
    exact ⟨.cons ⟨rfl, rfl⟩ (ih _).1, (ih _).2⟩
  | case3 place c rest taken hpiece ih =>
    rw [scanFrom, hpiece]
    exact ih _
  | case4 place c rest kind value taken hpiece ih =>
    rw [scanFrom, hpiece]
    exact ⟨.cons ⟨rfl, rfl⟩ (ih _).1, (ih _).2⟩
  | case5 place c rest complaint length hpiece =>
    rw [scanFrom, hpiece]
    exact ⟨.nil, by simp⟩

/-- **Two whole texts, joined.** The tokens of the second stand elsewhere, but are the same. -/
theorem scan_joined {source next : String} {ts us : List Token} (hscan : Token.scan source = .ok ts)
    (hscan' : Token.scan next = .ok us) : ∃ line moved stop,
      Token.scan (source ++ "\n" ++ next) = .ok (ts.dropLast ++ line :: moved ++ [stop]) ∧
      line.kind = .newline ∧ stop.kind = .eof ∧ (∀ token ∈ moved, token.Proper) ∧
      List.Forall₂ Token.Twin us (moved ++ [stop]) := by
  obtain ⟨place, hplace⟩ : ∃ place, (scanText source).stop = place := ⟨_, rfl⟩
  have hfault := Token.scan_fault hscan
  have hmoved := scanFrom_moved {} place.below next.toList
  have hfault' : (scanFrom place.below next.toList).fault? = none :=
    hmoved.2.1 (Token.scan_fault hscan')
  obtain ⟨moved, stop, htokens, hstop, hproper⟩ := (scanFrom_sound place.below next.toList).tokens hfault'
  have htwins : List.Forall₂ Token.Twin (scanText next).tokens (moved ++ [stop]) := htokens ▸ hmoved.1
  refine ⟨place.token .newline .absent ['\n'], moved, stop, ?_, rfl, hstop, hproper, ?_⟩
  · have htext : (source ++ "\n" ++ next).toList = source.toList ++ '\n' :: next.toList := by simp
    have hjoined : scanText (source ++ "\n" ++ next) =
        (scanFrom place.below next.toList).behind
          ((scanText source).tokens.dropLast ++ [place.token .newline .absent ['\n']]) := by
      unfold scanText
      rw [htext, scanFrom_joined hfault, ← hplace]
      rfl
    unfold Token.scan
    simp only [hjoined, Scan.behind, hfault', htokens, Token.scan_tokens hscan]
    simp
  · rwa [Token.scan_tokens hscan'] at htwins

end BasicToC
