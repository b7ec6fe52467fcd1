import BasicToC.Proofs.Scanning.Pieces

/-!
# The longest token first

A text read by the rules alone: whatever is skipped, and at every other place the longest lexeme.

* `Munches`: the tokens of a text up to some place by the rules.
* `Munches.final_unique`: the rules decide where every token begins and ends, and where it stops.
* `scanFrom_munches`: reading a text follows the rules.
* `scan_is_maximal_munch`: the tokens of a text are those of the rules, and it is refused exactly
  when the rules get stuck in it.
-/

set_option autoImplicit false

namespace BasicToC

/-- The tokens of a text up to the place where `rest` is left: gaps are skipped, and each token is
written as the longest lexeme at its place and stands for what that lexeme does. -/
inductive Munches : List Char → List Token → List Char → Prop
  | stop (text : List Char) : Munches text [] text
  | gap {gap text rest : List Char} {ts : List Token} (skipped : Gap gap text)
      (more : Munches text ts rest) : Munches (gap ++ text) ts rest
  | token {rule : Rule} {lexeme text rest : List Char} {token : Token} {ts : List Token}
      (longest : Longest (lexeme ++ text) lexeme)
      (denotes : rule.Denotes lexeme token.kind token.value)
      (written : token.lexeme = String.ofList lexeme) (more : Munches text ts rest) :
      Munches (lexeme ++ text) (token :: ts) rest

/-! ## The rules decide -/

/-- A gap starts with a character of its own. -/
theorem Gap.starts {gap rest : List Char} (h : Gap gap rest) :
    ∃ c more, gap = c :: more ∧ c ∈ [' ', '\t', '\r', '#'] := by
  cases h with
  | blank blank =>
    rcases blank with rfl | rfl | rfl <;> exact ⟨_, _, rfl, by decide⟩
  | comment => exact ⟨_, _, rfl, by decide⟩

/-- No rule describes what starts like a gap. -/
theorem Gap.not_matches {gap text lexeme : List Char} {rule : Rule} (h : Gap gap text)
    (hm : rule.Matches lexeme) : ¬ lexeme <+: gap ++ text := by
  intro hprefix
  obtain ⟨c, more, rfl, hc⟩ := h.starts
  obtain ⟨d, more', rfl, hd⟩ := hm.starts
  obtain rfl : d = c := (List.cons_prefix_cons.1 hprefix).1
  obtain ⟨hnewline, hquote, hdigit, halpha, hoperator⟩ : d ≠ '\n' ∧ d ≠ '"' ∧ d.isDigit = false ∧
      d.isAlpha = false ∧ d ∉ ['=', '+', '-', '*', '/', '!', '<', '>'] := by
    simp only [List.mem_cons, List.not_mem_nil, or_false] at hc
    rcases hc with rfl | rfl | rfl | rfl <;> decide
  cases rule with
  | newline => exact hnewline hd
  | string => exact hquote hd
  | number => simp [Rule.Starts, hdigit] at hd
  | word => simp [Rule.Starts, halpha] at hd
  | operator => exact hoperator hd

/-- What a line has left to its end is decided by the text. -/
theorem LineOver.unique {a b rest rest' : List Char} (h : LineOver rest) (ha : '\n' ∉ a)
    (hb : '\n' ∉ b) (h' : LineOver rest') (heq : a ++ rest = b ++ rest') : a = b := by
  have hline : ∀ {inner tail : List Char}, '\n' ∉ inner → LineOver tail →
      (inner ++ tail).takeWhile (· != '\n') = inner := by
    intro inner tail hin hover
    refine takeWhile_eq_of_append (fun c hc => ?_) ?_
    · simpa using fun hne : c = '\n' => hin (hne ▸ hc)
    · rcases hover with rfl | ⟨more, rfl⟩ <;> simp
  rw [← hline ha h, heq, hline hb h']

theorem Gap.unique {gap gap' text text' : List Char} (h : Gap gap text) (h' : Gap gap' text')
    (heq : gap ++ text = gap' ++ text') : gap = gap' := by
  cases h with
  | blank blank =>
    cases h' with
    | blank => simpa using (List.cons_eq_cons.1 heq).1
    | comment =>
      obtain rfl := (List.cons_eq_cons.1 heq).1
      exact absurd blank (by decide)
  | comment inLine ended =>
    cases h' with
    | blank blank =>
      obtain rfl := (List.cons_eq_cons.1 heq).1
      exact absurd blank (by decide)
    | comment inLine' ended' =>
      rw [ended.unique inLine inLine' ended' (List.cons_eq_cons.1 heq).2]

/-- Where the rules are stuck there is no gap. -/
theorem Stuck.not_gap {gap text : List Char} (h : Stuck (gap ++ text)) : ¬ Gap gap text := by
  intro hgap
  obtain ⟨c, more, rfl, hc⟩ := hgap.starts
  generalize heq : c :: more ++ text = whole at h
  cases h with
  | unknown blank hash quote none =>
    obtain rfl := (List.cons_eq_cons.1 heq).1
    simp only [List.mem_cons, List.not_mem_nil, or_false] at hc
    tauto
  | unclosed =>
    obtain rfl := (List.cons_eq_cons.1 heq).1
    exact absurd hc (by decide)
  | numeral longest unreadable =>
    subst heq
    exact hgap.not_matches unreadable.matched longest.head

/-- Where the rules are stuck there is no token. -/
theorem Stuck.not_token {rule : Rule} {lexeme text : List Char} {kind : Token.Kind} {value : Value}
    (h : Stuck text) (longest : Longest text lexeme) : ¬ rule.Denotes lexeme kind value := by
  intro hd
  cases h with
  | unknown _ _ _ none => exact none rule lexeme hd.matched longest.head
  | @unclosed inner rest verbatim ended =>
    obtain ⟨c, more, hlexeme, hc⟩ := hd.matched.starts
    have hquote : c = '"' := by
      have hhead := longest.head
      rw [hlexeme] at hhead
      exact (List.cons_prefix_cons.1 hhead).1
    obtain rfl : rule = .string := hc.unique hquote
    cases hd with
    | string verbatim' =>
      obtain ⟨tail, htail⟩ := longest.head
      simp only [List.cons_append, List.append_assoc, List.nil_append, List.cons.injEq,
        true_and] at htail
      have hinner := congrArg (List.takeWhile fun c => c != '"' && c != '\n') htail
      have hstop : ∀ c ∈ rest.head?, (c != '"' && c != '\n') = false := by
        rcases ended with rfl | ⟨more, rfl⟩ <;> simp
      rw [takeWhile_eq_of_append (by simpa using verbatim') (by simp),
        takeWhile_eq_of_append (by simpa using verbatim) hstop] at hinner
      subst hinner
      have hrest := List.append_cancel_left htail
      rcases ended with rfl | ⟨more, rfl⟩
      · exact absurd hrest (by simp)
      · exact absurd (List.cons_eq_cons.1 hrest).1 (by decide)
  | numeral longest' unreadable =>
    rw [longest.unique longest'] at hd
    exact unreadable.not_denotes hd

theorem stuck_nil : ¬ Stuck [] := by
  intro h
  cases h with
  | numeral longest unreadable =>
    have hempty := List.prefix_nil.1 longest.head
    have hsome := unreadable.matched.length_pos
    rw [hempty] at hsome
    exact absurd hsome (by decide)

/-- Where reading by the rules may stop: at the end of the text, or where they are stuck. -/
def Final (rest : List Char) : Prop := rest = [] ∨ Stuck rest

theorem Final.not_gap {gap text : List Char} (h : Final (gap ++ text)) : ¬ Gap gap text := by
  intro hgap
  obtain ⟨c, more, rfl, hc⟩ := hgap.starts
  exact h.elim (by simp) fun hstuck => hstuck.not_gap hgap

theorem Final.not_token {rule : Rule} {lexeme text : List Char} {kind : Token.Kind} {value : Value}
    (h : Final text) (longest : Longest text lexeme) : ¬ rule.Denotes lexeme kind value := by
  intro hd
  rcases h with rfl | hstuck
  · have hempty := List.prefix_nil.1 longest.head
    have hsome := hd.matched.length_pos
    rw [hempty] at hsome
    exact absurd hsome (by decide)
  · exact hstuck.not_token longest hd

/-- **The rules decide where every token begins and ends, and where it stops.** The induction is on
one of the two readings; the other one cannot but take the same step. -/
theorem Munches.final_unique {text rest : List Char} {ts : List Token} (h : Munches text ts rest)
    (hrest : Final rest) : ∀ {ts' : List Token} {rest' : List Char}, Munches text ts' rest' →
      Final rest' → rest = rest' ∧ ts.map Token.lexeme = ts'.map Token.lexeme := by
  induction h with
  | stop text =>
    intro ts' rest' h' hrest'
    cases h' with
    | stop => exact ⟨rfl, rfl⟩
    | gap skipped => exact absurd skipped hrest.not_gap
    | token longest denotes => exact absurd denotes (hrest.not_token longest)
  | @gap gap text rest ts skipped more ih =>
    intro ts' rest' h' hrest'
    generalize heq : gap ++ text = whole at h'
    cases h' with
    | stop =>
      subst heq
      exact absurd skipped hrest'.not_gap
    | gap skipped' more' =>
      obtain rfl := skipped.unique skipped' heq
      obtain rfl := List.append_cancel_left heq
      exact ih hrest more' hrest'
    | token longest denotes =>
      rw [← heq] at longest
      exact absurd longest.head (skipped.not_matches denotes.matched)
  | @token rule lexeme text rest token ts longest denotes written more ih =>
    intro ts' rest' h' hrest'
    generalize heq : lexeme ++ text = whole at h'
    cases h' with
    | stop =>
      subst heq
      exact absurd denotes (hrest'.not_token longest)
    | gap skipped =>
      rw [heq] at longest
      exact absurd longest.head (skipped.not_matches denotes.matched)
    | token longest' denotes' written' more' =>
      rw [heq] at longest
      obtain rfl := longest.unique longest'
      obtain rfl := List.append_cancel_left heq
      obtain ⟨hrests, hlexemes⟩ := ih hrest more' hrest'
      exact ⟨hrests, by rw [List.map_cons, List.map_cons, written, written', hlexemes]⟩

/-! ## Reading follows the rules -/

/-- What reading a text gives by the rules: all tokens and a mark for the end, or the tokens up to
where the rules are stuck. -/
structure Scan.Munched (text : List Char) (scan : Scan) : Prop where
  ended : scan.fault? = none → ∃ ts stop, scan.tokens = ts ++ [stop] ∧ stop.kind = .eof ∧
    Munches text ts []
  stuck : ∀ rejection, scan.fault? = some rejection → ∃ rest, Munches text scan.tokens rest ∧
    Stuck rest

theorem Scan.Munched.gap {text gap : List Char} {scan : Scan} (h : scan.Munched text)
    (skipped : Gap gap text) : scan.Munched (gap ++ text) where
  ended hf := by
    obtain ⟨ts, stop, htokens, hstop, hmunches⟩ := h.ended hf
    exact ⟨ts, stop, htokens, hstop, .gap skipped hmunches⟩
  stuck rejection hf := by
    obtain ⟨rest, hmunches, hstuck⟩ := h.stuck rejection hf
    exact ⟨rest, .gap skipped hmunches, hstuck⟩

theorem Scan.Munched.cons {rule : Rule} {text lexeme : List Char} {scan : Scan} {token : Token}
    (h : scan.Munched text) (longest : Longest (lexeme ++ text) lexeme)
    (denotes : rule.Denotes lexeme token.kind token.value)
    (written : token.lexeme = String.ofList lexeme) : (scan.cons token).Munched (lexeme ++ text) where
  ended hf := by
    obtain ⟨ts, stop, htokens, hstop, hmunches⟩ := h.ended hf
    refine ⟨token :: ts, stop, ?_, hstop, .token longest denotes written hmunches⟩
    show token :: scan.tokens = token :: ts ++ [stop]
    rw [htokens]
    rfl
  stuck rejection hf := by
    obtain ⟨rest, hmunches, hstuck⟩ := h.stuck rejection hf
    exact ⟨rest, .token longest denotes written hmunches, hstuck⟩

theorem longest_newline (rest : List Char) : Longest ('\n' :: rest) ['\n'] := by
  refine .of_rule ⟨rest, rfl⟩ .newline fun other hother _ => ?_
  cases hother
  exact le_rfl

/-- **Reading a text follows the rules.** The induction is on the pieces of the text, each of which
fits the rules. -/
theorem scanFrom_munches (place : Place) (text : List Char) : (scanFrom place text).Munched text := by
  induction place, text using scanFrom_induction with
  | stop place hscan =>
    rw [hscan]
    exact ⟨fun _ => ⟨[], _, rfl, rfl, .stop []⟩, by simp⟩
  | line place rest hscan ih =>
    have hdenotes : Rule.newline.Denotes ['\n'] (place.token .newline .absent ['\n']).kind
        (place.token .newline .absent ['\n']).value := .newline
    rw [hscan]
    exact ih.cons (longest_newline rest) hdenotes rfl
  | gap place gap rest hgap hscan ih =>
    rw [hscan]
    exact ih.gap hgap
  | token place rule kind value lexeme rest hlongest hdenotes _ _ hscan ih =>
    rw [hscan]
    exact ih.cons hlongest hdenotes rfl
  | fault place c rest complaint length h hscan =>
    have hfits := piece_fits c rest
    rw [h] at hfits
    rw [hscan]
    exact ⟨by simp, fun _ _ => ⟨c :: rest, .stop _, hfits⟩⟩

/-- **The tokens of a text are the longest lexemes of the rules, and it is refused exactly when the
rules get stuck in it.** -/
theorem scan_is_maximal_munch (source : String) :
    (∀ tokens, Token.scan source = .ok tokens →
      ∃ ts stop, tokens = ts ++ [stop] ∧ stop.kind = .eof ∧ Munches source.toList ts []) ∧
    ((∃ rejection, Token.scan source = .error rejection ∧
        rejection.complaint.category = .lexical) ↔
      ∃ ts rest, Munches source.toList ts rest ∧ Stuck rest) := by
  have hmunched := scanFrom_munches {} source.toList
  have hended : ∀ tokens, Token.scan source = .ok tokens →
      ∃ ts stop, tokens = ts ++ [stop] ∧ stop.kind = .eof ∧ Munches source.toList ts [] := by
    intro tokens h
    have hfault : (scanText source).fault? = none := Token.scan_fault h
    rw [← Token.scan_tokens h]
    exact hmunched.ended hfault
  refine ⟨hended, ?_, ?_⟩
  · rintro ⟨rejection, h, -⟩
    obtain ⟨rest, hmunches, hstuck⟩ := hmunched.stuck rejection (Token.scan_rejection h)
    exact ⟨_, rest, hmunches, hstuck⟩
  · rintro ⟨ts, rest, hmunches, hstuck⟩
    cases hscan : Token.scan source with
    | error rejection => exact ⟨rejection, rfl, Token.scan_error hscan⟩
    | ok tokens =>
      obtain ⟨ts', stop, -, -, hmunches'⟩ := hended tokens hscan
      obtain ⟨rfl, -⟩ := hmunches.final_unique (.inr hstuck) hmunches' (.inl rfl)
      exact absurd hstuck stuck_nil

end BasicToC
