import BasicToC.Proofs.Scanning.Munch
import BasicToC.Proofs.Scanning.Places

/-!
# What the tokens of a text stand for

* `Token.Meant`: a token stands for what the rules say of its lexeme.
* `scan_meant`: every token of a text is such, up to the mark for its end.
* `Rule.Denotes.whole`, `Rule.Denotes.real`, `Rule.Denotes.named`: what numbers and names stand for.
* `Token.Meant.newline_iff`, `Token.Meant.solid`: a line end is written as a line feed and no other
  token holds one; no token ends in a carriage return.
-/

set_option autoImplicit false

namespace BasicToC

/-- A token is of the kind and carries the value that its lexeme stands for. -/
def Token.Meant (token : Token) : Prop :=
  ∃ rule : Rule, rule.Denotes token.lexeme.toList token.kind token.value

theorem Munches.meant {text rest : List Char} {ts : List Token} (h : Munches text ts rest) :
    ∀ token ∈ ts, token.Meant := by
  induction h with
  | stop => simp
  | gap skipped more ih => exact ih
  | @token rule lexeme text rest token ts longest denotes written more ih =>
    refine List.forall_mem_cons.2 ⟨⟨rule, ?_⟩, ih⟩
    rw [written, String.toList_ofList]
    exact denotes

/-- **Every token of a text stands for what the rules say of its lexeme**, up to the mark for the
end. -/
theorem scan_meant {source : String} {tokens : List Token} (h : Token.scan source = .ok tokens) :
    ∃ ts stop, tokens = ts ++ [stop] ∧ stop.kind = .eof ∧ ∀ token ∈ ts, token.Meant := by
  obtain ⟨ts, stop, htokens, hstop, hmunches⟩ :=
    (scanFrom_munches {} source.toList).ended (Token.scan_fault h)
  exact ⟨ts, stop, (Token.scan_tokens h).symm.trans htokens, hstop, hmunches.meant⟩

theorem Rule.Matches.solid {rule : Rule} {lexeme : List Char} (h : rule.Matches lexeme) :
    lexeme.getLast? ≠ some '\r' := by
  have hdigits {digits : List Char} (all : ∀ c ∈ digits, c.isDigit) : '\r' ∉ digits :=
    fun hmem => absurd (all _ hmem) (by decide)
  cases h with
  | newline => decide
  | string => rw [List.getLast?_concat]; decide
  | whole some all => exact fun hlast => hdigits all (List.mem_of_getLast? hlast)
  | real some all behind =>
    intro hlast
    rcases List.mem_append.1 (List.mem_of_getLast? hlast) with hmem | hmem
    · exact hdigits all hmem
    · exact hdigits behind (List.mem_of_ne_of_mem (by decide) hmem)
  | word letter others =>
    intro hlast
    rcases List.mem_cons.1 (List.mem_of_getLast? hlast) with rfl | hmem
    · exact absurd letter (by decide)
    · exact absurd (others _ hmem) (by decide)
  | operator known =>
    have hall : ∀ kind ∈ Token.Kind.operators, kind.spelling.toList.getLast? ≠ some '\r' := by decide
    exact hall _ known

theorem Rule.Denotes.newline_iff {rule : Rule} {lexeme : List Char} {kind : Token.Kind}
    {value : Value} (h : rule.Denotes lexeme kind value) : kind = .newline ↔ lexeme = ['\n'] := by
  have hother (hrule : rule ≠ .newline) : lexeme ≠ ['\n'] := fun heq =>
    h.matched.lineFeed hrule (heq ▸ List.mem_singleton_self _)
  cases h with
  | newline => simp
  | string | integer | float | name => exact iff_of_false (by decide) (hother (by decide))
  | keyword known | operator known =>
    exact iff_of_false (fun hk => absurd (hk ▸ known) (by decide)) (hother (by decide))

theorem Rule.Denotes.whole {rule : Rule} {lexeme : List Char} {v : Value}
    (h : rule.Denotes lexeme .integer v) :
    ∃ n : Nat, v = .whole n ∧ n ≤ 2 ^ 63 - 1 := by
  generalize hk : Token.Kind.integer = kind at h
  cases h with
  | integer _ _ _ small => exact ⟨_, rfl, small⟩
  | newline | string | float | name => cases hk
  | keyword known | operator known => exact absurd (hk ▸ known) (by decide)

theorem Rule.Denotes.real {rule : Rule} {lexeme : List Char} {v : Value}
    (h : rule.Denotes lexeme .float v) :
    ∃ s e, v = .real (.finite false s e) ∧ Binary64.Canonical s e := by
  generalize hk : Token.Kind.float = kind at h
  cases h with
  | float _ _ _ rounded => exact ⟨_, _, rfl, rounded.canonical⟩
  | newline | string | integer | name => cases hk
  | keyword known | operator known => exact absurd (hk ▸ known) (by decide)

theorem Rule.Denotes.named {rule : Rule} {lexeme : List Char} {v : Value}
    (h : rule.Denotes lexeme .ident v) :
    v = .text (String.ofList lexeme) ∧ rule = .word := by
  generalize hk : Token.Kind.ident = kind at h
  cases h with
  | name => exact ⟨rfl, rfl⟩
  | newline | string | integer | float => cases hk
  | keyword known | operator known => exact absurd (hk ▸ known) (by decide)

namespace Token.Meant

variable {token : Token}

theorem length_pos (h : token.Meant) : 0 < token.lexeme.toList.length :=
  h.choose_spec.matched.length_pos

/-- No token ends in a carriage return. -/
theorem solid (h : token.Meant) : token.lexeme.toList.getLast? ≠ some '\r' :=
  h.choose_spec.matched.solid

/-- A line end is written as a line feed, and nothing else is. -/
theorem newline_iff (h : token.Meant) : token.kind = .newline ↔ token.lexeme.toList = ['\n'] :=
  h.choose_spec.newline_iff

/-- No token but a line end holds a line feed. -/
theorem inLine (h : token.Meant) (hk : token.kind ≠ .newline) : '\n' ∉ token.lexeme.toList := by
  obtain ⟨rule, hd⟩ := h
  refine hd.matched.lineFeed ?_
  rintro rfl
  have hlexeme {lexeme : List Char} (hm : Rule.newline.Matches lexeme) : lexeme = ['\n'] := by
    cases hm
    rfl
  exact hk (hd.newline_iff.2 (hlexeme hd.matched))

end Token.Meant

end BasicToC
