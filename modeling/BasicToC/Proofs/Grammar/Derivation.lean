import BasicToC.Token.Basic
import BasicToC.Tree.Basic

/-!
# The grammar

    program    ::= {statement}
    statement  ::= PRINT (expression | string) line-end
                 | IF comparison THEN line-end {statement} ENDIF line-end
                 | WHILE comparison REPEAT line-end {statement} ENDWHILE line-end
                 | LABEL name line-end
                 | GOTO name line-end
                 | LET name "=" expression line-end
                 | INPUT name line-end
    comparison ::= expression {("==" | "!=" | ">" | ">=" | "<" | "<=") expression}
    expression ::= term {("+" | "-") term}
    term       ::= factor {("*" | "/") factor}
    factor     ::= ["+" | "-"] operand
    operand    ::= integer | float | name

The rules as relations between tokens and trees, apart from how they are read.

* `Operand`, `Factor`, `Chain`, `Term`, `Expression`, `Comparison`: what is computed. Chains nest to
  the right.
* `Statement`, `Rows`: what is done. Blank lines may stand in front of a statement and at the end of
  a list of statements.
* `nesting`: how many blocks of a list of tokens stand in one another.
* `Statement.induction`, `Rows.level`: a statement closes every block that it opens.
-/

set_option autoImplicit false

namespace BasicToC.Grammar

/-! ## What is computed -/

/-- The operators of a sum, which also serve as signs. -/
def additive : List Token.Kind := [.plus, .minus]

/-- The operators of a product. -/
def multiplicative : List Token.Kind := [.asterisk, .slash]

/-- The operators of a comparison. -/
def relational : List Token.Kind := [.eqEq, .notEq, .gt, .gtEq, .lt, .ltEq]

inductive Operand : Token → Tree → Prop where
  | integer {token : Token} : token.kind = .integer → Operand token (.integer (.leaf token.value))
  | float {token : Token} : token.kind = .float → Operand token (.float (.leaf token.value))
  | named {token : Token} : token.kind = .ident → Operand token (.variable (.leaf token.value))

inductive Factor : List Token → Tree → Prop where
  | plain {token : Token} {t : Tree} : Operand token t → Factor [token] (.unary t .nothing)
  | signed {sign token : Token} {t : Tree} : sign.kind ∈ additive → Operand token t →
      Factor [sign, token] (.unary t (.symbol sign.kind))

/-- Operands with operators of one level between them, nested to the right. -/
inductive Chain (operators : List Token.Kind) (node : Tree → Tree → Tree → Tree)
    (operand : List Token → Tree → Prop) : List Token → Tree → Prop where
  | last {ts : List Token} {t : Tree} : operand ts t →
      Chain operators node operand ts (node t .nothing .nothing)
  | link {ts us : List Token} {operator : Token} {t u : Tree} : operand ts t →
      operator.kind ∈ operators → Chain operators node operand us u →
      Chain operators node operand (ts ++ operator :: us) (node t (.symbol operator.kind) u)

def Term : List Token → Tree → Prop := Chain multiplicative .term Factor

def Expression : List Token → Tree → Prop := Chain additive .expression Term

def Comparison : List Token → Tree → Prop := Chain relational .comparison Expression

theorem Factor.first {ts : List Token} {t : Tree} (h : Factor ts t) :
    ∃ word rest, ts = word :: rest ∧ word.kind ≠ .string := by
  cases h with
  | plain h => exact ⟨_, _, rfl, by cases h <;> simp [*]⟩
  | signed hs h => exact ⟨_, _, rfl, fun he => by simp [he, additive] at hs⟩

theorem Chain.first {operators : List Token.Kind} {node : Tree → Tree → Tree → Tree}
    {operand : List Token → Tree → Prop} {ts : List Token} {t : Tree}
    (hoperand : ∀ us u, operand us u → ∃ word rest, us = word :: rest ∧ word.kind ≠ .string)
    (h : Chain operators node operand ts t) :
    ∃ word rest, ts = word :: rest ∧ word.kind ≠ .string := by
  cases h with
  | last h => exact hoperand _ _ h
  | link h _ _ =>
    obtain ⟨word, rest, rfl, hw⟩ := hoperand _ _ h
    exact ⟨word, _, rfl, hw⟩

/-- An expression starts with some token, and not with a text. -/
theorem Expression.first {ts : List Token} {t : Tree} (h : Expression ts t) :
    ∃ word rest, ts = word :: rest ∧ word.kind ≠ .string :=
  Chain.first (fun _ _ => Chain.first fun _ _ => Factor.first) h

/-- The kinds of token that computations are made of. -/
def computing : List Token.Kind :=
  [.integer, .float, .ident] ++ additive ++ multiplicative ++ relational

theorem Chain.kinds {operators : List Token.Kind} {node : Tree → Tree → Tree → Tree}
    {operand : List Token → Tree → Prop} {ts : List Token} {t : Tree}
    (hop : ∀ kind ∈ operators, kind ∈ computing)
    (hoperand : ∀ us u, operand us u → ∀ token ∈ us, token.kind ∈ computing)
    (h : Chain operators node operand ts t) : ∀ token ∈ ts, token.kind ∈ computing := by
  induction h with
  | last h => exact hoperand _ _ h
  | link h hk _ ih =>
    intro token hm
    rcases List.mem_append.1 hm with hm | hm
    · exact hoperand _ _ h token hm
    · rcases List.mem_cons.1 hm with rfl | hm
      · exact hop _ hk
      · exact ih token hm

theorem Factor.kinds {ts : List Token} {t : Tree} (h : Factor ts t) :
    ∀ token ∈ ts, token.kind ∈ computing := by
  have hoperand : ∀ {token : Token} {t : Tree}, Operand token t → token.kind ∈ computing := by
    intro token t h
    cases h <;> simp [computing, *]
  cases h with
  | plain h => simpa using hoperand h
  | signed hs h =>
    have hsign : ∀ kind ∈ additive, kind ∈ computing := by decide
    intro token hm
    rcases List.mem_cons.1 hm with rfl | hm
    · exact hsign _ hs
    · rw [List.mem_singleton.1 hm]
      exact hoperand h

theorem Expression.kinds {ts : List Token} {t : Tree} (h : Expression ts t) :
    ∀ token ∈ ts, token.kind ∈ computing :=
  Chain.kinds (by decide) (fun _ _ => Chain.kinds (by decide) fun _ _ => Factor.kinds) h

theorem Comparison.kinds {ts : List Token} {t : Tree} (h : Comparison ts t) :
    ∀ token ∈ ts, token.kind ∈ computing :=
  Chain.kinds (by decide) (fun _ _ => Expression.kinds) h

/-! ## What is done -/

/-- A run of line ends. -/
def LineEnds (ts : List Token) : Prop := ∀ token ∈ ts, token.kind = .newline

/-- Statements one after another, with blank lines in front of each and at the end. -/
inductive Rows (statement : List Token → Tree → Prop) : List Token → Tree → Prop where
  | done {blank : List Token} : LineEnds blank → Rows statement blank .done
  | next {blank ts us : List Token} {first rest : Tree} : LineEnds blank → statement ts first →
      Rows statement us rest → Rows statement (blank ++ ts ++ us) (.sequence first rest)

/-- The keywords in front of a condition, behind it and behind the body, and the node made of
both. -/
inductive Block : Token.Kind → Token.Kind → Token.Kind → (Tree → Tree → Tree) → Prop where
  | when : Block .when .andThen .endWhen .when
  | loop : Block .loop .again .endLoop .loop

inductive Statement : List Token → Tree → Prop where
  | print {word stop : Token} {ts : List Token} {value : Tree} : word.kind = .print →
      Expression ts value → stop.kind = .newline → Statement (word :: ts ++ [stop]) (.print value)
  | printText {word text stop : Token} : word.kind = .print → text.kind = .string →
      stop.kind = .newline → Statement [word, text, stop] (.printText (.leaf text.value))
  | block {opener middle closer : Token.Kind} {node : Tree → Tree → Tree}
      {o m s c t : Token} {ts us : List Token} {condition body : Tree} :
      Block opener middle closer node → o.kind = opener → Comparison ts condition →
      m.kind = middle → s.kind = .newline → Rows Statement us body → c.kind = closer →
      t.kind = .newline → Statement (o :: ts ++ m :: s :: us ++ [c, t]) (node condition body)
  | label {word name stop : Token} : word.kind = .label → name.kind = .ident →
      stop.kind = .newline → Statement [word, name, stop] (.label (.leaf name.value))
  | goto {word name stop : Token} : word.kind = .goto → name.kind = .ident →
      stop.kind = .newline → Statement [word, name, stop] (.goto (.leaf name.value))
  | assign {word name eq stop : Token} {ts : List Token} {value : Tree} : word.kind = .assign →
      name.kind = .ident → eq.kind = .eq → Expression ts value → stop.kind = .newline →
      Statement (word :: name :: eq :: ts ++ [stop]) (.assign (.leaf name.value) value)
  | input {word name stop : Token} : word.kind = .input → name.kind = .ident →
      stop.kind = .newline → Statement [word, name, stop] (.input (.leaf name.value))

/-- The tokens of a whole program, without the mark for its end. -/
def Program : List Token → Tree → Prop := Rows Statement

/-! ## Nesting -/

/-- How many blocks stand open behind a token, given how many did before it. -/
def levelAfter (level : Nat) (token : Token) : Nat :=
  match token.kind with
  | .when | .loop => level + 1
  | .endWhen | .endLoop => level - 1
  | _ => level

/-- How many blocks stand open at most on the way through some tokens. -/
def nestingFrom (level : Nat) : List Token → Nat
  | [] => level
  | token :: rest => max level (nestingFrom (levelAfter level token) rest)

/-- How many blocks of a list of tokens stand in one another at most. -/
def nesting (tokens : List Token) : Nat := nestingFrom 0 tokens

theorem level_le_nestingFrom (level : Nat) (ts : List Token) : level ≤ nestingFrom level ts := by
  cases ts with
  | nil => exact Nat.le_refl level
  | cons t ts => exact Nat.le_max_left _ _

theorem last_le_nestingFrom (level : Nat) (ts : List Token) :
    ts.foldl levelAfter level ≤ nestingFrom level ts := by
  induction ts generalizing level with
  | nil => exact Nat.le_refl level
  | cons t ts ih => exact Nat.le_trans (ih (levelAfter level t)) (Nat.le_max_right _ _)

theorem nestingFrom_append (level : Nat) (ts us : List Token) :
    nestingFrom level (ts ++ us) =
      max (nestingFrom level ts) (nestingFrom (ts.foldl levelAfter level) us) := by
  induction ts generalizing level with
  | nil => simp [nestingFrom, level_le_nestingFrom]
  | cons t ts ih => simp [nestingFrom, ih, Nat.max_assoc]

theorem nesting_le_append (ts us : List Token) : nesting ts ≤ nesting (ts ++ us) := by
  unfold nesting
  rw [nestingFrom_append]
  exact Nat.le_max_left _ _

/-- Tokens that open and close no block. -/
def Flat (ts : List Token) : Prop :=
  ∀ token ∈ ts, token.kind ∉ [Token.Kind.when, .loop, .endWhen, .endLoop]

theorem levelAfter_flat {token : Token}
    (h : token.kind ∉ [Token.Kind.when, .loop, .endWhen, .endLoop]) (level : Nat) :
    levelAfter level token = level := by
  unfold levelAfter
  split <;> simp_all

theorem Flat.level {ts : List Token} (h : Flat ts) (level : Nat) :
    ts.foldl levelAfter level = level := by
  induction ts with
  | nil => rfl
  | cons t ts ih =>
    rw [List.foldl_cons, levelAfter_flat (h t (by simp))]
    exact ih fun u hu => h u (by simp [hu])

theorem Flat.nesting {ts : List Token} (h : Flat ts) : nesting ts = 0 := by
  unfold Grammar.nesting
  induction ts with
  | nil => rfl
  | cons t ts ih =>
    have hrest : nestingFrom 0 ts = 0 := ih fun u hu => h u (by simp [hu])
    rw [nestingFrom, levelAfter_flat (h t (by simp)), hrest]
    rfl

theorem Flat.append {ts us : List Token} (ht : Flat ts) (hu : Flat us) : Flat (ts ++ us) := by
  intro token h
  rcases List.mem_append.1 h with h | h
  · exact ht token h
  · exact hu token h

theorem Flat.cons {t : Token} {ts : List Token}
    (h : t.kind ∉ [Token.Kind.when, .loop, .endWhen, .endLoop]) (ht : Flat ts) :
    Flat (t :: ts) := by
  intro token hm
  rcases List.mem_cons.1 hm with rfl | hm
  · exact h
  · exact ht token hm

theorem Flat.nil : Flat [] := fun _ h => by simp at h

theorem flat_of_kinds {ts : List Token} (h : ∀ token ∈ ts, token.kind ∈ computing) : Flat ts := by
  have hall : ∀ kind ∈ computing, kind ∉ [Token.Kind.when, .loop, .endWhen, .endLoop] := by decide
  exact fun token hm => hall _ (h token hm)

theorem LineEnds.flat {ts : List Token} (h : LineEnds ts) : Flat ts := fun token hm => by
  rw [h token hm]; decide

theorem LineEnds.nil : LineEnds [] := fun _ h => by simp at h

theorem LineEnds.append {ts us : List Token} (ht : LineEnds ts) (hu : LineEnds us) :
    LineEnds (ts ++ us) := by
  intro token h
  rcases List.mem_append.1 h with h | h
  · exact ht token h
  · exact hu token h

theorem Expression.flat {ts : List Token} {t : Tree} (h : Expression ts t) : Flat ts :=
  flat_of_kinds h.kinds

theorem Comparison.flat {ts : List Token} {t : Tree} (h : Comparison ts t) : Flat ts :=
  flat_of_kinds h.kinds

/-! ## Induction over statements -/

theorem Rows.mono {p q : List Token → Tree → Prop} {ts : List Token} {t : Tree} (h : Rows p ts t)
    (hpq : ∀ us u, us.length ≤ ts.length → p us u → q us u) : Rows q ts t := by
  induction h with
  | done hb => exact .done hb
  | @next blank us vs first rest hb hs _ ih =>
    refine .next hb (hpq _ _ (by simp; omega) hs) (ih fun ws w hw => hpq ws w ?_)
    simp only [List.length_append]
    omega

/-- What holds of every statement whose body is made of statements of which it holds. -/
theorem Statement.induction {motive : List Token → Tree → Prop}
    (step : ∀ ts t, Statement ts t →
      (∀ us u, us.length < ts.length → Statement us u → motive us u) → motive ts t)
    {ts : List Token} {t : Tree} (h : Statement ts t) : motive ts t := by
  induction hn : ts.length using Nat.strongRecOn generalizing ts t with
  | ind n ih =>
    subst hn
    exact step ts t h fun us u hu hs => ih us.length hu hs rfl

/-- The kinds of token that a statement starts with. -/
def openers : List Token.Kind := [.print, .when, .loop, .label, .goto, .assign, .input]

theorem Statement.first {ts : List Token} {t : Tree} (h : Statement ts t) :
    ∃ word rest, ts = word :: rest ∧ word.kind ∈ openers := by
  cases h with
  | print hw he hs => exact ⟨_, _, rfl, by simp [hw, openers]⟩
  | printText hw ht hs => exact ⟨_, _, rfl, by simp [hw, openers]⟩
  | block hb ho hc hm hs hrows hcl ht => exact ⟨_, _, rfl, by cases hb <;> simp [ho, openers]⟩
  | label hw hn hs => exact ⟨_, _, rfl, by simp [hw, openers]⟩
  | goto hw hn hs => exact ⟨_, _, rfl, by simp [hw, openers]⟩
  | assign hw hn he hx hs => exact ⟨_, _, rfl, by simp [hw, openers]⟩
  | input hw hn hs => exact ⟨_, _, rfl, by simp [hw, openers]⟩

/-- Tokens behind which as many blocks stand open as before them, and never fewer in between. -/
def Level (ts : List Token) : Prop := ∀ level, ts.foldl levelAfter level = level

theorem Rows.level {ts : List Token} {t : Tree} {p : List Token → Tree → Prop}
    (hp : ∀ us u, us.length ≤ ts.length → p us u → Level us) (h : Rows p ts t) : Level ts := by
  induction h with
  | done hb => exact hb.flat.level
  | @next blank us vs first rest hb hs _ ih =>
    intro level
    rw [List.foldl_append, List.foldl_append, hb.flat.level, hp us _ (by simp; omega) hs,
      ih (fun ws w hw => hp ws w (by simp only [List.length_append]; omega))]

/-- **A statement closes every block that it opens.** -/
theorem Statement.level {ts : List Token} {t : Tree} (h : Statement ts t) : Level ts := by
  refine Statement.induction (motive := fun ts _ => Level ts) (fun ts t h ih => ?_) h
  cases h with
  | print hw he hs =>
    exact Flat.level (Flat.cons (by simp [hw]) (he.flat.append (by simp [Flat, hs])))
  | printText hw ht hs => exact Flat.level (by simp [Flat, hw, ht, hs])
  | label hw hn hs => exact Flat.level (by simp [Flat, hw, hn, hs])
  | goto hw hn hs => exact Flat.level (by simp [Flat, hw, hn, hs])
  | input hw hn hs => exact Flat.level (by simp [Flat, hw, hn, hs])
  | assign hw hn he hx hs =>
    exact Flat.level (Flat.cons (by simp [hw]) (Flat.cons (by simp [hn]) (Flat.cons (by simp [he])
      (hx.flat.append (by simp [Flat, hs])))))
  | @block opener middle closer node o m s c t ts us condition body hb ho hc hm hs hrows hcl ht =>
    have hbody : Level us := by
      refine Rows.level (p := Statement) (fun vs v hv hst => ih vs v ?_ hst) hrows
      simp only [List.length_append, List.length_cons]
      omega
    have hmid : ∀ n, levelAfter n m = n := fun n => by
      cases hb <;> simp [levelAfter, hm]
    intro level
    simp only [List.cons_append, List.foldl_cons, List.foldl_append, List.foldl_nil, hc.flat.level,
      hmid, hbody _]
    cases hb <;> simp [levelAfter, ho, hs, hcl, ht]

/-- Each statement of a list is nested no deeper than the list. -/
theorem Rows.within {ts : List Token} {t : Tree} (level : Nat) (h : Rows Statement ts t) :
    Rows (fun us u => Statement us u ∧ nestingFrom level us ≤ nestingFrom level ts) ts t := by
  induction h with
  | done hb => exact .done hb
  | @next blank us vs first rest hb hs _ ih =>
    have hall : nestingFrom level (blank ++ us ++ vs) =
        max (max (nestingFrom level blank) (nestingFrom level us)) (nestingFrom level vs) := by
      rw [nestingFrom_append, nestingFrom_append, List.foldl_append, hb.flat.level, hs.level]
    refine .next hb ⟨hs, by omega⟩ (ih.mono fun ws w _ hw => ⟨hw.1, ?_⟩)
    have := hw.2
    omega

/-- The body of a block stands one level further in than the block. -/
theorem Block.deeper {opener middle closer : Token.Kind} {node : Tree → Tree → Tree}
    (hb : Block opener middle closer node) {o m s : Token} {ts : List Token} (ho : o.kind = opener)
    (ht : Flat ts) (hm : m.kind = middle) (hs : s.kind = .newline) (level : Nat)
    (us vs : List Token) :
    nestingFrom (level + 1) us ≤ nestingFrom level (o :: ts ++ m :: s :: us ++ vs) := by
  have hopen : levelAfter level o = level + 1 := by
    cases hb <;> simp [levelAfter, ho]
  have hfront : Flat (ts ++ [m, s]) := by
    refine ht.append (Flat.cons ?_ (Flat.cons (by simp [hs]) Flat.nil))
    rw [hm]
    cases hb <;> decide
  have hsplit : o :: ts ++ m :: s :: us ++ vs = o :: ((ts ++ [m, s]) ++ (us ++ vs)) := by simp
  rw [hsplit, nestingFrom, hopen, nestingFrom_append, hfront.level, nestingFrom_append _ us vs]
  omega

end BasicToC.Grammar
