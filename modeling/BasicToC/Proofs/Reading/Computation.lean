import BasicToC.Proofs.Reading.Steps

/-!
# Reading what is computed

Each level of expressions is read exactly as the grammar has it.

* `Exact`: a step passes only what the grammar derives, and passes all of that.
* `Level`: how the operators of one level are read and what is made of them.
* `chain_nested`: the tree of a chain, folded from the operands and operators of it.
* `Exact.chain`: operands that are read exactly make chains that are read exactly.
* `factor_exact`, `term_exact`, `expression_exact`, `comparison_exact`: the levels.
-/

set_option autoImplicit false

namespace BasicToC.Read

open Grammar (additive multiplicative relational)

variable {Op α : Type}

/-- A step reads exactly the tokens that `derives` relates to a tree: it ends well behind such
tokens only, and behind all of them unless a token of the kinds in `avoid` comes next. -/
structure Exact (f : Read α) (tree : α → Tree) (derives : List Token → Tree → Prop)
    (avoid : List Token.Kind) : Prop where
  ok : ∀ {r r' : Reader} {a : α}, f r = .ok a r' →
    ∃ ts, derives ts (tree a) ∧ r.Moves ts (tree a).mentions r'
  takes : ∀ {r : Reader} {ts rest : List Token} {token : Token} {t : Tree}, derives ts t →
    r.ahead = ts ++ token :: rest → token.kind ∉ avoid → r.names.ledger.Allows t.mentions →
    ∃ a r', f r = .ok a r' ∧ tree a = t ∧ r.Moves ts t.mentions r'

/-! ## Operands -/

theorem operand_ok {r r' : Reader} {a : Operand} (h : operand r = .ok a r') :
    ∃ token, Grammar.Operand token a.tree ∧ r.Moves [token] a.tree.mentions r' := by
  unfold operand at h
  obtain ⟨first, rest, -, h⟩ := peek_bind_ok h
  rw [bind_eq (note_eq _ r)] at h
  have hm := note_moves (.operandAt first) r
  obtain ⟨token, r₁, hadv, h⟩ := bind_ok h
  cases hk : token.kind <;> rw [hk] at h
  case integer =>
    cases h
    exact ⟨token, .integer hk, hm.trans (advance_ok hadv (by simp [hk]))⟩
  case float =>
    cases h
    exact ⟨token, .float hk, hm.trans (advance_ok hadv (by simp [hk]))⟩
  case ident =>
    simp only at h
    rw [bind_eq (get_eq r₁)] at h
    split at h
    · rename_i hin
      cases h
      exact ⟨token, .named hk, (hm.trans (advance_ok hadv (by simp [hk]))).trans (reads_moves hin)⟩
    · exact absurd h refuse_ne_ok
  all_goals exact absurd h refuse_ne_ok

theorem operand_takes {r : Reader} {token : Token} {rest : List Token} {t : Tree}
    (h : Grammar.Operand token t) (ha : r.ahead = token :: rest)
    (hn : r.names.ledger.Allows t.mentions) :
    ∃ a r', operand r = .ok a r' ∧ a.tree = t ∧ r.Moves [token] t.mentions r' := by
  have hm := note_moves (.operandAt token) r
  have hk : token.kind ≠ .eof := by cases h <;> simp [*]
  obtain ⟨r', hadv, hm'⟩ := advance_takes (hm.ahead_eq ha) hk
  unfold operand
  rw [bind_eq (peek_eq ha), bind_eq (note_eq _ r), bind_eq hadv]
  cases h with
  | integer h => exact ⟨.integer token.value, r', by rw [h]; rfl, rfl, hm.trans hm'⟩
  | float h => exact ⟨.float token.value, r', by rw [h]; rfl, rfl, hm.trans hm'⟩
  | named h =>
    have hin : token.value.isIn r'.names.declared = true :=
      ((hm.trans hm').still hn).1
    refine ⟨.variable token.value, r', ?_, rfl, (hm.trans hm').trans (reads_moves hin)⟩
    simp only [h]
    rw [bind_eq (get_eq r'), if_pos hin]
    rfl

/-! ## Operators -/

/-- How the operators of one level are read, which they are, and what they join their operands
to. -/
structure Level (operator? : Token.Kind → Option Op) (kind : Op → Token.Kind)
    (operators : List Token.Kind) (node : Tree → Tree → Tree → Tree) : Prop where
  read : ∀ {k : Token.Kind} {operator : Op}, operator? k = some operator →
    kind operator = k ∧ k ∈ operators
  written : ∀ k ∈ operators, ∃ operator, operator? k = some operator
  mentions : ∀ first operator rest, (node first operator rest).mentions =
    first.mentions ++ rest.mentions
  proper : .eof ∉ operators

theorem additive_level : Level Additive.ofKind? Additive.kind additive .expression where
  read {k operator} h := by cases k <;> simp [Additive.ofKind?] at h <;> subst h <;> decide
  written k hk := by revert hk; cases k <;> simp [additive, Additive.ofKind?]
  mentions _ _ _ := rfl
  proper := by decide

theorem multiplicative_level :
    Level Multiplicative.ofKind? Multiplicative.kind multiplicative .term where
  read {k operator} h := by cases k <;> simp [Multiplicative.ofKind?] at h <;> subst h <;> decide
  written k hk := by revert hk; cases k <;> simp [multiplicative, Multiplicative.ofKind?]
  mentions _ _ _ := rfl
  proper := by decide

theorem relational_level : Level Relation.ofKind? Relation.kind relational .comparison where
  read {k operator} h := by cases k <;> simp [Relation.ofKind?] at h <;> subst h <;> decide
  written k hk := by revert hk; cases k <;> simp [relational, Relation.ofKind?]
  mentions _ _ _ := rfl
  proper := by decide

theorem factor_exact : Exact factor Factor.tree Grammar.Factor [] where
  ok {r r' a} h := by
    unfold factor at h
    obtain ⟨t, rest, ha, h⟩ := peek_bind_ok h
    cases hs : Additive.ofKind? t.kind with
    | some sign =>
      obtain ⟨hkind, hmem⟩ := additive_level.read hs
      rw [hs] at h
      obtain ⟨s, r₁, hadv, h⟩ := bind_ok h
      obtain ⟨a, r₂, hop, h⟩ := bind_ok h
      cases h
      obtain rfl := advance_token hadv ha
      obtain ⟨token, hg, hm⟩ := operand_ok hop
      refine ⟨[s, token], ?_, (advance_ok hadv ?_).trans hm⟩
      · simp only [Factor.tree, hkind]
        exact .signed hmem hg
      · exact fun he => additive_level.proper (he ▸ hmem)
    | none =>
      rw [hs] at h
      obtain ⟨a, r₁, hop, h⟩ := bind_ok h
      cases h
      obtain ⟨token, hg, hm⟩ := operand_ok hop
      exact ⟨[token], .plain hg, hm⟩
  takes {r ts rest token t} h ha _ hn := by
    unfold factor
    cases h with
    | @plain u t h =>
      have hnone : Additive.ofKind? u.kind = none := by
        cases h <;> simp [Additive.ofKind?, *]
      obtain ⟨a, r', hop, rfl, hm⟩ := operand_takes h ha hn
      refine ⟨⟨none, a⟩, r', ?_, rfl, hm⟩
      rw [bind_eq (peek_eq ha), hnone]
      simp only
      rw [bind_eq hop]
      rfl
    | @signed s u t hs h =>
      obtain ⟨sign, hsign⟩ := additive_level.written _ hs
      obtain ⟨r₁, hadv, hm⟩ := advance_takes ha fun he => additive_level.proper (he ▸ hs)
      obtain ⟨a, r', hop, rfl, hm'⟩ := operand_takes h (hm.ahead_eq ha) (hm.still hn)
      rw [bind_eq (peek_eq ha), hsign]
      simp only
      rw [bind_eq hadv, bind_eq hop]
      refine ⟨⟨some sign, a⟩, r', rfl, ?_, hm.trans hm'⟩
      simp only [Factor.tree, (additive_level.read hsign).1]

/-! ## Chains -/

section Chains

variable {operator? : Token.Kind → Option Op} {kind : Op → Token.Kind}
variable {operators avoid : List Token.Kind} {node : Tree → Tree → Tree → Tree}
variable {f : Read α} {tree : α → Tree} {derives : List Token → Tree → Prop}

/-- The mentions in the further operands of a chain. -/
def linkMentions (tree : α → Tree) (links : List (Op × α)) : List Mention :=
  links.flatMap fun link => (tree link.2).mentions

theorem nest_mentions (hl : Level operator? kind operators node) (first : Tree)
    (links : List (Op × α)) :
    (nest node first (links.map fun link => (kind link.1, tree link.2))).mentions =
      first.mentions ++ linkMentions tree links := by
  induction links generalizing first with
  | nil => simp [nest, hl.mentions, linkMentions, Tree.mentions]
  | cons link links ih =>
    rw [List.map_cons, nest, hl.mentions, ih]
    simp [linkMentions]

/-- An operand in front of as many others as there are operators between them is folded in last. -/
theorem nested_cons (first second : Tree) (operator : Token.Kind) {operands : List Tree}
    {operators : List Token.Kind} (h : operands.length = operators.length) :
    Tree.nested? node (first :: second :: operands) (operator :: operators) =
      (Tree.nested? node (second :: operands) operators).map (node first (.symbol operator)) := by
  obtain ⟨last, before, hlast⟩ : ∃ last before, (second :: operands).reverse = last :: before :=
    List.exists_cons_of_ne_nil (by simp)
  have hbefore : before.length = operators.reverse.length := by
    have hlength := congrArg List.length hlast
    simp only [List.length_reverse, List.length_cons] at hlength
    rw [List.length_reverse]
    omega
  have hzip : (before ++ [first]).zip (operators.reverse ++ [operator]) =
      before.zip operators.reverse ++ [(first, operator)] := List.zip_append hbefore
  have hreverse : (first :: second :: operands).reverse = last :: (before ++ [first]) := by
    rw [List.reverse_cons, hlast, List.cons_append]
  unfold Tree.nested?
  rw [hreverse, hlast, List.reverse_cons]
  simp only [hzip, List.foldl_append, List.foldl_cons, List.foldl_nil, Option.map_some]

theorem nested_links (first : Tree) (links : List (Token.Kind × Tree)) :
    Tree.nested? node (first :: links.map Prod.snd) (links.map Prod.fst) =
      some (nest node first links) := by
  induction links generalizing first with
  | nil => rfl
  | cons link links ih =>
    rw [List.map_cons, List.map_cons, nested_cons first link.2 link.1 (by simp), ih]
    rfl

/-- **Folding the operands and operators of a chain from its end gives its tree.** -/
theorem chain_nested (chain : Chain Op α) :
    Tree.nested? node (tree chain.first :: chain.rest.map fun link => tree link.2)
        (chain.rest.map fun link => kind link.1) =
      some (chain.tree node kind tree) := by
  have hlinks := @nested_links node (tree chain.first)
    (chain.rest.map fun link => (kind link.1, tree link.2))
  simpa [Function.comp_def, Chain.tree] using hlinks

/-- Further operands that have been read turn a first one into a chain. -/
theorem links_ok (hl : Level operator? kind operators node) (hf : Exact f tree derives avoid)
    {rounds : List Token} {r r' : Reader} {links : List (Op × α)}
    (h : Read.links operator? f rounds r = .ok links r') {ts : List Token} {t : Tree}
    (ht : derives ts t) : ∃ us, r.Moves us (linkMentions tree links) r' ∧
      Grammar.Chain operators node derives (ts ++ us)
        (nest node t (links.map fun link => (kind link.1, tree link.2))) := by
  induction rounds generalizing r links ts t with
  | nil => cases h
  | cons _ rounds ih =>
    rw [Read.links] at h
    obtain ⟨token, rest, ha, h⟩ := peek_bind_ok h
    cases hop : operator? token.kind with
    | none =>
      rw [hop] at h
      cases h
      exact ⟨[], .refl, by rw [List.append_nil]; exact .last ht⟩
    | some operator =>
      obtain ⟨hkind, hmem⟩ := hl.read hop
      rw [hop] at h
      obtain ⟨sign, r₁, hadv, h⟩ := bind_ok h
      obtain ⟨right, r₂, hright, h⟩ := bind_ok h
      obtain ⟨more, r₃, hmore, h⟩ := bind_ok h
      cases h
      obtain rfl := advance_token hadv ha
      have hm := advance_ok hadv fun he => hl.proper (he ▸ hmem)
      obtain ⟨us, hus, hm'⟩ := hf.ok hright
      obtain ⟨vs, hm'', hchain⟩ := ih hmore hus
      refine ⟨sign :: (us ++ vs), hm.trans' (hm'.trans hm'') (by simp) (by simp [linkMentions]), ?_⟩
      rw [List.map_cons, nest, hkind]
      exact .link ht hmem hchain

/-- A chain ahead is read to its end: its first operand, and then the others, whatever the count of
rounds allows for them, as long as it is enough. -/
theorem links_takes (hl : Level operator? kind operators node) (hf : Exact f tree derives avoid)
    (hdisjoint : ∀ k ∈ operators, k ∉ avoid) {ts : List Token} {t : Tree}
    (h : Grammar.Chain operators node derives ts t) {r : Reader} {token : Token}
    {rest : List Token} (ha : r.ahead = ts ++ token :: rest) (hop : token.kind ∉ operators)
    (hk : token.kind ∉ avoid) (hn : r.names.ledger.Allows t.mentions) :
    ∃ first r₁, f r = .ok first r₁ ∧ ∀ rounds : List Token, r₁.ahead.length ≤ rounds.length →
      ∃ links r', Read.links operator? f rounds r₁ = .ok links r' ∧
        Chain.tree node kind tree ⟨first, links⟩ = t ∧ r.Moves ts t.mentions r' := by
  induction h generalizing r with
  | @last ts t h =>
    rw [hl.mentions] at hn
    obtain ⟨first, r₁, hfirst, rfl, hm⟩ := hf.takes h ha hk (Ledger.allows_append.1 hn).1
    have ha' := hm.ahead_eq ha
    refine ⟨first, r₁, hfirst, fun rounds hr => ?_⟩
    cases rounds with
    | nil => simp [ha'] at hr
    | cons _ rounds =>
      have hnone : operator? token.kind = none := by
        cases ho : operator? token.kind with
        | none => rfl
        | some operator => exact absurd (hl.read ho).2 hop
      refine ⟨[], r₁, ?_, rfl, ?_⟩
      · rw [Read.links, bind_eq (peek_eq ha'), hnone]
        rfl
      · rw [hl.mentions]
        exact hm.trans' .refl (by simp) rfl
  | @link ts us sign t u h hs _ ih =>
    rw [hl.mentions] at hn ⊢
    have ha : r.ahead = ts ++ sign :: (us ++ token :: rest) := by simpa using ha
    obtain ⟨first, r₁, hfirst, rfl, hm⟩ :=
      hf.takes h ha (hdisjoint _ hs) (Ledger.allows_append.1 hn).1
    have ha₁ := hm.ahead_eq ha
    obtain ⟨r₂, hadv, hm₂⟩ := advance_takes ha₁ fun he => hl.proper (he ▸ hs)
    have ha₂ : r₂.ahead = us ++ token :: rest := hm₂.ahead_eq ha₁
    obtain ⟨second, r₃, hsecond, hrest⟩ :=
      ih ha₂ ((hm.trans hm₂).allows (by simpa using hn))
    obtain ⟨operator, hoperator⟩ := hl.written _ hs
    refine ⟨first, r₁, hfirst, fun rounds hr => ?_⟩
    cases rounds with
    | nil => simp [ha₁] at hr
    | cons _ rounds =>
      obtain ⟨us', -, hm₃⟩ := hf.ok hsecond
      have hlen : r₃.ahead.length ≤ rounds.length := by
        have h₃ := congrArg List.length hm₃.ahead
        simp only [ha₂, List.length_append, List.length_cons] at h₃
        simp only [ha₁, List.length_append, List.length_cons] at hr
        omega
      obtain ⟨links, r', hlinks, rfl, hm'⟩ := hrest rounds hlen
      refine ⟨(operator, second) :: links, r', ?_, ?_, ?_⟩
      · rw [Read.links, bind_eq (peek_eq ha₁), hoperator]
        simp only
        rw [bind_eq hadv, bind_eq hsecond, bind_eq hlinks]
        rfl
      · simp only [Chain.tree, List.map_cons, nest, (hl.read hoperator).1]
      · exact (hm.trans hm₂).trans' hm' (by simp) (by simp)

/-- **A chain of operands that are read exactly is read exactly.** -/
theorem Exact.chain (hf : Exact f tree derives avoid) (hl : Level operator? kind operators node)
    (hdisjoint : ∀ k ∈ operators, k ∉ avoid) :
    Exact (Read.chain operator? f) (Chain.tree node kind tree)
      (Grammar.Chain operators node derives) (operators ++ avoid) where
  ok {r r' a} h := by
    unfold Read.chain at h
    obtain ⟨first, r₁, hfirst, h⟩ := bind_ok h
    rw [bind_eq (get_eq r₁)] at h
    obtain ⟨links, r₄, hlinks, h⟩ := bind_ok h
    cases h
    obtain ⟨ts, hts, hm⟩ := hf.ok hfirst
    obtain ⟨us, hm', hchain⟩ := links_ok hl hf hlinks hts
    refine ⟨ts ++ us, hchain, ?_⟩
    rw [Chain.tree, nest_mentions hl]
    exact hm.trans hm'
  takes {r ts rest token t} h ha hk hn := by
    simp only [List.mem_append, not_or] at hk
    obtain ⟨first, r₁, hfirst, hrest⟩ := links_takes hl hf hdisjoint h ha hk.1 hk.2 hn
    obtain ⟨links, r', hlinks, ht, hm⟩ := hrest r₁.ahead (Nat.le_refl _)
    refine ⟨⟨first, links⟩, r', ?_, ht, hm⟩
    unfold Read.chain
    rw [bind_eq hfirst, bind_eq (get_eq r₁), bind_eq hlinks]
    rfl

end Chains

theorem term_exact : Exact term Term.tree Grammar.Term multiplicative :=
  factor_exact.chain multiplicative_level (by simp)

theorem expression_exact :
    Exact expression Expression.tree Grammar.Expression (additive ++ multiplicative) :=
  term_exact.chain additive_level (by decide)

theorem comparison_exact : Exact comparison Comparison.tree Grammar.Comparison
    (relational ++ (additive ++ multiplicative)) where
  ok {r r' a} h := by
    unfold comparison at h
    obtain ⟨first, rest, -, h⟩ := peek_bind_ok h
    rw [bind_eq (note_eq _ r)] at h
    obtain ⟨ts, hts, hm⟩ := (expression_exact.chain relational_level (by decide)).ok h
    exact ⟨ts, hts, (note_moves (.comparisonAt first) r).trans hm⟩
  takes {r ts rest token t} h ha hk hn := by
    obtain ⟨first, us, hfirst⟩ : ∃ first us, ts ++ token :: rest = first :: us :=
      List.exists_cons_of_ne_nil (by simp)
    have hm := note_moves (.comparisonAt first) r
    obtain ⟨a, r', hr, ht, hm'⟩ :=
      (expression_exact.chain relational_level (by decide)).takes h (hm.ahead_eq ha) hk hn
    refine ⟨a, r', ?_, ht, hm.trans hm'⟩
    unfold comparison
    rw [bind_eq (peek_eq (ha.trans hfirst)), bind_eq (note_eq _ r)]
    exact hr

end BasicToC.Read
