import BasicToC.Proofs.Listing.Constants
import BasicToC.Proofs.Listing.Rereading
import BasicToC.Proofs.Outline.Lines

/-!
# Outlines tell programs apart

A tree that has been read can be told from its outline. What an outline leaves out of a node, the
fields that hold nothing and the nesting of a chain of statements, follows from what it shows.

* `Carries`, `Carries.told`: the values of tokens, told by their records.
* `Told`: what the grammar derives is told by its sketch.
* `Factor.told`, `Chain.told`, `Rows.told`, `Statement.told`: so it is by every rule.
* `outline_tells_program`: programs of the same outline are the same tree.
-/

set_option autoImplicit false

namespace BasicToC

open BasicToC.Tree (part part_leaf part_symbol)
open BasicToC.Sketch (ofParts)

/-! ## Values -/

/-- The values that tokens of a kind carry. -/
inductive Carries : Token.Kind → Value → Prop where
  | integer (n : Nat) : Carries .integer (.whole n)
  | float {s : Nat} {e : Int} : Binary64.Canonical s e → Carries .float (.real (.finite false s e))
  | ident (s : String) : Carries .ident (.text s)
  | string (s : String) : Carries .string (.text s)

/-- The kinds of token that carry a value. -/
def carriers : List Token.Kind := [.integer, .float, .ident, .string]

theorem Token.Meant.carries {token : Token} {kind : Token.Kind} (h : token.Meant)
    (hkind : token.kind = kind) (hcarrier : kind ∈ carriers) : Carries kind token.value := by
  obtain ⟨rule, h⟩ := h
  rw [hkind] at h
  generalize token.value = v at h ⊢
  generalize token.lexeme.toList = lexeme at h
  cases h with
  | integer => exact .integer _
  | float _ _ _ rounded => exact .float rounded.canonical
  | name => exact .ident _
  | string => exact .string _
  | newline => exact absurd hcarrier (by decide)
  | keyword known =>
    have hother : ∀ kind ∈ carriers, kind ∉ Token.Kind.keywords := by decide
    exact absurd known (hother kind hcarrier)
  | operator known =>
    have hother : ∀ kind ∈ carriers, kind ∉ Token.Kind.operators := by decide
    exact absurd known (hother kind hcarrier)

theorem Carries.filled {kind : Token.Kind} {v : Value} (h : Carries kind v) : v ≠ .absent := by
  cases h <;> simp

theorem whole_record {n m : Nat} (h : (Value.whole n).record = (Value.whole m).record) : n = m := by
  have hdigits : decimalDigits n = decimalDigits m := by
    rw [← whole_shown, ← whole_shown]
    exact congrArg String.toList h
  rw [← digitsValue_decimalDigits n, hdigits, digitsValue_decimalDigits]

theorem Text.quoted_inj {s t : String} (h : Text.quoted s = Text.quoted t) : s = t := by
  have hchars : Text.quotedChars s.toList ++ [] = Text.quotedChars t.toList ++ [] := by
    rw [List.append_nil, List.append_nil]
    exact String.ofList_inj.1 h
  exact String.toList_inj.1 (Text.quotedChars_cancel hchars).1

/-- **The value of a token is told by its record** among the values of tokens of its kind. -/
theorem Carries.told {kind : Token.Kind} {v w : Value} (hv : Carries kind v) (hw : Carries kind w)
    (h : v.record = w.record) : v = w := by
  cases hv with
  | integer n =>
    cases hw with
    | integer m => rw [whole_record h]
  | float hs =>
    cases hw with
    | float hs' =>
      obtain ⟨rfl, rfl⟩ := Binary64.text_inj hs hs' h
      rfl
  | ident s | string s =>
    cases hw
    exact congrArg Value.text (Text.quoted_inj h)

/-! ## Nodes -/

section Nodes

variable {name other : String} {words words' : List String} {below below' : List Sketch}

theorem Sketch.node_inj (h : Sketch.node name words below = .node other words' below') :
    name = other ∧ words = words' ∧ below = below' := by
  simpa using h

theorem Tree.part_node {t : Tree} (h : t.isNode = true) (key : String) (s : Sketch) :
    part key t s = .below s := by
  cases t with
  | leaf | symbol => cases h
  | _ => rfl

theorem word_inj {key content content' : String} (h : key ++ "=" ++ content = key ++ "=" ++ content') :
    content = content' := (String.append_right_inj _).1 h

/-- What a token carries is told by the word of a field that holds it. -/
theorem carried_told {key : String} {kind : Token.Kind} {a b : Token} (hcarrier : kind ∈ carriers)
    (ha : a.Meant) (hb : b.Meant) (hka : a.kind = kind) (hkb : b.kind = kind)
    (h : key ++ "=" ++ a.value.record = key ++ "=" ++ b.value.record) : a.value = b.value :=
  (ha.carries hka hcarrier).told (hb.carries hkb hcarrier) (word_inj h)

/-- A node with one bare field. -/
theorem leaf_sketch {name key : String} {kind : Token.Kind} {a : Token} (hcarrier : kind ∈ carriers)
    (ha : a.Meant) (hka : a.kind = kind) (s : Sketch) :
    ofParts name [part key (.leaf a.value) s] =
      .node name [key ++ "=" ++ a.value.record] [] := by
  rw [part_leaf (ha.carries hka hcarrier).filled]
  rfl

/-- A node with one bare field is told by its sketch. -/
theorem leaf_told {name key : String} {kind : Token.Kind} {a b : Token} {s s' : Sketch}
    (hcarrier : kind ∈ carriers) (ha : a.Meant) (hb : b.Meant) (hka : a.kind = kind)
    (hkb : b.kind = kind)
    (h : ofParts name [part key (.leaf a.value) s] = ofParts name [part key (.leaf b.value) s']) :
    a.value = b.value := by
  rw [leaf_sketch hcarrier ha hka, leaf_sketch hcarrier hb hkb] at h
  obtain ⟨-, hwords, -⟩ := Sketch.node_inj h
  exact carried_told hcarrier ha hb hka hkb (List.cons_eq_cons.1 hwords).1

end Nodes

namespace Grammar

/-- What a rule derives from the tokens of texts is told by its sketch. -/
def Told (derives : List Token → Tree → Prop) : Prop :=
  ∀ ⦃ts us : List Token⦄ ⦃t u : Tree⦄, derives ts t → derives us u →
    (∀ token ∈ ts, token.Meant) → (∀ token ∈ us, token.Meant) → t.sketch = u.sketch → t = u

/-- Nodes of different names have different sketches. -/
theorem name_told {name other : String} {parts parts' : List Sketch.Part}
    (h : ofParts name parts = ofParts other parts') : name = other := (Sketch.node_inj h).1

/-! ## What is computed -/

theorem Operand.isNode {token : Token} {t : Tree} (h : Operand token t) : t.isNode = true := by
  cases h <;> rfl

theorem Operand.told {a b : Token} {t u : Tree} (h : Operand a t) (h' : Operand b u) (ha : a.Meant)
    (hb : b.Meant) (hsketch : t.sketch = u.sketch) : t = u := by
  cases h with
  | integer hk =>
    cases h' with
    | integer hk' => rw [leaf_told (by decide) ha hb hk hk' hsketch]
    | float | named => exact absurd (name_told hsketch) (by decide)
  | float hk =>
    cases h' with
    | float hk' => rw [leaf_told (by decide) ha hb hk hk' hsketch]
    | integer | named => exact absurd (name_told hsketch) (by decide)
  | named hk =>
    cases h' with
    | named hk' => rw [leaf_told (by decide) ha hb hk hk' hsketch]
    | integer | float => exact absurd (name_told hsketch) (by decide)

theorem Factor.isNode {ts : List Token} {t : Tree} (h : Factor ts t) : t.isNode = true := by
  cases h <;> rfl

/-- The word of an operator. -/
def operatorWord (kind : Token.Kind) : String := "operator" ++ "=" ++ Text.quoted kind.spelling

theorem operatorWord_told {operators : List Token.Kind}
    (hinj : ∀ k ∈ operators, ∀ l ∈ operators, k.spelling = l.spelling → k = l) {k l : Token.Kind}
    (hk : k ∈ operators) (hl : l ∈ operators) (h : operatorWord k = operatorWord l) : k = l :=
  hinj k hk l hl (Text.quoted_inj (word_inj h))

theorem unary_plain {t : Tree} (ht : t.isNode = true) :
    (Tree.unary t .nothing).sketch = .node "Unary" [] [t.sketch] := by
  rw [Tree.sketch, Tree.part_node ht]
  rfl

theorem unary_signed {t : Tree} (ht : t.isNode = true) (kind : Token.Kind) :
    (Tree.unary t (.symbol kind)).sketch = .node "Unary" [operatorWord kind] [t.sketch] := by
  rw [Tree.sketch, Tree.part_node ht, part_symbol]
  rfl

theorem Factor.told : Told Factor := by
  intro ts us t u h h' hts hus hsketch
  cases h with
  | plain h =>
    cases h' with
    | plain h' =>
      rw [unary_plain h.isNode, unary_plain h'.isNode] at hsketch
      obtain ⟨-, -, hbelow⟩ := Sketch.node_inj hsketch
      rw [h.told h' (hts _ (by simp)) (hus _ (by simp)) (List.cons_eq_cons.1 hbelow).1]
    | signed hs h' =>
      rw [unary_plain h.isNode, unary_signed h'.isNode] at hsketch
      simp at hsketch
  | signed hs h =>
    cases h' with
    | plain h' =>
      rw [unary_signed h.isNode, unary_plain h'.isNode] at hsketch
      simp at hsketch
    | signed hs' h' =>
      rw [unary_signed h.isNode, unary_signed h'.isNode] at hsketch
      obtain ⟨-, hwords, hbelow⟩ := Sketch.node_inj hsketch
      rw [h.told h' (hts _ (by simp)) (hus _ (by simp)) (List.cons_eq_cons.1 hbelow).1,
        operatorWord_told (by decide) hs hs' (List.cons_eq_cons.1 hwords).1]

section Chains

variable {operators : List Token.Kind} {node : Tree → Tree → Tree → Tree}
  {operand : List Token → Tree → Prop} {name first rest : String}

theorem Chain.isNode {ts : List Token} {t : Tree} (hnode : ∀ t o u, (node t o u).isNode = true)
    (h : Chain operators node operand ts t) : t.isNode = true := by
  cases h <;> exact hnode _ _ _

/-- **A chain is told by its sketch**, if its operands are. A further operand shows below its node,
and its operator in the brackets; the last node shows neither. The induction is on the chain. -/
theorem Chain.told (hinj : ∀ k ∈ operators, ∀ l ∈ operators, k.spelling = l.spelling → k = l)
    (hsketch : ∀ t o u, (node t o u).sketch =
      ofParts name [part first t t.sketch, part "operator" o o.sketch, part rest u u.sketch])
    (hnode : ∀ t o u, (node t o u).isNode = true)
    (hoperand : ∀ ts t, operand ts t → t.isNode = true) (htold : Told operand) :
    Told (Chain operators node operand) := by
  have hlast {t : Tree} (ht : t.isNode = true) :
      (node t .nothing .nothing).sketch = .node name [] [t.sketch] := by
    rw [hsketch, Tree.part_node ht]
    rfl
  have hlink {t u : Tree} (ht : t.isNode = true) (hu : u.isNode = true) (kind : Token.Kind) :
      (node t (.symbol kind) u).sketch = .node name [operatorWord kind] [t.sketch, u.sketch] := by
    rw [hsketch, Tree.part_node ht, Tree.part_node hu, part_symbol]
    rfl
  intro ts us t u h h' hts hus heq
  induction h generalizing us u with
  | last h =>
    cases h' with
    | last h' =>
      rw [hlast (hoperand _ _ h), hlast (hoperand _ _ h')] at heq
      obtain ⟨-, -, hbelow⟩ := Sketch.node_inj heq
      rw [htold h h' hts hus (List.cons_eq_cons.1 hbelow).1]
    | link h' hk' hmore' =>
      rw [hlast (hoperand _ _ h), hlink (hoperand _ _ h') (hmore'.isNode hnode)] at heq
      simp at heq
  | link h hk hmore ih =>
    cases h' with
    | last h' =>
      rw [hlink (hoperand _ _ h) (hmore.isNode hnode), hlast (hoperand _ _ h')] at heq
      simp at heq
    | link h' hk' hmore' =>
      rw [hlink (hoperand _ _ h) (hmore.isNode hnode),
        hlink (hoperand _ _ h') (hmore'.isNode hnode)] at heq
      obtain ⟨-, hwords, hbelow⟩ := Sketch.node_inj heq
      obtain ⟨hfirst, hbelow⟩ := List.cons_eq_cons.1 hbelow
      rw [htold h h' (fun token hm => hts token (by simp [hm]))
          (fun token hm => hus token (by simp [hm])) hfirst,
        operatorWord_told hinj hk hk' (List.cons_eq_cons.1 hwords).1,
        ih hmore' (fun token hm => hts token (by simp [hm]))
          (fun token hm => hus token (by simp [hm])) (List.cons_eq_cons.1 hbelow).1]

end Chains

theorem Term.told : Told Term :=
  Chain.told (by decide) (fun _ _ _ => rfl) (fun _ _ _ => rfl) (fun _ _ => Factor.isNode) Factor.told

theorem Expression.told : Told Expression :=
  Chain.told (by decide) (fun _ _ _ => rfl) (fun _ _ _ => rfl)
    (fun _ _ => Chain.isNode fun _ _ _ => rfl) Term.told

theorem Comparison.told : Told Comparison :=
  Chain.told (by decide) (fun _ _ _ => rfl) (fun _ _ _ => rfl)
    (fun _ _ => Chain.isNode fun _ _ _ => rfl) Expression.told

/-! ## What is done -/

theorem Rows.isNode {statement : List Token → Tree → Prop} {ts : List Token} {t : Tree}
    (h : Rows statement ts t) : t.isNode = true := by
  cases h <;> rfl

/-- The sketch of statements one after another tells the sketches of the statements. -/
theorem Rows.sketchChain_told {statement : List Token → Tree → Prop} {ts us : List Token} {t u : Tree}
    (h : Rows statement ts t) (h' : Rows statement us u) (hsketch : t.sketch = u.sketch) :
    t.sketchChain = u.sketchChain := by
  have hnames : "End" ≠ "Sequence" := by decide
  cases h with
  | done =>
    cases h' with
    | done => rfl
    | next => exact absurd (Sketch.node_inj hsketch).1 hnames
  | next =>
    cases h' with
    | done => exact absurd (Sketch.node_inj hsketch).1.symm hnames
    | next => exact (Sketch.node_inj hsketch).2.2

/-- Statements one after another are told by their sketches, if each of them is. -/
theorem Rows.told {statement : List Token → Tree → Prop} {ts us : List Token} {t u : Tree}
    (hs : ∀ vs v, vs.length ≤ ts.length → statement vs v → (∀ token ∈ vs, token.Meant) →
      ∀ ws w, statement ws w → (∀ token ∈ ws, token.Meant) → v.sketch = w.sketch → v = w)
    (h : Rows statement ts t) (h' : Rows statement us u) (hts : ∀ token ∈ ts, token.Meant)
    (hus : ∀ token ∈ us, token.Meant) (hchain : t.sketchChain = u.sketchChain) : t = u := by
  induction h generalizing us u with
  | done =>
    cases h' with
    | done => rfl
    | next => simp [Tree.sketchChain] at hchain
  | @next blank vs rows first rest hblank hfirst hrest ih =>
    cases h' with
    | done => simp [Tree.sketchChain] at hchain
    | @next blank' vs' rows' first' rest' hblank' hfirst' hrest' =>
      have hlen : vs.length ≤ (blank ++ vs ++ rows).length ∧
          rows.length ≤ (blank ++ vs ++ rows).length := by
        simp only [List.length_append]
        omega
      simp only [Tree.sketchChain, List.cons.injEq] at hchain
      rw [hs vs first hlen.1 hfirst (fun token hm => hts token (by simp [hm])) vs' first' hfirst'
          (fun token hm => hus token (by simp [hm])) hchain.1,
        ih (fun ws w hle => hs ws w (Nat.le_trans hle hlen.2)) hrest'
          (fun token hm => hts token (by simp [hm])) (fun token hm => hus token (by simp [hm]))
          hchain.2]

/-- A node with one node below it is told by that. -/
theorem below_told {name key : String} {t u : Tree} (ht : t.isNode = true) (hu : u.isNode = true)
    (h : ofParts name [part key t t.sketch] = ofParts name [part key u u.sketch]) :
    t.sketch = u.sketch := by
  rw [Tree.part_node ht, Tree.part_node hu] at h
  exact (List.cons_eq_cons.1 (Sketch.node_inj h).2.2).1

/-- A node with two nodes below it is told by both. -/
theorem pair_told {name first second : String} {t u t' u' : Tree} (ht : t.isNode = true)
    (hu : u.isNode = true) (ht' : t'.isNode = true) (hu' : u'.isNode = true)
    (h : ofParts name [part first t t.sketch, part second u u.sketch] =
      ofParts name [part first t' t'.sketch, part second u' u'.sketch]) :
    t.sketch = t'.sketch ∧ u.sketch = u'.sketch := by
  rw [Tree.part_node ht, Tree.part_node hu, Tree.part_node ht', Tree.part_node hu'] at h
  obtain ⟨hfirst, hmore⟩ := List.cons_eq_cons.1 (Sketch.node_inj h).2.2
  exact ⟨hfirst, (List.cons_eq_cons.1 hmore).1⟩

/-- A node of a condition and a body has one of two names. -/
theorem Block.name_told {opener middle closer : Token.Kind} {node : Tree → Tree → Tree}
    (hb : Block opener middle closer node) {condition body : Tree} {name : String}
    {parts : List Sketch.Part} (h : (node condition body).sketch = ofParts name parts) :
    name ∈ ["If", "While"] := by
  cases hb <;> simp [← Grammar.name_told h]

/-- A node of a condition and a body is told by both and by its name. -/
theorem Block.told {opener middle closer opener' middle' closer' : Token.Kind}
    {node node' : Tree → Tree → Tree} (hb : Block opener middle closer node)
    (hb' : Block opener' middle' closer' node') {condition body condition' body' : Tree}
    (hc : condition.isNode = true) (hr : body.isNode = true) (hc' : condition'.isNode = true)
    (hr' : body'.isNode = true)
    (h : (node condition body).sketch = (node' condition' body').sketch) :
    node = node' ∧ condition.sketch = condition'.sketch ∧ body.sketch = body'.sketch := by
  cases hb with
  | when =>
    cases hb' with
    | when => exact ⟨rfl, pair_told hc hr hc' hr' h⟩
    | loop => exact absurd (Grammar.name_told h) (by decide)
  | loop =>
    cases hb' with
    | when => exact absurd (Grammar.name_told h) (by decide)
    | loop => exact ⟨rfl, pair_told hc hr hc' hr' h⟩

/-- A node with a bare field and a node below it is told by both. -/
theorem assign_told {a b : Token} {t u : Tree} {s s' : Sketch} (ha : a.Meant) (hb : b.Meant)
    (hka : a.kind = .ident) (hkb : b.kind = .ident) (ht : t.isNode = true) (hu : u.isNode = true)
    (h : ofParts "Let" [part "name" (.leaf a.value) s, part "expression" t t.sketch] =
      ofParts "Let" [part "name" (.leaf b.value) s', part "expression" u u.sketch]) :
    a.value = b.value ∧ t.sketch = u.sketch := by
  rw [part_leaf (ha.carries hka (by decide)).filled, part_leaf (hb.carries hkb (by decide)).filled,
    Tree.part_node ht, Tree.part_node hu] at h
  obtain ⟨-, hwords, hbelow⟩ := Sketch.node_inj h
  exact ⟨carried_told (by decide) ha hb hka hkb (List.cons_eq_cons.1 hwords).1,
    (List.cons_eq_cons.1 hbelow).1⟩

theorem Expression.isNode {ts : List Token} {t : Tree} (h : Expression ts t) : t.isNode = true :=
  Chain.isNode (fun _ _ _ => rfl) h

theorem Comparison.isNode {ts : List Token} {t : Tree} (h : Comparison ts t) : t.isNode = true :=
  Chain.isNode (fun _ _ _ => rfl) h

/-- **A statement is told by its sketch.** The induction is on its tokens; the name of its node says
by which rule it has been derived. -/
theorem Statement.told : Told Statement := by
  intro ts us t u h h' hts hus hsketch
  refine Statement.induction (motive := fun ts t => (∀ token ∈ ts, token.Meant) →
    ∀ us u, Statement us u → (∀ token ∈ us, token.Meant) → t.sketch = u.sketch → t = u) ?_ h hts
    us u h' hus hsketch
  clear h h' hts hus hsketch
  intro ts t h ih hts us u h' hus hsketch
  cases h with
  | print hw he hs =>
    cases h' with
    | print hw' he' hs' =>
      rw [he.told he' (fun token hm => hts token (by simp [hm]))
        (fun token hm => hus token (by simp [hm])) (below_told he.isNode he'.isNode hsketch)]
    | block hb => exact absurd (hb.name_told hsketch.symm) (by decide)
    | _ => exact absurd (name_told hsketch) (by decide)
  | printText hw ht hs =>
    cases h' with
    | printText hw' ht' hs' =>
      rw [leaf_told (by decide) (hts _ (by simp)) (hus _ (by simp)) ht ht' hsketch]
    | block hb => exact absurd (hb.name_told hsketch.symm) (by decide)
    | _ => exact absurd (name_told hsketch) (by decide)
  | @block opener middle closer node o m s c stop ts rows condition body hb ho hc hm hs hrows hcl ht =>
    cases h' with
    | @block opener' middle' closer' node' o' m' s' c' stop' us rows' condition' body' hb' ho' hc'
        hm' hs' hrows' hcl' ht' =>
      obtain ⟨rfl, hcondition, hbody⟩ := hb.told hb' hc.isNode hrows.isNode hc'.isNode hrows'.isNode
        hsketch
      have hconditions : condition = condition' :=
        hc.told hc' (fun token hm => hts token (by simp [hm]))
          (fun token hm => hus token (by simp [hm])) hcondition
      have hbodies : body = body' := by
        refine hrows.told (fun vs v hlen hv hvs ws w hw hws => ih vs v ?_ hv hvs ws w hw hws) hrows'
          (fun token hm => hts token (by simp [hm])) (fun token hm => hus token (by simp [hm]))
          (hrows.sketchChain_told hrows' hbody)
        simp only [List.length_append, List.length_cons]
        omega
      rw [hconditions, hbodies]
    | _ => exact absurd (hb.name_told hsketch) (by decide)
  | label hw hn hs =>
    cases h' with
    | label hw' hn' hs' =>
      rw [leaf_told (by decide) (hts _ (by simp)) (hus _ (by simp)) hn hn' hsketch]
    | block hb => exact absurd (hb.name_told hsketch.symm) (by decide)
    | _ => exact absurd (name_told hsketch) (by decide)
  | goto hw hn hs =>
    cases h' with
    | goto hw' hn' hs' =>
      rw [leaf_told (by decide) (hts _ (by simp)) (hus _ (by simp)) hn hn' hsketch]
    | block hb => exact absurd (hb.name_told hsketch.symm) (by decide)
    | _ => exact absurd (name_told hsketch) (by decide)
  | assign hw hn heq he hs =>
    cases h' with
    | assign hw' hn' heq' he' hs' =>
      obtain ⟨hname, hvalue⟩ := assign_told (hts _ (by simp)) (hus _ (by simp)) hn hn' he.isNode
        he'.isNode hsketch
      rw [hname, he.told he' (fun token hm => hts token (by simp [hm]))
        (fun token hm => hus token (by simp [hm])) hvalue]
    | block hb => exact absurd (hb.name_told hsketch.symm) (by decide)
    | _ => exact absurd (name_told hsketch) (by decide)
  | input hw hn hs =>
    cases h' with
    | input hw' hn' hs' =>
      rw [leaf_told (by decide) (hts _ (by simp)) (hus _ (by simp)) hn hn' hsketch]
    | block hb => exact absurd (hb.name_told hsketch.symm) (by decide)
    | _ => exact absurd (name_told hsketch) (by decide)

/-- **A program is told by its sketch.** -/
theorem Program.told : Told Program := fun _ _ _ _ h h' hts hus hsketch =>
  Rows.told (fun _ _ _ hv hvs _ _ hw hws heq => Statement.told hv hw hvs hws heq) h h' hts hus
    (Rows.sketchChain_told h h' hsketch)

end Grammar

/-- **Programs of the same outline are the same tree**, whatever texts they have been read from. The
outlines may stand at any indentation, as long as it is one. -/
theorem outline_tells_program {source other : String} {tokens tokens' : List Token}
    {p q : Program} {reader reader' : Reader} (hscan : Token.scan source = .ok tokens)
    (hscan' : Token.scan other = .ok tokens')
    (hread : Read.program (Reader.ofTokens tokens) = .ok p reader)
    (hread' : Read.program (Reader.ofTokens tokens') = .ok q reader') {indents : Int}
    {outline : String} (h : (Program.tree p).outline indents = .ok outline)
    (h' : (Program.tree q).outline indents = .ok outline) : Program.tree p = Program.tree q := by
  obtain ⟨hp, -⟩ := program_of_text hscan hread
  obtain ⟨hq, -⟩ := program_of_text hscan' hread'
  obtain ⟨ts, stop, rfl, -, hts⟩ := scan_meant hscan
  obtain ⟨us, stop', rfl, -, hus⟩ := scan_meant hscan'
  rw [List.dropLast_concat] at hp hq
  exact Grammar.Program.told hp hq hts hus (Tree.outline_tells h h')

/-- A text that looks like the end of an outline, and a number. -/
def briefText : String := "PRINT\"nodes=[\\n])\"\nPRINT+1.5\n"

/-- The same program with blanks, a comment and a zero more. -/
def wordyText : String := "\n  PRINT \"nodes=[\\n])\" # quoted\nPRINT + 1.50\n"

/-- The outline of both. -/
def briefOutline : String :=
  "Sequence(nodes=[\n    PrintString(text='nodes=[\\\\n])'),\n    Print(nodes=[\n" ++
    "        Expression(nodes=[\n            Term(nodes=[\n" ++
    "                Unary(operator='+', nodes=[\n                    Float(value=1.5)\n" ++
    "                ])\n            ])\n        ])\n    ])\n])"

theorem wordyText_told_as_briefText : ∃ tokens tokens' p q reader reader',
    Token.scan briefText = .ok tokens ∧ Token.scan wordyText = .ok tokens' ∧
    Read.program (Reader.ofTokens tokens) = .ok p reader ∧
    Read.program (Reader.ofTokens tokens') = .ok q reader' ∧
    (Program.tree p).outline 0 = .ok briefOutline ∧ (Program.tree q).outline 0 = .ok briefOutline ∧
    Program.tree p = Program.tree q := by
  have hread {source : String} (h : (match Token.scan source with
      | .ok tokens =>
        match Read.program (Reader.ofTokens tokens) with
        | .ok program _ => decide ((Program.tree program).outline 0 = .ok briefOutline)
        | .error _ _ => false
      | .error _ => false) = true) : ∃ tokens program reader, Token.scan source = .ok tokens ∧
        Read.program (Reader.ofTokens tokens) = .ok program reader ∧
        (Program.tree program).outline 0 = .ok briefOutline := by
    split at h
    · rename_i tokens hscan
      split at h
      · rename_i program reader hprogram
        exact ⟨tokens, program, reader, hscan, hprogram, of_decide_eq_true h⟩
      · cases h
    · cases h
  obtain ⟨tokens, p, reader, hscan, hp, houtline⟩ := @hread briefText (by decide +kernel)
  obtain ⟨tokens', q, reader', hscan', hq, houtline'⟩ := @hread wordyText (by decide +kernel)
  exact ⟨tokens, tokens', p, q, reader, reader', hscan, hscan', hp, hq, houtline, houtline',
    outline_tells_program hscan hscan' hp hq houtline houtline'⟩

end BasicToC
