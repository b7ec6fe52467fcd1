import BasicToC.Proofs.Outline.Words
import BasicToC.Proofs.Sequence

/-!
# Outlines tell what they show

At one indentation an outline tells where it ends and which sketch it shows, whatever stands behind
it.

* `Sketch.Tidy`: a sketch whose names and words can be told apart.
* `items`, `draw_items`: an outline as its indentation, the name of its node and what stands in the
  brackets.
* `draw_cancel`: two outlines at the head of one text.
* `Tree.sketch_tidy`, `outline_tells`: the sketches of trees.
-/

set_option autoImplicit false

namespace BasicToC

open Outline

namespace Sketch

/-- A sketch whose names and words can be told apart, as far as it consists of nodes. -/
inductive Tidy : Sketch → Prop where
  | bare : Tidy .bare
  | node {name : String} {words : List String} {below : List Sketch} :
      Letters name.toList → (∀ word ∈ words, IsWord word.toList) →
      (∀ s ∈ below, Tidy s) → Tidy (.node name words below)

/-! ## What stands in the brackets -/

/-- The nodes below a node as they stand in its brackets, under a key of their own. -/
def nodesBelow (indents : Int) (outlines : List (List Char)) : List Char :=
  "nodes".toList ++ '=' :: ('[' :: '\n' :: ([',', '\n'].intercalate outlines ++
    '\n' :: ((Text.indentation indents).toList ++ [']'])))

/-- What stands in the brackets of a node, between commas. -/
def items (indents : Int) (words outlines : List (List Char)) : List (List Char) :=
  words ++ if outlines = [] then [] else [nodesBelow indents outlines]

variable {room : Nat} {indents : Int} {name : String} {words : List String} {below : List Sketch}

theorem draw_items {text : String} (h : draw (room + 1) indents (.node name words below) = .ok text) :
    ∃ outlines, below.mapM (draw room (indents + 1)) = .ok outlines ∧
      text.toList = (Text.indentation indents).toList ++ (name.toList ++ '(' ::
        ([',', ' '].intercalate (items indents (words.map String.toList)
          (outlines.map String.toList)) ++ [')'])) := by
  rw [draw] at h
  cases hbelow : below.mapM (draw room (indents + 1)) with
  | error fault =>
    rw [hbelow] at h
    cases h
  | ok outlines =>
    refine ⟨outlines, rfl, ?_⟩
    rw [hbelow] at h
    cases outlines with
    | nil =>
      cases h
      simp [items, String.toList_intercalate]
    | cons first others =>
      cases h
      cases words with
      | nil => simp [items, nodesBelow, String.toList_intercalate]
      | cons word words =>
        have hwords : (word :: words).map String.toList ≠ [] := by simp
        have hnodes : (first :: others).map String.toList ≠ [] := by simp
        rw [items, if_neg hnodes, intercalate_concat hwords]
        simp [nodesBelow, String.toList_intercalate]

/-! ## What they tell -/

/-- The outlines of tidy sketches at one indentation. -/
def Drawn (room : Nat) (indents : Int) (outline : List Char) : Prop :=
  ∃ s text, s.Tidy ∧ draw room indents s = .ok text ∧ outline = text.toList

/-- What stands between commas in the brackets of a node: a word, or the nodes below. -/
inductive IsItem (room : Nat) (indents : Int) : List Char → Prop where
  | word {word : List Char} : IsWord word → IsItem room indents word
  | nodes {first : List Char} {others : List (List Char)} :
      (∀ outline ∈ first :: others, Drawn room (indents + 1) outline) →
      IsItem room indents (nodesBelow indents (first :: others))

/-- Outlines tell where they end and what they show. -/
def Tells (room : Nat) (indents : Int) : Prop :=
  ∀ ⦃s t : Sketch⦄ ⦃x y : String⦄ ⦃rest more : List Char⦄, s.Tidy → t.Tidy →
    draw room indents s = .ok x → draw room indents t = .ok y →
    x.toList ++ rest = y.toList ++ more → s = t ∧ rest = more

theorem Tells.endsAt (h : Tells room indents) (marks : List Char) :
    EndsAt marks (Drawn room indents) := by
  rintro x y ⟨s, text, hs, hdraw, rfl⟩ ⟨t, text', ht, hdraw', rfl⟩ c - d - rest more heq
  obtain ⟨rfl, -⟩ := h hs ht hdraw hdraw' heq
  rw [hdraw] at hdraw'
  cases hdraw'
  rfl

theorem drawn_below {outlines : List String} (hbelow : ∀ s ∈ below, s.Tidy)
    (h : below.mapM (draw room indents) = .ok outlines) :
    ∀ outline ∈ outlines.map String.toList, Drawn room indents outline := by
  induction below generalizing outlines with
  | nil =>
    cases h
    simp
  | cons s below ih =>
    obtain ⟨text, texts, hdraw, hothers, rfl⟩ := mapM_cons_ok h
    obtain ⟨hs, hbelow⟩ := List.forall_mem_cons.1 hbelow
    exact List.forall_mem_cons.2 ⟨⟨s, text, hs, hdraw, rfl⟩, ih hbelow hothers⟩

/-- Nodes below a node are told by their outlines. -/
theorem Tells.sketches (h : Tells room indents) {others : List Sketch} {outlines : List String}
    (hbelow : ∀ s ∈ below, s.Tidy) (hothers : ∀ s ∈ others, s.Tidy)
    (hdraw : below.mapM (draw room indents) = .ok outlines)
    (hdraw' : others.mapM (draw room indents) = .ok outlines) : below = others := by
  induction below generalizing others outlines with
  | nil =>
    cases hdraw
    cases others with
    | nil => rfl
    | cons t others =>
      obtain ⟨text, texts, -, -, heq⟩ := mapM_cons_ok hdraw'
      cases heq
  | cons s below ih =>
    obtain ⟨text, texts, hfirst, hmore, rfl⟩ := mapM_cons_ok hdraw
    cases others with
    | nil => cases hdraw'
    | cons t others =>
      obtain ⟨text', texts', hfirst', hmore', heq⟩ := mapM_cons_ok hdraw'
      cases heq
      obtain ⟨hs, hbelow⟩ := List.forall_mem_cons.1 hbelow
      obtain ⟨ht, hrest⟩ := List.forall_mem_cons.1 hothers
      obtain ⟨rfl, -⟩ := @h s t text text [] [] hs ht hfirst hfirst' rfl
      rw [ih hbelow hrest hmore hmore']

/-- The nodes below are told from what stands behind them. -/
theorem nodesBelow_cancel (h : Tells room (indents + 1)) {x y rest more : List Char}
    {xs ys : List (List Char)} (hx : ∀ outline ∈ x :: xs, Drawn room (indents + 1) outline)
    (hy : ∀ outline ∈ y :: ys, Drawn room (indents + 1) outline)
    (heq : nodesBelow indents (x :: xs) ++ rest = nodesBelow indents (y :: ys) ++ more) :
    x :: xs = y :: ys := by
  unfold nodesBelow at heq
  simp only [List.append_assoc, List.cons_append] at heq
  have hlines := (List.cons_eq_cons.1 (List.cons_eq_cons.1 (List.cons_eq_cons.1
    (List.append_cancel_left heq)).2).2).2
  exact ((h.endsAt _).intercalate (by decide) hx hy hlines).1

theorem IsItem.key {item : List Char} (h : IsItem room indents item) :
    ∃ key content, Letters key ∧ item = key ++ '=' :: content := by
  cases h with
  | word h =>
    obtain ⟨hkey, -, -⟩ := h
    exact ⟨_, _, hkey, rfl⟩
  | nodes _ => exact ⟨"nodes".toList, _, by decide, rfl⟩

theorem word_ne_nodesBelow {word rest more : List Char} (h : IsWord word)
    (outlines : List (List Char)) : word ++ rest ≠ nodesBelow indents outlines ++ more := by
  obtain ⟨hkey, hother, -⟩ := h
  intro heq
  unfold nodesBelow at heq
  rw [List.append_assoc, List.append_assoc] at heq
  exact hother (key_cancel hkey (by decide) heq).1

theorem items_are {outlines : List (List Char)} (hwords : ∀ word ∈ words, IsWord word.toList)
    (houtlines : ∀ outline ∈ outlines, Drawn room (indents + 1) outline) :
    ∀ item ∈ items indents (words.map String.toList) outlines, IsItem room indents item := by
  intro item hitem
  rcases List.mem_append.1 hitem with hword | hnodes
  · obtain ⟨word, hmem, rfl⟩ := List.mem_map.1 hword
    exact .word (hwords word hmem)
  · cases outlines with
    | nil => cases hnodes
    | cons first others =>
      obtain rfl := List.mem_singleton.1 hnodes
      exact .nodes houtlines

/-- **What stands between commas in the brackets of a node is told from what stands behind.** -/
theorem Tells.items (h : Tells room (indents + 1)) : EndsAt [',', ')'] (IsItem room indents) := by
  intro x y hx hy c hc d hd rest more heq
  cases hx with
  | word hword =>
    cases hy with
    | word hother =>
      obtain ⟨hkey, -, hcontent⟩ := hword
      obtain ⟨hkey', -, hcontent'⟩ := hother
      rw [List.append_assoc, List.append_assoc] at heq
      obtain ⟨rfl, htail⟩ := key_cancel hkey hkey' heq
      rw [Content.endsAt _ _ hcontent hcontent' c hc d hd rest more htail]
    | nodes _ => exact absurd heq (word_ne_nodesBelow hword _)
  | nodes hnodes =>
    cases hy with
    | word hword => exact absurd heq.symm (word_ne_nodesBelow hword _)
    | nodes hothers => rw [nodesBelow_cancel h hnodes hothers heq]

/-- The lists of what stands between commas in brackets are told from what stands behind. -/
theorem Tells.brackets (h : Tells room (indents + 1)) {xs ys : List (List Char)}
    {rest more : List Char} (hx : ∀ item ∈ xs, IsItem room indents item)
    (hy : ∀ item ∈ ys, IsItem room indents item)
    (heq : [',', ' '].intercalate xs ++ ')' :: rest = [',', ' '].intercalate ys ++ ')' :: more) :
    xs = ys ∧ rest = more := by
  have hstart {item tail others : List Char} (hitem : IsItem room indents item) :
      item ++ tail ≠ ')' :: others := by
    obtain ⟨key, content, hkey, rfl⟩ := hitem.key
    cases key with
    | nil => simp
    | cons c key =>
      rintro heq
      have hc := hkey c (List.mem_cons_self ..)
      rw [(List.cons_eq_cons.1 heq).1] at hc
      cases hc
  cases xs with
  | nil =>
    cases ys with
    | nil => simpa using heq
    | cons y ys =>
      rw [intercalate_append] at heq
      exact absurd heq.symm (hstart (hy y (List.mem_cons_self ..)))
  | cons x xs =>
    cases ys with
    | nil =>
      rw [intercalate_append] at heq
      exact absurd heq (hstart (hx x (List.mem_cons_self ..)))
    | cons y ys => exact h.items.intercalate (by decide) hx hy heq

/-- The words and the outlines of a node are told by what stands in its brackets. -/
theorem items_inj (h : Tells room (indents + 1)) {words others xs ys : List (List Char)}
    (hwords : ∀ word ∈ words, IsWord word) (hothers : ∀ word ∈ others, IsWord word)
    (hx : ∀ outline ∈ xs, Drawn room (indents + 1) outline)
    (hy : ∀ outline ∈ ys, Drawn room (indents + 1) outline)
    (heq : items indents words xs = items indents others ys) : words = others ∧ xs = ys := by
  have happart {words others outlines : List (List Char)} (hwords : ∀ word ∈ words, IsWord word) :
      words ≠ others ++ [nodesBelow indents outlines] := by
    rintro rfl
    exact @word_ne_nodesBelow indents _ [] [] (hwords (nodesBelow indents outlines) (by simp)) _ rfl
  unfold items at heq
  cases xs with
  | nil =>
    cases ys with
    | nil => simpa using heq
    | cons y ys =>
      rw [if_pos rfl, if_neg (by simp), List.append_nil] at heq
      exact absurd heq (happart hwords)
  | cons x xs =>
    cases ys with
    | nil =>
      rw [if_pos rfl, if_neg (by simp), List.append_nil] at heq
      exact absurd heq.symm (happart hothers)
    | cons y ys =>
      rw [if_neg (by simp), if_neg (by simp)] at heq
      obtain ⟨hwords, hnodes⟩ := List.append_inj' heq rfl
      refine ⟨hwords, @nodesBelow_cancel room indents h x y [] [] xs ys hx hy ?_⟩
      rw [(List.cons_eq_cons.1 hnodes).1]

/-- **At one indentation an outline tells where it ends and which sketch it shows.** The induction is
on the levels that are drawn. -/
theorem draw_tells (room : Nat) (indents : Int) : Tells room indents := by
  induction room generalizing indents with
  | zero =>
    intro s t x y rest more _ _ hdraw
    cases s <;> cases hdraw
  | succ room ih =>
    intro s t x y rest more hs ht hdraw hdraw' heq
    cases hs with
    | bare => cases hdraw
    | @node name words below hname hwords hbelow =>
      cases ht with
      | bare => cases hdraw'
      | @node name' words' below' hname' hwords' hbelow' =>
        obtain ⟨outlines, hmap, htext⟩ := draw_items hdraw
        obtain ⟨outlines', hmap', htext'⟩ := draw_items hdraw'
        have hdrawn := drawn_below hbelow hmap
        have hdrawn' := drawn_below hbelow' hmap'
        rw [htext, htext'] at heq
        simp only [List.append_assoc, List.cons_append, List.nil_append] at heq
        have hline := List.append_cancel_left heq
        obtain hsame := sort_cancel hname hname' (by decide) (by decide) hline
        rw [hsame] at hline
        have hbrackets := (List.cons_eq_cons.1 (List.append_cancel_left hline)).2
        obtain ⟨hitems, hrest⟩ := (ih (indents + 1)).brackets
          (items_are hwords hdrawn) (items_are hwords' hdrawn') hbrackets
        obtain ⟨hwordsSame, houtlines⟩ := items_inj (ih (indents + 1))
          (List.forall_mem_map.2 hwords) (List.forall_mem_map.2 hwords') hdrawn hdrawn' hitems
        have htexts : ∀ a b : String, a.toList = b.toList → a = b := fun _ _ => String.toList_inj.1
        rw [List.map_inj_right htexts] at hwordsSame houtlines
        rw [← houtlines] at hmap'
        rw [htexts _ _ hsame, hwordsSame,
          (ih (indents + 1)).sketches hbelow hbelow' hmap hmap']
        exact ⟨rfl, hrest⟩

end Sketch

/-! ## The sketches of trees -/

namespace Tree

open Sketch

/-- The keys of words, which are the names of fields. -/
def keys : List String :=
  ["value", "name", "primary", "operator", "unary", "rest", "term", "left", "right", "expression",
    "text", "comparison", "body"]

/-- The names of nodes. -/
def names : List String :=
  ["Integer", "Float", "Variable", "Unary", "Term", "Expression", "Comparison", "Print",
    "PrintString", "Let", "Input", "Label", "Goto", "If", "While", "End", "Sequence"]

theorem names_letters : ∀ name ∈ names, Letters name.toList := by decide

theorem keyed_isWord {key content : String} (hkey : key ∈ keys) (h : Content content.toList) :
    IsWord (key ++ "=" ++ content).toList := by
  have hletters : ∀ key ∈ keys, Letters key.toList := by decide
  have hother : ∀ key ∈ keys, key.toList ≠ "nodes".toList := by decide
  have htext : (key ++ "=" ++ content).toList = key.toList ++ '=' :: content.toList := by simp
  rw [htext]
  exact .intro (hletters key hkey) (hother key hkey) h

/-- The word of a field that holds a bare value. -/
theorem part_leaf {v : Value} (hv : v ≠ .absent) (key : String) (s : Sketch) :
    part key (.leaf v) s = .words (key ++ "=" ++ v.record) := by
  cases v with
  | absent => exact absurd rfl hv
  | _ => rfl

/-- The word of a field that holds an operator. -/
theorem part_symbol (kind : Token.Kind) (key : String) (s : Sketch) :
    part key (.symbol kind) s = .words (key ++ "=" ++ Text.quoted kind.spelling) := by
  rw [← spelling_quoted, part, Part.words.injEq, ← String.toList_inj]
  simp

/-- What a field adds to a node that is tidy. -/
def TidyPart (p : Part) : Prop :=
  (∀ word, p.words? = some word → IsWord word.toList) ∧ ∀ s, p.below? = some s → s.Tidy

theorem TidyPart.words {key content : String} (hkey : key ∈ keys) (h : Content content.toList) :
    TidyPart (.words (key ++ "=" ++ content)) := by
  refine ⟨fun word hw => ?_, fun _ hs => (by cases hs)⟩
  cases hw
  exact keyed_isWord hkey h

theorem part_tidy {key : String} (hkey : key ∈ keys) {t : Tree} (h : t.sketch.Tidy) :
    TidyPart (part key t t.sketch) := by
  have hbelow : TidyPart (.below t.sketch) := by
    refine ⟨fun _ hw => (by cases hw), fun s hs => ?_⟩
    cases hs
    exact h
  cases t with
  | leaf v =>
    by_cases hv : v = .absent
    · subst hv
      exact ⟨fun _ hw => (by cases hw), fun _ hs => (by cases hs)⟩
    · rw [part_leaf hv]
      exact .words hkey (record_content v)
  | symbol kind =>
    rw [part_symbol]
    exact .words hkey (record_content (.text kind.spelling))
  | _ => exact hbelow

/-- A node is tidy if what stands in its fields is. -/
theorem fields_tidy {name : String} (hname : name ∈ names)
    (fields : List (String × Tree)) (h : ∀ field ∈ fields, field.1 ∈ keys ∧ field.2.sketch.Tidy) :
    (ofParts name (fields.map fun field => part field.1 field.2 field.2.sketch)).Tidy := by
  have hparts : ∀ p ∈ fields.map fun field => part field.1 field.2 field.2.sketch, TidyPart p :=
    List.forall_mem_map.2 fun field hfield => part_tidy (h field hfield).1 (h field hfield).2
  refine .node (names_letters name hname) (fun word hword => ?_) fun s hs => ?_
  · obtain ⟨p, hp, hw⟩ := List.mem_filterMap.1 hword
    exact (hparts p hp).1 word hw
  · obtain ⟨p, hp, hbelow⟩ := List.mem_filterMap.1 hs
    exact (hparts p hp).2 s hbelow

/-- **The sketch of a tree is tidy**, whatever stands in its fields, and so are those of the
statements of a chain. The induction is on the tree. -/
theorem sketch_tidy (t : Tree) : t.sketch.Tidy ∧ ∀ s ∈ t.sketchChain, s.Tidy := by
  induction t with
  | leaf v => exact ⟨.bare, by simp [sketchChain]⟩
  | symbol k => exact ⟨.bare, by simp [sketchChain]⟩
  | integer v ih =>
    exact ⟨fields_tidy (by decide) [("value", v)] (by simp [keys, ih.1]), by simp [sketchChain]⟩
  | float v ih =>
    exact ⟨fields_tidy (by decide) [("value", v)] (by simp [keys, ih.1]), by simp [sketchChain]⟩
  | «variable» n ih | input n ih | label n ih | goto n ih =>
    exact ⟨fields_tidy (by decide) [("name", n)] (by simp [keys, ih.1]), by simp [sketchChain]⟩
  | unary p o ihp iho =>
    exact ⟨fields_tidy (by decide) [("primary", p), ("operator", o)] (by simp [keys, ihp.1, iho.1]),
      by simp [sketchChain]⟩
  | term u o r ihu iho ihr =>
    exact ⟨fields_tidy (by decide) [("unary", u), ("operator", o), ("rest", r)]
      (by simp [keys, ihu.1, iho.1, ihr.1]), by simp [sketchChain]⟩
  | expression t o r iht iho ihr =>
    exact ⟨fields_tidy (by decide) [("term", t), ("operator", o), ("rest", r)]
      (by simp [keys, iht.1, iho.1, ihr.1]), by simp [sketchChain]⟩
  | comparison l o r ihl iho ihr =>
    exact ⟨fields_tidy (by decide) [("left", l), ("operator", o), ("right", r)]
      (by simp [keys, ihl.1, iho.1, ihr.1]), by simp [sketchChain]⟩
  | print e ih =>
    exact ⟨fields_tidy (by decide) [("expression", e)] (by simp [keys, ih.1]), by simp [sketchChain]⟩
  | printText t ih =>
    exact ⟨fields_tidy (by decide) [("text", t)] (by simp [keys, ih.1]), by simp [sketchChain]⟩
  | assign n e ihn ihe =>
    exact ⟨fields_tidy (by decide) [("name", n), ("expression", e)] (by simp [keys, ihn.1, ihe.1]),
      by simp [sketchChain]⟩
  | when c b ihc ihb | loop c b ihc ihb =>
    exact ⟨fields_tidy (by decide) [("comparison", c), ("body", b)] (by simp [keys, ihc.1, ihb.1]),
      by simp [sketchChain]⟩
  | done => exact ⟨.node (names_letters _ (by decide)) (by simp) (by simp), by simp [sketchChain]⟩
  | sequence f r ihf ihr =>
    have hall := List.forall_mem_cons.2 ⟨ihf.1, ihr.2⟩
    exact ⟨.node (names_letters _ (by decide)) (by simp) hall, hall⟩

/-- **Trees of the same outline have the same sketch.** -/
theorem outline_tells {t u : Tree} {indents : Int} {text : String}
    (h : t.outline indents = .ok text) (h' : u.outline indents = .ok text) : t.sketch = u.sketch :=
  (@draw_tells maxLevels indents t.sketch u.sketch text text [] [] t.sketch_tidy.1 u.sketch_tidy.1
    h h' rfl).1

end Tree

end BasicToC
