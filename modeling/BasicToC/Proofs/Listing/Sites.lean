import BasicToC.Proofs.Grammar.Shape
import BasicToC.Proofs.Listing.Code

/-!
# Where variables stand

The places in a listing at which a variable is written, in the order of the text, each with the block
it lies in, and the places in a program at which one is mentioned.

* `Site`, `Code.sites`: the places in a listing.
* `Site.declareAll`: every name that waits for its declaration gets it where it first comes.
* `declareAll_declares`, `mem_declareAll`: which places declare, and which names wait at the end.
* `Code.sites_declare`: declarations in a listing are those at its places.
* `Tree.places`, `Shaped.sites`: the places in a program, which are those in its listing.
-/

set_option autoImplicit false

namespace BasicToC

/-- Whether a variable is mentioned, not a label. -/
def Mention.isVariable : Mention → Bool
  | .sets _ | .reads _ => true
  | _ => false

/-- A place in a listing at which a variable is written: how the program mentions it, whether its
declaration is written there, and the block it lies in. A block is named by the numbers of the
statements that lead to it from the outermost one. The test of an input opens a block as well. -/
structure Site where
  mention : Mention
  declares : Bool
  block : List Nat
  test : Option (List Nat) := none
  deriving DecidableEq, Repr

/-- The blocks in which the bare name is written at a place. Reading a number writes it in its test
and in the block behind that; anything else writes it once, with the declaration or without. -/
def Site.uses (s : Site) : List (List Nat) :=
  match s.test with
  | some inner => [s.block, inner]
  | none => if s.declares then [] else [s.block]

/-! ## The places in a listing -/

/-- The place of a name among words. -/
def Word.site? (block : List Nat) : Word → Option Site
  | .name _ r => some ⟨.reads r.name, r.declares, block, none⟩
  | _ => none

/-- The places among words. -/
def Word.sites (block : List Nat) (words : List Word) : List Site :=
  words.filterMap (Word.site? block)

/-- The places in a simple statement that has a number in its block. -/
def Line.sites (block : List Nat) (index : Nat) : Line → List Site
  | .print value => Word.sites block value
  | .assign target value =>
    ⟨.sets target.name, target.declares, block, none⟩ :: Word.sites block value
  | .input target => [⟨.sets target.name, target.declares, block, some (block ++ [index])⟩]
  | _ => []

/-- The places in statements that are numbered from `index` on in their block. -/
def Code.sites (block : List Nat) (index : Nat) : Code → List Site
  | .done => []
  | .simple line rest => line.sites block index ++ rest.sites block (index + 1)
  | .block _ condition body rest =>
    Word.sites block condition ++ body.sites (block ++ [index]) 0 ++ rest.sites block (index + 1)

/-- How many statements stand one after another. -/
def Code.width : Code → Nat
  | .done => 0
  | .simple _ rest | .block _ _ _ rest => rest.width + 1

theorem Code.sites_append (block : List Nat) (index : Nat) (code more : Code) :
    (code.append more).sites block index =
      code.sites block index ++ more.sites block (index + code.width) := by
  induction code generalizing block index with
  | done => simp [append, sites, width]
  | simple line rest ih => simp [append, sites, width, ih, Nat.add_assoc, Nat.add_comm 1]
  | block keyword condition body rest _ ih =>
    simp [append, sites, width, ih, Nat.add_assoc, Nat.add_comm 1]

theorem Code.width_append (code more : Code) :
    (code.append more).width = code.width + more.width := by
  induction code with
  | done => simp [append, width]
  | simple line rest ih => simp only [append, width, ih]; omega
  | block keyword condition body rest _ ih => simp only [append, width, ih]; omega

/-! ## Declarations -/

namespace Site

/-- A name gets its declaration at a place if it waits for it, and then waits no longer. -/
def declare (pending : List Value) (s : Site) : Site × List Value :=
  if s.mention.name.isIn pending then
    ({ s with declares := true }, pending.filter fun other => !s.mention.name.same other)
  else ({ s with declares := false }, pending)

/-- The declarations at places in order, and the names that wait behind them. -/
def declareAll (pending : List Value) : List Site → List Site × List Value
  | [] => ([], pending)
  | s :: rest =>
    let first := s.declare pending
    let others := declareAll first.2 rest
    (first.1 :: others.1, others.2)

theorem declareAll_append (pending : List Value) (sites more : List Site) :
    declareAll pending (sites ++ more) =
      ((declareAll pending sites).1 ++ (declareAll (declareAll pending sites).2 more).1,
        (declareAll (declareAll pending sites).2 more).2) := by
  induction sites generalizing pending with
  | nil => rfl
  | cons s sites ih => simp [declareAll, ih]

variable {pending : List Value} {sites : List Site}

theorem declare_mention (pending : List Value) (s : Site) : (s.declare pending).1.mention = s.mention ∧
    (s.declare pending).1.block = s.block := by
  unfold declare
  split <;> exact ⟨rfl, rfl⟩

/-- Declarations leave everything else at a place as it is. -/
theorem declareAll_places (pending : List Value) (sites : List Site) :
    (declareAll pending sites).1.map (fun s => (s.mention, s.block)) =
      sites.map fun s => (s.mention, s.block) := by
  induction sites generalizing pending with
  | nil => rfl
  | cons s sites ih =>
    obtain ⟨hm, hb⟩ := declare_mention pending s
    simp only [declareAll, List.map_cons, ih, hm, hb]

/-- Behind a place the names wait that waited in front of it, apart from its own. -/
theorem mem_declare {s : Site} (hs : s.mention.name.IsText) (v : Value) :
    v ∈ (s.declare pending).2 ↔ v ∈ pending ∧ v ≠ s.mention.name := by
  obtain ⟨name, hname⟩ := hs
  unfold declare
  split
  · rename_i h
    simp only [List.mem_filter, Bool.not_eq_true', ← Bool.not_eq_true]
    rw [hname, Value.same_text]
  · rename_i h
    rw [hname, Value.isIn_text ⟨name, rfl⟩] at h
    rw [hname]
    exact ⟨fun hv => ⟨hv, fun he => h (he ▸ hv)⟩, fun hv => hv.1⟩

/-- The names that wait behind some places are those that waited in front and are written at none of
them. -/
theorem mem_declareAll (hs : ∀ s ∈ sites, s.mention.name.IsText) (v : Value) :
    v ∈ (declareAll pending sites).2 ↔ v ∈ pending ∧ ∀ s ∈ sites, v ≠ s.mention.name := by
  induction sites generalizing pending with
  | nil => simp [declareAll]
  | cons s sites ih =>
    rw [declareAll, ih fun u hu => hs u (by simp [hu]), mem_declare (hs s (by simp))]
    simp [and_assoc]

/-- **A place declares exactly when its name waits at the start and is written nowhere before it.** -/
theorem declareAll_declares (pending : List Value) (hs : ∀ s ∈ sites, s.mention.name.IsText)
    (before after : List Site) (s : Site)
    (h : (declareAll pending sites).1 = before ++ s :: after) :
    s.declares = true ↔
      s.mention.name ∈ pending ∧ ∀ u ∈ before, s.mention.name ≠ u.mention.name := by
  induction sites generalizing pending before with
  | nil => simp [declareAll] at h
  | cons t sites ih =>
    have ht : t.mention.name.IsText := hs t (by simp)
    rw [declareAll] at h
    cases before with
    | nil =>
      simp only [List.nil_append, List.cons.injEq] at h
      rw [← h.1, (declare_mention pending t).1, ← Value.isIn_text ht]
      unfold declare
      split <;> simp [*]
    | cons u before =>
      simp only [List.cons_append, List.cons.injEq] at h
      rw [ih _ (fun v hv => hs v (by simp [hv])) before h.2, mem_declare ht, ← h.1, List.forall_mem_cons,
        (declare_mention pending t).1, and_assoc]

end Site

/-- The declaration of a name at its place is that of its rendering. -/
theorem Rendering.declare_site (pending : List Value) (r : Rendering) {m : Mention} (hm : m.name = r.name)
    (block : List Nat) (test : Option (List Nat)) :
    Site.declare pending ⟨m, r.declares, block, test⟩ =
      (⟨m, (r.declare pending).1.declares, block, test⟩, (r.declare pending).2) ∧
    (r.declare pending).1.name = r.name := by
  unfold Site.declare declare
  rw [hm]
  split <;> exact ⟨rfl, rfl⟩

theorem Word.sites_declare (pending : List Value) (block : List Nat) (words : List Word) :
    Site.declareAll pending (Word.sites block words) =
      (Word.sites block (Word.declare pending words).1, (Word.declare pending words).2) := by
  induction words generalizing pending with
  | nil => rfl
  | cons word words ih =>
    cases word with
    | name sign r =>
      obtain ⟨hsite, hname⟩ := r.declare_site pending (m := .reads r.name) rfl block none
      show Site.declareAll pending (_ :: Word.sites block words) = _
      rw [Site.declareAll, hsite, ih]
      simp [declare, sites, site?, hname]
    | number sign digits =>
      show Site.declareAll pending (Word.sites block words) = _
      rw [ih]
      rfl
    | operator kind =>
      show Site.declareAll pending (Word.sites block words) = _
      rw [ih]
      rfl

theorem Line.sites_declare (pending : List Value) (block : List Nat) (index : Nat) (line : Line) :
    Site.declareAll pending (line.sites block index) =
      ((line.declare pending).1.sites block index, (line.declare pending).2) := by
  cases line with
  | print value => exact Word.sites_declare pending block value
  | printText text => rfl
  | assign target value =>
    obtain ⟨hsite, hname⟩ :=
      target.declare_site pending (m := .sets target.name) rfl block none
    simp only [sites, Site.declareAll, hsite, Word.sites_declare, declare, hname]
  | input target =>
    obtain ⟨hsite, hname⟩ :=
      target.declare_site pending (m := .sets target.name) rfl block
        (some (block ++ [index]))
    simp only [sites, Site.declareAll, hsite, declare, hname]
  | label name => rfl
  | goto name => rfl

/-- **The declarations in a listing are those at its places**, from the first to the last. -/
theorem Code.sites_declare (pending : List Value) (block : List Nat) (index : Nat) (code : Code) :
    Site.declareAll pending (code.sites block index) =
      ((code.declare pending).1.sites block index, (code.declare pending).2) := by
  induction code generalizing pending block index with
  | done => rfl
  | simple line rest ih =>
    rw [sites, Site.declareAll_append, Line.sites_declare, ih]
    rfl
  | block keyword condition body rest ihb ihr =>
    rw [sites, Site.declareAll_append, Site.declareAll_append, Word.sites_declare, ihb, ihr]
    rfl

/-! ## The places in a program -/

namespace Tree

/-- How many statements a tree puts into its block. -/
def width : Tree → Nat
  | .sequence first rest => first.width + rest.width
  | .done => 0
  | _ => 1

/-- The mentions of names in a tree, each with the block of the program that it lies in. Statements
are numbered from `index` on in their block. -/
def places (block : List Nat) (index : Nat) : Tree → List (Mention × List Nat)
  | .when condition body | .loop condition body =>
    condition.mentions.map (·, block) ++ body.places (block ++ [index]) 0
  | .sequence first rest =>
    first.places block index ++ rest.places block (index + first.width)
  | t => t.mentions.map (·, block)

/-- What is computed mentions variables only, and these are the names among its words. -/
def WordsFit (t : Tree) : Prop :=
  (∀ m ∈ t.mentions, m.isVariable = true) ∧ ∀ block,
    (Word.sites block t.words).map (fun s => (s.mention, s.block)) = t.mentions.map (·, block)

theorem IsFactor.fits {t : Tree} (h : IsFactor t) : t.WordsFit := by
  cases h with
  | plain h => cases h <;> simp [WordsFit, mentions, words, Word.sites, Word.site?, Mention.isVariable]
  | signed sign h =>
    cases h <;> simp [WordsFit, mentions, words, Word.sites, Word.site?, Mention.isVariable]

theorem IsChain.fits {node : Tree → Tree → Tree → Tree} {operand : Tree → Prop} {t : Tree}
    (hnode : ∀ first operator rest, (node first operator rest).mentions =
      first.mentions ++ rest.mentions)
    (hlast : ∀ u, (node u .nothing .nothing).words = u.words)
    (hlink : ∀ u kind v, (node u (.symbol kind) v).words = u.words ++ .operator kind :: v.words)
    (hoperand : ∀ u, operand u → u.WordsFit) (h : IsChain node operand t) : t.WordsFit := by
  induction h with
  | @last u h =>
    obtain ⟨hv, hs⟩ := hoperand u h
    have hm : (node u .nothing .nothing).mentions = u.mentions := by simp [hnode, mentions]
    unfold WordsFit
    rw [hm, hlast]
    exact ⟨hv, hs⟩
  | @link u v kind h _ ih =>
    obtain ⟨hv, hs⟩ := hoperand u h
    refine ⟨fun m hm => ?_, fun block => ?_⟩
    · rw [hnode] at hm
      rcases List.mem_append.1 hm with hm | hm
      · exact hv m hm
      · exact ih.1 m hm
    · have hsplit : Word.sites block (u.words ++ .operator kind :: v.words) =
          Word.sites block u.words ++ Word.sites block v.words := List.filterMap_append
      rw [hnode, hlink, hsplit, List.map_append, hs, ih.2, List.map_append]

theorem IsTerm.fits {t : Tree} (h : IsTerm t) : t.WordsFit :=
  IsChain.fits (fun _ _ _ => rfl) (fun _ => rfl) (fun _ _ _ => rfl) (fun _ => IsFactor.fits) h

theorem IsExpression.fits {t : Tree} (h : IsExpression t) : t.WordsFit :=
  IsChain.fits (fun _ _ _ => rfl) (fun _ => rfl) (fun _ _ _ => rfl) (fun _ => IsTerm.fits) h

theorem IsComparison.fits {t : Tree} (h : IsComparison t) : t.WordsFit :=
  IsChain.fits (fun _ _ _ => rfl) (fun _ => rfl) (fun _ _ _ => rfl) (fun _ => IsExpression.fits) h

/-- Of places of what is computed none is left out. -/
theorem WordsFit.filter {t : Tree} (h : t.WordsFit) (block : List Nat) :
    (t.mentions.map (·, block)).filter (·.1.isVariable) =
      (Word.sites block t.words).map (fun s => (s.mention, s.block)) := by
  rw [h.2, List.filter_eq_self]
  intro p hp
  obtain ⟨m, hm, rfl⟩ := List.mem_map.1 hp
  exact h.1 m hm

theorem Shaped.width {form : Form} {t : Tree} (h : Shaped form t) : t.width = t.code.width := by
  induction h with
  | nested _ ih => exact ih
  | next _ _ ihf ihr => rw [Tree.width, code, Code.width_append, ihf, ihr]
  | _ => rfl

/-- **The places in the listing of a program are the places of its variables**, in the same order and
in the same blocks. -/
theorem Shaped.sites {form : Form} {t : Tree} (h : Shaped form t) (block : List Nat) (index : Nat) :
    (t.code.sites block index).map (fun s => (s.mention, s.block)) =
      (t.places block index).filter (·.1.isVariable) := by
  induction h generalizing block index with
  | print he =>
    rw [code, Code.sites, Code.sites, List.append_nil]
    exact (he.fits.filter block).symm
  | printText s => rfl
  | @assign s e he =>
    rw [code, Code.sites, Code.sites, List.append_nil]
    show _ :: (Word.sites block e.words).map _ = _ :: (e.mentions.map _).filter _
    rw [he.fits.filter block]
  | input s => rfl
  | label s => rfl
  | goto s => rfl
  | when hc _ ih =>
    rw [code, Code.sites, Code.sites, List.append_nil, List.map_append, ih, places,
      List.filter_append, hc.fits.filter block]
  | loop hc _ ih =>
    rw [code, Code.sites, Code.sites, List.append_nil, List.map_append, ih, places,
      List.filter_append, hc.fits.filter block]
  | nested _ ih => exact ih block index
  | done => rfl
  | next hf _ ihf ihr =>
    rw [code, Code.sites_append, List.map_append, ihf, ihr, places, List.filter_append, hf.width]

end Tree

end BasicToC
