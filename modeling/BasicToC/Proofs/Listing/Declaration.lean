import BasicToC.Proofs.Listing.Sites
import BasicToC.Proofs.Pipeline.Stages

/-!
# Declarations

Every variable of a program is declared once in its listing, where it is first set.

* `Orderly.first_sets`: where a name first stands it is set.
* `DeclaredOnce`: which places of a listing declare.
* `declareAll_once`: what the declarations come to when every name is set before it is read.
* `listing_declares_once`: the listing of every program that is compiled.
-/

set_option autoImplicit false

namespace BasicToC

/-- Every name is declared at exactly one place: the first at which it stands, which sets it. No other
place declares anything. -/
structure DeclaredOnce (names : List Value) (sites : List Site) : Prop where
  once : ∀ name ∈ names, ∃ before s after, sites = before ++ s :: after ∧
    s.mention = .sets name ∧ s.declares = true ∧ (∀ u ∈ before, u.mention.name ≠ name) ∧
    ∀ u ∈ after, u.mention.name = name → u.declares = false
  sets : ∀ s ∈ sites, s.declares = true → ∃ name ∈ names, s.mention = .sets name

/-- In mentions of variables, each of which is set before it is read, a name is set where it first
stands. -/
theorem first_sets {ms before after : List Mention} {m : Mention}
    (hset : ∀ before name after, ms = before ++ .reads name :: after → .sets name ∈ before)
    (hv : ∀ m ∈ ms, m.isVariable = true) (hsplit : ms = before ++ m :: after)
    (hfirst : ∀ n ∈ before, n.name ≠ m.name) : m = .sets m.name := by
  have hm := hv m (by simp [hsplit])
  cases m with
  | sets name => rfl
  | reads name => exact absurd rfl (hfirst (.sets name) (hset before name after hsplit))
  | places name => simp [Mention.isVariable] at hm
  | jumps name => simp [Mention.isVariable] at hm

section Places

variable {names : List Value} {sites : List Site} {ms : List Mention}

/-- The first place of a name. -/
theorem exists_first {name : Value} (h : ∃ s ∈ sites, s.mention.name = name) :
    ∃ before s after, sites = before ++ s :: after ∧ s.mention.name = name ∧
      ∀ u ∈ before, u.mention.name ≠ name := by
  obtain ⟨t, ht, hname⟩ := h
  have hfind : (sites.find? fun s => s.mention.name == name).isSome := by
    rw [List.find?_isSome]
    exact ⟨t, ht, by simp [hname]⟩
  obtain ⟨s, hs⟩ := Option.isSome_iff_exists.1 hfind
  obtain ⟨hs, before, after, hsplit, hbefore⟩ := List.find?_eq_some_iff_append.1 hs
  exact ⟨before, s, after, hsplit, by simpa using hs, fun u hu => by simpa using hbefore u hu⟩

/-- A name is set at its first place. -/
theorem first_site_sets (hms : sites.map Site.mention = ms)
    (hset : ∀ before name after, ms = before ++ .reads name :: after → .sets name ∈ before)
    (hv : ∀ m ∈ ms, m.isVariable = true) {before after : List Site} {s : Site}
    (hsplit : sites = before ++ s :: after)
    (hfirst : ∀ u ∈ before, u.mention.name ≠ s.mention.name) :
    s.mention = .sets s.mention.name := by
  have hsplit' : ms = before.map Site.mention ++ s.mention :: after.map Site.mention := by
    rw [← hms, hsplit]
    simp
  refine first_sets hset hv hsplit' fun n hn => ?_
  obtain ⟨u, hu, rfl⟩ := List.mem_map.1 hn
  exact hfirst u hu

/-- **Declaring every name where it first stands declares it once, where it is set**, if every name
is set before it is read; and then no name waits at the end. -/
theorem declareAll_once (hms : sites.map Site.mention = ms)
    (htexts : ∀ m ∈ ms, m.name.IsText) (hv : ∀ m ∈ ms, m.isVariable = true)
    (hset : ∀ before name after, ms = before ++ .reads name :: after → .sets name ∈ before)
    (hnames : ∀ name, name ∈ names ↔ .sets name ∈ ms) :
    DeclaredOnce names (Site.declareAll names sites).1 ∧ (Site.declareAll names sites).2 = [] := by
  have htexts' : ∀ s ∈ sites, s.mention.name.IsText := fun s hs =>
    htexts _ (hms ▸ List.mem_map_of_mem hs)
  have hms' : (Site.declareAll names sites).1.map Site.mention = ms := by
    have h := congrArg (List.map Prod.fst) (Site.declareAll_places names sites)
    rw [List.map_map, List.map_map] at h
    exact h.trans hms
  have hdeclares := fun before after s => Site.declareAll_declares names htexts' before after s
  refine ⟨⟨fun name hname => ?_, fun s hs hd => ?_⟩, ?_⟩
  · obtain ⟨t, ht, hmention⟩ : ∃ t ∈ (Site.declareAll names sites).1, t.mention = .sets name :=
      List.mem_map.1 (hms'.symm ▸ (hnames name).1 hname)
    obtain ⟨before, s, after, hsplit, rfl, hbefore⟩ := exists_first ⟨t, ht, congrArg Mention.name hmention⟩
    refine ⟨before, s, after, hsplit, first_site_sets hms' hset hv hsplit hbefore, ?_, hbefore,
      fun u hu he => ?_⟩
    · exact (hdeclares _ _ _ hsplit).2 ⟨hname, fun u hu => (hbefore u hu).symm⟩
    · obtain ⟨as, bs, rfl⟩ := List.append_of_mem hu
      have hsplit' : (Site.declareAll names sites).1 = (before ++ s :: as) ++ u :: bs := by
        rw [hsplit]
        simp
      rw [← Bool.not_eq_true, hdeclares _ _ _ hsplit']
      exact fun h => h.2 s (by simp) he
  · obtain ⟨before, after, hsplit⟩ := List.append_of_mem hs
    obtain ⟨hname, hbefore⟩ := (hdeclares _ _ _ hsplit).1 hd
    exact ⟨_, hname, first_site_sets hms' hset hv hsplit fun u hu => (hbefore u hu).symm⟩
  · rw [List.eq_nil_iff_forall_not_mem]
    intro v hmem
    obtain ⟨hname, hnone⟩ := (Site.mem_declareAll htexts' v).1 hmem
    obtain ⟨s, hs, hmention⟩ := List.mem_map.1 (hms ▸ (hnames v).1 hname)
    exact hnone s hs (congrArg Mention.name hmention).symm

end Places

/-! ## The listing of a program -/

/-- The places in a program mention its names in their order. -/
theorem Tree.places_mentions (t : Tree) (block : List Nat) (index : Nat) :
    (t.places block index).map Prod.fst = t.mentions := by
  induction t generalizing block index with
  | when c b _ ih => simp [places, mentions, ih, Function.comp_def]
  | loop c b _ ih => simp [places, mentions, ih, Function.comp_def]
  | sequence f r ihf ihr => simp [places, mentions, ihf, ihr]
  | _ => simp [places, Function.comp_def]

theorem Tree.places_variables (t : Tree) (block : List Nat) (index : Nat) :
    ((t.places block index).filter (·.1.isVariable)).map Prod.fst =
      t.mentions.filter Mention.isVariable := by
  rw [← t.places_mentions block index, List.filter_map]
  rfl

/-- The variables of a program stand in its listing as they are mentioned in its tree. -/
theorem Tree.Shaped.mentions {t : Tree} (h : Shaped .chain t) :
    (t.code.sites [] 0).map Site.mention = t.mentions.filter Mention.isVariable := by
  have hsites := congrArg (List.map Prod.fst) (h.sites [] 0)
  rw [List.map_map, Tree.places_variables] at hsites
  exact hsites

/-- Also among the variables alone every name is set before it is read. -/
theorem WellNamed.variables_set_before {ms : List Mention} (h : WellNamed ms) :
    ∀ before name after, ms.filter Mention.isVariable = before ++ .reads name :: after →
      .sets name ∈ before := by
  intro before name after hsplit
  obtain ⟨bs, as, rfl, rfl, has⟩ := List.filter_eq_append_iff.1 hsplit
  obtain ⟨cs, ds, rfl, hcs, -, -⟩ := List.filter_eq_cons_iff.1 has
  have hmem := h.set_before (bs ++ cs) name ds (by simp)
  rcases List.mem_append.1 hmem with hmem | hmem
  · exact List.mem_filter.2 ⟨hmem, rfl⟩
  · exact absurd rfl (hcs _ hmem)

/-- Every variable that is mentioned is set somewhere. -/
theorem WellNamed.sets_variable {ms : List Mention} (h : WellNamed ms) {m : Mention} (hm : m ∈ ms)
    (hv : m.isVariable = true) : .sets m.name ∈ ms := by
  cases m with
  | sets name => exact hm
  | reads name =>
    obtain ⟨before, after, hsplit⟩ := List.append_of_mem hm
    rw [hsplit]
    exact List.mem_append_left _ (h.set_before before name after hsplit)
  | places name => simp [Mention.isVariable] at hv
  | jumps name => simp [Mention.isVariable] at hv

/-- The places in the listing of a program that has been read from a text: the variables of the
program in its order, each declared once; and no name waits at the end. -/
theorem program_declares_once {source : String} {tokens : List Token} {program : Program}
    {reader : Reader} (hscan : Token.scan source = .ok tokens)
    (hread : Read.program (Reader.ofTokens tokens) = .ok program reader) :
    ((program.code reader).sites [] 0).map (fun s => (s.mention, s.block)) =
      ((Program.tree program).places [] 0).filter (·.1.isVariable) ∧
    DeclaredOnce reader.names.declared ((program.code reader).sites [] 0) ∧
    ((Program.tree program).code.declare reader.names.declared).2 = [] := by
  obtain ⟨-, hshaped, hnamed, hholds⟩ := program_of_text hscan hread
  have hdeclared : ∀ name, name ∈ reader.names.declared ↔
      .sets name ∈ (Program.tree program).mentions := hholds.declared
  have hnames : ∀ name, name ∈ reader.names.declared ↔
      .sets name ∈ (Program.tree program).mentions.filter Mention.isVariable := fun name => by
    simp [hdeclared, Mention.isVariable]
  have hsites := Code.sites_declare reader.names.declared [] 0 (Program.tree program).code
  have honce := declareAll_once hshaped.mentions
    (fun m hm => hshaped.texts m (List.mem_filter.1 hm).1) (fun m hm => (List.mem_filter.1 hm).2)
    hnamed.variables_set_before hnames
  have hplaces := Site.declareAll_places reader.names.declared
    ((Program.tree program).code.sites [] 0)
  rw [hsites] at honce hplaces
  exact ⟨hplaces.trans (hshaped.sites [] 0), honce⟩

/-- **Every variable is declared once in the listing of a program that is compiled**: where it is
first set, which is where it first stands. Nothing waits for its declaration at the end, no name is
declared where it is read, and the variables stand in the listing in the order of the program. -/
theorem listing_declares_once {noteTree : Bool} {source listing : String}
    (h : (compile noteTree source).1 = .ok listing) :
    ∃ tokens program reader writer, Token.scan source = .ok tokens ∧
      Read.program (Reader.ofTokens tokens) = .ok program reader ∧
      Write.program { tree := Program.tree program, declared := reader.names.declared } =
        .ok listing writer ∧
      writer.pending = [] ∧
      listing = (program.code reader).listing ∧
      ((program.code reader).sites [] 0).map Site.mention =
        (Program.tree program).mentions.filter Mention.isVariable ∧
      DeclaredOnce reader.names.declared ((program.code reader).sites [] 0) := by
  obtain ⟨tokens, program, reader, writer, hscan, hread, hwrite⟩ := compile_ok h
  obtain ⟨hlisting, hpending⟩ := compile_listing hscan hread hwrite
  obtain ⟨hplaces, honce, hleft⟩ := program_declares_once hscan hread
  have hmentions := congrArg (List.map Prod.fst) hplaces
  rw [List.map_map, Tree.places_variables] at hmentions
  exact ⟨tokens, program, reader, writer, hscan, hread, hwrite, hpending.trans hleft, hlisting,
    hmentions, honce⟩

/-- A text that reads a number and doubles it where it is positive. -/
def doubleText : String := "INPUT n\nIF n > 0 THEN\nLET a = n + n\nPRINT a\nENDIF\n"

/-- The listing of that text. -/
def doubleListing : String :=
  "#include <stdio.h>\nint main(void)\x7b\n    float n;\n    if(0 == scanf(\"%f\", &n)) \x7b\n" ++
  "        n = 0;\n        scanf(\"%*s\");\n    \x7d\n    if(n > 0)\x7b\n        float a = n + n;\n" ++
  "        printf(\"%.2f\\n\", (float)(a));\n    \x7d\n    return 0;\n\x7d\n"

theorem doubleListing_declares_once : ∃ program reader,
    (Program.code program reader).listing = doubleListing ∧
    DeclaredOnce reader.names.declared ((program.code reader).sites [] 0) := by
  have h : (compile false doubleText).1 = .ok doubleListing := by decide +kernel
  obtain ⟨tokens, program, reader, writer, -, -, -, -, hlisting, -, honce⟩ := listing_declares_once h
  exact ⟨program, reader, hlisting.symm, honce⟩

end BasicToC
