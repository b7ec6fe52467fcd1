import BasicToC.Proofs.Listing.Declaration

/-!
# Scope

In C a name is in scope behind its declaration, in the block that holds the declaration and in those
inside it. A variable is declared in the block in which it is first set, but the program may go on
to use it outside.

* `InScope`: every name in a listing is in scope.
* `Tree.KeepsBlocks`: every variable of a program stays in the block in which it is first set.
* `in_scope_iff`: the one for the listing is the other for the program.
* `leakListing_not_in_scope`: a program that is compiled into a listing with a name out of scope.
-/

set_option autoImplicit false

namespace BasicToC

/-- Wherever a bare name is written, a declaration of it comes before and stands in a block around
it. A place comes before itself, as its declaration stands in front of its uses. -/
def InScope (sites : List Site) : Prop :=
  ∀ before s after, sites = before ++ s :: after → ∀ use ∈ s.uses,
    ∃ d ∈ before ++ [s], d.declares = true ∧ d.mention.name = s.mention.name ∧ d.block <+: use

/-- Every variable is mentioned only inside the block in which it is first set. -/
def Tree.KeepsBlocks (t : Tree) : Prop :=
  ∀ before name block after, t.places [] 0 = before ++ (.sets name, block) :: after →
    (∀ p ∈ before, p.1 ≠ .sets name) →
    ∀ p ∈ after, p.1.isVariable = true → p.1.name = name → block <+: p.2

/-! ## Uses lie in the block of their place -/

theorem Word.sites_test {block : List Nat} {words : List Word} {s : Site}
    (h : s ∈ Word.sites block words) : s.test = none := by
  obtain ⟨word, -, hs⟩ := List.mem_filterMap.1 h
  cases word <;> simp [Word.site?] at hs
  rw [← hs]

/-- The test of an input lies in the block of the input. -/
theorem Code.sites_test {code : Code} {block : List Nat} {index : Nat} {s : Site}
    (h : s ∈ code.sites block index) {inner : List Nat} (hs : s.test = some inner) :
    s.block <+: inner := by
  induction code generalizing block index with
  | done => cases h
  | simple line rest ih =>
    rcases List.mem_append.1 h with h | h
    · cases line with
      | print value => rw [Word.sites_test h] at hs; cases hs
      | printText text => cases h
      | assign target value =>
        rcases List.mem_cons.1 h with rfl | h
        · cases hs
        · rw [Word.sites_test h] at hs; cases hs
      | input target =>
        rw [Line.sites, List.mem_singleton] at h
        subst h
        cases hs
        exact List.prefix_append block [index]
      | label name => cases h
      | goto name => cases h
    · exact ih h
  | block keyword condition body rest ihb ihr =>
    rw [sites, List.mem_append, List.mem_append] at h
    rcases h with (h | h) | h
    · rw [Word.sites_test h] at hs; cases hs
    · exact ihb h
    · exact ihr h

theorem Site.block_prefix {s : Site} (hs : ∀ inner, s.test = some inner → s.block <+: inner)
    {use : List Nat} (h : use ∈ s.uses) : s.block <+: use := by
  unfold uses at h
  split at h
  · rename_i inner htest
    rcases List.mem_cons.1 h with rfl | h
    · exact List.prefix_refl _
    · rw [List.mem_singleton] at h
      subst h
      exact hs _ htest
  · split at h
    · cases h
    · rw [List.mem_singleton] at h
      subst h
      exact List.prefix_refl _

/-- A place that does not declare writes the bare name in its block. -/
theorem Site.block_mem_uses {s : Site} (h : s.declares = false) : s.block ∈ s.uses := by
  unfold uses
  split <;> simp [h]

/-! ## One split of a list and another -/

/-- Two splits of a list at elements of which neither stands in front of the other are the same. -/
theorem split_eq {α : Type} {as bs cs ds : List α} {a c : α} (h : as ++ a :: bs = cs ++ c :: ds)
    (ha : a ∉ cs) (hc : c ∉ as) : as = cs ∧ a = c ∧ bs = ds := by
  induction as generalizing cs with
  | nil =>
    cases cs with
    | nil => simpa using h
    | cons x cs =>
      rw [List.nil_append, List.cons_append, List.cons.injEq] at h
      exact absurd (by simp [h.1]) ha
  | cons y as ih =>
    cases cs with
    | nil =>
      rw [List.nil_append, List.cons_append, List.cons.injEq] at h
      exact absurd (by simp [h.1]) hc
    | cons x cs =>
      rw [List.cons_append, List.cons_append, List.cons.injEq] at h
      obtain ⟨rfl, heq, rfl⟩ := ih h.2 (fun hm => ha (by simp [hm])) (fun hm => hc (by simp [hm]))
      exact ⟨by rw [h.1], heq, rfl⟩

/-! ## The listing and the program -/

section Iff

variable {names : List Value} {sites : List Site} {t : Tree}

/-- The place of a declaration is the only one that declares its name. -/
theorem declares_only {before after : List Site} {d s : Site}
    (hbefore : ∀ u ∈ before, u.mention.name ≠ d.mention.name)
    (hafter : ∀ u ∈ after, u.mention.name = d.mention.name → u.declares = false)
    (hs : s ∈ before ++ d :: after) (hdeclares : s.declares = true)
    (hname : s.mention.name = d.mention.name) : s = d := by
  rcases List.mem_append.1 hs with hs | hs
  · exact absurd hname (hbefore s hs)
  rcases List.mem_cons.1 hs with rfl | hs
  · rfl
  · rw [hafter s hs hname] at hdeclares
    cases hdeclares

/-- The places of a program around the first at which a variable is set, seen in its listing. -/
theorem split_listing
    (hplaces : sites.map (fun s => (s.mention, s.block)) =
      (t.places [] 0).filter (·.1.isVariable))
    {before after : List (Mention × List Nat)} {name : Value} {block : List Nat}
    (hsplit : t.places [] 0 = before ++ (.sets name, block) :: after) :
    ∃ bs d as, sites = bs ++ d :: as ∧ (d.mention, d.block) = (.sets name, block) ∧
      bs.map (fun s => (s.mention, s.block)) = before.filter (·.1.isVariable) ∧
      as.map (fun s => (s.mention, s.block)) = after.filter (·.1.isVariable) := by
  rw [hsplit, List.filter_append, List.filter_cons_of_pos (by rfl)] at hplaces
  obtain ⟨bs, rest, rfl, hbs, hrest⟩ := List.map_eq_append_iff.1 hplaces
  obtain ⟨d, as, rfl, hd, has⟩ := List.map_eq_cons_iff.1 hrest
  exact ⟨bs, d, as, rfl, hd, hbs, has⟩

/-- The places in a listing around a place that sets a variable, seen in its program. -/
theorem split_program
    (hplaces : sites.map (fun s => (s.mention, s.block)) =
      (t.places [] 0).filter (·.1.isVariable))
    {before after : List Site} {d : Site} (hsplit : sites = before ++ d :: after) :
    ∃ ps qs, t.places [] 0 = ps ++ (d.mention, d.block) :: qs ∧
      ps.filter (·.1.isVariable) = before.map (fun s => (s.mention, s.block)) ∧
      qs.filter (·.1.isVariable) = after.map (fun s => (s.mention, s.block)) := by
  rw [hsplit, List.map_append, List.map_cons] at hplaces
  obtain ⟨ps, rest, hall, hps, hrest⟩ := List.filter_eq_append_iff.1 hplaces.symm
  obtain ⟨cs, qs, rfl, hcs, -, hqs⟩ := List.filter_eq_cons_iff.1 hrest
  refine ⟨ps ++ cs, qs, by rw [hall, List.append_assoc], ?_, hqs⟩
  rw [List.filter_append, hps, List.filter_eq_nil_iff.2 hcs, List.append_nil]

/-- If the names in a listing are in scope, no variable of the program leaves the block in which it is
first set. -/
theorem keepsBlocks_of_inScope (honce : DeclaredOnce names sites)
    (hplaces : sites.map (fun s => (s.mention, s.block)) =
      (t.places [] 0).filter (·.1.isVariable))
    (hnames : ∀ s ∈ sites, s.mention.name ∈ names) (h : InScope sites) : t.KeepsBlocks := by
  intro before name block after hsplit hfirst p hp hv hname
  obtain ⟨bs, s, as, hs, hd, hbs, has⟩ := split_listing hplaces hsplit
  obtain ⟨hmention, rfl⟩ := Prod.mk.inj hd
  -- The place at which the name is declared is the one at which the program first sets it.
  have hin : name ∈ names := by
    have := hnames s (by simp [hs])
    rwa [hmention] at this
  obtain ⟨cs, d, ds, hsites, hdm, hdeclares, hcs, hds⟩ := honce.once name hin
  have hnot : d ∉ bs := fun hm => by
    have hmem : (d.mention, d.block) ∈ before.filter (·.1.isVariable) :=
      hbs ▸ List.mem_map_of_mem hm
    exact hfirst _ (List.mem_filter.1 hmem).1 hdm
  have hnot' : s ∉ cs := fun hm => hcs s hm (by rw [hmention]; rfl)
  obtain ⟨rfl, rfl, rfl⟩ := split_eq (hs.symm.trans hsites) hnot' hnot
  -- The mention behind it is a bare name in the listing, which its declaration is in front of.
  obtain ⟨u, hu, rfl⟩ : ∃ u ∈ as, (u.mention, u.block) = p :=
    List.mem_map.1 (has ▸ List.mem_filter.2 ⟨hp, hv⟩)
  obtain ⟨us, vs, rfl⟩ := List.append_of_mem hu
  have hsplit' : sites = (bs ++ s :: us) ++ u :: vs := by
    rw [hs]
    simp
  obtain ⟨e, he, hed, hen, hprefix⟩ :=
    h _ u vs hsplit' u.block (Site.block_mem_uses (hds u hu hname))
  have hsame : e = s := by
    have hmem : e ∈ bs ++ s :: (us ++ u :: vs) := by
      have : e ∈ (bs ++ s :: us) ++ [u] := he
      simp only [List.mem_append, List.mem_cons, List.not_mem_nil, or_false] at this ⊢
      tauto
    have hsn : s.mention.name = name := by rw [hmention]; rfl
    refine declares_only (fun v hv => ?_) (fun v hv => ?_) hmem hed ?_
    · rw [hsn]; exact hcs v hv
    · rw [hsn]; exact hds v hv
    · rw [hsn, hen]; exact hname
  exact hsame ▸ hprefix

/-- If no variable of the program leaves the block in which it is first set, the names in the listing
are in scope. -/
theorem inScope_of_keepsBlocks (honce : DeclaredOnce names sites)
    (hplaces : sites.map (fun s => (s.mention, s.block)) =
      (t.places [] 0).filter (·.1.isVariable))
    (hnames : ∀ s ∈ sites, s.mention.name ∈ names)
    (htest : ∀ s ∈ sites, ∀ inner, s.test = some inner → s.block <+: inner)
    (h : t.KeepsBlocks) : InScope sites := by
  intro before s after hsplit use huse
  have hs : s ∈ sites := by simp [hsplit]
  have hprefix := Site.block_prefix (htest s hs) huse
  obtain ⟨cs, d, ds, hsites, hdm, hdeclares, hcs, hds⟩ := honce.once _ (hnames s hs)
  have hdn : d.mention.name = s.mention.name := by rw [hdm]; rfl
  have hnot : s ∉ cs := fun hm => hcs s hm rfl
  by_cases hd : d ∈ before
  · obtain ⟨ps, qs, hall, hps, hqs⟩ := split_program hplaces hsites
    rw [hdm] at hall
    have hfirst : ∀ p ∈ ps, p.1 ≠ .sets s.mention.name := by
      intro p hp he
      have hmem : p ∈ cs.map fun s => (s.mention, s.block) :=
        hps ▸ List.mem_filter.2 ⟨hp, by rw [he]; rfl⟩
      obtain ⟨u, hu, rfl⟩ := List.mem_map.1 hmem
      have hname := congrArg Mention.name he
      exact hcs u hu hname
    have hcases : s = d ∨ s ∈ ds := by
      rw [hsites, List.mem_append, List.mem_cons] at hs
      exact hs.resolve_left hnot
    rcases hcases with rfl | hds
    · exact ⟨s, by simp, hdeclares, rfl, hprefix⟩
    · obtain ⟨hq, hv⟩ : (s.mention, s.block) ∈ qs ∧ s.mention.isVariable = true :=
        List.mem_filter.1 (hqs.symm ▸ List.mem_map_of_mem hds)
      exact ⟨d, List.mem_append_left _ hd, hdeclares, hdn,
        (h ps _ _ qs hall hfirst _ hq hv rfl).trans hprefix⟩
  · obtain ⟨rfl, rfl, rfl⟩ := split_eq (hsplit.symm.trans hsites) hnot hd
    exact ⟨s, by simp, hdeclares, rfl, hprefix⟩

/-- **The names in a listing are in scope exactly when every variable of the program stays in the
block in which it is first set.** -/
theorem in_scope_iff (honce : DeclaredOnce names sites)
    (hplaces : sites.map (fun s => (s.mention, s.block)) =
      (t.places [] 0).filter (·.1.isVariable))
    (hnames : ∀ s ∈ sites, s.mention.name ∈ names)
    (htest : ∀ s ∈ sites, ∀ inner, s.test = some inner → s.block <+: inner) :
    InScope sites ↔ t.KeepsBlocks :=
  ⟨keepsBlocks_of_inScope honce hplaces hnames, inScope_of_keepsBlocks honce hplaces hnames htest⟩

end Iff

/-- **The names in the listing of a program that is compiled are in scope exactly when every variable
of the program stays in the block in which it is first set.** -/
theorem listing_in_scope_iff {noteTree : Bool} {source listing : String}
    (h : (compile noteTree source).1 = .ok listing) :
    ∃ tokens program reader, Token.scan source = .ok tokens ∧
      Read.program (Reader.ofTokens tokens) = .ok program reader ∧
      listing = (program.code reader).listing ∧
      (InScope ((program.code reader).sites [] 0) ↔ (Program.tree program).KeepsBlocks) := by
  obtain ⟨tokens, program, reader, writer, hscan, hread, hwrite⟩ := compile_ok h
  obtain ⟨hlisting, -⟩ := compile_listing hscan hread hwrite
  obtain ⟨hplaces, honce, -⟩ := program_declares_once hscan hread
  obtain ⟨-, -, hnamed, hholds⟩ := program_of_text hscan hread
  refine ⟨tokens, program, reader, hscan, hread, hlisting,
    in_scope_iff honce hplaces (fun s hs => ?_) fun s hs inner => Code.sites_test hs⟩
  have hmem : s.mention ∈ (Program.tree program).mentions.filter Mention.isVariable := by
    rw [← Tree.places_variables _ [] 0, ← hplaces, List.map_map]
    exact List.mem_map_of_mem hs
  obtain ⟨hmention, hv⟩ := List.mem_filter.1 hmem
  exact (hholds.declared _).2 (hnamed.sets_variable hmention hv)

/-- A text that sets a variable in a block and prints it behind the block. -/
def leakText : String := "IF 1 THEN\nLET a = 1\nENDIF\nPRINT a\n"

/-- The listing of that text. -/
def leakListing : String :=
  "#include <stdio.h>\nint main(void)\x7b\n    if(1)\x7b\n        float a = 1;\n    \x7d\n" ++
  "    printf(\"%.2f\\n\", (float)(a));\n    return 0;\n\x7d\n"

theorem leakListing_in_scope_iff :
    ∃ tokens program reader, Token.scan leakText = .ok tokens ∧
      Read.program (Reader.ofTokens tokens) = .ok program reader ∧
      leakListing = (program.code reader).listing ∧
      (InScope ((program.code reader).sites [] 0) ↔ (Program.tree program).KeepsBlocks) := by
  have h : (compile false leakText).1 = .ok leakListing := by decide +kernel
  exact listing_in_scope_iff h

/-- The places in that listing: the variable is set in the first block and read outside of it. -/
def leakSites : List Site :=
  [⟨.sets (.text "a"), true, [0], none⟩, ⟨.reads (.text "a"), false, [], none⟩]

theorem leakSites_not_in_scope : ¬ InScope leakSites := by
  intro h
  obtain ⟨d, hd, hdeclares, -, hprefix⟩ :=
    h [⟨.sets (.text "a"), true, [0], none⟩] ⟨.reads (.text "a"), false, [], none⟩ [] rfl []
      (by decide)
  rw [List.mem_append, List.mem_singleton, List.mem_singleton] at hd
  rcases hd with rfl | rfl
  · exact absurd hprefix (by decide)
  · cases hdeclares

theorem leakListing_not_in_scope :
    (compile false leakText).1 = .ok leakListing ∧
    ∃ tokens program reader, Token.scan leakText = .ok tokens ∧
      Read.program (Reader.ofTokens tokens) = .ok program reader ∧
      leakListing = (program.code reader).listing ∧
      ¬ InScope ((program.code reader).sites [] 0) := by
  have h : (compile false leakText).1 = .ok leakListing := by decide +kernel
  have hsites : (match Read.program (Reader.ofTokens (scanText leakText).tokens) with
      | .ok program reader => (program.code reader).sites [] 0 == leakSites
      | .error _ _ => false) = true := by decide +kernel
  obtain ⟨tokens, program, reader, writer, hscan, hread, hwrite⟩ := compile_ok h
  obtain ⟨hlisting, -⟩ := compile_listing hscan hread hwrite
  refine ⟨h, tokens, program, reader, hscan, hread, hlisting, ?_⟩
  have htokens : Token.scan leakText = .ok (scanText leakText).tokens := by decide +kernel
  rw [htokens] at hscan
  cases hscan
  rw [hread] at hsites
  simp only [beq_iff_eq] at hsites
  rw [hsites]
  exact leakSites_not_in_scope

end BasicToC
