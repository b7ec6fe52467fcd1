import BasicToC.Proofs.Decimal.Notation
import BasicToC.Proofs.Grammar.Parts
import BasicToC.Proofs.Listing.Renderings
import BasicToC.Proofs.Reading.Language
import BasicToC.Proofs.Scanning.Spelling

/-!
# What is computed reads back

The text that is written for a computation is itself a computation of the language, and reading it
gives the tree that it was written for.

* `Tree.reals`, `Tree.Plain`: the binary64 numbers in a tree, and the trees in which they are written
  without exponents.
* `Respelled`: the words of a tree are read as tokens that the grammar relates to the tree.
* `factor_respelled`, `chain_respelled`: so are the words of factors and of chains.
* `Word.declare_idle`: where no name waits for its declaration the words are written as they stand.
* `Rereads`, `Tree.ReadsBack`: writing, scanning and reading, one behind the other.
* `computations_read_back`: what is computed in a program reads back.
-/

set_option autoImplicit false

namespace BasicToC

open BasicToC.Tree (PartOf)

/-- The binary64 numbers in what is computed, in the order of the program. -/
def Tree.reals : Tree → List Binary64
  | .float (.leaf (.real x)) => [x]
  | .unary primary _ => primary.reals
  | .term first _ rest => first.reals ++ rest.reals
  | .expression first _ rest => first.reals ++ rest.reals
  | .comparison first _ rest => first.reals ++ rest.reals
  | _ => []

/-- The binary64 numbers in a tree are written without exponents. -/
def Tree.Plain (t : Tree) : Prop := ∀ x ∈ t.reals, 'e' ∉ x.text.toList

/-! ## Words as tokens -/

/-- The words of a tree are read as tokens that `derives` relates to the tree, at the end of a text
and in front of a blank. -/
structure Respelled (derives : List Token → Tree → Prop) (t : Tree) : Prop where
  some : t.words ≠ []
  read : ∀ (place : Place) {rest : List Char}, Parted rest → ∃ us place', derives us t ∧
    scanFrom place ((Word.joined t.words).toList ++ rest) = (scanFrom place' rest).behind us

section Operands

variable {token : Token} {t : Tree} {lexeme : List Char} {v : Value}

/-- An operand is written as a numeral or a name that stands for it, behind its sign. -/
theorem operand_respelled (h : Grammar.Operand token t) (hm : token.Meant) (hplain : t.Plain)
    (operator : Tree) :
    ∃ (rule : Rule) (lexeme : List Char), (Tree.unary t operator).words ≠ [] ∧
      (Word.joined (Tree.unary t operator).words).toList = operator.sign.toList ++ lexeme ∧
      rule.Denotes lexeme token.kind token.value ∧ rule ≠ .string ∧ rule ≠ .newline := by
  obtain ⟨rule, hd⟩ := hm
  cases h with
  | integer hk =>
    rw [hk] at hd ⊢
    obtain ⟨n, hn, hsmall⟩ := hd.whole
    rw [hn]
    refine ⟨.number, _, ?_, ?_, whole_denotes hsmall, by decide, by decide⟩
    · simp [Tree.words]
    · simp [Tree.words, Word.joined, Word.text, Tree.shown]
  | float hk =>
    rw [hk] at hd ⊢
    obtain ⟨s, e, hv, hcanonical⟩ := hd.real
    rw [hv] at hplain ⊢
    refine ⟨.number, _, ?_, ?_, plain_denotes hcanonical (hplain _ (by simp [Tree.reals])), by decide, by decide⟩
    · simp [Tree.words]
    · simp [Tree.words, Word.joined, Word.text, Tree.record, Value.record, Value.shown]
  | named hk =>
    rw [hk] at hd ⊢
    obtain ⟨hv, rfl⟩ := hd.named
    refine ⟨.word, token.lexeme.toList, ?_, ?_, hd, by decide, by decide⟩
    · simp [Tree.words]
    · simp [Tree.words, Word.joined, Word.text, Rendering.text, hv, Value.shown]

/-- Operands are told by kind and value alone. -/
theorem Grammar.Operand.twin {other : Token} (h : Grammar.Operand token t)
    (htwin : token.Twin other) : Grammar.Operand other t := by
  obtain ⟨hkind, hvalue⟩ := htwin
  cases h with
  | integer hk => rw [hvalue]; exact .integer (hkind ▸ hk)
  | float hk => rw [hvalue]; exact .float (hkind ▸ hk)
  | named hk => rw [hvalue]; exact .named (hkind ▸ hk)

end Operands

theorem factor_respelled {us : List Token} {t : Tree} (h : Grammar.Factor us t)
    (hm : ∀ token ∈ us, token.Meant) (hplain : t.Plain) : Respelled Grammar.Factor t := by
  cases h with
  | @plain token t h =>
    obtain ⟨rule, lexeme, hne, htext, hd, hstring, hline⟩ :=
      operand_respelled h (hm _ (by simp)) hplain .nothing
    refine ⟨hne, fun place rest hrest => ?_⟩
    have hlongest := longest_parted hd.matched hstring hrest
    refine ⟨[place.token token.kind token.value lexeme], place.right lexeme.length,
      .plain (h.twin ⟨rfl, rfl⟩), ?_⟩
    rw [htext]
    exact scanFrom_lexeme hlongest hd hline place
  | @signed sign token t hs h =>
    obtain ⟨rule, lexeme, hne, htext, hd, hstring, hline⟩ :=
      operand_respelled h (hm _ (by simp)) hplain (.symbol sign.kind)
    refine ⟨hne, fun place rest hrest => ?_⟩
    have hlongest := longest_parted hd.matched hstring hrest
    have hsign : Rule.operator.Denotes sign.kind.spelling.toList sign.kind .absent := by
      have hall : ∀ kind ∈ Grammar.additive, kind ∈ Token.Kind.operators := by decide
      exact .operator (hall _ hs)
    refine ⟨[place.token sign.kind .absent sign.kind.spelling.toList,
      (place.right sign.kind.spelling.toList.length).token token.kind token.value lexeme],
      (place.right sign.kind.spelling.toList.length).right lexeme.length,
      .signed hs (h.twin ⟨rfl, rfl⟩), ?_⟩
    have htext' : (Tree.symbol sign.kind).sign = sign.kind.spelling := rfl
    rw [htext, htext', List.append_assoc, scanFrom_lexeme (longest_sign hs _) hsign (by decide),
      scanFrom_lexeme hlongest hd hline]
    rfl

/-- **The words of a chain are read as a chain**, when those of its operands are read as operands.
Every operator stands between blanks. The induction is on the chain. -/
theorem chain_respelled {operators : List Token.Kind} {node : Tree → Tree → Tree → Tree}
    {operand : List Token → Tree → Prop} {us : List Token} {t : Tree}
    (hknown : ∀ kind ∈ operators, kind ∈ Token.Kind.operators)
    (hreals : ∀ first operator rest, (node first operator rest).reals = first.reals ++ rest.reals)
    (hlast : ∀ u, (node u .nothing .nothing).words = u.words)
    (hlink : ∀ u kind v, (node u (.symbol kind) v).words = u.words ++ .operator kind :: v.words)
    (hoperand : ∀ us u, operand us u → (∀ token ∈ us, token.Meant) → u.Plain → Respelled operand u)
    (h : Grammar.Chain operators node operand us t) (hm : ∀ token ∈ us, token.Meant)
    (hplain : t.Plain) : Respelled (Grammar.Chain operators node operand) t := by
  induction h with
  | @last us t h =>
    have hfirst : t.Plain := fun x hx => hplain x (by simp [hreals, hx])
    obtain ⟨hne, hread⟩ := hoperand us t h hm hfirst
    rw [← hlast] at hne
    refine ⟨hne, fun place rest hrest => ?_⟩
    obtain ⟨vs, place', hvs, hscan⟩ := hread place hrest
    exact ⟨vs, place', .last hvs, by rw [hlast, hscan]⟩
  | @link us vs operator t u h hk _ ih =>
    have hfirst : t.Plain := fun x hx => hplain x (by simp [hreals, hx])
    have hothers : u.Plain := fun x hx => hplain x (by simp [hreals, hx])
    obtain ⟨hne, hread⟩ := hoperand us t h (fun token ht => hm token (by simp [ht])) hfirst
    obtain ⟨hne', hread'⟩ := ih (fun token ht => hm token (by simp [ht])) hothers
    refine ⟨by simp [hlink], fun place rest hrest => ?_⟩
    have hspaced (more : List Char) : Parted (' ' :: more) := .inr ⟨more, rfl⟩
    have hsign : Rule.operator.Denotes operator.kind.spelling.toList operator.kind .absent :=
      .operator (hknown _ hk)
    have htext : (Word.joined (node t (.symbol operator.kind) u).words).toList ++ rest =
        (Word.joined t.words).toList ++ ' ' :: (operator.kind.spelling.toList ++
          ' ' :: ((Word.joined u.words).toList ++ rest)) := by
      rw [hlink, Write.joined_link hne hne']
      simp
    obtain ⟨ws, place₁, hws, hfront⟩ := hread place
      (hspaced (operator.kind.spelling.toList ++ ' ' :: ((Word.joined u.words).toList ++ rest)))
    obtain ⟨xs, place₂, hxs, hrest'⟩ :=
      hread' (((place₁.right 1).right operator.kind.spelling.toList.length).right 1) hrest
    refine ⟨ws ++ (place₁.right 1).token operator.kind .absent operator.kind.spelling.toList :: xs,
      place₂, .link hws hk hxs, ?_⟩
    rw [htext, hfront, scanFrom_blank,
      scanFrom_lexeme (longest_parted hsign.matched (by decide) (hspaced _)) hsign (by decide),
      scanFrom_blank, hrest']
    simp [Scan.behind, Scan.cons]

theorem term_respelled {us : List Token} {t : Tree} (h : Grammar.Term us t)
    (hm : ∀ token ∈ us, token.Meant) (hplain : t.Plain) : Respelled Grammar.Term t :=
  chain_respelled (by decide) (fun _ _ _ => rfl) (fun _ => rfl) (fun _ _ _ => rfl)
    (fun _ _ => factor_respelled) h hm hplain

theorem expression_respelled {us : List Token} {t : Tree} (h : Grammar.Expression us t)
    (hm : ∀ token ∈ us, token.Meant) (hplain : t.Plain) : Respelled Grammar.Expression t :=
  chain_respelled (by decide) (fun _ _ _ => rfl) (fun _ => rfl) (fun _ _ _ => rfl)
    (fun _ _ => term_respelled) h hm hplain

theorem comparison_respelled {us : List Token} {t : Tree} (h : Grammar.Comparison us t)
    (hm : ∀ token ∈ us, token.Meant) (hplain : t.Plain) : Respelled Grammar.Comparison t :=
  chain_respelled (by decide) (fun _ _ _ => rfl) (fun _ => rfl) (fun _ _ _ => rfl)
    (fun _ _ => expression_respelled) h hm hplain

/-! ## Names that are known -/

/-- What is computed only reads variables, and these are the names among its words. -/
theorem Tree.WordsFit.reads {t : Tree} (h : t.WordsFit) {m : Mention} (hm : m ∈ t.mentions) :
    ∃ name, m = .reads name := by
  have hplace : (m, []) ∈ t.mentions.map (·, ([] : List Nat)) := List.mem_map_of_mem hm
  rw [← h.2] at hplace
  obtain ⟨s, hs, heq⟩ := List.mem_map.1 hplace
  obtain ⟨word, -, hword⟩ := List.mem_filterMap.1 hs
  obtain ⟨rfl, -⟩ := Prod.mk.inj heq
  cases word with
  | name sign r =>
    cases hword
    exact ⟨_, rfl⟩
  | number | operator => cases hword

/-- Variables that have been declared may be read. -/
theorem Ledger.allows_reads {ledger : Ledger} {ms : List Mention}
    (hreads : ∀ m ∈ ms, ∃ name, m = .reads name)
    (hdeclared : ∀ m ∈ ms, m.name.isIn ledger.declared = true) : ledger.Allows ms := by
  induction ms with
  | nil => trivial
  | cons m ms ih =>
    obtain ⟨⟨name, rfl⟩, hothers⟩ := List.forall_mem_cons.1 hreads
    obtain ⟨hname, hrest⟩ := List.forall_mem_cons.1 hdeclared
    exact ⟨hname, ih hothers hrest⟩

/-- Where no name waits for its declaration the words are written as they stand. -/
theorem Word.declare_idle {pending : List Value} {words : List Word}
    (hbare : words.map Word.bare = words)
    (h : ∀ s ∈ Word.sites [] words, s.mention.name.isIn pending = false) :
    Word.declare pending words = (words, pending) := by
  induction words with
  | nil => rfl
  | cons word words ih =>
    obtain ⟨hword, hwords⟩ := List.cons_eq_cons.1 hbare
    cases word with
    | name sign r =>
      obtain ⟨hr, hrest⟩ := List.forall_mem_cons.1
        (show ∀ s ∈ ⟨.reads r.name, r.declares, [], none⟩ :: Word.sites [] words,
          s.mention.name.isIn pending = false from h)
      have hdeclare : r.declare pending = (r, pending) := by
        have hr' : r.bare = r := by simpa [Word.bare] using hword
        have hknown : ¬ r.name.isIn pending = true := ne_true_of_eq_false hr
        unfold Rendering.declare
        rw [if_neg hknown]
        exact congrArg (·, pending) hr'
      simp only [Word.declare, hdeclare, ih hwords hrest]
    | number sign digits | operator kind => simp only [Word.declare, ih hwords h]

/-! ## Writing, scanning and reading -/

/-- What is written for a tree while none of its names waits for a declaration is read as that tree,
up to the end of the text, wherever its names are declared. Writing it leaves the writer as it is. -/
def Rereads {α : Type} (write : Tree → Write String) (read : Read α) (tree : α → Tree)
    (t : Tree) : Prop :=
  ∀ writer : Writer, (∀ m ∈ t.mentions, m.name.isIn writer.pending = false) →
    ∃ text ts stop, write t writer = .ok text writer ∧ Token.scan text = .ok (ts ++ [stop]) ∧
      stop.kind = .eof ∧
      ∀ names : Names, (∀ m ∈ t.mentions, m.name.isIn names.declared = true) →
        ∃ a reader, read { Reader.ofTokens (ts ++ [stop]) with names := names } = .ok a reader ∧
          tree a = t ∧ reader.ahead = [stop]

theorem Respelled.rereads {α : Type} {write : Tree → Write String} {read : Read α} {tree : α → Tree}
    {derives : List Token → Tree → Prop} {avoid : List Token.Kind} {t : Tree}
    (h : Respelled derives t) (hwrites : Write.Writes write t) (hfits : t.WordsFit)
    (hread : Read.Exact read tree derives avoid) (havoid : .eof ∉ avoid) :
    Rereads write read tree t := by
  intro writer hidle
  have hdeclare : Word.declare writer.pending t.words = (t.words, writer.pending) := by
    refine Word.declare_idle t.words_bare fun s hs => hidle s.mention ?_
    have hplace := List.mem_map_of_mem (f := fun s => (s.mention, s.block)) hs
    rw [hfits.2] at hplace
    obtain ⟨m, hm, heq⟩ := List.mem_map.1 hplace
    rwa [← (Prod.mk.inj heq).1]
  have hpast : writer.past t.words = writer := by
    unfold Writer.past
    rw [hdeclare]
  obtain ⟨ts, place, hts, hscan⟩ := h.read {} (.inl rfl)
  rw [List.append_nil, scanFrom] at hscan
  refine ⟨Word.joined t.words, ts, place.token .eof .absent [], ?_, ?_, rfl, fun names hnames => ?_⟩
  · rw [hwrites.2 writer, hdeclare, hpast]
  · unfold Token.scan scanText
    rw [hscan]
    rfl
  · have hallows : names.ledger.Allows t.mentions :=
      Ledger.allows_reads (fun m hm => hfits.reads hm) hnames
    obtain ⟨a, reader, hok, htree, hmoves⟩ :=
      hread.takes (r := { Reader.ofTokens (ts ++ [place.token .eof .absent []]) with names := names })
        hts (closed_eq rfl) havoid hallows
    exact ⟨a, reader, hok, htree, hmoves.ahead_eq (closed_eq rfl)⟩

/-- What is computed reads back by the rule of its own level. -/
def Tree.ReadsBack (t : Tree) : Prop :=
  match t with
  | .comparison .. => Rereads Write.comparison Read.comparison Comparison.tree t
  | .expression .. => Rereads Write.expression Read.expression Expression.tree t
  | .term .. => Rereads Write.term Read.term Term.tree t
  | _ => True

/-- **What is computed in a program reads back**: the text that is written for a comparison, an
expression or a term of a program is read as the same tree, unless it holds a number that is written
with an exponent. -/
theorem computations_read_back {source : String} {tokens : List Token} {program : Program}
    {reader : Reader} (hscan : Token.scan source = .ok tokens)
    (hread : Read.program (Reader.ofTokens tokens) = .ok program reader) {t : Tree}
    (hpart : PartOf t (Program.tree program)) (hplain : t.Plain) : t.ReadsBack := by
  obtain ⟨hg, -⟩ := program_of_text hscan hread
  have hrooted := hg.rooted t hpart
  have hshort := (program_short hscan hread).part hpart
  obtain ⟨ts, stop, rfl, -, hmeant⟩ := scan_meant hscan
  obtain ⟨ts', stop', hsplit, -, hproper⟩ := Token.scan_ok hscan
  obtain ⟨rfl, -⟩ := List.append_inj' hsplit rfl
  rw [List.dropLast_concat] at hrooted
  cases t
  case comparison left operator right =>
    obtain ⟨us, hus, h⟩ := hrooted
    have hshape := h.shaped fun token hm => hproper token (hus hm)
    exact (comparison_respelled h (fun token hm => hmeant token (hus hm)) hplain).rereads
      (Write.comparison_writes hshape hshort) hshape.fits Read.comparison_exact (by decide)
  case expression first operator rest =>
    obtain ⟨us, hus, h⟩ := hrooted
    have hshape := h.shaped fun token hm => hproper token (hus hm)
    exact (expression_respelled h (fun token hm => hmeant token (hus hm)) hplain).rereads
      (Write.expression_writes hshape hshort) hshape.fits Read.expression_exact (by decide)
  case term first operator rest =>
    obtain ⟨us, hus, h⟩ := hrooted
    have hshape := h.shaped fun token hm => hproper token (hus hm)
    exact (term_respelled h (fun token hm => hmeant token (hus hm)) hplain).rereads
      (Write.term_writes hshape hshort) hshape.fits Read.term_exact (by decide)
  all_goals trivial

/-- A text with a condition in which signs stand behind operators. -/
def signsText : String := "LET a = 1\nIF a - -02.50 * a <= +007 THEN\nPRINT a\nENDIF\n"

/-- The condition of that text. -/
def signsCondition : Comparison :=
  let a : Factor := ⟨none, .variable (.text "a")⟩
  let negated : Factor := ⟨some .minus, .float (.real (.finite false 5629499534213120 (-51)))⟩
  let seven : Factor := ⟨some .plus, .integer (.whole 7)⟩
  ⟨⟨⟨a, []⟩, [(.minus, ⟨negated, [(.times, a)]⟩)]⟩, [(.ltEq, ⟨⟨seven, []⟩, []⟩)]⟩

/-- The program of that text. -/
def signsProgram : Program :=
  let one : Term := ⟨⟨none, .integer (.whole 1)⟩, []⟩
  let a : Term := ⟨⟨none, .variable (.text "a")⟩, []⟩
  [.assign (.text "a") ⟨one, []⟩, .when signsCondition [.print ⟨a, []⟩]]

theorem signsCondition_reads_back : ∃ program reader,
    Token.scan signsText = .ok (scanText signsText).tokens ∧
    Read.program (Reader.ofTokens (scanText signsText).tokens) = .ok program reader ∧
    PartOf (Comparison.tree signsCondition) (Program.tree program) ∧
    (Comparison.tree signsCondition).Plain ∧ (Comparison.tree signsCondition).ReadsBack := by
  have hscan : Token.scan signsText = .ok (scanText signsText).tokens := by decide +kernel
  have hread : (match Read.program (Reader.ofTokens (scanText signsText).tokens) with
      | .ok program _ => Program.tree program == Program.tree signsProgram
      | .error _ _ => false) = true := by decide +kernel
  split at hread
  · rename_i program reader h
    have htree : Program.tree program = Program.tree signsProgram := by simpa using hread
    have hpart : PartOf (Comparison.tree signsCondition) (Program.tree program) := by
      rw [htree]
      refine .field (List.mem_cons_of_mem _ List.mem_cons_self) ?_
      exact .field List.mem_cons_self (.field List.mem_cons_self .self)
    have hplain : ∀ x ∈ (Comparison.tree signsCondition).reals, 'e' ∉ x.text.toList := by
      decide +kernel
    exact ⟨program, reader, hscan, h, hpart, hplain, computations_read_back hscan h hpart hplain⟩
  · cases hread

/-- Numbers are written anew, and no sign joins what stands in front of it. -/
example : Word.joined (Comparison.tree signsCondition).words = "a - -2.5 * a <= +7" := by
  decide +kernel

end BasicToC
