import BasicToC.Proofs.Grammar.Completion
import BasicToC.Proofs.Joining.Tokens
import BasicToC.Proofs.Layout.Reading
import BasicToC.Proofs.Pipeline.Outcome

/-!
# Joined programs

Two programs whose labels are different ones are one program behind each other. It is read as the
statements of the first and the statements of the second.

* `WellNamed.append`: the names in it keep the rules.
* `nesting_twins`, `nesting_joined`: its blocks go no deeper than those of both.
* `grammar_moved`, `grammar_joined`: its tokens are derived by the grammar.
* `program_joined`: it is read.
-/

set_option autoImplicit false

namespace BasicToC

/-! ## Names -/

/-- **Names that keep the rules keep them together**, if no label is placed among both. -/
theorem WellNamed.append {ms ns : List Mention} (hm : WellNamed ms) (hn : WellNamed ns)
    (hlabels : ∀ name, .places name ∈ ms → .places name ∉ ns) : WellNamed (ms ++ ns) where
  set_before := by
    intro before name after hsplit
    rcases List.append_eq_append_iff.1 hsplit with ⟨between, rfl, hns⟩ | ⟨between, hms, hafter⟩
    · exact List.mem_append_right _ (hn.set_before between name after hns)
    · cases between with
      | nil =>
        rw [List.append_nil] at hms
        exact absurd (hn.set_before [] name after hafter.symm) List.not_mem_nil
      | cons m between =>
        obtain ⟨rfl, -⟩ := List.cons_eq_cons.1 hafter
        exact hm.set_before before name between hms
  placed_once := by
    have hplaced {l : List Mention} {name : Value} (h : name ∈ l.filterMap Mention.placed?) :
        .places name ∈ l := by
      obtain ⟨m, hm, heq⟩ := List.mem_filterMap.1 h
      cases m <;> cases heq
      exact hm
    rw [List.filterMap_append]
    refine List.nodup_append.2 ⟨hm.placed_once, hn.placed_once, fun a ha b hb heq => ?_⟩
    exact hlabels a (hplaced ha) (hplaced (heq ▸ hb))
  placed := by
    intro name hjump
    rcases List.mem_append.1 hjump with hjump | hjump
    · exact List.mem_append_left _ (hm.placed name hjump)
    · exact List.mem_append_right _ (hn.placed name hjump)

/-! ## Blocks -/

open Grammar (nesting nestingFrom levelAfter)

variable {ts us moved : List Token}

/-- Twins open and close the same blocks. -/
theorem nesting_twins (h : List.Forall₂ Token.Twin ts us) (level : Nat) :
    nestingFrom level ts = nestingFrom level us := by
  induction h generalizing level with
  | nil => rfl
  | @cons a b ts us htwin _ ih =>
    have hlevel : levelAfter level a = levelAfter level b := by
      unfold levelAfter
      rw [htwin.kind]
    rw [nestingFrom, nestingFrom, hlevel, ih]

/-- The blocks of joined programs go as deep as those of one of them. -/
theorem nesting_joined {t : Tree} {line : Token} (h : Grammar.Program ts t)
    (hline : line.kind = .newline) (us : List Token) :
    nesting (ts ++ line :: us) = max (nesting ts) (nesting us) := by
  have hlevel : Grammar.Level ts := Grammar.Rows.level (fun _ _ _ hs => hs.level) h
  have hflat : levelAfter 0 line = 0 := by simp [levelAfter, hline]
  unfold nesting
  rw [Grammar.nestingFrom_append, hlevel, nestingFrom, hflat, Nat.zero_max]

/-! ## Statements -/

/-- The statements of two programs, one behind the other. -/
theorem Program.tree_append (p q : Program) :
    Program.tree (p ++ q) = (Program.tree q).chainOnto (Program.tree p).elements := by
  induction p with
  | nil => rfl
  | cons statement p ih =>
    rw [List.cons_append, Program.tree, ih]
    rfl

/-- The tokens of a text that stands elsewhere belong to the same program. -/
theorem grammar_moved {source : String} {stop : Token} {program : Program} {reader : Reader}
    (hscan : Token.scan source = .ok us)
    (hread : Read.program (Reader.ofTokens us) = .ok program reader)
    (htwins : List.Forall₂ Token.Twin us (moved ++ [stop])) (hstop : stop.kind = .eof)
    (hproper : ∀ token ∈ moved, token.Proper) :
    Grammar.Program moved (Program.tree program) := by
  have hagree : Read.Agree true Eq (Read.program (Reader.ofTokens us))
      (Read.program (Reader.ofTokens (moved ++ [stop]))) := by
    refine Read.program_agree ⟨?_, rfl⟩
    rw [(start_good hscan).2, (Read.start_ahead _).trans (closed_eq hstop)]
    exact Twins.of_twins htwins
  rw [hread] at hagree
  cases hread' : Read.program (Reader.ofTokens (moved ++ [stop])) with
  | error fault reader' =>
    rw [hread'] at hagree
    exact hagree.elim
  | ok program' reader' =>
    rw [hread'] at hagree
    obtain ⟨rfl, -⟩ := hagree
    obtain ⟨vs, token, rest, htokens, hk, hg, -⟩ := Read.program_ok hread'
    obtain rfl := split_at_end hproper hk ((closed_eq hstop).symm.trans htokens)
    exact hg

/-- A line end in front of the second program is a blank line of it. -/
theorem grammar_joined {p q : Program} {line : Token} (hp : Grammar.Program ts (Program.tree p))
    (hq : Grammar.Program us (Program.tree q)) (hline : line.kind = .newline) :
    Grammar.Program (ts ++ line :: us) (Program.tree (p ++ q)) := by
  have hblank : Grammar.LineEnds [line] := by simpa [Grammar.LineEnds] using hline
  rw [Program.tree_append]
  exact Grammar.Rows.append hp (hq.blank hblank)

/-- **Joined programs are read as one program**, of the statements of both, if their labels are
different ones. -/
theorem program_joined {source next : String} {p q : Program} {reader reader' : Reader}
    (hscan : Token.scan source = .ok ts) (hscan' : Token.scan next = .ok us)
    (hread : Read.program (Reader.ofTokens ts) = .ok p reader)
    (hread' : Read.program (Reader.ofTokens us) = .ok q reader')
    (hnesting : nesting ts ≤ 200) (hnesting' : nesting us ≤ 200)
    (hlabels : List.Disjoint reader.names.labels reader'.names.labels) :
    ∃ tokens program joined, Token.scan (source ++ "\n" ++ next) = .ok tokens ∧
      Read.program (Reader.ofTokens tokens) = .ok program joined ∧
      Program.tree program = Program.tree (p ++ q) ∧ nesting tokens ≤ 200 := by
  obtain ⟨line, moved, stop, hjoined, hline, hstop, hproper, htwins⟩ := scan_joined hscan hscan'
  obtain ⟨hp, -, hnamed, hholds⟩ := program_of_text hscan hread
  obtain ⟨-, -, hnamed', hholds'⟩ := program_of_text hscan' hread'
  have hq := grammar_moved hscan' hread' htwins hstop hproper
  have hdepth : nesting (ts.dropLast ++ line :: moved ++ [stop]) ≤ 200 := by
    have hfront : nesting ts.dropLast ≤ nesting ts := by
      obtain ⟨vs, last, rfl, -⟩ := Token.scan_ok hscan
      rw [List.dropLast_concat]
      exact Grammar.nesting_le_append vs [last]
    have hback : nesting us = nesting (moved ++ [stop]) := nesting_twins htwins 0
    rw [List.append_assoc, List.cons_append, nesting_joined hp hline]
    omega
  have hmentions : (Program.tree (p ++ q)).mentions =
      (Program.tree p).mentions ++ (Program.tree q).mentions := by
    rw [Program.tree_append, Grammar.Rows.append_mentions hp]
  have hnames : WellNamed (Program.tree (p ++ q)).mentions := by
    rw [hmentions]
    refine hnamed.append hnamed' fun name hplaced hplaced' => ?_
    exact hlabels ((hholds.labels name).2 hplaced) ((hholds'.labels name).2 hplaced')
  have hg : Grammar.Program (ts.dropLast ++ line :: moved ++ [stop]).dropLast
      (Program.tree (p ++ q)) := by
    rw [List.dropLast_concat]
    exact grammar_joined hp hq hline
  obtain ⟨program, joined, hread, htree⟩ := program_of_grammar hjoined hdepth hg hnames
  exact ⟨_, program, joined, hjoined, hread, htree, hdepth⟩

end BasicToC
