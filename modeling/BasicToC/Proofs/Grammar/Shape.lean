import BasicToC.Proofs.Scanning.Tokens

/-!
# The shape of the trees of programs

* `IsOperand`, `IsFactor`, `IsChain`, `IsTerm`, `IsExpression`, `IsComparison`: what is computed. A
  chain goes on behind a node exactly when the node has an operator.
* `Shaped`: statements, and chains of them.
* `Shaped.texts`: every name in such a tree is a text.
* `Grammar.Program.shaped`: what the grammar derives from the tokens of a text.
-/

set_option autoImplicit false

namespace BasicToC

namespace Tree

inductive IsOperand : Tree → Prop where
  | integer (v : Value) : IsOperand (.integer (.leaf v))
  | float (v : Value) : IsOperand (.float (.leaf v))
  | named (s : String) : IsOperand (.variable (.leaf (.text s)))

inductive IsFactor : Tree → Prop where
  | plain {t : Tree} : IsOperand t → IsFactor (.unary t .nothing)
  | signed {t : Tree} (sign : Token.Kind) : IsOperand t → IsFactor (.unary t (.symbol sign))

/-- Nodes that nest to the right, each with an operand, and with an operator exactly when there is a
further node. -/
inductive IsChain (node : Tree → Tree → Tree → Tree) (operand : Tree → Prop) : Tree → Prop where
  | last {t : Tree} : operand t → IsChain node operand (node t .nothing .nothing)
  | link {t u : Tree} (operator : Token.Kind) : operand t → IsChain node operand u →
      IsChain node operand (node t (.symbol operator) u)

def IsTerm : Tree → Prop := IsChain .term IsFactor

def IsExpression : Tree → Prop := IsChain .expression IsTerm

def IsComparison : Tree → Prop := IsChain .comparison IsExpression

/-- What a tree stands for: one statement, or statements one after another. -/
inductive Form where
  | statement
  | chain

/-- A well-formed statement or chain of statements. A chain may stand in the place of a statement. -/
inductive Shaped : Form → Tree → Prop where
  | print {e : Tree} : IsExpression e → Shaped .statement (.print e)
  | printText (s : String) : Shaped .statement (.printText (.leaf (.text s)))
  | assign (s : String) {e : Tree} : IsExpression e →
      Shaped .statement (.assign (.leaf (.text s)) e)
  | input (s : String) : Shaped .statement (.input (.leaf (.text s)))
  | label (s : String) : Shaped .statement (.label (.leaf (.text s)))
  | goto (s : String) : Shaped .statement (.goto (.leaf (.text s)))
  | when {c b : Tree} : IsComparison c → Shaped .chain b → Shaped .statement (.when c b)
  | loop {c b : Tree} : IsComparison c → Shaped .chain b → Shaped .statement (.loop c b)
  | nested {first rest : Tree} : Shaped .chain (.sequence first rest) →
      Shaped .statement (.sequence first rest)
  | done : Shaped .chain .done
  | next {first rest : Tree} : Shaped .statement first → Shaped .chain rest →
      Shaped .chain (.sequence first rest)

/-! ## The names in a tree -/

/-- Every name in a tree is a text. -/
def Texts (t : Tree) : Prop := ∀ m ∈ t.mentions, m.name.IsText

theorem Texts.nil {t : Tree} (h : t.mentions = []) : t.Texts := by
  intro m hm
  rw [h] at hm
  cases hm

theorem Texts.single {t : Tree} {m : Mention} (h : t.mentions = [m]) (hm : m.name.IsText) :
    t.Texts := by
  intro n hn
  rw [h, List.mem_singleton] at hn
  rwa [hn]

theorem Texts.append {t u v : Tree} (h : v.mentions = t.mentions ++ u.mentions) (ht : t.Texts)
    (hu : u.Texts) : v.Texts := by
  intro m hm
  rw [h] at hm
  rcases List.mem_append.1 hm with hm | hm
  · exact ht m hm
  · exact hu m hm

theorem IsOperand.texts {t : Tree} (h : IsOperand t) : t.Texts := by
  cases h with
  | integer v => exact .nil rfl
  | float v => exact .nil rfl
  | named s => exact .single rfl ⟨s, rfl⟩

theorem IsFactor.texts {t : Tree} (h : IsFactor t) : t.Texts := by
  cases h with
  | plain h => exact h.texts
  | signed sign h => exact h.texts

theorem IsChain.texts {node : Tree → Tree → Tree → Tree} {operand : Tree → Prop} {t : Tree}
    (hnode : ∀ first operator rest, (node first operator rest).mentions =
      first.mentions ++ rest.mentions)
    (hoperand : ∀ u, operand u → u.Texts) (h : IsChain node operand t) : t.Texts := by
  induction h with
  | last h => exact .append (hnode _ _ _) (hoperand _ h) (.nil rfl)
  | link operator h _ ih => exact .append (hnode _ _ _) (hoperand _ h) ih

theorem IsExpression.texts {t : Tree} (h : IsExpression t) : t.Texts :=
  IsChain.texts (fun _ _ _ => rfl)
    (fun _ => IsChain.texts (fun _ _ _ => rfl) fun _ => IsFactor.texts) h

theorem IsComparison.texts {t : Tree} (h : IsComparison t) : t.Texts :=
  IsChain.texts (fun _ _ _ => rfl) (fun _ => IsExpression.texts) h

/-- Every name in a well-formed tree is a text. -/
theorem Shaped.texts {form : Form} {t : Tree} (h : Shaped form t) : t.Texts := by
  induction h with
  | print he => exact he.texts
  | printText s => exact .nil rfl
  | @assign s e he =>
    intro m hm
    rcases List.mem_cons.1 hm with rfl | hm
    · exact ⟨s, rfl⟩
    · exact he.texts m hm
  | input s | label s | goto s => exact .single rfl ⟨s, rfl⟩
  | when hc _ ih | loop hc _ ih => exact .append rfl hc.texts ih
  | nested _ ih => exact ih
  | done => exact .nil rfl
  | next _ _ ihf ihr => exact .append rfl ihf ihr

end Tree

/-! ## What the grammar derives -/

namespace Grammar

open BasicToC.Tree (IsOperand IsFactor IsChain IsTerm IsExpression IsComparison Shaped)

variable {ts : List Token} {t : Tree}

theorem ident_text {token : Token} (hp : token.Proper) (hk : token.kind = .ident) :
    token.value.IsText := by
  have hv := hp.value
  rw [hk] at hv
  exact hv

theorem Operand.shaped {token : Token} (hp : token.Proper) (h : Operand token t) : IsOperand t := by
  cases h with
  | integer hk => exact .integer _
  | float hk => exact .float _
  | named hk =>
    obtain ⟨s, hs⟩ := ident_text hp hk
    rw [hs]
    exact .named s

theorem Factor.shaped (hp : ∀ token ∈ ts, token.Proper) (h : Factor ts t) : IsFactor t := by
  cases h with
  | plain h => exact .plain (h.shaped (hp _ (by simp)))
  | signed hs h => exact .signed _ (h.shaped (hp _ (by simp)))

theorem Chain.shaped {operators : List Token.Kind} {node : Tree → Tree → Tree → Tree}
    {operand : List Token → Tree → Prop} {shape : Tree → Prop}
    (hoperand : ∀ us u, (∀ token ∈ us, token.Proper) → operand us u → shape u)
    (hp : ∀ token ∈ ts, token.Proper) (h : Chain operators node operand ts t) :
    IsChain node shape t := by
  induction h with
  | last h => exact .last (hoperand _ _ hp h)
  | @link us vs operator t u h _ _ ih =>
    have hus : ∀ token ∈ us, token.Proper := fun token hm => hp token (by simp [hm])
    have hvs : ∀ token ∈ vs, token.Proper := fun token hm => hp token (by simp [hm])
    exact .link _ (hoperand _ _ hus h) (ih hvs)

theorem Term.shaped (hp : ∀ token ∈ ts, token.Proper) (h : Term ts t) : IsTerm t :=
  Chain.shaped (fun _ _ => Factor.shaped) hp h

theorem Expression.shaped (hp : ∀ token ∈ ts, token.Proper) (h : Expression ts t) :
    IsExpression t :=
  Chain.shaped (fun _ _ => Term.shaped) hp h

theorem Comparison.shaped (hp : ∀ token ∈ ts, token.Proper) (h : Comparison ts t) :
    IsComparison t :=
  Chain.shaped (fun _ _ => Expression.shaped) hp h

theorem Rows.shaped {statement : List Token → Tree → Prop} (hp : ∀ token ∈ ts, token.Proper)
    (hs : ∀ us u, us.length ≤ ts.length → (∀ token ∈ us, token.Proper) → statement us u →
      Shaped .statement u) (h : Rows statement ts t) : Shaped .chain t := by
  induction h with
  | done hb => exact .done
  | @next blank us vs first rest hb h _ ih =>
    have hus : ∀ token ∈ us, token.Proper := fun token hm => hp token (by simp [hm])
    have hvs : ∀ token ∈ vs, token.Proper := fun token hm => hp token (by simp [hm])
    have hlen : us.length ≤ (blank ++ us ++ vs).length ∧ vs.length ≤ (blank ++ us ++ vs).length := by
      simp only [List.length_append]
      omega
    exact .next (hs us first hlen.1 hus h) (ih hvs fun ws w hw => hs ws w (Nat.le_trans hw hlen.2))

/-- What the grammar derives from the tokens of a text as a statement is well-formed. -/
theorem Statement.shaped (hp : ∀ token ∈ ts, token.Proper) (h : Statement ts t) :
    Shaped .statement t := by
  revert hp
  refine Statement.induction
    (motive := fun ts t => (∀ token ∈ ts, token.Proper) → Shaped .statement t) ?_ h
  intro ts t h ih hp
  cases h with
  | @print word stop ts value hw he hs =>
    exact .print (he.shaped fun token hm => hp token (by simp [hm]))
  | @printText word text stop hw ht hs =>
    have hv := (hp text (by simp)).value
    rw [ht] at hv
    obtain ⟨s, hs⟩ := hv
    rw [hs]
    exact .printText s
  | @block opener middle closer node o m s c stop ts us condition body hb ho hc hm hs hrows hcl ht =>
    have hcondition : IsComparison condition := hc.shaped fun token hm => hp token (by simp [hm])
    have hbody : Shaped .chain body := by
      refine hrows.shaped (fun token hm => hp token (by simp [hm])) fun vs v hlen hvs hv =>
        ih vs v ?_ hv hvs
      simp only [List.length_append, List.length_cons]
      omega
    cases hb with
    | when => exact .when hcondition hbody
    | loop => exact .loop hcondition hbody
  | @label word name stop hw hn hs =>
    obtain ⟨s, hs⟩ := ident_text (hp name (by simp)) hn
    rw [hs]
    exact .label s
  | @goto word name stop hw hn hs =>
    obtain ⟨s, hs⟩ := ident_text (hp name (by simp)) hn
    rw [hs]
    exact .goto s
  | @assign word name eq stop ts value hw hn he hx hs =>
    obtain ⟨s, hs⟩ := ident_text (hp name (by simp)) hn
    rw [hs]
    exact .assign s (hx.shaped fun token hm => hp token (by simp [hm]))
  | @input word name stop hw hn hs =>
    obtain ⟨s, hs⟩ := ident_text (hp name (by simp)) hn
    rw [hs]
    exact .input s

/-- **The tree of a program is well-formed**, as the grammar derives it from the tokens of a text. -/
theorem Program.shaped (hp : ∀ token ∈ ts, token.Proper) (h : Program ts t) : Shaped .chain t :=
  Rows.shaped hp (fun _ _ _ hus hu => Statement.shaped hus hu) h

theorem Program.texts (hp : ∀ token ∈ ts, token.Proper) (h : Program ts t) : t.Texts :=
  (h.shaped hp).texts

end Grammar

end BasicToC
