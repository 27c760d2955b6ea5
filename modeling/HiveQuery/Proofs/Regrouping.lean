import HiveQuery.Proofs.ExpressionText
/-!
# Reading the text of an expression

The text of an expression leaves out the parentheses of a right operand that binds as tightly as its
operator, where the operator is `AND`, `OR`, `+` or `*`. Such a text is read as grouping to the
left, so what is read is the expression with the left operand moved down the left side of the right
one (`Reading.Grafts`). Nothing else changes, as long as no `NOT` stands as an operand of anything
but `AND`, `OR` and `NOT`: this is `Expr.exists_readsAs`.
-/

namespace HiveQuery

open QueryText

/-! ## Grouping to the left -/

/-- The operators whose right operand keeps no parentheses around an operator of the same rank. -/
def BinaryOp.regroups : BinaryOp → Bool
  | and | or | add | mul => true
  | _ => false

namespace Reading

/-- An operator and its left operand before a right operand that is read as grouping to the left. -/
inductive Grafts (op : BinaryOp) (l : Reading) : Reading → Reading → Prop
  | here (r : Reading) : Grafts op l r (.binary op l r)
  | left {op' : BinaryOp} {x y t : Reading} (hop : op.regroups) (hrank : op'.rank = op.rank)
      (h : Grafts op l x t) : Grafts op l (.binary op' x y) (.binary op' t y)

/-- The second expression is the first one with its operators grouped to the left where their
parentheses are left out. -/
inductive Regrouped : Reading → Reading → Prop
  | column (label name : String) : Regrouped (.column label name) (.column label name)
  | constant (value : Constant) : Regrouped (.constant value) (.constant value)
  | binary {op : BinaryOp} {l l' r r' t : Reading} (hl : Regrouped l l') (hr : Regrouped r r')
      (h : Grafts op l' r' t) : Regrouped (.binary op l r) t
  | negative {s t : Reading} (h : Regrouped s t) : Regrouped (.negative s) (.negative t)
  | negation {s t : Reading} (h : Regrouped s t) : Regrouped (.negation s) (.negation t)
  | isNull {s t : Reading} (h : Regrouped s t) (negated : Bool) :
      Regrouped (.isNull s negated) (.isNull t negated)
  | inQuery {s t : Reading} (h : Regrouped s t) (query : List Token) :
      Regrouped (.inQuery s query) (.inQuery t query)

/-- Regrouping goes on below a minus sign. -/
theorem Regrouped.negate {s t : Reading} (h : Regrouped s t) : Regrouped s.negate t.negate := by
  cases h with
  | constant value =>
    cases value with
    | integer => exact .constant _
    | decimal => exact .constant _
    | _ => exact .negative (.constant _)
  | column => exact .negative (.column _ _)
  | binary hl hr h =>
    cases h with
    | here => exact .negative (.binary hl hr (.here _))
    | left hop hrank h => exact .negative (.binary hl hr (.left hop hrank h))
  | negative h => exact .negative (.negative h)
  | negation h => exact .negative (.negation h)
  | isNull h => exact .negative (.isNull h _)
  | inQuery h => exact .negative (.inQuery h _)

end Reading

/-- A phrase of the rank of an operator, after the operator and its left operand. -/
theorem Phrase.exists_grafts {op : BinaryOp} (hop : op.regroups) {ts us : List Token}
    {l r : Reading} (hl : Phrase op.rank ts l) (hr : Phrase op.rank us r) :
    ∃ t, Phrase op.rank (ts ++ op.token :: us) t ∧ Reading.Grafts op l r t := by
  generalize hrank : op.rank = rank at hr
  have apart : op.rank ≠ 4 ∧ op.rank < 7 := by
    cases op <;> first | exact ⟨by decide, by decide⟩ | cases hop
  -- The induction goes down the left side of the right operand, where its first operand stands.
  induction hr with
  | @binary op' us vs x y hx hy ih _ =>
    obtain ⟨t, ht, hgraft⟩ := ih hrank
    refine ⟨.binary op' t y, ?_, .left hop hrank.symm hgraft⟩
    have whole := Phrase.binary ht hy
    rwa [List.append_assoc, List.cons_append] at whole
  | looser h _ =>
    subst hrank
    exact ⟨_, .binary hl h, .here _⟩
  | not => exact absurd hrank op.rank_ne_not
  | _ => omega

/-! ## Where a `NOT` stands -/

namespace Expr

/-- Whether an expression is a `NOT`. -/
def isNot : Expr → Bool
  | unary .not _ => true
  | _ => false

/-- The rank of the text of an expression. -/
def rank : Expr → ℕ
  | binary op _ _ => op.rank
  | unary .not _ => 3
  | isNull .. | inQuery .. => 4
  | _ => 7

/-- The operands that are read apart from what stands around them only if they are no `NOT`. -/
def tightOperands : Expr → List Expr
  | binary op left right => if op.rank ≤ 2 then [] else [left, right]
  | unary .neg operand | isNull operand _ | inQuery operand _ => [operand]
  | _ => []

/-- The operands that must not be a `NOT` are parts of the expression. -/
theorem mem_parts_of_mem_tightOperands {e p : Expr} (h : p ∈ e.tightOperands) : p ∈ e.parts := by
  cases e with
  | binary op left right =>
    simp only [tightOperands] at h
    split_ifs at h
    · cases h
    · exact h
  | unary op operand =>
    cases op with
    | neg => exact h
    | not => cases h
  | isNull | inQuery => exact h
  | _ => cases h

/-- No `NOT` stands as an operand of anything but `AND`, `OR` and `NOT`. -/
def NotsApart (e : Expr) : Prop :=
  ∀ x ∈ e.level, ∀ p ∈ x.tightOperands, p.isNot = false

instance (e : Expr) : Decidable e.NotsApart :=
  inferInstanceAs (Decidable (∀ x ∈ e.level, ∀ p ∈ x.tightOperands, p.isNot = false))

/-- No operand that has to bind tightly is a `NOT`. -/
theorem NotsApart.own {e : Expr} (h : e.NotsApart) : ∀ p ∈ e.tightOperands, p.isNot = false :=
  h e (mem_level.2 (.inl rfl))

/-- If no tight operand of an expression is a `NOT`, and the parts are free of such, so is the
expression. -/
theorem NotsApart.of_parts {e : Expr} (own : ∀ p ∈ e.tightOperands, p.isNot = false)
    (parts : ∀ p ∈ e.parts, p.NotsApart) : e.NotsApart := by
  intro x hx
  rcases mem_level.1 hx with rfl | ⟨p, hp, hx⟩
  · exact own
  · exact parts p hp x hx

/-- What holds `NOT` apart in an expression holds it apart in its parts. -/
theorem NotsApart.part {e p : Expr} (h : e.NotsApart) (hp : p ∈ e.parts) : p.NotsApart :=
  fun x hx => h x (mem_level.2 (.inr ⟨p, hp, hx⟩))

end Expr

/-! ## Ranks and precedences -/

/-- Ranks go up with precedences, but leave room for `NOT` between `AND` and the comparisons. -/
theorem BinaryOp.rank_precedence (op : BinaryOp) :
    (op.precedence ≤ 2 ∧ op.rank = op.precedence) ∨
      (3 ≤ op.precedence ∧ op.precedence ≤ 5 ∧ op.rank = op.precedence + 1) := by
  cases op <;> decide

theorem BinaryOp.rank_le_six (op : BinaryOp) : op.rank ≤ 6 := by
  cases op <;> decide

/-- The right operand of such an operator goes without parentheses from the operator's own rank
on. -/
theorem BinaryOp.rightFloor_of_regroups {op : BinaryOp} (h : op.regroups) :
    op.rightFloor = op.precedence := by
  cases op <;> first | rfl | cases h

/-- The right operand of another operator has to bind more tightly than the operator. -/
theorem BinaryOp.rightFloor_of_not_regroups {op : BinaryOp} (h : op.regroups = false) :
    op.rightFloor = op.precedence + 1 ∧ ¬ op.rank ≤ 2 := by
  cases op <;> first | exact ⟨rfl, by decide⟩ | cases h

/-- An atom binds tightly enough on the right of every operator. -/
theorem BinaryOp.rightFloor_le (op : BinaryOp) : op.rightFloor ≤ Expr.atomPrecedence := by
  cases op <;> decide

/-- What holds of the rank of an operator holds of an expression that is no `NOT`; an atom has the
highest rank. -/
theorem Expr.rank_precedence {e : Expr} (h : e.isNot = false) :
    (e.precedence ≤ 2 ∧ e.rank = e.precedence) ∨
      (3 ≤ e.precedence ∧ e.precedence ≤ 5 ∧ e.rank = e.precedence + 1) ∨
      (e.precedence = 10 ∧ e.rank = 7) := by
  cases e with
  | binary op left right => exact op.rank_precedence.imp id .inl
  | isNull | inQuery => exact .inr (.inl ⟨by simp [precedence], by simp [precedence], rfl⟩)
  | unary op operand =>
    cases op with
    | neg => exact .inr (.inr ⟨rfl, rfl⟩)
    | not => cases h
  | _ => exact .inr (.inr ⟨rfl, rfl⟩)

/-- A `NOT` is printed as if it were an atom, though it reads as binding more loosely than a
comparison. This is what has to be excluded. -/
theorem Expr.rank_of_isNot {e : Expr} (h : e.isNot) : e.precedence = 10 ∧ e.rank = 3 := by
  cases e with
  | unary op operand =>
    cases op with
    | neg => cases h
    | not => exact ⟨rfl, rfl⟩
  | _ => cases h

/-- Nothing binds more loosely than `OR`. -/
theorem Expr.rank_pos (e : Expr) : 1 ≤ e.rank := by
  cases e with
  | binary op left right => exact op.rank_pos
  | unary op operand => cases op <;> simp [rank]
  | _ => simp [rank]

section

variable {e : Expr} {op : BinaryOp}

/-- An operand that is printed without parentheses reads as one, unless it is a `NOT` below an
operator that binds more tightly. -/
theorem BinaryOp.rank_le_of_precedence_le (h : op.precedence ≤ e.precedence)
    (hnot : op.rank ≤ 2 ∨ e.isNot = false) : op.rank ≤ e.rank := by
  have := op.rank_precedence
  cases he : e.isNot with
  | true =>
    have := Expr.rank_of_isNot he
    simp only [he, Bool.true_eq_false, or_false] at hnot
    omega
  | false =>
    have := Expr.rank_precedence he
    omega

/-- The same of an operand that has to bind strictly more tightly. -/
theorem BinaryOp.rank_lt_of_precedence_lt (h : op.precedence < e.precedence)
    (hrank : ¬ op.rank ≤ 2) (hnot : e.isNot = false) : op.rank < e.rank := by
  have := op.rank_precedence
  have := Expr.rank_precedence hnot
  omega

/-- What is printed as an atom reads as one, if it is no `NOT`. -/
theorem Expr.rank_eq_of_atomPrecedence_le (h : atomPrecedence ≤ e.precedence)
    (hnot : e.isNot = false) : e.rank = 7 := by
  have := Expr.rank_precedence hnot
  unfold atomPrecedence at h
  omega

theorem Expr.four_le_rank_of_atomPrecedence_le (h : atomPrecedence ≤ e.precedence)
    (hnot : e.isNot = false) : 4 ≤ e.rank := by
  rw [Expr.rank_eq_of_atomPrecedence_le h hnot]
  decide

/-- What binds at least like a comparison is no `AND` and no `OR`. -/
theorem Expr.three_le_rank (h : 3 ≤ e.precedence) : 3 ≤ e.rank := by
  cases hnot : e.isNot with
  | true => exact (Expr.rank_of_isNot hnot).2.ge
  | false =>
    have := Expr.rank_precedence hnot
    omega

end

/-! ## The text is read -/

section

variable {ts us : List Token} {t l r : Reading}

/-- An operand stands in parentheses or binds tightly enough. -/
theorem Phrase.operandTokens {q : ℕ} (h : Phrase q ts t) (hq : 1 ≤ q) {e : Expr} {floor r : ℕ}
    (hr7 : r ≤ 7) (hr : floor ≤ e.precedence → r ≤ q) : Phrase r (e.operandTokens floor ts) t := by
  unfold Expr.operandTokens
  split
  · exact (h.of_le hq).parens.of_le (Nat.le_succ_of_le hr7)
  · exact h.of_le (hr (by omega))

/-- **The tokens of an expression are read as the expression regrouped.** -/
theorem Expr.Printed.exists_phrase {e : Expr} {s : Reading} (h : e.Printed ts s)
    (apart : e.NotsApart) : ∃ t, Phrase e.rank ts t ∧ Reading.Regrouped s t := by
  induction h with
  | column label name => exact ⟨_, (Phrase.atom rfl).looser, .column _ _⟩
  | literal h => exact ⟨_, h, .constant _⟩
  | @binary op left right ts us sl sr _ _ ihl ihr =>
    obtain ⟨l, hl, regroupedl⟩ := ihl (apart.part (by simp [parts]))
    obtain ⟨r, hr, regroupedr⟩ := ihr (apart.part (by simp [parts]))
    -- `AND` and `OR` bind more loosely than `NOT`, and the other operators have none beside them.
    have hnot : op.rank ≤ 2 ∨ (left.isNot = false ∧ right.isNot = false) := by
      by_cases hrank : op.rank ≤ 2
      · exact .inl hrank
      · exact .inr (by simpa [tightOperands, hrank] using apart.own)
    have hleft : Phrase op.rank (left.operandTokens op.precedence ts) l :=
      hl.operandTokens (rank_pos _) (Nat.le_succ_of_le op.rank_le_six) fun hle =>
        BinaryOp.rank_le_of_precedence_le hle (hnot.imp id And.left)
    cases hop : op.regroups with
    | true =>
      have hright : Phrase op.rank (right.operandTokens op.rightFloor us) r :=
        hr.operandTokens (rank_pos _) (Nat.le_succ_of_le op.rank_le_six) fun hle =>
          BinaryOp.rank_le_of_precedence_le (by rwa [op.rightFloor_of_regroups hop] at hle)
            (hnot.imp id And.right)
      obtain ⟨t, hphrase, hgraft⟩ := hleft.exists_grafts hop hright
      exact ⟨t, hphrase, .binary regroupedl regroupedr hgraft⟩
    | false =>
      obtain ⟨hfloor, hrank⟩ := op.rightFloor_of_not_regroups hop
      have hright : Phrase (op.rank + 1) (right.operandTokens op.rightFloor us) r :=
        hr.operandTokens (rank_pos _) (Nat.succ_le_succ op.rank_le_six) fun hle =>
          BinaryOp.rank_lt_of_precedence_lt (by rwa [hfloor] at hle) hrank
            (hnot.resolve_left hrank).2
      exact ⟨_, hleft.binary hright, .binary regroupedl regroupedr (.here _)⟩
  | @minus operand _ _ _ ih =>
    obtain ⟨t, hphrase, regrouped⟩ := ih (apart.part (by simp [parts]))
    have hnot := apart.own operand (by simp [tightOperands])
    exact ⟨_, (hphrase.operandTokens (rank_pos _) le_rfl fun hle =>
      (rank_eq_of_atomPrecedence_le hle hnot).ge).minus, regrouped.negate⟩
  | @minusParens operand ts _ _ ih =>
    obtain ⟨t, hphrase, regrouped⟩ := ih (apart.part (by simp [parts]))
    have inner : Phrase 1 (operand.operandTokens atomPrecedence ts) t :=
      hphrase.operandTokens (rank_pos _) (by decide) fun _ => rank_pos _
    exact ⟨_, inner.parens.looser.minus, regrouped.negate⟩
  | not _ ih =>
    obtain ⟨t, hphrase, regrouped⟩ := ih (apart.part (by simp [parts]))
    exact ⟨_, (hphrase.operandTokens (rank_pos _) (by decide) fun hle =>
      three_le_rank (le_trans (by decide) hle)).not, .negation regrouped⟩
  | @isNull operand _ _ _ negated ih =>
    obtain ⟨t, hphrase, regrouped⟩ := ih (apart.part (by simp [parts]))
    have hnot := apart.own operand (by simp [tightOperands])
    exact ⟨_, (hphrase.operandTokens (rank_pos _) (by decide) fun hle =>
      four_le_rank_of_atomPrecedence_le hle hnot).isNull, .isNull regrouped negated⟩
  | @inQuery operand _ _ _ _ _ hquery ih =>
    obtain ⟨t, hphrase, regrouped⟩ := ih (apart.part (by simp [parts]))
    have hnot := apart.own operand (by simp [tightOperands])
    exact ⟨_, (hphrase.operandTokens (rank_pos _) (by decide) fun hle =>
      four_le_rank_of_atomPrecedence_le hle hnot).inQuery hquery, .inQuery regrouped _⟩

/-- **The text of an expression is read as the expression regrouped.** -/
theorem Expr.exists_readsAs {d : Dialect} {indent : ℕ} {text : String} {e : Expr}
    (legible : e.Legible d) (apart : e.NotsApart) {s : Reading} (hs : e.tree? d indent = some s)
    (h : e.render d indent = .ok text) : ∃ t, ReadsAs text t ∧ Reading.Regrouped s t := by
  obtain ⟨ts, hspells, -, printed⟩ := exists_printed legible hs h
  obtain ⟨t, hphrase, regrouped⟩ := printed.exists_phrase apart
  refine ⟨t, ?_, regrouped⟩
  rw [ReadsAs, hspells.ofText_eq]
  exact hphrase.of_le e.rank_pos

end

end HiveQuery
