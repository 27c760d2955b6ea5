import HiveQuery.Proofs.Nesting
/-!
# The tokens of an expression

The text of an expression that is made of columns, literals, operators, null tests and `IN`, as the
tokens that it spells (`Expr.exists_printed`). What can be said of such a text is said of its tokens
and proved by induction on `Expr.Printed`: where the parentheses stand is all that is left of the
text.
-/

namespace HiveQuery

open QueryText

namespace Expr

/-- The expression that a reader should find in the text of one: the same tree, if it is made of
columns, literals, operators, null tests and `IN`. -/
def tree? (d : Dialect) (indent : ℕ) : Expr → Option Reading
  | column label name => some (.column label name)
  | literal value => some (.constant (.ofLiteral value))
  | binary op left right => do
    let l ← left.tree? d indent
    let r ← right.tree? d indent
    return .binary op l r
  | unary .neg operand => (operand.tree? d indent).map Reading.negate
  | unary .not operand => (operand.tree? d indent).map Reading.negation
  | isNull operand negated => (operand.tree? d indent).map (Reading.isNull · negated)
  | inQuery operand query =>
    match query.render d (indent + indentStep) .expression with
    | .ok text => (operand.tree? d indent).map (Reading.inQuery · (Token.ofText text))
    | .error _ => none
  | _ => none

/-- The tokens of an operand, in parentheses if it binds more loosely than the floor. -/
def operandTokens (e : Expr) (floor : ℕ) (ts : List Token) : List Token :=
  if e.precedence < floor then .opening :: (ts ++ [.closing]) else ts

/-- The tokens of the text of an expression, and the tree of the expression. -/
inductive Printed : Expr → List Token → Reading → Prop
  | column (label name : String) :
      Printed (.column label name) [.column label name] (.column label name)
  | literal {value : Literal} {ts : List Token}
      (h : Phrase 7 ts (.constant (.ofLiteral value))) :
      Printed (.literal value) ts (.constant (.ofLiteral value))
  | binary {op : BinaryOp} {left right : Expr} {ts us : List Token} {l r : Reading}
      (hl : Printed left ts l) (hr : Printed right us r) :
      Printed (.binary op left right)
        (left.operandTokens op.precedence ts ++ op.token :: right.operandTokens op.rightFloor us)
        (.binary op l r)
  | minus {e : Expr} {ts : List Token} {t : Reading} (h : Printed e ts t) :
      Printed (.unary .neg e) (.mark "-" :: e.operandTokens atomPrecedence ts) t.negate
  /-- A second minus stands apart from the first one. -/
  | minusParens {e : Expr} {ts : List Token} {t : Reading} (h : Printed e ts t) :
      Printed (.unary .neg e)
        (.mark "-" :: .opening :: (e.operandTokens atomPrecedence ts ++ [.closing])) t.negate
  | not {e : Expr} {ts : List Token} {t : Reading} (h : Printed e ts t) :
      Printed (.unary .not e) (.word "NOT" :: e.operandTokens atomPrecedence ts) (.negation t)
  | isNull {e : Expr} {ts : List Token} {t : Reading} (h : Printed e ts t) (negated : Bool) :
      Printed (.isNull e negated) (e.operandTokens atomPrecedence ts ++ Token.nullTest negated)
        (.isNull t negated)
  | inQuery {e : Expr} {query : Select} {ts us : List Token} {t : Reading} (h : Printed e ts t)
      (hquery : Token.depth? 0 us = some 0) :
      Printed (.inQuery e query)
        (e.operandTokens atomPrecedence ts ++ .word "IN" :: .opening :: (us ++ [.closing]))
        (.inQuery t us)

end Expr

section

variable {d : Dialect} {indent : ℕ} {text : String} {ts : List Token}

/-- The parentheses of an operand are tokens of their own. -/
theorem Spells.operandText (h : Spells text.toList ts) (e : Expr) (floor : ℕ) :
    Spells (e.operandText floor text).toList (e.operandTokens floor ts) := by
  unfold Expr.operandText Expr.operandTokens
  split
  · simpa using h.parens
  · exact h

theorem operandText_ne_nil (h : text.toList ≠ []) (e : Expr) (floor : ℕ) :
    (e.operandText floor text).toList ≠ [] := by
  unfold Expr.operandText
  split
  · simp
  · exact h

/-- The words of a null test are tokens of their own. -/
theorem Spells.isNull (h : Spells text.toList ts) (negated : Bool) :
    Spells (text ++ if negated then " IS NOT NULL" else " IS NULL").toList
      (ts ++ Token.nullTest negated) := by
  have words : Spells (if negated then "IS NOT NULL" else "IS NULL").toList
      (Token.nullTest negated) := by
    cases negated <;> exact .of_scan (by decide)
  have whole := h.spaced words
  cases negated <;> simpa using whole

/-- Blanks before a text are no tokens. -/
theorem Spells.indented {cs : List Char} (h : Spells cs ts) (count : ℕ) :
    Spells ((blanks count).toList ++ cs) ts := by
  rw [blanks, String.toList_ofList]
  induction count with
  | zero => exact h
  | succ count ih => exact ih.space

/-- The text of a subquery is balanced, so it ends at its own parenthesis. -/
theorem Spells.inQuery (h : Spells text.toList ts) {query : String} (hquery : Closed query)
    (indent : ℕ) :
    Token.depth? 0 (Token.ofText query) = some 0 ∧
      Spells (text ++ " IN " ++ enclosed indent query).toList
        (ts ++ .word "IN" :: .opening :: (Token.ofText query ++ [.closing])) := by
  obtain ⟨us, hus, hdepth⟩ := hquery.exists_spells
  have word : Spells "IN".toList [.word "IN"] := .of_scan (by decide)
  have inner : Spells (query.toList ++ '\n' :: ((blanks indent).toList ++ [')']))
      (us ++ [.closing]) :=
    hus.append rfl (Spells.nil.closing.indented indent).newline
  rw [hus.ofText_eq]
  refine ⟨hdepth, ?_⟩
  have whole := h.spaced (word.spaced inner.newline.opening)
  simpa [enclosed] using whole

/-- **The text of an expression spells its tokens.** -/
theorem Expr.exists_printed {e : Expr} (legible : e.Legible d) {s : Reading}
    (hs : e.tree? d indent = some s) (h : e.render d indent = .ok text) :
    ∃ ts, Spells text.toList ts ∧ text.toList ≠ [] ∧ e.Printed ts s := by
  induction e using Expr.parts_induction generalizing text s with
  | step e ih =>
    have part : ∀ p ∈ e.parts, ∀ {s text}, p.tree? d indent = some s →
        p.render d indent = .ok text →
        ∃ ts, Spells text.toList ts ∧ text.toList ≠ [] ∧ p.Printed ts s :=
      fun p hp _ _ => ih p hp (legible.part hp)
    have own := legible.own
    clear ih
    cases e with
    | column label name =>
      obtain rfl := Option.some.inj hs
      obtain rfl := Except.ok.inj h
      exact ⟨_, own.1.spells_column own.2, by simp, .column _ _⟩
    | literal value =>
      obtain rfl := Option.some.inj hs
      obtain ⟨ts, hspells, hne, -, hphrase⟩ := Literal.exists_phrase h
      exact ⟨ts, hspells, hne, .literal hphrase⟩
    | binary op left right =>
      obtain ⟨sl, hsl, hs⟩ := Option.bind_eq_some_iff.1 hs
      obtain ⟨sr, hsr, hs⟩ := Option.bind_eq_some_iff.1 hs
      obtain rfl := Option.some.inj hs
      obtain ⟨l, hl, h⟩ := exists_of_bind_eq_ok h
      obtain ⟨r, hr, h⟩ := exists_of_bind_eq_ok h
      obtain rfl := Except.ok.inj h
      obtain ⟨ts, hts, hnel, printedl⟩ := part left (by simp [parts]) hsl hl
      obtain ⟨us, hus, -, printedr⟩ := part right (by simp [parts]) hsr hr
      refine ⟨_, ?_, by simp [operandText_ne_nil hnel], .binary printedl printedr⟩
      have whole := (hts.operandText left op.precedence).spaced
        (op.spells_symbol.spaced (hus.operandText right op.rightFloor))
      simpa using whole
    | unary op operand =>
      obtain ⟨o, ho, h⟩ := exists_of_bind_eq_ok h
      obtain rfl := Except.ok.inj h
      cases op with
      | neg =>
        obtain ⟨so, hso, rfl⟩ := Option.map_eq_some_iff.1 hs
        obtain ⟨ts, hts, hne, printed⟩ := part operand (by simp [parts]) hso ho
        have hoperand := hts.operandText operand atomPrecedence
        simp only [UnaryOp.apply, beq_iff_eq]
        split_ifs with hhead
        · -- Two minus signs would begin a comment.
          refine ⟨_, ?_, by simp, .minusParens printed⟩
          simpa using hoperand.parens.minus (by simp) (by simp)
        · refine ⟨_, ?_, by simp, .minus printed⟩
          simpa using hoperand.minus (operandText_ne_nil hne _ _) hhead
      | not =>
        obtain ⟨so, hso, rfl⟩ := Option.map_eq_some_iff.1 hs
        obtain ⟨ts, hts, -, printed⟩ := part operand (by simp [parts]) hso ho
        have word : Spells "NOT".toList [.word "NOT"] := .of_scan (by decide)
        refine ⟨_, ?_, by simp [UnaryOp.apply], .not printed⟩
        simpa [UnaryOp.apply] using word.spaced (hts.operandText operand atomPrecedence)
    | isNull operand negated =>
      obtain ⟨o, ho, h⟩ := exists_of_bind_eq_ok h
      obtain rfl := Except.ok.inj h
      obtain ⟨so, hso, rfl⟩ := Option.map_eq_some_iff.1 hs
      obtain ⟨ts, hts, hne, printed⟩ := part operand (by simp [parts]) hso ho
      exact ⟨_, (hts.operandText operand atomPrecedence).isNull negated,
        by simp [operandText_ne_nil hne], .isNull printed negated⟩
    | inQuery operand query =>
      obtain ⟨o, ho, h⟩ := exists_of_bind_eq_ok h
      obtain ⟨q, hq, h⟩ := exists_of_bind_eq_ok h
      obtain rfl := Except.ok.inj h
      rw [tree?, hq] at hs
      obtain ⟨so, hso, rfl⟩ := Option.map_eq_some_iff.1 hs
      obtain ⟨ts, hts, hne, printed⟩ := part operand (by simp [parts]) hso ho
      have closed : Closed q := Select.closed_of_render (fun n hn => legible n (by
        rw [nodes_eq]
        simp [query?, hn])) hq
      obtain ⟨hdepth, hspells⟩ := (hts.operandText operand atomPrecedence).inQuery closed indent
      exact ⟨_, hspells, by simp [operandText_ne_nil hne], .inQuery printed hdepth⟩
    | _ => cases hs

end

end HiveQuery
