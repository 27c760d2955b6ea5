import HiveQuery.Proofs.Regrouping
/-!
# What the text of a predicate says

A `NOT` binds more loosely than the comparisons, and yet its text never stands in parentheses. As
the first operand of a comparison, of `LIKE`, of a null test or of `IN` it is read as the negation
of all of that, and as the second operand of a comparison it cannot be read at all. Everywhere else
the text of a predicate says what the predicate says, up to the grouping of `AND` with `AND` and of
`OR` with `OR` (`Expr.readsAs_alike_iff`).

That a text with such a `NOT` says something else is shown by counting what stands under the
negations of an expression (`Reading.negatedSize`), which the grouping leaves as it is and a
negation that reaches further makes larger.
-/

namespace HiveQuery

open QueryText

/-! ## Predicates -/

def BinaryOp.isPredicate : BinaryOp → Bool
  | and | or | eq | ne | lt | le | gt | ge | like => true
  | _ => false

/-- The operators of predicates are the two that regroup, and those that compare. -/
theorem BinaryOp.isPredicate_cases {op : BinaryOp} (h : op.isPredicate) :
    (op.rank ≤ 2 ∧ op.regroups) ∨ (op.rank = 4 ∧ op.regroups = false) := by
  cases op <;> first | exact .inl (by decide) | exact .inr (by decide) | cases h

/-- Whether an expression is built from columns, literals, `AND`, `OR`, `NOT`, the comparisons,
`LIKE`, null tests and `IN`. -/
def Expr.isPredicate : Expr → Bool
  | column .. | literal _ => true
  | binary op left right => op.isPredicate && left.isPredicate && right.isPredicate
  | unary .not operand | isNull operand _ | inQuery operand _ => operand.isPredicate
  | _ => false

namespace Reading

/-- The same expression up to the grouping of `AND` with `AND` and of `OR` with `OR`. -/
inductive Alike : Reading → Reading → Prop
  | refl (t : Reading) : Alike t t
  | symm {s t : Reading} (h : Alike s t) : Alike t s
  | trans {s t u : Reading} (h : Alike s t) (h' : Alike t u) : Alike s u
  | assoc {op : BinaryOp} (hop : op = .and ∨ op = .or) (x y z : Reading) :
      Alike (.binary op (.binary op x y) z) (.binary op x (.binary op y z))
  | binary (op : BinaryOp) {l l' r r' : Reading} (hl : Alike l l') (hr : Alike r r') :
      Alike (.binary op l r) (.binary op l' r')
  | negation {s t : Reading} (h : Alike s t) : Alike (.negation s) (.negation t)
  | isNull {s t : Reading} (h : Alike s t) (negated : Bool) :
      Alike (.isNull s negated) (.isNull t negated)
  | inQuery {s t : Reading} (h : Alike s t) (query : List Token) :
      Alike (.inQuery s query) (.inQuery t query)

/-- The tree of a predicate. -/
def isPredicate : Reading → Bool
  | column .. | constant _ => true
  | binary op left right => op.isPredicate && left.isPredicate && right.isPredicate
  | negation operand | isNull operand _ | inQuery operand _ => operand.isPredicate
  | negative _ => false

variable {s t l r : Reading}

/-- Grafting `AND` onto `AND`, or `OR` onto `OR`, changes the grouping alone. -/
theorem Grafts.alike {op : BinaryOp} (h : Grafts op l r t) (hop : op.isPredicate) :
    Alike (.binary op l r) t := by
  induction h with
  | here => exact .refl _
  | @left op' x y t hregroups hrank _ ih =>
    have hlogical : op = .and ∨ op = .or := by
      cases op <;> simp_all [BinaryOp.regroups, BinaryOp.isPredicate]
    obtain rfl : op' = op := by
      rcases hlogical with rfl | rfl <;> cases op' <;> first | rfl | cases hrank
    exact (Alike.assoc hlogical l x y).symm.trans (.binary op' ih (.refl y))

/-- Regrouping a predicate changes no more than the grouping of `AND` and of `OR`. -/
theorem Regrouped.alike (h : Regrouped s t) (predicate : s.isPredicate) : Alike s t := by
  induction h with
  | column | constant => exact .refl _
  | binary _ _ hgraft ihl ihr =>
    simp only [isPredicate, Bool.and_eq_true] at predicate
    exact (Alike.binary _ (ihl predicate.1.2) (ihr predicate.2)).trans
      (hgraft.alike predicate.1.1)
  | negative => cases predicate
  | negation _ ih => exact .negation (ih predicate)
  | isNull _ negated ih => exact .isNull (ih predicate) negated
  | inQuery _ query ih => exact .inQuery (ih predicate) query

/-! ## What stands under negations -/

/-- The number of the nodes of an expression. -/
def size : Reading → ℕ
  | column .. | constant _ => 1
  | binary _ left right => left.size + right.size + 1
  | negative operand | negation operand | isNull operand _ | inQuery operand _ => operand.size + 1

/-- The number of the nodes that stand under negations, each counted once for every negation. -/
def negatedSize : Reading → ℕ
  | column .. | constant _ => 0
  | binary _ left right => left.negatedSize + right.negatedSize
  | negation operand => operand.size + operand.negatedSize
  | negative operand | isNull operand _ | inQuery operand _ => operand.negatedSize

/-- Neither measure depends on the grouping. -/
theorem Alike.sizes_eq (h : Alike s t) : s.size = t.size ∧ s.negatedSize = t.negatedSize := by
  induction h with
  | refl => exact ⟨rfl, rfl⟩
  | symm _ ih => exact ⟨ih.1.symm, ih.2.symm⟩
  | trans _ _ ih ih' => exact ⟨ih.1.trans ih'.1, ih.2.trans ih'.2⟩
  | assoc => exact ⟨by simp only [size]; omega, by simp only [negatedSize]; omega⟩
  | binary _ _ _ ihl ihr => simp only [size, negatedSize, ihl, ihr, and_self]
  | negation _ ih | isNull _ _ ih | inQuery _ _ ih => simp only [size, negatedSize, ih, and_self]

/-- A graft has the nodes of both operands and one more, and the same ones stand under negations. -/
theorem Grafts.sizes_eq {op : BinaryOp} (h : Grafts op l r t) :
    t.size = l.size + r.size + 1 ∧ t.negatedSize = l.negatedSize + r.negatedSize := by
  induction h with
  | here => exact ⟨rfl, rfl⟩
  | left _ _ _ ih =>
    simp only [size, negatedSize, ih]
    omega

/-- The second expression is as large as the first one and has no less under negations. It has as
much only if the condition holds. -/
structure Covers (s t : Reading) (exact : Prop) : Prop where
  size_eq : t.size = s.size
  negatedSize_le : s.negatedSize ≤ t.negatedSize
  exact : t.negatedSize ≤ s.negatedSize → exact

theorem Covers.imp {P Q : Prop} (h : s.Covers t P) (himp : P → Q) : s.Covers t Q :=
  ⟨h.size_eq, h.negatedSize_le, himp ∘ h.exact⟩

/-- A negation adds as much to both sides. -/
theorem Covers.negation {P : Prop} (h : s.Covers t P) : (negation s).Covers (negation t) P := by
  obtain ⟨hsize, hle, hexact⟩ := h
  refine ⟨?_, ?_, fun hle' => hexact ?_⟩ <;> simp only [size, negatedSize] at * <;> omega

/-- What an operator covers, its operands cover together. -/
theorem Covers.grafts {op : BinaryOp} {l' r' : Reading} {P Q : Prop} (hl : l.Covers l' P)
    (hr : r.Covers r' Q) (h : Grafts op l' r' t) : (binary op l r).Covers t (P ∧ Q) := by
  obtain ⟨hsizel, hlel, hexactl⟩ := hl
  obtain ⟨hsizer, hler, hexactr⟩ := hr
  obtain ⟨hsize, hnegated⟩ := h.sizes_eq
  refine ⟨?_, ?_, fun hle => ⟨hexactl ?_, hexactr ?_⟩⟩ <;>
    simp only [size, negatedSize] at * <;> omega

/-- A right operand is replaced by its tree. -/
theorem Covers.right {op : BinaryOp} {r' : Reading} {P Q : Prop}
    (h : (binary op l r').Covers t P) (hr : r.Covers r' Q) :
    (binary op l r).Covers t (P ∧ Q) := by
  obtain ⟨hsize, hle, hexact⟩ := h
  obtain ⟨hsizer, hler, hexactr⟩ := hr
  refine ⟨?_, ?_, fun hle' => ⟨hexact ?_, hexactr ?_⟩⟩ <;>
    simp only [size, negatedSize] at * <;> omega

end Reading

/-! ## A negation reaches further -/

section

variable {ts us : List Token} {t : Reading} {f : Reading → Reading} {n m : ℕ}

/-- The tokens go on an expression that binds as tightly as a comparison, with so many more nodes of
which so many are counted under negations. -/
structure Extends (us : List Token) (f : Reading → Reading) (n m : ℕ) : Prop where
  phrase : ∀ {ts t}, Phrase 4 ts t → Phrase 4 (ts ++ us) (f t)
  size_eq : ∀ t, (f t).size = t.size + n + 1
  negatedSize_eq : ∀ t, (f t).negatedSize = t.negatedSize + m

/-- A comparison with its right operand extends the left one. -/
theorem Extends.binary {op : BinaryOp} (hop : op.rank = 4) (h : Phrase 5 us t) :
    Extends (op.token :: us) (.binary op · t) t.size t.negatedSize where
  phrase hl := by
    rw [← hop] at hl ⊢
    exact hl.binary (by rwa [hop])
  size_eq _ := rfl
  negatedSize_eq _ := rfl

/-- The words of a null test extend their operand. -/
theorem Extends.isNull (negated : Bool) :
    Extends (Token.nullTest negated) (.isNull · negated) 0 0 :=
  ⟨.isNull, fun _ => rfl, fun _ => rfl⟩

/-- The word `IN` with its subquery extends its operand, and the subquery counts for nothing. -/
theorem Extends.inQuery (h : Token.depth? 0 us = some 0) :
    Extends (.word "IN" :: .opening :: (us ++ [.closing])) (.inQuery · us) 0 0 :=
  ⟨fun ht => ht.inQuery h, fun _ => rfl, fun _ => rfl⟩

/-- What binds as tightly as a comparison does not begin with `NOT`. -/
theorem Phrase.head?_ne_not {r : ℕ} (h : Phrase r ts t) (hr : 4 ≤ r) :
    ts.head? ≠ some (.word "NOT") := by
  induction h with
  | atom h =>
    intro head
    cases head
    cases h
  | not => omega
  | @binary op ts us _ _ _ _ ih _ =>
    cases ts with
    | nil => cases op <;> simp [BinaryOp.token]
    | cons token ts => exact ih hr
  | @isNull ts t negated _ ih =>
    cases ts with
    | nil => cases negated <;> simp [Token.nullTest]
    | cons token ts => exact ih hr
  | @inQuery ts query t _ _ ih =>
    cases ts with
    | nil => simp
    | cons token ts => exact ih hr
  | looser _ ih => exact ih (Nat.le_succ_of_le hr)
  | _ => simp

/-- **A negation reaches over what follows it.** The tokens that go on an expression go on what its
negations negate, so more stands under negations if there is one. -/
theorem Extends.exists_covers (h : Extends us f n m) (ht : Phrase 3 ts t) :
    ∃ t', Phrase 3 (ts ++ us) t' ∧ (f t).Covers t' (ts.head? ≠ some (.word "NOT")) := by
  generalize hrank : 3 = rank at ht
  induction ht with
  | not _ ih =>
    obtain ⟨t', ht', hsize, hnegated, -⟩ := ih rfl
    have hsize' := h.size_eq
    have hnegated' := h.negatedSize_eq
    refine ⟨_, ht'.not, ?_, ?_, fun hle => ?_⟩ <;>
      simp only [Reading.size, Reading.negatedSize, hsize', hnegated'] at * <;> omega
  | looser ht _ =>
    subst hrank
    exact ⟨_, (h.phrase ht).looser, rfl, le_rfl, fun _ => ht.head?_ne_not le_rfl⟩
  | binary => exact absurd hrank.symm (BinaryOp.rank_ne_not _)
  | _ => omega

/-- What is read instead of the tree goes on as the tree does. -/
theorem Extends.covers {s t' : Reading} {P Q : Prop} (h : Extends us f n m) (hs : s.Covers t P)
    (ht : (f t).Covers t' Q) : (f s).Covers t' (P ∧ Q) := by
  obtain ⟨hsize, hle, hexact⟩ := hs
  obtain ⟨hsize', hle', hexact'⟩ := ht
  have hsizes := h.size_eq
  have hnegated := h.negatedSize_eq
  refine ⟨?_, ?_, fun hle'' => ⟨hexact ?_, hexact' ?_⟩⟩ <;> simp only [hsizes, hnegated] at * <;>
    omega

end

namespace Expr

variable {e : Expr} {ts : List Token} {s : Reading}

/-- No `NOT` stands as the second operand of a comparison. -/
def RightsApart (e : Expr) : Prop :=
  ∀ op left right, binary op left right ∈ e.level → op.rank ≤ 2 ∨ right.isNot = false

/-- What is asked of the right operands of an expression is asked of those of its parts. -/
theorem RightsApart.part {p : Expr} (h : e.RightsApart) (hp : p ∈ e.parts) : p.RightsApart :=
  fun op left right hmem => h op left right (mem_level.2 (.inr ⟨p, hp, hmem⟩))

/-- No right operand is a `NOT` where it cannot be, if none of the expression itself is and none of
its parts. -/
theorem RightsApart.of_parts
    (own : ∀ op left right, e = binary op left right → op.rank ≤ 2 ∨ right.isNot = false)
    (parts : ∀ p ∈ e.parts, p.RightsApart) : e.RightsApart := by
  intro op left right hmem
  rcases mem_level.1 hmem with heq | ⟨p, hp, hmem⟩
  · exact own op left right heq.symm
  · exact parts p hp op left right hmem

/-- The text of a `NOT` begins with the word. -/
theorem Printed.head?_of_isNot (h : e.Printed ts s) (hnot : e.isNot) :
    ts.head? = some (.word "NOT") := by
  cases h with
  | not => rfl
  | _ => cases hnot

/-- A `NOT` is never put in parentheses, whatever operator stands around it. -/
theorem operandTokens_of_isNot (hnot : e.isNot) {floor : ℕ} (hfloor : floor ≤ atomPrecedence) :
    e.operandTokens floor ts = ts := by
  have := (rank_of_isNot hnot).1
  unfold atomPrecedence at hfloor
  rw [operandTokens, if_neg (by omega)]

/-- The parts of a predicate are predicates. -/
theorem isPredicate_part {p : Expr} (h : e.isPredicate) (hp : p ∈ e.parts) : p.isPredicate := by
  cases e with
  | binary op left right =>
    simp only [isPredicate, Bool.and_eq_true] at h
    simp only [parts, List.mem_cons, List.not_mem_nil, or_false] at hp
    rcases hp with rfl | rfl
    · exact h.1.2
    · exact h.2
  | unary op operand =>
    cases op with
    | neg => cases h
    | not => rwa [List.mem_singleton.1 hp]
  | isNull | inQuery => rwa [List.mem_singleton.1 hp]
  | column | literal => cases hp
  | _ => cases h

/-- The rank of the text of a predicate whatever its negations do: a comparison that begins with
`NOT` is a negation. -/
def readRank (e : Expr) : ℕ :=
  if e.rank = 4 then 3 else e.rank

/-- Nothing is read as binding more loosely than `OR`. -/
theorem one_le_readRank (e : Expr) : 1 ≤ e.readRank := by
  unfold readRank
  split
  · decide
  · exact e.rank_pos

/-- Up to the rank of `NOT`, a text binds as tightly as its expression, whatever its negations
do. -/
theorem le_readRank {r : ℕ} (hr : r ≤ 3) (h : r ≤ e.rank) : r ≤ e.readRank := by
  unfold readRank
  split <;> omega

/-- A predicate that binds tighter than a comparison is an atom. -/
theorem rank_of_isPredicate (h : e.isPredicate) (hrank : 5 ≤ e.rank) : e.rank = 7 := by
  cases e with
  | binary op left right => cases op <;> first | cases h | (simp [rank, BinaryOp.rank] at hrank)
  | unary op operand => cases op <;> first | rfl | (simp [rank] at hrank)
  | _ => first | rfl | (simp [rank] at hrank)

/-- An operand that stands first, and what goes on it. -/
theorem Printed.exists_extended {t : Reading} {us : List Token} {f : Reading → Reading} {n m : ℕ}
    {P : Prop} (printed : e.Printed ts s) (ht : Phrase e.readRank ts t) (hcovers : s.Covers t P)
    {floor : ℕ} (hfloor : 3 ≤ floor ∧ floor ≤ atomPrecedence) (hext : Extends us f n m) :
    ∃ t', Phrase 3 (e.operandTokens floor ts ++ us) t' ∧
      (f s).Covers t' (P ∧ e.isNot = false) := by
  have operand : Phrase 3 (e.operandTokens floor ts) t :=
    ht.operandTokens e.one_le_readRank (by decide) fun hle =>
      le_readRank le_rfl (three_le_rank (hfloor.1.trans hle))
  obtain ⟨t', ht', hcovers'⟩ := hext.exists_covers operand
  refine ⟨t', ht', (hext.covers hcovers hcovers').imp (And.imp_right fun hhead => ?_)⟩
  by_contra hnot
  rw [Bool.not_eq_false] at hnot
  rw [operandTokens_of_isNot hnot hfloor.2] at hhead
  exact hhead (printed.head?_of_isNot hnot)

/-- **No less stands under negations in what is read**, and no more only if no `NOT` is an operand
of anything but `AND`, `OR` and `NOT`. -/
theorem Printed.exists_covers (h : e.Printed ts s) (predicate : e.isPredicate)
    (rights : e.RightsApart) : ∃ t, Phrase e.readRank ts t ∧ s.Covers t e.NotsApart := by
  induction h with
  | column label name =>
    refine ⟨_, (Phrase.atom rfl).looser, rfl, le_rfl, fun _ => .of_parts ?_ ?_⟩ <;>
      simp [tightOperands, parts]
  | literal h =>
    refine ⟨_, h, rfl, le_rfl, fun _ => .of_parts ?_ ?_⟩ <;> simp [tightOperands, parts]
  | @binary op left right ts us sl sr printedl _ ihl ihr =>
    have predicater : right.isPredicate := isPredicate_part predicate (by simp [parts])
    obtain ⟨l, hl, coversl⟩ := ihl (isPredicate_part predicate (by simp [parts]))
      (rights.part (by simp [parts]))
    obtain ⟨r, hr, coversr⟩ := ihr predicater (rights.part (by simp [parts]))
    rcases op.isPredicate_cases (by simp_all [isPredicate]) with ⟨hrank, hop⟩ | ⟨hrank, hop⟩
    · -- `AND` or `OR`: a negation on either side ends where the operator stands.
      have hleft : Phrase op.rank (left.operandTokens op.precedence ts) l :=
        hl.operandTokens left.one_le_readRank (Nat.le_succ_of_le op.rank_le_six) fun hle =>
          le_readRank (by omega) (BinaryOp.rank_le_of_precedence_le hle (.inl hrank))
      have hright : Phrase op.rank (right.operandTokens op.rightFloor us) r :=
        hr.operandTokens right.one_le_readRank (Nat.le_succ_of_le op.rank_le_six) fun hle =>
          le_readRank (by omega) (BinaryOp.rank_le_of_precedence_le
            (by rwa [op.rightFloor_of_regroups hop] at hle) (.inl hrank))
      obtain ⟨t, ht, hgraft⟩ := hleft.exists_grafts hop hright
      refine ⟨t, ?_, (coversl.grafts coversr hgraft).imp fun apart => .of_parts ?_ ?_⟩
      · rwa [readRank, rank, if_neg (by omega)]
      · simp [tightOperands, hrank]
      · simpa [parts] using apart
    · -- A comparison goes on its left operand, and a negation there reaches over all of it.
      have hnot : right.isNot = false :=
        (rights op left right (mem_level.2 (.inl rfl))).resolve_left (by omega)
      obtain ⟨hfloor, htight⟩ := op.rightFloor_of_not_regroups hop
      have hright : Phrase 5 (right.operandTokens op.rightFloor us) r :=
        hr.operandTokens right.one_le_readRank (by decide) fun hle => by
          have := BinaryOp.rank_lt_of_precedence_lt (by rwa [hfloor] at hle) htight hnot
          have := rank_of_isPredicate predicater (by omega)
          rw [readRank, if_neg (by omega)]
          omega
      have hprecedence : 3 ≤ op.precedence ∧ op.precedence ≤ atomPrecedence := by
        have := op.rank_precedence
        unfold atomPrecedence
        omega
      obtain ⟨t, ht, hcovers⟩ :=
        printedl.exists_extended hl coversl hprecedence (.binary hrank hright)
      refine ⟨t, ?_, (hcovers.right coversr).imp fun apart => .of_parts ?_ ?_⟩
      · rwa [readRank, rank, if_pos hrank]
      · simp [tightOperands, htight, apart, hnot]
      · simp [parts, apart]
  | @not operand ts s _ ih =>
    obtain ⟨t, ht, hcovers⟩ := ih predicate (rights.part (by simp [parts]))
    have inner : Phrase 3 (operand.operandTokens atomPrecedence ts) t :=
      ht.operandTokens operand.one_le_readRank (by decide) fun hle =>
        le_readRank le_rfl (three_le_rank (le_trans (by decide) hle))
    refine ⟨_, inner.not, hcovers.negation.imp fun apart => .of_parts ?_ ?_⟩
    · simp [tightOperands]
    · simpa [parts] using apart
  | isNull printed negated ih =>
    obtain ⟨t, ht, hcovers⟩ := ih predicate (rights.part (by simp [parts]))
    obtain ⟨t', ht', hcovers'⟩ := printed.exists_extended ht hcovers
      ⟨by decide, le_rfl⟩ (.isNull negated)
    refine ⟨t', ht', hcovers'.imp fun apart => .of_parts ?_ ?_⟩
    · simp [tightOperands, apart]
    · simp [parts, apart]
  | inQuery printed hquery ih =>
    obtain ⟨t, ht, hcovers⟩ := ih predicate (rights.part (by simp [parts]))
    obtain ⟨t', ht', hcovers'⟩ := printed.exists_extended ht hcovers
      ⟨by decide, le_rfl⟩ (.inQuery hquery)
    refine ⟨t', ht', hcovers'.imp fun apart => .of_parts ?_ ?_⟩
    · simp [tightOperands, apart]
    · simp [parts, apart]
  | minus | minusParens => cases predicate

end Expr

/-! ## A negation that cannot be read -/

namespace Reader

variable {ts us : List Token} {P Q : Prop}

/-- A reader that passes over the tokens stands at an expression, and the condition holds. -/
def Completes (ts : List Token) (P : Prop) : Prop :=
  ∀ fs m, (operand fs).run ts = some m → P ∧ ∃ fs' t, m = complete fs' t

theorem Completes.imp (h : Completes ts P) (himp : P → Q) : Completes ts Q :=
  fun fs m hrun => (h fs m hrun).imp_left himp

/-- An atom completes an operand. -/
theorem Completes.of_phrase {t : Reading} (h : Phrase 7 ts t) : Completes ts True := by
  intro fs m hrun
  have admits : Begun.admits 7 fs := by
    cases fs with
    | nil => rfl
    | cons f fs =>
      cases f with
      | left op l => exact decide_eq_true (Nat.succ_le_succ op.rank_le_six)
      | _ => rfl
  obtain ⟨fs', u, hrun', -⟩ := h.exists_run fs admits
  exact ⟨trivial, fs', u, Option.some.inj (hrun.symm.trans hrun')⟩

/-- What follows the tokens is taken from where an expression stands. -/
theorem Completes.append (h : Completes ts P)
    (rest : ∀ fs t m, (complete fs t).run us = some m → Q ∧ ∃ fs' t', m = complete fs' t') :
    Completes (ts ++ us) (P ∧ Q) := by
  intro fs m hrun
  rw [run_append] at hrun
  obtain ⟨m', hrun', hrest⟩ := Option.bind_eq_some_iff.1 hrun
  obtain ⟨hP, fs', t, rfl⟩ := h fs m' hrun'
  obtain ⟨hQ, hcomplete⟩ := rest fs' t m hrest
  exact ⟨⟨hP, hQ⟩, hcomplete⟩

/-- What completes an operand does so when something follows that leaves it complete. -/
theorem Completes.append_tail (h : Completes ts P)
    (rest : ∀ fs t m, (complete fs t).run us = some m → ∃ fs' t', m = complete fs' t') :
    Completes (ts ++ us) P :=
  (h.append fun fs t m hrun => ⟨trivial, rest fs t m hrun⟩).imp And.left

/-- Parentheses around what completes an operand do. -/
theorem Completes.parens (h : Completes ts P) :
    Completes (.opening :: (ts ++ [.closing])) P := by
  have inner : Completes (ts ++ [.closing]) P := by
    refine h.append_tail fun fs t m hrun => ?_
    obtain ⟨m', hstep, hm⟩ := Option.bind_eq_some_iff.1 hrun
    obtain rfl := Option.some.inj hm
    simp only [step, if_true] at hstep
    split at hstep
    · exact ⟨_, _, (Option.some.inj hstep).symm⟩
    · cases hstep
  exact fun fs m hrun => inner (.parens :: fs) m hrun

theorem Completes.operandTokens (h : Completes ts P) (e : Expr) (floor : ℕ) :
    Completes (e.operandTokens floor ts) P := by
  unfold Expr.operandTokens
  split
  · exact h.parens
  · exact h

/-- A `NOT` before what completes an operand does. -/
theorem Completes.not (h : Completes ts P) : Completes (.word "NOT" :: ts) P := by
  intro fs m hrun
  rw [run_cons] at hrun
  obtain ⟨m', hstep, hrun⟩ := Option.bind_eq_some_iff.1 hrun
  by_cases hadmits : Begun.admits 3 fs
  · obtain rfl : operand (.not :: fs) = m' := by simpa [step, hadmits] using hstep
    exact h _ _ hrun
  · simp [step, hadmits] at hstep

theorem Completes.isNull (h : Completes ts P) (negated : Bool) :
    Completes (ts ++ Token.nullTest negated) P :=
  h.append_tail fun fs t _ hrun =>
    ⟨_, _, Option.some.inj (hrun.symm.trans (run_nullTest negated fs t))⟩

theorem Completes.inQuery (h : Completes ts P) (hus : Token.depth? 0 us = some 0) :
    Completes (ts ++ .word "IN" :: .opening :: (us ++ [.closing])) P :=
  h.append_tail fun fs t _ hrun =>
    ⟨_, _, Option.some.inj (hrun.symm.trans (run_inQuery hus fs t))⟩

/-- A comparison does not admit `NOT` as its second operand. -/
theorem Completes.binary (op : BinaryOp) (h : Completes ts P) (h' : Completes us Q) :
    Completes (ts ++ op.token :: us)
      (P ∧ Q ∧ (op.rank ≤ 2 ∨ us.head? ≠ some (.word "NOT"))) := by
  refine h.append fun fs t m hrun => ?_
  rw [run_cons, step_operator, Option.bind_some] at hrun
  obtain ⟨hQ, hcomplete⟩ := h' _ _ hrun
  refine ⟨⟨hQ, ?_⟩, hcomplete⟩
  by_contra hbad
  push Not at hbad
  obtain ⟨us, rfl⟩ : ∃ us', us = .word "NOT" :: us' := List.head?_eq_some_iff.1 hbad.2
  -- After the operator the reader waits for what binds tighter than it does.
  have hadmits : ¬ op.rank + 1 ≤ 3 := by omega
  rw [run_cons] at hrun
  simp [step, Begun.admits, Begun.floor, hadmits] at hrun

end Reader

/-- **A text is read only if no `NOT` is the second operand of a comparison.** -/
theorem Expr.Printed.completes {e : Expr} {ts : List Token} {s : Reading} (h : e.Printed ts s)
    (predicate : e.isPredicate) : Reader.Completes ts e.RightsApart := by
  induction h with
  | column label name =>
    exact (Reader.Completes.of_phrase (Phrase.atom rfl).looser).imp fun _ =>
      .of_parts (by simp) (by simp [parts])
  | literal h =>
    exact (Reader.Completes.of_phrase h).imp fun _ => .of_parts (by simp) (by simp [parts])
  | @binary op left right ts us _ _ printedl printedr ihl ihr =>
    have hl := ihl (isPredicate_part predicate (by simp [parts]))
    have hr := ihr (isPredicate_part predicate (by simp [parts]))
    refine ((hl.operandTokens left _).binary op (hr.operandTokens right _)).imp ?_
    rintro ⟨apartl, apartr, hnot⟩
    refine .of_parts ?_ (by simp [parts, apartl, apartr])
    rintro _ _ _ ⟨⟩
    refine hnot.imp_right fun hhead => ?_
    by_contra hright
    rw [Bool.not_eq_false] at hright
    rw [operandTokens_of_isNot hright op.rightFloor_le] at hhead
    exact hhead (printedr.head?_of_isNot hright)
  | not _ ih =>
    refine ((ih predicate).operandTokens _ _).not.imp fun apart => .of_parts (by simp) ?_
    simpa [parts] using apart
  | isNull _ negated ih =>
    refine (((ih predicate).operandTokens _ _).isNull negated).imp fun apart =>
      .of_parts (by simp) ?_
    simpa [parts] using apart
  | inQuery _ hquery ih =>
    refine (((ih predicate).operandTokens _ _).inQuery hquery).imp fun apart =>
      .of_parts (by simp) ?_
    simpa [parts] using apart
  | minus | minusParens => cases predicate

/-! ## Predicates and their texts -/

namespace Expr

variable {d : Dialect} {indent : ℕ} {text : String} {e : Expr}

/-- A predicate that has a text has a tree. -/
theorem exists_tree_of_isPredicate (predicate : e.isPredicate)
    (h : e.render d indent = .ok text) :
    ∃ s, e.tree? d indent = some s ∧ s.isPredicate := by
  fun_induction isPredicate e generalizing text with
  | case1 => exact ⟨_, rfl, rfl⟩
  | case2 => exact ⟨_, rfl, rfl⟩
  | case3 op left right ihl ihr =>
    simp only [Bool.and_eq_true] at predicate
    obtain ⟨l, hl, h⟩ := exists_of_bind_eq_ok h
    obtain ⟨r, hr, -⟩ := exists_of_bind_eq_ok h
    obtain ⟨sl, hsl, predicatel⟩ := ihl predicate.1.2 hl
    obtain ⟨sr, hsr, predicater⟩ := ihr predicate.2 hr
    refine ⟨.binary op sl sr, by rw [tree?, hsl, hsr]; rfl, ?_⟩
    simp [Reading.isPredicate, predicate.1.1, predicatel, predicater]
  | case4 operand ih =>
    obtain ⟨o, ho, -⟩ := exists_of_bind_eq_ok h
    obtain ⟨s, hs, hpredicate⟩ := ih predicate ho
    exact ⟨.negation s, by rw [tree?, hs]; rfl, hpredicate⟩
  | case5 operand negated ih =>
    obtain ⟨o, ho, -⟩ := exists_of_bind_eq_ok h
    obtain ⟨s, hs, hpredicate⟩ := ih predicate ho
    exact ⟨.isNull s negated, by rw [tree?, hs]; rfl, hpredicate⟩
  | case6 operand query ih =>
    obtain ⟨o, ho, h⟩ := exists_of_bind_eq_ok h
    obtain ⟨q, hq, -⟩ := exists_of_bind_eq_ok h
    obtain ⟨s, hs, hpredicate⟩ := ih predicate ho
    exact ⟨.inQuery s (Token.ofText q), by rw [tree?, hq, hs]; rfl, hpredicate⟩
  | case7 => cases predicate

/-- **The text of a predicate says what the predicate says**, up to the grouping of `AND` with `AND`
and of `OR` with `OR`, if and only if no `NOT` stands as an operand of anything but `AND`, `OR` and
`NOT`. -/
theorem readsAs_alike_iff (predicate : e.isPredicate) (legible : e.Legible d)
    (h : e.render d indent = .ok text) :
    ∃ s, e.tree? d indent = some s ∧
      ((∃ t, (∀ t', ReadsAs text t' ↔ t' = t) ∧ Reading.Alike s t) ↔ e.NotsApart) := by
  obtain ⟨s, hs, hpredicate⟩ := exists_tree_of_isPredicate predicate h
  refine ⟨s, hs, ?_, ?_⟩
  · rintro ⟨t, reads, alike⟩
    have reads : ReadsAs text t := (reads t).2 rfl
    obtain ⟨ts, hspells, -, printed⟩ := exists_printed legible hs h
    rw [ReadsAs, hspells.ofText_eq] at reads
    -- A second operand that is a `NOT` cannot be read, and a first one makes a reading that covers
    -- more of the tree with negations than any that is alike to it.
    obtain ⟨fs, u, hrun, -⟩ := reads.exists_run [] rfl
    have rights : e.RightsApart := (printed.completes predicate [] _ hrun).1
    obtain ⟨t', reads', covers⟩ := printed.exists_covers predicate rights
    obtain rfl := reads.unique (reads'.of_le e.one_le_readRank)
    exact covers.exact alike.sizes_eq.2.ge
  · intro apart
    obtain ⟨t, reads, regrouped⟩ := exists_readsAs legible apart hs h
    refine ⟨t, fun t' => ⟨fun reads' => reads'.unique reads, ?_⟩, regrouped.alike hpredicate⟩
    rintro rfl
    exact reads

def openOrders : Expr :=
  binary .and (binary .eq (column "t" "state") (literal (.string "open")))
    (binary .and (unary .not (isNull (column "t" "owner") false))
      (inQuery (column "t" "id")
        { label := "s", columns := [⟨"order", .column "p" "order", .int⟩]
          source := some (.table "payments" "p") }))

/-- A `NOT` under `AND`, and an `AND` on the right of another one: the text says what the predicate
says, up to the grouping of the two. -/
theorem readsAs_alike_iff_openOrders :
    ∃ text s, openOrders.render .hive 0 = .ok text ∧ openOrders.tree? .hive 0 = some s ∧
      ∃ t, (∀ t', ReadsAs text t' ↔ t' = t) ∧ Reading.Alike s t := by
  have legible : openOrders.Legible .hive := by decide +kernel
  have apart : openOrders.NotsApart := by decide
  obtain ⟨text, written⟩ : ∃ text, openOrders.render .hive 0 = .ok text := ⟨_, rfl⟩
  obtain ⟨s, hs, reads⟩ := readsAs_alike_iff rfl legible written
  exact ⟨text, s, written, hs, reads.2 apart⟩

def comparedNegation : Expr :=
  binary .eq (unary .not (column "t" "a")) (column "t" "b")

/-- A comparison with a negation is read as the negation of a comparison. -/
theorem comparedNegation_reads_otherwise :
    comparedNegation.isPredicate ∧ comparedNegation.render .hive 0 = .ok "NOT t.a = t.b" ∧
      ∃ s t, comparedNegation.tree? .hive 0 = some s ∧ ReadsAs "NOT t.a = t.b" t ∧
        ¬ Reading.Alike s t := by
  have column : ∀ name, Phrase 7 [.column "t" name] (.column "t" name) := fun _ =>
    .of_le (.atom rfl) (by decide)
  have left : Phrase BinaryOp.eq.rank [.column "t" "a"] (.column "t" "a") :=
    (column "a").of_le (by decide)
  have comparison : Phrase 3 [.column "t" "a", .mark "=", .column "t" "b"] _ :=
    (left.binary ((column "b").of_le (by decide))).looser
  have reads : Phrase 1 (Token.ofText "NOT t.a = t.b") _ := comparison.not.of_le (by decide)
  refine ⟨rfl, rfl, _, _, rfl, reads, fun alike => ?_⟩
  have negated := alike.sizes_eq.2
  simp [Reading.negatedSize, Reading.size] at negated

end Expr

end HiveQuery
