import HiveQuery.Proofs.Levels
import HiveQuery.Proofs.Outcome
import HiveQuery.Tree.Transform
/-!
# Traversals

A pass goes through the parts of an expression from left to right and then through its select, and
puts the results where the parts stood (`Expr.traverseParts`). For a transformation this gives what
the proofs about passes need: an expression becomes one whose subqueries are the transformed ones
and whose references are related to the old ones (`Expr.follows_transform`), a select is transformed
from its source over its clauses (`Select.of_outcome_transformParts`), and nothing fails unless the
action on a select does (`Select.exists_of_transform_eq_error`).
-/

namespace HiveQuery

open Outcome

/-! ## Parts, one after another -/

namespace Expr

variable {m : Type → Type} [Monad m]

/-- The expression with its parts and its select replaced, one after another. -/
def traverseParts (f : Expr → m Expr) (g : Select → m Select) (e : Expr) : m Expr := do
  let ps ← e.parts.mapM f
  let query ← e.query?.toList.mapM g
  return e.withParts ps query.head?

variable [LawfulMonad m] {f : Expr → m Expr} {g : Select → m Select}

/-- Going through the conditions and results of branches is going through the branches. -/
theorem mapM_refill {β : Type} (bs : List Branch) (rest : List Expr)
    (k : List Branch × List Expr → m β) :
    ((bs.flatMap Branch.parts ++ rest).mapM f >>= fun ps => k (refill bs ps)) =
      (bs.mapM fun (b : Branch) => do
        let condition ← f b.condition
        let result ← f b.result
        return Branch.mk condition result) >>= fun bs => rest.mapM f >>= fun ps => k (bs, ps) := by
  induction bs generalizing k with
  | nil =>
    have h : ∀ ps, refill [] ps = ([], ps) := fun ps => by cases ps <;> rfl
    simp [h]
  | cons b bs ih =>
    simp only [List.flatMap_cons, Branch.parts_eq, List.cons_append, List.nil_append,
      List.mapM_cons, bind_assoc, pure_bind, refill]
    refine bind_congr fun condition => bind_congr fun result => ?_
    exact ih fun r => k (⟨condition, result⟩ :: r.1, r.2)

/-- Going through the expressions of order terms is going through the terms. -/
theorem mapM_zipWith {β : Type} (ts : List OrderTerm) (k : List OrderTerm → m β) :
    ((ts.map (·.expr)).mapM f >>= fun ps =>
        k (List.zipWith (fun (t : OrderTerm) p => ⟨p, t.direction⟩) ts ps)) =
      (ts.mapM fun (t : OrderTerm) => do
        let expr ← f t.expr
        return OrderTerm.mk expr t.direction) >>= k := by
  induction ts generalizing k with
  | nil => simp
  | cons t ts ih =>
    simp only [List.map_cons, List.mapM_cons, bind_assoc, pure_bind, List.zipWith_cons_cons]
    refine bind_congr fun expr => ?_
    exact ih fun r => k (⟨expr, t.direction⟩ :: r)

end Expr

/-! ## Transformations -/

/-- Whether an expression is a column reference, a literal or a generated identity. -/
def Expr.isLeaf : Expr → Bool
  | column .. | literal _ | generatedId _ => true
  | _ => false

/-- There is nothing below a leaf. -/
theorem Expr.parts_of_isLeaf {e : Expr} (h : e.isLeaf) : e.parts = [] := by
  cases e with
  | column | literal | generatedId => rfl
  | _ => cases h

theorem Expr.query?_of_isLeaf {e : Expr} (h : e.isLeaf) : e.query? = none := by
  cases e with
  | column | literal | generatedId => rfl
  | _ => cases h

/-- Only a leaf is a reference. -/
theorem Expr.ref?_of_not_isLeaf {e : Expr} (h : ¬ e.isLeaf) : e.ref? = none := by
  cases e with
  | column => exact absurd rfl h
  | _ => rfl

theorem Node.resource?_of_isLeaf {e : Expr} (h : e.isLeaf) : (Node.expr e).resource? = none := by
  cases e with
  | call => cases h
  | _ => rfl

section Transform

variable {m : Type → Type} [Monad m] [LawfulMonad m] (t : Transform m) (depth : Nat)

/-- Expressions are transformed one after the other. -/
theorem Expr.transformList_eq (es : List Expr) :
    Expr.transformList t depth es = es.mapM (Expr.transform t depth) := by
  induction es with
  | nil => simp [Expr.transformList]
  | cons e es ih => simp [Expr.transformList, ih]

theorem Expr.transformOption_eq (o : Option Expr) :
    Expr.transformOption t depth o =
      (do return (← o.toList.mapM (Expr.transform t depth)).head?) := by
  cases o <;> simp [Expr.transformOption]

/-- The condition of a branch is transformed before its result. -/
theorem Branch.transformList_eq (bs : List Branch) :
    Branch.transformList t depth bs = bs.mapM fun (b : Branch) => do
      let condition ← b.condition.transform t depth
      let result ← b.result.transform t depth
      return Branch.mk condition result := by
  induction bs with
  | nil => simp [Branch.transformList]
  | cons b bs ih => cases b; simp [Branch.transformList, ih]

theorem OrderTerm.transformList_eq (ts : List OrderTerm) :
    OrderTerm.transformList t depth ts = ts.mapM fun (term : OrderTerm) => do
      let expr ← term.expr.transform t depth
      return OrderTerm.mk expr term.direction := by
  induction ts with
  | nil => simp [OrderTerm.transformList]
  | cons t ts ih => cases t; simp [OrderTerm.transformList, ih]

/-- A transformation acts on the leaves and goes through the parts of all else. -/
theorem Expr.transform_eq (e : Expr) :
    e.transform t depth =
      if e.isLeaf then t.leaf e
      else e.traverseParts (Expr.transform t depth) (Select.transform t depth) := by
  cases e with
  | caseWhen branches otherwise =>
    simp only [Expr.transform, Branch.transformList_eq, Expr.transformOption_eq, bind_assoc,
      pure_bind, Expr.isLeaf, Expr.traverseParts, Expr.parts, Expr.query?, Expr.withParts,
      Option.toList_none, List.mapM_nil]
    exact (Expr.mapM_refill branches otherwise.toList fun r =>
      pure (Expr.caseWhen r.1 r.2.head?)).symm
  | rowNumber order =>
    simp only [Expr.transform, OrderTerm.transformList_eq, Expr.isLeaf, Expr.traverseParts,
      Expr.parts, Expr.query?, Expr.withParts, Option.toList_none, List.mapM_nil, pure_bind]
    exact (Expr.mapM_zipWith order fun ts => pure (Expr.rowNumber ts)).symm
  | _ =>
    simp [Expr.transform, Expr.isLeaf, Expr.traverseParts, Expr.parts, Expr.query?, Expr.withParts,
      Expr.transformList_eq, Expr.transformOption_eq]

variable {t depth} {σ : Type} [Outcome m σ]

/-- What is known when a traversal of parts succeeds. -/
theorem Expr.of_outcome_traverseParts {f : Expr → m Expr} {g : Select → m Select} {e e' : Expr}
    {st st' : σ} (h : outcome (e.traverseParts f g) st = .ok (e', st')) :
    ∃ st₁, outcome (e.parts.mapM f) st = .ok (e'.parts, st₁) ∧
      outcome (e.query?.toList.mapM g) st₁ = .ok (e'.query?.toList, st') ∧
      e'.ref? = e.ref? ∧ e'.isAggregate = e.isAggregate ∧ e'.isRowNumber = e.isRowNumber := by
  rw [Expr.traverseParts, outcome_bind_eq_ok_iff] at h
  obtain ⟨ps, st₁, hps, h⟩ := h
  rw [outcome_bind_eq_ok_iff] at h
  obtain ⟨qs, st₂, hqs, h⟩ := h
  obtain ⟨rfl, rfl⟩ := outcome_pure_eq_ok_iff.1 h
  have hlen := length_of_outcome_mapM hqs
  have hfits : e.Fits ps qs.head? :=
    ⟨length_of_outcome_mapM hps, by
      cases hq : e.query? <;> rw [hq] at hlen <;> cases qs <;> simp_all⟩
  have hone : qs.length ≤ 1 := by
    cases hq : e.query? <;> rw [hq] at hlen <;> simp_all
  obtain ⟨hparts, hquery, hrest⟩ := Expr.withParts_spec hfits
  exact ⟨st₁, by rw [hparts]; exact hps, by rw [hquery, Expr.toList_head? hone]; exact hqs, hrest⟩

/-- What a transformation does to an expression, as far as its selects and its references go: the
subqueries are transformed in their order, and the references that the expression makes itself are
related by `L`, one by one. `J` is kept. -/
def Expr.Follows (t : Transform m) (depth : Nat) (J : σ → Prop)
    (L : String × String → String × String → Prop) (e : Expr) : Prop :=
  ∀ st e' st', J st → outcome (e.transform t depth) st = .ok (e', st') →
    J st' ∧
      outcome (e.subqueries.mapM (Select.transform t depth)) st = .ok (e'.subqueries, st') ∧
      List.Forall₂ L e.localRefs e'.localRefs

variable {J : σ → Prop} {L : String × String → String × String → Prop}

/-- What holds of the expressions of a list one by one holds of the list. -/
theorem Expr.Follows.list {es : List Expr} (hes : ∀ e ∈ es, e.Follows t depth J L)
    {st : σ} {es' : List Expr} {st' : σ} (hJ : J st)
    (h : outcome (es.mapM (Expr.transform t depth)) st = .ok (es', st')) :
    J st' ∧
      outcome ((es.flatMap Expr.subqueries).mapM (Select.transform t depth)) st =
        .ok (es'.flatMap Expr.subqueries, st') ∧
      List.Forall₂ L (es.flatMap Expr.localRefs) (es'.flatMap Expr.localRefs) := by
  induction es generalizing st es' with
  | nil =>
    obtain ⟨rfl, rfl⟩ := outcome_mapM_nil_eq_ok_iff.1 h
    exact ⟨hJ, outcome_mapM_nil_eq_ok_iff.2 ⟨rfl, rfl⟩, .nil⟩
  | cons e es ih =>
    obtain ⟨e', es', st₁, he, hes', rfl⟩ := outcome_mapM_cons_eq_ok_iff.1 h
    obtain ⟨hJ₁, hqueries, hrefs⟩ := hes e (by simp) st e' st₁ hJ he
    obtain ⟨hJ', hqueries', hrefs'⟩ := ih (fun e he => hes e (by simp [he])) hJ₁ hes'
    exact ⟨hJ', outcome_mapM_append_eq_ok_iff.2 ⟨_, _, st₁, hqueries, hqueries', rfl⟩,
      List.rel_append hrefs hrefs'⟩

/-- **A transformation follows the subqueries and the references**, provided that its action on a
leaf leaves the state alone and that the transformations of the subqueries keep `J`. -/
theorem Expr.follows_transform
    (hleaf : ∀ e : Expr, e.isLeaf → ∀ st e' st', J st → outcome (t.leaf e) st = .ok (e', st') →
      st' = st ∧ e'.isLeaf ∧ Option.Rel L e.ref? e'.ref?)
    (e : Expr) (hquery : ∀ q ∈ e.subqueries, ∀ st q' st', J st →
      outcome (q.transform t depth) st = .ok (q', st') → J st') :
    e.Follows t depth J L := by
  induction e using Expr.parts_induction with
  | step e ih =>
    intro st e' st' hJ h
    rw [Expr.subqueries_eq] at hquery ⊢
    rw [Expr.subqueries_eq, Expr.localRefs_eq, Expr.localRefs_eq e']
    rw [Expr.transform_eq] at h
    by_cases hl : e.isLeaf
    · rw [if_pos hl] at h
      obtain ⟨rfl, hl', href⟩ := hleaf e hl st e' st' hJ h
      rw [Expr.parts_of_isLeaf hl, Expr.query?_of_isLeaf hl, Expr.parts_of_isLeaf hl',
        Expr.query?_of_isLeaf hl']
      refine ⟨hJ, outcome_mapM_nil_eq_ok_iff.2 ⟨rfl, rfl⟩, ?_⟩
      generalize e.ref? = r, e'.ref? = r' at href
      cases href <;> simp [*]
    · rw [if_neg hl] at h
      obtain ⟨st₁, hparts, hq, href, -⟩ := Expr.of_outcome_traverseParts h
      have hpart : ∀ p ∈ e.parts, p.Follows t depth J L := fun p hp => ih p hp fun q hq =>
        hquery q (List.mem_append_left _ (List.mem_flatMap.2 ⟨p, hp, hq⟩))
      obtain ⟨hJ₁, hqueries, hrefs⟩ := Expr.Follows.list hpart hJ hparts
      refine ⟨?_, outcome_mapM_append_eq_ok_iff.2 ⟨_, _, st₁, hqueries, hq, rfl⟩, ?_⟩
      · cases hsome : e.query? with
        | none =>
          rw [hsome] at hq
          obtain ⟨-, rfl⟩ := outcome_mapM_nil_eq_ok_iff.1 hq
          exact hJ₁
        | some q =>
          rw [hsome] at hq hquery
          obtain ⟨q', qs, st₂, hq', hqs, -⟩ := outcome_mapM_cons_eq_ok_iff.1 hq
          obtain ⟨-, rfl⟩ := outcome_mapM_nil_eq_ok_iff.1 hqs
          exact hquery q (by simp) st₁ q' st' hJ₁ hq'
      · rw [href, Expr.ref?_of_not_isLeaf hl]
        simpa using hrefs

/-! ### Selects -/

theorem Column.transformList_eq (cs : List Column) :
    Column.transformList t depth cs = cs.mapM fun (c : Column) => do
      let expr ← c.expr.transform t depth
      return Column.mk c.name expr c.type := by
  induction cs with
  | nil => simp [Column.transformList]
  | cons c cs ih => cases c; simp [Column.transformList, ih]

/-- The results of going through a list stand to its items as the steps say. -/
theorem forall₂_of_outcome_mapM {α β : Type} {f : α → m β} {as : List α} {bs : List β} {st st' : σ}
    (h : outcome (as.mapM f) st = .ok (bs, st')) :
    List.Forall₂ (fun a b => ∃ st st', outcome (f a) st = .ok (b, st')) as bs := by
  induction as generalizing st bs with
  | nil =>
    obtain ⟨rfl, -⟩ := outcome_mapM_nil_eq_ok_iff.1 h
    exact .nil
  | cons a as ih =>
    obtain ⟨b, bs, st₁, hb, hbs, rfl⟩ := outcome_mapM_cons_eq_ok_iff.1 h
    exact .cons ⟨st, st₁, hb⟩ (ih hbs)

/-- A transformation that leaves the leaves and the subqueries of an expression alone leaves the
expression alone. -/
theorem Expr.eq_of_transform_subqueries (hleaf : ∀ e : Expr, t.leaf e = pure e) {e e' : Expr}
    (below : ∀ q ∈ e.subqueries, ∀ (st : σ) q' st',
      outcome (q.transform t depth) st = .ok (q', st') → q' = q) {st st' : σ}
    (h : outcome (e.transform t depth) st = .ok (e', st')) : e' = e := by
  induction e using Expr.parts_induction generalizing e' st st' with
  | step e ih =>
    rw [Expr.subqueries_eq] at below
    simp only [List.forall_mem_append, List.forall_mem_flatMap] at below
    obtain ⟨parts, query⟩ := below
    rw [Expr.transform_eq] at h
    split at h
    · rw [hleaf] at h
      exact (outcome_pure_eq_ok_iff.1 h).1.symm
    · rw [Expr.traverseParts, outcome_bind_eq_ok_iff] at h
      obtain ⟨ps, st₁, hps, h⟩ := h
      rw [outcome_bind_eq_ok_iff] at h
      obtain ⟨qs, st₂, hqs, h⟩ := h
      obtain ⟨rfl, -⟩ := outcome_pure_eq_ok_iff.1 h
      have sameParts : ps = e.parts := by
        refine eq_of_forall₂ (forall₂_of_outcome_mapM hps) ?_
        rintro p hp p' ⟨_, _, hp'⟩
        exact ih p hp (parts p hp) hp'
      have sameQuery : qs = e.query?.toList := by
        refine eq_of_forall₂ (forall₂_of_outcome_mapM hqs) ?_
        rintro q hq q' ⟨st, st', hq'⟩
        exact query q hq st q' st' hq'
      rw [sameParts, sameQuery, Option.head?_toList]
      exact e.withParts_self

/-- A transformation that leaves the leaves alone leaves an expression without subqueries alone. -/
theorem Expr.eq_of_transform (hleaf : ∀ e : Expr, t.leaf e = pure e) {e e' : Expr}
    (plain : e.subqueries = []) {st st' : σ}
    (h : outcome (e.transform t depth) st = .ok (e', st')) : e' = e := by
  refine Expr.eq_of_transform_subqueries hleaf (fun q hq => ?_) h
  rw [plain] at hq
  cases hq

/-- Two selects that differ in their sources and in the expressions of their clauses alone, the
latter standing in a relation one by one. -/
structure Select.Alike (R : Expr → Expr → Prop) (s s' : Select) : Prop where
  label : s'.label = s.label
  columns : List.Forall₂ (fun c c' : Column => c'.name = c.name ∧ c'.type = c.type ∧
    R c.expr c'.expr) s.columns s'.columns
  filter : Option.Rel R s.filter s'.filter
  ordering : List.Forall₂ (fun t t' : OrderTerm => t'.direction = t.direction ∧ R t.expr t'.expr)
    s.ordering s'.ordering
  grouping : List.Forall₂ R s.grouping s'.grouping
  clustering : List.Forall₂ R s.clustering s'.clustering
  distinct : s'.distinct = s.distinct
  skip : s'.skip = s.skip
  take : s'.take = s.take
  reversed : s'.reversed = s.reversed

/-- Selects that are alike have the same names. -/
theorem Select.Alike.columnNames {R : Expr → Expr → Prop} {s s' : Select} (h : s.Alike R s') :
    s'.columnNames = s.columnNames := by
  have names : List.Forall₂ (· = ·) (s.columns.map (·.name)) (s'.columns.map (·.name)) :=
    List.forall₂_map_right_iff.2 (List.forall₂_map_left_iff.2
      (h.columns.imp fun _ _ alike => alike.1.symm))
  exact (List.forall₂_eq_eq_eq ▸ names).symm

/-- Every clause but the filter stands opposite to one. -/
theorem Select.Alike.exists_of_mem_others {R : Expr → Expr → Prop} {s s' : Select}
    (h : s.Alike R s') {e' : Expr} (he' : e' ∈ s'.others) : ∃ e ∈ s.others, R e e' := by
  simp only [Select.others, List.mem_append, List.mem_map] at he' ⊢
  rcases he' with ((⟨c', hc', rfl⟩ | ⟨t', ht', rfl⟩) | he') | he'
  · obtain ⟨c, hc, -, -, hr⟩ := exists_of_forall₂_of_mem h.columns hc'
    exact ⟨c.expr, .inl (.inl (.inl ⟨c, hc, rfl⟩)), hr⟩
  · obtain ⟨t, ht, -, hr⟩ := exists_of_forall₂_of_mem h.ordering ht'
    exact ⟨t.expr, .inl (.inl (.inr ⟨t, ht, rfl⟩)), hr⟩
  · obtain ⟨e, he, hr⟩ := exists_of_forall₂_of_mem h.grouping he'
    exact ⟨e, .inl (.inr he), hr⟩
  · obtain ⟨e, he, hr⟩ := exists_of_forall₂_of_mem h.clustering he'
    exact ⟨e, .inr he, hr⟩

/-- Expressions that stand in the relation to themselves alone are the same in both selects. -/
theorem Select.Alike.columns_eq {R : Expr → Expr → Prop} {s s' : Select} (h : s.Alike R s')
    (only : ∀ e ∈ s.others, ∀ e', R e e' → e' = e) :
    s'.columns = s.columns ∧ s'.ordering = s.ordering := by
  simp only [Select.others, List.forall_mem_append, List.forall_mem_map] at only
  obtain ⟨⟨⟨columns, ordering⟩, -⟩, -⟩ := only
  constructor
  · refine eq_of_forall₂ h.columns fun c hc c' alike => ?_
    obtain ⟨name, type, hr⟩ := alike
    cases c
    cases c'
    obtain rfl := name
    obtain rfl := type
    exact congrArg (Column.mk _ · _) (columns _ hc _ hr)
  · refine eq_of_forall₂ h.ordering fun t ht t' alike => ?_
    obtain ⟨direction, hr⟩ := alike
    cases t
    cases t'
    obtain rfl := direction
    exact congrArg (OrderTerm.mk · _) (ordering _ ht _ hr)

/-- The same for all clauses: such selects differ in their sources alone. -/
theorem Select.Alike.eq_of_source {R : Expr → Expr → Prop} {s s' : Select} (h : s.Alike R s')
    (only : ∀ e ∈ s.clauses, ∀ e', R e e' → e' = e) (source : s'.source = s.source) : s' = s := by
  have others : ∀ e ∈ s.others, ∀ e', R e e' → e' = e :=
    fun e he => only e (mem_clauses_iff.2 (.inl he))
  obtain ⟨columns, ordering⟩ := h.columns_eq others
  have filter : s'.filter = s.filter :=
    eq_of_rel h.filter fun e he => only e (mem_clauses_of_filter he)
  have grouping : s'.grouping = s.grouping :=
    eq_of_forall₂ h.grouping fun e he => only e (mem_clauses_of_grouping he)
  have clustering : s'.clustering = s.clustering :=
    eq_of_forall₂ h.clustering fun e he => only e (mem_clauses_of_clustering he)
  obtain ⟨label, -, -, -, -, -, distinct, skip, take, reversed⟩ := h
  cases s
  cases s'
  simp_all

/-- The expressions of columns are transformed in order, and the rest of a column is kept. -/
theorem Column.of_outcome_mapM {f : Expr → m Expr} {cs cs' : List Column} {st st' : σ}
    (h : outcome (cs.mapM fun (c : Column) => do
      let expr ← f c.expr
      return Column.mk c.name expr c.type) st = .ok (cs', st')) :
    outcome ((cs.map (·.expr)).mapM f) st = .ok (cs'.map (·.expr), st') ∧
      List.Forall₂ (fun c c' : Column => c'.name = c.name ∧ c'.type = c.type ∧
        ∃ st st', outcome (f c.expr) st = .ok (c'.expr, st')) cs cs' := by
  induction cs generalizing st cs' with
  | nil =>
    obtain ⟨rfl, rfl⟩ := outcome_mapM_nil_eq_ok_iff.1 h
    exact ⟨outcome_mapM_nil_eq_ok_iff.2 ⟨rfl, rfl⟩, .nil⟩
  | cons c cs ih =>
    obtain ⟨c', cs', st₁, hc, hcs, rfl⟩ := outcome_mapM_cons_eq_ok_iff.1 h
    rw [outcome_bind_eq_ok_iff] at hc
    obtain ⟨expr, st₂, hexpr, hc⟩ := hc
    obtain ⟨rfl, rfl⟩ := outcome_pure_eq_ok_iff.1 hc
    obtain ⟨hmap, hall⟩ := ih hcs
    exact ⟨outcome_mapM_cons_eq_ok_iff.2 ⟨expr, _, st₂, hexpr, hmap, rfl⟩,
      .cons ⟨rfl, rfl, st, st₂, hexpr⟩ hall⟩

/-- The same for order terms, which keep their directions. -/
theorem OrderTerm.of_outcome_mapM {f : Expr → m Expr} {ts ts' : List OrderTerm} {st st' : σ}
    (h : outcome (ts.mapM fun (t : OrderTerm) => do
      let expr ← f t.expr
      return OrderTerm.mk expr t.direction) st = .ok (ts', st')) :
    outcome ((ts.map (·.expr)).mapM f) st = .ok (ts'.map (·.expr), st') ∧
      List.Forall₂ (fun t t' : OrderTerm => t'.direction = t.direction ∧
        ∃ st st', outcome (f t.expr) st = .ok (t'.expr, st')) ts ts' := by
  induction ts generalizing st ts' with
  | nil =>
    obtain ⟨rfl, rfl⟩ := outcome_mapM_nil_eq_ok_iff.1 h
    exact ⟨outcome_mapM_nil_eq_ok_iff.2 ⟨rfl, rfl⟩, .nil⟩
  | cons t ts ih =>
    obtain ⟨t', ts', st₁, ht, hts, rfl⟩ := outcome_mapM_cons_eq_ok_iff.1 h
    rw [outcome_bind_eq_ok_iff] at ht
    obtain ⟨expr, st₂, hexpr, ht⟩ := ht
    obtain ⟨rfl, rfl⟩ := outcome_pure_eq_ok_iff.1 ht
    obtain ⟨hmap, hall⟩ := ih hts
    exact ⟨outcome_mapM_cons_eq_ok_iff.2 ⟨expr, _, st₂, hexpr, hmap, rfl⟩,
      .cons ⟨rfl, st, st₂, hexpr⟩ hall⟩

/-- The same for an expression that may be missing. -/
theorem Expr.of_outcome_option {f : Expr → m Expr} {o o' : Option Expr} {st st' : σ}
    (h : outcome (do return (← o.toList.mapM f).head? : m (Option Expr)) st = .ok (o', st')) :
    outcome (o.toList.mapM f) st = .ok (o'.toList, st') ∧
      Option.Rel (fun e e' => ∃ st st', outcome (f e) st = .ok (e', st')) o o' := by
  rw [outcome_bind_eq_ok_iff] at h
  obtain ⟨l, st₁, hl, h⟩ := h
  obtain ⟨rfl, rfl⟩ := outcome_pure_eq_ok_iff.1 h
  cases o with
  | none =>
    obtain ⟨rfl, rfl⟩ := outcome_mapM_nil_eq_ok_iff.1 hl
    exact ⟨hl, .none⟩
  | some e =>
    obtain ⟨e', l, st₂, he, hnil, rfl⟩ := outcome_mapM_cons_eq_ok_iff.1 hl
    obtain ⟨rfl, rfl⟩ := outcome_mapM_nil_eq_ok_iff.1 hnil
    exact ⟨hl, .some ⟨st, _, he⟩⟩

omit [LawfulMonad m] in
theorem Source.of_outcome_transform_subquery {query : Select} {source' : Source} {st st' : σ}
    (h : outcome ((Source.subquery query).transform t depth) st = .ok (source', st')) :
    ∃ query', source' = .subquery query' ∧
      outcome (query.transform t depth) st = .ok (query', st') := by
  rw [Source.transform, outcome_bind_eq_ok_iff] at h
  obtain ⟨query', st₁, hquery, h⟩ := h
  obtain ⟨rfl, rfl⟩ := outcome_pure_eq_ok_iff.1 h
  exact ⟨query', rfl, hquery⟩

/-- The sides of a join are transformed from left to right, and then its condition. -/
theorem Source.of_outcome_transform_join {kind : JoinKind} {left right source' : Source}
    {condition : Option Expr} {st st' : σ}
    (h : outcome ((Source.join kind left right condition).transform t depth) st =
      .ok (source', st')) :
    ∃ left' right' condition' st₁ st₂, source' = .join kind left' right' condition' ∧
      outcome (left.transform t depth) st = .ok (left', st₁) ∧
      outcome (right.transform t depth) st₁ = .ok (right', st₂) ∧
      outcome (condition.toList.mapM (Expr.transform t depth)) st₂ = .ok (condition'.toList, st') ∧
      Option.Rel (fun e e' => ∃ st st', outcome (e.transform t depth) st = .ok (e', st'))
        condition condition' := by
  rw [Source.transform, outcome_bind_eq_ok_iff] at h
  obtain ⟨left', st₁, hleft, h⟩ := h
  rw [outcome_bind_eq_ok_iff] at h
  obtain ⟨right', st₂, hright, h⟩ := h
  rw [outcome_bind_eq_ok_iff, Expr.transformOption_eq] at h
  obtain ⟨condition', st₃, hcondition, h⟩ := h
  obtain ⟨rfl, rfl⟩ := outcome_pure_eq_ok_iff.1 h
  exact ⟨left', right', condition', st₁, st₂, rfl, hleft, hright, Expr.of_outcome_option hcondition⟩

omit [LawfulMonad m] in
/-- A select that reads nothing is given no source, and any other one the transformed source. -/
theorem Source.of_outcome_transformOption {o o' : Option Source} {st st' : σ}
    (h : outcome (Source.transformOption t depth o) st = .ok (o', st')) :
    (o = none ∧ o' = none ∧ st' = st) ∨ ∃ source source', o = some source ∧ o' = some source' ∧
      outcome (source.transform t depth) st = .ok (source', st') := by
  cases o with
  | none =>
    obtain ⟨rfl, rfl⟩ := outcome_pure_eq_ok_iff.1 h
    exact .inl ⟨rfl, rfl, rfl⟩
  | some source =>
    rw [Source.transformOption, outcome_bind_eq_ok_iff] at h
    obtain ⟨source', st₁, hsource, h⟩ := h
    obtain ⟨rfl, rfl⟩ := outcome_pure_eq_ok_iff.1 h
    exact .inr ⟨source, source', rfl, rfl, hsource⟩

/-- The select with its source and its clauses transformed, in this order. -/
def Select.transformParts (t : Transform m) (depth : Nat) (s : Select) : m Select := do
  let source ← Source.transformOption t (depth + 1) s.source
  let columns ← Column.transformList t (depth + 1) s.columns
  let filter ← Expr.transformOption t (depth + 1) s.filter
  let ordering ← OrderTerm.transformList t (depth + 1) s.ordering
  let grouping ← Expr.transformList t (depth + 1) s.grouping
  let clustering ← Expr.transformList t (depth + 1) s.clustering
  return { s with columns, source, filter, ordering, grouping, clustering }

/-- A select is acted on after its parts have been transformed. -/
theorem Select.transform_eq (s : Select) :
    s.transform t depth = s.transformParts t depth >>= t.select depth := by
  cases s
  simp [Select.transform, Select.transformParts]

/-- **A select is transformed from its source over its clauses.** -/
theorem Select.of_outcome_transformParts {s s₁ : Select} {st st₂ : σ}
    (h : outcome (s.transformParts t depth) st = .ok (s₁, st₂)) :
    ∃ st₁, outcome (Source.transformOption t (depth + 1) s.source) st = .ok (s₁.source, st₁) ∧
      outcome (s.clauses.mapM (Expr.transform t (depth + 1))) st₁ = .ok (s₁.clauses, st₂) ∧
      s.Alike (fun e e' => ∃ st st', outcome (e.transform t (depth + 1)) st = .ok (e', st'))
        s₁ := by
  rw [Select.transformParts, outcome_bind_eq_ok_iff] at h
  obtain ⟨source₁, st₁, hsource, h⟩ := h
  rw [outcome_bind_eq_ok_iff, Column.transformList_eq] at h
  obtain ⟨columns₁, stc, hcolumns, h⟩ := h
  rw [outcome_bind_eq_ok_iff, Expr.transformOption_eq] at h
  obtain ⟨filter₁, stf, hfilter, h⟩ := h
  rw [outcome_bind_eq_ok_iff, OrderTerm.transformList_eq] at h
  obtain ⟨ordering₁, sto, hordering, h⟩ := h
  rw [outcome_bind_eq_ok_iff, Expr.transformList_eq] at h
  obtain ⟨grouping₁, stg, hgrouping, h⟩ := h
  rw [outcome_bind_eq_ok_iff, Expr.transformList_eq] at h
  obtain ⟨clustering₁, stk, hclustering, h⟩ := h
  obtain ⟨rfl, rfl⟩ := outcome_pure_eq_ok_iff.1 h
  obtain ⟨hcolumns, hcolumns'⟩ := Column.of_outcome_mapM hcolumns
  obtain ⟨hfilter, hfilter'⟩ := Expr.of_outcome_option hfilter
  obtain ⟨hordering, hordering'⟩ := OrderTerm.of_outcome_mapM hordering
  refine ⟨st₁, hsource, ?_, ⟨rfl, hcolumns', hfilter', hordering',
    forall₂_of_outcome_mapM hgrouping, forall₂_of_outcome_mapM hclustering, rfl, rfl, rfl, rfl⟩⟩
  simp only [Select.clauses, outcome_mapM_append_eq_ok_iff]
  exact ⟨_, _, stg, ⟨_, _, sto, ⟨_, _, stf, ⟨_, _, stc, hcolumns, hfilter, rfl⟩, hordering, rfl⟩,
    hgrouping, rfl⟩, hclustering, rfl⟩

/-! ### Failures

A transformation that never fails at a leaf fails only where its action on a select does, and that
select is one of the tree with its parts transformed. -/

section Failures

variable (hleaf : ∀ e : Expr, e.isLeaf → ∀ st failure, outcome (t.leaf e) st ≠ .error failure)
variable {st : σ} {failure : Failure}
include hleaf

/-- An expression fails at one of its subqueries. -/
theorem Expr.exists_of_transform_eq_error {e : Expr}
    (h : outcome (e.transform t depth) st = .error failure) :
    ∃ q ∈ e.subqueries, ∃ st, outcome (q.transform t depth) st = .error failure := by
  induction e using Expr.parts_induction generalizing st with
  | step e ih =>
    rw [Expr.subqueries_eq]
    rw [Expr.transform_eq] at h
    by_cases hl : e.isLeaf
    · rw [if_pos hl] at h
      exact absurd h (hleaf e hl st failure)
    · rw [if_neg hl, Expr.traverseParts, outcome_bind_eq_error_iff] at h
      rcases h with h | ⟨ps, st₁, -, h⟩
      · obtain ⟨p, hp, st₁, hfail⟩ := exists_of_outcome_mapM_eq_error h
        obtain ⟨q, hq, below⟩ := ih p hp hfail
        exact ⟨q, List.mem_append_left _ (List.mem_flatMap_of_mem hp hq), below⟩
      · rw [outcome_bind_eq_error_iff] at h
        rcases h with h | ⟨qs, st₂, -, h⟩
        · obtain ⟨q, hq, below⟩ := exists_of_outcome_mapM_eq_error h
          exact ⟨q, List.mem_append_right _ hq, below⟩
        · exact absurd h outcome_pure_ne_error

theorem Expr.exists_of_mapM_eq_error {es : List Expr}
    (h : outcome (es.mapM (Expr.transform t depth)) st = .error failure) :
    ∃ q ∈ es.flatMap Expr.subqueries, ∃ st, outcome (q.transform t depth) st = .error failure := by
  obtain ⟨e, he, st₁, hfail⟩ := exists_of_outcome_mapM_eq_error h
  obtain ⟨q, hq, below⟩ := Expr.exists_of_transform_eq_error hleaf hfail
  exact ⟨q, List.mem_flatMap_of_mem he hq, below⟩

/-- A source fails at one of the selects below it. -/
theorem Source.exists_of_transform_eq_error {source : Source}
    (h : outcome (source.transform t depth) st = .error failure) :
    ∃ q ∈ source.selects ++ source.conditions.flatMap Expr.subqueries,
      ∃ st, outcome (q.transform t depth) st = .error failure := by
  induction source using Source.join_induction generalizing st with
  | table => exact absurd h outcome_pure_ne_error
  | subquery query =>
    rw [Source.transform, outcome_bind_eq_error_iff] at h
    rcases h with h | ⟨q, st₁, -, h⟩
    · exact ⟨query, by simp [Source.selects], st, h⟩
    · exact absurd h outcome_pure_ne_error
  | join kind left right condition hl hr =>
    simp only [Source.selects, Source.conditions, List.mem_append, List.flatMap_append] at hl hr ⊢
    rw [Source.transform, outcome_bind_eq_error_iff] at h
    rcases h with h | ⟨left', st₁, -, h⟩
    · obtain ⟨q, hq, below⟩ := hl h
      exact ⟨q, hq.elim (.inl ∘ .inl) (.inr ∘ .inl ∘ .inl), below⟩
    rw [outcome_bind_eq_error_iff] at h
    rcases h with h | ⟨right', st₂, -, h⟩
    · obtain ⟨q, hq, below⟩ := hr h
      exact ⟨q, hq.elim (.inl ∘ .inr) (.inr ∘ .inl ∘ .inr), below⟩
    rw [outcome_bind_eq_error_iff, Expr.transformOption_eq, outcome_bind_eq_error_iff] at h
    rcases h with (h | ⟨l, st₃, -, h⟩) | ⟨condition', st₃, -, h⟩
    · obtain ⟨q, hq, below⟩ := Expr.exists_of_mapM_eq_error hleaf h
      exact ⟨q, .inr (.inr hq), below⟩
    · exact absurd h outcome_pure_ne_error
    · exact absurd h outcome_pure_ne_error

/-- The parts of a select fail at one of the selects below it. -/
theorem Select.exists_of_transformParts_eq_error {s : Select}
    (h : outcome (s.transformParts t depth) st = .error failure) :
    ∃ q ∈ s.children, ∃ st, outcome (q.transform t (depth + 1)) st = .error failure := by
  have clause : ∀ e ∈ s.clauses, ∀ st, outcome (e.transform t (depth + 1)) st = .error failure →
      ∃ q ∈ s.children, ∃ st, outcome (q.transform t (depth + 1)) st = .error failure := by
    intro e he st h
    obtain ⟨q, hq, below⟩ := Expr.exists_of_transform_eq_error hleaf h
    exact ⟨q, List.mem_append_right _ (List.mem_flatMap_of_mem he hq), below⟩
  rw [Select.transformParts, outcome_bind_eq_error_iff] at h
  rcases h with h | ⟨source₁, st₁, -, h⟩
  · cases hs : s.source with
    | none =>
      rw [hs] at h
      exact absurd h outcome_pure_ne_error
    | some source =>
      rw [hs, Source.transformOption, outcome_bind_eq_error_iff] at h
      rcases h with h | ⟨source₁, st₁, -, h⟩
      · obtain ⟨q, hq, below⟩ := Source.exists_of_transform_eq_error hleaf h
        refine ⟨q, List.mem_append_left _ ?_, below⟩
        simpa [Select.sources, Select.conditions, hs] using hq
      · exact absurd h outcome_pure_ne_error
  rw [outcome_bind_eq_error_iff, Column.transformList_eq] at h
  rcases h with h | ⟨columns₁, stc, -, h⟩
  · obtain ⟨c, hc, stc, h⟩ := exists_of_outcome_mapM_eq_error h
    rw [outcome_bind_eq_error_iff] at h
    rcases h with h | ⟨_, _, -, h⟩
    · exact clause c.expr (Select.mem_clauses_of_columns hc) stc h
    · exact absurd h outcome_pure_ne_error
  rw [outcome_bind_eq_error_iff, Expr.transformOption_eq, outcome_bind_eq_error_iff] at h
  rcases h with (h | ⟨_, _, -, h⟩) | ⟨filter₁, stf, -, h⟩
  · obtain ⟨e, he, stf, h⟩ := exists_of_outcome_mapM_eq_error h
    exact clause e (Select.mem_clauses_of_filter (Option.mem_toList.1 he)) stf h
  · exact absurd h outcome_pure_ne_error
  rw [outcome_bind_eq_error_iff, OrderTerm.transformList_eq] at h
  rcases h with h | ⟨ordering₁, sto, -, h⟩
  · obtain ⟨term, hterm, sto, h⟩ := exists_of_outcome_mapM_eq_error h
    rw [outcome_bind_eq_error_iff] at h
    rcases h with h | ⟨_, _, -, h⟩
    · exact clause term.expr (Select.mem_clauses_of_ordering hterm) sto h
    · exact absurd h outcome_pure_ne_error
  rw [outcome_bind_eq_error_iff, Expr.transformList_eq] at h
  rcases h with h | ⟨grouping₁, stg, -, h⟩
  · obtain ⟨e, he, stg, h⟩ := exists_of_outcome_mapM_eq_error h
    exact clause e (Select.mem_clauses_of_grouping he) stg h
  rw [outcome_bind_eq_error_iff, Expr.transformList_eq] at h
  rcases h with h | ⟨clustering₁, stk, -, h⟩
  · obtain ⟨e, he, stk, h⟩ := exists_of_outcome_mapM_eq_error h
    exact clause e (Select.mem_clauses_of_clustering he) stk h
  exact absurd h outcome_pure_ne_error

/-- **A transformation fails only where its action on a select does.** -/
theorem Select.exists_of_transform_eq_error {s : Select}
    (h : outcome (s.transform t depth) st = .error failure) :
    ∃ q, s.Holds q ∧ ∃ depth st q₁ st₁, outcome (q.transformParts t depth) st = .ok (q₁, st₁) ∧
      outcome (t.select depth q₁) st₁ = .error failure := by
  induction s using Select.children_induction generalizing depth st with
  | step s ih =>
    rw [Select.transform_eq, outcome_bind_eq_error_iff] at h
    rcases h with h | ⟨s₁, st₁, hparts, h⟩
    · obtain ⟨c, hc, st₁, hfail⟩ := Select.exists_of_transformParts_eq_error hleaf h
      obtain ⟨q, hq, below⟩ := ih c hc hfail
      exact ⟨q, .child hc hq, below⟩
    · exact ⟨s, .self s, depth, st, s₁, st₁, hparts, h⟩

end Failures

/-! ### Queries -/

theorem Binding.of_outcome_transformList {bs bs' : List Binding} {st st' : σ}
    (h : outcome (Binding.transformList t bs) st = .ok (bs', st')) :
    outcome ((bs.map (·.expr)).mapM (Expr.transform t 0)) st = .ok (bs'.map (·.expr), st') := by
  induction bs generalizing st bs' with
  | nil =>
    obtain ⟨rfl, rfl⟩ := outcome_pure_eq_ok_iff.1 h
    exact outcome_mapM_nil_eq_ok_iff.2 ⟨rfl, rfl⟩
  | cons b bs ih =>
    obtain ⟨member, expr⟩ := b
    rw [Binding.transformList, outcome_bind_eq_ok_iff] at h
    obtain ⟨expr', st₁, hexpr, h⟩ := h
    rw [outcome_bind_eq_ok_iff] at h
    obtain ⟨bs₁, st₂, hbs, h⟩ := h
    obtain ⟨rfl, rfl⟩ := outcome_pure_eq_ok_iff.1 h
    exact outcome_mapM_cons_eq_ok_iff.2 ⟨expr', _, st₁, hexpr, ih hbs, rfl⟩

/-- Transforming a projector is transforming its expressions one after the other. -/
theorem Projector.of_outcome_transform {r r' : Projector} {st st' : σ}
    (h : outcome (r.transform t) st = .ok (r', st')) :
    outcome (r.exprs.mapM (Expr.transform t 0)) st = .ok (r'.exprs, st') := by
  cases r with
  | entity name bindings =>
    rw [Projector.transform, outcome_bind_eq_ok_iff] at h
    obtain ⟨bs, st₁, hbs, h⟩ := h
    obtain ⟨rfl, rfl⟩ := outcome_pure_eq_ok_iff.1 h
    exact Binding.of_outcome_transformList hbs
  | scalar expr =>
    rw [Projector.transform, outcome_bind_eq_ok_iff] at h
    obtain ⟨expr', st₁, hexpr, h⟩ := h
    obtain ⟨rfl, rfl⟩ := outcome_pure_eq_ok_iff.1 h
    exact outcome_mapM_cons_eq_ok_iff.2
      ⟨expr', [], st₁, hexpr, outcome_mapM_nil_eq_ok_iff.2 ⟨rfl, rfl⟩, rfl⟩

omit [LawfulMonad m] in
theorem Projector.of_transform_entity {r' : Projector} {st st' : σ} {name : String}
    {bindings : List Binding}
    (h : outcome ((Projector.entity name bindings).transform t) st = .ok (r', st')) :
    ∃ bindings', r' = .entity name bindings' ∧
      outcome (Binding.transformList t bindings) st = .ok (bindings', st') := by
  rw [Projector.transform, outcome_bind_eq_ok_iff] at h
  obtain ⟨bindings', st₁, hbindings, h⟩ := h
  obtain ⟨rfl, rfl⟩ := outcome_pure_eq_ok_iff.1 h
  exact ⟨bindings', rfl, hbindings⟩

omit [LawfulMonad m] in
/-- A projector stays one of the same entity. -/
theorem Projector.exists_of_transform_entity {r : Projector} {st st' : σ} {name : String}
    {bindings : List Binding} (h : outcome (r.transform t) st = .ok (.entity name bindings, st')) :
    ∃ bindings₀, r = .entity name bindings₀ := by
  cases r with
  | entity name₀ bindings₀ =>
    obtain ⟨_, same, -⟩ := Projector.of_transform_entity h
    obtain ⟨rfl, -⟩ := Projector.entity.inj same
    exact ⟨bindings₀, rfl⟩
  | scalar expr =>
    rw [Projector.transform, outcome_bind_eq_ok_iff] at h
    obtain ⟨_, _, -, h⟩ := h
    obtain ⟨same, -⟩ := outcome_pure_eq_ok_iff.1 h
    cases same

omit [LawfulMonad m] in
/-- The select of a query is transformed before its projector. -/
theorem Projection.of_outcome_transform {p p' : Projection} {st st' : σ}
    (h : outcome (p.transform t) st = .ok (p', st')) :
    ∃ st₁, outcome (p.select.transform t 0) st = .ok (p'.select, st₁) ∧
      outcome (p.projector.transform t) st₁ = .ok (p'.projector, st') := by
  rw [Projection.transform, outcome_bind_eq_ok_iff] at h
  obtain ⟨select, st₁, hselect, h⟩ := h
  rw [outcome_bind_eq_ok_iff] at h
  obtain ⟨projector, st₂, hprojector, h⟩ := h
  obtain ⟨rfl, rfl⟩ := outcome_pure_eq_ok_iff.1 h
  exact ⟨st₁, hselect, hprojector⟩

omit [LawfulMonad m] in
theorem Binding.exists_of_transformList_eq_error {bs : List Binding} {st : σ} {failure : Failure}
    (h : outcome (Binding.transformList t bs) st = .error failure) :
    ∃ b ∈ bs, ∃ st₁, outcome (b.expr.transform t 0) st₁ = .error failure := by
  induction bs generalizing st with
  | nil => exact absurd h outcome_pure_ne_error
  | cons b bs ih =>
    rw [Binding.transformList, outcome_bind_eq_error_iff] at h
    rcases h with h | ⟨_, st₁, -, h⟩
    · exact ⟨b, by simp, st, h⟩
    rw [outcome_bind_eq_error_iff] at h
    rcases h with h | ⟨_, st₂, -, h⟩
    · obtain ⟨b', hb', st₂, hfail⟩ := ih h
      exact ⟨b', by simp [hb'], st₂, hfail⟩
    · exact absurd h outcome_pure_ne_error

/-- **A query fails at one of its outermost selects**, if no leaf fails. -/
theorem Projection.exists_of_transform_eq_error
    (hleaf : ∀ e : Expr, e.isLeaf → ∀ st failure, outcome (t.leaf e) st ≠ .error failure)
    {p : Projection} {st : σ} {failure : Failure}
    (h : outcome (p.transform t) st = .error failure) :
    ∃ q ∈ p.select :: p.projector.exprs.flatMap Expr.subqueries, ∃ st,
      outcome (q.transform t 0) st = .error failure := by
  have expr : ∀ e ∈ p.projector.exprs, ∀ st, outcome (e.transform t 0) st = .error failure →
      ∃ q ∈ p.select :: p.projector.exprs.flatMap Expr.subqueries, ∃ st,
        outcome (q.transform t 0) st = .error failure := by
    intro e he st h
    obtain ⟨q, hq, below⟩ := Expr.exists_of_transform_eq_error hleaf h
    exact ⟨q, List.mem_cons_of_mem _ (List.mem_flatMap_of_mem he hq), below⟩
  rw [Projection.transform, outcome_bind_eq_error_iff] at h
  rcases h with h | ⟨select, st₁, -, h⟩
  · exact ⟨p.select, List.mem_cons_self, st, h⟩
  rw [outcome_bind_eq_error_iff] at h
  rcases h with h | ⟨projector, st₂, -, h⟩
  · cases hr : p.projector with
    | entity name bindings =>
      rw [hr] at expr
      rw [hr, Projector.transform, outcome_bind_eq_error_iff] at h
      rcases h with h | ⟨_, _, -, h⟩
      · obtain ⟨b, hb, st₂, hfail⟩ := Binding.exists_of_transformList_eq_error h
        exact expr b.expr (List.mem_map_of_mem hb) st₂ hfail
      · exact absurd h outcome_pure_ne_error
    | scalar e =>
      rw [hr] at expr
      rw [hr, Projector.transform, outcome_bind_eq_error_iff] at h
      rcases h with h | ⟨_, _, -, h⟩
      · exact expr e List.mem_cons_self st₁ h
      · exact absurd h outcome_pure_ne_error
  · exact absurd h outcome_pure_ne_error

/-- **A transformation whose actions do not fail does not fail.** -/
theorem Projection.transform_ne_error
    (hleaf : ∀ e : Expr, e.isLeaf → ∀ st failure, outcome (t.leaf e) st ≠ .error failure)
    (hselect : ∀ depth s st failure, outcome (t.select depth s) st ≠ .error failure)
    (p : Projection) (st : σ) (failure : Failure) :
    outcome (p.transform t) st ≠ .error failure := by
  intro h
  obtain ⟨s, -, st₁, hs⟩ := Projection.exists_of_transform_eq_error hleaf h
  obtain ⟨q, -, depth, _, q₁, st₂, -, hfail⟩ := Select.exists_of_transform_eq_error hleaf hs
  exact hselect depth q₁ st₂ failure hfail

end Transform

end HiveQuery
