import HiveQuery.Proofs.Tidy
import HiveQuery.Proofs.Traversal
/-!
# Descent into a tree

A transformation visits the selects directly below a select in a fixed order, hands its state on
from one to the next, and then acts on the select itself. This file packages that once: what it
makes of the parts of a select (`Select.of_transformParts`), and the induction that carries a
relation between old and new selects from the visited ones to the select above them
(`Select.transform_induction`). The nodes and the labels of a tree are laid out in the same order.
-/

namespace HiveQuery

open Outcome

/-! ## Steps one after another -/

/-- `Chain R st as bs st'`: the items `as` become `bs` one by one, each by a step of `R` from the
state that the step before it left. -/
inductive Chain {σ α β : Type} (R : σ → α → β → σ → Prop) : σ → List α → List β → σ → Prop
  | nil (st : σ) : Chain R st [] [] st
  | cons {st st₁ st' : σ} {a : α} {b : β} {as : List α} {bs : List β} (step : R st a b st₁)
      (rest : Chain R st₁ as bs st') : Chain R st (a :: as) (b :: bs) st'

namespace Chain

variable {σ α β : Type} {R S : σ → α → β → σ → Prop} {st st' : σ} {as : List α} {bs : List β}

/-- The steps of a chain may be weakened at the items that it starts from. -/
theorem imp (h : Chain R st as bs st')
    (weaken : ∀ a ∈ as, ∀ st b st', R st a b st' → S st a b st') : Chain S st as bs st' := by
  induction h with
  | nil st => exact .nil st
  | cons step _ ih =>
    simp only [List.forall_mem_cons] at weaken
    exact .cons (weaken.1 _ _ _ step) (ih weaken.2)

/-- Without the states a chain is a relation of the items one by one. -/
theorem forall₂ (h : Chain R st as bs st') :
    List.Forall₂ (fun a b => ∃ st st', R st a b st') as bs := by
  induction h with
  | nil => exact .nil
  | cons step _ ih => exact .cons ⟨_, _, step⟩ ih

/-- What every step keeps of the state is kept to the end. -/
theorem invariant {J : σ → Prop} (h : Chain R st as bs st')
    (keeps : ∀ a ∈ as, ∀ st b st', J st → R st a b st' → J st') (start : J st) : J st' := by
  induction h with
  | nil => exact start
  | cons step _ ih =>
    simp only [List.forall_mem_cons] at keeps
    exact ih keeps.2 (keeps.1 _ _ _ start step)

/-- The same with what every step keeps of the state. -/
theorem forall₂_keeping {J : σ → Prop} (h : Chain R st as bs st')
    (keeps : ∀ a ∈ as, ∀ st b st', J st → R st a b st' → J st') (start : J st) :
    List.Forall₂ (fun a b => ∃ st st', J st ∧ R st a b st') as bs := by
  induction h with
  | nil => exact .nil
  | cons step _ ih =>
    simp only [List.forall_mem_cons] at keeps
    exact .cons ⟨_, _, start, step⟩ (ih keeps.2 (keeps.1 _ _ _ start step))

/-- Every item at the end of a chain comes from one at its start, -/
theorem exists_of_mem (h : Chain R st as bs st') {b : β} (hb : b ∈ bs) :
    ∃ a ∈ as, ∃ st st', R st a b st' :=
  exists_of_forall₂_of_mem h.forall₂ hb

/-- and every item at its start becomes one at its end. -/
theorem exists_of_mem_left (h : Chain R st as bs st') {a : α} (ha : a ∈ as) :
    ∃ b ∈ bs, ∃ st st', R st a b st' :=
  exists_of_forall₂_of_mem_left h.forall₂ ha

end Chain

/-- Items that are treated one after the other make a chain. -/
theorem chain_of_outcome_mapM {m : Type → Type} [Monad m] [LawfulMonad m] {σ : Type} [Outcome m σ]
    {α β : Type} {f : α → m β} {as : List α} {bs : List β} {st st' : σ}
    (h : outcome (as.mapM f) st = .ok (bs, st')) :
    Chain (fun st a b st' => outcome (f a) st = .ok (b, st')) st as bs st' := by
  induction as generalizing st bs with
  | nil =>
    obtain ⟨rfl, rfl⟩ := outcome_mapM_nil_eq_ok_iff.1 h
    exact .nil _
  | cons a as ih =>
    obtain ⟨b, bs, st₁, hb, hbs, rfl⟩ := outcome_mapM_cons_eq_ok_iff.1 h
    exact .cons hb (ih hbs)

/-! ## The selects below, in the order in which they are visited -/

/-- The selects that a source holds directly, each side of a join before its condition. -/
def Source.visited : Source → List Select
  | table .. => []
  | subquery query => [query]
  | join _ left right condition =>
    left.visited ++ right.visited ++ condition.toList.flatMap Expr.subqueries

/-- The labels of the tables of a source. -/
def Source.tables : Source → List String
  | table _ label => [label]
  | subquery _ => []
  | join _ left right _ => left.tables ++ right.tables

private theorem perm_regroup {α : Type} (as bs cs ds : List α) :
    ((as ++ bs) ++ (cs ++ ds)).Perm ((as ++ cs) ++ (bs ++ ds)) := by
  rw [List.append_assoc, List.append_assoc]
  exact (List.perm_append_comm_assoc bs cs ds).append_left as

/-- A traversal visits the selects directly below a source, if not in the order of its sides and
conditions. -/
theorem Source.visited_perm (source : Source) :
    source.visited.Perm (source.selects ++ source.conditions.flatMap Expr.subqueries) := by
  induction source using join_induction with
  | table => exact .refl _
  | subquery => exact .refl _
  | join kind left right condition ihl ihr =>
    simp only [visited, selects, conditions, List.flatMap_append, ← List.append_assoc]
    exact .append_right _ ((ihl.append ihr).trans (by simpa using perm_regroup _ _ _ _))

/-- A source declares the labels of its tables and those of the selects in it. -/
theorem Source.labels_perm (source : Source) :
    source.labels.Perm (source.tables ++ source.visited.flatMap Select.labels) := by
  induction source using join_induction with
  | table => exact .refl _
  | subquery query => simp [labels_subquery, tables, visited]
  | join kind left right condition ihl ihr =>
    have subqueries : condition.toList.flatMap Expr.labels =
        (condition.toList.flatMap Expr.subqueries).flatMap Select.labels := by
      rw [List.flatMap_assoc]
      exact List.flatMap_congr fun e _ => e.labels_eq_flatMap
    rw [labels_join, subqueries]
    simp only [tables, visited, List.flatMap_append, ← List.append_assoc]
    exact .append_right _ ((ihl.append ihr).trans (by simpa using perm_regroup _ _ _ _))

namespace Select

/-- The selects directly below a select, those of its source first. -/
def visited (s : Select) : List Select :=
  s.source.toList.flatMap Source.visited ++ s.clauses.flatMap Expr.subqueries

/-- The labels of the tables that a select reads. -/
def tables (s : Select) : List String :=
  s.source.toList.flatMap Source.tables

/-- A traversal visits the selects directly below a select. -/
theorem visited_perm (s : Select) : s.visited.Perm s.children := by
  unfold visited children sources conditions
  refine .append_right _ ?_
  cases s.source with
  | none => exact .refl _
  | some source => simpa using source.visited_perm

theorem mem_visited_iff {s q : Select} : q ∈ s.visited ↔ q ∈ s.children :=
  s.visited_perm.mem_iff

/-- The labels that are declared below a select, its own tables among them. -/
def labelsBelow (s : Select) : List String :=
  s.tables ++ s.visited.flatMap Select.labels

/-- What a select below declares is declared below the select. -/
theorem labels_sublist_labelsBelow {s c : Select} (hc : c ∈ s.visited) :
    c.labels.Sublist s.labelsBelow :=
  (sublist_flatMap_of_mem hc labels).trans (List.sublist_append_right _ _)

/-- A select declares its own label and those below it. -/
theorem labels_perm (s : Select) : s.labels.Perm (s.label :: s.labelsBelow) := by
  have clauses : s.clauses.flatMap Expr.labels =
      (s.clauses.flatMap Expr.subqueries).flatMap Select.labels := by
    rw [List.flatMap_assoc]
    exact List.flatMap_congr fun e _ => e.labels_eq_flatMap
  rw [labels_eq, clauses, labelsBelow, visited, tables, List.flatMap_append, ← List.append_assoc]
  refine .cons _ (.append_right _ ?_)
  cases s.source with
  | none => exact .refl _
  | some source => simpa using source.labels_perm

theorem nodup_labelsBelow {s : Select} (h : s.labels.Nodup) : s.labelsBelow.Nodup :=
  (List.nodup_cons.1 (s.labels_perm.nodup_iff.1 h)).2

end Select

namespace Projection

/-- The selects of a query that no select encloses: its own, and those in its projector. -/
def visited (p : Projection) : List Select :=
  p.select :: p.projector.exprs.flatMap Expr.subqueries

/-- A query declares what the selects that nothing encloses declare. -/
theorem labels_eq_flatMap (p : Projection) : p.labels = p.visited.flatMap Select.labels := by
  rw [labels_eq, visited, List.flatMap_cons, List.flatMap_assoc,
    List.flatMap_congr fun e _ => e.labels_eq_flatMap]

/-- The selects of a query are those that its outermost ones hold. -/
theorem mem_nodes_iff_holds {p : Projection} {q : Select} :
    .select q ∈ p.nodes ↔ ∃ s ∈ p.visited, s.Holds q := by
  constructor
  · intro h
    rcases List.mem_append.1 h with h | h
    · exact ⟨p.select, List.mem_cons_self, Select.mem_nodes_iff_holds.1 h⟩
    · obtain ⟨e, he, h⟩ := List.mem_flatMap.1 h
      obtain ⟨s, hs, h⟩ := Expr.exists_subquery_of_mem_nodes h
      exact ⟨s, List.mem_cons_of_mem _ (List.mem_flatMap_of_mem he hs),
        Select.mem_nodes_iff_holds.1 h⟩
  · rintro ⟨s, hs, h⟩
    rcases List.mem_cons.1 hs with rfl | hs
    · exact List.mem_append_left _ h.mem_nodes
    · obtain ⟨e, he, hs⟩ := List.mem_flatMap.1 hs
      exact List.mem_append_right _
        (List.mem_flatMap_of_mem he (Expr.nodes_subset_of_mem_subqueries hs h.mem_nodes))

/-- A select directly below one of a query is one of the query. -/
theorem select_mem_nodes_of_child {p : Projection} {s c : Select}
    (h : .select s ∈ p.nodes) (hc : c ∈ s.children) : .select c ∈ p.nodes := by
  obtain ⟨root, hroot, holds⟩ := mem_nodes_iff_holds.1 h
  have inside := holds.nodes_subset (Select.Holds.child hc (.self c)).mem_nodes
  exact mem_nodes_iff_holds.2 ⟨root, hroot, Select.mem_nodes_iff_holds.1 inside⟩

end Projection

/-! ## Nodes below nodes -/

/-- Every expression of the list comes with all below it. -/
def Node.Closed (ns : List Node) : Prop :=
  ∀ e, .expr e ∈ ns → e.nodes ⊆ ns

/-- An expression may be added to a closed list if its nodes are. -/
theorem Node.Closed.cons {n : Node} {ns : List Node} (h : Closed ns)
    (here : ∀ e, n = .expr e → e.nodes ⊆ n :: ns) : Closed (n :: ns) := by
  intro e he
  rcases List.mem_cons.1 he with rfl | he
  · exact here e rfl
  · exact List.Subset.trans (h e he) (List.subset_cons_self _ _)

theorem Node.Closed.append {ms ns : List Node} (h : Closed ms) (h' : Closed ns) :
    Closed (ms ++ ns) := by
  intro e he
  rcases List.mem_append.1 he with he | he
  · exact List.Subset.trans (h e he) (List.subset_append_left _ _)
  · exact List.Subset.trans (h' e he) (List.subset_append_right _ _)

/-- Closed lists make a closed one. -/
theorem Node.closed_flatMap {α : Type} {f : α → List Node} {as : List α}
    (h : ∀ a ∈ as, Closed (f a)) : Closed (as.flatMap f) := by
  intro e he
  obtain ⟨a, ha, he⟩ := List.mem_flatMap.1 he
  exact List.Subset.trans (h a ha e he) fun n hn => List.mem_flatMap_of_mem ha hn

/-- The nodes of an expression are closed, if those of its subqueries are. -/
theorem Expr.closed_nodes {e : Expr} (below : ∀ q ∈ e.subqueries, Node.Closed q.nodes) :
    Node.Closed e.nodes := by
  induction e using parts_induction with
  | step e ih =>
    rw [subqueries_eq] at below
    simp only [List.forall_mem_append, List.forall_mem_flatMap] at below
    have parts : Node.Closed (e.parts.flatMap nodes) :=
      Node.closed_flatMap fun p hp => ih p hp (below.1 p hp)
    rw [nodes_eq]
    refine (parts.append (Node.closed_flatMap below.2)).cons fun e' same => ?_
    rw [← Node.expr.inj same, nodes_eq]
    exact List.Subset.refl _

/-- The nodes of a source are closed, if those of its subqueries are. -/
theorem Source.closed_nodes {source : Source}
    (below : ∀ q ∈ source.visited, Node.Closed q.nodes) : Node.Closed source.nodes := by
  induction source using join_induction with
  | table => simp [Node.Closed, nodes]
  | subquery query =>
    exact (below query (List.mem_singleton_self _)).cons fun _ same => by cases same
  | join kind left right condition ihl ihr =>
    simp only [visited, List.forall_mem_append, List.forall_mem_flatMap] at below
    rw [nodes, Expr.nodesOption_eq]
    have conditions : Node.Closed (condition.toList.flatMap Expr.nodes) :=
      Node.closed_flatMap fun e he => Expr.closed_nodes (below.2 e he)
    exact (((ihl below.1.1).append (ihr below.1.2)).append conditions).cons
      fun _ same => by cases same

/-- **An expression below a select brings all below it along.** -/
theorem Select.closed_nodes (s : Select) : Node.Closed s.nodes := by
  induction s using children_induction with
  | step s ih =>
    have below : ∀ q ∈ s.visited, Node.Closed q.nodes := fun q hq => ih q (mem_visited_iff.1 hq)
    simp only [visited, List.forall_mem_append, List.forall_mem_flatMap] at below
    rw [nodes_eq]
    have source : Node.Closed (s.source.toList.flatMap Source.nodes) :=
      Node.closed_flatMap fun source hs => Source.closed_nodes (below.1 source hs)
    have clauses : Node.Closed (s.clauses.flatMap Expr.nodes) :=
      Node.closed_flatMap fun e he => Expr.closed_nodes (below.2 e he)
    exact (source.append clauses).cons fun _ same => by cases same

/-- **A query lists with an expression all below it.** -/
theorem Projection.closed_nodes (p : Projection) : Node.Closed p.nodes :=
  p.select.closed_nodes.append
    (Node.closed_flatMap fun _ _ => Expr.closed_nodes fun q _ => q.closed_nodes)

/-! ## What a transformation makes of the parts of a select -/

section Transform

variable {m : Type → Type} [Monad m] [LawfulMonad m] {σ : Type} [Outcome m σ]
variable {t : Transform m} {depth : Nat} {st st' : σ}

/-- A transformation that leaves its state alone at a leaf and makes a leaf of the same kind of
it. -/
def Transform.KeepsLeaves (t : Transform m) : Prop :=
  ∀ e : Expr, e.isLeaf → ∀ (st : σ) e' st', outcome (t.leaf e) st = .ok (e', st') →
    st' = st ∧ e'.isLeaf ∧ e'.ref?.isSome = e.ref?.isSome ∧
      (Node.expr e').isNaN = (Node.expr e).isNaN

omit [LawfulMonad m] in
/-- A transformation that leaves every leaf alone keeps them. -/
theorem Transform.keepsLeaves_of_pure (h : ∀ e : Expr, t.leaf e = pure e) : t.KeepsLeaves := by
  intro e hleaf st e' st' hrun
  rw [h] at hrun
  obtain ⟨rfl, rfl⟩ := outcome_pure_eq_ok_iff.1 hrun
  exact ⟨rfl, hleaf, rfl, rfl⟩

/-- The transformation has made the second expression of the first, from some state. -/
def Expr.Becomes (t : Transform m) (depth : Nat) (e e' : Expr) : Prop :=
  ∃ st st' : σ, outcome (e.transform t depth) st = .ok (e', st')

/-- Two selects that differ in the selects of their sources and in their expressions alone, which
stand in a relation one by one. -/
structure Select.Mirrors (R : Expr → Expr → Prop) (s s' : Select) : Prop extends s.Alike R s' where
  conditions : List.Forall₂ R s.conditions s'.conditions
  tables : s'.tables = s.tables

/-- Related options are related lists of at most one item. -/
theorem forall₂_toList {α β : Type} {R : α → β → Prop} {o : Option α} {o' : Option β}
    (h : Option.Rel R o o') : List.Forall₂ R o.toList o'.toList := by
  cases h with
  | none => exact .nil
  | some hr => exact .cons hr .nil

/-- The clauses of two selects that mirror each other are related place by place. -/
theorem Select.Mirrors.clauses {R : Expr → Expr → Prop} {s s' : Select} (h : s.Mirrors R s') :
    List.Forall₂ R s.clauses s'.clauses := by
  have columns : List.Forall₂ R (s.columns.map (·.expr)) (s'.columns.map (·.expr)) :=
    List.forall₂_map_right_iff.2 (List.forall₂_map_left_iff.2
      (h.columns.imp fun _ _ alike => alike.2.2))
  have ordering : List.Forall₂ R (s.ordering.map (·.expr)) (s'.ordering.map (·.expr)) :=
    List.forall₂_map_right_iff.2 (List.forall₂_map_left_iff.2
      (h.ordering.imp fun _ _ alike => alike.2))
  exact List.rel_append (List.rel_append (List.rel_append (List.rel_append columns
    (forall₂_toList h.filter)) ordering) h.grouping) h.clustering

variable (leaves : t.KeepsLeaves)
include leaves

/-- The subqueries of an expression are transformed in their order. -/
theorem Expr.subqueries_of_transform {e e' : Expr}
    (h : outcome (e.transform t depth) st = .ok (e', st')) :
    outcome (e.subqueries.mapM (Select.transform t depth)) st = .ok (e'.subqueries, st') := by
  have follows : e.Follows t depth (fun _ => True) (fun _ _ => True) := by
    refine Expr.follows_transform (fun e hleaf st e' st' _ hrun => ?_) e
      fun _ _ _ _ _ _ _ => trivial
    obtain ⟨same, hleaf', href, -⟩ := leaves e hleaf st e' st' hrun
    refine ⟨same, hleaf', ?_⟩
    generalize e.ref? = r, e'.ref? = r' at href
    cases r <;> cases r' <;> simp at href
    · exact .none
    · exact .some trivial
  exact (follows st e' st' trivial h).2.1

/-- Transforming expressions one by one is transforming their subqueries one by one. -/
theorem Expr.subqueries_of_mapM {es es' : List Expr}
    (h : outcome (es.mapM (Expr.transform t depth)) st = .ok (es', st')) :
    outcome ((es.flatMap Expr.subqueries).mapM (Select.transform t depth)) st =
      .ok (es'.flatMap Expr.subqueries, st') := by
  induction es generalizing st es' with
  | nil =>
    obtain ⟨rfl, rfl⟩ := outcome_mapM_nil_eq_ok_iff.1 h
    exact outcome_mapM_nil_eq_ok_iff.2 ⟨rfl, rfl⟩
  | cons e es ih =>
    obtain ⟨e', es', st₁, he, hes, rfl⟩ := outcome_mapM_cons_eq_ok_iff.1 h
    exact outcome_mapM_append_eq_ok_iff.2
      ⟨_, _, st₁, Expr.subqueries_of_transform leaves he, ih hes, rfl⟩

/-- The selects of a source are transformed in the order in which they are visited. -/
theorem Source.of_transform {source source' : Source}
    (h : outcome (source.transform t depth) st = .ok (source', st')) :
    outcome (source.visited.mapM (Select.transform t depth)) st = .ok (source'.visited, st') ∧
      List.Forall₂ (Expr.Becomes t depth) source.conditions source'.conditions ∧
      source'.tables = source.tables := by
  induction source using Source.join_induction generalizing source' st st' with
  | table name label =>
    obtain ⟨rfl, rfl⟩ := outcome_pure_eq_ok_iff.1 h
    exact ⟨outcome_mapM_nil_eq_ok_iff.2 ⟨rfl, rfl⟩, .nil, rfl⟩
  | subquery query =>
    obtain ⟨query', rfl, hquery⟩ := Source.of_outcome_transform_subquery h
    exact ⟨outcome_mapM_cons_eq_ok_iff.2
      ⟨query', [], st', hquery, outcome_mapM_nil_eq_ok_iff.2 ⟨rfl, rfl⟩, rfl⟩, .nil, rfl⟩
  | join kind left right condition ihl ihr =>
    obtain ⟨left', right', condition', st₁, st₂, rfl, hleft, hright, hcondition, -⟩ :=
      Source.of_outcome_transform_join h
    obtain ⟨leftVisited, leftConditions, leftTables⟩ := ihl hleft
    obtain ⟨rightVisited, rightConditions, rightTables⟩ := ihr hright
    refine ⟨?_, ?_, ?_⟩
    · exact outcome_mapM_append_eq_ok_iff.2 ⟨_, _, st₂, outcome_mapM_append_eq_ok_iff.2
        ⟨_, _, st₁, leftVisited, rightVisited, rfl⟩, Expr.subqueries_of_mapM leaves hcondition, rfl⟩
    · exact List.rel_append (List.rel_append leftConditions rightConditions)
        (forall₂_of_outcome_mapM hcondition)
    · rw [Source.tables, Source.tables, leftTables, rightTables]

namespace Select

/-- **What a transformation makes of the parts of a select**: the selects below are transformed in
the order in which they are visited, and the rest of the select is as it was. -/
theorem of_transformParts {s s₁ : Select}
    (h : outcome (s.transformParts t depth) st = .ok (s₁, st')) :
    outcome (s.visited.mapM (Select.transform t (depth + 1))) st = .ok (s₁.visited, st') ∧
      s.Mirrors (Expr.Becomes t (depth + 1)) s₁ := by
  obtain ⟨st₁, hsource, hclauses, alike⟩ := Select.of_outcome_transformParts h
  have below : outcome ((s.source.toList.flatMap Source.visited).mapM
        (Select.transform t (depth + 1))) st =
        .ok (s₁.source.toList.flatMap Source.visited, st₁) ∧
      List.Forall₂ (Expr.Becomes t (depth + 1)) s.conditions s₁.conditions ∧
      s₁.tables = s.tables := by
    unfold Select.conditions Select.tables
    rcases Source.of_outcome_transformOption hsource with
      ⟨hs, hs₁, rfl⟩ | ⟨source, source₁, hs, hs₁, hsource⟩
    · rw [hs, hs₁]
      exact ⟨outcome_mapM_nil_eq_ok_iff.2 ⟨rfl, rfl⟩, .nil, rfl⟩
    · rw [hs, hs₁]
      simpa using Source.of_transform leaves hsource
  obtain ⟨visited, conditions, tables⟩ := below
  exact ⟨outcome_mapM_append_eq_ok_iff.2
    ⟨_, _, st₁, visited, Expr.subqueries_of_mapM leaves hclauses, rfl⟩, alike, conditions, tables⟩

/-- **Induction over a transformation.** A relation between the selects before and after holds of
every run if it passes from the visited selects to the select above them, whose own action then
starts in the state that they left. -/
theorem transform_induction {R : Nat → σ → Select → Select → σ → Prop}
    (step : ∀ depth s s₁ s' st st₁ st', Chain (R (depth + 1)) st s.visited s₁.visited st₁ →
      s.Mirrors (Expr.Becomes t (depth + 1)) s₁ →
      outcome (t.select depth s₁) st₁ = .ok (s', st') → R depth st s s' st')
    {s s' : Select} (h : outcome (s.transform t depth) st = .ok (s', st')) :
    R depth st s s' st' := by
  induction s using children_induction generalizing depth st st' s' with
  | step s ih =>
    rw [Select.transform_eq, outcome_bind_eq_ok_iff] at h
    obtain ⟨s₁, st₁, hparts, hact⟩ := h
    obtain ⟨visited, mirrors⟩ := of_transformParts leaves hparts
    have chain := (chain_of_outcome_mapM visited).imp fun c hc st c' st' hrun =>
      ih c (mem_visited_iff.1 hc) hrun
    exact step depth s s₁ s' st st₁ st' chain mirrors hact

/-- A select that the action leaves alone differs in what is below it and in its expressions. -/
theorem mirrors_of_transform {s s' : Select}
    (alone : ∀ s₁ (st : σ) st', s₁.label = s.label →
      outcome (t.select depth s₁) st = .ok (s', st') → s' = s₁)
    (h : outcome (s.transform t depth) st = .ok (s', st')) :
    s.Mirrors (Expr.Becomes t (depth + 1)) s' := by
  rw [Select.transform_eq, outcome_bind_eq_ok_iff] at h
  obtain ⟨s₁, st₁, hparts, hact⟩ := h
  obtain ⟨-, mirrors⟩ := of_transformParts leaves hparts
  obtain rfl := alone s₁ st₁ st' mirrors.label hact
  exact mirrors

end Select

/-! ## Expressions -/

omit leaves [LawfulMonad m] in
/-- What is done to its parts leaves an expression what it is. -/
theorem Expr.exists_withParts_of_traverseParts {f : Expr → m Expr} {g : Select → m Select}
    {e e' : Expr} (h : outcome (e.traverseParts f g) st = .ok (e', st')) :
    ∃ ps query, e' = e.withParts ps query := by
  rw [Expr.traverseParts, outcome_bind_eq_ok_iff] at h
  obtain ⟨ps, st₁, -, h⟩ := h
  rw [outcome_bind_eq_ok_iff] at h
  obtain ⟨qs, st₂, -, h⟩ := h
  exact ⟨ps, _, (outcome_pure_eq_ok_iff.1 h).1.symm⟩

namespace Expr.Becomes

variable {e e' : Expr}

/-- The subqueries of what an expression becomes are those of the expression, transformed. -/
theorem subqueries (h : e.Becomes t depth e') :
    List.Forall₂ (fun q q' => ∃ st st' : σ, outcome (q.transform t depth) st = .ok (q', st'))
      e.subqueries e'.subqueries := by
  obtain ⟨st, st', h⟩ := h
  exact forall₂_of_outcome_mapM (Expr.subqueries_of_transform leaves h)

/-- A transformation makes no subquery and removes none. -/
theorem subqueries_eq_nil_iff (h : e.Becomes t depth e') :
    e'.subqueries = [] ↔ e.subqueries = [] := by
  rw [← List.length_eq_zero_iff, ← List.length_eq_zero_iff, (h.subqueries leaves).length_eq]

/-- A subquery becomes a subquery, and nothing else does. -/
theorem query?_isNone (h : e.Becomes t depth e') : e'.query?.isNone = e.query?.isNone := by
  obtain ⟨st, st', h⟩ := h
  rw [Expr.transform_eq] at h
  by_cases hleaf : e.isLeaf
  · rw [if_pos hleaf] at h
    obtain ⟨-, hleaf', -⟩ := leaves e hleaf st e' st' h
    rw [Expr.query?_of_isLeaf hleaf, Expr.query?_of_isLeaf hleaf']
  · rw [if_neg hleaf] at h
    obtain ⟨st₁, -, hquery, -⟩ := Expr.of_outcome_traverseParts h
    have length := length_of_outcome_mapM hquery
    cases hq : e.query? <;> cases hq' : e'.query? <;> simp_all

/-- What is inherent in the nodes of an expression is lost in its subqueries alone. -/
theorem allNodes {P : Node → Prop} (inherent : Node.Inherent P) (h : e.Becomes t depth e')
    (all : e.AllNodes P) (below : ∀ q ∈ e'.subqueries, q.AllNodes P) : e'.AllNodes P := by
  induction e using Expr.parts_induction generalizing e' with
  | step e ih =>
    obtain ⟨st, st', h⟩ := h
    rw [Expr.transform_eq] at h
    obtain ⟨own, parts, -⟩ := Expr.allNodes_iff.1 all
    by_cases hleaf : e.isLeaf
    · rw [if_pos hleaf] at h
      obtain ⟨-, hleaf', -, same⟩ := leaves e hleaf st e' st' h
      refine Expr.allNodes_iff.2 ⟨inherent.congr same ?_ own, ?_, ?_⟩
      · rw [Node.resource?_of_isLeaf hleaf, Node.resource?_of_isLeaf hleaf']
      · simp [Expr.parts_of_isLeaf hleaf']
      · simp [Expr.query?_of_isLeaf hleaf']
    · rw [if_neg hleaf] at h
      obtain ⟨st₁, hparts, -⟩ := Expr.of_outcome_traverseParts h
      obtain ⟨ps, query, rebuilt⟩ := Expr.exists_withParts_of_traverseParts h
      rw [Expr.subqueries_eq] at below
      simp only [List.forall_mem_append, List.forall_mem_flatMap, Option.mem_toList] at below
      refine Expr.allNodes_iff.2
        ⟨rebuilt ▸ inherent.withParts own ps query, fun p' hp' => ?_, below.2⟩
      obtain ⟨p, hp, hbecomes⟩ := exists_of_forall₂_of_mem (forall₂_of_outcome_mapM hparts) hp'
      exact ih p hp hbecomes (parts p hp) (below.1 p' hp')

/-- An expression gets a NaN in its subqueries alone. -/
theorem naNFree (h : e.Becomes t depth e') (free : e.NaNFree)
    (below : ∀ q ∈ e'.subqueries, q.NaNFree) : e'.NaNFree :=
  h.allNodes leaves Node.inherent_isNaN free below

/-- An expression loses a NaN in its subqueries alone. -/
theorem naNFree_of (h : e.Becomes t depth e') (free : e'.NaNFree)
    (below : ∀ q ∈ e.subqueries, q.NaNFree) : e.NaNFree := by
  induction e using Expr.parts_induction generalizing e' with
  | step e ih =>
    obtain ⟨st, st', h⟩ := h
    rw [Expr.transform_eq] at h
    obtain ⟨literal, parts', -⟩ := Expr.naNFree_iff.1 free
    by_cases hleaf : e.isLeaf
    · rw [if_pos hleaf] at h
      obtain ⟨-, -, -, same⟩ := leaves e hleaf st e' st' h
      refine Expr.naNFree_iff.2 ⟨same.symm.trans literal, ?_, ?_⟩
      · simp [Expr.parts_of_isLeaf hleaf]
      · simp [Expr.query?_of_isLeaf hleaf]
    · rw [if_neg hleaf] at h
      obtain ⟨st₁, hparts, -⟩ := Expr.of_outcome_traverseParts h
      rw [Expr.subqueries_eq] at below
      simp only [List.forall_mem_append, List.forall_mem_flatMap, Option.mem_toList] at below
      have number : (Node.expr e).isNaN = false := by
        cases e with
        | literal => exact absurd rfl hleaf
        | _ => rfl
      refine Expr.naNFree_iff.2 ⟨number, fun p hp => ?_, below.2⟩
      obtain ⟨p', hp', hbecomes⟩ :=
        exists_of_forall₂_of_mem_left (forall₂_of_outcome_mapM hparts) hp
      exact ih p hp hbecomes (parts' p' hp') (below.1 p hp)

end Expr.Becomes

/-! ## Selects -/

namespace Select

variable {s s' : Select}

/-- An inherent property that holds below the new select, and held of the old one, holds of the new
one. -/
theorem Mirrors.allNodes {P : Node → Prop} (inherent : Node.Inherent P)
    (h : s.Mirrors (Expr.Becomes t depth) s') (all : s.AllNodes P)
    (below : ∀ q ∈ s'.children, q.AllNodes P) : s'.AllNodes P := by
  obtain ⟨-, conditions, clauses⟩ := (Select.allNodes_iff inherent).1 all
  simp only [children, List.forall_mem_append, List.forall_mem_flatMap] at below
  obtain ⟨⟨sources, inConditions⟩, inClauses⟩ := below
  refine (Select.allNodes_iff inherent).2 ⟨sources, fun e' he' => ?_, fun e' he' => ?_⟩
  · obtain ⟨e, he, hbecomes⟩ := exists_of_forall₂_of_mem h.conditions he'
    exact hbecomes.allNodes leaves inherent (conditions e he) (inConditions e' he')
  · obtain ⟨e, he, hbecomes⟩ := exists_of_forall₂_of_mem h.clauses he'
    exact hbecomes.allNodes leaves inherent (clauses e he) (inClauses e' he')

theorem Mirrors.naNFree (h : s.Mirrors (Expr.Becomes t depth) s') (free : s.NaNFree)
    (below : ∀ q ∈ s'.children, q.NaNFree) : s'.NaNFree :=
  h.allNodes leaves Node.inherent_isNaN free below

/-- A select whose parts have lost no NaN below had none. -/
theorem Mirrors.naNFree_of (h : s.Mirrors (Expr.Becomes t depth) s') (free : s'.NaNFree)
    (below : ∀ q ∈ s.children, q.NaNFree) : s.NaNFree := by
  obtain ⟨-, conditions, clauses⟩ := Select.naNFree_iff.1 free
  simp only [children, List.forall_mem_append, List.forall_mem_flatMap] at below
  obtain ⟨⟨sources, inConditions⟩, inClauses⟩ := below
  refine Select.naNFree_iff.2 ⟨sources, fun e he => ?_, fun e he => ?_⟩
  · obtain ⟨e', he', hbecomes⟩ := exists_of_forall₂_of_mem_left h.conditions he
    exact hbecomes.naNFree_of leaves (conditions e' he') (inConditions e he)
  · obtain ⟨e', he', hbecomes⟩ := exists_of_forall₂_of_mem_left h.clauses he
    exact hbecomes.naNFree_of leaves (clauses e' he') (inClauses e he)

/-- **A transformation keeps what is inherent in the nodes** if its action on a select does. -/
theorem AllNodes.of_transform {P : Node → Prop} (inherent : Node.Inherent P)
    (act : ∀ depth s (st : σ) s' st', s.AllNodes P →
      outcome (t.select depth s) st = .ok (s', st') → s'.AllNodes P)
    (all : s.AllNodes P) (h : outcome (s.transform t depth) st = .ok (s', st')) :
    s'.AllNodes P := by
  have run : s.AllNodes P → s'.AllNodes P := by
    refine transform_induction leaves (R := fun _ _ s s' _ => s.AllNodes P → s'.AllNodes P) ?_ h
    intro depth s s₁ s' st st₁ st' chain mirrors hact all
    refine act depth s₁ st₁ s' st' (mirrors.allNodes leaves inherent all fun q hq => ?_) hact
    obtain ⟨q₀, hq₀, _, _, kept⟩ := chain.exists_of_mem (mem_visited_iff.2 hq)
    exact kept (all.child inherent (mem_visited_iff.1 hq₀))
  exact run all

end Select

/-! ## Queries -/

/-- Transforming a query is transforming its outermost selects one after the other. -/
theorem Projection.of_transform {p p' : Projection}
    (h : outcome (p.transform t) st = .ok (p', st')) :
    outcome (p.visited.mapM (Select.transform t 0)) st = .ok (p'.visited, st') := by
  obtain ⟨st₁, hselect, hprojector⟩ := Projection.of_outcome_transform h
  exact outcome_mapM_cons_eq_ok_iff.2 ⟨_, _, st₁, hselect,
    Expr.subqueries_of_mapM leaves (Projector.of_outcome_transform hprojector), rfl⟩

/-- **An inherent property that the action keeps is kept by the whole transformation.** -/
theorem Projection.AllNodes.of_transform {P : Node → Prop} (inherent : Node.Inherent P)
    (act : ∀ depth s (st : σ) s' st', s.AllNodes P →
      outcome (t.select depth s) st = .ok (s', st') → s'.AllNodes P)
    {p p' : Projection} (all : p.AllNodes P) (h : outcome (p.transform t) st = .ok (p', st')) :
    p'.AllNodes P := by
  obtain ⟨select, exprs⟩ := Projection.allNodes_iff.1 all
  obtain ⟨st₁, hselect, hprojector⟩ := Projection.of_outcome_transform h
  refine Projection.allNodes_iff.2
    ⟨select.of_transform leaves inherent act hselect, fun e' he' => ?_⟩
  obtain ⟨e, he, hbecomes⟩ := exists_of_forall₂_of_mem
    (forall₂_of_outcome_mapM (Projector.of_outcome_transform hprojector)) he'
  refine Expr.Becomes.allNodes leaves inherent hbecomes (exprs e he) fun q' hq' => ?_
  obtain ⟨q, hq, _, _, hrun⟩ :=
    exists_of_forall₂_of_mem (Expr.Becomes.subqueries leaves hbecomes) hq'
  exact ((exprs e he).subquery hq).of_transform leaves inherent act hrun

end Transform

/-! ## Columns that are dropped -/

namespace Select

variable {s : Select} {cs : List Column} (h : ∀ c ∈ cs, ∃ c₀ ∈ s.columns, c.expr = c₀.expr)
include h

/-- A select with columns of some of its own expressions has no new clause, -/
theorem clauses_subset_of_columns : ({ s with columns := cs } : Select).clauses ⊆ s.clauses := by
  intro e he
  simp only [clauses, List.append_assoc, List.mem_append, List.mem_map] at he ⊢
  refine he.imp_left ?_
  rintro ⟨c, hc, rfl⟩
  obtain ⟨c₀, hc₀, same⟩ := h c hc
  exact ⟨c₀, hc₀, same.symm⟩

/-- nothing new below it -/
theorem children_subset_of_columns : ({ s with columns := cs } : Select).children ⊆ s.children := by
  intro q hq
  simp only [children, List.mem_append, List.mem_flatMap] at hq ⊢
  refine hq.imp_right ?_
  rintro ⟨e, he, hq⟩
  exact ⟨e, clauses_subset_of_columns h he, hq⟩

/-- and no node of a new kind. -/
theorem AllNodes.of_columns {P : Node → Prop} (inherent : Node.Inherent P) (all : s.AllNodes P) :
    ({ s with columns := cs } : Select).AllNodes P :=
  all.of_source inherent rfl fun _ he => all.clause inherent (clauses_subset_of_columns h he)

end Select

section Thins

variable {m : Type → Type} [Monad m] [LawfulMonad m] {σ : Type} [Outcome m σ]
variable {t : Transform m} {depth : Nat} {st st' : σ} {s s' : Select}

/-- A transformation that does no more to a select than to drop some of its columns. -/
structure Transform.Thins (t : Transform m) : Prop where
  leaves : t.KeepsLeaves
  select : ∀ depth s (st : σ) s' st', outcome (t.select depth s) st = .ok (s', st') →
    ∃ cs, cs.Sublist s.columns ∧ s' = { s with columns := cs }

/-- **What survives the loss of columns survives the transformation**, in the select and in the
selects below it. -/
theorem Transform.Thins.keeps (thins : t.Thins) {P : Select → Prop}
    (stable : ∀ depth s s₁ cs, P s → s.Mirrors (Expr.Becomes t depth) s₁ →
      cs.Sublist s₁.columns → P { s₁ with columns := cs })
    (h : outcome (s.transform t depth) st = .ok (s', st')) :
    (P s → P s') ∧
      ((∀ c ∈ s.children, c.Everywhere P) → ∀ c ∈ s'.children, c.Everywhere P) := by
  refine Select.transform_induction thins.leaves (R := fun _ _ s s' _ => (P s → P s') ∧
    ((∀ c ∈ s.children, c.Everywhere P) → ∀ c ∈ s'.children, c.Everywhere P)) ?_ h
  intro depth s s₁ s' st st₁ st' chain mirrors hact
  obtain ⟨cs, sublist, rfl⟩ := thins.select depth s₁ st₁ s' st' hact
  refine ⟨fun here => stable _ s s₁ cs here mirrors sublist, fun below c hc => ?_⟩
  have hc₁ := Select.children_subset_of_columns (fun c hc => ⟨c, sublist.subset hc, rfl⟩) hc
  obtain ⟨c₀, hc₀, _, _, kept, keptBelow⟩ := chain.exists_of_mem (Select.mem_visited_iff.2 hc₁)
  obtain ⟨here₀, below₀⟩ := Select.everywhere_iff.1 (below c₀ (Select.mem_visited_iff.1 hc₀))
  exact Select.everywhere_iff.2 ⟨kept here₀, keptBelow below₀⟩

omit [LawfulMonad m] in
/-- A select that loses columns keeps what holds of all its nodes. -/
theorem Transform.Thins.allNodes (thins : t.Thins) {P : Node → Prop} (inherent : Node.Inherent P)
    (all : s.AllNodes P) (h : outcome (t.select depth s) st = .ok (s', st')) : s'.AllNodes P := by
  obtain ⟨cs, sublist, rfl⟩ := thins.select depth s st s' st' h
  exact Select.AllNodes.of_columns (fun c hc => ⟨c, sublist.subset hc, rfl⟩) inherent all

/-- Dropping columns brings no NaN. -/
theorem Select.NaNFree.of_thins (free : s.NaNFree) (thins : t.Thins)
    (h : outcome (s.transform t depth) st = .ok (s', st')) : s'.NaNFree :=
  Select.AllNodes.of_transform thins.leaves Node.inherent_isNaN
    (fun _ _ _ _ _ => thins.allNodes Node.inherent_isNaN) free h

end Thins

/-! ## Trees that a transformation leaves alone -/

section Alone

variable {m : Type → Type} [Monad m] [LawfulMonad m] {σ : Type} [Outcome m σ]
variable {t : Transform m} {depth : Nat} {st st' : σ} (hleaf : ∀ e : Expr, t.leaf e = pure e)
include hleaf

/-- A source is what it was if the selects below it are. -/
theorem Source.eq_of_transform {source source' : Source}
    (below : ∀ q ∈ source.visited, ∀ (st : σ) q' st',
      outcome (q.transform t depth) st = .ok (q', st') → q' = q)
    (h : outcome (source.transform t depth) st = .ok (source', st')) : source' = source := by
  induction source using Source.join_induction generalizing source' st st' with
  | table name label => exact (outcome_pure_eq_ok_iff.1 h).1.symm
  | subquery query =>
    obtain ⟨query', rfl, hquery⟩ := Source.of_outcome_transform_subquery h
    rw [below query (List.mem_singleton_self _) _ _ _ hquery]
  | join kind left right condition ihl ihr =>
    simp only [visited, List.forall_mem_append, List.forall_mem_flatMap] at below
    obtain ⟨left', right', condition', st₁, st₂, rfl, hleft, hright, -, hcondition⟩ :=
      Source.of_outcome_transform_join h
    have same : condition' = condition := by
      refine eq_of_rel hcondition ?_
      rintro e he e' ⟨_, _, run⟩
      exact Expr.eq_of_transform_subqueries hleaf (below.2 e (Option.mem_toList.2 he)) run
    rw [ihl below.1.1 hleft, ihr below.1.2 hright, same]

/-- **A transformation whose action leaves every select of a tree alone leaves the tree alone.** -/
theorem Select.eq_of_transform {s s' : Select}
    (alone : s.Everywhere fun q => ∀ depth (st : σ) q' st',
      outcome (t.select depth q) st = .ok (q', st') → q' = q)
    (h : outcome (s.transform t depth) st = .ok (s', st')) : s' = s := by
  induction s using children_induction generalizing s' depth st st' with
  | step s ih =>
    obtain ⟨here, inner⟩ := everywhere_iff.1 alone
    have below : ∀ q ∈ s.visited, ∀ (st : σ) q' st',
        outcome (q.transform t (depth + 1)) st = .ok (q', st') → q' = q :=
      fun q hq st q' st' hrun => ih q (mem_visited_iff.1 hq) (inner q (mem_visited_iff.1 hq)) hrun
    simp only [visited, List.forall_mem_append, List.forall_mem_flatMap] at below
    rw [Select.transform_eq, outcome_bind_eq_ok_iff] at h
    obtain ⟨s₁, st₁, hparts, hact⟩ := h
    obtain ⟨st₂, hsource, -, alike⟩ := of_outcome_transformParts hparts
    have source : s₁.source = s.source := by
      rcases Source.of_outcome_transformOption hsource with
        ⟨hs, hs₁, -⟩ | ⟨source, source₁, hs, hs₁, hsource⟩
      · rw [hs, hs₁]
      · rw [hs, hs₁, Source.eq_of_transform hleaf (below.1 source (by simp [hs])) hsource]
    have same : s₁ = s := by
      refine alike.eq_of_source ?_ source
      rintro e he e' ⟨_, _, hrun⟩
      exact Expr.eq_of_transform_subqueries hleaf (below.2 e he) hrun
    subst same
    exact here depth st₁ s' st' hact

end Alone

end HiveQuery
