import HiveQuery.Proofs.Passage
import HiveQuery.Proofs.PruneRounds
/-!
# No column too many

Below its top select a compiled query computes nothing twice and nothing for no one: no select has
two columns with equal expressions, and every column is referred to unless the columns of its select
are fixed (`Compiler.lower_economical`). Merging sees to the first. Pruning could undo it only where
subqueries become equal by losing columns, and those declare labels of their own. Pruning sees to
the second, since it ends only when every column is needed.
-/

namespace HiveQuery

open Outcome

/-! ## Columns that differ -/

/-- No two columns have equal expressions. -/
def Select.Differs (s : Select) : Prop :=
  s.columns.Pairwise fun a b => (a.expr == b.expr) = false

/-- No two columns have equal expressions without subqueries. -/
def Select.DiffersPlainly (s : Select) : Prop :=
  s.columns.Pairwise fun a b => a.expr == b.expr → a.expr.subqueries ≠ []

theorem pairwise_of_forall₂ {α β : Type} {R : α → β → Prop} {P : α → α → Prop} {Q : β → β → Prop}
    {as : List α} {bs : List β} (h : List.Forall₂ R as bs) (pairwise : as.Pairwise P)
    (pass : ∀ a a' b b', R a b → R a' b' → P a a' → Q b b') : bs.Pairwise Q := by
  induction h with
  | nil => exact .nil
  | cons hab rest ih =>
    obtain ⟨first, others⟩ := List.pairwise_cons.1 pairwise
    refine List.pairwise_cons.2 ⟨fun b' hb' => ?_, ih others⟩
    obtain ⟨a', ha', ha'b'⟩ := exists_of_forall₂_of_mem rest hb'
    exact pass _ _ _ _ hab ha'b' (first a' ha')

/-- The columns that merging keeps differ. -/
theorem Column.pairwise_mergeEqual {kept : List Column} (columns : List Column)
    (h : kept.Pairwise fun a b => (a.expr == b.expr) = false) :
    (Column.mergeEqual kept columns).1.Pairwise fun a b => (a.expr == b.expr) = false := by
  induction columns generalizing kept with
  | nil => exact h
  | cons c columns ih =>
    rw [Column.mergeEqual]
    split
    · exact ih h
    · next new =>
      refine ih (List.pairwise_append.2 ⟨h, List.pairwise_singleton _ _, ?_⟩)
      intro a ha b hb
      rw [List.mem_singleton.1 hb]
      simpa using List.find?_eq_none.1 new a ha

namespace Select

variable {s s' : Select}

/-- **After merging, the columns of every select but the top one differ.** -/
theorem everywhere_differs_of_merging {depth : Nat} {st st' : Renames}
    (h : outcome (s.transform .merging depth) st = .ok (s', st')) :
    (depth ≠ 0 → s'.Differs) ∧ ∀ c ∈ s'.children, c.Everywhere Differs := by
  refine transform_induction Transform.merging_thins.leaves (R := fun depth _ _ s' _ =>
    (depth ≠ 0 → s'.Differs) ∧ ∀ c ∈ s'.children, c.Everywhere Differs) ?_ h
  intro depth s s₁ s' st st₁ st' chain mirrors hact
  have below : ∀ c ∈ s₁.children, c.Everywhere Differs := by
    intro c hc
    obtain ⟨_, _, _, _, here, inner⟩ := chain.exists_of_mem (mem_visited_iff.2 hc)
    exact everywhere_iff.2 ⟨here (Nat.succ_ne_zero depth), inner⟩
  simp only [Transform.merging] at hact
  split at hact
  · next top =>
    obtain ⟨rfl, -⟩ := outcome_pure_eq_ok_iff.1 hact
    exact ⟨fun inner => absurd top inner, below⟩
  · obtain ⟨rfl, -⟩ := of_mergeColumns hact
    have sublist := (Column.mergeEqual_spec [] s₁.columns).1
    exact ⟨fun _ => Column.pairwise_mergeEqual s₁.columns .nil, fun c hc =>
      below c (children_subset_of_columns (fun c hc => ⟨c, sublist.subset hc, rfl⟩) hc)⟩

/-- Pruning may change an expression in its subqueries alone. -/
theorem DiffersPlainly.of_mirrors {keep : String → Column → Bool} {depth : Nat} {s₁ : Select}
    (h : s.DiffersPlainly) (mirrors : s.Mirrors (Expr.Becomes (.keepColumns keep) depth) s₁) :
    s₁.DiffersPlainly := by
  have leaves := (Transform.keepColumns_thins keep).leaves
  refine pairwise_of_forall₂ mirrors.columns h ?_
  rintro a b a₁ b₁ ⟨-, -, ha⟩ ⟨-, -, hb⟩ differ equal plain
  have plain' := Expr.subqueries_of_beq equal plain
  rw [ha.subqueries_eq_nil_iff leaves] at plain
  rw [hb.subqueries_eq_nil_iff leaves] at plain'
  obtain ⟨_, _, ha⟩ := ha
  obtain ⟨_, _, hb⟩ := hb
  rw [Expr.eq_of_transform (fun _ => rfl) plain ha,
    Expr.eq_of_transform (fun _ => rfl) plain' hb] at equal
  exact differ equal plain

/-- Where no label is declared twice, no two expressions with subqueries are equal. -/
theorem DiffersPlainly.differs (h : s.DiffersPlainly) (labels : s.labels.Nodup) : s.Differs := by
  have columns := labels.sublist s.flatMap_labels_columns_sublist
  rw [List.nodup_flatMap] at columns
  refine (h.and columns.2).imp ?_
  rintro a b ⟨differ, disjoint⟩
  by_contra equal
  have equal : (a.expr == b.expr) = true := by simpa using equal
  -- equal expressions declare equal labels, of which two columns have none in common
  obtain ⟨label, hl⟩ := List.exists_mem_of_ne_nil _
    (fun none => differ equal (Expr.labels_eq_nil_iff.1 none))
  have shared : label ∈ b.expr.labels := by
    rw [Expr.labels_of_beq equal]
    exact hl
  exact disjoint hl shared

end Select

/-! ## Columns that are referred to -/

theorem eq_of_nodup_filterMap {α β : Type} {f : α → Option β} {as : List α}
    (nodup : (as.filterMap f).Nodup) {a a' : α} (ha : a ∈ as) (ha' : a' ∈ as) {b : β}
    (hb : f a = some b) (hb' : f a' = some b) : a = a' := by
  by_contra ne
  have apart := List.pairwise_filterMap.1 nodup
  have : Std.Symm fun a a' => ∀ b, f a = some b → ∀ b', f a' = some b' → b ≠ b' :=
    ⟨fun _ _ h b hb b' hb' => (h b' hb' b hb).symm⟩
  exact apart.forall ha ha' ne b hb b hb' rfl

namespace Projection

variable {p : Projection} {q : Select}

/-- A label stands for one select, so a select has its columns fixed by what is said of itself. -/
theorem of_isPinned (labels : p.labels.Nodup) (hq : .select q ∈ p.select.nodes.tail)
    (pinned : p.columnUsage.isPinned q.label) :
    q.distinct = true ∨ ∃ e, .expr e ∈ p.nodes ∧ e.query? = some q := by
  have here : .select q ∈ p.nodes :=
    List.mem_append_left _ ((List.tail_sublist _).subset hq)
  have pinned : q.label ∈ p.select.label :: p.nodes.filterMap Node.pinned? := by
    simpa [ColumnUsage.isPinned, columnUsage] using pinned
  rcases List.mem_cons.1 pinned with top | pinned
  · -- the top select declares its label, so nothing below it does
    rw [Projection.labels_eq] at labels
    have labels := (List.nodup_append.1 labels).1
    have label : Node.label? (.select p.select) = some p.select.label := rfl
    rw [Select.labels, Select.nodes_eq, List.filterMap_cons_some label, List.nodup_cons] at labels
    rw [Select.nodes_eq, List.tail_cons] at hq
    have again : Node.label? (.select q) = some p.select.label := congrArg some top
    exact absurd (List.mem_filterMap.2 ⟨_, hq, again⟩) labels.1
  · obtain ⟨n, hn, hpinned⟩ := List.mem_filterMap.1 pinned
    cases n with
    | source => cases hpinned
    | select s =>
      have distinct : s.distinct = true ∧ s.label = q.label := by
        simpa [Node.pinned?] using hpinned
      have same := eq_of_nodup_filterMap labels hn here (congrArg some distinct.2) rfl
      exact .inl (Node.select.inj same ▸ distinct.1)
    | expr e =>
      obtain ⟨s, hs, label⟩ := Option.map_eq_some_iff.1 hpinned
      have inside : .select s ∈ p.nodes := by
        refine p.closed_nodes e hn ?_
        rw [Expr.nodes_eq, hs]
        simp [Select.nodes_eq]
      have same := eq_of_nodup_filterMap labels inside here (congrArg some label) rfl
      exact .inr ⟨e, hn, Node.select.inj same ▸ hs⟩

/-- A column that is needed is referred to, unless the columns of its select are fixed. -/
theorem mem_refs_of_needs (labels : p.labels.Nodup) (hq : .select q ∈ p.select.nodes.tail)
    (needs : p.columnUsage.Needs q) (distinct : q.distinct = false)
    (direct : ∀ e, .expr e ∈ p.nodes → e.query? ≠ some q) (several : q.columns.length ≠ 1)
    {column : Column} (hc : column ∈ q.columns) : (q.label, column.name) ∈ p.refs := by
  rcases needs with one | all
  · rw [Select.columnNames, List.length_map] at one
    exact absurd one several
  · rcases all column.name (List.mem_map_of_mem hc) with pinned | used
    · rcases of_isPinned labels hq pinned with fixed | ⟨e, he, query⟩
      · rw [distinct] at fixed
        cases fixed
      · exact absurd query (direct e he)
    · exact List.contains_iff_mem.1 used

end Projection

/-! ## Compiled queries -/

namespace Compiler

variable {c : Compiler} {p p' : Projection}

theorem naNFree_of_conform {mapping : Mapping} {byPosition : Bool} (free : p.select.NaNFree)
    (h : (p.conform mapping byPosition).result = .ok p') : p'.select.NaNFree := by
  rcases Projection.of_conform h with ⟨-, -, rfl⟩ | ⟨_, _, _, _, -, -, rfl, -, -, exprs⟩
  · exact free
  · exact Select.AllNodes.of_columns exprs Node.inherent_isNaN free

/-- What pruning leaves, merging having gone before. -/
theorem Lowers.differsPlainly (h : c.Lowers p p') :
    ∀ q ∈ p'.select.children, q.Everywhere Select.DiffersPlainly := by
  obtain ⟨-, -, -, merge, prune, -⟩ := h
  obtain ⟨_, _, hmerge, -⟩ := Projection.of_mergeColumns merge
  refine Projection.pruneColumns_induction
    (P := fun p => ∀ q ∈ p.select.children, q.Everywhere Select.DiffersPlainly) ?_ ?_ prune
  · intro p p' plainly round
    exact ((Transform.keepColumns_thins p.columnUsage.keeps).keeps (P := Select.DiffersPlainly)
      (fun _ _ _ _ here mirrors sublist => (here.of_mirrors mirrors).sublist sublist)
      (Projection.of_round round).1).2 plainly
  · intro q hq s hs
    have differs := (Select.everywhere_differs_of_merging hmerge).2 q hq s hs
    exact differs.imp fun differ equal => by simp [equal] at differ

theorem Lowers.needs (h : c.Lowers p p') (free : p.select.NaNFree) :
    p'.select.Everywhere p'.columnUsage.Needs := by
  obtain ⟨-, page, conform, merge, prune, -⟩ := h
  obtain ⟨_, hpage, -⟩ := Projection.of_outcome_transform page
  obtain ⟨_, _, hmerge, -⟩ := Projection.of_mergeColumns merge
  have paged := (Select.naNFree_paging_iff hpage).2 (free.exposed .outermost)
  have conformed := naNFree_of_conform (paged.exposed .outermost) conform
  exact Projection.needs_of_pruneColumns (conformed.of_thins Transform.merging_thins hmerge) prune

/-- **A compiled query has no column too many.** Let a select be below the top one of a query. No
two of its columns have equal expressions. If it is not distinct, is not itself a subquery of an
expression and does not have just one column, then the query refers to each of its columns. -/
theorem lower_economical {s t : Statement} (free : s.NaNFree) (h : (c.lower s).result = .ok t) :
    ∀ p ∈ t.queries, ∀ q, .select q ∈ p.select.nodes.tail →
      (q.columns.Pairwise fun a b => (a.expr == b.expr) = false) ∧
      (q.distinct = false → (∀ e, .expr e ∈ p.nodes → e.query? ≠ some q) → q.columns.length ≠ 1 →
        ∀ column ∈ q.columns, (q.label, column.name) ∈ p.refs) := by
  intro p' hp' q hq
  obtain ⟨p, hp, lowers⟩ := exists_of_forall₂_of_mem (forall₂_lowers h) hp'
  have labels : p'.labels.Nodup := by
    obtain ⟨-, -, -, -, -, checks⟩ := lowers
    exact checks.labels
  obtain ⟨child, hchild, holds⟩ := Select.mem_nodes_tail_iff.1 hq
  constructor
  · have own : q.labels.Nodup := by
      rw [Projection.labels_eq] at labels
      exact (List.nodup_append.1 labels).1.sublist
        (Select.Holds.child hchild holds).labels_sublist
    exact (lowers.differsPlainly child hchild q holds).differs own
  · intro distinct direct several column hc
    have needs := lowers.needs (free.select hp) q (.child hchild holds)
    exact Projection.mem_refs_of_needs labels hq needs distinct direct several hc

/-- The page of paid orders, of whose columns none is computed twice or for no one. -/
theorem lower_economical_paidOrders :
    ∃ t, (orderCompiler.lower (.query ⟨paidOrders, .entity "Order" []⟩)).result = .ok t ∧
      ∀ p ∈ t.queries, ∀ q, .select q ∈ p.select.nodes.tail →
        (q.columns.Pairwise fun a b => (a.expr == b.expr) = false) ∧
        (q.distinct = false → (∀ e, .expr e ∈ p.nodes → e.query? ≠ some q) →
          q.columns.length ≠ 1 → ∀ column ∈ q.columns, (q.label, column.name) ∈ p.refs) := by
  obtain ⟨t, run⟩ := exists_lower_paidOrders
  have free : (Statement.query ⟨paidOrders, .entity "Order" []⟩).NaNFree := by
    unfold Statement.NaNFree
    decide
  exact ⟨t, run, lower_economical free run⟩

end Compiler

end HiveQuery
