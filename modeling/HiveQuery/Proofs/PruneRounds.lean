import HiveQuery.Proofs.ColumnsSound
import HiveQuery.Proofs.Likeness
/-!
# The rounds of pruning

A round of pruning drops columns and nothing else. If it drops none, every column of the tree has to
stay or is the only one of its select (`Select.columnCount_round`), and the round leaves the tree as
it was (`Select.eq_of_round`).

Pruning that repeats its rounds until one changes nothing is `Projection.PrunesIn`. On a select with
a NaN, which differs from itself, it would never end. On all others it ends, and its end is what
`Projection.pruneColumns` returns (`Projection.prunesIn_of_pruneColumns`). Every column is then
needed (`Projection.needs_of_pruneColumns`).
-/

namespace HiveQuery

open Outcome

/-! ## The number of columns -/

theorem sum_columnCount_flatMap {α : Type} {f : α → List Node} {g : α → List Select} {as : List α}
    (each : ∀ a ∈ as, ((f a).map Node.columnCount).sum = ((g a).map Select.columnCount).sum) :
    ((as.flatMap f).map Node.columnCount).sum = ((as.flatMap g).map Select.columnCount).sum := by
  induction as with
  | nil => rfl
  | cons a as ih =>
    simp only [List.forall_mem_cons] at each
    simp only [List.flatMap_cons, List.map_append, List.sum_append, each.1, ih each.2]

/-- The columns below an expression are those of its subqueries. -/
theorem Expr.sum_columnCount_nodes (e : Expr) :
    (e.nodes.map Node.columnCount).sum = (e.subqueries.map Select.columnCount).sum := by
  induction e using parts_induction with
  | step e ih =>
    have query : ((e.query?.toList.flatMap Select.nodes).map Node.columnCount).sum =
        (e.query?.toList.map Select.columnCount).sum := by
      cases e.query? with
      | none => rfl
      | some q => simp [Select.columnCount, List.sum]
    rw [nodes_eq, subqueries_eq, List.map_cons, List.sum_cons, List.map_append, List.sum_append,
      List.map_append, List.sum_append, sum_columnCount_flatMap ih, query]
    exact Nat.zero_add _

/-- The columns below a source are those of the selects directly below it. -/
theorem Source.sum_columnCount_nodes (source : Source) :
    (source.nodes.map Node.columnCount).sum = (source.visited.map Select.columnCount).sum := by
  induction source using join_induction with
  | table => rfl
  | subquery query =>
    rw [nodes, visited, List.map_cons, List.sum_cons, List.map_singleton, List.sum_singleton]
    exact Nat.zero_add _
  | join kind left right condition ihl ihr =>
    rw [nodes, visited, Expr.nodesOption_eq, List.map_cons, List.sum_cons]
    simp only [List.map_append, List.sum_append, ihl, ihr,
      sum_columnCount_flatMap fun e (_ : e ∈ condition.toList) => e.sum_columnCount_nodes]
    exact Nat.zero_add _

namespace Select

/-- **A tree has the columns of its top select and those of the trees below it.** -/
theorem columnCount_eq (s : Select) :
    s.columnCount = s.columns.length + (s.visited.map columnCount).sum := by
  have all : s.columnCount = (s.nodes.map Node.columnCount).sum := rfl
  rw [all, nodes_eq, visited, List.map_cons, List.sum_cons]
  simp only [List.map_append, List.sum_append,
    sum_columnCount_flatMap fun e (_ : e ∈ s.clauses) => e.sum_columnCount_nodes,
    sum_columnCount_flatMap fun a (_ : a ∈ s.source.toList) => a.sum_columnCount_nodes]
  rfl

/-- With fewer columns, fewer selects are below. -/
theorem visited_sublist_of_columns {s : Select} {cs : List Column} (h : cs.Sublist s.columns) :
    ({ s with columns := cs } : Select).visited.Sublist s.visited := by
  have columns := (h.map (·.expr)).flatMap Expr.subqueries
  simp only [visited, clauses, List.flatMap_append, List.append_assoc]
  exact (columns.append_right _).append_left _

end Select

/-! ## A round -/

/-- What holds of an item whose number stays holds of all items if the sum of the numbers does. -/
theorem sum_le_of_forall₂ {α : Type} {f : α → Nat} {P : α → Prop} {as bs : List α}
    (h : List.Forall₂ (fun a b => f b ≤ f a ∧ (f b = f a → P a)) as bs) :
    (bs.map f).sum ≤ (as.map f).sum ∧ ((bs.map f).sum = (as.map f).sum → ∀ a ∈ as, P a) := by
  induction h with
  | nil => simp
  | cons hab _ ih =>
    simp only [List.map_cons, List.sum_cons]
    refine ⟨by omega, fun equal => List.forall_mem_cons.2 ⟨?_, ?_⟩⟩
    · exact hab.2 (by omega)
    · exact ih.2 (by omega)

/-- Every column of the select has to stay, or it has one alone. -/
def ColumnUsage.Needs (usage : ColumnUsage) (s : Select) : Prop :=
  s.columnNames.length = 1 ∨
    ∀ name ∈ s.columnNames, usage.isPinned s.label ∨ usage.isUsed s.label name

namespace Select

/-- Every column of the select is to be kept, or it has one alone. -/
def KeepsAll (keep : String → Column → Bool) (s : Select) : Prop :=
  s.columns.length = 1 ∨ ∀ c ∈ s.columns, keep s.label c

variable {keep : String → Column → Bool} {usage : ColumnUsage} {s s' : Select}

/-- A select needs all its columns if it would keep them. -/
theorem needs_iff : usage.Needs s ↔ s.KeepsAll usage.keeps := by
  simp [ColumnUsage.Needs, KeepsAll, ColumnUsage.keeps, columnNames]

/-- A select that loses no column keeps all of them for a reason, -/
theorem keepsAll_of_keepColumns (h : (s.keepColumns keep).result = .ok s')
    (all : s'.columns.length = s.columns.length) : s.KeepsAll keep := by
  simp only [keepColumns] at h
  split at h
  · next same => exact .inr (List.length_filter_eq_length_iff.1 same)
  · next fewer =>
    obtain rfl := (Except.ok.inj h).symm
    -- nothing is to be kept, so that the first column stays for lack of another
    have first : (s.columns.filter (keep s.label)).isEmpty = true := by
      by_contra several
      rw [if_neg several] at all
      exact fewer all
    rw [if_pos first] at all
    rw [List.isEmpty_iff.1 first, List.length_nil] at fewer
    rw [List.length_take] at all
    exact .inl (by omega)

/-- and one that has a reason is left alone. -/
theorem result_keepColumns_of_keepsAll (h : s.KeepsAll keep) :
    (s.keepColumns keep).result = .ok s := by
  rcases h with one | all
  · simp only [keepColumns]
    split
    · rfl
    · next fewer =>
      have less := List.length_filter_le (keep s.label) s.columns
      have none : s.columns.filter (keep s.label) = [] :=
        List.length_eq_zero_iff.1 (by omega)
      rw [if_pos (by rw [none]; rfl), List.take_of_length_le one.le]
      cases s
      rfl
  · exact result_keepColumns_of_all all

/-- Whether a column is kept does not depend on its expression. -/
theorem KeepsAll.of_mirrors {R : Expr → Expr → Prop} {s₁ : Select} (h : s₁.KeepsAll keep)
    (named : ∀ label (c c' : Column), c'.name = c.name → keep label c' = keep label c)
    (mirrors : s.Mirrors R s₁) : s.KeepsAll keep := by
  refine h.imp (fun one => mirrors.columns.length_eq.trans one) fun all c hc => ?_
  obtain ⟨c₁, hc₁, name, -⟩ := exists_of_forall₂_of_mem_left mirrors.columns hc
  rw [← named _ c c₁ name, ← mirrors.label]
  exact all c₁ hc₁

/-- **A round removes columns or keeps them all**, if it chooses them by their names. -/
theorem columnCount_round {depth : Nat}
    (named : ∀ label (c c' : Column), c'.name = c.name → keep label c' = keep label c)
    (h : outcome (s.transform (.keepColumns keep) depth) () = .ok (s', ())) :
    s'.columnCount ≤ s.columnCount ∧
      (s'.columnCount = s.columnCount → s.Everywhere (KeepsAll keep)) := by
  refine transform_induction (Transform.keepColumns_thins keep).leaves
    (R := fun _ _ s s' _ => s'.columnCount ≤ s.columnCount ∧
      (s'.columnCount = s.columnCount → s.Everywhere (KeepsAll keep))) ?_ h
  intro depth s s₁ s' st st₁ st' chain mirrors hact
  have below := sum_le_of_forall₂ (chain.forall₂.imp fun _ _ ⟨_, _, step⟩ => step)
  have act : (s₁.keepColumns keep).result = .ok s' := Traced.outcome_eq_ok_iff.1 hact
  obtain ⟨cs, sublist, rfl⟩ := (Transform.keepColumns_thins keep).select depth _ _ _ _ hact
  have dropped := ((visited_sublist_of_columns sublist).map columnCount).sum_le_sum
    fun _ _ => Nat.zero_le _
  have fewer := sublist.length_le
  have same := mirrors.columns.length_eq
  have before := s.columnCount_eq
  have after : ({ s₁ with columns := cs } : Select).columnCount = cs.length + _ := columnCount_eq _
  refine ⟨by omega, fun equal => everywhere_iff.2 ⟨?_, fun c hc => ?_⟩⟩
  · exact (keepsAll_of_keepColumns act (by omega : cs.length = s₁.columns.length)).of_mirrors named
      mirrors
  · exact below.2 (by omega) c (mem_visited_iff.2 hc)

/-- A round that keeps all columns leaves the tree as it was. -/
theorem eq_of_keepsAll {depth : Nat} (keeps : s.Everywhere (KeepsAll keep))
    (h : outcome (s.transform (.keepColumns keep) depth) () = .ok (s', ())) : s' = s := by
  refine eq_of_transform (fun _ => rfl) (fun q hq depth st q' st' hact => ?_) h
  have kept := result_keepColumns_of_keepsAll (keeps q hq)
  exact Except.ok.inj ((Traced.outcome_eq_ok_iff.1 hact).symm.trans kept)

/-- **A round that removes no column leaves the tree as it was.** -/
theorem eq_of_round {depth : Nat}
    (named : ∀ label (c c' : Column), c'.name = c.name → keep label c' = keep label c)
    (h : outcome (s.transform (.keepColumns keep) depth) () = .ok (s', ()))
    (all : s.columnCount ≤ s'.columnCount) : s' = s := by
  obtain ⟨fewer, keeps⟩ := columnCount_round named h
  exact eq_of_keepsAll (keeps (Nat.le_antisymm fewer all)) h

end Select

theorem ColumnUsage.keeps_named (usage : ColumnUsage) (label : String) (c c' : Column)
    (h : c'.name = c.name) : usage.keeps label c' = usage.keeps label c := by
  rw [ColumnUsage.keeps, ColumnUsage.keeps, h]

/-! ## The rounds of a query -/

namespace Projection

variable {p p' next : Projection}

/-- A round makes no NaN. -/
theorem naNFree_of_round (free : p.select.NaNFree)
    (round : (p.keepColumns p.columnUsage.keeps).result = .ok next) : next.select.NaNFree :=
  free.of_thins (Transform.keepColumns_thins _) (of_round round).1

/-- A round that changes the select removes a column of it, if no literal is a NaN. -/
theorem columnCount_lt_of_round (free : p.select.NaNFree)
    (round : (p.keepColumns p.columnUsage.keeps).result = .ok next)
    (changed : (next.select == p.select) = false) :
    next.select.columnCount < p.select.columnCount := by
  have hselect := (of_round round).1
  by_contra all
  rw [Select.eq_of_round p.columnUsage.keeps_named hselect (by omega)] at changed
  exact absurd free.beq_self (Bool.eq_false_iff.1 changed)

/-! ## The loop -/

/-- **The loop of pruning**: `p.PrunesIn n p'` if `n` rounds from `p` on change the select and the
next one, from `p'`, does not. -/
inductive PrunesIn : Nat → Projection → Projection → Prop
  | stop {p next : Projection} (round : (p.keepColumns p.columnUsage.keeps).result = .ok next)
      (same : (next.select == p.select) = true) : PrunesIn 0 p p
  | again {n : Nat} {p next p' : Projection}
      (round : (p.keepColumns p.columnUsage.keeps).result = .ok next)
      (changed : (next.select == p.select) = false) (rest : PrunesIn n next p') :
      PrunesIn (n + 1) p p'

/-- **The loop ends**, and what it ends with is what pruning gives. -/
theorem prunesIn_of_pruneColumns (free : p.select.NaNFree) (run : p.pruneColumns.result = .ok p') :
    ∃ n, p.PrunesIn n p' := by
  -- by induction on the columns of the select, of which a round that changes it removes some
  induction hn : p.select.columnCount using Nat.strong_induction_on generalizing p with
  | _ k ih =>
    obtain ⟨next, round⟩ := p.exists_keepColumns p.columnUsage.keeps
    rw [result_pruneColumns round] at run
    by_cases same : (next.select == p.select) = true
    · rw [if_pos same] at run
      obtain rfl := Except.ok.inj run
      exact ⟨0, .stop round same⟩
    · have changed := Bool.eq_false_iff.2 same
      have fewer := columnCount_lt_of_round free round changed
      rw [if_neg same, if_pos fewer] at run
      obtain ⟨n, rest⟩ :=
        ih next.select.columnCount (by omega) (naNFree_of_round free round) run rfl
      exact ⟨n + 1, .again round changed rest⟩

/-- The round that the loop ends with leaves the select as it is. -/
theorem PrunesIn.exists_last {n : Nat} (h : p.PrunesIn n p') :
    ∃ next, (p'.keepColumns p'.columnUsage.keeps).result = .ok next ∧
      (next.select == p'.select) = true := by
  induction h with
  | stop round same => exact ⟨_, round, same⟩
  | again _ _ _ ih => exact ih

/-- **Every column of a pruned query is needed.** -/
theorem needs_of_pruneColumns (free : p.select.NaNFree) (h : p.pruneColumns.result = .ok p') :
    p'.select.Everywhere p'.columnUsage.Needs := by
  obtain ⟨n, loop⟩ := prunesIn_of_pruneColumns free h
  obtain ⟨next, last, same⟩ := loop.exists_last
  have keeps := (Select.columnCount_round p'.columnUsage.keeps_named (of_round last).1).2
    (Select.columnCount_of_beq same).symm
  exact fun s hs => Select.needs_iff.2 (keeps s hs)

end Projection

end HiveQuery
