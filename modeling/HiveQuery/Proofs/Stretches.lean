import HiveQuery.Proofs.ConditionScope
import HiveQuery.Proofs.Descent
import HiveQuery.Proofs.Governed
import HiveQuery.Proofs.Resolution
/-!
# Stretches of a run

The selects directly below a select are transformed in one run, from state to state. Each of them,
and each expression of the select, has its stretch of that run (`Select.Stretch`). What is left
behind by then depends on the place: a clause comes after the whole source, the condition of a join
after its two sides only (`Select.runs_of_transformParts`). Since a label is declared once, the
references to a select are renamed in the stretch of that select and nowhere else.
-/

namespace HiveQuery

open Outcome

/-! ## Stretches -/

section Transform

variable {m : Type → Type} [Monad m] {σ : Type} [Outcome m σ]
variable {t : Transform m} {depth : Nat} {all qs seen seen' : List Select} {st st' a b : σ}

/-- **A stretch of a run over selects.** The run over `all` goes from `st` to `st'`. It is in the
state `a` before `qs` and in `b` after them, and `seen` is left behind by then. -/
inductive Select.Stretch (t : Transform m) (depth : Nat) (all : List Select) (st st' : σ)
    (seen qs : List Select) (a b : σ) : Prop
  | intro {before after before' qs' after' : List Select} (split : all = before ++ qs ++ after)
      (behind : seen ⊆ before)
      (first : outcome (before.mapM (Select.transform t depth)) st = .ok (before', a))
      (here : outcome (qs.mapM (Select.transform t depth)) a = .ok (qs', b))
      (rest : outcome (after.mapM (Select.transform t depth)) b = .ok (after', st'))

/-- The select is transformed in a stretch of its own. -/
def Select.RunsIn (t : Transform m) (depth : Nat) (all : List Select) (st st' : σ)
    (seen : List Select) (c c' : Select) : Prop :=
  ∃ a b, Stretch t depth all st st' seen [c] a b ∧ outcome (c.transform t depth) a = .ok (c', b)

/-- The expression is transformed in the stretch of its subqueries. -/
def Expr.RunsIn (t : Transform m) (depth : Nat) (all : List Select) (st st' : σ)
    (seen : List Select) (e e' : Expr) : Prop :=
  ∃ a b, Select.Stretch t depth all st st' seen e.subqueries a b ∧
    outcome (e.transform t depth) a = .ok (e', b)

theorem outcome_mapM_nil {α β : Type} (f : α → m β) (st : σ) :
    outcome (([] : List α).mapM f) st = .ok ([], st) :=
  outcome_mapM_nil_eq_ok_iff.2 ⟨rfl, rfl⟩

namespace Select.Stretch

theorem subset (h : Stretch t depth all st st' seen qs a b) : qs ⊆ all := by
  obtain ⟨rfl, -, -, -, -⟩ := h
  exact List.subset_append_of_subset_left _ (List.subset_append_right _ _)

variable [LawfulMonad m]

/-- A stretch of a stretch. -/
theorem trans {ps : List Select} {c d : σ} (outer : Stretch t depth all st st' seen qs a b)
    (inner : Stretch t depth qs a b seen' ps c d) :
    Stretch t depth all st st' (seen ++ seen') ps c d := by
  obtain ⟨split, behind, first, -, rest⟩ := outer
  obtain ⟨split', behind', first', here, rest'⟩ := inner
  refine .intro ?_ (List.append_subset.2 ⟨List.subset_append_of_subset_left _ behind,
      List.subset_append_of_subset_right _ behind'⟩)
    (outcome_mapM_append_eq_ok_iff.2 ⟨_, _, a, first, first', rfl⟩) here
    (outcome_mapM_append_eq_ok_iff.2 ⟨_, _, b, rest', rest, rfl⟩)
  rw [split, split']
  simp only [List.append_assoc]

end Select.Stretch

variable [LawfulMonad m]

/-- A run within a stretch is one within the whole, -/
theorem Select.RunsIn.widen {c c' : Select} (h : c.RunsIn t depth qs a b seen' c')
    (outer : Stretch t depth all st st' seen qs a b) :
    c.RunsIn t depth all st st' (seen ++ seen') c' := by
  obtain ⟨_, _, stretch, run⟩ := h
  exact ⟨_, _, outer.trans stretch, run⟩

/-- and so is that of an expression. -/
theorem Expr.RunsIn.widen {e e' : Expr} (h : e.RunsIn t depth qs a b seen' e')
    (outer : Select.Stretch t depth all st st' seen qs a b) :
    e.RunsIn t depth all st st' (seen ++ seen') e' := by
  obtain ⟨_, _, stretch, run⟩ := h
  exact ⟨_, _, outer.trans stretch, run⟩

/-- Selects that are transformed one after another have a stretch each. -/
theorem Select.runsIn_of_mapM {qs' : List Select}
    (h : outcome (qs.mapM (Select.transform t depth)) st = .ok (qs', st')) :
    List.Forall₂ (Select.RunsIn t depth qs st st' []) qs qs' := by
  induction qs generalizing st qs' with
  | nil =>
    obtain ⟨rfl, rfl⟩ := outcome_mapM_nil_eq_ok_iff.1 h
    exact .nil
  | cons q qs ih =>
    obtain ⟨q', qs', st₁, hq, hqs, rfl⟩ := outcome_mapM_cons_eq_ok_iff.1 h
    have single : outcome ([q].mapM (Select.transform t depth)) st = .ok ([q'], st₁) :=
      outcome_mapM_cons_eq_ok_iff.2 ⟨q', [], st₁, hq, outcome_mapM_nil _ _, rfl⟩
    have others : Stretch t depth (q :: qs) st st' [] qs st₁ st' :=
      .intro (List.append_nil _).symm (List.nil_subset _) single hqs (outcome_mapM_nil _ _)
    refine .cons ⟨st, st₁, ?_, hq⟩ ((ih hqs).imp fun _ _ runs => runs.widen others)
    exact .intro rfl (List.nil_subset _) (outcome_mapM_nil _ _) single hqs

variable (leaves : t.KeepsLeaves)
include leaves

/-- So do expressions, with their subqueries. -/
theorem Expr.runsIn_of_mapM {es es' : List Expr}
    (h : outcome (es.mapM (Expr.transform t depth)) st = .ok (es', st')) :
    List.Forall₂ (Expr.RunsIn t depth (es.flatMap Expr.subqueries) st st' []) es es' := by
  induction es generalizing st es' with
  | nil =>
    obtain ⟨rfl, rfl⟩ := outcome_mapM_nil_eq_ok_iff.1 h
    exact .nil
  | cons e es ih =>
    obtain ⟨e', es', st₁, he, hes, rfl⟩ := outcome_mapM_cons_eq_ok_iff.1 h
    have own := Expr.subqueries_of_transform leaves he
    have below := Expr.subqueries_of_mapM leaves hes
    have others : Select.Stretch t depth (e.subqueries ++ es.flatMap Expr.subqueries) st st' []
        (es.flatMap Expr.subqueries) st₁ st' :=
      .intro (List.append_nil _).symm (List.nil_subset _) own below (outcome_mapM_nil _ _)
    refine .cons ⟨st, st₁, ?_, he⟩ ((ih hes).imp fun _ _ runs => runs.widen others)
    exact .intro rfl (List.nil_subset _) (outcome_mapM_nil _ _) own below

/-- The subqueries of an expression have their stretches in its own. -/
theorem Expr.RunsIn.subqueries {e e' : Expr} (h : e.RunsIn t depth all st st' seen e') :
    List.Forall₂ (Select.RunsIn t depth all st st' seen) e.subqueries e'.subqueries := by
  obtain ⟨a, b, stretch, run⟩ := h
  refine (Select.runsIn_of_mapM (Expr.subqueries_of_transform leaves run)).imp fun c c' runs => ?_
  have wide := runs.widen stretch
  rwa [List.append_nil] at wide

end Transform

/-! ## Renaming along a run -/

namespace Plan.Governs

variable {m : Type → Type} [Monad m] [LawfulMonad m] {σ : Type} [Outcome m σ] {plan : Plan σ}
variable {t : Transform m} {depth : Nat} {st st' a b : σ} (governs : plan.Governs t)
variable {all qs seen : List Select} {r : String × String}
include governs

/-- What is renamed under a label is renamed where it is declared. -/
theorem rename_outside_list {qs' : List Select}
    (h : outcome (qs.mapM (Select.transform t depth)) st = .ok (qs', st'))
    (hr : r.1 ∉ qs.flatMap Select.labels) : plan.rename st' r = plan.rename st r := by
  induction qs generalizing st qs' with
  | nil =>
    obtain ⟨-, rfl⟩ := outcome_mapM_nil_eq_ok_iff.1 h
    rfl
  | cons q qs ih =>
    obtain ⟨q', qs', st₁, hq, hqs, -⟩ := outcome_mapM_cons_eq_ok_iff.1 h
    rw [List.flatMap_cons, List.mem_append, not_or] at hr
    rw [ih hqs hr.2, governs.rename_outside hq hr.1]

/-- Up to a stretch nothing is renamed under labels that the selects do not declare, -/
theorem rename_start (stretch : Select.Stretch t depth all st st' seen qs a b)
    (hr : r.1 ∉ all.flatMap Select.labels) : plan.rename a r = plan.rename st r := by
  obtain ⟨rfl, -, first, -, -⟩ := stretch
  refine governs.rename_outside_list first fun here => hr ?_
  simp only [List.flatMap_append, List.mem_append]
  exact .inl (.inl here)

variable (nodup : (all.flatMap Select.labels).Nodup)
include nodup

/-- nor under those of the stretch itself. -/
theorem rename_start_of_mem (stretch : Select.Stretch t depth all st st' seen qs a b)
    (hr : r.1 ∈ qs.flatMap Select.labels) : plan.rename a r = plan.rename st r := by
  obtain ⟨rfl, -, first, -, -⟩ := stretch
  rw [List.flatMap_append, List.flatMap_append] at nodup
  exact governs.rename_outside_list first fun before =>
    (List.nodup_append.1 (List.nodup_append.1 nodup).1).2.2 _ before _ hr rfl

/-- After a stretch nothing more is renamed under its labels. -/
theorem rename_end_of_mem (stretch : Select.Stretch t depth all st st' seen qs a b)
    (hr : r.1 ∈ qs.flatMap Select.labels) : plan.rename st' r = plan.rename b r := by
  obtain ⟨rfl, -, -, -, rest⟩ := stretch
  rw [List.flatMap_append, List.flatMap_append] at nodup
  exact governs.rename_outside_list rest fun after =>
    (List.nodup_append.1 nodup).2.2 _ (List.mem_append_right _ hr) _ after rfl

/-- Under the labels of what is left behind, all is renamed as in the end. -/
theorem rename_of_seen (stretch : Select.Stretch t depth all st st' seen qs a b)
    (hr : r.1 ∈ seen.flatMap Select.labels) : plan.rename a r = plan.rename st' r := by
  obtain ⟨rfl, behind, -, here, rest⟩ := stretch
  rw [List.append_assoc, List.flatMap_append, List.flatMap_append] at nodup
  obtain ⟨q, hq, hr⟩ := List.mem_flatMap.1 hr
  have before := List.mem_flatMap_of_mem (f := Select.labels) (behind hq) hr
  have later := (List.nodup_append.1 nodup).2.2 _ before
  have own : r.1 ∉ qs.flatMap Select.labels := fun mem => later _ (List.mem_append_left _ mem) rfl
  rw [governs.rename_outside_list rest fun mem => later _ (List.mem_append_right _ mem) rfl,
    governs.rename_outside_list here own]

end Plan.Governs

/-! ## Frames -/

/-- What two frames show under a label: the same table, or selects that stand in a relation. -/
inductive Visible.Pairs (R : Select → Select → Prop) : String × Visible → String × Visible → Prop
  | table (label : String) : Pairs R (label, .table) (label, .table)
  | select {v v' : Select} (h : R v v') :
      Pairs R (v.label, .columns v.columnNames) (v'.label, .columns v'.columnNames)

theorem Visible.Pairs.imp {R S : Select → Select → Prop} {x y : String × Visible}
    (h : Pairs R x y) (weaken : ∀ v v', R v v' → S v v') : Pairs S x y := by
  cases h with
  | table label => exact .table label
  | select h => exact .select (weaken _ _ h)

/-! ## The parts of a select -/

theorem Source.selects_subset_visited (source : Source) : source.selects ⊆ source.visited :=
  fun _ hq => source.visited_perm.mem_iff.2 (List.mem_append_left _ hq)

theorem Source.map_snd_joined (source : Source) :
    source.joined.map Prod.snd = source.conditions := by
  induction source using Source.join_induction with
  | table => rfl
  | subquery => rfl
  | join kind left right condition ihl ihr =>
    rw [joined, conditions, List.map_append, List.map_append, ihl, ihr, List.map_map]
    exact congrArg _ (List.map_id _)

namespace Select

/-- The expressions of a select, each with selects of the source that are transformed before it: all
of them for a clause, those of the two sides for the condition of a join. -/
def placed (s : Select) : List (List Select × Expr) :=
  s.clauses.map (s.sources, ·) ++
    s.source.toList.flatMap fun source => source.joined.map fun j => (j.1.selects, j.2)

theorem map_snd_placed (s : Select) : s.placed.map Prod.snd = s.exprs := by
  have clauses : (s.clauses.map (s.sources, ·)).map Prod.snd = s.clauses := by
    rw [List.map_map]
    exact List.map_id _
  have conditions : (s.source.toList.flatMap fun source =>
      source.joined.map fun j => (j.1.selects, j.2)).map Prod.snd = s.conditions := by
    rw [List.map_flatMap, Select.conditions]
    refine List.flatMap_congr fun source _ => ?_
    rw [List.map_map, ← source.map_snd_joined]
    rfl
  rw [placed, List.map_append, clauses, conditions, exprs]

end Select

section Parts

variable {m : Type → Type} [Monad m] [LawfulMonad m] {σ : Type} [Outcome m σ]
variable {t : Transform m} {depth : Nat} {st st' : σ} (leaves : t.KeepsLeaves)
include leaves

/-- **Where the parts of a source are transformed.** -/
theorem Source.runs_of_transform {source source' : Source}
    (h : outcome (source.transform t depth) st = .ok (source', st')) :
    List.Forall₂ (Select.RunsIn t depth source.visited st st' []) source.selects source'.selects ∧
      List.Forall₂ (fun j e' => j.2.RunsIn t depth source.visited st st' j.1.selects e')
        source.joined source'.conditions ∧
      List.Forall₂ (Visible.Pairs fun c c' => c.RunsIn t depth source.visited st st' [] c' ∧
        c ∈ source.selects ∧ c' ∈ source'.selects) source.frame source'.frame := by
  induction source using Source.join_induction generalizing source' st st' with
  | table name label =>
    obtain ⟨rfl, rfl⟩ := outcome_pure_eq_ok_iff.1 h
    exact ⟨.nil, .nil, .cons (.table label) .nil⟩
  | subquery query =>
    obtain ⟨visited, -, -⟩ := Source.of_transform leaves h
    obtain ⟨query', rfl, -⟩ := Source.of_outcome_transform_subquery h
    have runs := Select.runsIn_of_mapM visited
    obtain ⟨own, -⟩ := List.forall₂_cons.1 runs
    exact ⟨runs, .nil,
      .cons (.select ⟨own, List.mem_singleton_self _, List.mem_singleton_self _⟩) .nil⟩
  | join kind left right condition ihl ihr =>
    obtain ⟨left', right', condition', st₁, st₂, rfl, hleft, hright, hcondition, -⟩ :=
      Source.of_outcome_transform_join h
    obtain ⟨leftSelects, leftJoined, leftFrame⟩ := ihl hleft
    obtain ⟨rightSelects, rightJoined, rightFrame⟩ := ihr hright
    obtain ⟨leftVisited, -, -⟩ := Source.of_transform leaves hleft
    obtain ⟨rightVisited, -, -⟩ := Source.of_transform leaves hright
    have below := Expr.subqueries_of_mapM leaves hcondition
    -- the run over the whole source falls into those over the left, the right and the condition
    have onLeft : Select.Stretch t depth (Source.join kind left right condition).visited st st' []
        left.visited st st₁ :=
      .intro (List.append_assoc _ _ _) (List.nil_subset _) (outcome_mapM_nil _ _) leftVisited
        (outcome_mapM_append_eq_ok_iff.2 ⟨_, _, st₂, rightVisited, below, rfl⟩)
    have onRight : Select.Stretch t depth (Source.join kind left right condition).visited st st' []
        right.visited st₁ st₂ :=
      .intro rfl (List.nil_subset _) leftVisited rightVisited below
    have between : Select.Stretch t depth (Source.join kind left right condition).visited st st'
        (left.selects ++ right.selects) (condition.toList.flatMap Expr.subqueries) st₂ st' :=
      .intro (List.append_nil _).symm
        (List.append_subset.2 ⟨List.subset_append_of_subset_left _ left.selects_subset_visited,
          List.subset_append_of_subset_right _ right.selects_subset_visited⟩)
        (outcome_mapM_append_eq_ok_iff.2 ⟨_, _, st₁, leftVisited, rightVisited, rfl⟩) below
        (outcome_mapM_nil _ _)
    refine ⟨?_, ?_, ?_⟩
    · exact List.rel_append (leftSelects.imp fun _ _ runs => runs.widen onLeft)
        (rightSelects.imp fun _ _ runs => runs.widen onRight)
    · refine List.rel_append (List.rel_append (leftJoined.imp fun _ _ runs => runs.widen onLeft)
        (rightJoined.imp fun _ _ runs => runs.widen onRight)) ?_
      refine List.forall₂_map_left_iff.2 ((Expr.runsIn_of_mapM leaves hcondition).imp ?_)
      intro e e' runs
      have wide := runs.widen between
      rwa [List.append_nil] at wide
    · exact List.rel_append
        (rightFrame.imp fun _ _ pairs => pairs.imp fun _ _ runs =>
          ⟨runs.1.widen onRight, List.mem_append_right _ runs.2.1,
            List.mem_append_right _ runs.2.2⟩)
        (leftFrame.imp fun _ _ pairs => pairs.imp fun _ _ runs =>
          ⟨runs.1.widen onLeft, List.mem_append_left _ runs.2.1,
            List.mem_append_left _ runs.2.2⟩)

/-- **Where the parts of a select are transformed.** -/
theorem Select.runs_of_transformParts {s s₁ : Select}
    (h : outcome (s.transformParts t depth) st = .ok (s₁, st')) :
    List.Forall₂ (Select.RunsIn t (depth + 1) s.visited st st' []) s.sources s₁.sources ∧
      List.Forall₂ (fun x e' => x.2.RunsIn t (depth + 1) s.visited st st' x.1 e')
        s.placed s₁.exprs ∧
      List.Forall₂ (Visible.Pairs fun c c' => c.RunsIn t (depth + 1) s.visited st st' [] c' ∧
        c ∈ s.sources ∧ c' ∈ s₁.sources) s.frame s₁.frame := by
  obtain ⟨st₁, hsource, hclauses, -⟩ := Select.of_outcome_transformParts h
  have inClauses := Expr.subqueries_of_mapM leaves hclauses
  -- with the source left behind, if there is one
  have clauses : ∀ {inSource : List Select},
      outcome ((s.source.toList.flatMap Source.visited).mapM (Select.transform t (depth + 1))) st =
        .ok (inSource, st₁) →
      List.Forall₂ (fun x e' => x.2.RunsIn t (depth + 1) s.visited st st' x.1 e')
        (s.clauses.map (s.sources, ·)) s₁.clauses := by
    intro inSource visited
    have behind : s.sources ⊆ s.source.toList.flatMap Source.visited := fun q hq => by
      obtain ⟨source, hs, hq⟩ := List.mem_flatMap.1 hq
      exact List.mem_flatMap_of_mem hs (source.selects_subset_visited hq)
    have after : Select.Stretch t (depth + 1) s.visited st st' s.sources
        (s.clauses.flatMap Expr.subqueries) st₁ st' :=
      .intro (List.append_nil _).symm behind visited inClauses (outcome_mapM_nil _ _)
    refine List.forall₂_map_left_iff.2 ((Expr.runsIn_of_mapM leaves hclauses).imp ?_)
    intro e e' runs
    have wide := runs.widen after
    rwa [List.append_nil] at wide
  rcases Source.of_outcome_transformOption hsource with
    ⟨hs, none₁, rfl⟩ | ⟨source, source₁, hs, some₁, hsource⟩
  · rw [hs] at clauses
    refine ⟨?_, ?_, ?_⟩
    · simp [Select.sources, hs, none₁]
    · simpa [Select.placed, Select.exprs, Select.conditions, hs, none₁] using
        clauses (outcome_mapM_nil _ _)
    · simp [Select.frame, hs, none₁, Source.frameOption]
  · obtain ⟨visited, -, -⟩ := Source.of_transform leaves hsource
    obtain ⟨selects, joined, frame⟩ := Source.runs_of_transform leaves hsource
    have first : Select.Stretch t (depth + 1) s.visited st st' [] source.visited st st₁ :=
      .intro (by simp [Select.visited, hs]) (List.nil_subset _) (outcome_mapM_nil _ _) visited
        inClauses
    refine ⟨?_, ?_, ?_⟩
    · simpa [Select.sources, hs, some₁] using selects.imp fun _ _ runs => runs.widen first
    · refine List.rel_append (clauses (by simpa [hs] using visited)) ?_
      simpa [Select.conditions, hs, some₁] using joined.imp fun _ _ runs => runs.widen first
    · have here : s.sources = source.selects := by simp [Select.sources, hs]
      have here₁ : s₁.sources = source₁.selects := by simp [Select.sources, some₁]
      rw [Select.frame, Select.frame, hs, some₁, here, here₁]
      exact frame.imp fun _ _ pairs => pairs.imp fun _ _ runs => ⟨runs.1.widen first, runs.2⟩

/-- The select of a query is transformed first, and the expressions of its projector come after
it. -/
theorem Projection.runs_of_transform {p p' : Projection}
    (h : outcome (p.transform t) st = .ok (p', st')) :
    Select.RunsIn t 0 p.visited st st' [] p.select p'.select ∧
      List.Forall₂ (Expr.RunsIn t 0 p.visited st st' [p.select])
        p.projector.exprs p'.projector.exprs := by
  obtain ⟨st₁, hselect, hprojector⟩ := Projection.of_outcome_transform h
  have exprs := Projector.of_outcome_transform hprojector
  have below := Expr.subqueries_of_mapM leaves exprs
  have single : outcome ([p.select].mapM (Select.transform t 0)) st = .ok ([p'.select], st₁) :=
    outcome_mapM_cons_eq_ok_iff.2 ⟨p'.select, [], st₁, hselect, outcome_mapM_nil _ _, rfl⟩
  have after : Select.Stretch t 0 p.visited st st' [p.select]
      (p.projector.exprs.flatMap Expr.subqueries) st₁ st' :=
    .intro (List.append_nil _).symm (List.Subset.refl _) single below (outcome_mapM_nil _ _)
  refine ⟨⟨st, st₁, ?_, hselect⟩, (Expr.runsIn_of_mapM leaves exprs).imp fun e e' runs => ?_⟩
  · exact .intro rfl (List.nil_subset _) (outcome_mapM_nil _ _) single below
  · have wide := runs.widen after
    rwa [List.append_nil] at wide

end Parts

end HiveQuery
