import HiveQuery.Proofs.Replacement
/-!
# Rebuilt trees

A transformation that leaves the leaves of expressions alone rebuilds a tree from below: the selects
below a select are rebuilt, put in their places, and the select that holds them is acted upon
(`Select.Rebuilt`). This file says so without the run and its states. A select stands at the top of
its query, in a source or in an expression, and a label that is declared once has one such place
(`Projection.Places.unique`). A valid tree stays valid when it is rebuilt if no action drops what is
used (`Projection.Rebuilt.checks`).
-/

namespace HiveQuery

open Outcome

/-! ## Rebuilt selects -/

/-- **A select is rebuilt from below**: the selects below it are, each in its place, and then an
action is taken on the select that they have been put into. -/
inductive Select.Rebuilt (act : SelectPlace → Select → Select → Prop) :
    SelectPlace → Select → Select → Prop
  | intro {R : SelectPlace → Select → Select → Prop} {place : SelectPlace} {s s₁ s' : Select}
      (below : ∀ place q q', R place q q' → Rebuilt act place q q') (parts : s.Over R s₁)
      (here : act place s₁ s') : Rebuilt act place s s'

namespace Select.Rebuilt

variable {act act' : SelectPlace → Select → Select → Prop} {place : SelectPlace} {s s' : Select}

/-- Induction from the selects below to the one above them. -/
@[elab_as_elim]
theorem induction {motive : SelectPlace → Select → Select → Prop}
    (step : ∀ place s s₁ s',
      s.Over (fun place q q' => q.Rebuilt act place q' ∧ motive place q q') s₁ →
        act place s₁ s' → motive place s s')
    (h : s.Rebuilt act place s') : motive place s s' := by
  induction h with
  | intro below parts here ih =>
    exact step _ _ _ _ (parts.imp (fun q _ q' hr => ⟨below _ q q' hr, ih _ q q' hr⟩)
      fun _ _ q _ q' hr => ⟨below _ q q' hr, ih _ q q' hr⟩) here

/-- A select is rebuilt from below: first the selects in it, then it. -/
theorem parts (h : s.Rebuilt act place s') : ∃ s₁, s.Over (Rebuilt act) s₁ ∧ act place s₁ s' := by
  obtain ⟨below, parts, here⟩ := h
  exact ⟨_, parts.imp (fun q _ => below _ q) fun _ _ q _ => below _ q, here⟩

theorem imp (h : s.Rebuilt act place s')
    (weaken : ∀ place q q', act place q q' → act' place q q') : s.Rebuilt act' place s' := by
  induction h with
  | intro _ parts here ih => exact .intro ih parts (weaken _ _ _ here)

end Select.Rebuilt

/-! ## Rebuilt queries -/

/-- The second projector is the first one with other selects in its subqueries. -/
inductive Projector.Over (R : Select → Select → Prop) : Projector → Projector → Prop
  | entity {name : String} {bindings bindings' : List Binding}
      (h : List.Forall₂ (fun b b' : Binding => b'.member = b.member ∧ b.expr.Over R b'.expr)
        bindings bindings') : Over R (.entity name bindings) (.entity name bindings')
  | scalar {e e' : Expr} (h : e.Over R e') : Over R (.scalar e) (.scalar e')

/-- The expressions of two projectors are related place by place. -/
theorem Projector.Over.exprs {R : Select → Select → Prop} {r r' : Projector} (h : r.Over R r') :
    List.Forall₂ (Expr.Over R) r.exprs r'.exprs := by
  cases h with
  | entity h =>
    exact List.forall₂_map_right_iff.2 (List.forall₂_map_left_iff.2
      (h.imp fun _ _ alike => alike.2))
  | scalar h => exact .cons h .nil

theorem Projector.Over.imp {R S : Select → Select → Prop} {r r' : Projector} (h : r.Over R r')
    (weaken : ∀ e ∈ r.exprs, ∀ q ∈ e.subqueries, ∀ q', R q q' → S q q') : r.Over S r' := by
  cases h with
  | entity h =>
    refine .entity (forall₂_imp_of_mem h fun b hb b' _ alike => ⟨alike.1, ?_⟩)
    exact alike.2.imp (weaken b.expr (List.mem_map_of_mem hb))
  | scalar h => exact .scalar (h.imp (weaken _ (List.mem_singleton_self _)))

/-- **A query is rebuilt** if its select and the subqueries of its projector are. -/
structure Projection.Rebuilt (act : SelectPlace → Select → Select → Prop) (p p' : Projection) :
    Prop where
  select : p.select.Rebuilt act .top p'.select
  projector : p.projector.Over (Select.Rebuilt act .expression) p'.projector

/-! ## The places of a query -/

/-- **Where a select stands in a query**: at the top, in the source of a select, or in an expression
of a select or of the projector. -/
inductive Projection.Places (p : Projection) : SelectPlace → Select → Prop
  | top : Places p .top p.select
  | source {place : SelectPlace} {s q : Select} (h : Places p place s) (hq : q ∈ s.sources) :
      Places p .source q
  | clause {place : SelectPlace} {s q : Select} {e : Expr} (h : Places p place s)
      (he : e ∈ s.exprs) (hq : q ∈ e.subqueries) : Places p .expression q
  | projector {q : Select} {e : Expr} (he : e ∈ p.projector.exprs) (hq : q ∈ e.subqueries) :
      Places p .expression q

namespace Projection

variable {p p' : Projection} {place place' : SelectPlace} {s q q' : Select}

/-- What a select holds has a place if the select has one. -/
theorem Places.holds (h : p.Places place s) (holds : s.Holds q) : ∃ place, p.Places place q := by
  induction holds generalizing place with
  | self => exact ⟨place, h⟩
  | child hc _ ih =>
    rcases Select.mem_children_iff.1 hc with hc | ⟨e, he, hc⟩
    · exact ih (.source h hc)
    · exact ih (.clause h he hc)

/-- A select with a place in a query is a node of it. -/
theorem Places.mem_nodes (h : p.Places place q) : .select q ∈ p.nodes := by
  induction h with
  | top => exact mem_nodes_iff_holds.2 ⟨p.select, List.mem_cons_self, .self _⟩
  | source _ hq ih => exact select_mem_nodes_of_child ih (Select.mem_children_iff.2 (.inl hq))
  | clause _ he hq ih =>
    exact select_mem_nodes_of_child ih (Select.mem_children_iff.2 (.inr ⟨_, he, hq⟩))
  | projector he hq =>
    exact mem_nodes_iff_holds.2
      ⟨_, List.mem_cons_of_mem _ (List.mem_flatMap_of_mem he hq), .self _⟩

/-- **Every select of a query has a place.** -/
theorem exists_places (h : .select q ∈ p.nodes) : ∃ place, p.Places place q := by
  obtain ⟨s, hs, holds⟩ := mem_nodes_iff_holds.1 h
  rcases List.mem_cons.1 hs with rfl | hs
  · exact Places.top.holds holds
  · obtain ⟨e, he, hs⟩ := List.mem_flatMap.1 hs
    exact (Places.projector he hs).holds holds

/-- **What is left of a query stood in the same places**, if no more is done to a select than that
it loses columns. -/
theorem Places.of_rebuilt {act : SelectPlace → Select → Select → Prop} (rebuilt : p.Rebuilt act p')
    (drops : ∀ place s s', act place s s' → s.Drops s') (h : p'.Places place q') :
    ∃ q, p.Places place q ∧ q.Rebuilt act place q' := by
  induction h with
  | top => exact ⟨p.select, .top, rebuilt.select⟩
  | source _ hq ih =>
    obtain ⟨s, hs, h⟩ := ih
    obtain ⟨s₁, parts, here⟩ := h.parts
    rw [(drops _ _ _ here).sources] at hq
    obtain ⟨q, hq, h⟩ := exists_of_forall₂_of_mem parts.sources hq
    exact ⟨q, .source hs hq, h⟩
  | clause _ he hq ih =>
    obtain ⟨s, hs, h⟩ := ih
    obtain ⟨s₁, parts, here⟩ := h.parts
    obtain ⟨e, he, part⟩ := exists_of_forall₂_of_mem parts.exprs ((drops _ _ _ here).exprs he)
    obtain ⟨q, hq, h⟩ := exists_of_forall₂_of_mem part.subqueries hq
    exact ⟨q, .clause hs he hq, h⟩
  | projector he hq =>
    obtain ⟨e, he, part⟩ := exists_of_forall₂_of_mem rebuilt.projector.exprs he
    obtain ⟨q, hq, h⟩ := exists_of_forall₂_of_mem part.subqueries hq
    exact ⟨q, .projector he hq, h⟩

end Projection

/-! ## A label has one place -/

/-- The label of what a node holds directly. -/
def Node.inner? : Node → Option String
  | .source (.table _ label) => some label
  | .source (.subquery query) => some query.label
  | .expr e => e.query?.map (·.label)
  | _ => none

/-- The labels of an expression are those that its nodes declare, if this holds of its
subqueries. -/
theorem Expr.labels_perm_inner {e : Expr}
    (below : ∀ q ∈ e.subqueries, q.labels.Perm (q.label :: q.nodes.filterMap Node.inner?)) :
    e.labels.Perm (e.nodes.filterMap Node.inner?) := by
  induction e using parts_induction with
  | step e ih =>
    rw [subqueries_eq] at below
    simp only [List.forall_mem_append, List.forall_mem_flatMap, Option.mem_toList] at below
    have parts : (e.parts.flatMap labels).Perm
        ((e.parts.flatMap nodes).filterMap Node.inner?) := by
      rw [List.filterMap_flatMap]
      exact List.Perm.flatMap_left _ fun p hp => ih p hp (below.1 p hp)
    have inner : Node.inner? (.expr e) = e.query?.map (·.label) := rfl
    rw [labels_eq, nodes_eq, List.filterMap_cons, inner, List.filterMap_append]
    cases hq : e.query? with
    | none => simpa [hq] using parts
    | some q =>
      have own := below.2 q hq
      simp only [Option.toList_some, List.flatMap_singleton, Option.map_some]
      exact (parts.append own).trans List.perm_middle

theorem Source.labels_perm_inner {source : Source}
    (below : ∀ q ∈ source.visited, q.labels.Perm (q.label :: q.nodes.filterMap Node.inner?)) :
    source.labels.Perm (source.nodes.filterMap Node.inner?) := by
  induction source using join_induction with
  | table => exact .refl _
  | subquery query =>
    rw [labels_subquery]
    exact below query (List.mem_singleton_self _)
  | join kind left right condition ihl ihr =>
    simp only [visited, List.forall_mem_append, List.forall_mem_flatMap] at below
    have conditions : (condition.toList.flatMap Expr.labels).Perm
        ((condition.toList.flatMap Expr.nodes).filterMap Node.inner?) := by
      rw [List.filterMap_flatMap]
      exact List.Perm.flatMap_left _ fun e he => Expr.labels_perm_inner (below.2 e he)
    rw [labels_join, nodes, Expr.nodesOption_eq, List.filterMap_cons_none rfl,
      List.filterMap_append, List.filterMap_append]
    exact ((ihl below.1.1).append (ihr below.1.2)).append conditions

/-- **The labels of a select are its own and those that the nodes below it declare**, each once. -/
theorem Select.labels_perm_inner (s : Select) :
    s.labels.Perm (s.label :: s.nodes.filterMap Node.inner?) := by
  induction s using children_induction with
  | step s ih =>
    have below : ∀ q ∈ s.visited, q.labels.Perm (q.label :: q.nodes.filterMap Node.inner?) :=
      fun q hq => ih q (mem_visited_iff.1 hq)
    simp only [visited, List.forall_mem_append, List.forall_mem_flatMap] at below
    rw [labels_eq, nodes_eq, List.filterMap_cons_none rfl, List.filterMap_append,
      List.filterMap_flatMap, List.filterMap_flatMap]
    refine .cons _ (.append ?_ ?_)
    · exact List.Perm.flatMap_left _ fun a ha => Source.labels_perm_inner (below.1 a ha)
    · exact List.Perm.flatMap_left _ fun e he => Expr.labels_perm_inner (below.2 e he)

/-- **A query declares the label of its select, and every other label where that is held.** -/
theorem Projection.labels_perm_inner (p : Projection) :
    p.labels.Perm (p.select.label :: p.nodes.filterMap Node.inner?) := by
  rw [labels_eq, nodes, List.filterMap_append, List.filterMap_flatMap, ← List.cons_append]
  refine p.select.labels_perm_inner.append (List.Perm.flatMap_left _ fun e _ => ?_)
  exact Expr.labels_perm_inner fun q _ => q.labels_perm_inner

/-- The kind of place that a node is for what it holds. -/
def Node.place? : Node → Option SelectPlace
  | .source _ => some .source
  | .expr _ => some .expression
  | .select _ => none

theorem Source.subquery_mem_nodes {source : Source} {q : Select} (h : q ∈ source.selects) :
    .source (.subquery q) ∈ source.nodes := by
  induction source using join_induction with
  | table => cases h
  | subquery query =>
    obtain rfl := List.mem_singleton.1 h
    exact List.mem_cons_self
  | join kind left right condition ihl ihr =>
    rw [nodes, List.mem_cons, List.mem_append, List.mem_append]
    exact .inr (.inl ((List.mem_append.1 h).imp ihl ihr))

namespace Projection

variable {p : Projection} {place place' : SelectPlace} {s q q' : Select}

/-- The nodes of a select in a query are nodes of the query. -/
theorem nodes_subset_of_mem (h : .select s ∈ p.nodes) : s.nodes ⊆ p.nodes := by
  obtain ⟨root, hroot, holds⟩ := mem_nodes_iff_holds.1 h
  refine List.Subset.trans holds.nodes_subset ?_
  rcases List.mem_cons.1 hroot with rfl | hroot
  · exact List.subset_append_left _ _
  · obtain ⟨e, he, hroot⟩ := List.mem_flatMap.1 hroot
    exact List.subset_append_of_subset_right _ fun n hn =>
      List.mem_flatMap_of_mem he (Expr.nodes_subset_of_mem_subqueries hroot hn)

/-- A select below the top is held by a node that says what its place is. -/
theorem Places.exists_node (h : p.Places place q) :
    place = .top ∧ q = p.select ∨
      ∃ n ∈ p.nodes, n.inner? = some q.label ∧ n.place? = some place := by
  have query : ∀ e : Expr, e.nodes ⊆ p.nodes → q ∈ e.subqueries →
      ∃ n ∈ p.nodes, n.inner? = some q.label ∧ n.place? = some .expression := by
    intro e sub hq
    obtain ⟨e', he', hquery⟩ := Expr.exists_query?_of_mem_subqueries hq
    exact ⟨.expr e', sub he', by rw [Node.inner?, hquery]; rfl, rfl⟩
  cases h with
  | top => exact .inl ⟨rfl, rfl⟩
  | source hs hq =>
    obtain ⟨source, hsource, hq⟩ := List.mem_flatMap.1 hq
    refine .inr ⟨.source (.subquery q), nodes_subset_of_mem hs.mem_nodes ?_, rfl, rfl⟩
    rw [Select.nodes_eq, List.mem_cons, List.mem_append]
    exact .inr (.inl (List.mem_flatMap_of_mem hsource (Source.subquery_mem_nodes hq)))
  | clause hs he hq =>
    refine .inr (query _ (List.Subset.trans ?_ (nodes_subset_of_mem hs.mem_nodes)) hq)
    rcases List.mem_append.1 he with he | he
    · exact Select.nodes_subset_of_mem_clauses he
    · exact Select.nodes_subset_of_mem_conditions he
  | projector he hq =>
    exact .inr (query _ (List.subset_append_of_subset_right _ fun n hn =>
      List.mem_flatMap_of_mem he hn) hq)

/-- **A label that is declared once has one place.** -/
theorem Places.unique (labels : p.labels.Nodup) (h : p.Places place q) (h' : p.Places place' q')
    (same : q'.label = q.label) : place' = place := by
  have inner := p.labels_perm_inner.nodup_iff.1 labels
  rw [List.nodup_cons] at inner
  -- the node around a select tells its place, and no two nodes have a select of one label inside
  rcases h.exists_node with ⟨rfl, rfl⟩ | ⟨n, hn, label, hplace⟩
  · rcases h'.exists_node with ⟨rfl, -⟩ | ⟨n', hn', label', -⟩
    · rfl
    · rw [same] at label'
      exact absurd (List.mem_filterMap.2 ⟨n', hn', label'⟩) inner.1
  · rcases h'.exists_node with ⟨-, rfl⟩ | ⟨n', hn', label', hplace'⟩
    · rw [← same] at label
      exact absurd (List.mem_filterMap.2 ⟨n, hn, label⟩) inner.1
    · rw [same] at label'
      obtain rfl := eq_of_nodup_filterMap inner.2 hn hn' label label'
      exact Option.some.inj (hplace'.symm.trans hplace)

end Projection

/-! ## What a transformation makes of a tree -/

section Transform

variable {m : Type → Type} [Monad m] [LawfulMonad m] {σ : Type} [Outcome m σ]
variable {t : Transform m} {depth : Nat} {st st' : σ}

/-- The transformation has made the second select of the first, from some state. -/
def Select.Becomes (t : Transform m) (depth : Nat) (s s' : Select) : Prop :=
  ∃ st st' : σ, outcome (s.transform t depth) st = .ok (s', st')

variable (hleaf : ∀ e : Expr, t.leaf e = pure e)
include hleaf

/-- A transformed expression is over the transformed selects of its subqueries, -/
theorem Expr.over_of_transform {e e' : Expr}
    (h : outcome (e.transform t depth) st = .ok (e', st')) :
    e.Over (Select.Becomes t depth) e' := by
  induction e using parts_induction generalizing e' st st' with
  | step e ih =>
    rw [transform_eq] at h
    by_cases leaf : e.isLeaf
    · rw [if_pos leaf, hleaf] at h
      obtain ⟨rfl, -⟩ := outcome_pure_eq_ok_iff.1 h
      refine .refl fun q hq => ?_
      rw [subqueries_eq, parts_of_isLeaf leaf, query?_of_isLeaf leaf] at hq
      cases hq
    · rw [if_neg leaf, traverseParts, outcome_bind_eq_ok_iff] at h
      obtain ⟨ps, st₁, hps, h⟩ := h
      rw [outcome_bind_eq_ok_iff] at h
      obtain ⟨qs, st₂, hqs, h⟩ := h
      obtain ⟨rfl, -⟩ := outcome_pure_eq_ok_iff.1 h
      have parts : List.Forall₂ (Over (Select.Becomes t depth)) e.parts ps := by
        refine forall₂_imp_of_mem (forall₂_of_outcome_mapM hps) ?_
        rintro p hp p' - ⟨_, _, part⟩
        exact ih p hp part
      have queries := forall₂_of_outcome_mapM hqs
      refine .intro parts ?_
      generalize e.query? = query at queries
      cases query with
      | none =>
        cases queries
        exact .none
      | some q =>
        cases queries with
        | cons run rest => exact .some run

/-- and so is a transformed source. -/
theorem Source.over_of_transform {source source' : Source}
    (h : outcome (source.transform t depth) st = .ok (source', st')) :
    source.Over (fun _ => Select.Becomes t depth) source' := by
  induction source using join_induction generalizing source' st st' with
  | table name label =>
    obtain ⟨rfl, -⟩ := outcome_pure_eq_ok_iff.1 h
    exact .table name label
  | subquery query =>
    obtain ⟨query', rfl, hquery⟩ := Source.of_outcome_transform_subquery h
    exact .subquery ⟨_, _, hquery⟩
  | join kind left right condition ihl ihr =>
    obtain ⟨left', right', condition', st₁, st₂, rfl, hleft, hright, -, hcondition⟩ :=
      Source.of_outcome_transform_join h
    refine .join (ihl hleft) (ihr hright) (rel_imp_of_mem hcondition ?_)
    rintro e - e' ⟨_, _, run⟩
    exact Expr.over_of_transform hleaf run

/-- Before the action, a transformed select is over what the selects below it have become. -/
theorem Select.over_of_transformParts {s s₁ : Select}
    (h : outcome (s.transformParts t depth) st = .ok (s₁, st')) :
    s.Over (fun _ => Select.Becomes t (depth + 1)) s₁ := by
  obtain ⟨st₁, hsource, -, alike⟩ := of_outcome_transformParts h
  refine ⟨alike.imp fun e _ e' ⟨_, _, run⟩ => Expr.over_of_transform hleaf run, ?_⟩
  rcases Source.of_outcome_transformOption hsource with
    ⟨hs, hs₁, -⟩ | ⟨source, source₁, hs, hs₁, hsource⟩
  · rw [hs, hs₁]
    exact .none
  · rw [hs, hs₁]
    exact .some (Source.over_of_transform hleaf hsource)

variable {p : Projection} {act : SelectPlace → Select → Select → Prop}

/-- **A transformation that leaves the leaves alone rebuilds a tree.** Its action meets a select as
it was, but for the selects below it. -/
theorem Select.rebuilt_of_transform
    (acts : ∀ place q q₁ depth (st : σ) q' st', p.Places place q →
      q.Over (fun _ => Select.Becomes t (depth + 1)) q₁ →
        outcome (t.select depth q₁) st = .ok (q', st') → act place q₁ q')
    {place : SelectPlace} {s s' : Select} (hs : p.Places place s)
    (h : outcome (s.transform t depth) st = .ok (s', st')) : s.Rebuilt act place s' := by
  induction s using children_induction generalizing place depth st st' s' with
  | step s ih =>
    rw [transform_eq, outcome_bind_eq_ok_iff] at h
    obtain ⟨s₁, st₁, hparts, hact⟩ := h
    have parts := over_of_transformParts hleaf hparts
    refine .intro (R := Rebuilt act) (fun _ _ _ rebuilt => rebuilt) (parts.imp ?_ ?_)
      (acts place s s₁ depth st₁ s' st' hs parts hact)
    · rintro q hq q' ⟨_, _, run⟩
      exact ih q (mem_children_iff.2 (.inl hq)) (.source hs hq) run
    · rintro e he q hq q' ⟨_, _, run⟩
      exact ih q (mem_children_iff.2 (.inr ⟨e, he, hq⟩)) (.clause hs he hq) run

theorem Binding.forall₂_of_transformList {bs bs' : List Binding}
    (h : outcome (Binding.transformList t bs) st = .ok (bs', st')) :
    List.Forall₂ (fun b b' : Binding => b'.member = b.member ∧
      b.expr.Over (Select.Becomes t 0) b'.expr) bs bs' := by
  induction bs generalizing st st' bs' with
  | nil =>
    obtain ⟨rfl, -⟩ := outcome_pure_eq_ok_iff.1 h
    exact .nil
  | cons b bs ih =>
    obtain ⟨member, expr⟩ := b
    rw [Binding.transformList, outcome_bind_eq_ok_iff] at h
    obtain ⟨expr', st₁, hexpr, h⟩ := h
    rw [outcome_bind_eq_ok_iff] at h
    obtain ⟨bs₁, st₂, hbs, h⟩ := h
    obtain ⟨rfl, -⟩ := outcome_pure_eq_ok_iff.1 h
    exact .cons ⟨rfl, Expr.over_of_transform hleaf hexpr⟩ (ih hbs)

/-- A transformed projector is over the transformed selects of its expressions. -/
theorem Projector.over_of_transform {r r' : Projector}
    (h : outcome (r.transform t) st = .ok (r', st')) : r.Over (Select.Becomes t 0) r' := by
  cases r with
  | entity name bindings =>
    rw [Projector.transform, outcome_bind_eq_ok_iff] at h
    obtain ⟨bs, st₁, hbs, h⟩ := h
    obtain ⟨rfl, -⟩ := outcome_pure_eq_ok_iff.1 h
    exact .entity (Binding.forall₂_of_transformList hleaf hbs)
  | scalar expr =>
    rw [Projector.transform, outcome_bind_eq_ok_iff] at h
    obtain ⟨expr', st₁, hexpr, h⟩ := h
    obtain ⟨rfl, -⟩ := outcome_pure_eq_ok_iff.1 h
    exact .scalar (Expr.over_of_transform hleaf hexpr)

/-- The same for a query. -/
theorem Projection.rebuilt_of_transform
    (acts : ∀ place q q₁ depth (st : σ) q' st', p.Places place q →
      q.Over (fun _ => Select.Becomes t (depth + 1)) q₁ →
        outcome (t.select depth q₁) st = .ok (q', st') → act place q₁ q')
    {p' : Projection} (h : outcome (p.transform t) st = .ok (p', st')) : p.Rebuilt act p' := by
  obtain ⟨st₁, hselect, hprojector⟩ := of_outcome_transform h
  refine ⟨Select.rebuilt_of_transform hleaf acts .top hselect, ?_⟩
  refine (Projector.over_of_transform hleaf hprojector).imp ?_
  rintro e he q hq q' ⟨_, _, run⟩
  exact Select.rebuilt_of_transform hleaf acts (.projector he hq) run

end Transform

/-! ## Validity -/

/-- The second select has the label of the first and all columns of it that are used. -/
structure Select.Shows (used : String × String → Prop) (s s' : Select) : Prop where
  label : s'.label = s.label
  names : ∀ name ∈ s.columnNames, used (s.label, name) → name ∈ s'.columnNames

section Validity

variable {used : String × String → Prop}

/-- What is used resolves where all selects show what is used of them. -/
theorem Scope.Pairs.resolves {scope scope' : Scope}
    (pairs : Scope.Pairs (Select.Shows used) scope scope') {r : String × String} (hr : used r)
    (resolves : scope.error? r = none) : scope'.error? r = none := by
  have related := pairs.find? (fun _ _ shows => shows.label) r.1
  rw [Scope.error?] at resolves ⊢
  generalize scope.find? r.1 = visible, scope'.find? r.1 = visible' at related resolves
  cases related with
  | none => cases resolves
  | @some x y pair =>
    cases x with
    | table =>
      obtain rfl : y = .table := pair.of_table rfl
      rfl
    | columns names =>
      obtain ⟨v, v', shows, label, rfl, hy⟩ := pair.of_columns rfl
      obtain rfl : y = .columns v'.columnNames := hy
      simp only at resolves label ⊢
      split at resolves
      · next shown =>
        have shown := List.contains_iff_mem.1 shown
        have shown' := shows.names r.2 shown (by rw [label]; exact hr)
        exact if_pos (List.contains_iff_mem.2 shown')
      · cases resolves

/-- The second select is valid where the first one is, as far as the scopes show what is used. -/
def Select.StaysValid (used : String × String → Prop) (s s' : Select) : Prop :=
  ∀ scope scope', Scope.Pairs (Select.Shows used) scope scope' → s.Everywhere (Select.Uses used) →
    s.check scope = .ok () → s'.check scope' = .ok ()

/-- An expression keeps its references, and its subqueries stay valid. -/
theorem Scope.Pairs.accepts {scope scope' : Scope}
    (pairs : Scope.Pairs (Select.Shows used) scope scope') {e e' : Expr}
    (part : e.Over (Select.StaysValid used) e') (refs : ∀ r ∈ e.localRefs, used r)
    (below : ∀ q ∈ e.subqueries, q.Everywhere (Select.Uses used)) (accepts : scope.Accepts e) :
    scope'.Accepts e' := by
  refine ⟨fun r hr => ?_, fun q' hq' => ?_⟩
  · rw [part.localRefs] at hr
    exact pairs.resolves (refs r hr) (accepts.resolves r hr)
  · obtain ⟨q, hq, valid⟩ := exists_of_forall₂_of_mem part.subqueries hq'
    exact valid scope scope' pairs (below q hq) (accepts.queries q hq)

variable {act : SelectPlace → Select → Select → Prop}
variable (keeps : ∀ place s s', act place s s' → ∀ scope, s.check scope = .ok () →
  s'.check scope = .ok ())
variable (shows : ∀ place s s', act place s s' → s.Shows used s')
include keeps shows

/-- **A valid select that is rebuilt stays valid**, if the action keeps a select valid and drops
nothing that is used. -/
theorem Select.Rebuilt.staysValid {place : SelectPlace} {s s' : Select}
    (h : s.Rebuilt act place s') : s.Shows used s' ∧ s.StaysValid used s' := by
  refine h.induction (motive := fun _ s s' => s.Shows used s' ∧ s.StaysValid used s') ?_
  intro place s s₁ s' parts here
  have own := shows place s₁ s' here
  have names := parts.mirrors.columnNames
  refine ⟨⟨own.label.trans parts.label, ?_⟩, fun scope scope' pairs uses check => ?_⟩
  · rw [← names, ← parts.label]
    exact own.names
  · obtain ⟨usesHere, usesBelow⟩ := everywhere_iff.1 uses
    have checks := check_eq_ok_iff.1 check
    -- the sources are rebuilt first, and what they show is what the clauses see
    have inner : Scope.Pairs (Select.Shows used) (s.frame :: scope) (s₁.frame :: scope') :=
      .cons (parts.frame.imp fun _ _ pair => pair.imp fun _ _ below => below.2.1) pairs
    have accepts : ∀ e ∈ s.exprs, Scope.Accepts (s.frame :: scope) e → ∀ e',
        e.Over (fun q q' => q.Rebuilt act .expression q' ∧ q.Shows used q' ∧ q.StaysValid used q')
          e' → Scope.Accepts (s₁.frame :: scope') e' :=
      fun e he accepts e' part => inner.accepts (part.imp fun _ _ _ below => below.2.2)
        (usesHere e he) (fun q hq => usesBelow q (mem_children_iff.2 (.inr ⟨e, he, hq⟩))) accepts
    refine keeps place s₁ s' here scope' (check_eq_ok_iff.2 ⟨names ▸ checks.names, ?_, ?_, ?_⟩)
    · intro q' hq'
      obtain ⟨q, hq, below⟩ := exists_of_forall₂_of_mem parts.sources hq'
      exact below.2.2 scope scope' pairs (usesBelow q (mem_children_iff.2 (.inl hq)))
        (checks.sources q hq)
    · intro e' he'
      obtain ⟨e, he, part⟩ := exists_of_forall₂_of_mem parts.mirrors.clauses he'
      exact accepts e (List.mem_append_left _ he) (checks.clauses e he) e' part
    · intro e' he'
      obtain ⟨e, he, part⟩ := exists_of_forall₂_of_mem parts.mirrors.conditions he'
      exact accepts e (List.mem_append_right _ he) (checks.conditions e he) e' part

/-- **A valid query that is rebuilt is valid** but for its labels. -/
theorem Projection.Rebuilt.checks {p p' : Projection} (h : p.Rebuilt act p')
    (uses : p.select.Everywhere (Select.Uses used))
    (reads : ∀ e ∈ p.projector.exprs, ∀ r ∈ e.localRefs, used r) (checks : p.Checks) :
    p'.select.check [] = .ok () ∧ p'.checkProjector = .ok () := by
  obtain ⟨top, select⟩ := h.select.staysValid keeps shows
  refine ⟨select [] [] .nil uses checks.select, checkProjector_eq_ok_iff.2 fun e' he' r hr => ?_⟩
  obtain ⟨e, he, part⟩ := exists_of_forall₂_of_mem h.projector.exprs he'
  rw [part.localRefs] at hr
  have pairs : Scope.Pairs (Select.Shows used) [(Source.subquery p.select).frame]
      [(Source.subquery p'.select).frame] := .cons (.cons (.select top) .nil) .nil
  exact pairs.resolves (reads e he r hr) (checks.projector e he r hr)

end Validity

end HiveQuery
