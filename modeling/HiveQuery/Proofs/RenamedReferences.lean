import HiveQuery.Proofs.MergeComplete
import HiveQuery.Proofs.Resolution
/-!
# Renamed references

A tree is read by one traversal and rebuilt by another. A transformation that acts on nothing but
references shows that the two go the same way: the references of the result, in the order in which
a reader meets them, stand one by one in the relation of the action to those of before
(`Select.forall₂_refs_of_transform`). None is passed over, met twice or moved. Renaming is the case
of a function (`Statement.refs_renameRefs`).
-/

namespace HiveQuery

open Outcome

/-! ## Replacing references -/

/-- The references of a query are those of its select, then those of its projector. -/
theorem Projection.refs_eq (p : Projection) :
    p.refs = p.select.refs ++ p.projector.exprs.flatMap Expr.refs := by
  rw [Projection.refs, Projection.nodes, List.filterMap_append, List.filterMap_flatMap]
  rfl

section Transform

variable {m : Type → Type} [Monad m] [LawfulMonad m] {σ : Type} [Outcome m σ]

/-- The transformation leaves selects alone, and makes a leaf of a leaf, whose reference stands in
the relation to the one before. -/
structure Transform.Replaces (t : Transform m) (L : String × String → String × String → Prop) :
    Prop where
  leaf : ∀ e : Expr, e.isLeaf → ∀ (st : σ) e' st', outcome (t.leaf e) st = .ok (e', st') →
    e'.isLeaf ∧ Option.Rel L e.ref? e'.ref?
  select : ∀ depth s (st : σ) s' st', outcome (t.select depth s) st = .ok (s', st') → s' = s

variable {t : Transform m} {L : String × String → String × String → Prop} (replaces : t.Replaces L)
variable {depth : Nat} {st st' : σ}
include replaces

/-- The references of an expression are related place by place, if those of its subqueries are. -/
theorem Expr.forall₂_refs_of_transform {e e' : Expr}
    (below : ∀ q ∈ e.subqueries, ∀ (st : σ) q' st',
      outcome (q.transform t depth) st = .ok (q', st') → List.Forall₂ L q.refs q'.refs)
    (h : outcome (e.transform t depth) st = .ok (e', st')) : List.Forall₂ L e.refs e'.refs := by
  induction e using Expr.parts_induction generalizing e' st st' with
  | step e ih =>
    rw [Expr.subqueries_eq] at below
    simp only [List.forall_mem_append, List.forall_mem_flatMap] at below
    obtain ⟨inParts, inQuery⟩ := below
    rw [Expr.transform_eq] at h
    rw [Expr.refs_eq, Expr.refs_eq e']
    by_cases hleaf : e.isLeaf
    · rw [if_pos hleaf] at h
      obtain ⟨hleaf', href⟩ := replaces.leaf e hleaf st e' st' h
      rw [Expr.parts_of_isLeaf hleaf, Expr.query?_of_isLeaf hleaf, Expr.parts_of_isLeaf hleaf',
        Expr.query?_of_isLeaf hleaf']
      exact List.rel_append (forall₂_toList href) .nil
    · rw [if_neg hleaf] at h
      obtain ⟨st₁, hparts, hquery, href, -⟩ := Expr.of_outcome_traverseParts h
      rw [href, Expr.ref?_of_not_isLeaf hleaf]
      refine List.rel_append .nil (List.rel_append ?_ ?_)
      · refine forall₂_flatMap (forall₂_of_outcome_mapM hparts) ?_
        rintro p hp p' ⟨_, _, run⟩
        exact ih p hp (inParts p hp) run
      · refine forall₂_flatMap (forall₂_of_outcome_mapM hquery) ?_
        rintro q hq q' ⟨st, st', run⟩
        exact inQuery q hq st q' st' run

/-- The same of expressions that are transformed one after the other. -/
theorem Expr.forall₂_refs_of_mapM {es es' : List Expr}
    (below : ∀ e ∈ es, ∀ q ∈ e.subqueries, ∀ (st : σ) q' st',
      outcome (q.transform t depth) st = .ok (q', st') → List.Forall₂ L q.refs q'.refs)
    (h : outcome (es.mapM (Expr.transform t depth)) st = .ok (es', st')) :
    List.Forall₂ L (es.flatMap Expr.refs) (es'.flatMap Expr.refs) := by
  refine forall₂_flatMap (forall₂_of_outcome_mapM h) ?_
  rintro e he e' ⟨_, _, run⟩
  exact Expr.forall₂_refs_of_transform replaces (below e he) run

/-- The same of a source, if it holds of the selects that a traversal visits in it. -/
theorem Source.forall₂_refs_of_transform {source source' : Source}
    (below : ∀ q ∈ source.visited, ∀ (st : σ) q' st',
      outcome (q.transform t depth) st = .ok (q', st') → List.Forall₂ L q.refs q'.refs)
    (h : outcome (source.transform t depth) st = .ok (source', st')) :
    List.Forall₂ L source.refs source'.refs := by
  induction source using Source.join_induction generalizing source' st st' with
  | table name label =>
    obtain ⟨rfl, -⟩ := outcome_pure_eq_ok_iff.1 h
    exact .nil
  | subquery query =>
    obtain ⟨query', rfl, hquery⟩ := Source.of_outcome_transform_subquery h
    exact below query (List.mem_singleton_self _) st query' st' hquery
  | join kind left right condition ihl ihr =>
    simp only [Source.visited, List.forall_mem_append, List.forall_mem_flatMap] at below
    obtain ⟨⟨inLeft, inRight⟩, inCondition⟩ := below
    obtain ⟨left', right', condition', st₁, st₂, rfl, hleft, hright, hcondition, -⟩ :=
      Source.of_outcome_transform_join h
    rw [Source.refs_join, Source.refs_join]
    exact List.rel_append (List.rel_append (ihl inLeft hleft) (ihr inRight hright))
      (Expr.forall₂_refs_of_mapM replaces inCondition hcondition)

/-- **A transformation that replaces references replaces them one by one**, in the order in which
they are read. -/
theorem Select.forall₂_refs_of_transform {s s' : Select}
    (h : outcome (s.transform t depth) st = .ok (s', st')) : List.Forall₂ L s.refs s'.refs := by
  induction s using Select.children_induction generalizing s' depth st st' with
  | step s ih =>
    rw [Select.transform_eq, outcome_bind_eq_ok_iff] at h
    obtain ⟨s₁, st₁, hparts, hact⟩ := h
    obtain rfl := replaces.select depth s₁ st₁ s' st' hact
    obtain ⟨st₂, hsource, hclauses, -⟩ := Select.of_outcome_transformParts hparts
    have below : ∀ q ∈ s.visited, ∀ (st : σ) q' st',
        outcome (q.transform t (depth + 1)) st = .ok (q', st') → List.Forall₂ L q.refs q'.refs :=
      fun q hq st q' st' run => ih q (Select.mem_visited_iff.1 hq) run
    simp only [Select.visited, List.forall_mem_append, List.forall_mem_flatMap] at below
    obtain ⟨inSource, inClauses⟩ := below
    rw [Select.refs_eq, Select.refs_eq s']
    refine List.rel_append ?_ (Expr.forall₂_refs_of_mapM replaces inClauses hclauses)
    rcases Source.of_outcome_transformOption hsource with
      ⟨hs, hs₁, -⟩ | ⟨source, source', hs, hs₁, hsource⟩
    · rw [hs, hs₁]
      exact .nil
    · rw [hs, hs₁]
      simpa using Source.forall₂_refs_of_transform replaces (inSource source (by simp [hs])) hsource

/-- **The references of a query are related place by place.** -/
theorem Projection.forall₂_refs_of_transform {p p' : Projection}
    (h : outcome (p.transform t) st = .ok (p', st')) : List.Forall₂ L p.refs p'.refs := by
  obtain ⟨st₁, hselect, hprojector⟩ := Projection.of_outcome_transform h
  rw [Projection.refs_eq, Projection.refs_eq p']
  exact List.rel_append (Select.forall₂_refs_of_transform replaces hselect)
    (Expr.forall₂_refs_of_mapM replaces
      (fun _ _ _ _ _ _ _ => Select.forall₂_refs_of_transform replaces)
      (Projector.of_outcome_transform hprojector))

/-- **The references of a statement are related place by place.** -/
theorem Statement.forall₂_refs_of_transform {s s' : Statement}
    (h : outcome (s.mapQueriesM (Projection.transform t)) st = .ok (s', st')) :
    List.Forall₂ L s.refs s'.refs := by
  simp only [refs, nodes, List.filterMap_flatMap]
  refine forall₂_flatMap (forall₂_of_outcome_mapM (of_outcome_mapQueriesM h)) ?_
  rintro p - p' ⟨_, _, run⟩
  exact Projection.forall₂_refs_of_transform replaces run

end Transform

/-! ## Renaming -/

namespace Transform

variable {f : String × String → String × String}

/-- Renaming replaces each reference by what it is renamed to. -/
theorem renaming_replaces : (Transform.renaming f).Replaces fun r r' => r' = f r where
  leaf e hleaf st e' st' h := by
    have run : (Transform.renaming f).leaf e = e' := congrArg Prod.fst (Except.ok.inj h)
    cases e with
    | column label name =>
      obtain rfl := run
      exact ⟨rfl, .some rfl⟩
    | literal | generatedId =>
      obtain rfl := run
      exact ⟨rfl, .none⟩
    | _ => cases hleaf
  select depth s st s' st' h := (congrArg Prod.fst (Except.ok.inj h)).symm

/-- Nothing is done to a leaf whose reference stays the same. -/
theorem renaming_id_leaf (e : Expr) : (Transform.renaming id).leaf e = e := by
  cases e <;> rfl

end Transform

namespace Statement

/-- Renaming nothing changes nothing. -/
theorem renameRefs_id (s : Statement) : s.renameRefs id = s := by
  have leaves : ∀ e : Expr, e.isLeaf →
      outcome ((Transform.renaming id).leaf e) () = .ok (e, ()) :=
    fun e _ => congrArg (fun e => Except.ok (e, ())) (Transform.renaming_id_leaf e)
  have same : outcome (s.mapQueriesM (Projection.transform (.renaming id))) () = .ok (s, ()) :=
    mapQueriesM_eq_self fun p _ _ => Projection.transform_self leaves fun _ _ =>
      Select.transform_self leaves rfl fun _ _ _ _ _ => rfl
  exact congrArg Prod.fst (Except.ok.inj same)

/-- **Renaming reaches every reference once and nothing else.** The references of the renamed
statement are the images of the references of the statement, in the order in which they are read;
and under the identity the statement stays as it is. -/
theorem refs_renameRefs (f : String × String → String × String) (s : Statement) :
    (s.renameRefs f).refs = s.refs.map f ∧ s.renameRefs id = s := by
  refine ⟨?_, renameRefs_id s⟩
  have run : outcome (s.mapQueriesM (Projection.transform (.renaming f))) () =
      .ok (s.renameRefs f, ()) := rfl
  have images : List.Forall₂ (fun r r' => r' = f r) s.refs (s.renameRefs f).refs :=
    forall₂_refs_of_transform Transform.renaming_replaces run
  have mapped : List.Forall₂ (· = ·) (s.refs.map f) (s.renameRefs f).refs :=
    List.forall₂_map_left_iff.2 (images.imp fun _ _ image => image.symm)
  exact (List.forall₂_eq_eq_eq ▸ mapped).symm

end Statement

end HiveQuery
