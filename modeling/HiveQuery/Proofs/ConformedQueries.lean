import HiveQuery.Proofs.Completeness
import HiveQuery.Proofs.EffectiveOrder
import HiveQuery.Proofs.MergedScopes
import Mathlib
/-!
# Queries that conform to their mapping

A query that has been brought to its mapping declares a column under the name of each member, and so
it is found as it should be when it is brought there again, whether or not a member may take the
column at its position. If columns are taken by name alone, each member takes another column of the
select: no subquery comes to stand twice, and a valid query stays valid
(`Projection.Checks.of_conform`). Columns that no member takes are dropped, which harms nobody, since
the projector that referred to them is replaced as well.
-/

namespace HiveQuery

open Outcome

namespace Select

variable {s : Select} {entity : Entity} {byPosition : Bool} {seen : List String}
  {members : List Member} {columns : List Column}

/-! ## The columns of the members -/

/-- **The column that a member is read from**: that of its name, with the type of the member if its
own is not known. -/
inductive Carries (s : Select) (member : Member) : Column → Prop
  | known {c : Column} (hc : c ∈ s.columns) (name : c.name = member.column)
      (known : c.type ≠ .unknown) : Carries s member c
  | unknown {c : Column} (hc : c ∈ s.columns) (name : c.name = member.column)
      (unknown : c.type = .unknown) : Carries s member { c with type := member.type }

/-- A column of a known type only takes the name of the member, -/
theorem memberColumn_of_known {c : Column} (member : Member) (known : c.type ≠ .unknown) :
    memberColumn member c = { c with name := member.column } := by
  unfold memberColumn
  split
  · next unknown => exact absurd unknown known
  · rfl

/-- and one of an unknown type takes the type as well. -/
theorem memberColumn_of_unknown {c : Column} (member : Member) (unknown : c.type = .unknown) :
    memberColumn member c = { c with name := member.column, type := member.type } := by
  rw [memberColumn, unknown]

/-- A member takes its own column as it is. -/
theorem memberColumn_memberColumn (member : Member) (c : Column) :
    memberColumn member (memberColumn member c) = memberColumn member c := by
  by_cases unknown : c.type = .unknown
  · rw [memberColumn_of_unknown member unknown]
    by_cases mapped : member.type = .unknown
    · rw [memberColumn_of_unknown member mapped]
    · rw [memberColumn_of_known member mapped]
  · rw [memberColumn_of_known member unknown]
    exact memberColumn_of_known member unknown

/-- The column of the name of a member is the one that it is read from. -/
theorem carries_memberColumn {member : Member} {c : Column}
    (h : s.column? member.column = some c) : s.Carries member (memberColumn member c) := by
  have hc : c ∈ s.columns := List.mem_of_find?_eq_some h
  have name : c.name = member.column := by simpa using List.find?_some h
  by_cases unknown : c.type = .unknown
  · rw [memberColumn_of_unknown member unknown, ← name]
    exact .unknown hc name unknown
  · have same : memberColumn member c = c := by
      rw [memberColumn_of_known member unknown, ← name]
      cases c
      rfl
    rw [same]
    exact .known hc name unknown

/-- Each member has a column made for it, from the one of its name unless positions count. -/
theorem forall₂_of_memberColumns
    (h : (s.memberColumns entity byPosition seen members).result = .ok columns) :
    List.Forall₂ (fun member c => ∃ found, c = memberColumn member found ∧
      (byPosition = false → s.column? member.column = some found)) members columns := by
  induction members generalizing seen columns with
  | nil =>
    obtain rfl := (Except.ok.inj h).symm
    exact .nil
  | cons member members ih =>
    rw [memberColumns] at h
    split at h
    · cases h
    · obtain ⟨found, hfound, h⟩ := Traced.result_bind_eq_ok.1 h
      obtain ⟨rest, hrest, h⟩ := Traced.result_bind_eq_ok.1 h
      obtain rfl := (Except.ok.inj h).symm
      refine .cons ⟨found, rfl, fun strict => ?_⟩ (ih hrest)
      rw [columnOf] at hfound
      split at hfound
      · next named => rw [named, Except.ok.inj hfound]
      · rw [strict] at hfound
        cases hfound

/-- If columns are taken by name alone, each member is read from the column of its name. -/
theorem carries_of_memberColumns
    (h : (s.memberColumns entity false seen members).result = .ok columns) :
    List.Forall₂ s.Carries members columns := by
  refine (forall₂_of_memberColumns h).imp ?_
  rintro member _ ⟨c, rfl, named⟩
  exact carries_memberColumn (named rfl)

/-- **Columns that are there already under the names of the members are taken as they are.** -/
theorem memberColumns_eq_ok (new : (seen ++ members.map (·.column)).Nodup)
    (h : List.Forall₂ (fun member c => s.column? member.column = some c ∧
      memberColumn member c = c) members columns) :
    (s.memberColumns entity byPosition seen members).result = .ok columns := by
  induction h generalizing seen with
  | nil => rfl
  | @cons member c members columns here _ ih =>
    obtain ⟨named, same⟩ := here
    rw [List.map_cons, List.append_cons] at new
    have unseen : ¬ seen.contains member.column := by
      rw [List.contains_iff_mem]
      intro there
      have apart := (List.nodup_append.1 (List.nodup_append.1 new).1).2.2
      exact apart _ there _ (List.mem_singleton_self _) rfl
    have found : (s.columnOf entity byPosition seen.length member).result = .ok c := by
      rw [columnOf, named]
      rfl
    rw [memberColumns, if_neg unseen]
    refine Traced.result_bind_eq_ok.2 ⟨c, found, Traced.result_bind_eq_ok.2 ⟨columns, ih new, ?_⟩⟩
    rw [same]
    rfl

/-! ## The second time -/

/-- **Columns that members have taken are taken again**, by name, whether or not positions count. -/
theorem memberColumns_again
    (h : (s.memberColumns entity byPosition [] members).result = .ok columns)
    (byPosition' : Bool) :
    (({ s with columns } : Select).memberColumns entity byPosition' [] members).result =
      .ok columns := by
  obtain ⟨names, nodup, -⟩ := of_memberColumns h
  have nodup := nodup List.nodup_nil
  -- every member finds its own column by name, so positions are never asked for
  refine memberColumns_eq_ok nodup (forall₂_imp_of_mem (forall₂_of_memberColumns h) ?_)
  rintro member hm c hc ⟨found, rfl, -⟩
  refine ⟨?_, memberColumn_memberColumn member found⟩
  have distinct : ({ s with columns } : Select).columnNames.Nodup := by
    rw [columnNames, names]
    exact nodup
  exact column?_of_mem distinct hc

/-! ## Labels -/

/-- A select declares no more labels than another one if its columns do not. -/
theorem labels_subperm_of_columns (h : (columns.flatMap (·.expr.labels)).Subperm
    (s.columns.flatMap (·.expr.labels))) :
    ({ s with columns } : Select).labels.Subperm s.labels := by
  simp only [labels_eq, clauses, List.flatMap_append, List.flatMap_map, List.append_assoc]
  refine (List.subperm_cons _).2 ((List.subperm_append_left _).2 ?_)
  exact (List.subperm_append_right _).2 h

/-- The members are read from different columns of the select. -/
theorem exists_carried (h : List.Forall₂ s.Carries members columns) :
    ∃ found, found ⊆ s.columns ∧ found.map (·.name) = members.map (·.column) ∧
      found.map (·.expr) = columns.map (·.expr) := by
  induction h with
  | nil => exact ⟨[], List.nil_subset _, rfl, rfl⟩
  | @cons member c' members columns here _ ih =>
    obtain ⟨found, subset, names, exprs⟩ := ih
    have carried : ∃ c ∈ s.columns, c.name = member.column ∧ c.expr = c'.expr := by
      cases here with
      | known hc name => exact ⟨c', hc, name, rfl⟩
      | unknown hc name => exact ⟨_, hc, name, rfl⟩
    obtain ⟨c, hc, name, expr⟩ := carried
    refine ⟨c :: found, List.cons_subset.2 ⟨hc, subset⟩, ?_, ?_⟩
    · rw [List.map_cons, List.map_cons, names, name]
    · rw [List.map_cons, List.map_cons, exprs, expr]

/-- **Reading the members by name brings no label in twice.** -/
theorem labels_subperm_of_carries (h : List.Forall₂ s.Carries members columns)
    (names : (members.map (·.column)).Nodup) :
    ({ s with columns } : Select).labels.Subperm s.labels := by
  obtain ⟨found, subset, mapped, exprs⟩ := exists_carried h
  have distinct : found.Nodup := .of_map _ (mapped ▸ names)
  obtain ⟨cs, perm, sublist⟩ := List.subperm_of_subset distinct subset
  refine labels_subperm_of_columns ?_
  have same : columns.flatMap (·.expr.labels) = found.flatMap (·.expr.labels) := by
    rw [← List.flatMap_map, ← exprs, List.flatMap_map]
  rw [same]
  exact ⟨_, perm.flatMap_right _, sublist.flatMap _⟩

end Select

/-! ## Queries -/

theorem Mapping.name_of_find? {mapping : Mapping} {name : String} {entity : Entity}
    (h : mapping.find? name = some entity) : entity.name = name := by
  simpa using List.find?_some h

namespace Projection

variable {mapping : Mapping} {byPosition : Bool} {p p' : Projection}

/-- A scalar query has no mapping to conform to. -/
theorem conform_of_scalar {e : Expr} (hp : p.projector = .scalar e) :
    (p.conform mapping byPosition).result = .ok p := by
  rw [conform, hp]
  rfl

/-- An entity query whose members find their columns takes these, and the projector that reads
them. -/
theorem conform_of_memberColumns {name : String} {bindings : List Binding} {entity : Entity}
    {columns : List Column} (hp : p.projector = .entity name bindings)
    (mapped : mapping.find? name = some entity)
    (found : (p.select.memberColumns entity byPosition [] entity.members).result = .ok columns) :
    (p.conform mapping byPosition).result =
      .ok ⟨{ p.select with columns }, entity.projector p.select.label⟩ := by
  simp only [conform, hp, mapped]
  exact Traced.result_bind_eq_ok.2 ⟨columns, found, rfl⟩

/-- **Conforming twice is conforming once.** -/
theorem conform_again (h : (p.conform mapping byPosition).result = .ok p') (byPosition' : Bool) :
    (p'.conform mapping byPosition').result = .ok p' := by
  rcases exists_of_conform h with ⟨e, scalar, rfl⟩ |
    ⟨name, bindings, entity, columns, -, mapped, found, rfl⟩
  · exact conform_of_scalar scalar
  · obtain rfl := Mapping.name_of_find? mapped
    exact conform_of_memberColumns rfl mapped (Select.memberColumns_again found byPosition')

/-- **A query is brought to its mapping by name**: a scalar one is left alone, and of an entity
query the select declares the columns of the members in place of its own. -/
inductive Conforms (mapping : Mapping) (p : Projection) : Projection → Prop
  | scalar {e : Expr} (hp : p.projector = .scalar e) : Conforms mapping p p
  | entity {name : String} {bindings : List Binding} {entity : Entity} {columns : List Column}
      (hp : p.projector = .entity name bindings) (mapped : mapping.find? name = some entity)
      (carried : List.Forall₂ p.select.Carries entity.members columns) :
      Conforms mapping p ⟨{ p.select with columns }, entity.projector p.select.label⟩

/-- What conforming by name does to a query, as a relation. -/
theorem conforms_of_conform (h : (p.conform mapping false).result = .ok p') :
    p.Conforms mapping p' := by
  rcases exists_of_conform h with ⟨e, scalar, rfl⟩ |
    ⟨name, bindings, entity, columns, hp, mapped, found, rfl⟩
  · exact .scalar scalar
  · exact .entity hp mapped (Select.carries_of_memberColumns found)

/-- **A valid query that is brought to its mapping by name is valid.** -/
theorem Checks.of_conform (h : p.Checks) (hp : (p.conform mapping false).result = .ok p') :
    p'.Checks := by
  rcases exists_of_conform hp with ⟨-, -, rfl⟩ | ⟨_, _, entity, columns, -, -, found, rfl⟩
  · exact h
  · obtain ⟨names, nodup, exprs⟩ := Select.of_memberColumns found
    have nodup := nodup List.nodup_nil
    have renews : p.select.Renews { p.select with columns } :=
      Select.renews_of_columns (names ▸ nodup) exprs
    obtain ⟨labels, perm, sublist⟩ :=
      Select.labels_subperm_of_carries (Select.carries_of_memberColumns found) nodup
    have declared : ({ p.select with columns } : Select).columnNames = _ := names
    refine ⟨?_, renews.check h.select, fun e => Entity.resolves_of_mem_exprs declared⟩
    rw [Projection.labels_eq, Expr.flatMap_labels_eq_nil fun e => Entity.subqueries_of_mem_exprs,
      List.append_nil]
    exact perm.nodup_iff.1 ((nodup_select_labels h.labels).sublist sublist)

end Projection

/-! ## Statements -/

/-- **Conforming is done once for all, and keeps a statement valid.** What has been brought to a
mapping is left as it is when it is brought there again, in either way. If columns are taken by name
alone, what becomes of a valid statement is valid, of its top selects no more is changed than the
columns, and each member has the column of its name, with its type where that was not known. -/
theorem Statement.conform_stable {mapping : Mapping} {byPosition : Bool} {s s' : Statement}
    (h : (s.conform mapping byPosition).result = .ok s') :
    (∀ byPosition', (s'.conform mapping byPosition').result = .ok s') ∧
      (byPosition = false → s.check = .ok () →
        s'.check = .ok () ∧ List.Forall₂ (Projection.Conforms mapping) s.queries s'.queries) := by
  have each := forall₂_of_mapQueriesM h
  refine ⟨fun byPosition' => ?_, ?_⟩
  · have again : ∀ p' ∈ s'.queries, (p'.conform mapping byPosition').result = .ok p' := by
      intro p' hp'
      obtain ⟨p, -, hp⟩ := exists_of_forall₂_of_mem each hp'
      exact Projection.conform_again hp byPosition'
    have run : outcome (s'.conform mapping byPosition') () = .ok (s', ()) :=
      Statement.mapQueriesM_eq_self fun p' hp' _ => Traced.outcome_eq_ok_iff.2 (again p' hp')
    exact Traced.outcome_eq_ok_iff.1 run
  · rintro rfl valid
    refine ⟨Statement.check_eq_ok_iff.2 fun p' hp' => ?_, each.imp fun _ _ =>
      Projection.conforms_of_conform⟩
    obtain ⟨p, hp, conform⟩ := exists_of_forall₂_of_mem each hp'
    exact (Statement.check_eq_ok_iff.1 valid p hp).of_conform conform

/-- Orders with the amount that has been paid for them. -/
def paymentsOfOrders (columns : Column → Column → List Column) (type : DataType)
    (bindings : List Binding) : Statement :=
  let payments : Select :=
    ⟨"s", [⟨"total", .aggregate .sum (some (.column "p" "amount")) false, .unknown⟩],
      some (.table "payments" "p"), some (.binary .eq (.column "p" "order") (.column "o" "id")), [],
      [], [], false, none, none, false⟩
  .query ⟨⟨"q", columns ⟨"id", .column "o" "id", .bigInt⟩ ⟨"paid", .scalarQuery payments, type⟩,
    some (.table "orders" "o"), none, [], [], [], false, none, none, false⟩,
    .entity "Order" bindings⟩

/-- An order is read from two columns. -/
def orderMapping : Mapping :=
  ⟨[⟨"Order", [⟨"Id", "id", .int⟩, ⟨"Paid", "paid", .double⟩]⟩]⟩

/-- The columns stand in another order, one has no type and one belongs to no member. All that is
set right at once. -/
theorem Statement.conform_stable_paymentsOfOrders :
    let before := paymentsOfOrders (fun id paid => [paid, ⟨"note", .column "o" "note", .string⟩, id])
      .unknown [⟨"Note", .column "q" "note"⟩]
    let after := paymentsOfOrders (fun id paid => [id, paid]) .double
      [⟨"Id", .column "q" "id"⟩, ⟨"Paid", .column "q" "paid"⟩]
    before.check = .ok () ∧ (before.conform orderMapping false).result = .ok after ∧
      (after.conform orderMapping true).result = .ok after ∧ after.check = .ok () := by
  intro before after
  have valid : before.check = .ok () := by cbv
  have conformed : (before.conform orderMapping false).result = .ok after := by cbv
  obtain ⟨again, keeps⟩ := Statement.conform_stable conformed
  exact ⟨valid, conformed, again true, (keeps rfl valid).1⟩

end HiveQuery
