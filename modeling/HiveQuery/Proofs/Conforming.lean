import HiveQuery.Conformance
import HiveQuery.Proofs.Frames
import HiveQuery.Proofs.Outcome
import HiveQuery.Proofs.Tidy
/-!
# Conforming to a mapping

Bringing a query to its mapping fails if the entity is not mapped, if its mapping names a column
twice or if the top select has no column for a member (`Projection.Nonconforming`). Otherwise the
top select declares expressions of its own under the mapped names, so that a sound query stays sound
and its new projector refers to columns that exist (`Projection.Sound.of_conform`).
-/

namespace HiveQuery

namespace Select

variable {s : Select} {entity : Entity} {byPosition : Bool} {failure : Failure}

/-! ## Columns for members -/

theorem column?_eq_none_iff {name : String} : s.column? name = none ↔ name ∉ s.columnNames := by
  simp [column?, columnNames]

/-- **Why a select cannot be read as an entity**: the mapping names a column twice, or there is no
column for a member, neither under its name nor, if that is allowed, at its position. -/
inductive Nonconforming (s : Select) (entity : Entity) (byPosition : Bool) : Failure → Prop
  | mappedTwice {column : String} (h : 2 ≤ (entity.members.map (·.column)).count column) :
      Nonconforming s entity byPosition (.columnMappedTwice entity.name column)
  | noColumnOfName {member : Member} (hm : member ∈ entity.members) (strict : byPosition = false)
      (absent : member.column ∉ s.columnNames) : Nonconforming s entity byPosition
        (.noColumnOfName s.label member.column entity.name member.name)
  | noColumnAtPosition {member : Member} {i : Nat} (hm : entity.members[i]? = some member)
      (lenient : byPosition = true) (absent : member.column ∉ s.columnNames)
      (short : s.columns.length ≤ i) : Nonconforming s entity byPosition
        (.noColumnAtPosition s.label entity.name member.name)

/-- What a member takes is a column of the select. -/
theorem mem_columns_of_columnOf {i : Nat} {member : Member} {c : Column}
    (h : (s.columnOf entity byPosition i member).result = .ok c) : c ∈ s.columns := by
  unfold columnOf at h
  split at h
  · next found =>
    obtain rfl := (Except.ok.inj h).symm
    exact List.mem_of_find?_eq_some found
  · split at h
    · split at h
      · next found =>
        obtain rfl := (Except.ok.inj h).symm
        exact List.mem_of_getElem? found
      · cases h
    · cases h

/-- A member that finds no column says why. -/
theorem nonconforming_of_columnOf {i : Nat} {member : Member}
    (hm : entity.members[i]? = some member)
    (h : (s.columnOf entity byPosition i member).result = .error failure) :
    s.Nonconforming entity byPosition failure := by
  unfold columnOf at h
  split at h
  · cases h
  · next missing =>
    have absent := column?_eq_none_iff.1 missing
    split at h
    · next lenient =>
      split at h
      · cases h
      · next short =>
        obtain rfl := (Except.error.inj h).symm
        exact .noColumnAtPosition hm lenient absent (List.getElem?_eq_none_iff.1 short)
    · next strict =>
      obtain rfl := (Except.error.inj h).symm
      exact .noColumnOfName (List.mem_of_getElem? hm) (Bool.eq_false_iff.2 strict) absent

/-- The columns have the mapped names, each once, and declare expressions of the select. -/
theorem of_memberColumns {seen : List String} {members : List Member} {columns : List Column}
    (h : (s.memberColumns entity byPosition seen members).result = .ok columns) :
    columns.map (·.name) = members.map (·.column) ∧
      (seen.Nodup → (seen ++ members.map (·.column)).Nodup) ∧
      ∀ c ∈ columns, ∃ c₀ ∈ s.columns, c.expr = c₀.expr := by
  induction members generalizing seen columns with
  | nil =>
    obtain rfl := (Except.ok.inj h).symm
    exact ⟨rfl, fun nodup => by simpa using nodup, by simp⟩
  | cons member members ih =>
    rw [memberColumns] at h
    split at h
    · cases h
    · next new =>
      obtain ⟨found, hfound, h⟩ := Traced.result_bind_eq_ok.1 h
      obtain ⟨rest, hrest, h⟩ := Traced.result_bind_eq_ok.1 h
      obtain rfl := (Except.ok.inj h).symm
      obtain ⟨names, nodup, exprs⟩ := ih hrest
      have new : member.column ∉ seen := by simpa using new
      refine ⟨by rw [List.map_cons, names]; rfl, fun hseen => ?_, ?_⟩
      · rw [List.map_cons, List.append_cons]
        exact nodup (List.nodup_append.2 ⟨hseen, by simp, fun a ha b hb heq =>
          new (List.mem_singleton.1 hb ▸ heq ▸ ha)⟩)
      · refine List.forall_mem_cons.2 ⟨⟨found, mem_columns_of_columnOf hfound, rfl⟩, exprs⟩

/-- **Members that do not find their columns say why.** By induction on the members that are
left. -/
theorem nonconforming_of_memberColumns {done rest : List Member}
    (all : entity.members = done ++ rest)
    (h : (s.memberColumns entity byPosition (done.map (·.column)) rest).result = .error failure) :
    s.Nonconforming entity byPosition failure := by
  induction rest generalizing done with
  | nil => cases h
  | cons member rest ih =>
    rw [memberColumns] at h
    split at h
    · next seen =>
      obtain rfl := (Except.error.inj h).symm
      refine .mappedTwice ?_
      have before : 0 < (done.map (·.column)).count member.column :=
        List.count_pos_iff.2 (List.contains_iff_mem.1 seen)
      rw [all, List.map_append, List.count_append, List.map_cons, List.count_cons_self]
      omega
    · have here : entity.members[done.length]? = some member := by
        rw [all, List.getElem?_append_right (Nat.le_refl _), Nat.sub_self, List.getElem?_cons_zero]
      rw [List.length_map] at h
      rcases Traced.result_bind_eq_error_iff.1 h with h | ⟨found, -, h⟩
      · exact nonconforming_of_columnOf here h
      rcases Traced.result_bind_eq_error_iff.1 h with h | ⟨columns, -, h⟩
      · have next : entity.members = (done ++ [member]) ++ rest := by
          rw [all, List.append_cons]
        exact ih next (by rw [List.map_append, List.map_singleton]; exact h)
      · cases h

end Select

/-! ## Queries -/

namespace Projection

variable {mapping : Mapping} {byPosition : Bool} {p p' : Projection} {failure : Failure}

/-- **Why a query cannot be brought to its mapping.** -/
inductive Nonconforming (mapping : Mapping) (byPosition : Bool) (p : Projection) : Failure → Prop
  | unknownEntity {name : String} {bindings : List Binding}
      (hp : p.projector = .entity name bindings)
      (h : mapping.find? name = none) : Nonconforming mapping byPosition p (.unknownEntity name)
  | select {name : String} {bindings : List Binding} {entity : Entity} {failure : Failure}
      (hp : p.projector = .entity name bindings) (he : mapping.find? name = some entity)
      (h : p.select.Nonconforming entity byPosition failure) :
      Nonconforming mapping byPosition p failure

/-- **Conforming fails only for these causes.** -/
theorem nonconforming_of_conform (h : (p.conform mapping byPosition).result = .error failure) :
    p.Nonconforming mapping byPosition failure := by
  unfold conform at h
  split at h
  · cases h
  · next name bindings hp =>
    split at h
    · next missing =>
      obtain rfl := (Except.error.inj h).symm
      exact .unknownEntity hp missing
    · next entity found =>
      rcases Traced.result_bind_eq_error_iff.1 h with h | ⟨columns, -, h⟩
      · exact .select hp found (Select.nonconforming_of_memberColumns (List.nil_append _).symm h)
      · cases h

/-- Conforming leaves a scalar query alone, and of an entity query it looks up the columns. -/
theorem exists_of_conform (h : (p.conform mapping byPosition).result = .ok p') :
    (∃ e, p.projector = .scalar e ∧ p' = p) ∨
    ∃ name bindings entity columns, p.projector = .entity name bindings ∧
      mapping.find? name = some entity ∧
      (p.select.memberColumns entity byPosition [] entity.members).result = .ok columns ∧
      p' = ⟨{ p.select with columns }, entity.projector p.select.label⟩ := by
  unfold conform at h
  split at h
  · next e scalar => exact .inl ⟨e, scalar, (Except.ok.inj h).symm⟩
  · next name bindings hp =>
    split at h
    · cases h
    · next entity mapped =>
      obtain ⟨columns, found, h⟩ := Traced.result_bind_eq_ok.1 h
      exact .inr ⟨name, bindings, entity, columns, hp, mapped, found, (Except.ok.inj h).symm⟩

/-- **What conforming makes of a query**: nothing of a scalar one; of an entity query the columns of
the members, each of an expression that the select has, and the projector that reads them. -/
theorem of_conform (hp : (p.conform mapping byPosition).result = .ok p') :
    (∃ e, p.projector = .scalar e ∧ p' = p) ∨
    ∃ name bindings entity columns, p.projector = .entity name bindings ∧
      mapping.find? name = some entity ∧
      p' = ⟨{ p.select with columns }, entity.projector p.select.label⟩ ∧
      columns.map (·.name) = entity.members.map (·.column) ∧
      (entity.members.map (·.column)).Nodup ∧
      ∀ c ∈ columns, ∃ c₀ ∈ p.select.columns, c.expr = c₀.expr := by
  rcases exists_of_conform hp with scalar |
    ⟨name, bindings, entity, columns, hprojector, mapped, found, rfl⟩
  · exact .inl scalar
  · obtain ⟨names, nodup, exprs⟩ := Select.of_memberColumns found
    exact .inr ⟨name, bindings, entity, columns, hprojector, mapped, rfl, names, nodup (by simp),
      exprs⟩

end Projection

namespace Entity

variable {entity : Entity} {label : String} {e : Expr}

/-- The projector of an entity reads the columns of its members. -/
theorem exists_member_of_mem_exprs (h : e ∈ (entity.projector label).exprs) :
    ∃ member ∈ entity.members, e = .column label member.column := by
  obtain ⟨binding, hbinding, rfl⟩ := List.mem_map.1 h
  obtain ⟨member, hmember, rfl⟩ := List.mem_map.1 hbinding
  exact ⟨member, hmember, rfl⟩

theorem subqueries_of_mem_exprs (h : e ∈ (entity.projector label).exprs) : e.subqueries = [] := by
  obtain ⟨member, -, rfl⟩ := exists_member_of_mem_exprs h
  rfl

/-- The projector of an entity can read a select that declares the columns of the members. -/
theorem resolves_of_mem_exprs {s : Select}
    (names : s.columnNames = entity.members.map (·.column))
    (h : e ∈ (entity.projector s.label).exprs) :
    ∀ r ∈ e.localRefs, Scope.error? [(Source.subquery s).frame] r = none := by
  obtain ⟨member, hmember, rfl⟩ := exists_member_of_mem_exprs h
  intro r hr
  obtain rfl := List.mem_singleton.1 hr
  refine Scope.error?_eq_none_of_mem (by simp [Source.frame]) (List.mem_singleton_self _) ?_
  rw [names]
  exact List.mem_map_of_mem hmember

end Entity

/-- **A sound query that conforms is sound.** -/
theorem Projection.Sound.of_conform {mapping : Mapping} {byPosition : Bool} {p p' : Projection}
    (h : p.Sound) (hp : (p.conform mapping byPosition).result = .ok p') : p'.Sound := by
  rcases Projection.of_conform hp with ⟨-, -, rfl⟩ |
    ⟨_, _, entity, columns, -, -, rfl, names, nodup, exprs⟩
  · exact h
  · have renews : p.select.Renews { p.select with columns } :=
      Select.renews_of_columns (names ▸ nodup) exprs
    have declared : ({ p.select with columns } : Select).columnNames = _ := names
    refine ⟨⟨?_, renews.check h.checks.select, fun e => Entity.resolves_of_mem_exprs declared⟩,
      renews.everywhere h.tidy, fun e => Entity.subqueries_of_mem_exprs⟩
    rw [Projection.labels_eq, Expr.flatMap_labels_eq_nil fun e => Entity.subqueries_of_mem_exprs,
      List.append_nil, renews.labels_eq (h.tidy _ (.self _)) rfl, ← h.labels_eq]
    exact h.checks.labels

end HiveQuery
