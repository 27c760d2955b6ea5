import HiveQuery.Proofs.Passage
/-!
# The shape of a compiled query

No pass touches the label of a top select. What conforming gives an entity query, the columns of the
members and the projector that reads them, is what the compiled query has: merging leaves the
columns of the top select alone and renames nothing under its label, as long as nothing below
declares that label again, and pruning keeps every column of it (`Compiler.lower_keeps_shape`).
-/

namespace HiveQuery

open Outcome

/-! ## The label of the top select -/

namespace Select

variable {s q : Select}

theorem mem_labels_iff {label : String} :
    label ∈ s.labels ↔ label = s.label ∨ label ∈ s.labelsBelow := by
  rw [s.labels_perm.mem_iff, List.mem_cons]

/-- A select with the same tables, and no more below it, declares no more there. -/
theorem labelsBelow_subset (tables : q.tables = s.tables)
    (below : ∀ c ∈ q.children, ∃ c₀ ∈ s.children, c.labels ⊆ c₀.labels) :
    q.labelsBelow ⊆ s.labelsBelow := by
  intro label hl
  rcases List.mem_append.1 hl with hl | hl
  · exact List.mem_append_left _ (tables ▸ hl)
  · obtain ⟨c, hc, hl⟩ := List.mem_flatMap.1 hl
    obtain ⟨c₀, hc₀, sub⟩ := below c (mem_visited_iff.1 hc)
    exact (labels_sublist_labelsBelow (mem_visited_iff.2 hc₀)).subset (sub hl)

/-- Nothing below the select declares its label again. -/
def OwnsLabel (s : Select) : Prop :=
  s.label ∉ s.labelsBelow

/-- A select that declares no label twice owns its own. -/
theorem OwnsLabel.of_nodup (h : s.labels.Nodup) : s.OwnsLabel :=
  (List.nodup_cons.1 (s.labels_perm.nodup_iff.1 h)).1

/-- A select owns its label if less is declared below it than below one that does. -/
theorem OwnsLabel.of_subset (h : s.OwnsLabel) (label : q.label = s.label)
    (below : q.labelsBelow ⊆ s.labelsBelow) : q.OwnsLabel :=
  fun hl => h (label ▸ below hl)

end Select

/-- Settling a source changes no table of it. -/
theorem Source.tables_settled (source : Source) : source.settled.1.tables = source.tables := by
  induction source using join_induction with
  | table => rfl
  | subquery query => rw [settled_subquery]; rfl
  | join kind left right condition ihl ihr => rw [settled, tables, tables, ihl, ihr]

namespace Select

variable {s s' : Select}

theorem tables_exposed (placement : Placement) (s : Select) :
    (s.exposed placement).tables = s.tables := by
  unfold tables
  rw [source_exposed]
  cases s.source with
  | none => rfl
  | some source => simpa using source.tables_settled

/-- Placing the orderings declares no label that was not declared. -/
theorem labelsBelow_exposed_subset (placement : Placement) (s : Select) :
    (s.exposed placement).labelsBelow ⊆ s.labelsBelow := by
  induction s using children_induction generalizing placement with
  | step s ih =>
    refine labelsBelow_subset (tables_exposed placement s) fun c hc => ?_
    obtain ⟨c₀, hc₀, placement', -, rfl⟩ := exists_of_mem_children_exposed hc
    refine ⟨c₀, hc₀, fun label hl => ?_⟩
    rw [mem_labels_iff, label_exposed] at hl
    exact mem_labels_iff.2 (hl.imp_right fun below => ih c₀ hc₀ placement' below)

/-- Placing orderings leaves a select the owner of its label. -/
theorem OwnsLabel.exposed (h : s.OwnsLabel) (placement : Placement) :
    (s.exposed placement).OwnsLabel :=
  h.of_subset (label_exposed placement s) (labelsBelow_exposed_subset placement s)

/-- The labels drawn for pages are new, so a top select does not lose its label to them. -/
theorem OwnsLabel.of_paging {rowNumberColumn : String} {supply supply' : LabelSupply}
    (h : s.OwnsLabel) (taken : s.labels ⊆ supply.taken)
    (run : outcome (s.transform (.paging rowNumberColumn) 0) supply = .ok (s', supply')) :
    s'.OwnsLabel := by
  obtain ⟨label, accounts⟩ := accounts_paging run
  intro again
  rw [label] at again
  rcases accounts.mem_or_not_mem again with before | new
  · exact h before
  · exact new (taken (mem_labels_iff.2 (.inl rfl)))

/-- A select may have other columns, as long as they hold no other expressions. -/
theorem OwnsLabel.of_columns (h : s.OwnsLabel) {cs : List Column}
    (exprs : ∀ c ∈ cs, ∃ c₀ ∈ s.columns, c.expr = c₀.expr) :
    ({ s with columns := cs } : Select).OwnsLabel := by
  refine h.of_subset rfl (labelsBelow_subset rfl fun c hc => ?_)
  exact ⟨c, children_subset_of_columns exprs hc, List.Subset.refl _⟩

/-- **Merging renames a reference only if a merged select has its label**, and the top select is
not merged. -/
theorem ref_of_merging {depth : Nat} {st st' : Renames} {r : String × String}
    (below : r.1 ∉ s.labelsBelow) (own : depth ≠ 0 → r.1 ≠ s.label)
    (h : outcome (s.transform .merging depth) st = .ok (s', st')) : st'.ref r = st.ref r := by
  have run : r.1 ∉ s.labelsBelow → (depth ≠ 0 → r.1 ≠ s.label) → st'.ref r = st.ref r := by
    refine transform_induction Transform.merging_thins.leaves (R := fun depth st s _ st' =>
      r.1 ∉ s.labelsBelow → (depth ≠ 0 → r.1 ≠ s.label) → st'.ref r = st.ref r) ?_ h
    intro depth s s₁ s' st st₁ st' chain mirrors hact below own
    -- whatever the parts add to the renames is under labels that they declare
    have parts : st₁.ref r = st.ref r := by
      refine chain.invariant (J := fun st₁ => st₁.ref r = st.ref r) ?_ rfl
      intro c hc st₂ c' st₃ same step
      have outside : r.1 ∉ c.labels := fun hl => below ((labels_sublist_labelsBelow hc).subset hl)
      rw [mem_labels_iff, not_or] at outside
      exact (step outside.2 fun _ => outside.1).trans same
    simp only [Transform.merging] at hact
    split at hact
    · obtain ⟨-, rfl⟩ := outcome_pure_eq_ok_iff.1 hact
      exact parts
    · next inner =>
      obtain ⟨-, rfl⟩ := of_mergeColumns hact
      rw [Renames.ref_add_of_ne (mirrors.label ▸ own inner), parts]
  exact run below own

/-- Dropping columns leaves a select its label. -/
theorem label_of_thins {m : Type → Type} [Monad m] [LawfulMonad m] {σ : Type} [Outcome m σ]
    {t : Transform m} {depth : Nat} {st st' : σ} (thins : t.Thins)
    (run : outcome (s.transform t depth) st = .ok (s', st')) : s'.label = s.label :=
  (thins.keeps (P := fun q => q.label = s.label)
    (fun _ _ _ _ label mirrors _ => mirrors.label.trans label) run).1 rfl

end Select

/-! ## Projectors -/

section Transform

variable {m : Type → Type} [Monad m] {σ : Type} [Outcome m σ] {t : Transform m} {st st' : σ}

/-- Bindings whose expressions are left alone are left alone. -/
theorem Binding.transformList_eq_self {bs : List Binding}
    (same : ∀ b ∈ bs, outcome (b.expr.transform t 0) st = .ok (b.expr, st)) :
    outcome (Binding.transformList t bs) st = .ok (bs, st) := by
  induction bs with
  | nil => exact outcome_pure_eq_ok_iff.2 ⟨rfl, rfl⟩
  | cons b bs ih =>
    obtain ⟨member, expr⟩ := b
    obtain ⟨here, rest⟩ := List.forall_mem_cons.1 same
    rw [Binding.transformList, outcome_bind_eq_ok_iff]
    refine ⟨expr, st, here, ?_⟩
    rw [outcome_bind_eq_ok_iff]
    exact ⟨bs, st, ih rest, outcome_pure_eq_ok_iff.2 ⟨rfl, rfl⟩⟩

/-- The projector of an entity stays as it is if the references to the members do. -/
theorem Entity.eq_of_transform_projector {entity : Entity} {label : String} {r : Projector}
    (same : ∀ name, outcome (t.leaf (.column label name)) st = .ok (.column label name, st))
    (h : outcome ((entity.projector label).transform t) st = .ok (r, st')) :
    r = entity.projector label := by
  obtain ⟨bindings, rfl, hbindings⟩ := Projector.of_transform_entity h
  rw [Binding.transformList_eq_self] at hbindings
  · obtain ⟨rfl, -⟩ := Prod.mk.inj (Except.ok.inj hbindings)
    rfl
  · intro b hb
    obtain ⟨member, -, rfl⟩ := List.mem_map.1 hb
    exact same member.column

end Transform

/-! ## Queries -/

namespace Projection

variable {p p' : Projection} {entity : Entity}

/-- **The shape that an entity gives a query**: the columns of the members, in their order, and the
projector that reads them from the top select. -/
structure Shaped (entity : Entity) (p : Projection) : Prop where
  columnNames : p.select.columnNames = entity.members.map (·.column)
  projector : p.projector = entity.projector p.select.label

/-- Conforming gives an entity query its shape. -/
theorem shaped_of_conform {mapping : Mapping} {byPosition : Bool} {name : String}
    {bindings : List Binding} (hp : p.projector = .entity name bindings)
    (h : (p.conform mapping byPosition).result = .ok p') :
    ∃ entity, mapping.find? name = some entity ∧ (entity.members.map (·.column)).Nodup ∧
      p'.Shaped entity := by
  rcases of_conform h with ⟨_, scalar, -⟩ | ⟨_, _, entity, _, isEntity, found, rfl, names, nodup, -⟩
  · cases hp.symm.trans scalar
  · obtain ⟨rfl, -⟩ := Projector.entity.inj (hp.symm.trans isEntity)
    exact ⟨entity, found, nodup, names, rfl⟩

/-- Conforming takes its columns from the select, and so its owner keeps the label. -/
theorem ownsLabel_of_conform {mapping : Mapping} {byPosition : Bool} (owns : p.select.OwnsLabel)
    (h : (p.conform mapping byPosition).result = .ok p') : p'.select.OwnsLabel := by
  rcases of_conform h with ⟨-, -, rfl⟩ | ⟨_, _, _, _, -, -, rfl, -, -, exprs⟩
  · exact owns
  · exact owns.of_columns exprs

/-- Merging keeps the shape: it neither drops a column of the top select nor renames one. -/
theorem Shaped.of_mergeColumns (h : p.Shaped entity) (owns : p.select.OwnsLabel)
    (run : p.mergeColumns.result = .ok p') : p'.Shaped entity := by
  obtain ⟨st, _, hselect, hprojector⟩ := Projection.of_mergeColumns run
  have mirrors := Select.mirrors_of_transform Transform.merging_thins.leaves
    (fun s₁ st st' _ hact => (outcome_pure_eq_ok_iff.1 hact).1.symm) hselect
  refine ⟨mirrors.columnNames.trans h.columnNames, ?_⟩
  rw [h.projector] at hprojector
  rw [mirrors.label]
  refine Entity.eq_of_transform_projector (fun name => ?_) hprojector
  have same : st.ref (p.select.label, name) = (p.select.label, name) :=
    Select.ref_of_merging (r := (p.select.label, name)) owns (fun top => absurd rfl top) hselect
  have value : outcome (Transform.merging.leaf (.column p.select.label name)) st =
    .ok (.column (st.ref (p.select.label, name)).1 (st.ref (p.select.label, name)).2, st) := rfl
  rw [value, same]

/-- The columns of the top select are pinned. -/
theorem Shaped.of_round (h : p.Shaped entity)
    (run : (p.keepColumns p.columnUsage.keeps).result = .ok p') : p'.Shaped entity := by
  obtain ⟨hselect, hprojector⟩ := Projection.of_round run
  have pinned : ∀ c : Column, p.columnUsage.keeps p.select.label c := by
    simp [ColumnUsage.keeps, ColumnUsage.isPinned, columnUsage]
  have mirrors := Select.mirrors_of_transform
    (Transform.keepColumns_thins p.columnUsage.keeps).leaves (fun s₁ st st' same hact => by
      have kept := Select.result_keepColumns_of_all (s := s₁) fun c _ => same ▸ pinned c
      exact Except.ok.inj ((Traced.outcome_eq_ok_iff.1 hact).symm.trans kept)) hselect
  refine ⟨mirrors.columnNames.trans h.columnNames, ?_⟩
  rw [h.projector] at hprojector
  rw [mirrors.label]
  exact Entity.eq_of_transform_projector (fun _ => rfl) hprojector

/-- Conforming keeps the label of the top select, -/
theorem label_of_conform {mapping : Mapping} {byPosition : Bool}
    (h : (p.conform mapping byPosition).result = .ok p') : p'.select.label = p.select.label := by
  rcases Projection.of_conform h with ⟨-, -, rfl⟩ | ⟨_, _, _, _, -, -, rfl, -⟩ <;> rfl

/-- and so does pruning. -/
theorem label_of_pruneColumns (h : p.pruneColumns.result = .ok p') :
    p'.select.label = p.select.label := by
  refine pruneColumns_induction (P := fun q => q.select.label = p.select.label) ?_ rfl h
  intro q q' same round
  exact (Select.label_of_thins (Transform.keepColumns_thins _) (of_round round).1).trans same

end Projection

namespace Compiler

variable {c : Compiler} {p p' : Projection}

/-- The top select of a query keeps its label on the way. -/
theorem Lowers.label (h : c.Lowers p p') : p'.select.label = p.select.label := by
  obtain ⟨-, page, conform, merge, prune, -⟩ := h
  obtain ⟨_, hpage, -⟩ := Projection.of_outcome_transform page
  obtain ⟨_, _, hmerge, -⟩ := Projection.of_mergeColumns merge
  calc p'.select.label
      = _ := Projection.label_of_pruneColumns prune
    _ = _ := Select.label_of_thins Transform.merging_thins hmerge
    _ = _ := Projection.label_of_conform conform
    _ = _ := Select.label_exposed _ _
    _ = p.placed.select.label := (Select.accounts_paging hpage).1
    _ = p.select.label := Select.label_exposed _ _

/-- **An entity query ends in the shape that its entity gives it.** -/
theorem Lowers.shaped (h : c.Lowers p p') (owns : p.select.OwnsLabel) {name : String}
    {bindings : List Binding} (hp : p.projector = .entity name bindings) :
    ∃ entity, c.mapping.find? name = some entity ∧ (entity.members.map (·.column)).Nodup ∧
      p'.Shaped entity := by
  cases h with
  | @intro paged conformed merged _ supply supply' taken page conform merge prune _ =>
    obtain ⟨st, hpage, hprojector⟩ := Projection.of_outcome_transform page
    rw [show p.placed.projector = .entity name bindings from hp] at hprojector
    obtain ⟨bindings', isEntity, -⟩ := Projector.of_transform_entity hprojector
    have isEntity : paged.placed.projector = .entity name bindings' := isEntity
    obtain ⟨entity, found, nodup, shaped⟩ := Projection.shaped_of_conform isEntity conform
    have taken : p.placed.select.labels ⊆ supply.taken := by
      rw [Projection.labels_eq] at taken
      exact (List.append_subset.1 taken).1
    -- merging finds the label as it was: placed, paged and placed again, nothing takes it
    have owns := ((owns.exposed .outermost).of_paging taken hpage).exposed .outermost
    have shaped := shaped.of_mergeColumns (Projection.ownsLabel_of_conform owns conform) merge
    refine ⟨entity, found, nodup, ?_⟩
    exact Projection.pruneColumns_induction (P := Projection.Shaped entity)
      (fun _ _ shaped round => shaped.of_round round) shaped prune

/-- **Compiling keeps the shape of a statement** in which no query declares a label twice. The
compiled statement has its queries in their order, each with the label of its top select. In place
of a query for an entity it has one whose top select has the columns of the members, in their order
and each once, and whose projector reads each member of the entity from its column. -/
theorem lower_keeps_shape {s t : Statement} (unique : ∀ p ∈ s.queries, p.labels.Nodup)
    (h : (c.lower s).result = .ok t) :
    List.Forall₂ (fun p p' => p'.select.label = p.select.label ∧
      ∀ name bindings, p.projector = .entity name bindings →
        ∃ entity, c.mapping.find? name = some entity ∧
          p'.select.columnNames = entity.members.map (·.column) ∧
          p'.select.columnNames.Nodup ∧
          p'.projector = .entity name
            (entity.members.map fun m => ⟨m.name, .column p.select.label m.column⟩))
      s.queries t.queries := by
  refine ((List.forall₂_and_left _ _).2 ⟨unique, forall₂_lowers h⟩).imp ?_
  intro p p' ⟨nodup, lowers⟩
  refine ⟨lowers.label, fun name bindings hp => ?_⟩
  have owns : p.select.OwnsLabel := by
    rw [Projection.labels_eq] at nodup
    exact .of_nodup (List.nodup_append.1 nodup).1
  obtain ⟨entity, found, nodup, shaped⟩ := lowers.shaped owns hp
  have same : entity.name = name := by simpa using List.find?_some found
  refine ⟨entity, found, shaped.columnNames, shaped.columnNames ▸ nodup, ?_⟩
  rw [shaped.projector, lowers.label, Entity.projector, same]

/-- The columns and the projector of the page of paid orders. -/
theorem lower_keeps_shape_paidOrders :
    ∃ t p', (orderCompiler.lower (.query ⟨paidOrders, .entity "Order" []⟩)).result = .ok t ∧
      t.queries = [p'] ∧ p'.select.label = "q" ∧ p'.select.columnNames = ["id", "name"] ∧
      p'.projector = .entity "Order"
        [⟨"id", .column "q" "id"⟩, ⟨"customer", .column "q" "name"⟩] := by
  obtain ⟨t, run⟩ := exists_lower_paidOrders
  have shape := lower_keeps_shape (by decide) run
  obtain ⟨p', rest, ⟨label, entities⟩, none, queries⟩ := List.forall₂_cons_left_iff.1 shape
  obtain rfl := List.forall₂_nil_left_iff.1 none
  obtain ⟨entity, found, names, -, projector⟩ := entities "Order" [] rfl
  obtain rfl := Option.some.inj found
  exact ⟨t, p', run, queries, label, names, projector⟩

end Compiler

end HiveQuery
