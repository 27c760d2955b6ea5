import HiveQuery.Proofs.ColumnEconomy
import HiveQuery.Proofs.Stretches
/-!
# Scopes of merged selects

A reference is to a column of a select that its label shows (`Projection.Denotes`). Merging rewrites
the expressions of the select, drops some of its columns, and leaves renames that say what each of
them has been merged into (`Projection.Merged`). Between scopes of which each shows what has become
of the selects in the other, the renames of the whole pass lead from what resolves to what resolves,
and from a column to one with an equal expression (`Scope.Pairs.redirects`).
-/

namespace HiveQuery

open Outcome

/-! ## Frames of related selects -/

section Pairs

variable {R : Select → Select → Prop}

/-- The scopes have the same levels, which show related selects under the same labels. -/
def Scope.Pairs (R : Select → Select → Prop) (scope scope' : Scope) : Prop :=
  List.Forall₂ (List.Forall₂ (Visible.Pairs R)) scope scope'

/-- Where the one frame shows a table, so does the other. -/
theorem Visible.Pairs.of_table {x y : String × Visible} (h : Visible.Pairs R x y)
    (table : x.2 = .table) : y.2 = .table := by
  cases h with
  | table => rfl
  | select => cases table

/-- Where the one frame shows the columns of a select, the other shows those of a related one. -/
theorem Visible.Pairs.of_columns {x y : String × Visible} (h : Visible.Pairs R x y)
    {names : List String} (columns : x.2 = .columns names) :
    ∃ v v', R v v' ∧ v.label = x.1 ∧ v.columnNames = names ∧ y.2 = .columns v'.columnNames := by
  cases h with
  | table => cases columns
  | select h => exact ⟨_, _, h, rfl, Visible.columns.inj columns, rfl⟩

variable (labels : ∀ v v', R v v' → v'.label = v.label)
include labels

/-- Related frames show related things under every label. -/
theorem Visible.Pairs.lookup {frame frame' : Frame}
    (h : List.Forall₂ (Visible.Pairs R) frame frame') (label : String) :
    Option.Rel (fun x y => Visible.Pairs R (label, x) (label, y))
      (frame.lookup label) (frame'.lookup label) := by
  induction h with
  | nil => exact .none
  | cons pair _ ih =>
    cases pair with
    | table label' =>
      rw [List.lookup_cons, List.lookup_cons]
      split
      · next same =>
        obtain rfl := beq_iff_eq.1 same
        exact .some (.table label)
      · exact ih
    | @select v v' h =>
      rw [List.lookup_cons, List.lookup_cons, labels v v' h]
      split
      · next same =>
        obtain rfl := beq_iff_eq.1 same
        have pair := Visible.Pairs.select h
        rw [labels v v' h] at pair
        exact .some pair
      · exact ih

/-- **What a label shows in two related scopes is related.** -/
theorem Scope.Pairs.find? {scope scope' : Scope} (h : Scope.Pairs R scope scope')
    (label : String) :
    Option.Rel (fun x y => Visible.Pairs R (label, x) (label, y))
      (scope.find? label) (scope'.find? label) := by
  unfold Scope.find?
  induction h with
  | nil => exact .none
  | @cons frame frame' _ _ frames _ ih =>
    rw [List.findSome?_cons, List.findSome?_cons]
    have found := Visible.Pairs.lookup labels frames label
    generalize frame.lookup label = x, frame'.lookup label = y at found ⊢
    cases found with
    | none => exact ih
    | some pair => exact .some pair

end Pairs

/-- What is found in a scope is declared in it. -/
theorem Scope.declares_of_find? {scope : Scope} {label : String} {visible : Visible}
    (h : scope.find? label = some visible) : scope.Declares label := by
  obtain ⟨frame, hframe, found⟩ := List.exists_of_findSome?_eq_some h
  refine ⟨frame, hframe, ?_⟩
  by_contra absent
  rw [Frame.lookup_eq_none_iff.2 absent] at found
  cases found

/-! ## Columns that are dropped -/

/-- The second select is the first one without some of its columns. -/
structure Select.Drops (s s' : Select) : Prop where
  eq : s' = { s with columns := s'.columns }
  columns : s'.columns.Sublist s.columns

namespace Select.Drops

variable {s s' : Select} (h : s.Drops s')
include h

theorem label : s'.label = s.label := by
  rw [h.eq]

/-- A select without some of its columns reads the same selects, -/
theorem sources : s'.sources = s.sources := by
  rw [h.eq]
  rfl

theorem tables : s'.tables = s.tables := by
  rw [h.eq]
  rfl

/-- shows the same labels to its clauses, -/
theorem frame : s'.frame = s.frame := by
  rw [h.eq]
  rfl

/-- and has no expression that it had not before. -/
theorem exprs : s'.exprs ⊆ s.exprs := by
  rw [h.eq]
  exact List.append_subset.2 ⟨List.subset_append_of_subset_left _
    (clauses_subset_of_columns fun c hc => ⟨c, h.columns.subset hc, rfl⟩),
    List.subset_append_right _ _⟩

/-- The selects below it that a traversal visits are among those it visited before, in the same
order. -/
theorem visited : s'.visited.Sublist s.visited := by
  rw [h.eq]
  exact visited_sublist_of_columns h.columns

end Select.Drops

/-- If each of the selects declares no more than before, they declare no more together. -/
theorem Select.flatMap_labels_subperm_of_forall₂ {qs qs' : List Select}
    (h : List.Forall₂ (fun q q' => q'.labels.Subperm q.labels) qs qs') :
    (qs'.flatMap Select.labels).Subperm (qs.flatMap Select.labels) := by
  induction h with
  | nil => exact .refl _
  | cons head _ ih => exact head.append ih

section Thins

variable {m : Type → Type} [Monad m] {σ : Type} [Outcome m σ] {t : Transform m} (thins : t.Thins)
variable {depth : Nat} {st st' : σ} {s s' : Select}
include thins

/-- What a thinning transformation does to a select is to drop columns. -/
theorem Transform.Thins.drops (act : outcome (t.select depth s) st = .ok (s', st')) :
    s.Drops s' := by
  obtain ⟨cs, sublist, rfl⟩ := thins.select depth s st s' st' act
  exact ⟨rfl, sublist⟩

variable [LawfulMonad m]

/-- A transformation that drops columns declares no new label. -/
theorem Select.labels_subperm_of_thins (h : outcome (s.transform t depth) st = .ok (s', st')) :
    s'.labels.Subperm s.labels := by
  refine Select.transform_induction thins.leaves
    (R := fun _ _ s s' _ => s'.labels.Subperm s.labels) ?_ h
  intro depth s s₁ s' st st₁ st' chain mirrors act
  have drops := thins.drops act
  have below := flatMap_labels_subperm_of_forall₂ (chain.forall₂.imp fun _ _ ⟨_, _, sub⟩ => sub)
  have kept := (drops.visited.flatMap Select.labels).subperm
  refine s'.labels_perm.subperm.trans (.trans ?_ s.labels_perm.symm.subperm)
  rw [labelsBelow, labelsBelow, drops.label, mirrors.label, drops.tables, mirrors.tables]
  exact (List.subperm_cons _).2 ((List.subperm_append_left _).2 (kept.trans below))

/-- A thinning transformation declares no label twice where none was. -/
theorem Projection.nodup_labels_of_thins {p p' : Projection} (labels : p.labels.Nodup)
    (h : outcome (p.transform t) st = .ok (p', st')) : p'.labels.Nodup := by
  have each := (chain_of_outcome_mapM (Projection.of_transform thins.leaves h)).forall₂
  obtain ⟨l, perm, sublist⟩ := Select.flatMap_labels_subperm_of_forall₂
    (each.imp fun _ _ ⟨_, _, run⟩ => Select.labels_subperm_of_thins thins run)
  rw [Projection.labels_eq_flatMap] at labels ⊢
  exact perm.nodup_iff.1 (labels.sublist sublist)

end Thins

/-! ## What merging makes of a reference -/

namespace Projection

/-- **The pass comes to a select** at a depth and with the renames that it has collected by then. -/
inductive Visits (p : Projection) : Nat → Renames → Select → Prop
  | root {before before' after : List Select} {c : Select} {st : Renames}
      (split : p.visited = before ++ c :: after)
      (run : outcome (before.mapM (Select.transform .merging 0)) [] = .ok (before', st)) :
      Visits p 0 st c
  | inner {depth : Nat} {st st₁ : Renames} {s c : Select} {before before' after : List Select}
      (h : Visits p depth st s) (split : s.visited = before ++ c :: after)
      (run : outcome (before.mapM (Select.transform .merging (depth + 1))) st =
        .ok (before', st₁)) : Visits p (depth + 1) st₁ c

/-- The pass rewrites the expressions of the first select into those of the second. Its columns are
merged only then. -/
def Rewrites (p : Projection) (q q₁ : Select) : Prop :=
  ∃ depth st st₁, p.Visits depth st q ∧
    outcome (q.transformParts .merging depth) st = .ok (q₁, st₁)

/-- **What a reference refers to**: a column of a select that its label shows. The select names its
columns apart, or else the name would not say which of them is meant. -/
structure Denotes (p : Projection) (scope : Scope) (r : String × String) (v : Select) (d : Column) :
    Prop where
  held : .select v ∈ p.nodes
  label : v.label = r.1
  visible : scope.find? r.1 = some (.columns v.columnNames)
  names : v.columnNames.Nodup
  column : d ∈ v.columns
  name : d.name = r.2

/-- **A reference that keeps its meaning.** If the first reference refers to a column of a select,
then the second refers to a column of the same select whose expression equals the rewritten
expression of the column. -/
def Redirects (p p' : Projection) (scope scope' : Scope) (r r' : String × String) : Prop :=
  ∀ v d, p.Denotes scope r v d → ∃ v₁ d₁ v' c, p.Rewrites v v₁ ∧
    (d, d₁) ∈ v.columns.zip v₁.columns ∧ v'.label = v.label ∧ p'.Denotes scope' r' v' c ∧
      (c = d₁ ∨ (c.expr == d₁.expr) = true)

/-- A select of a query before and after the pass, and what the renames say of its columns. -/
structure Merged (p p' : Projection) (renames : Renames) (v v' : Select) : Prop where
  before : .select v ∈ p.nodes
  after : .select v' ∈ p'.nodes
  label : v'.label = v.label
  rewritten : ∃ v₁, p.Rewrites v v₁ ∧ v'.columns.Sublist v₁.columns ∧
    List.Forall₂ (fun d d₁ => d₁.name = d.name ∧ ∃ c ∈ v'.columns,
      c.name = (renames.ref (v.label, d.name)).2 ∧
        (v.columnNames.Nodup → c = d₁ ∨ (c.expr == d₁.expr) = true)) v.columns v₁.columns

variable {p p' : Projection} {renames : Renames} {v v' : Select}

/-- The columns that are left keep their order. -/
theorem Merged.columnNames_sublist (h : p.Merged p' renames v v') :
    v'.columnNames.Sublist v.columnNames := by
  obtain ⟨v₁, -, sublist, columns⟩ := h.rewritten
  have names : List.Forall₂ (· = ·) (v.columns.map (·.name)) (v₁.columns.map (·.name)) :=
    List.forall₂_map_right_iff.2 (List.forall₂_map_left_iff.2
      (columns.imp fun _ _ alike => alike.1.symm))
  rw [List.forall₂_eq_eq_eq] at names
  unfold Select.columnNames
  rw [names]
  exact sublist.map _

/-- A label stands for one select of a query. -/
theorem eq_of_label (labels : p.labels.Nodup) (hv : .select v ∈ p.nodes)
    (hv' : .select v' ∈ p.nodes) (same : v'.label = v.label) : v' = v :=
  Node.select.inj (eq_of_nodup_filterMap labels hv' hv (congrArg some same) rfl)

end Projection

/-- What stands opposite to an item is related to it. -/
theorem exists_zip_of_forall₂_of_mem {α β : Type} {R : α → β → Prop} {as : List α} {bs : List β}
    (h : List.Forall₂ R as bs) {a : α} (ha : a ∈ as) : ∃ b, (a, b) ∈ as.zip bs ∧ R a b := by
  have zipped : List.Forall₂ (fun a b => (a, b) ∈ as.zip bs ∧ R a b) as bs :=
    List.forall₂_iff_zip.2 ⟨h.length_eq, fun mem => ⟨mem, List.forall₂_zip h mem⟩⟩
  obtain ⟨b, -, hb⟩ := exists_of_forall₂_of_mem_left zipped ha
  exact ⟨b, hb⟩

namespace Scope.Pairs

variable {p p' : Projection} {renames : Renames} {scope scope' : Scope} {r r' : String × String}

/-- What a label of merged selects shows after the pass. -/
theorem of_find?_columns (pairs : Scope.Pairs (p.Merged p' renames) scope scope')
    {label : String} {names : List String} (found : scope.find? label = some (.columns names)) :
    ∃ v v', p.Merged p' renames v v' ∧ v.label = label ∧ v.columnNames = names ∧
      scope'.find? label = some (.columns v'.columnNames) := by
  have related := pairs.find? (fun _ _ merged => merged.label) label
  rw [found] at related
  generalize scope'.find? label = visible at related ⊢
  obtain ⟨pair⟩ := related
  obtain ⟨v, v', merged, hlabel, hnames, hvisible⟩ := pair.of_columns rfl
  exact ⟨v, v', merged, hlabel, hnames, congrArg some hvisible⟩

/-- A label of a table is one of a table in the scope of the merged selects. -/
theorem find?_table (pairs : Scope.Pairs (p.Merged p' renames) scope scope') {label : String}
    (found : scope.find? label = some .table) : scope'.find? label = some .table := by
  have related := pairs.find? (fun _ _ merged => merged.label) label
  rw [found] at related
  generalize scope'.find? label = visible at related ⊢
  obtain ⟨pair⟩ := related
  exact congrArg some (pair.of_table rfl)

/-- **The renames of the whole pass lead from what resolves to what resolves**, -/
theorem error?_eq_none (pairs : Scope.Pairs (p.Merged p' renames) scope scope')
    (resolves : scope.error? r = none) : scope'.error? (renames.ref r) = none := by
  rw [Scope.error?] at resolves
  split at resolves
  · next found => rw [Scope.error?, Renames.ref, pairs.find?_table found]
  · next names found =>
    split at resolves
    · next shown =>
      obtain ⟨v, v', merged, label, rfl, visible⟩ := pairs.of_find?_columns found
      obtain ⟨v₁, -, -, columns⟩ := merged.rewritten
      obtain ⟨d, hd, name⟩ := List.mem_map.1 (List.contains_iff_mem.1 shown)
      obtain ⟨-, -, -, c, hc, renamed, -⟩ := exists_of_forall₂_of_mem_left columns hd
      have shown' : (renames.ref r).2 ∈ v'.columnNames := by
        rw [label, name] at renamed
        exact renamed ▸ List.mem_map_of_mem hc
      have found' : scope'.find? (renames.ref r).1 = some (.columns v'.columnNames) := visible
      rw [Scope.error?, found']
      exact if_pos (List.contains_iff_mem.2 shown')
    · cases resolves
  · cases resolves

/-- and from a column to what it has been merged into. -/
theorem redirects (pairs : Scope.Pairs (p.Merged p' renames) scope scope')
    (labels : p.labels.Nodup) (renamed : scope.Declares r.1 → r' = renames.ref r) :
    p.Redirects p' scope scope' r r' := by
  intro v d denotes
  -- the label shows some merged select, and since it is declared once this is the one referred to
  obtain ⟨u, v', merged, label, -, visible⟩ := pairs.of_find?_columns denotes.visible
  obtain rfl := Projection.eq_of_label labels denotes.held merged.before
    (label.trans denotes.label.symm)
  obtain ⟨v₁, rewrites, sublist, columns⟩ := merged.rewritten
  obtain ⟨d₁, zipped, -, c, hc, name, equal⟩ := exists_zip_of_forall₂_of_mem columns denotes.column
  obtain rfl := renamed (Scope.declares_of_find? denotes.visible)
  refine ⟨v₁, d₁, v', c, rewrites, zipped, merged.label, ?_, equal denotes.names⟩
  refine ⟨merged.after, merged.label.trans label, visible,
    denotes.names.sublist merged.columnNames_sublist, hc, ?_⟩
  rw [name, label, denotes.name]

end Scope.Pairs

end HiveQuery
