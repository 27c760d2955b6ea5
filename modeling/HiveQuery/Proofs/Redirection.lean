import HiveQuery.Proofs.MergeComplete
import HiveQuery.Proofs.MergedScopes
import HiveQuery.Proofs.Shape
/-!
# Merged columns are still found

Merging renames a reference by the renames that it has collected when it comes to the reference. If
what the reference resolves to has been merged by then, the renames of the whole pass do the same to
it. This is so for every reference that resolves, except where the condition of a join refers to a
part of the source that is transformed later. Without such conditions a valid statement stays valid,
and a reference to a column is one to a column of an equal expression afterwards
(`Statement.mergeColumns_redirects`).
-/

namespace HiveQuery

open Outcome

/-! ## Labels -/

theorem Source.mem_frame_labels_iff {source : Source} {label : String} :
    label ∈ source.frame.map Prod.fst ↔
      label ∈ source.tables ∨ ∃ v ∈ source.selects, v.label = label := by
  induction source using Source.join_induction with
  | table => simp [frame, tables, selects]
  | subquery => simp [frame, tables, selects, eq_comm]
  | join kind left right condition ihl ihr =>
    simp only [frame, tables, selects, List.map_append, List.mem_append, ihl, ihr, or_and_right,
      exists_or]
    rw [or_comm, or_or_or_comm]

theorem Source.tables_subset_of_joined {source : Source} {j : Source × Expr}
    (h : j ∈ source.joined) : j.1.tables ⊆ source.tables := by
  induction source using Source.join_induction with
  | table | subquery => cases h
  | join kind left right condition ihl ihr =>
    simp only [joined, List.mem_append, List.mem_map] at h
    rcases h with (h | h) | ⟨e, -, rfl⟩
    · exact List.subset_append_of_subset_left _ (ihl h)
    · exact List.subset_append_of_subset_right _ (ihr h)
    · exact List.Subset.refl _

namespace Select

variable {s : Select} {label : String}

theorem mem_frame_labels_iff : label ∈ s.frame.map Prod.fst ↔
    label ∈ s.tables ∨ ∃ v ∈ s.sources, v.label = label := by
  unfold frame tables sources
  cases s.source with
  | none => simp [Source.frameOption]
  | some source => simpa [Source.frameOption] using Source.mem_frame_labels_iff

theorem label_mem_labels (s : Select) : s.label ∈ s.labels := by
  rw [labels_eq]
  exact List.mem_cons_self

/-- What a select sees through its source is declared below it, -/
theorem mem_labelsBelow_of_frame (h : label ∈ s.frame.map Prod.fst) : label ∈ s.labelsBelow := by
  rcases mem_frame_labels_iff.1 h with table | ⟨v, hv, rfl⟩
  · exact List.mem_append_left _ table
  · have visited : v ∈ s.visited := mem_visited_iff.2 (mem_children_iff.2 (.inl hv))
    exact (labels_sublist_labelsBelow visited).subset v.label_mem_labels

/-- and not in its expressions. -/
theorem not_mem_labels_of_frame (labels : s.labels.Nodup) (h : label ∈ s.frame.map Prod.fst)
    {e : Expr} (he : e ∈ s.exprs) : label ∉ e.labels := by
  intro here
  have nodup := Multiset.nodup_of_le s.frame_labels_le (Multiset.coe_nodup.2 labels)
  have apart := (Multiset.nodup_add.1 nodup).2.2
  refine Multiset.disjoint_left.1 apart (Multiset.mem_coe.2 h) ?_
  rw [Multiset.mem_add, Multiset.mem_coe, Multiset.mem_coe]
  rcases List.mem_append.1 he with he | he
  · exact .inr (List.mem_flatMap_of_mem he here)
  · exact .inl (List.mem_flatMap_of_mem he here)

end Select

/-! ## Conditions that refer to what they join -/

/-- **A select whose joins are local.** Whatever is read under the condition of a join, in its
subqueries too, is under a label of the two sides, of the scopes around the select, or of the
subqueries themselves. -/
def Select.JoinsLocally (around : Scope) (s : Select) : Prop :=
  ∀ source ∈ s.source, ∀ j ∈ source.joined, ∀ r ∈ j.2.refs,
    r.1 ∈ j.1.frame.map Prod.fst ∨ around.Declares r.1 ∨ r.1 ∈ j.2.labels

namespace Projection

/-- A select of a query, and what it sees around it. -/
def Within (p : Projection) (around : Scope) (q : Select) : Prop :=
  p.select.Within [] around q ∨
    ∃ e ∈ p.projector.exprs, ∃ c ∈ e.subqueries, c.Within p.top around q

def JoinsLocally (p : Projection) : Prop :=
  ∀ around q, p.Within around q → q.JoinsLocally around

end Projection

/-- A select with nothing below it. -/
theorem Select.Within.eq_of_children {s q : Select} {scope around : Scope}
    (h : s.Within scope around q) (none : s.children = []) : q = s := by
  cases h with
  | self => rfl
  | source hc => exact absurd (mem_children_iff.2 (.inl hc)) (none ▸ List.not_mem_nil)
  | subquery he hc => exact absurd (mem_children_iff.2 (.inr ⟨_, he, hc⟩)) (none ▸ List.not_mem_nil)

/-! ## Where references are renamed -/

/-- **The part of the pass that settles some labels.** They are declared once, nothing is renamed
under them at its start, and at its end all that ever will be. -/
structure Renames.Settles (renames : Renames) (labels : List String) (st st' : Renames) : Prop where
  nodup : labels.Nodup
  fresh : ∀ r : String × String, r.1 ∈ labels → st.ref r = r
  final : ∀ r : String × String, r.1 ∈ labels → st'.ref r = renames.ref r

namespace Renames.Settles

variable {renames st st' : Renames} {depth : Nat}

theorem sublist {labels labels' : List String} (h : renames.Settles labels st st')
    (sub : labels'.Sublist labels) : renames.Settles labels' st st' where
  nodup := h.nodup.sublist sub
  fresh r hr := h.fresh r (sub.subset hr)
  final r hr := h.final r (sub.subset hr)

/-- The labels of a select are settled in its stretch. -/
theorem stretch {all seen : List Select} {c : Select} {a b : Renames}
    (h : renames.Settles (all.flatMap Select.labels) st st')
    (here : Select.Stretch .merging depth all st st' seen [c] a b) :
    renames.Settles c.labels a b := by
  have held : c ∈ all := here.subset (List.mem_singleton_self c)
  have sub := sublist_flatMap_of_mem held Select.labels
  have own : ∀ {label}, label ∈ c.labels → label ∈ [c].flatMap Select.labels := fun hl =>
    List.mem_flatMap_of_mem (List.mem_singleton_self c) hl
  refine ⟨h.nodup.sublist sub, fun r hr => ?_, fun r hr => ?_⟩
  · exact (merging_governs.rename_start_of_mem h.nodup here (own hr)).trans
      (h.fresh r (sub.subset hr))
  · exact (merging_governs.rename_end_of_mem h.nodup here (own hr)).symm.trans
      (h.final r (sub.subset hr))

/-- The labels below a select are settled before the select itself. -/
theorem below {s s₁ s' : Select} {st₁ : Renames} (h : renames.Settles s.labels st st')
    (label : s₁.label = s.label)
    (act : outcome (Transform.merging.select depth s₁) st₁ = .ok (s', st')) :
    renames.Settles s.labelsBelow st st₁ := by
  have own : s.label ∉ s.labelsBelow := Select.OwnsLabel.of_nodup h.nodup
  have under : ∀ {l}, l ∈ s.labelsBelow → l ∈ s.labels := fun hl =>
    Select.mem_labels_iff.2 (.inr hl)
  refine ⟨Select.nodup_labelsBelow h.nodup, fun r hr => h.fresh r (under hr), fun r hr => ?_⟩
  have apart : r.1 ≠ s₁.label := fun same => own (label ▸ same ▸ hr)
  exact (merging_governs.outside act r apart).symm.trans (h.final r (under hr))

end Renames.Settles

/-- **What becomes of the references that an expression makes itself**, as far as they are to labels
that it does not declare and that are renamed by then as in the end. -/
theorem Expr.RunsIn.localRefs {all seen : List Select} {depth : Nat} {renames st st' : Renames}
    {e e' : Expr} {visible : String → Prop} (runs : e.RunsIn .merging depth all st st' seen e')
    (apart : ∀ label, visible label → label ∉ e.labels)
    (renamed : ∀ {a b}, Select.Stretch .merging depth all st st' seen e.subqueries a b →
      ∀ r ∈ e.localRefs, visible r.1 → a.ref r = renames.ref r) :
    List.Forall₂ (fun r r' => visible r.1 → r' = renames.ref r) e.localRefs e'.localRefs := by
  obtain ⟨a, b, stretch, run⟩ := runs
  have follows : e.Follows .merging depth
      (fun st => ∀ r : String × String, visible r.1 → st.ref r = a.ref r)
      (fun r r' => visible r.1 → r' = a.ref r) :=
    merging_governs.follows fun q hq st q' st' run r hr => merging_governs.rename_outside run
      fun inside => apart r.1 hr ((Expr.labels_sublist_of_mem_subqueries hq).subset inside)
  obtain ⟨-, -, refs⟩ := follows a e' b (fun _ _ => rfl) run
  exact forall₂_imp_of_mem refs fun r hr r' _ value declared =>
    (value declared).trans (renamed stretch r hr declared)

/-! ## The pass at a select -/

namespace Projection

/-- **A select as the pass meets it**, with the scopes around it before and after. No label from
around is declared in it again, and a reference to what is around is renamed already as it will be
in the end. -/
structure Passes (p p' : Projection) (renames : Renames) (scope scope' : Scope) (depth : Nat)
    (st : Renames) (s s' : Select) (st' : Renames) : Prop where
  before : .select s ∈ p.nodes
  after : .select s' ∈ p'.nodes
  visits : p.Visits depth st s
  run : outcome (s.transform .merging depth) st = .ok (s', st')
  settles : renames.Settles s.labels st st'
  hidden : ∀ label, scope.Declares label → label ∉ s.labels
  renamed : ∀ r ∈ s.refs, scope.Declares r.1 → st.ref r = renames.ref r
  pairs : Scope.Pairs (p.Merged p' renames) scope scope'
  joins : ∀ around q, s.Within scope around q → q.JoinsLocally around

variable {p p' : Projection} {renames : Renames} {scope scope' : Scope} {depth : Nat}
variable {st st₁ st' : Renames} {s s₁ s' c c' : Select}

theorem declares_top_iff {label : String} : p.top.Declares label ↔ label = p.select.label := by
  simp [Scope.Declares, top, Source.frame]

/-- One of several selects that are transformed in a run. -/
theorem Passes.of_runsIn {all seen : List Select}
    (runs : c.RunsIn .merging depth all st st' seen c')
    (visits : ∀ {before after before' a}, all = before ++ c :: after →
      outcome (before.mapM (Select.transform .merging depth)) st = .ok (before', a) →
        p.Visits depth a c)
    (settles : renames.Settles (all.flatMap Select.labels) st st')
    (hidden : ∀ label, scope.Declares label → label ∉ c.labels)
    (renamed : ∀ {a b}, Select.Stretch .merging depth all st st' seen [c] a b →
      ∀ r ∈ c.refs, scope.Declares r.1 → a.ref r = renames.ref r)
    (pairs : Scope.Pairs (p.Merged p' renames) scope scope')
    (joins : ∀ around q, c.Within scope around q → q.JoinsLocally around)
    (before : .select c ∈ p.nodes) (after : .select c' ∈ p'.nodes) :
    ∃ a b, p.Passes p' renames scope scope' depth a c c' b := by
  obtain ⟨a, b, stretch, run⟩ := runs
  refine ⟨a, b, before, after, ?_, run, settles.stretch stretch, hidden, renamed stretch, pairs,
    joins⟩
  obtain ⟨split, -, first, -, -⟩ := stretch
  exact visits (by rw [split, List.append_assoc, List.singleton_append]) first

namespace Passes

theorem exists_parts (h : p.Passes p' renames scope scope' depth st s s' st') :
    ∃ s₁ st₁, outcome (s.transformParts .merging depth) st = .ok (s₁, st₁) ∧
      outcome (Transform.merging.select depth s₁) st₁ = .ok (s', st') := by
  have run := h.run
  rwa [Select.transform_eq, outcome_bind_eq_ok_iff] at run

section Parts

variable (h : p.Passes p' renames scope scope' depth st s s' st')
variable (parts : outcome (s.transformParts .merging depth) st = .ok (s₁, st₁))
variable (act : outcome (Transform.merging.select depth s₁) st₁ = .ok (s', st'))
variable {seen qs : List Select} {a b : Renames} {r : String × String}
include h

/-- A label that an expression of the select sees is not declared in the expression. -/
theorem not_mem_labels {e : Expr} (he : e ∈ s.exprs) {label : String}
    (declared : Scope.Declares (s.frame :: scope) label) : label ∉ e.labels := by
  rcases Scope.declares_cons.1 declared with frame | around
  · exact Select.not_mem_labels_of_frame h.settles.nodup frame he
  · intro here
    rw [e.labels_eq_flatMap] at here
    obtain ⟨c, hc, here⟩ := List.mem_flatMap.1 here
    exact h.hidden label around ((Select.labels_sublist_of_mem_children
      (Select.mem_children_iff.2 (.inr ⟨e, he, hc⟩))).subset here)

/-- What an expression reads through the source of the select has been left behind when the pass
comes to it. -/
theorem mem_seen {x : List Select × Expr} (hx : x ∈ s.placed) (hr : r ∈ x.2.refs)
    (frame : r.1 ∈ s.frame.map Prod.fst) : r.1 ∈ s.tables ∨ ∃ v ∈ x.1, v.label = r.1 := by
  rcases List.mem_append.1 hx with clause | condition
  · obtain ⟨e, -, rfl⟩ := List.mem_map.1 clause
    exact Select.mem_frame_labels_iff.1 frame
  · obtain ⟨source, hs, hx'⟩ := List.mem_flatMap.1 condition
    obtain ⟨j, hj, rfl⟩ := List.mem_map.1 hx'
    have held : j.2 ∈ s.exprs :=
      List.mem_append_right _ (List.mem_flatMap_of_mem hs (Source.mem_conditions_of_joined hj))
    -- a label of the source is neither one of the scopes around nor one of the condition
    rcases h.joins scope s .self source (Option.mem_toList.1 hs) j hj r hr with
      sides | around | inside
    · refine (Source.mem_frame_labels_iff.1 sides).imp_left fun table => ?_
      exact List.mem_flatMap_of_mem hs (Source.tables_subset_of_joined hj table)
    · exact absurd (Select.mem_labels_iff.2 (.inr (Select.mem_labelsBelow_of_frame frame)))
        (h.hidden r.1 around)
    · exact absurd inside (Select.not_mem_labels_of_frame h.settles.nodup frame held)

/-- Below the select, a reference to what is around it is renamed as before. -/
theorem ref_around (stretch : Select.Stretch .merging (depth + 1) s.visited st st₁ seen qs a b)
    (hr : r ∈ s.refs) (around : scope.Declares r.1) : a.ref r = renames.ref r := by
  have outside : r.1 ∉ s.visited.flatMap Select.labels := fun inside =>
    h.hidden r.1 around (Select.mem_labels_iff.2 (.inr (List.mem_append_right _ inside)))
  exact (merging_governs.rename_start stretch outside).trans (h.renamed r hr around)

include parts act

theorem settles_below : renames.Settles s.labelsBelow st st₁ :=
  h.settles.below (Select.of_transformParts Transform.merging_thins.leaves parts).2.label act

/-- **A reference under an expression of the select is renamed as in the end**, if it is to what the
expression sees. -/
theorem ref_of_declares {x : List Select × Expr} (hx : x ∈ s.placed) (hr : r ∈ x.2.refs)
    (stretch : Select.Stretch .merging (depth + 1) s.visited st st₁ x.1 qs a b)
    (declared : Scope.Declares (s.frame :: scope) r.1) : a.ref r = renames.ref r := by
  have held : x.2 ∈ s.exprs := s.map_snd_placed ▸ List.mem_map_of_mem hx
  have below := h.settles_below parts act
  obtain ⟨visited, -⟩ := Select.of_transformParts Transform.merging_thins.leaves parts
  rcases Scope.declares_cons.1 declared with frame | around
  · rcases h.mem_seen hx hr frame with table | ⟨v, hv, label⟩
    · -- nothing is ever renamed under the label of a table
      have outside : r.1 ∉ s.visited.flatMap Select.labels := fun inside =>
        (List.nodup_append.1 below.nodup).2.2 _ table _ inside rfl
      calc a.ref r = st.ref r := merging_governs.rename_start stretch outside
        _ = st₁.ref r := (merging_governs.rename_outside_list visited outside).symm
        _ = renames.ref r := below.final r (List.mem_append_left _ table)
    · have behind : r.1 ∈ x.1.flatMap Select.labels :=
        List.mem_flatMap_of_mem hv (label ▸ v.label_mem_labels)
      calc a.ref r = st₁.ref r :=
            merging_governs.rename_of_seen (List.nodup_append.1 below.nodup).2.1 stretch behind
        _ = renames.ref r := below.final r (Select.mem_labelsBelow_of_frame frame)
  · exact h.ref_around stretch (Select.mem_refs_iff.2 (.inr ⟨x.2, held, hr⟩)) around

/-- **What becomes of a select and its columns.** -/
theorem merged : p.Merged p' renames s s' := by
  obtain ⟨visited, mirrors⟩ := Select.of_transformParts Transform.merging_thins.leaves parts
  have drops := Transform.merging_thins.drops act
  refine ⟨h.before, h.after, drops.label.trans mirrors.label, s₁,
    ⟨depth, st, st₁, h.visits, parts⟩, drops.columns, ?_⟩
  -- before the action on the select nothing has been renamed under its label
  have own : s.label ∉ s.visited.flatMap Select.labels := fun inside =>
    Select.OwnsLabel.of_nodup h.settles.nodup (List.mem_append_right _ inside)
  have fresh : ∀ name, st₁.ref (s₁.label, name) = (s₁.label, name) := fun name => by
    rw [mirrors.label]
    exact (merging_governs.rename_outside_list visited own).trans
      (h.settles.fresh _ s.label_mem_labels)
  refine forall₂_imp_of_mem mirrors.columns fun d _ d₁ hd₁ alike => ⟨alike.1, ?_⟩
  obtain ⟨c, hc, name, equal⟩ := Select.exists_survivor act fresh hd₁
  refine ⟨c, hc, ?_, fun names => equal (mirrors.columnNames ▸ names)⟩
  rw [name, mirrors.label, alike.1]
  exact congrArg Prod.snd (h.settles.final _ s.label_mem_labels)

/-- **The pass at a select of the source**, which sees what the select sees. -/
theorem source (runs : c.RunsIn .merging (depth + 1) s.visited st st₁ [] c') (hc : c ∈ s.sources)
    (hc' : c' ∈ s₁.sources) :
    ∃ a b, p.Passes p' renames scope scope' (depth + 1) a c c' b := by
  have child : c ∈ s.children := Select.mem_children_iff.2 (.inl hc)
  have child' : c' ∈ s'.children :=
    Select.mem_children_iff.2 (.inl ((Transform.merging_thins.drops act).sources ▸ hc'))
  refine Passes.of_runsIn runs (fun split first => .inner h.visits split first)
    ((h.settles_below parts act).sublist (List.sublist_append_right _ _))
    (fun label around own => ?_) (fun stretch r hr around => ?_) h.pairs (fun around q within => ?_)
    (select_mem_nodes_of_child h.before child) (select_mem_nodes_of_child h.after child')
  · exact h.hidden label around ((Select.labels_sublist_of_mem_children child).subset own)
  · exact h.ref_around stretch (Select.mem_refs_iff.2 (.inl ⟨c, hc, hr⟩)) around
  · exact h.joins around q (.source hc within)

/-- The frame of the select shows what the pass makes of the selects that it showed. -/
theorem pairs_frame :
    Scope.Pairs (p.Merged p' renames) (s.frame :: scope) (s'.frame :: scope') := by
  refine .cons ?_ h.pairs
  obtain ⟨-, -, frame⟩ := Select.runs_of_transformParts Transform.merging_thins.leaves parts
  rw [(Transform.merging_thins.drops act).frame]
  refine frame.imp fun _ _ pair => pair.imp ?_
  rintro v v' ⟨runs, hv, hv'⟩
  obtain ⟨a, b, passes⟩ := h.source parts act runs hv hv'
  obtain ⟨v₁, _, parts', act'⟩ := passes.exists_parts
  exact passes.merged parts' act'

/-- **The pass at a subquery of an expression**, which sees the source of the select as well. -/
theorem subquery {x : List Select × Expr} {e' : Expr} (hx : x ∈ s.placed) (he' : e' ∈ s'.exprs)
    (runs : x.2.RunsIn .merging (depth + 1) s.visited st st₁ x.1 e') (hc' : c' ∈ e'.subqueries) :
    ∃ c ∈ x.2.subqueries, ∃ a b,
      p.Passes p' renames (s.frame :: scope) (s'.frame :: scope') (depth + 1) a c c' b := by
  have held : x.2 ∈ s.exprs := s.map_snd_placed ▸ List.mem_map_of_mem hx
  obtain ⟨c, hc, runs⟩ :=
    exists_of_forall₂_of_mem (runs.subqueries Transform.merging_thins.leaves) hc'
  refine ⟨c, hc, Passes.of_runsIn runs (fun split first => .inner h.visits split first)
    ((h.settles_below parts act).sublist (List.sublist_append_right _ _))
    (fun label declared own => ?_) (fun stretch r hr declared => ?_) (h.pairs_frame parts act)
    (fun around q within => ?_)
    (select_mem_nodes_of_child h.before (Select.mem_children_iff.2 (.inr ⟨x.2, held, hc⟩)))
    (select_mem_nodes_of_child h.after (Select.mem_children_iff.2 (.inr ⟨e', he', hc'⟩)))⟩
  · exact h.not_mem_labels held declared ((Expr.labels_sublist_of_mem_subqueries hc).subset own)
  · exact h.ref_of_declares parts act hx (Expr.mem_refs_iff.2 (.inr ⟨c, hc, hr⟩)) stretch declared
  · exact h.joins around q (.subquery held hc within)

/-- **What becomes of the references that the expressions of a select make themselves.** -/
theorem localRefs : List.Forall₂ (fun e e₁ => List.Forall₂ (fun r r₁ =>
      Scope.Declares (s.frame :: scope) r.1 → r₁ = renames.ref r) e.localRefs e₁.localRefs)
    s.exprs s₁.exprs := by
  obtain ⟨-, placed, -⟩ := Select.runs_of_transformParts Transform.merging_thins.leaves parts
  rw [← s.map_snd_placed]
  refine List.forall₂_map_left_iff.2 (forall₂_imp_of_mem placed fun x hx e₁ _ runs => ?_)
  have held : x.2 ∈ s.exprs := s.map_snd_placed ▸ List.mem_map_of_mem hx
  refine runs.localRefs (fun label declared => h.not_mem_labels held declared) ?_
  intro a b stretch r hr declared
  exact h.ref_of_declares parts act hx (x.2.localRefs_subset_refs hr) stretch declared

end Parts

/-- **The pass at every select of the result.** -/
theorem within {around' : Scope} {q' : Select} (inside : s'.Within scope' around' q')
    (h : p.Passes p' renames scope scope' depth st s s' st') :
    ∃ around q depth st st', s.Within scope around q ∧
      p.Passes p' renames around around' depth st q q' st' := by
  -- by induction on the place in the result, where each step down has one before the pass
  induction inside generalizing scope depth st s st' with
  | self => exact ⟨scope, s, depth, st, st', .self, h⟩
  | source hc' _ ih =>
    obtain ⟨s₁, st₁, parts, act⟩ := h.exists_parts
    obtain ⟨sources, -, -⟩ := Select.runs_of_transformParts Transform.merging_thins.leaves parts
    have same := Transform.merging_thins.drops act
    obtain ⟨c, hc, runs⟩ := exists_of_forall₂_of_mem sources (same.sources ▸ hc')
    obtain ⟨a, b, passes⟩ := h.source parts act runs hc (same.sources ▸ hc')
    obtain ⟨around, q, depth, st, st', below, further⟩ := ih passes
    exact ⟨around, q, depth, st, st', .source hc below, further⟩
  | subquery he' hc' _ ih =>
    obtain ⟨s₁, st₁, parts, act⟩ := h.exists_parts
    obtain ⟨-, placed, -⟩ := Select.runs_of_transformParts Transform.merging_thins.leaves parts
    have same := Transform.merging_thins.drops act
    obtain ⟨x, hx, runs⟩ := exists_of_forall₂_of_mem placed (same.exprs he')
    obtain ⟨c, hc, a, b, passes⟩ := h.subquery parts act hx he' runs hc'
    obtain ⟨around, q, depth, st, st', below, further⟩ := ih passes
    have held : x.2 ∈ s.exprs := s.map_snd_placed ▸ List.mem_map_of_mem hx
    exact ⟨around, q, depth, st, st', .subquery held hc below, further⟩

variable (h : p.Passes p' renames scope scope' depth st s s' st')
include h

/-- **A select whose references resolve** is one after the pass. -/
theorem resolves (resolves : s.Resolves scope) : s'.Resolves scope' := by
  obtain ⟨s₁, st₁, parts, act⟩ := h.exists_parts
  refine ⟨resolves.names.sublist (h.merged parts act).columnNames_sublist, fun e' he' r' hr' => ?_⟩
  obtain ⟨e, he, refs⟩ :=
    exists_of_forall₂_of_mem (h.localRefs parts act) ((Transform.merging_thins.drops act).exprs he')
  obtain ⟨r, hr, renamed⟩ := exists_of_forall₂_of_mem refs hr'
  have found := resolves.refs e he r hr
  rw [renamed (Scope.declares_of_error? found)]
  exact (h.pairs_frame parts act).error?_eq_none found

/-- **The references of a select** keep their meaning. -/
theorem redirects (labels : p.labels.Nodup) : ∃ s₁, p.Rewrites s s₁ ∧ s₁.Drops s' ∧
    List.Forall₂ (fun e e₁ => List.Forall₂
      (p.Redirects p' (s.frame :: scope) (s'.frame :: scope')) e.localRefs e₁.localRefs)
      s.exprs s₁.exprs := by
  obtain ⟨s₁, st₁, parts, act⟩ := h.exists_parts
  refine ⟨s₁, ⟨depth, st, st₁, h.visits, parts⟩, Transform.merging_thins.drops act, ?_⟩
  exact (h.localRefs parts act).imp fun _ _ refs => refs.imp fun _ _ renamed =>
    (h.pairs_frame parts act).redirects labels renamed

end Passes

/-! ## The pass over a query -/

section Query

variable (labels : p.labels.Nodup)
include labels

theorem settles_visited : renames.Settles (p.visited.flatMap Select.labels) [] renames :=
  ⟨p.labels_eq_flatMap ▸ labels, fun _ _ => rfl, fun _ _ => rfl⟩

/-- The label of the top select is not declared in the projector. -/
theorem not_mem_labels_of_top {e : Expr} (he : e ∈ p.projector.exprs) {label : String}
    (declared : p.top.Declares label) : label ∉ e.labels := by
  obtain rfl := declares_top_iff.1 declared
  intro here
  rw [labels_eq] at labels
  exact (List.nodup_append.1 labels).2.2 _ p.select.label_mem_labels _
    (List.mem_flatMap_of_mem he here) rfl

/-- In the projector, a reference to the top select is renamed as in the end. -/
theorem ref_of_top {qs : List Select} {a b : Renames} {r : String × String}
    (stretch : Select.Stretch .merging 0 p.visited [] renames [p.select] qs a b)
    (declared : p.top.Declares r.1) : a.ref r = renames.ref r := by
  refine merging_governs.rename_of_seen (p.labels_eq_flatMap ▸ labels) stretch ?_
  rw [declares_top_iff.1 declared]
  exact List.mem_flatMap_of_mem (List.mem_singleton_self _) p.select.label_mem_labels

variable (run : outcome (p.transform .merging) [] = .ok (p', renames))
include run

/-- **What becomes of the references of the projector.** -/
theorem localRefs_projector : List.Forall₂ (fun e e' => List.Forall₂ (fun r r' =>
      p.top.Declares r.1 → r' = renames.ref r) e.localRefs e'.localRefs)
    p.projector.exprs p'.projector.exprs := by
  obtain ⟨-, exprs⟩ := runs_of_transform Transform.merging_thins.leaves run
  refine forall₂_imp_of_mem exprs fun e he e' _ runs => ?_
  exact runs.localRefs (fun label declared => not_mem_labels_of_top labels he declared)
    fun stretch r _ declared => ref_of_top labels stretch declared

variable (joins : p.JoinsLocally)
include joins

/-- The pass at the select of a query, -/
theorem exists_passes_select : ∃ a b, p.Passes p' renames [] [] 0 a p.select p'.select b := by
  obtain ⟨runs, -⟩ := runs_of_transform Transform.merging_thins.leaves run
  have held : ∀ q : Projection, .select q.select ∈ q.nodes := fun q =>
    mem_nodes_iff_holds.2 ⟨q.select, List.mem_cons_self, .self _⟩
  have nothing : ∀ label, ¬ Scope.Declares [] label := by
    rintro label ⟨frame, hframe, -⟩
    cases hframe
  refine Passes.of_runsIn runs (fun split first => .root split first)
    (settles_visited labels) (fun label declared => absurd declared (nothing label))
    (fun _ r _ declared => absurd declared (nothing r.1)) .nil
    (fun around q within => joins around q (.inl within)) (held p) (held p')

theorem pairs_top : Scope.Pairs (p.Merged p' renames) p.top p'.top := by
  obtain ⟨a, b, passes⟩ := exists_passes_select labels run joins
  obtain ⟨s₁, st₁, parts, act⟩ := passes.exists_parts
  exact .cons (.cons (.select (passes.merged parts act)) .nil) .nil

/-- The pass at a subquery of its projector, -/
theorem exists_passes_projector {e' : Expr} (he' : e' ∈ p'.projector.exprs)
    (hc' : c' ∈ e'.subqueries) : ∃ e ∈ p.projector.exprs, ∃ c ∈ e.subqueries, ∃ a b,
      p.Passes p' renames p.top p'.top 0 a c c' b := by
  obtain ⟨-, exprs⟩ := runs_of_transform Transform.merging_thins.leaves run
  obtain ⟨e, he, runs⟩ := exists_of_forall₂_of_mem exprs he'
  obtain ⟨c, hc, runs⟩ :=
    exists_of_forall₂_of_mem (runs.subqueries Transform.merging_thins.leaves) hc'
  have held : ∀ {q : Projection} {e c}, e ∈ q.projector.exprs → c ∈ e.subqueries →
      .select c ∈ q.nodes := fun he hc => mem_nodes_iff_holds.2
    ⟨_, List.mem_cons_of_mem _ (List.mem_flatMap_of_mem he hc), .self _⟩
  refine ⟨e, he, c, hc, Passes.of_runsIn runs (fun split first => .root split first)
    (settles_visited labels) (fun label declared own => ?_)
    (fun stretch r _ declared => ref_of_top labels stretch declared) (pairs_top labels run joins)
    (fun around q within => joins around q (.inr ⟨e, he, c, hc, within⟩)) (held he hc)
    (held he' hc')⟩
  exact not_mem_labels_of_top labels he declared
    ((Expr.labels_sublist_of_mem_subqueries hc).subset own)

/-- and so at every select of the result. -/
theorem exists_passes {around' : Scope} {q' : Select} (within' : p'.Within around' q') :
    ∃ around q depth st st', p.Within around q ∧
      p.Passes p' renames around around' depth st q q' st' := by
  rcases within' with inSelect | ⟨e', he', c', hc', inProjector⟩
  · obtain ⟨a, b, top⟩ := exists_passes_select labels run joins
    obtain ⟨around, q, depth, st, st', within, passes⟩ := Passes.within inSelect top
    exact ⟨around, q, depth, st, st', .inl within, passes⟩
  · obtain ⟨e, he, c, hc, a, b, root⟩ := exists_passes_projector labels run joins he' hc'
    obtain ⟨around, q, depth, st, st', within, passes⟩ := Passes.within inProjector root
    exact ⟨around, q, depth, st, st', .inr ⟨e, he, c, hc, within⟩, passes⟩

end Query

/-- **A query whose references keep their meaning.** Every select that is left comes from one of the
query, by rewriting its expressions and dropping some of its columns. -/
structure Redirected (p p' : Projection) : Prop where
  selects : ∀ around' q', p'.Within around' q' → ∃ around q q₁, p.Within around q ∧
    p.Rewrites q q₁ ∧ q₁.Drops q' ∧
      List.Forall₂ (fun e e₁ => List.Forall₂
        (p.Redirects p' (q.frame :: around) (q'.frame :: around')) e.localRefs e₁.localRefs)
        q.exprs q₁.exprs
  projector : List.Forall₂ (fun e e' => List.Forall₂ (p.Redirects p' p.top p'.top)
    e.localRefs e'.localRefs) p.projector.exprs p'.projector.exprs

/-- **Merging the columns of a valid query** whose joins are local. -/
theorem Checks.mergeColumns (checks : p.Checks) (joins : p.JoinsLocally)
    (merged : p.mergeColumns.result = .ok p') : p'.Checks ∧ p.Redirected p' := by
  have labels := checks.labels
  obtain ⟨renames, run⟩ := Traced.run'_eq_ok_iff.1 merged
  have top := pairs_top labels run joins
  have projector := localRefs_projector labels run
  refine ⟨⟨nodup_labels_of_thins Transform.merging_thins labels run, ?_, ?_⟩, ?_, ?_⟩
  · refine Select.check_eq_ok_iff_within.2 fun around' q' within' => ?_
    obtain ⟨a, b, passes⟩ := exists_passes_select labels run joins
    obtain ⟨around, q, _, _, _, within, passes⟩ := Passes.within within' passes
    exact passes.resolves (Select.check_eq_ok_iff_within.1 checks.select around q within)
  · intro e' he' r' hr'
    obtain ⟨e, he, refs⟩ := exists_of_forall₂_of_mem projector he'
    obtain ⟨r, hr, renamed⟩ := exists_of_forall₂_of_mem refs hr'
    have found := checks.projector e he r hr
    rw [renamed (Scope.declares_of_error? found)]
    exact top.error?_eq_none found
  · intro around' q' within'
    obtain ⟨around, q, _, _, _, within, passes⟩ := exists_passes labels run joins within'
    obtain ⟨q₁, rewrites, drops, refs⟩ := passes.redirects labels
    exact ⟨around, q, q₁, within, rewrites, drops, refs⟩
  · exact projector.imp fun _ _ refs => refs.imp fun _ _ renamed => top.redirects labels renamed

end Projection

/-- **Merging keeps what references refer to.** A valid statement in which every condition of a join
refers to the two sides of the join, to what is around, or to its own subqueries is valid after its
columns are merged. What is left of a reference to a column of a select is a reference to a column
of the same select, and the expression of that column equals what the expression of the first one
was rewritten into. -/
theorem Statement.mergeColumns_redirects {s : Statement} (valid : s.check = .ok ())
    (joins : ∀ p ∈ s.queries, p.JoinsLocally) :
    ∃ t, s.mergeColumns.result = .ok t ∧ t.check = .ok () ∧
      List.Forall₂ Projection.Redirected s.queries t.queries := by
  obtain ⟨t, merged, queries⟩ := s.exists_mergeColumns
  have checks := Statement.check_eq_ok_iff.1 valid
  have each : List.Forall₂ (fun p p' => p'.Checks ∧ p.Redirected p') s.queries t.queries :=
    forall₂_imp_of_mem queries fun p hp p' _ result =>
      (checks p hp).mergeColumns (joins p hp) result
  refine ⟨t, merged, Statement.check_eq_ok_iff.2 fun p' hp' => ?_, each.imp fun _ _ h => h.2⟩
  obtain ⟨p, -, valid', -⟩ := exists_of_forall₂_of_mem each hp'
  exact valid'

/-- The amounts of lines, under two names. -/
def lineAmounts : Select :=
  ⟨"t", [⟨"amount", .column "l" "amount", .int⟩, ⟨"price", .column "l" "amount", .int⟩],
    some (.table "lines" "l"), none, [], [], [], false, none, none, false⟩

/-- The refunds of the price of a line, which is read from the condition of a join. -/
def refundsOfPrice : Select :=
  ⟨"u", [⟨"id", .column "r" "id", .int⟩], some (.table "refunds" "r"),
    some (.binary .eq (.column "r" "price") (.column "t" "price")), [], [], [], false, none, none,
    false⟩

/-- The orders of refunded lines, by a name that is merged into the other one. -/
def refundedLines : Projection :=
  ⟨⟨"q", [⟨"price", .column "t" "price", .int⟩],
    some (.join .inner (.subquery lineAmounts) (.table "orders" "o") (some (.binary .and
      (.binary .eq (.column "t" "price") (.column "o" "price")) (.existsQuery refundsOfPrice)))),
    none, [], [], [], false, none, none, false⟩, .scalar (.column "q" "price")⟩

theorem Statement.mergeColumns_redirects_refundedLines :
    (Statement.query refundedLines).check = .ok () ∧ refundedLines.JoinsLocally ∧
      refundedLines.Denotes [refundedLines.select.frame] ("t", "price") lineAmounts
        ⟨"price", .column "l" "amount", .int⟩ ∧
      ∃ t, (Statement.query refundedLines).mergeColumns.result = .ok t ∧ t.check = .ok () ∧
        List.Forall₂ Projection.Redirected [refundedLines] t.queries := by
  have check : (Statement.query refundedLines).check = .ok () := by cbv
  have below : refundedLines.select.children = [lineAmounts, refundsOfPrice] := by cbv
  have child : ∀ {c q : Select} {scope around : Scope}, c ∈ refundedLines.select.children →
      c.Within scope around q → q.JoinsLocally around := by
    intro c q scope around hc inside source hs j hj
    rw [below] at hc
    simp only [List.mem_cons, List.not_mem_nil, or_false] at hc
    -- there is nothing below either of them, and nothing is joined in it
    rcases hc with rfl | rfl
    all_goals
      obtain rfl := inside.eq_of_children (by cbv)
      obtain rfl := Option.mem_some.1 hs
      cases hj
  have joins : refundedLines.JoinsLocally := by
    rintro around q (inside | ⟨e, he, c, hc, -⟩)
    · cases inside with
      | self =>
        intro source hs j hj r hr
        obtain rfl := Option.mem_some.1 hs
        obtain rfl := List.mem_singleton.1 hj
        have read : ∀ r ∈ [("t", "price"), ("o", "price"), ("r", "id"), ("r", "price"),
            ("t", "price")], r.1 ∈ ["o", "t"] ∨ r.1 ∈ ["u", "r"] := by decide
        exact (read r hr).imp id .inr
      | source hc inside => exact child (Select.mem_children_iff.2 (.inl hc)) inside
      | subquery he hc inside => exact child (Select.mem_children_iff.2 (.inr ⟨_, he, hc⟩)) inside
    · obtain rfl := List.mem_singleton.1 he
      cases hc
  refine ⟨check, joins, ?_, Statement.mergeColumns_redirects check (fun p hp => ?_)⟩
  · refine ⟨Projection.mem_nodes_iff_holds.2 ⟨_, List.mem_cons_self, .child ?_ (.self _)⟩, rfl, rfl,
      by decide, List.mem_cons_of_mem _ List.mem_cons_self, rfl⟩
    rw [below]
    exact List.mem_cons_self
  · obtain rfl := List.mem_singleton.1 hp
    exact joins

/-- Orders and items, joined on amounts of lines that are joined only later. -/
def earlyLines (amounts : Select) : Statement :=
  .query ⟨⟨"q", [⟨"id", .column "o" "id", .int⟩],
    some (.join .inner
      (.join .inner (.table "orders" "o") (.table "items" "i")
        (some (.binary .eq (.column "o" "price") (.column "t" "price"))))
      (.subquery amounts) none),
    none, [], [], [], false, none, none, false⟩, .scalar (.column "q" "id")⟩

/-- **A join that is not local may be broken.** The pass comes to the condition before it merges the
columns, and the condition keeps the name of the one that is dropped. -/
theorem Statement.mergeColumns_breaks_earlyLines :
    (earlyLines lineAmounts).check = .ok () ∧
      ∃ t, (earlyLines lineAmounts).mergeColumns.result = .ok t ∧
        t.check = .error (.selectReference "q" (.noColumn "t" "price")) :=
  ⟨by cbv, earlyLines { lineAmounts with columns := lineAmounts.columns.take 1 }, by cbv, by cbv⟩

end HiveQuery
