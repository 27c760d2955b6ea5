import HiveQuery.Columns.Merge
import HiveQuery.Columns.Prune
import HiveQuery.Proofs.Descent
import HiveQuery.Proofs.PagingSound
/-!
# Merging and pruning columns keep trees valid

Both passes leave a select some of its columns. Merging keeps one column for each expression and
renames the references to the others, pruning keeps every column that something refers to. In either
case what a reference is renamed to is still declared, so both keep to a plan (`merging_governs`,
`pruning_governs`) and neither of them can fail.
-/

namespace HiveQuery

open Outcome

/-- Keeping some columns is within a plan that draws no labels, if the used ones can be found. -/
theorem Plan.Acts.of_sublist {σ : Type} {plan : Plan σ} {st st' : σ} {s : Select} {cs : List Column}
    (names : s.columnNames.Nodup) (tidy : s.Everywhere Select.Tidy) (h : cs.Sublist s.columns)
    (nothing : plan.draws st [] st') (shows : ∀ name ∈ s.columnNames, plan.used (s.label, name) →
      (plan.rename st' (s.label, name)).2 ∈ cs.map (·.name)) :
    plan.Acts st s { s with columns := cs } st' := by
  have renews : s.Renews { s with columns := cs } :=
    Select.renews_of_columns (names.sublist (h.map _)) fun c hc => ⟨c, h.subset hc, rfl⟩
  refine ⟨rfl, renews.everywhere tidy, fun _ => renews.check, ⟨[], ?_, nothing⟩, shows⟩
  rw [List.append_nil, renews.labels_eq (Select.everywhere_iff.1 tidy).1 rfl]

/-! ## Merging -/

/-- **What merging does to columns**: each is kept or merged into one that is kept. -/
theorem Column.mergeEqual_spec (kept columns : List Column) :
    (Column.mergeEqual kept columns).1.Sublist (kept ++ columns) ∧
      kept ⊆ (Column.mergeEqual kept columns).1 ∧
      (∀ c ∈ columns, c ∈ (Column.mergeEqual kept columns).1 ∨
        c ∈ (Column.mergeEqual kept columns).2.map Prod.fst) ∧
      ∀ pair ∈ (Column.mergeEqual kept columns).2, pair.2 ∈ (Column.mergeEqual kept columns).1 := by
  induction columns generalizing kept with
  | nil => simp [Column.mergeEqual]
  | cons c columns ih =>
    rw [Column.mergeEqual]
    split
    · next survivor found =>
      obtain ⟨sublist, sub, each, into⟩ := ih kept
      refine ⟨sublist.trans ((List.sublist_cons_self c columns).append_left kept), sub, ?_, ?_⟩
      · intro d hd
        rcases List.mem_cons.1 hd with rfl | hd
        · exact .inr List.mem_cons_self
        · exact (each d hd).imp id (List.mem_cons_of_mem _)
      · exact List.forall_mem_cons.2 ⟨sub (List.mem_of_find?_eq_some found), into⟩
    · obtain ⟨sublist, sub, each, into⟩ := ih (kept ++ [c])
      rw [List.append_assoc, List.singleton_append] at sublist
      refine ⟨sublist, (List.append_subset.1 sub).1, ?_, into⟩
      intro d hd
      rcases List.mem_cons.1 hd with rfl | hd
      · exact .inl (sub (List.mem_append_right _ (List.mem_singleton_self _)))
      · exact each d hd

/-- A column is merged into one of an equal expression. -/
theorem Column.beq_of_mem_merged {kept columns : List Column} {pair : Column × Column}
    (h : pair ∈ (Column.mergeEqual kept columns).2) :
    pair.1 ∈ columns ∧ (pair.2.expr == pair.1.expr) = true := by
  induction columns generalizing kept with
  | nil => cases h
  | cons c columns ih =>
    rw [Column.mergeEqual] at h
    split at h
    · next survivor found =>
      have equal := List.find?_some found
      rcases List.mem_cons.1 h with rfl | h
      · exact ⟨List.mem_cons_self, equal⟩
      · exact (ih h).imp_left (List.mem_cons_of_mem _)
    · exact (ih h).imp_left (List.mem_cons_of_mem _)

namespace Renames

/-- The reference that stands for another one after the renames. -/
def ref (renames : Renames) (r : String × String) : String × String :=
  (r.1, (renames.lookup r).getD r.2)

theorem add_eq (renames : Renames) (label : String) (merged : List (Column × Column)) :
    renames.add label merged =
      (merged.map fun pair => ((label, pair.1.name), pair.2.name)).reverse ++ renames :=
  List.foldl_flip_cons_eq_append

theorem ref_add_of_ne {label : String} {r : String × String} (h : r.1 ≠ label) (renames : Renames)
    (merged : List (Column × Column)) : (renames.add label merged).ref r = renames.ref r := by
  have none : (merged.map fun pair => ((label, pair.1.name), pair.2.name)).reverse.lookup r =
      none := by
    refine List.lookup_eq_none_iff.2 fun entry hentry => ?_
    obtain ⟨pair, -, rfl⟩ := List.mem_map.1 (List.mem_reverse.1 hentry)
    exact bne_iff_ne.2 fun heq => h (congrArg Prod.fst heq)
  rw [ref, ref, add_eq, List.lookup_append, none, Option.none_or]

/-- Under the label of the merged columns, a name is that of a survivor or is renamed as before. -/
theorem ref_add (renames : Renames) (label name : String) (merged : List (Column × Column)) :
    (∃ pair ∈ merged, pair.1.name = name ∧
      ((renames.add label merged).ref (label, name)).2 = pair.2.name) ∨
      (renames.add label merged).ref (label, name) = renames.ref (label, name) ∧
        ∀ pair ∈ merged, pair.1.name ≠ name := by
  rw [ref, add_eq, List.lookup_append]
  cases found : (merged.map fun pair =>
      ((label, pair.1.name), pair.2.name)).reverse.lookup (label, name) with
  | some survivor =>
    obtain ⟨before, after, split, -⟩ := List.lookup_eq_some_iff.1 found
    have mem : ((label, name), survivor) ∈
        (merged.map fun pair => ((label, pair.1.name), pair.2.name)).reverse := by
      rw [split]
      exact List.mem_append_right _ List.mem_cons_self
    obtain ⟨pair, hpair, heq⟩ := List.mem_map.1 (List.mem_reverse.1 mem)
    refine .inl ⟨pair, hpair, congrArg (·.1.2) heq, ?_⟩
    rw [Option.some_or, Option.getD_some]
    exact (congrArg Prod.snd heq).symm
  | none =>
    refine .inr ⟨by rw [Option.none_or, ref], fun pair hpair heq => ?_⟩
    have ne := List.lookup_eq_none_iff.1 found ((label, pair.1.name), pair.2.name)
      (List.mem_reverse.2 (List.mem_map.2 ⟨pair, hpair, rfl⟩))
    rw [heq] at ne
    simp at ne

end Renames

/-- Merging renames references as its renames say, and draws no labels. -/
def Plan.merging : Plan Renames where
  rename := Renames.ref
  used _ := True
  draws _ drawn _ := drawn = []

theorem Select.of_mergeColumns {s s' : Select} {st st' : Renames}
    (h : outcome s.mergeColumns st = .ok (s', st')) :
    s' = { s with columns := (Column.mergeEqual [] s.columns).1 } ∧
      st' = st.add s.label (Column.mergeEqual [] s.columns).2 := by
  have value : outcome s.mergeColumns st = .ok
      ({ s with columns := (Column.mergeEqual [] s.columns).1 },
        st.add s.label (Column.mergeEqual [] s.columns).2) := rfl
  rw [value] at h
  obtain ⟨rfl, rfl⟩ := Prod.mk.inj (Except.ok.inj h)
  exact ⟨rfl, rfl⟩

/-- **What a column is merged into**: after the action on a select a column is found under the name
that it is renamed to, and if the names differ, it is the column itself or one of an equal
expression. -/
theorem Select.exists_survivor {depth : Nat} {s s' : Select} {st st' : Renames}
    (h : outcome (Transform.merging.select depth s) st = .ok (s', st'))
    (fresh : ∀ name, st.ref (s.label, name) = (s.label, name)) {d : Column} (hd : d ∈ s.columns) :
    ∃ c ∈ s'.columns, c.name = (st'.ref (s.label, d.name)).2 ∧
      (s.columnNames.Nodup → c = d ∨ (c.expr == d.expr) = true) := by
  simp only [Transform.merging] at h
  split at h
  · obtain ⟨rfl, rfl⟩ := outcome_pure_eq_ok_iff.1 h
    exact ⟨d, hd, by rw [fresh], fun _ => .inl rfl⟩
  · obtain ⟨rfl, rfl⟩ := Select.of_mergeColumns h
    obtain ⟨-, -, each, into⟩ := Column.mergeEqual_spec [] s.columns
    rcases Renames.ref_add st s.label d.name (Column.mergeEqual [] s.columns).2 with
      ⟨pair, hpair, name, renamed⟩ | ⟨renamed, notMerged⟩
    · obtain ⟨column, equal⟩ := Column.beq_of_mem_merged hpair
      refine ⟨pair.2, into pair hpair, renamed.symm, fun names => .inr ?_⟩
      rwa [← List.inj_on_of_nodup_map names column hd name]
    · have kept : d ∈ (Column.mergeEqual [] s.columns).1 := by
        refine (each d hd).resolve_right fun merged => ?_
        obtain ⟨pair, hpair, rfl⟩ := List.mem_map.1 merged
        exact notMerged pair hpair rfl
      exact ⟨d, kept, by rw [renamed, fresh], fun _ => .inl rfl⟩

/-- **Merging keeps to its plan.** -/
theorem merging_governs : Plan.merging.Governs Transform.merging where
  label _ _ := rfl
  draws_nil _ := rfl
  draws_append := by
    rintro _ _ _ _ _ rfl rfl
    rfl
  leaf e hl st e' st' h := by
    cases e with
    | column label name =>
      have value : outcome (Transform.merging.leaf (.column label name)) st =
          .ok (st.apply label name, st) := rfl
      rw [value] at h
      obtain ⟨rfl, rfl⟩ := Prod.mk.inj (Except.ok.inj h)
      exact ⟨rfl, rfl, rfl⟩
    | literal | generatedId =>
      obtain ⟨rfl, rfl⟩ := outcome_pure_eq_ok_iff.1 h
      exact ⟨rfl, rfl, rfl⟩
    | _ => cases hl
  outside {depth s st s' st'} h r hr := by
    simp only [Transform.merging] at h
    split at h
    · obtain ⟨-, rfl⟩ := outcome_pure_eq_ok_iff.1 h
      rfl
    · obtain ⟨-, rfl⟩ := Select.of_mergeColumns h
      exact Renames.ref_add_of_ne hr st _
  acts {depth s st s' st'} h names tidy fresh := by
    have shows : ∀ name ∈ s.columnNames, (st'.ref (s.label, name)).2 ∈ s'.columnNames := by
      intro name hname
      obtain ⟨d, hd, rfl⟩ := List.mem_map.1 hname
      obtain ⟨c, hc, renamed, -⟩ := Select.exists_survivor h fresh hd
      exact renamed ▸ List.mem_map_of_mem hc
    simp only [Transform.merging] at h
    split at h
    · obtain ⟨rfl, rfl⟩ := outcome_pure_eq_ok_iff.1 h
      exact .refl rfl tidy fresh
    · obtain ⟨rfl, rfl⟩ := Select.of_mergeColumns h
      exact .of_sublist names tidy (Column.mergeEqual_spec [] s.columns).1 rfl
        fun name hname _ => shows name hname

/-- Merging drops columns and renames references, and does nothing else. -/
theorem Transform.merging_thins : Transform.merging.Thins where
  leaves e hleaf st e' st' h := by
    obtain ⟨same, hleaf', href⟩ := merging_governs.leaf e hleaf st e' st' h
    refine ⟨same, hleaf', by rw [href, Option.isSome_map], ?_⟩
    cases e with
    | column label name =>
      obtain ⟨rfl, -⟩ := Prod.mk.inj (Except.ok.inj h)
      rfl
    | literal | generatedId =>
      obtain ⟨rfl, -⟩ := outcome_pure_eq_ok_iff.1 h
      rfl
    | _ => cases hleaf
  select depth s st s' st' h := by
    simp only [Transform.merging] at h
    split at h
    · obtain ⟨rfl, -⟩ := outcome_pure_eq_ok_iff.1 h
      exact ⟨s.columns, .refl _, by cases s; rfl⟩
    · obtain ⟨rfl, -⟩ := Select.of_mergeColumns h
      exact ⟨_, (Column.mergeEqual_spec [] s.columns).1, rfl⟩

/-- The select of a query is merged before its projector. -/
theorem Projection.of_mergeColumns {p p' : Projection} (h : p.mergeColumns.result = .ok p') :
    ∃ st st' : Renames, outcome (p.select.transform .merging 0) [] = .ok (p'.select, st) ∧
      outcome (p.projector.transform .merging) st = .ok (p'.projector, st') := by
  obtain ⟨st', run⟩ := Traced.run'_eq_ok_iff.1 h
  obtain ⟨st, hselect, hprojector⟩ := Projection.of_outcome_transform run
  exact ⟨st, st', hselect, hprojector⟩

/-- Merging cannot fail. -/
theorem Projection.exists_mergeColumns (p : Projection) : ∃ p', p.mergeColumns.result = .ok p' := by
  cases run : p.mergeColumns.result with
  | ok p' => exact ⟨p', rfl⟩
  | error failure =>
    refine absurd (Traced.run'_eq_error_iff.1 run) (Projection.transform_ne_error
      (fun e _ st f hleaf => ?_) (fun depth s st f hselect => ?_) _ _ _)
    · cases e <;> cases hleaf
    · simp only [Transform.merging] at hselect
      split at hselect <;> cases hselect

/-- **Merging the columns of a sound query** succeeds and leaves it sound. -/
theorem Projection.Sound.mergeColumns {p : Projection} (h : p.Sound) :
    ∃ p', p.mergeColumns.result = .ok p' ∧ p'.Sound := by
  obtain ⟨p', run⟩ := p.exists_mergeColumns
  obtain ⟨st', outcome⟩ := Traced.run'_eq_ok_iff.1 run
  have carried := merging_governs.carried_query h (fun _ _ _ _ _ _ => trivial)
    (fun _ _ _ _ => trivial) (fun _ _ => rfl) (fun drawn _ none => by
      rw [show drawn = [] from none, List.append_nil]
      exact h.nodup_labels) outcome
  exact ⟨p', run, carried.sound⟩

/-! ## Pruning -/

/-- Pruning renames nothing and draws no labels. -/
def Plan.pruning (used : String × String → Prop) : Plan Unit where
  rename _ r := r
  used := used
  draws _ drawn _ := drawn = []

/-- Some columns stay, among them all that are to be kept. -/
theorem Select.keepColumns_eq (keep : String → Column → Bool) (s : Select) :
    ∃ cs, (s.keepColumns keep).result = .ok { s with columns := cs } ∧ cs.Sublist s.columns ∧
      ∀ c ∈ s.columns, keep s.label c → c ∈ cs := by
  simp only [Select.keepColumns]
  split
  · exact ⟨s.columns, by cases s; rfl, .refl _, fun c hc _ => hc⟩
  · split
    · next empty =>
      refine ⟨s.columns.take 1, rfl, List.take_sublist 1 _, fun c hc hkeep => ?_⟩
      exact absurd (List.mem_filter.2 ⟨hc, hkeep⟩)
        (List.isEmpty_iff.1 empty ▸ List.not_mem_nil)
    · exact ⟨_, rfl, List.filter_sublist, fun c hc hkeep => List.mem_filter.2 ⟨hc, hkeep⟩⟩

/-- A select whose columns are all kept is left alone. -/
theorem Select.result_keepColumns_of_all {keep : String → Column → Bool} {s : Select}
    (all : ∀ c ∈ s.columns, keep s.label c) : (s.keepColumns keep).result = .ok s := by
  rw [keepColumns, if_pos (by rw [List.filter_eq_self.2 all])]
  rfl

/-- Pruning drops columns, and does nothing else. -/
theorem Transform.keepColumns_thins (keep : String → Column → Bool) :
    (Transform.keepColumns keep).Thins where
  leaves := Transform.keepsLeaves_of_pure fun _ => rfl
  select depth s st s' st' h := by
    obtain ⟨cs, kept, sublist, -⟩ := s.keepColumns_eq keep
    obtain rfl := Except.ok.inj (kept.symm.trans (Traced.outcome_eq_ok_iff.1 h))
    exact ⟨cs, sublist, rfl⟩

/-- **Pruning keeps to its plan** if it keeps what is used. -/
theorem pruning_governs {used : String × String → Prop} {keep : String → Column → Bool}
    (keeps : ∀ label c, used (label, c.name) → keep label c) :
    (Plan.pruning used).Governs (Transform.keepColumns keep) where
  label _ _ := rfl
  draws_nil _ := rfl
  draws_append := by
    rintro _ _ _ _ _ rfl rfl
    rfl
  leaf e hl st e' st' h := by
    obtain ⟨rfl, rfl⟩ := outcome_pure_eq_ok_iff.1 h
    exact ⟨rfl, hl, Option.map_id'.symm⟩
  outside _ _ _ := rfl
  acts {depth s st s' st'} h names tidy _ := by
    obtain ⟨cs, kept, sublist, all⟩ := s.keepColumns_eq keep
    have result := Traced.outcome_eq_ok_iff.1 h
    obtain rfl := Except.ok.inj (kept.symm.trans result)
    refine .of_sublist names tidy sublist rfl fun name hname hused => ?_
    obtain ⟨c, hc, rfl⟩ := List.mem_map.1 hname
    exact List.mem_map_of_mem (all c hc (keeps s.label c hused))

namespace Projection

/-- What the selects and the projector of a query refer to is among its references. -/
theorem everywhere_uses_refs (p : Projection) : p.select.Everywhere (Select.Uses (· ∈ p.refs)) := by
  intro q hq e he r hr
  have below : e.nodes ⊆ q.nodes := by
    rcases List.mem_append.1 he with he | he
    · exact Select.nodes_subset_of_mem_clauses he
    · exact Select.nodes_subset_of_mem_conditions he
  obtain ⟨n, hn, href⟩ := List.mem_filterMap.1 (e.localRefs_subset_refs hr)
  exact List.mem_filterMap.2 ⟨n, List.mem_append_left _ (hq.nodes_subset (below hn)), href⟩

theorem mem_refs_of_projector {p : Projection} {e : Expr} (he : e ∈ p.projector.exprs)
    {r : String × String} (hr : r ∈ e.localRefs) : r ∈ p.refs := by
  obtain ⟨n, hn, href⟩ := List.mem_filterMap.1 (e.localRefs_subset_refs hr)
  exact List.mem_filterMap.2 ⟨n, List.mem_append_right _ (List.mem_flatMap_of_mem he hn), href⟩

/-- The select and the projector of a query after a round of pruning. -/
theorem of_round {p p' : Projection} {keep : String → Column → Bool}
    (h : (p.keepColumns keep).result = .ok p') :
    outcome (p.select.transform (.keepColumns keep) 0) () = .ok (p'.select, ()) ∧
      outcome (p.projector.transform (.keepColumns keep)) () = .ok (p'.projector, ()) := by
  have run : outcome (p.transform (.keepColumns keep)) () = .ok (p', ()) :=
    Traced.outcome_eq_ok_iff.2 h
  obtain ⟨_, hselect, hprojector⟩ := Projection.of_outcome_transform run
  exact ⟨hselect, hprojector⟩

/-- No round fails. -/
theorem exists_keepColumns (p : Projection) (keep : String → Column → Bool) :
    ∃ p', (p.keepColumns keep).result = .ok p' := by
  cases run : (p.keepColumns keep).result with
  | ok p' => exact ⟨p', rfl⟩
  | error failure =>
    have fails : outcome (p.transform (.keepColumns keep)) () = .error failure :=
      Traced.outcome_eq_error_iff.2 run
    refine absurd fails (Projection.transform_ne_error
      (fun e _ st f hleaf => ?_) (fun depth s st f hselect => ?_) _ _ _)
    · exact outcome_pure_ne_error hleaf
    · obtain ⟨cs, kept, -⟩ := s.keepColumns_eq keep
      cases kept.symm.trans (Traced.outcome_eq_error_iff.1 hselect)

theorem keeps_of_mem_refs {p : Projection} {label : String} {c : Column}
    (h : (label, c.name) ∈ p.refs) : p.columnUsage.keeps label c := by
  rw [ColumnUsage.keeps, ColumnUsage.isUsed, Bool.or_eq_true]
  exact .inr (List.contains_iff_mem.2 h)

/-- A round of pruning leaves a sound query sound. -/
theorem Sound.of_round {p p' : Projection} (h : p.Sound)
    (run : (p.keepColumns p.columnUsage.keeps).result = .ok p') : p'.Sound := by
  have succeeds : outcome (p.transform (.keepColumns p.columnUsage.keeps)) () = .ok (p', ()) :=
    Traced.outcome_eq_ok_iff.2 run
  have carried := (pruning_governs fun _ _ => keeps_of_mem_refs).carried_query h
    p.everywhere_uses_refs (fun e he r hr => mem_refs_of_projector he hr) (fun _ _ => rfl)
    (fun drawn _ none => by
      rw [show drawn = [] from none, List.append_nil]
      exact h.nodup_labels) succeeds
  exact carried.sound

/-- A round is dropped if it left the select as it was, and repeated if it removed a column. -/
theorem result_pruneColumns {p next : Projection}
    (round : (p.keepColumns p.columnUsage.keeps).result = .ok next) :
    p.pruneColumns.result = (if next.select == p.select then pure p
      else if next.select.columnCount < p.select.columnCount then next.pruneColumns
      else pure next : Traced Projection).result := by
  rw [Projection.pruneColumns, Traced.result_bind, round]
  rfl

/-- **What a round keeps, pruning keeps.** -/
theorem pruneColumns_induction {P : Projection → Prop}
    (round : ∀ p p', P p → (p.keepColumns p.columnUsage.keeps).result = .ok p' → P p')
    {p p' : Projection} (start : P p) (h : p.pruneColumns.result = .ok p') : P p' := by
  induction hn : p.select.columnCount using Nat.strong_induction_on generalizing p with
  | _ n ih =>
    obtain ⟨next, first⟩ := p.exists_keepColumns p.columnUsage.keeps
    rw [result_pruneColumns first] at h
    split at h
    · obtain rfl := Except.ok.inj h
      exact start
    · split at h
      · next smaller =>
        exact ih next.select.columnCount (hn ▸ smaller) (round p next start first) h rfl
      · obtain rfl := Except.ok.inj h
        exact round p next start first

/-- **Pruning never fails.** -/
theorem exists_pruneColumns (p : Projection) : ∃ p', p.pruneColumns.result = .ok p' := by
  -- by induction on the columns of the query, of which every further round removes some
  induction hn : p.select.columnCount using Nat.strong_induction_on generalizing p with
  | _ n ih =>
    obtain ⟨next, round⟩ := p.exists_keepColumns p.columnUsage.keeps
    rw [result_pruneColumns round]
    split
    · exact ⟨p, rfl⟩
    · split
      · next smaller => exact ih next.select.columnCount (hn ▸ smaller) next rfl
      · exact ⟨next, rfl⟩

/-- **Pruning the columns of a sound query** leaves it sound. -/
theorem Sound.pruneColumns {p : Projection} (h : p.Sound) :
    ∃ p', p.pruneColumns.result = .ok p' ∧ p'.Sound := by
  obtain ⟨p', run⟩ := p.exists_pruneColumns
  exact ⟨p', run, pruneColumns_induction (fun _ _ => Sound.of_round) h run⟩

end Projection

end HiveQuery
