import HiveQuery.Proofs.SafePruning
import HiveQuery.Proofs.PruneRounds
/-!
# Removing one column

A single column is removed like columns that are pruned, by a round that keeps all others. Whether
there was such a column is not looked up: the query is compared with what the round has made of it.
They are equal exactly if the select of that label has no such column, or no other
(`Projection.beq_removal_iff`). Otherwise the round has taken the column out of its select and left
the rest of the query as it was.
-/

namespace HiveQuery

open Outcome

/-- All columns are to be kept but one. -/
def keepOthers (label name owner : String) (column : Column) : Bool :=
  owner != label || column.name != name

/-- All columns are kept but the one of the name, and all selects but the one of the label keep
theirs. -/
theorem keepOthers_eq_true_iff {label name owner : String} {c : Column} :
    keepOthers label name owner c = true ↔ (owner = label → c.name ≠ name) := by
  rw [keepOthers, Bool.or_eq_true, bne_iff_ne, bne_iff_ne, ← imp_iff_not_or]

theorem keepOthers_named {label name : String} (owner : String) (c c' : Column)
    (h : c'.name = c.name) : keepOthers label name owner c' = keepOthers label name owner c := by
  rw [keepOthers, keepOthers, h]

/-! ## A select without a column -/

namespace Select

variable {label name : String} {s s' : Select}

/-- The select without its column of this name, if it has this label. -/
def without (label name : String) (s : Select) : Select :=
  if s.label = label then { s with columns := s.columns.eraseP (·.name == name) } else s

/-- Removing a column from a select drops that one or none. -/
theorem drops_without (label name : String) (s : Select) : s.Drops (s.without label name) := by
  rw [without]
  split
  · exact ⟨rfl, List.eraseP_sublist⟩
  · exact (Trimmed.refl .source s).toDrops

/-- It shows all other columns. -/
theorem shows_without {used : String × String → Prop} (unused : ¬ used (label, name)) (s : Select) :
    s.Shows used (s.without label name) := by
  refine ⟨(s.drops_without label name).label, fun other hother hused => ?_⟩
  rw [without]
  split
  · next own =>
    obtain ⟨c, hc, rfl⟩ := List.mem_map.1 hother
    have differs : c.name ≠ name := by
      rintro rfl
      exact unused (own ▸ hused)
    refine List.mem_map_of_mem ((List.mem_eraseP_of_neg ?_).2 hc)
    simpa using differs
  · exact hother

/-- Where names differ, dropping all columns of a name is dropping the first one. -/
theorem filter_eq_eraseP {cs : List Column} (names : (cs.map (·.name)).Nodup) :
    cs.filter (·.name != name) = cs.eraseP (·.name == name) := by
  induction cs with
  | nil => rfl
  | cons c cs ih =>
    rw [List.map_cons, List.nodup_cons] at names
    by_cases own : c.name = name
    · have rest : cs.filter (·.name != name) = cs := by
        refine List.filter_eq_self.2 fun c' hc' => bne_iff_ne.2 fun same => names.1 ?_
        rw [own, ← same]
        exact List.mem_map_of_mem hc'
      rw [List.filter_cons_of_neg (by simpa using own),
        List.eraseP_cons_of_pos (by simpa using own), rest]
    · rw [List.filter_cons_of_pos (by simpa using own),
        List.eraseP_cons_of_neg (by simpa using own), ih names.2]

/-- Keeping the other columns takes the column out, unless it is the only one. -/
theorem eq_without_of_keepColumns (names : s.label = label → s.columnNames.Nodup)
    (several : s.label = label → s.columns.length ≠ 1)
    (h : (s.keepColumns (keepOthers label name)).result = .ok s') : s' = s.without label name := by
  by_cases own : s.label = label
  · have kept : s.columns.filter (keepOthers label name s.label) =
        s.columns.eraseP (·.name == name) := by
      rw [← filter_eq_eraseP (names own)]
      refine List.filter_congr fun c _ => ?_
      rw [keepOthers, own, bne_self_eq_false, Bool.false_or]
    have length := List.length_eraseP (p := (·.name == name)) (l := s.columns)
    rw [without, if_pos own, ← kept]
    simp only [keepColumns] at h
    split at h
    · next same =>
      rw [List.filter_eq_self.2 (List.length_filter_eq_length_iff.1 same)]
      cases s
      exact (Except.ok.inj h).symm
    · next fewer =>
      -- at most one column goes, and it was not the only one
      have some : ¬ (s.columns.filter (keepOthers label name s.label)).isEmpty = true := by
        intro none
        rw [← kept, List.isEmpty_iff.1 none, List.length_nil] at length
        rw [List.isEmpty_iff.1 none, List.length_nil] at fewer
        have others := several own
        split at length <;> omega
      rw [if_neg some] at h
      exact (Except.ok.inj h).symm
  · have all : ∀ c ∈ s.columns, keepOthers label name s.label c :=
      fun c _ => keepOthers_eq_true_iff.2 fun same => absurd same own
    rw [result_keepColumns_of_all all] at h
    rw [without, if_neg own, Except.ok.inj h]

/-- A select keeps all its columns if it has only one, or not the one to be removed. -/
theorem keepsAll_keepOthers_iff :
    s.KeepsAll (keepOthers label name) ↔
      s.columns.length = 1 ∨ (s.label = label → name ∉ s.columnNames) := by
  refine or_congr_right ⟨fun all own hname => ?_, fun absent c hc => ?_⟩
  · obtain ⟨c, hc, rfl⟩ := List.mem_map.1 hname
    exact keepOthers_eq_true_iff.1 (all c hc) own rfl
  · refine keepOthers_eq_true_iff.2 fun own same => absent own ?_
    exact same ▸ List.mem_map_of_mem hc

/-- Comparing tells whether a round has removed a column, if no literal is a NaN. -/
theorem beq_round_iff {keep : String → Column → Bool} {depth : Nat}
    (named : ∀ label (c c' : Column), c'.name = c.name → keep label c' = keep label c)
    (free : s.NaNFree) (h : outcome (s.transform (.keepColumns keep) depth) () = .ok (s', ())) :
    (s' == s) = true ↔ s.Everywhere (KeepsAll keep) := by
  constructor
  · -- equal trees have as many columns, although they need not be the same
    intro same
    exact (columnCount_round named h).2 (columnCount_of_beq same).symm
  · intro keeps
    rw [eq_of_keepsAll keeps h]
    exact free.beq_self

end Select

namespace Projection

variable {p pruned : Projection} {label name : String}

/-- The three reasons to refuse, in the order in which they are looked for. -/
theorem result_removeColumn
    (h : (p.keepColumns (keepOthers label name)).result = .ok pruned) :
    (p.removeColumn label name).result =
      if p.columnUsage.isPinned label then .error (.columnsFixed label name)
      else if p.columnUsage.isUsed label name then .error (.columnReferenced label name)
      else if pruned.select == p.select then .error (.noSuchColumn label name)
      else .ok pruned := by
  have h : (p.keepColumns fun owner column => owner != label || column.name != name).result =
    .ok pruned := h
  unfold removeColumn
  by_cases pinned : p.columnUsage.isPinned label = true
  · simp only [if_pos pinned]
    rfl
  · by_cases used : p.columnUsage.isUsed label name = true
    · simp only [if_neg pinned, if_pos used]
      rfl
    · simp only [if_neg pinned, if_neg used, Traced.result_bind_of_ok h]
      by_cases same : (pruned.select == p.select) = true
      · simp only [if_pos same]
        rfl
      · simp only [if_neg same]
        rfl

/-- The select is one of those in the select of the query, and has such a column. -/
structure Declares (p : Projection) (label name : String) (q : Select) : Prop where
  held : .select q ∈ p.select.nodes
  label : q.label = label
  column : name ∈ q.columnNames

/-- Where no label is declared twice, one select has it. -/
theorem Declares.unique (labels : p.labels.Nodup) {q q' : Select} (h : p.Declares label name q)
    (h' : .select q' ∈ p.nodes) (same : q'.label = label) : q' = q :=
  eq_of_label labels (List.mem_append_left _ h.held) h' (same.trans h.label.symm)

theorem Declares.nodup (checks : p.Checks) {q : Select} (h : p.Declares label name q) :
    q.columnNames.Nodup :=
  Select.nodup_columnNames_of_check checks.select (Select.mem_nodes_iff_holds.1 h.held)

/-- **What the comparison with the pruned query finds out**: that there is no such column, or no
other besides it. -/
theorem beq_removal_iff (labels : p.labels.Nodup) (free : p.select.NaNFree)
    (h : (p.keepColumns (keepOthers label name)).result = .ok pruned) :
    (pruned.select == p.select) = true ↔
      (¬ ∃ q, p.Declares label name q) ∨ ∃ q, p.Declares label name q ∧ q.columns.length = 1 := by
  rw [Select.beq_round_iff keepOthers_named free (of_round h).1]
  constructor
  · intro keeps
    by_cases declared : ∃ q, p.Declares label name q
    · obtain ⟨q, hq⟩ := declared
      have own := Select.keepsAll_keepOthers_iff.1 (keeps q (Select.mem_nodes_iff_holds.1 hq.held))
      exact .inr ⟨q, hq, own.resolve_right fun absent => absent hq.label hq.column⟩
    · exact .inl declared
  · intro h q hq
    have hq := Select.mem_nodes_iff_holds.2 hq
    rw [Select.keepsAll_keepOthers_iff]
    rcases h with undeclared | ⟨q₀, declared, one⟩
    · exact .inr fun same column => undeclared ⟨q, hq, same, column⟩
    · by_cases same : q.label = label
      · obtain rfl := declared.unique labels (List.mem_append_left _ hq) same
        exact .inl one
      · exact .inr fun own => absurd own same

/-- **The round takes one column away**, if its select has others. -/
theorem rebuilt_of_removal (checks : p.Checks) {q : Select} (declared : p.Declares label name q)
    (several : q.columns.length ≠ 1)
    (h : (p.keepColumns (keepOthers label name)).result = .ok pruned) :
    p.Rebuilt (fun _ s s' => s' = s.without label name) pruned := by
  have run : outcome (p.transform (.keepColumns (keepOthers label name))) () = .ok (pruned, ()) :=
    Traced.outcome_eq_ok_iff.2 h
  refine rebuilt_of_transform (fun _ => rfl) ?_ run
  intro place v v₁ depth st v' st' hv parts hact
  -- no other select has the label, so that the rest of the query is left alone
  have only : v₁.label = label → v = q := fun own =>
    declared.unique checks.labels hv.mem_nodes (parts.label.symm.trans own)
  refine Select.eq_without_of_keepColumns (fun own => ?_) (fun own => ?_)
    (Traced.outcome_eq_ok_iff.1 hact)
  · rw [parts.mirrors.columnNames, only own]
    exact declared.nodup checks
  · rw [← parts.columns.length_eq, only own]
    exact several

/-- A query stays valid that loses a column to which nothing refers. -/
theorem Checks.of_removal (checks : p.Checks) {q : Select} (declared : p.Declares label name q)
    (several : q.columns.length ≠ 1) (unused : (label, name) ∉ p.refs)
    (h : (p.keepColumns (keepOthers label name)).result = .ok pruned) : pruned.Checks := by
  refine checks.of_keepColumns h ((rebuilt_of_removal checks declared several h).imp ?_)
  rintro place s _ rfl
  exact ⟨s.drops_without label name, s.shows_without unused⟩

/-- **Removing a column is exact.** It fails for a valid query, no literal of which is a NaN, if the
label is pinned, if something refers to the column, if no select in the select of the query has that
label and that column, or if the select has no other. In all other cases the query loses this
column, which a single select has and has once, and nothing else, and stays valid. -/
theorem removeColumn_exact {p : Projection} (valid : p.check = .ok ()) (free : p.select.NaNFree)
    (label name : String) :
    ((∃ failure, (p.removeColumn label name).result = .error failure) ↔
      p.Pins label ∨ (label, name) ∈ p.refs ∨ (¬ ∃ q, p.Declares label name q) ∨
        ∃ q, p.Declares label name q ∧ q.columns.length = 1) ∧
    ∀ p', (p.removeColumn label name).result = .ok p' →
      p'.check = .ok () ∧ p.Rebuilt (fun _ s s' => s' = s.without label name) p' ∧
        ∃ q, p.Declares label name q ∧ q.columnNames.count name = 1 ∧
          ∀ q', .select q' ∈ p.nodes → q'.label = label → q' = q := by
  obtain ⟨pruned, round⟩ := p.exists_keepColumns (keepOthers label name)
  have checks := check_eq_ok_iff.1 valid
  have used : p.columnUsage.isUsed label name = true ↔ (label, name) ∈ p.refs :=
    List.contains_iff_mem
  rw [result_removeColumn round, ← isPinned_iff, ← used, ← beq_removal_iff checks.labels free round]
  -- the three guards, in the order in which they are tried
  by_cases fixed : p.columnUsage.isPinned label = true
  · simp [fixed]
  · by_cases referred : p.columnUsage.isUsed label name = true
    · simp [fixed, referred]
    · by_cases same : (pruned.select == p.select) = true
      · simp [fixed, referred, same]
      · rw [if_neg fixed, if_neg referred, if_neg same]
        refine ⟨by simp [fixed, referred, same], fun p' success => ?_⟩
        obtain rfl := Except.ok.inj success
        rw [beq_removal_iff checks.labels free round, not_or, not_not] at same
        obtain ⟨⟨q, declared⟩, others⟩ := same
        have several : q.columns.length ≠ 1 := fun one => others ⟨q, declared, one⟩
        have pruned_checks := checks.of_removal declared several (mt used.2 referred) round
        exact ⟨check_eq_ok_iff.2 pruned_checks, rebuilt_of_removal checks declared several round, q,
          declared, List.count_eq_one_of_mem (declared.nodup checks) declared.column,
          fun q' hq' => declared.unique checks.labels hq'⟩

/-- The weight of the orders can be removed, but no column of the parcels. -/
theorem removeColumn_exact_shippedQuery :
    let p := shippedQuery [orderId, orderWeight]
    p.check = .ok () ∧ p.select.NaNFree ∧
      (p.removeColumn "t" "weight").result = .ok (shippedQuery [orderId]) ∧
      p.Rebuilt (fun _ s s' => s' = s.without "t" "weight") (shippedQuery [orderId]) ∧
      p.Pins "e" ∧ ∃ failure, (p.removeColumn "e" "two").result = .error failure := by
  intro p
  have valid : p.check = .ok () := by cbv
  have free : p.select.NaNFree := by
    unfold Select.NaNFree
    decide
  have round : (p.keepColumns (keepOthers "t" "weight")).result = .ok (shippedQuery [orderId]) := by
    cbv
  have removed : (p.removeColumn "t" "weight").result = .ok (shippedQuery [orderId]) := by
    have changed : ((shippedQuery [orderId]).select == p.select) = false := by cbv
    rw [result_removeColumn round, if_neg (by decide), if_neg (by decide), changed]
    rfl
  have pins : p.Pins "e" := isPinned_iff.1 (by decide)
  obtain ⟨-, rebuilt, -⟩ := (removeColumn_exact valid free "t" "weight").2 _ removed
  exact ⟨valid, free, removed, rebuilt, pins,
    (removeColumn_exact valid free "e" "two").1.2 (.inl pins)⟩

end Projection

end HiveQuery
