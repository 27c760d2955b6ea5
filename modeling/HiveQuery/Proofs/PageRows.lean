import HiveQuery.Proofs.EffectiveOrder
import HiveQuery.Proofs.PageBounds
/-!
# The rows of a page

The tree that paging puts in the place of a select yields the page: the rows of the select without
ordering and paging, stably sorted by its terms, the skipped ones dropped and the taken ones kept.
The proof goes up the levels of that tree. The select that is numbered yields every row with its
rank (`Select.Numbers.ranks`), and the select around it keeps the ranks of the page and sorts by
them.
-/

namespace HiveQuery

variable {V : Type} [Values V]

/-! ## The condition of a page -/

/-- The number of rows before a page. -/
def Select.skipped (s : Select) : Nat :=
  (s.skip.getD 0).toNat

/-- Skipping no rows is not skipping. -/
theorem Select.effectiveSkip_cases (s : Select) :
    (s.effectiveSkip = none ∧ s.skipped = 0) ∨
      ∃ n : UInt64, s.effectiveSkip = some n ∧ s.skipped = n.toNat := by
  unfold Select.effectiveSkip Select.skipped
  cases s.skip with
  | none => exact .inl ⟨rfl, rfl⟩
  | some n =>
    by_cases pos : 0 < n
    · exact .inr ⟨n, by simp [Option.filter, pos], rfl⟩
    · refine .inl ⟨by simp [Option.filter, pos], ?_⟩
      have zero : n = 0 := by
        rw [UInt64.lt_iff_toNat_lt] at pos
        exact UInt64.toNat_inj.1 (by simpa using pos)
      simp [zero]

/-- **The condition of a page holds of the ranks that lie on it.** -/
theorem holds_pagePredicate {x : Expr → V} {rowNumber filter : Expr} {s : Select} {rank : Nat}
    (h : pagePredicate rowNumber s.effectiveSkip s.take = .ok filter) (pos : 0 < rank)
    (hrank : x rowNumber = Values.number rank)
    (literal : ∀ n : Int64, x (.literal (.int n)) = Values.number n.toInt) :
    holds x filter =
      decide (s.skipped < rank ∧ ∀ n ∈ s.take.map UInt64.toNat, rank ≤ s.skipped + n) := by
  rw [Bool.eq_iff_iff, decide_eq_true_iff, holds_iff_onPage h hrank literal, OnPage]
  -- A page without a skip begins with the first rank, which is above nothing as well.
  rcases s.effectiveSkip_cases with ⟨skip, skipped⟩ | ⟨k, skip, skipped⟩
  · rw [skip, skipped]
    cases s.take <;> simp [pos]
  · rw [skip, skipped]
    cases s.take with
    | none => simp
    | some n =>
      simp only [Option.mem_some, forall_eq', Option.map_some, Option.getD_some]
      omega

/-! ## What single selects make of their rows -/

theorem rowLe_nil (x y : Expr → V) : rowLe [] x y = true :=
  rfl

/-- Ranks depend on how the items compare, not on what they are. -/
theorem ranks_map {α β : Type} {f : β → α} {le : α → α → Bool} {le' : β → β → Bool} {bs : List β}
    (h : ∀ a ∈ bs, ∀ b ∈ bs, le' a b = le (f a) (f b)) : ranks le (bs.map f) = ranks le' bs := by
  have places : ((bs.map f).zipIdx.mergeSort fun a b => le a.1 b.1).map Prod.snd =
      (bs.zipIdx.mergeSort fun a b => le' a.1 b.1).map Prod.snd := by
    rw [List.zipIdx_map, ← List.map_mergeSort (r := fun a b => le' a.1 b.1), List.map_map]
    · rfl
    · intro a ha b hb
      exact h a.1 (List.fst_mem_of_mem_zipIdx ha) b.1 (List.fst_mem_of_mem_zipIdx hb)
  unfold ranks
  rw [places, List.length_map]

namespace Select

/-- An unordered select keeps its rows as they are. -/
theorem output_of_unordered {s : Select} (h : s.ordering = []) (rows : List (Expr → V)) :
    s.output rows =
      (rows.zip (ranks (rowLe (s.window?.getD [])) rows)).map fun a => s.record a.1 a.2 := by
  rw [output, h, List.mergeSort_of_pairwise]
  exact List.pairwise_of_forall fun a b => rowLe_nil a.1 b.1

/-- A select that numbers nothing sorts its rows and projects them. -/
theorem output_of_no_window {s : Select} (h : s.window? = none) (rows : List (Expr → V)) :
    s.output rows =
      (rows.mergeSort (rowLe s.ordering)).map fun x =>
        s.columns.map fun c => (c.name, x c.expr) := by
  have ranked : ((rows.zip (ranks (rowLe (s.window?.getD [])) rows)).mergeSort
      fun a b => rowLe s.ordering a.1 b.1).map Prod.fst = rows.mergeSort (rowLe s.ordering) := by
    rw [List.map_mergeSort (s := rowLe s.ordering) fun _ _ _ _ => rfl,
      List.map_fst_zip (by rw [length_ranks])]
  rw [output, ← ranked, List.map_map]
  refine List.map_congr_left fun a _ => ?_
  rw [record, h]
  rfl

theorem window?_numbering {s : Select} (distinct : s.distinct = false) (grouping : s.grouping = [])
    (name : String) (order : List OrderTerm) : (s.numbering name order).window? = some order := by
  simp [window?, numbering, distinct, grouping]

/-- A numbered select yields its rows with their ranks behind their columns. -/
theorem output_numbering {s : Select} (distinct : s.distinct = false) (grouping : s.grouping = [])
    (ordering : s.ordering = []) (name : String) (order : List OrderTerm)
    (rows : List (Expr → V)) :
    (s.numbering name order).output rows =
      (rows.zip (ranks (rowLe order) rows)).map fun a =>
        (s.columns.map fun c => (c.name, a.1 c.expr)) ++ [(name, Values.number a.2)] := by
  have window := window?_numbering distinct grouping name order
  have unordered : (s.numbering name order).ordering = [] := ordering
  rw [output_of_unordered unordered, window]
  refine List.map_congr_left fun a _ => ?_
  rw [record, window]
  simp [numbering]

end Select

/-! ## Reading records by name -/

/-- A column of a record is found under its name, if names differ. -/
theorem lookup_map_of_mem {W : Type} {cs : List Column} (names : (cs.map (·.name)).Nodup)
    {c : Column} (hc : c ∈ cs) (f : Column → W) (rest : Record W) :
    ((cs.map fun c => (c.name, f c)) ++ rest).lookup c.name = some (f c) := by
  induction cs with
  | nil => simp at hc
  | cons d cs ih =>
    rw [List.map_cons, List.nodup_cons] at names
    rw [List.map_cons, List.cons_append, List.lookup_cons]
    rcases List.mem_cons.1 hc with rfl | there
    · simp
    · have ne : c.name ≠ d.name := fun heq => names.1 (heq ▸ List.mem_map_of_mem there)
      rw [beq_false_of_ne ne]
      exact ih names.2 there

/-- What follows the columns is found under a name that none of them has. -/
theorem lookup_append_of_not_mem {W : Type} {cs : List Column} {name : String}
    (h : name ∉ cs.map (·.name)) (f : Column → W) (rest : Record W) :
    ((cs.map fun c => (c.name, f c)) ++ rest).lookup name = rest.lookup name := by
  induction cs with
  | nil => rfl
  | cons d cs ih =>
    rw [List.map_cons, List.mem_cons, not_or] at h
    rw [List.map_cons, List.cons_append, List.lookup_cons, beq_false_of_ne h.1]
    exact ih h.2

/-- A reference reads what the record has under its name. -/
theorem Record.reading_ref {q : Select} {record : Record V} {name : String} {v : V}
    (h : record.lookup name = some v) : record.reading q.label (q.ref name) = v := by
  simp [Record.reading, Select.ref, h]

/-! ## The levels of a tree -/

namespace Select

variable {base : Select} {rows : List (Row V)}

theorem sizeOf_source_lt {q t : Select} (h : t.source = some (.subquery q)) :
    sizeOf q.source < sizeOf t.source := by
  have below : sizeOf q.source < sizeOf q := by
    cases q
    simp only [mk.sizeOf_spec]
    omega
  rw [h, Option.some.sizeOf_spec, Source.subquery.sizeOf_spec]
  omega

/-- A select that yields rows reads the source of the base, at some depth. -/
theorem Yields.sizeOf_le {q : Select} {records : List (Record V)} (h : Yields base rows q records) :
    sizeOf base.source ≤ sizeOf q.source := by
  induction h with
  | base source => rw [source]
  | reads source _ _ _ ih =>
    have lt := sizeOf_source_lt source
    omega

/-- What a select on the level of the base yields. -/
theorem yields_base_iff {q : Select} {records : List (Record V)}
    (source : q.source = base.source) (filter : q.filter = base.filter)
    (grouping : q.grouping = base.grouping) (distinct : q.distinct = base.distinct)
    (columns : q.distinct = true → q.columns = base.columns) (direct : q.Direct) :
    Yields base rows q records ↔ records = q.output (rows.map Row.value) := by
  constructor
  · intro h
    cases h with
    | base => rfl
    | reads above _ _ yields =>
      have le := yields.sizeOf_le
      have lt := sizeOf_source_lt above
      rw [source] at lt
      omega
  · rintro rfl
    exact .base source filter grouping distinct columns direct

/-- What a select above that level yields. -/
theorem yields_over_iff {q t : Select} {records : List (Record V)}
    (source : t.source = some (.subquery q)) (plain : t.collapses = false) (direct : t.Direct)
    (above : sizeOf base.source ≤ sizeOf q.source) :
    Yields base rows t records ↔ ∃ below, Yields base rows q below ∧
      records = t.output
        ((below.map (Record.reading q.label)).filter fun x => t.filter.all (holds x)) := by
  constructor
  · intro h
    cases h with
    | base same =>
      have lt := sizeOf_source_lt source
      rw [same] at lt
      omega
    | reads source' _ _ yields =>
      obtain rfl : q = _ := Source.subquery.inj (Option.some.inj (source.symm.trans source'))
      exact ⟨_, yields, rfl⟩
  · rintro ⟨below, yields, rfl⟩
    exact .reads source plain direct yields

/-! ## The select that is numbered -/

/-- The rows of the base with their ranks in a page of the select. -/
def ranked (s : Select) (rows : List (Row V)) : List (Row V × Nat) :=
  rows.zip (ranks (fun r r' => rowLe s.pageTerms r.value r'.value) rows)

/-- A numbered select yields ranked rows if it reads the rows of the base, whatever stands for a
row, and compares them as the page does. -/
theorem output_numbering_map {s numbered : Select} (distinct : numbered.distinct = false)
    (grouping : numbered.grouping = []) (ordering : numbered.ordering = []) (name : String)
    (order : List OrderTerm) (rows : List (Row V)) (read : Row V → Expr → V)
    (compares : ∀ r r', rowLe s.pageTerms r.value r'.value = rowLe order (read r) (read r')) :
    (numbered.numbering name order).output (rows.map read) =
      (s.ranked rows).map fun a =>
        (numbered.columns.map fun c => (c.name, read a.1 c.expr)) ++
          [(name, Values.number a.2)] := by
  rw [output_numbering distinct grouping ordering, ranks_map fun r _ r' _ => compares r r',
    List.zip_map_left, List.map_map]
  rfl

/-- **What the select that is numbered for a page yields**: every row of the base with its rank,
under columns among which are those of the paged select. -/
structure Ranks (s numbered : Select) (order : List OrderTerm) (cs : List Column) : Prop where
  columns : s.columns ⊆ cs
  names : (cs.map (·.name)).Nodup
  declared : numbered.columnNames = cs.map (·.name)
  depth : sizeOf s.source ≤ sizeOf numbered.source
  yields : ∀ {V : Type} [Values V] (name : String) (rows : List (Row V))
    (records : List (Record V)),
    Yields s rows (numbered.numbering name order) records ↔
      records = (s.ranked rows).map fun a =>
        (cs.map fun c => (c.name, a.1.value c.expr)) ++ [(name, Values.number a.2)]

/-- A select that is neither distinct nor grouped is numbered itself. -/
theorem ranks_plain {s : Select} (names : s.columnNames.Nodup) (distinct : s.distinct = false)
    (grouping : s.grouping = []) (label : String) :
    s.Ranks (s.unpaged label) s.pageTerms s.columns := by
  refine ⟨List.Subset.refl _, names, rfl, le_rfl, fun name rows records => ?_⟩
  have projected : ((s.unpaged label).numbering name s.pageTerms).distinct = true →
      ((s.unpaged label).numbering name s.pageTerms).columns = s.columns := fun h => by
    rw [show ((s.unpaged label).numbering name s.pageTerms).distinct = s.distinct from rfl,
      distinct] at h
    cases h
  have level : Yields s rows ((s.unpaged label).numbering name s.pageTerms) records ↔
      records = ((s.unpaged label).numbering name s.pageTerms).output (rows.map Row.value) :=
    yields_base_iff rfl rfl rfl rfl projected ⟨rfl, rfl⟩
  have plain : (s.unpaged label).distinct = false := distinct
  have ungrouped : (s.unpaged label).grouping = [] := grouping
  have unordered : (s.unpaged label).ordering = [] := rfl
  rw [level, output_numbering_map plain ungrouped unordered name s.pageTerms rows Row.value
    fun _ _ => rfl]
  rfl

/-- A distinct select is given no further columns. -/
theorem columns_exposedBase_of_distinct {s : Select} (label : String)
    (projected : ∀ t ∈ s.pageTerms, (s.columnFor? t.expr).isSome) :
    (s.exposedBase label).columns = s.columns := by
  have declared : ∀ t ∈ s.pageTerms, ((s.unpaged label).columnFor? t.expr).isSome := projected
  rw [exposedBase, exposing_of_declared declared]
  rfl

/-- The records of the base: its rows as they are. -/
theorem yields_exposedBase_iff {s : Select} (label : String)
    (collapsed : s.distinct = true ∨ s.grouping ≠ [])
    (projected : s.distinct = true → ∀ t ∈ s.pageTerms, (s.columnFor? t.expr).isSome)
    (rows : List (Row V)) (records : List (Record V)) :
    Yields s rows (s.exposedBase label) records ↔
      records = rows.map fun r => (s.exposedBase label).columns.map fun c =>
        (c.name, r.value c.expr) := by
  obtain ⟨cs, hcs, -⟩ := (s.unpaged label).exposing_adds s.pageTerms
  have base : s.exposedBase label = (s.unpaged label).adding cs := hcs
  have distinct : (s.exposedBase label).distinct = s.distinct := by rw [base]; rfl
  have grouping : (s.exposedBase label).grouping = s.grouping := by rw [base]; rfl
  have unordered : (s.exposedBase label).ordering = [] := by rw [base]; rfl
  have window : (s.exposedBase label).window? = none := by
    rw [window?, distinct, grouping, if_pos]
    rcases collapsed with h | h
    · rw [h, Bool.true_or]
    · simp [h]
  have level : Yields s rows (s.exposedBase label) records ↔
      records = (s.exposedBase label).output (rows.map Row.value) := by
    refine yields_base_iff ?_ ?_ grouping distinct (fun h => ?_) ?_
    · rw [base]; rfl
    · rw [base]; rfl
    · exact columns_exposedBase_of_distinct label (projected (distinct ▸ h))
    · rw [base]; exact ⟨rfl, rfl⟩
  have sorted : (rows.map Row.value).mergeSort (rowLe (s.exposedBase label).ordering) =
      rows.map Row.value := by
    rw [unordered]
    exact List.mergeSort_of_pairwise (List.pairwise_of_forall rowLe_nil)
  rw [level, output_of_no_window window, sorted, List.map_map]
  rfl

/-- A row of the base as a select that reads its record by name sees it. -/
def readBack (s : Select) (label : String) (r : Row V) : Expr → V :=
  Record.reading label ((s.exposedBase label).columns.map fun c => (c.name, r.value c.expr))

theorem readBack_column {s : Select} (names : s.columnNames.Nodup) (label : String) (r : Row V)
    {c : Column} (hc : c ∈ (s.exposedBase label).columns) :
    s.readBack label r (.column label c.name) = r.value c.expr := by
  have base : (s.unpaged label).columnNames.Nodup := names
  obtain ⟨nodup, -⟩ := exposing_names base s.pageTerms
  have found := lookup_map_of_mem nodup hc (fun c => r.value c.expr) []
  rw [List.append_nil] at found
  rw [readBack, Record.reading, if_pos rfl]
  exact congrArg (Option.getD · Values.null) found

/-- The terms of a page compare the records of the base, read by name, as they compare its rows. -/
theorem rowLe_readBack {s : Select} (names : s.columnNames.Nodup) (label : String) (r r' : Row V) :
    rowLe s.pageTerms r.value r'.value =
      rowLe ((s.unpaged label).exposing s.pageTerms).2 (s.readBack label r)
        (s.readBack label r') := by
  have base : (s.unpaged label).columnNames.Nodup := names
  obtain ⟨-, refs⟩ := exposing_names base s.pageTerms
  unfold rowLe
  congr 1
  symm
  refine OrderTerm.compareAll_congr_rows (refs.imp fun t u h => ?_)
  obtain ⟨direction, c, hc, href, hexpr⟩ := h
  have value : ∀ r : Row V, r.value c.expr = r.value t.expr := by
    intro r
    rcases hexpr with equal | same
    · exact r.congr equal
    · rw [same]
  have ref : u.expr = .column label c.name := href
  rw [ref, readBack_column names label r hc, readBack_column names label r' hc, value, value]
  exact ⟨direction, rfl, rfl⟩

/-- The level around a select does not collapse its rows. -/
theorem collapses_wrapped (s : Select) (label : String) (name : String) (order : List OrderTerm) :
    ((s.wrapped label).numbering name order).collapses = false := by
  simp [collapses, hasAggregates, numbering, wrapped, forwardedColumns, ref, Expr.aggregates]

/-- Any other is numbered on a level around it, in the same order. -/
theorem ranks_wrapped {s : Select} (names : s.columnNames.Nodup)
    (collapsed : s.distinct = true ∨ s.grouping ≠ [])
    (projected : s.distinct = true → ∀ t ∈ s.pageTerms, (s.columnFor? t.expr).isSome)
    (label label' : String) :
    s.Ranks ((s.exposedBase label).wrapped label') ((s.unpaged label).exposing s.pageTerms).2
      (s.exposedBase label).columns := by
  have base : (s.unpaged label).columnNames.Nodup := names
  obtain ⟨nodup, -⟩ := exposing_names base s.pageTerms
  obtain ⟨cs, hcs, -⟩ := (s.unpaged label).exposing_adds s.pageTerms
  have source : (s.exposedBase label).source = s.source := by rw [exposedBase, hcs]; rfl
  have baseLabel : (s.exposedBase label).label = label := by rw [exposedBase, hcs]; rfl
  have depth : sizeOf s.source ≤ sizeOf (s.exposedBase label).source := by rw [source]
  have wrapperSource : ((s.exposedBase label).wrapped label').source =
      some (.subquery (s.exposedBase label)) := rfl
  refine ⟨?_, nodup, ?_, ?_, ?_⟩
  · rw [exposedBase, hcs]
    exact List.subset_append_left _ _
  · simp [columnNames, wrapped, forwardedColumns]
  · have lt := sizeOf_source_lt wrapperSource
    omega
  · intro V _ name rows records
    have level : Yields s rows (((s.exposedBase label).wrapped label').numbering name
        ((s.unpaged label).exposing s.pageTerms).2) records ↔ _ :=
      yields_over_iff wrapperSource (collapses_wrapped _ _ _ _) ⟨rfl, rfl⟩ depth
    -- The level has no filter, so it reads every record of the base.
    have kept : ∀ xs : List (Expr → V), (xs.filter fun x =>
        (((s.exposedBase label).wrapped label').numbering name
          ((s.unpaged label).exposing s.pageTerms).2).filter.all (holds x)) = xs := fun xs =>
      List.filter_eq_self.2 fun _ _ => rfl
    have read : ((rows.map fun r => (s.exposedBase label).columns.map fun c =>
        (c.name, r.value c.expr)).map (Record.reading (s.exposedBase label).label)) =
        rows.map (s.readBack label) := by
      rw [List.map_map, baseLabel]
      rfl
    have plain : ((s.exposedBase label).wrapped label').distinct = false := rfl
    have ungrouped : ((s.exposedBase label).wrapped label').grouping = [] := rfl
    have unordered : ((s.exposedBase label).wrapped label').ordering = [] := rfl
    have output := output_numbering_map plain ungrouped unordered name _ rows (s.readBack label)
      (rowLe_readBack names label)
    rw [level]
    simp only [yields_exposedBase_iff label collapsed projected, exists_eq_left, kept, read, output]
    have forwarded : ∀ a : Row V × Nat,
        (((s.exposedBase label).wrapped label').columns.map fun c =>
          (c.name, s.readBack label a.1 c.expr)) =
        (s.exposedBase label).columns.map fun c => (c.name, a.1.value c.expr) := by
      intro a
      rw [wrapped, forwardedColumns, List.map_map]
      refine List.map_congr_left fun c hc => ?_
      show (c.name, s.readBack label a.1 (.column (s.exposedBase label).label c.name)) = _
      rw [baseLabel, readBack_column names label a.1 hc]
    simp only [forwarded]

/-- **The select that is numbered for a page yields the ranked rows.** -/
theorem Numbers.ranks {s numbered : Select} {order : List OrderTerm} {supply supply' : LabelSupply}
    (h : s.Numbers supply numbered order supply') (names : s.columnNames.Nodup) :
    ∃ cs, s.Ranks numbered order cs := by
  cases h with
  | plain distinct grouping => exact ⟨_, ranks_plain names distinct grouping _⟩
  | wrapped collapsed projected => exact ⟨_, ranks_wrapped names collapsed projected _ _⟩

/-! ## The page -/

/-- The order that is asked for: the given terms, or if there are none, the declared columns in
their order, those that are whole subqueries left out. -/
def requestedOrder (s : Select) : List OrderTerm :=
  match s.ordering with
  | [] => s.columns.filterMap fun c =>
    match c.expr with
    | .scalarQuery _ | .existsQuery _ | .inQuery .. => none
    | e => some ⟨e, .ascending⟩
  | terms => terms

/-- **The page of the rows of a select**: stably sorted, the skipped ones dropped, the taken ones
kept. -/
def pageRows (s : Select) (rows : List (Row V)) : List (Row V) :=
  let sorted := rows.mergeSort fun r r' => rowLe s.requestedOrder r.value r'.value
  match s.take with
  | none => sorted.drop s.skipped
  | some n => (sorted.drop s.skipped).take n.toNat

/-- A page is ordered as was asked for. -/
theorem pageTerms_eq (s : Select) : s.pageTerms = s.requestedOrder := by
  have default : s.defaultOrder = s.columns.filterMap fun c =>
      match c.expr with
      | .scalarQuery _ | .existsQuery _ | .inQuery .. => none
      | e => some ⟨e, .ascending⟩ := by
    unfold defaultOrder
    induction s.columns with
    | nil => rfl
    | cons c cs ih =>
      rw [List.filterMap_cons, ← ih]
      cases h : c.expr <;> simp [h, Expr.query?, OrderTerm.ascending]
  unfold pageTerms requestedOrder
  cases s.ordering with
  | nil => exact default
  | cons t ts => rfl

/-- Ranks are counted from one. -/
theorem pos_of_mem_ranked {s : Select} {rows : List (Row V)} {a : Row V × Nat}
    (h : a ∈ s.ranked rows) : 0 < a.2 := by
  have rank := (List.of_mem_zip h).2
  rw [ranks] at rank
  obtain ⟨i, -, hi⟩ := List.mem_map.1 rank
  omega

/-- **The ranked rows that lie on a page, in the order of their ranks, are its rows.** -/
theorem map_fst_ranked_page (s : Select) (rows : List (Row V)) :
    (((s.ranked rows).filter fun a => decide (s.skipped < a.2 ∧
      ∀ n ∈ s.take.map UInt64.toNat, a.2 ≤ s.skipped + n)).mergeSort
        fun a b => decide (a.2 ≤ b.2)).map Prod.fst = s.pageRows rows := by
  have kept := ranked_eq (fun r r' : Row V => rowLe s.pageTerms r.value r'.value) rows fun rank =>
    decide (s.skipped < rank ∧ ∀ n ∈ s.take.map UInt64.toNat, rank ≤ s.skipped + n)
  rw [ranked, kept, zipIdx_filter_page, pageTerms_eq, pageRows]
  cases s.take <;> rfl

theorem window?_pageOf (s numbered : Select) (order : List OrderTerm) (name : String)
    (filter : Expr) : (s.pageOf numbered order name filter).window? = none := by
  simp only [window?, pageOf, pageOver, List.getLast?_map]
  cases s.columns.getLast? <;> rfl

theorem collapses_pageOf (s numbered : Select) (order : List OrderTerm) (name : String)
    (filter : Expr) : (s.pageOf numbered order name filter).collapses = false := by
  simp [collapses, hasAggregates, pageOf, pageOver, ref, Expr.aggregates]

/-- Rows with different numbers are ordered by them. -/
theorem rowLe_ascending {x y : Expr → V} {e : Expr} {m n : Nat} (hx : x e = Values.number m)
    (hy : y e = Values.number n) : rowLe [.ascending e] x y = decide (m ≤ n) := by
  have compared : OrderTerm.compareAll x y [.ascending e] =
      compare (Values.number m : V) (Values.number n) := by
    show (compare (x e) (y e)).then .eq = _
    rw [hx, hy, Ordering.then_eq]
  rw [rowLe, compared, Bool.eq_iff_iff, Ordering.isLE_iff_ne_gt, decide_eq_true_eq,
    compare_gt_iff_gt, not_lt, Values.strictMono_number.le_iff_le]
  omega

/-- **What a select that keeps a page yields**, given the ranked rows below it. -/
theorem yields_pageOf_iff {s numbered : Select} {order : List OrderTerm} {cs : List Column}
    {name : String} {filter : Expr} (h : s.Ranks numbered order cs)
    (fresh : name ∉ numbered.columnNames)
    (predicate : pagePredicate (numbered.ref name) s.effectiveSkip s.take = .ok filter)
    (rows : List (Row V)) (records : List (Record V)) :
    Yields s rows (s.pageOf numbered order name filter) records ↔
      records = (s.pageRows rows).map fun r => s.columns.map fun c => (c.name, r.value c.expr) := by
  rw [h.declared] at fresh
  -- A ranked row as the outer select sees it.
  let seen : Row V × Nat → Expr → V := fun a => Record.reading numbered.label
    ((cs.map fun c => (c.name, a.1.value c.expr)) ++ [(name, Values.number a.2)])
  have seenRank : ∀ a, seen a (numbered.ref name) = Values.number a.2 := fun a =>
    Record.reading_ref (by rw [lookup_append_of_not_mem fresh, List.lookup_cons_self])
  have seenColumn : ∀ a, ∀ c ∈ s.columns, seen a (numbered.ref c.name) = a.1.value c.expr :=
    fun a c hc => Record.reading_ref
      (lookup_map_of_mem h.names (h.columns hc) (fun c => a.1.value c.expr) _)
  have onPage : ∀ a ∈ s.ranked rows, holds (seen a) filter = decide (s.skipped < a.2 ∧
      ∀ n ∈ s.take.map UInt64.toNat, a.2 ≤ s.skipped + n) := fun a ha =>
    holds_pagePredicate predicate (pos_of_mem_ranked ha) (seenRank a) fun _ => rfl
  have level : Yields s rows (s.pageOf numbered order name filter) records ↔ _ :=
    yields_over_iff rfl (collapses_pageOf s numbered order name filter) ⟨rfl, rfl⟩ h.depth
  have filtered : (((s.ranked rows).map seen).filter fun x =>
        (s.pageOf numbered order name filter).filter.all (holds x)) =
      ((s.ranked rows).filter fun a => decide (s.skipped < a.2 ∧
        ∀ n ∈ s.take.map UInt64.toNat, a.2 ≤ s.skipped + n)).map seen := by
    rw [List.filter_map]
    refine congrArg (List.map seen) (List.filter_congr fun a ha => ?_)
    exact onPage a ha
  have sorted : ∀ as : List (Row V × Nat), (as.map seen).mergeSort
        (rowLe (s.pageOf numbered order name filter).ordering) =
      (as.mergeSort fun a b => decide (a.2 ≤ b.2)).map seen := fun as => by
    rw [List.map_mergeSort fun a _ b _ => ?_]
    exact (rowLe_ascending (seenRank a) (seenRank b)).symm
  have read : (((s.ranked rows).map fun a => (cs.map fun c => (c.name, a.1.value c.expr)) ++
      [(name, Values.number a.2)]).map (Record.reading (numbered.numbering name order).label)) =
      (s.ranked rows).map seen := List.map_map
  have projected : ∀ a : Row V × Nat, ((s.pageOf numbered order name filter).columns.map fun c =>
      (c.name, seen a c.expr)) = s.columns.map fun c => (c.name, a.1.value c.expr) := by
    intro a
    rw [pageOf, pageOver, List.map_map]
    exact List.map_congr_left fun c hc => congrArg (Prod.mk c.name) (seenColumn a c hc)
  rw [level]
  simp only [h.yields, exists_eq_left, read, filtered]
  rw [output_of_no_window (window?_pageOf s numbered order name filter), sorted, List.map_map,
    ← map_fst_ranked_page, List.map_map]
  exact Eq.congr_right (List.map_congr_left fun a _ => projected a)

/-- **A paged select yields the page.** Whatever rows the select has without ordering and paging,
the tree that paging puts in its place yields these rows, stably sorted by the requested order, the
skipped ones dropped and the taken ones kept, under the columns of the select; and it yields nothing
else. -/
theorem page_yields_iff {rowNumberColumn : String} {s t : Select} {supply supply' : LabelSupply}
    (names : s.columnNames.Nodup)
    (paged : ((s.page rowNumberColumn).run supply).result = .ok (t, supply'))
    (nontrivial : 0 < s.skipped ∨ s.take.isSome) {V : Type} [Values V] (rows : List (Row V))
    (records : List (Record V)) :
    Yields s rows t records ↔
      records = (s.pageRows rows).map fun r => s.columns.map fun c => (c.name, r.value c.expr) := by
  rcases of_page paged with ⟨noSkip, noTake, -, -⟩ |
    ⟨numbered, order, filter, numbers, predicate, rfl⟩
  · exfalso
    rcases nontrivial with skips | takes
    · rcases s.effectiveSkip_cases with ⟨-, zero⟩ | ⟨n, some, -⟩
      · omega
      · rw [noSkip] at some
        cases some
    · rw [noTake] at takes
      cases takes
  · obtain ⟨cs, ranks⟩ := numbers.ranks names
    exact yields_pageOf_iff ranks (Column.availableName_not_mem _ _) predicate rows records

/-- Customers with the regions of their orders, the second and the third in the order of the region,
which is not declared. -/
def customersByRegion : Select :=
  ⟨"q", [⟨"customer", .column "o" "customer", .int⟩], some (.table "orders" "o"), none,
    [⟨.column "o" "region", .descending⟩], [.column "o" "customer", .column "o" "region"], [],
    false, some 1, some 2, false⟩

/-- The rows are numbered under a name that the select declares itself. -/
theorem page_yields_iff_customersByRegion :
    ∃ t supply', ((customersByRegion.page "customer").run (.ofStatement
        (.query ⟨customersByRegion, .scalar (.column "q" "customer")⟩))).result = .ok (t, supply') ∧
      Yields customersByRegion
        ([(1, 7), (2, 9), (3, 8), (4, 7)].map fun (customer, region) =>
          Row.ofColumns (fun _ name => if name = "region" then region else customer) (0 : Int))
        t [[("customer", 3)], [("customer", 1)]] := by
  have paged : ∃ r, ((customersByRegion.page "customer").run (.ofStatement
      (.query ⟨customersByRegion, .scalar (.column "q" "customer")⟩))).result = .ok r := by
    exact ⟨_, by cbv⟩
  obtain ⟨⟨t, supply'⟩, ok⟩ := paged
  refine ⟨t, supply', ok, (page_yields_iff (by decide) ok (.inr rfl) _ _).2 ?_⟩
  cbv

end Select

end HiveQuery
