import HiveQuery.Proofs.PrunedAggregates
import HiveQuery.Proofs.Rebuilding
/-!
# Safe pruning

Pruning may drop a column only if nothing refers to it, and no column of a select whose columns are
read otherwise than by name. The labels that it takes for pinned are those of such selects
(`Projection.isPinned_iff`). A round of pruning trims the selects of a query (`Select.Trimmed`) and
keeps what the query refers to, so a valid query stays valid. Queries that are trimmed round after
round are trimmed (`Projection.Rebuilt.trans`), which is what `Statement.pruneColumns_safe` says of
the selects that are left.
-/

namespace HiveQuery

open Outcome

/-! ## Pinned labels -/

/-- All columns of a select have to stay that stands in such a place: the select is at the top or in
an expression, or its rows depend on all of its columns. -/
def Select.Fixed (place : SelectPlace) (s : Select) : Prop :=
  place ≠ .source ∨ s.distinct = true

namespace Projection

variable {p p' : Projection} {place : SelectPlace} {q q' : Select} {label : String}

/-- Some select with this label is fixed. -/
def Pins (p : Projection) (label : String) : Prop :=
  ∃ place q, p.Places place q ∧ q.label = label ∧ q.Fixed place

/-- The select of a subquery in an expression has its place there. -/
theorem places_of_query {e : Expr} (he : .expr e ∈ p.nodes) (hq : e.query? = some q) :
    p.Places .expression q := by
  have inner : ∀ x : Expr, e ∈ x.level → q ∈ x.subqueries :=
    fun x hx => List.mem_filterMap.2 ⟨e, hx, hq⟩
  rcases expr_mem_nodes_iff.1 he with ⟨s, hs, c, holds, hx⟩ | hx
  · obtain ⟨place, hc⟩ := exists_places (mem_nodes_iff_holds.2 ⟨s, hs, holds⟩)
    obtain ⟨x, hx, he⟩ := List.mem_flatMap.1 hx
    exact .clause hc hx (inner x he)
  · obtain ⟨x, hx, he⟩ := List.mem_flatMap.1 hx
    exact .projector hx (inner x he)

/-- **A label is pinned exactly if a select that has it is fixed.** -/
theorem isPinned_iff : p.columnUsage.isPinned label = true ↔ p.Pins label := by
  have unfolded : p.columnUsage.isPinned label = true ↔
      label ∈ p.select.label :: p.nodes.filterMap Node.pinned? := List.contains_iff_mem
  rw [unfolded, List.mem_cons]
  constructor
  · rintro (rfl | pinned)
    · exact ⟨.top, p.select, .top, rfl, .inl (by decide)⟩
    · obtain ⟨n, hn, pins⟩ := List.mem_filterMap.1 pinned
      cases n with
      | source => cases pins
      | select q =>
        have distinct : q.distinct = true ∧ q.label = label := by simpa [Node.pinned?] using pins
        obtain ⟨place, hq⟩ := exists_places hn
        exact ⟨place, q, hq, distinct.2, .inr distinct.1⟩
      | expr e =>
        obtain ⟨q, hq, same⟩ := Option.map_eq_some_iff.1 pins
        exact ⟨.expression, q, places_of_query hn hq, same, .inl (by decide)⟩
  · rintro ⟨place, q, hq, rfl, below | distinct⟩
    · rcases hq.exists_node with ⟨-, rfl⟩ | ⟨n, hn, inner, hplace⟩
      · exact .inl rfl
      · cases n with
        | source => exact absurd (Option.some.inj hplace).symm below
        | select => cases hplace
        | expr e => exact .inr (List.mem_filterMap.2 ⟨.expr e, hn, inner⟩)
    · refine .inr (List.mem_filterMap.2 ⟨.select q, hq.mem_nodes, ?_⟩)
      rw [Node.pinned?, if_pos distinct]

end Projection

/-! ## Trimmed selects -/

/-- **What pruning does to a select** in a place: it drops columns, but never the last one, and none
of a select that is fixed. -/
structure Select.Trimmed (place : SelectPlace) (s s' : Select) : Prop extends s.Drops s' where
  nonempty : s.columns ≠ [] → s'.columns ≠ []
  complete : s.Fixed place → s'.columns = s.columns

namespace Select

variable {place : SelectPlace} {s s₁ s' s'' : Select}

theorem Trimmed.refl (place : SelectPlace) (s : Select) : s.Trimmed place s where
  eq := by cases s; rfl
  columns := .refl _
  nonempty := id
  complete _ := rfl

/-- No select loses its last column. -/
theorem columns_ne_nil_of_keepColumns {keep : String → Column → Bool}
    (h : (s.keepColumns keep).result = .ok s') (some : s.columns ≠ []) : s'.columns ≠ [] := by
  simp only [keepColumns] at h
  split at h
  · obtain rfl := Except.ok.inj h
    exact some
  · obtain rfl := Except.ok.inj h
    by_cases none : (s.columns.filter (keep s.label)).isEmpty = true
    · simpa only [if_pos none, ne_eq, List.take_eq_nil_iff, Nat.one_ne_zero, false_or] using some
    · simpa only [if_neg none, ne_eq, ← List.isEmpty_iff] using none

/-- A select is trimmed if all columns are kept of one whose columns are fixed. -/
theorem trimmed_of_keepColumns {keep : String → Column → Bool}
    (fixed : s.Fixed place → ∀ c ∈ s.columns, keep s.label c)
    (h : (s.keepColumns keep).result = .ok s') : s.Trimmed place s' := by
  have act : outcome ((Transform.keepColumns keep).select 0 s) () = .ok (s', ()) :=
    Traced.outcome_eq_ok_iff.2 h
  refine ⟨(Transform.keepColumns_thins keep).drops act, columns_ne_nil_of_keepColumns h, ?_⟩
  intro here
  rw [result_keepColumns_of_all (fixed here)] at h
  rw [Except.ok.inj h]

namespace Rebuilt

theorem refl (place : SelectPlace) (s : Select) : s.Rebuilt Trimmed place s := by
  induction s using children_induction generalizing place with
  | step s ih =>
    refine .intro (R := Rebuilt Trimmed) (fun _ _ _ rebuilt => rebuilt) (.refl ?_ ?_) (.refl _ _)
    · exact fun q hq => ih q (mem_children_iff.2 (.inl hq)) _
    · exact fun e he q hq => ih q (mem_children_iff.2 (.inr ⟨e, he, hq⟩)) _

/-- **Trimmed twice is trimmed.** -/
theorem trans (h : s.Rebuilt Trimmed place s') (h' : s'.Rebuilt Trimmed place s'') :
    s.Rebuilt Trimmed place s'' := by
  refine h.induction (motive := fun place s s' => ∀ s'', s'.Rebuilt Trimmed place s'' →
    s.Rebuilt Trimmed place s'') ?_ s'' h'
  intro place s s₁ s' parts here s'' h'
  obtain ⟨s₂, parts', here'⟩ := h'.parts
  obtain ⟨cs, whole, sublist⟩ := parts.comp (T := Rebuilt Trimmed) here.toDrops parts'
    (fun _ _ _ below => below.1) fun _ _ _ q'' below below' => below.2 q'' below'
  -- as many columns as before, since those that the first trimming drops are put back
  have length : s.columns.length = cs.length := whole.columns.length_eq
  have length₁ := parts.columns.length_eq
  have length₂ := parts'.columns.length_eq
  refine .intro (R := Rebuilt Trimmed) (fun _ _ _ rebuilt => rebuilt) whole
    ⟨⟨here'.eq, here'.columns.trans sublist⟩, fun (some : cs ≠ []) => ?_, fun fixed => ?_⟩
  · have first : s₁.columns ≠ [] := by
      rw [← List.length_pos_iff] at some ⊢
      omega
    have second := here.nonempty first
    refine here'.nonempty ?_
    rw [← List.length_pos_iff] at second ⊢
    omega
  · have distinct : s₂.distinct = s₁.distinct := by
      rw [parts'.distinct, here.eq]
    have first := here.complete (fixed.imp_right fun same => distinct ▸ same)
    have second := here'.complete fixed
    refine (here'.columns.trans sublist).eq_of_length ?_
    rw [second]
    rw [first] at length₂
    omega

/-- What a select is left with. -/
theorem columnNames (h : s.Rebuilt Trimmed place s') :
    s'.columnNames.Sublist s.columnNames ∧ (s.columns ≠ [] → s'.columns ≠ []) ∧
      (s.Fixed place → s'.columnNames = s.columnNames) := by
  obtain ⟨s₁, parts, here⟩ := h.parts
  have names := parts.mirrors.columnNames
  refine ⟨?_, fun some => here.nonempty ?_, fun fixed => ?_⟩
  · rw [← names]
    exact here.columns.map _
  · have length := parts.columns.length_eq
    rw [← List.length_pos_iff] at some ⊢
    omega
  · have same := here.complete (fixed.imp_right fun distinct => parts.distinct.trans distinct)
    rw [← names, Select.columnNames, same, Select.columnNames]

/-- Trimming keeps the label. -/
theorem label (h : s.Rebuilt Trimmed place s') : s'.label = s.label := by
  obtain ⟨s₁, parts, here⟩ := h.parts
  exact here.label.trans parts.label

end Rebuilt

/-- A select without some of its columns is valid where it was. -/
theorem Drops.check (h : s.Drops s') {scope : Scope} (check : s.check scope = .ok ()) :
    s'.check scope = .ok () := by
  have names : (s'.columns.map (·.name)).Nodup :=
    (check_eq_ok_iff.1 check).names.sublist (h.columns.map (·.name))
  have renews := renews_of_columns names fun c hc => ⟨c, h.columns.subset hc, rfl⟩
  rw [h.eq]
  exact renews.check check

end Select

/-! ## Trimmed queries -/

theorem Projector.Over.refl {R : Select → Select → Prop} {r : Projector}
    (h : ∀ e ∈ r.exprs, ∀ q ∈ e.subqueries, R q q) : r.Over R r := by
  cases r with
  | entity name bindings =>
    exact .entity (List.forall₂_same.2 fun b hb => ⟨rfl, .refl (h _ (List.mem_map_of_mem hb))⟩)
  | scalar expr => exact .scalar (.refl (h _ (List.mem_singleton_self _)))

theorem Projector.Over.trans {R S T : Select → Select → Prop} {r r' r'' : Projector}
    (h : r.Over R r') (h' : r'.Over S r'') (comp : ∀ q q' q'', R q q' → S q' q'' → T q q'') :
    r.Over T r'' := by
  cases h with
  | entity h =>
    cases h' with
    | entity h' =>
      refine .entity ((forall₂_comp h h').imp ?_)
      rintro b b'' ⟨b', ⟨member, part⟩, member', part'⟩
      exact ⟨member'.trans member, part.trans part' comp⟩
  | scalar h =>
    cases h' with
    | scalar h' => exact .scalar (h.trans h' comp)

namespace Projection

variable {p p' p'' next : Projection} {place : SelectPlace} {q q' : Select}

theorem Rebuilt.refl (p : Projection) : p.Rebuilt Select.Trimmed p :=
  ⟨.refl _ _, .refl fun _ _ q _ => .refl _ q⟩

/-- **Trimmed queries that are trimmed again are trimmed.** -/
theorem Rebuilt.trans (h : p.Rebuilt Select.Trimmed p') (h' : p'.Rebuilt Select.Trimmed p'') :
    p.Rebuilt Select.Trimmed p'' :=
  ⟨h.select.trans h'.select, h.projector.trans h'.projector fun _ _ _ => Select.Rebuilt.trans⟩

theorem Rebuilt.imp {act act' : SelectPlace → Select → Select → Prop} (h : p.Rebuilt act p')
    (weaken : ∀ place q q', act place q q' → act' place q q') : p.Rebuilt act' p' :=
  ⟨h.select.imp weaken, h.projector.imp fun _ _ _ _ _ rebuilt => rebuilt.imp weaken⟩

/-- **The selects of a trimmed query** are those of the query, one for each label, in the places
that they had. -/
theorem Rebuilt.select_of_label (h : p.Rebuilt Select.Trimmed p') (labels : p.labels.Nodup)
    (hq : p.Places place q) (hq' : .select q' ∈ p'.nodes) (same : q'.label = q.label) :
    q.Rebuilt Select.Trimmed place q' := by
  obtain ⟨place', hplace'⟩ := exists_places hq'
  obtain ⟨q₀, hq₀, rebuilt⟩ := hplace'.of_rebuilt h fun _ _ _ trimmed => trimmed.toDrops
  have label : q₀.label = q.label := rebuilt.label.symm.trans same
  obtain rfl := hq.unique labels hq₀ label
  obtain rfl := eq_of_label labels hq.mem_nodes hq₀.mem_nodes label
  exact rebuilt

/-- **A round trims a query** and keeps what the query refers to. -/
theorem rebuilt_of_round (round : (p.keepColumns p.columnUsage.keeps).result = .ok next) :
    p.Rebuilt (fun place s s' => s.Trimmed place s' ∧ s.Shows (· ∈ p.refs) s') next := by
  have run : outcome (p.transform (.keepColumns p.columnUsage.keeps)) () = .ok (next, ()) :=
    Traced.outcome_eq_ok_iff.2 round
  refine rebuilt_of_transform (fun _ => rfl) ?_ run
  intro place q q₁ depth st q' st' hq parts hact
  have act : (q₁.keepColumns p.columnUsage.keeps).result = .ok q' := Traced.outcome_eq_ok_iff.1 hact
  have trimmed : q₁.Trimmed place q' := by
    refine Select.trimmed_of_keepColumns (fun fixed c _ => ?_) act
    have pins : p.Pins q₁.label :=
      ⟨place, q, hq, parts.label.symm, fixed.imp_right fun distinct => parts.distinct ▸ distinct⟩
    rw [ColumnUsage.keeps, isPinned_iff.2 pins, Bool.true_or]
  refine ⟨trimmed, trimmed.label, fun name hname used => ?_⟩
  obtain ⟨cs, kept, -, all⟩ := q₁.keepColumns_eq p.columnUsage.keeps
  obtain rfl := Except.ok.inj (kept.symm.trans act)
  obtain ⟨c, hc, rfl⟩ := List.mem_map.1 hname
  exact List.mem_map_of_mem (all c hc (keeps_of_mem_refs used))

/-- A round leaves a valid query valid that keeps what the query refers to. -/
theorem Checks.of_keepColumns {keep : String → Column → Bool} (h : p.Checks)
    (round : (p.keepColumns keep).result = .ok next)
    (rebuilt : p.Rebuilt (fun _ s s' => s.Drops s' ∧ s.Shows (· ∈ p.refs) s') next) :
    next.Checks := by
  have run : outcome (p.transform (.keepColumns keep)) () = .ok (next, ()) :=
    Traced.outcome_eq_ok_iff.2 round
  obtain ⟨select, projector⟩ := rebuilt.checks (fun _ _ _ act _ => act.1.check)
    (fun _ _ _ act => act.2) p.everywhere_uses_refs
    (fun e he r hr => mem_refs_of_projector he hr) h
  exact ⟨nodup_labels_of_thins (Transform.keepColumns_thins _) h.labels run, select,
    checkProjector_eq_ok_iff.1 projector⟩

/-- **A round of pruning leaves a valid query valid.** -/
theorem Checks.of_round (h : p.Checks)
    (round : (p.keepColumns p.columnUsage.keeps).result = .ok next) : next.Checks :=
  h.of_keepColumns round ((rebuilt_of_round round).imp fun _ _ _ act => ⟨act.1.toDrops, act.2⟩)

/-- **Pruning trims a valid query and leaves it valid.** -/
theorem Checks.of_pruneColumns (h : p.Checks) (run : p.pruneColumns.result = .ok p') :
    p'.Checks ∧ p.Rebuilt Select.Trimmed p' := by
  refine pruneColumns_induction (P := fun p' => p'.Checks ∧ p.Rebuilt Select.Trimmed p') ?_
    ⟨h, .refl p⟩ run
  rintro p₁ next ⟨checks, rebuilt⟩ round
  exact ⟨checks.of_round round, rebuilt.trans ((rebuilt_of_round round).imp fun _ _ _ act => act.1)⟩

end Projection

/-! ## Pruned statements -/

namespace Statement

/-- Pruning maps the queries of a statement one by one, and cannot fail. -/
theorem exists_pruneColumns (s : Statement) :
    ∃ t, s.pruneColumns.result = .ok t ∧
      List.Forall₂ (fun p p' => p.pruneColumns.result = .ok p') s.queries t.queries := by
  obtain ⟨t, run⟩ := mapQueriesM_succeeds fun p _ => p.exists_pruneColumns
  exact ⟨t, run, forall₂_of_mapQueriesM run⟩

/-- **Pruning is safe.** On a valid statement, if no literal is a NaN, the rounds of each query come
to an end, and they leave the statement valid. A select that is left is the select of the same label
without some of its columns, and so are the selects below it: its columns stand in their order,
there are some if there were, and none is missing of a select at the top, of a distinct one, or of
the subquery of an expression. -/
theorem pruneColumns_safe {s : Statement} (free : s.NaNFree) (valid : s.check = .ok ()) :
    ∃ t, s.pruneColumns.result = .ok t ∧ t.check = .ok () ∧
      List.Forall₂ (fun p p' =>
        (∃ n, p.PrunesIn n p') ∧
        (∀ q', .select q' ∈ p'.nodes → ∃ place q, p.Places place q ∧ q'.label = q.label) ∧
        ∀ place q q', p.Places place q → .select q' ∈ p'.nodes → q'.label = q.label →
          q.Rebuilt Select.Trimmed place q' ∧ q'.columnNames.Sublist q.columnNames ∧
            (q.columns ≠ [] → q'.columns ≠ []) ∧
            (q.Fixed place → q'.columnNames = q.columnNames))
        s.queries t.queries := by
  obtain ⟨t, run, queries⟩ := s.exists_pruneColumns
  have checks := check_eq_ok_iff.1 valid
  have pruned := forall₂_imp_of_mem queries fun p hp p' _ prunes =>
    And.intro (Projection.prunesIn_of_pruneColumns (free.select hp) prunes)
      ((checks p hp).of_pruneColumns prunes)
  refine ⟨t, run, check_eq_ok_iff.2 fun p' hp' => ?_, forall₂_imp_of_mem pruned ?_⟩
  · obtain ⟨p, -, -, checks', -⟩ := exists_of_forall₂_of_mem pruned hp'
    exact checks'
  · rintro p hp p' - ⟨loop, -, rebuilt⟩
    refine ⟨loop, fun q' hq' => ?_, fun place q q' hq hq' same => ?_⟩
    · obtain ⟨place, hplace⟩ := Projection.exists_places hq'
      obtain ⟨q, hq, below⟩ := hplace.of_rebuilt rebuilt fun _ _ _ trimmed => trimmed.toDrops
      exact ⟨place, q, hq, below.label⟩
    · have below := rebuilt.select_of_label (checks p hp).labels hq hq' same
      exact ⟨below, below.columnNames⟩

end Statement

/-- The orders, with a column that holds a subquery if it is there at all. -/
def shippedOrders (columns : List Column) : Select :=
  ⟨"t", columns, some (.table "orders" "o"), none, [], [], [], false, none, none, false⟩

/-- The orders that have a parcel. The columns of the parcels are not read by name. -/
def shippedQuery (columns : List Column) : Projection :=
  let parcels : Select :=
    ⟨"e", [⟨"one", .int 1, .int⟩, ⟨"two", .int 2, .int⟩], some (.table "parcels" "p"),
      some (.binary .eq (.column "p" "order_id") (.column "t" "id")), [], [], [], false, none, none,
      false⟩
  ⟨⟨"q", [⟨"x", .column "t" "id", .int⟩], some (.subquery (shippedOrders columns)),
    some (.existsQuery parcels), [], [], [], false, none, none, false⟩, .scalar (.column "q" "x")⟩

def orderId : Column :=
  ⟨"id", .column "o" "id", .int⟩

/-- The weight of all parcels, which is asked for in a subquery. -/
def orderWeight : Column :=
  ⟨"weight", .scalarQuery ⟨"w", [⟨"sum", .column "s" "weight", .int⟩], some (.table "parcels" "s"),
    none, [], [], [], false, none, none, false⟩, .int⟩

/-- The column that nothing reads goes with its subquery, and the rest is left. -/
theorem Statement.pruneColumns_safe_shippedQuery :
    (Statement.query (shippedQuery [orderId, orderWeight])).NaNFree ∧
      (Statement.query (shippedQuery [orderId, orderWeight])).check = .ok () ∧
      (Statement.query (shippedQuery [orderId, orderWeight])).pruneColumns.result =
        .ok (.query (shippedQuery [orderId])) ∧
      (Statement.query (shippedQuery [orderId])).check = .ok () ∧
      (shippedOrders [orderId, orderWeight]).Rebuilt Select.Trimmed .source
        (shippedOrders [orderId]) := by
  have free : (Statement.query (shippedQuery [orderId, orderWeight])).NaNFree := by
    unfold Statement.NaNFree
    decide
  have valid : (Statement.query (shippedQuery [orderId, orderWeight])).check = .ok () := by cbv
  have pruned : (Statement.query (shippedQuery [orderId, orderWeight])).pruneColumns.result =
      .ok (.query (shippedQuery [orderId])) := by cbv
  obtain ⟨t, run, check, queries⟩ := pruneColumns_safe free valid
  obtain rfl := Except.ok.inj (pruned.symm.trans run)
  refine ⟨free, valid, pruned, check, ?_⟩
  obtain ⟨⟨-, -, query⟩, -⟩ := List.forall₂_cons.1 queries
  have place : (shippedQuery [orderId, orderWeight]).Places .source
      (shippedOrders [orderId, orderWeight]) := .source .top (List.mem_singleton_self _)
  have held : .select (shippedOrders [orderId]) ∈ (shippedQuery [orderId]).nodes :=
    Projection.Places.mem_nodes (.source .top (List.mem_singleton_self _))
  exact (query _ _ _ place held rfl).1

end HiveQuery
