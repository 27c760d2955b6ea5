import HiveQuery.Compiler
import HiveQuery.Proofs.ColumnsSound
import HiveQuery.Proofs.Conforming
import HiveQuery.Proofs.Unpageable
/-!
# What can keep a statement from being compiled

A valid statement may hold subqueries wherever an expression may stand, but the passes are made for
those whose subqueries stand in filters and whose join conditions refer to what they join
(`Statement.Lowerable`). For these the passes are complete: a statement is lowered, or else
something is wrong with the settings, with the mapping or with the page of a select, as the
statement has it (`Compiler.Obstacle`). In particular the two placements of orderings, the merging
and the pruning of columns and the last check do not fail.
-/

namespace HiveQuery

open Outcome

/-! ## What becomes of a query before it is brought to its mapping -/

namespace Projection

/-- A query that reads as another one: it is sound, and its top select has the label, the columns
and the entity of the other. -/
structure Keeps (p p' : Projection) : Prop where
  sound : p'.Sound
  label : p'.select.label = p.select.label
  names : p.select.columnNames ⊆ p'.select.columnNames
  entity : ∀ {name bindings}, p'.projector = .entity name bindings →
    ∃ bindings₀, p.projector = .entity name bindings₀

/-- What two passes keep one after the other is kept. -/
theorem Keeps.trans {p p₁ p₂ : Projection} (h : p.Keeps p₁) (h' : p₁.Keeps p₂) : p.Keeps p₂ where
  sound := h'.sound
  label := h'.label.trans h.label
  names := List.Subset.trans h.names h'.names
  entity hp := by
    obtain ⟨bindings, hp⟩ := h'.entity hp
    exact h.entity hp

/-- **A query that cannot be brought to its mapping could not be from the start.** -/
theorem Nonconforming.of_keeps {mapping : Mapping} {byPosition : Bool} {p p' : Projection}
    {failure : Failure} (names : p.select.columnNames.Nodup) (keeps : p.Keeps p')
    (h : p'.Nonconforming mapping byPosition failure) :
    p.Nonconforming mapping byPosition failure := by
  cases h with
  | unknownEntity hp missing =>
    obtain ⟨bindings, hp⟩ := keeps.entity hp
    exact .unknownEntity hp missing
  | @select name _ entity _ hp found h =>
    obtain ⟨bindings, hp⟩ := keeps.entity hp
    refine .select hp found ?_
    cases h with
    | mappedTwice h => exact .mappedTwice h
    | noColumnOfName hm strict absent =>
      rw [keeps.label]
      exact .noColumnOfName hm strict fun present => absent (keeps.names present)
    | noColumnAtPosition hm lenient absent short =>
      rw [keeps.label]
      have fewer := (List.subperm_of_subset names keeps.names).length_le
      rw [Select.columnNames, Select.columnNames, List.length_map, List.length_map] at fewer
      exact .noColumnAtPosition hm lenient (fun present => absent (keeps.names present))
        (fewer.trans short)

/-- **Placing orderings succeeds on a sound query**, keeps it sound and keeps what it shows. -/
theorem Sound.keeps_placed {p : Projection} (h : p.Sound) :
    ∃ p', p.placeOrderings.result = .ok p' ∧ p.Keeps p' ∧
      p' = { p with select := p.select.exposed .outermost } := by
  obtain ⟨p', hp', sound, rfl⟩ := h.placeOrderings
  obtain ⟨names, hnames⟩ := p.select.columnNames_exposed .outermost
  refine ⟨_, hp', ⟨sound, p.select.label_exposed .outermost, ?_, fun hp => ⟨_, hp⟩⟩, rfl⟩
  rw [hnames]
  exact List.subset_append_left _ _

/-- A page is put into a query with labels that the query does not use. -/
theorem Sound.keeps_paged {p p' : Projection} (h : p.Sound) {rowNumberColumn : String}
    {supply supply' : LabelSupply} (taken : p.labels ⊆ supply.taken)
    (hp : outcome (p.transform (.paging rowNumberColumn)) supply = .ok (p', supply')) :
    p.Keeps p' ∧ supply'.taken = supply.taken := by
  have fresh : ∀ drawn supply', supply.Draws drawn supply' → (p.select.labels ++ drawn).Nodup := by
    intro drawn supply' draws
    rw [← h.labels_eq]
    refine List.nodup_append.2 ⟨h.checks.labels, draws.nodup, fun a ha b hb heq => ?_⟩
    exact draws.free b hb (taken (heq ▸ ha))
  have carried := (paging_governs rowNumberColumn).carried_query h (fun _ _ _ _ _ _ => trivial)
    (fun _ _ _ _ => trivial) (fun _ _ => rfl) fresh hp
  obtain ⟨drawn, draws⟩ := carried.draws
  obtain ⟨_, shows⟩ := carried.shows
  obtain ⟨st₁, -, hprojector⟩ := Projection.of_outcome_transform hp
  refine ⟨⟨carried.sound, carried.label, fun name hname => shows name hname trivial, ?_⟩,
    draws.taken⟩
  intro name bindings entity
  rw [entity] at hprojector
  exact Projector.exists_of_transform_entity hprojector

end Projection

/-! ## Statements -/

namespace Statement

variable {s s' : Statement} {f : Projection → Traced Projection}

/-- The queries of a statement are mapped one by one. -/
theorem forall₂_of_mapQueriesM (h : (s.mapQueriesM f).result = .ok s') :
    List.Forall₂ (fun p p' => (f p).result = .ok p') s.queries s'.queries := by
  have run : outcome (s.mapQueriesM f) () = .ok (s', ()) := Traced.outcome_eq_ok_iff.2 h
  exact (forall₂_of_outcome_mapM (of_outcome_mapQueriesM run)).imp
    fun _ _ ⟨_, _, hrun⟩ => Traced.outcome_eq_ok_iff.1 hrun

/-- Each query of a statement comes from one of another. -/
theorem exists_of_mapQueriesM (h : (s.mapQueriesM f).result = .ok s') :
    ∀ p' ∈ s'.queries, ∃ p ∈ s.queries, (f p).result = .ok p' := fun _ hp' =>
  exists_of_forall₂_of_mem (forall₂_of_mapQueriesM h) hp'

/-- A pass succeeds on a statement if it does on each query. -/
theorem mapQueriesM_succeeds (h : ∀ p ∈ s.queries, ∃ p', (f p).result = .ok p') :
    ∃ s', (s.mapQueriesM f).result = .ok s' := by
  cases run : (s.mapQueriesM f).result with
  | ok s' => exact ⟨s', rfl⟩
  | error failure =>
    have fails : outcome (s.mapQueriesM f) () = .error failure := Traced.outcome_eq_error_iff.2 run
    obtain ⟨p, hp, _, hfail⟩ := exists_of_mapQueriesM_eq_error fails
    obtain ⟨p', hp'⟩ := h p hp
    cases hp'.symm.trans (Traced.outcome_eq_error_iff.1 hfail)

/-- A statement whose queries the passes are made for. -/
def Sound (s : Statement) : Prop :=
  ∀ p ∈ s.queries, p.Sound

/-- Every query keeps what it is read by. -/
def Keeps (s s' : Statement) : Prop :=
  ∀ p' ∈ s'.queries, ∃ p ∈ s.queries, p.Keeps p'

theorem Keeps.sound (h : s.Keeps s') : s'.Sound := fun p' hp' => by
  obtain ⟨p, -, keeps⟩ := h p' hp'
  exact keeps.sound

theorem Keeps.trans {s₁ s₂ : Statement} (h : s.Keeps s₁) (h' : s₁.Keeps s₂) : s.Keeps s₂ :=
    fun p₂ hp₂ => by
  obtain ⟨p₁, hp₁, keeps'⟩ := h' p₂ hp₂
  obtain ⟨p, hp, keeps⟩ := h p₁ hp₁
  exact ⟨p, hp, keeps.trans keeps'⟩

theorem Sound.check (h : s.Sound) : s.check = .ok () :=
  check_eq_ok_iff.2 fun p hp => (h p hp).checks

/-- What a pass does to a statement of which it keeps every query sound. -/
theorem Sound.mapQueriesM (h : s.Sound)
    (sound : ∀ p : Projection, p.Sound → ∃ p', (f p).result = .ok p' ∧ p'.Sound) :
    ∃ s', (s.mapQueriesM f).result = .ok s' ∧ s'.Sound := by
  obtain ⟨s', hs'⟩ := mapQueriesM_succeeds fun p hp => (sound p (h p hp)).imp fun _ => And.left
  refine ⟨s', hs', fun p' hp' => ?_⟩
  obtain ⟨p, hp, hrun⟩ := exists_of_mapQueriesM hs' p' hp'
  obtain ⟨p₁, hp₁, hsound⟩ := sound p (h p hp)
  obtain rfl := Except.ok.inj (hp₁.symm.trans hrun)
  exact hsound

/-- **Placing the orderings of a sound statement succeeds.** -/
theorem Sound.placeOrderings (h : s.Sound) :
    ∃ s', s.placeOrderings.result = .ok s' ∧ s.Keeps s' ∧ ∀ p' ∈ s'.queries, ∃ p ∈ s.queries,
      p' = { p with select := p.select.exposed .outermost } := by
  obtain ⟨s', hs'⟩ : ∃ s', s.placeOrderings.result = .ok s' :=
    mapQueriesM_succeeds fun p hp => (h p hp).keeps_placed.imp fun _ => And.left
  refine ⟨s', hs', fun p' hp' => ?_, fun p' hp' => ?_⟩ <;>
    obtain ⟨p, hp, hrun⟩ := exists_of_mapQueriesM hs' p' hp' <;>
    obtain ⟨p₁, hp₁, keeps, eq⟩ := (h p hp).keeps_placed <;>
    obtain rfl := Except.ok.inj (hp₁.symm.trans hrun)
  · exact ⟨p, hp, keeps⟩
  · exact ⟨p, hp, eq⟩

/-- **A sound statement that is paged is sound.** -/
theorem Sound.keeps_paged (h : s.Sound) {rowNumberColumn : String}
    (hs : (s.replacePaging rowNumberColumn).result = .ok s') : s.Keeps s' := by
  obtain ⟨supply', run⟩ := Traced.run'_eq_ok_iff.1 hs
  have taken : ∀ p ∈ s.queries, p.labels ⊆ s.labels := by
    intro p hp label hlabel
    obtain ⟨n, hn, hl⟩ := List.mem_filterMap.1 hlabel
    exact List.mem_filterMap.2 ⟨n, List.mem_flatMap_of_mem hp hn, hl⟩
  have each := exists_of_outcome_mapM (J := fun supply : LabelSupply => supply.taken = s.labels)
    (fun p hp supply p' supply' hsupply hrun =>
      ((h p hp).keeps_paged (hsupply ▸ taken p hp) hrun).2.trans hsupply) rfl
    (of_outcome_mapQueriesM run)
  intro p' hp'
  obtain ⟨p, hp, supply, supply', hsupply, hrun⟩ := each p' hp'
  exact ⟨p, hp, ((h p hp).keeps_paged (hsupply ▸ taken p hp) hrun).1⟩

end Statement

/-! ## Compiling -/

/-- **A statement that the passes are made for**: it is valid, none of its literals is a NaN, its
selects are tidy and its projectors hold no subqueries. -/
structure Statement.Lowerable (s : Statement) : Prop where
  valid : s.check = .ok ()
  noNaN : s.NaNFree
  selects : ∀ q, .select q ∈ s.nodes → q.Tidy
  projectors : ∀ p ∈ s.queries, ∀ e ∈ p.projector.exprs, e.subqueries = []

/-- The nodes of the selects of a query are nodes of its statement. -/
theorem Statement.nodes_subset_of_holds {s : Statement} {p : Projection} (hp : p ∈ s.queries)
    {q : Select} (hq : p.select.Holds q) : q.nodes ⊆ s.nodes := fun _ hn =>
  List.mem_flatMap_of_mem hp (List.mem_append_left _ (hq.nodes_subset hn))

/-- What can be lowered is sound. -/
theorem Statement.Lowerable.sound {s : Statement} (h : s.Lowerable) : s.Sound := fun p hp =>
  ⟨Statement.check_eq_ok_iff.1 h.valid p hp,
    fun q hq => h.selects q (Statement.nodes_subset_of_holds hp (.self _) hq.mem_nodes),
    h.projectors p hp⟩

namespace Compiler

/-- **What can keep a statement from being compiled**, and the failure that says so: the name for
row numbers is no plain identifier, a paged select of the statement cannot be paged, or a query of
it cannot be brought to its mapping. -/
inductive Obstacle (c : Compiler) (s : Statement) : Failure → Prop
  | setting (h : CompilerSettings.isPlainIdentifier c.settings.rowNumberColumn = false) :
      Obstacle c s (.setting (.rowNumberColumn c.settings.rowNumberColumn))
  | page {q : Select} {failure : Failure} (hq : .select q ∈ s.nodes) (paged : q.hasPaging)
      (h : q.Unpageable failure) : Obstacle c s failure
  | mapping {p : Projection} {failure : Failure} (hp : p ∈ s.queries)
      (h : p.Nonconforming c.mapping c.settings.byPosition failure) : Obstacle c s failure

variable {c : Compiler} {s s' : Statement} {failure : Failure}

/-- Paging a lowerable statement fails for a reason that can be told from the statement, -/
theorem obstacle_of_replacePaging (h : s.Lowerable) {placed : Statement}
    (origin : ∀ p' ∈ placed.queries, ∃ p ∈ s.queries,
      p' = { p with select := p.select.exposed .outermost })
    (hfail : (placed.replacePaging c.settings.rowNumberColumn).result = .error failure) :
    c.Obstacle s failure := by
  obtain ⟨p', hp', supply, fails⟩ :=
    Statement.exists_of_mapQueriesM_eq_error (Traced.run'_eq_error_iff.1 hfail)
  obtain ⟨p, hp, rfl⟩ := origin p' hp'
  have noNaN : p.select.NaNFree := fun n hn =>
    h.noNaN n (Statement.nodes_subset_of_holds hp (.self _) hn)
  obtain ⟨q, holds, paged, unpageable⟩ := (h.sound p hp).exists_unpageable noNaN fails
  exact .page (Statement.nodes_subset_of_holds hp holds (Select.Holds.self q).mem_nodes) paged
    unpageable

/-- and so does conforming it. -/
theorem obstacle_of_conform (h : s.Lowerable) {settled : Statement} (keeps : s.Keeps settled)
    (hfail : (settled.conform c.mapping c.settings.byPosition).result = .error failure) :
    c.Obstacle s failure := by
  have fails : outcome (settled.conform c.mapping c.settings.byPosition) () = .error failure :=
    Traced.outcome_eq_error_iff.2 hfail
  obtain ⟨p', hp', _, hconform⟩ := Statement.exists_of_mapQueriesM_eq_error fails
  obtain ⟨p, hp, hkeeps⟩ := keeps p' hp'
  have names := (Select.check_eq_ok_iff.1 (h.sound p hp).checks.select).names
  exact .mapping hp (.of_keeps names hkeeps
    (Projection.nonconforming_of_conform (Traced.outcome_eq_error_iff.1 hconform)))

/-- **The passes that do not fail**, each after those before it. -/
theorem passes_succeed (c : Compiler) (h : s.Sound) :
    ∃ placed, s.placeOrderings.result = .ok placed ∧
      ∀ paged, (placed.replacePaging c.settings.rowNumberColumn).result = .ok paged →
        ∃ settled, paged.placeOrderings.result = .ok settled ∧ s.Keeps settled ∧
          ∀ conformed, (settled.conform c.mapping c.settings.byPosition).result = .ok conformed →
            ∃ merged, conformed.mergeColumns.result = .ok merged ∧
              ∃ pruned, merged.pruneColumns.result = .ok pruned ∧ pruned.check = .ok () := by
  obtain ⟨placed, hplaced, keeps, -⟩ := h.placeOrderings
  refine ⟨placed, hplaced, fun paged hpaged => ?_⟩
  have keeps := keeps.trans (keeps.sound.keeps_paged hpaged)
  obtain ⟨settled, hsettled, keeps', -⟩ := keeps.sound.placeOrderings
  refine ⟨settled, hsettled, keeps.trans keeps', fun conformed hconformed => ?_⟩
  have sound : conformed.Sound := by
    intro p' hp'
    obtain ⟨p, hp, hrun⟩ := Statement.exists_of_mapQueriesM hconformed p' hp'
    exact (keeps'.sound p hp).of_conform hrun
  obtain ⟨merged, hmerged, sound⟩ := sound.mapQueriesM fun p hp => hp.mergeColumns
  obtain ⟨pruned, hpruned, sound⟩ := sound.mapQueriesM fun p hp => hp.pruneColumns
  exact ⟨merged, hmerged, pruned, hpruned, sound.check⟩

/-- **The passes end with a valid statement or meet an obstacle.** -/
theorem passes_ok_or_obstacle (c : Compiler) (h : s.Lowerable) :
    (∃ s', (c.passes s).result = .ok s' ∧ s'.check = .ok ()) ∨
      ∃ failure, (c.passes s).result = .error failure ∧ c.Obstacle s failure := by
  obtain ⟨placed, hplaced, -, origin⟩ := h.sound.placeOrderings
  obtain ⟨_, hplaced', afterPaging⟩ := c.passes_succeed h.sound
  obtain rfl := Except.ok.inj (hplaced.symm.trans hplaced')
  rw [passes, Traced.result_bind_of_ok hplaced]
  cases hpaged : (placed.replacePaging c.settings.rowNumberColumn).result with
  | error failure =>
    rw [Traced.result_bind_of_error hpaged]
    exact .inr ⟨failure, rfl, obstacle_of_replacePaging h origin hpaged⟩
  | ok paged =>
    obtain ⟨settled, hsettled, keeps, afterConforming⟩ := afterPaging paged hpaged
    rw [Traced.result_bind_of_ok hpaged, Traced.result_bind_of_ok hsettled]
    cases hconformed : (settled.conform c.mapping c.settings.byPosition).result with
    | error failure =>
      rw [Traced.result_bind_of_error hconformed]
      exact .inr ⟨failure, rfl, obstacle_of_conform h keeps hconformed⟩
    | ok conformed =>
      obtain ⟨merged, hmerged, pruned, hpruned, check⟩ := afterConforming conformed hconformed
      have checked : (Traced.ofExcept pruned.check).result = .ok () := check
      rw [Traced.result_bind_of_ok hconformed, Traced.result_bind_of_ok hmerged,
        Traced.result_bind_of_ok hpruned, Traced.result_bind_of_ok checked]
      exact .inl ⟨pruned, rfl, check⟩

/-- The name of the row number column is looked at before all else. -/
theorem result_lower (c : Compiler) (s : Statement) :
    (c.lower s).result =
      if CompilerSettings.isPlainIdentifier c.settings.rowNumberColumn then (c.passes s).result
      else .error (.setting (.rowNumberColumn c.settings.rowNumberColumn)) := by
  rw [lower, Traced.result_bind_of_ok (Traced.result_emit _), CompilerSettings.check]
  by_cases plain : CompilerSettings.isPlainIdentifier c.settings.rowNumberColumn
  · simp only [plain, if_true]
    cases run : (c.passes s).result with
    | error failure => exact Traced.result_bind_of_error run _
    | ok s' => exact Traced.result_bind_of_ok run _
  · simp only [plain]
    rfl

/-- **Compiling is complete.** A statement that the passes are made for is lowered to a valid one,
or one of the named obstacles is met. The placements of orderings before and after paging do not
fail, and neither does anything after the queries are brought to their mappings, the last check
included. -/
theorem lower_ok_or_obstacle (c : Compiler) (s : Statement) (h : s.Lowerable) :
    ((∃ s', (c.lower s).result = .ok s' ∧ s'.check = .ok ()) ∨
      ∃ failure, (c.lower s).result = .error failure ∧ c.Obstacle s failure) ∧
    ∃ placed, s.placeOrderings.result = .ok placed ∧
      ∀ paged, (placed.replacePaging c.settings.rowNumberColumn).result = .ok paged →
        ∃ settled, paged.placeOrderings.result = .ok settled ∧
          ∀ conformed, (settled.conform c.mapping c.settings.byPosition).result = .ok conformed →
            ∃ merged, conformed.mergeColumns.result = .ok merged ∧
              ∃ pruned, merged.pruneColumns.result = .ok pruned ∧ pruned.check = .ok () := by
  constructor
  · rw [result_lower]
    split
    · exact c.passes_ok_or_obstacle h
    · next bad => exact .inr ⟨_, rfl, .setting (Bool.eq_false_iff.2 bad)⟩
  · obtain ⟨placed, hplaced, rest⟩ := c.passes_succeed h.sound
    refine ⟨placed, hplaced, fun paged hpaged => ?_⟩
    obtain ⟨settled, hsettled, -, rest⟩ := rest paged hpaged
    exact ⟨settled, hsettled, rest⟩

/-- The payments of an order, the latest of them. -/
def paymentsOfOrder : Select :=
  ⟨"p", [⟨"id", .column "x" "id", .int⟩], some (.table "payments" "x"),
    some (.binary .eq (.column "x" "order") (.column "a" "id")),
    [⟨.column "x" "date", .descending⟩], [], [], false, none, some 1, false⟩

def ordersByDate : Select :=
  ⟨"a", [⟨"id", .column "o" "id", .int⟩, ⟨"customer", .column "o" "customer", .int⟩],
    some (.table "orders" "o"), none, [⟨.column "o" "date", .ascending⟩], [], [], false, none, none,
    true⟩

/-- A page of the paid orders with the names of their customers. -/
def paidOrders : Select :=
  ⟨"q", [⟨"name", .column "c" "name", .string⟩, ⟨"id", .column "a" "id", .int⟩],
    some (.join .inner (.subquery ordersByDate) (.table "customers" "c")
      (some (.binary .eq (.column "a" "customer") (.column "c" "id")))),
    some (.existsQuery paymentsOfOrder), [], [], [], false, some 5, some 10, false⟩

def orderCompiler : Compiler where
  mapping := ⟨[⟨"Order", [⟨"id", "id", .int⟩, ⟨"customer", "name", .string⟩]⟩]⟩

/-- Two pages, one of them in a filter, and an order that comes from below a join. -/
theorem lower_ok_or_obstacle_paidOrders :
    (Statement.query ⟨paidOrders, .entity "Order" []⟩).Lowerable ∧
      ∃ s', (orderCompiler.lower (.query ⟨paidOrders, .entity "Order" []⟩)).result = .ok s' ∧
        s'.check = .ok () := by
  have lowerable : (Statement.query ⟨paidOrders, .entity "Order" []⟩).Lowerable := by
    refine ⟨by cbv, ?_, fun q hq => ?_, fun p hp => ?_⟩
    · unfold Statement.NaNFree
      decide
    · have held : q = paidOrders ∨ q = ordersByDate ∨ q = paymentsOfOrder := by
        simpa [Statement.nodes, Statement.queries, Projection.nodes, Projector.exprs, paidOrders,
          ordersByDate, paymentsOfOrder, Select.nodes, Source.nodesOption, Source.nodes,
          Expr.nodesOption, Expr.nodes] using hq
      rcases held with rfl | rfl | rfl
      · refine ⟨by decide, by decide, ?_⟩
        rintro source ⟨⟩
        refine ⟨trivial, trivial, ?_⟩
        rintro e ⟨⟩
        decide
      all_goals
        refine ⟨by decide, by decide, ?_⟩
        rintro source ⟨⟩
        trivial
    · obtain rfl := List.mem_singleton.1 hp
      decide
  refine ⟨lowerable, (lower_ok_or_obstacle orderCompiler _ lowerable).1.resolve_right ?_⟩
  rintro ⟨failure, fails, -⟩
  have succeeds : (orderCompiler.passes (.query ⟨paidOrders, .entity "Order" []⟩)).result.isOk := by
    cbv
  rw [result_lower, if_pos (by decide)] at fails
  rw [fails] at succeeds
  cases succeeds

end Compiler

end HiveQuery
