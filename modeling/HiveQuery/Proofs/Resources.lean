import HiveQuery.Proofs.PageLiterals
import HiveQuery.Proofs.Passage
/-!
# Resources

A function call may need a resource file, and a statement is submitted with the files of all its
calls. The passes copy, move and drop expressions; a call that they lose sight of would be submitted
without its file. What occurs in a statement is said here part by part (`Node.Has`) and found to be
what the traversal lists (`Statement.contains_iff`). Through all passes the calls that are left are
calls of the statement (`Compiler.Lowers.allNodes`).
-/

namespace HiveQuery

open Outcome Relation

/-! ## What occurs in a statement -/

namespace Node

/-- **The parts that a node has**: of a select what it reads and the expressions of its clauses, of
a source the select or the sides and the condition of a join, of an expression what it is made
of. -/
inductive Has : Node → Node → Prop
  | source {s : Select} {source : Source} (h : s.source = some source) :
      Has (.select s) (.source source)
  | column {s : Select} {c : Column} (h : c ∈ s.columns) : Has (.select s) (.expr c.expr)
  | filter {s : Select} {e : Expr} (h : s.filter = some e) : Has (.select s) (.expr e)
  | ordering {s : Select} {t : OrderTerm} (h : t ∈ s.ordering) : Has (.select s) (.expr t.expr)
  | grouping {s : Select} {e : Expr} (h : e ∈ s.grouping) : Has (.select s) (.expr e)
  | clustering {s : Select} {e : Expr} (h : e ∈ s.clustering) : Has (.select s) (.expr e)
  | subquery (query : Select) : Has (.source (.subquery query)) (.select query)
  | joinLeft (kind : JoinKind) (left right : Source) (condition : Option Expr) :
      Has (.source (.join kind left right condition)) (.source left)
  | joinRight (kind : JoinKind) (left right : Source) (condition : Option Expr) :
      Has (.source (.join kind left right condition)) (.source right)
  | joinCondition (kind : JoinKind) (left right : Source) (condition : Expr) :
      Has (.source (.join kind left right (some condition))) (.expr condition)
  | binaryLeft (op : BinaryOp) (left right : Expr) :
      Has (.expr (.binary op left right)) (.expr left)
  | binaryRight (op : BinaryOp) (left right : Expr) :
      Has (.expr (.binary op left right)) (.expr right)
  | unary (op : UnaryOp) (operand : Expr) : Has (.expr (.unary op operand)) (.expr operand)
  | isNull (operand : Expr) (negated : Bool) : Has (.expr (.isNull operand negated)) (.expr operand)
  | cast (operand : Expr) (type : DataType) : Has (.expr (.cast operand type)) (.expr operand)
  | branchCondition {branches : List Branch} {b : Branch} (h : b ∈ branches)
      (otherwise : Option Expr) : Has (.expr (.caseWhen branches otherwise)) (.expr b.condition)
  | branchResult {branches : List Branch} {b : Branch} (h : b ∈ branches)
      (otherwise : Option Expr) : Has (.expr (.caseWhen branches otherwise)) (.expr b.result)
  | otherwise (branches : List Branch) (e : Expr) :
      Has (.expr (.caseWhen branches (some e))) (.expr e)
  | argument (name : String) {args : List Expr} {e : Expr} (h : e ∈ args)
      (resource : Option String) : Has (.expr (.call name args resource)) (.expr e)
  | aggregated (function : AggregateFunction) (e : Expr) (distinct : Bool) :
      Has (.expr (.aggregate function (some e) distinct)) (.expr e)
  | windowTerm {order : List OrderTerm} {t : OrderTerm} (h : t ∈ order) :
      Has (.expr (.rowNumber order)) (.expr t.expr)
  | scalarQuery (query : Select) : Has (.expr (.scalarQuery query)) (.select query)
  | existsQuery (query : Select) : Has (.expr (.existsQuery query)) (.select query)
  | inOperand (operand : Expr) (query : Select) :
      Has (.expr (.inQuery operand query)) (.expr operand)
  | inQuery (operand : Expr) (query : Select) :
      Has (.expr (.inQuery operand query)) (.select query)

/-- The parts of a node in the order in which they are read. -/
def children : Node → List Node
  | select s => s.source.toList.map source ++ s.clauses.map expr
  | source (.table ..) => []
  | source (.subquery query) => [select query]
  | source (.join _ left right condition) =>
    source left :: source right :: condition.toList.map expr
  | expr e => e.parts.map expr ++ e.query?.toList.map select

/-- What a node has is listed among its children. -/
theorem Has.mem_children {a b : Node} (h : a.Has b) : b ∈ a.children := by
  cases h with
  | column h =>
    exact List.mem_append_right _ (List.mem_map_of_mem (Select.mem_clauses_of_columns h))
  | ordering h =>
    exact List.mem_append_right _ (List.mem_map_of_mem (Select.mem_clauses_of_ordering h))
  | branchCondition h | branchResult h =>
    exact List.mem_append_left _ (List.mem_map_of_mem
      (List.mem_append_left _ (List.mem_flatMap_of_mem h (by simp))))
  | windowTerm h =>
    exact List.mem_append_left _ (List.mem_map_of_mem (List.mem_map_of_mem h))
  | _ => simp_all [children, Select.clauses, Expr.parts, Expr.query?]

/-- A select has the expressions of its clauses. -/
theorem has_of_mem_clauses {s : Select} {e : Expr} (h : e ∈ s.clauses) :
    (select s).Has (expr e) := by
  simp only [Select.clauses, List.mem_append, List.mem_map, Option.mem_toList] at h
  rcases h with (((⟨c, hc, rfl⟩ | he) | ⟨t, ht, rfl⟩) | he) | he
  · exact .column hc
  · exact .filter he
  · exact .ordering ht
  · exact .grouping he
  · exact .clustering he

/-- An expression has its parts, -/
theorem has_of_mem_parts {e p : Expr} (h : p ∈ e.parts) : (expr e).Has (expr p) := by
  cases e with
  | column | literal | generatedId | scalarQuery | existsQuery => cases h
  | binary op left right =>
    rcases List.mem_pair.1 h with rfl | rfl
    · exact .binaryLeft op p right
    · exact .binaryRight op left p
  | unary op | isNull _ negated | cast _ type | inQuery _ query =>
    obtain rfl := List.mem_singleton.1 h
    constructor
  | caseWhen branches otherwise =>
    rcases List.mem_append.1 h with h | h
    · obtain ⟨b, hb, hp⟩ := List.mem_flatMap.1 h
      rcases List.mem_pair.1 hp with rfl | rfl
      · exact .branchCondition hb otherwise
      · exact .branchResult hb otherwise
    · rw [Option.mem_toList.1 h]
      exact .otherwise branches p
  | call name args resource => exact .argument name h resource
  | aggregate function arg distinct =>
    rw [Option.mem_toList.1 h]
    exact .aggregated function p distinct
  | rowNumber order =>
    obtain ⟨t, ht, rfl⟩ := List.mem_map.1 h
    exact .windowTerm ht

/-- and the select of its subquery. -/
theorem has_of_query? {e : Expr} {q : Select} (h : e.query? = some q) :
    (expr e).Has (select q) := by
  cases e with
  | scalarQuery query | existsQuery query | inQuery operand query =>
    obtain rfl := Option.some.inj h
    constructor
  | _ => cases h

/-- **The parts of a node are its children**, and no part is left out. -/
theorem has_iff_mem_children {a b : Node} : a.Has b ↔ b ∈ a.children := by
  refine ⟨Has.mem_children, fun h => ?_⟩
  cases a with
  | select s =>
    rcases List.mem_append.1 h with h | h
    · obtain ⟨source, hs, rfl⟩ := List.mem_map.1 h
      exact .source (Option.mem_toList.1 hs)
    · obtain ⟨e, he, rfl⟩ := List.mem_map.1 h
      exact has_of_mem_clauses he
  | source s =>
    cases s with
    | table => cases h
    | subquery query =>
      obtain rfl := List.mem_singleton.1 h
      exact .subquery query
    | join kind left right condition =>
      simp only [children, List.mem_cons, List.mem_map, Option.mem_toList] at h
      rcases h with rfl | rfl | ⟨e, rfl, rfl⟩
      · exact .joinLeft kind left right condition
      · exact .joinRight kind left right condition
      · exact .joinCondition kind left right e
  | expr e =>
    rcases List.mem_append.1 h with h | h
    · obtain ⟨p, hp, rfl⟩ := List.mem_map.1 h
      exact has_of_mem_parts hp
    · obtain ⟨q, hq, rfl⟩ := List.mem_map.1 h
      exact has_of_query? (Option.mem_toList.1 hq)

/-- The node and all below it. -/
def nodes : Node → List Node
  | select s => s.nodes
  | source s => s.nodes
  | expr e => e.nodes

/-- The nodes of a node are itself and those of its children. -/
theorem nodes_eq (n : Node) : n.nodes = n :: n.children.flatMap nodes := by
  cases n with
  | select s =>
    simp only [nodes, Select.nodes_eq, children, List.flatMap_append, List.flatMap_map]
  | source s =>
    cases s with
    | table | subquery => simp [nodes, Source.nodes, children]
    | join => simp [nodes, Source.nodes, children, Expr.nodesOption_eq, List.flatMap_map]
  | expr e =>
    rw [nodes, Expr.nodes_eq, children, List.flatMap_append, List.flatMap_map, List.flatMap_map]
    rfl

/-- **The traversal lists what is reached from part to part.** -/
theorem mem_nodes_iff {a n : Node} : n ∈ a.nodes ↔ ReflTransGen Has a n := by
  constructor
  · -- by induction on the nodes below, of which a part has fewer
    intro h
    induction hk : a.nodes.length using Nat.strong_induction_on generalizing a with
    | _ k ih =>
      rw [nodes_eq] at h hk
      rcases List.mem_cons.1 h with rfl | h
      · exact .refl
      · obtain ⟨b, hb, hn⟩ := List.mem_flatMap.1 h
        have fewer : b.nodes.length ≤ (a.children.flatMap nodes).length := by
          rw [List.flatMap_def]
          exact (List.sublist_flatten_of_mem (List.mem_map_of_mem hb)).length_le
        rw [List.length_cons] at hk
        exact .head (has_iff_mem_children.2 hb) (ih _ (by omega) hn rfl)
  · intro h
    induction h using ReflTransGen.head_induction_on with
    | refl =>
      rw [nodes_eq]
      exact List.mem_cons_self
    | head has _ hn =>
      rw [nodes_eq]
      exact List.mem_cons_of_mem _ (List.mem_flatMap_of_mem has.mem_children hn)

end Node

namespace Statement

/-- **What occurs in a statement**: all that is reached from the select of a query or from what its
projector reads, and in a batch all that occurs in one of its statements. -/
inductive Contains : Statement → Node → Prop
  | select {select : Select} {n : Node} (h : ReflTransGen Node.Has (.select select) n)
      (projector : Projector) : Contains (.query ⟨select, projector⟩) n
  | binding (select : Select) (name : String) {bindings : List Binding} {b : Binding}
      (hb : b ∈ bindings) {n : Node} (h : ReflTransGen Node.Has (.expr b.expr) n) :
      Contains (.query ⟨select, .entity name bindings⟩) n
  | scalar (select : Select) {e : Expr} {n : Node} (h : ReflTransGen Node.Has (.expr e) n) :
      Contains (.query ⟨select, .scalar e⟩) n
  | member {statements : List Statement} {s : Statement} (hs : s ∈ statements) {n : Node}
      (h : Contains s n) : Contains (.batch statements) n

/-- **A query contains what its traversal lists.** -/
theorem contains_query_iff {p : Projection} {n : Node} :
    (query p).Contains n ↔ n ∈ p.nodes := by
  obtain ⟨select, projector⟩ := p
  rw [Projection.nodes, List.mem_append, List.mem_flatMap]
  constructor
  · rintro (⟨h, -⟩ | ⟨-, -, hb, h⟩ | ⟨-, h⟩)
    · exact .inl (Node.mem_nodes_iff.2 h)
    · exact .inr ⟨_, List.mem_map_of_mem hb, Node.mem_nodes_iff.2 h⟩
    · exact .inr ⟨_, List.mem_singleton_self _, Node.mem_nodes_iff.2 h⟩
  · rintro (h | ⟨e, he, h⟩)
    · exact .select (Node.mem_nodes_iff.1 h) projector
    · cases projector with
      | entity name bindings =>
        obtain ⟨b, hb, rfl⟩ := List.mem_map.1 he
        exact .binding select name hb (Node.mem_nodes_iff.1 h)
      | scalar =>
        obtain rfl := List.mem_singleton.1 he
        exact .scalar select (Node.mem_nodes_iff.1 h)

/-- **A statement contains what its traversal lists.** By induction on the batches. -/
theorem contains_iff {s : Statement} {n : Node} : s.Contains n ↔ n ∈ s.nodes := by
  induction s using batch_induction with
  | query p =>
    rw [contains_query_iff, nodes, queries, List.flatMap_singleton]
  | batch ss ih =>
    rw [nodes, queries, queriesList_eq, List.flatMap_assoc, List.mem_flatMap]
    constructor
    · intro h
      cases h with
      | member hs h => exact ⟨_, hs, (ih _ hs).1 h⟩
    · rintro ⟨s, hs, h⟩
      exact .member hs ((ih s hs).2 h)

/-- Whether a function call in the statement needs the resource. -/
def Needs (s : Statement) (path : String) : Prop :=
  ∃ name args, s.Contains (.expr (.call name args (some path)))

/-- A resource is needed exactly if a node that is listed needs it. -/
theorem needs_iff {s : Statement} {path : String} :
    s.Needs path ↔ ∃ n ∈ s.nodes, n.resource? = some path := by
  constructor
  · rintro ⟨name, args, h⟩
    exact ⟨_, contains_iff.1 h, rfl⟩
  · rintro ⟨n, hn, needs⟩
    cases n with
    | select | source => cases needs
    | expr e =>
      cases e with
      | call name args =>
        obtain rfl := needs
        exact ⟨name, args, contains_iff.2 hn⟩
      | _ => cases needs

end Statement

/-! ## First occurrences -/

/-- One more item is kept if it is new. -/
theorem firstOccurrences_append_singleton (items : List String) (item : String) :
    firstOccurrences (items ++ [item]) =
      if item ∈ firstOccurrences items then firstOccurrences items
      else firstOccurrences items ++ [item] := by
  simp [firstOccurrences, List.foldl_append]

/-- Dropping repeats loses no item, -/
theorem mem_firstOccurrences_iff {items : List String} {item : String} :
    item ∈ firstOccurrences items ↔ item ∈ items := by
  induction items using List.reverseRecOn with
  | nil => simp [firstOccurrences]
  | append_singleton items x ih =>
    rw [firstOccurrences_append_singleton]
    split <;> grind

/-- and leaves none twice. -/
theorem nodup_firstOccurrences (items : List String) : (firstOccurrences items).Nodup := by
  induction items using List.reverseRecOn with
  | nil => exact List.nodup_nil
  | append_singleton items x ih =>
    rw [firstOccurrences_append_singleton]
    split
    · exact ih
    · next new => exact List.nodup_append.2 ⟨ih, by simp, by grind⟩

/-- What comes first in the list comes first among the items that the list was made of. -/
theorem pairwise_firstOccurrences {α : Type} (f : α → Option String) (as : List α) :
    (firstOccurrences (as.filterMap f)).Pairwise fun x y =>
      as.findIdx (f · == some x) < as.findIdx (f · == some y) := by
  induction as using List.reverseRecOn with
  | nil => exact .nil
  | append_singleton as a ih =>
    have found {x : String} (hx : x ∈ firstOccurrences (as.filterMap f)) :
        as.findIdx (f · == some x) < as.length := by
      rw [mem_firstOccurrences_iff, List.mem_filterMap] at hx
      simpa using hx
    have kept : (firstOccurrences (as.filterMap f)).Pairwise fun x y =>
        (as ++ [a]).findIdx (f · == some x) < (as ++ [a]).findIdx (f · == some y) := by
      refine ih.imp_of_mem fun hx hy before => ?_
      rwa [List.findIdx_append, List.findIdx_append, if_pos (found hx), if_pos (found hy)]
    rw [List.filterMap_append]
    cases hx : f a with
    | none => simpa [hx] using kept
    | some x =>
      rw [List.filterMap_cons_some hx, List.filterMap_nil, firstOccurrences_append_singleton]
      split
      · exact kept
      · next new =>
        refine List.pairwise_append.2 ⟨kept, List.pairwise_singleton _ _, fun y hy z hz => ?_⟩
        obtain rfl := List.mem_singleton.1 hz
        have missing : ¬ as.findIdx (f · == some z) < as.length := by
          rw [mem_firstOccurrences_iff, List.mem_filterMap] at new
          simpa using new
        rw [List.findIdx_append, List.findIdx_append, if_pos (found hy), if_neg missing]
        exact Nat.lt_of_lt_of_le (found hy) (Nat.le_add_left _ _)

/-- **The resources of a statement are those that its calls need**, and no others. -/
theorem Statement.mem_resources_iff {s : Statement} {path : String} :
    path ∈ s.resources ↔ s.Needs path := by
  rw [resources, mem_firstOccurrences_iff, List.mem_filterMap, needs_iff]

/-! ## The passes -/

section Passes

variable {P : Node → Prop} (inherent : Node.Inherent P) {p p' : Projection}
include inherent

/-- Placing orderings moves expressions, and makes none but references. -/
theorem Projection.AllNodes.placed (all : p.AllNodes P) : p.placed.AllNodes P := by
  obtain ⟨select, exprs⟩ := Projection.allNodes_iff.1 all
  exact Projection.allNodes_iff.2 ⟨select.exposed inherent .outermost, exprs⟩

/-- Paging adds references, a row number and bounds. -/
theorem Projection.AllNodes.of_paging {rowNumberColumn : String} {supply supply' : LabelSupply}
    (all : p.AllNodes P)
    (h : outcome (p.transform (.paging rowNumberColumn)) supply = .ok (p', supply')) :
    p'.AllNodes P := by
  refine all.of_transform (Transform.paging_keepsLeaves rowNumberColumn) inherent
    (fun depth s st s' st' all act => ?_) h
  rcases Select.of_select_paging act with page | ⟨-, -, rfl, -⟩
  · exact all.page inherent page
  · exact all

/-- A conformed query is projected by references alone. -/
theorem Projection.AllNodes.of_conform {mapping : Mapping} {byPosition : Bool}
    (all : p.AllNodes P) (h : (p.conform mapping byPosition).result = .ok p') : p'.AllNodes P := by
  rcases Projection.of_conform h with ⟨-, -, rfl⟩ |
    ⟨_, _, entity, _, -, -, rfl, -, -, exprs⟩
  · exact all
  · refine Projection.allNodes_iff.2
      ⟨.of_columns exprs inherent (Projection.allNodes_iff.1 all).1, fun e he => ?_⟩
    simp only [Entity.projector, Projector.exprs, List.map_map, List.mem_map] at he
    obtain ⟨member, -, rfl⟩ := he
    exact .column inherent _ _

/-- Merging columns drops some and redirects references. -/
theorem Projection.AllNodes.of_mergeColumns (all : p.AllNodes P)
    (h : p.mergeColumns.result = .ok p') : p'.AllNodes P := by
  obtain ⟨st', run⟩ := Traced.run'_eq_ok_iff.1 h
  exact all.of_transform Transform.merging_thins.leaves inherent
    (fun _ _ _ _ _ => Transform.merging_thins.allNodes inherent) run

/-- Pruning columns drops some. -/
theorem Projection.AllNodes.of_pruneColumns (all : p.AllNodes P)
    (h : p.pruneColumns.result = .ok p') : p'.AllNodes P := by
  refine pruneColumns_induction (P := fun p => p.AllNodes P) (fun p p' all round => ?_) all h
  have thins := Transform.keepColumns_thins p.columnUsage.keeps
  have run : outcome (p.transform (.keepColumns p.columnUsage.keeps)) () = .ok (p', ()) :=
    Traced.outcome_eq_ok_iff.2 round
  exact all.of_transform thins.leaves inherent (fun _ _ _ _ _ => thins.allNodes inherent) run

/-- **What is inherent in the nodes of a query is kept all its way through the passes.** -/
theorem Compiler.Lowers.allNodes {c : Compiler} (h : c.Lowers p p') (all : p.AllNodes P) :
    p'.AllNodes P := by
  obtain ⟨-, page, conform, merge, prune, -⟩ := h
  have paged := (all.placed inherent).of_paging inherent page
  have conformed := (paged.placed inherent).of_conform inherent conform
  exact (conformed.of_mergeColumns inherent merge).of_pruneColumns inherent prune

end Passes

/-- What is asked of the resource that a node needs is inherent in the node. -/
theorem Node.inherent_resource? (R : String → Prop) :
    Node.Inherent fun n => ∀ path, n.resource? = some path → R path where
  plain _ none path needs := by
    rw [none] at needs
    cases needs
  congr _ same all path needs := all path (same ▸ needs)

namespace Compiler

/-- Nothing is needed after the passes that was not needed before. -/
theorem needs_of_lower {c : Compiler} {s t : Statement} (h : (c.lower s).result = .ok t)
    {path : String} (needs : t.Needs path) : s.Needs path := by
  obtain ⟨n, hn, resource⟩ := Statement.needs_iff.1 needs
  obtain ⟨p', hp', hn⟩ := List.mem_flatMap.1 hn
  obtain ⟨p, hp, lowers⟩ := exists_of_forall₂_of_mem (forall₂_lowers h) hp'
  refine lowers.allNodes (Node.inherent_resource? s.Needs) (fun m hm path needs => ?_) n hn path
    resource
  exact Statement.needs_iff.2 ⟨m, List.mem_flatMap_of_mem hp hm, needs⟩

/-- **The resources of a statement are those of its calls, through all passes.** They are listed
once each, those of all function calls that occur anywhere in the statement and no others, in the
order in which the traversal first meets them. Those of a compiled query are listed like this for
the statement that it was rendered from, and each of them is needed by the statement that was
compiled. -/
theorem resources_exact (c : Compiler) (s : Statement) :
    s.resources.Nodup ∧ (∀ path, path ∈ s.resources ↔ s.Needs path) ∧
      (s.resources.Pairwise fun a b =>
        s.nodes.findIdx (·.resource? == some a) < s.nodes.findIdx (·.resource? == some b)) ∧
      ∀ q, (c.compile s).result = .ok q →
        ∃ t, (c.lower s).result = .ok t ∧ q.resources = t.resources ∧
          (∀ path ∈ q.resources, s.Needs path) ∧ ∀ path, t.Needs path → path ∈ q.resources := by
  refine ⟨nodup_firstOccurrences _, fun path => Statement.mem_resources_iff,
    pairwise_firstOccurrences Node.resource? s.nodes, fun q h => ?_⟩
  obtain ⟨t, lower, h⟩ := Traced.result_bind_eq_ok.1 h
  obtain ⟨text, -, h⟩ := Traced.result_bind_eq_ok.1 h
  obtain rfl := Except.ok.inj h
  refine ⟨t, lower, rfl, fun path hpath => ?_, fun path => Statement.mem_resources_iff.2⟩
  exact needs_of_lower lower (Statement.mem_resources_iff.1 hpath)

/-- Orders by their score, with an account of how they were checked. -/
def scoredOrders : Select :=
  ⟨"s", [⟨"id", .column "o" "id", .int⟩,
      ⟨"check", .userCall "check" [.column "o" "state"] "checks.jar", .string⟩],
    some (.join .inner (.table "orders" "o") (.table "customers" "c")
      (some (.binary .eq (.userCall "key" [.column "o" "customer"] "keys.jar")
        (.column "c" "id")))),
    none, [⟨.userCall "score" [.column "o" "total"] "scores.jar", .descending⟩], [], [], false,
    none, none, false⟩

/-- The orders by their score alone. -/
def bestOrders : Statement :=
  .batch [.query ⟨⟨"q", [⟨"id", .column "s" "id", .int⟩], some (.subquery scoredOrders), none, [],
    [], [], false, none, none, false⟩, .scalar (.userCall "key" [.column "q" "id"] "keys.jar")⟩]

/-- The checks are pruned, and their file is not asked for. The score is now a column. -/
theorem resources_exact_bestOrders :
    bestOrders.resources = ["keys.jar", "checks.jar", "scores.jar"] ∧
      ∃ q, (({} : Compiler).compile bestOrders).result = .ok q ∧
        q.resources = ["keys.jar", "scores.jar"] ∧ ∀ path ∈ q.resources, bestOrders.Needs path := by
  have listed : (({} : Compiler).compile bestOrders).result.map CompiledQuery.resources =
      .ok ["keys.jar", "scores.jar"] := by
    rw [compile, Traced.result_bind, result_lower, if_pos (by decide)]
    cbv
  refine ⟨by cbv, ?_⟩
  cases run : (({} : Compiler).compile bestOrders).result with
  | error failure =>
    rw [run] at listed
    cases listed
  | ok q =>
    rw [run] at listed
    obtain ⟨-, -, -, compiled⟩ := resources_exact {} bestOrders
    obtain ⟨-, -, -, needed, -⟩ := compiled q run
    exact ⟨q, rfl, Except.ok.inj listed, needed⟩

end Compiler

end HiveQuery
