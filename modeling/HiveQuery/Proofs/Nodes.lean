import HiveQuery.Proofs.Levels
import HiveQuery.Scope
import HiveQuery.Tree.Equality
import Mathlib.Data.List.Flatten
import Mathlib.Data.List.Perm.Subperm
/-!
# The nodes of a select, level by level

What is asked of all nodes of a tree, such as that no literal is a NaN or that no label is declared
twice, is handed down to the clauses of a select and to the selects below it. A tree without a NaN
equals itself; this is all that the passes need of equality.
-/

namespace HiveQuery

/-! ## Nodes -/

theorem Source.nodesOption_eq (o : Option Source) :
    Source.nodesOption o = o.toList.flatMap Source.nodes := by
  cases o <;> simp [Source.nodesOption]

/-- A select comes before the nodes of its source, and these before the nodes of its clauses. -/
theorem Select.nodes_eq (s : Select) :
    s.nodes = .select s ::
      (s.source.toList.flatMap Source.nodes ++ s.clauses.flatMap Expr.nodes) := by
  cases s
  simp [Select.nodes, Select.clauses, Source.nodesOption_eq, Expr.nodesOption_eq, List.flatMap_map]

/-- A query node of an expression is one of its subqueries. -/
theorem Expr.exists_query?_of_mem_subqueries {e : Expr} {q : Select} (h : q ∈ e.subqueries) :
    ∃ e', Node.expr e' ∈ e.nodes ∧ e'.query? = some q := by
  induction e using Expr.parts_induction with
  | step e ih =>
    rw [Expr.subqueries_eq, List.mem_append, List.mem_flatMap, Option.mem_toList] at h
    rw [Expr.nodes_eq]
    rcases h with ⟨p, hp, hq⟩ | hq
    · obtain ⟨e', he', hquery⟩ := ih p hp hq
      exact ⟨e', List.mem_cons_of_mem _ (List.mem_append_left _ (List.mem_flatMap_of_mem hp he')),
        hquery⟩
    · exact ⟨e, List.mem_cons_self, hq⟩

/-- What a subquery of a source holds, the source holds. -/
theorem Source.mem_nodes_of_select {source : Source} {q : Select} (h : q ∈ source.selects) :
    q.nodes ⊆ source.nodes := by
  induction source using Source.join_induction with
  | table => simp [Source.selects] at h
  | subquery query =>
    obtain rfl := List.mem_singleton.1 h
    rw [Source.nodes]
    exact List.subset_cons_self _ _
  | join kind left right condition ihl ihr =>
    rw [Source.nodes]
    intro n hn
    refine List.mem_cons_of_mem _ (List.mem_append_left _ ?_)
    rcases List.mem_append.1 h with h | h
    · exact List.mem_append_left _ (ihl h hn)
    · exact List.mem_append_right _ (ihr h hn)

/-- What a condition of a join holds, the join holds. -/
theorem Source.mem_nodes_of_condition {source : Source} {e : Expr} (h : e ∈ source.conditions) :
    e.nodes ⊆ source.nodes := by
  induction source using Source.join_induction with
  | table => simp [Source.conditions] at h
  | subquery => simp [Source.conditions] at h
  | join kind left right condition ihl ihr =>
    rw [Source.nodes, Expr.nodesOption_eq]
    intro n hn
    refine List.mem_cons_of_mem _ ?_
    rw [Source.conditions, List.mem_append, List.mem_append] at h
    rcases h with (h | h) | h
    · exact List.mem_append_left _ (List.mem_append_left _ (ihl h hn))
    · exact List.mem_append_left _ (List.mem_append_right _ (ihr h hn))
    · exact List.mem_append_right _ (List.mem_flatMap_of_mem h hn)

/-! What holds of all nodes below a source or a select, where it says nothing of sources, is a
matter of the selects and the expressions there. -/

section

variable {P : Node → Prop} (hP : ∀ source, P (.source source))
include hP

/-- What holds of every source holds of all nodes of one if it holds of those of its subqueries and
of its conditions. -/
theorem Source.forall_nodes_iff {source : Source} :
    (∀ n ∈ source.nodes, P n) ↔ (∀ q ∈ source.selects, ∀ n ∈ q.nodes, P n) ∧
      ∀ e ∈ source.conditions, ∀ n ∈ e.nodes, P n := by
  induction source using Source.join_induction with
  | table => simp [Source.nodes, Source.selects, Source.conditions, hP]
  | subquery query => simp [Source.nodes, Source.selects, Source.conditions, hP]
  | join kind left right condition ihl ihr =>
    simp only [Source.nodes, Source.selects, Source.conditions, List.forall_mem_cons,
      List.forall_mem_append, hP, true_and, ihl, ihr, Expr.nodesOption_eq,
      List.forall_mem_flatMap]
    tauto

/-- What holds of every source holds of all nodes of a select if it holds of the select and of all
nodes directly below it. -/
theorem Select.forall_nodes_iff {s : Select} :
    (∀ n ∈ s.nodes, P n) ↔ P (.select s) ∧ (∀ q ∈ s.sources, ∀ n ∈ q.nodes, P n) ∧
      (∀ e ∈ s.conditions, ∀ n ∈ e.nodes, P n) ∧ ∀ e ∈ s.clauses, ∀ n ∈ e.nodes, P n := by
  have source : (∀ source ∈ s.source, ∀ n ∈ source.nodes, P n) ↔
      (∀ q ∈ s.sources, ∀ n ∈ q.nodes, P n) ∧ ∀ e ∈ s.conditions, ∀ n ∈ e.nodes, P n := by
    unfold Select.sources Select.conditions
    cases s.source <;> simp [Source.forall_nodes_iff hP]
  rw [← and_assoc (b := ∀ e ∈ s.conditions, _), ← source, Select.nodes_eq]
  simp only [List.forall_mem_cons, List.forall_mem_append, List.forall_mem_flatMap,
    Option.mem_toList, Option.mem_def]

end

/-! ## Literals and resources

A node tells whether it is a NaN and which resource it needs. What is asked of no more than this is
kept wherever an expression stays what it is and only its parts are replaced. -/

/-- Whether the node is a NaN. -/
def Node.isNaN : Node → Bool
  | .expr (.literal (.float x)) => x.isNaN
  | _ => false

@[simp] theorem Node.isNaN_select (s : Select) : (Node.select s).isNaN = false :=
  rfl

@[simp] theorem Node.isNaN_source (s : Source) : (Node.source s).isNaN = false :=
  rfl

/-- A property that looks at no more of a node than whether it is a NaN and which resource it needs,
and that a node without either has. -/
structure Node.Inherent (P : Node → Prop) : Prop where
  plain : ∀ {n : Node}, n.isNaN = false → n.resource? = none → P n
  congr : ∀ {n n' : Node}, n'.isNaN = n.isNaN → n'.resource? = n.resource? → P n → P n'

def Expr.AllNodes (P : Node → Prop) (e : Expr) : Prop :=
  ∀ n ∈ e.nodes, P n

def Select.AllNodes (P : Node → Prop) (s : Select) : Prop :=
  ∀ n ∈ s.nodes, P n

def Projection.AllNodes (P : Node → Prop) (p : Projection) : Prop :=
  ∀ n ∈ p.nodes, P n

section AllNodes

variable {P : Node → Prop}

/-- The nodes of an expression are the expression, the nodes of its parts and those of its
select. -/
theorem Expr.allNodes_iff {e : Expr} :
    e.AllNodes P ↔ P (.expr e) ∧ (∀ p ∈ e.parts, p.AllNodes P) ∧ ∀ q ∈ e.query?, q.AllNodes P := by
  unfold Expr.AllNodes Select.AllNodes
  rw [Expr.nodes_eq]
  simp only [List.forall_mem_cons, List.forall_mem_append, List.forall_mem_flatMap,
    Option.mem_toList, Option.mem_def]

/-- What holds of all nodes of an expression holds in its subqueries. -/
theorem Expr.AllNodes.subquery {e : Expr} (h : e.AllNodes P) {q : Select} (hq : q ∈ e.subqueries) :
    q.AllNodes P := by
  induction e using Expr.parts_induction with
  | step e ih =>
    obtain ⟨-, hparts, hquery⟩ := Expr.allNodes_iff.1 h
    rw [Expr.subqueries_eq, List.mem_append, List.mem_flatMap, Option.mem_toList] at hq
    rcases hq with ⟨p, hp, hq⟩ | hq
    · exact ih p hp (hparts p hp) hq
    · exact hquery q hq

/-- The nodes of a query are those of its select and those of its projector. -/
theorem Projection.allNodes_iff {p : Projection} :
    p.AllNodes P ↔ p.select.AllNodes P ∧ ∀ e ∈ p.projector.exprs, e.AllNodes P := by
  simp only [Projection.AllNodes, Projection.nodes, List.forall_mem_append, List.forall_mem_flatMap]
  rfl

/-- An expression with nothing below it is its only node. -/
theorem Expr.AllNodes.single {e : Expr} (alone : e.nodes = [.expr e]) (h : P (.expr e)) :
    e.AllNodes P := by
  rw [Expr.AllNodes, alone]
  exact List.forall_mem_singleton.2 h

variable (inherent : Node.Inherent P)
include inherent

/-- An inherent property does not depend on the parts of an expression. -/
theorem Node.Inherent.withParts {e : Expr} (h : P (.expr e)) (ps : List Expr)
    (query : Option Select) : P (.expr (e.withParts ps query)) := by
  refine inherent.congr ?_ ?_ h <;> unfold Expr.withParts <;> split <;> rfl

/-- A reference is neither a NaN nor needs a resource. -/
theorem Expr.AllNodes.column (label name : String) : (Expr.column label name).AllNodes P :=
  Expr.AllNodes.single rfl (inherent.plain rfl rfl)

/-- Of an inherent property, the select itself and the tables need not be asked. -/
theorem Select.allNodes_iff {s : Select} :
    s.AllNodes P ↔ (∀ q ∈ s.sources, q.AllNodes P) ∧ (∀ e ∈ s.conditions, e.AllNodes P) ∧
      ∀ e ∈ s.clauses, e.AllNodes P :=
  (Select.forall_nodes_iff fun _ => inherent.plain rfl rfl).trans
    (and_iff_right (inherent.plain rfl rfl))

theorem Select.AllNodes.clause {s : Select} (h : s.AllNodes P) {e : Expr} (he : e ∈ s.clauses) :
    e.AllNodes P :=
  ((Select.allNodes_iff inherent).1 h).2.2 e he

/-- A select with the source of another one and clauses of its own. -/
theorem Select.AllNodes.of_source {s q : Select} (h : s.AllNodes P) (source : q.source = s.source)
    (clauses : ∀ e ∈ q.clauses, e.AllNodes P) : q.AllNodes P := by
  obtain ⟨sources, conditions, -⟩ := (Select.allNodes_iff inherent).1 h
  refine (Select.allNodes_iff inherent).2 ⟨?_, ?_, clauses⟩
  · rw [Select.sources, source]
    exact sources
  · rw [Select.conditions, source]
    exact conditions

/-- What holds of all nodes of a select holds in the selects directly below it. -/
theorem Select.AllNodes.child {s : Select} (h : s.AllNodes P) {q : Select} (hq : q ∈ s.children) :
    q.AllNodes P := by
  obtain ⟨hsources, hconditions, hclauses⟩ := (Select.allNodes_iff inherent).1 h
  unfold Select.children at hq
  simp only [List.mem_append, List.mem_flatMap] at hq
  rcases hq with (hq | ⟨e, he, hq⟩) | ⟨e, he, hq⟩
  · exact hsources q hq
  · exact (hconditions e he).subquery hq
  · exact (hclauses e he).subquery hq

end AllNodes

/-! ## Literals that are no NaN -/

/-- Whether a node is a NaN is inherent in it. -/
theorem Node.inherent_isNaN : Node.Inherent fun n => n.isNaN = false where
  plain number _ := number
  congr same _ number := same.trans number

def Expr.NaNFree (e : Expr) : Prop :=
  ∀ n ∈ e.nodes, n.isNaN = false

def Source.NaNFree (s : Source) : Prop :=
  ∀ n ∈ s.nodes, n.isNaN = false

def Select.NaNFree (s : Select) : Prop :=
  ∀ n ∈ s.nodes, n.isNaN = false

def Statement.NaNFree (s : Statement) : Prop :=
  ∀ n ∈ s.nodes, n.isNaN = false

/-- There is no NaN in an expression if it is none itself and none stands below it. -/
theorem Expr.naNFree_iff {e : Expr} :
    e.NaNFree ↔ (Node.expr e).isNaN = false ∧ (∀ p ∈ e.parts, p.NaNFree) ∧
      ∀ q ∈ e.query?, q.NaNFree :=
  Expr.allNodes_iff

/-- What holds of all nodes of an expression holds of all nodes of its subqueries. -/
theorem Expr.NaNFree.subquery {e : Expr} (h : e.NaNFree) {q : Select} (hq : q ∈ e.subqueries) :
    q.NaNFree :=
  Expr.AllNodes.subquery h hq

theorem Source.naNFree_iff {source : Source} :
    source.NaNFree ↔ (∀ q ∈ source.selects, q.NaNFree) ∧ ∀ e ∈ source.conditions, e.NaNFree :=
  Source.forall_nodes_iff Node.isNaN_source

/-- There is no NaN in a select if there is none directly below it. -/
theorem Select.naNFree_iff {s : Select} :
    s.NaNFree ↔ (∀ q ∈ s.sources, q.NaNFree) ∧ (∀ e ∈ s.conditions, e.NaNFree) ∧
      ∀ e ∈ s.clauses, e.NaNFree :=
  Select.allNodes_iff Node.inherent_isNaN

/-- A select with the source of one without a NaN has none if its clauses have none. -/
theorem Select.NaNFree.of_source {s q : Select} (free : s.NaNFree) (source : q.source = s.source)
    (clauses : ∀ e ∈ q.clauses, e.NaNFree) : q.NaNFree :=
  Select.AllNodes.of_source Node.inherent_isNaN free source clauses

/-- The selects below a select without a NaN have none. -/
theorem Select.NaNFree.child {s : Select} (h : s.NaNFree) {q : Select} (hq : q ∈ s.children) :
    q.NaNFree :=
  Select.AllNodes.child Node.inherent_isNaN h hq

/-! ## Equality with itself -/

mutual

/-- A data type equals itself: there are no floats in it. -/
theorem DataType.beq_self : ∀ t : DataType, t.beq t
  | .array element => by simp [DataType.beq, DataType.beq_self element]
  | .map key value => by simp [DataType.beq, DataType.beq_self key, DataType.beq_self value]
  | .struct fields => by simp [DataType.beq, DataType.beqFields_self fields]
  | .boolean | .tinyInt | .smallInt | .int | .bigInt | .float | .double | .decimal .. | .string
  | .varchar _ | .char _ | .date | .timestamp | .binary | .unknown => by simp [DataType.beq]

theorem DataType.beqFields_self : ∀ fields : List StructField, DataType.beqFields fields fields
  | [] => by simp [DataType.beqFields]
  | ⟨_, type⟩ :: fields => by
    simp [DataType.beqFields, DataType.beq_self type, DataType.beqFields_self fields]

end

instance : ReflBEq DataType :=
  ⟨fun {t} => DataType.beq_self t⟩

/-- A list whose expressions equal themselves equals itself. -/
theorem Expr.beqList_self {es : List Expr} (h : ∀ e ∈ es, e.beq e) : Expr.beqList es es := by
  induction es with
  | nil => simp [Expr.beqList]
  | cons e es ih =>
    simp only [List.forall_mem_cons] at h
    simp [Expr.beqList, h.1, ih h.2]

theorem Expr.beqOption_self {o : Option Expr} (h : ∀ e ∈ o, e.beq e) : Expr.beqOption o o := by
  cases o with
  | none => simp [Expr.beqOption]
  | some e => simpa [Expr.beqOption] using h

/-- Branches equal themselves if their conditions and results do. -/
theorem Branch.beqList_self {bs : List Branch} (h : ∀ e ∈ bs.flatMap Branch.parts, e.beq e) :
    Branch.beqList bs bs := by
  induction bs with
  | nil => simp [Branch.beqList]
  | cons b bs ih =>
    cases b
    simp only [List.flatMap_cons, List.forall_mem_append, Branch.parts_eq, List.forall_mem_cons]
      at h
    simp [Branch.beqList, h.1.1, h.1.2.1, ih h.2]

/-- Terms equal themselves if what they order by does. -/
theorem OrderTerm.beqList_self {ts : List OrderTerm} (h : ∀ t ∈ ts, t.expr.beq t.expr) :
    OrderTerm.beqList ts ts := by
  induction ts with
  | nil => simp [OrderTerm.beqList]
  | cons t ts ih =>
    cases t
    simp only [List.forall_mem_cons] at h
    simp [OrderTerm.beqList, h.1, ih h.2]

/-- Columns equal themselves if their expressions do. -/
theorem Column.beqList_self {cs : List Column} (h : ∀ c ∈ cs, c.expr.beq c.expr) :
    Column.beqList cs cs := by
  induction cs with
  | nil => simp [Column.beqList]
  | cons c cs ih =>
    cases c
    simp only [List.forall_mem_cons] at h
    simp [Column.beqList, h.1, ih h.2]

/-- An expression that is no NaN equals itself if everything directly below it does. -/
theorem Expr.beq_self_of_parts {e : Expr} (literal : (Node.expr e).isNaN = false)
    (parts : ∀ p ∈ e.parts, p.beq p) (query : ∀ q ∈ e.query?, q.beq q) : e.beq e := by
  cases e with
  | literal v =>
    cases v with
    | float x =>
      have hx : (x == x) = true := by rw [Binary64.beq_self, show x.isNaN = false from literal]; rfl
      simpa [Expr.beq, BEq.beq, Literal.beq] using hx
    | _ => simp [Expr.beq, BEq.beq, Literal.beq]
  | caseWhen branches otherwise =>
    simp only [Expr.parts, List.forall_mem_append, Option.mem_toList] at parts
    simp [Expr.beq, Branch.beqList_self parts.1, Expr.beqOption_self parts.2]
  | call name args resource =>
    simp only [Expr.parts] at parts
    simp [Expr.beq, Expr.beqList_self parts]
  | aggregate function arg distinct =>
    simp only [Expr.parts, Option.mem_toList] at parts
    simp [Expr.beq, Expr.beqOption_self parts]
  | rowNumber order =>
    simp only [Expr.parts, List.forall_mem_map] at parts
    simp [Expr.beq, OrderTerm.beqList_self parts]
  | _ => simp_all [Expr.beq, Expr.parts, Expr.query?]

/-- A source equals itself if its subqueries and conditions do. -/
theorem Source.beq_self {source : Source} (selects : ∀ q ∈ source.selects, q.beq q)
    (conditions : ∀ e ∈ source.conditions, e.beq e) : source.beq source := by
  induction source using Source.join_induction with
  | table => simp [Source.beq]
  | subquery query =>
    simp only [Source.selects, List.forall_mem_singleton] at selects
    simp [Source.beq, selects]
  | join kind left right condition ihl ihr =>
    simp only [Source.selects, Source.conditions, List.forall_mem_append, Option.mem_toList]
      at selects conditions
    simp [Source.beq, ihl selects.1 conditions.1.1, ihr selects.2 conditions.1.2,
      Expr.beqOption_self conditions.2]

/-- A select equals itself if its source and its clauses do. -/
theorem Select.beq_self_of_children {s : Select} (sources : ∀ q ∈ s.sources, q.beq q)
    (conditions : ∀ e ∈ s.conditions, e.beq e) (clauses : ∀ e ∈ s.clauses, e.beq e) :
    s.beq s := by
  obtain ⟨label, columns, source, filter, ordering, grouping, clustering, distinct, skip, take,
    reversed⟩ := s
  have hsource : Source.beqOption source source := by
    cases source with
    | none => simp [Source.beqOption]
    | some source =>
      simp only [Select.sources, Select.conditions, Option.toList_some, List.flatMap_singleton]
        at sources conditions
      simpa [Source.beqOption] using Source.beq_self sources conditions
  simp only [Select.clauses, List.forall_mem_append, List.forall_mem_map, Option.mem_toList]
    at clauses
  obtain ⟨⟨⟨⟨hcolumns, hfilter⟩, hordering⟩, hgrouping⟩, hclustering⟩ := clauses
  simp [Select.beq, hsource, Column.beqList_self hcolumns, Expr.beqOption_self hfilter,
    OrderTerm.beqList_self hordering, Expr.beqList_self hgrouping, Expr.beqList_self hclustering]

/-- By induction on the parts: an expression without a NaN equals itself if its subqueries do. -/
theorem Expr.NaNFree.beq_self_of_subqueries {e : Expr} (h : e.NaNFree)
    (subqueries : ∀ q ∈ e.subqueries, q.beq q) : e.beq e := by
  induction e using Expr.parts_induction with
  | step e ih =>
    obtain ⟨literal, parts, -⟩ := Expr.naNFree_iff.1 h
    rw [Expr.subqueries_eq] at subqueries
    simp only [List.forall_mem_append, List.forall_mem_flatMap, Option.mem_toList] at subqueries
    exact Expr.beq_self_of_parts literal
      (fun p hp => ih p hp (parts p hp) (subqueries.1 p hp)) subqueries.2

/-- **A select without a NaN equals itself.** By induction on the selects below it. -/
theorem Select.NaNFree.beq_self {s : Select} (h : s.NaNFree) : s.beq s := by
  induction s using Select.children_induction with
  | step s ih =>
    obtain ⟨-, conditions, clauses⟩ := Select.naNFree_iff.1 h
    have below := fun q hq => ih q hq (h.child hq)
    simp only [Select.children, List.forall_mem_append, List.forall_mem_flatMap] at below
    exact Select.beq_self_of_children below.1.1
      (fun e he => (conditions e he).beq_self_of_subqueries (below.1.2 e he))
      fun e he => (clauses e he).beq_self_of_subqueries (below.2 e he)

/-- **An expression without a NaN equals itself.** -/
theorem Expr.NaNFree.beq_self {e : Expr} (h : e.NaNFree) : (e == e) = true :=
  h.beq_self_of_subqueries fun _ hq => (h.subquery hq).beq_self

/-- Only a reference equals a reference, and only itself. -/
theorem Expr.beq_column_iff {e : Expr} {label name : String} :
    (e == .column label name) = true ↔ e = .column label name := by
  show e.beq (.column label name) = true ↔ _
  cases e <;> simp [Expr.beq]

/-! ## Labels -/

/-- What one item contributes stands in what all items contribute, in the same order. -/
theorem sublist_flatMap_of_mem {α β : Type} {a : α} {as : List α} (h : a ∈ as)
    (f : α → List β) : (f a).Sublist (as.flatMap f) := by
  simpa using (List.singleton_sublist.2 h).flatMap f

/-- The labels that an expression declares, all in its subqueries. -/
def Expr.labels (e : Expr) : List String :=
  e.nodes.filterMap Node.label?

def Source.labels (s : Source) : List String :=
  s.nodes.filterMap Node.label?

def Select.labels (s : Select) : List String :=
  s.nodes.filterMap Node.label?

/-- An expression declares labels in its parts and in its own subquery. -/
theorem Expr.labels_eq (e : Expr) :
    e.labels = e.parts.flatMap Expr.labels ++ e.query?.toList.flatMap Select.labels := by
  unfold Expr.labels Select.labels
  rw [Expr.nodes_eq, List.filterMap_cons_none rfl, List.filterMap_append, List.filterMap_flatMap,
    List.filterMap_flatMap]

theorem Source.labels_subquery (query : Select) :
    (Source.subquery query).labels = query.labels := by
  rw [Source.labels, Source.nodes, List.filterMap_cons_none rfl, Select.labels]

/-- A join declares what its two sides declare, and the subqueries of its condition after that. -/
theorem Source.labels_join (kind : JoinKind) (left right : Source) (condition : Option Expr) :
    (Source.join kind left right condition).labels =
      left.labels ++ right.labels ++ condition.toList.flatMap Expr.labels := by
  unfold Source.labels Expr.labels
  rw [Source.nodes, List.filterMap_cons_none rfl, List.filterMap_append, List.filterMap_append,
    Expr.nodesOption_eq, List.filterMap_flatMap]

/-- A select declares its own label first, then those of its source, then those of its clauses. -/
theorem Select.labels_eq (s : Select) :
    s.labels = s.label ::
      (s.source.toList.flatMap Source.labels ++ s.clauses.flatMap Expr.labels) := by
  unfold Select.labels Source.labels Expr.labels
  have label : Node.label? (.select s) = some s.label := rfl
  rw [Select.nodes_eq, List.filterMap_cons_some label, List.filterMap_append,
    List.filterMap_flatMap, List.filterMap_flatMap]

/-- The columns of a select declare some of its labels. -/
theorem Select.flatMap_labels_columns_sublist (s : Select) :
    (s.columns.flatMap (·.expr.labels)).Sublist s.labels := by
  rw [Select.labels_eq, Select.clauses]
  simp only [List.flatMap_append, List.append_assoc, List.flatMap_map]
  exact ((List.sublist_append_left _ _).trans (List.sublist_append_right _ _)).cons _

/-- What a subquery of an expression declares, the expression declares. -/
theorem Expr.labels_sublist_of_mem_subqueries {e : Expr} {q : Select} (h : q ∈ e.subqueries) :
    q.labels.Sublist e.labels := by
  induction e using Expr.parts_induction with
  | step e ih =>
    rw [Expr.labels_eq]
    rw [Expr.subqueries_eq, List.mem_append, List.mem_flatMap] at h
    rcases h with ⟨p, hp, hq⟩ | hq
    · exact ((ih p hp hq).trans (sublist_flatMap_of_mem hp _)).trans
        (List.sublist_append_left _ _)
    · exact (sublist_flatMap_of_mem hq _).trans (List.sublist_append_right _ _)

/-- What a subquery of a source declares, the source declares. -/
theorem Source.labels_sublist_of_mem_selects {source : Source} {q : Select}
    (h : q ∈ source.selects) : q.labels.Sublist source.labels := by
  induction source using Source.join_induction with
  | table => simp [Source.selects] at h
  | subquery query =>
    obtain rfl := List.mem_singleton.1 h
    rw [Source.labels_subquery]
  | join kind left right condition ihl ihr =>
    rw [Source.labels_join]
    rcases List.mem_append.1 h with h | h
    · exact ((ihl h).trans (List.sublist_append_left _ _)).trans (List.sublist_append_left _ _)
    · exact ((ihr h).trans (List.sublist_append_right _ _)).trans (List.sublist_append_left _ _)

/-- What a condition of a join declares, the join declares. -/
theorem Source.labels_sublist_of_mem_conditions {source : Source} {e : Expr}
    (h : e ∈ source.conditions) : e.labels.Sublist source.labels := by
  induction source using Source.join_induction with
  | table => simp [Source.conditions] at h
  | subquery => simp [Source.conditions] at h
  | join kind left right condition ihl ihr =>
    rw [Source.labels_join]
    rw [Source.conditions, List.mem_append, List.mem_append] at h
    rcases h with (h | h) | h
    · exact ((ihl h).trans (List.sublist_append_left _ _)).trans (List.sublist_append_left _ _)
    · exact ((ihr h).trans (List.sublist_append_right _ _)).trans (List.sublist_append_left _ _)
    · exact (sublist_flatMap_of_mem h _).trans (List.sublist_append_right _ _)

/-- What a select below declares, the select declares. -/
theorem Select.labels_sublist_of_mem_children {s q : Select} (h : q ∈ s.children) :
    q.labels.Sublist s.labels := by
  rw [Select.labels_eq s]
  refine List.Sublist.trans ?_ (List.sublist_cons_self _ _)
  unfold Select.children Select.sources Select.conditions at h
  simp only [List.mem_append, List.mem_flatMap] at h
  rcases h with (⟨source, hs, hq⟩ | ⟨e, ⟨source, hs, he⟩, hq⟩) | ⟨e, he, hq⟩
  · exact ((Source.labels_sublist_of_mem_selects hq).trans
      (sublist_flatMap_of_mem hs _)).trans (List.sublist_append_left _ _)
  · exact (((Expr.labels_sublist_of_mem_subqueries hq).trans
      (Source.labels_sublist_of_mem_conditions he)).trans
      (sublist_flatMap_of_mem hs _)).trans (List.sublist_append_left _ _)
  · exact ((Expr.labels_sublist_of_mem_subqueries hq).trans
      (sublist_flatMap_of_mem he _)).trans (List.sublist_append_right _ _)

/-- The labels of a frame are among those that the source declares, each as often. -/
theorem Source.frame_labels_subperm (source : Source) :
    (source.frame.map Prod.fst).Subperm source.labels := by
  induction source using Source.join_induction with
  | table => exact List.Subperm.refl _
  | subquery query =>
    rw [Source.labels_subquery, Select.labels_eq]
    exact (List.singleton_sublist.2 (List.mem_cons_self ..)).subperm
  | join kind left right condition ihl ihr =>
    rw [Source.labels_join, Source.frame, List.map_append]
    exact ((ihr.append ihl).trans List.perm_append_comm.subperm).trans
      (List.sublist_append_left _ _).subperm

/-- Where no label is declared twice, the labels of the source are distinct. -/
theorem Select.nodup_frame_labels {s : Select} (labels : s.labels.Nodup) {source : Source}
    (hs : s.source = some source) : (source.frame.map Prod.fst).Nodup := by
  rw [Select.labels_eq, hs] at labels
  have declared := (List.nodup_append.1 (List.nodup_cons.1 labels).2).1
  simp only [Option.toList_some, List.flatMap_singleton] at declared
  obtain ⟨l, perm, sublist⟩ := source.frame_labels_subperm
  exact perm.nodup_iff.1 (declared.sublist sublist)

end HiveQuery
