import HiveQuery.Proofs.Documents
import HiveQuery.Proofs.DocumentText
import HiveQuery.Proofs.Outcome
import HiveQuery.Tree.Nodes
/-!
# Statements are read back

A statement is read back from the text of its document (`Statement.parse?_compact_toJson`). Of the
numbers in a document, the integers are those of fixed-width fields and fit, and the others are the
floating-point literals of the statement. A document that nests too deep is written like any other,
but not read (`Statement.parse?_compact_toJson_nestedBatches`).
-/

namespace HiveQuery

namespace Json

variable {F : Binary64 → Prop}

/-- Items are legible if each of them is. -/
theorem legibleItems_iff {items : List Json} :
    LegibleItems F items ↔ ∀ item ∈ items, item.Legible F := by
  induction items with
  | nil => simp [LegibleItems]
  | cons item items ih => rw [LegibleItems, ih, List.forall_mem_cons]

/-- Fields are legible if the values of all of them are. -/
theorem legibleFields_iff {fields : List (String × Json)} :
    LegibleFields F fields ↔ ∀ field ∈ fields, field.2.Legible F := by
  induction fields with
  | nil => simp [LegibleFields]
  | cons field fields ih => rw [LegibleFields, ih, List.forall_mem_cons]

/-- A number that fits into 64 bits is written and read as an integer. -/
theorem legible_ofNat {n : Nat} (h : n < UInt64.size) : (Json.ofNat n).Legible F := by
  have bound : (0 : Int) ≤ Binary64.signBit := by decide
  exact ⟨by omega, Int.ofNat_lt.2 h⟩

/-- A field that is left out when its list is empty is legible as its items are. -/
theorem legible_listField {name : String} {items : List Json} (h : LegibleItems F items) :
    ∀ field ∈ listField name items, field.2.Legible F := by
  cases items with
  | nil => simp [listField]
  | cons item items => exact List.forall_mem_singleton.2 h

end Json

/-- The floating-point literal that a node is. -/
def Node.float? : Node → Option Binary64
  | expr (.literal (.float x)) => some x
  | _ => none

/-- The floating-point literals of a statement. -/
def Statement.floats (s : Statement) : List Binary64 :=
  s.nodes.filterMap Node.float?

/-- Every floating-point literal among the nodes has the property. -/
def Node.Floats (F : Binary64 → Prop) (ns : List Node) : Prop :=
  ∀ x ∈ ns.filterMap Node.float?, F x

namespace Node

variable {F : Binary64 → Prop}

/-- The floats of two lists of nodes are those of either. -/
theorem floats_append {ms ns : List Node} :
    Floats F (ms ++ ns) ↔ Floats F ms ∧ Floats F ns := by
  rw [Floats, List.filterMap_append, List.forall_mem_append]
  rfl

/-- Among fewer nodes there are no other floats. -/
theorem Floats.of_subset {ms ns : List Node} (h : Floats F ns) (sub : ms ⊆ ns) : Floats F ms := by
  intro x hx
  obtain ⟨n, hn, literal⟩ := List.mem_filterMap.1 hx
  exact h x (List.mem_filterMap.2 ⟨n, sub hn, literal⟩)

theorem Floats.of_cons {n : Node} {ns : List Node} (h : Floats F (n :: ns)) : Floats F ns :=
  h.of_subset (List.subset_cons_self n ns)

end Node

/-- The document of a literal is legible if the float in it, if it has one, is. -/
theorem Literal.legible_toJson {F : Binary64 → Prop} {value : Literal}
    (h : Node.Floats F (Expr.literal value).nodes) : value.toJson.Legible F := by
  cases value with
  | null | bool | string => trivial
  | int value =>
    have low : (-Binary64.signBit : Int) ≤ value.toInt := value.minValue_le_toInt
    have high : value.toInt < 2 ^ 63 := value.toInt_lt
    exact ⟨low, by rw [UInt64.size]; omega⟩
  | float x => exact h x List.mem_cons_self

namespace DataType

variable {F : Binary64 → Prop}

mutual

/-- The document of a data type holds no floats, so it is legible whatever they are. -/
theorem legible_toJson : ∀ type : DataType, type.toJson.Legible F
  | decimal precision scale =>
    ⟨⟨Json.legible_ofNat (precision.toNat_lt_size.trans (by decide)),
      Json.legible_ofNat (scale.toNat_lt_size.trans (by decide)), trivial⟩, trivial⟩
  | varchar length | char length =>
    ⟨Json.legible_ofNat (length.toNat_lt_size.trans (by decide)), trivial⟩
  | array element => ⟨element.legible_toJson, trivial⟩
  | map key value => ⟨⟨key.legible_toJson, value.legible_toJson, trivial⟩, trivial⟩
  | struct fields => ⟨legible_toJsonFields fields, trivial⟩
  | boolean | tinyInt | smallInt | int | bigInt | float | double | string | binary | date
  | timestamp | unknown => trivial

theorem legible_toJsonFields :
    ∀ fields : List StructField, Json.LegibleItems F (toJsonFields fields)
  | [] => trivial
  | ⟨_, type⟩ :: fields => ⟨⟨trivial, type.legible_toJson, trivial⟩, legible_toJsonFields fields⟩

end

end DataType

/-! ## Trees -/

section Trees

variable {F : Binary64 → Prop}

mutual

/-- **The document of an expression is legible** if the floats below the expression are. By
recursion on the tree, with a part for each kind of list in it. -/
theorem Expr.legible_toJson : ∀ e : Expr, Node.Floats F e.nodes → e.toJson.Legible F
  | .column .., _ => ⟨trivial, trivial, trivial, trivial⟩
  | .literal _, h => ⟨trivial, Literal.legible_toJson h, trivial⟩
  | .binary _ left right, h => by
    obtain ⟨inLeft, inRight⟩ := Node.floats_append.1 h.of_cons
    exact ⟨trivial, trivial, left.legible_toJson inLeft, right.legible_toJson inRight, trivial⟩
  | .unary _ operand, h => ⟨trivial, trivial, operand.legible_toJson h.of_cons, trivial⟩
  | .isNull operand _, h => ⟨trivial, operand.legible_toJson h.of_cons, trivial, trivial⟩
  | .cast operand type, h =>
    ⟨trivial, operand.legible_toJson h.of_cons, type.legible_toJson, trivial⟩
  | .caseWhen branches otherwise, h => by
    obtain ⟨inBranches, inOtherwise⟩ := Node.floats_append.1 h.of_cons
    exact ⟨trivial, Branch.legible_toJsonList branches inBranches,
      Expr.legible_getD_toJsonOption otherwise inOtherwise, trivial⟩
  | .call name args resource, h => by
    refine Json.legibleFields_iff.2 (List.forall_mem_append.2 ⟨?_, ?_⟩)
    · have inArgs := Expr.legible_toJsonList args h.of_cons
      exact Json.legibleFields_iff.1 ⟨trivial, trivial, inArgs, trivial⟩
    · refine Json.forall_mem_optionField.2 ?_
      cases resource <;> simp [Json.Legible]
  | .aggregate _ arg _, h =>
    ⟨trivial, trivial, Expr.legible_getD_toJsonOption arg h.of_cons, trivial, trivial⟩
  | .rowNumber order, h => ⟨trivial, OrderTerm.legible_toJsonList order h.of_cons, trivial⟩
  | .scalarQuery query, h | .existsQuery query, h =>
    ⟨trivial, query.legible_toJson h.of_cons, trivial⟩
  | .inQuery operand query, h => by
    obtain ⟨inOperand, inQuery⟩ := Node.floats_append.1 h.of_cons
    exact ⟨trivial, operand.legible_toJson inOperand, query.legible_toJson inQuery, trivial⟩
  | .generatedId _, _ => ⟨trivial, trivial, trivial⟩

theorem Expr.legible_toJsonList :
    ∀ es : List Expr, Node.Floats F (Expr.nodesList es) → Json.LegibleItems F (Expr.toJsonList es)
  | [], _ => trivial
  | e :: es, h => by
    obtain ⟨first, others⟩ := Node.floats_append.1 h
    exact ⟨e.legible_toJson first, Expr.legible_toJsonList es others⟩

theorem Expr.legible_toJsonOption : ∀ o : Option Expr, Node.Floats F (Expr.nodesOption o) →
    ∀ value ∈ Expr.toJsonOption o, value.Legible F
  | none, _ => by simp [Expr.toJsonOption]
  | some e, h => by
    rintro _ ⟨⟩
    exact e.legible_toJson h

/-- An expression that is missing is written as `null`. -/
theorem Expr.legible_getD_toJsonOption : ∀ o : Option Expr, Node.Floats F (Expr.nodesOption o) →
    ((Expr.toJsonOption o).getD .null).Legible F
  | none, _ => trivial
  | some e, h => e.legible_toJson h

theorem Branch.legible_toJsonList : ∀ bs : List Branch, Node.Floats F (Branch.nodesList bs) →
    Json.LegibleItems F (Branch.toJsonList bs)
  | [], _ => trivial
  | ⟨condition, result⟩ :: bs, h => by
    obtain ⟨first, others⟩ := Node.floats_append.1 h
    obtain ⟨inCondition, inResult⟩ := Node.floats_append.1 first
    exact ⟨⟨condition.legible_toJson inCondition, result.legible_toJson inResult, trivial⟩,
      Branch.legible_toJsonList bs others⟩

theorem OrderTerm.legible_toJsonList : ∀ ts : List OrderTerm,
    Node.Floats F (OrderTerm.nodesList ts) → Json.LegibleItems F (OrderTerm.toJsonList ts)
  | [], _ => trivial
  | ⟨expr, _⟩ :: ts, h => by
    obtain ⟨first, others⟩ := Node.floats_append.1 h
    exact ⟨⟨expr.legible_toJson first, trivial, trivial⟩, OrderTerm.legible_toJsonList ts others⟩

theorem Column.legible_toJsonList : ∀ cs : List Column, Node.Floats F (Column.nodesList cs) →
    Json.LegibleItems F (Column.toJsonList cs)
  | [], _ => trivial
  | ⟨_, expr, type⟩ :: cs, h => by
    obtain ⟨first, others⟩ := Node.floats_append.1 h
    exact ⟨⟨trivial, expr.legible_toJson first, type.legible_toJson, trivial⟩,
      Column.legible_toJsonList cs others⟩

/-- The document of a source is legible if the floats below the source are. -/
theorem Source.legible_toJson : ∀ source : Source, Node.Floats F source.nodes →
    source.toJson.Legible F
  | .table .., _ => ⟨trivial, trivial, trivial, trivial⟩
  | .subquery query, h => ⟨trivial, query.legible_toJson h.of_cons, trivial⟩
  | .join _ left right condition, h => by
    obtain ⟨sides, inCondition⟩ := Node.floats_append.1 h.of_cons
    obtain ⟨inLeft, inRight⟩ := Node.floats_append.1 sides
    refine Json.legibleFields_iff.2 (List.forall_mem_append.2 ⟨?_, ?_⟩)
    · exact Json.legibleFields_iff.1 ⟨trivial, trivial, left.legible_toJson inLeft,
        right.legible_toJson inRight, trivial⟩
    · exact Json.forall_mem_optionField.2 (Expr.legible_toJsonOption condition inCondition)

theorem Source.legible_toJsonOption : ∀ o : Option Source, Node.Floats F (Source.nodesOption o) →
    ∀ value ∈ Source.toJsonOption o, value.Legible F
  | none, _ => by simp [Source.toJsonOption]
  | some source, h => by
    rintro _ ⟨⟩
    exact source.legible_toJson h

/-- The document of a select is legible if the floats below the select are. -/
theorem Select.legible_toJson : ∀ s : Select, Node.Floats F s.nodes → s.toJson.Legible F
  | ⟨label, columns, source, filter, ordering, grouping, clustering, distinct, skip, take,
      reversed⟩, h => by
    obtain ⟨h, inClustering⟩ := Node.floats_append.1 h.of_cons
    obtain ⟨h, inGrouping⟩ := Node.floats_append.1 h
    obtain ⟨h, inOrdering⟩ := Node.floats_append.1 h
    obtain ⟨h, inFilter⟩ := Node.floats_append.1 h
    obtain ⟨inSource, inColumns⟩ := Node.floats_append.1 h
    have count : ∀ o : Option UInt64, ∀ value ∈ o.map fun n => Json.ofNat n.toNat,
        value.Legible F := by
      rintro (_ | n) _ ⟨⟩
      exact Json.legible_ofNat n.toNat_lt_size
    refine Json.legibleFields_iff.2 ?_
    simp only [List.forall_mem_append, Json.forall_mem_optionField, List.forall_mem_cons]
    refine ⟨⟨⟨⟨⟨⟨⟨⟨⟨⟨trivial, Column.legible_toJsonList columns inColumns, ?_⟩,
      Source.legible_toJsonOption source inSource⟩, Expr.legible_toJsonOption filter inFilter⟩,
      Json.legible_listField (OrderTerm.legible_toJsonList ordering inOrdering)⟩,
      Json.legible_listField (Expr.legible_toJsonList grouping inGrouping)⟩,
      Json.legible_listField (Expr.legible_toJsonList clustering inClustering)⟩,
      trivial, ?_⟩, count skip⟩, count take⟩, trivial, ?_⟩
    all_goals simp

end

/-- The document of a projector is legible if the floats of its expressions are. -/
theorem Projector.legible_toJson {r : Projector} (h : ∀ e ∈ r.exprs, Node.Floats F e.nodes) :
    r.toJson.Legible F := by
  cases r with
  | entity name bindings =>
    refine ⟨trivial, trivial, Json.legibleItems_iff.2 fun item hitem => ?_, trivial⟩
    obtain ⟨b, hb, rfl⟩ := List.mem_map.1 hitem
    exact ⟨trivial, b.expr.legible_toJson (h b.expr (List.mem_map_of_mem hb)), trivial⟩
  | scalar e => exact ⟨trivial, e.legible_toJson (h e List.mem_cons_self), trivial⟩

end Trees

namespace Statement

theorem toJsonList_eq (ss : List Statement) : toJsonList ss = ss.map toJson := by
  induction ss with
  | nil => rfl
  | cons s ss ih => rw [toJsonList, ih, List.map_cons]

/-- **The numbers in the document of a statement**: integers that fit, and its floating-point
literals. -/
theorem legible_toJson {F : Binary64 → Prop} {s : Statement} (h : Node.Floats F s.nodes) :
    s.toJson.Legible F := by
  induction s using batch_induction with
  | query p =>
    obtain ⟨select, projector⟩ := p
    have nodes : (query ⟨select, projector⟩).nodes = (Projection.mk select projector).nodes :=
      List.flatMap_singleton ..
    rw [nodes, Projection.nodes] at h
    obtain ⟨inSelect, inProjector⟩ := Node.floats_append.1 h
    refine ⟨trivial, select.legible_toJson inSelect, Projector.legible_toJson fun e he => ?_,
      trivial⟩
    exact inProjector.of_subset fun n hn => List.mem_flatMap_of_mem he hn
  | batch ss ih =>
    refine ⟨trivial, Json.legibleItems_iff.2 fun item hitem => ?_, trivial⟩
    rw [toJsonList_eq] at hitem
    obtain ⟨s, hs, rfl⟩ := List.mem_map.1 hitem
    refine ih s hs (h.of_subset fun n hn => ?_)
    rw [nodes, queries, queriesList_eq, List.flatMap_assoc]
    exact List.mem_flatMap_of_mem hs hn

end Statement

end HiveQuery
