import HiveQuery.Tree.Decoding
import Mathlib
/-!
# Documents are read back

What is written as a document is read from it: every reader undoes the writer of its kind of tree
(`Statement.ofJson?_toJson`), so no two statements have the same document. A reader follows a
document only as deep as it is told. The induction is on the tree that was written, and shows of
every depth that is not smaller than that of the document that it is enough.
-/

namespace HiveQuery

namespace Json

/-! ## Fields -/

/-- A value, unless it is null. -/
def nonNull? : Json → Option Json
  | null => none
  | value => some value

/-- Only `null` is taken for a missing value. -/
theorem nonNull?_eq_some {value : Json} (h : value ≠ null) : nonNull? value = some value := by
  cases value with
  | null => exact absurd rfl h
  | _ => rfl

section Fields

variable {α : Type} {read : Json → Option α} {name : String}

/-- A required field has to be there and to be readable. -/
@[simp] theorem required_obj (fields : List (String × Json)) :
    (obj fields).required name read = (fields.lookup name).bind read :=
  rfl

/-- An optional field may be missing or `null`, but must be readable if it is neither. -/
@[simp] theorem optional_obj (fields : List (String × Json)) :
    (obj fields).optional name read = ((fields.lookup name).bind nonNull?).mapM read := by
  rw [optional, field?]
  cases fields.lookup name with
  | none => rfl
  | some value => cases value <;> rfl

/-- A field with a default may be missing, but must be readable if it is there, `null` included. -/
@[simp] theorem withDefault_obj (fields : List (String × Json)) (default : α) :
    (obj fields).withDefault name default read = (fields.lookup name).elim (some default) read := by
  rw [withDefault, field?]
  cases fields.lookup name <;> rfl

theorem list?_arr (items : List Json) : list? read (arr items) = items.mapM read :=
  rfl

/-- A list that is left out if it is empty. -/
theorem elim_lookup_listField (items : List Json) :
    ((listField name items).lookup name).elim (some []) (list? read) = items.mapM read := by
  cases items <;> simp [listField, list?_arr]

end Fields

/-- A field that may be left out is found under its own name alone. -/
theorem lookup_optionField (key name : String) (value : Option Json) :
    (optionField name value).lookup key = if key = name then value else none := by
  cases value with
  | none => simp [optionField]
  | some value =>
    by_cases h : key = name
    · simp [optionField, h]
    · simp [optionField, List.lookup, h, beq_false_of_ne h]

/-- A list that may be left out is not found under another name. -/
theorem lookup_listField {key name : String} (h : key ≠ name) (items : List Json) :
    (listField name items).lookup key = none := by
  cases items with
  | nil => rfl
  | cons => simp [listField, List.lookup, beq_false_of_ne h]

/-! ## Depth -/

/-- A bound on the depth of items is one on the depth of each. -/
theorem depthItems_le_iff {items : List Json} {n : Nat} :
    depthItems items ≤ n ↔ ∀ item ∈ items, item.depth ≤ n := by
  induction items with
  | nil => simp [depthItems]
  | cons item items ih => rw [depthItems, Nat.max_le, ih, List.forall_mem_cons]

/-- A bound on the depth of fields is one on the depth of each value. -/
theorem depthFields_le_iff {fields : List (String × Json)} {n : Nat} :
    depthFields fields ≤ n ↔ ∀ field ∈ fields, field.2.depth ≤ n := by
  induction fields with
  | nil => simp [depthFields]
  | cons field fields ih => rw [depthFields, Nat.max_le, ih, List.forall_mem_cons]

/-- A document that is an object can be followed one step down. -/
theorem exists_of_depth_le {fields : List (String × Json)} {n : Nat}
    (h : (obj fields).depth ≤ n) : ∃ k, n = k + 1 ∧ ∀ field ∈ fields, field.2.depth ≤ k := by
  rw [depth] at h
  obtain ⟨k, rfl⟩ : ∃ k, n = k + 1 := ⟨n - 1, by omega⟩
  exact ⟨k, rfl, depthFields_le_iff.1 (Nat.le_of_succ_le_succ h)⟩

/-- The items of a list nest less deep than the list. -/
theorem depth_le_of_mem_items {items : List Json} {n : Nat} (h : (arr items).depth ≤ n) :
    ∀ item ∈ items, item.depth ≤ n := by
  rw [depth] at h
  exact depthItems_le_iff.1 (Nat.le_of_succ_le h)

/-- What holds of a field that may be left out holds of its value, if it has one. -/
theorem forall_mem_optionField {name : String} {value : Option Json} {P : String × Json → Prop} :
    (∀ field ∈ optionField name value, P field) ↔ ∀ v ∈ value, P (name, v) := by
  cases value <;> simp [optionField]

theorem depth_le_of_mem_getD {value : Option Json} {n : Nat} (h : (value.getD null).depth ≤ n) :
    ∀ v ∈ value, v.depth ≤ n := by
  rintro v ⟨⟩
  exact h

theorem depth_le_of_mem_listField {name : String} {items : List Json} {n : Nat}
    (h : ∀ field ∈ listField name items, field.2.depth ≤ n) : ∀ item ∈ items, item.depth ≤ n := by
  cases items with
  | nil => simp
  | cons => exact depth_le_of_mem_items (h _ List.mem_cons_self)

end Json

/-! ## Values without parts -/

/-- **A literal is read back from its document**, an integer at either limit included. -/
theorem Literal.ofJson?_toJson (value : Literal) : ofJson? value.toJson = some value := by
  cases value with
  | int value =>
    have fits : (Int64.minValue.toInt ≤ value.toInt &&
        value.toInt ≤ Int64.maxValue.toInt) = true := by
      simp only [Bool.and_eq_true, decide_eq_true_eq]
      exact ⟨value.minValue_le_toInt, value.toInt_le⟩
    rw [toJson, ofJson?, if_pos fits, Int64.ofInt_toInt]
  | _ => rfl

/-- A number below the bound is read back. -/
theorem Json.natBelow?_ofNat {n bound : Nat} (h : n < bound) :
    (Json.ofNat n).natBelow? bound = some n := by
  simp [Json.ofNat, Json.natBelow?, h]

theorem Json.uint8?_ofNat (n : UInt8) : (Json.ofNat n.toNat).uint8? = some n := by
  rw [Json.uint8?, natBelow?_ofNat n.toNat_lt_size, Option.map_some, UInt8.ofNat_toNat]

theorem Json.uint32?_ofNat (n : UInt32) : (Json.ofNat n.toNat).uint32? = some n := by
  rw [Json.uint32?, natBelow?_ofNat n.toNat_lt_size, Option.map_some, UInt32.ofNat_toNat]

theorem Json.uint64?_ofNat (n : UInt64) : (Json.ofNat n.toNat).uint64? = some n := by
  rw [Json.uint64?, natBelow?_ofNat n.toNat_lt_size, Option.map_some, UInt64.ofNat_toNat]

/-- A number that may be missing is read back, the largest one of 64 bits included. -/
theorem Json.mapM_uint64?_ofNat (o : Option UInt64) :
    ((o.map fun n => Json.ofNat n.toNat).bind Json.nonNull?).mapM Json.uint64? = some o := by
  cases o with
  | none => rfl
  | some n =>
    rw [Option.map_some, Option.bind_some, nonNull?_eq_some (by simp [Json.ofNat]),
      Option.mapM_some, Json.uint64?_ofNat]
    rfl

theorem Json.mapM_string?_str (o : Option String) :
    ((o.map Json.str).bind Json.nonNull?).mapM Json.string? = some o := by
  cases o <;> rfl

/-! ## Types -/

namespace DataType

mutual

/-- **A type is read from its document**, wherever it stands. -/
theorem read_toJson (inNode : Bool) :
    ∀ (type : DataType) {n : Nat}, type.toJson.depth ≤ n → read inNode n type.toJson = some type
  | decimal precision scale, n, h => by
    rw [toJson] at h ⊢
    obtain ⟨n, rfl, -⟩ := Json.exists_of_depth_le h
    simp [read, List.lookup, Json.uint8?_ofNat]
  | varchar length, n, h | char length, n, h => by
    rw [toJson] at h ⊢
    obtain ⟨n, rfl, -⟩ := Json.exists_of_depth_le h
    simp [read, Json.uint32?_ofNat]
  | array element, n, h => by
    rw [toJson] at h ⊢
    obtain ⟨n, rfl, below⟩ := Json.exists_of_depth_le h
    simp [read, read_toJson inNode element (below _ List.mem_cons_self)]
  | map key value, n, h => by
    rw [toJson] at h ⊢
    obtain ⟨n, rfl, below⟩ := Json.exists_of_depth_le h
    -- key and value stand in an object of their own, one level further down
    obtain ⟨k, rfl, inner⟩ := Json.exists_of_depth_le (below _ List.mem_cons_self)
    simp only [List.forall_mem_cons] at inner
    simp [read, List.lookup, read_toJson inNode key (Nat.le_succ_of_le inner.1),
      read_toJson inNode value (Nat.le_succ_of_le inner.2.1)]
  | struct fields, n, h => by
    rw [toJson] at h ⊢
    obtain ⟨n, rfl, below⟩ := Json.exists_of_depth_le h
    have items := Json.depth_le_of_mem_items (below _ List.mem_cons_self)
    simp [read, Json.list?_arr, mapM_read_toJsonFields inNode fields items]
  | boolean, n, h | tinyInt, n, h | smallInt, n, h | int, n, h | bigInt, n, h | float, n, h
  | double, n, h | string, n, h | binary, n, h | date, n, h | timestamp, n, h | unknown, n, h => by
    cases n with
    | zero => cases h
    | succ n => rfl

/-- The fields of a struct are read back, given as much fuel as they nest deep. -/
theorem mapM_read_toJsonFields (inNode : Bool) :
    ∀ (fields : List StructField) {n : Nat}, (∀ item ∈ toJsonFields fields, item.depth ≤ n) →
      ((toJsonFields fields).mapM fun field => (field.required "name" Json.string?).bind fun name =>
        (field.required "data_type" (read inNode n)).bind fun type => some ⟨name, type⟩) =
          some fields
  | [], n, h => rfl
  | ⟨name, type⟩ :: fields, n, h => by
    rw [toJsonFields] at h ⊢
    simp only [List.forall_mem_cons] at h
    obtain ⟨n, rfl, below⟩ := Json.exists_of_depth_le h.1
    simp only [List.forall_mem_cons] at below
    simp [List.lookup, Json.string?, read_toJson inNode type (Nat.le_succ_of_le below.2.1),
      mapM_read_toJsonFields inNode fields h.2]

end

end DataType

/-! ## Trees -/

/-- No expression is written as `null`, so that an expression and a missing one are told apart. -/
theorem Expr.toJson_ne_null (e : Expr) : e.toJson ≠ .null := by
  cases e <;> simp [Expr.toJson]

/-- No source is written as `null`. -/
theorem Source.toJson_ne_null (source : Source) : source.toJson ≠ .null := by
  cases source <;> simp [Source.toJson]

theorem Expr.nonNull?_toJsonOption (o : Option Expr) :
    (Expr.toJsonOption o).bind Json.nonNull? = Expr.toJsonOption o := by
  cases o <;> simp [Expr.toJsonOption, Json.nonNull?_eq_some, Expr.toJson_ne_null]

theorem Expr.nonNull?_getD_toJsonOption (o : Option Expr) :
    Json.nonNull? ((Expr.toJsonOption o).getD .null) = Expr.toJsonOption o := by
  cases o with
  | none => rfl
  | some e => exact Json.nonNull?_eq_some e.toJson_ne_null

theorem Source.nonNull?_toJsonOption (o : Option Source) :
    (Source.toJsonOption o).bind Json.nonNull? = Source.toJsonOption o := by
  cases o <;> simp [Source.toJsonOption, Json.nonNull?_eq_some, Source.toJson_ne_null]

mutual

/-- **An expression is read from its document.** -/
theorem Expr.read_toJson :
    ∀ (e : Expr) {n : Nat}, e.toJson.depth ≤ n → Expr.read n e.toJson = some e
  | .column label name, n, h => by
    rw [Expr.toJson] at h ⊢
    obtain ⟨n, rfl, -⟩ := Json.exists_of_depth_le h
    simp [Expr.read, List.lookup, Json.string?]
  | .literal value, n, h => by
    rw [Expr.toJson] at h ⊢
    obtain ⟨n, rfl, -⟩ := Json.exists_of_depth_le h
    simp [Expr.read, List.lookup, Json.string?, Literal.ofJson?_toJson]
  | .binary op left right, n, h => by
    rw [Expr.toJson] at h ⊢
    obtain ⟨n, rfl, below⟩ := Json.exists_of_depth_le h
    simp only [List.forall_mem_cons] at below
    simp [Expr.read, List.lookup, Json.string?, Json.code?, left.read_toJson below.2.2.1,
      right.read_toJson below.2.2.2.1]
  | .unary op operand, n, h => by
    rw [Expr.toJson] at h ⊢
    obtain ⟨n, rfl, below⟩ := Json.exists_of_depth_le h
    simp only [List.forall_mem_cons] at below
    simp [Expr.read, List.lookup, Json.string?, Json.code?, operand.read_toJson below.2.2.1]
  | .isNull operand negated, n, h => by
    rw [Expr.toJson] at h ⊢
    obtain ⟨n, rfl, below⟩ := Json.exists_of_depth_le h
    simp only [List.forall_mem_cons] at below
    simp [Expr.read, List.lookup, Json.string?, Json.bool?, operand.read_toJson below.2.1]
  | .cast operand type, n, h => by
    rw [Expr.toJson] at h ⊢
    obtain ⟨n, rfl, below⟩ := Json.exists_of_depth_le h
    simp only [List.forall_mem_cons] at below
    simp [Expr.read, List.lookup, Json.string?, operand.read_toJson below.2.1,
      type.read_toJson true below.2.2.1]
  | .caseWhen branches otherwise, n, h => by
    rw [Expr.toJson] at h ⊢
    obtain ⟨n, rfl, below⟩ := Json.exists_of_depth_le h
    simp only [List.forall_mem_cons] at below
    have items := Json.depth_le_of_mem_items below.2.1
    have last := Json.depth_le_of_mem_getD below.2.2.1
    simp [Expr.read, List.lookup, Json.string?, Json.list?_arr, Expr.nonNull?_getD_toJsonOption,
      Branch.mapM_read_toJsonList branches items, Expr.mapM_read_toJsonOption otherwise last]
  | .call name args resource, n, h => by
    rw [Expr.toJson] at h ⊢
    obtain ⟨n, rfl, below⟩ := Json.exists_of_depth_le h
    simp only [List.forall_mem_append, List.forall_mem_cons] at below
    have items := Json.depth_le_of_mem_items below.1.2.2.1
    simp [Expr.read, List.lookup, Json.string?, Json.list?_arr, Json.lookup_optionField,
      Expr.mapM_read_toJsonList args items, Json.mapM_string?_str]
  | .aggregate function arg distinct, n, h => by
    rw [Expr.toJson] at h ⊢
    obtain ⟨n, rfl, below⟩ := Json.exists_of_depth_le h
    simp only [List.forall_mem_cons] at below
    have inner := Json.depth_le_of_mem_getD below.2.2.1
    simp [Expr.read, List.lookup, Json.string?, Json.code?, Json.bool?,
      Expr.nonNull?_getD_toJsonOption, Expr.mapM_read_toJsonOption arg inner]
  | .rowNumber order, n, h => by
    rw [Expr.toJson] at h ⊢
    obtain ⟨n, rfl, below⟩ := Json.exists_of_depth_le h
    simp only [List.forall_mem_cons] at below
    have items := Json.depth_le_of_mem_items below.2.1
    simp [Expr.read, List.lookup, Json.string?, Json.list?_arr,
      OrderTerm.mapM_read_toJsonList order items]
  | .scalarQuery query, n, h | .existsQuery query, n, h => by
    rw [Expr.toJson] at h ⊢
    obtain ⟨n, rfl, below⟩ := Json.exists_of_depth_le h
    simp only [List.forall_mem_cons] at below
    simp [Expr.read, List.lookup, Json.string?, query.read_toJson below.2.1]
  | .inQuery operand query, n, h => by
    rw [Expr.toJson] at h ⊢
    obtain ⟨n, rfl, below⟩ := Json.exists_of_depth_le h
    simp only [List.forall_mem_cons] at below
    simp [Expr.read, List.lookup, Json.string?, operand.read_toJson below.2.1,
      query.read_toJson below.2.2.1]
  | .generatedId member, n, h => by
    rw [Expr.toJson] at h ⊢
    obtain ⟨n, rfl, -⟩ := Json.exists_of_depth_le h
    simp [Expr.read, List.lookup, Json.string?]

/-- Expressions are read back one by one, given as much fuel as they nest deep. -/
theorem Expr.mapM_read_toJsonList : ∀ (es : List Expr) {n : Nat},
    (∀ item ∈ Expr.toJsonList es, item.depth ≤ n) →
      (Expr.toJsonList es).mapM (Expr.read n) = some es
  | [], n, h => rfl
  | e :: es, n, h => by
    rw [Expr.toJsonList] at h ⊢
    simp only [List.forall_mem_cons] at h
    simp [e.read_toJson h.1, Expr.mapM_read_toJsonList es h.2]

/-- An expression that may be missing is read back. -/
theorem Expr.mapM_read_toJsonOption : ∀ (o : Option Expr) {n : Nat},
    (∀ value ∈ Expr.toJsonOption o, value.depth ≤ n) →
      (Expr.toJsonOption o).mapM (Expr.read n) = some o
  | none, n, h => rfl
  | some e, n, h => by
    rw [Expr.toJsonOption] at h ⊢
    simp [e.read_toJson (h _ rfl)]

/-- The branches of a case are read back. -/
theorem Branch.mapM_read_toJsonList : ∀ (bs : List Branch) {n : Nat},
    (∀ item ∈ Branch.toJsonList bs, item.depth ≤ n) →
      (Branch.toJsonList bs).mapM (Branch.read n) = some bs
  | [], n, h => rfl
  | ⟨condition, result⟩ :: bs, n, h => by
    rw [Branch.toJsonList] at h ⊢
    simp only [List.forall_mem_cons] at h
    rw [List.mapM_cons, Branch.mapM_read_toJsonList bs h.2]
    obtain ⟨n, rfl, below⟩ := Json.exists_of_depth_le h.1
    simp only [List.forall_mem_cons] at below
    simp [Branch.read, List.lookup, condition.read_toJson below.1, result.read_toJson below.2.1]

/-- The terms of an ordering are read back with their directions. -/
theorem OrderTerm.mapM_read_toJsonList : ∀ (ts : List OrderTerm) {n : Nat},
    (∀ item ∈ OrderTerm.toJsonList ts, item.depth ≤ n) →
      (OrderTerm.toJsonList ts).mapM (OrderTerm.read true n) = some ts
  | [], n, h => rfl
  | ⟨expr, direction⟩ :: ts, n, h => by
    rw [OrderTerm.toJsonList] at h ⊢
    simp only [List.forall_mem_cons] at h
    rw [List.mapM_cons, OrderTerm.mapM_read_toJsonList ts h.2]
    obtain ⟨n, rfl, below⟩ := Json.exists_of_depth_le h.1
    simp only [List.forall_mem_cons] at below
    simp [OrderTerm.read, List.lookup, Json.code?, expr.read_toJson below.1]

/-- The columns of a select are read back with their types. -/
theorem Column.mapM_read_toJsonList : ∀ (cs : List Column) {n : Nat},
    (∀ item ∈ Column.toJsonList cs, item.depth ≤ n) →
      (Column.toJsonList cs).mapM (Column.read true n) = some cs
  | [], n, h => rfl
  | ⟨name, expr, type⟩ :: cs, n, h => by
    rw [Column.toJsonList] at h ⊢
    simp only [List.forall_mem_cons] at h
    rw [List.mapM_cons, Column.mapM_read_toJsonList cs h.2]
    obtain ⟨n, rfl, below⟩ := Json.exists_of_depth_le h.1
    simp only [List.forall_mem_cons] at below
    simp [Column.read, List.lookup, Json.string?, expr.read_toJson below.2.1,
      type.read_toJson true below.2.2.1]

/-- **A source is read from its document.** -/
theorem Source.read_toJson :
    ∀ (source : Source) {n : Nat}, source.toJson.depth ≤ n →
      Source.read n source.toJson = some source
  | .table name label, n, h => by
    rw [Source.toJson] at h ⊢
    obtain ⟨n, rfl, -⟩ := Json.exists_of_depth_le h
    simp [Source.read, List.lookup, Json.string?]
  | .subquery query, n, h => by
    rw [Source.toJson] at h ⊢
    obtain ⟨n, rfl, below⟩ := Json.exists_of_depth_le h
    simp only [List.forall_mem_cons] at below
    simp [Source.read, List.lookup, Json.string?, query.read_toJson below.2.1]
  | .join kind left right condition, n, h => by
    rw [Source.toJson] at h ⊢
    obtain ⟨n, rfl, below⟩ := Json.exists_of_depth_le h
    simp only [List.forall_mem_append, List.forall_mem_cons, Json.forall_mem_optionField] at below
    obtain ⟨⟨-, -, inLeft, inRight, -⟩, inCondition⟩ := below
    simp [Source.read, List.lookup, Json.string?, Json.code?,
      Json.lookup_optionField, left.read_toJson inLeft, right.read_toJson inRight,
      Expr.nonNull?_toJsonOption, Expr.mapM_read_toJsonOption condition inCondition]

/-- A source that may be missing is read back. -/
theorem Source.mapM_read_toJsonOption : ∀ (o : Option Source) {n : Nat},
    (∀ value ∈ Source.toJsonOption o, value.depth ≤ n) →
      (Source.toJsonOption o).mapM (Source.read n) = some o
  | none, n, h => rfl
  | some source, n, h => by
    rw [Source.toJsonOption] at h ⊢
    simp [source.read_toJson (h _ rfl)]

/-- **A select is read from its document.** -/
theorem Select.read_toJson :
    ∀ (s : Select) {n : Nat}, s.toJson.depth ≤ n → Select.read n s.toJson = some s
  | ⟨label, columns, source, filter, ordering, grouping, clustering, distinct, skip, take,
      reversed⟩, n, h => by
    rw [Select.toJson] at h ⊢
    obtain ⟨n, rfl, below⟩ := Json.exists_of_depth_le h
    simp only [List.forall_mem_append, List.forall_mem_cons, Json.forall_mem_optionField] at below
    obtain ⟨⟨⟨⟨⟨⟨⟨⟨⟨⟨-, inColumns, -⟩, inSource⟩, inFilter⟩, inOrdering⟩, inGrouping⟩,
      inClustering⟩, -⟩, -⟩, -⟩, -⟩ := below
    have hcolumns := Column.mapM_read_toJsonList columns (Json.depth_le_of_mem_items inColumns)
    have hsource := Source.mapM_read_toJsonOption source inSource
    have hfilter := Expr.mapM_read_toJsonOption filter inFilter
    have hordering :=
      OrderTerm.mapM_read_toJsonList ordering (Json.depth_le_of_mem_listField inOrdering)
    have hgrouping := Expr.mapM_read_toJsonList grouping (Json.depth_le_of_mem_listField inGrouping)
    have hclustering :=
      Expr.mapM_read_toJsonList clustering (Json.depth_le_of_mem_listField inClustering)
    simp [Select.read, List.lookup, List.lookup_append, Json.string?, Json.bool?, Json.list?_arr,
      Json.lookup_optionField, Json.lookup_listField, Json.elim_lookup_listField,
      Expr.nonNull?_toJsonOption, Source.nonNull?_toJsonOption, Json.mapM_uint64?_ofNat,
      hcolumns, hsource, hfilter, hordering, hgrouping, hclustering]

end

/-- **An expression is read back from its document.** -/
theorem Expr.ofJson?_toJson (e : Expr) : Expr.ofJson? e.toJson = some e :=
  e.read_toJson (Nat.le_refl _)

/-- **A select is read back from its document.** -/
theorem Select.ofJson?_toJson (s : Select) : Select.ofJson? s.toJson = some s :=
  s.read_toJson (Nat.le_refl _)

/-! ## Statements -/

/-- The bindings of an entity are read back. -/
theorem Binding.mapM_ofJson?_toJson (bs : List Binding) :
    (bs.map Binding.toJson).mapM Binding.ofJson? = some bs := by
  induction bs with
  | nil => rfl
  | cons b bs ih =>
    rw [List.map_cons, List.mapM_cons, ih]
    simp [Binding.toJson, Binding.ofJson?, List.lookup, Json.string?, Expr.ofJson?_toJson]

/-- Both kinds of projectors are read back. -/
theorem Projector.ofJson?_toJson (r : Projector) : Projector.ofJson? r.toJson = some r := by
  cases r with
  | entity name bindings =>
    simp [Projector.toJson, Projector.ofJson?, List.lookup, Json.string?, Json.list?_arr,
      Binding.mapM_ofJson?_toJson, -List.mapM_map]
  | scalar expr =>
    simp [Projector.toJson, Projector.ofJson?, List.lookup, Json.string?, Expr.ofJson?_toJson]

namespace Statement

mutual

/-- A statement is read back from its document, given as much fuel as that nests deep. -/
theorem read_toJson : ∀ (s : Statement) {n : Nat}, s.toJson.depth ≤ n → read n s.toJson = some s
  | query ⟨select, projector⟩, n, h => by
    rw [toJson] at h ⊢
    obtain ⟨n, rfl, -⟩ := Json.exists_of_depth_le h
    simp [read, List.lookup, Json.string?, Select.ofJson?_toJson, Projector.ofJson?_toJson]
  | batch statements, n, h => by
    rw [toJson] at h ⊢
    obtain ⟨n, rfl, below⟩ := Json.exists_of_depth_le h
    simp only [List.forall_mem_cons] at below
    have items := Json.depth_le_of_mem_items below.2.1
    simp [read, List.lookup, Json.string?, Json.list?_arr, mapM_read_toJsonList statements items]

theorem mapM_read_toJsonList : ∀ (ss : List Statement) {n : Nat},
    (∀ item ∈ toJsonList ss, item.depth ≤ n) → (toJsonList ss).mapM (read n) = some ss
  | [], n, h => rfl
  | s :: ss, n, h => by
    rw [toJsonList] at h ⊢
    simp only [List.forall_mem_cons] at h
    simp [s.read_toJson h.1, mapM_read_toJsonList ss h.2]

end

/-- **A statement is read from its document.** -/
theorem ofJson?_toJson (s : Statement) : ofJson? s.toJson = some s :=
  s.read_toJson (Nat.le_refl _)

/-- No two statements have the same document. -/
theorem eq_of_toJson_eq {s t : Statement} (h : s.toJson = t.toJson) : s = t := by
  have read := s.ofJson?_toJson
  rw [h, t.ofJson?_toJson] at read
  exact (Option.some.inj read).symm

end Statement

end HiveQuery
