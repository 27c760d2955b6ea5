import HiveQuery.Columns.Prune
import HiveQuery.Proofs.Descent
/-!
# What equal trees have in common

The passes compare trees by an equality that tells neither two zeros apart nor a NaN from anything
else, so equal trees need not be the same. Node by node they still declare the same labels and
columns of the same names and types, and there is no NaN in them (`Select.resembles_of_beq`). An
expression with a subquery therefore equals no other one in a tree that declares no label twice, and
a tree equals no tree with fewer columns.
-/

namespace HiveQuery

/-- The names and the types of the columns of a select. -/
def Select.signature (s : Select) : List (String × DataType) :=
  s.columns.map fun c => (c.name, c.type)

/-- How a select is seen from outside: its label and its signature. -/
def Select.header (s : Select) : String × List (String × DataType) :=
  (s.label, s.signature)

def Node.header? : Node → Option (String × List (String × DataType))
  | .select s => some s.header
  | _ => none

/-! ## Equality of parts -/

mutual

/-- Equal types are the same. -/
theorem DataType.eq_of_beq {t t' : DataType} (h : t.beq t') : t = t' := by
  cases t <;> cases t' <;>
    simp only [DataType.beq, Bool.and_eq_true, beq_iff_eq, Bool.false_eq_true] at h
  case array.array => rw [DataType.eq_of_beq h]
  case map.map => rw [DataType.eq_of_beq h.1, DataType.eq_of_beq h.2]
  case struct.struct => rw [DataType.eq_of_beqFields h]
  all_goals simp [h]

theorem DataType.eq_of_beqFields {fs fs' : List StructField} (h : DataType.beqFields fs fs') :
    fs = fs' := by
  cases fs with
  | nil => cases fs' <;> simp_all [DataType.beqFields]
  | cons f fs =>
    cases fs' with
    | nil => simp [DataType.beqFields] at h
    | cons f' fs' =>
      cases f
      cases f'
      simp only [DataType.beqFields, Bool.and_eq_true, beq_iff_eq] at h
      rw [h.1.1, DataType.eq_of_beq h.1.2, DataType.eq_of_beqFields h.2]

end

instance : LawfulBEq DataType :=
  ⟨fun h => DataType.eq_of_beq h⟩

/-- Equal lists are equal place by place. -/
theorem Expr.forall₂_of_beqList {es es' : List Expr} (h : Expr.beqList es es') :
    List.Forall₂ (fun e e' => e.beq e') es es' := by
  induction es generalizing es' with
  | nil => cases es' <;> simp_all [Expr.beqList]
  | cons e es ih =>
    cases es' with
    | nil => simp [Expr.beqList] at h
    | cons e' es' =>
      rw [Expr.beqList, Bool.and_eq_true] at h
      exact .cons h.1 (ih h.2)

theorem Expr.forall₂_of_beqOption {o o' : Option Expr} (h : Expr.beqOption o o') :
    List.Forall₂ (fun e e' => e.beq e') o.toList o'.toList := by
  cases o <;> cases o' <;> simp_all [Expr.beqOption]

/-- Equal branches have equal conditions and results. -/
theorem Branch.forall₂_of_beqList {bs bs' : List Branch} (h : Branch.beqList bs bs') :
    List.Forall₂ (fun e e' => e.beq e') (bs.flatMap Branch.parts) (bs'.flatMap Branch.parts) := by
  induction bs generalizing bs' with
  | nil => cases bs' <;> simp_all [Branch.beqList]
  | cons b bs ih =>
    cases bs' with
    | nil => simp [Branch.beqList] at h
    | cons b' bs' =>
      cases b
      cases b'
      rw [Branch.beqList, Bool.and_eq_true, Bool.and_eq_true] at h
      exact .cons h.1.1 (.cons h.1.2 (ih h.2))

theorem OrderTerm.forall₂_of_beqList {ts ts' : List OrderTerm} (h : OrderTerm.beqList ts ts') :
    List.Forall₂ (fun e e' => e.beq e') (ts.map (·.expr)) (ts'.map (·.expr)) := by
  induction ts generalizing ts' with
  | nil => cases ts' <;> simp_all [OrderTerm.beqList]
  | cons t ts ih =>
    cases ts' with
    | nil => simp [OrderTerm.beqList] at h
    | cons t' ts' =>
      cases t
      cases t'
      rw [OrderTerm.beqList, Bool.and_eq_true, Bool.and_eq_true] at h
      exact .cons h.1.1 (ih h.2)

/-- Equal columns have the same names and types, and equal expressions. -/
theorem Column.of_beqList {cs cs' : List Column} (h : Column.beqList cs cs') :
    cs'.map (fun c => (c.name, c.type)) = cs.map (fun c => (c.name, c.type)) ∧
      List.Forall₂ (fun e e' => e.beq e') (cs.map (·.expr)) (cs'.map (·.expr)) := by
  induction cs generalizing cs' with
  | nil => cases cs' <;> simp_all [Column.beqList]
  | cons c cs ih =>
    cases cs' with
    | nil => simp [Column.beqList] at h
    | cons c' cs' =>
      cases c
      cases c'
      simp only [Column.beqList, Bool.and_eq_true, beq_iff_eq] at h
      obtain ⟨⟨⟨rfl, hexpr⟩, rfl⟩, rest⟩ := h
      obtain ⟨signature, exprs⟩ := ih rest
      exact ⟨congrArg (List.cons _) signature, .cons hexpr exprs⟩

/-- Equal expressions have equal parts and equal subqueries of their own. -/
theorem Expr.of_beq {e e' : Expr} (h : e.beq e') :
    List.Forall₂ (fun p p' => p.beq p') e.parts e'.parts ∧
      List.Forall₂ (fun q q' => q.beq q') e.query?.toList e'.query?.toList := by
  cases e <;> cases e' <;> simp only [Expr.beq, Bool.and_eq_true, Bool.false_eq_true] at h
  case caseWhen.caseWhen =>
    exact ⟨List.rel_append (Branch.forall₂_of_beqList h.1) (Expr.forall₂_of_beqOption h.2), .nil⟩
  case call.call => exact ⟨Expr.forall₂_of_beqList h.1.2, .nil⟩
  case aggregate.aggregate => exact ⟨Expr.forall₂_of_beqOption h.1.2, .nil⟩
  case rowNumber.rowNumber => exact ⟨OrderTerm.forall₂_of_beqList h, .nil⟩
  all_goals simp [Expr.parts, Expr.query?, h]

/-- Equal selects look the same from outside, and have equal sources and equal clauses. -/
theorem Select.of_beq {s s' : Select} (h : s.beq s') :
    s'.header = s.header ∧
      List.Forall₂ (fun a b => a.beq b) s.source.toList s'.source.toList ∧
      List.Forall₂ (fun e e' => e.beq e') s.clauses s'.clauses := by
  cases s with
  | mk label columns source filter ordering grouping clustering distinct skip take reversed =>
  cases s' with
  | mk label' columns' source' filter' ordering' grouping' clustering' =>
  simp only [Select.beq, Bool.and_eq_true, beq_iff_eq] at h
  obtain ⟨⟨⟨⟨⟨⟨⟨⟨⟨⟨rfl, hcolumns⟩, hsource⟩, hfilter⟩, hordering⟩, hgrouping⟩, hclustering⟩, -⟩, -⟩,
    -⟩, -⟩ := h
  obtain ⟨signature, columns⟩ := Column.of_beqList hcolumns
  refine ⟨congrArg (Prod.mk _) signature, ?_, ?_⟩
  · cases source <;> cases source' <;> simp_all [Source.beqOption]
  · exact List.rel_append (List.rel_append (List.rel_append (List.rel_append columns
      (Expr.forall₂_of_beqOption hfilter)) (OrderTerm.forall₂_of_beqList hordering))
      (Expr.forall₂_of_beqList hgrouping)) (Expr.forall₂_of_beqList hclustering)

/-! ## Nodes -/

/-- What related items contribute is related, if each contributes what is. -/
theorem forall₂_flatMap {α β γ δ : Type} {R : α → β → Prop} {S : γ → δ → Prop} {f : α → List γ}
    {g : β → List δ} {as : List α} {bs : List β} (h : List.Forall₂ R as bs)
    (each : ∀ a ∈ as, ∀ b, R a b → List.Forall₂ S (f a) (g b)) :
    List.Forall₂ S (as.flatMap f) (bs.flatMap g) := by
  induction h with
  | nil => exact .nil
  | cons hab _ ih =>
    simp only [List.forall_mem_cons] at each
    exact List.rel_append (each.1 _ hab) (ih each.2)

/-- Two nodes that declare the same label and, as selects, the same columns, the second not being a
NaN. -/
structure Node.Resembles (n n' : Node) : Prop where
  label : n'.label? = n.label?
  header : n'.header? = n.header?
  number : n'.isNaN = false

/-- The columns of a node can be counted from outside. -/
theorem Node.columnCount_eq (n : Node) : n.columnCount = n.header?.elim 0 (·.2.length) := by
  cases n with
  | select s => exact (List.length_map _).symm
  | _ => rfl

/-- Nothing equals a NaN. -/
theorem Binary64.isNaN_of_beq {x y : Binary64} (h : x == y) : y.isNaN = false := by
  have parts : (!x.isNaN && !y.isNaN && (x.bits == y.bits || (x.isZero && y.isZero))) = true := h
  simp only [Bool.and_eq_true, Bool.not_eq_true'] at parts
  exact parts.1.2

/-- No expression equals a NaN. -/
theorem Expr.isNaN_of_beq {e e' : Expr} (h : e.beq e') : (Node.expr e').isNaN = false := by
  cases e' with
  | literal v' =>
    cases v' with
    | float y =>
      cases e with
      | literal v =>
        rw [Expr.beq] at h
        cases v with
        | float x => exact Binary64.isNaN_of_beq h
        | _ => cases h
      | _ => simp [Expr.beq] at h
    | _ => rfl
  | _ => rfl

/-- The nodes of equal expressions resemble each other, if those of equal subqueries do. -/
theorem Expr.resembles_of_beq {e e' : Expr} (below : ∀ q ∈ e.subqueries, ∀ q' : Select, q.beq q' →
      List.Forall₂ Node.Resembles q.nodes q'.nodes) (h : e.beq e') :
    List.Forall₂ Node.Resembles e.nodes e'.nodes := by
  induction e using Expr.parts_induction generalizing e' with
  | step e ih =>
    obtain ⟨parts, query⟩ := Expr.of_beq h
    rw [Expr.subqueries_eq] at below
    simp only [List.forall_mem_append, List.forall_mem_flatMap] at below
    rw [Expr.nodes_eq, Expr.nodes_eq]
    refine .cons ⟨rfl, rfl, Expr.isNaN_of_beq h⟩ (List.rel_append ?_ ?_)
    · exact forall₂_flatMap parts fun p hp p' hbeq => ih p hp (below.1 p hp) hbeq
    · exact forall₂_flatMap query fun q hq q' hbeq => below.2 q hq q' hbeq

/-- The nodes of equal sources resemble each other, if those of equal subqueries do. -/
theorem Source.resembles_of_beq {source source' : Source}
    (below : ∀ q ∈ source.visited, ∀ q' : Select, q.beq q' →
      List.Forall₂ Node.Resembles q.nodes q'.nodes) (h : source.beq source') :
    List.Forall₂ Node.Resembles source.nodes source'.nodes := by
  induction source using join_induction generalizing source' with
  | table name label =>
    cases source' <;> simp only [Source.beq, Bool.and_eq_true, beq_iff_eq, Bool.false_eq_true] at h
    obtain ⟨-, rfl⟩ := h
    exact .cons ⟨rfl, rfl, rfl⟩ .nil
  | subquery query =>
    cases source' <;> simp only [Source.beq, Bool.false_eq_true] at h
    exact .cons ⟨rfl, rfl, rfl⟩ (below query (List.mem_singleton_self _) _ h)
  | join kind left right condition ihl ihr =>
    cases source' with
    | join kind' left' right' condition' =>
      simp only [Source.beq, Bool.and_eq_true] at h
      simp only [visited, List.forall_mem_append, List.forall_mem_flatMap] at below
      rw [Source.nodes, Source.nodes, Expr.nodesOption_eq, Expr.nodesOption_eq]
      refine .cons ⟨rfl, rfl, rfl⟩ (List.rel_append (List.rel_append ?_ ?_) ?_)
      · exact ihl below.1.1 h.1.1.2
      · exact ihr below.1.2 h.1.2
      · exact forall₂_flatMap (Expr.forall₂_of_beqOption h.2) fun e he e' hbeq =>
          Expr.resembles_of_beq (below.2 e he) hbeq
    | _ => simp [Source.beq] at h

/-- **Equal selects resemble each other node by node.** -/
theorem Select.resembles_of_beq {s s' : Select} (h : s.beq s') :
    List.Forall₂ Node.Resembles s.nodes s'.nodes := by
  induction s using children_induction generalizing s' with
  | step s ih =>
    obtain ⟨header, source, clauses⟩ := Select.of_beq h
    have below : ∀ q ∈ s.visited, ∀ q' : Select, q.beq q' →
        List.Forall₂ Node.Resembles q.nodes q'.nodes :=
      fun q hq q' hbeq => ih q (mem_visited_iff.1 hq) hbeq
    simp only [visited, List.forall_mem_append, List.forall_mem_flatMap] at below
    rw [Select.nodes_eq, Select.nodes_eq]
    have label : s'.label = s.label := congrArg Prod.fst header
    refine .cons ⟨congrArg some label, congrArg some header, rfl⟩ (List.rel_append ?_ ?_)
    · exact forall₂_flatMap source fun a ha b hbeq => Source.resembles_of_beq (below.1 a ha) hbeq
    · exact forall₂_flatMap clauses fun e he e' hbeq => Expr.resembles_of_beq (below.2 e he) hbeq

/-- What resembling nodes have in common can be read off the nodes of a tree. -/
theorem Node.filterMap_eq {α : Type} {f : Node → Option α} {ns ns' : List Node}
    (h : List.Forall₂ Node.Resembles ns ns')
    (same : ∀ n n', Node.Resembles n n' → f n' = f n) : ns'.filterMap f = ns.filterMap f := by
  induction h with
  | nil => rfl
  | cons alike _ ih => rw [List.filterMap_cons, List.filterMap_cons, same _ _ alike, ih]

/-- Nodes that resemble each other have as many columns. -/
theorem Node.map_columnCount_eq {ns ns' : List Node} (h : List.Forall₂ Node.Resembles ns ns') :
    ns'.map Node.columnCount = ns.map Node.columnCount := by
  induction h with
  | nil => rfl
  | cons alike _ ih =>
    rw [List.map_cons, List.map_cons, columnCount_eq, alike.header, ← columnCount_eq, ih]

/-- Equal expressions declare the same labels. -/
theorem Expr.labels_of_beq {e e' : Expr} (h : e == e') : e'.labels = e.labels :=
  Node.filterMap_eq (Expr.resembles_of_beq (fun _ _ _ => Select.resembles_of_beq) h)
    fun _ _ alike => alike.label

/-- An expression that equals another one has no NaN. -/
theorem Expr.naNFree_of_beq {e e' : Expr} (h : e == e') : e'.NaNFree := by
  intro n' hn'
  obtain ⟨n, -, alike⟩ := exists_of_forall₂_of_mem
    (Expr.resembles_of_beq (fun _ _ _ => Select.resembles_of_beq) h) hn'
  exact alike.number

/-- Equal selects have as many columns at all levels together. -/
theorem Select.columnCount_of_beq {s s' : Select} (h : s == s') :
    s'.columnCount = s.columnCount := by
  rw [columnCount, columnCount, Node.map_columnCount_eq (Select.resembles_of_beq h)]

/-! ## Expressions that differ -/

/-- An expression declares no label exactly if it has no subquery. -/
theorem Expr.labels_eq_nil_iff {e : Expr} : e.labels = [] ↔ e.subqueries = [] := by
  rw [Expr.labels_eq_flatMap, List.flatMap_eq_nil_iff]
  refine ⟨fun h => List.eq_nil_iff_forall_not_mem.2 fun q hq => ?_, fun h => by simp [h]⟩
  have none := h q hq
  rw [Select.labels_eq_cons] at none
  cases none

/-- An expression that equals one without subqueries has none. -/
theorem Expr.subqueries_of_beq {e e' : Expr} (h : e == e') (plain : e.subqueries = []) :
    e'.subqueries = [] := by
  rw [← Expr.labels_eq_nil_iff, Expr.labels_of_beq h, Expr.labels_eq_nil_iff, plain]

end HiveQuery
