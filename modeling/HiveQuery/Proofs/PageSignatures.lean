import HiveQuery.Proofs.PagingLabels
import HiveQuery.Proofs.Rebuilding
import HiveQuery.Proofs.Remnants
/-!
# Pages look like what they page

From outside a page looks like the select that it pages: it has its label, and columns of its names
and types. So whatever reads the select can read the page, and a valid query stays valid but for its
labels. A select below the paged one is found below the page under the same label, as it was or in
something that equals it (`Select.headers_subset_of_paging`).
-/

namespace HiveQuery

open Outcome

namespace Select

variable {rowNumberColumn : String} {depth : Nat} {s s' t : Select}
variable {supply supply' : LabelSupply} {numbered : Select} {order : List OrderTerm}

/-! ## Signatures -/

/-- What can be seen of the selects of a tree. -/
def headers (s : Select) : List (String × List (String × DataType)) :=
  s.nodes.filterMap Node.header?

/-- The headers of a select are those of the selects that it holds. -/
theorem mem_headers_iff {x : String × List (String × DataType)} :
    x ∈ s.headers ↔ ∃ q, s.Holds q ∧ q.header = x := by
  rw [headers, List.mem_filterMap]
  constructor
  · rintro ⟨n, hn, header⟩
    cases n with
    | select q => exact ⟨q, mem_nodes_iff_holds.1 hn, Option.some.inj header⟩
    | expr => cases header
    | source => cases header
  · rintro ⟨q, hq, rfl⟩
    exact ⟨.select q, hq.mem_nodes, rfl⟩

/-- What can be seen of a select below can be seen in the select. -/
theorem Holds.headers_subset (h : s.Holds t) : t.headers ⊆ s.headers :=
  List.filterMap_subset _ h.nodes_subset

theorem headers_subset_of_mem_visited {c : Select} (h : c ∈ s.visited) : c.headers ⊆ s.headers :=
  (Holds.child (mem_visited_iff.1 h) (.self c)).headers_subset

theorem header_mem_headers (s : Select) : s.header ∈ s.headers :=
  mem_headers_iff.2 ⟨s, .self s, rfl⟩

theorem columnNames_eq_signature (s : Select) : s.columnNames = s.signature.map Prod.fst := by
  rw [signature, List.map_map]
  rfl

/-- Selects that mirror each other look alike from outside. -/
theorem Mirrors.header {R : Expr → Expr → Prop} (h : s.Mirrors R s') : s'.header = s.header := by
  have columns : List.Forall₂ (· = ·) s.signature s'.signature := by
    refine List.forall₂_map_right_iff.2 (List.forall₂_map_left_iff.2 (h.columns.imp ?_))
    rintro c c' ⟨name, type, -⟩
    rw [name, type]
  rw [List.forall₂_eq_eq_eq] at columns
  rw [Select.header, Select.header, h.label, columns]

/-- **A page looks like the select that it pages.** -/
theorem header_page (h : outcome (s.page rowNumberColumn) supply = .ok (t, supply')) :
    t.header = s.header := by
  rcases of_page h with ⟨-, -, rfl, -⟩ | ⟨numbered, order, filter, -, -, rfl⟩
  · rfl
  · simp [header, signature, pageOf, pageOver]

/-- **What is below a select can be seen below its page.** -/
theorem Numbers.headers_subset (h : s.Numbers supply numbered order supply') (name : String)
    {c : Select} (hc : c ∈ s.visited) : c.headers ⊆ (numbered.numbering name order).headers := by
  obtain ⟨level, holds, source, clauses⟩ := h.exists_level name
  refine List.Subset.trans ?_ holds.headers_subset
  rcases List.mem_append.1 hc with hc | hc
  · refine headers_subset_of_mem_visited ?_
    rw [visited, source]
    exact List.mem_append_left _ hc
  · obtain ⟨e, he, hc⟩ := List.mem_flatMap.1 hc
    obtain ⟨e', same, sublist⟩ := clauses e he
    -- a term that equals a column is read from it, and the selects in the column look the same
    have looks : e.nodes.filterMap Node.header? = e'.nodes.filterMap Node.header? := by
      rcases same with rfl | equal
      · rfl
      · exact Node.filterMap_eq (Expr.resembles_of_beq (fun _ _ _ => resembles_of_beq) equal)
          fun _ _ alike => alike.header
    have inner : c.headers ⊆ e.nodes.filterMap Node.header? :=
      List.filterMap_subset _ (Expr.nodes_subset_of_mem_subqueries hc)
    rw [looks] at inner
    exact List.Subset.trans inner (List.filterMap_subset _ sublist.subset)

/-- What was below the paged select is below the page. -/
theorem headers_subset_of_page
    (h : outcome (s.page rowNumberColumn) supply = .ok (t, supply')) {c : Select}
    (hc : c ∈ s.visited) : c.headers ⊆ t.headers := by
  rcases of_page h with ⟨-, -, rfl, -⟩ | ⟨numbered, order, filter, numbers, -, rfl⟩
  · have child : c ∈ ({ s with skip := none } : Select).visited := hc
    exact headers_subset_of_mem_visited child
  · exact List.Subset.trans (numbers.headers_subset _ hc)
      (Holds.child (mem_children_of_subquery rfl) (.self _)).headers_subset

/-- **Every select of a tree can be seen in the paged tree.** -/
theorem headers_subset_of_paging
    (h : outcome (s.transform (.paging rowNumberColumn) depth) supply = .ok (s', supply')) :
    s.headers ⊆ s'.headers := by
  refine transform_induction (Transform.paging_keepsLeaves rowNumberColumn)
    (R := fun _ _ s s' _ => s.headers ⊆ s'.headers) ?_ h
  intro depth s s₁ s' st st₁ st' chain mirrors hact
  -- what is below has been paged before, and the page of the select does not hide it
  have acts : s'.header = s₁.header ∧ ∀ c₁ ∈ s₁.visited, c₁.headers ⊆ s'.headers := by
    rcases of_select_paging hact with hpage | ⟨-, -, rfl, -⟩
    · exact ⟨header_page hpage, fun c₁ => headers_subset_of_page hpage⟩
    · exact ⟨rfl, fun c₁ => headers_subset_of_mem_visited⟩
  intro x hx
  obtain ⟨q, hq, rfl⟩ := mem_headers_iff.1 hx
  cases hq with
  | self =>
    rw [← mirrors.header, ← acts.1]
    exact s'.header_mem_headers
  | child hc hq =>
    obtain ⟨c₁, hc₁, _, _, below⟩ := chain.exists_of_mem_left (mem_visited_iff.2 hc)
    exact acts.2 c₁ hc₁ (below (mem_headers_iff.2 ⟨q, hq, rfl⟩))

end Select

/-! ## Queries -/

namespace Projection

variable {rowNumberColumn : String} {p p' : Projection} {supply supply' : LabelSupply}
variable (run : outcome (p.transform (.paging rowNumberColumn)) supply = .ok (p', supply'))
include run

/-- The outermost selects of a query are paged one by one. -/
theorem forall₂_visited_of_paging : List.Forall₂ (fun s s' => ∃ st st' : LabelSupply,
    outcome (s.transform (.paging rowNumberColumn) 0) st = .ok (s', st')) p.visited p'.visited :=
  (chain_of_outcome_mapM (of_transform (Transform.paging_keepsLeaves _) run)).forall₂

/-- No page is left. -/
theorem unpaged_of_paging {q' : Select} (hq' : .select q' ∈ p'.nodes) :
    q'.skip = none ∧ q'.take = none := by
  obtain ⟨s', hs', holds⟩ := mem_nodes_iff_holds.1 hq'
  obtain ⟨s, -, _, _, hrun⟩ := exists_of_forall₂_of_mem (forall₂_visited_of_paging run) hs'
  have cleared : s'.Everywhere fun q => q.skip = none ∧ q.take = none :=
    Select.everywhere_paging (Q := fun _ => True) (fun _ bare => ⟨bare.skip, bare.take⟩)
      (fun _ _ _ _ skip take => ⟨skip, take⟩) (fun _ _ => trivial) hrun
  exact cleared q' holds

/-- Every select is seen again. -/
theorem exists_of_paging {q : Select} (hq : .select q ∈ p.nodes) :
    ∃ q', .select q' ∈ p'.nodes ∧ q'.header = q.header := by
  obtain ⟨s, hs, holds⟩ := mem_nodes_iff_holds.1 hq
  obtain ⟨s', hs', _, _, hrun⟩ := exists_of_forall₂_of_mem_left (forall₂_visited_of_paging run) hs
  have seen := Select.headers_subset_of_paging hrun (Select.mem_headers_iff.2 ⟨q, holds, rfl⟩)
  obtain ⟨q', holds', header⟩ := Select.mem_headers_iff.1 seen
  exact ⟨q', mem_nodes_iff_holds.2 ⟨s', hs', holds'⟩, header⟩

/-- **A valid query that is paged is valid** but for its labels. -/
theorem Checks.of_paging (checks : p.Checks) :
    p'.select.check [] = .ok () ∧ p'.checkProjector = .ok () := by
  have rebuilt : p.Rebuilt (fun _ s s' => s'.header = s.header ∧
      ∀ scope, s.check scope = .ok () → s'.check scope = .ok ()) p' := by
    refine rebuilt_of_transform (fun _ => rfl) ?_ run
    intro place q q₁ depth st q' st' hq parts hact
    rcases Select.of_select_paging hact with hpage | ⟨-, -, rfl, -⟩
    · exact ⟨Select.header_page hpage, fun scope => Select.check_page hpage⟩
    · exact ⟨rfl, fun scope check => check⟩
  -- no column is dropped, so it does not matter which of them are used
  have uses : p.select.Everywhere (Select.Uses fun _ => True) := fun _ _ _ _ _ _ => trivial
  refine rebuilt.checks (fun _ _ _ act => act.2) (fun _ s s' act => ?_) uses
    (fun _ _ _ _ => trivial) checks
  have names : s'.columnNames = s.columnNames := by
    rw [Select.columnNames_eq_signature, Select.columnNames_eq_signature]
    exact congrArg (·.2.map Prod.fst) act.1
  exact ⟨congrArg Prod.fst act.1, fun name hname _ => names ▸ hname⟩

end Projection

/-- **Paging keeps references and signatures.** No select of a valid statement that is paged has a
page any more. Every select is found again under its label, with columns of its names and types. All
references resolve, and no select has two columns of one name. -/
theorem Statement.replacePaging_keeps_signatures {s t : Statement} {rowNumberColumn : String}
    (valid : s.check = .ok ()) (h : (s.replacePaging rowNumberColumn).result = .ok t) :
    List.Forall₂ (fun p p' =>
      (∀ q', .select q' ∈ p'.nodes → q'.skip = none ∧ q'.take = none) ∧
      (∀ q, .select q ∈ p.nodes →
        ∃ q', .select q' ∈ p'.nodes ∧ q'.label = q.label ∧ q'.signature = q.signature) ∧
      p'.select.check [] = .ok () ∧ p'.checkProjector = .ok ())
      s.queries t.queries := by
  have checks := check_eq_ok_iff.1 valid
  refine forall₂_imp_of_mem (forall₂_paged h) ?_
  rintro p hp p' - ⟨supply, supply', -, run⟩
  refine ⟨fun q' => Projection.unpaged_of_paging run, fun q hq => ?_,
    Projection.Checks.of_paging run (checks p hp)⟩
  obtain ⟨q', hq', header⟩ := Projection.exists_of_paging run hq
  exact ⟨q', hq', congrArg Prod.fst header, congrArg Prod.snd header⟩

/-- The customers after the first five, by what they have spent. -/
def thriftyCustomers : Select :=
  ⟨"u", [⟨"name", .column "o" "customer", .string⟩], some (.table "orders" "o"), none,
    [.ascending (.aggregate .sum (some (.column "o" "total")) false)], [.column "o" "customer"], [],
    false, some 5, none, false⟩

/-- Their names, read from outside. -/
def thriftyNames : Projection :=
  ⟨⟨"q", [⟨"name", .column "u" "name", .string⟩], some (.subquery thriftyCustomers), none, [], [],
    [], false, none, none, false⟩, .scalar (.column "q" "name")⟩

/-- The sum becomes a column below the page, and the page has the column that is read. -/
theorem Statement.replacePaging_keeps_signatures_thriftyNames :
    ∃ t, ((Statement.query thriftyNames).replacePaging "rn").result = .ok t ∧
      ∃ p' ∈ t.queries, p'.select.check [] = .ok () ∧ ∃ q', .select q' ∈ p'.nodes ∧
        q'.label = "u" ∧ q'.signature = [("name", .string)] ∧ q'.skip = none ∧ q'.take = none := by
  have valid : (Statement.query thriftyNames).check = .ok () := by cbv
  have held : .select thriftyCustomers ∈ thriftyNames.nodes :=
    Projection.Places.mem_nodes (.source .top (List.mem_singleton_self _))
  have succeeds : ((Statement.query thriftyNames).replacePaging "rn").result.isOk := by cbv
  obtain ⟨t, run⟩ := isOk_iff_exists.1 succeeds
  obtain ⟨p', hp', cleared, found, check, -⟩ := exists_of_forall₂_of_mem_left
    (replacePaging_keeps_signatures valid run) (List.mem_singleton_self thriftyNames)
  obtain ⟨q', hq', label, signature⟩ := found thriftyCustomers held
  exact ⟨t, run, p', hp', check, q', hq', label, signature, cleared q' hq'⟩

end HiveQuery
