import HiveQuery.Proofs.Lifting
import HiveQuery.Proofs.Tidy
import Mathlib
/-!
# What the condition of a join may refer to

The checks and the placing of orderings both walk down a query with the scope of the place where
they are, and they do not agree on the condition of a join. The checks let it see the whole source
that the join is a part of; placing lets it see the two sides of the join. `Projection.Meets` walks
down with both scopes at once. Level by level the second declares no more than the first, and what
it still declares shows at least what it showed (`Scope.Narrows`), so a reference that passes the
checks resolves in the second scope exactly if no level has lost its label
(`Statement.check_condition_scope`).
-/

namespace HiveQuery

/-! ## Narrower scopes -/

/-- The second frame has some of the labels of the first, each showing at least what it showed. -/
def Frame.Narrows (frame frame' : Frame) : Prop :=
  ∃ grown : Frame, frame.Grows grown ∧ frame'.Sublist grown

theorem Frame.Grows.labels_eq {frame grown : Frame} (h : frame.Grows grown) :
    grown.map Prod.fst = frame.map Prod.fst := by
  induction h with
  | nil => rfl
  | cons hab _ ih => rw [List.map_cons, List.map_cons, ih, hab.1]

namespace Frame.Narrows

variable {frame frame' : Frame}

/-- A narrower frame shows fewer labels, in the same order. -/
theorem labels_sublist (h : frame.Narrows frame') :
    (frame'.map Prod.fst).Sublist (frame.map Prod.fst) := by
  obtain ⟨grown, grows, sublist⟩ := h
  rw [← grows.labels_eq]
  exact sublist.map _

/-- What resolves in a frame resolves in a narrower one that still has the label. -/
theorem error?_eq_none (h : frame.Narrows frame') (nodup : (frame.map Prod.fst).Nodup)
    {r : String × String} (resolves : Scope.error? [frame] r = none)
    (kept : r.1 ∈ frame'.map Prod.fst) : Scope.error? [frame'] r = none := by
  have nodup' := nodup.sublist h.labels_sublist
  obtain ⟨grown, grows, sublist⟩ := h
  obtain ⟨⟨_, visible⟩, mem, rfl⟩ := List.mem_map.1 kept
  -- the label is declared once, so both frames show the same under it
  have found : grown.lookup _ = some visible :=
    Frame.lookup_of_mem (grows.labels_eq ▸ nodup) (sublist.subset mem)
  have found' : frame'.lookup _ = some visible := Frame.lookup_of_mem nodup' mem
  have grown_resolves : Scope.error? [grown] r = none :=
    Scope.Grows.error?_eq_none (.cons grows .nil) resolves
  rw [Scope.error?, Scope.find?_singleton] at grown_resolves ⊢
  rwa [found'.trans found.symm]

end Frame.Narrows

namespace Scope

/-- A frame of the scope declares the label. -/
def Declares (scope : Scope) (label : String) : Prop :=
  ∃ frame ∈ scope, label ∈ frame.map Prod.fst

/-- The scopes have the same levels, each narrower in the second. -/
def Narrows (scope scope' : Scope) : Prop :=
  List.Forall₂ Frame.Narrows scope scope'

/-- A level of the first scope declares the label, and that of the second has lost it. -/
def Loses (scope scope' : Scope) (label : String) : Prop :=
  ∃ f ∈ scope.zip scope', label ∈ f.1.map Prod.fst ∧ label ∉ f.2.map Prod.fst

variable {scope scope' : Scope} {r : String × String} {label : String}

theorem declares_cons {frame : Frame} :
    Declares (frame :: scope) label ↔ label ∈ frame.map Prod.fst ∨ scope.Declares label := by
  simp only [Declares, List.mem_cons, or_and_right, exists_or, exists_eq_left]

theorem loses_cons {frame frame' : Frame} :
    Loses (frame :: scope) (frame' :: scope') label ↔
      (label ∈ frame.map Prod.fst ∧ label ∉ frame'.map Prod.fst) ∨
        scope.Loses scope' label := by
  simp only [Loses, List.zip_cons_cons, List.mem_cons, or_and_right, exists_or, exists_eq_left]

/-- A reference that resolves is to a label that is declared. -/
theorem declares_of_error? (h : scope.error? r = none) : scope.Declares r.1 := by
  induction scope with
  | nil => cases h
  | cons frame scope ih =>
    rw [error?_cons] at h
    split at h
    · next here => exact declares_cons.2 (.inl here)
    · exact declares_cons.2 (.inr (ih h))

/-- What is declared in the narrower scope is declared in the wider one. -/
theorem Narrows.declares (h : scope.Narrows scope') (declares : scope'.Declares label) :
    scope.Declares label := by
  induction h with
  | nil => exact declares
  | cons narrows _ ih =>
    rw [declares_cons] at declares ⊢
    exact declares.imp (fun here => narrows.labels_sublist.subset here) ih

/-- What is lost was declared. -/
theorem Loses.declares (h : scope.Loses scope' label) : scope.Declares label := by
  obtain ⟨f, hf, here, -⟩ := h
  exact ⟨f.1, (List.of_mem_zip hf).1, here⟩

/-- **A reference that resolves in a scope resolves in a narrower one exactly if that declares its
label**, and this is so exactly if no level has lost it. -/
theorem Narrows.resolves_iff (h : scope.Narrows scope')
    (nodup : (scope.flatMap fun frame => frame.map Prod.fst).Nodup)
    (resolves : scope.error? r = none) :
    (scope'.Declares r.1 ↔ scope'.error? r = none) ∧
      (scope'.Declares r.1 ↔ ¬ scope.Loses scope' r.1) := by
  induction h with
  | nil => cases resolves
  | @cons frame frame' scope scope' narrows rest ih =>
    rw [List.flatMap_cons, List.nodup_append] at nodup
    obtain ⟨here, below, apart⟩ := nodup
    rw [error?_cons] at resolves
    rw [declares_cons, loses_cons, error?_cons]
    by_cases own : r.1 ∈ frame.map Prod.fst
    · rw [if_pos own] at resolves
      -- the label is declared on this level alone
      have absent : ¬ Declares scope r.1 := by
        rintro ⟨f, hf, there⟩
        exact apart _ own _ (List.mem_flatMap_of_mem hf there) rfl
      have absent' : ¬ Declares scope' r.1 := fun declares =>
        absent (Narrows.declares rest declares)
      have kept : ¬ Loses scope scope' r.1 := fun loses => absent loses.declares
      by_cases still : r.1 ∈ frame'.map Prod.fst
      · simp [still, kept, narrows.error?_eq_none here resolves still]
      · have unresolved : error? scope' r ≠ none := fun resolves =>
          absent' (declares_of_error? resolves)
        simp [own, still, absent', unresolved]
    · have gone : r.1 ∉ frame'.map Prod.fst := fun still =>
        own (narrows.labels_sublist.subset still)
      rw [if_neg own] at resolves
      simpa [own, gone] using ih below resolves

end Scope

/-! ## Joins -/

namespace Source

/-- The conditions of the joins of a source, each with the two sides that it joins. -/
def joined : Source → List (Source × Expr)
  | .table .. | .subquery _ => []
  | .join kind left right condition =>
    left.joined ++ right.joined ++ condition.toList.map (.join kind left right none, ·)

/-- The labels that a condition sees are those of the settled sides that it joins. -/
theorem framedConditions_eq (source : Source) :
    source.framedConditions = source.joined.map fun j => (j.1.settled.1.frame, j.2) := by
  induction source using Source.join_induction with
  | table => rfl
  | subquery => rfl
  | join kind left right condition ihl ihr =>
    rw [framedConditions, joined, ihl, ihr, List.map_append, List.map_append, List.map_map]
    rfl

theorem mem_conditions_of_joined {source : Source} {j : Source × Expr} (h : j ∈ source.joined) :
    j.2 ∈ source.conditions := by
  refine mem_conditions_of_framed (c := (j.1.settled.1.frame, j.2)) ?_
  rw [framedConditions_eq]
  exact List.mem_map_of_mem h

/-- Every condition joins something. -/
theorem exists_joined_of_mem_conditions {source : Source} {e : Expr} (h : e ∈ source.conditions) :
    ∃ j ∈ source.joined, j.2 = e := by
  induction source using Source.join_induction with
  | table => simp [conditions] at h
  | subquery => simp [conditions] at h
  | join kind left right condition ihl ihr =>
    simp only [conditions, List.mem_append] at h
    simp only [joined, List.mem_append, List.mem_map]
    rcases h with (h | h) | h
    · obtain ⟨j, hj, rfl⟩ := ihl h
      exact ⟨j, .inl (.inl hj), rfl⟩
    · obtain ⟨j, hj, rfl⟩ := ihr h
      exact ⟨j, .inl (.inr hj), rfl⟩
    · exact ⟨_, .inr ⟨e, h, rfl⟩, rfl⟩

/-- What the two sides of a join show is a part of what the source shows. -/
theorem frame_sublist_of_joined {source : Source} {j : Source × Expr} (h : j ∈ source.joined) :
    j.1.settled.1.frame.Sublist source.settled.1.frame := by
  induction source using Source.join_induction with
  | table => simp [joined] at h
  | subquery => simp [joined] at h
  | join kind left right condition ihl ihr =>
    simp only [joined, List.mem_append, List.mem_map] at h
    simp only [Source.settled, Source.frame]
    rcases h with (h | h) | ⟨e, -, rfl⟩
    · exact (ihl h).trans (List.sublist_append_right _ _)
    · exact (ihr h).trans (List.sublist_append_left _ _)
    · exact List.Sublist.refl _

/-- Two sides of a join show no more than the whole source. -/
theorem narrows_of_joined {source : Source} {j : Source × Expr} (h : j ∈ source.joined) :
    source.frame.Narrows j.1.settled.1.frame :=
  ⟨_, source.frame_grows, frame_sublist_of_joined h⟩

/-- The labels of a frame and those in the conditions are declared apart. -/
theorem frame_conditions_le (source : Source) :
    (source.frame.map Prod.fst : Multiset String) +
      (source.conditions.flatMap Expr.labels : Multiset String) ≤ source.labels := by
  induction source using Source.join_induction with
  | table => exact le_refl _
  | subquery query =>
    have frame := (Source.subquery query).frame_labels_subperm
    simpa [conditions] using Multiset.coe_le.2 frame
  | join kind left right condition ihl ihr =>
    rw [labels_join, frame, conditions]
    simp only [List.map_append, List.flatMap_append, ← Multiset.coe_add]
    refine le_trans (le_of_eq ?_) (add_le_add_left (add_le_add ihl ihr) _)
    ac_rfl

end Source

namespace Select

variable {s c : Select} {e : Expr}

/-- What a select sees through its source and what its expressions declare are declared apart. -/
theorem frame_labels_le (s : Select) :
    (s.frame.map Prod.fst : Multiset String) + ((s.conditions.flatMap Expr.labels : List String) +
      (s.clauses.flatMap Expr.labels : List String)) ≤ s.labels := by
  have source : (s.frame.map Prod.fst : Multiset String) +
      (s.conditions.flatMap Expr.labels : List String) ≤
        (s.source.toList.flatMap Source.labels : List String) := by
    unfold Select.frame Select.conditions
    cases s.source with
    | none => exact le_refl _
    | some source => simpa [Source.frameOption] using source.frame_conditions_le
  rw [← add_assoc]
  refine (add_le_add_left source _).trans ?_
  rw [Select.labels_eq, Multiset.coe_add]
  exact Multiset.coe_le.2 (List.sublist_cons_self _ _).subperm

/-- The labels of a source and those of a subquery beside it are declared apart from each other. -/
theorem frame_labels_add_le (he : e ∈ s.clauses ∨ e ∈ s.conditions) (hc : c ∈ e.subqueries) :
    (s.frame.map Prod.fst : Multiset String) + c.labels ≤ s.labels := by
  have held : ∀ {es : List Expr}, e ∈ es →
      (c.labels : Multiset String) ≤ (es.flatMap Expr.labels : List String) := fun he =>
    Multiset.coe_le.2 ((Expr.labels_sublist_of_mem_subqueries hc).trans
      (sublist_flatMap_of_mem he _)).subperm
  refine (add_le_add_right ?_ _).trans s.frame_labels_le
  rcases he with he | he
  · exact (held he).trans (Multiset.le_add_left _ _)
  · exact (held he).trans (Multiset.le_add_right _ _)

end Select

/-! ## Both walks -/

namespace Projection

/-- **The selects that both walks meet**, with the scope of the checks and that of placing. They
part at the condition of a join, which the checks let see the whole source. -/
inductive Meets (p : Projection) : Scope → Scope → Select → Prop
  | top : Meets p [] [] p.select
  | source {scope placed : Scope} {s c : Select} (h : Meets p scope placed s)
      (hc : c ∈ s.sources) : Meets p scope placed c
  | clause {scope placed : Scope} {s c : Select} {e : Expr} (h : Meets p scope placed s)
      (he : e ∈ s.clauses) (hc : c ∈ e.subqueries) :
      Meets p (s.frame :: scope) (s.renewed.frame :: placed) c
  | condition {scope placed : Scope} {s c : Select} {source : Source} {j : Source × Expr}
      (h : Meets p scope placed s) (hs : source ∈ s.source) (hj : j ∈ source.joined)
      (hc : c ∈ j.2.subqueries) :
      Meets p (s.frame :: scope) (j.1.settled.1.frame :: placed) c

end Projection

namespace Select

/-- **What is known of a select that both walks meet.** -/
structure Met (scope placed : Scope) (s : Select) : Prop where
  check : s.check scope = .ok ()
  narrows : scope.Narrows placed
  labels : ((scope.flatMap fun frame => frame.map Prod.fst) ++ s.labels).Nodup

variable {s c : Select} {scope placed : Scope}

theorem Met.source (h : s.Met scope placed) (hc : c ∈ s.sources) : c.Met scope placed where
  check := (check_eq_ok_iff.1 h.check).sources c hc
  narrows := h.narrows
  labels := h.labels.sublist ((labels_sublist_of_mem_children
    (List.mem_append_left _ (List.mem_append_left _ hc))).append_left _)

/-- One step into an expression, whose place both walks extend by a frame. -/
theorem Met.expr (h : s.Met scope placed) {e : Expr} (he : e ∈ s.clauses ∨ e ∈ s.conditions)
    (hc : c ∈ e.subqueries) {frame : Frame} (narrows : s.frame.Narrows frame) :
    c.Met (s.frame :: scope) (frame :: placed) where
  check := by
    have checks := check_eq_ok_iff.1 h.check
    exact (he.elim (checks.clauses e) (checks.conditions e)).queries c hc
  narrows := .cons narrows h.narrows
  labels := by
    have apart := frame_labels_add_le he hc
    rw [List.flatMap_cons, ← Multiset.coe_nodup]
    have nodup := Multiset.coe_nodup.2 h.labels
    simp only [← Multiset.coe_add] at nodup ⊢
    refine Multiset.nodup_of_le ?_ nodup
    refine le_trans (le_of_eq ?_) (add_le_add_right apart _)
    ac_rfl

/-- The labels that an expression of the select sees are declared once. -/
theorem Met.nodup_labels (h : s.Met scope placed) :
    ((s.frame :: scope).flatMap fun frame => frame.map Prod.fst).Nodup := by
  rw [List.flatMap_cons, ← Multiset.coe_nodup]
  have nodup := Multiset.coe_nodup.2 h.labels
  rw [← Multiset.coe_add] at nodup
  rw [← Multiset.coe_add, add_comm]
  exact Multiset.nodup_of_le
    (add_le_add_right ((Multiset.le_add_right _ _).trans s.frame_labels_le) _) nodup

end Select

namespace Projection

variable {p : Projection} {scope placed : Scope} {s : Select}

/-- **Along both walks** a select passes the check, the scope of placing is narrower, and no label
is declared twice. -/
theorem Meets.met (h : p.Meets scope placed s) (checks : p.Checks) : s.Met scope placed := by
  induction h with
  | top => exact ⟨checks.select, .nil, nodup_select_labels checks.labels⟩
  | source _ hc ih => exact ih.source hc
  | @clause _ _ s _ _ _ he hc ih =>
    exact ih.expr (.inl he) hc ⟨_, s.frame_grows, List.Sublist.refl _⟩
  | @condition _ _ s _ source _ _ hs hj hc ih =>
    have frame : s.frame = source.frame := by rw [Select.frame, Option.mem_def.1 hs]; rfl
    refine ih.expr (.inr ?_) hc (frame ▸ Source.narrows_of_joined hj)
    exact List.mem_flatMap_of_mem (Option.mem_toList.2 hs) (Source.mem_conditions_of_joined hj)

/-- Every select of a query is met. -/
theorem Meets.exists_of_holds {q : Select} (h : p.Meets scope placed s) (holds : s.Holds q) :
    ∃ scope placed, p.Meets scope placed q := by
  induction holds generalizing scope placed with
  | self => exact ⟨_, _, h⟩
  | child hc _ ih =>
    simp only [Select.children, List.mem_append, List.mem_flatMap] at hc
    rcases hc with (hc | ⟨e, he, hc⟩) | ⟨e, he, hc⟩
    · exact ih (h.source hc)
    · obtain ⟨source, hs, he⟩ := List.mem_flatMap.1 he
      obtain ⟨j, hj, rfl⟩ := Source.exists_joined_of_mem_conditions he
      exact ih (h.condition (Option.mem_toList.1 hs) hj hc)
    · exact ih (h.clause he hc)

/-- **Placing succeeds exactly if the order terms of the selects it meets resolve in the scopes in
which it meets them.** -/
theorem placeOrderings_succeeds_iff :
    (∃ p', p.placeOrderings.result = .ok p') ↔
      ∀ scope placed q, p.Meets scope placed q → ∀ t ∈ q.ordering, ∀ r ∈ t.expr.localRefs,
        Scope.error? (q.renewed.frame :: placed) r = none := by
  have resolvable : (∃ p', p.placeOrderings.result = .ok p') ↔ p.select.Resolvable [] := by
    simp only [placeOrderings_eq_ok_iff, exists_and_left, exists_eq, and_true]
  rw [resolvable]
  constructor
  · intro h scope placed q meets
    have below : q.Resolvable placed := by
      induction meets with
      | top => exact h
      | source _ hc ih =>
        obtain ⟨sources, -, -, -⟩ := ih
        exact sources _ hc
      | clause _ he hc ih =>
        obtain ⟨-, -, clauses, -⟩ := ih
        exact clauses _ he _ hc
      | @condition _ _ _ _ source j _ hs hj hc ih =>
        obtain ⟨-, conditions, -, -⟩ := ih
        refine conditions source hs (j.1.settled.1.frame, j.2) ?_ _ hc
        rw [Source.framedConditions_eq]
        exact List.mem_map_of_mem hj
    obtain ⟨-, -, -, terms⟩ := below
    exact terms
  · intro terms
    have all : ∀ s scope placed, p.Meets scope placed s → s.Resolvable placed := by
      intro s
      induction s using Select.children_induction with
      | step s ih =>
        intro scope placed meets
        simp only [Select.children, List.forall_mem_append, List.forall_mem_flatMap] at ih
        obtain ⟨⟨sources, conditions⟩, clauses⟩ := ih
        refine ⟨fun c hc => sources c hc _ _ (meets.source hc), fun source hs => ?_,
          fun e he c hc => clauses e he c hc _ _ (meets.clause he hc),
          terms scope placed s meets⟩
        rw [Source.framedConditions_eq, List.forall_mem_map]
        intro j hj c hc
        exact conditions j.2 (List.mem_flatMap_of_mem (Option.mem_toList.2 hs)
          (Source.mem_conditions_of_joined hj)) c hc _ _ (meets.condition hs hj hc)
    exact all p.select [] [] .top

end Projection

/-- **What a condition may refer to, by the checks and by placing.** Every select of a valid query
is met by both walks, and placing succeeds exactly if the order terms resolve where it meets them. A
reference that the condition of a join makes itself resolves in the scope of the checks, which show
it the whole source. It names a label of the two sides or of a select around exactly if it names no
label of another part of the source. For placing, which narrows the levels further out as well, the
label is declared exactly if none of the levels has lost it, and then the reference resolves. -/
theorem Statement.check_condition_scope {s : Statement} (h : s.check = .ok ()) {p : Projection}
    (hp : p ∈ s.queries) :
    (∀ q, p.select.Holds q → ∃ scope placed, p.Meets scope placed q) ∧
    ((∃ p', p.placeOrderings.result = .ok p') ↔
      ∀ scope placed q, p.Meets scope placed q → ∀ t ∈ q.ordering, ∀ r ∈ t.expr.localRefs,
        Scope.error? (q.renewed.frame :: placed) r = none) ∧
    ∀ scope placed q, p.Meets scope placed q → ∀ source ∈ q.source, ∀ j ∈ source.joined,
      ∀ r ∈ j.2.localRefs,
      Scope.error? (q.frame :: scope) r = none ∧
      (Scope.Declares (j.1.frame :: scope) r.1 ↔
        (r.1 ∈ q.frame.map Prod.fst → r.1 ∈ j.1.frame.map Prod.fst)) ∧
      (Scope.Declares (j.1.frame :: placed) r.1 ↔
        ¬ Scope.Loses (q.frame :: scope) (j.1.frame :: placed) r.1) ∧
      (Scope.Declares (j.1.frame :: placed) r.1 ↔
        Scope.error? (j.1.settled.1.frame :: placed) r = none) := by
  have checks := Statement.check_eq_ok_iff.1 h p hp
  refine ⟨fun q holds => Projection.Meets.top.exists_of_holds holds,
    Projection.placeOrderings_succeeds_iff, ?_⟩
  intro scope placed q meets source hs j hj r hr
  have met := meets.met checks
  have frame : q.frame = source.frame := by rw [Select.frame, Option.mem_def.1 hs]; rfl
  have accepted := (Select.check_eq_ok_iff.1 met.check).conditions j.2
    (List.mem_flatMap_of_mem (Option.mem_toList.2 hs) (Source.mem_conditions_of_joined hj))
  have resolves := accepted.resolves r hr
  have narrows : Scope.Narrows (q.frame :: scope) (j.1.settled.1.frame :: placed) :=
    .cons (frame ▸ Source.narrows_of_joined hj) met.narrows
  obtain ⟨placing, losing⟩ := narrows.resolves_iff met.nodup_labels resolves
  rw [Scope.declares_cons, Source.labels_frame_settled, ← Scope.declares_cons] at placing losing
  rw [Scope.loses_cons, Source.labels_frame_settled, ← Scope.loses_cons] at losing
  refine ⟨resolves, ?_, losing, placing⟩
  have nodup := met.nodup_labels
  rw [List.flatMap_cons, List.nodup_append] at nodup
  rw [Scope.declares_cons]
  constructor
  · rintro (own | ⟨f, hf, around⟩) here
    · exact own
    · exact absurd rfl (nodup.2.2 _ here _ (List.mem_flatMap_of_mem hf around))
  · intro own
    exact (Scope.declares_cons.1 (Scope.declares_of_error? resolves)).imp_left own

/-- Orders with their items and customers, the first two joined on a condition. -/
def customerOrders (condition : Expr) (filter : Option Expr) : Projection :=
  ⟨⟨"q", [⟨"id", .column "a" "id", .int⟩],
    some (.join .inner
      (.join .leftOuter (.table "orders" "a") (.table "items" "b") (some condition))
      (.table "customers" "c") (some (.binary .eq (.column "a" "customer") (.column "c" "id")))),
    filter, [], [], [], false, none, none, false⟩, .scalar (.column "q" "id")⟩

/-- The returns of an order, which is read in a condition two levels up. -/
def returnsOfOrder : Select :=
  ⟨"s", [⟨"id", .column "r" "id", .int⟩], some (.join .inner (.table "payments" "p")
      (.table "returns" "r") (some (.binary .and
        (.binary .eq (.column "p" "id") (.column "r" "payment"))
        (.binary .eq (.column "r" "order") (.column "a" "id"))))),
    none, [], [], [], false, none, none, false⟩

def returnedOrders : Projection :=
  customerOrders (.binary .eq (.column "a" "id") (.column "b" "order"))
    (some (.existsQuery returnsOfOrder))

/-- The condition refers to the order two levels up, whose label nothing in between declares. -/
theorem Statement.check_condition_scope_returnedOrders :
    (Statement.query returnedOrders).check = .ok () ∧
      ∃ scope placed, returnedOrders.Meets scope placed returnsOfOrder ∧
        ∃ source ∈ returnsOfOrder.source, ∃ j ∈ source.joined, ("a", "id") ∈ j.2.localRefs ∧
          Scope.error? (j.1.settled.1.frame :: placed) ("a", "id") = none := by
  have check : (Statement.query returnedOrders).check = .ok () := by cbv
  have meets := Projection.Meets.clause (c := returnsOfOrder) (p := returnedOrders) .top
    (e := .existsQuery returnsOfOrder)
    (by simp [returnedOrders, customerOrders, Select.clauses])
    (by simp [Expr.subqueries_eq, Expr.parts, Expr.query?])
  refine ⟨check, _, _, meets, _, rfl, _, List.mem_singleton_self _, ?_, ?_⟩
  · decide
  · have scope := (Statement.check_condition_scope check (List.mem_singleton_self _)).2.2 _ _ _
      meets _ rfl _ (List.mem_singleton_self _) ("a", "id") (by decide)
    refine scope.2.2.2.1 (scope.2.2.1.2 ?_)
    -- both walks see the same labels on both levels
    simp [Scope.Loses, Select.frame, Source.frameOption, Select.renewed,
      Source.settled, Source.frame, returnsOfOrder, returnedOrders, customerOrders]

/-- A condition that refers to the customers, who are joined only later, and that sorts a subquery
by them. -/
def earlyCondition : Expr :=
  .binary .eq (.column "c" "region") (.scalarQuery
    ⟨"s", [⟨"region", .column "p" "region", .int⟩], some (.table "places" "p"), none,
      [⟨.column "c" "region", .ascending⟩], [], [], false, none, none, false⟩)

/-- **The condition of a join may refer to another part of the source.** The checks accept it, and
placing, to which the reference is not in scope there, fails at the subquery. -/
theorem Statement.check_accepts_earlyCondition :
    (Statement.query (customerOrders earlyCondition none)).check = .ok () ∧
      ∃ source ∈ (customerOrders earlyCondition none).select.source, ∃ j ∈ source.joined,
        ("c", "region") ∈ j.2.localRefs ∧ ¬ Scope.Declares [j.1.frame] "c" ∧
          (customerOrders earlyCondition none).placeOrderings.result =
            .error (.orderTerm "s" (.notInScope "c" "region")) := by
  refine ⟨by cbv, _, rfl, (.join .leftOuter (.table "orders" "a") (.table "items" "b") none,
    earlyCondition), ?_, by decide, ?_, by cbv⟩
  · exact List.mem_append_left _ (List.mem_append_left _ (List.mem_singleton_self _))
  · simp [Scope.Declares, Source.frame]

end HiveQuery
