import HiveQuery.Scope
import Mathlib.Data.List.Forall2
/-!
# What frames show

A label that a frame declares once shows what is declared for it. A scope that shows more than
another under the same labels resolves every reference that the other one resolves.
-/

namespace HiveQuery

/-! ## Distinct labels -/

/-- What a frame with distinct labels shows under one of them. -/
theorem Frame.lookup_of_mem {frame : Frame} (nodup : (frame.map Prod.fst).Nodup) {label : String}
    {visible : Visible} (h : (label, visible) ∈ frame) : frame.lookup label = some visible := by
  induction frame with
  | nil => simp at h
  | cons entry frame ih =>
    obtain ⟨label', visible'⟩ := entry
    rw [List.map_cons, List.nodup_cons] at nodup
    rcases List.mem_cons.1 h with here | there
    · obtain ⟨rfl, rfl⟩ := Prod.mk.inj here
      exact List.lookup_cons_self
    · have ne : label ≠ label' := by
        rintro rfl
        exact nodup.1 (List.mem_map.2 ⟨_, there, rfl⟩)
      rw [List.lookup_cons, beq_false_of_ne ne]
      exact ih nodup.2 there

/-- A column that a frame shows under a label of its own can be referred to. -/
theorem Scope.error?_eq_none_of_mem {frame : Frame} {scope : Scope}
    (nodup : (frame.map Prod.fst).Nodup) {label name : String} {names : List String}
    (h : (label, .columns names) ∈ frame) (hname : name ∈ names) :
    Scope.error? (frame :: scope) (label, name) = none := by
  have found : Scope.find? (frame :: scope) label = some (.columns names) := by
    rw [Scope.find?, List.findSome?_cons, Frame.lookup_of_mem nodup h]
  rw [Scope.error?, found]
  simp [hname]

/-! ## Joined frames -/

theorem Frame.lookup_eq_none_iff {frame : Frame} {label : String} :
    frame.lookup label = none ↔ label ∉ frame.map Prod.fst := by
  induction frame with
  | nil => simp
  | cons entry frame ih =>
    rw [List.lookup_cons, List.map_cons, List.mem_cons, not_or, ← ih]
    by_cases h : label = entry.1
    · simp [h]
    · simp [h, beq_false_of_ne h]

/-- What the first of two frames shows hides what the second one does. -/
theorem Frame.lookup_append {frame frame' : Frame} {label : String} :
    (frame ++ frame').lookup label =
      if label ∈ frame.map Prod.fst then frame.lookup label else frame'.lookup label := by
  induction frame with
  | nil => simp
  | cons entry frame ih =>
    rw [List.cons_append, List.lookup_cons, List.lookup_cons, ih, List.map_cons]
    by_cases h : label = entry.1
    · simp [h]
    · simp only [beq_false_of_ne h, List.mem_cons, h, false_or]

theorem Scope.find?_singleton (frame : Frame) (label : String) :
    Scope.find? [frame] label = frame.lookup label := by
  rw [Scope.find?, List.findSome?_cons]
  cases frame.lookup label <;> rfl

/-- A reference into a join is looked up on the side that declares its label. -/
theorem Scope.error?_append {frame frame' : Frame} {ref : String × String} :
    Scope.error? [frame ++ frame'] ref =
      if ref.1 ∈ frame.map Prod.fst then Scope.error? [frame] ref
      else Scope.error? [frame'] ref := by
  by_cases h : ref.1 ∈ frame.map Prod.fst
  · simp only [Scope.error?, Scope.find?_singleton, Frame.lookup_append, if_pos h]
  · simp only [Scope.error?, Scope.find?_singleton, Frame.lookup_append, if_neg h]

/-- A reference is looked up in the innermost frame if that declares its label. -/
theorem Scope.error?_cons {frame : Frame} {scope : Scope} {ref : String × String} :
    Scope.error? (frame :: scope) ref =
      if ref.1 ∈ frame.map Prod.fst then Scope.error? [frame] ref else Scope.error? scope ref := by
  have find : Scope.find? (frame :: scope) ref.1 =
      if ref.1 ∈ frame.map Prod.fst then frame.lookup ref.1 else Scope.find? scope ref.1 := by
    rw [Scope.find?, List.findSome?_cons]
    cases h : frame.lookup ref.1 with
    | none => rw [if_neg (Frame.lookup_eq_none_iff.1 h)]; rfl
    | some visible =>
      rw [if_pos]
      by_contra absent
      rw [Frame.lookup_eq_none_iff.2 absent] at h
      cases h
  by_cases h : ref.1 ∈ frame.map Prod.fst
  · simp only [Scope.error?, find, Scope.find?_singleton, if_pos h]
  · simp only [Scope.error?, find, if_neg h]

/-- What resolves in a frame has a label that the frame declares. -/
theorem Frame.mem_labels_of_error? {frame : Frame} {ref : String × String}
    (h : Scope.error? [frame] ref = none) : ref.1 ∈ frame.map Prod.fst := by
  by_contra absent
  rw [Scope.error?, Scope.find?_singleton, Frame.lookup_eq_none_iff.2 absent] at h
  cases h

/-- What resolves in a subquery has the name of a column of it. -/
theorem Scope.mem_columnNames_of_error? {q : Select} {name : String}
    (h : Scope.error? [(Source.subquery q).frame] (q.label, name) = none) :
    name ∈ q.columnNames := by
  by_contra absent
  rw [Scope.error?, Scope.find?_singleton, Source.frame, List.lookup_cons_self] at h
  simp [absent] at h

/-! ## Growing scopes -/

/-- Whether what is visible shows at least what something else shows. -/
inductive Visible.Grows : Visible → Visible → Prop
  | table : Grows .table .table
  | columns {names names' : List String} (h : names ⊆ names') :
      Grows (.columns names) (.columns names')

theorem Visible.Grows.refl (v : Visible) : v.Grows v := by
  cases v with
  | table => exact .table
  | columns names => exact .columns (List.Subset.refl names)

/-- The same labels in the same order, each showing at least what it showed. -/
def Frame.Grows (frame frame' : Frame) : Prop :=
  List.Forall₂ (fun a b => a.1 = b.1 ∧ a.2.Grows b.2) frame frame'

theorem Frame.Grows.refl (frame : Frame) : frame.Grows frame :=
  List.forall₂_same.2 fun a _ => ⟨rfl, Visible.Grows.refl a.2⟩

/-- Frames that grow can be put together. -/
theorem Frame.Grows.append {f f' g g' : Frame} (hf : f.Grows f') (hg : g.Grows g') :
    Frame.Grows (f ++ g) (f' ++ g') :=
  List.rel_append hf hg

/-- A label is found in a grown frame exactly if it was found before. -/
theorem Frame.Grows.lookup {frame frame' : Frame} (h : frame.Grows frame') (label : String) :
    Option.Rel Visible.Grows (frame.lookup label) (frame'.lookup label) := by
  induction h with
  | nil => exact .none
  | @cons a b _ _ hab _ ih =>
    obtain ⟨same, grows⟩ := hab
    rw [List.lookup_cons, List.lookup_cons, ← same]
    split
    · exact .some grows
    · exact ih

def Scope.Grows (scope scope' : Scope) : Prop :=
  List.Forall₂ Frame.Grows scope scope'

/-- What is found in a scope is found in one that has grown, and has grown itself. -/
theorem Scope.Grows.find? {scope scope' : Scope} (h : scope.Grows scope') (label : String) :
    Option.Rel Visible.Grows (scope.find? label) (scope'.find? label) := by
  unfold Scope.find?
  induction h with
  | nil => exact .none
  | cons hf _ ih =>
    rw [List.findSome?_cons, List.findSome?_cons]
    have found := hf.lookup label
    revert found
    generalize List.lookup label _ = x
    generalize List.lookup label _ = y
    rintro (⟨⟩ | ⟨⟩)
    · exact .some ‹_›
    · exact ih

/-- **What resolves in a scope resolves in a grown one.** -/
theorem Scope.Grows.error?_eq_none {scope scope' : Scope} (h : scope.Grows scope')
    {ref : String × String} (href : scope.error? ref = none) : scope'.error? ref = none := by
  unfold Scope.error? at href ⊢
  have found := h.find? ref.1
  revert found href
  generalize scope.find? ref.1 = x
  generalize scope'.find? ref.1 = y
  rintro href (⟨⟨⟩ | ⟨sub⟩⟩ | ⟨⟩)
  · rfl
  · simp only [List.contains_iff_mem, ite_eq_left_iff, reduceCtorEq, imp_false, not_not] at href ⊢
    exact sub href
  · simp at href

end HiveQuery
