import HiveQuery.Proofs.Exposure
import Mathlib
/-!
# Fresh names are fresh

The search for a free name tries as many candidates as there are taken names and then takes the next
one untried. Since the candidates are distinct, not all of these can be taken. So the columns that
are added for order terms have names of their own.
-/

namespace HiveQuery

/-- Where the search stops: every number passed over is taken, and the one it stops at is free
unless the bound has run out. -/
theorem firstFree_spec (taken : List String) (candidate : Nat → String) (start bound : Nat) :
    start ≤ firstFree taken candidate start bound ∧
    firstFree taken candidate start bound ≤ start + bound ∧
    (∀ k, start ≤ k → k < firstFree taken candidate start bound → candidate k ∈ taken) ∧
    (firstFree taken candidate start bound < start + bound →
      candidate (firstFree taken candidate start bound) ∉ taken) := by
  induction bound generalizing start with
  | zero =>
    rw [firstFree]
    exact ⟨le_rfl, by omega, fun k _ _ => by omega, fun h => by omega⟩
  | succ bound ih =>
    rw [firstFree]
    split
    · next h =>
      obtain ⟨lower, upper, passed, free⟩ := ih (start + 1)
      refine ⟨by omega, by omega, fun k hk hlt => ?_, fun hlt => free (by omega)⟩
      by_cases first : k = start
      · rw [first]
        simpa using h
      · exact passed k (by omega) hlt
    · next h =>
      exact ⟨le_rfl, by omega, fun k _ _ => by omega, fun _ => by simpa using h⟩

/-- Distinct candidates that are all taken are no more than the taken names. -/
theorem le_length_of_forall_mem {taken : List String} {candidate : Nat → String}
    (inj : Function.Injective candidate) (start : Nat) {count : Nat}
    (all : ∀ k, start ≤ k → k < start + count → candidate k ∈ taken) : count ≤ taken.length := by
  have subset : (List.range' start count).map candidate ⊆ taken := by
    intro name hname
    obtain ⟨k, hk, rfl⟩ := List.mem_map.1 hname
    rw [List.mem_range'_1] at hk
    exact all k hk.1 hk.2
  have distinct : ((List.range' start count).map candidate).Nodup :=
    (List.nodup_range' 1).map inj
  have few := (distinct.subperm subset).length_le
  rwa [List.length_map, List.length_range'] at few

/-- **The search finds a free name.** Had it run out of candidates, there would be one more of them
among the taken names than there are taken names. -/
theorem firstFree_not_mem (taken : List String) {candidate : Nat → String}
    (inj : Function.Injective candidate) (start : Nat) :
    candidate (firstFree taken candidate start taken.length) ∉ taken := by
  obtain ⟨lower, upper, passed, free⟩ := firstFree_spec taken candidate start taken.length
  intro found
  have last : firstFree taken candidate start taken.length = start + taken.length := by
    by_contra ne
    exact free (by omega) found
  have few : taken.length + 1 ≤ taken.length := by
    refine le_length_of_forall_mem inj start fun k hk hlt => ?_
    by_cases hlast : k = start + taken.length
    · rw [hlast, ← last]
      exact found
    · exact passed k hk (by omega)
  omega

/-- Different numbers make different names. -/
theorem append_repr_injective (base : String) :
    Function.Injective fun n : Nat => base ++ n.repr := by
  intro m n h
  exact Nat.repr_inj.1 ((String.append_right_inj base).1 h)

namespace Column

/-- A numbered name is free, -/
theorem numberedName_not_mem (columns : List Column) (base : String) :
    numberedName columns base ∉ columns.map (·.name) :=
  firstFree_not_mem _ (append_repr_injective base) 0

/-- and so is an available one, numbered or not. -/
theorem availableName_not_mem (columns : List Column) (base : String) :
    availableName columns base ∉ columns.map (·.name) := by
  unfold availableName
  split
  · exact numberedName_not_mem columns base
  · next h =>
    intro hmem
    obtain ⟨c, hc, hname⟩ := List.mem_map.1 hmem
    exact h (List.any_eq_true.2 ⟨c, hc, beq_iff_eq.2 hname⟩)

end Column

/-! ## The names of exposed columns -/

namespace Select

/-- Carrying an expression keeps the names distinct, and the name is that of a column for it. -/
theorem carrying_names {s : Select} (names : s.columnNames.Nodup) (e : Expr) :
    (s.carrying e).1.columnNames.Nodup ∧
      ∃ c ∈ (s.carrying e).1.columns, (s.carrying e).2 = c.name ∧
        ((c.expr == e) = true ∨ c.expr = e) := by
  unfold carrying
  split
  · next c hc =>
    have equal : (c.expr == e) = true := by simpa using List.find?_some hc
    exact ⟨names, c, List.mem_of_find?_eq_some hc, rfl, .inl equal⟩
  · refine ⟨?_, ⟨_, e, .unknown⟩, List.mem_append_right _ (List.mem_singleton_self _), rfl,
      .inr rfl⟩
    unfold columnNames at names ⊢
    rw [List.map_append, List.map_singleton]
    refine List.nodup_append.2 ⟨names, by simp, ?_⟩
    rintro name hname _ hnew rfl
    have fresh : name = Column.numberedName s.columns "c" := List.mem_singleton.1 hnew
    rw [fresh] at hname
    exact Column.numberedName_not_mem s.columns "c" hname

/-- **An exposed term is a reference to a column for its expression**, in its direction. -/
theorem exposing_names {s : Select} (names : s.columnNames.Nodup) (ts : List OrderTerm) :
    (s.exposing ts).1.columnNames.Nodup ∧
      List.Forall₂ (fun t r => r.direction = t.direction ∧
        ∃ c ∈ (s.exposing ts).1.columns, r.expr = .column s.label c.name ∧
          ((c.expr == t.expr) = true ∨ c.expr = t.expr)) ts (s.exposing ts).2 := by
  induction ts generalizing s with
  | nil => exact ⟨names, .nil⟩
  | cons t ts ih =>
    obtain ⟨carried, c, hc, hname, hexpr⟩ := carrying_names names t.expr
    obtain ⟨nodup, rest⟩ := ih carried
    have label : (s.carrying t.expr).1.label = s.label := by
      unfold carrying
      split <;> rfl
    obtain ⟨cs, hcs, -⟩ := (s.carrying t.expr).1.exposing_adds ts
    rw [exposing_cons]
    refine ⟨nodup, .cons ⟨rfl, c, ?_, ?_, hexpr⟩ ?_⟩
    · show c ∈ ((s.carrying t.expr).1.exposing ts).1.columns
      rw [hcs]
      exact List.mem_append_left _ hc
    · show s.ref (s.carrying t.expr).2 = _
      rw [hname]
      rfl
    · rw [label] at rest
      exact rest

end Select

end HiveQuery
