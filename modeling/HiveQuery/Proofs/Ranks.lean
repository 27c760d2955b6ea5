import Mathlib.Data.List.Nodup
import Mathlib.Data.List.Range
import Mathlib.Data.List.Perm.Basic
/-!
# Ranks under a stable sort

The rank of an item of a list is its place, counted from one, in the stably sorted list. Items that
compare alike get different ranks, in the order in which they stand. To keep the items whose ranks
satisfy a condition and to put them in the order of their ranks is to sort the list and to keep the
places that satisfy it (`ranked_eq`), and for the ranks of a page these are consecutive
(`zipIdx_filter_page`). Nothing is asked of the comparison.
-/

namespace HiveQuery

variable {α : Type}

/-- The places of the items of a list in the stably sorted list, counted from one. -/
def ranks (le : α → α → Bool) (as : List α) : List Nat :=
  let places := (as.zipIdx.mergeSort fun a b => le a.1 b.1).map Prod.snd
  (List.range as.length).map fun i => places.idxOf i + 1

theorem length_ranks (le : α → α → Bool) (as : List α) : (ranks le as).length = as.length := by
  simp [ranks]

/-- Sorting a list with its places sorts the list. -/
theorem map_fst_mergeSort_zipIdx (le : α → α → Bool) (as : List α) :
    (as.zipIdx.mergeSort fun a b => le a.1 b.1).map Prod.fst = as.mergeSort le := by
  rw [List.map_mergeSort (s := le) fun _ _ _ _ => rfl, List.zipIdx_map_fst]

/-- The rank of an item is found by its place in the list. -/
theorem zip_ranks (le : α → α → Bool) (as : List α) :
    as.zip (ranks le as) = as.zipIdx.map fun a =>
      (a.1, ((as.zipIdx.mergeSort fun a b => le a.1 b.1).map Prod.snd).idxOf a.2 + 1) := by
  refine List.ext_getElem (by simp [length_ranks]) fun i h h' => ?_
  simp [ranks]

/-- **The ranked items are the items of the sorted list with their places.** -/
theorem zip_ranks_perm (le : α → α → Bool) (as : List α) :
    (as.zip (ranks le as)).Perm ((as.mergeSort le).zipIdx 1) := by
  have nodup : ((as.zipIdx.mergeSort fun a b => le a.1 b.1).map Prod.snd).Nodup := by
    have perm := (List.mergeSort_perm as.zipIdx fun a b => le a.1 b.1).map Prod.snd
    rw [perm.nodup_iff, List.zipIdx_map_snd]
    exact List.nodup_range' 1
  have placed : (as.zipIdx.mergeSort fun a b => le a.1 b.1).map (fun a =>
      (a.1, ((as.zipIdx.mergeSort fun a b => le a.1 b.1).map Prod.snd).idxOf a.2 + 1)) =
      (as.mergeSort le).zipIdx 1 := by
    rw [← map_fst_mergeSort_zipIdx le as]
    refine List.ext_getElem (by simp) fun i h h' => ?_
    have here : i < ((as.zipIdx.mergeSort fun a b => le a.1 b.1).map Prod.snd).length := by
      simpa using h
    have place := nodup.idxOf_getElem i here
    rw [List.getElem_map] at place
    rw [List.getElem_map, List.getElem_zipIdx, List.getElem_map, place, Nat.add_comm]
  rw [zip_ranks, ← placed]
  exact ((List.mergeSort_perm as.zipIdx fun a b => le a.1 b.1).map _).symm

theorem pairwise_zipIdx (as : List α) (start : Nat) :
    (as.zipIdx start).Pairwise fun a b => a.2 < b.2 := by
  rw [← List.pairwise_map (f := Prod.snd), List.zipIdx_map_snd]
  exact List.pairwise_lt_range'

/-- **To keep the items of some ranks in the order of their ranks** is to keep these places of the
sorted list. -/
theorem ranked_eq (le : α → α → Bool) (as : List α) (p : Nat → Bool) :
    ((as.zip (ranks le as)).filter fun a => p a.2).mergeSort (fun a b => decide (a.2 ≤ b.2)) =
      ((as.mergeSort le).zipIdx 1).filter fun a => p a.2 := by
  have perm := (zip_ranks_perm le as).filter fun a => p a.2
  have increasing := (pairwise_zipIdx (as.mergeSort le) 1).filter fun a => p a.2
  have sorted : (((as.zip (ranks le as)).filter fun a => p a.2).mergeSort
      fun a b => decide (a.2 ≤ b.2)).Pairwise fun a b => a.2 ≤ b.2 := by
    refine (List.pairwise_mergeSort ?_ ?_ _).imp fun h => of_decide_eq_true h
    · intro a b c hab hbc
      simp only [decide_eq_true_eq] at hab hbc ⊢
      omega
    · intro a b
      simp only [Bool.or_eq_true, decide_eq_true_eq]
      omega
  -- Both lists hold the same items, and the ranks put them in one order only.
  refine List.Perm.eq_of_pairwise ?_ sorted (increasing.imp fun h => h.le)
    ((List.mergeSort_perm _ _).trans perm)
  intro a b ha hb hab hba
  have places : (((as.mergeSort le).zipIdx 1).map Prod.snd).Nodup := by
    rw [List.zipIdx_map_snd]
    exact List.nodup_range' 1
  have ha' := List.mem_of_mem_filter (perm.mem_iff.1 (List.mem_mergeSort.1 ha))
  exact List.inj_on_of_nodup_map places ha' (List.mem_of_mem_filter hb) (Nat.le_antisymm hab hba)

/-! ## The places of a page -/

/-- Dropping items is keeping those from a place on, -/
theorem zipIdx_filter_ge (as : List α) (start n : Nat) :
    (as.zipIdx start).filter (fun a => decide (start + n ≤ a.2)) =
      (as.drop n).zipIdx (start + n) := by
  induction as generalizing start n with
  | nil => simp
  | cons a as ih =>
    cases n with
    | zero =>
      rw [List.filter_eq_self.2]
      · rfl
      · intro b hb
        simpa using List.le_snd_of_mem_zipIdx hb
    | succ n =>
      rw [List.zipIdx_cons, List.filter_cons_of_neg (by simp), List.drop_succ_cons]
      have next := ih (start + 1) n
      rwa [show start + 1 + n = start + (n + 1) by omega] at next

/-- and taking items is keeping those before it. -/
theorem zipIdx_filter_lt (as : List α) (start n : Nat) :
    (as.zipIdx start).filter (fun a => decide (a.2 < start + n)) =
      (as.take n).zipIdx start := by
  induction as generalizing start n with
  | nil => simp
  | cons a as ih =>
    cases n with
    | zero =>
      rw [List.filter_eq_nil_iff.2]
      · rfl
      · intro b hb
        have := List.le_snd_of_mem_zipIdx hb
        simpa using this
    | succ n =>
      rw [List.zipIdx_cons, List.filter_cons_of_pos (by simp), List.take_succ_cons,
        List.zipIdx_cons]
      have next := ih (start + 1) n
      rw [show start + 1 + n = start + (n + 1) by omega] at next
      rw [next]

/-- **The places of a page are consecutive**: those above `skip`, and up to `skip + take` if the
page has an end. -/
theorem zipIdx_filter_page (as : List α) (skip : Nat) (take : Option Nat) :
    ((as.zipIdx 1).filter fun a => decide (skip < a.2 ∧ ∀ n ∈ take, a.2 ≤ skip + n)).map Prod.fst =
      match take with
      | none => as.drop skip
      | some n => (as.drop skip).take n := by
  have lower : (as.zipIdx 1).filter (fun a => decide (skip < a.2)) =
      (as.drop skip).zipIdx (1 + skip) := by
    rw [← zipIdx_filter_ge]
    exact List.filter_congr fun a _ => decide_eq_decide.2 (by omega)
  cases take with
  | none =>
    simp only [Option.not_mem_none, false_imp_iff, implies_true, and_true]
    rw [lower, List.zipIdx_map_fst]
  | some n =>
    have both : ((as.zipIdx 1).filter fun a => decide (skip < a.2 ∧ ∀ m ∈ some n, a.2 ≤ skip + m)) =
        ((as.zipIdx 1).filter fun a => decide (skip < a.2)).filter
          fun a => decide (a.2 < 1 + skip + n) := by
      rw [List.filter_filter]
      refine List.filter_congr fun a _ => ?_
      rw [← Bool.decide_and]
      refine decide_eq_decide.2 ?_
      simp only [Option.mem_some, forall_eq']
      omega
    rw [both, lower, zipIdx_filter_lt, List.zipIdx_map_fst]

end HiveQuery
