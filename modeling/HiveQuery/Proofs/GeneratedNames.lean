import HiveQuery.Proofs.PagingSound
import HiveQuery.Proofs.Resources
/-!
# Generated names

A name is generated by trying the names of a sequence one by one until one is free. Each such search
ends at the first free name of its sequence (`SearchEnds`). Its place is at most the number of taken
names (`SearchEnds.place_le`), so a counter that can hold this number does not run out. A supply of
labels starts each search where the last one ended. Since it leaves nothing free behind
(`LabelSupply.taken_or_drawn`), each label is still the first of `t0`, `t1`, … that the statement
does not use and that was not drawn before.
-/

namespace HiveQuery

/-- **How a search through a sequence of names ends**: the name at the place is free, and those at
all places before it are taken. -/
structure SearchEnds (sequence : Nat → String) (taken : String → Prop) (place : Nat)
    (name : String) : Prop where
  name_eq : name = sequence place
  free : ¬ taken name
  passed : ∀ k < place, taken (sequence k)

/-- **A search ends soon**: it passes over no more names than are taken. -/
theorem SearchEnds.place_le {sequence : Nat → String} {taken : String → Prop} {place : Nat}
    {name : String} (h : SearchEnds sequence taken place name)
    (inj : Function.Injective sequence) {names : List String} (all : ∀ x, taken x → x ∈ names) :
    place ≤ names.length :=
  le_length_of_forall_mem inj 0 fun k _ hk => all _ (h.passed k (by omega))

/-! ## Column names -/

namespace Column

/-- The names that are tried for a column: the name itself, then the name with a number. -/
def availableCandidate (base : String) : Nat → String
  | 0 => base
  | n + 1 => base ++ n.repr

theorem availableCandidate_injective (base : String) :
    Function.Injective (availableCandidate base) := by
  have longer (n : Nat) : base ≠ base ++ n.repr := by
    intro same
    have empty : "" = n.repr := (String.append_right_inj base).1 (String.append_empty.trans same)
    exact Nat.repr_ne_empty empty.symm
  intro m n h
  cases m with
  | zero =>
    cases n with
    | zero => rfl
    | succ n => exact absurd h (longer n)
  | succ m =>
    cases n with
    | zero => exact absurd h.symm (longer m)
    | succ n => exact congrArg (· + 1) (append_repr_injective base h)

theorem exists_searchEnds_numberedName (columns : List Column) (base : String) :
    ∃ n ≤ columns.length, SearchEnds (fun n => base ++ n.repr) (· ∈ columns.map (·.name)) n
      (numberedName columns base) := by
  obtain ⟨-, upper, passed, -⟩ := firstFree_spec (columns.map (·.name)) (fun n => base ++ n.repr) 0
    (columns.map (·.name)).length
  refine ⟨_, ?_, rfl, numberedName_not_mem columns base, fun k => passed k (Nat.zero_le k)⟩
  calc
    _ ≤ 0 + (columns.map (·.name)).length := upper
    _ = columns.length := by rw [Nat.zero_add, List.length_map]

theorem exists_searchEnds_availableName (columns : List Column) (base : String) :
    ∃ n ≤ columns.length, SearchEnds (availableCandidate base) (· ∈ columns.map (·.name)) n
      (availableName columns base) := by
  have free := availableName_not_mem columns base
  by_cases used : columns.any (·.name == base)
  · -- the numbered names are tried after the name itself, which is taken
    rw [availableName, if_pos used] at free ⊢
    obtain ⟨n, -, ends⟩ := exists_searchEnds_numberedName columns base
    have ends : SearchEnds (availableCandidate base) (· ∈ columns.map (·.name)) (n + 1)
        (numberedName columns base) := by
      refine ⟨ends.name_eq, free, fun k hk => ?_⟩
      cases k with
      | zero => simpa [availableCandidate] using used
      | succ k => exact ends.passed k (by omega)
    have place := ends.place_le (availableCandidate_injective base) fun _ taken => taken
    rw [List.length_map] at place
    exact ⟨n + 1, place, ends⟩
  · rw [availableName, if_neg used] at free ⊢
    exact ⟨0, Nat.zero_le _, rfl, free, fun k hk => absurd hk (Nat.not_lt_zero k)⟩

end Column

/-! ## Labels -/

namespace Statement

/-- Whether a select or a table that occurs anywhere in the statement has the label. -/
def UsesLabel (s : Statement) (label : String) : Prop :=
  (∃ q, s.Contains (.select q) ∧ q.label = label) ∨
    ∃ name, s.Contains (.source (.table name label))

/-- **The labels of a statement are those of all its selects and tables**, wherever they occur. -/
theorem usesLabel_iff {s : Statement} {label : String} : s.UsesLabel label ↔ label ∈ s.labels := by
  rw [labels, List.mem_filterMap]
  constructor
  · rintro (⟨q, hq, rfl⟩ | ⟨name, h⟩)
    · exact ⟨_, contains_iff.1 hq, rfl⟩
    · exact ⟨_, contains_iff.1 h, rfl⟩
  · rintro ⟨n, hn, declares⟩
    cases n with
    | select q => exact .inl ⟨q, contains_iff.2 hn, Option.some.inj declares⟩
    | source source =>
      cases source with
      | table name =>
        obtain rfl := Option.some.inj declares
        exact .inr ⟨name, contains_iff.2 hn⟩
      | _ => cases declares
    | expr => cases declares

end Statement

namespace LabelSupply

/-- The supply after so many labels have been drawn. -/
def after (supply : LabelSupply) : Nat → LabelSupply
  | 0 => supply
  | i + 1 => (supply.after i).fresh.2

/-- The label that is drawn after `i` others. -/
def labelAt (supply : LabelSupply) (i : Nat) : String :=
  (supply.after i).fresh.1

/-- **The labels of any number of draws differ**, from each other and from those taken. -/
theorem draws_after (supply : LabelSupply) (i : Nat) :
    supply.Draws ((List.range i).map supply.labelAt) (supply.after i) := by
  induction i with
  | zero => exact Draws.nil supply
  | succ i ih =>
    rw [List.range_succ, List.map_append]
    exact ih.append (draws_fresh (supply.after i))

theorem not_taken_or_drawn (supply : LabelSupply) (i : Nat) :
    ¬ (supply.labelAt i ∈ supply.taken ∨ ∃ j < i, supply.labelAt j = supply.labelAt i) := by
  have draws := supply.draws_after (i + 1)
  rintro (taken | ⟨j, hj, same⟩)
  · exact draws.free _ (List.mem_map_of_mem List.self_mem_range_succ) taken
  · have equal : j = i := List.inj_on_of_nodup_map draws.nodup
      (List.mem_range.2 (Nat.lt_succ_of_lt hj)) List.self_mem_range_succ same
    omega

/-- What one draw does: it takes the first free number from the next one on. -/
theorem exists_labelAt (supply : LabelSupply) (i : Nat) :
    ∃ n, supply.labelAt i = candidate n ∧ (supply.after (i + 1)).next = n + 1 ∧
      ∀ k, (supply.after i).next ≤ k → k < n → candidate k ∈ supply.taken := by
  obtain ⟨-, -, passed, -⟩ := firstFree_spec (supply.after i).taken candidate
    (supply.after i).next (supply.after i).taken.length
  refine ⟨_, rfl, rfl, fun k lower before => ?_⟩
  rw [← (supply.draws_after i).taken]
  exact passed k lower before

/-- **Nothing free is left behind**: a number that the supply has passed is that of a taken label or
of one that was drawn. -/
theorem taken_or_drawn {supply : LabelSupply} {i k : Nat} (lower : supply.next ≤ k)
    (upper : k < (supply.after i).next) :
    candidate k ∈ supply.taken ∨ ∃ j < i, supply.labelAt j = candidate k := by
  induction i with
  | zero => exact absurd upper (Nat.not_lt.2 lower)
  | succ i ih =>
    obtain ⟨n, label, next, passed⟩ := supply.exists_labelAt i
    by_cases earlier : k < (supply.after i).next
    · rcases ih earlier with taken | ⟨j, hj, drawn⟩
      · exact .inl taken
      · exact .inr ⟨j, Nat.lt_succ_of_lt hj, drawn⟩
    · rw [next] at upper
      rcases Nat.lt_succ_iff_lt_or_eq.1 upper with before | rfl
      · exact .inl (passed k (Nat.not_lt.1 earlier) before)
      · exact .inr ⟨i, Nat.lt_succ_self i, label⟩

/-- **Each draw is a search from the first candidate on**, though it starts where the last one
ended. -/
theorem exists_searchEnds_labelAt {supply : LabelSupply} (start : supply.next = 0) (i : Nat) :
    ∃ n ≤ supply.taken.length + i, SearchEnds candidate
      (fun label => label ∈ supply.taken ∨ ∃ j < i, supply.labelAt j = label) n
      (supply.labelAt i) := by
  obtain ⟨n, label, -, passed⟩ := supply.exists_labelAt i
  have ends : SearchEnds candidate
      (fun label => label ∈ supply.taken ∨ ∃ j < i, supply.labelAt j = label) n
      (supply.labelAt i) := by
    refine ⟨label, supply.not_taken_or_drawn i, fun k hk => ?_⟩
    by_cases earlier : k < (supply.after i).next
    · exact taken_or_drawn (start ▸ Nat.zero_le k) earlier
    · exact .inl (passed k (Nat.not_lt.1 earlier) hk)
  -- the taken labels and the drawn ones together bound the place
  have place : n ≤ (supply.taken ++ (List.range i).map supply.labelAt).length := by
    refine ends.place_le candidate_injective fun label taken => List.mem_append.2 ?_
    rcases taken with taken | ⟨j, hj, same⟩
    · exact .inl taken
    · exact .inr (List.mem_map.2 ⟨j, List.mem_range.2 hj, same⟩)
  rw [List.length_append, List.length_map, List.length_range] at place
  exact ⟨n, place, ends⟩

end LabelSupply

/-- **Generated names are fresh and the searches end.** However many labels are drawn for a
statement, each is the first of `t0`, `t1`, … that no select and no table anywhere in the statement
has and that was not drawn before. A column name is the first of its sequence that no column has. No
search passes over more names than are taken, so none outruns a counter whose range is larger. -/
theorem generatedNames_fresh (s : Statement) (columns : List Column) (base : String) :
    (∀ i, ∃ n ≤ s.labels.length + i, SearchEnds (fun n => "t" ++ n.repr)
      (fun label => s.UsesLabel label ∨ ∃ j < i, (LabelSupply.ofStatement s).labelAt j = label) n
      ((LabelSupply.ofStatement s).labelAt i)) ∧
    (∃ n ≤ columns.length, SearchEnds (Column.availableCandidate base)
      (· ∈ columns.map (·.name)) n (Column.availableName columns base)) ∧
    ∃ n ≤ columns.length, SearchEnds (fun n => base ++ n.repr)
      (· ∈ columns.map (·.name)) n (Column.numberedName columns base) := by
  refine ⟨fun i => ?_, Column.exists_searchEnds_availableName columns base,
    Column.exists_searchEnds_numberedName columns base⟩
  have start : (LabelSupply.ofStatement s).next = 0 := rfl
  simp only [Statement.usesLabel_iff]
  exact LabelSupply.exists_searchEnds_labelAt start i

end HiveQuery
