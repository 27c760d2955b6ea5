import HiveQuery.Tree.Nodes
/-!
# Fresh names

Passes that add selects and columns need labels and names that are not taken. A search tries
numbered candidates in order; among one more candidate than there are taken names one is free, so
the search is bounded.
-/

namespace HiveQuery

/-- The first number from `start` on whose candidate is free, the last argument bounding how many
are tried. -/
def firstFree (taken : List String) (candidate : Nat → String) (start : Nat) : Nat → Nat
  | 0 => start
  | bound + 1 =>
    if taken.contains (candidate start) then firstFree taken candidate (start + 1) bound else start

/-- Labels `t0`, `t1`, … that a statement does not use. -/
structure LabelSupply where
  taken : List String
  next : Nat

namespace LabelSupply

def ofStatement (s : Statement) : LabelSupply :=
  ⟨s.labels, 0⟩

def candidate (n : Nat) : String :=
  "t" ++ n.repr

/-- The next free label. Each label is given once, since the numbers only grow. -/
def fresh (supply : LabelSupply) : String × LabelSupply :=
  let n := firstFree supply.taken candidate supply.next supply.taken.length
  (candidate n, { supply with next := n + 1 })

end LabelSupply

namespace Column

/-- The first of the names `base0`, `base1`, … that no column has. -/
def numberedName (columns : List Column) (base : String) : String :=
  let taken := columns.map (·.name)
  base ++ (firstFree taken (fun n => base ++ n.repr) 0 taken.length).repr

/-- The name itself, or if a column has it, the name with the first free number. -/
def availableName (columns : List Column) (base : String) : String :=
  if columns.any (·.name == base) then numberedName columns base else base

end Column

end HiveQuery
