import HiveQuery.Proofs.Regrouping
/-!
# What an arithmetic text means

The text of an arithmetic expression leaves out the parentheses of a sum or difference that is added
and of a product or quotient that is multiplied. Read as grouping to the left, `a + (b - c)` becomes
`(a + b) - c` and `a * (b / c)` becomes `(a * b) / c`, which have the same exact values. The
remainder is the exception, since `a * (b % c)` becomes `(a * b) % c`: a text means what its
expression means if no remainder shows in the right operand of a product
(`Expr.value_of_readsAs`).
-/

namespace HiveQuery

/-! ## Values -/

/-- The exact value of an operator at rational operands. A quotient by zero has none, and a
remainder has one only of integers, the second of which is not zero. -/
def BinaryOp.value? : BinaryOp → ℚ → ℚ → Option ℚ
  | add, x, y => some (x + y)
  | sub, x, y => some (x - y)
  | mul, x, y => some (x * y)
  | div, x, y => if y = 0 then none else some (x / y)
  | mod, x, y => if x.den = 1 ∧ y.den = 1 ∧ y ≠ 0 then some (x.num.tmod y.num) else none
  | _, _, _ => none

/-- The exact value of an arithmetic expression, given those of the columns. -/
def Expr.value? (columns : String → String → ℤ) : Expr → Option ℚ
  | column label name => some (columns label name)
  | literal (.int n) => some n.toInt
  | binary op left right => do
    let x ← left.value? columns
    let y ← right.value? columns
    op.value? x y
  | unary .neg operand => do
    let x ← operand.value? columns
    return -x
  | _ => none

/-- The exact value of an arithmetic expression that has been read. -/
def Reading.value? (columns : String → String → ℤ) : Reading → Option ℚ
  | column label name => some (columns label name)
  | constant (.integer n) => some n
  | binary op left right => do
    let x ← left.value? columns
    let y ← right.value? columns
    op.value? x y
  | negative operand => do
    let x ← operand.value? columns
    return -x
  | _ => none

def BinaryOp.isArithmetic : BinaryOp → Bool
  | add | sub | mul | div | mod => true
  | _ => false

/-- Whether an expression is built from integers, columns, the minus and the operators of
arithmetic. -/
def Expr.isArithmetic : Expr → Bool
  | column .. => true
  | literal (.int _) => true
  | binary op left right => op.isArithmetic && left.isArithmetic && right.isArithmetic
  | unary .neg operand => operand.isArithmetic
  | _ => false

/-- Whether a remainder stands in an expression where only the operators of products are around
it. -/
def Expr.showsRemainder : Expr → Bool
  | binary .mod _ _ => true
  | binary .mul left right => left.showsRemainder || right.showsRemainder
  | binary .div left _ => left.showsRemainder
  | _ => false

/-- No remainder shows in the right operand of a product. -/
def Expr.RemaindersApart (e : Expr) : Prop :=
  ∀ left right, binary .mul left right ∈ e.level → right.showsRemainder = false

/-- What holds remainders apart in an expression holds them apart in its parts. -/
theorem Expr.RemaindersApart.part {e p : Expr} (h : e.RemaindersApart) (hp : p ∈ e.parts) :
    p.RemaindersApart :=
  fun left right hmem => h left right (mem_level.2 (.inr ⟨p, hp, hmem⟩))

/-! ## Regrouping keeps the value -/

/-- The second operator may be taken after the first one instead of before it. -/
def BinaryOp.Moves : BinaryOp → BinaryOp → Prop
  | add, add | add, sub | mul, mul | mul, div | and, and | or, or => True
  | _, _ => False

/-- **Moving an operator keeps the value**: `(x op y) op' z` is `x op (y op' z)`, and the one has a
value where the other has. -/
theorem BinaryOp.Moves.value?_eq {op op' : BinaryOp} (h : op.Moves op') (x y z : ℚ) :
    ((op.value? x y).bind fun w => op'.value? w z) =
      (op'.value? y z).bind fun w => op.value? x w := by
  cases op <;> cases op' <;> cases h <;> simp only [value?, Option.bind_some, Option.bind_none]
  · rw [add_assoc]
  · rw [add_sub_assoc]
  · rw [mul_assoc]
  · split_ifs <;> simp [mul_div_assoc]

namespace Reading

/-- Whether a remainder shows in what has been read. -/
def showsRemainder : Reading → Bool
  | binary .mod _ _ => true
  | binary .mul left right => left.showsRemainder || right.showsRemainder
  | binary .div left _ => left.showsRemainder
  | _ => false

variable {columns : String → String → ℤ} {l r s t : Reading}

/-- An operator moves into the left operand of the other one. -/
theorem Grafts.value?_eq {op : BinaryOp} (h : Grafts op l r t)
    (hr : op = .mul → r.showsRemainder = false) :
    t.value? columns = (binary op l r).value? columns := by
  induction h with
  | here => rfl
  | @left op' x y t hop hrank _ ih =>
    -- Of the operators of the same rank only the remainder cannot be taken last instead.
    have hmoves : op.Moves op' ∧ (op = .mul → x.showsRemainder = false) := by
      cases op <;> cases op' <;>
        simp_all [BinaryOp.regroups, BinaryOp.rank, showsRemainder, BinaryOp.Moves]
    simp only [value?] at ih ⊢
    rw [ih hmoves.2]
    cases l.value? columns with
    | none => rfl
    | some a =>
      cases x.value? columns with
      | none => rfl
      | some b =>
        cases y.value? columns with
        | none => simp
        | some c => exact hmoves.1.value?_eq a b c

/-- Grafting brings no remainder into view. -/
theorem Grafts.showsRemainder {op : BinaryOp} (h : Grafts op l r t) (ht : t.showsRemainder) :
    (binary op l r).showsRemainder := by
  induction h with
  | here => exact ht
  | @left op' x y t hop hrank _ ih =>
    cases op <;> cases op' <;>
      simp_all [BinaryOp.regroups, BinaryOp.rank, Reading.showsRemainder]
    all_goals tauto

/-- No remainder shows in the right operand of a product. -/
def RemaindersApart : Reading → Prop
  | binary op left right =>
    left.RemaindersApart ∧ right.RemaindersApart ∧ (op = .mul → right.showsRemainder = false)
  | negative operand => operand.RemaindersApart
  | _ => True

/-- **Regrouping keeps the value** where no remainder shows in the right operand of a product. -/
theorem Regrouped.value?_eq (h : Regrouped s t) (apart : s.RemaindersApart) :
    t.value? columns = s.value? columns ∧ (t.showsRemainder → s.showsRemainder) := by
  induction h with
  | @binary op l l' r r' t _ _ hgraft ihl ihr =>
    obtain ⟨apartl, apartr, hproduct⟩ := apart
    obtain ⟨hl, hl'⟩ := ihl apartl
    obtain ⟨hr, hr'⟩ := ihr apartr
    constructor
    · rw [hgraft.value?_eq fun hop => ?_]
      · simp only [value?, hl, hr]
      · by_contra hshows
        rw [hr' (by simpa using hshows)] at hproduct
        cases hproduct hop
    · intro ht
      have := hgraft.showsRemainder ht
      cases op <;> simp_all [showsRemainder]
  | negative h ih =>
    simp only [value?, (ih apart).1]
    simp [showsRemainder]
  | _ => simp [value?, showsRemainder]

/-- A minus that has become part of a numeral still means the opposite. -/
theorem value?_negate : t.negate.value? columns = (negative t).value? columns := by
  cases t with
  | constant value => cases value <;> simp [negate, value?]
  | _ => rfl

/-- Behind a minus no remainder shows. -/
theorem showsRemainder_negate : t.negate.showsRemainder = false := by
  cases t with
  | constant value => cases value <;> rfl
  | _ => rfl

theorem RemaindersApart.negate (h : t.RemaindersApart) : t.negate.RemaindersApart := by
  cases t with
  | constant value => cases value <;> trivial
  | _ => exact h

end Reading

/-! ## Arithmetic expressions -/

namespace Expr

variable {d : Dialect} {indent : ℕ} {e p : Expr} {s t : Reading}

/-- The parts of an arithmetic expression are arithmetic. -/
theorem isArithmetic_part (h : e.isArithmetic) (hp : p ∈ e.parts) : p.isArithmetic := by
  cases e with
  | binary op left right =>
    simp only [isArithmetic, Bool.and_eq_true] at h
    simp only [parts, List.mem_cons, List.not_mem_nil, or_false] at hp
    rcases hp with rfl | rfl
    · exact h.1.2
    · exact h.2
  | unary op operand =>
    cases op with
    | neg => rwa [List.mem_singleton.1 hp]
    | not => cases h
  | literal value => cases hp
  | column => cases hp
  | _ => cases h

/-- There is no `NOT` in an arithmetic expression. -/
theorem notsApart_of_isArithmetic (h : e.isArithmetic) : e.NotsApart := by
  induction e using parts_induction with
  | step e ih =>
    refine .of_parts (fun p hp => ?_) fun p hp => ih p hp (isArithmetic_part h hp)
    have arithmetic := isArithmetic_part h (mem_parts_of_mem_tightOperands hp)
    unfold isArithmetic at arithmetic
    unfold isNot
    split <;> simp_all

/-- An arithmetic expression has a text. -/
theorem exists_render_of_isArithmetic (d : Dialect) (indent : ℕ) (h : e.isArithmetic) :
    ∃ text, e.render d indent = .ok text := by
  fun_induction isArithmetic e with
  | case1 => exact ⟨_, rfl⟩
  | case2 => exact ⟨_, rfl⟩
  | case3 op left right ihl ihr =>
    simp only [Bool.and_eq_true] at h
    obtain ⟨l, hl⟩ := ihl h.1.2
    obtain ⟨r, hr⟩ := ihr h.2
    rw [render, hl, hr]
    exact ⟨_, rfl⟩
  | case4 operand ih =>
    obtain ⟨o, ho⟩ := ih h
    rw [render, ho]
    exact ⟨_, rfl⟩
  | case5 => cases h

end Expr

/-- What has been read has the value of the expression and the remainders where it has them. -/
structure Reading.Mirrors (s : Reading) (e : Expr) : Prop where
  value?_eq : ∀ columns, s.value? columns = e.value? columns
  showsRemainder_eq : s.showsRemainder = e.showsRemainder
  remaindersApart : e.RemaindersApart → s.RemaindersApart

namespace Reading.Mirrors

variable {s l r : Reading} {e left right : Expr}

/-- Two readings that mirror their operands mirror the operator. -/
theorem binary (op : BinaryOp) (hl : l.Mirrors left) (hr : r.Mirrors right) :
    (Reading.binary op l r).Mirrors (.binary op left right) where
  value?_eq columns := by
    simp only [Reading.value?, Expr.value?, hl.value?_eq, hr.value?_eq]
  showsRemainder_eq := by
    have := hl.showsRemainder_eq
    have := hr.showsRemainder_eq
    cases op <;> simp_all only [Reading.showsRemainder, Expr.showsRemainder]
  remaindersApart apart := by
    refine ⟨hl.remaindersApart (apart.part (by simp [Expr.parts])),
      hr.remaindersApart (apart.part (by simp [Expr.parts])), ?_⟩
    rintro rfl
    rw [hr.showsRemainder_eq]
    exact apart left right (Expr.mem_level.2 (.inl rfl))

/-- A reading that mirrors its operand mirrors the minus. -/
theorem negate (h : s.Mirrors e) : s.negate.Mirrors (.unary .neg e) where
  value?_eq columns := by
    rw [value?_negate]
    simp only [Reading.value?, Expr.value?, h.value?_eq]
  showsRemainder_eq := showsRemainder_negate
  remaindersApart apart := (h.remaindersApart (apart.part (by simp [Expr.parts]))).negate

end Reading.Mirrors

namespace Expr

variable {e : Expr}

/-- **The tree of an arithmetic expression has its value**, and shows a remainder where the
expression does. -/
theorem exists_mirrors_of_isArithmetic (d : Dialect) (indent : ℕ) (h : e.isArithmetic) :
    ∃ s, e.tree? d indent = some s ∧ s.Mirrors e := by
  fun_induction isArithmetic e with
  | case1 => exact ⟨_, rfl, fun _ => rfl, rfl, fun _ => trivial⟩
  | case2 => exact ⟨_, rfl, fun _ => rfl, rfl, fun _ => trivial⟩
  | case3 op left right ihl ihr =>
    simp only [Bool.and_eq_true] at h
    obtain ⟨l, hl, mirrorsl⟩ := ihl h.1.2
    obtain ⟨r, hr, mirrorsr⟩ := ihr h.2
    rw [tree?, hl, hr]
    exact ⟨_, rfl, mirrorsl.binary op mirrorsr⟩
  | case4 operand ih =>
    obtain ⟨o, ho, mirrors⟩ := ih h
    rw [tree?, ho]
    exact ⟨_, rfl, mirrors.negate⟩
  | case5 => cases h

/-- **The text of an arithmetic expression means what the expression means.** If no remainder shows
in the right operand of a product, the expression has a text, the text can be read, and whatever is
read in it has the exact value of the expression, whatever integers the columns hold. -/
theorem value_of_readsAs (d : Dialect) (indent : ℕ) (arithmetic : e.isArithmetic)
    (legible : e.Legible d) (apart : e.RemaindersApart) :
    ∃ text, e.render d indent = .ok text ∧ (∃ t, ReadsAs text t) ∧
      ∀ t, ReadsAs text t → ∀ columns, t.value? columns = e.value? columns := by
  obtain ⟨text, htext⟩ := exists_render_of_isArithmetic d indent arithmetic
  obtain ⟨s, hs, mirrors⟩ := exists_mirrors_of_isArithmetic d indent arithmetic
  obtain ⟨t, reads, regrouped⟩ :=
    exists_readsAs legible (notsApart_of_isArithmetic arithmetic) hs htext
  refine ⟨text, htext, ⟨t, reads⟩, ?_⟩
  intro t' reads' columns
  rw [reads'.unique reads, (regrouped.value?_eq (mirrors.remaindersApart apart)).1,
    mirrors.value?_eq]

/-- A sum, a product and a difference that stand without parentheses on the right. -/
def balance : Expr :=
  binary .add (column "t" "a")
    (binary .sub
      (binary .mul (column "t" "b") (binary .div (column "t" "c") (literal (.int (-4)))))
      (unary .neg (binary .mod (column "t" "a") (literal (.int 3)))))

/-- A quotient after a product, a negative number and a minus before a remainder. -/
theorem value_of_readsAs_balance :
    balance.render .hive 0 = .ok "t.a + t.b * t.c / -4 - -(t.a % 3)" ∧
      (∃ t, ReadsAs "t.a + t.b * t.c / -4 - -(t.a % 3)" t) ∧
      ∀ t, ReadsAs "t.a + t.b * t.c / -4 - -(t.a % 3)" t →
        ∀ columns, t.value? columns = balance.value? columns := by
  have legible : balance.Legible .hive := by decide +kernel
  have apart : balance.RemaindersApart := by
    simp [RemaindersApart, balance, level, showsRemainder]
  have written : balance.render .hive 0 = .ok "t.a + t.b * t.c / -4 - -(t.a % 3)" := rfl
  obtain ⟨text, htext, means⟩ := value_of_readsAs .hive 0 rfl legible apart
  obtain rfl := Except.ok.inj (htext.symm.trans written)
  exact ⟨htext, means⟩

def doubledRemainder : Expr :=
  binary .mul (literal (.int 2)) (binary .mod (column "t" "a") (column "t" "b"))

/-- Twice a remainder is read as the remainder of the double. -/
theorem doubledRemainder_reads_otherwise :
    doubledRemainder.isArithmetic ∧ doubledRemainder.render .hive 0 = .ok "2 * t.a % t.b" ∧
      ∃ t columns, ReadsAs "2 * t.a % t.b" t ∧
        doubledRemainder.value? columns = some 2 ∧ t.value? columns = some 0 := by
  have number : Phrase BinaryOp.mul.rank [.number "2"] (.constant (.integer 2)) :=
    .of_le (.atom rfl) (by decide)
  have column : ∀ name, Phrase 7 [.column "t" name] (.column "t" name) := fun _ =>
    .of_le (.atom rfl) (by decide)
  have product : Phrase BinaryOp.mod.rank [.number "2", .mark "*", .column "t" "a"] _ :=
    number.binary (column "a")
  have remainder : Phrase 1 (Token.ofText "2 * t.a % t.b") _ :=
    .of_le (product.binary (column "b")) (by decide)
  refine ⟨rfl, rfl, _, fun _ name => if name = "a" then 1 else 2, remainder, ?_, ?_⟩
  · simp [doubledRemainder, value?, BinaryOp.value?]
  · simp [Reading.value?, BinaryOp.value?]

end Expr

end HiveQuery
