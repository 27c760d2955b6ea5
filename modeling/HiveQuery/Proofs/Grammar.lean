import HiveQuery.Proofs.Tokens
/-!
# Reading an expression

The grammar of expressions over tokens. `Phrase r ts t` says that the tokens `ts` are an expression
that binds at least as tightly as the rank `r` and that they are read as `t`. The ranks are, the
loosest first: `OR`, `AND`, `NOT`, the comparisons with `LIKE`, `IS [NOT] NULL` and `IN`, the sums,
the products, the sign, and what stands alone. An operator of two operands groups to the left.

A text is read in one way at most (`ReadsAs.unique`): a reader with a stack, which closes what binds
tighter than the token that it meets, arrives at every reading that the grammar admits
(`Phrase.ofTokens?_eq`).
-/

namespace HiveQuery

/-! ## What is read -/

/-- The value that a literal writes. -/
inductive Constant where
  | null
  | bool (value : Bool)
  | integer (value : Int)
  | decimal (value : Binary64)
  | string (value : String)
  deriving DecidableEq

namespace Constant

/-- The number of an exponent, which may have a minus. -/
def exponent : List Char → Int
  | '-' :: digits => -Nat.ofDigitChars 10 digits 0
  | digits => Nat.ofDigitChars 10 digits 0

/-- The number nearest to the digits before and after a point, times a power of ten. -/
def ofDecimal (whole fraction : List Char) (exponent : Int) : Binary64 :=
  let coefficient := Nat.ofDigitChars 10 (whole ++ fraction) 0
  let scale := exponent - fraction.length
  if coefficient = 0 then .zero false
  else .ofRatio false (coefficient * 10 ^ scale.toNat) (10 ^ (-scale).toNat)

/-- The number that a numeral writes, an integer if it consists of digits alone. -/
def ofNumeral (numeral : String) : Constant :=
  let chars := numeral.toList
  let mantissa := chars.takeWhile (· != 'e')
  if chars.all Char.isDigit then integer (Nat.ofDigitChars 10 chars 0)
  else decimal (ofDecimal (mantissa.takeWhile (· != '.')) ((mantissa.dropWhile (· != '.')).drop 1)
    (exponent ((chars.dropWhile (· != 'e')).drop 1)))

end Constant

/-- The number with the other sign. -/
def Binary64.negate (x : Binary64) : Binary64 :=
  .ofMagnitude (!x.negative) (x.bits.toNat % signBit)

/-- An expression as it is read. The select of a subquery is kept as its tokens. -/
inductive Reading where
  | column (label name : String)
  | constant (value : Constant)
  | binary (op : BinaryOp) (left right : Reading)
  | negative (operand : Reading)
  | negation (operand : Reading)
  | isNull (operand : Reading) (negated : Bool)
  | inQuery (operand : Reading) (query : List Token)
  deriving DecidableEq

/-- The reading of a minus before an expression. A minus before a numeral is part of it. -/
def Reading.negate : Reading → Reading
  | constant (.integer n) => constant (.integer (-n))
  | constant (.decimal x) => constant (.decimal x.negate)
  | t => negative t

/-! ## The grammar -/

/-- How tightly an operator binds. -/
def BinaryOp.rank : BinaryOp → Nat
  | or => 1
  | and => 2
  | eq | ne | lt | le | gt | ge | like => 4
  | add | sub => 5
  | mul | div | mod => 6

/-- Nothing binds more loosely than `OR`. -/
theorem BinaryOp.rank_pos (op : BinaryOp) : 1 ≤ op.rank := by
  cases op <;> decide

/-- No operator of two operands binds like `NOT`, so there is no doubt which of the two is closed
first. -/
theorem BinaryOp.rank_ne_not (op : BinaryOp) : op.rank ≠ 3 := by
  cases op <;> decide

theorem BinaryOp.rank_ne_sign (op : BinaryOp) : op.rank ≠ 7 := by
  cases op <;> decide

/-- The expression that a token is by itself. -/
def Token.atom? : Token → Option Reading
  | word "NULL" => some (.constant .null)
  | word "TRUE" => some (.constant (.bool true))
  | word "FALSE" => some (.constant (.bool false))
  | column label field => some (.column label field)
  | number numeral => some (.constant (.ofNumeral numeral))
  | string value => some (.constant (.string value))
  | _ => none

/-- The words that test for null. -/
def Token.nullTest (negated : Bool) : List Token :=
  if negated then [.word "IS", .word "NOT", .word "NULL"] else [.word "IS", .word "NULL"]

/-- In how many parentheses a text stands after a token, if it does not close one too many. -/
def Token.nest (depth : Nat) : Token → Option Nat
  | opening => some (depth + 1)
  | closing =>
    match depth with
    | 0 => none
    | depth + 1 => some depth
  | _ => some depth

/-- In how many parentheses a text stands after tokens. -/
def Token.depth? (depth : Nat) (ts : List Token) : Option Nat :=
  ts.foldlM nest depth

theorem Token.depth?_cons (depth : Nat) (token : Token) (ts : List Token) :
    depth? depth (token :: ts) = (nest depth token).bind fun depth' => depth? depth' ts :=
  List.foldlM_cons

theorem Token.depth?_append (depth : Nat) (ts us : List Token) :
    depth? depth (ts ++ us) = (depth? depth ts).bind fun depth' => depth? depth' us :=
  List.foldlM_append

/-- Only parentheses change the depth. -/
theorem Token.nest_eq_some {token : Token} (hopening : token ≠ .opening)
    (hclosing : token ≠ .closing) (depth : Nat) : nest depth token = some depth := by
  cases token with
  | opening => exact absurd rfl hopening
  | closing => exact absurd rfl hclosing
  | _ => rfl

/-- The tokens are an expression of the rank or one that binds tighter, and are read as given. -/
inductive Phrase : Nat → List Token → Reading → Prop
  | atom {token : Token} {t : Reading} (h : token.atom? = some t) : Phrase 8 [token] t
  | parens {ts : List Token} {t : Reading} (h : Phrase 1 ts t) :
      Phrase 8 (.opening :: (ts ++ [.closing])) t
  | minus {ts : List Token} {t : Reading} (h : Phrase 7 ts t) : Phrase 7 (.mark "-" :: ts) t.negate
  | not {ts : List Token} {t : Reading} (h : Phrase 3 ts t) :
      Phrase 3 (.word "NOT" :: ts) (.negation t)
  | binary {op : BinaryOp} {ts us : List Token} {l r : Reading} (hl : Phrase op.rank ts l)
      (hr : Phrase (op.rank + 1) us r) : Phrase op.rank (ts ++ op.token :: us) (.binary op l r)
  | isNull {ts : List Token} {t : Reading} {negated : Bool} (h : Phrase 4 ts t) :
      Phrase 4 (ts ++ Token.nullTest negated) (.isNull t negated)
  | inQuery {ts query : List Token} {t : Reading} (h : Phrase 4 ts t)
      (hq : Token.depth? 0 query = some 0) :
      Phrase 4 (ts ++ .word "IN" :: .opening :: (query ++ [.closing])) (.inQuery t query)
  | looser {r : Nat} {ts : List Token} {t : Reading} (h : Phrase (r + 1) ts t) : Phrase r ts t

/-- The text is an expression that is read as given. -/
def ReadsAs (text : String) (t : Reading) : Prop :=
  Phrase 1 (Token.ofText text) t

/-- What binds tightly enough for a rank does for every looser one. -/
theorem Phrase.of_le {r r' : Nat} {ts : List Token} {t : Reading} (h : Phrase r ts t)
    (hr : r' ≤ r) : Phrase r' ts t := by
  induction r with
  | zero => rwa [Nat.le_zero.1 hr]
  | succ r ih =>
    rcases Nat.eq_or_lt_of_le hr with rfl | hlt
    · exact h
    · exact ih h.looser (Nat.le_of_lt_succ hlt)

/-! ## The reader -/

/-- What a reader has begun and not yet ended. -/
inductive Begun where
  | parens
  | not
  | minus
  | left (op : BinaryOp) (operand : Reading)

namespace Begun

/-- How tightly the frame binds what follows it. -/
def rank : Begun → Nat
  | parens => 0
  | not => 3
  | minus => 7
  | left op _ => op.rank

/-- The least rank of what may follow the frame. -/
def floor : Begun → Nat
  | parens => 1
  | not => 3
  | minus => 7
  | left op _ => op.rank + 1

/-- The expression that a frame makes of the one that ends it. -/
def close : Begun → Reading → Reading
  | parens, t => t
  | not, t => .negation t
  | minus, t => t.negate
  | left op l, t => .binary op l t

/-- The begun that remain where something of the given rank follows an expression, and the
expression that the others make of it. -/
def closeAll (rank : Nat) : List Begun → Reading → List Begun × Reading
  | [], t => ([], t)
  | f :: fs, t => if rank ≤ f.rank then closeAll rank fs (f.close t) else (f :: fs, t)

/-- Whether an expression of the rank may follow the begun. -/
def admits (rank : Nat) : List Begun → Bool
  | [] => true
  | f :: _ => f.floor ≤ rank

end Begun

/-- Where a reader stands. -/
inductive Reader where
  | operand (begun : List Begun)
  | complete (begun : List Begun) (t : Reading)
  | afterIs (begun : List Begun) (t : Reading)
  | afterIsNot (begun : List Begun) (t : Reading)
  | afterIn (begun : List Begun) (t : Reading)
  /-- Inside a subquery, in so many of its own parentheses. -/
  | inside (begun : List Begun) (t : Reading) (depth : Nat) (query : List Token)

namespace Reader

/-- The operator of a token. -/
def operator? (token : Token) : Option BinaryOp :=
  [.or, .and, .eq, .ne, .lt, .le, .gt, .ge, .like, .add, .sub, .mul, .div, .mod].find?
    fun op => op.token = token

def step : Reader → Token → Option Reader
  | operand fs, token =>
    if token = .opening then some (operand (.parens :: fs))
    else if token = .mark "-" then some (operand (.minus :: fs))
    else if token = .word "NOT" then if Begun.admits 3 fs then some (operand (.not :: fs)) else none
    else token.atom?.map (complete fs)
  | complete fs t, token =>
    if token = .closing then
      match Begun.closeAll 1 fs t with
      | (.parens :: fs, t) => some (complete fs t)
      | _ => none
    else if token = .word "IS" then
      some (afterIs (Begun.closeAll 4 fs t).1 (Begun.closeAll 4 fs t).2)
    else if token = .word "IN" then
      some (afterIn (Begun.closeAll 4 fs t).1 (Begun.closeAll 4 fs t).2)
    else (operator? token).map fun op =>
      operand (.left op (Begun.closeAll op.rank fs t).2 :: (Begun.closeAll op.rank fs t).1)
  | afterIs fs t, token =>
    if token = .word "NULL" then some (complete fs (.isNull t false))
    else if token = .word "NOT" then some (afterIsNot fs t)
    else none
  | afterIsNot fs t, token =>
    if token = .word "NULL" then some (complete fs (.isNull t true)) else none
  | afterIn fs t, token => if token = .opening then some (inside fs t 0 []) else none
  | inside fs t depth query, token =>
    if token = .opening then some (inside fs t (depth + 1) (query ++ [token]))
    else if token = .closing then
      match depth with
      | 0 => some (complete fs (.inQuery t query))
      | depth + 1 => some (inside fs t depth (query ++ [token]))
    else some (inside fs t depth (query ++ [token]))

/-- The reader after all of the tokens. -/
def run (m : Reader) (ts : List Token) : Option Reader :=
  ts.foldlM step m

/-- The expression that has been read, if nothing is left open. -/
def result? : Reader → Option Reading
  | complete fs t =>
    match Begun.closeAll 1 fs t with
    | ([], t) => some t
    | _ => none
  | _ => none

theorem run_cons (m : Reader) (token : Token) (ts : List Token) :
    m.run (token :: ts) = (m.step token).bind fun m' => m'.run ts :=
  List.foldlM_cons

theorem run_append (m : Reader) (ts us : List Token) :
    m.run (ts ++ us) = (m.run ts).bind fun m' => m'.run us :=
  List.foldlM_append

end Reader

/-- The reading of tokens that are an expression. -/
def Reading.ofTokens? (ts : List Token) : Option Reading :=
  ((Reader.operand []).run ts).bind Reader.result?

/-! ## Every phrase is read -/

namespace Begun

/-- Nothing is closed where an operator follows an expression that its begun admit. -/
theorem closeAll_of_admits {r : Nat} {fs : List Begun} (h : admits r fs) (hnot : r ≠ 3)
    (hminus : r ≠ 7) (hpos : 0 < r) (t : Reading) : closeAll r fs t = (fs, t) := by
  cases fs with
  | nil => rfl
  | cons f fs =>
    have hfloor : f.floor ≤ r := of_decide_eq_true h
    have hrank : ¬ r ≤ f.rank := by
      cases f <;> simp only [floor, rank] at hfloor ⊢ <;> omega
    rw [closeAll, if_neg hrank]

/-- Where a phrase may stand, a tighter one may. -/
theorem admits_of_le {r r' : Nat} {fs : List Begun} (h : admits r fs) (hr : r ≤ r') :
    admits r' fs := by
  cases fs with
  | nil => rfl
  | cons f fs => exact decide_eq_true (Nat.le_trans (of_decide_eq_true h) hr)

end Begun

namespace Reader

/-- An atom completes the operand that the reader waits for. -/
theorem step_atom {token : Token} {t : Reading} (h : token.atom? = some t) (fs : List Begun) :
    (operand fs).step token = some (complete fs t) := by
  have opening : token ≠ .opening := by
    rintro rfl
    cases h
  have minus : token ≠ .mark "-" := by
    rintro rfl
    cases h
  have not : token ≠ .word "NOT" := by
    rintro rfl
    cases h
  simp [step, opening, minus, not, h]

/-- An operator closes what binds at least as tightly as it does, and waits for its right
operand. -/
theorem step_operator (op : BinaryOp) (fs : List Begun) (t : Reading) :
    (complete fs t).step op.token = some (operand
      (.left op (Begun.closeAll op.rank fs t).2 :: (Begun.closeAll op.rank fs t).1)) := by
  cases op <;> rfl

/-- A reader inside a subquery takes the tokens as they are, to the depth that they lead to. -/
theorem run_inside {query : List Token} {depth depth' : Nat}
    (h : Token.depth? depth query = some depth') (fs : List Begun) (t : Reading)
    (before : List Token) :
    (inside fs t depth before).run query = some (inside fs t depth' (before ++ query)) := by
  induction query generalizing depth before with
  | nil =>
    obtain rfl := Option.some.inj h
    rw [List.append_nil]
    rfl
  | cons token query ih =>
    rw [Token.depth?_cons] at h
    obtain ⟨depth'', hnest, hrest⟩ := Option.bind_eq_some_iff.1 h
    have taken : (inside fs t depth before).step token =
        some (inside fs t depth'' (before ++ [token])) := by
      by_cases hopening : token = .opening
      · subst hopening
        obtain rfl := Option.some.inj hnest
        rfl
      by_cases hclosing : token = .closing
      · subst hclosing
        cases depth with
        | zero => cases hnest
        | succ depth =>
          obtain rfl := Option.some.inj hnest
          rfl
      · rw [Token.nest_eq_some hopening hclosing] at hnest
        obtain rfl := Option.some.inj hnest
        simp [step, hopening, hclosing]
    rw [run_cons, taken, Option.bind_some, ih hrest, List.append_assoc, List.singleton_append]

/-- A null test closes what binds tighter than a comparison, and takes it for its operand. -/
theorem run_nullTest (negated : Bool) (fs : List Begun) (t : Reading) :
    (complete fs t).run (Token.nullTest negated) =
      some (complete (Begun.closeAll 4 fs t).1 (.isNull (Begun.closeAll 4 fs t).2 negated)) := by
  cases negated <;> rfl

/-- The tokens of a subquery are skipped up to the parenthesis that closes it. -/
theorem run_inQuery {query : List Token} (h : Token.depth? 0 query = some 0) (fs : List Begun)
    (t : Reading) :
    (complete fs t).run (.word "IN" :: .opening :: (query ++ [.closing])) =
      some (complete (Begun.closeAll 4 fs t).1 (.inQuery (Begun.closeAll 4 fs t).2 query)) := by
  have begun : (complete fs t).step (.word "IN") =
      some (afterIn (Begun.closeAll 4 fs t).1 (Begun.closeAll 4 fs t).2) := rfl
  have entered : ∀ fs t, (afterIn fs t).step .opening = some (inside fs t 0 []) := fun _ _ => rfl
  rw [run_cons, begun, Option.bind_some, run_cons, entered, Option.bind_some, run_append,
    run_inside h, Option.bind_some, List.nil_append]
  rfl

end Reader

/-- **A phrase is read.** Where the begun admit it, the reader passes over its tokens and stands at
an expression that, for whatever follows, is the one that the grammar says. -/
theorem Phrase.exists_run {r : Nat} {ts : List Token} {t : Reading} (h : Phrase r ts t) :
    ∀ fs, Begun.admits r fs → ∃ fs' u, (Reader.operand fs).run ts = some (.complete fs' u) ∧
      ∀ p, 1 ≤ p → p ≤ r → Begun.closeAll p fs' u = Begun.closeAll p fs t := by
  induction h with
  | atom h =>
    intro fs _
    refine ⟨fs, _, ?_, fun _ _ _ => rfl⟩
    rw [Reader.run_cons, Reader.step_atom h]
    rfl
  | @parens ts t _ ih =>
    intro fs _
    obtain ⟨fs', u, hrun, hclose⟩ := ih (.parens :: fs) rfl
    refine ⟨fs, t, ?_, fun _ _ _ => rfl⟩
    have begun : (Reader.operand fs).step .opening = some (.operand (.parens :: fs)) := rfl
    have closed : Begun.closeAll 1 fs' u = (.parens :: fs, t) :=
      hclose 1 (Nat.le_refl _) (Nat.le_refl _)
    have ended : (Reader.complete fs' u).step .closing = some (.complete fs t) := by
      simp [Reader.step, closed]
    rw [Reader.run_cons, begun, Option.bind_some, Reader.run_append, hrun, Option.bind_some,
      Reader.run_cons, ended]
    rfl
  | @minus ts t _ ih =>
    intro fs _
    obtain ⟨fs', u, hrun, hclose⟩ := ih (.minus :: fs) rfl
    have begun : (Reader.operand fs).step (.mark "-") = some (.operand (.minus :: fs)) := rfl
    refine ⟨fs', u, ?_, fun p hp hr => ?_⟩
    · rw [Reader.run_cons, begun, Option.bind_some, hrun]
    · rw [hclose p hp hr, Begun.closeAll, if_pos (show p ≤ Begun.minus.rank from hr)]
      rfl
  | @not ts t _ ih =>
    intro fs hfs
    obtain ⟨fs', u, hrun, hclose⟩ := ih (.not :: fs) rfl
    have begun : (Reader.operand fs).step (.word "NOT") = some (.operand (.not :: fs)) := by
      simp [Reader.step, hfs]
    refine ⟨fs', u, ?_, fun p hp hr => ?_⟩
    · rw [Reader.run_cons, begun, Option.bind_some, hrun]
    · rw [hclose p hp hr, Begun.closeAll, if_pos (show p ≤ Begun.not.rank from hr)]
      rfl
  | @binary op ts us l r _ _ ihl ihr =>
    intro fs hfs
    obtain ⟨fs₁, u₁, hrun₁, hclose₁⟩ := ihl fs hfs
    obtain ⟨fs₂, u₂, hrun₂, hclose₂⟩ := ihr (.left op l :: fs) (by simp [Begun.admits, Begun.floor])
    -- What stands before the operator and binds tighter has been closed when it is met.
    have closed : Begun.closeAll op.rank fs₁ u₁ = (fs, l) := by
      rw [hclose₁ op.rank op.rank_pos (Nat.le_refl _)]
      exact Begun.closeAll_of_admits hfs op.rank_ne_not op.rank_ne_sign op.rank_pos l
    refine ⟨fs₂, u₂, ?_, fun p hp hr => ?_⟩
    · rw [Reader.run_append, hrun₁, Option.bind_some, Reader.run_cons, Reader.step_operator, closed,
        Option.bind_some, hrun₂]
    · rw [hclose₂ p hp (by omega), Begun.closeAll, if_pos (show p ≤ (Begun.left op l).rank from hr)]
      rfl
  | @isNull ts t negated _ ih =>
    intro fs hfs
    obtain ⟨fs', u, hrun, hclose⟩ := ih fs hfs
    have closed : Begun.closeAll 4 fs' u = (fs, t) := by
      rw [hclose 4 (by decide) (Nat.le_refl _)]
      exact Begun.closeAll_of_admits hfs (by decide) (by decide) (by decide) t
    refine ⟨fs, _, ?_, fun _ _ _ => rfl⟩
    rw [Reader.run_append, hrun, Option.bind_some, Reader.run_nullTest, closed]
  | @inQuery ts query t _ hq ih =>
    intro fs hfs
    obtain ⟨fs', u, hrun, hclose⟩ := ih fs hfs
    have closed : Begun.closeAll 4 fs' u = (fs, t) := by
      rw [hclose 4 (by decide) (Nat.le_refl _)]
      exact Begun.closeAll_of_admits hfs (by decide) (by decide) (by decide) t
    refine ⟨fs, _, ?_, fun _ _ _ => rfl⟩
    rw [Reader.run_append, hrun, Option.bind_some, Reader.run_inQuery hq, closed]
  | looser h ih =>
    intro fs hfs
    obtain ⟨fs', u, hrun, hclose⟩ := ih fs (Begun.admits_of_le hfs (Nat.le_succ _))
    exact ⟨fs', u, hrun, fun p hp hr => hclose p hp (Nat.le_succ_of_le hr)⟩

/-- The reader finds the reading of a text. -/
theorem Phrase.ofTokens?_eq {ts : List Token} {t : Reading} (h : Phrase 1 ts t) :
    Reading.ofTokens? ts = some t := by
  obtain ⟨fs, u, hrun, hclose⟩ := h.exists_run [] rfl
  have closed : Begun.closeAll 1 fs u = ([], t) := hclose 1 (Nat.le_refl 1) (Nat.le_refl 1)
  simp [Reading.ofTokens?, hrun, Reader.result?, closed]

/-- **An expression is read in one way at most**, since the reader arrives at every reading. -/
theorem Phrase.unique {ts : List Token} {t t' : Reading} (h : Phrase 1 ts t)
    (h' : Phrase 1 ts t') : t = t' :=
  Option.some.inj (h.ofTokens?_eq.symm.trans h'.ofTokens?_eq)

/-- **A text has one reading.** -/
theorem ReadsAs.unique {text : String} {t t' : Reading} (h : ReadsAs text t)
    (h' : ReadsAs text t') : t = t' :=
  Phrase.unique h h'

end HiveQuery
