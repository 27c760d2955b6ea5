import HiveQuery.Proofs.ExpressionText
import HiveQuery.Proofs.Outcome
/-!
# No text holds a comment marker

Two minuses side by side begin a comment, and a comment would swallow the rest of its line. Minuses
come from negative numbers, from exponents, from negation and from subtraction, in any nesting, and
no two of them ever meet, unless a name or a string brings them along
(`Select.uncommented_of_render`).

The argument is local. Call a text *uncommented* if it holds no two adjacent minuses and does not
end with one. Such texts can be put side by side, and every piece that a text is made of is one. A
minus is put right before a text in two ways only: as the sign of a number or of an exponent, which
goes before a digit, and by negation, which looks at how its operand begins.
-/

namespace HiveQuery

open QueryText

/-! ## Trees without a minus of their own -/

namespace Node

/-- The names and the strings that a node brings along. -/
def texts : Node → List String
  | select s => s.label :: s.columns.map (·.name)
  | source (.table name label) => [name, label]
  | expr (.column label name) => [label, name]
  | expr (.literal (.string value)) => [value]
  | expr (.cast _ type) => type.fieldNames
  | expr (.call name _ _) => [name]
  | _ => []

/-- None of them has a minus. -/
def Minusless (n : Node) : Prop :=
  ∀ text ∈ n.texts, '-' ∉ text.toList

instance (n : Node) : Decidable n.Minusless :=
  inferInstanceAs (Decidable (∀ text ∈ n.texts, '-' ∉ text.toList))

end Node

def Expr.Minusless (e : Expr) : Prop :=
  ∀ n ∈ e.nodes, n.Minusless

def Source.Minusless (s : Source) : Prop :=
  ∀ n ∈ s.nodes, n.Minusless

def Select.Minusless (s : Select) : Prop :=
  ∀ n ∈ s.nodes, n.Minusless

instance (s : Select) : Decidable s.Minusless :=
  inferInstanceAs (Decidable (∀ n ∈ s.nodes, n.Minusless))

theorem Expr.Minusless.own {e : Expr} (h : e.Minusless) : (Node.expr e).Minusless :=
  h _ (by rw [Expr.nodes_eq]; exact List.mem_cons_self)

/-- The parts of an expression bring no other names along. -/
theorem Expr.Minusless.part {e p : Expr} (h : e.Minusless) (hp : p ∈ e.parts) : p.Minusless := by
  intro n hn
  apply h
  rw [Expr.nodes_eq]
  exact List.mem_cons_of_mem _ (List.mem_append_left _ (List.mem_flatMap_of_mem hp hn))

theorem Select.Minusless.own {s : Select} (h : s.Minusless) : (Node.select s).Minusless :=
  h _ (by rw [Select.nodes_eq]; exact List.mem_cons_self)

/-! ## Uncommented texts -/

/-- **A text that holds no comment marker and does not end with half of one.** -/
structure Uncommented (text : String) : Prop where
  apart : text.toList.IsChain fun c c' => ¬ (c = '-' ∧ c' = '-')
  ends : text.toList.getLast? ≠ some '-'

namespace Uncommented

variable {a b : String}

/-- Two uncommented texts can be put together: the first does not end with a minus. -/
theorem append (ha : Uncommented a) (hb : Uncommented b) : Uncommented (a ++ b) := by
  constructor
  · rw [String.toList_append, List.isChain_append]
    exact ⟨ha.apart, hb.apart, fun c hc _ _ h => ha.ends (h.1 ▸ hc)⟩
  · rw [String.toList_append, List.getLast?_append]
    cases hlast : b.toList.getLast? with
    | none => simpa using ha.ends
    | some c => simpa [hlast] using hb.ends

/-- A text without a minus. -/
theorem of_not_mem (h : '-' ∉ a.toList) : Uncommented a := by
  refine ⟨(List.pairwise_of_forall_mem_list fun c hc c' _ => ?_).isChain, fun hlast => ?_⟩
  · rintro ⟨rfl, -⟩
    exact h hc
  · exact h (List.mem_of_getLast? hlast)

/-- A text that is known is looked through. -/
theorem word (text : String) (h : text.toList.all (· != '-') = true) : Uncommented text :=
  of_not_mem fun hmem => by simpa using List.all_eq_true.1 h '-' hmem

/-- A minus may stand before a text that does not begin with one. -/
theorem minus (ha : Uncommented a) (nonempty : a.toList ≠ []) (head : a.toList.head? ≠ some '-') :
    Uncommented ("-" ++ a) := by
  have cons : ("-" ++ a).toList = '-' :: a.toList := by simp
  constructor
  · rw [cons, List.isChain_cons]
    exact ⟨fun c hc both => head (both.2 ▸ hc), ha.apart⟩
  · rw [cons, List.getLast?_cons_of_ne_nil nonempty]
    exact ha.ends

/-- Texts without a minus may stand before and after. -/
theorem between (ha : Uncommented a) (before after : String)
    (hbefore : before.toList.all (· != '-') = true) (hafter : after.toList.all (· != '-') = true) :
    Uncommented (before ++ a ++ after) :=
  ((word before hbefore).append ha).append (word after hafter)

theorem parens (ha : Uncommented a) : Uncommented ("(" ++ a ++ ")") :=
  ha.between "(" ")" (by decide) (by decide)

/-- Uncommented texts may be strung together by one without a marker. -/
theorem intercalate {separator : String} (hseparator : Uncommented separator)
    {parts : List String} (h : ∀ part ∈ parts, Uncommented part) :
    Uncommented (separator.intercalate parts) := by
  induction parts with
  | nil => exact word "" (by decide)
  | cons part parts ih =>
    rw [List.forall_mem_cons] at h
    cases parts with
    | nil =>
      rw [String.intercalate_singleton]
      exact h.1
    | cons part' parts =>
      rw [String.intercalate_cons_cons]
      exact (h.1.append hseparator).append (ih h.2)

theorem join {parts : List String} (h : ∀ part ∈ parts, Uncommented part) :
    Uncommented (String.join parts) := by
  induction parts with
  | nil => exact word "" (by decide)
  | cons part parts ih =>
    rw [List.forall_mem_cons] at h
    rw [String.join_cons]
    exact h.1.append (ih h.2)

theorem listed {parts : List String} (h : ∀ part ∈ parts, Uncommented part) :
    Uncommented (listed parts) :=
  intercalate (word ", " (by decide)) h

/-- **An uncommented text holds no comment marker.** -/
theorem no_marker (h : Uncommented a) : ¬ "--".toList <:+: a.toList := by
  intro marker
  have two := List.IsChain.infix h.apart marker
  simp at two

end Uncommented

/-! ## Numbers -/

/-- There is no minus among digits. -/
theorem uncommented_digits {cs : List Char} (h : ∀ c ∈ cs, c.isDigit) :
    Uncommented (String.ofList cs) := by
  refine .of_not_mem fun hmem => ?_
  rw [String.toList_ofList] at hmem
  exact absurd (h '-' hmem) (by decide)

section

variable {cs : List Char} (h : ∀ c ∈ cs, c.isDigit) (n : ℕ)

include h

theorem uncommented_take : Uncommented (String.ofList (cs.take n)) :=
  uncommented_digits fun c hc => h c (List.mem_of_mem_take hc)

theorem uncommented_drop : Uncommented (String.ofList (cs.drop n)) :=
  uncommented_digits fun c hc => h c (List.mem_of_mem_drop hc)

end

theorem uncommented_repr (n : ℕ) : Uncommented n.repr := by
  rw [← String.ofList_toList (s := n.repr), Nat.toList_repr]
  exact uncommented_digits fun c hc => Nat.isDigit_of_mem_toDigits (by decide) (by decide) hc

/-- A single minus before a number is no marker. -/
theorem uncommented_minus_repr (n : ℕ) : Uncommented ("-" ++ n.repr) :=
  (uncommented_repr n).minus (spells_repr_unsigned n).2.1 (spells_repr_unsigned n).2.2

namespace NumberLayout

variable {layout : NumberLayout} {d : Decimal}

/-- The digits of a decimal, with a point or an exponent, hold no marker: after the minus of an
exponent there is a digit. -/
theorem uncommented_positional (hdigits : ∀ c ∈ d.digits, c.isDigit) :
    Uncommented (positional d) := by
  have zeros (n : ℕ) : Uncommented ("".pushn '0' n) := by
    refine .of_not_mem fun hmem => ?_
    rw [toList_pushn] at hmem
    exact absurd (List.eq_of_mem_replicate hmem) (by decide)
  have first (n : ℕ) := uncommented_take hdigits n
  have others (n : ℕ) := uncommented_drop hdigits n
  have point := Uncommented.word "." (by decide)
  unfold positional
  simp only
  split_ifs with hexponent hempty
  · exact (((first _).append (zeros _)).append point).append (.word "0" (by decide))
  · exact (((first _).append (zeros _)).append point).append (others _)
  · exact ((Uncommented.word "0." (by decide)).append (zeros _)).append (uncommented_digits hdigits)

/-- A minus in a numeral stands between the letter and the digits of its exponent. -/
theorem uncommented_scientific (plain : layout.exponentPlus = "")
    (hdigits : ∀ c ∈ d.digits, c.isDigit) : Uncommented (layout.scientific d) := by
  have letter := Uncommented.word "e" (by decide)
  unfold scientific
  simp only
  refine ((uncommented_take hdigits 1).append ?_).append ?_
  · split_ifs
    · exact .word "" (by decide)
    · exact (Uncommented.word "." (by decide)).append (uncommented_drop hdigits 1)
  · split_ifs
    · rw [plain]
      exact (letter.append (.word "" (by decide))).append (uncommented_repr _)
    · have exponent := letter.append (uncommented_minus_repr (-d.exponent).toNat)
      rwa [← String.append_assoc] at exponent

end NumberLayout

/-- The shortest decimal of a float is a number and a scale, so it has digits only. -/
theorem Binary64.exists_ofScaled (x : Binary64) (tie : Tie) :
    ∃ c s, x.shortest tie = .ofScaled c s := by
  unfold shortest
  simp only
  cases h : (List.range 17).findSome? _ with
  | none => exact ⟨0, 0, rfl⟩
  | some d =>
    obtain ⟨n, -, hd⟩ := List.exists_of_findSome?_eq_some h
    unfold decimalOfLength? at hd
    simp only at hd
    split_ifs at hd <;> exact ⟨_, _, (Option.some.inj hd).symm⟩

/-- The text of a finite number, sign and all. -/
theorem NumberLayout.uncommented_text {layout : NumberLayout} (plain : layout.exponentPlus = "")
    {x : Binary64} (hx : x.isFinite) : Uncommented (layout.text x) := by
  have body : ∃ body, layout.text x = (if x.negative then "-" else "") ++ body ∧
      Uncommented body := by
    have hdigits : ∀ c ∈ (x.shortest layout.tie).digits, c.isDigit := by
      obtain ⟨c, s, hshort⟩ := x.exists_ofScaled layout.tie
      rw [hshort]
      exact fun _ => Decimal.isDigit_of_mem_ofScaled
    unfold text
    simp only
    generalize (if x.negative then "-" else "") = sign
    split_ifs
    · exact ⟨_, rfl, .word "0.0" (by decide)⟩
    · exact ⟨_, rfl, uncommented_positional hdigits⟩
    · exact ⟨_, rfl, uncommented_scientific plain hdigits⟩
  obtain ⟨body, hbody, uncommented⟩ := body
  obtain ⟨numeral, w, hnumeral, hwrites, -⟩ := exists_numeral plain hx
  obtain rfl : numeral = body := by
    have same := congrArg String.toList (hnumeral.symm.trans hbody)
    rw [String.toList_append, String.toList_append] at same
    exact String.toList_inj.1 (List.append_cancel_left same)
  obtain ⟨-, nonempty, head⟩ := hwrites.spells
  rw [hbody]
  split_ifs
  · exact uncommented.minus nonempty head
  · simpa using uncommented

/-! ## Names, strings and types -/

/-- Quoting a text adds no minus. -/
theorem uncommented_quoteString {value : String} (h : '-' ∉ value.toList) :
    Uncommented (Text.quoteString value) := by
  refine .of_not_mem fun hmem => ?_
  simp only [Text.quoteString, String.toList_ofList, List.cons_append, List.mem_cons,
    List.mem_append, List.mem_flatMap, List.not_mem_nil, or_false] at hmem
  rcases hmem with hquote | ⟨c, hc, hmem⟩ | hquote
  · exact absurd hquote (by decide)
  · rcases Text.escapeChar_eq c with ⟨bare, -⟩ | ⟨c', escaped, rfl⟩
    · rw [bare, List.mem_singleton] at hmem
      exact h (hmem ▸ hc)
    · -- A minus is no letter of an escape: behind a backslash it would stand for itself.
      simp only [escaped, List.mem_cons, List.not_mem_nil, or_false] at hmem
      rcases hmem with hbackslash | rfl
      · exact absurd hbackslash (by decide)
      · exact h hc
  · exact absurd hquote (by decide)

/-- Quoting a name adds no minus. -/
theorem Dialect.uncommented_quote (d : Dialect) {name : String} (h : '-' ∉ name.toList) :
    Uncommented (d.quote name) := by
  unfold Dialect.quote
  split
  · refine .of_not_mem fun hmem => ?_
    simp only [Text.quoteIdentifier, Text.doubleBacktick, String.toList_ofList, List.cons_append,
      List.mem_cons, List.mem_append, List.mem_flatMap, List.not_mem_nil, or_false] at hmem
    rcases hmem with hquote | ⟨c, hc, hmem⟩ | hquote
    · exact absurd hquote (by decide)
    · split at hmem
      · exact absurd hmem (by decide)
      · exact h (List.mem_singleton.1 hmem ▸ hc)
    · exact absurd hquote (by decide)
  · exact .of_not_mem h

namespace DataType

mutual

/-- The name of a type holds no minus if its fields hold none. -/
theorem uncommented_text : ∀ type : DataType,
    (∀ name ∈ type.fieldNames, '-' ∉ name.toList) → Uncommented type.text
  | decimal precision scale, _ => by
    have first := (uncommented_repr precision.toNat).between "DECIMAL(" "," (by decide) (by decide)
    rw [text]
    exact (first.append (uncommented_repr scale.toNat)).append (.word ")" (by decide))
  | varchar length, _ => by
    rw [text]
    exact (uncommented_repr _).between "VARCHAR(" ")" (by decide) (by decide)
  | char length, _ => by
    rw [text]
    exact (uncommented_repr _).between "CHAR(" ")" (by decide) (by decide)
  | array element, h => by
    rw [text]
    exact (uncommented_text element h).between "ARRAY<" ">" (by decide) (by decide)
  | map key value, h => by
    rw [fieldNames, List.forall_mem_append] at h
    have key' := (uncommented_text key h.1).between "MAP<" "," (by decide) (by decide)
    rw [text]
    exact (key'.append (uncommented_text value h.2)).append (.word ">" (by decide))
  | struct fields, h => by
    have comma := Uncommented.word "," (by decide)
    rw [text]
    exact (Uncommented.intercalate comma (uncommented_textFields fields h)).between "STRUCT<" ">"
      (by decide) (by decide)
  | boolean, _ | tinyInt, _ | smallInt, _ | int, _ | bigInt, _ | float, _ | double, _ | string, _
  | binary, _ | date, _ | timestamp, _ | unknown, _ => by
    rw [text]
    exact .word _ (by decide)

theorem uncommented_textFields : ∀ fields : List StructField,
    (∀ name ∈ fieldNamesList fields, '-' ∉ name.toList) →
      ∀ text ∈ textFields fields, Uncommented text
  | [], _ => by simp [textFields]
  | ⟨name, type⟩ :: fields, h => by
    rw [fieldNamesList, List.forall_mem_cons, List.forall_mem_append] at h
    rw [textFields, List.forall_mem_cons]
    exact ⟨((Uncommented.of_not_mem h.1).append (.word ":" (by decide))).append
      (uncommented_text type h.2.1), uncommented_textFields fields h.2.2⟩

end

end DataType

/-- The text of a literal holds no marker if a string has no minus in it. A negative number begins
with one. -/
theorem Literal.uncommented_of_render {value : Literal} {text : String}
    (h : value.render = .ok text) (names : ∀ s, value = .string s → '-' ∉ s.toList) :
    Uncommented text := by
  cases value with
  | null =>
    obtain rfl := Except.ok.inj h
    exact .word "NULL" (by decide)
  | bool value =>
    cases value with
    | false =>
      obtain rfl := Except.ok.inj h
      exact .word "FALSE" (by decide)
    | true =>
      obtain rfl := Except.ok.inj h
      exact .word "TRUE" (by decide)
  | int value =>
    obtain rfl := Except.ok.inj h
    show Uncommented value.toInt.repr
    cases value.toInt with
    | ofNat n => exact uncommented_repr n
    | negSucc n => exact uncommented_minus_repr (n + 1)
  | float value =>
    rw [Literal.render] at h
    split_ifs at h with finite
    obtain rfl := Except.ok.inj h
    have plain : QueryText.numberLayout.exponentPlus = "" := rfl
    exact NumberLayout.uncommented_text plain finite
  | string value =>
    obtain rfl := Except.ok.inj h
    exact uncommented_quoteString (names value rfl)

/-! ## The pieces of a text -/

/-- An operator and its operand do not vanish from the text. -/
theorem UnaryOp.toList_apply_ne_nil (op : UnaryOp) (operand : String) :
    (op.apply operand).toList ≠ [] := by
  cases op with
  | not => simp [UnaryOp.apply]
  | neg =>
    simp only [UnaryOp.apply]
    split <;> simp

namespace Uncommented

variable {d : Dialect} {a : String}

theorem blanks (count : ℕ) : Uncommented (blanks count) := by
  refine of_not_mem fun hmem => ?_
  rw [QueryText.blanks, String.toList_ofList] at hmem
  exact absurd (List.eq_of_mem_replicate hmem) (by decide)

theorem enclosed (ha : Uncommented a) (indent : ℕ) : Uncommented (enclosed indent a) :=
  ((ha.between "(\n" "\n" (by decide) (by decide)).append (blanks indent)).append
    (word ")" (by decide))

/-- Parentheses around an operand do no harm. -/
theorem operandText (ha : Uncommented a) (e : Expr) (floor : ℕ) :
    Uncommented (e.operandText floor a) := by
  unfold Expr.operandText
  split
  · exact ha.parens
  · exact ha

/-- The minus of a subtraction has blanks around it. -/
theorem symbol (op : BinaryOp) : Uncommented (" " ++ op.symbol ++ " ") := by
  cases op with
  | sub => exact ⟨by decide, by decide⟩
  | _ => exact word _ (by decide)

/-- **Negation never makes a comment marker.** -/
theorem apply (ha : Uncommented a) (nonempty : a.toList ≠ []) (op : UnaryOp) :
    Uncommented (op.apply a) := by
  cases op with
  | not => exact (word "NOT " (by decide)).append ha
  | neg =>
    simp only [UnaryOp.apply, beq_iff_eq]
    split_ifs with head
    · have apart : "-(" ++ a ++ ")" = "-" ++ ("(" ++ a ++ ")") := by simp [← String.toList_inj]
      rw [apart]
      exact ha.parens.minus (by simp) (by simp)
    · exact ha.minus nonempty head

theorem distinct (distinct : Bool) : Uncommented (if distinct then "DISTINCT " else "") := by
  cases distinct <;> exact word _ (by decide)

theorem direction (ha : Uncommented a) (direction : Direction) :
    Uncommented (if direction = .descending then a ++ " DESC" else a) := by
  split
  · exact ha.append (word " DESC" (by decide))
  · exact ha

/-- The line of a clause, if there is one. -/
theorem clause {indent : ℕ} {keyword : String} (hkeyword : Uncommented keyword)
    {parts : List String} (h : ∀ part ∈ parts, Uncommented part) :
    ∀ line ∈ clause indent keyword parts, Uncommented line := by
  intro line hline
  unfold QueryText.clause at hline
  split at hline
  · cases hline
  · obtain rfl := List.mem_singleton.1 hline
    exact (((blanks indent).append hkeyword).append (word " " (by decide))).append (listed h)

/-- A column with its name, unless that is left out. -/
theorem column {name : String} (hname : '-' ∉ name.toList) (expr : Expr) (ha : Uncommented a) :
    Uncommented (Column.text d name expr a) := by
  have renamed := (ha.append (word " AS " (by decide))).append (d.uncommented_quote hname)
  unfold Column.text
  split
  · split
    · exact ha
    · exact renamed
  · exact renamed

end Uncommented

/-! ## Expressions, sources and selects -/

section

variable {d : Dialect} {indent : ℕ} {text : String}

open Uncommented (word)

/-- The text is not empty either, so a minus before it is not the last character. -/
theorem Expr.uncommented_of_render {e : Expr} (minusless : e.Minusless)
    (below : ∀ q ∈ e.subqueries, ∀ indent place text, q.render d indent place = .ok text →
      Uncommented text)
    (h : e.render d indent = .ok text) : Uncommented text ∧ text.toList ≠ [] := by
  induction e using Expr.parts_induction generalizing text with
  | step e ih =>
    rw [Expr.subqueries_eq, List.forall_mem_append, List.forall_mem_flatMap] at below
    have part : ∀ p ∈ e.parts, ∀ text, p.render d indent = .ok text →
        Uncommented text ∧ text.toList ≠ [] :=
      fun p hp text => ih p hp (minusless.part hp) (below.1 p hp)
    have query : ∀ q ∈ e.query?, ∀ indent place text, q.render d indent place = .ok text →
        Uncommented text := fun q hq => below.2 q (Option.mem_toList.2 hq)
    have own := minusless.own
    clear ih minusless below
    cases e with
    | column label name =>
      obtain rfl := Except.ok.inj h
      have label' := d.uncommented_quote (own label (by simp [Node.texts]))
      have name' := d.uncommented_quote (own name (by simp [Node.texts]))
      exact ⟨(label'.append (word "." (by decide))).append name', by simp⟩
    | literal value =>
      obtain ⟨_, -, nonempty, -⟩ := Literal.exists_phrase h
      refine ⟨Literal.uncommented_of_render h fun s hs => ?_, nonempty⟩
      subst hs
      exact own s (by simp [Node.texts])
    | binary op left right =>
      obtain ⟨l, hl, h⟩ := exists_of_bind_eq_ok h
      obtain ⟨r, hr, h⟩ := exists_of_bind_eq_ok h
      obtain rfl := Except.ok.inj h
      have left' := (part left (by simp [parts]) l hl).1.operandText left op.precedence
      have right' := (part right (by simp [parts]) r hr).1.operandText right op.rightFloor
      refine ⟨?_, by simp⟩
      simpa [String.append_assoc] using (left'.append (.symbol op)).append right'
    | unary op operand =>
      obtain ⟨t, ht, h⟩ := exists_of_bind_eq_ok h
      obtain rfl := Except.ok.inj h
      obtain ⟨operand', nonempty⟩ := part operand (by simp [parts]) t ht
      exact ⟨(operand'.operandText _ _).apply (operandText_ne_nil nonempty _ _) op,
        op.toList_apply_ne_nil _⟩
    | isNull operand negated =>
      obtain ⟨t, ht, h⟩ := exists_of_bind_eq_ok h
      obtain rfl := Except.ok.inj h
      have operand' := (part operand (by simp [parts]) t ht).1.operandText operand atomPrecedence
      cases negated with
      | false => exact ⟨operand'.append (word " IS NULL" (by decide)), by simp⟩
      | true => exact ⟨operand'.append (word " IS NOT NULL" (by decide)), by simp⟩
    | cast operand type =>
      obtain ⟨t, ht, h⟩ := exists_of_bind_eq_ok h
      obtain rfl := Except.ok.inj h
      have operand' := (part operand (by simp [parts]) t ht).1
      have opened := operand'.between "CAST(" " AS " (by decide) (by decide)
      exact ⟨(opened.append (type.uncommented_text own)).append (word ")" (by decide)), by simp⟩
    | caseWhen branches otherwise =>
      obtain ⟨texts, htexts, h⟩ := exists_of_bind_eq_ok h
      obtain ⟨written, hwritten, h⟩ := exists_of_bind_eq_ok h
      obtain rfl := Except.ok.inj h
      have branches' : Uncommented (String.join texts) := .join fun t ht => by
        obtain ⟨b, hb, c, r, hc, hr, rfl⟩ := Branch.exists_of_mem_renderList htexts ht
        have mem : ∀ p ∈ b.parts, p ∈ (caseWhen branches otherwise).parts := fun p hp =>
          List.mem_append_left _ (List.mem_flatMap_of_mem hb hp)
        have condition := (part b.condition (mem _ (by simp)) c hc).1
        have result := (part b.result (mem _ (by simp)) r hr).1
        exact (condition.between " WHEN " " THEN " (by decide) (by decide)).append result
      have opened := (word "CASE" (by decide)).append branches'
      refine ⟨(opened.append ?_).append (word " END" (by decide)), by simp⟩
      cases written with
      | none => exact word "" (by decide)
      | some t =>
        obtain ⟨e, he, hrender⟩ := exists_of_mem_renderOption hwritten rfl
        have last := part e (List.mem_append_right _ (Option.mem_toList.2 he)) t hrender
        exact (word " ELSE " (by decide)).append last.1
    | call name args resource =>
      obtain ⟨texts, htexts, h⟩ := exists_of_bind_eq_ok h
      obtain rfl := Except.ok.inj h
      have args' : Uncommented (listed texts) := .listed fun t ht => by
        obtain ⟨e, he, hrender⟩ := exists_of_mem_renderList htexts ht
        exact (part e he t hrender).1
      have name' := Uncommented.of_not_mem (own name (by simp [Node.texts]))
      have opened := name'.append (word "(" (by decide))
      exact ⟨(opened.append args').append (word ")" (by decide)), by simp⟩
    | aggregate function arg distinct =>
      obtain ⟨_, -, h⟩ := exists_of_bind_eq_ok h
      obtain ⟨written, hwritten, h⟩ := exists_of_bind_eq_ok h
      obtain rfl := Except.ok.inj h
      have name : Uncommented function.text := by cases function <;> exact word _ (by decide)
      have opened := (name.append (word "(" (by decide))).append (.distinct distinct)
      refine ⟨(opened.append ?_).append (word ")" (by decide)), by simp⟩
      cases written with
      | none => exact word "*" (by decide)
      | some t =>
        obtain ⟨e, he, hrender⟩ := exists_of_mem_renderOption hwritten rfl
        exact (part e (Option.mem_toList.2 he) t hrender).1
    | rowNumber order =>
      obtain ⟨texts, htexts, h⟩ := exists_of_bind_eq_ok h
      obtain rfl := Except.ok.inj h
      have order' : Uncommented (listed texts) := .listed fun t ht => by
        obtain ⟨term, hterm, body, hbody, rfl⟩ := OrderTerm.exists_of_mem_renderList htexts ht
        exact (part term.expr (List.mem_map_of_mem hterm) body hbody).1.direction _
      refine ⟨.between ?_ "ROW_NUMBER() OVER (" ")" (by decide) (by decide), by simp⟩
      split
      · exact word "" (by decide)
      · exact (word "ORDER BY " (by decide)).append order'
    | scalarQuery q =>
      obtain ⟨t, ht, h⟩ := exists_of_bind_eq_ok h
      obtain rfl := Except.ok.inj h
      exact ⟨(query q rfl _ _ t ht).enclosed indent, by simp [enclosed]⟩
    | existsQuery q =>
      obtain ⟨t, ht, h⟩ := exists_of_bind_eq_ok h
      obtain rfl := Except.ok.inj h
      exact ⟨(word "EXISTS " (by decide)).append ((query q rfl _ _ t ht).enclosed indent), by simp⟩
    | inQuery operand q =>
      obtain ⟨l, hl, h⟩ := exists_of_bind_eq_ok h
      obtain ⟨t, ht, h⟩ := exists_of_bind_eq_ok h
      obtain rfl := Except.ok.inj h
      have operand' := (part operand (by simp [parts]) l hl).1.operandText operand atomPrecedence
      have query' := (query q rfl _ _ t ht).enclosed indent
      exact ⟨(operand'.append (word " IN " (by decide))).append query', by simp⟩
    | generatedId member =>
      obtain ⟨_, -, h⟩ := exists_of_bind_eq_ok h
      cases h

/-- The text of a source holds no marker if the texts below it hold none. -/
theorem Source.uncommented_of_render {source : Source} (minusless : source.Minusless)
    (selects : ∀ q ∈ source.selects, '-' ∉ q.label.toList ∧
      ∀ indent place text, q.render d indent place = .ok text → Uncommented text)
    (conditions : ∀ e ∈ source.conditions, ∀ text, e.render d indent = .ok text →
      Uncommented text)
    (h : source.render d indent = .ok text) : Uncommented text := by
  induction source using Source.join_induction generalizing text with
  | table name label =>
    obtain rfl := Except.ok.inj h
    have own := minusless (.source (.table name label)) (by simp [Source.nodes])
    have name' := d.uncommented_quote (own name (by simp [Node.texts]))
    have label' := d.uncommented_quote (own label (by simp [Node.texts]))
    exact (name'.append (word " " (by decide))).append label'
  | subquery query =>
    obtain ⟨t, ht, h⟩ := exists_of_bind_eq_ok h
    obtain rfl := Except.ok.inj h
    obtain ⟨label', query'⟩ := selects query (by simp [Source.selects])
    exact (((query' _ _ t ht).enclosed indent).append (word " " (by decide))).append
      (d.uncommented_quote label')
  | join kind left right condition ihl ihr =>
    obtain ⟨l, hl, h⟩ := exists_of_bind_eq_ok h
    obtain ⟨r, hr, h⟩ := exists_of_bind_eq_ok h
    obtain ⟨written, hwritten, h⟩ := exists_of_bind_eq_ok h
    obtain rfl := Except.ok.inj h
    have left' : Uncommented l := ihl (fun n hn => minusless n (by simp [Source.nodes, hn]))
      (fun q hq => selects q (by simp [Source.selects, hq]))
      (fun e he => conditions e (by simp [Source.conditions, he])) hl
    have right' : Uncommented r := ihr (fun n hn => minusless n (by simp [Source.nodes, hn]))
      (fun q hq => selects q (by simp [Source.selects, hq]))
      (fun e he => conditions e (by simp [Source.conditions, he])) hr
    have keyword : Uncommented kind.keyword := by cases kind <;> exact word _ (by decide)
    have line := ((left'.append (word "\n" (by decide))).append (.blanks indent)).append keyword
    refine ((line.append (word " " (by decide))).append right').append ?_
    cases written with
    | none => exact word "" (by decide)
    | some t =>
      obtain ⟨e, he, hrender⟩ := Expr.exists_of_mem_renderOption hwritten rfl
      exact (word " ON " (by decide)).append
        (conditions e (by simp [Source.conditions, Option.mem_toList.2 he]) t hrender)

namespace Select

variable {s : Select}

/-- The expressions of a select, from what is known of the selects below. -/
theorem uncommented_of_render_part (minusless : s.Minusless)
    (below : ∀ q ∈ s.children, ∀ indent place text, q.render d indent place = .ok text →
      Uncommented text)
    {e : Expr} (he : e ∈ s.conditions ++ s.clauses) (h : e.render d indent = .ok text) :
    Uncommented text := by
  obtain ⟨nodes, children⟩ := subset_of_mem_conditions_or_clauses he
  exact (Expr.uncommented_of_render (fun n hn => minusless n (nodes hn))
    (fun q hq => below q (children hq)) h).1

/-- The source of a select, from what is known of the selects below. -/
theorem uncommented_of_render_source (minusless : s.Minusless)
    (below : ∀ q ∈ s.children, ∀ indent place text, q.render d indent place = .ok text →
      Uncommented text)
    {source : Source} (hsource : source ∈ s.source) (h : source.render d indent = .ok text) :
    Uncommented text := by
  obtain ⟨nodes, children, conditions⟩ := subset_of_mem_source hsource
  refine Source.uncommented_of_render (fun n hn => minusless n (nodes hn)) (fun q hq => ?_)
    (fun e he text => ?_) h
  · have minusless' : q.Minusless := fun n hn =>
      minusless n (nodes_subset_of_mem_children (children hq) hn)
    exact ⟨minusless'.own q.label (by simp [Node.texts]), below q (children hq)⟩
  · exact uncommented_of_render_part minusless below (List.mem_append_left _ (conditions he))

/-- **The text of a select is uncommented**, if no name and no string in it has a minus. -/
theorem uncommented_of_render (minusless : s.Minusless) {place : SelectPlace}
    (h : s.render d indent place = .ok text) : Uncommented text := by
  induction s using children_induction generalizing indent place text with
  | step s ih =>
    have below : ∀ q ∈ s.children, ∀ indent place text, q.render d indent place = .ok text →
        Uncommented text := fun q hq _ _ _ =>
      ih q hq fun n hn => minusless n (nodes_subset_of_mem_children hq hn)
    have source' : ∀ source ∈ s.source, ∀ text, source.render d indent = .ok text →
        Uncommented text := fun _ hsource _ => uncommented_of_render_source minusless below hsource
    have clause' : ∀ e ∈ s.clauses, ∀ text, e.render d indent = .ok text → Uncommented text :=
      fun _ he _ => uncommented_of_render_part minusless below (List.mem_append_right _ he)
    have own := minusless.own
    clear ih minusless below
    obtain ⟨columns, lines, rfl, hcolumns, hlines⟩ := exists_lines_of_render h
    refine .intercalate (word "\n" (by decide))
      (List.forall_mem_cons.2 ⟨?_, fun line hline => ?_⟩)
    · have columns' : Uncommented (listed columns) := .listed fun t ht => by
        obtain ⟨c, hc, body, hbody, rfl⟩ := hcolumns t ht
        have name : '-' ∉ c.name.toList :=
          own c.name (List.mem_cons_of_mem _ (List.mem_map_of_mem hc))
        exact .column name c.expr (clause' c.expr (mem_clauses_of_columns hc) body hbody)
      have opened := ((Uncommented.blanks indent).append (word "SELECT " (by decide))).append
        (.distinct s.distinct)
      exact opened.append columns'
    · obtain ⟨keyword, hkeyword, items, hitems, hline⟩ := hlines line hline
      have minusless : ∀ keyword ∈ clauseWords, '-' ∉ keyword.toList := by decide
      refine .clause (.of_not_mem (minusless keyword hkeyword)) (fun item hitem => ?_) line hline
      cases hitems item hitem with
      | source hsource h => exact source' _ hsource _ h
      | expr he h => exact clause' _ he _ h
      | term he h direction => exact (clause' _ he _ h).direction direction
      | bound n => exact uncommented_repr n

end Select

end

/-! ## Statements -/

namespace Statement

/-- **No text holds a comment marker**: negative numbers, exponents, negations and subtractions may
be nested in any way, and two minuses never meet unless a name or a string brings them along. -/
theorem no_comment_marker_of_render {d : Dialect} {s : Statement} {text : String}
    (h : s.render d = .ok text) (minusless : ∀ p ∈ s.queries, p.select.Minusless) :
    ¬ "--".toList <:+: text.toList := by
  obtain ⟨texts, rfl, written⟩ := exists_texts_of_render h
  refine Uncommented.no_marker (.intercalate (.word ";\n" (by decide)) fun text ht => ?_)
  obtain ⟨p, hp, hrender⟩ := exists_of_forall₂_of_mem written ht
  exact Select.uncommented_of_render (minusless p hp) hrender

/-- Every kind of minus next to another one. -/
def corrections : Statement :=
  .query {
    select := {
      label := "q"
      columns := [
        ⟨"back", .unary .neg (.unary .neg (.unary .neg (.column "o" "amount"))), .bigInt⟩,
        ⟨"least", .binary .sub (.int Int64.minValue) (.unary .neg (.int (-1))), .bigInt⟩]
      source := some (.table "orders" "o")
      filter := some (.binary .lt
        (.binary .sub (.column "o" "rate") (.literal (.float ⟨0xBE7AD7F29ABCAF48⟩)))
        (.unary .neg (.binary .sub (.int (-3)) (.column "o" "rate")))) }
    projector := .scalar (.column "q" "back") }

def correctionsText : String :=
  "SELECT -(-(-o.amount)) AS back, -9223372036854775808 - -(-1) AS least\nFROM orders o\n" ++
    "WHERE o.rate - -1e-7 < -(-3 - o.rate)"

/-- A minus before a negative number, before a minus and before parentheses: none of them makes a
marker. -/
theorem no_comment_marker_of_render_corrections :
    corrections.render .hive = .ok correctionsText ∧
      (∀ p ∈ corrections.queries, p.select.Minusless) ∧
      ¬ "--".toList <:+: correctionsText.toList := by
  have rendered : corrections.render .hive = .ok correctionsText := by decide +kernel
  have minusless : ∀ p ∈ corrections.queries, p.select.Minusless := by decide +kernel
  exact ⟨rendered, minusless, no_comment_marker_of_render rendered minusless⟩

end Statement

end HiveQuery
