import HiveQuery.Json.Reader
import HiveQuery.Json.Writer
import Mathlib.Data.List.DropRight
import Mathlib.Data.Option.Basic
/-!
# The text of a document is read back

The compact text of a JSON value is read as that value, provided that its integers fit into
sixty-four bits and that each of its other numbers is read back from its own text, and it is refused
if the value nests too deep (`Json.parse?_compact`). A value inside of a document is followed by a
comma or a closing bracket, at which every reader stops, so what it reads does not depend on what
follows. Nor does it depend on the room for brackets, as long as that is enough
(`Json.Reader.roomy`).
-/

namespace HiveQuery

namespace Json

mutual

/-- How many brackets and braces stand open at once in the text of a value. -/
def nesting : Json → Nat
  | arr items => nestingItems items + 1
  | obj fields => nestingFields fields + 1
  | _ => 0

/-- The deepest nesting among items, -/
def nestingItems : List Json → Nat
  | [] => 0
  | item :: items => max item.nesting (nestingItems items)

/-- and among the values of fields. -/
def nestingFields : List (String × Json) → Nat
  | [] => 0
  | (_, value) :: fields => max value.nesting (nestingFields fields)

end

namespace Reader

/-! ## What follows a value -/

/-- What may follow a value: nothing, or what ends an item or a field. -/
def Stops (rest : List Char) : Prop :=
  ∀ c ∈ rest.head?, c = ',' ∨ c = ']' ∨ c = '\x7d'

theorem stops_nil : Stops [] := by
  simp [Stops]

/-- A comma ends a value, and so do a closing bracket and a closing brace. -/
theorem stops_comma (rest : List Char) : Stops (',' :: rest) := by
  simp [Stops]

theorem stops_bracket (rest : List Char) : Stops (']' :: rest) := by
  simp [Stops]

theorem stops_brace (rest : List Char) : Stops ('\x7d' :: rest) := by
  simp [Stops]

theorem skipSpace_cons {c : Char} (h : isSpace c = false) (cs : List Char) :
    skipSpace (c :: cs) = c :: cs := by
  simp [skipSpace, h]

/-- There is no space to skip before the end of a value. -/
theorem Stops.skipSpace_eq {rest : List Char} (h : Stops rest) : skipSpace rest = rest := by
  cases rest with
  | nil => rfl
  | cons c cs =>
    refine skipSpace_cons ?_ cs
    rcases h c rfl with rfl | rfl | rfl <;> decide

/-! ## Strings -/

/-- The two last digits of an escaped control character say which one it is. -/
theorem hexUnit?_control : ∀ n : Fin 32,
    hexUnit? '0' '0' (Nat.digitChar (n / 16)) (Nat.digitChar (n % 16)) = some n.val := by
  decide

/-- A control character that is escaped by its number is read back, -/
theorem stringBody_control {c : Char} (h : c.toNat < 0x20) (rest : List Char) :
    stringBody ('\\' :: 'u' :: '0' :: '0' :: Nat.digitChar (c.toNat / 16) ::
      Nat.digitChar (c.toNat % 16) :: rest) =
        (stringBody rest).map fun body => (c :: body.1, body.2) := by
  have unit := hexUnit?_control ⟨c.toNat, h⟩
  simp only at unit
  rw [stringBody, unit]
  have low : ¬ 0xD800 ≤ c.toNat := by omega
  have high : ¬ 0xDC00 ≤ c.toNat := by omega
  simp [low, high, Char.ofNat_toNat]

/-- a character that needs no escape is read as it is, -/
theorem stringBody_plain {c : Char} (quote : c ≠ '"') (slash : c ≠ '\\') (h : ¬ c.toNat < 0x20)
    (rest : List Char) :
    stringBody (c :: rest) = (stringBody rest).map fun body => (c :: body.1, body.2) := by
  rw [stringBody]
  · simp [h]
  · simpa using quote
  · exact fun _ _ _ _ _ slash' => absurd slash' slash
  · exact fun _ _ slash' => absurd slash' slash

/-- and one that is escaped by a letter is read back from it. -/
theorem stringBody_short {c d : Char} (h : shortEscape? c = some d) (rest : List Char) :
    stringBody ('\\' :: c :: rest) = (stringBody rest).map fun body => (d :: body.1, body.2) := by
  rw [stringBody, h]
  rintro _ _ _ _ _ rfl
  cases h

/-- A character is read from what stands for it in a string. -/
theorem stringBody_escape (c : Char) (rest : List Char) :
    stringBody (escape c ++ rest) = (stringBody rest).map fun body => (c :: body.1, body.2) := by
  rw [escape]
  split_ifs with quote slash backspace formFeed newline carriage tab control
  · rw [beq_iff_eq.1 quote]
    exact stringBody_short rfl rest
  · rw [beq_iff_eq.1 slash]
    exact stringBody_short rfl rest
  · rw [beq_iff_eq.1 backspace]
    exact stringBody_short rfl rest
  · rw [beq_iff_eq.1 formFeed]
    exact stringBody_short rfl rest
  · rw [beq_iff_eq.1 newline]
    exact stringBody_short rfl rest
  · rw [beq_iff_eq.1 carriage]
    exact stringBody_short rfl rest
  · rw [beq_iff_eq.1 tab]
    exact stringBody_short rfl rest
  · exact stringBody_control control rest
  · exact stringBody_plain (by simpa using quote) (by simpa using slash) control rest

/-- A quoted text is its escaped characters between quotes. -/
theorem toList_quoted (text : String) :
    (quoted text).toList = '"' :: (text.toList.flatMap escape ++ ['"']) := by
  rw [quoted, String.toList_ofList]
  rfl

/-- **A string is read up to its closing quote.** -/
theorem stringBody_quoted (text rest : List Char) :
    stringBody (text.flatMap escape ++ '"' :: rest) = some (text, rest) := by
  induction text with
  | nil => simp [stringBody]
  | cons c text ih =>
    rw [List.flatMap_cons, List.append_assoc, stringBody_escape, ih]
    rfl

/-! ## Numbers -/

/-- Whether an exponent has a minus, and what follows its sign. -/
def exponentSign (cs : List Char) : Bool × List Char :=
  match cs with
  | '-' :: rest => (true, rest)
  | '+' :: rest => (false, rest)
  | _ => (false, cs)

/-- An exponent is read if a letter announces it and digits follow its sign. -/
theorem exponent?_cons (c : Char) (cs : List Char) :
    exponent? (c :: cs) =
      if c == 'e' || c == 'E' then
        if ((exponentSign cs).2.takeWhile Char.isDigit).isEmpty then none
        else
          let size : Int := digitsValue ((exponentSign cs).2.takeWhile Char.isDigit)
          some (some (if (exponentSign cs).1 then -size else size),
            (exponentSign cs).2.dropWhile Char.isDigit)
      else some (none, c :: cs) :=
  exponent?.eq_def (c :: cs)

section Append

variable {rest : List Char} (stops : Stops rest)
include stops

/-- Digits are read up to what ends the value, and no further. -/
theorem takeWhile_isDigit_append (cs : List Char) :
    (cs ++ rest).takeWhile Char.isDigit = cs.takeWhile Char.isDigit := by
  induction cs with
  | nil =>
    cases rest with
    | nil => rfl
    | cons c rest => rcases stops c rfl with rfl | rfl | rfl <;> rfl
  | cons c cs ih =>
    simp only [List.cons_append, List.takeWhile_cons, ih]

theorem dropWhile_isDigit_append (cs : List Char) :
    (cs ++ rest).dropWhile Char.isDigit = cs.dropWhile Char.isDigit ++ rest := by
  induction cs with
  | nil =>
    cases rest with
    | nil => rfl
    | cons c rest => rcases stops c rfl with rfl | rfl | rfl <;> rfl
  | cons c cs ih =>
    simp only [List.cons_append, List.dropWhile_cons, ih]
    split <;> rfl

/-- Reading a fraction does not depend on what follows the value, nor do the exponent and the number
as a whole. -/
theorem fraction?_append (cs : List Char) :
    fraction? (cs ++ rest) = (fraction? cs).map fun r => (r.1, r.2 ++ rest) := by
  cases cs with
  | nil =>
    cases rest with
    | nil => rfl
    | cons c rest => rcases stops c rfl with rfl | rfl | rfl <;> rfl
  | cons c cs =>
    by_cases point : c = '.'
    · subst point
      simp only [List.cons_append, fraction?, takeWhile_isDigit_append stops,
        dropWhile_isDigit_append stops]
      split <;> rfl
    · simp [fraction?, point]

theorem exponentSign_append (cs : List Char) :
    exponentSign (cs ++ rest) = ((exponentSign cs).1, (exponentSign cs).2 ++ rest) := by
  cases cs with
  | nil =>
    cases rest with
    | nil => rfl
    | cons c rest => rcases stops c rfl with rfl | rfl | rfl <;> rfl
  | cons c cs =>
    by_cases minus : c = '-'
    · subst minus
      rfl
    · by_cases plus : c = '+'
      · subst plus
        rfl
      · simp [exponentSign, minus, plus]

theorem exponent?_append (cs : List Char) :
    exponent? (cs ++ rest) = (exponent? cs).map fun r => (r.1, r.2 ++ rest) := by
  cases cs with
  | nil =>
    cases rest with
    | nil => rfl
    | cons c rest => rcases stops c rfl with rfl | rfl | rfl <;> rfl
  | cons c cs =>
    simp only [List.cons_append, exponent?_cons, exponentSign_append stops,
      takeWhile_isDigit_append stops, dropWhile_isDigit_append stops]
    split_ifs <;> rfl

/-- Where a number ends does not depend on what follows it. -/
theorem unsigned?_append (negative : Bool) (cs : List Char) :
    unsigned? negative (cs ++ rest) = (unsigned? negative cs).map fun r => (r.1, r.2 ++ rest) := by
  simp only [unsigned?, takeWhile_isDigit_append stops, dropWhile_isDigit_append stops,
    fraction?_append stops]
  cases fraction? (cs.dropWhile Char.isDigit) with
  | none => simp
  | some r =>
    simp only [Option.map_some, Option.bind_eq_bind, Option.bind_some, exponent?_append stops]
    cases exponent? r.2 with
    | none => simp
    | some e =>
      rw [Option.map_bind]
      refine Option.bind_congr fun _ _ => ?_
      simp only [Function.comp, Option.map_some, Option.bind_some]
      rw [apply_ite (Option.map _), Option.map_bind]
      rfl

theorem number?_append (cs : List Char) :
    number? (cs ++ rest) = (number? cs).map fun r => (r.1, r.2 ++ rest) := by
  cases cs with
  | nil =>
    have head : number? ([] ++ rest) = unsigned? false ([] ++ rest) := by
      cases rest with
      | nil => rfl
      | cons c rest => rcases stops c rfl with rfl | rfl | rfl <;> rfl
    rw [head, unsigned?_append stops]
    rfl
  | cons c cs =>
    by_cases minus : c = '-'
    · subst minus
      exact unsigned?_append stops true cs
    · have head : ∀ cs, number? (c :: cs) = unsigned? false (c :: cs) := fun cs => by
        simp [number?, minus]
      rw [head, List.cons_append, head, ← List.cons_append, unsigned?_append stops]

end Append

/-- The digits of a number have no zero in front. -/
theorem head?_toDigits_ne_zero {n : Nat} (h : n ≠ 0) : (Nat.toDigits 10 n).head? ≠ some '0' := by
  induction n using Nat.strongRecOn with
  | ind n ih =>
    rw [Nat.toDigits_eq_if (by decide)]
    split
    · next small =>
      have digit : ∀ n < 10, n ≠ 0 → [Nat.digitChar n].head? ≠ some '0' := by decide
      exact digit n small h
    · have front := ih (n / 10) (by omega) (by omega)
      cases digits : Nat.toDigits 10 (n / 10) with
      | nil => exact absurd digits Nat.toDigits_ne_nil
      | cons c cs =>
        rw [digits] at front
        exact front

/-- An integer that a document keeps: one that fits into sixty-four bits, signed or not. -/
def Fits (n : Int) : Prop :=
  -Binary64.signBit ≤ n ∧ n < UInt64.size

/-- The digits of an integer that fits are read as that integer. -/
theorem unsigned?_toDigits {negative : Bool} {n : Nat}
    (fits : (if negative then 0 < n && n ≤ Binary64.signBit else n < UInt64.size) = true) :
    unsigned? negative (Nat.toDigits 10 n) =
      some (.int (if negative then -(n : Int) else n), []) := by
  have digits : ∀ c ∈ Nat.toDigits 10 n, c.isDigit := fun c hc =>
    Nat.isDigit_of_mem_toDigits (by decide) (by decide) hc
  have whole : (Nat.toDigits 10 n).takeWhile Char.isDigit = Nat.toDigits 10 n :=
    List.takeWhile_eq_self_iff.2 digits
  have after : (Nat.toDigits 10 n).dropWhile Char.isDigit = [] :=
    List.dropWhile_eq_nil_iff.2 digits
  have value : digitsValue (Nat.toDigits 10 n) = n := Nat.ofDigitChars_ten_toDigits
  have starts : (!(Nat.toDigits 10 n).isEmpty && ((Nat.toDigits 10 n).length == 1 ||
      (Nat.toDigits 10 n).head? != some '0')) = true := by
    by_cases zero : n = 0
    · subst zero
      decide
    · simp [head?_toDigits_ne_zero zero]
  simp [unsigned?, whole, after, value, starts, fraction?, exponent?, fits, guard]

/-- A negative integer is written as a minus and the digits of its opposite. -/
theorem toList_repr_negSucc (n : Nat) :
    (Int.negSucc n).repr.toList = '-' :: Nat.toDigits 10 (n + 1) := by
  show ("-" ++ (n + 1).repr).toList = _
  rw [String.toList_append, Nat.toList_repr]
  rfl

/-- An integer is read from its digits. -/
theorem number?_repr {n : Int} (fits : Fits n) : number? n.repr.toList = some (.int n, []) := by
  obtain ⟨low, high⟩ := fits
  cases n with
  | ofNat n =>
    have unsigned : number? (Nat.toDigits 10 n) = unsigned? false (Nat.toDigits 10 n) := by
      rw [number?]
      rintro cs minus
      have mem : '-' ∈ Nat.toDigits 10 n := by simp [minus]
      exact absurd (Nat.isDigit_of_mem_toDigits (by decide) (by decide) mem) (by decide)
    show number? n.repr.toList = _
    rw [Nat.toList_repr, unsigned, unsigned?_toDigits (by simpa using Int.ofNat_lt.1 high)]
    rfl
  | negSucc n =>
    have range : n + 1 ≤ Binary64.signBit := by omega
    rw [toList_repr_negSucc, number?, unsigned?_toDigits (by simpa using range)]
    rfl

/-! ## Values -/

/-- The characters that a value other than a number begins with. -/
def openers : List Char :=
  ['n', 't', 'f', '"', '[', '\x7b']

/-- A value that begins with none of the other openers is read as a number. -/
theorem value?_eq_number? {cs cs' : List Char} {c : Char} (start : skipSpace cs = c :: cs')
    (h : c ∉ openers) (fuel room : Nat) :
    value? (fuel + 1) room cs = number? (c :: cs') := by
  simp only [openers, List.mem_cons, List.not_mem_nil, or_false, not_or] at h
  rw [value?, start]
  simp [h]

/-- A value that is a number but no integer has been read as a number. -/
theorem of_value?_eq_float {fuel room : Nat} {cs r : List Char} {x : Binary64}
    (h : value? (fuel + 1) room cs = some (.float x, r)) :
    ∃ c cs', skipSpace cs = c :: cs' ∧ c ∉ openers ∧ number? (c :: cs') = some (.float x, r) := by
  -- what begins with an opener is a value of another kind, if it is one
  cases start : skipSpace cs with
  | nil =>
    rw [value?, start] at h
    cases h
  | cons c cs' =>
    by_cases opens : c ∈ openers
    · rw [value?, start] at h
      simp only [openers, List.mem_cons, List.not_mem_nil, or_false] at opens
      rcases opens with rfl | rfl | rfl | rfl | rfl | rfl
      · simp at h
      · simp at h
      · simp at h
      · simp at h
      · simp only at h
        cases room with
        | zero => cases h
        | succ => simp only at h; split at h <;> simp at h
      · simp only at h
        cases room with
        | zero => cases h
        | succ => simp only at h; split at h <;> simp at h
    · rw [value?_eq_number? start opens] at h
      exact ⟨c, cs', rfl, opens, h⟩

/-- A digit or a minus, which a number begins with. -/
def NumberHead (c : Char) : Prop :=
  c.isDigit ∨ c = '-'

/-- A number begins like no other value. -/
theorem NumberHead.not_mem_openers {c : Char} (h : NumberHead c) : c ∉ openers := by
  intro opens
  simp only [openers, List.mem_cons, List.not_mem_nil, or_false] at opens
  rcases opens with rfl | rfl | rfl | rfl | rfl | rfl <;> exact absurd h (by simp [NumberHead])

theorem NumberHead.not_isSpace {c : Char} (h : NumberHead c) : isSpace c = false := by
  rw [isSpace, Bool.eq_false_iff]
  intro space
  simp only [Bool.or_eq_true, beq_iff_eq] at space
  rcases space with ((rfl | rfl) | rfl) | rfl <;> exact absurd h (by simp [NumberHead])

/-- All characters of an integer are digits, or a minus. -/
theorem numberHead_of_mem_repr {n : Int} {c : Char} (h : c ∈ n.repr.toList) : NumberHead c := by
  cases n with
  | ofNat n =>
    have digits : c ∈ Nat.toDigits 10 n := Nat.toList_repr ▸ h
    exact .inl (Nat.isDigit_of_mem_toDigits (by decide) (by decide) digits)
  | negSucc n =>
    rw [toList_repr_negSucc] at h
    exact (List.mem_cons.1 h).symm.imp_left
      (Nat.isDigit_of_mem_toDigits (by decide) (by decide))

theorem toList_repr_ne_nil (n : Int) : n.repr.toList ≠ [] := by
  cases n with
  | ofNat n => exact fun nil => Nat.toDigits_ne_nil (Nat.toList_repr.symm.trans nil)
  | negSucc n => simp [toList_repr_negSucc]

/-- The text of an integer begins with a digit or a minus. -/
theorem exists_head_repr (n : Int) : ∃ c cs, n.repr.toList = c :: cs ∧ NumberHead c := by
  obtain ⟨c, cs, text⟩ := List.exists_cons_of_ne_nil (toList_repr_ne_nil n)
  exact ⟨c, cs, text, numberHead_of_mem_repr (text ▸ List.mem_cons_self)⟩

/-- What is read as a number but no integer is read so before anything that may follow. -/
theorem value?_append_of_float {fuel room : Nat} {cs r rest : List Char} {x : Binary64}
    (h : value? (fuel + 1) room cs = some (.float x, r)) (stops : Stops rest) (fuel' room' : Nat) :
    value? (fuel' + 1) room' (cs ++ rest) = some (.float x, r ++ rest) := by
  obtain ⟨c, cs', start, opens, number⟩ := of_value?_eq_float h
  have start' : skipSpace (cs ++ rest) = c :: (cs' ++ rest) := by
    rw [skipSpace] at start ⊢
    rw [List.dropWhile_append, start]
    rfl
  rw [value?_eq_number? start' opens, ← List.cons_append, number?_append stops, number]
  rfl

theorem skipSpace_skipSpace (cs : List Char) : skipSpace (skipSpace cs) = skipSpace cs :=
  List.dropWhile_idempotent ..

/-- Space before a value, before items and before fields is skipped by the reader itself. -/
theorem value?_skipSpace (fuel room : Nat) (cs : List Char) :
    value? fuel room (skipSpace cs) = value? fuel room cs := by
  cases fuel with
  | zero => rw [value?, value?]
  | succ => rw [value?, value?, skipSpace_skipSpace]

theorem items?_skipSpace (fuel room : Nat) (cs : List Char) :
    items? fuel room (skipSpace cs) = items? fuel room cs := by
  cases fuel with
  | zero => rw [items?, items?]
  | succ => rw [items?, items?, value?_skipSpace]

theorem fields?_skipSpace (fuel room : Nat) (cs : List Char) :
    fields? fuel room (skipSpace cs) = fields? fuel room cs := by
  cases fuel with
  | zero => rw [fields?, fields?]
  | succ => rw [fields?, fields?, skipSpace_skipSpace]

variable {fuel room : Nat} {cs cs' r rest : List Char} {item : Json}

/-- The last item is followed by the closing bracket, -/
theorem items?_last (h : value? fuel room cs = some (item, r)) (stop : skipSpace r = ']' :: rest) :
    items? (fuel + 1) room cs = some ([item], rest) := by
  rw [items?, h]
  simp [stop]

/-- and every other one by a comma and the rest of the items. -/
theorem items?_comma {items : List Json} (h : value? fuel room cs = some (item, r))
    (stop : skipSpace r = ',' :: cs') (more : items? fuel room cs' = some (items, rest)) :
    items? (fuel + 1) room cs = some (item :: items, rest) := by
  rw [items?, h]
  simp [stop, more]

/-- No item begins with the bracket that closes an array. -/
theorem items?_of_close (start : skipSpace cs = ']' :: cs') (fuel room : Nat) :
    items? fuel room cs = none := by
  cases fuel with
  | zero => rfl
  | succ fuel =>
    have none : value? fuel room cs = none := by
      cases fuel with
      | zero => rfl
      | succ => rw [value?_eq_number? start (by decide)]; rfl
    rw [items?, none]
    rfl

/-- An array is empty or has items that can be read. -/
theorem value?_array_iff {json : Json} (start : skipSpace cs = '[' :: cs') :
    value? (fuel + 1) (room + 1) cs = some (json, rest) ↔
      ∃ items, (items? fuel room cs' = some (items, rest) ∨
        skipSpace cs' = ']' :: rest ∧ items = []) ∧ json = .arr items := by
  rw [value?, start]
  simp only
  -- The reader looks for the end of an empty array first, which no item begins with.
  split
  · next close => simp [items?_of_close close, close, eq_comm, and_comm]
  · next nonempty =>
    rw [items?_skipSpace, Option.map_eq_some_iff]
    constructor
    · rintro ⟨⟨items, r⟩, read, same⟩
      obtain ⟨rfl, rfl⟩ := Prod.mk.inj same
      exact ⟨items, .inl read, rfl⟩
    · rintro ⟨items, read | ⟨close, -⟩, rfl⟩
      · exact ⟨_, read, rfl⟩
      · exact absurd close (nonempty _)

/-- A name, and what follows the colon after it. -/
def FieldHead (cs : List Char) (name : String) (r : List Char) : Prop :=
  ∃ body cs₁ cs₂, skipSpace cs = '"' :: cs₁ ∧ stringBody cs₁ = some (body, cs₂) ∧
    skipSpace cs₂ = ':' :: r ∧ name = String.ofList body

/-- A name in quotes and a colon are the head of a field. -/
theorem fieldHead_quoted (name : String) (cs : List Char) :
    FieldHead ((quoted name).toList ++ ':' :: cs) name cs := by
  refine ⟨name.toList, _, _, ?_, stringBody_quoted .., skipSpace_cons (by decide) _, by simp⟩
  rw [toList_quoted, List.cons_append, skipSpace_cons (by decide), List.append_assoc]
  rfl

variable {name : String} {fields : List (String × Json)}

/-- The last field is followed by the closing brace, -/
theorem fields?_last (head : FieldHead cs name cs') (h : value? fuel room cs' = some (item, r))
    (stop : skipSpace r = '\x7d' :: rest) :
    fields? (fuel + 1) room cs = some ([(name, item)], rest) := by
  obtain ⟨body, cs₁, cs₂, start, read, colon, rfl⟩ := head
  rw [fields?, start]
  simp [read, colon, h, stop]

/-- and every other one by a comma and the rest of the fields. -/
theorem fields?_comma {cs'' : List Char} (head : FieldHead cs name cs')
    (h : value? fuel room cs' = some (item, r)) (stop : skipSpace r = ',' :: cs'')
    (more : fields? fuel room cs'' = some (fields, rest)) :
    fields? (fuel + 1) room cs = some ((name, item) :: fields, rest) := by
  obtain ⟨body, cs₁, cs₂, start, read, colon, rfl⟩ := head
  rw [fields?, start]
  simp [read, colon, h, stop, more]

/-- No field begins with the brace that closes an object. -/
theorem fields?_of_close (start : skipSpace cs = '\x7d' :: cs') (fuel room : Nat) :
    fields? fuel room cs = none := by
  cases fuel with
  | zero => rfl
  | succ fuel =>
    rw [fields?, start]
    rfl

/-- An object is empty or has fields that can be read. -/
theorem value?_object_iff {json : Json} (start : skipSpace cs = '\x7b' :: cs') :
    value? (fuel + 1) (room + 1) cs = some (json, rest) ↔
      ∃ fields, (fields? fuel room cs' = some (fields, rest) ∨
        skipSpace cs' = '\x7d' :: rest ∧ fields = []) ∧ json = .obj fields := by
  rw [value?, start]
  simp only
  split
  · next close => simp [fields?_of_close close, close, eq_comm, and_comm]
  · next nonempty =>
    rw [fields?_skipSpace, Option.map_eq_some_iff]
    constructor
    · rintro ⟨⟨fields, r⟩, read, same⟩
      obtain ⟨rfl, rfl⟩ := Prod.mk.inj same
      exact ⟨fields, .inl read, rfl⟩
    · rintro ⟨fields, read | ⟨close, -⟩, rfl⟩
      · exact ⟨_, read, rfl⟩
      · exact absurd close (nonempty _)

/-! ## Room for brackets -/

end Reader

open Reader

mutual

/-- The integers in a value are such that a document keeps them, and its other numbers have a
property. -/
def Legible (F : Binary64 → Prop) : Json → Prop
  | int value => Fits value
  | float value => F value
  | arr items => LegibleItems F items
  | obj fields => LegibleFields F fields
  | _ => True

def LegibleItems (F : Binary64 → Prop) : List Json → Prop
  | [] => True
  | item :: items => item.Legible F ∧ LegibleItems F items

def LegibleFields (F : Binary64 → Prop) : List (String × Json) → Prop
  | [] => True
  | (_, value) :: fields => value.Legible F ∧ LegibleFields F fields

end

/-- The number is read back from its text. -/
def ReadsBack (x : Binary64) : Prop :=
  parse? (floatText x) = some (.float x)

instance (x : Binary64) : Decidable (ReadsBack x) :=
  match h : parse? (floatText x) with
  | some (.float y) =>
    decidable_of_iff (y = x) (by rw [ReadsBack, h, Option.some.injEq, Json.float.injEq])
  | none | some .null | some (.bool _) | some (.int _) | some (.str _) | some (.arr _)
  | some (.obj _) => .isFalse (by rw [ReadsBack, h]; simp)

/-- What is parsed is one value, followed by nothing but space. -/
theorem exists_of_parse?_eq_some {text : String} {json : Json} (h : parse? text = some json) :
    ∃ r, value? (text.toList.length + 1) nestingLimit text.toList = some (json, r) ∧
      skipSpace r = [] := by
  simp only [parse?, Option.bind_eq_bind, Option.bind_eq_some_iff] at h
  obtain ⟨⟨value, r⟩, read, _, blank, same⟩ := h
  obtain rfl : value = json := Option.some.inj same
  refine ⟨r, read, ?_⟩
  by_contra rest
  simp [guard, List.isEmpty_iff, rest] at blank

/-- The characters of an array, -/
theorem toList_compact_arr (items : List Json) :
    (arr items).compact.toList =
      '[' :: ((String.intercalate "," (compactItems items)).toList ++ [']']) := by
  rw [compact, String.toList_append, String.toList_append]
  rfl

/-- and those of an object. -/
theorem toList_compact_obj (fields : List (String × Json)) :
    (obj fields).compact.toList =
      '\x7b' :: ((String.intercalate "," (compactFields fields)).toList ++ ['\x7d']) := by
  rw [compact, String.toList_append, String.toList_append]
  rfl

/-- Between two texts of a list there is a comma. -/
theorem toList_intercalate_cons_cons (first next : String) (texts : List String) :
    (String.intercalate "," (first :: next :: texts)).toList =
      first.toList ++ ',' :: (String.intercalate "," (next :: texts)).toList := by
  rw [String.intercalate_cons_cons, String.toList_append, String.toList_append, List.append_assoc]
  rfl

theorem toList_compactField (name : String) (json : Json) :
    (quoted name ++ ":" ++ json.compact).toList =
      (quoted name).toList ++ ':' :: json.compact.toList := by
  rw [String.toList_append, String.toList_append, List.append_assoc]
  rfl

/-- The fuel is enough to read any value whose text is shorter, with room for its brackets, and what
follows the text is left. -/
def ReadsValue (fuel : Nat) : Prop :=
  ∀ json : Json, json.Legible ReadsBack → json.compact.toList.length < fuel → ∀ rest, Stops rest →
    ∀ room, json.nesting ≤ room →
      ∃ r, value? fuel room (json.compact.toList ++ rest) = some (json, r) ∧ skipSpace r = rest

/-- The same for the items of an array and the bracket after them, -/
def ReadsItems (fuel : Nat) : Prop :=
  ∀ items : List Json, items ≠ [] → LegibleItems ReadsBack items →
    (String.intercalate "," (compactItems items)).toList.length + 1 < fuel → ∀ rest room,
      nestingItems items ≤ room → Reader.items? fuel room
        ((String.intercalate "," (compactItems items)).toList ++ ']' :: rest) = some (items, rest)

/-- and for the fields of an object and the brace. -/
def ReadsFields (fuel : Nat) : Prop :=
  ∀ fields : List (String × Json), fields ≠ [] → LegibleFields ReadsBack fields →
    (String.intercalate "," (compactFields fields)).toList.length + 1 < fuel → ∀ rest room,
      nestingFields fields ≤ room → fields? fuel room
        ((String.intercalate "," (compactFields fields)).toList ++ '\x7d' :: rest) =
          some (fields, rest)

variable {fuel : Nat}

/-- The step of `reads` for items: the first one, then a comma and the rest, or the closing
bracket. -/
theorem readsItems_succ (value : ReadsValue fuel) (more : ReadsItems fuel) :
    ReadsItems (fuel + 1) := by
  intro items nonempty legible short rest room enough
  cases items with
  | nil => exact absurd rfl nonempty
  | cons item items =>
    obtain ⟨first, others⟩ := legible
    obtain ⟨here, beside⟩ := Nat.max_le.1 enough
    cases items with
    | nil =>
      rw [compactItems, compactItems, String.intercalate_singleton] at short ⊢
      obtain ⟨r, read, stop⟩ := value item first (by omega) _ (stops_bracket rest) room here
      exact items?_last read stop
    | cons next items =>
      have text := toList_intercalate_cons_cons item.compact next.compact (compactItems items)
      rw [compactItems, compactItems, text] at short ⊢
      rw [List.length_append, List.length_cons] at short
      rw [List.append_assoc, List.cons_append]
      obtain ⟨r, read, stop⟩ := value item first (by omega) _ (stops_comma _) room here
      have short' : (String.intercalate "," (compactItems (next :: items))).toList.length + 1 <
          fuel := by
        rw [compactItems]
        omega
      exact items?_comma read stop (more _ (List.cons_ne_nil _ _) others short' rest room beside)

/-- The step for fields, each of which has its name before it. -/
theorem readsFields_succ (value : ReadsValue fuel) (more : ReadsFields fuel) :
    ReadsFields (fuel + 1) := by
  intro fields nonempty legible short rest room enough
  cases fields with
  | nil => exact absurd rfl nonempty
  | cons field fields =>
    obtain ⟨name, item⟩ := field
    obtain ⟨first, others⟩ := legible
    obtain ⟨here, beside⟩ := Nat.max_le.1 enough
    cases fields with
    | nil =>
      rw [compactFields, compactFields, String.intercalate_singleton, toList_compactField]
        at short ⊢
      rw [List.length_append, List.length_cons] at short
      rw [List.append_assoc, List.cons_append]
      obtain ⟨r, read, stop⟩ := value item first (by omega) _ (stops_brace rest) room here
      exact fields?_last (fieldHead_quoted name _) read stop
    | cons next fields =>
      obtain ⟨name', item'⟩ := next
      have text := toList_intercalate_cons_cons (quoted name ++ ":" ++ item.compact)
        (quoted name' ++ ":" ++ item'.compact) (compactFields fields)
      rw [compactFields, compactFields, text, toList_compactField] at short ⊢
      rw [List.length_append, List.length_append, List.length_cons, List.length_cons] at short
      rw [List.append_assoc, List.append_assoc, List.cons_append, List.cons_append]
      obtain ⟨r, read, stop⟩ := value item first (by omega) _ (stops_comma _) room here
      have short' : (String.intercalate ","
          (compactFields ((name', item') :: fields))).toList.length + 1 < fuel := by
        rw [compactFields]
        omega
      exact fields?_comma (fieldHead_quoted name _) read stop
        (more _ (List.cons_ne_nil _ _) others short' rest room beside)

/-- The step for a value, whose text says by its first character which kind it is. -/
theorem readsValue_succ (inArray : ReadsItems fuel) (inObject : ReadsFields fuel) :
    ReadsValue (fuel + 1) := by
  intro json legible short rest stops room enough
  cases json with
  | null => exact ⟨rest, rfl, stops.skipSpace_eq⟩
  | bool value => cases value <;> exact ⟨rest, rfl, stops.skipSpace_eq⟩
  | int value =>
    obtain ⟨c, cs, text, starts⟩ := exists_head_repr value
    have read := number?_append stops value.repr.toList
    rw [number?_repr legible] at read
    refine ⟨rest, ?_, stops.skipSpace_eq⟩
    rw [compact, text, List.cons_append,
      value?_eq_number? (skipSpace_cons starts.not_isSpace _) starts.not_mem_openers,
      ← List.cons_append, ← text, read]
    rfl
  | float value =>
    -- the hypothesis reads the text alone, here something follows it
    obtain ⟨r, read, blank⟩ := exists_of_parse?_eq_some legible
    refine ⟨r ++ rest, value?_append_of_float read stops fuel room, ?_⟩
    rw [skipSpace] at blank ⊢
    rw [List.dropWhile_append, blank]
    exact stops.skipSpace_eq
  | str value =>
    refine ⟨rest, ?_, stops.skipSpace_eq⟩
    rw [compact, toList_quoted, List.cons_append, value?, skipSpace_cons (by decide)]
    simp [stringBody_quoted]
  | arr items =>
    obtain ⟨room, rfl⟩ := Nat.exists_eq_succ_of_ne_zero (Nat.ne_zero_of_lt enough)
    rw [toList_compact_arr, List.length_cons, List.length_append, List.length_singleton] at short
    refine ⟨rest, ?_, stops.skipSpace_eq⟩
    rw [toList_compact_arr, List.cons_append, List.append_assoc, List.singleton_append]
    refine (value?_array_iff (skipSpace_cons (by decide) _)).2 ⟨items, ?_, rfl⟩
    cases items with
    | nil => exact .inr ⟨rfl, rfl⟩
    | cons item items =>
      exact .inl (inArray _ (List.cons_ne_nil _ _) legible (by omega) rest room
        (Nat.le_of_succ_le_succ enough))
  | obj fields =>
    obtain ⟨room, rfl⟩ := Nat.exists_eq_succ_of_ne_zero (Nat.ne_zero_of_lt enough)
    rw [toList_compact_obj, List.length_cons, List.length_append, List.length_singleton] at short
    refine ⟨rest, ?_, stops.skipSpace_eq⟩
    rw [toList_compact_obj, List.cons_append, List.append_assoc, List.singleton_append]
    refine (value?_object_iff (skipSpace_cons (by decide) _)).2 ⟨fields, ?_, rfl⟩
    cases fields with
    | nil => exact .inr ⟨rfl, rfl⟩
    | cons field fields =>
      exact .inl (inObject _ (List.cons_ne_nil _ _) legible (by omega) rest room
        (Nat.le_of_succ_le_succ enough))

/-- **Every text of a legible value is read back**, given as much fuel as it has characters and room
for its brackets. By induction on the fuel. -/
theorem reads (fuel : Nat) : ReadsValue fuel ∧ ReadsItems fuel ∧ ReadsFields fuel := by
  -- Each reader calls the others with less fuel, and what they read is shorter.
  induction fuel with
  | zero =>
    refine ⟨fun _ _ short => ?_, fun _ _ _ short => ?_, fun _ _ _ short => ?_⟩
    all_goals exact absurd short (Nat.not_lt_zero _)
  | succ fuel ih =>
    obtain ⟨value, inArray, inObject⟩ := ih
    exact ⟨readsValue_succ inArray inObject, readsItems_succ value inArray,
      readsFields_succ value inObject⟩

end Json

end HiveQuery
