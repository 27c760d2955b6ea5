import HiveQuery.Proofs.Numerals
import HiveQuery.Proofs.RoundTrip
/-!
# Equal texts are of equal statements

The fingerprint of a statement is a digest of the text of its document. Statements whose
floating-point literals are finite have the same text only if they are the same
(`Statement.compact_toJson_eq_iff`). This does not go by reading the text, which may change a
number: two texts are compared from their first characters on. The first character tells the kind
of a value, and the text of a value ends where what follows it begins.
-/

namespace HiveQuery

open Json.Reader

namespace Json

/-! ## Numbers -/

/-- The layout that differs from that of a document in writing no plus before an exponent. -/
def plainLayout : NumberLayout :=
  { numberLayout with exponentPlus := "" }

theorem filter_scientific (d : Decimal) :
    (numberLayout.scientific d).toList.filter (· != '+') =
      (plainLayout.scientific d).toList.filter (· != '+') := by
  have exponent : (if 0 ≤ d.exponent then "e" ++ numberLayout.exponentPlus ++ d.exponent.toNat.repr
        else "e-" ++ (-d.exponent).toNat.repr).toList.filter (· != '+') =
      (if 0 ≤ d.exponent then "e" ++ plainLayout.exponentPlus ++ d.exponent.toNat.repr
        else "e-" ++ (-d.exponent).toNat.repr).toList.filter (· != '+') := by
    split_ifs <;> simp [numberLayout, plainLayout]
  simp only [NumberLayout.scientific, String.toList_append, List.filter_append, exponent]

/-- Without its plus, a number is written as in the plain layout. -/
theorem filter_floatText {x : Binary64} (hx : x.isFinite) :
    (floatText x).toList.filter (· != '+') = (plainLayout.text x).toList.filter (· != '+') := by
  have tie : plainLayout.tie = numberLayout.tie := rfl
  have low : plainLayout.positionalFrom = numberLayout.positionalFrom := rfl
  have high : plainLayout.positionalTo = numberLayout.positionalTo := rfl
  rw [floatText, if_pos hx]
  simp only [NumberLayout.text, tie, low, high]
  generalize (if x.negative then "-" else "") = sign
  split_ifs
  · rfl
  · rfl
  · rw [String.toList_append, String.toList_append, List.filter_append, List.filter_append,
      filter_scientific]

/-- The sign and the numeral of a finite number. -/
theorem exists_floatText {x : Binary64} (hx : x.isFinite) :
    ∃ n : Numeral, (floatText x).toList.filter (· != '+') =
        (if x.negative then ['-'] else []) ++ n.chars ∧
      Constant.ofNumeral (String.ofList n.chars) = .decimal x.abs := by
  have plain : plainLayout.exponentPlus = "" := rfl
  obtain ⟨numeral, w, text, ⟨n, chars, -⟩, read⟩ := NumberLayout.exists_numeral plain hx
  refine ⟨n, ?_, by rw [← chars, String.ofList_toList, read]⟩
  have minus : (if x.negative then "-" else "").toList = if x.negative then ['-'] else [] := by
    split_ifs <;> rfl
  rw [filter_floatText hx, text, String.toList_append, chars, minus, List.filter_eq_self]
  intro c hc
  rcases List.mem_append.1 hc with hc | hc
  · split_ifs at hc
    · rw [List.mem_singleton.1 hc]
      decide
    · cases hc
  · rcases Numeral.mem_chars hc with digit | rfl | rfl | rfl
    · rw [bne_iff_ne]
      rintro rfl
      cases digit
    all_goals decide

/-- **Finite numbers of the same text are the same.** -/
theorem eq_of_floatText_eq {x y : Binary64} (hx : x.isFinite) (hy : y.isFinite)
    (h : floatText x = floatText y) : x = y := by
  obtain ⟨n, textX, readX⟩ := exists_floatText hx
  obtain ⟨m, textY, readY⟩ := exists_floatText hy
  rw [h, textY] at textX
  have sign : x.negative = y.negative ∧ n.chars = m.chars := by
    have first := n.head?_chars_ne_minus
    have first' := m.head?_chars_ne_minus
    cases negX : x.negative <;> cases negY : y.negative <;> simp [negX, negY] at textX
    · exact ⟨rfl, textX.symm⟩
    · simp [← textX] at first
    · simp [textX] at first'
    · exact ⟨rfl, textX.symm⟩
  obtain ⟨sign, chars⟩ := sign
  rw [chars, readY] at readX
  have abs : y.abs = x.abs := Constant.decimal.inj readX
  cases neg : x.negative with
  | false =>
    rw [← Binary64.abs_of_not_negative neg, ← abs, Binary64.abs_of_not_negative (sign ▸ neg)]
  | true => rw [← Binary64.negate_abs neg, ← abs, Binary64.negate_abs (sign ▸ neg)]

/-- A character of a number. -/
def isNumberChar (c : Char) : Bool :=
  c.isDigit || c ∈ ['-', '+', '.', 'e']

/-- The text of an integer is made of the characters of numbers, -/
theorem isNumberChar_of_mem_repr {n : Int} {c : Char} (h : c ∈ n.repr.toList) :
    isNumberChar c := by
  rcases numberHead_of_mem_repr h with digit | rfl
  · simp [isNumberChar, digit]
  · decide

/-- and so is that of a finite float. -/
theorem isNumberChar_of_mem_floatText {x : Binary64} (hx : x.isFinite) {c : Char}
    (h : c ∈ (floatText x).toList) : isNumberChar c := by
  obtain ⟨n, text, -⟩ := exists_floatText hx
  by_cases plus : c = '+'
  · subst plus
    decide
  · have kept : c ∈ (floatText x).toList.filter (· != '+') :=
      List.mem_filter.2 ⟨h, bne_iff_ne.2 plus⟩
    rw [text, List.mem_append] at kept
    rcases kept with minus | kept
    · split_ifs at minus
      · rw [List.mem_singleton.1 minus]
        decide
      · cases minus
    · rcases Numeral.mem_chars kept with digit | rfl | rfl | rfl
      · simp [isNumberChar, digit]
      all_goals decide

/-- A number that is no integer shows it. -/
theorem point_or_letter_mem_floatText {x : Binary64} (hx : x.isFinite) :
    '.' ∈ (floatText x).toList ∨ 'e' ∈ (floatText x).toList := by
  obtain ⟨n, text, -⟩ := exists_floatText hx
  have kept : ∀ c ∈ n.chars, c ∈ (floatText x).toList := by
    intro c hc
    refine List.mem_of_mem_filter (p := (· != '+')) ?_
    rw [text]
    exact List.mem_append_right _ hc
  exact n.point_or_letter_mem.imp (kept _) (kept _)

/-- **An integer and a float never have the same text**: a float has a point or an exponent. -/
theorem repr_ne_floatText (n : Int) {x : Binary64} (hx : x.isFinite) :
    n.repr.toList ≠ (floatText x).toList := by
  intro same
  rcases point_or_letter_mem_floatText hx with h | h
  all_goals
    rw [← same] at h
    exact absurd (numberHead_of_mem_repr h) (by simp [NumberHead])

/-! ## Where a text ends -/

/-- Two values followed by what may follow a value are the same if the texts are, and so is what
follows. -/
def Ends (a b : Json) : Prop :=
  ∀ r r', Stops r → Stops r' → a.compact.toList ++ r = b.compact.toList ++ r' → a = b ∧ r = r'

/-- A number ends where what follows is no character of a number. -/
theorem number_ends {u v r r' : List Char} (hu : ∀ c ∈ u, isNumberChar c)
    (hv : ∀ c ∈ v, isNumberChar c) (stops : Stops r) (stops' : Stops r') (h : u ++ r = v ++ r') :
    u = v ∧ r = r' := by
  have apart : ∀ {c cs rest}, isNumberChar c → Stops rest → rest ≠ c :: cs := by
    rintro c cs _ number stops rfl
    rcases stops c rfl with rfl | rfl | rfl <;> cases number
  induction u generalizing v with
  | nil =>
    cases v with
    | nil => exact ⟨rfl, h⟩
    | cons c v => exact absurd h (apart (hv c List.mem_cons_self) stops)
  | cons c u ih =>
    cases v with
    | nil => exact absurd h.symm (apart (hu c List.mem_cons_self) stops')
    | cons d v =>
      obtain ⟨rfl, tails⟩ := List.cons.inj h
      obtain ⟨rfl, rest⟩ := ih (fun c hc => hu c (List.mem_cons_of_mem _ hc))
        (fun c hc => hv c (List.mem_cons_of_mem _ hc)) tails
      exact ⟨rfl, rest⟩

/-- A string ends at its closing quote. -/
theorem quoted_ends {text text' : String} {r r' : List Char}
    (h : (quoted text).toList ++ r = (quoted text').toList ++ r') : text = text' ∧ r = r' := by
  rw [toList_quoted, toList_quoted, List.cons_append, List.cons_append, List.append_assoc,
    List.append_assoc] at h
  have body := (List.cons.inj h).2
  have read := stringBody_quoted text.toList r
  rw [← List.singleton_append, body, List.singleton_append, stringBody_quoted] at read
  obtain ⟨same, rest⟩ := Prod.mk.inj (Option.some.inj read)
  exact ⟨String.toList_inj.1 same.symm, rest.symm⟩

section Separated

variable {α : Type} {text : α → String} {close : Char}

theorem toList_intercalate_map_cons (x : α) (xs : List α) :
    (String.intercalate "," ((x :: xs).map text)).toList =
      (text x).toList ++ xs.flatMap fun y => ',' :: (text y).toList := by
  induction xs generalizing x with
  | nil => simp
  | cons y xs ih =>
    rw [List.map_cons, List.map_cons, toList_intercalate_cons_cons, ← List.map_cons, ih,
      List.flatMap_cons]
    rfl

theorem stops_separated (closes : ∀ rest, Stops (close :: rest)) (xs : List α) (r : List Char) :
    Stops ((xs.flatMap fun y => ',' :: (text y).toList) ++ close :: r) := by
  cases xs with
  | nil => exact closes r
  | cons x xs => exact stops_comma _

/-- Parts with a comma before each of them are cut at the commas, if each part ends at a comma or
the closing bracket. -/
theorem commas_end (closes : ∀ rest, Stops (close :: rest)) (comma : close ≠ ',') {xs ys : List α}
    (ends : ∀ x ∈ xs, ∀ y ∈ ys, ∀ r r', Stops r → Stops r' →
      (text x).toList ++ r = (text y).toList ++ r' → x = y ∧ r = r') {r r' : List Char}
    (h : (xs.flatMap fun y => ',' :: (text y).toList) ++ close :: r =
      (ys.flatMap fun y => ',' :: (text y).toList) ++ close :: r') : xs = ys ∧ r = r' := by
  induction xs generalizing ys with
  | nil =>
    cases ys with
    | nil => exact ⟨rfl, (List.cons.inj h).2⟩
    | cons y ys => exact absurd (List.cons.inj h).1 comma
  | cons x xs ih =>
    cases ys with
    | nil => exact absurd (List.cons.inj h).1 (Ne.symm comma)
    | cons y ys =>
      rw [List.flatMap_cons, List.flatMap_cons, List.append_assoc, List.append_assoc] at h
      obtain ⟨rfl, more⟩ := ends x List.mem_cons_self y List.mem_cons_self _ _
        (stops_separated closes _ _) (stops_separated closes _ _) (List.cons.inj h).2
      obtain ⟨rfl, rest⟩ := ih (fun x hx y hy =>
        ends x (List.mem_cons_of_mem _ hx) y (List.mem_cons_of_mem _ hy)) more
      exact ⟨rfl, rest⟩

/-- The same without the first comma, if no part begins with the bracket. -/
theorem separated_ends (closes : ∀ rest, Stops (close :: rest)) (comma : close ≠ ',')
    {xs ys : List α} (ends : ∀ x ∈ xs, ∀ y ∈ ys, ∀ r r', Stops r → Stops r' →
      (text x).toList ++ r = (text y).toList ++ r' → x = y ∧ r = r')
    (opens : ∀ x ∈ xs ++ ys, ∃ c cs, (text x).toList = c :: cs ∧ c ≠ close) {r r' : List Char}
    (h : (String.intercalate "," (xs.map text)).toList ++ close :: r =
      (String.intercalate "," (ys.map text)).toList ++ close :: r') : xs = ys ∧ r = r' := by
  cases xs with
  | nil =>
    cases ys with
    | nil => exact ⟨rfl, (List.cons.inj h).2⟩
    | cons y ys =>
      obtain ⟨c, cs, start, ne⟩ := opens y (by simp)
      rw [toList_intercalate_map_cons, start] at h
      exact absurd (List.cons.inj h).1.symm ne
  | cons x xs =>
    cases ys with
    | nil =>
      obtain ⟨c, cs, start, ne⟩ := opens x (by simp)
      rw [toList_intercalate_map_cons, start] at h
      exact absurd (List.cons.inj h).1 ne
    | cons y ys =>
      refine commas_end closes comma ends ?_
      rw [toList_intercalate_map_cons, toList_intercalate_map_cons] at h
      exact congrArg (',' :: ·) h

end Separated

/-! ## Values -/

theorem compactItems_eq (items : List Json) : compactItems items = items.map compact := by
  induction items with
  | nil => rfl
  | cons item items ih => rw [compactItems, ih, List.map_cons]

theorem compactFields_eq (fields : List (String × Json)) :
    compactFields fields = fields.map fun field => quoted field.1 ++ ":" ++ field.2.compact := by
  induction fields with
  | nil => rfl
  | cons field fields ih => rw [compactFields, ih, List.map_cons]

/-- The character that the text of a value begins with, unless it is a number. -/
def opener : Json → Option Char
  | null => some 'n'
  | bool value => some (if value then 't' else 'f')
  | int _ | float _ => none
  | str _ => some '"'
  | arr _ => some '['
  | obj _ => some '\x7b'

/-- A value begins with its opener, and a number with a character of a number. -/
def Begins (json : Json) (c : Char) : Prop :=
  json.opener = some c ∨ json.opener = none ∧ isNumberChar c

/-- The first character of a legible value says which kind it is. -/
theorem exists_begins {json : Json} (legible : json.Legible (·.isFinite)) :
    ∃ c cs, json.compact.toList = c :: cs ∧ json.Begins c := by
  cases json with
  | null => exact ⟨'n', _, rfl, .inl rfl⟩
  | bool value =>
    cases value with
    | true => exact ⟨'t', _, rfl, .inl rfl⟩
    | false => exact ⟨'f', _, rfl, .inl rfl⟩
  | int value =>
    obtain ⟨c, cs, text⟩ := List.exists_cons_of_ne_nil (toList_repr_ne_nil value)
    exact ⟨c, cs, text, .inr ⟨rfl, isNumberChar_of_mem_repr (text ▸ List.mem_cons_self)⟩⟩
  | float value =>
    have nonempty : (floatText value).toList ≠ [] := by
      intro nil
      simpa [nil] using point_or_letter_mem_floatText legible
    obtain ⟨c, cs, text⟩ := List.exists_cons_of_ne_nil nonempty
    have number := isNumberChar_of_mem_floatText legible (text ▸ List.mem_cons_self)
    exact ⟨c, cs, text, .inr ⟨rfl, number⟩⟩
  | str value => exact ⟨'"', _, toList_quoted value, .inl rfl⟩
  | arr items => exact ⟨'[', _, toList_compact_arr items, .inl rfl⟩
  | obj fields => exact ⟨'\x7b', _, toList_compact_obj fields, .inl rfl⟩

theorem isNumberChar_opener {json : Json} {c : Char} (h : json.opener = some c) :
    isNumberChar c = false ∧ c ≠ ']' := by
  cases json with
  | int | float => cases h
  | bool value =>
    cases value <;> obtain rfl := Option.some.inj h <;> decide
  | null | str | arr | obj =>
    obtain rfl := Option.some.inj h
    decide

theorem Begins.ne_bracket {json : Json} {c : Char} (h : json.Begins c) : c ≠ ']' := by
  rcases h with opener | ⟨-, number⟩
  · exact (isNumberChar_opener opener).2
  · rintro rfl
    cases number

/-- The first character tells the kind of a value. -/
theorem Begins.opener_eq {a b : Json} {c : Char} (ha : a.Begins c) (hb : b.Begins c) :
    a.opener = b.opener := by
  rcases ha with ha | ⟨ha, numberA⟩ <;> rcases hb with hb | ⟨hb, numberB⟩
  · rw [ha, hb]
  · simp [(isNumberChar_opener ha).1] at numberB
  · simp [(isNumberChar_opener hb).1] at numberA
  · rw [ha, hb]

/-- Values whose texts begin alike are of one kind. -/
theorem opener_eq {a b : Json} {r r' : List Char} (ha : a.Legible (·.isFinite))
    (hb : b.Legible (·.isFinite)) (h : a.compact.toList ++ r = b.compact.toList ++ r') :
    a.opener = b.opener := by
  obtain ⟨c, cs, textA, beginsA⟩ := exists_begins ha
  obtain ⟨d, ds, textB, beginsB⟩ := exists_begins hb
  rw [textA, textB] at h
  obtain ⟨rfl, -⟩ := List.cons.inj h
  exact beginsA.opener_eq beginsB

/-- Induction on the values in a value. -/
@[elab_as_elim]
theorem nested_induction {motive : Json → Prop} (null : motive null)
    (bool : ∀ value, motive (bool value)) (int : ∀ value, motive (int value))
    (float : ∀ value, motive (float value)) (str : ∀ value, motive (str value))
    (arr : ∀ items, (∀ item ∈ items, motive item) → motive (arr items))
    (obj : ∀ fields, (∀ field ∈ fields, motive field.2) → motive (obj fields)) :
    ∀ json, motive json
  | .null => null
  | .bool value => bool value
  | .int value => int value
  | .float value => float value
  | .str value => str value
  | .arr items => arr items fun item _ => nested_induction null bool int float str arr obj item
  | .obj fields =>
    obj fields fun field _ => nested_induction null bool int float str arr obj field.2
decreasing_by
  · have := List.sizeOf_lt_of_mem ‹item ∈ items›
    simp only [Json.arr.sizeOf_spec]
    omega
  · have := List.sizeOf_lt_of_mem ‹field ∈ fields›
    obtain ⟨name, value⟩ := field
    simp only [Json.obj.sizeOf_spec, Prod.mk.sizeOf_spec] at this ⊢
    omega

/-- A field says by itself where it ends, if its value does. -/
theorem field_ends {x y : String × Json} (h : x.2.Ends y.2) (r r' : List Char) (stops : Stops r)
    (stops' : Stops r') (same : (quoted x.1 ++ ":" ++ x.2.compact).toList ++ r =
      (quoted y.1 ++ ":" ++ y.2.compact).toList ++ r') : x = y ∧ r = r' := by
  rw [toList_compactField, toList_compactField, List.append_assoc, List.append_assoc] at same
  obtain ⟨name, values⟩ := quoted_ends same
  obtain ⟨value, rest⟩ := h r r' stops stops' (List.cons.inj values).2
  exact ⟨Prod.ext name value, rest⟩

/-- **The text of a value says where it ends**, and which value it is of. -/
theorem ends {a : Json} (ha : a.Legible (·.isFinite)) {b : Json} (hb : b.Legible (·.isFinite)) :
    a.Ends b := by
  -- Values of different kinds differ in their first character, except for the two kinds of number.
  induction a using nested_induction generalizing b with
  | null =>
    intro r r' _ _ h
    cases b with
    | null => exact ⟨rfl, List.append_cancel_left h⟩
    | _ => exact absurd (opener_eq ha hb h) (by simp [opener, eq_ite_iff])
  | bool value =>
    intro r r' _ _ h
    cases b with
    | bool value' =>
      cases value <;> cases value'
      · exact ⟨rfl, List.append_cancel_left h⟩
      · exact absurd (opener_eq ha hb h) (by decide)
      · exact absurd (opener_eq ha hb h) (by decide)
      · exact ⟨rfl, List.append_cancel_left h⟩
    | _ => exact absurd (opener_eq ha hb h) (by simp [opener, ite_eq_iff])
  | int n =>
    intro r r' stops stops' h
    cases b with
    | int m =>
      obtain ⟨same, rest⟩ := number_ends (fun c hc => isNumberChar_of_mem_repr hc)
        (fun c hc => isNumberChar_of_mem_repr hc) stops stops' h
      have read := number?_repr ha
      rw [same, number?_repr hb] at read
      exact ⟨(Prod.mk.inj (Option.some.inj read)).1.symm, rest⟩
    | float x =>
      -- both texts are numbers to their ends, but only the second has a point or a letter
      obtain ⟨same, -⟩ := number_ends (fun c hc => isNumberChar_of_mem_repr hc)
        (fun c hc => isNumberChar_of_mem_floatText hb hc) stops stops' h
      exact absurd same (repr_ne_floatText n hb)
    | _ => exact absurd (opener_eq ha hb h) (by simp [opener])
  | float x =>
    intro r r' stops stops' h
    cases b with
    | int m =>
      obtain ⟨same, -⟩ := number_ends (fun c hc => isNumberChar_of_mem_floatText ha hc)
        (fun c hc => isNumberChar_of_mem_repr hc) stops stops' h
      exact absurd same.symm (repr_ne_floatText m ha)
    | float y =>
      obtain ⟨same, rest⟩ := number_ends (fun c hc => isNumberChar_of_mem_floatText ha hc)
        (fun c hc => isNumberChar_of_mem_floatText hb hc) stops stops' h
      exact ⟨congrArg _ (eq_of_floatText_eq ha hb (String.toList_inj.1 same)), rest⟩
    | _ => exact absurd (opener_eq ha hb h) (by simp [opener])
  | str text =>
    intro r r' _ _ h
    cases b with
    | str text' =>
      obtain ⟨rfl, rest⟩ := quoted_ends h
      exact ⟨rfl, rest⟩
    | _ => exact absurd (opener_eq ha hb h) (by simp [opener, eq_ite_iff])
  | arr items ih =>
    intro r r' _ _ h
    cases b with
    | arr items' =>
      have legible : ∀ item ∈ items ++ items', item.Legible (·.isFinite) :=
        List.forall_mem_append.2 ⟨legibleItems_iff.1 ha, legibleItems_iff.1 hb⟩
      rw [toList_compact_arr, toList_compact_arr, compactItems_eq, compactItems_eq,
        List.cons_append, List.cons_append, List.append_assoc, List.append_assoc] at h
      obtain ⟨rfl, rest⟩ := separated_ends stops_bracket (by decide)
        (fun x hx y hy => ih x hx (legible x (by simp [hx])) (legible y (by simp [hy])))
        (fun x hx => by
          obtain ⟨c, cs, text, begins⟩ := exists_begins (legible x hx)
          exact ⟨c, cs, text, begins.ne_bracket⟩)
        (List.cons.inj h).2
      exact ⟨rfl, rest⟩
    | _ => exact absurd (opener_eq ha hb h) (by simp [opener, eq_ite_iff])
  | obj fields ih =>
    intro r r' _ _ h
    cases b with
    | obj fields' =>
      have legible : ∀ field ∈ fields ++ fields', field.2.Legible (·.isFinite) :=
        List.forall_mem_append.2 ⟨legibleFields_iff.1 ha, legibleFields_iff.1 hb⟩
      rw [toList_compact_obj, toList_compact_obj, compactFields_eq, compactFields_eq,
        List.cons_append, List.cons_append, List.append_assoc, List.append_assoc] at h
      obtain ⟨rfl, rest⟩ := separated_ends stops_brace (by decide)
        (fun x hx y hy => field_ends
          (ih x hx (legible x (by simp [hx])) (legible y (by simp [hy]))))
        (fun x hx => ⟨'"', _, by rw [toList_compactField, toList_quoted]; rfl, by decide⟩)
        (List.cons.inj h).2
      exact ⟨rfl, rest⟩
    | _ => exact absurd (opener_eq ha hb h) (by simp [opener, eq_ite_iff])

/-- **Values of the same text are the same**, if their integers fit and their other numbers are
finite. -/
theorem eq_of_compact_eq {a b : Json} (ha : a.Legible (·.isFinite)) (hb : b.Legible (·.isFinite))
    (h : a.compact = b.compact) : a = b :=
  (ends ha hb [] [] stops_nil stops_nil (by rw [h])).1

end Json

namespace Statement

/-- **Equal texts are of equal statements.** What a fingerprint is the digest of tells any two
statements apart whose floating-point literals are finite. -/
theorem compact_toJson_eq_iff {s t : Statement} (hs : ∀ x ∈ s.floats, x.isFinite)
    (ht : ∀ x ∈ t.floats, x.isFinite) : s.toJson.compact = t.toJson.compact ↔ s = t := by
  refine ⟨fun h => eq_of_toJson_eq ?_, fun h => h ▸ rfl⟩
  exact Json.eq_of_compact_eq (legible_toJson hs) (legible_toJson ht) h

/-- A query of one constant. -/
def constantQuery (value : Literal) : Statement :=
  .query {
    select := { label := "v", columns := [⟨"x", .literal value, .unknown⟩] }
    projector := .scalar (.column "v" "x") }

/-- The integer one and the floating-point one are written differently. -/
theorem compact_toJson_eq_iff_constantQuery :
    (∀ x ∈ (constantQuery (.int 1)).floats, x.isFinite) ∧
      (∀ x ∈ (constantQuery (.float ⟨0x3FF0000000000000⟩)).floats, x.isFinite) ∧
      (constantQuery (.int 1)).toJson.compact ≠
        (constantQuery (.float ⟨0x3FF0000000000000⟩)).toJson.compact := by
  have integer : ∀ x ∈ (constantQuery (.int 1)).floats, x.isFinite := by decide
  have float : ∀ x ∈ (constantQuery (.float ⟨0x3FF0000000000000⟩)).floats, x.isFinite := by decide
  have apart : constantQuery (.int 1) ≠ constantQuery (.float ⟨0x3FF0000000000000⟩) := by
    simp [constantQuery]
  exact ⟨integer, float, (compact_toJson_eq_iff integer float).not.2 apart⟩

end Statement

end HiveQuery
