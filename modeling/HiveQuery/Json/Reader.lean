import HiveQuery.Json.Basic
/-!
# Reading JSON text

A recursive descent over the characters of a text. Every call of the three functions that call each
other lowers the fuel by one and consumes a character, so the length of the text is fuel enough. A
bracket or a brace that opens takes one from the room, and a text that nests more of them than there
is room for is not read.
-/

namespace HiveQuery

namespace Json

namespace Reader

/-- A blank between tokens. -/
def isSpace (c : Char) : Bool :=
  c == ' ' || c == '\t' || c == '\n' || c == '\r'

def skipSpace (cs : List Char) : List Char :=
  cs.dropWhile isSpace

/-! ## Strings -/

def hexDigit? (c : Char) : Option Nat :=
  if '0' ≤ c && c ≤ '9' then some (c.toNat - '0'.toNat)
  else if 'a' ≤ c && c ≤ 'f' then some (c.toNat - 'a'.toNat + 10)
  else if 'A' ≤ c && c ≤ 'F' then some (c.toNat - 'A'.toNat + 10)
  else none

/-- The number that four hexadecimal digits write. -/
def hexUnit? (a b c d : Char) : Option Nat := do
  return (((← hexDigit? a) * 16 + (← hexDigit? b)) * 16 + (← hexDigit? c)) * 16 + (← hexDigit? d)

/-- The character of a short escape. -/
def shortEscape? (c : Char) : Option Char :=
  match c with
  | '"' => some '"'
  | '\\' => some '\\'
  | '/' => some '/'
  | 'b' => some '\x08'
  | 'f' => some '\x0c'
  | 'n' => some '\n'
  | 'r' => some '\r'
  | 't' => some '\t'
  | _ => none

/-- The characters of a string up to its closing quote, and what follows the quote. Two escapes that
form a surrogate pair are one character; a surrogate alone is none. -/
def stringBody : List Char → Option (List Char × List Char)
  | [] => none
  | '"' :: rest => some ([], rest)
  | '\\' :: 'u' :: a :: b :: c :: d :: rest =>
    match hexUnit? a b c d with
    | none => none
    | some unit =>
      if 0xD800 ≤ unit && unit < 0xDC00 then
        match rest with
        | '\\' :: 'u' :: a' :: b' :: c' :: d' :: rest' =>
          match hexUnit? a' b' c' d' with
          | none => none
          | some low =>
            if 0xDC00 ≤ low && low < 0xE000 then
              (stringBody rest').map fun (cs, end') =>
                (Char.ofNat (0x10000 + (unit - 0xD800) * 0x400 + (low - 0xDC00)) :: cs, end')
            else none
        | _ => none
      else if 0xDC00 ≤ unit && unit < 0xE000 then none
      else (stringBody rest).map fun (cs, end') => (Char.ofNat unit :: cs, end')
  | '\\' :: c :: rest =>
    match shortEscape? c with
    | none => none
    | some c => (stringBody rest).map fun (cs, end') => (c :: cs, end')
  | c :: rest =>
    if c.toNat < 0x20 then none
    else (stringBody rest).map fun (cs, end') => (c :: cs, end')

/-! ## Numbers -/

/-- The number that decimal digits write. -/
def digitsValue (ds : List Char) : Nat :=
  ds.foldl (fun n d => 10 * n + (d.toNat - '0'.toNat)) 0

/-- The exponent part of a number, if one begins here. -/
def exponent? : List Char → Option (Option Int × List Char)
  | c :: rest =>
    if c == 'e' || c == 'E' then
      let (negative, rest) :=
        match rest with
        | '-' :: rest => (true, rest)
        | '+' :: rest => (false, rest)
        | _ => (false, rest)
      let digits := rest.takeWhile Char.isDigit
      if digits.isEmpty then none
      else
        let size : Int := digitsValue digits
        some (some (if negative then -size else size), rest.dropWhile Char.isDigit)
    else some (none, c :: rest)
  | [] => some (none, [])

/-- The digits after the point of a number, if a point stands here. -/
def fraction? : List Char → Option (Option (List Char) × List Char)
  | '.' :: rest =>
    let digits := rest.takeWhile Char.isDigit
    if digits.isEmpty then none else some (some digits, rest.dropWhile Char.isDigit)
  | rest => some (none, rest)

/-- A number goes on by as many of the digits as keep it below two to the power sixty-four. The result
is the number, and how many digits it took. -/
def leadingDigits (n : Nat) : List Char → Nat × Nat
  | [] => (n, 0)
  | d :: ds =>
    let next := 10 * n + (d.toNat - '0'.toNat)
    if next < UInt64.size then
      let (n, count) := leadingDigits next ds
      (n, count + 1)
    else (n, 0)

/-- The largest power of ten that is a finite number has this exponent. -/
def tenLimit : Nat := 308

/-- A number times a power of ten. The power is a floating-point number too, and each product and each
quotient is rounded. What is too large for the finite numbers is no number; what is divided by more
than two of the largest powers is zero. -/
def scaled? (x : Binary64) (exponent : Int) : Option Binary64 :=
  if x.isZero then some x
  else if 0 ≤ exponent then
    if exponent ≤ tenLimit then some (x.mul (.tenTo exponent.toNat)) |>.filter Binary64.isFinite
    else none
  else
    let places := (-exponent).toNat
    if places ≤ tenLimit then some (x.div (.tenTo places))
    else if places ≤ 2 * tenLimit then
      some ((x.div (.tenTo tenLimit)).div (.tenTo (places - tenLimit)))
    else some (.zero x.negative)

/-- The number that a decimal writes. Its leading digits, as many as fit into sixty-four bits, are
rounded to a floating-point number, which is then scaled. -/
def decimal? (negative : Bool) (whole fraction : List Char) (exponent : Int) : Option Binary64 :=
  let (n, taken) := leadingDigits 0 whole
  let (n, places) := leadingDigits n fraction
  scaled? (.ofNat negative n) (exponent + (whole.length - taken : Nat) - places)

/-- A number without its sign. An integer token is an integer if it fits into sixty-four bits, but for
`-0`. -/
def unsigned? (negative : Bool) (cs : List Char) : Option (Json × List Char) := do
  let whole := cs.takeWhile Char.isDigit
  guard (!whole.isEmpty && (whole.length == 1 || whole.head? != some '0'))
  let (fraction, rest) ← fraction? (cs.dropWhile Char.isDigit)
  let (exponent, rest) ← exponent? rest
  let size := digitsValue whole
  let fits := if negative then 0 < size && size ≤ Binary64.signBit else size < UInt64.size
  if fits && fraction.isNone && exponent.isNone then
    return (.int (if negative then -(size : Int) else size), rest)
  else
    let value ← decimal? negative whole (fraction.getD []) (exponent.getD 0)
    return (.float value, rest)

def number? : List Char → Option (Json × List Char)
  | '-' :: cs => unsigned? true cs
  | cs => unsigned? false cs

/-! ## Values -/

/-- The text after a word that has to stand here. -/
def word? (word : String) (cs : List Char) : Option (List Char) :=
  if word.toList.isPrefixOf cs then some (cs.drop word.length) else none

mutual

/-- A value, after blanks. -/
def value? : Nat → Nat → List Char → Option (Json × List Char)
  | 0, _, _ => none
  | fuel + 1, room, cs =>
    match skipSpace cs with
    | [] => none
    | 'n' :: rest => (word? "ull" rest).map fun rest => (.null, rest)
    | 't' :: rest => (word? "rue" rest).map fun rest => (.bool true, rest)
    | 'f' :: rest => (word? "alse" rest).map fun rest => (.bool false, rest)
    | '"' :: rest => (stringBody rest).map fun (body, rest) => (.str (String.ofList body), rest)
    | '[' :: rest =>
      match room with
      | 0 => none
      | room + 1 =>
        match skipSpace rest with
        | ']' :: rest => some (.arr [], rest)
        | rest => (items? fuel room rest).map fun (items, rest) => (.arr items, rest)
    | '\x7b' :: rest =>
      match room with
      | 0 => none
      | room + 1 =>
        match skipSpace rest with
        | '\x7d' :: rest => some (.obj [], rest)
        | rest => (fields? fuel room rest).map fun (fields, rest) => (.obj fields, rest)
    | cs => number? cs

/-- The items of an array up to its closing bracket. -/
def items? : Nat → Nat → List Char → Option (List Json × List Char)
  | 0, _, _ => none
  | fuel + 1, room, cs => do
    let (item, rest) ← value? fuel room cs
    match skipSpace rest with
    | ',' :: rest =>
      let (items, rest) ← items? fuel room rest
      return (item :: items, rest)
    | ']' :: rest => return ([item], rest)
    | _ => none

/-- The fields of an object up to its closing brace. -/
def fields? : Nat → Nat → List Char → Option (List (String × Json) × List Char)
  | 0, _, _ => none
  | fuel + 1, room, cs => do
    match skipSpace cs with
    | '"' :: rest =>
      let (name, rest) ← stringBody rest
      match skipSpace rest with
      | ':' :: rest =>
        let (value, rest) ← value? fuel room rest
        match skipSpace rest with
        | ',' :: rest =>
          let (fields, rest) ← fields? fuel room rest
          return ((String.ofList name, value) :: fields, rest)
        | '\x7d' :: rest => return ([(String.ofList name, value)], rest)
        | _ => none
      | _ => none
    | _ => none

end

end Reader

/-- So many brackets and braces may stand open at once in a text. -/
def nestingLimit : Nat := 127

/-- The value that a text writes, if it writes one and nothing else. -/
def parse? (text : String) : Option Json := do
  let cs := text.toList
  let (value, rest) ← Reader.value? (cs.length + 1) nestingLimit cs
  guard (Reader.skipSpace rest).isEmpty
  return value

end Json

end HiveQuery
