import HiveQuery.Json.Reader
/-!
# The scalars of YAML

A scalar is plain or stands in single or double quotes, and may go on over several lines. It is read
as words and the gaps between them: a gap within a line is kept, the end of a single line becomes a
blank, and of several line ends the first is dropped.
-/

namespace HiveQuery

namespace Yaml

/-! ## Characters and places -/

/-- A blank inside of a line. -/
def isInlineBlank (c : Char) : Bool :=
  c == ' ' || c == '\t'

/-- The line separator and the paragraph separator. -/
def isSeparator (c : Char) : Bool :=
  c.toNat == 0x2028 || c.toNat == 0x2029

/-- A character that ends a line. -/
def isLineEnd (c : Char) : Bool :=
  c == '\n' || c == '\r' || c.toNat == 0x85 || isSeparator c

/-- What a line end is in a scalar: the two separators stay what they are. -/
def lineEndChar (c : Char) : Char :=
  if isSeparator c then c else '\n'

/-- A blank, a line end, or the end of the text. -/
def startsBlank (cs : List Char) : Bool :=
  cs.head?.all fun c => isInlineBlank c || isLineEnd c

/-- A place in a text. -/
structure Place where
  line : Nat := 0
  /-- The characters before it on its line. -/
  column : Nat := 0
  /-- The bytes before it on its line. -/
  offset : Nat := 0

namespace Place

/-- The place behind a character of the line. -/
def after (p : Place) (c : Char) : Place :=
  { p with column := p.column + 1, offset := p.offset + c.utf8Size }

def afterAll (p : Place) (cs : List Char) : Place :=
  cs.foldl after p

def nextLine (p : Place) : Place where
  line := p.line + 1

end Place

/-- Three dashes or three points alone at the beginning of a line divide documents. -/
def startsMarker (cs : List Char) (p : Place) : Bool :=
  p.column == 0 && ["---", "..."].contains (String.ofList (cs.take 3)) && startsBlank (cs.drop 3)

/-! ## Gaps -/

/-- What stands between two words of a scalar. -/
structure Gap where
  /-- The blanks before the first line end. -/
  blanks : List Char := []
  lineEnds : List Char := []

namespace Gap

def crossesLines (g : Gap) : Bool :=
  !g.lineEnds.isEmpty

/-- The text that a gap leaves in the scalar. -/
def text (g : Gap) : List Char :=
  match g.lineEnds with
  | [] => g.blanks
  | ['\n'] => [' ']
  | '\n' :: more => more
  | separators => separators

end Gap

/-- A gap and what follows it. Blanks behind a line end are dropped, but a tab among them must not
stand before the indentation. -/
def gap? (indent : Nat) (crossed : Bool) : List Char → Place → Option (Gap × List Char × Place)
  | [], p => some ({}, [], p)
  | '\r' :: '\n' :: cs, p => do
    let (g, rest) ← gap? indent true cs p.nextLine
    return ({ g with lineEnds := '\n' :: g.lineEnds }, rest)
  | c :: cs, p => do
    if isLineEnd c then
      let (g, rest) ← gap? indent true cs p.nextLine
      return ({ g with lineEnds := lineEndChar c :: g.lineEnds }, rest)
    else if isInlineBlank c then
      if crossed then
        guard !(c == '\t' && p.column < indent)
        gap? indent true cs (p.after c)
      else
        let (g, rest) ← gap? indent false cs (p.after c)
        return ({ g with blanks := c :: g.blanks }, rest)
    else return ({}, c :: cs, p)

/-! ## Plain scalars -/

/-- A word ends at a blank, and at a colon before one. -/
def plainWord : List Char → List Char × List Char
  | [] => ([], [])
  | c :: cs =>
    if isInlineBlank c || isLineEnd c || (c == ':' && startsBlank cs) then ([], c :: cs)
    else
      let (word, rest) := plainWord cs
      (c :: word, rest)

/-- A scalar that was read, and what follows it. -/
structure ScalarEnd where
  text : List Char
  rest : List Char
  place : Place
  /-- The gap behind the scalar goes over a line end. -/
  atNewLine : Bool := false

/-- What follows a gap in a plain scalar. It ends at a comment, a marker, the colon of a key, or a line
that is not indented enough. The first argument bounds the number of words. -/
def plain? (indent : Nat) : Nat → Gap → List Char → Place → Option ScalarEnd
  | 0, _, _, _ => none
  | fuel + 1, g, cs, p => do
    let (word, rest) := if startsMarker cs p || cs.head? == some '#' then ([], cs) else plainWord cs
    if word.isEmpty then return { text := [], rest := cs, place := p, atNewLine := g.crossesLines }
    let (next, rest, p) ← gap? indent false rest (p.afterAll word)
    let tail ←
      if rest.isEmpty || p.column < indent then
        pure { text := [], rest, place := p, atNewLine := next.crossesLines }
      else plain? indent fuel next rest p
    return { tail with text := g.text ++ word ++ tail.text }

/-! ## Scalars in quotes -/

/-- The character of an escape that is written with one letter. -/
def letterEscape? (c : Char) : Option Char :=
  match c with
  | '0' => some '\x00'
  | 'a' => some '\x07'
  | 'b' => some '\x08'
  | 't' => some '\t'
  | '\t' => some '\t'
  | 'n' => some '\n'
  | 'v' => some '\x0b'
  | 'f' => some '\x0c'
  | 'r' => some '\r'
  | 'e' => some '\x1b'
  | ' ' => some ' '
  | '"' => some '"'
  | '/' => some '/'
  | '\\' => some '\\'
  | 'N' => some (Char.ofNat 0x85)
  | '_' => some (Char.ofNat 0xA0)
  | 'L' => some (Char.ofNat 0x2028)
  | 'P' => some (Char.ofNat 0x2029)
  | _ => none

/-- How many hexadecimal digits follow the letter of an escape. -/
def escapeDigits (c : Char) : Nat :=
  match c with
  | 'x' => 2
  | 'u' => 4
  | 'U' => 8
  | _ => 0

/-- The character that hexadecimal digits name. -/
def hexChar? (ds : List Char) : Option Char := do
  let digits ← ds.mapM Json.Reader.hexDigit?
  let code := digits.foldl (fun n d => 16 * n + d) 0
  guard code.isValidChar
  return Char.ofNat code

/-- The character of an escape, by what follows the backslash, and the characters that write it. -/
def escape? (c : Char) (cs : List Char) : Option (Char × List Char) :=
  let digits := cs.take (escapeDigits c)
  if escapeDigits c = 0 then (letterEscape? c).map (·, [c])
  else if digits.length = escapeDigits c then (hexChar? digits).map (·, c :: digits)
  else none

/-- What stands in quotes up to the closing one. In single quotes two of them are one; in double
quotes there are escapes, and an escaped line end joins two lines. The first argument bounds the
number of characters. -/
def quoted? (double : Bool) : Nat → List Char → Place → Option ScalarEnd
  | 0, _, _ => none
  | _ + 1, [], _ => none
  | fuel + 1, c :: cs, p => do
    if isInlineBlank c || isLineEnd c then
      let (g, rest, p) ← gap? 0 false (c :: cs) p
      guard !(startsMarker rest p)
      let tail ← quoted? double fuel rest p
      return { tail with text := g.text ++ tail.text }
    else if double && c == '\\' then
      match cs with
      | [] => none
      | e :: rest =>
        if isLineEnd e then
          let (g, rest, p) ← gap? 0 false cs (p.after c)
          guard !(startsMarker rest p)
          let tail ← quoted? double fuel rest p
          return { tail with text := g.lineEnds.tail ++ tail.text }
        else
          let (value, written) ← escape? e rest
          let tail ← quoted? double fuel (cs.drop written.length) (p.afterAll (c :: written))
          return { tail with text := value :: tail.text }
    else if c == (if double then '"' else '\'') then
      if !double && cs.head? == some '\'' then
        let tail ← quoted? double fuel (cs.drop 1) (p.afterAll ['\'', '\''])
        return { tail with text := '\'' :: tail.text }
      else return { text := [], rest := cs, place := p.after c }
    else
      let tail ← quoted? double fuel cs (p.after c)
      return { tail with text := c :: tail.text }

end Yaml

end HiveQuery
