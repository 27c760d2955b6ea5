import HiveQuery.Yaml.Scalar
/-!
# The tokens of YAML

A text is cut into tokens before its values are read. The indentation of keys becomes tokens of its
own, one that opens a mapping and one that closes it. That a scalar is a key shows only at the colon
behind it, so a scalar that may be one is remembered until then. Sequences, flow collections, anchors,
tags, directives and block scalars are not read.
-/

namespace HiveQuery

namespace Yaml

inductive Token where
  | documentStart
  | documentEnd
  | mappingStart
  | mappingEnd
  | key
  | value
  | scalar (text : String) (plain : Bool)

/-- A scalar that may turn out to be a key. -/
structure KeyCandidate where
  place : Place
  /-- At this indentation nothing but a key can stand. -/
  required : Bool
  /-- The number of tokens before the scalar. -/
  before : Nat

/-- What is left of a text, and what was read of it. -/
structure Scan where
  rest : List Char
  place : Place := {}
  /-- The columns of the open mappings, the innermost first. -/
  columns : List Nat := []
  /-- A key may begin here. -/
  keyAllowed : Bool := true
  candidate : Option KeyCandidate := none
  /-- The tokens so far, the last one first. -/
  tokens : List Token := []

namespace Scan

def emit (s : Scan) (t : Token) : Scan :=
  { s with tokens := t :: s.tokens }

/-- Pass a number of characters of the line. -/
def pass (s : Scan) (count : Nat) : Scan :=
  { s with rest := s.rest.drop count, place := s.place.afterAll (s.rest.take count) }

/-- A byte order mark. -/
def isByteOrderMark (c : Char) : Bool :=
  c.toNat == 0xFEFF

/-- Blanks, comments and line ends before a token. Where a key may stand, a tab is no blank. A byte
order mark that begins a line is passed over, but counts as a column. -/
def skip (keyAllowed comment : Bool) : List Char → Place → Bool × List Char × Place
  | [], p => (keyAllowed, [], p)
  | '\r' :: '\n' :: cs, p => skip true false cs p.nextLine
  | c :: cs, p =>
    if isLineEnd c then skip true false cs p.nextLine
    else if comment || c == ' ' || (c == '\t' && !keyAllowed)
        || (isByteOrderMark c && p.column == 0) then
      skip keyAllowed comment cs (p.after c)
    else if c == '#' then skip keyAllowed true cs (p.after c)
    else (keyAllowed, c :: cs, p)

def toNext (s : Scan) : Scan :=
  let (keyAllowed, rest, place) := skip s.keyAllowed false s.rest s.place
  { s with keyAllowed, rest, place }

/-! ## Keys -/

/-- A key and its colon stand on one line, and not more than this many bytes apart. -/
def keyLimit : Nat := 1024

/-- The candidate turns out to be no key. -/
def dropCandidate? (s : Scan) : Option Scan :=
  if s.candidate.any (·.required) then none else some { s with candidate := none }

/-- A candidate that is too far back is no key. -/
def expire? (s : Scan) : Option Scan :=
  let expired := s.candidate.any fun k =>
    k.place.line < s.place.line || k.place.offset + keyLimit < s.place.offset
  if expired then s.dropCandidate? else some s

/-- Remember that a key may begin here. -/
def remember? (s : Scan) : Option Scan := do
  if s.keyAllowed then
    let s ← s.dropCandidate?
    return { s with
      candidate := some ⟨s.place, s.columns.head? == some s.place.column, s.tokens.length⟩
      keyAllowed := false }
  else return s

/-! ## Indentation -/

/-- Close the mappings of the columns that a test picks. -/
def close (s : Scan) (closes : Nat → Bool) : Scan :=
  { s with
    columns := s.columns.dropWhile closes
    tokens := List.replicate (s.columns.takeWhile closes).length .mappingEnd ++ s.tokens }

/-- A mapping begins at a column that is further in than the innermost one. -/
def opens (s : Scan) (column : Nat) : Bool :=
  s.columns.head?.all (· < column)

/-- Open a mapping at a column, if it is further in, behind the given tokens. -/
def openAt (s : Scan) (column : Nat) (tokens : List Token) : Scan :=
  if s.opens column then
    { s with columns := column :: s.columns, tokens := .mappingStart :: tokens }
  else { s with tokens }

/-- The colon behind a key. It makes the candidate a key; without one, a key that is not written ends
here. -/
def value? (s : Scan) : Option Scan :=
  match s.candidate with
  | some k =>
    let later := s.tokens.length - k.before
    let opened := s.openAt k.place.column (s.tokens.drop later)
    let keyed : Scan :=
      { opened with
        tokens := s.tokens.take later ++ Token.key :: opened.tokens
        candidate := none
        keyAllowed := false }
    some ((keyed.emit .value).pass 1)
  | none =>
    if s.keyAllowed then some (((s.openAt s.place.column s.tokens).emit .value).pass 1) else none

/-! ## Tokens -/

/-- The characters that begin no plain scalar. -/
def indicators : List Char :=
  [',', '[', ']', '\x7b', '\x7d', '#', '&', '*', '!', '|', '>', '\'', '"', '%', '@', '\x60', ' ', '\t']

/-- A plain scalar begins with no indicator, nor with a dash, a question mark or a colon alone. -/
def startsPlain (c : Char) (cs : List Char) : Bool :=
  if ['-', '?', ':'].contains c then !startsBlank cs else !indicators.contains c

def scalar (s : Scan) (plain : Bool) (e : ScalarEnd) : Scan :=
  let passed : Scan := { s with rest := e.rest, place := e.place, keyAllowed := e.atNewLine }
  passed.emit (.scalar (String.ofList e.text) plain)

/-- The token at the place that has been reached. -/
def token? (s : Scan) : Option Scan := do
  match s.rest with
  | [] => none
  | c :: cs =>
    if startsMarker s.rest s.place then
      let s ← (s.close fun _ => true).dropCandidate?
      let marker := if c == '-' then Token.documentStart else Token.documentEnd
      return ({ s with keyAllowed := false }.emit marker).pass 3
    else if c == ':' && startsBlank cs then s.value?
    else if c == '"' || c == '\'' then
      let s ← s.remember?
      return s.scalar false (← quoted? (c == '"') s.rest.length cs (s.place.after c))
    else
      guard (startsPlain c cs)
      let s ← s.remember?
      let indent := s.columns.head?.elim 0 (· + 1)
      return s.scalar true (← plain? indent s.rest.length {} s.rest s.place)

/-- The tokens from here on, at most as many as the first argument says. -/
def run? : Nat → Scan → Option (List Token)
  | 0, _ => none
  | fuel + 1, s => do
    let s ← s.toNext.expire?
    if s.rest.isEmpty then
      let s ← (s.close fun _ => true).dropCandidate?
      return s.tokens.reverse
    else run? fuel (← (s.close (s.place.column < ·)).token?)

end Scan

/-- A text holds tabs, line ends and no other control character. -/
def isTextChar (c : Char) : Bool :=
  c == '\t' || c == '\n' || c == '\r' || (' ' ≤ c && c ≤ '~') || c.toNat == 0x85
    || (0xA0 ≤ c.toNat && c.toNat != 0xFFFE && c.toNat != 0xFFFF)

/-- The tokens of a text. -/
def tokens? (text : String) : Option (List Token) := do
  let cs := text.toList
  guard (cs.all isTextChar)
  Scan.run? (cs.length + 1) { rest := cs }

end Yaml

end HiveQuery
