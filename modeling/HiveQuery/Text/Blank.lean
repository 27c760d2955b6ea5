/-!
# Blank characters

The characters with the Unicode property *White_Space*, and the trimming of a text by them. Lean's
own `Char.isWhitespace` knows the ASCII part only, and of that not the vertical tab and the form
feed.
-/

namespace HiveQuery

namespace Text

/-- The code points with the property White_Space, as inclusive ranges in increasing order. -/
def blankRanges : List (Nat × Nat) :=
  [(0x09, 0x0D), (0x20, 0x20), (0x85, 0x85), (0xA0, 0xA0), (0x1680, 0x1680), (0x2000, 0x200A),
    (0x2028, 0x2029), (0x202F, 0x202F), (0x205F, 0x205F), (0x3000, 0x3000)]

/-- A character with the property White_Space. -/
def isBlank (c : Char) : Bool :=
  blankRanges.any fun range => range.1 ≤ c.toNat && c.toNat ≤ range.2

/-- Without the blanks at its beginning. -/
def trimStart (cs : List Char) : List Char :=
  cs.dropWhile isBlank

/-- Without the blanks at its end. -/
def trimEnd (cs : List Char) : List Char :=
  (cs.reverse.dropWhile isBlank).reverse

/-- Without the blanks at both ends. -/
def trim (text : String) : String :=
  String.ofList (trimEnd (trimStart text.toList))

/-- A text that holds blanks only. -/
def isBlankText (text : String) : Bool :=
  text.toList.all isBlank

/-- The blanks of the core library are blanks here too. -/
theorem isBlank_of_isWhitespace {c : Char} (h : c.isWhitespace = true) : isBlank c = true := by
  simp only [Char.isWhitespace, Bool.or_eq_true, decide_eq_true_eq] at h
  rcases h with ((h | h) | h) | h <;> subst h <;> decide

end Text

end HiveQuery
