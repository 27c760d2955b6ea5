import HiveQuery.Proofs.Tokens
/-!
# Quoted texts end where they should

A string literal and a quoted name are read from behind their opening quote, without knowing how
long they are or what follows them. Whatever the string holds, the reader stops at the quote that
was written to close it and has read the string by then; so no data reaches the text around it. For
names this asks that the text that follows does not go on with a backtick, which would make a pair
of the closing one.
-/

namespace HiveQuery

namespace Text

/-- A string literal, read up to the first quote that no backslash escapes: its value and what is
left of the text. A backslash and the character behind it are one escape. -/
def readString : List Char → Option (List Char × List Char)
  | [] => none
  | '\'' :: rest => some ([], rest)
  | '\\' :: [] => none
  | '\\' :: c :: rest => (readString rest).map (Prod.map (Token.unescape c :: ·) id)
  | c :: rest => (readString rest).map (Prod.map (c :: ·) id)

/-- A quoted name, read up to the first backtick that is not one of a pair: its characters and what
is left of the text. A pair of backticks is one character. -/
def readIdentifier : List Char → Option (List Char × List Char)
  | [] => none
  | '\x60' :: '\x60' :: rest => (readIdentifier rest).map (Prod.map ('\x60' :: ·) id)
  | '\x60' :: rest => some ([], rest)
  | c :: rest => (readIdentifier rest).map (Prod.map (c :: ·) id)

/-- A character that is neither a quote nor a backslash stands for itself. -/
theorem readString_cons {c : Char} (quote : c ≠ '\'') (backslash : c ≠ '\\') (rest : List Char) :
    readString (c :: rest) = (readString rest).map (Prod.map (c :: ·) id) := by
  rw [readString]
  · exact quote
  · exact fun h _ => backslash h
  · exact fun _ _ h _ => backslash h

/-- A character of a string is read from what stands for it. -/
theorem readString_escapeChar (c : Char) (rest : List Char) :
    readString (escapeChar c ++ rest) = (readString rest).map (Prod.map (c :: ·) id) := by
  rcases escapeChar_eq c with ⟨bare, backslash, quote⟩ | ⟨c', escaped, rfl⟩
  · rw [bare, List.singleton_append, readString_cons quote backslash]
  · rw [escaped, List.cons_append, List.singleton_append, readString]

/-- **A quoted string is read back**, up to the quote that ends it. -/
theorem readString_flatMap_escapeChar (chars rest : List Char) :
    readString (chars.flatMap escapeChar ++ '\'' :: rest) = some (chars, rest) := by
  induction chars with
  | nil => rfl
  | cons c chars ih =>
    rw [List.flatMap_cons, List.append_assoc, readString_escapeChar, ih]
    rfl

/-- A character that is no backtick stands for itself. -/
theorem readIdentifier_cons {c : Char} (backtick : c ≠ '\x60') (rest : List Char) :
    readIdentifier (c :: rest) = (readIdentifier rest).map (Prod.map (c :: ·) id) := by
  rw [readIdentifier]
  · exact fun _ h _ => backtick h
  · exact backtick

/-- A character that may be doubled is read once. -/
theorem readIdentifier_doubleBacktick (c : Char) (rest : List Char) :
    readIdentifier (doubleBacktick c ++ rest) =
      (readIdentifier rest).map (Prod.map (c :: ·) id) := by
  unfold doubleBacktick
  split
  · next h =>
    obtain rfl := beq_iff_eq.1 h
    rw [List.cons_append, List.singleton_append, readIdentifier]
  · next h => exact readIdentifier_cons (fun same => h (beq_iff_eq.2 same)) rest

/-- The closing backtick ends a name unless another one follows. -/
theorem readIdentifier_backtick {rest : List Char} (h : rest.head? ≠ some '\x60') :
    readIdentifier ('\x60' :: rest) = some ([], rest) := by
  rw [readIdentifier]
  rintro rest' rfl
  exact h rfl

/-- **A quoted name is read back**, up to a backtick that is followed by no other. -/
theorem readIdentifier_flatMap_doubleBacktick {rest : List Char}
    (h : rest.head? ≠ some '\x60') (chars : List Char) :
    readIdentifier (chars.flatMap doubleBacktick ++ '\x60' :: rest) = some (chars, rest) := by
  induction chars with
  | nil => exact readIdentifier_backtick h
  | cons c chars ih =>
    rw [List.flatMap_cons, List.append_assoc, readIdentifier_doubleBacktick, ih]
    rfl

/-- **Quoted texts are read back from any text that follows them**: a string literal yields the
string and leaves what follows, and so does a quoted name unless a backtick follows. -/
theorem quoted_readBack :
    (∀ value following : String, ∃ rest,
      (quoteString value ++ following).toList = '\'' :: rest ∧
        readString rest = some (value.toList, following.toList)) ∧
    ∀ (d : Dialect) (name following : String), d.quotesIdentifiers →
      following.toList.head? ≠ some '\x60' → ∃ rest,
        (d.quote name ++ following).toList = '\x60' :: rest ∧
          readIdentifier rest = some (name.toList, following.toList) := by
  refine ⟨fun value following => ?_, fun d name following quotes apart => ?_⟩
  · refine ⟨value.toList.flatMap escapeChar ++ '\'' :: following.toList, ?_, ?_⟩
    · simp [quoteString]
    · exact readString_flatMap_escapeChar _ _
  · refine ⟨name.toList.flatMap doubleBacktick ++ '\x60' :: following.toList, ?_, ?_⟩
    · simp [Dialect.quote, quotes, quoteIdentifier]
    · exact readIdentifier_flatMap_doubleBacktick apart _

/-- A string that holds a quote behind a backslash, and a name that ends with a backtick. -/
theorem quoted_readBack_backslashed :
    (∃ rest, (quoteString "it\\'s" ++ "' OR '").toList = '\'' :: rest ∧
      readString rest = some ("it\\'s".toList, "' OR '".toList)) ∧
    ∃ rest, ({ Dialect.hive with quotesIdentifiers := true }.quote "odd\x60" ++ ".id").toList =
        '\x60' :: rest ∧
      readIdentifier rest = some ("odd\x60".toList, ".id".toList) :=
  ⟨quoted_readBack.1 _ _, quoted_readBack.2 _ _ _ rfl (by decide)⟩

end Text

end HiveQuery
