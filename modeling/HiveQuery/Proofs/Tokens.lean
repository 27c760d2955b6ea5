import HiveQuery.Compiler
import HiveQuery.QueryText
import Mathlib
/-!
# The tokens of a query text

How the characters of a query text make up words, names, numbers, strings and marks. A reader goes
through the characters once and remembers the token that it is in (`Pending`); a character either
goes on with that token or ends it and begins the next one. Names stand bare or between backticks,
and a label, a point and a name are one token, so a column is told from a word of the language by
its point.

`Spells cs ts` says that the characters `cs` are the tokens `ts` wherever a blank, a parenthesis or
a comma follows them. The texts of a query are put together from such pieces, and the last part
shows it of names, strings, digits and operators.
-/

namespace HiveQuery

inductive Token where
  /-- A word of the language, such as `AND`, or a bare name. -/
  | word (text : String)
  /-- A name between backticks. -/
  | name (text : String)
  | column (label name : String)
  | number (numeral : String)
  | string (value : String)
  | mark (sign : String)
  | opening
  | closing
  /-- A string or a quoted name that does not end. -/
  | unclosed
  deriving DecidableEq

/-- A letter, a digit or an underscore. -/
def Token.isWordChar (c : Char) : Bool :=
  c.isAlphanum || c == '_'

/-- The character that a backslash and the given one stand for. -/
def Token.unescape (c : Char) : Char :=
  if c == 'n' then '\n'
  else if c == 'r' then '\r'
  else if c == 't' then '\t'
  else if c == '0' then '\x00'
  else c

/-- What has been read of the token that a reader is in. -/
inductive Pending where
  | gap
  /-- A bare name, of the given label if there is one. -/
  | word (label : Option String) (chars : List Char)
  | quoted (label : Option String) (chars : List Char)
  /-- A quoted name after a backtick, which ends it unless another one follows. -/
  | quotedEnd (label : Option String) (chars : List Char)
  /-- A label and its point. -/
  | dotted (label : String)
  | number (chars : List Char)
  | string (chars : List Char)
  /-- A string after a backslash. -/
  | escape (chars : List Char)
  | stringEnd (chars : List Char)
  | sign (c : Char)
  | signs (c c' : Char)
  | comment
  deriving DecidableEq

namespace Pending

/-- The token with one more character, if the character belongs to it. -/
def take? : Pending → Char → Option Pending
  | gap, _ => none
  | word label chars, c =>
    if Token.isWordChar c then some (word label (chars ++ [c]))
    else if c == '.' && label.isNone then some (dotted (String.ofList chars))
    else none
  | quoted label chars, c =>
    some (if c == '\x60' then quotedEnd label chars else quoted label (chars ++ [c]))
  | quotedEnd label chars, c =>
    if c == '\x60' then some (quoted label (chars ++ [c]))
    else if c == '.' && label.isNone then some (dotted (String.ofList chars))
    else none
  | dotted label, c =>
    if c == '\x60' then some (quoted label [])
    else if Token.isWordChar c then some (word label [c])
    else none
  | number chars, c =>
    if Token.isWordChar c || c == '.' || (c == '-' && chars.getLast? == some 'e') then
      some (number (chars ++ [c]))
    else none
  | string chars, c =>
    some (if c == '\\' then escape chars
      else if c == '\'' then stringEnd chars
      else string (chars ++ [c]))
  | escape chars, c => some (string (chars ++ [Token.unescape c]))
  | stringEnd _, _ => none
  | sign c, c' =>
    if c == '-' && c' == '-' then some comment
    else if (c == '<' && (c' == '=' || c' == '>')) || (c == '>' && c' == '=') then some (signs c c')
    else none
  | signs _ _, _ => none
  | comment, c => some (if c == '\n' then gap else comment)

/-- The token if nothing more belongs to it. -/
def tokens : Pending → List Token
  | gap | comment => []
  | word none chars => [.word (String.ofList chars)]
  | quotedEnd none chars => [.name (String.ofList chars)]
  | word (some label) chars | quotedEnd (some label) chars => [.column label (String.ofList chars)]
  | quoted .. | string _ | escape _ => [.unclosed]
  | dotted label => [.name label, .mark "."]
  | number chars => [.number (String.ofList chars)]
  | stringEnd chars => [.string (String.ofList chars)]
  | sign c => [.mark (String.ofList [c])]
  | signs c c' => [.mark (String.ofList [c, c'])]

/-- What a character begins: a token that may go on, or one that is complete with it. -/
def start (c : Char) : List Token × Pending :=
  if c.isWhitespace then ([], gap)
  else if c == '(' then ([.opening], gap)
  else if c == ')' then ([.closing], gap)
  else if c.isDigit then ([], number [c])
  else if Token.isWordChar c then ([], word none [c])
  else if c == '\x60' then ([], quoted none [])
  else if c == '\'' then ([], string [])
  else if c == '<' || c == '>' || c == '-' then ([], sign c)
  else ([.mark (String.ofList [c])], gap)

/-- The tokens that characters complete, and what is pending after them. -/
def scan : Pending → List Char → List Token × Pending
  | m, [] => ([], m)
  | m, c :: cs =>
    match m.take? c with
    | some m' => m'.scan cs
    | none => (m.tokens ++ (start c).1 ++ ((start c).2.scan cs).1, ((start c).2.scan cs).2)

/-- Whether a blank, a parenthesis or a comma ends the token. -/
def ends : Pending → Bool
  | quoted .. | string _ | escape _ | comment => false
  | _ => true

end Pending

/-- The tokens of a text. -/
def Token.ofText (text : String) : List Token :=
  (Pending.gap.scan text.toList).1 ++ (Pending.gap.scan text.toList).2.tokens

/-- The characters that belong to no token that another one begins, and end every token. -/
def Token.isBreak (c : Char) : Bool :=
  c == ' ' || c == '\n' || c == '(' || c == ')' || c == ','

namespace Pending

/-- A blank, a parenthesis or a comma belongs to no token that may end. -/
theorem take?_of_isBreak {m : Pending} (h : m.ends) {c : Char} (hc : Token.isBreak c) :
    m.take? c = none := by
  simp only [Token.isBreak, Bool.or_eq_true, beq_iff_eq] at hc
  have word : Token.isWordChar c = false := by
    rcases hc with (((rfl | rfl) | rfl) | rfl) | rfl <;> decide
  have point : (c == '.') = false := by
    rcases hc with (((rfl | rfl) | rfl) | rfl) | rfl <;> decide
  have backtick : (c == '\x60') = false := by
    rcases hc with (((rfl | rfl) | rfl) | rfl) | rfl <;> decide
  have minus : (c == '-') = false := by
    rcases hc with (((rfl | rfl) | rfl) | rfl) | rfl <;> decide
  have angle : (c == '=') = false ∧ (c == '>') = false := by
    rcases hc with (((rfl | rfl) | rfl) | rfl) | rfl <;> decide
  cases m with
  | quoted | string | escape | comment => cases h
  | _ => simp [take?, word, point, backtick, minus, angle]

theorem scan_append (m : Pending) (cs cs' : List Char) :
    m.scan (cs ++ cs') =
      ((m.scan cs).1 ++ ((m.scan cs).2.scan cs').1, ((m.scan cs).2.scan cs').2) := by
  induction cs generalizing m with
  | nil => rfl
  | cons c cs ih =>
    rw [List.cons_append, scan, scan]
    split
    · exact ih _
    · simp [ih]

end Pending

/-! ## Pieces of a text -/

/-- A reader in `m` completes the tokens with the characters and is then in `m'`. -/
def Pending.Passes (m : Pending) (cs : List Char) (ts : List Token) (m' : Pending) : Prop :=
  m.scan cs = (ts, m')

instance (m : Pending) (cs : List Char) (ts : List Token) (m' : Pending) :
    Decidable (m.Passes cs ts m') :=
  inferInstanceAs (Decidable (_ = _))

namespace Pending.Passes

variable {m m' m'' : Pending} {cs cs' : List Char} {ts ts' : List Token}

theorem nil (m : Pending) : m.Passes [] [] m := rfl

/-- Passes can be put together, and so can the tokens that they complete. -/
theorem append (h : m.Passes cs ts m') (h' : m'.Passes cs' ts' m'') :
    m.Passes (cs ++ cs') (ts ++ ts') m'' := by
  unfold Passes at h h' ⊢
  rw [scan_append, h, h']

/-- A character that belongs to the pending token completes none. -/
theorem single {c : Char} (h : m.take? c = some m') : m.Passes [c] [] m' := by
  simp [Passes, scan, h]

theorem cons {c : Char} (h : m.take? c = some m') (h' : m'.Passes cs ts m'') :
    m.Passes (c :: cs) ts m'' :=
  (single h).append h'

/-- In a gap a character begins something. -/
theorem begin (c : Char) : gap.Passes [c] (start c).1 (start c).2 := by
  simp [Passes, scan, take?, tokens]

/-- A text is read after the end of a token as it is read alone. -/
theorem after {c : Char} (h : gap.Passes (c :: cs) ts m') (hm : m.take? c = none) :
    m.Passes (c :: cs) (m.tokens ++ ts) m' := by
  have alone : gap.take? c = none := rfl
  simp only [Passes, scan, hm, alone, Prod.mk.injEq] at h ⊢
  refine ⟨?_, h.2⟩
  rw [← h.1, List.append_assoc]
  rfl

end Pending.Passes

/-- The characters are the tokens wherever a break follows them. -/
def Spells (cs : List Char) (ts : List Token) : Prop :=
  ∃ us m, Pending.gap.Passes cs us m ∧ m.ends ∧ ts = us ++ m.tokens

namespace Spells

variable {cs cs' : List Char} {ts ts' : List Token}

theorem nil : Spells [] [] :=
  ⟨[], .gap, .nil _, rfl, rfl⟩

/-- What is spelled is what the text reads as. -/
theorem ofText_eq {text : String} (h : Spells text.toList ts) : Token.ofText text = ts := by
  obtain ⟨us, m, hpass, -, rfl⟩ := h
  rw [Token.ofText, hpass]

/-- A text that is known is read by computing. -/
theorem of_scan (h : (Pending.gap.scan cs).2.ends = true ∧
    (Pending.gap.scan cs).1 ++ (Pending.gap.scan cs).2.tokens = ts) : Spells cs ts :=
  ⟨_, _, rfl, h.1, h.2.symm⟩

/-- Before a break, what is spelled is spelled, whatever follows. -/
theorem append {c : Char} (h : Spells cs ts) (hc : Token.isBreak c) (h' : Spells (c :: cs') ts') :
    Spells (cs ++ c :: cs') (ts ++ ts') := by
  obtain ⟨us, m, hpass, hends, rfl⟩ := h
  obtain ⟨us', m', hpass', hends', rfl⟩ := h'
  refine ⟨us ++ (m.tokens ++ us'), m', hpass.append ?_, hends', by simp⟩
  exact hpass'.after (Pending.take?_of_isBreak hends hc)

/-- A character that is no part of a longer token. -/
theorem cons {c : Char} (hc : (Pending.start c).2 = .gap) (h : Spells cs ts) :
    Spells (c :: cs) ((Pending.start c).1 ++ ts) := by
  obtain ⟨us, m, hpass, hends, rfl⟩ := h
  refine ⟨(Pending.start c).1 ++ us, m, ?_, hends, by simp⟩
  have first := Pending.Passes.begin c
  rw [hc] at first
  exact first.append hpass

/-- Blanks and line ends before a text are no tokens. -/
theorem space (h : Spells cs ts) : Spells (' ' :: cs) ts :=
  h.cons (c := ' ') (by decide)

theorem newline (h : Spells cs ts) : Spells ('\n' :: cs) ts :=
  h.cons (c := '\n') (by decide)

/-- A parenthesis is a token of its own. -/
theorem opening (h : Spells cs ts) : Spells ('(' :: cs) (.opening :: ts) :=
  h.cons (c := '(') (by decide)

theorem closing (h : Spells cs ts) : Spells (')' :: cs) (.closing :: ts) :=
  h.cons (c := ')') (by decide)

/-- Two pieces with a blank between them spell one after the other. -/
theorem spaced (h : Spells cs ts) (h' : Spells cs' ts') : Spells (cs ++ ' ' :: cs') (ts ++ ts') :=
  h.append rfl h'.space

/-- A piece in parentheses spells its tokens between two more. -/
theorem parens (h : Spells cs ts) :
    Spells ('(' :: (cs ++ [')'])) (.opening :: (ts ++ [.closing])) :=
  (h.append rfl nil.closing).opening

/-- A minus sign is a token of its own unless another one follows it. -/
theorem minus (h : Spells cs ts) (hne : cs ≠ []) (head : cs.head? ≠ some '-') :
    Spells ('-' :: cs) (.mark "-" :: ts) := by
  obtain ⟨us, m, hpass, hends, rfl⟩ := h
  obtain ⟨c, cs, rfl⟩ := List.exists_cons_of_ne_nil hne
  have apart : (Pending.sign '-').take? c = none := by
    have hc : (c == '-') = false := by simpa using head
    simp [Pending.take?, hc]
  exact ⟨.mark "-" :: us, m, (Pending.Passes.begin '-').append (hpass.after apart), hends, rfl⟩

end Spells

/-! ## Names -/

namespace Pending.Passes

/-- Characters that all go on with the token that a reader is in. -/
theorem of_take? {f : List Char → Pending} {chars : List Char}
    (h : ∀ c ∈ chars, ∀ before, (f before).take? c = some (f (before ++ [c])))
    (before : List Char) : (f before).Passes chars [] (f (before ++ chars)) := by
  induction chars generalizing before with
  | nil =>
    rw [List.append_nil]
    exact nil _
  | cons c chars ih =>
    have rest := ih (fun c hc => h c (List.mem_cons_of_mem _ hc)) (before ++ [c])
    rw [List.append_assoc, List.singleton_append] at rest
    exact .cons (h c List.mem_cons_self before) rest

/-- The characters of a bare name. -/
theorem word {chars : List Char} (h : ∀ c ∈ chars, Token.isWordChar c) (label : Option String) :
    ∀ before, (Pending.word label before).Passes chars [] (.word label (before ++ chars)) :=
  of_take? fun c hc _ => by simp [take?, h c hc]

/-- The characters of a numeral. -/
theorem number {chars : List Char} (h : ∀ c ∈ chars, Token.isWordChar c || c == '.') :
    ∀ before, (Pending.number before).Passes chars [] (.number (before ++ chars)) :=
  of_take? fun c hc _ => by simp [take?, h c hc]

/-- The characters of a quoted name, which ends at the backtick that follows them. -/
theorem quoted (chars : List Char) (label : Option String) (before : List Char) :
    (Pending.quoted label before).Passes (chars.flatMap Text.doubleBacktick ++ ['\x60']) []
      (.quotedEnd label (before ++ chars)) := by
  induction chars generalizing before with
  | nil =>
    rw [List.append_nil]
    exact single rfl
  | cons c chars ih =>
    have rest := ih (before ++ [c])
    rw [List.append_assoc, List.singleton_append] at rest
    rw [List.flatMap_cons, List.append_assoc]
    by_cases hc : c = '\x60'
    · -- A backtick inside stands twice: the first one seems to end the name, the second goes on.
      subst hc
      have first : (Pending.quoted label before).take? '\x60' =
          some (.quotedEnd label before) := rfl
      exact .cons first (.cons rfl rest)
    · have step : (Pending.quoted label before).take? c = some (.quoted label (before ++ [c])) := by
        simp [take?, hc]
      have bare : Text.doubleBacktick c = [c] := by simp [Text.doubleBacktick, hc]
      rw [bare]
      exact .cons step rest

end Pending.Passes

/-- A digit begins a number and a letter begins a word. -/
theorem Pending.start_of_isAlphanum {c : Char} (h : c.isAlphanum) :
    start c = ([], if c.isDigit then .number [c] else .word none [c]) := by
  have blank : c.isWhitespace = false := by
    rw [Bool.eq_false_iff]
    intro hc
    simp only [Char.isWhitespace, Bool.or_eq_true, decide_eq_true_eq] at hc
    rcases hc with ((rfl | rfl) | rfl) | rfl <;> exact absurd h (by decide)
  have opening : c ≠ '(' := by
    rintro rfl
    exact absurd h (by decide)
  have closing : c ≠ ')' := by
    rintro rfl
    exact absurd h (by decide)
  simp only [start, blank, beq_iff_eq, opening, closing, Token.isWordChar, h, Bool.true_or,
    Bool.false_eq_true, if_false, if_true]
  split <;> rfl

/-- A name that is told from the text around it: the dialect quotes it, or it is plain. -/
def Dialect.Marks (d : Dialect) (name : String) : Prop :=
  d.quotesIdentifiers ∨ CompilerSettings.isPlainIdentifier name

instance (d : Dialect) (name : String) : Decidable (d.Marks name) :=
  inferInstanceAs (Decidable (_ ∨ _))

namespace Dialect.Marks

variable {d : Dialect} {label name : String}

/-- A plain name begins with a letter or an underscore, and goes on with such and digits. -/
theorem exists_cons_of_plain (h : CompilerSettings.isPlainIdentifier name) :
    ∃ c cs, name.toList = c :: cs ∧ Pending.start c = ([], .word none [c]) ∧
      ∀ c' ∈ c :: cs, Token.isWordChar c' := by
  simp only [CompilerSettings.isPlainIdentifier, Bool.and_eq_true, List.all_eq_true,
    Option.any_eq_true] at h
  obtain ⟨⟨c, hhead, hc⟩, hall⟩ := h
  obtain ⟨cs, hcs⟩ := List.head?_eq_some_iff.1 hhead
  rw [hcs] at hall
  refine ⟨c, cs, hcs, ?_, hall⟩
  rcases Bool.or_eq_true_iff.1 hc with hc | hc
  · have digit : ¬ c.isDigit := by
      intro hdigit
      simp only [Char.isAlpha, Char.isUpper, Char.isLower, Char.isDigit, Bool.or_eq_true,
        Bool.and_eq_true, decide_eq_true_eq] at hc hdigit
      grind
    rw [Pending.start_of_isAlphanum (by simp [Char.isAlphanum, hc]), if_neg digit]
  · obtain rfl := beq_iff_eq.1 hc
    rfl

/-- A marked name is one token, which a point makes a label. -/
theorem exists_passes (h : d.Marks name) :
    ∃ m, Pending.gap.Passes (d.quote name).toList [] m ∧ m.ends ∧
      m.take? '.' = some (.dotted name) ∧ ∃ t, m.tokens = [t] ∧ t ≠ .opening ∧ t ≠ .closing := by
  unfold Dialect.quote
  by_cases quotes : d.quotesIdentifiers
  · rw [if_pos quotes, Text.quoteIdentifier, String.toList_ofList]
    have quoted := (Pending.Passes.begin '\x60').append (.quoted name.toList none [])
    exact ⟨_, quoted, rfl, by simp [Pending.take?], _, rfl, by simp, by simp⟩
  · rw [if_neg quotes]
    obtain ⟨c, cs, hcs, hstart, hall⟩ := exists_cons_of_plain (h.resolve_left quotes)
    have first := Pending.Passes.begin c
    rw [hstart] at first
    refine ⟨.word none name.toList, ?_, rfl, by simp [Pending.take?, Token.isWordChar], _, rfl,
      by simp, by simp⟩
    rw [hcs]
    exact first.append (.word (fun c' hc' => hall c' (List.mem_cons_of_mem _ hc')) none [c])

/-- After a label and a point, a marked name completes the token of the column. -/
theorem exists_passes_dotted (h : d.Marks name) (label : String) :
    ∃ m, (Pending.dotted label).Passes (d.quote name).toList [] m ∧ m.ends ∧
      m.tokens = [.column label name] := by
  unfold Dialect.quote
  by_cases quotes : d.quotesIdentifiers
  · rw [if_pos quotes, Text.quoteIdentifier, String.toList_ofList]
    refine ⟨.quotedEnd (some label) name.toList, ?_, rfl, by simp [Pending.tokens]⟩
    have first : (Pending.dotted label).take? '\x60' = some (.quoted (some label) []) := rfl
    exact .cons first (.quoted _ _ [])
  · rw [if_neg quotes]
    obtain ⟨c, cs, hcs, -, hall⟩ := exists_cons_of_plain (h.resolve_left quotes)
    refine ⟨.word (some label) name.toList, ?_, rfl, by simp [Pending.tokens]⟩
    have hc := hall c List.mem_cons_self
    have first : (Pending.dotted label).take? c = some (.word (some label) [c]) := by
      have : c ≠ '\x60' := by
        rintro rfl
        exact absurd hc (by decide)
      simp [Pending.take?, this, hc]
    rw [hcs]
    exact .cons first (.word (fun c' hc' => hall c' (List.mem_cons_of_mem _ hc')) _ [c])

/-- The text of a column is one token. -/
theorem spells_column (hl : d.Marks label) (hn : d.Marks name) :
    Spells (d.quote label ++ "." ++ d.quote name).toList [.column label name] := by
  obtain ⟨m, hm, -, hpoint, -⟩ := hl.exists_passes
  obtain ⟨m', hm', hends, htokens⟩ := hn.exists_passes_dotted label
  refine ⟨[], m', ?_, hends, by rw [htokens]; rfl⟩
  rw [String.toList_append, String.toList_append]
  exact (hm.append (.single hpoint)).append hm'

end Dialect.Marks

/-! ## Strings, digits and operators -/

/-- A character of a string stands for itself or is a backslash and the letter of an escape. -/
theorem Text.escapeChar_eq (c : Char) :
    (Text.escapeChar c = [c] ∧ c ≠ '\\' ∧ c ≠ '\'') ∨
      ∃ c', Text.escapeChar c = ['\\', c'] ∧ Token.unescape c' = c := by
  unfold Text.escapeChar
  repeat' split
  case isFalse h₁ h₂ _ _ _ _ =>
    exact .inl ⟨rfl, by simpa using h₁, by simpa using h₂⟩
  all_goals
    rename_i h
    obtain rfl := beq_iff_eq.1 h
    exact .inr ⟨_, rfl, rfl⟩

/-- The characters of a string, which ends at the quote that follows them. -/
theorem Pending.Passes.string (chars before : List Char) :
    (Pending.string before).Passes (chars.flatMap Text.escapeChar ++ ['\'']) []
      (.stringEnd (before ++ chars)) := by
  induction chars generalizing before with
  | nil =>
    rw [List.append_nil]
    exact single rfl
  | cons c chars ih =>
    have rest := ih (before ++ [c])
    rw [List.append_assoc, List.singleton_append] at rest
    rw [List.flatMap_cons, List.append_assoc]
    rcases Text.escapeChar_eq c with ⟨bare, backslash, quote⟩ | ⟨c', escaped, hc⟩
    · have step : (Pending.string before).take? c = some (.string (before ++ [c])) := by
        simp [take?, backslash, quote]
      rw [bare]
      exact .cons step rest
    · have first : (Pending.string before).take? '\\' = some (.escape before) := rfl
      have second : (Pending.escape before).take? c' = some (.string (before ++ [c])) := by
        rw [take?, hc]
      rw [escaped]
      exact .cons first (.cons second rest)

/-- **A string is spelled by its quoted text**, whatever its characters are. -/
theorem spells_quoteString (text : String) :
    Spells (Text.quoteString text).toList [.string text] := by
  refine ⟨[], .stringEnd text.toList, ?_, rfl, by simp [Pending.tokens]⟩
  rw [Text.quoteString, String.toList_ofList]
  exact (Pending.Passes.begin '\'').append (.string _ [])

/-- The digits of a number are one token. -/
theorem spells_repr (n : Nat) : Spells n.repr.toList [.number n.repr] := by
  have digits : ∀ c ∈ n.repr.toList, c.isDigit := by
    intro c hc
    rw [Nat.toList_repr] at hc
    exact Nat.isDigit_of_mem_toDigits (by decide) (by decide) hc
  refine ⟨[], .number n.repr.toList, ?_, rfl, by rw [Pending.tokens, String.ofList_toList]; rfl⟩
  cases hn : n.repr.toList with
  | nil => exact absurd hn (by simp)
  | cons c cs =>
    rw [hn] at digits
    have first := Pending.Passes.begin c
    have hc := digits c List.mem_cons_self
    rw [Pending.start_of_isAlphanum (by simp [Char.isAlphanum, hc]), if_pos hc] at first
    refine first.append (.number (fun c' hc' => ?_) [c])
    simp [Token.isWordChar, Char.isAlphanum, digits c' (List.mem_cons_of_mem _ hc')]

/-- The token of an operator. -/
def BinaryOp.token : BinaryOp → Token
  | and => .word "AND"
  | or => .word "OR"
  | like => .word "LIKE"
  | op => .mark op.symbol

/-- The symbol of an operator is its token. -/
theorem BinaryOp.spells_symbol (op : BinaryOp) : Spells op.symbol.toList [op.token] := by
  cases op <;> exact .of_scan (by decide)

end HiveQuery
