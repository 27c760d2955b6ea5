import HiveQuery.Proofs.Numerals
import HiveQuery.Proofs.Rendering
/-!
# The parentheses of a query text

The text of a select opens and closes its parentheses in pairs, so whoever reads the text of an
expression and meets a subquery finds its end without knowing what it says
(`Select.closed_of_render`). The one thing that could break this is a name that stands bare and has
a parenthesis, a quote or a minus in it; a text is *legible* if no name does that.

A text is put together from literals and from pieces that were put together before. A literal such
as `"CAST("` goes from one gap between tokens to another and may change the depth (`Opens`); a piece
may end within a token, which the literal that follows must break off (`Joins`).
-/

namespace HiveQuery

open QueryText

/-! ## Pieces and literals -/

/-- The text is read from the gap between two tokens to `m`, and leads from one depth to another. -/
def Reaches (text : String) (m : Pending) (depth depth' : ℕ) : Prop :=
  ∃ ts, Pending.gap.Passes text.toList ts m ∧ Token.depth? depth ts = some depth'

/-- The text is read from a gap to a gap. -/
def Opens (text : String) (depth depth' : ℕ) : Prop :=
  Reaches text .gap depth depth'

/-- The text is read from a gap to the end of a token. -/
def Stands (text : String) (depth depth' : ℕ) : Prop :=
  ∃ m, m.ends ∧ Reaches text m depth depth'

/-- The text begins with a character that ends a token. -/
def Breaks (text : String) : Prop :=
  ∃ c ∈ text.toList.head?, Token.isBreak c

/-- The text is read from the end of a token to a gap. -/
def Joins (text : String) (depth depth' : ℕ) : Prop :=
  Breaks text ∧ Opens text depth depth'

/-- The text closes all that it opens. -/
def Closed (text : String) : Prop :=
  ∀ depth, Stands text depth depth

/-- The token that a text stops in is neither an opening nor a closing parenthesis. -/
theorem Pending.depth?_tokens (m : Pending) (depth : ℕ) :
    Token.depth? depth m.tokens = some depth := by
  cases m with
  | word label chars => cases label <;> rfl
  | quotedEnd label chars => cases label <;> rfl
  | _ => rfl

section

variable {a b : String} {m m' : Pending} {i j k : ℕ}

/-- A text that is read to a gap may be followed by any other. -/
theorem Reaches.append (h : Reaches a .gap i j) (h' : Reaches b m j k) :
    Reaches (a ++ b) m i k := by
  obtain ⟨ts, hpass, hdepth⟩ := h
  obtain ⟨ts', hpass', hdepth'⟩ := h'
  refine ⟨ts ++ ts', ?_, ?_⟩
  · rw [String.toList_append]
    exact hpass.append hpass'
  · rw [Token.depth?_append, hdepth, Option.bind_some, hdepth']

/-- A text that is read to the end of a token may be followed by one that breaks it off. -/
theorem Reaches.append_breaks (h : Reaches a m i j) (hm : m.ends) (hb : Breaks b)
    (h' : Reaches b m' j k) : Reaches (a ++ b) m' i k := by
  obtain ⟨ts, hpass, hdepth⟩ := h
  obtain ⟨ts', hpass', hdepth'⟩ := h'
  obtain ⟨c, hc, hbreak⟩ := hb
  obtain ⟨cs, hcs⟩ := List.head?_eq_some_iff.1 hc
  refine ⟨ts ++ (m.tokens ++ ts'), ?_, ?_⟩
  · rw [hcs] at hpass'
    rw [String.toList_append, hcs]
    exact hpass.append (hpass'.after (Pending.take?_of_isBreak hm hbreak))
  · rw [Token.depth?_append, hdepth, Option.bind_some, Token.depth?_append, m.depth?_tokens,
      Option.bind_some, hdepth']

/-- In a gap no token is left to be ended. -/
theorem Opens.stands (h : Opens a i j) : Stands a i j :=
  ⟨.gap, rfl, h⟩

theorem Opens.opens (h : Opens a i j) (h' : Opens b j k) : Opens (a ++ b) i k :=
  h.append h'

/-- After a gap, a text that stands on its own stands. -/
theorem Opens.piece (h : Opens a i j) (h' : Stands b j k) : Stands (a ++ b) i k :=
  h'.imp fun _ h' => ⟨h'.1, h.append h'.2⟩

/-- The pieces of a phrase and the texts that join them are read one after the other. -/
theorem Stands.join (h : Stands a i j) (h' : Joins b j k) : Opens (a ++ b) i k := by
  obtain ⟨m, hm, h⟩ := h
  exact h.append_breaks hm h'.1 h'.2

/-- Two pieces need nothing between them if the second one breaks off the token before it. -/
theorem Stands.piece (h : Stands a i j) (hb : Breaks b) (h' : Stands b j k) :
    Stands (a ++ b) i k := by
  obtain ⟨m, hm, h⟩ := h
  exact h'.imp fun _ h' => ⟨h'.1, h.append_breaks hm hb h'.2⟩

end

/-- What a closed text spells has its parentheses in pairs. -/
theorem Closed.exists_spells {text : String} (h : Closed text) :
    ∃ ts, Spells text.toList ts ∧ Token.depth? 0 ts = some 0 := by
  obtain ⟨m, hends, ts, hpass, hdepth⟩ := h 0
  refine ⟨ts ++ m.tokens, ⟨ts, m, hpass, hends, rfl⟩, ?_⟩
  rw [Token.depth?_append, hdepth, Option.bind_some, m.depth?_tokens]

/-- A text without parentheses is closed. -/
theorem Closed.of_spells {text : String} {ts : List Token} (h : Spells text.toList ts)
    (hts : ∀ t ∈ ts, t ≠ .opening ∧ t ≠ .closing) : Closed text := by
  obtain ⟨us, m, hpass, hends, rfl⟩ := h
  intro depth
  refine ⟨m, hends, us, hpass, ?_⟩
  rw [List.forall_mem_append] at hts
  have hus := hts.1
  clear hpass hts
  induction us with
  | nil => rfl
  | cons t us ih =>
    rw [List.forall_mem_cons] at hus
    rw [Token.depth?_cons, Token.nest_eq_some hus.1.1 hus.1.2, Option.bind_some, ih hus.2]

/-- The empty text opens nothing. -/
theorem Closed.empty : Closed "" := fun _ => ⟨.gap, rfl, [], rfl, rfl⟩

/-- Blanks are read from a gap to a gap. -/
theorem opens_blanks (count depth : ℕ) : Opens (blanks count) depth depth := by
  refine ⟨[], ?_, rfl⟩
  rw [blanks, String.toList_ofList]
  induction count with
  | zero => rfl
  | succ count ih => exact (Pending.Passes.begin ' ').append ih

/-- What stands between pieces, with the depths before and after it. Only parentheses change
them. -/
theorem joins_comma (depth : ℕ) : Joins ", " depth depth :=
  ⟨⟨',', rfl, rfl⟩, [.mark ","], by decide, rfl⟩

theorem joins_space (depth : ℕ) : Joins " " depth depth :=
  ⟨⟨' ', rfl, rfl⟩, [], by decide, rfl⟩

theorem joins_newline (depth : ℕ) : Joins "\n" depth depth :=
  ⟨⟨'\n', rfl, rfl⟩, [], by decide, rfl⟩

theorem joins_opening (depth : ℕ) : Joins "(" depth (depth + 1) :=
  ⟨⟨'(', rfl, rfl⟩, [.opening], by decide, rfl⟩

theorem joins_closing (depth : ℕ) : Joins ")" (depth + 1) depth :=
  ⟨⟨')', rfl, rfl⟩, [.closing], by decide, rfl⟩

/-- A parenthesis that is opened is closed. -/
theorem Closed.parens {text : String} (h : Closed text) : Closed ("(" ++ text ++ ")") := by
  intro depth
  exact (((joins_opening depth).2.piece (h (depth + 1))).join (joins_closing depth)).stands

/-- Pieces in a row. -/
theorem Closed.intercalate {separator : String} (hseparator : ∀ depth, Joins separator depth depth)
    {parts : List String} (h : ∀ part ∈ parts, Closed part) :
    Closed (separator.intercalate parts) := by
  induction parts with
  | nil =>
    rw [String.intercalate_nil]
    exact .empty
  | cons part parts ih =>
    rw [List.forall_mem_cons] at h
    cases parts with
    | nil =>
      rw [String.intercalate_singleton]
      exact h.1
    | cons part' parts =>
      rw [String.intercalate_cons_cons]
      exact fun depth => ((h.1 depth).join (hseparator depth)).piece (ih h.2 depth)

/-- A list of texts that close what they open does. -/
theorem Closed.listed {parts : List String} (h : ∀ part ∈ parts, Closed part) :
    Closed (listed parts) :=
  .intercalate joins_comma h

/-! ## Bare names and types -/

/-- A character that opens and closes nothing. -/
def Token.isQuiet (c : Char) : Bool :=
  c != '(' && c != ')' && c != '\'' && c != '\x60' && c != '-'

/-- The characters close all that they open, whatever token they go on with. -/
def Soft (cs : List Char) : Prop :=
  ∀ m : Pending, m.ends → ∃ ts m', m.Passes cs ts m' ∧ m'.ends ∧
    ∀ depth, Token.depth? depth ts = some depth

namespace Pending

variable {m m' : Pending} {c : Char}

/-- A quiet character goes on with a token that may end, and then it may still end. -/
theorem ends_of_take? (hm : m.ends) (hc : Token.isQuiet c) (h : m.take? c = some m') :
    m'.ends := by
  simp only [Token.isQuiet, Bool.and_eq_true, bne_iff_ne] at hc
  obtain ⟨⟨⟨⟨-, -⟩, -⟩, hbacktick⟩, hminus⟩ := hc
  cases m with
  | quoted | string | escape | comment => cases hm
  | gap | stringEnd | signs => cases h
  | word | number | sign | dotted | quotedEnd =>
    simp only [take?] at h
    grind [ends]

/-- A quiet character starts a token that may end, and no parenthesis before it. -/
theorem start_of_isQuiet (hc : Token.isQuiet c) :
    (start c).2.ends ∧ ∀ depth, Token.depth? depth (start c).1 = some depth := by
  simp only [Token.isQuiet, Bool.and_eq_true, bne_iff_ne] at hc
  obtain ⟨⟨⟨⟨hopening, hclosing⟩, hquote⟩, hbacktick⟩, -⟩ := hc
  unfold start
  simp only [beq_iff_eq, hopening, hclosing, hquote, hbacktick, if_false]
  split_ifs <;> exact ⟨rfl, fun _ => rfl⟩

end Pending

namespace Soft

variable {cs cs' : List Char}

theorem nil : Soft [] := fun m hm => ⟨[], m, rfl, hm, fun _ => rfl⟩

/-- Soft texts can be put together without regard to tokens. -/
theorem append (h : Soft cs) (h' : Soft cs') : Soft (cs ++ cs') := by
  intro m hm
  obtain ⟨ts, m', hpass, hends, hdepth⟩ := h m hm
  obtain ⟨ts', m'', hpass', hends', hdepth'⟩ := h' m' hends
  refine ⟨ts ++ ts', m'', hpass.append hpass', hends', fun depth => ?_⟩
  rw [Token.depth?_append, hdepth, Option.bind_some, hdepth']

/-- A quiet character alone is soft. -/
theorem single {c : Char} (hc : Token.isQuiet c) : Soft [c] := by
  intro m hm
  cases htake : m.take? c with
  | some m' =>
    exact ⟨[], m', .single htake, Pending.ends_of_take? hm hc htake, fun _ => rfl⟩
  | none =>
    obtain ⟨hends, hdepth⟩ := Pending.start_of_isQuiet hc
    refine ⟨_, _, (Pending.Passes.begin c).after htake, hends, fun depth => ?_⟩
    rw [Token.depth?_append, m.depth?_tokens, Option.bind_some, hdepth]

/-- Quiet characters are soft. -/
theorem of_isQuiet (h : ∀ c ∈ cs, Token.isQuiet c) : Soft cs := by
  induction cs with
  | nil => exact nil
  | cons c cs ih =>
    rw [List.forall_mem_cons] at h
    exact (single h.1).append (ih h.2)

theorem literal (text : String) (h : text.toList.all Token.isQuiet = true) : Soft text.toList :=
  of_isQuiet (List.all_eq_true.1 h)

/-- A soft text in parentheses is soft. -/
theorem parens (h : Soft cs) : Soft ('(' :: (cs ++ [')'])) := by
  intro m hm
  obtain ⟨ts, m', hpass, hends, hdepth⟩ := h .gap rfl
  have opened := (Pending.Passes.begin '(').after (Pending.take?_of_isBreak hm rfl)
  have closed := (Pending.Passes.begin ')').after (Pending.take?_of_isBreak hends rfl)
  refine ⟨_, _, opened.append (hpass.append closed), rfl, fun depth => ?_⟩
  have hopening : Token.depth? depth (Pending.start '(').1 = some (depth + 1) := rfl
  have hclosing : Token.depth? (depth + 1) (Pending.start ')').1 = some depth := rfl
  simp only [Token.depth?_append, m.depth?_tokens, m'.depth?_tokens, Option.bind_some, hopening,
    hdepth, hclosing]

/-- A soft text closes all that it opens. -/
theorem closed {text : String} (h : Soft text.toList) : Closed text := by
  obtain ⟨ts, m, hpass, hends, hdepth⟩ := h .gap rfl
  exact fun depth => ⟨m, hends, ts, hpass, hdepth depth⟩

end Soft

/-- A name that opens and closes nothing: the dialect quotes it, or its characters are quiet. -/
def Dialect.Hides (d : Dialect) (name : String) : Prop :=
  d.quotesIdentifiers ∨ name.toList.all Token.isQuiet

instance (d : Dialect) (name : String) : Decidable (d.Hides name) :=
  inferInstanceAs (Decidable (_ ∨ _))

/-- A name that is hidden closes all that it opens, be it written as it is or in quotes. -/
theorem Dialect.Hides.closed {d : Dialect} {name : String} (h : d.Hides name) :
    Closed (d.quote name) := by
  by_cases quotes : d.quotesIdentifiers
  · have marks : d.Marks name := .inl quotes
    obtain ⟨m, hpass, hends, -⟩ := marks.exists_passes
    exact fun depth => ⟨m, hends, [], hpass, rfl⟩
  · rw [Dialect.quote, if_neg quotes]
    exact (Soft.literal _ (h.resolve_left quotes)).closed

theorem isQuiet_of_isDigit {c : Char} (h : c.isDigit) : Token.isQuiet c := by
  simp only [Token.isQuiet, Bool.and_eq_true, bne_iff_ne]
  refine ⟨⟨⟨⟨?_, ?_⟩, ?_⟩, ?_⟩, ?_⟩ <;> rintro rfl <;> exact absurd h (by decide)

/-- Digits are quiet. -/
theorem soft_repr (n : ℕ) : Soft n.repr.toList := by
  refine .of_isQuiet fun c hc => isQuiet_of_isDigit ?_
  rw [Nat.toList_repr] at hc
  exact Nat.isDigit_of_mem_toDigits (by decide) (by decide) hc

namespace DataType

mutual

/-- The names of the fields of a type, those of its parts included. -/
def fieldNames : DataType → List String
  | array element => element.fieldNames
  | map key value => key.fieldNames ++ value.fieldNames
  | struct fields => fieldNamesList fields
  | _ => []

def fieldNamesList : List StructField → List String
  | [] => []
  | ⟨name, type⟩ :: fields => name :: (type.fieldNames ++ fieldNamesList fields)

end

/-- The parts of a type stand between commas. -/
theorem soft_intercalate {texts : List String} (h : ∀ text ∈ texts, Soft text.toList) :
    Soft (String.intercalate "," texts).toList := by
  induction texts with
  | nil => exact .literal _ (by decide)
  | cons text texts ih =>
    rw [List.forall_mem_cons] at h
    cases texts with
    | nil =>
      rw [String.intercalate_singleton]
      exact h.1
    | cons text' texts =>
      rw [String.intercalate_cons_cons, String.toList_append, String.toList_append]
      exact (h.1.append (.literal _ (by decide))).append (ih h.2)

mutual

/-- The text of a type closes what it opens. -/
theorem soft_text : ∀ type : DataType,
    (∀ name ∈ type.fieldNames, name.toList.all Token.isQuiet) → Soft type.text.toList
  | decimal precision scale, _ => by
    have parens := (((soft_repr precision.toNat).append (.literal "," (by decide))).append
      (soft_repr scale.toNat)).parens
    have whole := (Soft.literal "DECIMAL" (by decide)).append parens
    simpa [text] using whole
  | varchar length, _ => by
    have whole := (Soft.literal "VARCHAR" (by decide)).append (soft_repr length.toNat).parens
    simpa [text] using whole
  | char length, _ => by
    have whole := (Soft.literal "CHAR" (by decide)).append (soft_repr length.toNat).parens
    simpa [text] using whole
  | array element, h => by
    have opened := (Soft.literal "ARRAY<" (by decide)).append (soft_text element h)
    have whole := opened.append (.literal ">" (by decide))
    simpa [text] using whole
  | map key value, h => by
    rw [fieldNames, List.forall_mem_append] at h
    have opened := (Soft.literal "MAP<" (by decide)).append (soft_text key h.1)
    have both := (opened.append (.literal "," (by decide))).append (soft_text value h.2)
    have whole := both.append (.literal ">" (by decide))
    simpa [text] using whole
  | struct fields, h => by
    have listed := soft_intercalate (soft_textFields fields h)
    have whole := ((Soft.literal "STRUCT<" (by decide)).append listed).append
      (.literal ">" (by decide))
    simpa [text] using whole
  | boolean, _ | tinyInt, _ | smallInt, _ | int, _ | bigInt, _ | float, _ | double, _ | string, _
  | binary, _ | date, _ | timestamp, _ | unknown, _ => by
    rw [text]
    exact .literal _ (by decide)

/-- The fields of a struct are soft if their names are quiet. -/
theorem soft_textFields : ∀ fields : List StructField,
    (∀ name ∈ fieldNamesList fields, name.toList.all Token.isQuiet) →
      ∀ text ∈ textFields fields, Soft text.toList
  | [], _ => by simp [textFields]
  | ⟨name, type⟩ :: fields, h => by
    rw [fieldNamesList, List.forall_mem_cons, List.forall_mem_append] at h
    rw [textFields, List.forall_mem_cons, String.toList_append, String.toList_append]
    exact ⟨((Soft.literal _ h.1).append (.literal _ (by decide))).append (soft_text type h.2.1),
      soft_textFields fields h.2.2⟩

end

end DataType

/-! ## Legible trees -/

/-- Whether the names of a node can be told from the text around them. -/
def Node.Legible (d : Dialect) : Node → Prop
  | select s => d.Hides s.label ∧ ∀ c ∈ s.columns, d.Hides c.name
  | source (.table name label) => d.Hides name ∧ d.Hides label
  | expr (.column label name) => d.Marks label ∧ d.Marks name
  | expr (.call name _ _) => name.toList.all Token.isQuiet
  | expr (.cast _ type) => ∀ name ∈ type.fieldNames, name.toList.all Token.isQuiet
  | _ => True

instance (d : Dialect) (n : Node) : Decidable (n.Legible d) := by
  unfold Node.Legible
  split <;> infer_instance

def Expr.Legible (d : Dialect) (e : Expr) : Prop :=
  ∀ n ∈ e.nodes, n.Legible d

instance (d : Dialect) (e : Expr) : Decidable (e.Legible d) :=
  inferInstanceAs (Decidable (∀ n ∈ e.nodes, n.Legible d))

def Source.Legible (d : Dialect) (s : Source) : Prop :=
  ∀ n ∈ s.nodes, n.Legible d

def Select.Legible (d : Dialect) (s : Select) : Prop :=
  ∀ n ∈ s.nodes, n.Legible d

theorem Expr.Legible.own {d : Dialect} {e : Expr} (h : e.Legible d) : (Node.expr e).Legible d :=
  h _ (by rw [Expr.nodes_eq]; exact List.mem_cons_self)

/-- The parts of a legible expression are legible. -/
theorem Expr.Legible.part {d : Dialect} {e p : Expr} (h : e.Legible d) (hp : p ∈ e.parts) :
    p.Legible d := by
  intro n hn
  apply h
  rw [Expr.nodes_eq]
  exact List.mem_cons_of_mem _ (List.mem_append_left _ (List.mem_flatMap_of_mem hp hn))

theorem Select.Legible.own {d : Dialect} {s : Select} (h : s.Legible d) :
    (Node.select s).Legible d :=
  h _ (by rw [Select.nodes_eq]; exact List.mem_cons_self)

/-! ## Texts of trees -/

/-- An operand is closed with or without its parentheses. -/
theorem closed_operandText {e : Expr} {floor : ℕ} {text : String} (h : Closed text) :
    Closed (e.operandText floor text) := by
  unfold Expr.operandText
  split
  · exact h.parens
  · exact h

/-- A subquery in parentheses, on lines of its own. -/
theorem closed_enclosed {indent : ℕ} {query : String} (h : Closed query) :
    Closed (enclosed indent query) := by
  intro depth
  have opened : Opens "(\n" depth (depth + 1) := ⟨[.opening], by decide, rfl⟩
  have ended := (opened.piece (h (depth + 1))).join (joins_newline (depth + 1))
  exact ((ended.opens (opens_blanks indent (depth + 1))).opens (joins_closing depth).2).stands

/-- The operand of a minus sign is set apart, so that no comment begins there. -/
theorem UnaryOp.closed_apply {op : UnaryOp} {operand : String} (h : Closed operand) :
    Closed (op.apply operand) := by
  cases op with
  | not =>
    intro depth
    have word : Opens "NOT " depth depth := ⟨[.word "NOT"], by decide, rfl⟩
    exact word.piece (h depth)
  | neg =>
    intro depth
    simp only [UnaryOp.apply, beq_iff_eq]
    split_ifs with hhead
    · have opened : Opens "-(" depth (depth + 1) := ⟨[.mark "-", .opening], by decide, rfl⟩
      exact ((opened.piece (h (depth + 1))).join (joins_closing depth)).stands
    · -- The operand does not begin with a minus, so the minus before it is a token of its own.
      obtain ⟨m, hends, ts, hpass, hdepth⟩ := h depth
      have minus : Pending.gap.Passes "-".toList [] (.sign '-') := by decide
      cases hoperand : operand.toList with
      | nil =>
        refine ⟨.sign '-', rfl, [], ?_, rfl⟩
        rw [String.toList_append, hoperand, List.append_nil]
        exact minus
      | cons c cs =>
        rw [hoperand] at hpass hhead
        have apart : (Pending.sign '-').take? c = none := by
          have : c ≠ '-' := by simpa using hhead
          simp [Pending.take?, this]
        refine ⟨m, hends, .mark "-" :: ts, ?_, ?_⟩
        · rw [String.toList_append, hoperand]
          exact minus.append (hpass.after apart)
        · exact hdepth

/-! ## The pieces of a text -/

section

variable {d : Dialect} {indent : ℕ} {a b : String} {texts : List String}

/-- A piece that is left out or begins with a break. -/
theorem Closed.append (ha : Closed a) (hb : Closed b) (h : b = "" ∨ Breaks b) :
    Closed (a ++ b) := by
  rcases h with rfl | hbreaks
  · simpa using ha
  · exact fun depth => (ha depth).piece hbreaks (hb depth)

/-- A text of quiet characters opens nothing. -/
theorem Closed.quiet (text : String) (h : text.toList.all Token.isQuiet = true) : Closed text :=
  (Soft.literal text h).closed

theorem opens_distinct (distinct : Bool) (depth : ℕ) :
    Opens (if distinct then "DISTINCT " else "") depth depth := by
  cases distinct with
  | false => exact ⟨[], rfl, rfl⟩
  | true => exact ⟨[.word "DISTINCT"], by decide, rfl⟩

/-- Both operands close what they open, and blanks keep the operator apart from them. -/
theorem closed_binary (op : BinaryOp) (ha : Closed a) (hb : Closed b) :
    Closed (a ++ " " ++ op.symbol ++ " " ++ b) := by
  have symbol : Closed op.symbol :=
    .of_spells op.spells_symbol (by cases op <;> simp [BinaryOp.token])
  intro depth
  exact ((((ha depth).join (joins_space depth)).piece (symbol depth)).join
    (joins_space depth)).piece (hb depth)

/-- The words of a null test open nothing. -/
theorem closed_nullTest (ha : Closed a) (negated : Bool) :
    Closed (a ++ if negated then " IS NOT NULL" else " IS NULL") := by
  cases negated with
  | false => exact ha.append (.quiet " IS NULL" (by decide)) (.inr ⟨' ', rfl, rfl⟩)
  | true => exact ha.append (.quiet " IS NOT NULL" (by decide)) (.inr ⟨' ', rfl, rfl⟩)

/-- What is renamed, and its new name. -/
theorem closed_renamed (ha : Closed a) (hb : Closed b) : Closed (a ++ " AS " ++ b) := by
  intro depth
  have as : Joins " AS " depth depth := ⟨⟨' ', rfl, rfl⟩, [.word "AS"], by decide, rfl⟩
  exact ((ha depth).join as).piece (hb depth)

/-- The parentheses of a call close around its arguments. -/
theorem closed_call {name : String} (hname : Closed name) (ha : Closed a) (distinct : Bool) :
    Closed (name ++ "(" ++ (if distinct then "DISTINCT " else "") ++ a ++ ")") := by
  intro depth
  have opened := ((hname depth).join (joins_opening depth)).opens (opens_distinct distinct _)
  exact ((opened.piece (ha _)).join (joins_closing depth)).stands

/-- A branch also begins with a blank, so that it can follow any token. -/
theorem closed_branch (ha : Closed a) (hb : Closed b) :
    Closed (" WHEN " ++ a ++ " THEN " ++ b) ∧ Breaks (" WHEN " ++ a ++ " THEN " ++ b) := by
  refine ⟨fun depth => ?_, ' ', by simp, rfl⟩
  have when : Opens " WHEN " depth depth := ⟨[.word "WHEN"], by decide, rfl⟩
  have then' : Joins " THEN " depth depth :=
    ⟨⟨' ', rfl, rfl⟩, [.word "THEN"], by decide, rfl⟩
  exact ((when.piece (ha depth)).join then').piece (hb depth)

/-- The branches of a case expression, one after another. -/
theorem closed_join_of_breaks (h : ∀ text ∈ texts, Closed text ∧ Breaks text) :
    Closed (String.join texts) ∧ (String.join texts = "" ∨ Breaks (String.join texts)) := by
  induction texts with
  | nil => exact ⟨.empty, .inl rfl⟩
  | cons text texts ih =>
    rw [List.forall_mem_cons] at h
    obtain ⟨closed, c, hc, hbreak⟩ := h.1
    rw [String.join_cons]
    refine ⟨closed.append (ih h.2).1 (ih h.2).2, .inr ⟨c, ?_, hbreak⟩⟩
    rw [String.toList_append]
    exact List.mem_head?_append_of_mem_head? hc

/-- A keyword and a piece, or neither. -/
theorem closed_last (keyword : String) (hkeyword : ∀ depth, Opens keyword depth depth)
    (hbreaks : Breaks keyword) (ha : Closed a) :
    Closed (keyword ++ a) ∧ (keyword ++ a = "" ∨ Breaks (keyword ++ a)) := by
  obtain ⟨c, hc, hbreak⟩ := hbreaks
  refine ⟨fun depth => (hkeyword depth).piece (ha depth), .inr ⟨c, ?_, hbreak⟩⟩
  rw [String.toList_append]
  exact List.mem_head?_append_of_mem_head? hc

/-- A case is closed if its branches are, and its default if there is one. -/
theorem closed_case (h : ∀ text ∈ texts, Closed text ∧ Breaks text)
    (hb : Closed b ∧ (b = "" ∨ Breaks b)) :
    Closed ("CASE" ++ String.join texts ++ b ++ " END") := by
  obtain ⟨closed, breaks⟩ := closed_join_of_breaks h
  have branches := (Closed.quiet "CASE" (by decide)).append closed breaks
  exact (branches.append hb.1 hb.2).append (.quiet " END" (by decide)) (.inr ⟨' ', rfl, rfl⟩)

/-- The parentheses around the order of a row number are closed, be there terms or none. -/
theorem closed_rowNumber (h : ∀ text ∈ texts, Closed text) :
    Closed ("ROW_NUMBER() OVER ("
      ++ (if texts.isEmpty then "" else "ORDER BY " ++ listed texts) ++ ")") := by
  intro depth
  have opened : Opens "ROW_NUMBER() OVER (" depth (depth + 1) :=
    ⟨[.word "ROW_NUMBER", .opening, .closing, .word "OVER", .opening], by decide, rfl⟩
  refine ((opened.piece ?_).join (joins_closing depth)).stands
  split
  · exact Closed.empty _
  · have words : Opens "ORDER BY " (depth + 1) (depth + 1) :=
      ⟨[.word "ORDER", .word "BY"], by decide, rfl⟩
    exact words.piece (Closed.listed h _)

/-- The word for a descending term opens nothing. -/
theorem closed_direction (ha : Closed a) (direction : Direction) :
    Closed (if direction = .descending then a ++ " DESC" else a) := by
  split
  · exact ha.append (.quiet " DESC" (by decide)) (.inr ⟨' ', rfl, rfl⟩)
  · exact ha

/-- The two sides of a join, on two lines. -/
theorem closed_join (indent : ℕ) (kind : JoinKind) (ha : Closed a) (hb : Closed b) :
    Closed (a ++ "\n" ++ blanks indent ++ kind.keyword ++ " " ++ b) := by
  have keyword : Closed kind.keyword := by cases kind <;> exact .quiet _ (by decide)
  intro depth
  have line := ((ha depth).join (joins_newline depth)).opens (opens_blanks indent depth)
  exact ((line.piece (keyword depth)).join (joins_space depth)).piece (hb depth)

/-- The line of a clause, if there is one, closes what it opens. -/
theorem closed_clause {keyword : String} (hkeyword : Closed keyword) {parts : List String}
    (h : ∀ part ∈ parts, Closed part) : ∀ line ∈ clause indent keyword parts, Closed line := by
  intro line hline
  unfold clause at hline
  split at hline
  · cases hline
  · obtain rfl := List.mem_singleton.1 hline
    exact fun depth => (((opens_blanks indent depth).piece (hkeyword depth)).join
      (joins_space depth)).piece (Closed.listed h depth)

/-- A column with its name, unless that is left out. -/
theorem Column.closed_text {name : String} (hname : d.Hides name) (expr : Expr) (ha : Closed a) :
    Closed (Column.text d name expr a) := by
  have renamed := closed_renamed ha hname.closed
  unfold Column.text
  split
  · split
    · exact ha
    · exact renamed
  · exact renamed

end

/-! ## Expressions, sources and selects -/

section

variable {d : Dialect} {indent : ℕ} {text : String}

/-- **The text of a legible expression closes all that it opens**, if the texts of its subqueries
do. By induction on its parts. -/
theorem Expr.closed_of_render {e : Expr} (legible : e.Legible d)
    (below : ∀ q ∈ e.subqueries, ∀ indent place text, q.render d indent place = .ok text →
      Closed text)
    (h : e.render d indent = .ok text) : Closed text := by
  induction e using Expr.parts_induction generalizing text with
  | step e ih =>
    rw [Expr.subqueries_eq, List.forall_mem_append, List.forall_mem_flatMap] at below
    have part : ∀ p ∈ e.parts, ∀ text, p.render d indent = .ok text → Closed text :=
      fun p hp text => ih p hp (legible.part hp) (below.1 p hp)
    have query : ∀ q ∈ e.query?, ∀ indent place text, q.render d indent place = .ok text →
        Closed text := fun q hq => below.2 q (Option.mem_toList.2 hq)
    have own := legible.own
    clear ih legible below
    cases e with
    | column label name =>
      obtain rfl := Except.ok.inj h
      exact .of_spells (own.1.spells_column own.2) (by simp)
    | literal value =>
      obtain ⟨ts, hspells, -, hparens, -⟩ := Literal.exists_phrase h
      exact .of_spells hspells hparens
    | binary op left right =>
      obtain ⟨l, hl, h⟩ := exists_of_bind_eq_ok h
      obtain ⟨r, hr, h⟩ := exists_of_bind_eq_ok h
      obtain rfl := Except.ok.inj h
      exact closed_binary op (closed_operandText (part left (by simp [parts]) l hl))
        (closed_operandText (part right (by simp [parts]) r hr))
    | unary op operand =>
      obtain ⟨t, ht, h⟩ := exists_of_bind_eq_ok h
      obtain rfl := Except.ok.inj h
      exact UnaryOp.closed_apply (closed_operandText (part operand (by simp [parts]) t ht))
    | isNull operand negated =>
      obtain ⟨t, ht, h⟩ := exists_of_bind_eq_ok h
      obtain rfl := Except.ok.inj h
      exact closed_nullTest (closed_operandText (part operand (by simp [parts]) t ht)) negated
    | cast operand type =>
      obtain ⟨t, ht, h⟩ := exists_of_bind_eq_ok h
      obtain rfl := Except.ok.inj h
      have renamed := closed_renamed (part operand (by simp [parts]) t ht)
        (type.soft_text own).closed
      have whole := closed_call (.quiet "CAST" (by decide)) renamed false
      simpa [String.append_assoc] using whole
    | caseWhen branches otherwise =>
      obtain ⟨texts, htexts, h⟩ := exists_of_bind_eq_ok h
      obtain ⟨written, hwritten, h⟩ := exists_of_bind_eq_ok h
      obtain rfl := Except.ok.inj h
      refine closed_case (fun t ht => ?_) ?_
      · obtain ⟨b, hb, c, r, hc, hr, rfl⟩ := Branch.exists_of_mem_renderList htexts ht
        have mem : ∀ p ∈ b.parts, p ∈ (caseWhen branches otherwise).parts := fun p hp =>
          List.mem_append_left _ (List.mem_flatMap_of_mem hb hp)
        exact closed_branch (part b.condition (mem _ (by simp)) c hc)
          (part b.result (mem _ (by simp)) r hr)
      · cases written with
        | none => exact ⟨.empty, .inl rfl⟩
        | some t =>
          obtain ⟨e, he, hrender⟩ := exists_of_mem_renderOption hwritten rfl
          have last := part e (List.mem_append_right _ (Option.mem_toList.2 he)) t hrender
          exact closed_last " ELSE " (fun _ => ⟨[.word "ELSE"], by decide, rfl⟩)
            ⟨' ', rfl, rfl⟩ last
    | call name args resource =>
      obtain ⟨texts, htexts, h⟩ := exists_of_bind_eq_ok h
      obtain rfl := Except.ok.inj h
      have listed : Closed (listed texts) := .listed fun t ht => by
        obtain ⟨e, he, hrender⟩ := exists_of_mem_renderList htexts ht
        exact part e he t hrender
      simpa using closed_call (.quiet name own) listed false
    | aggregate function arg distinct =>
      obtain ⟨_, -, h⟩ := exists_of_bind_eq_ok h
      obtain ⟨written, hwritten, h⟩ := exists_of_bind_eq_ok h
      obtain rfl := Except.ok.inj h
      have name : Closed function.text := by cases function <;> exact .quiet _ (by decide)
      refine closed_call name ?_ distinct
      cases written with
      | none => exact .quiet "*" (by decide)
      | some t =>
        obtain ⟨e, he, hrender⟩ := exists_of_mem_renderOption hwritten rfl
        exact part e (Option.mem_toList.2 he) t hrender
    | rowNumber order =>
      obtain ⟨texts, htexts, h⟩ := exists_of_bind_eq_ok h
      obtain rfl := Except.ok.inj h
      refine closed_rowNumber fun t ht => ?_
      obtain ⟨term, hterm, body, hbody, rfl⟩ := OrderTerm.exists_of_mem_renderList htexts ht
      exact closed_direction (part term.expr (List.mem_map_of_mem hterm) body hbody) _
    | scalarQuery q =>
      obtain ⟨t, ht, h⟩ := exists_of_bind_eq_ok h
      obtain rfl := Except.ok.inj h
      exact closed_enclosed (query q rfl _ _ t ht)
    | existsQuery q =>
      obtain ⟨t, ht, h⟩ := exists_of_bind_eq_ok h
      obtain rfl := Except.ok.inj h
      intro depth
      have word : Opens "EXISTS " depth depth := ⟨[.word "EXISTS"], by decide, rfl⟩
      exact word.piece (closed_enclosed (query q rfl _ _ t ht) depth)
    | inQuery operand q =>
      obtain ⟨l, hl, h⟩ := exists_of_bind_eq_ok h
      obtain ⟨t, ht, h⟩ := exists_of_bind_eq_ok h
      obtain rfl := Except.ok.inj h
      have operand' : Closed (operand.operandText atomPrecedence l) :=
        closed_operandText (part operand (by simp [parts]) l hl)
      intro depth
      have word : Joins " IN " depth depth := ⟨⟨' ', rfl, rfl⟩, [.word "IN"], by decide, rfl⟩
      exact ((operand' depth).join word).piece (closed_enclosed (query q rfl _ _ t ht) depth)
    | generatedId member =>
      obtain ⟨_, -, h⟩ := exists_of_bind_eq_ok h
      cases h

/-- The text of a legible source closes all that it opens, if the texts below it do. -/
theorem Source.closed_of_render {source : Source} (legible : source.Legible d)
    (selects : ∀ q ∈ source.selects, d.Hides q.label ∧
      ∀ indent place text, q.render d indent place = .ok text → Closed text)
    (conditions : ∀ e ∈ source.conditions, ∀ text, e.render d indent = .ok text → Closed text)
    (h : source.render d indent = .ok text) : Closed text := by
  induction source using Source.join_induction generalizing text with
  | table name label =>
    obtain rfl := Except.ok.inj h
    have hides := legible (.source (.table name label)) (by simp [Source.nodes])
    exact fun depth =>
      ((hides.1.closed depth).join (joins_space depth)).piece (hides.2.closed depth)
  | subquery query =>
    obtain ⟨t, ht, h⟩ := exists_of_bind_eq_ok h
    obtain rfl := Except.ok.inj h
    obtain ⟨label', query'⟩ := selects query (by simp [Source.selects])
    intro depth
    exact ((closed_enclosed (query' _ _ t ht) depth).join (joins_space depth)).piece
      (label'.closed depth)
  | join kind left right condition ihl ihr =>
    obtain ⟨l, hl, h⟩ := exists_of_bind_eq_ok h
    obtain ⟨r, hr, h⟩ := exists_of_bind_eq_ok h
    obtain ⟨written, hwritten, h⟩ := exists_of_bind_eq_ok h
    obtain rfl := Except.ok.inj h
    have left' : Closed l := ihl (fun n hn => legible n (by simp [Source.nodes, hn]))
      (fun q hq => selects q (by simp [Source.selects, hq]))
      (fun e he => conditions e (by simp [Source.conditions, he])) hl
    have right' : Closed r := ihr (fun n hn => legible n (by simp [Source.nodes, hn]))
      (fun q hq => selects q (by simp [Source.selects, hq]))
      (fun e he => conditions e (by simp [Source.conditions, he])) hr
    have joined := closed_join indent kind left' right'
    cases written with
    | none => exact joined.append .empty (.inl rfl)
    | some t =>
      obtain ⟨e, he, hrender⟩ := Expr.exists_of_mem_renderOption hwritten rfl
      have last := conditions e (by simp [Source.conditions, Option.mem_toList.2 he]) t hrender
      have on := closed_last " ON " (fun _ => ⟨[.word "ON"], by decide, rfl⟩) ⟨' ', rfl, rfl⟩ last
      exact joined.append on.1 on.2

namespace Select

variable {s : Select}

/-- What stands in a clause or a condition of a select is closed if its children are. -/
theorem closed_of_render_part (legible : s.Legible d)
    (below : ∀ q ∈ s.children, ∀ indent place text, q.render d indent place = .ok text →
      Closed text)
    {e : Expr} (he : e ∈ s.conditions ++ s.clauses) (h : e.render d indent = .ok text) :
    Closed text := by
  obtain ⟨nodes, children⟩ := subset_of_mem_conditions_or_clauses he
  exact Expr.closed_of_render (fun n hn => legible n (nodes hn))
    (fun q hq => below q (children hq)) h

/-- The same of the source of a select, from what is known of the selects below. -/
theorem closed_of_render_source (legible : s.Legible d)
    (below : ∀ q ∈ s.children, ∀ indent place text, q.render d indent place = .ok text →
      Closed text)
    {source : Source} (hsource : source ∈ s.source) (h : source.render d indent = .ok text) :
    Closed text := by
  obtain ⟨nodes, children, conditions⟩ := subset_of_mem_source hsource
  refine Source.closed_of_render (fun n hn => legible n (nodes hn)) (fun q hq => ?_)
    (fun e he text => ?_) h
  · have legible' : q.Legible d := fun n hn =>
      legible n (nodes_subset_of_mem_children (children hq) hn)
    exact ⟨legible'.own.1, below q (children hq)⟩
  · exact closed_of_render_part legible below (List.mem_append_left _ (conditions he))

/-- **The text of a select closes all that it opens**, if its names are legible. -/
theorem closed_of_render (legible : s.Legible d) {place : SelectPlace}
    (h : s.render d indent place = .ok text) : Closed text := by
  induction s using children_induction generalizing indent place text with
  | step s ih =>
    have below : ∀ q ∈ s.children, ∀ indent place text, q.render d indent place = .ok text →
        Closed text := fun q hq _ _ _ =>
      ih q hq fun n hn => legible n (nodes_subset_of_mem_children hq hn)
    have source' : ∀ source ∈ s.source, ∀ text, source.render d indent = .ok text →
        Closed text := fun _ hsource _ => closed_of_render_source legible below hsource
    have clause' : ∀ e ∈ s.clauses, ∀ text, e.render d indent = .ok text → Closed text :=
      fun _ he _ => closed_of_render_part legible below (List.mem_append_right _ he)
    have own := legible.own
    clear ih legible below
    obtain ⟨columns, lines, rfl, hcolumns, hlines⟩ := exists_lines_of_render h
    refine .intercalate joins_newline (List.forall_mem_cons.2 ⟨?_, fun line hline => ?_⟩)
    · have columns' : Closed (listed columns) := .listed fun t ht => by
        obtain ⟨c, hc, body, hbody, rfl⟩ := hcolumns t ht
        exact Column.closed_text (own.2 c hc) c.expr
          (clause' c.expr (mem_clauses_of_columns hc) body hbody)
      intro depth
      have word : Opens "SELECT " depth depth := ⟨[.word "SELECT"], by decide, rfl⟩
      exact (((opens_blanks indent depth).opens word).opens (opens_distinct _ depth)).piece
        (columns' depth)
    · obtain ⟨word, hword, items, hitems, hline⟩ := hlines line hline
      have quiet : ∀ word ∈ clauseWords, word.toList.all Token.isQuiet = true := by decide
      refine closed_clause (.quiet word (quiet word hword)) (fun item hitem => ?_) line hline
      cases hitems item hitem with
      | source hsource h => exact source' _ hsource _ h
      | expr he h => exact clause' _ he _ h
      | term he h direction => exact closed_direction (clause' _ he _ h) direction
      | bound n => exact (soft_repr n).closed

end Select

end

end HiveQuery
