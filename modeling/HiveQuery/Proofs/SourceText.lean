import HiveQuery.Proofs.Boundaries
import HiveQuery.Proofs.PredicateText
/-!
# What the text of a source says

A join is written as its left side, its kind, its right side and its condition, one after another,
and a side that is itself a join gets no parentheses. So the text of a source says which table comes
first and what follows it, line by line: a join with one more table, or a condition (`Joint`). It
says no more than that, and sources that are grouped otherwise may have the same text.

The conditions are all that tells how the joins are grouped: one that follows a table belongs to the
nearest join before it that has none yet (`Joint.read`). That settles the grouping if every join has
a condition, and if all but the outermost one have and a single table follows that one. In every
other source a join without a condition can be made the operand of its neighbour and the text stays
as it is (`Source.text_determines_iff_pinned`).
-/

namespace HiveQuery

open QueryText

/-- What may follow a table in the text of a source. -/
inductive Joint where
  | join (kind : JoinKind) (leaf : Source)
  | on (condition : Expr)

namespace Source

variable {d : Dialect} {indent : ℕ} {text : String} {a b : Source}

def isLeaf : Source → Bool
  | join .. => false
  | _ => true

/-- The table or subquery that the text begins with. -/
def head : Source → Source
  | join _ left _ _ => left.head
  | source => source

/-- What follows it. -/
def tail : Source → List Joint
  | join kind left right condition =>
    left.tail ++ .join kind right.head :: (right.tail ++ condition.toList.map .on)
  | _ => []

/-- A text begins with a table or a subquery. -/
theorem isLeaf_head (a : Source) : a.head.isLeaf := by
  induction a using join_induction with
  | table | subquery => rfl
  | join kind left right condition ihl _ => exact ihl

/-- Nothing follows a table that stands alone. -/
theorem head_of_isLeaf (h : a.isLeaf) : a.head = a ∧ a.tail = [] := by
  cases a with
  | join => cases h
  | _ => exact ⟨rfl, rfl⟩

/-- The conditions of a source are those that follow its tables. -/
theorem mem_conditions_iff {e : Expr} : e ∈ a.conditions ↔ .on e ∈ a.tail := by
  induction a using join_induction with
  | table | subquery => simp [conditions, tail]
  | join kind left right condition ihl ihr =>
    simp [conditions, tail, ihl, ihr]

end Source

/-! ## The text, joint by joint -/

def Joint.render (d : Dialect) (indent : ℕ) : Joint → Except Failure String
  | join kind leaf => do
    let text ← leaf.render d indent
    return "\n" ++ blanks indent ++ kind.keyword ++ " " ++ text
  | on condition => do
    let text ← condition.render d indent
    return " ON " ++ text

/-- **A source is written joint by joint.** -/
theorem Source.render_eq (d : Dialect) (indent : ℕ) (a : Source) :
    a.render d indent = do
      let first ← a.head.render d indent
      let rest ← a.tail.mapM (Joint.render d indent)
      return first ++ String.join rest := by
  induction a using join_induction with
  | table | subquery => simp [head, tail]
  | join kind left right condition ihl ihr =>
    rw [Source.render, ihl, ihr, head, tail]
    cases condition with
    | none =>
      have nothing : Expr.renderOption d indent none = pure none := rfl
      simp [Joint.render, nothing, String.append_assoc]
    | some e => simp [Joint.render, Expr.renderOption, String.append_assoc]

/-- **The text says no more than the head and the tail**: sources that agree in both have one
text. -/
theorem Source.render_eq_of_tail_eq {a b : Source} (hhead : a.head = b.head)
    (htail : a.tail = b.tail) (d : Dialect) (indent : ℕ) :
    a.render d indent = b.render d indent := by
  rw [render_eq, hhead, htail, ← render_eq]

/-! ## How joints are grouped -/

section

variable {R : Expr → Expr → Prop}

/-- The same tables and subqueries, joined in the same way on conditions that are related. -/
inductive Source.Agrees (R : Expr → Expr → Prop) : Source → Source → Prop
  | table (name label : String) : Agrees R (.table name label) (.table name label)
  | subquery (query : Select) : Agrees R (.subquery query) (.subquery query)
  | join (kind : JoinKind) {left left' right right' : Source} {condition condition' : Option Expr}
      (hl : Agrees R left left') (hr : Agrees R right right')
      (hc : Option.Rel R condition condition') :
      Agrees R (.join kind left right condition) (.join kind left' right' condition')

inductive Joint.Agrees (R : Expr → Expr → Prop) : Joint → Joint → Prop
  | join (kind : JoinKind) {leaf : Source} (h : leaf.isLeaf) :
      Agrees R (.join kind leaf) (.join kind leaf)
  | on {condition condition' : Expr} (h : R condition condition') :
      Agrees R (.on condition) (.on condition')

namespace Source

variable {a b : Source}

/-- A table or a subquery agrees with itself. -/
theorem Agrees.of_isLeaf (h : a.isLeaf) : a.Agrees R a := by
  cases a with
  | table name label => exact .table name label
  | subquery query => exact .subquery query
  | join => cases h

/-- Sources that agree begin with the same table. -/
theorem Agrees.head_eq (h : a.Agrees R b) : a.head = b.head := by
  induction h with
  | table | subquery => rfl
  | join _ _ _ _ ihl _ => exact ihl

/-- The joints of sources that agree do, place by place. -/
theorem Agrees.tail (h : a.Agrees R b) : List.Forall₂ (Joint.Agrees R) a.tail b.tail := by
  induction h with
  | table | subquery => exact .nil
  | @join kind left left' right right' condition condition' _ hr hc ihl ihr =>
    have conditions : List.Forall₂ (Joint.Agrees R) (condition.toList.map .on)
        (condition'.toList.map .on) := by
      cases hc with
      | none => exact .nil
      | some h => exact .cons (.on h) .nil
    have first : Joint.Agrees R (.join kind right.head) (.join kind right'.head) := by
      rw [← hr.head_eq]
      exact .join kind right.isLeaf_head
    exact List.rel_append ihl (.cons first (List.rel_append ihr conditions))

/-- Joins that agree have sides that do. -/
theorem Agrees.sides {kind kind' : JoinKind} {left left' right right' : Source}
    {condition condition' : Option Expr}
    (h : Agrees R (.join kind left right condition) (.join kind' left' right' condition')) :
    left.Agrees R left' ∧ right.Agrees R right' := by
  cases h with
  | join _ hl hr _ => exact ⟨hl, hr⟩

/-- The number of the joins that have no condition. -/
def openJoins : Source → ℕ
  | join _ left right condition =>
    left.openJoins + right.openJoins + if condition.isNone then 1 else 0
  | _ => 0

/-- Every join has a condition, or all but the outermost one have and no join follows that one. -/
def Pinned : Source → Prop
  | join _ left right condition =>
    left.openJoins = 0 ∧ right.openJoins = 0 ∧ (condition.isSome ∨ right.isLeaf)
  | _ => True

instance : ∀ a : Source, Decidable a.Pinned
  | .table .. | .subquery _ => .isTrue trivial
  | .join .. => inferInstanceAs (Decidable (_ ∧ _ ∧ (_ ∨ _)))

end Source

/-- A reader of joints holds the operand that it has read last and, the nearest first, the joins
that wait for it. A condition completes the nearest one. -/
def Joint.read : Source × List (Source × JoinKind) → Joint →
    Option (Source × List (Source × JoinKind))
  | (last, waiting), join kind leaf => some (leaf, (last, kind) :: waiting)
  | (last, (left, kind) :: waiting), on condition =>
    some (.join kind left last (some condition), waiting)
  | (_, []), on _ => none

namespace Source

variable {a b : Source}

/-- A source whose joins all have conditions is read back. -/
theorem read_tail_of_openJoins (h : a.openJoins = 0) (waiting : List (Source × JoinKind)) :
    a.tail.foldlM Joint.read (a.head, waiting) = some (a, waiting) := by
  induction a using join_induction generalizing waiting with
  | table | subquery => rfl
  | join kind left right condition ihl ihr =>
    cases condition with
    | none => simp [openJoins] at h
    | some e =>
      have hl : left.openJoins = 0 := by simp_all [openJoins]
      have hr : right.openJoins = 0 := by simp_all [openJoins]
      simp [head, tail, ihl hl, ihr hr, Joint.read]

/-- If the sides have all their conditions, what is read leaves the one join open that has none. -/
theorem read_tail_join {kind : JoinKind} (hl : a.openJoins = 0) (hr : b.openJoins = 0) :
    (join kind a b none).tail.foldlM Joint.read (a.head, []) = some (b, [(a, kind)]) := by
  simp [tail, read_tail_of_openJoins hl, read_tail_of_openJoins hr, Joint.read]

/-- As many joins wait at the end as have no condition. -/
theorem exists_read_tail (a : Source) (waiting : List (Source × JoinKind)) :
    ∃ last more, a.tail.foldlM Joint.read (a.head, waiting) = some (last, more ++ waiting) ∧
      more.length = a.openJoins := by
  induction a using join_induction generalizing waiting with
  | table | subquery => exact ⟨_, [], rfl, rfl⟩
  | join kind left right condition ihl ihr =>
    obtain ⟨last, more, hread, hlength⟩ := ihl waiting
    obtain ⟨last', more', hread', hlength'⟩ := ihr ((last, kind) :: (more ++ waiting))
    cases condition with
    | none =>
      refine ⟨last', more' ++ (last, kind) :: more, ?_, by simp [openJoins]; omega⟩
      simp [head, tail, hread, Joint.read, hread']
    | some e =>
      -- The condition completes this join, or one on its right side that has none; either way one
      -- join waits less.
      cases more' with
      | nil =>
        refine ⟨.join kind last last' (some e), more, ?_, by simp [openJoins] at *; omega⟩
        simp [head, tail, hread, Joint.read, hread']
      | cons next more' =>
        refine ⟨.join next.2 next.1 last' (some e), more' ++ (last, kind) :: more, ?_,
          by simp [openJoins] at *; omega⟩
        simp [head, tail, hread, Joint.read, hread']

end Source

/-- The same has been read, up to the conditions. -/
def Joint.Progress (R : Expr → Expr → Prop) (p q : Source × List (Source × JoinKind)) : Prop :=
  p.1.Agrees R q.1 ∧ List.Forall₂ (fun x y => x.1.Agrees R y.1 ∧ x.2 = y.2) p.2 q.2

/-- A joint leads readers that have come equally far equally far, -/
theorem Joint.Agrees.read {j j' : Joint} (h : j.Agrees R j')
    {p q : Source × List (Source × JoinKind)} (hpq : Progress R p q) :
    Option.Rel (Progress R) (Joint.read p j) (Joint.read q j') := by
  obtain ⟨last, waiting⟩ := p
  obtain ⟨last', waiting'⟩ := q
  obtain ⟨hlast, hwaiting⟩ := hpq
  cases h with
  | join kind hleaf => exact .some ⟨.of_isLeaf hleaf, .cons ⟨hlast, rfl⟩ hwaiting⟩
  | on h =>
    cases hwaiting with
    | nil => exact .none
    | @cons x y waiting waiting' hfirst hwaiting =>
      obtain ⟨left, kind⟩ := x
      obtain ⟨left', kind'⟩ := y
      obtain ⟨hleft, hkind⟩ := hfirst
      obtain rfl : kind = kind' := hkind
      exact .some ⟨.join kind hleft hlast (.some h), hwaiting⟩

/-- and so do joints one after the other. -/
theorem Joint.Agrees.readAll {js js' : List Joint} (h : List.Forall₂ (Joint.Agrees R) js js')
    {p q : Source × List (Source × JoinKind)} (hpq : Progress R p q) :
    Option.Rel (Progress R) (js.foldlM Joint.read p) (js'.foldlM Joint.read q) := by
  induction h generalizing p q with
  | nil => exact .some hpq
  | @cons j j' js js' hj _ ih =>
    rw [List.foldlM_cons, List.foldlM_cons]
    have step := hj.read hpq
    revert step
    cases Joint.read p j <;> cases Joint.read q j' <;> intro step <;> cases step
    · exact .none
    · exact ih ‹_›

namespace Source

variable {a b : Source}

/-- How a source can be pinned: no join is open, or only the outermost one is, with a single table
after it. -/
theorem Pinned.cases (h : a.Pinned) : a.openJoins = 0 ∨ ∃ kind left right,
    a = join kind left right none ∧ left.openJoins = 0 ∧ right.openJoins = 0 ∧ right.isLeaf := by
  cases a with
  | table | subquery => exact .inl rfl
  | join kind left right condition =>
    obtain ⟨hl, hr, hlast⟩ := h
    cases condition with
    | some e => exact .inl (by simp [openJoins, hl, hr])
    | none => exact .inr ⟨kind, left, right, rfl, hl, hr, by simpa using hlast⟩

/-- A text that ends with a join is that of a join without a condition. -/
theorem exists_of_tail_agrees {kind : JoinKind} {left right : Source} (leaf : right.isLeaf)
    (h : List.Forall₂ (Joint.Agrees R) (join kind left right none).tail b.tail) :
    ∃ kind' left' right', b = join kind' left' right' none := by
  rw [tail, (head_of_isLeaf leaf).1, (head_of_isLeaf leaf).2] at h
  have last := List.forall₂_reverse_iff.2 h
  cases b with
  | table | subquery => simp [tail] at last
  | join kind' left' right' condition =>
    cases condition with
    | none => exact ⟨kind', left', right', rfl⟩
    | some e =>
      simp only [tail, Option.toList_some, Option.toList_none, List.map_nil, List.map_cons,
        List.append_nil, List.reverse_append, List.reverse_cons, List.reverse_nil, List.nil_append,
        List.cons_append, List.forall₂_cons] at last
      cases last.1

/-- **A pinned source is told by its joints.** -/
theorem Pinned.agrees (pinned : a.Pinned) (hhead : a.head = b.head)
    (htail : List.Forall₂ (Joint.Agrees R) a.tail b.tail) : a.Agrees R b := by
  have start : Joint.Progress R (a.head, []) (b.head, []) :=
    ⟨hhead ▸ .of_isLeaf a.isLeaf_head, .nil⟩
  have reads := Joint.Agrees.readAll htail start
  obtain ⟨last, more, hread, hmore⟩ := b.exists_read_tail []
  rcases pinned.cases with closed | ⟨kind, left, right, rfl, hl, hr, leaf⟩
  · -- No join waits when all is read, so each join of the other source has a condition as well.
    rw [read_tail_of_openJoins closed, hread] at reads
    cases reads with
    | some h =>
      have closed' : b.openJoins = 0 := by simpa [hmore] using h.2.length_eq.symm
      rw [read_tail_of_openJoins closed'] at hread
      obtain ⟨rfl, -⟩ := Prod.mk.inj (Option.some.inj hread)
      exact h.1
  · -- One join waits, and it is the outermost one, since nothing follows its table.
    obtain ⟨kind', left', right', rfl⟩ := exists_of_tail_agrees leaf htail
    rw [hread] at reads
    simp only [head, read_tail_join hl hr] at reads
    cases reads with
    | some h =>
      have single : (join kind' left' right' none).openJoins = 1 := by
        simpa [hmore] using h.2.length_eq.symm
      have hl' : left'.openJoins = 0 := by simp [openJoins] at single; omega
      have hr' : right'.openJoins = 0 := by simp [openJoins] at single; omega
      rw [head, read_tail_join hl' hr'] at hread
      obtain ⟨rfl, hwaiting⟩ := Prod.mk.inj (Option.some.inj hread)
      rw [← hwaiting] at h
      obtain ⟨hright, hleft⟩ := h
      simp only [List.forall₂_cons] at hleft
      obtain ⟨⟨hleft, hkind⟩, -⟩ := hleft
      obtain rfl : kind = kind' := hkind
      exact .join kind hleft hright .none

theorem Agrees.length_tail (h : a.Agrees R b) : a.tail.length = b.tail.length :=
  h.tail.length_eq

/-- The left side of a join has a shorter tail, so that one can recurse on it. -/
theorem length_tail_lt (kind : JoinKind) (left right : Source) (condition : Option Expr) :
    left.tail.length < (join kind left right condition).tail.length := by
  simp [tail]

/-- **A source that is not pinned is not told by its joints.** A join without a condition can be
made an operand of the join next to it. -/
theorem exists_not_agrees (h : ¬ a.Pinned) :
    ∃ b, b.head = a.head ∧ b.tail = a.tail ∧ ∀ R, ¬ a.Agrees R b := by
  induction a using join_induction with
  | table | subquery => exact absurd trivial h
  | join kind left right condition ihl ihr =>
    by_cases hl : left.Pinned
    case neg =>
      obtain ⟨b, hhead, htail, hne⟩ := ihl hl
      exact ⟨join kind b right condition, by simp [head, hhead], by simp [tail, htail],
        fun R agrees => hne R agrees.sides.1⟩
    by_cases hr : right.Pinned
    case neg =>
      obtain ⟨b, hhead, htail, hne⟩ := ihr hr
      exact ⟨join kind left b condition, rfl, by simp [tail, hhead, htail],
        fun R agrees => hne R agrees.sides.2⟩
    -- Both sides are pinned, so a join that lacks a condition stands right at this one, and the two
    -- can be turned about one another. What is left of the outer one then is longer or shorter.
    rcases hl.cases with hl | ⟨kind', left', right', rfl, -⟩
    · rcases hr.cases with hr | ⟨kind', left', right', rfl, -⟩
      · obtain ⟨kind', left', right', condition', rfl, rfl⟩ : ∃ kind' left' right' condition',
            right = join kind' left' right' condition' ∧ condition = none := by
          cases right <;> cases condition <;> simp_all [Pinned, isLeaf]
        exact ⟨join kind' (join kind left left' none) right' condition', rfl, by simp [tail, head],
          fun R agrees => (length_tail_lt ..).ne agrees.sides.1.length_tail⟩
      · exact ⟨join kind' (join kind left left' none) right' condition, rfl, by simp [tail, head],
          fun R agrees => (length_tail_lt ..).ne agrees.sides.1.length_tail⟩
    · exact ⟨join kind' left' (join kind right' right condition) none, rfl, by simp [tail, head],
        fun R agrees => (length_tail_lt ..).ne' agrees.sides.1.length_tail⟩

end Source

end

/-! ## The tokens of joints -/

/-- The token of a name. -/
def Dialect.nameToken (d : Dialect) (name : String) : Token :=
  if d.quotesIdentifiers then .name name else .word name

/-- Different names have different tokens. -/
theorem Dialect.nameToken_inj {d : Dialect} {name name' : String} :
    d.nameToken name = d.nameToken name' ↔ name = name' := by
  unfold nameToken
  split <;> simp

/-- A marked name is one token. -/
theorem Dialect.Marks.spells {d : Dialect} {name : String} (h : d.Marks name) :
    Spells (d.quote name).toList [d.nameToken name] := by
  unfold Dialect.quote Dialect.nameToken
  by_cases quotes : d.quotesIdentifiers
  · rw [if_pos quotes, if_pos quotes, Text.quoteIdentifier, String.toList_ofList]
    refine ⟨[], .quotedEnd none name.toList, ?_, rfl, by simp [Pending.tokens]⟩
    exact (Pending.Passes.begin '\x60').append (.quoted name.toList none [])
  · rw [if_neg quotes, if_neg quotes]
    exact spells_plain (h.resolve_left quotes)

def JoinKind.tokens : JoinKind → List Token
  | inner => [.word "JOIN"]
  | leftOuter => [.word "LEFT", .word "OUTER", .word "JOIN"]
  | rightOuter => [.word "RIGHT", .word "OUTER", .word "JOIN"]
  | fullOuter => [.word "FULL", .word "OUTER", .word "JOIN"]
  | cross => [.word "CROSS", .word "JOIN"]
  | leftSemi => [.word "LEFT", .word "SEMI", .word "JOIN"]

/-- The words of a join are its tokens. -/
theorem JoinKind.spells_keyword (kind : JoinKind) : Spells kind.keyword.toList kind.tokens := by
  cases kind <;> exact .of_scan (by decide)

/-- The tokens of a text, if there is one. -/
def Token.ofResult : Except Failure String → List Token
  | .ok text => ofText text
  | .error _ => []

theorem Spells.ofResult {x : Except Failure String} {text : String} {ts : List Token}
    (h : Spells text.toList ts) (hx : x = .ok text) : Token.ofResult x = ts := by
  rw [hx]
  exact h.ofText_eq

/-- The texts of two expressions have the same tokens. -/
def Expr.SameTokens (d : Dialect) (indent : ℕ) (e e' : Expr) : Prop :=
  Token.ofResult (e.render d indent) = Token.ofResult (e'.render d indent)

/-- Whether a source is made of tables, and its names can be told from the text around them. -/
def Source.Clear (d : Dialect) : Source → Prop
  | table name label => d.Marks name ∧ d.Marks label
  | subquery _ => False
  | join _ left right condition =>
    left.Clear d ∧ right.Clear d ∧ ∀ e ∈ condition, e.Legible d ∧ e.PlainCalls

instance Source.decidableClear (d : Dialect) : ∀ a : Source, Decidable (a.Clear d)
  | .table .. => inferInstanceAs (Decidable (_ ∧ _))
  | .subquery _ => .isFalse id
  | .join _ left right condition =>
    have := decidableClear d left
    have := decidableClear d right
    inferInstanceAs (Decidable (left.Clear d ∧ right.Clear d ∧
      ∀ e ∈ condition, e.Legible d ∧ e.PlainCalls))

namespace Joint

variable {d : Dialect} {indent : ℕ} {text : String} {j : Joint} {js js' : List Joint}

def tokens (d : Dialect) (indent : ℕ) : Joint → List Token
  | join kind leaf => kind.tokens ++ Token.ofResult (leaf.render d indent)
  | on condition => .word "ON" :: Token.ofResult (condition.render d indent)

def Clear (d : Dialect) : Joint → Prop
  | join _ leaf => leaf.isLeaf ∧ leaf.Clear d
  | on condition => condition.Legible d ∧ condition.PlainCalls

/-- What tells where the tokens of a joint end: a table has two of them, and a condition is an
operand. -/
def Told (d : Dialect) (indent : ℕ) : Joint → Prop
  | join _ leaf => ∃ name label, leaf = .table name label ∧
      Token.ofResult (leaf.render d indent) = [d.nameToken name, d.nameToken label]
  | on condition =>
      Stage.awaiting.run (Token.ofResult (condition.render d indent)) = some .complete

end Joint

/-- A source is clear if its head and all its joints are. -/
theorem Source.clear_iff {d : Dialect} {a : Source} :
    a.Clear d ↔ a.head.Clear d ∧ ∀ j ∈ a.tail, j.Clear d := by
  induction a using join_induction with
  | table | subquery => simp [head, tail]
  | join kind left right condition ihl ihr =>
    rw [Clear, ihl, ihr]
    simp only [head, tail, List.forall_mem_append, List.forall_mem_cons, List.forall_mem_map,
      Option.mem_toList, Joint.Clear, right.isLeaf_head, true_and]
    tauto

/-- What stands alone in a clear source is a table, with two tokens. -/
theorem Source.exists_table {d : Dialect} {a : Source} (leaf : a.isLeaf) (clear : a.Clear d)
    (indent : ℕ) : ∃ name label text, a = .table name label ∧ a.render d indent = .ok text ∧
      Spells text.toList [d.nameToken name, d.nameToken label] := by
  cases a with
  | table name label =>
    exact ⟨name, label, _, rfl, rfl, by simpa using clear.1.spells.spaced clear.2.spells⟩
  | subquery => cases clear
  | join => cases leaf

namespace Joint

variable {d : Dialect} {indent : ℕ} {text : String} {j : Joint} {js js' : List Joint}

/-- A clear joint that has a text is told from what stands around it. -/
theorem told_of_render (clear : j.Clear d) (h : j.render d indent = .ok text) :
    j.Told d indent ∧ Breaks text ∧ Spells text.toList (j.tokens d indent) := by
  cases j with
  | join kind leaf =>
    obtain ⟨t, ht, h⟩ := exists_of_bind_eq_ok h
    obtain rfl := Except.ok.inj h
    obtain ⟨name, label, t', hleaf, ht', hspells⟩ := Source.exists_table clear.1 clear.2 indent
    obtain rfl := Except.ok.inj (ht.symm.trans ht')
    refine ⟨⟨name, label, hleaf, hspells.ofResult ht⟩, ⟨'\n', by simp, rfl⟩, ?_⟩
    rw [tokens, hspells.ofResult ht]
    simpa using ((kind.spells_keyword.spaced hspells).indented indent).newline
  | on condition =>
    obtain ⟨t, ht, h⟩ := exists_of_bind_eq_ok h
    obtain rfl := Except.ok.inj h
    obtain ⟨ts, hspells, hrun⟩ := Expr.leads_of_render clear.1 clear.2 ht
    have word : Spells " ON".toList [.word "ON"] := .of_scan (by decide)
    have htokens := hspells.ofResult ht
    refine ⟨by rw [Told, htokens]; exact hrun, ⟨' ', by simp, rfl⟩, ?_⟩
    rw [tokens, htokens]
    simpa using word.spaced hspells

/-- The texts of joints follow another text, and one another. -/
theorem spells_join (clear : ∀ j ∈ js, j.Clear d) {texts : List String}
    (h : js.mapM (render d indent) = .ok texts) {cs : List Char} {ts : List Token}
    (hts : Spells cs ts) :
    (∀ j ∈ js, j.Told d indent) ∧
      Spells (cs ++ (String.join texts).toList) (ts ++ js.flatMap (tokens d indent)) := by
  induction js generalizing texts cs ts with
  | nil =>
    obtain rfl := Except.ok.inj h
    exact ⟨nofun, by simpa using hts⟩
  | cons j js ih =>
    rw [List.mapM_cons] at h
    obtain ⟨text, hj, h⟩ := exists_of_bind_eq_ok h
    obtain ⟨rest, hjs, h⟩ := exists_of_bind_eq_ok h
    obtain rfl := Except.ok.inj h
    rw [List.forall_mem_cons] at clear
    obtain ⟨told, ⟨c, hc, hbreak⟩, hspells⟩ := told_of_render clear.1 hj
    obtain ⟨cs', hcs'⟩ := List.head?_eq_some_iff.1 hc
    rw [hcs'] at hspells
    obtain ⟨tolds, hrest⟩ := ih clear.2 hjs (hts.append hbreak hspells)
    exact ⟨List.forall_mem_cons.2 ⟨told, tolds⟩, by simpa [hcs'] using hrest⟩

/-- A joint begins with a word that ends an expression. -/
theorem step_of_mem_head? {t : Token} (ht : t ∈ (js.flatMap (tokens d indent)).head?) :
    Stage.complete.step t = none := by
  cases js with
  | nil => cases ht
  | cons j js =>
    cases j with
    | on condition =>
      obtain rfl := Option.some.inj ht
      rfl
    | join kind leaf =>
      cases kind <;> (obtain rfl := Option.some.inj ht; rfl)

/-- No kind of join begins with another one. -/
theorem cut_tokens {kind kind' : JoinKind} {ts ts' : List Token}
    (h : kind.tokens ++ ts = kind'.tokens ++ ts') : kind = kind' ∧ ts = ts' := by
  cases kind <;> cases kind' <;> simp_all [JoinKind.tokens]

/-- Every joint has a word to begin with. -/
theorem tokens_ne_nil (j : Joint) : j.tokens d indent ≠ [] := by
  cases j with
  | on => exact List.cons_ne_nil _ _
  | join kind leaf => cases kind <;> exact List.cons_ne_nil _ _

/-- **Joints are told by their tokens.** -/
theorem agrees_of_tokens_eq (told : ∀ j ∈ js, j.Told d indent) (told' : ∀ j ∈ js', j.Told d indent)
    (h : js.flatMap (tokens d indent) = js'.flatMap (tokens d indent)) :
    List.Forall₂ (Agrees (Expr.SameTokens d indent)) js js' := by
  induction js generalizing js' with
  | nil =>
    cases js' with
    | nil => exact .nil
    | cons j' js' => simp [tokens_ne_nil] at h
  | cons j js ih =>
    cases js' with
    | nil => simp [tokens_ne_nil] at h
    | cons j' js' =>
      rw [List.forall_mem_cons] at told told'
      rw [List.flatMap_cons, List.flatMap_cons] at h
      cases j with
      | join kind leaf =>
        cases j' with
        | on => cases kind <;> simp [tokens, JoinKind.tokens] at h
        | join kind' leaf' =>
          obtain ⟨name, label, rfl, hleaf⟩ := told.1
          obtain ⟨name', label', rfl, hleaf'⟩ := told'.1
          rw [tokens, tokens, List.append_assoc, List.append_assoc] at h
          obtain ⟨hkind, hrest⟩ := cut_tokens h
          rw [hleaf, hleaf'] at hrest
          simp only [List.cons_append, List.nil_append, List.cons.injEq, Dialect.nameToken_inj]
            at hrest
          obtain ⟨rfl, rfl, hrest⟩ := hrest
          exact hkind ▸ .cons (.join kind rfl) (ih told.2 told'.2 hrest)
      | on condition =>
        cases j' with
        | join kind' leaf' => cases kind' <;> simp [tokens, JoinKind.tokens] at h
        | on condition' =>
          -- What follows a condition begins with a word that no operand goes on with.
          have cut := cut_of_foldlM told.1 told'.1 (fun _ => step_of_mem_head?)
            (fun _ => step_of_mem_head?) (List.cons.inj h).2
          exact .cons (.on cut.1) (ih told.2 told'.2 cut.2)

/-- Joints that agree in their conditions' tokens have the same tokens. -/
theorem tokens_eq_of_agrees (h : List.Forall₂ (Agrees (Expr.SameTokens d indent)) js js') :
    js.flatMap (tokens d indent) = js'.flatMap (tokens d indent) := by
  induction h with
  | nil => rfl
  | @cons j j' js js' hj _ ih =>
    have first : j.tokens d indent = j'.tokens d indent := by
      cases hj with
      | join => rfl
      | on h => rw [tokens, tokens, h]
    rw [List.flatMap_cons, List.flatMap_cons, first, ih]

end Joint

/-! ## What a text determines -/

/-- The trees of two expressions are the same up to the grouping of `AND` with `AND` and of `OR`
with `OR`. -/
def Expr.Alike (d : Dialect) (indent : ℕ) (e e' : Expr) : Prop :=
  ∃ s s', e.tree? d indent = some s ∧ e'.tree? d indent = some s' ∧ Reading.Alike s s'

/-- Predicates with the same tokens are alike, since the tokens have one reading. -/
theorem Expr.alike_of_sameTokens {d : Dialect} {indent : ℕ} {e e' : Expr} {text text' : String}
    (legible : e.Legible d) (legible' : e'.Legible d) (predicate : e.isPredicate ∧ e.NotsApart)
    (predicate' : e'.isPredicate ∧ e'.NotsApart) (h : e.render d indent = .ok text)
    (h' : e'.render d indent = .ok text') (same : SameTokens d indent e e') :
    Alike d indent e e' := by
  obtain ⟨s, hs, hpredicate⟩ := exists_tree_of_isPredicate predicate.1 h
  obtain ⟨s', hs', hpredicate'⟩ := exists_tree_of_isPredicate predicate'.1 h'
  obtain ⟨t, reads, regrouped⟩ := exists_readsAs legible predicate.2 hs h
  obtain ⟨t', reads', regrouped'⟩ := exists_readsAs legible' predicate'.2 hs' h'
  have tokens : Token.ofText text = Token.ofText text' := by
    rwa [SameTokens, h, h'] at same
  rw [ReadsAs, tokens] at reads
  obtain rfl := Phrase.unique reads reads'
  exact ⟨s, s', hs, hs', (regrouped.alike hpredicate).trans (regrouped'.alike hpredicate').symm⟩

namespace Source

variable {d : Dialect} {indent : ℕ} {text text' : String} {a b : Source}

/-- The relation need only be weakened at the conditions of the two sources. -/
theorem Agrees.imp {R S : Expr → Expr → Prop} (h : a.Agrees R b)
    (himp : ∀ e ∈ a.conditions, ∀ e' ∈ b.conditions, R e e' → S e e') : a.Agrees S b := by
  induction h with
  | table name label => exact .table name label
  | subquery query => exact .subquery query
  | @join kind left left' right right' condition condition' _ _ hc ihl ihr =>
    refine .join kind (ihl fun e he e' he' => himp e ?_ e' ?_)
      (ihr fun e he e' he' => himp e ?_ e' ?_) ?_
    any_goals simp [conditions, *]
    cases hc with
    | none => exact .none
    | some h => exact .some (himp _ (by simp [conditions]) _ (by simp [conditions]) h)

/-- The text of a source spells two names and its joints. -/
theorem exists_ofText_eq (clear : a.Clear d) (h : a.render d indent = .ok text) :
    ∃ name label, a.head = .table name label ∧ (∀ j ∈ a.tail, j.Told d indent) ∧
      Token.ofText text =
        [d.nameToken name, d.nameToken label] ++ a.tail.flatMap (Joint.tokens d indent) := by
  obtain ⟨clearHead, clearTail⟩ := clear_iff.1 clear
  obtain ⟨name, label, first, hhead, hfirst, hspells⟩ :=
    exists_table a.isLeaf_head clearHead indent
  rw [render_eq, hfirst] at h
  obtain ⟨rest, hrest, h⟩ := exists_of_bind_eq_ok (x := a.tail.mapM (Joint.render d indent)) h
  obtain rfl := Except.ok.inj h
  obtain ⟨told, whole⟩ := Joint.spells_join clearTail hrest hspells
  rw [← String.toList_append] at whole
  exact ⟨name, label, hhead, told, whole.ofText_eq⟩

/-- **The text of a source says its first table and its joints**, and no more. -/
theorem ofText_eq_iff (clear : a.Clear d) (clear' : b.Clear d) (h : a.render d indent = .ok text)
    (h' : b.render d indent = .ok text') :
    Token.ofText text = Token.ofText text' ↔
      a.head = b.head ∧ List.Forall₂ (Joint.Agrees (Expr.SameTokens d indent)) a.tail b.tail := by
  obtain ⟨name, label, hhead, told, htext⟩ := exists_ofText_eq clear h
  obtain ⟨name', label', hhead', told', htext'⟩ := exists_ofText_eq clear' h'
  rw [htext, htext', hhead, hhead']
  constructor
  · intro heq
    simp only [List.cons_append, List.nil_append, List.cons.injEq, Dialect.nameToken_inj] at heq
    obtain ⟨rfl, rfl, heq⟩ := heq
    exact ⟨rfl, Joint.agrees_of_tokens_eq told told' heq⟩
  · rintro ⟨heq, htail⟩
    obtain ⟨rfl, rfl⟩ := table.inj heq
    rw [Joint.tokens_eq_of_agrees htail]

/-- The conditions of a clear source that has a text are legible and have texts. -/
theorem exists_render_condition (clear : a.Clear d) (h : a.render d indent = .ok text) {e : Expr}
    (he : e ∈ a.conditions) : e.Legible d ∧ ∃ text, e.render d indent = .ok text := by
  rw [mem_conditions_iff] at he
  obtain ⟨_, _, -, told, -⟩ := exists_ofText_eq clear h
  have hrun : Stage.awaiting.run (Token.ofResult (e.render d indent)) = some .complete := told _ he
  refine ⟨((clear_iff.1 clear).2 _ he).1, ?_⟩
  cases hrender : e.render d indent with
  | ok text => exact ⟨text, rfl⟩
  | error => rw [hrender] at hrun; cases hrun

/-- **A text tells its source if and only if the source is pinned.** Whatever the source is, its
text says the first table and what follows it, joint by joint. If every join has a condition, or all
but the outermost one have and no join follows that one, the text also says how the joints are
grouped, and so all of the source up to the grouping of `AND` with `AND` and of `OR` with `OR` in
its conditions. Every other source shares its text with one that is joined otherwise. -/
theorem text_determines_iff_pinned (clear : a.Clear d) (h : a.render d indent = .ok text) :
    (∀ (b : Source) text', b.Clear d → b.render d indent = .ok text' →
      (Token.ofText text = Token.ofText text' ↔ a.head = b.head ∧
        List.Forall₂ (Joint.Agrees (Expr.SameTokens d indent)) a.tail b.tail)) ∧
    (a.Pinned ↔ ∀ b : Source, b.Clear d → b.render d indent = .ok text →
      a.Agrees (Expr.SameTokens d indent) b) ∧
    (a.Pinned → ∀ b : Source, b.Clear d → b.render d indent = .ok text →
      (∀ e ∈ a.conditions ++ b.conditions, e.isPredicate ∧ e.NotsApart) →
      a.Agrees (Expr.Alike d indent) b) := by
  have agrees : a.Pinned → ∀ b : Source, b.Clear d → b.render d indent = .ok text →
      a.Agrees (Expr.SameTokens d indent) b := by
    intro pinned b clear' h'
    obtain ⟨hhead, htail⟩ := (ofText_eq_iff clear clear' h h').1 rfl
    exact pinned.agrees hhead htail
  refine ⟨fun b text' clear' h' => ofText_eq_iff clear clear' h h', ⟨agrees, fun told => ?_⟩, ?_⟩
  · -- Two sources with the same joints have the same text.
    by_contra pinned
    obtain ⟨b, hhead, htail, hne⟩ := exists_not_agrees pinned
    refine hne _ (told b ?_ ?_)
    · rw [clear_iff, hhead, htail, ← clear_iff]
      exact clear
    · rw [render_eq_of_tail_eq hhead htail, h]
  · intro pinned b clear' h' predicates
    rw [List.forall_mem_append] at predicates
    refine (agrees pinned b clear' h').imp fun e he e' he' same => ?_
    obtain ⟨legible, _, hrender⟩ := exists_render_condition clear h he
    obtain ⟨legible', _, hrender'⟩ := exists_render_condition clear' h' he'
    exact Expr.alike_of_sameTokens legible legible' (predicates.1 e he) (predicates.2 e' he')
      hrender hrender' same

def equalColumns (label name label' name' : String) : Expr :=
  .binary .eq (.column label name) (.column label' name')

/-- A join on the right side of another one, both on conditions. -/
def paidItems : Source :=
  .join .leftOuter (.table "orders" "a")
    (.join .inner (.table "items" "b") (.table "payments" "c")
      (some (equalColumns "b" "id" "c" "item")))
    (some (equalColumns "a" "id" "b" "order"))

/-- The second join is the right side of the first, which only the order of the two conditions
shows. -/
theorem text_determines_iff_pinned_paidItems :
    paidItems.Clear .hive ∧ paidItems.Pinned ∧
    ∃ text, paidItems.render .hive 0 = .ok text ∧ ∀ b : Source, b.Clear .hive →
      b.render .hive 0 = .ok text →
      paidItems.Agrees (Expr.SameTokens .hive 0) b ∧
      ((∀ e ∈ paidItems.conditions ++ b.conditions, e.isPredicate ∧ e.NotsApart) →
        paidItems.Agrees (Expr.Alike .hive 0) b) := by
  have clear : paidItems.Clear .hive := by decide +kernel
  have pinned : paidItems.Pinned := by decide
  obtain ⟨text, written⟩ : ∃ text, paidItems.render .hive 0 = .ok text := ⟨_, rfl⟩
  obtain ⟨-, determines, alike⟩ := text_determines_iff_pinned clear written
  exact ⟨clear, pinned, text, written, fun b clear' h =>
    ⟨determines.1 pinned b clear' h, alike pinned b clear' h⟩⟩

/-- Orders with the payments of their items, one join inside the other and one after the other. -/
def nestedPayments : Source :=
  .join .leftOuter (.table "orders" "a")
    (.join .inner (.table "items" "b") (.table "payments" "c") none)
    (some (equalColumns "a" "id" "c" "order"))

def chainedPayments : Source :=
  .join .inner (.join .leftOuter (.table "orders" "a") (.table "items" "b") none)
    (.table "payments" "c") (some (equalColumns "a" "id" "c" "order"))

/-- A join that is nested on the right side of another one has the text of one that follows it. -/
theorem nestedPayments_text_eq_chainedPayments :
    nestedPayments.Clear .hive ∧ chainedPayments.Clear .hive ∧ nestedPayments ≠ chainedPayments ∧
      nestedPayments.render .hive 0 = chainedPayments.render .hive 0 ∧
      nestedPayments.render .hive 0 =
        .ok "orders a\nLEFT OUTER JOIN items b\nJOIN payments c ON a.id = c.order" :=
  ⟨by decide +kernel, by decide +kernel, nofun, rfl, rfl⟩

end Source

end HiveQuery
