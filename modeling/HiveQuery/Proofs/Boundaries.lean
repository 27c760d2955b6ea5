import HiveQuery.Proofs.ExpressionText
/-!
# Where the text of an expression ends

The condition of a join is followed by the next join, or by the condition of a join around it, and
nothing but the words `JOIN`, `LEFT`, `RIGHT`, `FULL`, `CROSS` and `ON` says that it ends there. The
same words may be names of functions, so a reader must know whether it waits for an operand, as
after `=`, or has one, and it must not look into parentheses (`Stage`). The text of every expression
leads such a reader from the one to the other (`Expr.leads_of_render`), on every form of expression
and whatever stands in its subqueries, and a text that does so ends in one place at most
(`cut_of_foldlM`).
-/

namespace HiveQuery

open QueryText

/-! ## The reader -/

/-- Where a reader of an expression stands. -/
inductive Stage where
  /-- An operand must follow. -/
  | awaiting
  /-- An operand is complete. -/
  | complete
  /-- In a parenthesis, and in so many more inside of it. -/
  | inside (depth : ℕ)
  deriving DecidableEq

namespace Stage

/-- The words that begin a join or its condition. -/
def joints : List String := ["JOIN", "LEFT", "RIGHT", "FULL", "CROSS", "ON"]

/-- The words that are an operand, or end one. -/
def operands : List String := ["NULL", "TRUE", "FALSE", "END"]

/-- The words that ask for an operand. -/
def connectives : List String := ["AND", "OR", "LIKE", "IN", "WHEN", "THEN", "ELSE"]

/-- A word of a join ends an expression if an operand is complete, and is a name otherwise. -/
def step : Stage → Token → Option Stage
  | inside depth, .opening => some (inside (depth + 1))
  | inside 0, .closing => some complete
  | inside (depth + 1), .closing => some (inside depth)
  | inside depth, _ => some (inside depth)
  | _, .opening => some (inside 0)
  | _, .closing => none
  | _, .mark _ => some awaiting
  | awaiting, .word text => some (if text ∈ operands then complete else awaiting)
  | complete, .word text =>
    if text ∈ joints then none else some (if text ∈ connectives then awaiting else complete)
  | _, _ => some complete

/-- The reader after all of the tokens. -/
def run (s : Stage) (ts : List Token) : Option Stage :=
  ts.foldlM step s

variable {s s' s'' : Stage} {ts us : List Token}

theorem run_cons (s : Stage) (token : Token) (ts : List Token) :
    s.run (token :: ts) = (s.step token).bind fun s' => s'.run ts :=
  List.foldlM_cons

theorem run_append (h : s.run ts = some s') (h' : s'.run us = some s'') :
    s.run (ts ++ us) = some s'' := by
  rw [run] at h h' ⊢
  rw [List.foldlM_append, h]
  exact h'

/-- Inside of parentheses the reader does nothing but count. -/
theorem step_inside {token : Token} {i j : ℕ} (h : Token.nest i token = some j) :
    (inside i).step token = some (inside j) := by
  cases token with
  | closing =>
    cases i with
    | zero => cases h
    | succ i =>
      obtain rfl := Option.some.inj h
      rfl
  | _ =>
    obtain rfl := Option.some.inj h
    rfl

/-- Inside of a parenthesis nothing but parentheses is looked at. -/
theorem run_inside {i j : ℕ} (h : Token.depth? i ts = some j) :
    (inside i).run ts = some (inside j) := by
  induction ts generalizing i with
  | nil =>
    obtain rfl := Option.some.inj h
    rfl
  | cons token ts ih =>
    rw [Token.depth?_cons] at h
    obtain ⟨k, hnest, hrest⟩ := Option.bind_eq_some_iff.1 h
    rw [run_cons, step_inside hnest, Option.bind_some, ih hrest]

/-- Whether the reader stands outside of parentheses. -/
def isOutside : Stage → Bool
  | inside _ => false
  | _ => true

/-- What a parenthesis holds is not looked into. -/
theorem step_opening (hs : s.isOutside) : s.step .opening = some (inside 0) := by
  cases s with
  | inside => cases hs
  | _ => rfl

/-- A parenthesis with all that it holds is an operand. -/
theorem run_parens (hs : s.isOutside) (h : Token.depth? 0 ts = some 0) :
    s.run (.opening :: (ts ++ [.closing])) = some complete := by
  rw [run_cons, step_opening hs, Option.bind_some]
  exact run_append (run_inside h) rfl

/-- After an operator of two operands the reader waits for the second one. -/
theorem step_operator (op : BinaryOp) : complete.step op.token = some awaiting := by
  cases op <;> decide

end Stage

/-- A phrase of the grammar is an operand. -/
theorem Phrase.run_of_flat {r : ℕ} {ts : List Token} {t : Reading} (h : Phrase r ts t)
    (flat : Token.opening ∉ ts) : Stage.awaiting.run ts = some .complete := by
  induction h with
  | @atom token t h =>
    have completes : Stage.awaiting.step token = some .complete := by
      unfold Token.atom? at h
      split at h <;> first | rfl | cases h
    rw [Stage.run_cons, completes]
    rfl
  | parens => exact absurd List.mem_cons_self flat
  | minus _ ih | not _ ih => exact ih (List.not_mem_of_not_mem_cons flat)
  | @binary op ts us l r _ _ ihl ihr =>
    rw [List.mem_append, List.mem_cons, not_or, not_or] at flat
    refine Stage.run_append (ihl flat.1) ?_
    rw [Stage.run_cons, Stage.step_operator, Option.bind_some, ihr flat.2.2]
  | @isNull ts t negated _ ih =>
    rw [List.mem_append, not_or] at flat
    exact Stage.run_append (ih flat.1) (by cases negated <;> decide)
  | inQuery => simp at flat
  | looser _ ih => exact ih flat

/-- **A text ends in one place.** Two texts that lead a reader to the same place, where neither can
be gone on with, are the same if they are the same with what follows them. -/
theorem cut_of_foldlM {σ : Type} {step : σ → Token → Option σ} {s s' : σ}
    {ts us rest rest' : List Token} (hts : ts.foldlM step s = some s')
    (hus : us.foldlM step s = some s') (hrest : ∀ t ∈ rest.head?, step s' t = none)
    (hrest' : ∀ t ∈ rest'.head?, step s' t = none) (h : ts ++ rest = us ++ rest') :
    ts = us ∧ rest = rest' := by
  -- One of the texts begins with the other one, and what it goes on with is where the reader stops.
  have stops : ∀ {ts us rest rest' : List Token}, ts.foldlM step s = some s' →
      us.foldlM step s = some s' → (∀ t ∈ rest.head?, step s' t = none) → ∀ v, us = ts ++ v →
      rest = v ++ rest' → v = [] := by
    intro ts us rest rest' hts hus hrest v hv hv'
    cases v with
    | nil => rfl
    | cons t v =>
      have stop : step s' t = none := hrest t (by rw [hv']; rfl)
      rw [hv, List.foldlM_append, hts] at hus
      change (step s' t >>= fun s'' => v.foldlM step s'') = some s' at hus
      rw [stop] at hus
      cases hus
  rcases List.append_eq_append_iff.1 h with ⟨v, hv, hv'⟩ | ⟨v, hv, hv'⟩
  · obtain rfl := stops hts hus hrest v hv hv'
    exact ⟨by simpa using hv.symm, by simpa using hv'⟩
  · obtain rfl := stops hus hts hrest' v hv hv'
    exact ⟨by simpa using hv, by simpa using hv'.symm⟩

/-! ## Pieces of a text -/

/-- The text leads a reader of an expression from one place to another. -/
def Leads (text : String) (s s' : Stage) : Prop :=
  ∃ ts, Spells text.toList ts ∧ s.run ts = some s'

namespace Leads

variable {a b : String} {s s' s'' : Stage}

/-- A text that is known leads where the reader arrives by computing. -/
theorem of_scan (h : (Pending.gap.scan a.toList).2.ends = true ∧
    s.run ((Pending.gap.scan a.toList).1 ++ (Pending.gap.scan a.toList).2.tokens) = some s') :
    Leads a s s' :=
  ⟨_, .of_scan ⟨h.1, rfl⟩, h.2⟩

/-- Texts lead a reader one after the other, if the second breaks off the last token of the
first. -/
theorem append (h : Leads a s s') (hb : Breaks b) (h' : Leads b s' s'') :
    Leads (a ++ b) s s'' := by
  obtain ⟨ts, hspells, hrun⟩ := h
  obtain ⟨us, hspells', hrun'⟩ := h'
  obtain ⟨c, hc, hbreak⟩ := hb
  obtain ⟨cs, hcs⟩ := List.head?_eq_some_iff.1 hc
  refine ⟨ts ++ us, ?_, Stage.run_append hrun hrun'⟩
  rw [hcs] at hspells'
  rw [String.toList_append, hcs]
  exact hspells.append hbreak hspells'

theorem space (h : Leads a s s') : Leads (" " ++ a) s s' := by
  obtain ⟨ts, hspells, hrun⟩ := h
  exact ⟨ts, by simpa using hspells.space, hrun⟩

/-- Between two texts a blank is enough. -/
theorem spaced (h : Leads a s s') (h' : Leads b s' s'') : Leads (a ++ " " ++ b) s s'' := by
  rw [String.append_assoc]
  exact h.append ⟨' ', by simp, rfl⟩ h'.space

/-- An operand in parentheses, whatever stands in it. -/
theorem parens (h : Closed a) (hs : s.isOutside) :
    Leads ("(" ++ a ++ ")") s .complete := by
  obtain ⟨ts, hspells, hdepth⟩ := h.exists_spells
  exact ⟨_, by simpa using hspells.parens, Stage.run_parens hs hdepth⟩

/-- The parentheses of a call are passed over, whatever its arguments are. -/
theorem call (h : Leads a s s') (hs : s'.isOutside) (hb : Closed b) :
    Leads (a ++ "(" ++ b ++ ")") s .complete := by
  have whole := h.append ⟨'(', by simp, rfl⟩ (parens hb hs)
  rwa [← String.append_assoc, ← String.append_assoc] at whole

/-- A subquery is an operand, whatever it holds. -/
theorem enclosed (h : Closed a) (indent : ℕ) (hs : s.isOutside) :
    Leads (enclosed indent a) s .complete := by
  -- The line breaks and the indentation belong to what stands in the parentheses.
  have inner : Closed ("\n" ++ a ++ "\n" ++ blanks indent) := fun depth =>
    ((((joins_newline depth).2.piece (h depth)).join (joins_newline depth)).opens
      (opens_blanks indent depth)).stands
  have whole := parens inner hs
  rwa [← String.append_assoc, ← String.append_assoc, ← String.append_assoc] at whole

/-- An operand has a token, so it does not stand in an empty text. -/
theorem toList_ne_nil (h : Leads a .awaiting .complete) : a.toList ≠ [] := by
  obtain ⟨ts, hspells, hrun⟩ := h
  intro hnil
  rw [hnil] at hspells
  obtain ⟨us, m, hpass, -, rfl⟩ := hspells
  obtain ⟨rfl, rfl⟩ := Prod.mk.inj hpass
  cases hrun

/-- An operand is one with or without its parentheses. -/
theorem operandText (h : Leads a .awaiting .complete) (closed : Closed a) (e : Expr) (floor : ℕ) :
    Leads (e.operandText floor a) .awaiting .complete := by
  unfold Expr.operandText
  split
  · exact parens closed rfl
  · exact h

/-- After a minus sign the reader still waits for its operand. -/
theorem minus (h : Leads a .awaiting .complete) (head : a.toList.head? ≠ some '-') :
    Leads ("-" ++ a) .awaiting .complete := by
  have hne := h.toList_ne_nil
  obtain ⟨ts, hspells, hrun⟩ := h
  exact ⟨.mark "-" :: ts, by simpa using hspells.minus hne head, hrun⟩

/-- An operator with one operand is an operand. -/
theorem apply (op : UnaryOp) (h : Leads a .awaiting .complete) (closed : Closed a) :
    Leads (op.apply a) .awaiting .complete := by
  cases op with
  | not =>
    have word : Leads "NOT" .awaiting .awaiting := .of_scan (by decide)
    exact word.spaced h
  | neg =>
    simp only [UnaryOp.apply, beq_iff_eq]
    split_ifs with hhead
    · have whole := (parens closed rfl).minus (by simp)
      rwa [← String.append_assoc, ← String.append_assoc] at whole
    · exact h.minus hhead

/-- The words of a null test come after a complete operand and leave it complete. -/
theorem nullTest (h : Leads a s .complete) (negated : Bool) :
    Leads (a ++ if negated then " IS NOT NULL" else " IS NULL") s .complete := by
  cases negated with
  | false => exact h.append ⟨' ', rfl, rfl⟩ (.of_scan (by decide))
  | true => exact h.append ⟨' ', rfl, rfl⟩ (.of_scan (by decide))

end Leads

/-- A text that begins with a break and goes on an expression, whether or not an operand is complete
before it, and completes one. -/
def Follows (text : String) : Prop :=
  Breaks text ∧ ∀ s : Stage, s.isOutside → Leads text s .complete

namespace Follows

variable {a b : String}

/-- A text that begins with a blank follows, if it does so in either place outside of
parentheses. -/
theorem of_leads (head : a.toList.head? = some ' ') (hawaiting : Leads a .awaiting .complete)
    (hcomplete : Leads a .complete .complete) : Follows a := by
  refine ⟨⟨' ', head, rfl⟩, fun s hs => ?_⟩
  cases s with
  | inside => cases hs
  | awaiting => exact hawaiting
  | complete => exact hcomplete

/-- A word that asks for an operand, and the operand. -/
theorem operand {w : String} (head : w.toList.head? = some ' ')
    (hawaiting : Leads w .awaiting .awaiting) (hcomplete : Leads w .complete .awaiting)
    (ha : Leads a .awaiting .complete) : Follows (w ++ " " ++ a) := by
  refine of_leads ?_ (hawaiting.spaced ha) (hcomplete.spaced ha)
  rw [String.append_assoc, String.toList_append]
  exact List.mem_head?_append_of_mem_head? head

/-- Texts that follow can be put together. -/
theorem append (h : Follows a) (h' : Follows b) : Follows (a ++ b) := by
  obtain ⟨⟨c, hc, hbreak⟩, hleads⟩ := h
  refine ⟨⟨c, ?_, hbreak⟩, fun s hs => (hleads s hs).append h'.1 (h'.2 _ rfl)⟩
  rw [String.toList_append]
  exact List.mem_head?_append_of_mem_head? hc

/-- Texts in a row, and one that follows them. -/
theorem join {texts : List String} (h : ∀ text ∈ texts, Follows text) (hb : Follows b) :
    Follows (String.join texts ++ b) := by
  induction texts with
  | nil => simpa using hb
  | cons text texts ih =>
    rw [List.forall_mem_cons] at h
    rw [String.join_cons, String.append_assoc]
    exact h.1.append (ih h.2)

end Follows

/-! ## Expressions -/

/-- A plain name is one word. -/
theorem spells_plain {name : String} (h : CompilerSettings.isPlainIdentifier name) :
    Spells name.toList [.word name] := by
  obtain ⟨c, cs, hcs, hstart, hall⟩ := Dialect.Marks.exists_cons_of_plain h
  have first := Pending.Passes.begin c
  rw [hstart] at first
  refine ⟨[], .word none name.toList, ?_, rfl, by simp [Pending.tokens]⟩
  rw [hcs]
  exact first.append (.word (fun c' hc' => hall c' (List.mem_cons_of_mem _ hc')) none [c])

namespace Expr

/-- Whether a function that is called has a plain name. -/
def isPlainCall : Expr → Bool
  | call name _ _ => CompilerSettings.isPlainIdentifier name
  | _ => true

/-- The functions that an expression calls outside of its subqueries have plain names. -/
def PlainCalls (e : Expr) : Prop :=
  ∀ x ∈ e.level, x.isPlainCall

instance (e : Expr) : Decidable e.PlainCalls :=
  inferInstanceAs (Decidable (∀ x ∈ e.level, x.isPlainCall))

theorem PlainCalls.own {e : Expr} (h : e.PlainCalls) : e.isPlainCall :=
  h e (mem_level.2 (.inl rfl))

/-- The parts of an expression call no other functions. -/
theorem PlainCalls.part {e p : Expr} (h : e.PlainCalls) (hp : p ∈ e.parts) : p.PlainCalls :=
  fun x hx => h x (mem_level.2 (.inr ⟨p, hp, hx⟩))

end Expr

section

variable {d : Dialect} {indent : ℕ} {text : String} {e : Expr}

theorem Select.closed_of_mem_subqueries (legible : e.Legible d) {q : Select}
    (hq : q ∈ e.subqueries) {place : SelectPlace} (h : q.render d indent place = .ok text) :
    Closed text :=
  closed_of_render (fun n hn => legible n (Expr.nodes_subset_of_mem_subqueries hq hn)) h

/-- The text of a legible expression closes all that it opens. -/
theorem Expr.Legible.closed (legible : e.Legible d) (h : e.render d indent = .ok text) :
    Closed text :=
  closed_of_render legible
    (fun _ hq _ _ _ h => Select.closed_of_mem_subqueries legible hq h) h

/-- A case is an operand: its branches follow each other, and its end completes it. -/
theorem leads_caseWhen {texts : List String} {last : String} (h : ∀ text ∈ texts, Follows text)
    (hlast : last = "" ∨ Follows last) :
    Leads ("CASE" ++ String.join texts ++ last ++ " END") .awaiting .complete := by
  have ends : Follows " END" := .of_leads rfl (.of_scan (by decide)) (.of_scan (by decide))
  have rest : Follows (last ++ " END") := by
    rcases hlast with rfl | hlast
    · exact ends
    · exact hlast.append ends
  have word : Leads "CASE" .awaiting .awaiting := .of_scan (by decide)
  obtain ⟨breaks, leads⟩ := Follows.join h rest
  have whole := word.append breaks (leads .awaiting rfl)
  rwa [← String.append_assoc, ← String.append_assoc] at whole

/-- A branch follows the word that begins the case, and every branch. -/
theorem follows_branch {condition result : String} (hc : Leads condition .awaiting .complete)
    (hr : Leads result .awaiting .complete) :
    Follows (" WHEN " ++ condition ++ " THEN " ++ result) := by
  have when : Follows (" WHEN " ++ condition) :=
    .operand (w := " WHEN") rfl (.of_scan (by decide)) (.of_scan (by decide)) hc
  have then' : Follows (" THEN " ++ result) :=
    .operand (w := " THEN") rfl (.of_scan (by decide)) (.of_scan (by decide)) hr
  rw [String.append_assoc]
  exact when.append then'

/-- **The text of an expression is an operand.** A reader that waits for one and goes over the text
has one, and meets no word of a join on its way that it would take for the end. -/
theorem Expr.leads_of_render (legible : e.Legible d) (plain : e.PlainCalls)
    (h : e.render d indent = .ok text) : Leads text .awaiting .complete := by
  induction e using Expr.parts_induction generalizing text with
  | step e ih =>
    have part : ∀ p ∈ e.parts, ∀ {text}, p.render d indent = .ok text →
        Leads text .awaiting .complete := fun p hp _ => ih p hp (legible.part hp) (plain.part hp)
    have closed : ∀ p ∈ e.parts, ∀ {text}, p.render d indent = .ok text → Closed text :=
      fun p hp _ => (legible.part hp).closed
    have operand : ∀ p ∈ e.parts, ∀ {text}, p.render d indent = .ok text → ∀ floor,
        Leads (p.operandText floor text) .awaiting .complete := fun p hp _ h floor =>
      (part p hp h).operandText (closed p hp h) p floor
    have query : ∀ q ∈ e.query?, ∀ {indent place text}, q.render d indent place = .ok text →
        Closed text := fun q hq _ _ _ => Select.closed_of_mem_subqueries legible (by
      rw [subqueries_eq]
      exact List.mem_append_right _ (Option.mem_toList.2 hq))
    have own := legible.own
    have own' := plain.own
    clear ih
    cases e with
    | column label name =>
      obtain rfl := Except.ok.inj h
      exact ⟨_, own.1.spells_column own.2, rfl⟩
    | literal value =>
      obtain ⟨ts, hspells, -, hparens, hphrase⟩ := Literal.exists_phrase h
      exact ⟨ts, hspells, hphrase.run_of_flat fun hmem => (hparens _ hmem).1 rfl⟩
    | binary op left right =>
      obtain ⟨l, hl, h⟩ := exists_of_bind_eq_ok h
      obtain ⟨r, hr, h⟩ := exists_of_bind_eq_ok h
      obtain rfl := Except.ok.inj h
      have symbol : Leads op.symbol .complete .awaiting :=
        ⟨_, op.spells_symbol, by rw [Stage.run_cons, Stage.step_operator]; rfl⟩
      exact ((operand left (by simp [parts]) hl _).spaced symbol).spaced
        (operand right (by simp [parts]) hr _)
    | unary op x =>
      obtain ⟨t, ht, h⟩ := exists_of_bind_eq_ok h
      obtain rfl := Except.ok.inj h
      have mem : x ∈ (unary op x).parts := by simp [parts]
      exact (operand x mem ht _).apply op (closed_operandText (closed x mem ht))
    | isNull x negated =>
      obtain ⟨t, ht, h⟩ := exists_of_bind_eq_ok h
      obtain rfl := Except.ok.inj h
      exact (operand x (by simp [parts]) ht _).nullTest negated
    | cast x type =>
      obtain ⟨t, ht, h⟩ := exists_of_bind_eq_ok h
      obtain rfl := Except.ok.inj h
      have word : Leads "CAST" .awaiting .awaiting := .of_scan (by decide)
      have whole := word.call rfl
        (closed_renamed (closed x (by simp [parts]) ht) (type.soft_text own).closed)
      rwa [← String.append_assoc, ← String.append_assoc] at whole
    | caseWhen branches otherwise =>
      obtain ⟨texts, htexts, h⟩ := exists_of_bind_eq_ok h
      obtain ⟨written, hwritten, h⟩ := exists_of_bind_eq_ok h
      obtain rfl := Except.ok.inj h
      refine leads_caseWhen (fun t ht => ?_) ?_
      · obtain ⟨b, hb, c, r, hc, hr, rfl⟩ := Branch.exists_of_mem_renderList htexts ht
        have mem : ∀ p ∈ b.parts, p ∈ (caseWhen branches otherwise).parts := fun p hp =>
          List.mem_append_left _ (List.mem_flatMap_of_mem hb hp)
        exact follows_branch (part b.condition (mem _ (by simp)) hc)
          (part b.result (mem _ (by simp)) hr)
      · cases written with
        | none => exact .inl rfl
        | some t =>
          obtain ⟨e, he, hrender⟩ := exists_of_mem_renderOption hwritten rfl
          have last := part e (List.mem_append_right _ (Option.mem_toList.2 he)) hrender
          exact .inr (.operand (w := " ELSE") rfl (.of_scan (by decide)) (.of_scan (by decide))
            last)
    | call name args resource =>
      obtain ⟨texts, htexts, h⟩ := exists_of_bind_eq_ok h
      obtain rfl := Except.ok.inj h
      have listed : Closed (listed texts) := .listed fun t ht => by
        obtain ⟨e, he, hrender⟩ := exists_of_mem_renderList htexts ht
        exact closed e he hrender
      have word : Leads name .awaiting (if name ∈ Stage.operands then .complete else .awaiting) :=
        ⟨_, spells_plain own', rfl⟩
      -- A function may be called `NULL`; its parenthesis then follows an operand.
      exact word.call (by split <;> rfl) listed
    | aggregate function arg distinct =>
      obtain ⟨_, -, h⟩ := exists_of_bind_eq_ok h
      obtain ⟨written, hwritten, h⟩ := exists_of_bind_eq_ok h
      obtain rfl := Except.ok.inj h
      have word : Leads function.text .awaiting .awaiting := by
        cases function <;> exact .of_scan (by decide)
      have inner : Closed (written.getD "*") := by
        cases written with
        | none => exact .quiet "*" (by decide)
        | some t =>
          obtain ⟨e, he, hrender⟩ := exists_of_mem_renderOption hwritten rfl
          exact closed e (Option.mem_toList.2 he) hrender
      have whole := word.call rfl fun depth => (opens_distinct distinct depth).piece (inner depth)
      rwa [← String.append_assoc] at whole
    | rowNumber order =>
      obtain ⟨texts, htexts, h⟩ := exists_of_bind_eq_ok h
      obtain rfl := Except.ok.inj h
      have word : Leads "ROW_NUMBER() OVER " .awaiting .complete := .of_scan (by decide)
      refine word.call rfl ?_
      split
      · exact .empty
      · have terms : Closed (listed texts) := .listed fun t ht => by
          obtain ⟨term, hterm, body, hbody, rfl⟩ := OrderTerm.exists_of_mem_renderList htexts ht
          exact closed_direction (closed term.expr (List.mem_map_of_mem hterm) hbody) _
        have words : ∀ depth, Opens "ORDER BY " depth depth := fun _ =>
          ⟨[.word "ORDER", .word "BY"], by decide, rfl⟩
        exact fun depth => (words depth).piece (terms depth)
    | scalarQuery q =>
      obtain ⟨t, ht, h⟩ := exists_of_bind_eq_ok h
      obtain rfl := Except.ok.inj h
      exact .enclosed (query q rfl ht) indent rfl
    | existsQuery q =>
      obtain ⟨t, ht, h⟩ := exists_of_bind_eq_ok h
      obtain rfl := Except.ok.inj h
      have word : Leads "EXISTS" .awaiting .awaiting := .of_scan (by decide)
      exact word.spaced (.enclosed (query q rfl ht) indent rfl)
    | inQuery x q =>
      obtain ⟨l, hl, h⟩ := exists_of_bind_eq_ok h
      obtain ⟨t, ht, h⟩ := exists_of_bind_eq_ok h
      obtain rfl := Except.ok.inj h
      have word : Leads "IN" .complete .awaiting := .of_scan (by decide)
      have whole := ((operand x (by simp [parts]) hl atomPrecedence).spaced word).spaced
        (.enclosed (query q rfl ht) indent rfl)
      simpa [String.append_assoc] using whole
    | generatedId member =>
      obtain ⟨_, -, h⟩ := exists_of_bind_eq_ok h
      cases h

end

end HiveQuery
