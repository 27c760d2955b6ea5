import HiveQuery.Proofs.Tidy
import HiveQuery.QueryText
/-!
# What a text is made of, and why it cannot be written

The text of a select is made of lines, one for its columns and one for each clause that it has
(`Select.lines_of_render`), and a statement is written query by query
(`Statement.exists_texts_of_render`).

Writing a tree fails at the first node that the dialect cannot express. Whatever the order in which
the nodes are met, the failure is one that a select of the tree is refused with itself
(`Select.accept`), or an expression of it (`Expr.Refused`): this is `Select.unwritable_of_render`.
-/

namespace HiveQuery

variable {d : Dialect} {indent : Nat} {failure : Failure}

/-! ## What is written of a list and of a select -/

section

open QueryText

variable {texts : List String} {text : String}

/-- What succeeds in two steps succeeds in each. -/
theorem exists_of_bind_eq_ok {α β : Type} {x : Except Failure α} {f : α → Except Failure β} {b : β}
    (h : (x >>= f) = .ok b) : ∃ a, x = .ok a ∧ f a = .ok b := by
  cases x with
  | error => cases h
  | ok a => exact ⟨a, rfl, h⟩

/-- A list that is written item by item. -/
theorem exists_of_mem_written {α : Type} (write : α → Except Failure String)
    (writeList : List α → Except Failure (List String)) (hnil : writeList [] = .ok [])
    (hcons : ∀ a as, writeList (a :: as) = do
      let text ← write a
      let texts ← writeList as
      return text :: texts)
    {as : List α} (h : writeList as = .ok texts) (ht : text ∈ texts) :
    ∃ a ∈ as, write a = .ok text := by
  induction as generalizing texts with
  | nil =>
    obtain rfl := Except.ok.inj (hnil.symm.trans h)
    cases ht
  | cons a as ih =>
    rw [hcons] at h
    obtain ⟨first, hfirst, h⟩ := exists_of_bind_eq_ok h
    obtain ⟨rest, hrest, h⟩ := exists_of_bind_eq_ok h
    obtain rfl := Except.ok.inj h
    rcases List.mem_cons.1 ht with rfl | ht
    · exact ⟨a, List.mem_cons_self, hfirst⟩
    · obtain ⟨a', ha', hwrite⟩ := ih hrest ht
      exact ⟨a', List.mem_cons_of_mem _ ha', hwrite⟩

/-- What is written only if it is there. -/
theorem exists_of_mem_writtenOption {α : Type} (write : α → Except Failure String)
    (writeOption : Option α → Except Failure (Option String)) (hnone : writeOption none = .ok none)
    (hsome : ∀ a, writeOption (some a) = do
      let text ← write a
      return some text)
    {o : Option α} {written : Option String} (h : writeOption o = .ok written)
    (ht : text ∈ written) : ∃ a ∈ o, write a = .ok text := by
  cases o with
  | none =>
    obtain rfl := Except.ok.inj (hnone.symm.trans h)
    cases ht
  | some a =>
    rw [hsome] at h
    obtain ⟨t, hwrite, h⟩ := exists_of_bind_eq_ok h
    obtain rfl := Except.ok.inj h
    obtain rfl := Option.some.inj ht
    exact ⟨a, rfl, hwrite⟩

/-- Every text of a list is that of one of its expressions. -/
theorem Expr.exists_of_mem_renderList {es : List Expr} (h : renderList d indent es = .ok texts)
    (ht : text ∈ texts) : ∃ e ∈ es, e.render d indent = .ok text :=
  exists_of_mem_written (render d indent) (renderList d indent) rfl (fun _ _ => rfl) h ht

theorem Expr.exists_of_mem_renderOption {o : Option Expr} {written : Option String}
    (h : renderOption d indent o = .ok written) (ht : text ∈ written) :
    ∃ e ∈ o, e.render d indent = .ok text :=
  exists_of_mem_writtenOption (render d indent) (renderOption d indent) rfl (fun _ => rfl) h ht

theorem Source.exists_of_mem_renderOption {o : Option Source} {written : Option String}
    (h : Source.renderOption d indent o = .ok written) (ht : text ∈ written) :
    ∃ source ∈ o, source.render d indent = .ok text :=
  exists_of_mem_writtenOption (render d indent) (renderOption d indent) rfl (fun _ => rfl) h ht

/-- Every text of branches is made of a condition and a result. -/
theorem Branch.exists_of_mem_renderList {bs : List Branch}
    (h : Branch.renderList d indent bs = .ok texts) (ht : text ∈ texts) :
    ∃ b ∈ bs, ∃ condition result, b.condition.render d indent = .ok condition ∧
      b.result.render d indent = .ok result ∧
      text = " WHEN " ++ condition ++ " THEN " ++ result := by
  let write (b : Branch) : Except Failure String := do
    let condition ← b.condition.render d indent
    let result ← b.result.render d indent
    return " WHEN " ++ condition ++ " THEN " ++ result
  obtain ⟨b, hb, hwrite⟩ := exists_of_mem_written write (renderList d indent) rfl
    (fun ⟨_, _⟩ _ => by simp [renderList, write]) h ht
  obtain ⟨condition, hcondition, hwrite⟩ := exists_of_bind_eq_ok hwrite
  obtain ⟨result, hresult, hwrite⟩ := exists_of_bind_eq_ok hwrite
  exact ⟨b, hb, condition, result, hcondition, hresult, (Except.ok.inj hwrite).symm⟩

/-- Every text of an ordering is that of what a term orders by, with its direction. -/
theorem OrderTerm.exists_of_mem_renderList {ts : List OrderTerm}
    (h : OrderTerm.renderList d indent ts = .ok texts) (ht : text ∈ texts) :
    ∃ t ∈ ts, ∃ body, t.expr.render d indent = .ok body ∧
      text = if t.direction = .descending then body ++ " DESC" else body := by
  let write (t : OrderTerm) : Except Failure String := do
    let body ← t.expr.render d indent
    return if t.direction = .descending then body ++ " DESC" else body
  obtain ⟨t, ht, hwrite⟩ := exists_of_mem_written write (renderList d indent) rfl
    (fun ⟨_, _⟩ _ => by simp [renderList, write]) h ht
  obtain ⟨body, hbody, hwrite⟩ := exists_of_bind_eq_ok hwrite
  exact ⟨t, ht, body, hbody, (Except.ok.inj hwrite).symm⟩

/-- Every text of columns is that of an expression, with the name of the column unless that is left
out. -/
theorem Column.exists_of_mem_renderList {cs : List Column}
    (h : Column.renderList d indent cs = .ok texts) (ht : text ∈ texts) :
    ∃ c ∈ cs, ∃ body, c.expr.render d indent = .ok body ∧
      text = Column.text d c.name c.expr body := by
  let write (c : Column) : Except Failure String := do
    let body ← c.expr.render d indent
    return Column.text d c.name c.expr body
  obtain ⟨c, hc, hwrite⟩ := exists_of_mem_written write (renderList d indent) rfl
    (fun ⟨_, _, _⟩ _ => by simp [renderList, write]) h ht
  obtain ⟨body, hbody, hwrite⟩ := exists_of_bind_eq_ok hwrite
  exact ⟨c, hc, body, hbody, (Except.ok.inj hwrite).symm⟩

namespace Select

variable {s : Select}

/-- What stands after the word of a clause: the source, an expression, a term of the ordering or the
number of rows. -/
inductive Item (s : Select) (d : Dialect) (indent : ℕ) : String → Prop
  | source {source : Source} {text : String} (hsource : source ∈ s.source)
      (h : source.render d indent = .ok text) : Item s d indent text
  | expr {e : Expr} {text : String} (he : e ∈ s.clauses) (h : e.render d indent = .ok text) :
      Item s d indent text
  | term {e : Expr} {text : String} (he : e ∈ s.clauses) (h : e.render d indent = .ok text)
      (direction : Direction) :
      Item s d indent (if direction = .descending then text ++ " DESC" else text)
  | bound (n : ℕ) : Item s d indent n.repr

/-- The words that begin a line, after the one of the columns. -/
def clauseWords : List String :=
  ["FROM", "WHERE", "GROUP BY", "CLUSTER BY", "ORDER BY", "LIMIT"]

/-- **The text of a select, line by line**: one line for its columns and one for each clause that it
has, made of what is written of their parts. The lines `bound` follow, for the number of rows. -/
inductive Lines (s : Select) (d : Dialect) (indent : ℕ) (bound : List String) : String → Prop
  | intro {columns : List String} {source filter : Option String}
      {grouping clustering ordering : List String}
      (hcolumns : Column.renderList d indent s.columns = .ok columns)
      (hsource : Source.renderOption d indent s.source = .ok source)
      (hfilter : Expr.renderOption d indent s.filter = .ok filter)
      (hgrouping : Expr.renderList d indent s.grouping = .ok grouping)
      (hclustering : Expr.renderList d indent s.clustering = .ok clustering)
      (hordering : OrderTerm.renderList d indent s.ordering = .ok ordering) :
      Lines s d indent bound (String.intercalate "\n"
        ((blanks indent ++ "SELECT " ++ (if s.distinct then "DISTINCT " else "") ++ listed columns)
          :: (clause indent "FROM" source.toList
            ++ clause indent "WHERE" filter.toList
            ++ clause indent "GROUP BY" grouping
            ++ clause indent "CLUSTER BY" clustering
            ++ clause indent "ORDER BY" ordering
            ++ bound)))

/-- A text that is written has these lines and no others. -/
theorem lines_of_render {place : SelectPlace} (h : s.render d indent place = .ok text) :
    s.Lines d indent (s.limitClause indent) text := by
  obtain ⟨label, columns, source, filter, ordering, grouping, clustering, distinct, skip, take,
    reversed⟩ := s
  obtain ⟨_, -, h⟩ := exists_of_bind_eq_ok h
  obtain ⟨columnTexts, hcolumns, h⟩ := exists_of_bind_eq_ok h
  obtain ⟨sourceText, hsource, h⟩ := exists_of_bind_eq_ok h
  obtain ⟨filterText, hfilter, h⟩ := exists_of_bind_eq_ok h
  obtain ⟨groupingTexts, hgrouping, h⟩ := exists_of_bind_eq_ok h
  obtain ⟨clusteringTexts, hclustering, h⟩ := exists_of_bind_eq_ok h
  obtain ⟨orderingTexts, hordering, h⟩ := exists_of_bind_eq_ok h
  obtain rfl := Except.ok.inj h
  exact .intro hcolumns hsource hfilter hgrouping hclustering hordering

/-- The line of the columns says each of them, and every other line begins with the word of a
clause. -/
theorem exists_lines_of_render {place : SelectPlace} (h : s.render d indent place = .ok text) :
    ∃ columns lines, text = String.intercalate "\n"
        ((blanks indent ++ "SELECT " ++ (if s.distinct then "DISTINCT " else "") ++ listed columns)
          :: lines) ∧
      (∀ t ∈ columns, ∃ c ∈ s.columns, ∃ body, c.expr.render d indent = .ok body ∧
        t = Column.text d c.name c.expr body) ∧
      ∀ line ∈ lines, ∃ word ∈ clauseWords, ∃ items, (∀ item ∈ items, s.Item d indent item) ∧
        line ∈ clause indent word items := by
  obtain ⟨hcolumns, hsource, hfilter, hgrouping, hclustering, hordering⟩ := lines_of_render h
  refine ⟨_, _, rfl, fun t ht => Column.exists_of_mem_renderList hcolumns ht, ?_⟩
  simp only [List.forall_mem_append]
  refine ⟨⟨⟨⟨⟨fun line hline => ⟨"FROM", by decide, _, fun t ht => ?_, hline⟩,
    fun line hline => ⟨"WHERE", by decide, _, fun t ht => ?_, hline⟩⟩,
    fun line hline => ⟨"GROUP BY", by decide, _, fun t ht => ?_, hline⟩⟩,
    fun line hline => ⟨"CLUSTER BY", by decide, _, fun t ht => ?_, hline⟩⟩,
    fun line hline => ⟨"ORDER BY", by decide, _, fun t ht => ?_, hline⟩⟩,
    fun line hline => ⟨"LIMIT", by decide, _, fun t ht => ?_, hline⟩⟩
  · obtain ⟨source, hs, hrender⟩ :=
      Source.exists_of_mem_renderOption hsource (Option.mem_toList.1 ht)
    exact .source hs hrender
  · obtain ⟨e, he, hrender⟩ := Expr.exists_of_mem_renderOption hfilter (Option.mem_toList.1 ht)
    exact .expr (mem_clauses_of_filter he) hrender
  · obtain ⟨e, he, hrender⟩ := Expr.exists_of_mem_renderList hgrouping ht
    exact .expr (mem_clauses_of_grouping he) hrender
  · obtain ⟨e, he, hrender⟩ := Expr.exists_of_mem_renderList hclustering ht
    exact .expr (mem_clauses_of_clustering he) hrender
  · obtain ⟨term, hterm, body, hbody, rfl⟩ := OrderTerm.exists_of_mem_renderList hordering ht
    exact .term (mem_clauses_of_ordering hterm) hbody _
  · obtain ⟨n, -, rfl⟩ := Option.map_eq_some_iff.1 (Option.mem_toList.1 ht)
    exact .bound n.toNat

end Select

/-- The texts of queries, one for each. -/
theorem Projection.forall₂_of_renderList {ps : List Projection}
    (h : Projection.renderList d ps = .ok texts) :
    List.Forall₂ (fun p text => p.select.render d 0 .top = .ok text) ps texts := by
  induction ps generalizing texts with
  | nil =>
    obtain rfl := Except.ok.inj h
    exact .nil
  | cons p ps ih =>
    obtain ⟨first, hfirst, h⟩ := exists_of_bind_eq_ok h
    obtain ⟨rest, hrest, h⟩ := exists_of_bind_eq_ok h
    obtain rfl := Except.ok.inj h
    exact .cons hfirst (ih hrest)

/-- **The text of a statement** is made of the texts of its queries. -/
theorem Statement.exists_texts_of_render {s : Statement} (h : s.render d = .ok text) :
    ∃ texts, text = String.intercalate ";\n" texts ∧
      List.Forall₂ (fun p text => p.select.render d 0 .top = .ok text) s.queries texts := by
  unfold Statement.render at h
  split at h
  · cases h
  · next p single =>
    rw [single]
    exact ⟨[text], (String.intercalate_singleton ..).symm, .cons h .nil⟩
  · split at h
    · obtain ⟨texts, htexts, h⟩ := exists_of_bind_eq_ok h
      obtain rfl := Except.ok.inj h
      exact ⟨texts, rfl, Projection.forall₂_of_renderList htexts⟩
    · cases h

end

/-! ## Refusals -/

/-- **Why an expression is refused itself**, whatever its parts are. -/
inductive Expr.Refused (d : Dialect) : Expr → Failure → Prop
  | notFinite {x : Binary64} (h : x.isFinite = false) :
      Refused d (.literal (.float x)) (.notFinite x)
  | aggregate {function : AggregateFunction} {arg : Option Expr} {distinct : Bool}
      {failure : Failure} (h : function.accept d arg.isSome distinct = .error failure) :
      Refused d (.aggregate function arg distinct) failure
  | generatedId {member : String} {failure : Failure} (h : d.generatedId member = .error failure) :
      Refused d (.generatedId member) failure
  | generatedIdText {member : String} {id : Expr} (h : d.generatedId member = .ok id) :
      Refused d (.generatedId member) (.noGeneratedIdText d.name member)

/-- A sequence fails exactly if one of its parts does. -/
private theorem bind_eq_error_iff {α β : Type} {x : Except Failure α} {f : α → Except Failure β} :
    (x >>= f) = .error failure ↔
      x = .error failure ∨ ∃ a, x = .ok a ∧ f a = .error failure := by
  cases x <;> simp [bind, Except.bind]

private theorem pure_ne_error {α : Type} {a : α} :
    (pure a : Except Failure α) ≠ .error failure := by
  simp [pure, Except.pure]

/-! ## Lists of parts -/

namespace Expr

/-- A list that cannot be written has an expression that cannot, and fails as that does. -/
theorem exists_of_renderList {es : List Expr} (h : renderList d indent es = .error failure) :
    ∃ e ∈ es, e.render d indent = .error failure := by
  induction es with
  | nil => cases h
  | cons e es ih =>
    rcases bind_eq_error_iff.1 h with h | ⟨text, -, h⟩
    · exact ⟨e, List.mem_cons_self, h⟩
    · rcases bind_eq_error_iff.1 h with h | ⟨texts, -, h⟩
      · obtain ⟨e', he', h⟩ := ih h
        exact ⟨e', List.mem_cons_of_mem _ he', h⟩
      · exact absurd h pure_ne_error

theorem exists_of_renderOption {o : Option Expr} (h : renderOption d indent o = .error failure) :
    ∃ e ∈ o, e.render d indent = .error failure := by
  cases o with
  | none => cases h
  | some e =>
    rcases bind_eq_error_iff.1 h with h | ⟨text, -, h⟩
    · exact ⟨e, rfl, h⟩
    · exact absurd h pure_ne_error

end Expr

/-- Branches fail at a condition or at a result. -/
theorem Branch.exists_of_renderList {bs : List Branch}
    (h : Branch.renderList d indent bs = .error failure) :
    ∃ e ∈ bs.flatMap Branch.parts, e.render d indent = .error failure := by
  induction bs with
  | nil => cases h
  | cons b bs ih =>
    obtain ⟨condition, result⟩ := b
    simp only [List.flatMap_cons, Branch.parts_eq, List.cons_append, List.nil_append]
    rcases bind_eq_error_iff.1 h with h | ⟨_, -, h⟩
    · exact ⟨condition, by simp, h⟩
    rcases bind_eq_error_iff.1 h with h | ⟨_, -, h⟩
    · exact ⟨result, by simp, h⟩
    rcases bind_eq_error_iff.1 h with h | ⟨_, -, h⟩
    · obtain ⟨e, he, h⟩ := ih h
      exact ⟨e, by simp [he], h⟩
    · exact absurd h pure_ne_error

/-- An ordering fails at what a term orders by. -/
theorem OrderTerm.exists_of_renderList {ts : List OrderTerm}
    (h : OrderTerm.renderList d indent ts = .error failure) :
    ∃ e ∈ ts.map (·.expr), e.render d indent = .error failure := by
  induction ts with
  | nil => cases h
  | cons t ts ih =>
    obtain ⟨expr, direction⟩ := t
    rcases bind_eq_error_iff.1 h with h | ⟨_, -, h⟩
    · exact ⟨expr, List.mem_cons_self, h⟩
    rcases bind_eq_error_iff.1 h with h | ⟨_, -, h⟩
    · obtain ⟨e, he, h⟩ := ih h
      exact ⟨e, List.mem_cons_of_mem _ he, h⟩
    · exact absurd h pure_ne_error

/-- Columns fail at their expressions. -/
theorem Column.exists_of_renderList {cs : List Column}
    (h : Column.renderList d indent cs = .error failure) :
    ∃ e ∈ cs.map (·.expr), e.render d indent = .error failure := by
  induction cs with
  | nil => cases h
  | cons c cs ih =>
    obtain ⟨name, expr, type⟩ := c
    rcases bind_eq_error_iff.1 h with h | ⟨_, -, h⟩
    · exact ⟨expr, List.mem_cons_self, h⟩
    rcases bind_eq_error_iff.1 h with h | ⟨_, -, h⟩
    · obtain ⟨e, he, h⟩ := ih h
      exact ⟨e, List.mem_cons_of_mem _ he, h⟩
    · exact absurd h pure_ne_error

/-! ## Expressions and sources -/

/-- The failure of an expression is its own, that of a part or that of its select. -/
theorem Expr.refused_or_of_render {e : Expr} (h : e.render d indent = .error failure) :
    e.Refused d failure ∨ (∃ p ∈ e.parts, p.render d indent = .error failure) ∨
      ∃ q ∈ e.query?, ∃ indent, q.render d indent .expression = .error failure := by
  cases e with
  | column label name => cases h
  | literal value =>
    cases value with
    | float x =>
      simp only [Expr.render, Literal.render] at h
      split at h
      · cases h
      · next infinite =>
        obtain rfl := (Except.error.inj h).symm
        exact .inl (.notFinite (Bool.eq_false_iff.2 infinite))
    | bool b => cases b <;> cases h
    | _ => cases h
  | binary op left right =>
    rcases bind_eq_error_iff.1 h with h | ⟨_, -, h⟩
    · exact .inr (.inl ⟨left, by simp [parts], h⟩)
    rcases bind_eq_error_iff.1 h with h | ⟨_, -, h⟩
    · exact .inr (.inl ⟨right, by simp [parts], h⟩)
    · exact absurd h pure_ne_error
  | unary | isNull | cast =>
    rcases bind_eq_error_iff.1 h with h | ⟨_, -, h⟩
    · exact .inr (.inl ⟨_, List.mem_singleton_self _, h⟩)
    · exact absurd h pure_ne_error
  | caseWhen branches otherwise =>
    rcases bind_eq_error_iff.1 h with h | ⟨_, -, h⟩
    · obtain ⟨p, hp, h⟩ := Branch.exists_of_renderList h
      exact .inr (.inl ⟨p, List.mem_append_left _ hp, h⟩)
    rcases bind_eq_error_iff.1 h with h | ⟨_, -, h⟩
    · obtain ⟨p, hp, h⟩ := exists_of_renderOption h
      exact .inr (.inl ⟨p, List.mem_append_right _ (Option.mem_toList.2 hp), h⟩)
    · exact absurd h pure_ne_error
  | call name args resource =>
    rcases bind_eq_error_iff.1 h with h | ⟨_, -, h⟩
    · exact .inr (.inl (exists_of_renderList h))
    · exact absurd h pure_ne_error
  | aggregate function arg distinct =>
    rcases bind_eq_error_iff.1 h with h | ⟨_, -, h⟩
    · exact .inl (.aggregate h)
    rcases bind_eq_error_iff.1 h with h | ⟨_, -, h⟩
    · obtain ⟨p, hp, h⟩ := exists_of_renderOption h
      exact .inr (.inl ⟨p, Option.mem_toList.2 hp, h⟩)
    · exact absurd h pure_ne_error
  | rowNumber order =>
    rcases bind_eq_error_iff.1 h with h | ⟨_, -, h⟩
    · exact .inr (.inl (OrderTerm.exists_of_renderList h))
    · exact absurd h pure_ne_error
  | scalarQuery query | existsQuery query =>
    rcases bind_eq_error_iff.1 h with h | ⟨_, -, h⟩
    · exact .inr (.inr ⟨query, rfl, _, h⟩)
    · exact absurd h pure_ne_error
  | inQuery operand query =>
    rcases bind_eq_error_iff.1 h with h | ⟨_, -, h⟩
    · exact .inr (.inl ⟨operand, List.mem_singleton_self _, h⟩)
    rcases bind_eq_error_iff.1 h with h | ⟨_, -, h⟩
    · exact .inr (.inr ⟨query, rfl, _, h⟩)
    · exact absurd h pure_ne_error
  | generatedId member =>
    rcases bind_eq_error_iff.1 h with h | ⟨id, hid, h⟩
    · exact .inl (.generatedId h)
    · obtain rfl := (Except.error.inj h).symm
      exact .inl (.generatedIdText hid)

/-- The failure of an expression is that of a node of it or of a subquery. -/
theorem Expr.exists_of_render {e : Expr} (h : e.render d indent = .error failure) :
    (∃ x, .expr x ∈ e.nodes ∧ x.Refused d failure) ∨
      ∃ q ∈ e.subqueries, ∃ indent place, q.render d indent place = .error failure := by
  induction e using Expr.parts_induction with
  | step e ih =>
    rw [Expr.nodes_eq, Expr.subqueries_eq]
    rcases Expr.refused_or_of_render h with own | ⟨p, hp, hpart⟩ | ⟨q, hq, indent, hquery⟩
    · exact .inl ⟨e, List.mem_cons_self, own⟩
    · rcases ih p hp hpart with ⟨x, hx, refused⟩ | ⟨q, hq, below⟩
      · exact .inl ⟨x, List.mem_cons_of_mem _ (List.mem_append_left _
          (List.mem_flatMap_of_mem hp hx)), refused⟩
      · exact .inr ⟨q, List.mem_append_left _ (List.mem_flatMap_of_mem hp hq), below⟩
    · exact .inr ⟨q, List.mem_append_right _ (Option.mem_toList.2 hq), indent, _, hquery⟩

/-- A source fails at one of its subqueries or conditions. -/
theorem Source.exists_of_render {source : Source}
    (h : source.render d indent = .error failure) :
    (∃ q ∈ source.selects, ∃ indent place, q.render d indent place = .error failure) ∨
      ∃ e ∈ source.conditions, e.render d indent = .error failure := by
  induction source using Source.join_induction with
  | table => cases h
  | subquery query =>
    rcases bind_eq_error_iff.1 h with h | ⟨_, -, h⟩
    · exact .inl ⟨query, List.mem_singleton_self _, _, _, h⟩
    · exact absurd h pure_ne_error
  | join kind left right condition ihl ihr =>
    simp only [Source.selects, Source.conditions, List.mem_append, Option.mem_toList] at ihl ihr ⊢
    rcases bind_eq_error_iff.1 h with h | ⟨_, -, h⟩
    · rcases ihl h with ⟨q, hq, below⟩ | ⟨e, he, below⟩
      · exact .inl ⟨q, .inl hq, below⟩
      · exact .inr ⟨e, .inl (.inl he), below⟩
    rcases bind_eq_error_iff.1 h with h | ⟨_, -, h⟩
    · rcases ihr h with ⟨q, hq, below⟩ | ⟨e, he, below⟩
      · exact .inl ⟨q, .inr hq, below⟩
      · exact .inr ⟨e, .inl (.inr he), below⟩
    rcases bind_eq_error_iff.1 h with h | ⟨_, -, h⟩
    · obtain ⟨e, he, below⟩ := Expr.exists_of_renderOption h
      exact .inr ⟨e, .inr he, below⟩
    · exact absurd h pure_ne_error

/-! ## Selects and statements -/

namespace Select

variable {s : Select} {place : SelectPlace}

/-- The failure of a select is its own, that of a select it reads or that of an expression. -/
theorem accept_or_of_render (h : s.render d indent place = .error failure) :
    s.accept d place = .error failure ∨
      (∃ q ∈ s.sources, ∃ indent place, q.render d indent place = .error failure) ∨
      ∃ e ∈ s.conditions ++ s.clauses, e.render d indent = .error failure := by
  obtain ⟨label, columns, source, filter, ordering, grouping, clustering, distinct, skip, take,
    reversed⟩ := s
  simp only [sources, conditions, clauses, List.mem_append, Option.mem_toList]
  rcases bind_eq_error_iff.1 h with h | ⟨_, -, h⟩
  · exact .inl h
  right
  rcases bind_eq_error_iff.1 h with h | ⟨_, -, h⟩
  · obtain ⟨e, he, below⟩ := Column.exists_of_renderList h
    exact .inr ⟨e, .inr (.inl (.inl (.inl (.inl he)))), below⟩
  rcases bind_eq_error_iff.1 h with h | ⟨_, -, h⟩
  · cases source with
    | none => cases h
    | some source =>
      simp only [Option.toList_some, List.flatMap_singleton]
      rcases bind_eq_error_iff.1 h with h | ⟨_, -, h⟩
      · rcases Source.exists_of_render h with below | ⟨e, he, below⟩
        · exact .inl below
        · exact .inr ⟨e, .inl he, below⟩
      · exact absurd h pure_ne_error
  rcases bind_eq_error_iff.1 h with h | ⟨_, -, h⟩
  · obtain ⟨e, he, below⟩ := Expr.exists_of_renderOption h
    exact .inr ⟨e, .inr (.inl (.inl (.inl (.inr he)))), below⟩
  rcases bind_eq_error_iff.1 h with h | ⟨_, -, h⟩
  · obtain ⟨e, he, below⟩ := Expr.exists_of_renderList h
    exact .inr ⟨e, .inr (.inl (.inr he)), below⟩
  rcases bind_eq_error_iff.1 h with h | ⟨_, -, h⟩
  · obtain ⟨e, he, below⟩ := Expr.exists_of_renderList h
    exact .inr ⟨e, .inr (.inr he), below⟩
  rcases bind_eq_error_iff.1 h with h | ⟨_, -, h⟩
  · obtain ⟨e, he, below⟩ := OrderTerm.exists_of_renderList h
    exact .inr ⟨e, .inr (.inl (.inl (.inr he))), below⟩
  · exact absurd h pure_ne_error

/-- **Why a select cannot be written**: a select that it holds is refused, or an expression. -/
inductive Unwritable (d : Dialect) (s : Select) (failure : Failure) : Prop
  | select {q : Select} {place : SelectPlace} (holds : s.Holds q)
      (h : q.accept d place = .error failure)
  | expr {e : Expr} (here : .expr e ∈ s.nodes) (h : e.Refused d failure)

/-- What is wrong with a select below is wrong with the select. -/
theorem Unwritable.of_child {c : Select} (hc : c ∈ s.children) (h : c.Unwritable d failure) :
    s.Unwritable d failure := by
  cases h with
  | select holds h => exact .select (.child hc holds) h
  | expr here h => exact .expr (nodes_subset_of_mem_children hc here) h

/-- **Writing a select fails only for these causes.** -/
theorem unwritable_of_render (h : s.render d indent place = .error failure) :
    s.Unwritable d failure := by
  induction s using children_induction generalizing indent place with
  | step s ih =>
    rcases accept_or_of_render h with own | ⟨q, hq, _, _, below⟩ | ⟨e, he, below⟩
    · exact .select (.self s) own
    · have hc : q ∈ s.children := List.mem_append_left _ (List.mem_append_left _ hq)
      exact (ih q hc below).of_child hc
    · obtain ⟨nodes, children⟩ := subset_of_mem_conditions_or_clauses he
      rcases Expr.exists_of_render below with ⟨x, hx, refused⟩ | ⟨q, hq, _, _, below⟩
      · exact .expr (nodes hx) refused
      · exact (ih q (children hq) below).of_child (children hq)

end Select

/-- A statement fails at the select of one of its queries. -/
theorem Projection.exists_of_renderList {ps : List Projection}
    (h : Projection.renderList d ps = .error failure) :
    ∃ p ∈ ps, p.select.render d 0 .top = .error failure := by
  induction ps with
  | nil => cases h
  | cons p ps ih =>
    rcases bind_eq_error_iff.1 h with h | ⟨_, -, h⟩
    · exact ⟨p, List.mem_cons_self, h⟩
    rcases bind_eq_error_iff.1 h with h | ⟨_, -, h⟩
    · obtain ⟨p', hp', h⟩ := ih h
      exact ⟨p', List.mem_cons_of_mem _ hp', h⟩
    · exact absurd h pure_ne_error

/-- **Writing a statement fails** for the number of its queries or because a query of it cannot be
written. -/
theorem Statement.unwritable_of_render {s : Statement} (h : s.render d = .error failure) :
    (s.queries = [] ∧ failure = .noQuery) ∨
      (d.allowsSeveralQueries = false ∧ failure = .severalQueries d.name s.queries.length) ∨
      ∃ p ∈ s.queries, p.select.Unwritable d failure := by
  unfold Statement.render at h
  split at h
  · next none => exact .inl ⟨none, (Except.error.inj h).symm⟩
  · next p one =>
    exact .inr (.inr ⟨p, by simp [one], Select.unwritable_of_render h⟩)
  · split at h
    · cases hlist : Projection.renderList d s.queries with
      | error failure' =>
        rw [hlist] at h
        obtain rfl := Except.error.inj h
        obtain ⟨p, hp, below⟩ := Projection.exists_of_renderList hlist
        exact .inr (.inr ⟨p, hp, Select.unwritable_of_render below⟩)
      | ok texts =>
        rw [hlist] at h
        cases h
    · next several =>
      exact .inr (.inl ⟨Bool.eq_false_iff.2 several, (Except.error.inj h).symm⟩)

end HiveQuery
