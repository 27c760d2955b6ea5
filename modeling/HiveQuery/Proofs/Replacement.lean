import HiveQuery.QueryText
import HiveQuery.Proofs.MergedScopes
/-!
# Replacing the selects of a tree

A pass that keeps to the selects changes an expression, a source or a select in one way alone: other
selects stand where its subqueries and its source had some. `Expr.Over`, `Source.Over` and
`Select.Over` say that two trees differ so, the selects in the same places being related. What does
not depend on the selects is then the same in both, and what they show is related place by place.
Replacing twice is replacing once (`Expr.Over.trans`), also if columns are lost in between
(`Select.Over.comp`).
-/

namespace HiveQuery

/-! ## Parts that are put in twice -/

namespace Expr

/-- Refilling asks for the number of branches alone. -/
theorem refill_congr {bs bs' : List Branch} (h : bs'.length = bs.length) (ps : List Expr) :
    refill bs' ps = refill bs ps := by
  induction bs generalizing bs' ps with
  | nil =>
    obtain rfl := List.eq_nil_of_length_eq_zero h
    rfl
  | cons b bs ih =>
    cases bs' with
    | nil => cases h
    | cons b' bs' =>
      match ps with
      | [] => rfl
      | [_] => rfl
      | condition :: result :: ps => rw [refill, refill, ih (Nat.succ.inj h) ps]

/-- Refilling keeps the number of branches. -/
theorem length_refill_fst {bs : List Branch} {ps : List Expr}
    (h : (bs.flatMap Branch.parts).length ≤ ps.length) : (refill bs ps).1.length = bs.length := by
  induction bs generalizing ps with
  | nil => simp [refill]
  | cons b bs ih =>
    cases ps with
    | nil => simp at h
    | cons condition ps =>
      cases ps with
      | nil => simp at h
      | cons result ps =>
        simp only [refill, List.length_cons]
        rw [ih (by simpa using h)]

/-- Of terms whose expressions are replaced twice, the second ones stay. -/
theorem zipWith_direction_zipWith {order : List OrderTerm} {ps : List Expr}
    (h : ps.length = order.length) (ps' : List Expr) :
    List.zipWith (fun (t : OrderTerm) p => (⟨p, t.direction⟩ : OrderTerm))
        (List.zipWith (fun (t : OrderTerm) p => (⟨p, t.direction⟩ : OrderTerm)) order ps) ps' =
      List.zipWith (fun (t : OrderTerm) p => (⟨p, t.direction⟩ : OrderTerm)) order ps' := by
  induction order generalizing ps ps' with
  | nil => rfl
  | cons t order ih =>
    cases ps with
    | nil => cases h
    | cons p ps =>
      cases ps' with
      | nil => rfl
      | cons p' ps' =>
        rw [List.zipWith_cons_cons, List.zipWith_cons_cons, List.zipWith_cons_cons,
          ih (Nat.succ.inj h)]

/-- **Of parts that are put in twice, the last stay.** -/
theorem withParts_withParts {e : Expr} {ps ps' : List Expr} {query query' : Option Select}
    (h : e.Fits ps query) (h' : (e.withParts ps query).Fits ps' query') :
    (e.withParts ps query).withParts ps' query' = e.withParts ps' query' := by
  obtain ⟨parts, query?, -⟩ := withParts_spec h
  obtain ⟨hlen, hsome⟩ := h
  obtain ⟨hlen', hsome'⟩ := h'
  rw [parts, hlen] at hlen'
  rw [query?, hsome] at hsome'
  cases e with
  | column | literal | generatedId => rfl
  | scalarQuery | existsQuery =>
    obtain ⟨q, rfl⟩ := Option.isSome_iff_exists.1 hsome
    obtain ⟨q', rfl⟩ := Option.isSome_iff_exists.1 hsome'
    rfl
  | inQuery =>
    obtain ⟨q, rfl⟩ := Option.isSome_iff_exists.1 hsome
    obtain ⟨q', rfl⟩ := Option.isSome_iff_exists.1 hsome'
    obtain ⟨o, rfl⟩ := List.length_eq_one_iff.1 hlen
    obtain ⟨o', rfl⟩ := List.length_eq_one_iff.1 hlen'
    rfl
  | binary =>
    obtain ⟨l, r, rfl⟩ := List.length_eq_two.1 hlen
    obtain ⟨l', r', rfl⟩ := List.length_eq_two.1 hlen'
    rfl
  | unary | isNull | cast =>
    obtain ⟨o, rfl⟩ := List.length_eq_one_iff.1 hlen
    obtain ⟨o', rfl⟩ := List.length_eq_one_iff.1 hlen'
    rfl
  | caseWhen branches otherwise =>
    simp only [Expr.parts, List.length_append] at hlen
    have same : (refill branches ps).1.length = branches.length := length_refill_fst (by omega)
    rw [withParts, withParts, withParts, refill_congr same]
  | call | aggregate => rfl
  | rowNumber order =>
    simp only [Expr.parts, List.length_map] at hlen
    rw [withParts, withParts, withParts, zipWith_direction_zipWith hlen]

end Expr

/-! ## Options related to options -/

section Rel

variable {α β γ : Type} {R S : α → β → Prop} {o : Option α} {o' : Option β}

theorem isSome_of_rel (h : Option.Rel R o o') : o'.isSome = o.isSome := by
  cases h <;> rfl

/-- A relation between options may be weakened at the value that is there. -/
theorem rel_imp_of_mem (h : Option.Rel R o o') (weaken : ∀ a ∈ o, ∀ b, R a b → S a b) :
    Option.Rel S o o' := by
  cases h with
  | none => exact .none
  | some hr => exact .some (weaken _ rfl _ hr)

/-- Relations between options can be chained. -/
theorem rel_comp {T : β → γ → Prop} {o'' : Option γ} (h : Option.Rel R o o')
    (h' : Option.Rel T o' o'') : Option.Rel (fun a c => ∃ b, R a b ∧ T b c) o o'' := by
  cases h with
  | none =>
    cases h'
    exact .none
  | some hr =>
    cases h' with
    | some ht => exact .some ⟨_, hr, ht⟩

theorem rel_same {R : α → α → Prop} (h : ∀ a ∈ o, R a a) : Option.Rel R o o := by
  cases o with
  | none => exact .none
  | some a => exact .some (h a rfl)

end Rel

/-! ## Expressions over related selects -/

/-- The second expression is the first one with other selects in its subqueries, each related to the
one whose place it takes. -/
inductive Expr.Over (R : Select → Select → Prop) : Expr → Expr → Prop
  | intro {e : Expr} {ps : List Expr} {query : Option Select}
      (below : List.Forall₂ (Expr.Over R) e.parts ps) (here : Option.Rel R e.query? query) :
      Over R e (e.withParts ps query)

namespace Expr.Over

variable {R S T : Select → Select → Prop} {e e' e'' : Expr}

/-- **What replacing selects in an expression does**: its parts are those of the first one with
their selects replaced, its own select is related to the first one's, and it refers to the same
column. -/
theorem spec (h : e.Over R e') : List.Forall₂ (Expr.Over R) e.parts e'.parts ∧
    Option.Rel R e.query? e'.query? ∧ e'.ref? = e.ref? := by
  obtain ⟨below, here⟩ := h
  have fits : e.Fits _ _ := ⟨below.length_eq.symm, isSome_of_rel here⟩
  obtain ⟨parts, query?, ref?, -⟩ := withParts_spec fits
  rw [parts, query?]
  exact ⟨below, here, ref?⟩

/-- It refers to the same columns, -/
theorem localRefs (h : e.Over R e') : e'.localRefs = e.localRefs := by
  induction e using parts_induction generalizing e' with
  | step e ih =>
    obtain ⟨below, -, ref⟩ := h.spec
    have parts : List.Forall₂ (· = ·) (e.parts.flatMap Expr.localRefs)
        (e'.parts.flatMap Expr.localRefs) := by
      refine forall₂_flatMap below fun p hp p' part => ?_
      rw [ih p hp part, List.forall₂_eq_eq_eq]
    rw [List.forall₂_eq_eq_eq] at parts
    rw [localRefs_eq e', localRefs_eq e, ref, parts]

/-- and its subqueries are related one by one. -/
theorem subqueries (h : e.Over R e') : List.Forall₂ R e.subqueries e'.subqueries := by
  induction e using parts_induction generalizing e' with
  | step e ih =>
    obtain ⟨below, here, -⟩ := h.spec
    rw [subqueries_eq e, subqueries_eq e']
    exact List.rel_append (forall₂_flatMap below fun p hp p' part => ih p hp part)
      (forall₂_toList here)

/-- The relation need only be weakened at the subqueries of the expression. -/
theorem imp (h : e.Over R e') (weaken : ∀ q ∈ e.subqueries, ∀ q', R q q' → S q q') :
    e.Over S e' := by
  induction e using parts_induction generalizing e' with
  | step e ih =>
    rw [subqueries_eq] at weaken
    simp only [List.forall_mem_append, List.forall_mem_flatMap, Option.mem_toList] at weaken
    obtain ⟨below, here⟩ := h
    exact .intro (forall₂_imp_of_mem below fun p hp p' _ part => ih p hp part (weaken.1 p hp))
      (rel_imp_of_mem here weaken.2)

/-- An expression is over itself if its subqueries are related to themselves. -/
theorem refl (h : ∀ q ∈ e.subqueries, R q q) : e.Over R e := by
  induction e using parts_induction with
  | step e ih =>
    rw [subqueries_eq] at h
    simp only [List.forall_mem_append, List.forall_mem_flatMap, Option.mem_toList] at h
    have parts : List.Forall₂ (Expr.Over R) e.parts e.parts :=
      List.forall₂_same.2 fun p hp => ih p hp (h.1 p hp)
    have whole := Expr.Over.intro parts (rel_same h.2)
    rwa [withParts_self] at whole

/-- Replacing twice is replacing once, by what is related through both. -/
theorem trans (h : e.Over R e') (h' : e'.Over S e'')
    (comp : ∀ q q' q'', R q q' → S q' q'' → T q q'') : e.Over T e'' := by
  induction e using parts_induction generalizing e' e'' with
  | step e ih =>
    obtain @⟨_, ps, query, first, own⟩ := h
    obtain @⟨_, ps', query', second, own'⟩ := h'
    have fits : e.Fits ps query := ⟨first.length_eq.symm, isSome_of_rel own⟩
    have fits' : (e.withParts ps query).Fits ps' query' :=
      ⟨second.length_eq.symm, isSome_of_rel own'⟩
    rw [(withParts_spec fits).1] at second
    rw [(withParts_spec fits).2.1] at own'
    rw [withParts_withParts fits fits']
    refine .intro (forall₂_imp_of_mem (forall₂_comp first second) ?_)
      (rel_imp_of_mem (rel_comp own own') ?_)
    · rintro p hp p'' - ⟨p', part, part'⟩
      exact ih p hp part part'
    · rintro q - q'' ⟨q', hr, hs⟩
      exact comp q q' q'' hr hs

end Expr.Over

/-! ## Sources and selects over related selects -/

/-- The same for a source, where a select may stand for a table as well. -/
inductive Source.Over (R : SelectPlace → Select → Select → Prop) : Source → Source → Prop
  | table (name label : String) : Over R (.table name label) (.table name label)
  | subquery {q q' : Select} (h : R .source q q') : Over R (.subquery q) (.subquery q')
  | join {kind : JoinKind} {left left' right right' : Source} {condition condition' : Option Expr}
      (hl : Over R left left') (hr : Over R right right')
      (hc : Option.Rel (Expr.Over (R .expression)) condition condition') :
      Over R (.join kind left right condition) (.join kind left' right' condition')

namespace Source.Over

variable {R S T : SelectPlace → Select → Select → Prop} {source source' source'' : Source}

/-- The subqueries of the sources are related place by place. -/
theorem selects (h : source.Over R source') :
    List.Forall₂ (R .source) source.selects source'.selects := by
  induction h with
  | table => exact .nil
  | subquery h => exact .cons h .nil
  | join _ _ _ ihl ihr => exact List.rel_append ihl ihr

/-- The conditions are related place by place, each over its own subqueries. -/
theorem conditions (h : source.Over R source') :
    List.Forall₂ (Expr.Over (R .expression)) source.conditions source'.conditions := by
  induction h with
  | table | subquery => exact .nil
  | join _ _ hc ihl ihr => exact List.rel_append (List.rel_append ihl ihr) (forall₂_toList hc)

/-- The same labels are in view, and those of subqueries stand for related selects. -/
theorem frame (h : source.Over R source') :
    List.Forall₂ (Visible.Pairs (R .source)) source.frame source'.frame := by
  induction h with
  | table name label => exact .cons (.table label) .nil
  | subquery h => exact .cons (.select h) .nil
  | join _ _ _ ihl ihr => exact List.rel_append ihr ihl

/-- Replacing selects leaves the tables. -/
theorem tables (h : source.Over R source') : source'.tables = source.tables := by
  induction h with
  | table | subquery => rfl
  | join _ _ _ ihl ihr => rw [Source.tables, Source.tables, ihl, ihr]

/-- The relation need only be weakened at the selects below the source. -/
theorem imp (h : source.Over R source')
    (sources : ∀ q ∈ source.selects, ∀ q', R .source q q' → S .source q q')
    (inner : ∀ e ∈ source.conditions, ∀ q ∈ e.subqueries, ∀ q',
      R .expression q q' → S .expression q q') : source.Over S source' := by
  induction h with
  | table name label => exact .table name label
  | subquery h => exact .subquery (sources _ (List.mem_singleton_self _) _ h)
  | join _ _ hc ihl ihr =>
    simp only [Source.selects, Source.conditions, List.forall_mem_append, Option.mem_toList]
      at sources inner
    exact .join (ihl sources.1 inner.1.1) (ihr sources.2 inner.1.2)
      (rel_imp_of_mem hc fun e he e' part => part.imp (inner.2 e he))

/-- A source is over itself if the selects below it are related to themselves. -/
theorem refl (sources : ∀ q ∈ source.selects, R .source q q)
    (inner : ∀ e ∈ source.conditions, ∀ q ∈ e.subqueries, R .expression q q) :
    source.Over R source := by
  induction source using join_induction with
  | table name label => exact .table name label
  | subquery query => exact .subquery (sources _ (List.mem_singleton_self _))
  | join kind left right condition ihl ihr =>
    simp only [Source.selects, Source.conditions, List.forall_mem_append, Option.mem_toList]
      at sources inner
    exact .join (ihl sources.1 inner.1.1) (ihr sources.2 inner.1.2)
      (rel_same fun e he => .refl (inner.2 e he))

/-- Replacing twice in a source is replacing once. -/
theorem trans (h : source.Over R source') (h' : source'.Over S source'')
    (comp : ∀ place q q' q'', R place q q' → S place q' q'' → T place q q'') :
    source.Over T source'' := by
  induction h generalizing source'' with
  | table name label =>
    cases h'
    exact .table name label
  | subquery h =>
    cases h' with
    | subquery h' => exact .subquery (comp _ _ _ _ h h')
  | join _ _ hc ihl ihr =>
    cases h' with
    | join hl' hr' hc' =>
      exact .join (ihl hl') (ihr hr') (rel_imp_of_mem (rel_comp hc hc')
        fun _ _ _ ⟨_, part, part'⟩ => part.trans part' (comp _))

end Source.Over

/-- The relation between clauses need only be weakened at those of the select. -/
theorem Select.Alike.imp {R S : Expr → Expr → Prop} {s s' : Select} (h : s.Alike R s')
    (weaken : ∀ e ∈ s.clauses, ∀ e', R e e' → S e e') : s.Alike S s' where
  label := h.label
  columns := forall₂_imp_of_mem h.columns fun _ hc _ _ alike =>
    ⟨alike.1, alike.2.1, weaken _ (mem_clauses_of_columns hc) _ alike.2.2⟩
  filter := rel_imp_of_mem h.filter fun e he => weaken e (mem_clauses_of_filter he)
  ordering := forall₂_imp_of_mem h.ordering fun _ ht _ _ alike =>
    ⟨alike.1, weaken _ (mem_clauses_of_ordering ht) _ alike.2⟩
  grouping := forall₂_imp_of_mem h.grouping fun e he e' _ =>
    weaken e (mem_clauses_of_grouping he) e'
  clustering := forall₂_imp_of_mem h.clustering fun e he e' _ =>
    weaken e (mem_clauses_of_clustering he) e'
  distinct := h.distinct
  skip := h.skip
  take := h.take
  reversed := h.reversed

/-- The second select is the first one with other selects below it, each related to the one whose
place it takes. -/
structure Select.Over (R : SelectPlace → Select → Select → Prop) (s s' : Select) : Prop
    extends s.Alike (Expr.Over (R .expression)) s' where
  source : Option.Rel (Source.Over R) s.source s'.source

/-- Of what has been replaced, some has been dropped and the rest replaced again. -/
theorem exists_forall₂_of_sublist {α β : Type} {R : α → β → Prop} {S : β → β → Prop} {as : List α}
    {bs cs ds : List β} (h : List.Forall₂ R as bs) (dropped : cs.Sublist bs)
    (h' : List.Forall₂ S cs ds) :
    ∃ es, List.Forall₂ (fun a b => R a b ∨ ∃ c, R a c ∧ S c b) as es ∧ ds.Sublist es := by
  induction h generalizing cs ds with
  | nil =>
    obtain rfl := List.sublist_nil.1 dropped
    cases h'
    exact ⟨[], .nil, .slnil⟩
  | @cons a b _ _ hr _ ih =>
    cases dropped with
    | cons _ dropped =>
      obtain ⟨es, each, sublist⟩ := ih dropped h'
      exact ⟨b :: es, .cons (.inl hr) each, sublist.cons b⟩
    | cons_cons _ dropped =>
      cases h' with
      | @cons _ d _ _ hs rest =>
        obtain ⟨es, each, sublist⟩ := ih dropped rest
        exact ⟨d :: es, .cons (.inr ⟨b, hr, hs⟩) each, sublist.cons_cons d⟩

namespace Select.Over

variable {R S T : SelectPlace → Select → Select → Prop} {s s₁ s' s₂ : Select}

theorem mirrors (h : s.Over R s₁) : s.Mirrors (Expr.Over (R .expression)) s₁ where
  toAlike := h.toAlike
  conditions := forall₂_flatMap (forall₂_toList h.source) fun _ _ _ part => part.conditions
  tables := by
    have parts : List.Forall₂ (· = ·) s.tables s₁.tables :=
      forall₂_flatMap (forall₂_toList h.source) fun _ _ _ part => by
        rw [part.tables, List.forall₂_eq_eq_eq]
    exact (List.forall₂_eq_eq_eq ▸ parts).symm

/-- The sources of the two selects are related place by place. -/
theorem sources (h : s.Over R s₁) : List.Forall₂ (R .source) s.sources s₁.sources :=
  forall₂_flatMap (forall₂_toList h.source) fun _ _ _ part => part.selects

/-- The clauses and conditions of the two selects are related place by place. -/
theorem exprs (h : s.Over R s₁) : List.Forall₂ (Expr.Over (R .expression)) s.exprs s₁.exprs :=
  List.rel_append h.mirrors.clauses h.mirrors.conditions

/-- The same of the labels that the source of a select puts in view. -/
theorem frame (h : s.Over R s₁) : List.Forall₂ (Visible.Pairs (R .source)) s.frame s₁.frame := by
  have source := h.source
  unfold Select.frame
  generalize s.source = before, s₁.source = after at source
  cases source with
  | none => exact .nil
  | some part => exact part.frame

/-- The relation need only be weakened at the selects directly below. -/
theorem imp (h : s.Over R s₁) (sources : ∀ q ∈ s.sources, ∀ q', R .source q q' → S .source q q')
    (inner : ∀ e ∈ s.exprs, ∀ q ∈ e.subqueries, ∀ q', R .expression q q' → S .expression q q') :
    s.Over S s₁ where
  toAlike := h.toAlike.imp fun e he e' part =>
    part.imp (inner e (List.mem_append_left _ he))
  source := rel_imp_of_mem h.source fun source hs source' part => by
    have below := Option.mem_toList.2 hs
    exact part.imp (fun q hq => sources q (List.mem_flatMap_of_mem below hq))
      fun e he => inner e (List.mem_append_right _ (List.mem_flatMap_of_mem below he))

/-- A select is over itself if the selects directly below it are related to themselves. -/
theorem refl (sources : ∀ q ∈ s.sources, R .source q q)
    (inner : ∀ e ∈ s.exprs, ∀ q ∈ e.subqueries, R .expression q q) : s.Over R s := by
  have clause : ∀ e ∈ s.clauses, e.Over (R .expression) e :=
    fun e he => .refl (inner e (List.mem_append_left _ he))
  refine ⟨⟨rfl, ?_, ?_, ?_, ?_, ?_, rfl, rfl, rfl, rfl⟩, ?_⟩
  · exact List.forall₂_same.2 fun c hc => ⟨rfl, rfl, clause _ (mem_clauses_of_columns hc)⟩
  · exact rel_same fun e he => clause e (mem_clauses_of_filter he)
  · exact List.forall₂_same.2 fun t ht => ⟨rfl, clause _ (mem_clauses_of_ordering ht)⟩
  · exact List.forall₂_same.2 fun e he => clause e (mem_clauses_of_grouping he)
  · exact List.forall₂_same.2 fun e he => clause e (mem_clauses_of_clustering he)
  · refine rel_same fun source hs => ?_
    have below := Option.mem_toList.2 hs
    exact .refl (fun q hq => sources q (List.mem_flatMap_of_mem below hq))
      fun e he => inner e (List.mem_append_right _ (List.mem_flatMap_of_mem below he))

/-- **Replaced, robbed of columns and replaced again** is replaced once and then robbed. -/
theorem comp (h : s.Over R s₁) (drops : s₁.Drops s') (h' : s'.Over S s₂)
    (keep : ∀ place q q', R place q q' → T place q q')
    (both : ∀ place q q' q'', R place q q' → S place q' q'' → T place q q'') :
    ∃ cs, s.Over T { s₂ with columns := cs } ∧ s₂.columns.Sublist cs := by
  obtain ⟨cs, columns, sublist⟩ := exists_forall₂_of_sublist h.columns drops.columns h'.columns
  obtain ⟨kept, rfl⟩ : ∃ kept, s' = { s₁ with columns := kept } := ⟨_, drops.eq⟩
  have again : ∀ e e' : Expr, (∃ e₁, e.Over (R .expression) e₁ ∧ e₁.Over (S .expression) e') →
      e.Over (T .expression) e' := fun e e' ⟨_, part, part'⟩ => part.trans part' (both _)
  refine ⟨cs, ⟨⟨h'.label.trans h.label, columns.imp ?_, ?_, ?_, ?_, ?_,
    h'.distinct.trans h.distinct, h'.skip.trans h.skip, h'.take.trans h.take,
    h'.reversed.trans h.reversed⟩, ?_⟩, sublist⟩
  -- a column that was dropped on the way is replaced once, any other twice
  · rintro c c' (⟨name, type, part⟩ | ⟨c₁, ⟨name, type, part⟩, name', type', part'⟩)
    · exact ⟨name, type, part.imp fun q _ => keep _ q⟩
    · exact ⟨name'.trans name, type'.trans type, part.trans part' (both _)⟩
  · exact rel_imp_of_mem (rel_comp h.filter h'.filter) fun e _ => again e
  · refine (forall₂_comp h.ordering h'.ordering).imp ?_
    rintro t t' ⟨t₁, ⟨direction, part⟩, direction', part'⟩
    exact ⟨direction'.trans direction, part.trans part' (both _)⟩
  · exact (forall₂_comp h.grouping h'.grouping).imp again
  · exact (forall₂_comp h.clustering h'.clustering).imp again
  · refine rel_imp_of_mem (rel_comp h.source h'.source) ?_
    rintro source - source' ⟨source₁, part, part'⟩
    exact part.trans part' both

end Select.Over

end HiveQuery
