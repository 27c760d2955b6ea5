import HiveQuery.Proofs.Frames
import HiveQuery.Proofs.Tidy
import HiveQuery.Proofs.Traversal
/-!
# Transformations that keep trees valid

Three passes are transformations of a tree from below. One gives pages new levels, one renames
references while it merges columns, one drops columns that nothing refers to. That the tree stays
valid is proved for all three at once. A plan says how the references are renamed in a state, which
references there are and which labels are drawn from one state to the next; it governs a
transformation if the action on a single select keeps to it (`Plan.Governs`). Then the whole tree is
carried over (`Plan.Governs.carried`).

Two facts make the induction work. A transformation renames references only under the labels that
the tree declares itself (`Plan.Governs.rename_outside`), so what is renamed below one part of a
tree is no concern of the other parts. And a reference that resolved in a scope resolves, once
renamed, in the scope that the transformed sources make up (`Scope.Leads`).
-/

namespace HiveQuery

open Outcome

/-! ## Plans -/

/-- What a transformation does to names: the renaming of references that a state stands for, the
references that have to be kept, and the labels that are drawn between two states. -/
structure Plan (σ : Type) where
  rename : σ → String × String → String × String
  used : String × String → Prop
  draws : σ → List String → σ → Prop

variable {σ : Type}

/-- **What the action on a select may do**, its parts being transformed: it keeps the select valid,
tidy and under its label, declares no further labels than those it draws, and a used column can be
found under the name that it is renamed to. -/
structure Plan.Acts (plan : Plan σ) (st : σ) (s s' : Select) (st' : σ) : Prop where
  label : s'.label = s.label
  tidy : s'.Everywhere Select.Tidy
  check : ∀ scope, s.check scope = .ok () → s'.check scope = .ok ()
  labels : ∃ drawn, s'.labels.Perm (s.labels ++ drawn) ∧ plan.draws st drawn st'
  shows : ∀ name ∈ s.columnNames, plan.used (s.label, name) →
    (plan.rename st' (s.label, name)).2 ∈ s'.columnNames

/-- A select that is left alone. -/
theorem Plan.Acts.refl {plan : Plan σ} {st : σ} {s : Select}
    (nothing : plan.draws st [] st) (tidy : s.Everywhere Select.Tidy)
    (fresh : ∀ name, plan.rename st (s.label, name) = (s.label, name)) : plan.Acts st s s st where
  label := rfl
  tidy := tidy
  check _ h := h
  labels := ⟨[], by rw [List.append_nil], nothing⟩
  shows name hname _ := by
    rw [fresh]
    exact hname

variable {m : Type → Type} [Monad m] [Outcome m σ]

/-- **A transformation that keeps to a plan.** -/
structure Plan.Governs (plan : Plan σ) (t : Transform m) : Prop where
  label : ∀ st r, (plan.rename st r).1 = r.1
  draws_nil : ∀ st, plan.draws st [] st
  draws_append : ∀ {st xs st₁ ys st₂}, plan.draws st xs st₁ → plan.draws st₁ ys st₂ →
    plan.draws st (xs ++ ys) st₂
  leaf : ∀ e : Expr, e.isLeaf → ∀ st e' st', outcome (t.leaf e) st = .ok (e', st') →
    st' = st ∧ e'.isLeaf ∧ e'.ref? = e.ref?.map (plan.rename st)
  outside : ∀ {depth s st s' st'}, outcome (t.select depth s) st = .ok (s', st') →
    ∀ r : String × String, r.1 ≠ s.label → plan.rename st' r = plan.rename st r
  acts : ∀ {depth s st s' st'}, outcome (t.select depth s) st = .ok (s', st') →
    s.columnNames.Nodup → s.Everywhere Select.Tidy →
    (∀ name, plan.rename st (s.label, name) = (s.label, name)) → plan.Acts st s s' st'

/-- What resolves in one scope resolves, once renamed, in another. -/
def Scope.Leads (f : String × String → String × String) (used : String × String → Prop)
    (scope scope' : Scope) : Prop :=
  ∀ r, used r → scope.error? r = none → scope'.error? (f r) = none

/-- A reference to the innermost frame leads to the frame in its place, any other one further
out. -/
theorem Scope.Leads.cons {f : String × String → String × String} {used : String × String → Prop}
    {frame frame' : Frame} {scope scope' : Scope} (label : ∀ r, (f r).1 = r.1)
    (labels : frame'.map Prod.fst = frame.map Prod.fst) (here : Scope.Leads f used [frame] [frame'])
    (around : Scope.Leads f (fun r => used r ∧ r.1 ∉ frame.map Prod.fst) scope scope') :
    Scope.Leads f used (frame :: scope) (frame' :: scope') := by
  intro r hr resolves
  rw [Scope.error?_cons] at resolves ⊢
  rw [label, labels]
  by_cases own : r.1 ∈ frame.map Prod.fst
  · rw [if_pos own] at resolves ⊢
    exact here r hr resolves
  · rw [if_neg own] at resolves ⊢
    exact around r ⟨hr, own⟩ resolves

variable {plan : Plan σ} {t : Transform m} {depth : Nat} {st st' : σ}

namespace Plan.Governs

variable [LawfulMonad m] (governs : plan.Governs t)
include governs

/-! ## Renaming stays within a tree -/

/-- The references of an expression are renamed as in the first state as long as the subqueries keep
to it. -/
theorem follows {V : String × String → Prop} {st₀ : σ} {e : Expr}
    (queries : ∀ q ∈ e.subqueries, ∀ st q' st', outcome (q.transform t depth) st = .ok (q', st') →
      ∀ r, V r → plan.rename st' r = plan.rename st r) :
    e.Follows t depth (fun st => ∀ r, V r → plan.rename st r = plan.rename st₀ r)
      (fun r r' => V r → r' = plan.rename st₀ r) := by
  refine Expr.follows_transform (fun e hl st e' st' agrees h => ?_) e
    fun q hq st q' st' agrees h => ?_
  · obtain ⟨rfl, hl', href⟩ := governs.leaf e hl st e' st' h
    refine ⟨rfl, hl', ?_⟩
    rw [href]
    cases e.ref? with
    | none => exact .none
    | some r => exact .some fun visible => agrees r visible
  · exact fun r hr => (queries q hq st q' st' h r hr).trans (agrees r hr)

/-- What the renaming of a reference depends on when it is left alone by some selects. -/
theorem rename_of_mapM {es es' : List Expr} {r : String × String}
    (queries : ∀ e ∈ es, ∀ q ∈ e.subqueries, ∀ st q' st',
      outcome (q.transform t depth) st = .ok (q', st') → plan.rename st' r = plan.rename st r)
    (h : outcome (es.mapM (Expr.transform t depth)) st = .ok (es', st')) :
    plan.rename st' r = plan.rename st r := by
  have each : ∀ e ∈ es, e.Follows t depth (fun st₁ => ∀ r', r' = r →
      plan.rename st₁ r' = plan.rename st r') fun r' r'' => r' = r → r'' = plan.rename st r' :=
    fun e he => governs.follows fun q hq st q' st' h _ hr => hr ▸ queries e he q hq st q' st' h
  exact (Expr.Follows.list each (fun _ _ => rfl) h).1 r rfl

theorem rename_of_source {source source' : Source} {r : String × String}
    (selects : ∀ q ∈ source.selects ++ source.conditions.flatMap Expr.subqueries, ∀ st q' st',
      outcome (q.transform t depth) st = .ok (q', st') → plan.rename st' r = plan.rename st r)
    (h : outcome (source.transform t depth) st = .ok (source', st')) :
    plan.rename st' r = plan.rename st r := by
  induction source using Source.join_induction generalizing source' st st' with
  | table =>
    obtain ⟨-, rfl⟩ := outcome_pure_eq_ok_iff.1 h
    rfl
  | subquery query =>
    obtain ⟨query', -, hq⟩ := Source.of_outcome_transform_subquery h
    exact selects query (by simp [Source.selects]) st query' st' hq
  | join kind left right condition ihl ihr =>
    simp only [Source.selects, Source.conditions, List.flatMap_append, List.forall_mem_append,
      List.forall_mem_flatMap] at selects ihl ihr
    obtain ⟨⟨sl, sr⟩, ⟨cl, cr⟩, c⟩ := selects
    obtain ⟨left', right', condition', st₁, st₂, -, hleft, hright, hcondition, -⟩ :=
      Source.of_outcome_transform_join h
    rw [governs.rename_of_mapM c hcondition, ihr ⟨sr, cr⟩ hright, ihl ⟨sl, cl⟩ hleft]

/-- **A transformation renames references only under labels that the tree declares.** -/
theorem rename_outside {s s' : Select} (h : outcome (s.transform t depth) st = .ok (s', st'))
    {r : String × String} (hr : r.1 ∉ s.labels) : plan.rename st' r = plan.rename st r := by
  induction s using Select.children_induction generalizing depth s' st st' with
  | step s ih =>
    have child : ∀ c ∈ s.children, ∀ st c' st',
        outcome (c.transform t (depth + 1)) st = .ok (c', st') →
          plan.rename st' r = plan.rename st r := fun c hc st c' st' h =>
      ih c hc h fun below => hr ((Select.labels_sublist_of_mem_children hc).subset below)
    simp only [Select.children, List.forall_mem_append, List.forall_mem_flatMap] at child
    obtain ⟨⟨sources, conditions⟩, clauses⟩ := child
    rw [Select.transform_eq, outcome_bind_eq_ok_iff] at h
    obtain ⟨s₁, st₂, hparts, hselect⟩ := h
    obtain ⟨st₁, hsource, hclauses, alike⟩ := Select.of_outcome_transformParts hparts
    have own : r.1 ≠ s₁.label := by
      rw [alike.label]
      rintro heq
      exact hr (by rw [Select.labels_eq, heq]; exact List.mem_cons_self)
    have ofSource : plan.rename st₁ r = plan.rename st r := by
      unfold Select.sources at sources
      unfold Select.conditions at conditions
      rcases Source.of_outcome_transformOption hsource with
        ⟨-, -, rfl⟩ | ⟨source, source', hs, -, hsource⟩
      · rfl
      · rw [hs] at sources conditions
        simp only [Option.toList_some, List.flatMap_singleton] at sources conditions
        refine governs.rename_of_source (fun q hq => ?_) hsource
        rcases List.mem_append.1 hq with hq | hq
        · exact sources q hq
        · obtain ⟨e, he, hq⟩ := List.mem_flatMap.1 hq
          exact conditions e he q hq
    rw [governs.outside hselect r own, governs.rename_of_mapM clauses hclauses, ofSource]

end Plan.Governs

/-! ## What is carried over -/

/-- What two parts draw is drawn by both together. -/
theorem perm_append_drawn {as as' bs bs' drawn drawn' : List String}
    (ha : as'.Perm (as ++ drawn)) (hb : bs'.Perm (bs ++ drawn')) :
    (as' ++ bs').Perm (as ++ bs ++ (drawn ++ drawn')) := by
  refine (ha.append hb).trans ?_
  rw [List.append_assoc, List.append_assoc]
  refine List.Perm.append_left _ ?_
  rw [← List.append_assoc, ← List.append_assoc]
  exact List.perm_append_comm.append_right _

/-- The references that a select makes itself have to be kept. -/
def Select.Uses (used : String × String → Prop) (s : Select) : Prop :=
  ∀ e ∈ s.clauses ++ s.conditions, ∀ r ∈ e.localRefs, used r

/-- **A select that is to be transformed** and the scopes in which it stands before and after: it is
valid and tidy, nothing is renamed yet under its labels, and these are not visible from outside. -/
structure Select.Ready (plan : Plan σ) (scope scope' : Scope) (st : σ) (s : Select) : Prop where
  tidy : s.Everywhere Tidy
  uses : s.Everywhere (Uses plan.used)
  labels : s.labels.Nodup
  fresh : ∀ r : String × String, r.1 ∈ s.labels → plan.rename st r = r
  hidden : ∀ r, scope.error? r = none → r.1 ∉ s.labels
  leads : Scope.Leads (plan.rename st) plan.used scope scope'
  check : s.check scope = .ok ()

/-- **A select that has been transformed**: it is what the action on a select makes of one, in the
scope in which it stands then. -/
structure Select.Carried (plan : Plan σ) (scope' : Scope) (st : σ) (s s' : Select) (st' : σ) :
    Prop where
  label : s'.label = s.label
  tidy : s'.Everywhere Tidy
  check : s'.check scope' = .ok ()
  labels : ∃ drawn, s'.labels.Perm (s.labels ++ drawn) ∧ plan.draws st drawn st'
  shows : ∀ name ∈ s.columnNames, plan.used (s.label, name) →
    (plan.rename st' (s.label, name)).2 ∈ s'.columnNames

/-- A select stays ready while others are transformed. -/
theorem Select.Ready.later {scope scope' : Scope} {s : Select} {st₁ : σ}
    (h : s.Ready plan scope scope' st)
    (own : ∀ r : String × String, r.1 ∈ s.labels → plan.rename st₁ r = plan.rename st r)
    (visible : ∀ r, scope.error? r = none → plan.rename st₁ r = plan.rename st r) :
    s.Ready plan scope scope' st₁ where
  tidy := h.tidy
  uses := h.uses
  labels := h.labels
  fresh r hr := (own r hr).trans (h.fresh r hr)
  hidden := h.hidden
  leads r used resolves := by
    rw [visible r resolves]
    exact h.leads r used resolves
  check := h.check

/-- What is below a select that is ready is ready where it is valid, provided that nothing has been
renamed under its labels since and that these are not visible there. -/
theorem Select.Ready.below {scope scope' inner inner' : Scope} {s q : Select} {st₁ : σ}
    (h : s.Ready plan scope scope' st) (hq : q ∈ s.children)
    (own : ∀ r : String × String, r.1 ∈ q.labels → plan.rename st₁ r = plan.rename st r)
    (hidden : ∀ r, inner.error? r = none → r.1 ∉ q.labels)
    (leads : Scope.Leads (plan.rename st₁) plan.used inner inner')
    (check : q.check inner = .ok ()) : q.Ready plan inner inner' st₁ where
  tidy := (Select.everywhere_iff.1 h.tidy).2 q hq
  uses := (Select.everywhere_iff.1 h.uses).2 q hq
  labels := h.labels.sublist (Select.labels_sublist_of_mem_children hq)
  fresh r hr := by
    rw [own r hr]
    exact h.fresh r ((Select.labels_sublist_of_mem_children hq).subset hr)
  hidden := hidden
  leads := leads
  check := check

/-- What is to be shown of a select. -/
def Plan.Carries (plan : Plan σ) (t : Transform m) (q : Select) : Prop :=
  ∀ {depth scope scope' st q' st'}, q.Ready plan scope scope' st →
    outcome (q.transform t depth) st = .ok (q', st') → Select.Carried plan scope' st q q' st'

namespace Plan.Governs

variable [LawfulMonad m] (governs : plan.Governs t) {scope scope' : Scope}
include governs

/-- Selects that are transformed one after another. -/
theorem carried_list {qs qs' : List Select} (ih : ∀ q ∈ qs, plan.Carries t q)
    (ready : ∀ q ∈ qs, q.Ready plan scope scope' st) (labels : (qs.flatMap Select.labels).Nodup)
    (h : outcome (qs.mapM (Select.transform t depth)) st = .ok (qs', st')) :
    (∀ q ∈ qs', q.check scope' = .ok () ∧ q.Everywhere Select.Tidy) ∧
      ∃ drawn, (qs'.flatMap Select.labels).Perm (qs.flatMap Select.labels ++ drawn) ∧
        plan.draws st drawn st' := by
  induction qs generalizing st qs' with
  | nil =>
    obtain ⟨rfl, rfl⟩ := outcome_mapM_nil_eq_ok_iff.1 h
    exact ⟨by simp, [], .nil, governs.draws_nil _⟩
  | cons q qs rest =>
    simp only [List.forall_mem_cons] at ih ready
    rw [List.flatMap_cons, List.nodup_append] at labels
    obtain ⟨-, labels', apart⟩ := labels
    obtain ⟨q', qs', st₁, hq, hqs, rfl⟩ := outcome_mapM_cons_eq_ok_iff.1 h
    have carried := ih.1 ready.1 hq
    have later : ∀ p ∈ qs, p.Ready plan scope scope' st₁ := fun p hp => by
      refine (ready.2 p hp).later (fun r hr => ?_) fun r hr => ?_
      · exact governs.rename_outside hq fun here =>
          apart r.1 here r.1 (List.mem_flatMap_of_mem hp hr) rfl
      · exact governs.rename_outside hq (ready.1.hidden r hr)
    obtain ⟨checks, drawn', perm', draws'⟩ := rest ih.2 later labels' hqs
    obtain ⟨drawn, perm, draws⟩ := carried.labels
    refine ⟨List.forall_mem_cons.2 ⟨⟨carried.check, carried.tidy⟩, checks⟩, drawn ++ drawn', ?_,
      governs.draws_append draws draws'⟩
    rw [List.flatMap_cons, List.flatMap_cons]
    exact perm_append_drawn perm perm'

/-- **Expressions that are transformed one after another** are accepted in the new scope. -/
theorem carried_exprs {es es' : List Expr}
    (ih : ∀ e ∈ es, ∀ q ∈ e.subqueries, plan.Carries t q)
    (ready : ∀ e ∈ es, ∀ q ∈ e.subqueries, q.Ready plan scope scope' st)
    (labels : (es.flatMap Expr.labels).Nodup)
    (hidden : ∀ r, scope.error? r = none → r.1 ∉ es.flatMap Expr.labels)
    (leads : Scope.Leads (plan.rename st) plan.used scope scope')
    (used : ∀ e ∈ es, ∀ r ∈ e.localRefs, plan.used r)
    (resolves : ∀ e ∈ es, ∀ r ∈ e.localRefs, scope.error? r = none)
    (h : outcome (es.mapM (Expr.transform t depth)) st = .ok (es', st')) :
    (∀ e ∈ es', scope'.Accepts e ∧ ∀ q ∈ e.subqueries, q.Everywhere Select.Tidy) ∧
      ∃ drawn, (es'.flatMap Expr.labels).Perm (es.flatMap Expr.labels ++ drawn) ∧
        plan.draws st drawn st' := by
  have flat : ∀ es : List Expr, es.flatMap Expr.labels =
      (es.flatMap Expr.subqueries).flatMap Select.labels := fun es => by
    rw [List.flatMap_assoc]
    exact List.flatMap_congr fun e _ => e.labels_eq_flatMap
  have each : ∀ e ∈ es, e.Follows t depth (fun st₁ => ∀ r, scope.error? r = none →
      plan.rename st₁ r = plan.rename st r)
      fun r r' => scope.error? r = none → r' = plan.rename st r := fun e he =>
    governs.follows fun q hq st₁ q' st₂ h r hr => governs.rename_outside h fun here =>
      hidden r hr (List.mem_flatMap_of_mem he
        ((Expr.labels_sublist_of_mem_subqueries hq).subset here))
  obtain ⟨-, queries, refs⟩ := Expr.Follows.list each (fun _ _ => rfl) h
  rw [flat] at labels
  obtain ⟨checks, drawn, perm, draws⟩ := governs.carried_list
    (fun q hq => by obtain ⟨e, he, hq⟩ := List.mem_flatMap.1 hq; exact ih e he q hq)
    (fun q hq => by obtain ⟨e, he, hq⟩ := List.mem_flatMap.1 hq; exact ready e he q hq)
    labels queries
  rw [flat, flat]
  refine ⟨fun e he => ⟨⟨fun r' hr' => ?_, fun q hq => ?_⟩, fun q hq => ?_⟩, drawn, perm, draws⟩
  · obtain ⟨r, hr, renamed⟩ := exists_of_forall₂_of_mem refs (List.mem_flatMap_of_mem he hr')
    obtain ⟨e₀, he₀, hr⟩ := List.mem_flatMap.1 hr
    rw [renamed (resolves e₀ he₀ r hr)]
    exact leads r (used e₀ he₀ r hr) (resolves e₀ he₀ r hr)
  · exact (checks q (List.mem_flatMap_of_mem he hq)).1
  · exact (checks q (List.mem_flatMap_of_mem he hq)).2

/-- An expression without subqueries has its references renamed and leaves the state alone. -/
theorem of_plain {e e' : Expr} (plain : e.subqueries = [])
    (h : outcome (e.transform t depth) st = .ok (e', st')) :
    st' = st ∧ e'.subqueries = [] ∧ e'.localRefs = e.localRefs.map (plan.rename st) := by
  have follows : e.Follows t depth (fun st₁ => ∀ r, True → plan.rename st₁ r = plan.rename st r)
      fun r r' => True → r' = plan.rename st r := governs.follows fun q hq => by
    rw [plain] at hq
    cases hq
  obtain ⟨-, queries, refs⟩ := follows st e' st' (fun _ _ => rfl) h
  rw [plain] at queries
  obtain ⟨hqueries, hst⟩ := outcome_mapM_nil_eq_ok_iff.1 queries
  have same : List.Forall₂ Eq (e.localRefs.map (plan.rename st)) e'.localRefs :=
    List.forall₂_map_left_iff.2 (refs.imp fun r r' renamed => (renamed trivial).symm)
  rw [List.forall₂_eq_eq_eq] at same
  exact ⟨hst, hqueries, same.symm⟩

theorem of_plain_list {es es' : List Expr} (plain : ∀ e ∈ es, e.subqueries = [])
    (h : outcome (es.mapM (Expr.transform t depth)) st = .ok (es', st')) :
    st' = st ∧ List.Forall₂ (fun e e' : Expr => e'.subqueries = [] ∧
      e'.localRefs = e.localRefs.map (plan.rename st)) es es' := by
  induction es generalizing es' with
  | nil =>
    obtain ⟨rfl, rfl⟩ := outcome_mapM_nil_eq_ok_iff.1 h
    exact ⟨rfl, .nil⟩
  | cons e es ih =>
    rw [List.forall_mem_cons] at plain
    obtain ⟨e', es', st₁, he, hes, rfl⟩ := outcome_mapM_cons_eq_ok_iff.1 h
    obtain ⟨rfl, renamed⟩ := governs.of_plain plain.1 he
    obtain ⟨rfl, rest⟩ := ih plain.2 hes
    exact ⟨rfl, .cons renamed rest⟩

theorem rename_outside_source {source source' : Source}
    (h : outcome (source.transform t depth) st = .ok (source', st')) {r : String × String}
    (hr : r.1 ∉ source.labels) : plan.rename st' r = plan.rename st r := by
  refine governs.rename_of_source (fun q hq st q' st' h => ?_) h
  refine governs.rename_outside h fun here => hr ?_
  rcases List.mem_append.1 hq with hq | hq
  · exact (Source.labels_sublist_of_mem_selects hq).subset here
  · obtain ⟨e, he, hq⟩ := List.mem_flatMap.1 hq
    exact (Source.labels_sublist_of_mem_conditions he).subset
      ((Expr.labels_sublist_of_mem_subqueries hq).subset here)

end Plan.Governs

/-- **A source that has been transformed.** The labels `whole` are those of the source of the
select; a reference of a condition is to the source itself or to none of them. -/
structure Source.Carried (plan : Plan σ) (scope' : Scope) (whole : List String) (st : σ)
    (source source' : Source) (st' : σ) : Prop where
  selects : ∀ q ∈ source'.selects, q.check scope' = .ok () ∧ q.Everywhere Select.Tidy
  labels : ∃ drawn, source'.labels.Perm (source.labels ++ drawn) ∧ plan.draws st drawn st'
  frame : source'.frame.map Prod.fst = source.frame.map Prod.fst
  leads : Scope.Leads (plan.rename st') plan.used [source.frame] [source'.frame]
  conditions : ∀ e' ∈ source'.conditions, e'.subqueries = [] ∧ ∀ r' ∈ e'.localRefs,
    ∃ e ∈ source.conditions, ∃ r ∈ e.localRefs,
      (r.1 ∈ source.labels ∨ r.1 ∉ whole) ∧ r' = plan.rename st' r
  joins : ∀ labels, source.JoinsWithin labels → source'.JoinsWithin labels

/-- What is known of the conditions of a part of a source is known of them in the source, if what
they refer to is not renamed any more. -/
theorem Source.Carried.of_part {scope' : Scope} {whole : List String} {part part' source : Source}
    {st₁ : σ} (h : Source.Carried plan scope' whole st part part' st₁)
    (labels : part.labels ⊆ source.labels) (conditions : part.conditions ⊆ source.conditions)
    (agrees : ∀ r : String × String, r.1 ∈ part.labels ∨ r.1 ∉ whole →
      plan.rename st' r = plan.rename st₁ r) {e' : Expr} (he' : e' ∈ part'.conditions) :
    e'.subqueries = [] ∧ ∀ r' ∈ e'.localRefs, ∃ e ∈ source.conditions, ∃ r ∈ e.localRefs,
      (r.1 ∈ source.labels ∨ r.1 ∉ whole) ∧ r' = plan.rename st' r := by
  obtain ⟨plain, refs⟩ := h.conditions e' he'
  refine ⟨plain, fun r' hr' => ?_⟩
  obtain ⟨e, he, r, hr, place, rfl⟩ := refs r' hr'
  exact ⟨e, conditions he, r, hr, place.imp_left (@labels _), (agrees r place).symm⟩

theorem Source.mem_labels_of_frame {source : Source} {label : String}
    (h : label ∈ source.frame.map Prod.fst) : label ∈ source.labels :=
  source.frame_labels_subperm.subset h

namespace Plan.Governs

variable (governs : plan.Governs t) {scope scope' : Scope}
include governs

theorem carried_subquery {q q' : Select} {whole : List String}
    (carried : Select.Carried plan scope' st q q' st') :
    Source.Carried plan scope' whole st (.subquery q) (.subquery q') st' where
  selects := by
    simp only [Source.selects, List.forall_mem_singleton]
    exact ⟨carried.check, carried.tidy⟩
  labels := by
    simpa only [Source.labels_subquery] using carried.labels
  frame := by simp [Source.frame, carried.label]
  leads r used resolves := by
    have label : r.1 = q.label := by
      simpa [Source.frame] using Frame.mem_labels_of_error? resolves
    obtain ⟨_, name⟩ := r
    obtain rfl := label
    have renamed : plan.rename st' (q.label, name) =
        (q'.label, (plan.rename st' (q.label, name)).2) :=
      Prod.ext ((governs.label st' _).trans carried.label.symm) rfl
    have declared := Scope.mem_columnNames_of_error? resolves
    rw [renamed]
    exact Scope.error?_eq_none_of_mem (by simp [Source.frame]) (List.mem_singleton_self _)
      (carried.shows name declared used)
  conditions := by simp [Source.conditions]
  joins _ _ := trivial

theorem carried_table (name label : String) {whole : List String} :
    Source.Carried plan scope' whole st (.table name label) (.table name label) st where
  selects := by simp [Source.selects]
  labels := ⟨[], by rw [List.append_nil], governs.draws_nil st⟩
  frame := rfl
  leads r _ resolves := by
    rw [← resolves, Scope.error?, Scope.error?, governs.label]
    have found : Scope.find? [(Source.table name label).frame] r.1 = some .table := by
      have hr : r.1 = label := by simpa [Source.frame] using Frame.mem_labels_of_error? resolves
      rw [Scope.find?_singleton, Source.frame, hr, List.lookup_cons_self]
    rw [found]
  conditions := by simp [Source.conditions]
  joins _ h := h

/-- Two sides that share no label, and the condition that joins them. -/
theorem carried_join {kind : JoinKind} {left right left' right' : Source}
    {condition condition' : Option Expr} {whole : List String} {st₁ st₂ : σ}
    (hleft : Source.Carried plan scope' whole st left left' st₁)
    (hright : Source.Carried plan scope' whole st₁ right right' st₂)
    (agrees : ∀ r : String × String, r.1 ∉ right.labels → plan.rename st₂ r = plan.rename st₁ r)
    (sub : (Source.join kind left right condition).labels ⊆ whole)
    (labels : (Source.join kind left right condition).labels.Nodup)
    (plain : ∀ e ∈ condition.toList, e.subqueries = [])
    (joins : (Source.join kind left right condition).JoinsWithin whole)
    (h : List.Forall₂ (fun e e' : Expr => e'.subqueries = [] ∧
      e'.localRefs = e.localRefs.map (plan.rename st₂)) condition.toList condition'.toList) :
    Source.Carried plan scope' whole st (.join kind left right condition)
      (.join kind left' right' condition') st₂ := by
  have plain' : ∀ e' ∈ condition'.toList, e'.subqueries = [] := fun e' he' => by
    obtain ⟨_, -, plain', -⟩ := exists_of_forall₂_of_mem h he'
    exact plain'
  have renamed : ∀ e' ∈ condition'.toList, ∀ r' ∈ e'.localRefs,
      ∃ e ∈ condition, ∃ r ∈ e.localRefs, r' = plan.rename st₂ r := fun e' he' r' hr' => by
    obtain ⟨e, he, -, refs⟩ := exists_of_forall₂_of_mem h he'
    rw [refs] at hr'
    obtain ⟨r, hr, rfl⟩ := List.mem_map.1 hr'
    exact ⟨e, Option.mem_toList.1 he, r, hr, rfl⟩
  have frames : (Source.join kind left' right' none).frame.map Prod.fst =
      (Source.join kind left right none).frame.map Prod.fst := by
    simp only [Source.frame, List.map_append, hleft.frame, hright.frame]
  rw [Source.labels_join] at labels sub
  have apart : ∀ label ∈ left.labels, label ∉ right.labels := fun label hl hr =>
    (List.nodup_append.1 (List.nodup_append.1 labels).1).2.2 label hl label hr rfl
  have outside : ∀ label, label ∉ whole → label ∉ right.labels := fun label absent hr =>
    absent (sub (List.mem_append_left _ (List.mem_append_right _ hr)))
  have sides : Scope.Leads (plan.rename st₂) plan.used [right.frame, left.frame]
      [right'.frame, left'.frame] := by
    refine .cons (governs.label st₂) hright.frame hright.leads ?_
    rintro r ⟨used, -⟩ resolves
    rw [agrees r (apart r.1 (Source.mem_labels_of_frame (Frame.mem_labels_of_error? resolves)))]
    exact hleft.leads r used resolves
  refine ⟨?_, ?_, frames, fun r used resolves => ?_, fun e' he' => ?_, fun ls within => ?_⟩
  · simp only [Source.selects, List.forall_mem_append]
    exact ⟨hleft.selects, hright.selects⟩
  · obtain ⟨drawn, perm, draws⟩ := hleft.labels
    obtain ⟨drawn', perm', draws'⟩ := hright.labels
    refine ⟨drawn ++ drawn', ?_, governs.draws_append draws draws'⟩
    rw [Source.labels_join, Source.labels_join, Expr.flatMap_labels_eq_nil plain,
      Expr.flatMap_labels_eq_nil plain', List.append_nil, List.append_nil]
    exact perm_append_drawn perm perm'
  · rw [Source.frame, Scope.error?_append, ← Scope.error?_cons] at resolves ⊢
    exact sides r used resolves
  · rw [Source.conditions, List.mem_append, List.mem_append] at he'
    rcases he' with (he' | he') | he'
    · -- The right side is done after the condition, but under labels of its own.
      refine hleft.of_part ?_ ?_ (fun r place => agrees r (place.elim (apart r.1) (outside r.1))) he'
      · rw [Source.labels_join, List.append_assoc]
        exact List.subset_append_left _ _
      · rw [Source.conditions, List.append_assoc]
        exact List.subset_append_left _ _
    · refine hright.of_part ?_ ?_ (fun _ _ => rfl) he'
      · rw [Source.labels_join]
        exact List.subset_append_of_subset_left _ (List.subset_append_right _ _)
      · rw [Source.conditions]
        exact List.subset_append_of_subset_left _ (List.subset_append_right _ _)
    · refine ⟨plain' e' he', fun r' hr' => ?_⟩
      obtain ⟨e, he, r, hr, rfl⟩ := renamed e' he' r' hr'
      refine ⟨e, List.mem_append_right _ (Option.mem_toList.2 he), r, hr, ?_, rfl⟩
      refine (joins.2.2 e he r hr).imp_left fun here => ?_
      have declared := Source.mem_labels_of_frame here
      rw [Source.labels_join] at declared ⊢
      exact List.mem_append_left _ (by simpa using declared)
  · obtain ⟨withinLeft, withinRight, here⟩ := within
    refine ⟨hleft.joins ls withinLeft, hright.joins ls withinRight, fun e' he' r' hr' => ?_⟩
    obtain ⟨e, he, r, hr, rfl⟩ := renamed e' (Option.mem_toList.2 he') r' hr'
    rw [governs.label, frames]
    exact here e he r hr

variable [LawfulMonad m]

/-- **A source is carried over if the selects in it are.** -/
theorem carried_source {source source' : Source} {whole : List String}
    (ih : ∀ q ∈ source.selects, plan.Carries t q)
    (ready : ∀ q ∈ source.selects, q.Ready plan scope scope' st)
    (hidden : ∀ r, scope.error? r = none → r.1 ∉ whole) (labels : source.labels.Nodup)
    (sub : source.labels ⊆ whole) (plain : ∀ e ∈ source.conditions, e.subqueries = [])
    (joins : source.JoinsWithin whole)
    (h : outcome (source.transform t depth) st = .ok (source', st')) :
    Source.Carried plan scope' whole st source source' st' := by
  induction source using Source.join_induction generalizing source' st st' with
  | table name label =>
    obtain ⟨rfl, rfl⟩ := outcome_pure_eq_ok_iff.1 h
    exact governs.carried_table name label
  | subquery query =>
    obtain ⟨query', rfl, hq⟩ := Source.of_outcome_transform_subquery h
    have here : query ∈ (Source.subquery query).selects := List.mem_singleton_self _
    exact governs.carried_subquery (ih query here (ready query here) hq)
  | join kind left right condition ihl ihr =>
    have labelled := labels
    have covered := sub
    rw [Source.labels_join] at labels sub
    obtain ⟨labelsLeft, labelsRight, apart⟩ := List.nodup_append.1 (List.nodup_append.1 labels).1
    have subBoth := (List.append_subset.1 (List.append_subset.1 sub).1)
    simp only [Source.selects, Source.conditions, List.forall_mem_append] at ih ready plain
    obtain ⟨left', right', condition', st₁, st₂, rfl, hleft, hright, hcondition, -⟩ :=
      Source.of_outcome_transform_join h
    have carriedLeft := ihl ih.1 ready.1 labelsLeft subBoth.1 plain.1.1 joins.1 hleft
    have later : ∀ q ∈ right.selects, q.Ready plan scope scope' st₁ := fun q hq => by
      refine (ready.2 q hq).later (fun r hr => ?_) fun r hr => ?_
      · have onRight := (Source.labels_sublist_of_mem_selects hq).subset hr
        exact governs.rename_outside_source hleft fun onLeft => apart _ onLeft _ onRight rfl
      · exact governs.rename_outside_source hleft fun onLeft => hidden r hr (subBoth.1 onLeft)
    have carriedRight := ihr ih.2 later labelsRight subBoth.2 plain.1.2 joins.2.1 hright
    obtain ⟨rfl, related⟩ := governs.of_plain_list plain.2 hcondition
    exact governs.carried_join carriedLeft carriedRight
      (fun r hr => governs.rename_outside_source hright hr) covered labelled plain.2 joins related

end Plan.Governs

/-- What a select sees of its source after the source has been transformed. -/
structure Select.SourceCarried (plan : Plan σ) (scope' : Scope) (st : σ) (s s₁ : Select) (st₁ : σ) :
    Prop where
  sources : ∀ q ∈ s₁.sources, q.check scope' = .ok () ∧ q.Everywhere Tidy
  labels : ∃ drawn, (s₁.source.toList.flatMap Source.labels).Perm
    (s.source.toList.flatMap Source.labels ++ drawn) ∧ plan.draws st drawn st₁
  leads : Scope.Leads (plan.rename st₁) plan.used [s.frame] [s₁.frame]
  frame : s₁.frame.map Prod.fst = s.frame.map Prod.fst
  outside : ∀ r : String × String, r.1 ∉ s.source.toList.flatMap Source.labels →
    plan.rename st₁ r = plan.rename st r
  conditions : ∀ e' ∈ s₁.conditions, e'.subqueries = [] ∧ ∀ r' ∈ e'.localRefs,
    ∃ e ∈ s.conditions, ∃ r ∈ e.localRefs, r' = plan.rename st₁ r
  joins : ∀ source ∈ s₁.source, source.JoinsWithin (source.frame.map Prod.fst)

/-- A label that a source declares is one that the select declares. -/
theorem Select.labels_of_source_subset (s : Select) :
    s.source.toList.flatMap Source.labels ⊆ s.labels := by
  rw [Select.labels_eq]
  exact List.subset_cons_of_subset _ (List.subset_append_left _ _)

theorem Select.mem_labels_of_frame {s : Select} {label : String}
    (h : label ∈ s.frame.map Prod.fst) : label ∈ s.source.toList.flatMap Source.labels := by
  rw [Select.frame] at h
  cases hs : s.source with
  | none => simp [hs, Source.frameOption] at h
  | some source =>
    rw [hs] at h
    simpa using Source.mem_labels_of_frame h

/-- The labels that the clauses of a select declare are not visible to them. -/
theorem Select.Ready.hidden_clauses {scope scope' : Scope} {s : Select}
    (h : s.Ready plan scope scope' st) {r : String × String}
    (resolves : Scope.error? (s.frame :: scope) r = none) :
    r.1 ∉ s.clauses.flatMap Expr.labels := by
  intro here
  have labels := h.labels
  rw [Select.labels_eq, List.nodup_cons] at labels
  rw [Scope.error?_cons] at resolves
  by_cases own : r.1 ∈ s.frame.map Prod.fst
  · exact (List.nodup_append.1 labels.2).2.2 _ (Select.mem_labels_of_frame own) _ here rfl
  · rw [if_neg own] at resolves
    refine h.hidden r resolves ?_
    rw [Select.labels_eq]
    exact List.mem_cons_of_mem _ (List.mem_append_right _ here)

theorem Source.JoinsWithin.imp {labels labels' : List String} {source : Source}
    (h : source.JoinsWithin labels)
    (outside : ∀ e ∈ source.conditions, ∀ r ∈ e.localRefs, r.1 ∉ labels → r.1 ∉ labels') :
    source.JoinsWithin labels' := by
  induction source using Source.join_induction with
  | table | subquery => trivial
  | join kind left right condition ihl ihr =>
    simp only [Source.conditions, List.forall_mem_append, Option.mem_toList] at outside
    obtain ⟨hl, hr, here⟩ := h
    exact ⟨ihl hl outside.1.1, ihr hr outside.1.2,
      fun e he r hr => (here e he r hr).imp id (outside.2 e he r hr)⟩

namespace Plan.Governs

variable [LawfulMonad m] (governs : plan.Governs t) {scope scope' : Scope}
include governs

theorem sourceCarried {s s₁ : Select} {st₁ : σ} (ih : ∀ c ∈ s.children, plan.Carries t c)
    (ready : s.Ready plan scope scope' st)
    (h : outcome (Source.transformOption t depth s.source) st = .ok (s₁.source, st₁)) :
    Select.SourceCarried plan scope' st s s₁ st₁ := by
  have tidy := (Select.everywhere_iff.1 ready.tidy).1
  have checks := Select.check_eq_ok_iff.1 ready.check
  rcases Source.of_outcome_transformOption h with
    ⟨hs, hs₁, rfl⟩ | ⟨source, source', hs, hs₁, hsource⟩
  · have same : s₁.frame = s.frame := by rw [Select.frame, Select.frame, hs, hs₁]
    refine ⟨?_, ⟨[], ?_, governs.draws_nil _⟩, ?_, by rw [same], fun _ _ => rfl, ?_, ?_⟩
    · simp [Select.sources, hs₁]
    · simp [hs₁, hs]
    · intro r _ resolves
      rw [Select.frame, hs] at resolves
      cases Frame.mem_labels_of_error? resolves
    · simp [Select.conditions, hs₁]
    · simp [hs₁]
  · have inSource : source ∈ s.source.toList := Option.mem_toList.2 hs
    have labels : s.source.toList.flatMap Source.labels = source.labels := by simp [hs]
    have frame : s.frame = source.frame := by rw [Select.frame, hs, Source.frameOption]
    have frame' : s₁.frame = source'.frame := by rw [Select.frame, hs₁, Source.frameOption]
    have child : ∀ q ∈ source.selects, q ∈ s.children := fun q hq =>
      tidy.mem_children_iff.2 (.inl (List.mem_flatMap_of_mem inSource hq))
    have inConditions : ∀ e ∈ source.conditions, e ∈ s.conditions := fun e he =>
      List.mem_flatMap_of_mem inSource he
    have hidden : ∀ r, scope.error? r = none → r.1 ∉ source.labels := fun r hr here =>
      ready.hidden r hr (s.labels_of_source_subset (labels ▸ here))
    have each : ∀ q ∈ source.selects, q.Ready plan scope scope' st := fun q hq =>
      ready.below (child q hq) (fun _ _ => rfl)
        (fun r hr here => hidden r hr ((Source.labels_sublist_of_mem_selects hq).subset here))
        ready.leads (checks.sources q (List.mem_flatMap_of_mem inSource hq))
    have nodup : source.labels.Nodup := by
      have all := ready.labels
      rw [Select.labels_eq, labels] at all
      exact (List.nodup_append.1 (List.nodup_cons.1 all).2).1
    -- A reference of a condition that is not to the source is to what is around the select.
    have joins : source.JoinsWithin source.labels := by
      refine (tidy.joins source hs).imp fun e he r hr outside => ?_
      have resolves := (checks.conditions e (inConditions e he)).resolves r hr
      rw [frame, Scope.error?_cons, if_neg outside] at resolves
      exact hidden r resolves
    have carried := governs.carried_source (fun q hq => ih q (child q hq)) each hidden nodup
      (List.Subset.refl _) (fun e he => tidy.conditions e (inConditions e he)) joins hsource
    refine ⟨?_, ?_, ?_, ?_, ?_, ?_, ?_⟩
    · simpa [Select.sources, hs₁] using carried.selects
    · simpa [hs₁, hs] using carried.labels
    · rw [frame, frame']
      exact carried.leads
    · rw [frame, frame']
      exact carried.frame
    · rw [labels]
      exact fun r hr => governs.rename_outside_source hsource hr
    · simp only [Select.conditions, hs₁, Option.toList_some, List.flatMap_singleton]
      intro e' he'
      obtain ⟨plain, refs⟩ := carried.conditions e' he'
      refine ⟨plain, fun r' hr' => ?_⟩
      obtain ⟨e, he, r, hr, -, renamed⟩ := refs r' hr'
      exact ⟨e, by simpa [hs] using he, r, hr, renamed⟩
    · intro src hsrc
      obtain rfl := Option.some.inj (hs₁.symm.trans hsrc)
      rw [carried.frame]
      exact carried.joins _ (tidy.joins source hs)

section Clauses

/-! What follows for the clauses of a select whose source has been transformed. -/

variable {s s₁ : Select} {st₁ : σ} (ready : s.Ready plan scope scope' st)
  (src : Select.SourceCarried plan scope' st s s₁ st₁)
include ready src

omit [LawfulMonad m] in
theorem leads_clauses :
    Scope.Leads (plan.rename st₁) plan.used (s.frame :: scope) (s₁.frame :: scope') := by
  refine .cons (governs.label st₁) src.frame src.leads ?_
  rintro r ⟨used, -⟩ resolves
  rw [src.outside r fun here => ready.hidden r resolves (s.labels_of_source_subset here)]
  exact ready.leads r used resolves

omit [LawfulMonad m] in
theorem ready_clauses {e : Expr} (he : e ∈ s.clauses) {q : Select} (hq : q ∈ e.subqueries) :
    q.Ready plan (s.frame :: scope) (s₁.frame :: scope') st₁ := by
  have inClauses : q.labels ⊆ s.clauses.flatMap Expr.labels := fun _ here =>
    List.mem_flatMap_of_mem he ((Expr.labels_sublist_of_mem_subqueries hq).subset here)
  have labels := ready.labels
  rw [Select.labels_eq, List.nodup_cons] at labels
  refine ready.below (List.mem_append_right _ (List.mem_flatMap_of_mem he hq)) (fun r hr => ?_)
    (fun r hr here => ready.hidden_clauses hr (inClauses here)) (governs.leads_clauses ready src)
    (((Select.check_eq_ok_iff.1 ready.check).clauses e he).queries q hq)
  exact src.outside r fun here => (List.nodup_append.1 labels.2).2.2 _ here _ (inClauses hr) rfl

/-- Nothing is renamed under the label of the select before its own action. -/
theorem rename_own {es : List Expr}
    (h : outcome (s.clauses.mapM (Expr.transform t depth)) st₁ = .ok (es, st')) (name : String) :
    plan.rename st' (s.label, name) = (s.label, name) := by
  have labels := ready.labels
  rw [Select.labels_eq, List.nodup_cons, List.mem_append, not_or] at labels
  have kept : plan.rename st' (s.label, name) = plan.rename st₁ (s.label, name) :=
    governs.rename_of_mapM (fun e he q hq stq q' stq' hq' => governs.rename_outside hq'
      fun here => labels.1.2 (List.mem_flatMap_of_mem he
        ((Expr.labels_sublist_of_mem_subqueries hq).subset here))) h
  have mem : s.label ∈ s.labels := by rw [Select.labels_eq]; exact List.mem_cons_self
  rw [kept, src.outside _ labels.1.1, ready.fresh _ mem]

end Clauses

/-- What is known of a select once its parts are transformed. -/
theorem carried_parts {s s₁ : Select} (ih : ∀ c ∈ s.children, plan.Carries t c)
    (ready : s.Ready plan scope scope' st)
    (h : outcome (s.transformParts t depth) st = .ok (s₁, st')) :
    s₁.label = s.label ∧ s₁.columnNames = s.columnNames ∧
      (∀ name, plan.rename st' (s.label, name) = (s.label, name)) ∧
      s₁.Everywhere Select.Tidy ∧ s₁.check scope' = .ok () ∧
      ∃ drawn, s₁.labels.Perm (s.labels ++ drawn) ∧ plan.draws st drawn st' := by
  have tidy := (Select.everywhere_iff.1 ready.tidy).1
  have uses := (Select.everywhere_iff.1 ready.uses).1
  have checks := Select.check_eq_ok_iff.1 ready.check
  obtain ⟨st₁, hsource, hclauses, alike⟩ := Select.of_outcome_transformParts h
  have src := governs.sourceCarried ih ready hsource
  have leads := governs.leads_clauses ready src
  have nodup : (s.clauses.flatMap Expr.labels).Nodup := by
    have all := ready.labels
    rw [Select.labels_eq, List.nodup_cons] at all
    exact (List.nodup_append.1 all.2).2.1
  obtain ⟨accepted, drawn', perm', draws'⟩ := governs.carried_exprs
    (fun e he q hq => ih q (List.mem_append_right _ (List.mem_flatMap_of_mem he hq)))
    (fun e he q hq => governs.ready_clauses ready src he hq) nodup
    (fun r hr => ready.hidden_clauses hr) leads (fun e he => uses e (List.mem_append_left _ he))
    (fun e he => (checks.clauses e he).resolves) hclauses
  obtain ⟨drawn, perm, draws⟩ := src.labels
  have tidy₁ : s₁.Tidy := by
    refine ⟨fun e' he' => ?_, fun e' he' => (src.conditions e' he').1, src.joins⟩
    obtain ⟨e, he, stₑ, stₑ', htransform⟩ := alike.exists_of_mem_others he'
    exact (governs.of_plain (tidy.others e he) htransform).2.1
  refine ⟨alike.label, alike.columnNames, governs.rename_own ready src hclauses,
    Select.everywhere_iff.2 ⟨tidy₁, fun c hc => ?_⟩,
    Select.check_eq_ok_iff.2 ⟨alike.columnNames ▸ checks.names, fun q hq => (src.sources q hq).1,
      fun e he => (accepted e he).1,
      fun e' he' => ⟨fun r' hr' => ?_, fun q hq => ?_⟩⟩, drawn ++ drawn', ?_,
    governs.draws_append draws draws'⟩
  · rcases tidy₁.mem_children_iff.1 hc with hc | ⟨e, he, hc⟩
    · exact (src.sources c hc).2
    · exact (accepted e (Select.mem_clauses_of_filter he)).2 c hc
  · obtain ⟨-, refs⟩ := src.conditions e' he'
    obtain ⟨e, he, r, hr, rfl⟩ := refs r' hr'
    exact leads r (uses e (List.mem_append_right _ he) r hr)
      ((checks.conditions e he).resolves r hr)
  · rw [(src.conditions e' he').1] at hq
    cases hq
  · rw [Select.labels_eq, Select.labels_eq, alike.label, List.cons_append]
    exact (perm_append_drawn perm perm').cons _

/-- **A transformation that keeps to a plan carries every select over.** -/
theorem carried (s : Select) : plan.Carries t s := by
  induction s using Select.children_induction with
  | step s ih =>
    intro depth scope scope' st s' st' ready h
    rw [Select.transform_eq, outcome_bind_eq_ok_iff] at h
    obtain ⟨s₁, st₁, hparts, hselect⟩ := h
    obtain ⟨label, names, fresh, tidy, check, drawn, perm, draws⟩ :=
      governs.carried_parts ih ready hparts
    have checks := Select.check_eq_ok_iff.1 check
    have acts := governs.acts hselect checks.names tidy (label ▸ fresh)
    obtain ⟨drawn', perm', draws'⟩ := acts.labels
    refine ⟨acts.label.trans label, acts.tidy, acts.check scope' check,
      ⟨drawn ++ drawn', ?_, governs.draws_append draws draws'⟩, ?_⟩
    · rw [← List.append_assoc]
      exact perm'.trans (perm.append_right drawn')
    · rw [← label, ← names]
      exact acts.shows

end Plan.Governs

/-! ## Queries -/

/-- **A query that has been transformed** is sound, and what was declared for its projector can be
found. -/
structure Projection.Carried (plan : Plan σ) (st : σ) (p p' : Projection) (st' : σ) : Prop where
  sound : p'.Sound
  label : p'.select.label = p.select.label
  draws : ∃ drawn, plan.draws st drawn st'
  shows : ∃ st₁, ∀ name ∈ p.select.columnNames, plan.used (p.select.label, name) →
    (plan.rename st₁ (p.select.label, name)).2 ∈ p'.select.columnNames

/-- **A sound query stays sound** under a transformation that keeps to a plan, if the labels that
are drawn are new. -/
theorem Plan.Governs.carried_query [LawfulMonad m] (governs : plan.Governs t) {p p' : Projection}
    (h : p.Sound)
    (uses : p.select.Everywhere (Select.Uses plan.used))
    (usesProjector : ∀ e ∈ p.projector.exprs, ∀ r ∈ e.localRefs, plan.used r)
    (fresh : ∀ r : String × String, r.1 ∈ p.select.labels → plan.rename st r = r)
    (draws : ∀ drawn st', plan.draws st drawn st' → (p.select.labels ++ drawn).Nodup)
    (hp : outcome (p.transform t) st = .ok (p', st')) :
    Projection.Carried plan st p p' st' := by
  have nothing : ∀ r, Scope.error? [] r ≠ none := fun r hr => by cases hr
  have ready : p.select.Ready plan [] [] st :=
    ⟨h.tidy, uses, h.nodup_labels, fresh, fun r hr => absurd hr (nothing r),
      fun r _ hr => absurd hr (nothing r), h.checks.select⟩
  obtain ⟨st₁, hselect, hp⟩ := Projection.of_outcome_transform hp
  have hprojector := Projector.of_outcome_transform hp
  have carried := governs.carried p.select ready hselect
  obtain ⟨drawn, perm, drawsSelect⟩ := carried.labels
  have source : Source.Carried plan [] [] st (.subquery p.select) (.subquery p'.select) st₁ :=
    governs.carried_subquery carried
  have none : p.projector.exprs.flatMap Expr.labels = [] := Expr.flatMap_labels_eq_nil h.projector
  obtain ⟨accepted, drawn', perm', drawsProjector⟩ := governs.carried_exprs
    (fun e he q hq => by rw [h.projector e he] at hq; cases hq)
    (fun e he q hq => by rw [h.projector e he] at hq; cases hq)
    (by rw [none]; exact List.nodup_nil) (by simp [none]) source.leads usesProjector
    h.checks.projector hprojector
  have plain : ∀ e ∈ p'.projector.exprs, e.subqueries = [] := by
    intro e' he'
    obtain ⟨e, he, stₑ, stₑ', htransform⟩ :=
      exists_of_forall₂_of_mem (forall₂_of_outcome_mapM hprojector) he'
    exact (governs.of_plain (h.projector e he) htransform).2.1
  refine ⟨⟨⟨?_, carried.check, fun e he => (accepted e he).1.resolves⟩, carried.tidy, plain⟩,
    carried.label, ⟨drawn ++ drawn', governs.draws_append drawsSelect drawsProjector⟩, st₁,
    carried.shows⟩
  rw [Projection.labels_eq, Expr.flatMap_labels_eq_nil plain, List.append_nil, perm.nodup_iff]
  exact draws drawn st₁ drawsSelect

end HiveQuery
