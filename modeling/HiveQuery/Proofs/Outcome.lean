import HiveQuery.Trace
import Mathlib.Data.List.Forall2
/-!
# Outcomes

Passes run in different monads. What matters of a run is its outcome: a failure, or a result with
the state it leaves behind. This file has the few laws by which a run is taken apart, for a
sequence, for going through a list and for going through the queries of a statement.
-/

namespace HiveQuery

/-! ## Success -/

section

variable {α : Type}

@[simp] theorem isOk_ok (a : α) : (.ok a : Except Failure α).isOk = true :=
  rfl

@[simp] theorem isOk_error (failure : Failure) :
    (.error failure : Except Failure α).isOk = false :=
  rfl

/-- Success is there being a result. -/
theorem isOk_iff_exists {x : Except Failure α} : x.isOk ↔ ∃ a, x = .ok a := by
  cases x <;> simp

end

/-! ## Outcomes -/

/-- A monad whose computations start in a state and either fail or end in a state with a result. -/
class Outcome (m : Type → Type) [Monad m] (σ : outParam Type) where
  outcome {α : Type} : m α → σ → Except Failure (α × σ)
  outcome_pure {α : Type} (a : α) (st : σ) : outcome (pure a : m α) st = .ok (a, st)
  outcome_bind {α β : Type} (x : m α) (f : α → m β) (st : σ) :
    outcome (x >>= f) st = outcome x st >>= fun r => outcome (f r.1) r.2

open Outcome

instance : Outcome Traced Unit where
  outcome x st := x.result.map (·, st)
  outcome_pure a st := rfl
  outcome_bind x f st := by
    rw [Traced.result_bind]
    cases x.result <;> rfl

instance : Outcome Id Unit where
  outcome x st := .ok (x.run, st)
  outcome_pure _ _ := rfl
  outcome_bind _ _ _ := rfl

/-- Without a state the outcome is the result. -/
theorem Traced.outcome_eq_ok_iff {α : Type} {x : Traced α} {a : α} {st st' : Unit} :
    Outcome.outcome x st = .ok (a, st') ↔ x.result = .ok a := by
  show x.result.map _ = _ ↔ _
  cases x.result <;> simp [Except.map]

/-- Without a state a run fails as its result does. -/
theorem Traced.outcome_eq_error_iff {α : Type} {x : Traced α} {failure : Failure} {st : Unit} :
    Outcome.outcome x st = .error failure ↔ x.result = .error failure := by
  show x.result.map _ = _ ↔ _
  cases x.result <;> simp [Except.map]

theorem Traced.result_bind_of_ok {α β : Type} {x : Traced α} {a : α} (h : x.result = .ok a)
    (f : α → Traced β) : (x >>= f).result = (f a).result := by
  rw [Traced.result_bind, h]
  rfl

theorem Traced.result_bind_of_error {α β : Type} {x : Traced α} {failure : Failure}
    (h : x.result = .error failure) (f : α → Traced β) : (x >>= f).result = .error failure := by
  rw [Traced.result_bind, h]
  rfl

/-- A sequence without a state fails exactly if one of its parts does. -/
theorem Traced.result_bind_eq_error_iff {α β : Type} {x : Traced α} {f : α → Traced β}
    {failure : Failure} :
    (x >>= f).result = .error failure ↔
      x.result = .error failure ∨ ∃ a, x.result = .ok a ∧ (f a).result = .error failure := by
  rw [Traced.result_bind]
  cases x.result <;> simp [bind, Except.bind]

/-- An item of the second of two lists in a relation stands in it to an item of the first. -/
theorem exists_of_forall₂_of_mem {α β : Type} {R : α → β → Prop} {as : List α} {bs : List β}
    (h : List.Forall₂ R as bs) {b : β} (hb : b ∈ bs) : ∃ a ∈ as, R a b := by
  induction h with
  | nil => simp at hb
  | cons hab _ ih =>
    rcases List.mem_cons.1 hb with rfl | hb
    · exact ⟨_, List.mem_cons_self, hab⟩
    · obtain ⟨a, ha, hr⟩ := ih hb
      exact ⟨a, List.mem_cons_of_mem _ ha, hr⟩

/-- Every item stands opposite to one that it is related to. -/
theorem exists_of_forall₂_of_mem_left {α β : Type} {R : α → β → Prop} {as : List α} {bs : List β}
    (h : List.Forall₂ R as bs) {a : α} (ha : a ∈ as) : ∃ b ∈ bs, R a b :=
  exists_of_forall₂_of_mem h.flip ha

/-- A relation of two lists may be weakened with what is known of their items. -/
theorem forall₂_imp_of_mem {α β : Type} {R S : α → β → Prop} {as : List α} {bs : List β}
    (h : List.Forall₂ R as bs) (imp : ∀ a ∈ as, ∀ b ∈ bs, R a b → S a b) :
    List.Forall₂ S as bs :=
  List.forall₂_iff_zip.2 ⟨h.length_eq, fun mem =>
    imp _ (List.of_mem_zip mem).1 _ (List.of_mem_zip mem).2 (List.forall₂_zip h mem)⟩

/-- Two lists are equal if each item is what the relation allows for it alone. -/
theorem eq_of_forall₂ {α : Type} {R : α → α → Prop} {as bs : List α} (h : List.Forall₂ R as bs)
    (only : ∀ a ∈ as, ∀ b, R a b → b = a) : bs = as := by
  induction h with
  | nil => rfl
  | cons hab _ ih =>
    rw [only _ List.mem_cons_self _ hab, ih fun a ha => only a (List.mem_cons_of_mem _ ha)]

/-- An option that is related to nothing but itself is what it was. -/
theorem eq_of_rel {α : Type} {R : α → α → Prop} {o o' : Option α} (h : Option.Rel R o o')
    (only : ∀ a ∈ o, ∀ b, R a b → b = a) : o' = o := by
  cases h with
  | none => rfl
  | some hr => rw [only _ rfl _ hr]

instance {σ : Type} : Outcome (StateT σ Traced) σ where
  outcome x st := (x.run st).result
  outcome_pure a st := rfl
  outcome_bind x f st := by
    rw [StateT.run_bind, Traced.result_bind]

/-- The result of a run whose last state is dropped. -/
theorem Traced.run'_eq_ok_iff {σ α : Type} {x : StateT σ Traced α} {a : α} {st : σ} :
    (x.run' st).result = .ok a ↔ ∃ st', Outcome.outcome x st = .ok (a, st') := by
  show (Prod.fst <$> x.run st).result = _ ↔ ∃ st', (x.run st).result = _
  rw [map_eq_pure_bind, Traced.result_bind_eq_ok]
  constructor
  · rintro ⟨⟨b, st'⟩, h, hb⟩
    obtain rfl : b = a := Except.ok.inj hb
    exact ⟨st', h⟩
  · rintro ⟨st', h⟩
    exact ⟨(a, st'), h, rfl⟩

theorem Traced.run'_eq_error_iff {σ α : Type} {x : StateT σ Traced α} {failure : Failure} {st : σ} :
    (x.run' st).result = .error failure ↔ Outcome.outcome x st = .error failure := by
  show (Prod.fst <$> x.run st).result = _ ↔ (x.run st).result = _
  rw [map_eq_pure_bind, Traced.result_bind]
  cases (x.run st).result <;> simp [bind, Except.bind, pure]

section Outcome

variable {m : Type → Type} [Monad m] {σ : Type} [Outcome m σ] {α β : Type}
variable {x : m α} {f : α → m β} {st st' : σ} {failure : Failure}

/-- A value that is there already leaves the state as it is. -/
theorem outcome_pure_eq_ok_iff {a a' : α} :
    outcome (pure a : m α) st = .ok (a', st') ↔ a = a' ∧ st = st' := by
  rw [outcome_pure]
  simp

theorem outcome_pure_ne_error {a : α} : outcome (pure a : m α) st ≠ .error failure := by
  rw [outcome_pure]
  simp

/-- A sequence succeeds exactly if both of its parts do. -/
theorem outcome_bind_eq_ok_iff {b : β} :
    outcome (x >>= f) st = .ok (b, st') ↔
      ∃ a st₁, outcome x st = .ok (a, st₁) ∧ outcome (f a) st₁ = .ok (b, st') := by
  rw [outcome_bind]
  rcases outcome x st with _ | ⟨a, st₁⟩ <;> simp [bind, Except.bind]

/-- A sequence fails exactly if one of its parts does. -/
theorem outcome_bind_eq_error_iff :
    outcome (x >>= f) st = .error failure ↔
      outcome x st = .error failure ∨
        ∃ a st₁, outcome x st = .ok (a, st₁) ∧ outcome (f a) st₁ = .error failure := by
  rw [outcome_bind]
  rcases outcome x st with _ | ⟨a, st₁⟩ <;> simp [bind, Except.bind]

theorem outcome_mapM_nil_eq_ok_iff {bs : List β} :
    outcome (([] : List α).mapM f) st = .ok (bs, st') ↔ bs = [] ∧ st' = st := by
  rw [List.mapM_nil, outcome_pure_eq_ok_iff]
  exact and_congr eq_comm eq_comm

variable [LawfulMonad m]

/-- Of several items, the first is treated first, and its state handed on. -/
theorem outcome_mapM_cons_eq_ok_iff {a : α} {as : List α} {l : List β} :
    outcome ((a :: as).mapM f) st = .ok (l, st') ↔
      ∃ b bs st₁, outcome (f a) st = .ok (b, st₁) ∧ outcome (as.mapM f) st₁ = .ok (bs, st') ∧
        l = b :: bs := by
  simp only [List.mapM_cons, outcome_bind_eq_ok_iff, outcome_pure_eq_ok_iff]
  constructor
  · rintro ⟨b, st₁, hb, bs, st₂, hbs, rfl, rfl⟩
    exact ⟨b, bs, st₁, hb, hbs, rfl⟩
  · rintro ⟨b, bs, st₁, hb, hbs, rfl⟩
    exact ⟨b, st₁, hb, bs, st', hbs, rfl, rfl⟩

/-- Two lists are treated one after the other. -/
theorem outcome_mapM_append_eq_ok_iff {as as' : List α} {l : List β} :
    outcome ((as ++ as').mapM f) st = .ok (l, st') ↔
      ∃ bs bs' st₁, outcome (as.mapM f) st = .ok (bs, st₁) ∧
        outcome (as'.mapM f) st₁ = .ok (bs', st') ∧ l = bs ++ bs' := by
  simp only [List.mapM_append, outcome_bind_eq_ok_iff, outcome_pure_eq_ok_iff]
  constructor
  · rintro ⟨b, st₁, hb, bs, st₂, hbs, rfl, rfl⟩
    exact ⟨b, bs, st₁, hb, hbs, rfl⟩
  · rintro ⟨b, bs, st₁, hb, hbs, rfl⟩
    exact ⟨b, st₁, hb, bs, st', hbs, rfl, rfl⟩

/-- Every item is treated once. -/
theorem length_of_outcome_mapM {as : List α} {bs : List β}
    (h : outcome (as.mapM f) st = .ok (bs, st')) : bs.length = as.length := by
  induction as generalizing st bs with
  | nil =>
    obtain ⟨rfl, -⟩ := outcome_mapM_nil_eq_ok_iff.1 h
    rfl
  | cons a as ih =>
    obtain ⟨b, bs, st₁, -, hbs, rfl⟩ := outcome_mapM_cons_eq_ok_iff.1 h
    simp [ih hbs]

/-- Each result of going through a list is that of a step, in a state that has what is kept. -/
theorem exists_of_outcome_mapM {J : σ → Prop} {as : List α} {bs : List β}
    (keeps : ∀ a ∈ as, ∀ st b st', J st → outcome (f a) st = .ok (b, st') → J st') (hst : J st)
    (h : outcome (as.mapM f) st = .ok (bs, st')) :
    ∀ b ∈ bs, ∃ a ∈ as, ∃ st st', J st ∧ outcome (f a) st = .ok (b, st') := by
  induction as generalizing st bs with
  | nil =>
    obtain ⟨rfl, -⟩ := outcome_mapM_nil_eq_ok_iff.1 h
    simp
  | cons a as ih =>
    obtain ⟨b, bs, st₁, hb, hbs, rfl⟩ := outcome_mapM_cons_eq_ok_iff.1 h
    simp only [List.forall_mem_cons] at keeps
    refine List.forall_mem_cons.2 ⟨⟨a, List.mem_cons_self, st, st₁, hst, hb⟩, fun b' hb' => ?_⟩
    obtain ⟨a', ha', rest⟩ := ih keeps.2 (keeps.1 st b st₁ hst hb) hbs b' hb'
    exact ⟨a', List.mem_cons_of_mem _ ha', rest⟩

/-- If going through a list fails, then some step of it fails. -/
theorem exists_of_outcome_mapM_eq_error {as : List α}
    (h : outcome (as.mapM f) st = .error failure) :
    ∃ a ∈ as, ∃ st₁, outcome (f a) st₁ = .error failure := by
  induction as generalizing st with
  | nil => exact absurd h (by rw [List.mapM_nil]; exact outcome_pure_ne_error)
  | cons a as ih =>
    rw [List.mapM_cons, outcome_bind_eq_error_iff] at h
    rcases h with h | ⟨b, st₁, -, h⟩
    · exact ⟨a, by simp, st, h⟩
    · rw [outcome_bind_eq_error_iff] at h
      rcases h with h | ⟨bs, st₂, -, h⟩
      · obtain ⟨a', ha', st₃, hfail⟩ := ih h
        exact ⟨a', by simp [ha'], st₃, hfail⟩
      · exact absurd h outcome_pure_ne_error

end Outcome

/-! ## Statements -/

namespace Statement

/-- Induction on the statements of a batch. -/
@[elab_as_elim]
theorem batch_induction {motive : Statement → Prop} (query : ∀ p, motive (query p))
    (batch : ∀ ss, (∀ s ∈ ss, motive s) → motive (batch ss)) : ∀ s, motive s
  | .query p => query p
  | .batch ss => batch ss fun s _ => batch_induction query batch s

theorem queriesList_eq (ss : List Statement) : queriesList ss = ss.flatMap queries := by
  induction ss with
  | nil => rfl
  | cons s ss ih => simp [queriesList, ih]

variable {m : Type → Type} [Monad m] [LawfulMonad m] {f : Projection → m Projection}

theorem mapQueriesListM_eq (ss : List Statement) :
    mapQueriesListM f ss = ss.mapM (mapQueriesM f) := by
  induction ss with
  | nil => simp [mapQueriesListM]
  | cons s ss ih => simp [mapQueriesListM, ih]

variable {σ : Type} [Outcome m σ] {s s' : Statement} {st st' : σ} {failure : Failure}

/-- A statement is mapped by mapping its queries, in order. -/
theorem of_outcome_mapQueriesM (h : outcome (s.mapQueriesM f) st = .ok (s', st')) :
    outcome (s.queries.mapM f) st = .ok (s'.queries, st') := by
  induction s using batch_induction generalizing s' st st' with
  | query p =>
    rw [mapQueriesM, map_eq_pure_bind, outcome_bind_eq_ok_iff] at h
    obtain ⟨p', st₁, hp, h⟩ := h
    obtain ⟨rfl, rfl⟩ := outcome_pure_eq_ok_iff.1 h
    exact outcome_mapM_cons_eq_ok_iff.2
      ⟨p', [], st₁, hp, outcome_mapM_nil_eq_ok_iff.2 ⟨rfl, rfl⟩, rfl⟩
  | batch ss ih =>
    rw [mapQueriesM, map_eq_pure_bind, outcome_bind_eq_ok_iff, mapQueriesListM_eq] at h
    obtain ⟨ss', st₁, hss, h⟩ := h
    obtain ⟨rfl, rfl⟩ := outcome_pure_eq_ok_iff.1 h
    rw [queries, queries, queriesList_eq, queriesList_eq]
    clear h
    induction ss generalizing st ss' with
    | nil =>
      obtain ⟨rfl, rfl⟩ := outcome_mapM_nil_eq_ok_iff.1 hss
      exact outcome_mapM_nil_eq_ok_iff.2 ⟨rfl, rfl⟩
    | cons s ss ihss =>
      obtain ⟨s', ss', st₂, hs, hrest, rfl⟩ := outcome_mapM_cons_eq_ok_iff.1 hss
      exact outcome_mapM_append_eq_ok_iff.2 ⟨s'.queries, _, st₂, ih s (by simp) hs,
        ihss (fun s hs => ih s (by simp [hs])) ss' hrest, rfl⟩

/-- If mapping a statement fails, then mapping one of its queries fails. -/
theorem exists_of_mapQueriesM_eq_error (h : outcome (s.mapQueriesM f) st = .error failure) :
    ∃ p ∈ s.queries, ∃ st₁, outcome (f p) st₁ = .error failure := by
  induction s using batch_induction generalizing st with
  | query p =>
    rw [mapQueriesM, map_eq_pure_bind, outcome_bind_eq_error_iff] at h
    rcases h with h | ⟨_, _, -, h⟩
    · exact ⟨p, by simp [queries], st, h⟩
    · exact absurd h outcome_pure_ne_error
  | batch ss ih =>
    rw [mapQueriesM, map_eq_pure_bind, outcome_bind_eq_error_iff, mapQueriesListM_eq] at h
    rcases h with h | ⟨_, _, -, h⟩
    · obtain ⟨s, hs, st₁, hfail⟩ := exists_of_outcome_mapM_eq_error h
      obtain ⟨p, hp, hrest⟩ := ih s hs hfail
      exact ⟨p, by rw [queries, queriesList_eq]; exact List.mem_flatMap.2 ⟨s, hs, hp⟩, hrest⟩
    · exact absurd h outcome_pure_ne_error

/-- Where every query is mapped to itself, so is the statement. -/
theorem mapQueriesM_eq_self (h : ∀ p ∈ s.queries, ∀ st, outcome (f p) st = .ok (p, st)) :
    outcome (s.mapQueriesM f) st = .ok (s, st) := by
  induction s using batch_induction generalizing st with
  | query p =>
    rw [mapQueriesM, map_eq_pure_bind, outcome_bind_eq_ok_iff]
    exact ⟨p, st, h p (by simp [queries]) st, outcome_pure_eq_ok_iff.2 ⟨rfl, rfl⟩⟩
  | batch ss ih =>
    rw [mapQueriesM, map_eq_pure_bind, outcome_bind_eq_ok_iff, mapQueriesListM_eq]
    refine ⟨ss, st, ?_, outcome_pure_eq_ok_iff.2 ⟨rfl, rfl⟩⟩
    rw [queries, queriesList_eq] at h
    induction ss generalizing st with
    | nil => exact outcome_mapM_nil_eq_ok_iff.2 ⟨rfl, rfl⟩
    | cons s ss ihss =>
      simp only [List.flatMap_cons, List.mem_append] at h
      exact outcome_mapM_cons_eq_ok_iff.2 ⟨s, ss, st, ih s (by simp) (fun p hp => h p (.inl hp)),
        ihss (fun s hs => ih s (by simp [hs])) (fun p hp => h p (.inr hp)), rfl⟩

end Statement

end HiveQuery
