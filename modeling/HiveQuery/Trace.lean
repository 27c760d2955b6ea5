import HiveQuery.Failure
import HiveQuery.Json.Basic
/-!
# Traced computations

A pass reports what it does as events. `Traced α` is the outcome of a pass: the events in the order
of their emission, and either a value or the failure that ended the pass. What was reported before a
failure is kept. The result of a sequence depends on the results of its parts alone
(`Traced.result_bind`), so facts about results can be proved without a word on events.
-/

namespace HiveQuery

inductive Level where
  | warn
  | info
  | debug
  deriving DecidableEq

/-- What a pass reports. -/
inductive Event where
  /-- The terms that subqueries pass on are lost in a select that can neither use them nor pass them
  on. -/
  | orderingDropped (label : String) (count : Nat)
  /-- A subquery without paging loses its own ordering. -/
  | orderingRemoved (label : String)
  | orderingLifted (label : String) (count : Nat)
  | pagingWithoutOrdering (label : String)
  | pagingReplaced (label inner : String) (skip take : Option UInt64)
  /-- A member of an entity takes the column at its position. -/
  | columnByPosition (entity member expected found : String) (position : Nat)
  | conformed (entity label : String)
  | columnMerged (label column survivor : String)
  | columnsPruned (label : String) (count : Nat)
  | started (fingerprint : String)
  | finished (fingerprint : String)

namespace Event

def level : Event → Level
  | orderingDropped .. | pagingWithoutOrdering _ | columnByPosition .. => .warn
  | started _ => .info
  | _ => .debug

/-- The text of an event; the start of a run opens a span of that name instead. -/
def text : Event → String
  | orderingDropped .. => "subquery ordering has no effect here, dropped"
  | orderingRemoved _ => "ordering without skip/take removed from subquery"
  | orderingLifted .. => "lifted subquery ordering"
  | pagingWithoutOrdering _ => "paging without ordering, numbering rows by declared column order"
  | pagingReplaced .. => "rewrote skip/take to row number filter"
  | columnByPosition .. => "ambiguous column match, falling back to position"
  | conformed .. => "resynchronized top select with mapping"
  | columnMerged .. => "dropping redundant column"
  | columnsPruned .. => "pruned unused columns"
  | started _ => "translate"
  | finished _ => "translation complete"

def isSpan : Event → Bool
  | started _ => true
  | _ => false

/-- The text of a bound that may be missing. -/
def boundText : Option UInt64 → String
  | none => "None"
  | some n => "Some(" ++ n.toNat.repr ++ ")"

/-- The fields of an event, texts and counts. -/
def fields : Event → List (String × Json)
  | orderingDropped label count => [("alias", .str label), ("dropped", .int count)]
  | orderingRemoved label => [("alias", .str label)]
  | orderingLifted label count => [("alias", .str label), ("lifted", .int count)]
  | pagingWithoutOrdering label => [("alias", .str label)]
  | pagingReplaced label inner skip take =>
    [("alias", .str label), ("inner", .str inner), ("skip", .str (boundText skip)),
      ("take", .str (boundText take))]
  | columnByPosition entity member expected found position =>
    [("entity", .str entity), ("member", .str member), ("expected", .str expected),
      ("matched", .str found), ("position", .int position)]
  | conformed entity label => [("entity", .str entity), ("alias", .str label)]
  | columnMerged label column survivor =>
    [("alias", .str label), ("column", .str column), ("survivor", .str survivor)]
  | columnsPruned label count => [("alias", .str label), ("removed", .int count)]
  | started fingerprint => [("fingerprint", .str fingerprint)]
  | finished fingerprint => [("output", .str fingerprint)]

end Event

/-- The events of a computation and its result. -/
structure Traced (α : Type) where
  events : List Event
  result : Except Failure α

namespace Traced

variable {α β : Type}

instance : Monad Traced where
  pure a := ⟨[], .ok a⟩
  bind x f :=
    match x.result with
    | .ok a => ⟨x.events ++ (f a).events, (f a).result⟩
    | .error e => ⟨x.events, .error e⟩

/-- Report an event. -/
def emit (e : Event) : Traced Unit :=
  ⟨[e], .ok ()⟩

/-- A value together with events. -/
def report (events : List Event) (a : α) : Traced α :=
  ⟨events, .ok a⟩

/-- End with a failure. -/
def fail (e : Failure) : Traced α :=
  ⟨[], .error e⟩

/-- A result without events. -/
def ofExcept (x : Except Failure α) : Traced α :=
  ⟨[], x⟩

@[simp] theorem result_pure (a : α) : (pure a : Traced α).result = .ok a :=
  rfl

@[simp] theorem result_emit (e : Event) : (emit e).result = .ok () :=
  rfl

@[simp] theorem result_report (events : List Event) (a : α) : (report events a).result = .ok a :=
  rfl

@[simp] theorem result_fail (e : Failure) : (fail e : Traced α).result = .error e :=
  rfl

@[simp] theorem result_ofExcept (x : Except Failure α) : (ofExcept x).result = x :=
  rfl

/-- The result of a sequence is the sequence of the results. -/
@[simp] theorem result_bind (x : Traced α) (f : α → Traced β) :
    (x >>= f).result = x.result >>= fun a => (f a).result := by
  simp only [bind]
  cases x.result <;> rfl

/-- A sequence succeeds exactly if both of its parts do. -/
theorem result_bind_eq_ok {x : Traced α} {f : α → Traced β} {b : β} :
    (x >>= f).result = .ok b ↔ ∃ a, x.result = .ok a ∧ (f a).result = .ok b := by
  rw [result_bind]
  cases x.result with
  | error e => simp [bind, Except.bind]
  | ok a => simp [bind, Except.bind]

instance : LawfulMonad Traced :=
  LawfulMonad.mk' Traced
    (fun x => by
      obtain ⟨events, result⟩ := x
      cases result <;> simp [Functor.map])
    (fun a f => by simp [bind, pure])
    (fun x f g => by
      obtain ⟨events, result⟩ := x
      cases result with
      | error e => rfl
      | ok a =>
        simp only [bind]
        cases (f a).result <;> simp)

end Traced

end HiveQuery
