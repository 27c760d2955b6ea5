import HiveQuery.Ordering.Terms
import HiveQuery.Proofs.Nodes
/-!
# Terms without repeats, and the columns that expose them

Two small algorithms carry the placement of orderings. Of equal terms only the first is kept, so a
list of terms decides the same comparisons and nothing is kept twice. A select exposes its terms
through columns, the first that declares the expression or a new one at the end, so that exposing
terms that are exposed already adds nothing and finds the same names.
-/

namespace HiveQuery

namespace OrderTerm

/-- Whether a term with the expression is in the list. -/
def covers (terms : List OrderTerm) (e : Expr) : Bool :=
  terms.any (·.expr == e)

/-- An expression is covered by a term that orders by an equal one. -/
theorem covers_iff {terms : List OrderTerm} {e : Expr} :
    covers terms e ↔ ∃ t ∈ terms, (t.expr == e) = true := by
  simp [covers]

/-- A list covers what either part of it covers. -/
theorem covers_append {terms terms' : List OrderTerm} {e : Expr} :
    covers (terms ++ terms') e = (covers terms e || covers terms' e) := by
  simp [covers]

/-! ## Terms without repeats -/

/-- A term that is covered is dropped, -/
theorem keepNew_cons_of_covers {kept : List OrderTerm} {t : OrderTerm} (h : covers kept t.expr)
    (ts : List OrderTerm) : keepNew kept (t :: ts) = keepNew kept ts := by
  unfold covers at h
  rw [keepNew, if_pos h]

/-- and any other is kept, and covers what follows. -/
theorem keepNew_cons_of_not_covers {kept : List OrderTerm} {t : OrderTerm}
    (h : ¬ covers kept t.expr) (ts : List OrderTerm) :
    keepNew kept (t :: ts) = t :: keepNew (kept ++ [t]) ts := by
  unfold covers at h
  rw [keepNew, if_neg h]

/-- A list is gone through in two steps, the second knowing what the first has kept. -/
theorem keepNew_append (kept ts us : List OrderTerm) :
    keepNew kept (ts ++ us) = keepNew kept ts ++ keepNew (kept ++ keepNew kept ts) us := by
  induction ts generalizing kept with
  | nil => simp [keepNew]
  | cons t ts ih =>
    rw [List.cons_append]
    by_cases h : covers kept t.expr
    · rw [keepNew_cons_of_covers h, keepNew_cons_of_covers h, ih]
    · rw [keepNew_cons_of_not_covers h, keepNew_cons_of_not_covers h, ih, List.cons_append,
        List.append_assoc, List.singleton_append]

/-- The terms that are kept keep their order. -/
theorem keepNew_sublist (kept ts : List OrderTerm) : (keepNew kept ts).Sublist ts := by
  induction ts generalizing kept with
  | nil => exact .slnil
  | cons t ts ih =>
    by_cases h : covers kept t.expr
    · rw [keepNew_cons_of_covers h]
      exact (ih kept).cons t
    · rw [keepNew_cons_of_not_covers h]
      exact (ih (kept ++ [t])).cons_cons t

theorem mem_of_mem_withoutRepeats {ts : List OrderTerm} {t : OrderTerm}
    (h : t ∈ withoutRepeats ts) : t ∈ ts :=
  (keepNew_sublist [] ts).subset h

/-- Terms that are covered are dropped. -/
theorem keepNew_eq_nil {kept ts : List OrderTerm} (h : ∀ t ∈ ts, covers kept t.expr) :
    keepNew kept ts = [] := by
  induction ts with
  | nil => rfl
  | cons t ts ih =>
    rw [keepNew_cons_of_covers (h t List.mem_cons_self)]
    exact ih fun u hu => h u (List.mem_cons_of_mem _ hu)

/-- Terms that are not covered, not even by those before them. -/
def New (kept : List OrderTerm) : List OrderTerm → Prop
  | [] => True
  | t :: ts => ¬ covers kept t.expr ∧ New (kept ++ [t]) ts

/-- What is kept is new. -/
theorem new_keepNew (kept ts : List OrderTerm) : New kept (keepNew kept ts) := by
  induction ts generalizing kept with
  | nil => trivial
  | cons t ts ih =>
    by_cases h : covers kept t.expr
    · rw [keepNew_cons_of_covers h]
      exact ih kept
    · rw [keepNew_cons_of_not_covers h]
      exact ⟨h, ih _⟩

/-- New terms are all kept. -/
theorem keepNew_eq_self {kept ts : List OrderTerm} (h : New kept ts) : keepNew kept ts = ts := by
  induction ts generalizing kept with
  | nil => rfl
  | cons t ts ih => rw [keepNew_cons_of_not_covers h.1, ih h.2]

/-- Every term that equals itself is covered by what is kept. -/
theorem covers_keepNew (kept : List OrderTerm) {ts : List OrderTerm} {t : OrderTerm} (ht : t ∈ ts)
    (h : (t.expr == t.expr) = true) : covers (kept ++ keepNew kept ts) t.expr := by
  induction ts generalizing kept with
  | nil => simp at ht
  | cons u ts ih =>
    by_cases hu : covers kept u.expr
    · rw [keepNew_cons_of_covers hu]
      rcases List.mem_cons.1 ht with rfl | ht
      · rw [covers_append, hu, Bool.true_or]
      · exact ih kept ht
    · rw [keepNew_cons_of_not_covers hu]
      rcases List.mem_cons.1 ht with rfl | ht
      · exact covers_iff.2 ⟨t, by simp, h⟩
      · simpa using ih (kept ++ [u]) ht

/-- A term that equals itself is covered after repeats have been dropped. -/
theorem covers_withoutRepeats {ts : List OrderTerm} {t : OrderTerm} (ht : t ∈ ts)
    (h : (t.expr == t.expr) = true) : covers (withoutRepeats ts) t.expr := by
  simpa [withoutRepeats] using covers_keepNew [] ht h

/-- **A second pass over the kept terms drops nothing, and over covered terms keeps nothing.** -/
theorem withoutRepeats_append_eq_self {ts us : List OrderTerm} (hts : New [] ts)
    (hus : ∀ u ∈ us, covers ts u.expr) : withoutRepeats (ts ++ us) = ts := by
  rw [withoutRepeats, keepNew_append, keepNew_eq_self hts, List.nil_append, keepNew_eq_nil hus,
    List.append_nil]

theorem withoutRepeats_eq_self {ts : List OrderTerm} (h : New [] ts) : withoutRepeats ts = ts :=
  keepNew_eq_self h

/-! ### Flipped terms -/

/-- Whether a term is covered does not depend on its direction. -/
@[simp] theorem covers_flipAll (ts : List OrderTerm) (e : Expr) :
    covers (flipAll ts) e = covers ts e := by
  simp [covers, flipAll, List.any_map, Function.comp_def, flip]

theorem new_flipAll {kept ts : List OrderTerm} :
    New (flipAll kept) (flipAll ts) ↔ New kept ts := by
  induction ts generalizing kept with
  | nil => simp [flipAll, New]
  | cons t ts ih =>
    have step : flipAll kept ++ [flip t] = flipAll (kept ++ [t]) := by simp [flipAll]
    show (¬ covers (flipAll kept) (flip t).expr ∧ New (flipAll kept ++ [flip t]) (flipAll ts)) ↔ _
    rw [step, ih, covers_flipAll]
    rfl

end OrderTerm

/-! ## The columns that expose terms -/

namespace Select

/-- The name under which a select declares an expression, empty if it does not. -/
def nameFor (s : Select) (e : Expr) : String :=
  ((s.columnFor? e).map (·.name)).getD ""

/-- The select with further columns. -/
def adding (s : Select) (columns : List Column) : Select :=
  { s with columns := s.columns ++ columns }

@[simp] theorem adding_nil (s : Select) : s.adding [] = s := by
  cases s
  simp [adding]

/-- Columns are added at the end. -/
theorem adding_adding (s : Select) (cs ds : List Column) :
    (s.adding cs).adding ds = s.adding (cs ++ ds) := by
  simp [adding]

/-- Columns at the end do not change which column is found. -/
theorem columnFor?_adding {s : Select} {e : Expr} {c : Column} (h : s.columnFor? e = some c)
    (cs : List Column) : (s.adding cs).columnFor? e = some c := by
  rw [columnFor?, adding, List.find?_append, ← columnFor?, h, Option.some_or]

/-- **What carrying an expression adds**: nothing, or one column that declares it. -/
theorem carrying_spec (s : Select) {e : Expr} (h : (e == e) = true) :
    ∃ cs c, (s.carrying e).1 = s.adding cs ∧ (∀ c ∈ cs, c.expr = e) ∧
      (s.adding cs).columnFor? e = some c ∧ (s.carrying e).2 = c.name := by
  unfold carrying
  split
  · next c hc => exact ⟨[], c, by simp, by simp, by simpa using hc, rfl⟩
  · next hc =>
    let c : Column := ⟨Column.numberedName s.columns "c", e, .unknown⟩
    have found : (s.adding [c]).columnFor? e = some c := by
      rw [columnFor?, adding, List.find?_append, ← columnFor?, hc]
      simp [c, h]
    exact ⟨[c], c, rfl, by simp [c], found, rfl⟩

/-- The first term takes its column before the others are looked at. -/
theorem exposing_cons (s : Select) (t : OrderTerm) (ts : List OrderTerm) :
    s.exposing (t :: ts) =
      (((s.carrying t.expr).1.exposing ts).1,
        ⟨s.ref (s.carrying t.expr).2, t.direction⟩ :: ((s.carrying t.expr).1.exposing ts).2) :=
  rfl

/-- No column is found for an expression if none declares an equal one. -/
theorem columnFor?_eq_none_iff {s : Select} {e : Expr} :
    s.columnFor? e = none ↔ ∀ c ∈ s.columns, (c.expr == e) = false := by
  simp [columnFor?]

/-- **What exposing terms adds**: columns at the end, for some of the terms in their order, and only
for terms that no column before declares. A term without a column of its own equals one. -/
theorem exposing_adds_new (s : Select) (ts : List OrderTerm) :
    ∃ cs, (s.exposing ts).1 = s.adding cs ∧ (cs.map (·.expr)).Sublist (ts.map (·.expr)) ∧
      (∀ c ∈ cs, s.columnFor? c.expr = none) ∧ cs.Pairwise (fun d c => (d.expr == c.expr) = false) ∧
      ∀ t ∈ ts, (∃ c ∈ cs, c.expr = t.expr) ∨ ∃ c ∈ (s.adding cs).columns, c.expr == t.expr := by
  induction ts generalizing s with
  | nil => exact ⟨[], by simp [exposing], .slnil, by simp, .nil, by simp⟩
  | cons t ts ih =>
    rw [exposing_cons, carrying]
    split
    · next c found =>
      obtain ⟨cs, eq, sublist, new, distinct, each⟩ := ih s
      refine ⟨cs, eq, sublist.cons t.expr, new, distinct,
        List.forall_mem_cons.2 ⟨.inr ⟨c, ?_, ?_⟩, each⟩⟩
      · exact List.mem_append_left _ (List.mem_of_find?_eq_some found)
      · exact List.find?_some (p := fun c : Column => c.expr == t.expr) found
    · next missing =>
      let c : Column := ⟨Column.numberedName s.columns "c", t.expr, .unknown⟩
      obtain ⟨cs, eq, sublist, new, distinct, each⟩ := ih (s.adding [c])
      rw [adding_adding s [c] cs] at eq each
      have unlike : ∀ d ∈ cs, ∀ b ∈ s.columns ++ [c], (b.expr == d.expr) = false :=
        fun d hd => columnFor?_eq_none_iff.1 (new d hd)
      refine ⟨c :: cs, eq, sublist.cons_cons t.expr, ?_, .cons (fun d hd => ?_) distinct,
        List.forall_mem_cons.2 ⟨.inl ⟨c, List.mem_cons_self, rfl⟩, ?_⟩⟩
      · refine List.forall_mem_cons.2 ⟨missing, fun d hd => columnFor?_eq_none_iff.2 fun b hb => ?_⟩
        exact unlike d hd b (List.mem_append_left _ hb)
      · exact unlike d hd c (List.mem_append_right _ (List.mem_singleton_self c))
      · intro u hu
        refine (each u hu).imp_left ?_
        rintro ⟨d, hd, same⟩
        exact ⟨d, List.mem_cons_of_mem _ hd, same⟩

/-- Exposing terms adds columns at the end, each for an expression of the terms. -/
theorem exposing_adds (s : Select) (ts : List OrderTerm) :
    ∃ cs, (s.exposing ts).1 = s.adding cs ∧ ∀ c ∈ cs, ∃ t ∈ ts, c.expr = t.expr := by
  obtain ⟨cs, eq, sublist, -⟩ := s.exposing_adds_new ts
  refine ⟨cs, eq, fun c hc => ?_⟩
  obtain ⟨t, ht, same⟩ := List.mem_map.1 (sublist.subset (List.mem_map_of_mem hc))
  exact ⟨t, ht, same.symm⟩

/-- The terms outside are references to columns of the exposed select. -/
theorem expr_of_mem_exposing {s : Select} {ts : List OrderTerm} {t : OrderTerm}
    (h : t ∈ (s.exposing ts).2) :
    ∃ name ∈ (s.exposing ts).1.columnNames, t.expr = .column s.label name := by
  induction ts generalizing s with
  | nil => simp [exposing] at h
  | cons u ts ih =>
    rw [exposing_cons] at h ⊢
    rcases List.mem_cons.1 h with rfl | h
    · have carried : (s.carrying u.expr).2 ∈ (s.carrying u.expr).1.columnNames := by
        unfold carrying columnNames
        split
        · next c hc => exact List.mem_map_of_mem (List.mem_of_find?_eq_some hc)
        · simp
      obtain ⟨cs, hcs, -⟩ := (s.carrying u.expr).1.exposing_adds ts
      refine ⟨_, ?_, rfl⟩
      show _ ∈ ((s.carrying u.expr).1.exposing ts).1.columnNames
      rw [hcs, columnNames, adding, List.map_append]
      exact List.mem_append_left _ carried
    · obtain ⟨name, hname, he⟩ := ih h
      have label : (s.carrying u.expr).1.label = s.label := by
        unfold carrying
        split <;> rfl
      exact ⟨name, hname, by rw [he, label]⟩

/-- **What exposing terms that equal themselves adds**: columns at the end for expressions of the
terms; the select then declares every term, and the references outside are to the columns that
declare them. -/
theorem exposing_spec (s : Select) {ts : List OrderTerm}
    (h : ∀ t ∈ ts, (t.expr == t.expr) = true) :
    ∃ cs, (s.exposing ts).1 = s.adding cs ∧ (∀ c ∈ cs, ∃ t ∈ ts, c.expr = t.expr) ∧
      (∀ t ∈ ts, ((s.adding cs).columnFor? t.expr).isSome) ∧
      (s.exposing ts).2 =
        ts.map fun t => ⟨s.ref ((s.adding cs).nameFor t.expr), t.direction⟩ := by
  induction ts generalizing s with
  | nil => exact ⟨[], by simp [exposing], by simp, by simp, by simp [exposing]⟩
  | cons t ts ih =>
    simp only [List.forall_mem_cons] at h
    obtain ⟨cs, c, hcs, hexpr, hfound, hname⟩ := s.carrying_spec h.1
    obtain ⟨ds, hds, hdexpr, hdfound, hrefs⟩ := ih (s.adding cs) h.2
    have found : (s.adding (cs ++ ds)).columnFor? t.expr = some c := by
      rw [← adding_adding]
      exact columnFor?_adding hfound ds
    refine ⟨cs ++ ds, ?_, ?_, ?_, ?_⟩
    · rw [exposing_cons, hcs, hds, adding_adding]
    · intro d hd
      rcases List.mem_append.1 hd with hd | hd
      · exact ⟨t, by simp, hexpr d hd⟩
      · obtain ⟨u, hu, hd⟩ := hdexpr d hd
        exact ⟨u, by simp [hu], hd⟩
    · rw [List.forall_mem_cons, found, ← adding_adding]
      exact ⟨rfl, hdfound⟩
    · rw [exposing_cons, hcs, hname, hrefs, List.map_cons, nameFor, found, ← adding_adding]
      rfl

/-- **Exposing what is exposed changes nothing.** -/
theorem exposing_of_declared {s : Select} {ts : List OrderTerm}
    (h : ∀ t ∈ ts, (s.columnFor? t.expr).isSome) :
    s.exposing ts = (s, ts.map fun t => ⟨s.ref (s.nameFor t.expr), t.direction⟩) := by
  induction ts with
  | nil => rfl
  | cons t ts ih =>
    simp only [List.forall_mem_cons] at h
    obtain ⟨c, hc⟩ := Option.isSome_iff_exists.1 h.1
    have carried : s.carrying t.expr = (s, c.name) := by
      rw [carrying, hc]
    rw [exposing_cons, carried, ih h.2, List.map_cons, nameFor, hc]
    rfl

end Select

end HiveQuery
