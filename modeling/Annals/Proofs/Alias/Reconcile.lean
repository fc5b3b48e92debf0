import Annals.Alias.Reconcile
import Annals.Proofs.Store.Rows

/-!
# What rows become

Canonical rows have the query's terms where it fixes them. Rows are spread out place by place, and a
place that was changed is not looked at again, so a row is spread to all rows that have at each place
one of the terms that may stand for its own there.
-/

namespace Annals

@[simp] theorem Pattern.get_set (p : Pattern) (t : Term) (i j : Position) :
    (p.set t i).get j = if j = i then t else p.get j := by
  cases i <;> cases j <;> rfl

theorem Position.nodup_all : Position.all.Nodup := by decide

namespace Query

/-- A stored fact is shown in the terms of a query: at the places that the query fixes it has names of
the query's terms, which are shown instead, and it is shown as it is at the others. -/
structure Canonicalizes (q : Query) (named : Term → Term → Prop) (stored shown : Fact) : Prop where
  fixed : ∀ i x, q.get i = some x → named x (stored.get i) ∧ shown.get i = x
  kept : ∀ i, q.get i = none → shown.get i = stored.get i

/-- A stored fact is shown in all ways: at the places that a query fixes it has names of the query's
terms, and is shown with any of their names, and at the others with any name of its own term. -/
structure Spreads (q : Query) (named : Term → Term → Prop) (stored shown : Fact) : Prop where
  fixed : ∀ i x, q.get i = some x → named x (stored.get i) ∧ named x (shown.get i)
  renamed : ∀ i, q.get i = none → named (stored.get i) (shown.get i)

/-- What is shown in the terms of a query is also shown among all ways. -/
theorem Canonicalizes.spreads {q : Query} {named : Term → Term → Prop} {stored shown : Fact}
    (h : q.Canonicalizes named stored shown) (own : ∀ x, named x x) :
    q.Spreads named stored shown where
  fixed i x hx := ⟨(h.fixed i x hx).1, (h.fixed i x hx).2 ▸ own x⟩
  renamed i free := h.kept i free ▸ own _

theorem canonical_eq_iff {q : Query} {row shown : Triple} :
    q.canonical row = shown ↔ shown.mark = row.mark ∧
      ∀ i, shown.fact.get i = (q.get i).getD (row.fact.get i) := by
  obtain ⟨f, mark⟩ := shown
  rw [canonical, Triple.mk.injEq, and_comm, eq_comm (a := row.mark)]
  refine and_congr_right fun _ => ?_
  rw [Pattern.ext_get_iff]
  simp only [Pattern.get_ofFn, eq_comm]

end Query

namespace Expansion

variable {e : Expansion} {values : TermClasses} {q : Query} {i : Position} {rows : List Triple}
  {row : Triple} {term other : Term}

/-- The terms that come to stand at a place where a term stood. -/
def choices (e : Expansion) (values : TermClasses) (q : Query) (i : Position) (term : Term) :
    List Term :=
  if (e.alternatives values q i term).length < 2 then [term] else e.alternatives values q i term

theorem set_get (row : Triple) (i : Position) : row.set (row.fact.get i) i = row := by
  obtain ⟨f, mark⟩ := row
  cases i <;> rfl

theorem spread_eq_map (row : Triple) :
    e.spread values q i row =
      (e.choices values q i (row.fact.get i)).map fun term => row.set term i := by
  simp only [spread, choices]
  split
  · rw [List.map_singleton, set_get]
  · rfl

/-- A class of one term leaves no choice, but one of more terms gives the choice of all of them. -/
theorem mem_choices {terms : List Term} (h : e.alternatives values q i term = terms)
    (own : term ∈ terms) : other ∈ e.choices values q i term ↔ other ∈ terms := by
  rw [choices, h]
  split
  · next few =>
    have single : terms = [term] := by
      match terms, own, few with
      | [only], own, _ => rw [List.mem_singleton.mp own]
    rw [single]
  · rfl

/-- A row has chosen terms at some places and another row's terms at the others. -/
structure Varies (e : Expansion) (values : TermClasses) (q : Query) (places : List Position)
    (origin row : Triple) : Prop where
  mark : row.mark = origin.mark
  chosen : ∀ i ∈ places, row.fact.get i ∈ e.choices values q i (origin.fact.get i)
  kept : ∀ i ∉ places, row.fact.get i = origin.fact.get i

theorem varies_nil {origin : Triple} : e.Varies values q [] origin row ↔ row = origin := by
  constructor
  · intro h
    obtain ⟨f, mark⟩ := row
    obtain ⟨g, mark'⟩ := origin
    rw [Triple.mk.injEq]
    exact ⟨Pattern.ext_get fun i => h.kept i List.not_mem_nil, h.mark⟩
  · rintro rfl
    exact ⟨rfl, fun i hi => absurd hi List.not_mem_nil, fun _ _ => rfl⟩

theorem mem_spread {origin : Triple} :
    row ∈ e.spread values q i origin ↔ e.Varies values q [i] origin row := by
  rw [spread_eq_map, List.mem_map]
  constructor
  · rintro ⟨term, chosen, rfl⟩
    refine ⟨rfl, fun j hj => ?_, fun j hj => ?_⟩
    · obtain rfl := List.mem_singleton.mp hj
      simpa [Triple.set] using chosen
    · have apart : j ≠ i := fun same => hj (List.mem_singleton.mpr same)
      simp [Triple.set, apart]
  · intro h
    refine ⟨row.fact.get i, h.chosen i List.mem_cons_self, ?_⟩
    obtain ⟨f, mark⟩ := row
    rw [Triple.set, Triple.mk.injEq]
    refine ⟨Pattern.ext_get fun j => ?_, h.mark.symm⟩
    rw [Pattern.get_set]
    split
    · next same => rw [same]
    · next apart => exact (h.kept j fun hj => apart (List.mem_singleton.mp hj)).symm

/-- A row varies at one place and others if and only if it varies at the others from one that varies
there: what is done at one place leaves the choices at the others as they are. -/
theorem varies_cons {p : Position} {places : List Position} (fresh : p ∉ places)
    {origin : Triple} :
    e.Varies values q (p :: places) origin row ↔
      ∃ between, e.Varies values q [p] origin between ∧ e.Varies values q places between row := by
  constructor
  · intro h
    refine ⟨origin.set (row.fact.get p) p, ?_, h.mark, fun i hi => ?_, fun i hi => ?_⟩
    · rw [← mem_spread, spread_eq_map]
      exact List.mem_map_of_mem (h.chosen p List.mem_cons_self)
    · have apart : i ≠ p := fun same => fresh (same ▸ hi)
      simpa [Triple.set, apart] using h.chosen i (List.mem_cons_of_mem p hi)
    · by_cases same : i = p
      · simp [Triple.set, same]
      · have outside : i ∉ p :: places := by simp [same, hi]
        simpa [Triple.set, same] using h.kept i outside
  · rintro ⟨between, first, then_others⟩
    refine ⟨then_others.mark.trans first.mark, fun i hi => ?_, fun i hi => ?_⟩
    · rcases List.mem_cons.mp hi with rfl | hi
      · rw [then_others.kept i fresh]
        exact first.chosen i List.mem_cons_self
      · have apart : i ∉ [p] := fun same => fresh (List.mem_singleton.mp same ▸ hi)
        rw [← first.kept i apart]
        exact then_others.chosen i hi
    · obtain ⟨apart, outside⟩ := not_or.mp (mt List.mem_cons.mpr hi)
      rw [then_others.kept i outside]
      exact first.kept i (mt List.mem_singleton.mp apart)

/-- Spreading out rows at some places, one after the other, gives for each row all those that have
one of its choices at these places and its own terms at the others. -/
theorem mem_foldl_spread {places : List Position} (nodup : places.Nodup) :
    row ∈ places.foldl (fun rows i => rows.flatMap (e.spread values q i)) rows ↔
      ∃ origin ∈ rows, e.Varies values q places origin row := by
  induction places generalizing rows with
  | nil => simp [varies_nil]
  | cons p rest ih =>
    obtain ⟨fresh, rest_nodup⟩ := List.nodup_cons.mp nodup
    simp only [List.foldl_cons, ih rest_nodup, List.mem_flatMap, mem_spread, varies_cons fresh]
    constructor
    · rintro ⟨between, ⟨origin, horigin, first⟩, then_others⟩
      exact ⟨origin, horigin, between, first, then_others⟩
    · rintro ⟨origin, horigin, between, first, then_others⟩
      exact ⟨between, ⟨origin, horigin, first⟩, then_others⟩

theorem nodup_reconcile (reconcile : Reconcile) : (e.reconcile values q rows reconcile).Nodup := by
  cases reconcile with
  | canonicalize => exact nodup_distinct _
  | allCombinations => exact nodup_distinct _

end Expansion

/-- A stored fact is shown as the given way of reconciling aliases shows it. -/
def Query.Renders (q : Query) (reconcile : Reconcile) (named : Term → Term → Prop)
    (stored shown : Fact) : Prop :=
  match reconcile with
  | .canonicalize => q.Canonicalizes named stored shown
  | .allCombinations => q.Spreads named stored shown

/-- The classes of an expansion, and of the terms at open places, hold the names that a query's terms
and the terms of rows have, and the rows have names of the query's terms where it fixes them. -/
structure Expansion.Knows (e : Expansion) (values : TermClasses) (q : Query) (rows : List Triple)
    (named : Term → Term → Prop) : Prop where
  own : ∀ x, named x x
  fixed : ∀ i x, q.get i = some x → ∀ y, y ∈ (e.classAt i).terms ↔ named x y
  free : ∀ row ∈ rows, ∀ i, q.get i = none →
    ∀ y, y ∈ ((values.lookup (row.fact.get i)).getD []).terms ↔ named (row.fact.get i) y
  found : ∀ row ∈ rows, ∀ i x, q.get i = some x → named x (row.fact.get i)

namespace Expansion.Knows

variable {e : Expansion} {values : TermClasses} {q : Query} {rows : List Triple}
  {named : Term → Term → Prop} (known : e.Knows values q rows named) {row origin : Triple}
  {i : Position}

include known

theorem mem_choices_fixed (horigin : origin ∈ rows) {x : Term} (hx : q.get i = some x) {y : Term} :
    y ∈ e.choices values q i (origin.fact.get i) ↔ named x y := by
  have own : origin.fact.get i ∈ (e.classAt i).terms :=
    (known.fixed i x hx _).mpr (known.found origin horigin i x hx)
  rw [← known.fixed i x hx, mem_choices (by simp [alternatives, hx, own]) own]

theorem mem_choices_free (horigin : origin ∈ rows) (free : q.get i = none) {y : Term} :
    y ∈ e.choices values q i (origin.fact.get i) ↔ named (origin.fact.get i) y := by
  have members := known.free origin horigin i free
  rw [← members, mem_choices (by simp [alternatives, free]) ((members _).mpr (known.own _))]

theorem varies_iff (horigin : origin ∈ rows) :
    e.Varies values q Position.all origin row ↔
      row.mark = origin.mark ∧ q.Spreads named origin.fact row.fact := by
  constructor
  · intro h
    refine ⟨h.mark, fun i x hx => ⟨known.found origin horigin i x hx, ?_⟩, fun i free => ?_⟩
    · exact (known.mem_choices_fixed horigin hx).mp (h.chosen i (Position.mem_all i))
    · exact (known.mem_choices_free horigin free).mp (h.chosen i (Position.mem_all i))
  · rintro ⟨mark, h⟩
    refine ⟨mark, fun i _ => ?_, fun i hi => absurd (Position.mem_all i) hi⟩
    cases hx : q.get i with
    | none => exact (known.mem_choices_free horigin hx).mpr (h.renamed i hx)
    | some x => exact (known.mem_choices_fixed horigin hx).mpr (h.fixed i x hx).2

theorem canonical_eq_iff_canonicalizes (horigin : origin ∈ rows) :
    q.canonical origin = row ↔
      row.mark = origin.mark ∧ q.Canonicalizes named origin.fact row.fact := by
  rw [Query.canonical_eq_iff]
  refine and_congr_right fun _ => ?_
  constructor
  · intro h
    refine ⟨fun i x hx => ⟨known.found origin horigin i x hx, ?_⟩, fun i free => ?_⟩
    · rw [h i, hx, Option.getD_some]
    · rw [h i, free, Option.getD_none]
  · intro h i
    cases hx : q.get i with
    | none => exact h.kept i hx
    | some x => exact (h.fixed i x hx).2

/-- Reconciling rows gives what they are shown as, with their marks. -/
theorem mem_reconcile {reconcile : Reconcile} :
    row ∈ e.reconcile values q rows reconcile ↔
      ∃ origin ∈ rows, row.mark = origin.mark ∧
        q.Renders reconcile named origin.fact row.fact := by
  cases reconcile with
  | canonicalize =>
    rw [reconcile, mem_distinct, List.mem_map]
    exact exists_congr fun _ => and_congr_right known.canonical_eq_iff_canonicalizes
  | allCombinations =>
    rw [reconcile, mem_distinct, mem_foldl_spread Position.nodup_all]
    exact exists_congr fun _ => and_congr_right known.varies_iff

/-- Reconciled rows have the marks of rows that were found. -/
theorem exists_mark {reconcile : Reconcile} (h : row ∈ e.reconcile values q rows reconcile) :
    ∃ origin ∈ rows, row.mark = origin.mark := by
  obtain ⟨origin, horigin, mark, -⟩ := known.mem_reconcile.mp h
  exact ⟨origin, horigin, mark⟩

/-- Whatever a row attests of its fact is attested of the facts that it is shown as. -/
theorem attests_reconcile {reconcile : Reconcile} {v : Version} {f : Fact} :
    Attests (e.reconcile values q rows reconcile) v f ↔
      ∃ g, Attests rows v g ∧ q.Renders reconcile named g f := by
  constructor
  · rintro ⟨row, hrow, rfl, hv⟩
    obtain ⟨origin, horigin, mark, renders⟩ := known.mem_reconcile.mp hrow
    exact ⟨origin.fact, ⟨origin, horigin, rfl, mark ▸ hv⟩, renders⟩
  · rintro ⟨_, ⟨origin, horigin, rfl, hv⟩, renders⟩
    exact ⟨⟨f, origin.mark⟩, known.mem_reconcile.mpr ⟨origin, horigin, rfl, renders⟩, rfl, hv⟩

end Expansion.Knows

end Annals
