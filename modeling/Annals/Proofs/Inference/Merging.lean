import Annals.Proofs.Inference.Repetition

/-!
# Merging versions

Over all versions an answer has one entry a fact, to which every row adds the versions that it
names, and a row is handed on with those of them that are new. So it makes no difference to the
entries how the versions of a fact are spread over rows.

## Implementation notes

The rows of a run all name versions (`Universe.Admits`), and `Attests` speaks of those. Here rows
may be any, and one that is marked otherwise names nothing.
-/

namespace Annals

/-- The versions of a fact that rows name. -/
def versionsIn (rows : List Triple) (f : Fact) : VersionSet :=
  rows.foldr (fun row versions => if row.fact = f then row.versions ∪ versions else versions) ∅

/-- The facts of rows that name a version, in the order in which they first occur in such a row. -/
def datedFacts (rows : List Triple) : List Fact :=
  distinct ((rows.filter fun row => !row.versions.isEmpty).map Triple.fact)

section Rows

variable {rows others : List Triple} {f : Fact} {v : Version}

theorem mem_versionsIn : v ∈ versionsIn rows f ↔ ∃ row ∈ rows, row.Names f v := by
  induction rows with
  | nil => simp [versionsIn]
  | cons row rest ih =>
    rw [List.exists_mem_cons_iff, ← ih, versionsIn, List.foldr_cons, ← versionsIn]
    by_cases h : row.fact = f <;> simp [h, Triple.Names]

theorem mem_datedFacts : f ∈ datedFacts rows ↔ ∃ v, v ∈ versionsIn rows f := by
  simp only [datedFacts, mem_distinct, List.mem_map, List.mem_filter, Bool.not_eq_true',
    OrderedSet.isEmpty_eq_false_iff, mem_versionsIn]
  constructor
  · rintro ⟨row, ⟨hrow, v, hv⟩, rfl⟩
    exact ⟨v, row, hrow, rfl, hv⟩
  · rintro ⟨v, row, hrow, rfl, hv⟩
    exact ⟨row, ⟨hrow, v, hv⟩, rfl⟩

theorem nodup_datedFacts (rows : List Triple) : (datedFacts rows).Nodup := nodup_distinct _

end Rows

namespace HistoryAnswer

variable {a : HistoryAnswer} {row : Triple} {rows more : List Triple} {f : Fact} {v : Version}

/-- Of what rows name, that which is new is handed on in one row. -/
theorem countP_absorb :
    (a.absorb rows).2.countP (fun gained => decide (gained.Names f v)) =
      if v ∈ versionsIn rows f ∧ v ∉ a.versionsOf f then 1 else 0 := by
  simp only [mem_versionsIn]
  induction rows generalizing a with
  | nil => simp [absorb]
  | cons row rest ih =>
    rw [absorb_cons, List.countP_append, countP_gained, ih]
    simp only [mem_versionsOf_add, List.exists_mem_cons_iff]
    by_cases had : v ∈ a.versionsOf f <;> by_cases named : row.Names f v <;> simp [had, named]

/-- Nothing is handed on without versions. -/
theorem exists_version_of_mem_absorb {gained : Triple} (h : gained ∈ (a.absorb rows).2) :
    ∃ versions, gained.mark = .holding versions ∧ ∃ v, v ∈ versions := by
  induction rows generalizing a with
  | nil => exact absurd h List.not_mem_nil
  | cons row rest ih =>
    rw [absorb_cons, List.mem_append] at h
    rcases h with h | h
    · obtain ⟨versions, rfl, -, new⟩ := mem_gained h
      exact ⟨versions, rfl, new⟩
    · exact ih h

theorem mem_keys_of_mem_versionsOf (h : v ∈ a.versionsOf f) : f ∈ a.entries.map Prod.fst := by
  by_contra absent
  have none : a.entries.lookup f = none := by
    refine List.lookup_eq_none_iff.mpr fun entry hentry => bne_iff_ne.mpr ?_
    rintro rfl
    exact absent (List.mem_map_of_mem hentry)
  rw [versionsOf, none] at h
  exact OrderedSet.not_mem_empty v h

/-- A row that names a version puts its fact at the end of those that have entries. -/
theorem map_fst_add (nodup : (a.entries.map Prod.fst).Nodup) :
    (a.add row).1.entries.map Prod.fst =
      distinct (a.entries.map Prod.fst ++
        ([row].filter fun row => !row.versions.isEmpty).map Triple.fact) := by
  cases unnamed : row.versions.isEmpty with
  | true =>
    have nothing : (row.versions \ a.versionsOf row.fact).isEmpty = true :=
      OrderedSet.isEmpty_iff.mpr fun v hv =>
        OrderedSet.isEmpty_iff.mp unnamed v (OrderedSet.mem_sdiff.mp hv).1
    rw [add_eq, if_pos nothing]
    simp [unnamed, distinct_eq_self nodup]
  | false =>
    obtain ⟨v, hv⟩ := OrderedSet.isEmpty_eq_false_iff.mp unnamed
    have keys : ([row].filter fun row => !row.versions.isEmpty).map Triple.fact = [row.fact] := by
      simp [unnamed]
    rw [keys, distinct_concat nodup, add_eq]
    split
    · next none_new =>
      have had : v ∈ a.versionsOf row.fact := by
        by_contra new
        exact OrderedSet.isEmpty_iff.mp none_new v (OrderedSet.mem_sdiff.mpr ⟨hv, new⟩)
      rw [if_pos (mem_keys_of_mem_versionsOf had)]
    · exact map_fst_extend

/-- Facts get their entries in the order in which rows name a version of them. -/
theorem map_fst_absorb (nodup : (a.entries.map Prod.fst).Nodup) :
    (a.absorb rows).1.entries.map Prod.fst =
      distinct (a.entries.map Prod.fst ++
        (rows.filter fun row => !row.versions.isEmpty).map Triple.fact) := by
  induction rows generalizing a with
  | nil => simp [absorb, distinct_eq_self nodup]
  | cons row rest ih =>
    have first : (a.add row).1.entries.map Prod.fst = _ := map_fst_add nodup
    have later : ((a.add row).1.entries.map Prod.fst).Nodup := first ▸ nodup_distinct _
    rw [absorb_cons, ih later, first, distinct_distinct_append, List.append_assoc,
      ← List.map_append, ← List.filter_append, List.singleton_append]

/-- If no fact has two entries, they are the versions of the facts. -/
theorem entries_eq_map (nodup : (a.entries.map Prod.fst).Nodup) :
    a.entries = (a.entries.map Prod.fst).map fun f => (f, a.versionsOf f) := by
  obtain ⟨entries⟩ := a
  simp only [versionsOf] at nodup ⊢
  induction entries with
  | nil => rfl
  | cons entry rest ih =>
    obtain ⟨e, known⟩ := entry
    obtain ⟨first, others⟩ := List.nodup_cons.mp nodup
    have below : ∀ f ∈ rest.map Prod.fst,
        (f, (((e, known) :: rest).lookup f).getD ∅) = (f, (rest.lookup f).getD ∅) := by
      intro f hf
      have differ : (f == e) = false := beq_false_of_ne fun same => first (same ▸ hf)
      rw [List.lookup_cons, differ]
    rw [List.map_cons, List.map_cons, List.map_congr_left below, ← ih others, List.lookup_cons_self,
      Option.getD_some]

/-- What an answer has of a fact, if nothing was known before. -/
theorem versionsOf_absorb_empty (rows : List Triple) (f : Fact) :
    ((⟨[]⟩ : HistoryAnswer).absorb rows).1.versionsOf f = versionsIn rows f := by
  apply OrderedSet.ext
  intro v
  rw [mem_versionsOf_absorb, mem_versionsIn]
  exact or_iff_right (OrderedSet.not_mem_empty v)

theorem rows_absorb_empty (rows : List Triple) :
    ((⟨[]⟩ : HistoryAnswer).absorb rows).1.rows =
      (datedFacts rows).map fun f => ⟨f, .holding (versionsIn rows f)⟩ := by
  have keys : ((⟨[]⟩ : HistoryAnswer).absorb rows).1.entries.map Prod.fst = datedFacts rows :=
    map_fst_absorb List.nodup_nil
  rw [HistoryAnswer.rows, entries_eq_map (keys ▸ nodup_datedFacts rows), keys, List.map_map]
  simp only [versionsOf_absorb_empty, Function.comp_def]

theorem absorb_append :
    a.absorb (rows ++ more) =
      (((a.absorb rows).1.absorb more).1,
        (a.absorb rows).2 ++ ((a.absorb rows).1.absorb more).2) := by
  induction rows generalizing a with
  | nil => rfl
  | cons row rest ih => rw [List.cons_append, absorb_cons, ih, absorb_cons, List.append_assoc]

end HistoryAnswer

section Merge

variable {rows others : List Triple}

/-- Merged rows have one row for each fact that a version is named of. -/
theorem mergeByFact_eq (rows : List Triple) :
    mergeByFact rows = (datedFacts rows).map fun f => ⟨f, .holding (versionsIn rows f)⟩ :=
  HistoryAnswer.rows_absorb_empty rows

theorem versionsIn_mergeByFact (f : Fact) :
    versionsIn (mergeByFact rows) f = versionsIn rows f := by
  apply OrderedSet.ext
  intro v
  rw [mem_versionsIn, mergeByFact_eq]
  constructor
  · rintro ⟨row, hrow, rfl, hv⟩
    obtain ⟨g, -, rfl⟩ := List.mem_map.mp hrow
    exact hv
  · intro hv
    exact ⟨_, List.mem_map_of_mem (mem_datedFacts.mpr ⟨v, hv⟩), rfl, hv⟩

theorem datedFacts_mergeByFact : datedFacts (mergeByFact rows) = datedFacts rows := by
  have dated : ∀ row ∈ mergeByFact rows, (!row.versions.isEmpty) = true := by
    intro row hrow
    rw [mergeByFact_eq] at hrow
    obtain ⟨f, hf, rfl⟩ := List.mem_map.mp hrow
    rw [Bool.not_eq_true', OrderedSet.isEmpty_eq_false_iff]
    exact mem_datedFacts.mp hf
  have facts : (mergeByFact rows).map Triple.fact = datedFacts rows := by
    rw [mergeByFact_eq, List.map_map]
    exact List.map_id _
  rw [datedFacts, List.filter_eq_self.mpr dated, facts, distinct_eq_self (nodup_datedFacts rows)]

/-- Merged rows stay as they are when they are merged again. -/
theorem mergeByFact_mergeByFact (rows : List Triple) :
    mergeByFact (mergeByFact rows) = mergeByFact rows := by
  rw [mergeByFact_eq, datedFacts_mergeByFact]
  simp only [versionsIn_mergeByFact]
  rw [mergeByFact_eq]

/-- The order of rows decides on the order of the merged rows alone. -/
theorem mergeByFact_perm (h : others.Perm rows) : (mergeByFact others).Perm (mergeByFact rows) := by
  have versions : ∀ f, versionsIn others f = versionsIn rows f := by
    intro f
    apply OrderedSet.ext
    intro v
    simp only [mem_versionsIn, h.mem_iff]
  have facts : (datedFacts others).Perm (datedFacts rows) := by
    refine (List.perm_ext_iff_of_nodup (nodup_datedFacts _) (nodup_datedFacts _)).mpr fun f => ?_
    rw [mem_datedFacts, mem_datedFacts, versions]
  rw [mergeByFact_eq, mergeByFact_eq]
  simp only [versions]
  exact facts.map _

end Merge

end Annals
