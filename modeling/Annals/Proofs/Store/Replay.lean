import Annals.Proofs.Store.Listing

/-!
# Histories from their differences

The rows between two versions say what the later one has more and what it has less, and the same
rows turned round lead back. Appended version by version to an empty store, every one of them takes
effect, and the store answers as the one they were read off, whatever changes were made and undone
there within one version.
-/

namespace Annals

/-- The other direction of a change. -/
def Mark.opposite : Mark → Mark
  | change asserted => .change !asserted
  | m => m

/-- The row with its change turned round. -/
def Triple.reversed (row : Triple) : Triple := { row with mark := row.mark.opposite }

namespace FactSet

/-- Changes of different facts that take effect one by one all take effect in a run. -/
theorem effective_eq_self {facts : FactSet} {changes : List Change}
    (distinct : (changes.map Change.fact).Nodup)
    (each : ∀ c ∈ changes, c.takesEffect facts = true) : facts.effective changes = changes := by
  induction changes generalizing facts with
  | nil => rfl
  | cons c rest ih =>
    obtain ⟨alone, rest_distinct⟩ := List.nodup_cons.mp distinct
    have later : ∀ d ∈ rest, d.takesEffect (c.apply facts) = true := by
      intro d hd
      have other : d.fact ≠ c.fact := fun same => alone (same ▸ List.mem_map_of_mem hd)
      have untouched : d.fact ∈ c.apply facts ↔ d.fact ∈ facts := by
        rw [Change.mem_apply, if_neg other]
      have before := each d (List.mem_cons_of_mem c hd)
      simpa only [Change.takesEffect, untouched] using before
    rw [effective, if_pos (each c List.mem_cons_self), ih rest_distinct later]

/-- A fact that no change is about stays as it is. -/
theorem mem_applyAll_of_untouched {facts : FactSet} {changes : List Change} {f : Fact}
    (h : ∀ c ∈ changes, c.fact ≠ f) : f ∈ facts.applyAll changes ↔ f ∈ facts := by
  induction changes generalizing facts with
  | nil => rfl
  | cons c rest ih =>
    have other : f ≠ c.fact := fun same => h c List.mem_cons_self same.symm
    calc f ∈ facts.applyAll (c :: rest)
      _ ↔ f ∈ c.apply facts := ih fun d hd => h d (List.mem_cons_of_mem c hd)
      _ ↔ f ∈ facts := by rw [Change.mem_apply, if_neg other]

/-- A fact that one change is about holds if that change asserts it. -/
theorem mem_applyAll_of_mem {facts : FactSet} {changes : List Change} {c : Change}
    (distinct : (changes.map Change.fact).Nodup) (hc : c ∈ changes) :
    c.fact ∈ facts.applyAll changes ↔ c.asserted = true := by
  induction changes generalizing facts with
  | nil => cases hc
  | cons d rest ih =>
    obtain ⟨alone, rest_distinct⟩ := List.nodup_cons.mp distinct
    rcases List.mem_cons.mp hc with rfl | hc
    · have untouched : ∀ d ∈ rest, d.fact ≠ c.fact := fun d hd same =>
        alone (same ▸ List.mem_map_of_mem hd)
      calc c.fact ∈ facts.applyAll (c :: rest)
        _ ↔ c.fact ∈ c.apply facts := mem_applyAll_of_untouched untouched
        _ ↔ c.asserted = true := by rw [Change.mem_apply, if_pos rfl]
    · exact ih rest_distinct hc

end FactSet

namespace Store

variable {s t : Store} {start stop v : Version} {q : Query}

theorem stateAt_of_neg (h : v < 0) : s.stateAt v = ∅ := by
  apply OrderedSet.ext
  intro f
  have none : f ∉ s.stateAt v := fun held => Int.not_le.mpr h (nonneg_of_mem_stateAt held)
  simp [none]

theorem neg_one_le_maxVersion (s : Store) : -1 ≤ s.maxVersion := by
  have nonneg := s.nonneg
  rw [maxVersion]
  generalize s.changesets = cs at nonneg
  cases cs with
  | nil => exact Int.le_refl _
  | cons newest older => exact Int.le_trans (by decide) (nonneg newest List.mem_cons_self)

theorem writable_of_mem_deltaRows {stretch : Interval} {row : Triple}
    (h : row ∈ s.deltaRows q stretch) : row.Writable := by
  rcases (mem_deltaRows.mp h).2 with ⟨marked, held, -⟩ | ⟨marked, held, -⟩
  · exact ⟨isGround_of_mem_stateAt held, true, marked⟩
  · exact ⟨isGround_of_mem_stateAt held, false, marked⟩

/-- The rows back are the rows there turned round. -/
theorem deltaRows_reversed (s : Store) (q : Query) (start stop : Version) :
    s.deltaRows q ⟨stop, start⟩ = (s.deltaRows q ⟨start, stop⟩).map Triple.reversed := by
  have both : s.stateAt stop ∪ s.stateAt start = s.stateAt start ∪ s.stateAt stop := by
    apply OrderedSet.ext
    intro f
    simp only [OrderedSet.mem_union, or_comm]
  simp only [deltaRows, both, List.map_filterMap]
  apply List.filterMap_congr
  intro f _
  by_cases hs : f ∈ s.stateAt start <;> by_cases he : f ∈ s.stateAt stop <;>
    simp [changeBetween, hs, he, Triple.reversed, Mark.opposite]

section Difference

variable {changes : List Change}
  (rows : changes.map Change.row = s.deltaRows .any ⟨start, stop⟩)

include rows

theorem nodup_of_difference : (changes.map Change.fact).Nodup := by
  have nodup := nodup_deltaRows s .any ⟨start, stop⟩
  rwa [← rows, List.map_map] at nodup

/-- A change of the difference asserts what holds at its end alone, and retracts what holds at its
start alone. -/
theorem asserted_iff_of_mem_difference {c : Change} (hc : c ∈ changes) :
    (c.asserted = true ↔ c.fact ∈ s.stateAt stop) ∧
      (c.asserted = true ↔ c.fact ∉ s.stateAt start) := by
  have hrow : c.row ∈ s.deltaRows .any ⟨start, stop⟩ := rows ▸ List.mem_map_of_mem hc
  rcases (mem_deltaRows.mp hrow).2 with ⟨marked, held, new⟩ | ⟨marked, held, gone⟩
  · have asserted : c.asserted = true := Mark.change.inj marked
    exact ⟨iff_of_true asserted held, iff_of_true asserted new⟩
  · have retracted : c.asserted ≠ true := Bool.eq_false_iff.mp (Mark.change.inj marked)
    exact ⟨iff_of_false retracted gone, iff_of_false retracted (not_not_intro held)⟩

/-- What no change of the difference is about is the same at its start and its end. -/
theorem mem_stateAt_iff_of_untouched {f : Fact} (h : ∀ c ∈ changes, c.fact ≠ f) :
    f ∈ s.stateAt start ↔ f ∈ s.stateAt stop := by
  have unlisted : ∀ asserted, ⟨f, .change asserted⟩ ∉ s.deltaRows .any ⟨start, stop⟩ := by
    intro asserted listed
    rw [← rows] at listed
    obtain ⟨c, hc, same⟩ := List.mem_map.mp listed
    exact h c hc (congrArg Triple.fact same)
  constructor
  · intro held
    by_contra gone
    exact unlisted false (mem_deltaRows.mpr ⟨rfl, Or.inr ⟨rfl, held, gone⟩⟩)
  · intro held
    by_contra new
    exact unlisted true (mem_deltaRows.mpr ⟨rfl, Or.inl ⟨rfl, held, new⟩⟩)

/-- The difference leads from the facts at its start to those at its end. -/
theorem applyAll_difference : (s.stateAt start).applyAll changes = s.stateAt stop := by
  apply OrderedSet.ext
  intro f
  by_cases touched : ∃ c ∈ changes, c.fact = f
  · obtain ⟨c, hc, rfl⟩ := touched
    rw [FactSet.mem_applyAll_of_mem (nodup_of_difference rows) hc]
    exact (asserted_iff_of_mem_difference rows hc).1
  · have untouched : ∀ c ∈ changes, c.fact ≠ f := fun c hc same => touched ⟨c, hc, same⟩
    rw [FactSet.mem_applyAll_of_untouched untouched]
    exact mem_stateAt_iff_of_untouched rows untouched

/-- Every change of the difference takes effect. -/
theorem effective_difference : (s.stateAt start).effective changes = changes := by
  apply FactSet.effective_eq_self (nodup_of_difference rows)
  intro c hc
  have old := (asserted_iff_of_mem_difference rows hc).2
  cases h : c.asserted <;> simp_all [Change.takesEffect]

end Difference

/-- Appends batches of rows one after the other, and lists how many rows of each took effect. -/
def appendAll (s : Store) (batches : List (Version × List Triple)) :
    Except StoreError (Store × List Nat) :=
  batches.foldlM (fun (s, counts) (v, rows) => do
    let (t, stored) ← s.append v rows
    return (t, counts ++ [stored])) (s, [])

theorem appendAll_concat {batches : List (Version × List Triple)} {u : Store} {counts : List Nat}
    {rows : List Triple} {stored : Nat} (before : s.appendAll batches = .ok (t, counts))
    (last : t.append v rows = .ok (u, stored)) :
    s.appendAll (batches ++ [(v, rows)]) = .ok (u, counts ++ [stored]) := by
  rw [appendAll, List.foldlM_append, ← appendAll, before]
  simp only [bind, Except.bind, List.foldlM_cons, List.foldlM_nil, last]
  rfl

/-- What the versions from 0 on changed in the one before, as far as wanted. -/
def differences (s : Store) (n : Nat) : List (Version × List Triple) :=
  (List.range n).map fun (k : Nat) => ((k : Version), s.deltaRows .any ⟨k - 1, k⟩)

theorem differences_succ (s : Store) (n : Nat) :
    s.differences (n + 1) = s.differences n ++ [((n : Version), s.deltaRows .any ⟨n - 1, n⟩)] := by
  simp [differences, List.range_succ]

/-- The store is open and has the facts of the other one up to a version, which is its newest. -/
structure Retraces (t s : Store) (v : Version) : Prop where
  isOpen : t.closed = false
  newest : t.maxVersion = v
  states : ∀ w, t.stateAt w = s.stateAt (min w v)

/-- A store that retraces another one up to a version does so up to the next one after the
difference between the two was appended to it, of which every row takes effect. -/
theorem Retraces.next (h : t.Retraces s (v - 1)) (nonneg : 0 ≤ v) :
    ∃ u, t.append v (s.deltaRows .any ⟨v - 1, v⟩) =
        .ok (u, (s.deltaRows .any ⟨v - 1, v⟩).length) ∧ u.Retraces s v := by
  have writable : ∀ row ∈ s.deltaRows .any ⟨v - 1, v⟩, row.Writable := by
    intro row
    exact writable_of_mem_deltaRows
  obtain ⟨changes, rows⟩ := Triple.exists_changes writable
  have newest : t.maxVersion ≤ v := by
    rw [h.newest]
    exact Int.sub_le_self v (by decide)
  have before : t.stateAt t.maxVersion = s.stateAt (v - 1) := by
    rw [h.states, h.newest, Int.min_self]
  have effective : t.current.effective changes = changes := by
    rw [← stateAt_eq_current t (Int.le_refl _), before]
    exact effective_difference rows.symm
  have appended := append_row nonneg newest h.isOpen changes
  rw [effective, ← rows] at appended
  rw [rows, List.length_map, ← rows]
  refine ⟨_, appended, h.isOpen, maxVersion_write nonneg newest, fun w => ?_⟩
  rcases Int.lt_or_le w v with lt | le
  · have earlier : w ≤ v - 1 := Int.le_sub_one_of_lt lt
    rw [stateAt_write_of_lt nonneg newest lt, h.states, Int.min_eq_left earlier,
      Int.min_eq_left (Int.le_of_lt lt)]
  · rw [stateAt_write_of_le nonneg newest le, before, applyAll_difference rows.symm,
      Int.min_eq_right le]

/-- The differences up to a version make an empty store retrace the other one. -/
theorem exists_retraces (s : Store) (n : Nat) :
    ∃ t, empty.appendAll (s.differences n) = .ok (t, (s.differences n).map fun d => d.2.length) ∧
      t.Retraces s (n - 1) := by
  induction n with
  | zero =>
    refine ⟨empty, rfl, rfl, rfl, fun w => ?_⟩
    have nothing : s.stateAt (min w (-1)) = ∅ :=
      stateAt_of_neg (Int.lt_of_le_of_lt (Int.min_le_right _ _) (by decide))
    exact nothing.symm
  | succ n ih =>
    obtain ⟨t, appended, retraces⟩ := ih
    obtain ⟨u, last, next⟩ := retraces.next (Int.natCast_nonneg n)
    have version : ((n + 1 : Nat) : Version) - 1 = n := by
      rw [Int.natCast_succ, Int.add_sub_cancel]
    refine ⟨u, ?_, version ▸ next⟩
    rw [differences_succ, List.map_append]
    exact appendAll_concat appended last

end Store

/-- The rows between two versions of an open store lead from the facts of one to those of the other,
have one row for a fact at the most, and are turned round in the other direction. Appended version
by version to an empty store, the rows between consecutive versions all take effect, and lead to a
store that gives the same answers. -/
theorem differences_encode_history (s : Store) (isOpen : s.closed = false) :
    (∀ start stop, ∃ rows, s.search .any (.delta ⟨start, stop⟩) = .ok rows ∧
      (rows.map Triple.fact).Nodup ∧ (∀ row ∈ rows, ∃ asserted, row.mark = .change asserted) ∧
      (∀ f, f ∈ s.stateAt stop ↔
        (f ∈ s.stateAt start ∧ ⟨f, .change false⟩ ∉ rows) ∨ ⟨f, .change true⟩ ∈ rows) ∧
      s.search .any (.delta ⟨stop, start⟩) = .ok (rows.map Triple.reversed)) ∧
    ∃ copy, Store.empty.appendAll (s.differences (s.maxVersion + 1).toNat) =
        .ok (copy, (s.differences (s.maxVersion + 1).toNat).map fun d => d.2.length) ∧
      copy.maxVersion = s.maxVersion ∧ ∀ q scope, copy.search q scope = s.search q scope := by
  have answers := Store.search_of_open isOpen
  constructor
  · intro start stop
    refine ⟨_, answers .any (.delta ⟨start, stop⟩), Store.nodup_deltaRows s .any ⟨start, stop⟩,
      fun row hrow => (Store.writable_of_mem_deltaRows hrow).2, fun f => ?_, ?_⟩
    · have admitted : Query.any.admits f = true := rfl
      rw [Store.rows, Store.mem_deltaRows, Store.mem_deltaRows]
      by_cases hs : f ∈ s.stateAt start <;> by_cases he : f ∈ s.stateAt stop <;>
        simp [hs, he, admitted]
    · rw [answers]
      exact congrArg Except.ok (Store.deltaRows_reversed s .any start stop)
  · obtain ⟨copy, appended, retraces⟩ := s.exists_retraces (s.maxVersion + 1).toNat
    have last : (((s.maxVersion + 1).toNat : Nat) : Version) - 1 = s.maxVersion := by
      rw [Int.toNat_of_nonneg (Int.le_add_of_sub_right_le s.neg_one_le_maxVersion),
        Int.add_sub_cancel]
    rw [last] at retraces
    refine ⟨copy, appended, retraces.newest, fun q scope => ?_⟩
    apply Store.search_congr (retraces.isOpen.trans isOpen.symm) retraces.newest
    intro v
    rw [retraces.states, Store.stateAt_min]

/-- The copy of the house has a changeset for each of its four versions, two of them empty. -/
theorem differences_of_house :
    Sample.house.closed = false ∧
      ∃ copy, Store.empty.appendAll (Sample.house.differences 4) = .ok (copy, [2, 0, 0, 1]) ∧
        copy.maxVersion = 3 ∧ copy.search .any .history = Sample.house.search .any .history := by
  obtain ⟨-, copy, appended, newest, answers⟩ := differences_encode_history Sample.house rfl
  have counts : (Sample.house.differences 4).map (fun d => d.2.length) = [2, 0, 0, 1] := by
    decide +kernel
  exact ⟨rfl, copy, counts ▸ appended, newest, answers .any .history⟩

end Annals
