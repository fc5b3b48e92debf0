import Annals.Proofs.Store.Append
import Annals.Proofs.Store.Rows

/-!
# What a store lists

The answers of an open store list facts in strictly ascending order. They depend on the facts that
hold at each version and on the newest version alone, so two histories that agree in these cannot be
told apart. An answer over all versions is made from stretches of unchanged facts, and one at a
version from the changes up to it; a fact has a version in the former if and only if it is listed in
the latter.
-/

namespace Annals

namespace Store

variable {s t : Store} {q : Query}

theorem search_of_open (isOpen : s.closed = false) (q : Query) (scope : Scope) :
    s.search q scope = .ok (s.rows q scope) :=
  search_eq_ok_iff.mpr ⟨isOpen, rfl⟩

/-- After the newest version nothing changes. -/
theorem stateAt_min (s : Store) (v : Version) : s.stateAt (min v s.maxVersion) = s.stateAt v := by
  rcases Int.le_total v s.maxVersion with le | le
  · rw [Int.min_eq_left le]
  · rw [Int.min_eq_right le, stateAt_eq_current s le, stateAt_eq_current s (Int.le_refl _)]

/-- What holds at some version holds at one up to the newest. -/
theorem exists_le_maxVersion_iff (s : Store) {f : Fact} :
    (∃ v, v ≤ s.maxVersion ∧ f ∈ s.stateAt v) ↔ ∃ v, f ∈ s.stateAt v := by
  constructor
  · rintro ⟨v, -, hf⟩
    exact ⟨v, hf⟩
  · rintro ⟨v, hf⟩
    exact ⟨min v s.maxVersion, Int.min_le_right _ _, (s.stateAt_min v).symm ▸ hf⟩

theorem ascending_snapshotRows (s : Store) (q : Query) (moment : Snapshot) :
    ((s.snapshotRows q moment).map Triple.fact).Pairwise fun f g => compare f g = .lt := by
  have wanted := (s.stateAt moment.version).ascending.filter q.admits
  cases h : moment.limit with
  | none => simpa [snapshotRows, h, Function.comp_def] using wanted
  | some n => simpa [snapshotRows, h, Function.comp_def] using wanted.take

/-- Without a limit the rows of a version are its facts that the query admits. -/
theorem mem_versionRows_iff {v : Version} {row : Triple} :
    row ∈ s.rows q (.version v) ↔
      row.mark = .plain ∧ row.fact ∈ s.stateAt v ∧ q.admits row.fact = true := by
  constructor
  · intro listed
    have inSnapshot : row ∈ s.snapshotRows q ⟨v, none⟩ := listed
    exact mem_snapshotRows inSnapshot
  · obtain ⟨f, mark⟩ := row
    rintro ⟨rfl, held, admitted⟩
    exact List.mem_map_of_mem (List.mem_filter.mpr ⟨held, admitted⟩)

/-- A limit takes the first rows. -/
theorem snapshotRows_limit (s : Store) (q : Query) (v : Version) (n : Nat) :
    s.snapshotRows q ⟨v, some n⟩ = (s.snapshotRows q ⟨v, none⟩).take n := List.map_take

theorem map_fact_historyRows (s : Store) (q : Query) :
    (s.historyRows q).map Triple.fact = (Span.everHeld (s.spans.map (Span.restrict q))).toList := by
  simp [historyRows, Function.comp_def]

/-- A fact is in one of the stretches if and only if it holds at some version. -/
theorem mem_everHeld_iff {f : Fact} :
    f ∈ Span.everHeld (s.spans.map (Span.restrict q)) ↔
      ∃ v, v ≤ s.maxVersion ∧ f ∈ s.stateAt v ∧ q.admits f = true := by
  constructor
  · intro h
    obtain ⟨versions, -, ⟨v, hv⟩, members⟩ := mem_historyRows (List.mem_map_of_mem h)
    exact ⟨v, (members v).mp hv⟩
  · rintro ⟨v, h⟩
    obtain ⟨span, hspan, hfact, -⟩ := exists_span_restrict_iff.mpr h
    exact Span.mem_everHeld.mpr ⟨span, hspan, hfact⟩

theorem historyRows_congr (newest : t.maxVersion = s.maxVersion)
    (states : ∀ v, t.stateAt v = s.stateAt v) : t.historyRows q = s.historyRows q := by
  have facts : Span.everHeld (t.spans.map (Span.restrict q)) =
      Span.everHeld (s.spans.map (Span.restrict q)) := by
    apply OrderedSet.ext
    intro f
    simp only [mem_everHeld_iff, newest, states]
  have versions : ∀ f, Span.versionsOf (t.spans.map (Span.restrict q)) f =
      Span.versionsOf (s.spans.map (Span.restrict q)) f := by
    intro f
    apply OrderedSet.ext
    intro v
    simp only [Span.mem_versionsOf, exists_span_restrict_iff, newest, states]
  rw [historyRows, facts]
  simp only [versions]
  rfl

/-- Stores that agree in the facts at each version and in the newest one answer alike. -/
theorem search_congr (closed : t.closed = s.closed) (newest : t.maxVersion = s.maxVersion)
    (states : ∀ v, t.stateAt v = s.stateAt v) (q : Query) (scope : Scope) :
    t.search q scope = s.search q scope := by
  have rows : t.rows q scope = s.rows q scope := by
    cases scope with
    | snapshot moment => simp only [Store.rows, snapshotRows, states]
    | delta stretch => simp only [Store.rows, deltaRows, states]
    | history => exact historyRows_congr newest states
  rw [search, search, closed, rows]

end Store

/-- An open store lists over all versions each fact that a query admits and that holds at some
version, in one row and in ascending order, with the versions up to the newest one at which a search
of that version lists it. The rows of a version are in ascending order too, and a limit takes the
first ones. -/
theorem history_search_agrees_with_snapshots (s : Store) (isOpen : s.closed = false) (q : Query) :
    (∃ rows, s.search q .history = .ok rows ∧
      (rows.map Triple.fact).Pairwise (fun f g => compare f g = .lt) ∧
      (∀ f, f ∈ rows.map Triple.fact ↔ q.admits f = true ∧ ∃ v, f ∈ s.stateAt v) ∧
      ∀ row ∈ rows, ∃ versions, row.mark = .holding versions ∧ (∃ v, v ∈ versions) ∧
        ∀ v, v ∈ versions ↔ (0 ≤ v ∧ v ≤ s.maxVersion) ∧
          ∃ found, s.search q (.version v) = .ok found ∧ ⟨row.fact, .plain⟩ ∈ found) ∧
    ∀ v, ∃ found, s.search q (.version v) = .ok found ∧
      (found.map Triple.fact).Pairwise (fun f g => compare f g = .lt) ∧
      (∀ row, row ∈ found ↔
        row.mark = .plain ∧ row.fact ∈ s.stateAt v ∧ q.admits row.fact = true) ∧
      ∀ n, s.search q (.snapshot ⟨v, some n⟩) = .ok (found.take n) := by
  have answers := Store.search_of_open isOpen q
  simp only [answers]
  constructor
  · refine ⟨_, rfl, ?_, fun f => ?_, fun row hrow => ?_⟩
    · rw [Store.rows, Store.map_fact_historyRows]
      exact OrderedSet.ascending _
    · rw [Store.rows, Store.map_fact_historyRows, ← OrderedSet.mem_def, Store.mem_everHeld_iff]
      constructor
      · rintro ⟨v, -, held, admitted⟩
        exact ⟨admitted, v, held⟩
      · rintro ⟨admitted, v, held⟩
        rw [← Store.stateAt_min] at held
        exact ⟨_, Int.min_le_right _ _, held, admitted⟩
    · obtain ⟨versions, marked, nonempty, members⟩ := Store.mem_historyRows hrow
      refine ⟨versions, marked, nonempty, fun v => ?_⟩
      rw [members]
      constructor
      · rintro ⟨le, held, admitted⟩
        exact ⟨⟨Store.nonneg_of_mem_stateAt held, le⟩, _, rfl,
          Store.mem_versionRows_iff.mpr ⟨rfl, held, admitted⟩⟩
      · rintro ⟨⟨-, le⟩, found, ok, listed⟩
        obtain rfl := Except.ok.inj ok
        exact ⟨le, (Store.mem_versionRows_iff.mp listed).2⟩
  · intro v
    refine ⟨_, rfl, Store.ascending_snapshotRows s q ⟨v, none⟩,
      fun row => Store.mem_versionRows_iff, fun n => ?_⟩
    exact congrArg Except.ok (Store.snapshotRows_limit s q v n)

/-- The lamp is listed with a version that nothing was written at, and not with the one at which it
was put out. -/
theorem history_search_of_house :
    Sample.house.closed = false ∧ ∃ rows versions,
      Sample.house.search .any .history = .ok rows ∧
      ⟨Sample.lampIsLit, .holding versions⟩ ∈ rows ∧ 2 ∈ versions ∧ 3 ∉ versions := by
  obtain ⟨⟨rows, ok, -, facts, marks⟩, moments⟩ :=
    history_search_agrees_with_snapshots Sample.house rfl .any
  have lit : Sample.lampIsLit ∈ Sample.house.stateAt 2 := by decide +kernel
  have out : Sample.lampIsLit ∉ Sample.house.stateAt 3 := by decide +kernel
  obtain ⟨⟨f, mark⟩, hrow, rfl⟩ := List.mem_map.mp ((facts Sample.lampIsLit).mpr ⟨rfl, 2, lit⟩)
  obtain ⟨versions, rfl, -, members⟩ := marks _ hrow
  refine ⟨rfl, rows, versions, ok, hrow, ?_, ?_⟩
  · obtain ⟨found, search, -, listed, -⟩ := moments 2
    exact (members 2).mpr ⟨by decide, found, search, (listed _).mpr ⟨rfl, lit, rfl⟩⟩
  · intro h
    obtain ⟨-, found, search, hfound⟩ := (members 3).mp h
    obtain ⟨also, again, -, listed, -⟩ := moments 3
    obtain rfl := Except.ok.inj (search.symm.trans again)
    exact out ((listed _).mp hfound).2.1

end Annals
