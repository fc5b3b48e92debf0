import Annals.Store.Basic

/-!
# What appending does

An append keeps the changes that make a difference and drops the others, which leads to the same
facts. What is kept goes to the end of the history, into the newest changeset if that is of the same
version. So no older version changes, and rows may be appended to a version in any number of parts.
-/

namespace Annals

namespace Change

theorem apply_of_takesEffect_eq_false {facts : FactSet} {c : Change}
    (h : c.takesEffect facts = false) : c.apply facts = facts := by
  have same : c.asserted = decide (c.fact ∈ facts) := by simpa [takesEffect] using h
  apply OrderedSet.ext
  intro f
  rw [mem_apply]
  by_cases he : f = c.fact
  · rw [if_pos he, he, same, decide_eq_true_iff]
  · rw [if_neg he]

/-- The row that asks for the change. -/
def row (c : Change) : Triple := ⟨c.fact, .change c.asserted⟩

theorem ofTriple_row (c : Change) : ofTriple c.row = .ok c := by
  simp [ofTriple, row, Mark.asserted?, c.ground]

theorem mapM_ofTriple_row (changes : List Change) :
    (changes.map row).mapM ofTriple = .ok changes := by
  induction changes with
  | nil => rfl
  | cons c rest ih =>
    rw [List.map_cons, List.mapM_cons, ofTriple_row, ih]
    rfl

end Change

namespace Triple

/-- The row asserts or retracts a fact without variables. -/
def Writable (row : Triple) : Prop :=
  row.fact.isGround = true ∧ ∃ asserted, row.mark = .change asserted

/-- The facts after the row was written: an assertion adds its fact and a retraction takes it
away. -/
def revise (facts : FactSet) (row : Triple) : FactSet :=
  if row.isAssertion then facts.insert row.fact else facts.erase row.fact

/-- Rows that can be written are those that ask for changes. -/
theorem exists_changes {rows : List Triple} (writable : ∀ row ∈ rows, row.Writable) :
    ∃ changes : List Change, rows = changes.map Change.row := by
  induction rows with
  | nil => exact ⟨[], rfl⟩
  | cons row rest ih =>
    obtain ⟨changes, rfl⟩ := ih fun other h => writable other (List.mem_cons_of_mem row h)
    obtain ⟨ground, asserted, marked⟩ := writable row List.mem_cons_self
    refine ⟨⟨row.fact, asserted, ground⟩ :: changes, ?_⟩
    rw [List.map_cons, Change.row, ← marked]

end Triple

namespace FactSet

/-- The facts after rows were written one after the other. -/
def revised (facts : FactSet) (rows : List Triple) : FactSet := rows.foldl Triple.revise facts

theorem revised_map_row (facts : FactSet) (changes : List Change) :
    facts.revised (changes.map Change.row) = facts.applyAll changes := by
  have each : ∀ (facts : FactSet) (c : Change), Triple.revise facts c.row = c.apply facts := by
    intro facts c
    cases h : c.asserted <;>
      simp [Triple.revise, Triple.isAssertion, Change.row, Change.apply, Mark.asserted?, h]
  rw [revised, List.foldl_map, applyAll]
  simp only [each]

theorem applyAll_append (facts : FactSet) (changes more : List Change) :
    facts.applyAll (changes ++ more) = (facts.applyAll changes).applyAll more := List.foldl_append

/-- A change that takes no effect may be left out. -/
theorem applyAll_cons_of_idle {facts : FactSet} {c : Change} {rest : List Change}
    (idle : c.takesEffect facts = false) : facts.applyAll (c :: rest) = facts.applyAll rest := by
  calc facts.applyAll (c :: rest)
    _ = (c.apply facts).applyAll rest := rfl
    _ = facts.applyAll rest := by rw [Change.apply_of_takesEffect_eq_false idle]

/-- The changes that take effect lead to the same facts as all changes. -/
theorem applyAll_effective (facts : FactSet) (changes : List Change) :
    facts.applyAll (facts.effective changes) = facts.applyAll changes := by
  induction changes generalizing facts with
  | nil => rfl
  | cons c rest ih =>
    rw [effective]
    split
    · exact ih (c.apply facts)
    · next idle => rw [ih facts, applyAll_cons_of_idle (Bool.eq_false_iff.mpr idle)]

/-- Whether a change takes effect depends on the changes before it through the facts they lead
to. -/
theorem effective_append (facts : FactSet) (changes more : List Change) :
    facts.effective (changes ++ more) =
      facts.effective changes ++ (facts.applyAll changes).effective more := by
  induction changes generalizing facts with
  | nil => rfl
  | cons c rest ih =>
    rw [List.cons_append, effective, effective]
    split
    · exact congrArg (c :: ·) (ih (c.apply facts))
    · next idle => rw [ih facts, applyAll_cons_of_idle (Bool.eq_false_iff.mpr idle)]

end FactSet

namespace Changeset

variable {v w : Version} {changes more : List Change} {cs : List Changeset}

@[simp] theorem latest_record : latest (record v changes cs) = v := by
  cases cs with
  | nil => rfl
  | cons c older =>
    rw [record]
    split <;> rfl

theorem state_record : state (record v changes cs) = (state cs).applyAll changes := by
  cases cs with
  | nil => rfl
  | cons c older =>
    rw [record]
    split
    · exact FactSet.applyAll_append _ _ _
    · rfl

/-- Recorded changes are in the part of the history from their version on. -/
theorem filter_record (h : w < v) :
    (record v changes cs).filter (·.version ≤ w) = cs.filter (·.version ≤ w) := by
  have late : ¬ v ≤ w := Int.not_le.mpr h
  cases cs with
  | nil => simp [record, late]
  | cons c older =>
    rw [record]
    split
    · next same => simp [same, late]
    · simp [late]

/-- Changes that are recorded at one version may be recorded in two parts. -/
theorem record_record :
    record v more (record v changes cs) = record v (changes ++ more) cs := by
  cases cs with
  | nil => simp [record]
  | cons c older =>
    by_cases same : c.version = v
    · simp [record, same]
    · simp [record, same]

end Changeset

namespace Store

/-- Two stores with the same history are the same if both are open or both closed. -/
theorem eq_of_changesets {s t : Store} (history : s.changesets = t.changesets)
    (closed : s.closed = t.closed) : s = t := by
  cases s
  cases t
  simp_all

section Write

variable {s : Store} {v : Version} (nonneg : 0 ≤ v) (newest : s.maxVersion ≤ v)

/-- The store after changes were made at its newest version or one after it. -/
def write (s : Store) {v : Version} (nonneg : 0 ≤ v) (newest : s.maxVersion ≤ v)
    (changes : List Change) : Store where
  changesets := Changeset.record v (s.current.effective changes) s.changesets
  closed := s.closed
  descending := Changeset.descending_record s.descending newest
  nonneg := Changeset.nonneg_record s.nonneg nonneg

/-- An open store takes all changes at its newest version or one after it, and counts those that
take effect. -/
theorem append_row (isOpen : s.closed = false) (changes : List Change) :
    s.append v (changes.map Change.row) =
      .ok (s.write nonneg newest changes, (s.current.effective changes).length) := by
  have fits : ¬ (v < 0 ∨ v < s.maxVersion) :=
    not_or.mpr ⟨Int.not_lt.mpr nonneg, Int.not_lt.mpr newest⟩
  rw [append, if_neg (by simp [isOpen]), dif_neg fits, Change.mapM_ofTriple_row]
  rfl

variable {changes more : List Change}

@[simp] theorem maxVersion_write : (s.write nonneg newest changes).maxVersion = v :=
  Changeset.latest_record

theorem current_write : (s.write nonneg newest changes).current = s.current.applyAll changes := by
  rw [current, write, Changeset.state_record]
  exact FactSet.applyAll_effective s.current changes

/-- Older versions stay as they are. -/
theorem stateAt_write_of_lt {w : Version} (h : w < v) :
    (s.write nonneg newest changes).stateAt w = s.stateAt w := by
  rw [stateAt, write, Changeset.filter_record h, stateAt]

/-- From the version of the changes on, the facts are those that the changes lead to. -/
theorem stateAt_write_of_le {w : Version} (h : v ≤ w) :
    (s.write nonneg newest changes).stateAt w = (s.stateAt s.maxVersion).applyAll changes := by
  have late : (s.write nonneg newest changes).maxVersion ≤ w := by
    rwa [maxVersion_write]
  rw [stateAt_eq_current _ late, current_write, stateAt_eq_current s (Int.le_refl _)]

/-- Changes may be made in two parts. -/
theorem write_write :
    (s.write nonneg newest changes).write nonneg (Int.le_of_eq (maxVersion_write nonneg newest))
      more = s.write nonneg newest (changes ++ more) := by
  apply eq_of_changesets
  · change Changeset.record v ((s.write nonneg newest changes).current.effective more)
      (Changeset.record v (s.current.effective changes) s.changesets) =
        Changeset.record v (s.current.effective (changes ++ more)) s.changesets
    rw [Changeset.record_record, current_write, FactSet.effective_append]
  · rfl

end Write

end Store

/-- An open store takes any rows that can be written to its newest version or one after it. Versions
before that one stay as they are, and from it on the facts are those of the newest version after the
rows were written one after the other. Appending the rows in two parts leads to the same store, and
counts as many changes. -/
theorem append_revises_newest_version (s : Store) (isOpen : s.closed = false) (v : Version)
    (nonneg : 0 ≤ v) (newest : s.maxVersion ≤ v) (rows more : List Triple)
    (writable : ∀ row ∈ rows ++ more, row.Writable) :
    ∃ grown stored, s.append v (rows ++ more) = .ok (grown, stored) ∧ grown.maxVersion = v ∧
      (∀ w, w < v → grown.stateAt w = s.stateAt w) ∧
      (∀ w, v ≤ w → grown.stateAt w = (s.stateAt s.maxVersion).revised (rows ++ more)) ∧
      ∃ half first second, s.append v rows = .ok (half, first) ∧
        half.append v more = .ok (grown, second) ∧ first + second = stored := by
  obtain ⟨earlier, later⟩ := List.forall_mem_append.mp writable
  obtain ⟨changes, rfl⟩ := Triple.exists_changes earlier
  obtain ⟨others, rfl⟩ := Triple.exists_changes later
  rw [← List.map_append, FactSet.revised_map_row]
  have latest : (s.write nonneg newest changes).maxVersion ≤ v :=
    Int.le_of_eq (Store.maxVersion_write nonneg newest)
  have again := Store.append_row nonneg latest isOpen others
  rw [Store.write_write, Store.current_write] at again
  refine ⟨_, _, Store.append_row nonneg newest isOpen (changes ++ others),
    Store.maxVersion_write nonneg newest, fun w h => Store.stateAt_write_of_lt nonneg newest h,
    fun w h => Store.stateAt_write_of_le nonneg newest h, _, _, _,
    Store.append_row nonneg newest isOpen changes, again, ?_⟩
  rw [FactSet.effective_append, List.length_append]

namespace Sample

def lampIsLit : Fact := ⟨⟨"lamp"⟩, ⟨"is"⟩, ⟨"lit"⟩⟩

def doorIsOpen : Fact := ⟨⟨"door"⟩, ⟨"is"⟩, ⟨"open"⟩⟩

theorem isGround_lampIsLit : lampIsLit.isGround = true := by decide

/-- The lamp is lit and the door open, until the lamp is put out three versions later. -/
def house : Store where
  changesets :=
    [⟨3, [⟨lampIsLit, false, isGround_lampIsLit⟩]⟩,
      ⟨0, [⟨doorIsOpen, true, by decide⟩, ⟨lampIsLit, true, isGround_lampIsLit⟩]⟩]
  closed := false
  descending := by decide
  nonneg := by decide

/-- The lamp is lit twice. -/
def lighting : List Triple := [⟨lampIsLit, .change true⟩, ⟨lampIsLit, .change true⟩]

/-- The lamp is put out. -/
def putOut : List Triple := [⟨lampIsLit, .change false⟩]

end Sample

/-- The lamp is lit and put out at the version at which it was put out before. -/
theorem append_to_house :
    Sample.house.closed = false ∧ (0 : Version) ≤ 3 ∧ Sample.house.maxVersion ≤ 3 ∧
      (∀ row ∈ Sample.lighting ++ Sample.putOut, row.Writable) ∧
      ∃ grown stored, Sample.house.append 3 (Sample.lighting ++ Sample.putOut) =
          .ok (grown, stored) ∧
        grown.stateAt 2 = Sample.house.stateAt 2 ∧
        grown.stateAt 3 =
          (Sample.house.stateAt 3).revised (Sample.lighting ++ Sample.putOut) ∧
        ∃ half first second, Sample.house.append 3 Sample.lighting = .ok (half, first) ∧
          half.append 3 Sample.putOut = .ok (grown, second) ∧ first + second = stored := by
  have writable : ∀ row ∈ Sample.lighting ++ Sample.putOut, row.Writable := by
    simp [Sample.lighting, Sample.putOut, Triple.Writable, Sample.isGround_lampIsLit]
  obtain ⟨grown, stored, ok, -, older, newer, parts⟩ :=
    append_revises_newest_version Sample.house rfl 3 (by decide) (by decide) Sample.lighting
      Sample.putOut writable
  exact ⟨rfl, by decide, by decide, writable, grown, stored, ok, older 2 (by decide),
    newer 3 (by decide), parts⟩

end Annals
