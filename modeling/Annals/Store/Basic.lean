import Annals.Store.Error

/-!
# Histories of facts

A store keeps one changeset for every version that was written to, and only changes that took
effect when they were made. Its state at a version is what the changesets up to there leave behind,
so a version that was skipped has the state of the one before it.
-/

namespace Annals

/-- A set of facts, listed by subject, predicate and object. -/
abbrev FactSet := OrderedSet Fact

/-- A ground fact becomes true or false. -/
structure Change where
  fact : Fact
  asserted : Bool
  ground : fact.isGround = true
  deriving DecidableEq

namespace Change

/-- The facts after the change. -/
def apply (facts : FactSet) (c : Change) : FactSet :=
  if c.asserted then facts.insert c.fact else facts.erase c.fact

@[simp] theorem mem_apply {facts : FactSet} {c : Change} {f : Fact} :
    f ∈ c.apply facts ↔ if f = c.fact then c.asserted = true else f ∈ facts := by
  unfold apply
  cases c.asserted <;> by_cases h : f = c.fact <;> simp [h]

/-- The change makes a difference: an assertion of what does not hold, or a retraction of what
does. -/
def takesEffect (facts : FactSet) (c : Change) : Bool := c.asserted != decide (c.fact ∈ facts)

/-- The change that a row asks for. A row has to say which it is before its terms are looked at. -/
def ofTriple (row : Triple) : Except StoreError Change :=
  match row.mark.asserted? with
  | none => .error (.unflagged row)
  | some asserted =>
    if ground : row.fact.isGround = true then .ok ⟨row.fact, asserted, ground⟩
    else .error (.unbound row)

end Change

/-- Facts after a run of changes. -/
def FactSet.applyAll (facts : FactSet) (changes : List Change) : FactSet :=
  changes.foldl Change.apply facts

/-- The changes of a run that take effect, each judged by what those before it leave behind. -/
def FactSet.effective (facts : FactSet) : List Change → List Change
  | [] => []
  | c :: rest =>
    if c.takesEffect facts then c :: FactSet.effective (c.apply facts) rest
    else FactSet.effective facts rest

/-- The changes made at one version. -/
structure Changeset where
  version : Version
  changes : List Change
  deriving DecidableEq

namespace Changeset

/-- The facts that changesets leave behind, the newest being listed first. -/
def state : List Changeset → FactSet
  | [] => ∅
  | c :: older => (state older).applyAll c.changes

/-- Adds changes to the newest changeset if it is of the given version, and as a new one if not. -/
def record (v : Version) (changes : List Change) : List Changeset → List Changeset
  | [] => [⟨v, changes⟩]
  | c :: older =>
    if c.version = v then ⟨v, c.changes ++ changes⟩ :: older else ⟨v, changes⟩ :: c :: older

/-- The version of the newest changeset. -/
def latest : List Changeset → Version
  | [] => noVersion
  | c :: _ => c.version

end Changeset

/-- A versioned set of facts. -/
structure Store where
  /-- The changesets, the newest first. -/
  changesets : List Changeset
  closed : Bool
  descending : changesets.Pairwise fun newer older => older.version < newer.version
  nonneg : ∀ c ∈ changesets, 0 ≤ c.version
  deriving DecidableEq

namespace Changeset

theorem nonneg_record {v : Version} {changes : List Change} {cs : List Changeset}
    (nonneg : ∀ c ∈ cs, 0 ≤ c.version) (hv : 0 ≤ v) : ∀ c ∈ record v changes cs, 0 ≤ c.version := by
  cases cs with
  | nil => simpa [record] using hv
  | cons c older =>
    rw [record]
    split <;> simp_all

theorem descending_record {v : Version} {changes : List Change} {cs : List Changeset}
    (descending : cs.Pairwise fun newer older => older.version < newer.version)
    (hv : latest cs ≤ v) :
    (record v changes cs).Pairwise fun newer older => older.version < newer.version := by
  cases cs with
  | nil => simp [record]
  | cons c older =>
    obtain ⟨below, rest⟩ := List.pairwise_cons.1 descending
    rw [record]
    split
    · next same => exact List.pairwise_cons.2 ⟨fun d hd => same ▸ below d hd, rest⟩
    · next other =>
      have hlt : c.version < v := Std.lt_of_le_of_ne hv other
      refine List.pairwise_cons.2 ⟨fun d hd => ?_, descending⟩
      rcases List.mem_cons.1 hd with rfl | hd
      · exact hlt
      · exact Int.lt_trans (below d hd) hlt

end Changeset

namespace Store

/-- The store that nothing was written to. -/
def empty : Store := ⟨[], false, .nil, by simp⟩

instance : Inhabited Store := ⟨empty⟩

/-- The newest version that was written to. -/
def maxVersion (s : Store) : Version := Changeset.latest s.changesets

/-- The number of changes kept. -/
def changeCount (s : Store) : Nat :=
  s.changesets.foldr (fun c n => c.changes.length + n) 0

/-- The facts that hold at a version. -/
def stateAt (s : Store) (v : Version) : FactSet :=
  Changeset.state (s.changesets.filter (·.version ≤ v))

/-- The facts that hold at the newest version. -/
def current (s : Store) : FactSet := Changeset.state s.changesets

/-- No changeset is newer than the newest version. -/
theorem version_le_maxVersion (s : Store) {c : Changeset} (hc : c ∈ s.changesets) :
    c.version ≤ s.maxVersion := by
  have below := s.descending
  rw [maxVersion]
  generalize s.changesets = cs at hc below
  cases cs with
  | nil => cases hc
  | cons newest older =>
    rcases List.mem_cons.1 hc with rfl | hc
    · exact Int.le_refl _
    · exact Int.le_of_lt ((List.pairwise_cons.1 below).1 c hc)

/-- From the newest version on the state does not change. -/
theorem stateAt_eq_current (s : Store) {v : Version} (hv : s.maxVersion ≤ v) :
    s.stateAt v = s.current := by
  have all : s.changesets.filter (·.version ≤ v) = s.changesets :=
    List.filter_eq_self.2 fun c hc =>
      decide_eq_true (Int.le_trans (s.version_le_maxVersion hc) hv)
  rw [stateAt, all, current]

/-- Ends the use of the store. -/
def close (s : Store) : Store := { s with closed := true }

/-- Writes rows to the newest version or to one after it, and counts those that take effect. All
rows are checked before the first one is written. -/
def append (s : Store) (v : Version) (rows : List Triple) : Except StoreError (Store × Nat) :=
  if s.closed then .error .closed
  else if h : v < 0 ∨ v < s.maxVersion then .error (.stale v s.maxVersion)
  else do
    let changes ← rows.mapM Change.ofTriple
    let effective := s.current.effective changes
    return (
      { s with
        changesets := Changeset.record v effective s.changesets
        descending := Changeset.descending_record s.descending (Int.not_lt.1 fun lt => h (.inr lt))
        nonneg := Changeset.nonneg_record s.nonneg (Int.not_lt.1 fun lt => h (.inl lt)) },
      effective.length)

end Store

end Annals
