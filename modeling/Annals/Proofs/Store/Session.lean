import Annals.Proofs.Store.Append
import Annals.Store.Source
import Mathlib.Tactic.ByContra

/-!
# Stores in use

A store in use changes in place, and everything done to it later meets what was written before. An
append looks at the store and then at one row after the other, and stops at the first thing that is
wrong. As it writes nothing before the last row has passed, an append that fails leaves no trace: all
that is done to the store afterwards comes out as if the append had not been made.

## Implementation notes

`Store.append` gives no store where it fails, so it cannot say what a failure leaves behind. Here the
store is a state that outlives a failure (`InPlace`), and it is a theorem that the state is the old
one.
-/

namespace Annals

/-- A computation that changes a store in place. One that fails leaves the store as it was then. -/
abbrev InPlace := ExceptT StoreError (StateM Store)

namespace InPlace

variable {α β : Type}

/-- What comes of a computation, and the store that it leaves behind. -/
def runOn (x : InPlace α) (s : Store) : Except StoreError α × Store := x.run.run s

theorem runOn_bind_ok {x : InPlace α} {f : α → InPlace β} {a : α} {s t : Store}
    (h : x.runOn s = (.ok a, t)) : (x >>= f).runOn s = (f a).runOn t := by
  change (ExceptT.bindCont f (x.runOn s).1).run (x.runOn s).2 = _
  rw [h]
  rfl

/-- What would come after a failure is not done. -/
theorem runOn_bind_error {x : InPlace α} {f : α → InPlace β} {e : StoreError} {s t : Store}
    (h : x.runOn s = (.error e, t)) : (x >>= f).runOn s = (.error e, t) := by
  change (ExceptT.bindCont f (x.runOn s).1).run (x.runOn s).2 = _
  rw [h]
  rfl

end InPlace

namespace Triple

/-- The change that a row asks for, where a row that cannot be written ends the computation. -/
def demand (row : Triple) : InPlace Change := ExceptT.mk (pure (Change.ofTriple row))

/-- What is wrong with a row that cannot be written. The missing direction of the change is reported
before a variable is. -/
def fault (row : Triple) : StoreError :=
  if row.mark.asserted? = none then .unflagged row else .unbound row

theorem ofTriple_of_writable {row : Triple} (h : row.Writable) :
    ∃ c, Change.ofTriple row = .ok c := by
  obtain ⟨f, mark⟩ := row
  obtain ⟨ground, asserted, rfl⟩ := h
  exact ⟨⟨f, asserted, ground⟩, Change.ofTriple_row ⟨f, asserted, ground⟩⟩

theorem ofTriple_of_not_writable {row : Triple} (h : ¬ row.Writable) :
    Change.ofTriple row = .error row.fault := by
  obtain ⟨f, mark⟩ := row
  cases mark with
  | plain => rfl
  | holding versions => rfl
  | change asserted =>
    have variable_left : ¬ f.isGround = true := fun ground => h ⟨ground, asserted, rfl⟩
    simp [Change.ofTriple, fault, Mark.asserted?, variable_left]

/-- The first row that cannot be written is the one that is reported. -/
theorem mapM_ofTriple_of_first {rows earlier later : List Triple} {row : Triple}
    (split : rows = earlier ++ row :: later) (writable : ∀ r ∈ earlier, r.Writable)
    (bad : ¬ row.Writable) : rows.mapM Change.ofTriple = .error row.fault := by
  subst split
  induction earlier with
  | nil => rw [List.nil_append, List.mapM_cons, ofTriple_of_not_writable bad]; rfl
  | cons first rest ih =>
    obtain ⟨c, ok⟩ := ofTriple_of_writable (writable first List.mem_cons_self)
    rw [List.cons_append, List.mapM_cons, ok,
      ih fun r hr => writable r (List.mem_cons_of_mem first hr)]
    rfl

/-- Where some row cannot be written, there is a first one. -/
theorem exists_first_bad {rows : List Triple} (h : ∃ row ∈ rows, ¬ row.Writable) :
    ∃ earlier row later, rows = earlier ++ row :: later ∧ (∀ r ∈ earlier, r.Writable) ∧
      ¬ row.Writable := by
  induction rows with
  | nil => simp at h
  | cons first rest ih =>
    by_cases writable : first.Writable
    · have later : ∃ row ∈ rest, ¬ row.Writable := by
        obtain ⟨row, hrow, bad⟩ := h
        rcases List.mem_cons.mp hrow with rfl | hrow
        · exact absurd writable bad
        · exact ⟨row, hrow, bad⟩
      obtain ⟨earlier, row, others, rfl, passed, bad⟩ := ih later
      exact ⟨first :: earlier, row, others, rfl, List.forall_mem_cons.mpr ⟨writable, passed⟩, bad⟩
    · exact ⟨[], first, rest, rfl, nofun, writable⟩

/-- Looking at rows changes nothing, whether they pass or not. -/
theorem runOn_mapM_demand (rows : List Triple) (s : Store) :
    (rows.mapM demand).runOn s = (rows.mapM Change.ofTriple, s) := by
  have single : ∀ row : Triple, row.demand.runOn s = (Change.ofTriple row, s) := fun _ => rfl
  induction rows with
  | nil => rfl
  | cons row rest ih =>
    rw [List.mapM_cons, List.mapM_cons]
    cases asked : Change.ofTriple row with
    | error e => exact InPlace.runOn_bind_error ((single row).trans (by rw [asked]))
    | ok c =>
      rw [InPlace.runOn_bind_ok ((single row).trans (by rw [asked]))]
      cases others : rest.mapM Change.ofTriple with
      | error e => exact InPlace.runOn_bind_error (ih.trans (by rw [others]))
      | ok changes => exact InPlace.runOn_bind_ok (ih.trans (by rw [others]))

end Triple

namespace Store

/-- Appends in place. The store is looked at first, then the rows are, and nothing is written before
all of them have passed. -/
def appendInPlace (v : Version) (rows : List Triple) : InPlace Nat := do
  let s ← get
  if s.closed then throw .closed
  else if h : v < 0 ∨ v < s.maxVersion then throw (.stale v s.maxVersion)
  else
    let changes ← rows.mapM Triple.demand
    set (s.write (Int.not_lt.mp fun lt => h (.inl lt)) (Int.not_lt.mp fun lt => h (.inr lt)) changes)
    return (s.current.effective changes).length

/-- An append in place that succeeds leaves the grown store, and one that fails the old one. -/
theorem runOn_appendInPlace (s : Store) (v : Version) (rows : List Triple) :
    (appendInPlace v rows).runOn s =
      match s.append v rows with
      | .ok (grown, stored) => (.ok stored, grown)
      | .error e => (.error e, s) := by
  have looked : (get : InPlace Store).runOn s = (.ok s, s) := rfl
  rw [appendInPlace, InPlace.runOn_bind_ok looked, append]
  by_cases closed : s.closed = true
  · rw [if_pos closed, if_pos closed]
    rfl
  rw [if_neg closed, if_neg closed]
  by_cases stale : v < 0 ∨ v < s.maxVersion
  · rw [dif_pos stale, dif_pos stale]
    rfl
  rw [dif_neg stale, dif_neg stale]
  have checked := Triple.runOn_mapM_demand rows s
  cases asked : rows.mapM Change.ofTriple with
  | error e => exact InPlace.runOn_bind_error (checked.trans (by rw [asked]))
  | ok changes => exact InPlace.runOn_bind_ok (checked.trans (by rw [asked]))

variable {s : Store} {v : Version} {rows : List Triple}

theorem append_of_closed (closed : s.closed = true) : s.append v rows = .error .closed :=
  if_pos closed

theorem append_of_stale (isOpen : s.closed = false) (stale : v < 0 ∨ v < s.maxVersion) :
    s.append v rows = .error (.stale v s.maxVersion) := by
  rw [append, if_neg (by simp [isOpen]), dif_pos stale]

theorem append_of_first_bad {earlier later : List Triple} {row : Triple}
    (isOpen : s.closed = false) (nonneg : 0 ≤ v) (newest : s.maxVersion ≤ v)
    (split : rows = earlier ++ row :: later) (writable : ∀ r ∈ earlier, r.Writable)
    (bad : ¬ row.Writable) : s.append v rows = .error row.fault := by
  have fits : ¬ (v < 0 ∨ v < s.maxVersion) :=
    not_or.mpr ⟨Int.not_lt.mpr nonneg, Int.not_lt.mpr newest⟩
  rw [append, if_neg (by simp [isOpen]), dif_neg fits,
    Triple.mapM_ofTriple_of_first split writable bad]
  rfl

/-- An append fails if the store is closed, the version may not change any more or some row cannot
be written, and for no other reason. -/
theorem append_fails_iff :
    (∃ e, s.append v rows = .error e) ↔
      s.closed = true ∨ v < 0 ∨ v < s.maxVersion ∨ ∃ row ∈ rows, ¬ row.Writable := by
  cases isOpen : s.closed with
  | true => exact iff_of_true ⟨_, append_of_closed isOpen⟩ (Or.inl rfl)
  | false =>
    rw [or_iff_right (by decide), ← or_assoc]
    by_cases stale : v < 0 ∨ v < s.maxVersion
    · exact iff_of_true ⟨_, append_of_stale isOpen stale⟩ (Or.inl stale)
    · rw [or_iff_right stale]
      obtain ⟨nonneg, newest⟩ := not_or.mp stale
      rw [Int.not_lt] at nonneg newest
      constructor
      · rintro ⟨e, failed⟩
        by_contra none_bad
        have writable : ∀ row ∈ rows, row.Writable := by simpa using none_bad
        obtain ⟨changes, rfl⟩ := Triple.exists_changes writable
        cases failed.symm.trans (append_row nonneg newest isOpen changes)
      · intro some_bad
        obtain ⟨earlier, row, later, split, writable, bad⟩ := Triple.exists_first_bad some_bad
        exact ⟨_, append_of_first_bad isOpen nonneg newest split writable bad⟩

end Store

/-- What may be done with a store. -/
inductive Request where
  /-- Rows are written to a version. -/
  | append (v : Version) (rows : List Triple)
  /-- The rows are asked for that a query finds in a scope. -/
  | search (q : Query) (scope : Scope)
  /-- The number of these rows is asked for. -/
  | count (q : Query) (scope : Scope)
  /-- The newest version is asked for. -/
  | maxVersion
  /-- The number of changes kept is asked for. -/
  | changeCount
  /-- The use of the store ends. -/
  | close

/-- What a store replies to a request. -/
inductive Reply where
  | stored (outcome : Except StoreError Nat)
  | found (outcome : Except StoreError (List Triple))
  | counted (outcome : Except StoreError Nat)
  | newest (v : Version)
  | kept (changes : Nat)
  | closed

/-- Meets a request, which may change the store. -/
def Request.perform : Request → StateM Store Reply
  | append v rows => return .stored (← (Store.appendInPlace v rows).run)
  | search q scope => return .found ((← get).search q scope)
  | count q scope => return .counted ((Source.store (← get)).count q scope)
  | maxVersion => return .newest (← get).maxVersion
  | changeCount => return .kept (← get).changeCount
  | close => do
    modify Store.close
    return .closed

/-- Meets requests one after the other. -/
def Store.serve (s : Store) (requests : List Request) : List Reply × Store :=
  (requests.mapM Request.perform).run s

/-- What comes after a request meets the store that the request left behind. -/
theorem Store.serve_cons (s : Store) (request : Request) (later : List Request) :
    s.serve (request :: later) =
      let (reply, t) := request.perform.run s
      let (replies, u) := t.serve later
      (reply :: replies, u) := by
  rw [serve, List.mapM_cons]
  rfl

/-- An append fails if and only if the store is closed, the version is negative or older than the
newest one, or some row is no assertion or retraction of a fact without variables. A closed store is
reported before the version, the version before the rows, and of the rows the first one that cannot
be written. After an append that failed every request has the reply that it would have had without
the append, and the store is the one that there would have been. -/
theorem failed_append_leaves_no_trace (s : Store) (v : Version) (rows : List Triple) :
    ((∃ e, s.append v rows = .error e) ↔
        s.closed = true ∨ v < 0 ∨ v < s.maxVersion ∨ ∃ row ∈ rows, ¬ row.Writable) ∧
      (s.closed = true → s.append v rows = .error .closed) ∧
      (s.closed = false → v < 0 ∨ v < s.maxVersion →
        s.append v rows = .error (.stale v s.maxVersion)) ∧
      (s.closed = false → 0 ≤ v → s.maxVersion ≤ v →
        ∀ earlier row later, rows = earlier ++ row :: later → (∀ r ∈ earlier, r.Writable) →
          ¬ row.Writable → s.append v rows = .error row.fault) ∧
      ∀ e, s.append v rows = .error e → ∀ later,
        s.serve (.append v rows :: later) =
          (.stored (.error e) :: (s.serve later).1, (s.serve later).2) := by
  refine ⟨Store.append_fails_iff, Store.append_of_closed, Store.append_of_stale,
    fun isOpen nonneg newest earlier row later split writable bad =>
      Store.append_of_first_bad isOpen nonneg newest split writable bad, fun e failed later => ?_⟩
  have ran := Store.runOn_appendInPlace s v rows
  rw [failed] at ran
  have reply : (Request.append v rows).perform.run s = (.stored (.error e), s) := by
    change (Reply.stored ((Store.appendInPlace v rows).runOn s).1,
      ((Store.appendInPlace v rows).runOn s).2) = _
    rw [ran]
  rw [Store.serve_cons, reply]

namespace Sample

/-- The lamp is lit, and then a row does not say whether the door was opened or closed. -/
def muddle : List Triple :=
  [⟨lampIsLit, .change true⟩, ⟨doorIsOpen, .plain⟩, ⟨⟨⟨"?x"⟩, ⟨"is"⟩, ⟨"lit"⟩⟩, .change true⟩]

end Sample

/-- The rows before and behind the one that is reported are not written either, and version 4 may
still be written to. -/
theorem failed_append_to_house :
    Sample.house.append 5 Sample.muddle = .error (.unflagged ⟨Sample.doorIsOpen, .plain⟩) ∧
      ∀ later, Sample.house.serve (.append 5 Sample.muddle :: .append 4 Sample.lighting :: later) =
        (.stored (.error (.unflagged ⟨Sample.doorIsOpen, .plain⟩)) ::
            (Sample.house.serve (.append 4 Sample.lighting :: later)).1,
          (Sample.house.serve (.append 4 Sample.lighting :: later)).2) := by
  obtain ⟨-, -, -, bad, traceless⟩ := failed_append_leaves_no_trace Sample.house 5 Sample.muddle
  have lit : (⟨Sample.lampIsLit, .change true⟩ : Triple).Writable :=
    ⟨Sample.isGround_lampIsLit, true, rfl⟩
  have unflagged : ¬ (⟨Sample.doorIsOpen, .plain⟩ : Triple).Writable := by
    rintro ⟨-, asserted, marked⟩
    cases marked
  have failed := bad rfl (by decide) (by decide) [⟨Sample.lampIsLit, .change true⟩] _ _ rfl
    (by simpa using lit) unflagged
  exact ⟨failed, fun later => traceless _ failed _⟩

end Annals
