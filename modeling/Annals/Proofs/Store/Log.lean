import Annals.Proofs.Store.Session
import Mathlib.Algebra.Ring.Parity
import Mathlib.Tactic.Tauto

/-!
# The log of a store

A store keeps what its appends changed, in the order in which they did. A change is kept if it makes
a difference to the facts that the changes before it lead to, so between two changes of one fact it
has to be the other way round. Nothing that is done with a store puts anything else into its log,
and the log is as long as the replies to the appends say.
-/

namespace Annals

namespace FactSet

/-- Every change makes a difference to what those before it lead to. -/
def AllEffective (facts : FactSet) : List Change → Prop
  | [] => True
  | c :: rest => c.takesEffect facts = true ∧ AllEffective (c.apply facts) rest

variable {facts : FactSet} {changes more : List Change} {f : Fact}

theorem allEffective_effective (facts : FactSet) (changes : List Change) :
    facts.AllEffective (facts.effective changes) := by
  induction changes generalizing facts with
  | nil => trivial
  | cons c rest ih =>
    rw [effective]
    split
    · next takes => exact ⟨takes, ih (c.apply facts)⟩
    · exact ih facts

theorem effective_sublist (facts : FactSet) (changes : List Change) :
    (facts.effective changes).Sublist changes := by
  induction changes generalizing facts with
  | nil => exact .slnil
  | cons c rest ih =>
    rw [effective]
    split
    · exact (ih (c.apply facts)).cons_cons c
    · exact (ih facts).cons c

theorem AllEffective.append (h : facts.AllEffective changes)
    (later : (facts.applyAll changes).AllEffective more) :
    facts.AllEffective (changes ++ more) := by
  induction changes generalizing facts with
  | nil => exact later
  | cons c rest ih => exact ⟨h.1, ih h.2 later⟩

/-- A change that takes effect asserts its fact if and only if the fact does not hold. -/
theorem takesEffect_iff {c : Change} :
    c.takesEffect facts = true ↔ (c.asserted = true ↔ c.fact ∉ facts) := by
  rw [Change.takesEffect]
  by_cases held : c.fact ∈ facts <;> cases c.asserted <;> simp [held]

/-- The changes of a fact take turns, the first one being the one that can be made. -/
theorem AllEffective.asserted_iff (h : facts.AllEffective changes) {i : Nat} {c : Change}
    (hc : (changes.filter fun c => decide (c.fact = f))[i]? = some c) :
    c.asserted = true ↔ (Even i ↔ f ∉ facts) := by
  induction changes generalizing facts i with
  | nil => cases hc
  | cons d rest ih =>
    obtain ⟨takes, others⟩ := h
    by_cases own : d.fact = f
    · subst own
      have after : d.fact ∈ d.apply facts ↔ d.asserted = true := by
        rw [Change.mem_apply, if_pos rfl]
      rw [List.filter_cons_of_pos (by simp)] at hc
      cases i with
      | zero =>
        obtain rfl := Option.some.inj hc
        rw [takesEffect_iff.mp takes, iff_true_intro (Even.zero), true_iff]
      | succ i =>
        rw [ih others hc, after, Nat.even_add_one, takesEffect_iff.mp takes]
        tauto
    · have untouched : f ∈ d.apply facts ↔ f ∈ facts := by
        rw [Change.mem_apply, if_neg (Ne.symm own)]
      rw [List.filter_cons_of_neg (by simpa using own)] at hc
      rw [ih others hc, untouched]

/-- In the end a fact is as it was if it was changed an even number of times. -/
theorem AllEffective.mem_applyAll_iff (h : facts.AllEffective changes) :
    f ∈ facts.applyAll changes ↔
      (Even (changes.filter fun c => decide (c.fact = f)).length ↔ f ∈ facts) := by
  induction changes generalizing facts with
  | nil => simp [applyAll]
  | cons d rest ih =>
    obtain ⟨takes, others⟩ := h
    have whole : f ∈ facts.applyAll (d :: rest) ↔ f ∈ (d.apply facts).applyAll rest := Iff.rfl
    rw [whole, ih others]
    by_cases own : d.fact = f
    · subst own
      rw [List.filter_cons_of_pos (by simp), List.length_cons, Nat.even_add_one,
        Change.mem_apply, if_pos rfl, takesEffect_iff.mp takes]
      tauto
    · rw [List.filter_cons_of_neg (by simpa using own), Change.mem_apply, if_neg (Ne.symm own)]

end FactSet

namespace Changeset

/-- The changes of changesets, each with its version, the oldest first. -/
def log (cs : List Changeset) : List (Version × Change) :=
  cs.reverse.flatMap fun c => c.changes.map fun change => (c.version, change)

variable {v : Version} {changes : List Change} {cs : List Changeset}

theorem log_cons (c : Changeset) (older : List Changeset) :
    log (c :: older) = log older ++ c.changes.map fun change => (c.version, change) := by
  simp [log]

/-- Recorded changes go to the end. -/
theorem log_record :
    log (record v changes cs) = log cs ++ changes.map fun change => (v, change) := by
  cases cs with
  | nil => simp [log, record]
  | cons c older =>
    rw [record]
    split
    · next same => rw [log_cons, log_cons, List.map_append, List.append_assoc, same]
    · rw [log_cons]

theorem state_eq_applyAll_log (cs : List Changeset) :
    state cs = (∅ : FactSet).applyAll ((log cs).map Prod.snd) := by
  induction cs with
  | nil => rfl
  | cons c older ih =>
    rw [state, ih, ← FactSet.applyAll_append, log_cons, List.map_append, List.map_map]
    simp [Function.comp_def]

end Changeset

namespace Store

/-- All changes kept, each with its version, by ascending version and for one version in the order
in which they were made. -/
def log (s : Store) : List (Version × Change) := Changeset.log s.changesets

/-- The changes of a fact, in the order of the log. -/
def changesOf (s : Store) (f : Fact) : List Change :=
  (s.log.map Prod.snd).filter fun c => decide (c.fact = f)

variable {s t u : Store} {v : Version} {c : Change}

theorem mem_log : (v, c) ∈ s.log ↔ ∃ cs ∈ s.changesets, cs.version = v ∧ c ∈ cs.changes := by
  simp only [log, Changeset.log, List.mem_flatMap, List.mem_reverse, List.mem_map, Prod.mk.injEq,
    exists_eq_right_right]
  exact exists_congr fun cs => and_congr_right fun _ => and_comm

theorem changeCount_eq_length_log (s : Store) : s.changeCount = s.log.length := by
  rw [changeCount, log]
  induction s.changesets with
  | nil => rfl
  | cons cs older ih =>
    rw [List.foldr_cons, ih, Changeset.log_cons, List.length_append, List.length_map, Nat.add_comm]

theorem current_eq_applyAll_log (s : Store) :
    s.current = (∅ : FactSet).applyAll (s.log.map Prod.snd) :=
  Changeset.state_eq_applyAll_log s.changesets

theorem log_write (nonneg : 0 ≤ v) (newest : s.maxVersion ≤ v) (changes : List Change) :
    (s.write nonneg newest changes).log =
      s.log ++ (s.current.effective changes).map fun c => (v, c) :=
  Changeset.log_record

/-- An append that succeeds was of rows that ask for changes, to an open store and at its newest
version or one after it. -/
theorem exists_write_of_append {rows : List Triple} {grown : Store} {stored : Nat}
    (ok : s.append v rows = .ok (grown, stored)) :
    ∃ (nonneg : 0 ≤ v) (newest : s.maxVersion ≤ v) (changes : List Change),
      rows = changes.map Change.row ∧ grown = s.write nonneg newest changes ∧
        stored = (s.current.effective changes).length := by
  have passed : ¬ ∃ e, s.append v rows = .error e := by
    rintro ⟨e, failed⟩
    cases ok.symm.trans failed
  rw [append_fails_iff] at passed
  simp only [not_or, Bool.not_eq_true, Int.not_lt, not_exists, not_and, not_not] at passed
  obtain ⟨isOpen, nonneg, newest, writable⟩ := passed
  obtain ⟨changes, rfl⟩ := Triple.exists_changes writable
  have rows := append_row nonneg newest isOpen changes
  obtain ⟨rfl, rfl⟩ := Prod.mk.inj (Except.ok.inj (ok.symm.trans rows))
  exact ⟨nonneg, newest, changes, rfl, rfl, rfl⟩

end Store

/-- How many changes were stored, as far as a reply tells of any. -/
def Reply.storedCount : Reply → Nat
  | stored (.ok n) => n
  | _ => 0

/-- Requests made the log of one store into that of another. They put changes at the end that they
asked for, that make a difference and that are counted by the replies. -/
structure Store.Logs (s t : Store) (requests : List Request) (replies : List Reply)
    (more : List (Version × Change)) : Prop where
  log : t.log = s.log ++ more
  effective : s.current.AllEffective (more.map Prod.snd)
  counted : more.length = (replies.map Reply.storedCount).sum
  asked : ∀ entry ∈ more, ∃ rows, .append entry.1 rows ∈ requests ∧ entry.2.row ∈ rows

namespace Store.Logs

variable {s t u : Store} {request : Request} {requests : List Request} {reply : Reply}
  {replies : List Reply} {first more : List (Version × Change)}

/-- What leaves the changesets alone logs nothing. -/
theorem of_nothing (same : t.changesets = s.changesets) (uncounted : reply.storedCount = 0) :
    Logs s t [request] [reply] [] where
  log := by rw [Store.log, same, ← Store.log, List.append_nil]
  effective := trivial
  counted := by simp [uncounted]
  asked entry h := absurd h List.not_mem_nil

/-- An append that succeeds logs the changes that take effect. -/
theorem of_append {v : Version} {rows : List Triple} {stored : Nat}
    (ok : s.append v rows = .ok (t, stored)) :
    ∃ more, Logs s t [.append v rows] [.stored (.ok stored)] more := by
  obtain ⟨nonneg, newest, changes, rfl, rfl, rfl⟩ := exists_write_of_append ok
  refine ⟨_, log_write nonneg newest changes, ?_, by simp [Reply.storedCount], ?_⟩
  · rw [List.map_map]
    exact (List.map_id _).symm ▸ FactSet.allEffective_effective s.current changes
  · intro entry hentry
    obtain ⟨c, hc, rfl⟩ := List.mem_map.mp hentry
    have asked := (FactSet.effective_sublist s.current changes).subset hc
    exact ⟨_, List.mem_singleton_self _, List.mem_map_of_mem asked⟩

/-- Only an append that succeeds logs anything. -/
theorem of_perform (s : Store) (request : Request) :
    ∃ more, Logs s (request.perform.run s).2 [request] [(request.perform.run s).1] more := by
  cases request with
  | append v rows =>
    have ran : (Request.append v rows).perform.run s =
        (.stored ((appendInPlace v rows).runOn s).1, ((appendInPlace v rows).runOn s).2) := rfl
    rw [ran, runOn_appendInPlace]
    cases outcome : s.append v rows with
    | error e => exact ⟨[], of_nothing rfl rfl⟩
    | ok result => exact of_append outcome
  | search q scope => exact ⟨[], of_nothing rfl rfl⟩
  | count q scope => exact ⟨[], of_nothing rfl rfl⟩
  | maxVersion => exact ⟨[], of_nothing rfl rfl⟩
  | changeCount => exact ⟨[], of_nothing rfl rfl⟩
  | close => exact ⟨[], of_nothing rfl rfl⟩

theorem current (h : Logs s t requests replies more) :
    t.current = s.current.applyAll (more.map Prod.snd) := by
  rw [current_eq_applyAll_log, h.log, List.map_append, FactSet.applyAll_append,
    ← current_eq_applyAll_log]

/-- What is logged later makes a difference to what was logged before. -/
theorem trans (h : Logs s t [request] [reply] first) (later : Logs t u requests replies more) :
    Logs s u (request :: requests) (reply :: replies) (first ++ more) where
  log := by rw [later.log, h.log, List.append_assoc]
  effective := by
    rw [List.map_append]
    exact h.effective.append (h.current ▸ later.effective)
  counted := by
    rw [List.length_append, h.counted, later.counted]
    simp
  asked entry hentry := by
    rcases List.mem_append.mp hentry with hentry | hentry
    · obtain ⟨rows, own, asked⟩ := h.asked entry hentry
      exact ⟨rows, List.mem_singleton.mp own ▸ List.mem_cons_self, asked⟩
    · obtain ⟨rows, own, asked⟩ := later.asked entry hentry
      exact ⟨rows, List.mem_cons_of_mem request own, asked⟩

/-- A store in use logs what the requests asked for. -/
theorem of_serve (s : Store) (requests : List Request) :
    ∃ more, Logs s (s.serve requests).2 requests (s.serve requests).1 more := by
  induction requests generalizing s with
  | nil => exact ⟨[], by rw [serve]; exact (List.append_nil _).symm, trivial, rfl, nofun⟩
  | cons request later ih =>
    obtain ⟨first, step⟩ := of_perform s request
    obtain ⟨more, rest⟩ := ih (request.perform.run s).2
    rw [serve_cons]
    exact ⟨first ++ more, step.trans rest⟩

end Store.Logs

/-- Of a store in use since it was empty, the changes of a fact by ascending version, and for one
version in the order in which they were made, are an assertion first and then take turns. So the
fact holds at the newest version if and only if there are an odd number of them. Changesets are of
no negative version, and each change in one was asked for by an append to its version and is of a
fact of constants. There are as many changes as all appends that succeeded said that they stored. -/
theorem log_holds_effective_changes (requests : List Request) :
    (∀ f, (∀ (i : Nat) c, ((Store.empty.serve requests).2.changesOf f)[i]? = some c →
          (c.asserted = true ↔ Even i)) ∧
        (f ∈ (Store.empty.serve requests).2.stateAt (Store.empty.serve requests).2.maxVersion ↔
          Odd ((Store.empty.serve requests).2.changesOf f).length)) ∧
      (∀ cs ∈ (Store.empty.serve requests).2.changesets, 0 ≤ cs.version ∧ ∀ c ∈ cs.changes,
        (∃ rows, .append cs.version rows ∈ requests ∧ c.row ∈ rows) ∧
          ∀ i, (c.fact.get i).isVariable = false) ∧
      (Store.empty.serve requests).2.changeCount =
        ((Store.empty.serve requests).1.map Reply.storedCount).sum := by
  obtain ⟨more, logs⟩ := Store.Logs.of_serve Store.empty requests
  have log : (Store.empty.serve requests).2.log = more := logs.log
  have effective : (∅ : FactSet).AllEffective ((Store.empty.serve requests).2.log.map Prod.snd) :=
    log ▸ logs.effective
  refine ⟨fun f => ⟨fun i c hc => ?_, ?_⟩, fun cs hcs => ⟨?_, fun c hc => ⟨?_, ?_⟩⟩, ?_⟩
  · rw [effective.asserted_iff hc]
    simp
  · rw [Store.stateAt_eq_current _ (Int.le_refl _), Store.current_eq_applyAll_log,
      effective.mem_applyAll_iff, ← Nat.not_even_iff_odd]
    simp [Store.changesOf]
  · exact (Store.empty.serve requests).2.nonneg cs hcs
  · exact logs.asked (cs.version, c) (log ▸ Store.mem_log.mpr ⟨cs, hcs, rfl, hc⟩)
  · exact Pattern.isGround_iff.mp c.ground
  · rw [Store.changeCount_eq_length_log, log, logs.counted]

namespace Sample

/-- The lamp is lit, put out in the same version, and lit again in a later one. An append between
fails. -/
def switching : List Request :=
  [.append 0 lighting, .append 0 putOut, .append (-1) lighting, .maxVersion, .append 2 lighting]

end Sample

/-- Three of the six rows are in the log, the second one of them being the retraction. -/
theorem log_of_switching :
    ∃ c, ((Store.empty.serve Sample.switching).2.changesOf Sample.lampIsLit)[1]? = some c ∧
      c.asserted = false ∧
      Sample.lampIsLit ∈ (Store.empty.serve Sample.switching).2.stateAt
        (Store.empty.serve Sample.switching).2.maxVersion ∧
      (Store.empty.serve Sample.switching).2.changeCount = 3 ∧
      ((Store.empty.serve Sample.switching).1.map Reply.storedCount).sum = 3 := by
  obtain ⟨turns, -, counted⟩ := log_holds_effective_changes Sample.switching
  obtain ⟨second, latest⟩ := turns Sample.lampIsLit
  have three : ((Store.empty.serve Sample.switching).2.changesOf Sample.lampIsLit).length = 3 := by
    decide +kernel
  have count : (Store.empty.serve Sample.switching).2.changeCount = 3 := by decide +kernel
  have listed := List.getElem?_eq_getElem (three ▸ (by decide : 1 < 3))
  refine ⟨_, listed, ?_, latest.mpr (three ▸ by decide), count, counted ▸ count⟩
  rw [← Bool.not_eq_true, second 1 _ listed]
  decide

end Annals
