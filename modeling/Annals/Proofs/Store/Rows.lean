import Annals.Store.Search
import Mathlib.Data.List.Nodup

/-!
# What the rows of a store say

Each row says at which versions its fact holds. The rows of one version say that the facts of the
state at that version hold, the rows of all versions say the same of every version up to the newest
one, and the rows of a difference assert what is new and retract what is gone.
-/

namespace Annals

/-- The mark says of its fact that it holds at the version. An assertion says so of every version,
as its fact holds where the difference ends. -/
def Mark.HoldsAt (v : Version) : Mark → Prop
  | plain => True
  | change asserted => asserted = true
  | holding versions => v ∈ versions

/-- The marks of the rows that a mode answers with. -/
def Mark.Answers (mode : Mode) (m : Mark) : Prop :=
  match mode with
  | .snapshot => m = .plain
  | .delta => ∃ asserted, m = .change asserted
  | .history => ∃ versions, m = .holding versions ∧ ∃ v, v ∈ versions

/-- One of the rows says of the fact that it holds at the version. -/
def Attests (rows : List Triple) (v : Version) (f : Fact) : Prop :=
  ∃ row ∈ rows, row.fact = f ∧ row.mark.HoldsAt v

@[simp] theorem attests_nil (v : Version) (f : Fact) : ¬ Attests [] v f := by
  simp [Attests]

theorem attests_cons {row : Triple} {rows : List Triple} {v : Version} {f : Fact} :
    Attests (row :: rows) v f ↔ (row.fact = f ∧ row.mark.HoldsAt v) ∨ Attests rows v f := by
  simp [Attests]

theorem attests_append {rows more : List Triple} {v : Version} {f : Fact} :
    Attests (rows ++ more) v f ↔ Attests rows v f ∨ Attests more v f := by
  simp only [Attests, List.mem_append, or_and_right, exists_or]

theorem mem_iff_of_plain {rows : List Triple} (h : ∀ row ∈ rows, row.mark = .plain) {row : Triple} :
    row ∈ rows ↔ row.mark = .plain ∧ ⟨row.fact, .plain⟩ ∈ rows := by
  obtain ⟨f, mark⟩ := row
  constructor
  · intro hrow
    obtain rfl : mark = .plain := h _ hrow
    exact ⟨rfl, hrow⟩
  · rintro ⟨rfl, hrow⟩
    exact hrow

theorem attests_iff_of_plain {rows : List Triple} (h : ∀ row ∈ rows, row.mark = .plain)
    {v : Version} {f : Fact} : Attests rows v f ↔ ⟨f, .plain⟩ ∈ rows := by
  constructor
  · rintro ⟨row, hrow, rfl, -⟩
    exact ((mem_iff_of_plain h).mp hrow).2
  · intro hf
    exact ⟨_, hf, rfl, trivial⟩

/-- Among plain rows, distinct ones are of distinct facts. -/
theorem nodup_facts_of_plain {rows : List Triple} (h : ∀ row ∈ rows, row.mark = .plain)
    (nodup : rows.Nodup) : (rows.map Triple.fact).Nodup := by
  refine List.Nodup.map_on (fun row hrow other hother same => ?_) nodup
  obtain ⟨f, mark⟩ := row
  rw [Triple.mk.injEq]
  exact ⟨same, (h _ hrow).trans (h _ hother).symm⟩

theorem attests_iff_of_holding {rows : List Triple}
    (h : ∀ row ∈ rows, ∃ vs, row.mark = .holding vs) {v : Version} {f : Fact} :
    Attests rows v f ↔ ∃ vs, ⟨f, .holding vs⟩ ∈ rows ∧ v ∈ vs := by
  constructor
  · rintro ⟨⟨g, mark⟩, hrow, rfl, hv⟩
    obtain ⟨vs, rfl⟩ := h _ hrow
    exact ⟨vs, hrow, hv⟩
  · rintro ⟨vs, hrow, hv⟩
    exact ⟨_, hrow, rfl, hv⟩

namespace Changeset

theorem exists_change_of_mem_applyAll {facts : FactSet} {changes : List Change} {f : Fact}
    (h : f ∈ facts.applyAll changes) : f ∈ facts ∨ ∃ c ∈ changes, c.fact = f := by
  induction changes generalizing facts with
  | nil => exact Or.inl h
  | cons c rest ih =>
    rcases ih h with hf | ⟨d, hd, rfl⟩
    · by_cases he : f = c.fact
      · exact Or.inr ⟨c, List.mem_cons_self, he.symm⟩
      · rw [Change.mem_apply, if_neg he] at hf
        exact Or.inl hf
    · exact Or.inr ⟨d, List.mem_cons_of_mem c hd, rfl⟩

theorem exists_change_of_mem_state {cs : List Changeset} {f : Fact} (h : f ∈ state cs) :
    ∃ s ∈ cs, ∃ c ∈ s.changes, c.fact = f := by
  induction cs with
  | nil => exact absurd h (OrderedSet.not_mem_empty f)
  | cons s older ih =>
    rcases exists_change_of_mem_applyAll h with hf | ⟨c, hc, rfl⟩
    · obtain ⟨t, ht, found⟩ := ih hf
      exact ⟨t, List.mem_cons_of_mem s ht, found⟩
    · exact ⟨s, List.mem_cons_self, c, hc, rfl⟩

/-- The stretches of a history cover every version below the last one's end, each with the facts
that the changesets up to that version leave behind. -/
theorem exists_span_iff {stop v : Version} {cs : List Changeset} {f : Fact}
    (descending : cs.Pairwise fun newer older => older.version < newer.version)
    (below : ∀ c ∈ cs, c.version < stop) :
    (∃ span ∈ spans stop cs, f ∈ span.facts ∧ v ∈ span.versions) ↔
      v < stop ∧ f ∈ state (cs.filter (·.version ≤ v)) := by
  induction cs generalizing stop with
  | nil => simp [spans, state]
  | cons c older ih =>
    obtain ⟨older_below, older_descending⟩ := List.pairwise_cons.mp descending
    have newest : c.version < stop := below c List.mem_cons_self
    simp only [spans, List.mem_cons, exists_eq_or_imp, VersionSet.mem_span,
      ih older_descending older_below]
    by_cases hv : c.version ≤ v
    · have whole : (c :: older).filter (·.version ≤ v) = c :: older :=
        List.filter_eq_self.mpr fun d hd => by
          rcases List.mem_cons.mp hd with rfl | hd
          · exact decide_eq_true hv
          · exact decide_eq_true (Int.le_of_lt (Std.lt_of_lt_of_le (older_below d hd) hv))
      rw [whole]
      constructor
      · rintro (⟨hf, -, hs⟩ | ⟨hlt, -⟩)
        · exact ⟨hs, hf⟩
        · exact absurd hv (Int.not_le.mpr hlt)
      · rintro ⟨hs, hf⟩
        exact Or.inl ⟨hf, hv, hs⟩
    · have dropped : (c :: older).filter (·.version ≤ v) = older.filter (·.version ≤ v) :=
        List.filter_cons_of_neg (by simpa using hv)
      have earlier : v < c.version := Int.not_le.mp hv
      rw [dropped]
      constructor
      · rintro (⟨-, hle, -⟩ | ⟨-, hf⟩)
        · exact absurd hle hv
        · exact ⟨Int.lt_trans earlier newest, hf⟩
      · rintro ⟨-, hf⟩
        exact Or.inr ⟨earlier, hf⟩

/-- No stretch is empty. -/
theorem exists_version_of_mem_spans {stop : Version} {cs : List Changeset} {span : Span}
    (descending : cs.Pairwise fun newer older => older.version < newer.version)
    (below : ∀ c ∈ cs, c.version < stop) (h : span ∈ spans stop cs) :
    ∃ v, v ∈ span.versions := by
  induction cs generalizing stop with
  | nil => cases h
  | cons c older ih =>
    obtain ⟨older_below, older_descending⟩ := List.pairwise_cons.mp descending
    rcases List.mem_cons.mp h with rfl | h
    · exact ⟨c.version,
        VersionSet.mem_span.mpr ⟨Int.le_refl _, below c List.mem_cons_self⟩⟩
    · exact ih older_descending older_below h

end Changeset

namespace Span

@[simp] theorem mem_everHeld {spans : List Span} {f : Fact} :
    f ∈ everHeld spans ↔ ∃ span ∈ spans, f ∈ span.facts := by
  induction spans with
  | nil => simp [everHeld]
  | cons span rest ih =>
    change f ∈ span.facts ∪ everHeld rest ↔ _
    simp [ih]

@[simp] theorem mem_versionsOf {spans : List Span} {f : Fact} {v : Version} :
    v ∈ versionsOf spans f ↔ ∃ span ∈ spans, f ∈ span.facts ∧ v ∈ span.versions := by
  induction spans with
  | nil => simp [versionsOf]
  | cons span rest ih =>
    change v ∈ (if f ∈ span.facts then span.versions ∪ versionsOf rest f else versionsOf rest f) ↔ _
    by_cases hf : f ∈ span.facts <;> simp [hf, ih]

end Span

namespace Store

/-- Only a closed store refuses a search. -/
theorem search_eq_ok_iff {s : Store} {q : Query} {scope : Scope} {rows : List Triple} :
    s.search q scope = .ok rows ↔ s.closed = false ∧ s.rows q scope = rows := by
  unfold search
  cases s.closed <;> simp

/-- A fact that holds at a version is one of those that were written. -/
theorem exists_change_of_mem_stateAt {s : Store} {v : Version} {f : Fact} (h : f ∈ s.stateAt v) :
    ∃ cs ∈ s.changesets, cs.version ≤ v ∧ ∃ c ∈ cs.changes, c.fact = f := by
  obtain ⟨cs, hcs, found⟩ := Changeset.exists_change_of_mem_state h
  obtain ⟨mem, le⟩ := List.mem_filter.mp hcs
  exact ⟨cs, mem, of_decide_eq_true le, found⟩

theorem isGround_of_mem_stateAt {s : Store} {v : Version} {f : Fact} (h : f ∈ s.stateAt v) :
    f.isGround = true := by
  obtain ⟨-, -, -, c, -, rfl⟩ := exists_change_of_mem_stateAt h
  exact c.ground

/-- Nothing holds before the first version. -/
theorem nonneg_of_mem_stateAt {s : Store} {v : Version} {f : Fact} (h : f ∈ s.stateAt v) :
    0 ≤ v := by
  obtain ⟨cs, hcs, le, -⟩ := exists_change_of_mem_stateAt h
  exact Int.le_trans (s.nonneg cs hcs) le

/-- If a version after the newest one fits into 64 bits, so do those up to it at which something
holds. -/
theorem fits_of_mem_stateAt {s : Store} (next : Version.Fits (s.maxVersion + 1)) {v : Version}
    {f : Fact} (reached : v ≤ s.maxVersion) (held : f ∈ s.stateAt v) : Version.Fits v := by
  have start : 0 ≤ v := nonneg_of_mem_stateAt held
  have before : v ≤ s.maxVersion + 1 := Int.le_add_one reached
  exact ⟨Int.le_trans (by decide) start, Int.le_trans before next.2⟩

theorem mem_snapshotRows {s : Store} {q : Query} {moment : Snapshot} {row : Triple}
    (h : row ∈ s.snapshotRows q moment) :
    row.mark = .plain ∧ row.fact ∈ s.stateAt moment.version ∧ q.admits row.fact = true := by
  simp only [snapshotRows, List.mem_map] at h
  obtain ⟨f, hf, rfl⟩ := h
  have kept : f ∈ (s.stateAt moment.version).toList.filter q.admits := by
    cases hl : moment.limit with
    | none => simpa [hl] using hf
    | some n => exact List.mem_of_mem_take (by simpa [hl] using hf)
  obtain ⟨mem, admitted⟩ := List.mem_filter.mp kept
  exact ⟨rfl, mem, admitted⟩

/-- Without a limit the rows of a version are the facts of its state. -/
theorem attests_snapshotRows {s : Store} {q : Query} {v w : Version} {f : Fact} :
    Attests (s.snapshotRows q ⟨v, none⟩) w f ↔ f ∈ s.stateAt v ∧ q.admits f = true := by
  constructor
  · rintro ⟨row, hrow, rfl, -⟩
    exact (mem_snapshotRows hrow).2
  · rintro ⟨hf, admitted⟩
    exact ⟨⟨f, .plain⟩, List.mem_map_of_mem (List.mem_filter.mpr ⟨hf, admitted⟩), rfl, trivial⟩

theorem exists_span_restrict_iff {s : Store} {q : Query} {v : Version} {f : Fact} :
    (∃ span ∈ s.spans.map (Span.restrict q), f ∈ span.facts ∧ v ∈ span.versions) ↔
      v ≤ s.maxVersion ∧ f ∈ s.stateAt v ∧ q.admits f = true := by
  have below : ∀ c ∈ s.changesets, c.version < s.maxVersion + 1 := fun c hc =>
    Int.lt_add_one_of_le (s.version_le_maxVersion hc)
  have covered := Changeset.exists_span_iff (v := v) (f := f) s.descending below
  rw [stateAt, ← and_assoc, ← Int.lt_add_one_iff, ← covered]
  simp only [List.mem_map, exists_exists_and_eq_and, Span.restrict, OrderedSet.mem_filter, spans]
  constructor
  · rintro ⟨span, hspan, ⟨hf, admitted⟩, hv⟩
    exact ⟨⟨span, hspan, hf, hv⟩, admitted⟩
  · rintro ⟨⟨span, hspan, hf, hv⟩, admitted⟩
    exact ⟨span, hspan, ⟨hf, admitted⟩, hv⟩

/-- A row of all versions names versions up to the newest one, and names at least one. -/
theorem mem_historyRows {s : Store} {q : Query} {row : Triple} (h : row ∈ s.historyRows q) :
    ∃ versions, row.mark = .holding versions ∧ (∃ v, v ∈ versions) ∧
      ∀ v, v ∈ versions ↔
        v ≤ s.maxVersion ∧ row.fact ∈ s.stateAt v ∧ q.admits row.fact = true := by
  obtain ⟨f, hf, rfl⟩ := List.mem_map.mp h
  have members : ∀ v, v ∈ Span.versionsOf (s.spans.map (Span.restrict q)) f ↔
      v ≤ s.maxVersion ∧ f ∈ s.stateAt v ∧ q.admits f = true := by
    intro v
    rw [Span.mem_versionsOf, exists_span_restrict_iff]
  refine ⟨_, rfl, ?_, members⟩
  obtain ⟨span, hspan, hfact⟩ := Span.mem_everHeld.mp hf
  obtain ⟨whole, hwhole, rfl⟩ := List.mem_map.mp hspan
  obtain ⟨v, hv⟩ := Changeset.exists_version_of_mem_spans s.descending
    (fun c hc => Int.lt_add_one_of_le (s.version_le_maxVersion hc)) hwhole
  exact ⟨v, Span.mem_versionsOf.mpr ⟨whole.restrict q, hspan, hfact, hv⟩⟩

/-- The rows of all versions say what the states of the versions up to the newest one hold. -/
theorem attests_historyRows {s : Store} {q : Query} {v : Version} {f : Fact} :
    Attests (s.historyRows q) v f ↔
      v ≤ s.maxVersion ∧ f ∈ s.stateAt v ∧ q.admits f = true := by
  constructor
  · rintro ⟨row, hrow, rfl, hv⟩
    obtain ⟨versions, hmark, -, members⟩ := mem_historyRows hrow
    rw [hmark] at hv
    exact (members v).mp hv
  · intro h
    obtain ⟨span, hspan, hfact, hv⟩ := exists_span_restrict_iff.mpr h
    exact ⟨⟨f, .holding (Span.versionsOf (s.spans.map (Span.restrict q)) f)⟩,
      List.mem_map_of_mem (Span.mem_everHeld.mpr ⟨span, hspan, hfact⟩), rfl,
      Span.mem_versionsOf.mpr ⟨span, hspan, hfact, hv⟩⟩

/-- A row of a difference asserts a fact that holds only at the end, or retracts one that holds only
at the start. -/
theorem mem_deltaRows {s : Store} {q : Query} {stretch : Interval} {row : Triple} :
    row ∈ s.deltaRows q stretch ↔ q.admits row.fact = true ∧
      ((row.mark = .change true ∧
          row.fact ∈ s.stateAt stretch.stop ∧ row.fact ∉ s.stateAt stretch.start) ∨
        (row.mark = .change false ∧
          row.fact ∈ s.stateAt stretch.start ∧ row.fact ∉ s.stateAt stretch.stop)) := by
  obtain ⟨f, mark⟩ := row
  simp only [deltaRows, List.mem_filterMap, List.mem_filter, ← OrderedSet.mem_def,
    OrderedSet.mem_union, changeBetween, Option.map_eq_some_iff, Triple.mk.injEq]
  by_cases hs : f ∈ s.stateAt stretch.start <;> by_cases he : f ∈ s.stateAt stretch.stop
  all_goals
    constructor
    · rintro ⟨g, ⟨-, admitted⟩, asserted, hc, rfl, rfl⟩
      simp_all
    · rintro ⟨admitted, hc⟩
      refine ⟨f, ⟨?_, admitted⟩, ?_⟩ <;> simp_all

theorem mark_answers {s : Store} {q : Query} {scope : Scope} {row : Triple}
    (h : row ∈ s.rows q scope) : row.mark.Answers scope.mode := by
  cases scope with
  | snapshot moment => exact (mem_snapshotRows h).1
  | delta stretch =>
    rcases (mem_deltaRows.mp h).2 with ⟨hm, -⟩ | ⟨hm, -⟩
    · exact ⟨true, hm⟩
    · exact ⟨false, hm⟩
  | history =>
    obtain ⟨versions, hm, nonempty, -⟩ := mem_historyRows h
    exact ⟨versions, hm, nonempty⟩

/-- Rows are only of facts that the query admits. -/
theorem admits_of_mem_rows {s : Store} {q : Query} {scope : Scope} {row : Triple}
    (h : row ∈ s.rows q scope) : q.admits row.fact = true := by
  cases scope with
  | snapshot moment => exact (mem_snapshotRows h).2.2
  | delta stretch => exact (mem_deltaRows.mp h).1
  | history =>
    obtain ⟨versions, -, ⟨v, hv⟩, members⟩ := mem_historyRows h
    exact ((members v).mp hv).2.2

/-- A difference has one row for a fact at the most. -/
theorem nodup_deltaRows (s : Store) (q : Query) (stretch : Interval) :
    ((s.deltaRows q stretch).map Triple.fact).Nodup := by
  have changed : ∀ before after : FactSet,
      (fun f => ((changeBetween before after f).map fun asserted =>
        (⟨f, .change asserted⟩ : Triple)).map Triple.fact) =
        Option.guard fun f => (changeBetween before after f).isSome := by
    intro before after
    funext f
    cases h : changeBetween before after f <;> simp [Option.guard, h]
  rw [deltaRows, List.map_filterMap, changed, List.filterMap_eq_filter, List.filter_filter]
  exact (OrderedSet.nodup_toList _).filter _

end Store

end Annals
