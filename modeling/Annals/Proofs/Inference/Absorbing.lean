import Annals.Inference.Answer
import Annals.Proofs.Inference.Universe

/-!
# Taking in conclusions

In every mode an answer knows of some facts that they hold at some versions. Taking in rows adds
what they attest, and hands on precisely the part of it that was not known before.
-/

namespace Annals

/-- Taking in rows makes known what they attest; what is handed on attests the news in it. -/
structure TakesIn (u : Universe) (mode : Mode) (before : Version → Fact → Prop)
    (rows : List Triple) (after : Version → Fact → Prop) (fresh : List Triple) : Prop where
  knows : ∀ v f, after v f ↔ before v f ∨ Attests rows v f
  news : ∀ v f, Attests fresh v f ↔ Attests rows v f ∧ ¬ before v f
  fits : ∀ row ∈ fresh, u.Admits mode row

namespace TakesIn

variable {u : Universe} {mode : Mode} {before mid after : Version → Fact → Prop}
  {rows more fresh news : List Triple}

/-- Taking in nothing changes nothing. -/
theorem nil (before : Version → Fact → Prop) : TakesIn u mode before [] before [] where
  knows v f := by simp
  news v f := by simp
  fits row h := absurd h List.not_mem_nil

theorem of_nothing (h : TakesIn u mode before rows after fresh) (nothing : ∀ v f, ¬ before v f) :
    TakesIn u mode (fun _ _ => False) rows after fresh where
  knows v f := by rw [h.knows, iff_false_intro (nothing v f)]
  news v f := by rw [h.news, iff_false_intro (nothing v f)]
  fits := h.fits

/-- Rows can be taken in one list after the other. -/
theorem append (h : TakesIn u mode before rows mid fresh)
    (hm : TakesIn u mode mid more after news) :
    TakesIn u mode before (rows ++ more) after (fresh ++ news) where
  knows v f := by rw [hm.knows, h.knows, attests_append, or_assoc]
  news v f := by
    rw [attests_append, attests_append, h.news, hm.news, h.knows]
    tauto
  fits row hrow := (List.mem_append.mp hrow).elim (h.fits row) (hm.fits row)

end TakesIn

/-- In a difference a fact is known to hold where it ends if a row other than a retraction names
it. -/
theorem Mark.holdsAt_of_suits_delta {versions : Finset Version} {m : Mark}
    (h : m.Suits .delta versions) (v : Version) : m.HoldsAt v := by
  rcases h with rfl | rfl
  · trivial
  · exact rfl

namespace SnapshotAnswer

variable {u : Universe} {a : SnapshotAnswer} {rows : List Triple}

theorem mem_absorb {row : Triple} : row ∈ (a.absorb rows).1.rows ↔ row ∈ a.rows ∨ row ∈ rows := by
  simp only [absorb, List.mem_append, List.mem_filter, mem_distinct, decide_eq_true_eq]
  by_cases h : row ∈ a.rows <;> simp [h]

theorem mem_fresh {row : Triple} : row ∈ (a.absorb rows).2 ↔ row ∈ rows ∧ row ∉ a.rows := by
  simp only [absorb, List.mem_filter, mem_distinct, decide_eq_true_eq]

theorem takesIn (fits : ∀ row ∈ rows, u.Admits .snapshot row) :
    TakesIn u .snapshot (fun _ f => ⟨f, .plain⟩ ∈ a.rows) rows
      (fun _ f => ⟨f, .plain⟩ ∈ (a.absorb rows).1.rows) (a.absorb rows).2 where
  knows v f := by
    rw [mem_absorb, attests_iff_of_plain fun row h => (fits row h).2]
  news v f := by
    rw [attests_iff_of_plain fun row h => (fits row (mem_fresh.mp h).1).2, mem_fresh,
      attests_iff_of_plain fun row h => (fits row h).2]
  fits row h := fits row (mem_fresh.mp h).1

/-- Distinct rows stay distinct. -/
theorem nodup_absorb (h : a.rows.Nodup) : (a.absorb rows).1.rows.Nodup := by
  refine List.nodup_append.mpr ⟨h, (nodup_distinct rows).filter _, ?_⟩
  rintro row hrow other hother rfl
  exact of_decide_eq_true (List.mem_filter.mp hother).2 hrow

end SnapshotAnswer

namespace DeltaAnswer

variable {u : Universe} {a : DeltaAnswer} {rows : List Triple}

/-- Where nothing is retracted, every fact that is named is known to hold. -/
theorem attests_iff_mem_map (fits : ∀ row ∈ rows, u.Admits .delta row) {v : Version} {f : Fact} :
    Attests rows v f ↔ f ∈ rows.map Triple.fact := by
  constructor
  · rintro ⟨row, hrow, rfl, -⟩
    exact List.mem_map_of_mem hrow
  · intro h
    obtain ⟨row, hrow, rfl⟩ := List.mem_map.mp h
    exact ⟨row, hrow, rfl, Mark.holdsAt_of_suits_delta (fits row hrow).2 v⟩

theorem fresh_sublist : (a.absorb rows).2.Sublist rows :=
  List.filter_sublist.trans (distinctBy_sublist _ rows)

theorem mem_map_fresh {f : Fact} :
    f ∈ (a.absorb rows).2.map Triple.fact ↔ f ∈ rows.map Triple.fact ∧ f ∉ a.known := by
  have kept : f ∈ (distinctBy Triple.fact rows).map Triple.fact ↔ f ∈ rows.map Triple.fact :=
    mem_map_distinctBy
  rw [← kept]
  simp only [absorb, List.mem_map, List.mem_filter, decide_eq_true_eq]
  constructor
  · rintro ⟨row, ⟨hrow, new⟩, rfl⟩
    exact ⟨⟨row, hrow, rfl⟩, new⟩
  · rintro ⟨⟨row, hrow, rfl⟩, new⟩
    exact ⟨row, ⟨hrow, new⟩, rfl⟩

theorem mem_known_absorb {f : Fact} :
    f ∈ (a.absorb rows).1.known ↔ f ∈ a.known ∨ f ∈ rows.map Triple.fact := by
  have fresh : f ∈ (a.absorb rows).2.map Triple.fact ↔ f ∈ rows.map Triple.fact ∧ f ∉ a.known :=
    mem_map_fresh
  have known : (a.absorb rows).1.known = a.known ++ (a.absorb rows).2.map Triple.fact := rfl
  rw [known, List.mem_append, fresh]
  by_cases h : f ∈ a.known <;> simp [h]

theorem takesIn (fits : ∀ row ∈ rows, u.Admits .delta row) :
    TakesIn u .delta (fun _ f => f ∈ a.known) rows (fun _ f => f ∈ (a.absorb rows).1.known)
      (a.absorb rows).2 := by
  have handed : ∀ row ∈ (a.absorb rows).2, u.Admits .delta row := fun row h =>
    fits row (fresh_sublist.subset h)
  refine ⟨fun v f => ?_, fun v f => ?_, handed⟩
  · rw [attests_iff_mem_map fits, mem_known_absorb]
  · rw [attests_iff_mem_map handed, attests_iff_mem_map fits, mem_map_fresh]

theorem asserts_iff {row : Triple} : row.isAssertion = true ↔ row.mark = .change true := by
  obtain ⟨f, _ | asserted | versions⟩ := row <;> simp [Triple.isAssertion, Mark.asserted?]

theorem mem_asserted {row : Triple} :
    row ∈ (ofRows rows).2 ↔ row ∈ rows ∧ row.mark = .change true := by
  simp only [ofRows, List.mem_filter, mem_distinct, asserts_iff]

/-- Of a difference the assertions are taken in. -/
theorem takesIn_ofRows (covered : ∀ row ∈ rows, u.Covers .delta row) :
    TakesIn u .delta (fun _ _ => False) rows (fun _ f => f ∈ (ofRows rows).1.known)
      (ofRows rows).2 := by
  have handed : ∀ row ∈ (ofRows rows).2, u.Admits .delta row := fun row h =>
    ⟨(covered row (mem_asserted.mp h).1).1, Or.inr (mem_asserted.mp h).2⟩
  have attests : ∀ v f, Attests (ofRows rows).2 v f ↔ Attests rows v f := by
    intro v f
    constructor
    · rintro ⟨row, hrow, rfl, hv⟩
      exact ⟨row, (mem_asserted.mp hrow).1, rfl, hv⟩
    · rintro ⟨row, hrow, rfl, hv⟩
      obtain ⟨asserted, hm⟩ := (covered row hrow).2.1
      rw [hm] at hv
      obtain rfl : asserted = true := hv
      exact ⟨row, mem_asserted.mpr ⟨hrow, hm⟩, rfl, by rw [hm]; rfl⟩
  refine ⟨fun v f => ?_, fun v f => ?_, handed⟩
  · rw [false_or, ← attests v f, attests_iff_mem_map handed]
    rfl
  · rw [attests v f, not_false_eq_true, and_true]

end DeltaAnswer

/-- The versions that a row names; a row that is marked otherwise names none. -/
def Triple.versions (row : Triple) : VersionSet := row.mark.versions?.getD ∅

/-- The row says of the fact that it holds at the version. -/
def Triple.Names (row : Triple) (f : Fact) (v : Version) : Prop := row.fact = f ∧ v ∈ row.versions

instance (row : Triple) (f : Fact) (v : Version) : Decidable (row.Names f v) :=
  inferInstanceAs (Decidable (_ ∧ _))

/-- Where all rows are marked with versions, what they attest is what they name. -/
theorem attests_iff_of_named {rows : List Triple}
    (marked : ∀ row ∈ rows, ∃ versions, row.mark = .holding versions) {v : Version} {f : Fact} :
    Attests rows v f ↔ ∃ row ∈ rows, row.Names f v := by
  refine exists_congr fun row => and_congr_right fun hrow => and_congr_right fun _ => ?_
  obtain ⟨versions, named⟩ := marked row hrow
  rw [Triple.versions, named]
  rfl

namespace HistoryAnswer

variable {u : Universe} {a : HistoryAnswer} {row : Triple} {rows : List Triple} {f g : Fact}
  {v : Version}

/-- A row without versions, or with no new ones, is passed over. -/
theorem add_eq (a : HistoryAnswer) (row : Triple) :
    a.add row =
      if (row.versions \ a.versionsOf row.fact).isEmpty then (a, none)
      else (⟨extend row.fact row.versions a.entries⟩,
        some ⟨row.fact, .holding (row.versions \ a.versionsOf row.fact)⟩) := by
  unfold add Triple.versions
  cases row.mark.versions? with
  | none => rfl
  | some versions => rfl

theorem absorb_cons :
    a.absorb (row :: rows) = (((a.add row).1.absorb rows).1,
      (a.add row).2.toList ++ ((a.add row).1.absorb rows).2) := rfl

theorem mem_getD_lookup_extend {versions : VersionSet} {entries : List (Fact × VersionSet)} :
    v ∈ ((extend f versions entries).lookup g).getD ∅ ↔
      v ∈ (entries.lookup g).getD ∅ ∨ g = f ∧ v ∈ versions := by
  induction entries with
  | nil =>
    by_cases h : g = f
    · simp [extend, h]
    · have differ : (g == f) = false := beq_false_of_ne h
      simp [extend, List.lookup_cons, h, differ]
  | cons entry rest ih =>
    obtain ⟨e, known⟩ := entry
    rw [extend]
    by_cases he : e = f
    · subst he
      by_cases h : g = e
      · simp [h]
      · have differ : (g == e) = false := beq_false_of_ne h
        simp [List.lookup_cons, h, differ]
    · rw [if_neg he]
      by_cases h : g = e
      · subst h
        simp [he]
      · have differ : (g == e) = false := beq_false_of_ne h
        simpa only [List.lookup_cons, differ] using ih

/-- A row adds its versions to those of its fact. -/
theorem mem_versionsOf_add :
    v ∈ (a.add row).1.versionsOf f ↔ v ∈ a.versionsOf f ∨ row.Names f v := by
  rw [add_eq]
  split
  · next none_new =>
    rw [iff_self_or]
    rintro ⟨rfl, hv⟩
    by_contra new
    exact OrderedSet.isEmpty_iff.mp none_new v (OrderedSet.mem_sdiff.mpr ⟨hv, new⟩)
  · exact mem_getD_lookup_extend.trans (or_congr_right (and_congr_left' eq_comm))

/-- Rows add all versions that they name. -/
theorem mem_versionsOf_absorb :
    v ∈ (a.absorb rows).1.versionsOf f ↔ v ∈ a.versionsOf f ∨ ∃ row ∈ rows, row.Names f v := by
  induction rows generalizing a with
  | nil => simp [absorb]
  | cons row rest ih =>
    rw [absorb_cons, ih, mem_versionsOf_add, List.exists_mem_cons_iff, or_assoc]

/-- A row is handed on with the versions that are new, if there are any. -/
theorem mem_gained {gained : Triple} (h : gained ∈ (a.add row).2.toList) :
    ∃ versions, gained = ⟨row.fact, .holding versions⟩ ∧
      versions = row.versions \ a.versionsOf row.fact ∧ ∃ v, v ∈ versions := by
  rw [add_eq] at h
  split at h
  · exact absurd h List.not_mem_nil
  · next some_new =>
    have new := OrderedSet.isEmpty_eq_false_iff.mp (Bool.eq_false_iff.mpr some_new)
    exact ⟨_, List.mem_singleton.mp h, rfl, new⟩

/-- So of what a row names, that which is new is handed on once. -/
theorem countP_gained :
    (a.add row).2.toList.countP (fun gained => decide (gained.Names f v)) =
      if row.Names f v ∧ v ∉ a.versionsOf f then 1 else 0 := by
  rw [add_eq]
  split
  · next none_new =>
    have had := OrderedSet.isEmpty_iff.mp none_new v
    rw [if_neg]
    · rfl
    rintro ⟨⟨rfl, hv⟩, new⟩
    exact had (OrderedSet.mem_sdiff.mpr ⟨hv, new⟩)
  · rw [Option.toList_some, List.countP_singleton]
    refine if_congr ?_ rfl rfl
    rw [decide_eq_true_iff]
    constructor
    · rintro ⟨rfl, hv⟩
      obtain ⟨named, new⟩ := OrderedSet.mem_sdiff.mp hv
      exact ⟨⟨rfl, named⟩, new⟩
    · rintro ⟨⟨rfl, named⟩, new⟩
      exact ⟨rfl, OrderedSet.mem_sdiff.mpr ⟨named, new⟩⟩

theorem attests_gained :
    Attests (a.add row).2.toList v f ↔ row.Names f v ∧ v ∉ a.versionsOf f := by
  have marked : ∀ gained ∈ (a.add row).2.toList, ∃ versions, gained.mark = .holding versions := by
    intro gained h
    obtain ⟨versions, rfl, -⟩ := mem_gained h
    exact ⟨versions, rfl⟩
  calc Attests (a.add row).2.toList v f
    _ ↔ ∃ gained ∈ (a.add row).2.toList, gained.Names f v := attests_iff_of_named marked
    _ ↔ 0 < (a.add row).2.toList.countP fun gained => decide (gained.Names f v) := by
      simp only [List.countP_pos_iff, decide_eq_true_iff]
    _ ↔ row.Names f v ∧ v ∉ a.versionsOf f := by
      rw [countP_gained]
      split
      · next new => exact iff_of_true Nat.one_pos new
      · next old => exact iff_of_false (Nat.lt_irrefl 0) old

theorem add_takesIn (fits : u.Admits .history row) :
    TakesIn u .history (fun v f => v ∈ a.versionsOf f) [row]
      (fun v f => v ∈ (a.add row).1.versionsOf f) (a.add row).2.toList := by
  obtain ⟨hf, versions, named, -, within⟩ := fits
  have attests : ∀ v f, Attests [row] v f ↔ row.Names f v := by
    intro v f
    rw [attests_iff_of_named (List.forall_mem_singleton.mpr ⟨versions, named⟩)]
    simp only [List.mem_singleton, exists_eq_left]
  refine ⟨fun v f => ?_, fun v f => ?_, fun gained h => ?_⟩
  · rw [attests, mem_versionsOf_add]
  · rw [attests, attests_gained]
  · obtain ⟨gain, rfl, rfl, new⟩ := mem_gained h
    have own : row.versions = versions := by
      rw [Triple.versions, named]
      rfl
    exact ⟨hf, _, rfl, new, fun v hv => within v (own ▸ (OrderedSet.mem_sdiff.mp hv).1)⟩

theorem takesIn (fits : ∀ row ∈ rows, u.Admits .history row) :
    TakesIn u .history (fun v f => v ∈ a.versionsOf f) rows
      (fun v f => v ∈ (a.absorb rows).1.versionsOf f) (a.absorb rows).2 := by
  induction rows generalizing a with
  | nil => exact .nil _
  | cons row rest ih =>
    have first := add_takesIn (a := a) (fits row List.mem_cons_self)
    exact first.append (ih fun other h => fits other (List.mem_cons_of_mem row h))

theorem map_fst_extend {versions : VersionSet} {entries : List (Fact × VersionSet)} :
    (extend f versions entries).map Prod.fst =
      if f ∈ entries.map Prod.fst then entries.map Prod.fst else entries.map Prod.fst ++ [f] := by
  induction entries with
  | nil => rfl
  | cons entry rest ih =>
    obtain ⟨e, known⟩ := entry
    rw [extend]
    by_cases he : e = f
    · simp [he]
    · rw [if_neg he, List.map_cons, ih]
      by_cases listed : f ∈ rest.map Prod.fst <;> simp [listed, Ne.symm he]

/-- No fact has two entries. -/
theorem nodup_keys_absorb (h : (a.entries.map Prod.fst).Nodup) :
    ((a.absorb rows).1.entries.map Prod.fst).Nodup := by
  induction rows generalizing a with
  | nil => exact h
  | cons row rest ih =>
    have kept : ((a.add row).1.entries.map Prod.fst).Nodup := by
      rw [add_eq]
      split
      · exact h
      · rw [map_fst_extend]
        split
        · exact h
        · next unlisted =>
          exact (List.perm_append_singleton _ _).nodup_iff.mpr (List.nodup_cons.mpr ⟨unlisted, h⟩)
    exact ih kept

/-- If no fact has two entries, the rows attest the versions that the answer has. -/
theorem attests_rows (h : (a.entries.map Prod.fst).Nodup) :
    Attests a.rows v f ↔ v ∈ a.versionsOf f := by
  obtain ⟨entries⟩ := a
  simp only [rows, versionsOf] at h ⊢
  induction entries with
  | nil => simp
  | cons entry rest ih =>
    obtain ⟨e, versions⟩ := entry
    obtain ⟨first, others⟩ := List.nodup_cons.mp h
    rw [List.map_cons, attests_cons, ih others]
    by_cases he : f = e
    · subst he
      have absent : rest.lookup f = none := by
        refine List.lookup_eq_none_iff.mpr fun other hother => ?_
        exact bne_iff_ne.mpr fun same => first (List.mem_map.mpr ⟨other, hother, same.symm⟩)
      simp [absent, Mark.HoldsAt]
    · have differ : (f == e) = false := beq_false_of_ne he
      simp [List.lookup_cons, differ, Ne.symm he]

@[simp] theorem map_fact_rows : a.rows.map Triple.fact = a.entries.map Prod.fst := by
  simp [HistoryAnswer.rows, Function.comp_def]

theorem exists_mem_extend {versions : VersionSet} {entries : List (Fact × VersionSet)}
    (gained : ∃ v, v ∈ versions) (h : ∀ entry ∈ entries, ∃ v, v ∈ entry.2) :
    ∀ entry ∈ extend f versions entries, ∃ v, v ∈ entry.2 := by
  induction entries with
  | nil => exact List.forall_mem_singleton.mpr gained
  | cons entry rest ih =>
    obtain ⟨e, known⟩ := entry
    obtain ⟨⟨v, hv⟩, others⟩ := List.forall_mem_cons.mp h
    rw [extend]
    split
    · exact List.forall_mem_cons.mpr ⟨⟨v, OrderedSet.mem_union.mpr (Or.inl hv)⟩, others⟩
    · exact List.forall_mem_cons.mpr ⟨⟨v, hv⟩, ih others⟩

/-- No entry is without versions. -/
theorem exists_mem_absorb (h : ∀ entry ∈ a.entries, ∃ v, v ∈ entry.2) :
    ∀ entry ∈ (a.absorb rows).1.entries, ∃ v, v ∈ entry.2 := by
  induction rows generalizing a with
  | nil => exact h
  | cons row rest ih =>
    have kept : ∀ entry ∈ (a.add row).1.entries, ∃ v, v ∈ entry.2 := by
      rw [add_eq]
      split
      · exact h
      · next some_new =>
        have gained := OrderedSet.isEmpty_eq_false_iff.mp (Bool.eq_false_iff.mpr some_new)
        obtain ⟨v, hv⟩ := gained
        exact exists_mem_extend ⟨v, (OrderedSet.mem_sdiff.mp hv).1⟩ h
    exact ih kept

end HistoryAnswer

namespace Answer

/-- The mode in which an answer takes in rows. -/
def mode : Answer → Mode
  | snapshot _ => .snapshot
  | delta _ => .delta
  | history _ => .history

/-- The answer knows that the fact holds at the version. -/
def Knows (a : Answer) (v : Version) (f : Fact) : Prop :=
  match a with
  | snapshot a => ⟨f, .plain⟩ ∈ a.rows
  | delta a => f ∈ a.known
  | history a => v ∈ a.versionsOf f

variable {u : Universe} {a : Answer} {rows : List Triple}

theorem exists_of_mode_delta (h : a.mode = .delta) : ∃ d, a = .delta d := by
  cases a with
  | snapshot a => cases h
  | delta d => exact ⟨d, rfl⟩
  | history a => cases h

theorem mode_absorb : (a.absorb rows).answer.mode = a.mode := by
  cases a <;> rfl

/-- A snapshot grows by what it hands on. -/
theorem size_absorb_of_snapshot (h : a.mode = .snapshot) (rows : List Triple) :
    (a.absorb rows).answer.size = a.size + (a.absorb rows).frontier.size := by
  cases a with
  | snapshot a =>
    simp only [absorb, size, Answer.rows, SnapshotAnswer.absorb, List.length_append,
      Frontier.size_ofList]
  | delta a => cases h
  | history a => cases h

/-- A difference shrinks by what is dropped. -/
theorem size_absorb_of_delta (h : a.mode = .delta) (rows : List Triple) :
    (a.absorb rows).suppressed + (a.absorb rows).answer.size = a.size := by
  obtain ⟨d, rfl⟩ := exists_of_mode_delta h
  have fewer : (d.retained rows).length ≤ d.rows.length := List.length_filter_le _ _
  exact Nat.sub_add_cancel fewer

/-- Only a difference drops rows. -/
theorem suppressed_absorb (h : a.mode ≠ .delta) : (a.absorb rows).suppressed = 0 := by
  cases a with
  | snapshot a => rfl
  | delta a => exact absurd rfl h
  | history a => rfl

theorem takesIn (fits : ∀ row ∈ rows, u.Admits a.mode row) :
    TakesIn u a.mode a.Knows rows (a.absorb rows).answer.Knows
      (a.absorb rows).frontier.toList := by
  cases a with
  | snapshot a =>
    simp only [absorb, Frontier.toList_ofList]
    exact SnapshotAnswer.takesIn fits
  | delta a =>
    simp only [absorb, Frontier.toList_ofList]
    exact DeltaAnswer.takesIn fits
  | history a =>
    simp only [absorb, Frontier.toList_ofList]
    exact HistoryAnswer.takesIn fits

theorem mode_ofRows (mode : Mode) : (ofRows mode rows).1.mode = mode := by
  cases mode <;> rfl

/-- At the start the distinct rows are kept, except over all versions, where facts are. -/
theorem size_ofRows {mode : Mode} (h : mode ≠ .history) :
    (ofRows mode rows).1.size = (distinct rows).length := by
  cases mode with
  | snapshot =>
    have all : (distinct rows).filter (fun row => decide (row ∉ ([] : List Triple))) =
        distinct rows := List.filter_eq_self.mpr fun _ _ => rfl
    exact congrArg List.length all
  | delta => rfl
  | history => exact absurd rfl h

theorem takesIn_ofRows {mode : Mode} (covered : ∀ row ∈ rows, u.Covers mode row) :
    TakesIn u mode (fun _ _ => False) rows (ofRows mode rows).1.Knows
      (ofRows mode rows).2.toList := by
  cases mode with
  | snapshot =>
    have fits : ∀ row ∈ rows, u.Admits .snapshot row := fun row h => (covered row h).admits nofun
    have start := SnapshotAnswer.takesIn (a := ⟨[]⟩) fits
    simp only [ofRows, Frontier.toList_ofList]
    exact start.of_nothing fun _ _ => List.not_mem_nil
  | delta =>
    simp only [ofRows, Frontier.toList_ofList]
    exact DeltaAnswer.takesIn_ofRows covered
  | history =>
    have fits : ∀ row ∈ rows, u.Admits .history row := fun row h => (covered row h).admits nofun
    have start := HistoryAnswer.takesIn (a := ⟨[]⟩) fits
    simp only [ofRows, Frontier.toList_ofList]
    exact start.of_nothing fun _ _ => OrderedSet.not_mem_empty _

end Answer

section Merge

variable {rows : List Triple}

theorem nodup_mergeByFact (rows : List Triple) : ((mergeByFact rows).map Triple.fact).Nodup := by
  rw [mergeByFact, HistoryAnswer.map_fact_rows]
  exact HistoryAnswer.nodup_keys_absorb List.nodup_nil

theorem answers_of_mem_mergeByFact {row : Triple} (h : row ∈ mergeByFact rows) :
    row.mark.Answers .history := by
  obtain ⟨entry, mem, rfl⟩ := List.mem_map.mp h
  exact ⟨entry.2, rfl,
    HistoryAnswer.exists_mem_absorb (fun _ none => absurd none List.not_mem_nil) entry mem⟩

/-- Merged rows attest what they did before. -/
theorem attests_mergeByFact (marked : ∀ row ∈ rows, ∃ versions, row.mark = .holding versions)
    {v : Version} {f : Fact} : Attests (mergeByFact rows) v f ↔ Attests rows v f :=
  calc Attests (mergeByFact rows) v f
    _ ↔ v ∈ ((⟨[]⟩ : HistoryAnswer).absorb rows).1.versionsOf f :=
      HistoryAnswer.attests_rows (HistoryAnswer.nodup_keys_absorb List.nodup_nil)
    _ ↔ v ∈ (⟨[]⟩ : HistoryAnswer).versionsOf f ∨ Attests rows v f :=
      HistoryAnswer.mem_versionsOf_absorb.trans (or_congr_right (attests_iff_of_named marked).symm)
    _ ↔ Attests rows v f := or_iff_right (OrderedSet.not_mem_empty v)

end Merge

end Annals
