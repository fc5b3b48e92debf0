import Annals.Proofs.Inference.Absorbing

/-!
# Every gain is counted once

A row that an answer hands on says something that was not known before, and no two of the rows say
the same. So as many points of the universe become known as rows are handed on, at the least.
-/

namespace Annals

/-- No two of the rows say of one fact that it holds at one version. -/
def Apart (rows : List Triple) : Prop :=
  rows.Pairwise fun a b => a.fact = b.fact → ∀ v, a.mark.HoldsAt v → ¬ b.mark.HoldsAt v

/-- Rows of different facts are apart. -/
theorem apart_of_nodup {rows : List Triple} (h : (rows.map Triple.fact).Nodup) : Apart rows :=
  (List.pairwise_map.mp h).imp fun differ same => absurd same differ

namespace TakesIn

variable {u : Universe} {mode : Mode} {before mid after : Version → Fact → Prop}
  {rows more fresh news : List Triple}

/-- What a second list hands on is apart from what the first one did, as that is known by then. -/
theorem apart_append (h : TakesIn u mode before rows mid fresh)
    (hm : TakesIn u mode mid more after news) (first : Apart fresh) (second : Apart news) :
    Apart (fresh ++ news) := by
  refine List.pairwise_append.mpr ⟨first, second, fun a ha b hb same v hav hbv => ?_⟩
  have attested := ((h.news v a.fact).mp ⟨a, ha, rfl, hav⟩).1
  have known : mid v a.fact := (h.knows v a.fact).mpr (Or.inr attested)
  exact ((hm.news v a.fact).mp ⟨b, hb, same.symm, hbv⟩).2 known

/-- As many points become known as rows are handed on. -/
theorem exists_gained (h : TakesIn u mode before rows after fresh) (apart : Apart fresh) :
    ∃ gained : Finset (Fact × Version), gained.card = fresh.length ∧ gained ⊆ u.points ∧
      ∀ x ∈ gained, after x.2 x.1 ∧ ¬ before x.2 x.1 := by
  classical
  choose! version point holds using fun row hrow => (h.fits row hrow).exists_point
  have nodup : (fresh.map fun row => (row.fact, version row)).Nodup := by
    refine List.pairwise_map.mpr (apart.imp_of_mem fun {a b} ha hb differ same => ?_)
    obtain ⟨facts, versions⟩ := Prod.mk.inj same
    exact differ facts (version a) (holds a ha) (versions ▸ holds b hb)
  refine ⟨(fresh.map fun row => (row.fact, version row)).toFinset, ?_, fun x hx => ?_,
    fun x hx => ?_⟩
  · rw [List.toFinset_card_of_nodup nodup, List.length_map]
  · obtain ⟨row, hrow, rfl⟩ := List.mem_map.mp (List.mem_toFinset.mp hx)
    exact point row hrow
  · obtain ⟨row, hrow, rfl⟩ := List.mem_map.mp (List.mem_toFinset.mp hx)
    have news := (h.news _ _).mp ⟨row, hrow, rfl, holds row hrow⟩
    exact ⟨(h.knows _ _).mpr (Or.inr news.1), news.2⟩

end TakesIn

theorem SnapshotAnswer.apart_fresh {a : SnapshotAnswer} {rows : List Triple}
    (plain : ∀ row ∈ rows, row.mark = .plain) : Apart (a.absorb rows).2 := by
  have nodup : (a.absorb rows).2.Nodup := (nodup_distinct rows).filter _
  refine nodup.imp_of_mem fun {b c} hb hc differ same => absurd ?_ differ
  obtain ⟨f, m⟩ := b
  obtain ⟨g, n⟩ := c
  obtain rfl : m = .plain := plain _ (mem_fresh.mp hb).1
  obtain rfl : n = .plain := plain _ (mem_fresh.mp hc).1
  exact congrArg (Triple.mk · .plain) same

theorem DeltaAnswer.apart_fresh {a : DeltaAnswer} {rows : List Triple} :
    Apart (a.absorb rows).2 :=
  apart_of_nodup ((nodup_map_distinctBy Triple.fact rows).sublist (List.filter_sublist.map _))

theorem HistoryAnswer.apart_fresh {u : Universe} {a : HistoryAnswer} {rows : List Triple}
    (fits : ∀ row ∈ rows, u.Admits .history row) : Apart (a.absorb rows).2 := by
  induction rows generalizing a with
  | nil => exact .nil
  | cons row rest ih =>
    have first := add_takesIn (a := a) (fits row List.mem_cons_self)
    have others : ∀ other ∈ rest, u.Admits .history other := fun other h =>
      fits other (List.mem_cons_of_mem row h)
    have single : Apart (a.add row).2.toList := by
      cases (a.add row).2 <;> simp [Apart]
    exact first.apart_append (takesIn others) single (ih others)

/-- The rows that an answer hands on are apart. -/
theorem Answer.apart_absorb {u : Universe} {a : Answer} {rows : List Triple}
    (fits : ∀ row ∈ rows, u.Admits a.mode row) : Apart (a.absorb rows).frontier.toList := by
  cases a with
  | snapshot a =>
    simp only [absorb, Frontier.toList_ofList]
    exact SnapshotAnswer.apart_fresh fun row h => (fits row h).2
  | delta a =>
    simp only [absorb, Frontier.toList_ofList]
    exact DeltaAnswer.apart_fresh
  | history a =>
    simp only [absorb, Frontier.toList_ofList]
    exact HistoryAnswer.apart_fresh fits

end Annals
