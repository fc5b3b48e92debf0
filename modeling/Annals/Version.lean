import Annals.OrderedSet

/-!
# Versions

The versions of a dataset are the integers from 0 on; -1 stands for the state before the first one.
-/

namespace Annals

/-- A version of a dataset. -/
abbrev Version := Int

/-- The version fits into 64 bits, as those in documents have to. -/
def Version.Fits (v : Version) : Prop := -0x8000000000000000 ≤ v ∧ v ≤ 0x7FFFFFFFFFFFFFFF

instance (v : Version) : Decidable (Version.Fits v) :=
  inferInstanceAs (Decidable (-0x8000000000000000 ≤ v ∧ v ≤ 0x7FFFFFFFFFFFFFFF))

/-- The version of a dataset that holds nothing yet. -/
def noVersion : Version := -1

/-- The versions in which a statement holds. -/
abbrev VersionSet := OrderedSet Version

namespace VersionSet

/-- The versions from `lo` on that lie below `hi`. -/
def span (lo hi : Version) : VersionSet :=
  .ofList ((List.range (hi - lo).toNat).map fun (n : Nat) => lo + (n : Int))

theorem exists_offset_iff {lo hi v : Int} :
    (∃ n < (hi - lo).toNat, lo + (n : Int) = v) ↔ lo ≤ v ∧ v < hi := by
  constructor
  · rintro ⟨n, hn, rfl⟩
    omega
  · rintro ⟨hl, hh⟩
    exact ⟨(v - lo).toNat, by omega, by omega⟩

@[simp] theorem mem_span {lo hi v : Version} : v ∈ span lo hi ↔ lo ≤ v ∧ v < hi := by
  simpa [span] using exists_offset_iff

/-- Versions are shown in ascending order, with commas between them. -/
def display (s : VersionSet) : String := ",".intercalate (s.toList.map toString)

end VersionSet

end Annals
