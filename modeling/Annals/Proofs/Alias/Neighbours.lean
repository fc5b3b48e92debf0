import Annals.Proofs.Alias.Answers
import Annals.Proofs.DualHistory
import Annals.Proofs.Inference.View
import Annals.Proofs.Store.Listing

/-!
# The neighbours of a term

Two lookups for every identity predicate find the terms at the other ends of the links of a term,
whichever end it has itself. What they find for one term and what they find for another come from
separate searches, yet the links that are seen are the same ones, so each of two terms is found to
be a name of the other or neither is.
-/

namespace Annals

section Aliased

variable {identity : List Term} {facts : Fact → Prop} {x y : Term}

theorem Aliased.symm (h : Aliased identity facts x y) : Aliased identity facts y x := by
  rcases h with rfl | ⟨f, hf, mem, ends⟩
  · exact Or.inl rfl
  · exact Or.inr ⟨f, hf, mem, ends.symm⟩

theorem aliased_nil_iff : Aliased [] facts x y ↔ x = y := by
  simp [Aliased]

end Aliased

namespace Store

/-- The fact holds at the version, or at some version if none is named. -/
def HoldsIn (s : Store) (f : Fact) : Option Version → Prop
  | some v => f ∈ s.stateAt v
  | none => ∃ v, f ∈ s.stateAt v

end Store

namespace Backend

/-- One of the stores holds the fact, at the version if one is named. -/
def Visible (b : Backend) (version : Option Version) (f : Fact) : Prop :=
  ∃ s : Store, .store s ∈ b.sources ∧ s.HoldsIn f version

variable {b : Backend} {identity : List Term} {version : Option Version} {x y : Term}

/-- What is looked up for links is what the stores hold. -/
theorem exists_shows_visible (ho : b.OverOpenStores) (version : Option Version) :
    ∃ held, b.Shows (linkScope version) held ∧
      ∀ f, (∃ v, held v f) ↔ b.Visible version f := by
  cases b with
  | single source =>
    obtain ⟨s, rfl, isOpen⟩ := ho source (by simp [sources])
    have visible : ∀ f, (single (.store s)).Visible version f ↔ s.HoldsIn f version := by
      simp [Visible, sources]
    cases version with
    | some v => exact ⟨_, shows_version isOpen v, fun f => by simp [visible, Store.HoldsIn]⟩
    | none =>
      refine ⟨_, shows_history isOpen, fun f => ?_⟩
      rw [s.exists_le_maxVersion_iff, visible]
      rfl
  | dual dataset language =>
    obtain ⟨s, rfl, isOpen⟩ := ho dataset (by simp [sources])
    obtain ⟨t, rfl, isOpen'⟩ := ho language (by simp [sources])
    have visible : ∀ f, (dual (.store s) (.store t)).Visible version f ↔
        s.HoldsIn f version ∨ t.HoldsIn f version := by
      simp [Visible, sources, or_and_right, exists_or]
    cases version with
    | some v => exact ⟨_, shows_dual isOpen isOpen' rfl rfl,
        fun f => by simp [visible, Store.HoldsIn]⟩
    | none =>
      refine ⟨_, shows_dual_history isOpen isOpen', fun f => ?_⟩
      simp only [HeldByReaching, exists_or, Store.exists_le_maxVersion_iff, visible]
      rfl

/-- The names of a term are its neighbours among the facts that are looked up. -/
theorem mem_names_iff (ho : b.OverOpenStores) (constants : ∀ p ∈ identity, p.isVariable = false)
    (hx : x.isVariable = false) :
    y ∈ b.names identity version x ↔ Aliased identity (b.Visible version) x y := by
  obtain ⟨held, shows, visible⟩ := exists_shows_visible ho version
  have facts : (fun f => ∃ v, held v f) = b.Visible version := funext fun f => propext (visible f)
  rw [mem_names ho shows, named_iff_aliased constants hx, facts]

/-- Without identity predicates nothing is looked up. -/
theorem run_aliasClass_nil (b : Backend) (version : Option Version) (x : Term) (asked : Nat) :
    (b.aliasClass [] version (some x)).run asked = .ok ([some x], asked) :=
  rfl

/-- Stores that answer a search are open. -/
theorem overOpenStores_of_run_search (stores : b.OverStores) {q : Query} {scopes : ScopePair}
    {mode : Mode} (hm : scopes.mode = .ok mode) {asked : Nat} {found : List Triple × Nat}
    (ok : (b.search q scopes).run asked = .ok found) : b.OverOpenStores := by
  rw [run_search] at ok
  cases rows : b.rows q scopes with
  | error e =>
    rw [rows] at ok
    cases ok
  | ok found => exact overOpenStores_of_rows stores hm rows

/-- Over stores a class is found if and only if the stores are open, or need not be asked. -/
theorem run_aliasClass_eq_ok_iff (stores : b.OverStores) {asked : Nat} :
    (∃ found, (b.aliasClass identity version (some x)).run asked = .ok found) ↔
      b.OverOpenStores ∨ identity = [] := by
  constructor
  · rintro ⟨found, ok⟩
    cases identity with
    | nil => exact Or.inr rfl
    | cons p rest =>
      left
      -- the first thing that is done is a search
      obtain ⟨_, _, named, -⟩ := Metered.exists_run_of_bind ok
      rw [aliases_eq] at named
      obtain ⟨_, _, looked, -⟩ := Metered.exists_run_of_bind named
      rw [List.flatMap_cons, linkQueries, List.cons_append, List.mapM_cons] at looked
      obtain ⟨_, _, first, -⟩ := Metered.exists_run_of_bind looked
      obtain ⟨_, _, searched, -⟩ := Metered.exists_run_of_bind first
      obtain ⟨mode, hm, -⟩ := exists_mode_linkScope version
      exact overOpenStores_of_run_search stores hm searched
  · rintro (ho | rfl)
    · exact ⟨_, run_aliasClass ho identity version (some x) asked⟩
    · exact ⟨_, run_aliasClass_nil b version x asked⟩

/-- The class that is found is made of the neighbours of the term. -/
theorem class_of_run_aliasClass (stores : b.OverStores)
    (constants : ∀ p ∈ identity, p.isVariable = false) (hx : x.isVariable = false) {asked : Nat}
    {found : AliasClass × Nat}
    (ok : (b.aliasClass identity version (some x)).run asked = .ok found) :
    ∃ names : List Term, found.1 = names.map some ∧ names.head? = some x ∧ names.Nodup ∧
      ∀ y, y ∈ names ↔ Aliased identity (b.Visible version) x y := by
  rcases (run_aliasClass_eq_ok_iff stores).mp ⟨found, ok⟩ with ho | rfl
  · rw [run_aliasClass ho] at ok
    obtain rfl := Except.ok.inj ok
    exact ⟨b.names identity version x, rfl, rfl, nodup_distinct _,
      fun y => mem_names_iff ho constants hx⟩
  · rw [run_aliasClass_nil] at ok
    obtain rfl := Except.ok.inj ok
    refine ⟨[x], rfl, rfl, List.nodup_singleton x, fun y => ?_⟩
    rw [aliased_nil_iff, List.mem_singleton, eq_comm]

end Backend

/-- Over stores the class of a constant, if the stores are open or there is no identity predicate to
ask them for, is the constant itself, first, and then each of its neighbours once: the terms at the
other end of a fact with an identity predicate that one of the stores holds, at the version if one
is named. Each of two constants is in the class of the other or neither is. -/
theorem alias_class_is_neighbourhood (b : Backend) (stores : b.OverStores) (identity : List Term)
    (constants : ∀ p ∈ identity, p.isVariable = false) (version : Option Version) (x : Term)
    (hx : x.isVariable = false) (asked : Nat) :
    ((∃ found, (b.aliasClass identity version (some x)).run asked = .ok found) ↔
      b.OverOpenStores ∨ identity = []) ∧
    ∀ found, (b.aliasClass identity version (some x)).run asked = .ok found →
      (∃ names : List Term, found.1 = names.map some ∧ names.head? = some x ∧ names.Nodup ∧
        ∀ y, y ∈ names ↔ Aliased identity (b.Visible version) x y) ∧
      ∀ y, y.isVariable = false → ∀ later also,
        (b.aliasClass identity version (some y)).run later = .ok also →
        (some y ∈ found.1 ↔ some x ∈ also.1) := by
  refine ⟨Backend.run_aliasClass_eq_ok_iff stores, fun found ok => ?_⟩
  obtain ⟨names, listed, first, once, mem⟩ :=
    Backend.class_of_run_aliasClass stores constants hx ok
  refine ⟨⟨names, listed, first, once, mem⟩, fun y hy later also ok' => ?_⟩
  obtain ⟨others, listed', -, -, mem'⟩ := Backend.class_of_run_aliasClass stores constants hy ok'
  calc some y ∈ found.1
    _ ↔ y ∈ names := by simp [listed]
    _ ↔ Aliased identity (b.Visible version) x y := mem y
    _ ↔ Aliased identity (b.Visible version) y x := ⟨Aliased.symm, Aliased.symm⟩
    _ ↔ x ∈ others := (mem' x).symm
    _ ↔ some x ∈ also.1 := by simp [listed']

namespace Sample

def ciceroIsCicero : Fact := ⟨⟨"cicero"⟩, ⟨"same"⟩, ⟨"cicero"⟩⟩

def ciceroIsMarcus : Fact := ⟨⟨"cicero"⟩, ⟨"same"⟩, ⟨"marcus"⟩⟩

/-- Another name of Cicero, and a link that gives none. -/
def forenames : Store where
  changesets := [⟨2, [⟨ciceroIsCicero, true, by decide⟩, ⟨ciceroIsMarcus, true, by decide⟩]⟩]
  closed := false
  descending := by decide
  nonneg := by decide

/-- One store has a link to Cicero, and the other one a link from him. -/
def ciceroStores : Backend := .dual (.store romans) (.store forenames)

end Sample

/-- Cicero has a name from each store. That one identity predicate is listed twice makes no
difference. -/
theorem alias_class_of_cicero :
    Sample.ciceroStores.OverStores ∧
      (∀ p ∈ [(⟨"same"⟩ : Term), ⟨"same"⟩], p.isVariable = false) ∧
      ∃ found also, (Sample.ciceroStores.aliasClass [⟨"same"⟩, ⟨"same"⟩] none
          (some ⟨"cicero"⟩)).run 0 = .ok found ∧
        (Sample.ciceroStores.aliasClass [⟨"same"⟩, ⟨"same"⟩] none
          (some ⟨"marcus"⟩)).run 0 = .ok also ∧
        some ⟨"tully"⟩ ∈ found.1 ∧ some ⟨"marcus"⟩ ∈ found.1 ∧ some ⟨"cicero"⟩ ∈ also.1 := by
  have stores : Sample.ciceroStores.OverStores := by
    intro source hs
    rcases List.mem_pair.mp hs with rfl | rfl
    · exact ⟨_, rfl⟩
    · exact ⟨_, rfl⟩
  have isOpen : Sample.ciceroStores.OverOpenStores := Backend.overOpenStores_dual rfl rfl
  have constants : ∀ p ∈ [(⟨"same"⟩ : Term), ⟨"same"⟩], p.isVariable = false := by decide
  obtain ⟨succeeds, neighbours⟩ := alias_class_is_neighbourhood Sample.ciceroStores stores
    [⟨"same"⟩, ⟨"same"⟩] constants none ⟨"cicero"⟩ (by decide) 0
  obtain ⟨found, ok⟩ := succeeds.mpr (Or.inl isOpen)
  obtain ⟨also, ok'⟩ := (Backend.run_aliasClass_eq_ok_iff (x := ⟨"marcus"⟩) stores).mpr
    (Or.inl isOpen)
  obtain ⟨⟨names, listed, -, -, mem⟩, symmetric⟩ := neighbours found ok
  have tully : Sample.ciceroStores.Visible none Sample.tullyIsCicero :=
    ⟨Sample.romans, List.mem_cons_self, 0, by decide +kernel⟩
  have marcus : Sample.ciceroStores.Visible none Sample.ciceroIsMarcus :=
    ⟨Sample.forenames, List.mem_cons_of_mem _ List.mem_cons_self, 2, by decide +kernel⟩
  have hasTully : some ⟨"tully"⟩ ∈ found.1 := listed ▸ List.mem_map_of_mem ((mem _).mpr
    (Or.inr ⟨_, tully, List.mem_cons_self, Or.inr ⟨rfl, rfl⟩⟩))
  have hasMarcus : some ⟨"marcus"⟩ ∈ found.1 := listed ▸ List.mem_map_of_mem ((mem _).mpr
    (Or.inr ⟨_, marcus, List.mem_cons_self, Or.inl ⟨rfl, rfl⟩⟩))
  exact ⟨stores, constants, found, also, ok, ok', hasTully, hasMarcus,
    (symmetric ⟨"marcus"⟩ (by decide) 0 also ok').mp hasMarcus⟩

end Annals
