import Annals.Alias.Search
import Annals.Proofs.Backend

/-!
# Names of one thing

A term has its own name and the names at the other ends of its links. Links are looked up in both
directions and for one identity predicate after the other, so a class is what a fact with such a
predicate joins to the term. Names go one link far only: the relation is symmetric, but it is not
made transitive.

A variable is looked up as an open place. So where a query has one for a term, which queries for
constants never have, all links are found to be links of it.
-/

namespace Annals

namespace Query

theorem admits_places {q : Query} {f : Fact} :
    q.admits f = true ↔ (∀ t, q.subject = some t → f.subject = t) ∧
      (∀ t, q.predicate = some t → f.predicate = t) ∧ ∀ t, q.object = some t → f.object = t := by
  rw [admits_iff]
  constructor
  · intro h
    exact ⟨h .subject, h .predicate, h .object⟩
  · rintro ⟨hs, hp, ho⟩ (_ | _ | _)
    · exact hs
    · exact hp
    · exact ho

end Query

/-- Two terms name one thing: they are the same, or a fact with an identity predicate has one of them
at each end. -/
def Aliased (identity : List Term) (facts : Fact → Prop) (x y : Term) : Prop :=
  x = y ∨ ∃ f, facts f ∧ f.predicate ∈ identity ∧
    (f.subject = x ∧ f.object = y ∨ f.subject = y ∧ f.object = x)

/-- The second term is found when names of the first one are looked up: it is the same, or at the
other end of a fact with an identity predicate that has the first one at one end. A variable is
looked up as an open place, so every fact has it at both ends. -/
def Called (identity : List Term) (facts : Fact → Prop) (x y : Term) : Prop :=
  x = y ∨ ∃ f, facts f ∧ f.predicate ∈ identity ∧
    ((x.isVariable = true ∨ f.subject = x) ∧ f.object = y ∨
      f.subject = y ∧ (x.isVariable = true ∨ f.object = x))

/-- A constant is called by the names that it has. -/
theorem called_iff_aliased {identity : List Term} {facts : Fact → Prop} {x y : Term}
    (hx : x.isVariable = false) : Called identity facts x y ↔ Aliased identity facts x y := by
  simp [Called, Aliased, hx]

/-- A query for the links of the first term finds a fact with the second one at its other end. -/
def Linked (identity : List Term) (held : Version → Fact → Prop) (x y : Term) : Prop :=
  ∃ p ∈ identity, ∃ lookup ∈ linkQueries x p, ∃ v f,
    held v f ∧ lookup.1.admits f = true ∧ f.get lookup.2 = y

/-- What is found as a name of a term: the term itself, or another one that is linked to it. -/
def Named (identity : List Term) (held : Version → Fact → Prop) (x y : Term) : Prop :=
  y = x ∨ Linked identity held x y

section Linked

variable {identity : List Term} {held : Version → Fact → Prop} {x y : Term}

theorem admits_linkQueries {p : Term} (hp : p.isVariable = false) {f : Fact} :
    (∃ lookup ∈ linkQueries x p, lookup.1.admits f = true ∧ f.get lookup.2 = y) ↔
      f.predicate = p ∧ ((x.isVariable = true ∨ f.subject = x) ∧ f.object = y ∨
        f.subject = y ∧ (x.isVariable = true ∨ f.object = x)) := by
  have onward : (Query.fixing (some x) (some p) none).admits f = true ↔
      (x.isVariable = true ∨ f.subject = x) ∧ f.predicate = p := by
    cases hx : x.isVariable <;>
      simp [Query.admits_places, Query.fixing, Option.filter, Term.isConstant, hx, hp]
  have back : (Query.fixing none (some p) (some x)).admits f = true ↔
      f.predicate = p ∧ (x.isVariable = true ∨ f.object = x) := by
    cases hx : x.isVariable <;>
      simp [Query.admits_places, Query.fixing, Option.filter, Term.isConstant, hx, hp]
  simp only [linkQueries, List.mem_cons, List.not_mem_nil, or_false, exists_eq_or_imp,
    exists_eq_left, onward, back, Pattern.get]
  constructor
  · rintro (⟨⟨start, named⟩, stop⟩ | ⟨⟨named, stop⟩, start⟩)
    · exact ⟨named, Or.inl ⟨start, stop⟩⟩
    · exact ⟨named, Or.inr ⟨start, stop⟩⟩
  · rintro ⟨named, ⟨start, stop⟩ | ⟨start, stop⟩⟩
    · exact Or.inl ⟨⟨start, named⟩, stop⟩
    · exact Or.inr ⟨⟨named, stop⟩, start⟩

/-- Links are the facts with an identity predicate, read in either direction. -/
theorem named_iff_called (constants : ∀ p ∈ identity, p.isVariable = false) :
    Named identity held x y ↔ Called identity (fun f => ∃ v, held v f) x y := by
  refine or_congr eq_comm ?_
  constructor
  · rintro ⟨p, hp, lookup, hl, v, f, hf, admitted, other⟩
    obtain ⟨rfl, ends⟩ := (admits_linkQueries (constants p hp)).mp ⟨lookup, hl, admitted, other⟩
    exact ⟨f, ⟨v, hf⟩, hp, ends⟩
  · rintro ⟨f, ⟨v, hf⟩, hp, ends⟩
    obtain ⟨lookup, hl, admitted, other⟩ := (admits_linkQueries (constants _ hp)).mpr ⟨rfl, ends⟩
    exact ⟨_, hp, lookup, hl, v, f, hf, admitted, other⟩

theorem named_eq_called (constants : ∀ p ∈ identity, p.isVariable = false) :
    Named identity held = Called identity fun f => ∃ v, held v f := by
  funext x y
  exact propext (named_iff_called constants)

theorem named_iff_aliased (constants : ∀ p ∈ identity, p.isVariable = false)
    (hx : x.isVariable = false) :
    Named identity held x y ↔ Aliased identity (fun f => ∃ v, held v f) x y := by
  rw [named_iff_called constants, called_iff_aliased hx]

end Linked

/-- Links are looked up in a snapshot or over all versions. -/
theorem exists_mode_linkScope (version : Option Version) :
    ∃ mode, (linkScope version).mode = .ok mode ∧ mode ≠ .delta := by
  cases version with
  | none => exact ⟨.history, rfl, nofun⟩
  | some v => exact ⟨.snapshot, rfl, nofun⟩

namespace Backend

/-- Looks up the terms at the other ends of links. -/
def lookUp (b : Backend) (version : Option Version) (lookup : Query × Position) :
    Metered (List Term) := do
  let rows ← b.search lookup.1 (linkScope version)
  return rows.map fun row => row.fact.get lookup.2

theorem aliases_eq (b : Backend) (identity : List Term) (version : Option Version) (x : Term) :
    b.aliases identity version x = do
      let ends ← (identity.flatMap (linkQueries x)).mapM (b.lookUp version)
      return distinct (x :: ends.flatten) :=
  rfl

/-- The terms at the other ends of the links that a query finds. -/
def linkEnds (b : Backend) (version : Option Version) (lookup : Query × Position) : List Term :=
  (b.answers (linkScope version) lookup.1).map fun row => row.fact.get lookup.2

/-- A term with the terms linked to it, each once. -/
def names (b : Backend) (identity : List Term) (version : Option Version) (x : Term) : List Term :=
  distinct (x :: (identity.flatMap (linkQueries x)).flatMap (b.linkEnds version))

/-- What may stand for a term, or for an open place. -/
def classOf (b : Backend) (identity : List Term) (version : Option Version) :
    Option Term → AliasClass
  | none => [none]
  | some x => (b.names identity version x).map some

variable {b : Backend} (ho : b.OverOpenStores) (identity : List Term) (version : Option Version)

include ho

/-- Every identity predicate costs two searches. -/
theorem run_aliases (x : Term) (asked : Nat) :
    (b.aliases identity version x).run asked =
      .ok (b.names identity version x, asked + 2 * identity.length * b.width) := by
  obtain ⟨mode, hm, -⟩ := exists_mode_linkScope version
  have ends : ∀ lookup asked, (b.lookUp version lookup).run asked =
      .ok (b.linkEnds version lookup, asked + b.width) := fun lookup asked =>
    Metered.run_bind_ok (run_search_of_open ho hm lookup.1 asked)
  have number : (identity.flatMap (linkQueries x)).length = 2 * identity.length := by
    simp [List.length_flatMap, linkQueries, Nat.mul_comm]
  rw [aliases_eq, Metered.run_bind_ok
    (Metered.run_mapM_const (fun lookup _ asked => ends lookup asked) asked), Metered.run_pure,
    number]
  rfl

/-- A class costs two searches for every identity predicate, and that of an open place nothing. -/
theorem run_aliasClass (x : Option Term) (asked : Nat) :
    (b.aliasClass identity version x).run asked = .ok (b.classOf identity version x,
      asked + if x.isSome then 2 * identity.length * b.width else 0) := by
  cases x with
  | none => rfl
  | some x =>
    rw [aliasClass, Metered.run_bind_ok (run_aliases ho identity version x asked), Metered.run_pure]
    rfl

variable {identity version}

theorem mem_names {held : Version → Fact → Prop} (shows : b.Shows (linkScope version) held)
    {x y : Term} : y ∈ b.names identity version x ↔ Named identity held x y := by
  obtain ⟨mode, hm, hmode⟩ := exists_mode_linkScope version
  rw [names, mem_distinct, List.mem_cons]
  refine or_congr_right ?_
  have ends : ∀ lookup : Query × Position, y ∈ b.linkEnds version lookup ↔
      ∃ v f, held v f ∧ lookup.1.admits f = true ∧ f.get lookup.2 = y := by
    intro lookup
    calc y ∈ b.linkEnds version lookup
      _ ↔ ∃ f, (∃ row ∈ b.answers (linkScope version) lookup.1, row.fact = f) ∧
          f.get lookup.2 = y := by simp [linkEnds]
      _ ↔ ∃ f, (∃ v, held v f ∧ lookup.1.admits f = true) ∧ f.get lookup.2 = y := by
        simp only [exists_attests_iff ho hm hmode, shows lookup.1]
      _ ↔ ∃ v f, held v f ∧ lookup.1.admits f = true ∧ f.get lookup.2 = y := by
        constructor
        · rintro ⟨f, ⟨v, hf, admitted⟩, rfl⟩
          exact ⟨v, f, hf, admitted, rfl⟩
        · rintro ⟨v, f, hf, admitted, rfl⟩
          exact ⟨f, ⟨v, hf, admitted⟩, rfl⟩
  simp only [List.mem_flatMap, Linked, ends]
  constructor
  · rintro ⟨lookup, ⟨p, hp, hl⟩, found⟩
    exact ⟨p, hp, lookup, hl, found⟩
  · rintro ⟨p, hp, lookup, hl, found⟩
    exact ⟨lookup, ⟨p, hp, hl⟩, found⟩

end Backend

end Annals
