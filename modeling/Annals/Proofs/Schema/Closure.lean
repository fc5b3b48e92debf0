import Annals.Proofs.Inference.Joins

/-!
# The closure under the schema

An instance of a class is one of the class above it, and what a property relates, the property above
it relates too. Each of the two shipped rules is set off by the fact that it carries upwards, and
looks up in the stores what is above. That finds all there is as long as nothing new is above
anything: the properties that say what is above must not be above other properties themselves.
-/

namespace Annals

namespace Vocabulary

@[simp] theorem isVariable_type : type.isVariable = false := by decide

@[simp] theorem isVariable_subClassOf : subClassOf.isVariable = false := by decide

@[simp] theorem isVariable_subPropertyOf : subPropertyOf.isVariable = false := by decide

theorem type_ne_subClassOf : type ≠ subClassOf := by decide

theorem type_ne_subPropertyOf : type ≠ subPropertyOf := by decide

end Vocabulary

namespace Schema

/-- The least set that has the given facts and is closed under the meaning of subclasses and of
subproperties. -/
inductive Entails (holds : Fact → Prop) : Fact → Prop
  | holds {f : Fact} (h : holds f) : Entails holds f
  | subClass {c d x : Term} (above : Entails holds ⟨c, Vocabulary.subClassOf, d⟩)
      (typed : Entails holds ⟨x, Vocabulary.type, c⟩) : Entails holds ⟨x, Vocabulary.type, d⟩
  | subProperty {p q x y : Term} (above : Entails holds ⟨p, Vocabulary.subPropertyOf, q⟩)
      (related : Entails holds ⟨x, p, y⟩) : Entails holds ⟨x, q, y⟩

/-- The schema's own properties are not redefined: no property is above the one for subproperties,
and neither that one nor the one for subclasses is above a property. -/
def Fixed (holds : Fact → Prop) : Prop :=
  ∀ f, holds f → f.predicate = Vocabulary.subPropertyOf →
    f.subject ≠ Vocabulary.subPropertyOf ∧
      f.object ≠ Vocabulary.subPropertyOf ∧ f.object ≠ Vocabulary.subClassOf

variable {holds : Fact → Prop} {f : Fact}

namespace Entails

/-- What is above what is never entailed, but holds. -/
theorem holds_of_predicate (h : Entails holds f) (fixed : Fixed holds)
    (schema : f.predicate = Vocabulary.subPropertyOf ∨ f.predicate = Vocabulary.subClassOf) :
    holds f := by
  induction h with
  | holds h => exact h
  | subClass =>
    rcases schema with same | same
    · exact absurd same Vocabulary.type_ne_subPropertyOf
    · exact absurd same Vocabulary.type_ne_subClassOf
  | @subProperty p q x y above related ih _ =>
    -- to conclude a schema fact, a schema property would have to be above another one
    have held : holds ⟨p, Vocabulary.subPropertyOf, q⟩ := ih (Or.inl rfl)
    obtain ⟨-, notProperty, notClass⟩ := fixed _ held rfl
    rcases schema with same | same
    · exact absurd same notProperty
    · exact absurd same notClass

/-- What ground facts entail is ground. -/
theorem isGround (h : Entails holds f) (stored : ∀ f, holds f → f.isGround = true) :
    f.isGround = true := by
  induction h with
  | holds h => exact stored _ h
  | subClass above typed ground grounded =>
    obtain ⟨-, -, object⟩ := Pattern.isGround_mk.mp ground
    obtain ⟨subject, predicate, -⟩ := Pattern.isGround_mk.mp grounded
    exact Pattern.isGround_mk.mpr ⟨subject, predicate, object⟩
  | subProperty above related ground grounded =>
    obtain ⟨-, -, predicate⟩ := Pattern.isGround_mk.mp ground
    obtain ⟨subject, -, object⟩ := Pattern.isGround_mk.mp grounded
    exact Pattern.isGround_mk.mpr ⟨subject, predicate, object⟩

/-- If the instances of the premises of a shipped rule are entailed, its conclusion's is too. -/
theorem of_instances {r : Rule} {c : Pattern} {σ : Assignment} (hr : r ∈ RuleSet.rdfs.rules)
    (hc : c ∈ r.head) (premises : ∀ p ∈ r.body, Entails holds (p.under σ)) :
    Entails holds (c.under σ) := by
  rcases List.mem_pair.mp hr with rfl | rfl
  · obtain rfl := List.mem_singleton.mp hc
    exact .subClass (premises _ (.head _)) (premises _ (.tail _ (.head _)))
  · obtain rfl := List.mem_singleton.mp hc
    exact .subProperty (premises _ (.head _)) (premises _ (.tail _ (.head _)))

end Entails

theorem owns_of_mem_rdfs : ∀ r ∈ RuleSet.rdfs.rules, ∀ p ∈ r.body, r.Owns .any p := by
  intro r hr p hp
  rcases List.mem_pair.mp hr with rfl | rfl
  · rcases List.mem_pair.mp hp with rfl | rfl
    · exact Rule.owns_any (x := ⟨"?d"⟩) (by decide) (by decide) (by decide)
    · exact Rule.owns_any (x := ⟨"?x"⟩) (by decide) (by decide) (by decide)
  · rcases List.mem_pair.mp hp with rfl | rfl
    · exact Rule.owns_any (x := ⟨"?q"⟩) (by decide) (by decide) (by decide)
    · exact Rule.owns_any (x := ⟨"?x"⟩) (by decide) (by decide) (by decide)

/-- A class has another one above it. -/
def hasAbove : Pattern := ⟨⟨"?c"⟩, Vocabulary.subClassOf, ⟨"?d"⟩⟩

/-- A term is of a class. -/
def hasType (t : Term) : Pattern := ⟨t, Vocabulary.type, ⟨"?c"⟩⟩

/-- The rule for subclasses, for one term or, with its variable, for all. -/
def subClassFor (t : Term) : Rule :=
  ⟨"rdfs9", [hasAbove, hasType t], [⟨t, Vocabulary.type, ⟨"?d"⟩⟩]⟩

theorem subClassFor_open : subClassFor ⟨"?x"⟩ = Rule.subClass := rfl

/-- The class above occurs in one premise only. -/
theorem hasAbove_own {t : Term} (other : t ≠ ⟨"?d"⟩) :
    ∃ i, (hasAbove.get i).isVariable = true ∧ ∀ j, (hasType t).get j ≠ hasAbove.get i := by
  refine ⟨.object, rfl, ?_⟩
  intro j
  cases j with
  | subject => exact other
  | predicate =>
    intro same
    cases Vocabulary.isVariable_type.symm.trans (congrArg Term.isVariable same)
  | object => exact (by decide : (⟨"?c"⟩ : Term) ≠ ⟨"?d"⟩)

/-- A type is no statement about classes. -/
theorem hasAbove_match?_type (x c : Term) : hasAbove.match? ⟨x, Vocabulary.type, c⟩ = none :=
  Pattern.match?_eq_none_of_ne (i := .predicate) Vocabulary.isVariable_subClassOf
    Vocabulary.isVariable_type Vocabulary.type_ne_subClassOf.symm

theorem hasAbove_under (σ : Assignment) : hasAbove.under σ =
    ⟨σ.apply ⟨"?c"⟩, Vocabulary.subClassOf, σ.apply ⟨"?d"⟩⟩ := by
  rw [hasAbove, Pattern.under_mk, σ.apply_constant Vocabulary.isVariable_subClassOf]

theorem typed_under (t d : Term) (σ : Assignment) :
    (⟨t, Vocabulary.type, d⟩ : Pattern).under σ = ⟨σ.apply t, Vocabulary.type, σ.apply d⟩ := by
  rw [Pattern.under_mk, σ.apply_constant Vocabulary.isVariable_type]

section Yields

variable {found : Query → Fact → Prop}

/-- The variables of the rule for subclasses take any constants as values. -/
theorem exists_assignment_subClassFor {t x c d : Term} (stands : t = ⟨"?x"⟩ ∨ t = x)
    (hx : x.isVariable = false) (hc : c.isVariable = false) (hd : d.isVariable = false) :
    ∃ σ : Assignment, σ.apply t = x ∧ σ.apply ⟨"?c"⟩ = c ∧ σ.apply ⟨"?d"⟩ = d := by
  refine ⟨((Assignment.blank.set ⟨"?c"⟩ c hc).set ⟨"?d"⟩ d hd).set ⟨"?x"⟩ x hx, ?_, rfl, rfl⟩
  rcases stands with rfl | rfl
  · rfl
  · exact Assignment.apply_constant _ hx

/-- A type sets off the rule for subclasses, which looks up the classes above. -/
theorem subClassFor_yields_iff {held : Fact → Prop}
    (finds : ∀ q f, found q f ↔ held f ∧ q.admits f = true)
    (stored : ∀ f, held f → f.isGround = true) {t x c : Term} (stands : t = ⟨"?x"⟩ ∨ t = x)
    (ground : (⟨x, Vocabulary.type, c⟩ : Fact).isGround = true) {g : Fact} :
    (subClassFor t).Yields found ⟨x, Vocabulary.type, c⟩ g ↔
      ∃ d, held ⟨c, Vocabulary.subClassOf, d⟩ ∧ g = ⟨x, Vocabulary.type, d⟩ := by
  obtain ⟨subject, -, object⟩ := Pattern.isGround_mk.mp ground
  have own := hasAbove_own (t := t) <| by
    rcases stands with rfl | rfl
    · decide
    · rintro rfl
      cases subject
  constructor
  · intro yields
    obtain ⟨σ, hx, hc, -⟩ := exists_assignment_subClassFor stands subject object object
    have typed : (hasType t).under σ = ⟨x, Vocabulary.type, c⟩ := by
      rw [hasType, typed_under, hx, hc]
    rw [← typed] at yields
    obtain ⟨τ, same, ⟨query, hit⟩, conclusion, mem, rfl⟩ := Rule.exists_under_of_yields
      (r := subClassFor t) rfl own (typed ▸ hasAbove_match?_type x c)
      (fun q f h => stored f ((finds q f).mp h).1) yields
    obtain rfl := List.mem_singleton.mp mem
    rw [typed, hasType, typed_under] at same
    obtain ⟨hx, -, hc⟩ := (Pattern.mk.injEq ..).mp same
    refine ⟨τ.apply ⟨"?d"⟩, ?_, by rw [typed_under, hx]⟩
    have held := ((finds query _).mp hit).1
    rwa [hasAbove_under, hc] at held
  · rintro ⟨d, hd, rfl⟩
    obtain ⟨-, -, above⟩ := Pattern.isGround_mk.mp (stored _ hd)
    obtain ⟨σ, hx, hc, hd'⟩ := exists_assignment_subClassFor stands subject object above
    have typed : (hasType t).under σ = ⟨x, Vocabulary.type, c⟩ := by
      rw [hasType, typed_under, hx, hc]
    have concluded : (⟨t, Vocabulary.type, ⟨"?d"⟩⟩ : Pattern).under σ =
        ⟨x, Vocabulary.type, d⟩ := by
      rw [typed_under, hx, hd']
    have lookedUp : hasAbove.under σ = ⟨c, Vocabulary.subClassOf, d⟩ := by
      rw [hasAbove_under, hc, hd']
    have safe : ∀ i, ((⟨t, Vocabulary.type, ⟨"?d"⟩⟩ : Pattern).get i).isVariable = true →
        (∃ j, hasAbove.get j = (⟨t, Vocabulary.type, ⟨"?d"⟩⟩ : Pattern).get i) ∨
          ∃ j, (hasType t).get j = (⟨t, Vocabulary.type, ⟨"?d"⟩⟩ : Pattern).get i := by
      intro i _
      cases i with
      | subject => exact Or.inr ⟨.subject, rfl⟩
      | predicate => exact Or.inr ⟨.predicate, rfl⟩
      | object => exact Or.inl ⟨.object, rfl⟩
    have hit : ∀ query : Query, query.admits (hasAbove.under σ) = true →
        found query (hasAbove.under σ) := fun query admitted =>
      (finds query _).mpr ⟨lookedUp ▸ hd, admitted⟩
    have yields := Rule.yields_under (r := subClassFor t) rfl own safe (.head _)
      (typed ▸ hasAbove_match?_type x c) hit
    rwa [typed, concluded] at yields

/-- Whatever a property relates sets off the rule for subproperties, which looks up the property
above. Only the property for subproperties meets both premises. -/
theorem subProperty_yields {p q x y : Term}
    (ground : (⟨p, Vocabulary.subPropertyOf, q⟩ : Fact).isGround)
    (grounded : (⟨x, p, y⟩ : Fact).isGround) (other : p ≠ Vocabulary.subPropertyOf)
    (hit : ∀ query : Query, query.admits ⟨p, Vocabulary.subPropertyOf, q⟩ = true →
      found query ⟨p, Vocabulary.subPropertyOf, q⟩) :
    Rule.subProperty.Yields found ⟨x, p, y⟩ ⟨x, q, y⟩ := by
  obtain ⟨below, -, above⟩ := Pattern.isGround_mk.mp ground
  obtain ⟨subject, -, object⟩ := Pattern.isGround_mk.mp grounded
  let σ := (((Assignment.blank.set ⟨"?p"⟩ p below).set ⟨"?q"⟩ q above).set ⟨"?x"⟩ x subject).set
    ⟨"?y"⟩ y object
  have alone : (⟨⟨"?p"⟩, Vocabulary.subPropertyOf, ⟨"?q"⟩⟩ : Pattern).match? ⟨x, p, y⟩ = none := by
    apply Pattern.match?_eq_none_of_ne (i := .predicate)
    · exact Vocabulary.isVariable_subPropertyOf
    · exact below
    · exact other.symm
  have yields : Rule.subProperty.Yields found
      ((⟨⟨"?x"⟩, ⟨"?p"⟩, ⟨"?y"⟩⟩ : Pattern).under σ)
      ((⟨⟨"?x"⟩, ⟨"?q"⟩, ⟨"?y"⟩⟩ : Pattern).under σ) := by
    refine Rule.yields_under rfl ⟨.object, rfl, ?_⟩ ?_ (.head _) alone hit
    · intro j
      cases j <;> decide
    · intro i var
      cases i with
      | subject => exact Or.inr ⟨.subject, rfl⟩
      | predicate => exact Or.inl ⟨.object, rfl⟩
      | object => exact Or.inr ⟨.object, rfl⟩
  exact yields

end Yields

theorem applicable_rdfs : RuleSet.rdfs.applicable .any = [Rule.subClass, Rule.subProperty] := by
  decide +kernel

section Version

variable {s : Store} (isOpen : s.closed = false) {v : Version}

include isOpen

/-- What the shipped rules derive at a version of a store is entailed by what holds there. -/
theorem entails_of_derives
    (derived : Derives (.single (.store s)) .rdfs .any ⟨.version v, none⟩ f) :
    Entails (fun f => f ∈ s.stateAt v) f := by
  have stored : ∀ f, f ∈ s.stateAt v → f.isGround = true := fun f => Store.isGround_of_mem_stateAt
  have held : ∀ query f,
      (Backend.single (.store s)).Finds ⟨.version v, none⟩ query f → f ∈ s.stateAt v :=
    fun query f hit => ((Infer.finds_version_iff isOpen).mp hit).1
  induction derived with
  | seed h => exact .holds (held _ _ h)
  | @step n t g _ hn yields ih =>
    obtain ⟨r, hr, narrowed⟩ := List.mem_filterMap.mp hn
    obtain ⟨σ, ⟨c, hc, rfl⟩, premises⟩ := Rule.exists_instances_of_yields narrowed
      (fun i v named => by cases i <;> cases named) (owns_of_mem_rdfs r hr) (ih.isGround stored)
      (fun query f hit => stored f (held query f hit)) yields
    apply Entails.of_instances hr hc
    intro p hp
    rcases premises p hp with same | ⟨query, hit⟩
    · rw [same]
      exact ih
    · exact .holds (held query _ hit)

/-- As long as the schema is fixed, the shipped rules derive all that is entailed. -/
theorem derives_of_entails (fixed : Fixed fun f => f ∈ s.stateAt v)
    (h : Entails (fun f => f ∈ s.stateAt v) f) :
    Derives (.single (.store s)) .rdfs .any ⟨.version v, none⟩ f := by
  have stored : ∀ f, f ∈ s.stateAt v → f.isGround = true := fun f => Store.isGround_of_mem_stateAt
  have hit : ∀ {f : Fact}, f ∈ s.stateAt v → ∀ query : Query, query.admits f = true →
      (Backend.single (.store s)).Finds ⟨.version v, none⟩ query f :=
    fun hf query admitted => (Infer.finds_version_iff isOpen).mpr ⟨hf, admitted⟩
  induction h with
  | holds h => exact .seed (hit h _ (Query.admits_any _))
  | @subClass c d x above typed _ ih =>
    have held := above.holds_of_predicate fixed (Or.inr rfl)
    have yields := (subClassFor_yields_iff (fun _ _ => Infer.finds_version_iff isOpen) stored
      (Or.inl rfl) (typed.isGround stored)).mpr ⟨d, held, rfl⟩
    rw [subClassFor_open] at yields
    exact .step ih (by rw [applicable_rdfs]; exact .head _) yields
  | @subProperty p q x y above related _ ih =>
    have held := above.holds_of_predicate fixed (Or.inl rfl)
    have other : p ≠ Vocabulary.subPropertyOf := (fixed _ held rfl).1
    have yields := subProperty_yields (above.isGround stored) (related.isGround stored) other
      (hit held)
    exact .step ih (by rw [applicable_rdfs]; exact .tail _ (.head _)) yields

end Version

end Schema

/-- Inference at a version of a store with the shipped rules computes the closure under the schema:
it succeeds, and lists every fact of the least set that has what holds there and is closed under
subclasses and subproperties once. -/
theorem rdfs_inference_computes_closure (s : Store) (isOpen : s.closed = false) (v : Version)
    (fixed : Schema.Fixed fun f => f ∈ s.stateAt v) :
    ∃ inf, infer (.single (.store s)) .rdfs .any ⟨.version v, none⟩ = .ok inf ∧ inf.rows.Nodup ∧
      ∀ row, row ∈ inf.rows ↔
        row.mark = .plain ∧ Schema.Entails (fun f => f ∈ s.stateAt v) row.fact := by
  have short : ∀ r ∈ RuleSet.rdfs.rules, r.body.length ≤ 2 := by decide
  obtain ⟨inf, ok, nodup, listed⟩ := Infer.exists_listing_of_length_le isOpen short .any v
  refine ⟨inf, ok, nodup, ?_⟩
  intro row
  rw [listed row]
  apply and_congr_right
  intro
  constructor
  · exact Schema.entails_of_derives isOpen
  · exact Schema.derives_of_entails isOpen fixed

namespace Sample

def tomIsACat : Fact := ⟨⟨"tom"⟩, ⟨"isA"⟩, ⟨"cat"⟩⟩

def isABelowType : Fact := ⟨⟨"isA"⟩, Vocabulary.subPropertyOf, Vocabulary.type⟩

def catsBelowAnimals : Fact := ⟨⟨"cat"⟩, Vocabulary.subClassOf, ⟨"animal"⟩⟩

/-- Tom is a cat by a property below the one for types. -/
def schemaStore : Store where
  changesets :=
    [⟨0, [⟨tomIsACat, true, by decide⟩, ⟨isABelowType, true, by decide⟩,
      ⟨catsBelowAnimals, true, by decide⟩]⟩]
  closed := false
  descending := by decide
  nonneg := by decide

theorem mem_schemaStore_iff {f : Fact} :
    f ∈ schemaStore.stateAt 0 ↔ f ∈ [catsBelowAnimals, isABelowType, tomIsACat] := by
  have state : (schemaStore.stateAt 0).toList = [catsBelowAnimals, isABelowType, tomIsACat] := by
    decide +kernel
  rw [← state]
  rfl

end Sample

/-- Tom is inferred to have the type of a cat, and from that the type of an animal. -/
theorem rdfs_inference_of_tom :
    Sample.schemaStore.closed = false ∧
      Schema.Fixed (fun f => f ∈ Sample.schemaStore.stateAt 0) ∧
      ∃ inf, infer (.single (.store Sample.schemaStore)) .rdfs .any ⟨.version 0, none⟩ = .ok inf ∧
        inf.rows.Nodup ∧ ⟨⟨⟨"tom"⟩, Vocabulary.type, ⟨"animal"⟩⟩, .plain⟩ ∈ inf.rows := by
  have fixed : Schema.Fixed fun f => f ∈ Sample.schemaStore.stateAt 0 := by
    intro f hf schema
    rw [Sample.mem_schemaStore_iff] at hf
    revert schema
    revert f
    decide
  obtain ⟨inf, ok, nodup, listed⟩ :=
    rdfs_inference_computes_closure Sample.schemaStore rfl 0 fixed
  have holds : ∀ f ∈ [Sample.catsBelowAnimals, Sample.isABelowType, Sample.tomIsACat],
      Schema.Entails (fun f => f ∈ Sample.schemaStore.stateAt 0) f :=
    fun f hf => .holds (Sample.mem_schemaStore_iff.mpr hf)
  have cat : Schema.Entails (fun f => f ∈ Sample.schemaStore.stateAt 0)
      ⟨⟨"tom"⟩, Vocabulary.type, ⟨"cat"⟩⟩ :=
    .subProperty (holds Sample.isABelowType (by decide)) (holds Sample.tomIsACat (by decide))
  have animal := Schema.Entails.subClass (holds Sample.catsBelowAnimals (by decide)) cat
  exact ⟨rfl, fixed, inf, ok, nodup, (listed _).mpr ⟨rfl, animal⟩⟩

end Annals
