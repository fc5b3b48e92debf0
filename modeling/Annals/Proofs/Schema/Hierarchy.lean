import Annals.Proofs.Inference.Joins
import Mathlib.Logic.Relation

/-!
# The hierarchy of classes

A subclass of a subclass is a subclass, says the third schema rule. But whatever states that a class
is above another meets both of its premises, which then agree only on a class that is above itself.
So the rule on its own concludes nothing that is not known, and an answer about the hierarchy is
transitively closed only where the statements in the store are.
-/

namespace Annals

namespace Schema

/-- The rule for the hierarchy of classes alone. -/
def hierarchy : RuleSet := ⟨[Rule.subClassTransitive], by decide⟩

/-- The query for what is stated about the hierarchy of classes. -/
def anySubClass : Query := ⟨none, some Vocabulary.subClassOf, none⟩

/-- The store states at a version that the second class is right above the first one. -/
def Below (s : Store) (v : Version) (c d : Term) : Prop :=
  ⟨c, Vocabulary.subClassOf, d⟩ ∈ s.stateAt v

theorem applicable_hierarchy : hierarchy.applicable anySubClass = [Rule.subClassTransitive] := by
  decide +kernel

theorem admits_anySubClass_iff {f : Fact} :
    anySubClass.admits f = true ↔ f.predicate = Vocabulary.subClassOf := by
  rw [Query.admits_iff]
  constructor
  · intro admitted
    exact admitted .predicate _ rfl
  · intro same i t fixed
    cases i with
    | subject => cases fixed
    | predicate => exact same.trans (Option.some.inj fixed)
    | object => cases fixed

/-- A statement about the hierarchy meets both premises of the rule, and so concludes itself if
anything. -/
theorem eq_of_yields {found : Query → Fact → Prop} {c d : Term} {g : Fact}
    (ground : (⟨c, Vocabulary.subClassOf, d⟩ : Fact).isGround = true)
    (h : Rule.subClassTransitive.Yields found ⟨c, Vocabulary.subClassOf, d⟩ g) :
    g = ⟨c, Vocabulary.subClassOf, d⟩ := by
  obtain ⟨n, hn, concludes⟩ := h
  obtain ⟨b, hb, rfl⟩ := Option.map_eq_some_iff.mp hn
  obtain ⟨below, -, above⟩ := Pattern.isGround_mk.mp ground
  -- the statement is an instance of either premise, of each under an assignment of its own
  let lower := (Assignment.blank.set ⟨"?c"⟩ c below).set ⟨"?d"⟩ d above
  let upper := (Assignment.blank.set ⟨"?d"⟩ c below).set ⟨"?e"⟩ d above
  have met : ∀ (p : Pattern) (σ : Assignment), p ∈ Rule.subClassTransitive.body →
      p.under σ = ⟨c, Vocabulary.subClassOf, d⟩ → p.bind b = ⟨c, Vocabulary.subClassOf, d⟩ := by
    intro p σ hp same
    obtain ⟨a, matched⟩ := p.exists_match?_under σ
    rw [same] at matched
    exact Rule.bind_of_trigger? hb ground hp matched
  have first := met ⟨⟨"?c"⟩, Vocabulary.subClassOf, ⟨"?d"⟩⟩ lower (.head _) rfl
  have second := met ⟨⟨"?d"⟩, Vocabulary.subClassOf, ⟨"?e"⟩⟩ upper (.tail _ (.head _)) rfl
  have nothing : (Rule.subClassTransitive.bind b).openPremises = [] := by
    apply List.filter_eq_nil_iff.mpr
    intro p hp
    obtain ⟨origin, horigin, rfl⟩ := List.mem_map.mp hp
    rcases List.mem_pair.mp horigin with rfl | rfl
    · simp [first, ground]
    · simp [second, ground]
  cases concludes with
  | atOnce _ mem _ =>
    obtain ⟨origin, horigin, rfl⟩ := List.mem_map.mp mem
    obtain rfl := List.mem_singleton.mp horigin
    have subject : b.resolve ⟨"?c"⟩ = c := congrArg Pattern.subject first
    have object : b.resolve ⟨"?e"⟩ = d := congrArg Pattern.object second
    have predicate : b.resolve Vocabulary.subClassOf = Vocabulary.subClassOf :=
      Binding.resolve_constant (by decide)
    rw [Pattern.bind, Pattern.map, subject, predicate, object]
  | onHit left => cases nothing.symm.trans left

section Version

variable {s : Store} (isOpen : s.closed = false) {v : Version} {f : Fact}

include isOpen

/-- The rule derives from the statements about the hierarchy nothing but these statements. -/
theorem derives_hierarchy_iff :
    Derives (.single (.store s)) hierarchy anySubClass ⟨.version v, none⟩ f ↔
      f ∈ s.stateAt v ∧ f.predicate = Vocabulary.subClassOf := by
  have seeds : ∀ g, (Backend.single (.store s)).Finds ⟨.version v, none⟩ anySubClass g ↔
      g ∈ s.stateAt v ∧ g.predicate = Vocabulary.subClassOf := by
    intro g
    rw [Infer.finds_version_iff isOpen, admits_anySubClass_iff]
  constructor
  · intro derived
    induction derived with
    | seed h => exact (seeds _).mp h
    | @step n t g _ hn yields ih =>
      obtain ⟨held, predicate⟩ := ih
      obtain ⟨c, p, d⟩ := t
      obtain rfl : p = Vocabulary.subClassOf := predicate
      rw [applicable_hierarchy, List.mem_singleton] at hn
      subst hn
      rw [eq_of_yields (Store.isGround_of_mem_stateAt held) yields]
      exact ⟨held, rfl⟩
  · intro stated
    exact .seed ((seeds f).mpr stated)

end Version

end Schema

/-- Inference with the rule for the hierarchy of classes alone always succeeds, and lists what the
store states about the hierarchy once. It lists the transitive closure of these statements if and
only if they are transitively closed themselves. -/
theorem hierarchy_inference_lists_statements (s : Store) (isOpen : s.closed = false)
    (v : Version) :
    ∃ inf, infer (.single (.store s)) Schema.hierarchy Schema.anySubClass ⟨.version v, none⟩ =
        .ok inf ∧ inf.rows.Nodup ∧
      (∀ row, row ∈ inf.rows ↔ row.mark = .plain ∧ row.fact ∈ s.stateAt v ∧
        row.fact.predicate = Vocabulary.subClassOf) ∧
      ((∀ c d, ⟨⟨c, Vocabulary.subClassOf, d⟩, .plain⟩ ∈ inf.rows ↔
          Relation.TransGen (Schema.Below s v) c d) ↔
        ∀ c d e, Schema.Below s v c d → Schema.Below s v d e → Schema.Below s v c e) := by
  have short : ∀ r ∈ Schema.hierarchy.rules, r.body.length ≤ 2 := by decide
  obtain ⟨inf, ok, nodup, listed⟩ :=
    Infer.exists_listing_of_length_le isOpen short Schema.anySubClass v
  have rows : ∀ row, row ∈ inf.rows ↔ row.mark = .plain ∧ row.fact ∈ s.stateAt v ∧
      row.fact.predicate = Vocabulary.subClassOf := by
    intro row
    rw [listed row, Schema.derives_hierarchy_iff isOpen]
  have stated : ∀ c d, ⟨⟨c, Vocabulary.subClassOf, d⟩, .plain⟩ ∈ inf.rows ↔
      Schema.Below s v c d := by
    intro c d
    rw [rows]
    exact ⟨fun h => h.2.1, fun h => ⟨rfl, h, rfl⟩⟩
  refine ⟨inf, ok, nodup, rows, ?_⟩
  simp only [stated]
  constructor
  · intro closed c d e lower upper
    exact (closed c e).mpr (.tail (.single lower) upper)
  · intro transitive c d
    have : IsTrans Term (Schema.Below s v) := ⟨transitive⟩
    rw [Relation.transGen_eq_self]

namespace Sample

def lionsBelowCats : Fact := ⟨⟨"lion"⟩, Vocabulary.subClassOf, ⟨"cat"⟩⟩

def catsBelowBeasts : Fact := ⟨⟨"cat"⟩, Vocabulary.subClassOf, ⟨"beast"⟩⟩

def lionsBelowBeasts : Fact := ⟨⟨"lion"⟩, Vocabulary.subClassOf, ⟨"beast"⟩⟩

/-- Lions are cats and cats are beasts. -/
def lions : Store where
  changesets :=
    [⟨0, [⟨lionsBelowCats, true, by decide⟩, ⟨catsBelowBeasts, true, by decide⟩]⟩]
  closed := false
  descending := by decide
  nonneg := by decide

theorem mem_lions {f : Fact} (h : f = lionsBelowCats ∨ f = catsBelowBeasts) :
    f ∈ lions.stateAt 0 := by
  have state : (lions.stateAt 0).toList = [catsBelowBeasts, lionsBelowCats] := by
    decide +kernel
  exact OrderedSet.mem_def.mpr (state ▸ List.mem_pair.mpr h.symm)

end Sample

/-- That lions are cats is listed. -/
theorem hierarchy_inference_of_lions :
    Sample.lions.closed = false ∧
      ∃ inf, infer (.single (.store Sample.lions)) Schema.hierarchy Schema.anySubClass
          ⟨.version 0, none⟩ = .ok inf ∧
        inf.rows.Nodup ∧ ⟨Sample.lionsBelowCats, .plain⟩ ∈ inf.rows := by
  obtain ⟨inf, ok, nodup, listed, -⟩ := hierarchy_inference_lists_statements Sample.lions rfl 0
  exact ⟨rfl, inf, ok, nodup, (listed _).mpr ⟨rfl, Sample.mem_lions (Or.inl rfl), rfl⟩⟩

/-- That lions are beasts is not listed, though they are cats and these are beasts. -/
theorem hierarchy_inference_misses_superclass :
    ∃ inf, infer (.single (.store Sample.lions)) Schema.hierarchy Schema.anySubClass
        ⟨.version 0, none⟩ = .ok inf ∧
      Relation.TransGen (Schema.Below Sample.lions 0) ⟨"lion"⟩ ⟨"beast"⟩ ∧
      ⟨Sample.lionsBelowBeasts, .plain⟩ ∉ inf.rows := by
  obtain ⟨inf, ok, rows⟩ := Infer.exists_ok
    (infer (.single (.store Sample.lions)) Schema.hierarchy Schema.anySubClass ⟨.version 0, none⟩)
    [⟨Sample.catsBelowBeasts, .plain⟩, ⟨Sample.lionsBelowCats, .plain⟩] (by decide +kernel)
  have cats : Schema.Below Sample.lions 0 ⟨"lion"⟩ ⟨"cat"⟩ := Sample.mem_lions (Or.inl rfl)
  have beasts : Schema.Below Sample.lions 0 ⟨"cat"⟩ ⟨"beast"⟩ := Sample.mem_lions (Or.inr rfl)
  refine ⟨inf, ok, .tail (.single cats) beasts, ?_⟩
  rw [rows]
  decide

end Annals
