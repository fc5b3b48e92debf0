import Annals.Proofs.Inference.Levels
import Annals.Proofs.Schema.Closure
import Annals.Proofs.Schema.Hierarchy
import Mathlib.Data.Nat.Find

/-!
# Climbing the hierarchy of classes

With the rule for subclasses alone inference is a search of the hierarchy, from the classes that a
thing is stated to be of. Each round climbs one step from all classes that the round before was the
first to reach. So what is found is all that can be reached, by the shortest way, and the number of
rounds tells how far up that is, however many ways there are and also where they lead in a circle.
-/

namespace Annals

namespace Schema

/-- The rule for subclasses alone. -/
def subClasses : RuleSet := ⟨[Rule.subClass], by decide⟩

/-- The query for the types of something, or of everything. -/
def typesOf (subject : Option Term) : Query := .fixing subject (some Vocabulary.type) none

/-- One class is so many steps above another one. -/
inductive Climbs (s : Store) (v : Version) (c : Term) : Nat → Term → Prop
  | refl : Climbs s v c 0 c
  | step {n : Nat} {d e : Term} (lower : Climbs s v c n d) (upper : Below s v d e) :
      Climbs s v c (n + 1) e

/-- A class is so many steps above one that something is stated to be of. -/
def TypedIn (s : Store) (v : Version) (x : Term) (n : Nat) (d : Term) : Prop :=
  ∃ c, ⟨x, Vocabulary.type, c⟩ ∈ s.stateAt v ∧ Climbs s v c n d

section Climbs

variable {s : Store} {v : Version} {c d x : Term} {n : Nat}

theorem exists_climbs_iff : (∃ n, Climbs s v c n d) ↔ Relation.ReflTransGen (Below s v) c d := by
  constructor
  · rintro ⟨n, h⟩
    induction h with
    | refl => exact .refl
    | step _ upper ih => exact .tail ih upper
  · intro h
    induction h with
    | refl => exact ⟨0, .refl⟩
    | tail _ upper ih =>
      obtain ⟨n, lower⟩ := ih
      exact ⟨n + 1, .step lower upper⟩

/-- Types that are reached are said of constants and are constants. -/
theorem TypedIn.isGround (h : TypedIn s v x n d) :
    (⟨x, Vocabulary.type, d⟩ : Fact).isGround = true := by
  obtain ⟨c, typed, climbs⟩ := h
  have stated := Store.isGround_of_mem_stateAt typed
  cases climbs with
  | refl => exact stated
  | step _ upper =>
    obtain ⟨subject, predicate, -⟩ := Pattern.isGround_mk.mp stated
    obtain ⟨-, -, object⟩ := Pattern.isGround_mk.mp (Store.isGround_of_mem_stateAt upper)
    exact Pattern.isGround_mk.mpr ⟨subject, predicate, object⟩

end Climbs

/-- The term that the rule is about when it is narrowed to a query for types. -/
def typedTerm (subject : Option Term) : Term := (subject.filter Term.isConstant).getD ⟨"?x"⟩

/-- A query for the types of the subject is about the term: the subject is that term, or a variable,
or left open. -/
def Asks (subject : Option Term) (x : Term) : Prop :=
  ∀ t, subject = some t → t.isVariable = false → x = t

theorem asks_iff {subject : Option Term} {x : Term} :
    Asks subject x ↔ ∀ t, subject.filter Term.isConstant = some t → x = t := by
  simp only [Asks, Option.filter_eq_some_iff, Term.isConstant, Bool.not_eq_true', and_imp]

theorem typedTerm_stands {subject : Option Term} {x : Term} (asked : Asks subject x) :
    typedTerm subject = ⟨"?x"⟩ ∨ typedTerm subject = x := by
  rw [asks_iff] at asked
  rw [typedTerm]
  cases fixed : subject.filter Term.isConstant with
  | none => exact Or.inl rfl
  | some t => exact Or.inr (asked t fixed).symm

theorem narrow?_subClass {x : Term} (hx : x.isVariable = false) :
    Rule.subClass.narrow? ⟨some x, some Vocabulary.type, none⟩ = some (subClassFor x) := by
  have matched : (⟨⟨"?x"⟩, Vocabulary.type, ⟨"?d"⟩⟩ : Pattern).match?
      ⟨x, Vocabulary.type, ⟨"?o"⟩⟩ = some (.single ⟨"?x"⟩ x) := by
    have subject : (⟨"?x"⟩ : Term).match? x = some (.single ⟨"?x"⟩ x) := by
      simp [Term.match?, hx, (by decide : (⟨"?x"⟩ : Term).isVariable = true)]
    have predicate : Vocabulary.type.match? Vocabulary.type = some .empty := by decide +kernel
    have object : (⟨"?d"⟩ : Term).match? ⟨"?o"⟩ = some .empty := by decide +kernel
    simp only [Pattern.match?, subject, predicate, object]
    rfl
  have conclusions : Rule.subClass.head.mapM
      (fun c : Pattern => c.match? ⟨x, Vocabulary.type, ⟨"?o"⟩⟩) = some [.single ⟨"?x"⟩ x] := by
    rw [Rule.subClass, List.mapM_cons, matched]
    rfl
  calc Rule.subClass.narrow? ⟨some x, some Vocabulary.type, none⟩
    _ = (do
          let bindings ← Rule.subClass.head.mapM
            fun c : Pattern => c.match? ⟨x, Vocabulary.type, ⟨"?o"⟩⟩
          return Rule.subClass.bind (← Binding.merge? bindings)) := rfl
    _ = some (subClassFor x) := by rw [conclusions]; rfl

theorem applicable_subClasses (subject : Option Term) :
    subClasses.applicable (typesOf subject) = [subClassFor (typedTerm subject)] := by
  rw [typesOf, Query.fixing, typedTerm]
  cases fixed : subject.filter Term.isConstant with
  | none => decide +kernel
  | some x =>
    have constant : x.isVariable = false := by
      simpa [Term.isConstant] using (Option.filter_eq_some_iff.mp fixed).2
    exact List.filterMap_cons_some (narrow?_subClass constant)

theorem admits_typesOf_iff {subject : Option Term} {f : Fact} :
    (typesOf subject).admits f = true ↔ f.predicate = Vocabulary.type ∧ Asks subject f.subject := by
  rw [Query.admits_iff, asks_iff]
  constructor
  · intro admitted
    exact ⟨admitted .predicate _ rfl, admitted .subject⟩
  · rintro ⟨predicate, asked⟩ i t fixed
    cases i with
    | subject => exact asked t fixed
    | predicate => exact predicate.trans (Option.some.inj fixed)
    | object => cases fixed

section Version

variable {s : Store} (isOpen : s.closed = false) {v : Version} {subject : Option Term} {n : Nat}
  {f : Fact}

include isOpen

/-- In so many steps the rule derives what is so many steps above. -/
theorem derivableIn_iff :
    DerivableIn (subClasses.applicable (typesOf subject))
        ((Backend.single (.store s)).Finds ⟨.version v, none⟩)
        ((Backend.single (.store s)).Finds ⟨.version v, none⟩ (typesOf subject)) n f ↔
      f.predicate = Vocabulary.type ∧ Asks subject f.subject ∧
        TypedIn s v f.subject n f.object := by
  have stored : ∀ f, f ∈ s.stateAt v → f.isGround = true := fun f => Store.isGround_of_mem_stateAt
  have finds : ∀ q f, (Backend.single (.store s)).Finds ⟨.version v, none⟩ q f ↔
      f ∈ s.stateAt v ∧ q.admits f = true := fun q f => Infer.finds_version_iff isOpen
  rw [applicable_subClasses]
  constructor
  · intro derived
    induction derived with
    | @seed f h =>
      obtain ⟨held, admitted⟩ := (finds _ _).mp h
      obtain ⟨predicate, asked⟩ := admits_typesOf_iff.mp admitted
      obtain ⟨x, p, c⟩ := f
      obtain rfl : p = Vocabulary.type := predicate
      exact ⟨rfl, asked, c, held, .refl⟩
    | @step n r f g _ hr yields ih =>
      obtain rfl := List.mem_singleton.mp hr
      obtain ⟨predicate, asked, typed⟩ := ih
      obtain ⟨x, p, d⟩ := f
      obtain rfl : p = Vocabulary.type := predicate
      obtain ⟨e, upper, rfl⟩ :=
        (subClassFor_yields_iff finds stored (typedTerm_stands asked) typed.isGround).mp yields
      obtain ⟨c, stated, climbs⟩ := typed
      exact ⟨rfl, asked, c, stated, .step climbs upper⟩
  · obtain ⟨x, p, d⟩ := f
    rintro ⟨predicate, asked, c, stated, climbs⟩
    obtain rfl : p = Vocabulary.type := predicate
    change Climbs s v c n d at climbs
    induction climbs with
    | refl => exact .seed ((finds _ _).mpr ⟨stated, admits_typesOf_iff.mpr ⟨rfl, asked⟩⟩)
    | @step n d e lower upper ih =>
      have typed : TypedIn s v x n d := ⟨c, stated, lower⟩
      have yields := (subClassFor_yields_iff finds stored (typedTerm_stands asked)
        typed.isGround).mpr ⟨e, upper, rfl⟩
      exact .step (ih asked stated) (.head _) yields

/-- The rule derives what can be reached in any number of steps. -/
theorem derives_subClasses_iff :
    Derives (.single (.store s)) subClasses (typesOf subject) ⟨.version v, none⟩ f ↔
      f.predicate = Vocabulary.type ∧ Asks subject f.subject ∧
        ∃ n, TypedIn s v f.subject n f.object := by
  refine DerivableIn.exists_iff.symm.trans ?_
  rw [← exists_and_left, ← exists_and_left]
  exact exists_congr fun n => derivableIn_iff isOpen

/-- There is a round for every height at which something is found that is not found further
down. -/
theorem lt_rounds_iff {inf : Inference}
    (ok : infer (.single (.store s)) subClasses (typesOf subject) ⟨.version v, none⟩ = .ok inf)
    {k : Nat} : k < inf.report.rounds ↔ ∃ f : Fact, f.predicate = Vocabulary.type ∧
      Asks subject f.subject ∧ IsLeast {n | TypedIn s v f.subject n f.object} k := by
  have ho : (Backend.single (.store s)).OverOpenStores := Backend.overOpenStores_single isOpen
  have mode : ScopePair.mode ⟨.version v, none⟩ = .ok .snapshot := rfl
  have applies : subClasses.applicable (typesOf subject) ≠ [] := by
    rw [applicable_subClasses]
    exact List.cons_ne_nil _ _
  have heights : ∀ w n f, Infer.DerivableInAt (.single (.store s)) subClasses (typesOf subject)
      ⟨.version v, none⟩ w n f ↔ f.predicate = Vocabulary.type ∧ Asks subject f.subject ∧
        TypedIn s v f.subject n f.object := by
    intro w n f
    rw [← derivableIn_iff isOpen]
    exact DerivableIn.congr (fun _ => Infer.attests_answers_iff ho mode)
      fun _ _ => Infer.attests_answers_iff ho mode
  rw [Infer.lt_rounds_iff ho mode applies ok]
  simp only [heights, exists_const]
  refine exists_congr fun f => ?_
  constructor
  · rintro ⟨⟨predicate, asked, typed⟩, least⟩
    exact ⟨predicate, asked, typed, fun n hn => least ⟨predicate, asked, hn⟩⟩
  · rintro ⟨predicate, asked, typed, least⟩
    exact ⟨⟨predicate, asked, typed⟩, fun n hn => least hn.2.2⟩

end Version

end Schema

/-- Inference at a version of an open store with the rule for subclasses alone, for the types of
something or of everything, is a breadth-first search. It succeeds, and lists once each that the
queried things are of the classes that can be reached from their stated types. If it lists anything,
then the number of rounds is one more than the height of what is listed, each fact being as high as
the least number of steps by which it can be reached. -/
theorem subclass_inference_is_breadth_first (s : Store) (isOpen : s.closed = false) (v : Version)
    (subject : Option Term) :
    ∃ inf, infer (.single (.store s)) Schema.subClasses (Schema.typesOf subject)
        ⟨.version v, none⟩ = .ok inf ∧ inf.rows.Nodup ∧
      (∀ row, row ∈ inf.rows ↔ row.mark = .plain ∧ ∃ x c d, row.fact = ⟨x, Vocabulary.type, d⟩ ∧
        Schema.Asks subject x ∧ ⟨x, Vocabulary.type, c⟩ ∈ s.stateAt v ∧
        Relation.ReflTransGen (Schema.Below s v) c d) ∧
      (inf.rows = [] → inf.report.rounds = 0) ∧
      (inf.rows ≠ [] → ∃ n, inf.report.rounds = n + 1 ∧
        IsGreatest {k | ∃ row ∈ inf.rows,
          IsLeast {n | Schema.TypedIn s v row.fact.subject n row.fact.object} k} n) := by
  have short : ∀ r ∈ Schema.subClasses.rules, r.body.length ≤ 2 := by decide
  obtain ⟨inf, ok, nodup, listed⟩ :=
    Infer.exists_listing_of_length_le isOpen short (Schema.typesOf subject) v
  simp only [Schema.derives_subClasses_iff isOpen] at listed
  have heights : ∀ k, k < inf.report.rounds ↔ ∃ row ∈ inf.rows,
      IsLeast {n | Schema.TypedIn s v row.fact.subject n row.fact.object} k := by
    intro k
    rw [Schema.lt_rounds_iff isOpen ok]
    constructor
    · rintro ⟨f, predicate, asked, least⟩
      exact ⟨⟨f, .plain⟩, (listed _).mpr ⟨rfl, predicate, asked, k, least.1⟩, least⟩
    · rintro ⟨row, hrow, least⟩
      obtain ⟨-, predicate, asked, -⟩ := (listed row).mp hrow
      exact ⟨row.fact, predicate, asked, least⟩
  refine ⟨inf, ok, nodup, fun row => ?_, fun nothing => ?_, fun something => ?_⟩
  · rw [listed]
    apply and_congr_right
    intro
    obtain ⟨⟨x, p, d⟩, mark⟩ := row
    constructor
    · rintro ⟨rfl, asked, n, c, stated, climbs⟩
      exact ⟨x, c, d, rfl, asked, stated, Schema.exists_climbs_iff.mp ⟨n, climbs⟩⟩
    · rintro ⟨_, c, _, ⟨⟩, asked, stated, above⟩
      obtain ⟨n, climbs⟩ := Schema.exists_climbs_iff.mpr above
      exact ⟨rfl, asked, n, c, stated, climbs⟩
  · apply Nat.eq_zero_of_not_pos
    intro pos
    obtain ⟨row, hrow, -⟩ := (heights 0).mp pos
    exact List.not_mem_nil (nothing ▸ hrow)
  · obtain ⟨row, hrow⟩ := List.exists_mem_of_ne_nil _ something
    obtain ⟨-, -, -, reached⟩ := (listed row).mp hrow
    have reachedFirst : ∃ k,
        IsLeast {n | Schema.TypedIn s v row.fact.subject n row.fact.object} k := by
      classical
      exact ⟨Nat.find reached, Nat.find_spec reached, fun n => Nat.find_min' reached⟩
    obtain ⟨k, least⟩ := reachedFirst
    have within : k < inf.report.rounds := (heights k).mpr ⟨row, hrow, least⟩
    obtain ⟨n, rounds⟩ := Nat.exists_eq_succ_of_ne_zero (Nat.ne_zero_of_lt within)
    refine ⟨n, rounds, (heights n).mp (rounds ▸ Nat.lt_succ_self n), fun k hk => ?_⟩
    exact Nat.le_of_lt_succ (rounds ▸ (heights k).mpr hk)

namespace Sample

def felixIsACat : Fact := ⟨⟨"felix"⟩, Vocabulary.type, ⟨"cat"⟩⟩

def catsBelowPets : Fact := ⟨⟨"cat"⟩, Vocabulary.subClassOf, ⟨"pet"⟩⟩

def petsBelowCats : Fact := ⟨⟨"pet"⟩, Vocabulary.subClassOf, ⟨"cat"⟩⟩

/-- The cats are the pets, so the hierarchy goes in a circle. -/
def household : Store where
  changesets :=
    [⟨0, [⟨felixIsACat, true, by decide⟩, ⟨catsBelowPets, true, by decide⟩,
      ⟨petsBelowCats, true, by decide⟩]⟩]
  closed := false
  descending := by decide
  nonneg := by decide

end Sample

/-- From cats the circle leads to pets and then back, so nothing is new after two rounds. -/
theorem subclass_inference_of_household :
    Sample.household.closed = false ∧
      ∃ inf, infer (.single (.store Sample.household)) Schema.subClasses
          (Schema.typesOf (some ⟨"felix"⟩)) ⟨.version 0, none⟩ = .ok inf ∧
        ⟨⟨⟨"felix"⟩, Vocabulary.type, ⟨"pet"⟩⟩, .plain⟩ ∈ inf.rows ∧ inf.report.rounds = 2 ∧
        IsGreatest {k | ∃ row ∈ inf.rows, IsLeast
          {n | Schema.TypedIn Sample.household 0 row.fact.subject n row.fact.object} k} 1 := by
  obtain ⟨inf, ok, -, listed, -, rounds⟩ :=
    subclass_inference_is_breadth_first Sample.household rfl 0 (some ⟨"felix"⟩)
  have counted : (infer (.single (.store Sample.household)) Schema.subClasses
      (Schema.typesOf (some ⟨"felix"⟩)) ⟨.version 0, none⟩).toOption.map
        (fun inf => inf.report.rounds) = some 2 := by
    decide +kernel
  have two : inf.report.rounds = 2 := by
    rw [ok] at counted
    exact Option.some.inj counted
  have cat : Sample.felixIsACat ∈ Sample.household.stateAt 0 := by decide +kernel
  have pets : Sample.catsBelowPets ∈ Sample.household.stateAt 0 := by decide +kernel
  have pet : ⟨⟨⟨"felix"⟩, Vocabulary.type, ⟨"pet"⟩⟩, .plain⟩ ∈ inf.rows :=
    (listed _).mpr ⟨rfl, ⟨"felix"⟩, ⟨"cat"⟩, ⟨"pet"⟩, rfl, fun t fixed _ => Option.some.inj fixed,
      cat, .single pets⟩
  obtain ⟨n, more, greatest⟩ := rounds (List.ne_nil_of_mem pet)
  obtain rfl : n = 1 := Nat.succ.inj (more.symm.trans two)
  exact ⟨rfl, inf, ok, pet, two, greatest⟩

end Annals
