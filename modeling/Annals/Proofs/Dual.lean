import Annals.Proofs.Alias.Search
import Annals.Proofs.Inference.Snapshot

/-!
# Two stores as one

What is answered at one version depends on the facts that a backend presents there, and on nothing
else: neither on the order in which they come nor on how often. So a dataset and the schema kept
beside it answer as one store would that holds the facts of both.
-/

namespace Annals

/-- In the given scopes, which are of one version for each store, a backend over open stores shows
certain facts: to queries and to the premises of rules. -/
structure Backend.Presents (b : Backend) (scopes : ScopePair) (held : Fact → Prop) : Prop where
  overOpen : b.OverOpenStores
  mode : scopes.mode = .ok .snapshot
  shows : b.Shows scopes fun _ => held
  premises : b.Shows scopes.premises fun _ => held

/-- What the rules for a query derive from the facts that it admits, where premises are looked up
among all facts. -/
def DerivesAmong (held : Fact → Prop) (rules : RuleSet) (q : Query) : Fact → Prop :=
  Derivable (rules.applicable q) (fun premise f => held f ∧ premise.admits f = true)
    fun f => held f ∧ q.admits f = true

/-- A fact that is derived stalls a rule for the query. -/
def StallsAmong (held : Fact → Prop) (rules : RuleSet) (q : Query) : Prop :=
  ∃ f, DerivesAmong held rules q f ∧ ∃ r ∈ rules.applicable q, r.StalledBy f

namespace Backend.Presents

variable {b : Backend} {scopes : ScopePair} {held : Fact → Prop} (h : b.Presents scopes held)
  {rules : RuleSet} {q : Query}

include h

theorem congr {held' : Fact → Prop} (same : ∀ f, held f ↔ held' f) : b.Presents scopes held' where
  overOpen := h.overOpen
  mode := h.mode
  shows := h.shows.congr fun _ => same
  premises := h.premises.congr fun _ => same

theorem derives_iff {f : Fact} : Derives b rules q scopes f ↔ DerivesAmong held rules q f := by
  have finds : ∀ g, b.Finds scopes q g ↔ held g ∧ q.admits g = true := fun g =>
    (Infer.attests_answers_iff h.overOpen h.mode (v := 0)).symm.trans (h.shows q 0 g)
  have looksUp : ∀ premise g, b.Finds scopes.premises premise g ↔
      held g ∧ premise.admits g = true := fun premise g =>
    (Infer.attests_answers_iff h.overOpen (ScopePair.mode_premises h.mode) (v := 0)).symm.trans
      (h.premises premise 0 g)
  exact derivable_congr finds looksUp f

theorem stalls_iff :
    (∃ v f, Infer.DerivableAt b rules q scopes v f ∧
        ∃ r ∈ rules.applicable q, r.StalledBy f) ↔ StallsAmong held rules q := by
  rw [Infer.stalled_iff h.overOpen h.mode]
  exact exists_congr fun f => and_congr_left' h.derives_iff

theorem fails (stalls : StallsAmong held rules q) :
    ∃ label remaining, infer b rules q scopes = .error (.unsupportedBody label remaining) :=
  (Infer.fails_iff h.overOpen h.mode rules q).mpr (h.stalls_iff.mpr stalls)

theorem infers (never : ¬ StallsAmong held rules q) :
    ∃ inf, infer b rules q scopes = .ok inf ∧ (inf.rows.map Triple.fact).Nodup ∧
      ∀ row, row ∈ inf.rows ↔ row.mark = .plain ∧ DerivesAmong held rules q row.fact := by
  obtain ⟨inf, ok⟩ := (Infer.answers_iff h.overOpen h.mode rules q).mpr (mt h.stalls_iff.mp never)
  obtain ⟨nodup, rows, -⟩ := Infer.rows_of_ok h.overOpen h.mode ok
  refine ⟨inf, ok, nodup_facts_of_plain (fun row hrow => ((rows row).mp hrow).1) nodup,
    fun row => ?_⟩
  rw [rows, h.derives_iff]

end Backend.Presents

/-- A store presents its facts at a version. -/
theorem Store.presents {s : Store} (isOpen : s.closed = false) (v : Version) :
    (Backend.single (.store s)).Presents ⟨.version v, none⟩ (· ∈ s.stateAt v) where
  overOpen := Backend.overOpenStores_single isOpen
  mode := rfl
  shows := Backend.shows_version isOpen v
  premises := Backend.shows_version isOpen v

/-- Two stores present the facts of both, each at a version of its own. -/
theorem Store.presents_dual {dataset language : Store} (datasetOpen : dataset.closed = false)
    (languageOpen : language.closed = false) (d l : Version) :
    (Backend.dual (.store dataset) (.store language)).Presents
      ⟨.version d, some (.version l)⟩
      fun f => f ∈ dataset.stateAt d ∨ f ∈ language.stateAt l where
  overOpen := Backend.overOpenStores_dual datasetOpen languageOpen
  mode := rfl
  shows := Backend.shows_dual datasetOpen languageOpen rfl rfl
  premises := Backend.shows_dual datasetOpen languageOpen rfl rfl

/-- A dataset at one version and a schema at another answer as a store does at a version where it
holds what either of them holds: inference from the pair fails if that from the one store does, and
otherwise both give the same rows, each fact once. If both versions of the pair are the same one,
searches under aliases give the same rows as well, whether that version is named for both stores or
once. -/
theorem dual_backend_answers_as_union (dataset language whole : Store)
    (datasetOpen : dataset.closed = false) (languageOpen : language.closed = false)
    (wholeOpen : whole.closed = false) (d l v : Version)
    (union : ∀ f, f ∈ whole.stateAt v ↔ f ∈ dataset.stateAt d ∨ f ∈ language.stateAt l)
    (q : Query) :
    (∀ rules,
      (∃ label remaining, infer (.dual (.store dataset) (.store language)) rules q
          ⟨.version d, some (.version l)⟩ = .error (.unsupportedBody label remaining)) ∧
        (∃ label remaining, infer (.single (.store whole)) rules q ⟨.version v, none⟩ =
          .error (.unsupportedBody label remaining)) ∨
      ∃ ofBoth ofOne, infer (.dual (.store dataset) (.store language)) rules q
          ⟨.version d, some (.version l)⟩ = .ok ofBoth ∧
        infer (.single (.store whole)) rules q ⟨.version v, none⟩ = .ok ofOne ∧
        (ofBoth.rows.map Triple.fact).Nodup ∧ (ofOne.rows.map Triple.fact).Nodup ∧
        ∀ row, row ∈ ofBoth.rows ↔ row ∈ ofOne.rows) ∧
    (d = l → ∀ identity reconcile,
      ∃ ofBoth ofOne, (Backend.dual (.store dataset) (.store language)).searchUnderAliases identity q
          ⟨.version d, some (.version l)⟩ reconcile = .ok ofBoth ∧
        (Backend.dual (.store dataset) (.store language)).searchUnderAliases identity q
          ⟨.version d, none⟩ reconcile = .ok ofBoth ∧
        (Backend.single (.store whole)).searchUnderAliases identity q ⟨.version v, none⟩ reconcile =
          .ok ofOne ∧
        (ofBoth.rows.map Triple.fact).Nodup ∧ (ofOne.rows.map Triple.fact).Nodup ∧
        ∀ row, row ∈ ofBoth.rows ↔ row ∈ ofOne.rows) := by
  have one := Store.presents wholeOpen v
  have both := (Store.presents_dual datasetOpen languageOpen d l).congr fun f => (union f).symm
  constructor
  · intro rules
    by_cases stalls : StallsAmong (· ∈ whole.stateAt v) rules q
    · exact Or.inl ⟨both.fails stalls, one.fails stalls⟩
    · obtain ⟨ofBoth, inferred, nodup, rows⟩ := both.infers stalls
      obtain ⟨ofOne, alone, nodup', rows'⟩ := one.infers stalls
      exact Or.inr ⟨ofBoth, ofOne, inferred, alone, nodup, nodup',
        fun row => (rows row).trans (rows' row).symm⟩
  · rintro rfl identity reconcile
    -- Links are looked up in both stores at the version of the dataset.
    have links : (Backend.dual (.store dataset) (.store language)).Shows
        (linkScope (ScopePair.linkVersion ⟨.version d, some (.version d)⟩))
        fun _ f => f ∈ whole.stateAt v :=
      (Backend.shows_dual datasetOpen languageOpen rfl rfl).congr fun _ f => (union f).symm
    obtain ⟨ofBoth, searched, nodup, rows⟩ :=
      Backend.exists_snapshot_answer both.overOpen identity q both.mode both.shows links reconcile
    obtain ⟨ofOne, alone, nodup', rows'⟩ :=
      Backend.exists_snapshot_answer one.overOpen identity q one.mode one.shows one.shows reconcile
    -- Without scopes of its own the language store has those of the dataset.
    exact ⟨ofBoth, ofOne, searched, searched, alone, nodup, nodup',
      fun row => (rows row).trans (rows' row).symm⟩

namespace Sample

/-- What is known of Tom, at the second version. -/
def tomStore : Store where
  changesets := [⟨1, [⟨tomIsCat, true, isGround_tomIsCat⟩]⟩]
  closed := false
  descending := by decide
  nonneg := by decide

def thomasIsTom : Fact := ⟨⟨"thomas"⟩, ⟨"same"⟩, ⟨"tom"⟩⟩

def thomasIsCat : Fact := ⟨⟨"thomas"⟩, ⟨"is"⟩, ⟨"cat"⟩⟩

/-- What is known of cats, and another name of Tom, at the first version. -/
def register : Store where
  changesets := [⟨0, [⟨catsAreAnimals, true, isGround_catsAreAnimals⟩,
    ⟨thomasIsTom, true, by decide⟩]⟩]
  closed := false
  descending := by decide
  nonneg := by decide

/-- All that in one store. -/
def fullRegister : Store where
  changesets := [⟨1, [⟨tomIsCat, true, isGround_tomIsCat⟩]⟩,
    ⟨0, [⟨catsAreAnimals, true, isGround_catsAreAnimals⟩, ⟨thomasIsTom, true, by decide⟩]⟩]
  closed := false
  descending := by decide
  nonneg := by decide

theorem mem_fullRegister_iff (f : Fact) :
    f ∈ fullRegister.stateAt 1 ↔ f ∈ tomStore.stateAt 1 ∨ f ∈ register.stateAt 1 := by
  have union : fullRegister.stateAt 1 = tomStore.stateAt 1 ∪ register.stateAt 1 := by decide +kernel
  rw [union, OrderedSet.mem_union]

theorem infer_fullRegister :
    ∃ inf, infer (.single (.store fullRegister)) taxonomy .any ⟨.version 1, none⟩ = .ok inf ∧
      inf.rows = [⟨catsAreAnimals, .plain⟩, ⟨thomasIsTom, .plain⟩, ⟨tomIsCat, .plain⟩,
        ⟨tomIsAnimal, .plain⟩] :=
  Infer.exists_ok _ _ (by decide +kernel)

/-- What is Thomas? -/
def whatIsThomas : Query := .fixing (some ⟨"thomas"⟩) (some ⟨"is"⟩) none

theorem search_fullRegister :
    ∃ answer, (Backend.single (.store fullRegister)).searchUnderAliases [⟨"same"⟩] whatIsThomas
        ⟨.version 1, none⟩ .canonicalize = .ok answer ∧
      ⟨thomasIsCat, .plain⟩ ∈ answer.rows :=
  ⟨_, rfl, by decide +kernel⟩

end Sample

/-- With the schema beside it the dataset tells that Tom is an animal, and that Thomas is a cat. -/
theorem dual_backend_of_pets :
    Sample.tomStore.closed = false ∧ Sample.register.closed = false ∧
      Sample.fullRegister.closed = false ∧
      (∀ f, f ∈ Sample.fullRegister.stateAt 1 ↔
        f ∈ Sample.tomStore.stateAt 1 ∨ f ∈ Sample.register.stateAt 1) ∧
      (∃ inf, infer (.dual (.store Sample.tomStore) (.store Sample.register)) Sample.taxonomy .any
          ⟨.version 1, some (.version 1)⟩ = .ok inf ∧
        ⟨Sample.tomIsAnimal, .plain⟩ ∈ inf.rows) ∧
      ∃ answer,
        (Backend.dual (.store Sample.tomStore) (.store Sample.register)).searchUnderAliases
          [⟨"same"⟩] Sample.whatIsThomas ⟨.version 1, some (.version 1)⟩ .canonicalize =
            .ok answer ∧
        (Backend.dual (.store Sample.tomStore) (.store Sample.register)).searchUnderAliases
          [⟨"same"⟩] Sample.whatIsThomas ⟨.version 1, none⟩ .canonicalize = .ok answer ∧
        ⟨Sample.thomasIsCat, .plain⟩ ∈ answer.rows := by
  have asUnion := dual_backend_answers_as_union Sample.tomStore Sample.register Sample.fullRegister
    rfl rfl rfl 1 1 1 Sample.mem_fullRegister_iff
  refine ⟨rfl, rfl, rfl, Sample.mem_fullRegister_iff, ?_, ?_⟩
  · obtain ⟨whole, found, rows⟩ := Sample.infer_fullRegister
    rcases (asUnion .any).1 Sample.taxonomy with ⟨-, label, remaining, failed⟩ |
      ⟨ofBoth, ofOne, ok, alone, -, -, same⟩
    · cases found.symm.trans failed
    · obtain rfl := Except.ok.inj (found.symm.trans alone)
      refine ⟨ofBoth, ok, (same _).mpr ?_⟩
      rw [rows]
      decide
  · obtain ⟨whole, found, listed⟩ := Sample.search_fullRegister
    obtain ⟨ofBoth, ofOne, twice, once, alone, -, -, same⟩ :=
      (asUnion Sample.whatIsThomas).2 rfl [⟨"same"⟩] .canonicalize
    obtain rfl := Except.ok.inj (found.symm.trans alone)
    exact ⟨ofBoth, twice, once, (same _).mpr listed⟩

end Annals
