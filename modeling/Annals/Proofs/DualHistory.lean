import Annals.Proofs.Dual
import Annals.Proofs.Inference.History

/-!
# Two stores over all versions

At a version that a store has not got to, it still shows the state that it was left in. A query over
all versions does not: of each store it names only versions up to the newest one. So a dataset and
the schema kept beside it show over all versions what they show at each one as far as both of them
have got, and from there on what the one shows that goes further.
-/

namespace Annals

namespace Backend

/-- The stores of a pair that have got to a version. -/
def reaching (dataset language : Store) (v : Version) : Backend :=
  if language.maxVersion < v then .single (.store dataset)
  else if dataset.maxVersion < v then .single (.store language)
  else .dual (.store dataset) (.store language)

end Backend

/-- A store of the pair that has got to the version holds the fact there. -/
def HeldByReaching (dataset language : Store) (v : Version) (f : Fact) : Prop :=
  (v ≤ dataset.maxVersion ∧ f ∈ dataset.stateAt v) ∨
    (v ≤ language.maxVersion ∧ f ∈ language.stateAt v)

/-- The versions at which the pair holds something fit into 64 bits. -/
theorem HeldByReaching.fits {dataset language : Store} {v : Version} {f : Fact}
    (h : HeldByReaching dataset language v f)
    (datasetNext : Version.Fits (dataset.maxVersion + 1))
    (languageNext : Version.Fits (language.maxVersion + 1)) : Version.Fits v := by
  rcases h with ⟨reached, held⟩ | ⟨reached, held⟩
  · exact Store.fits_of_mem_stateAt datasetNext reached held
  · exact Store.fits_of_mem_stateAt languageNext reached held

section Pair

variable {dataset language : Store} (datasetOpen : dataset.closed = false)
  (languageOpen : language.closed = false)

include datasetOpen languageOpen

/-- Over all versions a pair shows at each what the stores hold that have got to it. -/
theorem Backend.shows_dual_history :
    (dual (.store dataset) (.store language)).Shows ⟨.history, none⟩
      (HeldByReaching dataset language) := by
  intro q v f
  rw [answers_dual datasetOpen languageOpen rfl, attests_append, HeldByReaching, or_and_right,
    and_assoc, and_assoc]
  exact or_congr Store.attests_historyRows Store.attests_historyRows

/-- The stores that have got to a version present there what they hold. -/
theorem Backend.presents_reaching {v : Version}
    (reached : v ≤ max dataset.maxVersion language.maxVersion) :
    (reaching dataset language v).Presents ⟨.version v, none⟩
      (HeldByReaching dataset language v) := by
  unfold reaching
  split
  · next beyond =>
    have within : v ≤ dataset.maxVersion :=
      (le_max_iff.mp reached).resolve_right (Int.not_le.mpr beyond)
    apply (Store.presents datasetOpen v).congr
    intro f
    simp [HeldByReaching, within, Int.not_le.mpr beyond]
  · next languageReaches =>
    have languageReaches := Int.not_lt.mp languageReaches
    split
    · next beyond =>
      apply (Store.presents languageOpen v).congr
      intro f
      simp [HeldByReaching, languageReaches, Int.not_le.mpr beyond]
    · next datasetReaches =>
      have datasetReaches := Int.not_lt.mp datasetReaches
      have both : (dual (.store dataset) (.store language)).Shows ⟨.version v, none⟩
          fun _ f => f ∈ dataset.stateAt v ∨ f ∈ language.stateAt v :=
        shows_dual datasetOpen languageOpen rfl rfl
      have presents : (dual (.store dataset) (.store language)).Presents ⟨.version v, none⟩
          fun f => f ∈ dataset.stateAt v ∨ f ∈ language.stateAt v :=
        ⟨overOpenStores_dual datasetOpen languageOpen, rfl, both, both⟩
      apply presents.congr
      intro f
      simp [HeldByReaching, datasetReaches, languageReaches]

end Pair

/-- Where a backend shows the same facts to queries and to premises, a run derives at a version what
follows from the facts of that version. -/
theorem Infer.derivableAt_iff_derivesAmong {b : Backend} {scopes : ScopePair}
    {held : Version → Fact → Prop} (shows : b.Shows scopes held)
    (premises : b.Shows scopes.premises held) {rules : RuleSet} {q : Query} {v : Version}
    {f : Fact} : DerivableAt b rules q scopes v f ↔ DerivesAmong (held v) rules q f :=
  derivable_congr (fun g => shows q v g) (fun premise g => premises premise v g) f

theorem DerivesAmong.exists_held {held : Fact → Prop} {rules : RuleSet} {q : Query} {f : Fact}
    (h : DerivesAmong held rules q f) : ∃ g, held g := by
  obtain ⟨g, hg, -⟩ := h.exists_seed
  exact ⟨g, hg⟩

/-- Over all versions the rows of open stores name versions. -/
theorem Backend.exists_holding_of_mem_answers {b : Backend} (ho : b.OverOpenStores)
    {scopes : ScopePair} (hm : scopes.mode = .ok .history) {q : Query} :
    ∀ row ∈ b.answers scopes q, ∃ vs, row.mark = .holding vs := by
  intro row hrow
  obtain ⟨-, vs, named, -⟩ := stored_of_mem_rows ho hm (rows_eq_answers ho hm q) hrow
  exact ⟨vs, named⟩

namespace Backend.Presents

variable {b : Backend} {scopes : ScopePair} {held : Fact → Prop} (h : b.Presents scopes held)
  {q : Query}

include h

theorem mem_answers_iff {f : Fact} :
    ⟨f, .plain⟩ ∈ b.answers scopes q ↔ held f ∧ q.admits f = true := by
  have plain : ∀ row ∈ b.answers scopes q, row.mark = .plain := fun row hrow =>
    Infer.plain_of_mem_answers h.overOpen h.mode hrow
  rw [← h.shows q 0 f, attests_iff_of_plain plain]

/-- Inference succeeds unless a fact that is derived stalls a rule. -/
theorem answers_iff {rules : RuleSet} :
    (∃ inf, infer b rules q scopes = .ok inf) ↔ ¬ StallsAmong held rules q := by
  rw [Infer.answers_iff h.overOpen h.mode, h.stalls_iff]

end Backend.Presents

section Pair

variable {dataset language : Store} (datasetOpen : dataset.closed = false)
  (languageOpen : language.closed = false)

include datasetOpen languageOpen

theorem Infer.derivableAt_dual_history {rules : RuleSet} {q : Query} {v : Version} {f : Fact} :
    DerivableAt (.dual (.store dataset) (.store language)) rules q ⟨.history, none⟩ v f ↔
      DerivesAmong (HeldByReaching dataset language v) rules q f :=
  have shows := Backend.shows_dual_history datasetOpen languageOpen
  derivableAt_iff_derivesAmong shows shows

/-- Inference from a pair over all versions succeeds if and only if it does at each version, from
the stores that have got to it. -/
theorem Infer.answers_dual_history_iff {rules : RuleSet} {q : Query} :
    (∃ inf, infer (.dual (.store dataset) (.store language)) rules q ⟨.history, none⟩ = .ok inf) ↔
      ∀ v ≤ max dataset.maxVersion language.maxVersion,
        ∃ alone, infer (.reaching dataset language v) rules q ⟨.version v, none⟩ = .ok alone := by
  have derivable := @derivableAt_dual_history _ _ datasetOpen languageOpen rules q
  have presents := @Backend.presents_reaching _ _ datasetOpen languageOpen
  rw [answers_iff (Backend.overOpenStores_dual datasetOpen languageOpen) rfl]
  constructor
  · rintro never v reached
    rw [(presents reached).answers_iff]
    rintro ⟨f, derived, stalled⟩
    exact never ⟨v, f, derivable.mpr derived, stalled⟩
  · rintro each ⟨v, f, derived, stalled⟩
    have derived := derivable.mp derived
    -- where something is derived, something is held, so a store has got there
    obtain ⟨g, hg⟩ := derived.exists_held
    have reached : v ≤ max dataset.maxVersion language.maxVersion :=
      le_max_iff.mpr (hg.imp And.left And.left)
    exact (presents reached).answers_iff.mp (each v reached) ⟨f, derived, stalled⟩

end Pair

/-- A dataset and a schema show over all versions, at each version up to the newest one of either,
what the stores show there that have got to it. The same goes for inference. Over all versions it
succeeds if and only if it succeeds at each version, from the stores that have got to it, and then
it gives each fact the versions at which that concludes it. There has to be a version of 64 bits
after the newest one of either store, and then all that are named are versions of 64 bits. -/
theorem dual_history_follows_reaching_stores (dataset language : Store)
    (datasetOpen : dataset.closed = false) (languageOpen : language.closed = false)
    (datasetNext : Version.Fits (dataset.maxVersion + 1))
    (languageNext : Version.Fits (language.maxVersion + 1)) (q : Query) :
    (∃ whole, (Backend.dual (.store dataset) (.store language)).rows q ⟨.history, none⟩ =
        .ok whole ∧ (∀ row ∈ whole, row.Fits) ∧
      ∀ v ≤ max dataset.maxVersion language.maxVersion,
        ∃ found, (Backend.reaching dataset language v).rows q ⟨.version v, none⟩ = .ok found ∧
          ∀ f, (∃ vs, ⟨f, .holding vs⟩ ∈ whole ∧ v ∈ vs) ↔ ⟨f, .plain⟩ ∈ found) ∧
    ∀ rules,
      ((∃ inf, infer (.dual (.store dataset) (.store language)) rules q ⟨.history, none⟩ =
          .ok inf) ↔
        ∀ v ≤ max dataset.maxVersion language.maxVersion,
          ∃ alone, infer (.reaching dataset language v) rules q ⟨.version v, none⟩ = .ok alone) ∧
      ∀ inf, infer (.dual (.store dataset) (.store language)) rules q ⟨.history, none⟩ = .ok inf →
        (inf.rows.map Triple.fact).Nodup ∧ (∀ row ∈ inf.rows, row.Fits) ∧
        ∀ v ≤ max dataset.maxVersion language.maxVersion,
          ∃ alone, infer (.reaching dataset language v) rules q ⟨.version v, none⟩ = .ok alone ∧
            ∀ f, (∃ vs, ⟨f, .holding vs⟩ ∈ inf.rows ∧ v ∈ vs) ↔ ⟨f, .plain⟩ ∈ alone.rows := by
  have pairOpen := Backend.overOpenStores_dual datasetOpen languageOpen
  have presents := @Backend.presents_reaching _ _ datasetOpen languageOpen
  have fits : ∀ {v f}, HeldByReaching dataset language v f → Version.Fits v :=
    fun held => held.fits datasetNext languageNext
  constructor
  · have shown := Backend.shows_dual_history datasetOpen languageOpen q
    refine ⟨_, Backend.rows_eq_answers pairOpen rfl q, fun row hrow vs marked v hv => ?_,
      fun v reached => ?_⟩
    · exact fits ((shown v row.fact).mp ⟨row, hrow, rfl, marked ▸ hv⟩).1
    · refine ⟨_, Backend.rows_eq_answers (presents reached).overOpen rfl q, fun f => ?_⟩
      rw [← attests_iff_of_holding (Backend.exists_holding_of_mem_answers pairOpen rfl),
        shown v f, (presents reached).mem_answers_iff]
  · intro rules
    have succeeds := @Infer.answers_dual_history_iff _ _ datasetOpen languageOpen rules q
    refine ⟨succeeds, fun inf ok => ?_⟩
    obtain ⟨nodup, marked, attests⟩ := Infer.rows_of_history pairOpen rfl ok
    have derives : ∀ v f,
        Attests inf.rows v f ↔ DerivesAmong (HeldByReaching dataset language v) rules q f :=
      fun v f => (attests v f).trans (Infer.derivableAt_dual_history datasetOpen languageOpen)
    refine ⟨nodup, fun row hrow vs named v hv => ?_, fun v reached => ?_⟩
    · obtain ⟨g, held⟩ := ((derives v row.fact).mp ⟨row, hrow, rfl, named ▸ hv⟩).exists_held
      exact fits held
    · obtain ⟨alone, found⟩ := succeeds.mp ⟨inf, ok⟩ v reached
      obtain ⟨-, rows, -⟩ := Infer.rows_of_ok (presents reached).overOpen rfl found
      refine ⟨alone, found, fun f => ?_⟩
      calc (∃ vs, ⟨f, .holding vs⟩ ∈ inf.rows ∧ v ∈ vs)
        _ ↔ Attests inf.rows v f := (attests_iff_of_holding marked).symm
        _ ↔ DerivesAmong (HeldByReaching dataset language v) rules q f := derives v f
        _ ↔ ⟨f, .plain⟩ ∈ alone.rows := by
          rw [rows, and_iff_right rfl, (presents reached).derives_iff]

namespace Sample

/-- What is known of Tom at the second version, with what is known of pets up to there. -/
theorem infer_tom_with_pets :
    (∃ inf, infer (.dual (.store tomStore) (.store petStore)) taxonomy .any ⟨.history, none⟩ =
        .ok inf ∧
      inf.rows = [⟨tomIsCat, .holding (.ofList [1])⟩, ⟨catsAreAnimals, .holding (.ofList [0, 1])⟩,
        ⟨tomIsAnimal, .holding (.ofList [0, 1])⟩]) :=
  Infer.exists_ok _ _ (by decide +kernel)

end Sample

/-- Both stores have got to the second version, where Tom is inferred to be an animal. -/
theorem dual_history_of_pets :
    Sample.tomStore.closed = false ∧ Sample.petStore.closed = false ∧
      Version.Fits (Sample.tomStore.maxVersion + 1) ∧
      Version.Fits (Sample.petStore.maxVersion + 1) ∧
      1 ≤ max Sample.tomStore.maxVersion Sample.petStore.maxVersion ∧
      ∃ inf alone,
        infer (.dual (.store Sample.tomStore) (.store Sample.petStore)) Sample.taxonomy .any
          ⟨.history, none⟩ = .ok inf ∧
        infer (.reaching Sample.tomStore Sample.petStore 1) Sample.taxonomy .any
          ⟨.version 1, none⟩ = .ok alone ∧
        (∃ vs, ⟨Sample.tomIsAnimal, .holding vs⟩ ∈ inf.rows ∧ 1 ∈ vs) ∧
        ⟨Sample.tomIsAnimal, .plain⟩ ∈ alone.rows := by
  have tomNext : Version.Fits (Sample.tomStore.maxVersion + 1) := by decide
  have petNext : Version.Fits (Sample.petStore.maxVersion + 1) := by decide
  obtain ⟨-, inference⟩ := dual_history_follows_reaching_stores Sample.tomStore Sample.petStore
    rfl rfl tomNext petNext .any
  obtain ⟨-, each⟩ := inference Sample.taxonomy
  obtain ⟨inf, ok, rows⟩ := Sample.infer_tom_with_pets
  have reached : 1 ≤ max Sample.tomStore.maxVersion Sample.petStore.maxVersion := by decide
  obtain ⟨-, -, alone⟩ := each inf ok
  obtain ⟨alone, found, same⟩ := alone 1 reached
  have listed : ∃ vs, ⟨Sample.tomIsAnimal, .holding vs⟩ ∈ inf.rows ∧ 1 ∈ vs := by
    rw [rows]
    exact ⟨.ofList [0, 1], by decide, by decide⟩
  exact ⟨rfl, rfl, tomNext, petNext, reached, inf, alone, ok, found, listed,
    (same Sample.tomIsAnimal).mp listed⟩

namespace Sample

/-- What is known of cats, at the first version. -/
def catStore : Store where
  changesets := [⟨0, [⟨catsAreAnimals, true, isGround_catsAreAnimals⟩]⟩]
  closed := false
  descending := by decide
  nonneg := by decide

/-- What is known of Tom from the second version on, with what is known of cats at the first. -/
def tomWithCats : Backend := .dual (.store tomStore) (.store catStore)

theorem rows_tomWithCats :
    tomWithCats.rows .any ⟨.history, none⟩ =
        .ok [⟨tomIsCat, .holding (.ofList [1])⟩, ⟨catsAreAnimals, .holding (.ofList [0])⟩] ∧
      tomWithCats.rows .any ⟨.version 1, none⟩ = .ok [⟨tomIsCat, .plain⟩, ⟨catsAreAnimals, .plain⟩] :=
  ⟨rfl, rfl⟩

theorem infer_tomWithCats :
    (∃ inf, infer tomWithCats taxonomy .any ⟨.history, none⟩ = .ok inf ∧
        inf.rows = [⟨tomIsCat, .holding (.ofList [1])⟩, ⟨catsAreAnimals, .holding (.ofList [0])⟩]) ∧
      ∃ inf, infer tomWithCats taxonomy .any ⟨.version 1, none⟩ = .ok inf ∧
        inf.rows = [⟨tomIsCat, .plain⟩, ⟨catsAreAnimals, .plain⟩, ⟨tomIsAnimal, .plain⟩] :=
  ⟨Infer.exists_ok _ _ (by decide +kernel), Infer.exists_ok _ _ (by decide +kernel)⟩

end Sample

/-- At a version of the dataset that the schema has not got to, the schema's facts are shown and set
off rules, but over all versions they are not known to hold there. -/
theorem dual_history_misses_standing_facts :
    Sample.tomStore.closed = false ∧ Sample.catStore.closed = false ∧
      (0 : Version) ≤ 1 ∧ 1 ≤ Sample.tomWithCats.maxVersion ∧
      (∃ whole found, Sample.tomWithCats.rows .any ⟨.history, none⟩ = .ok whole ∧
        Sample.tomWithCats.rows .any ⟨.version 1, none⟩ = .ok found ∧
        ⟨Sample.catsAreAnimals, .plain⟩ ∈ found ∧
        ¬ ∃ vs, ⟨Sample.catsAreAnimals, .holding vs⟩ ∈ whole ∧ 1 ∈ vs) ∧
      ∃ inf alone, infer Sample.tomWithCats Sample.taxonomy .any ⟨.history, none⟩ = .ok inf ∧
        infer Sample.tomWithCats Sample.taxonomy .any ⟨.version 1, none⟩ = .ok alone ∧
        ⟨Sample.tomIsAnimal, .plain⟩ ∈ alone.rows ∧
        ¬ ∃ vs, ⟨Sample.tomIsAnimal, .holding vs⟩ ∈ inf.rows ∧ 1 ∈ vs := by
  obtain ⟨whole, found⟩ := Sample.rows_tomWithCats
  obtain ⟨⟨inf, ok, rows⟩, alone, okAlone, rowsAlone⟩ := Sample.infer_tomWithCats
  refine ⟨rfl, rfl, by decide, by decide, ⟨_, _, whole, found, by decide, ?_⟩, inf, alone, ok,
    okAlone, ?_, ?_⟩
  · rintro ⟨vs, listed, hv⟩
    obtain rfl : vs = .ofList [0] := by
      simpa [Sample.catsAreAnimals, Sample.tomIsCat] using listed
    exact absurd hv (by decide)
  · rw [rowsAlone]
    decide
  · rw [rows]
    rintro ⟨vs, listed, -⟩
    simp [Sample.tomIsAnimal, Sample.tomIsCat, Sample.catsAreAnimals] at listed

end Annals
