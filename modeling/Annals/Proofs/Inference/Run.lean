import Annals.Proofs.Inference.Saturation

/-!
# Runs over open stores

The stores behind a backend and the conclusions of the rules make up a universe that is smaller than
the bound on the number of rounds. So over open stores every run of inference ends for one of two
reasons: nothing is new, or a derivable fact stalls a rule.
-/

namespace Annals

/-- The terms in the conclusions of rules. -/
def headTerms (rules : List Rule) : Finset Term :=
  (rules.flatMap fun r => r.head.flatMap Pattern.terms).toFinset

theorem get_mem_headTerms {rules : List Rule} {r : Rule} {c : Pattern} (hr : r ∈ rules)
    (hc : c ∈ r.head) (i : Position) : c.get i ∈ headTerms rules :=
  List.mem_toFinset.mpr (List.mem_flatMap.mpr
    ⟨r, hr, List.mem_flatMap.mpr ⟨c, hc, Pattern.get_mem_terms c i⟩⟩)

theorem card_headTerms_le (rules : List Rule) :
    (headTerms rules).card ≤
      rules.foldr (fun r n => 3 * (r.body.length + r.head.length) + n) 0 := by
  refine (List.toFinset_card_le _).trans ?_
  induction rules with
  | nil => exact Nat.le_refl 0
  | cons r rest ih =>
    have own : (r.head.flatMap Pattern.terms).length = 3 * r.head.length := by
      simp [List.length_flatMap, Pattern.terms, Nat.mul_comm]
    rw [List.flatMap_cons, List.length_append, own, List.foldr_cons]
    exact Nat.add_le_add (Nat.mul_le_mul_left 3 (Nat.le_add_left _ _)) ih

namespace Backend

/-- The constants and versions that rules can come upon over the stores behind a backend. -/
def scene (b : Backend) (rules : List Rule) : Universe where
  terms := (b.terms ∪ headTerms rules).filter fun t => t.isVariable = false
  versions := insert 0 b.versions
  constants _ ht := (Finset.mem_filter.mp ht).2
  inhabited := Finset.insert_nonempty 0 b.versions

variable {b : Backend} {rules : List Rule}

theorem card_points_scene_lt : (b.scene rules).points.card < roundBound b rules := by
  have terms : (b.scene rules).terms.card ≤ termBound b rules :=
    calc (b.scene rules).terms.card
      _ ≤ (b.terms ∪ headTerms rules).card := Finset.card_filter_le _ _
      _ ≤ b.terms.card + (headTerms rules).card := Finset.card_union_le _ _
      _ ≤ termBound b rules :=
        Nat.add_le_add (card_foldr_union_le _ _ _ Source.card_terms_le) (card_headTerms_le rules)
  have versions : (b.scene rules).versions.card ≤ versionBound b + 1 :=
    (Finset.card_insert_le _ _).trans
      (Nat.succ_le_succ (card_foldr_union_le _ _ _ Source.card_versions_le))
  refine Nat.lt_succ_of_le (Universe.card_points_le.trans ?_)
  exact Nat.mul_le_mul (Nat.mul_le_mul (Nat.mul_le_mul terms terms) terms) versions

theorem covers_scene {q : Query} {scopes : ScopePair} {mode : Mode} {rows : List Triple}
    (ho : b.OverOpenStores) (hm : scopes.mode = .ok mode) (h : b.rows q scopes = .ok rows) :
    ∀ row ∈ rows, (b.scene rules).Covers mode row := by
  intro row hrow
  obtain ⟨ground, marked⟩ := stored_of_mem_rows ho hm h hrow
  obtain ⟨terms, versions⟩ := covers hm h hrow
  refine ⟨Universe.mem_facts.mpr fun i => ?_, marked, fun vs he v hv => ?_⟩
  · have constant := Pattern.isGround_iff.mp ground i
    exact Finset.mem_filter.mpr ⟨Finset.mem_union_left _ (terms i), constant⟩
  · exact Finset.mem_insert_of_mem (versions vs he v hv)

/-- What a run in the given scopes reads from the stores behind a backend. -/
def setting (b : Backend) (ho : b.OverOpenStores) {scopes : ScopePair} {mode : Mode}
    (hm : scopes.mode = .ok mode) (rules : List Rule) : Setting mode rules where
  toUniverse := b.scene rules
  answers := b.answers scopes.premises
  fitting q row hrow :=
    have premises := ScopePair.mode_premises hm
    (covers_scene ho premises (rows_eq_answers ho premises q) row hrow).admits_premise
  heads _ hr _ hc i constant :=
    Finset.mem_filter.mpr ⟨Finset.mem_union_right _ (get_mem_headTerms hr hc i), constant⟩

end Backend

/-- A run that has made no round. -/
def Progress.start (mode : Mode) (rows : List Triple) : Progress :=
  ⟨(Answer.ofRows mode rows).1, (Answer.ofRows mode rows).2, {}⟩

section Start

variable {mode : Mode} {rules : List Rule} (S : Setting mode rules) {found : List Triple}
  (covered : ∀ row ∈ found, S.Covers mode row)

include covered

/-- A run starts with what the rows that were found attest. -/
theorem Setting.knows_start (v : Version) (f : Fact) :
    (Progress.start mode found).answer.Knows v f ↔ Attests found v f :=
  ((Answer.takesIn_ofRows covered).knows v f).trans (or_iff_right not_false)

/-- At the start everything is still to set off rules. -/
theorem Setting.attests_start (v : Version) (f : Fact) :
    Attests (Progress.start mode found).frontier.toList v f ↔ Attests found v f :=
  ((Answer.takesIn_ofRows covered).news v f).trans (and_iff_left not_false)

theorem Setting.invariant_start : S.Invariant (Attests found) (.start mode found) := by
  have taken := Answer.takesIn_ofRows covered
  have knows := S.knows_start covered
  have news := S.attests_start covered
  refine ⟨Answer.mode_ofRows mode, taken.fits, fun v f hf => ?_, fun v f hf => ?_,
    fun v f hf => ?_, fun v f hf => ?_⟩
  · exact (knows v f).mpr ((news v f).mp hf)
  · exact .seed ((knows v f).mp hf)
  · exact (knows v f).mpr hf
  · exact Or.inl ((news v f).mpr ((knows v f).mp hf))

end Start

namespace Infer

/-- A run searches the stores once and then makes rounds. -/
theorem infer_eq {b : Backend} {scopes : ScopePair} {mode : Mode} (hm : scopes.mode = .ok mode)
    (rules : RuleSet) (q : Query) :
    infer b rules q scopes =
      ((b.search q scopes >>= fun found =>
        Progress.saturate b mode (rules.applicable q) scopes.premises
          (roundBound b (rules.applicable q)) (.start mode found)).run 0).map
        fun (p, asked) => ⟨p.answer.rows, { p.report with asked := asked }⟩ := by
  rw [infer, hm]
  rfl

variable {b : Backend} (ho : b.OverOpenStores) {scopes : ScopePair} {mode : Mode}
  (hm : scopes.mode = .ok mode) (rules : RuleSet) (q : Query)

/-- The facts that rules derive at a version from the rows of it that answer a query. -/
def DerivableAt (b : Backend) (rules : RuleSet) (q : Query) (scopes : ScopePair) (v : Version) :
    Fact → Prop :=
  Derivable (rules.applicable q) (fun premise => Attests (b.answers scopes.premises premise) v)
    (Attests (b.answers scopes q) v)

/-- The states of a run that answers a query with rules. -/
def Visits (p : Progress) : Prop :=
  (b.setting ho hm (rules.applicable q)).Reaches (.start mode (b.answers scopes q)) p

variable {ho hm rules q} {p : Progress}

theorem invariant_start :
    (b.setting ho hm (rules.applicable q)).Invariant (Attests (b.answers scopes q))
      (.start mode (b.answers scopes q)) :=
  Setting.invariant_start _ (Backend.covers_scene ho hm (Backend.rows_eq_answers ho hm q))

theorem Visits.invariant (h : Visits ho hm rules q p) :
    (b.setting ho hm (rules.applicable q)).Invariant (Attests (b.answers scopes q)) p :=
  invariant_start.of_reaches h

variable (ho hm rules q)

/-- A run over open stores answers in a state where nothing is left to do, or fails in one that
stalls. -/
theorem outcome :
    (∃ p asked, infer b rules q scopes = .ok ⟨p.answer.rows, { p.report with asked := asked }⟩ ∧
        Visits ho hm rules q p ∧ (b.setting ho hm (rules.applicable q)).Done p) ∨
      ∃ label remaining, infer b rules q scopes = .error (.unsupportedBody label remaining) ∧
        ∃ p, Visits ho hm rules q p ∧ p.frontier.Stalls (rules.applicable q) := by
  have searched : (b.search q scopes).run 0 = .ok (b.answers scopes q, 0 + b.width) :=
    Backend.run_search_of_open ho hm q 0
  have answered : ∀ q, b.rows q scopes.premises =
      .ok ((b.setting ho hm (rules.applicable q)).answers q) :=
    Backend.rows_eq_answers ho (ScopePair.mode_premises hm)
  have bounded : (b.setting ho hm (rules.applicable q)).points.card <
      roundBound b (rules.applicable q) := Backend.card_points_scene_lt
  have ends := Setting.run_saturate answered (roundBound b (rules.applicable q)) (0 + b.width)
    invariant_start fun _ => Nat.lt_of_le_of_lt Setting.card_unseen_le bounded
  have whole := infer_eq (b := b) hm rules q
  rw [Metered.run_bind_ok searched] at whole
  rcases ends with ⟨p, asked, ok, run, done⟩ | ⟨label, remaining, failed, p, run, stalls⟩
  · rw [ok] at whole
    exact Or.inl ⟨p, asked, whole, run, done⟩
  · rw [failed] at whole
    exact Or.inr ⟨label, remaining, whole, p, run, stalls⟩

include ho hm in
/-- A run fails if and only if a derivable fact stalls a rule. -/
theorem fails_iff :
    (∃ label remaining, infer b rules q scopes = .error (.unsupportedBody label remaining)) ↔
      ∃ v f, DerivableAt b rules q scopes v f ∧ ∃ r ∈ rules.applicable q, r.StalledBy f := by
  constructor
  · rintro ⟨label, remaining, failed⟩
    rcases outcome ho hm rules q with ⟨p, asked, ok, -⟩ | ⟨-, -, -, p, visits, stalls⟩
    · cases ok.symm.trans failed
    · obtain ⟨v, -, f, derived, stalled⟩ := visits.invariant.exists_stalled stalls
      exact ⟨v, f, derived, stalled⟩
  · rintro ⟨v, f, derived, r, hr, stalled⟩
    rcases outcome ho hm rules q with ⟨p, asked, ok, visits, done⟩ | ⟨label, remaining, failed, -⟩
    · exact absurd stalled (visits.invariant.not_stalled done derived hr)
    · exact ⟨label, remaining, failed⟩

include ho hm in
/-- A run that does not fail answers. -/
theorem answers_iff :
    (∃ inf, infer b rules q scopes = .ok inf) ↔
      ¬ ∃ v f, DerivableAt b rules q scopes v f ∧ ∃ r ∈ rules.applicable q, r.StalledBy f := by
  rw [← fails_iff ho hm]
  constructor
  · rintro ⟨inf, ok⟩ ⟨label, remaining, failed⟩
    cases ok.symm.trans failed
  · intro never
    rcases outcome ho hm rules q with ⟨p, asked, ok, -⟩ | ⟨label, remaining, failed, -⟩
    · exact ⟨_, ok⟩
    · exact absurd ⟨label, remaining, failed⟩ never

variable {rules q}

include ho hm in
/-- A row that attests a fact from the start is ground, and it was asked for. -/
theorem seed_fits {v : Version} {f : Fact} (h : Attests (b.answers scopes q) v f) :
    q.admits f = true ∧ f.isGround = true := by
  obtain ⟨row, hrow, rfl, -⟩ := h
  have stored := Backend.stored_of_mem_rows ho hm (Backend.rows_eq_answers ho hm q) hrow
  exact ⟨Backend.admits_of_mem_answers ho hm hrow, stored.1⟩

include ho hm in
/-- What is derived for a query has nothing in it that was not asked for. The conclusions of the
rules that are narrowed to the query have its terms in the places that it fixes. -/
theorem admits_of_derivableAt {v : Version} {f : Fact}
    (derived : DerivableAt b rules q scopes v f) : q.admits f = true := by
  apply Query.admits_iff.mpr
  intro i t fixed
  have constant : t.isVariable = false := by
    obtain ⟨g, hg⟩ := derived.exists_seed
    obtain ⟨admitted, ground⟩ := seed_fits ho hm hg
    rw [← Query.admits_iff.mp admitted i t fixed]
    exact Pattern.isGround_iff.mp ground i
  induction derived with
  | seed h => exact Query.admits_iff.mp (seed_fits ho hm h).1 i t fixed
  | step _ hn yields _ =>
    obtain ⟨r, -, narrowed⟩ := List.mem_filterMap.mp hn
    exact yields.get_eq (fun c hc => Rule.get_of_narrow? narrowed hc fixed constant) constant

include ho hm in
theorem isGround_of_derivableAt {v : Version} {f : Fact}
    (derived : DerivableAt b rules q scopes v f) : f.isGround = true :=
  derived.isGround fun _ h => (seed_fits ho hm h).2

/-- An answer is read off a state in which nothing is left to do. -/
theorem exists_visited {inf : Inference} (ok : infer b rules q scopes = .ok inf) :
    ∃ p, Visits ho hm rules q p ∧ (b.setting ho hm (rules.applicable q)).Done p ∧
      inf.rows = p.answer.rows ∧ inf.report.suppressed = p.report.suppressed := by
  rcases outcome ho hm rules q with ⟨p, asked, found, visits, done⟩ | ⟨label, remaining, failed, -⟩
  · obtain rfl := Except.ok.inj (found.symm.trans ok)
    exact ⟨p, visits, done, rfl, rfl⟩
  · cases ok.symm.trans failed

/-- A closed store answers no query, and so there is no inference from it. -/
theorem open_of_ok {s : Store} {scopes : ScopePair} {mode : Mode} (hm : scopes.mode = .ok mode)
    {rules : RuleSet} {q : Query} {inf : Inference}
    (ok : infer (.single (.store s)) rules q scopes = .ok inf) : s.closed = false := by
  by_contra h
  have refused : ((Backend.single (.store s)).search q scopes).run 0 = .error (.store .closed) := by
    have closed : s.closed = true := by simpa using h
    simp only [Backend.search, hm, Source.search, Store.search, closed]
    rfl
  rw [infer_eq hm, Metered.run_bind_error refused] at ok
  cases ok

theorem exists_ok (x : Except EngineError Inference) (rows : List Triple)
    (h : x.toOption.map Inference.rows = some rows) : ∃ inf, x = .ok inf ∧ inf.rows = rows := by
  cases x with
  | error e => cases h
  | ok inf => exact ⟨inf, rfl, Option.some.inj h⟩

end Infer

end Annals
