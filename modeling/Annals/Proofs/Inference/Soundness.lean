import Annals.Proofs.Inference.Instances
import Annals.Proofs.Inference.Snapshot

/-!
# What inference takes on trust

A rule is set off by one fact, and a premise whose variables the query and that fact give values to
is not looked up. So an answer can hold a fact that does not follow from what holds, but only by way
of such premises: without a limit it lists exactly what follows if they are taken on trust. Where
every premise has a variable of its own there is nothing to trust.
-/

namespace Annals

/-- The facts that follow from those that hold: an instance of a rule's conclusion follows if the
instances of all its premises do. -/
inductive Follows (holds : Fact → Prop) (rules : List Rule) : Fact → Prop
  | holds {f : Fact} (h : holds f) : Follows holds rules f
  | apply {r : Rule} {c : Pattern} (hr : r ∈ rules) (σ : Assignment)
      (premises : ∀ p ∈ r.body, Follows holds rules (p.under σ)) (hc : c ∈ r.head) :
      Follows holds rules (c.under σ)

/-- The facts that follow from those that hold if settled premises are taken on trust: those that
answer the query, and what a rule concludes in an instance that one of these facts sets off and in
which every other premise holds. -/
inductive FollowsOnTrust (holds : Fact → Prop) (rules : List Rule) (q : Query) : Fact → Prop
  | holds {f : Fact} (h : holds f) (asked : q.admits f = true) : FollowsOnTrust holds rules q f
  | apply {r : Rule} {t : Fact} {c : Pattern} (hr : r ∈ rules) (σ : Assignment)
      (ht : FollowsOnTrust holds rules q t) (setsOff : r.SetsOff q σ t)
      (premises : ∀ p ∈ r.body, r.Settles q σ t p ∨ holds (p.under σ)) (hc : c ∈ r.head)
      (supplied : r.Supplies q c) : FollowsOnTrust holds rules q (c.under σ)

section Trust

variable {holds : Fact → Prop} {rules : List Rule} {q : Query} {f : Fact}

/-- Where every premise has a variable of its own, nothing is taken on trust. -/
theorem FollowsOnTrust.follows (own : ∀ r ∈ rules, ∀ p ∈ r.body, r.Owns q p)
    (h : FollowsOnTrust holds rules q f) : Follows holds rules f := by
  induction h with
  | holds h => exact .holds h
  | @apply r t c hr σ _ _ premises hc _ ih =>
    refine .apply hr σ (fun p hp => ?_) hc
    rcases premises p hp with settled | holds
    · rw [settled.under_eq (own r hr p hp)]
      exact ih
    · exact .holds holds

/-- Nothing follows on trust unless some fact answers the query. -/
theorem FollowsOnTrust.exists_asked (h : FollowsOnTrust holds rules q f) :
    ∃ g, holds g ∧ q.admits g = true := by
  induction h with
  | holds h asked => exact ⟨_, h, asked⟩
  | apply _ _ _ _ _ _ _ ih => exact ih

end Trust

namespace Infer

variable {s : Store} {rules : RuleSet} {q : Query} {f : Fact}

/-- What is derivable at a version of a store, with a limit on the rows or without, follows on
trust. -/
theorem followsOnTrust_of_derives (isOpen : s.closed = false) {moment : Snapshot}
    (derived : Derives (.single (.store s)) rules q ⟨.snapshot moment, none⟩ f) :
    FollowsOnTrust (fun f => f ∈ s.stateAt moment.version) rules.rules q f := by
  have held : ∀ g, (Backend.single (.store s)).Finds ⟨.snapshot moment, none⟩ q g →
      g ∈ s.stateAt moment.version ∧ q.admits g = true := by
    rintro g ⟨rows, found, row, hrow, rfl⟩
    rw [Backend.rows_store rfl isOpen] at found
    obtain rfl := Except.ok.inj found
    exact (Store.mem_snapshotRows hrow).2
  have lookedUp : ∀ query g, (Backend.single (.store s)).Finds
      (ScopePair.premises ⟨.snapshot moment, none⟩) query g → g ∈ s.stateAt moment.version :=
    fun query g hit => ((finds_version_iff isOpen).mp hit).1
  have ground : ∀ {g}, g ∈ s.stateAt moment.version → g.isGround = true :=
    Store.isGround_of_mem_stateAt
  obtain ⟨g, seed⟩ := derived.exists_seed
  have constants := Query.constant_of_admits (ground (held g seed).1) (held g seed).2
  induction derived with
  | seed h => exact .holds (held _ h).1 (held _ h).2
  | step ht hn yields ih =>
    obtain ⟨r, hr, narrowed⟩ := List.mem_filterMap.mp hn
    obtain ⟨σ, setsOff, ⟨c, hc, supplied, rfl⟩, premises⟩ := Rule.exists_setsOff_of_yields
      narrowed constants (ht.isGround fun g h => ground (held g h).1)
      (fun query g hit => ground (lookedUp query g hit)) yields
    exact .apply hr σ ih setsOff
      (fun p hp => (premises p hp).imp_right fun ⟨query, hit⟩ => lookedUp query _ hit) hc supplied

/-- What follows on trust is derivable, unless a fact leaves several premises to look up. -/
theorem derives_of_followsOnTrust (isOpen : s.closed = false) {v : Version}
    (never : ¬ ∃ f, Derives (.single (.store s)) rules q ⟨.version v, none⟩ f ∧
      ∃ r ∈ rules.applicable q, r.StalledBy f)
    (h : FollowsOnTrust (fun f => f ∈ s.stateAt v) rules.rules q f) :
    Derives (.single (.store s)) rules q ⟨.version v, none⟩ f := by
  obtain ⟨g, held, admitted⟩ := h.exists_asked
  have constants := Query.constant_of_admits (Store.isGround_of_mem_stateAt held) admitted
  induction h with
  | holds h asked => exact .seed ((finds_version_iff isOpen).mpr ⟨h, asked⟩)
  | @apply r t c hr σ _ setsOff premises hc supplied ih =>
    obtain ⟨b, narrowed, -⟩ := Rule.exists_narrow? (List.ne_nil_of_mem hc) setsOff.answers
    have hn : r.bind b ∈ rules.applicable q := List.mem_filterMap.mpr ⟨r, hr, narrowed⟩
    refine .step ih hn (setsOff.yields narrowed constants (fun stalled => never ⟨t, ih, _, hn, stalled⟩)
      (fun p hp => ?_) hc supplied)
    exact (premises p hp).imp_right fun holds query admitted =>
      (finds_version_iff isOpen).mpr ⟨holds, admitted⟩

end Infer

/-- At a version of a store inference answers with facts that follow from those that hold there, if
premises that the query and one fact settle are taken on trust. Without a limit it answers with all
of them. If every premise has a variable of its own, what it answers follows without trust. -/
theorem snapshot_inference_sound_on_trust (s : Store) (rules : RuleSet) (q : Query)
    (moment : Snapshot) (inf : Inference)
    (ok : infer (.single (.store s)) rules q ⟨.snapshot moment, none⟩ = .ok inf) :
    (∀ row ∈ inf.rows, row.mark = .plain ∧
      FollowsOnTrust (fun f => f ∈ s.stateAt moment.version) rules.rules q row.fact) ∧
    (moment.limit = none → ∀ f,
      FollowsOnTrust (fun f => f ∈ s.stateAt moment.version) rules.rules q f →
        ⟨f, .plain⟩ ∈ inf.rows) ∧
    ((∀ r ∈ rules.rules, ∀ p ∈ r.body, r.Owns q p) → ∀ row ∈ inf.rows,
      Follows (fun f => f ∈ s.stateAt moment.version) rules.rules row.fact) := by
  have isOpen := Infer.open_of_ok rfl ok
  have ho := Backend.overOpenStores_single isOpen
  obtain ⟨-, listed, -⟩ := Infer.rows_of_ok ho rfl ok
  have trusted : ∀ row ∈ inf.rows, row.mark = .plain ∧
      FollowsOnTrust (fun f => f ∈ s.stateAt moment.version) rules.rules q row.fact := by
    intro row hrow
    obtain ⟨plain, derived⟩ := (listed row).mp hrow
    exact ⟨plain, Infer.followsOnTrust_of_derives isOpen derived⟩
  refine ⟨trusted, fun unlimited f follows => ?_, fun own row hrow => ?_⟩
  · obtain ⟨v, limit⟩ := moment
    obtain rfl : limit = none := unlimited
    have never := (Infer.answers_iff ho rfl rules q).mp ⟨inf, ok⟩
    rw [Infer.stalled_iff ho rfl] at never
    exact (listed _).mpr ⟨rfl, Infer.derives_of_followsOnTrust isOpen never follows⟩
  · exact (trusted row hrow).2.follows own

namespace Sample

/-- Each of the two premises about kinds has a variable that the other one does not have. -/
theorem owns_of_mem_taxonomy : ∀ r ∈ taxonomy.rules, ∀ p ∈ r.body, r.Owns .any p := by
  intro r hr p hp
  obtain rfl := List.mem_singleton.mp hr
  rcases List.mem_pair.mp hp with rfl | rfl
  · exact Rule.owns_any (x := ⟨"?x"⟩) (by decide) (by decide) (by decide)
  · exact Rule.owns_any (x := ⟨"?d"⟩) (by decide) (by decide) (by decide)

end Sample

/-- That Tom is an animal follows from what holds in the second version, without trust too. -/
theorem snapshot_inference_of_pets_on_trust :
    ∃ inf, infer Sample.pets Sample.taxonomy .any ⟨.version 1, none⟩ = .ok inf ∧
      ⟨Sample.tomIsAnimal, .plain⟩ ∈ inf.rows ∧
      Follows (fun f => f ∈ Sample.petStore.stateAt 1) Sample.taxonomy.rules Sample.tomIsAnimal ∧
      ∀ f, ⟨f, .plain⟩ ∈ inf.rows ↔
        FollowsOnTrust (fun f => f ∈ Sample.petStore.stateAt 1) Sample.taxonomy.rules .any f := by
  obtain ⟨inf, ok, rows⟩ := Sample.infer_pets
  have listed : ⟨Sample.tomIsAnimal, .plain⟩ ∈ inf.rows := by
    rw [rows]
    decide
  obtain ⟨trusted, all, untrusting⟩ := snapshot_inference_sound_on_trust Sample.petStore
    Sample.taxonomy .any ⟨1, none⟩ inf ok
  refine ⟨inf, ok, listed, untrusting Sample.owns_of_mem_taxonomy _ listed, fun f => ?_⟩
  exact ⟨fun hrow => (trusted _ hrow).2, all rfl f⟩

namespace Sample

def annAsksBob : Fact := ⟨⟨"ann"⟩, ⟨"asks"⟩, ⟨"bob"⟩⟩

def annMeetsBob : Fact := ⟨⟨"ann"⟩, ⟨"meets"⟩, ⟨"bob"⟩⟩

/-- Whoever asks someone who agrees meets them. -/
def meetings : RuleSet where
  rules := [⟨"meetings", [⟨⟨"?x"⟩, ⟨"asks"⟩, ⟨"?y"⟩⟩, ⟨⟨"?y"⟩, ⟨"agrees"⟩, ⟨"?x"⟩⟩],
    [⟨⟨"?x"⟩, ⟨"meets"⟩, ⟨"?y"⟩⟩]⟩]
  sound := by decide

/-- Ann asks Bob, who does not answer. -/
def requests : Store where
  changesets := [⟨0, [⟨annAsksBob, true, by decide⟩]⟩]
  closed := false
  descending := by decide
  nonneg := by decide

/-- Nobody agrees, so nothing follows but what holds. -/
theorem eq_of_follows {f : Fact} (h : Follows (fun f => f ∈ requests.stateAt 0) meetings.rules f) :
    f = annAsksBob := by
  induction h with
  | holds h =>
    have state : (requests.stateAt 0).toList = [annAsksBob] := by decide +kernel
    exact List.mem_singleton.mp (state ▸ h)
  | apply hr σ _ _ ih =>
    obtain rfl := List.mem_singleton.mp hr
    have agreed := ih ⟨⟨"?y"⟩, ⟨"agrees"⟩, ⟨"?x"⟩⟩ (by decide)
    have predicate : σ.apply ⟨"agrees"⟩ = ⟨"asks"⟩ := congrArg Pattern.predicate agreed
    rw [σ.apply_constant (by decide)] at predicate
    exact absurd predicate (by decide)

end Sample

/-- Inference can answer with a fact that does not follow: once Ann has asked Bob, the premise that
Bob agrees has no variable left and is not looked up. -/
theorem snapshot_inference_unsound :
    ∃ inf,
      infer (.single (.store Sample.requests)) Sample.meetings .any ⟨.version 0, none⟩ = .ok inf ∧
      ⟨Sample.annMeetsBob, .plain⟩ ∈ inf.rows ∧
      ¬ Follows (fun f => f ∈ Sample.requests.stateAt 0) Sample.meetings.rules
        Sample.annMeetsBob := by
  obtain ⟨inf, ok, rows⟩ := Infer.exists_ok
    (infer (.single (.store Sample.requests)) Sample.meetings .any ⟨.version 0, none⟩)
    [⟨Sample.annAsksBob, .plain⟩, ⟨Sample.annMeetsBob, .plain⟩] (by decide +kernel)
  refine ⟨inf, ok, by rw [rows]; decide, fun follows => ?_⟩
  exact absurd (Sample.eq_of_follows follows) (by decide)

end Annals
