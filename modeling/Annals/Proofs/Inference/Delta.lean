import Annals.Proofs.Inference.Snapshot

/-!
# Inference between two versions

Of a difference the assertions set off rules, and a retraction is dropped once its fact is
concluded. The rounds conclude all that a fact derived from the assertions yields, so in the end
precisely the retractions of such facts are gone.
-/

namespace Annals

/-- A rule concludes the fact from one that is derivable from asserted facts. -/
def Rederives (b : Backend) (rules : RuleSet) (q : Query) (asserted : Fact → Prop)
    (premises : ScopePair) (f : Fact) : Prop :=
  ∃ t, Derivable (rules.applicable q) (b.Finds premises) asserted t ∧
    ∃ r ∈ rules.applicable q, r.Yields (b.Finds premises) t f

namespace Infer

/-- The row is no retraction of a fact that was concluded. -/
def survives (concluded : List Fact) (row : Triple) : Bool :=
  !(row.isRetraction && decide (row.fact ∈ concluded))

theorem survives_append (before after : List Fact) (row : Triple) :
    survives (before ++ after) row = (survives after row && survives before row) := by
  unfold survives
  cases row.isRetraction
  · rfl
  · simp [Bool.and_comm]

theorem survives_iff {concluded : List Fact} {row : Triple} :
    survives concluded row = true ↔ ¬ (row.mark = .change false ∧ row.fact ∈ concluded) := by
  obtain ⟨f, _ | (_ | _) | _⟩ := row <;> simp [survives, Triple.isRetraction, Mark.asserted?]

/-- What a round drops is dropped for good. -/
theorem retained_eq {a : DeltaAnswer} {found concluded : List Triple} {before : List Fact}
    (left : a.rows = found.filter (survives before)) :
    a.retained concluded = found.filter (survives (before ++ concluded.map Triple.fact)) := by
  rw [DeltaAnswer.retained, left, List.filter_filter]
  exact List.filter_congr fun row _ => (survives_append _ _ row).symm

variable {rules : List Rule}

/-- What is left of a difference between two rounds, by the facts that were concluded so far. -/
structure Pruned (S : Setting .delta rules) (seed : Version → Fact → Prop) (found : List Triple)
    (p : Progress) (concluded : List Fact) : Prop where
  kept : p.answer.rows = (distinct found).filter (survives concluded)
  counted : p.report.suppressed + p.answer.size = (distinct found).length
  sound : ∀ f ∈ concluded, ∃ t, Derivable rules (S.foundAt 0) (seed 0) t ∧
    ∃ r ∈ rules, r.Yields (S.foundAt 0) t f
  complete : ∀ t, p.answer.Knows 0 t → Attests p.frontier.toList 0 t ∨
    ∀ r ∈ rules, ∀ f, r.Yields (S.foundAt 0) t f → f ∈ concluded

section Next

variable {S : Setting .delta rules} {seed : Version → Fact → Prop} {p : Progress}

/-- A round concludes what the facts of its frontier yield, each at the end of the difference. -/
theorem mem_concluded (inv : S.Invariant seed p) (easy : ¬ p.frontier.Stalls rules) {g : Fact} :
    g ∈ (S.concluded p.frontier).map Triple.fact ↔
      ∃ t, Attests p.frontier.toList 0 t ∧ ∃ r ∈ rules, r.Yields (S.foundAt 0) t g := by
  have fits := Setting.admits_concluded inv.fits
  rw [← Setting.attests_concluded inv.fits easy]
  exact (DeltaAnswer.attests_iff_mem_map fits).symm

/-- A round drops rows and counts them. -/
theorem next_of_delta {a : DeltaAnswer} (ha : p.answer = .delta a) :
    (S.next p).answer.rows = a.retained (S.concluded p.frontier) ∧
      (S.next p).report.suppressed + (S.next p).answer.size =
        p.report.suppressed + p.answer.size := by
  have rows : (S.next p).answer.rows = a.retained (S.concluded p.frontier) := by
    rw [Setting.next, Progress.advance, ha]
    rfl
  refine ⟨rows, ?_⟩
  have dropped : (S.next p).report.suppressed = p.report.suppressed +
      (p.answer.absorb (S.concluded p.frontier)).suppressed := by
    simp only [Setting.next, Progress.advance, Report.foldl_countFiring]
  have inMode : p.answer.mode = .delta := by
    rw [ha]
    rfl
  rw [dropped, Nat.add_assoc]
  exact congrArg (p.report.suppressed + ·) (Answer.size_absorb_of_delta inMode _)

theorem pruned_next {found : List Triple} (p : Progress) (inv : S.Invariant seed p)
    (easy : ¬ p.frontier.Stalls rules) (h : ∃ concluded, Pruned S seed found p concluded) :
    ∃ concluded, Pruned S seed found (S.next p) concluded := by
  obtain ⟨concluded, kept, counted, sound, complete⟩ := h
  obtain ⟨a, ha⟩ := Answer.exists_of_mode_delta inv.inMode
  obtain ⟨rows, count⟩ := next_of_delta (S := S) ha
  have taken := inv.takesIn
  have before : a.rows = (distinct found).filter (survives concluded) := by
    rw [← kept, ha]
    rfl
  refine ⟨concluded ++ (S.concluded p.frontier).map Triple.fact, ?_, count.trans counted,
    fun f hf => ?_, fun t ht => ?_⟩
  · rw [rows, retained_eq before]
  · rcases List.mem_append.mp hf with hf | hf
    · exact sound f hf
    · obtain ⟨t, ht, r, hr, yields⟩ := (mem_concluded inv easy).mp hf
      exact ⟨t, inv.sound 0 t (inv.pending 0 t ht), r, hr, yields⟩
  -- a fact that was known before has set off its rules by now, a new one will in the next round
  · by_cases known : p.answer.Knows 0 t
    · right
      intro r hr f yields
      rcases complete t known with waiting | had
      · exact List.mem_append_right _ ((mem_concluded inv easy).mpr ⟨t, waiting, r, hr, yields⟩)
      · exact List.mem_append_left _ (had r hr f yields)
    · left
      have new := ((taken.knows 0 t).mp ht).resolve_left known
      exact (taken.news 0 t).mpr ⟨new, known⟩

end Next

theorem pruned_start {S : Setting .delta rules} {seed : Version → Fact → Prop}
    {found : List Triple} (inv : S.Invariant seed (.start .delta found)) :
    Pruned S seed found (.start .delta found) [] := by
  have handed : (Progress.start .delta found).frontier.toList = (DeltaAnswer.ofRows found).2 :=
    Frontier.toList_ofList _
  have nothing : ∀ row ∈ distinct found, survives [] row = true := fun row _ => by simp [survives]
  refine ⟨(List.filter_eq_self.mpr nothing).symm, Nat.zero_add _,
    fun f hf => absurd hf List.not_mem_nil, fun t ht => Or.inl ?_⟩
  have fits := inv.fits
  rw [handed] at fits ⊢
  exact (DeltaAnswer.attests_iff_mem_map fits).mpr ht

section Difference

variable {b : Backend} {scopes : ScopePair} (ho : b.OverOpenStores) (hm : scopes.mode = .ok .delta)

include ho hm

/-- The facts that the rows of a difference attest are those that it asserts. -/
theorem attests_delta_iff {q : Query} {v : Version} {f : Fact} :
    Attests (b.answers scopes q) v f ↔ ⟨f, .change true⟩ ∈ b.answers scopes q := by
  constructor
  · rintro ⟨⟨g, mark⟩, hrow, rfl, hv⟩
    obtain ⟨asserted, rfl⟩ :=
      (Backend.stored_of_mem_rows ho hm (Backend.rows_eq_answers ho hm q) hrow).2
    obtain rfl : asserted = true := hv
    exact hrow
  · intro h
    exact ⟨_, h, rfl, rfl⟩

/-- What is left of a difference are the rows other than retractions of facts that are derived from
its assertions. -/
theorem rows_of_delta {rules : RuleSet} {q : Query} {inf : Inference}
    (ok : infer b rules q scopes = .ok inf) :
    ∃ concluded, inf.rows = (distinct (b.answers scopes q)).filter (survives concluded) ∧
      inf.report.suppressed + inf.rows.length = (distinct (b.answers scopes q)).length ∧
      ∀ f, f ∈ concluded ↔
        Rederives b rules q (fun g => ⟨g, .change true⟩ ∈ b.answers scopes q)
          scopes.premises f := by
  have premises : scopes.premises.mode = .ok .snapshot := ScopePair.mode_premises hm
  obtain ⟨p, visits, done, rows, suppressed⟩ := exists_visited ho hm ok
  have pruned : ∃ concluded, Pruned (b.setting ho hm (rules.applicable q)) _ _ p concluded :=
    invariant_start.preserves visits pruned_next ⟨[], pruned_start invariant_start⟩
  obtain ⟨concluded, kept, counted, sound, complete⟩ := pruned
  have found : ∀ query f, (b.setting ho hm (rules.applicable q)).foundAt 0 query f ↔
      b.Finds scopes.premises query f := fun query f => attests_answers_iff ho premises
  have derived : ∀ t, DerivableAt b rules q scopes 0 t ↔
      Derivable (rules.applicable q) (b.Finds scopes.premises)
        (fun g => ⟨g, .change true⟩ ∈ b.answers scopes q) t :=
    derivable_congr (fun _ => attests_delta_iff ho hm) found
  refine ⟨concluded, rows.trans kept, ?_, fun f => ⟨fun hf => ?_, ?_⟩⟩
  · rw [suppressed, rows]
    exact counted
  · obtain ⟨t, ht, r, hr, yields⟩ := sound f hf
    exact ⟨t, (derived t).mp ht, r, hr, (Rule.yields_congr found).mp yields⟩
  · rintro ⟨t, ht, r, hr, yields⟩
    have known := (visits.invariant.knows_iff done).mpr ((derived t).mpr ht)
    rcases complete t known with waiting | had
    · rcases done with nothing | none
      · exact absurd (nothing ▸ waiting) (attests_nil 0 t)
      · exact absurd (none ▸ hr) List.not_mem_nil
    · exact had r hr f ((Rule.yields_congr found).mpr yields)

end Difference

/-- What is concluded from assertions that hold at a version is derivable there. -/
theorem derives_of_rederives {b : Backend} {rules : RuleSet} {q : Query} {v : Version}
    {asserted : Fact → Prop} {f : Fact}
    (held : ∀ g, asserted g → b.Finds ⟨.version v, none⟩ q g)
    (h : Rederives b rules q asserted ⟨.version v, none⟩ f) :
    Derives b rules q ⟨.version v, none⟩ f := by
  obtain ⟨t, ht, r, hr, yields⟩ := h
  have derived : Derives b rules q ⟨.version v, none⟩ t :=
    ht.mono (fun g hg => .seed (held g hg)) fun _ _ => id
  exact .step derived hr yields

end Infer

open Classical in
/-- Inference between two versions of a store drops the retractions of facts that rules conclude
from what is asserted between them, and nothing else. A fact whose retraction was dropped is in the
answer at the later version. -/
theorem delta_inference_drops_rederived (s : Store) (rules : RuleSet) (q : Query)
    (start stop : Version) (inf : Inference)
    (ok : infer (.single (.store s)) rules q ⟨.delta ⟨start, stop⟩, none⟩ = .ok inf) :
    ∃ raw, s.search q (.delta ⟨start, stop⟩) = .ok raw ∧
      inf.rows = raw.filter (fun row => ¬ (row.mark = .change false ∧
        Rederives (.single (.store s)) rules q (fun f => ⟨f, .change true⟩ ∈ raw)
          ⟨.version stop, none⟩ row.fact)) ∧
      (∀ row ∈ raw, row.mark = .change true → row ∈ inf.rows) ∧
      (∀ row ∈ inf.rows, row ∈ raw) ∧
      inf.report.suppressed + inf.rows.length = raw.length ∧
      ∀ after, infer (.single (.store s)) rules q ⟨.version stop, none⟩ = .ok after →
        ∀ row ∈ raw, row ∉ inf.rows → ⟨row.fact, .plain⟩ ∈ after.rows := by
  have isOpen := Infer.open_of_ok rfl ok
  have ho := Backend.overOpenStores_single isOpen
  obtain ⟨concluded, rows, counted, members⟩ := Infer.rows_of_delta ho rfl ok
  have nodup := Store.nodup_deltaRows s q ⟨start, stop⟩
  have same : distinct ((Backend.single (.store s)).answers ⟨.delta ⟨start, stop⟩, none⟩ q) =
      s.deltaRows q ⟨start, stop⟩ := by
    rw [Backend.answers_store isOpen rfl]
    exact distinct_eq_self nodup.of_map
  have answered : (Backend.single (.store s)).answers ⟨.delta ⟨start, stop⟩, none⟩ q =
      s.deltaRows q ⟨start, stop⟩ := Backend.answers_store isOpen rfl q
  rw [same] at rows counted
  rw [answered] at members
  have mem_rows : ∀ row, row ∈ inf.rows ↔ row ∈ s.deltaRows q ⟨start, stop⟩ ∧
      ¬ (row.mark = .change false ∧ row.fact ∈ concluded) := by
    intro row
    rw [rows, List.mem_filter, Infer.survives_iff]
  refine ⟨s.deltaRows q ⟨start, stop⟩, ?_, ?_, fun row hrow asserted => ?_, fun row hrow => ?_,
    counted, fun after found row hrow gone => ?_⟩
  · simp only [Store.search, isOpen]
    rfl
  · rw [rows]
    refine List.filter_congr fun row _ => ?_
    rw [Bool.eq_iff_iff, Infer.survives_iff, members, decide_eq_true_iff]
    exact Iff.rfl
  · refine (mem_rows row).mpr ⟨hrow, fun retracted => ?_⟩
    cases asserted.symm.trans retracted.1
  · exact ((mem_rows row).mp hrow).1
  · have dropped : row.mark = .change false ∧ row.fact ∈ concluded := by
      by_contra stays
      exact gone ((mem_rows row).mpr ⟨hrow, stays⟩)
    have held : ∀ g, ⟨g, .change true⟩ ∈ s.deltaRows q ⟨start, stop⟩ →
        (Backend.single (.store s)).Finds ⟨.version stop, none⟩ q g := by
      intro g hg
      obtain ⟨admitted, ⟨-, holds, -⟩ | ⟨retracted, -⟩⟩ := Store.mem_deltaRows.mp hg
      · exact (Infer.finds_version_iff isOpen).mpr ⟨holds, admitted⟩
      · cases retracted
    have derives := Infer.derives_of_rederives held ((members row.fact).mp dropped.2)
    obtain ⟨-, listed, -⟩ := Infer.rows_of_ok ho rfl found
    exact (listed _).mpr ⟨rfl, derives⟩

/-- The retraction of Tom's being an animal is dropped, as he is asserted to be a cat. -/
theorem delta_inference_of_pets :
    ∃ inf raw after, infer Sample.pets Sample.taxonomy .any ⟨.delta ⟨0, 1⟩, none⟩ = .ok inf ∧
      Sample.petStore.search .any (.delta ⟨0, 1⟩) = .ok raw ∧
      inf.report.suppressed + inf.rows.length = raw.length ∧
      ⟨Sample.tomIsAnimal, .change false⟩ ∈ raw ∧
      ⟨Sample.tomIsAnimal, .change false⟩ ∉ inf.rows ∧
      infer Sample.pets Sample.taxonomy .any ⟨.version 1, none⟩ = .ok after ∧
      ⟨Sample.tomIsAnimal, .plain⟩ ∈ after.rows := by
  obtain ⟨inf, ok, rows⟩ := Infer.exists_ok (infer Sample.pets Sample.taxonomy .any
    ⟨.delta ⟨0, 1⟩, none⟩) [⟨Sample.tomIsCat, .change true⟩] (by decide +kernel)
  obtain ⟨after, found, -⟩ := Sample.infer_pets
  obtain ⟨raw, searched, -, -, -, counted, kept⟩ :=
    delta_inference_drops_rederived Sample.petStore Sample.taxonomy .any 0 1 inf ok
  have retracted : ⟨Sample.tomIsAnimal, .change false⟩ ∈ raw := by
    obtain rfl := Except.ok.inj searched
    decide +kernel
  have gone : ⟨Sample.tomIsAnimal, .change false⟩ ∉ inf.rows := by
    rw [rows]
    decide
  exact ⟨inf, raw, after, ok, searched, counted, retracted, gone, found,
    kept after found _ retracted gone⟩

end Annals
