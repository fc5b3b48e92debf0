import Annals.Proofs.Assignment
import Annals.Proofs.Backend
import Annals.Proofs.Store.Listing

/-!
# Looking up the instances of a pattern

A query leaves the places of all variables open, so it forgets where a pattern has a variable twice,
and what is found is held against the pattern once more. Nothing is lost on the way: a pattern
matches its ground instances and no other facts, and its query admits all of them. A limit counts
the rows that the query admits, whether they are kept or not.
-/

namespace Annals

namespace Pattern

variable {p : Pattern} {f : Fact} {b : Binding}

/-- A match with a ground fact binds the variables of the pattern and nothing else. -/
theorem bound_iff_of_match? (matched : p.match? f = some b) (ground : f.isGround = true)
    {x : Term} :
    (∃ v, b.get? x = some v) ↔ x.isVariable = true ∧ ∃ i, p.get i = x := by
  obtain ⟨σ, rfl⟩ := (exists_match?_iff ground).mp ⟨b, matched⟩
  have gives := Binding.gives_of_match? matched x
  constructor
  · rintro ⟨v, value⟩
    obtain ⟨mem, var, -⟩ := (gives v).mp value
    exact ⟨var, mem⟩
  · rintro ⟨var, mem⟩
    exact ⟨_, (gives _).mpr ⟨mem, var, rfl⟩⟩

/-- The rows that match the pattern. -/
def keeps (p : Pattern) (rows : List Triple) : List Triple :=
  rows.filter fun row => (p.matchRow? row).isSome

theorem mem_keeps_iff {rows : List Triple} {row : Triple} :
    row ∈ p.keeps rows ↔ row ∈ rows ∧ ∃ b, p.match? row.fact = some b := by
  simp [keeps, matchRow?, Option.isSome_iff_exists]

end Pattern

namespace Scope

/-- How many rows a scope asks for at most. -/
def limit? : Scope → Option Nat
  | snapshot moment => moment.limit
  | delta _ => none
  | history => none

/-- The scope without its limit. -/
def unlimited : Scope → Scope
  | snapshot moment => version moment.version
  | delta stretch => delta stretch
  | history => history

theorem unlimited_of_limit? {scope : Scope} (h : scope.limit? = none) :
    scope.unlimited = scope := by
  obtain ⟨v, limit⟩ | stretch | _ := scope
  · obtain rfl : limit = none := h
    rfl
  · rfl
  · rfl

end Scope

namespace Store

/-- The row is the one that the store has for its fact in a scope, whatever is asked for. -/
def Records (s : Store) (row : Triple) : Scope → Prop
  | .snapshot moment => row.mark = .plain ∧ row.fact ∈ s.stateAt moment.version
  | .delta stretch =>
    (row.mark = .change true ∧
        row.fact ∈ s.stateAt stretch.stop ∧ row.fact ∉ s.stateAt stretch.start) ∨
      (row.mark = .change false ∧
        row.fact ∈ s.stateAt stretch.start ∧ row.fact ∉ s.stateAt stretch.stop)
  | .history => ∃ versions, row.mark = .holding versions ∧ (∃ v, v ∈ versions) ∧
      ∀ v, v ∈ versions ↔ v ≤ s.maxVersion ∧ row.fact ∈ s.stateAt v

variable {s : Store} {q : Query} {scope : Scope} {row other : Triple}

/-- The versions that the row of a fact names fit into 64 bits. -/
theorem Records.fits (h : s.Records row scope)
    (next : scope = .history → Version.Fits (s.maxVersion + 1)) : row.Fits := by
  intro versions marked v hv
  cases scope with
  | snapshot moment => cases h.1.symm.trans marked
  | delta stretch =>
    rcases h with ⟨change, -⟩ | ⟨change, -⟩
    · cases change.symm.trans marked
    · cases change.symm.trans marked
  | history =>
    obtain ⟨named, also, -, members⟩ := h
    obtain rfl : named = versions := by simpa using also.symm.trans marked
    obtain ⟨reached, held⟩ := (members v).mp hv
    exact fits_of_mem_stateAt (next rfl) reached held

/-- In a scope there is one row for a fact at the most. -/
theorem Records.unique (h : s.Records row scope) (also : s.Records other scope)
    (same : row.fact = other.fact) : row = other := by
  rw [Triple.mk.injEq]
  refine ⟨same, ?_⟩
  cases scope with
  | snapshot moment => rw [h.1, also.1]
  | delta stretch =>
    rw [Records, same] at h
    rcases h with ⟨hm, hf, hn⟩ | ⟨hm, hf, hn⟩ <;> rcases also with ⟨hm', hf', hn'⟩ | ⟨hm', hf', hn'⟩
    · rw [hm, hm']
    · exact absurd hf hn'
    · exact absurd hf hn'
    · rw [hm, hm']
  | history =>
    obtain ⟨versions, hm, -, members⟩ := h
    obtain ⟨named, hm', -, members'⟩ := also
    have versions_eq : versions = named := by
      apply OrderedSet.ext
      intro v
      rw [members, members', same]
    rw [hm, hm', versions_eq]

theorem records_of_mem_historyRows (listed : row ∈ s.rows q .history) :
    s.Records row .history := by
  have admitted : q.admits row.fact = true := admits_of_mem_rows listed
  obtain ⟨versions, marked, nonempty, members⟩ := mem_historyRows listed
  refine ⟨versions, marked, nonempty, fun v => ?_⟩
  rw [members, admitted, and_iff_left rfl]

/-- Without a limit the rows of an answer are those of the scope that the query admits. -/
theorem mem_rows_unlimited_iff :
    row ∈ s.rows q scope.unlimited ↔ s.Records row scope ∧ q.admits row.fact = true := by
  cases scope with
  | snapshot moment => exact mem_versionRows_iff.trans and_assoc.symm
  | delta stretch => exact mem_deltaRows.trans and_comm
  | history =>
    constructor
    · intro listed
      exact ⟨records_of_mem_historyRows listed, admits_of_mem_rows listed⟩
    · rintro ⟨recorded, admitted⟩
      have recurs := recorded
      obtain ⟨versions, -, ⟨v, hv⟩, members⟩ := recorded
      obtain ⟨le, held⟩ := (members v).mp hv
      have listed : row.fact ∈ (s.historyRows q).map Triple.fact := by
        rw [map_fact_historyRows, ← OrderedSet.mem_def, mem_everHeld_iff]
        exact ⟨v, le, held, admitted⟩
      obtain ⟨found, hfound, same⟩ := List.mem_map.mp listed
      have found_eq : found = row := (records_of_mem_historyRows hfound).unique recurs same
      exact found_eq ▸ hfound

theorem nodup_facts_rows_unlimited (s : Store) (q : Query) (scope : Scope) :
    ((s.rows q scope.unlimited).map Triple.fact).Nodup := by
  cases scope with
  | snapshot moment =>
    have wanted := (OrderedSet.nodup_toList (s.stateAt moment.version)).filter q.admits
    simpa [rows, Scope.unlimited, Scope.version, snapshotRows, Function.comp_def] using wanted
  | delta stretch => exact nodup_deltaRows s q stretch
  | history =>
    rw [Scope.unlimited, rows, map_fact_historyRows]
    exact OrderedSet.nodup_toList _

/-- A limit takes the first of the rows there would be without it. -/
theorem rows_eq_take (s : Store) (q : Query) (scope : Scope) :
    s.rows q scope =
      scope.limit?.elim (s.rows q scope.unlimited) (s.rows q scope.unlimited).take := by
  cases scope with
  | snapshot moment =>
    obtain ⟨v, limit⟩ := moment
    cases limit with
    | none => rfl
    | some n => exact snapshotRows_limit s q v n
  | delta stretch => rfl
  | history => rfl

/-- Of the rows that are found without a limit exactly the instances of the pattern are kept. -/
theorem mem_keeps_rows_iff {p : Pattern} :
    row ∈ p.keeps (s.rows (.ofPattern p) scope.unlimited) ↔
      s.Records row scope ∧ ∃ σ : Assignment, p.under σ = row.fact := by
  rw [Pattern.mem_keeps_iff]
  constructor
  · rintro ⟨listed, matched⟩
    exact ⟨(mem_rows_unlimited_iff.mp listed).1,
      (Pattern.exists_match?_iff (isGround_of_mem_rows listed)).mp matched⟩
  · rintro ⟨recorded, σ, same⟩
    have admitted : (Query.ofPattern p).admits row.fact = true := same ▸ Pattern.admits_under
    have listed := mem_rows_unlimited_iff.mpr ⟨recorded, admitted⟩
    exact ⟨listed, (Pattern.exists_match?_iff (isGround_of_mem_rows listed)).mpr ⟨σ, same⟩⟩

end Store

/-- A pattern matches exactly those ground facts that are its instances. The binding is one of the
pattern's variables, and makes the fact of the pattern. So a search of an open store finds, in a
scope without a limit, a row for every instance of the pattern that the store has in the scope, and
those that match the pattern are these rows, each with its own mark. A limit is for the search and
not for the rows kept. Over all versions there has to be one of 64 bits after the newest, and then
all that are named are versions of 64 bits. -/
theorem lookup_keeps_instances (p : Pattern) :
    (∀ f : Fact, f.isGround = true →
      ((∃ b, p.match? f = some b) ↔ ∃ σ : Assignment, p.under σ = f) ∧
      ∀ b, p.match? f = some b → p.bind b = f ∧
        ∀ x, (∃ v, b.get? x = some v) ↔ x.isVariable = true ∧ ∃ i, p.get i = x) ∧
    ∀ (s : Store) (scope : Scope), (scope = .history → Version.Fits (s.maxVersion + 1)) →
      ((∃ found, s.search (.ofPattern p) scope = .ok found) ↔ s.closed = false) ∧
      ∀ found, s.search (.ofPattern p) scope.unlimited = .ok found →
        s.search (.ofPattern p) scope = .ok (scope.limit?.elim found found.take) ∧
        ((p.keeps found).map Triple.fact).Nodup ∧
        (∀ row, row ∈ p.keeps found ↔
          s.Records row scope ∧ ∃ σ : Assignment, p.under σ = row.fact) ∧
        ∀ row ∈ p.keeps found, row.Fits ∧ ∃ b, p.matchRow? row = some b ∧ p.bind b = row.fact ∧
          b.mark = row.mark := by
  refine ⟨fun f ground => ⟨Pattern.exists_match?_iff ground, fun b matched => ?_⟩,
    fun s scope next => ⟨?_, fun found ok => ?_⟩⟩
  · exact ⟨Pattern.bind_eq_of_match? matched ground,
      fun x => Pattern.bound_iff_of_match? matched ground⟩
  · constructor
    · rintro ⟨found, ok⟩
      exact (Store.search_eq_ok_iff.mp ok).1
    · intro isOpen
      exact ⟨_, Store.search_of_open isOpen _ scope⟩
  · obtain ⟨isOpen, rfl⟩ := Store.search_eq_ok_iff.mp ok
    refine ⟨Store.search_eq_ok_iff.mpr ⟨isOpen, s.rows_eq_take _ scope⟩, ?_,
      fun row => Store.mem_keeps_rows_iff, fun row kept => ?_⟩
    · exact (s.nodup_facts_rows_unlimited _ scope).sublist (List.filter_sublist.map _)
    · obtain ⟨listed, b, matched⟩ := Pattern.mem_keeps_iff.mp kept
      have same : p.bind b = row.fact :=
        Pattern.bind_eq_of_match? matched (Store.isGround_of_mem_rows listed)
      refine ⟨(Store.mem_keeps_rows_iff.mp kept).1.fits next, b.withMark row.mark, ?_, same, rfl⟩
      rw [Pattern.matchRow?, matched]
      rfl

namespace Sample

def annKnowsBob : Fact := ⟨⟨"ann"⟩, ⟨"knows"⟩, ⟨"bob"⟩⟩

def cidKnowsCid : Fact := ⟨⟨"cid"⟩, ⟨"knows"⟩, ⟨"cid"⟩⟩

/-- Ann knows someone else, and Cid himself. -/
def circle : Store where
  changesets := [⟨0, [⟨annKnowsBob, true, by decide⟩, ⟨cidKnowsCid, true, by decide⟩]⟩]
  closed := false
  descending := by decide
  nonneg := by decide

/-- Someone knows himself. -/
def knowsSelf : Pattern := ⟨⟨"?x"⟩, ⟨"knows"⟩, ⟨"?x"⟩⟩

/-- Someone knows someone. -/
def knowsSomeone : Pattern := ⟨⟨"?x"⟩, ⟨"knows"⟩, ⟨"?y"⟩⟩

end Sample

/-- The query cannot tell apart who knows himself and who knows another. The match can. -/
theorem lookup_of_knowsSelf :
    Sample.circle.closed = false ∧ Sample.cidKnowsCid.isGround = true ∧
      (∃ b, Sample.knowsSelf.match? Sample.cidKnowsCid = some b ∧
        Sample.knowsSelf.bind b = Sample.cidKnowsCid) ∧
      ∃ found, Sample.circle.search (.ofPattern Sample.knowsSelf) (.version 0) = .ok found ∧
        found.map Triple.fact = [Sample.annKnowsBob, Sample.cidKnowsCid] ∧
        ⟨Sample.cidKnowsCid, .plain⟩ ∈ Sample.knowsSelf.keeps found ∧
        ⟨Sample.annKnowsBob, .plain⟩ ∉ Sample.knowsSelf.keeps found ∧
      Version.Fits (Sample.circle.maxVersion + 1) ∧
      ∃ all, Sample.circle.search (.ofPattern Sample.knowsSelf) .history = .ok all ∧
        ⟨Sample.cidKnowsCid, .holding (.ofList [0])⟩ ∈ Sample.knowsSelf.keeps all ∧
        Sample.circle.Records ⟨Sample.cidKnowsCid, .holding (.ofList [0])⟩ .history := by
  obtain ⟨matching, lookup⟩ := lookup_keeps_instances Sample.knowsSelf
  have ground : Sample.cidKnowsCid.isGround = true := by decide
  let σ : Assignment := Assignment.blank.set ⟨"?x"⟩ ⟨"cid"⟩ (by decide)
  have cid : Sample.knowsSelf.under σ = Sample.cidKnowsCid := by decide +kernel
  have held : Sample.cidKnowsCid ∈ Sample.circle.stateAt 0 := by decide +kernel
  obtain ⟨b, matched⟩ := (matching _ ground).1.mpr ⟨σ, cid⟩
  obtain ⟨opened, answers⟩ := lookup Sample.circle (.version 0) nofun
  obtain ⟨found, ok⟩ := opened.mpr rfl
  obtain ⟨-, -, kept, -⟩ := answers found ok
  have next : Version.Fits (Sample.circle.maxVersion + 1) := by decide
  obtain ⟨openedAlways, answersAlways⟩ := lookup Sample.circle .history fun _ => next
  obtain ⟨all, always⟩ := openedAlways.mpr rfl
  obtain ⟨-, -, keptAlways, -⟩ := answersAlways all always
  have listed : ⟨Sample.cidKnowsCid, .holding (.ofList [0])⟩ ∈ Sample.knowsSelf.keeps all := by
    obtain ⟨-, rfl⟩ := Store.search_eq_ok_iff.mp always
    decide +kernel
  refine ⟨rfl, ground, ⟨b, matched, ((matching _ ground).2 b matched).1⟩, found, ok, ?_, ?_, ?_,
    next, all, always, listed, ((keptAlways _).mp listed).1⟩
  · obtain ⟨-, rfl⟩ := Store.search_eq_ok_iff.mp ok
    decide +kernel
  · exact (kept _).mpr ⟨⟨rfl, held⟩, σ, cid⟩
  · intro bob
    obtain ⟨-, τ, same⟩ := (kept _).mp bob
    have ann : τ.apply ⟨"?x"⟩ = ⟨"ann"⟩ := congrArg Pattern.subject same
    have other : τ.apply ⟨"?x"⟩ = ⟨"bob"⟩ := congrArg Pattern.object same
    exact absurd (ann.symm.trans other) (by decide)

/-- Under a limit an instance may be missing from the rows that are kept. -/
theorem limited_lookup_misses_instance :
    ∃ found, Sample.circle.search (.ofPattern Sample.knowsSomeone) (.snapshot ⟨0, some 1⟩) =
        .ok found ∧
      Sample.circle.Records ⟨Sample.cidKnowsCid, .plain⟩ (.snapshot ⟨0, some 1⟩) ∧
      (∃ σ : Assignment, Sample.knowsSomeone.under σ = Sample.cidKnowsCid) ∧
      ⟨Sample.cidKnowsCid, .plain⟩ ∉ Sample.knowsSomeone.keeps found := by
  have held : Sample.cidKnowsCid ∈ Sample.circle.stateAt 0 := by decide +kernel
  have instance_ : Sample.knowsSomeone.under ((Assignment.blank.set ⟨"?x"⟩ ⟨"cid"⟩ (by decide)).set
      ⟨"?y"⟩ ⟨"cid"⟩ (by decide)) = Sample.cidKnowsCid := by decide +kernel
  refine ⟨_, Store.search_of_open rfl _ _, ⟨rfl, held⟩, ⟨_, instance_⟩, ?_⟩
  decide +kernel

end Annals
