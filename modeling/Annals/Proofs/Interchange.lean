import Annals.Interchange.Rule
import Annals.Interchange.Scope
import Annals.Proofs.Json.Decoder
import Annals.Settings

/-!
# Documents lose nothing

What is written to a compact document and read from it again is what it was before. Terms may be of
any characters, fields that are left out come back as their absence, and what is checked on reading
has held on writing.
-/

namespace Annals

open Json (Written ok_bind)

theorem Version.ofJson_ofInt {v : Version} (h : Version.Fits v) :
    Version.ofJson (Json.ofInt v) = .ok v := Json.asInteger_ofInt h.1 h.2

theorem Term.ofJson_toJson (t : Term) : Term.ofJson t.toJson = .ok t := by
  rw [Term.ofJson, Term.toJson, Json.asString_ofString]
  rfl

theorem Term.written (t : Term) : t.toJson.Written := .string t.text

theorem OrderedSet.ofList_toList {α : Type} [Ord α] [Std.TransOrd α] [Std.LawfulEqOrd α]
    (s : OrderedSet α) : OrderedSet.ofList s.toList = s :=
  OrderedSet.ext fun _ => OrderedSet.mem_ofList

theorem VersionSet.ofJson_toJson {s : VersionSet} (fits : ∀ v, v ∈ s → Version.Fits v) :
    VersionSet.ofJson (VersionSet.toJson s) = .ok s := by
  rw [VersionSet.ofJson, VersionSet.toJson,
    Json.asList_ofList fun v hv => Version.ofJson_ofInt (fits v hv)]
  exact congrArg Except.ok s.ofList_toList

theorem VersionSet.written (s : VersionSet) : (VersionSet.toJson s).Written :=
  .ofList fun v _ => .integer v

namespace Pattern

/-- A statement is read from its fields, whatever further fields a record has. -/
theorem ofRecord_jsonFields (p : Pattern) (more : List (String × Json)) :
    ofRecord ⟨p.jsonFields ++ more⟩ = .ok p := by
  have subject : Json.Record.required ⟨p.jsonFields ++ more⟩ "subject" Term.ofJson =
      .ok p.subject :=
    (Json.Record.required_of_get? rfl).trans p.subject.ofJson_toJson
  have predicate : Json.Record.required ⟨p.jsonFields ++ more⟩ "predicate" Term.ofJson =
      .ok p.predicate :=
    (Json.Record.required_of_get? rfl).trans p.predicate.ofJson_toJson
  have object : Json.Record.required ⟨p.jsonFields ++ more⟩ "object" Term.ofJson =
      .ok p.object :=
    (Json.Record.required_of_get? rfl).trans p.object.ofJson_toJson
  rw [ofRecord, subject, ok_bind, predicate, ok_bind, object, ok_bind]
  rfl

theorem written_jsonFields (p : Pattern) : ∀ field ∈ p.jsonFields, field.2.Written := by
  simp [jsonFields, Term.written]

theorem ofJson_toJson (p : Pattern) : ofJson p.toJson = .ok p := by
  have record : Json.asRecord fieldNames p.toJson = .ok ⟨p.jsonFields⟩ :=
    Json.asRecord_ofFields (by simp [jsonFields, fieldNames]) (by simp [jsonFields])
  have fields := p.ofRecord_jsonFields []
  rw [List.append_nil] at fields
  rw [ofJson, record, ok_bind, fields]

theorem written (p : Pattern) : p.toJson.Written := .object p.written_jsonFields

end Pattern

namespace Triple

theorem ofJson_toJson {t : Triple} (fits : t.Fits) : ofJson t.toJson = .ok t := by
  obtain ⟨fact, mark⟩ := t
  have record : Json.asRecord (Pattern.fieldNames ++ ["addition", "versions"])
      (toJson ⟨fact, mark⟩) = .ok ⟨fact.jsonFields ++ mark.jsonFields⟩ := by
    apply Json.asRecord_ofFields <;>
      cases mark <;> simp [Pattern.jsonFields, Pattern.fieldNames, Mark.jsonFields]
  have addition : Json.Record.optional ⟨fact.jsonFields ++ mark.jsonFields⟩ "addition" Json.asBool =
      .ok mark.asserted? := by
    cases mark with
    | change asserted => exact Json.Record.optional_of_get? rfl nofun rfl
    | _ => exact Json.Record.optional_of_none rfl
  have versions : Json.Record.optional ⟨fact.jsonFields ++ mark.jsonFields⟩ "versions"
      VersionSet.ofJson = .ok mark.versions? := by
    cases mark with
    | holding versions =>
      exact Json.Record.optional_of_get? rfl nofun (VersionSet.ofJson_toJson (fits versions rfl))
    | _ => exact Json.Record.optional_of_none rfl
  have whole : Mark.ofFields mark.asserted? mark.versions? = .ok mark := by
    cases mark <;> rfl
  rw [ofJson, record, ok_bind, fact.ofRecord_jsonFields, ok_bind, addition, ok_bind, versions,
    ok_bind, whole]
  rfl

theorem written (t : Triple) : t.toJson.Written := by
  refine .object fun field h => ?_
  rcases List.mem_append.mp h with h | h
  · exact t.fact.written_jsonFields field h
  · obtain ⟨fact, mark⟩ := t
    cases mark with
    | plain => cases h
    | change asserted =>
      obtain rfl := List.mem_singleton.mp h
      exact .bool asserted
    | holding versions =>
      obtain rfl := List.mem_singleton.mp h
      exact VersionSet.written versions

theorem ofText_text {t : Triple} (fits : t.Fits) : ofText t.text = .ok t := by
  rw [ofText, text, Json.decodeText_write _ t.written, ofJson_toJson fits]

end Triple

namespace Snapshot

/-- The version and the limit fit into 64 bits. -/
def Fits (s : Snapshot) : Prop :=
  Version.Fits s.version ∧ ∀ n, s.limit = some n → n ≤ 0xFFFFFFFFFFFFFFFF

theorem ofJson_toJson {s : Snapshot} (fits : s.Fits) : ofJson s.toJson = .ok s := by
  obtain ⟨version, limit⟩ := s
  obtain ⟨versionFits, limitFits⟩ := fits
  have record : Json.asRecord ["version", "limit"] (toJson ⟨version, limit⟩) =
      .ok ⟨jsonFields ⟨version, limit⟩⟩ := by
    apply Json.asRecord_ofFields <;> cases limit <;> simp [jsonFields]
  have given : Json.Record.required ⟨jsonFields ⟨version, limit⟩⟩ "version" Version.ofJson =
      .ok version := (Json.Record.required_of_get? rfl).trans (Version.ofJson_ofInt versionFits)
  have limited : Json.Record.optional ⟨jsonFields ⟨version, limit⟩⟩ "limit"
      (Json.asInteger 0 0xFFFFFFFFFFFFFFFF) = .ok (limit.map Int.ofNat) := by
    cases limit with
    | none => exact Json.Record.optional_of_none rfl
    | some n =>
      have small : n ≤ 0xFFFFFFFFFFFFFFFF := limitFits n rfl
      exact Json.Record.optional_of_get? rfl nofun
        (Json.asInteger_ofInt (Int.natCast_nonneg n) (by omega))
  have read : (limit.map Int.ofNat).map Int.toNat = limit := by
    cases limit <;> rfl
  rw [ofJson, record, ok_bind, given, ok_bind, limited, ok_bind, read]
  rfl

theorem written (s : Snapshot) : s.toJson.Written := by
  obtain ⟨version, limit⟩ := s
  refine .object fun field h => ?_
  rcases List.mem_cons.mp h with rfl | h
  · exact .integer version
  · cases limit with
    | none => cases h
    | some n =>
      obtain rfl := List.mem_singleton.mp h
      exact .integer n

theorem ofText_text {s : Snapshot} (fits : s.Fits) : ofText s.text = .ok s := by
  rw [ofText, text, Json.decodeText_write _ s.written, ofJson_toJson fits]

end Snapshot

namespace Interval

/-- Both versions fit into 64 bits. -/
def Fits (d : Interval) : Prop := Version.Fits d.start ∧ Version.Fits d.stop

theorem ofJson_toJson {d : Interval} (fits : d.Fits) : ofJson d.toJson = .ok d := by
  have record : Json.asRecord ["versionStart", "versionEnd"] d.toJson = .ok ⟨d.jsonFields⟩ :=
    Json.asRecord_ofFields (by simp [jsonFields]) (by simp [jsonFields])
  have first : Json.Record.required ⟨d.jsonFields⟩ "versionStart" Version.ofJson = .ok d.start :=
    (Json.Record.required_of_get? rfl).trans (Version.ofJson_ofInt fits.1)
  have last : Json.Record.required ⟨d.jsonFields⟩ "versionEnd" Version.ofJson = .ok d.stop :=
    (Json.Record.required_of_get? rfl).trans (Version.ofJson_ofInt fits.2)
  rw [ofJson, record, ok_bind, first, ok_bind, last, ok_bind]
  rfl

theorem written (d : Interval) : d.toJson.Written := by
  refine .object ?_
  simp [jsonFields, Written.integer]

theorem ofText_text {d : Interval} (fits : d.Fits) : ofText d.text = .ok d := by
  rw [ofText, text, Json.decodeText_write _ d.written, ofJson_toJson fits]

end Interval

namespace Rule

theorem ofJson_toJson (r : Rule) : ofJson r.toJson = .ok r := by
  let fields : List (String × Json) := [("name", .ofString r.name),
    ("from", .ofList Pattern.toJson r.body), ("to", .ofList Pattern.toJson r.head)]
  have record : Json.asRecord ["name", "from", "to"] r.toJson = .ok ⟨fields⟩ :=
    Json.asRecord_ofFields (by simp) (by simp)
  have name : Json.Record.withDefault ⟨fields⟩ "name" "" Json.asString = .ok r.name :=
    (Json.Record.withDefault_of_get? rfl).trans (Json.asString_ofString r.name)
  have body : Json.Record.required ⟨fields⟩ "from" (Json.asList Pattern.ofJson) = .ok r.body :=
    (Json.Record.required_of_get? rfl).trans (Json.asList_ofList fun p _ => p.ofJson_toJson)
  have head : Json.Record.required ⟨fields⟩ "to" (Json.asList Pattern.ofJson) = .ok r.head :=
    (Json.Record.required_of_get? rfl).trans (Json.asList_ofList fun p _ => p.ofJson_toJson)
  rw [ofJson, record, ok_bind, name, ok_bind, body, ok_bind, head, ok_bind]
  rfl

theorem written (r : Rule) : r.toJson.Written := by
  have patterns : ∀ l : List Pattern, (Json.ofList Pattern.toJson l).Written := fun _ =>
    .ofList fun p _ => p.written
  refine .object ?_
  simp [Written.string, patterns]

end Rule

namespace RuleSet

theorem written (s : RuleSet) : s.toJson.Written := .ofList fun r _ => r.written

theorem ofText_text (s : RuleSet) : ofText s.text = .ok s := by
  rw [ofText, text, Json.decodeText_write _ s.written, toJson,
    Json.asList_ofList fun r _ => r.ofJson_toJson]
  -- the rules pass the check that they passed before
  exact ofList_of_sound s.sound

end RuleSet

theorem Reconcile.ofJson_name (r : Reconcile) : Reconcile.ofJson (.ofString r.name) = .ok r := by
  rw [Reconcile.ofJson, Json.asName_ofString, ok_bind]
  cases r <;> rfl

namespace Settings

/-- None of the identity predicates is a variable. -/
def Constant (s : Settings) : Prop := ∀ p ∈ s.identityPredicates, p.isVariable = false

instance (s : Settings) : Decidable s.Constant :=
  inferInstanceAs (Decidable (∀ p ∈ s.identityPredicates, p.isVariable = false))

theorem ofJson_toJson (s : Settings) : ofJson s.toJson = .ok s := by
  let fields : List (String × Json) :=
    [("identityPredicates", .ofList Term.toJson s.identityPredicates),
      ("reconcile", .ofString s.reconcile.name)]
  have record : Json.asRecord ["identityPredicates", "reconcile"] s.toJson = .ok ⟨fields⟩ :=
    Json.asRecord_ofFields (by simp) (by simp)
  have identity (default : List Term) : Json.Record.withDefault ⟨fields⟩ "identityPredicates"
      default (Json.asList Term.ofJson) = .ok s.identityPredicates :=
    (Json.Record.withDefault_of_get? rfl).trans (Json.asList_ofList fun t _ => t.ofJson_toJson)
  have reconcile (default : Reconcile) : Json.Record.withDefault ⟨fields⟩ "reconcile"
      default Reconcile.ofJson = .ok s.reconcile :=
    (Json.Record.withDefault_of_get? rfl).trans s.reconcile.ofJson_name
  rw [ofJson, record, ok_bind]
  simp only [identity, reconcile, ok_bind]
  rfl

theorem written (s : Settings) : s.toJson.Written := by
  have predicates : (Json.ofList Term.toJson s.identityPredicates).Written :=
    .ofList fun t _ => t.written
  refine .object ?_
  simp [Written.string, predicates]

theorem validate_of_constant {s : Settings} (constant : s.Constant) : s.validate = .ok s := by
  have none_variable : s.identityPredicates.find? Term.isVariable = none := by
    rw [List.find?_eq_none]
    intro p hp
    rw [constant p hp]
    exact Bool.false_ne_true
  rw [validate, none_variable]

theorem ofText_text {s : Settings} (constant : s.Constant) : ofText s.text = .ok s := by
  rw [ofText, text, Json.decodeText_write _ s.written, ofJson_toJson]
  exact validate_of_constant constant

end Settings

/-- Whatever is written as a compact document is read from it again: rows with their marks, scopes,
rule sets, and settings that name no variable. -/
theorem documents_lose_nothing :
    (∀ t : Triple, t.Fits → Triple.ofText t.text = .ok t) ∧
    (∀ s : Snapshot, s.Fits → Snapshot.ofText s.text = .ok s) ∧
    (∀ d : Interval, d.Fits → Interval.ofText d.text = .ok d) ∧
    (∀ s : RuleSet, RuleSet.ofText s.text = .ok s) ∧
    ∀ s : Settings, s.Constant → Settings.ofText s.text = .ok s :=
  ⟨fun _ => Triple.ofText_text, fun _ => Snapshot.ofText_text, fun _ => Interval.ofText_text,
    RuleSet.ofText_text, fun _ => Settings.ofText_text⟩

namespace Sample

/-- A row of no version, with a quotation mark, a backslash, a line break and a control character in
its terms. -/
def escapes : Triple :=
  ⟨⟨⟨"\"quoted\""⟩, ⟨"back\\slash"⟩, ⟨"two\nlines of ε\u0001"⟩⟩, .holding ∅⟩

end Sample

theorem documents_of_escapes :
    Sample.escapes.Fits ∧ Triple.ofText Sample.escapes.text = .ok Sample.escapes ∧
    Snapshot.Fits ⟨-1, some 3⟩ ∧ Snapshot.ofText (Snapshot.text ⟨-1, some 3⟩) = .ok ⟨-1, some 3⟩ ∧
    Interval.Fits ⟨0, 2⟩ ∧ Interval.ofText (Interval.text ⟨0, 2⟩) = .ok ⟨0, 2⟩ ∧
    RuleSet.ofText RuleSet.rdfs.text = .ok .rdfs ∧
    Settings.Constant {} ∧ Settings.ofText (Settings.text {}) = .ok {} := by
  obtain ⟨rows, snapshots, intervals, ruleSets, settings⟩ := documents_lose_nothing
  have row : Sample.escapes.Fits := by
    rintro versions same v hv
    obtain rfl := Mark.holding.inj same
    exact absurd hv (OrderedSet.not_mem_empty v)
  have moment : Snapshot.Fits ⟨-1, some 3⟩ := by
    refine ⟨by decide, ?_⟩
    rintro n same
    obtain rfl := Option.some.inj same
    decide
  have stretch : Interval.Fits ⟨0, 2⟩ := ⟨by decide, by decide⟩
  have constant : Settings.Constant {} := by decide
  exact ⟨row, rows _ row, moment, snapshots _ moment, stretch, intervals _ stretch, ruleSets _,
    constant, settings _ constant⟩

end Annals
