import Annals.Json.Decoder
import Annals.Proofs.Json.Reader

/-!
# Values from compact documents

Decoders give back what was written. A record has its fields under their names, whichever of them
were written, and a decoder of a whole text does with it what it does with the document.
-/

namespace Annals.Json

theorem ok_bind {α β : Type} (a : α) (f : α → Decoded β) :
    ((.ok a : Decoded α) >>= f) = f a := rfl

theorem decodeText_write {α : Type} (decode : Json → Decoded α) {v : Json} (h : v.Written) :
    decodeText decode v.write = decode v := by
  rw [decodeText, h.read_write]
  cases decode v <;> rfl

theorem unquote_escape (s : String) : unquote (.ofList (Quoted.escape s.toList)) = .ok s := by
  rw [unquote, String.toList_ofList, Quoted.unescape?_escape]
  exact congrArg Except.ok String.ofList_toList

theorem asString_ofString (s : String) : asString (ofString s) = .ok s := unquote_escape s

theorem asName_ofString (s : String) : asName (ofString s) = .ok s := unquote_escape s

theorem asInteger_ofInt {lo hi n : Int} (low : lo ≤ n) (high : n ≤ hi) :
    asInteger lo hi (ofInt n) = .ok n := by
  simp only [asInteger, ofInt, String.toList_ofList, Integer.parse?_print, low, high, and_self,
    if_true]
  rfl

section Lists

variable {α β : Type} {l : List α}

/-- If each entry is decoded, so is the list. -/
theorem mapM_map_eq_ok {write : α → β} {decode : β → Decoded α}
    (each : ∀ a ∈ l, decode (write a) = .ok a) : (l.map write).mapM decode = .ok l := by
  induction l with
  | nil => rfl
  | cons a rest ih =>
    obtain ⟨first, others⟩ := List.forall_mem_cons.mp each
    rw [List.map_cons, List.mapM_cons, first, ih others]
    rfl

theorem asList_ofList {item : α → Json} {value : Json → Decoded α}
    (each : ∀ a ∈ l, value (item a) = .ok a) : asList value (ofList item l) = .ok l := by
  rw [ofList, asList, mapM_map_eq_ok each]

theorem partition_eq_left {p : α → Bool} (h : ∀ a ∈ l, p a = true) : l.partition p = (l, []) := by
  rw [List.partition_eq_filter_filter, List.filter_eq_self.mpr h]
  refine Prod.ext rfl (List.filter_eq_nil_iff.mpr fun a ha => ?_)
  simp [h a ha]

end Lists

/-- A record that was written has the fields that were written. -/
theorem asRecord_ofFields {names : List String} {fields : List (String × Json)}
    (known : ∀ field ∈ fields, field.1 ∈ names) (nodup : (fields.map Prod.fst).Nodup) :
    asRecord names (ofFields fields) = .ok ⟨fields⟩ := by
  have all : ∀ field ∈ fields, names.contains field.1 = true := fun field h =>
    List.contains_iff_mem.mpr (known field h)
  rw [ofFields_eq, asRecord, mapM_map_eq_ok]
  · simp only [bind, Except.bind]
    rw [partition_eq_left]
    · exact if_pos ⟨nodup, rfl⟩
    · exact all
  · intro field _
    simp only [spelled, unquote_escape]
    rfl

namespace Record

variable {α : Type} {r : Record} {name : String} {value : Json → Decoded α} {v : Json}

theorem required_of_get? (h : r.get? name = some v) : r.required name value = value v := by
  rw [required, h]

theorem withDefault_of_get? {default : α} (h : r.get? name = some v) :
    r.withDefault name default value = value v := by
  rw [withDefault, h]

theorem optional_of_none (h : r.get? name = none) : r.optional name value = .ok none := by
  rw [optional, withDefault, h]
  rfl

theorem optional_of_get? {a : α} (h : r.get? name = some v) (given : v ≠ .null)
    (decoded : value v = .ok a) : r.optional name value = .ok (some a) := by
  have some_value : asOption value v = some <$> value v := by
    rw [asOption]
    exact given
  rw [optional, withDefault_of_get? h, some_value, decoded]
  rfl

end Record

end Annals.Json
