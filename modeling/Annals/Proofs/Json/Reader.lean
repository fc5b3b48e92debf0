import Annals.Json.Reader
import Annals.Json.Writer
import Annals.Proofs.Json.Quoted
import Mathlib.Data.List.TakeDrop
import Mathlib.Data.Nat.Digits.Defs

/-!
# Compact documents are read as they were written

The reader takes from the front of a text what the writer wrote of a value and leaves the rest. It
can tell where a number ends, because behind a value a compact document has a comma, a closing
bracket, or nothing.
-/

namespace Annals.Json

/-- What may stand behind a value in a compact document. -/
def Closes (rest : List Char) : Prop := ∀ c ∈ rest.head?, c = ',' ∨ c = ']' ∨ c = '}'

theorem closes_nil : Closes [] := nofun

theorem closes_cons {c : Char} {rest : List Char} (h : c = ',' ∨ c = ']' ∨ c = '}') :
    Closes (c :: rest) := by
  intro d hd
  obtain rfl := Option.some.inj hd
  exact h

namespace Number

variable {rest : List Char}

/-- Digits end where a value may end. -/
theorem digits?_append {ds : List Char} (digits : ∀ c ∈ ds, c.isDigit = true) (some_digit : ds ≠ [])
    (closes : Closes rest) : digits? (ds ++ rest) = some (ds, rest) := by
  have ends : rest.takeWhile Char.isDigit = [] ∧ rest.dropWhile Char.isDigit = rest := by
    cases rest with
    | nil => exact ⟨rfl, rfl⟩
    | cons c after =>
      have other : c.isDigit = false := by
        rcases closes c rfl with rfl | rfl | rfl <;> decide
      simp [other]
  have parts : (ds ++ rest).span Char.isDigit = (ds, rest) := by
    rw [List.span_eq_takeWhile_dropWhile, List.takeWhile_append_of_pos digits,
      List.dropWhile_append_of_pos digits, ends.1, ends.2, List.append_nil]
  unfold digits?
  rw [parts]
  split
  · next nothing => exact absurd (congrArg Prod.fst nothing) some_digit
  · rfl

/-- A number other than zero is written without a zero in front. -/
theorem exists_toDigits {n : Nat} (positive : 0 < n) :
    ∃ d ds, Nat.toDigits 10 n = d :: ds ∧ d ≠ '0' := by
  have nonzero : ∀ n < 10, 0 < n → n.digitChar ≠ '0' := by decide
  induction n using Nat.strong_induction_on with
  | _ n ih =>
    by_cases small : n < 10
    · exact ⟨n.digitChar, [], Nat.toDigits_of_lt_base small, nonzero n small positive⟩
    · have large : 10 ≤ n := Nat.not_lt.mp small
      obtain ⟨d, ds, first, other⟩ := ih (n / 10) (by omega) (by omega)
      refine ⟨d, ds ++ [(n % 10).digitChar], ?_, other⟩
      rw [Nat.toDigits_of_base_le (by decide) large, first, List.cons_append]

theorem isDigit_of_mem_toDigits {n : Nat} {c : Char} (h : c ∈ Nat.toDigits 10 n) :
    c.isDigit = true := Nat.isDigit_of_mem_toDigits (by decide) (by decide) h

theorem whole?_toDigits (n : Nat) (closes : Closes rest) :
    whole? (Nat.toDigits 10 n ++ rest) = some (Nat.toDigits 10 n, rest) := by
  rcases Nat.eq_zero_or_pos n with rfl | positive
  · rw [Nat.toDigits_zero]
    rfl
  · have whole : digits? (Nat.toDigits 10 n ++ rest) = some (Nat.toDigits 10 n, rest) :=
      digits?_append (fun c hc => isDigit_of_mem_toDigits hc) Nat.toDigits_ne_nil closes
    obtain ⟨d, ds, first, other⟩ := exists_toDigits positive
    rw [first] at whole ⊢
    rw [List.cons_append, whole?]
    · exact whole
    · intro after zero
      exact absurd (List.cons.inj zero).1 other

theorem fraction?_of_closes (closes : Closes rest) : fraction? rest = some ([], rest) := by
  rw [fraction?]
  rintro after rfl
  rcases closes '.' rfl with h | h | h <;> cases h

theorem exponent?_of_closes (closes : Closes rest) : exponent? rest = some ([], rest) := by
  cases rest with
  | nil => rfl
  | cons c after =>
    have other : (decide (c = 'e') || decide (c = 'E')) = false := by
      rcases closes c rfl with rfl | rfl | rfl <;> decide
    rw [exponent?, if_neg (by simp [other])]

/-- The spelling of an integer is all that is taken of a number. -/
theorem scan_print (n : Int) (closes : Closes rest) :
    scan (Integer.print n ++ rest) = some (Integer.print n, rest) := by
  cases n with
  | ofNat n =>
    have whole := whole?_toDigits n closes
    cases first : Nat.toDigits 10 n with
    | nil => exact absurd first Nat.toDigits_ne_nil
    | cons d ds =>
      have digit : d.isDigit = true := isDigit_of_mem_toDigits (first ▸ List.mem_cons_self)
      have unsigned : d ≠ '-' := by
        rintro rfl
        cases digit
      rw [first] at whole
      rw [Integer.print, first, scan]
      · rw [whole]
        simp [fraction?_of_closes closes, exponent?_of_closes closes]
      · intro after dash
        exact unsigned (List.cons.inj dash).1
  | negSucc n =>
    rw [Integer.print, List.cons_append, scan]
    simp [whole?_toDigits (n + 1) closes, fraction?_of_closes closes, exponent?_of_closes closes]

/-- An integer begins with a digit or a dash. -/
theorem exists_print (n : Int) :
    ∃ c cs, Integer.print n = c :: cs ∧ (c.isDigit = true ∨ c = '-') := by
  cases n with
  | ofNat n =>
    cases first : Nat.toDigits 10 n with
    | nil => exact absurd first Nat.toDigits_ne_nil
    | cons d ds =>
      exact ⟨d, ds, first, Or.inl (isDigit_of_mem_toDigits (first ▸ List.mem_cons_self))⟩
  | negSucc n => exact ⟨'-', _, rfl, Or.inr rfl⟩

end Number

/-- Documents as the writer puts them together. -/
inductive Written : Json → Prop
  | null : Written .null
  | bool (b : Bool) : Written (.bool b)
  | integer (n : Int) : Written (ofInt n)
  | string (s : String) : Written (ofString s)
  | array {items : List Json} (each : ∀ v ∈ items, Written v) : Written (.array items)
  | object {fields : List (String × Json)} (each : ∀ field ∈ fields, Written field.2) :
    Written (ofFields fields)

theorem Written.ofList {α : Type} {item : α → Json} {l : List α}
    (each : ∀ a ∈ l, Written (item a)) : Written (Json.ofList item l) := by
  apply Written.array
  intro v hv
  obtain ⟨a, ha, rfl⟩ := List.mem_map.mp hv
  exact each a ha

/-- The reader takes the value, and no more, from the front of a text that it was written to. -/
def Reads (v : Json) : Prop :=
  ∀ fuel rest, Closes rest → 2 * v.toChars.length ≤ fuel →
    scanValue (fuel + 1) (v.toChars ++ rest) = (v, some rest)

section Scalar

variable {c : Char} {cs : List Char}

theorem skipBlanks_of_not_blank (h : isBlank c = false) : skipBlanks (c :: cs) = c :: cs := by
  rw [skipBlanks, List.dropWhile_cons_of_neg (ne_true_of_eq_false h)]

theorem scanValue_of_scalar {fuel : Nat} (blank : isBlank c = false) (bracket : c ≠ '[')
    (brace : c ≠ '{') : scanValue (fuel + 1) (c :: cs) = scanScalar (c :: cs) := by
  rw [scanValue, skipBlanks_of_not_blank blank]
  split
  · next same => exact absurd (List.cons.inj same).1 bracket
  · next same => exact absurd (List.cons.inj same).1 brace
  · rfl

/-- What an integer begins with begins nothing else. -/
theorem ne_of_numeric (numeric : c.isDigit = true ∨ c = '-') {d : Char} (other : d.isDigit = false)
    (unsigned : d ≠ '-') : c ≠ d := by
  rintro rfl
  rcases numeric with digit | dash
  · cases other.symm.trans digit
  · exact unsigned dash

theorem isBlank_of_numeric (numeric : c.isDigit = true ∨ c = '-') : isBlank c = false := by
  have blank : ∀ d, isBlank d = true → d.isDigit = false ∧ d ≠ '-' := by
    intro d h
    simp only [isBlank, Bool.or_eq_true, decide_eq_true_eq] at h
    rcases h with ((rfl | rfl) | rfl) | rfl <;> decide
  by_contra h
  obtain ⟨other, unsigned⟩ := blank c (by simpa using h)
  exact ne_of_numeric numeric other unsigned rfl

theorem scanValue_of_number {fuel : Nat} {lexeme rest : List Char}
    (numeric : c.isDigit = true ∨ c = '-')
    (scanned : Number.scan (c :: cs) = some (lexeme, rest)) :
    scanValue (fuel + 1) (c :: cs) = (.number (.ofList lexeme), some rest) := by
  have other : ∀ {d : Char} {after : List Char}, d.isDigit = false → d ≠ '-' →
      c :: cs = d :: after → False := fun digit dash same =>
    ne_of_numeric numeric digit dash (List.cons.inj same).1
  rw [scanValue_of_scalar (isBlank_of_numeric numeric)
    (ne_of_numeric numeric (by decide) (by decide))
    (ne_of_numeric numeric (by decide) (by decide)), scanScalar]
  · rw [scanned]
  · exact fun _ => other (by decide) (by decide)
  · exact fun _ => other (by decide) (by decide)
  · exact fun _ => other (by decide) (by decide)
  · exact fun _ => other (by decide) (by decide)

end Scalar

theorem reads_null : Reads .null := fun _ _ _ _ => rfl

theorem reads_bool (b : Bool) : Reads (.bool b) := fun _ _ _ _ => by cases b <;> rfl

theorem reads_integer (n : Int) : Reads (ofInt n) := by
  intro fuel rest closes _
  have scanned := Number.scan_print n closes
  obtain ⟨c, cs, first, numeric⟩ := Number.exists_print n
  have spelled : (ofInt n).toChars = Integer.print n := String.toList_ofList
  rw [spelled, first, List.cons_append]
  rw [first, List.cons_append] at scanned
  rw [scanValue_of_number numeric scanned, ofInt, first]

theorem quoted_append (s : String) (rest : List Char) :
    quoted (.ofList (Quoted.escape s.toList)) ++ rest =
      '"' :: (Quoted.escape s.toList ++ '"' :: rest) := by
  simp [quoted]

theorem reads_string (s : String) : Reads (ofString s) := by
  intro fuel rest _ _
  rw [ofString, toChars, quoted_append, scanValue_of_scalar (by decide) (by decide) (by decide),
    scanScalar, Quoted.scan_escape]

/-- Nothing that is written begins with a blank, or as an array ends. -/
theorem Written.exists_first {v : Json} (h : Written v) :
    ∃ c cs, v.toChars = c :: cs ∧ isBlank c = false ∧ c ≠ ']' := by
  cases h with
  | null => exact ⟨'n', _, rfl, by decide, by decide⟩
  | bool b =>
    cases b
    · exact ⟨'f', _, rfl, by decide, by decide⟩
    · exact ⟨'t', _, rfl, by decide, by decide⟩
  | integer n =>
    obtain ⟨c, cs, first, numeric⟩ := Number.exists_print n
    have spelled : (ofInt n).toChars = Integer.print n := String.toList_ofList
    exact ⟨c, cs, spelled.trans first, isBlank_of_numeric numeric,
      ne_of_numeric numeric (by decide) (by decide)⟩
  | string s => exact ⟨'"', _, rfl, by decide, by decide⟩
  | array each => exact ⟨'[', _, rfl, by decide, by decide⟩
  | object each => exact ⟨'{', _, rfl, by decide, by decide⟩

section Parts

variable {rest : List Char}

theorem itemChars_cons_cons (v w : Json) (more : List Json) :
    itemChars (v :: w :: more) = v.toChars ++ ',' :: itemChars (w :: more) := rfl

/-- The items of an array are read up to its closing bracket. -/
theorem scanItems_itemChars {items : List Json} (some_item : items ≠ [])
    (each : ∀ v ∈ items, v.Reads) {fuel : Nat} (enough : 2 * (itemChars items).length ≤ fuel) :
    scanItems (fuel + 2) (itemChars items ++ ']' :: rest) = (items, some rest) := by
  induction items generalizing fuel with
  | nil => exact absurd rfl some_item
  | cons v more ih =>
    obtain ⟨first, others⟩ := List.forall_mem_cons.mp each
    cases more with
    | nil =>
      have read := first fuel (']' :: rest) (closes_cons (by decide)) enough
      have alone : itemChars [v] = v.toChars := rfl
      rw [alone, scanItems, read]
      rfl
    | cons w more =>
      rw [itemChars_cons_cons, List.length_append, List.length_cons] at enough
      have read := first fuel (',' :: (itemChars (w :: more) ++ ']' :: rest))
        (closes_cons (by decide)) (by omega)
      obtain ⟨fuel, rfl⟩ := Nat.exists_eq_succ_of_ne_zero (by omega : fuel ≠ 0)
      have left : 2 * (itemChars (w :: more)).length ≤ fuel := by omega
      have later := ih (List.cons_ne_nil w more) others left
      rw [itemChars_cons_cons, List.append_assoc, List.cons_append, scanItems, read]
      simp only [skipBlanks_of_not_blank (by decide : isBlank ',' = false), later]

/-- A member with its name as it is written. -/
def spelled (field : String × Json) : String × Json :=
  (.ofList (Quoted.escape field.1.toList), field.2)

theorem ofFields_eq (fields : List (String × Json)) :
    ofFields fields = .object (fields.map spelled) := rfl

section Member

variable {field : String × Json} {fuel : Nat}

/-- After a member and a comma, the reader goes on to the next member. -/
theorem scanMembers_comma (read : scanValue fuel (field.2.toChars ++ ',' :: rest) =
      (field.2, some (',' :: rest))) :
    scanMembers (fuel + 1) (quoted (spelled field).1 ++ ':' :: (field.2.toChars ++ ',' :: rest)) =
      (spelled field :: (scanMembers fuel rest).1, (scanMembers fuel rest).2) := by
  have quote : isBlank '"' = false := by decide
  have colon : isBlank ':' = false := by decide
  have comma : isBlank ',' = false := by decide
  rw [spelled, quoted_append, scanMembers]
  simp only [skipBlanks_of_not_blank quote, Quoted.scan_escape, skipBlanks_of_not_blank colon, read,
    skipBlanks_of_not_blank comma]

/-- A member with a closing brace behind it is the last one. -/
theorem scanMembers_brace (read : scanValue fuel (field.2.toChars ++ '}' :: rest) =
      (field.2, some ('}' :: rest))) :
    scanMembers (fuel + 1) (quoted (spelled field).1 ++ ':' :: (field.2.toChars ++ '}' :: rest)) =
      ([spelled field], some rest) := by
  have quote : isBlank '"' = false := by decide
  have colon : isBlank ':' = false := by decide
  have brace : isBlank '}' = false := by decide
  rw [spelled, quoted_append, scanMembers]
  simp only [skipBlanks_of_not_blank quote, Quoted.scan_escape, skipBlanks_of_not_blank colon, read,
    skipBlanks_of_not_blank brace]

end Member

/-- The members of an object are read up to its closing brace. -/
theorem scanMembers_memberChars {fields : List (String × Json)} (some_field : fields ≠ [])
    (each : ∀ field ∈ fields, field.2.Reads) {fuel : Nat}
    (enough : 2 * (memberChars (fields.map spelled)).length ≤ fuel) :
    scanMembers (fuel + 2) (memberChars (fields.map spelled) ++ '}' :: rest) =
      (fields.map spelled, some rest) := by
  induction fields generalizing fuel with
  | nil => exact absurd rfl some_field
  | cons field more ih =>
    obtain ⟨first, others⟩ := List.forall_mem_cons.mp each
    cases more with
    | nil =>
      have alone : memberChars ([field].map spelled) =
          quoted (spelled field).1 ++ ':' :: field.2.toChars := rfl
      rw [alone, List.length_append, List.length_cons] at enough
      have read := first fuel ('}' :: rest) (closes_cons (by decide)) (by omega)
      rw [alone, List.append_assoc, List.cons_append, scanMembers_brace read]
      rfl
    | cons other more =>
      have several : memberChars ((field :: other :: more).map spelled) =
          quoted (spelled field).1 ++ ':' :: field.2.toChars ++
            ',' :: memberChars ((other :: more).map spelled) := rfl
      rw [several] at enough ⊢
      simp only [List.length_append, List.length_cons] at enough
      have read := first fuel (',' :: (memberChars ((other :: more).map spelled) ++ '}' :: rest))
        (closes_cons (by decide)) (by omega)
      obtain ⟨fuel, rfl⟩ := Nat.exists_eq_succ_of_ne_zero (by omega : fuel ≠ 0)
      have left : 2 * (memberChars ((other :: more).map spelled)).length ≤ fuel := by omega
      have later := ih (List.cons_ne_nil other more) others left
      simp only [List.append_assoc, List.cons_append]
      rw [scanMembers_comma read, later]
      rfl

end Parts

theorem reads_array {items : List Json} (written : ∀ v ∈ items, v.Written)
    (each : ∀ v ∈ items, v.Reads) : (Json.array items).Reads := by
  intro fuel rest _ enough
  cases items with
  | nil => rfl
  | cons v more =>
    have chars : (Json.array (v :: more)).toChars ++ rest =
        '[' :: (itemChars (v :: more) ++ ']' :: rest) := by
      simp [toChars]
    have length : (Json.array (v :: more)).toChars.length =
        (itemChars (v :: more)).length + 2 := by
      simp [toChars]
    obtain ⟨fuel, rfl⟩ : ∃ n, fuel = n + 2 := ⟨fuel - 2, by omega⟩
    have read : scanItems (fuel + 2) (itemChars (v :: more) ++ ']' :: rest) =
        (v :: more, some rest) :=
      scanItems_itemChars (List.cons_ne_nil v more) each (by omega)
    -- the first item does not begin as an array ends, so the reader goes on to the items
    obtain ⟨c, cs, first, blank, bracket⟩ := (written v List.mem_cons_self).exists_first
    obtain ⟨after, begins⟩ : ∃ after, itemChars (v :: more) ++ ']' :: rest = c :: after := by
      cases more with
      | nil => exact ⟨_, by rw [itemChars, first, List.cons_append]⟩
      | cons w more => exact ⟨_, by rw [itemChars_cons_cons, first]; rfl⟩
    rw [chars, scanValue, skipBlanks_of_not_blank (by decide)]
    rw [begins] at read ⊢
    simp only [skipBlanks_of_not_blank blank]
    split
    · next same => exact absurd (List.cons.inj same).1 bracket
    · rw [read]

theorem reads_ofFields {fields : List (String × Json)} (each : ∀ field ∈ fields, field.2.Reads) :
    (ofFields fields).Reads := by
  intro fuel rest _ enough
  cases fields with
  | nil => rfl
  | cons field more =>
    have chars : (ofFields (field :: more)).toChars ++ rest =
        '{' :: (memberChars ((field :: more).map spelled) ++ '}' :: rest) := by
      simp [ofFields_eq, toChars]
    have length : (ofFields (field :: more)).toChars.length =
        (memberChars ((field :: more).map spelled)).length + 2 := by
      simp [ofFields_eq, toChars]
    obtain ⟨fuel, rfl⟩ : ∃ n, fuel = n + 2 := ⟨fuel - 2, by omega⟩
    have read : scanMembers (fuel + 2) (memberChars ((field :: more).map spelled) ++ '}' :: rest) =
        ((field :: more).map spelled, some rest) :=
      scanMembers_memberChars (List.cons_ne_nil field more) each (by omega)
    obtain ⟨after, begins⟩ :
        ∃ after, memberChars ((field :: more).map spelled) ++ '}' :: rest = '"' :: after := by
      cases more with
      | nil => exact ⟨_, rfl⟩
      | cons other more => exact ⟨_, rfl⟩
    rw [chars, scanValue, skipBlanks_of_not_blank (by decide)]
    rw [begins] at read ⊢
    simp only [skipBlanks_of_not_blank (by decide : isBlank '"' = false)]
    split
    · next same => exact absurd (List.cons.inj same).1 (by decide)
    · rw [read]
      rfl

/-- What is written is read. -/
theorem Written.reads {v : Json} (h : v.Written) : v.Reads := by
  induction h with
  | null => exact reads_null
  | bool b => exact reads_bool b
  | integer n => exact reads_integer n
  | string s => exact reads_string s
  | array each ih => exact reads_array each ih
  | object _ ih => exact reads_ofFields ih

/-- The text of a document is read to its end, and gives the document. -/
theorem Written.read_write {v : Json} (h : v.Written) : read v.write = ⟨v, true⟩ := by
  have chars : v.write.toList = v.toChars := String.toList_ofList
  have scanned := h.reads (2 * v.toChars.length + 1) [] closes_nil (Nat.le_succ _)
  rw [List.append_nil] at scanned
  rw [read, chars, scanned]
  rfl

end Annals.Json
