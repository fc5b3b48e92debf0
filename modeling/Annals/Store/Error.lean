import Annals.Json.Decoder
import Annals.Triple

/-!
# Why a store refuses
-/

namespace Annals

/-- The reasons for which a store gives no answer. -/
inductive StoreError where
  /-- The store could not do its work. -/
  | failed (detail : String)
  /-- The store was closed before. -/
  | closed
  /-- The version is not one that may still change. -/
  | stale (version latest : Version)
  /-- The row does not say whether its fact is asserted or retracted. -/
  | unflagged (row : Triple)
  /-- The row's fact has a variable in it. -/
  | unbound (row : Triple)
  /-- The row cannot be stored for another reason. -/
  | rejected (detail : String)
  /-- The document does not describe a store. -/
  | unreadable (cause : Json.DecodeError)
  /-- Any other reason. -/
  | other (detail : String)
  deriving DecidableEq

namespace StoreError

/-- The text that reports the error. An unreadable document has one only if it contradicts
itself. -/
def message? : StoreError → Option String
  | failed detail => some ("Store error: " ++ detail)
  | closed => some "Store is closed"
  | stale version latest =>
    some s!"Invalid version {version}: store is already at version {latest}"
  | unflagged row => some ("Invalid triple: missing addition flag: " ++ row.display)
  | unbound row => some ("Invalid triple: variables cannot be stored: " ++ row.display)
  | rejected detail => some ("Invalid triple: " ++ detail)
  | unreadable cause => cause.message?
  | other detail => some detail

end StoreError

end Annals
