import Annals.Scope
import Annals.Store.Error

/-!
# Why a question is not answered
-/

namespace Annals

/-- The reasons for which inference or an alias search gives no answer. -/
inductive EngineError where
  /-- A store refused. -/
  | store (cause : StoreError)
  /-- A rule that was set off still has several premises to look up. -/
  | unsupportedBody (rule : String) (remaining : Nat)
  /-- The two stores were to be queried in different modes. -/
  | scopeMismatch (dataset language : Mode)
  /-- The rule has no premise. -/
  | emptyBody (rule : String)
  /-- The rule has no conclusion. -/
  | emptyHead (rule : String)
  /-- The text names no way of reconciling rows. -/
  | unknownReconcile (text : String)
  /-- A variable was named as an identity predicate. -/
  | variableIdentity (predicate : Term)
  /-- The document does not describe what it should. -/
  | unreadable (cause : Json.DecodeError)
  /-- There is no such file. -/
  | missingFile
  deriving DecidableEq

namespace EngineError

/-- The text that reports the error; a missing file has none. -/
def message? : EngineError → Option String
  | store cause => cause.message?
  | unsupportedBody rule remaining =>
    some <| s!"unsupported multi-pattern body: rule '{rule}' has {remaining} unresolved body"
      ++ " patterns"
  | scopeMismatch dataset language =>
    some <| "scope mismatch: dataset store queried in " ++ dataset.display
      ++ " mode, language store in " ++ language.display ++ " mode"
  | emptyBody rule => some s!"invalid rule: rule '{rule}' has an empty body"
  | emptyHead rule => some s!"invalid rule: rule '{rule}' has an empty head"
  | unknownReconcile text =>
    some <| s!"configuration error: unknown reconcile mode '{text}'"
      ++ " (expected canonicalize or allCombinations)"
  | variableIdentity predicate =>
    some s!"configuration error: identity predicate '{predicate}' is a variable"
  | unreadable cause => cause.message?
  | missingFile => none

/-- The error lies in the rules or the settings and not in the data or a store. -/
def isConfiguration : EngineError → Bool
  | unsupportedBody .. | emptyBody _ | emptyHead _ | unknownReconcile _ | variableIdentity _ => true
  | _ => false

end EngineError

end Annals
