import ScopeGraphs.Settings
import ScopeGraphs.Text.Json

/-!
# Scopes and settings as documents

A record is written as an object with its fields in order. When it is read, fields may come in any
order and unknown ones are passed over, but no field may occur twice; an array with the fields in
order is accepted as well. A scope needs both of its fields, settings have defaults.
-/

namespace ScopeGraphs

namespace Json

/-- The value of a field that may be missing: nothing if it occurs twice or has another form. -/
def optionalField {α : Type} (fields : List (Option String × Json)) (key : String)
    (read : Json → Option α) : Option (Option α) :=
  match field fields key with
  | some [] => some none
  | some [v] => (read v).map some
  | _ => none

end Json

/-! ## Scopes -/

namespace Scope

/-- A scope as a document. -/
def toJson (s : Scope) : String :=
  "\x7b\"owner\":" ++ Json.quote s.owner.text ++ ",\"name\":" ++ Json.quote s.name ++ "\x7d"

/-- The scope that a JSON value describes. -/
def ofJson? : Json → Option Scope
  | .array [owner, name] => do some ⟨⟨← owner.asText?⟩, ← name.asText?⟩
  | .object fields => do
    let owner ← Json.optionalField fields "owner" Json.asText?
    let name ← Json.optionalField fields "name" Json.asText?
    some ⟨⟨← owner⟩, ← name⟩
  | _ => none

end Scope

/-! ## Settings -/

/-- The mode that a JSON value names: its name, or an object with the name as the key of null. -/
def ConfirmationMode.ofJson? : Json → Option ConfirmationMode
  | .text s => s.bind ofText?
  | .object [(some name, .null)] => ofText? name
  | _ => none

namespace Settings

/-- Settings as a document. -/
def toJson (s : Settings) : String :=
  "\x7b\"incremental\":" ++ (if s.incremental then "true" else "false") ++
    ",\"confirmation_mode\":" ++ Json.quote s.confirmationMode.text ++ "\x7d"

/-- The settings that a JSON value describes. -/
def ofJson? : Json → Option Settings
  | .array [] => some nonIncremental
  | .array [incremental] => do
    some { nonIncremental with incremental := ← incremental.asBool? }
  | .array [incremental, mode] => do
    some ⟨← incremental.asBool?, ← ConfirmationMode.ofJson? mode⟩
  | .object fields => do
    let incremental ← Json.optionalField fields "incremental" Json.asBool?
    let mode ← Json.optionalField fields "confirmation_mode" ConfirmationMode.ofJson?
    some ⟨incremental.getD nonIncremental.incremental,
      mode.getD nonIncremental.confirmationMode⟩
  | _ => none

end Settings

end ScopeGraphs
