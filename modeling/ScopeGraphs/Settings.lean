import ScopeGraphs.Fault

/-!
# Settings

Whether units may reuse previous results, and how a unit finds out that its previous result still
holds. Settings can be read from the two variables `DOTSCOPE_INCREMENTAL` and
`DOTSCOPE_CONFIRMATION_MODE`; what they say is ignored where it makes no sense.
-/

namespace ScopeGraphs

/-- How a unit finds out that its previous result still holds. -/
inductive ConfirmationMode where
  /-- By asking every recorded query again. -/
  | trivial
  /-- By looking at what changed in the part of the graph that queries could see. -/
  | simpleEnvironment
  deriving DecidableEq, Inhabited, Repr

namespace ConfirmationMode

/-- The name of a mode. -/
def text : ConfirmationMode → String
  | trivial => "trivial"
  | simpleEnvironment => "simple_environment"

/-- All modes, in the order of their checkpoint tags. -/
def all : List ConfirmationMode := [trivial, simpleEnvironment]

/-- The mode with exactly the given name. -/
def ofText? (s : String) : Option ConfirmationMode := all.find? fun m ↦ m.text = s

/-- Reads a mode, in any mixture of upper and lower case ASCII letters and with a hyphen in place
of the underscore if one likes. -/
def parse (s : String) : Except Fault ConfirmationMode :=
  let lower := s.map Char.toLower
  if lower = "simple-environment" then .ok simpleEnvironment
  else
    match ofText? lower with
    | some m => .ok m
    | none => .error (.config ("unknown confirmation mode '" ++ lower ++ "'"))

end ConfirmationMode

/-- The settings of a run. -/
structure Settings where
  /-- Whether units may reuse previous results. -/
  incremental : Bool
  /-- How they find out that these still hold. -/
  confirmationMode : ConfirmationMode
  deriving DecidableEq, Repr

namespace Settings

/-- Every unit runs. -/
def nonIncremental : Settings := ⟨false, .simpleEnvironment⟩

instance : Inhabited Settings := ⟨nonIncremental⟩

/-- Units may reuse previous results. -/
def withReuse (mode : ConfirmationMode) : Settings := ⟨true, mode⟩

/-- Whether running units are compared with their previous runs. -/
def usesDiffer (s : Settings) : Bool :=
  s.incremental && s.confirmationMode = .simpleEnvironment

/-- Reads a switch, in any mixture of upper and lower case ASCII letters. -/
def parseSwitch? (s : String) : Option Bool :=
  let lower := s.map Char.toLower
  if ["1", "true", "yes", "on"].contains lower then some true
  else if ["0", "false", "no", "off"].contains lower then some false
  else none

/-- The settings that the two variables describe; a variable that is missing or makes no sense
leaves the default. -/
def ofVariables (incremental mode : Option String) : Settings where
  incremental := (incremental.bind parseSwitch?).getD nonIncremental.incremental
  confirmationMode :=
    (mode.bind fun s ↦ (ConfirmationMode.parse s).toOption).getD nonIncremental.confirmationMode

end Settings

end ScopeGraphs
