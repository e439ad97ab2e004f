import ScopeGraphs.Renaming

/-!
# Verdicts

The outcome of a confirmation: the answers still hold, up to a renaming of the scopes they mention,
or they do not.
-/

namespace ScopeGraphs

/-- Whether previous answers still hold. -/
inductive Verdict where
  /-- They do, with these scopes renamed. -/
  | confirm (p : Renaming)
  /-- They do not, or it cannot be told. -/
  | deny
  deriving DecidableEq

namespace Verdict

/-- They hold as they are. -/
def confirmed : Verdict := confirm .identity

instance : Inhabited Verdict := ⟨confirmed⟩

/-- Whether the answers hold. -/
def isConfirmed : Verdict → Bool
  | confirm _ => true
  | deny => false

/-- Both hold, under renamings that agree. -/
def and : Verdict → Verdict → Verdict
  | confirm p, confirm q => ((p.merge? q).map confirm).getD deny
  | _, _ => deny

/-- The same verdict without its renaming. -/
def withoutRenaming : Verdict → Verdict
  | confirm _ => confirmed
  | deny => deny

/-- The verdict on something that must be empty. -/
def ofEmpty (empty : Bool) : Verdict := if empty then confirmed else deny

end Verdict

end ScopeGraphs
