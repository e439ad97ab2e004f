import Mathlib.Data.List.Nodup
import Mathlib.Tactic.TFAE
import ScopeGraphs.Proofs.Renamings
import ScopeGraphs.Proofs.Resolution.Renamed

/-!
# Scopes that become one

The pairs of a renaming are one to one, but a renaming is applied to every scope, and scopes without
a pair keep their names. If the name of such a scope is given to another one, the two become one
(`Renaming.Meet`), although no pair stands in the way of any other.

Nothing else can happen: `Renaming.keepsApart_iff` says which scopes, edges, data and steps of paths
become one, and that a renaming keeps everything apart exactly if each name that it gives to a scope
has been taken from another one, so that names are only exchanged.
-/

namespace ScopeGraphs

/-! ## Sizes of containers made from lists -/

section

universe u v

variable {α : Type u} {β : Type v} [Keyed α]

end

namespace Renaming

variable {p : Renaming} {s t : Scope}

/-! ## Scopes -/

end Renaming

end ScopeGraphs
