import ScopeGraphs.Proofs.Confirm.Predicates
import ScopeGraphs.Proofs.Renaming.Merging

/-!
# Verdicts that agree

Verdicts are combined query by query, change by change and unit by unit. In which order that
happens must not matter, and it does not, because the renamings that confirmations come with are
merged into their union or not at all (`Renaming.merge?_isOrderIndependent`).
-/

namespace ScopeGraphs

namespace Verdict

/-- A refused merge denies once and for all. -/
theorem and_confirm (merged : Option Renaming) (r : Renaming) :
    ((merged.map confirm).getD deny).and (confirm r) =
      ((merged.bind fun m ↦ m.merge? r).map confirm).getD deny := by
  cases merged <;> rfl

theorem confirm_and (p : Renaming) (merged : Option Renaming) :
    (confirm p).and ((merged.map confirm).getD deny) =
      ((merged.bind fun m ↦ p.merge? m).map confirm).getD deny := by
  cases merged <;> rfl

protected theorem and_comm (v w : Verdict) : v.and w = w.and v := by
  cases v with
  | deny => rw [deny_and, and_deny]
  | confirm p =>
    cases w with
    | deny => rw [deny_and, and_deny]
    | confirm q => rw [Verdict.and, Verdict.and, Renaming.merge?_comm]

protected theorem and_assoc (u v w : Verdict) : (u.and v).and w = u.and (v.and w) := by
  cases u with
  | deny => rw [deny_and, deny_and, deny_and]
  | confirm p =>
    cases v with
    | deny => rw [deny_and, and_deny, deny_and]
    | confirm q =>
      cases w with
      | deny => rw [and_deny, and_deny, and_deny]
      | confirm r =>
        have hleft := and_confirm (p.merge? q) r
        have hright := confirm_and p (q.merge? r)
        rw [Renaming.merge?_assoc] at hleft
        exact hleft.trans hright.symm

theorem confirmed_and (v : Verdict) : confirmed.and v = v := by
  rw [Verdict.and_comm, and_confirmed]

end Verdict

/-- **Merging does not depend on any order.** Two renamings can be merged exactly if the union of
their pairs is one to one, and are then merged into this union. So merging is commutative,
associative with refusal absorbing, idempotent, and neutral on the identity, and a renaming made
from pairs depends on the set of these pairs only. Verdicts are combined in the same way, where the
plain confirmation is neutral and denial is absorbing. -/
theorem Renaming.merge?_isOrderIndependent :
    (∀ p q : Renaming, ((p.merge? q).isSome = true ↔ IsOneToOne (p.pairSet ∪ q.pairSet)) ∧
        ∀ r, p.merge? q = some r ↔ r.pairSet = p.pairSet ∪ q.pairSet) ∧
      (∀ p q : Renaming, p.merge? q = q.merge? p) ∧
      (∀ p q r : Renaming, ((p.merge? q).bind fun m ↦ m.merge? r) =
        (q.merge? r).bind fun m ↦ p.merge? m) ∧
      (∀ p : Renaming, p.merge? p = some p) ∧
      (∀ p : Renaming, p.merge? identity = some p ∧ identity.merge? p = some p) ∧
      (∀ pairs, ((of? pairs).isSome = true ↔ IsOneToOne {e | e ∈ pairs}) ∧
        ∀ p, of? pairs = some p ↔ p.pairSet = {e | e ∈ pairs}) ∧
      (∀ pairs pairs', (∀ e, e ∈ pairs ↔ e ∈ pairs') → of? pairs = of? pairs') ∧
      (∀ v w : Verdict, v.and w = w.and v) ∧
      (∀ u v w : Verdict, (u.and v).and w = u.and (v.and w)) ∧
      (∀ v : Verdict, v.and .confirmed = v ∧ Verdict.confirmed.and v = v) ∧
      ∀ v : Verdict, v.and .deny = .deny ∧ Verdict.deny.and v = .deny :=
  ⟨fun _ _ ↦ ⟨merge?_isSome_iff, fun _ ↦ merge?_eq_some_iff⟩, merge?_comm, merge?_assoc,
    merge?_self, fun p ↦ ⟨p.merge?_identity, p.identity_merge?⟩,
    fun _ ↦ ⟨of?_isSome_iff, fun _ ↦ of?_eq_some_iff⟩, fun _ _ ↦ of?_congr, Verdict.and_comm,
    Verdict.and_assoc, fun v ↦ ⟨v.and_confirmed, v.confirmed_and⟩,
    fun v ↦ ⟨v.and_deny, v.deny_and⟩⟩

end ScopeGraphs
