import ScopeGraphs.Proofs.Engine.Courses
import ScopeGraphs.Proofs.Units.Sharing

/-!
# No edge comes too late

In a run without reuse, the owner of a scope keeps a label open for as long as edges under it may
still arrive. What the owner counts on from another unit, by its tokens and by the messages that are
still to come to it, is never less than what that unit still keeps open for itself, and a library
that has not been started is counted on to initialise every scope that it was handed.
-/

namespace ScopeGraphs

variable {γ α : Type}

/-- Whether units of a kind serve a library. -/
def UnitKind.IsLibrary : UnitKind γ → Prop
  | library _ => True
  | _ => False

namespace Core

/-- What a unit counts on, by its tokens. -/
def tally (c : Core γ) (id : UnitId) : Tally :=
  ((c.units[id]?).elim TokenBag.empty UnitNode.waits).tally

/-- What a unit will count on when it has handled everything that comes to it. -/
def balance (c : Core γ) (ms : List (UnitId × Message)) (id : UnitId) : Tally :=
  (c.tally id).through (c.coming ms id)

/-- A unit is counted on to initialise those of some scopes that belong to other units. -/
def CountsOn (c : Core γ) (ms : List (UnitId × Message)) (id : UnitId) (roots : List Scope) : Prop :=
  ∀ r ∈ roots, r.owner ≠ id → ∀ l, 0 < (c.balance ms r.owner id r l).inits

/-- A unit is to be started, and if it serves a library, it is counted on to initialise the scopes
that it will be handed. -/
def Awaits (c : Core γ) (ms : List (UnitId × Message)) (u : UnitNode γ) : Prop :=
  ∃ roots, (c.coming ms u.id).findSome? Message.roots? = some roots ∧
    (u.kind.IsLibrary → c.CountsOn ms u.id roots)

/-- What is known of shared scopes in a run without reuse while units are still to be added and
messages to be sent. -/
structure Punctual (c : Core γ) (us : List (UnitNode γ)) (ms : List (UnitId × Message)) : Prop where
  housed : c.Housed
  settings : c.setup.settings.incremental = false
  known : ∀ (id : UnitId) (u : UnitNode γ), c.units[id]? = some u →
    u.phase ≠ .undecided ∧ u.kind ≠ .phantom true
  joining : ∀ u ∈ us, u.IsBlank ∧ u.kind ≠ .phantom true ∧ (c.units[u.id]? = none → c.Awaits ms u)
  unstarted : ∀ id : UnitId, c.units[id]? = none → (∀ u ∈ us, u.id ≠ id) →
    (c.coming ms id).findSome? Message.roots? = none
  waiting : ∀ (id : UnitId) (u : UnitNode γ), c.units[id]? = some u → u.phase = .created →
    c.Awaits ms u
  silent : ∀ id : UnitId, (∀ u, c.units[id]? = some u → u.phase = .created) →
    ∀ o s slots sharing, .initShare id s slots sharing ∉ c.coming ms o
  covered : ∀ o : UnitId, (c.tally o).Covers o (c.coming ms o)
  kept : ∀ (id : UnitId) (u : UnitNode γ), c.units[id]? = some u → ∀ (s : Scope) (l : Label),
    s.owner ≠ id → u.shares s (.edge l) = true → 0 < (c.balance ms s.owner id s l).opens

variable {c c' : Core γ} {us : List (UnitNode γ)} {ms : List (UnitId × Message)} {id : UnitId}
  {u v : UnitNode γ} {m : Message}

/-! ## Counting on -/

theorem coming_append (m : UnitId × Message) :
    c.coming (ms ++ [m]) id = c.coming ms id ++ if m.1 = id then [m.2] else [] := by
  rw [coming, coming, List.append_assoc]
  congr 1
  rw [sentTo, sentTo, List.filterMap_append]
  congr 1
  rw [List.filterMap_cons]
  split <;> simp_all

theorem coming_congr (hmail : c'.mail = c.mail) : c'.coming ms id = c.coming ms id := by
  rw [coming, coming, hmail]

theorem tally_of_some (hu : c.units[id]? = some u) : c.tally id = u.waits.tally := by
  rw [tally, hu]
  rfl

/-- A unit that is added holds no tokens, which is as much as a unit that does not exist holds. -/
theorem tally_addUnit (hblank : u.IsBlank) : (c.addUnit u).tally id = c.tally id := by
  rw [tally, units_addUnit, tally]
  cases c.units[id]? with
  | some w => rfl
  | none =>
    rw [Option.none_or]
    split
    · rw [Option.elim_some, hblank.waits]
      rfl
    · rfl

theorem balance_append (m : UnitId × Message) :
    c.balance (ms ++ [m]) id = if m.1 = id then (c.balance ms id).after m.2 else c.balance ms id := by
  rw [balance, coming_append, Tally.through_append]
  split <;> rfl

/-- Units that count on more than before will count on more when everything has come. -/
theorem balance_mono (hmail : c'.mail = c.mail) (h : (c.tally id).AtMost id (c'.tally id)) :
    (c.balance ms id).AtMost id (c'.balance ms id) := by
  rw [balance, balance, coming_congr hmail]
  exact h.through _

/-- A unit that is counted on still is, if nobody counts on it for less. -/
theorem CountsOn.mono {ms' : List (UnitId × Message)} {roots : List Scope}
    (h : c.CountsOn ms id roots) (hbalance : ∀ (r : Scope) (l : Label), r.owner ≠ id →
      (c.balance ms r.owner id r l).inits ≤ (c'.balance ms' r.owner id r l).inits) :
    c'.CountsOn ms' id roots :=
  fun r hr hne l ↦ Nat.lt_of_lt_of_le (h r hr hne l) (hbalance r l hne)

/-- A unit that is to be started still is, if nobody counts on it for less. -/
theorem Awaits.mono {ms' : List (UnitId × Message)} (h : c.Awaits ms u) (hid : v.id = u.id)
    (hkind : v.kind = u.kind) (hroots : ∀ roots,
      (c.coming ms u.id).findSome? Message.roots? = some roots →
        (c'.coming ms' u.id).findSome? Message.roots? = some roots)
    (hbalance : ∀ (r : Scope) (l : Label), r.owner ≠ u.id →
      (c.balance ms r.owner u.id r l).inits ≤ (c'.balance ms' r.owner u.id r l).inits) :
    c'.Awaits ms' v := by
  obtain ⟨roots, hsome, hlibrary⟩ := h
  refine ⟨roots, hid ▸ hroots roots hsome, fun hv ↦ ?_⟩
  rw [hid]
  exact (hlibrary (hkind ▸ hv)).mono hbalance

/-! ## Units change -/

/-- A unit has become another one of the same kind. Only a unit that was to be started or undecided
about reuse is so now. -/
structure Becomes (c : Core γ) (u v : UnitNode γ) (c' : Core γ) : Prop where
  old : c.units[u.id]? = some u
  units : ∀ k, c'.units[k]? = if u.id = k then some v else c.units[k]?
  setup : c'.setup = c.setup
  id : v.id = u.id
  kind : v.kind = u.kind
  phase : v.phase = .created ∨ v.phase = .undecided → v.phase = u.phase

namespace Becomes

variable {k : UnitId} {w : UnitNode γ}

theorem self (hb : c.Becomes u v c') : c'.units[u.id]? = some v := (hb.units u.id).trans (if_pos rfl)

theorem others (hb : c.Becomes u v c') (hk : u.id ≠ k) : c'.units[k]? = c.units[k]? :=
  (hb.units k).trans (if_neg hk)

theorem cases (hb : c.Becomes u v c') (hw : c'.units[k]? = some w) :
    u.id = k ∧ v = w ∨ c.units[k]? = some w := by
  by_cases heq : u.id = k
  · exact .inl ⟨heq, Option.some.inj (hb.self.symm.trans (heq ▸ hw))⟩
  · exact .inr ((hb.others heq).symm.trans hw)

theorem none (hb : c.Becomes u v c') (hk : c'.units[k]? = none) : u.id ≠ k ∧ c.units[k]? = none := by
  have hne : u.id ≠ k := by
    rintro rfl
    exact absurd (hb.self.symm.trans hk) nofun
  exact ⟨hne, (hb.others hne).symm.trans hk⟩

/-- A unit that is to be started was to be started before. -/
theorem before (hb : c.Becomes u v c') (hw : c'.units[k]? = some w) (hcreated : w.phase = .created) :
    ∃ w', c.units[k]? = some w' ∧ w'.phase = .created ∧ w.id = w'.id ∧ w.kind = w'.kind := by
  obtain ⟨rfl, rfl⟩ | hold := hb.cases hw
  · exact ⟨u, hb.old, (hb.phase (.inl hcreated)).symm.trans hcreated, hb.id, hb.kind⟩
  · exact ⟨w, hold, hcreated, rfl, rfl⟩

/-- If no unit of an identity has been started, none had been before. -/
theorem created (hb : c.Becomes u v c') (hk : ∀ w, c'.units[k]? = some w → w.phase = .created)
    (hw : c.units[k]? = some w) : w.phase = .created := by
  by_cases heq : u.id = k
  · obtain rfl := heq
    obtain rfl := Option.some.inj (hb.old.symm.trans hw)
    have hcreated := hk v hb.self
    exact (hb.phase (.inl hcreated)).symm.trans hcreated
  · exact hk w ((hb.others heq).trans hw)

theorem known (hb : c.Becomes u v c') (h : c.Punctual us ms) (hw : c'.units[k]? = some w) :
    w.phase ≠ .undecided ∧ w.kind ≠ .phantom true := by
  obtain ⟨rfl, rfl⟩ | hold := hb.cases hw
  · obtain ⟨hdecided, hphantom⟩ := h.known u.id u hb.old
    exact ⟨fun heq ↦ hdecided ((hb.phase (.inr heq)).symm.trans heq), hb.kind ▸ hphantom⟩
  · exact h.known k w hold

end Becomes

namespace Punctual

/-- A unit changes by itself: it counts on no less from others, and keeps open on scopes of others
only what their owners know of. -/
theorem changed (h : c.Punctual us ms) (hb : c.Becomes u v c') (hmail : c'.mail = c.mail)
    (htally : u.waits.tally.AtMost u.id v.waits.tally)
    (hkept : ∀ (s : Scope) (l : Label), s.owner ≠ u.id → v.shares s (.edge l) = true →
      0 < (c.balance ms s.owner u.id s l).opens) : c'.Punctual us ms := by
  have hmost (k : UnitId) : (c.tally k).AtMost k (c'.tally k) := by
    by_cases hk : u.id = k
    · obtain rfl := hk
      rw [tally_of_some hb.old, tally_of_some hb.self]
      exact htally
    · rw [tally, tally, hb.others hk]
      exact .refl _ _
  have hbalance (k : UnitId) : (c.balance ms k).AtMost k (c'.balance ms k) :=
    balance_mono hmail (hmost k)
  have hawaits {w w' : UnitNode γ} (hw : c.Awaits ms w) (hid : w'.id = w.id)
      (hkind : w'.kind = w.kind) : c'.Awaits ms w' :=
    hw.mono hid hkind (fun roots hroots ↦ coming_congr hmail ▸ hroots)
      fun r l hne ↦ (hbalance r.owner w.id (Ne.symm hne) r l).1
  exact
    { housed := h.housed.insert hb.old hb.units hb.id hmail
      settings := hb.setup ▸ h.settings
      known := fun k w hw ↦ hb.known h hw
      joining := fun w hw ↦ by
        obtain ⟨hblank, hphantom, hw⟩ := h.joining w hw
        exact ⟨hblank, hphantom, fun hk ↦ hawaits (hw (hb.none hk).2) rfl rfl⟩
      unstarted := fun k hk hus ↦ by
        rw [coming_congr hmail]
        exact h.unstarted k (hb.none hk).2 hus
      waiting := fun k w hw hcreated ↦ by
        obtain ⟨w', hw', hcreated, hid, hkind⟩ := hb.before hw hcreated
        exact hawaits (h.waiting k w' hw' hcreated) hid hkind
      silent := fun k hk o s slots sharing ↦ by
        rw [coming_congr hmail]
        exact h.silent k (fun w ↦ hb.created hk) o s slots sharing
      covered := fun o ↦ by
        rw [coming_congr hmail]
        exact (hmost o).covers (h.covered o)
      kept := fun k w hw s l hne hshares ↦ by
        have hless := (hbalance s.owner k (Ne.symm hne) s l).2
        obtain ⟨rfl, rfl⟩ | hold := hb.cases hw
        · exact Nat.lt_of_lt_of_le (hkept s l hne hshares) hless
        · exact Nat.lt_of_lt_of_le (h.kept k w hold s l hne hshares) hless }

/-- Nothing has become of units, and the same is still to come to them. -/
theorem of_coming_eq {ms' : List (UnitId × Message)} (h : c.Punctual us ms) (hhoused : c'.Housed)
    (hunits : c'.units = c.units) (hsetup : c'.setup = c.setup)
    (hcoming : ∀ k, c'.coming ms' k = c.coming ms k) : c'.Punctual us ms' := by
  have htally (k : UnitId) : c'.tally k = c.tally k := by rw [tally, tally, hunits]
  have hbalance (k : UnitId) : c'.balance ms' k = c.balance ms k := by
    rw [balance, balance, hcoming, htally]
  have hawaits {w : UnitNode γ} (hw : c.Awaits ms w) : c'.Awaits ms' w :=
    hw.mono rfl rfl (fun _ hroots ↦ (hcoming w.id).symm ▸ hroots)
      fun r _ _ ↦ Nat.le_of_eq (by rw [hbalance])
  exact
    { housed := hhoused
      settings := hsetup ▸ h.settings
      known := fun k w hw ↦ h.known k w (hunits ▸ hw)
      joining := fun w hw ↦ by
        obtain ⟨hblank, hphantom, hw⟩ := h.joining w hw
        exact ⟨hblank, hphantom, fun hk ↦ hawaits (hw (hunits ▸ hk))⟩
      unstarted := fun k hk hus ↦ by
        rw [hcoming]
        exact h.unstarted k (hunits ▸ hk) hus
      waiting := fun k w hw hcreated ↦ hawaits (h.waiting k w (hunits ▸ hw) hcreated)
      silent := fun k hk o s slots sharing ↦ by
        rw [hcoming]
        exact h.silent k (fun w hw ↦ hk w (hunits ▸ hw)) o s slots sharing
      covered := fun o ↦ by
        rw [hcoming, htally]
        exact h.covered o
      kept := fun k w hw s l hne hshares ↦ by
        rw [hbalance]
        exact h.kept k w (hunits ▸ hw) s l hne hshares }

/-- What concerns neither units nor their messages. -/
theorem other (h : c.Punctual us ms) (hunits : c'.units = c.units) (hsetup : c'.setup = c.setup)
    (hmail : c'.mail = c.mail) : c'.Punctual us ms :=
  h.of_coming_eq (h.housed.other hunits hmail) hunits hsetup fun _ ↦ coming_congr hmail

/-! ## Units join and messages are sent -/

/-- A unit that is added counts on nothing and keeps nothing open. -/
theorem joined (h : c.Punctual (u :: us) ms) : (c.addUnit u).Punctual us ms := by
  obtain ⟨hblank, hphantom, hu⟩ := h.joining u List.mem_cons_self
  have hunits (k : UnitId) : (c.addUnit u).units[k]? =
      (c.units[k]?).or (if u.id = k then some u else none) := c.units_addUnit u k
  have hnew {k : UnitId} {w : UnitNode γ} (hw : (c.addUnit u).units[k]? = some w) :
      c.units[k]? = some w ∨ c.units[k]? = none ∧ u.id = k ∧ u = w := units_addUnit_eq_some_iff.1 hw
  have hnone {k : UnitId} (hk : (c.addUnit u).units[k]? = none) : c.units[k]? = none ∧ u.id ≠ k := by
    rw [hunits, Option.or_eq_none_iff] at hk
    exact ⟨hk.1, fun heq ↦ absurd ((if_pos heq).symm.trans hk.2) (by simp)⟩
  have hcoming (k : UnitId) : (c.addUnit u).coming ms k = c.coming ms k := coming_addUnit u
  have htally (k : UnitId) : (c.addUnit u).tally k = c.tally k := tally_addUnit hblank
  have hbalance (k : UnitId) : (c.addUnit u).balance ms k = c.balance ms k := by
    rw [balance, balance, hcoming, htally]
  have hawaits {w : UnitNode γ} (hw : c.Awaits ms w) : (c.addUnit u).Awaits ms w :=
    hw.mono rfl rfl (fun _ hroots ↦ (hcoming w.id).symm ▸ hroots)
      fun r _ _ ↦ Nat.le_of_eq (by rw [hbalance])
  have hsetup : (c.addUnit u).setup = c.setup := by
    rw [addUnit]
    split <;> rfl
  exact
    { housed := h.housed.addUnit u
      settings := hsetup ▸ h.settings
      known := fun k w hw ↦ by
        rcases hnew hw with hold | ⟨-, -, rfl⟩
        · exact h.known k w hold
        · exact ⟨fun heq ↦ absurd (hblank.phase.symm.trans heq) (by simp), hphantom⟩
      joining := fun w hw ↦ by
        obtain ⟨hblank, hphantom, hw⟩ := h.joining w (List.mem_cons_of_mem _ hw)
        exact ⟨hblank, hphantom, fun hk ↦ hawaits (hw (hnone hk).1)⟩
      unstarted := fun k hk hus ↦ by
        rw [hcoming]
        exact h.unstarted k (hnone hk).1 (List.forall_mem_cons.2 ⟨(hnone hk).2, hus⟩)
      waiting := fun k w hw hcreated ↦ by
        rcases hnew hw with hold | ⟨hnone, rfl, rfl⟩
        · exact hawaits (h.waiting k w hold hcreated)
        · exact hawaits (hu hnone)
      silent := fun k hk o s slots sharing ↦ by
        rw [hcoming]
        exact h.silent k (fun w hw ↦ hk w (by rw [hunits, hw]; rfl)) o s slots sharing
      covered := fun o ↦ by
        rw [hcoming, htally]
        exact h.covered o
      kept := fun k w hw s l hne hshares ↦ by
        rw [hbalance]
        rcases hnew hw with hold | ⟨-, -, rfl⟩
        · exact h.kept k w hold s l hne hshares
        · rw [UnitNode.shares_of_empty hblank.shared] at hshares
          contradiction }

/-- A message that is sent is still to come. -/
theorem posted {m : UnitId × Message} (h : c.Punctual us (m :: ms)) : (c.post m).Punctual us ms :=
  h.of_coming_eq (h.housed.post m) rfl rfl fun _ ↦ coming_post h.housed m

theorem applyEffects (origin : UnitId) (e : Effects γ) (h : c.Punctual e.newUnits e.messages) :
    (c.applyEffects origin e).Punctual [] [] :=
  applyEffects_induction (P := fun c us ms ↦ c.Punctual us ms) origin e
    (fun hunits hsetup hmail h ↦ h.other hunits hsetup hmail) (fun _ _ _ _ h ↦ h.joined)
    (fun _ _ _ h ↦ h.posted) h

/-- A message is to be sent, and what it says of shared scopes is true of its sender. -/
theorem sent (h : c.Punctual us ms) {r : UnitId} (hroots : m.roots? = none)
    (hinTime : m.InTime r (c.balance ms r))
    (hinit : ∀ id s slots sharing, m = .initShare id s slots sharing →
      ∃ w, c.units[id]? = some w ∧ w.phase ≠ .created)
    (hclose : ∀ id s l, m = .closeEdge id s (.edge l) →
      ∀ w, c.units[id]? = some w → w.shares s (.edge l) = false) :
    c.Punctual us (ms ++ [(r, m)]) := by
  have hbalance (k : UnitId) : c.balance (ms ++ [(r, m)]) k =
      if r = k then (c.balance ms k).after m else c.balance ms k := balance_append _
  have hstart (k : UnitId) : (c.coming (ms ++ [(r, m)]) k).findSome? Message.roots? =
      (c.coming ms k).findSome? Message.roots? := by
    rw [coming_append, List.findSome?_append]
    split
    · rw [List.findSome?_singleton, hroots, Option.or_none]
    · exact Option.or_none
  -- Units that were never started have initialised nothing, so the message is not theirs.
  have hsilent {k : UnitId} (hk : ∀ w, c.units[k]? = some w → w.phase = .created) (s : Scope)
      (slots : List Slot) (sharing : Bool) : m ≠ .initShare k s slots sharing := fun heq ↦
    let ⟨w, hw, hphase⟩ := hinit k s slots sharing heq
    hphase (hk w hw)
  have hawaits {w : UnitNode γ} (hk : ∀ w', c.units[w.id]? = some w' → w'.phase = .created)
      (hw : c.Awaits ms w) : c.Awaits (ms ++ [(r, m)]) w := by
    refine hw.mono rfl rfl (fun _ hroots ↦ (hstart w.id).trans hroots) fun s l _ ↦ ?_
    rw [hbalance]
    split
    · exact Tally.inits_le_after _ s l (hsilent hk)
    · exact Nat.le_refl _
  exact
    { housed := h.housed
      settings := h.settings
      known := h.known
      joining := fun w hw ↦ by
        obtain ⟨hblank, hphantom, hw⟩ := h.joining w hw
        exact ⟨hblank, hphantom, fun hk ↦
          hawaits (fun w' hw' ↦ absurd (hk.symm.trans hw') nofun) (hw hk)⟩
      unstarted := fun k hk hus ↦ by
        rw [hstart]
        exact h.unstarted k hk hus
      waiting := fun k w hw hcreated ↦ by
        obtain rfl := h.housed.filed k w hw
        refine hawaits (fun w' hw' ↦ ?_) (h.waiting _ w hw hcreated)
        obtain rfl := Option.some.inj (hw.symm.trans hw')
        exact hcreated
      silent := fun k hk o s slots sharing hmem ↦ by
        rw [coming_append, List.mem_append] at hmem
        refine hmem.elim (h.silent k hk o s slots sharing) fun hmem ↦ ?_
        split at hmem
        · exact hsilent hk s slots sharing (List.mem_singleton.1 hmem).symm
        · exact absurd hmem List.not_mem_nil
      covered := fun o ↦ by
        rw [coming_append, Tally.covers_append_iff]
        refine ⟨h.covered o, ?_⟩
        split
        · rename_i heq
          obtain rfl := heq
          exact ⟨hinTime, trivial⟩
        · trivial
      kept := fun k w hw s l hne hshares ↦ by
        have hkept := h.kept k w hw s l hne hshares
        rw [hbalance]
        split
        · refine Nat.lt_of_lt_of_le hkept (Tally.opens_le_after _ fun heq ↦ ?_)
          exact absurd (hclose k s l heq w hw) (by simp [hshares])
        · exact hkept }

/-- A unit is to be added and started. If it serves a library, those who own the scopes that it is
handed count on it. -/
theorem toJoin (h : c.Punctual us ms) {roots : List Scope} (hblank : u.IsBlank)
    (hphantom : u.kind ≠ .phantom true)
    (hlibrary : u.kind.IsLibrary → us = [] ∧ (c.units[u.id]? = none → c.CountsOn ms u.id roots)) :
    c.Punctual (us ++ [u]) (ms ++ [(u.id, .start roots)]) := by
  have hbalance (k : UnitId) : c.balance (ms ++ [(u.id, .start roots)]) k = c.balance ms k := by
    rw [balance_append]
    split <;> rfl
  have hcoming {k : UnitId} (hk : u.id ≠ k) :
      c.coming (ms ++ [(u.id, .start roots)]) k = c.coming ms k := by
    rw [coming_append, if_neg hk, List.append_nil]
  have hstart (k : UnitId) : (c.coming (ms ++ [(u.id, .start roots)]) k).findSome? Message.roots? =
      ((c.coming ms k).findSome? Message.roots?).or (if u.id = k then some roots else none) := by
    rw [coming_append, List.findSome?_append]
    split <;> rfl
  have hawaits {w : UnitNode γ} (hw : c.Awaits ms w) :
      c.Awaits (ms ++ [(u.id, .start roots)]) w := by
    refine hw.mono rfl rfl (fun roots' hroots' ↦ ?_) fun r _ _ ↦ Nat.le_of_eq (by rw [hbalance])
    rw [hstart, hroots']
    rfl
  have hjoins (hk : c.units[u.id]? = none) : c.Awaits (ms ++ [(u.id, .start roots)]) u := by
    -- If another unit of this id is to be added first, its start message comes first, too.
    by_cases hold : ∃ w ∈ us, w.id = u.id
    · obtain ⟨w, hw, hid⟩ := hold
      obtain ⟨roots', hroots', -⟩ := (h.joining w hw).2.2 (hid ▸ hk)
      refine ⟨roots', by rw [hstart, ← hid, hroots']; rfl, fun hserves ↦ ?_⟩
      exact absurd ((hlibrary hserves).1 ▸ hw) List.not_mem_nil
    · have hnone : (c.coming ms u.id).findSome? Message.roots? = none :=
        h.unstarted u.id hk fun w hw hid ↦ hold ⟨w, hw, hid⟩
      refine ⟨roots, by rw [hstart, hnone, if_pos rfl]; rfl, fun hserves ↦ ?_⟩
      exact ((hlibrary hserves).2 hk).mono fun r _ _ ↦ Nat.le_of_eq (by rw [hbalance])
  exact
    { housed := h.housed
      settings := h.settings
      known := h.known
      joining := fun w hw ↦ by
        rcases List.mem_append.1 hw with hw | hw
        · obtain ⟨hblank, hphantom, hw⟩ := h.joining w hw
          exact ⟨hblank, hphantom, fun hk ↦ hawaits (hw hk)⟩
        · obtain rfl := List.mem_singleton.1 hw
          exact ⟨hblank, hphantom, hjoins⟩
      unstarted := fun k hk hus ↦ by
        rw [hcoming (hus u (List.mem_append_right _ List.mem_cons_self))]
        exact h.unstarted k hk fun w hw ↦ hus w (List.mem_append_left _ hw)
      waiting := fun k w hw hcreated ↦ hawaits (h.waiting k w hw hcreated)
      silent := fun k hk o s slots sharing hmem ↦ by
        rw [coming_append, List.mem_append] at hmem
        refine hmem.elim (h.silent k hk o s slots sharing) fun hmem ↦ ?_
        split at hmem
        · exact absurd (List.mem_singleton.1 hmem) nofun
        · exact absurd hmem List.not_mem_nil
      covered := fun o ↦ by
        rw [coming_append, Tally.covers_append_iff]
        refine ⟨h.covered o, ?_⟩
        split
        · exact ⟨trivial, trivial⟩
        · trivial
      kept := fun k w hw s l hne hshares ↦ by
        rw [hbalance]
        exact h.kept k w hw s l hne hshares }

/-! ## Messages are handled or dropped -/

end Punctual

section

variable {mail : Mailboxes Message}

/-- A message that is taken out of a mailbox does not come any longer. -/
theorem coming_takes (htakes : c.mail.Takes id m mail) (hmail : c'.mail = mail) (k : UnitId) :
    c.coming [] k = (if id = k then [m] else []) ++ c'.coming [] k := by
  rw [coming_nil, coming_nil, hmail, htakes.queue]

/-- A unit that has taken a message out of its mailbox and counts on what the message says will
count on the same as before when everything has come. -/
theorem Becomes.balance_takes (hb : c.Becomes u v c') (htakes : c.mail.Takes u.id m mail)
    (hmail : c'.mail = mail) (htally : v.waits.tally = u.waits.tally.after m) (k : UnitId) :
    c'.balance [] k = c.balance [] k := by
  rw [balance, balance, coming_takes htakes hmail k, Tally.through_append]
  by_cases heq : u.id = k
  · obtain rfl := heq
    rw [tally_of_some hb.old, tally_of_some hb.self, htally, if_pos rfl]
    rfl
  · rw [tally, hb.others heq, if_neg heq]
    rfl

end

namespace Punctual

/-- A unit takes a message out of its mailbox, and counts on what the message says. -/
theorem absorbed (h : c.Punctual [] []) (hb : c.Becomes u v c') {mail : Mailboxes Message}
    (htakes : c.mail.Takes u.id m mail) (hmail : c'.mail = mail) (hshared : v.shared = u.shared)
    (hroots : m.roots? ≠ none → v.phase ≠ .created)
    (htally : v.waits.tally = u.waits.tally.after m) : c'.Punctual [] [] := by
  have hcoming (k : UnitId) : c.coming [] k = (if u.id = k then [m] else []) ++ c'.coming [] k :=
    coming_takes htakes hmail k
  have hbalance (k : UnitId) : c'.balance [] k = c.balance [] k :=
    hb.balance_takes htakes hmail htally k
  have hmem {k : UnitId} {m' : Message} (hm' : m' ∈ c'.coming [] k) : m' ∈ c.coming [] k :=
    hcoming k ▸ List.mem_append_right _ hm'
  have hrest {k : UnitId} (hk : u.id ≠ k ∨ m.roots? = none) :
      (c'.coming [] k).findSome? Message.roots? = (c.coming [] k).findSome? Message.roots? := by
    rw [hcoming k, List.findSome?_append]
    split
    · rename_i heq
      rw [List.findSome?_singleton, hk.resolve_left fun hne ↦ hne heq, Option.none_or]
    · exact Option.none_or.symm
  exact
    { housed := (h.housed.takes htakes).insert (c := { c with mail := mail }) hb.old hb.units hb.id
        hmail
      settings := hb.setup ▸ h.settings
      known := fun k w hw ↦ hb.known h hw
      joining := List.forall_mem_nil _
      unstarted := fun k hk _ ↦ by
        obtain ⟨hne, hk⟩ := hb.none hk
        rw [hrest (.inl hne)]
        exact h.unstarted k hk (List.forall_mem_nil _)
      waiting := fun k w hw hcreated ↦ by
        obtain ⟨w', hw', hcreated', hid, hkind⟩ := hb.before hw hcreated
        obtain rfl := h.housed.filed k w' hw'
        -- A unit that still waits for its start has not just handled it.
        have hk : u.id ≠ w'.id ∨ m.roots? = none := by
          refine Classical.or_iff_not_imp_left.2 fun heq ↦ Classical.byContradiction fun hm ↦ ?_
          obtain rfl := Option.some.inj (hb.self.symm.trans (Classical.not_not.1 heq ▸ hw))
          exact hroots hm hcreated
        exact (h.waiting _ w' hw' hcreated').mono hid hkind (fun _ hsome ↦ (hrest hk).trans hsome)
          fun r _ _ ↦ Nat.le_of_eq (by rw [hbalance])
      silent := fun k hk o s slots sharing hmem' ↦
        h.silent k (fun w ↦ hb.created hk) o s slots sharing (hmem hmem')
      covered := fun o ↦ by
        have hcovered := h.covered o
        rw [hcoming o, Tally.covers_append_iff] at hcovered
        by_cases heq : u.id = o
        · obtain rfl := heq
          rw [tally_of_some hb.old, if_pos rfl] at hcovered
          rw [tally_of_some hb.self, htally]
          exact hcovered.2
        · rw [if_neg heq] at hcovered
          rw [tally, hb.others heq]
          exact hcovered.2
      kept := fun k w hw s l hne hshares ↦ by
        rw [hbalance]
        obtain ⟨rfl, rfl⟩ | hold := hb.cases hw
        · rw [UnitNode.shares, hshared] at hshares
          exact h.kept u.id u hb.old s l hne hshares
        · exact h.kept k w hold s l hne hshares }

/-- Messages to units that do not exist are dropped, none of which shares anything. -/
theorem dropped (h : c.Punctual [] []) (hunits : c'.units = c.units) (hsetup : c'.setup = c.setup)
    (hmail : c'.mail = c.mail.dropParked.2)
    (hshares : ∀ id, ∀ m ∈ c.mail.parkedFor id, ¬ m.IsShare) : c'.Punctual [] [] := by
  have hbox (k : UnitId) : c'.coming [] k = c.mail.box k := by
    rw [coming_nil, hmail, Mailboxes.queue, Mailboxes.parkedFor_dropParked, List.append_nil]
    rfl
  have hqueue (k : UnitId) : c.coming [] k = c.mail.box k ++ c.mail.parkedFor k := coming_nil
  -- Nothing was parked for units that exist, so nothing that comes to them is dropped.
  have hstays {k : UnitId} {w : UnitNode γ} (hw : c.units[k]? = some w) :
      c'.coming [] k = c.coming [] k := by
    rw [hbox, hqueue, h.housed.parked k w hw, List.append_nil]
  have hmem {k : UnitId} {m : Message} (hm : m ∈ c'.coming [] k) : m ∈ c.coming [] k :=
    hqueue k ▸ List.mem_append_left _ (hbox k ▸ hm)
  have htally (k : UnitId) : c'.tally k = c.tally k := by rw [tally, tally, hunits]
  have hbalance (k : UnitId) : (c.balance [] k).AtMost k (c'.balance [] k) := by
    rw [balance, balance, htally, hbox, hqueue, Tally.through_append]
    exact Tally.through_atMost k _ (hshares k)
  exact
    { housed := h.housed.dropped hunits hmail
      settings := hsetup ▸ h.settings
      known := fun k w hw ↦ h.known k w (hunits ▸ hw)
      joining := List.forall_mem_nil _
      unstarted := fun k hk _ ↦ by
        rw [hbox, h.housed.box k (hunits ▸ hk)]
        rfl
      waiting := fun k w hw hcreated ↦ by
        rw [hunits] at hw
        obtain rfl := h.housed.filed k w hw
        exact (h.waiting _ w hw hcreated).mono rfl rfl (fun _ hroots ↦ (hstays hw).symm ▸ hroots)
          fun r l hne ↦ (hbalance r.owner w.id (Ne.symm hne) r l).1
      silent := fun k hk o s slots sharing hmem' ↦
        h.silent k (fun w hw ↦ hk w (hunits ▸ hw)) o s slots sharing (hmem hmem')
      covered := fun o ↦ by
        rw [htally, hbox]
        have hcovered := h.covered o
        rw [hqueue, Tally.covers_append_iff] at hcovered
        exact hcovered.1
      kept := fun k w hw s l hne hshared ↦
        Nat.lt_of_lt_of_le (h.kept k w (hunits ▸ hw) s l hne hshared)
          (hbalance s.owner k (Ne.symm hne) s l).2 }

end Punctual

theorem punctual_start {setup : Setup} (hsettings : setup.settings.incremental = false)
    (root : UnitId) (code : γ) (previous : Option Report) :
    (start setup root code previous).Punctual [] [] := by
  have hcoming (k : UnitId) : (start setup root code previous).coming [] k =
      if root = k then [.start []] else [] := by
    change (Mailboxes.empty.enqueue root (Message.start [])).box k ++ [] ++ [] = _
    rw [Mailboxes.box_enqueue, List.append_nil, List.append_nil]
    split <;> rfl
  exact
    { housed := housed_start _ _ _ _
      settings := hsettings
      known := fun k w hw ↦ by
        obtain ⟨-, rfl⟩ := units_start_eq_some_iff.1 hw
        exact ⟨nofun, nofun⟩
      joining := List.forall_mem_nil _
      unstarted := fun k hk _ ↦ by
        have hne : root ≠ k := fun heq ↦
          absurd (hk.symm.trans (units_start_eq_some_iff.2 ⟨heq, rfl⟩)) nofun
        rw [hcoming, if_neg hne]
        rfl
      waiting := fun k w hw _ ↦ by
        obtain ⟨rfl, rfl⟩ := units_start_eq_some_iff.1 hw
        exact ⟨[], congrArg _ ((hcoming root).trans (if_pos rfl)), False.elim⟩
      silent := fun k hk o s slots sharing hmem ↦ by
        rw [hcoming] at hmem
        split at hmem
        · exact absurd (List.mem_singleton.1 hmem) nofun
        · exact absurd hmem List.not_mem_nil
      covered := fun o ↦ by
        rw [hcoming]
        split
        · exact ⟨trivial, trivial⟩
        · trivial
      kept := fun k w hw s l hne hshares ↦ by
        obtain ⟨-, rfl⟩ := units_start_eq_some_iff.1 hw
        exact absurd hshares nofun }

end Core

end ScopeGraphs
