import ScopeGraphs.Proofs.Units.Deeds
import ScopeGraphs.Proofs.Units.Disturbing

/-!
# What operations consist of

The deeds of every operation on a unit. All but a few operations are calm. Asserting is left to the
checker, and to units that replay, resume or serve a library.
-/

namespace ScopeGraphs

variable {γ α β : Type}

namespace Turn

variable (t : Turn γ)

/-! ## Running, ending, being given up -/

theorem moves_restart (trace : Trace) : t.Moves (Deed.IsCalm t.unit.id) (t.restart trace) := by
  rw [restart]
  split
  · have hactive := (Moves.refl (A := Deed.IsCalm t.unit.id) t).enter
      (f := fun u ↦ { u with phase := .active, trace := trace }) rfl ⟨nofun, nofun⟩
    have hsettled := (hactive.settleActive .running).settleDecision none
    dsimp only
    split
    · exact (hsettled.edit (by rfl)).grantOwn fun _ ↦ rfl
    · exact hsettled.grantOwn fun _ ↦ rfl
  · exact .refl t

theorem moves_eagerStart : t.Moves (Deed.IsCalm t.unit.id) t.eagerStart := by
  rw [eagerStart]
  split
  · exact t.moves_restart _
  · exact .refl t

theorem moves_fail {A : Deed γ → Prop} (reason : String) : t.Moves A (t.fail reason) :=
  ((((Moves.refl t).edit (by rfl)).settleActive _).settleDecision _).tryFinish

theorem moves_addRemovedSubUnits {id : UnitId} : t.Moves (Deed.IsCalm id) t.addRemovedSubUnits :=
  (Moves.refl t).foldl _ fun _ _ t _ ↦
    (Moves.refl t).join ⟨UnitNode.isBlank_new _ _ _ _ _ _, .inr rfl⟩

theorem moves_startRemoved {id : UnitId} : t.Moves (Deed.IsCalm id) t.startRemoved := by
  have hsettled := ((((Moves.refl (A := Deed.IsCalm id) t).edit
    (f := fun u ↦ { u with trace := .released }) (by rfl)).settleActive .reusing).settleDecision
      none).edit (f := fun u ↦ { u with outcome := some none }) (by rfl)
  exact (hsettled.trans (moves_addRemovedSubUnits _)).tryFinish

theorem moves_checkerFinished (result : Except String Datum) :
    t.Moves (Deed.IsCalm t.unit.id) (t.checkerFinished result) := by
  unfold checkerFinished
  split
  · exact .refl t
  · extract_lets ended captured released done settled active rest
    have hended : t.Moves (Deed.IsCalm t.unit.id) ended := by
      cases result <;> exact (Moves.refl t).edit (by rfl)
    have hcaptured : t.Moves (Deed.IsCalm t.unit.id) captured := by
      unfold captured
      split
      · exact hended.capture.endLocalPhase
      · exact hended
    have hdone : t.Moves (Deed.IsCalm t.unit.id) done := hcaptured.enter rfl ⟨nofun, nofun⟩
    have hactive : t.Moves (Deed.IsCalm t.unit.id) active :=
      ((hdone.settleActive _).settleDecision _).grantOwn fun _ ↦ rfl
    have hrest : t.Moves (Deed.IsCalm t.unit.id) rest := by
      unfold rest
      split
      · exact hactive
      · exact hactive.trans (moves_addRemovedSubUnits _)
    exact hrest.tryFinish

theorem moves_subUnitFinished {A : Deed γ → Prop} (r : Report) : t.Moves A (t.subUnitFinished r) :=
  ((Moves.refl t).edit (by rfl)).tryFinish

theorem moves_captureEnd {A : Deed γ → Prop} : t.Moves A t.capture.endLocalPhase :=
  (Moves.refl t).capture.endLocalPhase

/-- Closures that are granted by force. -/
theorem moves_grantClosures {A : Deed γ → Prop} (hlower : ∀ token holder, A (.lower token holder))
    (hclear : A (.share .clear)) : t.Moves A t.grantClosures :=
  (Moves.deed ((Moves.refl t).grantAll fun _ _ ↦ hlower _ _) hclear).fireDelays

theorem moves_failStuck {id : UnitId} : t.Moves (Deed.IsDiscreet id) t.failStuck := by
  unfold failStuck
  split
  · exact .refl t
  · extract_lets entries delays effects granted emptied hungUp ended
    have hemptied : t.Moves (Deed.IsDiscreet id) emptied :=
      (((Moves.refl (A := Deed.IsDiscreet id) t).deed (d := .forget) trivial).deed
        (d := .share .clear) trivial).edit (f := fun u ↦ { u with delays := [] }) rfl
    have hended : t.Moves (Deed.IsDiscreet id) ended :=
      (hemptied.fillAll _ _).endLocalPhase.enter rfl ⟨nofun, nofun⟩
    exact hended.trans (ended.moves_fail _)

/-! ## Waiting and asking -/

section

variable {A : Deed γ → Prop}

theorem moves_listen {π : Type} {promise : UnitNode γ → Promise π}
    {put : Promise π → UnitNode γ → UnitNode γ} {wrap : π → Parcel}
    (hput : ∀ (p : Promise π) (u : UnitNode γ),
      ((put p u).stake, (put p u).phase) = (u.stake, u.phase)) :
    t.Moves A (t.listen promise put wrap).2 := by
  have hchannel := (Moves.refl (A := A) t).newChannel
  rw [listen]
  dsimp only
  split
  · exact hchannel.fill _ _
  · exact hchannel.edit (hput _ _)

theorem moves_awaitDecided : t.Moves A t.awaitDecided.2 := by
  have hlisten : t.Moves A (t.listen UnitNode.whenActive
      (fun p u ↦ { u with whenActive := p }) .activation).2 :=
    t.moves_listen fun _ _ ↦ rfl
  rw [awaitDecided]
  split
  · exact hlisten
  · exact hlisten
  · exact hlisten
  · exact .refl t

theorem moves_awaitClosed (s : Scope) (slot : Slot) : t.Moves A (t.awaitClosed s slot).2 := by
  rw [awaitClosed]
  dsimp only
  split
  · exact .refl t
  · exact (Moves.refl t).newChannel.edit
      (f := fun u ↦ { u with delays := u.delays ++ [⟨s, slot, t.newChannel.1⟩] }) rfl

theorem moves_awaitOpen : t.Moves A t.awaitOpen.2 := t.moves_listen fun _ _ ↦ rfl

theorem moves_awaitDecision : t.Moves A t.awaitDecision.2 := t.moves_listen fun _ _ ↦ rfl

theorem moves_awaitReport : t.Moves A t.awaitReport.2 := t.moves_listen fun _ _ ↦ rfl

theorem moves_endAsking (ticket : Ticket) (hA : A (.lower ticket.token ticket.holder)) :
    t.Moves A (t.endAsking ticket) :=
  (Moves.refl t).grant hA

theorem moves_endQuery (token : Token) (record : Option QueryRecord)
    (hA : A (.lower token t.unit.id)) : t.Moves A (t.endQuery token record) :=
  ((Moves.refl t).edit (by rfl)).grant hA

theorem moves_matchStep (s : Scope) : t.Moves A (t.matchStep s).2 := by
  unfold matchStep
  dsimp only
  split
  · exact .refl t
  · split
    · exact .refl t
    · split
      · split
        · exact .refl t
        · dsimp only
          exact (Moves.refl t).edit (by rfl)
      · split <;> exact .refl t

theorem moves_diffScope (s : Scope) (labels : List Label) : t.Moves A (t.diffScope s labels).2 := by
  unfold diffScope
  split
  · exact .refl t
  · rename_i d _
    exact (Moves.refl t).edit (f := fun u ↦ { u with
      differ := some (d.diff s (t.unit.graph.union t.unit.localGraph) labels).2 }) rfl

end

theorem moves_ask (q : Question) {id : UnitId} : t.Moves (Deed.IsCalm id) (t.ask q).2 :=
  ((Moves.refl t).newRequest.newChannel.waitFor (by cases q <;> trivial)).send
    (by cases q <;> trivial)

/-! ## Shared scopes -/

theorem moves_shareInitialized (sender : UnitId) (s : Scope) (slots : List Slot) (sharing : Bool)
    {A : Deed γ → Prop} (hslot : ∀ slot, A (.raise (.closeSlot s slot) sender))
    (hscope : A (.raise (.closeScope s) sender)) (hlower : A (.lower (.initScope s) sender)) :
    t.Moves A (t.shareInitialized sender s slots sharing) := by
  have hslots : t.Moves A (t.waitForAll (slots.map (.closeSlot s)) sender) :=
    (Moves.refl t).waitForAll fun token htoken ↦ by
      obtain ⟨slot, -, rfl⟩ := List.mem_map.1 htoken
      exact hslot slot
  rw [shareInitialized]
  split
  · exact (hslots.waitFor hscope).grant hlower
  · exact hslots.grant hlower

theorem moves_keepOpen (s : Scope) (slots : List Slot) {A : Deed γ → Prop}
    (htake : A (.share (.take s))) (hkeep : ∀ slots, A (.share (.keep s slots))) : t.Moves A (t.keepOpen s slots) :=
  ((Moves.refl t).deed htake).deed (hkeep _)

theorem moves_dropShared (s : Scope) (slot : Slot) {A : Deed γ → Prop}
    (hkeep : ∀ slots, A (.share (.keep s slots))) : t.Moves A (t.dropShared s slot) :=
  ((Moves.refl t).deed (hkeep _)).fireDelays

theorem moves_closeShare (s : Scope) (slots : List Slot) {id : UnitId} :
    t.Moves (Deed.IsDiscreet id) (t.closeShare s slots) :=
  ((Moves.refl t).foldl _ fun _ _ t _ ↦ (Moves.refl t).send trivial).send trivial

theorem moves_initRoot (root : Scope) {id : UnitId} :
    t.Moves (Deed.IsDiscreet id) (t.initRoot root) := by
  rw [initRoot]
  split
  · exact .refl t
  · exact ((Moves.refl t).deed (d := .share (.take root)) trivial).send rfl

theorem moves_closeShares {id : UnitId} : t.Moves (Deed.IsDiscreet id) t.closeShares := by
  have hcleared : t.Moves (Deed.IsDiscreet id) (t.edit fun u ↦ { u with shared := ∅ }) :=
    (Moves.refl t).deed (d := .share .clear) trivial
  have hclosed := hcleared.foldl t.unit.shared.toList fun e _ t _ ↦
    t.moves_closeShare e.1 e.2.toList
  exact (hclosed.foldl _ fun root _ t _ ↦ t.moves_initRoot root).fireDelays

/-! ## Sub-units -/

theorem moves_handRoot (child : UnitId) (root : Scope) {id : UnitId} :
    t.Moves (Deed.IsCalm id) (handRoot child t root) := by
  rw [handRoot]
  split
  · exact (Moves.refl t).waitFor trivial
  · exact (Moves.refl t).send trivial

/-- Adding a sub-unit. -/
theorem moves_addSubUnit (name : String) (kind : UnitKind γ) (roots : List Scope) (changed : Bool)
    {A : Deed γ → Prop} {id : UnitId} (hA : ∀ d, d.IsCalm id → A d)
    (hjoin : ∀ u : UnitNode γ, u.IsBlank → u.kind = kind → A (.join u roots)) :
    t.Moves A (t.addSubUnit name kind roots changed).2 := by
  unfold addSubUnit
  extract_lets u child previous before paired node reusing handed waiting added
  split
  · exact .refl t
  · split
    · exact .refl t
    · have hpaired : t.Moves A paired := (Moves.refl t).edit (by rfl)
      have hhanded : t.Moves A handed := hpaired.foldl _ fun root _ t _ ↦
        (t.moves_handRoot child root).mono hA
      obtain ⟨hblank, hkind, hid⟩ : reusing.IsBlank ∧ reusing.kind = kind ∧ reusing.id = child := by
        unfold reusing
        split <;> exact ⟨⟨rfl, rfl, rfl, rfl, rfl, rfl, rfl⟩, rfl, rfl⟩
      have hadded : t.Moves A added := by
        have hjoined : t.Moves A ((waiting.addUnit reusing).send reusing.id (.start roots)) :=
          (hhanded.waitFor (hA (.raise (.subUnit child) child) trivial)).join
            (hjoin _ hblank hkind)
        rwa [hid] at hjoined
      exact hadded.edit (f := fun u ↦ { u with subUnits := u.subUnits.insert name child }) rfl

/-! ## Whole graphs -/

theorem moves_assertGraph (g : ScopeGraph) (p : Renaming) {A : Deed γ → Prop}
    (hedge : ∀ e, A (.edge e)) (hdatum : ∀ s d, A (.datum s d)) : t.Moves A (t.assertGraph g p) :=
  ((Moves.refl t).foldl _ fun (e : Edge) _ t _ ↦
    (Moves.refl t).deed (hedge (e.rename p))).foldl _ fun (e : Scope × Datum) _ t _ ↦
      (Moves.refl t).deed (hdatum (p.apply e.1) (e.2.rename p))

theorem moves_replay (previous : Report) (p : Renaming) {id : UnitId} :
    t.Moves (Deed.IsApart id) (t.replay previous p) := by
  unfold replay
  extract_lets captured known own counters begun asserted
  have hbegun : t.Moves (Deed.IsApart id) begun := (Moves.refl t).edit (by rfl)
  have hasserted : t.Moves (Deed.IsApart id) asserted :=
    hbegun.trans (begun.moves_assertGraph _ p (fun _ ↦ trivial) fun _ _ ↦ trivial)
  exact (hasserted.grantAll fun _ _ ↦ trivial).trans
    ((moves_closeShares _).mono fun _ h ↦ h.isApart)

theorem moves_replaySubUnits {A : Deed γ → Prop} {id : UnitId} (hA : ∀ d, d.IsCalm id → A d)
    (hjoin : ∀ (u : UnitNode γ) (roots : List Scope), u.IsBlank → A (.join u roots)) :
    t.Moves A t.replaySubUnits :=
  (Moves.refl t).foldl _ fun _ _ t _ ↦ t.moves_addSubUnit _ _ _ _ hA fun u h _ ↦ hjoin u _ h

theorem moves_release (p : Renaming) {id : UnitId} : t.Moves (Deed.IsApart id) (t.release p) := by
  unfold release
  split
  · rename_i previous _ _
    extract_lets replayed told settled
    have hreplayed : t.Moves (Deed.IsApart id) replayed :=
      ((Moves.refl t).edit (f := fun u ↦ { u with reuse := some p }) rfl).trans
        (moves_replay _ previous p)
    clear_value replayed
    have htold : t.Moves (Deed.IsApart id) told := hreplayed.enter rfl ⟨nofun, nofun⟩
    have hsettled : t.Moves (Deed.IsApart id) settled :=
      ((htold.settleActive _).settleDecision _).endLocalPhase
    exact (hsettled.grant trivial).trans
      (moves_replaySubUnits _ (fun d (h : d.IsCalm id) ↦ h.isDiscreet.isApart) fun _ _ h ↦ h)
  · exact .refl t

theorem moves_startReplaying {id : UnitId} : t.Moves (Deed.IsApart id) t.startReplaying := by
  unfold startReplaying
  split
  · exact t.moves_fail _
  · rename_i previous _
    extract_lets p replayed told handed
    have hreplayed : t.Moves (Deed.IsApart id) replayed :=
      ((Moves.refl t).edit (f := fun u ↦ { u with reuse := some p }) rfl).trans
        (moves_replay _ previous p)
    clear_value replayed
    have htold : t.Moves (Deed.IsApart id) told := hreplayed.enter rfl ⟨nofun, nofun⟩
    have hhanded : t.Moves (Deed.IsApart id) handed :=
      ((htold.settleActive _).settleDecision _).trans
        (moves_replaySubUnits _ (fun d (h : d.IsCalm id) ↦ h.isDiscreet.isApart) fun _ _ h ↦ h)
    clear_value handed
    exact (hhanded.edit (by rfl)).tryFinish

theorem moves_startLibrary (lib : Library) {id : UnitId} :
    t.Moves (Deed.IsApart id) (t.startLibrary lib) := by
  unfold startLibrary
  extract_lets asserted active settled
  have hasserted : t.Moves (Deed.IsApart id) asserted := by
    unfold asserted
    cases lib.bind t.unit.id t.unit.roots with
    | ok bound =>
      exact ((Moves.refl t).edit (f := fun u ↦
        { u with scopes := bound.1.foldl (fun ss s ↦ ss.insert s) u.scopes }) rfl).trans
          (moves_assertGraph _ bound.2 .identity (fun _ ↦ trivial) fun _ _ ↦ trivial)
    | error e => exact (Moves.refl t).edit (by rfl)
  clear_value asserted
  have hactive : t.Moves (Deed.IsApart id) active := hasserted.enter rfl ⟨nofun, nofun⟩
  have hsettled : t.Moves (Deed.IsApart id) settled :=
    ((hactive.settleActive _).settleDecision _).trans
      ((moves_closeShares _).mono fun _ h ↦ h.isApart)
  clear_value settled
  exact (hsettled.edit (by rfl)).tryFinish

/-- Until its code begins to work, a unit that starts only tells its parent. -/
theorem moves_start (roots : List Scope) {id : UnitId} :
    t.Moves (Deed.IsApart id) (t.start roots) := by
  unfold start
  split
  · exact .refl t
  · extract_lets begun told
    have hbegun : t.Moves (Deed.IsApart id) begun := (Moves.refl t).enter rfl ⟨nofun, nofun⟩
    have htold : t.Moves (Deed.IsApart id) told := by
      unfold told
      split
      · exact hbegun.send trivial
      · exact hbegun
    split
    · have hawaited : t.Moves (Deed.IsApart id) (told.waitFor .activate told.unit.id) :=
        htold.waitFor trivial
      exact hawaited.spawn _
    · exact htold.trans (moves_startReplaying _)
    · have hremoved : told.Moves (Deed.IsCalm id) told.startRemoved := told.moves_startRemoved
      exact htold.trans (hremoved.mono fun _ h ↦ h.isDiscreet.isApart)
    · exact htold.trans (moves_startLibrary _ _)

theorem moves_resumeRoot (x : Snapshot) (e : Scope × Scope) :
    t.Moves (Deed.IsDiscreet t.unit.id) (resumeRoot x t e) := by
  rw [resumeRoot]
  split
  · exact .refl t
  · rename_i hnew
    have hforeign : e.2.owner ≠ t.unit.id := fun heq ↦
      hnew (Bool.or_eq_true_iff.2 (.inl (UnitNode.owns_iff.2 heq)))
    let slots := x.openSlots.filterMap fun o ↦ if o.1 = e.1 then some o.2 else none
    have htaken :=
      (Moves.refl (A := Deed.IsDiscreet t.unit.id) t).deed (d := .share (.take e.2)) trivial
    have hkept : t.Moves (Deed.IsDiscreet t.unit.id) (t.edit fun u ↦
        { u with
          initialized := u.initialized.insert e.2
          shared := u.shared.insert e.2 (SortedSet.ofList slots) }) :=
      htaken.deed (d := .share (.keep e.2 (SortedSet.ofList slots))) hforeign
    exact hkept.send rfl

theorem moves_restore (x : Snapshot) : t.Moves (Deed.IsApart t.unit.id) (t.restore x) := by
  unfold restore
  extract_lets me known initialized opened own slotted asserted before resumed
  have hknown : t.Moves (Deed.IsApart t.unit.id) known := (Moves.refl t).edit (by rfl)
  have hopened : t.Moves (Deed.IsApart t.unit.id) opened :=
    (hknown.waitForAll fun token htoken ↦ by
      obtain ⟨s, -, rfl⟩ := List.mem_map.1 htoken
      trivial).waitForAll fun token htoken ↦ by
        obtain ⟨s, -, rfl⟩ := List.mem_map.1 htoken
        trivial
  have hslotted : t.Moves (Deed.IsApart t.unit.id) slotted :=
      hopened.waitForAll fun token htoken ↦ by
    obtain ⟨o, ho, rfl⟩ := List.mem_map.1 htoken
    exact (UnitNode.owns_iff.1 (List.mem_filter.1 ho).2).trans hopened.id
  have hasserted : t.Moves (Deed.IsApart t.unit.id) asserted :=
    hslotted.trans (slotted.moves_assertGraph _ _ (fun _ ↦ trivial) fun _ _ ↦ trivial)
  have hresumed : t.Moves (Deed.IsApart t.unit.id) resumed := hasserted.foldl _ fun e _ t' hid ↦
    hid ▸ (t'.moves_resumeRoot x e).mono fun _ h ↦ h.isApart
  exact (hresumed.edit (by rfl)).endLocalPhase

end Turn

/-! ## Actions of the checker -/

namespace Attempt

/-- What an attempt on a unit consists of, whether it is refused or not. -/
def Does (A : Deed γ → Prop) (id : UnitId) (x : Attempt γ α) : Prop :=
  ∀ t : Turn γ, t.unit.id = id → t.Moves A (x t).2

namespace Does

variable {A B : Deed γ → Prop} {id : UnitId} {x : Attempt γ α} {f : α → Attempt γ β}

theorem mono (hAB : ∀ d, A d → B d) (h : x.Does A id) : x.Does B id :=
  fun t ht ↦ (h t ht).mono hAB

theorem bind (h : x.Does A id) (hf : ∀ a, (f a).Does A id) : (x >>= f).Does A id := by
  intro t ht
  have hx := h t ht
  rw [bind_apply]
  split
  · rename_i a t' heq
    rw [heq] at hx
    exact hx.trans (hf a t' (hx.id.trans ht))
  · rename_i heq
    rwa [heq] at hx

theorem pure (a : α) : Does A id (Pure.pure a : Attempt γ α) := fun t _ ↦ .refl t

theorem throw (e : Fault) : Does A id (throw e : Attempt γ α) := fun t _ ↦ .refl t

theorem ite {c : Prop} [Decidable c] {x y : Attempt γ α} (hx : c → x.Does A id)
    (hy : ¬ c → y.Does A id) : Does A id (if c then x else y) := by
  split
  · rename_i hc
    exact hx hc
  · rename_i hc
    exact hy hc

/-- What follows may depend on the unit as it stands. -/
theorem unit {f : UnitNode γ → Attempt γ α} (hf : ∀ u, u.id = id → (f u).Does A id) :
    (Attempt.unit >>= f).Does A id := by
  intro t ht
  rw [unit_bind]
  exact hf _ ht t ht

theorem change {f : Turn γ → Turn γ} (hf : ∀ t : Turn γ, t.unit.id = id → t.Moves A (f t)) :
    (change f).Does A id :=
  hf

theorem require (ok : Bool) (e : Fault) : Does A id (require ok e : Attempt γ PUnit) := by
  cases ok
  · exact throw e
  · exact pure _

theorem requireLive : Does A id (requireLive : Attempt γ PUnit) :=
  unit fun _ _ ↦ require _ _

theorem requireKnown (s : Scope) : Does A id (requireKnown s : Attempt γ PUnit) :=
  unit fun _ _ ↦ require _ _

theorem commit : Does (Deed.IsCalm id) id (commit : Attempt γ PUnit) := by
  intro t ht
  rw [(commit_apply t).1]
  exact ht ▸ t.moves_eagerStart

end Does

variable {id : UnitId}

theorem does_freshScope (base : String) (labels : List Label) (hasDatum sharing : Bool) :
    Does (Deed.IsCalm id) id (freshScope base labels hasDatum sharing : Attempt γ Scope) := by
  have hcreate : Does (Deed.IsCalm id) id
      (create base labels hasDatum sharing : Attempt γ Scope) := by
    refine .unit fun u hu ↦ .bind (.change fun t _ ↦ (Turn.Moves.refl t).edit (by rfl)) fun _ ↦
      .bind (.change fun t _ ↦ (Turn.Moves.refl t).waitForAll fun token htoken ↦ ?_) fun _ ↦ .pure _
    rw [hu]
    refine Deed.isCalm_raise_own fun s slot heq ↦ ?_
    rw [heq, List.mem_append] at htoken
    rcases htoken with hslot | hscope
    · obtain ⟨_, -, hsame⟩ := List.mem_map.1 hslot
      rw [← (Token.closeSlot.inj hsame).1]
      exact hu
    · split at hscope
      · exact absurd (List.mem_singleton.1 hscope) nofun
      · exact absurd hscope List.not_mem_nil
  rw [freshScope_eq]
  exact Does.requireLive.bind fun _ ↦ .ite (fun _ ↦ hcreate) fun _ ↦
    Does.commit.bind fun _ ↦ hcreate

theorem does_initScope (s : Scope) (labels : List Label) (sharing : Bool) :
    Does (Deed.IsDiscreet id) id (initScope s labels sharing : Attempt γ PUnit) :=
  Does.requireLive.bind fun _ ↦ .unit fun _ hu ↦ .ite
    (fun hown ↦ .change fun t _ ↦ t.moves_shareInitialized _ _ _ _
      (fun _ ↦ (UnitNode.owns_iff.1 hown).trans hu) trivial trivial)
    fun hforeign ↦ .change fun t _ ↦ (t.moves_keepOpen _ _ trivial fun _ heq ↦
      hforeign (UnitNode.owns_iff.2 (heq.trans hu.symm))).send rfl

theorem does_shareScope (s : Scope) :
    Does (Deed.IsCalm id) id (shareScope s : Attempt γ PUnit) :=
  Does.requireLive.bind fun _ ↦ .unit fun _ _ ↦ .ite
    (fun _ ↦ .change fun t _ ↦ (Turn.Moves.refl t).waitFor trivial)
    fun _ ↦ .change fun t _ ↦ (Turn.Moves.refl t).send trivial

theorem does_setDatum (s : Scope) (d : Datum) {A : Deed γ → Prop} (hdatum : A (.datum s d))
    (hlower : A (.lower (.closeSlot s .datum) id)) :
    Does A id (setDatum s d : Attempt γ PUnit) :=
  Does.requireLive.bind fun _ ↦ .unit fun _ hu ↦ (Does.require _ _).bind fun _ ↦
    (Does.requireKnown s).bind fun _ ↦ (Does.require _ _).bind fun _ ↦ .change fun t _ ↦
      ((Turn.Moves.refl t).deed hdatum).grant (hu.symm ▸ hlower)

theorem does_addEdge (e : Edge) {A : Deed γ → Prop} (hA : ∀ d, d.IsCalm id → A d)
    (hedge : A (.edge e)) : Does A id (addEdge e : Attempt γ PUnit) := by
  have hassert : Does A id (change (Turn.assertEdge · e) : Attempt γ PUnit) :=
    .change fun t _ ↦ (Turn.Moves.refl t).deed hedge
  exact Does.requireLive.bind fun _ ↦ (Does.commit.mono hA).bind fun _ ↦
    .unit fun _ _ ↦ .ite
      (fun _ ↦ (Does.requireKnown _).bind fun _ ↦ (Does.require _ _).bind fun _ ↦ hassert)
      fun _ ↦ (Does.require _ _).bind fun _ ↦ hassert

theorem does_closeLabel (s : Scope) (l : Label) :
    Does (Deed.IsDiscreet id) id (closeLabel s l : Attempt γ PUnit) :=
  Does.requireLive.bind fun _ ↦ .unit fun _ hu ↦ .ite
    (fun _ ↦ .change fun t _ ↦ (Turn.Moves.refl t).grant trivial)
    fun hforeign ↦ .ite
      (fun _ ↦ .change fun t _ ↦ (t.moves_dropShared _ _ fun _ heq ↦
        hforeign (UnitNode.owns_iff.2 (heq.trans hu.symm))).send trivial)
      fun _ ↦ .pure _

theorem does_closeScope (s : Scope) :
    Does (Deed.IsCalm id) id (closeScope s : Attempt γ PUnit) :=
  Does.requireLive.bind fun _ ↦ .unit fun _ hu ↦ .ite
    (fun _ ↦ .change fun t _ ↦ (Turn.Moves.refl t).grant fun _ ↦ hu)
    fun _ ↦ .change fun t _ ↦ (Turn.Moves.refl t).send trivial

theorem does_beginQuery (path : Path) :
    Does (Deed.IsCalm id) id (beginQuery path : Attempt γ Token) := by
  have hrequest : Does (Deed.IsCalm id) id (modifyGet Turn.newRequest : Attempt γ Nat) :=
    fun t _ ↦ (Turn.Moves.refl t).newRequest
  exact hrequest.bind fun n ↦ Does.requireLive.bind fun _ ↦ Does.commit.bind fun _ ↦
    .unit fun _ _ ↦ .bind (.change fun t _ ↦ (Turn.Moves.refl t).waitFor trivial) fun _ ↦ .pure _

theorem does_addSubUnit (name : String) (kind : UnitKind γ) (roots : List Scope) (changed : Bool)
    {A : Deed γ → Prop} (hA : ∀ d, d.IsCalm id → A d)
    (hjoin : ∀ u : UnitNode γ, u.IsBlank → u.kind = kind → A (.join u roots)) :
    Does A id (addSubUnit name kind roots changed : Attempt γ UnitId) :=
  Does.requireLive.bind fun _ t _ ↦ t.moves_addSubUnit name kind roots changed hA hjoin

theorem does_askForReuse : Does (Deed.IsApart id) id (askForReuse : Attempt γ Bool) := by
  intro t ht
  rw [askForReuse, unit_bind, require_bind]
  split
  · rw [get_bind]
    split
    · rw [change_bind]
      have hundecided : t.Moves (Deed.IsApart id) (t.edit fun u ↦ { u with phase := .undecided }) :=
        (Turn.Moves.refl t).deed (d := .hesitate) trivial
      cases t.unit.previous.bind Report.snapshot with
      | none => exact hundecided.spawn _
      | some x =>
        have hrestored := Turn.moves_restore (t.edit fun u ↦ { u with phase := .undecided }) x
        rw [hundecided.id, ht] at hrestored
        exact (hundecided.trans hrestored).spawn _
    · rw [← ht]
      exact (t.moves_restart _).mono fun _ h ↦ h.isDiscreet.isApart
  · exact .refl t

end Attempt

/-- What a checker does it asserts by itself. -/
theorem Action.does (a : Action γ α) (id : UnitId) : a.attempt.Does (Deed.IsApart id) id := by
  have hcalm {x : Attempt γ α} (h : x.Does (Deed.IsCalm id) id) : x.Does (Deed.IsApart id) id :=
    h.mono fun _ h ↦ h.isDiscreet.isApart
  have hdiscreet {x : Attempt γ α} (h : x.Does (Deed.IsDiscreet id) id) :
      x.Does (Deed.IsApart id) id :=
    h.mono fun _ h ↦ h.isApart
  cases a with
  | freshScope base labels hasDatum sharing =>
    exact hcalm (Attempt.does_freshScope base labels hasDatum sharing)
  | initScope s labels sharing => exact hdiscreet (Attempt.does_initScope s labels sharing)
  | shareScope s => exact hcalm (Attempt.does_shareScope s)
  | setDatum s d => exact Attempt.does_setDatum s d trivial trivial
  | addEdge e => exact Attempt.does_addEdge e (fun _ h ↦ h.isDiscreet.isApart) trivial
  | closeLabel s l => exact hdiscreet (Attempt.does_closeLabel s l)
  | closeScope s => exact hcalm (Attempt.does_closeScope s)
  | beginQuery path => exact hcalm (Attempt.does_beginQuery path)
  | addSubUnit name kind roots changed =>
    exact hdiscreet (Attempt.does_addSubUnit name kind roots changed
      (fun _ h ↦ h.isDiscreet) fun _ h _ ↦ h)
  | askForReuse => exact Attempt.does_askForReuse

/-! ## All operations -/

namespace UnitOp

/-- The edge of another unit that an operation takes in. -/
def received : {α : Type} → UnitOp γ α → Option Edge
  | _, handle (.addEdge _ e) => some e
  | _, _ => none

/-- The scope that another unit has initialised, if an operation takes notice of that. -/
def shared? : {α : Type} → UnitOp γ α → Option Scope
  | _, handle (.initShare _ s _ _) => some s
  | _, _ => none

end UnitOp

theorem Message.moves (m : Message) (t : Turn γ) (hm : (UnitOp.handle (γ := γ) m).received = none)
    {A : Deed γ → Prop} (hA : ∀ d, d.IsApart t.unit.id → A d)
    (hslot : ∀ s slot sender, (UnitOp.handle (γ := γ) m).shared? = some s →
      A (.raise (.closeSlot s slot) sender)) : t.Moves A (t.handle m) := by
  cases m with
  | start roots => exact (t.moves_start roots).mono hA
  | addEdge sender e => exact absurd hm (by simp [UnitOp.received])
  | initShare sender s slots sharing =>
    exact t.moves_shareInitialized _ _ _ _ (fun slot ↦ hslot s slot sender rfl) (hA _ trivial)
      (hA _ trivial)
  | addShare sender s => exact (Turn.Moves.refl t).waitFor (hA _ trivial)
  | unitStarted | closeEdge | closeScope => exact (Turn.Moves.refl t).grant (hA _ trivial)
  | query | queryPrevious | confirm | counterpart => exact (Turn.Moves.refl t).spawn _

namespace UnitOp

/-- What an operation consists of, except that an edge of another unit may arrive, and another unit
may have initialised a scope. -/
theorem moves_of_isApart (op : UnitOp γ α) (t : Turn γ) (hop : op.received = none)
    {A : Deed γ → Prop} (hA : ∀ d, d.IsApart t.unit.id → A d)
    (hslot : ∀ s slot sender, op.shared? = some s → A (.raise (.closeSlot s slot) sender)) :
    t.Moves A (op.run t).2 := by
  have hdiscreet {t' : Turn γ} (h : t.Moves (Deed.IsDiscreet t.unit.id) t') : t.Moves A t' :=
    h.mono fun d h ↦ hA d h.isApart
  have hcalm {t' : Turn γ} (h : t.Moves (Deed.IsCalm t.unit.id) t') : t.Moves A t' :=
    hdiscreet (h.mono fun _ h ↦ h.isDiscreet)
  cases op with
  | act a => exact (a.does t.unit.id t rfl).mono hA
  | begin state =>
    exact (Turn.Moves.refl t).edit
      (f := fun u ↦ { u with begun := true, checkerState := state }) rfl
  | keepState state =>
    exact (Turn.Moves.refl t).edit (f := fun u ↦ { u with checkerState := some state }) rfl
  | eagerStart => exact hcalm t.moves_eagerStart
  | checkerFinished result => exact hcalm (t.moves_checkerFinished result)
  | awaitDecided => exact t.moves_awaitDecided
  | awaitClosed s slot => exact t.moves_awaitClosed s slot
  | awaitOpen => exact t.moves_awaitOpen
  | awaitDecision => exact t.moves_awaitDecision
  | awaitReport => exact t.moves_awaitReport
  | ask q => exact hcalm (t.moves_ask q)
  | endAsking ticket => exact t.moves_endAsking ticket (hA _ trivial)
  | endQuery token record => exact t.moves_endQuery token record (hA _ trivial)
  | matchStep s => exact t.moves_matchStep s
  | diffScope s labels => exact t.moves_diffScope s labels
  | handle m => exact m.moves t hop hA hslot
  | subUnitFinished r => exact t.moves_subUnitFinished r
  | release p => exact (t.moves_release p).mono hA
  | restart trace => exact hcalm (t.moves_restart trace)
  | endLocalPhase => exact t.moves_captureEnd
  | grantClosures => exact t.moves_grantClosures (fun _ _ ↦ hA _ trivial) (hA _ trivial)
  | failStuck => exact hdiscreet t.moves_failStuck

/-- **Plain deeds.** Every operation on a unit consists of plain deeds, except that an edge of
another unit may arrive. -/
theorem moves (op : UnitOp γ α) (t : Turn γ) (hop : op.received = none) :
    t.Moves Deed.IsPlain (op.run t).2 :=
  op.moves_of_isApart t hop (fun _ h ↦ h.isPlain) fun _ _ _ _ ↦ trivial

theorem moves_or_receives (op : UnitOp γ α) (t : Turn γ) :
    t.Moves Deed.IsPlain (op.run t).2 ∨ ∃ e, (op.run t).2 = t.receiveEdge e := by
  by_cases hop : op.received = none
  · exact .inl (op.moves t hop)
  · cases op with
    | handle m =>
      cases m with
      | addEdge sender e => exact .inr ⟨e, rfl⟩
      | start | unitStarted | initShare | addShare | closeEdge | closeScope | query | queryPrevious
      | confirm | counterpart => exact (hop rfl).elim
    | _ => exact (hop rfl).elim

/-- No operation gives a unit another id. -/
theorem id_run (op : UnitOp γ α) (t : Turn γ) : (op.run t).2.unit.id = t.unit.id := by
  obtain hmoves | ⟨e, heq⟩ := op.moves_or_receives t
  · exact hmoves.id
  · rw [heq, Turn.receiveEdge]
    split <;> rfl

/-- No operation gives a unit another purpose. -/
theorem kind_run (op : UnitOp γ α) (t : Turn γ) : (op.run t).2.unit.kind = t.unit.kind := by
  obtain hmoves | ⟨e, heq⟩ := op.moves_or_receives t
  · exact hmoves.kind
  · rw [heq, Turn.receiveEdge]
    split <;> rfl

/-- Every operation keeps the scopes of the unit and those of others apart, as long as messages
about a scope come to its owner. -/
theorem moves_isApart (op : UnitOp γ α) (t : Turn γ) (hop : op.received = none)
    (hshared : ∀ s, op.shared? = some s → s.owner = t.unit.id) :
    t.Moves (Deed.IsApart t.unit.id) (op.run t).2 :=
  op.moves_of_isApart t hop (fun _ h ↦ h) fun s _ _ hs ↦ hshared s hs

end UnitOp

end ScopeGraphs
