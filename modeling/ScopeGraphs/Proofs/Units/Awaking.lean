import ScopeGraphs.Proofs.Units.Sharing

/-!
# Who waits for a slot is told

Somebody who waits for a slot of a scope to be closed is on a list of the unit. A slot may be closed
in many places: a token is granted, a label of somebody else's scope is dropped, everything is closed
by force or to replay the previous run. Each of them has to look through the list.

Everything but a handful of operations is put together from three kinds of pieces. Most pieces close
nothing (`Turn.Calms`). Some may open slots of scopes of other units and tell nobody
(`UnitNode.Opens`). The others close something and go through the list right away (`Turn.fireDelays`).
So whoever is off the list afterwards was told in the moment in which the slot was closed
(`Turn.Heeds`, `UnitOp.attends`), except that a unit that is given up drops its list.

## Which moments there are

A slot that is closed in the course of an operation may be open again at its end, when the unit hands
the scope to a stand-in. `Turn.Passes` says what can be told about the states in the course of an
operation: the log of what the unit waits for leads to the tokens of each of them, and none of them
keeps less open on scopes of others than the end does.
-/

namespace ScopeGraphs

variable {γ α β : Type}

/-! ## Tokens and their log -/

namespace TokenBag

/-- The bag after a change that was reported. -/
def note (b : TokenBag) : WaitEvent → TokenBag
  | .raised token holder => b.add token holder
  | .granted token holder => (b.remove? token holder).getD b

/-- The bag after several changes. -/
def after (b : TokenBag) (es : List WaitEvent) : TokenBag := es.foldl note b

theorem after_append (b : TokenBag) (es es' : List WaitEvent) :
    b.after (es ++ es') = (b.after es).after es' :=
  List.foldl_append

end TokenBag

theorem Promise.waiters_settle {π : Type} (p : Promise π) (v : π) : (p.settle v).waiters = [] := by
  cases p <;> rfl

/-! ## Units -/

namespace UnitNode

/-- The channels on which somebody waits for news of the unit itself. -/
def listeners (u : UnitNode γ) : List ChannelId :=
  u.whenActive.waiters ++ u.decision.waiters ++ u.whenOpen.waiters ++ u.report.waiters

/-- What decides whether a slot is closed, and who waits for that. -/
def vigil (u : UnitNode γ) :
    UnitId × SortedMap Scope (SortedSet Slot) × TokenBag × SortedSet Scope × List Delay :=
  (u.id, u.shared, u.waits, u.initialized, u.delays)

/-- What the unit keeps open on scopes of others it has initialised. -/
def IsAnnounced (u : UnitNode γ) : Prop :=
  ∀ s slot, u.shares s slot = true → s ∈ u.initialized

/-- Nobody waits for a slot that is closed. -/
structure IsAlert (u : UnitNode γ) : Prop where
  announced : u.IsAnnounced
  opened : ∀ d ∈ u.delays, u.isClosed d.scope d.slot = false

/-- The second unit is the first one after a change that closes no slot, and tells nobody. -/
structure Opens (u v : UnitNode γ) : Prop where
  id : v.id = u.id
  delays : v.delays = u.delays
  announced : u.IsAnnounced → v.IsAnnounced
  waits : ∀ s slot, u.waits.isOpen s slot = true → v.waits.isOpen s slot = true
  shares : u.IsAnnounced → ∀ s slot, u.shares s slot = true → v.shares s slot = true

variable {u v w : UnitNode γ}

theorem mem_listeners {c : ChannelId} : c ∈ u.listeners ↔ c ∈ u.whenActive.waiters ∨
    c ∈ u.decision.waiters ∨ c ∈ u.whenOpen.waiters ∨ c ∈ u.report.waiters := by
  rw [listeners, List.mem_append, List.mem_append, List.mem_append, or_assoc, or_assoc]

theorem isClosed_eq_false_iff {s : Scope} {slot : Slot} : u.isClosed s slot = false ↔
    if u.owns s then u.waits.isOpen s slot = true else u.shares s slot = true := by
  rw [isClosed]
  split <;> rw [Bool.not_eq_false']

namespace Opens

theorem refl (u : UnitNode γ) : u.Opens u :=
  ⟨rfl, rfl, fun h ↦ h, fun _ _ h ↦ h, fun _ _ _ h ↦ h⟩

theorem trans (h : u.Opens v) (h' : v.Opens w) : u.Opens w where
  id := h'.id.trans h.id
  delays := h'.delays.trans h.delays
  announced hu := h'.announced (h.announced hu)
  waits s slot hopen := h'.waits s slot (h.waits s slot hopen)
  shares hu s slot hshares := h'.shares (h.announced hu) s slot (h.shares hu s slot hshares)

theorem alert (h : u.Opens v) (hu : u.IsAlert) : v.IsAlert where
  announced := h.announced hu.announced
  opened d hd := by
    have hopened := hu.opened d (h.delays ▸ hd)
    rw [isClosed_eq_false_iff] at hopened ⊢
    rw [owns, h.id]
    split
    · rename_i hown
      exact h.waits _ _ (by rwa [owns, if_pos hown] at hopened)
    · rename_i hforeign
      exact h.shares hu.announced _ _ (by rwa [owns, if_neg hforeign] at hopened)

theorem of_vigil (h : v.vigil = u.vigil) : u.Opens v := by
  simp only [vigil, Prod.mk.injEq] at h
  obtain ⟨hid, hshared, hwaits, hinitialized, hdelays⟩ := h
  have hshares (s : Scope) (slot : Slot) : v.shares s slot = u.shares s slot := by
    rw [UnitNode.shares, hshared, UnitNode.shares]
  refine ⟨hid, hdelays, fun hu s slot h ↦ ?_, fun s slot h ↦ hwaits ▸ h,
    fun _ s slot h ↦ (hshares s slot).trans h⟩
  rw [hinitialized]
  exact hu s slot ((hshares s slot).symm.trans h)

theorem edit {t : Turn γ} (h : u.Opens t.unit) {f : UnitNode γ → UnitNode γ}
    (hf : (f t.unit).vigil = t.unit.vigil) : u.Opens (t.edit f).unit :=
  h.trans (.of_vigil hf)

theorem waitFor {t : Turn γ} (h : u.Opens t.unit) (token : Token) (holder : UnitId) :
    u.Opens (t.waitFor token holder).unit := by
  refine h.trans ⟨rfl, rfl, fun hu ↦ hu, fun s slot hopen ↦ ?_, fun _ _ _ hshares ↦ hshares⟩
  change (t.unit.waits.add token holder).any _ = true
  rw [TokenBag.any_add, Bool.or_eq_true]
  exact .inr hopen

/-- The unit has initialised a scope and keeps slots of it open, among them those that it kept open
before. -/
theorem share (u : UnitNode γ) (s : Scope) (slots : SortedSet Slot)
    (hslots : u.IsAnnounced → ∀ slot, u.shares s slot = true → slot ∈ slots) :
    u.Opens { u with initialized := u.initialized.insert s, shared := u.shared.insert s slots } := by
  let v : UnitNode γ :=
    { u with initialized := u.initialized.insert s, shared := u.shared.insert s slots }
  have hshares {s' : Scope} {slot : Slot} : v.shares s' slot = true ↔
      if s = s' then slot ∈ slots else u.shares s' slot = true :=
    shares_insert_iff
  refine ⟨rfl, rfl, fun hu s' slot h ↦ SortedSet.mem_insert_iff.2 ?_, fun _ _ h ↦ h,
    fun hu s' slot h ↦ hshares.2 ?_⟩
  · by_cases heq : s = s'
    · exact .inl heq.symm
    · exact .inr (hu s' slot (by rwa [hshares, if_neg heq] at h))
  · split
    · rename_i heq
      exact hslots hu slot (heq ▸ h)
    · exact h

end Opens

end UnitNode

/-! ## Channels -/

namespace Turn

variable {t t' t'' m : Turn γ} {c : ChannelId} {waker : Option TaskId}

/-- The receiver of a channel that was empty has been sent a value, and may go on. It is nothing but
a signal, unless the channel is one on which somebody waits for news of the unit itself. -/
structure Tells (t : Turn γ) (c : ChannelId) (waker : Option TaskId) (t' : Turn γ) : Prop where
  value : ∃ p, t'.channels.slots[c]? = some (.full p) ∧ (c ∉ t.unit.listeners → p = .signal)
  woken : ∀ id ∈ waker, id ∈ t'.effects.woken

theorem slot_fill_self (h : t.channels.slots[c]? = some (.empty waker))
    (state : ChannelState Parcel) : (t.fill state c).channels.slots[c]? = some state ∧
      ∀ id ∈ waker, id ∈ (t.fill state c).effects.woken := by
  rw [fill, Channels.fill, h]
  refine ⟨?_, fun id hid ↦ List.mem_append_right _ (Option.mem_toList.2 hid)⟩
  rw [SortedMap.getElem?_insert_eq, if_pos rfl]

theorem slot_fill_of_ne {c' : ChannelId} (hne : c' ≠ c) (state : ChannelState Parcel) :
    (t.fill state c').channels.slots[c]? = t.channels.slots[c]? := by
  have hslot : (t.channels.fill c' state).2.slots[c]? = t.channels.slots[c]? := by
    rw [Channels.fill]
    split
    · exact (SortedMap.getElem?_insert_eq ..).trans (if_neg hne)
    · rfl
  exact hslot

theorem slot_fill_of_full {p : Parcel} (h : t.channels.slots[c]? = some (.full p))
    (state : ChannelState Parcel) (c' : ChannelId) :
    (t.fill state c').channels.slots[c]? = some (.full p) := by
  by_cases heq : c' = c
  · rw [fill, Channels.fill, heq, h]
    exact h
  · rw [slot_fill_of_ne heq, h]

theorem woken_fill {id : TaskId} (h : id ∈ t.effects.woken) (state : ChannelState Parcel)
    (c' : ChannelId) : id ∈ (t.fill state c').effects.woken :=
  List.mem_append_left _ h

/-- Whoever is told something has it afterwards. -/
theorem slot_tell_of_mem {cs : List ChannelId} (hc : c ∈ cs)
    (h : t.channels.slots[c]? = some (.empty waker)) (p : Parcel) :
    (t.tell cs p).channels.slots[c]? = some (.full p) ∧
      ∀ id ∈ waker, id ∈ (t.tell cs p).effects.woken := by
  have hrest (cs : List ChannelId) (t : Turn γ) (hfull : t.channels.slots[c]? = some (.full p))
      (hwoken : ∀ id ∈ waker, id ∈ t.effects.woken) :
      (t.tell cs p).channels.slots[c]? = some (.full p) ∧
        ∀ id ∈ waker, id ∈ (t.tell cs p).effects.woken := by
    induction cs generalizing t with
    | nil => exact ⟨hfull, hwoken⟩
    | cons c' cs ih =>
      exact ih _ (slot_fill_of_full hfull _ c') fun id hid ↦ woken_fill (hwoken id hid) _ c'
  induction cs generalizing t with
  | nil => exact absurd hc List.not_mem_nil
  | cons c' cs ih =>
    by_cases heq : c' = c
    · obtain ⟨hfull, hwoken⟩ := slot_fill_self h (.full p)
      exact hrest cs _ (heq ▸ hfull) (heq ▸ hwoken)
    · exact ih ((List.mem_cons.1 hc).resolve_left (Ne.symm heq))
        ((slot_fill_of_ne heq _).trans h)

/-! ## In the course of an operation -/

/-- What can be told of two states of a unit in the course of an operation in which it opens no slot
of a scope of another unit. -/
structure Passes (t t' : Turn γ) : Prop where
  id : t'.unit.id = t.unit.id
  shares : ∀ s slot, t'.unit.shares s slot = true → t.unit.shares s slot = true
  waits : ∃ es, t'.effects.waits = t.effects.waits ++ es ∧ t'.unit.waits = t.unit.waits.after es
  listeners : ∀ c ∈ t'.unit.listeners, c ∈ t.unit.listeners
  woken : ∀ id ∈ t.effects.woken, id ∈ t'.effects.woken
  empty : ∀ (c : ChannelId) waker, t.channels.slots[c]? = some (.empty waker) →
    t'.channels.slots[c]? = some (.empty waker) ∨ t.Tells c waker t'
  full : ∀ (c : ChannelId) p, t.channels.slots[c]? = some (.full p) →
    t'.channels.slots[c]? = some (.full p)

namespace Passes

theorem trans (h : t.Passes t') (h' : t'.Passes t'') : t.Passes t'' where
  id := h'.id.trans h.id
  shares s slot hshares := h.shares s slot (h'.shares s slot hshares)
  waits := by
    obtain ⟨es, hlog, hwaits⟩ := h.waits
    obtain ⟨es', hlog', hwaits'⟩ := h'.waits
    refine ⟨es ++ es', ?_, ?_⟩
    · rw [hlog', hlog, List.append_assoc]
    · rw [hwaits', hwaits, TokenBag.after_append]
  listeners c hc := h.listeners c (h'.listeners c hc)
  woken id hid := h'.woken id (h.woken id hid)
  empty c waker hslot := by
    obtain hslot' | ⟨⟨p, hfull, hsignal⟩, hwoken⟩ := h.empty c waker hslot
    · obtain hslot'' | ⟨⟨p, hfull, hsignal⟩, hwoken⟩ := h'.empty c waker hslot'
      · exact .inl hslot''
      · exact .inr ⟨⟨p, hfull, fun hc ↦ hsignal fun hc' ↦ hc (h.listeners c hc')⟩, hwoken⟩
    · exact .inr ⟨⟨p, h'.full c p hfull, hsignal⟩, fun id hid ↦ h'.woken id (hwoken id hid)⟩
  full c p hslot := h'.full c p (h.full c p hslot)

/-- Nothing has been sent, and nobody was told anything. -/
theorem of_unit (hid : t'.unit.id = t.unit.id)
    (hshares : ∀ s slot, t'.unit.shares s slot = true → t.unit.shares s slot = true)
    (hwaits : ∃ es, t'.effects.waits = t.effects.waits ++ es ∧
      t'.unit.waits = t.unit.waits.after es)
    (hlisteners : ∀ c ∈ t'.unit.listeners, c ∈ t.unit.listeners)
    (hwoken : t'.effects.woken = t.effects.woken) (hchannels : t'.channels = t.channels) :
    t.Passes t' where
  id := hid
  shares := hshares
  waits := hwaits
  listeners := hlisteners
  woken _ h := hwoken ▸ h
  empty _ _ h := .inl (hchannels ▸ h)
  full _ _ h := hchannels ▸ h

theorem refl (t : Turn γ) : t.Passes t :=
  .of_unit rfl (fun _ _ h ↦ h) ⟨[], (List.append_nil _).symm, rfl⟩ (fun _ h ↦ h) rfl rfl

/-- The unit has changed, and nothing that it kept closed on scopes of others is open. -/
theorem edit {f : UnitNode γ → UnitNode γ}
    (hf : ((f t.unit).id, (f t.unit).waits, (f t.unit).listeners) =
      (t.unit.id, t.unit.waits, t.unit.listeners))
    (hshares : ∀ s slot, (f t.unit).shares s slot = true → t.unit.shares s slot = true) :
    t.Passes (t.edit f) := by
  simp only [Prod.mk.injEq] at hf
  obtain ⟨hid, hwaits, hlisteners⟩ := hf
  exact .of_unit hid hshares ⟨[], (List.append_nil _).symm, hwaits⟩ (fun _ hc ↦ hlisteners ▸ hc) rfl rfl

/-- The unit tells something to those who wait for news of it, or gives a signal. -/
theorem tell (h : t.Passes t') {cs : List ChannelId} {p : Parcel}
    (hcs : ∀ c ∈ cs, c ∈ t.unit.listeners ∨ p = .signal) : t.Passes (t'.tell cs p) := by
  induction cs generalizing t' with
  | nil => exact h
  | cons c cs ih =>
    refine ih ?_ fun c' hc' ↦ hcs c' (List.mem_cons_of_mem c hc')
    refine ⟨h.id, h.shares, h.waits, h.listeners, fun id hid ↦ woken_fill (h.woken id hid) _ c,
      fun c' waker hslot ↦ ?_, fun c' q hslot ↦ slot_fill_of_full (h.full c' q hslot) _ c⟩
    obtain hslot' | ⟨⟨q, hfull, hsignal⟩, hwoken⟩ := h.empty c' waker hslot
    · by_cases heq : c = c'
      · obtain ⟨hfull, hwoken⟩ := slot_fill_self (heq ▸ hslot') (.full p)
        refine .inr ⟨⟨p, heq ▸ hfull, fun hc ↦ ?_⟩, heq ▸ hwoken⟩
        exact (hcs c List.mem_cons_self).resolve_left (heq ▸ hc)
      · exact .inl ((slot_fill_of_ne heq _).trans hslot')
    · exact .inr ⟨⟨q, slot_fill_of_full hfull _ c, hsignal⟩,
        fun id hid ↦ woken_fill (hwoken id hid) _ c⟩

end Passes

/-! ## Nothing is closed -/

/-- Nothing has happened by which a slot is closed, or a slot of a scope of another unit opened. -/
structure Calms (t t' : Turn γ) : Prop where
  passes : t.Passes t'
  opens : t.unit.Opens t'.unit

namespace Calms

theorem refl (t : Turn γ) : t.Calms t := ⟨.refl t, .refl _⟩

theorem trans (h : t.Calms t') (h' : t'.Calms t'') : t.Calms t'' :=
  ⟨h.passes.trans h'.passes, h.opens.trans h'.opens⟩

theorem of_vigil (hvigil : t'.unit.vigil = t.unit.vigil)
    (hlisteners : ∀ c ∈ t'.unit.listeners, c ∈ t.unit.listeners)
    (hwaits : t'.effects.waits = t.effects.waits) (hwoken : t'.effects.woken = t.effects.woken)
    (hchannels : t'.channels = t.channels) : t.Calms t' := by
  refine ⟨.of_unit (congrArg Prod.fst hvigil) (fun s slot h ↦ ?_)
    ⟨[], hwaits.trans (List.append_nil _).symm, congrArg (·.2.2.1) hvigil⟩ hlisteners hwoken hchannels,
    .of_vigil hvigil⟩
  have hshared : t'.unit.shared = t.unit.shared := congrArg (·.2.1) hvigil
  rwa [UnitNode.shares, hshared] at h

/-- What concerns neither the unit nor channels. -/
theorem other (h : t.Calms t') (hunit : t''.unit = t'.unit)
    (hwaits : t''.effects.waits = t'.effects.waits) (hwoken : t''.effects.woken = t'.effects.woken)
    (hchannels : t''.channels = t'.channels) : t.Calms t'' :=
  h.trans (.of_vigil (congrArg _ hunit) (fun _ hc ↦ hunit ▸ hc) hwaits hwoken hchannels)

theorem send (h : t.Calms t') (receiver : UnitId) (message : Message) :
    t.Calms (t'.send receiver message) :=
  h.other rfl rfl rfl rfl

theorem addUnit (h : t.Calms t') (u : UnitNode γ) : t.Calms (t'.addUnit u) :=
  h.other rfl rfl rfl rfl

theorem edit (h : t.Calms t') {f : UnitNode γ → UnitNode γ}
    (hf : ((f t'.unit).vigil, (f t'.unit).listeners) = (t'.unit.vigil, t'.unit.listeners)) :
    t.Calms (t'.edit f) := by
  have hlisteners : (f t'.unit).listeners = t'.unit.listeners := congrArg Prod.snd hf
  exact h.trans (.of_vigil (congrArg Prod.fst hf) (fun _ hc ↦ hlisteners ▸ hc) rfl rfl rfl)

/-- Something is let known for good to those who wait for it. -/
theorem settle (h : t.Calms t') {f : UnitNode γ → UnitNode γ}
    (hf : (f t'.unit).vigil = t'.unit.vigil) {cs : List ChannelId}
    (hcs : ∀ c, c ∈ (f t'.unit).listeners ∨ c ∈ cs → c ∈ t'.unit.listeners) (p : Parcel) :
    t.Calms ((t'.edit f).tell cs p) := by
  have hedited : t'.Calms (t'.edit f) := .of_vigil hf (fun c hc ↦ hcs c (.inl hc)) rfl rfl rfl
  refine h.trans ⟨hedited.passes.tell fun c hc ↦ .inl (hcs c (.inr hc)), ?_⟩
  rw [unit_tell]
  exact hedited.opens

theorem settleActive (h : t.Calms t') (a : Activation) : t.Calms (t'.settleActive a) := by
  refine h.settle (by rfl) (fun c hc ↦ ?_) _
  simp only [UnitNode.mem_listeners, Promise.waiters_settle, List.not_mem_nil] at hc ⊢
  tauto

theorem settleDecision (h : t.Calms t') (p : Option Renaming) : t.Calms (t'.settleDecision p) := by
  refine h.settle (by rfl) (fun c hc ↦ ?_) _
  simp only [UnitNode.mem_listeners, Promise.waiters_settle, List.not_mem_nil] at hc ⊢
  tauto

theorem endLocalPhase (h : t.Calms t') : t.Calms t'.endLocalPhase := by
  refine h.settle (by rfl) (fun c hc ↦ ?_) _
  simp only [UnitNode.mem_listeners, Promise.waiters_settle, List.not_mem_nil] at hc ⊢
  tauto

theorem tryFinish (h : t.Calms t') : t.Calms t'.tryFinish := by
  rw [Turn.tryFinish]
  split
  · refine other (h.settle (by rfl) (fun c hc ↦ ?_) _) rfl rfl rfl rfl
    simp only [UnitNode.mem_listeners, Promise.waiters_settle, List.not_mem_nil] at hc ⊢
    tauto
  · exact h

theorem waitFor (h : t.Calms t') (token : Token) (holder : UnitId) :
    t.Calms (t'.waitFor token holder) :=
  h.trans ⟨.of_unit rfl (fun _ _ h ↦ h) ⟨[.raised token holder], rfl, rfl⟩ (fun _ h ↦ h) rfl rfl,
    (UnitNode.Opens.refl _).waitFor token holder⟩

theorem waitForAll (h : t.Calms t') (tokens : List Token) (holder : UnitId) :
    t.Calms (t'.waitForAll tokens holder) := by
  induction tokens generalizing t' with
  | nil => exact h
  | cons token tokens ih => exact ih (h.waitFor token holder)

/-- Several things one after the other. -/
theorem foldl {ι : Type} {f : Turn γ → ι → Turn γ} (h : t.Calms t')
    (hf : ∀ (t : Turn γ) i, t.Calms (f t i)) (is : List ι) : t.Calms (is.foldl f t') := by
  induction is generalizing t' with
  | nil => exact h
  | cons i is ih => exact ih (h.trans (hf t' i))

theorem fail (h : t.Calms t') (reason : String) : t.Calms (t'.fail reason) :=
  (((h.edit (by rfl)).settleActive _).settleDecision _).tryFinish

/-! ### Graphs and sub-units -/

theorem assertEdge (h : t.Calms t') (e : Edge) : t.Calms (t'.assertEdge e) := by
  rw [Turn.assertEdge]
  split
  · exact (h.edit (f := fun u ↦ { u with graph := u.graph.addEdge e }) (by rfl)).edit (by rfl)
  · exact (h.send _ _).edit (by rfl)

theorem assertDatum (h : t.Calms t') (s : Scope) (d : Datum) : t.Calms (t'.assertDatum s d) := by
  rw [Turn.assertDatum]
  split
  · exact (h.edit (f := fun u ↦ { u with graph := u.graph.setDatum s d }) (by rfl)).edit (by rfl)
  · exact h.edit (by rfl)

theorem assertGraph (h : t.Calms t') (g : ScopeGraph) (p : Renaming) : t.Calms (t'.assertGraph g p) :=
  (h.foldl (fun t (e : Edge) ↦ (refl t).assertEdge (e.rename p)) _).foldl
    (fun t (e : Scope × Datum) ↦ (refl t).assertDatum (p.apply e.1) (e.2.rename p)) _

theorem handRoot (h : t.Calms t') (child : UnitId) (root : Scope) :
    t.Calms (Turn.handRoot child t' root) := by
  rw [Turn.handRoot]
  split
  · exact h.waitFor _ _
  · exact h.send _ _

theorem addSubUnit (h : t.Calms t') (name : String) (kind : UnitKind γ) (roots : List Scope)
    (changed : Bool) : t.Calms (t'.addSubUnit name kind roots changed).2 := by
  unfold Turn.addSubUnit
  extract_lets u child previous before paired node reusing handed waiting added
  split
  · exact h
  · split
    · exact h
    · have hpaired : t.Calms paired := h.edit (by rfl)
      have hhanded : t.Calms handed := hpaired.foldl (fun t root ↦ (refl t).handRoot child root) roots
      have hadded : t.Calms added :=
        ((hhanded.waitFor (.subUnit child) child).addUnit reusing).send child (.start roots)
      exact hadded.edit (f := fun u ↦ { u with subUnits := u.subUnits.insert name child }) (by rfl)

theorem replaySubUnits (h : t.Calms t') : t.Calms t'.replaySubUnits :=
  h.foldl (fun t _ ↦ (refl t).addSubUnit _ _ _ _) _

theorem addRemovedSubUnits (h : t.Calms t') : t.Calms t'.addRemovedSubUnits :=
  h.foldl (fun t _ ↦ ((refl t).addUnit _).send _ _) _

theorem startRemoved (h : t.Calms t') : t.Calms t'.startRemoved := by
  unfold Turn.startRemoved
  extract_lets told settled
  have htold : t.Calms told := h.edit (by rfl)
  have hsettled : t.Calms settled := (htold.settleActive _).settleDecision _
  exact (hsettled.edit (by rfl)).addRemovedSubUnits.tryFinish

theorem closeShare (h : t.Calms t') (s : Scope) (slots : List Slot) :
    t.Calms (t'.closeShare s slots) :=
  (h.foldl (fun t slot ↦ (refl t).send s.owner (.closeEdge t.unit.id s slot)) slots).send _ _

theorem initRoot (h : t.Calms t') (root : Scope) : t.Calms (t'.initRoot root) := by
  rw [Turn.initRoot]
  split
  · exact h
  · have htaken : t'.unit.Opens { t'.unit with initialized := t'.unit.initialized.insert root } :=
      ⟨rfl, rfl, fun hu s slot hshares ↦ SortedSet.mem_insert_iff.2 (.inr (hu s slot hshares)),
        fun _ _ hopen ↦ hopen, fun _ _ _ hshares ↦ hshares⟩
    have hedited : t'.Calms (t'.edit fun u ↦ { u with initialized := u.initialized.insert root }) :=
      ⟨.edit rfl fun _ _ h ↦ h, htaken⟩
    exact (h.trans hedited).send _ _

end Calms

/-! ## Whoever waits is told -/

/-- In some moment of an operation somebody waited for a slot that was closed, and the list was gone
through. -/
def Rouses (t : Turn γ) (d : Delay) (t' : Turn γ) : Prop :=
  ∃ m : Turn γ, t.Passes m ∧ d ∈ m.unit.delays ∧ m.unit.isClosed d.scope d.slot = true ∧
    m.fireDelays.Passes t'

/-- Whoever waited for a slot does so still, or was told when it was closed. -/
structure Heeds (t t' : Turn γ) : Prop where
  passes : t.Passes t'
  delays : ∀ d ∈ t.unit.delays, d ∈ t'.unit.delays ∨ t.Rouses d t'
  alert : t.unit.IsAlert → t'.unit.IsAlert

theorem unit_fireDelays (t : Turn γ) : t.fireDelays.unit = { t.unit with
    delays := t.unit.delays.filter fun d ↦ !t.unit.isClosed d.scope d.slot } := by
  rw [fireDelays, unit_tell]
  rfl

theorem passes_fireDelays (t : Turn γ) : t.Passes t.fireDelays := by
  have hdropped : t.Passes (t.edit fun u ↦
      { u with delays := u.delays.filter fun d ↦ !t.unit.isClosed d.scope d.slot }) :=
    .edit rfl fun _ _ h ↦ h
  exact hdropped.tell fun _ _ ↦ .inr rfl

theorem passes_lower (t : Turn γ) (token : Token) (holder : UnitId) :
    t.Passes (t.lower token holder) := by
  rw [lower]
  split
  · exact .refl t
  · rename_i waits hwaits
    refine .of_unit rfl (fun _ _ h ↦ h) ⟨[.granted token holder], rfl, ?_⟩ (fun _ h ↦ h) rfl rfl
    change waits = (t.unit.waits.remove? token holder).getD t.unit.waits
    rw [hwaits]
    rfl

/-- Whoever is off the list was sent something, and may go on. -/
theorem Rouses.tells {d : Delay} (h : t.Rouses d t')
    (hslot : t.channels.slots[d.reply]? = some (.empty waker)) : t.Tells d.reply waker t' := by
  obtain ⟨m, hbefore, hd, hclosed, hafter⟩ := h
  obtain hslot' | ⟨⟨p, hfull, hsignal⟩, hwoken⟩ := hbefore.empty _ _ hslot
  · have hreply : d.reply ∈
        (m.unit.delays.filter fun d ↦ m.unit.isClosed d.scope d.slot).map Delay.reply :=
      List.mem_map_of_mem (List.mem_filter.2 ⟨hd, hclosed⟩)
    obtain ⟨hfull, hwoken⟩ := slot_tell_of_mem (t := m.edit fun u ↦ { u with
      delays := u.delays.filter fun d ↦ !m.unit.isClosed d.scope d.slot }) hreply hslot' .signal
    exact ⟨⟨.signal, hafter.full _ _ hfull, fun _ ↦ rfl⟩, fun id hid ↦ hafter.woken id (hwoken id hid)⟩
  · have hthrough := m.passes_fireDelays.trans hafter
    exact ⟨⟨p, hthrough.full _ _ hfull, hsignal⟩, fun id hid ↦ hthrough.woken id (hwoken id hid)⟩

namespace Heeds

theorem trans (h : t.Heeds t') (h' : t'.Heeds t'') : t.Heeds t'' where
  passes := h.passes.trans h'.passes
  delays d hd := by
    obtain hd' | ⟨m, hbefore, hmem, hclosed, hafter⟩ := h.delays d hd
    · obtain hd'' | ⟨m, hbefore, hmem, hclosed, hafter⟩ := h'.delays d hd'
      · exact .inl hd''
      · exact .inr ⟨m, h.passes.trans hbefore, hmem, hclosed, hafter⟩
    · exact .inr ⟨m, hbefore, hmem, hclosed, hafter.trans h'.passes⟩
  alert hu := h'.alert (h.alert hu)

theorem of_calms (h : t.Calms t') : t.Heeds t' :=
  ⟨h.passes, fun _ hd ↦ .inl (h.opens.delays ▸ hd), h.opens.alert⟩

theorem refl (t : Turn γ) : t.Heeds t := .of_calms (.refl t)

theorem calm (h : t.Heeds t') (h' : t'.Calms t'') : t.Heeds t'' := h.trans (.of_calms h')

/-- Something may have been closed, and the list is gone through. -/
theorem fire (hpasses : t.Passes m) (hdelays : m.unit.delays = t.unit.delays)
    (hannounced : t.unit.IsAnnounced → m.unit.IsAnnounced) : t.Heeds m.fireDelays := by
  refine ⟨hpasses.trans m.passes_fireDelays, fun d hd ↦ ?_, fun hu ↦ ?_⟩ <;> rw [unit_fireDelays]
  · by_cases hclosed : m.unit.isClosed d.scope d.slot = true
    · exact .inr ⟨m, hpasses, hdelays ▸ hd, hclosed, .refl _⟩
    · rw [Bool.not_eq_true] at hclosed
      exact .inl (List.mem_filter.2 ⟨hdelays ▸ hd, by rw [hclosed]; rfl⟩)
  · refine ⟨hannounced hu.announced, fun d hd ↦ ?_⟩
    have hopen := (List.mem_filter.1 hd).2
    rwa [Bool.not_eq_true'] at hopen

theorem grant (h : t.Heeds t') (token : Token) (holder : UnitId) :
    t.Heeds (t'.grant token holder) := by
  have hlowered : t'.Heeds (t'.lower token holder).fireDelays := by
    have hsame : (t'.lower token holder).unit.delays = t'.unit.delays ∧
        (t'.unit.IsAnnounced → (t'.lower token holder).unit.IsAnnounced) := by
      rw [lower]
      split <;> exact ⟨rfl, fun hu ↦ hu⟩
    exact .fire (t'.passes_lower token holder) hsame.1 hsame.2
  rw [lower] at hlowered
  rw [Turn.grant]
  split
  · exact h
  · rename_i heq
    rw [heq] at hlowered
    exact (h.trans hlowered).calm (Calms.refl _).tryFinish

theorem grantAll (h : t.Heeds t') (tokens : List (Token × UnitId)) :
    t.Heeds (t'.grantAll tokens) := by
  induction tokens generalizing t' with
  | nil => exact h
  | cons e tokens ih => exact ih (h.grant e.1 e.2)

/-! ### Running and ending -/

theorem restart (h : t.Heeds t') (trace : Trace) : t.Heeds (t'.restart trace) := by
  rw [Turn.restart]
  split
  · extract_lets active settled compared
    have hactive : t.Heeds active := h.calm ((Calms.refl t').edit (by rfl))
    have hsettled : t.Heeds settled :=
      hactive.calm (((Calms.refl active).settleActive _).settleDecision _)
    have hcompared : t.Heeds compared := by
      unfold compared
      split
      · exact hsettled.calm ((Calms.refl settled).edit (by rfl))
      · exact hsettled
    exact hcompared.grant _ _
  · exact h

theorem eagerStart (h : t.Heeds t') : t.Heeds t'.eagerStart := by
  rw [Turn.eagerStart]
  split
  · exact h.restart _
  · exact h

theorem checkerFinished (h : t.Heeds t') (result : Except String Datum) :
    t.Heeds (t'.checkerFinished result) := by
  unfold Turn.checkerFinished
  split
  · exact h
  · extract_lets ended captured released done settled active rest
    have hended : t'.Calms ended := by
      cases result <;> exact (Calms.refl t').edit (by rfl)
    have hcaptured : t'.Calms captured := by
      unfold captured
      split
      · exact (hended.edit (by rfl)).endLocalPhase
      · exact hended
    have hdone : t'.Calms done := hcaptured.edit (by rfl)
    have hactive : t.Heeds active :=
      (h.calm ((hdone.settleActive _).settleDecision _)).grant _ _
    have hrest : t.Heeds rest := by
      unfold rest
      split
      · exact hactive
      · exact hactive.calm (Calms.refl active).addRemovedSubUnits
    exact hrest.calm (Calms.refl rest).tryFinish

/-- Everything that is kept open on scopes of other units is given up. -/
theorem clear (h : t.Heeds t') (hm : (t'.edit fun u ↦ { u with shared := ∅ }).Calms m) :
    t.Heeds m.fireDelays := by
  have hcleared (s : Scope) (slot : Slot) :
      ¬ (t'.edit fun u ↦ { u with shared := ∅ }).unit.shares s slot = true := by
    simp [UnitNode.shares, edit]
  have hpasses : t'.Passes (t'.edit fun u ↦ { u with shared := ∅ }) :=
    .edit rfl fun s slot hshares ↦ absurd hshares (hcleared s slot)
  exact h.trans (.fire (hpasses.trans hm.passes) hm.opens.delays fun _ ↦
    hm.opens.announced fun s slot hshares ↦ absurd hshares (hcleared s slot))

theorem grantClosures (h : t.Heeds t') : t.Heeds t'.grantClosures := (h.grantAll _).clear (.refl _)

theorem closeShares (h : t.Heeds t') : t.Heeds t'.closeShares :=
  h.clear (((Calms.refl _).foldl (fun t (e : Scope × SortedSet Slot) ↦
    (Calms.refl t).closeShare e.1 e.2.toList) _).foldl (fun t root ↦ (Calms.refl t).initRoot root) _)

theorem dropShared (h : t.Heeds t') (s : Scope) (slot : Slot) : t.Heeds (t'.dropShared s slot) := by
  have hkept (s' : Scope) (slot' : Slot) : UnitNode.shares { t'.unit with
      shared := t'.unit.shared.insert s (((t'.unit.shared[s]?).getD ∅).erase slot) } s' slot' = true →
      t'.unit.shares s' slot' = true :=
    fun hshares ↦ (UnitNode.shares_erase_iff.1 hshares).1
  exact h.trans (.fire (.edit rfl hkept) rfl fun hu s' slot' hshares ↦
    hu s' slot' (hkept s' slot' hshares))

theorem shareInitialized (h : t.Heeds t') (sender : UnitId) (s : Scope) (slots : List Slot)
    (sharing : Bool) : t.Heeds (t'.shareInitialized sender s slots sharing) := by
  rw [Turn.shareInitialized]
  have hraised : t'.Calms (t'.waitForAll (slots.map (.closeSlot s)) sender) :=
    (Calms.refl t').waitForAll _ _
  split
  · exact (h.calm (hraised.waitFor _ _)).grant _ _
  · exact (h.calm hraised).grant _ _

/-! ### Starting and reuse -/

theorem replay (h : t.Heeds t') (previous : Report) (p : Renaming) :
    t.Heeds (t'.replay previous p) := by
  unfold Turn.replay
  extract_lets captured known own counters begun asserted
  have hasserted : t'.Calms asserted := ((Calms.refl t').edit (by rfl)).assertGraph _ _
  exact ((h.calm hasserted).grantAll _).closeShares

theorem release (h : t.Heeds t') (p : Renaming) : t.Heeds (t'.release p) := by
  unfold Turn.release
  split
  · rename_i previous _ _
    extract_lets replayed told settled
    have hreplayed : t.Heeds replayed :=
      replay (h.calm ((Calms.refl t').edit (f := fun u ↦ { u with reuse := some p }) (by rfl))) _ _
    clear_value replayed
    have hsettled : replayed.Calms settled :=
      ((((Calms.refl replayed).edit (by rfl)).settleActive _).settleDecision _).endLocalPhase
    exact ((hreplayed.calm hsettled).grant _ _).calm (Calms.refl _).replaySubUnits
  · exact h

theorem startReplaying (h : t.Heeds t') : t.Heeds t'.startReplaying := by
  unfold Turn.startReplaying
  split
  · exact h.calm ((Calms.refl t').fail _)
  · rename_i previous _
    extract_lets p replayed told handed
    have hreplayed : t.Heeds replayed :=
      replay (h.calm ((Calms.refl t').edit (f := fun u ↦ { u with reuse := some p }) (by rfl))) _ _
    clear_value replayed
    have hhanded : replayed.Calms handed :=
      ((((Calms.refl replayed).edit (by rfl)).settleActive _).settleDecision _).replaySubUnits
    exact hreplayed.calm (hhanded.edit (by rfl)).tryFinish

theorem startLibrary (h : t.Heeds t') (lib : Library) : t.Heeds (t'.startLibrary lib) := by
  unfold Turn.startLibrary
  extract_lets asserted active settled
  have hasserted : t'.Calms asserted := by
    unfold asserted
    cases lib.bind t'.unit.id t'.unit.roots with
    | ok bound =>
      exact ((Calms.refl t').edit (f := fun u ↦
        { u with scopes := bound.1.foldl (fun ss s ↦ ss.insert s) u.scopes }) (by rfl)).assertGraph
          bound.2 .identity
    | error e => exact (Calms.refl t').edit (by rfl)
  clear_value asserted
  have hsettled : t.Heeds settled :=
    (h.calm (((hasserted.edit (by rfl)).settleActive _).settleDecision _)).closeShares
  clear_value settled
  exact hsettled.calm ((Calms.refl settled).edit (by rfl)).tryFinish

theorem start (h : t.Heeds t') (roots : List Scope) : t.Heeds (t'.start roots) := by
  unfold Turn.start
  split
  · exact h
  · extract_lets begun told
    have htold : t.Heeds told := by
      have hbegun : t.Heeds begun := h.calm ((Calms.refl t').edit (by rfl))
      unfold told
      split
      · exact hbegun.calm ((Calms.refl begun).send _ _)
      · exact hbegun
    split
    · exact htold.calm (((Calms.refl told).waitFor _ _).other rfl rfl rfl rfl)
    · exact htold.startReplaying
    · exact htold.calm (Calms.refl told).startRemoved
    · exact htold.startLibrary _

theorem handle (h : t.Heeds t') (message : Message) : t.Heeds (t'.handle message) := by
  cases message with
  | start roots => exact h.start roots
  | unitStarted | closeEdge | closeScope => exact h.grant _ _
  | initShare sender s slots sharing => exact h.shareInitialized sender s slots sharing
  | addShare sender s => exact h.calm ((Calms.refl t').waitFor _ _)
  | addEdge sender e =>
    rw [Turn.handle, receiveEdge]
    split
    · exact h.calm ((Calms.refl t').edit (by rfl))
    · exact h
  | query | queryPrevious | confirm | counterpart =>
    exact h.calm ((Calms.refl t').other rfl rfl rfl rfl)

end Heeds

end Turn

end ScopeGraphs
