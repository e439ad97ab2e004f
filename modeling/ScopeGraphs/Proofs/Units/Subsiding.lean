import ScopeGraphs.Proofs.Wait.Tokens
import ScopeGraphs.Units.Operation

/-!
# What leaves the slots of a unit alone

Most of what happens to a unit has nothing to do with its slots: it adds nothing to its fragment,
and the tokens it raises keep no slot open. Tokens may be granted on the way, so a slot may be
closed, but none is opened. Such a change is said to *subside*; changes of this kind can be chained,
and everything but a handful of operations consists of them.
-/

namespace ScopeGraphs

variable {γ : Type}

/-! ## Subsiding -/

/-- What a change must leave alone to have no influence on slots. -/
def UnitNode.frame (u : UnitNode γ) :
    UnitId × Option Report × Option Renaming × SortedMap String UnitId × SortedSet Scope ×
      SortedMap String Nat × ScopeGraph × TokenBag :=
  (u.id, u.previous, u.reuse, u.subUnits, u.scopes, u.counters, u.graph, u.waits)

/-- The second unit is the first one after a change that leaves its slots alone, except that some of
them may have been closed. -/
structure UnitNode.Subsides (u v : UnitNode γ) : Prop where
  id : v.id = u.id
  previous : v.previous = u.previous
  reuse : v.reuse = u.reuse
  subUnits : v.subUnits = u.subUnits
  scopes : v.scopes = u.scopes
  counters : v.counters = u.counters
  graph : v.graph = u.graph
  closed : ∀ {s : Scope} {slot : Slot}, u.waits.isOpen s slot = false →
    v.waits.isOpen s slot = false

namespace UnitNode.Subsides

variable {u v w : UnitNode γ} {t : Turn γ}

theorem refl (u : UnitNode γ) : u.Subsides u := ⟨rfl, rfl, rfl, rfl, rfl, rfl, rfl, fun h ↦ h⟩

theorem trans (h : u.Subsides v) (h' : v.Subsides w) : u.Subsides w where
  id := h'.id.trans h.id
  previous := h'.previous.trans h.previous
  reuse := h'.reuse.trans h.reuse
  subUnits := h'.subUnits.trans h.subUnits
  scopes := h'.scopes.trans h.scopes
  counters := h'.counters.trans h.counters
  graph := h'.graph.trans h.graph
  closed hclosed := h'.closed (h.closed hclosed)

/-- Changes to other parts of the unit. -/
theorem edit (h : u.Subsides t.unit) {f : UnitNode γ → UnitNode γ}
    (hf : (f t.unit).frame = t.unit.frame) : u.Subsides (t.edit f).unit := by
  simp only [frame, Prod.mk.injEq] at hf
  obtain ⟨hid, hprevious, hreuse, hsubUnits, hscopes, hcounters, hgraph, hwaits⟩ := hf
  exact h.trans ⟨hid, hprevious, hreuse, hsubUnits, hscopes, hcounters, hgraph,
    fun hclosed ↦ hwaits ▸ hclosed⟩

end UnitNode.Subsides

namespace Turn

variable (t : Turn γ)

@[simp] theorem unit_fillAll (state : ChannelState Parcel) (receivers : List ChannelId) :
    (receivers.foldl (fill state) t).unit = t.unit := by
  induction receivers generalizing t with
  | nil => rfl
  | cons c cs ih => exact ih _

@[simp] theorem unit_tell (receivers : List ChannelId) (p : Parcel) :
    (t.tell receivers p).unit = t.unit :=
  t.unit_fillAll _ _

end Turn

namespace UnitNode.Subsides

variable {u : UnitNode γ} {t : Turn γ}

theorem send (h : u.Subsides t.unit) (receiver : UnitId) (m : Message) :
    u.Subsides (t.send receiver m).unit :=
  h

theorem tell (h : u.Subsides t.unit) (receivers : List ChannelId) (p : Parcel) :
    u.Subsides (t.tell receivers p).unit := by
  rwa [Turn.unit_tell]

theorem settleActive (h : u.Subsides t.unit) (a : Activation) :
    u.Subsides (t.settleActive a).unit :=
  (h.edit (by rfl)).tell _ _

theorem settleDecision (h : u.Subsides t.unit) (p : Option Renaming) :
    u.Subsides (t.settleDecision p).unit :=
  (h.edit (by rfl)).tell _ _

theorem endLocalPhase (h : u.Subsides t.unit) : u.Subsides t.endLocalPhase.unit :=
  (h.edit (by rfl)).tell _ _

/-! ### Tokens -/

/-- A token that is no closure token opens no slot. -/
theorem waitFor (h : u.Subsides t.unit) (token : Token) (htoken : token.isClosure = false)
    (holder : UnitId) : u.Subsides (t.waitFor token holder).unit := by
  refine h.trans ⟨rfl, rfl, rfl, rfl, rfl, rfl, rfl, fun {s slot} hclosed ↦ ?_⟩
  have hkeeps : token.keepsOpen s slot = false := by
    rw [Bool.eq_false_iff] at htoken ⊢
    exact fun hkeeps ↦ htoken (Token.isClosure_of_keepsOpen hkeeps)
  change (t.unit.waits.add token holder).any _ = false
  rw [TokenBag.any_add, hkeeps, Bool.false_or]
  exact hclosed

theorem fireDelays (h : u.Subsides t.unit) : u.Subsides t.fireDelays.unit :=
  (h.edit (by rfl)).tell _ _

theorem tryFinish (h : u.Subsides t.unit) : u.Subsides t.tryFinish.unit := by
  rw [Turn.tryFinish]
  split
  · exact (h.edit (by rfl)).tell _ _
  · exact h

/-- Without one of its tokens a unit keeps no more open than before. -/
theorem remove? {token : Token} {holder : UnitId} {waits : TokenBag}
    (hwaits : u.waits.remove? token holder = some waits) :
    u.Subsides { u with waits := waits } := by
  refine ⟨rfl, rfl, rfl, rfl, rfl, rfl, rfl, fun {s slot} hclosed ↦ ?_⟩
  rw [Bool.eq_false_iff] at hclosed ⊢
  exact fun hopen ↦ hclosed (TokenBag.any_of_remove? hwaits hopen)

theorem grant (h : u.Subsides t.unit) (token : Token) (holder : UnitId) :
    u.Subsides (t.grant token holder).unit := by
  rw [Turn.grant]
  split
  · exact h
  · rename_i waits hwaits
    exact tryFinish (fireDelays (h.trans (remove? hwaits)))

theorem grantAll (h : u.Subsides t.unit) (tokens : List (Token × UnitId)) :
    u.Subsides (t.grantAll tokens).unit := by
  rw [Turn.grantAll]
  induction tokens generalizing t with
  | nil => exact h
  | cons e es ih => exact ih (h.grant e.1 e.2)

/-! ### The life of a unit -/

theorem restart (h : u.Subsides t.unit) (trace : Trace) : u.Subsides (t.restart trace).unit := by
  unfold Turn.restart
  dsimp only
  split
  · refine grant ?_ _ _
    split
    · exact (((h.edit (by rfl)).settleActive _).settleDecision _).edit (by rfl)
    · exact ((h.edit (by rfl)).settleActive _).settleDecision _
  · exact h

theorem eagerStart (h : u.Subsides t.unit) : u.Subsides t.eagerStart.unit := by
  rw [Turn.eagerStart]
  split
  · exact h.restart _
  · exact h

theorem fail (h : u.Subsides t.unit) (reason : String) : u.Subsides (t.fail reason).unit :=
  (((h.edit (by rfl)).settleActive _).settleDecision _).tryFinish

theorem addRemovedSubUnits (h : u.Subsides t.unit) : u.Subsides t.addRemovedSubUnits.unit := by
  rw [Turn.addRemovedSubUnits]
  induction t.missingSubUnits generalizing t with
  | nil => exact h
  | cons e es ih => exact ih h

theorem startRemoved (h : u.Subsides t.unit) : u.Subsides t.startRemoved.unit := by
  unfold Turn.startRemoved
  extract_lets told settled
  have htold : u.Subsides told.unit := h.edit (by rfl)
  have hsettled : u.Subsides settled.unit := (htold.settleActive _).settleDecision _
  exact (hsettled.edit (by rfl)).addRemovedSubUnits.tryFinish

theorem checkerFinished (h : u.Subsides t.unit) (result : Except String Datum) :
    u.Subsides (t.checkerFinished result).unit := by
  unfold Turn.checkerFinished
  split
  · exact h
  · extract_lets ended captured released done settled active rest
    have hended : u.Subsides ended.unit := by
      cases result <;> exact h.edit (by rfl)
    have hcaptured : u.Subsides captured.unit := by
      unfold captured
      split
      · exact (hended.edit (by rfl)).endLocalPhase
      · exact hended
    have hdone : u.Subsides done.unit := hcaptured.edit (by rfl)
    have hsettled : u.Subsides settled.unit := (hdone.settleActive _).settleDecision _
    have hactive : u.Subsides active.unit := hsettled.grant _ _
    have hrest : u.Subsides rest.unit := by
      unfold rest
      split
      · exact hactive
      · exact hactive.addRemovedSubUnits
    exact hrest.tryFinish

theorem subUnitFinished (h : u.Subsides t.unit) (r : Report) :
    u.Subsides (t.subUnitFinished r).unit :=
  (h.edit (by rfl)).tryFinish

theorem captureEnd (h : u.Subsides t.unit) : u.Subsides t.capture.endLocalPhase.unit :=
  (h.edit (by rfl)).endLocalPhase

theorem grantClosures (h : u.Subsides t.unit) : u.Subsides t.grantClosures.unit :=
  ((h.grantAll _).edit (by rfl)).fireDelays

/-- A unit that is given up waits for nothing any more. -/
theorem failStuck (h : u.Subsides t.unit) : u.Subsides t.failStuck.unit := by
  unfold Turn.failStuck
  dsimp only
  split
  · exact h
  · refine fail (edit (endLocalPhase ?_) rfl) _
    rw [Turn.unit_fillAll]
    exact h.trans ⟨rfl, rfl, rfl, rfl, rfl, rfl, rfl, fun _ ↦ TokenBag.any_empty⟩

/-! ### Shared scopes -/

theorem dropShared (h : u.Subsides t.unit) (s : Scope) (slot : Slot) :
    u.Subsides (t.dropShared s slot).unit :=
  (h.edit (by rfl)).fireDelays

theorem closeShare (h : u.Subsides t.unit) (s : Scope) (slots : List Slot) :
    u.Subsides (t.closeShare s slots).unit := by
  change u.Subsides (slots.foldl (fun t slot ↦ t.send s.owner (.closeEdge t.unit.id s slot)) t).unit
  induction slots generalizing t with
  | nil => exact h
  | cons slot slots ih => exact ih h

theorem initRoot (h : u.Subsides t.unit) (root : Scope) : u.Subsides (t.initRoot root).unit := by
  rw [Turn.initRoot]
  split
  · exact h
  · exact (h.edit (by rfl)).send _ _

theorem closeShares (h : u.Subsides t.unit) : u.Subsides t.closeShares.unit := by
  have hshares {t : Turn γ} (h : u.Subsides t.unit) (shares : List (Scope × SortedSet Slot)) :
      u.Subsides (shares.foldl (fun t e ↦ t.closeShare e.1 e.2.toList) t).unit := by
    induction shares generalizing t with
    | nil => exact h
    | cons e es ih => exact ih (h.closeShare _ _)
  have hroots {t : Turn γ} (h : u.Subsides t.unit) (roots : List Scope) :
      u.Subsides (roots.foldl Turn.initRoot t).unit := by
    induction roots generalizing t with
    | nil => exact h
    | cons root roots ih => exact ih (h.initRoot _)
  exact (hroots (hshares (h.edit (by rfl)) _) _).fireDelays

/-! ### Waiting and asking -/

theorem listen {π : Type} {promise : UnitNode γ → Promise π}
    {put : Promise π → UnitNode γ → UnitNode γ} {wrap : π → Parcel} (h : u.Subsides t.unit)
    (hput : ∀ (p : Promise π) (v : UnitNode γ), v.Subsides (put p v)) :
    u.Subsides (t.listen promise put wrap).2.unit := by
  unfold Turn.listen
  dsimp only
  split
  · exact h
  · exact h.trans (hput _ _)

theorem awaitDecided (h : u.Subsides t.unit) : u.Subsides t.awaitDecided.2.unit := by
  have hlisten : u.Subsides (t.listen UnitNode.whenActive
      (fun p u ↦ { u with whenActive := p }) .activation).2.unit :=
    h.listen fun _ _ ↦ ⟨rfl, rfl, rfl, rfl, rfl, rfl, rfl, fun h ↦ h⟩
  rw [Turn.awaitDecided]
  split
  · exact hlisten
  · exact hlisten
  · exact hlisten
  · exact h

theorem awaitClosed (h : u.Subsides t.unit) (s : Scope) (slot : Slot) :
    u.Subsides (t.awaitClosed s slot).2.unit := by
  rw [Turn.awaitClosed]
  split
  · exact h
  · exact h.trans ⟨rfl, rfl, rfl, rfl, rfl, rfl, rfl, fun h ↦ h⟩

theorem awaitOpen (h : u.Subsides t.unit) : u.Subsides t.awaitOpen.2.unit :=
  h.listen fun _ _ ↦ ⟨rfl, rfl, rfl, rfl, rfl, rfl, rfl, fun h ↦ h⟩

theorem awaitDecision (h : u.Subsides t.unit) : u.Subsides t.awaitDecision.2.unit :=
  h.listen fun _ _ ↦ ⟨rfl, rfl, rfl, rfl, rfl, rfl, rfl, fun h ↦ h⟩

theorem awaitReport (h : u.Subsides t.unit) : u.Subsides t.awaitReport.2.unit :=
  h.listen fun _ _ ↦ ⟨rfl, rfl, rfl, rfl, rfl, rfl, rfl, fun h ↦ h⟩

theorem matchStep (h : u.Subsides t.unit) (s : Scope) : u.Subsides (t.matchStep s).2.unit := by
  unfold Turn.matchStep
  dsimp only
  split
  · exact h
  · split
    · exact h
    · split
      · split
        · exact h
        · exact h.edit (by rfl)
      · split <;> exact h

theorem diffScope (h : u.Subsides t.unit) (s : Scope) (labels : List Label) :
    u.Subsides (t.diffScope s labels).2.unit := by
  unfold Turn.diffScope
  split
  · exact h
  · exact h.edit (by rfl)

theorem ask (h : u.Subsides t.unit) (q : Question) : u.Subsides (t.ask q).2.unit := by
  refine waitFor (t := (t.newRequest.2).newChannel.2) h _ ?_ _
  cases q <;> rfl

theorem endQuery (h : u.Subsides t.unit) (token : Token) (record : Option QueryRecord) :
    u.Subsides (t.endQuery token record).unit :=
  (h.edit (by rfl)).grant _ _

end UnitNode.Subsides

end ScopeGraphs
