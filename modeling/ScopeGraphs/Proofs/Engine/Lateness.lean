import ScopeGraphs.Proofs.Engine.Punctuality
import ScopeGraphs.Proofs.Libraries

/-!
# What units do in time

What is known of shared scopes is kept by everything that a unit does in one go, deed by deed, as
long as nothing is closed by force.
-/

namespace ScopeGraphs

variable {γ α : Type}

namespace Deed

/-- A calm deed, or a datum that is asserted. -/
def IsMild (id : UnitId) : Deed γ → Prop
  | datum _ _ => True
  | d => d.IsCalm id

theorem IsCalm.isMild {id : UnitId} {d : Deed γ} (h : d.IsCalm id) : d.IsMild id := by
  cases d with
  | datum => trivial
  | raise | lower | forget | send | join | edge | receive | share | hesitate => exact h

end Deed

/-- A unit that runs a checker or stands in for a unit that is gone neither replays anything nor
serves a library. -/
theorem UnitNode.kind_of_calm {u : UnitNode γ} (h : u.kind.isChecker ∨ u.isRemoved) :
    u.kind ≠ .phantom true ∧ ¬ u.kind.IsLibrary := by
  rw [isRemoved] at h
  cases hkind : u.kind with
  | checker => exact ⟨nofun, False.elim⟩
  | phantom replay =>
    rw [hkind] at h
    cases replay with
    | false => exact ⟨nofun, False.elim⟩
    | true => exact absurd h (by simp [UnitKind.isChecker])
  | library =>
    rw [hkind] at h
    exact absurd h (by simp [UnitKind.isChecker])

/-- A unit that has initialised a scope keeps the slots open with which it did, besides those that
it kept open before. -/
theorem Turn.shares_keepOpen_iff {t : Turn γ} {s s' : Scope} {slots : List Slot} {slot : Slot} :
    (t.keepOpen s slots).unit.shares s' slot = true ↔
      s = s' ∧ slot ∈ slots ∨ t.unit.shares s' slot = true := by
  have hshares : (t.keepOpen s slots).unit.shares s' slot = true ↔ if s = s' then
      slot ∈ slots.foldl (fun set slot ↦ set.insert slot) ((t.unit.shared[s]?).getD ∅)
      else t.unit.shares s' slot = true :=
    UnitNode.shares_insert_iff
  rw [hshares]
  split
  · rename_i heq
    obtain rfl := heq
    rw [SortedSet.mem_foldl_insert, ← UnitNode.shares_iff]
    simp
  · rename_i hne
    simp [hne]

namespace Core

/-- The state of a run with another state of one unit. -/
def put (c : Core γ) (u : UnitNode γ) : Core γ := { c with units := c.units.insert u.id u }

/-- What is known of shared scopes while a unit is doing something. -/
def PunctualAt (c : Core γ) (t : Turn γ) : Prop :=
  (c.put t.unit).Punctual t.effects.newUnits t.effects.messages

variable {c c' : Core γ} {t t' : Turn γ} {id : UnitId} {u : UnitNode γ} {m : Message}

theorem units_put (c : Core γ) (u : UnitNode γ) (k : UnitId) :
    (c.put u).units[k]? = if u.id = k then some u else c.units[k]? :=
  SortedMap.getElem?_insert_eq _ _ _ _

theorem units_put_eq_none_iff {k : UnitId} :
    (c.put u).units[k]? = none ↔ u.id ≠ k ∧ c.units[k]? = none := by
  rw [units_put]
  split <;> simp_all

theorem units_put_self (c : Core γ) (u : UnitNode γ) : (c.put u).units[u.id]? = some u :=
  (c.units_put u u.id).trans (if_pos rfl)

/-- A unit becomes what it has made of itself. -/
theorem becomes_put {v : UnitNode γ} (hu : c.units[u.id]? = some u) (hunits : c'.units = c.units)
    (hsetup : c'.setup = c.setup) (hid : v.id = u.id) (hkind : v.kind = u.kind)
    (hphase : v.phase = .created ∨ v.phase = .undecided → v.phase = u.phase) :
    c.Becomes u v (c'.put v) where
  old := hu
  units k := by rw [units_put, hid, hunits]
  setup := hsetup
  id := hid
  kind := hkind
  phase := hphase

namespace PunctualAt

/-! ## Deeds -/

theorem changed (h : c.PunctualAt t) (hid : t'.unit.id = t.unit.id)
    (hkind : t'.unit.kind = t.unit.kind)
    (hphase : t'.unit.phase = .created ∨ t'.unit.phase = .undecided →
      t'.unit.phase = t.unit.phase)
    (hnewUnits : t'.effects.newUnits = t.effects.newUnits)
    (hmessages : t'.effects.messages = t.effects.messages)
    (htally : t.unit.waits.tally.AtMost t.unit.id t'.unit.waits.tally)
    (hkept : ∀ (s : Scope) (l : Label), s.owner ≠ t.unit.id → t'.unit.shares s (.edge l) = true →
      0 < ((c.put t.unit).balance t.effects.messages s.owner t.unit.id s l).opens) :
    c.PunctualAt t' := by
  have hb : (c.put t.unit).Becomes t.unit t'.unit (c.put t'.unit) :=
    { old := c.units_put_self _
      units := fun k ↦ by
        rw [units_put, units_put, hid]
        split <;> rfl
      setup := rfl
      id := hid
      kind := hkind
      phase := hphase }
  rw [PunctualAt, hnewUnits, hmessages]
  exact Punctual.changed h hb rfl htally hkept

theorem keeps (h : c.PunctualAt t) (hkeeps : t.Keeps t')
    (htally : t.unit.waits.tally.AtMost t.unit.id t'.unit.waits.tally) : c.PunctualAt t' := by
  refine h.changed hkeeps.id hkeeps.kind hkeeps.phase hkeeps.newUnits hkeeps.messages htally
    fun s l hne hshares ↦ ?_
  rw [UnitNode.shares, hkeeps.shared] at hshares
  exact Punctual.kept h _ _ (c.units_put_self _) s l hne hshares

theorem notes (h : c.PunctualAt t) (hnotes : t.Notes t') : c.PunctualAt t' :=
  h.keeps (.notes hnotes) (hnotes.unit.waits ▸ .refl _ _)

theorem raise (h : c.PunctualAt t) (token : Token) (holder : UnitId) :
    c.PunctualAt (t.waitFor token holder) := by
  refine h.keeps (.after (d := .raise token holder) trivial) fun u _ s l ↦ ?_
  rw [TokenBag.tally, TokenBag.tally, Turn.count_waitFor, Turn.count_waitFor]
  exact ⟨Nat.le_add_left _ _, Nat.le_add_left _ _⟩

/-- A unit may give up what it waits for itself, and what is no matter of shared scopes. -/
theorem lower (h : c.PunctualAt t) {token : Token} {holder : UnitId}
    (hown : token.isClosure → holder = t.unit.id) : c.PunctualAt (t.lower token holder) := by
  refine h.keeps (.after (d := .lower token holder) trivial) fun u hu s l ↦ ?_
  have hforeign (closure : Token) (hclosure : closure.isClosure) :
      (token, holder) ≠ (closure, u) := fun heq ↦ by
    obtain ⟨rfl, rfl⟩ := Prod.mk.inj heq
    exact hu (hown hclosure)
  rw [TokenBag.tally, TokenBag.tally, Turn.count_lower, Turn.count_lower,
    if_neg (hforeign (.initScope s) rfl), if_neg (hforeign (.closeSlot s (.edge l)) rfl)]
  exact ⟨Nat.le_refl _, Nat.le_refl _⟩

/-- A message is sent that says nothing of shared scopes, or makes their owner count on more. -/
theorem send (h : c.PunctualAt t) (receiver : UnitId)
    (hm : (Deed.send (γ := γ) receiver m).IsCalm t.unit.id) : c.PunctualAt (t.send receiver m) := by
  cases m with
  | start | initShare | addEdge | closeEdge => exact hm.elim
  | unitStarted | addShare | closeScope | query | queryPrevious | confirm | counterpart =>
    exact Punctual.sent h rfl trivial (fun _ _ _ _ ↦ nofun) fun _ _ _ ↦ nofun

/-- A unit that has been started initialises a scope of another unit. -/
theorem sendInit (h : c.PunctualAt t) (receiver : UnitId) (s : Scope) (slots : List Slot)
    (sharing : Bool) (hphase : t.unit.phase ≠ .created) :
    c.PunctualAt (t.send receiver (.initShare t.unit.id s slots sharing)) := by
  refine Punctual.sent h rfl trivial (fun id s slots sharing heq ↦ ?_) fun _ _ _ ↦ nofun
  obtain ⟨rfl, -⟩ := Message.initShare.inj heq
  exact ⟨t.unit, c.units_put_self _, hphase⟩

/-- A unit that does not keep a slot open any longer says so. -/
theorem sendClose (h : c.PunctualAt t) (receiver : UnitId) (s : Scope) (slot : Slot)
    (hclosed : t.unit.shares s slot = false) :
    c.PunctualAt (t.send receiver (.closeEdge t.unit.id s slot)) := by
  refine Punctual.sent h rfl trivial (fun _ _ _ _ ↦ nofun) fun id s' l heq w hw ↦ ?_
  obtain ⟨rfl, rfl, rfl⟩ := Message.closeEdge.inj heq
  obtain rfl := Option.some.inj ((c.units_put_self _).symm.trans hw)
  exact hclosed

/-- An edge is asserted. The owner of its source has to count on it. -/
theorem edge (h : c.PunctualAt t) (e : Edge) (hopen : e.source.owner ≠ t.unit.id →
    ((c.put t.unit).balance t.effects.messages e.source.owner t.unit.id e.source e.label).IsOpen) :
    c.PunctualAt (t.assertEdge e) := by
  have hlocal {t' : Turn γ} (h : c.PunctualAt t') :
      c.PunctualAt (t'.edit fun u ↦ { u with localGraph := u.localGraph.addEdge e }) :=
    h.keeps ⟨rfl, rfl, rfl, fun _ ↦ rfl, rfl, rfl⟩ (.refl _ _)
  rw [Turn.assertEdge]
  split
  · exact hlocal (h.keeps ⟨rfl, rfl, rfl, fun _ ↦ rfl, rfl, rfl⟩ (.refl _ _))
  · rename_i hforeign
    have hne : e.source.owner ≠ t.unit.id := fun heq ↦ hforeign (UnitNode.owns_iff.2 heq)
    exact hlocal (Punctual.sent h rfl ⟨Ne.symm hne, hopen hne⟩ (by simp) (by simp))

theorem after (h : c.PunctualAt t) {d : Deed γ} (hd : d.IsMild t.unit.id) :
    c.PunctualAt (d.after t) := by
  cases d with
  | raise token holder => exact h.raise token holder
  | lower token holder => exact h.lower hd
  | send receiver m => exact h.send receiver hd
  | join u roots =>
    obtain ⟨hphantom, hlibrary⟩ := UnitNode.kind_of_calm hd.2
    exact Punctual.toJoin h hd.1 hphantom fun hserves ↦ absurd hserves hlibrary
  | datum s d =>
    have hwaits : (t.assertDatum s d).unit.waits = t.unit.waits := by
      rw [Turn.assertDatum]
      split <;> rfl
    exact h.keeps (.after (d := .datum s d) trivial) (hwaits.symm ▸ .refl _ _)
  | forget | edge | receive | share | hesitate => exact hd.elim

theorem moves (h : c.PunctualAt t) (hmoves : t.Moves (Deed.IsMild t.unit.id) t') :
    c.PunctualAt t' := by
  induction hmoves with
  | refl => exact h
  | note _ hnotes ih => exact ih.notes hnotes
  | deed hmoves hd ih => exact ih.after (hmoves.id.symm ▸ hd)

theorem calm (h : c.PunctualAt t) (hmoves : t.Moves (Deed.IsCalm t.unit.id) t') :
    c.PunctualAt t' :=
  h.moves (hmoves.mono fun _ hd ↦ hd.isMild)

/-! ## Shared scopes -/

/-- A unit initialises a scope of another unit and keeps slots of it open. -/
theorem keepOpen (h : c.PunctualAt t) (hphase : t.unit.phase ≠ .created) (s : Scope)
    (slots : List Slot) (sharing : Bool) :
    c.PunctualAt ((t.keepOpen s slots).send s.owner (.initShare t.unit.id s slots sharing)) := by
  have hsent := h.sendInit s.owner s slots sharing hphase
  refine hsent.changed rfl rfl (fun _ ↦ rfl) rfl rfl (.refl _ _) fun s' l hne hshares ↦ ?_
  rcases Turn.shares_keepOpen_iff.1 hshares with ⟨rfl, hmem⟩ | hold
  · change 0 < ((c.put t.unit).balance (t.effects.messages ++ _) s.owner t.unit.id s l).opens
    rw [balance_append, if_pos rfl, Tally.after_initShare]
    exact Nat.lt_of_lt_of_le (List.count_pos_iff.2 hmem) (Nat.le_add_right _ _)
  · exact Punctual.kept hsent _ _ (c.units_put_self _) s' l hne hold

/-- A unit closes a slot of another unit's scope. -/
theorem dropShared (h : c.PunctualAt t) (s : Scope) (slot : Slot) :
    c.PunctualAt ((t.dropShared s slot).send s.owner (.closeEdge t.unit.id s slot)) := by
  have hdropped : c.PunctualAt (t.dropShared s slot) := by
    have hedited : c.PunctualAt (t.edit fun u ↦
        { u with shared := u.shared.insert s (((u.shared[s]?).getD ∅).erase slot) }) := by
      refine h.changed rfl rfl (fun _ ↦ rfl) rfl rfl (.refl _ _) fun s' l hne hshares ↦ ?_
      exact Punctual.kept h _ _ (c.units_put_self _) s' l hne (UnitNode.shares_erase_iff.1 hshares).1
    exact hedited.calm (Turn.Moves.refl _).fireDelays
  have hid : (t.dropShared s slot).unit.id = t.unit.id :=
    (t.moves_dropShared (A := fun _ ↦ True) s slot fun _ ↦ trivial).id
  rw [← hid]
  refine hdropped.sendClose s.owner s slot ?_
  rw [Turn.dropShared, Turn.fireDelays, Turn.unit_tell, Bool.eq_false_iff]
  exact fun hshares ↦ (UnitNode.shares_erase_iff.1 hshares).2 ⟨rfl, rfl⟩

theorem initScope (h : c.PunctualAt t) (s : Scope) (labels : List Label) (sharing : Bool) :
    c.PunctualAt (Attempt.initScope s labels sharing t).2 := by
  rw [Attempt.initScope, Attempt.requireLive_bind]
  split
  · rename_i hact
    rw [Attempt.unit_bind]
    split
    · rename_i hown
      exact h.calm (t.moves_shareInitialized _ s _ sharing
        (fun _ ↦ ⟨rfl, UnitNode.owns_iff.1 hown⟩) trivial fun _ ↦ rfl)
    · refine h.keepOpen (fun hphase ↦ ?_) s _ sharing
      rw [UnitNode.mayAct, hphase] at hact
      exact absurd hact nofun
  · exact h

theorem closeLabel (h : c.PunctualAt t) (s : Scope) (l : Label) :
    c.PunctualAt (Attempt.closeLabel s l t).2 := by
  rw [Attempt.closeLabel, Attempt.requireLive_bind]
  split
  · rw [Attempt.unit_bind]
    split
    · exact h.calm ((Turn.Moves.refl t).grant fun _ ↦ rfl)
    · split
      · exact h.dropShared s (.edge l)
      · exact h
  · exact h

/-- A checker adds edges to scopes of other units only while it keeps the label open. -/
theorem addEdge (h : c.PunctualAt t) (e : Edge) : c.PunctualAt (Attempt.addEdge e t).2 := by
  rw [Attempt.addEdge, Attempt.requireLive_bind]
  split
  · rw [Attempt.commit_bind]
    split
    · exact h
    · have hstarted : c.PunctualAt t.eagerStart := h.calm t.moves_eagerStart
      rw [Attempt.unit_bind]
      split
      · rename_i hown
        have hadded : c.PunctualAt (t.eagerStart.assertEdge e) :=
          hstarted.edge e fun hne ↦ absurd (UnitNode.owns_iff.1 hown) hne
        rw [Attempt.requireKnown_bind]
        split
        · rw [Attempt.require_bind]
          split
          · exact hadded
          · exact hstarted
        · exact hstarted
      · rw [Attempt.require_bind]
        split
        · rename_i hshares
          exact hstarted.edge e fun hne ↦ .inr
            (Punctual.kept hstarted _ _ (c.units_put_self _) e.source e.label hne hshares)
        · exact hstarted
  · exact h

end PunctualAt

/-! ## Sub-units -/

section

variable {roots : List Scope}

/-- Whoever counts on a unit still does when another unit changes and counts on no less. -/
theorem CountsOn.changed (h : (c.put t.unit).CountsOn t.effects.messages id roots)
    (hid : t'.unit.id = t.unit.id) (hmessages : t'.effects.messages = t.effects.messages)
    (htally : t.unit.waits.tally.AtMost t.unit.id t'.unit.waits.tally) :
    (c.put t'.unit).CountsOn t'.effects.messages id roots := by
  have hmost (k : UnitId) : ((c.put t.unit).tally k).AtMost k ((c.put t'.unit).tally k) := by
    rw [tally, tally, units_put, units_put, hid]
    split
    · rename_i heq
      exact heq ▸ htally
    · exact .refl _ _
  rw [hmessages]
  refine h.mono fun r l hne ↦ ?_
  have hless : ((c.put t.unit).balance t.effects.messages r.owner).AtMost r.owner
      ((c.put t'.unit).balance t.effects.messages r.owner) := balance_mono rfl (hmost r.owner)
  exact (hless id (Ne.symm hne) r l).1

/-- Whoever counts on a unit still does when a message is sent, unless it is the news that this unit
has initialised a scope. -/
theorem CountsOn.send (h : (c.put t.unit).CountsOn t.effects.messages id roots) (receiver : UnitId)
    (hm : ∀ s slots sharing, m ≠ .initShare id s slots sharing) :
    (c.put (t.send receiver m).unit).CountsOn (t.send receiver m).effects.messages id roots := by
  refine h.mono fun r l _ ↦ ?_
  change _ ≤ ((c.put t.unit).balance (t.effects.messages ++ [(receiver, m)]) r.owner id r l).inits
  rw [balance_append]
  split
  · exact Tally.inits_le_after _ r l hm
  · exact Nat.le_refl _

theorem CountsOn.assertEdge (h : (c.put t.unit).CountsOn t.effects.messages id roots) (e : Edge) :
    (c.put (t.assertEdge e).unit).CountsOn (t.assertEdge e).effects.messages id roots := by
  unfold Turn.assertEdge
  split
  · exact h.changed rfl rfl (.refl _ _)
  · exact (h.send e.source.owner (m := .addEdge t.unit.id e) fun _ _ _ ↦ nofun).changed rfl rfl
      (.refl _ _)

end

/-- A unit has handed some scopes to a unit that it is about to add, and their owners count on
it. -/
structure HandsOver (c : Core γ) (child : UnitId) (handed : List Scope) (t : Turn γ) : Prop where
  punctual : c.PunctualAt t
  newUnits : t.effects.newUnits = []
  counted : (c.put t.unit).units[child]? = none →
    (c.put t.unit).CountsOn t.effects.messages child handed

namespace HandsOver

variable {child : UnitId} {handed : List Scope}

theorem waitFor (h : c.HandsOver child handed t) (token : Token) (holder : UnitId) :
    c.HandsOver child handed (t.waitFor token holder) where
  punctual := h.punctual.raise token holder
  newUnits := h.newUnits
  counted hnone := by
    obtain ⟨hne, hmissing⟩ := units_put_eq_none_iff.1 hnone
    refine (h.counted (units_put_eq_none_iff.2 ⟨hne, hmissing⟩)).changed rfl rfl fun u _ s l ↦ ?_
    rw [TokenBag.tally, TokenBag.tally, Turn.count_waitFor, Turn.count_waitFor]
    exact ⟨Nat.le_add_left _ _, Nat.le_add_left _ _⟩

/-- One more scope is handed over. -/
theorem handRoot (h : c.HandsOver child handed t) (root : Scope) :
    c.HandsOver child (handed ++ [root]) (t.handRoot child root) := by
  rw [Turn.handRoot]
  split
  · rename_i hown
    have hwaits := h.waitFor (.initScope root) child
    refine ⟨hwaits.punctual, hwaits.newUnits, fun hnone r hr hne l ↦ ?_⟩
    rcases List.mem_append.1 hr with hr | hr
    · exact hwaits.counted hnone r hr hne l
    · obtain rfl := List.mem_singleton.1 hr
      have howner : r.owner = t.unit.id := UnitNode.owns_iff.1 hown
      have hsilent := Punctual.silent hwaits.punctual child
        (fun u hu ↦ absurd (hnone.symm.trans hu) (by simp)) r.owner
      refine Nat.lt_of_lt_of_le ?_ (Tally.inits_le_through _ r l hsilent)
      have hself : (c.put (t.waitFor (.initScope r) child).unit).units[t.unit.id]? =
          some (t.waitFor (.initScope r) child).unit := c.units_put_self _
      rw [howner, tally_of_some hself, TokenBag.tally, Turn.count_waitFor, if_pos rfl]
      exact Nat.lt_add_right _ Nat.one_pos
  · refine ⟨h.punctual.send root.owner trivial, h.newUnits, fun hnone r hr hne l ↦ ?_⟩
    rcases List.mem_append.1 hr with hr | hr
    · exact (h.counted hnone).send root.owner (m := .addShare child root) (by simp) r hr hne l
    · obtain rfl := List.mem_singleton.1 hr
      change 0 < ((c.put t.unit).balance (t.effects.messages ++ _) r.owner child r l).inits
      rw [balance_append, if_pos rfl, Tally.after_addShare]
      exact Nat.lt_add_right _ Nat.one_pos

theorem handRoots (h : c.HandsOver child handed t) (roots : List Scope) :
    c.HandsOver child (handed ++ roots) (roots.foldl (Turn.handRoot child) t) := by
  induction roots generalizing t handed with
  | nil => exact (List.append_nil handed).symm ▸ h
  | cons root roots ih => exact List.append_cons handed root roots ▸ ih (h.handRoot root)

end HandsOver

/-- Adding a sub-unit that does not replay anything. -/
theorem PunctualAt.addSubUnit (h : c.PunctualAt t) (hnewUnits : t.effects.newUnits = [])
    (name : String) {kind : UnitKind γ} (hkind : kind ≠ .phantom true) (roots : List Scope)
    (changed : Bool) : c.PunctualAt (t.addSubUnit name kind roots changed).2 := by
  unfold Turn.addSubUnit
  extract_lets u child previous before paired node reusing handed waiting added
  split
  · exact h
  · split
    · exact h
    · have hpaired : c.PunctualAt paired := h.calm ((Turn.Moves.refl t).edit (by rfl))
      have hhanded : c.HandsOver child roots handed :=
        HandsOver.handRoots ⟨hpaired, hnewUnits, fun _ ↦ List.forall_mem_nil _⟩ roots
      have hwaiting : c.HandsOver child roots waiting := hhanded.waitFor _ _
      obtain ⟨hblank, hsame, hid⟩ : reusing.IsBlank ∧ reusing.kind = kind ∧ reusing.id = child := by
        unfold reusing
        split <;> exact ⟨⟨rfl, rfl, rfl, rfl, rfl, rfl, rfl⟩, rfl, rfl⟩
      have hadded : c.PunctualAt added := by
        have hjoined := Punctual.toJoin hwaiting.punctual hblank (hsame ▸ hkind) fun _ ↦
          ⟨hwaiting.newUnits, hid ▸ hwaiting.counted⟩
        rwa [hid] at hjoined
      exact hadded.calm ((Turn.Moves.refl added).edit (f := fun u ↦
        { u with subUnits := u.subUnits.insert name child }) rfl)

/-! ## Units that serve libraries -/

namespace PunctualAt

variable {roots : List Scope}

/-- A unit asserts edges of scopes of its own and of scopes that it is counted on to initialise. -/
theorem edges (h : c.PunctualAt t)
    (hroots : (c.put t.unit).CountsOn t.effects.messages t.unit.id roots) (es : List Edge)
    (hes : ∀ e ∈ es, e.source ∈ roots ∨ e.source.owner = t.unit.id) :
    c.PunctualAt (es.foldl (fun t e ↦ t.assertEdge e) t) := by
  induction es generalizing t with
  | nil => exact h
  | cons e es ih =>
    obtain ⟨he, hes⟩ := List.forall_mem_cons.1 hes
    have hasserted : c.PunctualAt (t.assertEdge e) :=
      h.edge e fun hne ↦ .inl (hroots e.source (he.resolve_right hne) hne e.label)
    have hid : (t.assertEdge e).unit.id = t.unit.id := Deed.id_after t (.edge e)
    exact ih hasserted (hid.symm ▸ hroots.assertEdge e) fun e' he' ↦ hid.symm ▸ hes e' he'

/-- A unit asserts a graph on scopes of its own and on scopes that it is counted on to
initialise. -/
theorem assertGraph (h : c.PunctualAt t)
    (hroots : (c.put t.unit).CountsOn t.effects.messages t.unit.id roots) (g : ScopeGraph)
    (hg : ∀ e ∈ g.edges, e.source ∈ roots ∨ e.source.owner = t.unit.id) :
    c.PunctualAt (t.assertGraph g .identity) := by
  have hdata (ds : List (Scope × Datum)) (t : Turn γ) : t.Moves (Deed.IsMild t.unit.id)
      (ds.foldl (fun t e ↦ t.assertDatum (Renaming.identity.apply e.1) (e.2.rename .identity)) t) :=
    (Turn.Moves.refl t).foldl ds fun e _ t _ ↦ (Turn.Moves.refl t).deed (d := .datum _ _) trivial
  exact (h.edges hroots g.edges.toList fun e he ↦ hg e (Std.ExtTreeSet.mem_toList.1 he)).moves
    (hdata _ _)

/-- A unit that keeps nothing open any longer says so of a scope. -/
theorem closeShare (h : c.PunctualAt t) (hshared : t.unit.shared = ∅) (s : Scope)
    (slots : List Slot) : c.PunctualAt (t.closeShare s slots) ∧
      (t.closeShare s slots).unit = t.unit := by
  have hslots : c.PunctualAt (slots.foldl
      (fun t slot ↦ t.send s.owner (.closeEdge t.unit.id s slot)) t) ∧
      (slots.foldl (fun t slot ↦ t.send s.owner (.closeEdge t.unit.id s slot)) t).unit = t.unit := by
    induction slots generalizing t with
    | nil => exact ⟨h, rfl⟩
    | cons slot slots ih =>
      have hclosed := UnitNode.shares_of_empty hshared s slot
      exact ih (h.sendClose s.owner s slot hclosed) hshared
  exact ⟨hslots.1.send s.owner trivial, hslots.2⟩

theorem initRoot (h : c.PunctualAt t) (hphase : t.unit.phase ≠ .created) (root : Scope) :
    c.PunctualAt (t.initRoot root) ∧ (t.initRoot root).unit.phase ≠ .created := by
  rw [Turn.initRoot]
  split
  · exact ⟨h, hphase⟩
  · have hedited : c.PunctualAt
        (t.edit fun u ↦ { u with initialized := u.initialized.insert root }) :=
      h.keeps ⟨rfl, rfl, rfl, fun _ ↦ rfl, rfl, rfl⟩ (.refl _ _)
    exact ⟨hedited.sendInit root.owner root [] false hphase, hphase⟩

theorem closeShares (h : c.PunctualAt t) (hphase : t.unit.phase ≠ .created) :
    c.PunctualAt t.closeShares := by
  have hemptied : c.PunctualAt (t.edit fun u ↦ { u with shared := ∅ }) :=
    h.changed rfl rfl (fun _ ↦ rfl) rfl rfl (.refl _ _) fun _ _ _ hshares ↦ absurd hshares nofun
  have hclosed (shared : List (Scope × SortedSet Slot)) {t : Turn γ} (h : c.PunctualAt t)
      (hshared : t.unit.shared = ∅) :
      c.PunctualAt (shared.foldl (fun t e ↦ t.closeShare e.1 e.2.toList) t) ∧
        (shared.foldl (fun t e ↦ t.closeShare e.1 e.2.toList) t).unit = t.unit := by
    induction shared generalizing t with
    | nil => exact ⟨h, rfl⟩
    | cons e shared ih =>
      obtain ⟨hnext, hunit⟩ := h.closeShare hshared e.1 e.2.toList
      obtain ⟨hrest, hunits⟩ := ih hnext (hunit ▸ hshared)
      exact ⟨hrest, hunits.trans hunit⟩
  have hroots (roots : List Scope) {t : Turn γ} (h : c.PunctualAt t)
      (hphase : t.unit.phase ≠ .created) : c.PunctualAt (roots.foldl Turn.initRoot t) := by
    induction roots generalizing t with
    | nil => exact h
    | cons root roots ih =>
      obtain ⟨hnext, hphase⟩ := h.initRoot hphase root
      exact ih hnext hphase
  obtain ⟨hsaid, hunit⟩ := hclosed t.unit.shared.toList hemptied rfl
  have hrooted := hroots (t.unit.shared.toList.foldl (fun t e ↦ t.closeShare e.1 e.2.toList)
    (t.edit fun u ↦ { u with shared := ∅ })).unit.roots hsaid (by rw [hunit]; exact hphase)
  exact hrooted.calm (Turn.Moves.refl _).fireDelays

/-- A unit that serves a library starts, with roots that it is counted on to initialise. -/
theorem startLibrary (h : c.PunctualAt t)
    (hroots : (c.put t.unit).CountsOn t.effects.messages t.unit.id t.unit.roots)
    (hfresh : ∀ i, Library.freshScope t.unit.id i ∉ t.unit.roots) (lib : Library) :
    c.PunctualAt (t.startLibrary lib) := by
  unfold Turn.startLibrary
  extract_lets asserted active settled
  have hasserted : c.PunctualAt asserted := by
    unfold asserted
    split
    · rename_i own graph hbind
      have hknown : c.PunctualAt (t.edit fun u ↦
          { u with scopes := own.foldl (fun ss s ↦ ss.insert s) u.scopes }) :=
        h.calm ((Turn.Moves.refl t).edit (by rfl))
      exact hknown.assertGraph (hroots.changed rfl rfl (.refl _ _)) graph fun e he ↦
        lib.source_of_bind hbind hfresh he
    · exact h.calm ((Turn.Moves.refl t).edit (by rfl))
  clear_value asserted
  have hactive : c.PunctualAt active :=
    hasserted.calm ((Turn.Moves.refl asserted).enter rfl ⟨nofun, nofun⟩)
  have hsettled : c.PunctualAt settled := by
    refine (hactive.calm (((Turn.Moves.refl active).settleActive .running).settleDecision
      none)).closeShares ?_
    rw [Turn.settleDecision, Turn.unit_tell]
    change (active.settleActive .running).unit.phase ≠ .created
    rw [Turn.settleActive, Turn.unit_tell]
    exact nofun
  clear_value settled
  exact hsettled.calm ((Turn.Moves.refl settled).edit (by rfl)).tryFinish

end PunctualAt

end Core

end ScopeGraphs
