import ScopeGraphs.Proofs.Engine.Ties

/-!
# What a snapshot gives back

A unit waits for slots of its own scopes, and keeps slots of scopes of others open. In no course of
a run are the two ever mixed up (`Core.Course.isApart`), so a snapshot can list them together, and a
unit that resumes it has its own tokens back and keeps the slots of its root scopes open that it
kept open before (`Core.Course.regains_restore`). What a snapshot does not list are the scopes of
others that had been initialised. A unit that resumes it initialises all root scopes, also those
that had not been (`Core.not_always_resumed`).
-/

namespace ScopeGraphs

variable {γ α : Type}

/-! ## Own scopes and others -/

/-- A unit waits for slots of its own scopes only, and keeps slots of scopes of others open only. -/
structure UnitNode.IsApart (u : UnitNode γ) : Prop where
  own : ∀ s slot holder, 0 < u.waits.count (.closeSlot s slot) holder → s.owner = u.id
  foreign : ∀ s slot, u.shares s slot = true → s.owner ≠ u.id

theorem UnitNode.IsBlank.isApart {u : UnitNode γ} (h : u.IsBlank) : u.IsApart where
  own s slot holder hcount := by
    rw [h.waits] at hcount
    exact absurd hcount (Nat.lt_irrefl 0)
  foreign s slot hshares := by
    rw [shares, h.shared] at hshares
    contradiction

/-- A message about a scope that has been initialised comes to the owner of the scope. -/
def Message.IsAddressed (receiver : UnitId) : Message → Prop
  | initShare _ s _ _ => s.owner = receiver
  | _ => True

namespace Turn

/-- In the course of a go, a unit keeps its scopes and those of others apart, adds units that have
not done anything, and tells only the owners of scopes that it has initialised them. -/
structure IsApart (t : Turn γ) : Prop where
  unit : t.unit.IsApart
  blank : ∀ u ∈ t.effects.newUnits, u.IsBlank
  addressed : ∀ m ∈ t.effects.messages, m.2.IsAddressed m.1

namespace IsApart

variable {t t' : Turn γ}

/-- Only the unit has changed. -/
theorem changed (h : t.IsApart) (hunit : t'.unit.IsApart)
    (hnewUnits : t'.effects.newUnits = t.effects.newUnits)
    (hmessages : t'.effects.messages = t.effects.messages) : t'.IsApart :=
  ⟨hunit, hnewUnits ▸ h.blank, hmessages ▸ h.addressed⟩

theorem send (h : t.IsApart) {r : UnitId} {m : Message} (hm : m.IsAddressed r) :
    (t.send r m).IsApart :=
  ⟨h.unit, h.blank, fun m' hm' ↦ (List.mem_append.1 hm').elim (h.addressed m')
    fun heq ↦ by rwa [List.mem_singleton.1 heq]⟩

/-- A unit after which everything is as before, except that it may wait for less. -/
theorem of_le (h : t.IsApart) (hid : t'.unit.id = t.unit.id)
    (hshared : t'.unit.shared = t.unit.shared)
    (hwaits : ∀ token holder, t'.unit.waits.count token holder ≤ t.unit.waits.count token holder)
    (hnewUnits : t'.effects.newUnits = t.effects.newUnits)
    (hmessages : t'.effects.messages = t.effects.messages) : t'.IsApart := by
  refine h.changed ⟨fun s slot holder hcount ↦ ?_, fun s slot hshares ↦ ?_⟩ hnewUnits hmessages
  · rw [hid]
    exact h.unit.own s slot holder (Nat.lt_of_lt_of_le hcount (hwaits _ _))
  · rw [hid]
    rw [UnitNode.shares, hshared] at hshares
    exact h.unit.foreign s slot hshares

theorem deed (h : t.IsApart) {d : Deed γ} (hd : d.IsApart t.unit.id) : (d.after t).IsApart := by
  cases d with
  | raise token holder =>
    refine h.changed ⟨fun s slot holder' hcount ↦ ?_, h.unit.foreign⟩ rfl rfl
    rw [Deed.after, count_waitFor] at hcount
    split at hcount
    · rename_i heq
      rw [(Prod.mk.inj heq).1] at hd
      exact hd
    · rw [Nat.zero_add] at hcount
      exact h.unit.own s slot holder' hcount
  | lower token holder =>
    have hid := Deed.id_after t (.lower token holder)
    refine h.of_le hid ?_ (fun token' holder' ↦ ?_) ?_ ?_
    · rw [Deed.after, Turn.lower]
      split <;> rfl
    · rw [Deed.after, Turn.count_lower]
      exact Nat.sub_le _ _
    · exact Deed.newUnits_after t (by simp)
    · rw [Deed.after, Turn.lower]
      split <;> rfl
  | forget => exact h.of_le rfl rfl (fun _ _ ↦ Nat.zero_le _) rfl rfl
  | send r m =>
    refine h.send ?_
    cases m with
    | initShare => exact hd
    | start | unitStarted | addShare | addEdge | closeEdge | closeScope | query | queryPrevious |
      confirm | counterpart => trivial
  | join u roots =>
    have hadded : (t.addUnit u).IsApart :=
      ⟨h.unit, fun v hv ↦ (List.mem_append.1 hv).elim (h.blank v) fun heq ↦
        List.mem_singleton.1 heq ▸ hd, h.addressed⟩
    exact hadded.send trivial
  | edge e =>
    rw [Deed.after, Turn.assertEdge]
    split
    · exact h.of_le rfl rfl (fun _ _ ↦ le_rfl) rfl rfl
    · have hsent : (t.send e.source.owner (.addEdge t.unit.id e)).IsApart := h.send trivial
      exact hsent.of_le rfl rfl (fun _ _ ↦ le_rfl) rfl rfl
  | datum s d =>
    rw [Deed.after, Turn.assertDatum]
    split <;> exact h.of_le rfl rfl (fun _ _ ↦ le_rfl) rfl rfl
  | share x =>
    cases x with
    | keep s slots =>
      refine h.changed ⟨h.unit.own, fun s' slot hshares ↦ ?_⟩ rfl rfl
      by_cases hs : s = s'
      · exact hs ▸ hd
      · refine h.unit.foreign s' slot ?_
        rw [← hshares]
        change _ = ((t.unit.shared.insert s slots)[s']?).any _
        rw [SortedMap.getElem?_insert_eq, if_neg hs]
        rfl
    | take s => exact h.of_le rfl rfl (fun _ _ ↦ le_rfl) rfl rfl
    | clear =>
      exact h.changed ⟨h.unit.own, fun _ _ (hshares : false = true) ↦ absurd hshares (by simp)⟩ rfl rfl
  | hesitate => exact h.of_le rfl rfl (fun _ _ ↦ le_rfl) rfl rfl
  | receive => exact hd.elim

theorem moves (h : t.IsApart) (hmoves : t.Moves (Deed.IsApart t.unit.id) t') : t'.IsApart := by
  induction hmoves with
  | refl => exact h
  | note _ hnotes ih =>
    exact ih.of_le hnotes.unit.id hnotes.unit.shared (fun _ _ ↦ by rw [hnotes.unit.waits])
      hnotes.newUnits hnotes.messages
  | deed hmoves hd ih => exact ih.deed (hmoves.id.symm ▸ hd)

end IsApart

end Turn

/-- Every operation keeps the scopes of the unit and those of others apart, as long as messages
about a scope come to its owner. -/
theorem UnitOp.isApart_run (op : UnitOp γ α) {t : Turn γ} (h : t.IsApart)
    (hop : ∀ s, op.shared? = some s → s.owner = t.unit.id) : (op.run t).2.IsApart := by
  cases hreceived : op.received with
  | none => exact h.moves (op.moves_isApart t hreceived hop)
  | some e =>
    cases op with
    | handle m =>
      cases m with
      | addEdge sender e' =>
        change (t.receiveEdge e').IsApart
        rw [Turn.receiveEdge]
        split
        · exact h.of_le rfl rfl (fun _ _ ↦ le_rfl) rfl rfl
        · exact h
      | start | unitStarted | initShare | addShare | closeEdge | closeScope | query |
        queryPrevious | confirm | counterpart => contradiction
    | _ => contradiction

/-! ## What a snapshot lists -/

section

variable {u : UnitNode γ} {s : Scope} {slot : Slot}

/-- The tokens that a unit holds towards itself. -/
def UnitNode.ownTokens (u : UnitNode γ) : List Token :=
  u.waits.entries.filterMap fun e ↦ if e.2 = u.id then some e.1 else none

theorem UnitNode.count_ownTokens (token : Token) :
    u.ownTokens.count token = u.waits.count token u.id := by
  rw [ownTokens, count_filterMap_of_iff (i := (token, u.id)), TokenBag.count_entries]
  rintro ⟨token', holder⟩
  by_cases heq : holder = u.id <;> simp [heq]

namespace Turn

theorem count_uninitialized :
    (takeSnapshot u).uninitialized.count s = u.waits.count (.initScope s) u.id := by
  rw [← UnitNode.count_ownTokens]
  exact count_filterMap_of_iff (fun token ↦ by cases token <;> simp) u.ownTokens

theorem count_openScopes :
    (takeSnapshot u).openScopes.count s = u.waits.count (.closeScope s) u.id := by
  rw [← UnitNode.count_ownTokens]
  exact count_filterMap_of_iff (fun token ↦ by cases token <;> simp) u.ownTokens

theorem count_openSlots : (takeSnapshot u).openSlots.count (s, slot) =
    u.waits.count (.closeSlot s slot) u.id + (u.shares s slot).toNat := by
  rw [← UnitNode.count_ownTokens, ← UnitNode.count_sharedSlots]
  refine List.count_append.trans (congrArg (· + _) ?_)
  exact count_filterMap_of_iff (fun token ↦ by cases token <;> simp) u.ownTokens

/-- What a unit waits for by itself is what it waits for again when it resumes its state. -/
theorem count_ownTokens_takeSnapshot (h : u.IsApart) {token : Token} (htoken : token.isClosure) :
    ((takeSnapshot u).ownTokens u.id).count token = u.waits.count token u.id := by
  have hnone {ι : Type} {f : ι → Token} (hf : ∀ i, f i ≠ token) (is : List ι) :
      (is.map f).count token = 0 :=
    List.count_eq_zero.2 fun hmem ↦
      let ⟨i, _, heq⟩ := List.mem_map.1 hmem
      hf i heq
  let closeSlot (o : Scope × Slot) : Token := .closeSlot o.1 o.2
  rw [Snapshot.ownTokens, List.count_append, List.count_append]
  change _ + ((List.filter _ _).map closeSlot).count token = _
  cases token with
  | initScope s =>
    rw [hnone (f := .closeScope) (by simp), hnone (f := closeSlot) (by simp),
      ← count_uninitialized]
    exact List.count_map_of_injective _ _ (fun _ _ heq ↦ Token.initScope.inj heq) s
  | closeScope s =>
    rw [hnone (f := .initScope) (by simp), hnone (f := closeSlot) (by simp),
      ← count_openScopes, Nat.zero_add]
    exact List.count_map_of_injective _ _ (fun _ _ heq ↦ Token.closeScope.inj heq) s
  | closeSlot s slot =>
    rw [hnone (f := .initScope) (by simp), hnone (f := .closeScope) (by simp), Nat.zero_add,
      List.count_map_of_injective _ closeSlot (fun o o' heq ↦
        Prod.ext (Token.closeSlot.inj heq).1 (Token.closeSlot.inj heq).2) (s, slot)]
    by_cases hown : s.owner = u.id
    · have hclosed : u.shares s slot = false :=
        Bool.eq_false_iff.2 fun h' ↦ h.foreign s slot h' hown
      rw [List.count_filter (by simpa using hown), count_openSlots, hclosed]
      rfl
    · have hnever : ¬ 0 < u.waits.count (.closeSlot s slot) u.id := fun h' ↦
        hown (h.own s slot _ h')
      rw [Nat.eq_zero_of_not_pos hnever, List.count_eq_zero]
      exact fun hmem ↦ hown (of_decide_eq_true (List.mem_filter.1 hmem).2)
  | activate | query | confirm | counterpart | subUnit => contradiction

end Turn

end

/-! ## Courses -/

namespace Core

variable {c c' : Core γ} {us : List (UnitNode γ)} {ms : List (UnitId × Message)} {id : UnitId}
  {u : UnitNode γ}

/-- All units keep their scopes and those of others apart, and messages about a scope come to its
owner. -/
structure IsApart (c : Core γ) (us : List (UnitNode γ)) (ms : List (UnitId × Message)) : Prop where
  housed : c.Housed
  units : ∀ (id : UnitId) (u : UnitNode γ), c.units[id]? = some u → u.IsApart
  blank : ∀ u ∈ us, u.IsBlank
  addressed : ∀ id, ∀ m ∈ c.coming ms id, m.IsAddressed id

namespace IsApart

theorem other (h : IsApart c us ms) (hunits : c'.units = c.units) (hmail : c'.mail = c.mail) :
    IsApart c' us ms where
  housed := h.housed.other hunits hmail
  units id u hu := h.units id u (hunits ▸ hu)
  blank := h.blank
  addressed id m hm := by
    rw [coming, hmail] at hm
    exact h.addressed id m hm

theorem joined (h : IsApart c (u :: us) ms) : IsApart (c.addUnit u) us ms where
  housed := h.housed.addUnit u
  units id v hv := by
    rcases units_addUnit_eq_some_iff.1 hv with hold | ⟨-, -, rfl⟩
    · exact h.units id v hold
    · exact (h.blank u List.mem_cons_self).isApart
  blank v hv := h.blank v (List.mem_cons_of_mem _ hv)
  addressed id m hm := h.addressed id m (coming_addUnit u ▸ hm)

theorem posted {m : UnitId × Message} (h : IsApart c us (m :: ms)) : IsApart (c.post m) us ms where
  housed := h.housed.post m
  units := h.units
  blank := h.blank
  addressed id m' hm' := h.addressed id m' (coming_post h.housed m ▸ hm')

/-- An operation is carried out. -/
theorem carryOut (h : IsApart c [] []) (hu : c.units[id]? = some u) (op : UnitOp γ α)
    (hop : ∀ s, op.shared? = some s → s.owner = u.id) : IsApart (c.carryOut id u op) [] [] := by
  let t : Turn γ := ⟨u, .none, c.setup.settings, c.channels, c.nextRequest⟩
  have hstart : t.IsApart := ⟨h.units id u hu, List.forall_mem_nil _, List.forall_mem_nil _⟩
  have hrun : (op.run t).2.IsApart := op.isApart_run hstart hop
  have hturn : IsApart (c.turn u op).2.2 (op.run t).2.effects.newUnits
      (op.run t).2.effects.messages := by
    refine ⟨h.housed.turn hu op, fun k v hv ↦ ?_, hrun.blank, fun k m hm ↦ ?_⟩
    · rw [units_turn, SortedMap.getElem?_insert_eq_some_iff] at hv
      obtain ⟨-, rfl⟩ | ⟨-, hv⟩ := hv
      · exact hrun.unit
      · exact h.units k v hv
    · rw [coming, mail_turn] at hm
      rcases List.mem_append.1 hm with hold | hnew
      · exact h.addressed k m (coming_nil.symm ▸ hold)
      · exact hrun.addressed (k, m) (mem_sentTo.1 hnew)
  exact applyEffects_induction (P := fun c us ms ↦ IsApart c us ms) id _
    (fun hunits _ hmail h ↦ h.other hunits hmail) (fun _ _ _ _ h ↦ h.joined)
    (fun _ _ _ h ↦ h.posted) hturn

/-- A message is handled. -/
theorem handled (h : IsApart c [] []) (hu : c.units[id]? = some u) {m : Message}
    {mail : Mailboxes Message} (hmail : c.mail.Takes id m mail) :
    IsApart ({ c with mail := mail }.carryOut id u (.handle m)) [] [] := by
  have haddressed : m.IsAddressed id := by
    refine h.addressed id m ?_
    rw [coming_nil, hmail.queue, if_pos rfl]
    exact List.mem_cons_self
  have htaken : IsApart ({ c with mail := mail } : Core γ) [] [] := by
    refine ⟨h.housed.takes hmail, h.units, h.blank, fun k m' hm' ↦ h.addressed k m' ?_⟩
    rw [coming_nil] at hm' ⊢
    rw [hmail.queue k]
    exact List.mem_append_right _ hm'
  refine htaken.carryOut hu (.handle m) fun s hs ↦ ?_
  rw [h.housed.filed id u hu]
  cases m with
  | initShare => exact Option.some.inj hs ▸ haddressed
  | start | unitStarted | addShare | addEdge | closeEdge | closeScope | query | queryPrevious |
    confirm | counterpart => exact absurd hs nofun

theorem dropped (h : IsApart c [] []) (hunits : c'.units = c.units)
    (hmail : c'.mail = c.mail.dropParked.2) : IsApart c' [] [] where
  housed := h.housed.dropped hunits hmail
  units id u hu := h.units id u (hunits ▸ hu)
  blank := h.blank
  addressed id m hm := by
    refine h.addressed id m ?_
    rw [coming_nil, hmail, Mailboxes.queue, Mailboxes.parkedFor_dropParked, List.append_nil] at hm
    rw [coming_nil]
    exact List.mem_append_left _ hm

theorem move {o : Occurrence γ} (h : IsApart c [] []) (hmove : Move c o c') :
    IsApart c' [] [] := by
  cases hmove with
  | acted hu op hop =>
    refine h.carryOut hu op fun s hs ↦ ?_
    cases op with
    | handle => exact (hop trivial).elim
    | _ => exact absurd hs nofun
  | handled hu hmail => exact h.handled hu hmail
  | dropped hunits _ hmail => exact h.dropped hunits hmail
  | other hunits _ hmail => exact h.other hunits hmail

end IsApart

theorem isApart_start (setup : Setup) (root : UnitId) (code : γ) (previous : Option Report) :
    IsApart (start setup root code previous) [] [] := by
  refine ⟨housed_start _ _ _ _, fun id u hu ↦ ?_, List.forall_mem_nil _, fun id m hm ↦ ?_⟩
  · obtain ⟨-, rfl⟩ := units_start_eq_some_iff.1 hu
    exact (UnitNode.isBlank_new _ _ _ _ _ _).isApart
  · change m ∈ (Mailboxes.empty.enqueue root (Message.start [])).box id ++ [] ++ [] at hm
    rw [Mailboxes.box_enqueue, List.append_nil, List.append_nil] at hm
    split at hm
    · rw [List.mem_singleton.1 hm]
      trivial
    · exact absurd hm List.not_mem_nil

/-- In every course of a run, all units keep their scopes and those of others apart. -/
theorem Course.isApart {tr : List (Occurrence γ × Core γ)} (h : Course c tr c')
    (hc : IsApart c [] []) : IsApart c' [] [] := by
  induction h with
  | nil => exact hc
  | cons hmove _ ih => exact ih (hc.move hmove)

/-! ## Resuming -/

end Core

namespace Turn

/-- A unit has back what another one had when a snapshot of it was taken, besides what it had. Its
root scopes take the places of others; the roots of other units that it has not initialised yet it
initialises, with the slots that were open on their counterparts. -/
structure Regains (t : Turn γ) (u : UnitNode γ) (before : List Scope) (t' : Turn γ) : Prop where
  scopes : ∀ s, s ∈ t'.unit.scopes ↔ s ∈ u.scopes ∨ s ∈ t.unit.scopes
  counters : t'.unit.counters = u.counters
  tokens : ∀ token : Token, token.isClosure → t'.unit.waits.count token u.id =
    u.waits.count token u.id + t.unit.waits.count token u.id
  localGraph : t'.unit.localGraph =
    t.unit.localGraph.union (u.localGraph.rename (t.unit.rootPairs .identity))
  renamed : before.length = t.unit.roots.length → before.Nodup → t.unit.roots.Nodup →
    ∀ e ∈ before.zip t.unit.roots, (t.unit.rootPairs .identity).apply e.1 = e.2
  roots : ∀ e, (before.zip t.unit.roots).find? (fun d ↦ d.2 = e.2) = some e → e.1.owner ≠ u.id →
    e.2.owner ≠ u.id → e.2 ∉ t.unit.initialized →
      (∀ slot, t'.unit.shares e.2 slot = u.shares e.1 slot) ∧
      ∃ slots, announcing e.2 t'.effects.messages = announcing e.2 t.effects.messages ++
        [(e.2.owner, .initShare u.id e.2 slots false)] ∧
        ∀ slot, slots.count slot = (u.shares e.1 slot).toNat
  others : ∀ s, s.owner = u.id ∨ s ∈ t.unit.initialized ∨
    s ∉ (before.zip t.unit.roots).map Prod.snd →
    (∀ slot, t'.unit.shares s slot = t.unit.shares s slot) ∧
      announcing s t'.effects.messages = announcing s t.effects.messages

/-- A unit has the obligations on a root scope that another one had on its counterpart: it keeps the
same slots open if that scope had been initialised, and otherwise has not announced anything. -/
def KeepsFaith (t : Turn γ) (u : UnitNode γ) (e : Scope × Scope) (t' : Turn γ) : Prop :=
  (e.1 ∈ u.initialized → ∀ slot, t'.unit.shares e.2 slot = u.shares e.1 slot) ∧
    (e.1 ∉ u.initialized →
      announcing e.2 t'.effects.messages = announcing e.2 t.effects.messages)

end Turn

theorem ScopeGraph.union_rename (g h : ScopeGraph) (p : Renaming) :
    g.union (h.rename p) = g.extend (h.edges.toList.map (Edge.rename p))
      (h.data.toList.map fun e ↦ (p.apply e.1, e.2.rename p)) := by
  have hedges : (g.union (h.rename p)).edges = (g.extend (h.edges.toList.map (Edge.rename p))
      (h.data.toList.map fun e ↦ (p.apply e.1, e.2.rename p))).edges := by
    refine Std.ExtTreeSet.ext_mem fun e ↦ ?_
    rw [mem_edges_union, mem_edges_extend, rename, of, SortedSet.mem_ofList]
  have hdata : (g.union (h.rename p)).data = (g.extend (h.edges.toList.map (Edge.rename p))
      (h.data.toList.map fun e ↦ (p.apply e.1, e.2.rename p))).data :=
    Std.ExtTreeMap.ext_getElem? fun s ↦ (datum?_union (s := s)).trans datum?_extend.symm
  exact (ScopeGraph.mk.injEq ..).mpr ⟨hedges, hdata⟩

namespace Turn

variable {t t' : Turn γ} {u : UnitNode γ} {s : Scope} {slot : Slot} {slots : List Slot}

theorem TakesUp.shares_of_some (h : t.TakesUp s (some slots) t') :
    t'.unit.shares s slot = decide (slot ∈ slots) := by
  rw [UnitNode.shares, h.shared, Option.map_some, Option.some_or, Option.any_some, Bool.eq_iff_iff,
    decide_eq_true_iff, ← Std.ExtTreeSet.mem_iff_contains, SortedSet.mem_ofList]

theorem TakesUp.shares_of_none (h : t.TakesUp s none t') :
    t'.unit.shares s slot = t.unit.shares s slot := by
  rw [UnitNode.shares, h.shared]
  rfl

/-- What a snapshot lists of a scope of another unit is what was kept open on it. -/
theorem count_slotsOf_takeSnapshot (h : u.IsApart) (hforeign : s.owner ≠ u.id) :
    ((takeSnapshot u).slotsOf s).count slot = (u.shares s slot).toNat := by
  have hnever : ¬ 0 < u.waits.count (.closeSlot s slot) u.id := fun h' ↦
    hforeign (h.own s slot _ h')
  rw [Snapshot.count_slotsOf, count_openSlots, Nat.eq_zero_of_not_pos hnever, Nat.zero_add]

theorem restore_regains (h : u.IsApart) (hid : t.unit.id = u.id) {r : Report}
    (hprevious : t.unit.previous = some r) : t.Regains u r.roots (t.restore (takeSnapshot u)) := by
  have htaken := t.takesUp_restore (takeSnapshot u)
  simp only [hprevious, Option.map_some, Option.getD_some] at htaken
  obtain ⟨waits, hwaits, hcounters, hscopes, hcount⟩ := t.restore_spec (takeSnapshot u)
  refine ⟨hscopes, hcounters, fun token htoken ↦ ?_, ?_, fun hlength hbefore hnow e he ↦ ?_,
    fun e he howner howner' hnew ↦ ?_, fun s hs ↦ ?_⟩
  · rw [hwaits, hcount, if_pos hid, hid, count_ownTokens_takeSnapshot h htoken]
  · rw [(t.records_restore (takeSnapshot u)).localGraph, ScopeGraph.union_rename]
    rfl
  · rw [UnitNode.rootPairs, hprevious]
    have hfst : (r.roots.zip t.unit.roots).map Prod.fst = r.roots :=
      List.map_fst_zip (Nat.le_of_eq hlength)
    have hsnd : (r.roots.zip t.unit.roots).map Prod.snd = t.unit.roots :=
      List.map_snd_zip (Nat.le_of_eq hlength.symm)
    exact Renaming.apply_eq_of_get? (Renaming.get?_putEach (fun _ _ ↦ rfl) (fun _ _ ↦ rfl)
      (hfst.symm ▸ hbefore) (hsnd.symm ▸ hnow) he)
  · have hgained : (takeSnapshot u).regained? t.unit (r.roots.zip t.unit.roots) e.2 =
        some ((takeSnapshot u).slotsOf e.1) := by
      rw [Snapshot.regained?, if_neg, he]
      · rfl
      · rw [Bool.or_eq_true, UnitNode.owns_iff, hid, ← Std.ExtTreeSet.mem_iff_contains]
        exact not_or.2 ⟨howner', hnew⟩
    have hroot := htaken e.2
    rw [hgained] at hroot
    refine ⟨fun slot ↦ ?_, _, hid ▸ hroot.announced, fun slot ↦ count_slotsOf_takeSnapshot h howner⟩
    have hslot : ((takeSnapshot u).slotsOf e.1).count slot = _ :=
      count_slotsOf_takeSnapshot h howner
    rw [hroot.shares_of_some, Bool.eq_iff_iff, decide_eq_true_iff, ← List.count_pos_iff, hslot]
    cases u.shares e.1 slot <;> simp
  · have hnone : (takeSnapshot u).regained? t.unit (r.roots.zip t.unit.roots) s = none := by
      rw [Snapshot.regained?]
      split
      · rfl
      · rename_i hskip
        rw [Bool.or_eq_true, UnitNode.owns_iff, hid, ← Std.ExtTreeSet.mem_iff_contains, not_or]
          at hskip
        have hmissing := (hs.resolve_left hskip.1).resolve_left hskip.2
        rw [Option.map_eq_none_iff, List.find?_eq_none]
        intro e he heq
        exact hmissing (of_decide_eq_true heq ▸ List.mem_map_of_mem he)
    have hroot := htaken s
    rw [hnone] at hroot
    exact ⟨fun _ ↦ hroot.shares_of_none, hroot.announced.trans (List.append_nil _)⟩

/-- What a unit regains are its obligations on root scopes that had been initialised. -/
theorem Regains.keepsFaith_iff {before : List Scope} (h : t.Regains u before t') {e : Scope × Scope}
    (he : (before.zip t.unit.roots).find? (fun d ↦ d.2 = e.2) = some e) (howner : e.1.owner ≠ u.id)
    (howner' : e.2.owner ≠ u.id) (hnew : e.2 ∉ t.unit.initialized) :
    t.KeepsFaith u e t' ↔ e.1 ∈ u.initialized := by
  obtain ⟨hshares, slots, hannounced, -⟩ := h.roots e he howner howner' hnew
  refine ⟨fun hfaith ↦ ?_, fun hinit ↦ ⟨fun _ ↦ hshares, fun hnot ↦ absurd hinit hnot⟩⟩
  by_contra hnot
  -- It has announced the scope, and should not have.
  have hsilent := hannounced.symm.trans (hfaith.2 hnot)
  exact absurd (congrArg List.length hsilent) (by simp)

end Turn

namespace Core

variable {c : Core γ} {id : UnitId} {u : UnitNode γ}

/-- **What a snapshot gives back.** Take the state that a unit has in any course of a run, and let a
unit of the same id resume it in a later run. It has the same scopes, counters, tokens towards
itself and assertions, with the previous root scopes renamed, and keeps the same slots of root scopes
of other units open. But it has the same obligations on such a root scope only if the unit had
initialised it at the time of the snapshot, since it initialises all of them. -/
theorem Course.regains_restore {setup : Setup} {root : UnitId} {code : γ}
    {previous : Option Report} {tr : List (Occurrence γ × Core γ)}
    (hcourse : Course (start setup root code previous) tr c) (hu : c.units[id]? = some u)
    {t : Turn γ} (hid : t.unit.id = id) {r : Report} (hprevious : t.unit.previous = some r) :
    t.Regains u r.roots (t.restore (Turn.takeSnapshot u)) ∧
      ∀ e, (r.roots.zip t.unit.roots).find? (fun d ↦ d.2 = e.2) = some e → e.1.owner ≠ id →
        e.2.owner ≠ id → e.2 ∉ t.unit.initialized →
          (t.KeepsFaith u e (t.restore (Turn.takeSnapshot u)) ↔ e.1 ∈ u.initialized) := by
  have hapart := hcourse.isApart (isApart_start setup root code previous)
  obtain rfl := hapart.housed.filed id u hu
  have hregains := Turn.restore_regains (hapart.units u.id u hu) hid hprevious
  exact ⟨hregains, fun e he howner howner' hnew ↦ hregains.keepsFaith_iff he howner howner' hnew⟩

/-! ### Before and after a root is initialised -/

private def landlord : UnitId := ⟨"main"⟩

private def tenant : UnitId := landlord.child "sub"

private def flat : Scope := ⟨landlord, "s-0"⟩

/-- Units may reuse previous results. -/
private def terms : Setup := ⟨.withReuse .trivial, ["E"], 0⟩

/-- A run is about to begin. -/
private def vacant (previous : Option Report) : Core Unit := start terms landlord () previous

/-- The main unit has handed a scope to a sub-unit. -/
private def offered (previous : Option Report) : Core Unit :=
  ((vacant previous).receives.acts landlord (.freshScope "s" [] false true)).acts landlord
    (.addSubUnit "sub" (.checker ()) [flat] false)

/-- The sub-unit has been started. -/
private def movedIn (previous : Option Report) : Core Unit := (offered previous).receives

/-- The sub-unit has initialised the scope, keeps a label of it open, and has a scope of its own. -/
private def furnished : Core Unit :=
  ((movedIn none).acts tenant (.initScope flat ["E"] false)).acts tenant
    (.freshScope "t" ["E"] false false)

/-- What the sub-unit reports if it was captured in a state. -/
private def inventory (u : UnitNode Unit) : Report :=
  .mk tenant [flat] .empty .empty (some (.int 0)) [] [] (some (Turn.takeSnapshot u))
    .initiallyStarted []

private def mainReport (u : UnitNode Unit) : Report :=
  .mk landlord [] .empty .empty none [("sub", inventory u)] [] none .initiallyStarted []

/-- The next run, up to where the sub-unit may resume the state. -/
private def returned (u : UnitNode Unit) : Core Unit := movedIn (some (mainReport u))

/-- The sub-unit is about to resume the state. -/
private def returning (u : UnitNode Unit) : Turn Unit :=
  ⟨(returned u).resident tenant, .none, (returned u).setup.settings, (returned u).channels,
    (returned u).nextRequest⟩

private theorem unit_returning (u : UnitNode Unit) :
    (returning u).unit = (returned u).resident tenant := by
  rw [returning]

private theorem leadsTo_movedIn (previous : Option Report)
    (h : (vacant previous).units.contains (vacant previous).delivery.1.1 = true ∧
      (vacant previous).receives.units.contains landlord = true ∧
      ((vacant previous).receives.acts landlord
        (.freshScope "s" [] false true)).units.contains landlord = true ∧
      (offered previous).mail.next.isSome = true ∧
      (offered previous).units.contains (offered previous).delivery.1.1 = true) :
    LeadsTo (fun _ ↦ True) (vacant previous) (movedIn previous) := by
  obtain ⟨hvacant, hmain, hmade, hnext, hsub⟩ := h
  have hreceived : LeadsTo (fun _ ↦ True) (vacant previous) (vacant previous).receives :=
    (LeadsTo.refl _).receives (by rfl) hvacant trivial
  have hfresh := hreceived.acts landlord (.freshScope "s" [] false true) hmain trivial
  have hoffered : LeadsTo (fun _ ↦ True) (vacant previous) (offered previous) :=
    hfresh.acts landlord (.addSubUnit "sub" (.checker ()) [flat] false) hmade trivial
  exact hoffered.receives hnext hsub trivial

private theorem leadsTo_furnished : LeadsTo (fun _ ↦ True) (vacant none) furnished :=
  ((leadsTo_movedIn none (by decide +kernel)).acts tenant (.initScope flat ["E"] false)
    (by decide +kernel) trivial).acts tenant (.freshScope "t" ["E"] false false)
      (by decide +kernel) trivial

/-- A unit that had initialised its root scope keeps it as it was, together with a scope of its own
that it was still working on. -/
theorem Course.regains_restore_furnished :
    ∃ tr, Course (vacant none) tr furnished ∧
      let u := furnished.resident tenant
      let t := returning u
      t.Regains u [flat] (t.restore (Turn.takeSnapshot u)) ∧
        t.KeepsFaith u (flat, flat) (t.restore (Turn.takeSnapshot u)) ∧
        u.shares flat (.edge "E") = true ∧
        u.waits.count (.closeSlot ⟨tenant, "t-0"⟩ (.edge "E")) tenant = 1 := by
  obtain ⟨tr, hcourse, -⟩ := leadsTo_furnished
  have hu : furnished.units[tenant]? = _ := resident_eq (by decide +kernel)
  have hregains := hcourse.regains_restore hu (t := returning (furnished.resident tenant))
    (r := inventory (furnished.resident tenant)) (by decide +kernel) (by rfl)
  exact ⟨tr, hcourse, hregains.1, (hregains.2 (flat, flat) (by decide +kernel) (by decide)
    (by decide) (by decide +kernel)).2 (by decide +kernel), by decide +kernel, by decide +kernel⟩

/-- **Not everything is resumed as it was.** A unit may be captured while it has not initialised a
root scope of another unit, and in the next run, when it awaits the decision about reuse, it has
told the owner of the scope that it will not add anything there. -/
theorem not_always_resumed : ¬ ∀ (setup setup' : Setup) (root : UnitId) (previous : Report)
    (c c' : Core Unit) tr tr', Course (start setup root () none) tr c →
      Course (start setup' root () (some previous)) tr' c' →
      ∀ (id : UnitId) (u v : UnitNode Unit) (r : Report), c.units[id]? = some u →
        c'.units[id]? = some v → v.previous = some r → r.snapshot = some (Turn.takeSnapshot u) →
          r.roots = u.roots → r.roots.length = v.roots.length → v.phase = .started →
            Attempt.mayReuse setup'.settings v = true →
              ∀ t : Turn Unit, t.unit = v → t.effects = .none → ∀ e ∈ r.roots.zip v.roots,
                e.1.owner ≠ id → e.2.owner ≠ id →
                  t.KeepsFaith u e (t.restore (Turn.takeSnapshot u)) := by
  intro h
  let u := (movedIn none).resident tenant
  obtain ⟨tr, hcourse, -⟩ := leadsTo_movedIn none (by decide +kernel)
  obtain ⟨tr', hcourse', -⟩ := leadsTo_movedIn (some (mainReport u)) (by decide +kernel)
  have hprevious : ((returned u).resident tenant).previous.map (fun r ↦ (r.roots, r.snapshot)) =
      some ([flat], some (Turn.takeSnapshot u)) := by decide +kernel
  obtain ⟨r, hr, hreport⟩ := Option.map_eq_some_iff.1 hprevious
  obtain ⟨hroots, hsnapshot⟩ := Prod.mk.inj hreport
  have hroots' : u.roots = [flat] := by decide +kernel
  have hnow : ((returned u).resident tenant).roots = [flat] := by decide +kernel
  have hfaith := h terms terms landlord (mainReport u) (movedIn none) (returned u) tr tr' hcourse
    hcourse' tenant u ((returned u).resident tenant) r (resident_eq (by decide +kernel))
    (resident_eq (by decide +kernel)) hr hsnapshot (hroots.trans hroots'.symm)
    (by rw [hroots, hnow]) (by decide +kernel) (by decide +kernel) (returning u) (unit_returning u) rfl (flat, flat)
    (by rw [hroots, hnow]; exact List.mem_singleton.2 rfl) (by decide) (by decide)
  have hnew : flat ∉ u.initialized := by decide +kernel
  have hsilent : announcing flat ((returning u).restore (Turn.takeSnapshot u)).effects.messages =
      announcing flat (returning u).effects.messages := hfaith.2 hnew
  have hannounced : (announcing flat ((returning u).restore
      (Turn.takeSnapshot u)).effects.messages).length = 1 := by decide +kernel
  have hnone : (announcing flat (returning u).effects.messages).length = 0 := by decide +kernel
  rw [hsilent, hnone] at hannounced
  exact absurd hannounced (by decide)

end Core

end ScopeGraphs
