import ScopeGraphs.Proofs.Engine.Arrivals
import ScopeGraphs.Proofs.Units.Resuming

/-!
# Labels that are kept open, and the tokens for them

What the owner of a scope will count on from one unit for one label, by its tokens and by the
messages that are still to come to it, against what that unit keeps open. `Core.Ties` says by how
many tokens the owner exceeds the unit, and holds through everything that a unit does in one go:
deeds that have nothing to do with open labels leave the excess as it is, closing a label lowers
both sides, and announcing an open one raises the excess.
-/

namespace ScopeGraphs

variable {γ α : Type}

/-! ## Deeds that leave shared labels alone -/

namespace Deed

/-- A deed that does not change what the unit keeps open on scopes of others, and what other units
keep open on its own scopes. -/
def IsSteady (id : UnitId) : Deed γ → Prop
  | edge _ | datum _ _ | hesitate => True
  | join u _ => u.IsBlank
  | d => d.IsCalm id

theorem IsCalm.isSteady {id : UnitId} {d : Deed γ} (h : d.IsCalm id) : d.IsSteady id := by
  cases d with
  | edge | datum | hesitate => trivial
  | join => exact h.1
  | raise | lower | forget | send | receive | share => exact h

end Deed

/-! ## What messages do to one label -/

/-- How many tokens for a label of a scope its owner holds towards a unit when it has handled a
message, depending on how many it held before. -/
def Message.opens (k : UnitId) (s : Scope) (l : Label) : Message → Nat → Nat
  | initShare u s' slots _, n => if u = k ∧ s' = s then slots.count (.edge l) + n else n
  | closeEdge u s' slot, n => if u = k ∧ s' = s ∧ slot = .edge l then n - 1 else n
  | _, n => n

/-- Whether a message is the news that a unit keeps labels of a scope open, or has closed one. -/
def Message.IsNews (k : UnitId) : Message → Prop
  | initShare u _ _ _ | closeEdge u _ _ => u = k
  | _ => False

section

variable {k : UnitId} {s : Scope} {l : Label} {m : Message} {ms : List Message} {b : Tally}

theorem Message.monotone_opens : Monotone (m.opens k s l) := by
  intro a b hab
  cases m with
  | initShare | closeEdge =>
    simp only [opens]
    split <;> omega
  | start | unitStarted | addShare | addEdge | closeScope | query | queryPrevious | confirm |
    counterpart => exact hab

theorem Message.opens_of_not_isNews (hm : ¬ m.IsNews k) (n : Nat) : m.opens k s l n = n := by
  cases m with
  | initShare | closeEdge => exact if_neg fun h ↦ hm h.1
  | start | unitStarted | addShare | addEdge | closeScope | query | queryPrevious | confirm |
    counterpart => rfl

theorem Tally.opens_after : (b.after m k s l).opens = m.opens k s l (b k s l).opens := by
  cases m with
  | initShare u s' slots sharing =>
    simp only [after, Message.opens]
    split
    · rename_i heq
      obtain ⟨rfl, rfl⟩ := heq
      rfl
    · rfl
  | addShare u s' =>
    simp only [after, Message.opens]
    split
    · rename_i heq
      obtain ⟨rfl, rfl⟩ := heq
      rfl
    · rfl
  | closeEdge u s' slot =>
    simp only [after, Message.opens]
    split
    · rename_i heq
      obtain ⟨rfl, rfl, -⟩ := heq
      rfl
    · rfl
  | start | unitStarted | addEdge | closeScope | query | queryPrevious | confirm | counterpart => rfl

theorem Tally.opens_through :
    (b.through ms k s l).opens = ms.foldl (fun n m ↦ m.opens k s l n) (b k s l).opens := by
  induction ms generalizing b with
  | nil => rfl
  | cons m ms ih => rw [through_cons, ih, opens_after, List.foldl_cons]

/-- Messages with no news of a unit leave the tokens towards it alone. -/
theorem Tally.opens_through_of_not_isNews (hms : ∀ m ∈ ms, ¬ m.IsNews k) :
    (b.through ms k s l).opens = (b k s l).opens := by
  rw [opens_through]
  generalize (b k s l).opens = n
  induction ms with
  | nil => rfl
  | cons m ms ih =>
    rw [List.foldl_cons, Message.opens_of_not_isNews (hms m List.mem_cons_self)]
    exact ih fun m' hm' ↦ hms m' (List.mem_cons_of_mem _ hm')

end

/-- How many of the announcements that a unit keeps a label open are too many: all but the first one
that opens it. -/
def UnitNode.surplus (u : UnitNode γ) (s : Scope) (l : Label) (announced : Nat) : Nat :=
  announced - if u.shares s (.edge l) then 0 else 1

theorem UnitNode.toNat_add_surplus {u : UnitNode γ} {s s' : Scope} {l : Label} {slots : List Slot}
    {n : Nat} (hs : s' = s) : (u.shares s (.edge l)).toNat + (n + slots.count (.edge l)) =
      (decide (s' = s ∧ .edge l ∈ slots) || u.shares s (.edge l)).toNat +
        (n + u.surplus s l (slots.count (.edge l))) := by
  rw [surplus]
  cases hshares : u.shares s (.edge l) with
  | true =>
    rw [Bool.or_true, if_pos rfl, Nat.sub_zero]
  | false =>
    by_cases hslots : Slot.edge l ∈ slots
    · have hcount : 0 < slots.count (.edge l) := List.count_pos_iff.2 hslots
      rw [decide_eq_true ⟨hs, hslots⟩, if_neg Bool.false_ne_true]
      simp only [Bool.toNat_false, Bool.true_or, Bool.toNat_true]
      omega
    · rw [decide_eq_false fun h ↦ hslots h.2, List.count_eq_zero.2 hslots]
      rfl

/-- The slots that a unit keeps open, with their scopes. -/
def UnitNode.sharedSlots (u : UnitNode γ) : List (Scope × Slot) :=
  u.shared.toList.flatMap fun e ↦ e.2.toList.map (e.1, ·)

/-- Every slot that is kept open is listed once. -/
theorem UnitNode.count_sharedSlots {u : UnitNode γ} {s : Scope} {slot : Slot} :
    u.sharedSlots.count (s, slot) = (u.shares s slot).toNat := by
  have hmem : (s, slot) ∈ u.sharedSlots ↔ u.shares s slot = true := by
    rw [sharedSlots, List.mem_flatMap, shares]
    constructor
    · rintro ⟨⟨s', slots⟩, he, hmem⟩
      obtain ⟨slot', hslot, heq⟩ := List.mem_map.1 hmem
      obtain ⟨rfl, rfl⟩ := Prod.mk.inj heq
      rw [Std.ExtTreeMap.mem_toList_iff_getElem?_eq_some.1 he]
      exact Std.ExtTreeSet.mem_iff_contains.1 (Std.ExtTreeSet.mem_toList.1 hslot)
    · intro hshares
      cases hslots : u.shared[s]? with
      | none => simp [hslots] at hshares
      | some slots =>
        rw [hslots] at hshares
        exact ⟨(s, slots), Std.ExtTreeMap.mem_toList_iff_getElem?_eq_some.2 hslots,
          List.mem_map.2 ⟨slot, Std.ExtTreeSet.mem_toList.2
            (Std.ExtTreeSet.mem_iff_contains.2 hshares), rfl⟩⟩
  have hnodup : u.sharedSlots.Nodup := by
    refine List.nodup_flatMap.2 ⟨fun e _ ↦ ?_, ?_⟩
    · exact (SortedSet.nodup_toList e.2).map fun _ _ h ↦ (Prod.mk.inj h).2
    · have hkeys : (u.shared.toList.map Prod.fst).Nodup := by
        rw [Std.ExtTreeMap.map_fst_toList_eq_keys]
        exact Std.ExtTreeMap.nodup_keys
      refine (List.pairwise_map.1 hkeys).imp fun hne x hx hx' ↦ ?_
      obtain ⟨_, -, rfl⟩ := List.mem_map.1 hx
      obtain ⟨_, -, heq⟩ := List.mem_map.1 hx'
      exact hne (Prod.mk.inj heq).1.symm
  rw [hnodup.count]
  split
  · rename_i h
    rw [hmem.1 h]
    rfl
  · rename_i h
    rw [Bool.eq_false_iff.2 fun hshares ↦ h (hmem.2 hshares)]
    rfl

/-- What holds between two numbers: the first is at most the second, and under a condition they are
equal. -/
structure Meets (exact : Prop) (a b : Nat) : Prop where
  le : a ≤ b
  eq : exact → a = b

theorem Meets.map {exact : Prop} {a b : Nat} (h : Meets exact a b) {f : Nat → Nat}
    (hf : Monotone f) : Meets exact (f a) (f b) :=
  ⟨hf h.le, fun hexact ↦ congrArg f (h.eq hexact)⟩

namespace Core

/-- How many tokens for a label of a scope the owner of the scope will hold towards a unit when it
has handled everything that comes to it. -/
def expected (c : Core γ) (ms : List (UnitId × Message)) (k : UnitId) (s : Scope) (l : Label) : Nat :=
  (c.balance ms s.owner k s l).opens

/-- Whether a unit keeps a label of a scope of another unit open, as a number. -/
def held (c : Core γ) (k : UnitId) (s : Scope) (l : Label) : Nat :=
  ((c.units[k]?).any fun u ↦ u.shares s (.edge l)).toNat

/-- The owner of a scope will hold one token for a label towards a unit that keeps the label open,
and `n` tokens besides. -/
structure Ties (k : UnitId) (s : Scope) (l : Label) (exact : Prop) (n : Nat) (c : Core γ)
    (us : List (UnitNode γ)) (ms : List (UnitId × Message)) : Prop where
  housed : c.Housed
  blank : ∀ u ∈ us, u.IsBlank
  initialized : ∀ u, c.units[k]? = some u → ∀ slot, u.shares s slot = true → s ∈ u.initialized
  meets : Meets exact (c.expected ms k s l) (c.held k s l + n)

variable {c c' : Core γ} {us : List (UnitNode γ)} {ms : List (UnitId × Message)} {id k : UnitId}
  {s : Scope} {l : Label} {exact : Prop} {n n' : Nat} {u v : UnitNode γ} {m : Message}

theorem held_of_some (hu : c.units[k]? = some u) : c.held k s l = (u.shares s (.edge l)).toNat := by
  rw [held, hu]
  rfl

/-- A unit that is added keeps nothing open, like a unit that does not exist. -/
theorem held_addUnit (hblank : u.IsBlank) : (c.addUnit u).held k s l = c.held k s l := by
  rw [held, held, units_addUnit]
  cases c.units[k]? with
  | some w => rfl
  | none =>
    rw [Option.none_or]
    split
    · rw [Option.any_some, UnitNode.shares_of_empty hblank.shared]
      rfl
    · rfl

namespace Ties

theorem other (h : Ties k s l exact n c us ms) (hunits : c'.units = c.units)
    (hmail : c'.mail = c.mail) : Ties k s l exact n c' us ms where
  housed := h.housed.other hunits hmail
  blank := h.blank
  initialized u hu := h.initialized u (hunits ▸ hu)
  meets := by
    rw [expected, balance, tally, coming, held, hunits, hmail]
    exact h.meets

/-- A unit that is added counts on nothing and keeps nothing open. -/
theorem joined (h : Ties k s l exact n c (u :: us) ms) : Ties k s l exact n (c.addUnit u) us ms := by
  have hblank : u.IsBlank := h.blank u List.mem_cons_self
  refine ⟨h.housed.addUnit u, fun v hv ↦ h.blank v (List.mem_cons_of_mem _ hv), fun v hv ↦ ?_, ?_⟩
  · rcases units_addUnit_eq_some_iff.1 hv with hold | ⟨-, -, rfl⟩
    · exact h.initialized v hold
    · intro slot hslot
      exact nomatch (UnitNode.shares_of_empty hblank.shared s slot).symm.trans hslot
  · rw [expected, balance, tally_addUnit hblank, coming_addUnit, held_addUnit hblank]
    exact h.meets

/-- A message that is sent is still to come. -/
theorem posted {m : UnitId × Message} (h : Ties k s l exact n c us (m :: ms)) :
    Ties k s l exact n (c.post m) us ms where
  housed := h.housed.post m
  blank := h.blank
  initialized := h.initialized
  meets := by
    rw [expected, balance, coming_post h.housed m]
    exact h.meets

theorem applyEffects (origin : UnitId) (e : Effects γ)
    (h : Ties k s l exact n c e.newUnits e.messages) :
    Ties k s l exact n (c.applyEffects origin e) [] [] :=
  applyEffects_induction (P := fun c us ms ↦ Ties k s l exact n c us ms) origin e
    (fun hunits _ hmail h ↦ h.other hunits hmail) (fun _ _ _ _ h ↦ h.joined)
    (fun _ _ _ h ↦ h.posted) h

end Ties

/-! ## While a unit is doing something -/

/-- What holds of tokens and open labels while a unit is doing something. -/
def TiesAt (k : UnitId) (s : Scope) (l : Label) (exact : Prop) (n : Nat) (c : Core γ)
    (t : Turn γ) : Prop :=
  Ties k s l exact n (c.put t.unit) t.effects.newUnits t.effects.messages

variable {t t' : Turn γ}

/-- What a unit contributes to the label being held open by `k`. -/
theorem held_put : (c.put u).held k s l =
    if u.id = k then (u.shares s (.edge l)).toNat else c.held k s l := by
  rw [held, units_put, held]
  split <;> rfl

namespace TiesAt

/-- A unit changes by itself. -/
theorem changed (h : TiesAt k s l exact n c t) (hid : t'.unit.id = t.unit.id)
    (hnewUnits : t'.effects.newUnits = t.effects.newUnits)
    (hmessages : t'.effects.messages = t.effects.messages)
    (htally : t.unit.id = s.owner →
      (t'.unit.waits.tally k s l).opens = (t.unit.waits.tally k s l).opens)
    (hinit : t.unit.id = k → ∀ slot, t'.unit.shares s slot = true → s ∈ t'.unit.initialized)
    (hheld : if t.unit.id = k then
        (t.unit.shares s (.edge l)).toNat + n = (t'.unit.shares s (.edge l)).toNat + n'
      else n = n') : TiesAt k s l exact n' c t' := by
  have hunits (j : UnitId) : (c.put t'.unit).units[j]? =
      if t.unit.id = j then some t'.unit else (c.put t.unit).units[j]? := by
    rw [units_put, units_put, hid]
    split <;> rfl
  refine ⟨Housed.insert h.housed (c.units_put_self t.unit) hunits hid rfl, hnewUnits ▸ h.blank,
    fun u hu ↦ ?_, ?_⟩
  · rw [hunits] at hu
    split at hu
    · rename_i heq
      obtain rfl := Option.some.inj hu
      exact hinit heq
    · exact h.initialized u hu
  · have hexpected : (c.put t'.unit).expected t'.effects.messages k s l =
        (c.put t.unit).expected t.effects.messages k s l := by
      rw [expected, expected, balance, balance, Tally.opens_through, Tally.opens_through, hmessages]
      congr 1
      rw [tally, tally, hunits]
      split
      · rename_i heq
        rw [Option.elim_some, htally heq, ← heq, units_put_self]
        rfl
      · rfl
    have hsame : (c.put t'.unit).held k s l + n' = (c.put t.unit).held k s l + n := by
      rw [held_put, held_put, hid]
      split at hheld
      · rename_i heq
        rw [if_pos heq, if_pos heq, hheld]
      · rename_i hne
        rw [if_neg hne, if_neg hne, hheld]
    rw [hexpected, hsame]
    exact h.meets

/-- A message is sent. -/
theorem send (h : TiesAt k s l exact n c t) {r : UnitId}
    (hm : r = s.owner →
      m.opens k s l ((c.put t.unit).held k s l + n) = (c.put t.unit).held k s l + n')
    (hne : r ≠ s.owner → n = n') : TiesAt k s l exact n' c (t.send r m) := by
  refine ⟨h.housed, h.blank, h.initialized, ?_⟩
  change Meets exact (((c.put t.unit).balance (t.effects.messages ++ [(r, m)]) s.owner k s l).opens) _
  rw [balance_append]
  split
  · rename_i heq
    have hmeets := h.meets.map (Message.monotone_opens (k := k) (s := s) (l := l) (m := m))
    rw [hm heq] at hmeets
    rw [Tally.opens_after]
    exact hmeets
  · rename_i hother
    exact hne hother ▸ h.meets

/-- A message with no news of the unit is sent. -/
theorem sendOther (h : TiesAt k s l exact n c t) {r : UnitId} (hm : ¬ m.IsNews k) :
    TiesAt k s l exact n c (t.send r m) :=
  h.send (fun _ ↦ Message.opens_of_not_isNews hm _) fun _ ↦ rfl

/-! ### Steady deeds -/

/-- A unit changes only what it waits for, and not what it counts on from others. -/
theorem waits (h : TiesAt k s l exact n c t) (hkeeps : t.Keeps t')
    (hinit : t'.unit.initialized = t.unit.initialized)
    (htally : t.unit.id = s.owner →
      (t'.unit.waits.tally k s l).opens = (t.unit.waits.tally k s l).opens) :
    TiesAt k s l exact n c t' := by
  have hshares (slot : Slot) : t'.unit.shares s slot = t.unit.shares s slot := by
    rw [UnitNode.shares, hkeeps.shared]
    rfl
  refine h.changed hkeeps.id hkeeps.newUnits hkeeps.messages htally (fun hk slot hslot ↦ ?_) ?_
  · rw [hinit]
    exact Ties.initialized h t.unit (hk ▸ c.units_put_self t.unit) slot (hshares slot ▸ hslot)
  · split
    · rw [hshares]
    · rfl

theorem notes (h : TiesAt k s l exact n c t) (hnotes : t.Notes t') : TiesAt k s l exact n c t' :=
  h.waits (.notes hnotes) hnotes.unit.initialized fun _ ↦ by rw [hnotes.unit.waits]

theorem deed (h : TiesAt k s l exact n c t) (hforeign : s.owner ≠ k) {d : Deed γ}
    (hd : d.IsSteady t.unit.id) : TiesAt k s l exact n c (d.after t) := by
  have hinit : (d.after t).unit.initialized = t.unit.initialized :=
    Deed.initialized_after t fun _ heq ↦ by rwa [heq] at hd
  cases d with
  | raise token holder =>
    refine h.waits (.after (d := .raise token holder) trivial) hinit fun howner ↦ ?_
    rw [Deed.after, TokenBag.tally, TokenBag.tally]
    dsimp only
    rw [Turn.count_waitFor, if_neg, Nat.zero_add]
    intro heq
    obtain ⟨rfl, rfl⟩ := Prod.mk.inj heq
    have hown : holder = t.unit.id := hd.1
    exact hforeign (howner.symm.trans hown.symm)
  | lower token holder =>
    refine h.waits (.after (d := .lower token holder) trivial) hinit fun howner ↦ ?_
    rw [Deed.after, TokenBag.tally, TokenBag.tally]
    dsimp only
    rw [Turn.count_lower, if_neg, Nat.sub_zero]
    intro heq
    obtain ⟨rfl, rfl⟩ := Prod.mk.inj heq
    have hown : holder = t.unit.id := hd rfl
    exact hforeign (howner.symm.trans hown.symm)
  | send receiver m =>
    refine h.sendOther fun hm ↦ ?_
    cases m with
    | initShare | closeEdge => exact hd
    | start | unitStarted | addShare | addEdge | closeScope | query | queryPrevious | confirm |
      counterpart => exact hm
  | join u roots =>
    have hadded : TiesAt k s l exact n c (t.addUnit u) :=
      ⟨h.housed, fun v hv ↦ (List.mem_append.1 hv).elim (h.blank v) fun hv ↦
        List.mem_singleton.1 hv ▸ hd, h.initialized, h.meets⟩
    exact hadded.sendOther not_false
  | edge e =>
    have hlocal {t' : Turn γ} (h : TiesAt k s l exact n c t') :
        TiesAt k s l exact n c (t'.edit fun u ↦ { u with localGraph := u.localGraph.addEdge e }) :=
      h.waits ⟨rfl, rfl, rfl, fun _ ↦ rfl, rfl, rfl⟩ rfl fun _ ↦ rfl
    rw [Deed.after, Turn.assertEdge]
    split
    · exact hlocal (h.waits ⟨rfl, rfl, rfl, fun _ ↦ rfl, rfl, rfl⟩ rfl fun _ ↦ rfl)
    · exact hlocal (h.sendOther not_false)
  | datum s' d =>
    have hwaits : (t.assertDatum s' d).unit.waits = t.unit.waits := by
      rw [Turn.assertDatum]
      split <;> rfl
    exact h.waits (.after (d := .datum s' d) trivial) hinit fun _ ↦ by rw [Deed.after, hwaits]
  | hesitate =>
    refine h.changed rfl rfl rfl (fun _ ↦ rfl) (fun hk slot hslot ↦ ?_) (by split <;> rfl)
    exact Ties.initialized h t.unit (hk ▸ c.units_put_self t.unit) slot hslot
  | forget | receive | share => exact hd.elim

theorem steady (h : TiesAt k s l exact n c t) (hforeign : s.owner ≠ k)
    (hmoves : t.Moves (Deed.IsSteady t.unit.id) t') : TiesAt k s l exact n c t' := by
  induction hmoves with
  | refl => exact h
  | note _ hnotes ih => exact ih.notes hnotes
  | deed hmoves hd ih => exact ih.deed hforeign (hmoves.id.symm ▸ hd)

theorem calm (h : TiesAt k s l exact n c t) (hforeign : s.owner ≠ k)
    (hmoves : t.Moves (Deed.IsCalm t.unit.id) t') : TiesAt k s l exact n c t' :=
  h.steady hforeign (hmoves.mono fun _ hd ↦ hd.isSteady)

/-! ### Shared scopes -/

/-- A unit tells the owner of a scope which slots it keeps open. -/
theorem sendInit (h : TiesAt k s l exact n c t) (s' : Scope) (slots : List Slot) (sharing : Bool) :
    TiesAt k s l exact (n + if t.unit.id = k ∧ s' = s then slots.count (.edge l) else 0) c
      (t.send s'.owner (.initShare t.unit.id s' slots sharing)) := by
  refine h.send (fun _ ↦ ?_) fun hother ↦ ?_
  · rw [Message.opens]
    split <;> omega
  · rw [if_neg fun heq ↦ hother (congrArg Scope.owner heq.2)]
    rfl

/-- A unit tells the owner of a scope that it has closed a slot. -/
theorem sendClose {s' : Scope} {slot : Slot}
    (h : TiesAt k s l exact (n + if t.unit.id = k ∧ s' = s ∧ slot = .edge l then 1 else 0) c t)
    (hclosed : t.unit.shares s' slot = false) :
    TiesAt k s l exact n c (t.send s'.owner (.closeEdge t.unit.id s' slot)) := by
  refine h.send (fun _ ↦ ?_) fun hother ↦ ?_
  · rw [Message.opens]
    split
    · rename_i heq
      obtain ⟨hid, rfl, rfl⟩ := heq
      rw [held_put, if_pos hid, hclosed]
      rfl
    · rfl
  · rw [if_neg fun heq ↦ hother (congrArg Scope.owner heq.2.1)]
    rfl

/-- A unit initialises a scope of another unit and keeps slots of it open, besides those that it
kept open before. -/
theorem announce (h : TiesAt k s l exact n c t) (s' : Scope) (slots : List Slot) (sharing : Bool)
    (shared : SortedMap Scope (SortedSet Slot))
    (hshares : t.unit.id = k → ∀ slot,
      ({ t.unit with shared := shared } : UnitNode γ).shares s slot =
      (decide (s' = s ∧ slot ∈ slots) || t.unit.shares s slot)) :
    TiesAt k s l exact
      (n + if t.unit.id = k ∧ s' = s then t.unit.surplus s l (slots.count (.edge l)) else 0) c
      ((t.edit fun u ↦ { u with initialized := u.initialized.insert s', shared := shared }).send
        s'.owner (.initShare t.unit.id s' slots sharing)) := by
  have hsent := h.sendInit s' slots sharing
  refine hsent.changed rfl rfl rfl (fun _ ↦ rfl) (fun hk slot hslot ↦ ?_) ?_
  · have hopen := (hshares hk slot).symm.trans hslot
    rw [Bool.or_eq_true, decide_eq_true_iff] at hopen
    refine SortedSet.mem_insert_iff.2 (hopen.imp (fun h ↦ h.1.symm) fun hold ↦ ?_)
    exact Ties.initialized h t.unit (hk ▸ c.units_put_self t.unit) slot hold
  · split
    · rename_i hk
      change _ = (({ t.unit with shared := shared } : UnitNode γ).shares s (.edge l)).toNat + _
      rw [hshares hk]
      by_cases hs : s' = s
      · rw [if_pos ⟨hk, hs⟩, if_pos ⟨hk, hs⟩]
        exact UnitNode.toNat_add_surplus hs
      · rw [if_neg fun heq ↦ hs heq.2, if_neg fun heq ↦ hs heq.2, decide_eq_false fun h ↦ hs h.1]
        rfl
    · rename_i hk
      rw [if_neg fun heq ↦ hk heq.1, if_neg fun heq ↦ hk heq.1]

/-- A checker initialises a scope of another unit. -/
theorem keepOpen (h : TiesAt k s l exact n c t) (s' : Scope) (slots : List Slot) (sharing : Bool) :
    TiesAt k s l exact
      (n + if t.unit.id = k ∧ s' = s then t.unit.surplus s l (slots.count (.edge l)) else 0) c
      ((t.keepOpen s' slots).send s'.owner (.initShare t.unit.id s' slots sharing)) := by
  refine h.announce s' slots sharing _ fun _ slot ↦ ?_
  rw [Bool.eq_iff_iff, Bool.or_eq_true, decide_eq_true_iff]
  exact Turn.shares_keepOpen_iff

/-- A unit closes a slot of another unit's scope that it keeps open. -/
theorem dropShared (h : TiesAt k s l exact n c t) (hforeign : s.owner ≠ k) {s' : Scope} {slot : Slot}
    (hopen : t.unit.shares s' slot = true) :
    TiesAt k s l exact n c
      ((t.dropShared s' slot).send s'.owner (.closeEdge t.unit.id s' slot)) := by
  let erased : Turn γ := t.edit fun u ↦
    { u with shared := u.shared.insert s' (((u.shared[s']?).getD ∅).erase slot) }
  have hshares (s'' : Scope) (slot' : Slot) : erased.unit.shares s'' slot' = true ↔
      t.unit.shares s'' slot' = true ∧ ¬ (s' = s'' ∧ slot = slot') := UnitNode.shares_erase_iff
  have herased : TiesAt k s l exact
      (n + if t.unit.id = k ∧ s' = s ∧ slot = .edge l then 1 else 0) c erased := by
    refine h.changed rfl rfl rfl (fun _ ↦ rfl) (fun hk slot hslot ↦ ?_) ?_
    · exact Ties.initialized h t.unit (hk ▸ c.units_put_self t.unit) slot ((hshares s slot).1 hslot).1
    · split
      · rename_i hk
        by_cases hclosing : s' = s ∧ slot = .edge l
        · obtain ⟨rfl, rfl⟩ := hclosing
          have hclosed : erased.unit.shares s' (.edge l) = false :=
            Bool.eq_false_iff.2 fun hopen ↦ ((hshares _ _).1 hopen).2 ⟨rfl, rfl⟩
          rw [hopen, hclosed, if_pos ⟨hk, rfl, rfl⟩]
          simp only [Bool.toNat_true, Bool.toNat_false]
          omega
        · have hsame : erased.unit.shares s (.edge l) = t.unit.shares s (.edge l) := by
            rw [Bool.eq_iff_iff, hshares]
            exact and_iff_left hclosing
          rw [hsame, if_neg fun heq ↦ hclosing heq.2]
          rfl
      · rename_i hk
        rw [if_neg fun heq ↦ hk heq.1]
        rfl
  have hdropped : TiesAt k s l exact
      (n + if t.unit.id = k ∧ s' = s ∧ slot = .edge l then 1 else 0) c (t.dropShared s' slot) :=
    herased.calm hforeign (Turn.Moves.refl _).fireDelays
  have hid : (t.dropShared s' slot).unit.id = t.unit.id :=
    (t.moves_dropShared (A := fun _ ↦ True) s' slot fun _ ↦ trivial).id
  rw [← hid] at hdropped ⊢
  refine hdropped.sendClose ?_
  rw [Turn.dropShared, Turn.fireDelays, Turn.unit_tell]
  exact Bool.eq_false_iff.2 fun hopen ↦ ((hshares s' slot).1 hopen).2 ⟨rfl, rfl⟩

/-- A unit that keeps nothing open any longer says so of the slots of a scope. -/
theorem closeShare {s' : Scope} {slots : List Slot}
    (h : TiesAt k s l exact
      (n + if t.unit.id = k then (slots.map (s', ·)).count (s, .edge l) else 0) c t)
    (hshared : t.unit.shared = ∅) :
    TiesAt k s l exact n c (t.closeShare s' slots) ∧ (t.closeShare s' slots).unit = t.unit := by
  have hslots : TiesAt k s l exact n c (slots.foldl
      (fun t slot ↦ t.send s'.owner (.closeEdge t.unit.id s' slot)) t) ∧
      (slots.foldl (fun t slot ↦ t.send s'.owner (.closeEdge t.unit.id s' slot)) t).unit =
        t.unit := by
    induction slots generalizing t with
    | nil =>
      rw [List.map_nil, List.count_nil, ite_self] at h
      exact ⟨h, rfl⟩
    | cons slot slots ih =>
      have hclosed := UnitNode.shares_of_empty hshared s' slot
      have hcount :
          (n + if t.unit.id = k then ((slot :: slots).map (s', ·)).count (s, .edge l) else 0) =
          (n + if t.unit.id = k then (slots.map (s', ·)).count (s, .edge l) else 0) +
            if t.unit.id = k ∧ s' = s ∧ slot = .edge l then 1 else 0 := by
        rw [List.map_cons, List.count_cons]
        by_cases hk : t.unit.id = k <;> by_cases hs : s' = s <;> by_cases hslot : slot = .edge l <;>
          simp [hk, hs, hslot, Nat.add_assoc]
      rw [hcount] at h
      exact ih (h.sendClose hclosed) hshared
  exact ⟨hslots.1.sendOther not_false, hslots.2⟩

/-- A unit initialises a root scope without any labels. -/
theorem initRoot (h : TiesAt k s l exact n c t) (root : Scope) :
    TiesAt k s l exact n c (t.initRoot root) := by
  rw [Turn.initRoot]
  split
  · exact h
  · have hedited : TiesAt k s l exact n c
        (t.edit fun u ↦ { u with initialized := u.initialized.insert root }) := by
      refine h.changed rfl rfl rfl (fun _ ↦ rfl) (fun hk slot hslot ↦ ?_) ?_
      · exact SortedSet.mem_insert_iff.2
          (.inr (Ties.initialized h t.unit (hk ▸ c.units_put_self t.unit) slot hslot))
      · split <;> rfl
    have hsent := hedited.sendInit root [] false
    rw [List.count_nil, ite_self] at hsent
    exact hsent

/-- A unit closes everything that it keeps open on scopes of others. -/
theorem closeShares (h : TiesAt k s l exact n c t) (hforeign : s.owner ≠ k) :
    TiesAt k s l exact n c t.closeShares := by
  have hemptied : TiesAt k s l exact
      (n + if t.unit.id = k then t.unit.sharedSlots.count (s, .edge l) else 0) c
      (t.edit fun u ↦ { u with shared := ∅ }) := by
    refine h.changed rfl rfl rfl (fun _ ↦ rfl) (fun _ _ hslot ↦ absurd hslot nofun) ?_
    split
    · rw [UnitNode.count_sharedSlots]
      change _ = 0 + _
      omega
    · rfl
  have hclosed (shared : List (Scope × SortedSet Slot)) {t : Turn γ}
      (h : TiesAt k s l exact (n + if t.unit.id = k then
        (shared.flatMap fun e ↦ e.2.toList.map (e.1, ·)).count (s, .edge l) else 0) c t)
      (hshared : t.unit.shared = ∅) :
      TiesAt k s l exact n c (shared.foldl (fun t e ↦ t.closeShare e.1 e.2.toList) t) := by
    induction shared generalizing t with
    | nil =>
      rw [List.flatMap_nil, List.count_nil, ite_self] at h
      exact h
    | cons e shared ih =>
      have hcount : (n + if t.unit.id = k then
          ((e :: shared).flatMap fun e ↦ e.2.toList.map (e.1, ·)).count (s, .edge l) else 0) =
          (n + if t.unit.id = k then
            (shared.flatMap fun e ↦ e.2.toList.map (e.1, ·)).count (s, .edge l) else 0) +
          if t.unit.id = k then (e.2.toList.map (e.1, ·)).count (s, .edge l) else 0 := by
        rw [List.flatMap_cons, List.count_append]
        split <;> omega
      rw [hcount] at h
      obtain ⟨hnext, hunit⟩ := h.closeShare hshared
      rw [← hunit] at hnext hshared
      exact ih hnext hshared
  have hroots (roots : List Scope) {t : Turn γ} (h : TiesAt k s l exact n c t) :
      TiesAt k s l exact n c (roots.foldl Turn.initRoot t) := by
    induction roots generalizing t with
    | nil => exact h
    | cons root roots ih => exact ih (h.initRoot root)
  exact (hroots _ (hclosed t.unit.shared.toList hemptied rfl)).calm hforeign
    (Turn.Moves.refl _).fireDelays

end TiesAt

end Core

end ScopeGraphs
