import Mathlib.Data.List.Count
import ScopeGraphs.Proofs.Units.Conduct

/-!
# What the owner of a scope counts on

A unit that adds edges to a scope of another unit says so beforehand, and says when it is done with
a label. The owner of the scope keeps a label open as long as some unit has still to initialise the
scope or to close the label, which it reads off its tokens. A `Tally` has these numbers for every
other unit. It changes with every message about shared scopes that the owner handles, and with
nothing else that other units do (`Turn.tally_handle`), so the tally in some state of the owner and
the messages that are still to come to it tell what the owner will count on when they have arrived.
-/

namespace ScopeGraphs

variable {γ α : Type}

/-! ## What is kept open on scopes of others -/

namespace UnitNode

variable {u : UnitNode γ} {s s' : Scope} {slot slot' : Slot}

theorem shares_iff : u.shares s slot = true ↔ slot ∈ (u.shared[s]?).getD ∅ := by
  rw [shares]
  cases u.shared[s]? with
  | none => simp
  | some slots => exact Std.ExtTreeSet.mem_iff_contains.symm

theorem shares_of_empty (h : u.shared = ∅) (s : Scope) (slot : Slot) : u.shares s slot = false := by
  rw [shares, h, Std.ExtTreeMap.getElem?_empty]
  rfl

theorem shares_insert_iff {slots : SortedSet Slot} :
    ({ u with shared := u.shared.insert s slots } : UnitNode γ).shares s' slot = true ↔
      if s = s' then slot ∈ slots else u.shares s' slot = true := by
  rw [shares_iff, SortedMap.getElem?_insert_eq]
  split
  · exact Iff.rfl
  · exact shares_iff.symm

theorem shares_erase_iff :
    ({ u with shared := u.shared.insert s (((u.shared[s]?).getD ∅).erase slot) } :
      UnitNode γ).shares s' slot' = true ↔ u.shares s' slot' = true ∧ ¬ (s = s' ∧ slot = slot') := by
  rw [shares_insert_iff]
  split
  · rename_i heq
    obtain rfl := heq
    rw [Std.ExtTreeSet.mem_erase, ← shares_iff, and_comm]
    simp
  · rename_i hne
    simp [hne]

end UnitNode

/-! ## Tokens that are raised -/

namespace Turn

variable (t : Turn γ) {token : Token} {holder u : UnitId}

theorem count_waitFor (token' : Token) :
    (t.waitFor token holder).unit.waits.count token' u =
      (if (token, holder) = (token', u) then 1 else 0) + t.unit.waits.count token' u :=
  TokenBag.count_add

theorem count_waitForAll (tokens : List Token) (token' : Token) :
    (t.waitForAll tokens holder).unit.waits.count token' u =
      (if holder = u then tokens.count token' else 0) + t.unit.waits.count token' u := by
  induction tokens generalizing t with
  | nil => simp [waitForAll]
  | cons token tokens ih =>
    change ((t.waitFor token holder).waitForAll tokens holder).unit.waits.count token' u = _
    rw [ih, count_waitFor, List.count_cons]
    by_cases hholder : holder = u
    · by_cases htoken : token = token'
      · simp only [hholder, htoken, if_pos, beq_self_eq_true]
        omega
      · simp [hholder, htoken]
    · simp [hholder]

theorem count_lower (token' : Token) :
    (t.lower token holder).unit.waits.count token' u =
      t.unit.waits.count token' u - if (token, holder) = (token', u) then 1 else 0 := by
  rw [lower]
  split
  · rename_i hnone
    split
    · rename_i heq
      obtain ⟨rfl, rfl⟩ := Prod.mk.inj heq
      rw [TokenBag.count_eq_zero_of_remove? hnone]
    · exact (Nat.sub_zero _).symm
  · rename_i waits hwaits
    exact TokenBag.count_of_remove? hwaits

theorem waits_grant : (t.grant token holder).unit.waits = (t.lower token holder).unit.waits := by
  rw [grant, lower]
  cases t.unit.waits.remove? token holder with
  | none => rfl
  | some waits =>
    dsimp only
    rw [waits_tryFinish, fireDelays, unit_tell]
    rfl

end Turn

/-! ## Tallies -/

/-- What the owner of a scope counts on from another unit, for one label. -/
structure Dues where
  /-- How often the unit has still to initialise the scope. -/
  inits : Nat
  /-- How often it has still to close the label. -/
  opens : Nat

/-- The label is kept open. -/
def Dues.IsOpen (d : Dues) : Prop := 0 < d.inits ∨ 0 < d.opens

/-- What the owner of scopes counts on from other units. -/
abbrev Tally := UnitId → Scope → Label → Dues

/-- What a unit with these tokens counts on. -/
def TokenBag.tally (b : TokenBag) : Tally := fun u s l ↦
  ⟨b.count (.initScope s) u, b.count (.closeSlot s (.edge l)) u⟩

namespace Tally

/-- The tally when a message has been handled. -/
def after (b : Tally) : Message → Tally
  | .initShare u s slots _ => fun u' s' l ↦
    if u = u' ∧ s = s' then ⟨(b u s l).inits - 1, slots.count (.edge l) + (b u s l).opens⟩
    else b u' s' l
  | .addShare u s => fun u' s' l ↦
    if u = u' ∧ s = s' then ⟨1 + (b u s l).inits, (b u s l).opens⟩ else b u' s' l
  | .closeEdge u s slot => fun u' s' l ↦
    if u = u' ∧ s = s' ∧ slot = .edge l then ⟨(b u s l).inits, (b u s l).opens - 1⟩ else b u' s' l
  | _ => b

/-- The tally when several messages have been handled. -/
def through (b : Tally) (ms : List Message) : Tally := ms.foldl after b

variable {b b' b'' : Tally} {o u : UnitId} {m : Message} {ms ms' : List Message}

/-- Apart from what the owner `o` itself does, the second tally has everything in the first one. -/
def AtMost (o : UnitId) (b b' : Tally) : Prop :=
  ∀ u, u ≠ o → ∀ s l, (b u s l).inits ≤ (b' u s l).inits ∧ (b u s l).opens ≤ (b' u s l).opens

namespace AtMost

theorem refl (o : UnitId) (b : Tally) : b.AtMost o b := fun _ _ _ _ ↦ ⟨Nat.le_refl _, Nat.le_refl _⟩

theorem after (h : b.AtMost o b') (m : Message) : (b.after m).AtMost o (b'.after m) := by
  intro u hu s l
  have hdues := h u hu s l
  cases m with
  | initShare u' s' slots sharing =>
    simp only [Tally.after]
    split
    · rename_i heq
      obtain ⟨rfl, rfl⟩ := heq
      dsimp only
      omega
    · exact hdues
  | addShare u' s' =>
    simp only [Tally.after]
    split
    · rename_i heq
      obtain ⟨rfl, rfl⟩ := heq
      dsimp only
      omega
    · exact hdues
  | closeEdge u' s' slot =>
    simp only [Tally.after]
    split
    · rename_i heq
      obtain ⟨rfl, rfl, -⟩ := heq
      dsimp only
      omega
    · exact hdues
  | start | unitStarted | addEdge | closeScope | query | queryPrevious | confirm | counterpart =>
    exact hdues

theorem through (h : b.AtMost o b') (ms : List Message) :
    (b.through ms).AtMost o (b'.through ms) := by
  induction ms generalizing b b' with
  | nil => exact h
  | cons m ms ih => exact ih (h.after m)

end AtMost

theorem after_initShare {s : Scope} {slots : List Slot} {sharing : Bool} {l : Label} :
    b.after (.initShare u s slots sharing) u s l =
      ⟨(b u s l).inits - 1, slots.count (.edge l) + (b u s l).opens⟩ :=
  if_pos ⟨rfl, rfl⟩

theorem after_addShare {s : Scope} {l : Label} :
    b.after (.addShare u s) u s l = ⟨1 + (b u s l).inits, (b u s l).opens⟩ :=
  if_pos ⟨rfl, rfl⟩

theorem through_cons : b.through (m :: ms) = (b.after m).through ms := rfl

theorem through_append : b.through (ms ++ ms') = (b.through ms).through ms' := List.foldl_append

/-- Only the news that a unit has initialised a scope makes the owner count on it for less. -/
theorem inits_le_after (b : Tally) (s : Scope) (l : Label)
    (h : ∀ s' slots sharing, m ≠ .initShare u s' slots sharing) :
    (b u s l).inits ≤ (b.after m u s l).inits := by
  cases m with
  | initShare u' s' slots sharing =>
    have hne : ¬ (u' = u ∧ s' = s) := by
      rintro ⟨rfl, -⟩
      exact h s' slots sharing rfl
    exact Nat.le_of_eq (congrArg Dues.inits (if_neg hne).symm)
  | addShare u' s' =>
    simp only [after]
    split
    · rename_i heq
      obtain ⟨rfl, rfl⟩ := heq
      exact Nat.le_add_left _ _
    · exact Nat.le_refl _
  | closeEdge u' s' slot =>
    simp only [after]
    split
    · rename_i heq
      obtain ⟨rfl, rfl, -⟩ := heq
      exact Nat.le_refl _
    · exact Nat.le_refl _
  | start | unitStarted | addEdge | closeScope | query | queryPrevious | confirm | counterpart =>
    exact Nat.le_refl _

theorem inits_le_through (b : Tally) (s : Scope) (l : Label)
    (h : ∀ s' slots sharing, .initShare u s' slots sharing ∉ ms) :
    (b u s l).inits ≤ (b.through ms u s l).inits := by
  induction ms generalizing b with
  | nil => exact Nat.le_refl _
  | cons m ms ih =>
    have hm : (b u s l).inits ≤ (b.after m u s l).inits :=
      b.inits_le_after s l fun s' slots sharing heq ↦ h s' slots sharing (heq ▸ List.mem_cons_self)
    exact Nat.le_trans hm
      (ih _ fun s' slots sharing hmem ↦ h s' slots sharing (List.mem_cons_of_mem _ hmem))

/-- Only the news that a unit has closed a label makes the owner count on less there. -/
theorem opens_le_after (b : Tally) {s : Scope} {l : Label} (h : m ≠ .closeEdge u s (.edge l)) :
    (b u s l).opens ≤ (b.after m u s l).opens := by
  cases m with
  | initShare u' s' slots sharing =>
    simp only [after]
    split
    · rename_i heq
      obtain ⟨rfl, rfl⟩ := heq
      exact Nat.le_add_left _ _
    · exact Nat.le_refl _
  | addShare u' s' =>
    simp only [after]
    split
    · rename_i heq
      obtain ⟨rfl, rfl⟩ := heq
      exact Nat.le_refl _
    · exact Nat.le_refl _
  | closeEdge u' s' slot =>
    have hne : ¬ (u' = u ∧ s' = s ∧ slot = .edge l) := by
      rintro ⟨rfl, rfl, rfl⟩
      exact h rfl
    exact Nat.le_of_eq (congrArg Dues.opens (if_neg hne).symm)
  | start | unitStarted | addEdge | closeScope | query | queryPrevious | confirm | counterpart =>
    exact Nat.le_refl _

end Tally

/-- Whether a message makes the owner of a scope count on more. -/
def Message.IsShare : Message → Prop
  | initShare _ _ _ _ | addShare _ _ => True
  | _ => False

namespace Tally

variable {m : Message} {ms : List Message}

/-- Messages that share nothing do not make the owner count on more. -/
theorem through_atMost (o : UnitId) (b : Tally) (h : ∀ m ∈ ms, ¬ m.IsShare) :
    (b.through ms).AtMost o b := by
  induction ms generalizing b with
  | nil => exact .refl o b
  | cons m ms ih =>
    have hrest := ih (b.after m) fun m' hm' ↦ h m' (List.mem_cons_of_mem _ hm')
    refine fun u hu s l ↦ ?_
    obtain ⟨hinits, hopens⟩ := hrest u hu s l
    have hm : (b.after m u s l).inits ≤ (b u s l).inits ∧ (b.after m u s l).opens ≤ (b u s l).opens := by
      cases m with
      | initShare | addShare => exact absurd trivial (h _ List.mem_cons_self)
      | closeEdge u' s' slot =>
        simp only [after]
        split
        · rename_i heq
          obtain ⟨rfl, rfl, -⟩ := heq
          exact ⟨Nat.le_refl _, Nat.sub_le _ _⟩
        · exact ⟨Nat.le_refl _, Nat.le_refl _⟩
      | start | unitStarted | addEdge | closeScope | query | queryPrevious | confirm | counterpart =>
        exact ⟨Nat.le_refl _, Nat.le_refl _⟩
    exact ⟨Nat.le_trans hinits hm.1, Nat.le_trans hopens hm.2⟩

end Tally

/-! ## Edges in time -/

/-- A message to the owner `o` with this tally: if it brings an edge, then from another unit, and
the label is kept open for that unit. -/
def Message.InTime (o : UnitId) (b : Tally) : Message → Prop
  | addEdge u e => u ≠ o ∧ (b u e.source e.label).IsOpen
  | _ => True

/-- All edges that these messages bring come in time. -/
def Tally.Covers (o : UnitId) : Tally → List Message → Prop
  | _, [] => True
  | b, m :: ms => m.InTime o b ∧ Covers o (b.after m) ms

namespace Tally

variable {b b' : Tally} {o : UnitId} {m : Message} {ms ms' : List Message}

theorem covers_append_iff : b.Covers o (ms ++ ms') ↔ b.Covers o ms ∧ (b.through ms).Covers o ms' := by
  induction ms generalizing b with
  | nil => exact (iff_of_eq (true_and _)).symm
  | cons m ms ih =>
    rw [List.cons_append, Covers, Covers, ih, through_cons, and_assoc]

theorem AtMost.inTime (h : b.AtMost o b') (hm : m.InTime o b) : m.InTime o b' := by
  cases m with
  | addEdge u e =>
    obtain ⟨hforeign, hopen⟩ := hm
    obtain ⟨hinits, hopens⟩ := h u hforeign e.source e.label
    exact ⟨hforeign, hopen.imp (Nat.lt_of_lt_of_le · hinits) (Nat.lt_of_lt_of_le · hopens)⟩
  | start | unitStarted | initShare | addShare | closeEdge | closeScope | query | queryPrevious |
    confirm | counterpart => trivial

theorem AtMost.covers (h : b.AtMost o b') (hms : b.Covers o ms) : b'.Covers o ms := by
  induction ms generalizing b b' with
  | nil => trivial
  | cons m ms ih => exact ⟨h.inTime hms.1, ih (h.after m) hms.2⟩

end Tally

/-! ## Handling messages -/

/-- The roots with which a message starts a unit. -/
def Message.roots? : Message → Option (List Scope)
  | start roots => some roots
  | _ => none

namespace Deed

/-- A deed that concerns nobody but the unit itself. -/
def IsPrivate : Deed γ → Prop
  | raise _ _ | lower _ _ | receive _ | datum _ _ => True
  | _ => False

end Deed

/-- Nothing has happened that concerns other units. -/
structure Turn.Keeps (t t' : Turn γ) : Prop where
  id : t'.unit.id = t.unit.id
  kind : t'.unit.kind = t.unit.kind
  shared : t'.unit.shared = t.unit.shared
  phase : t'.unit.phase = .created ∨ t'.unit.phase = .undecided → t'.unit.phase = t.unit.phase
  newUnits : t'.effects.newUnits = t.effects.newUnits
  messages : t'.effects.messages = t.effects.messages

namespace Turn

variable {t t' t'' : Turn γ}

namespace Keeps

theorem refl (t : Turn γ) : t.Keeps t := ⟨rfl, rfl, rfl, fun _ ↦ rfl, rfl, rfl⟩

theorem trans (h : t.Keeps t') (h' : t'.Keeps t'') : t.Keeps t'' where
  id := h'.id.trans h.id
  kind := h'.kind.trans h.kind
  shared := h'.shared.trans h.shared
  phase hphase := (h'.phase hphase).trans (h.phase (h'.phase hphase ▸ hphase))
  newUnits := h'.newUnits.trans h.newUnits
  messages := h'.messages.trans h.messages

theorem notes (h : t.Notes t') : t.Keeps t' :=
  ⟨h.unit.id, h.unit.kind, h.unit.shared, h.unit.phase, h.newUnits, h.messages⟩

theorem after {d : Deed γ} (hd : d.IsPrivate) : t.Keeps (d.after t) := by
  cases d with
  | raise => exact ⟨rfl, rfl, rfl, fun _ ↦ rfl, rfl, rfl⟩
  | lower token holder =>
    rw [Deed.after, lower]
    split
    · exact .refl t
    · exact ⟨rfl, rfl, rfl, fun _ ↦ rfl, rfl, rfl⟩
  | receive e =>
    rw [Deed.after, receiveEdge]
    split
    · exact ⟨rfl, rfl, rfl, fun _ ↦ rfl, rfl, rfl⟩
    · exact .refl t
  | datum s d =>
    rw [Deed.after, assertDatum]
    split <;> exact ⟨rfl, rfl, rfl, fun _ ↦ rfl, rfl, rfl⟩
  | forget | send | join | edge | share | hesitate => exact hd.elim

end Keeps

theorem Moves.keeps (h : t.Moves Deed.IsPrivate t') : t.Keeps t' := by
  induction h with
  | refl => exact .refl t
  | note _ hnotes ih => exact ih.trans (.notes hnotes)
  | deed _ hd ih => exact ih.trans (.after hd)

variable (t)

theorem moves_handle {m : Message} (hm : m.roots? = none) :
    t.Moves Deed.IsPrivate (t.handle m) := by
  cases m with
  | start => exact absurd hm nofun
  | unitStarted | closeEdge | closeScope => exact (Moves.refl t).grant trivial
  | initShare => exact t.moves_shareInitialized _ _ _ _ (fun _ ↦ trivial) trivial trivial
  | addShare => exact (Moves.refl t).waitFor trivial
  | addEdge _ e => exact (Moves.refl t).deed (d := .receive e) trivial
  | query | queryPrevious | confirm | counterpart => exact (Moves.refl t).spawn _

theorem tally_grant (token : Token) (holder u : UnitId) (s : Scope) (l : Label) :
    (t.grant token holder).unit.waits.tally u s l =
      ⟨(t.unit.waits.tally u s l).inits - if (token, holder) = (.initScope s, u) then 1 else 0,
        (t.unit.waits.tally u s l).opens -
          if (token, holder) = (.closeSlot s (.edge l), u) then 1 else 0⟩ := by
  rw [TokenBag.tally, waits_grant, count_lower, count_lower]
  rfl

/-- Granting a token that says nothing about shared scopes. -/
theorem tally_grant_of_ne {token : Token} {holder : UnitId} (hinit : ∀ s, token ≠ .initScope s)
    (hclose : ∀ s l, token ≠ .closeSlot s (.edge l)) :
    (t.grant token holder).unit.waits.tally = t.unit.waits.tally := by
  funext u s l
  rw [tally_grant, if_neg fun heq ↦ hinit s (Prod.mk.inj heq).1,
    if_neg fun heq ↦ hclose s l (Prod.mk.inj heq).1]
  rfl

/-- A unit that has initialised a scope has to close what it keeps open. -/
theorem tally_shareInitialized (sender : UnitId) (s : Scope) (slots : List Slot) (sharing : Bool) :
    (t.shareInitialized sender s slots sharing).unit.waits.tally =
      t.unit.waits.tally.after (.initShare sender s slots sharing) := by
  let opened : Turn γ := t.waitForAll (slots.map (.closeSlot s)) sender
  let shared : Turn γ := if sharing then opened.waitFor (.closeScope s) sender else opened
  have hshared (u : UnitId) (s' : Scope) (l : Label) : shared.unit.waits.tally u s' l =
      opened.unit.waits.tally u s' l := by
    unfold shared
    split
    · rw [TokenBag.tally, count_waitFor, count_waitFor]
      simp [TokenBag.tally]
    · rfl
  -- Each slot that is kept open is counted as often as it is named.
  have hcount (s' : Scope) (l : Label) : (slots.map (Token.closeSlot s)).count
      (.closeSlot s' (.edge l)) = if s = s' then slots.count (.edge l) else 0 := by
    split
    · rename_i heq
      obtain rfl := heq
      exact List.count_map_of_injective _ _ (fun a b h ↦ (Token.closeSlot.inj h).2) _
    · rename_i hne
      refine List.count_eq_zero.2 fun hmem ↦ ?_
      obtain ⟨slot, -, heq⟩ := List.mem_map.1 hmem
      exact hne (Token.closeSlot.inj heq).1
  have hnone (s' : Scope) : (slots.map (Token.closeSlot s)).count (.initScope s') = 0 :=
    List.count_eq_zero.2 fun hmem ↦ by simp at hmem
  funext u s' l
  change (shared.grant (.initScope s) sender).unit.waits.tally u s' l = _
  rw [tally_grant, hshared, TokenBag.tally, count_waitForAll, count_waitForAll, hcount, hnone,
    Tally.after]
  by_cases hsender : sender = u <;> by_cases hscope : s = s' <;>
    simp [hsender, hscope, TokenBag.tally]

/-- **What a message makes of a tally.** Handling a message changes what the unit counts on as the
message says, unless it starts the unit. -/
theorem tally_handle {m : Message} (hm : m.roots? = none) :
    (t.handle m).unit.waits.tally = t.unit.waits.tally.after m := by
  cases m with
  | start => exact absurd hm nofun
  | unitStarted | closeScope => exact t.tally_grant_of_ne (fun _ ↦ nofun) fun _ _ ↦ nofun
  | initShare sender s slots sharing => exact t.tally_shareInitialized sender s slots sharing
  | addShare sender s =>
    funext u s' l
    change (t.waitFor (.initScope s) sender).unit.waits.tally u s' l = _
    rw [TokenBag.tally, count_waitFor, count_waitFor, Tally.after]
    by_cases hsender : sender = u <;> by_cases hscope : s = s' <;>
      simp [hsender, hscope, TokenBag.tally]
  | addEdge sender e =>
    change (t.receiveEdge e).unit.waits.tally = _
    rw [receiveEdge]
    split <;> rfl
  | closeEdge sender s slot =>
    funext u s' l
    change (t.grant (.closeSlot s slot) sender).unit.waits.tally u s' l = _
    rw [tally_grant, Tally.after]
    by_cases hsender : sender = u <;> by_cases hscope : s = s' <;> by_cases hslot : slot = .edge l <;>
      simp [hsender, hscope, hslot]
  | query | queryPrevious | confirm | counterpart => rfl

end Turn

end ScopeGraphs
