import ScopeGraphs.Proofs.Units.Disturbing

/-!
# What a unit does, piece by piece

Whatever happens to a unit in one go is a sequence of *deeds*: it raises or lowers a token, sends a
message, adds a unit, asserts an edge or a datum, takes in an edge that another unit asserts, or
changes what it keeps open on scopes of others. Between them it only keeps books, which neither its
fragment nor other units depend on. `Turn.Moves` says that one state of a unit in the course of a go
leads to another by deeds of a certain kind, so a property that all deeds of this kind respect has
to be looked at for single deeds only.
-/

namespace ScopeGraphs

variable {γ α β : Type}

/-- A change to what a unit keeps open on scopes of others, or to which of them it has
initialised. -/
inductive Sharing where
  /-- It keeps these slots of a scope open, and no others. -/
  | keep (s : Scope) (slots : SortedSet Slot)
  /-- It has initialised a scope. -/
  | take (s : Scope)
  /-- It keeps nothing open any longer. -/
  | clear

namespace Sharing

/-- What is kept open after the change. -/
def shared : Sharing → SortedMap Scope (SortedSet Slot) → SortedMap Scope (SortedSet Slot)
  | keep s slots, shared => shared.insert s slots
  | take _, shared => shared
  | clear, _ => ∅

/-- What has been initialised after the change. -/
def initialized : Sharing → SortedSet Scope → SortedSet Scope
  | take s, initialized => initialized.insert s
  | keep _ _, initialized | clear, initialized => initialized

end Sharing

/-- A piece of what a unit does in one go. -/
inductive Deed (γ : Type) where
  /-- It raises a token. -/
  | raise (token : Token) (holder : UnitId)
  /-- It lowers a token. -/
  | lower (token : Token) (holder : UnitId)
  /-- It gives up everything that it waits for. -/
  | forget
  /-- It sends a message. -/
  | send (receiver : UnitId) (m : Message)
  /-- It adds a unit and starts it. -/
  | join (u : UnitNode γ) (roots : List Scope)
  /-- It asserts an edge. -/
  | edge (e : Edge)
  /-- It asserts a datum. -/
  | datum (s : Scope) (d : Datum)
  /-- It takes in an edge that another unit asserts. -/
  | receive (e : Edge)
  /-- It changes what it keeps open on scopes of others, or which of them it has initialised. -/
  | share (x : Sharing)
  /-- It becomes undecided about reuse. -/
  | hesitate

namespace Turn

/-- Lowers a token, if it is there. -/
def lower (t : Turn γ) (token : Token) (holder : UnitId) : Turn γ :=
  match t.unit.waits.remove? token holder with
  | none => t
  | some waits =>
    { t with
      unit := { t.unit with waits := waits }
      effects := { t.effects with waits := t.effects.waits ++ [.granted token holder] } }

/-- Gives up everything that is waited for. -/
def forget (t : Turn γ) : Turn γ :=
  { t with
    unit := { t.unit with waits := .empty }
    effects := { t.effects with
      waits := t.effects.waits ++ t.unit.waits.entries.map fun e ↦ .granted e.1 e.2 } }

end Turn

/-- What a deed does. -/
def Deed.after (t : Turn γ) : Deed γ → Turn γ
  | raise token holder => t.waitFor token holder
  | lower token holder => t.lower token holder
  | forget => t.forget
  | send receiver m => t.send receiver m
  | join u roots => (t.addUnit u).send u.id (.start roots)
  | edge e => t.assertEdge e
  | datum s d => t.assertDatum s d
  | receive e => t.receiveEdge e
  | share x => t.edit fun u ↦
    { u with shared := x.shared u.shared, initialized := x.initialized u.initialized }
  | hesitate => t.edit fun u ↦ { u with phase := .undecided }

/-! ## Keeping books -/

/-- What bookkeeping leaves alone. -/
def UnitNode.stake (u : UnitNode γ) :
    UnitId × UnitKind γ × Option Report × ScopeGraph × ScopeGraph ×
      SortedMap Scope (SortedSet Slot) × TokenBag × SortedSet Scope :=
  (u.id, u.kind, u.previous, u.graph, u.localGraph, u.shared, u.waits, u.initialized)

/-- The second unit is the first one after some bookkeeping. It may have gone on in its life, but it
is not undecided about reuse unless it was. -/
structure UnitNode.Alike (u v : UnitNode γ) : Prop where
  stake : v.stake = u.stake
  phase : v.phase = .created ∨ v.phase = .undecided → v.phase = u.phase

namespace UnitNode.Alike

variable {u v : UnitNode γ}

theorem refl (u : UnitNode γ) : u.Alike u := ⟨rfl, fun _ ↦ rfl⟩

theorem id (h : u.Alike v) : v.id = u.id := congrArg Prod.fst h.stake

theorem kind (h : u.Alike v) : v.kind = u.kind := congrArg (·.2.1) h.stake

theorem graph (h : u.Alike v) : v.graph = u.graph := congrArg (·.2.2.2.1) h.stake

theorem localGraph (h : u.Alike v) : v.localGraph = u.localGraph := congrArg (·.2.2.2.2.1) h.stake

theorem shared (h : u.Alike v) : v.shared = u.shared := congrArg (·.2.2.2.2.2.1) h.stake

theorem waits (h : u.Alike v) : v.waits = u.waits := congrArg (·.2.2.2.2.2.2.1) h.stake

theorem initialized (h : u.Alike v) : v.initialized = u.initialized :=
  congrArg (·.2.2.2.2.2.2.2) h.stake

end UnitNode.Alike

/-- Nothing has happened but bookkeeping. -/
structure Turn.Notes (t t' : Turn γ) : Prop where
  unit : t.unit.Alike t'.unit
  settings : t'.settings = t.settings
  waits : t'.effects.waits = t.effects.waits
  newUnits : t'.effects.newUnits = t.effects.newUnits
  messages : t'.effects.messages = t.effects.messages

namespace Turn

/-- The unit does deeds of a certain kind, and keeps books in between. -/
inductive Moves (A : Deed γ → Prop) : Turn γ → Turn γ → Prop where
  | refl (t : Turn γ) : Moves A t t
  | note {t t' t'' : Turn γ} (h : Moves A t t') (hnotes : t'.Notes t'') : Moves A t t''
  | deed {t t' : Turn γ} (h : Moves A t t') {d : Deed γ} (hd : A d) : Moves A t (d.after t')

end Turn

/-- No deed changes what unit it is. -/
theorem Deed.id_kind_after (t : Turn γ) (d : Deed γ) :
    (d.after t).unit.id = t.unit.id ∧ (d.after t).unit.kind = t.unit.kind := by
  cases d with
  | lower token holder =>
    rw [after, Turn.lower]
    split <;> exact ⟨rfl, rfl⟩
  | edge e =>
    rw [after, Turn.assertEdge]
    split <;> exact ⟨rfl, rfl⟩
  | datum s d =>
    rw [after, Turn.assertDatum]
    split <;> exact ⟨rfl, rfl⟩
  | receive e =>
    rw [after, Turn.receiveEdge]
    split <;> exact ⟨rfl, rfl⟩
  | raise | forget | send | join | share | hesitate => exact ⟨rfl, rfl⟩

theorem Deed.id_after (t : Turn γ) (d : Deed γ) : (d.after t).unit.id = t.unit.id :=
  (d.id_kind_after t).1

theorem Deed.newUnits_after (t : Turn γ) {d : Deed γ} (hd : ∀ u roots, d ≠ .join u roots) :
    (d.after t).effects.newUnits = t.effects.newUnits := by
  cases d with
  | lower token holder =>
    rw [after, Turn.lower]
    split <;> rfl
  | edge e =>
    rw [after, Turn.assertEdge]
    split <;> rfl
  | datum s d =>
    rw [after, Turn.assertDatum]
    split <;> rfl
  | receive e =>
    rw [after, Turn.receiveEdge]
    split <;> rfl
  | join u roots => exact absurd rfl (hd u roots)
  | raise | forget | send | share | hesitate => rfl

theorem Deed.initialized_after (t : Turn γ) {d : Deed γ} (hd : ∀ x, d ≠ .share x) :
    (d.after t).unit.initialized = t.unit.initialized := by
  cases d with
  | lower token holder =>
    rw [after, Turn.lower]
    split <;> rfl
  | edge e =>
    rw [after, Turn.assertEdge]
    split <;> rfl
  | datum s d =>
    rw [after, Turn.assertDatum]
    split <;> rfl
  | receive e =>
    rw [after, Turn.receiveEdge]
    split <;> rfl
  | share x => exact absurd rfl (hd x)
  | raise | forget | send | join | hesitate => rfl

namespace Turn.Moves

variable {A B : Deed γ → Prop} {t t' t'' : Turn γ}

theorem trans (h : t.Moves A t') (h' : t'.Moves A t'') : t.Moves A t'' := by
  induction h' with
  | refl => exact h
  | note _ hnotes ih => exact .note ih hnotes
  | deed _ hd ih => exact .deed ih hd

theorem mono (hAB : ∀ d, A d → B d) (h : t.Moves A t') : t.Moves B t' := by
  induction h with
  | refl => exact .refl _
  | note _ hnotes ih => exact .note ih hnotes
  | deed _ hd ih => exact .deed ih (hAB _ hd)

theorem id (h : t.Moves A t') : t'.unit.id = t.unit.id := by
  induction h with
  | refl => rfl
  | note _ hnotes ih => exact hnotes.unit.id.trans ih
  | deed _ _ ih => exact (Deed.id_after _ _).trans ih

theorem kind (h : t.Moves A t') : t'.unit.kind = t.unit.kind := by
  induction h with
  | refl => rfl
  | note _ hnotes ih => exact hnotes.unit.kind.trans ih
  | deed _ _ ih => exact (Deed.id_kind_after _ _).2.trans ih

/-- Units are added by joining only. -/
theorem newUnits (h : t.Moves A t') (hA : ∀ u roots, ¬ A (.join u roots)) :
    t'.effects.newUnits = t.effects.newUnits := by
  induction h with
  | refl => rfl
  | note _ hnotes ih => exact hnotes.newUnits.trans ih
  | deed _ hd ih =>
    exact (Deed.newUnits_after _ fun u roots heq ↦ hA u roots (heq ▸ hd)).trans ih

/-- Scopes of others are initialised by sharing only. -/
theorem initialized (h : t.Moves A t') (hA : ∀ x, ¬ A (.share x)) :
    t'.unit.initialized = t.unit.initialized := by
  induction h with
  | refl => rfl
  | note _ hnotes ih => exact hnotes.unit.initialized.trans ih
  | deed _ hd ih =>
    exact (Deed.initialized_after _ fun x heq ↦ hA x (heq ▸ hd)).trans ih

/-- A unit that does nothing but keep books. -/
theorem stake (h : t.Moves (fun _ ↦ False) t') : t'.unit.stake = t.unit.stake := by
  induction h with
  | refl => rfl
  | note _ hnotes ih => exact hnotes.unit.stake.trans ih
  | deed _ hd _ => exact hd.elim

/-! ### Bookkeeping -/

/-- The unit goes on in its life. -/
theorem enter (h : t.Moves A t') {f : UnitNode γ → UnitNode γ}
    (hf : (f t'.unit).stake = t'.unit.stake)
    (hphase : (f t'.unit).phase ≠ .created ∧ (f t'.unit).phase ≠ .undecided) :
    t.Moves A (t'.edit f) :=
  h.note ⟨⟨hf, fun heq ↦ (heq.elim hphase.1 hphase.2).elim⟩, rfl, rfl, rfl, rfl⟩

/-- Changes to the books of the unit. -/
theorem edit (h : t.Moves A t') {f : UnitNode γ → UnitNode γ}
    (hf : ((f t'.unit).stake, (f t'.unit).phase) = (t'.unit.stake, t'.unit.phase)) :
    t.Moves A (t'.edit f) :=
  h.note ⟨⟨congrArg Prod.fst hf, fun _ ↦ congrArg Prod.snd hf⟩, rfl, rfl, rfl, rfl⟩

theorem spawn (h : t.Moves A t') (task : Task γ) : t.Moves A (t'.spawn task) :=
  h.note ⟨.refl _, rfl, rfl, rfl, rfl⟩

theorem fill (h : t.Moves A t') (state : ChannelState Parcel) (c : ChannelId) :
    t.Moves A (t'.fill state c) :=
  h.note ⟨.refl _, rfl, rfl, rfl, rfl⟩

theorem fillAll (h : t.Moves A t') (state : ChannelState Parcel) (cs : List ChannelId) :
    t.Moves A (cs.foldl (Turn.fill state) t') := by
  induction cs generalizing t' with
  | nil => exact h
  | cons c cs ih => exact ih (h.fill state c)

theorem tell (h : t.Moves A t') (cs : List ChannelId) (p : Parcel) : t.Moves A (t'.tell cs p) :=
  h.fillAll _ _

theorem settleActive (h : t.Moves A t') (a : Activation) : t.Moves A (t'.settleActive a) :=
  (h.edit (by rfl)).tell _ _

theorem settleDecision (h : t.Moves A t') (p : Option Renaming) : t.Moves A (t'.settleDecision p) :=
  (h.edit (by rfl)).tell _ _

theorem endLocalPhase (h : t.Moves A t') : t.Moves A t'.endLocalPhase :=
  (h.edit (by rfl)).tell _ _

theorem capture (h : t.Moves A t') : t.Moves A t'.capture :=
  h.edit (by rfl)

theorem fireDelays (h : t.Moves A t') : t.Moves A t'.fireDelays :=
  (h.edit (by rfl)).tell _ _

theorem tryFinish (h : t.Moves A t') : t.Moves A t'.tryFinish := by
  rw [Turn.tryFinish]
  split
  · have hended := h.enter (f := fun u ↦
      { u with finished := true, phase := .done, report := u.report.settle t'.unit.currentReport })
      rfl ⟨by simp, by simp⟩
    exact (hended.tell _ _).note ⟨.refl _, rfl, rfl, rfl, rfl⟩
  · exact h

theorem newChannel (h : t.Moves A t') : t.Moves A t'.newChannel.2 :=
  h.note ⟨.refl _, rfl, rfl, rfl, rfl⟩

theorem newRequest (h : t.Moves A t') : t.Moves A t'.newRequest.2 :=
  h.note ⟨.refl _, rfl, rfl, rfl, rfl⟩

/-! ### Tokens, messages and sub-units -/

theorem waitFor (h : t.Moves A t') {token : Token} {holder : UnitId}
    (hA : A (.raise token holder)) : t.Moves A (t'.waitFor token holder) :=
  h.deed hA

theorem waitForAll (h : t.Moves A t') {tokens : List Token} {holder : UnitId}
    (hA : ∀ token ∈ tokens, A (.raise token holder)) : t.Moves A (t'.waitForAll tokens holder) := by
  induction tokens generalizing t' with
  | nil => exact h
  | cons token tokens ih =>
    exact ih (h.waitFor (hA token List.mem_cons_self)) fun _ hmem ↦ hA _ (List.mem_cons_of_mem _ hmem)

theorem grant (h : t.Moves A t') {token : Token} {holder : UnitId} (hA : A (.lower token holder)) :
    t.Moves A (t'.grant token holder) := by
  have hlowered := h.deed hA
  rw [Deed.after, lower] at hlowered
  rw [Turn.grant]
  split
  · exact h
  · rename_i heq
    rw [heq] at hlowered
    exact hlowered.fireDelays.tryFinish

/-- The unit lowers a token of its own. -/
theorem grantOwn (h : t.Moves A t') {token : Token} (hA : A (.lower token t.unit.id)) :
    t.Moves A (t'.grant token t'.unit.id) :=
  h.grant (h.id.symm ▸ hA)

theorem grantAll (h : t.Moves A t') {tokens : List (Token × UnitId)}
    (hA : ∀ e ∈ tokens, A (.lower e.1 e.2)) : t.Moves A (t'.grantAll tokens) := by
  induction tokens generalizing t' with
  | nil => exact h
  | cons e tokens ih =>
    exact ih (h.grant (hA e List.mem_cons_self)) fun _ hmem ↦ hA _ (List.mem_cons_of_mem _ hmem)

theorem send (h : t.Moves A t') {receiver : UnitId} {m : Message} (hA : A (.send receiver m)) :
    t.Moves A (t'.send receiver m) :=
  h.deed hA

theorem join (h : t.Moves A t') {u : UnitNode γ} {roots : List Scope} (hA : A (.join u roots)) :
    t.Moves A ((t'.addUnit u).send u.id (.start roots)) :=
  h.deed hA

/-- Several things one after the other. -/
theorem foldl {ι : Type} {f : Turn γ → ι → Turn γ} (h : t.Moves A t') (is : List ι)
    (hf : ∀ i ∈ is, ∀ t'' : Turn γ, t''.unit.id = t.unit.id → t''.Moves A (f t'' i)) :
    t.Moves A (is.foldl f t') := by
  induction is generalizing t' with
  | nil => exact h
  | cons i is ih =>
    exact ih (h.trans (hf i List.mem_cons_self t' h.id)) fun j hj ↦ hf j (List.mem_cons_of_mem _ hj)

end Turn.Moves

/-! ## Kinds of deeds -/

/-- A unit as it is when it is added. -/
structure UnitNode.IsBlank (u : UnitNode γ) : Prop where
  phase : u.phase = .created
  graph : u.graph = .empty
  localGraph : u.localGraph = .empty
  shared : u.shared = ∅
  waits : u.waits = .empty
  scopes : u.scopes = ∅
  delays : u.delays = []

theorem UnitNode.isBlank_new (id : UnitId) (parent : Option UnitId) (kind : UnitKind γ)
    (previous : Option Report) (changed localPhase : Bool) :
    (new id parent kind previous changed localPhase).IsBlank :=
  ⟨rfl, rfl, rfl, rfl, rfl, rfl, rfl⟩

namespace Deed

/-- Edges on scopes of other units are sent by asserting them, edges that others assert are taken in
only when they arrive, and units are started when they are added and have not done anything yet. -/
def IsPlain : Deed γ → Prop
  | receive _ | send _ (.addEdge _ _) | send _ (.start _) => False
  | join u _ => u.IsBlank
  | _ => True

/-- A deed that asserts nothing. -/
def IsSilent : Deed γ → Prop
  | edge _ | datum _ _ => False
  | d => d.IsPlain

/-- A deed that keeps the scopes of a unit and those of others apart. Slots of its own scopes are
what it waits for, slots of other scopes are what it keeps open, and who owns a scope is told that
it has been initialised. -/
def IsApart (id : UnitId) : Deed γ → Prop
  | raise (.closeSlot s _) _ => s.owner = id
  | send receiver (.initShare _ s _ _) => s.owner = receiver
  | share (.keep s _) => s.owner ≠ id
  | d => d.IsPlain

/-- A deed that asserts nothing and keeps the scopes of a unit and those of others apart. -/
def IsDiscreet (id : UnitId) : Deed γ → Prop
  | edge _ | datum _ _ => False
  | d => d.IsApart id

/-- A unit that only asks and answers for itself: it raises slots of its own scopes towards itself
only and gives up no token that another unit holds on them, sends no news of what it adds to scopes
of others, and adds only units that will not add anything on their own. -/
def IsCalm (id : UnitId) : Deed γ → Prop
  | raise (.closeSlot s _) holder => holder = id ∧ s.owner = id
  | raise _ _ => True
  | lower token holder => token.isClosure → holder = id
  | send _ (.initShare _ _ _ _) | send _ (.addEdge _ _) | send _ (.closeEdge _ _ _) => False
  | send _ (.start _) => False
  | send _ _ => True
  | join u _ => u.IsBlank ∧ (u.kind.isChecker ∨ u.isRemoved)
  | _ => False

variable {id : UnitId} {d : Deed γ}

/-- What a unit waits for itself concerns nobody else. -/
theorem isCalm_raise_own {token : Token} (h : ∀ s slot, token = .closeSlot s slot → s.owner = id) :
    (raise (γ := γ) token id).IsCalm id := by
  cases token with
  | closeSlot s slot => exact ⟨rfl, h s slot rfl⟩
  | activate | initScope | closeScope | query | confirm | counterpart | subUnit => trivial

theorem IsSilent.isPlain (h : d.IsSilent) : d.IsPlain := by
  cases d <;> first | exact h | exact h.elim

theorem IsApart.isPlain (h : d.IsApart id) : d.IsPlain := by
  cases d with
  | raise | share => trivial
  | send _ m => cases m <;> trivial
  | lower | forget | join | edge | datum | receive | hesitate => exact h

theorem IsDiscreet.isApart (h : d.IsDiscreet id) : d.IsApart id := by
  cases d with
  | edge | datum => exact h.elim
  | raise | lower | forget | send | join | receive | share | hesitate => exact h

theorem IsDiscreet.isSilent (h : d.IsDiscreet id) : d.IsSilent := by
  have hplain : d.IsPlain := h.isApart.isPlain
  cases d with
  | edge | datum => exact h.elim
  | raise | lower | forget | send | join | receive | share | hesitate => exact hplain

theorem IsCalm.isDiscreet (h : d.IsCalm id) : d.IsDiscreet id := by
  cases d with
  | raise token => cases token <;> first | trivial | exact h.2
  | lower => trivial
  | send _ m => cases m <;> trivial
  | join u => exact h.1
  | forget | edge | datum | receive | share | hesitate => exact h.elim

theorem IsCalm.isSilent (h : d.IsCalm id) : d.IsSilent := h.isDiscreet.isSilent

end Deed

end ScopeGraphs
