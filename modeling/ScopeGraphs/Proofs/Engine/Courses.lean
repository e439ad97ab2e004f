import ScopeGraphs.Proofs.Engine.Finality
import ScopeGraphs.Proofs.Engine.Mailing

/-!
# Runs with their mail

`Core.Run` tells what becomes of units, whatever happens to the messages between them. A *course*
keeps the messages in view, too. Whenever a unit does something, its messages are sent at once, to
the mailboxes of units that exist and to where the messages to other units are parked. A message is
handled by the unit in whose mailbox it comes first, the units taking turns in any order, and parked
messages may be dropped.

Everything that the engine does is a course (`Engine.leadsTo_run`).
-/

namespace ScopeGraphs

variable {γ α : Type}

/-! ## Mail -/

namespace Mailboxes

variable {μ : Type} {b b' : Mailboxes μ} {u v : UnitId} {m : μ}

/-- The first message is taken out of a mailbox. -/
structure Takes (b : Mailboxes μ) (u : UnitId) (m : μ) (b' : Mailboxes μ) : Prop where
  box : b.box u = m :: b'.box u
  others : ∀ v, u ≠ v → b'.box v = b.box v
  parked : b'.parked = b.parked

theorem Takes.of_scheduled {scheduled : SortedSet UnitId}
    (h : Takes { b with scheduled := scheduled } u m b') : b.Takes u m b' :=
  ⟨h.box, h.others, h.parked⟩

theorem takes_taken {messages : List μ} (hbox : b.box u = m :: messages) (rest : List UnitId) :
    b.Takes u m (b.taken u rest messages) where
  box := by rw [hbox, box_taken, if_pos rfl]
  others v hv := (box_taken u rest messages v).trans (if_neg hv)
  parked := rfl

theorem takes_of_nextOf (line : List UnitId) (h : b.nextOf line = some ((u, m), b')) :
    b.Takes u m b' := by
  induction line generalizing b with
  | nil => exact absurd h nofun
  | cons v rest ih =>
    rw [nextOf] at h
    split at h
    · exact (ih h).of_scheduled
    · rename_i m' messages hbox
      obtain ⟨heq, rfl⟩ := Prod.mk.inj (Option.some.inj h)
      obtain ⟨rfl, rfl⟩ := Prod.mk.inj heq
      exact takes_taken hbox rest

theorem takes_of_next (h : b.next = some ((u, m), b')) : b.Takes u m b' :=
  takes_of_nextOf b.runnable h

theorem parkedFor_park : (b.park u m).parkedFor v = if u = v then b.parkedFor u ++ [m]
    else b.parkedFor v := by
  rw [parkedFor, park, SortedMap.getElem?_insert_eq]
  split <;> rfl

theorem box_foldl_enqueue (ms : List μ) :
    (ms.foldl (fun b m ↦ b.enqueue u m) b).box v = if u = v then b.box u ++ ms else b.box v := by
  induction ms generalizing b with
  | nil => split <;> simp_all
  | cons m ms ih =>
    rw [List.foldl_cons, ih, box_enqueue, box_enqueue]
    split <;> simp

theorem parked_foldl_enqueue (ms : List μ) :
    (ms.foldl (fun b m ↦ b.enqueue u m) b).parked = b.parked := by
  induction ms generalizing b with
  | nil => rfl
  | cons m ms ih => exact ih

theorem box_unpark : (b.unpark u).box v = if u = v then b.box u ++ b.parkedFor u else b.box v :=
  box_foldl_enqueue _

theorem parkedFor_unpark : (b.unpark u).parkedFor v = if u = v then [] else b.parkedFor v := by
  rw [parkedFor, unpark, parked_foldl_enqueue, SortedMap.getElem?_erase_eq]
  split <;> rfl

theorem parkedFor_dropParked : b.dropParked.2.parkedFor v = [] := by
  rw [parkedFor, dropParked, Std.ExtTreeMap.getElem?_empty]
  rfl

/-- All messages on their way to a unit. -/
def queue (b : Mailboxes μ) (u : UnitId) : List μ := b.box u ++ b.parkedFor u

/-- Nothing is in the mailbox of a unit if all mailboxes are empty. -/
theorem box_eq_nil (hboxes : ∀ e ∈ b.boxes.toList, e.2 = []) (u : UnitId) : b.box u = [] := by
  rw [box]
  cases hbox : b.boxes[u]? with
  | none => rfl
  | some messages =>
    exact hboxes (u, messages) (Std.ExtTreeMap.mem_toList_iff_getElem?_eq_some.2 hbox)

theorem queue_eq_nil (hboxes : ∀ e ∈ b.boxes.toList, e.2 = []) (hparked : b.parked.toList = [])
    (u : UnitId) : b.queue u = [] := by
  have hnone : b.parked[u]? = none := by
    refine Option.eq_none_iff_forall_ne_some.2 fun messages hmessages ↦ ?_
    have hmem := Std.ExtTreeMap.mem_toList_iff_getElem?_eq_some.2 hmessages
    exact List.not_mem_nil (hparked ▸ hmem)
  rw [queue, box_eq_nil hboxes, parkedFor, hnone]
  rfl

theorem queue_unpark : (b.unpark u).queue v = b.queue v := by
  rw [queue, box_unpark, parkedFor_unpark]
  split
  · rename_i heq
    rw [heq, List.append_nil]
    rfl
  · rfl

theorem Takes.queue (h : b.Takes u m b') (v : UnitId) :
    b.queue v = (if u = v then [m] else []) ++ b'.queue v := by
  have hparked : b'.parkedFor v = b.parkedFor v := by rw [parkedFor, h.parked, parkedFor]
  by_cases heq : u = v
  · rw [if_pos heq, Mailboxes.queue, Mailboxes.queue, hparked, ← heq, h.box]
    rfl
  · rw [if_neg heq, Mailboxes.queue, Mailboxes.queue, h.others v heq, hparked]
    rfl

end Mailboxes

/-! ## Messages still to be sent -/

/-- The messages to a unit, in order, among messages that are still to be sent. -/
def sentTo (id : UnitId) (ms : List (UnitId × Message)) : List Message :=
  ms.filterMap fun m ↦ if m.1 = id then some m.2 else none

theorem sentTo_cons (id : UnitId) (m : UnitId × Message) (ms : List (UnitId × Message)) :
    sentTo id (m :: ms) = (if m.1 = id then [m.2] else []) ++ sentTo id ms := by
  rw [sentTo, sentTo, List.filterMap_cons]
  split <;> split <;> simp_all

theorem mem_sentTo {id : UnitId} {m : Message} {ms : List (UnitId × Message)} :
    m ∈ sentTo id ms ↔ (id, m) ∈ ms := by
  rw [sentTo, List.mem_filterMap]
  constructor
  · rintro ⟨⟨id', m'⟩, hmem, heq⟩
    split at heq
    · rename_i hid
      obtain rfl := Option.some.inj heq
      exact hid ▸ hmem
    · exact absurd heq nofun
  · intro hmem
    exact ⟨(id, m), hmem, if_pos rfl⟩

/-! ## What happens -/

/-- Something that happens in a run. -/
inductive Occurrence (γ : Type) : Type 1 where
  /-- An operation is carried out on a unit. -/
  | acted {α : Type} (u : UnitNode γ) (op : UnitOp γ α)
  /-- A unit handles a message. -/
  | handled (u : UnitNode γ) (m : Message)
  /-- Messages are dropped, by the units they were sent to. -/
  | dropped (messages : UnitId → List Message)
  /-- Nothing that concerns units and messages. -/
  | other

/-- Whether an operation is the handling of a message. -/
def UnitOp.IsHandling : {α : Type} → UnitOp γ α → Prop
  | _, handle _ => True
  | _, _ => False

/-- Checkers do not add units that replay. -/
def Action.IsProper : {α : Type} → Action γ α → Prop
  | _, addSubUnit _ kind _ _ => kind ≠ .phantom true
  | _, _ => True

/-- Whether an operation is one that checkers and tasks carry out, or the engine by itself. Messages
are handled when they arrive, and what a task stops waiting for is the answer to a question. -/
def UnitOp.IsProper : {α : Type} → UnitOp γ α → Prop
  | _, act a => a.IsProper
  | _, endAsking ticket => ¬ ticket.token.isClosure
  | _, handle _ => False
  | _, _ => True

/-- All operations are proper. -/
def Occurrence.IsProper : Occurrence γ → Prop
  | acted _ op => op.IsProper
  | _ => True

namespace Core

/-- One thing that happens in a run. -/
inductive Move : Core γ → Occurrence γ → Core γ → Prop where
  | acted {c : Core γ} {id : UnitId} {u : UnitNode γ} (hu : c.units[id]? = some u) {α : Type}
      (op : UnitOp γ α) (hop : ¬ op.IsHandling) : Move c (.acted u op) (c.carryOut id u op)
  | handled {c : Core γ} {id : UnitId} {u : UnitNode γ} (hu : c.units[id]? = some u) {m : Message}
      {mail : Mailboxes Message} (hmail : c.mail.Takes id m mail) :
      Move c (.handled u m) ({ c with mail := mail }.carryOut id u (.handle m))
  | dropped {c c' : Core γ} (hunits : c'.units = c.units) (hsetup : c'.setup = c.setup)
      (hmail : c'.mail = c.mail.dropParked.2) : Move c (.dropped c.mail.parkedFor) c'
  | other {c c' : Core γ} (hunits : c'.units = c.units) (hsetup : c'.setup = c.setup)
      (hmail : c'.mail = c.mail) : Move c .other c'

/-- What happens in a run from one state to another, each time with the state to which it leads. -/
inductive Course : Core γ → List (Occurrence γ × Core γ) → Core γ → Prop where
  | nil (c : Core γ) : Course c [] c
  | cons {c c' c'' : Core γ} {o : Occurrence γ} {tr : List (Occurrence γ × Core γ)}
      (hmove : Move c o c') (hcourse : Course c' tr c'') : Course c ((o, c') :: tr) c''

variable {c c' c'' : Core γ}

theorem Course.append {tr tr' : List (Occurrence γ × Core γ)} (h : Course c tr c')
    (h' : Course c' tr' c'') : Course c (tr ++ tr') c'' := by
  induction h with
  | nil => exact h'
  | cons hmove _ ih => exact .cons hmove (ih h')

/-- A state to which a run leads while nothing happens but what satisfies a condition. -/
def LeadsTo (P : Occurrence γ → Prop) (c c' : Core γ) : Prop :=
  ∃ tr, Course c tr c' ∧ ∀ x ∈ tr, P x.1

namespace LeadsTo

variable {P : Occurrence γ → Prop} {o : Occurrence γ}

theorem refl (c : Core γ) : LeadsTo P c c := ⟨[], .nil c, List.forall_mem_nil _⟩

theorem trans (h : LeadsTo P c c') (h' : LeadsTo P c' c'') : LeadsTo P c c'' := by
  obtain ⟨tr, hcourse, htr⟩ := h
  obtain ⟨tr', hcourse', htr'⟩ := h'
  exact ⟨tr ++ tr', hcourse.append hcourse', fun x hx ↦ (List.mem_append.1 hx).elim (htr x) (htr' x)⟩

theorem of_move (hmove : Move c o c') (ho : P o) : LeadsTo P c c' :=
  ⟨[(o, c')], .cons hmove (.nil _), fun _ hx ↦ List.mem_singleton.1 hx ▸ ho⟩

theorem move (h : LeadsTo P c c') (hmove : Move c' o c'') (ho : P o) : LeadsTo P c c'' :=
  h.trans (of_move hmove ho)

end LeadsTo

/-! ## Applying effects -/

theorem units_noteWait (origin : UnitId) (c : Core γ) (e : WaitEvent) :
    (c.noteWait origin e).units = c.units ∧ (c.noteWait origin e).setup = c.setup ∧
      (c.noteWait origin e).mail = c.mail := by
  cases e <;> exact ⟨rfl, rfl, rfl⟩

/-- What holds while units are added and messages sent, one after the other, holds in the end. -/
theorem applyEffects_induction
    {P : Core γ → List (UnitNode γ) → List (UnitId × Message) → Prop} (origin : UnitId)
    (e : Effects γ)
    (hother : ∀ {c c' : Core γ} {us ms}, c'.units = c.units → c'.setup = c.setup →
      c'.mail = c.mail → P c us ms → P c' us ms)
    (hjoined : ∀ (c : Core γ) (u us ms), P c (u :: us) ms → P (c.addUnit u) us ms)
    (hposted : ∀ (c : Core γ) (m ms), P c [] (m :: ms) → P (c.post m) [] ms)
    (h : P c e.newUnits e.messages) : P (c.applyEffects origin e) [] [] := by
  have hwaits (es : List WaitEvent) {c : Core γ} (h : P c e.newUnits e.messages) :
      P (es.foldl (noteWait origin) c) e.newUnits e.messages := by
    induction es generalizing c with
    | nil => exact h
    | cons w es ih =>
      obtain ⟨hunits, hsetup, hmail⟩ := c.units_noteWait origin w
      exact ih (hother hunits hsetup hmail h)
  have hunits (us : List (UnitNode γ)) {c : Core γ} (h : P c us e.messages) :
      P (us.foldl addUnit c) [] e.messages := by
    induction us generalizing c with
    | nil => exact h
    | cons u us ih => exact ih (hjoined _ _ _ _ h)
  have hmessages (ms : List (UnitId × Message)) {c : Core γ} (h : P c [] ms) :
      P (ms.foldl post c) [] [] := by
    induction ms generalizing c with
    | nil => exact h
    | cons m ms ih => exact ih (hposted _ _ _ h)
  exact hmessages _ (hunits _ (hwaits _ h))

theorem setup_carryOut (id : UnitId) (u : UnitNode γ) (op : UnitOp γ α) :
    (c.carryOut id u op).setup = c.setup :=
  applyEffects_induction (P := fun c' _ _ ↦ c'.setup = c.setup) id _
    (fun _ hsetup _ h ↦ hsetup.trans h)
    (fun c u _ _ h ↦ (Step.setup (.joined (c := c) u)).trans h) (fun _ _ _ h ↦ h) (c.setup_turn u op)

theorem Move.setup {o : Occurrence γ} (hmove : Move c o c') : c'.setup = c.setup := by
  cases hmove with
  | acted _ op _ => exact setup_carryOut _ _ op
  | handled _ _ => exact setup_carryOut _ _ _
  | dropped _ hsetup _ | other _ hsetup _ => exact hsetup

/-! ## Units and their mailboxes -/

/-- Every unit is filed under its id, and mail waits in mailboxes for units that exist and is parked
for all others. -/
structure Housed (c : Core γ) : Prop where
  filed : c.Filed
  box : ∀ id, c.units[id]? = none → c.mail.box id = []
  parked : ∀ id u, c.units[id]? = some u → c.mail.parkedFor id = []

theorem queue_addUnit (c : Core γ) (u : UnitNode γ) (id : UnitId) :
    (c.addUnit u).mail.queue id = c.mail.queue id := by
  rw [addUnit]
  split
  · rfl
  · exact Mailboxes.queue_unpark

namespace Housed

theorem other (h : c.Housed) (hunits : c'.units = c.units) (hmail : c'.mail = c.mail) :
    c'.Housed where
  filed id u hu := h.filed id u (hunits ▸ hu)
  box id hid := hmail ▸ h.box id (hunits ▸ hid)
  parked id u hu := hmail ▸ h.parked id u (hunits ▸ hu)

theorem addUnit (h : c.Housed) (u : UnitNode γ) : (c.addUnit u).Housed := by
  have hfiled : (c.addUnit u).Filed := h.filed.addUnit u
  rw [Core.addUnit] at hfiled ⊢
  split
  · exact h
  · rename_i hnew
    rw [if_neg hnew] at hfiled
    -- What was parked for the unit moves into its mailbox, and nothing else moves.
    refine ⟨hfiled, fun id hid ↦ ?_, fun id v hv ↦ ?_⟩
    · rw [SortedMap.getElem?_insert_eq] at hid
      split at hid
      · contradiction
      · rename_i hne
        rw [Mailboxes.box_unpark, if_neg hne]
        exact h.box id hid
    · rw [Mailboxes.parkedFor_unpark]
      split
      · rfl
      · rename_i hne
        obtain ⟨heq, -⟩ | ⟨-, hold⟩ := SortedMap.getElem?_insert_eq_some_iff.1 hv
        · exact absurd heq hne
        · exact h.parked id v hold

/-- A message joins the end of the queue of the unit it is sent to. -/
theorem queue_post (h : c.Housed) (m : UnitId × Message) (id : UnitId) :
    (c.post m).mail.queue id = c.mail.queue id ++ if m.1 = id then [m.2] else [] := by
  rw [post, Mailboxes.send]
  split
  · rename_i hexists
    rw [Std.ExtTreeMap.contains_eq_isSome_getElem?] at hexists
    obtain ⟨u, hu⟩ := Option.isSome_iff_exists.1 hexists
    rw [Mailboxes.queue, Mailboxes.queue, Mailboxes.box_enqueue]
    split
    · rename_i heq
      have hparked : c.mail.parkedFor id = [] := h.parked id u (heq ▸ hu)
      change c.mail.box m.1 ++ [m.2] ++ c.mail.parkedFor id = _
      rw [hparked, heq, List.append_nil, List.append_nil]
    · exact (List.append_nil _).symm
  · rw [Mailboxes.queue, Mailboxes.queue, Mailboxes.parkedFor_park]
    split
    · rename_i heq
      rw [← heq, List.append_assoc]
      rfl
    · exact (List.append_nil _).symm

theorem post (h : c.Housed) (m : UnitId × Message) : (c.post m).Housed := by
  refine ⟨h.filed, fun id hid ↦ ?_, fun id u hu ↦ ?_⟩ <;> rw [Core.post, Mailboxes.send]
  · split
    · rename_i hexists
      rw [Mailboxes.box_enqueue, if_neg]
      · exact h.box id hid
      · rintro rfl
        rw [Std.ExtTreeMap.contains_eq_isSome_getElem?, show c.units[m.1]? = none from hid]
          at hexists
        exact absurd hexists nofun
    · exact h.box id hid
  · split
    · exact h.parked id u hu
    · rename_i hmissing
      rw [Mailboxes.parkedFor_park, if_neg]
      · exact h.parked id u hu
      · rintro rfl
        rw [Std.ExtTreeMap.contains_eq_isSome_getElem?, show c.units[m.1]? = some u from hu]
          at hmissing
        exact hmissing rfl

/-- A unit that exists gets another state. -/
theorem insert (h : c.Housed) {id : UnitId} {u v : UnitNode γ} (hu : c.units[id]? = some u)
    (hunits : ∀ k, c'.units[k]? = if id = k then some v else c.units[k]?) (hid : v.id = id)
    (hmail : c'.mail = c.mail) : c'.Housed where
  filed k w hw := by
    rw [hunits] at hw
    split at hw
    · rename_i heq
      obtain rfl := Option.some.inj hw
      exact hid.trans heq
    · exact h.filed k w hw
  box k hk := by
    rw [hunits] at hk
    split at hk
    · exact absurd hk nofun
    · exact hmail ▸ h.box k hk
  parked k w hw := by
    rw [hunits] at hw
    rw [hmail]
    split at hw
    · rename_i heq
      exact h.parked k u (heq ▸ hu)
    · exact h.parked k w hw

theorem turn (h : c.Housed) {id : UnitId} {u : UnitNode γ} (hu : c.units[id]? = some u)
    (op : UnitOp γ α) : (c.turn u op).2.2.Housed := by
  obtain rfl : u.id = id := h.filed id u hu
  have hunits (k : UnitId) : (c.turn u op).2.2.units[k]? = if u.id = k then
      some (op.run ⟨u, .none, c.setup.settings, c.channels, c.nextRequest⟩).2.unit
      else c.units[k]? := by
    rw [units_turn, SortedMap.getElem?_insert_eq]
  exact h.insert hu hunits (op.id_run _) (mail_turn c u op)

theorem takes (h : c.Housed) {id : UnitId} {m : Message} {mail : Mailboxes Message}
    (hmail : c.mail.Takes id m mail) : ({ c with mail := mail } : Core γ).Housed where
  filed := h.filed
  box v hv := by
    by_cases heq : id = v
    · have hbox := h.box v hv
      rw [← heq, hmail.box] at hbox
      exact absurd hbox nofun
    · exact (hmail.others v heq).trans (h.box v hv)
  parked v u hu := by
    rw [Mailboxes.parkedFor, hmail.parked]
    exact h.parked v u hu

theorem carryOut (h : c.Housed) {id : UnitId} {u : UnitNode γ} (hu : c.units[id]? = some u)
    (op : UnitOp γ α) : (c.carryOut id u op).Housed :=
  applyEffects_induction (P := fun c _ _ ↦ c.Housed) id _ (fun hunits _ hmail h ↦ h.other hunits hmail)
    (fun _ u _ _ h ↦ h.addUnit u) (fun _ m _ h ↦ h.post m) (h.turn hu op)

theorem dropped (h : c.Housed) (hunits : c'.units = c.units) (hmail : c'.mail = c.mail.dropParked.2) :
    c'.Housed where
  filed id u hu := h.filed id u (hunits ▸ hu)
  box id hid := by
    rw [hmail]
    exact h.box id (hunits ▸ hid)
  parked id u hu := by rw [hmail, Mailboxes.parkedFor_dropParked]

end Housed

theorem Move.housed {o : Occurrence γ} (hmove : Move c o c') (h : c.Housed) : c'.Housed := by
  cases hmove with
  | acted hu op _ => exact h.carryOut hu op
  | handled hu hmail => exact (h.takes hmail).carryOut hu _
  | dropped hunits _ hmail => exact h.dropped hunits hmail
  | other hunits _ hmail => exact h.other hunits hmail

theorem Course.housed {tr : List (Occurrence γ × Core γ)} (h : Course c tr c') (hc : c.Housed) :
    c'.Housed := by
  induction h with
  | nil => exact hc
  | cons hmove _ ih => exact ih (hmove.housed hc)

/-- The messages that come to a unit when some more have been sent. -/
def coming (c : Core γ) (ms : List (UnitId × Message)) (id : UnitId) : List Message :=
  c.mail.queue id ++ sentTo id ms

variable {ms : List (UnitId × Message)} {id : UnitId}

theorem coming_nil : c.coming [] id = c.mail.queue id := List.append_nil _

theorem coming_addUnit (u : UnitNode γ) : (c.addUnit u).coming ms id = c.coming ms id := by
  rw [coming, queue_addUnit, coming]

theorem coming_post (h : c.Housed) (m : UnitId × Message) :
    (c.post m).coming ms id = c.coming (m :: ms) id := by
  rw [coming, h.queue_post, coming, sentTo_cons, List.append_assoc]

theorem housed_start (setup : Setup) (root : UnitId) (code : γ) (previous : Option Report) :
    (start setup root code previous).Housed where
  filed := filed_start setup root code previous
  box id hid := by
    change (Mailboxes.empty.enqueue root (Message.start [])).box id = []
    rw [Mailboxes.box_enqueue, if_neg]
    · rfl
    · rintro rfl
      exact absurd (hid.symm.trans (units_start_eq_some_iff.2 ⟨rfl, rfl⟩)) nofun
  parked _ _ _ := rfl

/-! ## Step by step -/

/-- The unit of an id as it stands. -/
def resident (c : Core γ) (id : UnitId) : UnitNode γ :=
  (c.units[id]?).getD (.new id none (.phantom false) none false false)

/-- The checker of a unit acts. -/
def acts (c : Core γ) (id : UnitId) (a : Action γ α) : Core γ :=
  c.carryOut id (c.resident id) (.act a)

/-- The next message, and the mail without it. -/
def delivery (c : Core γ) : (UnitId × Message) × Mailboxes Message :=
  c.mail.next.getD ((⟨""⟩, .start []), c.mail)

/-- The unit that gets the next message. -/
def receiver (c : Core γ) : UnitNode γ := c.resident c.delivery.1.1

/-- The next message is handled. -/
def receives (c : Core γ) : Core γ :=
  { c with mail := c.delivery.2 }.carryOut c.delivery.1.1 c.receiver (.handle c.delivery.1.2)

theorem resident_eq {id : UnitId} (h : c.units.contains id = true) :
    c.units[id]? = some (c.resident id) := by
  rw [Std.ExtTreeMap.contains_eq_isSome_getElem?] at h
  obtain ⟨u, hu⟩ := Option.isSome_iff_exists.1 h
  rw [resident, hu]
  rfl

theorem move_receives (hnext : c.mail.next.isSome = true)
    (h : c.units.contains c.delivery.1.1 = true) :
    Move c (.handled c.receiver c.delivery.1.2) c.receives := by
  refine .handled (resident_eq h) (Mailboxes.takes_of_next ?_)
  rw [delivery]
  obtain ⟨d, hd⟩ := Option.isSome_iff_exists.1 hnext
  rw [hd]
  rfl

namespace LeadsTo

variable {P : Occurrence γ → Prop}

theorem acts (h : LeadsTo P c c') (id : UnitId) (a : Action γ α)
    (hid : c'.units.contains id = true) (hP : P (.acted (c'.resident id) (.act a))) :
    LeadsTo P c (c'.acts id a) :=
  h.move (.acted (resident_eq hid) (.act a) not_false) hP

theorem receives (h : LeadsTo P c c') (hnext : c'.mail.next.isSome = true)
    (hid : c'.units.contains c'.delivery.1.1 = true)
    (hP : P (.handled c'.receiver c'.delivery.1.2)) : LeadsTo P c c'.receives :=
  h.move (move_receives hnext hid) hP

end LeadsTo

/-! ## Runs -/

/-- Courses of proper operations contain everything that happens in runs. -/
theorem admits_leadsTo : Admits (fun _ op ↦ op.IsProper)
    fun c c' : Core γ ↦ c.Housed → c'.Housed ∧ LeadsTo Occurrence.IsProper c c' where
  own {_ op} hown := by cases op <;> trivial
  refl c h := ⟨h, .refl c⟩
  trans hcc hcc' h :=
    let ⟨h, hleads⟩ := hcc h
    let ⟨h, hleads'⟩ := hcc' h
    ⟨h, hleads.trans hleads'⟩
  other hunits hsetup hmail _ h :=
    ⟨h.other hunits hmail, .of_move (.other hunits hsetup hmail) trivial⟩
  acted {_ _ _ _ op} hu hop h := by
    refine ⟨h.carryOut hu op, .of_move (.acted hu op fun hhandling ↦ ?_) hop⟩
    cases op <;> first | exact hop | exact hhandling
  handled hu hnext h :=
    have htakes := Mailboxes.takes_of_next hnext
    ⟨(h.takes htakes).carryOut hu _, .of_move (.handled hu htakes) trivial⟩
  missed hnone hnext h := by
    have hbox := (Mailboxes.takes_of_next hnext).box
    rw [h.box _ hnone] at hbox
    exact absurd hbox nofun
  dropped hunits hsetup hmail _ h :=
    ⟨h.dropped hunits hmail, .of_move (.dropped hunits hsetup hmail) trivial⟩

end Core

end ScopeGraphs
