import ScopeGraphs.Proofs.Engine.Courses

/-!
# The messages that reach a unit

A message is put into the mailbox of the unit it is sent to, or parked as long as there is no such
unit. Here the whole history of a run is kept, the newest first: what was sent, which units were
created, what was handed over to them, and when parked messages were dropped. From the history alone
it follows which messages a unit is to receive, and in which order: those that were sent to it,
except that as long as it does not exist everything sent to it so far is lost whenever parked
messages are dropped (`Posting.kept`).

Messages are neither lost otherwise nor doubled nor overtaken, and no unit with messages is left out
of the line (`Core.History.delivery`). The mail of every run has such a history
(`Engine.Reachable.exists_history`).
-/

namespace ScopeGraphs

variable {γ α : Type}

/-! ## Mailboxes -/

namespace Mailboxes

variable {μ : Type} {b : Mailboxes μ} {u v : UnitId} {m : μ}

theorem box_send (existing : Bool) : (b.send existing u m).box v =
    b.box v ++ if u = v ∧ existing = true then [m] else [] := by
  cases existing with
  | false =>
    rw [if_neg (by simp), List.append_nil]
    rfl
  | true =>
    rw [send, if_pos rfl, box_enqueue]
    split
    · rename_i heq
      rw [heq, if_pos ⟨rfl, rfl⟩]
    · rename_i hne
      rw [if_neg fun h ↦ hne h.1, List.append_nil]

theorem parkedFor_send (existing : Bool) : (b.send existing u m).parkedFor v =
    b.parkedFor v ++ if u = v ∧ existing = false then [m] else [] := by
  cases existing with
  | true =>
    rw [if_neg (by simp), List.append_nil]
    rfl
  | false =>
    rw [send, if_neg Bool.false_ne_true, parkedFor_park]
    split
    · rename_i heq
      rw [heq, if_pos ⟨rfl, rfl⟩]
    · rename_i hne
      rw [if_neg fun h ↦ hne h.1, List.append_nil]

namespace InLine

theorem of_parked (h : b.InLine) (parked : SortedMap UnitId (List μ)) (delivered dropped : Nat) :
    ({ b with parked := parked, delivered := delivered, dropped := dropped } : Mailboxes μ).InLine :=
  ⟨h.runnable, h.scheduled, h.nodup⟩

theorem send (h : b.InLine) (existing : Bool) (u : UnitId) (m : μ) :
    (b.send existing u m).InLine := by
  cases existing with
  | false => exact h.of_parked _ _ _
  | true => exact h.enqueue u m

theorem unpark (h : b.InLine) (u : UnitId) : (b.unpark u).InLine := by
  have hfold (ms : List μ) {b : Mailboxes μ} (h : b.InLine) :
      (ms.foldl (fun b m ↦ b.enqueue u m) b).InLine := by
    induction ms generalizing b with
    | nil => exact h
    | cons m ms ih => exact ih (h.enqueue u m)
  exact hfold _ (h.of_parked (b.parked.erase u) b.delivered b.dropped)

theorem dropParked (h : b.InLine) : b.dropParked.2.InLine := h.of_parked _ _ _

/-- A unit stands in line once if it has messages, and not at all otherwise. -/
theorem count_runnable (h : b.InLine) (u : UnitId) :
    b.runnable.count u = if b.box u = [] then 0 else 1 := by
  rw [h.nodup.count]
  by_cases hbox : b.box u = []
  · rw [if_pos hbox, if_neg fun hu ↦ (h.runnable u).1 hu hbox]
  · rw [if_neg hbox, if_pos ((h.runnable u).2 hbox)]

/-- There is a next message as long as there is any. -/
theorem next_eq_none_iff (h : b.InLine) : b.next = none ↔ ∀ u, b.box u = [] := by
  obtain ⟨hempty, hnone⟩ | ⟨u, m, messages, rest, -, hbox, hnext⟩ := h.next
  · exact ⟨fun _ ↦ hempty, fun _ ↦ hnone⟩
  · rw [hnext]
    exact ⟨nofun, fun hempty ↦ absurd (hbox.symm.trans (hempty u)) nofun⟩

/-- The message that is taken out is the first one in its mailbox. -/
theorem of_next (h : b.InLine) {b' : Mailboxes μ} (hnext : b.next = some ((u, m), b')) :
    b'.InLine := by
  obtain ⟨-, hnone⟩ | ⟨v, m', messages, rest, hrunnable, -, hsome⟩ := h.next
  · exact absurd (hnext.symm.trans hnone) nofun
  · obtain ⟨-, rfl⟩ := Prod.mk.inj (Option.some.inj (hnext.symm.trans hsome))
    exact h.taken hrunnable messages

end InLine

end Mailboxes

/-! ## Histories -/

/-- Something that happens to messages, or to the units that are to receive them. -/
inductive Posting where
  /-- A message is sent to a unit, which exists or not. -/
  | sent (u : UnitId) (m : Message)
  /-- A unit is created. -/
  | created (u : UnitId)
  /-- The next message is handed over to its unit. -/
  | delivered (u : UnitId) (m : Message)
  /-- The parked messages are dropped. -/
  | dropped

namespace Posting

/-- The messages that were handed over to a unit, in order. -/
def deliveredTo (u : UnitId) : List Posting → List Message
  | [] => []
  | delivered v m :: es => deliveredTo u es ++ if v = u then [m] else []
  | _ :: es => deliveredTo u es

/-- Whether a unit has been created. -/
def hasCreated (u : UnitId) : List Posting → Bool
  | [] => false
  | created v :: es => decide (v = u) || hasCreated u es
  | _ :: es => hasCreated u es

/-- The messages that were sent to a unit, in order, without those that were dropped: each time
parked messages were dropped before the unit was created, all that had been sent to it so far. -/
def kept (u : UnitId) : List Posting → List Message
  | [] => []
  | sent v m :: es => kept u es ++ if v = u then [m] else []
  | dropped :: es => if hasCreated u es then kept u es else []
  | _ :: es => kept u es

end Posting

open Posting

namespace Core

variable {c c' : Core γ} {es : List Posting}

/-- What may have happened, the newest first, when a state has been reached from one without units
and messages. Messages are sent, units added, the next messages handed over and parked messages
dropped in any order; nothing else touches the mail, or adds or removes units. -/
inductive History : List Posting → Core γ → Prop where
  | start {c : Core γ} (hunits : c.units = ∅) (hmail : c.mail = .empty) : History [] c
  | sent {c : Core γ} {es : List Posting} (h : History es c) (m : UnitId × Message) :
      History (.sent m.1 m.2 :: es) (c.post m)
  | created {c : Core γ} {es : List Posting} (h : History es c) (u : UnitNode γ) :
      History (.created u.id :: es) (c.addUnit u)
  | delivered {c : Core γ} {es : List Posting} (h : History es c) {u : UnitId} {m : Message}
      {mail : Mailboxes Message} (hnext : c.mail.next = some ((u, m), mail)) :
      History (.delivered u m :: es) { c with mail := mail }
  | dropped {c c' : Core γ} {es : List Posting} (h : History es c) (hunits : c'.units = c.units)
      (hmail : c'.mail = c.mail.dropParked.2) : History (.dropped :: es) c'
  | other {c c' : Core γ} {es : List Posting} (h : History es c)
      (hunits : ∀ u, c'.units.contains u = c.units.contains u) (hmail : c'.mail = c.mail) :
      History es c'

/-- The mail agrees with what happened. -/
structure Delivers (c : Core γ) (es : List Posting) : Prop where
  inLine : c.mail.InLine
  units : ∀ u, c.units.contains u = hasCreated u es
  order : ∀ u, deliveredTo u es ++ c.mail.queue u = kept u es
  missing : ∀ u, hasCreated u es = false → deliveredTo u es = [] ∧ c.mail.box u = []
  housed : ∀ u, hasCreated u es = true → c.mail.parkedFor u = []

theorem delivers_of_empty (hunits : c.units = ∅) (hmail : c.mail = .empty) : c.Delivers [] where
  inLine := by
    rw [hmail]
    exact Mailboxes.inLine_of_empty rfl rfl rfl
  units u := by
    rw [hunits, Std.ExtTreeMap.contains_empty]
    rfl
  order u := by
    rw [hmail]
    rfl
  missing u _ := by
    rw [hmail]
    exact ⟨rfl, rfl⟩
  housed u hu := absurd hu nofun

namespace Delivers

theorem other (h : c.Delivers es) (hunits : ∀ u, c'.units.contains u = c.units.contains u)
    (hmail : c'.mail = c.mail) : c'.Delivers es where
  inLine := hmail ▸ h.inLine
  units u := (hunits u).trans (h.units u)
  order u := hmail ▸ h.order u
  missing u hu := hmail ▸ h.missing u hu
  housed u hu := hmail ▸ h.housed u hu

/-- A message lines up behind all others to its unit: what is in the mailbox precedes what is
parked, and one of the two is empty. -/
theorem sent (h : c.Delivers es) (m : UnitId × Message) :
    (c.post m).Delivers (.sent m.1 m.2 :: es) where
  inLine := h.inLine.send _ _ _
  units := h.units
  order u := by
    have hexists : c.units.contains m.1 = hasCreated m.1 es := h.units m.1
    change deliveredTo u es ++ (c.mail.send (c.units.contains m.1) m.1 m.2).queue u =
      kept u es ++ if m.1 = u then [m.2] else []
    rw [← h.order u, Mailboxes.queue, Mailboxes.box_send, Mailboxes.parkedFor_send, hexists]
    by_cases heq : m.1 = u
    · rw [heq]
      cases hcreated : hasCreated u es with
      | true =>
        have hparked : c.mail.parkedFor u = [] := h.housed u hcreated
        simp [Mailboxes.queue, hparked]
      | false => simp [Mailboxes.queue]
    · simp [heq, Mailboxes.queue]
  missing u hu := by
    obtain ⟨hdelivered, hbox⟩ := h.missing u hu
    refine ⟨hdelivered, ?_⟩
    have hne : ¬(m.1 = u ∧ c.units.contains m.1 = true) := by
      rintro ⟨rfl, hexists⟩
      rw [h.units m.1, show hasCreated m.1 es = false from hu] at hexists
      exact absurd hexists Bool.false_ne_true
    rw [post, Mailboxes.box_send, if_neg hne, hbox]
    rfl
  housed u hu := by
    have hne : ¬(m.1 = u ∧ c.units.contains m.1 = false) := by
      rintro ⟨rfl, hmissing⟩
      rw [h.units m.1, show hasCreated m.1 es = true from hu] at hmissing
      exact absurd hmissing.symm Bool.false_ne_true
    rw [post, Mailboxes.parkedFor_send, if_neg hne, h.housed u hu]
    rfl

/-- What was parked for a new unit moves into its mailbox, which was empty, and nothing else
moves. -/
theorem created (h : c.Delivers es) (u : UnitNode γ) :
    (c.addUnit u).Delivers (.created u.id :: es) := by
  have hqueue (id : UnitId) : (c.addUnit u).mail.queue id = c.mail.queue id := queue_addUnit c u id
  have hexists : c.units.contains u.id = hasCreated u.id es := h.units u.id
  by_cases hold : c.units.contains u.id = true
  · have hsame : c.addUnit u = c := by rw [addUnit, if_pos hold]
    have hcreated (id : UnitId) : hasCreated id (.created u.id :: es) = hasCreated id es := by
      rw [hasCreated]
      by_cases heq : u.id = id
      · rw [← heq, ← hexists, hold, Bool.or_true]
      · rw [decide_eq_false heq, Bool.false_or]
    rw [hsame]
    exact ⟨h.inLine, fun id ↦ (h.units id).trans (hcreated id).symm, h.order,
      fun id hid ↦ h.missing id (hcreated id ▸ hid), fun id hid ↦ h.housed id (hcreated id ▸ hid)⟩
  · have hnew : c.addUnit u =
        { c with units := c.units.insert u.id u, mail := c.mail.unpark u.id } := by
      rw [addUnit, if_neg hold]
    refine ⟨?_, fun id ↦ ?_, fun id ↦ ?_, fun id hid ↦ ?_, fun id hid ↦ ?_⟩
    · rw [hnew]
      exact h.inLine.unpark u.id
    · rw [hnew, Std.ExtTreeMap.contains_insert, h.units id, hasCreated]
      congr 1
      rw [Bool.eq_iff_iff, decide_eq_true_iff, beq_iff_eq, Keyed.compare_eq_iff]
    · rw [hqueue]
      exact h.order id
    · rw [hasCreated, Bool.or_eq_false_iff, decide_eq_false_iff_not] at hid
      rw [hnew, Mailboxes.box_unpark, if_neg hid.1]
      exact h.missing id hid.2
    · rw [hasCreated, Bool.or_eq_true_iff, decide_eq_true_iff] at hid
      rw [hnew, Mailboxes.parkedFor_unpark]
      split
      · rfl
      · rename_i hne
        exact h.housed id (hid.resolve_left hne)

theorem delivered (h : c.Delivers es) {u : UnitId} {m : Message} {mail : Mailboxes Message}
    (hnext : c.mail.next = some ((u, m), mail)) :
    ({ c with mail := mail } : Core γ).Delivers (.delivered u m :: es) := by
  have htakes : c.mail.Takes u m mail := Mailboxes.takes_of_next hnext
  refine ⟨h.inLine.of_next hnext, h.units, fun id ↦ ?_, fun id hid ↦ ?_, fun id hid ↦ ?_⟩
  · change (deliveredTo id es ++ if u = id then [m] else []) ++ mail.queue id = kept id es
    rw [← h.order id, htakes.queue id, List.append_assoc]
  · obtain ⟨hdelivered, hbox⟩ := h.missing id hid
    have hne : u ≠ id := by
      rintro rfl
      exact absurd (htakes.box.symm.trans hbox) nofun
    refine ⟨?_, (htakes.others id hne).trans hbox⟩
    rw [deliveredTo, hdelivered, if_neg hne]
    rfl
  · rw [Mailboxes.parkedFor, htakes.parked]
    exact h.housed id hid

theorem dropped (h : c.Delivers es) (hunits : c'.units = c.units)
    (hmail : c'.mail = c.mail.dropParked.2) : c'.Delivers (.dropped :: es) := by
  have hbox (id : UnitId) : c'.mail.box id = c.mail.box id := by
    rw [hmail]
    rfl
  have hparked (id : UnitId) : c'.mail.parkedFor id = [] := by
    rw [hmail, Mailboxes.parkedFor_dropParked]
  refine ⟨hmail ▸ h.inLine.dropParked, fun id ↦ hunits ▸ h.units id, fun id ↦ ?_, fun id hid ↦ ?_,
    fun id _ ↦ hparked id⟩
  · change deliveredTo id es ++ c'.mail.queue id = if hasCreated id es = true then kept id es else []
    rw [Mailboxes.queue, hbox, hparked, List.append_nil]
    cases hcreated : hasCreated id es with
    | true =>
      have horder := h.order id
      rwa [Mailboxes.queue, h.housed id hcreated, List.append_nil] at horder
    | false =>
      obtain ⟨hdelivered, hempty⟩ := h.missing id hcreated
      rw [hdelivered, hempty]
      rfl
  · rw [hbox]
    exact h.missing id hid

end Delivers

theorem History.delivers (h : History es c) : c.Delivers es := by
  induction h with
  | start hunits hmail => exact delivers_of_empty hunits hmail
  | sent _ m ih => exact ih.sent m
  | created _ u ih => exact ih.created u
  | delivered _ hnext ih => exact ih.delivered hnext
  | dropped _ hunits hmail ih => exact ih.dropped hunits hmail
  | other _ hunits hmail ih => exact ih.other hunits hmail

/-- **No message is lost, doubled or overtaken, and no unit is left out.** Whatever has been sent,
created, handed over and dropped, and in which order: the messages handed over to a unit, then those
in its mailbox, then those parked for it are the messages that were sent to it without those that
were dropped before it was created. Only messages to units that exist are in mailboxes and handed
over, only messages to others are parked. A unit is in line, and once, exactly if its mailbox is not
empty, and so there is a next message unless all mailboxes are empty. -/
theorem History.delivery (h : History es c) :
    (∀ u, deliveredTo u es ++ c.mail.box u ++ c.mail.parkedFor u = kept u es) ∧
    (∀ u, if hasCreated u es then c.mail.parkedFor u = []
      else deliveredTo u es = [] ∧ c.mail.box u = []) ∧
    (∀ u, c.mail.runnable.count u = if c.mail.box u = [] then 0 else 1) ∧
    (∀ u, u ∈ c.mail.scheduled ↔ u ∈ c.mail.runnable) ∧
    (c.mail.next = none ↔ ∀ u, c.mail.box u = []) := by
  have hdelivers : c.Delivers es := h.delivers
  refine ⟨fun u ↦ ?_, fun u ↦ ?_, hdelivers.inLine.count_runnable,
    hdelivers.inLine.mem_scheduled_iff, hdelivers.inLine.next_eq_none_iff⟩
  · rw [List.append_assoc]
    exact hdelivers.order u
  · cases hcreated : hasCreated u es with
    | true => exact hdelivers.housed u hcreated
    | false => exact hdelivers.missing u hcreated

private def lateId : UnitId := ⟨"late"⟩

/-- A state without units and messages. -/
private def blank : Core Unit :=
  { start ⟨.nonIncremental, [], 0⟩ lateId () none with units := ∅, mail := .empty }

/-- Three messages are sent to a unit. The first is dropped before the unit is created, the second
is parked and the third put into the mailbox. -/
private def addressedThrice : Core Unit :=
  let parked := (blank.post (lateId, .unitStarted ⟨"a"⟩)).dropParked.post (lateId, .unitStarted ⟨"b"⟩)
  (parked.addUnit (.new lateId none (.checker ()) none false false)).post
    (lateId, .unitStarted ⟨"c"⟩)

/-- The messages that were not dropped arrive, in the order in which they were sent. -/
theorem History.delivery_late : ∃ es, ∃ c : Core Unit, History es c ∧
    deliveredTo lateId es ++ c.mail.box lateId ++ c.mail.parkedFor lateId =
      [.unitStarted ⟨"b"⟩, .unitStarted ⟨"c"⟩] ∧
    deliveredTo lateId es = [.unitStarted ⟨"b"⟩] ∧ c.mail.runnable.count lateId = 1 := by
  obtain ⟨mail, hnext⟩ : ∃ mail, addressedThrice.mail.next =
      some ((lateId, .unitStarted ⟨"b"⟩), mail) := ⟨_, by rfl⟩
  have hblank : History [] blank := .start rfl rfl
  have hlost : History _ (blank.post (lateId, .unitStarted ⟨"a"⟩)).dropParked :=
    (hblank.sent (lateId, .unitStarted ⟨"a"⟩)).dropped (by rfl) (by rfl)
  have h : History _ ({ addressedThrice with mail := mail } : Core Unit) :=
    (((hlost.sent (lateId, .unitStarted ⟨"b"⟩)).created
      (.new lateId none (.checker ()) none false false)).sent
        (lateId, .unitStarted ⟨"c"⟩)).delivered hnext
  have hbox : mail.box lateId = [.unitStarted ⟨"c"⟩] := by
    have hmail : mail = ((addressedThrice.mail.next).map Prod.snd).getD .empty := by rw [hnext]; rfl
    rw [hmail]
    rfl
  obtain ⟨horder, -, hline, -, -⟩ := h.delivery
  refine ⟨_, _, h, (horder lateId).trans (by rfl), by rfl, (hline lateId).trans ?_⟩
  rw [hbox, if_neg (List.cons_ne_nil _ _)]

/-! ## Runs -/

theorem History.carryOut (h : History es c) (hhoused : c.Housed) {id : UnitId} {u : UnitNode γ}
    (hu : c.units[id]? = some u) (op : UnitOp γ α) :
    ∃ es', History (es' ++ es) (c.carryOut id u op) := by
  obtain rfl : u.id = id := hhoused.filed id u hu
  have hunits (k : UnitId) : (c.turn u op).2.2.units.contains k = c.units.contains k := by
    rw [units_turn, Std.ExtTreeMap.contains_eq_isSome_getElem?,
      Std.ExtTreeMap.contains_eq_isSome_getElem?, SortedMap.getElem?_insert_eq]
    split
    · rename_i heq
      rw [← heq, hu]
      rfl
    · rfl
  refine applyEffects_induction (P := fun c _ _ ↦ ∃ es', History (es' ++ es) c) u.id _ ?_ ?_ ?_
    ⟨[], h.other hunits (mail_turn c u op)⟩
  · rintro c c' - - hunits - hmail ⟨es', h⟩
    exact ⟨es', h.other (fun k ↦ by rw [hunits]) hmail⟩
  · rintro c v - - ⟨es', h⟩
    exact ⟨.created v.id :: es', h.created v⟩
  · rintro c m - ⟨es', h⟩
    exact ⟨.sent m.1 m.2 :: es', h.sent m⟩

/-- What the engine does, apart from what it does to units and with tasks, is to send messages, add
units, hand messages over and drop them. -/
theorem admits_history : Admits (fun _ _ ↦ True) fun c c' : Core γ ↦
    c.Housed → c'.Housed ∧ ∀ es, History es c → ∃ es', History (es' ++ es) c' where
  own _ := trivial
  refl _ h := ⟨h, fun es hes ↦ ⟨[], hes⟩⟩
  trans hcc hcc' h := by
    obtain ⟨h, hthere⟩ := hcc h
    obtain ⟨h, honward⟩ := hcc' h
    refine ⟨h, fun es hes ↦ ?_⟩
    obtain ⟨es', hes'⟩ := hthere es hes
    obtain ⟨es'', hes''⟩ := honward _ hes'
    exact ⟨es'' ++ es', by rwa [List.append_assoc]⟩
  other hunits _ hmail _ h :=
    ⟨h.other hunits hmail, fun _ hes ↦ ⟨[], hes.other (fun _ ↦ by rw [hunits]) hmail⟩⟩
  acted hu _ h := ⟨h.carryOut hu _, fun _ hes ↦ hes.carryOut h hu _⟩
  handled {c id u m mail} hu hnext h := by
    have hhoused : ({ c with mail := mail } : Core γ).Housed := h.takes (Mailboxes.takes_of_next hnext)
    refine ⟨hhoused.carryOut hu _, fun es hes ↦ ?_⟩
    obtain ⟨es', hes'⟩ := (hes.delivered hnext).carryOut hhoused hu (.handle m)
    exact ⟨es' ++ [.delivered id m], by rwa [List.append_assoc]⟩
  missed {c id m mail} _ hnext h :=
    ⟨h.takes (Mailboxes.takes_of_next hnext), fun _ hes ↦ ⟨[.delivered id m], hes.delivered hnext⟩⟩
  dropped hunits _ hmail _ h :=
    ⟨h.dropped hunits hmail, fun _ hes ↦ ⟨[.dropped], hes.dropped hunits hmail⟩⟩

/-- A run starts with its root unit and the message that tells it to start. -/
theorem history_start (setup : Setup) (root : UnitId) (code : γ) (previous : Option Report) :
    History [.sent root (.start []), .created root] (start setup root code previous) := by
  let u : UnitNode γ := .new root none (.checker code) previous false setup.settings.incremental
  let blank : Core γ := { start setup root code previous with units := ∅, mail := .empty }
  have hblank : History [] blank := .start rfl rfl
  have hadded : blank.addUnit u =
      { start setup root code previous with mail := Mailboxes.empty.unpark root } := by
    rw [addUnit, if_neg]
    · rfl
    · exact Bool.eq_false_iff.1 Std.ExtTreeMap.contains_empty
  have hexists : (start setup root code previous).units.contains root = true := by
    rw [Std.ExtTreeMap.contains_eq_isSome_getElem?, units_start_eq_some_iff.2 ⟨rfl, rfl⟩]
    rfl
  have h : History [.created root] _ := hblank.created u
  rw [hadded] at h
  refine (h.sent (root, .start [])).other (fun _ ↦ rfl) ?_
  change Mailboxes.empty.enqueue root (Message.start []) =
    Mailboxes.send _ (Std.ExtTreeMap.contains _ root) root (Message.start [])
  rw [show Std.ExtTreeMap.contains _ root = true from hexists]
  rfl

end Core

variable {b : Behaviour γ} {setup : Setup} {root : UnitId} {code : γ} {previous : Option Report}
  {e : Engine γ}

/-- **The mail of every run has a history.** So whatever the checkers do, no message gets lost on
the way, and as long as a mailbox is not empty the engine finds a message to hand over. -/
theorem Engine.Reachable.exists_history (he : e.Reachable b setup root code previous) :
    ∃ es, Core.History es e.core := by
  obtain ⟨es, hes⟩ := (Core.admits_history.reachable
    (fun _ _ ↦ Proc.uses_of_forall (fun _ ↦ trivial) _) he
    (Core.housed_start setup root code previous)).2 _
    (Core.history_start setup root code previous)
  exact ⟨_, hes⟩

end ScopeGraphs
