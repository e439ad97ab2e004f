import ScopeGraphs.Proofs.Sorted
import ScopeGraphs.Task.SharedPromise

/-!
# A promise settles once

Those who wait for a promise are told by two ways: who comes early is sent the value on a channel,
who comes late finds it in the promise. Between the moment at which the promise is settled and the
moment at which a waiter is sent the value, anything may happen: others wait, look, copy and drop
handles. All of them get the same value all the same, that of the first attempt to settle the
promise (`firstValue`).

## Who tells a waiter

While the promise is open, a pending wait is on the list of its waiters, and its channel remembers
the task that has last looked. Once the promise is over, because it has been settled or because
there is no handle left, what the waiter is to be sent is in the outbox or has arrived
(`Keeps.pending`). So no wait is forgotten on the way: when the outbox has been sent
(`SharedPromise.flush`), there is none that cannot be resolved.
-/

namespace ScopeGraphs

universe u

variable {π : Type u}

/-! ## Channels -/

namespace Channels

variable {c : Channels π} {k : ChannelId} {waker : Option TaskId} {v : π}

/-- Filling a channel concerns this channel only, and only while it is empty. -/
theorem fill_cases (c : Channels π) (k : ChannelId) (state : ChannelState π) :
    (∃ waker, c.slots[k]? = some (.empty waker) ∧ (c.fill k state).1 = waker ∧
      (c.fill k state).2.slots = c.slots.insert k state) ∨
    (∀ waker, c.slots[k]? ≠ some (.empty waker)) ∧ (c.fill k state).2 = c := by
  rw [fill]
  split
  · rename_i waker hempty
    exact .inl ⟨waker, hempty, rfl, rfl⟩
  · rename_i hother
    exact .inr ⟨hother, rfl⟩

theorem next_fill (c : Channels π) (k : ChannelId) (state : ChannelState π) :
    (c.fill k state).2.next = c.next := by
  rw [fill]
  split <;> rfl

theorem receive_of_empty (h : c.slots[k]? = some (.empty waker)) (task : TaskId) :
    c.receive k task = (.pending, { c with slots := c.slots.insert k (.empty (some task)) }) := by
  rw [receive, h]

theorem receive_of_ending {o : Option π} (h : c.slots[k]? = some (SharedPromise.ending o))
    (task : TaskId) : c.receive k task = (.done o, c.close k) := by
  cases o <;> rw [receive, h] <;> rfl

end Channels

namespace SharedPromise

variable {es later earlier : List (Event π)} {e : Event π} {s s' : SharedPromise π} {i j : Nat}
  {c : ChannelId} {task : TaskId} {o : Option π}

/-! ## Histories

The latest event comes first. -/

/-- What an event would settle the promise with. -/
def Event.value? : Event π → Option π
  | completed v _ => some v
  | _ => none

/-- Whether a handle was copied. -/
def Event.isCopy : Event π → Bool
  | copied => true
  | _ => false

/-- Whether a handle was dropped. -/
def Event.isRelease : Event π → Bool
  | released => true
  | _ => false

/-- What was first to settle the promise. -/
def firstValue : List (Event π) → Option π
  | [] => none
  | e :: es => (firstValue es).or e.value?

/-- The task that has last looked for the end of a wait in vain. -/
def lastPoller : List (Event π) → Nat → Option TaskId
  | [], _ => none
  | .polled i task .pending :: es, j => if i = j then some task else lastPoller es j
  | .waited i :: es, j => if i = j then none else lastPoller es j
  | _ :: es, j => lastPoller es j

/-- A wait has begun and has neither been resolved nor been given up. -/
def IsAwaited : List (Event π) → Nat → Prop
  | [], _ => False
  | .waited i :: es, j => i = j ∨ IsAwaited es j
  | .polled i _ (.done _) :: es, j | .forgotten i :: es, j => i ≠ j ∧ IsAwaited es j
  | _ :: es, j => IsAwaited es j

/-- Every handle has been dropped. -/
def IsLost (es : List (Event π)) : Prop :=
  es.countP Event.isRelease = es.countP Event.isCopy + 1

theorem firstValue_append (later earlier : List (Event π)) :
    firstValue (later ++ earlier) = (firstValue earlier).or (firstValue later) := by
  induction later with
  | nil => rw [List.nil_append, firstValue, Option.or_none]
  | cons e later ih => rw [List.cons_append, firstValue, firstValue, ih, Option.or_assoc]

/-! ## The state of a promise -/

/-- Waiters need not hope for more than they are sent: the promise is settled, or there is no
handle left. -/
def IsOver (s : SharedPromise π) : Prop := s.promise.isSettled = true ∨ s.handles = 0

/-- A waiter will be sent something: it is on the list of an open promise, or in the outbox. -/
def Owes (s : SharedPromise π) (c : ChannelId) : Prop :=
  ¬ s.IsOver ∧ c ∈ s.promise.waiters ∨ (c, ending s.promise.get?) ∈ s.outbox

/-- Everything that is to be sent to waiters is sent. -/
def flush (s : SharedPromise π) : SharedPromise π :=
  { s with
    channels := s.outbox.foldl (fun channels l ↦ (channels.fill l.1 l.2).2) s.channels
    outbox := [] }

theorem waits_forget (s : SharedPromise π) (i : Nat) (w : Wait π) :
    (s.forget i w).waits = s.waits.erase i := by
  cases w <;> rfl

theorem waits_wait (s : SharedPromise π) : ∃ w, s.wait.waits = s.waits.insert s.begun w := by
  rw [wait]
  split
  · exact ⟨_, rfl⟩
  · exact ⟨_, rfl⟩

/-- A promise is as its history says. -/
structure Keeps (s : SharedPromise π) (es : List (Event π)) : Prop where
  /-- The promise has the first value. -/
  value : s.promise.get? = firstValue es
  /-- The handles are counted. -/
  handles : s.handles + es.countP Event.isRelease = es.countP Event.isCopy + 1
  /-- Nothing is sent before the promise is over, and then how it has ended. -/
  outbox : ∀ c state, (c, state) ∈ s.outbox → s.IsOver ∧ state = ending s.promise.get?
  /-- Waits are numbered as they begin. -/
  lt_begun : ∀ (i : Nat) w, s.waits[i]? = some w → i < s.begun
  /-- Who came late has found the value. -/
  ready : ∀ (i : Nat) v, s.waits[i]? = some (.ready v) → s.promise.get? = some v
  /-- The channels of waits have been made. -/
  lt_next : ∀ (i : Nat) c, s.waits[i]? = some (.pending c) → c < s.channels.next
  /-- Every wait has a channel of its own. -/
  distinct : ∀ (i j : Nat) c, s.waits[i]? = some (.pending c) → s.waits[j]? = some (.pending c) →
    i = j
  /-- Who came early will be told, and the task that looked last will be woken, or the promise is
  over and its end has arrived. -/
  pending : ∀ (i : Nat) c, s.waits[i]? = some (.pending c) →
    s.channels.slots[c]? = some (.empty (lastPoller es i)) ∧ s.Owes c ∨
      s.IsOver ∧ s.channels.slots[c]? = some (ending s.promise.get?)

namespace Keeps

theorem fresh : (SharedPromise.fresh : SharedPromise π).Keeps [] where
  value := rfl
  handles := rfl
  outbox _ _ h := by cases h
  lt_begun i w h := by simp [SharedPromise.fresh] at h
  ready i v h := by simp [SharedPromise.fresh] at h
  lt_next i c h := by simp [SharedPromise.fresh] at h
  distinct i j c h := by simp [SharedPromise.fresh] at h
  pending i c h := by simp [SharedPromise.fresh] at h

/-! ### While the promise is open -/

theorem get?_of_not_isOver (hopen : ¬ s.IsOver) : s.promise.get? = none := by
  cases hpromise : s.promise with
  | pending ws => rfl
  | settled v => exact absurd (.inl (by rw [hpromise]; rfl)) hopen

theorem isSettled_of_get? {v : π} (h : s.promise.get? = some v) : s.promise.isSettled = true := by
  cases hpromise : s.promise with
  | pending ws =>
    rw [hpromise] at h
    cases h
  | settled v => rfl

theorem outbox_of_not_isOver (h : s.Keeps es) (hopen : ¬ s.IsOver) : s.outbox = [] :=
  List.eq_nil_iff_forall_not_mem.2 fun l hl ↦ hopen (h.outbox l.1 l.2 hl).1

theorem pending_of_not_isOver (h : s.Keeps es) (hopen : ¬ s.IsOver)
    (hi : s.waits[i]? = some (.pending c)) :
    s.channels.slots[c]? = some (.empty (lastPoller es i)) ∧ c ∈ s.promise.waiters := by
  rcases h.pending i c hi with ⟨hempty, howes⟩ | ⟨hover, -⟩
  · rw [Owes, h.outbox_of_not_isOver hopen] at howes
    exact ⟨hempty, (howes.resolve_right List.not_mem_nil).2⟩
  · exact absurd hover hopen

/-- The promise is over: everybody on the list is to be sent how it has ended. -/
theorem ends (h : s.Keeps es) (hopen : ¬ s.IsOver) (hover : s'.IsOver)
    (hchannels : s'.channels = s.channels) (hwaits : s'.waits = s.waits)
    (hbegun : s'.begun = s.begun)
    (houtbox : s'.outbox =
      s.outbox ++ s.promise.waiters.map fun c ↦ (c, ending s'.promise.get?))
    (hvalue : s'.promise.get? = firstValue (e :: es))
    (hhandles : s'.handles + (e :: es).countP Event.isRelease =
      (e :: es).countP Event.isCopy + 1)
    (hpoller : ∀ i, lastPoller (e :: es) i = lastPoller es i) : s'.Keeps (e :: es) where
  value := hvalue
  handles := hhandles
  outbox c state hmem := by
    rw [houtbox, h.outbox_of_not_isOver hopen, List.nil_append, List.mem_map] at hmem
    obtain ⟨c', -, heq⟩ := hmem
    exact ⟨hover, (Prod.mk.inj heq).2.symm⟩
  lt_begun i w hi := by
    rw [hwaits] at hi
    rw [hbegun]
    exact h.lt_begun i w hi
  ready i v hi := by
    rw [hwaits] at hi
    have hnone := h.ready i v hi
    rw [get?_of_not_isOver hopen] at hnone
    cases hnone
  lt_next i c hi := by
    rw [hwaits] at hi
    rw [hchannels]
    exact h.lt_next i c hi
  distinct i j c hi hj := by
    rw [hwaits] at hi hj
    exact h.distinct i j c hi hj
  pending i c hi := by
    rw [hwaits] at hi
    obtain ⟨hempty, hlisted⟩ := h.pending_of_not_isOver hopen hi
    rw [hchannels, hpoller, Owes, houtbox]
    exact .inl ⟨hempty, .inr (List.mem_append_right _ (List.mem_map.2 ⟨c, hlisted, rfl⟩))⟩

/-! ### Who has a handle -/

/-- Handles come and go, but the promise is over only if it was. -/
theorem congr (h : s.Keeps es) (hpromise : s'.promise = s.promise)
    (hover : s'.IsOver ↔ s.IsOver) (houtbox : s'.outbox = s.outbox)
    (hchannels : s'.channels = s.channels) (hwaits : s'.waits = s.waits)
    (hbegun : s'.begun = s.begun) (hvalue : firstValue (e :: es) = firstValue es)
    (hhandles : s'.handles + (e :: es).countP Event.isRelease =
      (e :: es).countP Event.isCopy + 1)
    (hpoller : ∀ i, lastPoller (e :: es) i = lastPoller es i) : s'.Keeps (e :: es) where
  value := by rw [hpromise, hvalue, h.value]
  handles := hhandles
  outbox c state := by
    rw [houtbox, hover, hpromise]
    exact h.outbox c state
  lt_begun i w := by
    rw [hwaits, hbegun]
    exact h.lt_begun i w
  ready i v := by
    rw [hwaits, hpromise]
    exact h.ready i v
  lt_next i c := by
    rw [hwaits, hchannels]
    exact h.lt_next i c
  distinct i j c := by
    rw [hwaits]
    exact h.distinct i j c
  pending i c := by
    rw [hwaits, hchannels, hpoller, Owes, hover, hpromise, houtbox]
    exact h.pending i c

/-- Nothing has changed. -/
theorem same (h : s.Keeps es) (hvalue : firstValue (e :: es) = firstValue es)
    (hrelease : e.isRelease = false) (hcopy : e.isCopy = false)
    (hpoller : ∀ i, lastPoller (e :: es) i = lastPoller es i) : s.Keeps (e :: es) := by
  refine h.congr rfl Iff.rfl rfl rfl rfl rfl hvalue ?_ hpoller
  rw [List.countP_cons, List.countP_cons, hrelease, hcopy]
  exact h.handles

theorem completed (h : s.Keeps es) (held : 0 < s.handles) (v : π) (first : Bool) :
    (s.complete v).Keeps (.completed v first :: es) := by
  have hvalue := h.value
  cases hpromise : s.promise with
  | settled u =>
    have hsame : s.complete v = s := by
      rw [SharedPromise.complete, hpromise, Promise.settle, Promise.waiters, List.map_nil,
        List.append_nil, ← hpromise]
    rw [hpromise] at hvalue
    rw [hsame]
    refine h.same ?_ rfl rfl fun i ↦ rfl
    rw [firstValue, ← hvalue]
    rfl
  | pending ws =>
    have hopen : ¬ s.IsOver := by
      rw [IsOver, hpromise]
      rintro (hsettled | hlost)
      · cases hsettled
      · exact absurd hlost (Nat.pos_iff_ne_zero.1 held)
    have hsettled : (s.complete v).promise = .settled v := by
      rw [SharedPromise.complete, hpromise]
      rfl
    refine h.ends hopen (.inl ?_) rfl rfl rfl ?_ ?_ h.handles fun i ↦ rfl
    · rw [hsettled]
      rfl
    · rw [hsettled]
      rfl
    · rw [hpromise] at hvalue
      rw [hsettled, firstValue, ← hvalue]
      rfl

theorem copied (h : s.Keeps es) (held : 0 < s.handles) : s.copy.Keeps (.copied :: es) := by
  refine h.congr rfl ?_ rfl rfl rfl rfl (Option.or_none ..) ?_ fun i ↦ rfl
  · rw [IsOver, IsOver]
    refine or_congr Iff.rfl (iff_of_false (Nat.succ_ne_zero _) ?_)
    exact Nat.pos_iff_ne_zero.1 held
  · have hhandles := h.handles
    rw [List.countP_cons_of_neg (by exact nofun), List.countP_cons_of_pos rfl, SharedPromise.copy]
    dsimp only
    omega

theorem released (h : s.Keeps es) (held : 0 < s.handles) :
    s.release.Keeps (.released :: es) := by
  have hhandles : s.release.handles + (Event.released :: es).countP Event.isRelease =
      (Event.released :: es).countP Event.isCopy + 1 := by
    have hhandles := h.handles
    rw [List.countP_cons_of_pos rfl, List.countP_cons_of_neg (by exact nofun),
      SharedPromise.release]
    dsimp only
    omega
  by_cases hlast : s.handles = 1
  · have hover : s.release.IsOver := .inr (by rw [SharedPromise.release, hlast])
    have houtbox : s.release.outbox =
        s.outbox ++ s.promise.waiters.map fun c ↦ (c, .hungUp) := by
      rw [SharedPromise.release, if_pos hlast]
    cases hpromise : s.promise with
    | settled u =>
      -- A settled promise has no waiters left.
      have hwas : s.IsOver := .inl (by rw [hpromise]; rfl)
      rw [hpromise, Promise.waiters, List.map_nil, List.append_nil] at houtbox
      exact h.congr rfl (iff_of_true hover hwas) houtbox rfl rfl rfl (Option.or_none ..) hhandles
        fun i ↦ rfl
    | pending ws =>
      have hopen : ¬ s.IsOver := by
        rw [IsOver, hpromise, hlast]
        exact fun h ↦ h.elim nofun nofun
      refine h.ends hopen hover rfl rfl rfl ?_ ?_ hhandles fun i ↦ rfl
      · rw [houtbox, SharedPromise.release, get?_of_not_isOver hopen]
        rfl
      · rw [firstValue, ← h.value]
        exact (Option.or_none ..).symm
  · refine h.congr rfl ?_ ?_ rfl rfl rfl (Option.or_none ..) hhandles fun i ↦ rfl
    · exact or_congr Iff.rfl (show s.handles - 1 = 0 ↔ s.handles = 0 by omega)
    · rw [SharedPromise.release, if_neg hlast]

/-! ### Who waits -/

/-- One more waits: it has found the value, or it is owed the end on a channel of its own. -/
theorem began (h : s.Keeps es) {w : Wait π} (hwaits : s'.waits = s.waits.insert s.begun w)
    (hbegun : s'.begun = s.begun + 1) (hhandles : s'.handles = s.handles)
    (hvalue : s'.promise.get? = s.promise.get?) (hover : s'.IsOver ↔ s.IsOver)
    (houtbox : s'.outbox = s.outbox) (hnext : s.channels.next ≤ s'.channels.next)
    (hready : ∀ v, w = .ready v → s.promise.get? = some v)
    (hnew : ∀ c, w = .pending c → s.channels.next ≤ c ∧ c < s'.channels.next ∧
      s'.channels.slots[c]? = some (.empty none) ∧ s'.Owes c)
    (hold : ∀ c < s.channels.next, s'.channels.slots[c]? = s.channels.slots[c]? ∧
      (s.Owes c → s'.Owes c)) : s'.Keeps (.waited s.begun :: es) := by
  -- A wait is the new one or an old one, and only the new one has a channel that is new.
  have hcases {i : Nat} {w' : Wait π} (hi : s'.waits[i]? = some w') :
      s.begun = i ∧ w = w' ∨ s.begun ≠ i ∧ s.waits[i]? = some w' := by
    rw [hwaits] at hi
    exact SortedMap.getElem?_insert_eq_some_iff.1 hi
  have hapart {i : Nat} {c : ChannelId} (hw : w = .pending c)
      (hi : s.waits[i]? = some (.pending c)) : False :=
    absurd (h.lt_next i c hi) (Nat.not_lt_of_ge (hnew c hw).1)
  exact {
    value := hvalue.trans (h.value.trans (Option.or_none ..).symm)
    handles := by
      rw [hhandles]
      exact h.handles
    outbox := fun c state hmem ↦ by
      rw [hover, hvalue]
      exact h.outbox c state (houtbox ▸ hmem)
    lt_begun := fun i w' hi ↦ by
      rw [hbegun]
      rcases hcases hi with ⟨rfl, -⟩ | ⟨-, hi⟩
      · exact Nat.lt_succ_self _
      · exact Nat.lt_succ_of_lt (h.lt_begun i w' hi)
    ready := fun i v hi ↦ by
      rw [hvalue]
      rcases hcases hi with ⟨-, hw⟩ | ⟨-, hi⟩
      · exact hready v hw
      · exact h.ready i v hi
    lt_next := fun i c hi ↦ by
      rcases hcases hi with ⟨-, hw⟩ | ⟨-, hi⟩
      · exact (hnew c hw).2.1
      · exact Nat.lt_of_lt_of_le (h.lt_next i c hi) hnext
    distinct := fun i j c hi hj ↦ by
      rcases hcases hi with ⟨rfl, hw⟩ | ⟨-, hi⟩
      · rcases hcases hj with ⟨rfl, -⟩ | ⟨-, hj⟩
        · rfl
        · exact (hapart hw hj).elim
      · rcases hcases hj with ⟨-, hw⟩ | ⟨-, hj⟩
        · exact (hapart hw hi).elim
        · exact h.distinct i j c hi hj
    pending := fun i c hi ↦ by
      rw [lastPoller]
      rcases hcases hi with ⟨heq, hw⟩ | ⟨hne, hi⟩
      · rw [if_pos heq]
        exact .inl (hnew c hw).2.2
      · obtain ⟨hslot, howes⟩ := hold c (h.lt_next i c hi)
        rw [if_neg hne, hslot, hover, hvalue]
        exact (h.pending i c hi).imp_left fun hempty ↦ ⟨hempty.1, howes hempty.2⟩ }

theorem waited_of_settled (h : s.Keeps es) {u : π} (hpromise : s.promise = .settled u) :
    Keeps { s with waits := s.waits.insert s.begun (.ready u), begun := s.begun + 1 }
      (.waited s.begun :: es) := by
  refine h.began rfl rfl rfl rfl Iff.rfl rfl (Nat.le_refl _) ?_ (fun c hw ↦ by cases hw)
    fun c _ ↦ ⟨rfl, id⟩
  intro v hw
  rw [hpromise, Wait.ready.inj hw]
  rfl

theorem waited_of_pending (h : s.Keeps es) (held : 0 < s.handles) {ws : List ChannelId}
    (hpromise : s.promise = .pending ws) :
    Keeps
      { s with
        promise := s.promise.await s.channels.next
        channels := s.channels.create
        waits := s.waits.insert s.begun (.pending s.channels.next)
        begun := s.begun + 1 } (.waited s.begun :: es) := by
  have hawait : s.promise.await s.channels.next = .pending (ws ++ [s.channels.next]) := by
    rw [hpromise, Promise.await]
  have hlost : ¬ s.handles = 0 := Nat.pos_iff_ne_zero.1 held
  rw [hawait]
  refine h.began rfl rfl rfl ?_ (or_congr ?_ Iff.rfl) rfl (Nat.le_succ _) (fun v hw ↦ by cases hw)
    ?_ ?_
  · rw [hpromise]
    rfl
  · rw [hpromise]
    exact Iff.rfl
  · intro c hw
    obtain rfl := Wait.pending.inj hw
    refine ⟨Nat.le_refl _, Nat.lt_succ_self _, ?_, .inl ⟨?_, ?_⟩⟩
    · exact SortedMap.getElem?_insert_eq_some_iff.2 (.inl ⟨rfl, rfl⟩)
    · exact fun hover ↦ hover.elim nofun hlost
    · exact List.mem_append_right _ (List.mem_singleton_self _)
  · intro c hlt
    refine ⟨?_, Or.imp ?_ ?_⟩
    · rw [Channels.create, SortedMap.getElem?_insert_eq, if_neg (Nat.ne_of_gt hlt)]
    · rintro ⟨-, hlisted⟩
      rw [hpromise] at hlisted
      exact ⟨fun hover ↦ hover.elim nofun hlost, List.mem_append_left _ hlisted⟩
    · rw [hpromise]
      exact id

theorem waited (h : s.Keeps es) (held : 0 < s.handles) : s.wait.Keeps (.waited s.begun :: es) := by
  rw [wait]
  split
  · rename_i u hpromise
    exact h.waited_of_settled hpromise
  · rename_i ws hpromise
    exact h.waited_of_pending held hpromise

/-! ### Who is told -/

theorem notified (h : s.Keeps es) {state : ChannelState π}
    {rest : List (ChannelId × ChannelState π)} (houtbox : s.outbox = (c, state) :: rest)
    (woken : Option TaskId) : (s.notify c state rest).Keeps (.notified c woken :: es) := by
  obtain ⟨hover, hstate⟩ := h.outbox c state (houtbox ▸ List.mem_cons_self)
  -- What another channel has in it is not touched, and this one gets what it is due.
  have hslots (k : ChannelId) :
      (k ≠ c ∨ ∀ waker, s.channels.slots[k]? ≠ some (.empty waker)) ∧
        (s.channels.fill c state).2.slots[k]? = s.channels.slots[k]? ∨
      (s.channels.fill c state).2.slots[k]? = some (ending s.promise.get?) := by
    rcases s.channels.fill_cases c state with ⟨waker, -, -, hfill⟩ | ⟨hfull, hfill⟩
    · rw [hfill, SortedMap.getElem?_insert_eq]
      split
      · rw [hstate]
        exact .inr rfl
      · rename_i hne
        exact .inl ⟨.inl (Ne.symm hne), rfl⟩
    · rw [hfill]
      by_cases heq : k = c
      · exact .inl ⟨.inr (heq ▸ hfull), rfl⟩
      · exact .inl ⟨.inl heq, rfl⟩
  exact {
    value := h.value.trans (Option.or_none ..).symm
    handles := h.handles
    outbox := fun k state hmem ↦ h.outbox k state (houtbox ▸ List.mem_cons_of_mem _ hmem)
    lt_begun := h.lt_begun
    ready := h.ready
    lt_next := fun i k hi ↦ by
      rw [notify, Channels.next_fill]
      exact h.lt_next i k hi
    distinct := h.distinct
    pending := fun i k hi ↦ by
      rw [notify]
      rcases hslots k with ⟨hother, hsame⟩ | hended
      · rw [hsame]
        rcases h.pending i k hi with ⟨hempty, howes⟩ | hended
        · have hne : k ≠ c := hother.resolve_right fun hfull ↦ hfull _ hempty
          have hmem := howes.resolve_left fun hopen ↦ hopen.1 hover
          rw [houtbox] at hmem
          refine .inl ⟨hempty, .inr ((List.mem_cons.1 hmem).resolve_left fun heq ↦ ?_)⟩
          exact hne (Prod.mk.inj heq).1
        · exact .inr hended
      · exact .inr ⟨hover, hended⟩ }

/-- A wait that is gone concerns no other one. -/
theorem gone (h : s.Keeps es) {w : Wait π} (hi : s.waits[i]? = some w)
    (hvalue : firstValue (e :: es) = firstValue es) (hrelease : e.isRelease = false)
    (hcopy : e.isCopy = false) (hpoller : ∀ j, lastPoller (e :: es) j = lastPoller es j) :
    (s.forget i w).Keeps (e :: es) := by
  have hsame := h.same hvalue hrelease hcopy hpoller
  have hrest (j : Nat) (w' : Wait π) (hj : (s.forget i w).waits[j]? = some w') :
      i ≠ j ∧ s.waits[j]? = some w' := by
    rw [waits_forget] at hj
    exact SortedMap.getElem?_erase_eq_some_iff.1 hj
  have hslots (j : Nat) (c : ChannelId) (hne : i ≠ j) (hj : s.waits[j]? = some (.pending c)) :
      (s.forget i w).channels.slots[c]? = s.channels.slots[c]? := by
    cases w with
    | ready v => rfl
    | pending c' =>
      rw [forget, Channels.close, SortedMap.getElem?_erase_eq, if_neg]
      rintro rfl
      exact hne (h.distinct i j _ hi hj)
  have hpromise : (s.forget i w).promise = s.promise := by cases w <;> rfl
  have hhandles : (s.forget i w).handles = s.handles := by cases w <;> rfl
  have houtbox : (s.forget i w).outbox = s.outbox := by cases w <;> rfl
  have hover : (s.forget i w).IsOver ↔ s.IsOver := by rw [IsOver, IsOver, hpromise, hhandles]
  exact {
    value := by
      rw [hpromise]
      exact hsame.value
    handles := by
      rw [hhandles]
      exact hsame.handles
    outbox := fun c state hmem ↦ by
      rw [houtbox] at hmem
      rw [hover, hpromise]
      exact h.outbox c state hmem
    lt_begun := fun j w' hj ↦ by
      have hlt := h.lt_begun j w' (hrest j w' hj).2
      cases w <;> exact hlt
    ready := fun j v hj ↦ by
      rw [hpromise]
      exact h.ready j v (hrest j _ hj).2
    lt_next := fun j c hj ↦ by
      have hlt := h.lt_next j c (hrest j _ hj).2
      cases w <;> exact hlt
    distinct := fun j k c hj hk ↦ h.distinct j k c (hrest j _ hj).2 (hrest k _ hk).2
    pending := fun j c hj ↦ by
      obtain ⟨hne, hj⟩ := hrest j _ hj
      rw [hslots j c hne hj, Owes, hover, hpromise, houtbox]
      exact hsame.pending j c hj }

theorem asleep (h : s.Keeps es) (hi : s.waits[i]? = some (.pending c)) (howes : s.Owes c)
    (task : TaskId) :
    Keeps
      { s with
        channels :=
          { s.channels with slots := s.channels.slots.insert c (.empty (some task)) } }
      (.polled i task .pending :: es) where
  value := h.value.trans (Option.or_none ..).symm
  handles := h.handles
  outbox := h.outbox
  lt_begun := h.lt_begun
  ready := h.ready
  lt_next := h.lt_next
  distinct := h.distinct
  pending j k hj := by
    rw [lastPoller]
    split
    · rename_i heq
      subst heq
      obtain rfl : c = k := Wait.pending.inj (Option.some.inj (hi.symm.trans hj))
      exact .inl ⟨SortedMap.getElem?_insert_eq_some_iff.2 (.inl ⟨rfl, rfl⟩), howes⟩
    · rename_i hne
      have hother : c ≠ k := by
        rintro rfl
        exact hne (h.distinct i j c hi hj)
      rw [SortedMap.getElem?_insert_eq, if_neg hother]
      exact h.pending j k hj

/-- What a poll finds: how the promise has ended, unless it has not or the news is on its way. -/
theorem poll_cases (h : s.Keeps es) {w : Wait π} (hi : s.waits[i]? = some w) (task : TaskId) :
    s.IsOver ∧ s.poll i task w = (.done s.promise.get?, s.forget i w) ∨
      ∃ c, w = .pending c ∧ s.Owes c ∧
        s.poll i task w = (.pending, { s with channels :=
          { s.channels with slots := s.channels.slots.insert c (.empty (some task)) } }) := by
  cases w with
  | ready v =>
    have hvalue := h.ready i v hi
    rw [poll, hvalue]
    exact .inl ⟨.inl (isSettled_of_get? hvalue), rfl⟩
  | pending c =>
    rw [poll]
    rcases h.pending i c hi with ⟨hempty, howes⟩ | ⟨hover, hended⟩
    · rw [Channels.receive_of_empty hempty]
      exact .inr ⟨c, rfl, howes, rfl⟩
    · rw [Channels.receive_of_ending hended]
      exact .inl ⟨hover, rfl⟩

theorem polled (h : s.Keeps es) {w : Wait π} (hi : s.waits[i]? = some w) (task : TaskId) :
    (s.poll i task w).2.Keeps (.polled i task (s.poll i task w).1 :: es) := by
  rcases h.poll_cases hi task with ⟨-, hdone⟩ | ⟨c, rfl, howes, hpending⟩
  · rw [hdone]
    exact h.gone hi (Option.or_none ..) rfl rfl fun j ↦ rfl
  · rw [hpending]
    exact h.asleep hi howes task

theorem elsewhere (h : s.Keeps es) {channels : Channels π}
    (hnext : s.channels.next ≤ channels.next)
    (hslots : ∀ (i : Nat) c, s.waits[i]? = some (.pending c) →
      channels.slots[c]? = s.channels.slots[c]?) :
    Keeps { s with channels := channels } (.elsewhere :: es) where
  value := h.value.trans (Option.or_none ..).symm
  handles := h.handles
  outbox := h.outbox
  lt_begun := h.lt_begun
  ready := h.ready
  lt_next i c hi := Nat.lt_of_lt_of_le (h.lt_next i c hi) hnext
  distinct := h.distinct
  pending i c hi := by
    rw [hslots i c hi]
    exact h.pending i c hi

theorem step (h : s.Keeps es) (hstep : Step s e s') : s'.Keeps (e :: es) := by
  cases hstep with
  | completed held v => exact h.completed held v _
  | asked held | got held => exact h.same (Option.or_none ..) rfl rfl fun i ↦ rfl
  | waited held => exact h.waited held
  | copied held => exact h.copied held
  | released held => exact h.released held
  | notified houtbox => exact h.notified houtbox _
  | polled hi task => exact h.polled hi task
  | forgotten hi => exact h.gone hi (Option.or_none ..) rfl rfl fun i ↦ rfl
  | elsewhere hnext hslots => exact h.elsewhere hnext hslots

theorem isLost_iff (h : s.Keeps es) : IsLost es ↔ s.handles = 0 := by
  have hhandles := h.handles
  rw [IsLost]
  omega

theorem isOver_iff (h : s.Keeps es) : s.IsOver ↔ (firstValue es).isSome = true ∨ IsLost es := by
  rw [IsOver, h.isLost_iff, ← h.value]
  cases s.promise <;> exact Iff.rfl

/-- A wait for a promise that is over can be resolved, or its channel will be sent how the promise
has ended, and then the task that has last looked is woken. -/
theorem resolves (h : s.Keeps es) {w : Wait π} (hi : s.waits[i]? = some w) (hover : s.IsOver) :
    (∀ task, (s.poll i task w).1 = .done (firstValue es)) ∨
      ∃ c, w = .pending c ∧ (c, ending (firstValue es)) ∈ s.outbox ∧
        (s.channels.fill c (ending (firstValue es))).1 = lastPoller es i := by
  rw [← h.value]
  cases w with
  | ready v =>
    rw [h.ready i v hi]
    exact .inl fun task ↦ rfl
  | pending c =>
    rcases h.pending i c hi with ⟨hempty, howes⟩ | ⟨-, hended⟩
    · refine .inr ⟨c, rfl, howes.resolve_left fun hopen ↦ hopen.1 hover, ?_⟩
      rw [Channels.fill, hempty]
    · refine .inl fun task ↦ ?_
      rw [poll, Channels.receive_of_ending hended]

end Keeps

/-! ## Whole runs -/

namespace Runs

theorem keeps (h : Runs es s) : s.Keeps es := by
  induction h with
  | nil => exact .fresh
  | cons _ last ih => exact ih.step last

/-- The waits are those that have begun and have neither been resolved nor been given up. -/
theorem isAwaited_iff (h : Runs es s) (j : Nat) : IsAwaited es j ↔ ∃ w, s.waits[j]? = some w := by
  induction h with
  | nil => exact iff_of_false not_false fun ⟨w, hw⟩ ↦ by cases hw
  | @cons es e s s' run last ih =>
    have hgone (i : Nat) (w : Wait π) :
        (i ≠ j ∧ IsAwaited es j) ↔ ∃ w', (s.forget i w).waits[j]? = some w' := by
      rw [waits_forget, ih]
      simp only [SortedMap.getElem?_erase_eq_some_iff, exists_and_left]
    cases last with
    | completed | asked | got | copied | released | notified | elsewhere => exact ih
    | waited held =>
      obtain ⟨w, hwaits⟩ := s.waits_wait
      rw [IsAwaited, ih, hwaits]
      rw [SortedMap.getElem?_insert_eq]
      split
      · rename_i heq
        exact iff_of_true (.inl heq) ⟨w, rfl⟩
      · rename_i hne
        exact or_iff_right hne
    | @polled i w hi task =>
      rcases (keeps run).poll_cases hi task with ⟨-, hdone⟩ | ⟨c, -, -, hpending⟩
      · rw [hdone]
        exact hgone i w
      · rw [hpending]
        exact ih
    | @forgotten i w hi => exact hgone i w

/-- A lost promise is not settled any more. -/
theorem firstValue_of_isLost (h : Runs (later ++ earlier) s) (hlost : IsLost earlier) :
    IsLost (later ++ earlier) ∧ firstValue (later ++ earlier) = firstValue earlier := by
  induction later generalizing s with
  | nil => exact ⟨hlost, rfl⟩
  | cons e later ih =>
    rw [List.cons_append] at h ⊢
    obtain ⟨s', run, last⟩ := h.of_cons
    obtain ⟨hstill, hvalue⟩ := ih run
    -- Without a handle, all that is left is to send and to wait.
    have hnone : ¬ 0 < s'.handles := by
      rw [(keeps run).isLost_iff.1 hstill]
      exact Nat.lt_irrefl 0
    rw [← hvalue]
    cases last with
    | completed held | asked held | got held | waited held | copied held | released held =>
      exact absurd held hnone
    | notified houtbox | polled hi task | forgotten hi | elsewhere hnext hslots =>
      exact ⟨hstill, Option.or_none ..⟩

/-- What resolved a wait was how the promise had ended. -/
theorem done (h : Runs (later ++ .polled i task (.done o) :: earlier) s) :
    o = firstValue earlier ∧ ((firstValue earlier).isSome = true ∨ IsLost earlier) := by
  obtain ⟨s₁, s₂, run, step⟩ := h.exists_step
  have hkeeps := keeps run
  generalize hr : Received.done o = r at step
  cases step with
  | polled hi =>
    rw [← hkeeps.isOver_iff, ← hkeeps.value]
    rcases hkeeps.poll_cases hi task with ⟨hover, hdone⟩ | ⟨c, -, -, hpending⟩
    · rw [hdone] at hr
      exact ⟨Received.done.inj hr, hover⟩
    · rw [hpending] at hr
      cases hr

/-- Everything that is to be sent to waiters can be sent. -/
theorem flush (h : Runs es s) : ∃ later, Runs (later ++ es) s.flush ∧
    ∀ e ∈ later, ∃ c woken, e = .notified c woken := by
  induction houtbox : s.outbox generalizing s es with
  | nil =>
    refine ⟨[], ?_, List.forall_mem_nil _⟩
    rw [SharedPromise.flush, houtbox, List.foldl_nil, ← houtbox]
    exact h
  | cons l rest ih =>
    have hflush : s.flush = (s.notify l.1 l.2 rest).flush := by
      rw [SharedPromise.flush, houtbox]
      rfl
    obtain ⟨later, run, hlater⟩ := ih (h.cons (.notified houtbox)) rfl
    rw [List.append_cons, ← hflush] at run
    refine ⟨_, run, ?_⟩
    rw [List.forall_mem_append, List.forall_mem_singleton]
    exact ⟨hlater, _, _, rfl⟩

/-- Once everything has been sent, every wait can be resolved. -/
theorem poll_flush (h : Runs es s) (hover : (firstValue es).isSome = true ∨ IsLost es) {w : Wait π}
    (hi : s.waits[i]? = some w) (task : TaskId) :
    (s.flush.poll i task w).1 = .done (firstValue es) := by
  obtain ⟨later, run, -⟩ := h.flush
  have hvalue : firstValue (later ++ es) = firstValue es :=
    (keeps run).value.symm.trans (keeps h).value
  rw [← hvalue]
  rcases (keeps run).resolves hi ((keeps h).isOver_iff.2 hover) with hall | ⟨c, -, hmem, -⟩
  · exact hall task
  · cases hmem

end Runs

/-- A promise settles once, for everybody. -/
structure Settles (s : SharedPromise π) (es : List (Event π)) : Prop where
  /-- Exactly the first attempt to settle the promise was told so. -/
  completed : ∀ later v first earlier, es = later ++ .completed v first :: earlier →
    first = (firstValue earlier).isNone
  /-- Who asked whether the promise is settled was told whether there had been an attempt. -/
  asked : ∀ later settled earlier, es = later ++ .asked settled :: earlier →
    settled = (firstValue earlier).isSome
  /-- Who asked for the value got that of the first attempt, or nothing before it. -/
  got : ∀ later o earlier, es = later ++ .got o :: earlier → o = firstValue earlier
  /-- The value stayed. -/
  kept : ∀ later earlier v, es = later ++ earlier → firstValue earlier = some v →
    firstValue es = some v
  /-- A wait that was resolved to a value was resolved to that of the first attempt. -/
  polled_some : ∀ later i task v earlier, es = later ++ .polled i task (.done (some v)) :: earlier →
    firstValue earlier = some v
  /-- A wait was resolved to nothing only if every handle had been dropped before any attempt, and
  then there was none. -/
  polled_none : ∀ later i task earlier, es = later ++ .polled i task (.done none) :: earlier →
    IsLost earlier ∧ firstValue es = none
  /-- Once there has been an attempt, or every handle has been dropped, every wait can be resolved
  accordingly, or its channel will be sent what it can be resolved to. Then the task that has last
  looked is woken. -/
  resolves : (firstValue es).isSome = true ∨ IsLost es → ∀ i, IsAwaited es i →
    ∃ w, s.waits[i]? = some w ∧
      ((∀ task, (s.poll i task w).1 = .done (firstValue es)) ∨
        ∃ c, w = .pending c ∧ (c, ending (firstValue es)) ∈ s.outbox ∧
          (s.channels.fill c (ending (firstValue es))).1 = lastPoller es i)
  /-- All of this can be sent. -/
  sends : ∃ later, Runs (later ++ es) s.flush ∧ ∀ e ∈ later, ∃ c woken, e = .notified c woken
  /-- And then every wait can be resolved. -/
  delivers : (firstValue es).isSome = true ∨ IsLost es → ∀ i, IsAwaited es i →
    ∃ w, s.flush.waits[i]? = some w ∧ ∀ task, (s.flush.poll i task w).1 = .done (firstValue es)

/-- Whatever is done with a promise, it settles once, for everybody. -/
theorem Runs.settles_once (h : Runs es s) : s.Settles es where
  completed later v first earlier heq := by
    subst heq
    obtain ⟨s₁, s₂, run, step⟩ := h.exists_step
    rw [← (Runs.keeps run).value]
    cases step
    cases s₁.promise <;> rfl
  asked later settled earlier heq := by
    subst heq
    obtain ⟨s₁, s₂, run, step⟩ := h.exists_step
    rw [← (Runs.keeps run).value]
    cases step
    cases s₁.promise <;> rfl
  got later o earlier heq := by
    subst heq
    obtain ⟨s₁, s₂, run, step⟩ := h.exists_step
    rw [← (Runs.keeps run).value]
    cases step
    rfl
  kept later earlier v heq hv := by rw [heq, firstValue_append, hv, Option.some_or]
  polled_some later i task v earlier heq := (heq ▸ h).done.1.symm
  polled_none later i task earlier heq := by
    subst heq
    obtain ⟨hnone, hended⟩ := h.done
    have hlost : IsLost earlier := hended.resolve_left (by rw [← hnone]; exact nofun)
    have hstill : IsLost (.polled i task (.done none) :: earlier) := hlost
    rw [(h.firstValue_of_isLost hstill).2, firstValue, ← hnone]
    exact ⟨hlost, rfl⟩
  resolves hover i hawaited := by
    obtain ⟨w, hi⟩ := (h.isAwaited_iff i).1 hawaited
    exact ⟨w, hi, h.keeps.resolves hi (h.keeps.isOver_iff.2 hover)⟩
  sends := h.flush
  delivers hover i hawaited := by
    obtain ⟨w, hi⟩ := (h.isAwaited_iff i).1 hawaited
    exact ⟨w, hi, h.poll_flush hover hi⟩

/-- One waits and looks in vain, another settles the promise twice, a third waits after that; the
first is told last. -/
theorem settles_once_early_late : ∃ (es : List (Event Nat)) (s : SharedPromise Nat),
    es = [.released, .polled 0 7 (.done (some 1)), .notified 0 (some 7), .released,
      .polled 1 8 (.done (some 1)), .waited 1, .got (some 1), .completed 2 false,
      .completed 1 true, .copied, .polled 0 7 .pending, .waited 0] ∧
      Runs es s ∧ s.waits.toList = [] ∧ s.Settles es := by
  have start : Runs [] (fresh : SharedPromise Nat) := .nil
  have early : Runs [.polled 0 7 .pending, .waited 0] _ :=
    (start.cons (.waited (by decide))).cons (.polled (w := .pending 0) rfl 7)
  have settled : Runs (.completed 2 false :: .completed 1 true :: .copied :: _) _ :=
    ((early.cons (.copied (by decide))).cons (.completed (by decide) 1)).cons
      (.completed (by decide) 2)
  have late : Runs (.polled 1 8 (.done (some 1)) :: .waited 1 :: .got (some 1) :: _) _ :=
    ((settled.cons (.got (by decide))).cons (.waited (by decide))).cons
      (.polled (w := .ready 1) rfl 8)
  have told : Runs (.notified 0 (some 7) :: .released :: _) _ :=
    (late.cons (.released (by decide))).cons (.notified rfl)
  have run : Runs (.released :: .polled 0 7 (.done (some 1)) :: _) _ :=
    (told.cons (.polled (w := .pending 0) rfl 7)).cons (.released (by decide))
  exact ⟨_, _, rfl, run, by decide, Runs.settles_once run⟩

end SharedPromise

end ScopeGraphs
