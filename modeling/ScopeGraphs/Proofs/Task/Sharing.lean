import ScopeGraphs.Proofs.Task.Instructing
import ScopeGraphs.Proofs.Task.Promising

/-!
# Promises in use

A workbench has many promises on the same channels, one handle to each of them, and lets all waiters
of a promise know in one go how it has ended. Here what becomes of each of its promises is taken
apart into the steps of `SharedPromise.Step`, so that what holds of every promise in many hands
(`SharedPromise.Keeps`) holds of it.

## Whose channel it is

To one promise, what is done for another is done elsewhere, provided that it does not concern a
channel on which the one is awaited. A channel is made for one wait, so the waiters of two promises
are never the same (`Shows.apart`).
-/

namespace ScopeGraphs

/-! ## Channels -/

namespace Channels

universe u

variable {π : Type u} {c : Channels π} {k : ChannelId} {ks : List ChannelId}

theorem next_foldl_fill (c : Channels π) (state : ChannelState π) (ks : List ChannelId) :
    (ks.foldl (fun c k ↦ (c.fill k state).2) c).next = c.next := by
  induction ks generalizing c with
  | nil => rfl
  | cons k ks ih => exact (ih _).trans (c.next_fill k state)

theorem getElem?_fill_of_ne {k' : ChannelId} (h : k ≠ k') (c : Channels π)
    (state : ChannelState π) : (c.fill k' state).2.slots[k]? = c.slots[k]? := by
  rcases c.fill_cases k' state with ⟨waker, -, -, hfill⟩ | ⟨-, hfill⟩
  · rw [hfill, SortedMap.getElem?_insert_eq, if_neg h.symm]
  · rw [hfill]

theorem getElem?_foldl_fill (h : k ∉ ks) (c : Channels π) (state : ChannelState π) :
    (ks.foldl (fun c k ↦ (c.fill k state).2) c).slots[k]? = c.slots[k]? := by
  induction ks generalizing c with
  | nil => rfl
  | cons k' ks ih =>
    rw [List.mem_cons, not_or] at h
    exact (ih h.2 _).trans (getElem?_fill_of_ne h.1 c state)

/-- To look into a channel concerns this channel only. -/
theorem getElem?_receive_of_ne {k' : ChannelId} (h : k ≠ k') (c : Channels π) (task : TaskId) :
    (c.receive k' task).2.slots[k]? = c.slots[k]? := by
  have herase : (c.close k').slots[k]? = c.slots[k]? := by
    rw [close, SortedMap.getElem?_erase_eq, if_neg h.symm]
  rw [receive]
  split
  · rw [SortedMap.getElem?_insert_eq, if_neg h.symm]
  · exact herase
  · exact herase
  · exact herase

theorem next_receive (c : Channels π) (k : ChannelId) (task : TaskId) :
    (c.receive k task).2.next = c.next := by
  rw [receive]
  split <;> rfl

end Channels

/-- All waits can be given up. -/
theorem SharedPromise.Runs.forgets {π : Type} {es : List (Event π)} {s : SharedPromise π}
    (h : Runs es s) : ∃ later channels,
      Runs (later ++ es) { s with channels := channels, waits := ∅ } ∧
        channels.next = s.channels.next := by
  by_cases hwaits : s.waits = ∅
  · refine ⟨[], s.channels, ?_, rfl⟩
    rw [← hwaits]
    exact h
  · rw [Std.ExtTreeMap.eq_empty_iff_forall_not_mem, not_forall_not] at hwaits
    obtain ⟨i, hi⟩ := hwaits
    obtain ⟨w, hi⟩ := Option.isSome_iff_exists.1 (Std.ExtTreeMap.mem_iff_isSome_getElem?.1 hi)
    have hfewer : (s.forget i w).waits.size < s.waits.size := by
      rw [waits_forget]
      exact Nat.lt_of_succ_le (Nat.le_of_eq (SortedMap.size_erase_of_eq_some hi))
    obtain ⟨later, channels, run, hnext⟩ := SharedPromise.Runs.forgets (h.cons (.forgotten hi))
    rw [List.append_cons] at run
    cases w <;> exact ⟨_, channels, run, hnext⟩
termination_by s.waits.size

namespace Workbench

open SharedPromise (Runs Step fresh)

variable {w w' : Workbench} {name : String} {s s' : SharedPromise Int} {p : Promise Int}
  {es : List (SharedPromise.Event Int)} {i : Nat} {c : ChannelId}

theorem promises_wakeSome (w : Workbench) (o : Option TaskId) :
    (w.wakeSome o).promises = w.promises := by
  cases o <;> rfl

theorem channels_wakeSome (w : Workbench) (o : Option TaskId) :
    (w.wakeSome o).channels = w.channels := by
  cases o <;> rfl

theorem promises_foldl_notify (w : Workbench) (state : ChannelState Int) (cs : List ChannelId) :
    (cs.foldl (notify state) w).promises = w.promises := by
  induction cs generalizing w with
  | nil => rfl
  | cons c cs ih => exact (ih _).trans (promises_wakeSome _ _)

theorem channels_foldl_notify (w : Workbench) (state : ChannelState Int) (cs : List ChannelId) :
    (cs.foldl (notify state) w).channels =
      cs.foldl (fun channels c ↦ (channels.fill c state).2) w.channels := by
  induction cs generalizing w with
  | nil => rfl
  | cons c cs ih =>
    rw [List.foldl_cons, List.foldl_cons, ih, notify, channels_wakeSome]

/-! ## One promise -/

/-- What a task that waits goes by. -/
def Leg.ofWait : SharedPromise.Wait Int → Leg
  | .ready v => .ready (some v)
  | .pending c => .pending c

/-- What a workbench has under a name is a promise in many hands, to which there is one handle. -/
structure Shows (w : Workbench) (name : String) (s : SharedPromise Int) : Prop where
  /-- The name is that of the promise. -/
  promise : w.promises[name]? = some s.promise
  /-- The channels are shared. -/
  channels : s.channels = w.channels
  /-- The name is the only handle. -/
  handles : s.handles = 1
  /-- Everybody has been told. -/
  outbox : s.outbox = []
  /-- Who waits for another promise is not on a channel of this one. -/
  apart : ∀ other (p : Promise Int), other ≠ name → w.promises[other]? = some p →
    ∀ c ∈ p.waiters, ∀ i : Nat, s.waits[i]? ≠ some (.pending c)

namespace Shows

theorem held (h : w.Shows name s) : 0 < s.handles := by
  rw [h.handles]
  exact Nat.one_pos

/-- What is told to all waiters in one go is what is told to them one by one. -/
theorem channels_flush (h : w.Shows name s) (state : ChannelState Int) :
    (s.outbox ++ s.promise.waiters.map fun c ↦ (c, state)).foldl
        (fun channels l ↦ (channels.fill l.1 l.2).2) s.channels =
      s.promise.waiters.foldl (fun channels c ↦ (channels.fill c state).2) w.channels := by
  rw [h.outbox, h.channels, List.nil_append, List.foldl_map]

theorem get (h : w.Shows name s) : w.get name = s.promise.get? := by
  rw [Workbench.get, h.promise]
  rfl

theorem complete (h : w.Shows name s) (v : Int) :
    (w.complete name v).1 = some (!s.promise.isSettled) ∧
      (w.complete name v).2.Shows name (s.complete v).flush := by
  rw [Workbench.complete, h.promise]
  refine ⟨rfl, ?_, ?_, h.handles, rfl, fun other p hne hother c hc ↦ ?_⟩
  · rw [promises_foldl_notify, SortedMap.getElem?_insert_eq, if_pos rfl]
    rfl
  · rw [channels_foldl_notify]
    exact h.channels_flush (.full v)
  · rw [promises_foldl_notify, SortedMap.getElem?_insert_eq, if_neg (Ne.symm hne)] at hother
    exact h.apart other p hne hother c hc

theorem drop (h : w.Shows name s) :
    s.release.flush.handles = 0 ∧ s.release.flush.channels = (w.drop name).channels := by
  rw [Workbench.drop, h.promise, channels_foldl_notify]
  refine ⟨?_, ?_⟩
  · exact congrArg (· - 1) h.handles
  · rw [← h.channels_flush, SharedPromise.flush, SharedPromise.release, if_pos h.handles]

/-- What a task starts to wait with is the wait that begins. -/
theorem leg (h : w.Shows name s)
    (hmade : ∀ (other : String) (p : Promise Int), w.promises[other]? = some p → ∀ c ∈ p.waiters,
      c < w.channels.next) : (w.leg name).2.Shows name s.wait := by
  rw [Workbench.leg, h.promise, SharedPromise.wait]
  cases hpromise : s.promise with
  | settled v =>
    refine ⟨h.promise.trans (congrArg some hpromise), h.channels, h.handles, h.outbox,
      fun other p hne hother c hc i hi ↦ ?_⟩
    rcases SortedMap.getElem?_insert_eq_some_iff.1 hi with ⟨-, heq⟩ | ⟨-, hi⟩
    · cases heq
    · exact h.apart other p hne hother c hc i hi
  | pending ws =>
    rw [h.channels]
    refine ⟨?_, rfl, h.handles, h.outbox, fun other p hne hother c hc i hi ↦ ?_⟩
    · exact (SortedMap.getElem?_insert_eq ..).trans (if_pos rfl)
    · rw [SortedMap.getElem?_insert_eq, if_neg (Ne.symm hne)] at hother
      rcases SortedMap.getElem?_insert_eq_some_iff.1 hi with ⟨-, heq⟩ | ⟨-, hi⟩
      · cases heq
        exact absurd (hmade other p hother _ hc) (Nat.lt_irrefl _)
      · exact h.apart other p hne hother c hc i hi

/-- What a task that waits finds is what a poll of its wait finds, in the channels as they are
then. -/
theorem poll (h : w.Shows name s) (i : Nat) (x : SharedPromise.Wait Int) (id : TaskId) :
    Workbench.poll id w (.ofWait x) =
      (match (s.poll i id x).1 with
        | .pending => .ofWait x
        | .done o => .ready o, { w with channels := (s.poll i id x).2.channels }) := by
  cases x with
  | ready v =>
    rw [SharedPromise.poll, h.channels]
    rfl
  | pending c =>
    rw [Leg.ofWait, Workbench.poll, SharedPromise.poll, h.channels]
    split <;> rename_i heq <;> rw [heq]

/-- What is done elsewhere is one more step. -/
theorem elsewhere (h : w.Shows name s) (run : Runs es s)
    (hpromise : w'.promises[name]? = w.promises[name]?)
    (hnext : w.channels.next ≤ w'.channels.next)
    (hslots : ∀ (i : Nat) c, s.waits[i]? = some (.pending c) →
      w'.channels.slots[c]? = w.channels.slots[c]?)
    (hapart : ∀ other (p : Promise Int), other ≠ name → w'.promises[other]? = some p →
      ∀ c ∈ p.waiters, ∀ i : Nat, s.waits[i]? ≠ some (.pending c)) :
    ∃ es s, Runs es s ∧ w'.Shows name s := by
  rw [← h.channels] at hnext hslots
  exact ⟨_, _, run.cons (.elsewhere hnext hslots),
    hpromise.trans h.promise, rfl, h.handles, h.outbox, hapart⟩

end Shows

/-! ## All promises -/

/-- Every promise of a workbench has come about by the steps of a promise in many hands. -/
structure Shares (w : Workbench) : Prop where
  /-- The channels of those who wait have been made. -/
  made : ∀ (name : String) (p : Promise Int), w.promises[name]? = some p → ∀ c ∈ p.waiters,
    c < w.channels.next
  /-- Every promise has a history. -/
  run : ∀ (name : String) p, w.promises[name]? = some p → ∃ es s, Runs es s ∧ w.Shows name s

namespace Shares

protected theorem empty : empty.Shares where
  made name p h := by cases h
  run name p h := by cases h

theorem congr (h : w.Shares) (hpromises : w'.promises = w.promises)
    (hchannels : w'.channels = w.channels) : w'.Shares where
  made := by
    rw [hpromises, hchannels]
    exact h.made
  run name p hp := by
    rw [hpromises] at hp
    obtain ⟨es, s, run, hshows⟩ := h.run name p hp
    refine ⟨es, s, run, ?_, hshows.channels.trans hchannels.symm, hshows.handles, hshows.outbox, ?_⟩
    · rw [hpromises]
      exact hshows.promise
    · rw [hpromises]
      exact hshows.apart

/-- What is done for one promise concerns no other. -/
theorem edit (h : w.Shares) (name : String)
    (hothers : ∀ other, other ≠ name → w'.promises[other]? = w.promises[other]?)
    (hnext : w.channels.next ≤ w'.channels.next)
    (hslots : ∀ c, c < w.channels.next → (∀ p, w.promises[name]? = some p → c ∉ p.waiters) →
      w'.channels.slots[c]? = w.channels.slots[c]?)
    (hwaiters : ∀ p', w'.promises[name]? = some p' → ∀ c ∈ p'.waiters, c < w'.channels.next ∧
      ((∃ p, w.promises[name]? = some p ∧ c ∈ p.waiters) ∨ w.channels.next ≤ c))
    (hown : ∀ p', w'.promises[name]? = some p' → ∃ es s, Runs es s ∧ w'.Shows name s) :
    w'.Shares where
  made other p hother c hc := by
    by_cases heq : other = name
    · exact (hwaiters p (heq ▸ hother) c hc).1
    · rw [hothers other heq] at hother
      exact Nat.lt_of_lt_of_le (h.made other p hother c hc) hnext
  run other p hother := by
    by_cases heq : other = name
    · exact heq ▸ hown p (heq ▸ hother)
    · rw [hothers other heq] at hother
      obtain ⟨es, s, run, hshows⟩ := h.run other p hother
      -- The channels on which this promise is awaited have been made before, so a new waiter of the
      -- other one is not on them, and an old one is not by `apart`.
      have hlt (i : Nat) (c : ChannelId) (hi : s.waits[i]? = some (.pending c)) :
          c < w.channels.next :=
        hshows.channels ▸ run.keeps.lt_next i c hi
      refine hshows.elsewhere run (hothers other heq) hnext (fun i c hi ↦ ?_)
        fun third p hne hthird c hc i hi ↦ ?_
      · refine hslots c (hlt i c hi) fun p hp hc ↦ ?_
        exact hshows.apart name p (Ne.symm heq) hp c hc i hi
      · by_cases hname : third = name
        · subst hname
          rcases (hwaiters p hthird c hc).2 with ⟨p, hp, hc⟩ | hle
          · exact hshows.apart third p hne hp c hc i hi
          · exact Nat.not_lt_of_le hle (hlt i c hi)
        · rw [hothers third hname] at hthird
          exact hshows.apart third p hne hthird c hc i hi

/-- All waiters of a promise are told how it has ended, and nobody is left who waits for it. -/
theorem notify (h : w.Shares) (hp : w.promises[name]? = some p)
    {promises : SortedMap String (Promise Int)}
    (hothers : ∀ other, other ≠ name → promises[other]? = w.promises[other]?)
    (hnobody : ∀ p', promises[name]? = some p' → p'.waiters = []) (state : ChannelState Int)
    (hown : ∀ p', promises[name]? = some p' → ∃ es s, Runs es s ∧
      Shows (p.waiters.foldl (Workbench.notify state) { w with promises := promises }) name s) :
    Shares (p.waiters.foldl (Workbench.notify state) { w with promises := promises }) := by
  refine h.edit name (fun other hne ↦ ?_) ?_ (fun c hc hother ↦ ?_) (fun p' hp' c hc ↦ ?_)
    fun p' hp' ↦ ?_
  · rw [promises_foldl_notify]
    exact hothers other hne
  · refine Nat.le_of_eq ?_
    rw [channels_foldl_notify, Channels.next_foldl_fill]
  · rw [channels_foldl_notify]
    exact Channels.getElem?_foldl_fill (hother p hp) ..
  · rw [promises_foldl_notify] at hp'
    rw [hnobody p' hp'] at hc
    cases hc
  · rw [promises_foldl_notify] at hp'
    exact hown p' hp'

theorem complete (h : w.Shares) (name : String) (v : Int) : (w.complete name v).2.Shares := by
  cases hp : w.promises[name]? with
  | none =>
    rw [Workbench.complete, hp]
    exact h
  | some p =>
    obtain ⟨es, s, run, hshows⟩ := h.run name p hp
    obtain ⟨later, flushed, -⟩ := SharedPromise.Runs.flush (run.cons (.completed hshows.held v))
    have hown := (hshows.complete v).2
    rw [Workbench.complete, hp] at hown ⊢
    refine h.notify hp (fun other hne ↦ ?_) (fun p' hp' ↦ ?_) _ fun p' hp' ↦ ⟨_, _, flushed, hown⟩
    · rw [SortedMap.getElem?_insert_eq, if_neg (Ne.symm hne)]
    · rw [SortedMap.getElem?_insert_eq, if_pos rfl] at hp'
      obtain rfl := Option.some.inj hp'
      cases p <;> rfl

theorem drop (h : w.Shares) (name : String) : (w.drop name).Shares := by
  cases hp : w.promises[name]? with
  | none =>
    rw [Workbench.drop, hp]
    exact h
  | some p =>
    rw [Workbench.drop, hp]
    have hgone (p' : Promise Int) : (w.promises.erase name)[name]? ≠ some p' := by
      rw [SortedMap.getElem?_erase_eq, if_pos rfl]
      exact nofun
    refine h.notify hp (fun other hne ↦ ?_) (fun p' hp' ↦ absurd hp' (hgone p')) _
      fun p' hp' ↦ absurd hp' (hgone p')
    rw [SortedMap.getElem?_erase_eq, if_neg (Ne.symm hne)]

theorem new (h : w.Shares) (name : String) : (w.new name).Shares := by
  have hdropped := h.drop name
  have hfresh : (w.new name).promises[name]? = some .fresh := by
    rw [Workbench.new, SortedMap.getElem?_insert_eq, if_pos rfl]
  refine hdropped.edit name (fun other hne ↦ ?_) (Nat.le_refl _) (fun c hc hother ↦ rfl)
    (fun p' hp' c hc ↦ ?_) fun p' hp' ↦ ?_
  · rw [Workbench.new, SortedMap.getElem?_insert_eq, if_neg (Ne.symm hne)]
  · obtain rfl := Option.some.inj (hfresh.symm.trans hp')
    cases hc
  · have start : Runs [] (fresh : SharedPromise Int) := .nil
    exact ⟨_, _, start.cons (.elsewhere (Nat.zero_le _) fun i c hi ↦ by cases hi), hfresh, rfl,
      rfl, rfl, fun other p hne hother c hc i hi ↦ by cases hi⟩

theorem leg (h : w.Shares) (name : String) : (w.leg name).2.Shares := by
  cases hp : w.promises[name]? with
  | none =>
    rw [Workbench.leg, hp]
    exact h
  | some p =>
    obtain ⟨es, s, run, hshows⟩ := h.run name p hp
    cases p with
    | settled v =>
      rw [Workbench.leg, hp]
      exact h
    | pending ws =>
      have hown := hshows.leg h.made
      refine h.edit name (fun other hne ↦ ?_) ?_ (fun c hc hother ↦ ?_) (fun p' hp' c hc ↦ ?_)
        fun p' hp' ↦ ⟨_, _, run.cons (.waited hshows.held), hown⟩
      · rw [Workbench.leg, hp]
        exact (SortedMap.getElem?_insert_eq ..).trans (if_neg (Ne.symm hne))
      · rw [Workbench.leg, hp]
        exact Nat.le_succ _
      · rw [Workbench.leg, hp]
        exact (SortedMap.getElem?_insert_eq ..).trans (if_neg (Nat.ne_of_gt hc))
      · rw [Workbench.leg, hp] at hp' ⊢
        rw [SortedMap.getElem?_insert_eq, if_pos rfl] at hp'
        obtain rfl := Option.some.inj hp'
        rcases List.mem_append.1 hc with hc | hc
        · exact ⟨Nat.lt_succ_of_lt (h.made name _ hp c hc), .inl ⟨_, rfl, hc⟩⟩
        · obtain rfl := List.mem_singleton.1 hc
          exact ⟨Nat.lt_succ_self _, .inr (Nat.le_refl _)⟩

/-- What is done with one channel concerns only the promise that is awaited on it. -/
theorem touch (h : w.Shares) {channels : Channels Int} (c : ChannelId)
    (hnext : channels.next = w.channels.next)
    (hslots : ∀ k, k ≠ c → channels.slots[k]? = w.channels.slots[k]?)
    (hown : ∀ {s : SharedPromise Int} {i : Nat}, s.channels = w.channels →
      s.waits[i]? = some (.pending c) → ∃ e s', Step s e s' ∧ s'.channels = channels ∧
        s'.promise = s.promise ∧ s'.handles = s.handles ∧ s'.outbox = s.outbox ∧
        ∀ (j : Nat) x, s'.waits[j]? = some x → s.waits[j]? = some x) :
    Shares { w with channels := channels } where
  made name p hp c hc := Nat.lt_of_lt_of_eq (h.made name p hp c hc) hnext.symm
  run name p hp := by
    obtain ⟨es, s, run, hshows⟩ := h.run name p hp
    by_cases hawaited : ∃ i : Nat, s.waits[i]? = some (.pending c)
    · obtain ⟨i, hi⟩ := hawaited
      obtain ⟨e, s', step, hchannels, hpromise, hhandles, houtbox, hwaits⟩ :=
        hown hshows.channels hi
      refine ⟨_, s', run.cons step, ?_, hchannels, ?_, ?_, fun other p hne hother k hk j hj ↦ ?_⟩
      · rw [hpromise]
        exact hshows.promise
      · rw [hhandles, hshows.handles]
      · rw [houtbox, hshows.outbox]
      · exact hshows.apart other p hne hother k hk j (hwaits j _ hj)
    · refine hshows.elsewhere run rfl (Nat.le_of_eq hnext.symm) (fun i k hi ↦ ?_) hshows.apart
      refine hslots k ?_
      rintro rfl
      exact hawaited ⟨i, hi⟩

theorem poll (h : w.Shares) (id : TaskId) (l : Leg) : (poll id w l).2.Shares := by
  cases l with
  | ready v => exact h
  | pending c =>
    have hpoll : (Workbench.poll id w (.pending c)).2 =
        { w with channels := (w.channels.receive c id).2 } := by
      rw [Workbench.poll]
      split <;> rename_i heq <;> rw [heq]
    rw [hpoll]
    refine h.touch c (Channels.next_receive ..) (fun k hk ↦ Channels.getElem?_receive_of_ne hk ..)
      fun {s i} hchannels hi ↦ ⟨_, _, .polled hi id, ?_⟩
    rw [← hchannels, SharedPromise.poll]
    split <;> rename_i heq <;> rw [heq]
    · exact ⟨rfl, rfl, rfl, rfl, fun j x hj ↦ hj⟩
    · exact ⟨rfl, rfl, rfl, rfl, fun j x hj ↦ (SortedMap.getElem?_erase_eq_some_iff.1 hj).2⟩

theorem forget (h : w.Shares) (l : Leg) : (w.forget l).Shares := by
  cases l with
  | ready v => exact h
  | pending c =>
    refine h.touch c rfl (fun k hk ↦ ?_) fun {s i} hchannels hi ↦ ⟨_, _, .forgotten hi, ?_⟩
    · exact (SortedMap.getElem?_erase_eq ..).trans (if_neg (Ne.symm hk))
    · rw [← hchannels]
      exact ⟨rfl, rfl, rfl, rfl, fun j x hj ↦ (SortedMap.getElem?_erase_eq_some_iff.1 hj).2⟩

theorem clear (h : w.Shares) : w.clear.Shares where
  made := h.made
  run name p hp := by
    obtain ⟨es, s, run, hshows⟩ := h.run name p hp
    -- Only when nobody waits any more may all channels be closed elsewhere.
    obtain ⟨later, channels, run, hnext⟩ := run.forgets
    have hle : channels.next ≤ w.channels.closeAll.next := by
      rw [hnext, hshows.channels]
      exact Nat.le_refl _
    exact ⟨_, _, run.cons (.elsewhere hle fun i c hi ↦ by cases hi), hshows.promise, rfl,
      hshows.handles, hshows.outbox, fun other p hne hother c hc i hi ↦ by cases hi⟩

end Shares

/-- Whatever tasks do, promises come about step by step. -/
theorem tasksKeep_shares : TasksKeep Shares where
  note h _ _ := h.congr rfl rfl
  wake h _ := h.congr rfl rfl
  spawn h _ := h.congr rfl rfl
  leg h name := h.leg name
  poll h id l := h.poll id l
  forget h l := h.forget l
  complete h name v := h.complete name v
  drop h name := h.drop name

theorem Shares.pollNext (h : w.Shares) : w.pollNext.2.Shares := by
  rw [Workbench.pollNext]
  split
  · exact h.congr rfl rfl
  · rename_i id t executor htake
    have htaken : Shares { w with executor := executor } := h.congr rfl rfl
    exact (tasksKeep_shares.advance htaken id t).congr rfl rfl

theorem requestsKeep_shares : RequestsKeep Shares where
  new h name := h.new name
  complete h name v := h.complete name v
  drop h name := h.drop name
  spawn h _ _ := h.congr rfl rfl
  pollNext h := h.pollNext
  clear h := h.clear

/-- Whatever is asked of a workbench, and whatever its tasks do, its promises come about by the
steps of promises in many hands. -/
theorem shares_serve (rs : List Request) : (rs.foldl serve empty).Shares :=
  requestsKeep_shares.serve .empty rs

end Workbench

end ScopeGraphs
