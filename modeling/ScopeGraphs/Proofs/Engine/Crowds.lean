import Mathlib.Algebra.BigOperators.Group.Finset.Piecewise
import ScopeGraphs.Proofs.Engine.Polling

/-!
# Polling processes side by side

Processes side by side are polled one after the other: a few of them all by position, of a crowd
those for which something has arrived. Either way each of them is polled at most once, and no poll
affects the channels of another process. `Family.Batch` says what holds in between: the processes
that were polled wait or have delivered, and the others are still to be polled or have nothing to
do.
-/

namespace ScopeGraphs

universe u

variable {γ α β : Type}

open Proc

/-! ## The order of arrival -/

namespace Proc

/-- Something has arrived for a process if it has on one of its channels. -/
theorem isSome_arrival? {channels : Channels Parcel} {p : Proc γ α} :
    (arrival? channels p).isSome = true ↔ ∃ ch ∈ channels.arrived, p.Awaits ch := by
  induction p with
  | await ch next =>
    rw [arrival?, Channels.arrival?, List.isSome_idxOf?]
    constructor
    · exact fun h ↦ ⟨ch, h, rfl⟩
    · rintro ⟨_, h, rfl⟩
      exact h
  | together turns parts next ih =>
    rw [arrival?, List.isSome_min?_iff]
    constructor
    · intro hne
      obtain ⟨n, hn⟩ := List.exists_mem_of_ne_nil _ hne
      obtain ⟨o, ho, rfl⟩ := List.mem_filterMap.1 hn
      obtain ⟨i, hi⟩ := List.mem_ofFn.1 ho
      obtain ⟨ch, hch, hawaits⟩ := (ih i).1 (hi ▸ rfl)
      exact ⟨ch, hch, i, hawaits⟩
    · rintro ⟨ch, hch, i, hi⟩
      obtain ⟨n, hn⟩ := Option.isSome_iff_exists.1 ((ih i).2 ⟨ch, hch, hi⟩)
      exact List.ne_nil_of_mem (List.mem_filterMap.2 ⟨some n, List.mem_ofFn.2 ⟨i, hn⟩, rfl⟩)
  | done | perform | yield | never =>
    exact ⟨nofun, fun ⟨_, _, h⟩ ↦ absurd h id⟩

/-- Those are in the order of arrival for which there is a position in it. -/
theorem mem_inOrderOfArrival_iff {ξ : Type u} {xs : List (Option Nat × ξ)} {e : Nat × ξ} :
    e ∈ inOrderOfArrival xs ↔ ∃ n, xs[e.1]? = some (some n, e.2) := by
  rw [inOrderOfArrival, List.mem_map]
  constructor
  · rintro ⟨a, ha, rfl⟩
    rw [(List.mergeSort_perm _ _).mem_iff, List.mem_filterMap] at ha
    obtain ⟨⟨⟨o, x⟩, i⟩, hx, ha⟩ := ha
    obtain ⟨n, rfl, rfl⟩ := Option.map_eq_some_iff.1 ha
    exact ⟨n, List.mem_zipIdx_iff_getElem?.1 hx⟩
  · rintro ⟨n, hn⟩
    refine ⟨(n, e), ?_, rfl⟩
    rw [(List.mergeSort_perm _ _).mem_iff, List.mem_filterMap]
    exact ⟨((some n, e.2), e.1), List.mem_zipIdx_iff_getElem?.2 hn, rfl⟩

/-- None of them is polled twice. -/
theorem nodup_inOrderOfArrival {ξ : Type u} (xs : List (Option Nat × ξ)) :
    ((inOrderOfArrival xs).map Prod.fst).Nodup := by
  rw [inOrderOfArrival]
  refine (((List.mergeSort_perm _ _).map Prod.snd).map Prod.fst).nodup_iff.2 ?_
  rw [List.map_map]
  refine List.pairwise_map.2 (List.Pairwise.filterMap _ ?_ (R := fun a b ↦ a.2 ≠ b.2) ?_)
  · intro a a' hne b hb b' hb'
    obtain ⟨n, -, rfl⟩ := Option.map_eq_some_iff.1 hb
    obtain ⟨n', -, rfl⟩ := Option.map_eq_some_iff.1 hb'
    exact hne
  · have hnodup : (xs.zipIdx.map Prod.snd).Nodup := by
      rw [List.zipIdx_map_snd]
      exact List.nodup_range'
    exact List.pairwise_map.1 hnodup

end Proc

/-- What is found in a list one of whose entries has been replaced. -/
theorem getElem?_set_eq_some_iff {ξ : Type u} {L : List ξ} {i j : Nat} {a r : ξ} (hi : i < L.length) :
    (L.set i a)[j]? = some r ↔ i = j ∧ a = r ∨ i ≠ j ∧ L[j]? = some r := by
  rw [List.getElem?_set]
  by_cases heq : i = j
  · rw [if_pos heq, if_pos hi, Option.some.injEq, and_iff_right heq]
    exact ⟨.inl, fun h ↦ h.elim id fun h ↦ absurd heq h.1⟩
  · rw [if_neg heq, and_iff_right heq]
    exact ⟨.inr, fun h ↦ h.elim (fun h ↦ absurd h.1 heq) id⟩

theorem Turns.later_ne (turns : Turns) : turns.later ≠ .woken true := by
  cases turns <;> exact nofun

namespace Family

variable {W : Family γ} {task : TaskId} {Γ Δ : Promises} {c d : Core γ}

/-! ## One poll after the other -/

/-- What holds while processes side by side are polled, those at some positions still to come. The
first state is the one before the first of these polls. -/
structure Batch (W : Family γ) (task : TaskId) (held : ChannelId → Prop) (n : Nat) (Γ : Promises)
    (c : Core γ) (m : Nat) (b : Nat → β) (todo : List Nat) (L : List (Polled γ (Except Fault β)))
    (k : Nat → Nat) (jobs : Multiset Job) (Δ : Promises) (d : Core γ) : Prop where
  length : L.length = m
  advance : W.Advance task held n Γ c jobs (∑ i ∈ Finset.range m, k i) Δ d
  own : ∀ {i : Nat} {q : Polled γ (Except Fault β)} {ch : ChannelId}, L[i]? = some q →
    q.rest.Awaits ch → held ch ∨ c.channels.next ≤ ch
  watches : ∀ {i : Nat} {q : Polled γ (Except Fault β)}, L[i]? = some q → d.Watches task q.rest
  disjoint : ∀ {i j : Nat} {q r : Polled γ (Except Fault β)} {ch : ChannelId}, L[i]? = some q →
    L[j]? = some r → q.rest.Awaits ch → r.rest.Awaits ch → i = j
  left : ∀ {i : Nat} {q : Polled γ (Except Fault β)}, L[i]? = some q → i ∉ todo →
    W.Leaves task Δ d (k i) (· = .ok (b i)) q
  polls : ∀ {i : Nat} {q : Polled γ (Except Fault β)}, L[i]? = some q → i ∈ todo →
    W.Polls task Δ (k i) q.rest (· = .ok (b i))
  news : ∀ {ch : ChannelId} {v : Parcel}, held ch → c.channels.slots[ch]? = some (.full v) →
    (∃ (i : Nat) (q : Polled γ (Except Fault β)), i ∈ todo ∧ L[i]? = some q ∧ q.rest.Awaits ch ∧
      d.channels.slots[ch]? = some (.full v)) ∨
    ∑ i ∈ Finset.range m, k i + Job.costs jobs < n

namespace Batch

variable {held : ChannelId → Prop} {n m : Nat} {b : Nat → β} {todo : List Nat}
  {L : List (Polled γ (Except Fault β))} {k : Nat → Nat} {jobs : Multiset Job} {i : Nat}
  {q : Polled γ (Except Fault β)}

/-- A channel that is awaited exists. -/
theorem lt_next (h : W.Batch task held n Γ c m b todo L k jobs Δ d) (hi : L[i]? = some q)
    {ch : ChannelId} (hch : q.rest.Awaits ch) : ch < d.channels.next := by
  rcases h.watches hi ch hch with hslot | ⟨v, hslot⟩
  · exact h.advance.fits.lt_next ch _ hslot
  · exact h.advance.fits.lt_next ch _ hslot

/-- None of the processes has failed. -/
theorem ne_error (h : W.Batch task held n Γ c m b todo L k jobs Δ d) (hi : L[i]? = some q)
    (e : Fault) : q ≠ .done (.error e) := by
  rintro rfl
  by_cases htodo : i ∈ todo
  · obtain ⟨_, _, _, -, hleaves, -⟩ :=
      h.polls hi htodo Δ d (.refl Δ) h.advance.fits (h.watches hi)
    exact nomatch hleaves
  · exact nomatch h.left hi htodo

/-- No two of the processes await the same channel. -/
theorem not_awaits (h : W.Batch task held n Γ c m b todo L k jobs Δ d) (hi : L[i]? = some q) {j : Nat}
    {r : Polled γ (Except Fault β)} (hne : i ≠ j) (hj : L[j]? = some r) {ch : ChannelId}
    (hch : r.rest.Awaits ch) : ¬ q.rest.Awaits ch :=
  fun hch' ↦ hne (h.disjoint hi hj hch' hch)

/-- The cost of one process is changed. -/
theorem exists_sum_update {i : Nat} (hi : i < m) (k : Nat → Nat) (n' : Nat) :
    ∃ others, ∑ j ∈ Finset.range m, k j = k i + others ∧
      ∑ j ∈ Finset.range m, Function.update k i n' j = n' + others :=
  have hmem := Finset.mem_range.2 hi
  ⟨_, Finset.sum_eq_add_sum_sdiff_singleton_of_mem hmem k, Finset.sum_update_of_mem hmem k n'⟩

/-- One more of the processes is polled. -/
theorem step (h : W.Batch task held n Γ c m b (i :: todo) L k jobs Δ d) (hi : L[i]? = some q)
    (hnot : i ∉ todo) :
    ∃ k' jobs' Δ', W.Batch task held n Γ c m b todo (L.set i (q.rest.poll task d).1) k' jobs' Δ'
      (q.rest.poll task d).2 := by
  obtain ⟨Θ, jobs', n', hadvance, hleaves, hown, hnews⟩ :=
    h.polls hi List.mem_cons_self Δ d (.refl Δ) h.advance.fits (h.watches hi)
  generalize q.rest.poll task d = polled at hadvance hleaves hown ⊢
  have hlt : i < L.length := (List.getElem?_eq_some_iff.1 hi).1
  obtain ⟨others, hsum, hsum'⟩ := exists_sum_update (h.length ▸ hlt) k n'
  have hget {j : Nat} {r : Polled γ (Except Fault β)} : (L.set i polled.1)[j]? = some r ↔
      i = j ∧ polled.1 = r ∨ i ≠ j ∧ L[j]? = some r := getElem?_set_eq_some_iff hlt
  -- A channel that is awaited now was awaited before or is new, and the others leave both alone.
  have hapart {j : Nat} {r : Polled γ (Except Fault β)} {ch : ChannelId} (hne : i ≠ j)
      (hj : L[j]? = some r) (hch : r.rest.Awaits ch) : ¬ polled.1.rest.Awaits ch := by
    intro hch'
    rcases hown ch hch' with hch' | hle
    · exact h.not_awaits hi hne hj hch hch'
    · exact absurd (h.lt_next hj hch) hle.not_gt
  have hframe {j : Nat} {r : Polled γ (Except Fault β)} {ch : ChannelId} (hne : i ≠ j)
      (hj : L[j]? = some r) (hch : r.rest.Awaits ch) :
      polled.2.channels.slots[ch]? = d.channels.slots[ch]? :=
    hadvance.frame ch (h.lt_next hj hch) (h.not_awaits hi hne hj hch)
  refine ⟨Function.update k i n', jobs + jobs', Θ, ?_⟩
  exact
    { length := (List.length_set ..).trans h.length
      advance := by
        rw [hsum']
        exact Advance.trans (hsum ▸ h.advance) (hadvance.add_cost others) fun ch ↦ h.own hi
      own := fun {j r ch} hj hch ↦ by
        rcases hget.1 hj with ⟨rfl, rfl⟩ | ⟨-, hj⟩
        · exact (hown ch hch).elim (h.own hi) fun hle ↦ .inr (h.advance.next.trans hle)
        · exact h.own hj hch
      watches := fun {j r} hj ↦ by
        rcases hget.1 hj with ⟨rfl, rfl⟩ | ⟨hne, hj⟩
        · exact hleaves.watches
        · intro ch hch
          rw [hframe hne hj hch]
          exact h.watches hj ch hch
      disjoint := fun {j j' r r' ch} hj hj' hch hch' ↦ by
        rcases hget.1 hj with ⟨rfl, rfl⟩ | ⟨hne, hj⟩
        · rcases hget.1 hj' with ⟨rfl, -⟩ | ⟨hne', hj'⟩
          · rfl
          · exact absurd hch (hapart hne' hj' hch')
        · rcases hget.1 hj' with ⟨rfl, rfl⟩ | ⟨-, hj'⟩
          · exact absurd hch' (hapart hne hj hch)
          · exact h.disjoint hj hj' hch hch'
      left := fun {j r} hj hjtodo ↦ by
        rcases hget.1 hj with ⟨rfl, rfl⟩ | ⟨hne, hj⟩
        · rw [Function.update_self]
          exact hleaves
        · rw [Function.update_of_ne (Ne.symm hne)]
          have hleft := h.left hj (List.not_mem_cons_of_ne_of_not_mem (Ne.symm hne) hjtodo)
          exact hleft.advance hadvance h.advance.fits fun ch ↦ h.not_awaits hi hne hj
      polls := fun {j r} hj hjtodo ↦ by
        rcases hget.1 hj with ⟨rfl, rfl⟩ | ⟨hne, hj⟩
        · exact absurd hjtodo hnot
        · rw [Function.update_of_ne (Ne.symm hne)]
          exact (h.polls hj (List.mem_cons_of_mem i hjtodo)).mono hadvance.grows
      news := fun {ch v} hch hfull ↦ by
        rw [hsum', Job.costs_add]
        have hcost := hadvance.cost
        rcases h.news hch hfull with ⟨j, r, hj, hr, hawaits, hfull'⟩ | hlt
        · rcases List.mem_cons.1 hj with rfl | hj
          · obtain rfl := Option.some.inj (hi.symm.trans hr)
            have hstrict := hnews ch v hawaits hfull'
            have htotal := h.advance.cost
            rw [hsum] at htotal
            exact .inr (by omega)
          · have hne : i ≠ j := fun heq ↦ hnot (heq ▸ hj)
            exact .inl ⟨j, r, hj, hget.2 (.inr ⟨hne, hr⟩), hawaits,
              (hframe hne hr hawaits).trans hfull'⟩
        · rw [hsum] at hlt
          exact .inr (by omega) }

/-- More may be left to be done in the beginning. -/
theorem relax (h : W.Batch task held n Γ c m b todo L k jobs Δ d) {n' : Nat} (hle : n ≤ n') :
    W.Batch task held n' Γ c m b todo L k jobs Δ d :=
  { h with
    advance :=
      { h.advance with
        cost := h.advance.cost.trans hle
        idle := fun hle' ↦ h.advance.idle (hle.trans hle') }
    news := fun hch hfull ↦ (h.news hch hfull).imp_right fun hlt ↦ hlt.trans_le hle }

/-- In the end the task may be woken, if some cost has been met. -/
theorem wake (h : W.Batch task held n Γ c m b [] L k jobs Δ d)
    (hlt : ∑ i ∈ Finset.range m, k i + Job.costs jobs < n) :
    W.Batch task held n Γ c m b [] L k jobs Δ (d.wake task) :=
  { h with
    advance := h.advance.wake hlt
    left := fun hi _ ↦ h.left hi List.not_mem_nil
    news := fun _ _ ↦ .inr hlt }

end Batch

/-! ## All polls -/

/-- A process as it is polled beside others. -/
def part (task : TaskId) (p : Proc γ (Except Fault β)) : Part γ β := ⟨p.poll task, abandon p⟩

theorem rest_ofProc (p : Proc γ α) : (Polled.ofProc p).rest = p := by
  cases p <;> rfl

/-- Of a crowd those are polled for which something has arrived. -/
theorem mem_inOrderOfArrival_zip {m : Nat} {parts : Fin m → Proc γ (Except Fault β)}
    {channels : Channels Parcel} {e : Nat × Part γ β} :
    e ∈ inOrderOfArrival (((List.ofFn parts).map fun p ↦ arrival? channels p).zip
        (List.ofFn fun i ↦ part task (parts i))) ↔
      ∃ i : Fin m, e = (↑i, part task (parts i)) ∧ ∃ ch ∈ channels.arrived, (parts i).Awaits ch := by
  have hget (i : Nat) (x : Option Nat × Part γ β) :
      (((List.ofFn parts).map fun p ↦ arrival? channels p).zip
        (List.ofFn fun i ↦ part task (parts i)))[i]? = some x ↔
          ∃ hi : i < m, x = (arrival? channels (parts ⟨i, hi⟩), part task (parts ⟨i, hi⟩)) := by
    rw [List.getElem?_zip_eq_some, List.getElem?_map, List.getElem?_ofFn, List.getElem?_ofFn]
    by_cases hi : i < m
    · simp [hi, Prod.ext_iff, eq_comm]
    · simp [hi]
  rw [mem_inOrderOfArrival_iff]
  constructor
  · rintro ⟨n, hn⟩
    obtain ⟨hi, heq⟩ := (hget ..).1 hn
    obtain ⟨hsome, hpart⟩ := Prod.mk.inj heq
    exact ⟨⟨e.1, hi⟩, Prod.ext rfl hpart, isSome_arrival?.1 (hsome ▸ rfl)⟩
  · rintro ⟨i, rfl, harrived⟩
    obtain ⟨n, hn⟩ := Option.isSome_iff_exists.1 (isSome_arrival?.2 harrived)
    exact ⟨n, (hget ..).2 ⟨i.2, by rw [hn]⟩⟩

theorem firstFailure?_eq_none {L : List (Polled γ (Except Fault β))}
    (h : ∀ q ∈ L, ∀ e, q ≠ .done (.error e)) : firstFailure? L = none := by
  induction L with
  | nil => rfl
  | cons q L ih =>
    rw [firstFailure?.eq_def]
    rcases q with (e | a) | p
    · exact absurd rfl (h _ List.mem_cons_self e)
    · exact ih fun q hq ↦ h q (List.mem_cons_of_mem _ hq)
    · rfl

/-- Processes that have not failed have all succeeded, or one of them waits. -/
theorem results_eq {L : List (Polled γ (Except Fault β))} {b : Nat → β}
    (h : ∀ (i : Nat) (q : Polled γ (Except Fault β)), L[i]? = some q →
      q = .done (.ok (b i)) ∨ q.isPending = true) :
    results L = some ((List.range L.length).map b) ∨
      results L = none ∧ ∃ (i : Nat) (q : Polled γ (Except Fault β)), L[i]? = some q ∧
        q.isPending = true := by
  induction L generalizing b with
  | nil => exact .inl rfl
  | cons q L ih =>
    rcases h 0 q rfl with rfl | hq
    · have hresults : results (.done (.ok (b 0)) :: L) = (results L).map (b 0 :: ·) := rfl
      rw [hresults]
      rcases ih (b := fun i ↦ b (i + 1)) fun i ↦ h (i + 1) with hall | ⟨hnone, i, q, hi, hq⟩
      · left
        rw [hall, List.length_cons, List.range_succ_eq_map, List.map_cons, List.map_map]
        rfl
      · exact .inr ⟨by rw [hnone]; rfl, i + 1, q, hi, hq⟩
    · refine .inr ⟨?_, 0, q, rfl, hq⟩
      cases q with
      | done => exact nomatch hq
      | pending => rfl

namespace Batch

variable {held : ChannelId → Prop} {n m : Nat} {b : Nat → β} {k : Nat → Nat} {jobs : Multiset Job}

/-- A few processes are all polled, by position. -/
theorem pollEach {ps : List (Proc γ (Except Fault β))} {polled : List (Polled γ (Except Fault β))}
    (h : W.Batch task held n Γ c m b (List.range' polled.length ps.length)
      (polled ++ ps.map .ofProc) k jobs Δ d) :
    ∃ L k' jobs' Δ' d', pollEach polled (ps.map (part task)) d = (.ok L, d') ∧
      W.Batch task held n Γ c m b [] L k' jobs' Δ' d' := by
  induction ps generalizing polled k jobs Δ d with
  | nil =>
    rw [List.map_nil, List.append_nil] at h
    exact ⟨polled, k, jobs, Δ, d, rfl, h⟩
  | cons p ps ih =>
    have hget : (polled ++ (p :: ps).map .ofProc)[polled.length]? = some (.ofProc p) := by
      rw [List.getElem?_append_right le_rfl, Nat.sub_self]
      rfl
    rw [List.length_cons, List.range'_succ] at h
    obtain ⟨k', jobs', Δ', hstep⟩ := h.step hget fun hmem ↦ by
      have hlt := (List.mem_range'_1.1 hmem).1
      omega
    rw [rest_ofProc, List.map_cons, List.set_append_right _ _ le_rfl, Nat.sub_self,
      List.set_cons_zero, List.append_cons] at hstep
    have hlength : polled.length + 1 = (polled ++ [(p.poll task d).1]).length := by
      rw [List.length_append, List.length_singleton]
    rw [hlength] at hstep
    have hne : ∀ e, (p.poll task d).1 ≠ .done (.error e) := by
      refine fun e ↦ hstep.ne_error (i := polled.length) ?_ e
      rw [List.append_assoc, List.getElem?_append_right le_rfl, Nat.sub_self]
      rfl
    have hpoll : Proc.pollEach polled ((p :: ps).map (part task)) d =
        Proc.pollEach (polled ++ [(p.poll task d).1]) (ps.map (part task)) (p.poll task d).2 := by
      rw [List.map_cons, Proc.pollEach, part]
      dsimp only
      generalize p.poll task d = polled' at hne
      obtain ⟨(e | a) | p', d'⟩ := polled'
      · exact absurd rfl (hne e)
      · rfl
      · rfl
    rw [hpoll]
    exact ih hstep

/-- Of a crowd some processes are polled, in any order. The task is woken at most if there is one
among them. -/
theorem pollWoken {todo : List (Nat × Part γ β)} {L : List (Polled γ (Except Fault β))}
    (h : W.Batch task held n Γ c m b (todo.map Prod.fst) L k jobs Δ d)
    (hnodup : (todo.map Prod.fst).Nodup)
    (hparts : ∀ e ∈ todo, ∃ q, L[e.1]? = some q ∧ e.2 = part task q.rest) (waits : Nat) :
    ∃ L' k' jobs' Δ' d', (Proc.pollWoken task L waits todo d = (.ok L', d') ∨
        (0 < waits ∨ todo ≠ []) ∧ Proc.pollWoken task L waits todo d = (.ok L', d'.wake task)) ∧
      W.Batch task held n Γ c m b [] L' k' jobs' Δ' d' := by
  induction todo generalizing L k jobs Δ d waits with
  | nil =>
    refine ⟨L, k, jobs, Δ, d, ?_, h⟩
    rw [Proc.pollWoken]
    split
    · rename_i hwaits
      exact .inr ⟨.inl hwaits.1, rfl⟩
    · exact .inl rfl
  | cons e todo ih =>
    obtain ⟨i, p⟩ := e
    obtain ⟨hi, hnodup'⟩ := List.nodup_cons.1 hnodup
    obtain ⟨q, hq, rfl : p = part task q.rest⟩ := hparts (i, p) List.mem_cons_self
    obtain ⟨k', jobs', Δ', hstep⟩ := h.step hq hi
    have hlt : i < L.length := (List.getElem?_eq_some_iff.1 hq).1
    have hne : ∀ r ∈ L.set i (q.rest.poll task d).1, ∀ e, r ≠ .done (.error e) := by
      intro r hr
      obtain ⟨j, hj⟩ := List.mem_iff_getElem?.1 hr
      exact hstep.ne_error hj
    have hparts' : ∀ e ∈ todo, ∃ q', (L.set i (q.rest.poll task d).1)[e.1]? = some q' ∧
        e.2 = part task q'.rest := by
      intro e he
      have hne : i ≠ e.1 := fun heq ↦ hi (List.mem_map.2 ⟨e, he, heq.symm⟩)
      rw [List.getElem?_set_ne hne]
      exact hparts e (List.mem_cons_of_mem _ he)
    obtain ⟨waits', hpoll⟩ : ∃ waits', Proc.pollWoken task L waits ((i, part task q.rest) :: todo) d =
        Proc.pollWoken task (L.set i (q.rest.poll task d).1) waits' todo (q.rest.poll task d).2 := by
      rw [Proc.pollWoken, part]
      dsimp only
      generalize q.rest.poll task d = polled at hne
      obtain ⟨a | p', d'⟩ := polled
      · dsimp only
        rw [firstFailure?_eq_none hne]
        exact ⟨0, rfl⟩
      · exact ⟨waits + 1, rfl⟩
    obtain ⟨L', k'', jobs'', Δ'', d', hpolls, hbatch⟩ := ih hstep hnodup' hparts' waits'
    rw [hpoll]
    refine ⟨L', k'', jobs'', Δ'', d', ?_, hbatch⟩
    exact hpolls.imp_right fun hwoken ↦ ⟨.inr (List.cons_ne_nil _ _), hwoken.2⟩

/-- Before the first poll. -/
theorem start {turns : Turns} {parts : Fin m → Proc γ (Except Fault β)}
    {next : Except Fault (List β) → Proc γ α} {todo : List Nat} (hfits : W.Fits Γ c)
    (hwatches : c.Watches task (.together turns parts next))
    (hdisjoint : ∀ ch i j, (parts i).Awaits ch → (parts j).Awaits ch → i = j)
    (hpolls : ∀ i : Fin m, W.Polls task Γ (k i) (parts i) (· = .ok (b i)))
    (hleft : ∀ i : Fin m, ↑i ∉ todo →
      W.Leaves task Γ c (k i) (· = .ok (b i)) (.ofProc (parts i)))
    (hnews : ∀ (i : Fin m) ch v, (parts i).Awaits ch → c.channels.slots[ch]? = some (.full v) →
      ↑i ∈ todo) :
    W.Batch task (Proc.together turns parts next).Awaits (∑ i ∈ Finset.range m, k i) Γ c m b todo
      ((List.ofFn parts).map .ofProc) k 0 Γ c := by
  have hget {i : Nat} {q : Polled γ (Except Fault β)}
      (hi : ((List.ofFn parts).map .ofProc)[i]? = some q) :
      ∃ hlt : i < m, q = .ofProc (parts ⟨i, hlt⟩) := by
    rw [List.getElem?_map, List.getElem?_ofFn] at hi
    split at hi
    · rename_i hlt
      exact ⟨hlt, (Option.some.inj hi).symm⟩
    · exact nomatch hi
  exact
    { length := (List.length_map ..).trans List.length_ofFn
      advance := .refl hfits
      own := fun {i q ch} hi hch ↦ by
        obtain ⟨hlt, rfl⟩ := hget hi
        rw [rest_ofProc] at hch
        exact .inl ⟨_, hch⟩
      watches := fun {i q} hi ch hch ↦ by
        obtain ⟨hlt, rfl⟩ := hget hi
        rw [rest_ofProc] at hch
        exact hwatches ch ⟨_, hch⟩
      disjoint := fun {i j q r ch} hi hj hch hch' ↦ by
        obtain ⟨hlt, rfl⟩ := hget hi
        obtain ⟨hlt', rfl⟩ := hget hj
        rw [rest_ofProc] at hch hch'
        exact congrArg Fin.val (hdisjoint ch _ _ hch hch')
      left := fun {i q} hi htodo ↦ by
        obtain ⟨hlt, rfl⟩ := hget hi
        exact hleft ⟨i, hlt⟩ htodo
      polls := fun {i q} hi _ ↦ by
        obtain ⟨hlt, rfl⟩ := hget hi
        rw [rest_ofProc]
        exact hpolls ⟨i, hlt⟩
      news := by
        rintro ch v ⟨i, hi⟩ hfull
        refine .inl ⟨i, .ofProc (parts i), hnews i ch v hi hfull, ?_, (rest_ofProc _).symm ▸ hi,
          hfull⟩
        rw [List.getElem?_map, List.getElem?_ofFn, dif_pos i.2]
        rfl }

section

variable {turns : Turns} {parts : Fin m → Proc γ (Except Fault β)}
  {next : Except Fault (List β) → Proc γ α}

/-- A crowd is polled in any order. -/
theorem pollCrowd {todo : List (Nat × Part γ β)} (hfits : W.Fits Γ c)
    (hwatches : c.Watches task (.together turns parts next))
    (hdisjoint : ∀ ch i j, (parts i).Awaits ch → (parts j).Awaits ch → i = j)
    (hpolls : ∀ i : Fin m, W.Polls task Γ (k i) (parts i) (· = .ok (b i)))
    (hnodup : (todo.map Prod.fst).Nodup)
    (hparts : ∀ e ∈ todo, (List.ofFn fun i ↦ part task (parts i))[e.1]? = some e.2)
    (hleft : ∀ i : Fin m, ↑i ∉ todo.map Prod.fst →
      W.Leaves task Γ c (k i) (· = .ok (b i)) (.ofProc (parts i)))
    (hnews : ∀ (i : Fin m) ch v, (parts i).Awaits ch → c.channels.slots[ch]? = some (.full v) →
      ↑i ∈ todo.map Prod.fst) :
    ∃ L k' jobs Δ d, (Proc.pollWoken task ((List.ofFn parts).map .ofProc) 0 todo c = (.ok L, d) ∨
        todo ≠ [] ∧ Proc.pollWoken task ((List.ofFn parts).map .ofProc) 0 todo c =
          (.ok L, d.wake task)) ∧
      W.Batch task (Proc.together turns parts next).Awaits (∑ i ∈ Finset.range m, k i) Γ c m b []
        L k' jobs Δ d := by
  have hstart := start hfits hwatches hdisjoint hpolls hleft hnews
  obtain ⟨L, k', jobs, Δ, d, hpoll, hbatch⟩ := hstart.pollWoken hnodup (fun e he ↦ by
    have he := hparts e he
    rw [List.getElem?_ofFn] at he
    split at he
    · rename_i hlt
      refine ⟨.ofProc (parts ⟨e.1, hlt⟩), ?_, ?_⟩
      · rw [List.getElem?_map, List.getElem?_ofFn, dif_pos hlt]
        rfl
      · rw [rest_ofProc]
        exact (Option.some.inj he).symm
    · exact nomatch he) 0
  refine ⟨L, k', jobs, Δ, d, hpoll.imp_right fun hwoken ↦ ⟨?_, hwoken.2⟩, hbatch⟩
  exact hwoken.1.resolve_left (Nat.lt_irrefl 0)

/-- A crowd is polled for the first time, when all of it is. The poll that it asks for by waking its
task has been paid for. -/
theorem pollFirst (hfits : W.Fits Γ c) (hwatches : c.Watches task (.together turns parts next))
    (hdisjoint : ∀ ch i j, (parts i).Awaits ch → (parts j).Awaits ch → i = j)
    (hpolls : ∀ i : Fin m, W.Polls task Γ (k i) (parts i) (· = .ok (b i))) :
    ∃ L k' jobs Δ d, Proc.pollWoken task ((List.ofFn parts).map .ofProc) 0
        ((List.ofFn fun i ↦ part task (parts i)).zipIdx.map Prod.swap) c = (.ok L, d) ∧
      W.Batch task (Proc.together turns parts next).Awaits (∑ i ∈ Finset.range m, k i + 1) Γ c m b
        [] L k' jobs Δ d := by
  have htodo : ((List.ofFn fun i ↦ part task (parts i)).zipIdx.map Prod.swap).map Prod.fst =
      List.range' 0 m := by
    rw [List.map_map]
    exact (List.zipIdx_map_snd ..).trans (by rw [List.length_ofFn])
  have hmem (i : Fin m) : ↑i ∈
      ((List.ofFn fun i ↦ part task (parts i)).zipIdx.map Prod.swap).map Prod.fst := by
    rw [htodo]
    exact List.mem_range'_1.2 ⟨Nat.zero_le _, by omega⟩
  have hparts : ∀ e ∈ (List.ofFn fun i ↦ part task (parts i)).zipIdx.map Prod.swap,
      (List.ofFn fun i ↦ part task (parts i))[e.1]? = some e.2 := by
    intro e he
    obtain ⟨⟨p, i⟩, hp, rfl⟩ := List.mem_map.1 he
    exact List.mem_zipIdx_iff_getElem?.1 hp
  obtain ⟨L, k', jobs, Δ, d, hpoll, hbatch⟩ := pollCrowd hfits hwatches hdisjoint hpolls
    (htodo ▸ List.nodup_range') hparts (fun i hi ↦ absurd (hmem i) hi) fun i _ _ _ _ ↦ hmem i
  have hpaid := hbatch.relax (Nat.le_succ _)
  rcases hpoll with hpoll | ⟨-, hpoll⟩
  · exact ⟨L, k', jobs, Δ, d, hpoll, hpaid⟩
  · exact ⟨L, k', jobs, Δ, _, hpoll, hpaid.wake (Nat.lt_succ_of_le hbatch.advance.cost)⟩

/-- A crowd is polled again. Something has arrived for every process that is polled. -/
theorem pollLater (hfits : W.Fits Γ c) (hwatches : c.Watches task (.together turns parts next))
    (hdisjoint : ∀ ch i j, (parts i).Awaits ch → (parts j).Awaits ch → i = j)
    (hpolls : ∀ i : Fin m, W.Polls task Γ (k i) (parts i) (· = .ok (b i)))
    (hwaits : ∀ i : Fin m, W.Waits Γ (k i) (parts i) (· = .ok (b i))) :
    ∃ L k' jobs Δ d, Proc.pollWoken task ((List.ofFn parts).map .ofProc) 0
        (inOrderOfArrival (((List.ofFn parts).map fun p ↦ arrival? c.channels p).zip
          (List.ofFn fun i ↦ part task (parts i)))) c = (.ok L, d) ∧
      W.Batch task (Proc.together turns parts next).Awaits (∑ i ∈ Finset.range m, k i) Γ c m b [] L
        k' jobs Δ d := by
  generalize htodo : inOrderOfArrival (((List.ofFn parts).map fun p ↦ arrival? c.channels p).zip
    (List.ofFn fun i ↦ part task (parts i))) = todo
  have harrived {i : Fin m} {ch : ChannelId} (hch : (parts i).Awaits ch) :
      ch ∈ c.channels.arrived ↔ ∃ v, c.channels.slots[ch]? = some (.full v) := by
    obtain ⟨env, henv⟩ := (hwaits i).promised hch
    exact hfits.arrived ch env henv
  have hmem {e : Nat × Part γ β} : e ∈ todo ↔ ∃ i : Fin m, e = (↑i, part task (parts i)) ∧
      ∃ ch v, (parts i).Awaits ch ∧ c.channels.slots[ch]? = some (.full v) := by
    rw [← htodo, mem_inOrderOfArrival_zip]
    refine exists_congr fun i ↦ and_congr_right fun _ ↦ exists_congr fun ch ↦ ?_
    rw [exists_and_left, and_comm]
    exact and_congr_right harrived
  have hpolled {i : Fin m} {ch : ChannelId} {v : Parcel} (hch : (parts i).Awaits ch)
      (hfull : c.channels.slots[ch]? = some (.full v)) : ↑i ∈ todo.map Prod.fst :=
    List.mem_map.2 ⟨_, hmem.2 ⟨i, rfl, ch, v, hch, hfull⟩, rfl⟩
  have hparts : ∀ e ∈ todo, (List.ofFn fun i ↦ part task (parts i))[e.1]? = some e.2 := by
    intro e he
    obtain ⟨i, rfl, -⟩ := hmem.1 he
    rw [List.getElem?_ofFn, dif_pos i.2]
  have hleft : ∀ i : Fin m, ↑i ∉ todo.map Prod.fst →
      W.Leaves task Γ c (k i) (· = .ok (b i)) (.ofProc (parts i)) := by
    intro i hi
    refine .of_waits (hwaits i) fun ch hch ↦ (hwatches ch ⟨i, hch⟩).resolve_right ?_
    rintro ⟨v, hfull⟩
    exact hi (hpolled hch hfull)
  obtain ⟨L, k', jobs, Δ, d, hpoll, hbatch⟩ := pollCrowd hfits hwatches hdisjoint hpolls
    (htodo ▸ nodup_inOrderOfArrival _) hparts hleft fun i _ _ hch hfull ↦ hpolled hch hfull
  rcases hpoll with hpoll | ⟨hne, hpoll⟩
  · exact ⟨L, k', jobs, Δ, d, hpoll, hbatch⟩
  · refine ⟨L, k', jobs, Δ, _, hpoll, hbatch.wake ?_⟩
    obtain ⟨e, he⟩ := List.exists_mem_of_ne_nil _ hne
    obtain ⟨i, -, ch, v, hch, hfull⟩ := hmem.1 he
    exact (hbatch.news ⟨i, hch⟩ hfull).resolve_left fun ⟨_, _, hi, _⟩ ↦ List.not_mem_nil hi

/-- Whichever way processes side by side are polled, none fails and none is polled in vain. -/
theorem pollParts (hfits : W.Fits Γ c) (hwatches : c.Watches task (.together turns parts next))
    (hdisjoint : ∀ ch i j, (parts i).Awaits ch → (parts j).Awaits ch → i = j)
    (hpolls : ∀ i : Fin m, W.Polls task Γ (k i) (parts i) (· = .ok (b i)))
    (hwaits : turns = .woken false → ∀ i : Fin m, W.Waits Γ (k i) (parts i) (· = .ok (b i))) :
    ∃ L k' jobs Δ d, Proc.pollParts task turns (List.ofFn parts)
        (List.ofFn fun i ↦ part task (parts i)) c = (.ok L, d) ∧
      W.Batch task (Proc.together turns parts next).Awaits
        (∑ i ∈ Finset.range m, k i + turns.bill) Γ c m b [] L k' jobs Δ d := by
  cases turns with
  | each =>
    have hmem (i : Fin m) : ↑i ∈ List.range' 0 m := List.mem_range'_1.2 ⟨Nat.zero_le _, by omega⟩
    have hstart := start hfits hwatches hdisjoint hpolls (fun i hi ↦ absurd (hmem i) hi)
      fun i _ _ _ _ ↦ hmem i
    have hofFn : List.ofFn (fun i ↦ part task (parts i)) = (List.ofFn parts).map (part task) := by
      rw [List.map_ofFn]
      rfl
    have hall : List.range' 0 m = List.range' 0 (List.ofFn parts).length := by
      rw [List.length_ofFn]
    rw [hall] at hstart
    rw [hofFn]
    exact pollEach hstart
  | woken first =>
    cases first with
    | true => exact pollFirst hfits hwatches hdisjoint hpolls
    | false => exact pollLater hfits hwatches hdisjoint hpolls (hwaits rfl)

end

end Batch

/-! ## Polling what delivers -/

/-- When all polls are done, the processes wait together if one of them does. -/
theorem Batch.leaves {held : ChannelId → Prop} {n m l : Nat} {b : Nat → β}
    {L : List (Polled γ (Except Fault β))} {k : Nat → Nat} {jobs : Multiset Job}
    (hbatch : W.Batch task held n Γ c m b [] L k jobs Δ d) {turns : Turns}
    (hturns : turns ≠ .woken true) {i : Nat} {q : Polled γ (Except Fault β)} (hi : L[i]? = some q)
    (hq : q.isPending = true) {next : Except Fault (List β) → Proc γ α} {P : α → Prop}
    (hnext : W.Delivers l (next (.ok ((List.range m).map b))) P) :
    W.Leaves task Δ d (l + ∑ i ∈ Finset.range m, k i) P
      (.pending (.together turns (fun i : Fin L.length ↦ (L.get i).rest) next)) := by
  have hget (i : Fin L.length) : L[(i : Nat)]? = some (L.get i) := List.getElem?_eq_getElem i.2
  have hleft (i : Fin L.length) := hbatch.left (hget i) List.not_mem_nil
  have hsome : ∃ ch, ∃ i : Fin L.length, (L.get i).rest.Awaits ch := by
    obtain ⟨hlt, rfl⟩ := List.getElem?_eq_some_iff.1 hi
    obtain ⟨ch, hch⟩ := (hleft ⟨i, hlt⟩).exists_awaits hq
    exact ⟨ch, ⟨i, hlt⟩, hch⟩
  refine ⟨?_, hsome, fun ch ⟨i, hch⟩ ↦ (hleft i).slot hch⟩
  rw [← hbatch.length] at hnext ⊢
  refine .together hturns hsome (fun ch i j hch hch' ↦ ?_) k b (fun i ↦ ?_) hnext
  · exact Fin.ext (hbatch.disjoint (hget i) (hget j) hch hch')
  · exact (hleft i).waits

/-- Processes side by side have all succeeded in the end, or wait together. -/
theorem Polls.together {n m : Nat} {turns : Turns} {parts : Fin m → Proc γ (Except Fault β)}
    {next : Except Fault (List β) → Proc γ α} {P : α → Prop} {k : Nat → Nat} {b : Nat → β}
    (hdisjoint : ∀ ch i j, (parts i).Awaits ch → (parts j).Awaits ch → i = j)
    (hparts : ∀ i : Fin m, W.Polls task Γ (k i) (parts i) (· = .ok (b i)))
    (hwaits : turns = .woken false → ∀ i : Fin m, W.Waits Γ (k i) (parts i) (· = .ok (b i)))
    (hnext : W.Delivers n (next (.ok ((List.range m).map b))) P)
    (h : W.Polls task Γ n (next (.ok ((List.range m).map b))) P) :
    W.Polls task Γ (n + ∑ i ∈ Finset.range m, k i + turns.bill) (.together turns parts next) P := by
  intro Δ c hgrows hfits hwatches
  obtain ⟨L, k', jobs, Θ, d, hpoll, hbatch⟩ := Batch.pollParts hfits hwatches hdisjoint
    (fun i ↦ (hparts i).mono hgrows) fun hturns i ↦ (hwaits hturns i).mono hgrows
  have hadvance : W.Advance task (Proc.together turns parts next).Awaits
      (n + ∑ i ∈ Finset.range m, k i + turns.bill) Δ c jobs (n + ∑ i ∈ Finset.range m, k' i) Θ d := by
    have hadvance := hbatch.advance.add_cost n
    rwa [add_right_comm, add_comm _ n, add_comm _ n] at hadvance
  have hnews : ∀ ch v, (Proc.together turns parts next).Awaits ch →
      c.channels.slots[ch]? = some (.full v) → n + ∑ i ∈ Finset.range m, k' i + Job.costs jobs <
        n + ∑ i ∈ Finset.range m, k i + turns.bill := by
    intro ch v hch hfull
    rcases hbatch.news hch hfull with ⟨i, q, hi, -⟩ | hlt
    · exact absurd hi List.not_mem_nil
    · omega
  have hresults : ∀ (i : Nat) (q : Polled γ (Except Fault β)), L[i]? = some q →
      q = .done (.ok (b i)) ∨ q.isPending = true := by
    intro i q hi
    have hleft := hbatch.left hi List.not_mem_nil
    cases q with
    | done r => exact .inl (congrArg Polled.done hleft)
    | pending p => exact .inr rfl
  have hpoll : Proc.pollParts task turns (List.ofFn parts)
      (List.ofFn fun i ↦ ⟨poll task (parts i), abandon (parts i)⟩) c = (.ok L, d) := hpoll
  rcases results_eq hresults with hall | ⟨hnone, i, q, hi, hq⟩
  · rw [hbatch.length] at hall
    have hgoes : (Proc.together turns parts next).poll task c =
        (next (.ok ((List.range m).map b))).poll task d := by
      rw [Proc.poll, hpoll]
      dsimp only
      rw [hall]
    refine h.after hnext.not_awaits (hgrows.trans hbatch.advance.grows)
      (hadvance.drop (Nat.le_add_right n _)) (fun ch v hch hfull ↦ ?_) hgoes
    have hlt := hnews ch v hch hfull
    omega
  · have hwait : (Proc.together turns parts next).poll task c =
        (.pending (.together turns.later (fun i : Fin L.length ↦ L[i].rest) next), d) := by
      rw [Proc.poll, hpoll]
      dsimp only
      rw [hnone]
    rw [PollsAt, hwait]
    refine ⟨Θ, jobs, _, hadvance, hbatch.leaves (Turns.later_ne turns) hi hq hnext, ?_, hnews⟩
    rintro ch ⟨i, hch⟩
    exact hbatch.own (List.getElem?_eq_getElem i.2) hch

theorem Delivers.polls {n : Nat} {p : Proc γ α} {P : α → Prop} (h : W.Delivers n p P)
    (task : TaskId) (Γ : Promises) : W.Polls task Γ n p P := by
  induction h with
  | done h => exact .done h
  | quiet hop h ih => exact .quiet hop h ih
  | ask hunit howner hjob rest hnext h => exact .ask hunit howner hjob hnext h
  | together hturns k b hparts h ihparts ih =>
    exact .together (fun ch i _ hch ↦ absurd hch ((hparts i).not_awaits ch)) ihparts
      (fun heq ↦ absurd heq hturns) h ih

theorem Waits.polls {n : Nat} {p : Proc γ α} {P : α → Prop} (h : W.Waits Γ n p P)
    (task : TaskId) : W.Polls task Γ n p P := by
  induction h with
  | done h => exact .done h
  | await hc h => exact .await hc h fun a ha ↦ (h a ha).polls task Γ
  | @together n m _ _ turns parts next P hturns hsome hdisjoint k b hparts h ihparts =>
    have hbill : turns.bill = 0 := by
      rcases turns with _ | (_ | _)
      · rfl
      · rfl
      · exact absurd rfl hturns
    have hpolls : W.Polls task Γ (n + ∑ i ∈ Finset.range m, k i + turns.bill)
        (.together turns parts next) P :=
      .together hdisjoint ihparts (fun _ ↦ hparts) h (h.polls task Γ)
    rwa [hbill, add_zero] at hpolls

end Family

end ScopeGraphs
