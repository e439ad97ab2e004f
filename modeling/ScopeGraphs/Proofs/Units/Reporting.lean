import ScopeGraphs.Proofs.Units.Sharing
import ScopeGraphs.Wait.Graph

/-!
# What a unit reports about its waits

What a unit waits for is kept twice: the unit has a bag of tokens, and the wait-for graph has an
edge for each of them. The unit changes its bag at once and leaves behind a list of events, from
which the graph is brought up to date later. `WaitGraph.Mirrors` says that the edges of a unit are
those of a bag, each as often as its token, and `Turn.Reports` that the events left behind in the
course of a go take every graph that mirrors the bag before to one that mirrors the bag after. Units
that are added wait for nothing.

## Why the events are not compared with the difference of the bags

A token may be raised and granted again in one go, and a unit that is given up reports all its
tokens as granted at once. What the events come to is the same in all cases, and only that is used.
-/

namespace ScopeGraphs

variable {γ α : Type}

/-! ## Graphs and bags -/

namespace WaitGraph

/-- The graph when a unit has reported a change to what it waits for. -/
def note (g : WaitGraph Token) (waiter : UnitId) : WaitEvent → WaitGraph Token
  | .raised token holder => g.add ⟨waiter, holder, token⟩
  | .granted token holder => (g.remove? ⟨waiter, holder, token⟩).getD g

/-- The edges of a unit are the tokens of a bag, each as often. -/
def Mirrors (g : WaitGraph Token) (waiter : UnitId) (b : TokenBag) : Prop :=
  ∀ token holder, g.edges.count ⟨waiter, holder, token⟩ = b.count token holder

variable {g : WaitGraph Token} {u v : UnitId} {b b' : TokenBag} {token : Token} {holder : UnitId}
  {e : WaitEdge Token}

theorem edges_note_granted :
    (g.note u (.granted token holder)).edges = g.edges.erase ⟨u, holder, token⟩ := by
  rw [note, remove?]
  split
  · rfl
  · rename_i hnone
    exact (List.erase_of_not_mem hnone).symm

/-- Reports of one unit leave the edges of others alone. -/
theorem count_note_of_ne (hne : e.waiter ≠ u) (event : WaitEvent) :
    (g.note u event).edges.count e = g.edges.count e := by
  cases event with
  | raised token holder =>
    have hother : e ∉ [⟨u, holder, token⟩] := fun hmem ↦ hne (by rw [List.mem_singleton.1 hmem])
    rw [note, add, List.count_append, List.count_eq_zero.2 hother, Nat.add_zero]
  | granted token holder =>
    rw [edges_note_granted]
    exact List.count_erase_of_ne fun heq ↦ hne (by rw [heq])

theorem mem_edges_note {event : WaitEvent} (h : e ∈ (g.note u event).edges) :
    e.waiter = u ∨ e ∈ g.edges := by
  cases event with
  | raised token holder =>
    obtain hold | hnew := List.mem_append.1 h
    · exact .inr hold
    · exact .inl (by rw [List.mem_singleton.1 hnew])
  | granted token holder =>
    rw [edges_note_granted] at h
    exact .inr (List.mem_of_mem_erase h)

theorem count_foldl_note_of_ne (hne : e.waiter ≠ u) (es : List WaitEvent) :
    (es.foldl (note · u) g).edges.count e = g.edges.count e := by
  induction es generalizing g with
  | nil => rfl
  | cons event es ih => exact ih.trans (count_note_of_ne hne event)

theorem mem_edges_foldl_note {es : List WaitEvent} (h : e ∈ (es.foldl (note · u) g).edges) :
    e.waiter = u ∨ e ∈ g.edges := by
  induction es generalizing g with
  | nil => exact .inr h
  | cons event es ih => exact (ih h).elim .inl mem_edges_note

theorem count_foldl_granted (es : List (Token × UnitId)) (g : WaitGraph Token) :
    ((es.map fun e ↦ WaitEvent.granted e.1 e.2).foldl (note · u) g).edges.count
      ⟨u, holder, token⟩ = g.edges.count ⟨u, holder, token⟩ - es.count (token, holder) := by
  induction es generalizing g with
  | nil => rfl
  | cons e es ih =>
    -- Truncated subtraction does not matter here: both sides stop at zero.
    rw [List.map_cons, List.foldl_cons, ih, edges_note_granted, List.count_erase, List.count_cons,
      Nat.sub_sub, Nat.add_comm]
    simp only [beq_iff_eq, WaitEdge.mk.injEq, true_and, Prod.ext_iff, and_comm]

namespace Mirrors

theorem raised (h : g.Mirrors u b) (token : Token) (holder : UnitId) :
    (g.note u (.raised token holder)).Mirrors u (b.add token holder) := by
  intro token' holder'
  rw [note, add, List.count_append, List.count_singleton, h, TokenBag.count_add, Nat.add_comm]
  simp only [beq_iff_eq, WaitEdge.mk.injEq, true_and, Prod.mk.injEq, and_comm]

theorem granted (h : g.Mirrors u b) (hb : b.remove? token holder = some b') :
    (g.note u (.granted token holder)).Mirrors u b' := by
  intro token' holder'
  rw [edges_note_granted, List.count_erase, h, TokenBag.count_of_remove? hb]
  simp only [beq_iff_eq, WaitEdge.mk.injEq, true_and, Prod.mk.injEq, and_comm]

/-- When all tokens of a bag are granted, no edge is left. -/
theorem forgotten (h : g.Mirrors u b) :
    ((b.entries.map fun e ↦ WaitEvent.granted e.1 e.2).foldl (note · u) g).Mirrors u .empty := by
  intro token holder
  rw [count_foldl_granted, h, TokenBag.count_entries, Nat.sub_self, TokenBag.count_empty]

/-- The edges of a unit are the occurrences in its bag. -/
theorem perm_edges (h : g.Mirrors u b) :
    ((g.edges.filter fun e ↦ e.waiter = u).map fun e ↦ (e.resource, e.holder)).Perm b.entries := by
  rw [List.perm_iff_count]
  rintro ⟨token, holder⟩
  rw [TokenBag.count_entries, ← h]
  induction g.edges with
  | nil => rfl
  | cons e es ih =>
    obtain ⟨waiter, holder', token'⟩ := e
    rw [List.count_cons, List.filter_cons]
    by_cases hwaiter : waiter = u
    · rw [if_pos (decide_eq_true hwaiter), List.map_cons, List.count_cons, ih]
      simp only [beq_iff_eq, WaitEdge.mk.injEq, Prod.mk.injEq, hwaiter, true_and, and_comm]
    · rw [if_neg (by simpa using hwaiter), ih, if_neg, Nat.add_zero]
      simp [hwaiter]

end Mirrors

end WaitGraph

/-! ## Reports -/

namespace Turn

/-- The events left behind in the course of a go keep the graph of waits up to date. -/
structure Reports (t t' : Turn γ) : Prop where
  id : t'.unit.id = t.unit.id
  waits : ∃ es, t'.effects.waits = t.effects.waits ++ es ∧
    ∀ g : WaitGraph Token, g.Mirrors t.unit.id t.unit.waits →
      (es.foldl (WaitGraph.note · t.unit.id) g).Mirrors t.unit.id t'.unit.waits
  newUnits : ∃ us, t'.effects.newUnits = t.effects.newUnits ++ us ∧ ∀ u ∈ us, u.waits = .empty

namespace Reports

variable {t t' t'' : Turn γ}

/-- Changes that concern neither waits nor new units. -/
theorem of_eq (hid : t'.unit.id = t.unit.id) (hbag : t'.unit.waits = t.unit.waits)
    (hwaits : t'.effects.waits = t.effects.waits)
    (hnew : t'.effects.newUnits = t.effects.newUnits) : t.Reports t' where
  id := hid
  waits := ⟨[], by rw [hwaits, List.append_nil], fun g hg ↦ by rwa [hbag]⟩
  newUnits := ⟨[], by rw [hnew, List.append_nil], List.forall_mem_nil _⟩

theorem refl (t : Turn γ) : t.Reports t := .of_eq rfl rfl rfl rfl

theorem trans (h : t.Reports t') (h' : t'.Reports t'') : t.Reports t'' where
  id := h'.id.trans h.id
  waits := by
    obtain ⟨es, hes, hmirrors⟩ := h.waits
    obtain ⟨es', hes', hmirrors'⟩ := h'.waits
    refine ⟨es ++ es', by rw [hes', hes, List.append_assoc], fun g hg ↦ ?_⟩
    rw [List.foldl_append]
    rw [h.id] at hmirrors'
    exact hmirrors' _ (hmirrors g hg)
  newUnits := by
    obtain ⟨us, hus, hblank⟩ := h.newUnits
    obtain ⟨us', hus', hblank'⟩ := h'.newUnits
    refine ⟨us ++ us', by rw [hus', hus, List.append_assoc], fun u hu ↦ ?_⟩
    exact (List.mem_append.1 hu).elim (hblank u) (hblank' u)

theorem waitFor (t : Turn γ) (token : Token) (holder : UnitId) :
    t.Reports (t.waitFor token holder) where
  id := rfl
  waits := ⟨[.raised token holder], rfl, fun _ hg ↦ hg.raised token holder⟩
  newUnits := ⟨[], (List.append_nil _).symm, List.forall_mem_nil _⟩

theorem lower (t : Turn γ) (token : Token) (holder : UnitId) :
    t.Reports (t.lower token holder) := by
  rw [Turn.lower]
  split
  · exact .refl t
  · rename_i waits hwaits
    exact ⟨rfl, ⟨[.granted token holder], rfl, fun _ hg ↦ hg.granted hwaits⟩,
      ⟨[], (List.append_nil _).symm, List.forall_mem_nil _⟩⟩

theorem forget (t : Turn γ) : t.Reports t.forget where
  id := rfl
  waits := ⟨_, rfl, fun _ hg ↦ hg.forgotten⟩
  newUnits := ⟨[], (List.append_nil _).symm, List.forall_mem_nil _⟩

theorem deed (t : Turn γ) {d : Deed γ} (hd : d.IsPlain) : t.Reports (d.after t) := by
  cases d with
  | raise token holder => exact .waitFor t token holder
  | lower token holder => exact .lower t token holder
  | forget => exact .forget t
  | join u roots =>
    refine ⟨rfl, ⟨[], (List.append_nil _).symm, fun _ hg ↦ hg⟩, [u], rfl, fun v hv ↦ ?_⟩
    obtain rfl := List.mem_singleton.1 hv
    exact UnitNode.IsBlank.waits hd
  | edge e =>
    rw [Deed.after, assertEdge]
    split <;> exact .of_eq rfl rfl rfl rfl
  | datum s d =>
    rw [Deed.after, assertDatum]
    split <;> exact .of_eq rfl rfl rfl rfl
  | send | share | hesitate => exact .of_eq rfl rfl rfl rfl
  | receive => exact hd.elim

end Reports

variable {t t' : Turn γ}

theorem Moves.reports (h : t.Moves Deed.IsPlain t') : t.Reports t' := by
  induction h with
  | refl => exact .refl t
  | note _ hnotes ih =>
    exact ih.trans (.of_eq hnotes.unit.id hnotes.unit.waits hnotes.waits hnotes.newUnits)
  | deed _ hd ih => exact ih.trans (.deed _ hd)

end Turn

/-- **No wait goes unreported.** Whatever happens to a unit, the events that it leaves behind keep
the graph of waits up to date. -/
theorem UnitOp.reports (op : UnitOp γ α) (t : Turn γ) : t.Reports (op.run t).2 := by
  -- The arrival of an edge is not a plain deed, but it concerns graphs only.
  by_cases hop : op.received = none
  · exact (op.moves t hop).reports
  · cases op with
    | handle m =>
      cases m with
      | addEdge sender e =>
        change t.Reports (t.receiveEdge e)
        rw [Turn.receiveEdge]
        split <;> exact .of_eq rfl rfl rfl rfl
      | start | unitStarted | initShare | addShare | closeEdge | closeScope | query | queryPrevious
      | confirm | counterpart => exact (hop rfl).elim
    | _ => exact (hop rfl).elim

end ScopeGraphs
