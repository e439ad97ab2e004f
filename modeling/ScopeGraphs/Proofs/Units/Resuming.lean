import ScopeGraphs.Proofs.Units.Recording
import ScopeGraphs.Proofs.Units.Sharing

/-!
# What a unit resumes

A unit that resumes a snapshot first takes up what it had of its own: its scopes, the numbers of
their names, the tokens towards itself and what it asserted. Then it goes through its root scopes,
and initialises those of other units with the slots that were open on their counterparts. A
snapshot does not tell which of these counterparts had been initialised, so all root scopes are
(`Turn.takesUp_restore`).
-/

namespace ScopeGraphs

variable {γ : Type}

namespace Turn

variable (t : Turn γ) (x : Snapshot)

/-- A unit resumes what it had of its own: scopes, counters and tokens, and what it asserted. -/
def resumeOwn (t : Turn γ) (x : Snapshot) : Turn γ :=
  let me := t.unit.id
  let t := t.edit fun u ↦
    { u with
      scopes := x.scopes.toList.foldl (fun ss s ↦ ss.insert s) u.scopes
      counters := x.counters }
  let t := t.waitForAll (x.uninitialized.map .initScope) me
  let t := t.waitForAll (x.openScopes.map .closeScope) me
  let own := x.openSlots.filter fun o ↦ t.unit.owns o.1
  let t := t.waitForAll (own.map fun o ↦ .closeSlot o.1 o.2) me
  t.assertGraph x.graph (t.unit.rootPairs .identity)

theorem restore_eq : t.restore x =
    ((((((t.resumeOwn x).unit.previous.map Report.roots).getD []).zip
      (t.resumeOwn x).unit.roots).foldl (resumeRoot x) (t.resumeOwn x)).edit fun u ↦
        { u with snapshot := some x }).endLocalPhase := rfl

end Turn

/-- The tokens that a unit resumes towards itself. -/
def Snapshot.ownTokens (x : Snapshot) (me : UnitId) : List Token :=
  x.uninitialized.map .initScope ++ x.openScopes.map .closeScope ++
    (x.openSlots.filter fun o ↦ o.1.owner = me).map fun o ↦ .closeSlot o.1 o.2

theorem Snapshot.owner_of_mem_ownTokens {x : Snapshot} {me : UnitId} {s : Scope} {slot : Slot}
    (h : .closeSlot s slot ∈ x.ownTokens me) : s.owner = me := by
  rw [ownTokens, List.mem_append, List.mem_append] at h
  rcases h with (h | h) | h
  · obtain ⟨_, -, heq⟩ := List.mem_map.1 h
    exact absurd heq nofun
  · obtain ⟨_, -, heq⟩ := List.mem_map.1 h
    exact absurd heq nofun
  · obtain ⟨o, ho, heq⟩ := List.mem_map.1 h
    rw [← (Token.closeSlot.inj heq).1]
    exact of_decide_eq_true (List.mem_filter.1 ho).2

namespace Turn

variable (t : Turn γ) (x : Snapshot)

/-- A unit knows its scopes and their numbers again. -/
def resumeNames (t : Turn γ) (x : Snapshot) : Turn γ :=
  t.edit fun u ↦
    { u with
      scopes := x.scopes.toList.foldl (fun ss s ↦ ss.insert s) u.scopes
      counters := x.counters }

/-- Tokens come back in three rounds, by kind, which is as good as one. -/
theorem resumeOwn_eq : t.resumeOwn x =
    ((t.resumeNames x).waitForAll (x.ownTokens t.unit.id) t.unit.id).assertGraph x.graph
      (t.unit.rootPairs .identity) := by
  unfold resumeOwn
  extract_lets me known initialized opened own slotted
  have hopened : opened.unit.id = me := by
    obtain ⟨_, hfirst, -⟩ := known.waitForAll_spec (x.uninitialized.map .initScope) me
    obtain ⟨_, hsecond, -⟩ := initialized.waitForAll_spec (x.openScopes.map .closeScope) me
    have hinitialized : initialized.unit.id = me := (congrArg UnitNode.id hfirst).trans rfl
    exact (congrArg UnitNode.id hsecond).trans hinitialized
  have hown : own = x.openSlots.filter fun o ↦ o.1.owner = me := by
    simp only [own, UnitNode.owns, hopened]
  have hslotted : slotted = known.waitForAll (x.ownTokens me) me := by
    change opened.waitForAll (own.map fun o ↦ .closeSlot o.1 o.2) me = _
    rw [hown, Snapshot.ownTokens, waitForAll, waitForAll, List.foldl_append, List.foldl_append]
    rfl
  obtain ⟨waits, hunit, -⟩ := known.waitForAll_spec (x.ownTokens me) me
  rw [hslotted, hunit]
  rfl

/-- What a unit resumes of its own consists of tokens towards itself and assertions. -/
theorem moves_resumeOwn {A : Deed γ → Prop}
    (hraise : ∀ token : Token, (∀ s slot, token = .closeSlot s slot → s.owner = t.unit.id) →
      A (.raise token t.unit.id))
    (hedge : ∀ e, A (.edge e)) (hdatum : ∀ s d, A (.datum s d)) : t.Moves A (t.resumeOwn x) := by
  rw [resumeOwn_eq]
  have hknown : t.Moves A (t.resumeNames x) := (Moves.refl t).edit (by rfl)
  refine (hknown.waitForAll fun token htoken ↦ hraise token fun s slot heq ↦ ?_).trans
    (moves_assertGraph _ _ _ hedge hdatum)
  exact Snapshot.owner_of_mem_ownTokens (heq ▸ htoken)

theorem resumeOwn_spec : ∃ waits graph localGraph, (t.resumeOwn x).unit =
    { t.unit with
      scopes := x.scopes.toList.foldl (fun ss s ↦ ss.insert s) t.unit.scopes
      counters := x.counters
      waits := waits
      graph := graph
      localGraph := localGraph } ∧
    ∀ token holder, waits.count token holder =
      (if t.unit.id = holder then (x.ownTokens t.unit.id).count token else 0) +
        t.unit.waits.count token holder := by
  obtain ⟨waits, hunit, -⟩ := (t.resumeNames x).waitForAll_spec (x.ownTokens t.unit.id) t.unit.id
  obtain ⟨graph, localGraph, hasserted, -⟩ :=
    ((t.resumeNames x).waitForAll (x.ownTokens t.unit.id) t.unit.id).assertGraph_spec
      (t.unit.rootPairs .identity) x.graph
  refine ⟨waits, graph, localGraph, ?_, fun token holder ↦ ?_⟩
  · rw [resumeOwn_eq, hasserted, hunit]
    rfl
  · have hcount : ((t.resumeNames x).waitForAll (x.ownTokens t.unit.id) t.unit.id).unit.waits.count
        token holder = _ := (t.resumeNames x).count_waitForAll _ token
    rwa [hunit] at hcount

end Turn

/-! ## Root scopes -/

/-- What is picked from a list occurs as often as what it is picked from. -/
theorem count_filterMap_of_iff {ι κ : Type} [BEq ι] [LawfulBEq ι] [BEq κ] [LawfulBEq κ]
    {f : ι → Option κ} {i : ι} {k : κ} (h : ∀ j, f j = some k ↔ j = i) (l : List ι) :
    (l.filterMap f).count k = l.count i := by
  rw [List.count_filterMap, List.count_eq_countP]
  exact List.countP_congr fun j _ ↦ by simp [h j]

namespace Snapshot

/-- The slots of a scope that were open at the time of the snapshot. -/
def slotsOf (x : Snapshot) (s : Scope) : List Slot :=
  x.openSlots.filterMap fun o ↦ if o.1 = s then some o.2 else none

theorem count_slotsOf (x : Snapshot) (s : Scope) (slot : Slot) :
    (x.slotsOf s).count slot = x.openSlots.count (s, slot) := by
  refine count_filterMap_of_iff (fun o ↦ ?_) x.openSlots
  by_cases hs : o.1 = s <;> simp [hs, Prod.ext_iff]

end Snapshot

/-- A unit has initialised a root scope with the slots that were open on its counterpart. -/
def UnitNode.takeUp (u : UnitNode γ) (x : Snapshot) (e : Scope × Scope) : UnitNode γ :=
  { u with
    initialized := u.initialized.insert e.2
    shared := u.shared.insert e.2 (SortedSet.ofList (x.slotsOf e.1)) }

namespace Turn

variable (t : Turn γ) (x : Snapshot) {e : Scope × Scope}

theorem resumeRoot_of_not (h : (t.unit.owns e.2 || t.unit.initialized.contains e.2) = true) :
    resumeRoot x t e = t :=
  if_pos h

theorem resumeRoot_of_new (howns : t.unit.owns e.2 = false)
    (hnew : t.unit.initialized.contains e.2 = false) :
    resumeRoot x t e = (t.edit fun u ↦ u.takeUp x e).send e.2.owner
      (.initShare t.unit.id e.2 (x.slotsOf e.1) false) := by
  rw [resumeRoot, howns, hnew]
  rfl

end Turn

/-! ## Announcements -/

/-- The messages that a scope has been initialised. -/
def announcing (s : Scope) (ms : List (UnitId × Message)) : List (UnitId × Message) :=
  ms.filter fun m ↦
    match m.2 with
    | .initShare _ s' _ _ => s' = s
    | _ => false

theorem announcing_append (s : Scope) (ms ms' : List (UnitId × Message)) :
    announcing s (ms ++ ms') = announcing s ms ++ announcing s ms' :=
  List.filter_append _ _

/-- Scopes are announced by saying so only. -/
theorem Turn.Moves.announcing {A : Deed γ → Prop} {t t' : Turn γ} (h : t.Moves A t')
    (hA : ∀ r u s slots sharing, ¬ A (.send r (.initShare u s slots sharing))) (s : Scope) :
    announcing s t'.effects.messages = announcing s t.effects.messages := by
  have hother (ms : List (UnitId × Message)) {m : UnitId × Message}
      (hm : ScopeGraphs.announcing s [m] = []) :
      ScopeGraphs.announcing s (ms ++ [m]) = ScopeGraphs.announcing s ms := by
    rw [announcing_append, hm, List.append_nil]
  induction h with
  | refl => rfl
  | note _ hnotes ih => rw [hnotes.messages, ih]
  | @deed t' _ d hd ih =>
    rw [← ih]
    cases d with
    | lower token holder =>
      rw [Deed.after, Turn.lower]
      split <;> rfl
    | send r m =>
      refine hother _ ?_
      cases m with
      | initShare u s slots sharing => exact absurd hd (hA r u s slots sharing)
      | start | unitStarted | addShare | addEdge | closeEdge | closeScope | query | queryPrevious |
        confirm | counterpart => rfl
    | join u roots => exact hother _ rfl
    | edge e =>
      rw [Deed.after, Turn.assertEdge]
      split
      · rfl
      · exact hother _ rfl
    | datum s d =>
      rw [Deed.after, Turn.assertDatum]
      split <;> rfl
    | receive e =>
      rw [Deed.after, Turn.receiveEdge]
      split <;> rfl
    | raise | forget | share | hesitate => rfl

/-! ## Taking up root scopes -/

/-- The slots of a scope with which a unit that resumes a snapshot initialises it, if it does. -/
def Snapshot.regained? (x : Snapshot) (u : UnitNode γ) (pairs : List (Scope × Scope)) (s : Scope) :
    Option (List Slot) :=
  if u.owns s || u.initialized.contains s then none
  else (pairs.find? fun e ↦ e.2 = s).map fun e ↦ x.slotsOf e.1

namespace Snapshot

variable {x : Snapshot} {u v : UnitNode γ} {pairs : List (Scope × Scope)} {s : Scope}
  {e : Scope × Scope}

theorem regained?_of_settled (h : (u.owns s || u.initialized.contains s) = true) :
    x.regained? u pairs s = none :=
  if_pos h

theorem regained?_congr (hid : v.id = u.id)
    (hinit : v.initialized.contains s = u.initialized.contains s) :
    x.regained? v pairs s = x.regained? u pairs s := by
  rw [regained?, regained?, UnitNode.owns, UnitNode.owns, hid, hinit]

theorem regained?_cons_of_ne (h : e.2 ≠ s) :
    x.regained? u (e :: pairs) s = x.regained? u pairs s := by
  rw [regained?, regained?, List.find?_cons_of_neg (by simpa using h)]

theorem regained?_cons_self (howns : u.owns e.2 = false)
    (hnew : u.initialized.contains e.2 = false) :
    x.regained? u (e :: pairs) e.2 = some (x.slotsOf e.1) := by
  rw [regained?, howns, hnew, if_neg (by simp), List.find?_cons_of_pos (by simp)]
  rfl

end Snapshot

namespace Turn

/-- A unit has initialised a scope of another unit with some slots, and said so once, or it has done
nothing about it. -/
structure TakesUp (t : Turn γ) (s : Scope) (slots? : Option (List Slot)) (t' : Turn γ) : Prop where
  id : t'.unit.id = t.unit.id
  shared : t'.unit.shared[s]? = (slots?.map SortedSet.ofList).or t.unit.shared[s]?
  initialized : t'.unit.initialized.contains s = (slots?.isSome || t.unit.initialized.contains s)
  announced : announcing s t'.effects.messages = announcing s t.effects.messages ++
    slots?.toList.map fun slots ↦ (s.owner, .initShare t.unit.id s slots false)

namespace TakesUp

variable {t t' t'' : Turn γ} {s : Scope} {slots? : Option (List Slot)}

theorem of_eq (hid : t'.unit.id = t.unit.id) (hshared : t'.unit.shared[s]? = t.unit.shared[s]?)
    (hinit : t'.unit.initialized.contains s = t.unit.initialized.contains s)
    (hsent : announcing s t'.effects.messages = announcing s t.effects.messages) :
    t.TakesUp s none t' :=
  ⟨hid, hshared, hinit, hsent.trans (List.append_nil _).symm⟩

/-- A unit that keeps books takes up nothing. -/
theorem of_moves (h : t.Moves (fun _ ↦ False) t') : t.TakesUp s none t' := by
  have hstake := h.stake
  refine .of_eq h.id ?_ ?_ (h.announcing (fun _ _ _ _ _ ↦ not_false) s)
  · rw [show t'.unit.shared = t.unit.shared from congrArg (·.2.2.2.2.2.1) hstake]
  · rw [show t'.unit.initialized = t.unit.initialized from congrArg (·.2.2.2.2.2.2.2) hstake]

theorem trans (h : t.TakesUp s none t') (h' : t'.TakesUp s slots? t'') :
    t.TakesUp s slots? t'' where
  id := h'.id.trans h.id
  shared := by
    rw [h'.shared, h.shared]
    rfl
  initialized := by
    rw [h'.initialized, h.initialized]
    rfl
  announced := by
    rw [h'.announced, h.announced, h.id, Option.toList_none, List.map_nil, List.append_nil]

theorem trans_none (h : t.TakesUp s slots? t') (h' : t'.TakesUp s none t'') :
    t.TakesUp s slots? t'' where
  id := h'.id.trans h.id
  shared := by
    rw [h'.shared, ← h.shared]
    rfl
  initialized := by
    rw [h'.initialized, ← h.initialized]
    rfl
  announced := by
    rw [h'.announced, ← h.announced, Option.toList_none, List.map_nil, List.append_nil]

end TakesUp

variable (t : Turn γ) (x : Snapshot) (s : Scope)

theorem takesUp_resumeRoot_of_ne {e : Scope × Scope} (h : e.2 ≠ s) :
    t.TakesUp s none (resumeRoot x t e) := by
  by_cases hskip : (t.unit.owns e.2 || t.unit.initialized.contains e.2) = true
  · rw [t.resumeRoot_of_not x hskip]
    exact .of_eq rfl rfl rfl rfl
  · rw [Bool.or_eq_true, not_or, Bool.not_eq_true, Bool.not_eq_true] at hskip
    rw [t.resumeRoot_of_new x hskip.1 hskip.2]
    refine .of_eq rfl ?_ ?_ ?_
    · exact (SortedMap.getElem?_insert_eq _ _ _ _).trans (if_neg h)
    · rw [Bool.eq_iff_iff, ← Std.ExtTreeSet.mem_iff_contains, ← Std.ExtTreeSet.mem_iff_contains]
      exact SortedSet.mem_insert_iff.trans (or_iff_right (Ne.symm h))
    · change announcing s (t.effects.messages ++ [_]) = _
      rw [announcing_append, announcing, announcing, List.filter_cons_of_neg (by simpa using h)]
      exact List.append_nil _

theorem takesUp_resumeRoot_self {e : Scope × Scope} (howns : t.unit.owns e.2 = false)
    (hnew : t.unit.initialized.contains e.2 = false) :
    t.TakesUp e.2 (some (x.slotsOf e.1)) (resumeRoot x t e) := by
  rw [t.resumeRoot_of_new x howns hnew]
  refine ⟨rfl, ?_, ?_, ?_⟩
  · exact (SortedMap.getElem?_insert_eq _ _ _ _).trans (if_pos rfl)
  · exact Std.ExtTreeSet.mem_iff_contains.1 (SortedSet.mem_insert_iff.2 (.inl rfl))
  · change announcing e.2 (t.effects.messages ++ [_]) = _
    rw [announcing_append]
    congr 1
    rw [announcing, List.filter_cons_of_pos (by simp)]
    rfl

theorem takesUp_resumeRoots (pairs : List (Scope × Scope)) :
    t.TakesUp s (x.regained? t.unit pairs s) (pairs.foldl (resumeRoot x) t) := by
  induction pairs generalizing t with
  | nil =>
    have hnone : x.regained? t.unit [] s = none := ite_self _
    rw [hnone]
    exact .of_eq rfl rfl rfl rfl
  | cons e pairs ih =>
    rw [List.foldl_cons]
    by_cases hs : e.2 = s
    · subst hs
      by_cases hskip : (t.unit.owns e.2 || t.unit.initialized.contains e.2) = true
      · rw [t.resumeRoot_of_not x hskip, Snapshot.regained?_of_settled hskip]
        have hrest := ih t
        rwa [Snapshot.regained?_of_settled hskip] at hrest
      · rw [Bool.or_eq_true, not_or, Bool.not_eq_true, Bool.not_eq_true] at hskip
        rw [Snapshot.regained?_cons_self hskip.1 hskip.2]
        have htaken := t.takesUp_resumeRoot_self x hskip.1 hskip.2
        -- Once it has been initialised, it is passed over.
        have hrest := ih (resumeRoot x t e)
        rw [Snapshot.regained?_of_settled (by rw [htaken.initialized]; simp)] at hrest
        exact htaken.trans_none hrest
    · have htaken := t.takesUp_resumeRoot_of_ne x s hs
      have hrest := ih (resumeRoot x t e)
      rw [Snapshot.regained?_congr htaken.id htaken.initialized] at hrest
      rw [Snapshot.regained?_cons_of_ne hs]
      exact htaken.trans hrest

/-! ## Everything together -/

/-- A unit that resumes a snapshot initialises the root scopes of other units that it has not
initialised, with the slots that were open on their counterparts, and says so. -/
theorem takesUp_restore : t.TakesUp s (x.regained? t.unit
    (((t.unit.previous.map Report.roots).getD []).zip t.unit.roots) s) (t.restore x) := by
  obtain ⟨waits, graph, localGraph, hunit, -⟩ := t.resumeOwn_spec x
  have hown : t.TakesUp s none (t.resumeOwn x) := by
    have hsent := (t.moves_resumeOwn x
      (A := fun d ↦ ∀ r u s slots sharing, d ≠ .send r (.initShare u s slots sharing))
      (fun _ _ ↦ nofun) (fun _ ↦ nofun) fun _ _ ↦ nofun).announcing
        (fun r u s slots sharing h ↦ h r u s slots sharing rfl) s
    refine .of_eq ?_ ?_ ?_ hsent <;> rw [hunit]
  have hroots := (t.resumeOwn x).takesUp_resumeRoots x s
    (((t.unit.previous.map Report.roots).getD []).zip t.unit.roots)
  rw [Snapshot.regained?_congr hown.id hown.initialized] at hroots
  rw [restore_eq, hunit]
  exact (hown.trans hroots).trans_none (.of_moves ((Moves.refl _).edit (by rfl)).endLocalPhase)

/-- A unit that resumes a snapshot has its scopes and tokens back, besides those that it has. -/
theorem restore_spec : ∃ waits, (t.restore x).unit.waits = waits ∧
    (t.restore x).unit.counters = x.counters ∧
    (∀ s, s ∈ (t.restore x).unit.scopes ↔ s ∈ x.scopes ∨ s ∈ t.unit.scopes) ∧
    ∀ token holder, waits.count token holder =
      (if t.unit.id = holder then (x.ownTokens t.unit.id).count token else 0) +
        t.unit.waits.count token holder := by
  obtain ⟨waits, graph, localGraph, hunit, hcount⟩ := t.resumeOwn_spec x
  obtain ⟨initialized, shared, hroots⟩ := (t.resumeOwn x).resumeRoots_spec x
    (((t.unit.previous.map Report.roots).getD []).zip t.unit.roots)
  refine ⟨waits, ?_, ?_, fun s ↦ ?_, hcount⟩ <;>
    simp only [restore_eq, hunit, endLocalPhase, unit_tell, edit, hroots]
  rw [SortedSet.mem_foldl_insert, Std.ExtTreeSet.mem_toList]

/-- A unit that resumes a snapshot asserts what it had asserted, with its root scopes renamed. -/
theorem records_restore : t.Records
    (x.graph.edges.toList.map (Edge.rename (t.unit.rootPairs .identity)))
    (x.graph.data.toList.map fun e ↦
      ((t.unit.rootPairs .identity).apply e.1, e.2.rename (t.unit.rootPairs .identity)))
    (t.restore x) := by
  have hroots : (t.resumeOwn x).Moves Deed.IsSilent (t.restore x) := by
    refine Moves.endLocalPhase (Moves.edit (Moves.foldl (.refl _) _ fun e _ t _ ↦ ?_) (by rfl))
    exact (t.moves_resumeRoot x e).mono fun _ h ↦ h.isSilent
  refine Records.moves ?_ hroots
  have hknown : t.Moves Deed.IsSilent (t.resumeNames x) := (Moves.refl t).edit (by rfl)
  rw [resumeOwn_eq]
  exact (hknown.waitForAll fun _ _ ↦ trivial).trans_records (records_assertGraph _ _ _)

end Turn

end ScopeGraphs
