import Mathlib.Order.MinMax
import ScopeGraphs.Proofs.Units.Resuming

/-!
# The numbers of scopes

The name of a scope that a checker creates consists of a base and a number, and a unit counts for
each base how many numbers are given. Bases may end in numbers themselves, and still no two bases
share a name (`Scope.numbered_inj`). So a unit creates new scopes only, as long as its counters are
*ahead* of its scopes: all numbers that are in use lie below the counters.

Creating a scope keeps the counters ahead. What may set them back is what a unit takes over from its
previous run:

* A unit that resumes a snapshot has the scopes of the snapshot besides its own, and the counters of
  the snapshot in place of its own. Scopes that it has created before are overlooked if the snapshot
  does not know their numbers.
* A unit that replays its previous result has all scopes of the result, but the counters go up no
  further than in the snapshot, which was taken at the end of the local phase. Scopes that were
  created later are overlooked.

Nothing else sets the counters back (`UnitOp.isAhead_run_iff`).
-/

namespace ScopeGraphs

variable {γ α : Type}

/-! ## Names -/

namespace Scope

variable {owner : UnitId} {base base' : String} {n n' : Nat}

/-- The scope with a number among those with a base. -/
def numbered (owner : UnitId) (base : String) (n : Nat) : Scope :=
  ⟨owner, base ++ "-" ++ toString n⟩

theorem notMem_toDigits (n : Nat) : '-' ∉ Nat.toDigits 10 n := by
  intro hmem
  have hdigit : '-'.isDigit = true := Nat.isDigit_of_mem_toDigits (by decide) (by decide) hmem
  exact absurd hdigit (by decide)

/-- The number is what follows the last hyphen, whatever the base. -/
theorem takeWhile_numbered (owner : UnitId) (base : String) (n : Nat) :
    (numbered owner base n).name.toList.reverse.takeWhile (· ≠ '-') =
      (Nat.toDigits 10 n).reverse := by
  have htext : (numbered owner base n).name.toList.reverse =
      (Nat.toDigits 10 n).reverse ++ '-' :: base.toList.reverse := by
    simp [numbered, String.toList_append, Nat.repr]
  have hall : ∀ c ∈ (Nat.toDigits 10 n).reverse, decide (c ≠ '-') = true := by
    intro c hc
    refine decide_eq_true fun heq ↦ notMem_toDigits n ?_
    exact heq ▸ List.mem_reverse.1 hc
  rw [htext, List.takeWhile_append_of_pos hall, List.takeWhile_cons_of_neg (by simp),
    List.append_nil]

/-- **No two bases share a name.** -/
theorem numbered_inj :
    numbered owner base n = numbered owner base' n' ↔ base = base' ∧ n = n' := by
  constructor
  · intro heq
    have hdigits : Nat.toDigits 10 n = Nat.toDigits 10 n' := by
      rw [← List.reverse_inj, ← takeWhile_numbered owner base, ← takeWhile_numbered owner base', heq]
    have hnumber : n = n' := by
      rw [← Nat.ofDigitChars_ten_toDigits (n := n), hdigits, Nat.ofDigitChars_ten_toDigits]
    subst hnumber
    have hname : base ++ "-" ++ toString n = base' ++ "-" ++ toString n := congrArg name heq
    have hlist := congrArg String.toList hname
    simp only [String.toList_append, List.append_assoc, List.append_cancel_right_eq] at hlist
    exact ⟨String.toList_inj.1 hlist, rfl⟩
  · rintro ⟨rfl, rfl⟩
    rfl

end Scope

open Attempt (nextNumber nextScope mayReuse)

/-! ## Being ahead -/

/-- The counters of a unit are ahead of its scopes. -/
def UnitNode.IsAhead (u : UnitNode γ) : Prop :=
  ∀ base n, Scope.numbered u.id base n ∈ u.scopes → n < nextNumber u base

/-- The second unit has the same scopes as the first, and goes on counting where the first does. -/
structure UnitNode.SameNames (u v : UnitNode γ) : Prop where
  id : v.id = u.id
  scopes : v.scopes = u.scopes
  counters : v.counters = u.counters

namespace UnitNode.SameNames

variable {u v w : UnitNode γ} {t : Turn γ}

theorem refl (u : UnitNode γ) : u.SameNames u := ⟨rfl, rfl, rfl⟩

theorem trans (h : u.SameNames v) (h' : v.SameNames w) : u.SameNames w :=
  ⟨h'.id.trans h.id, h'.scopes.trans h.scopes, h'.counters.trans h.counters⟩

theorem isAhead_iff (h : u.SameNames v) : v.IsAhead ↔ u.IsAhead := by
  rw [IsAhead, IsAhead]
  simp only [h.id, h.scopes, nextNumber, h.counters]

/-- Most of what a unit does has no influence on the names of its scopes. -/
theorem subsides (h : u.SameNames v) (h' : v.Subsides w) : u.SameNames w :=
  h.trans ⟨h'.id, h'.scopes, h'.counters⟩

theorem waitForAll (h : u.SameNames t.unit) (tokens : List Token) (holder : UnitId) :
    u.SameNames (t.waitForAll tokens holder).unit := by
  obtain ⟨waits, hunit, -⟩ := t.waitForAll_spec tokens holder
  rw [hunit]
  exact ⟨h.id, h.scopes, h.counters⟩

theorem grant (h : u.SameNames t.unit) (token : Token) (holder : UnitId) :
    u.SameNames (t.grant token holder).unit :=
  h.subsides ((Subsides.refl t.unit).grant token holder)

theorem assertEdge (h : u.SameNames t.unit) (e : Edge) : u.SameNames (t.assertEdge e).unit := by
  rw [Turn.assertEdge]
  split <;> exact ⟨h.id, h.scopes, h.counters⟩

theorem assertDatum (h : u.SameNames t.unit) (s : Scope) (d : Datum) :
    u.SameNames (t.assertDatum s d).unit := by
  rw [Turn.assertDatum]
  split <;> exact ⟨h.id, h.scopes, h.counters⟩

theorem assertGraph (h : u.SameNames t.unit) (g : ScopeGraph) (p : Renaming) :
    u.SameNames (t.assertGraph g p).unit := by
  obtain ⟨graph, localGraph, hunit, -⟩ := t.assertGraph_spec p g
  rw [hunit]
  exact ⟨h.id, h.scopes, h.counters⟩

theorem receiveEdge (h : u.SameNames t.unit) (e : Edge) : u.SameNames (t.receiveEdge e).unit := by
  rw [Turn.receiveEdge]
  split
  · exact ⟨h.id, h.scopes, h.counters⟩
  · exact h

theorem shareInitialized (h : u.SameNames t.unit) (sender : UnitId) (s : Scope) (slots : List Slot)
    (sharing : Bool) : u.SameNames (t.shareInitialized sender s slots sharing).unit := by
  unfold Turn.shareInitialized
  refine grant ?_ _ _
  have hslots := h.waitForAll (slots.map (.closeSlot s)) sender
  split
  · exact ⟨hslots.id, hslots.scopes, hslots.counters⟩
  · exact hslots

theorem addSubUnit (h : u.SameNames t.unit) (name : String) (kind : UnitKind γ)
    (roots : List Scope) (changed : Bool) :
    u.SameNames (t.addSubUnit name kind roots changed).2.unit := by
  by_cases haccepts : t.unit.Accepts name kind roots
  · obtain ⟨waits, sharedPairs, differ, hunit, -⟩ :=
      t.addSubUnit_of_accepts name kind roots changed haccepts
    rw [hunit]
    exact ⟨h.id, h.scopes, h.counters⟩
  · rwa [t.addSubUnit_of_not_accepts name kind roots changed haccepts]

theorem replaySubUnits (h : u.SameNames t.unit) : u.SameNames t.replaySubUnits.unit := by
  rw [Turn.replaySubUnits]
  induction t.missingSubUnits generalizing t with
  | nil => exact h
  | cons e es ih => exact ih (h.addSubUnit _ _ _ _)

end UnitNode.SameNames

/-! ## What is taken over -/

/-- The number at which a snapshot goes on counting for a base. -/
def Snapshot.nextNumber (x : Snapshot) (base : String) : Nat := (x.counters[base]?).getD 0

/-- A unit that resumes a snapshot overlooks a scope: its own or one of the snapshot. -/
def Snapshot.Overlooks (x : Snapshot) (u : UnitNode γ) : Prop :=
  ∃ base n, (Scope.numbered u.id base n ∈ x.scopes ∨ Scope.numbered u.id base n ∈ u.scopes) ∧
    x.nextNumber base ≤ n

namespace Report

/-- All scopes that the unit had in the previous run, as far as the report tells. -/
def knownScopes (r : Report) : List Scope :=
  r.graph.scopes.toList ++ r.localGraph.scopes.toList ++
    (r.snapshot.map fun x ↦ x.scopes.toList).getD []

/-- The entries of the counters at the end of the local phase. -/
def capturedCounters (r : Report) : List (String × Nat) :=
  (r.snapshot.map fun x ↦ x.counters.toList).getD []

/-- A unit that replays its previous result under a renaming overlooks a scope of the result. -/
def Overlooks (r : Report) (p : Renaming) (u : UnitNode γ) : Prop :=
  ∃ base n, Scope.numbered u.id base n ∈ r.knownScopes.map p.apply ∧
    nextNumber u base ≤ n ∧ ∀ k, (base, k) ∈ r.capturedCounters → k ≤ n

end Report

/-- Whether an action sets the counters of a unit back. -/
def Action.Overlooks (settings : Settings) (u : UnitNode γ) : {α : Type} → Action γ α → Prop
  | _, askForReuse => u.phase = .started ∧ mayReuse settings u ∧
      ∃ x, u.previous.bind Report.snapshot = some x ∧ x.Overlooks u
  | _, _ => False

/-- Whether an operation sets the counters of a unit back. -/
def UnitOp.Overlooks (settings : Settings) (u : UnitNode γ) : {α : Type} → UnitOp γ α → Prop
  | _, act a => a.Overlooks settings u
  | _, release p => u.phase = .undecided ∧ ∃ r, u.previous = some r ∧ r.Overlooks p u
  | _, _ => False

/-- A snapshot of a unit whose counters are ahead knows its own scopes, so a unit that resumes it
overlooks nothing but scopes that it has created before. -/
theorem UnitNode.IsAhead.overlooks_takeSnapshot_iff {u v : UnitNode γ} (h : u.IsAhead)
    (hid : v.id = u.id) : (Turn.takeSnapshot u).Overlooks v ↔
      ∃ base n, Scope.numbered v.id base n ∈ v.scopes ∧ nextNumber u base ≤ n := by
  constructor
  · rintro ⟨base, n, hknown | hown, hn⟩
    · exact absurd (h base n (hid ▸ hknown)) (Nat.not_lt.2 hn)
    · exact ⟨base, n, hown, hn⟩
  · rintro ⟨base, n, hown, hn⟩
    exact ⟨base, n, .inr hown, hn⟩

/-! ## Creating scopes -/

namespace Attempt

variable {t : Turn γ}

/-- A scope that is created is the next one for its base. -/
theorem create_spec (t : Turn γ) (base : String) (labels : List Label) (hasDatum sharing : Bool) :
    (create base labels hasDatum sharing t).1 = .ok (nextScope t.unit base) ∧
      ∃ waits, (create base labels hasDatum sharing t).2.unit =
        { t.unit with
          counters := t.unit.counters.insert base (nextNumber t.unit base + 1)
          scopes := t.unit.scopes.insert (nextScope t.unit base)
          waits := waits } := by
  rw [create, unit_bind, change_bind, change_bind]
  obtain ⟨waits, hunit, -⟩ := Turn.waitForAll_spec (t.edit fun u ↦
    { u with
      counters := u.counters.insert base (nextNumber u base + 1)
      scopes := u.scopes.insert (nextScope t.unit base) })
    ((labels.map Slot.edge ++ if hasDatum then [Slot.datum] else []).map
        (Token.closeSlot (nextScope t.unit base)) ++
      if sharing then [Token.closeScope (nextScope t.unit base)] else []) t.unit.id
  exact ⟨rfl, waits, hunit⟩

theorem isAhead_create (h : t.unit.IsAhead) (base : String) (labels : List Label)
    (hasDatum sharing : Bool) : (create base labels hasDatum sharing t).2.unit.IsAhead := by
  obtain ⟨-, waits, hunit⟩ := create_spec t base labels hasDatum sharing
  rw [hunit]
  intro base' n hn
  have hn : Scope.numbered t.unit.id base' n ∈ t.unit.scopes.insert (nextScope t.unit base) := hn
  change n < ((t.unit.counters.insert base (nextNumber t.unit base + 1))[base']?).getD 0
  rw [SortedMap.getElem?_insert_eq]
  obtain heq | hold := SortedSet.mem_insert_iff.1 hn
  · obtain ⟨rfl, rfl⟩ := Scope.numbered_inj.1 heq
    rw [if_pos rfl]
    exact Nat.lt_succ_self _
  · have hlt : n < nextNumber t.unit base' := h base' n hold
    split
    · rename_i heq
      subst heq
      exact Nat.lt_succ_of_lt hlt
    · exact hlt

/-- A scope that a checker creates is the next one for its base. -/
theorem freshScope_cases (t : Turn γ) (base : String) (labels : List Label)
    (hasDatum sharing : Bool) :
    ((∃ e, (freshScope base labels hasDatum sharing t).1 = .error e) ∧
        (freshScope base labels hasDatum sharing t).2 = t) ∨
      ∃ t', t.unit.Subsides t'.unit ∧
        freshScope base labels hasDatum sharing t = create base labels hasDatum sharing t' := by
  rw [freshScope_eq, requireLive_bind]
  split
  · split
    · exact .inr ⟨t, .refl _, rfl⟩
    · rw [commit_bind]
      split
      · exact .inl ⟨⟨_, rfl⟩, rfl⟩
      · exact .inr ⟨t.eagerStart, (UnitNode.Subsides.refl _).eagerStart, rfl⟩
  · exact .inl ⟨⟨_, rfl⟩, rfl⟩

theorem eq_nextScope_of_freshScope {base : String} {labels : List Label} {hasDatum sharing : Bool}
    {s : Scope} (h : (freshScope base labels hasDatum sharing t).1 = .ok s) :
    s = nextScope t.unit base := by
  obtain ⟨⟨e, herror⟩, -⟩ | ⟨t', ht', heq⟩ := freshScope_cases t base labels hasDatum sharing
  · exact nomatch h.symm.trans herror
  · have hnext : nextScope t'.unit base = nextScope t.unit base := by
      rw [nextScope, nextScope, nextNumber, nextNumber, ht'.id, ht'.counters]
    rw [heq, (create_spec t' base labels hasDatum sharing).1, hnext] at h
    exact (Except.ok.inj h).symm

/-- A unit that is ahead creates nothing but new scopes. -/
theorem notMem_of_freshScope {base : String} {labels : List Label} {hasDatum sharing : Bool}
    {s : Scope} (hahead : t.unit.IsAhead)
    (h : (freshScope base labels hasDatum sharing t).1 = .ok s) : s ∉ t.unit.scopes := by
  intro hmem
  rw [eq_nextScope_of_freshScope h] at hmem
  exact absurd (hahead base _ hmem) (Nat.lt_irrefl _)

end Attempt

/-! ## Resuming and replaying -/

namespace Turn

variable (t : Turn γ)

/-- A unit that resumes a snapshot counts as the snapshot does. -/
theorem isAhead_restore_iff (x : Snapshot) :
    (t.restore x).unit.IsAhead ↔ ¬ x.Overlooks t.unit := by
  obtain ⟨waits, -, hcounters, hscopes, -⟩ := t.restore_spec x
  have hid : (t.restore x).unit.id = t.unit.id := (t.moves_restore x).id
  simp only [UnitNode.IsAhead, Snapshot.Overlooks, hid, hscopes, nextNumber, hcounters,
    not_exists, not_and, Nat.not_le]
  rfl

theorem lt_getD_foldl_max (entries : List (String × Nat)) (counters : SortedMap String Nat)
    (base : String) (n : Nat) :
    n < ((entries.foldl (fun cs c ↦ cs.insert c.1 (max ((cs[c.1]?).getD 0) c.2)) counters)[base]?).getD 0
      ↔ n < (counters[base]?).getD 0 ∨ ∃ k, (base, k) ∈ entries ∧ n < k := by
  induction entries generalizing counters with
  | nil => simp
  | cons e entries ih =>
    obtain ⟨base', k'⟩ := e
    rw [List.foldl_cons, ih, SortedMap.getElem?_insert_eq]
    by_cases heq : base' = base
    · subst heq
      rw [if_pos rfl, Option.getD_some, lt_max_iff, or_assoc]
      refine or_congr_right ⟨?_, ?_⟩
      · rintro (hlt | ⟨k, hmem, hlt⟩)
        · exact ⟨k', List.mem_cons_self, hlt⟩
        · exact ⟨k, List.mem_cons_of_mem _ hmem, hlt⟩
      · rintro ⟨k, hmem, hlt⟩
        obtain heq | hmem := List.mem_cons.1 hmem
        · exact .inl ((Prod.mk.inj heq).2 ▸ hlt)
        · exact .inr ⟨k, hmem, hlt⟩
    · rw [if_neg heq]
      refine or_congr_right (exists_congr fun k ↦ and_congr_left fun _ ↦ ?_)
      rw [List.mem_cons, or_iff_right]
      exact fun h ↦ heq (Prod.mk.inj h).1.symm

/-- A unit knows its own scopes of a previous result, and the numbers that were given by the end of
the local phase. -/
def replayNames (r : Report) (p : Renaming) : Turn γ :=
  t.edit fun u ↦
    { u with
      scopes := ((r.knownScopes.map p.apply).filter t.unit.owns).foldl (fun ss s ↦ ss.insert s)
        u.scopes
      counters := r.capturedCounters.foldl (fun cs c ↦
        cs.insert c.1 (max ((cs[c.1]?).getD 0) c.2)) u.counters }

theorem sameNames_replay (r : Report) (p : Renaming) :
    (t.replayNames r p).unit.SameNames (t.replay r p).unit := by
  unfold replay
  extract_lets _ _ _ _ known asserted
  have hasserted : (t.replayNames r p).unit.SameNames asserted.unit :=
    (UnitNode.SameNames.refl known.unit).assertGraph r.localGraph p
  clear_value asserted
  exact hasserted.subsides ((UnitNode.Subsides.refl _).grantAll _).closeShares

/-- A unit that replays a result has all of its own scopes of the result. Its counters go up to what
they were at the end of the local phase. -/
theorem names_replay (r : Report) (p : Renaming) :
    (∀ s, s ∈ (t.replay r p).unit.scopes ↔
      (s ∈ r.knownScopes.map p.apply ∧ s.owner = t.unit.id) ∨ s ∈ t.unit.scopes) ∧
    ∀ base n, n < nextNumber (t.replay r p).unit base ↔
      n < nextNumber t.unit base ∨ ∃ k, (base, k) ∈ r.capturedCounters ∧ n < k := by
  have hsame := t.sameNames_replay r p
  constructor
  · intro s
    rw [hsame.scopes, replayNames, edit, SortedSet.mem_foldl_insert, List.mem_filter,
      UnitNode.owns_iff]
  · intro base n
    rw [nextNumber, hsame.counters, nextNumber]
    exact lt_getD_foldl_max r.capturedCounters t.unit.counters base n

/-- A unit that is told to reuse its previous result. -/
theorem isAhead_release_iff {r : Report} {p : Renaming} (hphase : t.unit.phase = .undecided)
    (hprevious : t.unit.previous = some r) (hahead : t.unit.IsAhead) :
    (t.release p).unit.IsAhead ↔ ¬ r.Overlooks p t.unit := by
  let renamed : Turn γ := t.edit fun u ↦ { u with reuse := some p }
  have hreplayed : (renamed.replay r p).unit.SameNames (t.release p).unit := by
    unfold release
    split
    · rename_i r' _ hsome
      obtain rfl : r' = r := Option.some.inj (hsome.symm.trans hprevious)
      extract_lets replayed told settled
      have hnames : (renamed.replay r' p).unit.SameNames replayed.unit := .refl _
      clear_value replayed
      have htold : replayed.unit.Subsides told.unit := (UnitNode.Subsides.refl _).edit (by rfl)
      have hsettled : replayed.unit.Subsides settled.unit :=
        ((htold.settleActive .reusing).settleDecision (some p)).endLocalPhase
      exact (hnames.subsides (hsettled.grant .activate settled.unit.id)).replaySubUnits
    · rename_i hne
      exact absurd hprevious (hne r hphase)
  obtain ⟨hscopes, hcounters⟩ := renamed.names_replay r p
  have hid : (t.release p).unit.id = t.unit.id :=
    (UnitOp.moves (.release p) t rfl).id
  constructor
  · rintro h ⟨base, n, hknown, hown, hcaptured⟩
    have hlt := h base n (by
      rw [hid, hreplayed.scopes, hscopes]
      exact .inl ⟨hknown, rfl⟩)
    rw [nextNumber, hreplayed.counters] at hlt
    obtain hlt | ⟨k, hk, hlt⟩ := (hcounters base n).1 hlt
    · exact absurd hlt (Nat.not_lt.2 hown)
    · exact absurd hlt (Nat.not_lt.2 (hcaptured k hk))
  · intro h base n hn
    rw [hid, hreplayed.scopes, hscopes] at hn
    rw [nextNumber, hreplayed.counters]
    refine (hcounters base n).2 ?_
    obtain ⟨hknown, -⟩ | hold := hn
    · by_contra hnot
      rw [not_or, not_exists] at hnot
      exact h ⟨base, n, hknown, Nat.not_lt.1 hnot.1, fun k hk ↦
        Nat.not_lt.1 fun hlt ↦ hnot.2 k ⟨hk, hlt⟩⟩
    · exact .inl (hahead base n hold)

end Turn

/-! ## All operations -/

namespace Attempt

variable {t : Turn γ} {u : UnitNode γ}

theorem sameNames_require {ok : Bool} {e : Fault} {f : PUnit → Attempt γ α}
    (h : u.SameNames t.unit) (hf : u.SameNames (f ⟨⟩ t).2.unit) :
    u.SameNames ((require ok e >>= f) t).2.unit := by
  rw [require_bind]
  split
  · exact hf
  · exact h

theorem sameNames_requireKnown {s : Scope} {f : PUnit → Attempt γ α} (h : u.SameNames t.unit)
    (hf : u.SameNames (f ⟨⟩ t).2.unit) : u.SameNames ((requireKnown s >>= f) t).2.unit := by
  rw [requireKnown_bind]
  split
  · exact hf
  · exact h

theorem sameNames_requireLive {f : PUnit → Attempt γ α} (hf : t.unit.SameNames (f ⟨⟩ t).2.unit) :
    t.unit.SameNames ((requireLive >>= f) t).2.unit := by
  rw [requireLive_bind]
  split
  · exact hf
  · exact .refl _

theorem sameNames_commit {f : PUnit → Attempt γ α}
    (hf : t.unit.SameNames t.eagerStart.unit → t.unit.SameNames (f ⟨⟩ t.eagerStart).2.unit) :
    t.unit.SameNames ((commit >>= f) t).2.unit := by
  rw [commit_bind]
  split
  · exact .refl _
  · exact hf ((UnitNode.SameNames.refl _).subsides (UnitNode.Subsides.refl _).eagerStart)

theorem sameNames_initScope (s : Scope) (labels : List Label) (sharing : Bool) :
    t.unit.SameNames (initScope s labels sharing t).2.unit := by
  refine sameNames_requireLive ?_
  rw [unit_bind]
  split
  · exact (UnitNode.SameNames.refl _).shareInitialized _ _ _ _
  · exact ⟨rfl, rfl, rfl⟩

theorem sameNames_shareScope (s : Scope) : t.unit.SameNames (shareScope s t).2.unit := by
  refine sameNames_requireLive ?_
  rw [unit_bind]
  split <;> exact ⟨rfl, rfl, rfl⟩

theorem sameNames_setDatum (s : Scope) (d : Datum) :
    t.unit.SameNames (setDatum s d t).2.unit := by
  have hself := UnitNode.SameNames.refl t.unit
  refine sameNames_requireLive ?_
  rw [unit_bind]
  refine sameNames_require hself (sameNames_requireKnown hself (sameNames_require hself ?_))
  exact (hself.assertDatum s d).grant _ _

theorem sameNames_addEdge (e : Edge) : t.unit.SameNames (addEdge e t).2.unit := by
  refine sameNames_requireLive (sameNames_commit fun hstarted ↦ ?_)
  rw [unit_bind]
  split
  · exact sameNames_requireKnown hstarted (sameNames_require hstarted (hstarted.assertEdge e))
  · exact sameNames_require hstarted (hstarted.assertEdge e)

theorem sameNames_closeLabel (s : Scope) (l : Label) :
    t.unit.SameNames (closeLabel s l t).2.unit := by
  have hself := UnitNode.SameNames.refl t.unit
  refine sameNames_requireLive ?_
  rw [unit_bind]
  split
  · exact hself.grant _ _
  · split
    · exact hself.subsides (((UnitNode.Subsides.refl _).dropShared s (.edge l)).send _ _)
    · exact hself

theorem sameNames_closeScope (s : Scope) : t.unit.SameNames (closeScope s t).2.unit := by
  have hself := UnitNode.SameNames.refl t.unit
  refine sameNames_requireLive ?_
  rw [unit_bind]
  split
  · exact hself.grant _ _
  · exact hself.subsides ((UnitNode.Subsides.refl _).send _ _)

theorem sameNames_beginQuery (path : Path) : t.unit.SameNames (beginQuery path t).2.unit := by
  rw [beginQuery, bind_apply]
  change t.newRequest.2.unit.SameNames ((requireLive >>= _) t.newRequest.2).2.unit
  refine sameNames_requireLive (sameNames_commit fun hstarted ↦ ?_)
  exact hstarted.subsides ((UnitNode.Subsides.refl _).waitFor (.query path t.newRequest.1) rfl _)

theorem sameNames_addSubUnit (name : String) (kind : UnitKind γ) (roots : List Scope)
    (changed : Bool) : t.unit.SameNames (addSubUnit name kind roots changed t).2.unit :=
  sameNames_requireLive ((UnitNode.SameNames.refl _).addSubUnit name kind roots changed)

theorem isAhead_freshScope (h : t.unit.IsAhead) (base : String) (labels : List Label)
    (hasDatum sharing : Bool) : (freshScope base labels hasDatum sharing t).2.unit.IsAhead := by
  obtain ⟨-, hrefused⟩ | ⟨t', ht', hcreated⟩ := freshScope_cases t base labels hasDatum sharing
  · rwa [hrefused]
  · have hnames : t.unit.SameNames t'.unit := (UnitNode.SameNames.refl _).subsides ht'
    rw [hcreated]
    exact isAhead_create (hnames.isAhead_iff.2 h) base labels hasDatum sharing

/-- A unit that asks for reuse resumes its snapshot at once, and overlooks what it overlooks. -/
theorem isAhead_askForReuse_iff (h : t.unit.IsAhead) : (askForReuse t).2.unit.IsAhead ↔
    ¬ Action.Overlooks t.settings t.unit (.askForReuse : Action γ Bool) := by
  have hself := UnitNode.SameNames.refl t.unit
  rw [askForReuse, unit_bind, require_bind, Action.Overlooks]
  by_cases hphase : t.unit.phase = .started
  · rw [if_pos (decide_eq_true hphase), get_bind]
    by_cases hreuse : mayReuse t.settings t.unit = true
    · rw [if_pos hreuse, change_bind]
      cases hsnapshot : t.unit.previous.bind Report.snapshot with
      | some x =>
        dsimp only
        rw [change_bind, change_bind]
        let undecided : Turn γ := t.edit fun u ↦ { u with phase := .undecided }
        have hrestored : (undecided.restore x).unit.IsAhead ↔ ¬ x.Overlooks t.unit :=
          undecided.isAhead_restore_iff x
        exact hrestored.trans (by simp [hphase, hreuse])
      | none =>
        have hundecided : t.unit.SameNames (t.edit fun u ↦ { u with phase := .undecided }).unit :=
          ⟨rfl, rfl, rfl⟩
        exact hundecided.isAhead_iff.trans (by simp [h])
    · rw [if_neg hreuse, change_bind]
      have hrestarted := hself.subsides ((UnitNode.Subsides.refl _).restart .initiallyStarted)
      exact hrestarted.isAhead_iff.trans (by simp [h, hreuse])
  · rw [if_neg (by simpa using hphase)]
    exact hself.isAhead_iff.trans (by simp [h, hphase])

end Attempt

namespace UnitOp

variable {t : Turn γ}

/-- What a unit whose checker is to run makes of a message. -/
theorem sameNames_handle (hkind : t.unit.kind.isChecker = true) (m : Message) :
    t.unit.SameNames (t.handle m).unit := by
  have hself := UnitNode.SameNames.refl t.unit
  cases m with
  | start roots =>
    change t.unit.SameNames (t.start roots).unit
    rw [Turn.start]
    split
    · exact hself
    · extract_lets started told
      have htold : told.unit = started.unit := by
        unfold told
        cases started.unit.parent <;> rfl
      have hnames : t.unit.SameNames told.unit := htold ▸ ⟨rfl, rfl, rfl⟩
      have hchecker : told.unit.kind.isChecker = true := htold ▸ hkind
      split
      · exact ⟨hnames.id, hnames.scopes, hnames.counters⟩
      all_goals
        rename_i hother
        rw [hother] at hchecker
        exact absurd hchecker Bool.false_ne_true
  | initShare sender s slots sharing => exact hself.shareInitialized sender s slots sharing
  | addEdge sender e => exact hself.receiveEdge e
  | unitStarted | closeEdge | closeScope => exact hself.grant _ _
  | addShare | query | queryPrevious | confirm | counterpart => exact ⟨rfl, rfl, rfl⟩

/-- **What keeps the counters ahead.** Whatever is done to a unit with a checker keeps its counters
ahead of its scopes, except that the unit takes over a previous run and overlooks a scope. -/
theorem isAhead_run_iff (op : UnitOp γ α) (hkind : t.unit.kind.isChecker = true)
    (h : t.unit.IsAhead) : (op.run t).2.unit.IsAhead ↔ ¬ op.Overlooks t.settings t.unit := by
  have hself := UnitNode.Subsides.refl t.unit
  have hsame {v : UnitNode γ} (hnames : t.unit.SameNames v) : v.IsAhead ↔ ¬ False :=
    iff_of_true (hnames.isAhead_iff.2 h) not_false
  have hrefl := UnitNode.SameNames.refl t.unit
  cases op with
  | act a =>
    cases a with
    | freshScope base labels hasDatum sharing =>
      exact iff_of_true (Attempt.isAhead_freshScope h base labels hasDatum sharing) not_false
    | initScope s labels sharing => exact hsame (Attempt.sameNames_initScope s labels sharing)
    | shareScope s => exact hsame (Attempt.sameNames_shareScope s)
    | setDatum s d => exact hsame (Attempt.sameNames_setDatum s d)
    | addEdge e => exact hsame (Attempt.sameNames_addEdge e)
    | closeLabel s l => exact hsame (Attempt.sameNames_closeLabel s l)
    | closeScope s => exact hsame (Attempt.sameNames_closeScope s)
    | beginQuery path => exact hsame (Attempt.sameNames_beginQuery path)
    | addSubUnit name kind roots changed =>
      exact hsame (Attempt.sameNames_addSubUnit name kind roots changed)
    | askForReuse => exact Attempt.isAhead_askForReuse_iff h
  | handle m => exact hsame (sameNames_handle hkind m)
  | release p =>
    change (t.release p).unit.IsAhead ↔ ¬ (t.unit.phase = .undecided ∧ _)
    by_cases hphase : t.unit.phase = .undecided
    · cases hprevious : t.unit.previous with
      | some r =>
        rw [t.isAhead_release_iff hphase hprevious h]
        simp [hphase]
      | none =>
        rw [t.release_of_not fun r _ hsome ↦ nomatch hprevious.symm.trans hsome]
        simp [h]
    · rw [t.release_of_not fun r hundecided _ ↦ hphase hundecided]
      simp [h, hphase]
  | begin | keepState => exact hsame ⟨rfl, rfl, rfl⟩
  | eagerStart => exact hsame (hrefl.subsides hself.eagerStart)
  | checkerFinished result => exact hsame (hrefl.subsides (hself.checkerFinished result))
  | awaitDecided => exact hsame (hrefl.subsides hself.awaitDecided)
  | awaitClosed s slot => exact hsame (hrefl.subsides (hself.awaitClosed s slot))
  | awaitOpen => exact hsame (hrefl.subsides hself.awaitOpen)
  | awaitDecision => exact hsame (hrefl.subsides hself.awaitDecision)
  | awaitReport => exact hsame (hrefl.subsides hself.awaitReport)
  | ask q => exact hsame (hrefl.subsides (hself.ask q))
  | endAsking ticket => exact hsame (hrefl.grant _ _)
  | endQuery token record => exact hsame (hrefl.subsides (hself.endQuery token record))
  | matchStep s => exact hsame (hrefl.subsides (hself.matchStep s))
  | diffScope s labels => exact hsame (hrefl.subsides (hself.diffScope s labels))
  | subUnitFinished r => exact hsame (hrefl.subsides (hself.subUnitFinished r))
  | restart trace => exact hsame (hrefl.subsides (hself.restart trace))
  | endLocalPhase => exact hsame (hrefl.subsides hself.captureEnd)
  | grantClosures => exact hsame (hrefl.subsides hself.grantClosures)
  | failStuck => exact hsame (hrefl.subsides hself.failStuck)

end UnitOp

end ScopeGraphs
