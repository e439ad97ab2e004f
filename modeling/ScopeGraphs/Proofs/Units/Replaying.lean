import ScopeGraphs.Proofs.Units.Asserting
import ScopeGraphs.Proofs.Units.Subsiding

/-!
# Raising closure tokens

What happens to the slots of a unit when it raises tokens for them: when one of its scopes is
initialised, when it adds a sub-unit, when it replays its previous run and hands scopes on to
stand-ins for its previous sub-units, and when it resumes a snapshot.
-/

namespace ScopeGraphs

variable {γ : Type} {s : Scope} {slot : Slot}

/-- What has become of a closed slot of a unit: whether it is open again, and what it holds. -/
structure UnitNode.Outcome (u v : UnitNode γ) (s : Scope) (slot : Slot) (reopened : Prop)
    (written : ScopeGraph) : Prop where
  id : v.id = u.id
  isOpen_iff : v.waits.isOpen s slot = true ↔ reopened
  agreeAt : v.graph.AgreeAt (u.graph.union written) s slot

namespace UnitNode.Outcome

variable {u v : UnitNode γ} {reopened reopened' : Prop} {written : ScopeGraph}

theorem congr (h : u.Outcome v s slot reopened written) (hiff : reopened ↔ reopened') :
    u.Outcome v s slot reopened' written :=
  ⟨h.id, h.isOpen_iff.trans hiff, h.agreeAt⟩

/-- A unit that only waits for something else, and that keeps its fragment in the slot. -/
theorem of_agreeAt (hid : v.id = u.id) (hopen : v.waits.isOpen s slot = true ↔ reopened)
    (hgraph : v.graph.AgreeAt u.graph s slot) : u.Outcome v s slot reopened .empty :=
  ⟨hid, hopen, hgraph.trans ScopeGraph.agreeAt_union_empty.symm⟩

end UnitNode.Outcome

namespace Turn

variable (t : Turn γ)

/-! ## Tokens -/

/-- The tokens for some slots of a scope, and for sharing it, keep exactly these slots open, or all
of them if the scope is shared. -/
theorem any_keepsOpen {s' : Scope} {slots : List Slot} {sharing : Bool} :
    (slots.map (Token.closeSlot s') ++ if sharing then [Token.closeScope s'] else []).any
      (Token.keepsOpen s slot) = true ↔ s' = s ∧ (sharing ∨ slot ∈ slots) := by
  rw [List.any_append, Bool.or_eq_true, List.any_map, List.any_eq_true]
  have hslots : (∃ x ∈ slots, (Token.keepsOpen s slot ∘ Token.closeSlot s') x = true) ↔
      s' = s ∧ slot ∈ slots := by
    simp only [Function.comp_apply, Token.keepsOpen, Bool.and_eq_true, decide_eq_true_eq]
    constructor
    · rintro ⟨x, hx, rfl, rfl⟩
      exact ⟨rfl, hx⟩
    · rintro ⟨rfl, hx⟩
      exact ⟨slot, hx, rfl, rfl⟩
  have hsharing : (if sharing then [Token.closeScope s'] else []).any (Token.keepsOpen s slot) =
      true ↔ s' = s ∧ sharing = true := by
    cases sharing <;> simp [Token.keepsOpen]
  rw [hslots, hsharing, ← and_or_left, or_comm]

/-- Raising tokens changes nothing but what the unit waits for. -/
theorem waitForAll_spec (tokens : List Token) (holder : UnitId) :
    ∃ waits, (t.waitForAll tokens holder).unit = { t.unit with waits := waits } ∧
      ∀ p, waits.any p = (tokens.any p || t.unit.waits.any p) := by
  rw [waitForAll]
  induction tokens generalizing t with
  | nil => exact ⟨t.unit.waits, rfl, fun _ ↦ rfl⟩
  | cons token tokens ih =>
    obtain ⟨waits, hunit, hany⟩ := ih (t.waitFor token holder)
    refine ⟨waits, hunit, fun p ↦ ?_⟩
    have hadd : (t.waitFor token holder).unit.waits.any p = (p token || t.unit.waits.any p) :=
      TokenBag.any_add
    rw [hany, hadd, List.any_cons, Bool.or_left_comm, Bool.or_assoc]

/-- Asserting an edge elsewhere. -/
theorem outcome_assertEdge (hclosed : t.unit.waits.isOpen s slot = false) {e : Edge}
    (hne : ¬ (e.source = s ∧ slot = .edge e.label)) :
    t.unit.Outcome (t.assertEdge e).unit s slot False .empty := by
  have hstays : t.unit.waits.isOpen s slot = true ↔ False := by simp [hclosed]
  unfold assertEdge
  cases t.unit.owns e.source
  · exact .of_agreeAt rfl hstays (.refl _ _ _)
  · exact .of_agreeAt rfl hstays (ScopeGraph.agreeAt_addEdge hne)

/-- Asserting a datum elsewhere. -/
theorem outcome_assertDatum (hclosed : t.unit.waits.isOpen s slot = false) {s' : Scope} (d : Datum)
    (hne : ¬ (s' = s ∧ slot = .datum)) :
    t.unit.Outcome (t.assertDatum s' d).unit s slot False .empty := by
  have hstays : t.unit.waits.isOpen s slot = true ↔ False := by simp [hclosed]
  unfold assertDatum
  cases t.unit.owns s'
  · exact .of_agreeAt rfl hstays (.refl _ _ _)
  · exact .of_agreeAt rfl hstays (ScopeGraph.agreeAt_setDatum hne)

theorem waits_tryFinish : t.tryFinish.unit.waits = t.unit.waits := by
  rw [tryFinish]
  split
  · dsimp only
    rw [unit_tell]
    rfl
  · rfl

theorem waits_endLocalPhase : t.endLocalPhase.unit.waits = t.unit.waits := by
  rw [endLocalPhase, unit_tell]
  rfl

/-- Granting a token that has nothing to do with a slot leaves the slot as it was. -/
theorem isOpen_grant_of_not {token : Token} {holder : UnitId}
    (htoken : token.keepsOpen s slot = false) :
    (t.grant token holder).unit.waits.isOpen s slot = t.unit.waits.isOpen s slot := by
  rw [grant]
  split
  · rfl
  · rename_i waits hwaits
    dsimp only
    rw [waits_tryFinish, fireDelays, unit_tell]
    exact TokenBag.any_remove?_of_not hwaits htoken

/-- Initialising a scope opens the slots it is initialised with, or all of them if it is shared. -/
theorem outcome_shareInitialized (hclosed : t.unit.waits.isOpen s slot = false) (sender : UnitId)
    (s' : Scope) (slots : List Slot) (sharing : Bool) :
    t.unit.Outcome (t.shareInitialized sender s' slots sharing).unit s slot
      (s' = s ∧ (sharing ∨ slot ∈ slots)) .empty := by
  let tokens := slots.map (Token.closeSlot s') ++ if sharing then [Token.closeScope s'] else []
  have heq : t.shareInitialized sender s' slots sharing =
      (t.waitForAll tokens sender).grant (.initScope s') sender := by
    rw [shareInitialized]
    cases sharing <;> simp [tokens, waitForAll]
  obtain ⟨waits, hunit, hany⟩ := t.waitForAll_spec tokens sender
  have hopen : (t.waitForAll tokens sender).unit.waits.isOpen s slot = true ↔
      s' = s ∧ (sharing ∨ slot ∈ slots) := by
    rw [hunit, TokenBag.isOpen, hany, ← TokenBag.isOpen, hclosed, Bool.or_false]
    exact any_keepsOpen
  have hgranted := (UnitNode.Subsides.refl (t.waitForAll tokens sender).unit).grant
    (.initScope s') sender
  have hgraph : (t.shareInitialized sender s' slots sharing).unit.graph = t.unit.graph := by
    rw [heq, hgranted.graph, hunit]
  refine .of_agreeAt (by rw [heq, hgranted.id, hunit]) ?_ (hgraph ▸ .refl _ _ _)
  rw [heq, ← hopen]
  by_cases hs : s' = s
  · -- a closed slot of the scope itself is not waiting for its initialisation
    have hnone : (t.waitForAll tokens sender).unit.waits.remove? (.initScope s') sender = none := by
      rw [Option.eq_none_iff_forall_not_mem]
      intro waits' hremove
      have hmem : waits.any (· = .initScope s') = true :=
        TokenBag.any_eq_true_iff.2 ⟨_, TokenBag.mem_of_remove? (hunit ▸ hremove), by simp⟩
      rw [hany, Bool.or_eq_true] at hmem
      rcases hmem with hmem | hmem
      · revert hmem
        cases sharing <;> simp [tokens]
      · have hkeeps : t.unit.waits.isOpen s slot = true :=
          TokenBag.isOpen_of_contains hmem (decide_eq_true hs)
        exact absurd hclosed (by simp [hkeeps])
    rw [grant, hnone]
  · rw [isOpen_grant_of_not]
    exact decide_eq_false hs

/-- Announcing that a scope will be initialised opens all of its slots. -/
theorem outcome_shareAnnounced (hclosed : t.unit.waits.isOpen s slot = false) (sharer : UnitId)
    (s' : Scope) :
    t.unit.Outcome (t.shareAnnounced sharer s').unit s slot (s' = s) .empty := by
  refine .of_agreeAt rfl ?_ (.refl _ _ _)
  change (t.unit.waits.add (.initScope s') sharer).any _ = true ↔ _
  have hwaits : t.unit.waits.any (Token.keepsOpen s slot) = false := hclosed
  rw [TokenBag.any_add, hwaits, Bool.or_false, Token.keepsOpen, decide_eq_true_eq]

end Turn

/-! ## Sub-units -/

/-- Whether a unit that replays its previous run under a renaming hands a scope on to a stand-in for
one of its previous sub-units. -/
def UnitNode.HandsOn (u : UnitNode γ) (p : Renaming) (s : Scope) : Prop :=
  ∃ previous name r, u.previous = some previous ∧ previous.sub? name = some r ∧
    u.subUnits.contains name = false ∧ s ∈ r.roots.map p.apply

/-- Whether a sub-unit may be added: its name is free, and a checker gets as many root scopes as in
the previous run. -/
def UnitNode.Accepts (u : UnitNode γ) (name : String) (kind : UnitKind γ) (roots : List Scope) :
    Prop :=
  u.subUnits.contains name = false ∧
    (kind.isChecker → ∀ r, (u.previous.bind fun p ↦ p.sub? name) = some r →
      r.roots.length = roots.length)

/-- The root scopes of a sub-unit that is accepted are as many as before. -/
theorem UnitNode.Accepts.not_mismatch {u : UnitNode γ} {name : String} {kind : UnitKind γ}
    {roots : List Scope} (h : u.Accepts name kind roots) :
    ¬ (kind.isChecker && (u.previous.bind fun p ↦ p.sub? name).isSome &&
      (((u.previous.bind fun p ↦ p.sub? name).map Report.roots).getD []).length ≠
        roots.length) = true := by
  cases hsub : u.previous.bind fun p ↦ p.sub? name with
  | none => simp
  | some r =>
    intro hne
    rw [Bool.and_eq_true, Bool.and_eq_true, decide_eq_true_eq] at hne
    exact hne.2 (h.2 hne.1.1 r hsub)

namespace Turn

variable (t : Turn γ)

/-- Handing scopes to a sub-unit opens those of the unit itself. -/
theorem handRoots_spec (child : UnitId) (roots : List Scope) :
    ∃ waits, (roots.foldl (handRoot child) t).unit = { t.unit with waits := waits } ∧
      ∀ s slot, s.owner = t.unit.id →
        (waits.isOpen s slot = true ↔ s ∈ roots ∨ t.unit.waits.isOpen s slot = true) := by
  induction roots generalizing t with
  | nil => exact ⟨t.unit.waits, rfl, by simp⟩
  | cons root roots ih =>
    have hroot : ∃ waits, (handRoot child t root).unit = { t.unit with waits := waits } ∧
        ∀ s slot, s.owner = t.unit.id →
          (waits.isOpen s slot = true ↔ s = root ∨ t.unit.waits.isOpen s slot = true) := by
      rw [handRoot]
      split
      · refine ⟨_, rfl, fun s slot _ ↦ ?_⟩
        rw [TokenBag.isOpen, TokenBag.any_add, Bool.or_eq_true, Token.keepsOpen, decide_eq_true_eq,
          eq_comm]
        rfl
      · rename_i hforeign
        refine ⟨t.unit.waits, rfl, fun s slot hown ↦ (or_iff_right ?_).symm⟩
        rintro rfl
        exact hforeign (UnitNode.owns_iff.2 hown)
    obtain ⟨waits₁, hunit₁, hopen₁⟩ := hroot
    obtain ⟨waits₂, hunit₂, hopen₂⟩ := ih (handRoot child t root)
    rw [hunit₁] at hunit₂ hopen₂
    refine ⟨waits₂, hunit₂, fun s slot hown ↦ ?_⟩
    rw [hopen₂ s slot hown, hopen₁ s slot hown, List.mem_cons, or_assoc, or_left_comm]

/-- A sub-unit that is added may initialise the root scopes it is handed. -/
theorem addSubUnit_of_accepts (name : String) (kind : UnitKind γ) (roots : List Scope)
    (changed : Bool) (h : t.unit.Accepts name kind roots) :
    ∃ waits sharedPairs differ, (t.addSubUnit name kind roots changed).2.unit =
        { t.unit with
          waits := waits, sharedPairs := sharedPairs, differ := differ
          subUnits := t.unit.subUnits.insert name (t.unit.id.child name) } ∧
      ∀ s slot, s.owner = t.unit.id →
        (waits.isOpen s slot = true ↔ s ∈ roots ∨ t.unit.waits.isOpen s slot = true) := by
  rw [addSubUnit, if_neg (by simp [h.1]), if_neg h.not_mismatch]
  extract_lets paired _ node handed counted
  obtain ⟨waits, hunit, hopen⟩ := handRoots_spec paired (t.unit.id.child name) roots
  have hcounted : counted.unit =
      { paired.unit with
        waits := waits.add (.subUnit (t.unit.id.child name)) (t.unit.id.child name) } := by
    have hadd : counted.unit =
        { handed.unit with
          waits :=
            handed.unit.waits.add (.subUnit (t.unit.id.child name)) (t.unit.id.child name) } :=
      rfl
    have hhanded : handed.unit = { paired.unit with waits := waits } := hunit
    rw [hadd, hhanded]
  refine ⟨_, _, _, congrArg (fun u : UnitNode γ ↦
    { u with subUnits := u.subUnits.insert name (t.unit.id.child name) }) hcounted,
    fun s slot hown ↦ ?_⟩
  rw [TokenBag.isOpen, TokenBag.any_add]
  exact hopen s slot hown

/-- A sub-unit that is refused changes nothing. -/
theorem addSubUnit_of_not_accepts (name : String) (kind : UnitKind γ) (roots : List Scope)
    (changed : Bool) (h : ¬ t.unit.Accepts name kind roots) :
    (t.addSubUnit name kind roots changed).2 = t := by
  rw [addSubUnit]
  split
  · rfl
  · rename_i hname
    split
    · rfl
    · rename_i hroots
      refine absurd ⟨Bool.eq_false_iff.2 hname, fun hkind r hsub ↦ ?_⟩ h
      simpa [hkind, hsub] using hroots

/-- Looking up a name among the entries that pass a test on names. -/
theorem lookup_filter {β : Type} (q : String → Bool) (es : List (String × β))
    {name : String} (hname : q name = true) : (es.filter fun e ↦ q e.1).lookup name = es.lookup name := by
  induction es with
  | nil => rfl
  | cons e es ih =>
    rw [List.filter_cons, List.lookup_cons]
    split
    · rw [List.lookup_cons, ih]
    · rename_i hq
      have hne : (name == e.1) = false := by
        rw [beq_eq_false_iff_ne]
        rintro rfl
        exact hq hname
      rw [hne]
      exact ih

/-- Adding stand-ins for sub-units, one after the other; of those with one name only the first is
accepted. -/
theorem foldl_addStandIns (es : List (String × Report)) :
    ∃ v, v = (es.foldl (fun t e ↦ (t.addSubUnit e.1 (.phantom true)
        (e.2.roots.map t.unit.reuseOrIdentity.apply) false).2) t).unit ∧
      v.id = t.unit.id ∧ v.graph = t.unit.graph ∧
      ∀ s slot, s.owner = t.unit.id → (v.waits.isOpen s slot = true ↔
        (∃ name r, es.lookup name = some r ∧ t.unit.subUnits.contains name = false ∧
          s ∈ r.roots.map t.unit.reuseOrIdentity.apply) ∨ t.unit.waits.isOpen s slot = true) := by
  induction es generalizing t with
  | nil => exact ⟨t.unit, rfl, rfl, rfl, by simp⟩
  | cons e es ih =>
    obtain ⟨v, hv, hid, hgraph, hopen⟩ :=
      ih (t.addSubUnit e.1 (.phantom true) (e.2.roots.map t.unit.reuseOrIdentity.apply) false).2
    refine ⟨v, hv, ?_⟩
    by_cases hname : t.unit.subUnits.contains e.1 = true
    · rw [addSubUnit_of_not_accepts t _ _ _ _ fun h ↦ by simp [h.1] at hname] at hid hgraph hopen
      -- The name is taken already: the entry is refused, and hides later ones of its name for good.
      refine ⟨hid, hgraph, fun s slot hown ↦ (hopen s slot hown).trans (or_congr_left ?_)⟩
      refine exists_congr fun name ↦ exists_congr fun r ↦ ?_
      rw [List.lookup_cons]
      by_cases heq : name = e.1
      · simp [heq, hname]
      · rw [beq_eq_false_iff_ne.2 heq]
    · have hfree : t.unit.subUnits.contains e.1 = false := Bool.eq_false_iff.2 hname
      -- The name is free, and taken from here on: later entries of this name are refused.
      obtain ⟨waits, sharedPairs, differ, hunit, hadded⟩ := t.addSubUnit_of_accepts e.1
        (.phantom true) (e.2.roots.map t.unit.reuseOrIdentity.apply) false
        ⟨hfree, fun hkind ↦ Bool.noConfusion hkind⟩
      rw [hunit] at hid hgraph hopen
      refine ⟨hid, hgraph, fun s slot hown ↦ ?_⟩
      rw [hopen s slot hown, hadded s slot hown, ← or_assoc]
      refine or_congr_left ?_
      constructor
      · rintro (⟨name, r, hlookup, hcontains, hs⟩ | hs)
        · rw [Std.ExtTreeMap.contains_insert, Bool.or_eq_false_iff] at hcontains
          have hne : (name == e.1) = false := by
            rw [beq_eq_false_iff_ne]
            rintro rfl
            simp at hcontains
          exact ⟨name, r, by rw [List.lookup_cons, hne]; exact hlookup, hcontains.2, hs⟩
        · exact ⟨e.1, e.2, by rw [List.lookup_cons, beq_self_eq_true], hfree, hs⟩
      · rintro ⟨name, r, hlookup, hcontains, hs⟩
        rw [List.lookup_cons] at hlookup
        by_cases heq : name = e.1
        · rw [heq, beq_self_eq_true] at hlookup
          obtain rfl := Option.some.inj hlookup
          exact .inr hs
        · rw [beq_eq_false_iff_ne.2 heq] at hlookup
          refine .inl ⟨name, r, hlookup, ?_, hs⟩
          rw [Std.ExtTreeMap.contains_insert, Bool.or_eq_false_iff]
          exact ⟨by simpa [Keyed.compare_eq_iff] using fun h ↦ heq h.symm, hcontains⟩

/-- Replaying the sub-units of the previous run opens exactly the scopes that are handed on. -/
theorem replaySubUnits_spec :
    t.replaySubUnits.unit.id = t.unit.id ∧ t.replaySubUnits.unit.graph = t.unit.graph ∧
      ∀ s slot, s.owner = t.unit.id → (t.replaySubUnits.unit.waits.isOpen s slot = true ↔
        t.unit.HandsOn t.unit.reuseOrIdentity s ∨ t.unit.waits.isOpen s slot = true) := by
  rw [replaySubUnits]
  obtain ⟨v, rfl, hid, hgraph, hopen⟩ :=
    t.foldl_addStandIns t.missingSubUnits
  refine ⟨hid, hgraph, fun s slot hown ↦ (hopen s slot hown).trans (or_congr_left ?_)⟩
  rw [missingSubUnits]
  cases hprevious : t.unit.previous with
  | none =>
    constructor
    · rintro ⟨name, r, hlookup, -⟩
      exact absurd hlookup (by simp)
    · rintro ⟨previous, name, r, heq, -⟩
      exact absurd (hprevious.symm.trans heq) (by simp)
  | some previous =>
    constructor
    · rintro ⟨name, r, hlookup, hname, hs⟩
      rw [lookup_filter (fun name ↦ !t.unit.subUnits.contains name) _ (by simp [hname])] at hlookup
      exact ⟨previous, name, r, hprevious, hlookup, hname, hs⟩
    · rintro ⟨previous', name, r, heq, hlookup, hname, hs⟩
      obtain rfl := Option.some.inj (hprevious.symm.trans heq)
      refine ⟨name, r, ?_, hname, hs⟩
      rw [lookup_filter (fun name ↦ !t.unit.subUnits.contains name) _ (by simp [hname])]
      exact hlookup

end Turn

/-! ## The previous run -/

/-- The second unit is the first one after it asserted a graph, and perhaps closed slots. -/
structure UnitNode.Asserts (u v : UnitNode γ) (g : ScopeGraph) : Prop where
  id : v.id = u.id
  previous : v.previous = u.previous
  reuse : v.reuse = u.reuse
  subUnits : v.subUnits = u.subUnits
  agreeAt : ∀ {s : Scope}, s.owner = u.id → ∀ slot, v.graph.AgreeAt (u.graph.union g) s slot
  closed : ∀ {s : Scope} {slot : Slot}, u.waits.isOpen s slot = false →
    v.waits.isOpen s slot = false

theorem UnitNode.Asserts.subsides {u v w : UnitNode γ} {g : ScopeGraph} (h : u.Asserts v g)
    (h' : v.Subsides w) : u.Asserts w g where
  id := h'.id.trans h.id
  previous := h'.previous.trans h.previous
  reuse := h'.reuse.trans h.reuse
  subUnits := h'.subUnits.trans h.subUnits
  agreeAt hown slot := h'.graph ▸ h.agreeAt hown slot
  closed hclosed := h'.closed (h.closed hclosed)

namespace Turn

variable (t : Turn γ)

theorem asserts_assertGraph (g : ScopeGraph) (p : Renaming) :
    t.unit.Asserts (t.assertGraph g p).unit (g.rename p) := by
  obtain ⟨graph, localGraph, hunit, hagree⟩ := t.assertGraph_spec p g
  rw [hunit]
  exact ⟨rfl, rfl, rfl, rfl, hagree _, fun h ↦ h⟩

theorem asserts_replay (previous : Report) (p : Renaming) :
    t.unit.Asserts (t.replay previous p).unit (previous.localGraph.rename p) := by
  unfold replay
  extract_lets _ _ own _ known asserted
  have hasserted : t.unit.Asserts asserted.unit (previous.localGraph.rename p) := by
    have h := known.asserts_assertGraph previous.localGraph p
    exact ⟨h.id, h.previous, h.reuse, h.subUnits, h.agreeAt, h.closed⟩
  exact hasserted.subsides (((UnitNode.Subsides.refl _).grantAll _).closeShares)

end Turn

namespace UnitNode

variable {u v w : UnitNode γ} {g : ScopeGraph}

theorem Asserts.outcome (h : u.Asserts v g) (hown : s.owner = u.id)
    (hclosed : u.waits.isOpen s slot = false) : u.Outcome v s slot False g where
  id := h.id
  isOpen_iff := by simp [h.closed hclosed]
  agreeAt := h.agreeAt hown slot

theorem Subsides.outcome (h : u.Subsides v) (hclosed : u.waits.isOpen s slot = false) :
    u.Outcome v s slot False .empty where
  id := h.id
  isOpen_iff := by simp [h.closed hclosed]
  agreeAt := h.graph ▸ ScopeGraph.agreeAt_union_empty.symm

/-- Closing slots does not matter to a slot that was not opened. -/
theorem Outcome.subsides (h : u.Outcome v s slot False g) (h' : v.Subsides w) :
    u.Outcome w s slot False g := by
  have hclosed : v.waits.isOpen s slot = false := by simpa using h.isOpen_iff
  exact ⟨h'.id.trans h.id, by simp [h'.closed hclosed], h'.graph ▸ h.agreeAt⟩

theorem Subsides.trans_outcome {reopened : Prop} (h : u.Subsides v)
    (h' : v.Outcome w s slot reopened g) : u.Outcome w s slot reopened g :=
  ⟨h'.id.trans h.id, h'.isOpen_iff, h.graph ▸ h'.agreeAt⟩

theorem Outcome.tryFinish {t : Turn γ} {reopened : Prop} (h : u.Outcome t.unit s slot reopened g) :
    u.Outcome t.tryFinish.unit s slot reopened g := by
  have hsubsides := (Subsides.refl t.unit).tryFinish
  exact ⟨hsubsides.id.trans h.id, t.waits_tryFinish ▸ h.isOpen_iff, hsubsides.graph ▸ h.agreeAt⟩

/-- Replaying the sub-units comes last when a unit replays its previous run. -/
theorem Asserts.outcome_replaySubUnits {t : Turn γ} (h : u.Asserts t.unit g) (hown : s.owner = u.id)
    (hclosed : u.waits.isOpen s slot = false) :
    u.Outcome t.replaySubUnits.unit s slot (u.HandsOn u.reuseOrIdentity s) g := by
  obtain ⟨hid, hgraph, hopen⟩ := t.replaySubUnits_spec
  refine ⟨hid.trans h.id, ?_, hgraph ▸ h.agreeAt hown slot⟩
  rw [hopen s slot (hown.trans h.id.symm), h.closed hclosed, HandsOn, HandsOn, h.previous,
    h.subUnits, reuseOrIdentity, reuseOrIdentity, h.reuse]
  simp

end UnitNode

/-- Whether a unit that resumes a snapshot keeps a slot open. -/
def Snapshot.KeepsOpen (x : Snapshot) (s : Scope) (slot : Slot) : Prop :=
  s ∈ x.uninitialized ∨ s ∈ x.openScopes ∨ (s, slot) ∈ x.openSlots

namespace Turn

variable (t : Turn γ)

theorem outcome_release {p : Renaming} {previous : Report} (hphase : t.unit.phase = .undecided)
    (hprevious : t.unit.previous = some previous) (hown : s.owner = t.unit.id)
    (hclosed : t.unit.waits.isOpen s slot = false) :
    t.unit.Outcome (t.release p).unit s slot (t.unit.HandsOn p s)
      (previous.localGraph.rename p) := by
  unfold release
  split
  · rename_i previous' _ hsome
    obtain rfl : previous' = previous := Option.some.inj (hsome.symm.trans hprevious)
    extract_lets replayed told settled
    let renamed : UnitNode γ := { t.unit with reuse := some p }
    have hreplayed : renamed.Asserts replayed.unit (previous'.localGraph.rename p) :=
      asserts_replay (t.edit fun u ↦ { u with reuse := some p }) previous' p
    clear_value replayed
    have htold : replayed.unit.Subsides told.unit := (UnitNode.Subsides.refl _).edit (by rfl)
    have hsettled : replayed.unit.Subsides settled.unit :=
      ((htold.settleActive _).settleDecision _).endLocalPhase
    have h := (hreplayed.subsides (hsettled.grant .activate settled.unit.id)).outcome_replaySubUnits
      hown hclosed
    exact ⟨h.id, h.isOpen_iff, h.agreeAt⟩
  · rename_i hne
    exact absurd hprevious (hne previous hphase)

theorem release_of_not {p : Renaming}
    (h : ∀ previous, t.unit.phase = .undecided → t.unit.previous = some previous → False) :
    t.release p = t := by
  unfold release
  split
  · rename_i previous hphase hprevious
    exact (h previous hphase hprevious).elim
  · rfl

/-! ## Starting and resuming -/

theorem outcome_startReplaying {previous : Report} (hprevious : t.unit.previous = some previous)
    (hown : s.owner = t.unit.id) (hclosed : t.unit.waits.isOpen s slot = false) :
    t.unit.Outcome t.startReplaying.unit s slot
      (t.unit.HandsOn (t.unit.rootPairs t.unit.reuseOrIdentity) s)
      (previous.localGraph.rename (t.unit.rootPairs t.unit.reuseOrIdentity)) := by
  unfold startReplaying
  split
  · rename_i hnone
    exact absurd hprevious (by simp [hnone])
  · rename_i previous' hsome
    obtain rfl : previous' = previous := Option.some.inj (hsome.symm.trans hprevious)
    extract_lets p replayed told handed
    let renamed : UnitNode γ := { t.unit with reuse := some p }
    have hreplayed : renamed.Asserts replayed.unit (previous'.localGraph.rename p) :=
      asserts_replay (t.edit fun u ↦ { u with reuse := some p }) previous' p
    clear_value replayed
    have htold : replayed.unit.Subsides told.unit := (UnitNode.Subsides.refl _).edit (by rfl)
    have hsettled := (htold.settleActive .reusing).settleDecision (some p)
    have h : renamed.Outcome handed.unit s slot (renamed.HandsOn renamed.reuseOrIdentity s) _ :=
      (hreplayed.subsides hsettled).outcome_replaySubUnits hown hclosed
    exact UnitNode.Outcome.tryFinish ⟨h.id, h.isOpen_iff, h.agreeAt⟩

/-- A library that cannot be bound asserts nothing. -/
theorem outcome_startLibrary (lib : Library) (hown : s.owner = t.unit.id)
    (hclosed : t.unit.waits.isOpen s slot = false) :
    t.unit.Outcome (t.startLibrary lib).unit s slot False
      (match lib.bind t.unit.id t.unit.roots with
        | .ok (_, graph) => graph.rename .identity
        | .error _ => .empty) := by
  unfold startLibrary
  extract_lets asserted active settled
  have hasserted : t.unit.Outcome asserted.unit s slot False
      (match lib.bind t.unit.id t.unit.roots with
        | .ok (_, graph) => graph.rename .identity
        | .error _ => .empty) := by
    unfold asserted
    cases lib.bind t.unit.id t.unit.roots with
    | ok bound =>
      let known : Turn γ := t.edit fun u ↦
        { u with scopes := bound.1.foldl (fun ss s ↦ ss.insert s) u.scopes }
      have h : known.unit.Outcome (known.assertGraph bound.2 .identity).unit s slot False
          (bound.2.rename .identity) :=
        (known.asserts_assertGraph bound.2 .identity).outcome hown hclosed
      exact ⟨h.id, h.isOpen_iff, h.agreeAt⟩
    | error e =>
      -- A library that cannot be bound leaves a failure behind and nothing else.
      have h : t.unit.Subsides
          (t.edit fun u ↦ { u with failures := u.failures ++ [e.message] }).unit :=
        (UnitNode.Subsides.refl _).edit (by rfl)
      exact h.outcome hclosed
  clear_value asserted
  have hactive : asserted.unit.Subsides active.unit := (UnitNode.Subsides.refl _).edit (by rfl)
  have hsettled : asserted.unit.Subsides settled.unit :=
    ((hactive.settleActive _).settleDecision _).closeShares
  exact hasserted.subsides (hsettled.edit (by rfl)).tryFinish

theorem resumeRoots_spec (x : Snapshot) (pairs : List (Scope × Scope)) :
    ∃ initialized shared, (pairs.foldl (resumeRoot x) t).unit =
      { t.unit with initialized := initialized, shared := shared } := by
  induction pairs generalizing t with
  | nil => exact ⟨t.unit.initialized, t.unit.shared, rfl⟩
  | cons e pairs ih =>
    obtain ⟨initialized, shared, hunit⟩ := ih (resumeRoot x t e)
    rw [List.foldl_cons, hunit, resumeRoot]
    split
    · exact ⟨initialized, shared, rfl⟩
    · exact ⟨initialized, shared, rfl⟩

theorem outcome_restore (x : Snapshot) (hown : s.owner = t.unit.id)
    (hclosed : t.unit.waits.isOpen s slot = false) :
    t.unit.Outcome (t.restore x).unit s slot (x.KeepsOpen s slot)
      (x.graph.rename (t.unit.rootPairs .identity)) := by
  unfold restore
  extract_lets me known initialized opened own slotted asserted before resumed
  -- Tokens come back in three rounds, by kind, and nothing but the bag changes in between.
  obtain ⟨waits₁, hunit₁, hany₁⟩ := known.waitForAll_spec (x.uninitialized.map .initScope) me
  obtain ⟨waits₂, hunit₂, hany₂⟩ := initialized.waitForAll_spec (x.openScopes.map .closeScope) me
  obtain ⟨waits₃, hunit₃, hany₃⟩ :=
    opened.waitForAll_spec (own.map fun o ↦ .closeSlot o.1 o.2) me
  have hinitialized : initialized.unit = { known.unit with waits := waits₁ } := hunit₁
  have hopened : opened.unit = { known.unit with waits := waits₂ } := by
    rw [show opened.unit = { initialized.unit with waits := waits₂ } from hunit₂, hinitialized]
  have hslotted : slotted.unit = { known.unit with waits := waits₃ } := by
    rw [show slotted.unit = { opened.unit with waits := waits₃ } from hunit₃, hopened]
  have hopen : waits₃.isOpen s slot = true ↔ x.KeepsOpen s slot := by
    have howns : opened.unit.owns s = true := hopened ▸ UnitNode.owns_iff.2 hown
    have hwaits₁ : initialized.unit.waits = waits₁ := by rw [hinitialized]
    have hwaits₂ : opened.unit.waits = waits₂ := by rw [hopened]
    have hwaits : known.unit.waits.any (Token.keepsOpen s slot) = false := hclosed
    rw [TokenBag.isOpen, hany₃, hwaits₂, hany₂, hwaits₁, hany₁, hwaits, Bool.or_false,
      Bool.or_eq_true, Bool.or_eq_true, Snapshot.KeepsOpen]
    simp only [List.any_map, List.any_eq_true, Function.comp_apply, Token.keepsOpen,
      Bool.and_eq_true, decide_eq_true_eq, own, List.mem_filter]
    grind
  -- The graph comes back, and then what the unit had initialised and shared.
  obtain ⟨graph, localGraph, hunit₄, hagree⟩ :=
    slotted.assertGraph_spec (slotted.unit.rootPairs .identity) x.graph
  obtain ⟨inits, shared, hunit₅⟩ := asserted.resumeRoots_spec x (before.zip asserted.unit.roots)
  have hresumed : resumed.unit =
      { asserted.unit with initialized := inits, shared := shared } := hunit₅
  have hasserted : asserted.unit =
      { slotted.unit with graph := graph, localGraph := localGraph } := hunit₄
  have hend : resumed.unit.Subsides
      (resumed.edit fun u ↦ { u with snapshot := some x }).endLocalPhase.unit :=
    ((UnitNode.Subsides.refl _).edit (by rfl)).endLocalPhase
  refine ⟨hend.id.trans ?_, ?_, ?_⟩
  · rw [hresumed, hasserted, hslotted]
    rfl
  · rw [waits_endLocalPhase, ← hopen]
    change resumed.unit.waits.isOpen s slot = true ↔ _
    rw [hresumed, hasserted, hslotted]
  · rw [hend.graph, hresumed, hasserted]
    have h := hagree s (by rw [hslotted]; exact hown) slot
    rw [hslotted] at h
    exact h

end Turn

end ScopeGraphs
