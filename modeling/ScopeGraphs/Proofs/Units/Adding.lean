import ScopeGraphs.Proofs.Units.Living
import ScopeGraphs.Proofs.Units.Recording
import ScopeGraphs.Proofs.Units.Sharing

/-!
# What a unit adds

Every unit that is added is told to start, with its root scopes, by a message that is sent in the
same go, and nobody else is told to start (`UnitOp.exists_adds`). A unit that replays its previous
run adds stand-ins for the sub-units that it had then. Each of them gets the report of the sub-unit
and the renaming of the unit that adds it, and is started with the previous root scopes, renamed
(`Turn.exists_adds_replaySubUnits`). Names that occur more than once in a report do no harm: what
counts for the report is the first entry, and the first one is also the only one that is accepted.
-/

namespace ScopeGraphs

variable {γ α : Type}

/-- The starts among messages, with the units that are to start. -/
def startsAmong (messages : List (UnitId × Message)) : List (UnitId × List Scope) :=
  messages.filterMap fun m ↦ m.2.roots?.map (Prod.mk m.1)

/-! ## Units and their root scopes -/

namespace Turn

/-- In the course of a go exactly these units have been added, each to be started with its root
scopes. -/
structure Adds (t : Turn γ) (js : List (UnitNode γ × List Scope)) (t' : Turn γ) : Prop where
  newUnits : t'.effects.newUnits = t.effects.newUnits ++ js.map Prod.fst
  starts : startsAmong t'.effects.messages =
    startsAmong t.effects.messages ++ js.map fun j ↦ (j.1.id, j.2)

variable {t t' t'' : Turn γ} {js js' : List (UnitNode γ × List Scope)} {A : Deed γ → Prop}

namespace Adds

theorem of_eq (hnewUnits : t'.effects.newUnits = t.effects.newUnits)
    (hstarts : startsAmong t'.effects.messages = startsAmong t.effects.messages) :
    t.Adds [] t' :=
  ⟨hnewUnits.trans (List.append_nil _).symm, hstarts.trans (List.append_nil _).symm⟩

theorem refl (t : Turn γ) : t.Adds [] t := .of_eq rfl rfl

theorem trans (h : t.Adds js t') (h' : t'.Adds js' t'') : t.Adds (js ++ js') t'' where
  newUnits := by rw [h'.newUnits, h.newUnits, List.map_append, List.append_assoc]
  starts := by rw [h'.starts, h.starts, List.map_append, List.append_assoc]

theorem notes (h : t.Notes t') : t.Adds [] t' := .of_eq h.newUnits (congrArg _ h.messages)

theorem send (t : Turn γ) (receiver : UnitId) {m : Message} (hm : m.roots? = none) :
    t.Adds [] (t.send receiver m) := by
  refine .of_eq rfl ?_
  have hnone : startsAmong [(receiver, m)] = [] := by
    rw [startsAmong, List.filterMap_cons, hm]
    rfl
  change startsAmong (t.effects.messages ++ [(receiver, m)]) = _
  rw [startsAmong, List.filterMap_append, ← startsAmong, ← startsAmong, hnone, List.append_nil]

theorem join (t : Turn γ) (u : UnitNode γ) (roots : List Scope) :
    t.Adds [(u, roots)] ((t.addUnit u).send u.id (.start roots)) :=
  ⟨rfl, List.filterMap_append⟩

theorem deed {d : Deed γ} (hd : d.IsPlain) (hjoin : ∀ u roots, d ≠ .join u roots) :
    t.Adds [] (d.after t) := by
  cases d with
  | lower token holder =>
    rw [Deed.after, lower]
    split <;> exact .of_eq rfl rfl
  | send receiver m => exact .send t receiver (by cases m <;> first | rfl | exact hd.elim)
  | edge e =>
    rw [Deed.after, assertEdge]
    split
    · exact .of_eq rfl rfl
    · have hsent : t.Adds [] (t.send e.source.owner (.addEdge t.unit.id e)) := .send t _ rfl
      exact ⟨hsent.newUnits, hsent.starts⟩
  | datum s d =>
    rw [Deed.after, assertDatum]
    split <;> exact .of_eq rfl rfl
  | join u roots => exact absurd rfl (hjoin u roots)
  | receive e => exact hd.elim
  | raise | forget | share | hesitate => exact .of_eq rfl rfl

end Adds

/-- Whoever joins is started. -/
theorem Moves.exists_adds (h : t.Moves A t') (hA : ∀ d, A d → d.IsPlain) :
    ∃ js, t.Adds js t' ∧ ∀ j ∈ js, A (.join j.1 j.2) := by
  induction h with
  | refl => exact ⟨[], .refl t, List.forall_mem_nil _⟩
  | note _ hnotes ih =>
    obtain ⟨js, hadds, hjs⟩ := ih
    exact ⟨js, by simpa using hadds.trans (.notes hnotes), hjs⟩
  | @deed t' _ d hd ih =>
    obtain ⟨js, hadds, hjs⟩ := ih
    by_cases hjoin : ∃ u roots, d = .join u roots
    · obtain ⟨u, roots, rfl⟩ := hjoin
      exact ⟨_, hadds.trans (.join t' u roots),
        List.forall_mem_append.2 ⟨hjs, List.forall_mem_singleton.2 hd⟩⟩
    · have hnone := Adds.deed (t := t') (hA d hd) fun u roots heq ↦ hjoin ⟨u, roots, heq⟩
      exact ⟨js, by simpa using hadds.trans hnone, hjs⟩

/-- If no unit is added none is started. -/
theorem Moves.adds_nil (h : t.Moves Deed.IsPlain t')
    (hnewUnits : t'.effects.newUnits = t.effects.newUnits) : t.Adds [] t' := by
  obtain ⟨js, hadds, -⟩ := h.exists_adds fun _ hd ↦ hd
  have hnone : js.map Prod.fst = [] :=
    List.append_right_eq_self.1 (hadds.newUnits.symm.trans hnewUnits)
  rwa [List.map_eq_nil_iff.1 hnone] at hadds

end Turn

/-- **Units are started when they are added**, whatever happens to the unit that adds them. -/
theorem UnitOp.exists_adds (op : UnitOp γ α) (t : Turn γ) : ∃ js, t.Adds js (op.run t).2 := by
  cases hreceived : op.received with
  | none =>
    obtain ⟨js, hadds, -⟩ := (op.moves t hreceived).exists_adds fun _ hd ↦ hd
    exact ⟨js, hadds⟩
  | some e =>
    cases op with
    | handle m =>
      cases m with
      | addEdge sender e' =>
        refine ⟨[], ?_⟩
        change t.Adds [] (t.receiveEdge e')
        rw [Turn.receiveEdge]
        split <;> exact .of_eq rfl rfl
      | _ => contradiction
    | _ => contradiction

/-! ## Sub-units -/

/-- The sub-unit that a unit adds under a name. -/
def UnitNode.subUnit (u : UnitNode γ) (settings : Settings) (name : String) (kind : UnitKind γ)
    (changed : Bool) : UnitNode γ :=
  let node := UnitNode.new (u.id.child name) (some u.id) kind
    (u.previous.bind fun r ↦ r.sub? name) changed (settings.incremental && kind.isChecker)
  match kind with
  | .phantom true => { node with reuse := some u.reuseOrIdentity }
  | _ => node

theorem UnitNode.id_subUnit (u : UnitNode γ) (settings : Settings) (name : String)
    (kind : UnitKind γ) (changed : Bool) :
    (u.subUnit settings name kind changed).id = u.id.child name := by
  unfold subUnit
  split <;> rfl

/-- A sub-unit that is accepted is added, to be started with the root scopes. -/
theorem Turn.adds_addSubUnit (t : Turn γ) {name : String} {kind : UnitKind γ} {roots : List Scope}
    (h : t.unit.Accepts name kind roots) (changed : Bool) :
    t.Adds [(t.unit.subUnit t.settings name kind changed, roots)]
      (t.addSubUnit name kind roots changed).2 := by
  rw [addSubUnit, if_neg (by simp [h.1]), if_neg h.not_mismatch]
  extract_lets paired blank node handed waiting added
  have hstays : t.Stays waiting :=
    (((Stays.refl t).edit (by rfl)).foldl _ fun root t ↦ (Stays.refl t).handRoot _ root).waitFor _ _
  have hmoves : t.Moves (Deed.IsCalm t.unit.id) waiting := by
    have hhanded : t.Moves (Deed.IsCalm t.unit.id) handed :=
      ((Moves.refl t).edit (by rfl)).foldl _ fun root _ t _ ↦ t.moves_handRoot _ root
    exact hhanded.waitFor trivial
  have hwaiting : t.Adds [] waiting :=
    (hmoves.mono fun _ hd ↦ hd.isSilent.isPlain).adds_nil hstays.newUnits
  have hjoined : t.Adds [(node, roots)] _ := hwaiting.trans (.join waiting node roots)
  have hid : node.id = t.unit.id.child name :=
    UnitNode.id_subUnit t.unit t.settings name kind changed
  rw [hid] at hjoined
  exact ⟨hjoined.newUnits, hjoined.starts⟩

/-- A checker that may act adds the sub-units that are accepted. -/
theorem UnitOp.adds_act_addSubUnit (t : Turn γ) (hact : t.unit.mayAct = true) {name : String}
    {kind : UnitKind γ} {roots : List Scope} (h : t.unit.Accepts name kind roots)
    (changed : Bool) :
    t.Adds [(t.unit.subUnit t.settings name kind changed, roots)]
      ((UnitOp.act (.addSubUnit name kind roots changed)).run t).2 := by
  have hrun : (UnitOp.act (.addSubUnit name kind roots changed)).run t =
      t.addSubUnit name kind roots changed := by
    change Attempt.addSubUnit name kind roots changed t = _
    rw [Attempt.addSubUnit, Attempt.requireLive_bind, if_pos hact]
    rfl
  exact hrun ▸ t.adds_addSubUnit h changed

/-! ## Stand-ins that replay -/

/-- A unit that stands in for one of the previous run and has not been started: it has a report, and
the renaming of the unit that added it. -/
structure UnitNode.StandsBy (w : UnitNode γ) (r : Report) (p : Renaming) : Prop where
  phase : w.phase = .created
  previous : w.previous = some r
  reuse : w.reuse = some p
  localGraph : w.localGraph = .empty

/-- A unit to be added, with its root scopes, stands in for a sub-unit that is in a report. -/
structure Report.HasStandIn (r : Report) (above : UnitId) (p : Renaming)
    (j : UnitNode γ × List Scope) (name : String) (s : Report) : Prop where
  sub : r.sub? name = some s
  id : j.1.id = above.child name
  parent : j.1.parent = some above
  standsBy : j.1.StandsBy s p
  roots : j.2 = s.roots.map p.apply

namespace Turn

variable (t : Turn γ)

/-- A stand-in is added if its name is free. -/
theorem exists_adds_standIn {name : String} {r s : Report} (hprevious : t.unit.previous = some r)
    (hsub : r.sub? name = some s) (hfree : t.unit.subUnits.contains name = false) :
    ∃ j, t.Adds [j] (t.addSubUnit name (.phantom true)
        (s.roots.map t.unit.reuseOrIdentity.apply) false).2 ∧
      r.HasStandIn t.unit.id t.unit.reuseOrIdentity j name s := by
  have haccepts : t.unit.Accepts name (.phantom true) (s.roots.map t.unit.reuseOrIdentity.apply) :=
    ⟨hfree, nofun⟩
  have hknown : (t.unit.previous.bind fun p ↦ p.sub? name) = some s := by
    rw [hprevious]
    exact hsub
  exact ⟨_, t.adds_addSubUnit haccepts false, hsub, rfl, rfl, ⟨rfl, hknown, rfl, rfl⟩, rfl⟩

/-- What adding stand-ins one after the other changes in a unit. -/
theorem exists_adds_standIns (es : List (String × Report)) {r : Report}
    (hprevious : t.unit.previous = some r)
    (hes : ∀ name, t.unit.subUnits.contains name = false → es.lookup name = r.sub? name) :
    let t' := es.foldl (fun t e ↦ (t.addSubUnit e.1 (.phantom true)
        (e.2.roots.map t.unit.reuseOrIdentity.apply) false).2) t
    ∃ js, t.Adds js t' ∧
      (∀ j ∈ js, ∃ name s, r.HasStandIn t.unit.id t.unit.reuseOrIdentity j name s) ∧
      (∃ waits sharedPairs differ subUnits, t'.unit =
        { t.unit with
          waits := waits, sharedPairs := sharedPairs, differ := differ, subUnits := subUnits }) ∧
      ∀ name s, r.sub? name = some s → t'.unit.subUnits.contains name = true := by
  induction es generalizing t with
  | nil =>
    refine ⟨[], .refl t, List.forall_mem_nil _, ⟨_, _, _, _, rfl⟩, fun name s hs ↦ ?_⟩
    cases hcontains : t.unit.subUnits.contains name with
    | true => exact hcontains
    | false => exact nomatch (hes name hcontains).trans hs
  | cons e es ih =>
    rw [List.foldl_cons]
    cases hname : t.unit.subUnits.contains e.1 with
    | true =>
      -- The name is taken: the entry is refused, and there is nothing to be known about it.
      rw [addSubUnit_of_not_accepts t _ _ _ _ fun h ↦ nomatch hname.symm.trans h.1]
      refine ih t hprevious fun name hfree ↦ ?_
      rw [← hes name hfree, List.lookup_cons]
      have hne : name ≠ e.1 := by
        rintro rfl
        exact nomatch hname.symm.trans hfree
      rw [beq_eq_false_iff_ne.2 hne]
    | false =>
      have hsub : r.sub? e.1 = some e.2 := by
        rw [← hes e.1 hname, List.lookup_cons, beq_self_eq_true]
      obtain ⟨j, hadds, hj⟩ := t.exists_adds_standIn hprevious hsub hname
      obtain ⟨waits, sharedPairs, differ, hunit, -⟩ := t.addSubUnit_of_accepts e.1
        (.phantom true) (e.2.roots.map t.unit.reuseOrIdentity.apply) false
        ⟨hname, fun hkind ↦ Bool.noConfusion hkind⟩
      obtain ⟨js, hadds', hjs, hrest, hall⟩ := ih _ (by rw [hunit]; exact hprevious)
        fun name hfree ↦ by
          rw [hunit, Std.ExtTreeMap.contains_insert, Bool.or_eq_false_iff] at hfree
          have hne : name ≠ e.1 := by
            rintro rfl
            simp at hfree
          rw [← hes name hfree.2, List.lookup_cons, beq_eq_false_iff_ne.2 hne]
      rw [hunit] at hjs hrest
      exact ⟨_, hadds.trans hadds',
        List.forall_mem_append.2 ⟨List.forall_mem_singleton.2 ⟨_, _, hj⟩, hjs⟩, hrest, hall⟩

/-- **A unit that replays stands in for everything that is in its report.** It adds stand-ins for
sub-units of the previous run and nothing else, and has a sub-unit for each of them afterwards. -/
theorem exists_adds_replaySubUnits {r : Report} (hprevious : t.unit.previous = some r) :
    ∃ js, t.Adds js t.replaySubUnits ∧
      (∀ j ∈ js, ∃ name s, r.HasStandIn t.unit.id t.unit.reuseOrIdentity j name s) ∧
      (∃ waits sharedPairs differ subUnits, t.replaySubUnits.unit =
        { t.unit with
          waits := waits, sharedPairs := sharedPairs, differ := differ, subUnits := subUnits }) ∧
      ∀ name s, r.sub? name = some s → t.replaySubUnits.unit.subUnits.contains name = true := by
  refine t.exists_adds_standIns t.missingSubUnits hprevious fun name hfree ↦ ?_
  rw [missingSubUnits, hprevious]
  exact lookup_filter (fun name ↦ !t.unit.subUnits.contains name) _ (by simp [hfree])

end Turn

end ScopeGraphs
