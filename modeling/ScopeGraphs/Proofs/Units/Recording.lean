import ScopeGraphs.Proofs.Contents
import ScopeGraphs.Proofs.Units.Conduct

/-!
# What a unit records

Whatever a unit asserts ends up in two or three places: in the graph of what it has asserted itself,
and in its fragment if the source is a scope of its own. An edge of a scope of another unit is sent
to that unit instead. `Turn.Records` says that in the course of a go exactly some edges and data
were asserted, in order. Nothing else ever changes the graphs of a unit, but the arrival of an edge
that another unit asserts.
-/

namespace ScopeGraphs

variable {γ α : Type}

namespace ScopeGraph

/-- The graph with more edges and data, entered one after the other. -/
def extend (g : ScopeGraph) (es : List Edge) (ds : List (Scope × Datum)) : ScopeGraph where
  edges := es.foldl (fun es e ↦ es.insert e) g.edges
  data := ds.foldl (fun ds e ↦ ds.insert e.1 e.2) g.data

variable {g : ScopeGraph} {es es' : List Edge} {ds ds' : List (Scope × Datum)}

theorem extend_extend : (g.extend es ds).extend es' ds' = g.extend (es ++ es') (ds ++ ds') := by
  simp [extend]

theorem extend_empty : empty.extend es ds = .of es ds := by
  refine congrArg₂ mk (Std.ExtTreeSet.ext_mem fun e ↦ ?_) (Std.ExtTreeMap.ext_getElem? fun s ↦ ?_)
  · rw [SortedSet.mem_foldl_insert, SortedSet.mem_ofList]
    exact or_iff_left Std.ExtTreeSet.not_mem_empty
  · rw [SortedMap.getElem?_foldl_insert]
    exact (Option.or_none).trans rfl

theorem mem_edges_extend {e : Edge} : e ∈ (g.extend es ds).edges ↔ e ∈ es ∨ e ∈ g.edges :=
  SortedSet.mem_foldl_insert

theorem datum?_extend {s : Scope} :
    (g.extend es ds).datum? s = (SortedMap.ofList ds)[s]?.or (g.datum? s) :=
  SortedMap.getElem?_foldl_insert _ _ _

end ScopeGraph

/-- The edges among messages, with the units they are sent to. -/
def edgesAmong (messages : List (UnitId × Message)) : List (UnitId × Edge) :=
  messages.filterMap fun e ↦
    match e.2 with
    | .addEdge _ edge => some (e.1, edge)
    | _ => none

namespace Turn

/-- In the course of a go the unit has asserted exactly these edges and data. -/
structure Records (t : Turn γ) (es : List Edge) (ds : List (Scope × Datum)) (t' : Turn γ) : Prop
    where
  id : t'.unit.id = t.unit.id
  localGraph : t'.unit.localGraph = t.unit.localGraph.extend es ds
  graph : t'.unit.graph = t.unit.graph.extend (es.filter fun e ↦ e.source.owner = t.unit.id)
    (ds.filter fun e ↦ e.1.owner = t.unit.id)
  sent : edgesAmong t'.effects.messages = edgesAmong t.effects.messages ++
    (es.filter fun e ↦ e.source.owner ≠ t.unit.id).map fun e ↦ (e.source.owner, e)
  newUnits : ∃ us, t'.effects.newUnits = t.effects.newUnits ++ us ∧
    ∀ u ∈ us, u.IsBlank

namespace Records

variable {t t' t'' : Turn γ} {es es' : List Edge} {ds ds' : List (Scope × Datum)}

theorem refl (t : Turn γ) : t.Records [] [] t where
  id := rfl
  localGraph := rfl
  graph := rfl
  sent := (List.append_nil _).symm
  newUnits := ⟨[], (List.append_nil _).symm, List.forall_mem_nil _⟩

theorem trans (h : t.Records es ds t') (h' : t'.Records es' ds' t'') :
    t.Records (es ++ es') (ds ++ ds') t'' where
  id := h'.id.trans h.id
  localGraph := by rw [h'.localGraph, h.localGraph, ScopeGraph.extend_extend]
  graph := by
    rw [h'.graph, h.graph, ScopeGraph.extend_extend, h.id, List.filter_append, List.filter_append]
  sent := by
    rw [h'.sent, h.sent, h.id, List.filter_append, List.map_append, List.append_assoc]
  newUnits := by
    obtain ⟨us, hus, hblank⟩ := h.newUnits
    obtain ⟨us', hus', hblank'⟩ := h'.newUnits
    refine ⟨us ++ us', by rw [hus', hus, List.append_assoc], fun u hu ↦ ?_⟩
    exact (List.mem_append.1 hu).elim (hblank u) (hblank' u)

/-- Bookkeeping records nothing. -/
theorem notes (h : t.Notes t') : t.Records [] [] t' where
  id := h.unit.id
  localGraph := h.unit.localGraph
  graph := h.unit.graph
  sent := by rw [h.messages]; exact (List.append_nil _).symm
  newUnits := ⟨[], by rw [h.newUnits, List.append_nil], List.forall_mem_nil _⟩

/-- A change that concerns neither graphs nor edges on their way nor new units. -/
theorem of_eq (hid : t'.unit.id = t.unit.id) (hlocal : t'.unit.localGraph = t.unit.localGraph)
    (hgraph : t'.unit.graph = t.unit.graph)
    (hsent : edgesAmong t'.effects.messages = edgesAmong t.effects.messages)
    (hnew : t'.effects.newUnits = t.effects.newUnits) : t.Records [] [] t' where
  id := hid
  localGraph := hlocal
  graph := hgraph
  sent := by rw [hsent]; exact (List.append_nil _).symm
  newUnits := ⟨[], by rw [hnew, List.append_nil], List.forall_mem_nil _⟩

theorem assertEdge (t : Turn γ) (e : Edge) : t.Records [e] [] (t.assertEdge e) := by
  by_cases hown : e.source.owner = t.unit.id
  · have heq : t.assertEdge e = t.edit fun u ↦
        { u with graph := u.graph.addEdge e, localGraph := u.localGraph.addEdge e } := by
      rw [Turn.assertEdge, if_pos (UnitNode.owns_iff.2 hown)]
      rfl
    have hkept : [e].filter (fun e ↦ e.source.owner = t.unit.id) = [e] := by simp [hown]
    have hsent : [e].filter (fun e ↦ e.source.owner ≠ t.unit.id) = [] := by simp [hown]
    rw [heq]
    refine ⟨rfl, rfl, ?_, ?_, [], (List.append_nil _).symm, List.forall_mem_nil _⟩
    · rw [hkept]
      rfl
    · rw [hsent]
      exact (List.append_nil _).symm
  · have heq : t.assertEdge e = (t.send e.source.owner (.addEdge t.unit.id e)).edit fun u ↦
        { u with localGraph := u.localGraph.addEdge e } := by
      rw [Turn.assertEdge, if_neg fun h ↦ hown (UnitNode.owns_iff.1 h)]
    have hkept : [e].filter (fun e ↦ e.source.owner = t.unit.id) = [] := by simp [hown]
    have hsent : [e].filter (fun e ↦ e.source.owner ≠ t.unit.id) = [e] := by simp [hown]
    rw [heq]
    refine ⟨rfl, rfl, ?_, ?_, [], (List.append_nil _).symm, List.forall_mem_nil _⟩
    · rw [hkept]
      rfl
    · rw [hsent]
      exact List.filterMap_append

theorem assertDatum (t : Turn γ) (s : Scope) (d : Datum) :
    t.Records [] [(s, d)] (t.assertDatum s d) := by
  by_cases hown : s.owner = t.unit.id
  · have heq : t.assertDatum s d = t.edit fun u ↦
        { u with graph := u.graph.setDatum s d, localGraph := u.localGraph.setDatum s d } := by
      rw [Turn.assertDatum, if_pos (UnitNode.owns_iff.2 hown)]
      rfl
    have hkept : [(s, d)].filter (fun e ↦ e.1.owner = t.unit.id) = [(s, d)] := by simp [hown]
    rw [heq]
    refine ⟨rfl, rfl, ?_, (List.append_nil _).symm, [], (List.append_nil _).symm,
      List.forall_mem_nil _⟩
    rw [hkept]
    rfl
  · have heq : t.assertDatum s d = t.edit fun u ↦
        { u with localGraph := u.localGraph.setDatum s d } := by
      rw [Turn.assertDatum, if_neg fun h ↦ hown (UnitNode.owns_iff.1 h)]
    have hkept : [(s, d)].filter (fun e ↦ e.1.owner = t.unit.id) = [] := by simp [hown]
    rw [heq]
    refine ⟨rfl, rfl, ?_, (List.append_nil _).symm, [], (List.append_nil _).symm,
      List.forall_mem_nil _⟩
    rw [hkept]
    rfl

end Records

/-! ## Deeds -/

variable {t t' : Turn γ}

theorem Records.silent {d : Deed γ} (hd : d.IsSilent) : t.Records [] [] (d.after t) := by
  cases d with
  | lower token holder =>
    rw [Deed.after, lower]
    split
    · exact .refl t
    · exact .of_eq rfl rfl rfl rfl rfl
  | send receiver m =>
    refine .of_eq rfl rfl rfl ?_ rfl
    have hnone : edgesAmong [(receiver, m)] = [] := by
      cases m <;> first | rfl | exact hd.elim
    change edgesAmong (t.effects.messages ++ [(receiver, m)]) = _
    rw [edgesAmong, List.filterMap_append, ← edgesAmong, ← edgesAmong, hnone, List.append_nil]
  | join u roots =>
    refine ⟨rfl, rfl, rfl, ?_, [u], rfl, fun v hv ↦ ?_⟩
    · change edgesAmong (t.effects.messages ++ [(u.id, .start roots)]) = _
      exact List.filterMap_append
    · obtain rfl := List.mem_singleton.1 hv
      exact hd
  | raise | forget | share | hesitate => exact .of_eq rfl rfl rfl rfl rfl
  | edge | datum | receive => exact hd.elim

/-- Deeds that assert nothing record nothing. -/
theorem Moves.records (h : t.Moves Deed.IsSilent t') : t.Records [] [] t' := by
  induction h with
  | refl => exact .refl t
  | note _ hnotes ih => exact ih.trans (.notes hnotes)
  | deed _ hd ih => exact ih.trans (.silent hd)

/-- What a unit asserts by plain deeds it records. -/
theorem Moves.exists_records (h : t.Moves Deed.IsPlain t') : ∃ es ds, t.Records es ds t' := by
  induction h with
  | refl => exact ⟨[], [], .refl t⟩
  | note _ hnotes ih =>
    obtain ⟨es, ds, h⟩ := ih
    exact ⟨_, _, h.trans (.notes hnotes)⟩
  | @deed t' _ d hd ih =>
    obtain ⟨es, ds, h⟩ := ih
    by_cases hsilent : d.IsSilent
    · exact ⟨_, _, h.trans (.silent hsilent)⟩
    · cases d with
      | edge e => exact ⟨_, _, h.trans (.assertEdge t' e)⟩
      | datum s d => exact ⟨_, _, h.trans (.assertDatum t' s d)⟩
      | raise | lower | forget | send | join | receive | share | hesitate => exact (hsilent hd).elim

/-- Nothing is recorded before and after. -/
theorem Records.moves {t'' : Turn γ} {es : List Edge} {ds : List (Scope × Datum)}
    (h : t.Records es ds t') (h' : t'.Moves Deed.IsSilent t'') : t.Records es ds t'' := by
  simpa using h.trans h'.records

theorem Moves.trans_records {t'' : Turn γ} {es : List Edge} {ds : List (Scope × Datum)}
    (h : t.Moves Deed.IsSilent t') (h' : t'.Records es ds t'') : t.Records es ds t'' :=
  h.records.trans h'

/-! ## Whole graphs -/

variable (t : Turn γ) (p : Renaming)

theorem records_assertGraph (g : ScopeGraph) :
    t.Records (g.edges.toList.map (Edge.rename p))
      (g.data.toList.map fun e ↦ (p.apply e.1, e.2.rename p)) (t.assertGraph g p) := by
  have hedges (es : List Edge) (t : Turn γ) :
      t.Records (es.map (Edge.rename p)) []
        (es.foldl (fun t e ↦ t.assertEdge (e.rename p)) t) := by
    induction es generalizing t with
    | nil => exact .refl t
    | cons e es ih => exact (Records.assertEdge t (e.rename p)).trans (ih _)
  have hdata (ds : List (Scope × Datum)) (t : Turn γ) :
      t.Records [] (ds.map fun e ↦ (p.apply e.1, e.2.rename p))
        (ds.foldl (fun t e ↦ t.assertDatum (p.apply e.1) (e.2.rename p)) t) := by
    induction ds generalizing t with
    | nil => exact .refl t
    | cons e ds ih => exact (Records.assertDatum t (p.apply e.1) (e.2.rename p)).trans (ih _)
  have hboth := (hedges g.edges.toList t).trans (hdata g.data.toList _)
  rw [List.append_nil, List.nil_append] at hboth
  exact hboth

theorem records_replay (previous : Report) :
    t.Records (previous.localGraph.edges.toList.map (Edge.rename p))
      (previous.localGraph.data.toList.map fun e ↦ (p.apply e.1, e.2.rename p))
      (t.replay previous p) := by
  unfold replay
  extract_lets captured known own counters begun asserted
  have hbegun : t.Moves Deed.IsSilent begun := (Moves.refl t).edit (by rfl)
  have hasserted := hbegun.trans_records (begun.records_assertGraph p previous.localGraph)
  exact (hasserted.moves ((Moves.refl asserted).grantAll fun _ _ ↦ trivial)).moves
    ((moves_closeShares _).mono fun d (h : d.IsDiscreet t.unit.id) ↦ h.isSilent)

/-- A unit that reuses its previous result asserts what it asserted then, renamed. -/
theorem records_release {previous : Report} (hphase : t.unit.phase = .undecided)
    (hprevious : t.unit.previous = some previous) :
    t.Records (previous.localGraph.edges.toList.map (Edge.rename p))
      (previous.localGraph.data.toList.map fun e ↦ (p.apply e.1, e.2.rename p)) (t.release p) := by
  unfold release
  split
  · rename_i previous' _ hsome
    obtain rfl : previous' = previous := Option.some.inj (hsome.symm.trans hprevious)
    extract_lets replayed told settled
    have hrenamed : t.Moves Deed.IsSilent (t.edit fun u ↦ { u with reuse := some p }) :=
      (Moves.refl t).edit (by rfl)
    have hreplayed : t.Records _ _ replayed :=
      hrenamed.trans_records (records_replay _ p previous')
    clear_value replayed
    have htold : replayed.Moves Deed.IsSilent told := (Moves.refl _).enter rfl ⟨nofun, nofun⟩
    have hsettled : replayed.Moves Deed.IsSilent settled :=
      ((htold.settleActive _).settleDecision _).endLocalPhase
    exact (hreplayed.moves (hsettled.grant trivial)).moves
      (moves_replaySubUnits _ (fun d (h : d.IsCalm t.unit.id) ↦ h.isSilent) fun _ _ h ↦ h)
  · rename_i hne
    exact absurd hprevious (hne previous hphase)

end Turn

/-- Whatever happens to a unit, it records what it asserts, except that an edge of another unit may
arrive. -/
theorem UnitOp.exists_records (op : UnitOp γ α) (t : Turn γ) (hop : op.received = none) :
    ∃ es ds, t.Records es ds (op.run t).2 :=
  (op.moves t hop).exists_records

/-- Units that are added have not done anything. -/
theorem UnitOp.exists_blank (op : UnitOp γ α) (t : Turn γ) :
    ∃ us, (op.run t).2.effects.newUnits = t.effects.newUnits ++ us ∧ ∀ u ∈ us, u.IsBlank := by
  obtain hmoves | ⟨e, heq⟩ := op.moves_or_receives t
  · obtain ⟨es, ds, hrecords⟩ := hmoves.exists_records
    exact hrecords.newUnits
  · refine ⟨[], ?_, List.forall_mem_nil _⟩
    rw [heq, Turn.receiveEdge, List.append_nil]
    split <;> rfl

end ScopeGraphs
