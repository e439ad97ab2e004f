import ScopeGraphs.Proofs.Engine.Courses
import ScopeGraphs.Proofs.Units.Recording

/-!
# No edge is lost

A unit keeps in its local graph what it asserts itself, and in its fragment what anybody has
asserted on its scopes. Between the two an edge travels as a message, through a mailbox, or by way
of the parked messages if the owner of its source does not exist yet. In every course of a run, an
edge is in some local graph exactly if it has arrived, is on its way, or was dropped because nobody
was there to take it (`Core.Course.asserted_iff`). Data do not travel: those in the fragment of a
unit are those of its local graph on its own scopes.
-/

namespace ScopeGraphs

variable {γ α : Type}

/-! ## Edges on their way -/

theorem mem_edgesAmong {id : UnitId} {e : Edge} {ms : List (UnitId × Message)} :
    (id, e) ∈ edgesAmong ms ↔ ∃ sender, (id, .addEdge sender e) ∈ ms := by
  rw [edgesAmong, List.mem_filterMap]
  constructor
  · rintro ⟨⟨id', m⟩, hmem, heq⟩
    split at heq
    · rename_i sender _ hm
      obtain ⟨rfl, rfl⟩ := Prod.mk.inj (Option.some.inj heq)
      exact ⟨sender, hm ▸ hmem⟩
    · contradiction
  · rintro ⟨sender, hmem⟩
    exact ⟨_, hmem, rfl⟩

/-- An edge that is brought by one of several messages. -/
def Edge.Among (e : Edge) (ms : List Message) : Prop := ∃ sender, .addEdge sender e ∈ ms

namespace Edge.Among

variable {e : Edge} {ms ms' : List Message}

theorem append_iff : e.Among (ms ++ ms') ↔ e.Among ms ∨ e.Among ms' := by
  simp only [Edge.Among, List.mem_append, exists_or]

theorem sentTo_iff {id : UnitId} {ms : List (UnitId × Message)} :
    e.Among (sentTo id ms) ↔ (id, e) ∈ edgesAmong ms := by
  rw [mem_edgesAmong]
  exact exists_congr fun _ ↦ mem_sentTo

end Edge.Among

namespace Core

/-- Some unit has asserted an edge. -/
def Asserted (c : Core γ) (e : Edge) : Prop :=
  ∃ (id : UnitId) (u : UnitNode γ), c.units[id]? = some u ∧ e ∈ u.localGraph.edges

/-- An edge has arrived at the unit that owns its source. -/
def Arrived (c : Core γ) (e : Edge) : Prop :=
  ∃ u : UnitNode γ, c.units[e.source.owner]? = some u ∧ e ∈ u.graph.edges

variable {c c' : Core γ} {us : List (UnitNode γ)} {ms : List (UnitId × Message)} {id : UnitId}
  {u : UnitNode γ}

/-- A unit that is added has asserted nothing. -/
theorem asserted_addUnit {e : Edge} (hlocal : u.localGraph = .empty) :
    (c.addUnit u).Asserted e ↔ c.Asserted e := by
  constructor
  · rintro ⟨id, v, hv, he⟩
    rcases units_addUnit_eq_some_iff.1 hv with hold | ⟨-, -, rfl⟩
    · exact ⟨id, v, hold, he⟩
    · exact absurd (hlocal ▸ he) Std.ExtTreeSet.not_mem_empty
  · rintro ⟨id, v, hv, he⟩
    exact ⟨id, v, units_addUnit_eq_some_iff.2 (.inl hv), he⟩

/-- Nothing has arrived at a unit that is added. -/
theorem arrived_addUnit {e : Edge} (hgraph : u.graph = .empty) :
    (c.addUnit u).Arrived e ↔ c.Arrived e := by
  constructor
  · rintro ⟨v, hv, he⟩
    rcases units_addUnit_eq_some_iff.1 hv with hold | ⟨-, -, rfl⟩
    · exact ⟨v, hold, he⟩
    · exact absurd (hgraph ▸ he) Std.ExtTreeSet.not_mem_empty
  · rintro ⟨v, hv, he⟩
    exact ⟨v, units_addUnit_eq_some_iff.2 (.inl hv), he⟩

/-! ## The invariant -/

/-- What is known of edges and data while units are still to be added and messages to be sent, when
some edges were dropped. -/
structure Accounts (c : Core γ) (us : List (UnitNode γ)) (ms : List (UnitId × Message))
    (lost : Edge → Prop) : Prop where
  housed : c.Housed
  blank : ∀ u ∈ us, u.graph = .empty ∧ u.localGraph = .empty
  addressed : ∀ (id : UnitId) (e : Edge), e.Among (c.coming ms id) → e.source.owner = id
  edges : ∀ e : Edge, c.Asserted e ↔ c.Arrived e ∨ e.Among (c.coming ms e.source.owner) ∨ lost e
  data : ∀ (id : UnitId) (u : UnitNode γ), c.units[id]? = some u → ∀ s : Scope,
    u.graph.datum? s = if s.owner = id then u.localGraph.datum? s else none

namespace Accounts

variable {lost lost' : Edge → Prop}

theorem other (h : c.Accounts us ms lost) (hunits : c'.units = c.units)
    (hmail : c'.mail = c.mail) : c'.Accounts us ms lost where
  housed := h.housed.other hunits hmail
  blank := h.blank
  addressed id e := by
    rw [coming, hmail]
    exact h.addressed id e
  edges e := by
    rw [Asserted, Arrived, coming, hunits, hmail]
    exact h.edges e
  data id u hu := h.data id u (hunits ▸ hu)

theorem joined (h : c.Accounts (u :: us) ms lost) : (c.addUnit u).Accounts us ms lost := by
  obtain ⟨hgraph, hlocal⟩ := h.blank u List.mem_cons_self
  refine ⟨h.housed.addUnit u, fun v hv ↦ h.blank v (List.mem_cons_of_mem _ hv),
    fun id e he ↦ h.addressed id e (coming_addUnit u ▸ he), fun e ↦ ?_, fun id v hv s ↦ ?_⟩
  · rw [asserted_addUnit hlocal, arrived_addUnit hgraph, coming_addUnit, h.edges]
  · rcases units_addUnit_eq_some_iff.1 hv with hold | ⟨-, -, rfl⟩
    · exact h.data id v hold s
    · rw [hgraph, hlocal]
      split <;> rfl

/-- A message that is sent is still on its way. -/
theorem posted {m : UnitId × Message} (h : c.Accounts [] (m :: ms) lost) :
    (c.post m).Accounts [] ms lost where
  housed := h.housed.post m
  blank := h.blank
  addressed id e := by
    rw [coming_post h.housed]
    exact h.addressed id e
  edges e := by
    rw [coming_post h.housed]
    exact h.edges e
  data := h.data

theorem applyEffects (origin : UnitId) (e : Effects γ)
    (h : c.Accounts e.newUnits e.messages lost) :
    (c.applyEffects origin e).Accounts [] [] lost :=
  applyEffects_induction (P := fun c us ms ↦ c.Accounts us ms lost) origin e
    (fun hunits _ hmail h ↦ h.other hunits hmail) (fun _ _ _ _ h ↦ h.joined)
    (fun _ _ _ h ↦ h.posted) h

/-- A message that brings no edge is taken out of a mailbox. -/
theorem taken (h : c.Accounts [] [] lost) {m : Message} {mail : Mailboxes Message}
    (hmail : c.mail.Takes id m mail) (hm : ∀ e : Edge, ¬ e.Among [m]) :
    ({ c with mail := mail } : Core γ).Accounts [] [] lost where
  housed := h.housed.takes hmail
  blank := h.blank
  addressed v e he := by
    refine h.addressed v e ?_
    rw [coming_nil] at he ⊢
    rw [hmail.queue v]
    exact Edge.Among.append_iff.2 (.inr he)
  edges e := by
    rw [coming_nil]
    have hqueue : e.Among (c.mail.queue e.source.owner) ↔ e.Among (mail.queue e.source.owner) := by
      rw [hmail.queue, Edge.Among.append_iff, or_iff_right]
      split
      · exact hm e
      · rintro ⟨_, hmem⟩
        exact absurd hmem List.not_mem_nil
    have hedges := h.edges e
    rw [coming_nil, hqueue] at hedges
    exact hedges
  data := h.data

/-- What holds of some unit after one of them has changed. -/
theorem exists_insert_iff (hu : c.units[id]? = some u) {v : UnitNode γ}
    (hunits : c'.units = c.units.insert id v) {P Q : UnitId → UnitNode γ → Prop} {new : Prop}
    (hchanged : P id v ↔ new ∨ Q id u) (hsame : ∀ k w, k ≠ id → (P k w ↔ Q k w)) :
    (∃ k w, c'.units[k]? = some w ∧ P k w) ↔ new ∨ ∃ k w, c.units[k]? = some w ∧ Q k w := by
  have hunit (k : UnitId) : c'.units[k]? = if id = k then some v else c.units[k]? := by
    rw [hunits, SortedMap.getElem?_insert_eq]
  constructor
  · rintro ⟨k, w, hw, hP⟩
    rw [hunit] at hw
    split at hw
    · rename_i heq
      obtain rfl := heq
      obtain rfl := Option.some.inj hw
      exact (hchanged.1 hP).imp_right fun hQ ↦ ⟨id, u, hu, hQ⟩
    · rename_i hne
      exact .inr ⟨k, w, hw, (hsame k w (Ne.symm hne)).1 hP⟩
  · rintro (hnew | ⟨k, w, hw, hQ⟩)
    · exact ⟨id, v, (hunit id).trans (if_pos rfl), hchanged.2 (.inl hnew)⟩
    · by_cases heq : id = k
      · obtain rfl := heq
        obtain rfl := Option.some.inj (hu.symm.trans hw)
        exact ⟨id, v, (hunit id).trans (if_pos rfl), hchanged.2 (.inr hQ)⟩
      · exact ⟨k, w, (hunit k).trans ((if_neg heq).trans hw), (hsame k w (Ne.symm heq)).2 hQ⟩

theorem arrived_iff {e : Edge} : c.Arrived e ↔
    ∃ (k : UnitId) (w : UnitNode γ), c.units[k]? = some w ∧ k = e.source.owner ∧
      e ∈ w.graph.edges := by
  constructor
  · rintro ⟨w, hw, he⟩
    exact ⟨_, w, hw, rfl, he⟩
  · rintro ⟨_, w, hw, rfl, he⟩
    exact ⟨w, hw, he⟩

/-- One unit has asserted more, or more has arrived there. -/
theorem asserted_iff_of_insert (hu : c.units[id]? = some u) {v : UnitNode γ}
    (hunits : c'.units = c.units.insert id v) {e : Edge} {new : Prop}
    (h : e ∈ v.localGraph.edges ↔ new ∨ e ∈ u.localGraph.edges) :
    c'.Asserted e ↔ new ∨ c.Asserted e :=
  exists_insert_iff (P := fun _ w ↦ e ∈ w.localGraph.edges) hu hunits h fun _ _ _ ↦ Iff.rfl

theorem arrived_iff_of_insert (hu : c.units[id]? = some u) {v : UnitNode γ}
    (hunits : c'.units = c.units.insert id v) {e : Edge} {new : Prop}
    (h : e ∈ v.graph.edges ↔ new ∨ e ∈ u.graph.edges) :
    c'.Arrived e ↔ (new ∧ e.source.owner = id) ∨ c.Arrived e := by
  rw [arrived_iff, arrived_iff]
  refine exists_insert_iff (P := fun k w ↦ k = e.source.owner ∧ e ∈ w.graph.edges) hu hunits ?_
    fun _ _ _ ↦ Iff.rfl
  rw [h, and_or_left, and_comm, eq_comm]

/-- A unit records what it asserts. -/
theorem recorded (h : c.Accounts [] [] lost) (hu : c.units[id]? = some u) {t t' : Turn γ}
    (ht : t.unit = u) (heffects : t.effects = .none) {es : List Edge}
    {ds : List (Scope × Datum)} (hrecords : t.Records es ds t') (hhoused : c'.Housed)
    (hunits : c'.units = c.units.insert id t'.unit) (hmail : c'.mail = c.mail) :
    c'.Accounts t'.effects.newUnits t'.effects.messages lost := by
  subst ht
  have hid : t.unit.id = id := h.housed.filed id _ hu
  have hcoming (v : UnitId) (e : Edge) : e.Among (c'.coming t'.effects.messages v) ↔
      e.Among (c.coming [] v) ∨ e ∈ es ∧ e.source.owner ≠ id ∧ e.source.owner = v := by
    rw [coming, hmail, Edge.Among.append_iff, coming_nil, Edge.Among.sentTo_iff, hrecords.sent,
      heffects, hid]
    refine or_congr_right ?_
    simp only [edgesAmong, Effects.none, List.filterMap_nil, List.nil_append, List.mem_map,
      List.mem_filter, decide_eq_true_eq, Prod.mk.injEq]
    constructor
    · rintro ⟨e', ⟨hmem, hne⟩, hv, rfl⟩
      exact ⟨hmem, hne, hv⟩
    · rintro ⟨hmem, hne, hv⟩
      exact ⟨e, ⟨hmem, hne⟩, hv, rfl⟩
  refine ⟨hhoused, ?_, fun v e he ↦ ?_, fun e ↦ ?_, fun v w hw s ↦ ?_⟩
  · obtain ⟨us, hus, hblank⟩ := hrecords.newUnits
    rw [heffects] at hus
    rw [hus]
    exact fun u hu ↦ ⟨(hblank u hu).graph, (hblank u hu).localGraph⟩
  · rcases (hcoming v e).1 he with hold | ⟨-, -, hv⟩
    · exact h.addressed v e hold
    · exact hv
  · have hasserted : c'.Asserted e ↔ e ∈ es ∨ c.Asserted e :=
      asserted_iff_of_insert hu hunits (by rw [hrecords.localGraph, ScopeGraph.mem_edges_extend])
    have harrived : c'.Arrived e ↔ ((e ∈ es ∧ e.source.owner = id) ∧ e.source.owner = id) ∨
        c.Arrived e := by
      refine arrived_iff_of_insert hu hunits ?_
      rw [hrecords.graph, ScopeGraph.mem_edges_extend, List.mem_filter, decide_eq_true_eq, hid]
    rw [hasserted, harrived, hcoming, h.edges]
    -- An edge that is asserted has arrived at once, or is on its way to the owner of its source.
    by_cases hown : e.source.owner = id
    · simp [hown, or_assoc]
    · simp [hown, or_left_comm, or_assoc]
  · rw [hunits, SortedMap.getElem?_insert_eq_some_iff] at hw
    obtain ⟨heq, rfl⟩ | ⟨-, hw⟩ := hw
    · rw [hrecords.graph, hrecords.localGraph, ScopeGraph.datum?_extend, ScopeGraph.datum?_extend,
        hid, SortedMap.getElem?_ofList_filter ds (fun s ↦ decide (s.owner = id)), h.data id _ hu,
        ← heq]
      simp only [decide_eq_true_eq]
      split <;> rfl
    · exact h.data v w hw s

/-- An edge arrives. -/
theorem received (h : c.Accounts [] [] lost) (hu : c.units[id]? = some u) {sender : UnitId}
    {e : Edge} {mail : Mailboxes Message} (hmail : c.mail.Takes id (.addEdge sender e) mail)
    (hhoused : c'.Housed)
    (hunits : c'.units = c.units.insert id { u with graph := u.graph.addEdge e })
    (hmail' : c'.mail = mail) : c'.Accounts [] [] lost := by
  have hcoming (v : UnitId) (e' : Edge) : e'.Among (c.coming [] v) ↔
      (e' = e ∧ id = v) ∨ e'.Among (c'.coming [] v) := by
    rw [coming_nil, coming_nil, hmail', hmail.queue, Edge.Among.append_iff]
    refine or_congr_left ?_
    split
    · rename_i heq
      simp [Edge.Among, heq]
    · rename_i hne
      simp [Edge.Among, hne]
  have howner : e.source.owner = id := h.addressed id e ((hcoming id e).2 (.inl ⟨rfl, rfl⟩))
  refine ⟨hhoused, h.blank, fun v e' he ↦ h.addressed v e' ((hcoming v e').2 (.inr he)),
    fun e' ↦ ?_, fun v w hw s ↦ ?_⟩
  · have hasserted : c'.Asserted e' ↔ False ∨ c.Asserted e' :=
      asserted_iff_of_insert hu hunits (by rw [false_or])
    have harrived : c'.Arrived e' ↔ (e' = e ∧ e'.source.owner = id) ∨ c.Arrived e' :=
      arrived_iff_of_insert hu hunits ScopeGraph.mem_edges_addEdge
    rw [hasserted, harrived, false_or, h.edges, hcoming, eq_comm (a := id), or_assoc, or_assoc,
      or_left_comm]
  · rw [hunits, SortedMap.getElem?_insert_eq_some_iff] at hw
    obtain ⟨rfl, rfl⟩ | ⟨-, hw⟩ := hw
    · exact h.data id u hu s
    · exact h.data v w hw s

/-- An operation is carried out. -/
theorem carryOut (h : c.Accounts [] [] lost) (hu : c.units[id]? = some u) (op : UnitOp γ α)
    (hop : op.received = none) : (c.carryOut id u op).Accounts [] [] lost := by
  have hid : u.id = id := h.housed.filed id u hu
  obtain ⟨es, ds, hrecords⟩ := op.exists_records
    ⟨u, .none, c.setup.settings, c.channels, c.nextRequest⟩ hop
  exact applyEffects id _ (h.recorded hu rfl rfl hrecords (h.housed.turn hu op)
    (hid ▸ c.units_turn u op) (c.mail_turn u op))

/-- A message is handled. -/
theorem handled (h : c.Accounts [] [] lost) (hu : c.units[id]? = some u) {m : Message}
    {mail : Mailboxes Message} (hmail : c.mail.Takes id m mail) :
    ({ c with mail := mail }.carryOut id u (.handle m)).Accounts [] [] lost := by
  have hother (hm : (UnitOp.handle (γ := γ) m).received = none) (hnone : ∀ e : Edge, ¬ e.Among [m]) :
      ({ c with mail := mail }.carryOut id u (.handle m)).Accounts [] [] lost :=
    (h.taken hmail hnone).carryOut hu (.handle m) hm
  cases m with
  | addEdge sender e =>
    have hid : u.id = id := h.housed.filed id u hu
    have howner : e.source.owner = id := by
      refine h.addressed id e ⟨sender, ?_⟩
      rw [coming_nil, hmail.queue, if_pos rfl]
      exact List.mem_cons_self
    let t : Turn γ := ⟨u, .none, c.setup.settings, c.channels, c.nextRequest⟩
    have hrun : ((UnitOp.handle (.addEdge sender e)).run t).2 =
        t.edit fun u ↦ { u with graph := u.graph.addEdge e } :=
      if_pos (UnitNode.owns_iff.2 (howner.trans hid.symm))
    have heffects : (({ c with mail := mail } : Core γ).turn u (.handle (.addEdge sender e))).2.1 =
        .none :=
      congrArg Turn.effects hrun
    rw [Core.carryOut, heffects]
    refine applyEffects id .none (h.received hu hmail ((h.housed.takes hmail).turn hu _) ?_
      (mail_turn _ _ _))
    exact ((units_turn { c with mail := mail } u _).trans (congrArg (c.units.insert · _) hid)).trans
      (congrArg (fun t : Turn γ ↦ c.units.insert id t.unit) hrun)
  | start | unitStarted | initShare | addShare | closeEdge | closeScope | query | queryPrevious |
    confirm | counterpart =>
    exact hother rfl fun e ⟨_, hmem⟩ ↦ absurd (List.mem_singleton.1 hmem) nofun

/-- Messages to units that do not exist are dropped. -/
theorem dropped (h : c.Accounts [] [] lost) (hunits : c'.units = c.units)
    (hmail : c'.mail = c.mail.dropParked.2) :
    c'.Accounts [] [] fun e ↦ lost e ∨ e.Among (c.mail.parkedFor e.source.owner) := by
  have hbox (id : UnitId) : c'.mail.box id = c.mail.box id := by rw [hmail]; rfl
  have hparked (id : UnitId) : c'.mail.parkedFor id = [] := by
    rw [hmail, Mailboxes.parkedFor_dropParked]
  have hcoming (id : UnitId) (e : Edge) : e.Among (c.coming [] id) ↔
      e.Among (c'.coming [] id) ∨ e.Among (c.mail.parkedFor id) := by
    rw [coming_nil, coming_nil, Mailboxes.queue, Mailboxes.queue, hbox, hparked, List.append_nil,
      Edge.Among.append_iff]
  refine ⟨h.housed.dropped hunits hmail, h.blank,
    fun id e he ↦ h.addressed id e ((hcoming id e).2 (.inl he)), fun e ↦ ?_,
    fun id u hu ↦ h.data id u (hunits ▸ hu)⟩
  rw [Asserted, Arrived, hunits, ← Asserted, ← Arrived, h.edges, hcoming, or_assoc,
    or_comm (a := lost e)]

end Accounts

end Core

/-- An edge is among the messages that are dropped. -/
def Occurrence.Drops (e : Edge) : Occurrence γ → Prop
  | dropped messages => e.Among (messages e.source.owner)
  | _ => False

namespace Core

variable {c c' : Core γ} {lost : Edge → Prop} {tr : List (Occurrence γ × Core γ)}

/-- An edge was in a message that was dropped because the owner of its source did not exist. -/
def Dropped (tr : List (Occurrence γ × Core γ)) (e : Edge) : Prop :=
  ∃ x ∈ tr, x.1.Drops e ∧ x.2.units[e.source.owner]? = none

namespace Move

variable {o : Occurrence γ}

/-- Only messages to units that do not exist are dropped. -/
theorem missing_of_drops (h : Move c o c') (hc : c.Housed) {e : Edge} (he : o.Drops e) :
    c'.units[e.source.owner]? = none := by
  cases h with
  | dropped hunits _ _ =>
    obtain ⟨sender, hmem⟩ := he
    rw [hunits, Option.eq_none_iff_forall_ne_some]
    intro u hu
    rw [hc.parked _ u hu] at hmem
    exact absurd hmem List.not_mem_nil
  | acted | handled | other => exact he.elim

theorem accounts (h : Move c o c') (hc : c.Accounts [] [] lost) :
    c'.Accounts [] [] fun e ↦ lost e ∨ (o.Drops e ∧ c'.units[e.source.owner]? = none) := by
  have hmissing (e : Edge) : o.Drops e ∧ c'.units[e.source.owner]? = none ↔ o.Drops e :=
    and_iff_left_of_imp (h.missing_of_drops hc.housed)
  simp only [hmissing]
  have hnone (ho : ∀ e, ¬ o.Drops e) (hc' : c'.Accounts [] [] lost) :
      c'.Accounts [] [] fun e ↦ lost e ∨ o.Drops e := by
    simpa only [ho, or_false] using hc'
  cases h with
  | acted hu op hop =>
    refine hnone (fun _ ↦ not_false) (hc.carryOut hu op ?_)
    cases op with
    | handle m => exact (hop trivial).elim
    | _ => rfl
  | handled hu hmail => exact hnone (fun _ ↦ not_false) (hc.handled hu hmail)
  | dropped hunits _ hmail => exact hc.dropped hunits hmail
  | other hunits _ hmail => exact hnone (fun _ ↦ not_false) (hc.other hunits hmail)

end Move

theorem accounts_start (setup : Setup) (root : UnitId) (code : γ) (previous : Option Report) :
    (start setup root code previous).Accounts [] [] fun _ ↦ False := by
  have hblank {id : UnitId} {u : UnitNode γ}
      (hu : (start setup root code previous).units[id]? = some u) :
      u.graph = .empty ∧ u.localGraph = .empty := by
    obtain ⟨-, rfl⟩ := units_start_eq_some_iff.1 hu
    exact ⟨rfl, rfl⟩
  have hcoming (id : UnitId) (e : Edge) :
      ¬ e.Among ((start setup root code previous).coming [] id) := by
    change ¬ e.Among ((Mailboxes.empty.enqueue root (Message.start [])).box id ++ [] ++ [])
    rw [Mailboxes.box_enqueue]
    rintro ⟨sender, hmem⟩
    split at hmem
    · exact absurd (List.mem_singleton.1 hmem) nofun
    · exact absurd hmem List.not_mem_nil
  refine ⟨housed_start _ _ _ _, List.forall_mem_nil _, fun id e he ↦ absurd he (hcoming id e),
    fun e ↦ ⟨?_, ?_⟩, fun id u hu s ↦ ?_⟩
  · rintro ⟨id, u, hu, he⟩
    exact absurd ((hblank hu).2 ▸ he) Std.ExtTreeSet.not_mem_empty
  · rintro (⟨u, hu, he⟩ | he | he)
    · exact absurd ((hblank hu).1 ▸ he) Std.ExtTreeSet.not_mem_empty
    · exact absurd he (hcoming _ e)
    · exact he.elim
  · rw [(hblank hu).1, (hblank hu).2]
    split <;> rfl

theorem Course.accounts (h : Course c tr c') (hc : c.Accounts [] [] lost) :
    c'.Accounts [] [] fun e ↦ lost e ∨ Dropped tr e := by
  induction h generalizing lost with
  | nil =>
    have hnone (e : Edge) : ¬ Dropped ([] : List (Occurrence γ × Core γ)) e :=
      fun ⟨_, hmem, _⟩ ↦ List.not_mem_nil hmem
    simpa only [hnone, or_false] using hc
  | cons hmove _ ih =>
    have hrest := ih (hmove.accounts hc)
    simpa only [Dropped, List.exists_mem_cons_iff, or_assoc] using hrest

/-- **No edge is lost or invented.** In every course of a run, an edge is in the local graph of some
unit exactly if it is in the fragment of the unit that owns its source, or in a message that waits
in the mailbox of that unit, or in a message parked for it, or was dropped because there was no such
unit. And the data in the fragment of a unit are those of its local graph on its own scopes. -/
theorem Course.asserted_iff {setup : Setup} {root : UnitId} {code : γ} {previous : Option Report}
    (h : Course (start setup root code previous) tr c) :
    (∀ e : Edge, c.Asserted e ↔ c.Arrived e ∨ e.Among (c.mail.box e.source.owner) ∨
      e.Among (c.mail.parkedFor e.source.owner) ∨ Dropped tr e) ∧
    ∀ (id : UnitId) (u : UnitNode γ), c.units[id]? = some u → ∀ s : Scope,
      u.graph.datum? s = if s.owner = id then u.localGraph.datum? s else none := by
  have haccounts := h.accounts (accounts_start setup root code previous)
  refine ⟨fun e ↦ ?_, haccounts.data⟩
  rw [haccounts.edges, coming_nil, Mailboxes.queue, Edge.Among.append_iff, false_or, or_assoc]

/-! ### An edge to a unit that never comes -/

private def mainId : UnitId := ⟨"main"⟩

/-- An edge from a scope of a unit that does not exist. -/
private def stray : Edge := ⟨⟨⟨"main/gone"⟩, "s-0"⟩, "E", ⟨⟨"main/gone"⟩, "s-0"⟩⟩

private def oneUnit : Core Unit := start ⟨.nonIncremental, ["E"], 0⟩ mainId () none

private def main (c : Core Unit) : UnitNode Unit :=
  (c.units[mainId]?).getD (.new mainId none (.checker ()) none false false)

private def acting {α : Type} (c : Core Unit) (op : UnitOp Unit α) : Core Unit :=
  c.carryOut mainId (main c) op

private theorem move_acting {α : Type} {c : Core Unit} (h : c.units[mainId]? = some (main c))
    (op : UnitOp Unit α) (hop : ¬ op.IsHandling) : Move c (.acted (main c) op) (acting c op) :=
  .acted h op hop

/-- The mail when the main unit is about to be started. -/
private def delivered : Mailboxes Message := ((oneUnit.mail.next).map Prod.snd).getD .empty

/-- The main unit has been started, its checker has asserted the edge, and the message about it is
parked. -/
private def strayed : Core Unit :=
  let begun := acting { oneUnit with mail := delivered } (.handle (.start []))
  acting (acting begun (.act (.initScope stray.source ["E"] false))) (.act (.addEdge stray))

/-- An edge that was asserted, has not arrived and is not on its way was dropped. -/
theorem Course.asserted_iff_stray : ∃ tr : List (Occurrence Unit × Core Unit),
    Course oneUnit tr strayed.dropParked ∧ strayed.dropParked.Asserted stray ∧ Dropped tr stray := by
  have hmail : oneUnit.mail.next = some ((mainId, .start []), delivered) := by rfl
  obtain ⟨tr, hcourse⟩ : ∃ tr, Course oneUnit tr strayed.dropParked :=
    ⟨_, .cons (.handled (by rfl) (Mailboxes.takes_of_next hmail)) <|
      .cons (move_acting (by rfl) (.act (.initScope stray.source ["E"] false)) not_false) <|
      .cons (move_acting (by rfl) (.act (.addEdge stray)) not_false) <|
      .cons (.dropped (by rfl) (by rfl) (by rfl)) (.nil _)⟩
  have hasserted : strayed.dropParked.Asserted stray :=
    ⟨mainId, main strayed.dropParked, by rfl, Std.ExtTreeSet.mem_iff_contains.2 (by rfl)⟩
  have hbox : strayed.dropParked.mail.box stray.source.owner = [] := by rfl
  have hparked : strayed.dropParked.mail.parkedFor stray.source.owner = [] := by rfl
  refine ⟨tr, hcourse, hasserted, ?_⟩
  rcases (hcourse.asserted_iff.1 stray).1 hasserted with ⟨u, hu, -⟩ | ⟨_, hmem⟩ | ⟨_, hmem⟩ | hdropped
  · exact absurd (hu.symm.trans (by rfl : strayed.dropParked.units[stray.source.owner]? = none)) nofun
  · rw [hbox] at hmem
    exact absurd hmem List.not_mem_nil
  · rw [hparked] at hmem
    exact absurd hmem List.not_mem_nil
  · exact hdropped

end Core

end ScopeGraphs
