import ScopeGraphs.Proofs.Engine.Accounting
import ScopeGraphs.Proofs.Engine.StandIns

/-!
# Edges sent in the name of a unit

What has become of an edge that some unit has asserted can be told from all the messages that bring
it. For one unit in particular only those count that it has sent itself, since another one may have
asserted the same edge, and its message may have got lost. So senders are kept in view here:
whatever edge a unit has asserted has arrived, or is on its way in a message of that unit, or was in
a message of that unit that has been dropped (`Core.Course.forwards`).
-/

namespace ScopeGraphs

variable {γ α : Type}

namespace Turn

/-- All edges among the messages of a unit are sent in its name. -/
def Signs (t : Turn γ) : Prop :=
  ∀ (receiver sender : UnitId) (e : Edge),
    (receiver, Message.addEdge sender e) ∈ t.effects.messages → sender = t.unit.id

variable {t t' : Turn γ}

theorem Signs.of_messages (h : t.Signs) (hid : t'.unit.id = t.unit.id)
    (hmessages : t'.effects.messages = t.effects.messages) : t'.Signs := by
  rw [Signs, hid, hmessages]
  exact h

theorem Signs.send (h : t.Signs) (receiver : UnitId) {m : Message}
    (hm : ∀ sender e, m = .addEdge sender e → sender = t.unit.id) : (t.send receiver m).Signs := by
  intro receiver' sender e hmem
  rcases List.mem_append.1 hmem with hmem | hmem
  · exact h receiver' sender e hmem
  · exact hm sender e (Prod.mk.inj (List.mem_singleton.1 hmem)).2.symm

/-- Edges on scopes of other units are sent when they are asserted, and by no other deed. -/
theorem Signs.after (h : t.Signs) {d : Deed γ} (hd : d.IsPlain) : (d.after t).Signs := by
  cases d with
  | send receiver m =>
    refine h.send receiver fun sender e hm ↦ ?_
    subst hm
    exact hd.elim
  | join u roots =>
    have hadded : (t.addUnit u).Signs := h.of_messages rfl rfl
    exact hadded.send u.id fun _ _ ↦ nofun
  | edge e =>
    rw [Deed.after, assertEdge]
    split
    · exact h.of_messages rfl rfl
    · have hsent : (t.send e.source.owner (.addEdge t.unit.id e)).Signs :=
        h.send _ fun _ _ heq ↦ (Message.addEdge.inj heq).1.symm
      exact hsent.of_messages rfl rfl
  | datum s d =>
    rw [Deed.after, assertDatum]
    split <;> exact h.of_messages rfl rfl
  | lower token holder =>
    rw [Deed.after, lower]
    split <;> exact h.of_messages rfl rfl
  | receive => exact hd.elim
  | raise | forget | share | hesitate => exact h.of_messages rfl rfl

theorem Moves.signs (h : t.Moves Deed.IsPlain t') (ht : t.Signs) : t'.Signs := by
  induction h with
  | refl => exact ht
  | note _ hnotes ih => exact ih.of_messages hnotes.unit.id hnotes.messages
  | deed _ hd ih => exact ih.after hd

end Turn

namespace Occurrence

/-- A message of a unit that brings an edge is dropped. -/
def DropsFrom (id : UnitId) (e : Edge) : Occurrence γ → Prop
  | dropped messages => .addEdge id e ∈ messages e.source.owner
  | _ => False

end Occurrence

namespace Core

variable {c c' : Core γ} {id : UnitId} {u v : UnitNode γ} {us : List (UnitNode γ)} {e : Edge}
  {tr : List (Occurrence γ × Core γ)} {lost lost' : UnitId → Edge → Prop}

/-- A message of a unit that brought an edge was dropped. -/
def DroppedFrom (tr : List (Occurrence γ × Core γ)) (id : UnitId) (e : Edge) : Prop :=
  ∃ x ∈ tr, x.1.DropsFrom id e

/-- An edge that a unit has asserted has arrived, or is on its way in a message of that unit, or its
message got lost. -/
def Forwards (c : Core γ) (lost : UnitId → Edge → Prop) : Prop :=
  ∀ (id : UnitId) (u : UnitNode γ), c.units[id]? = some u → ∀ e ∈ u.localGraph.edges,
    c.Arrived e ∨ .addEdge id e ∈ c.mail.queue e.source.owner ∨ lost id e

/-- What has arrived at a unit stays there. -/
theorem Carries.arrived (h : Carries c id u v us c')
    (hgraph : ∀ e ∈ u.graph.edges, e ∈ v.graph.edges) (he : c.Arrived e) : c'.Arrived e := by
  obtain ⟨w, hw, he⟩ := he
  by_cases heq : id = e.source.owner
  · obtain rfl := Option.some.inj (h.unit.symm.trans (heq ▸ hw))
    exact ⟨v, heq ▸ h.changed, hgraph e he⟩
  · exact ⟨w, h.kept heq hw, he⟩

namespace Forwards

theorem other (h : c.Forwards lost) (hunits : c'.units = c.units) (hmail : c'.mail = c.mail) :
    c'.Forwards lost := by
  rw [Forwards]
  simp only [Arrived, hunits, hmail]
  exact h

/-- A unit does something after which what was on its way still is. -/
theorem carries (h : c.Forwards lost) (hcarries : Carries c id u v us c')
    (hblank : ∀ w ∈ us, w.localGraph = .empty)
    (hgraph : ∀ e ∈ u.graph.edges, e ∈ v.graph.edges)
    (hqueue : ∀ (k : UnitId) (m : Message), m ∈ c.mail.queue k → m ∈ c'.mail.queue k)
    (hlost : ∀ k e, lost k e → c'.Arrived e ∨ lost' k e)
    (hown : ∀ e ∈ v.localGraph.edges, e ∈ u.localGraph.edges ∨ c'.Arrived e ∨
      .addEdge id e ∈ c'.mail.queue e.source.owner) : c'.Forwards lost' := by
  have hold {k : UnitId} {w : UnitNode γ} (hw : c.units[k]? = some w) {e : Edge}
      (he : e ∈ w.localGraph.edges) :
      c'.Arrived e ∨ .addEdge k e ∈ c'.mail.queue e.source.owner ∨ lost' k e := by
    rcases h k w hw e he with harrived | hcoming | hgone
    · exact .inl (hcarries.arrived hgraph harrived)
    · exact .inr (.inl (hqueue _ _ hcoming))
    · exact (hlost k e hgone).imp_right .inr
  intro k w hw e he
  obtain ⟨rfl, rfl⟩ | ⟨-, hw⟩ | ⟨-, -, hmem, -⟩ := hcarries.cases hw
  · rcases hown e he with he | harrived | hsent
    · exact hold hcarries.unit he
    · exact .inl harrived
    · exact .inr (.inl hsent)
  · exact hold hw he
  · exact absurd (hblank w hmem ▸ he) Std.ExtTreeSet.not_mem_empty

/-- A unit that asserts an edge of a scope of another unit sends it there. -/
theorem carryOut (h : c.Forwards lost) (hc : c.Housed) (hu : c.units[id]? = some u)
    (op : UnitOp γ α) (hop : op.received = none) : (c.carryOut id u op).Forwards lost := by
  obtain rfl := hc.filed id u hu
  let t : Turn γ := ⟨u, .none, c.setup.settings, c.channels, c.nextRequest⟩
  have hmoves : t.Moves Deed.IsPlain (op.run t).2 := op.moves t hop
  obtain ⟨es, ds, hrecords⟩ := hmoves.exists_records
  have hsigns : (op.run t).2.Signs := hmoves.signs fun _ _ _ ↦ nofun
  have hcarries := carries_carryOut hu rfl op
  have hgraph : ∀ e ∈ u.graph.edges, e ∈ (op.run t).2.unit.graph.edges := by
    rw [hrecords.graph]
    exact fun e he ↦ ScopeGraph.mem_edges_extend.2 (.inr he)
  refine h.carries hcarries ?_ hgraph (fun k m hm ↦ ?_) (fun _ _ ↦ .inr) fun e he ↦ ?_
  · obtain ⟨us, hus, hblank⟩ := hrecords.newUnits
    have hnew : (c.turnOf u op).effects.newUnits = us := hus
    exact hnew ▸ fun w hw ↦ (hblank w hw).localGraph
  · rw [queue_carryOut hc hu op]
    exact List.mem_append_left _ hm
  · have hlocal : e ∈ (op.run t).2.unit.localGraph.edges := he
    rw [hrecords.localGraph, ScopeGraph.mem_edges_extend] at hlocal
    rcases hlocal with hnew | hold
    · refine .inr ?_
      by_cases hown : e.source.owner = u.id
      · refine .inl ⟨(op.run t).2.unit, by rw [hown]; exact hcarries.changed, ?_⟩
        rw [hrecords.graph, ScopeGraph.mem_edges_extend, List.mem_filter, decide_eq_true_eq]
        exact .inl ⟨hnew, hown⟩
      · have hsent : (e.source.owner, e) ∈ edgesAmong (op.run t).2.effects.messages := by
          rw [hrecords.sent, List.mem_append, List.mem_map]
          exact .inr ⟨e, List.mem_filter.2 ⟨hnew, decide_eq_true hown⟩, rfl⟩
        obtain ⟨sender, hmem⟩ := mem_edgesAmong.1 hsent
        obtain rfl : sender = u.id := (hsigns _ _ _ hmem).trans hmoves.id
        rw [queue_carryOut hc hu op]
        exact .inr (List.mem_append_right _ (mem_sentTo.2 hmem))
    · exact .inl hold

/-- A message is taken out of a mailbox, and so far that is all. -/
theorem taken (h : c.Forwards lost) {m : Message} {mail : Mailboxes Message}
    (hmail : c.mail.Takes id m mail) : ({ c with mail := mail } : Core γ).Forwards fun k e ↦
      lost k e ∨ (m = .addEdge k e ∧ id = e.source.owner) := by
  intro k w hw e he
  rcases h k w hw e he with harrived | hcoming | hgone
  · exact .inl harrived
  · rw [hmail.queue, List.mem_append] at hcoming
    rcases hcoming with hfirst | hrest
    · split at hfirst
      · rename_i heq
        exact .inr (.inr (.inr ⟨(List.mem_singleton.1 hfirst).symm, heq⟩))
      · exact absurd hfirst List.not_mem_nil
    · exact .inr (.inl hrest)
  · exact .inr (.inr (.inl hgone))

/-- An edge that is handled by the unit that owns its source has arrived. -/
theorem received {sender : UnitId} (h : c.Forwards fun k e' ↦
      lost k e' ∨ (Message.addEdge sender e = .addEdge k e' ∧ id = e'.source.owner))
    (hc : c.Housed) (hu : c.units[id]? = some u) :
    (c.carryOut id u (.handle (.addEdge sender e))).Forwards lost := by
  obtain rfl := hc.filed id u hu
  let op : UnitOp γ Unit := .handle (.addEdge sender e)
  have hcarries := carries_carryOut hu rfl op
  have hrun : c.turnOf u op = (⟨u, .none, c.setup.settings, c.channels, c.nextRequest⟩ :
      Turn γ).receiveEdge e := rfl
  have hunit : (c.turnOf u op).unit =
      if u.owns e.source then { u with graph := u.graph.addEdge e } else u := by
    rw [hrun, Turn.receiveEdge]
    split <;> rfl
  have hgraph : ∀ e' ∈ u.graph.edges, e' ∈ (c.turnOf u op).unit.graph.edges := by
    intro e' he'
    rw [hunit]
    split
    · exact ScopeGraph.mem_edges_addEdge.2 (.inr he')
    · exact he'
  have hnone : (c.turnOf u op).effects.newUnits = [] := by
    rw [hrun, Turn.receiveEdge]
    split <;> rfl
  refine h.carries hcarries (hnone ▸ List.forall_mem_nil _) hgraph (fun k m hm ↦ ?_)
    (fun k e' hgone ↦ ?_) fun e' he' ↦ .inl ?_
  · rw [queue_carryOut hc hu op]
    exact List.mem_append_left _ hm
  · rcases hgone with hgone | ⟨heq, howner⟩
    · exact .inr hgone
    · obtain ⟨rfl, rfl⟩ := Message.addEdge.inj heq
      refine .inl ⟨_, by rw [← howner]; exact hcarries.changed, ?_⟩
      rw [hunit, if_pos (UnitNode.owns_iff.2 howner.symm)]
      exact ScopeGraph.mem_edges_addEdge.2 (.inl rfl)
  · rw [hunit] at he'
    split at he' <;> exact he'

/-- A message is handled. -/
theorem handled (h : c.Forwards lost) (hc : c.Housed) (hu : c.units[id]? = some u) {m : Message}
    {mail : Mailboxes Message} (hmail : c.mail.Takes id m mail) :
    ({ c with mail := mail }.carryOut id u (.handle m)).Forwards lost := by
  have htaken := h.taken hmail
  have hhoused := hc.takes hmail
  cases m with
  | addEdge sender e => exact htaken.received hhoused hu
  | start | unitStarted | initShare | addShare | closeEdge | closeScope | query | queryPrevious |
    confirm | counterpart =>
    simp only [reduceCtorEq, false_and, or_false] at htaken
    exact htaken.carryOut hhoused hu _ rfl

/-- Messages to units that do not exist are dropped. -/
theorem dropped (h : c.Forwards lost) (hunits : c'.units = c.units)
    (hmail : c'.mail = c.mail.dropParked.2) : c'.Forwards fun k e ↦
      lost k e ∨ .addEdge k e ∈ c.mail.parkedFor e.source.owner := by
  intro k w hw e he
  rcases h k w (hunits ▸ hw) e he with ⟨x, hx, harrived⟩ | hcoming | hgone
  · exact .inl ⟨x, hunits ▸ hx, harrived⟩
  · rcases List.mem_append.1 hcoming with hbox | hparked
    · refine .inr (.inl (List.mem_append_left _ ?_))
      rw [hmail]
      exact hbox
    · exact .inr (.inr (.inr hparked))
  · exact .inr (.inr (.inl hgone))

end Forwards

theorem Move.forwards {o : Occurrence γ} (hmove : Move c o c') (h : c.Forwards lost)
    (hc : c.Housed) : c'.Forwards fun k e ↦ lost k e ∨ o.DropsFrom k e := by
  cases hmove with
  | acted hu op hop =>
    simp only [Occurrence.DropsFrom, or_false]
    refine h.carryOut hc hu op ?_
    cases op with
    | handle m => exact (hop trivial).elim
    | _ => rfl
  | handled hu hmail =>
    simp only [Occurrence.DropsFrom, or_false]
    exact h.handled hc hu hmail
  | dropped hunits _ hmail => exact h.dropped hunits hmail
  | other hunits _ hmail =>
    simp only [Occurrence.DropsFrom, or_false]
    exact h.other hunits hmail

theorem Course.forwards_of (hcourse : Course c tr c') (h : c.Forwards lost) (hc : c.Housed) :
    c'.Forwards fun k e ↦ lost k e ∨ DroppedFrom tr k e := by
  induction hcourse generalizing lost with
  | nil =>
    have hnone (k : UnitId) (e : Edge) : ¬ DroppedFrom ([] : List (Occurrence γ × Core γ)) k e :=
      fun ⟨_, hmem, _⟩ ↦ List.not_mem_nil hmem
    simpa only [hnone, or_false] using h
  | cons hmove _ ih =>
    have hrest := ih (hmove.forwards h hc) (hmove.housed hc)
    simpa only [DroppedFrom, List.exists_mem_cons_iff, or_assoc] using hrest

/-- In every course of a run, an edge that a unit has asserted has arrived, or is on its way in a
message of that unit, or was in such a message when that was dropped. -/
theorem Course.forwards {setup : Setup} {root : UnitId} {code : γ} {previous : Option Report}
    (h : Course (start setup root code previous) tr c) : c.Forwards (DroppedFrom tr) := by
  have hstart : (start setup root code previous).Forwards fun _ _ ↦ False := by
    intro id u hu e he
    obtain ⟨-, rfl⟩ := units_start_eq_some_iff.1 hu
    exact absurd he Std.ExtTreeSet.not_mem_empty
  have hforwards := h.forwards_of hstart (housed_start setup root code previous)
  simpa only [false_or] using hforwards

end Core

end ScopeGraphs
