import ScopeGraphs.Proofs.Engine.Forwarding
import ScopeGraphs.Proofs.Units.Serving

/-!
# What a library contributes

The graph of a library is spread over the units that own its scopes. The unit that serves the
library is told to start in the same go in which it is added, and when it does start, with the root
scopes that it was added with, it asserts the whole graph (`Core.Provides`). Edges on scopes of
other units are sent there, so once all messages have come, every edge is in the fragment of the
unit that owns its source, the edges on root scopes included (`Core.Course.contributes`).

## Data on root scopes

Data are not sent. Only its owner sets the datum of a scope, so what a library says about a root
scope of another unit stays in the local graph of the unit that serves the library, and nothing
brings it to the owner (`Core.not_always_contributed`).
-/

namespace ScopeGraphs

variable {γ α : Type}

/-- Whatever is done to one unit is orderly. For a unit without a checker this says that no checker
acts in its place, that nobody tells it to run because it was released, and that it is not given up
while it has still to be started. -/
def Occurrence.IsOrderlyFor (k : UnitId) : Occurrence γ → Prop
  | acted u op => u.id = k → op.IsOrderly u
  | _ => True

namespace Core

variable {c c' c₀ c₁ : Core γ} {id k : UnitId} {u v w : UnitNode γ} {lib : Library}
  {roots : List Scope} {tr tr' : List (Occurrence γ × Core γ)} {mail : Mailboxes Message}

/-! ## Starts of units that are not there -/

/-- Only units that are there are told to start. -/
def StartsKnown (c : Core γ) : Prop :=
  ∀ (k : UnitId) (roots : List Scope), c.StartsWith k roots → ∃ w, c.units[k]? = some w

namespace StartsKnown

theorem of_queue (h : c.StartsKnown) (hunits : c'.units = c.units)
    (hqueue : ∀ (k : UnitId) (m : Message), m ∈ c'.mail.queue k → m ∈ c.mail.queue k) :
    c'.StartsKnown := fun k roots hroots ↦ hunits ▸ h k roots (hqueue k _ hroots)

/-- Whoever is told to start has been added in the same go. -/
theorem carryOut (h : c.StartsKnown) (hc : c.Housed) (hu : c.units[id]? = some u)
    (op : UnitOp γ α) : (c.carryOut id u op).StartsKnown := by
  obtain rfl := hc.filed id u hu
  obtain ⟨js, hadds⟩ := op.exists_adds ⟨u, .none, c.setup.settings, c.channels, c.nextRequest⟩
  have hnew : (c.turnOf u op).effects.newUnits = js.map Prod.fst := hadds.newUnits
  have hcarries := carries_carryOut hu rfl op
  intro k roots hroots
  obtain hold | ⟨j, hj, hid, -⟩ := (startsWith_carryOut hc hu op hadds).1 hroots
  · by_cases heq : u.id = k
    · subst heq
      exact ⟨_, hcarries.changed⟩
    · obtain ⟨w, hw⟩ := h k roots hold
      exact ⟨w, hcarries.kept heq hw⟩
  · exact hid ▸ hcarries.exists_of_mem (hnew ▸ List.mem_map_of_mem hj)

theorem move {o : Occurrence γ} (h : c.StartsKnown) (hc : c.Housed) (hmove : Move c o c') :
    c'.StartsKnown := by
  cases hmove with
  | acted hu op hop => exact h.carryOut hc hu op
  | @handled id u hu m mail hmail =>
    have htaken : ({ c with mail := mail } : Core γ).StartsKnown := by
      refine h.of_queue rfl fun k m' hm' ↦ ?_
      rw [hmail.queue]
      exact List.mem_append_right _ hm'
    exact htaken.carryOut (hc.takes hmail) hu _
  | dropped hunits _ hmail =>
    refine h.of_queue hunits fun k m hm ↦ ?_
    rw [Mailboxes.queue, hmail, Mailboxes.parkedFor_dropParked, List.append_nil] at hm
    exact List.mem_append_left _ hm
  | other hunits _ hmail => exact h.of_queue hunits fun k m hm ↦ hmail ▸ hm

end StartsKnown

theorem Course.startsKnown_of (hcourse : Course c tr c') (h : c.StartsKnown) (hc : c.Housed) :
    c'.StartsKnown := by
  induction hcourse with
  | nil => exact h
  | cons hmove _ ih => exact ih (h.move hc hmove) (hmove.housed hc)

theorem Course.startsKnown {setup : Setup} {root : UnitId} {code : γ} {previous : Option Report}
    (hcourse : Course (start setup root code previous) tr c) : c.StartsKnown := by
  refine hcourse.startsKnown_of (fun k roots hroots ↦ ?_) (housed_start setup root code previous)
  exact ⟨_, units_start_eq_some_iff.2 ⟨((startsWith_start setup root code).1 hroots).1, rfl⟩⟩

/-! ## Units that serve a library -/

/-- The root scopes with which a unit is told to start first. -/
theorem findSome?_sentTo (k : UnitId) (ms : List (UnitId × Message)) :
    (sentTo k ms).findSome? Message.roots? =
      ((startsAmong ms).find? fun j ↦ j.1 = k).map Prod.snd := by
  induction ms with
  | nil => rfl
  | cons m ms ih =>
    have hcons : startsAmong (m :: ms) =
        (m.2.roots?.map (Prod.mk m.1)).toList ++ startsAmong ms := by
      rw [startsAmong, List.filterMap_cons]
      cases m.2.roots? <;> rfl
    rw [sentTo_cons, List.findSome?_append, ih, hcons]
    cases hroots : m.2.roots? <;> by_cases heq : m.1 = k <;> simp [hroots, heq]

/-- A unit serves a library with some root scopes, or will do so as soon as it is started. -/
def Provides (c : Core γ) (k : UnitId) (lib : Library) (roots : List Scope) : Prop :=
  ∃ w, c.units[k]? = some w ∧ w.kind = .library lib ∧ (w.Serves lib roots ∨
    w.IsIdle ∧ (c.mail.queue k).findSome? Message.roots? = some roots)

/-- The checker of a unit adds, under a new id, a sub-unit that serves a library. -/
inductive AddsLibrary (c : Core γ) (k : UnitId) (lib : Library) (roots : List Scope) :
    Occurrence γ → Core γ → Prop where
  | intro {id : UnitId} {u : UnitNode γ} (hu : c.units[id]? = some u) (hact : u.mayAct = true)
      {name : String} (hname : u.subUnits.contains name = false) (hid : id.child name = k)
      (hnew : c.units[k]? = none) (changed : Bool) :
      AddsLibrary c k lib roots (.acted u (.act (.addSubUnit name (.library lib) roots changed)))
        (c.carryOut id u (.act (.addSubUnit name (.library lib) roots changed)))

theorem AddsLibrary.move {o : Occurrence γ} (h : c.AddsLibrary k lib roots o c') :
    Move c o c' := by
  cases h with
  | intro hu hact hname hid hnew changed => exact .acted hu _ not_false

/-- A unit that has been added to serve a library is idle, and the first message to start that comes
to it has its root scopes. -/
theorem AddsLibrary.added {o : Occurrence γ} (h : c.AddsLibrary k lib roots o c')
    (hstarts : c.StartsKnown) (hc : c.Housed) : ∃ w, c'.units[k]? = some w ∧
      w.kind = .library lib ∧ w.IsIdle ∧
      (c'.mail.queue k).findSome? Message.roots? = some roots := by
  cases h with | @intro id u hu hact name hname hid hnew changed => ?_
  obtain rfl := hid
  obtain rfl := hc.filed id u hu
  let op : UnitOp γ (Except Fault UnitId) := .act (.addSubUnit name (.library lib) roots changed)
  let t : Turn γ := ⟨u, .none, c.setup.settings, c.channels, c.nextRequest⟩
  let w : UnitNode γ := u.subUnit c.setup.settings name (.library lib) changed
  have haccepts : u.Accepts name (.library lib) roots := ⟨hname, nofun⟩
  have hadds : t.Adds [(w, roots)] (c.turnOf u op) :=
    UnitOp.adds_act_addSubUnit t hact haccepts changed
  have hnewUnits : (c.turnOf u op).effects.newUnits = [w] := hadds.newUnits
  have hcarries := carries_carryOut hu rfl op
  have hne : u.id ≠ u.id.child name := fun heq ↦ by
    rw [← heq, hu] at hnew
    exact nomatch hnew
  refine ⟨w, ?_, rfl, ⟨rfl, rfl, rfl⟩, ?_⟩
  · rw [hcarries.units, if_neg hne, hnew, hnewUnits]
    simp [w, UnitNode.id_subUnit]
  · have hnone : (c.mail.queue (u.id.child name)).findSome? Message.roots? = none := by
      refine List.findSome?_eq_none_iff.2 fun m hm ↦ ?_
      cases m with
      | start roots' =>
        obtain ⟨w', hw'⟩ := hstarts _ roots' hm
        exact nomatch hnew.symm.trans hw'
      | _ => rfl
    have hsent : startsAmong (c.turnOf u op).effects.messages = [(u.id.child name, roots)] :=
      hadds.starts
    rw [queue_carryOut hc hu op, List.findSome?_append, hnone, Option.none_or, findSome?_sentTo,
      hsent]
    simp

namespace Provides

/-- Nothing that another unit does changes anything about it. -/
theorem others (h : c.Provides k lib roots) (hc : c.Housed) (hu : c.units[id]? = some u)
    (hne : id ≠ k) (op : UnitOp γ α) : (c.carryOut id u op).Provides k lib roots := by
  obtain ⟨w, hw, hkind, hserves⟩ := h
  obtain rfl := hc.filed id u hu
  refine ⟨w, (carries_carryOut hu rfl op).kept hne hw, hkind, hserves.imp_right ?_⟩
  refine fun ⟨hidle, hroots⟩ ↦ ⟨hidle, ?_⟩
  rw [queue_carryOut hc hu op, List.findSome?_append, hroots, Option.some_or]

/-- What the unit does itself, unless that is to start. -/
theorem self (h : c.Provides k lib roots) (hc : c.Housed) (hu : c.units[k]? = some u)
    (op : UnitOp γ α) (hop : op.IsOrderly u) (hroots : u.phase = .created → op.roots? = none) :
    (c.carryOut k u op).Provides k lib roots := by
  obtain ⟨w, hw, hkind, hserves⟩ := h
  obtain rfl := Option.some.inj (hu.symm.trans hw)
  obtain rfl := hc.filed k u hu
  have hchecker : u.kind.isChecker = false := congrArg UnitKind.isChecker hkind
  refine ⟨_, (carries_carryOut hu rfl op).changed, (op.kind_run _).trans hkind, ?_⟩
  obtain hserves | ⟨hidle, hfirst⟩ := hserves
  · exact .inl (hserves.run hchecker op hop _ _ _)
  · refine .inr ⟨hidle.run hchecker op hop (hroots hidle.phase) _ _ _, ?_⟩
    rw [queue_carryOut hc hu op, List.findSome?_append, hfirst, Option.some_or]

/-- The unit starts. -/
theorem started (hu : c.units[k]? = some u) (hid : u.id = k) (hkind : u.kind = .library lib)
    (h : u.IsIdle) : (c.carryOut k u (.handle (.start roots))).Provides k lib roots := by
  let op : UnitOp γ PUnit := .handle (.start roots)
  refine ⟨_, (carries_carryOut hu hid op).changed, (op.kind_run _).trans hkind, .inl ?_⟩
  exact Turn.serves_start (t := ⟨u, .none, _, _, _⟩) h hkind roots

/-- The unit handles a message. Only the first start that comes to it counts, and that is the one
with the root scopes that it was added with. -/
theorem handled_self (h : c.Provides k lib roots) (hc : c.Housed) (hu : c.units[k]? = some u)
    {m : Message} (hmail : c.mail.Takes k m mail) :
    ({ c with mail := mail }.carryOut k u (.handle m)).Provides k lib roots := by
  obtain ⟨w, hw, hkind, hserves⟩ := h
  obtain rfl := Option.some.inj (hu.symm.trans hw)
  have hhoused := hc.takes hmail
  obtain hserves | ⟨hidle, hfirst⟩ := hserves
  · have htaken : ({ c with mail := mail } : Core γ).Provides k lib roots :=
      ⟨u, hu, hkind, .inl hserves⟩
    exact htaken.self hhoused hu _ trivial fun hcreated ↦ absurd hcreated hserves.started
  rw [hmail.queue k, if_pos rfl, List.singleton_append, List.findSome?_cons] at hfirst
  cases hroots : m.roots? with
  | none =>
    rw [hroots] at hfirst
    have htaken : ({ c with mail := mail } : Core γ).Provides k lib roots :=
      ⟨u, hu, hkind, .inr ⟨hidle, hfirst⟩⟩
    exact htaken.self hhoused hu _ trivial fun _ ↦ hroots
  | some roots' =>
    rw [hroots] at hfirst
    obtain rfl := Option.some.inj hfirst
    cases m with
    | start roots =>
      obtain rfl := Option.some.inj hroots
      exact started hu (hc.filed k u hu) hkind hidle
    | _ => exact nomatch hroots

theorem move {o : Occurrence γ} (h : c.Provides k lib roots) (hc : c.Housed) (hmove : Move c o c')
    (ho : o.IsOrderlyFor k) : c'.Provides k lib roots := by
  cases hmove with
  | @acted id u hu _ op hop =>
    by_cases heq : id = k
    · subst heq
      refine h.self hc hu op (ho (hc.filed id u hu)) fun _ ↦ ?_
      cases op with
      | handle m => exact (hop trivial).elim
      | _ => rfl
    · exact h.others hc hu heq op
  | @handled id u hu m mail hmail =>
    by_cases heq : id = k
    · subst heq
      exact h.handled_self hc hu hmail
    · obtain ⟨w, hw, hkind, hserves⟩ := h
      have hqueue := hmail.queue k
      rw [if_neg heq, List.nil_append] at hqueue
      have htaken : ({ c with mail := mail } : Core γ).Provides k lib roots :=
        ⟨w, hw, hkind, hqueue ▸ hserves⟩
      exact htaken.others (hc.takes hmail) hu heq _
  | dropped hunits _ hmail =>
    obtain ⟨w, hw, hkind, hserves⟩ := h
    refine ⟨w, hunits ▸ hw, hkind, ?_⟩
    -- The unit is there, so nothing is parked for it.
    rw [Mailboxes.queue, hmail, Mailboxes.parkedFor_dropParked, ← hc.parked k w hw]
    exact hserves
  | other hunits _ hmail =>
    obtain ⟨w, hw, hkind, hserves⟩ := h
    exact ⟨w, hunits ▸ hw, hkind, hmail ▸ hserves⟩

end Provides

theorem Course.provides (hcourse : Course c tr c') (h : c.Provides k lib roots) (hc : c.Housed)
    (horderly : ∀ x ∈ tr, x.1.IsOrderlyFor k) : c'.Provides k lib roots := by
  induction hcourse with
  | nil => exact h
  | cons hmove _ ih =>
    obtain ⟨ho, horderly⟩ := List.forall_mem_cons.1 horderly
    exact ih (h.move hc hmove ho) (hmove.housed hc) horderly

/-! ## The whole graph -/

/-- Edges that a unit has sent have come to the units that they were sent to: none is on its way any
more, and none was dropped. -/
def HasDelivered (c : Core γ) (tr : List (Occurrence γ × Core γ)) (k : UnitId) : Prop :=
  ∀ e : Edge, .addEdge k e ∉ c.mail.queue e.source.owner ∧ ¬ DroppedFrom tr k e

/-- **A library contributes its graph.** In every course of a run, if a unit has been added to serve
a library and has been started, then it has asserted the graph of the library, bound to the root
scopes that it was added with. Once the edges that it sent have come to units that exist, all edges
of this graph are in the fragments of the units that own their sources, and its own fragment has
the data of the graph on its own scopes. -/
theorem Course.contributes {setup : Setup} {root : UnitId} {code : γ} {previous : Option Report}
    (hbefore : Course (start setup root code previous) tr c₀) {o : Occurrence γ}
    (hadds : c₀.AddsLibrary k lib roots o c₁) (hafter : Course c₁ tr' c)
    (horderly : ∀ x ∈ tr', x.1.IsOrderlyFor k) {own : List Scope} {graph : ScopeGraph}
    (hbind : lib.bind k roots = .ok (own, graph)) (hv : c.units[k]? = some v)
    (hstarted : v.phase ≠ .created) (hdelivered : c.HasDelivered tr' k) :
    v.localGraph = graph ∧ (∀ e ∈ graph.edges, c.Arrived e) ∧
      ∀ s, v.graph.datum? s = if s.owner = k then graph.datum? s else none := by
  have hmove := hadds.move
  have hhoused : c₀.Housed := hbefore.housed (housed_start setup root code previous)
  have hc₁ : c₁.Housed := hmove.housed hhoused
  obtain ⟨w, hw, hkind, hidle, hroots⟩ := hadds.added hbefore.startsKnown hhoused
  have hprovides : c.Provides k lib roots :=
    hafter.provides ⟨w, hw, hkind, .inr ⟨hidle, hroots⟩⟩ hc₁ horderly
  have hid : v.id = k := (hafter.housed hc₁).filed k v hv
  have hgraph : v.localGraph = graph := by
    obtain ⟨v', hv', -, hserves | ⟨hidle', -⟩⟩ := hprovides
    · obtain rfl := Option.some.inj (hv.symm.trans hv')
      exact hserves.localGraph own graph (hid.symm ▸ hbind)
    · obtain rfl := Option.some.inj (hv.symm.trans hv')
      exact absurd hidle'.phase hstarted
  refine ⟨hgraph, fun e he ↦ ?_, fun s ↦ ?_⟩
  · have hforwards : c₁.Forwards fun id _ ↦ id ≠ k := by
      intro id u hu e he
      refine .inr (.inr fun heq ↦ ?_)
      obtain rfl := Option.some.inj (hw.symm.trans (heq ▸ hu))
      exact absurd (hidle.localGraph ▸ he) Std.ExtTreeSet.not_mem_empty
    obtain harrived | hcoming | hother | hdropped :=
      hafter.forwards_of hforwards hc₁ k v hv e (hgraph ▸ he)
    · exact harrived
    · exact absurd hcoming (hdelivered e).1
    · exact absurd rfl hother
    · exact absurd hdropped (hdelivered e).2
  · have haccounts := (hbefore.append (.cons hmove hafter)).accounts
      (accounts_start setup root code previous)
    exact hgraph ▸ haccounts.data k v hv s

/-! ### A library on the scope of another unit -/

private def sponsor : UnitId := ⟨"main"⟩

private def donor : UnitId := sponsor.child "lib"

private def entrance : Scope := ⟨sponsor, "s-0"⟩

/-- The scope that is made for the library. -/
private def exhibit : Scope := ⟨donor, "lib-0"⟩

/-- A library with an edge from its root, and with data on both ends. -/
private def donation : Library :=
  let root : Scope := ⟨⟨"lib"⟩, "root"⟩
  let entry : Scope := ⟨⟨"lib"⟩, "entry"⟩
  ⟨[root], .of [⟨root, "E", entry⟩] [(root, .int 7), (entry, .int 8)]⟩

/-- The main unit has a scope that it may hand on. -/
private def sponsoring : Core Unit :=
  ((start ⟨.nonIncremental, ["E"], 0⟩ sponsor () none).receives).acts sponsor
    (.freshScope "s" [] false true)

private def donating : Core Unit :=
  sponsoring.acts sponsor (.addSubUnit "lib" (.library donation) [entrance] false)

/-- All messages have been handled. -/
private def donated : Core Unit := donating.receives.receives.receives.receives

/-- The graph of the library as it is bound to the scope of the main unit. -/
private def donatedGraph : ScopeGraph :=
  (donation.bind donor [entrance]).toOption.elim .empty Prod.snd

private theorem exists_bind_donation :
    ∃ own, donation.bind donor [entrance] = .ok (own, donatedGraph) := by
  have hbound : (donation.bind donor [entrance]).toOption.isSome = true := by decide +kernel
  unfold donatedGraph
  cases hbind : donation.bind donor [entrance] with
  | error e =>
    rw [hbind] at hbound
    exact nomatch hbound
  | ok bound => exact ⟨bound.1, rfl⟩

private theorem addsLibrary_donation : ∃ o,
    sponsoring.AddsLibrary donor donation [entrance] o donating :=
  ⟨_, .intro (resident_eq (by decide +kernel)) (by decide +kernel) (by decide +kernel) rfl
    (by decide +kernel) false⟩

private theorem hasDelivered_donated : ∃ tr, Course donating tr donated ∧
    (∀ x ∈ tr, x.1.IsOrderlyFor donor) ∧ donated.HasDelivered tr donor := by
  let Plain (o : Occurrence Unit) : Prop := o.IsOrderlyFor donor ∧ ∀ e, ¬ o.DropsFrom donor e
  have hreceives {c : Core Unit} (h : LeadsTo Plain donating c)
      (hc : c.mail.next.isSome = true ∧ c.units.contains c.delivery.1.1 = true) :
      LeadsTo Plain donating c.receives := h.receives hc.1 hc.2 ⟨trivial, fun _ ↦ not_false⟩
  have htwo := hreceives (hreceives (.refl donating) (by decide +kernel)) (by decide +kernel)
  obtain ⟨tr, hcourse, htr⟩ :=
    hreceives (hreceives htwo (by decide +kernel)) (by decide +kernel)
  refine ⟨tr, hcourse, fun x hx ↦ (htr x hx).1, fun e ↦ ⟨fun hmem ↦ ?_, ?_⟩⟩
  · rw [Mailboxes.queue_eq_nil (by decide +kernel) (by decide +kernel)] at hmem
    exact List.not_mem_nil hmem
  · exact fun ⟨x, hx, hdropped⟩ ↦ (htr x hx).2 e hdropped

private theorem exists_course_sponsoring : ∃ tr,
    Course (start ⟨.nonIncremental, ["E"], 0⟩ sponsor () none) tr sponsoring := by
  have hreceived := (LeadsTo.refl (P := fun _ ↦ True)
    (start ⟨.nonIncremental, ["E"], 0⟩ sponsor () none)).receives (by rfl) (by rfl) trivial
  obtain ⟨tr, hcourse, -⟩ :=
    hreceived.acts sponsor (.freshScope "s" [] false true) (by decide +kernel) trivial
  exact ⟨tr, hcourse⟩

/-- The edge of the library is in the fragment of the main unit, and the datum on the scope that was
made for the library in that of the unit that serves it. -/
theorem Course.contributes_donation : ∃ v, donated.units[donor]? = some v ∧ v.finished = true ∧
    donated.Arrived ⟨entrance, "E", exhibit⟩ ∧ v.graph.datum? exhibit = some (.int 8) := by
  obtain ⟨tr, hbefore⟩ := exists_course_sponsoring
  obtain ⟨o, hadds⟩ := addsLibrary_donation
  obtain ⟨tr', hafter, horderly, hdelivered⟩ := hasDelivered_donated
  have hv : donated.units[donor]? = some (donated.resident donor) := resident_eq (by decide +kernel)
  obtain ⟨own, hbind⟩ := exists_bind_donation
  obtain ⟨-, harrived, hdata⟩ := Course.contributes hbefore hadds hafter horderly hbind hv
    (by decide +kernel) hdelivered
  refine ⟨_, hv, by decide +kernel, harrived _ (by decide +kernel), ?_⟩
  exact (hdata exhibit).trans (by decide +kernel)

/-- **Data on root scopes do not get there.** All messages may have been handled and the unit that
serves the library may have finished, and still a datum that the library has on a root scope of
another unit is not in the fragment of that unit. -/
theorem not_always_contributed : ¬ ∀ (setup : Setup) (root : UnitId) (previous : Option Report)
    (c₀ c₁ c : Core Unit) tr tr' o (k : UnitId) (lib : Library) (roots own : List Scope)
    (graph : ScopeGraph) (v : UnitNode Unit), Course (start setup root () previous) tr c₀ →
      c₀.AddsLibrary k lib roots o c₁ → Course c₁ tr' c → (∀ x ∈ tr', x.1.IsOrderlyFor k) →
        lib.bind k roots = .ok (own, graph) → c.units[k]? = some v → v.finished = true →
          c.HasDelivered tr' k → ∀ (s : Scope) (d : Datum), graph.datum? s = some d →
            ∃ w, c.units[s.owner]? = some w ∧ w.graph.datum? s = some d := by
  intro h
  obtain ⟨tr, hbefore⟩ := exists_course_sponsoring
  obtain ⟨o, hadds⟩ := addsLibrary_donation
  obtain ⟨tr', hafter, horderly, hdelivered⟩ := hasDelivered_donated
  obtain ⟨own, hbind⟩ := exists_bind_donation
  obtain ⟨w, hw, hdatum⟩ := h _ sponsor none sponsoring donating donated tr tr' o donor donation
    [entrance] own donatedGraph (donated.resident donor) hbefore hadds hafter horderly hbind
    (resident_eq (by decide +kernel)) (by decide +kernel) hdelivered entrance (.int 7)
    (by decide +kernel)
  obtain rfl : donated.resident sponsor = w :=
    Option.some.inj ((resident_eq (by decide +kernel)).symm.trans hw)
  have hnone : (donated.resident sponsor).graph.datum? entrance = none := by decide +kernel
  exact nomatch hnone.symm.trans hdatum

end Core

end ScopeGraphs
