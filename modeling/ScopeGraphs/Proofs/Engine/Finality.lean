import ScopeGraphs.Proofs.Engine.Runs
import ScopeGraphs.Proofs.Units.Conduct
import ScopeGraphs.Proofs.Units.Disturbing

/-!
# When what a query has read is final

A query reads a slot of a scope once the owner of the scope finds it closed, and never looks again.
What it read stays true, and the slot stays closed, exactly as long as no operation on the owner
disturbs the slot (`Core.stays_final_iff`). So nothing that other units do, no message but those
about the scope itself, no answer, no decision about reuse elsewhere and no closure granted by force
can make an answer wrong.

The slot can be disturbed, though: nothing keeps a checker from initialising a scope once more after
it was read, and then from adding to it what the query has not seen
(`Core.not_always_final`).
-/

namespace ScopeGraphs

variable {γ α : Type} {c c' : Core γ} {id : UnitId} {s : Scope} {slot : Slot} {g : ScopeGraph}

namespace Core

/-! ## Units keep their ids -/

/-- Every unit is filed under its own id. -/
def Filed (c : Core γ) : Prop := ∀ (id : UnitId) (u : UnitNode γ), c.units[id]? = some u → u.id = id

theorem exists_foldl_wake (c : Core γ) (ids : List TaskId) :
    ∃ executor, ids.foldl wake c = { c with executor := executor } := by
  induction ids generalizing c with
  | nil => exact ⟨c.executor, rfl⟩
  | cons id ids ih => exact ih (c.wake id)

/-- An operation on a unit changes the unit, the channels and the tasks that may go on. -/
theorem exists_turn (c : Core γ) (u : UnitNode γ) (op : UnitOp γ α) :
    ∃ channels nextRequest executor, (c.turn u op).2.2 =
      { c with
        units := c.units.insert u.id
          (op.run ⟨u, .none, c.setup.settings, c.channels, c.nextRequest⟩).2.unit
        channels := channels
        nextRequest := nextRequest
        executor := executor } := by
  obtain ⟨executor, hwoken⟩ := exists_foldl_wake _ _
  exact ⟨_, _, executor, hwoken⟩

section

variable (c : Core γ) (u : UnitNode γ) (op : UnitOp γ α)

/-- The unit at hand is the only one that an operation changes. -/
theorem units_turn : (c.turn u op).2.2.units =
    c.units.insert u.id (op.run ⟨u, .none, c.setup.settings, c.channels, c.nextRequest⟩).2.unit := by
  obtain ⟨_, _, _, heq⟩ := c.exists_turn u op
  rw [heq]

theorem setup_turn : (c.turn u op).2.2.setup = c.setup := by
  obtain ⟨_, _, _, heq⟩ := c.exists_turn u op
  rw [heq]

theorem mail_turn : (c.turn u op).2.2.mail = c.mail := by
  obtain ⟨_, _, _, heq⟩ := c.exists_turn u op
  rw [heq]

theorem detector_turn : (c.turn u op).2.2.detector = c.detector := by
  obtain ⟨_, _, _, heq⟩ := c.exists_turn u op
  rw [heq]

end

theorem Step.setup {e : Event γ} (h : Step c e c') : c'.setup = c.setup := by
  cases h with
  | turn h op => exact setup_turn _ _ op
  | joined u =>
    rw [addUnit]
    split <;> rfl
  | other hunits hsetup => exact hsetup

theorem units_addUnit (c : Core γ) (u : UnitNode γ) (id : UnitId) :
    (c.addUnit u).units[id]? = (c.units[id]?).or (if u.id = id then some u else none) := by
  rw [addUnit]
  split
  · rename_i hold
    rw [Std.ExtTreeMap.contains_eq_isSome_getElem?] at hold
    split
    · rename_i heq
      obtain ⟨v, hv⟩ := Option.isSome_iff_exists.1 (heq ▸ hold)
      rw [hv, Option.or_some]
      rfl
    · rw [Option.or_none]
  · rename_i hnew
    rw [SortedMap.getElem?_insert_eq]
    split
    · rename_i heq
      rw [Std.ExtTreeMap.contains_eq_isSome_getElem?, heq, Bool.not_eq_true,
        Option.isSome_eq_false_iff, Option.isNone_iff_eq_none] at hnew
      rw [hnew, Option.none_or]
    · rw [Option.or_none]

/-- A unit that is added is found unless there is one of its id. -/
theorem units_addUnit_eq_some_iff {u v : UnitNode γ} :
    (c.addUnit u).units[id]? = some v ↔
      c.units[id]? = some v ∨ c.units[id]? = none ∧ u.id = id ∧ u = v := by
  rw [units_addUnit, Option.or_eq_some_iff, Option.ite_none_right_eq_some, Option.some.injEq]

/-- In the beginning there is the root unit and no other. -/
theorem units_start_eq_some_iff {setup : Setup} {root : UnitId} {code : γ}
    {previous : Option Report} {u : UnitNode γ} :
    (start setup root code previous).units[id]? = some u ↔
      root = id ∧ .new root none (.checker code) previous false setup.settings.incremental = u := by
  change (Std.ExtTreeMap.insert ∅ root _)[id]? = some u ↔ _
  rw [SortedMap.getElem?_insert_eq_some_iff, Std.ExtTreeMap.getElem?_empty]
  simp

theorem filed_start (setup : Setup) (root : UnitId) (code : γ) (previous : Option Report) :
    (start setup root code previous).Filed := by
  intro id u hu
  obtain ⟨heq, rfl⟩ := units_start_eq_some_iff.1 hu
  exact heq

namespace Filed

/-- A unit changes, and keeps its id. -/
theorem insert (h : c.Filed) {v : UnitNode γ} (hunits : c'.units = c.units.insert id v)
    (hid : v.id = id) : c'.Filed := by
  intro k w hw
  rw [hunits, SortedMap.getElem?_insert_eq_some_iff] at hw
  obtain ⟨heq, rfl⟩ | ⟨-, hw⟩ := hw
  · exact hid.trans heq
  · exact h k w hw

theorem addUnit (h : c.Filed) (u : UnitNode γ) : (c.addUnit u).Filed := by
  intro k w hw
  obtain hold | ⟨-, heq, rfl⟩ := units_addUnit_eq_some_iff.1 hw
  · exact h k w hold
  · exact heq

end Filed

theorem Step.filed {e : Event γ} (h : Step c e c') (hfiled : c.Filed) : c'.Filed := by
  cases h with
  | turn h op => exact hfiled.insert (units_turn _ _ op) (op.id_run _)
  | joined u => exact hfiled.addUnit u
  | other hunits hsetup => exact fun id v hv ↦ hfiled id v (hunits ▸ hv)

theorem Run.filed {tr : List (Event γ × Core γ)} (h : Run c tr c') (hfiled : c.Filed) :
    c'.Filed := by
  induction h with
  | nil => exact hfiled
  | cons hstep _ ih => exact ih (hstep.filed hfiled)

theorem Run.setup {tr : List (Event γ × Core γ)} (h : Run c tr c') : c'.setup = c.setup := by
  induction h with
  | nil => rfl
  | cons hstep _ ih => exact ih.trans hstep.setup

/-! ## Finality -/

/-- A slot of a scope is closed at a unit, and holds what it holds in a graph. -/
def Final (c : Core γ) (id : UnitId) (s : Scope) (slot : Slot) (g : ScopeGraph) : Prop :=
  ∃ u, c.units[id]? = some u ∧ u.isClosed s slot = true ∧ u.graph.AgreeAt g s slot

end Core

/-- Whether something that happens disturbs a closed slot of a scope of a unit. -/
def Event.Disturbs (settings : Settings) (id : UnitId) (s : Scope) (slot : Slot) : Event γ → Prop
  | turn u op => u.id = id ∧ op.Disturbs settings u s slot
  | joined _ | other => False

namespace Core

/-- A unit closes a slot of its own scopes once no token keeps the slot open. -/
theorem isClosed_iff {u : UnitNode γ} (hown : s.owner = u.id) :
    u.isClosed s slot = true ↔ u.waits.isOpen s slot = false := by
  rw [UnitNode.isClosed, if_pos (UnitNode.owns_iff.2 hown), Bool.not_eq_true']

/-- An operation on the unit itself keeps what has been read final exactly if it does not disturb
it. -/
theorem final_turn_iff {u : UnitNode γ} (hown : s.owner = u.id) (hclosed : u.isClosed s slot = true)
    (hagree : u.graph.AgreeAt g s slot) (op : UnitOp γ α) :
    (c.turn u op).2.2.Final u.id s slot g ↔ ¬ op.Disturbs c.setup.settings u s slot := by
  let t : Turn γ := ⟨u, .none, c.setup.settings, c.channels, c.nextRequest⟩
  have hafter : (c.turn u op).2.2.units[u.id]? = some (op.run t).2.unit := by
    rw [units_turn, SortedMap.getElem?_insert_eq, if_pos rfl]
  have houtcome := op.outcome_run (t := t) hown ((isClosed_iff hown).1 hclosed)
  have hown' : s.owner = (op.run t).2.unit.id := hown.trans houtcome.id.symm
  rw [UnitOp.Disturbs, not_or, not_not, ← houtcome.isOpen_iff, Bool.not_eq_true,
    ← isClosed_iff hown']
  constructor
  · rintro ⟨v, hv, hclosed', hagree'⟩
    obtain rfl := Option.some.inj (hafter.symm.trans hv)
    exact ⟨hclosed', houtcome.agreeAt.symm.trans (hagree'.trans hagree.symm)⟩
  · rintro ⟨hclosed', hkept⟩
    exact ⟨_, hafter, hclosed', houtcome.agreeAt.trans (hkept.trans hagree)⟩

/-- Whoever waits for a slot goes on at once exactly if the slot is closed. -/
theorem awaitClosed_eq_none_iff (t : Turn γ) :
    (t.awaitClosed s slot).1 = none ↔ t.unit.isClosed s slot = true := by
  rw [Turn.awaitClosed]
  split <;> simp_all

/-- What one step makes of a slot that has been read. -/
theorem Step.final_iff {e : Event γ} (h : Step c e c') (hfiled : c.Filed) (hown : s.owner = id)
    (hfinal : c.Final id s slot g) :
    c'.Final id s slot g ↔ ¬ e.Disturbs c.setup.settings id s slot := by
  obtain ⟨u, hu, hclosed, hagree⟩ := hfinal
  have hid : u.id = id := hfiled id u hu
  cases h with
  | turn h op =>
    rename_i id' u' _
    have hid' : u'.id = id' := hfiled id' u' h
    by_cases hsame : u'.id = id
    · obtain rfl : id' = id := hid'.symm.trans hsame
      obtain rfl : u = u' := Option.some.inj (hu.symm.trans h)
      obtain rfl := hid
      rw [final_turn_iff hown hclosed hagree]
      exact not_congr (and_iff_right rfl).symm
    · have hstays : (c.turn u' op).2.2.units[id]? = some u := by
        rw [units_turn, SortedMap.getElem?_insert_eq, if_neg hsame]
        exact hu
      exact iff_of_true ⟨u, hstays, hclosed, hagree⟩ fun hdisturbs ↦ hsame hdisturbs.1
  | joined u' =>
    have hstays : (c.addUnit u').units[id]? = some u := units_addUnit_eq_some_iff.2 (.inl hu)
    exact iff_of_true ⟨u, hstays, hclosed, hagree⟩ not_false
  | other hunits hsetup => exact iff_of_true ⟨u, hunits ▸ hu, hclosed, hagree⟩ not_false

/-- **When what a query has read is final.** In every run of every tree of units, once a unit has
found a slot of one of its scopes closed, the slot stays closed and holds the same in all later
states of the run exactly if no operation that is carried out on that unit disturbs it. -/
theorem stays_final_iff {setup : Setup} {root : UnitId} {code : γ} {previous : Option Report}
    {before after : List (Event γ × Core γ)} {u : UnitNode γ}
    (hbefore : Run (start setup root code previous) before c) (hu : c.units[id]? = some u)
    (hown : s.owner = id) (hclosed : u.isClosed s slot = true) (hafter : Run c after c') :
    (∀ x ∈ after, x.2.Final id s slot u.graph) ↔
      ∀ x ∈ after, ¬ x.1.Disturbs setup.settings id s slot := by
  have hfiled : c.Filed := hbefore.filed (filed_start setup root code previous)
  have hsettings : c.setup.settings = setup.settings := by rw [hbefore.setup, start]
  have hfinal : c.Final id s slot u.graph := ⟨u, hu, hclosed, .refl _ _ _⟩
  rw [← hsettings]
  generalize u.graph = g at hfinal ⊢
  clear hbefore hu hclosed hsettings
  induction hafter with
  | nil => simp
  | cons hstep hrun ih =>
    rw [List.forall_mem_cons, List.forall_mem_cons, hstep.final_iff hfiled hown hfinal]
    refine and_congr_right fun hquiet ↦ ?_
    have hrest := ih (hstep.filed hfiled) ((hstep.final_iff hfiled hown hfinal).2 hquiet)
    rwa [hstep.setup] at hrest

/-! ### A scope that is initialised twice -/

private def rootId : UnitId := ⟨"root"⟩

private def readScope : Scope := ⟨rootId, "s-0"⟩

private def oneLabel : Setup := ⟨.nonIncremental, ["E"], 0⟩

private def atRoot {α : Type} (c : Core Unit) (op : UnitOp Unit α) : Core Unit :=
  (c.atUnit rootId op).2

/-- The root unit has created a scope that is not to have any edges. -/
private def created : Core Unit :=
  atRoot (atRoot (start oneLabel rootId () none) (.handle (.start [])))
    (.act (.freshScope "s" [] false false))

/-- Its checker has initialised the scope after all, and has added an edge. -/
private def extended : Core Unit :=
  atRoot (atRoot created (.act (.initScope readScope ["E"] false)))
    (.act (.addEdge ⟨readScope, "E", readScope⟩))

private def reader : UnitNode Unit :=
  (created.units[rootId]?).getD (.new rootId none (.checker ()) none false false)

private theorem reaches_created : Reaches (start oneLabel rootId () none) created :=
  (reaches_atUnit _ rootId (.handle (.start []))).trans (reaches_atUnit _ _ _)

/-- A checker that initialises its scope once more disturbs what it has read. -/
theorem stays_final_iff_initialised_twice :
    created.units[rootId]? = some reader ∧ reader.isClosed readScope (.edge "E") = true ∧
      ¬ (created.turn reader (.act (.initScope readScope ["E"] false))).2.2.Final rootId readScope
        (.edge "E") reader.graph := by
  have hreader : created.units[rootId]? = some reader := by rfl
  have hclosed : reader.isClosed readScope (.edge "E") = true := by rfl
  refine ⟨hreader, hclosed, fun hfinal ↦ ?_⟩
  obtain ⟨before, hbefore⟩ := reaches_created
  have hstep := Step.turn hreader (.act (.initScope readScope ["E"] false))
  have hstays := stays_final_iff hbefore hreader rfl hclosed (.cons hstep (.nil _))
  refine hstays.1 (fun x hx ↦ ?_) _ List.mem_cons_self ⟨rfl, .inl ⟨by rfl, rfl, .inr ?_⟩⟩
  · rw [List.mem_singleton.1 hx]
    exact hfinal
  · exact List.mem_singleton.2 rfl

/-- **Not every answer is final.** There is a run in which a unit finds a slot of one of its scopes
closed, and the slot holds something else later. -/
theorem not_always_final :
    ¬ ∀ (setup : Setup) (root : UnitId) (c c' : Core Unit) (u u' : UnitNode Unit) (id : UnitId)
      (s : Scope) (slot : Slot), Reaches (start setup root () none) c → c.units[id]? = some u →
      s.owner = id → u.isClosed s slot = true → Reaches c c' → c'.units[id]? = some u' →
      u'.graph.AgreeAt u.graph s slot := by
  intro h
  have hafter : Reaches created extended :=
    (reaches_atUnit _ rootId (.act (.initScope readScope ["E"] false))).trans (reaches_atUnit _ _ _)
  have htargets : (extended.units[rootId]?).map (fun u ↦ u.graph.targets readScope "E") =
      some [readScope] := by rfl
  obtain ⟨u', hu', hedge⟩ := Option.map_eq_some_iff.1 htargets
  have hnone : reader.graph.targets readScope "E" = [] := by rfl
  have hsame : u'.graph.targets readScope "E" = reader.graph.targets readScope "E" :=
    h oneLabel rootId created extended reader u' rootId readScope (.edge "E") reaches_created
      (by rfl) rfl (by rfl) hafter hu'
  rw [hedge, hnone] at hsame
  exact absurd hsame (by simp)

end Core

end ScopeGraphs
