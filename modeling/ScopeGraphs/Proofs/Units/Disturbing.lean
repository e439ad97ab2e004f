import ScopeGraphs.Proofs.Units.Replaying

/-!
# What disturbs a closed slot

A slot of a scope is closed at the owner of the scope once no token keeps it open. Nothing in a unit
remembers that: a closed slot is opened again by anything that raises a closure token for it, and
some assertions are made without asking whether the slot is open. This module says exactly which
operations do so, by the state of the unit that they are carried out on, and shows that no other
operation has an influence on a closed slot.

* A slot is *reopened* when its scope is initialised, announced to be initialised or handed to a
  sub-unit, when the scope is created, and when a unit resumes or replays its previous run.
* A slot is *written* to when an edge arrives from another unit, and when the graph of the previous
  run or of a library is asserted.
-/

namespace ScopeGraphs

variable {γ α β : Type} {s : Scope} {slot : Slot}

/-! ## Reopening and writing -/

/-- Whether the checker of a unit may act. -/
def UnitNode.mayAct (u : UnitNode γ) : Bool := u.phase.isLive && !u.finished

/-- Whether an action of the checker opens a slot of a scope of the unit. -/
def Action.Reopens (settings : Settings) (u : UnitNode γ) (s : Scope) (slot : Slot) :
    {α : Type} → Action γ α → Prop
  | _, .freshScope base labels hasDatum sharing =>
    u.mayAct ∧ (sharing ∨ u.phase ≠ .undecided) ∧ Attempt.nextScope u base = s ∧
      (sharing ∨ slot ∈ labels.map .edge ++ if hasDatum then [.datum] else [])
  | _, .initScope s' labels sharing => u.mayAct ∧ s' = s ∧ (sharing ∨ slot ∈ labels.map .edge)
  | _, .shareScope s' => u.mayAct ∧ s' = s
  | _, .addSubUnit name kind roots _ => u.mayAct ∧ u.Accepts name kind roots ∧ s ∈ roots
  | _, .askForReuse =>
    u.phase = .started ∧ Attempt.mayReuse settings u ∧
      ∃ x, u.previous.bind Report.snapshot = some x ∧ x.KeepsOpen s slot
  | _, _ => False

/-- What an action of the checker asserts without asking whether slots are open. -/
def Action.written (settings : Settings) (u : UnitNode γ) : {α : Type} → Action γ α → ScopeGraph
  | _, .askForReuse =>
    if u.phase = .started ∧ Attempt.mayReuse settings u then
      match u.previous.bind Report.snapshot with
      | some x => x.graph.rename (u.rootPairs .identity)
      | none => .empty
    else .empty
  | _, _ => .empty

/-- The renaming under which a stand-in replays its previous result when it starts. -/
def UnitNode.replayed (u : UnitNode γ) (roots : List Scope) : Renaming :=
  { u with roots := roots }.rootPairs u.reuseOrIdentity

/-- Whether handling a message opens a slot of a scope of the unit. -/
def Message.Reopens (u : UnitNode γ) (s : Scope) (slot : Slot) : Message → Prop
  | .initShare _ s' slots sharing => s' = s ∧ (sharing ∨ slot ∈ slots)
  | .addShare _ s' => s' = s
  | .start roots => u.phase = .created ∧ u.kind = .phantom true ∧ u.HandsOn (u.replayed roots) s
  | _ => False

/-- What handling a message asserts without asking whether slots are open. -/
def Message.written (u : UnitNode γ) : Message → ScopeGraph
  | .addEdge _ e => .of [e] []
  | .start roots =>
    if u.phase = .created then
      match u.kind with
      | .checker _ | .phantom false => .empty
      | .phantom true =>
        match u.previous with
        | some previous => previous.localGraph.rename (u.replayed roots)
        | none => .empty
      | .library lib =>
        match lib.bind u.id roots with
        | .ok (_, graph) => graph.rename .identity
        | .error _ => .empty
    else .empty
  | _ => .empty

namespace UnitOp

/-- Whether an operation opens a slot of a scope of the unit. -/
def Reopens (settings : Settings) (u : UnitNode γ) (s : Scope) (slot : Slot) :
    {α : Type} → UnitOp γ α → Prop
  | _, act a => a.Reopens settings u s slot
  | _, handle m => m.Reopens u s slot
  | _, release p => u.phase = .undecided ∧ u.HandsOn p s
  | _, _ => False

/-- What an operation asserts without asking whether slots are open. -/
def written (settings : Settings) (u : UnitNode γ) : {α : Type} → UnitOp γ α → ScopeGraph
  | _, act a => a.written settings u
  | _, handle m => m.written u
  | _, release p =>
    if u.phase = .undecided then
      match u.previous with
      | some previous => previous.localGraph.rename p
      | none => .empty
    else .empty
  | _, _ => .empty

/-- Whether an operation disturbs a closed slot of a scope of the unit: it opens the slot, or
asserts something there that the unit did not have. -/
def Disturbs (settings : Settings) (u : UnitNode γ) (s : Scope) (slot : Slot) (op : UnitOp γ α) :
    Prop :=
  op.Reopens settings u s slot ∨
    ¬ (u.graph.union (op.written settings u)).AgreeAt u.graph s slot

end UnitOp

/-! ## Actions of the checker -/

namespace Attempt

variable (t : Turn γ)

theorem bind_apply (x : Attempt γ α) (f : α → Attempt γ β) :
    (x >>= f) t = match x t with
      | (.ok a, t) => f a t
      | (.error e, t) => (.error e, t) := by
  simp only [bind, ExceptT.bind, ExceptT.bindCont, ExceptT.mk, StateT.bind]
  rcases x t with ⟨_ | _, _⟩ <;> rfl

theorem unit_bind (f : UnitNode γ → Attempt γ α) : (unit >>= f) t = f t.unit t := bind_apply _ _ _

theorem get_bind (f : Turn γ → Attempt γ α) : (get >>= f) t = f t t := bind_apply _ _ _

theorem change_bind (g : Turn γ → Turn γ) (f : PUnit → Attempt γ α) :
    (change g >>= f) t = f ⟨⟩ (g t) :=
  bind_apply _ _ _

theorem require_bind (ok : Bool) (e : Fault) (f : PUnit → Attempt γ α) :
    (require ok e >>= f) t = if ok then f ⟨⟩ t else (.error e, t) := by
  rw [bind_apply]
  cases ok <;> rfl

theorem requireLive_bind (f : PUnit → Attempt γ α) :
    (requireLive >>= f) t = if t.unit.mayAct then f ⟨⟩ t
      else (.error (.illegalState (.inactive t.unit.id t.unit.phase)), t) := by
  have hrequire : requireLive t = require t.unit.mayAct
      (.illegalState (.inactive t.unit.id t.unit.phase)) t := by
    rw [requireLive, unit_bind]
    rfl
  rw [bind_apply, hrequire, ← bind_apply, require_bind]

theorem requireKnown_bind (s : Scope) (f : PUnit → Attempt γ α) :
    (requireKnown s >>= f) t = if t.unit.scopes.contains s then f ⟨⟩ t
      else (.error (.unknownScope s.quoted), t) := by
  have hrequire : requireKnown s t =
      require (t.unit.scopes.contains s) (.unknownScope s.quoted) t := by
    rw [requireKnown, unit_bind]
  rw [bind_apply, hrequire, ← bind_apply, require_bind]

/-- Committing a unit may make it run, and an undecided one refuses. -/
theorem commit_apply : (commit t).2 = t.eagerStart ∧
    (commit t).1 = if t.unit.phase = .undecided then .error (.illegalState (.undecided t.unit.id))
      else .ok ⟨⟩ := by
  rw [commit, unit_bind, Turn.eagerStart]
  cases t.unit.phase <;> exact ⟨rfl, rfl⟩

theorem commit_bind (f : PUnit → Attempt γ α) :
    (commit >>= f) t = if t.unit.phase = .undecided then
        (.error (.illegalState (.undecided t.unit.id)), t)
      else f ⟨⟩ t.eagerStart := by
  obtain ⟨hturn, hresult⟩ := commit_apply t
  rw [bind_apply, show commit t = ((commit t).1, (commit t).2) from rfl, hturn, hresult]
  by_cases hphase : t.unit.phase = .undecided
  · rw [if_pos hphase, if_pos hphase, Turn.eagerStart, if_neg (by simp [hphase])]
  · rw [if_neg hphase, if_neg hphase]

/-! ### What becomes of a closed slot -/

variable {t}

/-- An action that a checker may not take leaves its unit alone. -/
theorem outcome_requireLive {f : PUnit → Attempt γ α} {reopened : Prop}
    (hclosed : t.unit.waits.isOpen s slot = false)
    (h : t.unit.mayAct = true → t.unit.Outcome (f ⟨⟩ t).2.unit s slot reopened .empty) :
    t.unit.Outcome ((requireLive >>= f) t).2.unit s slot (t.unit.mayAct ∧ reopened) .empty := by
  rw [requireLive_bind]
  split
  · rename_i hact
    exact (h hact).congr (by simp [hact])
  · rename_i hact
    exact ((UnitNode.Subsides.refl _).outcome hclosed).congr (by simp [hact])

theorem outcome_of_requireLive {f : PUnit → Attempt γ α}
    (hclosed : t.unit.waits.isOpen s slot = false)
    (h : t.unit.Outcome (f ⟨⟩ t).2.unit s slot False .empty) :
    t.unit.Outcome ((requireLive >>= f) t).2.unit s slot False .empty :=
  (outcome_requireLive hclosed fun _ ↦ h).congr (by simp)

/-- Creates a scope on behalf of a checker that may do so. -/
def create (base : String) (labels : List Label) (hasDatum sharing : Bool) : Attempt γ Scope := do
  let u ← unit
  let s := nextScope u base
  change fun t ↦ t.edit fun u ↦
    { u with
      counters := u.counters.insert base (nextNumber u base + 1)
      scopes := u.scopes.insert s }
  let slots := labels.map .edge ++ (if hasDatum then [.datum] else [])
  let tokens := slots.map (.closeSlot s) ++ (if sharing then [.closeScope s] else [])
  change (Turn.waitForAll · tokens u.id)
  pure s

theorem freshScope_eq (base : String) (labels : List Label) (hasDatum sharing : Bool) :
    (freshScope base labels hasDatum sharing : Attempt γ Scope) = requireLive >>= fun _ ↦
      if sharing then create base labels hasDatum sharing
      else commit >>= fun _ ↦ create base labels hasDatum sharing :=
  rfl

theorem outcome_create {t' : Turn γ} (h : t.unit.Subsides t'.unit)
    (hclosed : t.unit.waits.isOpen s slot = false) (base : String) (labels : List Label)
    (hasDatum sharing : Bool) :
    t.unit.Outcome (create base labels hasDatum sharing t').2.unit s slot
      (nextScope t.unit base = s ∧
        (sharing ∨ slot ∈ labels.map .edge ++ if hasDatum then [.datum] else [])) .empty := by
  rw [create, unit_bind, change_bind, change_bind]
  let s' := nextScope t'.unit base
  let slots := labels.map Slot.edge ++ if hasDatum then [Slot.datum] else []
  let tokens := slots.map (Token.closeSlot s') ++ if sharing then [Token.closeScope s'] else []
  let created : Turn γ := t'.edit fun u ↦
    { u with
      counters := u.counters.insert base (nextNumber u base + 1)
      scopes := u.scopes.insert s' }
  obtain ⟨waits, hunit, hany⟩ := created.waitForAll_spec tokens t'.unit.id
  change t.unit.Outcome (created.waitForAll tokens t'.unit.id).unit s slot _ _
  rw [hunit]
  refine .of_agreeAt h.id ?_ ?_
  · have hs' : s' = nextScope t.unit base := by
      unfold s' nextScope nextNumber
      rw [h.id, h.counters]
    have hwaits : created.unit.waits.any (Token.keepsOpen s slot) = false := h.closed hclosed
    rw [TokenBag.isOpen, hany, hwaits, Bool.or_false, ← hs']
    exact Turn.any_keepsOpen
  · change t'.unit.graph.AgreeAt _ _ _
    rw [h.graph]
    exact .refl _ _ _

theorem outcome_freshScope (hclosed : t.unit.waits.isOpen s slot = false) (base : String)
    (labels : List Label) (hasDatum sharing : Bool) :
    t.unit.Outcome (freshScope base labels hasDatum sharing t).2.unit s slot
      (t.unit.mayAct ∧ (sharing ∨ t.unit.phase ≠ .undecided) ∧ nextScope t.unit base = s ∧
        (sharing ∨ slot ∈ labels.map .edge ++ if hasDatum then [.datum] else [])) .empty := by
  rw [freshScope_eq]
  refine outcome_requireLive hclosed fun _ ↦ ?_
  split
  · rename_i hsharing
    exact (outcome_create (.refl _) hclosed _ _ _ _).congr (by simp [hsharing])
  · rename_i hsharing
    rw [commit_bind]
    split
    · rename_i hphase
      exact ((UnitNode.Subsides.refl _).outcome hclosed).congr (by simp [hsharing, hphase])
    · rename_i hphase
      have hstarted := (UnitNode.Subsides.refl t.unit).eagerStart
      exact (outcome_create hstarted hclosed _ _ _ _).congr (by simp [hphase])

theorem outcome_initScope (hown : s.owner = t.unit.id)
    (hclosed : t.unit.waits.isOpen s slot = false) (s' : Scope) (labels : List Label) (sharing : Bool) :
    t.unit.Outcome (initScope s' labels sharing t).2.unit s slot
      (t.unit.mayAct ∧ s' = s ∧ (sharing ∨ slot ∈ labels.map .edge)) .empty := by
  refine outcome_requireLive hclosed fun _ ↦ ?_
  rw [unit_bind]
  split
  · exact t.outcome_shareInitialized hclosed _ _ _ _
  · rename_i hforeign
    have h : t.unit.Subsides ((t.keepOpen s' (labels.map .edge)).send s'.owner
        (.initShare t.unit.id s' (labels.map .edge) sharing)).unit :=
      ((UnitNode.Subsides.refl t.unit).edit (by rfl)).send _ _
    refine (h.outcome hclosed).congr ⟨False.elim, ?_⟩
    rintro ⟨rfl, -⟩
    exact hforeign (UnitNode.owns_iff.2 hown)

theorem outcome_shareScope (hown : s.owner = t.unit.id)
    (hclosed : t.unit.waits.isOpen s slot = false) (s' : Scope) :
    t.unit.Outcome (shareScope s' t).2.unit s slot (t.unit.mayAct ∧ s' = s) .empty := by
  refine outcome_requireLive hclosed fun _ ↦ ?_
  rw [unit_bind]
  split
  · exact t.outcome_shareAnnounced hclosed _ _
  · rename_i hforeign
    refine ((UnitNode.Subsides.refl t.unit).outcome hclosed).congr ⟨False.elim, ?_⟩
    rintro rfl
    exact hforeign (UnitNode.owns_iff.2 hown)

theorem outcome_addSubUnit (hown : s.owner = t.unit.id)
    (hclosed : t.unit.waits.isOpen s slot = false) (name : String) (kind : UnitKind γ)
    (roots : List Scope) (changed : Bool) :
    t.unit.Outcome (addSubUnit name kind roots changed t).2.unit s slot
      (t.unit.mayAct ∧ t.unit.Accepts name kind roots ∧ s ∈ roots) .empty := by
  refine outcome_requireLive hclosed fun _ ↦ ?_
  change t.unit.Outcome (t.addSubUnit name kind roots changed).2.unit s slot _ _
  by_cases haccepts : t.unit.Accepts name kind roots
  · obtain ⟨waits, sharedPairs, differ, hunit, hopen⟩ :=
      t.addSubUnit_of_accepts name kind roots changed haccepts
    rw [hunit]
    refine .of_agreeAt rfl ?_ (.refl _ _ _)
    rw [hopen s slot hown, hclosed]
    simp [haccepts]
  · rw [t.addSubUnit_of_not_accepts _ _ _ _ haccepts]
    exact ((UnitNode.Subsides.refl _).outcome hclosed).congr (by simp [haccepts])

/-- A datum is set only while its slot is open. -/
theorem outcome_setDatum (hclosed : t.unit.waits.isOpen s slot = false) (s' : Scope) (d : Datum) :
    t.unit.Outcome (setDatum s' d t).2.unit s slot False .empty := by
  have hrefused : t.unit.Outcome t.unit s slot False .empty :=
    (UnitNode.Subsides.refl _).outcome hclosed
  refine outcome_of_requireLive hclosed ?_
  rw [unit_bind, require_bind]
  split
  · rw [requireKnown_bind]
    split
    · rw [require_bind]
      split
      · rename_i hopen
        have hne : ¬ (s' = s ∧ slot = .datum) := by
          rintro ⟨rfl, rfl⟩
          have hkeeps : t.unit.waits.isOpen s' .datum = true :=
            TokenBag.isOpen_of_contains hopen (by simp [Token.keepsOpen])
          exact absurd hclosed (by simp [hkeeps])
        exact (t.outcome_assertDatum hclosed d hne).subsides ((UnitNode.Subsides.refl _).grant _ _)
      · exact hrefused
    · exact hrefused
  · exact hrefused

/-- An edge is added only while its slot is open. -/
theorem outcome_addEdge (hown : s.owner = t.unit.id) (hclosed : t.unit.waits.isOpen s slot = false)
    (e : Edge) : t.unit.Outcome (addEdge e t).2.unit s slot False .empty := by
  refine outcome_of_requireLive hclosed ?_
  rw [commit_bind]
  split
  · exact (UnitNode.Subsides.refl _).outcome hclosed
  · have hstarted := (UnitNode.Subsides.refl t.unit).eagerStart
    have hrefused : t.unit.Outcome t.eagerStart.unit s slot False .empty := hstarted.outcome hclosed
    have hadded (hne : ¬ (e.source = s ∧ slot = .edge e.label)) :
        t.unit.Outcome (t.eagerStart.assertEdge e).unit s slot False .empty :=
      hstarted.trans_outcome (Turn.outcome_assertEdge _ (hstarted.closed hclosed) hne)
    rw [unit_bind]
    split
    · rw [requireKnown_bind]
      split
      · rw [require_bind]
        split
        · rename_i hopen
          refine hadded ?_
          rintro ⟨rfl, rfl⟩
          exact absurd (hstarted.closed hclosed) (by simp [hopen])
        · exact hrefused
      · exact hrefused
    · rename_i hforeign
      rw [require_bind]
      split
      · refine hadded ?_
        rintro ⟨rfl, -⟩
        exact hforeign (UnitNode.owns_iff.2 (hown.trans hstarted.id.symm))
      · exact hrefused

theorem outcome_closeLabel (hclosed : t.unit.waits.isOpen s slot = false) (s' : Scope) (l : Label) :
    t.unit.Outcome (closeLabel s' l t).2.unit s slot False .empty := by
  have hself := UnitNode.Subsides.refl t.unit
  refine outcome_of_requireLive hclosed ?_
  rw [unit_bind]
  split
  · exact (hself.grant _ _).outcome hclosed
  · split
    · exact ((hself.dropShared s' (.edge l)).send _ _).outcome hclosed
    · exact hself.outcome hclosed

theorem outcome_closeScope (hclosed : t.unit.waits.isOpen s slot = false) (s' : Scope) :
    t.unit.Outcome (closeScope s' t).2.unit s slot False .empty := by
  have hself := UnitNode.Subsides.refl t.unit
  refine outcome_of_requireLive hclosed ?_
  rw [unit_bind]
  split
  · exact (hself.grant _ _).outcome hclosed
  · exact (hself.send _ _).outcome hclosed

theorem outcome_beginQuery (hclosed : t.unit.waits.isOpen s slot = false) (path : Path) :
    t.unit.Outcome (beginQuery path t).2.unit s slot False .empty := by
  have hself := UnitNode.Subsides.refl t.unit
  rw [beginQuery, bind_apply]
  change t.unit.Outcome ((requireLive >>= _) t.newRequest.2).2.unit s slot False .empty
  refine outcome_of_requireLive (t := t.newRequest.2) hclosed ?_
  rw [commit_bind]
  split
  · exact hself.outcome hclosed
  · exact ((UnitNode.Subsides.eagerStart (t := t.newRequest.2) hself).waitFor
      (.query path t.newRequest.1) rfl _).outcome hclosed

/-- A unit that asks for reuse resumes its snapshot of the previous run. -/
theorem outcome_askForReuse (hown : s.owner = t.unit.id)
    (hclosed : t.unit.waits.isOpen s slot = false) :
    t.unit.Outcome (askForReuse t).2.unit s slot
      (Action.Reopens t.settings t.unit s slot .askForReuse)
      (Action.written t.settings t.unit .askForReuse) := by
  have hself := UnitNode.Subsides.refl t.unit
  rw [askForReuse, unit_bind, require_bind, Action.Reopens, Action.written]
  by_cases hphase : t.unit.phase = .started
  · rw [if_pos (decide_eq_true hphase), get_bind]
    by_cases hreuse : mayReuse t.settings t.unit = true
    · rw [if_pos hreuse, if_pos ⟨hphase, hreuse⟩, change_bind]
      cases hsnapshot : t.unit.previous.bind Report.snapshot with
      | some x =>
        dsimp only
        rw [change_bind, change_bind]
        -- A snapshot is restored at once, before it is decided whether the unit is reused.
        let undecided : Turn γ := t.edit fun u ↦ { u with phase := .undecided }
        have h := undecided.outcome_restore x hown hclosed
        exact ⟨h.id, h.isOpen_iff.trans (by simp [hphase, hreuse]), h.agreeAt⟩
      | none =>
        dsimp only
        have hundecided : t.unit.Subsides (t.edit fun u ↦ { u with phase := .undecided }).unit :=
          hself.edit (by rfl)
        exact (hundecided.outcome hclosed).congr (by simp)
    · rw [if_neg hreuse, if_neg fun h ↦ hreuse h.2, change_bind]
      exact ((hself.restart _).outcome hclosed).congr (by simp [hreuse])
  · rw [if_neg (by simpa using hphase), if_neg fun h ↦ hphase h.1]
    exact (hself.outcome hclosed).congr (by simp [hphase])

end Attempt

/-! ## All operations -/

namespace Turn

variable {t : Turn γ}

/-- What becomes of a closed slot when the unit starts. -/
theorem outcome_start (hown : s.owner = t.unit.id) (hclosed : t.unit.waits.isOpen s slot = false)
    (roots : List Scope) :
    t.unit.Outcome (t.start roots).unit s slot (Message.Reopens t.unit s slot (.start roots))
      (Message.written t.unit (.start roots)) := by
  have hself := UnitNode.Subsides.refl t.unit
  rw [Message.Reopens, Message.written, start]
  by_cases hphase : t.unit.phase = .created
  · rw [if_neg (by simpa using hphase), if_pos hphase]
    extract_lets started told
    -- Telling the parent sends a message and leaves the unit alone.
    have htold : told.unit = { t.unit with roots := roots, phase := .started } := by
      unfold told
      cases started.unit.parent <;> rfl
    have hsubsides : t.unit.Subsides told.unit :=
      htold ▸ ⟨rfl, rfl, rfl, rfl, rfl, rfl, rfl, fun h ↦ h⟩
    have hkind : told.unit.kind = t.unit.kind := by rw [htold]
    have hroots : told.unit.roots = roots := by rw [htold]
    have hprevious : told.unit.previous = t.unit.previous := by rw [htold]
    have hreplayed : told.unit.rootPairs told.unit.reuseOrIdentity = t.unit.replayed roots := by
      rw [htold]
      rfl
    have hown' : s.owner = told.unit.id := hown.trans hsubsides.id.symm
    have hclosed' := hsubsides.closed hclosed
    rw [hkind]
    cases t.unit.kind with
    | checker code =>
      exact ((hsubsides.waitFor .activate rfl _).outcome hclosed).congr (by simp)
    | library lib =>
      have h := told.outcome_startLibrary lib hown' hclosed'
      rw [hsubsides.id, hroots] at h
      exact (hsubsides.trans_outcome h).congr (by simp)
    | phantom replay =>
      cases replay with
      | false => exact (hsubsides.startRemoved.outcome hclosed).congr (by simp)
      | true =>
        cases hsome : t.unit.previous with
        | some previous =>
          have h := told.outcome_startReplaying (hprevious.trans hsome) hown' hclosed'
          have hhands : told.unit.HandsOn (t.unit.replayed roots) s ↔
              t.unit.HandsOn (t.unit.replayed roots) s := by
            rw [htold]
            exact Iff.rfl
          rw [hreplayed] at h
          exact (hsubsides.trans_outcome h).congr (hhands.trans (by simp [hphase]))
        | none =>
          have hfails : t.unit.Subsides told.startReplaying.unit := by
            unfold startReplaying
            rw [hprevious.trans hsome]
            exact hsubsides.fail _
          refine (hfails.outcome hclosed).congr ⟨False.elim, ?_⟩
          rintro ⟨-, -, previous, -, -, hprevious', -⟩
          exact absurd (hsome.symm.trans hprevious') (by simp)
  · rw [if_pos hphase, if_neg hphase]
    exact (hself.outcome hclosed).congr (by simp [hphase])

/-- What becomes of a closed slot when the unit handles a message. -/
theorem outcome_handle (hown : s.owner = t.unit.id) (hclosed : t.unit.waits.isOpen s slot = false)
    (m : Message) :
    t.unit.Outcome (t.handle m).unit s slot (m.Reopens t.unit s slot) (m.written t.unit) := by
  have hself := UnitNode.Subsides.refl t.unit
  cases m with
  | start roots => exact outcome_start hown hclosed roots
  | unitStarted sender => exact (hself.grant _ _).outcome hclosed
  | initShare sender s' slots sharing => exact t.outcome_shareInitialized hclosed _ _ _ _
  | addShare sender s' => exact t.outcome_shareAnnounced hclosed _ _
  | addEdge sender e =>
    change t.unit.Outcome (t.receiveEdge e).unit s slot False (.of [e] [])
    have hstays : t.unit.waits.isOpen s slot = true ↔ False := by simp [hclosed]
    rw [receiveEdge]
    split
    · exact ⟨rfl, hstays, ScopeGraph.agreeAt_addEdge_union⟩
    · rename_i hforeign
      have hne : ¬ (e.source = s ∧ slot = .edge e.label) := by
        rintro ⟨rfl, -⟩
        exact hforeign (UnitNode.owns_iff.2 hown)
      exact ⟨rfl, hstays, (ScopeGraph.agreeAt_addEdge hne).symm.trans
        ScopeGraph.agreeAt_addEdge_union⟩
  | closeEdge sender s' slot' => exact (hself.grant _ _).outcome hclosed
  | closeScope sender s' => exact (hself.grant _ _).outcome hclosed
  | query sender path q reply => exact hself.outcome hclosed
  | queryPrevious sender path q reply => exact hself.outcome hclosed
  | confirm sender path p rule prevEmpty reply => exact hself.outcome hclosed
  | counterpart sender s' reply => exact hself.outcome hclosed

/-- What becomes of a closed slot when the unit is told to reuse its previous result. -/
theorem outcome_releaseOp (hown : s.owner = t.unit.id)
    (hclosed : t.unit.waits.isOpen s slot = false) (p : Renaming) :
    t.unit.Outcome (t.release p).unit s slot (UnitOp.Reopens t.settings t.unit s slot (.release p))
      (UnitOp.written t.settings t.unit (.release p)) := by
  rw [UnitOp.Reopens, UnitOp.written]
  by_cases hphase : t.unit.phase = .undecided
  · rw [if_pos hphase]
    cases hprevious : t.unit.previous with
    | some previous =>
      exact (t.outcome_release hphase hprevious hown hclosed).congr (by simp [hphase])
    | none =>
      rw [release_of_not t fun previous _ hsome ↦ by simp [hprevious] at hsome]
      refine ((UnitNode.Subsides.refl _).outcome hclosed).congr ⟨False.elim, ?_⟩
      rintro ⟨-, previous, -, -, hsome, -⟩
      exact absurd (hprevious.symm.trans hsome) (by simp)
  · rw [release_of_not t fun previous h _ ↦ hphase h, if_neg hphase]
    exact ((UnitNode.Subsides.refl _).outcome hclosed).congr (by simp [hphase])

end Turn

namespace UnitOp

variable {t : Turn γ}

/-- **What becomes of a closed slot.** Whatever is done to a unit, a closed slot of one of its
scopes is open afterwards exactly if the operation reopens it, and holds what it held before,
together with what the operation asserts without asking. -/
theorem outcome_run (hown : s.owner = t.unit.id) (hclosed : t.unit.waits.isOpen s slot = false)
    (op : UnitOp γ α) :
    t.unit.Outcome (op.run t).2.unit s slot (op.Reopens t.settings t.unit s slot)
      (op.written t.settings t.unit) := by
  have hself := UnitNode.Subsides.refl t.unit
  -- Actions of checkers, messages and releases may reopen the slot, and nothing else does.
  cases op with
  | act a =>
    cases a with
    | freshScope base labels hasDatum sharing => exact Attempt.outcome_freshScope hclosed _ _ _ _
    | initScope s' labels sharing => exact Attempt.outcome_initScope hown hclosed _ _ _
    | shareScope s' => exact Attempt.outcome_shareScope hown hclosed _
    | setDatum s' d => exact Attempt.outcome_setDatum hclosed _ _
    | addEdge e => exact Attempt.outcome_addEdge hown hclosed _
    | closeLabel s' l => exact Attempt.outcome_closeLabel hclosed _ _
    | closeScope s' => exact Attempt.outcome_closeScope hclosed _
    | beginQuery path => exact Attempt.outcome_beginQuery hclosed _
    | addSubUnit name kind roots changed => exact Attempt.outcome_addSubUnit hown hclosed _ _ _ _
    | askForReuse => exact Attempt.outcome_askForReuse hown hclosed
  | begin state => exact UnitNode.Subsides.outcome (hself.edit (by rfl)) hclosed
  | keepState state => exact UnitNode.Subsides.outcome (hself.edit (by rfl)) hclosed
  | eagerStart => exact hself.eagerStart.outcome hclosed
  | checkerFinished result => exact (hself.checkerFinished _).outcome hclosed
  | awaitDecided => exact hself.awaitDecided.outcome hclosed
  | awaitClosed s' slot' => exact (hself.awaitClosed s' slot').outcome hclosed
  | awaitOpen => exact hself.awaitOpen.outcome hclosed
  | awaitDecision => exact hself.awaitDecision.outcome hclosed
  | awaitReport => exact hself.awaitReport.outcome hclosed
  | ask q => exact (hself.ask q).outcome hclosed
  | endAsking ticket => exact (hself.grant _ _).outcome hclosed
  | endQuery token record => exact (hself.endQuery token record).outcome hclosed
  | matchStep s' => exact (hself.matchStep s').outcome hclosed
  | diffScope s' labels => exact (hself.diffScope s' labels).outcome hclosed
  | handle m => exact Turn.outcome_handle hown hclosed m
  | subUnitFinished r => exact (hself.subUnitFinished r).outcome hclosed
  | release p => exact Turn.outcome_releaseOp hown hclosed p
  | restart trace => exact (hself.restart trace).outcome hclosed
  | endLocalPhase => exact (hself.captureEnd).outcome hclosed
  | grantClosures => exact hself.grantClosures.outcome hclosed
  | failStuck => exact hself.failStuck.outcome hclosed

end UnitOp

end ScopeGraphs
