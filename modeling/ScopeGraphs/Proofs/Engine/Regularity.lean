import ScopeGraphs.Proofs.Engine.Conformity
import ScopeGraphs.Proofs.Engine.Lifecycles
import ScopeGraphs.Proofs.Engine.Polling

/-!
# The engine goes in strides

What the engine does, from the start of a run on, is a sequence of strides: the operations that it
carries out by itself are regular, and so are those of tasks that are no checkers. Checkers have to
act for units that have one. For a script this is its own unit, and any unit whose checker has begun
when the script looks at it (`Script.isRegular_behaviour`). What else holds between the states that
such checkers lead through is seen in the same way, for any relation that allows what they do
(`Core.Allows`).

Only what is done to sub-units by name depends on the names. Names are never forgotten, so if all
names that units know in the end are of some kind, then no others came up in the run
(`Core.Strides.named`).
-/

namespace ScopeGraphs

variable {γ α β : Type}

/-! ## Putting processes together -/

namespace Proc

variable {R : Core γ → Core γ → Prop} {c : Core γ} {P : α → Prop} {p : Proc γ α}

/-- What follows on a result has to obey in all states in which the result may come up. -/
theorem Obeys.bind (h : Core.Hosts R) (hp : p.Obeys R c) (hgives : p.Gives P) {f : α → Proc γ β}
    (hf : ∀ c', R c c' → ∀ a, P a → (f a).Obeys R c') : (p >>= f).Obeys R c := by
  induction p generalizing c with
  | done a => exact hf c (h.refl c) a hgives
  | perform op next ih =>
    intro c' hc
    obtain ⟨hdone, hnext⟩ := hp c' hc
    exact ⟨hdone, ih _ hnext (hgives _) fun c'' hc' ↦ hf c'' (h.trans hc (h.trans hdone hc'))⟩
  | await channel next ih => exact fun v ↦ ih v (hp v) (hgives v) hf
  | yield next ih => exact ih hp hgives hf
  | never => trivial
  | together turns parts next ih ihnext => exact ⟨hp.1, fun r ↦ ihnext r (hp.2 r) (hgives r) hf⟩

end Proc

namespace Core

variable {c c' : Core γ} {id : UnitId} {N : String → Prop} {hs : List (UnitId × Report)}

/-! ## The tasks after an operation -/

theorem tasks_turn (c : Core γ) (u : UnitNode γ) (op : UnitOp γ α) :
    (c.turn u op).2.2.executor.tasks = c.executor.tasks := by
  have hwoken (ids : List TaskId) (c : Core γ) :
      (ids.foldl wake c).executor.tasks = c.executor.tasks := by
    induction ids generalizing c with
    | nil => rfl
    | cons k ids ih => exact (ih (c.wake k)).trans (c.executor.tasks_wake k)
  exact hwoken _ _

/-- What neither reports about waits nor new units nor messages change, effects leave alone. -/
theorem eq_applyEffects {σ : Type} {f : Core γ → σ} {origin : UnitId}
    (hnoted : ∀ c e, f (noteWait origin c e) = f c) (hjoined : ∀ c u, f (addUnit c u) = f c)
    (hposted : ∀ c m, f (post c m) = f c) (c : Core γ) (e : Effects γ) :
    f (c.applyEffects origin e) = f c := by
  have hfoldl {ι : Type} {g : Core γ → ι → Core γ} (hg : ∀ c i, f (g c i) = f c) (is : List ι)
      (c : Core γ) : f (is.foldl g c) = f c := by
    induction is generalizing c with
    | nil => rfl
    | cons i is ih => exact (ih (g c i)).trans (hg c i)
  rw [applyEffects, hfoldl hposted, hfoldl hjoined, hfoldl hnoted]

theorem executor_applyEffects (c : Core γ) (origin : UnitId) (e : Effects γ) :
    (c.applyEffects origin e).executor = c.executor :=
  eq_applyEffects (fun _ e ↦ by cases e <;> rfl) (fun c u ↦ by rw [addUnit]; split <;> rfl)
    (fun _ _ ↦ rfl) c e

theorem channels_applyEffects (c : Core γ) (origin : UnitId) (e : Effects γ) :
    (c.applyEffects origin e).channels = c.channels :=
  eq_applyEffects (fun _ e ↦ by cases e <;> rfl) (fun c u ↦ by rw [addUnit]; split <;> rfl)
    (fun _ _ ↦ rfl) c e

theorem tasks_carryOut (c : Core γ) (id : UnitId) (u : UnitNode γ) (op : UnitOp γ α) :
    (c.carryOut id u op).executor.tasks = c.executor.tasks := by
  rw [carryOut, executor_applyEffects, tasks_turn]

/-- The units above one that finishes run no checkers. -/
theorem tasks_handReport (c : Core γ) (origin : UnitId) (report : Report) (n : Nat) :
    (c.handReport origin report n).2.executor.tasks = c.executor.tasks ∧
      (c.handReport origin report n).1.filterMap Task.checker? = [] := by
  induction n generalizing c origin report with
  | zero => exact ⟨rfl, rfl⟩
  | succ n ih =>
    rw [Core.handReport]
    split
    · dsimp only
      split <;> exact ⟨rfl, rfl⟩
    · rename_i parent _
      split
      · exact ⟨rfl, rfl⟩
      · rename_i u _
        have htasks := c.tasks_carryOut parent u (.subUnitFinished report)
        obtain ⟨-, hcheckers, -⟩ :=
          UnitOp.comesTo_subUnitFinished u report c.setup.settings c.channels c.nextRequest
        have hcheckers :
            (c.turn u (.subUnitFinished report)).2.1.tasks.filterMap Task.checker? = [] := hcheckers
        dsimp only
        split
        · exact ⟨htasks, hcheckers⟩
        · rename_i report' _
          obtain ⟨htasks', hcheckers'⟩ :=
            ih (c.carryOut parent u (.subUnitFinished report)) parent report'
          refine ⟨htasks'.trans htasks, ?_⟩
          rw [List.filterMap_append, hcheckers]
          exact hcheckers'

theorem mem_of_tasks_spawnAll {ts : List (Task γ)} {k : TaskId} {t : Task γ}
    (h : (ts.foldl spawn c).executor.tasks[k]? = some t) :
    c.executor.tasks[k]? = some t ∨ t ∈ ts := by
  induction ts generalizing c with
  | nil => exact .inl h
  | cons t' ts ih =>
    obtain hspawned | hmem := ih h
    · rw [spawn, Executor.spawn, Executor.tasks_wake] at hspawned
      obtain ⟨-, rfl⟩ | ⟨-, hold⟩ := SortedMap.getElem?_insert_eq_some_iff.1 hspawned
      · exact .inr List.mem_cons_self
      · exact .inl hold
    · exact .inr (List.mem_cons_of_mem _ hmem)

/-- If a checker is to be run after an operation it was before, or it is that of the unit. -/
theorem checker_of_tasks_atUnit {op : UnitOp γ α} {k : TaskId} {t : Task γ} {i : UnitId}
    (h : (c.atUnit id op).2.executor.tasks[k]? = some t) (hi : t.checker? = some i) :
    c.executor.tasks[k]? = some t ∨
      ∃ u, c.units[id]? = some u ∧ i ∈ (c.turnOf u op).effects.checkers := by
  cases hu : c.units[id]? with
  | none =>
    rw [atUnit, hu] at h
    exact .inl h
  | some u =>
    rw [atUnit, hu] at h
    dsimp only at h
    have hcheckers (hmem : t ∈ (c.turn u op).2.1.tasks) : i ∈ (c.turnOf u op).effects.checkers :=
      List.mem_filterMap.2 ⟨t, hmem, hi⟩
    split at h
    · obtain hold | hmem := mem_of_tasks_spawnAll h
      · exact .inl (c.tasks_carryOut id u op ▸ hold)
      · exact .inr ⟨u, rfl, hcheckers hmem⟩
    · rename_i report _
      obtain ⟨htasks, hnone⟩ := (c.carryOut id u op).tasks_handReport id report
        ((c.carryOut id u op).units.size + 1)
      obtain hold | hmem := mem_of_tasks_spawnAll h
      · exact .inl (c.tasks_carryOut id u op ▸ htasks ▸ hold)
      · obtain hmem | hmem := List.mem_append.1 hmem
        · exact .inr ⟨u, rfl, hcheckers hmem⟩
        · have hmem : i ∈ ((c.carryOut id u op).handReport id report
              ((c.carryOut id u op).units.size + 1)).1.filterMap Task.checker? :=
            List.mem_filterMap.2 ⟨t, hmem, hi⟩
          rw [hnone] at hmem
          exact absurd hmem List.not_mem_nil

/-! ## States in which checkers run for units that have them -/

/-- The unit has a checker. -/
def HasChecker (c : Core γ) (id : UnitId) : Prop :=
  ∃ u, c.units[id]? = some u ∧ u.kind.isChecker = true

theorem HasChecker.later (h : c.HasChecker id) (hprecedes : c.Precedes c') : c'.HasChecker id := by
  obtain ⟨u, hu, hkind⟩ := h
  obtain ⟨v, hv, hlife⟩ := hprecedes id u hu
  have hsame : v.kind = u.kind := hlife.kind
  exact ⟨v, hv, hsame ▸ hkind⟩

/-- The state is sound, and the tasks that run checkers run those of units that have one. -/
structure IsFit (c : Core γ) : Prop where
  sound : c.IsSound
  checkers : ∀ (k : TaskId) (t : Task γ) (i : UnitId), c.executor.tasks[k]? = some t →
    t.checker? = some i → c.HasChecker i

theorem isFit_start (setup : Setup) (root : UnitId) (code : γ) (previous : Option Report) :
    (start setup root code previous).IsFit where
  sound := isSound_start setup root code previous
  checkers _ _ _ ht := absurd ht (by simp [start, Executor.empty])

/-- From a fit state, strides lead to another one. -/
def Follows (c c' : Core γ) : Prop :=
  c.IsFit → c'.IsFit ∧ ∃ hs, Strides (fun _ ↦ True) c hs c'

theorem Follows.later (h : Follows c c') (hc : c.IsFit) (hchecker : c.HasChecker id) :
    c'.HasChecker id := by
  obtain ⟨-, hs, hstrides⟩ := h hc
  exact hchecker.later (hstrides.passes hc.sound).precedes

theorem Follows.other (hunits : c'.units = c.units) (hframe : SameFrame c c')
    (hparked : c'.mail.parked = c.mail.parked ∨ c'.mail.parked = ∅)
    (htasks : ∀ (k : TaskId) (t : Task γ) (i : UnitId), c'.executor.tasks[k]? = some t →
      t.checker? = some i → c.executor.tasks[k]? = some t ∨ c.HasChecker i) : Follows c c' := by
  refine fun hc ↦ ⟨⟨hc.sound.of_units_eq hunits, fun k t i ht hi ↦ ?_⟩, [],
    (Stride.other hunits hframe hparked).strides⟩
  have hchecker : c.HasChecker i := (htasks k t i ht hi).elim (hc.checkers k t i · hi) fun h ↦ h
  rwa [HasChecker, hunits]

theorem Follows.trans {c'' : Core γ} (h : Follows c c') (h' : Follows c' c'') : Follows c c'' := by
  intro hc
  obtain ⟨hfit, hs, hstrides⟩ := h hc
  obtain ⟨hfit', hs', hstrides'⟩ := h' hfit
  exact ⟨hfit', _, hstrides.trans hstrides'⟩

/-- A regular operation is a stride, and spawns no checker of another unit. -/
theorem follows_atUnit (id : UnitId) {op : UnitOp γ α}
    (hop : c.IsFit → ∀ u, c.units[id]? = some u → op.IsRegular (fun _ ↦ True) u) :
    Follows c (c.atUnit id op).2 := by
  intro hc
  have hstride := (Stride.did id op (hop hc)).strides
  have hpasses := hstride.passes hc.sound
  refine ⟨⟨hpasses.sound, fun k t i ht hi ↦ ?_⟩, _, hstride⟩
  obtain hold | ⟨u, hu, hmem⟩ := checker_of_tasks_atUnit ht hi
  · exact (hc.checkers k t i hold hi).later hpasses.precedes
  · obtain ⟨rfl, hkind⟩ := UnitOp.checker_run (hc.sound.sound id u hu) (hop hc u hu) _ _ _ hmem
    have hfiled : u.id = id := hc.sound.filed id u hu
    have hchecker : c.HasChecker u.id := ⟨u, hfiled.symm ▸ hu, hkind⟩
    exact hchecker.later hpasses.precedes

end Core

/-! ## What the engine does -/

namespace UnitOp

variable {N : String → Prop} {S : UnitId → Prop} {id : UnitId} {u : UnitNode γ} {op : UnitOp γ α}

theorem IsUrging.isRegular (h : op.IsUrging) (u : UnitNode γ) : op.IsRegular N u := by
  cases op with
  | restart trace =>
    cases trace with
    | restarted => exact nofun
    | _ => exact h.elim
  | eagerStart | release | endLocalPhase | grantClosures => trivial
  | _ => exact h.elim

theorem IsModest.isRegular (h : op.IsModest) (u : UnitNode γ) : op.IsRegular N u := by
  cases op with
  | restart trace => exact h
  | act | begin | subUnitFinished => exact h.elim
  | _ => trivial

theorem ActsFor.isRegular (h : op.ActsFor S id) (hkind : S id → u.kind.isChecker = true) :
    op.IsRegular (fun _ ↦ True) u := by
  cases op with
  | act a => exact ⟨hkind h.1, h.2⟩
  | begin state => exact hkind h
  | endQuery | checkerFinished => trivial
  | _ =>
    refine IsModest.isRegular ?_ u
    exact h

end UnitOp

namespace Core

variable {c : Core γ} {id : UnitId}

/-- What the engine does by itself is regular. -/
theorem hosts_follows : Hosts (Follows (γ := γ)) where
  refl c := .other rfl (.refl c) (.inl rfl) fun _ _ _ ht _ ↦ .inl ht
  trans := .trans
  other hunits hframe hmail _ htasks :=
    .other hunits hframe (.inl (hmail ▸ rfl)) fun k t _ ht _ ↦ .inl (htasks k t ht)
  urged c id _ _ hop := follows_atUnit id fun _ u _ ↦ hop.isRegular u
  failed c _ := by
    have hfailed (id : UnitId) (c : Core γ) : Follows c (c.atUnit id .failStuck).2 :=
      follows_atUnit id fun _ _ _ ↦ trivial
    refine foldl_of_trans (R := Follows) .trans (fun id _ c ↦ hfailed id c) ?_
    exact .other rfl (.refl c) (.inl rfl) fun _ _ _ ht _ ↦ .inl ht
  delivered c := by
    rw [deliverNext]
    split
    · exact .other rfl (.refl c) (.inl rfl) fun _ _ _ ht _ ↦ .inl ht
    · rename_i id m mail hnext
      have htaken : Follows c { c with mail := mail } := by
        refine .other rfl ⟨rfl, rfl, rfl⟩ (.inl ?_) fun _ _ _ ht _ ↦ .inl ht
        exact (Mailboxes.takes_of_next hnext).parked
      exact htaken.trans (follows_atUnit id fun _ _ _ ↦ trivial)
  dropped hunits hframe hmail _ htasks :=
    .other hunits hframe (.inr (hmail ▸ rfl)) fun _ _ _ ht _ ↦ .inl (htasks ▸ ht)

/-- A relation between states contains what happens in runs in which checkers act only for units
that have one. -/
structure Allows (R : Core γ → Core γ → Prop) : Prop extends Hosts R where
  follows {c c' : Core γ} : R c c' → Follows c c'
  acts {c : Core γ} {id : UnitId} {α : Type} {op : UnitOp γ α} : c.IsFit →
    op.ActsFor c.HasChecker id → R c (c.atUnit id op).2
  resumed {c : Core γ} {id : TaskId} {task : Task γ} :
    (∀ i, task.checker? = some i → c.HasChecker i) →
      R c { c with executor := c.executor.settle id (some task) }

/-- Acting for a unit that has a checker is regular. -/
theorem follows_of_actsFor {op : UnitOp γ α} (hop : op.ActsFor c.HasChecker id) :
    Follows c (c.atUnit id op).2 := by
  refine follows_atUnit id fun _ u hu ↦ hop.isRegular fun hchecker ↦ ?_
  obtain ⟨v, hv, hkind⟩ := hchecker
  obtain rfl := Option.some.inj (hu.symm.trans hv)
  exact hkind

theorem allows_follows : Allows (Follows (γ := γ)) where
  toHosts := hosts_follows
  follows h := h
  acts _ hop := follows_of_actsFor hop
  resumed hchecker := by
    refine .other rfl ⟨rfl, rfl, rfl⟩ (.inl rfl) fun k t i hk hi ↦ ?_
    obtain ⟨-, rfl⟩ | ⟨-, hold⟩ := SortedMap.getElem?_insert_eq_some_iff.1 hk
    · exact .inr (hchecker i hi)
    · exact .inl hold

namespace Allows

variable {R : Core γ → Core γ → Prop} (h : Allows R)

include h

/-- A checker that acts only for units that have one obeys. -/
theorem obeys_of_actsFor (hc : c.IsFit) {p : Proc γ α} (hp : p.Uses (UnitOp.ActsFor c.HasChecker)) :
    p.Obeys R c := by
  refine hp.obeys h.toHosts fun c' hc' id _ op hop ↦ h.acts (h.follows hc' hc).1 ?_
  exact hop.mono fun _ hchecker ↦ (h.follows hc').later hc hchecker

/-- Tasks that are no checkers obey. -/
theorem obeys_of_isModest (hc : c.IsFit) {p : Proc γ α} (hp : p.IsModest) : p.Obeys R c :=
  h.obeys_of_actsFor hc (hp.mono UnitOp.IsModest.actsFor)

end Allows

end Core

open Core

/-- Checkers only do what is regular, from the time on that they are run. -/
def Behaviour.IsRegular (b : Behaviour γ) : Prop :=
  ∀ (unit : UnitId) (code : γ) (roots : List Scope) (c : Core γ), c.IsFit → c.HasChecker unit →
    (b.run unit code roots).Obeys Follows c

section

variable {b : Behaviour γ} {setup : Setup} {root : UnitId} {code : γ} {previous : Option Report}
  {e : Engine γ} {R : Core γ → Core γ → Prop}

/-- If checkers obey a relation that allows for what they do, then so do all tasks. -/
theorem Core.Allows.runs (h : Allows R)
    (hb : ∀ (unit : UnitId) (code : γ) (roots : List Scope) (c : Core γ), c.IsFit →
      c.HasChecker unit → (b.run unit code roots).Obeys R c) {c : Core γ} (hc : c.IsFit) :
    Hosts.Runs R b c where
  obeys {c' _ task} hc' ht := by
    have hfit : c'.IsFit := (h.follows hc' hc).1
    cases htask : task.checker? with
    | none => exact h.obeys_of_isModest hfit (Engine.isModest_process b c'.setup htask)
    | some k =>
      cases task with
      | runChecker unit code roots =>
        have hchecker : c'.HasChecker unit := hfit.checkers _ _ _ ht rfl
        refine (hb unit code roots c' hfit hchecker).bind h.toHosts
          (P := fun _ ↦ True) (.of_forall (fun _ ↦ trivial) _) fun c'' hc'' result _ ↦ ?_
        refine h.obeys_of_actsFor (h.follows hc'' hfit).1 ⟨?_, fun _ ↦ trivial⟩
        exact (h.follows hc'').later hfit hchecker
      | _ => exact nomatch htask
  resumed hc' ht hc'' := by
    have hfit := (h.follows hc' hc).1
    exact h.resumed fun i hi ↦ (h.follows hc'').later hfit (hfit.checkers _ _ _ ht hi)

/-- **The engine goes in strides.** Every state between two steps of the engine is reached from the
start in strides, if checkers only do what is regular. -/
theorem Engine.Reachable.exists_strides (hb : b.IsRegular)
    (he : e.Reachable b setup root code previous) :
    ∃ hs, Strides (fun _ ↦ True) (Core.start setup root code previous) hs e.core := by
  have hfit := isFit_start setup root code previous
  obtain ⟨hfollows, -⟩ := hosts_follows.reachable (allows_follows.runs hb hfit) he
  exact (hfollows hfit).2

end

/-! ## Scripts -/

namespace Script

variable (setup : Setup) (programs : Programs) {S : UnitId → Prop}

/-- A checker that goes on still runs for one of certain units. -/
def Outcome.IsFor (S : UnitId → Prop) : Outcome → Prop
  | .next _ f => f.IsFor S
  | _ => True

theorem gives_attempt {f : Frame} (hf : f.IsFor S) (op : Flow Program α) (reply : α → Reply) :
    (attempt f op reply).Gives (Outcome.IsFor S) :=
  Proc.Gives.bind_of_forall _ fun _ ↦ hf

theorem gives_awaitCall {f : Frame} (hf : f.IsFor S) (goOn : Bool) (name : Option String)
    (call : PendingCall) : (awaitCall setup f goOn name call).Gives (Outcome.IsFor S) := by
  refine Proc.Gives.bind_of_forall _ fun r ↦ ?_
  split
  · exact hf
  · cases goOn with
    | true => exact hf
    | false => trivial
  · exact hf.nameAnswer name _

theorem Instruction.gives_run {unit : UnitId} (hunit : S unit) (goOn : Bool) {f : Frame}
    (hf : f.IsFor S) (i : Instruction) :
    (i.run setup programs unit goOn f).Gives (Outcome.IsFor S) := by
  cases i with
  | info | yield | fail => exact hf
  | forget name => exact hf.dropCall name
  | never => trivial
  | fresh base labels hasDatum sharing name =>
    refine Proc.Gives.bind_of_forall _ fun r ↦ ?_
    cases r with
    | ok s => exact hf.nameScope name s
    | error e => exact hf
  | init | share | datum | edge | close | closeScope =>
    rw [Instruction.run]
    split
    · exact gives_attempt hf _ _
    · exact hf
  | call call name later =>
    refine (gives_makeCall programs hunit f.names call).bind fun made hmade ↦ ?_
    cases made with
    | none => exact hf
    | some p =>
      cases later with
      | true => exact hf.keepCall name (hmade p rfl)
      | false => exact gives_awaitCall setup hf goOn name p
  | await name =>
    rw [Instruction.run]
    split
    · exact hf
    · exact gives_awaitCall setup (hf.dropCall name) goOn _ _
  | join names =>
    rw [Instruction.run]
    split
    · exact hf
    · exact gives_attempt (hf.dropCalls names) _ _
  | previous | state => exact gives_attempt hf _ _
  | result value =>
    rw [Instruction.run]
    split
    · trivial
    · exact hf

theorem Outcome.IsFor.mono {S' : UnitId → Prop} (hSS' : ∀ id, S id → S' id) {outcome : Outcome}
    (h : outcome.IsFor S) : outcome.IsFor S' := by
  cases outcome with
  | next r f => exact Frame.IsFor.mono hSS' h
  | _ => trivial

variable {R : Core Program → Core Program → Prop} {c : Core Program}

/-- A statement acts for the unit of its checker, or for one whose checker it has found to have
begun. What follows on it may ask for the answers to queries of this unit, too. -/
theorem Statement.obeys_bind (h : Allows R) (s : Statement) {f : Frame} (hc : c.IsFit)
    (hf : f.IsFor c.HasChecker) {next : Outcome → Proc Program α}
    (hnext : ∀ c', R c c' → ∀ outcome : Outcome, outcome.IsFor c'.HasChecker →
      (next outcome).Obeys R c') :
    (s.run setup programs f >>= next).Obeys R c := by
  have hruns {unit : UnitId} {c' : Core Program} (hc' : R c c') (hunit : c'.HasChecker unit) :
      (s.instruction.run setup programs unit s.goOn f >>= next).Obeys R c' := by
    have hfit : c'.IsFit := (h.follows hc' hc).1
    have hf' : f.IsFor c'.HasChecker := hf.mono fun _ ↦ (h.follows hc').later hc
    refine (h.obeys_of_actsFor hfit (s.instruction.uses_run setup programs hunit s.goOn hf')).bind
      h.toHosts (s.instruction.gives_run setup programs hunit s.goOn hf') fun c'' hc'' outcome ho ↦ ?_
    exact hnext c'' (h.trans hc' hc'') outcome (ho.mono fun _ ↦ (h.follows hc'').later hfit)
  rw [Statement.run, unit?]
  cases s.via with
  | none => exact hruns (h.refl c) hf.self
  | some via =>
    intro c' hc'
    have hlooked : (c'.perform (.look via UnitNode.begun)).2 = c' := by
      rw [perform]
      split <;> rfl
    have hunbound : (next (.next .unbound f)).Obeys R c' :=
      hnext c' hc' _ (hf.mono fun _ ↦ (h.follows hc').later hc)
    rw [hlooked]
    refine ⟨h.refl c', ?_⟩
    rw [perform]
    cases hu : c'.units[via]? with
    | none => exact hunbound
    | some u =>
      dsimp only
      cases hbegun : u.begun with
      | false => exact hunbound
      | true =>
        have hsound : u.life.IsSound := (h.follows hc' hc).1.sound.sound via u hu
        exact hruns hc' ⟨u, hu, hsound.begun hbegun⟩

theorem obeys_runBody (h : Allows R) (body : List Statement) {f : Frame} (hc : c.IsFit)
    (hf : f.IsFor c.HasChecker) : (runBody setup programs body f).Obeys R c := by
  induction body generalizing f c with
  | nil => trivial
  | cons s rest ih =>
    refine s.obeys_bind setup programs h hc hf fun c' hc' outcome ho ↦ ?_
    have hfit : c'.IsFit := (h.follows hc' hc).1
    have hnoted (unit : UnitId) (call : String) (r : Reply) : (note unit call r).Obeys R c' :=
      h.obeys_of_isModest hfit (uses_note unit call r)
    cases outcome with
    | ended d => trivial
    | reused r d =>
      exact (hnoted _ _ _).bind h.toHosts (P := fun _ ↦ True) (.of_forall (fun _ ↦ trivial) _)
        fun _ _ _ _ ↦ trivial
    | next r f' =>
      dsimp only
      refine (hnoted _ _ _).bind h.toHosts (P := fun _ ↦ True)
        (.of_forall (fun _ ↦ trivial) _) fun c'' hc'' _ _ ↦ ?_
      split
      · trivial
      · exact ih (h.follows hc'' hfit).1 (ho.mono fun _ ↦ (h.follows hc'').later hfit)

/-- A script obeys whatever allows for what checkers do for units that have one. -/
theorem obeys_run (h : Allows R) {unit : UnitId} (program : Program) (roots : List Scope)
    (hc : c.IsFit) (hchecker : c.HasChecker unit) :
    ((behaviour setup programs).run unit program roots).Obeys R c := by
  intro c' hc'
  have hbegun : R c' (c'.atUnit unit (.begin (program.state.map .ofText))).2 :=
    h.acts (h.follows hc' hc).1 ((h.follows hc').later hc hchecker)
  have hlater := h.follows (h.trans hc' hbegun)
  refine ⟨hbegun, obeys_runBody setup programs h program.body (hlater hc).1 (.start ?_ roots)⟩
  exact hlater.later hc hchecker

/-- **Scripts are regular.** Whatever the script of a checker says, it only does what is regular. -/
theorem isRegular_behaviour : (behaviour setup programs).IsRegular :=
  fun _ program roots _ hc hchecker ↦ obeys_run setup programs allows_follows program roots hc hchecker

end Script

namespace Core

variable {c c' : Core γ} {id : UnitId} {N : String → Prop} {hs : List (UnitId × Report)}
  {u : UnitNode γ} {op : UnitOp γ α}

/-! ## Names of sub-units -/

/-- An operation that leaves its unit alone and has no effects changes nothing but the number of the
next request. -/
theorem atUnit_of_refused {n : Nat} (op : UnitOp γ α) (hu : c.units[id]? = some u) (hid : u.id = id)
    (h : c.turnOf u op = ⟨u, .none, c.setup.settings, c.channels, n⟩) :
    (c.atUnit id op).2 = { c with nextRequest := n } ∧ c.handedOn id op = [] := by
  have hsame : c.units.insert u.id u = c.units := by
    refine Std.ExtTreeMap.ext_getElem? fun k ↦ ?_
    rw [SortedMap.getElem?_insert_eq, hid]
    split
    · rename_i heq
      exact heq ▸ hu.symm
    · rfl
  have hturn : (c.turn u op).2 = (.none, { c with nextRequest := n }) := by
    have hcore : (c.turn u op).2 = ((c.turnOf u op).effects,
      (c.turnOf u op).effects.woken.foldl wake
        { c with
          units := c.units.insert u.id (c.turnOf u op).unit
          channels := (c.turnOf u op).channels
          nextRequest := (c.turnOf u op).nextRequest }) := rfl
    rw [hcore, h, hsame]
    rfl
  have hwhole : c.turn u op = ((c.turn u op).1, .none, { c with nextRequest := n }) :=
    Prod.ext rfl hturn
  rw [atUnit, handedOn, hu]
  dsimp only
  rw [hwhole]
  exact ⟨rfl, rfl⟩

/-- All names under which units know sub-units are of a certain kind. -/
def NamesAre (N : String → Prop) (c : Core γ) : Prop :=
  ∀ (id : UnitId) (u : UnitNode γ) (name : String) (k : UnitId),
    c.units[id]? = some u → u.subUnits[name]? = some k → N name

theorem NamesAre.before (h : c'.NamesAre N) (hprecedes : c.Precedes c') : c.NamesAre N := by
  intro id u name k hu hname
  obtain ⟨v, hv, hlife⟩ := hprecedes id u hu
  exact h id v name k hv (hlife.subUnits name k hname)

/-- A unit knows a sub-unit that it adds, unless it is refused. -/
theorem names_of_addSubUnit {name : String} {kind : UnitKind γ} {roots : List Scope}
    {changed : Bool} (hid : u.id = id) (hu : c.units[id]? = some u) (hchecker : u.kind.isChecker = true)
    (hkind : ∀ replay, kind ≠ .phantom replay)
    (hrefused : c.turnOf u (.act (.addSubUnit name kind roots changed)) ≠
      ⟨u, .none, c.setup.settings, c.channels, c.nextRequest⟩) :
    ∃ v, (c.atUnit id (.act (.addSubUnit name kind roots changed))).2.units[id]? = some v ∧
      v.subUnits[name]? = some (u.id.child name) := by
  let t : Turn γ := ⟨u, .none, c.setup.settings, c.channels, c.nextRequest⟩
  let op : UnitOp γ (Except Fault UnitId) := .act (.addSubUnit name kind roots changed)
  have hturn : c.turnOf u op =
      if u.mayAct then (t.addSubUnit name kind roots changed).2 else t := by
    have hattempt : c.turnOf u op = (Attempt.addSubUnit name kind roots changed t).2 := rfl
    rw [hattempt, Attempt.addSubUnit, Attempt.requireLive_bind]
    split <;> rfl
  by_cases hact : u.mayAct = true
  · rw [if_pos hact] at hturn
    by_cases haccepts : u.Accepts name kind roots
    · obtain ⟨_, _, _, hunit, -⟩ := t.addSubUnit_of_accepts name kind roots changed haccepts
      have hlive : u.phase.isLive = true := (Bool.and_eq_true_iff.1 hact).1
      obtain ⟨_, -, -, hfinished, -⟩ := Attempt.goes_addSubUnit (t := t) (N := fun _ ↦ True)
        hchecker hlive ⟨trivial, hkind⟩ roots changed
      have hunfinished : (c.turnOf u op).effects.finished = none := by
        rw [hturn]
        exact hfinished
      refine ⟨(c.turnOf u op).unit, ?_, ?_⟩
      · rw [atUnit, hu]
        dsimp only
        rw [show (c.turn u op).2.1.finished = none from hunfinished]
        dsimp only
        rw [(units_spawnAll _ _).1]
        exact (carries_carryOut hu hid op).changed
      · rw [hturn, hunit]
        exact Std.ExtTreeMap.getElem?_insert_self
    · exact absurd (hturn.trans (t.addSubUnit_of_not_accepts name kind roots changed haccepts))
        hrefused
  · exact absurd (hturn.trans (if_neg hact)) hrefused

theorem Stride.named (h : Stride (fun _ ↦ True) c hs c') (hc : c.IsSound) (hN : c'.NamesAre N) :
    Stride N c hs c' := by
  cases h with
  | other hunits hframe hparked => exact .other hunits hframe hparked
  | did id op hop =>
    by_cases hregular : ∀ u, c.units[id]? = some u → op.IsRegular N u
    · exact .did id op hregular
    obtain ⟨u, hu, hirregular⟩ : ∃ u, c.units[id]? = some u ∧ ¬ op.IsRegular N u := by
      simpa using hregular
    -- Only the name of a sub-unit that is added can be at odds with what names are like.
    cases op with
    | act a =>
      cases a with
      | addSubUnit name kind roots changed =>
        obtain ⟨hchecker, -, hkind⟩ := hop u hu
        by_cases hrefused : c.turnOf u (.act (.addSubUnit name kind roots changed)) =
            ⟨u, .none, c.setup.settings, c.channels, c.nextRequest⟩
        · obtain ⟨hsame, hnone⟩ := atUnit_of_refused _ hu (hc.filed id u hu) hrefused
          rw [hsame, hnone]
          exact .other rfl (.refl c) (.inl rfl)
        · obtain ⟨v, hv, hname⟩ :=
            names_of_addSubUnit (hc.filed id u hu) hu hchecker hkind hrefused
          exact absurd ⟨hchecker, hN id v name _ hv hname, hkind⟩ hirregular
      | _ => exact absurd (hop u hu) hirregular
    | _ => exact absurd (hop u hu) hirregular

theorem Strides.named (h : Strides (fun _ ↦ True) c hs c') (hc : c.IsSound) (hN : c'.NamesAre N) :
    Strides N c hs c' := by
  induction h with
  | refl => exact .refl _
  | tail h hstride ih =>
    have hsound := (h.passes hc).sound
    have hpasses := hstride.strides.passes hsound
    exact .tail (ih (hN.before hpasses.precedes)) (hstride.named hsound hN)

end Core

/-- If all names of sub-units that units know in the end are of a certain kind, then so are all that
came up on the way. -/
theorem Engine.Reachable.exists_strides_named {b : Behaviour γ} {setup : Setup} {root : UnitId}
    {code : γ} {previous : Option Report} {e : Engine γ} (hb : b.IsRegular)
    (he : e.Reachable b setup root code previous) {N : String → Prop} (hN : e.core.NamesAre N) :
    ∃ hs, Strides N (Core.start setup root code previous) hs e.core :=
  let ⟨hs, hstrides⟩ := he.exists_strides hb
  ⟨hs, hstrides.named (isSound_start setup root code previous) hN⟩

end ScopeGraphs
