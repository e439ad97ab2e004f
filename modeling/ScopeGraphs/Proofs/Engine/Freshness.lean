import ScopeGraphs.Proofs.Engine.Courses
import ScopeGraphs.Proofs.Engine.Strides
import ScopeGraphs.Proofs.Units.Numbering

/-!
# Scopes are new

In every course of a run, the counters of all checkers are ahead of their scopes exactly if nobody
overlooks a scope when it takes over a previous run (`Core.Course.isAhead_iff`). And the counters of
a unit are ahead exactly if its checker creates nothing but new scopes, in whatever number and under
whatever names (`Core.Course.creates_anew_iff`).

Overlooking does happen: scopes that are to be shared may be created before a unit asks for reuse.
-/

namespace ScopeGraphs

variable {γ α : Type}

/-- Whether an operation is the creation of a scope. -/
def UnitOp.Creates : {α : Type} → UnitOp γ α → Prop
  | _, act (.freshScope _ _ _ _) => True
  | _, _ => False

theorem UnitOp.Creates.not_overlooks {op : UnitOp γ α} (hop : op.Creates) (settings : Settings)
    (u : UnitNode γ) : ¬ op.Overlooks settings u := by
  cases op with
  | act a =>
    cases a with
    | askForReuse => exact hop.elim
    | _ => exact not_false
  | release p => exact hop.elim
  | _ => exact not_false

namespace Occurrence

/-- Whether a unit with a checker overlooks a scope as something happens. -/
def Overlooks (settings : Settings) : Occurrence γ → Prop
  | acted u op => u.kind.isChecker = true ∧ op.Overlooks settings u
  | _ => False

/-- Whether what happens is that a unit creates a scope. -/
def Creates (id : UnitId) : Occurrence γ → Prop
  | acted u op => u.id = id ∧ op.Creates
  | _ => False

end Occurrence

namespace Core

variable {c c' : Core γ} {o : Occurrence γ} {id : UnitId} {u : UnitNode γ}

/-- The counters of all units with checkers are ahead. -/
def IsAhead (c : Core γ) : Prop :=
  ∀ (id : UnitId) (u : UnitNode γ), c.units[id]? = some u → u.kind.isChecker = true → u.IsAhead

/-- Every scope that a unit creates next is one that it does not have. -/
def CreatesAnew (c : Core γ) (id : UnitId) : Prop :=
  ∀ u, c.units[id]? = some u → ∀ base labels hasDatum sharing s,
    (c.turn u (.act (.freshScope base labels hasDatum sharing))).1 = .ok s → s ∉ u.scopes

/-! ## One step -/

theorem isAhead_carryOut_iff (hfiled : c.Filed) (hahead : c.IsAhead)
    (hu : c.units[id]? = some u) (op : UnitOp γ α) : (c.carryOut id u op).IsAhead ↔
      ¬ (u.kind.isChecker = true ∧ op.Overlooks c.setup.settings u) := by
  let t : Turn γ := ⟨u, .none, c.setup.settings, c.channels, c.nextRequest⟩
  have hcarries := carries_carryOut hu (hfiled id u hu) op
  have hkind : (c.turnOf u op).unit.kind = u.kind := op.kind_run t
  have hrun (hchecker : u.kind.isChecker = true) : (c.turnOf u op).unit.IsAhead ↔
      ¬ op.Overlooks c.setup.settings u :=
    UnitOp.isAhead_run_iff (t := t) op hchecker (hahead id u hu hchecker)
  constructor
  · rintro hafter ⟨hchecker, hoverlooks⟩
    exact (hrun hchecker).1 (hafter id _ hcarries.changed (hkind ▸ hchecker)) hoverlooks
  · intro hnot k w hw hchecker
    obtain ⟨rfl, rfl⟩ | ⟨-, hold⟩ | ⟨-, -, hnew, -⟩ := hcarries.cases hw
    · have hchecker : u.kind.isChecker = true := hkind ▸ hchecker
      exact (hrun hchecker).2 fun hoverlooks ↦ hnot ⟨hchecker, hoverlooks⟩
    · exact hahead k w hold hchecker
    · -- A unit that has just been added has no scopes.
      obtain ⟨us, hus, hblank⟩ := op.exists_blank t
      have hscopes := (hblank w ((show (c.turnOf u op).effects.newUnits = us from hus) ▸ hnew)).scopes
      intro base n hn
      rw [hscopes] at hn
      exact absurd hn Std.ExtTreeSet.not_mem_empty

theorem Move.filed (hmove : Move c o c') (h : c.Filed) : c'.Filed := by
  have hcarryOut {c : Core γ} {α : Type} {id : UnitId} {u : UnitNode γ} (h : c.Filed)
      (hu : c.units[id]? = some u) (op : UnitOp γ α) : (c.carryOut id u op).Filed := by
    intro k w hw
    obtain ⟨rfl, rfl⟩ | ⟨-, hold⟩ | ⟨-, -, -, hid⟩ := (carries_carryOut hu (h id u hu) op).cases hw
    · exact (op.id_run _).trans (h _ _ hu)
    · exact h k w hold
    · exact hid
  cases hmove with
  | acted hu op _ => exact hcarryOut h hu op
  | @handled _ _ hu m mail _ => exact hcarryOut (c := { c with mail := mail }) h hu (.handle m)
  | dropped hunits _ _ | other hunits _ _ =>
    intro k w hw
    rw [hunits] at hw
    exact h k w hw

/-- What happens keeps the counters ahead unless somebody overlooks a scope. -/
theorem Move.isAhead_iff (hmove : Move c o c') (hfiled : c.Filed) (hahead : c.IsAhead) :
    c'.IsAhead ↔ ¬ o.Overlooks c.setup.settings := by
  cases hmove with
  | acted hu op _ => exact isAhead_carryOut_iff hfiled hahead hu op
  | @handled _ _ hu m mail _ =>
    have hhandled := isAhead_carryOut_iff (c := { c with mail := mail }) hfiled hahead hu (.handle m)
    exact iff_of_true (hhandled.2 fun h ↦ h.2) not_false
  | dropped hunits _ _ | other hunits _ _ =>
    refine iff_of_true (fun k w hw ↦ ?_) not_false
    rw [hunits] at hw
    exact hahead k w hw

/-! ## Courses -/

theorem Course.isAhead_iff {tr : List (Occurrence γ × Core γ)} (h : Course c tr c')
    (hfiled : c.Filed) (hahead : c.IsAhead) :
    (∀ x ∈ tr, x.2.IsAhead) ↔ ∀ x ∈ tr, ¬ x.1.Overlooks c.setup.settings := by
  induction h with
  | nil => exact iff_of_true (List.forall_mem_nil _) (List.forall_mem_nil _)
  | cons hmove _ ih =>
    rw [List.forall_mem_cons, List.forall_mem_cons, hmove.isAhead_iff hfiled hahead]
    refine and_congr_right fun hnot ↦ ?_
    have hrest := ih (hmove.filed hfiled) ((hmove.isAhead_iff hfiled hahead).2 hnot)
    rwa [hmove.setup] at hrest

theorem Course.filed {tr : List (Occurrence γ × Core γ)} (h : Course c tr c') (hfiled : c.Filed) :
    ∀ x ∈ tr, x.2.Filed := by
  induction h with
  | nil => exact List.forall_mem_nil _
  | cons hmove _ ih =>
    have hnext := hmove.filed hfiled
    exact List.forall_mem_cons.2 ⟨hnext, ih hnext⟩

theorem Course.filed_last {tr : List (Occurrence γ × Core γ)} (h : Course c tr c')
    (hfiled : c.Filed) : c'.Filed := by
  induction h with
  | nil => exact hfiled
  | cons hmove _ ih => exact ih (hmove.filed hfiled)

theorem isAhead_start (setup : Setup) (root : UnitId) (code : γ) (previous : Option Report) :
    (start setup root code previous).IsAhead := by
  intro id u hu _ base n hn
  obtain ⟨-, rfl⟩ := units_start_eq_some_iff.1 hu
  exact absurd hn Std.ExtTreeSet.not_mem_empty

/-! ## Creating one scope after the other -/

/-- A unit that is ahead stays ahead while it creates scopes. -/
theorem LeadsTo.isAhead_of_creates (h : LeadsTo (Occurrence.Creates id) c c') (hfiled : c.Filed)
    (hu : c.units[id]? = some u) (hchecker : u.kind.isChecker = true) (hahead : u.IsAhead) :
    ∃ v, c'.units[id]? = some v ∧ v.IsAhead := by
  obtain ⟨tr, hcourse, hcreates⟩ := h
  induction hcourse generalizing u with
  | nil => exact ⟨u, hu, hahead⟩
  | cons hmove _ ih =>
    obtain ⟨hcreated, hrest⟩ := List.forall_mem_cons.1 hcreates
    have hnext := hmove.filed hfiled
    cases hmove with
    | @acted k w hw _ op _ =>
      obtain ⟨hid, hop⟩ := hcreated
      obtain rfl : k = id := (hfiled k w hw).symm.trans hid
      obtain rfl : u = w := Option.some.inj (hu.symm.trans hw)
      have hcarries := carries_carryOut hu hid op
      refine ih hnext hcarries.changed ?_ ?_ hrest
      · exact (congrArg UnitKind.isChecker (op.kind_run _)).trans hchecker
      · exact (op.isAhead_run_iff hchecker hahead).2 (hop.not_overlooks _ _)
    | handled => exact hcreated.elim
    | dropped => exact hcreated.elim
    | other => exact hcreated.elim

/-- A checker that may act creates as many scopes with a base as it likes. -/
theorem exists_creates (hu : c.units[id]? = some u) (hid : u.id = id) (hact : u.mayAct = true)
    (base : String) (k : ℕ) : ∃ c' v, LeadsTo (Occurrence.Creates id) c c' ∧
      c'.units[id]? = some v ∧ v.id = id ∧ v.mayAct = true ∧
      Attempt.nextNumber v base = Attempt.nextNumber u base + k ∧ ∀ s ∈ u.scopes, s ∈ v.scopes := by
  induction k with
  | zero => exact ⟨c, u, .refl c, hu, hid, hact, rfl, fun _ h ↦ h⟩
  | succ k ih =>
    obtain ⟨c', v, hleads, hv, hvid, hvact, hnumber, hscopes⟩ := ih
    let op : UnitOp γ (Except Fault Scope) := .act (.freshScope base [] false true)
    let t : Turn γ := ⟨v, .none, c'.setup.settings, c'.channels, c'.nextRequest⟩
    have hcarries := carries_carryOut hv hvid op
    have hcreated : Attempt.freshScope base [] false true t =
        Attempt.create base [] false true t := by
      rw [Attempt.freshScope_eq, Attempt.requireLive_bind, if_pos hvact]
      rfl
    obtain ⟨-, waits, hunit⟩ := Attempt.create_spec t base [] false true
    have hafter : (c'.turnOf v op).unit = _ := (congrArg (fun x ↦ x.2.unit) hcreated).trans hunit
    refine ⟨_, _, hleads.move (.acted hv op not_false) ⟨hvid, trivial⟩, hcarries.changed, ?_⟩
    rw [hafter]
    refine ⟨hvid, hvact, ?_, fun s hs ↦ SortedSet.mem_insert_iff.2 (.inr (hscopes s hs))⟩
    rw [← Nat.add_assoc, ← hnumber, Attempt.nextNumber, SortedMap.getElem?_insert_eq, if_pos rfl]
    rfl

/-- The counters are ahead if no scope that is created is an old one, however many are. -/
theorem isAhead_of_createsAnew (hu : c.units[id]? = some u) (hid : u.id = id)
    (hact : u.mayAct = true)
    (hanew : ∀ c', LeadsTo (Occurrence.Creates id) c c' → c'.CreatesAnew id) : u.IsAhead := by
  intro base n hn
  by_contra hle
  obtain ⟨c', v, hleads, hv, hvid, hvact, hnumber, hscopes⟩ :=
    exists_creates hu hid hact base (n - Attempt.nextNumber u base)
  -- The number of the old scope is the next one.
  have hnext : Attempt.nextScope v base = Scope.numbered u.id base n := by
    rw [Attempt.nextScope, hnumber, hvid, ← hid, Scope.numbered,
      Nat.add_sub_cancel' (Nat.not_lt.1 hle)]
  let t : Turn γ := ⟨v, .none, c'.setup.settings, c'.channels, c'.nextRequest⟩
  have hcreated : (Attempt.freshScope base [] false true t).1 = .ok (Attempt.nextScope v base) := by
    rw [Attempt.freshScope_eq, Attempt.requireLive_bind, if_pos hvact]
    exact (Attempt.create_spec t base [] false true).1
  exact hanew c' hleads v hv base [] false true _ hcreated (hnext ▸ hscopes _ hn)

/-- **When scopes are new.** In every course of a run, the counters of all units with checkers stay
ahead of their scopes exactly if nobody overlooks a scope when it takes over its previous run. And
wherever a checker may act, the counters of its unit are ahead exactly if it creates nothing but new
scopes from there on, one after the other and under any names, as long as nothing else happens. -/
theorem Course.creates_anew_iff {setup : Setup} {root : UnitId} {code : γ}
    {previous : Option Report} {tr : List (Occurrence γ × Core γ)}
    (h : Course (start setup root code previous) tr c) :
    ((∀ x ∈ tr, x.2.IsAhead) ↔ ∀ x ∈ tr, ¬ x.1.Overlooks setup.settings) ∧
      ∀ x ∈ tr, ∀ (id : UnitId) (u : UnitNode γ), x.2.units[id]? = some u →
        u.kind.isChecker = true → u.mayAct = true →
          (u.IsAhead ↔ ∀ c', LeadsTo (Occurrence.Creates id) x.2 c' → c'.CreatesAnew id) := by
  have hfiled := filed_start setup root code previous
  refine ⟨h.isAhead_iff hfiled (isAhead_start setup root code previous), ?_⟩
  intro x hx id u hu hchecker hact
  have hfiled := h.filed hfiled x hx
  constructor
  · intro hahead c' hleads v hv base labels hasDatum sharing s hcreated
    obtain ⟨v', hv', hvahead⟩ := hleads.isAhead_of_creates hfiled hu hchecker hahead
    obtain rfl : v = v' := Option.some.inj (hv.symm.trans hv')
    exact Attempt.notMem_of_freshScope hvahead hcreated
  · exact isAhead_of_createsAnew hu (hfiled id u hu) hact

/-! ### A number that is given twice -/

private def restorer : UnitId := ⟨"root"⟩

private def twin : Scope := .numbered restorer "a" 0

private def emptySnapshot : Snapshot :=
  Turn.takeSnapshot (.new restorer none (.checker ()) none false false)

/-- The previous run ended without any scopes. -/
private def emptyReport : Report :=
  .mk restorer [] .empty .empty (some .unit) [] [] (some emptySnapshot) .initiallyStarted []

private def beforeCounting : Core Unit :=
  start ⟨.withReuse .trivial, ["E"], 0⟩ restorer () (some emptyReport)

/-- The root unit has created a scope that is to be shared. -/
private def counted : Core Unit :=
  beforeCounting.receives.acts restorer (.freshScope "a" [] false true)

/-- It has asked for reuse after that. -/
private def recounting : Core Unit := counted.acts restorer .askForReuse

private theorem leadsTo_counted : LeadsTo (fun _ ↦ True) beforeCounting counted :=
  ((LeadsTo.refl beforeCounting).receives (by rfl) (by decide +kernel) trivial).acts restorer
    (.freshScope "a" [] false true) (by decide +kernel) trivial

private theorem move_recounting :
    Move counted (.acted (counted.resident restorer) (.act .askForReuse)) recounting :=
  .acted (resident_eq (by decide +kernel)) (.act .askForReuse) not_false

/-- A unit that asks for reuse after it has created a scope overlooks the scope, and may create it
once more. -/
theorem Course.creates_anew_iff_recounting : ∃ tr, Course beforeCounting tr recounting ∧
    (¬ ∀ x ∈ tr, x.2.IsAhead) ∧
      ∃ c', LeadsTo (Occurrence.Creates restorer) recounting c' ∧ ¬ c'.CreatesAnew restorer := by
  obtain ⟨tr, hcourse, -⟩ := leadsTo_counted
  have hcourse := hcourse.append (.cons move_recounting (.nil recounting))
  obtain ⟨hahead, hanew⟩ := hcourse.creates_anew_iff
  have hlast := List.mem_append_right tr (List.mem_singleton_self
    (Occurrence.acted (counted.resident restorer) (.act .askForReuse), recounting))
  have hoverlooks : Occurrence.Overlooks (.withReuse .trivial)
      (.acted (counted.resident restorer) (.act .askForReuse)) := by
    refine ⟨by rfl, by rfl, by rfl, emptySnapshot, by rfl, "a", 0, .inr ?_, Nat.le_refl 0⟩
    exact (by decide +kernel : twin ∈ (counted.resident restorer).scopes)
  refine ⟨_, hcourse, fun h ↦ hahead.1 h _ hlast hoverlooks, ?_⟩
  have hunit : recounting.units[restorer]? = some (recounting.resident restorer) :=
    resident_eq (by decide +kernel)
  have hbehind : ¬ (recounting.resident restorer).IsAhead := by
    intro h
    have hlt := h "a" 0 (by decide +kernel)
    exact absurd hlt (by decide +kernel)
  rw [hanew _ hlast restorer _ hunit (by decide +kernel) (by decide +kernel)] at hbehind
  push Not at hbehind
  exact hbehind

/-- **Not every scope is new.** There is a run in which the checker of a unit creates a scope that
the unit has. -/
theorem not_always_anew : ¬ ∀ (setup : Setup) (root : UnitId) (previous : Option Report)
    (c : Core Unit) (tr : List (Occurrence Unit × Core Unit)) (id : UnitId),
      Course (start setup root () previous) tr c → c.CreatesAnew id := by
  intro h
  obtain ⟨tr, hcourse, -⟩ := leadsTo_counted
  have hanew := h _ _ _ recounting _ restorer (hcourse.append (.cons move_recounting (.nil recounting)))
  exact hanew _ (resident_eq (by decide +kernel)) "a" [] false true twin (by rfl)
    (by decide +kernel)

end Core

end ScopeGraphs
