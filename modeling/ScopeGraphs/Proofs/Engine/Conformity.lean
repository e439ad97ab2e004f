import ScopeGraphs.Proofs.Engine.Courses
import ScopeGraphs.Proofs.Units.Living
import ScopeGraphs.Script.Interpreter

/-!
# What tasks do to units

The processes of tasks put operations together in many ways, but those that run no checker carry
out only modest operations on units (`UnitOp.IsModest`). A script does nothing else besides acting
for its own unit, for one that it has been given, or for one that it has acted for before
(`UnitOp.ActsFor`). All of this is proper, so the runs of the engine are courses of proper
operations (`Engine.leadsTo_run`), provided that this is so for the operations of the checkers, as
it is for scripts.

Resolution, the comparison of graphs and confirmation know units only through a context. They carry
out nothing but what the context does, so what is shown about them holds of operations of any kind.
-/

namespace ScopeGraphs

variable {γ α β : Type} {A : UnitId → (α : Type) → UnitOp γ α → Prop}

/-! ## Putting processes together -/

/-- Whatever comes up in the meantime, a process gives results of a certain kind only. -/
def Proc.Gives : {α : Type} → (α → Prop) → Proc γ α → Prop
  | _, P, done a => P a
  | _, P, perform _ next => ∀ a, (next a).Gives P
  | _, P, await _ next => ∀ v, (next v).Gives P
  | _, P, yield next => next.Gives P
  | _, _, never => True
  | _, P, together _ _ next => ∀ r, (next r).Gives P

namespace Proc.Gives

variable {P : α → Prop} {p : Proc γ α}

theorem of_forall (h : ∀ a, P a) (p : Proc γ α) : p.Gives P := by
  induction p with
  | done a => exact h a
  | perform op next ih => exact fun a ↦ ih a h
  | await channel next ih => exact fun v ↦ ih v h
  | yield next ih => exact ih h
  | never => trivial
  | together turns parts next ih ihnext => exact fun r ↦ ihnext r h

theorem bind {Q : β → Prop} (hp : p.Gives P) {f : α → Proc γ β} (hf : ∀ a, P a → (f a).Gives Q) :
    (p >>= f).Gives Q := by
  induction p with
  | done a => exact hf a hp
  | perform op next ih => exact fun a ↦ ih a (hp a) hf
  | await channel next ih => exact fun v ↦ ih v (hp v) hf
  | yield next ih => exact ih hp hf
  | never => trivial
  | together turns parts next ih ihnext => exact fun r ↦ ihnext r (hp r) hf

theorem bind_of_forall {Q : β → Prop} (p : Proc γ α) {f : α → Proc γ β} (hf : ∀ a, (f a).Gives Q) :
    (p >>= f).Gives Q :=
  bind (.of_forall (P := fun _ ↦ True) (fun _ ↦ trivial) p) fun a _ ↦ hf a

end Proc.Gives

namespace Proc.Uses

variable {p : Proc γ α} {f : α → Proc γ β}

/-- What follows on a result has to be of the kind for all results that may come up. -/
theorem bind_of_gives {P : α → Prop} (hp : p.Uses A) (hgives : p.Gives P)
    (hf : ∀ a, P a → (f a).Uses A) : (p >>= f).Uses A := by
  induction p with
  | done a => exact hf a hgives
  | perform op next ih => exact ⟨hp.1, fun c ↦ ih _ (hp.2 c) (hgives _) hf⟩
  | await channel next ih => exact fun v ↦ ih v (hp v) (hgives v) hf
  | yield next ih => exact ih hp hgives hf
  | never => trivial
  | together turns parts next ih ihnext =>
    exact ⟨hp.1, fun r ↦ ihnext r (hp.2 r) (hgives r) hf⟩

theorem bind (hp : p.Uses A) (hf : ∀ a, (f a).Uses A) : (p >>= f).Uses A :=
  hp.bind_of_gives (.of_forall (P := fun _ ↦ True) (fun _ ↦ trivial) p) fun a _ ↦ hf a

theorem map (hp : p.Uses A) (f : α → β) : (f <$> p).Uses A := hp.bind fun _ ↦ trivial

end Proc.Uses

namespace Flow

/-- A process that may fail carries out only operations of a certain kind on units. -/
def Uses (A : UnitId → (α : Type) → UnitOp γ α → Prop) (x : Flow γ α) : Prop := Proc.Uses A x.run

namespace Uses

variable {x : Flow γ α} {f : α → Flow γ β}

theorem pure (a : α) : Uses A (Pure.pure a : Flow γ α) := trivial

theorem throw (e : Fault) : Uses A (throw e : Flow γ α) := trivial

theorem bind (hx : x.Uses A) (hf : ∀ a, (f a).Uses A) : (x >>= f).Uses A := by
  refine Proc.Uses.bind hx fun r ↦ ?_
  cases r with
  | ok a => exact hf a
  | error e => trivial

theorem map (hx : x.Uses A) (f : α → β) : Uses A (f <$> x) := by
  refine Proc.Uses.bind hx fun r ↦ ?_
  cases r <;> trivial

theorem caught (hx : x.Uses A) : Uses A (ExceptT.mk (.ok <$> x.run) : Flow γ (Except Fault α)) :=
  Proc.Uses.map hx _

theorem settled (r : Except Fault α) : Uses A (ExceptT.mk (Pure.pure r) : Flow γ α) := trivial

theorem discard (hx : x.Uses A) : Uses A (discard x) := hx.map _

theorem tryCatch (hx : x.Uses A) {g : Fault → Flow γ α} (hg : ∀ e, (g e).Uses A) :
    Uses A (tryCatch x g) := by
  refine Proc.Uses.bind hx fun r ↦ ?_
  cases r with
  | ok a => trivial
  | error e => exact hg e

theorem perform {op : Op γ α} (hop : op.Uses A) : Uses A (Flow.perform op) :=
  ⟨hop, fun _ ↦ trivial⟩

theorem openLedger : Uses A (Flow.perform .openLedger : Flow γ LedgerId) := .perform trivial

theorem enter (l : LedgerId) (ofRule : Bool) (q : QueryRecord) :
    Uses A (Flow.perform (.enter l ofRule q) : Flow γ PUnit) := .perform trivial

theorem closeLedger (l : LedgerId) : Uses A (Flow.perform (.closeLedger l) : Flow γ Ledger) :=
  .perform trivial

theorem onUnit (u : UnitId) {op : UnitOp γ α} (hop : A u α op) : Uses A (Flow.onUnit u op) :=
  ⟨hop, fun _ ↦ trivial⟩

theorem act (u : UnitId) {a : Action γ α} (ha : A u _ (.act a)) : Uses A (Flow.act u a) :=
  ⟨ha, fun _ ↦ trivial⟩

theorem look (u : UnitId) (f : UnitNode γ → α) : Uses A (Flow.look u f) := ⟨trivial, fun _ ↦ trivial⟩

theorem await (c : ChannelId) : Uses A (Flow.await c : Flow γ (Option Parcel)) := fun _ ↦ trivial

theorem together (expected : Nat) {ps : List (Flow γ α)} (hps : ∀ p ∈ ps, p.Uses A) :
    Uses A (Flow.together expected ps) :=
  ⟨fun i ↦ hps _ (List.getElem_mem i.2), fun _ ↦ trivial⟩

end Uses

end Flow

/-! ## Rules and resolution -/

/-- What rules ask for carries out only operations of a certain kind on units. -/
structure PredicateContext.Uses (A : UnitId → (α : Type) → UnitOp γ α → Prop)
    (ctx : PredicateContext (Flow γ)) : Prop where
  query (s : Scope) (q : QueryParams) : (ctx.query s q).Uses A
  silence : ctx.silence.Uses A

namespace PredicateContext.Uses

variable {ctx : PredicateContext (Flow γ)}

theorem noQueries (run : Nat) : (noQueries run Flow.never : PredicateContext (Flow γ)).Uses A where
  query _ _ := .throw _
  silence := trivial

theorem probe (h : ctx.Uses A) (d : Datum) (p : Probe QueryParams) :
    (p.holds ctx d).Uses A := by
  cases p with
  | query scope params expectSome =>
    rw [Probe.holds]
    split
    · exact .pure _
    · exact (h.query _ _).bind fun _ ↦ .pure _
  | fail text on =>
    rw [Probe.holds]
    split
    · exact .throw _
    · exact .pure _
  | silentFrom n =>
    rw [Probe.holds]
    split
    · exact .pure _
    · exact h.silence

theorem holds (h : ctx.Uses A) (d : Datum) (rule : DataRule QueryParams) :
    (rule.holds ctx d).Uses A := by
  cases rule with
  | any | test => exact .pure _
  | probe name p => exact h.probe d p

theorem covers (h : ctx.Uses A) (d₁ d₂ : Datum) (rule : CoverRule QueryParams) :
    (rule.covers ctx d₁ d₂).Uses A := by
  cases rule with
  | always | never | test => exact .pure _
  | probe name p => exact h.probe d₁ p

end PredicateContext.Uses

namespace Resolver

/-- What a resolution has access to carries out only operations of a certain kind on units. -/
structure Uses (A : UnitId → (α : Type) → UnitOp γ α → Prop) (r : Resolver (Flow γ)) : Prop where
  elsewhere (path : Path) (p : Pattern) : (r.elsewhere path p).Uses A
  targets (s : Scope) (l : Label) : (r.targets s l).Uses A
  datum? (s : Scope) : (r.datum? s).Uses A
  accepts (d : Datum) : (r.accepts d).Uses A
  covers (d₁ d₂ : Datum) : (r.covers d₁ d₂).Uses A
  together (n : Nat) (xs : List (Flow γ Env)) : (∀ x ∈ xs, x.Uses A) → (r.together n xs).Uses A

namespace Uses

variable {r : Resolver (Flow γ)}

theorem isShadowed (h : r.Uses A) (found : ResolvedPath) (ws : List ResolvedPath) :
    (isShadowed r.covers found ws).Uses A := by
  induction ws with
  | nil => exact .pure _
  | cons w ws ih =>
    refine (h.covers _ _).bind fun covered ↦ ?_
    split
    · exact .pure _
    · exact ih

theorem addCandidates (h : r.Uses A) (winners rs : List ResolvedPath) (env : Env) :
    (addCandidates r.covers winners rs env).Uses A := by
  induction rs generalizing env with
  | nil => exact .pure _
  | cons found rs ih =>
    refine (h.isShadowed found winners).bind fun shadowed ↦ ?_
    split <;> exact ih _

theorem ofDatum (h : r.Uses A) (path : Path) : (r.ofDatum path).Uses A := by
  refine (h.datum? _).bind fun d ↦ ?_
  cases d with
  | none => exact .pure _
  | some d =>
    refine (h.accepts d).bind fun accepted ↦ ?_
    split <;> exact .pure _

variable {descend : Path → Pattern → Flow γ Env}

theorem ofSlot (h : r.Uses A) (hdescend : ∀ path p, (descend path p).Uses A) (path : Path)
    (p : Pattern) (slot : Slot) : (r.ofSlot descend path p slot).Uses A := by
  cases slot with
  | datum => exact h.ofDatum path
  | edge l =>
    rw [Resolver.ofSlot, ofEdges]
    split
    · exact .pure _
    · refine (h.targets _ _).bind fun targets ↦ (h.together _ _ fun x hx ↦ ?_).bind fun _ ↦ .pure _
      obtain ⟨q, -, rfl⟩ := List.mem_map.1 hx
      exact hdescend _ _

theorem layered (h : r.Uses A) (hdescend : ∀ path p, (descend path p).Uses A) (path : Path)
    (p : Pattern) (n : Nat) (slots : List Slot) : (r.layered descend path p n slots).Uses A := by
  induction n generalizing slots with
  | zero => exact .pure _
  | succ n ih =>
    refine (h.together _ _ fun x hx ↦ ?_).bind fun _ ↦ .pure _
    obtain ⟨slot, -, rfl⟩ := List.mem_map.1 hx
    refine (ih _).bind fun preferred ↦ ?_
    split
    · exact .pure _
    · exact (h.ofSlot hdescend path p slot).bind fun own ↦ h.addCandidates _ _ _

theorem env (h : r.Uses A) (depth : Nat) (path : Path) (p : Pattern) :
    (r.env depth path p).Uses A := by
  induction depth generalizing path p with
  | zero => exact .pure _
  | succ depth ih =>
    refine (h.elsewhere path p).bind fun found ↦ ?_
    cases found with
    | some found => exact .pure _
    | none => exact h.layered ih path p _ _

end Uses

end Resolver

/-! ## Differences and confirmation -/

namespace DiffContext

variable {ctx : DiffContext (Flow γ)}

theorem uses_behind {descend : Path → Pattern → Flow γ EnvDiff}
    (hdescend : ∀ path p, (descend path p).Uses A) (path : Path) (p : Pattern)
    (es : List (Label × Scope)) (out : EnvDiff) : (behind descend path p es out).Uses A := by
  induction es generalizing out with
  | nil => exact .pure _
  | cons e es ih =>
    rw [behind]
    split
    · exact (hdescend _ _).bind fun d ↦ ih _
    · exact ih out

theorem uses_walk (h : ∀ s, (ctx.scopeDiff s).Uses A) (rule : DataRule QueryParams) (depth : Nat)
    (path : Path) (p : Pattern) : (ctx.walk rule depth path p).Uses A := by
  induction depth generalizing path p with
  | zero => exact .pure _
  | succ depth ih =>
    rw [walk]
    split
    · exact .pure _
    · refine (h _).bind fun d ↦ ?_
      cases d with
      | none => exact .pure _
      | some d => exact uses_behind ih path p _ _

end DiffContext

namespace ConfirmContext

/-- What a confirmation has access to carries out only operations of a certain kind on units. -/
structure Uses (A : UnitId → (α : Type) → UnitOp γ α → Prop) (ctx : ConfirmContext (Flow γ)) :
    Prop where
  query (path : Path) (q : QueryParams) : (ctx.query path q).Uses A
  queryPrevious (path : Path) (q : QueryParams) : (ctx.queryPrevious path q).Uses A
  external (path : Path) (p : Pattern) (rule : DataRule QueryParams) (prevEmpty : Bool) :
    (ctx.external path p rule prevEmpty).Uses A
  envDiff (path : Path) (p : Pattern) (rule : DataRule QueryParams) : (ctx.envDiff path p rule).Uses A
  counterpart (s : Scope) : (ctx.counterpart s).Uses A

namespace Uses

variable {ctx : ConfirmContext (Flow γ)}

theorem askAgain (h : ctx.Uses A) (qs : List QueryRecord) (p : Renaming) :
    (ctx.askAgain qs p).Uses A := by
  induction qs generalizing p with
  | nil => exact .pure _
  | cons q qs ih =>
    refine (h.counterpart _).bind fun current ↦ ?_
    cases current with
    | none => exact .pure _
    | some current =>
      dsimp only
      split
      · exact .pure _
      · refine (h.query _ _).bind fun env ↦ ?_
        split
        · exact ih _
        · exact .pure _

theorem confirmChange (h : ctx.Uses A) (prevEmpty : Bool) (c : EnvChange) :
    (ctx.confirmChange prevEmpty c).Uses A := by
  rw [ConfirmContext.confirmChange]
  split
  · exact (h.query _ _).bind fun _ ↦ .pure _
  · split
    · exact .pure _
    · exact (h.queryPrevious _ _).bind fun _ ↦ .pure _
  · exact (h.external _ _ _ _).bind fun _ ↦ .pure _

theorem confirmChanges (h : ctx.Uses A) (prevEmpty : Bool) (cs : List EnvChange) (v : Verdict) :
    (ctx.confirmChanges prevEmpty cs v).Uses A := by
  induction cs generalizing v with
  | nil => exact .pure _
  | cons c cs ih =>
    refine (h.confirmChange prevEmpty c).bind fun w ↦ ?_
    dsimp only
    split
    · exact ih _
    · exact .pure _

theorem confirmPath (h : ctx.Uses A) (path : Path) (p : Pattern) (rule : DataRule QueryParams)
    (prevEmpty : Bool) : (ctx.confirmPath path p rule prevEmpty).Uses A := by
  refine (h.external _ _ _ _).bind fun v ↦ ?_
  cases v with
  | some v => exact .pure _
  | none => exact (h.envDiff _ _ _).bind fun d ↦ h.confirmChanges _ _ _

mutual

theorem confirmRecord (h : ctx.Uses A) : ∀ q : QueryRecord, (ctx.confirmRecord q).Uses A
  | .mk path params env transitive predicate => by
    rw [ConfirmContext.confirmRecord]
    refine (h.counterpart _).bind fun current ↦ ?_
    cases current with
    | none => exact .pure _
    | some current =>
      exact (h.confirmPath _ _ _ _).bind fun v ↦ (confirmTransitive h transitive v).bind fun v ↦
        confirmPredicate h predicate v

theorem confirmTransitive (h : ctx.Uses A) :
    ∀ (qs : List QueryRecord) (v : Verdict), (ctx.confirmTransitive qs v).Uses A
  | [], v => by
    rw [ConfirmContext.confirmTransitive]
    exact .pure v
  | q :: qs, v => by
    rw [ConfirmContext.confirmTransitive]
    split
    · exact (confirmRecord h q).bind fun w ↦ confirmTransitive h qs _
    · exact .pure v

theorem confirmPredicate (h : ctx.Uses A) :
    ∀ (qs : List QueryRecord) (v : Verdict), (ctx.confirmPredicate qs v).Uses A
  | [], v => by
    rw [ConfirmContext.confirmPredicate]
    exact .pure v
  | q :: qs, v => by
    rw [ConfirmContext.confirmPredicate]
    split
    · exact (confirmRecord h q).bind fun w ↦ confirmPredicate h qs _
    · exact .pure v

end

theorem confirmAll (h : ctx.Uses A) (mode : ConfirmationMode) (qs : List QueryRecord) :
    (ctx.confirmAll mode qs).Uses A := by
  cases mode with
  | trivial => exact h.askAgain _ _
  | simpleEnvironment => exact h.confirmTransitive _ _

theorem confirm (h : ctx.Uses A) (mode : ConfirmationMode) (path : Path) (p : Pattern)
    (rule : DataRule QueryParams) (prevEmpty : Bool) :
    (ctx.confirm mode path p rule prevEmpty).Uses A := by
  cases mode with
  | trivial => exact .throw _
  | simpleEnvironment => exact h.confirmPath _ _ _ _

end Uses

end ConfirmContext

/-! ## Tasks -/

/-- Whether an operation is one that any task carries out. Only checkers begin to work, act, end
queries and finish, only the engine handles messages, tells of sub-units that have finished and
gives units up, and what a task stops waiting for is the answer to a question. -/
def UnitOp.IsModest : {α : Type} → UnitOp γ α → Prop
  | _, act _ | _, begin _ | _, endQuery _ _ | _, checkerFinished _ | _, handle _
  | _, subUnitFinished _ | _, failStuck => False
  | _, restart trace => trace ≠ .released
  | _, endAsking ticket => ¬ ticket.token.isClosure
  | _, _ => True

/-- A process carries out only modest operations on units. -/
abbrev Proc.IsModest (p : Proc γ α) : Prop := p.Uses fun _ ↦ @UnitOp.IsModest γ

/-- A process that may fail carries out only modest operations on units. -/
abbrev Flow.IsModest (x : Flow γ α) : Prop := x.Uses fun _ ↦ @UnitOp.IsModest γ

namespace Flow

theorem isModest_untilDecided (u : UnitId) : (untilDecided u : Flow γ PUnit).IsModest := by
  refine (Uses.onUnit u trivial).bind fun c ↦ ?_
  cases c with
  | none => exact .pure _
  | some c => exact (Uses.await c).discard

theorem isModest_untilClosed (u : UnitId) (s : Scope) (slot : Slot) :
    (untilClosed u s slot : Flow γ PUnit).IsModest := by
  refine (Uses.onUnit u trivial).bind fun c ↦ ?_
  cases c with
  | none => exact .pure _
  | some c => exact (Uses.await c).discard

theorem isModest_untilOpen (u : UnitId) : (untilOpen u : Flow γ PUnit).IsModest :=
  (Uses.onUnit u trivial).bind fun c ↦ (Uses.await c).discard

/-- A task that asks a question waits for the answer. -/
theorem isModest_ask (u : UnitId) (q : Question) (open? : Parcel → Option (Except Fault α)) :
    (ask u q open? : Flow γ α).IsModest := by
  refine ⟨trivial, fun c ↦ ?_⟩
  change Proc.IsModest (ExceptT.bindCont _ (c.atUnit u (.ask q)).1)
  cases hu : c.units[u]? with
  | none =>
    rw [Core.atUnit_of_none hu]
    trivial
  | some v =>
    rw [Core.fst_atUnit hu]
    have hanswer : ¬ (q.token c.nextRequest).isClosure := by cases q <;> exact nofun
    refine (Uses.await _).bind fun parcel ↦ (Uses.onUnit u hanswer).bind fun _ ↦ ?_
    split
    · rename_i answer _
      cases answer <;> trivial
    · exact .throw _

theorem isModest_present (presented : Presentation γ) (code : Option γ) (d : Datum) :
    (present presented code d).IsModest := by
  cases code with
  | none => exact .pure _
  | some code =>
    rw [present]
    split
    · exact .pure _
    · exact .throw _

end Flow

namespace Answering

open Flow

variable (presented : Presentation γ) (setup : Setup)

theorem isModest_forward (unit : UnitId) (l : LedgerId) (path : Path) (q : QueryParams) :
    (forward unit l path q : Flow γ Env).IsModest :=
  (isModest_ask _ _ _).bind fun _ ↦ (Uses.enter _ _ _).bind fun _ ↦ .pure _

theorem isModest_readDatum (unit sender : UnitId) (s : Scope) :
    (readDatum presented unit sender s).IsModest := by
  refine (isModest_untilClosed _ _ _).bind fun _ ↦ (Uses.look _ _).bind fun d ↦ ?_
  obtain ⟨datum, code⟩ := d
  cases datum with
  | none => exact .pure _
  | some d =>
    dsimp only
    split
    · exact .pure _
    · exact (isModest_present _ _ _).map _

theorem resolver_uses {rules : PredicateContext (Flow γ)}
    (hrules : rules.Uses (fun _ ↦ @UnitOp.IsModest γ)) (unit sender : UnitId) (l : LedgerId)
    (q : QueryParams) :
    (resolver presented setup unit sender l q rules).Uses (fun _ ↦ @UnitOp.IsModest γ) where
  elsewhere path p := by
    rw [resolver]
    dsimp only
    split
    · exact .pure _
    · exact (isModest_forward _ _ _ _).map _
  targets s label := (isModest_untilClosed _ _ _).bind fun _ ↦ .look _ _
  datum? := isModest_readDatum presented unit sender
  accepts d := hrules.holds d _
  covers d₁ d₂ := hrules.covers d₁ d₂ _
  together n _ hxs := .together n hxs

theorem isModest_resolveNested (height : Nat) (unit sender : UnitId) (path : Path) (q : QueryParams) :
    (resolveNested presented setup height unit sender path q).IsModest := by
  induction height generalizing unit sender path q with
  | zero =>
    refine Uses.openLedger.bind fun l ↦ (Uses.look _ _).bind fun depth ↦ ?_
    have hrules := PredicateContext.Uses.noQueries (A := fun _ ↦ @UnitOp.IsModest γ) setup.run
    have henv := (resolver_uses presented setup hrules unit sender l q).env depth path q.pattern
    exact henv.bind fun _ ↦ (Uses.closeLedger l).bind fun _ ↦ .pure _
  | succ n ih =>
    refine Uses.openLedger.bind fun l ↦ (Uses.look _ _).bind fun depth ↦ ?_
    let rules : PredicateContext (Flow γ) :=
      { query := fun s q ↦ do
          let a ← resolveNested presented setup n unit unit (.start s) q
          perform (.enter l true (a.record (.start s) q))
          pure a.env
        silence := never
        run := setup.run }
    have hrules : rules.Uses (fun _ ↦ @UnitOp.IsModest γ) :=
      ⟨fun s q ↦ (ih _ _ _ _).bind fun _ ↦ (Uses.enter _ _ _).bind fun _ ↦ .pure _, trivial⟩
    have henv := (resolver_uses presented setup hrules unit sender l q).env depth path q.pattern
    exact henv.bind fun _ ↦ (Uses.closeLedger l).bind fun _ ↦ .pure _

theorem isModest_resolve (unit sender : UnitId) (path : Path) (q : QueryParams) :
    (resolve presented setup unit sender path q).IsModest :=
  isModest_resolveNested presented setup q.height unit sender path q

theorem previousResolver_uses (unit : UnitId) (graph : ScopeGraph) (q : QueryParams) :
    (previousResolver setup unit graph q).Uses (fun _ ↦ @UnitOp.IsModest γ) where
  elsewhere path p := by
    rw [previousResolver]
    dsimp only
    split
    · exact .pure _
    · exact (isModest_ask _ _ _).map _
  targets _ _ := .pure _
  datum? _ := .pure _
  accepts d := PredicateContext.Uses.holds (.noQueries _) d _
  covers d₁ d₂ := PredicateContext.Uses.covers (.noQueries _) d₁ d₂ _
  together n _ hxs := .together n hxs

theorem isModest_resolvePrevious (unit : UnitId) (path : Path) (q : QueryParams) :
    (resolvePrevious setup unit path q : Flow γ Env).IsModest :=
  (Uses.look _ _).bind fun graph ↦ (previousResolver_uses setup unit graph q).env _ _ _

theorem isModest_answerQuery (unit sender : UnitId) (path : Path) (q : QueryParams) :
    (answerQuery presented setup unit sender path q).IsModest :=
  (isModest_untilDecided _).bind fun _ ↦ isModest_resolve _ _ _ _ _ _

end Answering

namespace Confirming

open Flow

variable (presented : Presentation γ) (setup : Setup)

theorem isModest_untilAllClosed (unit : UnitId) (s : Scope) (slots : List Slot) :
    (untilAllClosed unit s slots : Flow γ PUnit).IsModest := by
  induction slots with
  | nil => exact .pure _
  | cons slot slots ih => exact (isModest_untilClosed _ _ _).bind fun _ ↦ ih

theorem isModest_explore (unit : UnitId) (s : Scope) :
    (explore setup unit s : Flow γ (Option ScopeDiff)).IsModest :=
  (isModest_untilAllClosed _ _ _).bind fun _ ↦ .onUnit _ trivial

theorem isModest_scopeDiff (unit : UnitId) (s : Scope) :
    (scopeDiff setup unit s : Flow γ (Option ScopeDiff)).IsModest := by
  refine (Uses.look _ _).bind fun running ↦ ?_
  split
  · exact isModest_explore _ _ _
  · exact .look _ _

theorem isModest_envDiff (unit : UnitId) (path : Path) (p : Pattern) (rule : DataRule QueryParams) :
    (envDiff setup unit path p rule : Flow γ EnvDiff).IsModest :=
  (Uses.look _ _).bind fun _ ↦ DiffContext.uses_walk (isModest_scopeDiff setup unit) _ _ _ _

theorem isModest_searchCounterpart (unit : UnitId) (s : Scope) (n : Nat) :
    (searchCounterpart setup unit s n : Flow γ (Option Scope)).IsModest := by
  induction n with
  | zero => exact .pure _
  | succ n ih =>
    refine (Uses.onUnit _ trivial).bind fun step ↦ ?_
    cases step with
    | done current => exact .pure _
    | explore next => exact (isModest_explore _ _ _).discard.bind fun _ ↦ ih

theorem isModest_localCounterpart (unit : UnitId) (s : Scope) :
    (localCounterpart setup unit s : Flow γ (Option Scope)).IsModest :=
  isModest_searchCounterpart setup unit s headroom

theorem isModest_counterpart (unit : UnitId) (s : Scope) :
    (counterpart setup unit s : Flow γ (Option Scope)).IsModest := by
  rw [counterpart]
  split
  · exact isModest_localCounterpart _ _ _
  · exact isModest_ask _ _ _

theorem isModest_external (unit : UnitId) (path : Path) (p : Pattern) (rule : DataRule QueryParams)
    (prevEmpty : Bool) : (external unit path p rule prevEmpty : Flow γ (Option Verdict)).IsModest := by
  rw [external]
  split
  · exact .pure _
  · exact (isModest_ask _ _ _).map _

theorem context_uses (unit sender : UnitId) :
    (context presented setup unit sender).Uses (fun _ ↦ @UnitOp.IsModest γ) where
  query path q := (Answering.isModest_resolve presented setup unit sender path q).map _
  queryPrevious := Answering.isModest_resolvePrevious setup unit
  external := isModest_external unit
  envDiff := isModest_envDiff setup unit
  counterpart := isModest_counterpart setup unit

theorem isModest_confirmRemoved (unit : UnitId) (path : Path) (p : Pattern)
    (rule : DataRule QueryParams) (prevEmpty : Bool) :
    (confirmRemoved setup unit path p rule prevEmpty : Flow γ Verdict).IsModest := by
  rw [confirmRemoved]
  split
  · exact .pure _
  · exact (Answering.isModest_resolvePrevious _ _ _ _).bind fun _ ↦ .pure _

theorem isModest_answerConfirm (unit sender : UnitId) (path : Path) (p : Pattern)
    (rule : DataRule QueryParams) (prevEmpty : Bool) :
    (answerConfirm presented setup unit sender path p rule prevEmpty).IsModest := by
  refine (Uses.look _ _).bind fun removed ↦ ?_
  split
  · exact isModest_confirmRemoved _ _ _ _ _ _
  · exact (isModest_untilDecided _).bind fun _ ↦
      (context_uses presented setup unit sender).confirm _ _ _ _ _

theorem isModest_answerCounterpart (unit : UnitId) (s : Scope) :
    (answerCounterpart setup unit s : Flow γ (Option Scope)).IsModest :=
  (isModest_untilDecided _).bind fun _ ↦ isModest_localCounterpart _ _ _

theorem isModest_ownVerdict (unit : UnitId) (qs : List QueryRecord) :
    (ownVerdict presented setup unit qs).IsModest :=
  Uses.tryCatch ((context_uses presented setup unit unit).confirmAll _ _) fun _ ↦ .pure _

theorem isModest_confirmOwn (unit : UnitId) : (confirmOwn presented setup unit).IsModest := by
  refine (Uses.look _ _).bind fun qs ↦ (isModest_ownVerdict _ _ _ _).bind fun v ↦ ?_
  cases v with
  | confirm p => exact (Uses.onUnit _ trivial).discard
  | deny =>
    have hrestart : (UnitOp.restart (γ := γ) .restarted).IsModest := nofun
    exact (Uses.onUnit _ hrestart).discard

end Confirming

/-! ## The engine -/

/-- A process carries out only proper operations on units. -/
abbrev Proc.IsProper (p : Proc γ α) : Prop := p.Uses fun _ ↦ @UnitOp.IsProper γ

theorem UnitOp.IsModest.isProper {op : UnitOp γ α} (h : op.IsModest) : op.IsProper := by
  cases op with
  | endAsking ticket => exact h
  | act | handle => exact h.elim
  | _ => trivial

/-- Checkers carry out only proper operations on units. -/
def Behaviour.IsProper (b : Behaviour γ) : Prop :=
  ∀ unit code roots, (b.run unit code roots).IsProper

namespace Engine

variable {b : Behaviour γ}

theorem isModest_sendResult (reply : ChannelId) (wrap : Except Fault α → Parcel) {f : Flow γ α}
    (hf : f.IsModest) : (sendResult reply wrap f).IsModest :=
  Proc.Uses.bind hf fun _ ↦ ⟨trivial, fun _ ↦ trivial⟩

/-- Tasks that run no checker are modest. -/
theorem isModest_process (b : Behaviour γ) (setup : Setup) {task : Task γ}
    (htask : task.checker? = none) : (process b setup task).IsModest := by
  cases task with
  | runChecker unit code roots => exact nomatch htask
  | confirmOwn unit => exact Proc.Uses.map (Confirming.isModest_confirmOwn _ _ _) _
  | answerQuery unit sender path q reply =>
    exact isModest_sendResult _ _ (Answering.isModest_answerQuery _ _ _ _ _ _)
  | answerPrevious unit path q reply =>
    exact isModest_sendResult _ _ (Answering.isModest_resolvePrevious _ _ _ _)
  | answerConfirm unit sender path p rule prevEmpty reply =>
    exact isModest_sendResult _ _ (Confirming.isModest_answerConfirm _ _ _ _ _ _ _ _)
  | answerCounterpart unit s reply =>
    exact isModest_sendResult _ _ (Confirming.isModest_answerCounterpart _ _ _)

theorem isProper_process (hb : b.IsProper) (setup : Setup) (task : Task γ) :
    (process b setup task).IsProper := by
  cases htask : task.checker? with
  | none => exact (isModest_process b setup htask).mono UnitOp.IsModest.isProper
  | some k =>
    cases task with
    | runChecker unit code roots =>
      exact (hb unit code roots).bind fun _ ↦ ⟨trivial, fun _ ↦ trivial⟩
    | _ => exact nomatch htask

/-- **Runs are courses.** Whatever the engine does, from the start to the end of a run, is a course
of proper operations, if checkers carry out only such operations. -/
theorem leadsTo_run (hb : b.IsProper) (setup : Setup) (root : UnitId) (code : γ)
    (previous : Option Report) :
    Core.LeadsTo Occurrence.IsProper (Core.start setup root code previous)
      (run b setup root code previous).2 :=
  (Core.admits_leadsTo.run (isProper_process hb) setup root code previous
    (Core.housed_start setup root code previous)).2

end Engine

/-! ## Calls and scripts -/

/-- Whether an operation on a unit is modest, or one of a checker that acts for certain units. -/
def UnitOp.ActsFor (S : UnitId → Prop) (id : UnitId) : (α : Type) → UnitOp γ α → Prop
  | _, act a => S id ∧ a.IsRegular fun _ ↦ True
  | _, begin _ | _, endQuery _ _ | _, checkerFinished _ => S id
  | _, op => op.IsModest

namespace UnitOp

variable {S : UnitId → Prop} {id : UnitId} {op : UnitOp γ α}

theorem IsModest.actsFor (h : op.IsModest) : op.ActsFor S id := by
  cases op with
  | act | begin | endQuery | checkerFinished => exact h.elim
  | _ => exact h

theorem ActsFor.mono {S' : UnitId → Prop} (hSS' : ∀ id, S id → S' id) (h : op.ActsFor S id) :
    op.ActsFor S' id := by
  cases op with
  | act a => exact ⟨hSS' id h.1, h.2⟩
  | begin | endQuery | checkerFinished => exact hSS' id h
  | _ => exact h

theorem ActsFor.isProper (h : op.ActsFor S id) : op.IsProper := by
  cases op with
  | act a =>
    cases a with
    | addSubUnit name kind roots changed => exact h.2.2 true
    | _ => trivial
  | begin | endQuery | checkerFinished => trivial
  | _ => exact IsModest.isProper h

end UnitOp

namespace PendingCall

open Flow

variable (presented : Presentation γ) (setup : Setup) {S : UnitId → Prop}

/-- If a call is a query it was asked for one of certain units. -/
def IsFor (S : UnitId → Prop) : PendingCall → Prop
  | query unit _ _ _ => S unit
  | _ => True

theorem IsFor.mono {S' : UnitId → Prop} (hSS' : ∀ id, S id → S' id) {call : PendingCall}
    (h : call.IsFor S) : call.IsFor S' := by
  cases call with
  | query unit token path q => exact hSS' unit h
  | _ => trivial

theorem uses_ofAction {unit : UnitId} {a : Action γ α} (ha : A unit _ (.act a))
    (pending : α → PendingCall) : (ofAction unit a pending).Uses A := by
  refine Proc.Uses.bind (Uses.act unit ha) fun r ↦ ?_
  cases r <;> trivial

theorem gives_ofAction {unit : UnitId} {a : Action γ α} {pending : α → PendingCall}
    (h : ∀ x, (pending x).IsFor S) : (ofAction unit a pending).Gives (IsFor S) := by
  refine Proc.Gives.bind_of_forall _ fun r ↦ ?_
  cases r with
  | ok x => exact h x
  | error e => trivial

/-- The end of a query is noted in the unit that has asked it. -/
theorem uses_awaitQuery {unit : UnitId} (hunit : S unit) (token : Token) (path : Path)
    (q : QueryParams) :
    (awaitQuery presented setup unit token path q).Uses (UnitOp.ActsFor S) := by
  have hresolved : (Answering.resolve presented setup unit unit path q).Uses (UnitOp.ActsFor S) :=
    (Answering.isModest_resolve presented setup unit unit path q).mono UnitOp.IsModest.actsFor
  have hopen : (untilOpen unit : Flow γ PUnit).Uses (UnitOp.ActsFor S) :=
    (isModest_untilOpen unit).mono UnitOp.IsModest.actsFor
  exact hresolved.caught.bind fun answer ↦ (Uses.onUnit unit hunit).bind fun _ ↦
    hopen.bind fun _ ↦ .settled _

theorem isModest_awaitReport (unit child : UnitId) :
    (awaitReport unit child : Flow γ Report).IsModest := by
  refine (Uses.onUnit _ trivial).bind fun c ↦ (Uses.await c).bind fun parcel ↦
    (isModest_untilOpen _).bind fun _ ↦ ?_
  split
  · exact .pure _
  · exact .throw _

theorem isModest_awaitDecision (unit : UnitId) (undecided : Bool) :
    (awaitDecision unit undecided : Flow γ ReuseDecision).IsModest := by
  rw [awaitDecision]
  split
  · refine (Uses.onUnit _ trivial).bind fun c ↦ (Uses.await c).bind fun parcel ↦ ?_
    split
    · refine (Uses.look _ _).bind fun previous ↦ ?_
      split
      · exact .throw _
      · split <;> exact .pure _
    · exact .throw _
  · exact .pure _

theorem uses_answer {call : PendingCall} (hcall : call.IsFor S) :
    (call.answer presented setup).Uses (UnitOp.ActsFor S) := by
  cases call with
  | refused f => exact .throw f
  | query unit token path q => exact (uses_awaitQuery presented setup hcall token path q).map _
  | subUnit unit child =>
    have hawaited : (awaitReport unit child : Flow γ Report).Uses (UnitOp.ActsFor S) :=
      (isModest_awaitReport unit child).mono UnitOp.IsModest.actsFor
    exact hawaited.map _
  | reuse unit undecided =>
    have hawaited : (awaitDecision unit undecided : Flow γ ReuseDecision).Uses (UnitOp.ActsFor S) :=
      (isModest_awaitDecision unit undecided).mono UnitOp.IsModest.actsFor
    exact hawaited.map _

end PendingCall

namespace Script

variable (setup : Setup) (programs : Programs) {S : UnitId → Prop}

/-- A checker runs for one of certain units, and has asked queries for such units only. -/
structure Frame.IsFor (S : UnitId → Prop) (f : Frame) : Prop where
  self : S f.self
  pending : ∀ (name : String) (call : PendingCall), f.pending[name]? = some call → call.IsFor S

namespace Frame.IsFor

variable {f : Frame}

theorem of_forall (h : ∀ id, S id) (f : Frame) : f.IsFor S where
  self := h f.self
  pending _ call _ := by
    cases call with
    | query unit token path q => exact h unit
    | _ => trivial

theorem start {unit : UnitId} (hunit : S unit) (roots : List Scope) :
    (Frame.start unit roots).IsFor S where
  self := hunit
  pending name call hcall := absurd hcall (by simp [Frame.start])

theorem mono {S' : UnitId → Prop} (hSS' : ∀ id, S id → S' id) (h : f.IsFor S) : f.IsFor S' where
  self := hSS' _ h.self
  pending name call hcall := (h.pending name call hcall).mono hSS'

theorem nameScope (h : f.IsFor S) (name : Option String) (s : Scope) :
    (f.nameScope name s).IsFor S := by
  cases name <;> exact ⟨h.self, h.pending⟩

theorem nameAnswer (h : f.IsFor S) (name : Option String) (a : CallAnswer) :
    (f.nameAnswer name a).IsFor S := by
  cases name <;> cases a <;> exact ⟨h.self, h.pending⟩

theorem keepCall (h : f.IsFor S) (name : Option String) {call : PendingCall} (hcall : call.IsFor S) :
    (f.keepCall name call).IsFor S := by
  cases name with
  | none => exact h
  | some x =>
    refine ⟨h.self, fun y call' hy ↦ ?_⟩
    obtain ⟨-, rfl⟩ | ⟨-, hold⟩ := SortedMap.getElem?_insert_eq_some_iff.1 hy
    · exact hcall
    · exact h.pending y call' hold

theorem dropCall (h : f.IsFor S) (name : String) : (f.dropCall name).IsFor S where
  self := h.self
  pending y call hy := h.pending y call (SortedMap.getElem?_erase_eq_some_iff.1 hy).2

theorem dropCalls (h : f.IsFor S) (names : List String) : (names.foldl Frame.dropCall f).IsFor S := by
  induction names generalizing f with
  | nil => exact h
  | cons name names ih => exact ih (h.dropCall name)

end Frame.IsFor

theorem uses_attempt {A : UnitId → (α : Type) → UnitOp Program α → Prop} (f : Frame)
    {op : Flow Program α} (hop : op.Uses A) (reply : α → Reply) : (attempt f op reply).Uses A :=
  Proc.Uses.bind hop fun _ ↦ trivial

/-- Calls of a script act for a unit, and add no stand-ins. -/
theorem uses_makeCall {unit : UnitId} (hunit : S unit) (b : Bindings) (call : Call) :
    (makeCall programs unit b call).Uses (UnitOp.ActsFor S) := by
  cases call with
  | query scope params =>
    rw [makeCall]
    split
    · exact Proc.Uses.map (PendingCall.uses_ofAction ⟨hunit, trivial⟩ _) _
    · trivial
  | add name program roots changed =>
    rw [makeCall]
    split
    · exact Proc.Uses.map (PendingCall.uses_ofAction ⟨hunit, trivial, nofun⟩ _) _
    · trivial
  | library name roots lib =>
    rw [makeCall]
    split
    · exact Proc.Uses.map (PendingCall.uses_ofAction ⟨hunit, trivial, nofun⟩ _) _
    · trivial
  | reuse => exact Proc.Uses.map (PendingCall.uses_ofAction ⟨hunit, trivial⟩ _) _

theorem gives_makeCall {unit : UnitId} (hunit : S unit) (b : Bindings) (call : Call) :
    (makeCall programs unit b call).Gives fun made ↦ ∀ p ∈ made, p.IsFor S := by
  have hmade {α : Type} {a : Action Program α} {pending : α → PendingCall}
      (h : ∀ x, (pending x).IsFor S) :
      (some <$> PendingCall.ofAction unit a pending).Gives fun made ↦ ∀ p ∈ made, p.IsFor S :=
    (PendingCall.gives_ofAction h).bind fun p hp _ hmem ↦ Option.some.inj hmem ▸ hp
  cases call with
  | query scope params =>
    rw [makeCall]
    split
    · exact hmade fun _ ↦ hunit
    · exact nofun
  | add | library =>
    rw [makeCall]
    split
    · exact hmade fun _ ↦ trivial
    · exact nofun
  | reuse => exact hmade fun _ ↦ trivial

theorem uses_awaitCall (f : Frame) (goOn : Bool) (name : Option String) {call : PendingCall}
    (hcall : call.IsFor S) : (awaitCall setup f goOn name call).Uses (UnitOp.ActsFor S) := by
  refine Proc.Uses.bind (PendingCall.uses_answer Program.presented setup hcall) fun r ↦ ?_
  split <;> trivial

theorem uses_joinCalls {calls : List PendingCall} (hcalls : ∀ call ∈ calls, call.IsFor S) :
    (joinCalls setup calls).Uses (UnitOp.ActsFor S) := by
  refine Flow.Uses.together _ fun x hx ↦ ?_
  obtain ⟨call, hcall, rfl⟩ := List.mem_map.1 hx
  have hanswer := PendingCall.uses_answer Program.presented setup (hcalls call hcall)
  exact Proc.Uses.map (Proc.Uses.map hanswer _) _

/-- Whatever is found under several names is found under one of them. -/
theorem exists_of_mem_mapM {ι κ : Type} {f : ι → Option κ} {is : List ι} {ks : List κ} {k : κ}
    (h : is.mapM f = some ks) (hk : k ∈ ks) : ∃ i, f i = some k := by
  induction is generalizing ks with
  | nil =>
    obtain rfl := Option.some.inj h
    exact absurd hk List.not_mem_nil
  | cons i is ih =>
    rw [List.mapM_cons] at h
    obtain ⟨k', hk', h⟩ := Option.bind_eq_some_iff.1 h
    obtain ⟨ks', hks', h⟩ := Option.bind_eq_some_iff.1 h
    obtain rfl := Option.some.inj h
    obtain rfl | hmem := List.mem_cons.1 hk
    · exact ⟨i, hk'⟩
    · exact ih hks' hmem

theorem Instruction.uses_run {unit : UnitId} (hunit : S unit) (goOn : Bool) {f : Frame}
    (hf : f.IsFor S) (i : Instruction) :
    (i.run setup programs unit goOn f).Uses (UnitOp.ActsFor S) := by
  cases i with
  | info | yield | never | fail | forget => trivial
  | fresh base labels hasDatum sharing name =>
    refine Proc.Uses.bind (Flow.Uses.act unit ⟨hunit, trivial⟩) fun r ↦ ?_
    cases r <;> trivial
  | init | share | datum | edge | close | closeScope =>
    rw [Instruction.run]
    split
    · exact uses_attempt f (.act unit ⟨hunit, trivial⟩) _
    · trivial
  | call call name later =>
    refine (uses_makeCall programs hunit f.names call).bind_of_gives
      (gives_makeCall programs hunit f.names call) fun made hmade ↦ ?_
    cases made with
    | none => trivial
    | some p =>
      dsimp only
      split
      · trivial
      · exact uses_awaitCall setup f goOn name (hmade p rfl)
  | await name =>
    rw [Instruction.run]
    split
    · trivial
    · rename_i call hcall
      exact uses_awaitCall setup _ goOn _ (hf.pending name call hcall)
  | join names =>
    rw [Instruction.run]
    split
    · trivial
    · rename_i calls hcalls
      refine uses_attempt _ (uses_joinCalls setup fun call hmem ↦ ?_) _
      obtain ⟨name, hcall⟩ := exists_of_mem_mapM hcalls hmem
      exact hf.pending name call hcall
  | previous => exact uses_attempt f (.look unit _) _
  | state text => exact uses_attempt f (.onUnit f.self trivial) _
  | result value =>
    rw [Instruction.run]
    split <;> trivial

theorem Statement.isProper_run (s : Statement) (f : Frame) :
    (s.run setup programs f).IsProper := by
  have hunit : (s.unit? f.self).IsProper := by
    rw [unit?]
    split
    · trivial
    · refine Proc.Uses.bind (Flow.Uses.look _ _) fun r ↦ ?_
      split <;> trivial
  refine hunit.bind fun u ↦ ?_
  cases u with
  | none => trivial
  | some unit =>
    have hruns : (s.instruction.run setup programs unit s.goOn f).Uses
        (UnitOp.ActsFor fun _ ↦ True) :=
      s.instruction.uses_run setup programs trivial s.goOn (.of_forall (fun _ ↦ trivial) f)
    exact hruns.mono UnitOp.ActsFor.isProper

theorem uses_note {A : UnitId → (α : Type) → UnitOp Program α → Prop} (unit : UnitId)
    (call : String) (r : Reply) : (note unit call r).Uses A :=
  ⟨trivial, fun _ ↦ trivial⟩

theorem isProper_runBody (body : List Statement) (f : Frame) :
    (runBody setup programs body f).IsProper := by
  induction body generalizing f with
  | nil => trivial
  | cons s rest ih =>
    refine (s.isProper_run setup programs f).bind fun outcome ↦ ?_
    cases outcome with
    | ended d => trivial
    | reused r d => exact (uses_note _ _ _).bind fun _ ↦ trivial
    | next r f =>
      refine (uses_note _ _ _).bind fun _ ↦ ?_
      split
      · trivial
      · exact ih f

/-- **Scripts are proper.** Whatever the script of a checker says, it carries out only proper
operations on units. -/
theorem isProper_behaviour : (behaviour setup programs).IsProper := fun unit program roots ↦
  ⟨trivial, fun _ ↦ isProper_runBody setup programs program.body (.start unit roots)⟩

end Script

end ScopeGraphs
