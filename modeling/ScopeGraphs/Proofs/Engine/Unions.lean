import ScopeGraphs.Proofs.Contents
import ScopeGraphs.Proofs.Engine.Progress
import ScopeGraphs.Proofs.Resolution.FixedGraph
import ScopeGraphs.Proofs.Resolution.Parameters

/-!
# Queries across units

A query is resolved unit by unit: every unit reads its own fragment, and forwards a path that leaves
it to the unit that owns its end. Once the units have come to rest, this finds the same as
resolution in the union of all fragments (`Engine.AtRest.exists_answered_eq_union`).

A path may leave a unit and come back to it any number of times, so there is no induction on units.
But every step, in whichever unit it is made, visits a scope that the path has not visited before
(`Family.answersBelow`). Within one unit the resolver follows the view of the graph as a whole: what
it reads there is the same, and what it forwards is answered by what the view finds
(`Family.follows_view`).
-/

namespace ScopeGraphs

variable {γ α β : Type}

/-! ## Rules that only look at data -/

/-- A data rule that only looks at the datum. -/
def DataRule.IsPure {π : Type} : DataRule π → Prop
  | any | test _ _ => True
  | probe _ _ => False

/-- What a data rule says that only looks at the datum. -/
def DataRule.accepts {π : Type} : DataRule π → Datum → Bool
  | test _ holds, d => holds d
  | _, _ => true

/-- A cover rule that only looks at the data. -/
def CoverRule.IsPure {π : Type} : CoverRule π → Prop
  | always | never | test _ _ => True
  | probe _ _ => False

/-- What a cover rule says that only looks at the data. -/
def CoverRule.coversData {π : Type} : CoverRule π → Datum → Datum → Bool
  | always, _, _ => true
  | test _ covers, d₁, d₂ => covers d₁ d₂
  | _, _, _ => false

section

universe u

variable {m : Type → Type u} [Monad m] [MonadExceptOf Fault m]

theorem DataRule.IsPure.holds_eq {rule : DataRule QueryParams} (h : rule.IsPure)
    (ctx : PredicateContext m) (d : Datum) : rule.holds ctx d = pure (rule.accepts d) := by
  cases rule with
  | any | test => rfl
  | probe => exact absurd h id

theorem CoverRule.IsPure.covers_eq {rule : CoverRule QueryParams} (h : rule.IsPure)
    (ctx : PredicateContext m) (d₁ d₂ : Datum) :
    rule.covers ctx d₁ d₂ = pure (rule.coversData d₁ d₂) := by
  cases rule with
  | always | never | test => rfl
  | probe => exact absurd h id

end

/-- A query whose rules only look at data. -/
structure QueryParams.IsPure (q : QueryParams) : Prop where
  data : q.dataRule.IsPure
  cover : q.coverRule.IsPure

/-- A scope can be reached along edges. -/
def ScopeGraph.Reaches (g : ScopeGraph) : Scope → Scope → Prop :=
  Relation.ReflTransGen fun s t ↦ ∃ l, (⟨s, l, t⟩ : Edge) ∈ g.edges

namespace Family

variable {W : Family γ} {unit : UnitId} {g : ScopeGraph} {n k : Nat}

/-! ## Quiet operations -/

theorem isQuiet_look (hunit : W.fragment? unit = some g) (f : UnitNode γ → α) :
    W.IsQuiet (.look unit f) fun r ↦ ∃ u, u.graph = g ∧ r = .ok (f u) := by
  intro c hc
  obtain ⟨u, hu, hgraph⟩ := hc.exists_unit hunit
  have hlook : c.perform (.look unit f) = (.ok (f u), c) := by rw [Core.perform, hu]
  rw [hlook]
  exact ⟨⟨u, hgraph, rfl⟩, hc.stirs⟩

theorem isQuiet_onUnit (hunit : W.fragment? unit = some g) {op : UnitOp γ α} {good : α → Prop}
    (hop : op.IsQuiet unit W.lost good) :
    W.IsQuiet (.onUnit unit op) fun r ↦ ∃ a, r = .ok a ∧ good a :=
  fun _ hc ↦ hc.atUnit hunit hop

theorem isQuiet_openLedger : W.IsQuiet (.openLedger : Op γ LedgerId) fun _ ↦ True :=
  fun _ hc ↦ ⟨trivial, hc.other rfl rfl rfl rfl rfl⟩

theorem isQuiet_enter (l : LedgerId) (ofRule : Bool) (r : QueryRecord) :
    W.IsQuiet (.enter l ofRule r : Op γ PUnit) fun _ ↦ True :=
  fun _ hc ↦ ⟨trivial, hc.other rfl rfl rfl rfl rfl⟩

theorem isQuiet_closeLedger (l : LedgerId) :
    W.IsQuiet (.closeLedger l : Op γ Ledger) fun _ ↦ True :=
  fun _ hc ↦ ⟨trivial, hc.other rfl rfl rfl rfl rfl⟩

/-! ## Processes that may fail -/

/-- A process succeeds, at a certain cost and with a result of a certain kind. -/
def Gives (W : Family γ) (n : Nat) (x : Flow γ α) (Q : α → Prop) : Prop :=
  W.Delivers n x.run fun r ↦ ∃ a, r = .ok a ∧ Q a

namespace Gives

variable {x : Flow γ α} {f : α → Flow γ β} {Q : α → Prop} {P : β → Prop}

theorem pure {a : α} (h : Q a) : W.Gives 0 (Pure.pure a : Flow γ α) Q := .done ⟨a, rfl, h⟩

theorem bind (h : W.Gives n x Q) (hf : ∀ a, Q a → W.Gives k (f a) P) :
    W.Gives (n + k) (x >>= f) P := by
  refine Delivers.bind h ?_
  rintro _ ⟨a, rfl, ha⟩
  exact hf a ha

theorem perform {op : Op γ α} (h : W.IsQuiet op Q) : W.Gives 1 (Flow.perform op) Q :=
  .quiet h fun a ha ↦ .done ⟨a, rfl, ha⟩

theorem onUnit (hunit : W.fragment? unit = some g) {op : UnitOp γ α}
    (h : op.IsQuiet unit W.lost Q) : W.Gives 1 (Flow.onUnit unit op) Q :=
  .quiet (isQuiet_onUnit hunit h) fun _ ha ↦ .done ha

theorem look (hunit : W.fragment? unit = some g) {f : UnitNode γ → α}
    (h : ∀ u, u.graph = g → Q (f u)) : W.Gives 1 (Flow.look unit f) Q := by
  refine .quiet (isQuiet_look hunit f) ?_
  rintro _ ⟨u, hu, rfl⟩
  exact .done ⟨_, rfl, h u hu⟩

theorem untilDecided (hunit : W.fragment? unit = some g) :
    W.Gives (1 + 0) (Flow.untilDecided unit) fun _ ↦ True := by
  refine bind (onUnit hunit (UnitOp.isQuiet_awaitDecided unit W.lost)) ?_
  rintro _ rfl
  exact pure trivial

theorem untilClosed (hunit : W.fragment? unit = some g) {s : Scope} (howner : s.owner = unit)
    (slot : Slot) : W.Gives (1 + 0) (Flow.untilClosed unit s slot) fun _ ↦ True := by
  refine bind (onUnit hunit (UnitOp.isQuiet_awaitClosed unit W.lost howner slot)) ?_
  rintro _ rfl
  exact pure trivial

/-- A unit that is asked gives the environment that it would find itself. -/
theorem ask {path : Path} {q : QueryParams} {env : Env} (hunit : W.fragment? unit = some g)
    (howner : (W.fragment? path.target.owner).isSome)
    (h : W.Gives k (Answering.answerQuery W.presented W.setup path.target.owner unit path q)
      (·.env = env)) :
    W.Gives (1 + k + 3) (Flow.ask unit (.query path q) Parcel.answer?) (·.env = env) := by
  refine Delivers.ask (Option.isSome_of_eq_some hunit) howner h _ (fun _ ↦ rfl) fun t a ha ↦ ?_
  refine bind (k := 0) (onUnit hunit (UnitOp.isQuiet_endAsking unit W.lost t)) fun _ _ ↦ ?_
  exact .done ⟨a, rfl, ha⟩

theorem forward {path : Path} {q : QueryParams} {env : Env} (hunit : W.fragment? unit = some g)
    (howner : (W.fragment? path.target.owner).isSome)
    (h : W.Gives k (Answering.answerQuery W.presented W.setup path.target.owner unit path q)
      (·.env = env)) (l : LedgerId) :
    W.Gives (1 + k + 3 + (1 + 0)) (Answering.forward unit l path q) (· = env) :=
  bind (ask hunit howner h) fun _ ha ↦
    bind (perform (isQuiet_enter l false _)) fun _ _ ↦ pure ha

/-- Data that are presented as they are are read as they are. -/
theorem readDatum (hunit : W.fragment? unit = some g)
    (hpresented : ∀ code d, W.presented code d = .ok d) (sender : UnitId) {s : Scope}
    (howner : s.owner = unit) :
    W.Gives (1 + (1 + 0)) (Answering.readDatum W.presented unit sender s) (· = g.datum? s) := by
  refine bind (untilClosed hunit howner .datum) fun _ _ ↦ ?_
  refine bind (Q := fun e ↦ e.1 = g.datum? s) (look hunit fun u hu ↦ congrArg (·.datum? s) hu) ?_
  rintro ⟨datum, code⟩ (rfl : datum = _)
  cases g.datum? s with
  | none => exact pure rfl
  | some d =>
    dsimp only
    split
    · exact pure rfl
    · refine bind (k := 0) (n := 0) (Q := (· = d)) ?_ ?_
      · cases code with
        | none => exact pure rfl
        | some code =>
          rw [Flow.present, hpresented]
          exact pure rfl
      · rintro _ rfl
        exact pure rfl

/-- Processes side by side give the list of what they give. -/
theorem together {ps : List (Flow γ Env)} {es : List Env} (hlength : ps.length = es.length)
    (cost : Nat → Nat)
    (h : ∀ (i : Nat) (hi : i < ps.length),
      W.Gives (cost i) ps[i] (· = es.get ⟨i, hlength ▸ hi⟩)) (expected : Nat) :
    W.Gives (0 + ∑ i ∈ Finset.range ps.length, cost i +
        (if expected ≤ crowd then Turns.each else Turns.woken true).bill)
      (Flow.together expected ps) (· = es) := by
  refine Delivers.together (by split <;> nofun) cost (fun i ↦ es[i]?.getD .empty) (fun i ↦ ?_)
    (.done ⟨_, rfl, ?_⟩)
  · have hi : i.1 < es.length := hlength ▸ i.2
    have hgives := h i i.2
    simp only [Gives, exists_eq_right] at hgives
    rw [List.getElem?_eq_getElem hi, Option.getD_some]
    exact hgives
  · refine List.ext_getElem (by simpa using hlength) fun i hi hi' ↦ ?_
    rw [List.getElem_map, List.getElem_range, List.getElem?_eq_getElem hi', Option.getD_some]

end Gives

/-! ## Resolution across units -/

/-- Computations that use a ledger yield what they give with every ledger. -/
def yielding (W : Family γ) : Yielding (ReaderT LedgerId (Flow γ)) where
  yields x a := ∃ n, ∀ l, W.Gives n (x.run l) (· = a)
  pure a := ⟨0, fun _ ↦ .pure rfl⟩
  bind := by
    rintro α β x a f b ⟨n, hx⟩ ⟨k, hf⟩
    exact ⟨n + k, fun l ↦ (hx l).bind fun _ ha ↦ ha ▸ hf l⟩

theorem yields_together {expected : Nat} {xs : List (ReaderT LedgerId (Flow γ) Env)} {es : List Env}
    (h : List.Forall₂ W.yielding.yields xs es) :
    ∃ n, ∀ l, W.Gives n (Flow.together expected (xs.map fun x ↦ x.run l)) (· = es) := by
  have hlength := h.length_eq
  have hyields (i : Nat) (hi : i < xs.length) :
      W.yielding.yields xs[i] (es.get ⟨i, hlength ▸ hi⟩) := h.get hi (hlength ▸ hi)
  choose cost hcost using hyields
  let total : Nat → Nat := fun i ↦ if hi : i < xs.length then cost i hi else 0
  refine ⟨0 + ∑ i ∈ Finset.range xs.length, total i +
    (if expected ≤ crowd then Turns.each else Turns.woken true).bill, fun l ↦ ?_⟩
  rw [← List.length_map (f := fun x : ReaderT LedgerId (Flow γ) Env ↦ x.run l)]
  refine Gives.together ((List.length_map _).trans hlength) total (fun i hi ↦ ?_) expected
  have hi' : i < xs.length := by rwa [List.length_map] at hi
  rw [List.getElem_map]
  dsimp only [total]
  rw [dif_pos hi']
  exact hcost i hi' l

/-- Every fragment holds what a graph as a whole holds in the scopes of the unit. -/
def Splits (W : Family γ) (whole : ScopeGraph) : Prop :=
  ∀ id g s slot, W.fragment? id = some g → s.owner = id → g.AgreeAt whole s slot

/-- Every scope that can be reached belongs to a unit that exists. -/
def Covers (W : Family γ) (whole : ScopeGraph) (s : Scope) : Prop :=
  ∀ t, whole.Reaches s t → (W.fragment? t.owner).isSome

theorem Covers.step {whole : ScopeGraph} {s t : Scope} (h : W.Covers whole s) {l : Label}
    (ht : t ∈ whole.targets s l) : W.Covers whole t :=
  fun _ ht' ↦ h _ (.head ⟨l, ScopeGraph.mem_targets.1 ht⟩ ht')

section

variable {whole : ScopeGraph} {sender : UnitId} {q : QueryParams} {bound : Nat}

/-- The view of a query on the graph as a whole. -/
def view (W : Family γ) (whole : ScopeGraph) (q : QueryParams) : View :=
  whole.view W.setup.labels q q.dataRule.accepts q.coverRule.coversData

/-- The number of scopes of the graph that a path has not visited. -/
abbrev left (whole : ScopeGraph) (path : Path) : Nat := View.room whole.scopes.toList path

/-- Whoever is asked about a path that has at most so many scopes left answers as if the graph were
at hand as a whole. -/
def AnswersBelow (W : Family γ) (whole : ScopeGraph) (q : QueryParams) (bound : Nat) : Prop :=
  ∀ sender path p k, left whole path < bound → left whole path < k →
    W.Covers whole path.target → ∃ n, W.Gives n
      (Answering.answerQuery W.presented W.setup path.target.owner sender path (q.withPattern p))
      (·.env = (W.view whole q).env k path p)

/-- The paths that a unit resolves: those that end in its own scopes, and those that it may
forward. -/
def Resolves (W : Family γ) (whole : ScopeGraph) (unit : UnitId) (g : ScopeGraph) (bound : Nat)
    (n k : Nat) (path : Path) (_ : Pattern) : Prop :=
  View.room g.scopes.toList path < n ∧ left whole path < k ∧ W.Covers whole path.target ∧
    (path.target.owner = unit ∧ left whole path ≤ bound ∨ left whole path < bound)

/-- A resolver of a unit, whatever ledger it uses, follows the view of the graph as a whole. -/
theorem follows_view {unit : UnitId} {g : ScopeGraph} (hunit : W.fragment? unit = some g)
    (hsplits : W.Splits whole) (hpresented : ∀ code d, W.presented code d = .ok d) (hpure : q.IsPure)
    (hbelow : W.AnswersBelow whole q bound) (rules : LedgerId → PredicateContext (Flow γ)) :
    (Resolver.reading fun l ↦
      Answering.resolver W.presented W.setup unit sender l q (rules l)).Follows
      W.yielding (W.view whole q) (W.Resolves whole unit g bound) where
  labels := rfl
  preference := rfl
  coversAll := rfl
  accepts d := ⟨0, fun l ↦ by
    have hholds := hpure.data.holds_eq (rules l) d
    exact (congrArg (W.Gives 0 · _) hholds).mpr (.pure rfl)⟩
  covers d₁ d₂ := ⟨0, fun l ↦ by
    have hcovers := hpure.cover.covers_eq (rules l) d₁ d₂
    exact (congrArg (W.Gives 0 · _) hcovers).mpr (.pure rfl)⟩
  together h := W.yields_together h
  not_zero := fun h ↦ absurd h.1 (Nat.not_lt_zero _)
  reads := by
    rintro n k path p ⟨hroom, hleft, hcovers, hwhere⟩
    by_cases howner : path.target.owner = unit
    · -- The unit reads the end of the path itself.
      left
      obtain ⟨j, rfl⟩ := Nat.exists_eq_add_one_of_ne_zero (Nat.ne_zero_of_lt hleft)
      have hagree (slot : Slot) := hsplits unit g path.target slot hunit howner
      have htargets (l : Label) : g.targets path.target l = whole.targets path.target l :=
        hagree (.edge l)
      have hdatum : g.datum? path.target = whole.datum? path.target := hagree .datum
      refine ⟨j, rfl, ⟨⟨0, fun l ↦ ?_⟩, ⟨1 + (1 + 0), fun l ↦ ?_⟩, fun l ↦ ⟨1 + 0 + 1, fun _ ↦ ?_⟩⟩, ?_⟩
      · refine (congrArg (W.Gives 0 · _) (if_pos howner)).mpr (.pure rfl)
      · change W.Gives _ _ (· = whole.datum? path.target)
        rw [← hdatum]
        exact .readDatum hunit hpresented sender howner
      · change W.Gives _ _ (· = whole.targets path.target l)
        rw [← htargets]
        exact .bind (.untilClosed hunit howner _) fun _ _ ↦
          .look hunit fun u hu ↦ congrArg (·.targets path.target l) hu
      · intro l next t r _ _ ht hr
        have ht' : t ∈ g.targets path.target l := (htargets l).symm ▸ ht
        have hlt := View.room_lt_of_step?
          (Std.ExtTreeSet.mem_toList.2 (ScopeGraph.mem_scopes_of_mem_targets ht')) hr
        have hlt' : left whole r < left whole path := View.room_lt_of_step?
          (Std.ExtTreeSet.mem_toList.2 (ScopeGraph.mem_scopes_of_mem_targets ht)) hr
        refine ⟨by omega, by omega, ?_, .inr ?_⟩
        · rw [Path.target_of_step? hr]
          exact hcovers.step ht
        · rcases hwhere with ⟨-, hle⟩ | hlt''
          · exact hlt'.trans_le hle
          · exact hlt'.trans hlt''
    · -- The path has left the unit, and whoever owns its end is asked.
      right
      have hlt := hwhere.resolve_left fun h ↦ howner h.1
      obtain ⟨n, hn⟩ := hbelow unit path p k hlt hleft hcovers
      refine ⟨1 + n + 3 + (1 + 0) + 0, fun l ↦ ?_⟩
      refine (congrArg (W.Gives _ · _) (if_neg howner)).mpr ?_
      refine .bind (.forward hunit (hcovers _ .refl) hn l) ?_
      rintro _ rfl
      exact .pure rfl

/-- A unit resolves a query as if the graph were at hand as a whole. -/
theorem exists_gives_resolve {unit : UnitId} {g : ScopeGraph} (hunit : W.fragment? unit = some g)
    (hsplits : W.Splits whole) (hpresented : ∀ code d, W.presented code d = .ok d) (hpure : q.IsPure)
    (hbelow : W.AnswersBelow whole q bound) (sender : UnitId) {k : Nat} {path : Path}
    (hleft : left whole path < k) (hcovers : W.Covers whole path.target)
    (hwhere : path.target.owner = unit ∧ left whole path ≤ bound ∨ left whole path < bound) :
    ∃ n, W.Gives n (Answering.resolve W.presented W.setup unit sender path q)
      (·.env = (W.view whole q).env k path q.pattern) := by
  have hroom : View.room g.scopes.toList path < g.scopes.size + headroom := by
    have hlt : View.room g.scopes.toList path < g.scopes.size + 1 := ScopeGraph.room_lt_size path
    exact hlt.trans_le (Nat.add_le_add_left (by decide) _)
  have hwith (rules : LedgerId → PredicateContext (Flow γ)) : ∃ n, W.Gives n
      (do let l ← Flow.perform .openLedger
          let depth ← Flow.look unit fun u ↦ u.graph.scopes.size + headroom
          let env ← (Answering.resolver W.presented W.setup unit sender l q (rules l)).env depth
            path q.pattern
          let entries ← Flow.perform (.closeLedger l)
          pure ⟨env, entries.transitive, entries.predicate⟩ : Flow γ QueryAnswer)
      (·.env = (W.view whole q).env k path q.pattern) := by
    obtain ⟨n, hn⟩ := (W.follows_view hunit hsplits hpresented hpure hbelow rules).env
      ⟨hroom, hleft, hcovers, hwhere⟩
    refine ⟨1 + (1 + (n + (1 + 0))), .bind (.perform isQuiet_openLedger) fun l _ ↦ ?_⟩
    refine .bind (.look hunit (Q := (· = g.scopes.size + headroom)) fun u hu ↦ by rw [hu]) ?_
    rintro _ rfl
    have henv := hn l
    rw [Resolver.run_env ⟨fun _ ↦ rfl, fun _ ↦ rfl, fun _ ↦ rfl⟩] at henv
    refine .bind henv ?_
    rintro _ rfl
    exact .bind (.perform (isQuiet_closeLedger l)) fun _ _ ↦ .pure rfl
  -- The heights differ in what rules about data may ask, and pure rules ask nothing.
  rw [Answering.resolve]
  cases q.height with
  | zero => exact hwith fun _ ↦ _
  | succ height => exact hwith fun l ↦ _

/-- Paths that leave a unit, and come back to it, are resolved as if the graph were at hand as a
whole. The induction is on the number of scopes that a path has not visited, which every step takes
from, in whichever unit it is made. -/
theorem answersBelow (hsplits : W.Splits whole) (hpresented : ∀ code d, W.presented code d = .ok d)
    (hpure : q.IsPure) (bound : Nat) : W.AnswersBelow whole q bound := by
  induction bound with
  | zero => exact fun _ _ _ _ hlt ↦ absurd hlt (Nat.not_lt_zero _)
  | succ bound ih =>
    intro sender path p k hlt hleft hcovers
    obtain ⟨g, hunit⟩ := Option.isSome_iff_exists.1 (hcovers _ .refl)
    have hpure' : (q.withPattern p).IsPure := ⟨hpure.data, hpure.cover⟩
    have hbelow : W.AnswersBelow whole (q.withPattern p) bound := ih
    obtain ⟨n, hn⟩ := exists_gives_resolve hunit hsplits hpresented hpure' hbelow sender hleft hcovers
      (.inl ⟨rfl, Nat.lt_succ_iff.1 hlt⟩)
    exact ⟨1 + 0 + n, .bind (.untilDecided hunit) fun _ _ ↦ hn⟩

/-- A unit of the family answers a query as it would be answered in the graph as a whole. -/
theorem exists_gives_answerQuery {unit : UnitId} (hunit : (W.fragment? unit).isSome)
    (hsplits : W.Splits whole) (hpresented : ∀ code d, W.presented code d = .ok d) (hpure : q.IsPure)
    (sender : UnitId) {s : Scope} (hcovers : W.Covers whole s) :
    ∃ env n, whole.resolve W.setup.labels s q = .ok env ∧
      W.Gives n (Answering.answerQuery W.presented W.setup unit sender (.start s) q)
        (·.env = env) := by
  obtain ⟨g, hg⟩ := Option.isSome_iff_exists.1 hunit
  have hleft : left whole (.start s) < whole.scopes.size + 1 := ScopeGraph.room_lt_size _
  have hresolve : whole.resolve W.setup.labels s q =
      .ok ((W.view whole q).env (whole.scopes.size + 1) (.start s) q.pattern) :=
    ScopeGraph.envOf_eq_ok (hpure.data.holds_eq _) (hpure.cover.covers_eq _) (.start s)
  obtain ⟨n, hn⟩ := exists_gives_resolve hg hsplits hpresented hpure
    (answersBelow hsplits hpresented hpure _) sender hleft hcovers (.inr (Nat.lt_succ_self _))
  exact ⟨_, 1 + 0 + n, hresolve, .bind (.untilDecided hg) fun _ _ ↦ hn⟩

end

end Family

/-! ## The graph of all units -/

namespace Core

variable {c : Core γ}

/-- The fragments of all units together. -/
def union (c : Core γ) : ScopeGraph := (c.units.toList.map fun e ↦ e.2.graph).foldl .union .empty

/-- All units have decided about reuse, all slots of their scopes are closed, and nobody waits for
them. Their fragments hold only edges and data of scopes of their own. -/
structure Settled (c : Core γ) : Prop where
  filed : ∀ (id : UnitId) (u : UnitNode γ), c.units[id]? = some u → u.id = id
  still : ∀ (id : UnitId) (u : UnitNode γ), c.units[id]? = some u →
    u.Still fun ch ↦ ch < c.channels.next ∧ c.channels.slots[ch]? = none
  edges : ∀ (id : UnitId) (u : UnitNode γ), c.units[id]? = some u →
    ∀ e ∈ u.graph.edges, e.source.owner = id
  data : ∀ (id : UnitId) (u : UnitNode γ) s d, c.units[id]? = some u →
    u.graph.datum? s = some d → s.owner = id

end Core

namespace ScopeGraph

variable {g : ScopeGraph} {gs : List ScopeGraph}

theorem mem_edges_foldl_union {e : Edge} :
    e ∈ (gs.foldl union g).edges ↔ e ∈ g.edges ∨ ∃ h ∈ gs, e ∈ h.edges := by
  induction gs generalizing g with
  | nil => simp
  | cons h gs ih =>
    rw [List.foldl_cons, ih, mem_edges_union, List.exists_mem_cons_iff, ← or_assoc,
      or_comm (a := e ∈ g.edges)]

theorem datum?_foldl_union_eq_none {s : Scope} :
    (gs.foldl union g).datum? s = none ↔ g.datum? s = none ∧ ∀ h ∈ gs, h.datum? s = none := by
  induction gs generalizing g with
  | nil => simp
  | cons h gs ih =>
    rw [List.foldl_cons, ih, datum?_union, Option.or_eq_none_iff, List.forall_mem_cons,
      and_comm (a := h.datum? s = none), and_assoc]

theorem exists_of_datum?_foldl_union {s : Scope} {d : Datum}
    (hd : (gs.foldl union g).datum? s = some d) :
    g.datum? s = some d ∨ ∃ h ∈ gs, h.datum? s = some d := by
  induction gs generalizing g with
  | nil => exact .inl hd
  | cons h gs ih =>
    rcases ih hd with hunion | ⟨k, hk, hkd⟩
    · rw [datum?_union, Option.or_eq_some_iff] at hunion
      rcases hunion with hh | ⟨-, hg⟩
      · exact .inr ⟨h, List.mem_cons_self, hh⟩
      · exact .inl hg
    · exact .inr ⟨k, List.mem_cons_of_mem h hk, hkd⟩

end ScopeGraph

namespace Core

variable {c : Core γ} {id : UnitId} {u : UnitNode γ}

theorem mem_fragments {g : ScopeGraph} :
    g ∈ c.units.toList.map (fun e ↦ e.2.graph) ↔
      ∃ (id : UnitId) (u : UnitNode γ), c.units[id]? = some u ∧ u.graph = g := by
  simp only [List.mem_map, Prod.exists, Std.ExtTreeMap.mem_toList_iff_getElem?_eq_some]

/-- The graph of all units holds in the scopes of a unit what the fragment of the unit holds. -/
theorem Settled.agreeAt_union (h : c.Settled) (hu : c.units[id]? = some u) {s : Scope}
    (howner : s.owner = id) (slot : Slot) : u.graph.AgreeAt c.union s slot := by
  -- No other unit has an edge or a datum at a scope of this one.
  have hsame {id' : UnitId} {u' : UnitNode γ} (hu' : c.units[id']? = some u')
      (howner' : s.owner = id') : u' = u := by
    rw [← howner', howner, hu] at hu'
    exact (Option.some.inj hu').symm
  refine ScopeGraph.agreeAt_of (fun l t _ ↦ ?_) fun _ ↦ ?_
  · rw [union, ScopeGraph.mem_edges_foldl_union]
    constructor
    · exact fun he ↦ .inr ⟨_, mem_fragments.2 ⟨id, u, hu, rfl⟩, he⟩
    · rintro (he | ⟨g, hg, he⟩)
      · exact absurd he Std.ExtTreeSet.not_mem_empty
      · obtain ⟨id', u', hu', rfl⟩ := mem_fragments.1 hg
        exact hsame hu' (h.edges id' u' hu' _ he) ▸ he
  · change u.graph.datum? s = c.union.datum? s
    cases hd : c.union.datum? s with
    | none => exact (ScopeGraph.datum?_foldl_union_eq_none.1 hd).2 _ (mem_fragments.2 ⟨id, u, hu, rfl⟩)
    | some d =>
      rcases ScopeGraph.exists_of_datum?_foldl_union hd with hnone | ⟨g, hg, hgd⟩
      · exact nomatch hnone
      · obtain ⟨id', u', hu', rfl⟩ := mem_fragments.1 hg
        rw [← hsame hu' (h.data id' u' s d hu' hgd), hgd]

end Core

/-! ## The engine -/

namespace Engine

variable {e : Engine γ} {b : Behaviour γ}

/-- The units of a run have settled, there are no messages, and no task may go on. -/
structure AtRest (e : Engine γ) : Prop where
  settled : e.core.Settled
  mail : e.core.mail.Carries 0
  ready : ∀ id ∈ e.core.executor.ready, e.core.executor.tasks[id]? = none
  spawned : ∀ id, e.core.executor.spawned ≤ id →
    e.core.executor.tasks[id]? = none ∧ e.suspended[id]? = none
  made : ∀ ch s, e.core.channels.slots[ch]? = some s → ch < e.core.channels.next
  arrived : ∀ ch ∈ e.core.channels.arrived, ch < e.core.channels.next
  nodup : e.core.channels.arrived.Nodup

/-- A unit is sent a query from a scope, and its answer is awaited on a new channel. -/
def ask (e : Engine γ) (unit sender : UnitId) (s : Scope) (q : QueryParams) : Engine γ :=
  { e with core :=
    { e.core with
      channels := e.core.channels.create
      mail := e.core.mail.enqueue unit (.query sender (.start s) q e.core.channels.next) } }

/-- The family of the units of a run. -/
def family (e : Engine γ) (b : Behaviour γ) : Family γ where
  presented := b.presented
  setup := e.core.setup
  fragment? id := (e.core.units[id]?).map UnitNode.graph
  lost ch := ch < e.core.channels.next ∧ e.core.channels.slots[ch]? = none

namespace AtRest

theorem splits (h : e.AtRest) (b : Behaviour γ) : (e.family b).Splits e.core.union := by
  intro id g s slot hg howner
  obtain ⟨u, hu, rfl⟩ := Option.map_eq_some_iff.1 hg
  exact h.settled.agreeAt_union hu howner slot

theorem holds (h : e.AtRest) (b : Behaviour γ) : (e.family b).Holds e.core where
  setup := rfl
  graph _ := rfl
  still id u hu := ⟨h.settled.filed id u hu, h.settled.still id u hu⟩
  channels _ hch := hch.2

theorem fits (h : e.AtRest) (b : Behaviour γ) : (e.family b).Fits (fun _ ↦ none) e.core where
  holds := h.holds b
  lost_lt _ hch := hch.1
  made _ _ henv := nomatch henv
  lt_next := h.made
  kept _ _ _ henv := nomatch henv
  arrived _ _ henv := nomatch henv
  arrived_lt := h.arrived
  nodup := h.nodup

variable {unit sender : UnitId} {s : Scope} {q : QueryParams}

/-- The engine is busy with the query. -/
theorem busy_ask (h : e.AtRest) (hunit : (e.core.units[unit]?).isSome) {env : Env} {n : Nat}
    (hgives : (e.family b).Gives n
      (Answering.answerQuery b.presented e.core.setup unit sender (.start s) q) (·.env = env)) :
    (e.family b).Busy e.core.channels.next (fun _ ↦ False)
      (Function.update (fun _ ↦ none) e.core.channels.next (some env)) (fun _ ↦ none) (fun _ ↦ 0)
      {⟨unit, sender, .start s, q, e.core.channels.next, n⟩} (e.ask unit sender s q) := by
  have hholds : (e.family b).Holds (e.ask unit sender s q).core := by
    refine (h.holds b).congr rfl rfl fun ch hch ↦ ?_
    refine (SortedMap.getElem?_insert_eq ..).trans ((if_neg ?_).trans hch.2)
    exact Nat.ne_of_gt hch.1
  have hasked (ch : ChannelId) (env' : Env) (henv' : Function.update (fun _ ↦ none)
      e.core.channels.next (some env) ch = some env') : ch = e.core.channels.next := by
    by_contra hne
    rw [Function.update_of_ne hne] at henv'
    exact nomatch henv'
  refine ⟨((h.fits b).create env hholds rfl).2, ?_, fun j hj ↦ ?_, h.spawned,
    fun _ hpos ↦ absurd hpos (Nat.lt_irrefl 0), fun id hid hlive ↦ absurd (h.ready id hid) hlive,
    fun ch env' w henv' _ _ ↦ ?_, fun ch env' id henv' hne ↦ absurd (hasked ch env' henv') hne,
    ⟨⟨env, .empty none, Function.update_self .., ?_⟩, rfl⟩⟩
  · rw [Multiset.map_singleton, ← Multiset.cons_zero]
    exact h.mail.enqueue _ _
  · rw [Multiset.mem_singleton.1 hj]
    exact ⟨(Option.isSome_map).trans hunit, env, Function.update_self .., hgives⟩
  · exact .inl ⟨_, Multiset.mem_singleton_self _, (hasked ch env' henv').symm⟩
  · exact (SortedMap.getElem?_insert_eq ..).trans (if_pos rfl)

/-- **A query that is answered unit by unit is answered as in the graph of all units.** Each unit
resolves the part within its own fragment, and forwards the paths that leave it; if everything that
can be reached belongs to some unit, the environment that is found is that of the query in the union
of all fragments, with what is accepted as well as what is rejected. -/
theorem exists_answered_eq_union (h : e.AtRest) (hpresented : ∀ code d, b.presented code d = .ok d)
    (hpure : q.IsPure) (hunit : (e.core.units[unit]?).isSome)
    (howned : ∀ t, e.core.union.Reaches s t → (e.core.units[t.owner]?).isSome) :
    ∃ env e', e.core.union.resolve e.core.setup.labels s q = .ok env ∧
      (e.ask unit sender s q).Works b e' ∧ e'.Answered e.core.channels.next env := by
  have hcovers : (e.family b).Covers e.core.union s := fun t ht ↦ Option.isSome_map.trans (howned t ht)
  obtain ⟨env, n, hresolve, hgives⟩ := Family.exists_gives_answerQuery
    (Option.isSome_map.trans hunit) (h.splits b) hpresented hpure sender hcovers
  obtain ⟨e', hworks, hanswered⟩ :=
    (h.busy_ask hunit hgives).exists_answered rfl (Function.update_self ..)
  exact ⟨env, e', hresolve, hworks, hanswered⟩

end AtRest

/-! A path that leaves a unit and comes back to it: the second unit imports the first one, which has
imported it. -/

private def importer : UnitId := ⟨"a"⟩

private def imported : UnitId := ⟨"b"⟩

private def importerUnit : UnitNode Unit :=
  { UnitNode.new importer none (.checker ()) none false false with
    phase := .active
    graph := .of [⟨⟨importer, "s"⟩, "I", ⟨imported, "t"⟩⟩, ⟨⟨importer, "s"⟩, "P", ⟨importer, "x"⟩⟩,
      ⟨⟨importer, "r"⟩, "P", ⟨importer, "y"⟩⟩] [(⟨importer, "x"⟩, .int 1), (⟨importer, "y"⟩, .int 1)] }

private def importedUnit : UnitNode Unit :=
  { UnitNode.new imported (some importer) (.checker ()) none false false with
    phase := .active
    graph := .of [⟨⟨imported, "t"⟩, "I", ⟨importer, "r"⟩⟩] [] }

private def twoUnits : SortedMap UnitId (UnitNode Unit) :=
  ((∅ : SortedMap UnitId (UnitNode Unit)).insert importer importerUnit).insert imported importedUnit

private def resting : Engine Unit where
  core :=
    { Core.start ⟨default, ["I", "P"], 0⟩ importer () none with
      units := twoUnits
      mail := .empty }
  suspended := ∅

private theorem eq_of_twoUnits {id : UnitId} {u : UnitNode Unit} (hu : twoUnits[id]? = some u) :
    id = importer ∧ u = importerUnit ∨ id = imported ∧ u = importedUnit := by
  rw [twoUnits, SortedMap.getElem?_insert_eq_some_iff, SortedMap.getElem?_insert_eq_some_iff] at hu
  obtain ⟨rfl, rfl⟩ | ⟨-, ⟨rfl, rfl⟩ | ⟨-, hu⟩⟩ := hu
  · exact .inr ⟨rfl, rfl⟩
  · exact .inl ⟨rfl, rfl⟩
  · rw [Std.ExtTreeMap.getElem?_empty] at hu
    exact nomatch hu

private theorem atRest_resting : resting.AtRest where
  settled :=
    { filed := fun id u hu ↦ by
        rcases eq_of_twoUnits hu with ⟨rfl, rfl⟩ | ⟨rfl, rfl⟩ <;> rfl
      still := fun id u hu ↦ by
        rcases eq_of_twoUnits hu with ⟨rfl, rfl⟩ | ⟨rfl, rfl⟩ <;>
          exact ⟨⟨nofun, nofun, nofun⟩, fun _ _ _ ↦ rfl, nofun, nofun⟩
      edges := fun id u hu ↦ by
        rcases eq_of_twoUnits hu with ⟨rfl, rfl⟩ | ⟨rfl, rfl⟩ <;>
          simp [importerUnit, importedUnit, ScopeGraph.of]
      data := fun id u s d hu hd ↦ by
        have hs : s ∈ u.graph.data.keys :=
          Std.ExtTreeMap.mem_keys.2
            (Std.ExtTreeMap.mem_iff_isSome_getElem?.2 (Option.isSome_of_eq_some hd))
        rcases eq_of_twoUnits hu with ⟨rfl, rfl⟩ | ⟨rfl, rfl⟩
        · have hkeys : importerUnit.graph.data.keys =
              [⟨importer, "x"⟩, ⟨importer, "y"⟩] := by rfl
          rw [hkeys] at hs
          simp only [List.mem_cons, List.not_mem_nil, or_false] at hs
          rcases hs with rfl | rfl <;> rfl
        · exact absurd hs List.not_mem_nil }
  mail := Mailboxes.carries_zero rfl rfl rfl
  ready := nofun
  spawned _ _ := ⟨rfl, rfl⟩
  made := nofun
  arrived := nofun
  nodup := List.nodup_nil

/-- The importer asks for everything that it can see from its scope. -/
private def everything : QueryParams :=
  .mk (.ofAutomaton (.of [(0, "I", 0), (0, "P", 0)] [0])) .lexical .any .always

/-- A checker that gives up at once and presents its data as they are. -/
private def plain : Behaviour Unit := ⟨fun _ _ _ ↦ .done (.ok (.int 0)), fun _ d ↦ .ok d⟩

theorem exists_answered_eq_union_imports :
    resting.AtRest ∧ (∀ code d, plain.presented code d = .ok d) ∧ everything.IsPure ∧
      (resting.core.units[importer]?).isSome ∧
      (∀ t, resting.core.union.Reaches ⟨importer, "s"⟩ t →
        (resting.core.units[t.owner]?).isSome) ∧
      ∃ env e', resting.core.union.resolve resting.core.setup.labels ⟨importer, "s"⟩ everything =
          .ok env ∧
        (resting.ask importer importer ⟨importer, "s"⟩ everything).Works plain e' ∧
        e'.Answered resting.core.channels.next env := by
  have hpresented (code : Unit) (d : Datum) : plain.presented code d = .ok d := rfl
  have hpure : everything.IsPure := ⟨trivial, trivial⟩
  have hunit : (resting.core.units[importer]?).isSome := by rfl
  have howned (t : Scope) (ht : resting.core.union.Reaches ⟨importer, "s"⟩ t) :
      (resting.core.units[t.owner]?).isSome := by
    have hedges : (resting.core.union.edges.toList.all fun e ↦
        (resting.core.units[e.target.owner]?).isSome) = true := by rfl
    rw [List.all_eq_true] at hedges
    cases ht with
    | refl => exact hunit
    | @tail s' _ _ hedge =>
      obtain ⟨l, hedge⟩ := hedge
      exact hedges ⟨s', l, t⟩ (Std.ExtTreeSet.mem_toList.2 hedge)
  exact ⟨atRest_resting, hpresented, hpure, hunit, howned,
    atRest_resting.exists_answered_eq_union hpresented hpure hunit howned⟩

end Engine

end ScopeGraphs
