import Mathlib.Algebra.BigOperators.Group.Finset.Basic
import ScopeGraphs.Proofs.Engine.Stillness

/-!
# What processes deliver

A process that answers a query at a unit at rest does two kinds of things. Most of its operations
are quiet: they go through at once and nobody else notices. The others forward a path to another
unit and wait for the answer. `Family.Delivers` says of such a process what it delivers, provided
that every unit that is asked delivers, too; its cost bounds how much is still to be done, by the
process itself and by everybody whom it asks.

A process that has been polled and has not ended waits on channels on which answers were promised.
`Family.Waits` says what it delivers once they have arrived.
-/

namespace ScopeGraphs

variable {γ α β : Type}

/-- The environment of the answer that is promised on a channel. -/
abbrev Promises := ChannelId → Option Env

/-- Promises may be added. -/
def Promises.Grows (Γ Δ : Promises) : Prop := ∀ c env, Γ c = some env → Δ c = some env

theorem Promises.Grows.refl (Γ : Promises) : Γ.Grows Γ := fun _ _ h ↦ h

theorem Promises.Grows.trans {Γ Δ Θ : Promises} (h : Γ.Grows Δ) (h' : Δ.Grows Θ) : Γ.Grows Θ :=
  fun c env hc ↦ h' c env (h c env hc)

/-- An answer with a given environment. -/
def Answers (env : Env) (r : Except Fault QueryAnswer) : Prop := ∃ a, r = .ok a ∧ a.env = env

/-- What the first poll of processes side by side costs apart from the processes themselves: of a
crowd it is followed by a second one. -/
def Turns.bill : Turns → Nat
  | .woken true => 1
  | _ => 0

/-- A suspended process waits on a channel. -/
def Proc.Awaits (c : ChannelId) : {α : Type} → Proc γ α → Prop
  | _, .await c' _ => c' = c
  | _, .together _ parts _ => ∃ i, Awaits c (parts i)
  | _, _ => False

namespace Family

variable {W : Family γ}

/-- An operation that goes through at once, by what its answer is like, and that concerns no
query. -/
def IsQuiet (W : Family γ) (op : Op γ α) (good : α → Prop) : Prop :=
  ∀ c, W.Holds c → good (c.perform op).1 ∧ W.Stirs c (c.perform op).2

/-- What a process that has not been polled delivers, and at what cost. -/
inductive Delivers (W : Family γ) : Nat → {α : Type} → Proc γ α → (α → Prop) → Prop where
  | done {α : Type} {a : α} {P : α → Prop} (h : P a) : Delivers W 0 (.done a) P
  | quiet {n : Nat} {α β : Type} {op : Op γ β} {next : β → Proc γ α} {P : α → Prop}
      {good : β → Prop} (hop : W.IsQuiet op good) (h : ∀ b, good b → Delivers W n (next b) P) :
      Delivers W (n + 1) (.perform op next) P
  | ask {n k : Nat} {α : Type} {unit : UnitId} {path : Path} {q : QueryParams} {env : Env}
      {next : Except Fault Ticket → Proc γ α} {P : α → Prop} (hunit : (W.fragment? unit).isSome)
      (howner : (W.fragment? path.target.owner).isSome)
      (hjob : Delivers W k
        (Answering.answerQuery W.presented W.setup path.target.owner unit path q).run (Answers env))
      (rest : Ticket → Option Parcel → Proc γ α)
      (hnext : ∀ t, next (.ok t) = .await t.reply (rest t))
      (h : ∀ t a, a.env = env → Delivers W n (rest t (some (.answer (.ok a)))) P) :
      Delivers W (n + k + 3) (.perform (.onUnit unit (.ask (.query path q))) next) P
  | together {n m : Nat} {α β : Type} {turns : Turns} {parts : Fin m → Proc γ (Except Fault β)}
      {next : Except Fault (List β) → Proc γ α} {P : α → Prop} (hturns : turns ≠ .woken false)
      (k : Nat → Nat) (b : Nat → β)
      (hparts : ∀ i : Fin m, Delivers W (k i) (parts i) (· = .ok (b i)))
      (h : Delivers W n (next (.ok ((List.range m).map b))) P) :
      Delivers W (n + ∑ i ∈ Finset.range m, k i + turns.bill) (.together turns parts next) P

/-- What a process that has been polled delivers, and at what cost, if promises are kept. No two
processes side by side wait on the same channel. -/
inductive Waits (W : Family γ) (Γ : Promises) : Nat → {α : Type} → Proc γ α → (α → Prop) → Prop
  where
  | done {n : Nat} {α : Type} {a : α} {P : α → Prop} (h : P a) : Waits W Γ n (.done a) P
  | await {n : Nat} {α : Type} {c : ChannelId} {env : Env} {next : Option Parcel → Proc γ α}
      {P : α → Prop} (hc : Γ c = some env)
      (h : ∀ a : QueryAnswer, a.env = env → W.Delivers n (next (some (.answer (.ok a)))) P) :
      Waits W Γ (n + 1) (.await c next) P
  | together {n m : Nat} {α β : Type} {turns : Turns} {parts : Fin m → Proc γ (Except Fault β)}
      {next : Except Fault (List β) → Proc γ α} {P : α → Prop} (hturns : turns ≠ .woken true)
      (hsome : ∃ c i, (parts i).Awaits c)
      (hdisjoint : ∀ c i j, (parts i).Awaits c → (parts j).Awaits c → i = j)
      (k : Nat → Nat) (b : Nat → β)
      (hparts : ∀ i : Fin m, Waits W Γ (k i) (parts i) (· = .ok (b i)))
      (h : W.Delivers n (next (.ok ((List.range m).map b))) P) :
      Waits W Γ (n + ∑ i ∈ Finset.range m, k i) (.together turns parts next) P

theorem Waits.promised {Γ : Promises} {n : Nat} {p : Proc γ α} {P : α → Prop} (h : W.Waits Γ n p P)
    {c : ChannelId} (hc : p.Awaits c) : ∃ env, Γ c = some env := by
  induction h with
  | done => exact absurd hc id
  | await hpromise _ => exact ⟨_, hc ▸ hpromise⟩
  | together _ _ _ _ _ _ _ ih =>
    obtain ⟨i, hi⟩ := hc
    exact ih i hi

theorem Waits.mono {Γ Δ : Promises} (hgrows : Γ.Grows Δ) {n : Nat} {p : Proc γ α} {P : α → Prop}
    (h : W.Waits Γ n p P) : W.Waits Δ n p P := by
  induction h with
  | done h => exact .done h
  | await hc h => exact .await (hgrows _ _ hc) h
  | together hturns hsome hdisjoint k b _ h ih => exact .together hturns hsome hdisjoint k b ih h

namespace Delivers

/-- A process that has not been polled waits on no channel. -/
theorem not_awaits {n : Nat} {p : Proc γ α} {P : α → Prop} (h : W.Delivers n p P) (c : ChannelId) :
    ¬ p.Awaits c := by
  induction h with
  | done | quiet | ask => exact id
  | together _ _ _ _ _ ih => exact fun ⟨i, hi⟩ ↦ ih i hi

/-- What is delivered is handed on. -/
theorem bind {n k : Nat} {p : Proc γ α} {Q : α → Prop} (h : W.Delivers n p Q)
    {f : α → Proc γ β} {P : β → Prop} (hf : ∀ a, Q a → W.Delivers k (f a) P) :
    W.Delivers (n + k) (p.bind f) P := by
  induction h with
  | done h =>
    rw [Nat.zero_add]
    exact hf _ h
  | quiet hop _ ih =>
    rw [Nat.succ_add]
    exact .quiet hop fun b hb ↦ ih b hb hf
  | @ask n k' _ _ _ _ _ _ _ hunit howner hjob rest hnext _ _ ih =>
    have hcost : n + k' + 3 + k = n + k + k' + 3 := by omega
    rw [hcost]
    refine .ask hunit howner hjob (fun t v ↦ (rest t v).bind f) (fun t ↦ ?_) fun t a ha ↦ ?_
    · rw [hnext]
      rfl
    · exact ih t a ha hf
  | @together n m _ _ turns _ _ _ hturns c b hparts _ _ ih =>
    have hcost : n + ∑ i ∈ Finset.range m, c i + turns.bill + k =
        n + k + ∑ i ∈ Finset.range m, c i + turns.bill := by omega
    rw [hcost]
    exact .together hturns c b hparts (ih hf)

end Delivers

end Family

end ScopeGraphs
