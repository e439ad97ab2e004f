import ScopeGraphs.Proofs.Engine.Courses
import ScopeGraphs.Proofs.Engine.Lifecycles
import ScopeGraphs.Proofs.Units.Continuing

/-!
# Starts on their way

A unit that adds another one sends it a message to start. As long as the message has not been
handled it is in the mailbox of the unit, or parked until there is such a unit, and the unit has not
been started. `Core.Starts` says what a unit does in one go to the starts on their way: it may take
one out of its mailbox, and sends one to each unit that it adds. So all units that have not been
started are going to be (`Core.Starts.startsAll`).
-/

namespace ScopeGraphs

variable {γ α : Type}

/-! ## Starts -/

theorem mem_startsAmong {ms : List (UnitId × Message)} {k : UnitId} {roots : List Scope} :
    (k, roots) ∈ startsAmong ms ↔ (k, .start roots) ∈ ms := by
  rw [startsAmong, List.mem_filterMap]
  constructor
  · rintro ⟨⟨k', m⟩, hmem, heq⟩
    obtain ⟨roots', hroots, heq⟩ := Option.map_eq_some_iff.1 heq
    obtain ⟨rfl, rfl⟩ := Prod.mk.inj heq
    cases m with
    | start => exact Option.some.inj hroots ▸ hmem
    | _ => contradiction
  · intro hmem
    exact ⟨_, hmem, rfl⟩

namespace Core

variable {c c' : Core γ} {id k : UnitId} {u v w : UnitNode γ}

/-- A unit is going to be started with some root scopes. -/
def StartsWith (c : Core γ) (k : UnitId) (roots : List Scope) : Prop :=
  .start roots ∈ c.mail.queue k

/-- The messages of a unit join the queues of the units that they are sent to. -/
theorem queue_carryOut (h : c.Housed) (hu : c.units[id]? = some u) (op : UnitOp γ α)
    (k : UnitId) : (c.carryOut id u op).mail.queue k =
      c.mail.queue k ++ sentTo k (c.turnOf u op).effects.messages := by
  obtain ⟨-, hqueue⟩ := applyEffects_induction
    (P := fun c' _ ms ↦ c'.Housed ∧
      c'.coming ms k = c.mail.queue k ++ sentTo k (c.turnOf u op).effects.messages)
    id (c.turn u op).2.1
    (fun hunits _ hmail h ↦ ⟨h.1.other hunits hmail, by rw [← h.2, coming, coming, hmail]⟩)
    (fun _ w _ _ h ↦ ⟨h.1.addUnit w, (coming_addUnit w).trans h.2⟩)
    (fun _ m _ h ↦ ⟨h.1.post m, (coming_post h.1 m).trans h.2⟩)
    ⟨h.turn hu op, by rw [coming, mail_turn]; rfl⟩
  exact coming_nil.symm.trans hqueue

/-- After an operation a unit is going to be started if it was before, or if it has been added. -/
theorem startsWith_carryOut (h : c.Housed) (hu : c.units[id]? = some u) (op : UnitOp γ α)
    {js : List (UnitNode γ × List Scope)}
    (hadds : Turn.Adds ⟨u, .none, c.setup.settings, c.channels, c.nextRequest⟩ js
      (c.turnOf u op)) {roots : List Scope} :
    (c.carryOut id u op).StartsWith k roots ↔
      c.StartsWith k roots ∨ ∃ j ∈ js, j.1.id = k ∧ j.2 = roots := by
  have hstarts : startsAmong (c.turnOf u op).effects.messages = js.map fun j ↦ (j.1.id, j.2) :=
    hadds.starts
  rw [StartsWith, queue_carryOut h hu, List.mem_append, mem_sentTo, ← mem_startsAmong, hstarts,
    List.mem_map]
  simp only [Prod.mk.injEq]
  exact Iff.rfl

/-- All units that have not been started are going to be. -/
def StartsAll (c : Core γ) : Prop :=
  ∀ (k : UnitId) (w : UnitNode γ), c.units[k]? = some w → w.phase = .created →
    ∃ roots, c.StartsWith k roots

/-- If nothing is in the mailboxes all units have been started. -/
theorem StartsAll.phase_ne_created (h : c.StartsAll) (hhoused : c.Housed)
    (hdelivered : ∀ id, c.mail.box id = []) (hw : c.units[k]? = some w) : w.phase ≠ .created := by
  intro hcreated
  obtain ⟨roots, hroots⟩ := h k w hw hcreated
  rw [StartsWith, Mailboxes.queue, hdelivered, hhoused.parked k w hw] at hroots
  exact absurd hroots List.not_mem_nil

/-! ## One go -/

/-- What a unit does in one go, as far as starts are concerned. It may have handled a message to
start, and those that it adds are to be started. -/
structure Starts (c : Core γ) (id : UnitId) (u v : UnitNode γ) (started : Option (List Scope))
    (js : List (UnitNode γ × List Scope)) (c' : Core γ) : Prop where
  carries : Carries c id u v (js.map Prod.fst) c'
  kept : ∀ (k : UnitId) (roots : List Scope),
    c.StartsWith k roots → (id = k ∧ started = some roots) ∨ c'.StartsWith k roots
  sent : ∀ j ∈ js, c'.StartsWith j.1.id j.2
  comes : ∀ (k : UnitId) (roots : List Scope), c'.StartsWith k roots →
    c.StartsWith k roots ∨ ∃ j ∈ js, j.1.id = k ∧ j.2 = roots
  precedes : u.life.Precedes v.life

namespace Starts

variable {started : Option (List Scope)} {js : List (UnitNode γ × List Scope)}

/-- Whoever is there afterwards has been there before, or has just been added. -/
theorem before (h : c.Starts id u v started js c') (hw : c'.units[k]? = some w) :
    (∃ w', c.units[k]? = some w' ∧ w'.life.Precedes w.life) ∨
      (c.units[k]? = none ∧ ∃ j ∈ js, j.1 = w ∧ w.id = k) := by
  obtain ⟨rfl, rfl⟩ | ⟨-, hold⟩ | ⟨-, hnone, hmem, hid⟩ := h.carries.cases hw
  · exact .inl ⟨u, h.carries.unit, h.precedes⟩
  · exact .inl ⟨w, hold, .refl _⟩
  · obtain ⟨j, hj, rfl⟩ := List.mem_map.1 hmem
    exact .inr ⟨hnone, j, hj, rfl, hid⟩

/-- Whoever was there is there afterwards. -/
theorem after (h : c.Starts id u v started js c') (hw : c.units[k]? = some w) :
    ∃ w', c'.units[k]? = some w' ∧ w.life.Precedes w'.life :=
  h.carries.precedes h.precedes k w hw

/-- Only units that are there are told to start. -/
theorem known (h : c.Starts id u v started js c')
    (hknown : ∀ (k : UnitId) (roots : List Scope), c.StartsWith k roots →
      ∃ w, c.units[k]? = some w) {roots : List Scope} (hroots : c'.StartsWith k roots) :
    ∃ w, c'.units[k]? = some w := by
  obtain hold | ⟨j, hj, hid, -⟩ := h.comes k roots hroots
  · obtain ⟨w, hw⟩ := hknown k roots hold
    obtain ⟨w', hw', -⟩ := h.after hw
    exact ⟨w', hw'⟩
  · exact hid ▸ h.carries.exists_of_mem (List.mem_map_of_mem hj)

/-- Who has not been started is going to be. -/
theorem startsAll (h : c.Starts id u v started js c') (hcoming : c.StartsAll)
    (hstarted : ∀ roots ∈ started, v.phase ≠ .created) : c'.StartsAll := by
  intro k w hw hcreated
  obtain ⟨w₀, hw₀, hlater⟩ | ⟨-, j, hj, rfl, rfl⟩ := h.before hw
  · obtain ⟨roots, hroots⟩ := hcoming k w₀ hw₀ (hlater.phase.eq_created hcreated)
    refine ⟨roots, (h.kept k roots hroots).resolve_left ?_⟩
    rintro ⟨rfl, hsome⟩
    obtain rfl := Option.some.inj (h.carries.changed.symm.trans hw)
    exact hstarted roots hsome hcreated
  · exact ⟨j.2, h.sent j hj⟩

end Starts

/-- An operation on a unit, whether it is the handling of a message or not. -/
theorem starts_carryOut {mail : Mailboxes Message} {op : UnitOp γ α} (hu : c.units[id]? = some u)
    (hid : u.id = id) (hmail : ({ c with mail := mail } : Core γ).Housed)
    (hstart : ∀ (k : UnitId) (roots : List Scope), c.StartsWith k roots ↔
      (id = k ∧ op.roots? = some roots) ∨ Message.start roots ∈ mail.queue k)
    (hsound : u.life.IsSound) (hop : op.IsOrderly u) {js : List (UnitNode γ × List Scope)}
    (hadds : Turn.Adds ⟨u, .none, c.setup.settings, c.channels, c.nextRequest⟩ js
      (({ c with mail := mail } : Core γ).turnOf u op)) :
    c.Starts id u (({ c with mail := mail } : Core γ).turnOf u op).unit op.roots? js
      (({ c with mail := mail } : Core γ).carryOut id u op) := by
  have hstarts (k : UnitId) (roots : List Scope) :
      (({ c with mail := mail } : Core γ).carryOut id u op).StartsWith k roots ↔
        Message.start roots ∈ mail.queue k ∨ ∃ j ∈ js, j.1.id = k ∧ j.2 = roots :=
    startsWith_carryOut hmail hu op hadds
  refine ⟨?_, fun k roots hroots ↦ ?_, fun j hj ↦ ?_, fun k roots hroots ↦ ?_, ?_⟩
  · have hcarries := carries_carryOut (c := { c with mail := mail }) hu hid op
    have htaken : SameFrame c { c with mail := mail } := ⟨rfl, rfl, rfl⟩
    have hnew : (({ c with mail := mail } : Core γ).turnOf u op).effects.newUnits =
        js.map Prod.fst := hadds.newUnits
    exact ⟨htaken.trans hcarries.frame, hu, hnew ▸ hcarries.units⟩
  · exact ((hstart k roots).1 hroots).imp_right fun hold ↦ (hstarts k roots).2 (.inl hold)
  · exact (hstarts j.1.id j.2).2 (.inr ⟨j, hj, rfl, rfl⟩)
  · exact ((hstarts k roots).1 hroots).imp_left fun hold ↦ (hstart k roots).2 (.inr hold)
  · exact op.precedes_run hsound hop _ _ _

/-- What is no handling starts nobody. -/
theorem startsWith_iff_of_not_isHandling {op : UnitOp γ α} (hop : ¬ op.IsHandling)
    {roots : List Scope} : c.StartsWith k roots ↔
      (id = k ∧ op.roots? = some roots) ∨ Message.start roots ∈ c.mail.queue k := by
  have hnone : op.roots? = none := by
    cases op with
    | handle m => exact absurd trivial hop
    | _ => rfl
  rw [hnone, or_iff_right (fun hstarted ↦ nomatch hstarted.2)]
  exact Iff.rfl

/-- When a message is taken out of a mailbox its unit is to be started with it, or somebody is to be
started later. -/
theorem startsWith_iff_of_takes {m : Message} {mail : Mailboxes Message}
    (hmail : c.mail.Takes id m mail) {roots : List Scope} : c.StartsWith k roots ↔
      (id = k ∧ (UnitOp.handle (γ := γ) m).roots? = some roots) ∨
        Message.start roots ∈ mail.queue k := by
  rw [StartsWith, hmail.queue k, List.mem_append]
  refine or_congr_left ?_
  split
  · rename_i heq
    rw [List.mem_singleton]
    refine ⟨?_, fun hm ↦ ?_⟩
    · rintro rfl
      exact ⟨heq, rfl⟩
    · cases m with
      | start => exact congrArg Message.start (Option.some.inj hm.2).symm
      | _ => exact nomatch hm.2
  · rename_i hne
    exact iff_of_false List.not_mem_nil fun hm ↦ hne hm.1

/-! ## The start of a run -/

section

variable (setup : Setup) (root : UnitId) (code : γ) {previous : Option Report}

theorem startsWith_start {roots : List Scope} :
    (start setup root code previous).StartsWith k roots ↔ root = k ∧ roots = [] := by
  change _ ∈ (Mailboxes.empty.enqueue root (Message.start [])).box k ++ [] ↔ _
  rw [Mailboxes.box_enqueue, List.append_nil]
  split
  · rename_i heq
    change _ ∈ [_] ↔ _
    rw [List.mem_singleton, Message.start.injEq, and_iff_right heq]
  · rename_i hne
    exact iff_of_false List.not_mem_nil fun h ↦ hne h.1

theorem startsAll_start : (start setup root code previous).StartsAll := fun _ _ hw _ ↦
  ⟨[], (startsWith_start setup root code).2 ⟨(units_start_eq_some_iff.1 hw).1, rfl⟩⟩

end

end Core

end ScopeGraphs
