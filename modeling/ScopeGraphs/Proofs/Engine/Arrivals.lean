import ScopeGraphs.Proofs.Engine.Accounting
import ScopeGraphs.Proofs.Engine.Lateness

/-!
# Edges arrive while their label is open

In a run without reuse, whatever units do of their own accord keeps what is known of shared scopes,
so an edge that arrives finds its label open. This ends when closures are granted by force, when a
unit is given up, or when the news that a scope will be shared is dropped because the owner of the
scope does not exist yet. A library that is handed one of the scopes that it would make for itself
is the one other exception.
-/

namespace ScopeGraphs

variable {γ α : Type}

/-! ## Operations -/

/-- Whether an operation closes what is open by force. -/
def UnitOp.IsForced : {α : Type} → UnitOp γ α → Prop
  | _, grantClosures | _, failStuck => True
  | _, _ => False

namespace Core

variable {c c' : Core γ} {t : Turn γ} {id : UnitId} {u : UnitNode γ} {m : Message}

namespace PunctualAt

/-- What a checker does. -/
theorem attempt (h : c.PunctualAt t) (hnewUnits : t.effects.newUnits = [])
    (hsettings : t.settings.incremental = false) (a : Action γ α) (ha : a.IsProper) :
    c.PunctualAt (a.attempt t).2 := by
  cases a with
  | freshScope base labels hasDatum sharing =>
    exact h.calm (Attempt.does_freshScope base labels hasDatum sharing t rfl)
  | initScope s labels sharing => exact h.initScope s labels sharing
  | shareScope s => exact h.calm (Attempt.does_shareScope s t rfl)
  | setDatum s d => exact h.moves (Attempt.does_setDatum s d trivial (fun _ ↦ rfl) t rfl)
  | addEdge e => exact h.addEdge e
  | closeLabel s l => exact h.closeLabel s l
  | closeScope s => exact h.calm (Attempt.does_closeScope s t rfl)
  | beginQuery path => exact h.calm (Attempt.does_beginQuery path t rfl)
  | addSubUnit name kind roots changed =>
    rw [Action.attempt, Attempt.addSubUnit, Attempt.requireLive_bind]
    split
    · exact h.addSubUnit hnewUnits name ha roots changed
    · exact h
  | askForReuse =>
    rw [Action.attempt, Attempt.askForReuse, Attempt.unit_bind, Attempt.require_bind]
    split
    · have hno : Attempt.mayReuse t.settings t.unit = false := by
        rw [Attempt.mayReuse, hsettings]
        rfl
      rw [Attempt.get_bind, hno]
      exact h.calm (t.moves_restart .initiallyStarted)
    · exact h

/-- What happens to a unit without force. -/
theorem run (h : c.PunctualAt t) (hnewUnits : t.effects.newUnits = [])
    (hsettings : t.settings.incremental = false) (op : UnitOp γ α) (hop : op.IsProper)
    (hforced : ¬ op.IsForced) : c.PunctualAt (op.run t).2 := by
  cases op with
  | act a => exact h.attempt hnewUnits hsettings a hop
  | begin state =>
    exact h.calm ((Turn.Moves.refl t).edit
      (f := fun u ↦ { u with begun := true, checkerState := state }) rfl)
  | keepState state =>
    exact h.calm ((Turn.Moves.refl t).edit (f := fun u ↦ { u with checkerState := some state }) rfl)
  | eagerStart => exact h.calm t.moves_eagerStart
  | checkerFinished result => exact h.calm (t.moves_checkerFinished result)
  | awaitDecided => exact h.calm t.moves_awaitDecided
  | awaitClosed s slot => exact h.calm (t.moves_awaitClosed s slot)
  | awaitOpen => exact h.calm t.moves_awaitOpen
  | awaitDecision => exact h.calm t.moves_awaitDecision
  | awaitReport => exact h.calm t.moves_awaitReport
  | ask q => exact h.calm (t.moves_ask q)
  | endAsking ticket => exact h.calm (t.moves_endAsking ticket fun hclosure ↦ absurd hclosure hop)
  | endQuery token record => exact h.calm (t.moves_endQuery token record fun _ ↦ rfl)
  | matchStep s => exact h.calm (t.moves_matchStep s)
  | diffScope s labels => exact h.calm (t.moves_diffScope s labels)
  | handle m => exact hop.elim
  | subUnitFinished r => exact h.calm (t.moves_subUnitFinished r)
  | release p =>
    -- Nobody is undecided about reuse.
    have hdecided : t.unit.phase ≠ .undecided := (Punctual.known h _ _ (c.units_put_self _)).1
    have hstays : t.release p = t := t.release_of_not fun _ hphase _ ↦ absurd hphase hdecided
    rw [UnitOp.run, hstays]
    exact h
  | restart trace => exact h.calm (t.moves_restart trace)
  | endLocalPhase => exact h.calm t.moves_captureEnd
  | grantClosures | failStuck => exact absurd trivial hforced

end PunctualAt

/-! ## Messages -/

/-- A unit has been handed its roots. If it serves a library, those who own them count on it, and
none of them is a scope that it makes for the library. -/
structure Begun (c : Core γ) (t : Turn γ) : Prop where
  punctual : c.PunctualAt t
  kind : t.unit.kind ≠ .phantom true
  counted : t.unit.kind.IsLibrary →
    (c.put t.unit).CountsOn t.effects.messages t.unit.id t.unit.roots
  fresh : t.unit.kind.IsLibrary → ∀ i, Library.freshScope t.unit.id i ∉ t.unit.roots

/-- A unit tells its parent that it has started. -/
theorem Begun.sendStarted (h : c.Begun t) (parent : UnitId) :
    c.Begun (t.send parent (.unitStarted t.unit.id)) where
  punctual := h.punctual.send parent trivial
  kind := h.kind
  counted hlibrary :=
    (h.counted hlibrary).send parent (m := .unitStarted t.unit.id) fun _ _ _ ↦ nofun
  fresh := h.fresh

namespace Punctual

variable {mail : Mailboxes Message}

/-- Before a unit does something, what is known of shared scopes is known at the unit. -/
theorem at_of_some (h : c.Punctual [] []) (hu : c.units[id]? = some u) (ht : t.unit = u)
    (hnewUnits : t.effects.newUnits = []) (hmessages : t.effects.messages = []) :
    c.PunctualAt t := by
  obtain rfl := h.housed.filed id u hu
  rw [PunctualAt, ht, hnewUnits, hmessages]
  exact h.changed (becomes_put hu rfl rfl rfl rfl fun _ ↦ rfl) rfl (.refl _ _) (h.kept u.id u hu)

/-- Messages that do not start a unit. -/
theorem handle (h : c.Punctual [] []) (hu : c.units[id]? = some u)
    (htakes : c.mail.Takes id m mail) (hm : m.roots? = none) (ht : t.unit = u)
    (hnewUnits : t.effects.newUnits = []) (hmessages : t.effects.messages = []) :
    ({ c with mail := mail } : Core γ).PunctualAt (t.handle m) := by
  obtain rfl := h.housed.filed id u hu
  obtain rfl := ht
  have hkeeps : t.Keeps (t.handle m) := (t.moves_handle hm).keeps
  have hb : c.Becomes t.unit (t.handle m).unit
      (({ c with mail := mail } : Core γ).put (t.handle m).unit) :=
    becomes_put hu rfl rfl hkeeps.id hkeeps.kind hkeeps.phase
  rw [PunctualAt, hkeeps.newUnits, hkeeps.messages, hnewUnits, hmessages]
  exact h.absorbed hb htakes rfl hkeeps.shared (fun hstarts ↦ absurd hm hstarts) (t.tally_handle hm)

/-- A unit is handed its roots. -/
theorem begun (h : c.Punctual [] []) (hu : c.units[id]? = some u) {roots : List Scope}
    (htakes : c.mail.Takes id (.start roots) mail) (hcreated : u.phase = .created)
    (ht : t.unit = { u with roots := roots, phase := .started })
    (hnewUnits : t.effects.newUnits = []) (hmessages : t.effects.messages = [])
    (hfresh : u.kind.IsLibrary → ∀ i, Library.freshScope u.id i ∉ roots) :
    ({ c with mail := mail } : Core γ).Begun t := by
  obtain rfl := h.housed.filed id u hu
  have hb : c.Becomes u t.unit (({ c with mail := mail } : Core γ).put t.unit) :=
    becomes_put hu rfl rfl (by rw [ht]) (by rw [ht]) (ht ▸ fun heq ↦ heq.elim nofun nofun)
  have hpunctual := h.absorbed hb htakes rfl (by rw [ht]) (ht ▸ fun _ ↦ nofun) (by rw [ht]; rfl)
  have hcounted (hlibrary : u.kind.IsLibrary) :
      (({ c with mail := mail } : Core γ).put t.unit).CountsOn [] u.id roots := by
    obtain ⟨roots', hroots, hcounts⟩ := h.waiting u.id u hu hcreated
    obtain rfl : roots' = roots := by
      rw [coming_nil, Mailboxes.queue, htakes.box] at hroots
      exact (Option.some.inj hroots).symm
    refine (hcounts hlibrary).mono fun r l _ ↦ Nat.le_of_eq ?_
    rw [hb.balance_takes htakes rfl (by rw [ht]; rfl)]
  refine ⟨?_, ?_, ?_, ?_⟩
  · rwa [PunctualAt, hnewUnits, hmessages]
  · rw [ht]
    exact (h.known u.id u hu).2
  · rw [hmessages]
    rw [ht] at hcounted ⊢
    exact hcounted
  · rw [ht]
    exact hfresh

/-- A unit starts. -/
theorem start (h : c.Punctual [] []) (hu : c.units[id]? = some u) {roots : List Scope}
    (htakes : c.mail.Takes id (.start roots) mail) (ht : t.unit = u)
    (hnewUnits : t.effects.newUnits = []) (hmessages : t.effects.messages = [])
    (hfresh : u.kind.IsLibrary → ∀ i, Library.freshScope u.id i ∉ roots) :
    ({ c with mail := mail } : Core γ).PunctualAt (t.start roots) := by
  obtain rfl := ht
  unfold Turn.start
  split
  · rename_i hphase
    obtain rfl := h.housed.filed id t.unit hu
    rw [PunctualAt, hnewUnits, hmessages]
    exact h.absorbed (becomes_put hu rfl rfl rfl rfl fun _ ↦ rfl) htakes rfl rfl (fun _ ↦ hphase) rfl
  · rename_i hphase
    extract_lets begun told
    have hbegun : ({ c with mail := mail } : Core γ).Begun begun :=
      h.begun hu htakes (Classical.not_not.1 hphase) rfl hnewUnits hmessages hfresh
    have htold : ({ c with mail := mail } : Core γ).Begun told := by
      unfold told
      split
      · exact hbegun.sendStarted _
      · exact hbegun
    clear_value told
    split
    · exact htold.punctual.calm (((Turn.Moves.refl told).waitFor trivial).spawn _)
    · rename_i hreplays
      exact absurd hreplays htold.kind
    · exact htold.punctual.calm told.moves_startRemoved
    · rename_i lib hserves
      have hlibrary : told.unit.kind.IsLibrary := hserves ▸ trivial
      exact htold.punctual.startLibrary (htold.counted hlibrary) (htold.fresh hlibrary) lib

/-- What a unit has done is carried out. -/
theorem carryOut (u : UnitNode γ) (op : UnitOp γ α)
    (h : c.PunctualAt (op.run ⟨u, .none, c.setup.settings, c.channels, c.nextRequest⟩).2) :
    (c.carryOut id u op).Punctual [] [] := by
  have hunits : (c.turn u op).2.2.units = (c.put
      (op.run ⟨u, .none, c.setup.settings, c.channels, c.nextRequest⟩).2.unit).units := by
    rw [units_turn, put, op.id_run]
  exact applyEffects id _ (Punctual.other h hunits (c.setup_turn u op) (c.mail_turn u op))

end Punctual

end Core

/-! ## Courses -/

namespace Occurrence

/-- Closures are granted by force, or a unit is given up. -/
def IsForced : Occurrence γ → Prop
  | acted _ op => op.IsForced
  | _ => False

/-- The news that a scope is shared, or will be, is dropped. -/
def LosesShares : Occurrence γ → Prop
  | dropped messages => ∃ id, ∃ m ∈ messages id, m.IsShare
  | _ => False

/-- A unit that serves a library is handed a scope that it would make for the library. -/
def HandsBack : Occurrence γ → Prop
  | handled u m => u.kind.IsLibrary ∧ ∃ roots, m.roots? = some roots ∧
      ∃ i, Library.freshScope u.id i ∈ roots
  | _ => False

end Occurrence

namespace Core

variable {c c' : Core γ} {o : Occurrence γ} {tr : List (Occurrence γ × Core γ)}

/-- What happens without force keeps what is known of shared scopes. -/
theorem Move.punctual (hmove : Move c o c') (h : c.Punctual [] []) (hproper : o.IsProper)
    (hforced : ¬ o.IsForced) (hloses : ¬ o.LosesShares) (hhands : ¬ o.HandsBack) :
    c'.Punctual [] [] := by
  cases hmove with
  | acted hu op _ =>
    exact .carryOut _ op ((h.at_of_some hu rfl rfl rfl).run rfl h.settings op hproper hforced)
  | @handled id u hu m mail htakes =>
    refine .carryOut u (.handle m) ?_
    cases m with
    | start roots =>
      exact h.start hu htakes rfl rfl rfl fun hlibrary i hi ↦ hhands ⟨hlibrary, roots, rfl, i, hi⟩
    | unitStarted | initShare | addShare | addEdge | closeEdge | closeScope | query |
      queryPrevious | confirm | counterpart => exact h.handle hu htakes rfl rfl rfl rfl
  | dropped hunits hsetup hmail =>
    exact h.dropped hunits hsetup hmail fun id m hm hshares ↦ hloses ⟨id, m, hm, hshares⟩
  | other hunits hsetup hmail => exact h.other hunits hsetup hmail

theorem Course.punctual (hcourse : Course c tr c') (h : c.Punctual [] [])
    (htr : ∀ x ∈ tr, x.1.IsProper ∧ ¬ x.1.IsForced ∧ ¬ x.1.LosesShares ∧ ¬ x.1.HandsBack) :
    c'.Punctual [] [] := by
  induction hcourse with
  | nil => exact h
  | cons hmove _ ih =>
    obtain ⟨⟨hproper, hforced, hloses, hhands⟩, htr⟩ := List.forall_mem_cons.1 htr
    exact ih (hmove.punctual h hproper hforced hloses hhands) htr

/-- **No edge arrives late.** In every course of a run without reuse, as long as nothing is closed
by force, no news of shared scopes is dropped and no library is handed a scope that it would make
for itself, an edge is handled by the owner of its source, which has its label open. -/
theorem Course.isOpen_of_handled {setup : Setup} (hsettings : setup.settings.incremental = false)
    {root : UnitId} {code : γ} {previous : Option Report}
    (hcourse : Course (start setup root code previous) tr c)
    (htr : ∀ x ∈ tr, x.1.IsProper ∧ ¬ x.1.IsForced ∧ ¬ x.1.LosesShares ∧ ¬ x.1.HandsBack)
    {u : UnitNode γ} {sender : UnitId} {e : Edge} (hmove : Move c (.handled u (.addEdge sender e)) c') :
    u.id = e.source.owner ∧ u.waits.isOpen e.source (.edge e.label) = true := by
  have hpunctual := hcourse.punctual (punctual_start hsettings root code previous) htr
  cases hmove with
  | @handled id u hu m mail htakes =>
    have hcoming : c.coming [] id = .addEdge sender e :: (mail.box id ++ c.mail.parkedFor id) := by
      rw [coming_nil, Mailboxes.queue, htakes.box]
      rfl
    have howner : e.source.owner = id := by
      refine (hcourse.accounts (accounts_start setup root code previous)).addressed id e ⟨sender, ?_⟩
      rw [hcoming]
      exact List.mem_cons_self
    have hcovered := hpunctual.covered id
    rw [hcoming, tally_of_some hu] at hcovered
    refine ⟨(hpunctual.housed.filed id u hu).trans howner.symm, ?_⟩
    rcases hcovered.1.2 with hinits | hopens
    · exact TokenBag.isOpen_of_count hinits (decide_eq_true rfl)
    · exact TokenBag.isOpen_of_count hopens (by simp [Token.keepsOpen])

/-! ### Units that share scopes -/

private def chief : UnitId := ⟨"main"⟩

/-- A run that is about to begin. -/
private def opening : Core Unit := start ⟨.nonIncremental, ["E"], 0⟩ chief () none

/-- A unit that runs a checker is handed no scopes of a library. -/
private theorem not_handsBack {u : UnitNode Unit} {m : Message} (h : u.kind.isChecker = true) :
    ¬ (Occurrence.handled u m).HandsBack := by
  rintro ⟨hlibrary, -⟩
  cases hkind : u.kind with
  | checker | phantom =>
    rw [hkind] at hlibrary
    exact hlibrary
  | library =>
    rw [hkind] at h
    exact absurd h nofun

private def helper : UnitId := chief.child "helper"

private def lent : Scope := ⟨chief, "s-0"⟩

/-- An edge that the helper asserts on the scope that it was handed. -/
private def helpful : Edge := ⟨lent, "E", ⟨helper, "t-0"⟩⟩

/-- The main unit has handed a scope to a helper. -/
private def lending : Core Unit :=
  acts (acts (receives opening) chief (.freshScope "s" [] false true)) chief
    (.addSubUnit "helper" (.checker ()) [lent] false)

/-- The helper has initialised the scope and asserted the edge. -/
private def helping : Core Unit :=
  acts (acts (receives lending) helper (.initScope lent ["E"] false)) helper (.addEdge helpful)

/-- The edge is about to arrive. -/
private def helped : Core Unit := receives (receives helping)

/-- The edge of the helper arrives while the main unit waits for the helper to close the label. -/
theorem Course.isOpen_of_handled_helpful : ∃ tr : List (Occurrence Unit × Core Unit),
    Course opening tr helped ∧
      Move helped (.handled (receiver helped) (.addEdge helper helpful)) (receives helped) ∧
      (receiver helped).waits.isOpen lent (.edge "E") = true := by
  let Quiet (o : Occurrence Unit) : Prop :=
    o.IsProper ∧ ¬ o.IsForced ∧ ¬ o.LosesShares ∧ ¬ o.HandsBack
  have hbegun : LeadsTo Quiet opening (receives opening) := (LeadsTo.refl opening).receives (by rfl)
    (by rfl) ⟨trivial, not_false, not_false, not_handsBack (by rfl)⟩
  have hlending : LeadsTo Quiet opening lending :=
    (hbegun.acts chief (.freshScope "s" [] false true) (by rfl)
      ⟨trivial, not_false, not_false, not_false⟩).acts chief
        (.addSubUnit "helper" (.checker ()) [lent] false) (by rfl)
        ⟨nofun, not_false, not_false, not_false⟩
  have hstarted : LeadsTo Quiet opening (receives lending) := hlending.receives (by rfl) (by rfl)
    ⟨trivial, not_false, not_false, not_handsBack (by rfl)⟩
  have hhelping : LeadsTo Quiet opening helping :=
    (hstarted.acts helper (.initScope lent ["E"] false) (by rfl)
      ⟨trivial, not_false, not_false, not_false⟩).acts helper (.addEdge helpful) (by rfl)
        ⟨trivial, not_false, not_false, not_false⟩
  obtain ⟨tr, hcourse, htr⟩ : LeadsTo Quiet opening helped :=
    (hhelping.receives (by rfl) (by rfl)
      ⟨trivial, not_false, not_false, not_handsBack (by rfl)⟩).receives (by rfl) (by rfl)
      ⟨trivial, not_false, not_false, not_handsBack (by rfl)⟩
  have harrives : Move helped (.handled (receiver helped) (.addEdge helper helpful))
      (receives helped) := by
    have hmessage : (delivery helped).1.2 = .addEdge helper helpful := by rfl
    exact hmessage ▸ move_receives (by rfl) (by rfl)
  exact ⟨tr, hcourse, harrives, (hcourse.isOpen_of_handled (by rfl) htr harrives).2⟩

/-! ### Edges that arrive late -/

/-- In some run without reuse, an edge arrives when its label is not open, although nothing has
happened but what satisfies a condition. -/
def ArrivesLate (P : Occurrence Unit → Prop) : Prop :=
  ∃ (setup : Setup) (root : UnitId), setup.settings.incremental = false ∧
    ∃ (c c' : Core Unit) (u : UnitNode Unit) (sender : UnitId) (e : Edge),
      LeadsTo P (start setup root () none) c ∧ Move c (.handled u (.addEdge sender e)) c' ∧
        u.id = e.source.owner ∧ u.waits.isOpen e.source (.edge e.label) = false

private theorem arrivesLate_of {P : Occurrence Unit → Prop} {c : Core Unit} {sender : UnitId}
    {e : Edge} (h : LeadsTo P opening c) (hnext : c.mail.next.isSome = true)
    (hid : c.units.contains (delivery c).1.1 = true)
    (hmessage : (delivery c).1.2 = .addEdge sender e) (howner : (receiver c).id = e.source.owner)
    (hclosed : (receiver c).waits.isOpen e.source (.edge e.label) = false) : ArrivesLate P :=
  ⟨_, chief, by rfl, c, receives c, receiver c, sender, e, h, hmessage ▸ move_receives hnext hid,
    howner, hclosed⟩

private def latecomer : UnitId := chief.child "late"

/-- An edge of a scope of a unit that is yet to be added. -/
private def early : Edge := ⟨⟨latecomer, "s-0"⟩, "E", ⟨chief, "t-0"⟩⟩

/-- The main unit has initialised the scope, and the news is dropped. -/
private def unheard : Core Unit :=
  (acts (receives opening) chief (.initScope early.source ["E"] false)).dropParked

/-- The unit has been added, and the main unit has asserted the edge. -/
private def unexpected : Core Unit :=
  acts (acts unheard chief (.addSubUnit "late" (.checker ()) [] false)) chief (.addEdge early)

private def server : UnitId := chief.child "lib"

/-- A library that is handed its own scope. -/
private def circular : Library :=
  ⟨[⟨⟨"lib"⟩, "root"⟩], .of [⟨⟨chief, "s-0"⟩, "E", ⟨⟨"lib"⟩, "root"⟩⟩] []⟩

/-- The main unit has added a unit that serves the library. -/
private def serving : Core Unit :=
  acts (receives opening) chief
    (.addSubUnit "lib" (.library circular) [Library.freshScope server 0] false)

/-- **Edges may arrive late without force**, if the news of a shared scope was dropped, and if a
library was handed a scope that it makes for itself. -/
theorem arrivesLate_of_losesShares_of_handsBack :
    ArrivesLate (fun o ↦ o.IsProper ∧ ¬ o.IsForced ∧ ¬ o.HandsBack) ∧
      ArrivesLate (fun o ↦ o.IsProper ∧ ¬ o.IsForced ∧ ¬ o.LosesShares) := by
  constructor
  · let Quiet (o : Occurrence Unit) : Prop := o.IsProper ∧ ¬ o.IsForced ∧ ¬ o.HandsBack
    have hbegun : LeadsTo Quiet opening (receives opening) := (LeadsTo.refl opening).receives (by rfl)
      (by rfl) ⟨trivial, not_false, not_handsBack (by rfl)⟩
    have hunheard : LeadsTo Quiet opening unheard :=
      (hbegun.acts chief (.initScope early.source ["E"] false) (by rfl)
        ⟨trivial, not_false, not_false⟩).move (.dropped (by rfl) (by rfl) (by rfl))
        ⟨trivial, not_false, not_false⟩
    have hunexpected : LeadsTo Quiet opening unexpected :=
      (hunheard.acts chief (.addSubUnit "late" (.checker ()) [] false) (by rfl)
        ⟨nofun, not_false, not_false⟩).acts chief (.addEdge early) (by rfl)
        ⟨trivial, not_false, not_false⟩
    have hstarted : LeadsTo Quiet opening (receives unexpected) :=
      hunexpected.receives (by rfl) (by rfl) ⟨trivial, not_false, not_handsBack (by rfl)⟩
    exact arrivesLate_of (e := early) hstarted (by rfl) (by rfl) (by rfl) (by rfl) (by rfl)
  · let Quiet (o : Occurrence Unit) : Prop := o.IsProper ∧ ¬ o.IsForced ∧ ¬ o.LosesShares
    have hbegun : LeadsTo Quiet opening (receives opening) := (LeadsTo.refl opening).receives (by rfl)
      (by rfl) ⟨trivial, not_false, not_false⟩
    have hserving : LeadsTo Quiet opening serving :=
      hbegun.acts chief (.addSubUnit "lib" (.library circular) [Library.freshScope server 0] false)
        (by rfl) ⟨nofun, not_false, not_false⟩
    -- The library is announced to itself before it is started.
    have hstarted : LeadsTo Quiet opening (receives (receives serving)) :=
      (hserving.receives (by rfl) (by rfl) ⟨trivial, not_false, not_false⟩).receives (by rfl) (by rfl)
        ⟨trivial, not_false, not_false⟩
    have hknown : LeadsTo Quiet opening (receives (receives (receives serving))) :=
      hstarted.receives (by rfl) (by rfl) ⟨trivial, not_false, not_false⟩
    exact arrivesLate_of (e := ⟨⟨chief, "s-0"⟩, "E", Library.freshScope server 0⟩) hknown (by rfl)
      (by rfl) (by rfl) (by rfl) (by rfl)

end Core

end ScopeGraphs
