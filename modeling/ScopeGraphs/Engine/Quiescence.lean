import ScopeGraphs.Engine.Core

/-!
# Quiescence

What is done when no message is left to be handled and no task may go on. In this order, and only
as far as needed: parked messages are dropped, so that whoever waits for an answer to them hears
that there will be none; local phases are ended; deadlocked clusters of units are resolved; and if
nothing helps, the innermost units that have not finished are given up.

A cluster with undecided units is resolved by a common decision about their reuse. In any other
cluster no more input can arrive, so everything that is still open there is closed.
-/

namespace ScopeGraphs

variable {γ : Type}

/-! ## Parked messages -/

/-- The channel on which a message asks for an answer. -/
def Message.reply? : Message → Option ChannelId
  | query _ _ _ c | queryPrevious _ _ _ c | confirm _ _ _ _ _ c | counterpart _ _ c => some c
  | _ => none

namespace Core

/-- Drops the messages to units that do not exist. -/
def dropParked (c : Core γ) : Core γ :=
  let (messages, mail) := c.mail.dropParked
  (messages.filterMap Message.reply?).foldl (fill .hungUp) { c with mail := mail }

/-! ## Local phases -/

/-- Whether the local phase of a unit goes on. -/
def isLocal (u : UnitNode γ) : Bool :=
  u.inLocalPhase && !u.finished && u.phase ≠ .created && u.kind.isChecker

/-- The units whose local phase goes on. -/
def localUnits (c : Core γ) : List UnitId :=
  c.units.toList.filterMap fun e ↦ if isLocal e.2 then some e.1 else none

/-- Ends the local phases of several units. -/
def endLocalPhases (c : Core γ) (us : List UnitId) : Core γ :=
  us.foldl (fun c u ↦ (c.atUnit u .endLocalPhase).2) c

/-! ## Clusters -/

/-- Tells units to reuse their previous results under a renaming; the answer is the number of those
that do. -/
def releaseAll (p : Renaming) (c : Core γ) : List UnitId → Nat × Core γ
  | [] => (0, c)
  | u :: us =>
    match c.atUnit u (.release p) with
    | (.ok true, c) =>
      let (n, c) := releaseAll p { c with detector := c.detector.countRelease } us
      (n + 1, c)
    | (_, c) => releaseAll p c us

/-- Tells units to run; the answer is the number of those that do so from now on. -/
def restartAll (c : Core γ) : List UnitId → Nat × Core γ
  | [] => (0, c)
  | u :: us =>
    match c.atUnit u (.restart .restarted) with
    | (.ok true, c) =>
      let (n, c) := restartAll { c with detector := c.detector.countRestart } us
      (n + 1, c)
    | (_, c) => restartAll c us

/-- Grants the closures of units by force; the answer is their number. -/
def grantAllClosures (c : Core γ) : List UnitId → Nat × Core γ
  | [] => (0, c)
  | u :: us =>
    let (granted, c) := c.atUnit u .grantClosures
    let (n, c) := grantAllClosures c us
    (granted.toOption.getD 0 + n, c)

/-- The renaming under which undecided units can reuse their previous results together with units
of the given stances: none if one of these runs, or if their renamings do not agree. -/
def commonRenaming (stances : List Stance) : Option Renaming :=
  stances.foldl (fun p s ↦
    p.bind fun p ↦
      match s with
      | .running => none
      | .reusing q => p.merge? q
      | .willing => some p) (some .identity)

/-- Resolves a cluster; the answer is the number of things that were done. -/
def resolveCluster (c : Core γ) (cluster : List UnitId) : Nat × Core γ :=
  let members := cluster.filterMap fun id ↦ c.units[id]?
  let undecided := (members.filter fun u ↦ u.phase = .undecided).map UnitNode.id
  if members.length = 1 && undecided.length = 1 && members.all UnitNode.waitsOnlyForActivation then
    c.releaseAll .identity undecided
  else if undecided.isEmpty then
    let (n, c) := c.grantAllClosures (members.map UnitNode.id)
    (n, { c with detector := c.detector.countGrants n })
  else
    match commonRenaming (members.map UnitNode.stance) with
    | some p => c.releaseAll p undecided
    | none => c.restartAll undecided

/-- Resolves several clusters; the answer is the number of things that were done. -/
def resolveClusters (c : Core γ) : List (List UnitId) → Nat × Core γ
  | [] => (0, c)
  | cluster :: rest =>
    let (m, c) := c.resolveCluster cluster
    let (n, c) := c.resolveClusters rest
    (m + n, c)

/-! ## Resolution -/

/-- Whether a message is left to be handled or a task may go on. -/
def hasWork (c : Core γ) : Bool := !c.mail.isIdle || c.executor.hasReady

/-- Tries to let the units go on; the answer tells whether anything was done. -/
def resolveQuiescence (c : Core γ) : Bool × Core γ :=
  if !c.mail.parked.isEmpty then (true, c.dropParked)
  else if !c.localUnits.isEmpty then (true, c.endLocalPhases c.localUnits)
  else
    let (clusters, detector) := c.detector.detect
    let (n, c) := { c with detector := detector }.resolveClusters clusters
    (0 < n || c.hasWork, c)

/-- The units that have not finished although all their sub-units have. -/
def innermostUnfinished (c : Core γ) : List UnitId :=
  let unfinished := c.units.toList.filter fun e ↦ !e.2.finished
  let ids := SortedSet.ofList (unfinished.map Prod.fst)
  unfinished.filterMap fun e ↦
    if (e.2.subUnits.toList.map Prod.snd).any fun s ↦ ids.contains s then none else some e.1

/-- Gives up the innermost units that have not finished; the answer tells whether there are any. -/
def failStuckUnits (c : Core γ) : Bool × Core γ :=
  let stuck := c.innermostUnfinished
  (!stuck.isEmpty, stuck.foldl (fun c u ↦ (c.atUnit u .failStuck).2) c)

end Core

end ScopeGraphs
