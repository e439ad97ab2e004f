import ScopeGraphs.Proofs.Engine.Starting
import ScopeGraphs.Proofs.Engine.Trees

/-!
# Stand-ins that replay

A unit that takes its report of the previous run over adds stand-ins for the sub-units in it and
sends each of them a message to start. When a stand-in handles the message it takes its own report
over, and adds stand-ins in turn. `Core.Rebuilds` says what holds while this goes on, in whichever
order messages arrive: every stand-in has the report of the sub-unit that it stands in for. Either
it has not been started, and then it is going to be started with the previous root scopes, renamed,
or it shows what is in its report, renamed as the unit above has renamed its own.

## The right start

That no other message starts a stand-in is due to its id. It is made from the id of the unit above
and the name of the sub-unit, which no unit gives away twice, and names have no slashes.
-/

namespace ScopeGraphs

variable {γ α : Type}

namespace Occurrence

/-- Whatever is done to a unit is orderly. -/
def IsOrderly : Occurrence γ → Prop
  | acted u op => op.IsOrderly u
  | _ => True

/-- The checker of a unit adds a sub-unit. -/
def AddsSubUnit (x : UnitId) : Occurrence γ → Prop
  | acted u op => u.id = x ∧ op.AddsSubUnit u
  | _ => False

end Occurrence

namespace Core

variable {c c' : Core γ} {id k root x : UnitId} {u v w : UnitNode γ}

/-! ## Units that stand in for others -/

/-- A stand-in waits to be started with the previous root scopes, renamed, or shows what is in its
report, renamed. -/
def Serves (c : Core γ) (k : UnitId) (w : UnitNode γ) (s : Report) (q : Renaming) : Prop :=
  (w.StandsBy s q ∧ ∀ roots, c.StartsWith k roots → roots = s.roots.map q.apply) ∨
  ∃ q', (∀ x, q'.apply x = q.apply x) ∧ w.Copies s q'

/-- A unit stands in for a sub-unit that is in the report that the unit above has taken over. -/
structure StandsIn (c : Core γ) (k : UnitId) (w : UnitNode γ) (p : UnitId) (name : String)
    (r s : Report) (q : Renaming) : Prop where
  parent : w.parent = some p
  id : k = p.child name
  above : ∃ y, c.units[p]? = some y ∧ y.Inherits r q
  sub : r.sub? name = some s
  serves : c.Serves k w s q

/-- The id is that of a sub-unit in the previous report of some unit. -/
def Recalls (c : Core γ) (k : UnitId) : Prop :=
  ∃ (p : UnitId) (y : UnitNode γ) (name : String) (r : Report),
    c.units[p]? = some y ∧ k = p.child name ∧ y.life.Recalls name r

/-- What holds while the previous run of a unit is replayed whose checker adds no sub-units. -/
structure Rebuilds (c : Core γ) (root x : UnitId) : Prop where
  housed : c.Housed
  family : c.lives.IsFamily root
  /-- Only units that exist are told to start. -/
  known : ∀ (k : UnitId) (roots : List Scope), c.StartsWith k roots → ∃ w, c.units[k]? = some w
  /-- Units that have not been started are going to be. -/
  coming : c.StartsAll
  /-- A checker whose previous result is reused has taken its report over. -/
  inherits : ∀ (k : UnitId) (u : UnitNode γ) (q : Renaming), c.units[k]? = some u →
    u.kind.isChecker = true → u.reuse = some q → ∃ r, u.Inherits r q
  /-- Whoever is there to replay stands in for a sub-unit. -/
  standIns : ∀ (k : UnitId) (w : UnitNode γ), c.units[k]? = some w → w.kind = .phantom true →
    ∃ p name r s q, c.StandsIn k w p name r s q
  /-- The unit, and all units without a checker, have no other sub-units. -/
  others : ∀ (k p : UnitId) (w y : UnitNode γ), c.units[k]? = some w → w.parent = some p →
    c.units[p]? = some y → p = x ∨ y.kind.isChecker = false → w.kind = .phantom true
  /-- Units that nobody has added have been added for sub-units that were there before. -/
  orphans : ∀ (k : UnitId) (w : UnitNode γ), c.units[k]? = some w → w.parent = none →
    k = root ∨ c.Recalls k

/-! ## One go -/

/-- What a unit does in one go, as far as stand-ins are concerned. Those that it adds are sub-units,
of this run or of the previous one. -/
structure Goes (c : Core γ) (id : UnitId) (u v : UnitNode γ) (started : Option (List Scope))
    (js : List (UnitNode γ × List Scope)) (c' : Core γ) : Prop
    extends Starts c id u v started js c' where
  added : ∀ j ∈ js, ∃ name, j.1.id = id.child name ∧ u.subUnits[name]? = none ∧
    IsPlainName name ∧ (j.1.parent = some id ∨
      j.1.parent = none ∧ j.1.kind ≠ .phantom true ∧ ∃ r, u.life.Recalls name r)

namespace Goes

variable {started : Option (List Scope)} {js : List (UnitNode γ × List Scope)}

/-- If those that are added are there to replay, as it was before, then all sub-units are. -/
theorem others (h : c.Goes id u v started js c') (hfamily : c.lives.IsFamily root) {p : UnitId}
    {y : UnitNode γ} (hw : c'.units[k]? = some w) (hparent : w.parent = some p)
    (hy : c'.units[p]? = some y)
    (hold : ∀ w₀ y₀, c.units[k]? = some w₀ → w₀.parent = some p → c.units[p]? = some y₀ →
      y₀.kind = y.kind → w₀.kind = .phantom true)
    (hnew : id = p → y = v → ∀ j ∈ js, j.1.parent = some p → j.1.kind = .phantom true) :
    w.kind = .phantom true := by
  obtain ⟨w₀, hw₀, hlater⟩ | ⟨-, j, hj, rfl, -⟩ := h.before hw
  · have hparent₀ : w₀.parent = some p := hlater.parent.symm.trans hparent
    obtain ⟨_, _, hp, -⟩ := hfamily.parent (lives_of_unit hw₀) hparent₀
    obtain ⟨y₀, hy₀, -⟩ := exists_of_lives hp
    obtain ⟨y', hy', hlater'⟩ := h.after hy₀
    obtain rfl := Option.some.inj (hy.symm.trans hy')
    exact hlater.kind.trans (hold w₀ y₀ hw₀ hparent₀ hy₀ hlater'.kind.symm)
  · obtain ⟨-, -, -, -, hchild | ⟨hnone, -⟩⟩ := h.added j hj
    · obtain rfl := Option.some.inj (hchild.symm.trans hparent)
      obtain rfl := Option.some.inj (h.carries.changed.symm.trans hy)
      exact hnew rfl rfl j hj hchild
    · exact nomatch hnone.symm.trans hparent

/-- Nobody is there without a parent but for sub-units of before. -/
theorem orphans (h : c.Goes id u v started js c')
    (horphans : ∀ (k : UnitId) (w : UnitNode γ), c.units[k]? = some w → w.parent = none →
      k = root ∨ c.Recalls k)
    (hw : c'.units[k]? = some w) (hparent : w.parent = none) : k = root ∨ c'.Recalls k := by
  obtain ⟨w₀, hw₀, hlater⟩ | ⟨-, j, hj, rfl, rfl⟩ := h.before hw
  · refine (horphans k w₀ hw₀ (hlater.parent.symm.trans hparent)).imp_right ?_
    rintro ⟨p, y, name, r, hy, heq, hr⟩
    obtain ⟨y', hy', hlater'⟩ := h.after hy
    exact ⟨p, y', name, r, hy', heq, hlater'.recalls hr⟩
  · obtain ⟨name, heq, -, -, hchild | ⟨-, -, r, hr⟩⟩ := h.added j hj
    · exact nomatch hchild.symm.trans hparent
    · exact .inr ⟨id, v, name, r, h.carries.changed, heq, h.precedes.recalls hr⟩

/-- A unit with a parent is not added again, so it is not told to start again. -/
theorem startsWith_of_parent (h : c.Goes id u v started js c') (hfamily : c.lives.IsFamily root)
    (hw : c.units[k]? = some w) {p : UnitId} (hparent : w.parent = some p) {roots : List Scope}
    (hroots : c'.StartsWith k roots) : c.StartsWith k roots := by
  refine (h.comes k roots hroots).resolve_right ?_
  rintro ⟨j, hj, hid, -⟩
  obtain ⟨name, hname, hfree, hplain, -⟩ := h.added j hj
  obtain ⟨y, name', hy, hsub⟩ := hfamily.parent (lives_of_unit hw) hparent
  obtain ⟨hplain', heq, -⟩ := hfamily.child hy hsub
  obtain ⟨rfl, rfl⟩ := UnitId.child_inj hplain hplain' (hname.symm.trans (hid.trans heq))
  obtain rfl := Option.some.inj ((lives_of_unit h.carries.unit).symm.trans hy)
  exact nomatch hfree.symm.trans hsub

/-- A unit that goes on still stands above those that stand in for its sub-units. -/
theorem above (h : c.Goes id u v started js c') {p : UnitId} {r : Report} {q : Renaming}
    (hinherits : u.Inherits r q → v.Inherits r q)
    (habove : ∃ y, c.units[p]? = some y ∧ y.Inherits r q) :
    ∃ y, c'.units[p]? = some y ∧ y.Inherits r q := by
  obtain ⟨y, hy, hr⟩ := habove
  by_cases heq : id = p
  · subst heq
    obtain rfl := Option.some.inj (h.carries.unit.symm.trans hy)
    exact ⟨v, h.carries.changed, hinherits hr⟩
  · exact ⟨y, h.carries.kept heq hy, hr⟩

/-- A unit that has been added stands in for a sub-unit of the one that has added it. -/
theorem standsIn_added (h : c.Goes id u v started js c')
    (hknown : ∀ (k : UnitId) (roots : List Scope), c.StartsWith k roots →
      ∃ w, c.units[k]? = some w) {r : Report} {q : Renaming} (hr : v.Inherits r q)
    (hplain : r.IsPlain) (hjs : ∀ j ∈ js, ∃ name s, r.HasStandIn id q j name s)
    (hnone : c.units[k]? = none) {j : UnitNode γ × List Scope} (hj : j ∈ js) (hid : j.1.id = k) :
    ∃ name s, c'.StandsIn k j.1 id name r s q := by
  obtain ⟨name, s, hstandIn⟩ := hjs j hj
  refine ⟨name, s, hstandIn.parent, hid.symm.trans hstandIn.id, ⟨v, h.carries.changed, hr⟩,
    hstandIn.sub, .inl ⟨hstandIn.standsBy, fun roots hroots ↦ ?_⟩⟩
  obtain hold | ⟨j', hj', hid', rfl⟩ := h.comes k roots hroots
  · obtain ⟨w, hw⟩ := hknown k roots hold
    exact nomatch hnone.symm.trans hw
  · -- If two units of this id are added they stand in for the same sub-unit.
    obtain ⟨name', s', hstandIn'⟩ := hjs j' hj'
    have hchild : id.child name' = id.child name :=
      hstandIn'.id.symm.trans (hid'.trans (hid.symm.trans hstandIn.id))
    obtain ⟨-, rfl⟩ := UnitId.child_inj (hplain.sub? hstandIn'.sub).1 (hplain.sub? hstandIn.sub).1
      hchild
    obtain rfl := Option.some.inj (hstandIn'.sub.symm.trans hstandIn.sub)
    exact hstandIn'.roots

/-- A unit that stands in for another one does so after another unit has gone on. -/
theorem standsIn_kept (h : c.Goes id u v started js c') (hfamily : c.lives.IsFamily root)
    (hw : c.units[k]? = some w) {p : UnitId} {name : String} {r s : Report}
    {q : Renaming} (hinherits : u.Inherits r q → v.Inherits r q)
    (hstandsIn : c.StandsIn k w p name r s q) : c'.StandsIn k w p name r s q := by
  refine { hstandsIn with above := h.above hinherits hstandsIn.above, serves := ?_ }
  refine hstandsIn.serves.imp_left fun ⟨hstandsBy, hall⟩ ↦ ⟨hstandsBy, fun roots hroots ↦ ?_⟩
  exact hall roots (h.startsWith_of_parent hfamily hw hstandsIn.parent hroots)

/-- So does one that goes on itself. -/
theorem standsIn_self (h : c.Goes id u v started js c') (hfamily : c.lives.IsFamily root)
    {p : UnitId} {name : String} {r s : Report} {q : Renaming}
    (hinherits : u.Inherits r q → v.Inherits r q)
    (hcopies : ∀ q', u.Copies s q' → v.Copies s q')
    (hstandsBy : u.StandsBy s q → (∀ roots ∈ started, roots = s.roots.map q.apply) →
      v.StandsBy s q ∨ ∃ q', (∀ x, q'.apply x = q.apply x) ∧ v.Copies s q')
    (hstarted : ∀ roots ∈ started, c.StartsWith id roots)
    (hstandsIn : c.StandsIn id u p name r s q) : c'.StandsIn id v p name r s q := by
  refine ⟨h.precedes.parent.trans hstandsIn.parent, hstandsIn.id,
    h.above hinherits hstandsIn.above, hstandsIn.sub, ?_⟩
  obtain ⟨hwaits, hall⟩ | ⟨q', hq', hshows⟩ := hstandsIn.serves
  · refine (hstandsBy hwaits fun roots hmem ↦ hall roots (hstarted roots hmem)).imp_left
      fun hstill ↦ ⟨hstill, fun roots hroots ↦ hall roots ?_⟩
    exact h.startsWith_of_parent hfamily h.carries.unit hstandsIn.parent hroots
  · exact .inr ⟨q', hq', hcopies q' hshows⟩

end Goes

namespace Rebuilds

variable {mail : Mailboxes Message} {op : UnitOp γ α}

/-- What a unit does in one go, whether it handles a message or not. -/
theorem exists_goes (h : c.Rebuilds root x) (hu : c.units[id]? = some u)
    (hmail : ({ c with mail := mail } : Core γ).Housed)
    (hstart : ∀ (k : UnitId) (roots : List Scope), c.StartsWith k roots ↔
      (id = k ∧ op.roots? = some roots) ∨ Message.start roots ∈ mail.queue k)
    (hop : op.IsOrderly u) :
    let t := ({ c with mail := mail } : Core γ).turnOf u op
    ∃ js, c.Goes id u t.unit op.roots? js (({ c with mail := mail } : Core γ).carryOut id u op) ∧
      t.effects.newUnits = js.map Prod.fst ∧ ((∀ j ∈ js, j.1.kind ≠ .phantom true) ∨
        ∃ r q, t.unit.Inherits r q ∧ ∀ j ∈ js, ∃ name s, r.HasStandIn id q j name s) := by
  intro t
  obtain rfl := h.housed.filed id u hu
  have hsound : u.life.IsSound := h.family.sound (lives_of_unit hu)
  have hstands (hphase : u.phase = .created) (hkind : u.kind = .phantom true) :
      ∃ r p, u.StandsBy r p := by
    obtain ⟨p, name, r, s, q, hstandsIn⟩ := h.standIns u.id u hu hkind
    obtain ⟨hstandsBy, -⟩ | ⟨q', -, hcopies⟩ := hstandsIn.serves
    · exact ⟨s, q, hstandsBy⟩
    · exact absurd hphase hcopies.started
  obtain ⟨js, hadds, hjs⟩ := op.exists_adds_standIns c.setup.settings c.channels c.nextRequest
    hsound hop hstands
  have hnew : t.effects.newUnits = js.map Prod.fst := hadds.newUnits
  refine ⟨js, ⟨starts_carryOut hu rfl hmail hstart hsound hop hadds, fun j hj ↦ ?_⟩, hnew, hjs⟩
  obtain ⟨y, hproceeds, -⟩ := op.exists_proceeds hsound hop (N := IsPlainName)
    (.inl fun _ hname ↦ hname) c.setup.settings c.channels c.nextRequest
  have hmem : j.1 ∈ t.effects.newUnits := hnew ▸ List.mem_map_of_mem hj
  obtain ⟨name, hid, hfree, hadded⟩ := hproceeds.added j.1 hmem
  have hplain {r : Report} (hr : u.life.Recalls name r) : IsPlainName name :=
    (h.family.plain_of_recalls (lives_of_unit hu) hr).1
  obtain ⟨hparent, ⟨hname, -⟩ | ⟨-, r, hr⟩⟩ | ⟨hparent, hkind, r, hr⟩ := hadded
  · exact ⟨name, hid, hfree, hname, .inl hparent⟩
  · exact ⟨name, hid, hfree, hplain hr, .inl hparent⟩
  · exact ⟨name, hid, hfree, hplain hr, .inr ⟨hparent, hkind ▸ nofun, r, hr⟩⟩

/-- **One go.** What a unit does leaves everything as it should be, if it does what happens in runs
and does not add a sub-unit for the checker in question. -/
theorem carryOut (h : c.Rebuilds root x) (hu : c.units[id]? = some u)
    (hmail : ({ c with mail := mail } : Core γ).Housed)
    (hstart : ∀ (k : UnitId) (roots : List Scope), c.StartsWith k roots ↔
      (id = k ∧ op.roots? = some roots) ∨ Message.start roots ∈ mail.queue k)
    (hop : op.IsOrderly u) (hx : u.id = x → ¬ op.AddsSubUnit u) :
    (({ c with mail := mail } : Core γ).carryOut id u op).Rebuilds root x := by
  obtain ⟨js, hgoes, hnew, hjs⟩ := h.exists_goes hu hmail hstart hop
  obtain rfl := h.housed.filed id u hu
  have hsound : u.life.IsSound := h.family.sound (lives_of_unit hu)
  have hinherits {r : Report} {q : Renaming} (hr : u.Inherits r q) :=
    op.inherits_run c.setup.settings c.channels c.nextRequest hr hsound hop
  obtain ⟨z, hproceeds, hcomes⟩ := op.exists_proceeds hsound hop (N := IsPlainName)
    (.inl fun _ hname ↦ hname) c.setup.settings c.channels c.nextRequest
  constructor
  case housed => exact hmail.carryOut hu op
  case family =>
    have hgrown := hproceeds.isFamily h.family (lives_of_unit hu)
    exact hgoes.carries.family_comes hcomes (hnew ▸ hgrown)
  case known => exact fun k roots hroots ↦ hgoes.known h.known hroots
  case coming =>
    refine hgoes.startsAll h.coming fun roots hroots ↦ ?_
    exact op.phase_run_of_roots? _ _ _ hroots
  case inherits =>
    intro k w q hw hkind hreuse
    obtain ⟨rfl, rfl⟩ | ⟨-, hold⟩ | ⟨-, -, hmem, -⟩ := hgoes.carries.cases hw
    · have hchecker : u.kind.isChecker = true :=
        (congrArg UnitKind.isChecker hgoes.precedes.kind).symm.trans hkind
      exact op.exists_inherits_run c.setup.settings c.channels c.nextRequest hsound hop hchecker
        (fun q ↦ h.inherits u.id u q hu hchecker) hreuse
    · exact h.inherits k w q hold hkind hreuse
    · have hnone : w.reuse = none := (hproceeds.newborn w (hnew ▸ hmem)).reuse hkind
      exact nomatch hnone.symm.trans hreuse
  case standIns =>
    intro k w hw hkind
    obtain ⟨rfl, rfl⟩ | ⟨hne, hold⟩ | ⟨-, hnone, hmem, hid⟩ := hgoes.carries.cases hw
    · have hreplays : u.kind = .phantom true := hgoes.precedes.kind.symm.trans hkind
      obtain ⟨p, name, r, s, q, hstandsIn⟩ := h.standIns u.id u hu hreplays
      refine ⟨p, name, r, s, q, hgoes.standsIn_self h.family hinherits (fun q' hcopies ↦ ?_)
        (fun hstandsBy hroots ↦ ?_) (fun roots hroots ↦ ?_) hstandsIn⟩
      · exact op.copies_run _ _ _ hcopies hreplays hop
      · exact op.standsBy_run _ _ _ hstandsBy hreplays hsound hop hroots
      · exact (hstart u.id roots).2 (.inl ⟨rfl, hroots⟩)
    · obtain ⟨p, name, r, s, q, hstandsIn⟩ := h.standIns k w hold hkind
      exact ⟨p, name, r, s, q, hgoes.standsIn_kept h.family hold hinherits hstandsIn⟩
    · obtain ⟨j, hj, rfl⟩ := List.mem_map.1 hmem
      obtain hnot | ⟨r, q, hr, hall⟩ := hjs
      · exact absurd hkind (hnot j hj)
      · have hprevious : u.previous = some r := hgoes.precedes.previous.symm.trans hr.previous
        have hplain : r.IsPlain := h.family.plain (lives_of_unit hu) hprevious
        obtain ⟨name, s, hstandsIn⟩ :=
          hgoes.standsIn_added h.known hr hplain hall hnone hj hid
        exact ⟨u.id, name, r, s, q, hstandsIn⟩
  case others =>
    intro k p w y hw hparent hy hothers
    refine hgoes.others h.family hw hparent hy (fun w₀ y₀ hw₀ hparent₀ hy₀ hkind ↦ ?_) ?_
    · exact h.others k p w₀ y₀ hw₀ hparent₀ hy₀ (hkind.symm ▸ hothers)
    · rintro rfl rfl j hj hchild
      refine op.kind_of_not_addsSubUnit hsound hop (fun hadds ↦ ?_) c.setup.settings c.channels
        c.nextRequest (hnew ▸ List.mem_map_of_mem hj) hchild
      obtain heq | hkind := hothers
      · exact hx heq hadds
      · have hsame := congrArg UnitKind.isChecker hgoes.precedes.kind
        exact nomatch (hadds.isChecker hop).symm.trans (hsame.symm.trans hkind)
  case orphans => exact fun k w hw hparent ↦ hgoes.orphans h.orphans hw hparent

/-- Nothing happens to units, and the same are going to be started. -/
theorem of_units_eq (h : c.Rebuilds root x) (hhoused : c'.Housed) (hunits : c'.units = c.units)
    (hstarts : ∀ (k : UnitId) (roots : List Scope),
      c'.StartsWith k roots ↔ c.StartsWith k roots) : c'.Rebuilds root x where
  housed := hhoused
  family := by
    rw [lives_of_units_eq hunits]
    exact h.family
  known k roots hroots := hunits ▸ h.known k roots ((hstarts k roots).1 hroots)
  coming k w hw hcreated := by
    obtain ⟨roots, hroots⟩ := h.coming k w (hunits ▸ hw) hcreated
    exact ⟨roots, (hstarts k roots).2 hroots⟩
  inherits k u q hu := h.inherits k u q (hunits ▸ hu)
  standIns k w hw hkind := by
    obtain ⟨p, name, r, s, q, hstandsIn⟩ := h.standIns k w (hunits ▸ hw) hkind
    refine ⟨p, name, r, s, q, { hstandsIn with above := ?_, serves := ?_ }⟩
    · rw [hunits]
      exact hstandsIn.above
    · rw [Serves]
      simp only [hstarts]
      exact hstandsIn.serves
  others k p w y hw hparent hy := h.others k p w y (hunits ▸ hw) hparent (hunits ▸ hy)
  orphans k w hw := by
    rw [Recalls, hunits]
    exact h.orphans k w (hunits ▸ hw)

/-- What is parked is not for units that exist, so no start is dropped. -/
theorem dropped (h : c.Rebuilds root x) (hunits : c'.units = c.units)
    (hmail : c'.mail = c.mail.dropParked.2) : c'.Rebuilds root x := by
  refine h.of_units_eq (h.housed.dropped hunits hmail) hunits fun k roots ↦ ?_
  have hqueue : c'.mail.queue k = c.mail.box k := by
    rw [hmail, Mailboxes.queue, Mailboxes.parkedFor_dropParked, List.append_nil]
    rfl
  rw [StartsWith, hqueue]
  constructor
  · exact fun hroots ↦ List.mem_append_left _ hroots
  · intro hroots
    obtain ⟨w, hw⟩ := h.known k roots hroots
    rwa [StartsWith, Mailboxes.queue, h.housed.parked k w hw, List.append_nil] at hroots

/-- **One move.** In a run in which the checker of a unit adds no sub-units, everything stays as it
should be. -/
theorem move {o : Occurrence γ} (h : c.Rebuilds root x) (hmove : Move c o c')
    (ho : o.IsOrderly) (hx : ¬ o.AddsSubUnit x) : c'.Rebuilds root x := by
  cases hmove with
  | acted hu op hop =>
    exact h.carryOut hu h.housed (fun _ _ ↦ startsWith_iff_of_not_isHandling hop) ho
      fun heq hadds ↦ hx ⟨heq, hadds⟩
  | handled hu hmail =>
    exact h.carryOut hu (h.housed.takes hmail) (fun _ _ ↦ startsWith_iff_of_takes hmail) trivial
      fun _ ↦ not_false
  | dropped hunits _ hmail => exact h.dropped hunits hmail
  | other hunits _ hmail =>
    refine h.of_units_eq (h.housed.other hunits hmail) hunits fun k roots ↦ ?_
    rw [StartsWith, hmail, StartsWith]

end Rebuilds

section

variable (setup : Setup) (root : UnitId) (code : γ) {previous : Option Report}

/-- When a run starts there are no stand-ins. -/
theorem rebuilds_start (hprevious : ∀ r, previous = some r → r.IsPlain) (x : UnitId) :
    (start setup root code previous).Rebuilds root x where
  housed := housed_start setup root code previous
  family := (isTree_start hprevious).family
  known k roots hroots :=
    ⟨_, units_start_eq_some_iff.2 ⟨((startsWith_start setup root code).1 hroots).1, rfl⟩⟩
  coming := startsAll_start setup root code
  inherits k u q hu _ hreuse := by
    obtain ⟨-, rfl⟩ := units_start_eq_some_iff.1 hu
    exact nomatch hreuse
  standIns k w hw hkind := by
    obtain ⟨-, rfl⟩ := units_start_eq_some_iff.1 hw
    exact nomatch hkind
  others k p w y hw hparent := by
    obtain ⟨-, rfl⟩ := units_start_eq_some_iff.1 hw
    exact nomatch hparent
  orphans k w hw _ := .inl (units_start_eq_some_iff.1 hw).1.symm

end

/-- **The whole run.** -/
theorem Course.rebuilds {tr : List (Occurrence γ × Core γ)} (hcourse : Course c tr c')
    (h : c.Rebuilds root x) (horderly : ∀ o ∈ tr, o.1.IsOrderly)
    (hadds : ∀ o ∈ tr, ¬ o.1.AddsSubUnit x) : c'.Rebuilds root x := by
  induction hcourse with
  | nil => exact h
  | cons hmove _ ih =>
    obtain ⟨ho, horderly⟩ := List.forall_mem_cons.1 horderly
    obtain ⟨hx, hadds⟩ := List.forall_mem_cons.1 hadds
    exact ih (h.move hmove ho hx) horderly hadds

end Core

end ScopeGraphs
