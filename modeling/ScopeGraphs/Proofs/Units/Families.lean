import ScopeGraphs.Proofs.Units.Lives

/-!
# Families of units

Units form a tree: the root unit adds sub-units, these add their own, and a sub-unit has its name in
its id, behind the id of its parent. What a unit knows about its sub-units is part of its life: the
ids they got and the reports they have handed in. The lives of all units together form a *family*
(`Lives.IsFamily`) if names and ids match, and reports are *filed* (`Lives.IsFiled`) if all units
that have finished have their reports filed with their parents, under their names. A report may
still be on its way up, so this is relative to the units whose reports wait to be filed.
-/

namespace ScopeGraphs

variable {γ : Type}

/-! ## Names -/

/-- A name without slashes. -/
def IsPlainName (name : String) : Prop := '/' ∉ name.toList

namespace UnitId

variable {p q : UnitId} {m n : String}

/-- A sub-unit is known by its id to the unit that added it. -/
theorem localName_child (p : UnitId) (h : IsPlainName n) : (p.child n).localName = n := by
  have hall : ∀ c ∈ n.toList.reverse, (decide (c ≠ '/')) = true := fun c hc ↦
    decide_eq_true fun heq ↦ h (heq ▸ List.mem_reverse.1 hc)
  have htext : (p.child n).text.toList.reverse =
      n.toList.reverse ++ '/' :: p.text.toList.reverse := by
    simp [child, String.toList_append]
  rw [localName, htext, List.takeWhile_append_of_pos hall, List.takeWhile_cons_of_neg (by simp),
    List.append_nil, List.reverse_reverse, String.ofList_toList]

/-- Different sub-units have different ids, also below different units. -/
theorem child_inj (hm : IsPlainName m) (hn : IsPlainName n) (h : p.child m = q.child n) :
    p = q ∧ m = n := by
  have hname : m = n := by
    rw [← p.localName_child hm, ← q.localName_child hn, h]
  subst hname
  have htext : p.text ++ "/" ++ m = q.text ++ "/" ++ m := congrArg text h
  have hlist := congrArg String.toList htext
  simp only [String.toList_append, List.append_assoc, List.append_cancel_right_eq] at hlist
  refine ⟨?_, rfl⟩
  cases p
  cases q
  exact congrArg UnitId.mk (String.toList_inj.1 hlist)

theorem length_lt_child (p : UnitId) (n : String) : p.text.length < (p.child n).text.length := by
  rw [child, String.length_append, String.length_append]
  have : "/".length = 1 := rfl
  omega

theorem child_ne (p : UnitId) (n : String) : p.child n ≠ p := fun heq ↦ by
  have hlonger := p.length_lt_child n
  rw [heq] at hlonger
  exact Nat.lt_irrefl _ hlonger

end UnitId

/-- A report of a run in which sub-units had names without slashes. -/
inductive Report.IsPlain : Report → Prop where
  | intro {r : Report} (names : ∀ e ∈ r.subs, IsPlainName e.1) (subs : ∀ e ∈ r.subs, e.2.IsPlain) :
      IsPlain r

theorem Report.IsPlain.of_mem {r s : Report} {name : String} (h : r.IsPlain)
    (hmem : (name, s) ∈ r.subs) : IsPlainName name ∧ s.IsPlain := by
  obtain ⟨names, subs⟩ := h
  exact ⟨names _ hmem, subs _ hmem⟩

theorem Report.IsPlain.sub? {r s : Report} {name : String} (h : r.IsPlain)
    (hsub : r.sub? name = some s) : IsPlainName name ∧ s.IsPlain := by
  obtain ⟨before, after, hsubs, -⟩ := List.lookup_eq_some_iff.1 hsub
  refine h.of_mem ?_
  rw [hsubs]
  exact List.mem_append_right _ List.mem_cons_self

/-! ## Families -/

/-- The lives of units by id. -/
abbrev Lives (γ : Type) := UnitId → Option (Life γ)

namespace Lives

variable {root p q k : UnitId} {L : Lives γ} {x y y' z : Life γ} {name : String}

/-! ### Growing -/

/-- A unit goes on, and units are added unless their ids are taken. -/
def grow (L : Lives γ) (id : UnitId) (y : Life γ) (us : List (UnitNode γ)) : Lives γ := fun k ↦
  if id = k then some y else (L k).or ((us.find? fun u ↦ u.id = k).map UnitNode.life)

theorem grow_self (L : Lives γ) (p : UnitId) (y : Life γ) (us : List (UnitNode γ)) :
    L.grow p y us p = some y := if_pos rfl

theorem grow_of_ne (us : List (UnitNode γ)) (hne : p ≠ k) (hx : L k = some x) :
    L.grow p y us k = some x := by
  rw [grow, if_neg hne, hx, Option.some_or]

theorem grow_cases {us : List (UnitNode γ)} (h : L.grow p y us k = some x) :
    (p = k ∧ y = x) ∨ (p ≠ k ∧ L k = some x) ∨
      (p ≠ k ∧ L k = none ∧ ∃ u ∈ us, u.id = k ∧ u.life = x) := by
  rw [grow] at h
  split at h
  · rename_i heq
    exact .inl ⟨heq, Option.some.inj h⟩
  · rename_i hne
    obtain hold | ⟨hnone, hnew⟩ := Option.or_eq_some_iff.1 h
    · exact .inr (.inl ⟨hne, hold⟩)
    · obtain ⟨u, hu, hlife⟩ := Option.map_eq_some_iff.1 hnew
      exact .inr (.inr ⟨hne, hnone, u, List.mem_of_find?_eq_some hu,
        by simpa using List.find?_some hu, hlife⟩)

theorem grow_nil_eq_some_iff :
    L.grow p y [] k = some x ↔ p = k ∧ y = x ∨ p ≠ k ∧ L k = some x := by
  constructor
  · intro h
    obtain hself | hold | ⟨-, -, u, hu, -⟩ := grow_cases h
    · exact .inl hself
    · exact .inr hold
    · exact absurd hu List.not_mem_nil
  · rintro (⟨rfl, rfl⟩ | ⟨hne, hold⟩)
    · exact grow_self ..
    · exact grow_of_ne [] hne hold

theorem grow_grow (L : Lives γ) (p : UnitId) (y z : Life γ) (us vs : List (UnitNode γ)) :
    (L.grow p y us).grow p z vs = L.grow p z (us ++ vs) := by
  funext k
  simp only [grow]
  split
  · rfl
  · rw [Option.or_assoc, List.find?_append, Option.map_or]

/-! ### Families -/

/-- The units below a unit form a family: sub-units are known to the units that added them, and to
nobody else. All names are plain, so the id of a sub-unit tells which one it is. A unit whose id is
that of a sub-unit but which is none stands in for a sub-unit that is gone, and then no sub-unit of
that name is added any more. -/
structure IsFamily (root : UnitId) (L : Lives γ) : Prop where
  filed : ∀ {k : UnitId} {x : Life γ}, L k = some x → x.id = k
  sound : ∀ {k : UnitId} {x : Life γ}, L k = some x → x.IsSound
  plain : ∀ {k : UnitId} {x : Life γ} {r : Report},
    L k = some x → x.previous = some r → r.IsPlain
  long : ∀ {k : UnitId} {x : Life γ}, L k = some x → root.text.length ≤ k.text.length
  origin : ∀ {k : UnitId} {x : Life γ}, L k = some x → k = root ∨
    ∃ (p : UnitId) (y : Life γ) (name : String), L p = some y ∧ IsPlainName name ∧ k = p.child name
  child : ∀ {p k : UnitId} {y : Life γ} {name : String}, L p = some y →
    y.subUnits[name]? = some k → IsPlainName name ∧ k = p.child name ∧
      ∃ x, L k = some x ∧ x.parent = some p
  parent : ∀ {p k : UnitId} {x : Life γ}, L k = some x → x.parent = some p →
    ∃ (y : Life γ) (name : String), L p = some y ∧ y.subUnits[name]? = some k
  orphan : ∀ {p : UnitId} {x y : Life γ} {name : String}, L p = some y → IsPlainName name →
    L (p.child name) = some x → x.parent = none → y.IsBarren ∧ y.subUnits[name]? = none
  removed : ∀ {k : UnitId} {x : Life γ}, L k = some x → x.kind = .phantom false → x.parent = none

/-- A unit that may be added under a name by a unit that goes on. -/
structure Joins (L : Lives γ) (p : UnitId) (y y' : Life γ) (name : String) (u : UnitNode γ) :
    Prop where
  named : IsPlainName name
  id : u.id = p.child name
  fresh : L (p.child name) = none
  born : u.life.IsNewborn
  plain : ∀ r, u.previous = some r → r.IsPlain
  removed : u.kind = .phantom false → u.parent = none
  parent : u.parent = some p ∨ u.parent = none ∧ y'.IsBarren ∧ y.subUnits[name]? = none

namespace IsFamily

/-- Below a unit that is not there, there is nobody. -/
theorem fresh_child (h : IsFamily root L) (hlong : root.text.length ≤ q.text.length)
    (hq : L q = none) (hname : IsPlainName name) : L (q.child name) = none := by
  refine Option.eq_none_iff_forall_ne_some.2 fun x hx ↦ ?_
  obtain heq | ⟨p, y, m, hy, hm, heq⟩ := h.origin hx
  · have hlonger := q.length_lt_child name
    rw [heq] at hlonger
    omega
  · obtain ⟨rfl, -⟩ := UnitId.child_inj hname hm heq
    exact nomatch hq.symm.trans hy

/-- The id of a sub-unit that is still to be added is not taken. -/
theorem free (h : IsFamily root L) (hy : L p = some y) (hname : IsPlainName name)
    (hopen : ¬ y.IsBarren) (hfree : y.subUnits[name]? = none) : L (p.child name) = none := by
  refine Option.eq_none_iff_forall_ne_some.2 fun x hx ↦ ?_
  cases hparent : x.parent with
  | none => exact hopen (h.orphan hy hname hx hparent).1
  | some q =>
    obtain ⟨z, m, hz, hm⟩ := h.parent hx hparent
    obtain ⟨hplain, heq, -⟩ := h.child hz hm
    obtain ⟨rfl, rfl⟩ := UnitId.child_inj hname hplain heq
    obtain rfl := Option.some.inj (hy.symm.trans hz)
    exact nomatch hfree.symm.trans hm

end IsFamily

/-- A unit goes on, and at most one unit is added. If it is a sub-unit then it is the only one that
the unit did not know before. -/
structure Grows (L : Lives γ) (p : UnitId) (y y' : Life γ) (name : String)
    (o : Option (UnitNode γ)) : Prop where
  old : L p = some y
  precedes : y.Precedes y'
  sound : y'.IsSound
  joins : ∀ u ∈ o, Joins L p y y' name u
  subUnits : ∀ (m : String) (k : UnitId), y'.subUnits[m]? = some k ↔ y.subUnits[m]? = some k ∨
    m = name ∧ k = p.child name ∧ ∃ u ∈ o, u.parent = some p

namespace Grows

variable {o : Option (UnitNode γ)} (hg : Grows L p y y' name o)

include hg

theorem cases (hx : L.grow p y' o.toList k = some x) : (p = k ∧ y' = x) ∨ (p ≠ k ∧ L k = some x) ∨
    ∃ u, o = some u ∧ k = p.child name ∧ u.life = x ∧ Joins L p y y' name u := by
  obtain hself | hold | ⟨-, -, u, hu, hid, hlife⟩ := grow_cases hx
  · exact .inl hself
  · exact .inr (.inl hold)
  · have hjoins := hg.joins u (Option.mem_toList.1 hu)
    exact .inr (.inr ⟨u, Option.mem_toList.1 hu, hid.symm.trans hjoins.id, hlife, hjoins⟩)

/-- Whoever is there stays, later in life. -/
theorem stays (hx : L k = some x) : ∃ x', L.grow p y' o.toList k = some x' ∧ x.Precedes x' := by
  by_cases heq : p = k
  · subst heq
    obtain rfl := Option.some.inj (hg.old.symm.trans hx)
    exact ⟨y', grow_self .., hg.precedes⟩
  · exact ⟨x, grow_of_ne _ heq hx, .refl x⟩

/-- Whoever is added is there afterwards. -/
theorem added {u : UnitNode γ} (hu : o = some u) :
    L.grow p y' o.toList (p.child name) = some u.life := by
  have hjoins := hg.joins u hu
  rw [grow, if_neg (p.child_ne name).symm, hjoins.fresh, Option.none_or, hu, Option.toList_some,
    List.find?_singleton, if_pos (by simpa using hjoins.id), Option.map_some]

variable (h : IsFamily root L)

include h

theorem origin (hx : L.grow p y' o.toList k = some x) : k = root ∨
    ∃ (q : UnitId) (z : Life γ) (m : String), L.grow p y' o.toList q = some z ∧
      IsPlainName m ∧ k = q.child m := by
  have htransfer {x : Life γ} (hx : L k = some x) : k = root ∨ ∃ (q : UnitId) (z : Life γ)
      (m : String), L.grow p y' o.toList q = some z ∧ IsPlainName m ∧ k = q.child m := by
    refine (h.origin hx).imp_right fun ⟨q, z, m, hz, hm, heq⟩ ↦ ?_
    obtain ⟨z', hz', -⟩ := hg.stays hz
    exact ⟨q, z', m, hz', hm, heq⟩
  obtain ⟨rfl, -⟩ | ⟨-, hold⟩ | ⟨u, -, rfl, -, hu⟩ := hg.cases hx
  · exact htransfer hg.old
  · exact htransfer hold
  · exact .inr ⟨p, y', name, grow_self .., hu.named, rfl⟩

theorem child {m : String} (hz : L.grow p y' o.toList q = some z) (hm : z.subUnits[m]? = some k) :
    IsPlainName m ∧ k = q.child m ∧ ∃ x, L.grow p y' o.toList k = some x ∧ x.parent = some q := by
  have htransfer {z : Life γ} (hz : L q = some z) (hm : z.subUnits[m]? = some k) :
      IsPlainName m ∧ k = q.child m ∧
        ∃ x, L.grow p y' o.toList k = some x ∧ x.parent = some q := by
    obtain ⟨hplain, heq, x, hx, hparent⟩ := h.child hz hm
    obtain ⟨x', hx', hlater⟩ := hg.stays hx
    exact ⟨hplain, heq, x', hx', hlater.parent.trans hparent⟩
  obtain ⟨rfl, rfl⟩ | ⟨-, hold⟩ | ⟨u, -, -, rfl, hu⟩ := hg.cases hz
  · obtain hold | ⟨rfl, rfl, u, hu, hparent⟩ := (hg.subUnits m k).1 hm
    · exact htransfer hg.old hold
    · exact ⟨(hg.joins u hu).named, rfl, u.life, hg.added hu, hparent⟩
  · exact htransfer hold hm
  · rw [hu.born.subUnits, Std.ExtTreeMap.getElem?_empty] at hm
    exact nomatch hm

theorem parent (hx : L.grow p y' o.toList k = some x) (hparent : x.parent = some q) :
    ∃ (z : Life γ) (m : String), L.grow p y' o.toList q = some z ∧ z.subUnits[m]? = some k := by
  have htransfer {x : Life γ} (hx : L k = some x) (hparent : x.parent = some q) :
      ∃ (z : Life γ) (m : String),
        L.grow p y' o.toList q = some z ∧ z.subUnits[m]? = some k := by
    obtain ⟨z, m, hz, hm⟩ := h.parent hx hparent
    obtain ⟨z', hz', hlater⟩ := hg.stays hz
    exact ⟨z', m, hz', hlater.subUnits m k hm⟩
  obtain ⟨rfl, rfl⟩ | ⟨-, hold⟩ | ⟨u, hu, rfl, rfl, hjoins⟩ := hg.cases hx
  · exact htransfer hg.old (hg.precedes.parent.symm.trans hparent)
  · exact htransfer hold hparent
  · obtain hchild | ⟨hnone, -⟩ := hjoins.parent
    · obtain rfl := Option.some.inj (hchild.symm.trans hparent)
      exact ⟨y', name, grow_self .., (hg.subUnits _ _).2 (.inr ⟨rfl, rfl, u, hu, hchild⟩)⟩
    · exact nomatch hnone.symm.trans hparent

/-- Nobody was there below a unit that has just been added. -/
theorem nobody {u : UnitNode γ} (hu : Joins L p y y' name u) (heq : q = p.child name) {m : String}
    (hm : IsPlainName m) : L (q.child m) = none := by
  subst heq
  have hlong := Nat.le_trans (h.long hg.old) (Nat.le_of_lt (p.length_lt_child name))
  exact h.fresh_child hlong hu.fresh hm

/-- A unit knows no sub-unit of a name under which there is a stand-in for one that is gone. -/
theorem orphan {m : String} (hz : L.grow p y' o.toList q = some z) (hm : IsPlainName m)
    (hx : L.grow p y' o.toList (q.child m) = some x) (hparent : x.parent = none) :
    z.IsBarren ∧ z.subUnits[m]? = none := by
  obtain ⟨rfl, rfl⟩ | ⟨-, hold⟩ | ⟨u, hu, heq, rfl, hjoins⟩ := hg.cases hx
  · obtain ⟨heq, -⟩ | ⟨-, hold⟩ | ⟨v, -, heq, -, hv⟩ := hg.cases hz
    · exact absurd heq (q.child_ne m)
    · exact h.orphan hold hm hg.old (hg.precedes.parent.symm.trans hparent)
    · exact nomatch (hg.nobody h hv heq hm).symm.trans hg.old
  · obtain ⟨rfl, rfl⟩ | ⟨-, hold'⟩ | ⟨v, -, heq, -, hv⟩ := hg.cases hz
    · obtain ⟨hbarren, hnone⟩ := h.orphan hg.old hm hold hparent
      refine ⟨hg.precedes.isBarren hbarren, Option.eq_none_iff_forall_ne_some.2 fun k hk ↦ ?_⟩
      obtain hk | ⟨rfl, -, u, hu, -⟩ := (hg.subUnits m k).1 hk
      · exact nomatch hnone.symm.trans hk
      · exact nomatch (hg.joins u hu).fresh.symm.trans hold
    · exact h.orphan hold' hm hold hparent
    · exact nomatch (hg.nobody h hv heq hm).symm.trans hold
  · obtain ⟨rfl, rfl⟩ := UnitId.child_inj hm hjoins.named heq
    obtain rfl : z = y' := Option.some.inj (hz.symm.trans (grow_self ..))
    obtain hchild | ⟨-, hbarren, hnone⟩ := hjoins.parent
    · exact nomatch hchild.symm.trans hparent
    · refine ⟨hbarren, Option.eq_none_iff_forall_ne_some.2 fun k hk ↦ ?_⟩
      obtain hk | ⟨-, -, v, hv, hchild⟩ := (hg.subUnits m k).1 hk
      · exact nomatch hnone.symm.trans hk
      · obtain rfl := Option.some.inj (hu.symm.trans hv)
        exact nomatch hchild.symm.trans hparent

/-- A family stays one when a unit goes on, with at most one unit added. -/
theorem isFamily : IsFamily root (L.grow p y' o.toList) where
  filed {k x} hx := by
    obtain ⟨rfl, rfl⟩ | ⟨-, hold⟩ | ⟨u, -, rfl, rfl, hu⟩ := hg.cases hx
    · exact hg.precedes.id.trans (h.filed hg.old)
    · exact h.filed hold
    · exact hu.id
  sound {k x} hx := by
    obtain ⟨-, rfl⟩ | ⟨-, hold⟩ | ⟨u, -, -, rfl, hu⟩ := hg.cases hx
    · exact hg.sound
    · exact h.sound hold
    · exact hu.born.isSound
  plain {k x r} hx hr := by
    obtain ⟨-, rfl⟩ | ⟨-, hold⟩ | ⟨u, -, -, rfl, hu⟩ := hg.cases hx
    · exact h.plain hg.old (hg.precedes.previous.symm.trans hr)
    · exact h.plain hold hr
    · exact hu.plain r hr
  long {k x} hx := by
    obtain ⟨rfl, -⟩ | ⟨-, hold⟩ | ⟨u, -, rfl, -, -⟩ := hg.cases hx
    · exact h.long hg.old
    · exact h.long hold
    · exact Nat.le_trans (h.long hg.old) (Nat.le_of_lt (p.length_lt_child name))
  origin := hg.origin h
  child := hg.child h
  parent := hg.parent h
  orphan := hg.orphan h
  removed {k x} hx hkind := by
    obtain ⟨-, rfl⟩ | ⟨-, hold⟩ | ⟨u, -, -, rfl, hu⟩ := hg.cases hx
    · exact hg.precedes.parent.trans
        (h.removed hg.old (hg.precedes.kind.symm.trans hkind))
    · exact h.removed hold hkind
    · exact hu.removed hkind

end Grows

namespace IsFamily

/-- The same if no unit is added. -/
theorem update (h : IsFamily root L) (hy : L p = some y) (hprecedes : y.Precedes y')
    (hsound : y'.IsSound) (hsubs : y'.subUnits = y.subUnits) :
    IsFamily root (L.grow p y' []) := by
  have hg : Grows L p y y' "" none := by
    refine ⟨hy, hprecedes, hsound, fun u hu ↦ absurd hu (Option.not_mem_none u), fun m k ↦ ?_⟩
    rw [hsubs]
    refine (or_iff_left ?_).symm
    rintro ⟨-, -, u, hu, -⟩
    exact absurd hu (Option.not_mem_none u)
  exact hg.isFamily h

/-- A unit has a plain name if it may be added, or may be stood in for. -/
theorem plain_of_recalls (h : IsFamily root L) (hy : L p = some y) {r : Report}
    (hr : y.Recalls name r) : IsPlainName name ∧ r.IsPlain := by
  obtain ⟨previous, hprevious, hmem⟩ := hr
  exact (h.plain hy hprevious).of_mem hmem

/-- A sub-unit is added. -/
theorem join (h : IsFamily root L) (hy : L p = some y) (hopen : ¬ y.IsBarren)
    (hfree : y.subUnits[name]? = none) {u : UnitNode γ} (hid : u.id = p.child name)
    (hparent : u.parent = some p) (hborn : u.life.IsNewborn)
    (hprevious : u.previous = y.previous.bind (·.sub? name))
    (hname : y.MayAdd IsPlainName name u.kind)
    (hprecedes : y.Precedes { y with subUnits := y.subUnits.insert name (p.child name) }) :
    IsFamily root (L.grow p { y with subUnits := y.subUnits.insert name (p.child name) } [u]) := by
  have hplain : IsPlainName name := by
    obtain ⟨hplain, -⟩ | ⟨-, r, hr⟩ := hname
    · exact hplain
    · exact (h.plain_of_recalls hy hr).1
  have hg :
      Grows L p y { y with subUnits := y.subUnits.insert name (p.child name) } name (some u) := by
    refine ⟨hy, hprecedes, { h.sound hy with }, fun v hv ↦ ?_, fun m k ↦ ?_⟩
    · obtain rfl := Option.some.inj hv
      refine ⟨hplain, hid, h.free hy hplain hopen hfree, hborn, fun r hr ↦ ?_, fun hkind ↦ ?_,
        .inl hparent⟩
      · obtain ⟨previous, hpast, hsub⟩ := Option.bind_eq_some_iff.1 (hprevious.symm.trans hr)
        exact ((h.plain hy hpast).sub? hsub).2
      · obtain ⟨-, hne⟩ | ⟨hreplays, -⟩ := hname
        · exact absurd hkind (hne false)
        · exact nomatch hkind.symm.trans hreplays
    · rw [SortedMap.getElem?_insert_eq_some_iff]
      constructor
      · rintro (⟨rfl, rfl⟩ | ⟨-, hold⟩)
        · exact .inr ⟨rfl, rfl, u, rfl, hparent⟩
        · exact .inl hold
      · rintro (hold | ⟨rfl, rfl, -⟩)
        · refine .inr ⟨?_, hold⟩
          rintro rfl
          exact nomatch hfree.symm.trans hold
        · exact .inl ⟨rfl, rfl⟩
  exact hg.isFamily h

/-- A stand-in for a unit that is gone is added, unless there is one. -/
theorem standIn (h : IsFamily root L) (hy : L p = some y) (hbarren : y.IsBarren)
    (hfree : y.subUnits[name]? = none) {r : Report} (hr : y.Recalls name r) :
    IsFamily root
      (L.grow p y [.new (p.child name) none (.phantom false) (some r) false false]) := by
  obtain ⟨hname, hplain⟩ := h.plain_of_recalls hy hr
  cases htaken : L (p.child name) with
  | some z =>
    have hsame : L.grow p y [.new (p.child name) none (.phantom false) (some r) false false] =
        L.grow p y [] := by
      funext k
      simp only [Lives.grow]
      split
      · rfl
      · by_cases heq : p.child name = k
        · rw [← heq, htaken, Option.some_or, Option.some_or]
        · rw [List.find?_singleton, if_neg (by simpa [UnitNode.new] using heq),
            List.find?_nil]
    rw [hsame]
    exact h.update hy (.refl y) (h.sound hy) rfl
  | none =>
    let u : UnitNode γ := .new (p.child name) none (.phantom false) (some r) false false
    have hg : Grows L p y y name (some u) := by
      refine ⟨hy, .refl y, h.sound hy, fun v hv ↦ ?_, fun m k ↦ ?_⟩
      · obtain rfl := Option.some.inj hv
        refine ⟨hname, rfl, htaken, Life.isNewborn_new _ _ _ _ _ _, fun r' hr' ↦ ?_, fun _ ↦ rfl,
          .inr ⟨rfl, hbarren, hfree⟩⟩
        exact Option.some.inj hr' ▸ hplain
      · refine (or_iff_left ?_).symm
        rintro ⟨-, -, u, hu, hparent⟩
        obtain rfl := Option.some.inj hu
        exact nomatch hparent
    exact hg.isFamily h

theorem step (h : IsFamily root L) (hy : L p = some y) {us : List (UnitNode γ)}
    (hstep : Life.Step IsPlainName y us y') : IsFamily root (L.grow p y' us) := by
  have hsound := hstep.isSound (h.sound hy)
  have hprecedes := hstep.precedes
  have hid := h.filed hy
  cases hstep with
  | start | begin | run | hesitate | release | serve | conclude =>
    exact h.update hy hprecedes hsound rfl
  | join hopen hfree hchild hparent hborn hprevious hname =>
    subst hid
    exact h.join hy hopen hfree hchild hparent hborn hprevious hname hprecedes
  | standIn hbarren hfree hr =>
    rw [hid]
    exact h.standIn hy hbarren hfree hr

/-- **Families stay families.** Whatever a unit does in one go, it and the units that it adds form a
family with the others. -/
theorem leads (h : IsFamily root L) (hy : L p = some y) {us : List (UnitNode γ)}
    (hleads : Life.Leads IsPlainName y us y') : IsFamily root (L.grow p y' us) := by
  induction hleads with
  | refl => exact h.update hy (.refl _) (h.sound hy) rfl
  | tail _ hstep ih =>
    have hnext := IsFamily.step ih (grow_self ..) hstep
    rwa [grow_grow] at hnext

/-- Sub-units of one unit have different names. -/
theorem localName_inj (h : IsFamily root L) {k' : UnitId} {x' : Life γ} (hx : L k = some x)
    (hx' : L k' = some x') (hparent : x.parent = some p) (hparent' : x'.parent = some p)
    (hsame : k.localName = k'.localName) : k = k' := by
  obtain ⟨z, name, hz, hname⟩ := h.parent hx hparent
  obtain ⟨z', name', hz', hname'⟩ := h.parent hx' hparent'
  obtain ⟨hplain, rfl, -⟩ := h.child hz hname
  obtain ⟨hplain', rfl, -⟩ := h.child hz' hname'
  rw [p.localName_child hplain, p.localName_child hplain'] at hsame
  rw [hsame]

end IsFamily

/-! ### Reports -/

/-- Reports are filed where they belong: a unit has the reports of its sub-units, each under its
name, except for those that are still waiting to be handed on, and no others. A unit that has
finished has them all. -/
structure IsFiled (L : Lives γ) (waiting : UnitId → Prop) : Prop where
  kept : ∀ {p : UnitId} {y : Life γ} {name : String} {r : Report}, L p = some y →
    y.subReports[name]? = some r →
      ∃ k x, y.subUnits[name]? = some k ∧ L k = some x ∧ x.report = some r
  arrived : ∀ {k p : UnitId} {x y : Life γ} {r : Report}, L k = some x → x.report = some r →
    x.parent = some p → L p = some y → ¬ waiting k → y.subReports[k.localName]? = some r
  complete : ∀ {p : UnitId} {y : Life γ}, L p = some y → y.finished = true →
    ∀ name ∈ y.subUnits, name ∈ y.subReports
  ids : ∀ {k : UnitId} {x : Life γ} {r : Report}, L k = some x → x.report = some r → r.id = k

namespace IsFiled

variable {waiting : UnitId → Prop} {us : List (UnitNode γ)}

/-- Reports of units that nobody has added go nowhere. -/
theorem all (h : IsFiled L waiting)
    (hnone : ∀ (k : UnitId) (x : Life γ), waiting k → L k = some x → x.parent = none) :
    IsFiled L fun _ ↦ False where
  kept := h.kept
  arrived {k _ x _ _} hx hr hparent hy _ := by
    refine h.arrived hx hr hparent hy fun hk ↦ ?_
    exact nomatch (hnone k x hk hx).symm.trans hparent
  complete := h.complete
  ids := h.ids

/-- Nothing happens to reports as long as no unit finishes or is handed one. -/
theorem leads (h : IsFiled L waiting) (hfamily : IsFamily root L) (hy : L p = some y)
    (hleads : Life.Leads IsPlainName y us y') : IsFiled (L.grow p y' us) waiting := by
  have hremains := hleads.remains
  have hprecedes := hleads.precedes
  have hreports := hleads.subReports
  have hborn (u) (hu : u ∈ us) : u.life.IsNewborn := (hleads.newborn u hu).1
  -- What has reports, or has finished, was there before.
  have hcases {k : UnitId} {x' : Life γ} (hx' : L.grow p y' us k = some x') :
      (x'.report = none ∧ x'.finished = false ∧ x'.subReports = ∅) ∨
      ∃ x, L k = some x ∧ x'.report = x.report ∧ x'.parent = x.parent ∧
        x'.subReports = x.subReports ∧ x'.finished = x.finished ∧ x.Precedes x' ∧
        (x.finished = true → x'.subUnits = x.subUnits) := by
    obtain ⟨rfl, rfl⟩ | ⟨-, hold⟩ | ⟨-, -, u, hu, -, rfl⟩ := grow_cases hx'
    · exact .inr ⟨y, hy, hremains.report, hremains.parent, hreports, hremains.finished, hprecedes,
        fun hfinished ↦ hleads.subUnits (.inl ((hfamily.sound hy).finished hfinished))⟩
    · exact .inr ⟨x', hold, rfl, rfl, rfl, rfl, .refl x', fun _ ↦ rfl⟩
    · exact .inl ⟨(hborn u hu).report, (hborn u hu).finished, (hborn u hu).subReports⟩
  have hstays {k : UnitId} {x : Life γ} (hx : L k = some x) :
      ∃ x', L.grow p y' us k = some x' ∧ x'.report = x.report ∧
        x'.subReports = x.subReports := by
    by_cases heq : p = k
    · subst heq
      obtain rfl := Option.some.inj (hy.symm.trans hx)
      exact ⟨y', grow_self .., hremains.report, hreports⟩
    · exact ⟨x, grow_of_ne _ heq hx, rfl, rfl⟩
  refine ⟨?_, ?_, ?_, ?_⟩
  · intro q z' name r hz' hr
    obtain ⟨-, -, hempty⟩ | ⟨z, hz, -, -, hsame, -, hlater, -⟩ := hcases hz'
    · rw [hempty, Std.ExtTreeMap.getElem?_empty] at hr
      exact nomatch hr
    · rw [hsame] at hr
      obtain ⟨k, x, hk, hx, hreport⟩ := h.kept hz hr
      obtain ⟨x', hx', hreport', -⟩ := hstays hx
      exact ⟨k, x', hlater.subUnits name k hk, hx', hreport'.trans hreport⟩
  · intro k q x' z' r hx' hr hparent hz' hwaiting
    obtain ⟨hnone, -⟩ | ⟨x, hx, hreport, hparent', -⟩ := hcases hx'
    · exact nomatch hnone.symm.trans hr
    · rw [hreport] at hr
      rw [hparent'] at hparent
      obtain ⟨z, -, hz, -⟩ := hfamily.parent hx hparent
      obtain ⟨w, hw, -, hsame⟩ := hstays hz
      obtain rfl := Option.some.inj (hw.symm.trans hz')
      rw [hsame]
      exact h.arrived hx hr hparent hz hwaiting
  · intro q z' hz' hfinished name hname
    obtain ⟨-, hunfinished, -⟩ | ⟨z, hz, -, -, hsame, hfinished', -, hsubs⟩ := hcases hz'
    · exact nomatch hunfinished.symm.trans hfinished
    · rw [hfinished'] at hfinished
      rw [hsubs hfinished] at hname
      rw [hsame]
      exact h.complete hz hfinished name hname
  · intro k x' r hx' hr
    obtain ⟨hnone, -⟩ | ⟨x, hx, hreport, -⟩ := hcases hx'
    · exact nomatch hnone.symm.trans hr
    · exact h.ids hx (hreport.symm.trans hr)

/-- A unit finishes, and its report waits to be handed on. -/
theorem ended (h : IsFiled L fun _ ↦ False) (hy : L p = some y) (hnone : y.report = none)
    (hcomplete : y.IsComplete) {r : Report} (hr : r.id = p) :
    IsFiled (L.grow p (y.ended r) []) (· = p) := by
  have hstays {k : UnitId} {x : Life γ} (hx : L k = some x) :
      ∃ x', L.grow p (y.ended r) [] k = some x' ∧ x'.subReports = x.subReports ∧
        ∀ s, x.report = some s → x'.report = some s := by
    by_cases heq : p = k
    · subst heq
      obtain rfl := Option.some.inj (hy.symm.trans hx)
      exact ⟨_, grow_self .., rfl, fun s hs ↦ nomatch hnone.symm.trans hs⟩
    · exact ⟨x, grow_of_ne _ heq hx, rfl, fun _ hs ↦ hs⟩
  refine ⟨?_, ?_, ?_, ?_⟩
  · intro q z' name s hz' hs
    obtain ⟨z, hz, hsubs, hreports⟩ : ∃ z, L q = some z ∧ z'.subUnits = z.subUnits ∧
        z'.subReports = z.subReports := by
      obtain ⟨rfl, rfl⟩ | ⟨-, hold⟩ := grow_nil_eq_some_iff.1 hz'
      · exact ⟨y, hy, rfl, rfl⟩
      · exact ⟨z', hold, rfl, rfl⟩
    obtain ⟨k, x, hk, hx, hreport⟩ := h.kept hz (hreports ▸ hs)
    obtain ⟨x', hx', -, hkeeps⟩ := hstays hx
    exact ⟨k, x', hsubs ▸ hk, hx', hkeeps s hreport⟩
  · intro k q x' z' s hx' hs hparent hz' hwaiting
    obtain ⟨heq, -⟩ | ⟨-, hx⟩ := grow_nil_eq_some_iff.1 hx'
    · exact (hwaiting heq.symm).elim
    · obtain ⟨rfl, rfl⟩ | ⟨-, hz⟩ := grow_nil_eq_some_iff.1 hz'
      · exact h.arrived (y := y) hx hs hparent hy not_false
      · exact h.arrived hx hs hparent hz not_false
  · intro q z' hz' hfinished
    obtain ⟨rfl, rfl⟩ | ⟨-, hz⟩ := grow_nil_eq_some_iff.1 hz'
    · exact hcomplete.reported
    · exact h.complete hz hfinished
  · intro k x' s hx' hs
    obtain ⟨rfl, rfl⟩ | ⟨-, hx⟩ := grow_nil_eq_some_iff.1 hx'
    · rw [Life.ended, hnone, Option.none_or] at hs
      exact Option.some.inj hs ▸ hr
    · exact h.ids hx hs

/-- The report of a sub-unit is handed on. -/
theorem receive (h : IsFiled L (· = k)) (hfamily : IsFamily root L) (hx : L k = some x) {r : Report}
    (hr : x.report = some r) (hparent : x.parent = some p) (hy : L p = some y) :
    IsFiled (L.grow p (y.receive r) []) fun _ ↦ False := by
  have hid := h.ids hx hr
  have hold {k : UnitId} {x' : Life γ} (hx' : L.grow p (y.receive r) [] k = some x') :
      ∃ x, L k = some x ∧ x'.report = x.report ∧ x'.parent = x.parent := by
    obtain ⟨rfl, rfl⟩ | ⟨-, hx⟩ := grow_nil_eq_some_iff.1 hx'
    · exact ⟨y, hy, rfl, rfl⟩
    · exact ⟨x', hx, rfl, rfl⟩
  have hstays {k : UnitId} {x : Life γ} (hx : L k = some x) :
      ∃ x', L.grow p (y.receive r) [] k = some x' ∧ x'.report = x.report := by
    by_cases heq : p = k
    · subst heq
      obtain rfl := Option.some.inj (hy.symm.trans hx)
      exact ⟨_, grow_self .., rfl⟩
    · exact ⟨x, grow_of_ne _ heq hx, rfl⟩
  refine ⟨?_, ?_, ?_, ?_⟩
  · intro q z' m s hz' hs
    have htransfer {z : Life γ} (hz : L q = some z) (hs : z.subReports[m]? = some s) :
        ∃ k x', z.subUnits[m]? = some k ∧ L.grow p (y.receive r) [] k = some x' ∧
          x'.report = some s := by
      obtain ⟨k, x, hk, hx, hreport⟩ := h.kept hz hs
      obtain ⟨x', hx', hsame⟩ := hstays hx
      exact ⟨k, x', hk, hx', hsame.trans hreport⟩
    obtain ⟨rfl, rfl⟩ | ⟨-, hz⟩ := grow_nil_eq_some_iff.1 hz'
    · obtain ⟨rfl, rfl⟩ | ⟨-, hs⟩ := SortedMap.getElem?_insert_eq_some_iff.1 hs
      · obtain ⟨z, name, hz, hname⟩ := hfamily.parent hx hparent
        obtain rfl := Option.some.inj (hy.symm.trans hz)
        obtain ⟨hplain, rfl, -⟩ := hfamily.child hy hname
        obtain ⟨x', hx', hsame⟩ := hstays hx
        rw [hid, p.localName_child hplain]
        exact ⟨_, x', hname, hx', hsame.trans hr⟩
      · exact htransfer (z := y) hy hs
    · exact htransfer hz hs
  · intro k' q x' z' s hx' hs hparent' hz' _
    obtain ⟨x₁, hx₁, hreport, hparent₁⟩ := hold hx'
    rw [hreport] at hs
    rw [hparent₁] at hparent'
    obtain ⟨rfl, rfl⟩ | ⟨hne, hz⟩ := grow_nil_eq_some_iff.1 hz'
    · refine SortedMap.getElem?_insert_eq_some_iff.2 ?_
      rw [hid]
      by_cases heq : k = k'
      · subst heq
        obtain rfl := Option.some.inj (hx.symm.trans hx₁)
        exact .inl ⟨rfl, Option.some.inj (hr.symm.trans hs)⟩
      · refine .inr ⟨fun hsame ↦ ?_, h.arrived hx₁ hs hparent' hy (Ne.symm heq)⟩
        exact heq (hfamily.localName_inj hx hx₁ hparent hparent' hsame)
    · refine h.arrived hx₁ hs hparent' hz fun heq ↦ ?_
      subst heq
      obtain rfl := Option.some.inj (hx.symm.trans hx₁)
      exact hne (Option.some.inj (hparent.symm.trans hparent'))
  · intro q z' hz' hfinished m hm
    obtain ⟨rfl, rfl⟩ | ⟨-, hz⟩ := grow_nil_eq_some_iff.1 hz'
    · exact Std.ExtTreeMap.mem_insert.2 (.inr (h.complete hy hfinished m hm))
    · exact h.complete hz hfinished m hm
  · intro k x' s hx' hs
    obtain ⟨x₁, hx₁, hreport, -⟩ := hold hx'
    exact h.ids hx₁ (hreport.symm.trans hs)

end IsFiled

end Lives

end ScopeGraphs
