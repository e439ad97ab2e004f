import Mathlib.Data.Set.Basic
import ScopeGraphs.Proofs.Wait.Reaching

/-!
# Terminal clusters

The terminal clusters of a wait-for graph against their definition. A strongly connected component
is *terminal* if one of its units waits and no unit that it reaches outside of it does
(`WaitGraph.IsTerminalComponent`); its cluster is the component together with everything it
reaches (`WaitGraph.downstream`). The search returns one cluster for each terminal component and
nothing else (`WaitGraph.terminalClusters_spec`), and no waiting unit is left without one
(`WaitGraph.exists_terminalCluster`).

## Representation

The search represents a component by its least unit: it takes a unit if it comes first in the
sorted list of its own component. `WaitGraph.leader_unique` and `WaitGraph.exists_leader` say that
each terminal component is taken once in this way.
-/

namespace ScopeGraphs

variable {τ : Type}

namespace WaitGraph

/-! ## Components -/

/-- The strongly connected component of a unit. -/
def component (g : WaitGraph τ) (u : UnitId) : Set UnitId := {v | g.Reaches u v ∧ g.Reaches v u}

/-- Some units and everything they reach. -/
def downstream (g : WaitGraph τ) (K : Set UnitId) : Set UnitId := {v | ∃ u ∈ K, g.Reaches u v}

/-- A strongly connected component in which some unit waits, while nothing that it reaches outside
of itself does. -/
structure IsTerminalComponent (g : WaitGraph τ) (K : Set UnitId) : Prop where
  /-- It is a component of the graph. -/
  component : ∃ u ∈ g.units, K = g.component u
  /-- One of its units waits. -/
  waits : ∃ u ∈ K, g.waits u = true
  /-- What it reaches outside of itself waits for nothing. -/
  beyond : ∀ u ∈ K, ∀ v, g.Reaches u v → v ∉ K → g.waits v = false

variable {g : WaitGraph τ} {u v : UnitId} {K L : Set UnitId} {cluster : List UnitId}

theorem mem_component_self : u ∈ g.component u := ⟨.refl, .refl⟩

theorem component_eq_of_mem (h : v ∈ g.component u) : g.component v = g.component u := by
  ext w
  constructor
  · rintro ⟨hvw, hwv⟩
    exact ⟨h.1.trans hvw, hwv.trans h.2⟩
  · rintro ⟨huw, hwu⟩
    exact ⟨h.2.trans huw, hwu.trans h.1⟩

/-- If one of a component waits, all of it does. -/
theorem waits_of_mem_component (hv : v ∈ g.component u) (hw : g.waits v = true) :
    g.waits u = true := by
  by_cases hne : u = v
  · rwa [hne]
  · exact hv.1.waits hne

theorem mem_downstream_component : v ∈ g.downstream (g.component u) ↔ g.Reaches u v := by
  constructor
  · rintro ⟨w, hw, hwv⟩
    exact hw.1.trans hwv
  · intro h
    exact ⟨u, mem_component_self, h⟩

namespace IsTerminalComponent

theorem eq_component (hK : g.IsTerminalComponent K) (hu : u ∈ K) : K = g.component u := by
  obtain ⟨w, -, rfl⟩ := hK.component
  exact (component_eq_of_mem hu).symm

/-- Everyone in a cluster who waits belongs to its component. -/
theorem mem_of_waits (hK : g.IsTerminalComponent K) (hv : v ∈ g.downstream K)
    (hw : g.waits v = true) : v ∈ K := by
  obtain ⟨u, hu, huv⟩ := hv
  by_contra hvK
  rw [hK.beyond u hu v huv hvK] at hw
  exact Bool.false_ne_true hw

/-- Clusters that share a waiting unit are one. -/
theorem eq_of_waits (hK : g.IsTerminalComponent K) (hL : g.IsTerminalComponent L)
    (hvK : v ∈ g.downstream K) (hvL : v ∈ g.downstream L) (hw : g.waits v = true) : K = L := by
  rw [hK.eq_component (hK.mem_of_waits hvK hw), hL.eq_component (hL.mem_of_waits hvL hw)]

/-- A component can be told from what it reaches. -/
theorem eq_of_downstream_eq (hK : g.IsTerminalComponent K) (hL : g.IsTerminalComponent L)
    (h : ∀ v, v ∈ g.downstream K ↔ v ∈ g.downstream L) : K = L := by
  obtain ⟨u, hu, hw⟩ := hK.waits
  have huK : u ∈ g.downstream K := ⟨u, hu, .refl⟩
  exact hK.eq_of_waits hL huK ((h u).1 huK) hw

end IsTerminalComponent

/-! ## The search -/

theorem mem_core : v ∈ g.core u ↔ v ∈ g.component u := by
  rw [core, List.mem_filter, Std.ExtTreeSet.mem_toList, mem_reach, Std.ExtTreeSet.contains_iff_mem,
    mem_reach]
  rfl

theorem sorted_core : (g.core u).Pairwise fun v w ↦ Keyed.compare v w = .lt :=
  Std.ExtTreeSet.ordered_toList.filter _

theorem core_eq_of_mem (h : v ∈ g.component u) : g.core v = g.core u :=
  SortedSet.eq_of_pairwise_lt sorted_core sorted_core fun w ↦ by
    rw [mem_core, mem_core, component_eq_of_mem h]

theorem isTerminal_iff : g.isTerminal u = true ↔ g.IsTerminalComponent (g.component u) := by
  have hsplit : g.isTerminal u = true ↔ (∃ v ∈ g.component u, g.waits v = true) ∧
      ∀ v, g.Reaches u v → v ∉ g.component u → g.waits v = false := by
    rw [isTerminal, Bool.and_eq_true, List.any_eq_true, List.all_eq_true]
    simp only [mem_core, Std.ExtTreeSet.mem_toList, mem_reach, Bool.or_eq_true, decide_eq_true_eq,
      Bool.not_eq_true', or_iff_not_imp_left]
  rw [hsplit]
  constructor
  · rintro ⟨⟨v, hv, hw⟩, hbeyond⟩
    have hu : u ∈ g.units := mem_units_of_waits (waits_of_mem_component hv hw)
    exact ⟨⟨u, hu, rfl⟩, ⟨v, hv, hw⟩, fun x hx w hxw ↦ hbeyond w (hx.1.trans hxw)⟩
  · intro h
    exact ⟨h.waits, h.beyond u mem_component_self⟩

/-- The least unit of a terminal component. -/
def IsLeader (g : WaitGraph τ) (u : UnitId) : Prop :=
  (g.core u).head? = some u ∧ g.IsTerminalComponent (g.component u)

theorem exists_leader (hK : g.IsTerminalComponent K) : ∃ u, g.IsLeader u ∧ K = g.component u := by
  obtain ⟨v, -, rfl⟩ := hK.component
  obtain ⟨u, hu⟩ : ∃ u, (g.core v).head? = some u := by
    have hne : g.core v ≠ [] := List.ne_nil_of_mem (mem_core.2 mem_component_self)
    exact ⟨_, List.head?_eq_some_head hne⟩
  have huv : u ∈ g.component v := mem_core.1 (List.mem_of_mem_head? hu)
  refine ⟨u, ⟨?_, ?_⟩, (component_eq_of_mem huv).symm⟩
  · rw [core_eq_of_mem huv, hu]
  · rwa [component_eq_of_mem huv]

theorem leader_unique (hu : g.IsLeader u) (hv : g.IsLeader v)
    (h : g.component u = g.component v) : u = v := by
  have hcore : g.core u = g.core v := core_eq_of_mem (h ▸ mem_component_self)
  exact Option.some_inj.1 (hu.1.symm.trans (hcore ▸ hv.1))

theorem IsLeader.mem_units (h : g.IsLeader u) : u ∈ g.units := by
  obtain ⟨v, hv, hw⟩ := h.2.waits
  exact mem_units_of_waits (waits_of_mem_component hv hw)

theorem mem_terminalClusters :
    cluster ∈ g.terminalClusters ↔ ∃ u, g.IsLeader u ∧ (g.reach u).toList = cluster := by
  rw [terminalClusters, List.mem_map]
  refine exists_congr fun u ↦ and_congr_left fun _ ↦ ?_
  rw [List.mem_filter, Bool.and_eq_true, decide_eq_true_eq, isTerminal_iff]
  exact ⟨And.right, fun h ↦ ⟨IsLeader.mem_units h, h⟩⟩

theorem mem_toList_reach : v ∈ (g.reach u).toList ↔ v ∈ g.downstream (g.component u) := by
  rw [Std.ExtTreeSet.mem_toList, mem_reach, mem_downstream_component]

/-- Each cluster is what a terminal component reaches. -/
theorem exists_component (h : cluster ∈ g.terminalClusters) :
    ∃ K, g.IsTerminalComponent K ∧ ∀ v, v ∈ cluster ↔ v ∈ g.downstream K := by
  obtain ⟨u, hu, rfl⟩ := mem_terminalClusters.1 h
  exact ⟨g.component u, hu.2, fun v ↦ mem_toList_reach⟩

/-- What a terminal component reaches is a cluster. -/
theorem exists_cluster (hK : g.IsTerminalComponent K) :
    ∃ cluster ∈ g.terminalClusters, ∀ v, v ∈ cluster ↔ v ∈ g.downstream K := by
  obtain ⟨u, hu, rfl⟩ := exists_leader hK
  exact ⟨_, mem_terminalClusters.2 ⟨u, hu, rfl⟩, fun v ↦ mem_toList_reach⟩

theorem sorted_of_mem_terminalClusters (h : cluster ∈ g.terminalClusters) :
    cluster.Pairwise fun v w ↦ Keyed.compare v w = .lt := by
  obtain ⟨u, -, rfl⟩ := mem_terminalClusters.1 h
  exact Std.ExtTreeSet.ordered_toList

/-- Two clusters of the list have only idle units in common. -/
theorem pairwise_terminalClusters :
    g.terminalClusters.Pairwise fun c d ↦ ∀ v ∈ c, v ∈ d → g.waits v = false := by
  rw [terminalClusters, List.pairwise_map]
  have hleaders : ∀ u ∈ g.units.filter fun u ↦ (g.core u).head? = some u && g.isTerminal u,
      g.IsLeader u := by
    intro u hu
    rw [List.mem_filter, Bool.and_eq_true, decide_eq_true_eq, isTerminal_iff] at hu
    exact hu.2
  -- Two places in the list are two leaders, since the units are listed once each.
  have hnodup := (SortedSet.nodup_toList _ : g.units.Nodup).filter
    fun u ↦ (g.core u).head? = some u && g.isTerminal u
  refine hnodup.imp_of_mem ?_
  intro u v hu hv hne w hwu hwv
  by_contra hw
  have hcomponent := (hleaders u hu).2.eq_of_waits (hleaders v hv).2 (mem_toList_reach.1 hwu)
    (mem_toList_reach.1 hwv) (Bool.of_not_eq_false hw)
  exact hne (leader_unique (hleaders u hu) (hleaders v hv) hcomponent)

theorem nodup_terminalClusters : g.terminalClusters.Nodup := by
  refine pairwise_terminalClusters.imp_of_mem ?_
  rintro c _ hc - hidle rfl
  obtain ⟨K, hK, hmem⟩ := exists_component hc
  obtain ⟨u, hu, hw⟩ := hK.waits
  have huc : u ∈ c := (hmem u).2 ⟨u, hu, .refl⟩
  rw [hidle u huc huc] at hw
  exact Bool.false_ne_true hw

/-! ## Looking up members -/

/-- Halving finds exactly the members of a sorted cluster. -/
theorem clusterContains_iff (h : cluster.Pairwise fun v w ↦ Keyed.compare v w = .lt) :
    clusterContains cluster u = true ↔ u ∈ cluster := by
  have hlt {us : List UnitId} (hus : us.Pairwise fun v w ↦ Keyed.compare v w = .lt) {i j : Nat}
      (hi : i < us.length) (hj : j < us.length) (hij : i < j) :
      Keyed.compare us[i] us[j] = .lt := List.pairwise_iff_getElem.1 hus i j hi hj hij
  fun_induction clusterContains cluster u with
  | case1 us half hlong hgt ih =>
    -- from the middle on everything is too large
    refine (ih (h.sublist (List.take_sublist _ _))).trans ⟨List.mem_of_mem_take, fun hu ↦ ?_⟩
    obtain ⟨i, hi, rfl⟩ := List.getElem_of_mem hu
    have hsmall : i < us.length - half := by
      by_contra hlarge
      obtain heq | hless := Nat.eq_or_lt_of_le (show half ≤ i by omega)
      · simp only [heq, Keyed.compare_eq_iff.2, reduceCtorEq] at hgt
      · rw [hlt h (by omega) hi hless] at hgt
        exact absurd hgt (by decide)
    exact List.mem_take_iff_getElem.2 ⟨i, by omega, rfl⟩
  | case2 us half hlong hle ih =>
    -- before the middle everything is too small
    refine (ih (h.sublist (List.drop_sublist _ _))).trans ⟨List.mem_of_mem_drop, fun hu ↦ ?_⟩
    obtain ⟨i, hi, rfl⟩ := List.getElem_of_mem hu
    have hlarge : half ≤ i := by
      by_contra hsmall
      have hlt' := hlt h hi (by omega) (show i < half by omega)
      exact hle (Std.OrientedCmp.gt_of_lt hlt')
    refine List.mem_drop_iff_getElem.2 ⟨i - half, by omega, ?_⟩
    simp [hlarge]
  | case3 us hshort =>
    obtain _ | ⟨v, _ | ⟨w, us⟩⟩ := us
    · simp
    · simp [eq_comm]
    · simp at hshort

/-! ## What the search returns -/

/-- A cluster contains whatever its members wait for. -/
theorem holder_mem_cluster (h : cluster ∈ g.terminalClusters) {e : WaitEdge τ} (he : e ∈ g.edges)
    (hwaiter : e.waiter ∈ cluster) : e.holder ∈ cluster := by
  obtain ⟨K, -, hmem⟩ := exists_component h
  obtain ⟨u, hu, hreach⟩ := (hmem _).1 hwaiter
  have hstep : g.WaitsFor e.waiter e.holder := ⟨e, he, rfl, rfl⟩
  exact (hmem _).2 ⟨u, hu, hreach.trans hstep.reaches⟩

/-- **The search for terminal clusters.** In every graph the clusters and the terminal components
correspond to each other one to one, a cluster being what its component reaches. The members of a
cluster are listed in order and once each, the search by halving finds exactly them, and whoever a
member waits for is one of them. -/
theorem terminalClusters_spec (g : WaitGraph τ) :
    g.terminalClusters.Nodup ∧
    (∀ K, g.IsTerminalComponent K →
      ∃! cluster, cluster ∈ g.terminalClusters ∧ ∀ v, v ∈ cluster ↔ v ∈ g.downstream K) ∧
    ∀ cluster ∈ g.terminalClusters,
      (∃! K, g.IsTerminalComponent K ∧ ∀ v, v ∈ cluster ↔ v ∈ g.downstream K) ∧
      (cluster.Pairwise fun v w ↦ Keyed.compare v w = .lt) ∧
      (∀ u, clusterContains cluster u = true ↔ u ∈ cluster) ∧
      ∀ e ∈ g.edges, e.waiter ∈ cluster → e.holder ∈ cluster := by
  refine ⟨nodup_terminalClusters, fun K hK ↦ ?_, fun cluster hc ↦ ⟨?_, ?_, ?_, ?_⟩⟩
  · obtain ⟨cluster, hc, hmem⟩ := exists_cluster hK
    refine ⟨cluster, ⟨hc, hmem⟩, ?_⟩
    rintro other ⟨ho, hother⟩
    refine SortedSet.eq_of_pairwise_lt (sorted_of_mem_terminalClusters ho)
      (sorted_of_mem_terminalClusters hc) fun v ↦ ?_
    rw [hother, hmem]
  · obtain ⟨K, hK, hmem⟩ := exists_component hc
    refine ⟨K, ⟨hK, hmem⟩, ?_⟩
    rintro L ⟨hL, hother⟩
    exact hL.eq_of_downstream_eq hK fun v ↦ by rw [← hother, hmem]
  · exact sorted_of_mem_terminalClusters hc
  · intro u
    exact clusterContains_iff (sorted_of_mem_terminalClusters hc)
  · intro e he hwaiter
    exact holder_mem_cluster hc he hwaiter

/-! ## Everybody who waits is taken care of -/

/-- A waiting unit reaches a terminal component: either its own one is terminal, or something
beyond it waits, which reaches less. -/
theorem exists_terminalComponent (hw : g.waits u = true) :
    ∃ K, g.IsTerminalComponent K ∧ ∃ v ∈ K, g.waits v = true ∧ g.Reaches u v := by
  -- By induction on how many units are reached: somebody beyond the component of `u` reaches only
  -- units that `u` does, and `u` itself is not among them.
  induction hn : (g.reach u).size using Nat.strong_induction_on generalizing u with
  | _ n ih =>
    by_cases hterminal : g.IsTerminalComponent (g.component u)
    · exact ⟨_, hterminal, u, mem_component_self, hw, .refl⟩
    · obtain ⟨v, huv, hv, hwv⟩ :
          ∃ v, g.Reaches u v ∧ v ∉ g.component u ∧ g.waits v = true := by
        by_contra hnone
        refine hterminal ⟨⟨u, mem_units_of_waits hw, rfl⟩, ⟨u, mem_component_self, hw⟩, ?_⟩
        intro x hx v hxv hv
        by_contra hwv
        exact hnone ⟨v, hx.1.trans hxv, hv, Bool.of_not_eq_false hwv⟩
      have hsmaller : (g.reach v).size < (g.reach u).size := by
        by_contra hsize
        have hback : u ∈ g.reach v := SortedSet.mem_of_size_le
          (fun w hw ↦ mem_reach.2 (huv.trans (mem_reach.1 hw))) (Nat.le_of_not_lt hsize)
          (mem_reach.2 .refl)
        exact hv ⟨huv, mem_reach.1 hback⟩
      obtain ⟨K, hK, w, hwK, hww, hvw⟩ := ih _ (hn ▸ hsmaller) hwv rfl
      exact ⟨K, hK, w, hwK, hww, huv.trans hvw⟩

/-- A waiting unit reaches the component of a cluster. -/
theorem exists_cluster_of_waits (hw : g.waits u = true) :
    ∃ cluster ∈ g.terminalClusters, ∃ K, g.IsTerminalComponent K ∧
      (∀ v, v ∈ cluster ↔ v ∈ g.downstream K) ∧ ∃ v ∈ K, g.waits v = true ∧ g.Reaches u v := by
  obtain ⟨K, hK, hreach⟩ := exists_terminalComponent hw
  obtain ⟨cluster, hc, hmem⟩ := exists_cluster hK
  exact ⟨cluster, hc, K, hK, hmem, hreach⟩

/-- **No deadlock goes unseen.** In every graph a unit that waits reaches the component of a
cluster that the search returns, and somebody waits in that component. So the search returns
nothing only if nobody waits, and two clusters that it returns have only units in common that wait
for nothing. -/
theorem exists_terminalCluster (g : WaitGraph τ) :
    (∀ u, g.waits u = true → ∃ cluster ∈ g.terminalClusters, ∃ K, g.IsTerminalComponent K ∧
      (∀ v, v ∈ cluster ↔ v ∈ g.downstream K) ∧ ∃ v ∈ K, g.waits v = true ∧ g.Reaches u v) ∧
    (g.terminalClusters = [] ↔ g.edges = []) ∧
    g.terminalClusters.Pairwise fun c d ↦ ∀ v ∈ c, v ∈ d → g.waits v = false := by
  refine ⟨fun u ↦ exists_cluster_of_waits, ⟨fun hnone ↦ ?_, fun hnone ↦ ?_⟩,
    pairwise_terminalClusters⟩
  · by_contra hedges
    obtain ⟨e, he⟩ := List.exists_mem_of_ne_nil _ hedges
    obtain ⟨cluster, hc, -⟩ := exists_cluster_of_waits (waits_eq_true_iff.2 ⟨e, he, rfl⟩)
    rw [hnone] at hc
    exact List.not_mem_nil hc
  · by_contra hclusters
    obtain ⟨cluster, hc⟩ := List.exists_mem_of_ne_nil _ hclusters
    obtain ⟨K, hK, -⟩ := exists_component hc
    obtain ⟨u, -, hu⟩ := hK.waits
    obtain ⟨e, he, -⟩ := waits_eq_true_iff.1 hu
    rw [hnone] at he
    exact List.not_mem_nil he

end WaitGraph

end ScopeGraphs
