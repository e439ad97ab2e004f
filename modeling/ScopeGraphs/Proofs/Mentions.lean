import ScopeGraphs.Proofs.Paths

/-!
# Scopes that are mentioned

Edges, data and paths mention scopes, and renaming them is nothing but changing the scopes they
mention. So two ways to change scopes have the same effect exactly if they agree on all scopes that
are mentioned.
-/

namespace ScopeGraphs

variable {f g : Scope → Scope}

/-! ## Data -/

namespace Datum

mutual

/-- The scopes that a datum mentions. -/
def scopes : Datum → List Scope
  | scope s => [s]
  | list ds => allScopes ds
  | pair a b => scopes a ++ scopes b
  | some d => scopes d
  | _ => []

/-- The scopes that several data mention. -/
def allScopes : List Datum → List Scope
  | [] => []
  | d :: ds => scopes d ++ allScopes ds

end

mutual

/-- The datum with every scope in it changed. -/
def mapScopes (f : Scope → Scope) : Datum → Datum
  | scope s => scope (f s)
  | list ds => list (mapAllScopes f ds)
  | pair a b => pair (mapScopes f a) (mapScopes f b)
  | some d => some (mapScopes f d)
  | d => d

/-- Every datum of a list with every scope in it changed. -/
def mapAllScopes (f : Scope → Scope) : List Datum → List Datum
  | [] => []
  | d :: ds => mapScopes f d :: mapAllScopes f ds

end

mutual

theorem rename_eq_mapScopes (p : Renaming) : ∀ d : Datum, d.rename p = d.mapScopes p.apply
  | unit | bool _ | int _ | text _ | none | scope _ => rfl
  | list ds => by rw [rename, mapScopes, renameAll_eq_mapAllScopes]
  | pair a b => by rw [rename, mapScopes, rename_eq_mapScopes p a, rename_eq_mapScopes p b]
  | some d => by rw [rename, mapScopes, rename_eq_mapScopes]

theorem renameAll_eq_mapAllScopes (p : Renaming) :
    ∀ ds : List Datum, renameAll p ds = mapAllScopes p.apply ds
  | [] => rfl
  | d :: ds => by
    rw [renameAll, mapAllScopes, rename_eq_mapScopes, renameAll_eq_mapAllScopes]

end

mutual

/-- Changes have the same effect on a datum exactly if they agree on the scopes it mentions. -/
theorem mapScopes_eq_iff : ∀ d : Datum, d.mapScopes f = d.mapScopes g ↔ ∀ s ∈ d.scopes, f s = g s
  | unit | bool _ | int _ | text _ | none => by simp [mapScopes, scopes]
  | scope _ => by simp [mapScopes, scopes]
  | list ds => by rw [mapScopes, mapScopes, list.injEq, scopes, mapAllScopes_eq_iff]
  | pair a b => by
    rw [mapScopes, mapScopes, pair.injEq, scopes, List.forall_mem_append, mapScopes_eq_iff a,
      mapScopes_eq_iff b]
  | some d => by rw [mapScopes, mapScopes, some.injEq, scopes, mapScopes_eq_iff]

theorem mapAllScopes_eq_iff :
    ∀ ds : List Datum, mapAllScopes f ds = mapAllScopes g ds ↔ ∀ s ∈ allScopes ds, f s = g s
  | [] => by simp [mapAllScopes, allScopes]
  | d :: ds => by
    rw [mapAllScopes, mapAllScopes, List.cons.injEq, allScopes, List.forall_mem_append,
      mapScopes_eq_iff d, mapAllScopes_eq_iff ds]

end

mutual

/-- Nothing happens to a datum whose scopes all stay as they are. -/
theorem mapScopes_id : ∀ d : Datum, d.mapScopes id = d
  | unit | bool _ | int _ | text _ | none | scope _ => rfl
  | list ds => by rw [mapScopes, mapAllScopes_id]
  | pair a b => by rw [mapScopes, mapScopes_id a, mapScopes_id b]
  | some d => by rw [mapScopes, mapScopes_id]

theorem mapAllScopes_id : ∀ ds : List Datum, mapAllScopes id ds = ds
  | [] => rfl
  | d :: ds => by rw [mapAllScopes, mapScopes_id, mapAllScopes_id]

end

/-- Renamings that are the same for all scopes rename a datum alike. -/
theorem rename_congr {p q : Renaming} (h : ∀ s, p.apply s = q.apply s) (d : Datum) :
    d.rename p = d.rename q := by
  rw [rename_eq_mapScopes, rename_eq_mapScopes, mapScopes_eq_iff]
  exact fun s _ ↦ h s

end Datum

/-! ## Graphs -/

namespace Edge

/-- The edge with its label between changed scopes. -/
def mapScopes (f : Scope → Scope) (e : Edge) : Edge := ⟨f e.source, e.label, f e.target⟩

theorem rename_eq_mapScopes (p : Renaming) (e : Edge) : e.rename p = e.mapScopes p.apply := rfl

theorem mapScopes_eq_iff {e : Edge} :
    e.mapScopes f = e.mapScopes g ↔ f e.source = g e.source ∧ f e.target = g e.target := by
  simp [mapScopes]

end Edge

namespace ScopeGraph

/-- Whether a scope has an edge or a datum in a graph, or is mentioned in a datum. -/
def Mentions (h : ScopeGraph) (s : Scope) : Prop :=
  (∃ e ∈ h.edges, s = e.source ∨ s = e.target) ∨
    ∃ e ∈ h.data.toList, s = e.1 ∨ s ∈ e.2.scopes

/-- Changes have the same effect on all edges and data of a graph exactly if they agree on the
scopes that the graph mentions. -/
theorem mapScopes_eq_iff {h : ScopeGraph} :
    ((∀ e ∈ h.edges, e.mapScopes f = e.mapScopes g) ∧
      ∀ e ∈ h.data.toList, (f e.1, e.2.mapScopes f) = (g e.1, e.2.mapScopes g)) ↔
        ∀ s, h.Mentions s → f s = g s := by
  simp only [Edge.mapScopes_eq_iff, Prod.mk.injEq, Datum.mapScopes_eq_iff]
  constructor
  · rintro ⟨hedges, hdata⟩ s (⟨e, he, rfl | rfl⟩ | ⟨e, he, rfl | hs⟩)
    · exact (hedges e he).1
    · exact (hedges e he).2
    · exact (hdata e he).1
    · exact (hdata e he).2 s hs
  · intro hall
    refine ⟨fun e he ↦ ⟨?_, ?_⟩, fun e he ↦ ⟨?_, fun s hs ↦ ?_⟩⟩
    · exact hall _ (.inl ⟨e, he, .inl rfl⟩)
    · exact hall _ (.inl ⟨e, he, .inr rfl⟩)
    · exact hall _ (.inr ⟨e, he, .inl rfl⟩)
    · exact hall _ (.inr ⟨e, he, .inr hs⟩)

/-- Renamings that are the same for all scopes rename a graph alike. -/
theorem rename_congr {p q : Renaming} (h : ∀ s, p.apply s = q.apply s) (g : ScopeGraph) :
    g.rename p = g.rename q := by
  have hedge : Edge.rename p = Edge.rename q := by
    funext e
    rw [Edge.rename, Edge.rename, h, h]
  have hdatum (e : Scope × Datum) :
      (p.apply e.1, e.2.rename p) = (q.apply e.1, e.2.rename q) := by
    rw [h, Datum.rename_congr h]
  rw [rename, rename, hedge, List.map_congr_left fun e _ ↦ hdatum e]

theorem rename_identity (g : ScopeGraph) : g.rename .identity = g := by
  have happly : Renaming.identity.apply = id := rfl
  have hedge : Edge.rename .identity = id := rfl
  have hdatum (e : Scope × Datum) :
      (Renaming.identity.apply e.1, e.2.rename .identity) = id e := by
    rw [Datum.rename_eq_mapScopes, happly, Datum.mapScopes_id]
    rfl
  rw [rename, hedge, List.map_id, List.map_congr_left fun e _ ↦ hdatum e, List.map_id, of]
  refine congrArg₂ mk (Std.ExtTreeSet.ext_mem fun e ↦ ?_) (SortedMap.ofList_toList g.data)
  rw [SortedSet.mem_ofList, Std.ExtTreeSet.mem_toList]

end ScopeGraph

/-! ## Answers -/

namespace ResolvedPath

/-- Whether a scope is on a resolved path or mentioned in its datum. -/
def Mentions (r : ResolvedPath) (s : Scope) : Prop := s ∈ r.path.scopes ∨ s ∈ r.datum.scopes

/-- Two renamings that agree on what a resolved path mentions rename it alike. -/
theorem rename_congr {p q : Renaming} {r : ResolvedPath}
    (h : ∀ s, r.Mentions s → p.apply s = q.apply s) : r.rename p = r.rename q := by
  have hdatum : r.datum.rename p = r.datum.rename q := by
    rw [Datum.rename_eq_mapScopes, Datum.rename_eq_mapScopes, Datum.mapScopes_eq_iff]
    exact fun s hs ↦ h s (.inr hs)
  have hpath : r.path.rename p = r.path.rename q := by
    have hsource : p.apply r.path.source = q.apply r.path.source :=
      h _ (.inl List.mem_cons_self)
    have hsteps : r.path.steps.map (fun e ↦ (e.1, p.apply e.2)) =
        r.path.steps.map fun e ↦ (e.1, q.apply e.2) :=
      List.map_congr_left fun e he ↦ by
        rw [h e.2 (.inl (List.mem_cons_of_mem _ (List.mem_map_of_mem he)))]
    rw [Path.rename, Path.rename, hsource, hsteps]
  rw [rename, rename, hdatum, hpath]

end ResolvedPath

end ScopeGraphs
