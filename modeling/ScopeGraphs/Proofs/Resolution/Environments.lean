import ScopeGraphs.Proofs.Sorted
import ScopeGraphs.Query.Env

/-!
# What environments accept and reject

Environments are assembled from single paths by unions and by adding one path at a time. Each
lemma says, for one way to build an environment, which paths the result accepts or rejects.
-/

namespace ScopeGraphs

namespace Env

variable {e f : Env} {es : List Env} {r s : ResolvedPath}

/-- Two environments that accept and reject the same paths are equal. -/
theorem ext_mem (ha : ∀ r, r ∈ e.accepted ↔ r ∈ f.accepted)
    (hr : ∀ r, r ∈ e.rejected ↔ r ∈ f.rejected) : e = f := by
  obtain ⟨ea, er⟩ := e
  obtain ⟨fa, fr⟩ := f
  rw [mk.injEq]
  exact ⟨Std.ExtTreeSet.ext_mem ha, Std.ExtTreeSet.ext_mem hr⟩

@[simp] theorem not_mem_accepted_empty : r ∉ empty.accepted := Std.ExtTreeSet.not_mem_empty

@[simp] theorem not_mem_rejected_empty : r ∉ empty.rejected := Std.ExtTreeSet.not_mem_empty

@[simp] theorem mem_accepted_single : s ∈ (single r).accepted ↔ s = r := by simp [single]

@[simp] theorem not_mem_rejected_single : s ∉ (single r).rejected := Std.ExtTreeSet.not_mem_empty

@[simp] theorem mem_paths : r ∈ e.paths ↔ r ∈ e.accepted := Std.ExtTreeSet.mem_toList

theorem isEmpty_iff : e.isEmpty = true ↔ ∀ r, r ∉ e.accepted := SortedSet.isEmpty_iff_forall

/-! ## Adding one path -/

@[simp] theorem mem_accepted_accept : s ∈ (e.accept r).accepted ↔ s = r ∨ s ∈ e.accepted :=
  SortedSet.mem_insert_iff

@[simp] theorem rejected_accept : (e.accept r).rejected = e.rejected := rfl

@[simp] theorem accepted_reject : (e.reject r).accepted = e.accepted := rfl

@[simp] theorem mem_rejected_reject : s ∈ (e.reject r).rejected ↔ s = r ∨ s ∈ e.rejected :=
  SortedSet.mem_insert_iff

/-- Rejecting further paths does not change what is accepted. -/
@[simp] theorem accepted_foldl_reject (rs : List ResolvedPath) :
    (rs.foldl reject e).accepted = e.accepted := by
  induction rs generalizing e with
  | nil => rfl
  | cons r rs ih => rw [List.foldl_cons, ih, accepted_reject]

@[simp] theorem mem_rejected_foldl_reject (rs : List ResolvedPath) :
    s ∈ (rs.foldl reject e).rejected ↔ s ∈ rs ∨ s ∈ e.rejected := by
  induction rs generalizing e with
  | nil => simp
  | cons r rs ih =>
    rw [List.foldl_cons, ih, mem_rejected_reject, List.mem_cons, or_left_comm, or_assoc]

/-! ## Unions -/

@[simp] theorem mem_accepted_union :
    r ∈ (e.union f).accepted ↔ r ∈ e.accepted ∨ r ∈ f.accepted := by
  rw [union, SortedSet.mem_foldl_insert, Std.ExtTreeSet.mem_toList, or_comm]

@[simp] theorem mem_rejected_union :
    r ∈ (e.union f).rejected ↔ r ∈ e.rejected ∨ r ∈ f.rejected := by
  rw [union, SortedSet.mem_foldl_insert, Std.ExtTreeSet.mem_toList, or_comm]

private theorem mem_accepted_foldl_union :
    r ∈ (es.foldl union e).accepted ↔ r ∈ e.accepted ∨ ∃ f ∈ es, r ∈ f.accepted := by
  induction es generalizing e with
  | nil => simp
  | cons f es ih =>
    rw [List.foldl_cons, ih, mem_accepted_union]
    simp [or_assoc]

private theorem mem_rejected_foldl_union :
    r ∈ (es.foldl union e).rejected ↔ r ∈ e.rejected ∨ ∃ f ∈ es, r ∈ f.rejected := by
  induction es generalizing e with
  | nil => simp
  | cons f es ih =>
    rw [List.foldl_cons, ih, mem_rejected_union]
    simp [or_assoc]

/-- A union of environments accepts what one of them accepts. -/
@[simp] theorem mem_accepted_unions : r ∈ (unions es).accepted ↔ ∃ e ∈ es, r ∈ e.accepted := by
  rw [unions, mem_accepted_foldl_union]
  simp

/-- A union of environments rejects what one of them rejects. -/
@[simp] theorem mem_rejected_unions : r ∈ (unions es).rejected ↔ ∃ e ∈ es, r ∈ e.rejected := by
  rw [unions, mem_rejected_foldl_union]
  simp

/-- The order of environments does not matter to their union. -/
theorem unions_congr {fs : List Env} (h : ∀ e, e ∈ es ↔ e ∈ fs) : unions es = unions fs := by
  refine ext_mem (fun r ↦ ?_) fun r ↦ ?_
  · rw [mem_accepted_unions, mem_accepted_unions]
    simp only [h]
  · rw [mem_rejected_unions, mem_rejected_unions]
    simp only [h]

/-! ## Verdicts -/

/-- Whether an environment passes a verdict on a path. -/
def Judges (e : Env) (r : ResolvedPath) : Prop := r ∈ e.accepted ∨ r ∈ e.rejected

theorem not_judges_empty : ¬ empty.Judges r := by simp [Judges]

theorem judges_unions : (unions es).Judges r ↔ ∃ e ∈ es, e.Judges r := by
  rw [Judges, mem_accepted_unions, mem_rejected_unions, ← exists_or]
  simp only [Judges, and_or_left]

/-! ## Renaming -/

variable {p : Renaming}

theorem mem_accepted_rename : s ∈ (e.rename p).accepted ↔ ∃ r ∈ e.accepted, r.rename p = s := by
  rw [rename, of, SortedSet.mem_ofList, List.mem_map]
  simp only [Std.ExtTreeSet.mem_toList]

theorem mem_rejected_rename : s ∈ (e.rename p).rejected ↔ ∃ r ∈ e.rejected, r.rename p = s := by
  rw [rename, of, SortedSet.mem_ofList, List.mem_map]
  simp only [Std.ExtTreeSet.mem_toList]

@[simp] theorem rename_empty (p : Renaming) : empty.rename p = empty := by
  refine ext_mem (fun r ↦ ?_) fun r ↦ ?_
  · simp [mem_accepted_rename]
  · simp [mem_rejected_rename]

@[simp] theorem rename_single (p : Renaming) (r : ResolvedPath) :
    (single r).rename p = single (r.rename p) := by
  refine ext_mem (fun s ↦ ?_) fun s ↦ ?_
  · simp [mem_accepted_rename, eq_comm]
  · simp [mem_rejected_rename]

theorem rename_unions (p : Renaming) (es : List Env) :
    (unions es).rename p = unions (es.map (rename p)) := by
  refine ext_mem (fun r ↦ ?_) fun r ↦ ?_
  · simp only [mem_accepted_rename, mem_accepted_unions, List.mem_map, exists_exists_and_eq_and]
    exact ⟨fun ⟨f, ⟨e, he, hf⟩, hr⟩ ↦ ⟨e, he, f, hf, hr⟩,
      fun ⟨e, he, f, hf, hr⟩ ↦ ⟨f, ⟨e, he, hf⟩, hr⟩⟩
  · simp only [mem_rejected_rename, mem_rejected_unions, List.mem_map, exists_exists_and_eq_and]
    exact ⟨fun ⟨f, ⟨e, he, hf⟩, hr⟩ ↦ ⟨e, he, f, hf, hr⟩,
      fun ⟨e, he, f, hf, hr⟩ ↦ ⟨f, ⟨e, he, hf⟩, hr⟩⟩

theorem isEmpty_rename (p : Renaming) (e : Env) : (e.rename p).isEmpty = e.isEmpty := by
  rw [Bool.eq_iff_iff, isEmpty_iff, isEmpty_iff]
  constructor
  · intro h r hr
    exact h (r.rename p) (mem_accepted_rename.2 ⟨r, hr, rfl⟩)
  · intro h s hs
    obtain ⟨r, hr, -⟩ := mem_accepted_rename.1 hs
    exact h r hr

end Env

end ScopeGraphs
