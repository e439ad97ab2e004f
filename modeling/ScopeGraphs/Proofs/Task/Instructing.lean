import ScopeGraphs.Task.Workbench

/-!
# What tasks do and what is asked of a workbench

Instructions are made of a few deeds: a task notes something, wakes and spawns tasks, starts to
wait, looks, gives up, settles and drops promises. What each of these keeps is kept by all that
tasks do (`TasksKeep.advance`), and what each request to a workbench keeps is kept by all of them
together (`RequestsKeep.serve`).
-/

namespace ScopeGraphs

namespace Workbench

variable {P : Workbench → Prop} {w : Workbench}

/-! ## Tasks -/

/-- Everything that a task may do keeps something. -/
structure TasksKeep (P : Workbench → Prop) : Prop where
  /-- To add an entry to the log. -/
  note : ∀ {w : Workbench}, P w → ∀ task e, P (w.note task e)
  /-- To wake a task. -/
  wake : ∀ {w : Workbench}, P w → ∀ id, P { w with executor := w.executor.wake id }
  /-- To spawn a task. -/
  spawn : ∀ {w : Workbench}, P w → ∀ t, P { w with executor := w.executor.spawn t }
  /-- To start to wait. -/
  leg : ∀ {w : Workbench}, P w → ∀ name, P (w.leg name).2
  /-- To look whether something has arrived. -/
  poll : ∀ {w : Workbench}, P w → ∀ id l, P (poll id w l).2
  /-- To give up waiting. -/
  forget : ∀ {w : Workbench}, P w → ∀ l, P (w.forget l)
  /-- To settle a promise. -/
  complete : ∀ {w : Workbench}, P w → ∀ name v, P (w.complete name v).2
  /-- To drop a promise. -/
  drop : ∀ {w : Workbench}, P w → ∀ name, P (w.drop name)

namespace TasksKeep

theorem wakeSome (hP : TasksKeep P) (h : P w) (o : Option TaskId) : P (w.wakeSome o) := by
  cases o with
  | none => exact h
  | some id => exact hP.wake h id

theorem legs (hP : TasksKeep P) (h : P w) (names : List String) : P (w.legs names).2 := by
  induction names generalizing w with
  | nil => exact h
  | cons name names ih => exact ih (hP.leg h name)

theorem pollEach (hP : TasksKeep P) (h : P w) (id : TaskId) (ls : List Leg) :
    P (pollEach id w ls).2 := by
  induction ls generalizing w with
  | nil => exact h
  | cons l ls ih => exact ih (hP.poll h id l)

theorem resume (hP : TasksKeep P) (h : P w) (id : TaskId) (name : String) (waiting : Waiting) :
    P (resume id name w waiting).2 := by
  cases waiting with
  | nothing | ever => exact h
  | one promise l =>
    have hl := hP.poll h id l
    rw [Workbench.resume]
    split <;> rename_i heq <;> rw [heq] at hl
    · exact hP.note hl ..
    · exact hl
  | any first second =>
    have hfirst := hP.poll h id first
    rw [Workbench.resume]
    split
    · rename_i heq
      rw [heq] at hfirst
      exact hP.note (hP.forget hfirst second) ..
    · rename_i first w' hpending heq
      rw [heq] at hfirst
      have hsecond := hP.poll hfirst id second
      split <;> rename_i heq <;> rw [heq] at hsecond
      · exact hP.note (hP.forget hsecond first) ..
      · exact hsecond
  | all ls =>
    have hls := hP.pollEach h id ls
    rw [Workbench.resume]
    dsimp only
    split
    · exact hP.note hls ..
    · exact hls

theorem run (hP : TasksKeep P) (h : P w) (id : TaskId) (name : String) (code : List Instruction) :
    P (run id name code w).2 := by
  induction code generalizing w with
  | nil => exact h
  | cons i code ih =>
    cases i with
    | log v => exact ih (hP.note h ..)
    | wait promise =>
      have hresume := hP.resume (hP.leg h promise) id name (.one promise (w.leg promise).1)
      rw [Workbench.run]
      dsimp only
      split <;> rename_i heq <;> rw [heq] at hresume
      · exact ih hresume
      · exact hresume
    | waitAny first second =>
      have hlegs := hP.leg (hP.leg h first) second
      have hresume := hP.resume hlegs id name (.any (w.leg first).1 ((w.leg first).2.leg second).1)
      rw [Workbench.run]
      dsimp only
      split <;> rename_i heq <;> rw [heq] at hresume
      · exact ih hresume
      · exact hresume
    | waitAll names =>
      have hlegs := hP.legs h names
      have hwoken : P (if Leg.pollAgain (w.legs names).1 then (w.legs names).2.wakeSome id
          else (w.legs names).2) := by
        split
        · exact hP.wakeSome hlegs _
        · exact hlegs
      have hresume := hP.resume hwoken id name (.all (w.legs names).1)
      rw [Workbench.run]
      dsimp only
      split <;> rename_i heq <;> rw [heq] at hresume
      · exact ih hresume
      · exact hresume
    | complete promise v => exact ih (hP.note (hP.complete h promise v) ..)
    | get promise => exact ih (hP.note h ..)
    | drop promise => exact ih (hP.note (hP.drop h promise) ..)
    | yield => exact hP.wake h id
    | wake => exact ih (hP.wake h id)
    | spawn name' code' => exact ih (hP.spawn h _)
    | never => exact h

/-- However far a task goes on, it keeps what everything that it may do keeps. -/
theorem advance (hP : TasksKeep P) (h : P w) (id : TaskId) (t : Task) : P (advance id t w).2 := by
  have hresume := hP.resume h id t.name t.waiting
  rw [Workbench.advance]
  split <;> rename_i heq <;> rw [heq] at hresume
  · exact hP.run hresume ..
  · exact hresume

end TasksKeep

/-! ## Requests -/

/-- Something that is asked of a workbench. -/
inductive Request where
  /-- To give a name to a fresh promise. -/
  | new (name : String)
  /-- To settle a promise. -/
  | complete (name : String) (v : Int)
  /-- To drop a promise. -/
  | drop (name : String)
  /-- To spawn a task. -/
  | spawn (name : String) (code : List Instruction)
  /-- To poll the next task. -/
  | pollNext
  /-- To poll until no task may go on. -/
  | settle
  /-- To drop all tasks. -/
  | clear

/-- Does what is asked. -/
def serve (w : Workbench) : Request → Workbench
  | .new name => w.new name
  | .complete name v => (w.complete name v).2
  | .drop name => w.drop name
  | .spawn name code => w.spawn name code
  | .pollNext => w.pollNext.2
  | .settle => w.settle.2
  | .clear => w.clear

/-- Every request to a workbench keeps something. -/
structure RequestsKeep (P : Workbench → Prop) : Prop where
  /-- To give a name to a fresh promise. -/
  new : ∀ {w : Workbench}, P w → ∀ name, P (w.new name)
  /-- To settle a promise. -/
  complete : ∀ {w : Workbench}, P w → ∀ name v, P (w.complete name v).2
  /-- To drop a promise. -/
  drop : ∀ {w : Workbench}, P w → ∀ name, P (w.drop name)
  /-- To spawn a task. -/
  spawn : ∀ {w : Workbench}, P w → ∀ name code, P (w.spawn name code)
  /-- To poll the next task. -/
  pollNext : ∀ {w : Workbench}, P w → P w.pollNext.2
  /-- To drop all tasks. -/
  clear : ∀ {w : Workbench}, P w → P w.clear

namespace RequestsKeep

theorem pollAll (hP : RequestsKeep P) (h : P w) (n : Nat) : P (pollAll n w).2 := by
  induction n generalizing w with
  | zero => exact h
  | succ n ih =>
    have hnext := hP.pollNext h
    rw [Workbench.pollAll]
    split <;> rename_i heq <;> rw [heq] at hnext
    · exact hnext
    · exact ih hnext

/-- Whatever is asked of a workbench, it keeps what every request keeps. -/
theorem serve (hP : RequestsKeep P) (h : P w) (rs : List Request) : P (rs.foldl serve w) := by
  induction rs generalizing w with
  | nil => exact h
  | cons r rs ih =>
    refine ih ?_
    cases r with
    | new name => exact hP.new h name
    | complete name v => exact hP.complete h name v
    | drop name => exact hP.drop h name
    | spawn name code => exact hP.spawn h name code
    | pollNext => exact hP.pollNext h
    | settle => exact hP.pollAll h _
    | clear => exact hP.clear h

end RequestsKeep

end Workbench

end ScopeGraphs
