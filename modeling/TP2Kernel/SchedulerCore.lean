/-
TP2Kernel/SchedulerCore.lean

What the scheduler calls do to processes, apart from queueing.  The core of a
process leaves out the fields that only serve the choice of the next process:
queue links, effective priority, quantum, waiting ticks and the saved stack
pointer.  On cores every call is a small equation, and everything that does
not concern the order of dispatch is read off these equations.

`Frame s s'` says that the counters of the scheduler are unchanged.
-/
import TP2Kernel.Scheduler

namespace TP2Kernel

/-- A process without the fields that serve dispatching. -/
def PCB.core (p : PCB) : PCB :=
  { p with
    effectivePriority := 0, quantumsLeft := 0, readyNext := none, inReadyQueue := false,
    readyWaitTicks := 0, rsp := 0 }

/-- A process in another state. -/
def PCB.setState (p : PCB) (state : ProcState) : PCB := { p with state := state }

/-- A process with another priority. -/
def PCB.setPriority (p : PCB) (pr : Int) : PCB := { p with priority := pr }

/-- The cores of all processes. -/
def Sched.core (s : Sched) (i : Slot) : PCB := (s.processTable i).core

/-- The counters are unchanged. -/
structure Frame (s s' : Sched) : Prop where
  processCount : s'.processCount = s.processCount
  currentIdx : s'.currentIdx = s.currentIdx
  nextPid : s'.nextPid = s.nextPid
  idleStack : s'.idleStack = s.idleStack
  freed : s'.freed = s.freed

namespace Frame

variable {s s' s'' : Sched}

theorem refl (s : Sched) : Frame s s := ⟨rfl, rfl, rfl, rfl, rfl⟩

theorem trans (h : Frame s s') (h' : Frame s' s'') : Frame s s'' :=
  ⟨h'.processCount.trans h.processCount, h'.currentIdx.trans h.currentIdx,
    h'.nextPid.trans h.nextPid, h'.idleStack.trans h.idleStack, h'.freed.trans h.freed⟩

theorem modify (s : Sched) (i : Slot) (f : PCB → PCB) : Frame s (s.modify i f) :=
  ⟨rfl, rfl, rfl, rfl, rfl⟩

theorem resched (s : Sched) : Frame s { s with needResched := true } :=
  ⟨rfl, rfl, rfl, rfl, rfl⟩

theorem foldl {l : List Slot} {f : Sched → Slot → Sched} (hf : ∀ s i, Frame s (f s i))
    (s : Sched) : Frame s (l.foldl f s) := by
  induction l generalizing s with
  | nil => exact refl s
  | cons i l ih => exact (hf s i).trans (ih (f s i))

end Frame

/-- Requeueing changes neither counters nor cores. -/
theorem Requeued.frame {s s' : Sched} (h : Requeued s s') : Frame s s' := by
  have hg := h.globals
  unfold SameGlobals at hg
  rw [hg]
  exact ⟨rfl, rfl, rfl, rfl, rfl⟩

theorem Requeued.core {s s' : Sched} (h : Requeued s s') : s'.core = s.core := by
  funext j
  exact h.field j PCB.core fun _ => rfl

namespace Sched

variable (s : Sched)

@[simp] theorem core_state (i : Slot) : (s.core i).state = (s.processTable i).state := rfl

theorem modify_core (i : Slot) (f : PCB → PCB) :
    (s.modify i f).core = Function.update s.core i (f (s.processTable i)).core := by
  funext j
  by_cases hj : j = i
  · subst hj
    rw [Function.update_self, core, modify_self]
  · rw [Function.update_of_ne hj, core, s.modify_of_ne _ _ _ hj]
    rfl

/-- A change that acts on cores as `g`. -/
theorem modify_core_of {s : Sched} {c : Slot → PCB} (hc : s.core = c) (i : Slot) {f : PCB → PCB}
    (g : PCB → PCB) (hf : ∀ p, (f p).core = g p.core) :
    (s.modify i f).core = Function.update c i (g (c i)) := by
  rw [modify_core, hf, hc, ← hc]
  rfl

/-- A change of dispatching fields only. -/
theorem modify_core_eq (i : Slot) (f : PCB → PCB)
    (h : (f (s.processTable i)).core = (s.processTable i).core) : (s.modify i f).core = s.core := by
  rw [modify_core, h]
  exact Function.update_eq_self i s.core

/-! ### Ageing and dequeueing -/

theorem ageProcess_frame (i : Slot) : Frame s (s.ageProcess i) := by
  simp only [ageProcess]
  split
  · exact .refl s
  · split
    · exact (((Frame.modify s i _).trans (removeFromReadyQueue_requeued _ i).frame).trans
        (.modify _ i _)).trans (enqueueReadyQueue_requeued _ i).frame
    · exact .modify s i _

theorem ageProcess_core (i : Slot) : (s.ageProcess i).core = s.core := by
  simp only [ageProcess]
  split
  · rfl
  · split
    · rw [(enqueueReadyQueue_requeued _ i).core, modify_core_eq _ _ _ rfl,
        (removeFromReadyQueue_requeued _ i).core, modify_core_eq _ _ _ rfl]
    · exact modify_core_eq _ _ _ rfl

theorem ageReadyProcesses_frame : Frame s s.ageReadyProcesses :=
  Frame.foldl (fun s i => s.ageProcess_frame i) s

theorem ageReadyProcesses_core : s.ageReadyProcesses.core = s.core := by
  unfold ageReadyProcesses
  induction userSlots generalizing s with
  | nil => rfl
  | cons i l ih =>
      rw [List.foldl_cons, ih, ageProcess_core]

theorem dequeueReadyQueue_frame (pr : Int) : Frame s (s.dequeueReadyQueue pr).1 := by
  simp only [dequeueReadyQueue]
  split <;> exact ⟨rfl, rfl, rfl, rfl, rfl⟩

theorem dequeueReadyQueue_core (pr : Int) : (s.dequeueReadyQueue pr).1.core = s.core := by
  simp only [dequeueReadyQueue]
  split
  · rfl
  · rw [modify_core_eq _ _ _ rfl, (unlink_requeued _ _).core]
    rfl

theorem dequeueFrom_frame (prs : List Int) : Frame s (s.dequeueFrom prs).1 := by
  induction prs generalizing s with
  | nil => exact .refl s
  | cons pr prs ih =>
      have h := s.dequeueReadyQueue_frame pr
      rw [dequeueFrom]
      rcases hd : s.dequeueReadyQueue pr with ⟨t, - | idx⟩
      · rw [hd] at h
        exact h.trans (ih t)
      · rw [hd] at h
        exact h.trans (Frame.modify t idx rebased)

theorem dequeueFrom_core (prs : List Int) : (s.dequeueFrom prs).1.core = s.core := by
  induction prs generalizing s with
  | nil => rfl
  | cons pr prs ih =>
      have h := s.dequeueReadyQueue_core pr
      rw [dequeueFrom]
      rcases hd : s.dequeueReadyQueue pr with ⟨t, - | idx⟩
      · rw [hd] at h
        exact (ih t).trans h
      · rw [hd] at h
        have ht := t.modify_core_eq idx rebased rfl
        exact ht.trans h

theorem dequeueNextReady_frame : Frame s s.dequeueNextReady.1 :=
  s.ageReadyProcesses_frame.trans (dequeueFrom_frame _ _)

theorem dequeueNextReady_core : s.dequeueNextReady.1.core = s.core :=
  (dequeueFrom_core _ _).trans s.ageReadyProcesses_core

/-! ### Readying, blocking, priorities -/

/-- The processes `make_ready` acts on. -/
def CanReady (i : Slot) : Prop :=
  i ≠ 0 ∧ (s.core i).state ≠ .dead ∧ (s.core i).state ≠ .zombie

instance (i : Slot) : Decidable (s.CanReady i) := inferInstanceAs (Decidable (_ ∧ _ ∧ _))

theorem makeReady_of_not {i : Slot} (h : ¬ s.CanReady i) (r : Bool) : s.makeReady i r = s := by
  have hg : i = 0 ∨ (s.processTable i).state = .dead ∨ (s.processTable i).state = .zombie := by
    by_contra hn
    simp only [not_or] at hn
    exact h hn
  rw [makeReady, if_pos hg]

/-- `make_ready` up to the enqueueing. -/
def readyPrep (i : Slot) (r : Bool) : Sched :=
  ((s.removeFromReadyQueue i).modify i (refreshed r)).modify i readied

/-- The end of `make_ready`: ask for a reschedule if the process outranks the
current one. -/
def preempt (i : Slot) : Sched :=
  if s.currentIdx ≠ 0 ∧ (s.processTable i).effectivePriority > s.current.effectivePriority then
    { s with needResched := true }
  else s

theorem makeReady_eq {i : Slot} (h : s.CanReady i) (r : Bool) :
    s.makeReady i r = ((s.readyPrep i r).enqueueReadyQueue i).preempt i := by
  have hg : ¬ (i = 0 ∨ (s.processTable i).state = .dead ∨ (s.processTable i).state = .zombie) := by
    simp only [not_or]
    exact h
  have hrem : (if (s.processTable i).inReadyQueue then s.removeFromReadyQueue i else s)
      = s.removeFromReadyQueue i := by
    split
    · rfl
    · rename_i hq
      exact (removeFromReadyQueue_of_not (by simpa using hq)).symm
  simp only [makeReady, if_neg hg, hrem]
  rfl

theorem preempt_processTable (i : Slot) : (s.preempt i).processTable = s.processTable := by
  unfold preempt
  split <;> rfl

theorem preempt_readyQueues (i : Slot) : (s.preempt i).readyQueues = s.readyQueues := by
  unfold preempt
  split <;> rfl

theorem preempt_frame (i : Slot) : Frame s (s.preempt i) := by
  unfold preempt
  split <;> exact ⟨rfl, rfl, rfl, rfl, rfl⟩

theorem preempt_core (i : Slot) : (s.preempt i).core = s.core := by
  unfold core
  rw [preempt_processTable]

theorem readyPrep_frame (i : Slot) (r : Bool) : Frame s (s.readyPrep i r) :=
  ((s.removeFromReadyQueue_requeued i).frame.trans (.modify _ _ _)).trans (.modify _ _ _)

theorem readyPrep_core (i : Slot) (r : Bool) :
    (s.readyPrep i r).core = Function.update s.core i ((s.core i).setState .ready) := by
  have hr := (s.removeFromReadyQueue_requeued i).core
  have hf : ((s.removeFromReadyQueue i).modify i (refreshed r)).core = s.core := by
    refine (modify_core_eq _ i _ ?_).trans hr
    unfold refreshed
    split <;> rfl
  exact modify_core_of hf i (fun p => p.setState .ready) fun _ => rfl

theorem makeReady_frame (i : Slot) (r : Bool) : Frame s (s.makeReady i r) := by
  by_cases h : s.CanReady i
  · rw [s.makeReady_eq h]
    exact ((s.readyPrep_frame i r).trans (enqueueReadyQueue_requeued _ i).frame).trans
      (preempt_frame _ i)
  · rw [s.makeReady_of_not h]
    exact .refl s

/-- `make_ready` on cores. -/
theorem makeReady_core (i : Slot) (r : Bool) :
    (s.makeReady i r).core =
      if s.CanReady i then Function.update s.core i ((s.core i).setState .ready)
      else s.core := by
  split
  · rename_i h
    rw [s.makeReady_eq h, preempt_core, (enqueueReadyQueue_requeued _ i).core, readyPrep_core]
  · rename_i h
    rw [s.makeReady_of_not h]

theorem schedulerUnblock_frame (pid : Int) : Frame s (s.schedulerUnblock pid) := by
  unfold schedulerUnblock
  split
  · exact .refl s
  · exact s.makeReady_frame _ true

theorem findBlocked_some {s : Sched} {pid : Int} {i : Slot} (h : s.findBlocked pid = some i) :
    (s.core i).pid = pid ∧ (s.core i).state = .blocked := by
  have hi := List.find?_some h
  exact of_decide_eq_true hi

theorem schedulerBlock_frame (pid : Int) : Frame s (s.schedulerBlock pid) := by
  simp only [schedulerBlock]
  split
  · exact .refl s
  · rename_i i _
    have h := (s.removeFromReadyQueue_requeued i).frame
    split
    · exact ⟨h.processCount, h.currentIdx, h.nextPid, h.idleStack, h.freed⟩
    · exact h.trans (.modify _ _ _)

/-- `scheduler_block` on cores. -/
theorem schedulerBlock_core {pid : Int} {i : Slot} (hi : s.findIndexByPid pid = some i) :
    (s.schedulerBlock pid).core = Function.update s.core i ((s.core i).setState .blocked) := by
  have hr := (s.removeFromReadyQueue_requeued i).core
  simp only [schedulerBlock, hi]
  split
  · refine (modify_core_eq _ i expired rfl).trans ?_
    exact modify_core_of hr i (fun p => p.setState .blocked) fun _ => rfl
  · exact modify_core_of hr i (fun p => p.setState .blocked) fun _ => rfl

theorem schedulerBlock_none {pid : Int} (h : s.findIndexByPid pid = none) :
    s.schedulerBlock pid = s := by
  rw [schedulerBlock, h]

theorem schedulerNice_frame (pid pr : Int) : Frame s (s.schedulerNice pid pr).1 := by
  simp only [schedulerNice]
  split
  · exact .refl s
  · split
    · exact .refl s
    · rename_i i _
      by_cases hq : (s.processTable i).inReadyQueue = true
      · have hr := (s.removeFromReadyQueue_requeued i).frame
        simp only [hq, if_true]
        split
        · exact ((hr.trans (.modify _ i _)).trans (enqueueReadyQueue_requeued _ i).frame).trans
            (.resched _)
        · exact (hr.trans (.modify _ i _)).trans (enqueueReadyQueue_requeued _ i).frame
      · simp only [hq, Bool.false_eq_true, if_false]
        split <;> exact ⟨rfl, rfl, rfl, rfl, rfl⟩

/-- `scheduler_nice` changes at most a priority. -/
theorem schedulerNice_core (pid pr : Int) :
    (s.schedulerNice pid pr).1.core = s.core ∨
      ∃ i, s.findIndexByPid pid = some i ∧ (1 ≤ pr ∧ pr ≤ 5) ∧
        (s.schedulerNice pid pr).1.core = Function.update s.core i ((s.core i).setPriority pr) := by
  simp only [schedulerNice]
  split
  · exact .inl rfl
  · rename_i hpr
    rcases hi : s.findIndexByPid pid with - | i
    · exact .inl rfl
    · refine .inr ⟨i, rfl, ?_, ?_⟩
      · unfold priorityMin priorityMax at hpr
        omega
      by_cases hq : (s.processTable i).inReadyQueue = true
      · have hr := (s.removeFromReadyQueue_requeued i).core
        simp only [hq, if_true]
        split
        · exact ((enqueueReadyQueue_requeued _ i).core).trans
            (modify_core_of hr i (fun p => p.setPriority pr) fun _ => rfl)
        · exact ((enqueueReadyQueue_requeued _ i).core).trans
            (modify_core_of hr i (fun p => p.setPriority pr) fun _ => rfl)
      · simp only [hq, Bool.false_eq_true, if_false]
        have hm : (s.modify i (reniced pr)).core = Function.update s.core i
            ((s.core i).setPriority pr) :=
          modify_core_of rfl i (fun p => p.setPriority pr) fun _ => rfl
        split <;> exact hm

theorem schedulerYield_core : s.schedulerYield.core = s.core :=
  modify_core_eq s s.currentIdx expired rfl

/-! ### Waiting and reaping -/

theorem reapProcess_core {i : Slot} (h0 : i ≠ 0) :
    (s.reapProcess i).core = Function.update s.core i (reaped (s.core i)) := by
  have hr := (s.removeFromReadyQueue_requeued i).core
  simp only [reapProcess, if_neg h0]
  split
  · exact modify_core_of hr i reaped fun _ => rfl
  · exact modify_core_of hr i reaped fun _ => rfl

theorem reapProcess_frame (i : Slot) :
    (s.reapProcess i).currentIdx = s.currentIdx ∧ (s.reapProcess i).nextPid = s.nextPid ∧
      (s.reapProcess i).idleStack = s.idleStack := by
  have h := (s.removeFromReadyQueue_requeued i).frame
  simp only [reapProcess]
  split
  · exact ⟨rfl, rfl, rfl⟩
  · split <;> exact ⟨h.currentIdx, h.nextPid, h.idleStack⟩

/-- What `scheduler_wait` can do: refuse, reap a finished child, or block the
caller. -/
inductive WaitCases (pid : Int) : Sched × Int → Prop
  | refused : WaitCases pid (s, -1)
  | reaps (i : Slot) (s' : Sched) (hpid : 0 < pid) (hi : s.findIndexByPid pid = some i)
      (hparent : (s.core i).parentPid = s.current.pid) (hz : (s.core i).state = .zombie)
      (hs' : s' = { s.reapProcess i with processCount := (s.reapProcess i).processCount - 1 }) :
      WaitCases pid (s', (s.core i).exitStatus)
  | blocks (i : Slot) (hpid : 0 < pid) (hi : s.findIndexByPid pid = some i)
      (hparent : (s.core i).parentPid = s.current.pid) (hz : (s.core i).state ≠ .zombie) :
      WaitCases pid
        ({ s.modify s.currentIdx (waiting pid) with needResched := true }, schedulerWaitBlocked)

theorem schedulerWait_cases (pid : Int) : s.WaitCases pid (s.schedulerWait pid) := by
  simp only [schedulerWait]
  split
  · exact .refused
  · rename_i hpid
    rcases hi : s.findIndexByPid pid with - | i
    · exact .refused
    · simp only
      split
      · exact .refused
      · rename_i hparent
        split
        · rename_i hz
          exact .reaps i _ (by omega) hi (not_not.mp hparent) hz rfl
        · rename_i hz
          exact .blocks i (by omega) hi (not_not.mp hparent) hz

theorem schedulerWait_none {pid : Int} (hi : s.findIndexByPid pid = none) :
    s.schedulerWait pid = (s, -1) := by
  simp only [schedulerWait, hi]
  split <;> rfl

theorem schedulerWait_stranger {pid : Int} {i : Slot} (hi : s.findIndexByPid pid = some i)
    (hparent : (s.core i).parentPid ≠ s.current.pid) : s.schedulerWait pid = (s, -1) := by
  have hpar : (s.processTable i).parentPid ≠ s.current.pid := hparent
  simp only [schedulerWait, hi, if_pos hpar]
  split <;> rfl

theorem schedulerWait_reaps {pid : Int} {i : Slot} (hpid : 0 < pid)
    (hi : s.findIndexByPid pid = some i) (hparent : (s.core i).parentPid = s.current.pid)
    (hz : (s.core i).state = .zombie) :
    s.schedulerWait pid =
      ({ s.reapProcess i with processCount := (s.reapProcess i).processCount - 1 },
        (s.core i).exitStatus) := by
  have hpar : ¬ (s.processTable i).parentPid ≠ s.current.pid := not_not.mpr hparent
  have hz' : (s.processTable i).state = .zombie := hz
  have hle : ¬ pid ≤ 0 := by omega
  simp only [schedulerWait, if_neg hle, hi, if_neg hpar, if_pos hz']
  rfl

theorem schedulerWait_blocks {pid : Int} {i : Slot} (hpid : 0 < pid)
    (hi : s.findIndexByPid pid = some i) (hparent : (s.core i).parentPid = s.current.pid)
    (hz : (s.core i).state ≠ .zombie) :
    s.schedulerWait pid =
      ({ s.modify s.currentIdx (waiting pid) with needResched := true }, schedulerWaitBlocked) := by
  have hpar : ¬ (s.processTable i).parentPid ≠ s.current.pid := not_not.mpr hparent
  have hz' : ¬ (s.processTable i).state = .zombie := hz
  have hle : ¬ pid ≤ 0 := by omega
  simp only [schedulerWait, if_neg hle, hi, if_neg hpar, if_neg hz']

theorem waiting_core (pid : Int) :
    ({ s.modify s.currentIdx (waiting pid) with needResched := true } : Sched).core =
      Function.update s.core s.currentIdx (waiting pid (s.core s.currentIdx)) :=
  modify_core_of (s := s) rfl s.currentIdx (waiting pid) fun _ => rfl

/-! ### The foreground flags -/

/-- Only foreground flags differ. -/
def FgOnly (s s' : Sched) : Prop :=
  ∀ j, setForeground 0 (s'.core j) = setForeground 0 (s.core j)

theorem FgOnly.refl : FgOnly s s := fun _ => rfl

theorem FgOnly.trans {s s' s'' : Sched} (h : FgOnly s s') (h' : FgOnly s' s'') : FgOnly s s'' :=
  fun j => (h' j).trans (h j)

theorem FgOnly.modify (i : Slot) (fg : Int) : FgOnly s (s.modify i (setForeground fg)) := by
  intro j
  rw [modify_core]
  by_cases hj : j = i
  · subst hj
    rw [Function.update_self]
    rfl
  · rw [Function.update_of_ne hj]

/-- Every other field is unchanged. -/
theorem FgOnly.field {s s' : Sched} (h : FgOnly s s') (j : Slot) {α : Type} (g : PCB → α)
    (hg : ∀ p, g (setForeground 0 p) = g p) : g (s'.core j) = g (s.core j) := by
  rw [← hg, h j, hg]

theorem ensureForegroundOwner_fgOnly : FgOnly s s.ensureForegroundOwner := by
  unfold ensureForegroundOwner
  split
  · exact FgOnly.refl s
  · split
    · exact FgOnly.refl s
    · split
      · exact FgOnly.modify s _ 1
      · exact FgOnly.refl s

theorem ensureForegroundOwner_frame : Frame s s.ensureForegroundOwner := by
  unfold ensureForegroundOwner
  split
  · exact .refl s
  · split
    · exact .refl s
    · split
      · exact .modify s _ _
      · exact .refl s

/-- `ensure_foreground_owner` gives the foreground to the shell only. -/
theorem ensureForegroundOwner_core {j : Slot} (hj : (s.core j).pid ≠ 1) :
    s.ensureForegroundOwner.core j = s.core j := by
  unfold ensureForegroundOwner
  split
  · rfl
  · rcases hi : s.findIndexByPid 1 with - | i
    · rfl
    · simp only
      split
      · rw [modify_core, Function.update_of_ne]
        rintro rfl
        exact hj (findIndexByPid_some hi).1
      · rfl

theorem restoreParentForeground_fgOnly (i : Slot) : FgOnly s (s.restoreParentForeground i) := by
  simp only [restoreParentForeground]
  split
  · exact FgOnly.refl s
  · refine FgOnly.trans ?_ (FgOnly.modify _ i 0)
    split
    · exact FgOnly.refl s
    · split
      · exact FgOnly.modify s _ 1
      · exact FgOnly.refl s

theorem restoreParentForeground_frame (i : Slot) : Frame s (s.restoreParentForeground i) := by
  simp only [restoreParentForeground]
  split
  · exact .refl s
  · refine .trans ?_ (.modify _ i _)
    split
    · exact .refl s
    · split
      · exact ⟨rfl, rfl, rfl, rfl, rfl⟩
      · exact .refl s

/-- `restore_parent_foreground` clears the flag of the process. -/
theorem restoreParentForeground_self (i : Slot) :
    ((s.restoreParentForeground i).core i).foreground = 0 := by
  simp only [restoreParentForeground]
  split
  · assumption
  · rw [modify_core, Function.update_self]
    rfl

/-! ### Waking the waiters -/

/-- What `wakeWaiter` does to the core of a process it finds waiting. -/
def wokenCore (pid : Int) (handForeground : Bool) (i : Slot) (p : PCB) : PCB :=
  if p.state = .blocked ∧ p.waitingFor = pid then
    let p := { p with waitingFor := -1 }
    let p := if handForeground then setForeground 1 p else p
    if i = 0 then p else p.setState .ready
  else p

theorem wakeWaiter_frame (pid : Int) (hand : Bool) (i : Slot) :
    Frame s (wakeWaiter pid hand s i) := by
  simp only [wakeWaiter]
  split
  · refine .trans ?_ (makeReady_frame _ i true)
    split
    · exact ⟨rfl, rfl, rfl, rfl, rfl⟩
    · exact .modify s i _
  · exact .refl s

theorem wakePrep_core (hand : Bool) (i : Slot) :
    (if hand = true then ((s.modify i fun p =>
        { p with waitingFor := -1 }).modify i (setForeground 1)).keyboardClearBuffer
      else s.modify i fun p => { p with waitingFor := -1 }).core
      = Function.update s.core i (if hand then setForeground 1 { s.core i with waitingFor := -1 }
          else { s.core i with waitingFor := -1 }) := by
  have h1 : (s.modify i fun p => { p with waitingFor := -1 }).core
      = Function.update s.core i { s.core i with waitingFor := -1 } := s.modify_core i _
  cases hand with
  | true =>
      have h2 := modify_core_of (f := setForeground 1) h1 i (setForeground 1) fun _ => rfl
      rw [Function.update_self, Function.update_idem] at h2
      exact h2
  | false => exact h1

theorem wakeWaiter_core (pid : Int) (hand : Bool) (i : Slot) :
    (wakeWaiter pid hand s i).core =
      Function.update s.core i (wokenCore pid hand i (s.core i)) := by
  simp only [wakeWaiter]
  split
  · rename_i hw
    have hprep := s.wakePrep_core hand i
    -- `t` is the state in which `make_ready` is called, `x` the process in it
    generalize (if hand = true then ((s.modify i fun p =>
        { p with waitingFor := -1 }).modify i (setForeground 1)).keyboardClearBuffer
      else s.modify i fun p => { p with waitingFor := -1 }) = t at hprep ⊢
    have hwoken : wokenCore pid hand i (s.core i) = if i = 0 then
        (if hand then setForeground 1 { s.core i with waitingFor := -1 }
          else { s.core i with waitingFor := -1 })
        else (if hand then setForeground 1 { s.core i with waitingFor := -1 }
          else { s.core i with waitingFor := -1 } : PCB).setState .ready := if_pos hw
    have hstate : (if hand then setForeground 1 { s.core i with waitingFor := -1 }
        else { s.core i with waitingFor := -1 } : PCB).state = .blocked := by
      split <;> exact hw.1
    rw [hwoken]
    generalize (if hand then setForeground 1 { s.core i with waitingFor := -1 }
      else { s.core i with waitingFor := -1 } : PCB) = x at hprep hstate
    have hx : t.core i = x := by rw [hprep, Function.update_self]
    by_cases h0 : i = 0
    · rw [t.makeReady_of_not fun h => h.1 h0, if_pos h0, hprep]
    · have hcan : t.CanReady i := ⟨h0, by rw [hx, hstate]; decide, by rw [hx, hstate]; decide⟩
      rw [makeReady_core, if_pos hcan, if_neg h0, hx, hprep, Function.update_idem]
  · rename_i hw
    have hself : wokenCore pid hand i (s.core i) = s.core i := if_neg hw
    rw [hself]
    exact (Function.update_eq_self i s.core).symm

/-- A loop over slots in which each round acts on its own slot. -/
theorem foldl_core {f : Sched → Slot → Sched} {g : Slot → PCB → PCB}
    (hf : ∀ s i, (f s i).core = Function.update s.core i (g i (s.core i))) {l : List Slot}
    (hl : l.Nodup) (j : Slot) :
    (l.foldl f s).core j = if j ∈ l then g j (s.core j) else s.core j := by
  induction l generalizing s with
  | nil => rfl
  | cons i l ih =>
      obtain ⟨hil, hl⟩ := List.nodup_cons.mp hl
      rw [List.foldl_cons, ih (f s i) hl, hf]
      by_cases hji : j = i
      · subst hji
        rw [if_neg hil, if_pos List.mem_cons_self, Function.update_self]
      · rw [Function.update_of_ne hji]
        refine if_congr ?_ rfl rfl
        rw [List.mem_cons, or_iff_right hji]

theorem wakeWaiters_frame (pid : Int) (hand : Bool) : Frame s (s.wakeWaiters pid hand) :=
  Frame.foldl (fun s i => s.wakeWaiter_frame pid hand i) s

/-- The loop over the waiters on cores. -/
theorem wakeWaiters_core (pid : Int) (hand : Bool) (j : Slot) :
    (s.wakeWaiters pid hand).core j = wokenCore pid hand j (s.core j) := by
  rw [wakeWaiters, s.foldl_core (fun s i => s.wakeWaiter_core pid hand i)
    nodup_allSlots, if_pos (mem_allSlots j)]

/-! ### Dispatching -/

theorem dispatch_core : s.dispatch.1.core =
    Function.update s.core s.dequeueNextReady.2
      ((s.core s.dequeueNextReady.2).setState .running) := by
  have hcore := s.dequeueNextReady_core
  unfold dispatch
  generalize s.dequeueNextReady = r at hcore ⊢
  exact modify_core_of hcore r.2 (fun p => p.setState .running) fun _ => rfl

theorem dispatch_currentIdx : s.dispatch.1.currentIdx = s.dequeueNextReady.2 := by
  unfold dispatch
  generalize s.dequeueNextReady = r
  rfl

theorem dispatch_frame :
    s.dispatch.1.processCount = s.processCount ∧ s.dispatch.1.nextPid = s.nextPid ∧
      s.dispatch.1.idleStack = s.idleStack ∧ s.dispatch.1.freed = s.freed := by
  have hf := s.dequeueNextReady_frame
  unfold dispatch
  generalize s.dequeueNextReady = r at hf ⊢
  exact ⟨hf.processCount, hf.nextPid, hf.idleStack, hf.freed⟩

theorem saveRsp_core (rsp : Nat) : (s.saveRsp rsp).core = s.core := modify_core_eq s _ _ rfl

theorem countTick_core : s.countTick.core = s.core := modify_core_eq s _ _ rfl

theorem putBack_core : s.putBack.core =
    if s.CanReady s.currentIdx then
      Function.update s.core s.currentIdx ((s.core s.currentIdx).setState .ready)
    else s.core := by
  unfold putBack
  split
  · exact s.makeReady_core _ true
  · rename_i h0
    rw [if_neg fun h => h0 h.1]

theorem putBack_frame : Frame s s.putBack := by
  unfold putBack
  split
  · exact s.makeReady_frame _ true
  · exact .refl s

/-- What the timer does: keep the current process, put it back and dispatch the
next one, or dispatch while the current process does not run. -/
inductive TickCases (rsp : Nat) : Sched → Prop
  | keeps (hrun : s.current.state = .running) : TickCases rsp (s.saveRsp rsp).countTick
  | preempts (hrun : s.current.state = .running) :
      TickCases rsp (s.saveRsp rsp).countTick.putBack.dispatch.1
  | switches (hrun : s.current.state ≠ .running) : TickCases rsp (s.saveRsp rsp).dispatch.1

theorem saveRsp_current (rsp : Nat) : (s.saveRsp rsp).current.state = s.current.state := by
  show ((s.saveRsp rsp).core s.currentIdx).state = _
  rw [saveRsp_core]
  rfl

theorem schedulerTick_cases (rsp : Nat) : s.TickCases rsp (s.schedulerTick rsp).1 := by
  simp only [schedulerTick]
  split
  · rename_i hrun
    rw [saveRsp_current] at hrun
    split
    · exact .keeps hrun
    · exact .preempts hrun
  · rename_i hrun
    rw [saveRsp_current] at hrun
    exact .switches hrun

/-! ### Creation -/

/-- The state in which `scheduler_create` calls `make_ready` for the new
process in `slot`. -/
def createPrep (name : List UInt8) (priority fg : Int) (stack : Nat) (slot : Slot) : Sched :=
  let t := { s with nextPid := s.nextPid + 1 }
  let t := t.modify slot (created s.nextPid s.current.pid name priority fg stack)
  let t := if fg ≠ 0 then t.modify t.currentIdx (setForeground 0) else t
  let t := t.modify slot fun p => { p with fds := initialFds }
  { t with processCount := t.processCount + 1 }

theorem createPrep_frame (name : List UInt8) (pr fg : Int) (stack : Nat) (slot : Slot) :
    (s.createPrep name pr fg stack slot).currentIdx = s.currentIdx ∧
      (s.createPrep name pr fg stack slot).nextPid = s.nextPid + 1 ∧
      (s.createPrep name pr fg stack slot).processCount = s.processCount + 1 ∧
      (s.createPrep name pr fg stack slot).idleStack = s.idleStack ∧
      (s.createPrep name pr fg stack slot).freed = s.freed := by
  simp only [createPrep]
  split <;> exact ⟨rfl, rfl, rfl, rfl, rfl⟩

/-- The other processes: the creator may lose the foreground. -/
theorem createPrep_core_of_ne (name : List UInt8) (pr fg : Int) (stack : Nat) {slot j : Slot}
    (hj : j ≠ slot) :
    (s.createPrep name pr fg stack slot).core j =
      if fg ≠ 0 ∧ j = s.currentIdx then setForeground 0 (s.core j) else s.core j := by
  simp only [createPrep, core, modify_of_ne _ _ _ _ hj]
  by_cases hfg : fg = 0
  · simp only [hfg, ne_eq, not_true_eq_false, if_false, false_and, modify_of_ne _ _ _ _ hj]
  · simp only [hfg, ne_eq, not_false_eq_true, if_true, true_and, modify_processTable,
      modify_currentIdx, if_neg hj]
    split
    · rename_i hcur
      rw [← hcur, if_neg hj]
      rfl
    · rfl

/-- The new process. -/
theorem createPrep_core_slot (name : List UInt8) (pr fg : Int) (stack : Nat) (slot : Slot) :
    ∃ fg', (s.createPrep name pr fg stack slot).core slot =
      (setForeground fg' { created s.nextPid s.current.pid name pr fg stack (s.processTable slot)
        with fds := initialFds }).core := by
  simp only [createPrep, core, modify_self]
  by_cases hfg : fg = 0
  · refine ⟨fg, ?_⟩
    simp only [hfg, ne_eq, not_true_eq_false, if_false, modify_self]
    rfl
  · by_cases hcur : slot = s.currentIdx
    · refine ⟨0, ?_⟩
      simp only [hfg, ne_eq, not_false_eq_true, if_true, modify_currentIdx, ← hcur, modify_self]
      rfl
    · refine ⟨fg, ?_⟩
      simp only [hfg, ne_eq, not_false_eq_true, if_true, modify_currentIdx,
        modify_of_ne _ _ _ _ hcur, modify_self]
      rfl

/-- What `scheduler_create` can do: refuse, or fill a free slot. -/
inductive CreateCases (name : List UInt8) (fg : Int) (stack : Nat) : Sched × Int → Prop
  | refused : CreateCases name fg stack (s, -1)
  | creates (slot : Slot) (pr : Int) (hpr : 1 ≤ pr ∧ pr ≤ 5) (hslot : s.findFreeSlot = some slot)
      (hstack : stack ≠ 0) :
      CreateCases name fg stack ((s.createPrep name pr fg stack slot).makeReady slot true, s.nextPid)

theorem schedulerCreate_cases (name : List UInt8) (priority fg : Int) (stack : Nat) :
    s.CreateCases name fg stack (s.schedulerCreate name priority fg stack) := by
  have hpr : ∀ pr, pr = (if priority < priorityMin ∨ priority > priorityMax then defaultPriority
      else priority) → 1 ≤ pr ∧ pr ≤ 5 := by
    intro pr hpr
    unfold priorityMin priorityMax defaultPriority at hpr
    split at hpr <;> omega
  simp only [schedulerCreate]
  rcases hslot : s.findFreeSlot with - | slot
  · exact .refused
  · simp only
    split
    · exact .refused
    · rename_i hstack
      exact .creates slot _ (hpr _ rfl) hslot hstack

end Sched

end TP2Kernel
