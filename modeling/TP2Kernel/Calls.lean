/-
TP2Kernel/Calls.lean

The calls that reach across scheduler, semaphores and pipes: killing and
exiting in `Kernel/scheduler.c`, and binding a descriptor in
`Kernel/syscalls_kernel.c`.  `Op` collects everything the kernel can be asked
to do in one uninterrupted piece, and `exec` runs one such piece.
-/
import TP2Kernel.Pipe
import TP2Kernel.Runs

namespace TP2Kernel

namespace Kernel

/-! ### Killing and exiting -/

/-- Change the scheduler. -/
def onSched (k : Kernel) (f : Sched → Sched) : Kernel := { k with sched := f k.sched }

@[simp] theorem onSched_sched (k : Kernel) (f : Sched → Sched) : (k.onSched f).sched = f k.sched :=
  rfl

theorem onSched_proc (k : Kernel) (f : Sched → Sched) (j : Slot) :
    (k.onSched f).proc j = (f k.sched).processTable j := rfl

@[simp] theorem onSched_semTable (k : Kernel) (f : Sched → Sched) :
    (k.onSched f).semTable = k.semTable := rfl

@[simp] theorem onSched_pipeTable (k : Kernel) (f : Sched → Sched) :
    (k.onSched f).pipeTable = k.pipeTable := rfl

/-- Close the pipe end a descriptor names. -/
def releaseFd (k : Kernel) (d : FileDescriptor) : Kernel :=
  match d.type with
  | .pipeRead => (k.pipeClose d.pipeId false).1
  | .pipeWrite => (k.pipeClose d.pipeId true).1
  | _ => k

/-- A process with another descriptor. -/
def setFd (fd : Fin maxFds) (d : FileDescriptor) (p : PCB) : PCB :=
  { p with fds := Function.update p.fds fd d }

/-- The body of the loop of `close_process_fds`. -/
def closeFd (idx : Slot) (k : Kernel) (fd : Fin maxFds) : Kernel :=
  (k.releaseFd ((k.proc idx).fds fd)).onSched fun s => s.modify idx (setFd fd ⟨.none, -1⟩)

/-- `close_process_fds`. -/
def closeProcessFds (k : Kernel) (idx : Slot) : Kernel :=
  (List.finRange maxFds).foldl (closeFd idx) k

/-- A process with its exit status. -/
def setExitStatus (status : Int) (p : PCB) : PCB := { p with exitStatus := status }

/-- What `scheduler_exit_current` leaves of the process. -/
def ended (p : PCB) : PCB := { p with state := .zombie, quantumsLeft := 0, readyWaitTicks := 0 }

/-- The part of `scheduler_exit_current` before `close_process_fds`. -/
def exitPrep (k : Kernel) (cur : Slot) (status : Int) : Kernel :=
  let k := k.onSched fun s => s.modify cur (setExitStatus status)
  k.onSched fun s => s.restoreParentForeground cur

/-- The part of `scheduler_exit_current` that follows `close_process_fds`. -/
def leave (s : Sched) (cur : Slot) (pid : Int) (finishedWasForeground : Bool) : Sched :=
  let s := s.removeFromReadyQueue cur
  let s := s.modify cur ended
  let s := { s with needResched := true }
  let s := s.wakeWaiters pid finishedWasForeground
  s.ensureForegroundOwner

/-- `scheduler_exit_current`. -/
def schedulerExitCurrent (k : Kernel) (status : Int) : Kernel :=
  if k.sched.currentIdx = 0 then k
  else
    let cur := k.sched.currentIdx
    let pid := (k.proc cur).pid
    let finishedWasForeground : Bool := (k.proc cur).foreground ≠ 0
    ((k.exitPrep cur status).closeProcessFds cur).onSched fun s =>
      leave s cur pid finishedWasForeground

/-- What `scheduler_kill` resets in the process it kills. -/
def killed (p : PCB) : PCB :=
  { p with
    state := .dead, quantumsLeft := 0, waitingFor := -1, effectivePriority := 0,
    readyNext := none, inReadyQueue := false, readyWaitTicks := 0 }

/-- The part of `scheduler_kill` before `close_process_fds`. -/
def killPrep (k : Kernel) (i : Slot) (pid : Int) : Kernel :=
  let k := k.onSched fun s => s.removeFromReadyQueue i
  let k := k.onSched fun s => s.restoreParentForeground i
  k.semRemoveWaitingPid pid

/-- The part of `scheduler_kill` that follows `close_process_fds`. -/
def bury (s : Sched) (i : Slot) (pid : Int) : Sched :=
  let s := s.modify i killed
  let stack := (s.processTable i).stackBase
  let s :=
    if stack ≠ s.idleStack then
      (s.freeStack stack).modify i fun p => { p with stackBase := 0 }
    else s
  let s := { s with processCount := s.processCount - 1 }
  let s := s.wakeWaiters pid false
  s.ensureForegroundOwner

/-- `scheduler_kill` of the process in slot `i`, which is not the current
one. -/
def killOther (k : Kernel) (i : Slot) (pid : Int) : Kernel :=
  ((k.killPrep i pid).closeProcessFds i).onSched fun s => bury s i pid

/-- `scheduler_kill`. -/
def schedulerKill (k : Kernel) (pid : Int) : Kernel × Int :=
  if pid ≤ 1 then (k, -1)
  else
    match k.sched.findIndexByPid pid with
    | none => (k, -1)
    | some i =>
        if i = k.sched.currentIdx then (k.schedulerExitCurrent (-1), 0)
        else (k.killOther i pid, 0)

/-- The process `scheduler_kill_foreground` picks. -/
def findForeground (s : Sched) : Option Slot :=
  userSlots.find? fun i =>
    (s.processTable i).state ≠ .dead ∧ (s.processTable i).foreground ≠ 0 ∧
      (s.processTable i).pid > 1

/-- `scheduler_kill_foreground`. -/
def schedulerKillForeground (k : Kernel) : Kernel × Int :=
  match findForeground k.sched with
  | none => (k, -1)
  | some i => k.schedulerKill (k.proc i).pid

/-! ### Descriptors -/

/-- `syscall_pipe_set_fd`; `fd` is unsigned. -/
def syscallPipeSetFd (k : Kernel) (pid : Int) (fd : Nat) (pipeId : Int) (isWrite : Bool) :
    Kernel × Int :=
  match k.sched.findIndexByPid pid with
  | none => (k, -1)
  | some i =>
      if h : fd < maxFds then
        if !k.pipeIsOpen pipeId then (k, -1)
        else
          let (k, r) := k.pipeAttach pipeId isWrite
          if r < 0 then (k, -1)
          else
            let k := k.releaseFd ((k.proc i).fds ⟨fd, h⟩)
            let bound : FileDescriptor := ⟨if isWrite then .pipeWrite else .pipeRead, pipeId⟩
            (k.onSched fun s => s.modify i (setFd ⟨fd, h⟩ bound), 0)
      else (k, -1)

/-- What `syscall_pipe_set_fd` can do: refuse, or attach, give up what the
descriptor named before and bind it. -/
inductive SetFdCases (k : Kernel) (pid : Int) (fd : Nat) (pipeId : Int) (isWrite : Bool) :
    Kernel × Int → Prop
  | refused : SetFdCases k pid fd pipeId isWrite (k, -1)
  | binds (i : Slot) (n : Fin maxFds) (p : Fin maxPipes)
      (hi : k.sched.findIndexByPid pid = some i) (hn : n.val = fd)
      (hp : k.validPipe pipeId = some p) :
      SetFdCases k pid fd pipeId isWrite
        (((k.pipeAttach pipeId isWrite).1.releaseFd ((k.proc i).fds n)).onSched fun s =>
          s.modify i (setFd n ⟨if isWrite then .pipeWrite else .pipeRead, pipeId⟩), 0)

theorem syscallPipeSetFd_cases (k : Kernel) (pid : Int) (fd : Nat) (pipeId : Int) (w : Bool) :
    SetFdCases k pid fd pipeId w (k.syscallPipeSetFd pid fd pipeId w) := by
  simp only [syscallPipeSetFd]
  rcases hi : k.sched.findIndexByPid pid with - | i
  · exact .refused
  · simp only
    split
    · rename_i hfd
      rcases hp : k.validPipe pipeId with - | p
      · rw [pipeIsOpen, hp]
        exact .refused
      · have hproc : (k.pipeAttach pipeId w).1.proc i = k.proc i := by
          unfold proc
          rw [pipeAttach_sched]
        rw [pipeIsOpen, hp, k.pipeAttach_result hp, hproc]
        exact .binds i ⟨fd, hfd⟩ p hi rfl hp
    · exact .refused

/-! ### What the end of a process keeps -/

/-- A relation between a kernel and a later one that holds across everything the
end of a process does. -/
structure EndClosed (R : Kernel → Kernel → Prop) : Prop where
  refl : ∀ k, R k k
  trans : ∀ {k k' k''}, R k k' → R k' k'' → R k k''
  sched : ∀ (k : Kernel) (f : Sched → Sched), R k (k.onSched f)
  closes : ∀ (k : Kernel) (pipeId : Int) (w : Bool), R k (k.pipeClose pipeId w).1
  removes : ∀ (k : Kernel) (pid : Int), R k (k.semRemoveWaitingPid pid)

namespace EndClosed

variable {R : Kernel → Kernel → Prop} (h : EndClosed R) (k : Kernel)

include h

theorem releaseFd (d : FileDescriptor) : R k (k.releaseFd d) := by
  unfold Kernel.releaseFd
  split
  · exact h.closes k _ _
  · exact h.closes k _ _
  · exact h.refl k

theorem foldl_closeFd (i : Slot) (l : List (Fin maxFds)) : R k (l.foldl (closeFd i) k) := by
  induction l generalizing k with
  | nil => exact h.refl k
  | cons fd l ih =>
      exact h.trans (h.trans (h.releaseFd k ((k.proc i).fds fd)) (h.sched _ _)) (ih _)

theorem closeProcessFds (i : Slot) : R k (k.closeProcessFds i) := h.foldl_closeFd k i _

theorem schedulerExitCurrent (status : Int) : R k (k.schedulerExitCurrent status) := by
  unfold Kernel.schedulerExitCurrent
  split
  · exact h.refl k
  · apply h.trans _ (h.sched _ _)
    have hprep : R k (k.exitPrep k.sched.currentIdx status) := by
      apply h.trans (h.sched k fun s => s.modify k.sched.currentIdx (setExitStatus status))
      exact h.sched _ fun s => s.restoreParentForeground k.sched.currentIdx
    exact h.trans hprep (h.closeProcessFds _ _)

theorem killOther (i : Slot) (pid : Int) : R k (k.killOther i pid) := by
  unfold Kernel.killOther
  apply h.trans _ (h.sched _ _)
  have hprep : R k (k.killPrep i pid) := by
    apply h.trans (h.sched k fun s => s.removeFromReadyQueue i)
    apply h.trans (h.sched _ fun s => s.restoreParentForeground i)
    exact h.removes _ pid
  exact h.trans hprep (h.closeProcessFds _ _)

theorem schedulerKill (pid : Int) : R k (k.schedulerKill pid).1 := by
  unfold Kernel.schedulerKill
  split
  · exact h.refl k
  · split
    · exact h.refl k
    · split
      · exact h.schedulerExitCurrent k _
      · exact h.killOther k _ _

theorem schedulerKillForeground : R k k.schedulerKillForeground.1 := by
  unfold Kernel.schedulerKillForeground
  split
  · exact h.refl k
  · exact h.schedulerKill k _

theorem syscallPipeSetFd (pid : Int) (fd : Nat) (pipeId : Int) (w : Bool)
    (hattach : R k (k.pipeAttach pipeId w).1) : R k (k.syscallPipeSetFd pid fd pipeId w).1 := by
  have hcase := k.syscallPipeSetFd_cases pid fd pipeId w
  generalize k.syscallPipeSetFd pid fd pipeId w = r at hcase
  cases hcase with
  | refused => exact h.refl k
  | binds i n p _ _ _ =>
      apply h.trans (h.trans hattach (h.releaseFd _ ((k.proc i).fds n)))
      exact h.sched _ fun s => s.modify i (setFd n ⟨if w then .pipeWrite else .pipeRead, pipeId⟩)

end EndClosed

/-! ### One piece of kernel code -/

/-- What the kernel can be asked to do without interruption. -/
inductive Op
  | create (name : List UInt8) (priority fg : Int) (stack : Nat)
  | kill (pid : Int)
  | killForeground
  | block (pid : Int)
  | unblock (pid : Int)
  | nice (pid newPriority : Int)
  | wait (pid : Int)
  | exit (status : Int)
  | yield
  | tick (rsp : Nat)
  | semOpen (name : List UInt8) (initialValue : Int)
  | semWait (semId : Int)
  | semPost (semId : Int)
  | semPostAll (semId : Int)
  | semClose (semId : Int)
  | pipeOpen (capacity : Int)
  | pipeClose (pipeId : Int) (isWrite : Bool)
  | pipeSetFd (pid : Int) (fd : Nat) (pipeId : Int) (isWrite : Bool)
  | pipeRead (p : Fin maxPipes)
  | pipeWrite (p : Fin maxPipes) (c : UInt8)

/-- Run one piece. -/
def exec (k : Kernel) : Op → Kernel
  | .create name priority fg stack =>
      { k with sched := (k.sched.schedulerCreate name priority fg stack).1 }
  | .kill pid => (k.schedulerKill pid).1
  | .killForeground => k.schedulerKillForeground.1
  | .block pid => { k with sched := k.sched.schedulerBlock pid }
  | .unblock pid => { k with sched := k.sched.schedulerUnblock pid }
  | .nice pid newPriority => { k with sched := (k.sched.schedulerNice pid newPriority).1 }
  | .wait pid => { k with sched := (k.sched.schedulerWait pid).1 }
  | .exit status => k.schedulerExitCurrent status
  | .yield => { k with sched := k.sched.schedulerYield }
  | .tick rsp => { k with sched := (k.sched.schedulerTick rsp).1 }
  | .semOpen name initialValue => (k.semOpen name initialValue).1
  | .semWait semId => (k.semWait semId).1
  | .semPost semId => (k.semPost semId).1
  | .semPostAll semId => (k.semPostAll semId).1
  | .semClose semId => (k.semClose semId).1
  | .pipeOpen capacity => (k.pipeOpenWithCapacity capacity).1
  | .pipeClose pipeId isWrite => (k.pipeClose pipeId isWrite).1
  | .pipeSetFd pid fd pipeId isWrite => (k.syscallPipeSetFd pid fd pipeId isWrite).1
  | .pipeRead p => (k.pipeReadStep p).1
  | .pipeWrite p c => (k.pipeWriteStep p c).1

/-- The kernel as a machine: any piece can come next. -/
def machine : Machine Kernel Op where
  guard := fun _ _ => True
  step := fun k op => some (k.exec op)

instance (k : Kernel) (op : Op) : Decidable (machine.guard k op) :=
  inferInstanceAs (Decidable True)

instance (ok : Kernel → Op → Prop) [∀ k op, Decidable (ok k op)] (k : Kernel) (op : Op) :
    Decidable ((machine.restrict ok).guard k op) :=
  inferInstanceAs (Decidable (True ∧ ok k op))

/-- What every piece that meets `ok` keeps holds in every run of such
pieces. -/
theorem machine_invariant {ok : Kernel → Op → Prop} {I : Kernel → Prop} {k₀ k : Kernel}
    (h : (machine.restrict ok).Reach k₀ k) (h₀ : I k₀)
    (hstep : ∀ k op, I k → ok k op → I (k.exec op)) : I k := by
  refine h.invariant h₀ fun k op k' hk hg hs => ?_
  obtain rfl := Option.some.inj hs
  exact hstep k op hk hg.2

end Kernel

end TP2Kernel
