/-
TP2Kernel/Scheduler.lean

The calls of `Kernel/scheduler.c` that stay inside the scheduler: creation,
blocking, priorities, waiting for a child, and the dispatch done by the timer.
Killing and exiting also clean up semaphores and pipes and follow in
`Kernel.lean`.
-/
import TP2Kernel.ReadyQueue

namespace TP2Kernel

/-! ### Initialisation and creation -/

/-- A process control block after `memset` and the first loop of
`scheduler_init`. -/
def PCB.zero : PCB where
  pid := 0
  parentPid := 0
  name := []
  state := .dead
  priority := 0
  effectivePriority := 0
  quantumsLeft := 0
  readyNext := none
  inReadyQueue := false
  readyWaitTicks := 0
  rsp := 0
  stackBase := 0
  foreground := 0
  waitingFor := 0
  exitStatus := 0
  fds := fun _ => ⟨.none, 0⟩

/-- `copy_name`. -/
def copyName (src : List UInt8) : List UInt8 := (src.takeWhile (· ≠ 0)).take 31

/-- The `rsp` that `setup_initial_stack` stores: twenty words are pushed. -/
def initialRsp (stackBase : Nat) : Nat := stackBase + stackSize - 160

/-- `SCHEDULER_WAIT_BLOCKED`. -/
def schedulerWaitBlocked : Int := -2

/-- The descriptors of a new process. -/
def initialFds (fd : Fin maxFds) : FileDescriptor :=
  ⟨if fd = 0 then .stdin else if fd = 1 then .stdout else .none, -1⟩

namespace Sched

/-- `scheduler_init`. -/
def schedulerInit (idleStack : Nat) : Sched where
  processTable := fun i =>
    if i = 0 then
      { PCB.zero with
        state := .running, priority := 1, quantumsLeft := 1, stackBase := idleStack,
        waitingFor := -1, effectivePriority := 1,
        name := copyName [105, 100, 108, 101], rsp := initialRsp idleStack }
    else PCB.zero
  processCount := 1
  currentIdx := 0
  nextPid := 1
  needResched := false
  readyQueues := fun _ => ⟨none, none⟩
  idleStack := idleStack
  keyboardBuffer := []
  freed := []

/-- What `scheduler_create` sets in the slot of the new process; the descriptors
follow. -/
def created (pid parentPid : Int) (name : List UInt8) (priority fg : Int) (stack : Nat)
    (p : PCB) : PCB :=
  { p with
    pid := pid, parentPid := parentPid, state := .ready, priority := priority,
    effectivePriority := priority, quantumsLeft := defaultQuantum, readyNext := none,
    inReadyQueue := false, readyWaitTicks := 0, stackBase := stack, foreground := fg,
    waitingFor := -1, exitStatus := 0, name := copyName name, rsp := initialRsp stack }

/-- A process with another foreground flag. -/
def setForeground (fg : Int) (p : PCB) : PCB := { p with foreground := fg }

/-- `scheduler_create`: the new pid or `-1`.  `stack` is the answer of
`mm_alloc(STACK_SIZE)`, asked for only when there is a free slot. -/
def schedulerCreate (s : Sched) (name : List UInt8) (priority fg : Int) (stack : Nat) :
    Sched × Int :=
  let priority :=
    if priority < priorityMin ∨ priority > priorityMax then defaultPriority else priority
  match s.findFreeSlot with
  | none => (s, -1)
  | some slot =>
      if stack = 0 then (s, -1)
      else
        let pid := s.nextPid
        let parentPid := s.current.pid
        let s := { s with nextPid := s.nextPid + 1 }
        let s := s.modify slot (created pid parentPid name priority fg stack)
        let s := if fg ≠ 0 then s.modify s.currentIdx (setForeground 0) else s
        let s := s.modify slot fun p => { p with fds := initialFds }
        let s := { s with processCount := s.processCount + 1 }
        (s.makeReady slot true, pid)

/-! ### Blocking and priorities -/

/-- `quantums_left = 0`. -/
def expired (p : PCB) : PCB := { p with quantumsLeft := 0 }

/-- `scheduler_block`. -/
def schedulerBlock (s : Sched) (pid : Int) : Sched :=
  match s.findIndexByPid pid with
  | none => s
  | some i =>
      let s := s.removeFromReadyQueue i
      let s := s.modify i fun p => { p with state := .blocked }
      if i = s.currentIdx then
        { s.modify i expired with needResched := true }
      else s

/-- The search of `scheduler_unblock`. -/
def findBlocked (s : Sched) (pid : Int) : Option Slot :=
  allSlots.find? fun i => (s.processTable i).pid = pid ∧ (s.processTable i).state = .blocked

/-- `scheduler_unblock`. -/
def schedulerUnblock (s : Sched) (pid : Int) : Sched :=
  match s.findBlocked pid with
  | none => s
  | some i => s.makeReady i true

/-- What `scheduler_nice` sets. -/
def reniced (newPriority : Int) (p : PCB) : PCB :=
  { p with
    priority := newPriority, effectivePriority := newPriority, readyWaitTicks := 0,
    quantumsLeft := defaultQuantum }

/-- `scheduler_nice`. -/
def schedulerNice (s : Sched) (pid newPriority : Int) : Sched × Int :=
  if newPriority < priorityMin ∨ newPriority > priorityMax then (s, -1)
  else
    match s.findIndexByPid pid with
    | none => (s, -1)
    | some i =>
        let wasReady := (s.processTable i).inReadyQueue
        let s := if wasReady then s.removeFromReadyQueue i else s
        let s := s.modify i (reniced newPriority)
        let s := if wasReady then s.enqueueReadyQueue i else s
        if i = s.currentIdx ∨ newPriority > s.current.effectivePriority then
          ({ s with needResched := true }, 0)
        else (s, 0)

/-- `scheduler_getpid`. -/
def schedulerGetpid (s : Sched) : Int := s.current.pid

/-- `scheduler_yield`. -/
def schedulerYield (s : Sched) : Sched :=
  { s.modify s.currentIdx expired with needResched := true }

/-! ### Waiting for a child -/

/-- `mm_free` of a stack. -/
def freeStack (s : Sched) (stack : Nat) : Sched := { s with freed := stack :: s.freed }

/-- The fields `reap_process` resets. -/
def reaped (p : PCB) : PCB :=
  { p with
    pid := 0, parentPid := 0, state := .dead, priority := 0, effectivePriority := 0,
    quantumsLeft := 0, readyNext := none, inReadyQueue := false, readyWaitTicks := 0, rsp := 0,
    stackBase := 0, foreground := 0, waitingFor := -1, exitStatus := 0,
    fds := fun _ => ⟨.none, -1⟩ }

/-- `reap_process`. -/
def reapProcess (s : Sched) (idx : Slot) : Sched :=
  if idx = 0 then s
  else
    let s := s.removeFromReadyQueue idx
    let stack := (s.processTable idx).stackBase
    let s := if stack ≠ 0 ∧ stack ≠ s.idleStack then s.freeStack stack else s
    s.modify idx reaped

/-- What `scheduler_wait` sets in a caller that has to wait. -/
def waiting (pid : Int) (p : PCB) : PCB :=
  { p with waitingFor := pid, state := .blocked, quantumsLeft := 0 }

/-- `scheduler_wait`. -/
def schedulerWait (s : Sched) (pid : Int) : Sched × Int :=
  if pid ≤ 0 then (s, -1)
  else
    match s.findIndexByPid pid with
    | none => (s, -1)
    | some i =>
        if (s.processTable i).parentPid ≠ s.current.pid then (s, -1)
        else if (s.processTable i).state = .zombie then
          let status := (s.processTable i).exitStatus
          let s := s.reapProcess i
          ({ s with processCount := s.processCount - 1 }, status)
        else
          let s := s.modify s.currentIdx (waiting pid)
          ({ s with needResched := true }, schedulerWaitBlocked)

/-! ### The foreground process -/

/-- `keyboard_clear_buffer`. -/
def keyboardClearBuffer (s : Sched) : Sched := { s with keyboardBuffer := [] }

/-- `ensure_foreground_owner`. -/
def ensureForegroundOwner (s : Sched) : Sched :=
  if userSlots.any fun i =>
      (s.processTable i).state ≠ .dead ∧ (s.processTable i).state ≠ .zombie ∧
        (s.processTable i).foreground ≠ 0 then s
  else
    match s.findIndexByPid 1 with
    | none => s
    | some i =>
        if (s.processTable i).state ≠ .zombie then
          s.modify i (setForeground 1)
        else s

/-- `restore_parent_foreground`. -/
def restoreParentForeground (s : Sched) (idx : Slot) : Sched :=
  if (s.processTable idx).foreground = 0 then s
  else
    let s :=
      match s.findIndexByPid (s.processTable idx).parentPid with
      | none => s
      | some parent =>
          if (s.processTable parent).state ≠ ProcState.zombie then
            (s.modify parent (setForeground 1)).keyboardClearBuffer
          else s
    s.modify idx (setForeground 0)

/-- The body of the loop of `scheduler_kill` and `scheduler_exit_current` that
wakes a process waiting for `pid`; only the latter hands the foreground on. -/
def wakeWaiter (pid : Int) (handForeground : Bool) (s : Sched) (i : Slot) : Sched :=
  if (s.processTable i).state = .blocked ∧ (s.processTable i).waitingFor = pid then
    let s := s.modify i fun p => { p with waitingFor := -1 }
    let s :=
      if handForeground then
        (s.modify i (setForeground 1)).keyboardClearBuffer
      else s
    s.makeReady i true
  else s

/-- The loop over the waiters. -/
def wakeWaiters (s : Sched) (pid : Int) (handForeground : Bool) : Sched :=
  allSlots.foldl (wakeWaiter pid handForeground) s

/-! ### Dispatching -/

/-- What `scheduler_tick` sets in the process it dispatches. -/
def started (p : PCB) : PCB := { p with state := .running, quantumsLeft := defaultQuantum }

/-- Dispatch the next ready process. -/
def dispatch (s : Sched) : Sched × Nat :=
  let next := s.dequeueNextReady.2
  let s := s.dequeueNextReady.1.modify next started
  ({ s with currentIdx := next, needResched := false }, (s.processTable next).rsp)

/-- Save the stack pointer of the interrupted process. -/
def saveRsp (s : Sched) (rsp : Nat) : Sched := s.modify s.currentIdx fun p => { p with rsp := rsp }

/-- Count the tick against the quantum of the current process. -/
def countTick (s : Sched) : Sched :=
  s.modify s.currentIdx fun p => { p with quantumsLeft := p.quantumsLeft - 1 }

/-- The current process, unless idle, goes back to its ready queue. -/
def putBack (s : Sched) : Sched :=
  if s.currentIdx ≠ 0 then s.makeReady s.currentIdx true else s

/-- `scheduler_tick`. -/
def schedulerTick (s : Sched) (currentRsp : Nat) : Sched × Nat :=
  let s := s.saveRsp currentRsp
  if s.current.state = .running then
    let s := s.countTick
    if !s.needResched ∧ s.current.quantumsLeft > 0 ∧
        s.highestReadyPriority ≤ s.current.effectivePriority then (s, currentRsp)
    else s.putBack.dispatch
  else s.dispatch

/-- `scheduler_should_reschedule`. -/
def schedulerShouldReschedule (s : Sched) : Bool :=
  s.needResched || s.current.state ≠ .running || s.current.quantumsLeft ≤ 0 ||
    s.highestReadyPriority > s.current.effectivePriority

end Sched

end TP2Kernel
