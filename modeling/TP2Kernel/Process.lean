/-
TP2Kernel/Process.lean

The data of `Kernel/scheduler.c`: process control blocks, the process table,
the ready queues and the other static variables of the file, collected in one
record.  A table index is a `Slot`; the value `-1` of an index field
(`READY_NONE`) is `none`.  Pids, priorities and counters are plain integers.

The model starts after `scheduler_init`, so `current_idx` is always a slot and
the tests for a negative one are left out.  `mm_alloc` and `mm_free` are seen
from outside: the stack returned to `scheduler_create` is an input, and the
stacks given back are logged.

Every change of a process goes through `Sched.modify`; its two `simp` lemmas
are all that later proofs know about the table.
-/
import Mathlib.Algebra.GroupWithZero.Nat
import Mathlib.Logic.Function.Basic
import Mathlib.Data.List.FinRange

namespace TP2Kernel

/-! ### Process control blocks -/

/-- `MAX_PROCESSES`. -/
abbrev maxProcesses : Nat := 64

instance : NeZero maxProcesses := ⟨Nat.succ_ne_zero 63⟩

/-- An index into `process_table`. -/
abbrev Slot := Fin maxProcesses

/-- The states of a process. -/
inductive ProcState
  | ready
  | running
  | blocked
  | dead
  | zombie
  deriving DecidableEq, Repr

/-- `FDType`. -/
inductive FDType
  | none
  | stdin
  | stdout
  | pipeRead
  | pipeWrite
  deriving DecidableEq, Repr

/-- `FileDescriptor`; `pipeId` is `-1` where there is no pipe. -/
structure FileDescriptor where
  type : FDType
  pipeId : Int
  deriving DecidableEq, Repr

/-- `MAX_FDS`. -/
abbrev maxFds : Nat := 8

/-- `PCB`.  A null `stack_base` is `0`. -/
structure PCB where
  pid : Int
  parentPid : Int
  name : List UInt8
  state : ProcState
  priority : Int
  effectivePriority : Int
  quantumsLeft : Int
  readyNext : Option Slot
  inReadyQueue : Bool
  readyWaitTicks : Int
  rsp : Nat
  stackBase : Nat
  foreground : Int
  waitingFor : Int
  exitStatus : Int
  fds : Fin maxFds → FileDescriptor

/-- `PROCESS_PRIORITY_MIN`. -/
def priorityMin : Int := 1

/-- `PROCESS_PRIORITY_MAX`. -/
def priorityMax : Int := 5

/-- `PRIORITY_LEVELS`. -/
abbrev priorityLevels : Nat := 5

/-- `DEFAULT_PRIORITY`. -/
def defaultPriority : Int := 3

/-- `DEFAULT_QUANTUM`. -/
def defaultQuantum : Int := 1

/-- `AGING_THRESHOLD_TICKS`. -/
def agingThresholdTicks : Int := 6

/-- `STACK_SIZE`. -/
def stackSize : Nat := 4096

/-- `ReadyQueue`. -/
structure ReadyQueue where
  head : Option Slot
  tail : Option Slot

/-- The static variables of `scheduler.c`, the keyboard buffer it clears and
the stacks it has given back. -/
structure Sched where
  processTable : Slot → PCB
  processCount : Int
  currentIdx : Slot
  nextPid : Int
  needResched : Bool
  readyQueues : Fin priorityLevels → ReadyQueue
  idleStack : Nat
  keyboardBuffer : List UInt8
  freed : List Nat

namespace Sched

/-! ### Reading and writing the table -/

/-- Change one process. -/
def modify (s : Sched) (i : Slot) (f : PCB → PCB) : Sched :=
  { s with processTable := Function.update s.processTable i (f (s.processTable i)) }

/-- Replace one ready queue. -/
def setQueue (s : Sched) (q : Fin priorityLevels) (r : ReadyQueue) : Sched :=
  { s with readyQueues := Function.update s.readyQueues q r }

/-- The current process. -/
def current (s : Sched) : PCB := s.processTable s.currentIdx

section Fields

variable (s : Sched) (i j : Slot) (f : PCB → PCB) (q : Fin priorityLevels) (r : ReadyQueue)

theorem modify_processTable :
    (s.modify i f).processTable j = if j = i then f (s.processTable i) else s.processTable j :=
  Function.update_apply _ _ _ _

@[simp] theorem modify_self : (s.modify i f).processTable i = f (s.processTable i) :=
  Function.update_self _ _ _

theorem modify_of_ne (h : j ≠ i) : (s.modify i f).processTable j = s.processTable j :=
  Function.update_of_ne h _ _

/-- A field of every process that the change leaves alone. -/
theorem modify_field {α : Type} (g : PCB → α) (h : g (f (s.processTable i)) = g (s.processTable i)) :
    g ((s.modify i f).processTable j) = g (s.processTable j) := by
  rw [modify_processTable]
  split
  · rename_i hj
    rw [h, hj]
  · rfl

@[simp] theorem modify_currentIdx : (s.modify i f).currentIdx = s.currentIdx := rfl

@[simp] theorem modify_readyQueues : (s.modify i f).readyQueues = s.readyQueues := rfl

@[simp] theorem setQueue_processTable : (s.setQueue q r).processTable = s.processTable := rfl

end Fields

end Sched

/-- The slots in the order of the loops of `scheduler.c`. -/
def allSlots : List Slot := List.finRange maxProcesses

theorem mem_allSlots (i : Slot) : i ∈ allSlots := List.mem_finRange i

theorem nodup_allSlots : allSlots.Nodup := List.nodup_finRange maxProcesses

/-- The slots from `1` on. -/
def userSlots : List Slot := allSlots.tail

theorem mem_userSlots {i : Slot} : i ∈ userSlots ↔ i ≠ 0 := by
  have h : allSlots = 0 :: userSlots := rfl
  have hnd : (0 :: userSlots).Nodup := h ▸ nodup_allSlots
  have hmem : i ∈ 0 :: userSlots := h ▸ mem_allSlots i
  constructor
  · rintro hi rfl
    exact (List.nodup_cons.mp hnd).1 hi
  · intro hi
    exact (List.mem_cons.mp hmem).resolve_left hi

namespace Sched

/-! ### Searching the table -/

/-- `find_free_slot`. -/
def findFreeSlot (s : Sched) : Option Slot :=
  userSlots.find? fun i => (s.processTable i).state = .dead

/-- The search for a process that is not dead by which `find_index_by_pid`,
`get_process_by_pid` and the loops of the scheduler calls start. -/
def findIndexByPid (s : Sched) (pid : Int) : Option Slot :=
  allSlots.find? fun i => (s.processTable i).pid = pid ∧ (s.processTable i).state ≠ .dead

theorem findIndexByPid_some {s : Sched} {pid : Int} {i : Slot}
    (h : s.findIndexByPid pid = some i) :
    (s.processTable i).pid = pid ∧ (s.processTable i).state ≠ .dead := by
  have hi := List.find?_some h
  exact of_decide_eq_true hi

theorem findIndexByPid_none {s : Sched} {pid : Int} (h : s.findIndexByPid pid = none) (i : Slot)
    (hpid : (s.processTable i).pid = pid) : (s.processTable i).state = .dead := by
  have hi := List.find?_eq_none.mp h i (mem_allSlots i)
  by_contra hne
  exact hi (decide_eq_true ⟨hpid, hne⟩)

theorem findFreeSlot_some {s : Sched} {i : Slot} (h : s.findFreeSlot = some i) :
    i ≠ 0 ∧ (s.processTable i).state = .dead := by
  have hi := List.find?_some h
  exact ⟨mem_userSlots.mp (List.mem_of_find?_eq_some h), of_decide_eq_true hi⟩

end Sched

end TP2Kernel
