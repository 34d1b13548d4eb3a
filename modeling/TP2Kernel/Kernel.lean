/-
TP2Kernel/Kernel.lean

The state of the kernel: the scheduler together with the static tables of
`Kernel/semaphore.c` and `Kernel/pipe.c`.

A semaphore's arrays `waiting` and `waiting_credit` are one list of pairs, cut
to the first `wait_count` entries.  The counters of a pipe are never negative
in the code, each decrement being guarded, so they are natural numbers.
-/
import TP2Kernel.Scheduler

namespace TP2Kernel

/-- `MAX_SEMAPHORES`. -/
abbrev maxSemaphores : Nat := 64

/-- `MAX_WAITING`. -/
def maxWaiting : Nat := 64

/-- `Semaphore`; `waiting` holds the pids with their credits. -/
structure Semaphore where
  name : List UInt8
  value : Int
  waiting : List (Int × Int)
  active : Bool
  refCount : Int

/-- Count a post or a wait. -/
def Semaphore.addValue (s : Semaphore) (d : Int) : Semaphore := { s with value := s.value + d }

/-- Replace the queue. -/
def Semaphore.setWaiting (s : Semaphore) (ws : List (Int × Int)) : Semaphore :=
  { s with waiting := ws }

section SemaphoreFields

variable (s : Semaphore) (d : Int) (ws : List (Int × Int))

@[simp] theorem Semaphore.addValue_value : (s.addValue d).value = s.value + d := rfl

@[simp] theorem Semaphore.addValue_waiting : (s.addValue d).waiting = s.waiting := rfl

@[simp] theorem Semaphore.addValue_active : (s.addValue d).active = s.active := rfl

@[simp] theorem Semaphore.setWaiting_value : (s.setWaiting ws).value = s.value := rfl

@[simp] theorem Semaphore.setWaiting_waiting : (s.setWaiting ws).waiting = ws := rfl

@[simp] theorem Semaphore.setWaiting_active : (s.setWaiting ws).active = s.active := rfl

end SemaphoreFields

/-- `MAX_PIPES`. -/
abbrev maxPipes : Nat := 32

/-- `PIPE_BUF_SIZE`. -/
def pipeBufSize : Nat := 512

/-- `Pipe`. -/
structure Pipe where
  buf : Nat → UInt8
  readPos : Nat
  writePos : Nat
  count : Nat
  capacity : Nat
  active : Bool
  readers : Nat
  writers : Nat

/-- The scheduler, the semaphores and the pipes. -/
structure Kernel where
  sched : Sched
  semTable : Fin maxSemaphores → Semaphore
  pipeTable : Fin maxPipes → Pipe
  pipeSemData : Fin maxPipes → Int
  pipeSemSpace : Fin maxPipes → Int
  pipeReservedReaders : Fin maxPipes → Nat
  pipeReservedWriters : Fin maxPipes → Nat

/-- An identifier passed to the kernel as an index of a table. -/
def index? (n : Nat) (id : Int) : Option (Fin n) :=
  if h : 0 ≤ id ∧ id < n then some ⟨id.toNat, by omega⟩ else none

theorem index?_natCast {n : Nat} (i : Fin n) : index? n (i.val : Int) = some i := by
  have h : (0 : Int) ≤ (i.val : Int) ∧ (i.val : Int) < (n : Int) := by omega
  unfold index?
  rw [dif_pos h]
  rfl

theorem index?_eq_some {n : Nat} {id : Int} {i : Fin n} (h : index? n id = some i) :
    id = (i.val : Int) := by
  unfold index? at h
  split at h
  · rename_i hb
    rw [← Option.some.inj h]
    simp only
    omega
  · cases h

namespace Kernel

/-- The kernel before any process, semaphore or pipe has been created. -/
def init (idleStack : Nat) : Kernel where
  sched := Sched.schedulerInit idleStack
  semTable := fun _ => ⟨[], 0, [], false, 0⟩
  pipeTable := fun _ => ⟨fun _ => 0, 0, 0, 0, 0, false, 0, 0⟩
  pipeSemData := fun _ => 0
  pipeSemSpace := fun _ => 0
  pipeReservedReaders := fun _ => 0
  pipeReservedWriters := fun _ => 0

/-- Change one semaphore. -/
def modifySem (k : Kernel) (i : Fin maxSemaphores) (f : Semaphore → Semaphore) : Kernel :=
  { k with semTable := Function.update k.semTable i (f (k.semTable i)) }

/-- Change one pipe. -/
def modifyPipe (k : Kernel) (p : Fin maxPipes) (f : Pipe → Pipe) : Kernel :=
  { k with pipeTable := Function.update k.pipeTable p (f (k.pipeTable p)) }

/-- The state of a process. -/
def proc (k : Kernel) (i : Slot) : PCB := k.sched.processTable i

section Fields

variable (k : Kernel) (i j : Fin maxSemaphores) (f : Semaphore → Semaphore)
  (p p' : Fin maxPipes) (g : Pipe → Pipe)

@[simp] theorem modifySem_self : (k.modifySem i f).semTable i = f (k.semTable i) :=
  Function.update_self _ _ _

theorem modifySem_of_ne (h : j ≠ i) : (k.modifySem i f).semTable j = k.semTable j :=
  Function.update_of_ne h _ _

theorem modifySem_semTable :
    (k.modifySem i f).semTable j = if j = i then f (k.semTable i) else k.semTable j :=
  Function.update_apply _ _ _ _

/-- A field the change leaves alone. -/
theorem modifySem_field {α : Type} {g : Semaphore → α} {f : Semaphore → Semaphore}
    (h : ∀ m, g (f m) = g m) : g ((k.modifySem i f).semTable j) = g (k.semTable j) := by
  rw [modifySem_semTable]
  split
  · rename_i hji
    rw [h, hji]
  · rfl

theorem modifySem_eq_self (h : f (k.semTable i) = k.semTable i) : k.modifySem i f = k := by
  unfold modifySem
  rw [h, Function.update_eq_self]

theorem modifySem_modifySem (f' : Semaphore → Semaphore) :
    (k.modifySem i f).modifySem i f' = k.modifySem i fun s => f' (f s) := by
  unfold modifySem
  simp only [Function.update_self, Function.update_idem]

@[simp] theorem modifySem_sched : (k.modifySem i f).sched = k.sched := rfl

@[simp] theorem modifyPipe_self : (k.modifyPipe p g).pipeTable p = g (k.pipeTable p) :=
  Function.update_self _ _ _

theorem modifyPipe_of_ne (h : p' ≠ p) : (k.modifyPipe p g).pipeTable p' = k.pipeTable p' :=
  Function.update_of_ne h _ _

theorem modifyPipe_pipeTable :
    (k.modifyPipe p g).pipeTable p' = if p' = p then g (k.pipeTable p) else k.pipeTable p' :=
  Function.update_apply _ _ _ _

@[simp] theorem modifyPipe_reservedReaders :
    (k.modifyPipe p g).pipeReservedReaders = k.pipeReservedReaders := rfl

@[simp] theorem modifyPipe_reservedWriters :
    (k.modifyPipe p g).pipeReservedWriters = k.pipeReservedWriters := rfl

@[simp] theorem modifyPipe_semTable : (k.modifyPipe p g).semTable = k.semTable := rfl

end Fields

end Kernel

end TP2Kernel
