/-
TP2Kernel/Pipe.lean

`Kernel/pipe.c`: byte pipes with a ring buffer, end-point counts, end points
reserved at creation, and two semaphores each.

`pipe_read` and `pipe_write` are cut where interrupts can come in: one round
of the `while` loop, or the transfer of one byte, is one step.  A round that
blocks leaves the process `BLOCKED` on the semaphore; the call goes on from
its loop condition when the process runs again.
-/
import TP2Kernel.Semaphore

namespace TP2Kernel

/-- The outcome of one step of `pipe_read`. -/
inductive ReadOutcome
  | byte (b : UInt8)
  | eof
  | blocked
  | again
  | failed
  deriving DecidableEq

/-- The outcome of one step of `pipe_write`. -/
inductive WriteOutcome
  | stored
  | noReaders
  | blocked
  | again
  | failed
  deriving DecidableEq

namespace Pipe

/-- A pipe from which the byte at `read_pos` has been taken. -/
def take (b : Pipe) : Pipe :=
  { b with readPos := (b.readPos + 1) % b.capacity, count := b.count - 1 }

/-- A pipe in which a byte has been stored at `write_pos`. -/
def put (b : Pipe) (c : UInt8) : Pipe :=
  { b with
    buf := Function.update b.buf b.writePos c
    writePos := (b.writePos + 1) % b.capacity
    count := b.count + 1 }

end Pipe

namespace Kernel

/-! ### Opening and attaching -/

/-- `pipe_init_sems`. -/
def pipeInitSems (k : Kernel) (p : Fin maxPipes) : Kernel :=
  let digit := 48 + UInt8.ofNat p.val
  let (k, data) := k.semOpen [100, digit] 0
  let k := { k with pipeSemData := Function.update k.pipeSemData p data }
  let (k, space) := k.semOpen [115, digit] 0
  { k with pipeSemSpace := Function.update k.pipeSemSpace p space }

/-- The free entry `pipe_open_with_capacity` finds. -/
def findFreePipe (k : Kernel) : Option (Fin maxPipes) :=
  (List.finRange maxPipes).find? fun p => !(k.pipeTable p).active

/-- `pipe_open_with_capacity`. -/
def pipeOpenWithCapacity (k : Kernel) (capacity : Int) : Kernel × Int :=
  if capacity ≤ 0 ∨ capacity > pipeBufSize then (k, -1)
  else
    match k.findFreePipe with
    | none => (k, -1)
    | some p =>
        let k := k.modifyPipe p fun b =>
          { b with
            readPos := 0, writePos := 0, count := 0, capacity := capacity.toNat, readers := 1,
            writers := 1, active := true }
        let k := { k with
          pipeReservedReaders := Function.update k.pipeReservedReaders p 1
          pipeReservedWriters := Function.update k.pipeReservedWriters p 1 }
        (k.pipeInitSems p, p.val)

/-- `pipe_open`. -/
def pipeOpen (k : Kernel) : Kernel × Int := k.pipeOpenWithCapacity pipeBufSize

/-- The index of an active pipe. -/
def validPipe (k : Kernel) (pipeId : Int) : Option (Fin maxPipes) :=
  (index? maxPipes pipeId).filter fun p => (k.pipeTable p).active

/-- `pipe_is_open`. -/
def pipeIsOpen (k : Kernel) (pipeId : Int) : Bool := (k.validPipe pipeId).isSome

/-- `pipe_attach`. -/
def pipeAttach (k : Kernel) (pipeId : Int) (isWrite : Bool) : Kernel × Int :=
  match k.validPipe pipeId with
  | none => (k, -1)
  | some p =>
      if isWrite then
        if k.pipeReservedWriters p > 0 then
          ({ k with pipeReservedWriters :=
              Function.update k.pipeReservedWriters p (k.pipeReservedWriters p - 1) }, 0)
        else (k.modifyPipe p fun b => { b with writers := b.writers + 1 }, 0)
      else
        if k.pipeReservedReaders p > 0 then
          ({ k with pipeReservedReaders :=
              Function.update k.pipeReservedReaders p (k.pipeReservedReaders p - 1) }, 0)
        else (k.modifyPipe p fun b => { b with readers := b.readers + 1 }, 0)

/-! ### Closing -/

/-- The counts after `pipe_close` of one end; subtraction on naturals is the
guarded decrement of the code. -/
def dropEnd (k : Kernel) (p : Fin maxPipes) (isWrite : Bool) : Kernel :=
  if isWrite then
    { k.modifyPipe p (fun b => { b with writers := b.writers - 1 }) with
      pipeReservedWriters :=
        Function.update k.pipeReservedWriters p (k.pipeReservedWriters p - 1) }
  else
    { k.modifyPipe p (fun b => { b with readers := b.readers - 1 }) with
      pipeReservedReaders :=
        Function.update k.pipeReservedReaders p (k.pipeReservedReaders p - 1) }

/-- The posts of `pipe_close`. -/
def closePosts (k : Kernel) (p : Fin maxPipes) (isWrite : Bool) : Kernel :=
  let b := k.pipeTable p
  if isWrite then
    if b.writers = 0 then (k.semPostAll (k.pipeSemData p)).1
    else if b.count < b.capacity then (k.semPost (k.pipeSemSpace p)).1
    else k
  else
    if b.readers = 0 then (k.semPostAll (k.pipeSemSpace p)).1
    else if b.count > 0 then (k.semPost (k.pipeSemData p)).1
    else k

/-- The end of `pipe_close`: a pipe with no end left is given up. -/
def retire (k : Kernel) (p : Fin maxPipes) : Kernel :=
  if (k.pipeTable p).readers = 0 ∧ (k.pipeTable p).writers = 0 then
    let k := { k.modifyPipe p (fun b => { b with active := false }) with
      pipeReservedReaders := Function.update k.pipeReservedReaders p 0
      pipeReservedWriters := Function.update k.pipeReservedWriters p 0 }
    let k := (k.semClose (k.pipeSemData p)).1
    (k.semClose (k.pipeSemSpace p)).1
  else k

/-- `pipe_close`. -/
def pipeClose (k : Kernel) (pipeId : Int) (isWrite : Bool) : Kernel × Int :=
  match k.validPipe pipeId with
  | none => (k, -1)
  | some p => (((k.dropEnd p isWrite).closePosts p isWrite).retire p, 0)

/-! ### Reading and writing -/

/-- `wait_sem_blocking` up to the point where it halts. -/
def waitSem {α : Type} (k : Kernel) (semId : Int) (failed blocked again : α) : Kernel × α :=
  let (k, result) := k.semWait semId
  (k, if result < 0 then failed else if result > 0 then blocked else again)

/-- One step of `pipe_read` on the pipe `p`. -/
def pipeReadStep (k : Kernel) (p : Fin maxPipes) : Kernel × ReadOutcome :=
  let b := k.pipeTable p
  if b.writers > 0 ∧ b.count = 0 then
    k.waitSem (k.pipeSemData p) .failed .blocked .again
  else if b.count = 0 then (k, .eof)
  else
    let k := k.modifyPipe p Pipe.take
    ((k.semPost (k.pipeSemSpace p)).1, .byte (b.buf b.readPos))

/-- One step of `pipe_write` of the byte `c` on the pipe `p`. -/
def pipeWriteStep (k : Kernel) (p : Fin maxPipes) (c : UInt8) : Kernel × WriteOutcome :=
  let b := k.pipeTable p
  if b.readers > 0 ∧ b.count ≥ b.capacity then
    k.waitSem (k.pipeSemSpace p) .failed .blocked .again
  else if b.readers = 0 then (k, .noReaders)
  else
    let k := k.modifyPipe p fun b => b.put c
    ((k.semPost (k.pipeSemData p)).1, .stored)

/-! ### What the calls do -/

variable (k : Kernel)

/-- What one step of `pipe_read` or `pipe_write` can do: wait for the semaphore
`own`, break off, or move a byte and post `other`. -/
inductive StepCases {α : Type} (p : Fin maxPipes) (own other : Int) (move : Pipe → Pipe)
    (dry shut live : Prop) (failed blocked again stop done : α) : Kernel × α → Prop
  | waits (h : dry) :
      StepCases p own other move dry shut live failed blocked again stop done
        (k.waitSem own failed blocked again)
  | stops (h : shut) :
      StepCases p own other move dry shut live failed blocked again stop done (k, stop)
  | moves (h : live) :
      StepCases p own other move dry shut live failed blocked again stop done
        (((k.modifyPipe p move).semPost other).1, done)

theorem pipeReadStep_cases (p : Fin maxPipes) :
    k.StepCases p (k.pipeSemData p) (k.pipeSemSpace p) Pipe.take
      (0 < (k.pipeTable p).writers ∧ (k.pipeTable p).count = 0)
      ((k.pipeTable p).writers = 0 ∧ (k.pipeTable p).count = 0) (0 < (k.pipeTable p).count)
      .failed .blocked .again .eof (.byte ((k.pipeTable p).buf (k.pipeTable p).readPos))
      (k.pipeReadStep p) := by
  simp only [pipeReadStep]
  split
  · exact .waits ‹_›
  · rename_i hdry
    split
    · rename_i h0
      exact .stops ⟨by omega, h0⟩
    · rename_i h0
      exact .moves (Nat.pos_of_ne_zero h0)

theorem pipeWriteStep_cases (p : Fin maxPipes) (c : UInt8) :
    k.StepCases p (k.pipeSemSpace p) (k.pipeSemData p) (fun b => b.put c)
      (0 < (k.pipeTable p).readers ∧ (k.pipeTable p).capacity ≤ (k.pipeTable p).count)
      ((k.pipeTable p).readers = 0)
      (0 < (k.pipeTable p).readers ∧ (k.pipeTable p).count < (k.pipeTable p).capacity)
      .failed .blocked .again .noReaders .stored (k.pipeWriteStep p c) := by
  simp only [pipeWriteStep]
  split
  · exact .waits ‹_›
  · rename_i hdry
    split
    · exact .stops ‹_›
    · rename_i h0
      exact .moves (by omega)

theorem validPipe_some {pipeId : Int} {p : Fin maxPipes} (h : k.validPipe pipeId = some p) :
    (k.pipeTable p).active = true ∧ pipeId = (p.val : Int) := by
  obtain ⟨hi, hact⟩ := Option.filter_eq_some_iff.mp h
  exact ⟨hact, index?_eq_some hi⟩

variable {k} in
theorem validPipe_of_active {p : Fin maxPipes} (hp : (k.pipeTable p).active = true) :
    k.validPipe p.val = some p := by
  rw [validPipe, index?_natCast]
  exact Option.filter_eq_some_iff.mpr ⟨rfl, hp⟩

theorem pipeOpenWithCapacity_sched (c : Int) : (k.pipeOpenWithCapacity c).1.sched = k.sched := by
  simp only [pipeOpenWithCapacity]
  split
  · rfl
  · split
    · rfl
    · exact (semOpen_sched _ _ _).trans (semOpen_sched _ _ _)

theorem pipeAttach_sched (pipeId : Int) (w : Bool) : (k.pipeAttach pipeId w).1.sched = k.sched := by
  simp only [pipeAttach]
  split
  · rfl
  · split <;> split <;> rfl

theorem pipeAttach_semTable (pipeId : Int) (w : Bool) :
    (k.pipeAttach pipeId w).1.semTable = k.semTable := by
  simp only [pipeAttach]
  split
  · rfl
  · split <;> split <;> rfl

theorem pipeAttach_result {pipeId : Int} {p : Fin maxPipes} (h : k.validPipe pipeId = some p)
    (w : Bool) : (k.pipeAttach pipeId w).2 = 0 := by
  simp only [pipeAttach, h]
  split <;> split <;> rfl

end Kernel

end TP2Kernel
