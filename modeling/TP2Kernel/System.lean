/-
TP2Kernel/System.lean

The kernel together with the processes that call it.  A process is in user
mode or inside one of the calls that can wait: `syscall_sem_wait`,
`syscall_wait` of `Kernel/syscalls_kernel.c`, `pipe_read` and `pipe_write`.
`cont` says where each process stands, and `log` is the history of what the
processes were told.

`syscall_sem_wait` blocks its caller and returns; the handler of the system
call interrupt then switches to another process, so the caller sees the answer
`0` when it runs again (`arrive`).  The other three halt inside the kernel
while the caller is `BLOCKED`, with interrupts on, and look again when it is
not (`resume`).  A step is one piece of this; what a call does after its last piece
is the end of `_irq80Handler` (`sysret`).

The pieces are taken as uninterrupted.  The first piece of a call is: the gate clears
the interrupt flag.  Interrupts are on again after a `_hlt` and after the `_sti` of
`pipe_read`, `pipe_write` and `pipe_close`.  What is left of such a piece (a later
round of `syscall_wait`, the rest of an exit, a kill or a `pipe_set_fd` that closes a
pipe end) and the end of `_irq80Handler` after it could be interrupted there; runs in
which that happens are not runs of this machine.
-/
import TP2Kernel.Lives

namespace TP2Kernel

/-- Where a process stands: in user mode, or inside a call.  A read or write
that halts remembers the semaphore it halts on. -/
inductive Cont
  | user
  | semWait (i : Fin maxSemaphores)
  | wait (pid : Int)
  | read (p : Fin maxPipes) (count got : Nat) (asleep : Option (Fin maxSemaphores))
  | write (p : Fin maxPipes) (buf : List UInt8) (written : Nat)
      (asleep : Option (Fin maxSemaphores))
  deriving DecidableEq

/-- The semaphore a process waits for. -/
def Cont.park : Cont → Option (Fin maxSemaphores)
  | .semWait i => some i
  | .read _ _ _ asleep => asleep
  | .write _ _ _ asleep => asleep
  | _ => none

/-- The call halts until its process is no longer `BLOCKED`. -/
def Cont.Halts : Cont → Prop
  | .wait _ => True
  | .read _ _ _ asleep => asleep.isSome
  | .write _ _ _ asleep => asleep.isSome
  | _ => False

instance : DecidablePred Cont.Halts
  | .user => inferInstanceAs (Decidable False)
  | .semWait _ => inferInstanceAs (Decidable False)
  | .wait _ => inferInstanceAs (Decidable True)
  | .read _ _ _ a => inferInstanceAs (Decidable (a.isSome = true))
  | .write _ _ _ a => inferInstanceAs (Decidable (a.isSome = true))

/-- The call goes on inside the kernel. -/
def Cont.Resumes : Cont → Prop
  | .wait _ | .read _ _ _ _ | .write _ _ _ _ => True
  | _ => False

instance : DecidablePred Cont.Resumes
  | .user => inferInstanceAs (Decidable False)
  | .semWait _ => inferInstanceAs (Decidable False)
  | .wait _ => inferInstanceAs (Decidable True)
  | .read _ _ _ _ => inferInstanceAs (Decidable True)
  | .write _ _ _ _ => inferInstanceAs (Decidable True)

/-- What is told to the processes. -/
inductive Event
  | created (parent child : Int)
  | exited (pid status : Int)
  | waited (pid child result : Int)
  | semOpened (i : Fin maxSemaphores) (value : Int)
  | semGranted (pid : Int) (i : Fin maxSemaphores)
  | semPosted (pid : Int) (i : Fin maxSemaphores)
  | pipeOpened (p : Fin maxPipes)
  | byteRead (p : Fin maxPipes) (b : UInt8)
  | byteWritten (p : Fin maxPipes) (b : UInt8)
  | readDone (pid : Int) (p : Fin maxPipes) (count : Nat) (result : Int)
  | writeDone (pid : Int) (p : Fin maxPipes) (count : Nat) (result : Int)
  deriving DecidableEq

/-- The kernel, the processes and the history, the latest event first. -/
structure Sys where
  kernel : Kernel
  cont : Slot → Cont
  log : List Event

/-- What can happen next. -/
inductive Label
  | call (op : Kernel.Op) (rsp : Nat)
  | semWait (semId : Int) (rsp : Nat)
  | wait (pid : Int) (rsp : Nat)
  | read (fd : Fin maxFds) (count : Nat) (rsp : Nat)
  | write (fd : Fin maxFds) (buf : List UInt8) (rsp : Nat)
  | resume (rsp : Nat)
  | timer (rsp : Nat)
  | ctrlC

/-- The stack pointer saved when the step switches to another process. -/
def Label.rsp : Label → Nat
  | .call _ rsp | .semWait _ rsp | .wait _ rsp | .read _ _ rsp | .write _ _ rsp | .resume rsp
  | .timer rsp => rsp
  | .ctrlC => 0

/-- The system calls that run to their end at once. -/
def Kernel.Op.AtOnce : Kernel.Op → Bool
  | .create _ _ _ _ | .kill _ | .block _ | .unblock _ | .nice _ _ | .exit _ | .yield
  | .semOpen _ _ | .semPost _ | .semClose _ | .pipeOpen _ | .pipeClose _ _
  | .pipeSetFd _ _ _ _ => true
  | _ => false

namespace Sys

/-- The kernel when `main` of `Kernel/kernel.c` has created the shell. -/
def boot (idleStack stack : Nat) : Kernel :=
  (Kernel.init idleStack).exec (.create [115, 104, 101, 108, 108] 3 1 stack)

/-- The system at start: no process is inside a call. -/
def init (idleStack stack : Nat) : Sys := ⟨boot idleStack stack, fun _ => .user, []⟩

/-- The slot of the current process. -/
def cur (σ : Sys) : Slot := σ.kernel.sched.currentIdx

/-- The pid of the current process. -/
def pid (σ : Sys) : Int := σ.kernel.sched.schedulerGetpid

/-- Run a piece of kernel code. -/
def exec (σ : Sys) (op : Kernel.Op) : Sys := { σ with kernel := σ.kernel.exec op }

/-- Put the current process elsewhere. -/
def goto (σ : Sys) (c : Cont) : Sys := { σ with cont := Function.update σ.cont σ.cur c }

/-- Add to the history. -/
def record (σ : Sys) (es : List Event) : Sys := { σ with log := es ++ σ.log }

section Fields

variable (σ : Sys) (op : Kernel.Op) (c : Cont) (es : List Event)

@[simp] theorem exec_kernel : (σ.exec op).kernel = σ.kernel.exec op := rfl

@[simp] theorem exec_cont : (σ.exec op).cont = σ.cont := rfl

@[simp] theorem goto_kernel : (σ.goto c).kernel = σ.kernel := rfl

@[simp] theorem goto_log : (σ.goto c).log = σ.log := rfl

theorem goto_cont : (σ.goto c).cont = Function.update σ.cont σ.cur c := rfl

@[simp] theorem record_kernel : (σ.record es).kernel = σ.kernel := rfl

@[simp] theorem record_cont : (σ.record es).cont = σ.cont := rfl

@[simp] theorem record_log : (σ.record es).log = es ++ σ.log := rfl

end Fields

/-! ### Back to user mode -/

/-- The process that runs next leaves `syscall_sem_wait` if it is inside. -/
def arrive (σ : Sys) : Sys :=
  match σ.cont σ.cur with
  | .semWait i => (σ.goto .user).record [.semGranted σ.pid i]
  | _ => σ

/-- `scheduler_tick`, and the process it dispatches goes on. -/
def tick (σ : Sys) (rsp : Nat) : Sys := (σ.exec (.tick rsp)).arrive

/-- The end of `_irq80Handler`. -/
def sysret (σ : Sys) (rsp : Nat) : Sys :=
  if σ.kernel.sched.schedulerShouldReschedule then σ.tick rsp else σ.arrive

/-! ### The calls -/

/-- What a call that runs to its end tells. -/
def told (k : Kernel) : Kernel.Op → List Event
  | .create name priority fg stack =>
      let child := (k.sched.schedulerCreate name priority fg stack).2
      if child < 0 then [] else [.created k.sched.schedulerGetpid child]
  | .exit status => [.exited k.sched.schedulerGetpid status]
  | .semOpen name value =>
      match k.findByName name, k.findFreeSem with
      | none, some i => [.semOpened i value]
      | _, _ => []
  | .semPost semId =>
      match k.validSem semId with
      | some i => [.semPosted k.sched.schedulerGetpid i]
      | none => []
  | .pipeOpen capacity =>
      match index? maxPipes (k.pipeOpenWithCapacity capacity).2 with
      | some p => [.pipeOpened p]
      | none => []
  | _ => []

/-- A free slot is inside no call, so a process created there starts in user
mode. -/
def vacate (σ : Sys) : Sys :=
  { σ with cont := fun j => if (σ.kernel.proc j).state = .dead then .user else σ.cont j }

/-- A call that runs to its end. -/
def call (σ : Sys) (op : Kernel.Op) : Sys := (σ.vacate.exec op).record (told σ.kernel op)

/-- `syscall_sem_wait`; it returns in every case. -/
def semWait (σ : Sys) (semId : Int) : Sys :=
  match σ.kernel.validSem semId with
  | some i =>
      if (σ.kernel.semWait semId).2 < 0 then σ.exec (.semWait semId)
      else (σ.exec (.semWait semId)).goto (.semWait i)
  | none => σ.exec (.semWait semId)

/-- One round of the loop of `syscall_wait`, taken as a whole although a round after
a `_hlt` runs with interrupts on; the flag says whether it returns. -/
def waitStep (σ : Sys) (pid : Int) : Sys × Bool :=
  let result := (σ.kernel.sched.schedulerWait pid).2
  if result = schedulerWaitBlocked then ((σ.exec (.wait pid)).goto (.wait pid), false)
  else (((σ.exec (.wait pid)).goto .user).record [.waited σ.pid pid result], true)

/-- `syscall_read` up to the loop of `pipe_read`. -/
def readStart (σ : Sys) (fd : Fin maxFds) (count : Nat) : Sys × Bool :=
  let d := (σ.kernel.proc σ.cur).fds fd
  if d.type = .pipeRead ∧ 0 < count then
    match σ.kernel.validPipe d.pipeId with
    | some p => (σ.goto (.read p count 0 none), false)
    | none => (σ, true)
  else (σ, true)

/-- `syscall_write` up to the loop of `pipe_write`. -/
def writeStart (σ : Sys) (fd : Fin maxFds) (buf : List UInt8) : Sys × Bool :=
  let d := (σ.kernel.proc σ.cur).fds fd
  if d.type = .pipeWrite ∧ 0 < buf.length then
    match σ.kernel.validPipe d.pipeId with
    | some p => (σ.goto (.write p buf 0 none), false)
    | none => (σ, true)
  else (σ, true)

/-- What `pipe_read` and `pipe_write` return when they break off. -/
def partialResult (n : Nat) : Int := if n > 0 then n else -1

/-- One step of `pipe_read`. -/
def readStep (σ : Sys) (p : Fin maxPipes) (count got : Nat) : Sys × Bool :=
  let σ' := σ.exec (.pipeRead p)
  match (σ.kernel.pipeReadStep p).2 with
  | .byte b =>
      if got + 1 < count then
        ((σ'.goto (.read p count (got + 1) none)).record [.byteRead p b], false)
      else
        ((σ'.goto .user).record [.readDone σ.pid p count ((got + 1 : Nat) : Int), .byteRead p b],
          true)
  | .eof => ((σ'.goto .user).record [.readDone σ.pid p count got], true)
  | .blocked =>
      (σ'.goto (.read p count got (index? maxSemaphores (σ.kernel.pipeSemData p))), false)
  | .again => (σ'.goto (.read p count got none), false)
  | .failed => ((σ'.goto .user).record [.readDone σ.pid p count (partialResult got)], true)

/-- One step of `pipe_write`. -/
def writeStep (σ : Sys) (p : Fin maxPipes) (buf : List UInt8) (written : Nat) : Sys × Bool :=
  let c := buf.getD written 0
  let σ' := σ.exec (.pipeWrite p c)
  match (σ.kernel.pipeWriteStep p c).2 with
  | .stored =>
      if written + 1 < buf.length then
        ((σ'.goto (.write p buf (written + 1) none)).record [.byteWritten p c], false)
      else
        ((σ'.goto .user).record
          [.writeDone σ.pid p buf.length ((written + 1 : Nat) : Int), .byteWritten p c], true)
  | .blocked =>
      (σ'.goto (.write p buf written (index? maxSemaphores (σ.kernel.pipeSemSpace p))), false)
  | .again => (σ'.goto (.write p buf written none), false)
  | .noReaders | .failed =>
      ((σ'.goto .user).record [.writeDone σ.pid p buf.length (partialResult written)], true)

/-- A call that is inside the kernel goes on. -/
def resume (σ : Sys) : Sys × Bool :=
  match σ.cont σ.cur with
  | .wait pid => σ.waitStep pid
  | .read p count got _ => σ.readStep p count got
  | .write p buf written _ => σ.writeStep p buf written
  | _ => (σ, false)

/-! ### Steps -/

/-- The part of a step before the return to user mode, and whether it returns;
the timer has no such part. -/
def main (σ : Sys) : Label → Option (Sys × Bool)
  | .call op _ => some (σ.call op, true)
  | .semWait semId _ => some (σ.semWait semId, true)
  | .wait pid _ => some (σ.waitStep pid)
  | .read fd count _ => some (σ.readStart fd count)
  | .write fd buf _ => some (σ.writeStart fd buf)
  | .resume _ => some σ.resume
  | .timer _ => none
  | .ctrlC => some (σ.exec .killForeground, false)

/-- One step. -/
def step (σ : Sys) (l : Label) : Sys :=
  match σ.main l with
  | some (σ', true) => σ'.sysret l.rsp
  | some (σ', false) => σ'
  | none => σ.tick l.rsp

/-- The current process, which is not the idle one, is in user mode. -/
def InUser (σ : Sys) : Prop := σ.cur ≠ 0 ∧ σ.cont σ.cur = .user

instance (σ : Sys) : Decidable σ.InUser := inferInstanceAs (Decidable (_ ∧ _))

/-- Calls come from user mode; a call that halts goes on when its process is
not `BLOCKED`; interrupts can come at any time. -/
def guard (σ : Sys) : Label → Prop
  | .call op _ => σ.InUser ∧ op.AtOnce = true
  | .semWait _ _ | .wait _ _ | .read _ _ _ | .write _ _ _ => σ.InUser
  | .resume _ =>
      σ.cur ≠ 0 ∧ (σ.cont σ.cur).Resumes ∧
        ((σ.cont σ.cur).Halts → (σ.kernel.proc σ.cur).state ≠ .blocked)
  | .timer _ | .ctrlC => True

instance (σ : Sys) : (l : Label) → Decidable (σ.guard l)
  | .call _ _ => inferInstanceAs (Decidable (_ ∧ _))
  | .semWait _ _ | .wait _ _ | .read _ _ _ | .write _ _ _ => inferInstanceAs (Decidable σ.InUser)
  | .resume _ => inferInstanceAs (Decidable (_ ∧ _ ∧ (_ → _)))
  | .timer _ | .ctrlC => inferInstanceAs (Decidable True)

/-- The system as a machine. -/
def machine : Machine Sys Label where
  guard := guard
  step := fun σ l => some (σ.step l)

instance (σ : Sys) (l : Label) : Decidable (machine.guard σ l) :=
  inferInstanceAs (Decidable (σ.guard l))

instance (ok : Sys → Label → Prop) [∀ σ l, Decidable (ok σ l)] (σ : Sys) (l : Label) :
    Decidable ((machine.restrict ok).guard σ l) :=
  inferInstanceAs (Decidable (σ.guard l ∧ ok σ l))

/-- The piece of kernel code in the main part of a step. -/
def opOf (σ : Sys) : Label → Option Kernel.Op
  | .call op _ => some op
  | .semWait semId _ => some (.semWait semId)
  | .wait pid _ => some (.wait pid)
  | .read _ _ _ | .write _ _ _ | .timer _ => none
  | .resume _ =>
      match σ.cont σ.cur with
      | .wait pid => some (.wait pid)
      | .read p _ _ _ => some (.pipeRead p)
      | .write p buf written _ => some (.pipeWrite p (buf.getD written 0))
      | _ => none
  | .ctrlC => some .killForeground

/-- The step runs a piece of kernel code of this kind, or none. -/
def Runs (σ : Sys) (l : Label) (P : Kernel.Op → Prop) : Prop := ∀ op ∈ σ.opOf l, P op

instance (σ : Sys) (l : Label) (P : Kernel.Op → Prop) [DecidablePred P] : Decidable (σ.Runs l P) :=
  inferInstanceAs (Decidable (∀ op ∈ σ.opOf l, P op))

/-! ### What the steps tell -/

/-- What a step of `pipe_read` tells. -/
def readEvents (pid : Int) (p : Fin maxPipes) (count got : Nat) : ReadOutcome → List Event
  | .byte b =>
      if got + 1 < count then [.byteRead p b]
      else [.readDone pid p count ((got + 1 : Nat) : Int), .byteRead p b]
  | .eof => [.readDone pid p count got]
  | .blocked | .again => []
  | .failed => [.readDone pid p count (partialResult got)]

/-- What a step of `pipe_write` tells. -/
def writeEvents (pid : Int) (p : Fin maxPipes) (buf : List UInt8) (written : Nat) :
    WriteOutcome → List Event
  | .stored =>
      if written + 1 < buf.length then [.byteWritten p (buf.getD written 0)]
      else [.writeDone pid p buf.length ((written + 1 : Nat) : Int),
        .byteWritten p (buf.getD written 0)]
  | .blocked | .again => []
  | .noReaders | .failed => [.writeDone pid p buf.length (partialResult written)]

/-- What a round of `syscall_wait` tells. -/
def waitEvents (σ : Sys) (pid : Int) : List Event :=
  if (σ.kernel.sched.schedulerWait pid).2 = schedulerWaitBlocked then []
  else [.waited σ.pid pid (σ.kernel.sched.schedulerWait pid).2]

/-- What the main part of a step tells. -/
def mainEvents (σ : Sys) : Label → List Event
  | .call op _ => told σ.kernel op
  | .wait pid _ => σ.waitEvents pid
  | .resume _ =>
      match σ.cont σ.cur with
      | .wait pid => σ.waitEvents pid
      | .read p count got _ => readEvents σ.pid p count got (σ.kernel.pipeReadStep p).2
      | .write p buf written _ =>
          writeEvents σ.pid p buf written (σ.kernel.pipeWriteStep p (buf.getD written 0)).2
      | _ => []
  | .semWait _ _ | .read _ _ _ | .write _ _ _ | .timer _ | .ctrlC => []

/-! ### What a step keeps -/

variable {σ : Sys}

theorem waitStep_does (pid : Int) :
    (σ.waitStep pid).1.kernel = σ.kernel.exec (.wait pid) ∧
      (σ.waitStep pid).1.log = σ.waitEvents pid ++ σ.log := by
  simp only [waitStep, waitEvents]
  split <;> exact ⟨rfl, rfl⟩

theorem readStep_does (p : Fin maxPipes) (count got : Nat) :
    (σ.readStep p count got).1.kernel = σ.kernel.exec (.pipeRead p) ∧
      (σ.readStep p count got).1.log =
        readEvents σ.pid p count got (σ.kernel.pipeReadStep p).2 ++ σ.log := by
  simp only [readStep]
  cases (σ.kernel.pipeReadStep p).2 with
  | byte b =>
      simp only [readEvents]
      split <;> exact ⟨rfl, rfl⟩
  | _ => exact ⟨rfl, rfl⟩

theorem writeStep_does (p : Fin maxPipes) (buf : List UInt8) (written : Nat) :
    (σ.writeStep p buf written).1.kernel = σ.kernel.exec (.pipeWrite p (buf.getD written 0)) ∧
      (σ.writeStep p buf written).1.log =
        writeEvents σ.pid p buf written (σ.kernel.pipeWriteStep p (buf.getD written 0)).2 ++
          σ.log := by
  simp only [writeStep]
  cases (σ.kernel.pipeWriteStep p (buf.getD written 0)).2 with
  | stored =>
      simp only [writeEvents]
      split <;> exact ⟨rfl, rfl⟩
  | _ => exact ⟨rfl, rfl⟩

/-- The main part of a step runs one piece of kernel code, or none, and tells of it. -/
theorem main_does {l : Label} {r : Sys × Bool} (h : σ.main l = some r) :
    r.1.kernel = (σ.opOf l).elim σ.kernel σ.kernel.exec ∧
      r.1.log = σ.mainEvents l ++ σ.log := by
  cases l
  case timer => cases h
  all_goals obtain rfl := Option.some.inj h
  case call => exact ⟨rfl, rfl⟩
  case semWait semId rsp =>
      simp only [semWait]
      split
      · split <;> exact ⟨rfl, rfl⟩
      · exact ⟨rfl, rfl⟩
  case wait pid rsp => exact waitStep_does pid
  case read fd count rsp =>
      simp only [readStart]
      split
      · split <;> exact ⟨rfl, rfl⟩
      · exact ⟨rfl, rfl⟩
  case write fd buf rsp =>
      simp only [writeStart]
      split
      · split <;> exact ⟨rfl, rfl⟩
      · exact ⟨rfl, rfl⟩
  case resume rsp =>
      rcases hc : σ.cont σ.cur with - | i | pid | ⟨p, count, got, asleep⟩ | ⟨p, buf, n, asleep⟩ <;>
        simp only [resume, opOf, mainEvents, hc]
      · exact ⟨rfl, rfl⟩
      · exact ⟨rfl, rfl⟩
      · exact waitStep_does pid
      · exact readStep_does p count got
      · exact writeStep_does p buf n
  case ctrlC => exact ⟨rfl, rfl⟩

theorem main_kernel {l : Label} {r : Sys × Bool} (h : σ.main l = some r) :
    r.1.kernel = (σ.opOf l).elim σ.kernel σ.kernel.exec := (main_does h).1

theorem main_log {l : Label} {r : Sys × Bool} (h : σ.main l = some r) :
    r.1.log = σ.mainEvents l ++ σ.log := (main_does h).2

/-- A round of `pipe_read` tells about its pipe only: a byte was read, or the call is
over. -/
theorem mem_readEvents {pid : Int} {p : Fin maxPipes} {count got : Nat} {out : ReadOutcome}
    {e : Event} (he : e ∈ readEvents pid p count got out) :
    (∃ n, e = .readDone pid p count n) ∨ ∃ b, e = .byteRead p b := by
  cases out with
  | byte b =>
      simp only [readEvents] at he
      split at he
      · exact .inr ⟨b, List.mem_singleton.mp he⟩
      · rcases List.mem_cons.mp he with rfl | he
        · exact .inl ⟨_, rfl⟩
        · exact .inr ⟨b, List.mem_singleton.mp he⟩
  | eof => exact .inl ⟨_, List.mem_singleton.mp he⟩
  | blocked => cases he
  | again => cases he
  | failed => exact .inl ⟨_, List.mem_singleton.mp he⟩

theorem mem_writeEvents {pid : Int} {p : Fin maxPipes} {buf : List UInt8} {written : Nat}
    {out : WriteOutcome} {e : Event} (he : e ∈ writeEvents pid p buf written out) :
    (∃ n, e = .writeDone pid p buf.length n) ∨ ∃ b, e = .byteWritten p b := by
  cases out with
  | stored =>
      simp only [writeEvents] at he
      split at he
      · exact .inr ⟨_, List.mem_singleton.mp he⟩
      · rcases List.mem_cons.mp he with rfl | he
        · exact .inl ⟨_, rfl⟩
        · exact .inr ⟨_, List.mem_singleton.mp he⟩
  | blocked => cases he
  | again => cases he
  | noReaders => exact .inl ⟨_, List.mem_singleton.mp he⟩
  | failed => exact .inl ⟨_, List.mem_singleton.mp he⟩

/-- A call that goes on tells what its round tells. -/
theorem mem_resumeEvents {rsp : Nat} {e : Event} (he : e ∈ σ.mainEvents (.resume rsp)) :
    (∃ pid, σ.cont σ.cur = .wait pid ∧ e ∈ σ.waitEvents pid) ∨
    (∃ p count got, e ∈ readEvents σ.pid p count got (σ.kernel.pipeReadStep p).2) ∨
    ∃ p buf written,
      e ∈ writeEvents σ.pid p buf written (σ.kernel.pipeWriteStep p (buf.getD written 0)).2 := by
  rcases hc : σ.cont σ.cur with - | i | pid | ⟨p, count, got, asleep⟩ | ⟨p, buf, n, asleep⟩
  · simp only [mainEvents, hc, List.not_mem_nil] at he
  · simp only [mainEvents, hc, List.not_mem_nil] at he
  · simp only [mainEvents, hc] at he
    exact .inl ⟨pid, rfl, he⟩
  · simp only [mainEvents, hc] at he
    exact .inr (.inl ⟨p, count, got, he⟩)
  · simp only [mainEvents, hc] at he
    exact .inr (.inr ⟨p, buf, n, he⟩)

theorem arrive_cases (σ : Sys) :
    (∃ i, σ.cont σ.cur = .semWait i ∧ σ.arrive = (σ.goto .user).record [.semGranted σ.pid i]) ∨
      ((∀ i, σ.cont σ.cur ≠ .semWait i) ∧ σ.arrive = σ) := by
  unfold arrive
  split
  · exact .inl ⟨_, ‹_›, rfl⟩
  · exact .inr ⟨‹_›, rfl⟩

theorem arrive_kernel (σ : Sys) : σ.arrive.kernel = σ.kernel := by
  rcases σ.arrive_cases with ⟨i, -, h⟩ | ⟨-, h⟩
  · rw [h]
    rfl
  · rw [h]

/-- The return to user mode tells at most of a semaphore. -/
theorem arrive_log (σ : Sys) :
    ∃ es : List Event, (∀ e ∈ es, ∃ pid i, e = .semGranted pid i) ∧
      σ.arrive.log = es ++ σ.log := by
  rcases σ.arrive_cases with ⟨i, -, h⟩ | ⟨-, h⟩
  · refine ⟨[.semGranted σ.pid i], fun e he => ⟨_, _, List.mem_singleton.mp he⟩, ?_⟩
    rw [h]
    rfl
  · exact ⟨[], fun _ he => absurd he List.not_mem_nil, by rw [h]; rfl⟩

theorem sysret_log (σ : Sys) (rsp : Nat) :
    ∃ es : List Event, (∀ e ∈ es, ∃ pid i, e = .semGranted pid i) ∧
      (σ.sysret rsp).log = es ++ σ.log := by
  unfold sysret
  split
  · exact (σ.exec (.tick rsp)).arrive_log
  · exact σ.arrive_log

theorem step_log (σ : Sys) (l : Label) :
    ∃ es : List Event, (∀ e ∈ es, ∃ pid i, e = .semGranted pid i) ∧
      (σ.step l).log = es ++ (σ.mainEvents l ++ σ.log) := by
  unfold step
  rcases hm : σ.main l with - | ⟨σ', ret⟩
  · have hl : σ.mainEvents l = [] := by
      cases l with
      | timer rsp => rfl
      | _ => cases hm
    rw [hl]
    exact (σ.exec (.tick l.rsp)).arrive_log
  · rw [← main_log hm]
    cases ret with
    | true => exact σ'.sysret_log l.rsp
    | false => exact ⟨[], fun _ he => absurd he List.not_mem_nil, rfl⟩

/-- What the timer and the return to user mode keep, `sysret` keeps: it either
switches or finds the current process running. -/
theorem sysret_invariant {I : Sys → Prop} (h : I σ) (rsp : Nat)
    (htick : ∀ σ rsp, I σ → I (σ.exec (.tick rsp)))
    (harrive : ∀ σ, I σ → (σ.kernel.life σ.cur).state = .running → I σ.arrive) :
    I (σ.sysret rsp) := by
  unfold sysret
  split
  · exact harrive _ (htick σ rsp h) (Kernel.tick_current rsp)
  · rename_i hstay
    refine harrive σ h ?_
    simp only [Sched.schedulerShouldReschedule, Bool.or_eq_true, decide_eq_true_eq, not_or] at hstay
    exact not_not.mp hstay.1.1.2

/-- **The step rule**: an invariant is kept by a step if its main part, the
timer and the return to user mode keep it. -/
theorem step_invariant {I : Sys → Prop} {l : Label} (h : I σ)
    (hmain : ∀ r, σ.main l = some r → I r.1)
    (htick : ∀ σ rsp, I σ → I (σ.exec (.tick rsp)))
    (harrive : ∀ σ, I σ → (σ.kernel.life σ.cur).state = .running → I σ.arrive) :
    I (σ.step l) := by
  unfold step
  rcases hm : σ.main l with - | ⟨σ', ret⟩
  · exact harrive _ (htick σ _ h) (Kernel.tick_current _)
  · have hσ' := hmain _ hm
    cases ret with
    | true => exact sysret_invariant hσ' _ htick harrive
    | false => exact hσ'

/-- **What every piece of kernel code keeps, every step keeps.** -/
theorem step_kernel {P : Kernel → Prop} {l : Label} (h : P σ.kernel)
    (hop : ∀ op, σ.opOf l = some op → P (σ.kernel.exec op))
    (htick : ∀ k rsp, P k → P (k.exec (.tick rsp))) : P (σ.step l).kernel := by
  refine step_invariant (I := fun σ => P σ.kernel) h (fun r hr => ?_)
    (fun σ rsp hσ => htick σ.kernel rsp hσ) fun σ hσ _ => ?_
  · rw [main_kernel hr]
    rcases ho : σ.opOf l with - | op
    · exact h
    · exact hop op ho
  · rw [arrive_kernel]
    exact hσ

theorem boot_sound (idleStack stack : Nat) : (boot idleStack stack).Sound :=
  Kernel.exec_sound (Kernel.init_sound idleStack) _

end Sys

end TP2Kernel
