/-
TP2Kernel/PipeFifo.lean

Pipes deliver what they accept, in order.

The ring of a pipe is touched by three pieces of kernel code only: opening the
pipe empties it, a step of `pipe_read` takes a byte and a step of `pipe_write`
stores one.  Everything else, the ends of processes included, leaves all rings as
they are and opens no pipe (`KeepsRings`).  The history of an incarnation is the
part of the log after the pipe was opened; step by step it agrees with the ring
(`Streams`).

A call comes back short only from a step that did not move a byte.  `sem_wait`
does not fail on a valid semaphore as long as the processes in the queues are the
blocked ones, so such a step found the other side gone.
-/
import TP2Kernel.RingBuffer
import TP2Kernel.PipeEnds
import TP2Kernel.Tokens

namespace TP2Kernel

open Transfer

/-! ### The ring of a pipe -/

/-- The ring buffer in a pipe. -/
def Pipe.ring (b : Pipe) : RingBuffer UInt8 := ⟨b.buf, b.readPos, b.writePos, b.count, b.capacity⟩

namespace Kernel

variable {k k' : Kernel}

/-- No ring changes and no pipe is opened. -/
def KeepsRings (k k' : Kernel) : Prop :=
  ∀ p, (k'.pipeTable p).ring = (k.pipeTable p).ring ∧
    ((k'.pipeTable p).active = true → (k.pipeTable p).active = true)

namespace KeepsRings

theorem of_eq (h : k'.pipeTable = k.pipeTable) : KeepsRings k k' := by
  intro p
  rw [h]
  exact ⟨rfl, id⟩

theorem trans {k'' : Kernel} (h : KeepsRings k k') (h' : KeepsRings k' k'') : KeepsRings k k'' :=
  fun p => ⟨(h' p).1.trans (h p).1, fun ha => (h p).2 ((h' p).2 ha)⟩

/-- A change of one pipe beside its ring. -/
theorem modifyPipe {p : Fin maxPipes} {f : Pipe → Pipe}
    (hk : k'.pipeTable = (k.modifyPipe p f).pipeTable) (hring : ∀ b, (f b).ring = b.ring)
    (hactive : ∀ b, (f b).active = true → b.active = true) : KeepsRings k k' := by
  intro q
  rw [hk, modifyPipe_pipeTable]
  split
  · rename_i hqp
    subst hqp
    exact ⟨hring _, hactive _⟩
  · exact ⟨rfl, id⟩

theorem dropEnd (k : Kernel) (p : Fin maxPipes) (w : Bool) : KeepsRings k (k.dropEnd p w) := by
  cases w with
  | true =>
      exact .modifyPipe (p := p) (f := fun b => { b with writers := b.writers - 1 }) rfl
        (fun _ => rfl) fun _ => id
  | false =>
      exact .modifyPipe (p := p) (f := fun b => { b with readers := b.readers - 1 }) rfl
        (fun _ => rfl) fun _ => id

theorem retire (k : Kernel) (p : Fin maxPipes) : KeepsRings k (k.retire p) := by
  simp only [Kernel.retire]
  split
  · have hoff : KeepsRings k (k.modifyPipe p fun b => { b with active := false }) :=
      .modifyPipe rfl (fun _ => rfl) fun _ h => by cases h
    apply hoff.trans
    apply of_eq
    rw [(SamePipes.semClose _ _).pipeTable, (SamePipes.semClose _ _).pipeTable]
  · exact of_eq rfl

theorem pipeClose (k : Kernel) (pipeId : Int) (w : Bool) :
    KeepsRings k (k.pipeClose pipeId w).1 := by
  unfold Kernel.pipeClose
  split
  · exact of_eq rfl
  · rename_i p _
    apply (dropEnd k p w).trans
    apply (of_eq (SamePipes.closePosts _ p w).pipeTable).trans
    exact retire _ p

theorem pipeAttach (k : Kernel) (pipeId : Int) (w : Bool) :
    KeepsRings k (k.pipeAttach pipeId w).1 := by
  unfold Kernel.pipeAttach
  split
  · exact of_eq rfl
  · rename_i p _
    split
    · split
      · exact of_eq rfl
      · exact .modifyPipe (p := p) (f := fun b => { b with writers := b.writers + 1 }) rfl
          (fun _ => rfl) fun _ => id
    · split
      · exact of_eq rfl
      · exact .modifyPipe (p := p) (f := fun b => { b with readers := b.readers + 1 }) rfl
          (fun _ => rfl) fun _ => id

theorem endClosed : EndClosed KeepsRings where
  refl := fun _ => of_eq rfl
  trans := trans
  sched := fun _ _ => of_eq rfl
  closes := pipeClose
  removes := fun _ _ => of_eq rfl

end KeepsRings

/-- The pieces that move bytes or open a pipe. -/
def Op.Streams : Op → Prop
  | .pipeOpen _ | .pipeRead _ | .pipeWrite _ _ => True
  | _ => False

/-- **All other pieces leave the rings alone.** -/
theorem exec_keepsRings {op : Op} (hop : ¬ op.Streams) : KeepsRings k (k.exec op) := by
  cases op with
  | create _ _ _ _ => exact .of_eq rfl
  | kill pid => exact KeepsRings.endClosed.schedulerKill k pid
  | killForeground => exact KeepsRings.endClosed.schedulerKillForeground k
  | block _ => exact .of_eq rfl
  | unblock _ => exact .of_eq rfl
  | nice _ _ => exact .of_eq rfl
  | wait _ => exact .of_eq rfl
  | exit status => exact KeepsRings.endClosed.schedulerExitCurrent k status
  | yield => exact .of_eq rfl
  | tick _ => exact .of_eq rfl
  | semOpen name v => exact .of_eq (SamePipes.semOpen k name v).pipeTable
  | semWait semId => exact .of_eq (SamePipes.semWait k semId).pipeTable
  | semPost semId => exact .of_eq (SamePipes.semPost k semId).pipeTable
  | semPostAll semId => exact .of_eq (SamePipes.semPostAll k semId).pipeTable
  | semClose semId => exact .of_eq (SamePipes.semClose k semId).pipeTable
  | pipeClose pipeId w => exact .pipeClose k pipeId w
  | pipeSetFd pid fd pipeId w =>
      exact KeepsRings.endClosed.syscallPipeSetFd k pid fd pipeId w (.pipeAttach k pipeId w)
  | pipeOpen _ => exact absurd trivial hop
  | pipeRead _ => exact absurd trivial hop
  | pipeWrite _ _ => exact absurd trivial hop

/-- `pipe_open_with_capacity` refuses, or empties the ring of a pipe that was not
in use. -/
theorem pipeOpenWithCapacity_rings (k : Kernel) (c : Int) :
    k.pipeOpenWithCapacity c = (k, -1) ∨
      ∃ p : Fin maxPipes, (k.pipeOpenWithCapacity c).2 = (p.val : Int) ∧
        0 < c.toNat ∧ c.toNat ≤ pipeBufSize ∧
        ((k.pipeOpenWithCapacity c).1.pipeTable p).ring =
          ⟨(k.pipeTable p).buf, 0, 0, 0, c.toNat⟩ ∧
        ∀ q, q ≠ p → (k.pipeOpenWithCapacity c).1.pipeTable q = k.pipeTable q := by
  rcases k.pipeOpenWithCapacity_eq c with hno | ⟨p, -, hc, hopen⟩
  · exact .inl hno
  · rw [hopen]
    refine .inr ⟨p, rfl, by omega, by omega, ?_, fun q hq => ?_⟩
    · rw [pipeInitSems_pipeTable]
      simp only [openPrep, modifyPipe_self]
      rfl
    · rw [pipeInitSems_pipeTable]
      simp only [openPrep]
      exact modifyPipe_of_ne _ _ _ _ hq

end Kernel

/-! ### The history of a pipe -/

/-- The transfer of the pipe `p` an event tells of. -/
def Event.transfer (p : Fin maxPipes) : Event → Option (Transfer UInt8)
  | .byteRead q b => if q = p then some (.take b) else none
  | .byteWritten q b => if q = p then some (.put b) else none
  | _ => none

/-- The transfers of the pipe `p` since it was last opened, the latest first. -/
def transfers (p : Fin maxPipes) (log : List Event) : List (Transfer UInt8) :=
  (log.takeWhile (· ≠ .pipeOpened p)).filterMap (Event.transfer p)

/-- The event is no matter of the pipe `p`. -/
def Event.Foreign (p : Fin maxPipes) (e : Event) : Prop := e.transfer p = none ∧ e ≠ .pipeOpened p

/-- The event tells nothing about pipes. -/
def Event.Pipeless : Event → Prop
  | .created _ _ | .exited _ _ | .waited _ _ _ | .semOpened _ _ | .semGranted _ _
  | .semPosted _ _ => True
  | _ => False

theorem Event.Pipeless.foreign {e : Event} (h : e.Pipeless) (p : Fin maxPipes) : e.Foreign p := by
  cases e with
  | pipeOpened _ => exact absurd h id
  | byteRead _ _ => exact absurd h id
  | byteWritten _ _ => exact absurd h id
  | readDone _ _ _ _ => exact absurd h id
  | writeDone _ _ _ _ => exact absurd h id
  | _ => exact ⟨rfl, by rintro ⟨⟩⟩

section Transfers

variable {p : Fin maxPipes} {log : List Event}

theorem transfers_cons {e : Event} (he : e ≠ .pipeOpened p) :
    transfers p (e :: log) = (e.transfer p).toList ++ transfers p log := by
  unfold transfers
  rw [List.takeWhile_cons_of_pos (by simpa using he), List.filterMap_cons]
  cases e.transfer p <;> rfl

theorem transfers_foreign {es : List Event} (hes : ∀ e ∈ es, e.Foreign p) :
    transfers p (es ++ log) = transfers p log := by
  induction es with
  | nil => rfl
  | cons e es ih =>
      obtain ⟨htransfer, hne⟩ := hes e List.mem_cons_self
      rw [List.cons_append, transfers_cons hne, htransfer, ih fun e he => hes e (List.mem_cons_of_mem _ he)]
      rfl

theorem transfers_opened : transfers p (.pipeOpened p :: log) = [] := by
  unfold transfers
  rw [List.takeWhile_cons_of_neg (by simp)]
  rfl

end Transfers

/-! ### Rings and histories -/

/-- Every active pipe is where its history has led it. -/
structure Streams (k : Kernel) (log : List Event) : Prop where
  fifo : ∀ p, (k.pipeTable p).active = true → Fifo (k.pipeTable p).ring (transfers p log)
  small : ∀ p, (k.pipeTable p).active = true → (k.pipeTable p).capacity ≤ pipeBufSize

namespace Streams

open Kernel

variable {k k' : Kernel} {log : List Event}

/-- A piece that leaves the rings alone and tells nothing about pipes. -/
theorem keep (h : Streams k log) (hk : KeepsRings k k') {es : List Event}
    (hes : ∀ p, ∀ e ∈ es, e.Foreign p) : Streams k' (es ++ log) := by
  constructor
  · intro p hp
    obtain ⟨hring, hact⟩ := hk p
    rw [hring, transfers_foreign (hes p)]
    exact h.fifo p (hact hp)
  · intro p hp
    obtain ⟨hring, hact⟩ := hk p
    have hcap : (k'.pipeTable p).ring.capacity = (k.pipeTable p).ring.capacity := by rw [hring]
    exact (show (k'.pipeTable p).capacity = _ from hcap) ▸ h.small p (hact hp)

theorem exec (h : Streams k log) (op : Op) (hop : ¬ op.Streams) {es : List Event}
    (hes : ∀ p, ∀ e ∈ es, e.Foreign p) : Streams (k.exec op) (es ++ log) :=
  h.keep (exec_keepsRings hop) hes

theorem exec_silent (h : Streams k log) (op : Op) (hop : ¬ op.Streams) : Streams (k.exec op) log :=
  h.exec op hop fun _ _ he => absurd he List.not_mem_nil

/-- A piece that moves one byte of the pipe `p`. -/
theorem move (h : Streams k log) {p : Fin maxPipes} {f : Pipe → Pipe}
    (hk : k'.pipeTable = (k.modifyPipe p f).pipeTable) {e : Event} {m : Transfer UInt8}
    (hother : ∀ q, q ≠ p → e.Foreign q) (hopen : e ≠ .pipeOpened p) (hm : e.transfer p = some m)
    (hactive : (f (k.pipeTable p)).active = (k.pipeTable p).active)
    (hcap : (f (k.pipeTable p)).capacity = (k.pipeTable p).capacity)
    (hfifo : Fifo (k.pipeTable p).ring (transfers p log) →
      Fifo (f (k.pipeTable p)).ring (m :: transfers p log)) : Streams k' (e :: log) := by
  have hself : k'.pipeTable p = f (k.pipeTable p) := by rw [hk, modifyPipe_self]
  have hne : ∀ q, q ≠ p → k'.pipeTable q = k.pipeTable q := fun q hq => by
    rw [hk, modifyPipe_of_ne _ _ _ _ hq]
  have hkeep : ∀ q, q ≠ p → transfers q ([e] ++ log) = transfers q log := by
    intro q hq
    apply transfers_foreign
    intro e' he'
    rw [List.mem_singleton.mp he']
    exact hother q hq
  constructor
  · intro q hq
    by_cases hqp : q = p
    · subst hqp
      rw [hself] at hq ⊢
      rw [transfers_cons hopen, hm]
      exact hfifo (h.fifo q (hactive ▸ hq))
    · rw [hne q hqp] at hq ⊢
      rw [← List.singleton_append, hkeep q hqp]
      exact h.fifo q hq
  · intro q hq
    by_cases hqp : q = p
    · subst hqp
      rw [hself] at hq ⊢
      rw [hcap]
      exact h.small q (hactive ▸ hq)
    · rw [hne q hqp] at hq ⊢
      exact h.small q hq

/-- `pipe_open_with_capacity`. -/
theorem opens (h : Streams k log) (c : Int) :
    Streams (k.exec (.pipeOpen c)) (Sys.told k (.pipeOpen c) ++ log) := by
  show Streams (k.pipeOpenWithCapacity c).1 _
  rcases k.pipeOpenWithCapacity_rings c with hno | ⟨p, hid, hpos, hle, hring, hother⟩
  · have htold : Sys.told k (.pipeOpen c) = [] := by
      simp only [Sys.told, hno]
      rfl
    rw [htold, hno]
    exact h
  · have htold : Sys.told k (.pipeOpen c) = [.pipeOpened p] := by
      simp only [Sys.told, hid, index?_natCast]
    rw [htold]
    have hforeign : ∀ q, q ≠ p → transfers q ([.pipeOpened p] ++ log) = transfers q log := by
      intro q hq
      apply transfers_foreign
      intro e he
      rw [List.mem_singleton.mp he]
      exact ⟨rfl, fun he => hq (Event.pipeOpened.inj he).symm⟩
    constructor
    · intro q hq
      by_cases hqp : q = p
      · subst hqp
        rw [hring]
        show Fifo _ (transfers q (.pipeOpened q :: log))
        rw [transfers_opened]
        exact Fifo.fresh hpos rfl rfl rfl
      · rw [hother q hqp] at hq ⊢
        rw [hforeign q hqp]
        exact h.fifo q hq
    · intro q hq
      by_cases hqp : q = p
      · subst hqp
        have hcap : ((k.pipeOpenWithCapacity c).1.pipeTable q).ring.capacity = c.toNat := by
          rw [hring]
        exact (show ((k.pipeOpenWithCapacity c).1.pipeTable q).capacity = _ from hcap) ▸ hle
      · rw [hother q hqp] at hq ⊢
        exact h.small q hq

end Streams

namespace Sys

open Kernel

variable {σ : Sys}

theorem told_pipeless {k : Kernel} {op : Op} (hop : ∀ c, op ≠ .pipeOpen c) :
    ∀ e ∈ told k op, e.Pipeless := by
  intro e he
  cases op with
  | pipeOpen c => exact absurd rfl (hop c)
  | create name pr fg stack =>
      simp only [told] at he
      split at he
      · cases he
      · rw [List.mem_singleton.mp he]
        trivial
  | exit status =>
      rw [List.mem_singleton.mp he]
      trivial
  | semOpen name v =>
      simp only [told] at he
      split at he
      · rw [List.mem_singleton.mp he]
        trivial
      · cases he
  | semPost semId =>
      simp only [told] at he
      split at he
      · rw [List.mem_singleton.mp he]
        trivial
      · cases he
  | _ => cases he

theorem waitEvents_pipeless (pid : Int) : ∀ e ∈ σ.waitEvents pid, e.Pipeless := by
  intro e he
  unfold waitEvents at he
  split at he
  · cases he
  · rw [List.mem_singleton.mp he]
    trivial

/-! ### Rings and histories over whole runs -/

/-- A step of `pipe_read`. -/
theorem read_streams {k : Kernel} {log : List Event} (h : Streams k log) (pid : Int)
    (p : Fin maxPipes) (count got : Nat) :
    Streams (k.exec (.pipeRead p)) (readEvents pid p count got (k.pipeReadStep p).2 ++ log) := by
  show Streams (k.pipeReadStep p).1 _
  have hcase := k.pipeReadStep_cases p
  generalize k.pipeReadStep p = r at hcase
  have hdone : ∀ n : Int, ∀ q, ∀ e ∈ [Event.readDone pid p count n], e.Foreign q := by
    intro n q e he
    rw [List.mem_singleton.mp he]
    exact ⟨rfl, by rintro ⟨⟩⟩
  cases hcase with
  | waits _ =>
      have hk : KeepsRings k (k.semWait (k.pipeSemData p)).1 :=
        .of_eq (SamePipes.semWait k _).pipeTable
      simp only [waitSem]
      split
      · exact h.keep hk (hdone _)
      · split
        · exact h.keep hk fun _ _ he => by cases he
        · exact h.keep hk fun _ _ he => by cases he
  | stops _ => exact h.keep (.of_eq rfl) (hdone _)
  | moves hpos =>
      have hstream : Streams ((k.modifyPipe p Pipe.take).semPost (k.pipeSemSpace p)).1
          (.byteRead p ((k.pipeTable p).buf (k.pipeTable p).readPos) :: log) := by
        refine h.move (SamePipes.semPost _ _).pipeTable (fun q hq => ⟨?_, by rintro ⟨⟩⟩)
          (by rintro ⟨⟩) (if_pos rfl) rfl rfl fun hf => hf.take hpos
        exact if_neg fun e => hq e.symm
      simp only [readEvents]
      split
      · exact hstream
      · exact hstream.keep (.of_eq rfl) (hdone _)

/-- A step of `pipe_write`. -/
theorem write_streams {k : Kernel} {log : List Event} (h : Streams k log) (pid : Int)
    (p : Fin maxPipes) (buf : List UInt8) (written : Nat) :
    Streams (k.exec (.pipeWrite p (buf.getD written 0)))
      (writeEvents pid p buf written (k.pipeWriteStep p (buf.getD written 0)).2 ++ log) := by
  show Streams (k.pipeWriteStep p (buf.getD written 0)).1 _
  have hcase := k.pipeWriteStep_cases p (buf.getD written 0)
  generalize k.pipeWriteStep p (buf.getD written 0) = r at hcase
  have hdone : ∀ n : Int, ∀ q, ∀ e ∈ [Event.writeDone pid p buf.length n], e.Foreign q := by
    intro n q e he
    rw [List.mem_singleton.mp he]
    exact ⟨rfl, by rintro ⟨⟩⟩
  cases hcase with
  | waits _ =>
      have hk : KeepsRings k (k.semWait (k.pipeSemSpace p)).1 :=
        .of_eq (SamePipes.semWait k _).pipeTable
      simp only [waitSem]
      split
      · exact h.keep hk (hdone _)
      · split
        · exact h.keep hk fun _ _ he => by cases he
        · exact h.keep hk fun _ _ he => by cases he
  | stops _ => exact h.keep (.of_eq rfl) (hdone _)
  | moves hroom =>
      have hstream : Streams
          ((k.modifyPipe p fun b => b.put (buf.getD written 0)).semPost (k.pipeSemData p)).1
          (.byteWritten p (buf.getD written 0) :: log) := by
        refine h.move (SamePipes.semPost _ _).pipeTable (fun q hq => ⟨?_, by rintro ⟨⟩⟩)
          (by rintro ⟨⟩) (if_pos rfl) rfl rfl fun hf => hf.put hroom.2 _
        exact if_neg fun e => hq e.symm
      simp only [writeEvents]
      split
      · exact hstream
      · exact hstream.keep (.of_eq rfl) (hdone _)

theorem main_streams (h : Streams σ.kernel σ.log) {l : Label} {r : Sys × Bool} (hg : σ.guard l)
    (hr : σ.main l = some r) : Streams r.1.kernel r.1.log := by
  rw [main_kernel hr, main_log hr]
  cases l with
  | call op rsp =>
      by_cases hopen : ∃ c, op = .pipeOpen c
      · obtain ⟨c, rfl⟩ := hopen
        exact h.opens c
      · have hne : ∀ c, op ≠ .pipeOpen c := fun c hc => hopen ⟨c, hc⟩
        refine h.exec op (fun hs => ?_) fun p e he => (told_pipeless hne e he).foreign p
        cases op with
        | pipeOpen c => exact hne c rfl
        | pipeRead p => cases hg.2
        | pipeWrite p c => cases hg.2
        | _ => exact hs
  | semWait semId rsp => exact h.exec_silent (.semWait semId) id
  | wait pid rsp => exact h.exec (.wait pid) id fun p e he => (waitEvents_pipeless pid e he).foreign p
  | read fd count rsp => exact h
  | write fd buf rsp => exact h
  | resume rsp =>
      rcases hc : σ.cont σ.cur with - | i | pid | ⟨p, count, got, asleep⟩ | ⟨p, buf, n, asleep⟩
      · simp only [opOf, mainEvents, hc]
        exact h
      · simp only [opOf, mainEvents, hc]
        exact h
      · simp only [opOf, mainEvents, hc]
        exact h.exec (.wait pid) id fun p e he => (waitEvents_pipeless pid e he).foreign p
      · simp only [opOf, mainEvents, hc]
        exact read_streams h σ.pid p count got
      · simp only [opOf, mainEvents, hc]
        exact write_streams h σ.pid p buf n
  | timer rsp => cases hr
  | ctrlC => exact h.exec_silent .killForeground id

theorem step_streams (h : Streams σ.kernel σ.log) {l : Label} (hg : σ.guard l) :
    Streams (σ.step l).kernel (σ.step l).log := by
  refine step_invariant (I := fun σ => Streams σ.kernel σ.log) h
    (fun r hr => main_streams h hg hr) (fun σ rsp hσ => ?_) fun σ hσ _ => ?_
  · exact hσ.exec_silent (.tick rsp) id
  · obtain ⟨es, hes, hlog⟩ := σ.arrive_log
    rw [arrive_kernel, hlog]
    refine hσ.keep (.of_eq rfl) fun p e he => ?_
    obtain ⟨pid, i, rfl⟩ := hes e he
    exact (show (Event.semGranted pid i).Pipeless from trivial).foreign p

theorem reach_streams {idleStack stack : Nat} (h : machine.Reach (init idleStack stack) σ) :
    Streams σ.kernel σ.log := by
  apply h.invariant (I := fun σ => Streams σ.kernel σ.log)
  · have hno : ∀ p, ((init idleStack stack).kernel.pipeTable p).active = false := fun _ => rfl
    exact ⟨fun p hp => absurd hp (by rw [hno]; decide), fun p hp => absurd hp (by rw [hno]; decide)⟩
  · intro σ l σ' hσ hg hs
    obtain rfl := Option.some.inj hs
    exact step_streams hσ hg

/-! ### Calls that come back short -/

/-- A read comes back short from a step that found the pipe empty and no writer
left. -/
theorem read_short {k : Kernel} {p q : Fin maxPipes} {pid pid' r : Int} {count got n : Nat}
    (hmem : Event.readDone pid' q n r ∈ readEvents pid p count got (k.pipeReadStep p).2)
    (hr : r < n) (hsem : 0 ≤ (k.semWait (k.pipeSemData q)).2) :
    (k.pipeTable q).count = 0 ∧ (k.pipeTable q).writers = 0 := by
  have hcase := k.pipeReadStep_cases p
  generalize k.pipeReadStep p = out at hcase hmem
  cases hcase with
  | waits _ =>
      simp only [waitSem] at hmem
      split at hmem
      · obtain ⟨-, rfl, -, -⟩ := Event.readDone.inj (List.mem_singleton.mp hmem)
        omega
      · split at hmem <;> cases hmem
  | stops hshut =>
      obtain ⟨-, rfl, -, -⟩ := Event.readDone.inj (List.mem_singleton.mp hmem)
      exact ⟨hshut.2, hshut.1⟩
  | moves _ =>
      -- the last byte asked for has been read
      simp only [readEvents] at hmem
      split at hmem
      · cases List.mem_singleton.mp hmem
      · rcases List.mem_cons.mp hmem with he | hmem
        · obtain ⟨-, rfl, rfl, rfl⟩ := Event.readDone.inj he
          omega
        · cases List.mem_singleton.mp hmem

/-- A write comes back short from a step that found no reader left. -/
theorem write_short {k : Kernel} {p q : Fin maxPipes} {pid pid' r : Int} {buf : List UInt8}
    {written n : Nat}
    (hmem : Event.writeDone pid' q n r ∈
      writeEvents pid p buf written (k.pipeWriteStep p (buf.getD written 0)).2)
    (hr : r < n) (hsem : 0 ≤ (k.semWait (k.pipeSemSpace q)).2) : (k.pipeTable q).readers = 0 := by
  have hcase := k.pipeWriteStep_cases p (buf.getD written 0)
  generalize k.pipeWriteStep p (buf.getD written 0) = out at hcase hmem
  cases hcase with
  | waits _ =>
      simp only [waitSem] at hmem
      split at hmem
      · obtain ⟨-, rfl, -, -⟩ := Event.writeDone.inj (List.mem_singleton.mp hmem)
        omega
      · split at hmem <;> cases hmem
  | stops hshut =>
      obtain ⟨-, rfl, -, -⟩ := Event.writeDone.inj (List.mem_singleton.mp hmem)
      exact hshut
  | moves _ =>
      simp only [writeEvents] at hmem
      split at hmem
      · cases List.mem_singleton.mp hmem
      · rcases List.mem_cons.mp hmem with he | hmem
        · obtain ⟨-, rfl, rfl, rfl⟩ := Event.writeDone.inj he
          omega
        · cases List.mem_singleton.mp hmem

/-- Only a call that goes on tells more about pipes than that one was opened. -/
theorem resume_of_mem {l : Label} {e : Event} (hmem : e ∈ σ.mainEvents l) (hless : ¬ e.Pipeless)
    (hopen : ∀ p, e ≠ .pipeOpened p) : ∃ rsp, l = .resume rsp := by
  cases l with
  | call op rsp =>
      exfalso
      by_cases hop : ∃ c, op = .pipeOpen c
      · obtain ⟨c, rfl⟩ := hop
        simp only [mainEvents, told] at hmem
        split at hmem
        · exact hopen _ (List.mem_singleton.mp hmem)
        · cases hmem
      · exact hless (told_pipeless (fun c hc => hop ⟨c, hc⟩) e hmem)
  | wait pid rsp => exact absurd (waitEvents_pipeless pid e hmem) hless
  | resume rsp => exact ⟨rsp, rfl⟩
  | _ => cases hmem

theorem readDone_mem {l : Label} {pid r : Int} {p : Fin maxPipes} {n : Nat}
    (hmem : Event.readDone pid p n r ∈ σ.mainEvents l) :
    ∃ rsp q count got, l = .resume rsp ∧
      Event.readDone pid p n r ∈ readEvents σ.pid q count got (σ.kernel.pipeReadStep q).2 := by
  obtain ⟨rsp, rfl⟩ := resume_of_mem hmem id (by rintro p ⟨⟩)
  rcases mem_resumeEvents hmem with ⟨pid', -, hwait⟩ | ⟨q, count, got, hread⟩ | ⟨q, buf, m, hwrite⟩
  · exact absurd (waitEvents_pipeless _ _ hwait) id
  · exact ⟨rsp, q, count, got, rfl, hread⟩
  · rcases mem_writeEvents hwrite with ⟨_, ⟨⟩⟩ | ⟨_, ⟨⟩⟩

theorem writeDone_mem {l : Label} {pid r : Int} {p : Fin maxPipes} {n : Nat}
    (hmem : Event.writeDone pid p n r ∈ σ.mainEvents l) :
    ∃ rsp q buf written, l = .resume rsp ∧
      Event.writeDone pid p n r ∈
        writeEvents σ.pid q buf written (σ.kernel.pipeWriteStep q (buf.getD written 0)).2 := by
  obtain ⟨rsp, rfl⟩ := resume_of_mem hmem id (by rintro p ⟨⟩)
  rcases mem_resumeEvents hmem with ⟨pid', -, hwait⟩ | ⟨q, count, got, hread⟩ | ⟨q, buf, m, hwrite⟩
  · exact absurd (waitEvents_pipeless _ _ hwait) id
  · rcases mem_readEvents hread with ⟨_, ⟨⟩⟩ | ⟨_, ⟨⟩⟩
  · exact ⟨rsp, q, buf, m, rfl, hwrite⟩

/-- **Short reads and writes.**  In the runs where the processes in the queues are
the blocked ones, a call on a pipe with a valid semaphore returns fewer bytes than
asked for only if the other side is gone; a reader has then also read the pipe
empty. -/
theorem short_calls (h : σ.Disciplined) {l : Label} (hg : σ.guard l) {new : List Event}
    (hlog : (σ.step l).log = new ++ σ.log) {pid r : Int} {p : Fin maxPipes} {n : Nat} (hr : r < n) :
    (Event.readDone pid p n r ∈ new → (σ.kernel.validSem (σ.kernel.pipeSemData p)).isSome →
      (σ.kernel.pipeTable p).count = 0 ∧ (σ.kernel.pipeTable p).writers = 0) ∧
    (Event.writeDone pid p n r ∈ new → (σ.kernel.validSem (σ.kernel.pipeSemSpace p)).isSome →
      (σ.kernel.pipeTable p).readers = 0) := by
  obtain ⟨es, hes, hstep⟩ := σ.step_log l
  rw [hstep, ← List.append_assoc] at hlog
  obtain rfl := List.append_cancel_right hlog
  have hmain : ∀ e, ¬ e.Pipeless → e ∈ es ++ σ.mainEvents l → e ∈ σ.mainEvents l := fun e he hmem =>
    (List.mem_append.mp hmem).resolve_left fun h => by
      obtain ⟨pid, i, rfl⟩ := hes e h
      exact he trivial
  -- the caller does not wait, so it finds room in the queue
  have hroom : ∀ rsp, l = .resume rsp → ∀ semId, (σ.kernel.validSem semId).isSome →
      0 ≤ (σ.kernel.semWait semId).2 := by
    rintro rsp rfl semId hvalid
    obtain ⟨i, hi⟩ := Option.isSome_iff_exists.mp hvalid
    exact h.parked.semWait_nonneg (h.idle_of_resume hg.2.1 hg.2.2) hi
  constructor
  · intro hmem hvalid
    obtain ⟨rsp, q, count, got, hl, hmem⟩ := readDone_mem (hmain _ id hmem)
    exact read_short hmem hr (hroom rsp hl _ hvalid)
  · intro hmem hvalid
    obtain ⟨rsp, q, buf, written, hl, hmem⟩ := writeDone_mem (hmain _ id hmem)
    exact write_short hmem hr (hroom rsp hl _ hvalid)

/-- **Pipes are queues.**  In every state of every run, for every active pipe: the
positions are inside the buffer and agree with the count, the bytes delivered
since the pipe was opened followed by the bytes stored are the bytes accepted, and
a pipe of capacity 1 is filled and emptied in turn.  A `pipe_read` that returns
fewer bytes than asked for has found the pipe empty with no writer left, and a
`pipe_write` has found no reader left, as long as the semaphores are valid. -/
theorem pipe_fifo {idleStack stack : Nat} (h : machine.Reach (init idleStack stack) σ) :
    (∀ p, (σ.kernel.pipeTable p).active = true →
      (0 < (σ.kernel.pipeTable p).capacity ∧ (σ.kernel.pipeTable p).capacity ≤ pipeBufSize) ∧
      (σ.kernel.pipeTable p).count ≤ (σ.kernel.pipeTable p).capacity ∧
      (σ.kernel.pipeTable p).readPos < (σ.kernel.pipeTable p).capacity ∧
      (σ.kernel.pipeTable p).writePos < (σ.kernel.pipeTable p).capacity ∧
      (σ.kernel.pipeTable p).writePos =
        ((σ.kernel.pipeTable p).readPos + (σ.kernel.pipeTable p).count) %
          (σ.kernel.pipeTable p).capacity ∧
      delivered (transfers p σ.log) ++ (σ.kernel.pipeTable p).ring.contents =
        accepted (transfers p σ.log) ∧
      ((σ.kernel.pipeTable p).capacity = 1 → Alternating (transfers p σ.log))) ∧
    ((machine.restrict Orderly).Reach (init idleStack stack) σ →
      ∀ l new, σ.guard l → (σ.step l).log = new ++ σ.log → ∀ pid p (n : Nat) (r : Int), r < n →
        (Event.readDone pid p n r ∈ new → (σ.kernel.validSem (σ.kernel.pipeSemData p)).isSome →
          (σ.kernel.pipeTable p).count = 0 ∧ (σ.kernel.pipeTable p).writers = 0) ∧
        (Event.writeDone pid p n r ∈ new → (σ.kernel.validSem (σ.kernel.pipeSemSpace p)).isSome →
          (σ.kernel.pipeTable p).readers = 0)) := by
  have hstreams := reach_streams h
  constructor
  · intro p hp
    have hfifo := hstreams.fifo p hp
    exact ⟨⟨Nat.zero_lt_of_lt hfifo.valid.read_lt, hstreams.small p hp⟩, hfifo.valid.count_le,
      hfifo.valid.read_lt, hfifo.valid.write_lt, hfifo.valid.write_eq, hfifo.order,
      fun hone => (hfifo.single hone).1⟩
  · intro horderly l new hg hlog pid p n r hr
    exact short_calls (reach_disciplined horderly fun _ _ hok => hok) hg hlog hr

/-- The shell writes two bytes into a pipe of capacity 1 and blocks before the second,
until its child has read the first; then it exits, and the child, which asks for two
bytes, gets the one that is left. -/
theorem pipe_fifo_handover : ∃ σ σ' : Sys, machine.Reach (init 1000 5000) σ ∧
    (σ.kernel.pipeTable 0).capacity = 1 ∧ delivered (transfers 0 σ.log) = [7] ∧
      [7] ++ (σ.kernel.pipeTable 0).ring.contents = [7, 8] ∧ Alternating (transfers 0 σ.log) ∧
      (machine.restrict Orderly).Reach σ σ' ∧
      (σ'.step (.resume 0)).log = [.readDone 2 0 2 1] ++ σ'.log ∧
      (σ'.kernel.pipeTable 0).count = 0 ∧ (σ'.kernel.pipeTable 0).writers = 0 := by
  obtain ⟨σ, σ', hσ, ⟨hact, hcap, hdel, hacc⟩, hσ', hg, hlog, hsem⟩ :=
    (machine.restrict Orderly).exists_reach_of_traces (s := init 1000 5000)
      (machine.restrict Orderly) id
      [.timer 0, .call (.pipeOpen 1) 0, .call (.create [99] 3 0 9000) 0,
        .call (.pipeSetFd 1 3 0 true) 0, .call (.pipeSetFd 2 4 0 false) 0, .write 3 [7, 8] 0,
        .resume 0, .resume 0, .timer 0, .read 4 1 0, .resume 0, .call .yield 0, .resume 0]
      [.call (.exit 0) 0, .read 4 2 0, .resume 0]
      (P := fun σ => (σ.kernel.pipeTable 0).active = true ∧ (σ.kernel.pipeTable 0).capacity = 1 ∧
        delivered (transfers 0 σ.log) = [7] ∧ accepted (transfers 0 σ.log) = [7, 8])
      (Q := fun σ => σ.guard (.resume 0) ∧
        (σ.step (.resume 0)).log = [.readDone 2 0 2 1] ++ σ.log ∧
        (σ.kernel.validSem (σ.kernel.pipeSemData 0)).isSome) (by decide +kernel)
  have hreach := hσ.of_restrict
  obtain ⟨-, -, -, -, -, horder, halt⟩ := (pipe_fifo hreach).1 0 hact
  rw [hdel, hacc] at horder
  have hshort := (pipe_fifo (hreach.trans hσ'.of_restrict)).2 (hσ.trans hσ') _ _ hg hlog 2 0 2 1
    (by decide)
  exact ⟨σ, σ', hreach, hcap, hdel, horder, halt hcap, hσ', hlog,
    hshort.1 (List.mem_singleton.mpr rfl) hsem⟩

end Sys

end TP2Kernel
