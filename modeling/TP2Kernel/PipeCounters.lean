/-
TP2Kernel/PipeCounters.lean

What the two semaphores of a pipe count.  `pipe.c` declares them as counting the
bytes and the space available.  A byte written posts the data semaphore and a
byte read posts the space semaphore, but a reader waits only when it finds the
pipe empty and a writer only when it finds it full.  So a byte that is read
without a wait leaves its token behind, and the values grow without bound
(`tokens_pile_up`).

The counts of what has happened to the pipe decide how far the values are off:
the data semaphore is above the bytes in the pipe by the bytes read and the
posts of `pipe_close`, less the waits (`counters_bounded`).  The steps are those
of one pipe with semaphores of its own; between two of them the scheduler may
end up in any state at all.

The two sides of a pipe mirror each other.  As in `Wiring`, `false` is the
reading side, which waits for data, and `true` the writing side, which waits for
space.
-/
import TP2Kernel.KillResidue
import TP2Kernel.PipeFifo
import TP2Kernel.PipeSemaphores
import TP2Kernel.WaitQueues
import TP2Kernel.Dispatch
import Mathlib.Algebra.Ring.Int.Defs

namespace TP2Kernel

/-- What a step of `pipe_read` or `pipe_write` did. -/
inductive Did
  | moved
  | waited
  | nothing

/-- What an outcome of `pipe_read` means. -/
def ReadOutcome.did : ReadOutcome → Did
  | .byte _ => .moved
  | .blocked | .again => .waited
  | .eof | .failed => .nothing

/-- What an outcome of `pipe_write` means. -/
def WriteOutcome.did : WriteOutcome → Did
  | .stored => .moved
  | .blocked | .again => .waited
  | .noReaders | .failed => .nothing

/-- What the side `w` of a pipe can use: bytes for readers, space for writers. -/
def Pipe.avail (b : Pipe) (w : Bool) : Nat := if w then b.capacity - b.count else b.count

theorem Pipe.avail_of_ring {b b' : Pipe} (h : b'.ring = b.ring) : b'.avail = b.avail := by
  have hcount : b'.count = b.count := congrArg RingBuffer.count h
  have hcap : b'.capacity = b.capacity := congrArg RingBuffer.capacity h
  funext w
  unfold avail
  rw [hcount, hcap]

/-- What has happened to a pipe, by sides: the bytes moved, the waits, and the posts
that `pipe_close` has made for the side. -/
structure Counts where
  moved : Bool → Int
  waits : Bool → Int
  closed : Bool → Int

namespace Counts

/-- Nothing has happened. -/
def start : Counts := ⟨fun _ => 0, fun _ => 0, fun _ => 0⟩

/-- The bytes written. -/
def writes (t : Counts) : Int := t.moved true

/-- The bytes read. -/
def reads (t : Counts) : Int := t.moved false

/-- The counts after a step of the side `w`. -/
def after (t : Counts) (w : Bool) : Did → Counts
  | .moved => { t with moved := Function.update t.moved w (t.moved w + 1) }
  | .waited => { t with waits := Function.update t.waits w (t.waits w + 1) }
  | .nothing => t

/-- The waits of a side that no post has answered. -/
def unanswered (t : Counts) (w : Bool) : Int := max 0 (t.waits w - t.moved (!w) - t.closed w)

/-- What `pipe_close` of an end of the side `w` posts for the side `v`, from the state
before it: the last end of a side releases everybody on the other one, and an end
that leaves others behind lets one of them go on, if there is something to use. -/
def closing (t : Counts) (k : Kernel) (p : Fin maxPipes) (w v : Bool) : Int :=
  if k.ends.held p w ≤ 1 then if v = w then 0 else t.unanswered v
  else if v = w ∧ 0 < (k.pipeTable p).avail w then 1 else 0

/-- The counts after `pipe_close` of an end of the side `w`. -/
def afterClose (t : Counts) (k : Kernel) (p : Fin maxPipes) (w : Bool) : Counts :=
  { t with closed := fun v => t.closed v + t.closing k p w v }

end Counts

namespace Kernel

variable {k : Kernel} {p : Fin maxPipes} {i : Fin maxSemaphores}

/-! ### Values -/

theorem semPost_value {semId : Int} (hi : k.validSem semId = some i) :
    ((k.semPost semId).1.semTable i).value = (k.semTable i).value + 1 := by
  have hadd : ((k.modifySem i fun m => m.addValue 1).semTable i).value =
      (k.semTable i).value + 1 := by
    rw [modifySem_self, Semaphore.addValue_value]
  simp only [semPost, hi]
  split
  · rw [← hadd, unblockOneWaiter_eq]
    split
    · exact modifySem_field _ i i (f := fun m => m.setWaiting []) (g := Semaphore.value)
        fun _ => rfl
    · rename_i b _
      exact modifySem_field _ i i (f := fun m => m.setWaiting (released m.waiting b))
        (g := Semaphore.value) fun _ => rfl
  · exact hadd

/-- A wait that is not refused takes one off. -/
theorem semWait_value {semId : Int} (hi : k.validSem semId = some i) :
    ((k.semWait semId).1.semTable i).value =
      if (k.semWait semId).2 < 0 then (k.semTable i).value else (k.semTable i).value - 1 := by
  have hcase := k.semWait_cases semId
  generalize k.semWait semId = r at hcase
  cases hcase with
  | refused h => cases hi.symm.trans h
  | takes i' h _ =>
      obtain rfl : i = i' := Option.some.inj (hi.symm.trans h)
      show ((k.modifySem i fun m => m.addValue (-1)).semTable i).value = _
      rw [modifySem_self, if_neg (by decide : ¬ (0 : Int) < 0)]
      rfl
  | full i' h _ _ =>
      obtain rfl : i = i' := Option.some.inj (hi.symm.trans h)
      rw [if_pos (by decide : (-1 : Int) < 0)]
      exact modifySem_field _ i i (g := Semaphore.value)
        (f := fun m => m.setWaiting (removePid m.waiting k.sched.schedulerGetpid)) fun _ => rfl
  | parks i' h _ _ =>
      obtain rfl : i = i' := Option.some.inj (hi.symm.trans h)
      show ((k.modifySem i fun m => m.park k.sched.schedulerGetpid).semTable i).value = _
      rw [modifySem_self, if_neg (by decide : ¬ (1 : Int) < 0)]
      rfl

/-- Every waiter is counted in the value. -/
def Covered (m : Semaphore) : Prop := m.waiting = [] ∨ m.value ≤ -(m.waiting.length : Int)

theorem Covered.nil_of_nonneg {m : Semaphore} (h : Covered m) (hv : 0 ≤ m.value) :
    m.waiting = [] := by
  rcases h with hnil | hle
  · exact hnil
  · exact List.length_eq_zero_iff.mp (by omega)

theorem unblockOneWaiter_value (k : Kernel) (i : Fin maxSemaphores) :
    ((k.unblockOneWaiter i).semTable i).value = (k.semTable i).value := by
  rw [unblockOneWaiter_only]
  simp only [modifySem_self, Semaphore.setWaiting_value]

/-- A post that finds a waiter. -/
theorem covered_unblock {m : Semaphore} (h : Covered m) (hki : k.semTable i = m.addValue 1) :
    Covered ((k.unblockOneWaiter i).semTable i) := by
  have hlen := k.unblockOneWaiter_length i
  have hval := k.unblockOneWaiter_value i
  rw [hki, Semaphore.addValue_waiting] at hlen
  rw [hki, Semaphore.addValue_value] at hval
  by_cases hnil : m.waiting = []
  · rw [hnil, List.length_nil] at hlen
    exact .inl (List.length_eq_zero_iff.mp (by omega))
  · have hle := h.resolve_left hnil
    have hpos := List.length_pos_iff.mpr hnil
    exact .inr (by omega)

theorem semPost_covered {semId : Int} (hi : k.validSem semId = some i)
    (h : Covered (k.semTable i)) : Covered ((k.semPost semId).1.semTable i) := by
  simp only [semPost, hi]
  split
  · exact covered_unblock h (modifySem_self _ _ _)
  · rename_i hv
    rw [modifySem_self, Semaphore.addValue_value] at hv
    rw [modifySem_self]
    exact .inl (h.nil_of_nonneg (by omega))

theorem semWait_covered {semId : Int} (hi : k.validSem semId = some i)
    (h : Covered (k.semTable i)) : Covered ((k.semWait semId).1.semTable i) := by
  have hlen := length_removePid (k.semTable i).waiting k.sched.schedulerGetpid
  have hnn : 0 ≤ removedCount (k.semTable i).waiting k.sched.schedulerGetpid :=
    Int.natCast_nonneg _
  have hcase := k.semWait_cases semId
  generalize k.semWait semId = r at hcase
  cases hcase with
  | refused h => cases hi.symm.trans h
  | takes i' hi' hv =>
      obtain rfl : i = i' := Option.some.inj (hi.symm.trans hi')
      show Covered ((k.modifySem i fun m => m.addValue (-1)).semTable i)
      rw [modifySem_self]
      exact .inl (h.nil_of_nonneg hv.le)
  | full i' hi' _ _ =>
      obtain rfl : i = i' := Option.some.inj (hi.symm.trans hi')
      simp only [modifySem_self]
      rcases h with hnil | hle
      · rw [hnil]
        exact .inl rfl
      · exact .inr (by simp only [Semaphore.setWaiting_value, Semaphore.setWaiting_waiting]; omega)
  | parks i' hi' hv _ =>
      obtain rfl : i = i' := Option.some.inj (hi.symm.trans hi')
      show Covered ((k.modifySem i fun m => m.park k.sched.schedulerGetpid).semTable i)
      rw [modifySem_self]
      right
      simp only [Semaphore.park, Semaphore.addValue_waiting, Semaphore.setWaiting_waiting,
        Semaphore.addValue_value, Semaphore.setWaiting_value, List.length_append,
        List.length_singleton]
      rcases h with hnil | hle
      · rw [hnil] at hlen hnn ⊢
        simp only [List.length_nil] at hlen
        omega
      · omega

/-- Below zero no post of `sem_post_all` is lost. -/
theorem postAllLoop_value_le (n : Nat) (h : Covered (k.semTable i))
    (hv : (k.semTable i).value ≤ 0) : ((postAllLoop i n k).semTable i).value ≤ 0 := by
  induction n generalizing k with
  | zero => exact hv
  | succ n ih =>
      rw [postAllLoop]
      split
      · exact hv
      · rename_i hne
        have hle := h.resolve_left hne
        have hpos := List.length_pos_iff.mpr hne
        refine ih (covered_unblock h (modifySem_self _ _ _)) ?_
        rw [unblockOneWaiter_value, modifySem_self, Semaphore.addValue_value]
        omega

/-- **`sem_post_all`** brings a value below zero up to zero, and leaves any other as it
is. -/
theorem semPostAll_value_max {semId : Int} (hi : k.validSem semId = some i)
    (h : Covered (k.semTable i)) :
    ((k.semPostAll semId).1.semTable i).value = max 0 (k.semTable i).value := by
  have hloop : (k.semTable i).waiting = [] ∧
      postAllLoop i (k.semTable i).waiting.length k = k ∨
      (k.semTable i).value < 0 ∧
        ((postAllLoop i (k.semTable i).waiting.length k).semTable i).value ≤ 0 := by
    by_cases hnil : (k.semTable i).waiting = []
    · rw [hnil]
      exact .inl ⟨rfl, rfl⟩
    · have hle := h.resolve_left hnil
      have hpos := List.length_pos_iff.mpr hnil
      exact .inr ⟨by omega, postAllLoop_value_le _ h (by omega)⟩
  simp only [semPostAll, hi]
  generalize postAllLoop i (k.semTable i).waiting.length k = k' at hloop
  rcases hloop with ⟨-, rfl⟩ | ⟨hneg, hle⟩
  · split
    · rw [modifySem_self]
      show (0 : Int) = _
      omega
    · show (k'.semTable i).value = _
      omega
  · split
    · rw [modifySem_self]
      show (0 : Int) = _
      omega
    · show (k'.semTable i).value = _
      omega

/-! ### The steps of one pipe -/

/-- What can happen to a pipe; `other` is whatever else goes on. -/
inductive PipeLabel
  | read
  | write (c : UInt8)
  | attach (w : Bool)
  | close (w : Bool)
  | other (s : Sched)

/-- The pipe `p`. -/
def pipeMachine (p : Fin maxPipes) : Machine (Kernel × Counts) PipeLabel where
  guard := fun _ _ => True
  step := fun x l =>
    match l with
    | .read => some ((x.1.pipeReadStep p).1, x.2.after false (x.1.pipeReadStep p).2.did)
    | .write c => some ((x.1.pipeWriteStep p c).1, x.2.after true (x.1.pipeWriteStep p c).2.did)
    | .attach w => some ((x.1.pipeAttach p.val w).1, x.2)
    | .close w => some ((x.1.pipeClose p.val w).1, x.2.afterClose x.1 p w)
    | .other s => some ({ x.1 with sched := s }, x.2)

instance (p : Fin maxPipes) (x : Kernel × Counts) (l : PipeLabel) :
    Decidable ((pipeMachine p).guard x l) := inferInstanceAs (Decidable True)

/-- The pipe has just been opened, with two semaphores nobody has used; its side `w`
waits for `n w`. -/
@[mk_iff]
structure FreshPipe (k : Kernel) (p : Fin maxPipes) (n : Bool → Fin maxSemaphores) : Prop where
  active : (k.pipeTable p).active = true
  empty : (k.pipeTable p).count = 0
  capacity : 0 < (k.pipeTable p).capacity ∧ (k.pipeTable p).capacity ≤ pipeBufSize
  ends : (k.pipeTable p).readers = 1 ∧ (k.pipeTable p).writers = 1
  sems : k.pipeSemData p = ((n false).val : Int) ∧ k.pipeSemSpace p = ((n true).val : Int)
  apart : n false ≠ n true
  fresh : ∀ w, (k.semTable (n w)).active = true ∧ (k.semTable (n w)).value = 0 ∧
    (k.semTable (n w)).waiting = [] ∧ (k.semTable (n w)).refCount = 1

instance (k : Kernel) (p : Fin maxPipes) (n : Bool → Fin maxSemaphores) :
    Decidable (FreshPipe k p n) := decidable_of_iff _ (freshPipe_iff k p n).symm

/-- **The law of the counters**, while the pipe is open. -/
structure Balance (c : Nat) (p : Fin maxPipes) (n : Bool → Fin maxSemaphores)
    (x : Kernel × Counts) : Prop where
  capacity : (x.1.pipeTable p).capacity = c
  sem : ∀ w, x.1.wiring.sem p w = ((n w).val : Int)
  isOpen : ∀ w, x.1.wiring.Open (n w)
  count : ((x.1.pipeTable p).count : Int) = x.2.writes - x.2.reads
  bounded : (x.1.pipeTable p).count ≤ c
  value : ∀ w, (x.1.semTable (n w)).value = x.2.moved (!w) + x.2.closed w - x.2.waits w
  covered : ∀ w, Covered (x.1.semTable (n w))

namespace Balance

variable {c : Nat} {n : Bool → Fin maxSemaphores} {t : Counts}

theorem of_fresh (h : FreshPipe k p n) :
    Balance (k.pipeTable p).capacity p n (k, Counts.start) := by
  refine ⟨rfl, fun w => ?_, fun w => (h.fresh w).1, ?_, ?_, fun w => ?_,
    fun w => .inl (h.fresh w).2.2.1⟩
  · cases w with
    | false => exact h.sems.1
    | true => exact h.sems.2
  · show ((k.pipeTable p).count : Int) = 0 - 0
    rw [h.empty]
    rfl
  · show (k.pipeTable p).count ≤ _
    rw [h.empty]
    exact Nat.zero_le _
  · exact (h.fresh w).2.1

/-- The semaphores of the two sides are different. -/
theorem side_ne (hn : n false ≠ n true) (w : Bool) : n (!w) ≠ n w := by
  cases w with
  | false => exact hn.symm
  | true => exact hn

theorem validSem (h : Balance c p n (k, t)) (w : Bool) :
    k.validSem (k.wiring.sem p w) = some (n w) := by
  rw [h.sem w]
  exact validSem_of_active (h.isOpen w)

theorem sem_ne (h : Balance c p n (k, t)) (hn : n false ≠ n true) (w : Bool) :
    k.wiring.sem p w ≠ ((n (!w)).val : Int) := by
  rw [h.sem w]
  exact fun e => side_ne hn w (Fin.ext (Int.ofNat.inj e)).symm

/-- A wait of the side `w`. -/
theorem waits (h : Balance c p n (k, t)) (hn : n false ≠ n true) (w : Bool) {α : Type}
    (did : α → Did) {failed blocked again : α} (hf : did failed = .nothing)
    (hb : did blocked = .waited) (ha : did again = .waited) :
    Balance c p n ((k.waitSem (k.wiring.sem p w) failed blocked again).1,
      t.after w (did (k.waitSem (k.wiring.sem p w) failed blocked again).2)) := by
  have hsame := SamePipes.semWait k (k.wiring.sem p w)
  have hwire := k.semWait_wiring (k.wiring.sem p w)
  have hval := semWait_value (h.validSem w)
  have hcov := semWait_covered (h.validSem w) (h.covered w)
  have hoth : (k.semWait (k.wiring.sem p w)).1.semTable (n !w) = k.semTable (n !w) :=
    semWait_other (h.sem_ne hn w)
  have hdid : did (k.waitSem (k.wiring.sem p w) failed blocked again).2 =
      if (k.semWait (k.wiring.sem p w)).2 < 0 then .nothing else .waited := by
    simp only [waitSem]
    split
    · exact hf
    · split
      · exact hb
      · exact ha
  rw [hdid]
  show Balance c p n ((k.semWait (k.wiring.sem p w)).1, _)
  generalize k.semWait (k.wiring.sem p w) = r at hsame hwire hval hcov hoth ⊢
  have hmoved : (t.after w (if r.2 < 0 then .nothing else .waited)).moved = t.moved := by
    split <;> rfl
  refine ⟨?_, fun v => ?_, fun v => ?_, ?_, ?_, fun v => ?_, fun v => ?_⟩
  · show (r.1.pipeTable p).capacity = c
    rw [hsame.pipeTable]
    exact h.capacity
  · show r.1.wiring.sem p v = _
    rw [hwire]
    exact h.sem v
  · show r.1.wiring.Open (n v)
    rw [hwire]
    exact h.isOpen v
  · show ((r.1.pipeTable p).count : Int) = Counts.moved _ true - Counts.moved _ false
    rw [hsame.pipeTable, hmoved]
    exact h.count
  · show (r.1.pipeTable p).count ≤ c
    rw [hsame.pipeTable]
    exact h.bounded
  · have hv := h.value v
    show (r.1.semTable (n v)).value = Counts.moved _ (!v) + _ - _
    rw [hmoved]
    by_cases hvw : v = w
    · subst hvw
      rw [hval]
      split
      · exact hv
      · simp only [Counts.after, Function.update_self] at hv ⊢
        omega
    · obtain rfl : v = !w := Bool.eq_not.mpr hvw
      rw [hoth]
      split
      · exact hv
      · simp only [Counts.after, Function.update_of_ne hvw]
        exact hv
  · show Covered (r.1.semTable (n v))
    by_cases hvw : v = w
    · rw [hvw]
      exact hcov
    · obtain rfl : v = !w := Bool.eq_not.mpr hvw
      rw [hoth]
      exact h.covered _

/-- The side `w` moves a byte and posts the semaphore of the other side. -/
theorem moves (h : Balance c p n (k, t)) (hn : n false ≠ n true) (w : Bool) {move : Pipe → Pipe}
    (hact : ∀ b, (move b).active = b.active) (hcap : ∀ b, (move b).capacity = b.capacity)
    (hcount : ((move (k.pipeTable p)).count : Int) =
      (k.pipeTable p).count + if w then 1 else -1) (hle : (move (k.pipeTable p)).count ≤ c) :
    Balance c p n (((k.modifyPipe p move).semPost (k.wiring.sem p !w)).1, t.after w .moved) := by
  have hpipe : (k.modifyPipe p move).pipeTable p = move (k.pipeTable p) := modifyPipe_self _ _ _
  have hvalid : (k.modifyPipe p move).validSem (k.wiring.sem p !w) = some (n !w) :=
    h.validSem !w
  have hsame := SamePipes.semPost (k.modifyPipe p move) (k.wiring.sem p !w)
  have hwire := (semPost_wiring (k.modifyPipe p move) (k.wiring.sem p !w)).trans
    (k.modifyPipe_wiring p hact)
  have hval := semPost_value hvalid
  have hcov := semPost_covered hvalid (h.covered !w)
  have hne := h.sem_ne hn !w
  rw [Bool.not_not] at hne
  have hoth : ((k.modifyPipe p move).semPost (k.wiring.sem p !w)).1.semTable (n w) =
      k.semTable (n w) := semPost_other hne
  rw [modifyPipe_semTable] at hval
  generalize ((k.modifyPipe p move).semPost (k.wiring.sem p !w)).1 = k' at hsame hwire hval hcov hoth ⊢
  refine ⟨?_, fun v => ?_, fun v => ?_, ?_, ?_, fun v => ?_, fun v => ?_⟩
  · show (k'.pipeTable p).capacity = c
    rw [hsame.pipeTable, hpipe, hcap]
    exact h.capacity
  · show k'.wiring.sem p v = _
    rw [hwire]
    exact h.sem v
  · show k'.wiring.Open (n v)
    rw [hwire]
    exact h.isOpen v
  · have hold := h.count
    show ((k'.pipeTable p).count : Int) = Function.update t.moved w (t.moved w + 1) true -
      Function.update t.moved w (t.moved w + 1) false
    rw [hsame.pipeTable, hpipe, hcount]
    cases w with
    | false =>
        simp only [Counts.writes, Counts.reads, Function.update_self] at hold ⊢
        rw [Function.update_of_ne (by decide)]
        simp only [Bool.false_eq_true, if_false]
        omega
    | true =>
        simp only [Counts.writes, Counts.reads, Function.update_self] at hold ⊢
        rw [Function.update_of_ne (by decide)]
        simp only [if_true]
        omega
  · show (k'.pipeTable p).count ≤ c
    rw [hsame.pipeTable, hpipe]
    exact hle
  · have hv := h.value v
    show (k'.semTable (n v)).value = Function.update t.moved w (t.moved w + 1) (!v) + t.closed v -
      t.waits v
    by_cases hvw : v = w
    · subst hvw
      rw [hoth, Function.update_of_ne (by simp)]
      exact hv
    · obtain rfl : v = !w := Bool.eq_not.mpr hvw
      rw [hval, Bool.not_not, Function.update_self]
      rw [Bool.not_not] at hv
      simp only at hv
      omega
  · show Covered (k'.semTable (n v))
    by_cases hvw : v = w
    · rw [hvw, hoth]
      exact h.covered w
    · obtain rfl : v = !w := Bool.eq_not.mpr hvw
      exact hcov

theorem read (h : Balance c p n (k, t)) (hn : n false ≠ n true) :
    Balance c p n ((k.pipeReadStep p).1, t.after false (k.pipeReadStep p).2.did) := by
  have hcase := k.pipeReadStep_cases p
  generalize k.pipeReadStep p = r at hcase
  cases hcase with
  | waits _ => exact h.waits hn false ReadOutcome.did rfl rfl rfl
  | stops _ => exact h
  | moves hpos =>
      refine h.moves hn false (fun _ => rfl) (fun _ => rfl) ?_ ?_
      · show (((k.pipeTable p).count - 1 : Nat) : Int) = (k.pipeTable p).count + -1
        omega
      · show (k.pipeTable p).count - 1 ≤ c
        have hle : (k.pipeTable p).count ≤ c := h.bounded
        omega

theorem write (h : Balance c p n (k, t)) (hn : n false ≠ n true) (b : UInt8) :
    Balance c p n ((k.pipeWriteStep p b).1, t.after true (k.pipeWriteStep p b).2.did) := by
  have hcase := k.pipeWriteStep_cases p b
  generalize k.pipeWriteStep p b = r at hcase
  cases hcase with
  | waits _ => exact h.waits hn true WriteOutcome.did rfl rfl rfl
  | stops _ => exact h
  | moves hlive =>
      refine h.moves hn true (fun _ => rfl) (fun _ => rfl) ?_ ?_
      · show (((k.pipeTable p).count + 1 : Nat) : Int) = (k.pipeTable p).count + 1
        omega
      · show (k.pipeTable p).count + 1 ≤ c
        have hcap : (k.pipeTable p).capacity = c := h.capacity
        omega

/-- A change that keeps the bytes and the wiring and adds to the values. -/
theorem adjust {k' : Kernel} {t' : Counts} (h : Balance c p n (k, t)) (hring : KeepsRings k k')
    (hwire : k'.wiring = k.wiring) (hmoved : t'.moved = t.moved) (hwaits : t'.waits = t.waits)
    (hval : ∀ w, (k'.semTable (n w)).value - t'.closed w =
      (k.semTable (n w)).value - t.closed w)
    (hcov : ∀ w, Covered (k'.semTable (n w))) : Balance c p n (k', t') := by
  have hr := (hring p).1
  have hcount : (k'.pipeTable p).count = (k.pipeTable p).count := congrArg RingBuffer.count hr
  have hcap : (k'.pipeTable p).capacity = (k.pipeTable p).capacity := congrArg RingBuffer.capacity hr
  refine ⟨hcap.trans h.capacity, fun w => ?_, fun w => ?_, ?_, ?_, fun w => ?_, hcov⟩
  · show k'.wiring.sem p w = _
    rw [hwire]
    exact h.sem w
  · show k'.wiring.Open (n w)
    rw [hwire]
    exact h.isOpen w
  · show ((k'.pipeTable p).count : Int) = t'.moved true - t'.moved false
    rw [hcount, hmoved]
    exact h.count
  · show (k'.pipeTable p).count ≤ c
    rw [hcount]
    exact h.bounded
  · have hv := h.value w
    have hd := hval w
    show (k'.semTable (n w)).value = t'.moved (!w) + t'.closed w - t'.waits w
    rw [hmoved, hwaits]
    simp only at hv
    omega

theorem attach (h : Balance c p n (k, t)) (w : Bool) :
    Balance c p n ((k.pipeAttach p.val w).1, t) := by
  refine h.adjust (KeepsRings.pipeAttach k p.val w) (k.pipeAttach_wiring p.val w) rfl rfl ?_ ?_
  · rw [pipeAttach_semTable]
    exact fun _ => rfl
  · rw [pipeAttach_semTable]
    exact h.covered

end Balance

/-- The posts of `pipe_close`, by sides: with the last end of a side the other
side is woken, with another end one process of the same side. -/
theorem closePosts_eq (k : Kernel) (p : Fin maxPipes) (v : Bool) :
    k.closePosts p v =
      if k.ends.held p v = 0 then (k.semPostAll (k.wiring.sem p !v)).1
      else if 0 < (k.pipeTable p).avail v then (k.semPost (k.wiring.sem p v)).1
      else k := by
  cases v with
  | false => rfl
  | true =>
      have hspace : (k.pipeTable p).count < (k.pipeTable p).capacity ↔
          0 < (k.pipeTable p).avail true := Nat.sub_pos_iff_lt.symm
      simp only [closePosts, if_true, hspace]
      rfl

theorem retire_of_active (h : ((k.retire p).pipeTable p).active = true) : k.retire p = k := by
  unfold retire at h ⊢
  split at h
  · rw [(SamePipes.semClose _ _).pipeTable, (SamePipes.semClose _ _).pipeTable] at h
    simp only [modifyPipe_self] at h
    cases h
  · rename_i hends
    exact if_neg hends

theorem dropEnd_semTable (k : Kernel) (p : Fin maxPipes) (v : Bool) :
    (k.dropEnd p v).semTable = k.semTable := by
  unfold dropEnd
  split <;> rfl

theorem dropEnd_held (k : Kernel) (p : Fin maxPipes) (v w : Bool) :
    (k.dropEnd p v).ends.held p w =
      if w = v then k.ends.held p v - 1 else k.ends.held p w := by
  rw [dropEnd_ends]
  simp only [Ends.drop, Ends.set, Prod.mk.injEq, true_and]

/-- A pipe that stays open is not retired. -/
theorem pipeClose_eq (w : Bool) (hp : k.validPipe p.val = some p)
    (hact : ((k.pipeClose p.val w).1.pipeTable p).active = true) :
    (k.pipeClose p.val w).1 = (k.dropEnd p w).closePosts p w := by
  simp only [pipeClose, hp] at hact ⊢
  exact retire_of_active hact

/-- A pipe that stays open keeps its semaphores. -/
theorem pipeClose_wiring (w : Bool)
    (hact : ((k.pipeClose p.val w).1.pipeTable p).active = true) :
    (k.pipeClose p.val w).1.wiring = k.wiring := by
  rcases hp : k.validPipe p.val with - | q
  · simp only [pipeClose, hp]
  · obtain rfl : p = q := Fin.ext (Int.ofNat.inj (k.validPipe_some hp).2)
    rw [pipeClose_eq w hp hact, closePosts_wiring, dropEnd_wiring]

variable {c : Nat} {n : Bool → Fin maxSemaphores}

/-- **A close** posts what the pipe and its history say. -/
theorem Balance.close {t : Counts} (h : Balance c p n (k, t)) (hn : n false ≠ n true) (w : Bool)
    (hbefore : (k.pipeTable p).active = true)
    (hact : ((k.pipeClose p.val w).1.pipeTable p).active = true) :
    Balance c p n ((k.pipeClose p.val w).1, t.afterClose k p w) := by
  have heq := pipeClose_eq w (validPipe_of_active hbefore) hact
  have hwire := k.dropEnd_wiring p w
  have hsem := k.dropEnd_semTable p w
  have hends : (k.dropEnd p w).ends.held p w = k.ends.held p w - 1 :=
    (k.dropEnd_held p w w).trans (if_pos rfl)
  have hready := Pipe.avail_of_ring (KeepsRings.dropEnd k p w p).1
  have hvalid : ∀ v, (k.dropEnd p w).validSem (k.wiring.sem p v) = some (n v) := by
    intro v
    rw [← h.validSem v, Kernel.validSem, Kernel.validSem, hsem]
  -- one semaphore is posted, and the other one is not
  have key : ∀ v, ((k.pipeClose p.val w).1.semTable (n v)).value =
      (k.semTable (n v)).value + t.closing k p w v ∧
      Covered ((k.pipeClose p.val w).1.semTable (n v)) := by
    intro v
    have hv := h.value v
    have hcov := h.covered v
    rw [heq, closePosts_eq, hwire, hends, hready, Counts.closing]
    rw [← hsem] at hcov
    rw [show (k.semTable (n v)).value = ((k.dropEnd p w).semTable (n v)).value by rw [hsem]] at hv ⊢
    generalize k.dropEnd p w = k₁ at hvalid hcov hv
    rcases Nat.lt_or_ge 1 (k.ends.held p w) with hmore | hlast
    · -- others are left on this side, and one of them may go on
      have hleft : k.ends.held p w - 1 ≠ 0 := by omega
      rw [if_neg hleft, if_neg (Nat.not_le.mpr hmore)]
      by_cases hr : 0 < (k.pipeTable p).avail w
      · rw [if_pos hr]
        by_cases hvw : v = w
        · subst hvw
          rw [if_pos ⟨rfl, hr⟩]
          exact ⟨semPost_value (hvalid v), semPost_covered (hvalid v) hcov⟩
        · obtain rfl : v = !w := Bool.eq_not.mpr hvw
          rw [if_neg fun h => hvw h.1, semPost_other (h.sem_ne hn w), Int.add_zero]
          exact ⟨rfl, hcov⟩
      · rw [if_neg hr, if_neg fun h => hr h.2, Int.add_zero]
        exact ⟨rfl, hcov⟩
    · -- the other side is released
      have hgone : k.ends.held p w - 1 = 0 := by omega
      rw [if_pos hgone, if_pos hlast]
      by_cases hvw : v = w
      · subst hvw
        have hother := h.sem_ne hn !v
        rw [Bool.not_not] at hother
        rw [if_pos rfl, semPostAll_other hother, Int.add_zero]
        exact ⟨rfl, hcov⟩
      · obtain rfl : v = !w := Bool.eq_not.mpr hvw
        rw [if_neg hvw, semPostAll_value_max (hvalid _) hcov, Counts.unanswered]
        refine ⟨?_, .inl (semPostAll_tight (hvalid _)).1⟩
        simp only at hv
        omega
  refine h.adjust (KeepsRings.pipeClose k p.val w) (pipeClose_wiring w hact) rfl rfl (fun v => ?_)
    fun v => (key v).2
  show _ - (t.closed v + t.closing k p w v) = _
  rw [(key v).1]
  omega

/-- **Every step keeps the balance** as long as the pipe is open. -/
theorem Balance.step (hn : n false ≠ n true) {x x' : Kernel × Counts} {l : PipeLabel}
    (h : (x.1.pipeTable p).active = true → Balance c p n x)
    (hs : (pipeMachine p).step x l = some x') (hact : (x'.1.pipeTable p).active = true) :
    Balance c p n x' := by
  obtain ⟨k, t⟩ := x
  cases l with
  | read =>
      obtain rfl := Option.some.inj hs
      have hw := (k.pipeReadStep_cases p).wiring fun _ => rfl
      exact (h ((congrFun (congrArg Wiring.active hw) p).symm.trans hact)).read hn
  | write b =>
      obtain rfl := Option.some.inj hs
      have hw := (k.pipeWriteStep_cases p b).wiring fun _ => rfl
      exact (h ((congrFun (congrArg Wiring.active hw) p).symm.trans hact)).write hn b
  | attach w =>
      obtain rfl := Option.some.inj hs
      exact (h ((KeepsRings.pipeAttach k p.val w p).2 hact)).attach w
  | close w =>
      obtain rfl := Option.some.inj hs
      have hbefore := (KeepsRings.pipeClose k p.val w p).2 hact
      exact (h hbefore).close hn w hbefore hact
  | other s =>
      obtain rfl := Option.some.inj hs
      obtain ⟨h1, h2, h3, h4, h5, h6, h7⟩ := h hact
      exact ⟨h1, h2, h3, h4, h5, h6, h7⟩

theorem pipeMachine_balance {k₀ : Kernel} (hfresh : FreshPipe k₀ p n) {x : Kernel × Counts}
    (h : (pipeMachine p).Reach (k₀, Counts.start) x) (hact : (x.1.pipeTable p).active = true) :
    Balance (k₀.pipeTable p).capacity p n x :=
  h.invariant (I := fun x => (x.1.pipeTable p).active = true →
      Balance (k₀.pipeTable p).capacity p n x) (fun _ => .of_fresh hfresh)
    (fun _ _ _ hx _ hs => Balance.step hfresh.apart hx hs) hact

/-- **When the values are what `pipe.c` says**: the data semaphore is at most the
number of bytes exactly when the bytes read and the posts of `pipe_close` do not
exceed the waits for data, and the space semaphore at most the free space
exactly when the bytes written and the posts of `pipe_close` do not exceed the
capacity and the waits for space.  Then neither exceeds the capacity, which is
far from where an `int` overflows. -/
theorem counters_bounded {k₀ : Kernel} (hfresh : FreshPipe k₀ p n) {t : Counts}
    (h : (pipeMachine p).Reach (k₀, Counts.start) (k, t))
    (hact : (k.pipeTable p).active = true) :
    ((k.semTable (n false)).value ≤ (k.pipeTable p).count ↔
      t.reads + t.closed false ≤ t.waits false) ∧
    ((k.semTable (n true)).value ≤ (k.pipeTable p).capacity - (k.pipeTable p).count ↔
      t.writes + t.closed true ≤ (k.pipeTable p).capacity + t.waits true) ∧
    (t.reads + t.closed false ≤ t.waits false →
      t.writes + t.closed true ≤ (k.pipeTable p).capacity + t.waits true →
      ∀ w, (k.semTable (n w)).value ≤ (k.pipeTable p).capacity ∧
        (k.semTable (n w)).value + 1 < 2 ^ 31) := by
  have hb := pipeMachine_balance hfresh h hact
  have hcap : (k.pipeTable p).capacity = (k₀.pipeTable p).capacity := hb.capacity
  have hcount : ((k.pipeTable p).count : Int) = t.writes - t.reads := hb.count
  have hle : (k.pipeTable p).count ≤ (k₀.pipeTable p).capacity := hb.bounded
  have hbuf := hfresh.capacity.2
  have hdata : (k.semTable (n false)).value = t.writes + t.closed false - t.waits false :=
    hb.value false
  have hspace : (k.semTable (n true)).value = t.reads + t.closed true - t.waits true :=
    hb.value true
  unfold pipeBufSize at hbuf
  refine ⟨by omega, by omega, fun hr hw w => ?_⟩
  cases w with
  | false => omega
  | true => omega

/-- The shell opens a pipe of capacity 2, attaches two writers, writes one byte and
closes one of the two writing ends, which posts a token for the place left. -/
theorem counters_bounded_byte : ∃ k₀ k : Kernel, ∃ t : Counts, ∃ n : Bool → Fin maxSemaphores,
    cpuMachine.Reach (init 1000) k₀ ∧ FreshPipe k₀ 0 n ∧
    (pipeMachine 0).Reach (k₀, Counts.start) (k, t) ∧ (k.pipeTable 0).count = 1 ∧
    t.closed true = 1 ∧
    (k.semTable (n false)).value ≤ (k.pipeTable 0).count ∧
    (k.semTable (n true)).value ≤ (k.pipeTable 0).capacity - (k.pipeTable 0).count ∧
    ∀ w, (k.semTable (n w)).value ≤ (k.pipeTable 0).capacity := by
  obtain ⟨k₀, ⟨k, t⟩, hk, hfresh, hr, hact, hcount, hclosed, hreads, hwrites⟩ :=
    Machine.exists_reach_of_traces (T := cpuMachine) (s := init 1000)
      (pipeMachine 0) (fun k => (k, Counts.start))
      [.call (.create [115] 3 1 5000) 0, .timer 0, .call (.pipeOpen 2) 0]
      [.attach true, .attach true, .write 7, .close true]
      (P := fun k => FreshPipe k 0 fun w => if w then 1 else 0)
      (Q := fun x => (x.1.pipeTable 0).active = true ∧ (x.1.pipeTable 0).count = 1 ∧
        x.2.closed true = 1 ∧
        x.2.reads + x.2.closed false ≤ x.2.waits false ∧
        x.2.writes + x.2.closed true ≤ (x.1.pipeTable 0).capacity + x.2.waits true)
      (by decide +kernel)
  obtain ⟨hdata, hspace, hboth⟩ := counters_bounded hfresh hr hact
  exact ⟨k₀, k, t, _, hk, hfresh, hr, hcount, hclosed, hdata.mpr hreads, hspace.mpr hwrites,
    fun w => (hboth hreads hwrites w).1⟩

/-! ### Tokens that pile up -/

/-- Both ends are open, the pipe is empty, and `v` bytes have gone through it
without a wait. -/
structure Idling (p : Fin maxPipes) (v : Nat) (x : Kernel × Counts) : Prop where
  active : (x.1.pipeTable p).active = true
  ends : 0 < (x.1.pipeTable p).readers ∧ 0 < (x.1.pipeTable p).writers
  empty : (x.1.pipeTable p).count = 0 ∧ 0 < (x.1.pipeTable p).capacity
  counts : ∀ w, x.2.moved w = v ∧ x.2.waits w = 0 ∧ x.2.closed w = 0

/-- A byte is written to an empty pipe and read again; nobody has to wait. -/
theorem Idling.round {v : Nat} {x₀ x : Kernel × Counts} (hr : (pipeMachine p).Reach x₀ x)
    (h : Idling p v x) : ∃ x', (pipeMachine p).Reach x₀ x' ∧ Idling p (v + 1) x' := by
  obtain ⟨k, t⟩ := x
  obtain ⟨hactive, ⟨hreaders, hwriters⟩, ⟨hcount, hcap⟩, hcounts⟩ := h
  simp only at hactive hreaders hwriters hcount hcap hcounts
  have hwrite : k.pipeWriteStep p 0 =
      (((k.modifyPipe p fun b => b.put 0).semPost (k.pipeSemData p)).1, .stored) := by
    simp only [pipeWriteStep]
    rw [if_neg (by omega), if_neg (by omega)]
    rfl
  have hput : (k.pipeWriteStep p 0).1.pipeTable p = (k.pipeTable p).put 0 := by
    rw [hwrite, (SamePipes.semPost _ _).pipeTable]
    exact modifyPipe_self _ _ _
  have hfull : ((k.pipeWriteStep p 0).1.pipeTable p).count = 1 := by
    rw [hput]
    show (k.pipeTable p).count + 1 = 1
    rw [hcount]
  have hdid : (k.pipeWriteStep p 0).2 = .stored := by rw [hwrite]
  generalize hk₁ : (k.pipeWriteStep p 0).1 = k₁ at hput hfull
  have hread : k₁.pipeReadStep p = (((k₁.modifyPipe p Pipe.take).semPost (k₁.pipeSemSpace p)).1,
      .byte ((k₁.pipeTable p).buf (k₁.pipeTable p).readPos)) := by
    simp only [pipeReadStep]
    rw [if_neg (by omega), if_neg (by omega)]
    rfl
  have htake : (k₁.pipeReadStep p).1.pipeTable p = ((k.pipeTable p).put 0).take := by
    rw [hread, (SamePipes.semPost _ _).pipeTable, ← hput]
    exact modifyPipe_self _ _ _
  refine ⟨((k₁.pipeReadStep p).1, (t.after true .moved).after false .moved), ?_, ?_⟩
  · have h1 : (pipeMachine p).Reach x₀ (k₁, t.after true .moved) := by
      refine hr.tail (l := .write 0) trivial ?_
      show some ((k.pipeWriteStep p 0).1, t.after true (k.pipeWriteStep p 0).2.did) = _
      rw [hk₁, hdid]
      rfl
    refine h1.tail (l := .read) trivial ?_
    show some ((k₁.pipeReadStep p).1, _) = _
    rw [hread]
    rfl
  · refine ⟨?_, ?_, ?_, fun w => ?_⟩
    · show ((k₁.pipeReadStep p).1.pipeTable p).active = true
      rw [htake]
      exact hactive
    · show 0 < ((k₁.pipeReadStep p).1.pipeTable p).readers ∧
        0 < ((k₁.pipeReadStep p).1.pipeTable p).writers
      rw [htake]
      exact ⟨hreaders, hwriters⟩
    · show ((k₁.pipeReadStep p).1.pipeTable p).count = 0 ∧
        0 < ((k₁.pipeReadStep p).1.pipeTable p).capacity
      rw [htake]
      exact ⟨hcount, hcap⟩
    · obtain ⟨hmoved, hrest⟩ := hcounts w
      refine ⟨?_, hrest⟩
      cases w with
      | false =>
          simp only [Counts.after, Function.update_self]
          rw [Function.update_of_ne (by decide), hmoved]
          rfl
      | true =>
          simp only [Counts.after]
          rw [Function.update_of_ne (by decide), Function.update_self, hmoved]
          rfl

theorem Idling.rounds {x : Kernel × Counts} (h : Idling p 0 x) (v : Nat) :
    ∃ x', (pipeMachine p).Reach x x' ∧ Idling p v x' := by
  induction v with
  | zero => exact ⟨x, .refl _, h⟩
  | succ v ih =>
      obtain ⟨x₁, hr, hv⟩ := ih
      exact hv.round hr

/-- The shell opens a pipe of capacity 1 and writes and reads bytes in turn.  It
never waits, so after `v` bytes the pipe is empty and both semaphores stand at
`v`, whatever `v` is. -/
theorem tokens_pile_up : ∃ k₀ : Kernel, ∃ n : Bool → Fin maxSemaphores,
    cpuMachine.Reach (init 1000) k₀ ∧ FreshPipe k₀ 0 n ∧ (k₀.pipeTable 0).capacity = 1 ∧
    ∀ v : Nat, ∃ k t, (pipeMachine 0).Reach (k₀, Counts.start) (k, t) ∧
      (k.pipeTable 0).active = true ∧ (k.pipeTable 0).count = 0 ∧
      ∀ w, (k.semTable (n w)).value = v := by
  obtain ⟨k₀, hk, hfresh, hcap⟩ := cpuMachine.exists_reach_of_trace (s := init 1000)
    [.call (.create [115] 3 1 5000) 0, .timer 0, .call (.pipeOpen 1) 0]
    (P := fun k => FreshPipe k 0 (fun w => if w then 1 else 0) ∧ (k.pipeTable 0).capacity = 1)
    (by decide +kernel)
  refine ⟨k₀, _, hk, hfresh, hcap, fun v => ?_⟩
  have hstart : Idling 0 0 (k₀, Counts.start) := by
    refine ⟨hfresh.active, ?_, ⟨hfresh.empty, hfresh.capacity.1⟩, fun w => ⟨rfl, rfl, rfl⟩⟩
    show 0 < (k₀.pipeTable 0).readers ∧ 0 < (k₀.pipeTable 0).writers
    rw [hfresh.ends.1, hfresh.ends.2]
    decide
  obtain ⟨⟨k, t⟩, hr, hv⟩ := hstart.rounds v
  refine ⟨k, t, hr, hv.active, hv.empty.1, fun w => ?_⟩
  have hb := (pipeMachine_balance hfresh hr hv.active).value w
  have hmoved : t.moved (!w) = v := (hv.counts !w).1
  have hrest : t.waits w = 0 ∧ t.closed w = 0 := (hv.counts w).2
  simp only at hb
  omega

end Kernel

end TP2Kernel
