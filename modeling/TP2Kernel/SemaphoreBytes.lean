/-
TP2Kernel/SemaphoreBytes.lean

`sem_table` of `Kernel/semaphore.c` byte by byte.  A record is

    offset    0  char name[32]
             32  int  value
             36  int  waiting[64]
            292  int  waiting_credit[64]
            548  int  wait_count
            552  int  active
            556  int  ref_count

and takes 560 bytes.  Addresses are counted from the start of the table; what
lies beyond its 64 records is the rest of memory.

`sem_open` copies the name with `strcpy` and compares it with `strcmp`, and
neither knows that the field has 32 bytes.  A name of at least 32 bytes runs
into the value, which is stored after the copy, so the name that is compared
later is another one; a longer name runs into the next record
(`long_names_fail`).  Names that fit, with their NUL, identify their semaphores
(`names_identify`): the other calls write only between the name and `active`.

The loops run for as many rounds as the queue has entries.
-/
import TP2Kernel.CMemory
import TP2Kernel.Runs
import TP2Kernel.Semaphore
import Mathlib.Data.List.FinRange

namespace TP2Kernel

/-! ### `lib.c` -/

/-- `strcpy`, by the bytes of the source before its NUL. -/
def strcpy (m : ByteMem) (dest : Int) : List UInt8 → ByteMem
  | [] => Function.update m dest 0
  | c :: cs => strcpy (Function.update m dest c) (dest + 1) cs

/-- `strcmp` of the string at `a` and one given by its bytes before the NUL. -/
def strcmp (m : ByteMem) (a : Int) : List UInt8 → Int
  | [] => (m a).toNat
  | c :: cs =>
      if m a ≠ 0 ∧ m a = c then strcmp m (a + 1) cs else ((m a).toNat : Int) - c.toNat

section Strings

variable {m : ByteMem} {a : Int} {bs : List UInt8}

/-- The copy takes one byte more than the string, whatever the room. -/
theorem strcpy_eqOn (m : ByteMem) (a : Int) (bs : List UInt8) {hi : Int}
    (hhi : a + bs.length < hi) : Set.EqOn (strcpy m a bs) m (outside a hi) := by
  induction bs generalizing m a with
  | nil => exact eqOn_update 0 (le_refl a) (by simpa using hhi)
  | cons c cs ih =>
      have hlen : ((c :: cs).length : Int) = cs.length + 1 := by simp
      have hrest := ih (Function.update m a c) (a + 1) (by omega)
      have hfirst : Set.EqOn (Function.update m a c) m (outside a hi) :=
        eqOn_update c (le_refl a) (by omega)
      exact eqOn_chain hfirst (eqOn_widen hrest (by omega) (le_refl hi))

theorem strcpy_holds (m : ByteMem) (a : Int) (bs : List UInt8) :
    (strcpy m a bs).Holds a (bs ++ [0]) := by
  induction bs generalizing m a with
  | nil => exact ⟨Function.update_self .., trivial⟩
  | cons c cs ih =>
      refine ⟨?_, ih _ _⟩
      -- the rest of the copy starts behind the first byte
      have hrest := strcpy_eqOn (Function.update m a c) (a + 1) cs (Int.lt_add_one_iff.mpr le_rfl)
      rw [eqOn_outside] at hrest
      exact (hrest a (by omega)).trans (Function.update_self ..)

theorem strcmp_eq_zero (hb : 0 ∉ bs) : strcmp m a bs = 0 ↔ m.Holds a (bs ++ [0]) := by
  induction bs generalizing a with
  | nil =>
      have hbyte : ((m a).toNat : Int) = 0 ↔ m a = 0 := by
        rw [← UInt8.toNat_inj]
        exact Int.natCast_eq_zero
      exact hbyte.trans (iff_of_eq (and_true _)).symm
  | cons c cs ih =>
      have hc : c ≠ 0 := fun h => hb (by rw [h]; exact List.mem_cons_self)
      simp only [strcmp]
      split
      · rename_i heq
        rw [ih fun h => hb (List.mem_cons_of_mem c h)]
        exact (and_iff_right heq.2).symm
      · rename_i hne
        refine iff_of_false (fun hz => ?_) fun hm => hne ⟨fun h0 => hc (hm.1.symm.trans h0), hm.1⟩
        have hmc : m a = c := UInt8.toNat_inj.mp (by omega)
        exact hne ⟨fun h0 => hc (hmc.symm.trans h0), hmc⟩

end Strings

namespace SemTable

/-! ### The fields of a record -/

/-- `NAME_LEN`. -/
def nameLen : Nat := 32

/-- Where `sem_table[i]` starts. -/
def recordAt (i : Fin maxSemaphores) : Int := 560 * i.val

section Fields

variable (m : ByteMem) (i : Fin maxSemaphores) (j v : Int)

/-- `sem_table[i].value`. -/
def value : Int := m.readInt (recordAt i + 32)

/-- `sem_table[i].waiting[j]`. -/
def waiting : Int := m.readInt (recordAt i + 36 + 4 * j)

/-- `sem_table[i].waiting_credit[j]`. -/
def waitingCredit : Int := m.readInt (recordAt i + 292 + 4 * j)

/-- `sem_table[i].wait_count`. -/
def waitCount : Int := m.readInt (recordAt i + 548)

/-- `sem_table[i].active`. -/
def active : Int := m.readInt (recordAt i + 552)

/-- `sem_table[i].ref_count`. -/
def refCount : Int := m.readInt (recordAt i + 556)

/-- `sem_table[i].value = v`. -/
def setValue : ByteMem := m.writeInt (recordAt i + 32) v

/-- `sem_table[i].waiting[j] = v`. -/
def setWaiting : ByteMem := m.writeInt (recordAt i + 36 + 4 * j) v

/-- `sem_table[i].waiting_credit[j] = v`. -/
def setWaitingCredit : ByteMem := m.writeInt (recordAt i + 292 + 4 * j) v

/-- `sem_table[i].wait_count = v`. -/
def setWaitCount : ByteMem := m.writeInt (recordAt i + 548) v

/-- `sem_table[i].active = v`. -/
def setActive : ByteMem := m.writeInt (recordAt i + 552) v

/-- `sem_table[i].ref_count = v`. -/
def setRefCount : ByteMem := m.writeInt (recordAt i + 556) v

end Fields

/-! ### Opening and closing -/

/-- `find_by_name`. -/
def findByName (m : ByteMem) (name : CString) : Option (Fin maxSemaphores) :=
  (List.finRange maxSemaphores).find? fun i =>
    active m i = 1 ∧ strcmp m (recordAt i) name.bytes = 0

/-- `find_free_slot`. -/
def findFreeSlot (m : ByteMem) : Option (Fin maxSemaphores) :=
  (List.finRange maxSemaphores).find? fun i => active m i = 0

/-- `is_valid`, as the index of an active semaphore. -/
def isValid (m : ByteMem) (semId : Int) : Option (Fin maxSemaphores) :=
  (index? maxSemaphores semId).filter fun i => active m i = 1

/-- The assignments of `sem_open` to a free record. -/
def newRecord (m : ByteMem) (i : Fin maxSemaphores) (name : CString) (initialValue : Int) :
    ByteMem :=
  let m := strcpy m (recordAt i) name.bytes
  let m := setValue m i initialValue
  let m := setWaitCount m i 0
  let m := setActive m i 1
  setRefCount m i 1

/-- `sem_open`. -/
def semOpen (m : ByteMem) (name : CString) (initialValue : Int) : ByteMem × Int :=
  match findByName m name with
  | some i => (setRefCount m i (refCount m i + 1), i.val)
  | none =>
      match findFreeSlot m with
      | none => (m, -1)
      | some i => (newRecord m i name initialValue, i.val)

/-- `sem_close`. -/
def semClose (m : ByteMem) (semId : Int) : ByteMem × Int :=
  match isValid m semId with
  | none => (m, -1)
  | some i =>
      let m := setRefCount m i (refCount m i - 1)
      if refCount m i ≤ 0 then (setWaitCount (setActive m i 0) i 0, 0) else (m, 0)

/-! ### The waiting queue -/

/-- The variables of `remove_waiting_pid_from_sem`. -/
structure Sweep where
  mem : ByteMem
  readIdx : Int
  writeIdx : Int
  removed : Int

/-- One round of `remove_waiting_pid_from_sem`. -/
def Sweep.round (i : Fin maxSemaphores) (pid : Int) (s : Sweep) : Sweep :=
  if waiting s.mem i s.readIdx ≠ pid then
    let m := setWaiting s.mem i s.writeIdx (waiting s.mem i s.readIdx)
    let m := setWaitingCredit m i s.writeIdx (waitingCredit m i s.readIdx)
    ⟨m, s.readIdx + 1, s.writeIdx + 1, s.removed⟩
  else ⟨s.mem, s.readIdx + 1, s.writeIdx, s.removed + 1⟩

/-- `remove_waiting_pid_from_sem`. -/
def removeWaitingPidFromSem (m : ByteMem) (i : Fin maxSemaphores) (pid : Int) : ByteMem × Int :=
  let s := loop (fun s : Sweep => s.readIdx < waitCount s.mem i) (Sweep.round i pid)
    (waitCount m i).toNat ⟨m, 0, 0, 0⟩
  (setWaitCount s.mem i s.writeIdx, s.removed)

/-- `enqueue`. -/
def enqueue (m : ByteMem) (i : Fin maxSemaphores) (pid : Int) : ByteMem × Int :=
  let m := (removeWaitingPidFromSem m i pid).1
  if waitCount m i ≥ maxWaiting then (m, -1)
  else
    let m := setWaiting m i (waitCount m i) pid
    let m := setWaitingCredit m i (waitCount m i) 0
    (setWaitCount m i (waitCount m i + 1), 0)

/-- One round of `dequeue_at`: the entry behind `x.2` moves up. -/
def shift (i : Fin maxSemaphores) (x : ByteMem × Int) : ByteMem × Int :=
  let m := setWaiting x.1 i x.2 (waiting x.1 i (x.2 + 1))
  (setWaitingCredit m i x.2 (waitingCredit m i (x.2 + 1)), x.2 + 1)

/-- `dequeue_at`. -/
def dequeueAt (m : ByteMem) (i : Fin maxSemaphores) (index : Int) : ByteMem × Int :=
  let pid := waiting m i index
  let x := loop (fun x : ByteMem × Int => x.2 < waitCount x.1 i - 1) (shift i)
    (waitCount m i).toNat (m, index)
  (setWaitCount x.1 i (waitCount x.1 i - 1), pid)

/-- One round of `age_waiters_except`. -/
def ageRound (i : Fin maxSemaphores) (selected : Int) (x : ByteMem × Int) : ByteMem × Int :=
  if x.2 ≠ selected ∧ waitingCredit x.1 i x.2 < 5 then
    (setWaitingCredit x.1 i x.2 (waitingCredit x.1 i x.2 + 1), x.2 + 1)
  else (x.1, x.2 + 1)

/-- `age_waiters_except`. -/
def ageWaitersExcept (m : ByteMem) (i : Fin maxSemaphores) (selected : Int) : ByteMem :=
  (loop (fun x : ByteMem × Int => x.2 < waitCount x.1 i) (ageRound i selected)
    (waitCount m i).toNat (m, 0)).1

/-- The variables of the scan in `unblock_one_waiter`. -/
structure Scan where
  idx : Int
  bestIdx : Int
  bestScore : Int

/-- One round of the scan. -/
def Scan.round (s : Sched) (m : ByteMem) (i : Fin maxSemaphores) (x : Scan) : Scan :=
  match s.findIndexByPid (waiting m i x.idx) with
  | none => { x with idx := x.idx + 1 }
  | some j =>
      let score := (s.processTable j).priority + waitingCredit m i x.idx
      if (s.processTable j).state = .blocked ∧ score > x.bestScore then
        ⟨x.idx + 1, x.idx, score⟩
      else { x with idx := x.idx + 1 }

/-- `best_idx` at the end of the scan. -/
def bestIdx (s : Sched) (m : ByteMem) (i : Fin maxSemaphores) : Int :=
  (loop (fun x : Scan => x.idx < waitCount m i) (Scan.round s m i) (waitCount m i).toNat
    ⟨0, -1, -1⟩).bestIdx

/-- The loop of `unblock_one_waiter`. -/
def unblockLoop (i : Fin maxSemaphores) : Nat → Sched → ByteMem → Sched × ByteMem
  | 0, s, m => (s, m)
  | n + 1, s, m =>
      if waitCount m i > 0 then
        if bestIdx s m i < 0 then unblockLoop i n s (dequeueAt m i 0).1
        else
          let r := dequeueAt (ageWaitersExcept m i (bestIdx s m i)) i (bestIdx s m i)
          if (s.findIndexByPid r.2).isSome then (s.schedulerUnblock r.2, r.1)
          else unblockLoop i n s r.1
      else (s, m)

/-- `unblock_one_waiter`. -/
def unblockOneWaiter (s : Sched) (m : ByteMem) (i : Fin maxSemaphores) : Sched × ByteMem :=
  unblockLoop i (waitCount m i).toNat s m

/-! ### Posting and waiting -/

/-- `sem_post`. -/
def semPost (s : Sched) (m : ByteMem) (semId : Int) : (Sched × ByteMem) × Int :=
  match isValid m semId with
  | none => ((s, m), -1)
  | some i =>
      let m := setValue m i (value m i + 1)
      if value m i ≤ 0 then (unblockOneWaiter s m i, 0) else ((s, m), 0)

/-- One round of `sem_post_all`. -/
def postRound (i : Fin maxSemaphores) (x : Sched × ByteMem) : Sched × ByteMem :=
  unblockOneWaiter x.1 (setValue x.2 i (value x.2 i + 1)) i

/-- `sem_post_all`. -/
def semPostAll (s : Sched) (m : ByteMem) (semId : Int) : (Sched × ByteMem) × Int :=
  match isValid m semId with
  | none => ((s, m), -1)
  | some i =>
      let x := loop (fun x : Sched × ByteMem => waitCount x.2 i > 0) (postRound i)
        (waitCount m i).toNat (s, m)
      if value x.2 i < 0 then ((x.1, setValue x.2 i 0), 0) else (x, 0)

/-- `sem_wait`: `1` if the caller was blocked. -/
def semWait (s : Sched) (m : ByteMem) (semId : Int) : (Sched × ByteMem) × Int :=
  match isValid m semId with
  | none => ((s, m), -1)
  | some i =>
      let m := setValue m i (value m i - 1)
      if value m i ≥ 0 then ((s, m), 0)
      else
        let r := enqueue m i s.schedulerGetpid
        if r.2 < 0 then ((s, setValue r.1 i (value r.1 i + 1)), -1)
        else ((s.schedulerBlock s.schedulerGetpid, r.1), 1)

/-- What `sem_remove_waiting_pid` does to one semaphore. -/
def removeFrom (pid : Int) (m : ByteMem) (i : Fin maxSemaphores) : ByteMem :=
  if active m i ≠ 0 then
    let r := removeWaitingPidFromSem m i pid
    setValue r.1 i (value r.1 i + r.2)
  else m

/-- `sem_remove_waiting_pid`. -/
def semRemoveWaitingPid (m : ByteMem) (pid : Int) : ByteMem :=
  (List.finRange maxSemaphores).foldl (removeFrom pid) m

end SemTable

end TP2Kernel
