/-
TP2Kernel/Semaphore.lean

`Kernel/semaphore.c`: counting semaphores with a queue of waiting pids.  A
negative value counts the waiters, and a post that leaves the value at most
zero wakes one of them, chosen by priority plus the credit it has gained by
being passed over.

The loops over a waiting queue are bounded by its length, which every round
shortens.

A name is kept whole here.  In the table it has a field of 32 bytes that `strcpy`
does not know of, so this is the code for names of fewer than 32 bytes only
(`SemTable.lift_semOpen`).
-/
import TP2Kernel.Kernel
import Mathlib.Data.List.GetD

namespace TP2Kernel

/-! ### The waiting queue -/

/-- The scan of `unblock_one_waiter` for the waiter with the highest score. -/
def bestWaiter (s : Sched) : List (Int × Int) → Nat → Option Nat → Int → Option Nat
  | [], _, best, _ => best
  | (pid, credit) :: ws, i, best, bestScore =>
      match s.findIndexByPid pid with
      | none => bestWaiter s ws (i + 1) best bestScore
      | some j =>
          let p := s.processTable j
          if p.state = .blocked ∧ p.priority + credit > bestScore then
            bestWaiter s ws (i + 1) (some i) (p.priority + credit)
          else bestWaiter s ws (i + 1) best bestScore

/-- `age_waiters_except`. -/
def ageWaitersExcept (ws : List (Int × Int)) (selected : Nat) : List (Int × Int) :=
  ws.mapIdx fun i w => if i ≠ selected ∧ w.2 < 5 then (w.1, w.2 + 1) else w

/-- `remove_waiting_pid_from_sem`, the queue that remains. -/
def removePid (ws : List (Int × Int)) (pid : Int) : List (Int × Int) :=
  ws.filter fun w => w.1 ≠ pid

theorem removePid_sublist (ws : List (Int × Int)) (pid : Int) :
    ((removePid ws pid).map Prod.fst).Sublist (ws.map Prod.fst) :=
  List.filter_sublist.map _

theorem not_mem_removePid (ws : List (Int × Int)) (pid : Int) :
    pid ∉ (removePid ws pid).map Prod.fst := by
  intro hm
  obtain ⟨w, hw, he⟩ := List.mem_map.mp hm
  exact absurd he (of_decide_eq_true (List.mem_filter.mp hw).2)

/-- A queue that names everybody once still does so when `pid` goes to its end. -/
theorem nodup_removePid_concat {ws : List (Int × Int)} (h : (ws.map Prod.fst).Nodup) (pid c : Int) :
    ((removePid ws pid ++ [(pid, c)]).map Prod.fst).Nodup := by
  rw [List.map_append]
  refine List.nodup_append.mpr ⟨h.sublist (removePid_sublist ws pid), List.nodup_singleton _, ?_⟩
  rintro a ha b hb rfl
  obtain rfl := List.mem_singleton.mp hb
  exact not_mem_removePid ws _ ha

/-- How many entries `remove_waiting_pid_from_sem` takes out. -/
def removedCount (ws : List (Int × Int)) (pid : Int) : Int :=
  (ws.countP fun w => w.1 = pid : Nat)

namespace Kernel

/-! ### Opening and closing -/

/-- `is_valid`, as the index of an active semaphore. -/
def validSem (k : Kernel) (semId : Int) : Option (Fin maxSemaphores) :=
  (index? maxSemaphores semId).filter fun i => (k.semTable i).active

/-- `find_by_name`. -/
def findByName (k : Kernel) (name : List UInt8) : Option (Fin maxSemaphores) :=
  (List.finRange maxSemaphores).find? fun i =>
    (k.semTable i).active ∧ (k.semTable i).name = name

/-- `find_free_slot` of `semaphore.c`. -/
def findFreeSem (k : Kernel) : Option (Fin maxSemaphores) :=
  (List.finRange maxSemaphores).find? fun i => !(k.semTable i).active

/-- `sem_open`, of a name with fewer than 32 bytes. -/
def semOpen (k : Kernel) (name : List UInt8) (initialValue : Int) : Kernel × Int :=
  match k.findByName name with
  | some i => (k.modifySem i fun s => { s with refCount := s.refCount + 1 }, i.val)
  | none =>
      match k.findFreeSem with
      | none => (k, -1)
      | some i => (k.modifySem i fun _ => ⟨name, initialValue, [], true, 1⟩, i.val)

/-- `sem_close`. -/
def semClose (k : Kernel) (semId : Int) : Kernel × Int :=
  match k.validSem semId with
  | none => (k, -1)
  | some i =>
      let k := k.modifySem i fun s => { s with refCount := s.refCount - 1 }
      if (k.semTable i).refCount ≤ 0 then
        (k.modifySem i fun s => { s with active := false, waiting := [] }, 0)
      else (k, 0)

/-! ### Posting -/

/-- `dequeue_at`. -/
def dequeueAt (k : Kernel) (i : Fin maxSemaphores) (idx : Nat) : Kernel :=
  k.modifySem i fun s => s.setWaiting (s.waiting.eraseIdx idx)

/-- The loop of `unblock_one_waiter`. -/
def unblockLoop (i : Fin maxSemaphores) : Nat → Kernel → Kernel
  | 0, k => k
  | n + 1, k =>
      if (k.semTable i).waiting = [] then k
      else
        match bestWaiter k.sched (k.semTable i).waiting 0 none (-1) with
        | none => unblockLoop i n (k.dequeueAt i 0)
        | some best =>
            let pid := ((k.semTable i).waiting.getD best (0, 0)).1
            let k := k.modifySem i fun s => s.setWaiting (ageWaitersExcept s.waiting best)
            let k := k.dequeueAt i best
            if (k.sched.findIndexByPid pid).isSome then
              { k with sched := k.sched.schedulerUnblock pid }
            else unblockLoop i n k

/-- `unblock_one_waiter`. -/
def unblockOneWaiter (k : Kernel) (i : Fin maxSemaphores) : Kernel :=
  unblockLoop i (k.semTable i).waiting.length k

/-- `sem_post`. -/
def semPost (k : Kernel) (semId : Int) : Kernel × Int :=
  match k.validSem semId with
  | none => (k, -1)
  | some i =>
      let k := k.modifySem i fun s => s.addValue 1
      if (k.semTable i).value ≤ 0 then (k.unblockOneWaiter i, 0) else (k, 0)

/-- The loop of `sem_post_all`. -/
def postAllLoop (i : Fin maxSemaphores) : Nat → Kernel → Kernel
  | 0, k => k
  | n + 1, k =>
      if (k.semTable i).waiting = [] then k
      else
        let k := k.modifySem i fun s => s.addValue 1
        postAllLoop i n (k.unblockOneWaiter i)

/-- `sem_post_all`. -/
def semPostAll (k : Kernel) (semId : Int) : Kernel × Int :=
  match k.validSem semId with
  | none => (k, -1)
  | some i =>
      let k := postAllLoop i (k.semTable i).waiting.length k
      if (k.semTable i).value < 0 then (k.modifySem i fun s => { s with value := 0 }, 0)
      else (k, 0)

/-! ### Waiting -/

/-- `sem_wait`: `1` if the caller was blocked. -/
def semWait (k : Kernel) (semId : Int) : Kernel × Int :=
  match k.validSem semId with
  | none => (k, -1)
  | some i =>
      let pid := k.sched.schedulerGetpid
      let k := k.modifySem i fun s => s.addValue (-1)
      if (k.semTable i).value ≥ 0 then (k, 0)
      else
        -- `enqueue` first takes out an entry of the same pid
        let k := k.modifySem i fun s => s.setWaiting (removePid s.waiting pid)
        if (k.semTable i).waiting.length ≥ maxWaiting then
          (k.modifySem i fun s => s.addValue 1, -1)
        else
          let k := k.modifySem i fun s => s.setWaiting (s.waiting ++ [(pid, 0)])
          ({ k with sched := k.sched.schedulerBlock pid }, 1)

/-- `sem_remove_waiting_pid`. -/
def semRemoveWaitingPid (k : Kernel) (pid : Int) : Kernel :=
  { k with
    semTable := fun i =>
      let s := k.semTable i
      if s.active then
        (s.setWaiting (removePid s.waiting pid)).addValue (removedCount s.waiting pid)
      else s }

end Kernel

/-! ### Choosing a waiter -/

/-- The waiter is a blocked process with a score above `score`. -/
def Eligible (s : Sched) (score : Int) (w : Int × Int) : Prop :=
  ∃ j, s.findIndexByPid w.1 = some j ∧ (s.processTable j).state = .blocked ∧
    (s.processTable j).priority + w.2 > score

theorem bestWaiter_eq_none {s : Sched} {ws : List (Int × Int)} {i : Nat} {score : Int} :
    bestWaiter s ws i none score = none ↔ ∀ w ∈ ws, ¬ Eligible s score w := by
  have hsome : ∀ (ws : List (Int × Int)) (i b : Nat) (score : Int),
      bestWaiter s ws i (some b) score ≠ none := by
    intro ws
    induction ws with
    | nil => exact fun _ _ _ h => by cases h
    | cons w ws ih =>
        obtain ⟨pid, credit⟩ := w
        intro i b score
        simp only [bestWaiter]
        split
        · exact ih _ _ _
        · split <;> exact ih _ _ _
  induction ws generalizing i with
  | nil => simp [bestWaiter]
  | cons w ws ih =>
      obtain ⟨pid, credit⟩ := w
      simp only [bestWaiter, List.forall_mem_cons]
      rcases hf : s.findIndexByPid pid with - | j
      · simp only [ih, Eligible, hf]
        simp
      · simp only
        split
        · rename_i hc
          refine iff_of_false (hsome _ _ _ _) fun h => h.1 ⟨j, hf, hc⟩
        · rename_i hc
          refine ih.trans (and_iff_right ?_).symm
          rintro ⟨j', hj', he⟩
          obtain rfl := Option.some.inj (hf.symm.trans hj')
          exact hc he

/-- The waiter chosen is in the queue and blocked. -/
theorem bestWaiter_some {s : Sched} {ws : List (Int × Int)} {i b : Nat} {best : Option Nat}
    {score : Int} (h : bestWaiter s ws i best score = some b) :
    best = some b ∨ ∃ n, b = i + n ∧ ∃ hn : n < ws.length, Eligible s score ws[n] := by
  induction ws generalizing i best score with
  | nil => exact .inl h
  | cons w ws ih =>
      obtain ⟨pid, credit⟩ := w
      have hnext : ∀ sc, score ≤ sc →
          (∃ n, b = i + 1 + n ∧ ∃ hn : n < ws.length, Eligible s sc ws[n]) →
          ∃ n, b = i + n ∧ ∃ hn : n < ((pid, credit) :: ws).length,
            Eligible s score ((pid, credit) :: ws)[n] := by
        rintro sc hle ⟨n, hb, hn, j, hj, hst, hsc⟩
        exact ⟨n + 1, by omega, Nat.succ_lt_succ hn, j, hj, hst, by
          simp only [List.getElem_cons_succ]; omega⟩
      simp only [bestWaiter] at h
      rcases hf : s.findIndexByPid pid with - | j
      · rw [hf] at h
        exact (ih h).imp_right (hnext score (le_refl _))
      · rw [hf] at h
        simp only at h
        split at h
        · rename_i hc
          rcases ih h with he | hn
          · obtain rfl := Option.some.inj he
            exact .inr ⟨0, rfl, Nat.succ_pos _, j, hf, hc⟩
          · exact .inr (hnext _ (by omega) hn)
        · exact (ih h).imp_right (hnext score (le_refl _))

namespace Kernel

/-- The queue after the waiter with index `b` has been released. -/
def released (ws : List (Int × Int)) (b : Nat) : List (Int × Int) :=
  (ageWaitersExcept ws b).eraseIdx b

theorem unblockLoop_none {i : Fin maxSemaphores} {n : Nat} {k : Kernel}
    (hn : (k.semTable i).waiting.length = n)
    (hb : ∀ w ∈ (k.semTable i).waiting, ¬ Eligible k.sched (-1) w) :
    unblockLoop i n k = k.modifySem i fun m => m.setWaiting [] := by
  induction n generalizing k with
  | zero =>
      have hnil := List.length_eq_zero_iff.mp hn
      rw [unblockLoop, k.modifySem_eq_self]
      rw [← hnil]
      rfl
  | succ n ih =>
      have hne : (k.semTable i).waiting ≠ [] := by
        intro hnil
        rw [hnil] at hn
        cases hn
      have hw : ((k.dequeueAt i 0).semTable i).waiting = (k.semTable i).waiting.tail := by
        rw [dequeueAt, modifySem_self]
        exact List.eraseIdx_zero
      rw [unblockLoop, if_neg hne, bestWaiter_eq_none.mpr hb]
      simp only
      rw [ih (by rw [hw, List.length_tail, hn]; rfl)
        (by rw [hw]; exact fun w hm => hb w (List.mem_of_mem_tail hm)), dequeueAt,
        modifySem_modifySem]
      rfl

/-- **`unblock_one_waiter`**: if no waiter is a blocked process the queue is
emptied, otherwise the waiter with the best score is released. -/
theorem unblockOneWaiter_eq (k : Kernel) (i : Fin maxSemaphores) :
    k.unblockOneWaiter i =
      match bestWaiter k.sched (k.semTable i).waiting 0 none (-1) with
      | none => k.modifySem i fun m => m.setWaiting []
      | some b =>
          { k.modifySem i (fun m => m.setWaiting (released m.waiting b)) with
            sched := k.sched.schedulerUnblock ((k.semTable i).waiting.getD b (0, 0)).1 } := by
  rcases hb : bestWaiter k.sched (k.semTable i).waiting 0 none (-1) with - | b
  · exact unblockLoop_none rfl (bestWaiter_eq_none.mp hb)
  · obtain ⟨n, hn, hlt, j, hj, -, -⟩ := (bestWaiter_some hb).resolve_left fun h => by cases h
    rw [Nat.zero_add] at hn
    subst hn
    obtain ⟨m, hm⟩ : ∃ m, (k.semTable i).waiting.length = m + 1 :=
      ⟨(k.semTable i).waiting.length - 1, by omega⟩
    have hne : (k.semTable i).waiting ≠ [] := by
      intro hnil
      rw [hnil] at hm
      cases hm
    have hpid : ((k.semTable i).waiting.getD b (0, 0)).1 = ((k.semTable i).waiting[b]).1 := by
      rw [List.getD_eq_getElem _ _ hlt]
    rw [unblockOneWaiter, hm, unblockLoop, if_neg hne, hb]
    simp only [dequeueAt, modifySem_modifySem, modifySem_sched, hpid, hj, Option.isSome_some,
      if_true]
    rfl

/-- Of the kernel it changes one queue and the scheduler. -/
theorem unblockOneWaiter_only (k : Kernel) (i : Fin maxSemaphores) :
    k.unblockOneWaiter i =
      { k.modifySem i (fun m => m.setWaiting ((k.unblockOneWaiter i).semTable i).waiting) with
        sched := (k.unblockOneWaiter i).sched } := by
  rw [unblockOneWaiter_eq]
  split
  · simp only [modifySem_self, Semaphore.setWaiting_waiting]
  · simp only [modifySem_self, Semaphore.setWaiting_waiting]
    rfl

end Kernel

/-! ### What the calls do -/

/-- The caller at the end of the queue, and one token less. -/
def Semaphore.park (m : Semaphore) (pid : Int) : Semaphore :=
  (m.setWaiting (removePid m.waiting pid ++ [(pid, 0)])).addValue (-1)

theorem Semaphore.addValue_setWaiting_addValue (m : Semaphore) (ws : List (Int × Int)) :
    ((m.addValue (-1)).setWaiting ws).addValue 1 = m.setWaiting ws := by
  have hv : m.value + -1 + 1 = m.value := by omega
  simp only [addValue, setWaiting, hv]

namespace Kernel

variable (k : Kernel)

theorem validSem_some {semId : Int} {i : Fin maxSemaphores} (h : k.validSem semId = some i) :
    (k.semTable i).active = true ∧ semId = (i.val : Int) := by
  obtain ⟨hi, hact⟩ := Option.filter_eq_some_iff.mp h
  exact ⟨hact, index?_eq_some hi⟩

variable {k} in
theorem validSem_of_active {i : Fin maxSemaphores} (hact : (k.semTable i).active = true) :
    k.validSem i.val = some i := by
  unfold validSem
  rw [index?_natCast]
  exact Option.filter_eq_some_iff.mpr ⟨rfl, hact⟩

theorem semOpen_sched (name : List UInt8) (v : Int) : (k.semOpen name v).1.sched = k.sched := by
  unfold semOpen
  split
  · rfl
  · split <;> rfl

/-- What `sem_wait` can do: refuse, take a token, find the queue full, or block
the caller. -/
inductive SemWaitCases (semId : Int) : Kernel × Int → Prop
  | refused (h : k.validSem semId = none) : SemWaitCases semId (k, -1)
  | takes (i : Fin maxSemaphores) (hi : k.validSem semId = some i)
      (hv : 0 < (k.semTable i).value) :
      SemWaitCases semId (k.modifySem i fun m => m.addValue (-1), 0)
  | full (i : Fin maxSemaphores) (hi : k.validSem semId = some i)
      (hv : (k.semTable i).value ≤ 0)
      (hlen : maxWaiting ≤ (removePid (k.semTable i).waiting k.sched.schedulerGetpid).length) :
      SemWaitCases semId
        (k.modifySem i fun m => m.setWaiting (removePid m.waiting k.sched.schedulerGetpid), -1)
  | parks (i : Fin maxSemaphores) (hi : k.validSem semId = some i)
      (hv : (k.semTable i).value ≤ 0)
      (hlen : (removePid (k.semTable i).waiting k.sched.schedulerGetpid).length < maxWaiting) :
      SemWaitCases semId
        ({ k.modifySem i (fun m => Semaphore.park m k.sched.schedulerGetpid) with
            sched := k.sched.schedulerBlock k.sched.schedulerGetpid }, 1)

theorem semWait_cases (semId : Int) : k.SemWaitCases semId (k.semWait semId) := by
  simp only [semWait]
  split
  · exact .refused ‹_›
  · rename_i i hi
    simp only [modifySem_modifySem, modifySem_self, Semaphore.addValue_value,
      Semaphore.setWaiting_waiting, Semaphore.addValue_waiting, modifySem_sched]
    split
    · rename_i hv
      exact .takes i hi (by omega)
    · rename_i hv
      split
      · rename_i hlen
        simp only [Semaphore.addValue_setWaiting_addValue]
        exact .full i hi (by omega) hlen
      · rename_i hlen
        exact .parks i hi (by omega) (by omega)

/-- Of the scheduler, `sem_wait` uses nothing but `scheduler_block`. -/
theorem semWait_sched (semId : Int) :
    (k.semWait semId).1.sched =
      if (k.semWait semId).2 = 1 then k.sched.schedulerBlock k.sched.schedulerGetpid
      else k.sched := by
  have hcase := k.semWait_cases semId
  generalize k.semWait semId = r at hcase
  cases hcase with
  | refused _ => rfl
  | takes i _ _ => rfl
  | full i _ _ _ => rfl
  | parks i _ _ _ => rfl

end Kernel

end TP2Kernel
