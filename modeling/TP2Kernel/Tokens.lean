/-
TP2Kernel/Tokens.lean

Values and queues.  A semaphore is tight when its queue is as long as its
value is negative.  A post on a tight semaphore whose waiters are blocked
processes counts one token and, if somebody waits, releases exactly one
process; a wait takes a token or adds the caller to the queue; taking a pid
out gives its token back.

The number of processes with a property, dead ones apart, is `headcount`.  A
queue is never longer than the number of processes parked in it.
-/
import TP2Kernel.Parking
import Mathlib.Data.Fintype.Card

namespace TP2Kernel

/-- The queue is as long as the value is negative. -/
def Semaphore.Tight (m : Semaphore) : Prop := m.waiting.length = (-m.value).toNat

/-- What is fixed while a semaphore is open, but for `ref_count`, which counts
the times it has been opened. -/
def Semaphore.entry (m : Semaphore) : List UInt8 × Bool × Int := (m.name, m.active, m.refCount)

theorem Semaphore.active_of_entry {m m' : Semaphore} (h : m'.entry = m.entry) :
    m'.active = m.active := congrArg (fun e => e.2.1) h

theorem Semaphore.Tight.of_nil {m : Semaphore} (h : m.waiting = []) (hv : 0 ≤ m.value) :
    m.Tight := by
  unfold Tight
  rw [h, List.length_nil]
  omega

/-- Entries taken out and entries left. -/
theorem length_removePid (ws : List (Int × Int)) (pid : Int) :
    ((removePid ws pid).length : Int) + removedCount ws pid = ws.length := by
  have hlen := List.length_eq_length_filter_add (l := ws) fun w => decide (w.1 ≠ pid)
  have hcount : removedCount ws pid = ((ws.filter fun w => !decide (w.1 ≠ pid)).length : Nat) := by
    unfold removedCount
    rw [List.countP_eq_length_filter]
    congr 2
    refine List.filter_congr fun w _ => ?_
    simp
  unfold removePid
  omega

namespace Kernel

variable {k k' : Kernel} {park : Slot → Option (Fin maxSemaphores)}

/-! ### What posts and waits leave alone -/

section Entry

variable (k) (n : Fin maxSemaphores)

theorem unblockOneWaiter_entry (i : Fin maxSemaphores) :
    ((k.unblockOneWaiter i).semTable n).entry = (k.semTable n).entry := by
  rw [unblockOneWaiter_eq]
  split
  · exact k.modifySem_field i n fun _ => rfl
  · rename_i b _
    exact k.modifySem_field i n (f := fun m => m.setWaiting (released m.waiting b)) fun _ => rfl

theorem semPost_entry (semId : Int) :
    ((k.semPost semId).1.semTable n).entry = (k.semTable n).entry := by
  simp only [semPost]
  split
  · rfl
  · rename_i i _
    have hadd : ((k.modifySem i fun m => m.addValue 1).semTable n).entry = (k.semTable n).entry :=
      k.modifySem_field i n fun _ => rfl
    split
    · exact (unblockOneWaiter_entry _ n i).trans hadd
    · exact hadd

theorem postAllLoop_entry (i : Fin maxSemaphores) (m : Nat) :
    ((postAllLoop i m k).semTable n).entry = (k.semTable n).entry := by
  induction m generalizing k with
  | zero => rfl
  | succ m ih =>
      simp only [postAllLoop]
      split
      · rfl
      · rw [ih, unblockOneWaiter_entry]
        exact k.modifySem_field i n fun _ => rfl

theorem semPostAll_entry (semId : Int) :
    ((k.semPostAll semId).1.semTable n).entry = (k.semTable n).entry := by
  simp only [semPostAll]
  split
  · rfl
  · rename_i i _
    split
    · refine Eq.trans ?_ (k.postAllLoop_entry n i (k.semTable i).waiting.length)
      exact modifySem_field _ i n (f := fun s => { s with value := 0 }) fun _ => rfl
    · exact k.postAllLoop_entry n i _

theorem semWait_entry (semId : Int) :
    ((k.semWait semId).1.semTable n).entry = (k.semTable n).entry := by
  have hcase := k.semWait_cases semId
  generalize k.semWait semId = r at hcase
  cases hcase with
  | refused _ => rfl
  | takes i _ _ => exact k.modifySem_field i n (f := fun m => m.addValue (-1)) fun _ => rfl
  | full i _ _ _ =>
      exact k.modifySem_field i n
        (f := fun m => m.setWaiting (removePid m.waiting k.sched.schedulerGetpid)) fun _ => rfl
  | parks i _ _ _ =>
      exact k.modifySem_field i n (f := fun m => m.park k.sched.schedulerGetpid) fun _ => rfl

theorem semRemoveWaitingPid_entry (pid : Int) :
    ((k.semRemoveWaitingPid pid).semTable n).entry = (k.semTable n).entry := by
  simp only [semRemoveWaitingPid]
  split <;> rfl

end Entry

/-! ### Posting -/

theorem Releases.ranked (h : Releases k k') (hr : k.Ranked) : k'.Ranked := by
  intro j
  rw [show (k'.life j).priority = (k.life j).priority from
    h.wakes.field j (fun p => p.life.priority) fun _ => rfl]
  exact hr j

/-- Every waiter can be released. -/
theorem Parked.eligible (h : Parked k park) (hd : k.Distinct) (hr : k.Ranked)
    {i : Fin maxSemaphores} {w : Int × Int} (hw : w ∈ (k.semTable i).waiting) :
    Eligible k.sched (-1) w := by
  obtain ⟨hc, hpos, j, hpid, hb, -⟩ := h.asleep i w hw
  have hfind := hd.find_eq (hpid ▸ hpos) (by rw [hb]; exact (by rintro ⟨⟩))
  rw [hpid] at hfind
  have hrank := hr j
  refine ⟨j, hfind, hb, ?_⟩
  show (k.life j).priority + w.2 > -1
  omega

/-- `unblock_one_waiter` releases exactly one waiter, if there is one. -/
theorem unblockOneWaiter_parked (h : Parked k park) (hd : k.Distinct) (hr : k.Ranked)
    {i : Fin maxSemaphores} (hne : (k.semTable i).waiting ≠ []) :
    ∃ b, b < (k.semTable i).waiting.length ∧ k.unblockOneWaiter i = k.grant i b := by
  rw [unblockOneWaiter_eq]
  rcases hb : bestWaiter k.sched (k.semTable i).waiting 0 none (-1) with - | b
  · obtain ⟨w, hw⟩ := List.exists_mem_of_ne_nil _ hne
    exact absurd (h.eligible hd hr hw) (bestWaiter_eq_none.mp hb w hw)
  · obtain ⟨n, hn, hlt, -⟩ := (bestWaiter_some hb).resolve_left fun h => by cases h
    rw [Nat.zero_add] at hn
    subst hn
    exact ⟨b, hlt, rfl⟩

theorem grant_semTable (k : Kernel) (i : Fin maxSemaphores) (b : Nat) :
    (k.grant i b).semTable i =
      (k.semTable i).setWaiting (released (k.semTable i).waiting b) :=
  k.modifySem_self i fun m => m.setWaiting (released m.waiting b)

theorem length_released {ws : List (Int × Int)} {b : Nat} (hb : b < ws.length) :
    (released ws b).length = ws.length - 1 := by
  rw [released, List.length_eraseIdx_of_lt (by simpa [ageWaitersExcept] using hb)]
  simp [ageWaitersExcept]

/-- **`sem_post` on a tight semaphore** counts one token and keeps it tight: a
waiter is released exactly if there is one. -/
theorem semPost_tight (h : Parked k park) (hd : k.Distinct) (hr : k.Ranked) {semId : Int}
    {i : Fin maxSemaphores} (hi : k.validSem semId = some i) (ht : (k.semTable i).Tight) :
    ((k.semPost semId).1.semTable i).Tight ∧
      ((k.semPost semId).1.semTable i).value = (k.semTable i).value + 1 := by
  have hval : ((k.modifySem i fun m => m.addValue 1).semTable i) = (k.semTable i).addValue 1 :=
    modifySem_self _ _ _
  have h1 : Parked (k.modifySem i fun m => m.addValue 1) park :=
    h.release hd (.counts i rfl (.inl rfl))
  simp only [semPost, hi, hval, Semaphore.addValue_value]
  unfold Semaphore.Tight at ht ⊢
  split
  · rename_i hle
    have hne : ((k.modifySem i fun m => m.addValue 1).semTable i).waiting ≠ [] := by
      rw [hval, Semaphore.addValue_waiting]
      intro hnil
      rw [hnil, List.length_nil] at ht
      omega
    obtain ⟨b, hb, heq⟩ := unblockOneWaiter_parked h1 hd hr hne
    rw [hval, Semaphore.addValue_waiting] at hb
    simp only [heq, grant_semTable, hval, Semaphore.setWaiting_waiting, Semaphore.setWaiting_value,
      Semaphore.addValue_value, Semaphore.addValue_waiting, length_released hb]
    exact ⟨by omega, trivial⟩
  · simp only [hval, Semaphore.addValue_value, Semaphore.addValue_waiting]
    exact ⟨by omega, trivial⟩

/-- Every round of `sem_post_all` shortens the queue. -/
theorem unblockOneWaiter_length (k : Kernel) (i : Fin maxSemaphores) :
    ((k.unblockOneWaiter i).semTable i).waiting.length ≤ (k.semTable i).waiting.length - 1 := by
  rw [unblockOneWaiter_eq]
  rcases hb : bestWaiter k.sched (k.semTable i).waiting 0 none (-1) with - | b
  · simp only [modifySem_self, Semaphore.setWaiting_waiting, List.length_nil]
    exact Nat.zero_le _
  · obtain ⟨n, hn, hlt, -⟩ := (bestWaiter_some hb).resolve_left fun h => by cases h
    rw [Nat.zero_add] at hn
    subst hn
    show ((k.grant i b).semTable i).waiting.length ≤ _
    rw [grant_semTable, Semaphore.setWaiting_waiting, length_released hlt]

theorem postAllLoop_length (i : Fin maxSemaphores) (n : Nat) (k : Kernel) :
    ((postAllLoop i n k).semTable i).waiting.length ≤ (k.semTable i).waiting.length - n := by
  induction n generalizing k with
  | zero => exact le_refl _
  | succ n ih =>
      simp only [postAllLoop]
      split
      · rename_i hnil
        rw [hnil]
        exact Nat.zero_le _
      · refine (ih _).trans ?_
        have hlen := (k.modifySem i fun m => m.addValue 1).unblockOneWaiter_length i
        rw [modifySem_self, Semaphore.addValue_waiting] at hlen
        omega

/-- **`sem_post_all`** leaves nobody waiting. -/
theorem semPostAll_tight {semId : Int} {i : Fin maxSemaphores} (hi : k.validSem semId = some i) :
    ((k.semPostAll semId).1.semTable i).waiting = [] ∧
      0 ≤ ((k.semPostAll semId).1.semTable i).value := by
  have hlen := postAllLoop_length i (k.semTable i).waiting.length k
  rw [Nat.sub_self] at hlen
  have hnil := List.length_eq_zero_iff.mp (Nat.le_zero.mp hlen)
  simp only [semPostAll, hi]
  split
  · rw [modifySem_self]
    exact ⟨hnil, le_refl _⟩
  · rename_i hv
    exact ⟨hnil, not_lt.mp hv⟩

/-! ### Waiting -/

theorem removePid_of_not_waiting {i : Fin maxSemaphores} {pid : Int}
    (hact : (k.semTable i).active = true) (hw : ¬ k.Waiting pid) :
    removePid (k.semTable i).waiting pid = (k.semTable i).waiting := by
  refine List.filter_eq_self.mpr fun w hm => decide_eq_true fun he => hw ?_
  exact ⟨i, hact, he ▸ List.mem_map_of_mem hm⟩

/-- **`sem_wait` on a tight semaphore** by a process that waits nowhere takes
one token, now or later, unless the call fails. -/
theorem semWait_tight {semId : Int} {i : Fin maxSemaphores} (hi : k.validSem semId = some i)
    (ht : (k.semTable i).Tight) (hw : ¬ k.Waiting k.sched.schedulerGetpid) :
    ((k.semWait semId).1.semTable i).Tight ∧
      ((k.semWait semId).1.semTable i).value =
        (k.semTable i).value - (if (k.semWait semId).2 < 0 then 0 else 1) := by
  have hkeep := removePid_of_not_waiting (k.validSem_some hi).1 hw
  have hcase := k.semWait_cases semId
  generalize k.semWait semId = r at hcase
  unfold Semaphore.Tight at ht ⊢
  cases hcase with
  | refused hn => cases hi.symm.trans hn
  | takes n hn hv =>
      obtain rfl := Option.some.inj (hi.symm.trans hn)
      simp only [modifySem_self, Semaphore.addValue_value, Semaphore.addValue_waiting]
      exact ⟨by omega, by simp; omega⟩
  | full n hn hv _ =>
      obtain rfl := Option.some.inj (hi.symm.trans hn)
      simp only [modifySem_self, Semaphore.setWaiting_value, Semaphore.setWaiting_waiting, hkeep]
      exact ⟨ht, by simp⟩
  | parks n hn hv _ =>
      obtain rfl := Option.some.inj (hi.symm.trans hn)
      simp only [modifySem_self, Semaphore.park, Semaphore.addValue_value,
        Semaphore.addValue_waiting, Semaphore.setWaiting_value, Semaphore.setWaiting_waiting,
        hkeep, List.length_append, List.length_singleton]
      exact ⟨by omega, by simp; omega⟩

/-- **Taking a pid out** of a tight semaphore gives its token back. -/
theorem semRemoveWaitingPid_tight {i : Fin maxSemaphores} (ht : (k.semTable i).Tight) (pid : Int) :
    ((k.semRemoveWaitingPid pid).semTable i).Tight := by
  simp only [semRemoveWaitingPid]
  split
  · have hlen := length_removePid (k.semTable i).waiting pid
    have hpos : 0 ≤ removedCount (k.semTable i).waiting pid := Int.natCast_nonneg _
    unfold Semaphore.Tight at ht ⊢
    simp only [Semaphore.addValue_value, Semaphore.addValue_waiting, Semaphore.setWaiting_value,
      Semaphore.setWaiting_waiting]
    omega
  · exact ht

/-! ### Counting processes -/

section Headcount

variable (k)

/-- The number of processes with a property. -/
def headcount (Q : Slot → Prop) [DecidablePred Q] : Nat :=
  (Finset.univ.filter fun j => (k.life j).state ≠ .dead ∧ Q j).card

variable {k} {Q Q' : Slot → Prop} [DecidablePred Q] [DecidablePred Q']

theorem headcount_mono (h : ∀ j, (k'.life j).state ≠ .dead → Q' j →
    (k.life j).state ≠ .dead ∧ Q j) : k'.headcount Q' ≤ k.headcount Q := by
  refine Finset.card_le_card fun j hj => ?_
  obtain ⟨hd, hq⟩ := (Finset.mem_filter.mp hj).2
  exact Finset.mem_filter.mpr ⟨Finset.mem_univ j, h j hd hq⟩

/-- One process less. -/
theorem headcount_lt {v : Slot} (hv : (k.life v).state ≠ .dead ∧ Q v)
    (h : ∀ j, (k'.life j).state ≠ .dead → Q' j → j ≠ v ∧ (k.life j).state ≠ .dead ∧ Q j) :
    k'.headcount Q' + 1 ≤ k.headcount Q := by
  refine Finset.card_lt_card ⟨fun j hj => ?_, fun hsub => ?_⟩
  · obtain ⟨hd, hq⟩ := (Finset.mem_filter.mp hj).2
    exact Finset.mem_filter.mpr ⟨Finset.mem_univ j, (h j hd hq).2⟩
  · have hmem := (Finset.mem_filter.mp (hsub (Finset.mem_filter.mpr ⟨Finset.mem_univ v, hv⟩))).2
    exact (h v hmem.1 hmem.2).1 rfl

/-- At most one process more. -/
theorem headcount_le_succ {v : Slot}
    (h : ∀ j, j ≠ v → (k'.life j).state ≠ .dead → Q' j → (k.life j).state ≠ .dead ∧ Q j) :
    k'.headcount Q' ≤ k.headcount Q + 1 := by
  refine (Finset.card_le_card (t := insert v
    (Finset.univ.filter fun j => (k.life j).state ≠ .dead ∧ Q j)) fun j hj => ?_).trans
    (Finset.card_insert_le _ _)
  obtain ⟨hd, hq⟩ := (Finset.mem_filter.mp hj).2
  by_cases hjv : j = v
  · exact Finset.mem_insert.mpr (.inl hjv)
  · exact Finset.mem_insert_of_mem (Finset.mem_filter.mpr ⟨Finset.mem_univ j, h j hjv hd hq⟩)

theorem exists_of_headcount_pos (h : 0 < k.headcount Q) :
    ∃ j, (k.life j).state ≠ .dead ∧ Q j := by
  obtain ⟨j, hj⟩ := Finset.card_pos.mp h
  exact ⟨j, (Finset.mem_filter.mp hj).2⟩

/-- **A queue is no longer than the number of processes parked in it.** -/
theorem Parked.length_le (h : Parked k park) {i : Fin maxSemaphores}
    (hQ : ∀ j, (k.life j).state = .blocked → (k.life j).pid ∈ (k.semTable i).waiting.map Prod.fst →
      park j = some i → Q j) : (k.semTable i).waiting.length ≤ k.headcount Q := by
  have hsub : ((k.semTable i).waiting.map Prod.fst).toFinset ⊆
      (Finset.univ.filter fun j => (k.life j).state ≠ .dead ∧ Q j).image fun j => (k.life j).pid := by
    intro pid hpid
    obtain ⟨w, hw, rfl⟩ := List.mem_map.mp (List.mem_toFinset.mp hpid)
    obtain ⟨-, -, j, hj, hb, hpark⟩ := h.asleep i w hw
    refine Finset.mem_image.mpr ⟨j, Finset.mem_filter.mpr ⟨Finset.mem_univ j, ?_, ?_⟩, hj⟩
    · rw [hb]
      rintro ⟨⟩
    · exact hQ j hb (hj ▸ List.mem_map_of_mem hw) hpark
  calc (k.semTable i).waiting.length
      = ((k.semTable i).waiting.map Prod.fst).toFinset.card := by
        rw [List.toFinset_card_of_nodup (h.nodup i), List.length_map]
    _ ≤ _ := (Finset.card_le_card hsub).trans Finset.card_image_le

/-- While some process does not wait, no queue is full. -/
theorem Parked.room (h : Parked k park) {v : Slot} (hw : ¬ k.Waiting (k.life v).pid)
    (i : Fin maxSemaphores) : (k.semTable i).waiting.length < maxWaiting := by
  have hle := h.length_le (i := i) (Q := fun j => j ≠ v) fun j _ hmem _ => by
    rintro rfl
    obtain ⟨w, hwi, -⟩ := List.mem_map.mp hmem
    exact hw ⟨i, h.active_of_mem hwi, hmem⟩
  refine hle.trans_lt ?_
  have hlt : k.headcount (fun j => j ≠ v) < (Finset.univ : Finset Slot).card := by
    refine Finset.card_lt_card ⟨Finset.filter_subset _ _, fun hsub => ?_⟩
    exact (Finset.mem_filter.mp (hsub (Finset.mem_univ v))).2.2 rfl
  rw [Finset.card_univ, Fintype.card_fin] at hlt
  exact hlt

/-- A process that does not wait never finds the queue full. -/
theorem Parked.semWait_nonneg (h : Parked k park) (hw : ¬ k.Waiting k.sched.schedulerGetpid)
    {semId : Int} {i : Fin maxSemaphores} (hi : k.validSem semId = some i) :
    0 ≤ (k.semWait semId).2 := by
  have hcase := k.semWait_cases semId
  generalize k.semWait semId = r at hcase
  cases hcase with
  | refused hn => cases hi.symm.trans hn
  | takes _ _ _ => exact le_refl _
  | full m _ _ hlen =>
      have hroom := h.room hw m
      have hsub := ((List.filter_sublist (l := (k.semTable m).waiting)
        (p := fun w => decide (w.1 ≠ k.sched.schedulerGetpid)))).length_le
      unfold removePid at hlen
      omega
  | parks _ _ _ _ => exact Int.one_nonneg

end Headcount

end Kernel

end TP2Kernel
