/-
TP2Kernel/Parking.lean

The waiting queues and the processes in them.  A blocked waiter is nothing but
the state `BLOCKED` and an entry in one queue.  `Parked k park` says that the
two belong together: every entry is the pid of a blocked process, and `park`
names the one queue the process waits in.  Posts, closes, kills and the timer
keep this, because whoever they make ready is taken out of the queue first.

Two calls break it.  `scheduler_unblock` aimed at a waiter leaves its entry
behind, and a process that waits for the end of another is made ready without
a look at the queues; the results are for runs without them.
-/
import TP2Kernel.System
import TP2Kernel.Zombies

namespace TP2Kernel

theorem Releases.pid {k k' : Kernel} (h : Releases k k') (j : Slot) :
    (k'.life j).pid = (k.life j).pid :=
  h.wakes.field j (fun p => p.life.pid) fun _ => rfl

namespace Kernel

/-- Every waiting process is blocked, in the queue that `park` names, and once
only; semaphores out of use have no queue. -/
structure Parked (k : Kernel) (park : Slot → Option (Fin maxSemaphores)) : Prop where
  closed : ∀ i, (k.semTable i).active = false → (k.semTable i).waiting = []
  asleep : ∀ i, ∀ w ∈ (k.semTable i).waiting, 0 ≤ w.2 ∧ 0 < w.1 ∧
    ∃ j, (k.life j).pid = w.1 ∧ (k.life j).state = .blocked ∧ park j = some i
  nodup : ∀ i, ((k.semTable i).waiting.map Prod.fst).Nodup

namespace Parked

variable {k k' : Kernel} {park park' : Slot → Option (Fin maxSemaphores)}

theorem active_of_mem (h : Parked k park) {i : Fin maxSemaphores} {w : Int × Int}
    (hw : w ∈ (k.semTable i).waiting) : (k.semTable i).active = true := by
  by_contra hact
  rw [h.closed i (by simpa using hact)] at hw
  exact absurd hw List.not_mem_nil

theorem waiting_of_mem (h : Parked k park) {i : Fin maxSemaphores} {w : Int × Int}
    (hw : w ∈ (k.semTable i).waiting) : k.Waiting w.1 :=
  ⟨i, h.active_of_mem hw, List.mem_map_of_mem hw⟩

/-- A process that no queue names may be anywhere. -/
theorem frame (h : Parked k park) (ht : k'.semTable = k.semTable)
    (hl : ∀ j, (k.life j).state = .blocked → k.Waiting (k.life j).pid →
      (k'.life j).pid = (k.life j).pid ∧ (k'.life j).state = .blocked ∧ park' j = park j) :
    Parked k' park' := by
  refine ⟨?_, ?_, ?_⟩
  · rw [ht]
    exact h.closed
  · intro i w hw
    rw [ht] at hw
    obtain ⟨hc, hpos, j, hpid, hb, hpark⟩ := h.asleep i w hw
    obtain ⟨hpid', hb', hpark'⟩ := hl j hb (hpid ▸ h.waiting_of_mem hw)
    exact ⟨hc, hpos, j, hpid'.trans hpid, hb', hpark'.trans hpark⟩
  · rw [ht]
    exact h.nodup

/-- What is parked where matters only for the waiters. -/
theorem repark (h : Parked k park)
    (hp : ∀ j, (k.life j).state = .blocked → k.Waiting (k.life j).pid → park' j = park j) :
    Parked k park' :=
  h.frame rfl fun j hb hw => ⟨rfl, hb, hp j hb hw⟩

/-- A waiter is in the queue that `park` names. -/
theorem mem_of_waiting (h : Parked k park) (hd : k.Distinct) {j : Slot}
    (hw : k.Waiting (k.life j).pid) :
    ∃ i, park j = some i ∧ (k.life j).state = .blocked ∧
      (k.life j).pid ∈ (k.semTable i).waiting.map Prod.fst := by
  obtain ⟨i, -, hmem⟩ := hw
  obtain ⟨w, hw, hpid⟩ := List.mem_map.mp hmem
  obtain ⟨-, hpos, j', hpid', hb, hpark⟩ := h.asleep i w hw
  obtain rfl : j' = j := hd j' j (hpid'.trans hpid) (hpid' ▸ hpos)
  exact ⟨i, hpark, hb, hmem⟩

/-- A process that is parked nowhere does not wait. -/
theorem not_waiting (h : Parked k park) (hd : k.Distinct) {j : Slot} (hj : park j = none) :
    ¬ k.Waiting (k.life j).pid := by
  intro hw
  obtain ⟨i, hi, -⟩ := h.mem_of_waiting hd hw
  rw [hj] at hi
  cases hi

/-- Nor does one that is not blocked. -/
theorem not_waiting_of_state (h : Parked k park) (hd : k.Distinct) {j : Slot}
    (hj : (k.life j).state ≠ .blocked) : ¬ k.Waiting (k.life j).pid := by
  intro hw
  obtain ⟨-, -, hb, -⟩ := h.mem_of_waiting hd hw
  exact hj hb

end Parked

/-! ### Posting and closing -/

theorem mem_released {ws : List (Int × Int)} {b : Nat} {w : Int × Int} (h : w ∈ released ws b) :
    ∃ w₀ ∈ ws, w₀.1 = w.1 ∧ w₀.2 ≤ w.2 := by
  have hw := List.eraseIdx_subset h
  obtain ⟨n, hn, rfl⟩ := List.mem_iff_getElem.mp hw
  have hn' : n < ws.length := by simpa [ageWaitersExcept] using hn
  refine ⟨ws[n], List.getElem_mem hn', ?_⟩
  simp only [ageWaitersExcept, List.getElem_mapIdx]
  split
  · exact ⟨rfl, by simp only; omega⟩
  · exact ⟨rfl, le_refl _⟩

/-- The pid released is not in the queue that remains. -/
theorem not_mem_released {ws : List (Int × Int)} (hnd : (ws.map Prod.fst).Nodup) {b : Nat}
    (hb : b < ws.length) : (ws.getD b (0, 0)).1 ∉ (released ws b).map Prod.fst := by
  have hb' : b < (ws.map Prod.fst).length := by simpa using hb
  have hget : (ws.getD b (0, 0)).1 = (ws.map Prod.fst)[b] := by
    rw [List.getD_eq_getElem _ _ hb, List.getElem_map]
  rw [map_fst_released, hget, ← hnd.erase_getElem b hb']
  exact hnd.not_mem_erase

theorem Distinct.of_pid {k k' : Kernel} (h : k.Distinct)
    (hp : ∀ j, (k'.life j).pid = (k.life j).pid) : k'.Distinct := by
  intro i j hij hpos
  rw [hp, hp] at hij
  rw [hp] at hpos
  exact h i j hij hpos

/-- `scheduler_unblock` leaves the other processes alone. -/
theorem unblock_life {k : Kernel} {pid : Int} {j : Slot} (hj : (k.life j).pid ≠ pid) :
    (k.sched.schedulerUnblock pid).life j = k.life j := by
  rcases (k.sched.schedulerUnblock_wakes (S := fun p => p = pid) rfl).life j with h | ⟨-, hp, -⟩
  · exact h
  · exact absurd hp hj

namespace Parked

variable {k k' : Kernel} {park : Slot → Option (Fin maxSemaphores)}

/-- A change of one semaphore that keeps, shortens or empties its queue. -/
theorem modifySem (h : Parked k park) {i : Fin maxSemaphores} {f : Semaphore → Semaphore}
    (hact : (f (k.semTable i)).active = false → (f (k.semTable i)).waiting = [])
    (hmem : ∀ w ∈ (f (k.semTable i)).waiting, ∃ w₀ ∈ (k.semTable i).waiting,
      w₀.1 = w.1 ∧ w₀.2 ≤ w.2)
    (hnd : ((f (k.semTable i)).waiting.map Prod.fst).Nodup) : Parked (k.modifySem i f) park := by
  refine ⟨fun n => ?_, fun n w => ?_, fun n => ?_⟩
  · rw [modifySem_semTable]
    split
    · exact hact
    · exact h.closed n
  · rw [modifySem_semTable]
    split
    · rename_i hn
      intro hw
      obtain ⟨w₀, hw₀, hfst, hsnd⟩ := hmem w hw
      obtain ⟨hc, hpos, j, hj⟩ := h.asleep i w₀ hw₀
      rw [hn, ← hfst]
      exact ⟨by omega, hpos, j, hj⟩
    · exact h.asleep n w
  · rw [modifySem_semTable]
    split
    · exact hnd
    · exact h.nodup n

/-- Releasing a waiter takes its only entry out before it is made ready. -/
theorem grant (h : Parked k park) (hd : k.Distinct) {i : Fin maxSemaphores} {b : Nat}
    (hb : b < (k.semTable i).waiting.length) : Parked (k.grant i b) park := by
  have hmem : (k.semTable i).waiting.getD b (0, 0) ∈ (k.semTable i).waiting := by
    rw [List.getD_eq_getElem _ _ hb]
    exact List.getElem_mem hb
  have hout := not_mem_released (h.nodup i) hb
  have hq : Parked (k.modifySem i fun m => m.setWaiting (released m.waiting b)) park := by
    refine h.modifySem (fun hf => ?_) (fun w hw => mem_released hw) ?_
    · have hact := h.active_of_mem hmem
      have hf' : (k.semTable i).active = false := hf
      rw [hact] at hf'
      cases hf'
    · rw [Semaphore.setWaiting_waiting, map_fst_released]
      exact (h.nodup i).sublist (List.eraseIdx_sublist _ _)
  unfold Kernel.grant
  generalize (k.semTable i).waiting.getD b (0, 0) = w₀ at hmem hout ⊢
  obtain ⟨-, hpos, j₀, hpid₀, -, hpark₀⟩ := h.asleep i w₀ hmem
  refine hq.frame rfl fun j hbl hw => ?_
  have hne : (k.life j).pid ≠ w₀.1 := by
    intro hpid
    obtain rfl : j₀ = j := hd j₀ j (hpid₀.trans hpid.symm) (hpid₀ ▸ hpos)
    obtain ⟨n, hn, -, hin⟩ := hq.mem_of_waiting hd hw
    obtain rfl := Option.some.inj (hn.symm.trans hpark₀)
    rw [modifySem_self] at hin
    exact hout (hpid ▸ hin)
  have hl : (k.sched.schedulerUnblock w₀.1).life j = k.life j := unblock_life hne
  exact ⟨congrArg Life.pid hl, (congrArg Life.state hl).trans hbl, rfl⟩

/-- **Posts and closes keep the queues and the processes together.** -/
theorem release (h : Parked k park) (hd : k.Distinct) (hr : Release k k') : Parked k' park := by
  cases hr with
  | pipes hs ht =>
      refine h.frame ht fun j hb _ => ?_
      have hl : k'.life j = k.life j := by
        unfold life
        rw [hs]
      rw [hl]
      exact ⟨rfl, hb, rfl⟩
  | counts i hact hw =>
      refine h.modifySem (fun hf => ?_) (fun w hm => ?_) ?_
      · rcases hw with hw | hw
        · rw [hw]
          exact h.closed i (hact.symm.trans hf)
        · exact hw
      · rcases hw with hw | hw
        · rw [hw] at hm
          exact ⟨w, hm, rfl, le_refl _⟩
        · rw [hw] at hm
          exact absurd hm List.not_mem_nil
      · rcases hw with hw | hw
        · rw [hw]
          exact h.nodup i
        · rw [hw]
          exact List.nodup_nil
  | closes i _ hw =>
      refine h.modifySem (fun _ => hw) (fun w hm => ?_) ?_
      · rw [hw] at hm
        exact absurd hm List.not_mem_nil
      · rw [hw]
        exact List.nodup_nil
  | grants i b _ hb => exact h.grant hd hb

theorem releases (h : Parked k park) (hd : k.Distinct) (hr : Releases k k') : Parked k' park := by
  refine (hr.invariant (P := fun k' => Parked k' park ∧ k'.Distinct) ⟨h, hd⟩ ?_).1
  rintro k₁ k₂ ⟨h₁, hd₁⟩ hr₁
  exact ⟨h₁.release hd₁ hr₁, hd₁.of_pid (Releases.single hr₁).pid⟩

end Parked

/-! ### Waiting -/

variable {k : Kernel} {park : Slot → Option (Fin maxSemaphores)}

theorem getpid_eq (k : Kernel) : k.sched.schedulerGetpid = (k.life k.sched.currentIdx).pid := rfl

/-- A live process is found by its pid. -/
theorem Pids.find_current (hp : Pids k) (h0 : k.sched.currentIdx ≠ 0) :
    k.sched.findIndexByPid k.sched.schedulerGetpid = some k.sched.currentIdx :=
  hp.find_eq h0 hp.current

/-- The current process goes to the end of the queue of semaphore `i` and is blocked. -/
theorem Parked.sleeps (h : Parked k park) (hp : Pids k) (h0 : k.sched.currentIdx ≠ 0)
    (hw : ¬ k.Waiting k.sched.schedulerGetpid) {i : Fin maxSemaphores}
    (hact : (k.semTable i).active = true) :
    Parked { k.modifySem i (fun m => Semaphore.park m k.sched.schedulerGetpid) with
        sched := k.sched.schedulerBlock k.sched.schedulerGetpid }
      (Function.update park k.sched.currentIdx (some i)) := by
  have hfind := hp.find_current h0
  have hpos : 0 < k.sched.schedulerGetpid := (hp.live _ h0 hp.current).1
  generalize hpid : k.sched.schedulerGetpid = pid at hfind hpos hw
  have hlife : ∀ j, (k.sched.schedulerBlock pid).life j =
      if j = k.sched.currentIdx then (k.life j).setState .blocked else k.life j := by
    intro j
    rw [Sched.life_update (Sched.schedulerBlock_core _ hfind)]
    split
    · rename_i hj
      rw [hj]
      rfl
    · rfl
  have hcur : (k.life k.sched.currentIdx).pid = pid := hpid
  -- an old waiter stays where it is
  have hold : ∀ n, ∀ w ∈ (k.semTable n).waiting, 0 ≤ w.2 ∧ 0 < w.1 ∧
      ∃ j, ((k.sched.schedulerBlock pid).life j).pid = w.1 ∧
        ((k.sched.schedulerBlock pid).life j).state = .blocked ∧
        Function.update park k.sched.currentIdx (some i) j = some n := by
    intro n w hm
    obtain ⟨hc, hpos', j, hj, hb, hpark⟩ := h.asleep n w hm
    have hne : j ≠ k.sched.currentIdx := by
      rintro rfl
      rw [← hcur, hj] at hw
      exact hw (h.waiting_of_mem hm)
    refine ⟨hc, hpos', j, ?_⟩
    rw [hlife, if_neg hne, Function.update_of_ne hne]
    exact ⟨hj, hb, hpark⟩
  have hself : ((k.sched.schedulerBlock pid).life k.sched.currentIdx).pid = pid ∧
      ((k.sched.schedulerBlock pid).life k.sched.currentIdx).state = .blocked ∧
      Function.update park k.sched.currentIdx (some i) k.sched.currentIdx = some i := by
    rw [hlife, if_pos rfl, Function.update_self]
    exact ⟨hcur, rfl, rfl⟩
  refine ⟨fun n => ?_, fun n w => ?_, fun n => ?_⟩
  · simp only
    rw [modifySem_semTable]
    split
    · intro hf
      have hf' : (k.semTable i).active = false := hf
      rw [hact] at hf'
      cases hf'
    · exact h.closed n
  · simp only
    rw [modifySem_semTable]
    split
    · rename_i hn
      intro hm
      rcases List.mem_append.mp hm with hm | hm
      · rw [hn]
        exact hold i w (List.mem_of_mem_filter hm)
      · obtain rfl := List.mem_singleton.mp hm
        rw [hn]
        exact ⟨le_refl _, hpos, k.sched.currentIdx, hself⟩
    · exact hold n w
  · simp only
    rw [modifySem_semTable]
    split
    · exact nodup_removePid_concat (h.nodup i) pid 0
    · exact h.nodup n

/-- **`sem_wait`** of a process that waits nowhere: if it blocks, it is parked
in the queue of the semaphore. -/
theorem semWait_parked (h : Parked k park) (hp : Pids k) (h0 : k.sched.currentIdx ≠ 0)
    (hw : ¬ k.Waiting k.sched.schedulerGetpid) (semId : Int) :
    Parked (k.semWait semId).1
      (if (k.semWait semId).2 = 1 then
        Function.update park k.sched.currentIdx (index? maxSemaphores semId)
       else park) := by
  have hcase := k.semWait_cases semId
  generalize k.semWait semId = r at hcase
  cases hcase with
  | refused _ => exact h
  | takes i _ _ =>
      have htake : Parked (k.modifySem i fun m => m.addValue (-1)) park :=
        h.release hp.distinct (.counts i rfl (.inl rfl))
      exact htake
  | full i hi hv hlen =>
      refine h.modifySem (f := fun m => m.setWaiting (removePid m.waiting k.sched.schedulerGetpid))
        (fun hf => ?_) (fun w hm => ⟨w, List.mem_of_mem_filter hm, rfl, le_refl _⟩) ?_
      · have hact := (k.validSem_some hi).1
        have hf' : (k.semTable i).active = false := hf
        rw [hact] at hf'
        cases hf'
      · exact (h.nodup i).sublist (removePid_sublist _ _)
  | parks i hi hv hlen =>
      obtain ⟨hact, hid⟩ := k.validSem_some hi
      have hidx : index? maxSemaphores semId = some i := by
        rw [hid]
        exact index?_natCast i
      rw [if_pos rfl, hidx]
      exact h.sleeps hp h0 hw hact

/-! ### Killing and exiting -/

/-- No blocked process waits for the end of `pid`. -/
def Unawaited (k : Kernel) (pid : Int) : Prop :=
  ∀ j, (k.life j).state = .blocked → (k.life j).waitingFor ≠ pid

theorem semRemoveWaitingPid_parked (h : Parked k park) (pid : Int) :
    Parked (k.semRemoveWaitingPid pid) park := by
  have hsub : ∀ i, ((k.semRemoveWaitingPid pid).semTable i).waiting.Sublist
      (k.semTable i).waiting := by
    intro i
    simp only [semRemoveWaitingPid]
    split
    · exact List.filter_sublist
    · exact List.Sublist.refl _
  refine ⟨fun i hact => ?_, fun i w hw => h.asleep i w ((hsub i).subset hw), fun i =>
    (h.nodup i).sublist ((hsub i).map _)⟩
  have hact' : (k.semTable i).active = false := by
    simp only [semRemoveWaitingPid] at hact
    split at hact
    · exact hact
    · exact hact
  exact List.sublist_nil.mp ((h.closed i hact') ▸ hsub i)

theorem closeProcessFds_parked (h : Parked k park) (hd : k.Distinct) (i : Slot) :
    Parked (k.closeProcessFds i) park := by
  refine (closeProcessFds_invariant (P := fun k' => Parked k' park ∧ k'.Distinct) ⟨h, hd⟩ ?_ ?_).1
  · rintro k₁ k₂ ⟨h₁, hd₁⟩ hr
    exact ⟨h₁.releases hd₁ hr, hd₁.of_pid hr.pid⟩
  · rintro k₁ fd d ⟨h₁, hd₁⟩
    have hl : (k₁.onSched fun s => s.modify i (setFd fd d)).life = k₁.life :=
      k₁.sched.modify_life i (f := setFd fd d) fun _ => rfl
    refine ⟨h₁.frame rfl fun j hb _ => ?_, hd₁.of_pid fun j => ?_⟩
    · rw [hl]
      exact ⟨rfl, hb, rfl⟩
    · rw [hl]

/-- The end of a process that waits nowhere and for which nobody waits. -/
theorem Parked.ends {k' : Kernel} (h : Parked k park) (ht : k'.semTable = k.semTable) {v : Slot}
    (hv : ¬ k.Waiting (k.life v).pid) {pid : Int} {l : Life}
    (hl : ∀ j, k'.life j = (if j = v then l else k.life j).woken pid j)
    (hq : k.Unawaited pid) : Parked k' park := by
  refine h.frame ht fun j hb hw => ?_
  have hj : j ≠ v := by
    rintro rfl
    exact hv hw
  rw [hl, if_neg hj]
  have hsame : (k.life j).woken pid j = k.life j := if_neg fun hwoken => hq j hb hwoken.2
  rw [hsame]
  exact ⟨rfl, hb, rfl⟩

/-- Closing descriptors makes nobody wait for the end of a process. -/
theorem closeProcessFds_unawaited {pid : Int} (h : k.Unawaited pid) (i : Slot) :
    (k.closeProcessFds i).Unawaited pid := by
  intro j hb
  rcases k.closeProcessFds_life i j with hl | ⟨-, -, hl⟩
  · rw [hl] at hb ⊢
    exact h j hb
  · rw [hl] at hb
    cases hb

theorem closeProcessFds_pid (k : Kernel) (i j : Slot) :
    ((k.closeProcessFds i).life j).pid = (k.life j).pid := by
  rcases k.closeProcessFds_life i j with hl | ⟨-, -, hl⟩
  · rw [hl]
  · rw [hl]
    rfl

theorem closeProcessFds_shrink (k : Kernel) (i : Slot) (pid : Int)
    (h : (k.closeProcessFds i).Waiting pid) : k.Waiting pid :=
  closeProcessFds_invariant (P := fun k' => k'.Waiting pid → k.Waiting pid) id
    (fun _ _ h hr hw => h (hr.shrink pid hw)) (fun _ _ _ h hw => h hw) h

theorem schedulerExitCurrent_parked (h : Parked k park) (hd : k.Distinct)
    (h0 : k.sched.currentIdx ≠ 0) (hw : ¬ k.Waiting (k.life k.sched.currentIdx).pid)
    (hq : k.Unawaited (k.life k.sched.currentIdx).pid) (status : Int) :
    Parked (k.schedulerExitCurrent status) park := by
  simp only [schedulerExitCurrent, if_neg h0]
  generalize k.sched.currentIdx = cur at hw hq ⊢
  have hprep := k.exitPrep_life cur status
  have hpid : ∀ j, ((k.exitPrep cur status).life j).pid = (k.life j).pid := by
    intro j
    rw [hprep]
    split
    · rename_i hj
      rw [hj]
    · rfl
  have hst : ∀ j, ((k.exitPrep cur status).life j).state = (k.life j).state := by
    intro j
    rw [hprep]
    split
    · rename_i hj
      rw [hj]
    · rfl
  have h1 : Parked (k.exitPrep cur status) park :=
    h.frame rfl fun j hb _ => ⟨hpid j, (hst j).trans hb, rfl⟩
  have hq1 : (k.exitPrep cur status).Unawaited (k.life cur).pid := by
    intro j hb
    rw [hst] at hb
    have hwf : ((k.exitPrep cur status).life j).waitingFor = (k.life j).waitingFor := by
      rw [hprep]
      split
      · rename_i hj
        rw [hj]
      · rfl
    rw [hwf]
    exact hq j hb
  have h2 := closeProcessFds_parked h1 (hd.of_pid hpid) cur
  have hw2 : ¬ ((k.exitPrep cur status).closeProcessFds cur).Waiting
      (((k.exitPrep cur status).closeProcessFds cur).life cur).pid := by
    rw [closeProcessFds_pid, hpid]
    exact fun hw' => hw ((k.exitPrep cur status).closeProcessFds_shrink cur _ hw')
  have hq2 := closeProcessFds_unawaited hq1 cur
  generalize (k.exitPrep cur status).closeProcessFds cur = k₂ at h2 hw2 hq2 ⊢
  have hl : ∀ hand j, (k₂.onSched fun s => leave s cur (k.life cur).pid hand).life j =
      (if j = cur then (k₂.life cur).setState .zombie else k₂.life j).woken (k.life cur).pid j := by
    intro hand j
    rw [onSched_life, leave_life]
    rfl
  exact h2.ends (onSched_semTable _ _) hw2 (hl _) hq2

theorem killOther_parked (h : Parked k park) (hd : k.Distinct) {i : Slot} {pid : Int}
    (hi : (k.life i).pid = pid) (hq : k.Unawaited pid) : Parked (k.killOther i pid) park := by
  have hprep := k.killPrep_life i pid
  have h1 : Parked (k.killPrep i pid) park := by
    refine (semRemoveWaitingPid_parked h pid).frame rfl fun j hb _ => ?_
    rw [hprep]
    exact ⟨rfl, hb, rfl⟩
  have hq1 : (k.killPrep i pid).Unawaited pid := by
    unfold Unawaited
    rw [hprep]
    exact hq
  have hd1 : (k.killPrep i pid).Distinct := hd.of_pid fun j => by rw [hprep]
  have hw2 : ¬ ((k.killPrep i pid).closeProcessFds i).Waiting
      (((k.killPrep i pid).closeProcessFds i).life i).pid := by
    rw [closeProcessFds_pid, hprep, hi]
    intro hw
    have hw' : (k.semRemoveWaitingPid pid).Waiting pid :=
      (k.killPrep i pid).closeProcessFds_shrink i _ hw
    exact ((waiting_semRemoveWaitingPid _ _ _).mp hw').2 rfl
  have h2 := closeProcessFds_parked h1 hd1 i
  have hq2 := closeProcessFds_unawaited hq1 i
  unfold killOther
  generalize (k.killPrep i pid).closeProcessFds i = k₂ at h2 hw2 hq2 ⊢
  have hl : ∀ j, (k₂.onSched fun s => bury s i pid).life j =
      (if j = i then (k₂.life i).killed k₂.sched.idleStack else k₂.life j).woken pid j := by
    intro j
    rw [onSched_life, bury_life]
    rfl
  exact h2.ends (onSched_semTable _ _) hw2 hl hq2

/-! ### Runs without `scheduler_wait` -/

/-- No live process waits for the end of another. -/
def Quiet (k : Kernel) : Prop := ∀ j, (k.life j).state ≠ .dead → (k.life j).waitingFor = -1

theorem Quiet.unawaited (h : k.Quiet) {pid : Int} (hpid : 0 < pid) : k.Unawaited pid := by
  intro j hb
  rw [h j (by rw [hb]; decide)]
  omega

theorem exec_quiet (h : k.Quiet) (hs : Sound k) {op : Op} (hop : ∀ pid, op ≠ .wait pid) :
    (k.exec op).Quiet := by
  intro j hd
  have hkeep : ∀ st : ProcState, (k.life j).state ≠ .dead →
      ((k.life j).setState st).waitingFor = -1 := fun _ hlive => h j hlive
  have hstep := k.exec_lifeStep hs.ordered op j
  generalize (k.exec op).life j = l at hstep hd ⊢
  cases hstep with
  | keeps => exact h j hd
  | creates _ _ _ => rfl
  | renices hj _ => exact h j (Sched.findIndexByPid_some hj).2
  | wakes hb _ => exact hkeep _ (by rw [hb]; decide)
  | releases ht hb hw =>
      unfold Life.woken
      rw [if_pos ⟨hb, hw⟩]
  | blocks hj => exact hkeep _ (Sched.findIndexByPid_some hj).2
  | parks _ hj => exact hkeep _ (Sched.findIndexByPid_some hj).2
  | waits _ _ _ _ => exact absurd rfl (hop _)
  | reaps _ _ _ _ => exact absurd rfl (hop _)
  | ends _ _ => exact h _ hs.pids.current
  | kills _ _ => rfl
  | preempts hrun => exact hkeep _ (by rw [hrun]; decide)
  | dispatches hj =>
      refine hkeep _ ?_
      rcases hj with rfl | hj
      · exact hs.pids.idle.2.1
      · exact hj.1

/-- A call that posts nothing leaves a waiter blocked, unless it unblocks it;
the timer is another matter. -/
theorem LifeStep.waiter {op : Op} {j : Slot} {l : Life} (h : k.LifeStep op j l)
    (hb : (k.life j).state = .blocked) (hpost : ¬ Posts op) (hun : op ≠ .unblock (k.life j).pid)
    (htick : ∀ rsp, op ≠ .tick rsp) : l.pid = (k.life j).pid ∧ l.state = .blocked := by
  cases h with
  | keeps => exact ⟨rfl, hb⟩
  | creates hj _ _ => cases hb.symm.trans (Sched.findFreeSlot_some hj).2
  | renices => exact ⟨rfl, hb⟩
  | wakes _ hw => exact hw.elim (fun h => absurd h.1 hpost) fun h => absurd h hun
  | releases ht _ _ => exact absurd (k.posts_of_target ht) hpost
  | blocks _ => exact ⟨rfl, rfl⟩
  | parks _ _ => exact ⟨rfl, rfl⟩
  | waits _ _ _ _ => exact ⟨rfl, rfl⟩
  | reaps _ _ _ hz => cases hb.symm.trans hz
  | ends ht _ => exact absurd (k.posts_of_target ht) hpost
  | kills ht _ => exact absurd (k.posts_of_target ht) hpost
  | preempts hrun => cases hb.symm.trans hrun
  | dispatches _ => exact absurd rfl (htick _)

/-- No priority is negative. -/
def Ranked (k : Kernel) : Prop := ∀ j, 0 ≤ (k.life j).priority

theorem exec_ranked (hs : Sound k) (hr : k.Ranked) (op : Op) : (k.exec op).Ranked :=
  fun j => (k.exec_lifeStep hs.ordered op j).priority (hr j)

/-- What holds between the steps of a run without `scheduler_wait`. -/
structure Strict (k : Kernel) : Prop where
  sound : Sound k
  strict : Ordered (fun _ => True) (fun _ => False) k.sched
  quiet : k.Quiet
  ranked : k.Ranked

theorem init_strict (idleStack : Nat) : Strict (init idleStack) := by
  refine ⟨init_sound idleStack, init_ordered idleStack, fun j hd => ?_, fun j => ?_⟩
  · unfold life at hd ⊢
    simp only [init, Sched.life, Sched.core, Sched.schedulerInit] at hd ⊢
    split
    · rfl
    · rename_i h0
      rw [if_neg h0] at hd
      exact absurd rfl hd
  · unfold life
    simp only [init, Sched.life, Sched.core, Sched.schedulerInit]
    split
    · exact (by decide : (0 : Int) ≤ 1)
    · exact le_refl (0 : Int)

theorem exec_strict (h : Strict k) (op : Op) (hop : ∀ pid, op ≠ .wait pid) : Strict (k.exec op) :=
  ⟨exec_sound h.sound op, exec_ordered h.strict fun pid e => absurd e (hop pid), exec_quiet h.quiet h.sound hop,
    exec_ranked h.sound h.ranked op⟩

theorem Strict.distinct (h : Strict k) : k.Distinct := h.sound.pids.distinct

/-- The timer runs no blocked process. -/
theorem tick_parked (h : Parked k park) (hs : Strict k) (rsp : Nat) :
    Parked (k.exec (.tick rsp)) park := by
  refine h.frame rfl fun j hb hw => ?_
  obtain ⟨i, -, -, hmem⟩ := h.mem_of_waiting hs.distinct hw
  obtain ⟨w, hw', hpid⟩ := List.mem_map.mp hmem
  have hpos := (h.asleep i w hw').2.1
  have h0 : j ≠ 0 := by
    rintro rfl
    have := hs.sound.pids.idle.1
    omega
  have hlife : (k.exec (.tick rsp)).life j = k.life j :=
    k.tick_asleep hs.strict rsp h0 trivial fun ha => ha.ne_blocked hb
  rw [hlife]
  exact ⟨rfl, hb, rfl⟩

theorem semOpen_parked (h : Parked k park) (hd : k.Distinct) (name : List UInt8) (v : Int) :
    Parked (k.semOpen name v).1 park := by
  simp only [semOpen]
  split
  · rename_i i _
    have hcount : Parked (k.modifySem i fun s => { s with refCount := s.refCount + 1 }) park :=
      h.release hd (.counts i rfl (.inl rfl))
    exact hcount
  · split
    · exact h
    · rename_i i _
      exact h.modifySem (f := fun _ => ⟨name, v, [], true, 1⟩) (fun hf => by cases hf)
        (fun w hm => absurd hm List.not_mem_nil) List.nodup_nil

theorem Parked.of_tables {k' : Kernel} (h : Parked k park) (hs : k'.sched = k.sched)
    (ht : k'.semTable = k.semTable) : Parked k' park := by
  refine h.frame ht fun j hb _ => ?_
  have hl : k'.life j = k.life j := by
    unfold life
    rw [hs]
  rw [hl]
  exact ⟨rfl, hb, rfl⟩

theorem semOpen_distinct (hd : k.Distinct) (name : List UInt8) (v : Int) :
    (k.semOpen name v).1.Distinct :=
  hd.of_pid fun j => congrArg (fun s : Sched => (s.life j).pid) (k.semOpen_sched name v)

theorem pipeInitSems_parked (h : Parked k park) (hd : k.Distinct) (p : Fin maxPipes) :
    Parked (k.pipeInitSems p) park := by
  have h1 := semOpen_parked h hd [100, 48 + UInt8.ofNat p.val] 0
  have hd1 := semOpen_distinct hd [100, 48 + UInt8.ofNat p.val] 0
  simp only [pipeInitSems]
  generalize k.semOpen [100, 48 + UInt8.ofNat p.val] 0 = r at h1 hd1 ⊢
  have h2 : Parked { r.1 with pipeSemData := Function.update r.1.pipeSemData p r.2 } park :=
    h1.of_tables rfl rfl
  exact (semOpen_parked h2 hd1 [115, 48 + UInt8.ofNat p.val] 0).of_tables rfl rfl

theorem pipeOpenWithCapacity_parked (h : Parked k park) (hd : k.Distinct) (c : Int) :
    Parked (k.pipeOpenWithCapacity c).1 park := by
  simp only [pipeOpenWithCapacity]
  split
  · exact h
  · split
    · exact h
    · refine pipeInitSems_parked ?_ ?_ _
      · exact h.of_tables rfl rfl
      · exact hd

theorem schedulerKill_parked (h : Parked k park) (hs : Strict k) {pid : Int}
    (hown : k.sched.findIndexByPid pid = some k.sched.currentIdx →
      ¬ k.Waiting (k.life k.sched.currentIdx).pid) : Parked (k.schedulerKill pid).1 park := by
  have hd := hs.sound.pids.distinct
  simp only [schedulerKill]
  split
  · exact h
  · rename_i hpid
    split
    · exact h
    · rename_i i hi
      have hpi : (k.life i).pid = pid := (Sched.findIndexByPid_some hi).1
      have hq : k.Unawaited pid := hs.quiet.unawaited (by omega)
      split
      · rename_i hcur
        have h0 : k.sched.currentIdx ≠ 0 := by
          intro e
          rw [hcur, e, hs.sound.pids.idle.1] at hpi
          omega
        refine schedulerExitCurrent_parked h hd h0 (hown (hi.trans (congrArg some hcur))) ?_ _
        rw [← hcur, hpi]
        exact hq
      · exact killOther_parked h hd hpi hq

theorem syscallPipeSetFd_parked (h : Parked k park) (hd : k.Distinct) (pid : Int) (fd : Nat)
    (pipeId : Int) (w : Bool) : Parked (k.syscallPipeSetFd pid fd pipeId w).1 park := by
  refine syscallPipeSetFd_invariant (P := fun k' => Parked k' park) h
    (fun k' i n d hrel => ?_) _ _ _ _
  refine (h.releases hd hrel).frame rfl fun j hb _ => ?_
  rw [onSched_life, Sched.modify_life _ i (f := setFd n _) fun _ => rfl]
  exact ⟨rfl, hb, rfl⟩

/-- A step of `pipe_read` or `pipe_write` that does not block. -/
theorem StepCases.parked {α : Type} {p : Fin maxPipes} {own other : Int} {move : Pipe → Pipe}
    {dry shut live : Prop} {fl bl ag sp dn : α} {r : Kernel × α}
    (hr : k.StepCases p own other move dry shut live fl bl ag sp dn r)
    (h : Parked k park) (hs : Strict k) (hcur : k.sched.currentIdx ≠ 0)
    (hw : ¬ k.Waiting (k.life k.sched.currentIdx).pid) (hb : r.2 ≠ bl) : Parked r.1 park := by
  cases hr with
  | waits _ =>
      have hp := semWait_parked h hs.sound.pids hcur hw own
      have h1 : ¬ (k.semWait own).2 = 1 := fun e => hb (by simp [waitSem, e])
      rwa [if_neg h1] at hp
  | stops _ => exact h
  | moves _ =>
      exact h.releases hs.distinct ((k.modifyPipe_releases p _).trans (semPost_releases _ _))

/-- The pieces that keep the queues and the processes together. -/
def Orderly (k : Kernel) : Op → Prop
  | .wait _ | .killForeground => False
  | .unblock pid => ¬ k.Waiting pid
  | _ => True

instance (k : Kernel) : DecidablePred k.Orderly := fun op => by
  induction op using Op.casesOn <;> dsimp only [Orderly] <;> infer_instance

/-- **A piece that parks its caller** puts it into the queue of its
semaphore. -/
theorem parks_parked (h : Parked k park) (hs : Strict k) {op : Op} (hpark : k.Parks op)
    (hcur : k.sched.currentIdx ≠ 0) (hw : ¬ k.Waiting (k.life k.sched.currentIdx).pid) :
    Parked (k.exec op)
      (Function.update park k.sched.currentIdx (index? maxSemaphores (k.parkSem op))) := by
  have hp := semWait_parked h hs.sound.pids hcur hw (k.parkSem op)
  rwa [if_pos hpark.semWait.2, ← hpark.semWait.1] at hp

/-- The pieces that wait for or end their caller. -/
def Acts (k : Kernel) : Op → Prop
  | .semWait _ | .pipeRead _ | .pipeWrite _ _ | .exit _ => True
  | .kill pid => k.sched.findIndexByPid pid = some k.sched.currentIdx
  | _ => False

/-- **Every orderly piece that parks nobody keeps the queues and the processes
together**; one that ends its caller has to come from a process that waits
nowhere. -/
theorem exec_parked (h : Parked k park) (hs : Strict k) {op : Op} (hop : k.Orderly op)
    (hpark : ¬ k.Parks op)
    (hown : k.Acts op → k.sched.currentIdx ≠ 0 ∧ ¬ k.Waiting (k.life k.sched.currentIdx).pid) :
    Parked (k.exec op) park := by
  have hd := hs.sound.pids.distinct
  have hkeep : ∀ {op : Op}, (k.exec op).semTable = k.semTable → ¬ Posts op →
      (∀ pid, k.Waiting pid → op ≠ .unblock pid) → (∀ rsp, op ≠ .tick rsp) →
      Parked (k.exec op) park := by
    intro op ht hpost hun htick
    refine h.frame ht fun j hb hwj => ?_
    have hl := (k.exec_lifeStep hs.sound.ordered op j).waiter hb hpost (hun _ hwj) htick
    exact ⟨hl.1, hl.2, rfl⟩
  cases op with
  | create name priority fg stack =>
      exact hkeep rfl id (fun _ _ e => by cases e) fun _ e => by cases e
  | kill pid => exact schedulerKill_parked h hs fun he => (hown he).2
  | killForeground => exact absurd hop id
  | block pid => exact hkeep rfl id (fun _ _ e => by cases e) fun _ e => by cases e
  | unblock pid =>
      refine hkeep rfl id (fun pid' hw' e => ?_) fun _ e => by cases e
      obtain rfl := Op.unblock.inj e
      exact hop hw'
  | nice pid pr => exact hkeep rfl id (fun _ _ e => by cases e) fun _ e => by cases e
  | wait pid => exact absurd hop id
  | exit status =>
      obtain ⟨hcur, hw⟩ := hown trivial
      have hpos := (hs.sound.pids.live _ hcur hs.sound.pids.current).1
      exact schedulerExitCurrent_parked h hd hcur hw (hs.quiet.unawaited hpos) status
  | yield => exact hkeep rfl id (fun _ _ e => by cases e) fun _ e => by cases e
  | tick rsp => exact tick_parked h hs rsp
  | semOpen name v => exact semOpen_parked h hd name v
  | semWait semId =>
      obtain ⟨hcur, hw⟩ := hown trivial
      have hp := semWait_parked h hs.sound.pids hcur hw semId
      have h1 : ¬ (k.semWait semId).2 = 1 := hpark
      rwa [if_neg h1] at hp
  | semPost | semPostAll | semClose | pipeClose => exact h.releases hd (k.exec_releases _ trivial)
  | pipeOpen c => exact pipeOpenWithCapacity_parked h hd c
  | pipeSetFd pid fd pipeId w => exact syscallPipeSetFd_parked h hd pid fd pipeId w
  | pipeRead p =>
      exact (k.pipeReadStep_cases p).parked h hs (hown trivial).1 (hown trivial).2 hpark
  | pipeWrite p c =>
      exact (k.pipeWriteStep_cases p c).parked h hs (hown trivial).1 (hown trivial).2 hpark

end Kernel

/-! ### The system -/

namespace Sys

variable {σ : Sys}

/-- Where the processes are parked. -/
def park (σ : Sys) (j : Slot) : Option (Fin maxSemaphores) := (σ.cont j).park

/-- The step runs an orderly piece of kernel code, or none. -/
def Orderly (σ : Sys) (l : Label) : Prop := ∀ op, σ.opOf l = some op → σ.kernel.Orderly op

instance (σ : Sys) (l : Label) : Decidable (σ.Orderly l) :=
  decidable_of_iff (∀ op ∈ σ.opOf l, σ.kernel.Orderly op) Iff.rfl

/-- What orderly steps keep. -/
structure Disciplined (σ : Sys) : Prop where
  strict : σ.kernel.Strict
  parked : σ.kernel.Parked σ.park

theorem boot_strict (idleStack stack : Nat) : (boot idleStack stack).Strict := by
  refine Kernel.exec_strict (Kernel.init_strict idleStack) _ ?_
  exact fun _ => by rintro ⟨⟩

theorem init_disciplined (idleStack stack : Nat) : (init idleStack stack).Disciplined :=
  ⟨boot_strict idleStack stack, fun _ _ => rfl, fun _ _ hw => absurd hw List.not_mem_nil,
    fun _ => List.nodup_nil⟩

theorem goto_park (σ : Sys) (c : Cont) : (σ.goto c).park = Function.update σ.park σ.cur c.park := by
  funext j
  unfold park
  rw [goto_cont]
  by_cases hj : j = σ.cur
  · rw [hj, Function.update_self, Function.update_self]
  · rw [Function.update_of_ne hj, Function.update_of_ne hj]

theorem exec_cur (σ : Sys) {op : Kernel.Op} (htick : ∀ rsp, op ≠ .tick rsp) :
    (σ.exec op).cur = σ.cur := by
  cases op with
  | create name pr fg stack => exact (σ.kernel.create_frame name pr fg stack).1
  | tick rsp => exact absurd rfl (htick rsp)
  | _ => exact (σ.kernel.exec_frame htick fun _ _ _ _ e => by cases e).1

theorem exec_goto_cont (σ : Sys) {op : Kernel.Op} (htick : ∀ rsp, op ≠ .tick rsp) :
    (σ.exec op).goto (σ.cont σ.cur) = σ.exec op := by
  unfold goto
  rw [σ.exec_cur htick, exec_cont, Function.update_eq_self]
  rfl

namespace Disciplined

theorem tick (h : σ.Disciplined) (rsp : Nat) : (σ.exec (.tick rsp)).Disciplined :=
  ⟨Kernel.exec_strict h.strict (.tick rsp) fun _ => by rintro ⟨⟩,
    Kernel.tick_parked h.parked h.strict rsp⟩

/-- A process that does not wait may be anywhere. -/
theorem goto (h : σ.Disciplined) (hw : ¬ σ.kernel.Waiting (σ.kernel.life σ.cur).pid) (c : Cont) :
    (σ.goto c).Disciplined := by
  refine ⟨h.strict, h.parked.repark fun j _ hj => ?_⟩
  rw [goto_park]
  refine Function.update_of_ne ?_ _ _
  rintro rfl
  exact hw hj

theorem record (h : σ.Disciplined) (es : List Event) : (σ.record es).Disciplined :=
  ⟨h.strict, h.parked⟩

theorem arrive (h : σ.Disciplined) (hrun : (σ.kernel.life σ.cur).state = .running) :
    σ.arrive.Disciplined := by
  unfold Sys.arrive
  split
  · refine (h.goto ?_ .user).record _
    refine h.parked.not_waiting_of_state h.strict.distinct ?_
    rw [hrun]
    rintro ⟨⟩
  · exact h

/-- **A piece of kernel code run by a process that does not wait**: where the
process stands afterwards is right if it is parked where it waits now. -/
theorem act (h : σ.Disciplined) (op : Kernel.Op) (hop : σ.kernel.Orderly op)
    (htick : ∀ rsp, op ≠ .tick rsp) (h0 : σ.cur ≠ 0)
    (hw : ¬ σ.kernel.Waiting (σ.kernel.life σ.cur).pid) {c : Cont}
    (hc : σ.kernel.Parks op → c.park = index? maxSemaphores (σ.kernel.parkSem op)) :
    ((σ.exec op).goto c).Disciplined := by
  have hstrict : (σ.kernel.exec op).Strict := by
    refine Kernel.exec_strict h.strict op fun pid e => ?_
    rw [e] at hop
    exact hop
  by_cases hp : σ.kernel.Parks op
  · refine ⟨hstrict, ?_⟩
    rw [goto_park, σ.exec_cur htick, hc hp]
    exact Kernel.parks_parked h.parked h.strict hp h0 hw
  · -- with the process parked nowhere, it does not wait afterwards
    have hnone : σ.kernel.Parked (Function.update σ.park σ.cur none) := by
      refine h.parked.repark fun j _ hj => Function.update_of_ne ?_ _ _
      rintro rfl
      exact hw hj
    have hk := Kernel.exec_parked hnone h.strict hop hp fun _ => ⟨h0, hw⟩
    have hout : ¬ (σ.kernel.exec op).Waiting ((σ.kernel.exec op).life σ.cur).pid :=
      hk.not_waiting hstrict.distinct (Function.update_self _ _ _)
    refine ⟨hstrict, hk.repark fun j _ hj => ?_⟩
    have hne : j ≠ σ.cur := by
      rintro rfl
      exact hout hj
    rw [goto_park, σ.exec_cur htick, Function.update_of_ne hne, Function.update_of_ne hne]
    rfl

theorem vacate (h : σ.Disciplined) : σ.vacate.Disciplined := by
  refine ⟨h.strict, h.parked.repark fun j hb _ => ?_⟩
  have hlive : ¬ (σ.kernel.proc j).state = .dead := fun hd => by cases hb.symm.trans hd
  show Cont.park (if _ then _ else _) = _
  rw [if_neg hlive]
  rfl

/-- A piece of kernel code that leaves the process where it is. -/
theorem stay (h : σ.Disciplined) {op : Kernel.Op} (hop : σ.kernel.Orderly op)
    (htick : ∀ rsp, op ≠ .tick rsp) (h0 : σ.cur ≠ 0)
    (hw : ¬ σ.kernel.Waiting (σ.kernel.life σ.cur).pid) (hp : ¬ σ.kernel.Parks op) :
    (σ.exec op).Disciplined := by
  rw [← σ.exec_goto_cont htick]
  exact h.act op hop htick h0 hw fun hp' => absurd hp' hp

/-- A process in user mode does not wait. -/
theorem idle_of_user (h : σ.Disciplined) (hu : σ.cont σ.cur = .user) :
    ¬ σ.kernel.Waiting (σ.kernel.life σ.cur).pid := by
  refine h.parked.not_waiting h.strict.distinct ?_
  unfold park
  rw [hu]
  rfl

/-- Nor does one whose call goes on. -/
theorem idle_of_resume (h : σ.Disciplined) (hr : (σ.cont σ.cur).Resumes)
    (hs : (σ.cont σ.cur).Halts → (σ.kernel.proc σ.cur).state ≠ .blocked) :
    ¬ σ.kernel.Waiting (σ.kernel.life σ.cur).pid := by
  by_cases hh : (σ.cont σ.cur).Halts
  · exact h.parked.not_waiting_of_state h.strict.distinct (hs hh)
  · refine h.parked.not_waiting h.strict.distinct ?_
    unfold park
    rcases hc : σ.cont σ.cur with - | i | pid | ⟨p, count, got, asleep⟩ | ⟨p, buf, n, asleep⟩
    · rfl
    · rw [hc] at hr
      cases hr
    · rfl
    · rw [hc] at hh
      simpa [Cont.Halts, Cont.park] using hh
    · rw [hc] at hh
      simpa [Cont.Halts, Cont.park] using hh

end Disciplined

theorem call_disciplined (h : σ.Disciplined) {op : Kernel.Op} (hop : σ.kernel.Orderly op)
    (hu : σ.InUser) (hnow : op.AtOnce = true) : (σ.call op).Disciplined := by
  have hcur : σ.vacate.cont σ.vacate.cur = .user := by
    show (if _ then _ else _) = _
    split
    · rfl
    · exact hu.2
  refine (h.vacate.stay hop (fun rsp e => ?_) hu.1 (h.vacate.idle_of_user hcur) ?_).record _
  · rw [e] at hnow
    cases hnow
  · cases op with
    | semWait _ => cases hnow
    | pipeRead _ => cases hnow
    | pipeWrite _ _ => cases hnow
    | _ => exact id

theorem semWait_disciplined (h : σ.Disciplined) (hu : σ.InUser) (semId : Int) :
    (σ.semWait semId).Disciplined := by
  have hw := h.idle_of_user hu.2
  have hstay : (σ.kernel.semWait semId).2 ≠ 1 → (σ.exec (.semWait semId)).Disciplined :=
    fun h1 => h.stay trivial (fun _ => by rintro ⟨⟩) hu.1 hw h1
  unfold Sys.semWait
  split
  · rename_i i hi
    split
    · exact hstay (by omega)
    · refine h.act (.semWait semId) trivial (fun _ => by rintro ⟨⟩) hu.1 hw fun _ => ?_
      rw [Kernel.parkSem, (σ.kernel.validSem_some hi).2, index?_natCast]
      rfl
  · rename_i hi
    refine hstay ?_
    have hcase := σ.kernel.semWait_cases semId
    generalize σ.kernel.semWait semId = r at hcase
    cases hcase with
    | refused _ => exact (by decide : (-1 : Int) ≠ 1)
    | takes i hi' _ => cases hi.symm.trans hi'
    | full i hi' _ _ => cases hi.symm.trans hi'
    | parks i hi' _ _ => cases hi.symm.trans hi'

theorem resume_disciplined (h : σ.Disciplined) (h0 : σ.cur ≠ 0)
    (hr : (σ.cont σ.cur).Resumes)
    (hs : (σ.cont σ.cur).Halts → (σ.kernel.proc σ.cur).state ≠ .blocked)
    (hwait : ∀ pid, σ.cont σ.cur ≠ .wait pid) : σ.resume.1.Disciplined := by
  have hw := h.idle_of_resume hr hs
  unfold resume
  split
  · exact absurd ‹_› (hwait _)
  · rename_i p count got asleep _
    have hact : ∀ {c : Cont}, (σ.kernel.Parks (.pipeRead p) →
        c.park = index? maxSemaphores (σ.kernel.pipeSemData p)) →
        ((σ.exec (.pipeRead p)).goto c).Disciplined :=
      fun hc => h.act (.pipeRead p) trivial (fun _ => by rintro ⟨⟩) h0 hw hc
    simp only [readStep]
    split
    · rename_i b hb
      split
      · exact (hact fun hp => by cases hb.symm.trans hp).record _
      · exact (hact fun hp => by cases hb.symm.trans hp).record _
    · rename_i hb
      exact (hact fun hp => by cases hb.symm.trans hp).record _
    · exact hact fun _ => rfl
    · rename_i hb
      exact hact fun hp => by cases hb.symm.trans hp
    · rename_i hb
      exact (hact fun hp => by cases hb.symm.trans hp).record _
  · rename_i p buf n asleep _
    have hact : ∀ {c : Cont}, (σ.kernel.Parks (.pipeWrite p (buf.getD n 0)) →
        c.park = index? maxSemaphores (σ.kernel.pipeSemSpace p)) →
        ((σ.exec (.pipeWrite p (buf.getD n 0))).goto c).Disciplined :=
      fun hc => h.act (.pipeWrite p _) trivial (fun _ => by rintro ⟨⟩) h0 hw hc
    simp only [writeStep]
    split
    · rename_i hb
      split
      · exact (hact fun hp => by cases hb.symm.trans hp).record _
      · exact (hact fun hp => by cases hb.symm.trans hp).record _
    · exact hact fun _ => rfl
    · rename_i hb
      exact hact fun hp => by cases hb.symm.trans hp
    · rename_i hb
      exact (hact fun hp => by cases hb.symm.trans hp).record _
    · rename_i hb
      exact (hact fun hp => by cases hb.symm.trans hp).record _
  · exact h

theorem main_disciplined (h : σ.Disciplined) {l : Label} {r : Sys × Bool} (hg : σ.guard l)
    (hok : σ.Orderly l) (hr : σ.main l = some r) : r.1.Disciplined := by
  cases l with
  | call op rsp =>
      obtain rfl := Option.some.inj hr
      exact call_disciplined h (hok op rfl) hg.1 hg.2
  | semWait semId rsp =>
      obtain rfl := Option.some.inj hr
      exact semWait_disciplined h hg semId
  | wait pid rsp => exact absurd (hok _ rfl) id
  | read fd count rsp =>
      obtain rfl := Option.some.inj hr
      simp only [readStart]
      split
      · split
        · exact h.goto (h.idle_of_user hg.2) _
        · exact h
      · exact h
  | write fd buf rsp =>
      obtain rfl := Option.some.inj hr
      simp only [writeStart]
      split
      · split
        · exact h.goto (h.idle_of_user hg.2) _
        · exact h
      · exact h
  | resume rsp =>
      obtain rfl := Option.some.inj hr
      refine resume_disciplined h hg.1 hg.2.1 hg.2.2 fun pid hc => ?_
      refine hok (.wait pid) ?_
      simp only [opOf, hc]
  | timer rsp => cases hr
  | ctrlC => exact absurd (hok _ rfl) id

/-- **Orderly steps keep the queues and the processes together.** -/
theorem step_disciplined (h : σ.Disciplined) {l : Label} (hg : σ.guard l) (hok : σ.Orderly l) :
    (σ.step l).Disciplined :=
  step_invariant h (fun _ hr => main_disciplined h hg hok hr) (fun _ rsp hσ => hσ.tick rsp)
    fun _ hσ hrun => hσ.arrive hrun

theorem reach_disciplined {ok : Sys → Label → Prop} {idleStack stack : Nat}
    (h : (machine.restrict ok).Reach (init idleStack stack) σ)
    (hok : ∀ σ l, ok σ l → σ.Orderly l) : σ.Disciplined := by
  refine h.invariant (init_disciplined idleStack stack) fun σ l σ' hσ hg hs => ?_
  obtain rfl := Option.some.inj hs
  exact step_disciplined hσ hg.1 (hok σ l hg.2)

end Sys

end TP2Kernel
