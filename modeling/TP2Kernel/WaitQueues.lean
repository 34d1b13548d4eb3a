/-
TP2Kernel/WaitQueues.lean

The waiting queues of `Kernel/semaphore.c`, whatever happens to the processes
in them.  An entry may be stale: its process may have been unblocked, blocked
for another reason, or have exited.  What always holds is `Semaphore.Sane`: the
queue fits its array, no pid stands in it twice, credits stay within their
range, and the value is low enough for every entry, so that a post never
overlooks a waiter.

`SemClosed P` says that the semaphore calls keep `P`; then every piece of
kernel code keeps it (`exec_semTable`), since the semaphore table changes in no
other way.
-/
import TP2Kernel.KillResidue
import TP2Kernel.Tokens

namespace TP2Kernel

namespace Kernel

/-! ### The semaphore table under the kernel's pieces -/

/-- A property of the semaphore table that the semaphore calls keep, `sem_wait`
apart. -/
structure SemClosed (P : (Fin maxSemaphores → Semaphore) → Prop) : Prop where
  opens : ∀ (k : Kernel) name v, P k.semTable → P (k.semOpen name v).1.semTable
  posts : ∀ (k : Kernel) semId, P k.semTable → P (k.semPost semId).1.semTable
  postsAll : ∀ (k : Kernel) semId, P k.semTable → P (k.semPostAll semId).1.semTable
  closes : ∀ (k : Kernel) semId, P k.semTable → P (k.semClose semId).1.semTable
  removes : ∀ (k : Kernel) pid, P k.semTable → P (k.semRemoveWaitingPid pid).semTable

/-- The pieces that may call `sem_wait`. -/
def MayWait : Op → Prop
  | .semWait _ | .pipeRead _ | .pipeWrite _ _ => True
  | _ => False

instance : DecidablePred MayWait := fun op => by
  induction op using Op.casesOn <;> dsimp only [MayWait] <;> infer_instance

section Rule

variable {P : (Fin maxSemaphores → Semaphore) → Prop} {k : Kernel}

theorem pipeClose_semTable (hP : SemClosed P) (h : P k.semTable) (pipeId : Int) (w : Bool) :
    P (k.pipeClose pipeId w).1.semTable := by
  simp only [pipeClose]
  split
  · exact h
  · rename_i p _
    have h1 : P (k.dropEnd p w).semTable := by
      unfold dropEnd
      split <;> exact h
    have h2 : P ((k.dropEnd p w).closePosts p w).semTable := by
      simp only [closePosts]
      split
      · split
        · exact hP.postsAll _ _ h1
        · split
          · exact hP.posts _ _ h1
          · exact h1
      · split
        · exact hP.postsAll _ _ h1
        · split
          · exact hP.posts _ _ h1
          · exact h1
    simp only [retire]
    split
    · exact hP.closes _ _ (hP.closes _ _ h2)
    · exact h2

theorem SemClosed.endClosed (hP : SemClosed P) :
    EndClosed fun k k' => P k.semTable → P k'.semTable where
  refl := fun _ h => h
  trans := fun h h' hk => h' (h hk)
  sched := fun _ _ h => h
  closes := fun _ pipeId w h => pipeClose_semTable hP h pipeId w
  removes := fun k pid h => hP.removes k pid h

theorem pipeOpenWithCapacity_semTable (hP : SemClosed P) (h : P k.semTable) (c : Int) :
    P (k.pipeOpenWithCapacity c).1.semTable := by
  simp only [pipeOpenWithCapacity]
  split
  · exact h
  · split
    · exact h
    · simp only [pipeInitSems]
      exact hP.opens _ _ _ (hP.opens _ _ _ h)

theorem StepCases.semTable {α : Type} {p : Fin maxPipes} {own other : Int} {move : Pipe → Pipe}
    {dry shut live : Prop} {fl bl ag sp dn : α} {r : Kernel × α}
    (hr : k.StepCases p own other move dry shut live fl bl ag sp dn r) (hP : SemClosed P)
    (h : P k.semTable) (hwait : ∀ semId, P (k.semWait semId).1.semTable) : P r.1.semTable := by
  cases hr with
  | waits _ => exact hwait own
  | stops _ => exact h
  | moves _ => exact hP.posts (k.modifyPipe p move) _ h

/-- **The rule for the semaphore table**: what the semaphore calls keep, every
piece keeps. -/
theorem exec_semTable (hP : SemClosed P) (h : P k.semTable) (op : Op)
    (hwait : MayWait op → ∀ semId, P (k.semWait semId).1.semTable) : P (k.exec op).semTable := by
  cases op with
  | create _ _ _ _ => exact h
  | kill pid => exact hP.endClosed.schedulerKill k pid h
  | killForeground => exact hP.endClosed.schedulerKillForeground k h
  | block _ => exact h
  | unblock _ => exact h
  | nice _ _ => exact h
  | wait _ => exact h
  | exit status => exact hP.endClosed.schedulerExitCurrent k status h
  | yield => exact h
  | tick _ => exact h
  | semOpen name v => exact hP.opens _ _ _ h
  | semWait semId => exact hwait trivial semId
  | semPost semId => exact hP.posts _ _ h
  | semPostAll semId => exact hP.postsAll _ _ h
  | semClose semId => exact hP.closes _ _ h
  | pipeOpen c => exact pipeOpenWithCapacity_semTable hP h c
  | pipeClose pipeId w => exact pipeClose_semTable hP h pipeId w
  | pipeSetFd pid fd pipeId w =>
      refine hP.endClosed.syscallPipeSetFd k pid fd pipeId w (fun h => ?_) h
      rw [k.pipeAttach_semTable]
      exact h
  | pipeRead p => exact (k.pipeReadStep_cases p).semTable hP h (hwait trivial)
  | pipeWrite p c => exact (k.pipeWriteStep_cases p c).semTable hP h (hwait trivial)

end Rule

end Kernel

/-! ### Sane queues -/

/-- What always holds of a semaphore. -/
structure Semaphore.Sane (m : Semaphore) : Prop where
  /-- The queue fits its array. -/
  fits : m.waiting.length ≤ maxWaiting
  /-- No pid waits twice. -/
  nodup : (m.waiting.map Prod.fst).Nodup
  /-- Credits are bounded. -/
  credit : ∀ w ∈ m.waiting, 0 ≤ w.2 ∧ w.2 ≤ 5
  /-- Idle does not wait. -/
  positive : ∀ w ∈ m.waiting, 0 < w.1
  /-- Every waiter is counted in the value. -/
  debt : m.waiting = [] ∨ m.value ≤ -(m.waiting.length : Int)

namespace Semaphore.Sane

variable {m m' : Semaphore}

theorem of_nil (h : m.waiting = []) : m.Sane := by
  refine ⟨?_, ?_, ?_, ?_, .inl h⟩
  · rw [h]
    exact Nat.zero_le _
  · rw [h]
    exact List.nodup_nil
  · rw [h]
    exact fun w hw => absurd hw List.not_mem_nil
  · rw [h]
    exact fun w hw => absurd hw List.not_mem_nil

/-- Entries leave the queue, and the value stays low enough for the rest. -/
theorem shrink (h : m.Sane) (hpid : (m'.waiting.map Prod.fst).Sublist (m.waiting.map Prod.fst))
    (hcredit : ∀ w ∈ m'.waiting, 0 ≤ w.2 ∧ w.2 ≤ 5)
    (hdebt : m'.waiting = [] ∨ m'.value ≤ -(m'.waiting.length : Int)) : m'.Sane where
  fits := by
    have hlen := hpid.length_le
    rw [List.length_map, List.length_map] at hlen
    exact hlen.trans h.fits
  nodup := h.nodup.sublist hpid
  credit := hcredit
  positive := fun w hw => by
    obtain ⟨w₀, hw₀, he⟩ := List.mem_map.mp (hpid.subset (List.mem_map_of_mem hw))
    exact he ▸ h.positive w₀ hw₀
  debt := hdebt

/-- Nobody waits where the value is positive. -/
theorem nil_of_pos (h : m.Sane) (hv : 0 ≤ m.value) : m.waiting = [] := by
  rcases h.debt with hnil | hle
  · exact hnil
  · refine List.length_eq_zero_iff.mp ?_
    omega

/-- Somebody waits only where the value is negative. -/
theorem neg_of_ne (h : m.Sane) (hne : m.waiting ≠ []) : m.value < 0 := by
  have hv := h.debt.resolve_left hne
  have hlen := List.length_pos_iff.mpr hne
  omega

theorem of_eq (h : m.Sane) (hw : m'.waiting = m.waiting) (hv : m'.value = m.value) : m'.Sane :=
  h.shrink (by rw [hw]) (by rw [hw]; exact h.credit) (by rw [hw, hv]; exact h.debt)

end Semaphore.Sane

theorem credit_released {ws : List (Int × Int)} {b : Nat} (h : ∀ w ∈ ws, 0 ≤ w.2 ∧ w.2 ≤ 5) :
    ∀ w ∈ Kernel.released ws b, 0 ≤ w.2 ∧ w.2 ≤ 5 := by
  intro w hw
  obtain ⟨n, hn, rfl⟩ := List.mem_mapIdx.mp (List.mem_of_mem_eraseIdx hw)
  have hold := h _ (List.getElem_mem hn)
  split
  · rename_i hc
    exact ⟨by simp only; omega, by simp only; omega⟩
  · exact hold

namespace Kernel

/-! ### The calls keep the queues sane -/

/-- All queues are sane. -/
def SaneTable (T : Fin maxSemaphores → Semaphore) : Prop := ∀ n, (T n).Sane

variable {k : Kernel}

theorem SaneTable.modifySem (h : SaneTable k.semTable) {i : Fin maxSemaphores}
    {f : Semaphore → Semaphore} (hf : (f (k.semTable i)).Sane) :
    SaneTable (k.modifySem i f).semTable := by
  intro n
  rw [modifySem_semTable]
  split
  · exact hf
  · exact h n

theorem semOpen_sane (h : SaneTable k.semTable) (name : List UInt8) (v : Int) :
    SaneTable (k.semOpen name v).1.semTable := by
  unfold semOpen
  split
  · rename_i i _
    exact h.modifySem ((h i).of_eq rfl rfl)
  · split
    · exact h
    · exact h.modifySem (.of_nil rfl)

theorem semClose_sane (h : SaneTable k.semTable) (semId : Int) :
    SaneTable (k.semClose semId).1.semTable := by
  simp only [semClose]
  split
  · exact h
  · rename_i i _
    have h1 : SaneTable (k.modifySem i fun s => { s with refCount := s.refCount - 1 }).semTable :=
      h.modifySem ((h i).of_eq rfl rfl)
    split
    · exact h1.modifySem (.of_nil rfl)
    · exact h1

/-- A post on a semaphore with a negative value reaches
`unblock_one_waiter`. -/
theorem semPost_eq {semId : Int} {i : Fin maxSemaphores} (hi : k.validSem semId = some i)
    (hv : (k.semTable i).value < 0) :
    (k.semPost semId).1 = (k.modifySem i fun m => m.addValue 1).unblockOneWaiter i := by
  simp only [semPost, hi, modifySem_self, Semaphore.addValue_value]
  rw [if_pos (by omega)]

/-- Queue and value of the semaphore itself after `unblock_one_waiter`. -/
theorem unblockOneWaiter_sane {i : Fin maxSemaphores} (m : Semaphore) (hm : m.Sane)
    (hki : k.semTable i = m.addValue 1) : ((k.unblockOneWaiter i).semTable i).Sane := by
  rw [unblockOneWaiter_eq]
  rcases hb : bestWaiter k.sched (k.semTable i).waiting 0 none (-1) with - | b
  · simp only [modifySem_self]
    exact .of_nil rfl
  · obtain ⟨n, hn, hlt, -⟩ := (bestWaiter_some hb).resolve_left fun h => by cases h
    rw [Nat.zero_add] at hn
    subst hn
    show ((k.grant i b).semTable i).Sane
    rw [hki, Semaphore.addValue_waiting] at hlt
    rw [grant_semTable, hki, Semaphore.addValue_waiting]
    refine hm.shrink ?_ (credit_released hm.credit) (.inr ?_)
    · rw [Semaphore.setWaiting_waiting, map_fst_released]
      exact List.eraseIdx_sublist _ _
    · have hne : m.waiting ≠ [] := List.ne_nil_of_length_pos (by omega)
      have hv := hm.debt.resolve_left hne
      simp only [Semaphore.setWaiting_waiting, Semaphore.setWaiting_value,
        Semaphore.addValue_value, length_released hlt]
      omega

theorem semPost_sane (h : SaneTable k.semTable) (semId : Int) :
    SaneTable (k.semPost semId).1.semTable := by
  rcases hi : k.validSem semId with - | i
  · simp only [semPost, hi]
    exact h
  · intro n
    by_cases hn : n = i
    · subst hn
      simp only [semPost, hi]
      split
      · exact unblockOneWaiter_sane _ (h n) (modifySem_self _ _ _)
      · rename_i hv
        rw [modifySem_self, Semaphore.addValue_value] at hv
        rw [modifySem_self]
        exact .of_nil ((h n).nil_of_pos (by omega))
    · rw [semPost_other fun he => hn (Fin.ext ?_)]
      · exact h n
      · have := (k.validSem_some hi).2
        omega

theorem semPostAll_sane (h : SaneTable k.semTable) (semId : Int) :
    SaneTable (k.semPostAll semId).1.semTable := by
  rcases hi : k.validSem semId with - | i
  · simp only [semPostAll, hi]
    exact h
  · intro n
    by_cases hn : n = i
    · subst hn
      exact .of_nil (semPostAll_tight hi).1
    · rw [semPostAll_other fun he => hn (Fin.ext ?_)]
      · exact h n
      · have := (k.validSem_some hi).2
        omega

theorem semRemoveWaitingPid_sane (h : SaneTable k.semTable) (pid : Int) :
    SaneTable (k.semRemoveWaitingPid pid).semTable := by
  intro n
  simp only [semRemoveWaitingPid]
  split
  · have hlen := length_removePid (k.semTable n).waiting pid
    refine (h n).shrink (removePid_sublist _ pid)
      (fun w hw => (h n).credit w (List.mem_of_mem_filter hw)) ?_
    simp only [Semaphore.addValue_waiting, Semaphore.setWaiting_waiting, Semaphore.addValue_value,
      Semaphore.setWaiting_value]
    rcases (h n).debt with hnil | hv
    · rw [hnil]
      exact .inl rfl
    · exact .inr (by omega)
  · exact h n

/-- **`sem_wait`** by a process other than idle. -/
theorem semWait_sane (h : SaneTable k.semTable) (hpos : 0 < k.sched.schedulerGetpid)
    (semId : Int) : SaneTable (k.semWait semId).1.semTable := by
  have hcase := k.semWait_cases semId
  generalize k.semWait semId = r at hcase
  cases hcase with
  | refused _ => exact h
  | takes i _ hv => exact h.modifySem (.of_nil ((h i).nil_of_pos (by omega)))
  | full i _ hv _ =>
      refine h.modifySem ((h i).shrink (removePid_sublist _ _)
        (fun w hw => (h i).credit w (List.mem_of_mem_filter hw)) ?_)
      have hlen := ((removePid_sublist (k.semTable i).waiting k.sched.schedulerGetpid).length_le)
      simp only [List.length_map] at hlen
      simp only [Semaphore.setWaiting_waiting, Semaphore.setWaiting_value]
      rcases (h i).debt with hnil | hle
      · rw [hnil]
        exact .inl rfl
      · exact .inr (by omega)
  | parks i _ hv hlt =>
      have hsub := removePid_sublist (k.semTable i).waiting k.sched.schedulerGetpid
      have hlen := hsub.length_le
      simp only [List.length_map] at hlen
      refine h.modifySem (f := fun m => m.park k.sched.schedulerGetpid) ⟨?_, ?_, ?_, ?_, .inr ?_⟩
      · simp only [Semaphore.park, Semaphore.addValue_waiting, Semaphore.setWaiting_waiting,
          List.length_append, List.length_singleton]
        exact hlt
      · exact nodup_removePid_concat (h i).nodup _ _
      · intro w hw
        rcases List.mem_append.mp hw with hw | hw
        · exact (h i).credit w (List.mem_of_mem_filter hw)
        · rw [List.mem_singleton.mp hw]
          exact ⟨le_refl _, by simp only; omega⟩
      · intro w hw
        rcases List.mem_append.mp hw with hw | hw
        · exact (h i).positive w (List.mem_of_mem_filter hw)
        · rw [List.mem_singleton.mp hw]
          exact hpos
      · simp only [Semaphore.park, Semaphore.addValue_waiting, Semaphore.setWaiting_waiting,
          Semaphore.addValue_value, Semaphore.setWaiting_value, List.length_append,
          List.length_singleton]
        rcases (h i).debt with hnil | hle
        · rw [hnil] at hlen ⊢
          simp only [List.length_nil] at hlen
          omega
        · omega

theorem saneTable_closed : SemClosed SaneTable where
  opens := fun _ name v h => semOpen_sane h name v
  posts := fun _ semId h => semPost_sane h semId
  postsAll := fun _ semId h => semPostAll_sane h semId
  closes := fun _ semId h => semClose_sane h semId
  removes := fun _ pid h => semRemoveWaitingPid_sane h pid

theorem exec_sane (h : SaneTable k.semTable) (hp : Pids k) {op : Op}
    (hop : MayWait op → k.sched.currentIdx ≠ 0) : SaneTable (k.exec op).semTable :=
  exec_semTable saneTable_closed h op fun hw semId =>
    semWait_sane h (hp.live _ (hop hw) hp.current).1 semId

/-! ### What a post does -/

/-- The process with this pid is blocked. -/
def Asleep (k : Kernel) (pid : Int) : Prop :=
  ∃ j, (k.life j).pid = pid ∧ (k.life j).state = .blocked

instance (k : Kernel) (pid : Int) : Decidable (k.Asleep pid) :=
  inferInstanceAs (Decidable (∃ _, _ ∧ _))

/-- The pids in the queue of a semaphore, in order. -/
def queue (k : Kernel) (i : Fin maxSemaphores) : List Int := (k.semTable i).waiting.map Prod.fst

/-- From `s` to `s'` exactly one pid of the queue `q` whose process is blocked leaves
it, its process is ready, and every other process is as before. -/
def ReleasesOne (s s' : Sched) (q q' : List Int) : Prop :=
  ∃ (b : Nat) (j : Slot), q[b]? = some (s.life j).pid ∧ (s.life j).state = .blocked ∧
    q' = q.eraseIdx b ∧ s'.life j = (s.life j).setState .ready ∧
    ∀ j', j' ≠ j → s'.life j' = s.life j'

/-- From `k` to `k'` exactly one blocked waiter of the semaphore `i` is released. -/
def ServesWaiter (k k' : Kernel) (i : Fin maxSemaphores) : Prop :=
  ReleasesOne k.sched k'.sched (k.queue i) (k'.queue i)

theorem eligible_of_asleep (hd : k.Distinct) (hr : k.Ranked) {w : Int × Int} (hw : 0 < w.1)
    (hc : 0 ≤ w.2) (ha : k.Asleep w.1) : Eligible k.sched (-1) w := by
  obtain ⟨j, hpid, hb⟩ := ha
  have hfind := hd.find_eq (hpid ▸ hw) (by rw [hb]; rintro ⟨⟩)
  rw [hpid] at hfind
  have hrank := hr j
  refine ⟨j, hfind, hb, ?_⟩
  show (k.life j).priority + w.2 > -1
  omega

/-- `scheduler_unblock` of a blocked process other than idle. -/
theorem unblock_life_self (hp : Pids k) {j : Slot} (hpos : 0 < (k.life j).pid)
    (hb : (k.life j).state = .blocked) :
    (k.sched.schedulerUnblock (k.life j).pid).life j = (k.life j).setState .ready := by
  have h0 : j ≠ 0 := by
    rintro rfl
    have := hp.idle.1
    omega
  have hfind : k.sched.findBlocked (k.life j).pid = some j := by
    rcases hf : k.sched.findBlocked (k.life j).pid with - | i
    · refine absurd (List.find?_eq_none.mp hf j (mem_allSlots j)) (not_not.mpr ?_)
      exact decide_eq_true ⟨rfl, hb⟩
    · have hi := Sched.findBlocked_some hf
      have hpid : (k.life i).pid = (k.life j).pid := hi.1
      exact congrArg some (hp.distinct i j hpid (hpid ▸ hpos))
  have hcan : k.sched.CanReady j := by
    refine ⟨h0, ?_⟩
    rw [show (k.sched.core j).state = .blocked from hb]
    exact ⟨by rintro ⟨⟩, by rintro ⟨⟩⟩
  unfold Sched.schedulerUnblock
  rw [hfind]
  have hcore := k.sched.makeReady_core j true
  rw [if_pos hcan] at hcore
  exact (Sched.life_update hcore j).trans (if_pos rfl)

/-- **`unblock_one_waiter`** serves a waiter if one of them is blocked. -/
theorem unblockOneWaiter_serves (hp : Pids k) (hr : k.Ranked) {i : Fin maxSemaphores}
    (hpos : ∀ w ∈ (k.semTable i).waiting, 0 < w.1 ∧ 0 ≤ w.2)
    (ha : ∃ w ∈ (k.semTable i).waiting, k.Asleep w.1) : ServesWaiter k (k.unblockOneWaiter i) i := by
  rw [unblockOneWaiter_eq]
  rcases hb : bestWaiter k.sched (k.semTable i).waiting 0 none (-1) with - | b
  · obtain ⟨w, hw, hasleep⟩ := ha
    exact absurd (eligible_of_asleep hp.distinct hr (hpos w hw).1 (hpos w hw).2 hasleep)
      (bestWaiter_eq_none.mp hb w hw)
  · obtain ⟨n, hn, hlt, j, hj, hblocked, -⟩ := (bestWaiter_some hb).resolve_left fun h => by cases h
    rw [Nat.zero_add] at hn
    subst hn
    have hget : (k.semTable i).waiting.getD b (0, 0) = (k.semTable i).waiting[b] :=
      List.getD_eq_getElem _ _ hlt
    have hpid : (k.life j).pid = ((k.semTable i).waiting.getD b (0, 0)).1 := by
      rw [hget]
      exact (Sched.findIndexByPid_some hj).1
    have hwpos : 0 < (k.life j).pid := by
      rw [hpid, hget]
      exact (hpos _ (List.getElem_mem hlt)).1
    refine ⟨b, j, ?_, hblocked, ?_, ?_, fun j' hj' => ?_⟩
    · rw [queue, List.getElem?_map, List.getElem?_eq_getElem hlt, ← hget]
      exact congrArg some hpid.symm
    · show (((k.grant i b).semTable i).waiting.map Prod.fst) = _
      rw [grant_semTable, Semaphore.setWaiting_waiting, map_fst_released]
      rfl
    · show (k.sched.schedulerUnblock _).life j = _
      rw [← hpid]
      exact unblock_life_self hp hwpos hblocked
    · refine unblock_life fun he => hj' (hp.distinct j' j (he.trans hpid.symm) ?_)
      rw [he, ← hpid]
      exact hwpos

theorem semPost_serves (hp : Pids k) (hr : k.Ranked) {semId : Int} {i : Fin maxSemaphores}
    (hi : k.validSem semId = some i) (hv : (k.semTable i).value < 0)
    (hpos : ∀ w ∈ (k.semTable i).waiting, 0 < w.1 ∧ 0 ≤ w.2)
    (ha : ∃ w ∈ (k.semTable i).waiting, k.Asleep w.1) : ServesWaiter k (k.semPost semId).1 i := by
  have hw1 : ((k.modifySem i fun m => m.addValue 1).semTable i).waiting =
      (k.semTable i).waiting := by
    rw [modifySem_self, Semaphore.addValue_waiting]
  have hs : ServesWaiter (k.modifySem i fun m => m.addValue 1)
      ((k.modifySem i fun m => m.addValue 1).unblockOneWaiter i) i := by
    refine unblockOneWaiter_serves (k := k.modifySem i fun m => m.addValue 1) ?_ hr ?_ ?_
    · exact ⟨hp.next, hp.fresh, hp.live, hp.distinct, hp.current, hp.idle⟩
    · rw [hw1]
      exact hpos
    · rw [hw1]
      exact ha
  have hqueue : (k.modifySem i fun m => m.addValue 1).queue i = k.queue i := congrArg _ hw1
  rw [semPost_eq hi hv]
  unfold ServesWaiter at hs ⊢
  rw [hqueue] at hs
  exact hs

/-! ### Runs -/

/-- A piece of kernel code, or a bare `sem_remove_waiting_pid`. -/
inductive QueueLabel
  | piece (op : Op)
  | withdraw (pid : Int)

/-- The kernel with `sem_remove_waiting_pid` as a step of its own; idle never
waits for a semaphore. -/
def queueMachine : Machine Kernel QueueLabel where
  guard := fun k l =>
    match l with
    | .piece op => MayWait op → k.sched.currentIdx ≠ 0
    | .withdraw _ => True
  step := fun k l =>
    match l with
    | .piece op => some (k.exec op)
    | .withdraw pid => some (k.semRemoveWaitingPid pid)

instance (k : Kernel) : DecidablePred (queueMachine.guard k)
  | .piece op => inferInstanceAs (Decidable (MayWait op → k.sched.currentIdx ≠ 0))
  | .withdraw _ => inferInstanceAs (Decidable True)

theorem init_ranked (idleStack : Nat) : (init idleStack).Ranked := (init_strict idleStack).ranked

theorem queueMachine_step {l : QueueLabel} {k' : Kernel} (hs : Sound k) (hr : k.Ranked)
    (hm : SaneTable k.semTable) (hg : queueMachine.guard k l)
    (hstep : queueMachine.step k l = some k') :
    Sound k' ∧ k'.Ranked ∧ SaneTable k'.semTable := by
  cases l with
  | piece op =>
      obtain rfl := Option.some.inj hstep
      exact ⟨exec_sound hs op, exec_ranked hs hr op, exec_sane hm hs.pids hg⟩
  | withdraw pid =>
      obtain rfl := Option.some.inj hstep
      exact ⟨⟨hs.ordered, ⟨hs.pids.next, hs.pids.fresh, hs.pids.live, hs.pids.distinct,
        hs.pids.current, hs.pids.idle⟩⟩, hr, semRemoveWaitingPid_sane hm pid⟩

theorem queueMachine_invariant {idleStack : Nat} (h : queueMachine.Reach (init idleStack) k) :
    Sound k ∧ k.Ranked ∧ SaneTable k.semTable := by
  refine h.invariant (I := fun k => Sound k ∧ k.Ranked ∧ SaneTable k.semTable)
    ⟨init_sound _, init_ranked _, fun _ => .of_nil rfl⟩ ?_
  rintro k l k' ⟨hs, hr, hm⟩ hg hstep
  exact queueMachine_step hs hr hm hg hstep

end Kernel

end TP2Kernel
