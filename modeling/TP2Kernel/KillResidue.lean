/-
TP2Kernel/KillResidue.lean

What a killed process leaves behind.  `scheduler_kill` has two paths.  For a
process other than the current one it takes the pid out of every semaphore
before it closes the descriptors.  For the current process it is
`scheduler_exit_current`, which does not: a process that is still current and
already blocked in a semaphore, as a reader that is interrupted from the
keyboard before the next tick, keeps its entry in the queue.
-/
import TP2Kernel.Lives
import TP2Kernel.PipeEnds

namespace TP2Kernel

/-! ### Semaphores that are not concerned -/

namespace Kernel

variable (k : Kernel)

theorem unblockOneWaiter_other {i n : Fin maxSemaphores} (hn : n ≠ i) :
    (k.unblockOneWaiter i).semTable n = k.semTable n := by
  rw [unblockOneWaiter_eq]
  split <;> exact Function.update_of_ne hn _ _

theorem postAllLoop_other {i n : Fin maxSemaphores} (hn : n ≠ i) (m : Nat) :
    (postAllLoop i m k).semTable n = k.semTable n := by
  induction m generalizing k with
  | zero => rfl
  | succ m ih =>
      simp only [postAllLoop]
      split
      · rfl
      · rw [ih, unblockOneWaiter_other _ hn, modifySem_of_ne _ _ _ _ hn]

variable {k} {semId : Int} {n : Fin maxSemaphores}

/-- A semaphore found by another identifier. -/
theorem validSem_ne {i : Fin maxSemaphores} (hi : k.validSem semId = some i)
    (hn : semId ≠ (n.val : Int)) : n ≠ i := by
  rintro rfl
  exact hn (k.validSem_some hi).2

theorem semPost_other (hn : semId ≠ (n.val : Int)) :
    (k.semPost semId).1.semTable n = k.semTable n := by
  simp only [semPost]
  split
  · rfl
  · rename_i i hi
    have hne := validSem_ne hi hn
    split
    · rw [unblockOneWaiter_other _ hne, modifySem_of_ne _ _ _ _ hne]
    · exact Function.update_of_ne hne _ _

theorem semPostAll_other (hn : semId ≠ (n.val : Int)) :
    (k.semPostAll semId).1.semTable n = k.semTable n := by
  simp only [semPostAll]
  split
  · rfl
  · rename_i i hi
    have hne := validSem_ne hi hn
    split
    · rw [modifySem_of_ne _ _ _ _ hne, postAllLoop_other _ hne]
    · exact postAllLoop_other _ hne _

theorem semWait_other {semId : Int} {n : Fin maxSemaphores} (hn : semId ≠ (n.val : Int)) :
    (k.semWait semId).1.semTable n = k.semTable n := by
  have hcase := k.semWait_cases semId
  generalize k.semWait semId = r at hcase
  cases hcase with
  | refused _ => rfl
  | takes i hi _ => exact Function.update_of_ne (validSem_ne hi hn) _ _
  | full i hi _ _ => exact Function.update_of_ne (validSem_ne hi hn) _ _
  | parks i hi _ _ => exact Function.update_of_ne (validSem_ne hi hn) _ _

theorem semClose_other (hn : semId ≠ (n.val : Int)) :
    (k.semClose semId).1.semTable n = k.semTable n := by
  simp only [semClose]
  split
  · rfl
  · rename_i i hi
    have hne := validSem_ne hi hn
    split
    · rw [modifySem_of_ne _ _ _ _ hne, modifySem_of_ne _ _ _ _ hne]
    · exact Function.update_of_ne hne _ _

/-- The semaphore is none of the two of the pipe. -/
def Apart (k : Kernel) (n : Fin maxSemaphores) (p : Fin maxPipes) : Prop :=
  k.pipeSemData p ≠ (n.val : Int) ∧ k.pipeSemSpace p ≠ (n.val : Int)

theorem closePosts_other {p : Fin maxPipes} (hn : k.Apart n p) (w : Bool) :
    (k.closePosts p w).semTable n = k.semTable n := by
  simp only [closePosts]
  split
  · split
    · exact semPostAll_other hn.1
    · split
      · exact semPost_other hn.2
      · rfl
  · split
    · exact semPostAll_other hn.2
    · split
      · exact semPost_other hn.1
      · rfl

theorem retire_other {p : Fin maxPipes} (hn : k.Apart n p) :
    (k.retire p).semTable n = k.semTable n := by
  simp only [retire]
  split
  · rw [semClose_other, semClose_other]
    · rfl
    · exact hn.1
    · rw [(SamePipes.semClose _ _).semSpace]
      exact hn.2
  · rfl

/-- The arrays that hold the semaphores of the pipes never change but in
`pipe_init_sems`. -/
theorem dropEnd_apart (p q : Fin maxPipes) (w : Bool) :
    (k.dropEnd p w).Apart n q ↔ k.Apart n q := by
  unfold dropEnd
  split <;> rfl

theorem SamePipes.apart {k k' : Kernel} (h : SamePipes k k') (p : Fin maxPipes) :
    k'.Apart n p ↔ k.Apart n p := by
  unfold Apart
  rw [h.semData, h.semSpace]

theorem retire_apart (p q : Fin maxPipes) : (k.retire p).Apart n q ↔ k.Apart n q := by
  simp only [retire]
  split
  · rw [SamePipes.apart (SamePipes.semClose _ _), SamePipes.apart (SamePipes.semClose _ _)]
    rfl
  · rfl

theorem pipeClose_apart (pipeId : Int) (w : Bool) (q : Fin maxPipes) :
    (k.pipeClose pipeId w).1.Apart n q ↔ k.Apart n q := by
  simp only [pipeClose]
  split
  · rfl
  · rw [retire_apart, SamePipes.apart (SamePipes.closePosts _ _ _), dropEnd_apart]

theorem pipeClose_other {pipeId : Int}
    (hn : ∀ p, index? maxPipes pipeId = some p → k.Apart n p) (w : Bool) :
    (k.pipeClose pipeId w).1.semTable n = k.semTable n := by
  simp only [pipeClose]
  split
  · rfl
  · rename_i p hp
    have hp' : k.Apart n p := hn p (Option.filter_eq_some_iff.mp hp).1
    have h1 := (dropEnd_apart p p w).mpr hp'
    have h2 := (SamePipes.apart (SamePipes.closePosts _ p w) p).mpr h1
    rw [retire_other h2, closePosts_other h1]
    unfold dropEnd
    split <;> rfl

theorem releaseFd_other {d : FileDescriptor}
    (hn : ∀ p w, endOf d = some (p, w) → k.Apart n p) :
    (k.releaseFd d).semTable n = k.semTable n := by
  unfold releaseFd
  unfold endOf at hn
  rcases hd : d.type with - | - | - | - | - <;> simp only [hd] at hn ⊢
  · refine pipeClose_other (fun p hp => hn p false ?_) false
    rw [hp]
    rfl
  · refine pipeClose_other (fun p hp => hn p true ?_) true
    rw [hp]
    rfl

theorem releaseFd_apart (d : FileDescriptor) (q : Fin maxPipes) :
    (k.releaseFd d).Apart n q ↔ k.Apart n q := by
  unfold releaseFd
  split
  · exact pipeClose_apart _ _ q
  · exact pipeClose_apart _ _ q
  · rfl

/-- **Closing descriptors** leaves alone every semaphore that belongs to none of
their pipes. -/
theorem closeProcessFds_other {i : Slot}
    (hn : ∀ fd p w, endOf ((k.proc i).fds fd) = some (p, w) → k.Apart n p) :
    (k.closeProcessFds i).semTable n = k.semTable n := by
  unfold closeProcessFds
  generalize List.finRange maxFds = l
  induction l generalizing k with
  | nil => rfl
  | cons fd l ih =>
      have hstep : (k.closeFd i fd).semTable n = k.semTable n :=
        releaseFd_other fun p w h => hn fd p w h
      rw [List.foldl_cons, ih, hstep]
      intro fd' p w he
      refine (releaseFd_apart ((k.proc i).fds fd) p).mpr ?_
      rw [closeFd_fds] at he
      split at he
      · cases he
      · exact hn fd' p w he

/-- Without pipes there is nothing to close. -/
theorem closeProcessFds_noPipes (h : ∀ p, (k.pipeTable p).active = false) (i : Slot) :
    (k.closeProcessFds i).semTable = k.semTable ∧ (k.closeProcessFds i).pipeTable = k.pipeTable := by
  unfold closeProcessFds
  generalize List.finRange maxFds = l
  induction l generalizing k with
  | nil => exact ⟨rfl, rfl⟩
  | cons fd l ih =>
      have hnone : ∀ pipeId, k.validPipe pipeId = none := by
        intro pipeId
        rcases hv : k.validPipe pipeId with - | p
        · rfl
        · have hact := (k.validPipe_some hv).1
          rw [h p] at hact
          cases hact
      have hrel : ∀ d, k.releaseFd d = k := by
        intro d
        unfold releaseFd
        split
        · rw [pipeClose, hnone]
        · rw [pipeClose, hnone]
        · rfl
      have hstep : (k.closeFd i fd).semTable = k.semTable ∧
          (k.closeFd i fd).pipeTable = k.pipeTable := by
        unfold closeFd
        rw [hrel]
        exact ⟨rfl, rfl⟩
      obtain ⟨hs, hp⟩ := ih (k := k.closeFd i fd) (by rw [hstep.2]; exact h)
      rw [List.foldl_cons]
      exact ⟨hs.trans hstep.1, hp.trans hstep.2⟩

/-! ### The foreground -/

/-- A field that neither waking nor closing touches. -/
theorem closeProcessFds_field (k : Kernel) (i j : Slot) {α : Type} (g : PCB → α)
    (hg : ∀ p, g (p.setState .ready) = g p) (hfd : ∀ fd d p, g (setFd fd d p).core = g p.core) :
    g ((k.closeProcessFds i).sched.core j) = g (k.sched.core j) := by
  refine closeProcessFds_invariant (P := fun k' => g (k'.sched.core j) = g (k.sched.core j)) rfl
    (fun k₁ k₂ h hr => (hr.wakes.field j g hg).trans h) fun k₁ fd d h => ?_
  rw [onSched_sched, Sched.modify_core]
  by_cases hj : j = i
  · subst hj
    rw [Function.update_self, hfd]
    exact h
  · rw [Function.update_of_ne hj]
    exact h

/-- The process that has ended is not touched by the end of the two kill
paths. -/
theorem wakeWaiters_ensure_core {s : Sched} {i : Slot} {pid : Int} {hand : Bool}
    (hb : (s.core i).state ≠ .blocked) (h1 : (s.core i).pid ≠ 1) :
    (s.wakeWaiters pid hand).ensureForegroundOwner.core i = s.core i := by
  have hw : (s.wakeWaiters pid hand).core i = s.core i := by
    rw [Sched.wakeWaiters_core]
    exact if_neg fun h => hb h.1
  rw [Sched.ensureForegroundOwner_core _ (by rw [hw]; exact h1), hw]

theorem leave_core {s : Sched} {cur : Slot} (pid : Int) (hand : Bool)
    (h1 : (s.core cur).pid ≠ 1) : (leave s cur pid hand).core cur = (ended (s.core cur)).core := by
  have hc : ((s.removeFromReadyQueue cur).modify cur ended).core
      = Function.update s.core cur (ended (s.core cur)).core :=
    Sched.modify_core_of (s.removeFromReadyQueue_requeued cur).core cur
      (fun p => (ended p).core) fun _ => rfl
  have hcur : ({ (s.removeFromReadyQueue cur).modify cur ended with needResched := true } :
      Sched).core cur = (ended (s.core cur)).core :=
    (congrFun hc cur).trans (Function.update_self _ _ _)
  simp only [leave]
  rw [wakeWaiters_ensure_core (by rw [hcur]; exact (by rintro ⟨⟩)) (by rw [hcur]; exact h1), hcur]

theorem bury_core {s : Sched} {i : Slot} (pid : Int) (h1 : (s.core i).pid ≠ 1) :
    ∃ stack, (bury s i pid).core i = { (killed (s.core i)).core with stackBase := stack } := by
  simp only [bury]
  split
  · refine ⟨0, ?_⟩
    rw [wakeWaiters_ensure_core]
    all_goals
      simp only [Sched.core, Sched.modify_self, Sched.freeStack]
    · rfl
    · rintro ⟨⟩
    · exact h1
  · refine ⟨(s.core i).stackBase, ?_⟩
    rw [wakeWaiters_ensure_core]
    all_goals
      simp only [Sched.core, Sched.modify_self]
    · rfl
    · rintro ⟨⟩
    · exact h1

/-! ### The two paths -/

/-- The process in slot `i` with `pid` has left nothing behind in `k'`. -/
structure Clean (k k' : Kernel) (i : Slot) (pid : Int) : Prop where
  /-- It is on no ready queue. -/
  unqueued : ∃ L, Queues k'.sched L ∧ ∀ q, i ∉ L q
  /-- Its descriptors are closed. -/
  closed : ∀ fd, (k'.proc i).fds fd = ⟨.none, -1⟩
  /-- Every end it had was closed once. -/
  counts : ∀ p, (k.pipeTable p).active = true →
    (k'.pipeTable p).readers = (k.pipeTable p).readers -
      (List.finRange maxFds).countP (fun fd => endOf ((k.proc i).fds fd) = some (p, false)) ∧
    (k'.pipeTable p).writers = (k.pipeTable p).writers -
      (List.finRange maxFds).countP (fun fd => endOf ((k.proc i).fds fd) = some (p, true))
  /-- It does not own the foreground. -/
  background : (k'.proc i).foreground = 0
  /-- Nobody waits for it. -/
  unawaited : ∀ j, (k'.proc j).state = .blocked → (k'.proc j).waitingFor ≠ pid

/-- The semaphores without the entries of `pid`, each taken out for one token
more. -/
def withdrawn (k : Kernel) (pid : Int) (n : Fin maxSemaphores) : Semaphore :=
  if (k.semTable n).active then
    ((k.semTable n).setWaiting (removePid (k.semTable n).waiting pid)).addValue
      (removedCount (k.semTable n).waiting pid)
  else k.semTable n

/-- The entries of `pid` have been taken out of the semaphores of `k`, and apart
from that its pipe ends have been closed. -/
structure Withdrawn (k k' : Kernel) (i : Slot) (pid : Int) : Prop where
  quiet : ¬ k'.Waiting pid
  raised : ∃ k₁, (∀ n, k₁.semTable n = k.withdrawn pid n) ∧ SamePipes k k₁ ∧
    (k₁.proc i).fds = (k.proc i).fds ∧ k'.semTable = (k₁.closeProcessFds i).semTable
  others : ∀ n, (∀ fd p w, endOf ((k.proc i).fds fd) = some (p, w) → k.Apart n p) →
    k'.semTable n = k.withdrawn pid n

theorem withdrawn_of_quiet {k : Kernel} {pid : Int} (h : ¬ k.Waiting pid)
    (n : Fin maxSemaphores) : k.withdrawn pid n = k.semTable n := by
  unfold withdrawn
  split
  · rename_i hact
    have hmem : ∀ w ∈ (k.semTable n).waiting, w.1 ≠ pid := fun w hw e =>
      h ⟨n, hact, List.mem_map.mpr ⟨w, hw, e⟩⟩
    have hrem : removePid (k.semTable n).waiting pid = (k.semTable n).waiting :=
      List.filter_eq_self.mpr fun w hw => decide_eq_true (hmem w hw)
    have hcount : removedCount (k.semTable n).waiting pid = 0 := by
      unfold removedCount
      rw [List.countP_eq_zero.mpr fun w hw => by simpa using hmem w hw]
      rfl
    rw [hrem, hcount]
    unfold Semaphore.addValue
    rw [Semaphore.setWaiting_value, Int.add_zero]
    rfl
  · rfl

section Paths

variable {k k₁ k' : Kernel} {i : Slot} {pid : Int}

theorem withdrawn_of_prep (hsem : ∀ n, k₁.semTable n = k.withdrawn pid n)
    (hpipes : SamePipes k k₁) (hfds : (k₁.proc i).fds = (k.proc i).fds) (hquiet : ¬ k₁.Waiting pid)
    (hk' : k'.semTable = (k₁.closeProcessFds i).semTable) : Withdrawn k k' i pid := by
  refine ⟨?_, ⟨k₁, hsem, hpipes, hfds, hk'⟩, fun n hn => ?_⟩
  · have hq : ¬ (k₁.closeProcessFds i).Waiting pid :=
      closeProcessFds_invariant (P := fun k => ¬ k.Waiting pid) hquiet
        (fun _ _ h hr hw => h (hr.shrink pid hw)) fun _ _ _ h => h
    unfold Waiting at hq ⊢
    rw [hk']
    exact hq
  · rw [hk', closeProcessFds_other, hsem]
    rw [hfds]
    exact fun fd p w he => (SamePipes.apart hpipes p).mpr (hn fd p w he)

theorem counts_of_prep (hpipes : SamePipes k k₁) (hfds : (k₁.proc i).fds = (k.proc i).fds)
    (hk' : k'.pipeTable = (k₁.closeProcessFds i).pipeTable) (p : Fin maxPipes)
    (hp : (k.pipeTable p).active = true) :
    (k'.pipeTable p).readers = (k.pipeTable p).readers -
      (List.finRange maxFds).countP (fun fd => endOf ((k.proc i).fds fd) = some (p, false)) ∧
    (k'.pipeTable p).writers = (k.pipeTable p).writers -
      (List.finRange maxFds).countP (fun fd => endOf ((k.proc i).fds fd) = some (p, true)) := by
  have hset : Ends.Settled k₁.ends p := by
    left
    rw [ends_eq hpipes]
    exact hp
  have hheld : ∀ v, (k₁.closeProcessFds i).ends.held p v = k.ends.held p v -
      (List.finRange maxFds).countP (fun fd => endOf ((k.proc i).fds fd) = some (p, v)) := by
    intro v
    rw [closeProcessFds_ends, hset.foldl_held, List.countP_map, ends_eq hpipes, hfds]
    rfl
  rw [hk']
  exact ⟨hheld false, hheld true⟩

end Paths

theorem unqueued_of_over {s : Sched} {i : Slot} (h : Ordered (fun _ => False) (fun _ => False) s)
    (hi : (s.life i).state = .dead ∨ (s.life i).state = .zombie) :
    ∃ L, Queues s L ∧ ∀ q, i ∉ L q := by
  obtain ⟨L, hL⟩ := h.lists
  refine ⟨L, hL, hL.not_mem (h.retired i ?_)⟩
  have hstate : (s.processTable i).state = (s.life i).state := rfl
  rcases hi with hd | hz
  · rw [hstate, hd]
    trivial
  · rw [hstate, hz]
    trivial

theorem exitPrep_fds (k : Kernel) (cur : Slot) (status : Int) :
    ((k.exitPrep cur status).proc cur).fds = (k.proc cur).fds := by
  refine ((Sched.restoreParentForeground_fgOnly _ cur).field cur PCB.fds fun _ => rfl).trans ?_
  rw [onSched_sched, Sched.modify_core, Function.update_self]
  rfl

theorem killPrep_fds (k : Kernel) (i : Slot) (pid : Int) :
    ((k.killPrep i pid).proc i).fds = (k.proc i).fds := by
  refine ((Sched.restoreParentForeground_fgOnly _ i).field i PCB.fds fun _ => rfl).trans ?_
  rw [onSched_sched, (k.sched.removeFromReadyQueue_requeued i).core]
  rfl

/-- **`scheduler_exit_current`** leaves nothing behind but an entry in a
semaphore. -/
theorem schedulerExitCurrent_clean {k : Kernel} (hs : Sound k) {cur : Slot}
    (hcur : k.sched.currentIdx = cur) (h0 : cur ≠ 0) (h1 : 1 < (k.life cur).pid) (status : Int) :
    Clean k (k.schedulerExitCurrent status) cur (k.life cur).pid ∧
      (¬ k.Waiting (k.life cur).pid →
        Withdrawn k (k.schedulerExitCurrent status) cur (k.life cur).pid) := by
  have h0' : k.sched.currentIdx ≠ 0 := hcur ▸ h0
  have hlife := k.schedulerExitCurrent_life h0' status
  have hord := schedulerExitCurrent_ordered hs.ordered status
  have hpipes : SamePipes k (k.exitPrep cur status) := ⟨rfl, rfl, rfl, rfl, rfl⟩
  have hfds := k.exitPrep_fds cur status
  obtain ⟨hand, heq⟩ : ∃ hand, k.schedulerExitCurrent status =
      ((k.exitPrep cur status).closeProcessFds cur).onSched fun s =>
        leave s cur (k.life cur).pid hand := by
    unfold schedulerExitCurrent
    rw [if_neg h0', hcur]
    exact ⟨_, rfl⟩
  have hpid : (((k.exitPrep cur status).closeProcessFds cur).sched.core cur).pid ≠ 1 := by
    rw [closeProcessFds_field _ cur cur PCB.pid (fun _ => rfl) fun _ _ _ => rfl]
    have hp := congrArg Life.pid (k.exitPrep_life cur status cur)
    rw [if_pos rfl] at hp
    have hp' : ((k.exitPrep cur status).sched.core cur).pid = (k.life cur).pid := hp
    omega
  have hcore : (k.schedulerExitCurrent status).sched.core cur =
      (ended (((k.exitPrep cur status).closeProcessFds cur).sched.core cur)).core := by
    rw [heq, onSched_sched, leave_core _ _ hpid]
  refine ⟨⟨?_, fun fd => ?_, ?_, ?_, fun j hb => ?_⟩, fun hquiet => ?_⟩
  · refine unqueued_of_over hord (.inr ?_)
    obtain ⟨l, -, hl⟩ := hlife cur
    rw [if_pos hcur.symm] at hl
    exact congrArg Life.state hl
  · show ((k.schedulerExitCurrent status).sched.core cur).fds fd = _
    rw [hcore]
    exact ((k.exitPrep cur status).closeProcessFds_fds cur cur fd).trans (if_pos rfl)
  · exact counts_of_prep hpipes hfds (by rw [heq, onSched_pipeTable])
  · show ((k.schedulerExitCurrent status).sched.core cur).foreground = _
    rw [hcore]
    refine (closeProcessFds_field _ cur cur PCB.foreground (fun _ => rfl) fun _ _ _ => rfl).trans ?_
    exact Sched.restoreParentForeground_self _ cur
  · obtain ⟨l, -, hl⟩ := hlife j
    rw [hcur] at hl
    have hb' : ((k.schedulerExitCurrent status).life j).state = .blocked := hb
    show ((k.schedulerExitCurrent status).life j).waitingFor ≠ _
    rw [hl] at hb' ⊢
    split at hb'
    · cases hb'
    · rename_i hj
      rw [if_neg hj]
      exact Life.woken_unawaited h1 hb'
  · have hsem : ∀ n, (k.exitPrep cur status).semTable n = k.withdrawn (k.life cur).pid n :=
      fun n => (withdrawn_of_quiet hquiet n).symm
    refine withdrawn_of_prep hsem hpipes hfds hquiet ?_
    rw [heq, onSched_semTable]

/-- **`scheduler_kill`** of another process leaves nothing behind. -/
theorem killOther_clean {k : Kernel} (hs : Sound k) {i : Slot} {pid : Int}
    (hi : k.sched.findIndexByPid pid = some i) (h1 : 1 < pid) :
    Clean k (k.killOther i pid) i pid ∧ Withdrawn k (k.killOther i pid) i pid := by
  have hlife := k.killOther_life hi
  have hord := killOther_ordered hs.ordered hi
  have hpipes : SamePipes k (k.killPrep i pid) := ⟨rfl, rfl, rfl, rfl, rfl⟩
  have hfds := k.killPrep_fds i pid
  have hpid : (((k.killPrep i pid).closeProcessFds i).sched.core i).pid ≠ 1 := by
    rw [closeProcessFds_field _ i i PCB.pid (fun _ => rfl) fun _ _ _ => rfl]
    have hp := congrArg Life.pid (congrFun (k.killPrep_life i pid) i)
    have hp' : ((k.killPrep i pid).sched.core i).pid = (k.sched.core i).pid := hp
    have hf : (k.sched.core i).pid = pid := (Sched.findIndexByPid_some hi).1
    omega
  obtain ⟨stack, hcore⟩ := bury_core pid hpid
  have hcore' : (k.killOther i pid).sched.core i = { (killed
      (((k.killPrep i pid).closeProcessFds i).sched.core i)).core with stackBase := stack } := by
    rw [killOther, onSched_sched, hcore]
  have hsem : (k.killOther i pid).semTable = ((k.killPrep i pid).closeProcessFds i).semTable := by
    rw [killOther, onSched_semTable]
  have htable : (k.killOther i pid).pipeTable
      = ((k.killPrep i pid).closeProcessFds i).pipeTable := by
    rw [killOther, onSched_pipeTable]
  generalize k.killOther i pid = k' at hlife hord hcore' hsem htable ⊢
  refine ⟨⟨?_, fun fd => ?_, ?_, ?_, fun j hb => ?_⟩, ?_⟩
  · refine unqueued_of_over hord (.inl ?_)
    obtain ⟨l, -, hl⟩ := hlife i
    rw [if_pos rfl] at hl
    exact congrArg Life.state hl
  · show (k'.sched.core i).fds fd = _
    rw [hcore']
    exact ((k.killPrep i pid).closeProcessFds_fds i i fd).trans (if_pos rfl)
  · exact counts_of_prep hpipes hfds htable
  · show (k'.sched.core i).foreground = _
    rw [hcore']
    refine (closeProcessFds_field _ i i PCB.foreground (fun _ => rfl) fun _ _ _ => rfl).trans ?_
    exact Sched.restoreParentForeground_self _ i
  · obtain ⟨l, -, hl⟩ := hlife j
    have hb' : (k'.life j).state = .blocked := hb
    show (k'.life j).waitingFor ≠ _
    rw [hl] at hb' ⊢
    split at hb'
    · cases hb'
    · rename_i hj
      rw [if_neg hj]
      exact Life.woken_unawaited h1 hb'
  · refine withdrawn_of_prep (fun _ => rfl) hpipes hfds ?_ hsem
    exact fun hw => ((waiting_semRemoveWaitingPid _ pid pid).mp hw).2 rfl

/-- **Kill leaves no residue.**  In every state the kernel reaches, a successful
`scheduler_kill` takes the process off the ready queues, closes its
descriptors, gives up the foreground and wakes those who wait for it; unless
the process is the current one and has an entry in a semaphore, the entries of
its pid are taken out as well. -/
theorem schedulerKill_leaves_no_residue {idleStack : Nat} {k : Kernel} {pid : Int}
    (h : machine.Reach (init idleStack) k) (hret : (k.schedulerKill pid).2 = 0) :
    ∃ i, k.sched.findIndexByPid pid = some i ∧
      Clean k (k.schedulerKill pid).1 i pid ∧
      (i ≠ k.sched.currentIdx ∨ ¬ k.Waiting pid → Withdrawn k (k.schedulerKill pid).1 i pid) := by
  have hs : Sound k := reach_sound h
  by_cases hpid : pid ≤ 1
  · rw [schedulerKill, if_pos hpid] at hret
    cases hret
  · rcases hi : k.sched.findIndexByPid pid with - | i
    · rw [schedulerKill, if_neg hpid, hi] at hret
      cases hret
    · have hpi : (k.life i).pid = pid := (Sched.findIndexByPid_some hi).1
      refine ⟨i, rfl, ?_⟩
      simp only [schedulerKill, if_neg hpid, hi]
      by_cases hcur : i = k.sched.currentIdx
      · rw [if_pos hcur]
        have h0 : i ≠ 0 := by
          rintro rfl
          have := hs.pids.idle.1
          omega
        obtain ⟨hclean, hwith⟩ :=
          schedulerExitCurrent_clean hs hcur.symm h0 (by rw [hpi]; omega) (-1)
        rw [hpi] at hclean hwith
        exact ⟨hclean, fun hc => hwith (hc.resolve_left fun hne => hne hcur)⟩
      · rw [if_neg hcur]
        obtain ⟨hclean, hwith⟩ := killOther_clean hs hi (by omega)
        exact ⟨hclean, fun _ => hwith⟩

/-- A child waits for a byte in the queue of the data semaphore when the shell
kills it. -/
theorem schedulerKill_leaves_no_residue_reader : ∃ k : Kernel,
    machine.Reach (init 1000) k ∧ k.Waiting 2 ∧
      ∃ i, Clean k (k.schedulerKill 2).1 i 2 ∧ Withdrawn k (k.schedulerKill 2).1 i 2 := by
  obtain ⟨k, hk, hw, hcur, hret⟩ := machine.exists_reach_of_trace (s := init 1000)
    [.create [115] 3 1 5000, .tick 0, .pipeOpen 4, .create [99] 3 1 9000, .pipeSetFd 2 0 0 false,
      .yield, .tick 0, .pipeRead 0, .tick 0]
    (P := fun k => k.Waiting 2 ∧ k.sched.findIndexByPid 2 ≠ some k.sched.currentIdx ∧
      (k.schedulerKill 2).2 = 0) (by decide +kernel)
  obtain ⟨i, hi, hclean, hwith⟩ := schedulerKill_leaves_no_residue hk hret
  exact ⟨k, hk, hw, i, hclean, hwith (.inl fun he => hcur (hi.trans (congrArg some he)))⟩

/-- **A killed process stays in a queue**: the reader is still current, blocked
in its read, when it is killed from the keyboard. -/
theorem schedulerKill_leaves_entry : ∃ k : Kernel,
    machine.Reach (init 1000) k ∧ findForeground k.sched = some 2 ∧ (k.proc 2).pid = 2 ∧
      k.sched.currentIdx = 2 ∧ (k.proc 2).state = .blocked ∧
      (k.schedulerKill 2).2 = 0 ∧ (k.schedulerKill 2).1.Waiting 2 := by
  refine machine.exists_reach_of_trace (s := init 1000)
    [.create [115] 3 1 5000, .tick 0, .pipeOpen 4, .create [99] 3 1 9000, .pipeSetFd 2 0 0 false,
      .yield, .tick 0, .pipeRead 0] ?_
  decide +kernel

end Kernel

end TP2Kernel
