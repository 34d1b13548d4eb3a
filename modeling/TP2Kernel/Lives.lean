/-
TP2Kernel/Lives.lean

The life cycle of processes.  The life of a process is what decides how it
goes on: its pids, its state, whom it waits for, how it ended and its stack.
`LifeStep k op j l` lists what one piece of kernel code can make of the life
in slot `j`; `exec_lifeStep` says that the list is complete.  Everything about
the order of events in a process's life is read off this list.

The calls that end a process wake others twice: through the semaphores of the
pipes they close (`Waiting`), and through `waiting_for`.
-/
import TP2Kernel.ReadyQueueRun

namespace TP2Kernel

/-- What decides how a process goes on. -/
structure Life where
  pid : Int
  parentPid : Int
  state : ProcState
  waitingFor : Int
  exitStatus : Int
  stackBase : Nat
  priority : Int

/-- The life of a process. -/
def PCB.life (p : PCB) : Life :=
  ⟨p.pid, p.parentPid, p.state, p.waitingFor, p.exitStatus, p.stackBase, p.priority⟩

/-- The life in a slot. -/
def Sched.life (s : Sched) (j : Slot) : Life := (s.core j).life

/-- The life in a slot. -/
def Kernel.life (k : Kernel) (j : Slot) : Life := k.sched.life j

namespace Life

/-- The life in another state. -/
def setState (l : Life) (state : ProcState) : Life := { l with state := state }

/-- A process that waits for the end of `pid` goes on; the idle process is
never made ready. -/
def woken (pid : Int) (j : Slot) (l : Life) : Life :=
  if l.state = .blocked ∧ l.waitingFor = pid then
    { l with waitingFor := -1, state := if j = 0 then .blocked else .ready }
  else l

/-- A process that has ended with a status. -/
def ended (l : Life) (status : Int) : Life := { l with state := .zombie, exitStatus := status }

/-- A process that has been killed; its stack is given back unless it is the
idle one. -/
def killed (l : Life) (idleStack : Nat) : Life :=
  { l with
    state := .dead, waitingFor := -1
    stackBase := if l.stackBase ≠ idleStack then 0 else l.stackBase }

/-- The process can run. -/
def Awake (l : Life) : Prop := l.state = .ready ∨ l.state = .running

instance (l : Life) : Decidable l.Awake := inferInstanceAs (Decidable (_ ∨ _))

theorem Awake.ne_dead {l : Life} (h : l.Awake) : l.state ≠ .dead := by
  rcases h with h | h <;> rw [h] <;> rintro ⟨⟩

theorem Awake.ne_blocked {l : Life} (h : l.Awake) : l.state ≠ .blocked := by
  rcases h with h | h <;> rw [h] <;> rintro ⟨⟩

theorem woken_of_ne {pid : Int} {j : Slot} {l : Life} (h : l.state ≠ .blocked) :
    l.woken pid j = l := if_neg fun hb => h hb.1

theorem Awake.woken {l : Life} (h : l.Awake) (pid : Int) (j : Slot) : (l.woken pid j).Awake := by
  rwa [woken_of_ne h.ne_blocked]

theorem woken_dead (l : Life) (pid : Int) (j : Slot) :
    (l.woken pid j).state = .dead ↔ l.state = .dead := by
  unfold woken
  split
  · rename_i hw
    rw [hw.1]
    split <;> exact iff_of_false (by rintro ⟨⟩) (by rintro ⟨⟩)
  · rfl

/-- Nobody is left waiting. -/
theorem woken_unawaited {l : Life} {pid : Int} {j : Slot} (h1 : 1 < pid)
    (hb : (l.woken pid j).state = .blocked) : (l.woken pid j).waitingFor ≠ pid := by
  unfold woken at hb ⊢
  split at hb
  · rename_i hw
    rw [if_pos hw]
    show (-1 : Int) ≠ pid
    omega
  · rename_i hw
    rw [if_neg hw]
    exact fun he => hw ⟨hb, he⟩

end Life

/-! ### Lives under the scheduler's steps -/

theorem Sched.FgOnly.life {s s' : Sched} (h : Sched.FgOnly s s') : s'.life = s.life := by
  funext j
  exact h.field j PCB.life fun _ => rfl

theorem Sched.life_of_core {s s' : Sched} (h : s'.core = s.core) : s'.life = s.life := by
  funext j
  unfold Sched.life
  rw [h]

/-- One process changes. -/
theorem Sched.life_update {s s' : Sched} {i : Slot} {p : PCB}
    (h : s'.core = Function.update s.core i p) (j : Slot) :
    s'.life j = if j = i then p.life else s.life j := by
  unfold Sched.life
  rw [h]
  by_cases hj : j = i
  · subst hj
    rw [Function.update_self, if_pos rfl]
  · rw [Function.update_of_ne hj, if_neg hj]

theorem Sched.modify_life (s : Sched) (i : Slot) {f : PCB → PCB} (hf : ∀ p, (f p).life = p.life) :
    (s.modify i f).life = s.life := by
  funext j
  rw [Sched.life_update (s.modify_core i f)]
  split
  · rename_i hj
    rw [hj]
    exact hf _
  · rfl

/-- Blocked processes with pids in `S` may be ready now. -/
theorem Wakes.life {S : Int → Prop} {s s' : Sched} (h : Wakes S s s') (j : Slot) :
    s'.life j = s.life j ∨
      (s.life j).state = .blocked ∧ S (s.life j).pid ∧ s'.life j = (s.life j).setState .ready := by
  unfold Sched.life
  rcases h.core j with hc | ⟨hb, hp, hc⟩
  · exact .inl (congrArg PCB.life hc)
  · exact .inr ⟨hb, hp, congrArg PCB.life hc⟩

theorem Sched.wakeWaiters_life (s : Sched) (pid : Int) (hand : Bool) (j : Slot) :
    (s.wakeWaiters pid hand).life j = (s.life j).woken pid j := by
  unfold Sched.life
  rw [s.wakeWaiters_core, Sched.wokenCore, Life.woken]
  by_cases hw : (s.core j).state = .blocked ∧ (s.core j).waitingFor = pid
  · have hw' : (s.core j).life.state = .blocked ∧ (s.core j).life.waitingFor = pid := hw
    rw [if_pos hw, if_pos hw']
    have hst : (if j = 0 then ProcState.blocked else ProcState.ready)
        = if j = 0 then (s.core j).state else ProcState.ready := by rw [hw.1]
    rw [hst]
    cases hand <;> by_cases h0 : j = 0 <;> simp only [h0, if_true, if_false] <;> rfl
  · have hw' : ¬ ((s.core j).life.state = .blocked ∧ (s.core j).life.waitingFor = pid) := hw
    rw [if_neg hw, if_neg hw']

namespace Kernel

variable (k : Kernel)

theorem onSched_life (f : Sched → Sched) (j : Slot) :
    (k.onSched f).life j = (f k.sched).life j := rfl

/-- **Closing descriptors** wakes waiting processes and does nothing else to
lives. -/
theorem closeProcessFds_life (i j : Slot) :
    (k.closeProcessFds i).life j = k.life j ∨
      (k.life j).state = .blocked ∧ k.Waiting (k.life j).pid ∧
        (k.closeProcessFds i).life j = (k.life j).setState .ready := by
  have h := closeProcessFds_invariant (k := k) (i := i)
    (P := fun k' => (∀ pid, k'.Waiting pid → k.Waiting pid) ∧
      (k'.life j = k.life j ∨ (k.life j).state = .blocked ∧ k.Waiting (k.life j).pid ∧
        k'.life j = (k.life j).setState .ready)) ⟨fun _ hw => hw, .inl rfl⟩ ?_ ?_
  · exact h.2
  · rintro k₁ k₂ ⟨hwait, hlife⟩ hr
    refine ⟨fun pid hw => hwait pid (hr.shrink pid hw), ?_⟩
    rcases hr.wakes.life j with hsame | ⟨hb, hp, hnew⟩
    · rcases hlife with hl | ⟨hb, hp, hl⟩
      · exact .inl (hsame.trans hl)
      · exact .inr ⟨hb, hp, hsame.trans hl⟩
    · have hb₁ : (k₁.life j).state = .blocked := hb
      rcases hlife with hl | ⟨-, -, hl⟩
      · rw [hl] at hb₁
        have hp₁ : k₁.Waiting (k₁.life j).pid := hp
        have hnew₁ : k₂.life j = (k₁.life j).setState .ready := hnew
        rw [hl] at hp₁ hnew₁
        exact .inr ⟨hb₁, hwait _ hp₁, hnew₁⟩
      · rw [hl] at hb₁
        cases hb₁
  · rintro k₁ fd d ⟨hwait, hlife⟩
    have hsame : (k₁.onSched fun s => s.modify i (setFd fd d)).life j = k₁.life j :=
      congrFun (k₁.sched.modify_life i (f := setFd fd d) fun _ => rfl) j
    rw [hsame]
    exact ⟨hwait, hlife⟩

theorem leave_life (s : Sched) (cur : Slot) (pid : Int) (hand : Bool) (j : Slot) :
    (leave s cur pid hand).life j =
      (if j = cur then (s.life cur).setState .zombie else s.life j).woken pid j := by
  simp only [leave]
  rw [(Sched.ensureForegroundOwner_fgOnly _).life, Sched.wakeWaiters_life]
  congr 1
  have hc : ((s.removeFromReadyQueue cur).modify cur ended).core
      = Function.update s.core cur (ended (s.core cur)).core :=
    Sched.modify_core_of (s.removeFromReadyQueue_requeued cur).core cur
      (fun p => (ended p).core) fun _ => rfl
  exact Sched.life_update (s := s) hc j

theorem bury_life (s : Sched) (i : Slot) (pid : Int) (j : Slot) :
    (bury s i pid).life j =
      (if j = i then (s.life i).killed s.idleStack else s.life j).woken pid j := by
  simp only [bury]
  rw [(Sched.ensureForegroundOwner_fgOnly _).life, Sched.wakeWaiters_life]
  congr 1
  have h1 : (s.modify i killed).core = Function.update s.core i (killed (s.core i)).core :=
    Sched.modify_core_of rfl i (fun p => (killed p).core) fun _ => rfl
  have hstack : ((s.modify i killed).processTable i).stackBase = (s.life i).stackBase := by
    rw [Sched.modify_self]
    rfl
  rw [hstack]
  unfold Life.killed
  by_cases hs : (s.life i).stackBase ≠ s.idleStack
  · have hs' : (s.life i).stackBase ≠ (s.modify i killed).idleStack := hs
    rw [if_pos hs', if_pos hs]
    have h2 : (((s.modify i killed).freeStack (s.life i).stackBase).modify i fun p =>
        { p with stackBase := 0 }).core
        = Function.update s.core i { (killed (s.core i)).core with stackBase := 0 } := by
      have := Sched.modify_core_of (s := (s.modify i killed).freeStack (s.life i).stackBase) h1 i
        (f := fun p => { p with stackBase := 0 }) (fun p => { p with stackBase := 0 }) fun _ => rfl
      rwa [Function.update_self, Function.update_idem] at this
    exact Sched.life_update (s := s) h2 j
  · have hs' : ¬ (s.life i).stackBase ≠ (s.modify i killed).idleStack := hs
    rw [if_neg hs', if_neg hs]
    exact Sched.life_update (s := s) h1 j

theorem exitPrep_life (cur : Slot) (status : Int) (j : Slot) :
    (k.exitPrep cur status).life j =
      if j = cur then { k.life cur with exitStatus := status } else k.life j := by
  unfold life exitPrep
  rw [onSched_sched, (Sched.restoreParentForeground_fgOnly _ cur).life, onSched_sched,
    Sched.life_update (k.sched.modify_core cur _)]
  rfl

theorem killPrep_life (i : Slot) (pid : Int) : (k.killPrep i pid).life = k.life := by
  have h := (Sched.restoreParentForeground_fgOnly (k.sched.removeFromReadyQueue i) i).life
  have h' := Sched.life_of_core (k.sched.removeFromReadyQueue_requeued i).core
  exact h.trans h'

theorem exitPrep_frame (cur : Slot) (status : Int) :
    Frame k.sched (k.exitPrep cur status).sched :=
  (Frame.modify _ _ _).trans (Sched.restoreParentForeground_frame _ _)

theorem killPrep_frame (i : Slot) (pid : Int) : Frame k.sched (k.killPrep i pid).sched :=
  (k.sched.removeFromReadyQueue_requeued i).frame.trans (Sched.restoreParentForeground_frame _ i)

theorem leave_frame (s : Sched) (cur : Slot) (pid : Int) (hand : Bool) :
    Frame s (leave s cur pid hand) := by
  simp only [leave]
  refine .trans ?_ (Sched.ensureForegroundOwner_frame _)
  refine .trans ?_ (Sched.wakeWaiters_frame _ _ _)
  exact ((s.removeFromReadyQueue_requeued cur).frame.trans (.modify _ _ _)).trans (.resched _)

/-- The life of a process that may have been woken through a semaphore. -/
def MaybeReady (j : Slot) (l : Life) : Prop :=
  l = k.life j ∨
    (k.life j).state = .blocked ∧ k.Waiting (k.life j).pid ∧ l = (k.life j).setState .ready

/-- **`scheduler_exit_current`** on lives. -/
theorem schedulerExitCurrent_life (h0 : k.sched.currentIdx ≠ 0) (status : Int) (j : Slot) :
    ∃ l, k.MaybeReady j l ∧
      (k.schedulerExitCurrent status).life j =
        if j = k.sched.currentIdx then (k.life j).ended status
        else l.woken (k.life k.sched.currentIdx).pid j := by
  generalize hcur : k.sched.currentIdx = cur at h0
  have hprep := k.exitPrep_life cur status j
  have hclose := (k.exitPrep cur status).closeProcessFds_life cur j
  have hexit : (k.schedulerExitCurrent status).life j =
      (if j = cur then (((k.exitPrep cur status).closeProcessFds cur).life cur).setState .zombie
        else ((k.exitPrep cur status).closeProcessFds cur).life j).woken (k.life cur).pid j := by
    unfold schedulerExitCurrent
    rw [hcur, if_neg h0, onSched_life, leave_life]
    rfl
  rw [hexit]
  by_cases hj : j = cur
  · subst hj
    refine ⟨k.life j, .inl rfl, ?_⟩
    rw [if_pos rfl] at hprep
    rw [if_pos rfl, if_pos rfl, Life.woken_of_ne (by rintro ⟨⟩)]
    rcases hclose with hl | ⟨-, -, hl⟩
    · rw [hl, hprep]
      rfl
    · rw [hl, hprep]
      rfl
  · rw [if_neg hj] at hprep
    refine ⟨_, ?_, by rw [if_neg hj, if_neg hj]⟩
    rw [hprep] at hclose
    exact hclose

/-- **`scheduler_kill`** of another process on lives. -/
theorem killOther_life {i : Slot} {pid : Int} (hi : k.sched.findIndexByPid pid = some i)
    (j : Slot) :
    ∃ l, k.MaybeReady j l ∧
      (k.killOther i pid).life j =
        if j = i then (k.life i).killed k.sched.idleStack else l.woken pid j := by
  have hclose := (k.killPrep i pid).closeProcessFds_life i j
  have hidle : ((k.killPrep i pid).closeProcessFds i).sched.idleStack = k.sched.idleStack :=
    ((k.killPrep_frame i pid).trans ((k.killPrep i pid).closeProcessFds_frame i)).idleStack
  have hkill : (k.killOther i pid).life j =
      (if j = i then (((k.killPrep i pid).closeProcessFds i).life i).killed k.sched.idleStack
        else ((k.killPrep i pid).closeProcessFds i).life j).woken pid j := by
    rw [← hidle, killOther, onSched_life, bury_life]
    rfl
  rw [hkill]
  rw [killPrep_life] at hclose
  by_cases hj : j = i
  · subst hj
    refine ⟨k.life j, .inl rfl, ?_⟩
    rw [if_pos rfl, if_pos rfl, Life.woken_of_ne (by rintro ⟨⟩)]
    rcases hclose with hl | ⟨-, -, hl⟩
    · rw [hl]
    · rw [hl]
      rfl
  · refine ⟨_, ?_, by rw [if_neg hj, if_neg hj]⟩
    rcases hclose with hl | ⟨hb, hw, hl⟩
    · exact .inl hl
    · exact .inr ⟨hb, ((waiting_semRemoveWaitingPid _ _ _).mp hw).1, hl⟩

/-! ### One piece of kernel code -/

/-- The process that a call ends. -/
def target : Op → Option Slot
  | .exit _ => if k.sched.currentIdx = 0 then none else some k.sched.currentIdx
  | .kill pid => if pid ≤ 1 then none else k.sched.findIndexByPid pid
  | .killForeground =>
      (findForeground k.sched).bind fun i =>
        if (k.proc i).pid ≤ 1 then none else k.sched.findIndexByPid (k.proc i).pid
  | _ => none

/-- The status with which a call ends the current process. -/
def exitCode : Op → Int
  | .exit status => status
  | _ => -1

/-- The caller is put into the queue of a semaphore. -/
def Parks : Op → Prop
  | .semWait semId => (k.semWait semId).2 = 1
  | .pipeRead p => (k.pipeReadStep p).2 = .blocked
  | .pipeWrite p c => (k.pipeWriteStep p c).2 = .blocked
  | _ => False

/-- A semaphore may be posted. -/
def Posts : Op → Prop
  | .kill _ | .killForeground | .exit _ | .semPost _ | .semPostAll _ | .semClose _
  | .pipeClose _ _ | .pipeSetFd _ _ _ _ | .pipeRead _ | .pipeWrite _ _ => True
  | _ => False

/-- What one piece of kernel code can make of the life in a slot. -/
inductive LifeStep : Op → Slot → Life → Prop
  | keeps (op : Op) (j : Slot) : LifeStep op j (k.life j)
  | creates {name : List UInt8} {priority fg : Int} {stack : Nat} {j : Slot} {pr : Int}
      (hj : k.sched.findFreeSlot = some j) (hstack : stack ≠ 0) (hpr : 1 ≤ pr ∧ pr ≤ 5) :
      LifeStep (.create name priority fg stack) j
        ⟨k.sched.nextPid, (k.life k.sched.currentIdx).pid, .ready, -1, 0, stack, pr⟩
  | renices {pid pr : Int} {j : Slot} (hj : k.sched.findIndexByPid pid = some j)
      (hpr : 1 ≤ pr ∧ pr ≤ 5) : LifeStep (.nice pid pr) j { k.life j with priority := pr }
  | wakes {op : Op} {j : Slot} (hb : (k.life j).state = .blocked)
      (hw : Posts op ∧ k.Waiting (k.life j).pid ∨ op = .unblock (k.life j).pid) :
      LifeStep op j ((k.life j).setState .ready)
  | releases {op : Op} {i j : Slot} (ht : k.target op = some i)
      (hb : (k.life j).state = .blocked) (hw : (k.life j).waitingFor = (k.life i).pid) :
      LifeStep op j ((k.life j).woken (k.life i).pid j)
  | blocks {pid : Int} {j : Slot} (hj : k.sched.findIndexByPid pid = some j) :
      LifeStep (.block pid) j ((k.life j).setState .blocked)
  | parks {op : Op} {j : Slot} (hop : k.Parks op)
      (hj : k.sched.findIndexByPid k.sched.schedulerGetpid = some j) :
      LifeStep op j ((k.life j).setState .blocked)
  | waits {pid : Int} {i : Slot} (hpid : 0 < pid) (hi : k.sched.findIndexByPid pid = some i)
      (hparent : (k.life i).parentPid = (k.life k.sched.currentIdx).pid) (hz : (k.life i).state ≠ .zombie) :
      LifeStep (.wait pid) k.sched.currentIdx
        { k.life k.sched.currentIdx with state := .blocked, waitingFor := pid }
  | reaps {pid : Int} {j : Slot} (hpid : 0 < pid) (hj : k.sched.findIndexByPid pid = some j)
      (hparent : (k.life j).parentPid = (k.life k.sched.currentIdx).pid) (hz : (k.life j).state = .zombie) :
      LifeStep (.wait pid) j ⟨0, 0, .dead, -1, 0, 0, 0⟩
  | ends {op : Op} (ht : k.target op = some k.sched.currentIdx) (h0 : k.sched.currentIdx ≠ 0) :
      LifeStep op k.sched.currentIdx ((k.life k.sched.currentIdx).ended (exitCode op))
  | kills {op : Op} {i : Slot} (ht : k.target op = some i) (hi : i ≠ k.sched.currentIdx) :
      LifeStep op i ((k.life i).killed k.sched.idleStack)
  | preempts {rsp : Nat} (hrun : (k.life k.sched.currentIdx).state = .running) :
      LifeStep (.tick rsp) k.sched.currentIdx ((k.life k.sched.currentIdx).setState .ready)
  | dispatches {rsp : Nat} {j : Slot}
      (hj : j = 0 ∨ (k.life j).state ≠ .dead ∧ (k.life j).state ≠ .zombie) :
      LifeStep (.tick rsp) j ((k.life j).setState .running)

theorem LifeStep.of_eq {k : Kernel} {op : Op} {j : Slot} {l l' : Life} (h : k.LifeStep op j l)
    (e : l' = l) : k.LifeStep op j l' := e ▸ h

theorem posts_of_target {op : Op} {i : Slot} (ht : k.target op = some i) : Posts op := by
  cases op with
  | kill _ => exact trivial
  | killForeground => exact trivial
  | exit _ => exact trivial
  | _ => cases ht

/-- The processes a call does not end. -/
theorem lifeStep_bystander {op : Op} {i j : Slot} {l : Life} (ht : k.target op = some i)
    (hl : k.MaybeReady j l) : k.LifeStep op j (l.woken (k.life i).pid j) := by
  rcases hl with rfl | ⟨hb, hw, rfl⟩
  · by_cases hwait : (k.life j).state = .blocked ∧ (k.life j).waitingFor = (k.life i).pid
    · exact .releases ht hwait.1 hwait.2
    · have hself : (k.life j).woken (k.life i).pid j = k.life j := if_neg hwait
      rw [hself]
      exact .keeps op j
  · rw [Life.woken_of_ne (by rintro ⟨⟩)]
    exact .wakes hb (.inl ⟨k.posts_of_target ht, hw⟩)

theorem schedulerExitCurrent_lifeStep {op : Op} (ht : k.target op = some k.sched.currentIdx)
    (j : Slot) : k.LifeStep op j ((k.schedulerExitCurrent (exitCode op)).life j) := by
  by_cases h0 : k.sched.currentIdx = 0
  · unfold schedulerExitCurrent
    rw [if_pos h0]
    exact .keeps op j
  · obtain ⟨l, hl, hlife⟩ := k.schedulerExitCurrent_life h0 (exitCode op) j
    rw [hlife]
    split
    · rename_i hj
      rw [hj]
      exact .ends ht h0
    · exact k.lifeStep_bystander ht hl

theorem schedulerKill_lifeStep {op : Op} {pid : Int}
    (ht : k.target op = if pid ≤ 1 then none else k.sched.findIndexByPid pid)
    (hcode : exitCode op = -1) (j : Slot) : k.LifeStep op j ((k.schedulerKill pid).1.life j) := by
  simp only [schedulerKill]
  by_cases hpid : pid ≤ 1
  · rw [if_pos hpid]
    exact .keeps op j
  · rw [if_neg hpid] at ht ⊢
    rcases hi : k.sched.findIndexByPid pid with - | i
    · exact .keeps op j
    · rw [hi] at ht
      simp only
      by_cases hcur : i = k.sched.currentIdx
      · rw [if_pos hcur, ← hcode]
        rw [hcur] at ht
        exact k.schedulerExitCurrent_lifeStep ht j
      · rw [if_neg hcur]
        obtain ⟨l, hl, hlife⟩ := k.killOther_life hi j
        rw [hlife]
        split
        · rename_i hj
          rw [hj]
          exact .kills ht hcur
        · have hpi : (k.life i).pid = pid := (Sched.findIndexByPid_some hi).1
          rw [← hpi]
          exact k.lifeStep_bystander ht hl

theorem lifeStep_of_wakes {op : Op} {s : Sched} (hop : Posts op)
    (hw : Wakes k.Waiting k.sched s) (j : Slot) : k.LifeStep op j (s.life j) := by
  rcases hw.life j with hl | ⟨hb, hp, hl⟩
  · rw [hl]
    exact .keeps op j
  · rw [hl]
    exact .wakes hb (.inl ⟨hop, hp⟩)

theorem schedulerBlock_life (s : Sched) {pid : Int} (j : Slot) :
    (s.schedulerBlock pid).life j =
      if s.findIndexByPid pid = some j then (s.life j).setState .blocked else s.life j := by
  rcases hi : s.findIndexByPid pid with - | i
  · rw [s.schedulerBlock_none hi, if_neg fun e => by cases e]
  · rw [Sched.life_update (s.schedulerBlock_core hi)]
    by_cases hj : j = i
    · rw [if_pos hj, if_pos (by rw [hj]), hj]
      rfl
    · rw [if_neg hj, if_neg fun e => hj (Option.some.inj e).symm]

theorem semWait_lifeStep {op : Op} {semId : Int} (hop : (k.semWait semId).2 = 1 → k.Parks op)
    (j : Slot) : k.LifeStep op j ((k.semWait semId).1.life j) := by
  show k.LifeStep op j ((k.semWait semId).1.sched.life j)
  rw [semWait_sched]
  split
  · rename_i hblocked
    rw [schedulerBlock_life]
    split
    · exact .parks (hop hblocked) ‹_›
    · exact .keeps op j
  · exact .keeps op j

/-- What the timer can make of the life in a slot: nothing, put the current
process back, or dispatch one that was allowed on a queue. -/
theorem schedulerTick_life {st : Slot → Prop} (hord : Ordered st (fun _ => False) k.sched)
    (rsp : Nat) (j : Slot) :
    (k.sched.schedulerTick rsp).1.life j = k.life j ∨
      (j = k.sched.currentIdx ∧ (k.life j).state = .running ∧
        (k.sched.schedulerTick rsp).1.life j = (k.life j).setState .ready) ∨
      ((j = 0 ∨ (k.life j).state = .running ∨ ¬ Unqueued (st j) (k.life j).state) ∧
        (k.sched.schedulerTick rsp).1.life j = (k.life j).setState .running) := by
  have h1 : Ordered st (fun _ => False) (k.sched.saveRsp rsp) :=
    hord.modify_kept (fun _ => rfl) (fun _ => rfl) (fun _ => rfl) fun _ => rfl
  have h2 : Ordered st (fun _ => False) (k.sched.saveRsp rsp).countTick :=
    h1.modify_kept (fun _ => rfl) (fun _ => rfl) (fun _ => rfl) fun _ => rfl
  have hl1 : (k.sched.saveRsp rsp).core = k.sched.core := k.sched.saveRsp_core rsp
  have hl2 : (k.sched.saveRsp rsp).countTick.core = k.sched.core :=
    (Sched.countTick_core _).trans hl1
  have hcase := k.sched.schedulerTick_cases rsp
  generalize (k.sched.schedulerTick rsp).1 = t at hcase
  cases hcase with
  | keeps _ => exact .inl (congrFun (Sched.life_of_core hl2) j)
  | preempts hrun =>
      have hrun' : (k.life k.sched.currentIdx).state = .running := hrun
      have hpb := (k.sched.saveRsp rsp).countTick.putBack_core
      have halive := h2.putBack.dequeueNextReady_alive
      have hcur : (k.sched.saveRsp rsp).countTick.currentIdx = k.sched.currentIdx := rfl
      rw [hcur, hl2] at hpb
      rw [Sched.life_update (Sched.dispatch_core _)]
      generalize (k.sched.saveRsp rsp).countTick.putBack = u at hpb halive ⊢
      have hu : u.life j = k.life j ∨
          j = k.sched.currentIdx ∧ u.life j = (k.life j).setState .ready := by
        split at hpb
        · rw [Sched.life_update hpb]
          split
          · rename_i hj
            subst hj
            exact .inr ⟨rfl, rfl⟩
          · exact .inl rfl
        · exact .inl (congrFun (Sched.life_of_core hpb) j)
      split
      · rename_i hj
        rw [← hj] at halive ⊢
        -- the process put back may be the one dispatched again
        have hlife : ((u.core j).setState .running).life = (u.life j).setState .running := rfl
        have hstate : (u.core j).state = (u.life j).state := rfl
        rw [hstate] at halive
        refine .inr (.inr ?_)
        rcases hu with hu | ⟨hcurj, hu⟩
        · rw [hu] at halive
          rw [hlife, hu]
          exact ⟨halive.imp_right .inr, rfl⟩
        · rw [hlife, hu]
          exact ⟨.inr (.inl (hcurj ▸ hrun')), rfl⟩
      · rcases hu with hu | ⟨hcurj, hu⟩
        · exact .inl hu
        · exact .inr (.inl ⟨hcurj, hcurj ▸ hrun', hu⟩)
  | switches _ =>
      have halive := h1.dequeueNextReady_alive
      rw [Sched.life_update (Sched.dispatch_core _)]
      generalize (k.sched.saveRsp rsp).dequeueNextReady.2 = n at halive ⊢
      rw [hl1] at halive ⊢
      split
      · rename_i hj
        subst hj
        exact .inr (.inr ⟨halive.imp_right .inr, rfl⟩)
      · exact .inl (congrFun (Sched.life_of_core hl1) j)

/-- The timer leaves a process that cannot run as it is, if no queue has it. -/
theorem tick_asleep {st : Slot → Prop} (hord : Ordered st (fun _ => False) k.sched) (rsp : Nat)
    {j : Slot} (h0 : j ≠ 0) (hst : st j) (hj : ¬ (k.life j).Awake) :
    (k.sched.schedulerTick rsp).1.life j = k.life j := by
  rcases k.schedulerTick_life hord rsp j with hl | ⟨-, hrun, -⟩ | ⟨hn, -⟩
  · exact hl
  · exact absurd (.inr hrun) hj
  · rcases hn.resolve_left h0 with hrun | hu
    · exact absurd (.inr hrun) hj
    · refine absurd ?_ hu
      rcases he : (k.life j).state with - | - | - | - | -
      case ready => exact absurd (.inl he) hj
      case blocked => exact hst
      all_goals trivial

theorem schedulerTick_lifeStep (hord : Ordered (fun _ => False) (fun _ => False) k.sched) (rsp : Nat)
    (j : Slot) : k.LifeStep (.tick rsp) j ((k.sched.schedulerTick rsp).1.life j) := by
  rcases k.schedulerTick_life hord rsp j with h | ⟨rfl, hrun, h⟩ | ⟨hj, h⟩
  · exact (LifeStep.keeps _ j).of_eq h
  · exact (LifeStep.preempts hrun).of_eq h
  · refine (LifeStep.dispatches (hj.imp_right fun hj => ?_)).of_eq h
    rcases hj with hrun | hu
    · rw [hrun]
      exact ⟨by rintro ⟨⟩, by rintro ⟨⟩⟩
    · refine ⟨fun e => hu ?_, fun e => hu ?_⟩
      · rw [e]
        trivial
      · rw [e]
        trivial

/-- **`scheduler_create`** on lives. -/
theorem createPrep_life {slot : Slot} (hslot : k.sched.findFreeSlot = some slot)
    (name : List UInt8) (pr fg : Int) (stack : Nat) (j : Slot) :
    ((k.sched.createPrep name pr fg stack slot).makeReady slot true).life j =
      if j = slot then
        ⟨k.sched.nextPid, (k.life k.sched.currentIdx).pid, .ready, -1, 0, stack, pr⟩
      else k.life j := by
  obtain ⟨fg', hnew⟩ := k.sched.createPrep_core_slot name pr fg stack slot
  have hrest := fun hj : j ≠ slot => k.sched.createPrep_core_of_ne name pr fg stack hj
  generalize k.sched.createPrep name pr fg stack slot = t at hnew hrest
  have hcan : t.CanReady slot := by
    refine ⟨(Sched.findFreeSlot_some hslot).1, ?_, ?_⟩
    · rw [hnew]
      rintro ⟨⟩
    · rw [hnew]
      rintro ⟨⟩
  have hready := t.makeReady_core slot true
  rw [if_pos hcan] at hready
  rw [Sched.life_update hready]
  split
  · rw [hnew]
    rfl
  · rename_i hj
    unfold Sched.life
    rw [hrest hj]
    split <;> rfl

theorem schedulerCreate_lifeStep (name : List UInt8) (priority fg : Int) (stack : Nat)
    (j : Slot) : k.LifeStep (.create name priority fg stack) j
      ((k.sched.schedulerCreate name priority fg stack).1.life j) := by
  have hcase := k.sched.schedulerCreate_cases name priority fg stack
  generalize k.sched.schedulerCreate name priority fg stack = r at hcase
  cases hcase with
  | refused => exact .keeps _ j
  | creates slot pr hpr hslot hstack =>
      simp only [k.createPrep_life hslot]
      split
      · rename_i hj
        subst hj
        exact .creates hslot hstack hpr
      · exact .keeps _ j

theorem schedulerWait_lifeStep (pid : Int) (j : Slot) :
    k.LifeStep (.wait pid) j ((k.sched.schedulerWait pid).1.life j) := by
  have hcase := k.sched.schedulerWait_cases pid
  generalize k.sched.schedulerWait pid = r at hcase
  cases hcase with
  | refused => exact .keeps _ j
  | reaps i s' hpid hi hparent hz hs' =>
      by_cases h0 : i = 0
      · refine (LifeStep.keeps _ j).of_eq ?_
        rw [hs', Sched.reapProcess, if_pos h0]
        rfl
      · have hl := Sched.life_update (k.sched.reapProcess_core h0) j
        rw [hs']
        by_cases hj : j = i
        · subst hj
          exact (LifeStep.reaps hpid hi hparent hz).of_eq (hl.trans (if_pos rfl))
        · exact (LifeStep.keeps _ j).of_eq (hl.trans (if_neg hj))
  | blocks i hpid hi hparent hz =>
      have hl := Sched.life_update (k.sched.waiting_core pid) j
      by_cases hj : j = k.sched.currentIdx
      · subst hj
        exact (LifeStep.waits hpid hi hparent hz).of_eq (hl.trans (if_pos rfl))
      · exact (LifeStep.keeps _ j).of_eq (hl.trans (if_neg hj))

theorem StepCases.lifeStep {k : Kernel} {α : Type} {p : Fin maxPipes} {own other : Int}
    {move : Pipe → Pipe} {dry shut live : Prop} {fl bl ag sp dn : α} {r : Kernel × α}
    (hr : k.StepCases p own other move dry shut live fl bl ag sp dn r) {op : Op}
    (hop : Posts op) (hparks : r.2 = bl → k.Parks op) (j : Slot) : k.LifeStep op j (r.1.life j) := by
  cases hr with
  | waits _ =>
      refine k.semWait_lifeStep (fun h1 => hparks ?_) j
      simp [waitSem, h1]
  | stops _ => exact .keeps _ j
  | moves _ =>
      exact k.lifeStep_of_wakes hop
        ((k.modifyPipe_releases p _).trans (semPost_releases _ _)).wakes j

theorem syscallPipeSetFd_lifeStep (pid : Int) (fd : Nat) (pipeId : Int) (w : Bool) (j : Slot) :
    k.LifeStep (.pipeSetFd pid fd pipeId w) j ((k.syscallPipeSetFd pid fd pipeId w).1.life j) := by
  refine syscallPipeSetFd_invariant (P := fun k' => k.LifeStep (.pipeSetFd pid fd pipeId w) j
    (k'.life j)) (.keeps _ j) (fun k' i n d hrel => ?_) _ _ _ _
  refine (k.lifeStep_of_wakes (by trivial) hrel.wakes j).of_eq ?_
  rw [onSched_life]
  exact congrFun (Sched.modify_life _ i (f := setFd n _) fun _ => rfl) j

/-- **The list of steps is complete.** -/
theorem exec_lifeStep (hord : Ordered (fun _ => False) (fun _ => False) k.sched) (op : Op) (j : Slot) :
    k.LifeStep op j ((k.exec op).life j) := by
  have hwakes := k.exec_wakes op
  cases op with
  | create name priority fg stack => exact k.schedulerCreate_lifeStep name priority fg stack j
  | kill pid => exact k.schedulerKill_lifeStep rfl rfl j
  | killForeground =>
      simp only [exec, schedulerKillForeground]
      rcases hf : findForeground k.sched with - | i
      · exact .keeps _ j
      · refine k.schedulerKill_lifeStep ?_ rfl j
        rw [target, hf]
        rfl
  | block pid =>
      show k.LifeStep _ j ((k.sched.schedulerBlock pid).life j)
      rw [schedulerBlock_life]
      split
      · exact .blocks ‹_›
      · exact .keeps _ j
  | unblock pid =>
      rcases (k.sched.schedulerUnblock_wakes (S := fun p => p = pid) rfl).life j with
        hl | ⟨hb, hp, hl⟩
      · exact (LifeStep.keeps _ j).of_eq hl
      · exact (LifeStep.wakes hb (.inr (congrArg Op.unblock hp.symm))).of_eq hl
  | nice pid pr =>
      rcases k.sched.schedulerNice_core pid pr with hc | ⟨i, hi, hpr, hc⟩
      · exact (LifeStep.keeps _ j).of_eq (congrFun (Sched.life_of_core hc) j)
      · by_cases hj : j = i
        · subst hj
          exact (LifeStep.renices hi hpr).of_eq ((Sched.life_update hc j).trans (if_pos rfl))
        · exact (LifeStep.keeps _ j).of_eq ((Sched.life_update hc j).trans (if_neg hj))
  | wait pid => exact k.schedulerWait_lifeStep pid j
  | exit status =>
      by_cases h0 : k.sched.currentIdx = 0
      · simp only [exec, schedulerExitCurrent, if_pos h0]
        exact .keeps _ j
      · have ht : k.target (.exit status) = some k.sched.currentIdx := if_neg h0
        exact k.schedulerExitCurrent_lifeStep ht j
  | yield =>
      exact (LifeStep.keeps _ j).of_eq (congrFun (Sched.life_of_core k.sched.schedulerYield_core) j)
  | tick rsp => exact k.schedulerTick_lifeStep hord rsp j
  | semOpen name v =>
      exact (LifeStep.keeps _ j).of_eq (congrArg (fun s : Sched => s.life j) (k.semOpen_sched name v))
  | semWait semId => exact k.semWait_lifeStep id j
  | semPost | semPostAll | semClose | pipeClose =>
      exact k.lifeStep_of_wakes (by trivial) (hwakes trivial) j
  | pipeOpen c =>
      exact (LifeStep.keeps _ j).of_eq
        (congrArg (fun s : Sched => s.life j) (k.pipeOpenWithCapacity_sched c))
  | pipeSetFd pid fd pipeId w => exact k.syscallPipeSetFd_lifeStep pid fd pipeId w j
  | pipeRead p => exact (k.pipeReadStep_cases p).lifeStep (by trivial) id j
  | pipeWrite p c => exact (k.pipeWriteStep_cases p c).lifeStep (by trivial) id j

/-! ### The counters -/

theorem bury_frame (s : Sched) (i : Slot) (pid : Int) :
    (bury s i pid).currentIdx = s.currentIdx ∧ (bury s i pid).nextPid = s.nextPid ∧
      (bury s i pid).idleStack = s.idleStack := by
  simp only [bury]
  have hw := Sched.wakeWaiters_frame
  have hf := Sched.ensureForegroundOwner_frame
  rw [(hf _).currentIdx, (hf _).nextPid, (hf _).idleStack, (hw _ _ _).currentIdx,
    (hw _ _ _).nextPid, (hw _ _ _).idleStack]
  split <;> exact ⟨rfl, rfl, rfl⟩

theorem schedulerExitCurrent_frame (status : Int) :
    Frame k.sched (k.schedulerExitCurrent status).sched := by
  simp only [schedulerExitCurrent]
  split
  · exact .refl _
  · rw [onSched_sched]
    exact ((k.exitPrep_frame _ status).trans (closeProcessFds_frame _ _)).trans (leave_frame _ _ _ _)

theorem schedulerKill_frame (pid : Int) :
    (k.schedulerKill pid).1.sched.currentIdx = k.sched.currentIdx ∧
      (k.schedulerKill pid).1.sched.nextPid = k.sched.nextPid ∧
      (k.schedulerKill pid).1.sched.idleStack = k.sched.idleStack := by
  simp only [schedulerKill]
  split
  · exact ⟨rfl, rfl, rfl⟩
  · split
    · exact ⟨rfl, rfl, rfl⟩
    · rename_i i _
      split
      · have h := k.schedulerExitCurrent_frame (-1)
        exact ⟨h.currentIdx, h.nextPid, h.idleStack⟩
      · have h := (k.killPrep_frame i pid).trans (closeProcessFds_frame _ i)
        obtain ⟨hc, hn, hs⟩ := bury_frame ((k.killPrep i pid).closeProcessFds i).sched i pid
        rw [killOther, onSched_sched]
        exact ⟨hc.trans h.currentIdx, hn.trans h.nextPid, hs.trans h.idleStack⟩

theorem semWait_frame (semId : Int) : Frame k.sched (k.semWait semId).1.sched := by
  rw [semWait_sched]
  split
  · exact k.sched.schedulerBlock_frame _
  · exact .refl _

theorem StepCases.frame {k : Kernel} {α : Type} {p : Fin maxPipes} {own other : Int}
    {move : Pipe → Pipe} {dry shut live : Prop} {fl bl ag sp dn : α} {r : Kernel × α}
    (hr : k.StepCases p own other move dry shut live fl bl ag sp dn r) :
    Frame k.sched r.1.sched := by
  cases hr with
  | waits _ => exact k.semWait_frame _
  | stops _ => exact .refl _
  | moves _ => exact ((k.modifyPipe_releases p _).trans (semPost_releases _ _)).wakes.frame

/-- Only the timer changes `current_idx`, only creation the next pid. -/
theorem exec_frame {op : Op} (htick : ∀ rsp, op ≠ .tick rsp)
    (hcreate : ∀ name pr fg stack, op ≠ .create name pr fg stack) :
    (k.exec op).sched.currentIdx = k.sched.currentIdx ∧
      (k.exec op).sched.nextPid = k.sched.nextPid ∧
      (k.exec op).sched.idleStack = k.sched.idleStack := by
  have hframe : ∀ {s : Sched}, Frame k.sched s → s.currentIdx = k.sched.currentIdx ∧
      s.nextPid = k.sched.nextPid ∧ s.idleStack = k.sched.idleStack :=
    fun h => ⟨h.currentIdx, h.nextPid, h.idleStack⟩
  have hwakes := k.exec_wakes op
  cases op with
  | create name pr fg stack => exact absurd rfl (hcreate _ _ _ _)
  | tick rsp => exact absurd rfl (htick _)
  | kill pid => exact k.schedulerKill_frame pid
  | killForeground =>
      simp only [exec, schedulerKillForeground]
      split
      · exact ⟨rfl, rfl, rfl⟩
      · exact k.schedulerKill_frame _
  | block pid => exact hframe (k.sched.schedulerBlock_frame pid)
  | unblock pid => exact hframe (k.sched.schedulerUnblock_frame pid)
  | nice pid pr => exact hframe (k.sched.schedulerNice_frame pid pr)
  | wait pid =>
      have hcase := k.sched.schedulerWait_cases pid
      simp only [exec]
      generalize k.sched.schedulerWait pid = r at hcase
      cases hcase with
      | refused => exact ⟨rfl, rfl, rfl⟩
      | reaps i s' _ _ _ _ hs' =>
          rw [hs']
          exact k.sched.reapProcess_frame i
      | blocks i _ _ _ _ => exact ⟨rfl, rfl, rfl⟩
  | exit status => exact hframe (k.schedulerExitCurrent_frame status)
  | yield => exact ⟨rfl, rfl, rfl⟩
  | semWait semId => exact hframe (k.semWait_frame semId)
  | semOpen | semPost | semPostAll | semClose | pipeOpen | pipeClose => exact hframe (hwakes trivial).frame
  | pipeSetFd pid fd pipeId w =>
      exact hframe (syscallPipeSetFd_invariant (P := fun k' => Frame k.sched k'.sched) (.refl _)
        (fun _ _ _ _ hrel => hrel.wakes.frame.trans (.modify _ _ _)) _ _ _ _)
  | pipeRead p => exact hframe (k.pipeReadStep_cases p).frame
  | pipeWrite p c => exact hframe (k.pipeWriteStep_cases p c).frame

theorem create_frame (name : List UInt8) (pr fg : Int) (stack : Nat) :
    (k.exec (.create name pr fg stack)).sched.currentIdx = k.sched.currentIdx ∧
      k.sched.nextPid ≤ (k.exec (.create name pr fg stack)).sched.nextPid := by
  have hcase := k.sched.schedulerCreate_cases name pr fg stack
  simp only [exec]
  generalize k.sched.schedulerCreate name pr fg stack = r at hcase
  cases hcase with
  | refused => exact ⟨rfl, le_refl _⟩
  | creates slot pr _ _ _ =>
      have hr := (k.sched.createPrep name pr fg stack slot).makeReady_frame slot true
      obtain ⟨hc, hn, -⟩ := k.sched.createPrep_frame name pr fg stack slot
      refine ⟨hr.currentIdx.trans hc, ?_⟩
      rw [hr.nextPid, hn]
      omega

/-- Creation in a free slot takes the next pid. -/
theorem create_nextPid {name : List UInt8} {pr fg : Int} {stack : Nat} {j : Slot}
    (hj : k.sched.findFreeSlot = some j) (hstack : stack ≠ 0) :
    (k.exec (.create name pr fg stack)).sched.nextPid = k.sched.nextPid + 1 := by
  have hr := Sched.makeReady_frame
  simp only [exec, Sched.schedulerCreate, hj, if_neg hstack]
  rw [(hr _ _ _).nextPid]
  split <;> rfl

/-! ### Pids -/

/-- No two slots share a positive pid. -/
def Distinct : Prop :=
  ∀ i j, (k.life i).pid = (k.life j).pid → 0 < (k.life i).pid → i = j

/-- Pids are given out once: live processes have positive pids below the next
one, no two slots share a positive pid, and a parent is older than its child.
The current process is not dead and slot 0 is the idle process. -/
structure Pids : Prop where
  next : 0 < k.sched.nextPid
  fresh : ∀ i, (k.life i).pid < k.sched.nextPid
  live : ∀ i, i ≠ 0 → (k.life i).state ≠ .dead →
    0 < (k.life i).pid ∧ (k.life i).parentPid < (k.life i).pid
  distinct : k.Distinct
  current : (k.life k.sched.currentIdx).state ≠ .dead
  idle : (k.life 0).pid = 0 ∧ (k.life 0).state ≠ .dead ∧ (k.life 0).state ≠ .zombie

variable {k}

/-- The process that a call ends: the caller of `exit`, or one found by a pid
above 1. -/
theorem target_some {op : Op} {i : Slot} (h : k.target op = some i) :
    (i = k.sched.currentIdx ∧ i ≠ 0 ∧ ∃ status, op = .exit status) ∨
      (1 < (k.life i).pid ∧ (k.life i).state ≠ .dead ∧
        (op = .kill (k.life i).pid ∨ op = .killForeground)) := by
  have hfound : ∀ {pid : Int}, (if pid ≤ 1 then none else k.sched.findIndexByPid pid) = some i →
      1 < (k.life i).pid ∧ (k.life i).state ≠ .dead ∧ (k.life i).pid = pid := by
    intro pid hif
    split at hif
    · cases hif
    · rename_i hpid
      obtain ⟨hp, hd⟩ := Sched.findIndexByPid_some hif
      have hp' : (k.life i).pid = pid := hp
      exact ⟨by omega, hd, hp'⟩
  cases op with
  | exit status =>
      left
      rw [target] at h
      split at h
      · cases h
      · obtain rfl := Option.some.inj h
        exact ⟨rfl, ‹_›, status, rfl⟩
  | kill pid =>
      obtain ⟨h1, hd, hp⟩ := hfound h
      exact .inr ⟨h1, hd, .inl (congrArg Op.kill hp.symm)⟩
  | killForeground =>
      obtain ⟨f, -, hf⟩ := Option.bind_eq_some_iff.mp h
      obtain ⟨h1, hd, -⟩ := hfound hf
      exact .inr ⟨h1, hd, .inr rfl⟩
  | _ => cases h

/-- **The two ways to end a process**: `scheduler_exit_current` for the current
one, `scheduler_kill` for another. -/
theorem exec_target (hp : Pids k) {op : Op} {i : Slot} (h : k.target op = some i) :
    (i = k.sched.currentIdx ∧ i ≠ 0 ∧ k.exec op = k.schedulerExitCurrent (exitCode op)) ∨
      (i ≠ k.sched.currentIdx ∧ k.sched.findIndexByPid (k.life i).pid = some i ∧
        1 < (k.life i).pid ∧ k.exec op = k.killOther i (k.life i).pid) := by
  have hkill : ∀ {pid : Int}, (if pid ≤ 1 then none else k.sched.findIndexByPid pid) = some i →
      (i = k.sched.currentIdx ∧ i ≠ 0 ∧ (k.schedulerKill pid).1 = k.schedulerExitCurrent (-1)) ∨
        (i ≠ k.sched.currentIdx ∧ k.sched.findIndexByPid (k.life i).pid = some i ∧
          1 < (k.life i).pid ∧ (k.schedulerKill pid).1 = k.killOther i (k.life i).pid) := by
    intro pid hif
    split at hif
    · cases hif
    · rename_i hpid
      have hpi : (k.life i).pid = pid := (Sched.findIndexByPid_some hif).1
      simp only [schedulerKill, if_neg hpid, hif]
      split
      · rename_i hcur
        refine .inl ⟨hcur, ?_, rfl⟩
        rintro rfl
        rw [hp.idle.1] at hpi
        omega
      · rename_i hcur
        rw [hpi]
        exact .inr ⟨hcur, hif, by omega, rfl⟩
  cases op with
  | exit status =>
      left
      rw [target] at h
      split at h
      · cases h
      · obtain rfl := Option.some.inj h
        exact ⟨rfl, ‹_›, rfl⟩
  | kill pid => exact hkill h
  | killForeground =>
      obtain ⟨f, hf, hif⟩ := Option.bind_eq_some_iff.mp h
      have hexec : k.exec .killForeground = (k.schedulerKill (k.proc f).pid).1 := by
        show k.schedulerKillForeground.1 = _
        rw [schedulerKillForeground, hf]
      rw [hexec]
      exact hkill hif
  | _ => cases h

/-- Without such a process nothing happens. -/
theorem exec_target_none {op : Op} (h : k.target op = none)
    (hop : (∃ status, op = .exit status) ∨ (∃ pid, op = .kill pid) ∨ op = .killForeground) :
    k.exec op = k := by
  have hkill : ∀ {pid : Int}, (if pid ≤ 1 then none else k.sched.findIndexByPid pid) = none →
      (k.schedulerKill pid).1 = k := by
    intro pid hif
    simp only [schedulerKill]
    split at hif
    · rename_i hpid
      rw [if_pos hpid]
    · rename_i hpid
      rw [if_neg hpid, hif]
  rcases hop with ⟨status, rfl⟩ | ⟨pid, rfl⟩ | rfl
  · rw [target] at h
    split at h
    · rename_i h0
      show k.schedulerExitCurrent status = k
      rw [schedulerExitCurrent, if_pos h0]
    · cases h
  · exact hkill h
  · show k.schedulerKillForeground.1 = k
    rw [target] at h
    rw [schedulerKillForeground]
    rcases hf : findForeground k.sched with - | f
    · rfl
    · rw [hf, Option.bind_some] at h
      exact hkill h

/-- What a step does to the pids of a slot: nothing, a new process, or a reaped
one. -/
theorem LifeStep.pids {op : Op} {j : Slot} {l : Life} (hp : Pids k)
    (h : k.LifeStep op j l) :
    (l.pid = (k.life j).pid ∧ l.parentPid = (k.life j).parentPid ∧
      ((k.life j).state = .dead → l.state = .dead)) ∨
    (l.pid = k.sched.nextPid ∧ l.parentPid = (k.life k.sched.currentIdx).pid ∧
      k.sched.findFreeSlot = some j ∧ (k.exec op).sched.nextPid = k.sched.nextPid + 1) ∨
    (l.pid = 0 ∧ l.state = .dead ∧ j ≠ 0 ∧ (k.life j).state = .zombie ∧
      (k.life j).parentPid = (k.life k.sched.currentIdx).pid) := by
  cases h with
  | keeps => exact .inl ⟨rfl, rfl, id⟩
  | creates hj hstack _ =>
      exact .inr (.inl ⟨rfl, rfl, hj, k.create_nextPid hj hstack⟩)
  | renices => exact .inl ⟨rfl, rfl, id⟩
  | wakes hb _ => exact .inl ⟨rfl, rfl, fun hd => by cases hb.symm.trans hd⟩
  | releases ht hb hw =>
      refine .inl ⟨?_, ?_, fun hd => by cases hb.symm.trans hd⟩
      · unfold Life.woken
        split <;> rfl
      · unfold Life.woken
        split <;> rfl
  | blocks hj => exact .inl ⟨rfl, rfl, fun hd => absurd hd (Sched.findIndexByPid_some hj).2⟩
  | parks _ hj => exact .inl ⟨rfl, rfl, fun hd => absurd hd (Sched.findIndexByPid_some hj).2⟩
  | waits => exact .inl ⟨rfl, rfl, fun hd => absurd hd hp.current⟩
  | reaps hpid hj hparent hz =>
      refine .inr (.inr ⟨rfl, rfl, ?_, hz, hparent⟩)
      rintro rfl
      exact hp.idle.2.2 hz
  | ends => exact .inl ⟨rfl, rfl, fun hd => absurd hd hp.current⟩
  | kills => exact .inl ⟨rfl, rfl, fun _ => rfl⟩
  | preempts hrun => exact .inl ⟨rfl, rfl, fun hd => by cases hrun.symm.trans hd⟩
  | dispatches hj =>
      refine .inl ⟨rfl, rfl, fun hd => ?_⟩
      rcases hj with rfl | hj
      · exact absurd hd hp.idle.2.1
      · exact absurd hd hj.1

/-- The idle process goes on for ever. -/
theorem LifeStep.idle {op : Op} {l : Life} (hp : Pids k) (h : k.LifeStep op 0 l) :
    l.state ≠ .dead ∧ l.state ≠ .zombie := by
  generalize h0 : (0 : Slot) = j at h
  cases h with
  | keeps => exact h0 ▸ hp.idle.2
  | creates hj _ _ => exact absurd h0.symm (Sched.findFreeSlot_some hj).1
  | renices => exact h0 ▸ hp.idle.2
  | releases ht hb hw =>
      unfold Life.woken
      rw [if_pos ⟨hb, hw⟩, if_pos h0.symm]
      exact ⟨(by rintro ⟨⟩), (by rintro ⟨⟩)⟩
  | reaps hpid hj hparent hz => exact absurd (h0 ▸ hz) hp.idle.2.2
  | ends ht hc => exact absurd h0.symm hc
  | kills ht hc =>
      rcases target_some ht with ⟨he, -⟩ | ⟨h1, -⟩
      · exact absurd he hc
      · subst h0
        have := hp.idle.1
        omega
  | _ => exact ⟨(by rintro ⟨⟩), (by rintro ⟨⟩)⟩

/-- No step makes the current process dead. -/
theorem LifeStep.current {op : Op} {l : Life} (hp : Pids k)
    (h : k.LifeStep op k.sched.currentIdx l) : l.state ≠ .dead := by
  generalize hc : k.sched.currentIdx = j at h
  cases h with
  | keeps => exact hc ▸ hp.current
  | renices => exact hc ▸ hp.current
  | releases ht hb hw =>
      unfold Life.woken
      rw [if_pos ⟨hb, hw⟩]
      show (if j = 0 then ProcState.blocked else .ready) ≠ .dead
      split <;> rintro ⟨⟩
  | reaps hpid hj hparent hz =>
      -- nobody is its own parent
      have h0 : j ≠ 0 := by
        rintro rfl
        exact hp.idle.2.2 hz
      have hlive := hp.live j h0 (by rw [hz]; decide)
      rw [hc] at hparent
      omega
  | kills ht hne => exact absurd hc.symm hne
  | _ => rintro ⟨⟩

/-- Who dies and who is born: a process killed by another, one reaped by its
parent, and one created in a free slot. -/
theorem LifeStep.dead {op : Op} {j : Slot} {l : Life} (hp : Pids k) (h : k.LifeStep op j l) :
    (l.state = .dead ↔ (k.life j).state = .dead) ∨
      (l.state = .dead ∧ k.target op = some j ∧ j ≠ k.sched.currentIdx) ∨
      (l.state = .dead ∧ ∃ pid, op = .wait pid) ∨
      ((k.life j).state = .dead ∧ ∃ name pr fg stack, op = .create name pr fg stack) := by
  have hlive : ∀ {a b : ProcState}, a ≠ .dead → b ≠ .dead → (a = .dead ↔ b = .dead) :=
    fun ha hb => iff_of_false ha hb
  cases h with
  | keeps => exact .inl Iff.rfl
  | creates hj _ _ =>
      exact .inr (.inr (.inr ⟨(Sched.findFreeSlot_some hj).2, _, _, _, _, rfl⟩))
  | renices => exact .inl Iff.rfl
  | wakes hb _ => exact .inl (hlive (by rintro ⟨⟩) (by rw [hb]; exact (by rintro ⟨⟩)))
  | releases ht hb hw =>
      refine .inl (hlive ?_ (by rw [hb]; exact (by rintro ⟨⟩)))
      unfold Life.woken
      rw [if_pos ⟨hb, hw⟩]
      show (if j = 0 then ProcState.blocked else .ready) ≠ .dead
      split <;> rintro ⟨⟩
  | blocks hj => exact .inl (hlive (by rintro ⟨⟩) (Sched.findIndexByPid_some hj).2)
  | parks _ hj => exact .inl (hlive (by rintro ⟨⟩) (Sched.findIndexByPid_some hj).2)
  | waits => exact .inl (hlive (by rintro ⟨⟩) hp.current)
  | reaps => exact .inr (.inr (.inl ⟨rfl, _, rfl⟩))
  | ends => exact .inl (hlive (by rintro ⟨⟩) hp.current)
  | kills ht hne => exact .inr (.inl ⟨rfl, ht, hne⟩)
  | preempts hrun => exact .inl (hlive (by rintro ⟨⟩) (by rw [hrun]; exact (by rintro ⟨⟩)))
  | dispatches hj =>
      refine .inl (hlive (by rintro ⟨⟩) ?_)
      rcases hj with rfl | hj
      · exact hp.idle.2.1
      · exact hj.1

/-- Priorities are never negative. -/
theorem LifeStep.priority {op : Op} {j : Slot} {l : Life} (h : k.LifeStep op j l)
    (hj : 0 ≤ (k.life j).priority) : 0 ≤ l.priority := by
  cases h with
  | creates _ _ hpr => exact le_trans (by decide) hpr.1
  | renices _ hpr => exact le_trans (by decide) hpr.1
  | releases ht hb hw =>
      unfold Life.woken
      rw [if_pos ⟨hb, hw⟩]
      exact hj
  | reaps => exact le_refl _
  | _ => exact hj

theorem tick_frame (rsp : Nat) : (k.exec (.tick rsp)).sched.nextPid = k.sched.nextPid := by
  have hcase := k.sched.schedulerTick_cases rsp
  simp only [exec]
  generalize (k.sched.schedulerTick rsp).1 = t at hcase
  cases hcase with
  | keeps _ => rfl
  | preempts _ => exact (Sched.dispatch_frame _).2.1.trans (Sched.putBack_frame _).nextPid
  | switches _ => exact (Sched.dispatch_frame _).2.1

/-- After the timer the current process runs. -/
theorem tick_current (rsp : Nat) :
    ((k.exec (.tick rsp)).life (k.exec (.tick rsp)).sched.currentIdx).state = .running := by
  have hdisp : ∀ s : Sched, (s.dispatch.1.life s.dispatch.1.currentIdx).state = .running := by
    intro s
    rw [Sched.life_update s.dispatch_core, if_pos s.dispatch_currentIdx]
    rfl
  have hcase := k.sched.schedulerTick_cases rsp
  unfold life
  simp only [exec]
  generalize (k.sched.schedulerTick rsp).1 = t at hcase
  cases hcase with
  | keeps hrun =>
      rw [Sched.life_of_core ((Sched.countTick_core _).trans (k.sched.saveRsp_core rsp))]
      exact hrun
  | preempts _ => exact hdisp _
  | switches _ => exact hdisp _

theorem exec_nextPid_le (op : Op) : k.sched.nextPid ≤ (k.exec op).sched.nextPid := by
  cases op with
  | create name pr fg stack => exact (k.create_frame name pr fg stack).2
  | tick rsp => exact (tick_frame rsp).ge
  | _ =>
      refine (k.exec_frame ?_ ?_).2.1.ge
      · exact fun _ e => by cases e
      · exact fun _ _ _ _ e => by cases e

theorem exec_current (hord : Ordered (fun _ => False) (fun _ => False) k.sched) (hp : Pids k) (op : Op) :
    ((k.exec op).life (k.exec op).sched.currentIdx).state ≠ .dead := by
  have hsame : (k.exec op).sched.currentIdx = k.sched.currentIdx →
      ((k.exec op).life (k.exec op).sched.currentIdx).state ≠ .dead := by
    intro hc
    rw [hc]
    exact (k.exec_lifeStep hord op _).current hp
  cases op with
  | tick rsp =>
      rw [tick_current]
      rintro ⟨⟩
  | create name pr fg stack => exact hsame (k.create_frame name pr fg stack).1
  | _ =>
      refine hsame (k.exec_frame ?_ ?_).1
      · exact fun _ e => by cases e
      · exact fun _ _ _ _ e => by cases e

/-- **Every piece of kernel code keeps the pids in order.** -/
theorem exec_pids (hord : Ordered (fun _ => False) (fun _ => False) k.sched) (hp : Pids k) (op : Op) :
    Pids (k.exec op) := by
  have hle := exec_nextPid_le (k := k) op
  have hstep := fun j => (k.exec_lifeStep hord op j).pids hp
  have hnext := hp.next
  refine ⟨by omega, fun i => ?_, fun i h0 hd => ?_, fun i j hij hpos => ?_,
    exec_current hord hp op, ?_⟩
  · have hi := hp.fresh i
    rcases hstep i with ⟨h, -⟩ | ⟨h, -, -, hn⟩ | ⟨h, -⟩ <;> omega
  · rcases hstep i with ⟨h, hpar, hdead⟩ | ⟨h, hpar, -⟩ | ⟨-, hdead, -⟩
    · have hl := hp.live i h0 fun e => hd (hdead e)
      omega
    · have hc := hp.fresh k.sched.currentIdx
      omega
    · exact absurd hdead hd
  · have hi := hp.fresh i
    have hj := hp.fresh j
    rcases hstep i with ⟨hi', -⟩ | ⟨hi', -, hfree, -⟩ | ⟨hi', -⟩
    · rcases hstep j with ⟨hj', -⟩ | ⟨hj', -⟩ | ⟨hj', -⟩
      · exact hp.distinct i j (by omega) (by omega)
      · omega
      · omega
    · rcases hstep j with ⟨hj', -⟩ | ⟨-, -, hfree', -⟩ | ⟨hj', -⟩
      · omega
      · exact Option.some.inj (hfree.symm.trans hfree')
      · omega
    · omega
  · refine ⟨?_, (k.exec_lifeStep hord op 0).idle hp⟩
    rcases hstep 0 with ⟨h, -⟩ | ⟨-, -, hfree, -⟩ | ⟨h, -⟩
    · exact h.trans hp.idle.1
    · exact absurd rfl (Sched.findFreeSlot_some hfree).1
    · exact h

theorem init_pids (idleStack : Nat) : Pids (init idleStack) := by
  have hlife : ∀ i, i ≠ 0 → (init idleStack).life i = PCB.zero.life := by
    intro i h0
    show (Sched.processTable _ i).core.life = _
    simp only [init, Sched.schedulerInit, if_neg h0]
    rfl
  have hpid : ∀ i, ((init idleStack).life i).pid = 0 := by
    intro i
    by_cases h0 : i = 0
    · rw [h0]
      rfl
    · rw [hlife i h0]
      rfl
  refine ⟨Int.one_pos, fun i => ?_, fun i h0 hd => ?_, fun i j _ hpos => ?_, ?_, ?_⟩
  · rw [hpid]
    exact Int.one_pos
  · rw [hlife i h0] at hd
    exact absurd rfl hd
  · rw [hpid] at hpos
    omega
  · rintro ⟨⟩
  · exact ⟨rfl, (by rintro ⟨⟩), (by rintro ⟨⟩)⟩

/-- What holds between any two pieces of kernel code. -/
structure Sound (k : Kernel) : Prop where
  ordered : Ordered (fun _ => False) (fun _ => False) k.sched
  pids : Pids k

theorem init_sound (idleStack : Nat) : Sound (init idleStack) :=
  ⟨init_ordered idleStack, init_pids idleStack⟩

theorem exec_sound (h : Sound k) (op : Op) : Sound (k.exec op) :=
  ⟨exec_ordered h.ordered fun _ _ => False.elim, exec_pids h.ordered h.pids op⟩

/-- Only creating, ending and reaping bring processes to life or to death. -/
theorem exec_dead_iff (hs : Sound k) (op : Op) (ht : k.target op = none)
    (hw : ∀ pid, op ≠ .wait pid) (hc : ∀ name pr fg stack, op ≠ .create name pr fg stack)
    (j : Slot) : ((k.exec op).life j).state = .dead ↔ (k.life j).state = .dead := by
  rcases (k.exec_lifeStep hs.ordered op j).dead hs.pids with
    h | ⟨-, htj, -⟩ | ⟨-, pid, he⟩ | ⟨-, _, _, _, _, he⟩
  · exact h
  · cases ht.symm.trans htj
  · exact absurd he (hw pid)
  · exact absurd he (hc _ _ _ _)

theorem reach_sound {idleStack : Nat} (h : machine.Reach (init idleStack) k) : Sound k := by
  refine h.invariant (init_sound idleStack) fun k op k' hk _ hs => ?_
  obtain rfl := Option.some.inj hs
  exact exec_sound hk op

end Kernel

end TP2Kernel
