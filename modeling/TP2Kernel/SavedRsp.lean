/-
TP2Kernel/SavedRsp.lean

The stack pointers kept in the process table.  `scheduler_create` stores the
first one of a process and `scheduler_tick` the one of the process it takes the
processor from; the value `scheduler_tick` returns is the one kept for the
process it dispatches.  Every other piece of kernel code leaves the stack
pointers of live processes alone (`exec_rsp`).
-/
import TP2Kernel.Moves

namespace TP2Kernel

/-- No stack pointer differs. -/
def SameRsp (s s' : Sched) : Prop := ∀ j, (s'.processTable j).rsp = (s.processTable j).rsp

namespace SameRsp

variable {s s' s'' : Sched}

theorem refl (s : Sched) : SameRsp s s := fun _ => rfl

theorem trans (h : SameRsp s s') (h' : SameRsp s' s'') : SameRsp s s'' :=
  fun j => (h' j).trans (h j)

theorem of_table (h : s'.processTable = s.processTable) : SameRsp s s' :=
  fun j => by rw [h]

theorem modify (s : Sched) (i : Slot) {f : PCB → PCB} (hf : ∀ p, (f p).rsp = p.rsp) :
    SameRsp s (s.modify i f) :=
  fun j => s.modify_field i j f PCB.rsp (hf _)

theorem foldl {l : List Slot} {f : Sched → Slot → Sched} (hf : ∀ s i, SameRsp s (f s i))
    (s : Sched) : SameRsp s (l.foldl f s) := by
  induction l generalizing s with
  | nil => exact refl s
  | cons i l ih => exact (hf s i).trans (ih (f s i))

end SameRsp

theorem Requeued.sameRsp {s s' : Sched} (h : Requeued s s') : SameRsp s s' :=
  fun j => h.field j PCB.rsp fun _ => rfl

namespace Sched

variable (s : Sched)

/-! ### Scheduler calls -/

theorem makeReady_sameRsp (i : Slot) (r : Bool) : SameRsp s (s.makeReady i r) := by
  by_cases h : s.CanReady i
  · have hprep : SameRsp s (s.readyPrep i r) := by
      refine ((s.removeFromReadyQueue_requeued i).sameRsp.trans (.modify _ i fun p => ?_)).trans
        (.modify _ i fun _ => rfl)
      unfold refreshed
      split <;> rfl
    rw [s.makeReady_eq h]
    exact (hprep.trans (enqueueReadyQueue_requeued _ i).sameRsp).trans
      (.of_table (preempt_processTable _ i))
  · rw [s.makeReady_of_not h]
    exact .refl s

theorem schedulerBlock_sameRsp (pid : Int) : SameRsp s (s.schedulerBlock pid) := by
  simp only [schedulerBlock]
  split
  · exact .refl s
  · rename_i i _
    have hblock := (s.removeFromReadyQueue_requeued i).sameRsp.trans
      (.modify _ i (f := fun p => { p with state := .blocked }) fun _ => rfl)
    split
    · exact (hblock.trans (.modify _ i (f := expired) fun _ => rfl)).trans (.of_table rfl)
    · exact hblock

theorem schedulerNice_sameRsp (pid pr : Int) : SameRsp s (s.schedulerNice pid pr).1 := by
  rcases s.schedulerNice_renice pid pr with h | ⟨i, -, -, hT, -⟩
  · rw [h]
    exact .refl s
  · refine SameRsp.trans ?_ (.of_table hT)
    unfold renice
    split
    · exact ((s.removeFromReadyQueue_requeued i).sameRsp.trans
        (.modify _ i (f := reniced pr) fun _ => rfl)).trans (enqueueReadyQueue_requeued _ i).sameRsp
    · exact .modify s i fun _ => rfl

theorem restoreParentForeground_sameRsp (i : Slot) : SameRsp s (s.restoreParentForeground i) := by
  simp only [restoreParentForeground]
  split
  · exact .refl s
  · refine SameRsp.trans ?_ (.modify _ i (f := setForeground 0) fun _ => rfl)
    split
    · exact .refl s
    · split
      · exact (SameRsp.modify s _ (f := setForeground 1) fun _ => rfl).trans (.of_table rfl)
      · exact .refl s

theorem ensureForegroundOwner_sameRsp : SameRsp s s.ensureForegroundOwner := by
  unfold ensureForegroundOwner
  split
  · exact .refl s
  · split
    · exact .refl s
    · split
      · exact .modify s _ fun _ => rfl
      · exact .refl s

theorem wakeWaiters_sameRsp (pid : Int) (hand : Bool) : SameRsp s (s.wakeWaiters pid hand) := by
  refine SameRsp.foldl (fun s i => ?_) s
  simp only [wakeWaiter]
  split
  · refine SameRsp.trans ?_ (makeReady_sameRsp _ i true)
    have hwait : SameRsp s (s.modify i fun p => { p with waitingFor := -1 }) :=
      .modify s i fun _ => rfl
    split
    · exact (hwait.trans (.modify _ i (f := setForeground 1) fun _ => rfl)).trans (.of_table rfl)
    · exact hwait
  · exact .refl s

/-! ### Dispatching -/

theorem dequeueNextReady_sameRsp : SameRsp s s.dequeueNextReady.1 := by
  have hage : SameRsp s s.ageReadyProcesses := by
    refine SameRsp.foldl (fun s i => ?_) s
    simp only [ageProcess]
    split
    · exact .refl s
    · have htick : SameRsp s
          (s.modify i fun p => { p with readyWaitTicks := p.readyWaitTicks + 1 }) :=
        .modify s i fun _ => rfl
      split
      · refine SameRsp.trans ?_ (enqueueReadyQueue_requeued _ i).sameRsp
        refine SameRsp.trans ?_ (.modify _ i fun _ => rfl)
        exact htick.trans (removeFromReadyQueue_requeued _ i).sameRsp
      · exact htick
  have htake : ∀ (t : Sched) (pr : Int), SameRsp t (t.dequeueReadyQueue pr).1 := by
    intro t pr
    simp only [dequeueReadyQueue]
    split
    · exact .refl t
    · rename_i idx _
      refine SameRsp.trans ?_
        (.modify _ idx (f := fun p => { p with readyWaitTicks := 0 }) fun _ => rfl)
      exact (Requeued.setQueue t (priorityQueueIndex pr) _).sameRsp.trans
        (unlink_requeued _ idx).sameRsp
  have hloop : ∀ (prs : List Int) (t : Sched), SameRsp t (t.dequeueFrom prs).1 := by
    intro prs
    induction prs with
    | nil => exact fun t => .refl t
    | cons pr prs ih =>
        intro t
        have h := htake t pr
        rw [dequeueFrom]
        rcases hd : t.dequeueReadyQueue pr with ⟨t', - | idx⟩
        · rw [hd] at h
          exact h.trans (ih t')
        · rw [hd] at h
          exact h.trans (.modify t' idx (f := rebased) fun _ => rfl)
  exact hage.trans (hloop _ _)

theorem dispatch_sameRsp : SameRsp s s.dispatch.1 := by
  have h := s.dequeueNextReady_sameRsp
  unfold dispatch
  generalize s.dequeueNextReady = r at h ⊢
  exact (h.trans (.modify _ r.2 (f := started) fun _ => rfl)).trans (.of_table rfl)

/-- The value `scheduler_tick` returns is the stack pointer kept for the process
that runs next. -/
theorem schedulerTick_returns (rsp : Nat) :
    (s.schedulerTick rsp).2 =
      ((s.schedulerTick rsp).1.processTable (s.schedulerTick rsp).1.currentIdx).rsp := by
  have hdispatch : ∀ t : Sched,
      t.dispatch.2 = (t.dispatch.1.processTable t.dispatch.1.currentIdx).rsp := by
    intro t
    unfold dispatch
    generalize t.dequeueNextReady = r
    rfl
  simp only [schedulerTick]
  split
  · split
    · simp [countTick, saveRsp]
    · exact hdispatch _
  · exact hdispatch _

/-- `scheduler_tick` keeps the stack pointer of the process it is called for. -/
theorem schedulerTick_rsp (rsp : Nat) (j : Slot) :
    ((s.schedulerTick rsp).1.processTable j).rsp =
      if j = s.currentIdx then rsp else (s.processTable j).rsp := by
  have hsave : ((s.saveRsp rsp).processTable j).rsp =
      if j = s.currentIdx then rsp else (s.processTable j).rsp := by
    unfold saveRsp
    rw [modify_processTable]
    split <;> rfl
  have hcount : SameRsp (s.saveRsp rsp) (s.saveRsp rsp).countTick := .modify _ _ fun _ => rfl
  have hback : SameRsp (s.saveRsp rsp).countTick (s.saveRsp rsp).countTick.putBack := by
    unfold putBack
    split
    · exact makeReady_sameRsp _ _ true
    · exact .refl _
  rw [← hsave]
  have hcase := s.schedulerTick_cases rsp
  generalize (s.schedulerTick rsp).1 = s' at hcase
  cases hcase with
  | keeps => exact hcount j
  | preempts => exact ((hcount.trans hback).trans (dispatch_sameRsp _)) j
  | switches => exact dispatch_sameRsp _ j

end Sched

/-! ### Pieces of kernel code -/

theorem Wakes.sameRsp {S : Int → Prop} {s s' : Sched} (h : Wakes S s s') : SameRsp s s' :=
  h.invariant (.refl s) fun t i ht _ _ => ht.trans (t.makeReady_sameRsp i true)

namespace Kernel

variable {k : Kernel}

theorem closeProcessFds_sameRsp (k : Kernel) (i : Slot) :
    SameRsp k.sched (k.closeProcessFds i).sched :=
  closeProcessFds_invariant (P := fun k' => SameRsp k.sched k'.sched) (.refl _)
    (fun _ _ h hr => h.trans hr.wakes.sameRsp) fun _ _ _ h => h.trans (.modify _ i fun _ => rfl)

theorem schedulerExitCurrent_sameRsp (k : Kernel) (status : Int) :
    SameRsp k.sched (k.schedulerExitCurrent status).sched := by
  simp only [schedulerExitCurrent]
  split
  · exact .refl _
  · have hprep : SameRsp k.sched (k.exitPrep k.sched.currentIdx status).sched :=
      (SameRsp.modify k.sched _ (f := setExitStatus status) fun _ => rfl).trans
        (Sched.restoreParentForeground_sameRsp _ _)
    have hclose := hprep.trans (closeProcessFds_sameRsp _ k.sched.currentIdx)
    generalize (k.exitPrep k.sched.currentIdx status).closeProcessFds k.sched.currentIdx = k₁
      at hclose ⊢
    rw [onSched_sched]
    refine hclose.trans ?_
    simp only [leave]
    refine SameRsp.trans ?_ (Sched.ensureForegroundOwner_sameRsp _)
    refine SameRsp.trans ?_ (Sched.wakeWaiters_sameRsp _ _ _)
    exact (k₁.sched.removeFromReadyQueue_requeued _).sameRsp.trans
      (.modify _ _ (f := ended) fun _ => rfl)

theorem killOther_sameRsp (k : Kernel) (i : Slot) (pid : Int) :
    SameRsp k.sched (k.killOther i pid).sched := by
  have hprep : SameRsp k.sched (k.killPrep i pid).sched :=
    (k.sched.removeFromReadyQueue_requeued i).sameRsp.trans
      (Sched.restoreParentForeground_sameRsp _ i)
  have hclose := hprep.trans (closeProcessFds_sameRsp (k.killPrep i pid) i)
  rw [killOther, onSched_sched]
  generalize (k.killPrep i pid).closeProcessFds i = k₁ at hclose ⊢
  refine hclose.trans ?_
  have hkill : SameRsp k₁.sched (k₁.sched.modify i killed) := .modify _ i fun _ => rfl
  simp only [bury]
  refine SameRsp.trans ?_ (Sched.ensureForegroundOwner_sameRsp _)
  refine SameRsp.trans ?_ (Sched.wakeWaiters_sameRsp _ _ _)
  split
  · have hfree : SameRsp k₁.sched ((k₁.sched.modify i killed).freeStack
        ((k₁.sched.modify i killed).processTable i).stackBase) := hkill.trans (.of_table rfl)
    exact hfree.trans (.modify _ i (f := fun p => { p with stackBase := 0 }) fun _ => rfl)
  · exact hkill

theorem schedulerKill_sameRsp (k : Kernel) (pid : Int) :
    SameRsp k.sched (k.schedulerKill pid).1.sched := by
  simp only [schedulerKill]
  split
  · exact .refl _
  · split
    · exact .refl _
    · split
      · exact k.schedulerExitCurrent_sameRsp (-1)
      · exact k.killOther_sameRsp _ pid

theorem semWait_sameRsp (k : Kernel) (semId : Int) :
    SameRsp k.sched (k.semWait semId).1.sched := by
  rw [semWait_sched]
  split
  · exact k.sched.schedulerBlock_sameRsp _
  · exact .refl _

theorem StepCases.sameRsp {α : Type} {p : Fin maxPipes} {own other : Int} {move : Pipe → Pipe}
    {dry shut live : Prop} {fl bl ag sp dn : α} {r : Kernel × α}
    (h : k.StepCases p own other move dry shut live fl bl ag sp dn r) :
    SameRsp k.sched r.1.sched := by
  cases h with
  | waits _ => exact k.semWait_sameRsp _
  | stops _ => exact .refl _
  | moves _ => exact ((k.modifyPipe_releases p _).trans (semPost_releases _ _)).wakes.sameRsp

/-- A new process gets the stack pointer that `setup_initial_stack` leaves; the
others keep theirs. -/
theorem create_rsp {name : List UInt8} {pr fg : Int} {stack : Nat} {slot : Slot}
    (hslot : k.sched.findFreeSlot = some slot) (hstack : stack ≠ 0) (j : Slot) :
    ((k.exec (.create name pr fg stack)).proc j).rsp =
      if j = slot then initialRsp stack else (k.proc j).rsp := by
  have hcase := k.sched.schedulerCreate_cases name pr fg stack
  show ((k.sched.schedulerCreate name pr fg stack).1.processTable j).rsp = _
  have hne : k.sched.schedulerCreate name pr fg stack ≠ (k.sched, -1) := by
    intro he
    have hpid : (k.sched.schedulerCreate name pr fg stack).1.nextPid = k.sched.nextPid := by
      rw [he]
    have hnext : (k.sched.schedulerCreate name pr fg stack).1.nextPid = k.sched.nextPid + 1 := by
      simp only [Sched.schedulerCreate, hslot, if_neg hstack]
      rw [(Sched.makeReady_frame _ _ _).nextPid]
      split <;> rfl
    omega
  generalize k.sched.schedulerCreate name pr fg stack = r at hcase hne
  cases hcase with
  | refused => exact absurd rfl hne
  | creates slot' pr' _ hslot' _ =>
      obtain rfl := Option.some.inj (hslot.symm.trans hslot')
      refine ((k.sched.createPrep name pr' fg stack slot).makeReady_sameRsp slot true j).trans ?_
      simp only [Sched.createPrep]
      rw [Sched.modify_field _ _ _ _ PCB.rsp rfl]
      have hnew : ∀ t : Sched, t.processTable = k.sched.processTable →
          ((t.modify slot (Sched.created k.sched.nextPid k.sched.current.pid name pr' fg
            stack)).processTable j).rsp =
              if j = slot then initialRsp stack else (k.proc j).rsp := by
        intro t ht
        rw [Sched.modify_processTable, ht]
        split <;> rfl
      split
      · rw [Sched.modify_field _ _ _ _ PCB.rsp rfl]
        exact hnew _ rfl
      · exact hnew _ rfl

/-- **Live processes keep their stack pointers** in every piece of kernel code
but the timer. -/
theorem exec_rsp {op : Op} (htick : ∀ rsp, op ≠ .tick rsp) {j : Slot}
    (hlive : (k.proc j).state ≠ .dead) (hlive' : ((k.exec op).proc j).state ≠ .dead) :
    ((k.exec op).proc j).rsp = (k.proc j).rsp := by
  have hsame : SameRsp k.sched (k.exec op).sched → ((k.exec op).proc j).rsp = (k.proc j).rsp :=
    fun h => h j
  have hwakes := k.exec_wakes op
  cases op with
  | create name pr fg stack =>
      rcases hslot : k.sched.findFreeSlot with - | slot
      · refine hsame (.of_table ?_)
        show (k.sched.schedulerCreate name pr fg stack).1.processTable = _
        simp only [Sched.schedulerCreate, hslot]
      · by_cases hstack : stack = 0
        · refine hsame (.of_table ?_)
          show (k.sched.schedulerCreate name pr fg stack).1.processTable = _
          simp only [Sched.schedulerCreate, hslot, if_pos hstack]
        · rw [create_rsp hslot hstack, if_neg]
          rintro rfl
          exact hlive (Sched.findFreeSlot_some hslot).2
  | kill pid => exact hsame (k.schedulerKill_sameRsp pid)
  | killForeground =>
      apply hsame
      show SameRsp k.sched k.schedulerKillForeground.1.sched
      unfold schedulerKillForeground
      split
      · exact .refl _
      · exact k.schedulerKill_sameRsp _
  | block pid => exact hsame (k.sched.schedulerBlock_sameRsp pid)
  | unblock pid => exact hsame (k.sched.schedulerUnblock_wakes (S := fun _ => True) trivial).sameRsp
  | nice pid pr => exact hsame (k.sched.schedulerNice_sameRsp pid pr)
  | wait pid =>
      have hcase := k.sched.schedulerWait_cases pid
      have hexec : (k.exec (.wait pid)).proc j = (k.sched.schedulerWait pid).1.processTable j := rfl
      rw [hexec] at hlive' ⊢
      generalize k.sched.schedulerWait pid = r at hcase hlive'
      cases hcase with
      | refused => rfl
      | reaps i s' _ _ _ _ hs' =>
          have hj : j ≠ i ∨ i = 0 := by
            by_contra hn
            rw [not_or, not_not] at hn
            obtain ⟨rfl, h0⟩ := hn
            apply hlive'
            subst hs'
            show ((k.sched.reapProcess j).core j).state = .dead
            rw [k.sched.reapProcess_core h0, Function.update_self]
            rfl
          subst hs'
          show ((k.sched.reapProcess i).processTable j).rsp = _
          simp only [Sched.reapProcess]
          split
          · rfl
          · rename_i h0
            rw [Sched.modify_of_ne _ _ _ _ (hj.resolve_right h0)]
            split
            · exact (k.sched.removeFromReadyQueue_requeued i).sameRsp j
            · exact (k.sched.removeFromReadyQueue_requeued i).sameRsp j
      | blocks i _ _ _ _ =>
          exact SameRsp.modify k.sched k.sched.currentIdx (f := Sched.waiting pid) (fun _ => rfl) j
  | exit status => exact hsame (k.schedulerExitCurrent_sameRsp status)
  | yield => exact hsame (SameRsp.modify k.sched _ (f := Sched.expired) fun _ => rfl)
  | tick rsp => exact absurd rfl (htick rsp)
  | semWait semId => exact hsame (k.semWait_sameRsp semId)
  | semOpen | semPost | semPostAll | semClose | pipeOpen | pipeClose => exact hsame (hwakes trivial).sameRsp
  | pipeSetFd pid fd pipeId w =>
      apply hsame
      exact syscallPipeSetFd_invariant (P := fun k' => SameRsp k.sched k'.sched) (.refl _)
        (fun _ i _ _ hrel => hrel.wakes.sameRsp.trans (.modify _ i fun _ => rfl)) _ _ _ _
  | pipeRead p => exact hsame (k.pipeReadStep_cases p).sameRsp
  | pipeWrite p c => exact hsame (k.pipeWriteStep_cases p c).sameRsp

theorem tick_rsp (k : Kernel) (rsp : Nat) (j : Slot) :
    ((k.exec (.tick rsp)).proc j).rsp =
      if j = k.sched.currentIdx then rsp else (k.proc j).rsp :=
  k.sched.schedulerTick_rsp rsp j

end Kernel

end TP2Kernel
