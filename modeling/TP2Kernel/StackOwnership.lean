/-
TP2Kernel/StackOwnership.lean

Who owns which slot, pid and stack.  A slot changes hands in two ways only: a
creation fills a free one, and a process dies, in `scheduler_wait` of its parent
or in `scheduler_kill` (`Turnover`); `scheduler_exit_current` leaves a zombie,
which still owns its slot and its stack.  So the three places that free a stack
and lower `process_count` keep one and the same account.

`mm_alloc` and `mm_free` appear as what they hand out and take back: `Grants`
follows the stacks that are allocated and the pids that have been given.
-/
import TP2Kernel.Lives
import Mathlib.Data.List.Basic
import Mathlib.Data.Fintype.Card

namespace TP2Kernel

/-! ### The counters -/

/-- The counters that creations and deaths change are the same. -/
structure SameBooks (s s' : Sched) : Prop where
  processCount : s'.processCount = s.processCount
  nextPid : s'.nextPid = s.nextPid
  idleStack : s'.idleStack = s.idleStack
  freed : s'.freed = s.freed

theorem Frame.books {s s' : Sched} (h : Frame s s') : SameBooks s s' :=
  ⟨h.processCount, h.nextPid, h.idleStack, h.freed⟩

theorem SameBooks.refl (s : Sched) : SameBooks s s := (Frame.refl s).books

/-- The slot holds the same process. -/
structure Life.Same (l l' : Life) : Prop where
  pid : l'.pid = l.pid
  parentPid : l'.parentPid = l.parentPid
  stackBase : l'.stackBase = l.stackBase
  dead : l'.state = .dead ↔ l.state = .dead

theorem Life.Same.refl (l : Life) : Life.Same l l := ⟨rfl, rfl, rfl, Iff.rfl⟩

namespace Kernel

variable {k : Kernel} {op : Op}

theorem tick_books (k : Kernel) (rsp : Nat) : SameBooks k.sched (k.exec (.tick rsp)).sched := by
  have hdispatch : ∀ {s : Sched}, SameBooks k.sched s → SameBooks k.sched s.dispatch.1 := by
    intro s h
    obtain ⟨hcount, hnext, hidle, hfreed⟩ := s.dispatch_frame
    exact ⟨hcount.trans h.processCount, hnext.trans h.nextPid, hidle.trans h.idleStack,
      hfreed.trans h.freed⟩
  have hcase := k.sched.schedulerTick_cases rsp
  show SameBooks k.sched (k.sched.schedulerTick rsp).1
  generalize (k.sched.schedulerTick rsp).1 = t at hcase
  cases hcase with
  | keeps _ => exact ⟨rfl, rfl, rfl, rfl⟩
  | preempts _ =>
      apply hdispatch
      exact ((Frame.modify _ _ _).trans ((Frame.modify _ _ _).trans (Sched.putBack_frame _))).books
  | switches _ =>
      apply hdispatch
      exact ⟨rfl, rfl, rfl, rfl⟩

/-- The pieces that end nobody, create nobody and wait for nobody. -/
theorem exec_books (ht : k.target op = none)
    (hcreate : ∀ name pr fg stack, op ≠ .create name pr fg stack) (hwait : ∀ pid, op ≠ .wait pid) :
    SameBooks k.sched (k.exec op).sched := by
  have hnothing : k.exec op = k → SameBooks k.sched (k.exec op).sched := by
    intro h
    rw [h]
    exact .refl _
  have hwakes := k.exec_wakes op
  cases op with
  | create name pr fg stack => exact absurd rfl (hcreate _ _ _ _)
  | wait pid => exact absurd rfl (hwait pid)
  | tick rsp => exact k.tick_books rsp
  | kill pid => exact hnothing (exec_target_none ht (.inr (.inl ⟨pid, rfl⟩)))
  | killForeground => exact hnothing (exec_target_none ht (.inr (.inr rfl)))
  | exit status => exact hnothing (exec_target_none ht (.inl ⟨status, rfl⟩))
  | block pid => exact (k.sched.schedulerBlock_frame pid).books
  | unblock pid => exact (k.sched.schedulerUnblock_frame pid).books
  | nice pid pr => exact (k.sched.schedulerNice_frame pid pr).books
  | yield => exact ⟨rfl, rfl, rfl, rfl⟩
  | semWait semId => exact (k.semWait_frame semId).books
  | semOpen | semPost | semPostAll | semClose | pipeOpen | pipeClose => exact (hwakes trivial).frame.books
  | pipeSetFd pid fd pipeId w =>
      exact syscallPipeSetFd_invariant (P := fun k' => SameBooks k.sched k'.sched) (.refl _)
        (fun _ _ _ _ hrel => (hrel.wakes.frame.trans (.modify _ _ _)).books) _ _ _ _
  | pipeRead p => exact (k.pipeReadStep_cases p).frame.books
  | pipeWrite p c => exact (k.pipeWriteStep_cases p c).frame.books

/-- What `scheduler_kill` does to the counters. -/
theorem bury_books (s : Sched) (i : Slot) (pid : Int) :
    (bury s i pid).processCount = s.processCount - 1 ∧ (bury s i pid).nextPid = s.nextPid ∧
      (bury s i pid).idleStack = s.idleStack ∧
      (bury s i pid).freed =
        if (s.life i).stackBase ≠ s.idleStack then (s.life i).stackBase :: s.freed
        else s.freed := by
  have hw := Sched.wakeWaiters_frame
  have hf := Sched.ensureForegroundOwner_frame
  have hbase : ((s.modify i killed).processTable i).stackBase = (s.life i).stackBase := by
    rw [Sched.modify_self]
    rfl
  simp only [bury, hbase]
  rw [(hf _).processCount, (hf _).nextPid, (hf _).idleStack, (hf _).freed,
    (hw _ _ _).processCount, (hw _ _ _).nextPid, (hw _ _ _).idleStack, (hw _ _ _).freed]
  by_cases hs : (s.life i).stackBase ≠ s.idleStack
  · have hs' : (s.life i).stackBase ≠ (s.modify i killed).idleStack := hs
    rw [if_pos hs, if_pos hs']
    exact ⟨rfl, rfl, rfl, rfl⟩
  · have hs' : ¬ (s.life i).stackBase ≠ (s.modify i killed).idleStack := hs
    rw [if_neg hs, if_neg hs']
    exact ⟨rfl, rfl, rfl, rfl⟩

/-- What `reap_process` does to the counters. -/
theorem reapProcess_books (s : Sched) {i : Slot} (h0 : i ≠ 0)
    (hstack : (s.life i).stackBase ≠ 0 ∧ (s.life i).stackBase ≠ s.idleStack) :
    (s.reapProcess i).processCount = s.processCount ∧
      (s.reapProcess i).freed = (s.life i).stackBase :: s.freed := by
  have hr := (s.removeFromReadyQueue_requeued i).frame
  have hbase : ((s.removeFromReadyQueue i).processTable i).stackBase = (s.life i).stackBase :=
    (s.removeFromReadyQueue_requeued i).field i PCB.stackBase fun _ => rfl
  simp only [Sched.reapProcess, if_neg h0, hbase, hr.idleStack, if_pos hstack]
  exact ⟨hr.processCount, congrArg ((s.life i).stackBase :: ·) hr.freed⟩

/-! ### Turnover -/

/-- What a creation obtains: a stack from `mm_alloc` and a pid. -/
def obtained (k : Kernel) : Op → List (Nat × Int)
  | .create name pr fg stack =>
      let pid := (k.sched.schedulerCreate name pr fg stack).2
      if pid < 0 then [] else [(stack, pid)]
  | _ => []

/-- What a piece of kernel code makes of the slots. -/
inductive Turnover (k : Kernel) (op : Op) : Prop
  | same (hnone : k.obtained op = []) (hbooks : SameBooks k.sched (k.exec op).sched)
      (hlife : ∀ j, Life.Same (k.life j) ((k.exec op).life j))
  | birth (name : List UInt8) (pr fg : Int) (stack : Nat) (j : Slot)
      (hop : op = .create name pr fg stack) (hj : k.sched.findFreeSlot = some j)
      (hstack : stack ≠ 0)
      (hnew : ((k.exec op).life j).pid = k.sched.nextPid ∧
        ((k.exec op).life j).parentPid = (k.life k.sched.currentIdx).pid ∧
        ((k.exec op).life j).stackBase = stack ∧ ((k.exec op).life j).state = .ready)
      (hgot : k.obtained op = [(stack, k.sched.nextPid)])
      (hcount : (k.exec op).sched.processCount = k.sched.processCount + 1)
      (hnext : (k.exec op).sched.nextPid = k.sched.nextPid + 1)
      (hidle : (k.exec op).sched.idleStack = k.sched.idleStack)
      (hfreed : (k.exec op).sched.freed = k.sched.freed)
      (hother : ∀ i, i ≠ j → Life.Same (k.life i) ((k.exec op).life i))
  | death (j : Slot) (hnone : k.obtained op = []) (hj : j ≠ 0) (hcur : j ≠ k.sched.currentIdx)
      (hlive : (k.life j).state ≠ .dead)
      (hdead : ((k.exec op).life j).state = .dead ∧ ((k.exec op).life j).stackBase = 0)
      (hcount : (k.exec op).sched.processCount = k.sched.processCount - 1)
      (hnext : (k.exec op).sched.nextPid = k.sched.nextPid)
      (hidle : (k.exec op).sched.idleStack = k.sched.idleStack)
      (hfreed : (k.exec op).sched.freed = (k.life j).stackBase :: k.sched.freed)
      (hother : ∀ i, i ≠ j → Life.Same (k.life i) ((k.exec op).life i))

/-- A slot in which nobody is created, reaped or killed. -/
theorem LifeStep.same {j : Slot} {l : Life} (h : k.LifeStep op j l)
    (hcreate : ∀ name pr fg stack, op = .create name pr fg stack →
      k.sched.findFreeSlot = some j → stack = 0)
    (hreap : ∀ pid, op = .wait pid → k.sched.findIndexByPid pid = some j →
      (k.life j).parentPid = (k.life k.sched.currentIdx).pid → (k.life j).state ≠ .zombie)
    (hkill : k.target op = some j → j = k.sched.currentIdx)
    (hcur : (k.life k.sched.currentIdx).state ≠ .dead) (hidle : (k.life 0).state ≠ .dead) :
    Life.Same (k.life j) l := by
  have halive : ∀ {st : ProcState}, st ≠ .dead → (k.life j).state ≠ .dead →
      (st = .dead ↔ (k.life j).state = .dead) := fun h1 h2 => iff_of_false h1 h2
  cases h with
  | keeps => exact .refl _
  | creates hj hstack _ => exact absurd (hcreate _ _ _ _ rfl hj) hstack
  | renices => exact ⟨rfl, rfl, rfl, Iff.rfl⟩
  | wakes hb _ => exact ⟨rfl, rfl, rfl, halive (by rintro ⟨⟩) (by rw [hb]; rintro ⟨⟩)⟩
  | releases _ hb hw =>
      rw [Life.woken, if_pos ⟨hb, hw⟩]
      refine ⟨rfl, rfl, rfl, halive ?_ (by rw [hb]; rintro ⟨⟩)⟩
      split <;> rintro ⟨⟩
  | blocks hj => exact ⟨rfl, rfl, rfl, halive (by rintro ⟨⟩) (Sched.findIndexByPid_some hj).2⟩
  | parks _ hj => exact ⟨rfl, rfl, rfl, halive (by rintro ⟨⟩) (Sched.findIndexByPid_some hj).2⟩
  | waits => exact ⟨rfl, rfl, rfl, halive (by rintro ⟨⟩) hcur⟩
  | reaps _ hj hparent hz => exact absurd hz (hreap _ rfl hj hparent)
  | ends => exact ⟨rfl, rfl, rfl, halive (by rintro ⟨⟩) hcur⟩
  | kills ht hne => exact absurd (hkill ht) hne
  | preempts hrun => exact ⟨rfl, rfl, rfl, halive (by rintro ⟨⟩) hcur⟩
  | dispatches hj =>
      refine ⟨rfl, rfl, rfl, halive (by rintro ⟨⟩) ?_⟩
      rcases hj with rfl | hj
      · exact hidle
      · exact hj.1

/-- Live processes have a stack of their own, not the idle stack. -/
def Stacked (k : Kernel) : Prop :=
  ∀ j, j ≠ 0 → (k.life j).state ≠ .dead →
    (k.life j).stackBase ≠ 0 ∧ (k.life j).stackBase ≠ k.sched.idleStack

theorem turnover_of_nothing (hnone : k.obtained op = []) (h : k.exec op = k) : Turnover k op := by
  refine .same hnone ?_ fun j => ?_
  · rw [h]
    exact .refl _
  · rw [h]
    exact .refl _

theorem create_turnover (hs : Sound k) (name : List UInt8) (pr fg : Int) (stack : Nat) :
    Turnover k (.create name pr fg stack) := by
  have hother : ∀ {j : Slot}, k.sched.findFreeSlot = some j → ∀ i, i ≠ j →
      Life.Same (k.life i) ((k.exec (.create name pr fg stack)).life i) := by
    intro j hj i hij
    refine (k.exec_lifeStep hs.ordered _ i).same (fun _ _ _ _ _ hi => ?_) (fun _ e => by cases e)
      (fun e => by cases e) hs.pids.current hs.pids.idle.2.1
    exact absurd (Option.some.inj (hi.symm.trans hj)) hij
  have hcase := k.sched.schedulerCreate_cases name pr fg stack
  generalize hr : k.sched.schedulerCreate name pr fg stack = r at hcase
  have hexec : k.exec (.create name pr fg stack) = { k with sched := r.1 } := by
    rw [← hr]
    rfl
  cases hcase with
  | refused =>
      refine turnover_of_nothing ?_ hexec
      simp only [obtained, hr]
      rfl
  | creates slot pr' _ hslot hstack =>
      have hmr := (k.sched.createPrep name pr' fg stack slot).makeReady_frame slot true
      obtain ⟨-, hnext, hcount, hidle, hfreed⟩ := k.sched.createPrep_frame name pr' fg stack slot
      refine .birth name pr fg stack slot rfl hslot hstack ?_ ?_ ?_ ?_ ?_ ?_ (hother hslot)
      · have hlife : (k.exec (.create name pr fg stack)).life slot =
            ⟨k.sched.nextPid, (k.life k.sched.currentIdx).pid, .ready, -1, 0, stack, pr'⟩ := by
          rw [hexec]
          exact (k.createPrep_life hslot name pr' fg stack slot).trans (if_pos rfl)
        rw [hlife]
        exact ⟨rfl, rfl, rfl, rfl⟩
      · have hpos := hs.pids.next
        simp only [obtained, hr]
        exact if_neg (by omega)
      · rw [hexec]
        exact hmr.processCount.trans hcount
      · rw [hexec]
        exact hmr.nextPid.trans hnext
      · rw [hexec]
        exact hmr.idleStack.trans hidle
      · rw [hexec]
        exact hmr.freed.trans hfreed

/-- A wait that reaps. -/
theorem wait_reaps (hs : Sound k) (hstk : Stacked k) {pid : Int} {i : Slot} (hpid : 0 < pid)
    (hi : k.sched.findIndexByPid pid = some i)
    (hparent : (k.life i).parentPid = (k.life k.sched.currentIdx).pid)
    (hz : (k.life i).state = .zombie) :
    (k.sched.schedulerWait pid).2 = (k.life i).exitStatus ∧
      (∀ j, (k.exec (.wait pid)).life j =
        if j = i then ⟨0, 0, .dead, -1, 0, 0, 0⟩ else k.life j) ∧
      (k.exec (.wait pid)).sched.processCount = k.sched.processCount - 1 ∧
      (k.exec (.wait pid)).sched.freed = (k.life i).stackBase :: k.sched.freed := by
  have h0 : i ≠ 0 := by
    rintro rfl
    exact hs.pids.idle.2.2 hz
  have hlive : (k.life i).state ≠ .dead := by
    intro hd
    cases hz.symm.trans hd
  have hwait := k.sched.schedulerWait_reaps hpid hi hparent hz
  obtain ⟨hcount, hfreed⟩ := reapProcess_books k.sched h0 (hstk i h0 hlive)
  have hsched : (k.exec (.wait pid)).sched =
      { k.sched.reapProcess i with processCount := (k.sched.reapProcess i).processCount - 1 } := by
    show (k.sched.schedulerWait pid).1 = _
    rw [hwait]
  refine ⟨?_, fun j => ?_, ?_, ?_⟩
  · rw [hwait]
    rfl
  · rw [life, hsched]
    exact Sched.life_update (k.sched.reapProcess_core h0) j
  · rw [hsched, hcount]
  · rw [hsched]
    exact hfreed

theorem wait_turnover (hs : Sound k) (hstk : Stacked k) (pid : Int) : Turnover k (.wait pid) := by
  have hcase := k.sched.schedulerWait_cases pid
  have hstep := fun j => k.exec_lifeStep hs.ordered (.wait pid) j
  generalize hr : k.sched.schedulerWait pid = r at hcase
  have hexec : k.exec (.wait pid) = { k with sched := r.1 } := by
    rw [← hr]
    rfl
  have hlife : (∀ i, k.sched.findIndexByPid pid = some i →
        (k.life i).parentPid = (k.life k.sched.currentIdx).pid → (k.life i).state ≠ .zombie) →
      ∀ j, Life.Same (k.life j) ((k.exec (.wait pid)).life j) := by
    intro hz j
    refine (hstep j).same (fun _ _ _ _ e => by cases e) (fun pid' e hi hparent => ?_)
      (fun e => by cases e) hs.pids.current hs.pids.idle.2.1
    obtain rfl := Op.wait.inj e
    exact hz j hi hparent
  cases hcase with
  | refused => exact turnover_of_nothing rfl hexec
  | reaps i s' hpid hi hparent hz hs' =>
      have h0 : i ≠ 0 := by
        rintro rfl
        exact hs.pids.idle.2.2 hz
      have hlive : (k.life i).state ≠ .dead := by
        intro hd
        cases hz.symm.trans hd
      -- the parent is older than its child
      have hcur : i ≠ k.sched.currentIdx := by
        intro he
        have hlt := (hs.pids.live i h0 hlive).2
        have hparent' : (k.life i).parentPid = (k.life k.sched.currentIdx).pid := hparent
        rw [hparent', ← he] at hlt
        exact lt_irrefl _ hlt
      obtain ⟨-, hnext, hidle⟩ := k.sched.reapProcess_frame i
      obtain ⟨-, hlife', hcount, hfreed⟩ := wait_reaps hs hstk hpid hi hparent hz
      have hsched : (k.exec (.wait pid)).sched = s' := by rw [hexec]
      refine .death i rfl h0 hcur hlive ?_ ?_ ?_ ?_ ?_ fun j hj => ?_
      · rw [hlife', if_pos rfl]
        exact ⟨rfl, rfl⟩
      · exact hcount
      · rw [hsched, hs']
        exact hnext
      · rw [hsched, hs']
        exact hidle
      · exact hfreed
      · refine (hstep j).same (fun _ _ _ _ e => by cases e) (fun pid' e hi' _ => ?_)
          (fun e => by cases e) hs.pids.current hs.pids.idle.2.1
        obtain rfl := Op.wait.inj e
        exact absurd (Option.some.inj (hi'.symm.trans hi)) hj
  | blocks i _ hi _ hz =>
      refine .same rfl ?_ (hlife fun j hj _ => ?_)
      · rw [hexec]
        exact ⟨rfl, rfl, rfl, rfl⟩
      · obtain rfl := Option.some.inj (hi.symm.trans hj)
        exact hz

theorem target_turnover (hs : Sound k) (hstk : Stacked k) {i : Slot}
    (ht : k.target op = some i) : Turnover k op := by
  have hcreate : ∀ name pr fg stack, op = .create name pr fg stack → ∀ {p : Prop}, p := by
    rintro name pr fg stack rfl
    cases ht
  have hwait : ∀ pid, op = .wait pid → ∀ {p : Prop}, p := by
    rintro pid rfl
    cases ht
  have hsame : ∀ j, (j = i → j = k.sched.currentIdx) →
      Life.Same (k.life j) ((k.exec op).life j) := by
    intro j hj
    refine (k.exec_lifeStep hs.ordered op j).same (fun _ _ _ _ e => hcreate _ _ _ _ e)
      (fun _ e => hwait _ e) (fun htj => hj ?_) hs.pids.current hs.pids.idle.2.1
    exact (Option.some.inj (ht.symm.trans htj)).symm
  have hnone : k.obtained op = [] := by
    cases op with
    | create name pr fg stack => exact hcreate _ _ _ _ rfl
    | _ => rfl
  rcases exec_target hs.pids ht with ⟨hcur, -, hexec⟩ | ⟨hcur, hfind, h1, hexec⟩
  · refine .same hnone ?_ fun j => hsame j fun hj => hj.trans hcur
    rw [hexec]
    exact (k.schedulerExitCurrent_frame _).books
  · have h0 : i ≠ 0 := by
      rintro rfl
      rw [hs.pids.idle.1] at h1
      omega
    have hlive : (k.life i).state ≠ .dead := (Sched.findIndexByPid_some hfind).2
    obtain ⟨hne0, hneidle⟩ := hstk i h0 hlive
    -- what comes before the burial changes neither the counters nor this process
    have hframe := (k.killPrep_frame i (k.life i).pid).trans
      ((k.killPrep i (k.life i).pid).closeProcessFds_frame i)
    have hbooks := bury_books ((k.killPrep i (k.life i).pid).closeProcessFds i).sched i (k.life i).pid
    have hbase : (((k.killPrep i (k.life i).pid).closeProcessFds i).sched.life i).stackBase =
        (k.life i).stackBase := by
      have hprep := congrFun (k.killPrep_life i (k.life i).pid) i
      rcases (k.killPrep i (k.life i).pid).closeProcessFds_life i i with hl | ⟨-, -, hl⟩
      · rw [hprep] at hl
        exact congrArg Life.stackBase hl
      · rw [hprep] at hl
        exact (congrArg Life.stackBase hl :)
    have hsched : (k.exec op).sched =
        bury ((k.killPrep i (k.life i).pid).closeProcessFds i).sched i (k.life i).pid := by
      rw [hexec, killOther, onSched_sched]
    obtain ⟨l, -, hlife⟩ := k.killOther_life hfind i
    rw [if_pos rfl] at hlife
    rw [hbase, hframe.idleStack, if_pos hneidle, hframe.processCount, hframe.nextPid, hframe.freed,
      ← hsched] at hbooks
    obtain ⟨hcount, hnext, hidle, hfreed⟩ := hbooks
    refine .death i hnone h0 hcur hlive ?_ hcount hnext hidle hfreed fun j hj => hsame j fun he =>
      absurd he hj
    rw [hexec, hlife]
    exact ⟨rfl, if_pos hneidle⟩

/-- **The list of changes is complete.** -/
theorem exec_turnover (hs : Sound k) (hstk : Stacked k) (op : Op) : Turnover k op := by
  rcases ht : k.target op with - | i
  · have hrest : k.obtained op = [] → (∀ name pr fg stack, op ≠ .create name pr fg stack) →
        (∀ pid, op ≠ .wait pid) → Turnover k op := by
      intro hnone hcreate hwait
      refine .same hnone (exec_books ht hcreate hwait) fun j => ?_
      refine (k.exec_lifeStep hs.ordered op j).same (fun _ _ _ _ e => absurd e (hcreate _ _ _ _))
        (fun _ e => absurd e (hwait _)) (fun htj => ?_) hs.pids.current hs.pids.idle.2.1
      cases ht.symm.trans htj
    cases op with
    | create name pr fg stack => exact create_turnover hs name pr fg stack
    | wait pid => exact wait_turnover hs hstk pid
    | _ => exact hrest rfl (fun _ _ _ _ => by rintro ⟨⟩) fun _ => by rintro ⟨⟩
  · exact target_turnover hs hstk ht

theorem exec_stacked (hs : Sound k) (hstk : Stacked k)
    (hnew : ∀ name pr fg stack, op = .create name pr fg stack → stack ≠ k.sched.idleStack) :
    Stacked (k.exec op) := by
  have hkeep : ∀ {j : Slot}, (k.exec op).sched.idleStack = k.sched.idleStack →
      Life.Same (k.life j) ((k.exec op).life j) → j ≠ 0 → ((k.exec op).life j).state ≠ .dead →
      ((k.exec op).life j).stackBase ≠ 0 ∧
        ((k.exec op).life j).stackBase ≠ (k.exec op).sched.idleStack := by
    intro j hidle hsame hj hlive
    rw [hsame.stackBase, hidle]
    exact hstk j hj (hsame.dead.not.mp hlive)
  intro j hj hlive
  rcases exec_turnover hs hstk op with ⟨-, hbooks, hlife⟩ |
    ⟨name, pr, fg, stack, i, hop, -, hstack, hlife, -, -, -, hidle, -, hother⟩ |
    ⟨i, -, -, -, -, hdead, -, -, hidle, -, hother⟩
  · exact hkeep hbooks.idleStack (hlife j) hj hlive
  · by_cases hij : j = i
    · subst hij
      rw [hlife.2.2.1, hidle]
      exact ⟨hstack, hnew name pr fg stack hop⟩
    · exact hkeep hidle (hother j hij) hj hlive
  · have hij : j ≠ i := by
      rintro rfl
      exact hlive hdead.1
    exact hkeep hidle (hother j hij) hj hlive

/-! ### The heap's side -/

/-- The stacks that are allocated, and the pids given out so far. -/
structure Grants where
  live : List Nat
  pids : List Int

/-- What is passed to `mm_free`. -/
def freedBy (k : Kernel) (op : Op) : List Nat :=
  (k.exec op).sched.freed.take ((k.exec op).sched.freed.length - k.sched.freed.length)

/-- `mm_alloc` and `mm_free`. -/
def Grants.after (g : Grants) (k : Kernel) (op : Op) : Grants :=
  ⟨((k.obtained op).map Prod.fst ++ g.live).diff (k.freedBy op),
    (k.obtained op).map Prod.snd ++ g.pids⟩

/-- Two stacks do not overlap. -/
def NoOverlap (a b : Nat) : Prop := a + stackSize ≤ b ∨ b + stackSize ≤ a

instance (a b : Nat) : Decidable (NoOverlap a b) := inferInstanceAs (Decidable (_ ∨ _))

theorem NoOverlap.symm {a b : Nat} (h : NoOverlap a b) : NoOverlap b a := Or.symm h

theorem NoOverlap.ne {a b : Nat} (h : NoOverlap a b) : a ≠ b := by
  unfold NoOverlap stackSize at h
  omega

theorem freedBy_nil (h : (k.exec op).sched.freed = k.sched.freed) : k.freedBy op = [] := by
  unfold freedBy
  rw [h, Nat.sub_self, List.take_zero]

theorem freedBy_cons {b : Nat} (h : (k.exec op).sched.freed = b :: k.sched.freed) :
    k.freedBy op = [b] := by
  unfold freedBy
  rw [h, List.length_cons, Nat.add_sub_cancel_left, List.take_succ_cons, List.take_zero]

/-- Slots, pids and stacks belong together. -/
structure Owned (idleStack : Nat) (k : Kernel) (g : Grants) : Prop where
  sound : Sound k
  idle : k.sched.idleStack = idleStack ∧ (k.life 0).stackBase = idleStack
  count : k.sched.processCount =
    ((Finset.univ.filter fun j => (k.life j).state ≠ .dead).card : Int)
  stack : ∀ j, j ≠ 0 → ((k.life j).stackBase ≠ 0 ↔ (k.life j).state ≠ .dead)
  apart : ∀ i j, i ≠ j → (k.life i).state ≠ .dead → (k.life j).state ≠ .dead →
    NoOverlap (k.life i).stackBase (k.life j).stackBase
  live : ∀ b, b ∈ g.live ↔ ∃ j, j ≠ 0 ∧ (k.life j).state ≠ .dead ∧ (k.life j).stackBase = b
  once : g.live.Nodup
  pids : g.pids.Nodup ∧ ∀ pid ∈ g.pids, pid < k.sched.nextPid
  given : ∀ j, j ≠ 0 → (k.life j).state ≠ .dead → (k.life j).pid ∈ g.pids

variable {idleStack : Nat} {g : Grants}

theorem Owned.stacked (h : Owned idleStack k g) : Stacked k := by
  intro j hj hlive
  refine ⟨(h.stack j hj).mpr hlive, ?_⟩
  have hapart := h.apart j 0 hj hlive h.sound.pids.idle.2.1
  rw [h.idle.2] at hapart
  rw [h.idle.1]
  exact hapart.ne

theorem Owned.same (h : Owned idleStack k g) (hnone : k.obtained op = [])
    (hbooks : SameBooks k.sched (k.exec op).sched)
    (hlife : ∀ j, Life.Same (k.life j) ((k.exec op).life j)) :
    Owned idleStack (k.exec op) (g.after k op) := by
  have hafter : g.after k op = g := by
    rw [Grants.after, hnone, freedBy_nil hbooks.freed, List.diff_nil]
    rfl
  have hdead : ∀ j, ((k.exec op).life j).state ≠ .dead ↔ (k.life j).state ≠ .dead := fun j =>
    (hlife j).dead.not
  rw [hafter]
  refine ⟨exec_sound h.sound op, ⟨hbooks.idleStack.trans h.idle.1, ?_⟩, ?_, fun j hj => ?_,
    fun i j hij hi hj => ?_, fun b => ?_, h.once, ⟨h.pids.1, ?_⟩, fun j hj hlive => ?_⟩
  · rw [(hlife 0).stackBase]
    exact h.idle.2
  · rw [hbooks.processCount, h.count]
    congr 2
    ext j
    simp only [Finset.mem_filter, Finset.mem_univ, true_and]
    exact (hdead j).symm
  · rw [(hlife j).stackBase, hdead]
    exact h.stack j hj
  · rw [(hlife i).stackBase, (hlife j).stackBase]
    exact h.apart i j hij ((hdead i).mp hi) ((hdead j).mp hj)
  · rw [h.live]
    refine exists_congr fun j => ?_
    rw [hdead, (hlife j).stackBase]
  · rw [hbooks.nextPid]
    exact h.pids.2
  · rw [(hlife j).pid]
    exact h.given j hj ((hdead j).mp hlive)

/-- One slot more. -/
theorem card_filter_succ {A A' : Slot → Prop} [DecidablePred A] [DecidablePred A'] {j : Slot}
    (hj : ¬ A j) (hj' : A' j) (h : ∀ i, i ≠ j → (A' i ↔ A i)) :
    (Finset.univ.filter A').card = (Finset.univ.filter A).card + 1 := by
  have hins : Finset.univ.filter A' = insert j (Finset.univ.filter A) := by
    ext i
    simp only [Finset.mem_insert, Finset.mem_filter, Finset.mem_univ, true_and]
    by_cases hi : i = j
    · subst hi
      exact iff_of_true hj' (.inl rfl)
    · rw [h i hi]
      exact (or_iff_right hi).symm
  rw [hins, Finset.card_insert_of_notMem fun hm => hj (Finset.mem_filter.mp hm).2]

/-- A stack apart from those the heap has given overlaps no stack of a live process. -/
theorem Owned.apart_of_fresh (h : Owned idleStack k g) {stack : Nat}
    (hfresh : ∀ b ∈ k.sched.idleStack :: g.live, NoOverlap stack b) {i : Slot}
    (hi : (k.life i).state ≠ .dead) : NoOverlap stack (k.life i).stackBase := by
  apply hfresh
  by_cases h0 : i = 0
  · subst h0
    rw [h.idle.2, h.idle.1]
    exact List.mem_cons_self
  · exact List.mem_cons_of_mem _ ((h.live _).mpr ⟨i, h0, hi, rfl⟩)

theorem Owned.birth (h : Owned idleStack k g) {stack : Nat} {j : Slot}
    (hj : k.sched.findFreeSlot = some j) (hstack : stack ≠ 0)
    (hnew : ((k.exec op).life j).pid = k.sched.nextPid ∧
      ((k.exec op).life j).stackBase = stack ∧ ((k.exec op).life j).state = .ready)
    (hgot : k.obtained op = [(stack, k.sched.nextPid)])
    (hcount : (k.exec op).sched.processCount = k.sched.processCount + 1)
    (hnext : (k.exec op).sched.nextPid = k.sched.nextPid + 1)
    (hidle : (k.exec op).sched.idleStack = k.sched.idleStack)
    (hfreed : (k.exec op).sched.freed = k.sched.freed)
    (hother : ∀ i, i ≠ j → Life.Same (k.life i) ((k.exec op).life i))
    (hfresh : ∀ b ∈ k.sched.idleStack :: g.live, NoOverlap stack b) :
    Owned idleStack (k.exec op) (g.after k op) := by
  obtain ⟨hpid, hbase, hready⟩ := hnew
  obtain ⟨hj0, hjdead⟩ := Sched.findFreeSlot_some hj
  have hafter : g.after k op = ⟨stack :: g.live, k.sched.nextPid :: g.pids⟩ := by
    rw [Grants.after, hgot, freedBy_nil hfreed, List.diff_nil]
    rfl
  have hjlive : ((k.exec op).life j).state ≠ .dead := by
    rw [hready]
    rintro ⟨⟩
  have hdead : ∀ {i}, i ≠ j →
      (((k.exec op).life i).state ≠ .dead ↔ (k.life i).state ≠ .dead) := fun hi =>
    (hother _ hi).dead.not
  rw [hafter]
  refine ⟨exec_sound h.sound op, ⟨hidle.trans h.idle.1, ?_⟩, ?_, fun i hi => ?_,
    fun i i' hne hi hi' => ?_, fun b => ?_, ?_, ⟨?_, fun pid hp => ?_⟩, fun i hi hlive => ?_⟩
  · rw [(hother 0 hj0.symm).stackBase]
    exact h.idle.2
  · rw [card_filter_succ (A := fun i => (k.life i).state ≠ .dead) (fun hn => hn hjdead) hjlive
      fun _ => hdead, hcount, h.count]
    push_cast
    rfl
  · by_cases hij : i = j
    · subst hij
      rw [hbase]
      exact iff_of_true hstack hjlive
    · rw [(hother i hij).stackBase, hdead hij]
      exact h.stack i hi
  · by_cases hij : i = j
    · subst hij
      have hi'j := hne.symm
      rw [hbase, (hother i' hi'j).stackBase]
      exact h.apart_of_fresh hfresh ((hdead hi'j).mp hi')
    · by_cases hi'j : i' = j
      · subst hi'j
        rw [hbase, (hother i hij).stackBase]
        exact (h.apart_of_fresh hfresh ((hdead hij).mp hi)).symm
      · rw [(hother i hij).stackBase, (hother i' hi'j).stackBase]
        exact h.apart i i' hne ((hdead hij).mp hi) ((hdead hi'j).mp hi')
  · rw [List.mem_cons, h.live]
    constructor
    · rintro (rfl | ⟨i, hi0, hi, hb⟩)
      · exact ⟨j, hj0, hjlive, hbase⟩
      · have hij : i ≠ j := fun e => hi (e ▸ hjdead)
        exact ⟨i, hi0, (hdead hij).mpr hi, (hother i hij).stackBase.trans hb⟩
    · rintro ⟨i, hi0, hi, hb⟩
      by_cases hij : i = j
      · subst hij
        exact .inl (hb.symm.trans hbase)
      · exact .inr ⟨i, hi0, (hdead hij).mp hi, (hother i hij).stackBase.symm.trans hb⟩
  · refine List.nodup_cons.mpr ⟨fun hm => ?_, h.once⟩
    exact (hfresh stack (List.mem_cons_of_mem _ hm)).ne rfl
  · refine List.nodup_cons.mpr ⟨fun hm => ?_, h.pids.1⟩
    exact lt_irrefl _ (h.pids.2 _ hm)
  · rw [hnext]
    rcases List.mem_cons.mp hp with rfl | hp
    · exact Int.lt_add_one_of_le (le_refl _)
    · exact (h.pids.2 pid hp).trans (Int.lt_add_one_of_le (le_refl _))
  · by_cases hij : i = j
    · subst hij
      rw [hpid]
      exact List.mem_cons_self
    · rw [(hother i hij).pid]
      exact List.mem_cons_of_mem _ (h.given i hi ((hdead hij).mp hlive))

theorem Owned.death (h : Owned idleStack k g) {j : Slot} (hnone : k.obtained op = [])
    (hj : j ≠ 0) (hlive : (k.life j).state ≠ .dead)
    (hjdead : ((k.exec op).life j).state = .dead ∧ ((k.exec op).life j).stackBase = 0)
    (hcount : (k.exec op).sched.processCount = k.sched.processCount - 1)
    (hnext : (k.exec op).sched.nextPid = k.sched.nextPid)
    (hidle : (k.exec op).sched.idleStack = k.sched.idleStack)
    (hfreed : (k.exec op).sched.freed = (k.life j).stackBase :: k.sched.freed)
    (hother : ∀ i, i ≠ j → Life.Same (k.life i) ((k.exec op).life i)) :
    Owned idleStack (k.exec op) (g.after k op) := by
  have hafter : g.after k op = ⟨g.live.erase (k.life j).stackBase, g.pids⟩ := by
    rw [Grants.after, hnone, freedBy_cons hfreed, List.diff_cons, List.diff_nil]
    rfl
  have hdead : ∀ {i}, ((k.exec op).life i).state ≠ .dead ↔ i ≠ j ∧ (k.life i).state ≠ .dead := by
    intro i
    by_cases hij : i = j
    · subst hij
      exact iff_of_false (fun hn => hn hjdead.1) fun hn => hn.1 rfl
    · exact (hother i hij).dead.not.trans (and_iff_right hij).symm
  rw [hafter]
  refine ⟨exec_sound h.sound op, ⟨hidle.trans h.idle.1, ?_⟩, ?_, fun i hi => ?_,
    fun i i' hne hi hi' => ?_, fun b => ?_, h.once.erase _, ⟨h.pids.1, ?_⟩, fun i hi hlive' => ?_⟩
  · rw [(hother 0 hj.symm).stackBase]
    exact h.idle.2
  · have hcard := card_filter_succ (A := fun i => ((k.exec op).life i).state ≠ .dead)
      (fun hn => hn hjdead.1) hlive fun i hij => (hother i hij).dead.not.symm
    rw [hcount, h.count, hcard]
    push_cast
    omega
  · by_cases hij : i = j
    · subst hij
      exact iff_of_false (fun hn => hn hjdead.2) fun hn => hn hjdead.1
    · rw [(hother i hij).stackBase]
      exact (h.stack i hi).trans (hother i hij).dead.not.symm
  · obtain ⟨hij, hi⟩ := hdead.mp hi
    obtain ⟨hi'j, hi'⟩ := hdead.mp hi'
    rw [(hother i hij).stackBase, (hother i' hi'j).stackBase]
    exact h.apart i i' hne hi hi'
  · rw [h.once.mem_erase_iff, h.live]
    constructor
    · rintro ⟨hb, i, hi0, hi, rfl⟩
      have hij : i ≠ j := fun e => hb (by rw [e])
      exact ⟨i, hi0, hdead.mpr ⟨hij, hi⟩, (hother i hij).stackBase⟩
    · rintro ⟨i, hi0, hi, rfl⟩
      obtain ⟨hij, hi⟩ := hdead.mp hi
      rw [(hother i hij).stackBase]
      exact ⟨(h.apart i j hij hi hlive).ne, i, hi0, hi, rfl⟩
  · rw [hnext]
    exact h.pids.2
  · obtain ⟨hij, hi'⟩ := hdead.mp hlive'
    rw [(hother i hij).pid]
    exact h.given i hi hi'

/-! ### Runs -/

/-- `mm_alloc` hands out a stack that overlaps no allocated one. -/
def Fresh (k : Kernel) (g : Grants) (op : Op) : Prop :=
  ∀ x ∈ k.obtained op, ∀ b ∈ k.sched.idleStack :: g.live, NoOverlap x.1 b

/-- The kernel with the heap's side. -/
def stackMachine : Machine (Kernel × Grants) Op where
  guard := fun s op => Fresh s.1 s.2 op
  step := fun s op => some (s.1.exec op, s.2.after s.1 op)

instance (s : Kernel × Grants) (op : Op) : Decidable (stackMachine.guard s op) :=
  inferInstanceAs (Decidable (∀ x ∈ s.1.obtained op, ∀ b ∈ s.1.sched.idleStack :: s.2.live,
    NoOverlap x.1 b))

theorem exec_owned (h : Owned idleStack k g) (hfresh : Fresh k g op) :
    Owned idleStack (k.exec op) (g.after k op) := by
  rcases exec_turnover h.sound h.stacked op with ⟨hnone, hbooks, hlife⟩ |
    ⟨_, _, _, stack, j, -, hj, hstack, hnew, hgot, hcount, hnext, hidle, hfreed, hother⟩ |
    ⟨j, hnone, hj, -, hlive, hdead, hcount, hnext, hidle, hfreed, hother⟩
  · exact h.same hnone hbooks hlife
  · refine h.birth hj hstack ⟨hnew.1, hnew.2.2⟩ hgot hcount hnext hidle hfreed hother ?_
    unfold Fresh at hfresh
    rw [hgot] at hfresh
    exact hfresh _ List.mem_cons_self
  · exact h.death hnone hj hlive hdead hcount hnext hidle hfreed hother

theorem init_owned (idleStack : Nat) : Owned idleStack (init idleStack) ⟨[], []⟩ := by
  have hlife : ∀ j, j ≠ 0 → (init idleStack).life j = PCB.zero.life := by
    intro j hj
    simp only [life, Sched.life, Sched.core, init, Sched.schedulerInit, if_neg hj]
    rfl
  have hdead : ∀ {j}, ((init idleStack).life j).state ≠ .dead → j = 0 := by
    intro j hj
    by_contra h0
    rw [hlife j h0] at hj
    exact hj rfl
  refine ⟨init_sound idleStack, ⟨rfl, rfl⟩, ?_, fun j hj => ?_, fun i j hij hi hj => ?_, fun b => ?_,
    List.nodup_nil, ⟨List.nodup_nil, fun _ hm => absurd hm List.not_mem_nil⟩, fun j hj hlive => ?_⟩
  · have hone : (Finset.univ.filter fun j => ((init idleStack).life j).state ≠ .dead) = {0} := by
      ext j
      simp only [Finset.mem_filter, Finset.mem_univ, true_and, Finset.mem_singleton]
      refine ⟨hdead, ?_⟩
      rintro rfl
      exact (init_pids idleStack).idle.2.1
    rw [hone]
    rfl
  · rw [hlife j hj]
    exact iff_of_false (fun hn => hn rfl) fun hn => hn rfl
  · exact absurd ((hdead hi).trans (hdead hj).symm) hij
  · refine iff_of_false List.not_mem_nil ?_
    rintro ⟨j, hj, hlive, -⟩
    exact hj (hdead hlive)
  · exact absurd (hdead hlive) hj

/-- A free is for the stack of a process that dies and is not the current one. -/
def FreesDying (k : Kernel) (g : Grants) (op : Op) (stack : Nat) : Prop :=
  stack ∈ g.live ∧ stack ∉ (g.after k op).live ∧
    ∃ j, j ≠ 0 ∧ (k.proc j).stackBase = stack ∧ (k.proc j).state ≠ .dead ∧
      ((k.exec op).proc j).state = .dead ∧ j ≠ k.sched.currentIdx ∧
      j ≠ (k.exec op).sched.currentIdx

theorem Owned.frees (h : Owned idleStack k g) (op : Op) :
    ∀ stack ∈ k.freedBy op, k.freedBy op = [stack] ∧ FreesDying k g op stack := by
  intro stack hm
  rcases exec_turnover h.sound h.stacked op with ⟨-, hbooks, -⟩ |
    ⟨_, _, _, _, _, -, -, -, -, -, -, -, -, hfreed, -⟩ |
    ⟨j, hnone, hj, hcur, hlive, hdead, -, -, -, hfreed, -⟩
  · rw [freedBy_nil hbooks.freed] at hm
    exact absurd hm List.not_mem_nil
  · rw [freedBy_nil hfreed] at hm
    exact absurd hm List.not_mem_nil
  · have hby := freedBy_cons hfreed
    rw [hby] at hm
    obtain rfl := List.mem_singleton.mp hm
    refine ⟨hby, (h.live _).mpr ⟨j, hj, hlive, rfl⟩, ?_, j, hj, rfl, hlive, hdead.1, hcur, ?_⟩
    · rw [Grants.after, hnone, hby, List.diff_cons, List.diff_nil]
      exact fun hin => (h.once.mem_erase_iff.mp hin).1 rfl
    · intro he
      exact exec_current h.sound.ordered h.sound.pids op (he ▸ hdead.1)

/-- A `scheduler_create` that fails changes nothing. -/
theorem create_refused (hs : Sound k) {name : List UInt8} {pr fg : Int} {stack : Nat}
    (h : (k.sched.schedulerCreate name pr fg stack).2 = -1) :
    k.exec (.create name pr fg stack) = k := by
  have hpos := hs.pids.next
  have hcase := k.sched.schedulerCreate_cases name pr fg stack
  show { k with sched := (k.sched.schedulerCreate name pr fg stack).1 } = k
  generalize k.sched.schedulerCreate name pr fg stack = r at hcase h
  cases hcase with
  | refused => rfl
  | creates => exact absurd h (ne_of_gt (by omega))

/-- **Slots, pids and stacks have one owner**: in every state of a run in which
`mm_alloc` returns stacks that overlap no allocated one, live processes have
different pids, no pid has been given out twice, `process_count` counts the live
processes, idle keeps its slot, pid and stack, a slot has a stack if and only if
it is not dead, and the stacks of live processes do not overlap and are the
allocated ones.  The next piece frees at most one stack, an allocated one of a
process that dies and is not current; and a creation that fails changes
nothing. -/
theorem stacks_owned (h : stackMachine.Reach (init idleStack, ⟨[], []⟩) (k, g)) :
    (∀ i j, (k.proc i).state ≠ .dead → (k.proc j).state ≠ .dead →
      (k.proc i).pid = (k.proc j).pid → i = j) ∧
    (g.pids.Nodup ∧ ∀ j, j ≠ 0 → (k.proc j).state ≠ .dead → (k.proc j).pid ∈ g.pids) ∧
    k.sched.processCount =
      ((Finset.univ.filter fun j => (k.proc j).state ≠ .dead).card : Int) ∧
    ((k.proc 0).state ≠ .dead ∧ (k.proc 0).pid = 0 ∧ (k.proc 0).stackBase = idleStack) ∧
    (∀ j, j ≠ 0 → ((k.proc j).stackBase ≠ 0 ↔ (k.proc j).state ≠ .dead)) ∧
    (∀ i j, i ≠ j → (k.proc i).state ≠ .dead → (k.proc j).state ≠ .dead →
      NoOverlap (k.proc i).stackBase (k.proc j).stackBase) ∧
    (g.live.Nodup ∧ ∀ b, b ∈ g.live ↔
      ∃ j, j ≠ 0 ∧ (k.proc j).state ≠ .dead ∧ (k.proc j).stackBase = b) ∧
    (∀ op, ∀ stack ∈ k.freedBy op, k.freedBy op = [stack] ∧ FreesDying k g op stack) ∧
    ∀ name pr fg stack, (k.sched.schedulerCreate name pr fg stack).2 = -1 →
      k.exec (.create name pr fg stack) = k := by
  have hk : Owned idleStack k g := by
    refine h.invariant (I := fun s => Owned idleStack s.1 s.2) (init_owned idleStack) ?_
    intro s op s' hs hg hstep
    obtain rfl := Option.some.inj hstep
    exact exec_owned hs hg
  refine ⟨fun i j hi hj he => ?_, ⟨hk.pids.1, hk.given⟩, hk.count,
    ⟨hk.sound.pids.idle.2.1, hk.sound.pids.idle.1, hk.idle.2⟩, hk.stack, hk.apart,
    ⟨hk.once, hk.live⟩, hk.frees, fun _ _ _ _ hr => create_refused hk.sound hr⟩
  have hlive := fun {n : Slot} (hn : n ≠ 0) (hd : (k.proc n).state ≠ .dead) =>
    (hk.sound.pids.live n hn hd).1
  by_cases hi0 : i = 0
  · by_contra hne
    have hpos := hlive (fun hj0 => hne (hi0.trans hj0.symm)) hj
    have hzero : (k.proc j).pid = 0 := by
      rw [← he, hi0]
      exact hk.sound.pids.idle.1
    exact absurd hzero (ne_of_gt hpos)
  · exact hk.sound.pids.distinct i j he (hlive hi0 hi)

/-- A stack is used again after its first owner has been killed, and the kill of
the second owner frees it once more. -/
theorem stacks_owned_again : ∃ k g,
    stackMachine.Reach (init 1000, ⟨[], []⟩) (k, g) ∧ g.pids = [3, 2, 1] ∧
      g.live = [20000, 10000] ∧ k.freedBy (.kill 3) = [20000] ∧
      FreesDying k g (.kill 3) 20000 := by
  obtain ⟨⟨k, g⟩, hk, hpids, hlive, hfreed⟩ := stackMachine.exists_reach_of_trace
    (s := (init 1000, ⟨[], []⟩))
    [.create [115] 3 1 10000, .tick 0, .create [97] 3 0 20000, .kill 2, .create [98] 3 0 20000]
    (P := fun s => s.2.pids = [3, 2, 1] ∧ s.2.live = [20000, 10000] ∧
      s.1.freedBy (.kill 3) = [20000]) (by decide +kernel)
  have hfree := (stacks_owned hk).2.2.2.2.2.2.2.1 (.kill 3) 20000
  refine ⟨k, g, hk, hpids, hlive, hfreed, (hfree ?_).2⟩
  rw [hfreed]
  exact List.mem_cons_self

end Kernel

end TP2Kernel
