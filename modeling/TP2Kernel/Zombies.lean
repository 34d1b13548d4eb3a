/-
TP2Kernel/Zombies.lean

What can become of a zombie.  A process that has ended keeps its slot and its
pid until its parent waits for it or it is killed.  `scheduler_block` looks
for any process that is not dead, and a process ended from the keyboard goes
on running its system call until the next reschedule; by these two ways a
zombie can be made blocked again (`Revives`).  Every other piece of kernel
code leaves zombies alone.
-/
import TP2Kernel.Lives

namespace TP2Kernel

namespace Kernel

variable {k : Kernel}

/-- The piece blocks a zombie: `scheduler_block` aimed at one, or a zombie that
is still current waits. -/
def Revives (k : Kernel) : Op → Prop
  | .block pid => ∃ i, k.sched.findIndexByPid pid = some i ∧ (k.life i).state = .zombie
  | .wait pid =>
      (k.life k.sched.currentIdx).state = .zombie ∧ 0 < pid ∧
        ∃ i, k.sched.findIndexByPid pid = some i ∧
          (k.life i).parentPid = (k.life k.sched.currentIdx).pid ∧ (k.life i).state ≠ .zombie
  | op => (k.life k.sched.currentIdx).state = .zombie ∧ k.Parks op

instance (k : Kernel) : DecidablePred k.Parks := fun op => by
  induction op using Op.casesOn <;> dsimp only [Parks] <;> infer_instance

instance (k : Kernel) : DecidablePred k.Revives := fun op => by
  induction op using Op.casesOn <;> dsimp only [Revives] <;> infer_instance

/-- The piece ends the time of the zombie in slot `j`: its parent waits for it,
or it is killed. -/
def Clears (k : Kernel) (j : Slot) (op : Op) : Prop :=
  op = .wait (k.life j).pid ∧ (k.life j).parentPid = (k.life k.sched.currentIdx).pid ∨
    (op = .kill (k.life j).pid ∨ op = .killForeground) ∧ k.target op = some j

/-- A pid leads to the process that has it. -/
theorem Distinct.find_eq (hd : k.Distinct) {j : Slot} (hpos : 0 < (k.life j).pid)
    (hlive : (k.life j).state ≠ .dead) : k.sched.findIndexByPid (k.life j).pid = some j := by
  rcases hf : k.sched.findIndexByPid (k.life j).pid with - | i
  · exact absurd (Sched.findIndexByPid_none hf j rfl) hlive
  · have hpid : (k.life i).pid = (k.life j).pid := (Sched.findIndexByPid_some hf).1
    rw [hd i j hpid (by omega)]

theorem Pids.find_eq (hp : Pids k) {j : Slot} (h0 : j ≠ 0) (hd : (k.life j).state ≠ .dead) :
    k.sched.findIndexByPid (k.life j).pid = some j :=
  hp.distinct.find_eq (hp.live j h0 hd).1 hd

theorem Pids.ne_zero_of_zombie (hp : Pids k) {j : Slot} (hz : (k.life j).state = .zombie) :
    j ≠ 0 := by
  rintro rfl
  exact hp.idle.2.2 hz

/-- One step of a zombie. -/
theorem LifeStep.zombie {op : Op} {j : Slot} {l : Life} (hp : Pids k) (h : k.LifeStep op j l)
    (hz : (k.life j).state = .zombie) (hop : ¬ k.Revives op) :
    (l.state = .zombie ∧ l.pid = (k.life j).pid) ∨ (l.state = .dead ∧ k.Clears j op) := by
  cases h with
  | keeps => exact .inl ⟨hz, rfl⟩
  | creates hj _ _ => cases hz.symm.trans (Sched.findFreeSlot_some hj).2
  | renices => exact .inl ⟨hz, rfl⟩
  | wakes hb _ => cases hz.symm.trans hb
  | releases _ hb _ => cases hz.symm.trans hb
  | blocks hj => exact absurd ⟨j, hj, hz⟩ hop
  | parks hparks hj =>
      -- the caller is the process found by its own pid
      have hpid : (k.life j).pid = (k.life k.sched.currentIdx).pid :=
        (Sched.findIndexByPid_some hj).1
      have hcur : j = k.sched.currentIdx := by
        have hlive := hp.live j (hp.ne_zero_of_zombie hz) (by rw [hz]; decide)
        exact hp.distinct _ _ hpid hlive.1
      rw [hcur] at hz
      cases op with
      | semWait _ => exact absurd ⟨hz, hparks⟩ hop
      | pipeRead _ => exact absurd ⟨hz, hparks⟩ hop
      | pipeWrite _ _ => exact absurd ⟨hz, hparks⟩ hop
      | _ => cases hparks
  | waits hpid hi hparent hne => exact absurd ⟨hz, hpid, _, hi, hparent, hne⟩ hop
  | reaps hpid hj hparent _ =>
      have hj' : (k.life j).pid = _ := (Sched.findIndexByPid_some hj).1
      exact .inr ⟨rfl, .inl ⟨congrArg Op.wait hj'.symm, hparent⟩⟩
  | ends => exact .inl ⟨rfl, rfl⟩
  | kills ht hne =>
      refine .inr ⟨rfl, .inr ⟨?_, ht⟩⟩
      rcases target_some ht with ⟨he, -⟩ | ⟨-, -, hkill⟩
      · exact absurd he hne
      · exact hkill
  | preempts hrun => cases hz.symm.trans hrun
  | dispatches hj =>
      rcases hj with h0 | hj
      · exact absurd h0 (hp.ne_zero_of_zombie hz)
      · exact absurd hz hj.2

/-! ### The exact condition -/

theorem semWait_eq_one {semId : Int} (h : 0 < (k.semWait semId).2) :
    (k.semWait semId).2 = 1 := by
  have hcase := k.semWait_cases semId
  generalize k.semWait semId = r at hcase h
  cases hcase with
  | refused _ => exact absurd h (show ¬ (0 : Int) < -1 by decide)
  | takes i _ _ => exact absurd h (lt_irrefl (0 : Int))
  | full i _ _ _ => exact absurd h (show ¬ (0 : Int) < -1 by decide)
  | parks i _ _ _ => rfl

theorem semWait_life {semId : Int} (h : (k.semWait semId).2 = 1) (j : Slot) :
    (k.semWait semId).1.life j =
      (k.sched.schedulerBlock k.sched.schedulerGetpid).life j := by
  show (k.semWait semId).1.sched.life j = _
  rw [semWait_sched, if_pos h]

/-- A step of `pipe_read` or `pipe_write` that blocks has called `sem_wait`. -/
theorem StepCases.parks {α : Type} {p : Fin maxPipes} {own other : Int} {move : Pipe → Pipe}
    {dry shut live : Prop} {fl bl ag sp dn : α} {r : Kernel × α}
    (hr : k.StepCases p own other move dry shut live fl bl ag sp dn r) (hb : r.2 = bl)
    (hne : fl ≠ bl ∧ ag ≠ bl ∧ sp ≠ bl ∧ dn ≠ bl) :
    r.1 = (k.semWait own).1 ∧ (k.semWait own).2 = 1 := by
  cases hr with
  | waits h =>
      refine ⟨rfl, ?_⟩
      simp only [waitSem] at hb
      split at hb
      · exact absurd hb hne.1
      · split at hb
        · exact semWait_eq_one ‹_›
        · exact absurd hb hne.2.1
  | stops _ => exact absurd hb hne.2.2.1
  | moves _ => exact absurd hb hne.2.2.2

/-- The semaphore for which a piece waits. -/
def parkSem (k : Kernel) : Op → Int
  | .semWait semId => semId
  | .pipeRead p => k.pipeSemData p
  | .pipeWrite p _ => k.pipeSemSpace p
  | _ => -1

/-- A piece that parks its caller is a `sem_wait` that blocks. -/
theorem Parks.semWait {op : Op} (h : k.Parks op) :
    k.exec op = (k.semWait (k.parkSem op)).1 ∧ (k.semWait (k.parkSem op)).2 = 1 := by
  cases op with
  | semWait semId => exact ⟨rfl, h⟩
  | pipeRead p =>
      exact (k.pipeReadStep_cases p).parks h ⟨(by rintro ⟨⟩), (by rintro ⟨⟩), (by rintro ⟨⟩), (by rintro ⟨⟩)⟩
  | pipeWrite p c =>
      exact (k.pipeWriteStep_cases p c).parks h
        ⟨(by rintro ⟨⟩), (by rintro ⟨⟩), (by rintro ⟨⟩), (by rintro ⟨⟩)⟩
  | _ => cases h

/-- A piece that parks its caller blocks it. -/
theorem Parks.life {op : Op} (h : k.Parks op) (j : Slot) :
    (k.exec op).life j = (k.sched.schedulerBlock k.sched.schedulerGetpid).life j := by
  rw [h.semWait.1]
  exact semWait_life h.semWait.2 j

/-- A wait for a child that has not ended blocks the caller. -/
theorem wait_blocked {pid : Int} {i : Slot} (hpid : 0 < pid)
    (hi : k.sched.findIndexByPid pid = some i)
    (hparent : (k.life i).parentPid = (k.life k.sched.currentIdx).pid)
    (hz : (k.life i).state ≠ .zombie) :
    ((k.exec (.wait pid)).life k.sched.currentIdx).state = .blocked := by
  unfold life
  simp only [exec, k.sched.schedulerWait_blocks hpid hi hparent hz]
  rw [Sched.life_update (k.sched.waiting_core pid), if_pos rfl]
  rfl

/-- **The condition is exact**: a zombie is blocked, made ready or run by a
piece of kernel code just if the piece revives one. -/
theorem revives_iff (hp : Sound k) (op : Op) :
    k.Revives op ↔ ∃ j, (k.life j).state = .zombie ∧
      ((k.exec op).life j).state ≠ .zombie ∧ ((k.exec op).life j).state ≠ .dead := by
  constructor
  · intro hrev
    have hparks : (k.life k.sched.currentIdx).state = .zombie ∧ k.Parks op →
        ∃ j, (k.life j).state = .zombie ∧
          ((k.exec op).life j).state ≠ .zombie ∧ ((k.exec op).life j).state ≠ .dead := by
      rintro ⟨hz, hparks⟩
      have hfind : k.sched.findIndexByPid k.sched.schedulerGetpid = some k.sched.currentIdx :=
        hp.pids.find_eq (hp.pids.ne_zero_of_zombie hz) hp.pids.current
      refine ⟨_, hz, ?_⟩
      rw [hparks.life, schedulerBlock_life, if_pos hfind]
      exact ⟨(by rintro ⟨⟩), (by rintro ⟨⟩)⟩
    cases op with
    | block pid =>
        obtain ⟨i, hi, hz⟩ := hrev
        have hl : (k.exec (.block pid)).life i = (k.life i).setState .blocked :=
          (schedulerBlock_life k.sched i).trans (if_pos hi)
        refine ⟨i, hz, ?_⟩
        rw [hl]
        exact ⟨(by rintro ⟨⟩), (by rintro ⟨⟩)⟩
    | wait pid =>
        obtain ⟨hz, hpid, i, hi, hparent, hne⟩ := hrev
        refine ⟨_, hz, ?_⟩
        rw [wait_blocked hpid hi hparent hne]
        exact ⟨(by rintro ⟨⟩), (by rintro ⟨⟩)⟩
    | _ => exact hparks hrev
  · rintro ⟨j, hz, hnz, hnd⟩
    by_contra hrev
    rcases (k.exec_lifeStep hp.ordered op j).zombie hp.pids hz hrev with ⟨h, -⟩ | ⟨h, -⟩
    · exact hnz h
    · exact hnd h

/-! ### Runs -/

/-- A pid that has been given out and belongs to zombies and dead processes
only. -/
structure Retired (pid : Int) (k : Kernel) : Prop where
  sound : Sound k
  old : pid < k.sched.nextPid
  ended : ∀ j, (k.life j).pid = pid → (k.life j).state = .zombie ∨ (k.life j).state = .dead

theorem exec_retired {pid : Int} (h : Retired pid k) {op : Op}
    (hop : ¬ k.Revives op) : Retired pid (k.exec op) := by
  refine ⟨exec_sound h.sound op, Int.lt_of_lt_of_le h.old (exec_nextPid_le op), fun j hj => ?_⟩
  have hstep := k.exec_lifeStep h.sound.ordered op j
  rcases hstep.pids h.sound.pids with ⟨hsame, -, hdead⟩ | ⟨hnew, -⟩ | ⟨-, hdead, -⟩
  · rcases h.ended j (hsame.symm.trans hj) with hz | hd
    · rcases hstep.zombie h.sound.pids hz hop with ⟨hz', -⟩ | ⟨hd', -⟩
      · exact .inl hz'
      · exact .inr hd'
    · exact .inr (hdead hd)
  · have := h.old
    omega
  · exact .inr hdead

/-- **A zombie stays a zombie until it is cleared.**  After any run that ends in
a state with a zombie, in every run whose pieces revive none, no process of
that pid is ready, running or blocked again, and the zombie goes only when its
parent waits for it or it is killed. -/
theorem zombie_terminal {idleStack : Nat} {k k' : Kernel} {i : Slot}
    (h : machine.Reach (init idleStack) k) (hz : (k.proc i).state = .zombie)
    (h' : (machine.restrict fun k op => ¬ k.Revives op).Reach k k') :
    (∀ j, (k'.proc j).pid = (k.proc i).pid →
      (k'.proc j).state = .zombie ∨ (k'.proc j).state = .dead) ∧
    (∀ op, ¬ k'.Revives op → ∀ j, (k'.proc j).state = .zombie →
      ((k'.exec op).proc j).state = .zombie ∧ ((k'.exec op).proc j).pid = (k'.proc j).pid ∨
      ((k'.exec op).proc j).state = .dead ∧ k'.Clears j op) ∧
    (∀ op, k'.Revives op ↔ ∃ j, (k'.proc j).state = .zombie ∧
      ((k'.exec op).proc j).state ≠ .zombie ∧ ((k'.exec op).proc j).state ≠ .dead) := by
  have hsound : Sound k := reach_sound h
  have hi0 : i ≠ 0 := hsound.pids.ne_zero_of_zombie hz
  have hpos : 0 < (k.life i).pid :=
    (hsound.pids.live i hi0 fun hd => by cases hz.symm.trans hd).1
  have hstart : Retired (k.life i).pid k := by
    refine ⟨hsound, hsound.pids.fresh i, fun j hj => .inl ?_⟩
    rw [← hsound.pids.distinct i j hj.symm hpos]
    exact hz
  have hret := machine_invariant h' hstart fun k op hk hop => exec_retired hk hop
  refine ⟨hret.ended, fun op hop j hj => ?_, fun op => revives_iff hret.sound op⟩
  exact (k'.exec_lifeStep hret.sound.ordered op j).zombie hret.sound.pids hj hop

/-- A child of the shell ends, the shell blocks and unblocks it in vain by
another pid, and then waits for it. -/
theorem zombie_terminal_child : ∃ k k' : Kernel,
    machine.Reach (init 1000) k ∧ (k.proc 2).state = .zombie ∧ (k.proc 2).pid = 2 ∧
      (machine.restrict fun k op => ¬ k.Revives op).Reach k k' ∧
      ∀ j, (k'.proc j).pid = 2 → (k'.proc j).state = .zombie ∨ (k'.proc j).state = .dead := by
  obtain ⟨k, hk, ⟨hz, hpid⟩, hrun⟩ := machine.exists_reach_of_trace (s := init 1000)
    [.create [115] 3 1 5000, .tick 0, .create [99] 3 0 9000, .tick 0, .exit 7, .tick 0]
    (P := fun k => ((k.proc 2).state = .zombie ∧ (k.proc 2).pid = 2) ∧
      ((machine.restrict fun k op => ¬ k.Revives op).trace k
        [.unblock 2, .block 1, .unblock 1, .tick 0, .wait 2]).isSome) (by decide +kernel)
  obtain ⟨k', hk'⟩ := Option.isSome_iff_exists.mp hrun
  have hreach := Machine.trace_reach hk'
  refine ⟨k, k', hk, hz, hpid, hreach, ?_⟩
  rw [← hpid]
  exact (zombie_terminal hk hz hreach).1

/-- **A zombie is blocked again**: the shell calls `sys_block` on its child
after the child has ended. -/
theorem zombie_blocked : ∃ k k' : Kernel,
    machine.Reach (init 1000) k ∧ (k.proc 2).state = .zombie ∧ machine.Reach k k' ∧
      (k'.proc 2).pid = (k.proc 2).pid ∧ (k'.proc 2).state = .blocked := by
  obtain ⟨k, hk, hz, hpid, hb⟩ := machine.exists_reach_of_trace (s := init 1000)
    [.create [115] 3 1 5000, .tick 0, .create [99] 3 0 9000, .tick 0, .exit 7, .tick 0]
    (P := fun k => (k.proc 2).state = .zombie ∧
      ((k.exec (.block 2)).proc 2).pid = (k.proc 2).pid ∧
      ((k.exec (.block 2)).proc 2).state = .blocked) (by decide +kernel)
  exact ⟨k, k.exec (.block 2), hk, hz, (Machine.Reach.refl k).tail trivial rfl, hpid, hb⟩

end Kernel

end TP2Kernel
