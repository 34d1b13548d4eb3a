/-
TP2Kernel/Foreground.lean

Who owns the keyboard.  The flag `foreground` is handed on by creation, exit,
kill and the two repairs `restore_parent_foreground` and
`ensure_foreground_owner`; every other piece of kernel code leaves it alone.

Two facts carry the result.  A process turns into a zombie only after
`restore_parent_foreground` has taken its flag, and no repair gives a flag to a
zombie (`Relieved`).  And whatever an end does with the flag on the way, it finishes
with `ensure_foreground_owner`, which finds the shell as long as the shell is
alive.
-/
import TP2Kernel.ExitNotice

namespace TP2Kernel

namespace Sched

/-- Some process other than idle owns the keyboard. -/
def Owned (s : Sched) : Prop :=
  ∃ i, i ≠ 0 ∧ (s.core i).state ≠ .dead ∧ (s.core i).state ≠ .zombie ∧ (s.core i).foreground ≠ 0

/-- No zombie owns the keyboard. -/
def Relieved (s : Sched) : Prop := ∀ i, (s.core i).state = .zombie → (s.core i).foreground = 0

/-- The shell is alive, and nobody else has its pid. -/
def Shell (l : Slot → Life) : Prop :=
  ∃ i, i ≠ 0 ∧ (l i).pid = 1 ∧ (l i).state ≠ .dead ∧ (l i).state ≠ .zombie ∧
    ∀ j, (l j).pid = 1 → j = i

/-! ### Zombies -/

section Relieved

variable {s s' : Sched} (h : Relieved s)
include h

theorem Relieved.update {i : Slot} {p : PCB} (hcore : s'.core = Function.update s.core i p)
    (hp : p.state = .zombie → p.foreground = 0) : Relieved s' := by
  intro j hj
  rw [hcore] at hj ⊢
  by_cases hji : j = i
  · subst hji
    rw [Function.update_self] at hj ⊢
    exact hp hj
  · rw [Function.update_of_ne hji] at hj ⊢
    exact h j hj

theorem Relieved.of_core (hcore : s'.core = s.core) : Relieved s' := by
  intro j hj
  rw [hcore] at hj ⊢
  exact h j hj

/-- A change of other fields. -/
theorem Relieved.modify (i : Slot) {f : PCB → PCB} (hstate : ∀ p, (f p).state = p.state)
    (hfg : ∀ p, (f p).foreground = p.foreground) : Relieved (s.modify i f) := by
  apply h.update (s.modify_core i f)
  intro hz
  have hz' : (s.core i).state = .zombie := (hstate (s.processTable i)).symm.trans hz
  exact (hfg (s.processTable i)).trans (h i hz')

theorem Relieved.wakes {S : Int → Prop} (hw : Wakes S s s') : Relieved s' := by
  intro j hj
  rcases hw.core j with hcore | ⟨-, -, hcore⟩
  · rw [hcore] at hj ⊢
    exact h j hj
  · rw [hcore] at hj
    cases hj

theorem Relieved.wakeWaiters (pid : Int) (hand : Bool) : Relieved (s.wakeWaiters pid hand) := by
  intro j hj
  rw [wakeWaiters_core, wokenCore] at hj ⊢
  split at hj
  · -- a waiter is left blocked or ready
    rename_i hw
    dsimp only at hj
    split at hj
    · have hb : (if hand = true then setForeground 1 { s.core j with waitingFor := -1 }
          else { s.core j with waitingFor := -1 } : PCB).state = .blocked := by
        split <;> exact hw.1
      cases hj.symm.trans hb
    · cases hj
  · rename_i hw
    rw [if_neg hw]
    exact h j hj

/-- `ensure_foreground_owner` asks for the state before it gives the flag. -/
theorem Relieved.ensure : Relieved s.ensureForegroundOwner := by
  unfold ensureForegroundOwner
  split
  · exact h
  · split
    · exact h
    · rename_i i _
      split
      · rename_i hz
        apply h.update (s.modify_core i _)
        intro hz'
        exact absurd hz' hz
      · exact h

/-- So does `restore_parent_foreground`. -/
theorem Relieved.restore (i : Slot) : Relieved (s.restoreParentForeground i) := by
  unfold restoreParentForeground
  split
  · exact h
  · apply Relieved.update _ (modify_core _ i _) (fun _ => rfl)
    split
    · exact h
    · rename_i parent _
      split
      · rename_i hz
        apply h.update (s.modify_core parent _)
        intro hz'
        exact absurd hz' hz
      · exact h

end Relieved

/-! ### The flag under the other pieces -/

/-- A change of one process that leaves its flag alone. -/
theorem foreground_update {s s' : Sched} {i : Slot} {p : PCB}
    (hcore : s'.core = Function.update s.core i p) (hp : p.foreground = (s.core i).foreground)
    (j : Slot) : (s'.core j).foreground = (s.core j).foreground := by
  rw [hcore]
  by_cases hji : j = i
  · subst hji
    rw [Function.update_self, hp]
  · rw [Function.update_of_ne hji]

theorem dispatch_foreground (s : Sched) (j : Slot) :
    (s.dispatch.1.core j).foreground = (s.core j).foreground :=
  foreground_update s.dispatch_core rfl j

theorem putBack_foreground (s : Sched) (j : Slot) :
    (s.putBack.core j).foreground = (s.core j).foreground := by
  have hcore := s.putBack_core
  split at hcore
  · exact foreground_update hcore rfl j
  · rw [hcore]

theorem schedulerTick_foreground (s : Sched) (rsp : Nat) (j : Slot) :
    ((s.schedulerTick rsp).1.core j).foreground = (s.core j).foreground := by
  have hcase := s.schedulerTick_cases rsp
  generalize (s.schedulerTick rsp).1 = t at hcase
  cases hcase with
  | keeps _ => rw [countTick_core, saveRsp_core]
  | preempts _ => rw [dispatch_foreground, putBack_foreground, countTick_core, saveRsp_core]
  | switches _ => rw [dispatch_foreground, saveRsp_core]

theorem schedulerBlock_foreground (s : Sched) (pid : Int) (j : Slot) :
    ((s.schedulerBlock pid).core j).foreground = (s.core j).foreground := by
  cases hi : s.findIndexByPid pid with
  | none => rw [s.schedulerBlock_none hi]
  | some i => exact foreground_update (s.schedulerBlock_core hi) rfl j

theorem schedulerNice_foreground (s : Sched) (pid pr : Int) (j : Slot) :
    ((s.schedulerNice pid pr).1.core j).foreground = (s.core j).foreground := by
  rcases s.schedulerNice_core pid pr with hcore | ⟨i, -, -, hcore⟩
  · rw [hcore]
  · exact foreground_update hcore rfl j

/-- A reaped slot is dead. -/
theorem schedulerWait_foreground {s : Sched} (hidle : (s.core 0).state ≠ .zombie) (pid : Int)
    (j : Slot) : ((s.schedulerWait pid).1.core j).foreground = (s.core j).foreground ∨
      ((s.schedulerWait pid).1.core j).state = .dead := by
  have hcase := s.schedulerWait_cases pid
  generalize s.schedulerWait pid = r at hcase
  cases hcase with
  | refused => exact .inl rfl
  | blocks i _ _ _ _ => exact .inl (foreground_update (s.waiting_core pid) rfl j)
  | reaps i s' _ _ _ hz hs' =>
      have h0 : i ≠ 0 := by
        rintro rfl
        exact hidle hz
      have hcore : s'.core = Function.update s.core i (reaped (s.core i)) := by
        rw [hs']
        exact s.reapProcess_core h0
      by_cases hji : j = i
      · right
        rw [hcore, hji, Function.update_self]
        rfl
      · left
        rw [hcore, Function.update_of_ne hji]

/-! ### The owner -/

/-- **`ensure_foreground_owner` finds an owner** while the shell is alive. -/
theorem ensureForegroundOwner_owned {s : Sched} (h : Shell s.life) :
    Owned s.ensureForegroundOwner := by
  obtain ⟨i, h0, hpid, hd, hz, huniq⟩ := h
  unfold ensureForegroundOwner
  split
  · rename_i hany
    obtain ⟨j, hj, hown⟩ := List.any_eq_true.mp hany
    obtain ⟨hjd, hjz, hjf⟩ := of_decide_eq_true hown
    exact ⟨j, mem_userSlots.mp hj, hjd, hjz, hjf⟩
  · have hfind : s.findIndexByPid 1 = some i := by
      cases hf : s.findIndexByPid 1 with
      | none => exact absurd (findIndexByPid_none hf i hpid) hd
      | some j => rw [huniq j (findIndexByPid_some hf).1]
    rw [hfind]
    dsimp only
    rw [if_pos (show (s.processTable i).state ≠ .zombie from hz)]
    refine ⟨i, h0, ?_⟩
    rw [modify_core, Function.update_self]
    exact ⟨hd, hz, by rintro ⟨⟩⟩

end Sched

namespace Kernel

variable {k : Kernel} {op : Op}

/-! ### Pieces that end nobody -/

theorem semWait_foreground (k : Kernel) (semId : Int) (j : Slot) :
    ((k.semWait semId).1.sched.core j).foreground = (k.sched.core j).foreground := by
  rw [semWait_sched]
  split
  · exact Sched.schedulerBlock_foreground _ _ j
  · rfl

theorem releases_foreground {k k' : Kernel} (h : Releases k k') (j : Slot) :
    (k'.sched.core j).foreground = (k.sched.core j).foreground :=
  h.wakes.field j PCB.foreground fun _ => rfl

theorem StepCases.foreground {α : Type} {p : Fin maxPipes} {own other : Int} {move : Pipe → Pipe}
    {dry shut live : Prop} {fl bl ag sp dn : α} {r : Kernel × α}
    (hr : k.StepCases p own other move dry shut live fl bl ag sp dn r) (j : Slot) :
    (r.1.sched.core j).foreground = (k.sched.core j).foreground := by
  cases hr with
  | waits _ => exact k.semWait_foreground own j
  | stops _ => rfl
  | moves _ => exact releases_foreground (semPost_releases (k.modifyPipe p move) other) j

/-- Only creations and ends hand the flag on; a reaped slot loses it with
everything else. -/
theorem exec_foreground (hp : Pids k) (ht : k.target op = none)
    (hcreate : ∀ name pr fg stack, op ≠ .create name pr fg stack) (j : Slot) :
    ((k.exec op).sched.core j).foreground = (k.sched.core j).foreground ∨
      ((k.exec op).life j).state = .dead := by
  have hnothing : k.exec op = k → ((k.exec op).sched.core j).foreground =
      (k.sched.core j).foreground := fun h => by rw [h]
  have hwakes := k.exec_wakes op
  cases op with
  | create name pr fg stack => exact absurd rfl (hcreate _ _ _ _)
  | wait pid => exact Sched.schedulerWait_foreground hp.idle.2.2 pid j
  | kill pid => exact .inl (hnothing (exec_target_none ht (.inr (.inl ⟨pid, rfl⟩))))
  | killForeground => exact .inl (hnothing (exec_target_none ht (.inr (.inr rfl))))
  | exit status => exact .inl (hnothing (exec_target_none ht (.inl ⟨status, rfl⟩)))
  | tick rsp => exact .inl (k.sched.schedulerTick_foreground rsp j)
  | block pid => exact .inl (k.sched.schedulerBlock_foreground pid j)
  | unblock pid =>
      have hw : Wakes (fun _ => True) k.sched (k.sched.schedulerUnblock pid) :=
        k.sched.schedulerUnblock_wakes trivial
      exact .inl (hw.field j PCB.foreground fun _ => rfl)
  | nice pid pr => exact .inl (k.sched.schedulerNice_foreground pid pr j)
  | yield => exact .inl (congrArg (fun c => (c j).foreground) k.sched.schedulerYield_core)
  | semWait semId => exact .inl (k.semWait_foreground semId j)
  | semOpen | semPost | semPostAll | semClose | pipeOpen | pipeClose =>
      exact .inl ((hwakes trivial).field j PCB.foreground fun _ => rfl)
  | pipeSetFd pid fd pipeId w =>
      left
      exact syscallPipeSetFd_invariant (P := fun k' => (k'.sched.core j).foreground = _) rfl
        (fun _ _ _ _ hrel => (Sched.foreground_update (Sched.modify_core _ _ _) rfl j).trans
          (releases_foreground hrel j)) _ _ _ _
  | pipeRead p => exact .inl ((k.pipeReadStep_cases p).foreground j)
  | pipeWrite p c => exact .inl ((k.pipeWriteStep_cases p c).foreground j)

/-! ### Creations -/

/-- The new process owns the keyboard if it was created to. -/
theorem createPrep_foreground (s : Sched) (name : List UInt8) (pr fg : Int) (stack : Nat)
    {slot : Slot} (hcur : slot ≠ s.currentIdx) :
    ((s.createPrep name pr fg stack slot).core slot).foreground = fg := by
  simp only [Sched.createPrep, Sched.core, Sched.modify_self]
  by_cases hfg : fg = 0
  · simp only [hfg, ne_eq, not_true_eq_false, if_false, Sched.modify_self]
    rfl
  · simp only [hfg, ne_eq, not_false_eq_true, if_true, Sched.modify_currentIdx,
      Sched.modify_of_ne _ _ _ _ hcur, Sched.modify_self]
    rfl

/-- What a creation does with the flags: the parent gives its own up only to a
child that is to own the keyboard. -/
theorem create_flags (hp : Pids k) (name : List UInt8) (pr fg : Int) (stack : Nat) {k' : Kernel}
    (hk' : k' = k.exec (.create name pr fg stack)) :
    k'.sched = k.sched ∨ ∃ slot, slot ≠ 0 ∧ (k.sched.core slot).state = .dead ∧
      (k'.sched.core slot).state = .ready ∧ (k'.sched.core slot).foreground = fg ∧
      ∀ j, j ≠ slot → (k'.sched.core j).state = (k.sched.core j).state ∧
        (k'.sched.core j).foreground =
          if fg ≠ 0 ∧ j = k.sched.currentIdx then 0 else (k.sched.core j).foreground := by
  have hsched : k'.sched = (k.sched.schedulerCreate name pr fg stack).1 := by
    rw [hk']
    rfl
  rw [hsched]
  have hcase := k.sched.schedulerCreate_cases name pr fg stack
  generalize k.sched.schedulerCreate name pr fg stack = r at hcase
  cases hcase with
  | refused => exact .inl rfl
  | creates slot pr' _ hslot _ =>
      obtain ⟨h0, hd⟩ := Sched.findFreeSlot_some hslot
      have hcur : slot ≠ k.sched.currentIdx := by
        rintro rfl
        exact hp.current hd
      have hlife := k.createPrep_life hslot name pr' fg stack
      have hnew := createPrep_foreground k.sched name pr' fg stack hcur
      have hold := fun {j : Slot} (hj : j ≠ slot) =>
        k.sched.createPrep_core_of_ne name pr' fg stack hj
      generalize k.sched.createPrep name pr' fg stack slot = t at hlife hnew hold
      have hfg : ∀ j, ((t.makeReady slot true).core j).foreground = (t.core j).foreground := by
        intro j
        have hcore := t.makeReady_core slot true
        split at hcore
        · exact Sched.foreground_update hcore rfl j
        · rw [hcore]
      right
      refine ⟨slot, h0, hd, ?_, (hfg slot).trans hnew, fun j hj => ⟨?_, ?_⟩⟩
      · exact congrArg Life.state ((hlife slot).trans (if_pos rfl))
      · exact congrArg Life.state ((hlife j).trans (if_neg hj))
      · rw [hfg, hold hj]
        split <;> rfl

theorem create_relieved (hp : Pids k) (h : k.sched.Relieved) (name : List UInt8) (pr fg : Int)
    (stack : Nat) : (k.exec (.create name pr fg stack)).sched.Relieved := by
  rcases create_flags hp name pr fg stack rfl with hsame | ⟨slot, -, -, hready, -, hold⟩
  · rw [hsame]
    exact h
  · intro j hj
    by_cases hne : j = slot
    · rw [hne, hready] at hj
      cases hj
    · obtain ⟨hstate, hfg⟩ := hold j hne
      rw [hfg]
      split
      · rfl
      · exact h j (hstate.symm.trans hj)

theorem create_owned (hp : Pids k) (h : k.sched.Owned) (name : List UInt8) (pr fg : Int)
    (stack : Nat) : (k.exec (.create name pr fg stack)).sched.Owned := by
  rcases create_flags hp name pr fg stack rfl with hsame | ⟨slot, h0, hd, hready, hfg, hold⟩
  · rw [hsame]
    exact h
  · by_cases hzero : fg = 0
    · -- the owner keeps the flag
      obtain ⟨i, hi0, hid, hiz, hif⟩ := h
      have hne : i ≠ slot := by
        rintro rfl
        exact hid hd
      obtain ⟨hstate, hkeep⟩ := hold i hne
      rw [if_neg fun hc => hc.1 hzero] at hkeep
      refine ⟨i, hi0, ?_⟩
      rw [hstate, hkeep]
      exact ⟨hid, hiz, hif⟩
    · refine ⟨slot, h0, ?_⟩
      rw [hready, hfg]
      exact ⟨by rintro ⟨⟩, by rintro ⟨⟩, hzero⟩

/-! ### Ends -/

theorem closeProcessFds_relieved {i : Slot} (h : k.sched.Relieved) :
    (k.closeProcessFds i).sched.Relieved :=
  closeProcessFds_invariant (P := fun k => k.sched.Relieved) h (fun _ _ h hr => h.wakes hr.wakes)
    fun _ _ _ h => h.modify i (fun _ => rfl) fun _ => rfl

/-- `scheduler_exit_current` leaves a zombie without the flag. -/
theorem schedulerExitCurrent_relieved (h : k.sched.Relieved) (status : Int) :
    (k.schedulerExitCurrent status).sched.Relieved := by
  unfold schedulerExitCurrent
  split
  · exact h
  · dsimp only
    generalize k.sched.currentIdx = cur
    have hstatus : (k.sched.modify cur (setExitStatus status)).Relieved :=
      h.modify cur (fun _ => rfl) fun _ => rfl
    have hprep : (k.exitPrep cur status).sched.Relieved := hstatus.restore cur
    have hgiven : (((k.exitPrep cur status).closeProcessFds cur).sched.core cur).foreground = 0 :=
      (closeProcessFds_field _ cur cur PCB.foreground (fun _ => rfl) fun _ _ _ => rfl).trans
        (Sched.restoreParentForeground_self _ cur)
    have hclose := closeProcessFds_relieved (i := cur) hprep
    rw [onSched_sched]
    generalize ((k.exitPrep cur status).closeProcessFds cur).sched = t at hgiven hclose
    unfold leave
    apply Sched.Relieved.ensure
    apply Sched.Relieved.wakeWaiters
    have hcore : ((t.removeFromReadyQueue cur).modify cur ended).core
        = Function.update t.core cur (ended (t.core cur)).core :=
      Sched.modify_core_of (t.removeFromReadyQueue_requeued cur).core cur
        (fun p => (ended p).core) fun _ => rfl
    exact hclose.update hcore fun _ => hgiven

theorem killOther_relieved (h : k.sched.Relieved) (i : Slot) (pid : Int) :
    (k.killOther i pid).sched.Relieved := by
  have hprep : (k.killPrep i pid).sched.Relieved :=
    (h.of_core (k.sched.removeFromReadyQueue_requeued i).core).restore i
  have hclose := closeProcessFds_relieved (i := i) hprep
  rw [killOther, onSched_sched]
  generalize ((k.killPrep i pid).closeProcessFds i).sched = t at hclose
  unfold bury
  apply Sched.Relieved.ensure
  apply Sched.Relieved.wakeWaiters
  have hkilled : (t.modify i killed).Relieved := by
    apply hclose.update (t.modify_core i killed)
    rintro ⟨⟩
  show (if _ then _ else _ : Sched).Relieved
  split
  · have hfreed : ((t.modify i killed).freeStack
        ((t.modify i killed).processTable i).stackBase).Relieved := hkilled.of_core rfl
    apply hfreed.modify i
    · intro p
      rfl
    · intro p
      rfl
  · exact hkilled

theorem leave_owned {s : Sched} {cur : Slot} {pid : Int} {hand : Bool}
    (h : Sched.Shell (leave s cur pid hand).life) : (leave s cur pid hand).Owned := by
  unfold leave at h ⊢
  rw [(Sched.ensureForegroundOwner_fgOnly _).life] at h
  exact Sched.ensureForegroundOwner_owned h

theorem bury_owned {s : Sched} {i : Slot} {pid : Int} (h : Sched.Shell (bury s i pid).life) :
    (bury s i pid).Owned := by
  unfold bury at h ⊢
  rw [(Sched.ensureForegroundOwner_fgOnly _).life] at h
  exact Sched.ensureForegroundOwner_owned h

/-- Every end finishes with `ensure_foreground_owner`. -/
theorem end_owned (hp : Pids k) {i : Slot} (ht : k.target op = some i)
    (hshell : Sched.Shell (k.exec op).life) : (k.exec op).sched.Owned := by
  rcases exec_target hp ht with ⟨hcur, h0, hexec⟩ | ⟨-, -, -, hexec⟩
  · subst hcur
    rw [schedulerExitCurrent, if_neg h0] at hexec
    have hsched := congrArg Kernel.sched hexec
    rw [onSched_sched] at hsched
    have hlife : (k.exec op).sched.life = _ := congrArg Sched.life hsched
    rw [hsched]
    exact leave_owned (hlife ▸ hshell)
  · have hsched := congrArg Kernel.sched hexec
    rw [killOther, onSched_sched] at hsched
    have hlife : (k.exec op).sched.life = _ := congrArg Sched.life hsched
    rw [hsched]
    exact bury_owned (hlife ▸ hshell)

theorem end_relieved (hp : Pids k) {i : Slot} (ht : k.target op = some i)
    (h : k.sched.Relieved) : (k.exec op).sched.Relieved := by
  rcases exec_target hp ht with ⟨-, -, hexec⟩ | ⟨-, -, -, hexec⟩
  · rw [hexec]
    exact schedulerExitCurrent_relieved h _
  · rw [hexec]
    exact killOther_relieved h i _

/-! ### Runs -/

/-- The shell does not call `sys_exit`. -/
def ShellStays (k : Kernel) : Op → Prop
  | .exit _ => k.sched.schedulerGetpid ≠ 1
  | _ => True

instance (k : Kernel) : DecidablePred (ShellStays k) := fun op => by
  induction op using Op.casesOn <;> dsimp only [ShellStays] <;> infer_instance

/-- The keyboard has an owner, the shell is alive and no zombie has the flag. -/
structure Focused (k : Kernel) : Prop where
  sound : Sound k
  shell : Sched.Shell k.life
  relieved : k.sched.Relieved
  owned : k.sched.Owned

/-- Nobody but the shell itself ends the shell. -/
theorem exec_shell (hs : Sound k) (h : Sched.Shell k.life) (hop : ShellStays k op) :
    Sched.Shell (k.exec op).life := by
  obtain ⟨i, h0, hpid, hd, hz, -⟩ := h
  have ht : k.target op ≠ some i := by
    intro ht
    rcases target_some ht with ⟨hcur, -, status, rfl⟩ | ⟨hlate, -⟩
    · rw [hcur] at hpid
      exact hop hpid
    · omega
  obtain ⟨hpid', -, hd', hz'⟩ := (k.exec_lifeStep hs.ordered op i).alive ⟨hd, hz⟩ ht
  refine ⟨i, h0, hpid'.trans hpid, hd', hz', fun j hj => ?_⟩
  have hdistinct := (exec_sound hs op).pids.distinct
  exact hdistinct j i (by rw [hj, hpid', hpid]) (by rw [hj]; decide)

/-- A zombie that is not the work of this piece was one before. -/
theorem LifeStep.old_zombie {j : Slot} {l : Life} (h : k.LifeStep op j l)
    (hz : l.state = .zombie) (ht : k.target op ≠ some j) : (k.life j).state = .zombie := by
  cases h with
  | keeps => exact hz
  | creates => cases hz
  | renices => exact hz
  | wakes => cases hz
  | releases _ hb hw =>
      rw [Life.woken, if_pos ⟨hb, hw⟩] at hz
      dsimp only at hz
      split at hz <;> cases hz
  | blocks => cases hz
  | parks => cases hz
  | waits => cases hz
  | reaps => cases hz
  | ends he _ => exact absurd he ht
  | kills he _ => exact absurd he ht
  | preempts => cases hz
  | dispatches => cases hz

theorem exec_relieved (hs : Sound k) (h : k.sched.Relieved) (op : Op) :
    (k.exec op).sched.Relieved := by
  by_cases hcreate : ∃ name pr fg stack, op = .create name pr fg stack
  · obtain ⟨name, pr, fg, stack, rfl⟩ := hcreate
    exact create_relieved hs.pids h name pr fg stack
  · cases ht : k.target op with
    | some i => exact end_relieved hs.pids ht h
    | none =>
        intro j hj
        have hz : ((k.exec op).life j).state = .zombie := hj
        have hold := (k.exec_lifeStep hs.ordered op j).old_zombie hz (by rw [ht]; rintro ⟨⟩)
        rcases exec_foreground hs.pids ht (fun _ _ _ _ e => hcreate ⟨_, _, _, _, e⟩) j with hf | hd
        · exact hf.trans (h j hold)
        · cases hz.symm.trans hd

theorem exec_keyboard (hs : Sound k) (h : k.sched.Owned)
    (hshell : Sched.Shell (k.exec op).life) : (k.exec op).sched.Owned := by
  by_cases hcreate : ∃ name pr fg stack, op = .create name pr fg stack
  · obtain ⟨name, pr, fg, stack, rfl⟩ := hcreate
    exact create_owned hs.pids h name pr fg stack
  · cases ht : k.target op with
    | some i => exact end_owned hs.pids ht hshell
    | none =>
        obtain ⟨i, h0, hd, hz, hfg⟩ := h
        obtain ⟨-, -, hd', hz'⟩ := (k.exec_lifeStep hs.ordered op i).alive ⟨hd, hz⟩
          (by rw [ht]; rintro ⟨⟩)
        refine ⟨i, h0, hd', hz', ?_⟩
        rcases exec_foreground hs.pids ht (fun _ _ _ _ e => hcreate ⟨_, _, _, _, e⟩) i with hf | hdead
        · rw [hf]
          exact hfg
        · exact absurd hdead hd'

theorem Focused.step (h : Focused k) (hop : ShellStays k op) : Focused (k.exec op) := by
  have hshell := exec_shell h.sound h.shell hop
  exact ⟨exec_sound h.sound op, hshell, exec_relieved h.sound h.relieved op,
    exec_keyboard h.sound h.owned hshell⟩

theorem reach_relieved {idleStack : Nat} (h : machine.Reach (init idleStack) k) :
    k.sched.Relieved := by
  have hinit : Sound (init idleStack) ∧ (init idleStack).sched.Relieved := by
    refine ⟨init_sound idleStack, fun i _ => ?_⟩
    show ((Sched.schedulerInit idleStack).processTable i).foreground = 0
    unfold Sched.schedulerInit
    dsimp only
    split <;> rfl
  have hboth : Sound k ∧ k.sched.Relieved := by
    refine h.invariant (I := fun k => Sound k ∧ k.sched.Relieved) hinit fun k op k' hk _ hs => ?_
    obtain rfl := Option.some.inj hs
    exact ⟨exec_sound hk.1 op, exec_relieved hk.1 hk.2 op⟩
  exact hboth.2

/-- **The keyboard always has an owner**: from any state in which the shell
exists and owns the keyboard, in every run in which the shell does not exit, some
process that is neither dead nor a zombie owns it, no zombie does, and
`scheduler_kill_foreground` leaves the shell alive. -/
theorem keyboard_owned {idleStack : Nat} {k₀ : Kernel} {i : Slot}
    (h₀ : machine.Reach (init idleStack) k₀) (hpid : (k₀.proc i).pid = 1)
    (hlive : (k₀.proc i).state ≠ .dead ∧ (k₀.proc i).state ≠ .zombie)
    (hfg : (k₀.proc i).foreground ≠ 0) (h : (machine.restrict ShellStays).Reach k₀ k) :
    (∃ j, j ≠ 0 ∧ (k.proc j).state ≠ .dead ∧ (k.proc j).state ≠ .zombie ∧
      (k.proc j).foreground ≠ 0) ∧
    (∀ j, (k.proc j).state = .zombie → (k.proc j).foreground = 0) ∧
    ∃ j, (k.proc j).pid = 1 ∧ (k.proc j).state ≠ .dead ∧ (k.proc j).state ≠ .zombie ∧
      ((k.exec .killForeground).proc j).pid = 1 ∧
      ((k.exec .killForeground).proc j).state ≠ .dead ∧
      ((k.exec .killForeground).proc j).state ≠ .zombie := by
  have hsound := reach_sound h₀
  have hlife : (k₀.life i).pid = 1 := hpid
  have h0 : i ≠ 0 := by
    rintro rfl
    have hidle := hsound.pids.idle.1
    omega
  have hstart : Focused k₀ := by
    refine ⟨hsound, ⟨i, h0, hpid, hlive.1, hlive.2, fun j hj => ?_⟩, reach_relieved h₀,
      ⟨i, h0, hlive.1, hlive.2, hfg⟩⟩
    exact hsound.pids.distinct j i (by rw [hj, hlife]) (by rw [hj]; decide)
  have hk : Focused k := by
    refine h.invariant hstart fun k op k' hk hg hs => ?_
    obtain rfl := Option.some.inj hs
    exact hk.step hg.2
  refine ⟨hk.owned, hk.relieved, ?_⟩
  obtain ⟨j, -, hj, hd, hz, -⟩ := hk.shell
  have ht : k.target .killForeground ≠ some j := by
    intro ht
    rcases target_some ht with ⟨-, -, status, he⟩ | ⟨hlate, -⟩
    · cases he
    · omega
  obtain ⟨hj', -, hd', hz'⟩ :=
    (k.exec_lifeStep hk.sound.ordered .killForeground j).alive ⟨hd, hz⟩ ht
  exact ⟨j, hj, hd, hz, hj'.trans hj, hd', hz'⟩

/-- The shell starts a child in the foreground, and Ctrl+C kills it. -/
theorem keyboard_owned_child : ∃ k₀ k : Kernel,
    machine.Reach (init 1000) k₀ ∧ (k₀.proc 1).pid = 1 ∧ (k₀.proc 1).foreground = 1 ∧
      (machine.restrict ShellStays).Reach k₀ k ∧ (k.proc 1).foreground = 0 ∧
      ((k.exec .killForeground).proc 2).state = .dead ∧
      ∃ j, j ≠ 0 ∧ (k.proc j).state ≠ .dead ∧ (k.proc j).state ≠ .zombie ∧
        (k.proc j).foreground ≠ 0 := by
  obtain ⟨k₀, h₀, hpid, hlive, hfg, hrun⟩ :=
    machine.exists_reach_of_trace (s := init 1000) [.create [115] 3 1 5000]
      (P := fun k₀ => (k₀.proc 1).pid = 1 ∧
        ((k₀.proc 1).state ≠ .dead ∧ (k₀.proc 1).state ≠ .zombie) ∧ (k₀.proc 1).foreground = 1 ∧
        ((machine.restrict ShellStays).trace k₀ [.tick 0, .create [99] 3 1 9000, .wait 2]).any
          (fun k => (k.proc 1).foreground = 0 ∧
            ((k.exec .killForeground).proc 2).state = .dead) = true) (by decide +kernel)
  obtain ⟨k, hk, hgiven, hdead⟩ := (machine.restrict ShellStays).exists_reach_of_trace _ hrun
  have howner := (keyboard_owned h₀ hpid hlive (by rw [hfg]; decide) hk).1
  exact ⟨k₀, k, h₀, hpid, hfg, hk, hgiven, hdead, howner⟩

end Kernel

end TP2Kernel
