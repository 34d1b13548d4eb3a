/-
TP2Kernel/ExitStatus.lean

From `sys_exit(s)` to the `s` that `sys_wait` returns.  `Fate` is what the
history says about one pid: created by a parent, ended with a status, reaped.
The kernel agrees with it (`Fated`): an ended process is a zombie that keeps its
status, and only its parent's `scheduler_wait` takes it away.

`scheduler_wait` returns the status and the sentinel `SCHEDULER_WAIT_BLOCKED` in
one `int`.  A child that exits with this very number is reaped, and
`syscall_wait` takes the status for the sentinel, asks again and returns -1; the runs
here are without such an exit (`Undisturbed`).
-/
import TP2Kernel.ExitNotice
import TP2Kernel.StackOwnership

namespace TP2Kernel

/-! ### The history of a pid -/

/-- What has become of a process. -/
inductive Fate
  | unborn
  | alive (parent : Int)
  | ended (parent status : Int)
  | reaped
  deriving DecidableEq

/-- How an event changes the fate of `c`. -/
def Fate.after (c : Int) (f : Fate) (e : Event) : Fate :=
  match f, e with
  | .unborn, .created p c' => if c' = c then .alive p else f
  | .alive p, .exited c' s => if c' = c then .ended p s else f
  | .ended p _, .waited p' c' _ => if p' = p ∧ c' = c then .reaped else f
  | _, _ => f

/-- The fate of `c` after a history, the latest event first. -/
def fate (c : Int) : List Event → Fate
  | [] => .unborn
  | e :: log => (fate c log).after c e

/-- What a `syscall_wait` for a process of this fate may return to `p`: nothing to
the parent while it lives, its status to the parent when it has ended, and -1
otherwise. -/
def Fate.Answers (f : Fate) (p r : Int) : Prop :=
  match f with
  | .unborn => True
  | .alive q => p ≠ q ∧ r = -1
  | .ended q s => (p = q → r = s) ∧ (p ≠ q → r = -1)
  | .reaped => r = -1

/-- Every `syscall_wait` for `c` in the history has returned what it should. -/
def Honest (c : Int) : List Event → Prop
  | [] => True
  | e :: log => Honest c log ∧ ∀ p r, e = .waited p c r → (fate c log).Answers p r

/-- The events that say nothing about the life of a process. -/
def Event.Plain : Event → Prop
  | .created _ _ | .exited _ _ | .waited _ _ _ => False
  | _ => True

theorem Fate.after_plain {c : Int} {e : Event} (h : e.Plain) (f : Fate) : f.after c e = f := by
  cases e with
  | created => exact absurd h id
  | exited => exact absurd h id
  | waited => exact absurd h id
  | _ => cases f <;> rfl

theorem fate_plain {c : Int} {es : List Event} (h : ∀ e ∈ es, e.Plain) (log : List Event) :
    fate c (es ++ log) = fate c log := by
  induction es with
  | nil => rfl
  | cons e es ih =>
      rw [List.cons_append, fate, ih fun e he => h e (List.mem_cons_of_mem _ he)]
      exact Fate.after_plain (h e List.mem_cons_self) _

theorem Honest.plain {c : Int} {es log : List Event} (h : Honest c log)
    (hes : ∀ e ∈ es, e.Plain) : Honest c (es ++ log) := by
  induction es with
  | nil => exact h
  | cons e es ih =>
      refine ⟨ih fun e he => hes e (List.mem_cons_of_mem _ he), ?_⟩
      rintro p r rfl
      exact absurd (hes _ List.mem_cons_self) id

namespace Kernel

variable {k : Kernel} {c : Int} {f : Fate} {op : Op} {log : List Event}

/-! ### The kernel and the history -/

/-- `c` sits in slot `j` and is a child of `p`. -/
structure Born (c p : Int) (k : Kernel) (j : Slot) : Prop where
  pid : (k.life j).pid = c
  parent : (k.life j).parentPid = p
  late : 1 < c

/-- What the kernel holds of a process of this fate. -/
def Fated (c : Int) (k : Kernel) : Fate → Prop
  | .unborn => True
  | .alive p => ∃ j, Born c p k j ∧ (k.life j).state ≠ .dead ∧ (k.life j).state ≠ .zombie
  | .ended p s => ∃ j, Born c p k j ∧ (k.life j).state = .zombie ∧ (k.life j).exitStatus = s ∧
      s ≠ schedulerWaitBlocked
  | .reaped => ∀ j, (k.life j).pid = c → (k.life j).state = .dead

/-- The kernel and the history agree about `c`. -/
structure Delivers (c : Int) (k : Kernel) (log : List Event) : Prop where
  sound : Sound k
  stacked : Stacked k
  known : fate c log ≠ .unborn → c < k.sched.nextPid
  fated : Fated c k (fate c log)
  honest : Honest c log

theorem Delivers.plain (h : Delivers c k log) {es : List Event} (hes : ∀ e ∈ es, e.Plain) :
    Delivers c k (es ++ log) := by
  refine ⟨h.sound, h.stacked, ?_, ?_, h.honest.plain hes⟩
  · rw [fate_plain hes]
    exact h.known
  · rw [fate_plain hes]
    exact h.fated

/-- The piece is not one that changes the fate of `c`. -/
structure Calm (c : Int) (k : Kernel) (f : Fate) (op : Op) : Prop where
  target : ∀ j, k.target op = some j → (k.life j).pid ≠ c
  block : op = .block c → ∀ j, (k.life j).pid = c → (k.life j).state ≠ .zombie
  current : ∀ p s, f = .ended p s → (k.life k.sched.currentIdx).pid = c → ∃ rsp, op = .tick rsp
  wait : op = .wait c → ∀ p s, f = .ended p s → (k.life k.sched.currentIdx).pid ≠ p

/-- A zombie that nobody touches. -/
theorem LifeStep.corpse {j : Slot} {l : Life} (hp : Pids k) (h : k.LifeStep op j l)
    (hz : (k.life j).state = .zombie) (ht : k.target op ≠ some j)
    (hblock : op ≠ .block (k.life j).pid)
    (hcur : (k.life k.sched.currentIdx).pid = (k.life j).pid → ∃ rsp, op = .tick rsp)
    (hwait : op = .wait (k.life j).pid →
      (k.life k.sched.currentIdx).pid ≠ (k.life j).parentPid) :
    l.state = .zombie ∧ l.pid = (k.life j).pid ∧ l.parentPid = (k.life j).parentPid ∧
      l.exitStatus = (k.life j).exitStatus := by
  cases h with
  | keeps => exact ⟨hz, rfl, rfl, rfl⟩
  | creates hj _ _ => cases hz.symm.trans (Sched.findFreeSlot_some hj).2
  | renices => exact ⟨hz, rfl, rfl, rfl⟩
  | wakes hb _ => cases hz.symm.trans hb
  | releases _ hb _ => cases hz.symm.trans hb
  | blocks hj =>
      have hpid : (k.life j).pid = _ := (Sched.findIndexByPid_some hj).1
      exact absurd (congrArg Op.block hpid.symm) hblock
  | parks hparks hj =>
      have hpid : (k.life j).pid = k.sched.schedulerGetpid := (Sched.findIndexByPid_some hj).1
      obtain ⟨rsp, rfl⟩ := hcur hpid.symm
      cases hparks
  | waits =>
      obtain ⟨rsp, hop⟩ := hcur rfl
      cases hop
  | reaps _ hj hparent _ =>
      have hpid : (k.life j).pid = _ := (Sched.findIndexByPid_some hj).1
      exact absurd hparent.symm (hwait (congrArg Op.wait hpid.symm))
  | ends he _ => exact absurd he ht
  | kills he _ => exact absurd he ht
  | preempts hrun => cases hz.symm.trans hrun
  | dispatches hj =>
      rcases hj with rfl | hj
      · exact absurd hz hp.idle.2.2
      · exact absurd hz hj.2

/-- **A calm piece leaves a process to its fate.** -/
theorem Fated.exec (hs : Sound k) (h : Fated c k f) (hknown : f ≠ .unborn → c < k.sched.nextPid)
    (hcalm : Calm c k f op) : Fated c (k.exec op) f := by
  cases f with
  | unborn => trivial
  | alive p =>
      obtain ⟨j, hborn, hlive⟩ := h
      have hnot : k.target op ≠ some j := fun ht => hcalm.target j ht hborn.pid
      obtain ⟨hpid, hparent, hlive'⟩ := (k.exec_lifeStep hs.ordered op j).alive hlive hnot
      exact ⟨j, ⟨hpid.trans hborn.pid, hparent.trans hborn.parent, hborn.late⟩, hlive'⟩
  | ended p s =>
      obtain ⟨j, hborn, hz, hstatus, hne⟩ := h
      obtain ⟨hz', hpid, hparent, hst⟩ := (k.exec_lifeStep hs.ordered op j).corpse hs.pids hz
        (fun ht => hcalm.target j ht hborn.pid)
        (fun he => hcalm.block (by rw [he, hborn.pid]) j hborn.pid hz)
        (fun he => hcalm.current p s rfl (he.trans hborn.pid))
        (fun he => by
          rw [hborn.parent]
          exact hcalm.wait (by rw [he, hborn.pid]) p s rfl)
      exact ⟨j, ⟨hpid.trans hborn.pid, hparent.trans hborn.parent, hborn.late⟩, hz',
        hst.trans hstatus, hne⟩
  | reaped =>
      intro j hj
      have hc := hknown (by rintro ⟨⟩)
      rcases (k.exec_lifeStep hs.ordered op j).pids hs.pids with
        ⟨hpid, -, hdead⟩ | ⟨hpid, -, -, -⟩ | ⟨-, hdead, -, -, -⟩
      · exact hdead (h j (hpid.symm.trans hj))
      · omega
      · exact hdead

theorem Delivers.exec (h : Delivers c k log) (hcalm : Calm c k (fate c log) op)
    (hstack : ∀ name pr fg stack, op = .create name pr fg stack → stack ≠ k.sched.idleStack) :
    Delivers c (k.exec op) log :=
  ⟨exec_sound h.sound op, exec_stacked h.sound h.stacked hstack,
    fun hne => (h.known hne).trans_le (k.exec_nextPid_le op),
    h.fated.exec h.sound h.known hcalm, h.honest⟩

theorem Delivers.tick (h : Delivers c k log) (rsp : Nat) : Delivers c (k.exec (.tick rsp)) log := by
  apply h.exec
  · exact ⟨(by rintro _ ⟨⟩), (by rintro ⟨⟩), fun _ _ _ _ => ⟨rsp, rfl⟩, (by rintro ⟨⟩)⟩
  · rintro _ _ _ _ ⟨⟩

/-! ### Creation, exit and wait -/

/-- A zombie is not the current process. -/
def Gone (c : Int) (k : Kernel) (f : Fate) : Prop :=
  ∀ p s, f = .ended p s → (k.life k.sched.currentIdx).pid ≠ c

theorem Gone.calm (hgone : Gone c k f) (htarget : ∀ j, k.target op = some j → (k.life j).pid ≠ c)
    (hblock : op = .block c → ∀ j, (k.life j).pid = c → (k.life j).state ≠ .zombie)
    (hwait : op ≠ .wait c) : Calm c k f op :=
  ⟨htarget, hblock, fun p s hf hcur => absurd hcur (hgone p s hf), fun he => absurd he hwait⟩

theorem told_create (k : Kernel) (name : List UInt8) (pr fg : Int) (stack : Nat) :
    Sys.told k (.create name pr fg stack) =
      (k.obtained (.create name pr fg stack)).map fun x =>
        .created (k.life k.sched.currentIdx).pid x.2 := by
  simp only [Sys.told, obtained]
  split <;> rfl

theorem Delivers.create (h : Delivers c k log) (hgone : Gone c k (fate c log))
    (h0 : k.sched.currentIdx ≠ 0) {name : List UInt8} {pr fg : Int} {stack : Nat}
    (hidle : stack ≠ k.sched.idleStack) :
    Delivers c (k.exec (.create name pr fg stack))
      (Sys.told k (.create name pr fg stack) ++ log) := by
  have hcalm : Calm c k (fate c log) (.create name pr fg stack) :=
    hgone.calm (fun _ e => by cases e) (fun e => by cases e) (by rintro ⟨⟩)
  have hexec := h.exec hcalm (by
    rintro _ _ _ _ ⟨⟩
    exact hidle)
  rw [told_create]
  rcases create_turnover h.sound name pr fg stack with ⟨hnone, -, -⟩ |
    ⟨_, _, _, _, j, hop, -, -, hnew, hgot, -, hnext, -, -, -⟩ | ⟨_, hnone, -⟩
  · rw [hnone]
    exact hexec
  · obtain ⟨-, -, -, rfl⟩ := Op.create.inj hop
    rw [hgot]
    -- the new pid is `c` for an unborn `c` only
    have hfate : fate c (Event.created (k.life k.sched.currentIdx).pid k.sched.nextPid :: log) =
        if fate c log = .unborn ∧ k.sched.nextPid = c then
          .alive (k.life k.sched.currentIdx).pid
        else fate c log := by
      rw [fate]
      cases fate c log with
      | unborn => simp only [Fate.after, true_and]
      | alive => rfl
      | ended => rfl
      | reaped => rfl
    refine ⟨hexec.sound, hexec.stacked, fun hne => ?_, ?_, hexec.honest, fun _ _ e => by cases e⟩
    · rw [List.map_cons, List.map_nil, List.cons_append, List.nil_append, hfate] at hne
      split at hne
      · rename_i hc
        rw [hnext, ← hc.2]
        exact Int.lt_add_one_of_le (le_refl _)
      · exact hexec.known hne
    · rw [List.map_cons, List.map_nil, List.cons_append, List.nil_append, hfate]
      split
      · rename_i hc
        obtain ⟨hpid, hparent, -, hready⟩ := hnew
        refine ⟨j, ⟨hpid.trans hc.2, hparent, ?_⟩, ?_, ?_⟩
        · have hpos := (h.sound.pids.live _ h0 h.sound.pids.current).1
          have hlt := h.sound.pids.fresh k.sched.currentIdx
          omega
        · rw [hready]
          rintro ⟨⟩
        · rw [hready]
          rintro ⟨⟩
      · exact hexec.fated
  · rw [hnone]
    exact hexec

/-- `c` itself exits, and its status is kept for its parent. -/
theorem Delivers.exit_self (h : Delivers c k log) (hgone : Gone c k (fate c log))
    (h0 : k.sched.currentIdx ≠ 0) {status : Int} (hc : (k.life k.sched.currentIdx).pid = c)
    (hstatus : status ≠ schedulerWaitBlocked) :
    Fated c (k.exec (.exit status))
      (fate c (.exited (k.life k.sched.currentIdx).pid status :: log)) := by
  have hlife : (k.exec (.exit status)).life k.sched.currentIdx =
      (k.life k.sched.currentIdx).ended status := by
    obtain ⟨l, -, hl⟩ := k.schedulerExitCurrent_life h0 status k.sched.currentIdx
    rw [if_pos rfl] at hl
    exact hl
  have hfated := h.fated
  rw [fate]
  generalize hf : fate c log = f at hfated
  cases f with
  | unborn => trivial
  | alive p =>
      obtain ⟨j, hborn, -⟩ := hfated
      have hpos := (h.sound.pids.live _ h0 h.sound.pids.current).1
      obtain rfl : k.sched.currentIdx = j :=
        h.sound.pids.distinct _ _ (hc.trans hborn.pid.symm) hpos
      have hafter : (Fate.alive p).after c
          (.exited (k.life k.sched.currentIdx).pid status) = .ended p status := if_pos hc
      rw [hafter]
      refine ⟨k.sched.currentIdx, ⟨?_, ?_, hborn.late⟩, ?_, ?_, hstatus⟩
      · rw [hlife]
        exact hc
      · rw [hlife]
        exact hborn.parent
      · rw [hlife]
        rfl
      · rw [hlife]
        rfl
  | ended p s => exact absurd hc (hgone p s hf)
  | reaped => exact absurd (hfated _ hc) h.sound.pids.current

theorem Delivers.exit (h : Delivers c k log) (hgone : Gone c k (fate c log))
    (h0 : k.sched.currentIdx ≠ 0) {status : Int}
    (hstatus : (k.life k.sched.currentIdx).pid = c → status ≠ schedulerWaitBlocked) :
    Delivers c (k.exec (.exit status))
      (.exited (k.life k.sched.currentIdx).pid status :: log) := by
  have htarget : k.target (.exit status) = some k.sched.currentIdx := if_neg h0
  have hsound := exec_sound h.sound (.exit status)
  have hstacked : Stacked (k.exec (.exit status)) :=
    exec_stacked h.sound h.stacked fun _ _ _ _ e => by cases e
  have hhonest : Honest c (.exited (k.life k.sched.currentIdx).pid status :: log) :=
    ⟨h.honest, fun _ _ e => by cases e⟩
  by_cases hc : (k.life k.sched.currentIdx).pid = c
  · refine ⟨hsound, hstacked, fun hne => ?_, h.exit_self hgone h0 hc (hstatus hc), hhonest⟩
    rw [fate] at hne
    refine (h.known fun hun => hne ?_).trans_le (k.exec_nextPid_le (.exit status))
    rw [hun]
    rfl
  · -- another process exits
    have hafter : (fate c log).after c (.exited (k.life k.sched.currentIdx).pid status) =
        fate c log := by
      cases fate c log with
      | alive p => exact if_neg hc
      | _ => rfl
    have hcalm : Calm c k (fate c log) (.exit status) := by
      refine hgone.calm (fun j hj => ?_) (fun e => by cases e) (by rintro ⟨⟩)
      obtain rfl := Option.some.inj (htarget.symm.trans hj)
      exact hc
    have hexec := h.exec hcalm fun _ _ _ _ e => by cases e
    refine ⟨hsound, hstacked, ?_, ?_, hhonest⟩
    · rw [fate, hafter]
      exact hexec.known
    · rw [fate, hafter]
      exact hexec.fated

/-- What a caller of `syscall_wait` is told in one round: nothing if it has to
go on. -/
def toldWait (k : Kernel) (pid : Int) : List Event :=
  let result := (k.sched.schedulerWait pid).2
  if result = schedulerWaitBlocked then []
  else [.waited (k.life k.sched.currentIdx).pid pid result]

theorem Born.find {p : Int} {j : Slot} (hs : Sound k) (h : Born c p k j)
    (hlive : (k.life j).state ≠ .dead) : k.sched.findIndexByPid c = some j := by
  have hlate := h.late
  have h0 : j ≠ 0 := by
    rintro rfl
    have hzero := h.pid
    rw [hs.pids.idle.1] at hzero
    omega
  rw [← h.pid]
  exact hs.pids.find_eq h0 hlive

/-- A process that is not a child of the caller. -/
theorem toldWait_stranger {p : Int} {j : Slot} (hs : Sound k) (h : Born c p k j)
    (hlive : (k.life j).state ≠ .dead) (hne : (k.life k.sched.currentIdx).pid ≠ p) :
    k.toldWait c = [.waited (k.life k.sched.currentIdx).pid c (-1)] := by
  have hparent : (k.life j).parentPid ≠ (k.life k.sched.currentIdx).pid := by
    rw [h.parent]
    exact hne.symm
  have hwait := k.sched.schedulerWait_stranger (h.find hs hlive) hparent
  rw [toldWait, hwait]
  rfl

/-- A child that has not ended. -/
theorem toldWait_alive {p : Int} {j : Slot} (hs : Sound k) (h : Born c p k j)
    (hlive : (k.life j).state ≠ .dead ∧ (k.life j).state ≠ .zombie)
    (hp : (k.life k.sched.currentIdx).pid = p) : k.toldWait c = [] := by
  have hlate := h.late
  have hwait := k.sched.schedulerWait_blocks (by omega) (h.find hs hlive.1)
    (h.parent.trans hp.symm) hlive.2
  rw [toldWait, hwait]
  rfl

/-- A process that has been reaped. -/
theorem toldWait_reaped (h : ∀ j, (k.life j).pid = c → (k.life j).state = .dead) :
    k.toldWait c = [.waited (k.life k.sched.currentIdx).pid c (-1)] := by
  have hnone : k.sched.findIndexByPid c = none := by
    rcases hi : k.sched.findIndexByPid c with - | i
    · rfl
    · obtain ⟨hpid, hd⟩ := Sched.findIndexByPid_some hi
      exact absurd (h i hpid) hd
  rw [toldWait, k.sched.schedulerWait_none hnone]
  rfl

/-- **A child that has ended**: the caller gets the status and the slot is
free. -/
theorem toldWait_ended {p s : Int} {j : Slot} (hs : Sound k) (hstk : Stacked k) (h : Born c p k j)
    (hz : (k.life j).state = .zombie) (hstatus : (k.life j).exitStatus = s)
    (hne : s ≠ schedulerWaitBlocked) (hp : (k.life k.sched.currentIdx).pid = p) :
    k.toldWait c = [.waited p c s] ∧
      (∀ i, ((k.exec (.wait c)).life i).pid = c → ((k.exec (.wait c)).life i).state = .dead) ∧
      ((k.exec (.wait c)).life j).state = .dead ∧
      (k.exec (.wait c)).sched.freed = (k.life j).stackBase :: k.sched.freed := by
  have hlate := h.late
  have hlive : (k.life j).state ≠ .dead := by
    intro hd
    cases hz.symm.trans hd
  obtain ⟨hresult, hlife, -, hfreed⟩ := wait_reaps hs hstk (by omega) (h.find hs hlive)
    (h.parent.trans hp.symm) hz
  refine ⟨?_, fun i hi => ?_, ?_, hfreed⟩
  · simp only [toldWait, hresult, hstatus, if_neg hne, hp]
  · rw [hlife] at hi ⊢
    split at hi
    · rw [if_pos ‹_›]
    · rename_i hij
      have hpos : 0 < (k.life i).pid := by
        rw [hi]
        omega
      exact absurd (hs.pids.distinct i j (hi.trans h.pid.symm) hpos) hij
  · rw [hlife, if_pos rfl]

/-- An answer that leaves the fate of `c` alone. -/
theorem Delivers.waited (h : Delivers c k log) {p pid r : Int}
    (hfate : (fate c log).after c (.waited p pid r) = fate c log)
    (hans : pid = c → (fate c log).Answers p r) : Delivers c k (.waited p pid r :: log) := by
  refine ⟨h.sound, h.stacked, ?_, ?_, h.honest, ?_⟩
  · rw [fate, hfate]
    exact h.known
  · rw [fate, hfate]
    exact h.fated
  · rintro p' r' ⟨⟩
    exact hans rfl

/-- The parent of an ended `c` is told its status, and `c` is gone. -/
theorem Delivers.reaps (h : Delivers c k log) {s : Int} {j : Slot}
    (hf : fate c log = .ended (k.life k.sched.currentIdx).pid s)
    (hborn : Born c (k.life k.sched.currentIdx).pid k j) (hz : (k.life j).state = .zombie)
    (hstatus : (k.life j).exitStatus = s) (hne : s ≠ schedulerWaitBlocked) :
    Delivers c (k.exec (.wait c)) (k.toldWait c ++ log) := by
  obtain ⟨htell, hdead, -, -⟩ := toldWait_ended h.sound h.stacked hborn hz hstatus hne rfl
  have hreaped : fate c (Event.waited (k.life k.sched.currentIdx).pid c s :: log) = .reaped := by
    rw [fate, hf]
    exact if_pos ⟨rfl, rfl⟩
  rw [htell]
  refine ⟨exec_sound h.sound _, exec_stacked h.sound h.stacked fun _ _ _ _ e => ?_,
    fun _ => ?_, ?_, h.honest, ?_⟩
  · cases e
  · refine (h.known ?_).trans_le (k.exec_nextPid_le _)
    rw [hf]
    rintro ⟨⟩
  · rw [List.cons_append, List.nil_append, hreaped]
    exact hdead
  · rintro p r ⟨⟩
    show (fate c log).Answers _ s
    rw [hf]
    exact ⟨fun _ => rfl, fun hn => absurd rfl hn⟩

theorem Delivers.wait (h : Delivers c k log) (hgone : Gone c k (fate c log)) (pid : Int) :
    Delivers c (k.exec (.wait pid)) (k.toldWait pid ++ log) := by
  -- a caller that is not the parent of an ended `c`
  have hexec : (pid = c → ∀ p s, fate c log = .ended p s →
      (k.life k.sched.currentIdx).pid ≠ p) → Delivers c (k.exec (.wait pid)) log := by
    intro hw
    refine h.exec ⟨fun _ e => ?_, fun e => ?_, fun p s hf hcur => ?_, fun he => ?_⟩
      fun _ _ _ _ e => by cases e
    · cases e
    · cases e
    · exact absurd hcur (hgone p s hf)
    · exact hw (Op.wait.inj he)
  have htold : Delivers c (k.exec (.wait pid)) log →
      (∀ r, (fate c log).after c (.waited (k.life k.sched.currentIdx).pid pid r) = fate c log) →
      (∀ r, pid = c → (fate c log).Answers (k.life k.sched.currentIdx).pid r) →
      Delivers c (k.exec (.wait pid)) (k.toldWait pid ++ log) := by
    intro hk hfate hans
    simp only [toldWait]
    split
    · exact hk
    · exact hk.waited (hfate _) (hans _)
  have hfated := h.fated
  by_cases hpid : pid = c
  · subst hpid
    generalize hf : fate pid log = f at hfated
    cases f with
    | unborn =>
        refine htold (hexec fun _ p s he => ?_) (fun r => ?_) fun r _ => ?_
        · cases hf.symm.trans he
        · rw [hf]
          rfl
        · rw [hf]
          trivial
    | alive q =>
        obtain ⟨j, hborn, hlive⟩ := hfated
        have hk := hexec fun _ p s he => by cases hf.symm.trans he
        by_cases hq : (k.life k.sched.currentIdx).pid = q
        · rw [toldWait_alive h.sound hborn hlive hq]
          exact hk
        · rw [toldWait_stranger h.sound hborn hlive.1 hq]
          refine hk.waited ?_ fun _ => ?_
          · rw [hf]
            rfl
          · rw [hf]
            exact ⟨hq, rfl⟩
    | ended q s =>
        obtain ⟨j, hborn, hz, hstatus, hne⟩ := hfated
        by_cases hq : (k.life k.sched.currentIdx).pid = q
        · subst hq
          exact h.reaps hf hborn hz hstatus hne
        · have hlive : (k.life j).state ≠ .dead := by
            intro hd
            cases hz.symm.trans hd
          rw [toldWait_stranger h.sound hborn hlive hq]
          refine (hexec fun _ p s' he => ?_).waited ?_ fun _ => ?_
          · obtain ⟨rfl, -⟩ := Fate.ended.inj (hf.symm.trans he)
            exact hq
          · rw [hf]
            exact if_neg fun hc => hq hc.1
          · rw [hf]
            exact ⟨fun hc => absurd hc hq, fun _ => rfl⟩
    | reaped =>
        have hk := hexec fun _ p s he => by cases hf.symm.trans he
        rw [toldWait_reaped hfated]
        refine hk.waited ?_ fun _ => ?_
        · rw [hf]
          rfl
        · rw [hf]
          rfl
  · refine htold (hexec fun he => absurd he hpid) (fun r => ?_) fun r he => absurd he hpid
    cases fate c log with
    | ended p s => exact if_neg fun hc => hpid hc.2
    | _ => rfl

end Kernel

/-! ### The system -/

namespace Sys

open Kernel

variable {σ : Sys} {c : Int}

/-- Nobody kills `c` or blocks its corpse, `c` does not exit with the number of
`SCHEDULER_WAIT_BLOCKED`, and `mm_alloc` does not hand out the idle stack. -/
def Undisturbed (c : Int) (σ : Sys) : Label → Prop
  | .call (.kill pid) _ => pid ≠ c
  | .call (.block pid) _ =>
      pid = c → ∀ j, (σ.kernel.life j).pid = c → (σ.kernel.life j).state ≠ .zombie
  | .call (.exit status) _ => σ.pid = c → status ≠ schedulerWaitBlocked
  | .call (.create _ _ _ stack) _ => stack ≠ σ.kernel.sched.idleStack
  | .ctrlC => ∀ j, σ.kernel.target .killForeground = some j → (σ.kernel.life j).pid ≠ c
  | _ => True

instance (c : Int) (σ : Sys) : DecidablePred (Undisturbed c σ) := fun l => by
  induction l using Label.casesOn
  case call op _ => induction op using Kernel.Op.casesOn <;> dsimp only [Undisturbed] <;> infer_instance
  all_goals
    dsimp only [Undisturbed]
    infer_instance

/-- The kernel and the history agree, and a zombie `c` is not current. -/
structure Faithful (c : Int) (σ : Sys) : Prop where
  delivers : Delivers c σ.kernel σ.log
  gone : Gone c σ.kernel (fate c σ.log)

theorem told_plain (k : Kernel) {op : Op}
    (hcreate : ∀ name pr fg stack, op ≠ .create name pr fg stack)
    (hexit : ∀ status, op ≠ .exit status) : ∀ e ∈ told k op, e.Plain := by
  intro e he
  cases op with
  | create => exact absurd rfl (hcreate _ _ _ _)
  | exit => exact absurd rfl (hexit _)
  | semOpen name v =>
      simp only [told] at he
      split at he
      · obtain rfl := List.mem_singleton.mp he
        trivial
      · exact absurd he List.not_mem_nil
  | semPost semId =>
      simp only [told] at he
      split at he
      · obtain rfl := List.mem_singleton.mp he
        trivial
      · exact absurd he List.not_mem_nil
  | pipeOpen capacity =>
      simp only [told] at he
      split at he
      · obtain rfl := List.mem_singleton.mp he
        trivial
      · exact absurd he List.not_mem_nil
  | _ => exact absurd he List.not_mem_nil

theorem call_delivers (h : Faithful c σ) (h0 : σ.cur ≠ 0) {op : Op} {rsp : Nat}
    (hok : Undisturbed c σ (.call op rsp)) (hnow : op.AtOnce = true) :
    Delivers c (σ.call op).kernel (σ.call op).log := by
  show Delivers c (σ.kernel.exec op) (told σ.kernel op ++ σ.log)
  have hrest : (∀ name pr fg stack, op ≠ .create name pr fg stack) →
      (∀ status, op ≠ .exit status) → op ≠ .wait c →
      (∀ j, σ.kernel.target op = some j → (σ.kernel.life j).pid ≠ c) →
      (op = .block c → ∀ j, (σ.kernel.life j).pid = c → (σ.kernel.life j).state ≠ .zombie) →
      Delivers c (σ.kernel.exec op) (told σ.kernel op ++ σ.log) := by
    intro hcreate hexit hwait htarget hblock
    refine Delivers.plain (h.delivers.exec (h.gone.calm htarget hblock hwait) ?_)
      (told_plain σ.kernel hcreate hexit)
    exact fun _ _ _ _ e => absurd e (hcreate _ _ _ _)
  cases op with
  | create name pr fg stack => exact h.delivers.create h.gone h0 hok
  | exit status => exact h.delivers.exit h.gone h0 hok
  | kill pid =>
      refine hrest (fun _ _ _ _ => by rintro ⟨⟩) (fun _ => by rintro ⟨⟩) (by rintro ⟨⟩)
        (fun j hj => ?_) (by rintro ⟨⟩)
      rcases target_some hj with ⟨-, -, _, e⟩ | ⟨-, -, e | e⟩
      · cases e
      · rw [← Op.kill.inj e]
        exact hok
      · cases e
  | block pid =>
      refine hrest (fun _ _ _ _ => by rintro ⟨⟩) (fun _ => by rintro ⟨⟩) (by rintro ⟨⟩)
        (fun j hj => by cases hj) fun e => ?_
      exact hok (Op.block.inj e)
  | wait pid => cases hnow
  | killForeground => cases hnow
  | _ =>
      exact hrest (fun _ _ _ _ => by rintro ⟨⟩) (fun _ => by rintro ⟨⟩) (by rintro ⟨⟩)
        (fun j hj => by cases hj) (by rintro ⟨⟩)

/-- One round of `syscall_wait`. -/
theorem waitStep_eq (σ : Sys) (pid : Int) :
    (σ.waitStep pid).1.kernel = σ.kernel.exec (.wait pid) ∧
      (σ.waitStep pid).1.log = σ.kernel.toldWait pid ++ σ.log ∧
      ((σ.waitStep pid).2 = false → σ.kernel.toldWait pid = []) := by
  simp only [waitStep, toldWait]
  split
  · exact ⟨rfl, rfl, fun _ => rfl⟩
  · exact ⟨rfl, rfl, fun e => by cases e⟩

/-- What the other main parts add to the history says nothing about `c`. -/
theorem main_plain {l : Label} {r : Sys × Bool} (h : σ.main l = some r)
    (hcall : ∀ op rsp, l ≠ .call op rsp) (hwait : ∀ pid, σ.opOf l ≠ some (.wait pid)) :
    ∃ es, (∀ e ∈ es, e.Plain) ∧ r.1.log = es ++ σ.log := by
  refine ⟨σ.mainEvents l, fun e he => ?_, main_log h⟩
  cases l with
  | call op rsp => exact absurd rfl (hcall op rsp)
  | wait pid rsp => exact absurd rfl (hwait pid)
  | resume rsp =>
      rcases mem_resumeEvents he with ⟨pid, hc, -⟩ | ⟨p, count, got, hread⟩ | ⟨p, buf, n, hwrite⟩
      · refine absurd ?_ (hwait pid)
        simp only [opOf, hc]
      · rcases mem_readEvents hread with ⟨r, rfl⟩ | ⟨b, rfl⟩
        · trivial
        · trivial
      · rcases mem_writeEvents hwrite with ⟨r, rfl⟩ | ⟨b, rfl⟩
        · trivial
        · trivial
  | _ => cases he

/-- A round of `syscall_wait` is the main part of its steps. -/
theorem main_wait {l : Label} {r : Sys × Bool} (h : σ.main l = some r) {pid : Int}
    (hop : σ.opOf l = some (.wait pid)) (hcall : ∀ op rsp, l ≠ .call op rsp) :
    r = σ.waitStep pid := by
  cases l with
  | call op rsp => exact absurd rfl (hcall op rsp)
  | wait pid' rsp =>
      obtain rfl := Op.wait.inj (Option.some.inj hop)
      exact (Option.some.inj h).symm
  | resume rsp =>
      rw [← Option.some.inj h]
      rcases hc : σ.cont σ.cur with - | i | pid' | ⟨p, count, got, asleep⟩ | ⟨p, buf, n, asleep⟩ <;>
        simp only [opOf, hc] at hop
      · cases hop
      · cases hop
      · obtain rfl := Op.wait.inj (Option.some.inj hop)
        simp only [resume, hc]
      · cases hop
      · cases hop
  | semWait => cases hop
  | read => cases hop
  | write => cases hop
  | timer => cases h
  | ctrlC => cases hop

/-- The pieces of the calls that can wait, and of Ctrl+C. -/
theorem opOf_inner {l : Label} {op : Op} (h : σ.opOf l = some op)
    (hcall : ∀ op rsp, l ≠ .call op rsp) :
    (l = .ctrlC ∧ op = .killForeground) ∨ (∃ pid, op = .wait pid) ∨ MayWait op := by
  cases l with
  | call op rsp => exact absurd rfl (hcall op rsp)
  | semWait semId rsp =>
      obtain rfl := Option.some.inj h
      exact .inr (.inr trivial)
  | wait pid rsp =>
      obtain rfl := Option.some.inj h
      exact .inr (.inl ⟨pid, rfl⟩)
  | resume rsp =>
      rcases hc : σ.cont σ.cur with - | i | pid | ⟨p, count, got, asleep⟩ | ⟨p, buf, n, asleep⟩ <;>
        simp only [opOf, hc] at h
      · cases h
      · cases h
      · obtain rfl := Option.some.inj h
        exact .inr (.inl ⟨pid, rfl⟩)
      · obtain rfl := Option.some.inj h
        exact .inr (.inr trivial)
      · obtain rfl := Option.some.inj h
        exact .inr (.inr trivial)
  | read => cases h
  | write => cases h
  | timer => cases h
  | ctrlC =>
      obtain rfl := Option.some.inj h
      exact .inl ⟨rfl, rfl⟩

theorem main_delivers (h : Faithful c σ) {l : Label} (hg : σ.guard l) (hok : Undisturbed c σ l)
    {r : Sys × Bool} (hr : σ.main l = some r) : Delivers c r.1.kernel r.1.log := by
  by_cases hcall : ∃ op rsp, l = .call op rsp
  · obtain ⟨op, rsp, rfl⟩ := hcall
    obtain rfl := Option.some.inj hr
    exact call_delivers h hg.1.1 hok hg.2
  · have hcall : ∀ op rsp, l ≠ .call op rsp := fun op rsp e => hcall ⟨op, rsp, e⟩
    by_cases hwait : ∃ pid, σ.opOf l = some (.wait pid)
    · obtain ⟨pid, hop⟩ := hwait
      obtain ⟨hk, hlog, -⟩ := σ.waitStep_eq pid
      rw [main_wait hr hop hcall, hk, hlog]
      exact h.delivers.wait h.gone pid
    · have hwait : ∀ pid, σ.opOf l ≠ some (.wait pid) := fun pid e => hwait ⟨pid, e⟩
      obtain ⟨es, hes, hlog⟩ := main_plain hr hcall hwait
      rw [main_kernel hr, hlog]
      refine Delivers.plain ?_ hes
      rcases ho : σ.opOf l with - | op
      · exact h.delivers
      · rcases opOf_inner ho hcall with ⟨rfl, rfl⟩ | ⟨pid, rfl⟩ | hmay
        · exact h.delivers.exec (h.gone.calm hok (by rintro ⟨⟩) (by rintro ⟨⟩)) (by rintro _ _ _ _ ⟨⟩)
        · exact absurd ho (hwait pid)
        · refine h.delivers.exec (h.gone.calm (fun j hj => ?_) ?_ ?_) ?_
          · cases op with
            | semWait => cases hj
            | pipeRead => cases hj
            | pipeWrite => cases hj
            | _ => cases hmay
          · rintro rfl
            cases hmay
          · rintro rfl
            cases hmay
          · rintro _ _ _ _ rfl
            cases hmay

theorem granted_plain {es : List Event} (h : ∀ e ∈ es, ∃ pid i, e = .semGranted pid i) :
    ∀ e ∈ es, e.Plain := by
  intro e he
  obtain ⟨pid, i, rfl⟩ := h e he
  trivial

theorem step_delivers (h : Faithful c σ) {l : Label} (hg : σ.guard l) (hok : Undisturbed c σ l) :
    Delivers c (σ.step l).kernel (σ.step l).log := by
  refine step_invariant (I := fun σ => Delivers c σ.kernel σ.log) h.delivers
    (fun r hr => main_delivers h hg hok hr) (fun σ rsp hσ => hσ.tick rsp) fun σ hσ _ => ?_
  obtain ⟨es, hes, hlog⟩ := σ.arrive_log
  rw [arrive_kernel, hlog]
  exact hσ.plain (granted_plain hes)

/-- After a step that returns to user mode the current process runs. -/
theorem sysret_running (σ : Sys) (rsp : Nat) :
    ((σ.sysret rsp).kernel.life (σ.sysret rsp).cur).state = .running := by
  unfold sysret
  split
  · rw [tick, cur, arrive_kernel]
    exact Kernel.tick_current rsp
  · rename_i hstay
    rw [cur, arrive_kernel]
    simp only [Sched.schedulerShouldReschedule, Bool.or_eq_true, decide_eq_true_eq, not_or] at hstay
    exact not_not.mp hstay.1.1.2

/-- A step that does not return to user mode tells nothing about `c`, and the
same process stays current. -/
theorem main_stays (hs : σ.kernel.Sound) {l : Label} {σ' : Sys} (hr : σ.main l = some (σ', false)) :
    fate c σ'.log = fate c σ.log ∧
      (σ'.kernel.life σ'.cur).pid = (σ.kernel.life σ.cur).pid := by
  have hcall : ∀ op rsp, l ≠ .call op rsp := by
    rintro op rsp rfl
    cases hr
  refine ⟨?_, ?_⟩
  · by_cases hwait : ∃ pid, σ.opOf l = some (.wait pid)
    · obtain ⟨pid, hop⟩ := hwait
      obtain ⟨-, hlog, hnone⟩ := σ.waitStep_eq pid
      have he := main_wait hr hop hcall
      have hlog' : σ'.log = (σ.waitStep pid).1.log := congrArg (fun r => r.1.log) he
      rw [hlog', hlog, hnone (congrArg Prod.snd he).symm]
      rfl
    · obtain ⟨es, hes, hlog⟩ := main_plain hr hcall fun pid e => hwait ⟨pid, e⟩
      have hlog' : σ'.log = es ++ σ.log := hlog
      rw [hlog', fate_plain hes]
  · have hk := main_kernel hr
    have hk' : σ'.kernel = (σ.opOf l).elim σ.kernel σ.kernel.exec := hk
    unfold cur
    rw [hk']
    rcases ho : σ.opOf l with - | op
    · rfl
    · have htick : ∀ rsp, op ≠ .tick rsp := by
        rintro rsp rfl
        rcases opOf_inner ho hcall with ⟨-, e⟩ | ⟨_, e⟩ | e
        · cases e
        · cases e
        · cases e
      show ((σ.kernel.exec op).life (σ.kernel.exec op).sched.currentIdx).pid = _
      rw [exec_currentIdx htick]
      rcases (σ.kernel.exec_lifeStep hs.ordered op σ.kernel.sched.currentIdx).pids hs.pids with
        ⟨hpid, -, -⟩ | ⟨-, -, hfree, -⟩ | ⟨-, hdead, -, -, -⟩
      · exact hpid
      · exact absurd (Sched.findFreeSlot_some hfree).2 hs.pids.current
      · exact absurd hdead ((σ.kernel.exec_lifeStep hs.ordered op _).current hs.pids)

theorem step_faithful (h : Faithful c σ) {l : Label} (hg : σ.guard l) (hok : Undisturbed c σ l) :
    Faithful c (σ.step l) := by
  have hd := step_delivers h hg hok
  refine ⟨hd, fun p s hf hcur => ?_⟩
  -- `c` would be a zombie and current
  have hz : ((σ.step l).kernel.life (σ.step l).cur).state = .zombie := by
    have hfated := hd.fated
    rw [hf] at hfated
    obtain ⟨j, hborn, hz, -, -⟩ := hfated
    have hlate := hborn.late
    have he : (σ.step l).cur = j :=
      hd.sound.pids.distinct _ _ (hcur.trans hborn.pid.symm) (by
        show 0 < ((σ.step l).kernel.life (σ.step l).kernel.sched.currentIdx).pid
        omega)
    rw [he]
    exact hz
  unfold step at hf hcur hz
  rcases hm : σ.main l with - | ⟨σ', ret⟩
  · rw [hm] at hz
    have hz' : ((σ.tick l.rsp).kernel.life (σ.tick l.rsp).cur).state = .zombie := hz
    rw [tick, cur, arrive_kernel] at hz'
    cases (Kernel.tick_current l.rsp).symm.trans hz'
  · rw [hm] at hf hcur hz
    cases ret with
    | true => cases (σ'.sysret_running l.rsp).symm.trans hz
    | false =>
        obtain ⟨hfate, hpid⟩ := main_stays h.delivers.sound (c := c) hm
        exact h.gone p s (hfate.symm.trans hf) (hpid.symm.trans hcur)

theorem init_faithful {idleStack stack : Nat} (hstack : stack ≠ idleStack) :
    Faithful c (init idleStack stack) := by
  have hempty : Stacked (Kernel.init idleStack) := by
    intro j hj hlive
    have hdead : ((Kernel.init idleStack).life j).state = .dead := by
      simp only [life, Sched.life, Sched.core, Kernel.init, Sched.schedulerInit, if_neg hj]
      rfl
    exact absurd hdead hlive
  refine ⟨⟨boot_sound idleStack stack, exec_stacked (Kernel.init_sound idleStack) hempty ?_,
    fun hne => absurd rfl hne, trivial, trivial⟩, fun _ _ hf => by cases hf⟩
  rintro _ _ _ _ ⟨⟩
  exact hstack

/-- In this step the current process does a round of `syscall_wait(c)`. -/
def Waits (c : Int) (σ : Sys) (l : Label) : Prop :=
  (∃ rsp, l = .wait c rsp) ∨ (∃ rsp, l = .resume rsp) ∧ σ.cont σ.cur = .wait c

theorem Waits.main {l : Label} (h : σ.Waits c l) : σ.main l = some (σ.waitStep c) := by
  rcases h with ⟨rsp, rfl⟩ | ⟨⟨rsp, rfl⟩, hc⟩
  · rfl
  · simp only [Sys.main, resume, hc]

/-- A round that is told something returns to user mode. -/
theorem Waits.step {l : Label} (h : σ.Waits c l) {e : Event}
    (htold : σ.kernel.toldWait c = [e]) :
    ∃ es, (∀ e ∈ es, e.Plain) ∧ (σ.step l).log = es ++ e :: σ.log ∧
      ((σ.step l).kernel = σ.kernel.exec (.wait c) ∨
        ∃ rsp, (σ.step l).kernel = (σ.kernel.exec (.wait c)).exec (.tick rsp)) := by
  obtain ⟨hk, hlog, hret⟩ := σ.waitStep_eq c
  have hstep : σ.step l = (σ.waitStep c).1.sysret l.rsp := by
    unfold Sys.step
    rw [h.main]
    generalize σ.waitStep c = r at hret
    obtain ⟨σ', ret⟩ := r
    cases ret with
    | true => rfl
    | false =>
        rw [hret rfl] at htold
        cases htold
  obtain ⟨es, hes, hes'⟩ := (σ.waitStep c).1.sysret_log l.rsp
  refine ⟨es, granted_plain hes, ?_, ?_⟩
  · rw [hstep, hes', hlog, htold]
    rfl
  · rw [hstep]
    unfold sysret
    split
    · right
      refine ⟨l.rsp, ?_⟩
      rw [tick, arrive_kernel, exec_kernel, hk]
    · left
      rw [arrive_kernel, hk]

/-- What the exit of `c` does to those who wait for it. -/
theorem exit_wakes (h : Faithful c σ) {p s : Int} (hf : fate c σ.log = .alive p)
    (hpid : σ.pid = c) (h0 : σ.cur ≠ 0) (rsp : Nat) :
    fate c (σ.step (.call (.exit s) rsp)).log = .ended p s ∧
      ∀ i, ((σ.step (.call (.exit s) rsp)).kernel.life i).state = .blocked →
        ((σ.step (.call (.exit s) rsp)).kernel.life i).waitingFor ≠ c := by
  have hstep : σ.step (.call (.exit s) rsp) = (σ.call (.exit s)).sysret rsp := rfl
  have hlate : 1 < c := by
    have hfated := h.delivers.fated
    rw [hf] at hfated
    obtain ⟨j, hborn, -⟩ := hfated
    exact hborn.late
  have hexit : (σ.kernel.exec (.exit s)).Unawaited c := by
    intro i hb hfor
    obtain ⟨l, -, hl⟩ := σ.kernel.schedulerExitCurrent_life h0 s i
    have hl' : (σ.kernel.exec (.exit s)).life i = _ := hl
    have hcur : (σ.kernel.life σ.kernel.sched.currentIdx).pid = c := hpid
    rw [hl', hcur] at hb hfor
    split at hb
    · cases hb
    · rename_i hne
      rw [if_neg hne] at hfor
      exact Life.woken_unawaited hlate hb hfor
  rw [hstep]
  refine ⟨?_, ?_⟩
  · obtain ⟨es, hes, hlog⟩ := (σ.call (.exit s)).sysret_log rsp
    rw [hlog, fate_plain (granted_plain hes)]
    show (fate c σ.log).after c (.exited σ.pid s) = .ended p s
    rw [hf]
    exact if_pos hpid
  · have htick : (σ.kernel.exec (.exit s)).Sound := exec_sound h.delivers.sound _
    refine (sysret_invariant (I := fun σ => σ.kernel.Sound ∧ σ.kernel.Unawaited c)
      (show (σ.call (.exit s)).kernel.Sound ∧ _ from ⟨htick, hexit⟩) rsp ?_ ?_).2
    · rintro σ₁ r ⟨hs, hun⟩
      refine ⟨exec_sound hs (.tick r), fun i hb => ?_⟩
      have hl := σ₁.kernel.exec_lifeStep hs.ordered (.tick r) i
      show ((σ₁.kernel.exec (.tick r)).life i).waitingFor ≠ c
      have hb' : ((σ₁.kernel.exec (.tick r)).life i).state = .blocked := hb
      generalize (σ₁.kernel.exec (.tick r)).life i = l at hl hb'
      cases hl with
      | keeps => exact hun i hb'
      | wakes => cases hb'
      | releases ht => cases ht
      | parks hp => cases hp
      | ends ht => cases ht
      | kills ht => cases ht
      | preempts => cases hb'
      | dispatches => cases hb'
    · rintro σ₁ ⟨hs, hun⟩ -
      rw [arrive_kernel]
      exact ⟨hs, hun⟩

end Sys

end TP2Kernel
