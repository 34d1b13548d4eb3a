/-
TP2Kernel/Pipeline.lean

`execute_pipeline` of `shell/commands_pipe.c`, from `sys_pipe_open` to its return,
among other processes.  The shell opens a pipe and creates the left and the right
process; when it cannot create one of them it kills the left process and closes both
ends of the pipe.

The left process takes up the write end when it runs, so the shell does not know
whether the end is still reserved.  It need not: the read end stays reserved until the
shell closes it, and what the left process holds is closed when it is killed.  After
the first `sys_pipe_close` the pipe may be gone already, and the second one relies on
nobody having been given its identifier in between.
-/
import TP2Kernel.PipeHolders
import TP2Kernel.PipeSemaphores
import TP2Kernel.System
import TP2Kernel.Zombies

namespace TP2Kernel

/-- Where the shell stands in `execute_pipeline`: the call it makes next. -/
inductive Launch
  | createLeft
  | createRight (left : Int)
  | killLeft (left : Int)
  | closeRead
  | closeWrite
  | failed
  | launched (left right : Int)
  deriving DecidableEq

namespace Launch

/-- The call; `name` and `stack` belong to the process to be created. -/
def call (p : Fin maxPipes) (name : List UInt8) (stack : Nat) : Launch → Option Kernel.Op
  | .createLeft | .createRight _ => some (.create name 3 1 stack)
  | .killLeft left => some (.kill left)
  | .closeRead => some (.pipeClose p.val false)
  | .closeWrite => some (.pipeClose p.val true)
  | .failed | .launched _ _ => none

/-- The place after the call; `pid` is what `sys_create` answered. -/
def next (pid : Int) : Launch → Launch
  | .createLeft => if pid < 0 then .closeRead else .createRight pid
  | .createRight left => if pid < 0 then .killLeft left else .launched left pid
  | .killLeft _ => .closeRead
  | .closeRead => .closeWrite
  | .closeWrite => .failed
  | pc => pc

/-- The left process, from its creation until it is killed. -/
def left : Launch → Option Int
  | .createRight left | .killLeft left => some left
  | _ => none

/-- `execute_pipeline` has returned, or both processes exist. -/
def Over : Launch → Prop
  | .failed | .launched _ _ => True
  | _ => False

/-- The shell is cleaning up. -/
def CleansUp : Launch → Prop
  | .killLeft _ | .closeRead | .closeWrite => True
  | _ => False

theorem CleansUp.not_over {pc : Launch} (h : pc.CleansUp) : ¬ pc.Over := by
  cases pc with
  | killLeft _ | closeRead | closeWrite => exact id
  | createLeft | createRight _ | failed | launched _ _ => exact absurd h id

/-- The clean-up ends with the second `sys_pipe_close`. -/
theorem CleansUp.of_next {pc : Launch} (h : pc.CleansUp) {pid : Int} (hn : pc.next pid = .failed) :
    pc = .closeWrite := by
  cases pc with
  | closeWrite => rfl
  | killLeft _ | closeRead => cases hn
  | createLeft | createRight _ | failed | launched _ _ => exact absurd h id

instance : DecidablePred Over
  | .failed | .launched _ _ => inferInstanceAs (Decidable True)
  | .createLeft | .createRight _ | .killLeft _ | .closeRead | .closeWrite =>
      inferInstanceAs (Decidable False)

end Launch

namespace Kernel

open Ends Wiring

variable {k : Kernel} {op : Op} {p q : Fin maxPipes} {left : Option Int} {pc : Launch}

/-! ### Among well-behaved processes -/

/-- `sys_pipe_close` is for ends nobody has taken up, no process is reaped while its
descriptors name pipes, and the semaphores of pipes are left to the pipes. -/
def Mannered (k : Kernel) (op : Op) : Prop :=
  k.ClosesReserved op ∧ k.ReapsClosed op ∧ LeavesPipes k op

instance (k : Kernel) : Decidable k.RoomForTwo :=
  inferInstanceAs (Decidable (∃ i j, i ≠ j ∧ ¬ (k.semTable i).active = true ∧
    ¬ (k.semTable j).active = true))

instance (k : Kernel) : DecidablePred (LeavesPipes k) := fun op => by
  induction op using Op.casesOn <;> dsimp only [LeavesPipes] <;> infer_instance

instance (k : Kernel) : DecidablePred k.Mannered := fun op =>
  inferInstanceAs (Decidable (k.ClosesReserved op ∧ k.ReapsClosed op ∧ LeavesPipes k op))

/-- What such processes keep. -/
structure Tidy (k : Kernel) : Prop where
  sound : Sound k
  accounted : Accounted k
  wired : Wired k.wiring

theorem Tidy.exec (h : Tidy k) (hop : k.Mannered op) : Tidy (k.exec op) :=
  ⟨exec_sound h.sound op, exec_accounted h.sound h.accounted hop.1 hop.2.1,
    (exec_wired h.wired hop.2.2).1⟩

theorem Tidy.create (h : Tidy k) (name : List UInt8) (pr fg : Int) (stack : Nat) :
    Tidy (k.exec (.create name pr fg stack)) := h.exec ⟨trivial, trivial, trivial⟩

theorem Tidy.tick (h : Tidy k) (rsp : Nat) : Tidy (k.exec (.tick rsp)) :=
  h.exec ⟨trivial, trivial, trivial⟩

theorem init_tidy (idleStack : Nat) : Tidy (init idleStack) :=
  ⟨init_sound idleStack, init_accounted idleStack, init_wired idleStack⟩

/-- An inactive pipe has no semaphores. -/
theorem Tidy.no_semaphores (h : Tidy k) (hp : (k.pipeTable p).active = false) (w : Bool)
    (i : Fin maxSemaphores) (hi : (k.semTable i).active = true) :
    (k.semTable i).name ≠ pipeSemName p w := by
  intro hname
  have hact := (h.wired.named i p w hi hname).1
  rw [show k.wiring.active p = (k.pipeTable p).active from rfl, hp] at hact
  cases hact

/-! ### Who names the shell's pipe -/

/-- Of the live processes only `left` names an end of `p`, that is the write end, and
`left` names nothing else. -/
def OnlyLeft (p : Fin maxPipes) (left : Option Int) (k : Kernel) : Prop :=
  ∀ i fd e, k.naming (i, fd) = some e → e.1 = p ∨ left = some (k.life i).pid →
    left = some (k.life i).pid ∧ e = (p, true)

/-- The piece leaves `p` alone, except that `left` takes its standard output there. -/
def Op.KeepsOff (p : Fin maxPipes) (left : Option Int) : Op → Prop
  | .pipeClose pipeId _ => pipeId ≠ p.val
  | .pipeSetFd pid fd pipeId w =>
      if left = some pid then fd = 1 ∧ pipeId = p.val ∧ w = true else pipeId ≠ p.val
  | _ => True

instance (p : Fin maxPipes) (left : Option Int) : DecidablePred (Op.KeepsOff p left) := fun op => by
  induction op using Op.casesOn <;> dsimp only [Op.KeepsOff] <;> infer_instance

theorem Op.KeepsOff.setFd {pid pipeId : Int} {fd : Nat} {w : Bool}
    (h : (Op.pipeSetFd pid fd pipeId w).KeepsOff p left) :
    (left = some pid ∧ pipeId = p.val ∧ w = true) ∨ (left ≠ some pid ∧ pipeId ≠ p.val) := by
  have h' : if left = some pid then fd = 1 ∧ pipeId = p.val ∧ w = true else pipeId ≠ p.val := h
  split at h'
  · next hleft => exact .inl ⟨hleft, h'.2⟩
  · next hleft => exact .inr ⟨hleft, h'⟩

theorem alive_of_naming {i : Slot} {fd : Fin maxFds} {e : Fin maxPipes × Bool}
    (h : k.naming (i, fd) = some e) : (k.life i).state ≠ .dead := by
  intro hdead
  have hnone : k.naming (i, fd) = none := if_pos hdead
  rw [hnone] at h
  cases h

theorem exec_pid (hs : Sound k) {i : Slot} (h : (k.life i).state ≠ .dead)
    (h' : ((k.exec op).life i).state ≠ .dead) : ((k.exec op).life i).pid = (k.life i).pid := by
  rcases (k.exec_lifeStep hs.ordered op i).pids hs.pids with
    ⟨hpid, -⟩ | ⟨-, -, hfree, -⟩ | ⟨-, hd, -⟩
  · exact hpid
  · exact absurd (Sched.findFreeSlot_some hfree).2 h
  · exact absurd hd h'

theorem OnlyLeft.exec (hs : Sound k) (h : k.OnlyLeft p left) (hop : op.KeepsOff p left) :
    (k.exec op).OnlyLeft p left := by
  intro i fd e hname hor
  have halive' := alive_of_naming hname
  rcases exec_naming hs hname with hold | ⟨pid, pipeId, rfl, hi, hq⟩
  · rw [exec_pid hs (alive_of_naming hold) halive'] at hor ⊢
    exact h i fd e hold hor
  · obtain ⟨hpid, halive⟩ := Sched.findIndexByPid_some hi
    rw [exec_pid hs halive halive'] at hor ⊢
    have hpid' : (k.life i).pid = pid := hpid
    have hid := (k.validPipe_some hq).2
    rw [hpid'] at hor ⊢
    rcases hop.setFd with ⟨hleft, hp, hw⟩ | ⟨hleft, hp⟩
    · exact ⟨hleft, Prod.ext (Fin.ext (Int.ofNat.inj (hid.symm.trans hp))) hw⟩
    · rcases hor with rfl | hor
      · exact absurd hid hp
      · exact absurd hor hleft

/-- The left process is the only way to `p`, short of opening it. -/
theorem OnlyLeft.touches (h : k.OnlyLeft p left) (hop : op.KeepsOff p left)
    {e : Fin maxPipes × Bool} (ht : k.Touches op e) (he : e.1 = p) :
    (left ≠ none ∧ e = (p, true)) ∨ ∃ c, op = .pipeOpen c ∧ (k.pipeTable p).active = false ∧
      (k.pipeOpenWithCapacity c).2 = (p.val : Int) := by
  have hnaming : ∀ {i fd}, k.naming (i, fd) = some e → left ≠ none ∧ e = (p, true) := by
    intro i fd hname
    obtain ⟨hleft, he'⟩ := h i fd e hname (.inl he)
    exact ⟨by rw [hleft]; rintro ⟨⟩, he'⟩
  cases op with
  | pipeClose pipeId w =>
      refine absurd ?_ hop
      rw [(k.validPipe_some ht.1).2, he]
  | pipeOpen c =>
      refine .inr ⟨c, rfl, ?_⟩
      rw [← he]
      exact ht
  | pipeSetFd pid fd pipeId w =>
      obtain ⟨i, hi, ⟨hq, hw⟩ | ⟨n, -, hname⟩⟩ := ht
      · have hid := (k.validPipe_some hq).2
        rw [he] at hid
        rcases hop.setFd with ⟨hleft, -, hw'⟩ | ⟨-, hp⟩
        · exact .inl ⟨by rw [hleft]; rintro ⟨⟩, Prod.ext he (hw.symm.trans hw')⟩
        · exact absurd hid hp
      · exact .inl (hnaming hname)
  | _ =>
      obtain ⟨i, fd, -, hname⟩ := ht
      exact .inl (hnaming hname)

/-! ### The stages of a launch -/

/-- What holds while the shell stands at `pc`.  Until the shell closes the read end it
is reserved; afterwards the pipe has no reader. -/
structure Stage (p : Fin maxPipes) (pc : Launch) (k : Kernel) : Prop where
  tidy : k.Tidy
  only : k.OnlyLeft p pc.left
  pid : ∀ left, pc.left = some left → 1 < left
  reserved : pc ≠ .closeWrite → Reserved (p, false) k.ends
  half : pc = .closeWrite → k.ends.active p = true → k.ends.held p false = 0

/-- **Other processes keep the stage**, whatever they do away from the pipe. -/
theorem Stage.exec (h : Stage p pc k) (hm : k.Mannered op) (hop : op.KeepsOff p pc.left)
    (hopen : ∀ c, op = .pipeOpen c → (k.pipeOpenWithCapacity c).2 ≠ p.val) :
    Stage p pc (k.exec op) where
  tidy := h.tidy.exec hm
  only := h.only.exec h.tidy.sound hop
  pid := h.pid
  reserved := by
    intro hpc
    -- what touches `p` is `left`, at the write end
    refine exec_tolerates h.tidy.sound (tolerates_reserved _) (fun e ht he => ?_) (h.reserved hpc)
    rcases h.only.touches hop ht (by rw [he]) with ⟨-, he'⟩ | ⟨c, hc, -, hres⟩
    · rw [he] at he'
      cases he'
    · exact hopen c hc hres
  half := by
    intro hpc
    have htol : Tolerates (fun e => e.1 ≠ p)
        fun E : Ends (Fin maxPipes) => E.active p = true → E.held p false = 0 := by
      refine .of_sameAt fun E E' hE hhalf hact => ?_
      rw [hE.held]
      exact hhalf (hE.active.symm.trans hact)
    refine exec_tolerates h.tidy.sound htol (fun e ht he => ?_) (h.half hpc)
    -- the left process is gone by now, so nothing touches `p` at all
    rcases h.only.touches hop ht he with ⟨hleft, -⟩ | ⟨c, hc, -, hres⟩
    · rw [hpc] at hleft
      exact hleft rfl
    · exact hopen c hc hres

/-- A pipe that has just been opened is named by nobody. -/
theorem Tidy.opened (h : Tidy k) {c : Int} (hm : k.Mannered (.pipeOpen c))
    (hres : (k.pipeOpenWithCapacity c).2 = p.val) :
    Stage p .createLeft (k.exec (.pipeOpen c)) := by
  rcases k.pipeOpenWithCapacity_ends c with he | ⟨q, hq, hq', he⟩
  · rw [he] at hres
    exact absurd hres (Int.ne_of_lt (Int.negSucc_lt_zero 0 |>.trans_le (Int.natCast_nonneg _)))
  obtain rfl : q = p := Fin.ext (Int.ofNat.inj (hq'.symm.trans hres))
  have he' : (k.exec (.pipeOpen c)).ends = k.ends.launch q := he
  refine ⟨h.exec hm, fun i fd e hname hor => ?_, by rintro _ ⟨⟩, fun _ => ?_, by rintro ⟨⟩⟩
  · rcases exec_naming h.sound hname with hold | ⟨_, _, hset, -⟩
    -- an end that is named belongs to an active pipe, and `pipe_open` took an inactive one
    · have hact := h.accounted.balanced.named e.1 e.2 (names_pos hold)
      rw [hor.resolve_right (by rintro ⟨⟩)] at hact
      exact absurd (hact.symm.trans hq) (by rintro ⟨⟩)
    · cases hset
  · rw [he']
    exact ⟨Function.update_self _ _ _, if_pos rfl, if_pos rfl⟩

theorem Stage.create (h : Stage p pc k) (name : List UInt8) (pr fg : Int) (stack : Nat) :
    Stage p pc (k.exec (.create name pr fg stack)) :=
  h.exec ⟨trivial, trivial, trivial⟩ trivial fun c hc => by cases hc

theorem Stage.tick (h : Stage p pc k) (rsp : Nat) : Stage p pc (k.exec (.tick rsp)) :=
  h.exec ⟨trivial, trivial, trivial⟩ trivial fun c hc => by cases hc

/-- A place with the same left process and the same ends. -/
theorem Stage.move {pc' : Launch} (h : Stage p pc k) (hleft : pc'.left = pc.left)
    (hpc : pc ≠ .closeWrite) (hpc' : pc' ≠ .closeWrite) : Stage p pc' k where
  tidy := h.tidy
  only := hleft ▸ h.only
  pid := hleft ▸ h.pid
  reserved := fun _ => h.reserved hpc
  half := fun he => absurd he hpc'

/-- The left process starts with no pipe. -/
theorem Stage.leftCreated (h : Stage p .createLeft k) (hcur : k.sched.currentIdx ≠ 0)
    {name : List UInt8} {stack : Nat}
    (hpid : ¬ (k.sched.schedulerCreate name 3 1 stack).2 < 0) :
    Stage p (.createRight (k.sched.schedulerCreate name 3 1 stack).2)
      (k.exec (.create name 3 1 stack)) := by
  have hs := h.tidy.sound
  have hnext : (k.sched.schedulerCreate name 3 1 stack).2 = k.sched.nextPid := by
    have hcase := k.sched.schedulerCreate_cases name 3 1 stack
    generalize k.sched.schedulerCreate name 3 1 stack = r at hcase hpid
    cases hcase with
    | refused => exact absurd (Int.negSucc_lt_zero 0) hpid
    | creates => rfl
  rw [hnext]
  have h' := h.create name 3 1 stack
  refine ⟨h'.tidy, fun i fd e hname hor => ?_, fun left hleft => ?_,
    fun _ => h'.reserved (by rintro ⟨⟩), by rintro ⟨⟩⟩
  · rcases exec_naming hs hname with hold | ⟨_, _, hset, -⟩
    · have hpid' := exec_pid hs (alive_of_naming hold) (alive_of_naming hname)
      rcases hor with he | hleft
      · exact absurd (h.only i fd e hold (.inl he)).1 (by rintro ⟨⟩)
      -- the new pid is above all others, so no descriptor bound before is its own
      · have hfresh := hs.pids.fresh i
        rw [hpid'] at hleft
        have := Option.some.inj hleft
        omega
    · cases hset
  · obtain rfl := Option.some.inj hleft
    -- the caller has a pid of at least 1, so the child can be killed
    have hlive := (hs.pids.live _ hcur hs.pids.current).1
    have hfresh := hs.pids.fresh k.sched.currentIdx
    omega

/-- Once the left process is killed nobody names the pipe. -/
theorem Stage.killed {l : Int} (h : Stage p (.killLeft l) k) :
    Stage p .closeRead (k.exec (.kill l)) := by
  have hs := h.tidy.sound
  have h' : Stage p (.killLeft l) (k.exec (.kill l)) :=
    h.exec ⟨trivial, trivial, trivial⟩ trivial fun c hc => by cases hc
  refine ⟨h'.tidy, fun i fd e hname hor => ?_, by rintro _ ⟨⟩,
    fun _ => h'.reserved (by rintro ⟨⟩), by rintro ⟨⟩⟩
  have he : e.1 = p := hor.resolve_right (by rintro ⟨⟩)
  rcases exec_naming hs hname with hold | ⟨_, _, hset, -⟩
  -- whoever named the pipe was the left process, and it has just been ended
  · have hpid : (k.life i).pid = l := by
      obtain ⟨hleft, -⟩ := h.only i fd e hold (.inl he)
      exact (Option.some.inj hleft).symm
    have hl := h.pid l rfl
    have hfind := hs.pids.distinct.find_eq (by omega) (alive_of_naming hold)
    have ht : k.target (.kill l) = some i := by
      rw [← hpid] at hl ⊢
      exact (if_neg (by omega)).trans hfind
    rw [target_naming hs ht] at hname
    cases hname
  · cases hset

/-- What nobody names is held by reservations alone. -/
theorem Stage.held_eq (h : Stage p pc k) (hleft : pc.left = none) (hp : k.ends.active p = true)
    (w : Bool) : k.ends.held p w = k.ends.reserved p w := by
  have hnames : names k.naming (p, w) = 0 := by
    refine Finset.card_eq_zero.mpr (Finset.filter_eq_empty_iff.mpr fun x _ hx => ?_)
    obtain ⟨he, -⟩ := h.only x.1 x.2 (p, w) hx (.inl rfl)
    rw [hleft] at he
    cases he
  rw [h.tidy.accounted.balanced.count p w hp, hnames, Nat.zero_add]

theorem Stage.readClosed (h : Stage p .closeRead k) :
    Stage p .closeWrite (k.exec (.pipeClose p.val false)) := by
  have hr := h.reserved (by rintro ⟨⟩)
  have hm : k.Mannered (.pipeClose p.val false) := by
    refine ⟨fun q hq => ?_, trivial, trivial⟩
    obtain rfl := Option.some.inj ((validPipe_of_active hr.active).symm.trans hq)
    rw [hr.reserved]
    exact Nat.one_pos
  refine ⟨h.tidy.exec hm, fun i fd e hname hor => ?_, by rintro _ ⟨⟩, fun he => absurd rfl he,
    fun _ _ => ?_⟩
  · rcases exec_naming h.tidy.sound hname with hold | ⟨_, _, hset, -⟩
    · exact absurd (h.only i fd e hold (.inl (hor.resolve_right (by rintro ⟨⟩)))).1 (by rintro ⟨⟩)
    · cases hset
  · show (k.pipeClose p.val false).1.ends.held p false = 0
    rw [k.pipeClose_ends (validPipe_of_active hr.active), close_held, if_pos rfl, hr.held]

/-- The write end that is left is a reservation, so closing it gives the pipe up. -/
theorem Stage.writeClosed (h : Stage p .closeWrite k) :
    (k.exec (.pipeClose p.val true)).Tidy ∧
      ((k.exec (.pipeClose p.val true)).pipeTable p).active = false := by
  by_cases hp : k.ends.active p = true
  -- the pipe is still there: no reader, and the write end was never taken up
  · have hused := h.tidy.accounted.balanced.used p hp
    have hhalf := h.half rfl hp
    have hheld := h.held_eq rfl hp true
    have hres : k.ends.reserved p true = 1 := by
      rcases h.tidy.accounted.balanced.reserve p true hp with hzero | ⟨hone, -⟩ <;> omega
    have hm : k.Mannered (.pipeClose p.val true) := by
      refine ⟨fun q hq => ?_, trivial, trivial⟩
      obtain rfl := Option.some.inj ((validPipe_of_active hp).symm.trans hq)
      omega
    have hlast : Last k.ends p true := by
      constructor
      · rw [close_held, if_neg (by rintro ⟨⟩), hhalf]
      · rw [close_held, if_pos rfl, hheld, hres]
    refine ⟨h.tidy.exec hm, ?_⟩
    show (k.pipeClose p.val true).1.ends.active p = false
    rw [k.pipeClose_ends (validPipe_of_active hp), close_active, if_pos ⟨rfl, hlast⟩]
  -- the first call gave the pipe up: this one finds nothing to close
  · have hclosed : (k.pipeTable p).active = false := Bool.eq_false_iff.mpr hp
    have hv : k.validPipe p.val = none := by
      rw [validPipe, index?_natCast]
      exact Option.filter_eq_none_iff.mpr fun q hq => by
        obtain rfl := Option.some.inj hq
        exact hp
    have hexec : k.exec (.pipeClose p.val true) = k := by
      simp only [Kernel.exec, pipeClose, hv]
    rw [hexec]
    exact ⟨h.tidy, hclosed⟩

/-- **The clean-up stays away from the other pipes.** -/
theorem Stage.cleanUp_sameAt (h : Stage p pc k) (hpc : pc.CleansUp) {name : List UInt8}
    {stack : Nat} (hop : pc.call p name stack = some op) (hq : q ≠ p) :
    SameAt q k.ends (k.exec op).ends := by
  have htol : Tolerates (fun e => e.1 ≠ q) (SameAt q k.ends) :=
    .of_sameAt fun E E' hE h => ⟨hE.active.trans h.active, hE.held.trans h.held,
      hE.reserved.trans h.reserved⟩
  refine exec_tolerates h.tidy.sound htol (fun e ht he => hq ?_) ⟨rfl, rfl, rfl⟩
  rw [← he]
  cases pc with
  | killLeft l =>
      obtain rfl := Option.some.inj hop
      obtain ⟨i, fd, htarget, hname⟩ := ht
      have hpid : (k.life i).pid = l := by
        have hfind : (if l ≤ 1 then none else k.sched.findIndexByPid l) = some i := htarget
        split at hfind
        · cases hfind
        · exact (Sched.findIndexByPid_some hfind).1
      -- all the left process can name is the write end of `p`
      rw [(h.only i fd e hname (.inr (congrArg some hpid.symm))).2]
  | closeRead =>
      obtain rfl := Option.some.inj hop
      exact (Fin.ext (Int.ofNat.inj (k.validPipe_some ht.1).2)).symm
  | closeWrite =>
      obtain rfl := Option.some.inj hop
      exact (Fin.ext (Int.ofNat.inj (k.validPipe_some ht.1).2)).symm
  | createLeft | createRight _ | failed | launched _ _ => exact absurd hpc id

end Kernel

/-! ### The shell among other processes -/

/-- The system, the shell's place in `execute_pipeline`, and whether another process
has been given the identifier of the shell's pipe. -/
structure Pipeline where
  sys : Sys
  pc : Launch
  reopened : Bool

/-- A call of the shell, or a step of the rest of the system. -/
inductive Pipeline.Move
  | shell (name : List UInt8) (stack rsp : Nat)
  | other (l : Label)

/-- The timer and the keyboard, which come whoever runs. -/
def Label.Interrupt : Label → Prop
  | .timer _ | .ctrlC => True
  | _ => False

instance : DecidablePred Label.Interrupt := fun l => by
  induction l using Label.casesOn <;> dsimp only [Label.Interrupt] <;> infer_instance

namespace Pipeline

open Kernel

variable {x y : Pipeline} {p : Fin maxPipes} {sh : Int}

/-- The other processes close and bind their own pipes.  The shell's pipe is not one of
them until it is opened again. -/
def Others (p : Fin maxPipes) (x : Pipeline) (op : Op) : Prop :=
  x.sys.kernel.Mannered op ∧ (x.reopened = true ∨ op.KeepsOff p x.pc.left)

/-- The step opens a pipe and is given `p`. -/
def opens (p : Fin maxPipes) (σ : Sys) (l : Label) : Bool :=
  match σ.opOf l with
  | some (.pipeOpen c) => (σ.kernel.pipeOpenWithCapacity c).2 = p.val
  | _ => false

/-- One step. -/
def step (p : Fin maxPipes) (x : Pipeline) : Move → Option Pipeline
  | .shell name stack rsp =>
      (x.pc.call p name stack).map fun op =>
        ⟨x.sys.step (.call op rsp),
          x.pc.next (x.sys.kernel.sched.schedulerCreate name 3 1 stack).2, x.reopened⟩
  | .other l => some ⟨x.sys.step l, x.pc, x.reopened || opens p x.sys l⟩

/-- The process `sh` runs `execute_pipeline` when it runs, until it has returned. -/
def guard (p : Fin maxPipes) (sh : Int) (x : Pipeline) : Move → Prop
  | .shell _ _ _ => ¬ x.pc.Over ∧ x.sys.InUser ∧ x.sys.pid = sh
  | .other l => ¬ x.pc.Over ∧ (x.sys.pid ≠ sh ∨ l.Interrupt) ∧ x.sys.guard l ∧
      x.sys.Runs l (Others p x)

/-- `execute_pipeline` of the shell `sh` with the pipe `p`. -/
def machine (p : Fin maxPipes) (sh : Int) : Machine Pipeline Move where
  guard := guard p sh
  step := step p

instance (p : Fin maxPipes) (x : Pipeline) : DecidablePred (Others p x) := fun op =>
  inferInstanceAs (Decidable (x.sys.kernel.Mannered op ∧
    (x.reopened = true ∨ op.KeepsOff p x.pc.left)))

instance (p : Fin maxPipes) (sh : Int) (x : Pipeline) :
    (m : Move) → Decidable ((machine p sh).guard x m)
  | .shell _ _ _ => inferInstanceAs (Decidable (¬ x.pc.Over ∧ x.sys.InUser ∧ x.sys.pid = sh))
  | .other l => inferInstanceAs (Decidable (¬ x.pc.Over ∧ (x.sys.pid ≠ sh ∨ l.Interrupt) ∧
      x.sys.guard l ∧ x.sys.Runs l (Others p x)))

/-- After `sys_pipe_open`. -/
def start (σ : Sys) (rsp : Nat) : Pipeline :=
  ⟨σ.step (.call (.pipeOpen pipeBufSize) rsp), .createLeft, false⟩

theorem call_kernel {σ : Sys} {P : Kernel → Prop} {op : Op} (h : P (σ.kernel.exec op))
    (htick : ∀ k rsp, P k → P (k.exec (.tick rsp))) (rsp : Nat) :
    P (σ.step (.call op rsp)).kernel := by
  have hcall : P (σ.call op).kernel := h
  refine Sys.sysret_invariant (I := fun σ => P σ.kernel) hcall rsp
    (fun σ rsp hσ => htick σ.kernel rsp hσ) fun σ hσ _ => ?_
  rw [Sys.arrive_kernel]
  exact hσ

/-- The stage the shell is at, as long as its pipe is its own. -/
def Staged (p : Fin maxPipes) (x : Pipeline) : Prop :=
  x.reopened = false → ¬ x.pc.Over → x.sys.kernel.Stage p x.pc

theorem other_staged {l : Label} (h : x.Staged p) (hl : x.sys.Runs l (Others p x)) :
    Staged p ⟨x.sys.step l, x.pc, x.reopened || opens p x.sys l⟩ := by
  intro hown hpc
  obtain ⟨hown', hopens⟩ := Bool.or_eq_false_iff.mp hown
  have hstage := h hown' hpc
  refine Sys.step_kernel hstage (fun op hop => ?_) fun k rsp hk => hk.tick rsp
  obtain ⟨hm, hr | hoff⟩ := hl op hop
  · rw [hown'] at hr
    cases hr
  · refine hstage.exec hm hoff fun c hc hres => ?_
    subst hc
    simp only [opens, hop, hres, decide_true] at hopens
    cases hopens

theorem shell_staged {name : List UInt8} {stack rsp : Nat} (h : x.Staged p)
    (hrun : x.sys.InUser) (hy : step p x (.shell name stack rsp) = some y) : y.Staged p := by
  intro hown hpc
  obtain ⟨op, hop, rfl⟩ := Option.map_eq_some_iff.mp hy
  obtain ⟨σ, pc, reopened⟩ := x
  have hstage : ¬ pc.Over → σ.kernel.Stage p pc := h hown
  have htick : ∀ {pc' : Launch} (k : Kernel) (rsp : Nat), k.Stage p pc' →
      (k.exec (.tick rsp)).Stage p pc' := fun k rsp hk => hk.tick rsp
  show (σ.step (.call op rsp)).kernel.Stage p
    (pc.next (σ.kernel.sched.schedulerCreate name 3 1 stack).2)
  cases pc with
  | createLeft =>
      obtain rfl := Option.some.inj hop
      have hs := hstage id
      refine call_kernel (P := fun k => k.Stage p _) ?_ htick rsp
      by_cases hpid : (σ.kernel.sched.schedulerCreate name 3 1 stack).2 < 0
      · rw [show Launch.next _ .createLeft = .closeRead from if_pos hpid]
        exact (hs.create name 3 1 stack).move rfl (by rintro ⟨⟩) (by rintro ⟨⟩)
      · rw [show Launch.next _ .createLeft = .createRight _ from if_neg hpid]
        exact hs.leftCreated hrun.1 hpid
  | createRight left =>
      obtain rfl := Option.some.inj hop
      have hs := hstage id
      by_cases hpid : (σ.kernel.sched.schedulerCreate name 3 1 stack).2 < 0
      · rw [show Launch.next _ (.createRight left) = .killLeft left from if_pos hpid]
        refine call_kernel (P := fun k => k.Stage p _) ?_ htick rsp
        exact (hs.create name 3 1 stack).move rfl (by rintro ⟨⟩) (by rintro ⟨⟩)
      -- both processes exist: `execute_pipeline` goes on to wait for them
      · refine absurd ?_ hpc
        show (Launch.next _ (.createRight left)).Over
        rw [show Launch.next _ (.createRight left) = .launched left _ from if_neg hpid]
        trivial
  | killLeft left =>
      obtain rfl := Option.some.inj hop
      exact call_kernel (P := fun k => k.Stage p _) (hstage id).killed htick rsp
  | closeRead =>
      obtain rfl := Option.some.inj hop
      exact call_kernel (P := fun k => k.Stage p _) (hstage id).readClosed htick rsp
  | closeWrite => exact absurd trivial hpc
  | failed => cases hop
  | launched left right => cases hop

/-! ### Runs -/

theorem reach_tidy {idleStack stack : Nat} {σ : Sys}
    (h : (Sys.machine.restrict fun σ l => σ.Runs l σ.kernel.Mannered).Reach
      (Sys.init idleStack stack) σ) : σ.kernel.Tidy := by
  refine h.invariant (I := fun σ => σ.kernel.Tidy) ((init_tidy idleStack).create _ _ _ stack)
    fun σ l σ' hσ hg hs => ?_
  obtain rfl := Option.some.inj hs
  exact Sys.step_kernel hσ (fun op hop => hσ.exec (hg.2 op hop)) fun k rsp hk => hk.tick rsp

theorem start_staged {σ : Sys} (h : σ.kernel.Tidy)
    (hres : (σ.kernel.pipeOpenWithCapacity pipeBufSize).2 = p.val)
    (hroom : σ.kernel.Mannered (.pipeOpen pipeBufSize)) (rsp : Nat) :
    (start σ rsp).Staged p := by
  intro _ _
  exact call_kernel (P := fun k => k.Stage p .createLeft) (h.opened hroom hres)
    (fun k rsp hk => hk.tick rsp) rsp

theorem reach_staged {σ : Sys} {rsp : Nat} (h₀ : (start σ rsp).Staged p)
    (h : (machine p sh).Reach (start σ rsp) x) : x.Staged p := by
  refine h.invariant h₀ fun x l y hx hg hy => ?_
  cases l with
  | shell name stack rsp => exact shell_staged hx hg.2.1 hy
  | other l =>
      obtain rfl := Option.some.inj hy
      exact other_staged hx hg.2.2.2

/-- **The clean-up of `execute_pipeline`.**  However far the left process has come and
whatever the other processes do with their pipes, no call of the clean-up changes the
counts of a pipe other than the shell's, and after the last one that pipe is inactive and
neither of its semaphores is open; provided nobody has been given the identifier of the
pipe before the shell has closed both ends. -/
theorem cleanUp_own_pipe {idleStack stack rsp : Nat} {σ : Sys}
    (h₀ : (Sys.machine.restrict fun σ l => σ.Runs l σ.kernel.Mannered).Reach
      (Sys.init idleStack stack) σ)
    (hres : σ.kernel.pipeOpen.2 = p.val) (hroom : σ.kernel.RoomForTwo)
    (hx : (machine p sh).Reach (start σ rsp) x) (hown : x.reopened = false)
    (hpc : x.pc.CleansUp) {name : List UInt8} {stack' rsp' : Nat}
    (hy : step p x (.shell name stack' rsp') = some y) :
    (∀ q, q ≠ p →
      (y.sys.kernel.pipeTable q).readers = (x.sys.kernel.pipeTable q).readers ∧
      (y.sys.kernel.pipeTable q).writers = (x.sys.kernel.pipeTable q).writers) ∧
    (y.pc = .failed →
      (y.sys.kernel.pipeTable p).active = false ∧
      ∀ i w, (y.sys.kernel.semTable i).active = true →
        (y.sys.kernel.semTable i).name ≠ pipeSemName p w) := by
  have hstart := start_staged (reach_tidy h₀) hres ⟨trivial, trivial, .inr hroom⟩ rsp
  have hstage := reach_staged hstart hx hown hpc.not_over
  obtain ⟨op, hop, rfl⟩ := Option.map_eq_some_iff.mp hy
  refine ⟨fun q hq => ?_, fun hfailed => ?_⟩
  · have hsame : Ends.SameAt q x.sys.kernel.ends (x.sys.step (.call op rsp')).kernel.ends :=
      call_kernel (P := fun k => Ends.SameAt q x.sys.kernel.ends k.ends)
        (hstage.cleanUp_sameAt hpc hop hq) (fun k rsp hk => hk) rsp'
    exact ⟨congrFun hsame.held false, congrFun hsame.held true⟩
  · rw [hpc.of_next hfailed] at hstage hop
    obtain rfl := Option.some.inj hop
    obtain ⟨htidy, hclosed⟩ := call_kernel
      (P := fun k => k.Tidy ∧ (k.pipeTable p).active = false) hstage.writeClosed
      (fun k rsp hk => ⟨hk.1.tick rsp, hk.2⟩) rsp'
    exact ⟨hclosed, fun i w => htidy.no_semaphores hclosed w i⟩

/-- The left process has attached, the right one cannot be created, another process
opens and keeps a pipe of its own: the second `sys_pipe_close` finds the shell's pipe
gone. -/
theorem cleanUp_own_pipe_attached : ∃ x y : Pipeline,
    step 0 x (.shell [] 0 0) = some y ∧ x.pc = .closeWrite ∧ y.pc = .failed ∧
    (x.sys.kernel.pipeTable 1).writers = 1 ∧ (y.sys.kernel.pipeTable 1).writers = 1 ∧
    (y.sys.kernel.pipeTable 0).active = false := by
  obtain ⟨σ, x, h₀, ⟨hres, hroom⟩, hx, hpc, hown, hwriters⟩ := Machine.exists_reach_of_traces
    (T := Sys.machine.restrict fun σ l => σ.Runs l σ.kernel.Mannered) (s := Sys.init 1000 5000)
    (machine 0 1) (fun σ => start σ 0)
    [.timer 0, .call (.create [111] 3 0 6000) 0]
    [.shell [108] 7000 0, .other (.timer 0), .other (.call (.pipeOpen 1) 0), .other (.timer 0),
      .other (.call (.pipeSetFd 3 1 0 true) 0), .other (.timer 0), .shell [114] 0 0,
      .shell [] 0 0, .shell [] 0 0]
    (P := fun σ => σ.kernel.pipeOpen.2 = 0 ∧ σ.kernel.RoomForTwo)
    (Q := fun x => x.pc = .closeWrite ∧ x.reopened = false ∧
      (x.sys.kernel.pipeTable 1).writers = 1) (by decide +kernel)
  have hy : step 0 x (.shell [] 0 0) =
      some ⟨x.sys.step (.call (.pipeClose 0 true) 0), .failed, x.reopened⟩ := by
    simp only [step, hpc]
    rfl
  obtain ⟨hother, hend⟩ := cleanUp_own_pipe (p := 0) h₀ hres hroom hx hown
    (by rw [hpc]; trivial) hy
  exact ⟨x, _, hy, hpc, rfl, hwriters, (hother 1 (by decide)).2.trans hwriters, (hend rfl).1⟩

/-- **The clean-up can close an end of somebody else's pipe.**  The left process has
attached to the write end, so killing it and closing the read end gives the pipe up.
Before the shell goes on another process opens a pipe and is given the same identifier,
and the shell's second `sys_pipe_close` takes its write end away. -/
theorem cleanUp_closes_foreign_end : ∃ (σ : Sys) (x y : Pipeline),
    (Sys.machine.restrict fun σ l => σ.Runs l σ.kernel.Mannered).Reach (Sys.init 1000 5000) σ ∧
    σ.kernel.pipeOpen.2 = 0 ∧ σ.kernel.RoomForTwo ∧ (machine 0 1).Reach (start σ 0) x ∧
    x.pc = .closeWrite ∧ x.reopened = true ∧ (machine 0 1).guard x (.shell [] 0 0) ∧
    step 0 x (.shell [] 0 0) = some y ∧
    (x.sys.kernel.pipeTable 0).active = true ∧ (x.sys.kernel.pipeTable 0).writers = 1 ∧
    (y.sys.kernel.pipeTable 0).active = true ∧ (y.sys.kernel.pipeTable 0).writers = 0 := by
  obtain ⟨σ, x, h₀, ⟨hres, hroom⟩, hx, hpc, hopened, hguard, hact, hwriters, hact', hwriters'⟩ :=
    Machine.exists_reach_of_traces
    (T := Sys.machine.restrict fun σ l => σ.Runs l σ.kernel.Mannered) (s := Sys.init 1000 5000)
    (machine 0 1) (fun σ => start σ 0)
    [.timer 0, .call (.create [111] 3 0 6000) 0]
    [.shell [108] 7000 0, .other (.timer 0), .other (.timer 0),
      .other (.call (.pipeSetFd 3 1 0 true) 0), .other (.timer 0), .shell [114] 0 0,
      .shell [] 0 0, .shell [] 0 0, .other (.timer 0), .other (.call (.pipeOpen pipeBufSize) 0),
      .other (.timer 0)]
    (P := fun σ => σ.kernel.pipeOpen.2 = 0 ∧ σ.kernel.RoomForTwo)
    (Q := fun x => x.pc = .closeWrite ∧ x.reopened = true ∧
      (machine 0 1).guard x (.shell [] 0 0) ∧ (x.sys.kernel.pipeTable 0).active = true ∧
      (x.sys.kernel.pipeTable 0).writers = 1 ∧
      ((x.sys.step (.call (.pipeClose 0 true) 0)).kernel.pipeTable 0).active = true ∧
      ((x.sys.step (.call (.pipeClose 0 true) 0)).kernel.pipeTable 0).writers = 0)
    (by decide +kernel)
  refine ⟨σ, x, ⟨x.sys.step (.call (.pipeClose 0 true) 0), .failed, x.reopened⟩, h₀, hres, hroom,
    hx, hpc, hopened, hguard, ?_, hact, hwriters, hact', hwriters'⟩
  simp only [step, hpc]
  rfl

end Pipeline

end TP2Kernel
