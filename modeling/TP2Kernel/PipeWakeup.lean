/-
TP2Kernel/PipeWakeup.lean

No wake-up of a pipe is lost, in runs of the whole system.  The watch of
`PipeWatchSteps` needs to know that a process inside `pipe_read` or `pipe_write`
holds an end of the pipe it is inside of (`Grounded`): then the end it closes when
it is killed hands the wake-up on, and the pipe cannot be freed under it.

`sys_pipe_set_fd` can be aimed at any process and closes the descriptor it
replaces, so it can take that end away (`Gentle` excludes this).  A reader that
sleeps without an end is not counted by `pipe_close`, and then a wake-up can be
lost.
-/
import TP2Kernel.PipeHolders
import TP2Kernel.PipeWatchSteps

namespace TP2Kernel

theorem SamePipes.sem {k k' : Kernel} (h : SamePipes k k') : k'.wiring.sem = k.wiring.sem := by
  unfold Kernel.wiring
  rw [h.semData, h.semSpace]

namespace Kernel

variable {k k' : Kernel} {p : Fin maxPipes} {n : Bool → Fin maxSemaphores}

/-! ### What a process keeps -/

theorem pipeInitSems_sem {q q' : Fin maxPipes} (hq : q ≠ q') :
    (k.pipeInitSems q').wiring.sem q = k.wiring.sem q := by
  have hdata := SamePipes.semOpen k [100, 48 + UInt8.ofNat q'.val] 0
  unfold pipeInitSems
  simp only
  generalize k.semOpen [100, 48 + UInt8.ofNat q'.val] 0 = r at hdata ⊢
  have hspace := SamePipes.semOpen
    { r.1 with pipeSemData := Function.update r.1.pipeSemData q' r.2 }
    [115, 48 + UInt8.ofNat q'.val] 0
  funext w
  cases w with
  | false =>
      refine (congrFun hspace.semData q).trans ?_
      exact (Function.update_of_ne hq _ _).trans (congrFun hdata.semData q)
  | true =>
      refine (Function.update_of_ne hq _ _).trans ?_
      exact (congrFun hspace.semSpace q).trans (congrFun hdata.semSpace q)

/-- Closing ends changes no identifier. -/
theorem sem_endClosed : EndClosed fun k k' => k'.wiring.sem = k.wiring.sem where
  refl := fun _ => rfl
  trans := fun h h' => h'.trans h
  sched := fun _ _ => rfl
  closes := fun k pipeId w => k.pipeClose_sem pipeId w
  removes := fun _ _ => rfl

/-- An open pipe keeps its identifiers. -/
theorem exec_sem (k : Kernel) (op : Op) {q : Fin maxPipes}
    (hq : (k.pipeTable q).active = true) : (k.exec op).wiring.sem q = k.wiring.sem q := by
  cases op with
  | create name pr fg stack => rfl
  | kill pid => exact congrFun (sem_endClosed.schedulerKill k pid) q
  | killForeground => exact congrFun (sem_endClosed.schedulerKillForeground k) q
  | block pid => rfl
  | unblock pid => rfl
  | nice pid pr => rfl
  | wait pid => rfl
  | exit status => exact congrFun (sem_endClosed.schedulerExitCurrent k status) q
  | yield => rfl
  | tick rsp => rfl
  | semOpen name v => exact congrFun (SamePipes.semOpen k name v).sem q
  | semWait semId => exact congrFun (SamePipes.semWait k semId).sem q
  | semPost semId => exact congrFun (SamePipes.semPost k semId).sem q
  | semPostAll semId => exact congrFun (SamePipes.semPostAll k semId).sem q
  | semClose semId => exact congrFun (SamePipes.semClose k semId).sem q
  | pipeOpen c =>
      show (k.pipeOpenWithCapacity c).1.wiring.sem q = _
      rcases k.pipeOpenWithCapacity_eq c with he | ⟨q', hq', -, he⟩
      · rw [he]
      · have hne : q ≠ q' := by
          rintro rfl
          rw [hq] at hq'
          cases hq'
        rw [he]
        exact pipeInitSems_sem (k := k.openPrep q' c) hne
  | pipeClose pipeId w => exact congrFun (k.pipeClose_sem pipeId w) q
  | pipeSetFd pid fd pipeId w =>
      refine congrFun (sem_endClosed.syscallPipeSetFd k pid fd pipeId w ?_) q
      rw [pipeAttach_wiring]
  | pipeRead q' =>
      exact congrFun (congrArg Wiring.sem ((k.pipeReadStep_cases q').wiring fun _ => rfl)) q
  | pipeWrite q' c =>
      exact congrFun (congrArg Wiring.sem ((k.pipeWriteStep_cases q' c).wiring fun _ => rfl)) q

theorem descriptor_eq {d : FileDescriptor} {q : Fin maxPipes} {w : Bool}
    (htype : d.type = if w then .pipeWrite else .pipeRead) (hid : d.pipeId = (q.val : Int)) :
    d = descriptor q w := by
  obtain ⟨type, pipeId⟩ := d
  subst htype
  subst hid
  rfl

theorem descriptor_not_plain (q : Fin maxPipes) (w : Bool) : ¬ (descriptor q w).Plain := by
  intro h
  cases w with
  | false => exact h.1 rfl
  | true => exact h.2 rfl

/-- A process keeps an end of a pipe unless it ends, or somebody binds that
descriptor to something else. -/
theorem exec_keeps_end (hs : Sound k) {op : Op} {j : Slot} {q : Fin maxPipes} {w : Bool}
    (hwait : ∀ pid, op ≠ .wait pid) (hlive : (k.proc j).state ≠ .dead)
    (hend : k.target op ≠ some j) {fd : Fin maxFds} (hfd : (k.proc j).fds fd = descriptor q w)
    (hset : ∀ pid pipeId v, op = .pipeSetFd pid fd.val pipeId v →
      k.sched.findIndexByPid pid ≠ some j) : ((k.exec op).proc j).fds fd = descriptor q w := by
  have htarget : (∃ status, op = .exit status) ∨ (∃ pid, op = .kill pid) ∨ op = .killForeground →
      ((k.exec op).proc j).fds fd = descriptor q w := by
    intro hop
    rcases ht : k.target op with - | i
    · rw [exec_target_none ht hop]
      exact hfd
    · have hji : j ≠ i := fun e => hend (e ▸ ht)
      rw [(target_sameFds hs ht hji).1]
      exact hfd
  by_cases hplain : op.Plain
  · rw [exec_fds hplain]
    exact hfd
  cases op with
  | create name pr fg stack =>
      rcases create_fdsKept name pr fg stack j with hsame | ⟨hun, -⟩
      · rw [hsame.1]
        exact hfd
      · have hplain := hun.resolve_left hlive fd
        rw [hfd] at hplain
        exact absurd hplain (descriptor_not_plain q w)
  | kill pid => exact htarget (.inr (.inl ⟨pid, rfl⟩))
  | killForeground => exact htarget (.inr (.inr rfl))
  | exit status => exact htarget (.inl ⟨status, rfl⟩)
  | wait pid => exact absurd rfl (hwait pid)
  | pipeSetFd pid fd' pipeId v =>
      have hcase := k.syscallPipeSetFd_cases pid fd' pipeId v
      show (((k.syscallPipeSetFd pid fd' pipeId v).1.proc j).fds fd) = _
      generalize k.syscallPipeSetFd pid fd' pipeId v = r at hcase
      cases hcase with
      | refused => exact hfd
      | binds i m q' hi hm _ =>
          rw [setFd_fds, if_neg, releaseFd_fds]
          · unfold proc at hfd ⊢
            rw [pipeAttach_sched]
            exact hfd
          · rintro ⟨rfl, rfl⟩
            exact hset pid pipeId v (by rw [hm]) hi
  | _ => exact absurd trivial hplain

/-- Whoever is killed is gone. -/
theorem exec_target_dead (hs : Sound k) {op : Op} {j : Slot} (ht : k.target op = some j)
    (hj : j ≠ k.sched.currentIdx) : ((k.exec op).life j).state = .dead := by
  rcases exec_target hs.pids ht with ⟨he, -⟩ | ⟨-, hi, -, he⟩
  · exact absurd he hj
  · obtain ⟨l, -, hl⟩ := k.killOther_life hi j
    rw [he, hl, if_pos rfl]
    rfl

end Kernel

/-! ### Inside a call -/

/-- The process is inside a call on the side `w` of the pipe `p`. -/
def Cont.Inside : Cont → Fin maxPipes → Bool → Prop
  | .read q _ _ _, p, w => q = p ∧ w = false
  | .write q _ _ _, p, w => q = p ∧ w = true
  | _, _, _ => False

instance : (c : Cont) → (p : Fin maxPipes) → (w : Bool) → Decidable (c.Inside p w)
  | .user, _, _ | .semWait _, _, _ | .wait _, _, _ => inferInstanceAs (Decidable False)
  | .read q _ _ _, p, w => inferInstanceAs (Decidable (q = p ∧ w = false))
  | .write q _ _ _, p, w => inferInstanceAs (Decidable (q = p ∧ w = true))

theorem Cont.Inside.unique {c : Cont} {p q : Fin maxPipes} {v w : Bool} (h : c.Inside p v)
    (h' : c.Inside q w) : p = q ∧ v = w := by
  cases c with
  | read r _ _ _ => exact ⟨h.1.symm.trans h'.1, h.2.trans h'.2.symm⟩
  | write r _ _ _ => exact ⟨h.1.symm.trans h'.1, h.2.trans h'.2.symm⟩
  | _ => exact absurd h id

namespace Sys

open Kernel

variable {σ : Sys} {p : Fin maxPipes} {n : Bool → Fin maxSemaphores}

/-- What processes do to each other: nobody waits for the end of another process,
is blocked by another one while inside a call on a pipe, or is unblocked while it
waits for a semaphore; `Ctrl+C` does not kill the current process; and
`pipe_close` is called for ends that nobody has taken up. -/
def Tame (σ : Sys) : Op → Prop
  | .wait _ => False
  | .killForeground => σ.kernel.target .killForeground ≠ some σ.cur
  | .block pid =>
      ∀ j, σ.kernel.sched.findIndexByPid pid = some j → ∀ q w, ¬ (σ.cont j).Inside q w
  | .unblock pid => ¬ σ.kernel.Waiting pid
  | .pipeClose pipeId w => σ.kernel.ClosesReserved (.pipeClose pipeId w)
  | _ => True

/-- `syscall_pipe_set_fd` does not take the end of a pipe away from a process that
is inside a call on it. -/
def Gentle (σ : Sys) : Op → Prop
  | .pipeSetFd pid fd _ _ =>
      ∀ j, σ.kernel.sched.findIndexByPid pid = some j → ∀ q w, (σ.cont j).Inside q w →
        ∀ fd' : Fin maxFds, fd'.val = fd → (σ.kernel.proc j).fds fd' ≠ descriptor q w
  | _ => True

instance (σ : Sys) : DecidablePred σ.Tame := fun op => by
  induction op using Kernel.Op.casesOn <;> dsimp only [Tame] <;> infer_instance

instance (σ : Sys) : DecidablePred σ.Gentle := fun op => by
  induction op using Kernel.Op.casesOn <;> dsimp only [Gentle] <;> infer_instance

theorem Tame.orderly {op : Op} (h : σ.Tame op) (hop : op ≠ .killForeground) :
    σ.kernel.Orderly op := by
  cases op with
  | wait pid => exact h
  | killForeground => exact absurd rfl hop
  | unblock pid => exact h
  | _ => exact trivial

theorem Tame.noWait {op : Op} (h : σ.Tame op) (pid : Int) : op ≠ .wait pid := by
  rintro rfl
  exact h

/-- `Ctrl+C` kills another process. -/
theorem ctrlC_disciplined (h : σ.Disciplined) (ht : σ.Tame .killForeground) :
    (σ.exec .killForeground).Disciplined := by
  refine ⟨Kernel.exec_strict h.strict .killForeground fun _ => by rintro ⟨⟩, ?_⟩
  show Parked (σ.kernel.exec .killForeground) σ.park
  rcases hi : σ.kernel.target .killForeground with - | i
  · rw [exec_target_none hi (.inr (.inr rfl))]
    exact h.parked
  · rcases exec_target h.strict.sound.pids hi with ⟨rfl, -⟩ | ⟨-, -, hpid, he⟩
    · exact absurd hi ht
    · rw [he]
      exact killOther_parked h.parked h.strict.distinct rfl
        (h.strict.quiet.unawaited (by omega))

theorem tame_disciplined (h : σ.Disciplined) {l : Label} {r : Sys × Bool} (hg : σ.guard l)
    (hok : σ.Runs l σ.Tame) (hr : σ.main l = some r) : r.1.Disciplined := by
  have hmain : l ≠ .ctrlC → r.1.Disciplined := by
    intro hl
    refine main_disciplined h hg (fun op hop => (hok op hop).orderly ?_) hr
    rintro rfl
    cases l with
    | call op rsp =>
        obtain rfl : op = .killForeground := Option.some.inj hop
        cases hg.2
    | resume rsp =>
        simp only [opOf] at hop
        split at hop <;> cases hop
    | ctrlC => exact hl rfl
    | _ => cases hop
  cases l with
  | ctrlC =>
      obtain rfl := Option.some.inj hr
      exact ctrlC_disciplined h (hok _ rfl)
  | _ => exact hmain (by rintro ⟨⟩)

theorem Disciplined.steady (h : σ.Disciplined) : Steady σ.kernel σ.park :=
  ⟨h.strict.sound.pids, h.strict.ranked, h.parked⟩

/-- What tame and gentle steps keep: the ends of the pipes are accounted for, and
a process inside a call on a pipe holds an end of it and sleeps, if it does, on
the semaphore of its side. -/
structure Grounded (σ : Sys) : Prop where
  disciplined : σ.Disciplined
  accounted : σ.kernel.Accounted
  holding : ∀ j q w, (σ.kernel.life j).state ≠ .dead → (σ.cont j).Inside q w →
    (∃ fd, (σ.kernel.proc j).fds fd = descriptor q w) ∧
      ∀ i, σ.park j = some i → σ.kernel.wiring.sem q w = (i.val : Int)

/-- Only `scheduler_create` fills a free slot, and a free slot is inside no call. -/
theorem alive_or_user (hs : Sound σ.kernel) {op : Op}
    (hfree : ∀ name pr fg stack, op = .create name pr fg stack →
      ∀ j, (σ.kernel.life j).state = .dead → σ.cont j = .user) {j : Slot}
    (hlive : ((σ.kernel.exec op).life j).state ≠ .dead) :
    (σ.kernel.life j).state ≠ .dead ∨ σ.cont j = .user := by
  by_cases hdead : (σ.kernel.life j).state = .dead
  · right
    rcases (σ.kernel.exec_lifeStep hs.ordered op j).dead hs.pids with
      hiff | ⟨hd, -⟩ | ⟨hd, -⟩ | ⟨-, name, pr, fg, stack, he⟩
    · exact absurd (hiff.mpr hdead) hlive
    · exact absurd hd hlive
    · exact absurd hd hlive
    · exact hfree name pr fg stack he j hdead
  · exact .inl hdead

namespace Grounded

theorem active (h : σ.Grounded) {j : Slot} {q : Fin maxPipes} {w : Bool}
    (hlive : (σ.kernel.life j).state ≠ .dead) (hin : (σ.cont j).Inside q w) :
    (σ.kernel.pipeTable q).active = true := by
  obtain ⟨⟨fd, hfd⟩, -⟩ := h.holding j q w hlive hin
  have hname : σ.kernel.naming (j, fd) = some (q, w) :=
    (naming_of_alive hlive fd).trans (endOf_eq_some.mpr hfd)
  exact h.accounted.balanced.named q w (Ends.names_pos hname)

/-- A process that stays inside its call keeps what it holds. -/
theorem stay (h : σ.Grounded) {op : Op} (ht : σ.Tame op) (hgen : σ.Gentle op) {j : Slot}
    {q : Fin maxPipes} {w : Bool} (hlive : (σ.kernel.life j).state ≠ .dead)
    (hin : (σ.cont j).Inside q w) (hend : σ.kernel.target op ≠ some j) :
    (∃ fd, ((σ.kernel.exec op).proc j).fds fd = descriptor q w) ∧
      (σ.kernel.exec op).wiring.sem q = σ.kernel.wiring.sem q := by
  obtain ⟨⟨fd, hfd⟩, -⟩ := h.holding j q w hlive hin
  refine ⟨⟨fd, ?_⟩, exec_sem _ op (h.active hlive hin)⟩
  refine exec_keeps_end h.disciplined.strict.sound ht.noWait hlive hend hfd ?_
  rintro pid pipeId v rfl hj
  exact hgen j hj q w hin fd rfl hfd

/-- **A piece of kernel code, after which the current process is elsewhere.** -/
theorem act (h : σ.Grounded) {op : Op} {c : Cont} (ht : σ.Tame op) (hgen : σ.Gentle op)
    (htick : ∀ rsp, op ≠ .tick rsp)
    (hfree : ∀ name pr fg stack, op = .create name pr fg stack →
      ∀ j, (σ.kernel.life j).state = .dead → σ.cont j = .user)
    (hd : ((σ.exec op).goto c).Disciplined)
    (hc : ∀ q w, c.Inside q w → (∃ fd, ((σ.kernel.exec op).proc σ.cur).fds fd = descriptor q w) ∧
      ∀ i, c.park = some i → (σ.kernel.exec op).wiring.sem q w = (i.val : Int)) :
    ((σ.exec op).goto c).Grounded := by
  have hs := h.disciplined.strict.sound
  refine ⟨hd, ?_, fun j q w hlive hin => ?_⟩
  · refine exec_accounted hs h.accounted ?_ ?_
    · cases op with
      | pipeClose pipeId w => exact ht
      | _ => exact trivial
    · cases op with
      | wait pid => exact absurd rfl (ht.noWait pid)
      | _ => exact trivial
  · rw [goto_cont, σ.exec_cur htick] at hin
    rw [goto_park, σ.exec_cur htick]
    by_cases hj : j = σ.cur
    · subst hj
      rw [Function.update_self] at hin ⊢
      exact hc q w hin
    · rw [Function.update_of_ne hj] at hin ⊢
      have hin' : (σ.cont j).Inside q w := hin
      have hlive' : ((σ.kernel.exec op).life j).state ≠ .dead := hlive
      -- the process was there before, and is not the one that ends
      have hold : (σ.kernel.life j).state ≠ .dead := by
        refine (alive_or_user hs hfree hlive).resolve_right fun huser => ?_
        rw [huser] at hin'
        exact hin'
      have hend : σ.kernel.target op ≠ some j := fun he => hlive' (exec_target_dead hs he hj)
      obtain ⟨hfd, hsem⟩ := h.stay ht hgen hold hin' hend
      refine ⟨hfd, fun i hi => ?_⟩
      show (σ.kernel.exec op).wiring.sem q w = _
      rw [hsem]
      exact (h.holding j q w hold hin').2 i hi

theorem vacate (h : σ.Grounded) : σ.vacate.Grounded := by
  refine ⟨h.disciplined.vacate, h.accounted, fun j q w hlive hin => ?_⟩
  have hc : σ.vacate.cont j = σ.cont j := if_neg hlive
  have hp : σ.vacate.park j = σ.park j := congrArg Cont.park hc
  rw [hc] at hin
  rw [hp]
  exact h.holding j q w hlive hin

theorem record (h : σ.Grounded) (es : List Event) : (σ.record es).Grounded :=
  ⟨h.disciplined.record es, h.accounted, h.holding⟩

/-- The current process goes into a call, or out of one. -/
theorem goto (h : σ.Grounded) {c : Cont} (hd : (σ.goto c).Disciplined)
    (hc : ∀ q w, c.Inside q w → (∃ fd, (σ.kernel.proc σ.cur).fds fd = descriptor q w) ∧
      c.park = none) : (σ.goto c).Grounded := by
  refine ⟨hd, h.accounted, fun j q w hlive hin => ?_⟩
  rw [goto_cont] at hin
  rw [goto_park]
  by_cases hj : j = σ.cur
  · subst hj
    rw [Function.update_self] at hin ⊢
    obtain ⟨hfd, hnone⟩ := hc q w hin
    refine ⟨hfd, fun i hi => ?_⟩
    rw [hnone] at hi
    cases hi
  · rw [Function.update_of_ne hj] at hin ⊢
    exact h.holding j q w hlive hin

theorem tick (h : σ.Grounded) (rsp : Nat) : (σ.exec (.tick rsp)).Grounded := by
  have hs := h.disciplined.strict.sound
  have hplain : (Op.tick rsp).Plain := trivial
  have hacc : (σ.kernel.exec (.tick rsp)).Accounted := by
    apply exec_accounted hs h.accounted
    · exact trivial
    · exact trivial
  refine ⟨h.disciplined.tick rsp, hacc, fun j q w hlive hin => ?_⟩
  have hold : (σ.kernel.life j).state ≠ .dead := fun hdead =>
    hlive ((exec_dead hs hplain j).mpr hdead)
  obtain ⟨⟨fd, hfd⟩, hsem⟩ := h.holding j q w hold hin
  refine ⟨⟨fd, ?_⟩, hsem⟩
  show ((σ.kernel.exec (.tick rsp)).proc j).fds fd = _
  rw [exec_fds hplain]
  exact hfd

theorem arrive (h : σ.Grounded) (hrun : (σ.kernel.life σ.cur).state = .running) :
    σ.arrive.Grounded := by
  have hd := h.disciplined.arrive hrun
  rcases σ.arrive_cases with ⟨i, -, he⟩ | ⟨-, he⟩
  · rw [he] at hd ⊢
    exact (h.goto (c := .user) ⟨hd.strict, hd.parked⟩ fun q w hin => absurd hin id).record _
  · rw [he]
    exact h

end Grounded

/-! ### The steps of a call -/

/-- What one more round of a call on a pipe does: it runs one step of the pipe,
and then the process is in user mode, or still inside the call and parked, if at
all, on the semaphore of its side. -/
structure Round (σ σ' : Sys) (q : Fin maxPipes) (v : Bool) (op : Op) : Prop where
  inside : (σ.cont σ.cur).Inside q v
  side : (op = .pipeRead q ∧ v = false) ∨ ∃ b, op = .pipeWrite q b ∧ v = true
  next : ∃ c es, σ' = ((σ.exec op).goto c).record es ∧
    (c = .user ∨ c.Inside q v ∧ ∀ i, c.park = some i → σ.kernel.wiring.sem q v = (i.val : Int))

namespace Round

variable {σ' : Sys} {q : Fin maxPipes} {v : Bool} {op : Op}

theorem not_tick (h : Round σ σ' q v op) (rsp : Nat) : op ≠ .tick rsp := by
  rcases h.side with ⟨rfl, -⟩ | ⟨b, rfl, -⟩ <;> rintro ⟨⟩

theorem not_create (h : Round σ σ' q v op) {P : Prop} (name : List UInt8) (pr fg : Int)
    (stack : Nat) (he : op = .create name pr fg stack) : P := by
  rcases h.side with ⟨rfl, -⟩ | ⟨b, rfl, -⟩ <;> cases he

theorem no_target (h : Round σ σ' q v op) (j : Slot) : σ.kernel.target op ≠ some j := by
  rcases h.side with ⟨rfl, -⟩ | ⟨b, rfl, -⟩ <;> rintro ⟨⟩

end Round

theorem resume_round (hr : (σ.cont σ.cur).Resumes) (hwait : ∀ pid, σ.cont σ.cur ≠ .wait pid)
    (rsp : Nat) : ∃ q v op, σ.opOf (.resume rsp) = some op ∧ Round σ σ.resume.1 q v op := by
  rcases hc : σ.cont σ.cur with - | i | pid | ⟨q, count, got, a⟩ | ⟨q, buf, m, a⟩
  · rw [hc] at hr
    cases hr
  · rw [hc] at hr
    cases hr
  · exact absurd hc (hwait pid)
  · refine ⟨q, false, .pipeRead q, by simp only [opOf, hc], by rw [hc]; exact ⟨rfl, rfl⟩,
      .inl ⟨rfl, rfl⟩, ?_⟩
    have hin : ∀ {got' : Nat} {a' : Option (Fin maxSemaphores)},
        (∀ i, a' = some i → σ.kernel.pipeSemData q = (i.val : Int)) →
        (Cont.read q count got' a').Inside q false ∧ ∀ i, (Cont.read q count got' a').park = some i →
          σ.kernel.wiring.sem q false = (i.val : Int) := fun ha => ⟨⟨rfl, rfl⟩, ha⟩
    simp only [resume, hc, readStep]
    split
    · split
      · exact ⟨_, _, rfl, .inr (hin fun i hi => by cases hi)⟩
      · exact ⟨_, _, rfl, .inl rfl⟩
    · exact ⟨_, _, rfl, .inl rfl⟩
    · exact ⟨_, [], rfl, .inr (hin fun i hi => index?_eq_some hi)⟩
    · exact ⟨_, [], rfl, .inr (hin fun i hi => by cases hi)⟩
    · exact ⟨_, _, rfl, .inl rfl⟩
  · refine ⟨q, true, .pipeWrite q (buf.getD m 0), by simp only [opOf, hc],
      by rw [hc]; exact ⟨rfl, rfl⟩, .inr ⟨_, rfl, rfl⟩, ?_⟩
    have hin : ∀ {m' : Nat} {a' : Option (Fin maxSemaphores)},
        (∀ i, a' = some i → σ.kernel.pipeSemSpace q = (i.val : Int)) →
        (Cont.write q buf m' a').Inside q true ∧ ∀ i, (Cont.write q buf m' a').park = some i →
          σ.kernel.wiring.sem q true = (i.val : Int) := fun ha => ⟨⟨rfl, rfl⟩, ha⟩
    simp only [resume, hc, writeStep]
    split
    · split
      · exact ⟨_, _, rfl, .inr (hin fun i hi => by cases hi)⟩
      · exact ⟨_, _, rfl, .inl rfl⟩
    · exact ⟨_, [], rfl, .inr (hin fun i hi => index?_eq_some hi)⟩
    · exact ⟨_, [], rfl, .inr (hin fun i hi => by cases hi)⟩
    · exact ⟨_, _, rfl, .inl rfl⟩
    · exact ⟨_, _, rfl, .inl rfl⟩

/-- What the main part of a tame step can do. -/
inductive MainCases (σ : Sys) (l : Label) : Sys → Prop
  | calls {op : Op} (es : List Event) (ho : σ.opOf l = some op) (hu : σ.InUser)
      (hnow : op.AtOnce = true) : MainCases σ l ((σ.vacate.exec op).record es)
  | waits {semId : Int} {c : Cont} (ho : σ.opOf l = some (.semWait semId)) (hu : σ.InUser)
      (hc : c = .user ∨ ∃ i : Fin maxSemaphores, semId = (i.val : Int) ∧ c = .semWait i) :
      MainCases σ l ((σ.exec (.semWait semId)).goto c)
  | starts {c : Cont} (hu : σ.InUser)
      (hc : c = .user ∨ ∃ q v, c.Inside q v ∧ c.park = none ∧
        ∃ fd, (σ.kernel.proc σ.cur).fds fd = descriptor q v) : MainCases σ l (σ.goto c)
  | rounds {σ' : Sys} {q : Fin maxPipes} {v : Bool} {op : Op} (ho : σ.opOf l = some op)
      (h0 : σ.cur ≠ 0) (hr : (σ.cont σ.cur).Resumes)
      (hs : (σ.cont σ.cur).Halts → (σ.kernel.proc σ.cur).state ≠ .blocked)
      (h : Round σ σ' q v op) : MainCases σ l σ'
  | interrupts (ho : σ.opOf l = some .killForeground) : MainCases σ l (σ.exec .killForeground)

theorem goto_self (σ : Sys) : σ.goto (σ.cont σ.cur) = σ := by
  unfold goto
  rw [Function.update_eq_self]

theorem MainCases.refused (hu : σ.InUser) (l : Label) : MainCases σ l σ := by
  have hstay := MainCases.starts (l := l) hu (.inl hu.2)
  rwa [goto_self] at hstay

theorem readStart_cases (hu : σ.InUser) (l : Label) (fd : Fin maxFds) (count : Nat) :
    MainCases σ l (σ.readStart fd count).1 := by
  simp only [readStart]
  split
  · rename_i hd
    split
    · rename_i q hq
      refine .starts hu (.inr ⟨q, false, ⟨rfl, rfl⟩, rfl, fd, ?_⟩)
      exact descriptor_eq (w := false) hd.1 (σ.kernel.validPipe_some hq).2
    · exact .refused hu l
  · exact .refused hu l

theorem writeStart_cases (hu : σ.InUser) (l : Label) (fd : Fin maxFds) (buf : List UInt8) :
    MainCases σ l (σ.writeStart fd buf).1 := by
  simp only [writeStart]
  split
  · rename_i hd
    split
    · rename_i q hq
      refine .starts hu (.inr ⟨q, true, ⟨rfl, rfl⟩, rfl, fd, ?_⟩)
      exact descriptor_eq (w := true) hd.1 (σ.kernel.validPipe_some hq).2
    · exact .refused hu l
  · exact .refused hu l

theorem main_cases {l : Label} {r : Sys × Bool} (hg : σ.guard l) (hok : σ.Runs l σ.Tame)
    (hr : σ.main l = some r) : MainCases σ l r.1 := by
  cases l with
  | call op rsp =>
      obtain rfl := Option.some.inj hr
      exact .calls _ rfl hg.1 hg.2
  | semWait semId rsp =>
      obtain rfl := Option.some.inj hr
      have hstay : MainCases σ (.semWait semId rsp) (σ.exec (.semWait semId)) := by
        have hc := MainCases.waits (l := .semWait semId rsp) rfl hg (.inl hg.2)
        rwa [σ.exec_goto_cont fun _ => by rintro ⟨⟩] at hc
      simp only [semWait]
      split
      · rename_i i hi
        split
        · exact hstay
        · exact .waits rfl hg (.inr ⟨i, (σ.kernel.validSem_some hi).2, rfl⟩)
      · exact hstay
  | wait pid rsp => exact absurd (hok _ rfl) id
  | read fd count rsp =>
      obtain rfl := Option.some.inj hr
      exact readStart_cases hg _ fd count
  | write fd buf rsp =>
      obtain rfl := Option.some.inj hr
      exact writeStart_cases hg _ fd buf
  | resume rsp =>
      obtain rfl := Option.some.inj hr
      have hwait : ∀ pid, σ.cont σ.cur ≠ .wait pid := by
        intro pid hc
        refine hok (.wait pid) ?_
        simp only [opOf, hc]
        rfl
      obtain ⟨q, v, op, ho, hround⟩ := resume_round hg.2.1 hwait rsp
      exact .rounds ho hg.1 hg.2.1 hg.2.2 hround
  | timer rsp => cases hr
  | ctrlC =>
      obtain rfl := Option.some.inj hr
      exact .interrupts rfl

theorem vacate_cont {j : Slot} (hlive : (σ.kernel.life j).state ≠ .dead) :
    σ.vacate.cont j = σ.cont j := if_neg hlive

theorem vacate_cont_of_find {pid : Int} {j : Slot}
    (hj : σ.vacate.kernel.sched.findIndexByPid pid = some j) : σ.vacate.cont j = σ.cont j :=
  vacate_cont (Sched.findIndexByPid_some hj).2

theorem vacate_tame {op : Op} (h : σ.Tame op) : σ.vacate.Tame op := by
  cases op with
  | block pid =>
      intro j hj
      rw [vacate_cont_of_find hj]
      exact h j hj
  | _ => exact h

theorem vacate_gentle {op : Op} (h : σ.Gentle op) : σ.vacate.Gentle op := by
  cases op with
  | pipeSetFd pid fd pipeId w =>
      intro j hj
      rw [vacate_cont_of_find hj]
      exact h j hj
  | _ => exact h

theorem vacate_inUser (hu : σ.InUser) : σ.vacate.InUser := by
  refine ⟨hu.1, ?_⟩
  show (if _ then _ else _) = _
  split
  · rfl
  · exact hu.2

/-- The calls that run to their end are not the timer. -/
theorem AtOnce.not_tick {op : Op} (h : op.AtOnce = true) (rsp : Nat) : op ≠ .tick rsp := by
  rintro rfl
  cases h

/-- A call that runs to its end leaves its process in user mode. -/
theorem vacate_exec_goto (hu : σ.InUser) {op : Op} (hnow : op.AtOnce = true) :
    (σ.vacate.exec op).goto .user = σ.vacate.exec op := by
  have hgoto := σ.vacate.exec_goto_cont (AtOnce.not_tick hnow)
  rwa [(vacate_inUser hu).2] at hgoto

/-- **Tame and gentle steps keep the ground.** -/
theorem main_grounded (h : σ.Grounded) {l : Label} {r : Sys × Bool} (hg : σ.guard l)
    (hok : σ.Runs l σ.Tame) (hgen : σ.Runs l σ.Gentle) (hr : σ.main l = some r) :
    r.1.Grounded := by
  have hd := tame_disciplined h.disciplined hg hok hr
  have hcases := main_cases hg hok hr
  generalize r.1 = σ' at hd hcases
  cases hcases with
  | calls es ho hu hnow =>
      have hd' : (σ.vacate.exec _).Disciplined := ⟨hd.strict, hd.parked⟩
      rw [← vacate_exec_goto hu hnow] at hd' ⊢
      refine (h.vacate.act (vacate_tame (hok _ ho)) (vacate_gentle (hgen _ ho))
        (AtOnce.not_tick hnow) (fun _ _ _ _ _ j hj => if_pos hj) hd' fun q w hin => ?_).record es
      exact absurd hin id
  | waits ho hu hc =>
      refine h.act (hok _ ho) (hgen _ ho) (fun _ => by rintro ⟨⟩) (fun _ _ _ _ e => by cases e) hd
        fun q w hin => ?_
      rcases hc with rfl | ⟨i, -, rfl⟩
      · exact absurd hin id
      · exact absurd hin id
  | starts hu hc =>
      refine h.goto hd fun q w hin => ?_
      rcases hc with rfl | ⟨q', v, hin', hpark, hfd⟩
      · exact absurd hin id
      · obtain ⟨rfl, rfl⟩ := hin.unique hin'
        exact ⟨hfd, hpark⟩
  | rounds ho h0 hr hs hround =>
      obtain ⟨c, es, rfl, hc⟩ := hround.next
      have hlive := h.disciplined.strict.sound.pids.current
      have hd' : ((σ.exec _).goto c).Disciplined := ⟨hd.strict, hd.parked⟩
      refine (h.act (hok _ ho) (hgen _ ho) hround.not_tick hround.not_create hd'
        fun q' w hin => ?_).record es
      rcases hc with rfl | ⟨hin', hpark⟩
      · exact absurd hin id
      · obtain ⟨rfl, rfl⟩ := hin.unique hin'
        obtain ⟨hfd, hsem⟩ := h.stay (hok _ ho) (hgen _ ho) hlive hround.inside
          (hround.no_target _)
        refine ⟨hfd, fun i hi => ?_⟩
        rw [hsem]
        exact hpark i hi
  | interrupts ho =>
      have ht := hok _ ho
      have hlive := h.disciplined.strict.sound.pids.current
      have htick : ∀ rsp, Op.killForeground ≠ .tick rsp := fun _ => by rintro ⟨⟩
      rw [← σ.exec_goto_cont htick] at hd ⊢
      refine h.act ht (hgen _ ho) htick (fun _ _ _ _ e => by cases e) hd
        fun q w hin => ?_
      obtain ⟨hfd, hsem⟩ := h.stay ht (hgen _ ho) hlive hin ht
      refine ⟨hfd, fun i hi => ?_⟩
      rw [hsem]
      exact (h.holding _ q w hlive hin).2 i hi

/-! ### One pipe under watch -/

/-- Every unit of the pipe is answered for, and `sem_wait` is called on neither of
its semaphores. -/
structure Attended (σ : Sys) (p : Fin maxPipes) (n : Bool → Fin maxSemaphores) : Prop where
  answered : σ.kernel.Answered p n σ.park fun _ => 0
  sparing : ∀ j w, (σ.kernel.life j).state ≠ .dead → σ.cont j ≠ .semWait (n w)

namespace Attended

/-- A process parked on a semaphore of the pipe is inside a call on the pipe. -/
theorem inside (h : σ.Attended p n) (hg : σ.Grounded) (ho : σ.kernel.SoleOwner p n) {j : Slot}
    {w : Bool} (hlive : (σ.kernel.life j).state ≠ .dead) (hpark : σ.park j = some (n w)) :
    (σ.cont j).Inside p w := by
  have key : ∀ q v, (σ.cont j).Inside q v → (σ.cont j).Inside p w := by
    intro q v hin
    have hsem := (hg.holding j q v hlive hin).2 _ hpark
    by_cases hq : q = p
    · subst hq
      have hv : v = w := by
        by_contra hne
        rw [Bool.eq_not_of_ne (Ne.symm hne)] at hsem
        exact ho.sem_ne v hsem
      rwa [← hv]
    · exact absurd hsem (ho.alone q v w hq (hg.active hlive hin))
  rcases hc : σ.cont j with - | i | pid | ⟨q, count, got, a⟩ | ⟨q, buf, m, a⟩
  · unfold Sys.park at hpark
    rw [hc] at hpark
    cases hpark
  · unfold Sys.park at hpark
    rw [hc] at hpark
    cases hpark
    exact absurd hc (h.sparing j w hlive)
  · unfold Sys.park at hpark
    rw [hc] at hpark
    cases hpark
  · rw [← hc]
    apply key q false
    rw [hc]
    exact ⟨rfl, rfl⟩
  · rw [← hc]
    apply key q true
    rw [hc]
    exact ⟨rfl, rfl⟩

theorem held (h : σ.Attended p n) (hg : σ.Grounded) (ho : σ.kernel.SoleOwner p n) (j : Slot)
    (w : Bool) (hlive : (σ.kernel.life j).state ≠ .dead) (hpark : σ.park j = some (n w)) :
    ∃ fd, (σ.kernel.proc j).fds fd = descriptor p w :=
  (hg.holding j p w hlive (h.inside hg ho hlive hpark)).1

/-- A piece of kernel code brings nobody into `sem_wait`. -/
theorem sparing_exec (h : σ.Attended p n) (hs : Sound σ.kernel) {op : Op} {c : Cont}
    (htick : ∀ rsp, op ≠ .tick rsp)
    (hfree : ∀ name pr fg stack, op = .create name pr fg stack →
      ∀ j, (σ.kernel.life j).state = .dead → σ.cont j = .user)
    (hc : ∀ w, c ≠ .semWait (n w)) (j : Slot) (w : Bool)
    (hlive : ((σ.kernel.exec op).life j).state ≠ .dead) :
    ((σ.exec op).goto c).cont j ≠ .semWait (n w) := by
  rw [goto_cont, σ.exec_cur htick]
  by_cases he : j = σ.cur
  · subst he
    rw [Function.update_self]
    exact hc w
  · rw [Function.update_of_ne he, exec_cont]
    rcases alive_or_user hs hfree hlive with hold | huser
    · exact h.sparing j w hold
    · rw [huser]
      rintro ⟨⟩

/-- **A piece of kernel code, after which the current process is elsewhere.** -/
theorem act (h : σ.Attended p n) (hg : σ.Grounded) (ho : σ.kernel.SoleOwner p n) {op : Op} {c : Cont}
    (ht : σ.Tame op) (htick : ∀ rsp, op ≠ .tick rsp) (hsp : op.Spares n)
    (hfree : ∀ name pr fg stack, op = .create name pr fg stack →
      ∀ j, (σ.kernel.life j).state = .dead → σ.cont j = .user)
    (hd : ((σ.exec op).goto c).Disciplined) (ho' : (σ.kernel.exec op).SoleOwner p n)
    (hstreams : ∀ q, (op = .pipeRead q ∨ ∃ b, op = .pipeWrite q b) →
      q ≠ p ∧ (σ.kernel.pipeTable q).active = true)
    (hown : σ.kernel.Parks op ∨ σ.kernel.target op = some σ.cur → ∀ w, σ.park σ.cur ≠ some (n w))
    (hpark : ∀ w, σ.park σ.cur = some (n w) → c.park = some (n w)) (hc : ∀ w, c ≠ .semWait (n w)) :
    ((σ.exec op).goto c).Attended p n := by
  have hs := hg.disciplined.strict.sound
  refine ⟨?_, fun j w hlive => ?_⟩
  · have hop : Harmless σ.kernel p n σ.park op := by
      refine ⟨hsp, ht.noWait, ?_, hown, hstreams⟩
      rintro pid j w rfl hj hpark'
      refine ht j hj p w (h.inside hg ho ?_ hpark')
      exact (Sched.findIndexByPid_some hj).2
    refine exec_answered h.answered hg.disciplined.strict ho hg.accounted hop (h.held hg ho)
      ho'.active hd.steady fun j w hj _ => ?_
    rw [goto_park, σ.exec_cur htick]
    by_cases he : j = σ.cur
    · subst he
      rw [Function.update_self]
      exact hpark w hj
    · rw [Function.update_of_ne he]
      exact hj
  · exact h.sparing_exec hs htick hfree hc j w hlive

theorem vacate (h : σ.Attended p n) (hg : σ.Grounded) : σ.vacate.Attended p n := by
  refine ⟨?_, fun j w hlive => ?_⟩
  · apply h.answered.frame hg.vacate.disciplined.steady
    · exact fun _ => rfl
    · exact fun _ => rfl
    · rfl
    · exact fun _ => le_rfl
    · intro j w hpark hawake
      exact ⟨(congrArg Cont.park (vacate_cont hawake.ne_dead)).trans hpark, hawake⟩
  · have hc : σ.vacate.cont j = σ.cont j := if_neg hlive
    rw [hc]
    exact h.sparing j w hlive

theorem record (h : σ.Attended p n) (es : List Event) : (σ.record es).Attended p n :=
  ⟨h.answered, h.sparing⟩

/-- A process that is not parked on the pipe goes elsewhere. -/
theorem goto (h : σ.Attended p n) {c : Cont} (hd : (σ.goto c).Disciplined)
    (hcur : ∀ w, σ.park σ.cur ≠ some (n w)) (hc : ∀ w, c ≠ .semWait (n w)) :
    (σ.goto c).Attended p n := by
  refine ⟨?_, fun j w hlive => ?_⟩
  · apply h.answered.frame hd.steady
    · exact fun _ => rfl
    · exact fun _ => rfl
    · rfl
    · exact fun _ => le_rfl
    · intro j w hpark hawake
      refine ⟨?_, hawake⟩
      have hj : j ≠ σ.cur := by
        rintro rfl
        exact hcur w hpark
      rw [goto_park, Function.update_of_ne hj]
      exact hpark
  · rw [goto_cont]
    by_cases hj : j = σ.cur
    · subst hj
      rw [Function.update_self]
      exact hc w
    · rw [Function.update_of_ne hj]
      exact h.sparing j w hlive

theorem tick (h : σ.Attended p n) (hg : σ.Grounded) (ho : σ.kernel.SoleOwner p n) (rsp : Nat) :
    (σ.exec (.tick rsp)).Attended p n := by
  have hs := hg.disciplined.strict
  refine ⟨?_, fun j w hlive => h.sparing j w fun hdead => ?_⟩
  · have hop : Harmless σ.kernel p n σ.park (.tick rsp) := by
      refine ⟨trivial, ?_, ?_, ?_, ?_⟩
      · rintro pid ⟨⟩
      · rintro pid j w ⟨⟩
      · rintro (hp | ht)
        · cases hp
        · cases ht
      · rintro q (he | ⟨b, he⟩) <;> cases he
    exact exec_answered h.answered hs ho hg.accounted hop (h.held hg ho) ho.active
      (hg.tick rsp).disciplined.steady fun j w hj _ => hj
  · have hplain : (Op.tick rsp).Plain := trivial
    exact hlive ((exec_dead hs.sound hplain j).mpr hdead)

theorem arrive (h : σ.Attended p n) (hg : σ.Grounded)
    (hrun : (σ.kernel.life σ.cur).state = .running) : σ.arrive.Attended p n := by
  have hd := (hg.arrive hrun).disciplined
  rcases σ.arrive_cases with ⟨i, hi, he⟩ | ⟨-, he⟩
  · rw [he] at hd ⊢
    have hlive : (σ.kernel.life σ.cur).state ≠ .dead := by
      rw [hrun]
      rintro ⟨⟩
    refine (h.goto (c := .user) ⟨hd.strict, hd.parked⟩ ?_ ?_).record _
    · intro w hpark
      unfold Sys.park at hpark
      rw [hi] at hpark
      cases hpark
      exact h.sparing _ w hlive hi
    · rintro w ⟨⟩
  · rw [he]
    exact h

end Attended

/-- A process that takes a step of the pipe is in no queue. -/
theorem not_waiting_of_resumes (h : σ.Disciplined)
    (hs : (σ.cont σ.cur).Halts → (σ.kernel.proc σ.cur).state ≠ .blocked)
    {q : Fin maxPipes} {v : Bool} (hin : (σ.cont σ.cur).Inside q v) :
    ¬ σ.kernel.Waiting σ.kernel.sched.schedulerGetpid := by
  rw [getpid_eq]
  by_cases hhalt : (σ.cont σ.cur).Halts
  · exact h.parked.not_waiting_of_state h.strict.distinct (hs hhalt)
  · apply h.parked.not_waiting h.strict.distinct
    show (σ.cont σ.cur).park = none
    rcases hc : σ.cont σ.cur with - | i | pid | ⟨q', count, got, a⟩ | ⟨q', buf, m, a⟩
    · rfl
    · rw [hc] at hin
      cases hin
    · rfl
    · rw [hc] at hhalt
      exact Option.not_isSome_iff_eq_none.mp hhalt
    · rw [hc] at hhalt
      exact Option.not_isSome_iff_eq_none.mp hhalt

/-- The ground, and the watch as long as the pipe has its semaphores for itself. -/
structure Guarded (σ : Sys) (p : Fin maxPipes) (n : Bool → Fin maxSemaphores) : Prop where
  grounded : σ.Grounded
  attended : σ.kernel.SoleOwner p n → σ.Attended p n

/-- **A round of a call keeps the watch**: one on the pipe is a step of the pipe, one
on another pipe touches neither its bytes nor its semaphores. -/
theorem Round.attended {σ' : Sys} {q : Fin maxPipes} {v : Bool} {op : Op}
    (hround : Round σ σ' q v op) (h : σ.Attended p n) (hg : σ.Grounded)
    (ho : σ.kernel.SoleOwner p n) (ht : σ.Tame op) (h0 : σ.cur ≠ 0)
    (hs : (σ.cont σ.cur).Halts → (σ.kernel.proc σ.cur).state ≠ .blocked)
    (hd : σ'.Disciplined) (ho' : σ'.kernel.SoleOwner p n) : σ'.Attended p n := by
  obtain ⟨c, es, rfl, hc⟩ := hround.next
  have hlive := hg.disciplined.strict.sound.pids.current
  have hd' : ((σ.exec op).goto c).Disciplined := ⟨hd.strict, hd.parked⟩
  have hcsem : ∀ w, c ≠ .semWait (n w) := by
    rintro w rfl
    rcases hc with he | ⟨hin, -⟩
    · cases he
    · exact hin
  have hfree : ∀ name pr fg stack, op = .create name pr fg stack →
      ∀ j, (σ.kernel.life j).state = .dead → σ.cont j = .user := fun name pr fg stack he =>
    hround.not_create name pr fg stack he
  have hcur : ∀ w, σ.park σ.cur = some (n w) → p = q ∧ w = v := fun w hpark =>
    (h.inside hg ho hlive hpark).unique hround.inside
  refine Attended.record ?_ es
  by_cases hq : p = q
  · subst hq
    have hw := not_waiting_of_resumes hg.disciplined hs hround.inside
    have hother : ∀ j, j ≠ σ.cur → ((σ.exec op).goto c).park j = σ.park j := by
      intro j hj
      rw [goto_park, σ.exec_cur hround.not_tick, Function.update_of_ne hj]
      rfl
    refine ⟨?_, h.sparing_exec hg.disciplined.strict.sound hround.not_tick hfree hcsem⟩
    rcases hround.side with ⟨rfl, rfl⟩ | ⟨b, rfl, rfl⟩
    · exact pipeReadStep_answered h.answered ho h0 hw hd'.steady (fun w hw => (hcur w hw).2) hother
    · exact pipeWriteStep_answered h.answered ho h0 hw b hd'.steady (fun w hw => (hcur w hw).2)
        hother
  · have hnot : ∀ w, σ.park σ.cur ≠ some (n w) := fun w hpark => hq (hcur w hpark).1
    refine h.act hg ho ht hround.not_tick ?_ hfree hd' ho' ?_ (fun _ => hnot)
      (fun w hpark => absurd hpark (hnot w)) hcsem
    · rcases hround.side with ⟨rfl, -⟩ | ⟨b, rfl, -⟩ <;> exact trivial
    · intro q' he
      have hq' : q' = q := by
        rcases hround.side with ⟨rfl, -⟩ | ⟨b, rfl, -⟩ <;> rcases he with he | ⟨b', he⟩ <;>
          cases he <;> rfl
      rw [hq']
      exact ⟨Ne.symm hq, hg.active hlive hround.inside⟩

/-- **Steps that spare the semaphores of the pipe keep the watch.** -/
theorem main_guarded (h : σ.Guarded p n) (ho : σ.kernel.SoleOwner p n) {l : Label} {r : Sys × Bool}
    (hg : σ.guard l) (hok : σ.Runs l σ.Tame) (hgen : σ.Runs l σ.Gentle)
    (hsp : σ.Runs l (Op.Spares n)) (hr : σ.main l = some r) : r.1.Guarded p n := by
  have hground := main_grounded h.grounded hg hok hgen hr
  refine ⟨hground, fun ho' => ?_⟩
  have hatt := h.attended ho
  have hlive := h.grounded.disciplined.strict.sound.pids.current
  have hd := hground.disciplined
  have hcases := main_cases hg hok hr
  generalize r.1 = σ' at hd ho' hcases
  cases hcases with
  | calls es hop hu hnow =>
      have hd' : (σ.vacate.exec _).Disciplined := ⟨hd.strict, hd.parked⟩
      rw [← vacate_exec_goto hu hnow] at hd' ⊢
      have hpark : σ.vacate.park σ.vacate.cur = none := congrArg Cont.park (vacate_inUser hu).2
      refine ((hatt.vacate h.grounded).act h.grounded.vacate ho (vacate_tame (hok _ hop))
        (AtOnce.not_tick hnow) (hsp _ hop) (fun _ _ _ _ _ j hj => if_pos hj) hd' ho' ?_ ?_ ?_
        ?_).record es
      · rintro q (rfl | ⟨b, rfl⟩) <;> cases hnow
      · intro _ w
        rw [hpark]
        rintro ⟨⟩
      · intro w he
        rw [hpark] at he
        cases he
      · rintro w ⟨⟩
  | waits hop hu hc =>
      have hpark : σ.park σ.cur = none := congrArg Cont.park hu.2
      refine hatt.act h.grounded ho (hok _ hop) (fun _ => by rintro ⟨⟩) (hsp _ hop)
        (fun _ _ _ _ e => by cases e) hd ho' ?_ ?_ ?_ ?_
      · rintro q (he | ⟨b, he⟩) <;> cases he
      · intro _ w
        rw [hpark]
        rintro ⟨⟩
      · intro w he
        rw [hpark] at he
        cases he
      · rintro w rfl
        rcases hc with he | ⟨i, hi, he⟩
        · cases he
        · cases he
          exact hsp _ hop w hi
  | starts hu hc =>
      have hpark : σ.park σ.cur = none := congrArg Cont.park hu.2
      refine hatt.goto hd ?_ ?_
      · intro w
        rw [hpark]
        rintro ⟨⟩
      · rintro w rfl
        rcases hc with he | ⟨q, v, hin, -⟩
        · cases he
        · exact hin
  | rounds hop h0 hres hs hround =>
      exact hround.attended hatt h.grounded ho (hok _ hop) h0 hs hd ho'
  | interrupts hop =>
      have htick : ∀ rsp, Op.killForeground ≠ .tick rsp := fun _ => by rintro ⟨⟩
      rw [← σ.exec_goto_cont htick] at hd ⊢
      refine hatt.act h.grounded ho (hok _ hop) htick trivial (fun _ _ _ _ e => by cases e) hd ho'
        ?_ ?_ (fun _ hw => hw) (fun w => hatt.sparing _ w hlive)
      · rintro q (he | ⟨b, he⟩) <;> cases he
      · rintro (hp | ht)
        · cases hp
        · exact absurd ht (hok _ hop)

theorem step_guarded (h : σ.Guarded p n) (ho : σ.kernel.SoleOwner p n) {l : Label} (hg : σ.guard l)
    (hok : σ.Runs l σ.Tame) (hgen : σ.Runs l σ.Gentle) (hsp : σ.Runs l (Op.Spares n)) :
    (σ.step l).Guarded p n := by
  refine step_invariant (I := fun σ => σ.Guarded p n) h
    (fun r hr => main_guarded h ho hg hok hgen hsp hr) ?_ ?_
  · intro σ rsp hσ
    refine ⟨hσ.grounded.tick rsp, fun ho' => ?_⟩
    have ho : σ.kernel.SoleOwner p n := ho'.of_wiring rfl
    exact (hσ.attended ho).tick hσ.grounded ho rsp
  · intro σ hσ hrun
    refine ⟨hσ.grounded.arrive hrun, fun ho' => ?_⟩
    rw [arrive_kernel] at ho'
    exact (hσ.attended ho').arrive hσ.grounded hrun

/-! ### Whole runs -/

theorem init_grounded (idleStack stack : Nat) : (init idleStack stack).Grounded := by
  refine ⟨init_disciplined idleStack stack, ?_, fun j q w _ hin => absurd hin id⟩
  show Accounted (boot idleStack stack)
  unfold boot
  apply exec_accounted (init_sound idleStack) (init_accounted idleStack)
  · exact trivial
  · exact trivial

theorem reach_grounded {idleStack stack : Nat}
    (h : (machine.restrict fun σ l => σ.Runs l σ.Tame ∧ σ.Runs l σ.Gentle).Reach
      (init idleStack stack) σ) : σ.Grounded := by
  refine h.invariant (I := Grounded) (init_grounded idleStack stack) ?_
  rintro σ l σ' hσ ⟨hg, hok, hgen⟩ ⟨⟩
  exact step_invariant (I := Grounded) hσ (fun r hr => main_grounded hσ hg hok hgen hr)
    (fun _ rsp h => h.tick rsp) fun _ h hrun => h.arrive hrun

/-- The pipe has just been opened, and nobody is inside `sem_wait` on one of its
semaphores. -/
@[mk_iff]
structure Opened (σ : Sys) (p : Fin maxPipes) (n : Bool → Fin maxSemaphores) : Prop where
  fresh : FreshPipe σ.kernel p n
  sparing : ∀ j w, (σ.kernel.life j).state ≠ .dead → σ.cont j ≠ .semWait (n w)

instance (σ : Sys) (p : Fin maxPipes) (n : Bool → Fin maxSemaphores) : Decidable (σ.Opened p n) :=
  decidable_of_iff _ (opened_iff σ p n).symm

theorem Opened.guarded (h : σ.Opened p n) (hg : σ.Grounded) : σ.Guarded p n := by
  refine ⟨hg, fun _ => ⟨⟨hg.disciplined.steady, fun w => ?_, fun w hne => ?_⟩, h.sparing⟩⟩
  · obtain ⟨-, hvalue, hnil, -⟩ := h.fresh.fresh w
    exact .of_nil hnil hvalue.ge
  · exact absurd (h.fresh.fresh w).2.2.1 hne

/-- The pipe has its semaphores for itself, and the step keeps away from them and
from the processes that wait. -/
def Keeps (p : Fin maxPipes) (n : Bool → Fin maxSemaphores) (σ : Sys) (l : Label) : Prop :=
  σ.kernel.SoleOwner p n ∧ σ.Runs l σ.Tame ∧ σ.Runs l (Op.Spares n)

instance (p : Fin maxPipes) (n : Bool → Fin maxSemaphores) (σ : Sys) (l : Label) :
    Decidable (Keeps p n σ l) := inferInstanceAs (Decidable (_ ∧ _ ∧ _))

theorem reach_guarded {σ₀ : Sys} (h₀ : σ₀.Guarded p n)
    (h : (machine.restrict fun σ l => Keeps p n σ l ∧ σ.Runs l σ.Gentle).Reach σ₀ σ) :
    σ.Guarded p n := by
  refine h.invariant (I := fun σ => σ.Guarded p n) h₀ ?_
  rintro σ l σ' hσ ⟨hg, ⟨ho, hok, hsp⟩, hgen⟩ ⟨⟩
  exact step_guarded hσ ho hg hok hgen hsp

/-- The process is `BLOCKED` in the queue of the semaphore. -/
def Asleep (σ : Sys) (i : Fin maxSemaphores) : Prop :=
  ∃ j, (σ.kernel.proc j).state = .blocked ∧
    ∃ w ∈ (σ.kernel.semTable i).waiting, w.1 = (σ.kernel.proc j).pid

instance (σ : Sys) (i : Fin maxSemaphores) : Decidable (σ.Asleep i) :=
  inferInstanceAs (Decidable (∃ _, _ ∧ _))

/-- A process that slept in the queue of the semaphore, on that side of the pipe, can
run again and has not looked at the pipe since. -/
def Woken (σ : Sys) (p : Fin maxPipes) (w : Bool) (i : Fin maxSemaphores) : Prop :=
  ∃ j, (σ.kernel.life j).Awake ∧ (σ.cont j).Inside p w ∧ σ.park j = some i

instance (σ : Sys) (p : Fin maxPipes) (w : Bool) (i : Fin maxSemaphores) :
    Decidable (σ.Woken p w i) := inferInstanceAs (Decidable (∃ _, _ ∧ _ ∧ _))

theorem Guarded.woken (h : σ.Guarded p n) (ho : σ.kernel.SoleOwner p n) {w : Bool}
    (hb : σ.Asleep (n w))
    (hunits : 0 < (σ.kernel.pipeTable p).avail w ∨ σ.kernel.ends.held p (!w) = 0) :
    σ.Woken p w (n w) := by
  have hatt := h.attended ho
  obtain ⟨-, -, e, he, -⟩ := hb
  obtain ⟨hpos, hle⟩ := hatt.answered.lively w (List.ne_nil_of_mem he)
  have havail : 0 < (σ.kernel.pipeTable p).avail w := hunits.resolve_right (by omega)
  have hroused : 0 < σ.kernel.roused σ.park (n w) := by omega
  obtain ⟨j, hawake, hpark⟩ := exists_of_roused_pos hroused
  exact ⟨j, hawake, hatt.inside h.grounded ho hawake.ne_dead hpark, hpark⟩

end Sys

end TP2Kernel
