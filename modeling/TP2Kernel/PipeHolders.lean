/-
TP2Kernel/PipeHolders.lean

Which ends a piece of kernel code can reach.  A piece changes the counts of an end
only if it names that end itself or takes it from a descriptor it closes (`Touches`),
and a live process names an end only if it did before or `sys_pipe_set_fd` has just
bound it (`exec_naming`).  So what is said about the counts of one pipe survives
everything that stays away from it.
-/
import TP2Kernel.PipeAccounting

namespace TP2Kernel

namespace Ends

variable {P : Type*} [DecidableEq P] {E : Ends P} {p q : P} {w v : Bool}

/-- The object `p` is the same in `E` and `E'`. -/
structure SameAt (p : P) (E E' : Ends P) : Prop where
  active : E'.active p = E.active p
  held : E'.held p = E.held p
  reserved : E'.reserved p = E.reserved p

theorem attach_sameAt (h : p ≠ q) : SameAt p E (E.attach q v) := by
  refine ⟨congrFun attach_active p, funext fun w => ?_, funext fun w => ?_⟩
  · rw [attach_held, if_neg fun e => h (Prod.mk.inj e.1).1]
  · rw [attach_reserved, if_neg fun e => h (Prod.mk.inj e).1]

theorem close_sameAt (h : p ≠ q) : SameAt p E (E.close q v) := by
  refine ⟨?_, funext fun w => ?_, funext fun w => ?_⟩
  · rw [close_active, if_neg fun e => h e.1]
  · rw [close_held, if_neg fun e => h (Prod.mk.inj e).1]
  · rw [close_reserved, if_neg fun e => h e.1, if_neg fun e => h (Prod.mk.inj e).1]

theorem release_sameAt (h : p ≠ q) : SameAt p E (E.release q v) := by
  unfold release
  split
  · exact close_sameAt h
  · exact ⟨rfl, rfl, rfl⟩

theorem launch_sameAt (h : p ≠ q) : SameAt p E (E.launch q) :=
  ⟨Function.update_of_ne h _ _, funext fun _ => if_neg h, funext fun _ => if_neg h⟩

/-- What holds of the counts goes on to hold whatever happens to the ends in
`ok`. -/
structure Tolerates (ok : P × Bool → Prop) (Φ : Ends P → Prop) : Prop where
  attach : ∀ E q v, ok (q, v) → Φ E → Φ (E.attach q v)
  release : ∀ E q v, ok (q, v) → Φ E → Φ (E.release q v)
  launch : ∀ E q, (∀ v, ok (q, v)) → Φ E → Φ (E.launch q)

/-- What is said of one object tolerates everything at the others. -/
theorem Tolerates.of_sameAt {Φ : Ends P → Prop} (h : ∀ E E', SameAt p E E' → Φ E → Φ E') :
    Tolerates (fun e => e.1 ≠ p) Φ where
  attach := fun E _ _ hq => h E _ (attach_sameAt fun e => hq e.symm)
  release := fun E _ _ hq => h E _ (release_sameAt fun e => hq e.symm)
  launch := fun E _ hq => h E _ (launch_sameAt fun e => hq true e.symm)

/-- The end is held by its reservation alone. -/
structure Reserved (e : P × Bool) (E : Ends P) : Prop where
  active : E.active e.1 = true
  held : E.held e.1 e.2 = 1
  reserved : E.reserved e.1 e.2 = 1

omit [DecidableEq P] in
theorem Reserved.of_sameAt {e : P × Bool} {E' : Ends P} (hr : Reserved e E)
    (h : SameAt e.1 E E') : Reserved e E' :=
  ⟨h.active.trans hr.active, (congrFun h.held e.2).trans hr.held,
    (congrFun h.reserved e.2).trans hr.reserved⟩

/-- A reserved end stays reserved while others take and close the other end: the pipe
is not given up, because the reservation counts. -/
theorem tolerates_reserved (e : P × Bool) : Tolerates (fun e' => e' ≠ e) (Reserved e) where
  attach := by
    intro E q v hne h
    refine ⟨(congrFun attach_active e.1).trans h.active, ?_, ?_⟩
    · rw [attach_held, if_neg fun he => hne he.1.symm]
      exact h.held
    · rw [attach_reserved, if_neg fun he => hne he.symm]
      exact h.reserved
  release := by
    intro E q v hne h
    unfold release
    split
    -- the reservation is a user, so closing the other end does not give the object up
    · have hheld : (E.close q v).held e.1 e.2 = 1 := by
        rw [close_held, if_neg fun he => hne he.symm]
        exact h.held
      have hlast : ¬ (e.1 = q ∧ Last E q v) := by
        rintro ⟨rfl, hf, ht⟩
        rcases hw : e.2 with _ | _ <;> rw [hw] at hheld <;> omega
      refine ⟨?_, hheld, ?_⟩
      · rw [close_active, if_neg hlast]
        exact h.active
      · rw [close_reserved, if_neg hlast, if_neg fun he => hne he.symm]
        exact h.reserved
    · exact h
  launch := fun E q hne h =>
    h.of_sameAt (launch_sameAt fun he => hne e.2 (Prod.ext he.symm rfl))

theorem Tolerates.releaseFd {ok : Fin maxPipes × Bool → Prop} {Φ : Ends (Fin maxPipes) → Prop}
    (h : Tolerates ok Φ) {E : Ends (Fin maxPipes)} {d : FileDescriptor}
    (hd : ∀ e, endOf d = some e → ok e) (hE : Φ E) : Φ (E.releaseFd d) := by
  unfold Ends.releaseFd
  rcases he : endOf d with - | ⟨q, v⟩
  · exact hE
  · exact h.release E q v (hd _ he) hE

theorem Tolerates.foldl {ok : Fin maxPipes × Bool → Prop} {Φ : Ends (Fin maxPipes) → Prop}
    (h : Tolerates ok Φ) {ds : List FileDescriptor} (hds : ∀ d ∈ ds, ∀ e, endOf d = some e → ok e)
    {E : Ends (Fin maxPipes)} (hE : Φ E) : Φ (ds.foldl Ends.releaseFd E) := by
  induction ds generalizing E with
  | nil => exact hE
  | cons d ds ih =>
      exact ih (fun d' hd' => hds d' (List.mem_cons_of_mem d hd'))
        (h.releaseFd (hds d List.mem_cons_self) hE)

end Ends

namespace Kernel

open Ends

variable {k : Kernel}

/-! ### Who names an end -/

theorem closeProcessFds_fds_other {i j : Slot} (hj : j ≠ i) :
    ((k.closeProcessFds i).proc j).fds = (k.proc j).fds := by
  funext fd
  rw [closeProcessFds_fds, if_neg hj]

theorem killOther_fds {i j : Slot} (hj : j ≠ i) (pid : Int) :
    ((k.killOther i pid).proc j).fds = (k.proc j).fds := by
  have hclose := closeProcessFds_fds_other (k := k.killPrep i pid) hj
  unfold killOther
  generalize (k.killPrep i pid).closeProcessFds i = k₂ at hclose ⊢
  rw [onSched_proc, bury_fds]
  exact hclose.trans (killPrep_sameFds (k := k) i pid j).1

theorem schedulerExitCurrent_fds {j : Slot} (hj : j ≠ k.sched.currentIdx) (status : Int) :
    ((k.schedulerExitCurrent status).proc j).fds = (k.proc j).fds := by
  simp only [schedulerExitCurrent]
  split
  · rfl
  · generalize k.sched.currentIdx = cur at hj ⊢
    have hclose := closeProcessFds_fds_other (k := k.exitPrep cur status) hj
    generalize (k.exitPrep cur status).closeProcessFds cur = k₂ at hclose ⊢
    rw [onSched_proc, leave_fds]
    exact hclose.trans (exitPrep_sameFds (k := k) cur status j).1

theorem killOther_dead {i : Slot} {pid : Int} (hi : k.sched.findIndexByPid pid = some i) :
    ((k.killOther i pid).proc i).state = .dead := by
  obtain ⟨l, -, hl⟩ := k.killOther_life hi i
  have hdead : ((k.killOther i pid).life i).state = .dead := by
    rw [hl, if_pos rfl]
    rfl
  generalize k.killOther i pid = k' at hdead ⊢
  exact hdead

theorem schedulerExitCurrent_closed (h0 : k.sched.currentIdx ≠ 0) (status : Int)
    (fd : Fin maxFds) :
    ((k.schedulerExitCurrent status).proc k.sched.currentIdx).fds fd = ⟨.none, -1⟩ := by
  simp only [schedulerExitCurrent, if_neg h0]
  generalize k.sched.currentIdx = cur
  have hclose := ((k.exitPrep cur status).closeProcessFds_fds cur cur fd).trans (if_pos rfl)
  generalize (k.exitPrep cur status).closeProcessFds cur = k₂ at hclose ⊢
  rw [onSched_proc, leave_fds]
  exact hclose

/-- A process that is ended names nothing. -/
theorem target_naming (hs : Sound k) {op : Op} {i : Slot} (ht : k.target op = some i)
    (fd : Fin maxFds) : (k.exec op).naming (i, fd) = none := by
  rcases exec_target hs.pids ht with ⟨rfl, h0, he⟩ | ⟨-, hi, -, he⟩
  · rw [he]
    unfold naming
    rw [schedulerExitCurrent_closed h0, ite_eq_left_iff]
    exact fun _ => rfl
  · rw [he]
    exact if_pos (killOther_dead hi)

/-- The others keep their descriptors when a process is ended. -/
theorem target_sameFds (hs : Sound k) {op : Op} {i j : Slot} (ht : k.target op = some i)
    (hj : j ≠ i) : SameFds k (k.exec op) j := by
  refine ⟨?_, ?_⟩
  · rcases exec_target hs.pids ht with ⟨rfl, -, he⟩ | ⟨-, -, -, he⟩
    · rw [he, schedulerExitCurrent_fds hj]
    · rw [he, killOther_fds hj]
  · rcases (k.exec_lifeStep hs.ordered op j).dead hs.pids with
      hsame | ⟨-, ht', -⟩ | ⟨-, pid, rfl⟩ | ⟨-, name, pr, fg, stack, rfl⟩
    · exact hsame
    · rw [ht, Option.some.injEq] at ht'
      exact absurd ht'.symm hj
    · cases ht
    · cases ht

/-- `sys_pipe_set_fd` binds at most one descriptor. -/
theorem syscallPipeSetFd_naming (k : Kernel) (pid : Int) (fd : Nat) (pipeId : Int) (w : Bool) :
    (k.syscallPipeSetFd pid fd pipeId w).1.naming = k.naming ∨
      ∃ i n q, n.val = fd ∧ k.sched.findIndexByPid pid = some i ∧ k.validPipe pipeId = some q ∧
        (k.syscallPipeSetFd pid fd pipeId w).1.naming =
          Function.update k.naming (i, n) (some (q, w)) := by
  have hcase := k.syscallPipeSetFd_cases pid fd pipeId w
  generalize k.syscallPipeSetFd pid fd pipeId w = r at hcase
  cases hcase with
  | refused => exact .inl rfl
  | binds i n q hi hn hq =>
      refine .inr ⟨i, n, q, hn, hi, hq, ?_⟩
      have hrel := (k.pipeAttach_releases pipeId w).trans (releaseFd_releases _ ((k.proc i).fds n))
      have hsame := sameFds_of_wakes hrel.wakes
      -- attaching and closing move counts and wake processes; only the last store binds
      generalize (k.pipeAttach pipeId w).1.releaseFd ((k.proc i).fds n) = k₁ at hsame
      have hd : (k₁.proc i).state ≠ .dead :=
        fun hdead => (Sched.findIndexByPid_some hi).2 ((hsame i).2.mp hdead)
      have hnaming : k₁.naming = k.naming :=
        funext fun x => FdsKept.naming_eq (.inl (hsame x.1)) x.2
      have hend : endOf ⟨if w then .pipeWrite else .pipeRead, pipeId⟩ = some (q, w) := by
        rw [endOf_eq_some, descriptor, (k.validPipe_some hq).2]
      exact (naming_setFd hd).trans (by rw [hnaming, hend])

/-- **Where a naming comes from**: an end that a descriptor names was named by it
before, or has just been bound to it. -/
theorem exec_naming (hs : Sound k) {op : Op} {j : Slot} {fd : Fin maxFds}
    {e : Fin maxPipes × Bool} (h : (k.exec op).naming (j, fd) = some e) :
    k.naming (j, fd) = some e ∨
      ∃ pid pipeId, op = .pipeSetFd pid fd.val pipeId e.2 ∧
        k.sched.findIndexByPid pid = some j ∧ k.validPipe pipeId = some e.1 := by
  have htarget : (∃ status, op = .exit status) ∨ (∃ pid, op = .kill pid) ∨ op = .killForeground →
      k.naming (j, fd) = some e := by
    intro hop
    rcases ht : k.target op with - | i
    · rw [exec_target_none ht hop] at h
      exact h
    -- the process that is ended names nothing; the others keep their descriptors
    · have hj : j ≠ i := by
        rintro rfl
        rw [target_naming hs ht] at h
        cases h
      rw [← h]
      exact (FdsKept.naming_eq (.inl (target_sameFds hs ht hj)) fd).symm
  by_cases hplain : op.Plain
  · rw [FdsKept.naming_eq (.inl (exec_sameFds hs hplain j)) fd] at h
    exact .inl h
  cases op with
  | create name pr fg stack =>
      rw [(create_fdsKept name pr fg stack j).naming_eq fd] at h
      exact .inl h
  | kill pid => exact .inl (htarget (.inr (.inl ⟨pid, rfl⟩)))
  | killForeground => exact .inl (htarget (.inr (.inr rfl)))
  | exit status => exact .inl (htarget (.inl ⟨status, rfl⟩))
  | wait pid =>
      rcases wait_fds hs pid j with hsame | ⟨hdead, -⟩
      · rw [FdsKept.naming_eq (.inl hsame) fd] at h
        exact .inl h
      · rw [naming, if_pos hdead] at h
        cases h
  | pipeSetFd pid fd' pipeId w =>
      have h' : (k.syscallPipeSetFd pid fd' pipeId w).1.naming (j, fd) = some e := h
      rcases k.syscallPipeSetFd_naming pid fd' pipeId w with he | ⟨i, n, q, hn, hi, hq, he⟩
      · rw [he] at h'
        exact .inl h'
      · rw [he, Function.update_apply] at h'
        split at h'
        · next hx =>
            obtain ⟨rfl, rfl⟩ := Prod.mk.inj hx
            obtain rfl := Option.some.inj h'
            exact .inr ⟨pid, pipeId, by rw [hn], hi, hq⟩
        · exact .inl h'
  | _ => exact absurd trivial hplain

/-! ### Which ends a piece touches -/

/-- The piece may change the counts of the end `e`: it names `e`, opens the pipe, or
closes a descriptor that names it. -/
def Touches (k : Kernel) (op : Op) (e : Fin maxPipes × Bool) : Prop :=
  match op with
  | .pipeClose pipeId w => k.validPipe pipeId = some e.1 ∧ w = e.2
  | .pipeOpen c => (k.pipeTable e.1).active = false ∧
      (k.pipeOpenWithCapacity c).2 = (e.1.val : Int)
  | .pipeSetFd pid fd pipeId w => ∃ i, k.sched.findIndexByPid pid = some i ∧
      (k.validPipe pipeId = some e.1 ∧ w = e.2 ∨
        ∃ n : Fin maxFds, n.val = fd ∧ k.naming (i, n) = some e)
  | op => ∃ i fd, k.target op = some i ∧ k.naming (i, fd) = some e

theorem target_ends (hp : Pids k) {op : Op} {i : Slot} (ht : k.target op = some i) :
    (k.exec op).ends = ((List.finRange maxFds).map (k.proc i).fds).foldl Ends.releaseFd k.ends := by
  rcases exec_target hp ht with ⟨rfl, h0, he⟩ | ⟨-, hi, -, he⟩
  · rw [he]
    simp only [schedulerExitCurrent, if_neg h0]
    generalize k.sched.currentIdx = cur
    have hclose := (k.exitPrep cur (exitCode op)).closeProcessFds_ends cur
    rw [(exitPrep_sameFds (k := k) cur (exitCode op) cur).1] at hclose
    generalize (k.exitPrep cur (exitCode op)).closeProcessFds cur = k₂ at hclose ⊢
    exact (ends_eq (.onSched _ _)).trans hclose
  · rw [he]
    generalize (k.life i).pid = pid at hi
    have hclose := (k.killPrep i pid).closeProcessFds_ends i
    rw [(killPrep_sameFds (k := k) i pid i).1] at hclose
    unfold killOther
    generalize (k.killPrep i pid).closeProcessFds i = k₂ at hclose ⊢
    exact (ends_eq (.onSched _ _)).trans hclose

/-- **What tolerates the ends a piece touches survives the piece.** -/
theorem exec_tolerates (hs : Sound k) {op : Op} {ok : Fin maxPipes × Bool → Prop}
    {Φ : Ends (Fin maxPipes) → Prop} (hΦ : Tolerates ok Φ) (hok : ∀ e, k.Touches op e → ok e)
    (h : Φ k.ends) : Φ (k.exec op).ends := by
  have htarget : (∃ status, op = .exit status) ∨ (∃ pid, op = .kill pid) ∨ op = .killForeground →
      Φ (k.exec op).ends := by
    intro hop
    rcases ht : k.target op with - | i
    · rw [exec_target_none ht hop]
      exact h
    · have hd : (k.proc i).state ≠ .dead := by
        rcases exec_target hs.pids ht with ⟨rfl, -⟩ | ⟨-, hi, -⟩
        · exact hs.pids.current
        · exact (Sched.findIndexByPid_some hi).2
      -- all descriptors of the process are closed, and each end they name is touched
      rw [target_ends hs.pids ht]
      refine hΦ.foldl (fun d hd' e he => hok e ?_) h
      obtain ⟨fd, -, rfl⟩ := List.mem_map.mp hd'
      rw [← naming_of_alive hd] at he
      rcases hop with ⟨_, rfl⟩ | ⟨_, rfl⟩ | rfl <;> exact ⟨i, fd, ht, he⟩
  cases op with
  | create _ _ _ _ | block _ | unblock _ | nice _ _ | wait _ | yield | tick _ => exact h
  | kill pid => exact htarget (.inr (.inl ⟨pid, rfl⟩))
  | killForeground => exact htarget (.inr (.inr rfl))
  | exit status => exact htarget (.inl ⟨status, rfl⟩)
  | semOpen name v => exact (ends_eq (SamePipes.semOpen k name v)).symm ▸ h
  | semWait semId => exact (ends_eq (SamePipes.semWait k semId)).symm ▸ h
  | semPost semId => exact (ends_eq (SamePipes.semPost k semId)).symm ▸ h
  | semPostAll semId => exact (ends_eq (SamePipes.semPostAll k semId)).symm ▸ h
  | semClose semId => exact (ends_eq (SamePipes.semClose k semId)).symm ▸ h
  | pipeOpen c =>
      show Φ (k.pipeOpenWithCapacity c).1.ends
      rcases k.pipeOpenWithCapacity_ends c with he | ⟨q, hq, hres, he⟩
      · rw [he]
        exact h
      · rw [he]
        exact hΦ.launch k.ends q (fun v => hok (q, v) ⟨hq, hres⟩) h
  | pipeClose pipeId w =>
      show Φ (k.pipeClose pipeId w).1.ends
      rcases hv : k.validPipe pipeId with - | q
      · simp only [pipeClose, hv]
        exact h
      · have hrel := hΦ.release k.ends q w (hok (q, w) ⟨hv, rfl⟩) h
        rw [Ends.release, if_pos (show k.ends.active q = true from (k.validPipe_some hv).1)] at hrel
        rw [k.pipeClose_ends hv]
        exact hrel
  | pipeSetFd pid fd pipeId w =>
      have hcase := k.syscallPipeSetFd_cases pid fd pipeId w
      show Φ (k.syscallPipeSetFd pid fd pipeId w).1.ends
      generalize k.syscallPipeSetFd pid fd pipeId w = r at hcase
      cases hcase with
      | refused => exact h
      | binds i n q hi hn hq =>
          rw [ends_eq (.onSched _ _), releaseFd_ends, k.pipeAttach_ends hq]
          refine hΦ.releaseFd (fun e he => hok e ⟨i, hi, .inr ⟨n, hn, ?_⟩⟩) ?_
          · rw [naming_of_alive (Sched.findIndexByPid_some hi).2]
            exact he
          · exact hΦ.attach k.ends q w (hok (q, w) ⟨i, hi, .inl ⟨hq, rfl⟩⟩) h
  | pipeRead q => exact (k.pipeReadStep_ends q).symm ▸ h
  | pipeWrite q c => exact (k.pipeWriteStep_ends q c).symm ▸ h

end Kernel

end TP2Kernel
