/-
TP2Kernel/PipeAccounting.lean

The end-point counts of the pipes over whole runs.  The users of a pipe are
the descriptors of the processes that are not dead; `Accounted` says that they
and the reservations are what the counts of the pipe table count.

The balance is kept piece by piece: descriptors are closed and bound together
with the counts, and everything else changes neither (`Accounted.of_quiet`).
The exception is `scheduler_wait`, which resets the descriptors of the process
it reaps without closing them; a process that has exited has none, unless
`syscall_pipe_set_fd` has given it one since.
-/
import TP2Kernel.Lives
import TP2Kernel.PipeEnds
import Mathlib.Data.Fintype.Prod

namespace TP2Kernel

open Ends

/-- A pipe descriptor names a pipe of the table. -/
def FileDescriptor.WellFormed (d : FileDescriptor) : Prop :=
  d.type = .pipeRead ∨ d.type = .pipeWrite → (endOf d).isSome

/-- The descriptor is no pipe end. -/
def FileDescriptor.Plain (d : FileDescriptor) : Prop :=
  d.type ≠ .pipeRead ∧ d.type ≠ .pipeWrite

instance (d : FileDescriptor) : Decidable d.Plain := inferInstanceAs (Decidable (_ ∧ _))

namespace FileDescriptor

variable {d : FileDescriptor}

theorem Plain.endOf_eq (h : d.Plain) : endOf d = none := by
  unfold endOf
  rcases hd : d.type with - | - | - | - | -
  · rfl
  · rfl
  · rfl
  · exact absurd hd h.1
  · exact absurd hd h.2

theorem Plain.wellFormed (h : d.Plain) : d.WellFormed := fun hp => (hp.elim h.1 h.2).elim

end FileDescriptor

namespace Kernel

/-- The end that a descriptor of a process that is not dead names. -/
def naming (k : Kernel) (x : Slot × Fin maxFds) : Option (Fin maxPipes × Bool) :=
  if (k.proc x.1).state = .dead then none else endOf ((k.proc x.1).fds x.2)

/-- The counts of the pipe table count the descriptors and reservations. -/
structure Accounted (k : Kernel) : Prop where
  balanced : Balanced k.ends (names k.naming)
  bound : ∀ i fd, (k.proc i).state ≠ .dead → ((k.proc i).fds fd).WellFormed

/-- The process has no pipe descriptor that counts. -/
def Unbound (k : Kernel) (i : Slot) : Prop :=
  (k.proc i).state = .dead ∨ ∀ fd, ((k.proc i).fds fd).Plain

/-- The descriptors of a process are the same and count the same. -/
def SameFds (k k' : Kernel) (j : Slot) : Prop :=
  (k'.proc j).fds = (k.proc j).fds ∧ ((k'.proc j).state = .dead ↔ (k.proc j).state = .dead)

/-- The descriptors of a process are the same, or none of them counts before and
after. -/
def FdsKept (k k' : Kernel) (j : Slot) : Prop := SameFds k k' j ∨ k.Unbound j ∧ k'.Unbound j

variable {k k' : Kernel}

theorem Unbound.naming_eq {i : Slot} (h : k.Unbound i) (fd : Fin maxFds) :
    k.naming (i, fd) = none := by
  unfold naming
  split
  · rfl
  · rename_i hd
    exact ((h.resolve_left hd) fd).endOf_eq

theorem SameFds.wellFormed {j : Slot} (h : SameFds k k' j) {fd : Fin maxFds}
    (hb : (k.proc j).state ≠ .dead → ((k.proc j).fds fd).WellFormed)
    (hd : (k'.proc j).state ≠ .dead) : ((k'.proc j).fds fd).WellFormed := by
  rw [h.1]
  exact hb fun e => hd (h.2.mpr e)

theorem FdsKept.naming_eq {j : Slot} (h : FdsKept k k' j) (fd : Fin maxFds) :
    k'.naming (j, fd) = k.naming (j, fd) := by
  rcases h with ⟨hf, hd⟩ | ⟨hu, hu'⟩
  · unfold naming
    simp only [hf]
    exact if_congr hd rfl rfl
  · rw [hu.naming_eq, hu'.naming_eq]

/-- What touches neither counts nor descriptors keeps the balance. -/
theorem Accounted.of_quiet (h : Accounted k) (hends : k'.ends = k.ends)
    (hfds : ∀ j, FdsKept k k' j) : Accounted k' := by
  have hnaming : k'.naming = k.naming := funext fun ⟨j, fd⟩ => (hfds j).naming_eq fd
  refine ⟨by rw [hends, hnaming]; exact h.balanced, fun i fd hi => ?_⟩
  rcases hfds i with hsame | ⟨-, hu'⟩
  · exact hsame.wellFormed (h.bound i fd) hi
  · exact (hu'.resolve_left hi fd).wellFormed

/-! ### Closing and binding -/

/-- Waking processes touches no descriptor and makes nobody dead. -/
theorem sameFds_of_wakes {S : Int → Prop} (h : Wakes S k.sched k'.sched) (j : Slot) :
    SameFds k k' j := by
  refine ⟨h.field j PCB.fds fun _ => rfl, ?_⟩
  have hst : (k'.proc j).state = (k'.sched.core j).state := rfl
  have hst' : (k.proc j).state = (k.sched.core j).state := rfl
  rw [hst, hst']
  rcases h.core j with hc | ⟨hb, -, hc⟩
  · rw [hc]
  · rw [hc, hb]
    exact iff_of_false (by rintro ⟨⟩) (by rintro ⟨⟩)

/-- The naming after one descriptor of a process that is not dead has been set. -/
theorem naming_setFd {i : Slot} {n : Fin maxFds} {d : FileDescriptor}
    (hd : (k.proc i).state ≠ .dead) :
    (k.onSched fun s => s.modify i (setFd n d)).naming
      = Function.update k.naming (i, n) (endOf d) := by
  funext ⟨j, fd⟩
  unfold naming
  by_cases hj : j = i
  · subst hj
    have hp : (k.onSched fun s => s.modify j (setFd n d)).proc j = setFd n d (k.proc j) :=
      Sched.modify_self ..
    simp only [hp]
    by_cases hfd : fd = n
    · subst hfd
      rw [Function.update_self]
      have h1 : (setFd fd d (k.proc j)).fds fd = d := Function.update_self ..
      rw [h1]
      exact if_neg hd
    · rw [Function.update_of_ne fun e => hfd (Prod.mk.inj e).2]
      have h1 : (setFd n d (k.proc j)).fds fd = (k.proc j).fds fd := Function.update_of_ne hfd _ _
      rw [h1]
      rfl
  · have hp : (k.onSched fun s => s.modify i (setFd n d)).proc j = k.proc j :=
      Sched.modify_of_ne _ _ _ _ hj
    rw [Function.update_of_ne fun e => hj (Prod.mk.inj e).1]
    simp only [hp]

theorem naming_of_alive {i : Slot} (hd : (k.proc i).state ≠ .dead) (fd : Fin maxFds) :
    k.naming (i, fd) = endOf ((k.proc i).fds fd) := if_neg hd

/-- Setting a descriptor to a well-formed one. -/
theorem bound_setFd (h : ∀ i fd, (k.proc i).state ≠ .dead → ((k.proc i).fds fd).WellFormed)
    {i : Slot} {n : Fin maxFds} {d : FileDescriptor} (hd : d.WellFormed) (j : Slot)
    (fd : Fin maxFds) (hj : ((k.onSched fun s => s.modify i (setFd n d)).proc j).state ≠ .dead) :
    (((k.onSched fun s => s.modify i (setFd n d)).proc j).fds fd).WellFormed := by
  by_cases hji : j = i
  · subst hji
    have hp : (k.onSched fun s => s.modify j (setFd n d)).proc j = setFd n d (k.proc j) :=
      Sched.modify_self ..
    rw [hp] at hj ⊢
    show (Function.update (k.proc j).fds n d fd).WellFormed
    by_cases hfd : fd = n
    · subst hfd
      rw [Function.update_self]
      exact hd
    · rw [Function.update_of_ne hfd]
      exact h j fd hj
  · have hp : (k.onSched fun s => s.modify i (setFd n d)).proc j = k.proc j :=
      Sched.modify_of_ne _ _ _ _ hji
    rw [hp] at hj ⊢
    exact h j fd hj

/-- Giving up what a descriptor of a live process names: the counts are those of
the naming without it. -/
theorem balanced_releaseFd {E : Ends (Fin maxPipes)} {f : Slot × Fin maxFds →
    Option (Fin maxPipes × Bool)} {m : Fin maxPipes × Bool → Nat} (h : Balanced E m)
    {d : FileDescriptor} {x : Slot × Fin maxFds} (hx : f x = endOf d)
    (hm : ∀ e, names f e ≤ m e) :
    Balanced (E.releaseFd d) (fun e => m e - if endOf d = some e then 1 else 0) := by
  unfold Ends.releaseFd
  rcases hd : endOf d with - | ⟨p, w⟩
  · simpa using h
  · have hpos : 0 < m (p, w) := Nat.lt_of_lt_of_le (names_pos (hx.trans hd)) (hm _)
    have hact := h.named p w hpos
    simp only
    unfold Ends.release
    rw [if_pos hact]
    convert h.close hpos using 1
    funext e
    unfold minus
    by_cases he : e = (p, w)
    · subst he
      simp
    · rw [if_neg he, if_neg fun e' => he (Option.some.inj e').symm]
      rfl

/-- Setting one descriptor of a live process, with counts to match. -/
theorem accounted_setFd (h : Accounted k) (hsame : ∀ j, SameFds k k' j) {i : Slot}
    (hd : (k.proc i).state ≠ .dead) {n : Fin maxFds} {d : FileDescriptor} (hwf : d.WellFormed)
    (hbal : Balanced k'.ends fun e => names k.naming e -
      (if endOf ((k.proc i).fds n) = some e then 1 else 0) + if endOf d = some e then 1 else 0) :
    Accounted (k'.onSched fun s => s.modify i (setFd n d)) := by
  have hnaming : k'.naming = k.naming :=
    funext fun ⟨j, fd⟩ => FdsKept.naming_eq (.inl (hsame j)) fd
  refine ⟨?_, bound_setFd (fun j fd => (hsame j).wellFormed (h.bound j fd)) hwf⟩
  rw [ends_eq (SamePipes.onSched _ _)]
  convert hbal using 1
  funext e
  rw [naming_setFd fun e => hd ((hsame i).2.mp e), names_update, hnaming, naming_of_alive hd]

theorem closeFd_accounted (h : Accounted k) {i : Slot} (hd : (k.proc i).state ≠ .dead)
    (fd : Fin maxFds) : Accounted (k.closeFd i fd) := by
  have hplain : FileDescriptor.Plain ⟨.none, -1⟩ := by decide
  refine accounted_setFd h (sameFds_of_wakes (k.releaseFd_releases _).wakes) hd
    hplain.wellFormed ?_
  rw [releaseFd_ends]
  exact balanced_releaseFd h.balanced (naming_of_alive hd fd) fun _ => Nat.le_refl _

theorem syscallPipeSetFd_accounted (h : Accounted k) (pid : Int) (fd : Nat) (pipeId : Int)
    (w : Bool) : Accounted (k.syscallPipeSetFd pid fd pipeId w).1 := by
  have hcase := k.syscallPipeSetFd_cases pid fd pipeId w
  generalize k.syscallPipeSetFd pid fd pipeId w = r at hcase
  cases hcase with
  | refused => exact h
  | binds i n p hi _ hp =>
      have hd : (k.proc i).state ≠ .dead := (Sched.findIndexByPid_some hi).2
      obtain ⟨hact, hid⟩ := k.validPipe_some hp
      have hend : endOf ⟨if w then .pipeWrite else .pipeRead, pipeId⟩ = some (p, w) := by
        unfold endOf
        rw [hid, index?_natCast]
        cases w <;> rfl
      have hrel := (k.pipeAttach_releases pipeId w).trans (releaseFd_releases _ ((k.proc i).fds n))
      refine accounted_setFd h (sameFds_of_wakes hrel.wakes) hd
        (fun _ => by rw [hend]; rfl) ?_
      rw [releaseFd_ends, k.pipeAttach_ends hp]
      have hatt := h.balanced.attach (w := w) hact
      have hle : ∀ e, names k.naming e ≤ plus (names k.naming) (p, w) e := by
        intro e
        unfold plus
        split
        · rename_i he
          rw [he]
          exact Nat.le_succ _
        · exact Nat.le_refl _
      convert balanced_releaseFd hatt (naming_of_alive hd n) hle using 1
      funext e
      rw [hend]
      unfold plus
      by_cases he : e = (p, w)
      · subst he
        rw [if_pos rfl, if_pos rfl]
        split
        · rename_i hold
          have := names_pos ((naming_of_alive hd n).trans hold)
          omega
        · omega
      · rw [if_neg he, if_neg fun e' => he (Option.some.inj e').symm, Nat.add_zero]

theorem closeFd_dead (i j : Slot) (fd : Fin maxFds) :
    ((k.closeFd i fd).proc j).state = .dead ↔ (k.proc j).state = .dead := by
  have hrel := (k.releaseFd_releases ((k.proc i).fds fd)).wakes
  unfold closeFd
  generalize k.releaseFd ((k.proc i).fds fd) = k₁ at hrel ⊢
  have hst : ((k₁.onSched fun s => s.modify i (setFd fd ⟨.none, -1⟩)).proc j).state
      = (k₁.proc j).state := k₁.sched.modify_field i j _ PCB.state rfl
  rw [hst]
  exact (sameFds_of_wakes hrel j).2

theorem closeProcessFds_accounted (h : Accounted k) {i : Slot}
    (hd : (k.proc i).state ≠ .dead) : Accounted (k.closeProcessFds i) := by
  unfold closeProcessFds
  generalize List.finRange maxFds = l
  induction l generalizing k with
  | nil => exact h
  | cons fd l ih =>
      exact ih (closeFd_accounted h hd fd) ((closeFd_dead i i fd).not.mpr hd)

/-! ### Pieces that touch no descriptor -/

theorem fds_of_update {s s' : Sched} {i : Slot} {p : PCB}
    (h : s'.core = Function.update s.core i p) (hp : p.fds = (s.core i).fds) (j : Slot) :
    (s'.processTable j).fds = (s.processTable j).fds := by
  show (s'.core j).fds = (s.core j).fds
  rw [h]
  by_cases hj : j = i
  · subst hj
    rw [Function.update_self, hp]
  · rw [Function.update_of_ne hj]

theorem fds_of_core {s s' : Sched} (h : s'.core = s.core) (j : Slot) :
    (s'.processTable j).fds = (s.processTable j).fds := by
  show (s'.core j).fds = (s.core j).fds
  rw [h]

theorem schedulerBlock_fds (s : Sched) (pid : Int) (j : Slot) :
    ((s.schedulerBlock pid).processTable j).fds = (s.processTable j).fds := by
  rcases hi : s.findIndexByPid pid with - | i
  · rw [s.schedulerBlock_none hi]
  · exact fds_of_update (s.schedulerBlock_core hi) rfl j

theorem semWait_fds (semId : Int) (j : Slot) :
    ((k.semWait semId).1.proc j).fds = (k.proc j).fds := by
  show ((k.semWait semId).1.sched.processTable j).fds = _
  rw [semWait_sched]
  split
  · exact schedulerBlock_fds _ _ j
  · rfl

theorem dispatch_fds (s : Sched) (j : Slot) :
    (s.dispatch.1.processTable j).fds = (s.processTable j).fds :=
  fds_of_update s.dispatch_core rfl j

theorem schedulerTick_fds (s : Sched) (rsp : Nat) (j : Slot) :
    ((s.schedulerTick rsp).1.processTable j).fds = (s.processTable j).fds := by
  have h1 := s.saveRsp_core rsp
  have h2 := (Sched.countTick_core _).trans h1
  have hcase := s.schedulerTick_cases rsp
  generalize (s.schedulerTick rsp).1 = t at hcase
  cases hcase with
  | keeps _ => exact fds_of_core h2 j
  | preempts _ =>
      refine (dispatch_fds _ j).trans ?_
      have hpb := (s.saveRsp rsp).countTick.putBack_core
      refine Eq.trans ?_ (fds_of_core h2 j)
      split at hpb
      · exact fds_of_update hpb rfl j
      · exact fds_of_core hpb j
  | switches _ => exact (dispatch_fds _ j).trans (fds_of_core h1 j)

/-- The pieces that neither create, reap or end a process nor bind a
descriptor. -/
def Op.Plain : Op → Prop
  | .create .. | .wait _ | .exit _ | .kill _ | .killForeground | .pipeSetFd .. => False
  | _ => True

theorem StepCases.fds {α : Type} {p : Fin maxPipes} {own other : Int} {move : Pipe → Pipe}
    {dry shut live : Prop} {fl bl ag sp dn : α} {r : Kernel × α}
    (hr : k.StepCases p own other move dry shut live fl bl ag sp dn r) (j : Slot) :
    (r.1.proc j).fds = (k.proc j).fds := by
  cases hr with
  | waits _ => exact semWait_fds _ j
  | stops _ => rfl
  | moves _ =>
      exact ((k.modifyPipe_releases p _).trans (semPost_releases _ _)).wakes.field j PCB.fds
        fun _ => rfl

theorem exec_fds {op : Op} (hop : op.Plain) (j : Slot) :
    ((k.exec op).proc j).fds = (k.proc j).fds := by
  have hwakes := k.exec_wakes op
  cases op with
  | block pid => exact schedulerBlock_fds _ pid j
  | unblock pid =>
      exact (k.sched.schedulerUnblock_wakes (S := fun _ => True) trivial).field j PCB.fds fun _ => rfl
  | nice pid pr =>
      rcases k.sched.schedulerNice_core pid pr with hc | ⟨i, -, -, hc⟩
      · exact fds_of_core hc j
      · exact fds_of_update hc rfl j
  | yield => exact fds_of_core k.sched.schedulerYield_core j
  | tick rsp => exact schedulerTick_fds _ rsp j
  | semWait semId => exact semWait_fds semId j
  | semOpen | semPost | semPostAll | semClose | pipeOpen | pipeClose =>
      exact (hwakes trivial).field j PCB.fds fun _ => rfl
  | pipeRead p => exact (k.pipeReadStep_cases p).fds j
  | pipeWrite p c => exact (k.pipeWriteStep_cases p c).fds j
  | _ => cases hop

theorem exec_dead (hs : Sound k) {op : Op} (hop : op.Plain) (j : Slot) :
    ((k.exec op).proc j).state = .dead ↔ (k.proc j).state = .dead := by
  have ht : k.target op = none := by
    cases op <;> first | rfl | cases hop
  refine exec_dead_iff hs op ht ?_ ?_ j
  · rintro pid rfl
    cases hop
  · rintro name pr fg stack rfl
    cases hop

theorem exec_sameFds (hs : Sound k) {op : Op} (hop : op.Plain) (j : Slot) :
    SameFds k (k.exec op) j := ⟨exec_fds hop j, exec_dead hs hop j⟩

theorem StepCases.ends {α : Type} {p : Fin maxPipes} {own other : Int} {move : Pipe → Pipe}
    {dry shut live : Prop} {fl bl ag sp dn : α} {r : Kernel × α}
    (hr : k.StepCases p own other move dry shut live fl bl ag sp dn r)
    (hact : ∀ b, (move b).active = b.active) (hrd : ∀ b, (move b).readers = b.readers)
    (hwr : ∀ b, (move b).writers = b.writers) : r.1.ends = k.ends := by
  cases hr with
  | waits _ => exact ends_eq (SamePipes.semWait k _)
  | stops _ => rfl
  | moves _ =>
      rw [ends_eq (SamePipes.semPost _ _)]
      refine ends_ext (fun q => ?_) (fun q => ?_) (fun q => ?_) (fun _ => rfl) fun _ => rfl
      all_goals
        rw [modifyPipe_pipeTable]
        split
        · rename_i hq
          simp only [hact, hrd, hwr, hq]
          rfl
        · rfl

theorem pipeReadStep_ends (k : Kernel) (p : Fin maxPipes) : (k.pipeReadStep p).1.ends = k.ends :=
  (k.pipeReadStep_cases p).ends (fun _ => rfl) (fun _ => rfl) fun _ => rfl

theorem pipeWriteStep_ends (k : Kernel) (p : Fin maxPipes) (c : UInt8) :
    (k.pipeWriteStep p c).1.ends = k.ends :=
  (k.pipeWriteStep_cases p c).ends (fun _ => rfl) (fun _ => rfl) fun _ => rfl

/-! ### Creating, reaping, ending -/

theorem initialFds_plain (fd : Fin maxFds) : (initialFds fd).Plain := by
  revert fd
  decide

theorem create_fdsKept (name : List UInt8) (pr fg : Int) (stack : Nat) (j : Slot) :
    FdsKept k (k.exec (.create name pr fg stack)) j := by
  have hcase := k.sched.schedulerCreate_cases name pr fg stack
  simp only [exec]
  generalize k.sched.schedulerCreate name pr fg stack = r at hcase
  cases hcase with
  | refused => exact .inl ⟨rfl, Iff.rfl⟩
  | creates slot pr _ hslot _ =>
      obtain ⟨fg', hnew⟩ := k.sched.createPrep_core_slot name pr fg stack slot
      have hrest := fun hj : j ≠ slot => k.sched.createPrep_core_of_ne name pr fg stack hj
      generalize k.sched.createPrep name pr fg stack slot = t at hnew hrest
      have hready := t.makeReady_core slot true
      have hfds : ((t.makeReady slot true).processTable j).fds = (t.processTable j).fds := by
        split at hready
        · exact fds_of_update hready rfl j
        · exact fds_of_core hready j
      by_cases hj : j = slot
      · subst hj
        refine .inr ⟨.inl (Sched.findFreeSlot_some hslot).2, .inr fun fd => ?_⟩
        have hfd : (t.processTable j).fds = initialFds := congrArg PCB.fds hnew
        show (((t.makeReady j true).processTable j).fds fd).Plain
        rw [hfds, hfd]
        exact initialFds_plain fd
      · refine .inl ⟨?_, ?_⟩
        · refine hfds.trans ?_
          have := congrArg PCB.fds (hrest hj)
          refine Eq.trans this ?_
          split <;> rfl
        · have hst : ((t.makeReady slot true).core j).state = (k.sched.core j).state := by
            have hc : (t.makeReady slot true).core j = t.core j := by
              rw [hready]
              split
              · exact Function.update_of_ne hj _ _
              · rfl
            rw [hc, hrest hj]
            split <;> rfl
          exact iff_of_eq (congrArg (· = ProcState.dead) hst)

theorem create_accounted (h : Accounted k) (name : List UInt8) (pr fg : Int) (stack : Nat) :
    Accounted (k.exec (.create name pr fg stack)) :=
  h.of_quiet rfl (create_fdsKept name pr fg stack)

/-- A reaped process has no pipe descriptor. -/
def ReapsUnbound (k : Kernel) (pid : Int) : Prop :=
  ∀ i, k.sched.findIndexByPid pid = some i → (k.proc i).state = .zombie →
    (k.proc i).parentPid = k.sched.current.pid → ∀ fd, ((k.proc i).fds fd).Plain

/-- `scheduler_wait` leaves the descriptors of a process alone or reaps it. -/
theorem wait_fds (hs : Sound k) (pid : Int) (j : Slot) :
    SameFds k (k.exec (.wait pid)) j ∨
      (((k.exec (.wait pid)).proc j).state = .dead ∧ k.sched.findIndexByPid pid = some j ∧
        (k.proc j).state = .zombie ∧ (k.proc j).parentPid = k.sched.current.pid) := by
  have hcase := k.sched.schedulerWait_cases pid
  simp only [exec]
  generalize k.sched.schedulerWait pid = r at hcase
  cases hcase with
  | refused => exact .inl ⟨rfl, Iff.rfl⟩
  | reaps i s' _ hi hparent hz hs' =>
      have h0 : i ≠ 0 := by
        rintro rfl
        exact hs.pids.idle.2.2 hz
      have hcore := k.sched.reapProcess_core h0
      rw [hs']
      generalize k.sched.reapProcess i = t at hcore
      by_cases hj : j = i
      · subst hj
        refine .inr ⟨?_, hi, hz, hparent⟩
        show (t.core j).state = .dead
        rw [hcore, Function.update_self]
        rfl
      · have hsame : t.core j = k.sched.core j := by
          rw [hcore, Function.update_of_ne hj]
        have hfds : (t.core j).fds = (k.sched.core j).fds := by rw [hsame]
        have hst : (t.core j).state = .dead ↔ (k.sched.core j).state = .dead := by rw [hsame]
        exact .inl ⟨hfds, hst⟩
  | blocks i _ _ _ _ =>
      have hcore := k.sched.waiting_core pid
      have hdead : (Sched.core { k.sched.modify k.sched.currentIdx (Sched.waiting pid) with
          needResched := true } j).state = .dead ↔ (k.sched.core j).state = .dead := by
        rw [hcore]
        by_cases hj : j = k.sched.currentIdx
        · subst hj
          rw [Function.update_self]
          exact iff_of_false (by rintro ⟨⟩) hs.pids.current
        · rw [Function.update_of_ne hj]
      exact .inl ⟨fds_of_update hcore rfl j, hdead⟩

theorem wait_accounted (hs : Sound k) (h : Accounted k) {pid : Int} (hreap : k.ReapsUnbound pid) :
    Accounted (k.exec (.wait pid)) := by
  refine h.of_quiet rfl fun j => ?_
  rcases wait_fds hs pid j with hsame | ⟨hdead, hj, hz, hparent⟩
  · exact .inl hsame
  · exact .inr ⟨.inr (hreap j hj hz hparent), .inl hdead⟩

/-- **The condition is exact**: reaping a process with a pipe descriptor upsets
the accounts. -/
theorem wait_accounted_iff (hs : Sound k) (h : Accounted k) (pid : Int) :
    Accounted (k.exec (.wait pid)) ↔ k.ReapsUnbound pid := by
  refine ⟨fun h' i hi hz hparent fd => ?_, wait_accounted hs h⟩
  by_contra hplain
  have h0 : i ≠ 0 := by
    rintro rfl
    exact hs.pids.idle.2.2 hz
  have hpid : 0 < pid := by
    have hp : (k.life i).pid = pid := (Sched.findIndexByPid_some hi).1
    have := (hs.pids.live i h0 (Sched.findIndexByPid_some hi).2).1
    omega
  have hd : (k.proc i).state ≠ .dead := (Sched.findIndexByPid_some hi).2
  have hpipe : ((k.proc i).fds fd).type = .pipeRead ∨ ((k.proc i).fds fd).type = .pipeWrite := by
    unfold FileDescriptor.Plain at hplain
    by_contra hn
    exact hplain (not_or.mp hn)
  obtain ⟨⟨p, w⟩, he⟩ := Option.isSome_iff_exists.mp (h.bound i fd hd hpipe)
  have hname : k.naming (i, fd) = some (p, w) := (naming_of_alive hd fd).trans he
  have hact := h.balanced.named p w (names_pos hname)
  have hcore : (k.exec (.wait pid)).sched.core =
      Function.update k.sched.core i (Sched.reaped (k.sched.core i)) := by
    rw [← k.sched.reapProcess_core h0]
    simp only [exec, k.sched.schedulerWait_reaps hpid hi hparent hz]
    rfl
  have hends : (k.exec (.wait pid)).ends = k.ends := rfl
  generalize k.exec (.wait pid) = k' at h' hcore hends
  have hgone : ∀ fd', k'.naming (i, fd') = none := by
    intro fd'
    refine Unbound.naming_eq (.inl ?_) fd'
    show (k'.sched.core i).state = .dead
    rw [hcore, Function.update_self]
    rfl
  have hlt : names k'.naming (p, w) < names k.naming (p, w) := by
    refine names_lt hname (hgone fd) fun x hj => ?_
    obtain ⟨j, fd'⟩ := x
    by_cases hji : j = i
    · subst hji
      cases (hgone fd').symm.trans hj
    · have hsame : k'.sched.core j = k.sched.core j := by
        rw [hcore, Function.update_of_ne hji]
      have hfds : (k'.sched.core j).fds = (k.sched.core j).fds := by rw [hsame]
      have hst : (k'.sched.core j).state = .dead ↔ (k.sched.core j).state = .dead := by rw [hsame]
      exact (FdsKept.naming_eq (.inl ⟨hfds, hst⟩) fd').symm.trans hj
  have hc := h.balanced.count p w hact
  have hc' := h'.balanced.count p w (by rw [hends]; exact hact)
  rw [hends] at hc'
  omega

theorem wakeWaiters_ensure_fds (s : Sched) (pid : Int) (hand : Bool) (j : Slot) :
    ((s.wakeWaiters pid hand).ensureForegroundOwner.processTable j).fds
      = (s.processTable j).fds := by
  have hw : ((s.wakeWaiters pid hand).core j).fds = (s.core j).fds := by
    rw [Sched.wakeWaiters_core, Sched.wokenCore]
    split
    · cases hand <;> simp only [] <;> split <;> rfl
    · rfl
  generalize s.wakeWaiters pid hand = t at hw
  exact (t.ensureForegroundOwner_fgOnly.field j PCB.fds fun _ => rfl).trans hw

theorem leave_fds (s : Sched) (cur : Slot) (pid : Int) (hand : Bool) (j : Slot) :
    ((leave s cur pid hand).processTable j).fds = (s.processTable j).fds := by
  simp only [leave]
  refine (wakeWaiters_ensure_fds _ pid hand j).trans ?_
  exact fds_of_update (Sched.modify_core_of (f := ended)
    (s.removeFromReadyQueue_requeued cur).core cur (fun p => (ended p).core) fun _ => rfl) rfl j

theorem leave_dead {s : Sched} {cur : Slot} (hd : (s.processTable cur).state ≠ .dead) (pid : Int)
    (hand : Bool) (j : Slot) :
    ((leave s cur pid hand).processTable j).state = .dead ↔
      (s.processTable j).state = .dead := by
  have hl := congrArg Life.state (leave_life s cur pid hand j)
  generalize leave s cur pid hand = t at hl ⊢
  show (t.life j).state = .dead ↔ (s.life j).state = .dead
  rw [hl, Life.woken_dead]
  split
  · rename_i hj
    rw [hj]
    exact iff_of_false (by rintro ⟨⟩) hd
  · rfl

theorem bury_fds (s : Sched) (i : Slot) (pid : Int) (j : Slot) :
    ((bury s i pid).processTable j).fds = (s.processTable j).fds := by
  simp only [bury]
  refine (wakeWaiters_ensure_fds _ pid false j).trans ?_
  have h1 : ((s.modify i killed).processTable j).fds = (s.processTable j).fds :=
    s.modify_field i j killed PCB.fds rfl
  split
  · exact (Sched.modify_field _ i j (fun p => { p with stackBase := 0 }) PCB.fds rfl).trans h1
  · exact h1

/-- Only the foreground flag and the exit status change. -/
theorem exitPrep_sameFds (cur : Slot) (status : Int) (j : Slot) :
    SameFds k (k.exitPrep cur status) j := by
  have hfg := Sched.restoreParentForeground_fgOnly (k.sched.modify cur (setExitStatus status)) cur
  refine ⟨(hfg.field j PCB.fds fun _ => rfl).trans ?_, ?_⟩
  · exact k.sched.modify_field cur j _ PCB.fds rfl
  · refine iff_of_eq (congrArg (· = ProcState.dead) ?_)
    exact (hfg.field j PCB.state fun _ => rfl).trans (k.sched.modify_field cur j _ PCB.state rfl)

theorem killPrep_sameFds (i : Slot) (pid : Int) (j : Slot) :
    SameFds k (k.killPrep i pid) j := by
  have hfg := Sched.restoreParentForeground_fgOnly (k.sched.removeFromReadyQueue i) i
  have hcore := (k.sched.removeFromReadyQueue_requeued i).core
  refine ⟨(hfg.field j PCB.fds fun _ => rfl).trans (fds_of_core hcore j), ?_⟩
  refine iff_of_eq (congrArg (· = ProcState.dead) ?_)
  refine (hfg.field j PCB.state fun _ => rfl).trans ?_
  rw [hcore]
  rfl

theorem closeProcessFds_dead (i j : Slot) :
    ((k.closeProcessFds i).proc j).state = .dead ↔ (k.proc j).state = .dead := by
  unfold closeProcessFds
  generalize List.finRange maxFds = l
  induction l generalizing k with
  | nil => rfl
  | cons fd l ih => exact ih.trans (closeFd_dead i j fd)

theorem schedulerExitCurrent_accounted (hs : Sound k) (h : Accounted k) (status : Int) :
    Accounted (k.schedulerExitCurrent status) := by
  simp only [schedulerExitCurrent]
  split
  · exact h
  · have h1 : Accounted (k.exitPrep k.sched.currentIdx status) :=
      h.of_quiet rfl fun j => .inl (exitPrep_sameFds _ status j)
    have hd : ((k.exitPrep k.sched.currentIdx status).proc k.sched.currentIdx).state ≠ .dead :=
      fun e => hs.pids.current ((exitPrep_sameFds _ status _).2.mp e)
    have h2 := closeProcessFds_accounted h1 hd
    have hd2 := (closeProcessFds_dead k.sched.currentIdx k.sched.currentIdx).not.mpr hd
    generalize (k.exitPrep k.sched.currentIdx status).closeProcessFds k.sched.currentIdx = k₂
      at h2 hd2 ⊢
    refine h2.of_quiet (ends_eq (.onSched _ _)) fun j => .inl ?_
    unfold SameFds
    rw [onSched_proc]
    exact ⟨leave_fds _ _ _ _ j, leave_dead hd2 _ _ j⟩

theorem killOther_accounted (h : Accounted k) {i : Slot} {pid : Int}
    (hi : k.sched.findIndexByPid pid = some i) : Accounted (k.killOther i pid) := by
  have h1 : Accounted (k.killPrep i pid) :=
    h.of_quiet rfl fun j => .inl (killPrep_sameFds i pid j)
  have hd : ((k.killPrep i pid).proc i).state ≠ .dead :=
    fun e => (Sched.findIndexByPid_some hi).2 ((killPrep_sameFds i pid i).2.mp e)
  have h2 := closeProcessFds_accounted h1 hd
  have hclosed := fun fd => ((k.killPrep i pid).closeProcessFds_fds i i fd).trans (if_pos rfl)
  unfold killOther
  generalize (k.killPrep i pid).closeProcessFds i = k₂ at h2 hclosed ⊢
  refine h2.of_quiet (ends_eq (.onSched _ _)) fun j => ?_
  have hl := congrArg Life.state (bury_life k₂.sched i pid j)
  have hfds := bury_fds k₂.sched i pid j
  unfold FdsKept SameFds Unbound
  rw [onSched_proc]
  generalize bury k₂.sched i pid = t at hl hfds ⊢
  have hl' : (t.processTable j).state = .dead ↔ (if j = i then (k₂.sched.life i).killed
      k₂.sched.idleStack else k₂.sched.life j).state = .dead := by
    rw [← Life.woken_dead, ← hl]
    rfl
  rw [hl']
  by_cases hj : j = i
  · subst hj
    rw [if_pos rfl]
    refine .inr ⟨.inr fun fd => ?_, .inl rfl⟩
    rw [hclosed]
    decide
  · rw [if_neg hj]
    exact .inl ⟨hfds, Iff.rfl⟩

theorem schedulerKill_accounted (hs : Sound k) (h : Accounted k) (pid : Int) :
    Accounted (k.schedulerKill pid).1 := by
  simp only [schedulerKill]
  split
  · exact h
  · split
    · exact h
    · rename_i i hi
      split
      · exact schedulerExitCurrent_accounted hs h (-1)
      · exact killOther_accounted h hi

/-! ### Runs -/

/-- A direct `pipe_close` gives up a reserved end. -/
def ClosesReserved (k : Kernel) : Op → Prop
  | .pipeClose pipeId w => ∀ p, k.validPipe pipeId = some p → 0 < k.ends.reserved p w
  | _ => True

/-- A `scheduler_wait` reaps no process with a pipe descriptor. -/
def ReapsClosed (k : Kernel) : Op → Prop
  | .wait pid => k.ReapsUnbound pid
  | _ => True

/-- **Every piece of kernel code keeps the accounts.** -/
theorem exec_accounted (hs : Sound k) (h : Accounted k) {op : Op} (hclose : k.ClosesReserved op)
    (hreap : k.ReapsClosed op) : Accounted (k.exec op) := by
  have hsame : op.Plain → ∀ j, FdsKept k (k.exec op) j := fun hop j => .inl (exec_sameFds hs hop j)
  have hnaming : op.Plain → (k.exec op).naming = k.naming :=
    fun hop => funext fun ⟨j, fd⟩ => (hsame hop j).naming_eq fd
  have hbound : op.Plain → ∀ i fd, ((k.exec op).proc i).state ≠ .dead →
      (((k.exec op).proc i).fds fd).WellFormed :=
    fun hop i fd => (exec_sameFds hs hop i).wellFormed (h.bound i fd)
  cases op with
  | create name pr fg stack => exact create_accounted h name pr fg stack
  | kill pid => exact schedulerKill_accounted hs h pid
  | killForeground =>
      simp only [exec, schedulerKillForeground]
      split
      · exact h
      · exact schedulerKill_accounted hs h _
  | wait pid => exact wait_accounted hs h hreap
  | exit status => exact schedulerExitCurrent_accounted hs h status
  | pipeSetFd pid fd pipeId w => exact syscallPipeSetFd_accounted h pid fd pipeId w
  | pipeOpen c =>
      refine ⟨?_, hbound trivial⟩
      rw [hnaming trivial]
      rcases k.pipeOpenWithCapacity_ends c with he | ⟨p, hp, -, he⟩
      · simp only [exec, he]
        exact h.balanced
      · exact he ▸ h.balanced.launch hp
  | pipeClose pipeId w =>
      refine ⟨?_, hbound trivial⟩
      rw [hnaming trivial]
      rcases hp : k.validPipe pipeId with - | p
      · simp only [exec, pipeClose, hp]
        exact h.balanced
      · have he := k.pipeClose_ends hp w
        exact he ▸ h.balanced.cancel (k.validPipe_some hp).1 (hclose p hp)
  | semOpen name v => exact h.of_quiet (ends_eq (.semOpen k name v)) (hsame trivial)
  | semWait semId => exact h.of_quiet (ends_eq (.semWait k semId)) (hsame trivial)
  | semPost semId => exact h.of_quiet (ends_eq (.semPost k semId)) (hsame trivial)
  | semPostAll semId => exact h.of_quiet (ends_eq (.semPostAll k semId)) (hsame trivial)
  | semClose semId => exact h.of_quiet (ends_eq (.semClose k semId)) (hsame trivial)
  | pipeRead p => exact h.of_quiet (k.pipeReadStep_ends p) (hsame trivial)
  | pipeWrite p c => exact h.of_quiet (k.pipeWriteStep_ends p c) (hsame trivial)
  | _ => exact h.of_quiet rfl (hsame trivial)

theorem init_accounted (idleStack : Nat) : Accounted (init idleStack) := by
  have hfds : ∀ i, (init idleStack).Unbound i := by
    intro i
    right
    intro fd
    simp only [proc, init, Sched.schedulerInit]
    split <;> exact ⟨(by rintro ⟨⟩), (by rintro ⟨⟩)⟩
  have hoff : ∀ p, (init idleStack).ends.active p ≠ true := fun _ => Bool.false_ne_true
  refine ⟨⟨?_, ?_, ?_, ?_⟩, fun i fd hi => ((hfds i).resolve_left hi fd).wellFormed⟩
  · exact fun p w hp => absurd hp (hoff p)
  · intro p w hpos
    obtain ⟨⟨i, fd⟩, hx⟩ := exists_of_names_pos hpos
    rw [(hfds i).naming_eq] at hx
    cases hx
  · exact fun p hp => absurd hp (hoff p)
  · exact fun p w hp => absurd hp (hoff p)

/-- The descriptor of one end of a pipe. -/
def descriptor (p : Fin maxPipes) (w : Bool) : FileDescriptor :=
  ⟨if w then .pipeWrite else .pipeRead, p.val⟩

/-- How many descriptors of processes that are not dead name the end. -/
def descriptors (k : Kernel) (p : Fin maxPipes) (w : Bool) : Nat :=
  (Finset.univ.filter fun x : Slot × Fin maxFds =>
    (k.proc x.1).state ≠ .dead ∧ (k.proc x.1).fds x.2 = descriptor p w).card

theorem endOf_eq_some {d : FileDescriptor} {p : Fin maxPipes} {w : Bool} :
    endOf d = some (p, w) ↔ d = descriptor p w := by
  constructor
  · obtain ⟨type, pipeId⟩ := d
    intro h
    unfold endOf at h
    rcases type with - | - | - | - | -
    · cases h
    · cases h
    · cases h
    all_goals
      obtain ⟨q, hq, he⟩ := Option.map_eq_some_iff.mp h
      obtain ⟨rfl, rfl⟩ := Prod.mk.inj he
      rw [descriptor, ← index?_eq_some hq]
      rfl
  · rintro rfl
    unfold endOf descriptor
    rw [index?_natCast]
    cases w <;> rfl

theorem names_naming (p : Fin maxPipes) (w : Bool) :
    names k.naming (p, w) = k.descriptors p w := by
  refine congrArg Finset.card (Finset.filter_congr fun x _ => ?_)
  unfold naming
  split
  · rename_i hd
    exact iff_of_false (by rintro ⟨⟩) fun h => h.1 hd
  · rename_i hd
    rw [endOf_eq_some, and_iff_right hd]

instance (k : Kernel) : DecidablePred k.ClosesReserved := fun op => by
  induction op using Op.casesOn <;> dsimp only [ClosesReserved] <;> infer_instance

instance (k : Kernel) (pid : Int) : Decidable (k.ReapsUnbound pid) :=
  inferInstanceAs (Decidable (∀ _, _ → _ → _ → _))

instance (k : Kernel) : DecidablePred k.ReapsClosed := fun op => by
  induction op using Op.casesOn <;> dsimp only [ReapsClosed] <;> infer_instance

end Kernel

end TP2Kernel
