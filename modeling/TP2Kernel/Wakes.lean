/-
TP2Kernel/Wakes.lean

What posting and closing can do to processes.  Every post ends in
`scheduler_unblock` of a pid taken from the queue of an active semaphore, so
the scheduler moves by `make_ready` on blocked processes whose pid was waiting
(`Wakes`), and the queues only shrink.  `Releases` lists the single steps, for
one post as for the whole of `pipe_close`; what each of them keeps, every call
that closes descriptors keeps (`closeProcessFds_invariant`).
-/
import TP2Kernel.SchedulerCore
import TP2Kernel.Calls
import Mathlib.Logic.Relation

namespace TP2Kernel

/-! ### Waking -/

/-- One blocked process with a pid in `S` is made ready. -/
def Wake (S : Int → Prop) (s s' : Sched) : Prop :=
  ∃ i, (s.core i).state = .blocked ∧ S (s.core i).pid ∧ s' = s.makeReady i true

/-- Blocked processes with pids in `S` are made ready one after the other. -/
def Wakes (S : Int → Prop) : Sched → Sched → Prop := Relation.ReflTransGen (Wake S)

namespace Wakes

variable {S S' : Int → Prop} {s s' s'' : Sched}

theorem refl (s : Sched) : Wakes S s s := Relation.ReflTransGen.refl

theorem trans (h : Wakes S s s') (h' : Wakes S s' s'') : Wakes S s s'' :=
  Relation.ReflTransGen.trans h h'

theorem mono (h : Wakes S s s') (hS : ∀ pid, S pid → S' pid) : Wakes S' s s' := by
  induction h with
  | refl => exact Wakes.refl s
  | tail _ hw ih =>
      obtain ⟨i, hb, hp, rfl⟩ := hw
      exact Relation.ReflTransGen.tail ih ⟨i, hb, hS _ hp, rfl⟩

/-- What every wake-up keeps. -/
theorem invariant {P : Sched → Prop} (h : Wakes S s s') (hs : P s)
    (hstep : ∀ t i, P t → (t.core i).state = .blocked → S (t.core i).pid →
      P (t.makeReady i true)) : P s' := by
  induction h with
  | refl => exact hs
  | tail _ hw ih =>
      obtain ⟨i, hb, hp, rfl⟩ := hw
      exact hstep _ i ih hb hp

theorem frame (h : Wakes S s s') : Frame s s' :=
  h.invariant (.refl s) fun t i ht _ _ => ht.trans (t.makeReady_frame i true)

/-- A process is left alone, or was blocked with a pid in `S` and is ready
now. -/
theorem core (h : Wakes S s s') (j : Slot) :
    s'.core j = s.core j ∨
      (s.core j).state = .blocked ∧ S (s.core j).pid ∧ s'.core j = (s.core j).setState .ready := by
  refine h.invariant (P := fun t => t.core j = s.core j ∨ (s.core j).state = .blocked ∧
    S (s.core j).pid ∧ t.core j = (s.core j).setState .ready) (.inl rfl) ?_
  intro t i ht hb hp
  rw [t.makeReady_core]
  split
  · by_cases hji : j = i
    · subst hji
      rw [Function.update_self]
      rcases ht with ht | ⟨-, -, ht⟩
      · rw [ht] at hb hp ⊢
        exact .inr ⟨hb, hp, rfl⟩
      · rw [ht] at hb
        cases hb
    · rw [Function.update_of_ne hji]
      exact ht
  · exact ht

/-- Waking changes the state of a process only. -/
theorem field (h : Wakes S s s') (j : Slot) {α : Type} (g : PCB → α)
    (hg : ∀ p, g (p.setState .ready) = g p) : g (s'.core j) = g (s.core j) := by
  rcases h.core j with hc | ⟨-, -, hc⟩
  · rw [hc]
  · rw [hc, hg]

end Wakes

theorem Sched.schedulerUnblock_wakes {S : Int → Prop} (s : Sched) {pid : Int} (h : S pid) :
    Wakes S s (s.schedulerUnblock pid) := by
  unfold schedulerUnblock
  rcases hb : s.findBlocked pid with - | i
  · exact Wakes.refl s
  · obtain ⟨hpid, hst⟩ := findBlocked_some hb
    exact Relation.ReflTransGen.single ⟨i, hst, hpid ▸ h, rfl⟩

/-! ### Posts -/

/-- The pid waits in an active semaphore. -/
def Kernel.Waiting (k : Kernel) (pid : Int) : Prop :=
  ∃ i, (k.semTable i).active = true ∧ pid ∈ (k.semTable i).waiting.map Prod.fst

instance (k : Kernel) (pid : Int) : Decidable (k.Waiting pid) :=
  inferInstanceAs (Decidable (∃ _, _ ∧ _))

theorem map_fst_ageWaitersExcept (ws : List (Int × Int)) (n : Nat) :
    (ageWaitersExcept ws n).map Prod.fst = ws.map Prod.fst := by
  unfold ageWaitersExcept
  refine List.ext_getElem (by simp) fun i h₁ h₂ => ?_
  simp only [List.getElem_map, List.getElem_mapIdx]
  split <;> rfl

theorem map_fst_released (ws : List (Int × Int)) (b : Nat) :
    (Kernel.released ws b).map Prod.fst = (ws.map Prod.fst).eraseIdx b := by
  rw [Kernel.released, ← List.eraseIdx_map, map_fst_ageWaitersExcept]

/-- Release the waiter with index `b`. -/
def Kernel.grant (k : Kernel) (i : Fin maxSemaphores) (b : Nat) : Kernel :=
  { k.modifySem i (fun m => m.setWaiting (Kernel.released m.waiting b)) with
    sched := k.sched.schedulerUnblock ((k.semTable i).waiting.getD b (0, 0)).1 }

/-- One thing that posting and closing do: change a pipe, change a semaphore
with its queue kept or emptied, give one up, or release a waiter. -/
inductive Release (k : Kernel) : Kernel → Prop
  | pipes {k' : Kernel} (hs : k'.sched = k.sched) (ht : k'.semTable = k.semTable) : Release k k'
  | counts (i : Fin maxSemaphores) {f : Semaphore → Semaphore}
      (hact : (f (k.semTable i)).active = (k.semTable i).active)
      (hw : (f (k.semTable i)).waiting = (k.semTable i).waiting ∨
        (f (k.semTable i)).waiting = []) : Release k (k.modifySem i f)
  | closes (i : Fin maxSemaphores) {f : Semaphore → Semaphore}
      (hact : (f (k.semTable i)).active = false) (hw : (f (k.semTable i)).waiting = []) :
      Release k (k.modifySem i f)
  | grants (i : Fin maxSemaphores) (b : Nat) (hact : (k.semTable i).active = true)
      (hb : b < (k.semTable i).waiting.length) : Release k (k.grant i b)

/-- Waiting processes were woken and nobody was added to a queue. -/
def Releases : Kernel → Kernel → Prop := Relation.ReflTransGen Release

namespace Releases

variable {k k' k'' : Kernel}

theorem refl (k : Kernel) : Releases k k := Relation.ReflTransGen.refl

theorem single (h : Release k k') : Releases k k' := Relation.ReflTransGen.single h

theorem trans (h : Releases k k') (h' : Releases k' k'') : Releases k k'' :=
  Relation.ReflTransGen.trans h h'

/-- A change of the pipes. -/
theorem of_eq (hs : k'.sched = k.sched) (ht : k'.semTable = k.semTable) : Releases k k' :=
  single (.pipes hs ht)

/-- What every release keeps. -/
theorem invariant {P : Kernel → Prop} (h : Releases k k') (hk : P k)
    (hstep : ∀ k k', P k → Release k k' → P k') : P k' := by
  induction h with
  | refl => exact hk
  | tail _ hr ih => exact hstep _ _ ih hr

end Releases

/-- One change of a semaphore that adds nobody to its queue. -/
theorem Kernel.waiting_of_modifySem {k : Kernel} {i : Fin maxSemaphores}
    {f : Semaphore → Semaphore}
    (hf : (f (k.semTable i)).active = true → (k.semTable i).active = true ∧
      (f (k.semTable i)).waiting.map Prod.fst ⊆ (k.semTable i).waiting.map Prod.fst) {pid : Int}
    (h : (k.modifySem i f).Waiting pid) : k.Waiting pid := by
  obtain ⟨j, hact, hmem⟩ := h
  by_cases hji : j = i
  · subst hji
    rw [Kernel.modifySem_self] at hact hmem
    exact ⟨j, (hf hact).1, (hf hact).2 hmem⟩
  · rw [Kernel.modifySem_of_ne _ _ _ _ hji] at hact hmem
    exact ⟨j, hact, hmem⟩

theorem Release.shrink {k k' : Kernel} (h : Release k k') {pid : Int} (hp : k'.Waiting pid) :
    k.Waiting pid := by
  cases h with
  | pipes hs ht =>
      unfold Kernel.Waiting at hp
      rw [ht] at hp
      exact hp
  | counts i hact hw =>
      refine Kernel.waiting_of_modifySem (fun ha => ⟨hact.symm.trans ha, ?_⟩) hp
      rcases hw with hw | hw
      · rw [hw]
        exact List.Subset.refl _
      · rw [hw]
        exact List.nil_subset _
  | closes i hact hw =>
      refine Kernel.waiting_of_modifySem (fun ha => ?_) hp
      rw [hact] at ha
      cases ha
  | grants i b hact hb =>
      refine Kernel.waiting_of_modifySem (i := i)
        (f := fun m => m.setWaiting (Kernel.released m.waiting b)) (fun ha => ⟨ha, ?_⟩) hp
      rw [Semaphore.setWaiting_waiting, map_fst_released]
      exact List.eraseIdx_subset

theorem Release.wakes {k k' : Kernel} (h : Release k k') : Wakes k.Waiting k.sched k'.sched := by
  cases h with
  | pipes hs _ => exact hs ▸ Wakes.refl _
  | counts i _ _ => exact Wakes.refl _
  | closes i _ _ => exact Wakes.refl _
  | grants i b hact hb =>
      refine Sched.schedulerUnblock_wakes _ ⟨i, hact, List.mem_map.mpr ⟨_, ?_, rfl⟩⟩
      rw [List.getD_eq_getElem _ _ hb]
      exact List.getElem_mem hb

namespace Releases

variable {k k' : Kernel}

/-- Nobody is added to a queue, and those woken were waiting. -/
theorem shrink_wakes (h : Releases k k') :
    (∀ pid, k'.Waiting pid → k.Waiting pid) ∧ Wakes k.Waiting k.sched k'.sched := by
  refine h.invariant (P := fun k' => (∀ pid, k'.Waiting pid → k.Waiting pid) ∧
    Wakes k.Waiting k.sched k'.sched) ⟨fun _ h => h, Wakes.refl _⟩ ?_
  rintro k₁ k₂ ⟨hs, hw⟩ hr
  exact ⟨fun pid hp => hs pid (hr.shrink hp), hw.trans (hr.wakes.mono hs)⟩

theorem shrink (h : Releases k k') : ∀ pid, k'.Waiting pid → k.Waiting pid := h.shrink_wakes.1

theorem wakes (h : Releases k k') : Wakes k.Waiting k.sched k'.sched := h.shrink_wakes.2

end Releases

namespace Kernel

variable (k : Kernel)

/-- **`unblock_one_waiter`**: the queue is emptied if no waiter is a blocked
process, otherwise one is released. -/
theorem unblockOneWaiter_release {i : Fin maxSemaphores}
    (hact : (k.semTable i).active = true) : Release k (k.unblockOneWaiter i) := by
  rw [unblockOneWaiter_eq]
  rcases hb : bestWaiter k.sched (k.semTable i).waiting 0 none (-1) with - | b
  · exact .counts i rfl (.inr rfl)
  · obtain ⟨n, hn, hlt, -⟩ := (bestWaiter_some hb).resolve_left fun h => by cases h
    rw [Nat.zero_add] at hn
    subst hn
    exact .grants i b hact hlt

theorem unblockOneWaiter_active (i j : Fin maxSemaphores) :
    ((k.unblockOneWaiter i).semTable j).active = (k.semTable j).active := by
  rw [unblockOneWaiter_eq]
  split
  · exact k.modifySem_field i j (g := Semaphore.active) fun _ => rfl
  · rename_i b _
    exact k.modifySem_field i j (g := Semaphore.active)
      (f := fun m => m.setWaiting (released m.waiting b)) fun _ => rfl

theorem addValue_releases (i : Fin maxSemaphores) (d : Int) :
    Releases k (k.modifySem i fun m => m.addValue d) :=
  .single (.counts i rfl (.inl rfl))

theorem semPost_releases (semId : Int) : Releases k (k.semPost semId).1 := by
  simp only [semPost]
  split
  · exact .refl k
  · rename_i i hi
    split
    · refine (k.addValue_releases i 1).trans (.single (unblockOneWaiter_release _ ?_))
      rw [modifySem_self]
      exact (k.validSem_some hi).1
    · exact k.addValue_releases i 1

theorem postAllLoop_releases {i : Fin maxSemaphores} (n : Nat)
    (hact : (k.semTable i).active = true) : Releases k (postAllLoop i n k) := by
  induction n generalizing k with
  | zero => exact .refl k
  | succ n ih =>
      simp only [postAllLoop]
      split
      · exact .refl k
      · have hact1 : ((k.modifySem i fun s => s.addValue 1).semTable i).active
            = true := by
          rw [modifySem_self]
          exact hact
        refine ((k.addValue_releases i 1).trans (.single (unblockOneWaiter_release _ hact1))).trans
          (ih _ ?_)
        rw [unblockOneWaiter_active]
        exact hact1

theorem semPostAll_releases (semId : Int) : Releases k (k.semPostAll semId).1 := by
  simp only [semPostAll]
  split
  · exact .refl k
  · rename_i i hi
    have h1 := k.postAllLoop_releases (k.semTable i).waiting.length (k.validSem_some hi).1
    split
    · exact h1.trans (.single (.counts i (f := fun m => { m with value := 0 }) rfl (.inl rfl)))
    · exact h1

theorem semClose_releases (semId : Int) : Releases k (k.semClose semId).1 := by
  simp only [semClose]
  split
  · exact .refl k
  · rename_i i hi
    have h1 : Releases k (k.modifySem i fun s => { s with refCount := s.refCount - 1 }) :=
      .single (.counts i rfl (.inl rfl))
    split
    · exact h1.trans (.single (.closes i (f := fun m => { m with active := false, waiting := [] })
        rfl rfl))
    · exact h1

/-! ### Closing a pipe -/

theorem dropEnd_releases (p : Fin maxPipes) (w : Bool) : Releases k (k.dropEnd p w) := by
  unfold dropEnd
  split <;> exact .of_eq rfl rfl

theorem closePosts_releases (p : Fin maxPipes) (w : Bool) : Releases k (k.closePosts p w) := by
  simp only [closePosts]
  split
  · split
    · exact k.semPostAll_releases _
    · split
      · exact k.semPost_releases _
      · exact .refl k
  · split
    · exact k.semPostAll_releases _
    · split
      · exact k.semPost_releases _
      · exact .refl k

theorem retire_releases (p : Fin maxPipes) : Releases k (k.retire p) := by
  simp only [retire]
  split
  · refine Releases.trans ?_ (semClose_releases _ _)
    refine Releases.trans ?_ (semClose_releases _ _)
    exact .of_eq rfl rfl
  · exact .refl k

/-- **`pipe_close`** wakes waiting processes and adds nobody to a queue. -/
theorem pipeClose_releases (pipeId : Int) (w : Bool) : Releases k (k.pipeClose pipeId w).1 := by
  simp only [pipeClose]
  split
  · exact .refl k
  · exact ((k.dropEnd_releases _ w).trans (closePosts_releases _ _ w)).trans (retire_releases _ _)

theorem pipeAttach_releases (pipeId : Int) (w : Bool) :
    Releases k (k.pipeAttach pipeId w).1 :=
  .of_eq (k.pipeAttach_sched pipeId w) (k.pipeAttach_semTable pipeId w)

theorem modifyPipe_releases (p : Fin maxPipes) (f : Pipe → Pipe) :
    Releases k (k.modifyPipe p f) := .of_eq rfl rfl

theorem releaseFd_releases (d : FileDescriptor) : Releases k (k.releaseFd d) := by
  unfold releaseFd
  split
  · exact k.pipeClose_releases _ _
  · exact k.pipeClose_releases _ _
  · exact .refl k

/-- **`close_process_fds`** keeps what releases and changes of descriptors
keep. -/
theorem closeProcessFds_invariant {P : Kernel → Prop} {k : Kernel} {i : Slot} (h : P k)
    (hrel : ∀ k k', P k → Releases k k' → P k')
    (hfd : ∀ k fd d, P k → P (k.onSched fun s => s.modify i (setFd fd d))) :
    P (k.closeProcessFds i) := by
  unfold closeProcessFds
  generalize List.finRange maxFds = fds
  induction fds generalizing k with
  | nil => exact h
  | cons fd fds ih =>
      exact ih (hfd _ fd _ (hrel _ _ h (k.releaseFd_releases _)))

/-- The pieces that wake waiting processes and take entries out of queues, and no more. -/
def Op.Releasing : Op → Prop
  | .semPost _ | .semPostAll _ | .semClose _ | .pipeClose _ _ => True
  | _ => False

/-- The pieces of which the scheduler sees no more than that processes are woken. -/
def Op.Waking : Op → Prop
  | .semOpen _ _ | .pipeOpen _ => True
  | op => op.Releasing

theorem exec_releases (k : Kernel) (op : Op) (hop : op.Releasing) : Releases k (k.exec op) := by
  cases op with
  | semPost semId => exact k.semPost_releases semId
  | semPostAll semId => exact k.semPostAll_releases semId
  | semClose semId => exact k.semClose_releases semId
  | pipeClose pipeId w => exact k.pipeClose_releases pipeId w
  | _ => cases hop

theorem exec_wakes (k : Kernel) (op : Op) (hop : op.Waking) :
    Wakes k.Waiting k.sched (k.exec op).sched := by
  have hreleases := k.exec_releases op
  cases op with
  | semOpen name v =>
      simp only [exec, semOpen_sched]
      exact .refl _
  | pipeOpen c =>
      simp only [exec, pipeOpenWithCapacity_sched]
      exact .refl _
  | _ => exact (hreleases hop).wakes

/-- **`syscall_pipe_set_fd`** refuses, or releases and then binds one descriptor. -/
theorem syscallPipeSetFd_invariant {P : Kernel → Prop} {k : Kernel} (h : P k)
    (hbind : ∀ k' i fd d, Releases k k' → P (k'.onSched fun s => s.modify i (setFd fd d)))
    (pid : Int) (fd : Nat) (pipeId : Int) (w : Bool) :
    P (k.syscallPipeSetFd pid fd pipeId w).1 := by
  have hcase := k.syscallPipeSetFd_cases pid fd pipeId w
  generalize k.syscallPipeSetFd pid fd pipeId w = r at hcase
  cases hcase with
  | refused => exact h
  | binds i n p _ _ _ =>
      exact hbind _ i n _ ((k.pipeAttach_releases pipeId w).trans (releaseFd_releases _ _))

theorem closeProcessFds_frame (idx : Slot) : Frame k.sched (k.closeProcessFds idx).sched :=
  closeProcessFds_invariant (P := fun k' => Frame k.sched k'.sched) (.refl _)
    (fun _ _ h hr => h.trans hr.wakes.frame) fun _ _ _ h => h.trans (.modify _ _ _)

/-- `sem_remove_waiting_pid` takes out the entries of one pid. -/
theorem waiting_semRemoveWaitingPid (pid pid' : Int) :
    (k.semRemoveWaitingPid pid).Waiting pid' ↔ k.Waiting pid' ∧ pid' ≠ pid := by
  have hmem : ∀ ws : List (Int × Int),
      pid' ∈ (removePid ws pid).map Prod.fst ↔ pid' ∈ ws.map Prod.fst ∧ pid' ≠ pid := by
    intro ws
    simp only [removePid, List.mem_map, List.mem_filter, decide_eq_true_eq]
    constructor
    · rintro ⟨w, ⟨hw, hne⟩, rfl⟩
      exact ⟨⟨w, hw, rfl⟩, hne⟩
    · rintro ⟨⟨w, hw, rfl⟩, hne⟩
      exact ⟨w, ⟨hw, hne⟩, rfl⟩
  have hi : ∀ i, (((k.semRemoveWaitingPid pid).semTable i).active = true ∧
        pid' ∈ ((k.semRemoveWaitingPid pid).semTable i).waiting.map Prod.fst) ↔
      ((k.semTable i).active = true ∧ pid' ∈ (k.semTable i).waiting.map Prod.fst) ∧
        pid' ≠ pid := by
    intro i
    simp only [semRemoveWaitingPid]
    by_cases ha : (k.semTable i).active = true
    · rw [if_pos ha, Semaphore.addValue_active, Semaphore.setWaiting_active,
        Semaphore.addValue_waiting, Semaphore.setWaiting_waiting, hmem, and_assoc]
    · rw [if_neg ha]
      exact iff_of_false (fun h => ha h.1) fun h => ha h.1.1
  unfold Waiting
  constructor
  · rintro ⟨i, h⟩
    exact ⟨⟨i, ((hi i).mp h).1⟩, ((hi i).mp h).2⟩
  · rintro ⟨⟨i, h⟩, hne⟩
    exact ⟨i, (hi i).mpr ⟨h, hne⟩⟩

end Kernel

end TP2Kernel
