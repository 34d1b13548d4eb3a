/-
TP2Kernel/ExitNotice.lean

The end of a child is never missed.  `scheduler_wait` leaves the parent
`BLOCKED` with the pid of the child in `waiting_for`, and the exit or the kill
of the child looks for exactly that.  The two can only miss each other if the
parent is made ready by something else and keeps the old `waiting_for`, or if it
waits for a child that has already ended.

The first is a matter of the semaphores: whoever a post makes ready has paid
with an entry in a waiting queue (`Paid`), a process has at most one entry, and
none while it can run; so a process that waits for a child has none.
-/
import TP2Kernel.Dispatch
import TP2Kernel.WaitQueues
import Mathlib.Data.List.Perm.Basic
import Mathlib.Algebra.BigOperators.Group.Finset.Basic
import Mathlib.Algebra.Order.BigOperators.Group.Finset

namespace TP2Kernel

namespace Kernel

variable {k k' k'' : Kernel} {P : Int} {j : Slot}

/-! ### Entries -/

/-- The entries of a process in all waiting queues. -/
def tickets (k : Kernel) (pid : Int) : Nat :=
  ∑ i, ((k.semTable i).waiting.map Prod.fst).count pid

theorem tickets_of_table (h : k'.semTable = k.semTable) : k'.tickets P = k.tickets P := by
  unfold tickets
  rw [h]

theorem tickets_mono (h : ∀ i, ((k'.semTable i).waiting.map Prod.fst).count P ≤
    ((k.semTable i).waiting.map Prod.fst).count P) : k'.tickets P ≤ k.tickets P :=
  Finset.sum_le_sum fun i _ => h i

theorem tickets_pos (h : k.Waiting P) : 0 < k.tickets P := by
  obtain ⟨i, -, hi⟩ := h
  exact (List.count_pos_iff.mpr hi).trans_le
    (Finset.single_le_sum (f := fun i => ((k.semTable i).waiting.map Prod.fst).count P)
      (fun _ _ => Nat.zero_le _) (Finset.mem_univ i))

theorem tickets_modifySem (k : Kernel) (i : Fin maxSemaphores) (f : Semaphore → Semaphore) :
    (k.modifySem i f).tickets P + ((k.semTable i).waiting.map Prod.fst).count P =
      k.tickets P + ((f (k.semTable i)).waiting.map Prod.fst).count P := by
  unfold tickets
  rw [← Finset.add_sum_erase _ _ (Finset.mem_univ i), modifySem_self,
    ← Finset.add_sum_erase _ (fun n => ((k.semTable n).waiting.map Prod.fst).count P)
      (Finset.mem_univ i)]
  have hrest : ∑ n ∈ Finset.univ.erase i,
        (((k.modifySem i f).semTable n).waiting.map Prod.fst).count P =
      ∑ n ∈ Finset.univ.erase i, ((k.semTable n).waiting.map Prod.fst).count P := by
    refine Finset.sum_congr rfl fun n hn => ?_
    rw [modifySem_of_ne _ _ _ _ (Finset.ne_of_mem_erase hn)]
  rw [hrest]
  omega

theorem tickets_modifySem_le {i : Fin maxSemaphores} {f : Semaphore → Semaphore}
    (hf : ((f (k.semTable i)).waiting.map Prod.fst).count P ≤
      ((k.semTable i).waiting.map Prod.fst).count P) :
    (k.modifySem i f).tickets P ≤ k.tickets P := by
  have h := k.tickets_modifySem (P := P) i f
  omega

/-- Whoever is released has one entry less. -/
theorem count_released {ws : List (Int × Int)} {b : Nat} (hb : b < ws.length) :
    ((released ws b).map Prod.fst).count P + (if (ws.getD b (0, 0)).1 = P then 1 else 0) =
      (ws.map Prod.fst).count P := by
  have hb' : b < (ws.map Prod.fst).length := by
    rw [List.length_map]
    exact hb
  have hget : (ws.getD b (0, 0)).1 = (ws.map Prod.fst)[b] := by
    rw [List.getD_eq_getElem _ _ hb, List.getElem_map]
  rw [map_fst_released, hget, ← (List.getElem_cons_eraseIdx_perm hb').count_eq P, List.count_cons]
  simp only [beq_iff_eq]

/-! ### Posts -/

/-- A process that posts may make ready, at the price of an entry. -/
structure Paid (P : Int) (j : Slot) (k k' : Kernel) : Prop where
  tickets : k'.tickets P ≤ k.tickets P
  life : k'.life j = k.life j ∨
    k'.life j = (k.life j).setState .ready ∧ k'.tickets P < k.tickets P

namespace Paid

theorem refl (P : Int) (j : Slot) (k : Kernel) : Paid P j k k := ⟨le_refl _, .inl rfl⟩

theorem trans (h : Paid P j k k') (h' : Paid P j k' k'') : Paid P j k k'' := by
  refine ⟨h'.tickets.trans h.tickets, ?_⟩
  rcases h.life with hl | ⟨hl, hlt⟩
  · rw [← hl]
    rcases h'.life with hl' | ⟨hl', hlt'⟩
    · exact .inl hl'
    · exact .inr ⟨hl', hlt'.trans_le h.tickets⟩
  · refine .inr ⟨?_, h'.tickets.trans_lt hlt⟩
    rcases h'.life with hl' | ⟨hl', -⟩
    · rw [hl', hl]
    · rw [hl', hl]
      rfl

theorem pid (h : Paid P j k k') : (k'.life j).pid = (k.life j).pid := by
  rcases h.life with hl | ⟨hl, -⟩
  · rw [hl]
  · rw [hl]
    rfl

end Paid

theorem release_tickets (h : Release k k') : k'.tickets P ≤ k.tickets P := by
  cases h with
  | pipes _ ht => exact (tickets_of_table ht).le
  | counts i _ hw =>
      apply tickets_modifySem_le
      rcases hw with hw | hw
      · rw [hw]
      · rw [hw]
        exact Nat.zero_le _
  | closes i _ hw =>
      apply tickets_modifySem_le
      rw [hw]
      exact Nat.zero_le _
  | grants i b _ hb =>
      have hcount := count_released (P := P) hb
      exact tickets_modifySem_le (f := fun m => m.setWaiting (released m.waiting b))
        (Nat.le_of_add_right_le hcount.le)

theorem release_paid (h : Release k k') (hj : (k.life j).pid = P) : Paid P j k k' := by
  refine ⟨release_tickets h, ?_⟩
  cases h with
  | pipes hs _ =>
      left
      unfold life
      rw [hs]
  | counts => exact .inl rfl
  | closes => exact .inl rfl
  | grants i b _ hb =>
      by_cases hp : ((k.semTable i).waiting.getD b (0, 0)).1 = P
      · have hlt : (k.grant i b).tickets P < k.tickets P := by
          have hcount := count_released (P := P) hb
          have hsum := k.tickets_modifySem (P := P) i
            (fun m => m.setWaiting (released m.waiting b))
          rw [if_pos hp] at hcount
          rw [Semaphore.setWaiting_waiting] at hsum
          show (k.modifySem i fun m => m.setWaiting (released m.waiting b)).tickets P < _
          omega
        have hwakes : Wakes (fun _ => True) k.sched
            (k.sched.schedulerUnblock ((k.semTable i).waiting.getD b (0, 0)).1) :=
          k.sched.schedulerUnblock_wakes trivial
        rcases hwakes.life j with hl | ⟨-, -, hl⟩
        · exact .inl hl
        · exact .inr ⟨hl, hlt⟩
      · left
        refine unblock_life (k := k) ?_
        rw [hj]
        exact fun e => hp e.symm

theorem releases_tickets (h : Releases k k') : k'.tickets P ≤ k.tickets P :=
  h.invariant (P := fun k' => k'.tickets P ≤ k.tickets P) (le_refl _) fun _ _ h1 hr =>
    (release_tickets hr).trans h1

theorem releases_paid (h : Releases k k') (hj : (k.life j).pid = P) : Paid P j k k' :=
  h.invariant (P := fun k' => Paid P j k k') (.refl P j k) fun _ _ h1 hr =>
    h1.trans (release_paid hr (h1.pid.trans hj))

theorem closeProcessFds_paid (k : Kernel) (i : Slot) (hj : (k.life j).pid = P) :
    Paid P j k (k.closeProcessFds i) := by
  apply closeProcessFds_invariant (P := fun k' => Paid P j k k') (.refl P j k)
  · exact fun _ _ h1 hr => h1.trans (releases_paid hr (h1.pid.trans hj))
  · intro k₁ fd d h1
    refine h1.trans ⟨le_refl _, .inl ?_⟩
    rw [onSched_life, Sched.modify_life _ i (f := setFd fd d) fun _ => rfl]
    rfl

/-! ### Entries under the kernel's pieces -/

theorem semOpen_tickets (k : Kernel) (name : List UInt8) (v : Int) :
    (k.semOpen name v).1.tickets P ≤ k.tickets P := by
  simp only [semOpen]
  split
  · exact tickets_modifySem_le (f := fun s => { s with refCount := s.refCount + 1 }) (le_refl _)
  · split
    · exact le_refl _
    · exact tickets_modifySem_le (f := fun _ => ⟨name, v, [], true, 1⟩) (Nat.zero_le _)

theorem count_removePid (ws : List (Int × Int)) (pid : Int) :
    ((removePid ws pid).map Prod.fst).count P ≤ (ws.map Prod.fst).count P :=
  (removePid_sublist ws pid).count_le P

/-- A `sem_wait` of another process, or one that does not block. -/
theorem semWait_tickets {semId : Int} (h : (k.semWait semId).2 = 1 → k.sched.schedulerGetpid ≠ P) :
    (k.semWait semId).1.tickets P ≤ k.tickets P := by
  have hcase := k.semWait_cases semId
  generalize k.semWait semId = r at hcase h
  cases hcase with
  | refused _ => exact le_refl _
  | takes i _ _ => exact tickets_modifySem_le (f := fun m => m.addValue (-1)) (le_refl _)
  | full i _ _ _ =>
      exact tickets_modifySem_le
        (f := fun m => m.setWaiting (removePid m.waiting k.sched.schedulerGetpid))
        (count_removePid _ _)
  | parks i _ _ _ =>
      have hne := h rfl
      refine tickets_modifySem_le (f := fun m => Semaphore.park m k.sched.schedulerGetpid) ?_
      show (((removePid _ _) ++ [(k.sched.schedulerGetpid, 0)]).map Prod.fst).count P ≤ _
      rw [List.map_append, List.count_append, List.map_cons, List.map_nil, List.count_singleton]
      simp only [beq_iff_eq, if_neg hne]
      exact count_removePid _ _

/-- The caller of a `sem_wait` that blocks has one entry. -/
theorem semWait_tickets_self {semId : Int} (h : (k.semWait semId).2 = 1)
    (h0 : k.tickets k.sched.schedulerGetpid = 0) :
    (k.semWait semId).1.tickets k.sched.schedulerGetpid ≤ 1 := by
  have hcase := k.semWait_cases semId
  generalize k.semWait semId = r at hcase h
  cases hcase with
  | refused _ => exact absurd h (show ¬ (-1 : Int) = 1 by decide)
  | takes i _ _ => exact absurd h (show ¬ (0 : Int) = 1 by decide)
  | full i _ _ _ => exact absurd h (show ¬ (-1 : Int) = 1 by decide)
  | parks i _ _ _ =>
      have hsum := k.tickets_modifySem (P := k.sched.schedulerGetpid) i
        fun m => Semaphore.park m k.sched.schedulerGetpid
      have hout : ((removePid (k.semTable i).waiting k.sched.schedulerGetpid).map Prod.fst).count
          k.sched.schedulerGetpid = 0 :=
        List.count_eq_zero.mpr (not_mem_removePid _ _)
      have hpark : ((Semaphore.park (k.semTable i) k.sched.schedulerGetpid).waiting.map
          Prod.fst).count k.sched.schedulerGetpid = 1 := by
        show (((removePid _ _) ++ [(k.sched.schedulerGetpid, 0)]).map Prod.fst).count _ = 1
        rw [List.map_append, List.count_append, hout, List.map_cons, List.map_nil,
          List.count_singleton_self]
      show (k.modifySem i fun m => Semaphore.park m k.sched.schedulerGetpid).tickets _ ≤ 1
      omega

theorem semRemoveWaitingPid_tickets (k : Kernel) (pid : Int) :
    (k.semRemoveWaitingPid pid).tickets P ≤ k.tickets P := by
  apply tickets_mono
  intro i
  simp only [semRemoveWaitingPid]
  split
  · exact count_removePid _ _
  · exact le_refl _

theorem StepCases.tickets {α : Type} {p : Fin maxPipes} {own other : Int} {move : Pipe → Pipe}
    {dry shut live : Prop} {fl bl ag sp dn : α} {r : Kernel × α}
    (hr : k.StepCases p own other move dry shut live fl bl ag sp dn r)
    (hpark : r.2 = bl → k.sched.schedulerGetpid ≠ P) : r.1.tickets P ≤ k.tickets P := by
  cases hr with
  | waits _ =>
      refine semWait_tickets fun h1 => hpark ?_
      simp [waitSem, h1]
  | stops _ => exact le_refl _
  | moves _ => exact releases_tickets ((k.modifyPipe_releases p _).trans (semPost_releases _ _))

/-- **Entries come from waits only.** -/
theorem exec_tickets (k : Kernel) {op : Op} (hpark : k.Parks op → k.sched.schedulerGetpid ≠ P) :
    (k.exec op).tickets P ≤ k.tickets P := by
  have hrest : ¬ MayWait op → (k.exec op).tickets P ≤ k.tickets P := by
    intro hno
    have hclosed : SemClosed fun T =>
        ∑ i, ((T i).waiting.map Prod.fst).count P ≤ k.tickets P :=
      { opens := fun _ _ _ h => (semOpen_tickets _ _ _).trans h
        posts := fun k' semId h => (releases_tickets (k'.semPost_releases semId)).trans h
        postsAll := fun k' semId h => (releases_tickets (k'.semPostAll_releases semId)).trans h
        closes := fun k' semId h => (releases_tickets (k'.semClose_releases semId)).trans h
        removes := fun _ _ h => (semRemoveWaitingPid_tickets _ _).trans h }
    exact exec_semTable hclosed (le_refl _) op fun hmay => absurd hmay hno
  cases op with
  | semWait semId => exact semWait_tickets hpark
  | pipeRead p => exact (k.pipeReadStep_cases p).tickets hpark
  | pipeWrite p c => exact (k.pipeWriteStep_cases p c).tickets hpark
  | _ => exact hrest id

/-! ### Whoever a piece makes ready has paid -/

/-- What the end of another process makes of a process: ready if it was released
by a post on the way, or if it was waiting for this end. -/
theorem target_paid (hp : Pids k) {op : Op} {i : Slot} (ht : k.target op = some i)
    (hj : (k.life j).pid = P) (hne : j ≠ i) :
    ∃ l, (l = k.life j ∨ l = (k.life j).setState .ready ∧ (k.exec op).tickets P < k.tickets P) ∧
      (k.exec op).life j = l.woken (k.life i).pid j := by
  rcases exec_target hp ht with ⟨hcur, h0, hexec⟩ | ⟨-, hfind, -, hexec⟩
  · subst hcur
    have hprep := k.exitPrep_life k.sched.currentIdx (exitCode op) j
    rw [if_neg hne] at hprep
    have hpaid := closeProcessFds_paid (k.exitPrep k.sched.currentIdx (exitCode op))
      k.sched.currentIdx ((congrArg Life.pid hprep).trans hj)
    have htick : (k.exec op).tickets P = ((k.exitPrep k.sched.currentIdx
        (exitCode op)).closeProcessFds k.sched.currentIdx).tickets P := by
      rw [hexec, schedulerExitCurrent, if_neg h0]
      exact tickets_of_table (onSched_semTable _ _)
    have hprepT : (k.exitPrep k.sched.currentIdx (exitCode op)).tickets P = k.tickets P :=
      tickets_of_table rfl
    refine ⟨((k.exitPrep k.sched.currentIdx (exitCode op)).closeProcessFds
      k.sched.currentIdx).life j, ?_, ?_⟩
    · rw [htick, ← hprep, ← hprepT]
      exact hpaid.life
    · rw [hexec, schedulerExitCurrent, if_neg h0, onSched_life, leave_life, if_neg hne]
      rfl
  · have hprep := congrFun (k.killPrep_life i (k.life i).pid) j
    have hpaid := closeProcessFds_paid (k.killPrep i (k.life i).pid) i
      ((congrArg Life.pid hprep).trans hj)
    have htick : (k.exec op).tickets P =
        ((k.killPrep i (k.life i).pid).closeProcessFds i).tickets P := by
      rw [hexec, killOther]
      exact tickets_of_table (onSched_semTable _ _)
    have hprepT : (k.killPrep i (k.life i).pid).tickets P ≤ k.tickets P :=
      semRemoveWaitingPid_tickets _ _
    refine ⟨((k.killPrep i (k.life i).pid).closeProcessFds i).life j, ?_, ?_⟩
    · rw [htick, ← hprep]
      exact hpaid.life.imp_right fun hr => ⟨hr.1, hr.2.trans_le hprepT⟩
    · rw [hexec, killOther, onSched_life, bury_life, if_neg hne]
      rfl

theorem target_over (hp : Pids k) {op : Op} {i : Slot} (ht : k.target op = some i) :
    ((k.exec op).life i).state = .zombie ∨ ((k.exec op).life i).state = .dead := by
  rcases exec_target hp ht with ⟨rfl, h0, hexec⟩ | ⟨-, hfind, -, hexec⟩
  · obtain ⟨l, -, hl⟩ := k.schedulerExitCurrent_life h0 (exitCode op) k.sched.currentIdx
    left
    rw [hexec, hl, if_pos rfl]
    rfl
  · obtain ⟨l, -, hl⟩ := k.killOther_life hfind i
    right
    rw [hexec, hl, if_pos rfl]
    rfl

theorem StepCases.paid {α : Type} {p : Fin maxPipes} {own other : Int} {move : Pipe → Pipe}
    {dry shut live : Prop} {fl bl ag sp dn : α} {r : Kernel × α}
    (hr : k.StepCases p own other move dry shut live fl bl ag sp dn r)
    (hj : (k.life j).pid = P) (hb : (k.life j).state = .blocked) :
    (r.1.life j).state = .blocked ∨ r.1.tickets P < k.tickets P := by
  cases hr with
  | waits _ =>
      left
      -- a wait makes nobody ready
      have hstep : k.LifeStep (.semWait own) j ((k.semWait own).1.life j) :=
        k.semWait_lifeStep id j
      show ((k.semWait own).1.life j).state = .blocked
      generalize (k.semWait own).1.life j = l at hstep
      cases hstep with
      | keeps => exact hb
      | wakes _ hw =>
          rcases hw with ⟨hpost, -⟩ | he
          · exact absurd hpost id
          · cases he
      | releases ht _ _ => cases ht
      | parks => rfl
      | ends ht _ => cases ht
      | kills ht _ => cases ht
  | stops _ => exact .inl hb
  | moves _ =>
      have hpaid := releases_paid ((k.modifyPipe_releases p move).trans (semPost_releases _ other)) hj
      rcases hpaid.life with hl | ⟨-, hlt⟩
      · exact .inl ((congrArg Life.state hl).trans hb)
      · exact .inr hlt

/-- Idle is not ended by any call. -/
theorem target_pid_pos (hp : Pids k) {op : Op} {i : Slot} (ht : k.target op = some i) :
    0 < (k.life i).pid := by
  rcases target_some ht with ⟨hcur, h0, -⟩ | ⟨h1, -, -⟩
  · exact (hp.live i h0 (hcur ▸ hp.current)).1
  · omega

/-- **A blocked process that waits for no child is made ready by its entry in a
waiting queue**, or by `scheduler_unblock`. -/
theorem exec_wake (hs : Sound k) {op : Op} (hj : (k.life j).pid = P)
    (hb : (k.life j).state = .blocked) (hw : (k.life j).waitingFor ≤ 0)
    (hun : op ≠ .unblock P) (htick : ∀ rsp, op ≠ .tick rsp) :
    ¬ ((k.exec op).life j).Awake ∨ (k.exec op).tickets P < k.tickets P := by
  have hblocked : ∀ {l : Life}, l.state = .blocked → ¬ l.Awake := by
    rintro l hl (hr | hr)
    · cases hl.symm.trans hr
    · cases hl.symm.trans hr
  -- the ways to end a process
  have hends : (∃ status, op = .exit status) ∨ (∃ pid, op = .kill pid) ∨ op = .killForeground →
      ¬ ((k.exec op).life j).Awake ∨ (k.exec op).tickets P < k.tickets P := by
    intro hop
    rcases ht : k.target op with - | i
    · rw [exec_target_none ht hop]
      exact .inl (hblocked hb)
    · by_cases hij : j = i
      · subst hij
        left
        rintro (hr | hr)
        · rcases target_over hs.pids ht with he | he <;> cases he.symm.trans hr
        · rcases target_over hs.pids ht with he | he <;> cases he.symm.trans hr
      · obtain ⟨l, hl, hlife⟩ := target_paid hs.pids ht hj hij
        rcases hl with rfl | ⟨-, hlt⟩
        · left
          have hpos := target_pid_pos hs.pids ht
          rw [hlife, Life.woken, if_neg fun hc => by omega]
          exact hblocked hb
        · exact .inr hlt
  have hreleases : ∀ {k' : Kernel}, Releases k k' →
      ¬ (k'.life j).Awake ∨ k'.tickets P < k.tickets P := by
    intro k' hr
    rcases (releases_paid hr hj).life with hl | ⟨-, hlt⟩
    · rw [hl]
      exact .inl (hblocked hb)
    · exact .inr hlt
  have hother : ¬ Posts op → ¬ ((k.exec op).life j).Awake ∨ (k.exec op).tickets P < k.tickets P :=
    fun hpost => .inl (hblocked ((k.exec_lifeStep hs.ordered op j).waiter hb hpost
      (by rw [hj]; exact hun) htick).2)
  cases op with
  | kill pid => exact hends (.inr (.inl ⟨pid, rfl⟩))
  | killForeground => exact hends (.inr (.inr rfl))
  | exit status => exact hends (.inl ⟨status, rfl⟩)
  | semPost | semPostAll | semClose | pipeClose => exact hreleases (k.exec_releases _ trivial)
  | pipeSetFd pid fd pipeId w =>
      refine syscallPipeSetFd_invariant (P := fun k' => ¬ (k'.life j).Awake ∨ k'.tickets P < _)
        (.inl (hblocked hb)) (fun k' i n d hrel => ?_) _ _ _ _
      rw [onSched_life, Sched.modify_life _ i (f := setFd n _) fun _ => rfl,
        tickets_of_table (onSched_semTable _ _)]
      exact hreleases hrel
  | pipeRead p => exact ((k.pipeReadStep_cases p).paid hj hb).imp_left hblocked
  | pipeWrite p c => exact ((k.pipeWriteStep_cases p c).paid hj hb).imp_left hblocked
  | _ => exact hother id

/-! ### Runs -/

/-- Waits are issued by the running process, and `scheduler_block` and
`scheduler_unblock` are not aimed at `P`. -/
def Polite (P : Int) (k : Kernel) : Op → Prop
  | .block pid | .unblock pid => pid ≠ P
  | .wait _ | .semWait _ | .pipeRead _ | .pipeWrite _ _ =>
      (k.life k.sched.currentIdx).state = .running
  | _ => True

instance (P : Int) (k : Kernel) : DecidablePred (Polite P k) := fun op => by
  induction op using Op.casesOn <;> dsimp only [Polite] <;> infer_instance

theorem Polite.parks {op : Op} (hop : Polite P k op) (h : k.Parks op) :
    (k.life k.sched.currentIdx).state = .running := by
  cases op with
  | semWait _ => exact hop
  | pipeRead _ => exact hop
  | pipeWrite _ _ => exact hop
  | _ => cases h

/-- The process in slot `i` is a child of `P` that has not ended. -/
structure Child (P c : Int) (k : Kernel) (i : Slot) : Prop where
  pid : (k.life i).pid = c
  parent : (k.life i).parentPid = P
  live : (k.life i).state ≠ .dead ∧ (k.life i).state ≠ .zombie

/-- What `P` in slot `j` can be doing. -/
inductive Mood (P : Int) (k : Kernel) (j : Slot) : Prop
  | over (h : (k.life j).state = .dead ∨ (k.life j).state = .zombie)
  | awake (h : (k.life j).Awake) (hw : (k.life j).waitingFor ≤ 0) (ht : k.tickets P = 0)
  | asleep (h : (k.life j).state = .blocked) (hw : (k.life j).waitingFor ≤ 0)
  | awaits (h : (k.life j).state = .blocked) (ht : k.tickets P = 0) (i : Slot)
      (hi : Child P (k.life j).waitingFor k i)

theorem Mood.runs (h : Mood P k j) (ha : (k.life j).Awake) :
    (k.life j).waitingFor ≤ 0 ∧ k.tickets P = 0 := by
  have hne : ∀ {st : ProcState}, (k.life j).state = st → st = .ready ∨ st = .running := by
    rintro st rfl
    exact ha
  rcases h with (hd | hz) | ⟨-, hw, ht⟩ | ⟨hb, -⟩ | ⟨hb, -, -, -⟩
  · rcases hne hd with he | he <;> cases he
  · rcases hne hz with he | he <;> cases he
  · exact ⟨hw, ht⟩
  · rcases hne hb with he | he <;> cases he
  · rcases hne hb with he | he <;> cases he

theorem Mood.sleeps (h : Mood P k j) (hb : (k.life j).state = .blocked) :
    (k.life j).waitingFor ≤ 0 ∨
      k.tickets P = 0 ∧ ∃ i, Child P (k.life j).waitingFor k i := by
  rcases h with (hd | hz) | ⟨ha | ha, -, -⟩ | ⟨-, hw⟩ | ⟨-, ht, i, hi⟩
  · cases hd.symm.trans hb
  · cases hz.symm.trans hb
  · cases ha.symm.trans hb
  · cases ha.symm.trans hb
  · exact .inl hw
  · exact .inr ⟨ht, i, hi⟩

/-- What polite pieces keep. -/
structure Noticed (P : Int) (k : Kernel) : Prop where
  sound : Sound k
  neat : Neat k.sched
  once : k.tickets P ≤ 1
  born : 0 < k.tickets P → P < k.sched.nextPid
  mood : ∀ j, (k.life j).pid = P → Mood P k j

/-- A process that nothing ends. -/
theorem LifeStep.alive {op : Op} {i : Slot} {l : Life} (h : k.LifeStep op i l)
    (hlive : (k.life i).state ≠ .dead ∧ (k.life i).state ≠ .zombie) (ht : k.target op ≠ some i) :
    l.pid = (k.life i).pid ∧ l.parentPid = (k.life i).parentPid ∧ l.state ≠ .dead ∧
      l.state ≠ .zombie := by
  cases h with
  | keeps => exact ⟨rfl, rfl, hlive⟩
  | creates hj _ _ => exact absurd (Sched.findFreeSlot_some hj).2 hlive.1
  | renices => exact ⟨rfl, rfl, hlive⟩
  | wakes => exact ⟨rfl, rfl, by rintro ⟨⟩, by rintro ⟨⟩⟩
  | releases _ hb hw =>
      rw [Life.woken, if_pos ⟨hb, hw⟩]
      refine ⟨rfl, rfl, ?_, ?_⟩
      · show (if i = 0 then ProcState.blocked else .ready) ≠ .dead
        split <;> rintro ⟨⟩
      · show (if i = 0 then ProcState.blocked else .ready) ≠ .zombie
        split <;> rintro ⟨⟩
  | blocks => exact ⟨rfl, rfl, by rintro ⟨⟩, by rintro ⟨⟩⟩
  | parks => exact ⟨rfl, rfl, by rintro ⟨⟩, by rintro ⟨⟩⟩
  | waits => exact ⟨rfl, rfl, by rintro ⟨⟩, by rintro ⟨⟩⟩
  | reaps _ _ _ hz => exact absurd hz hlive.2
  | ends he _ => exact absurd he ht
  | kills he _ => exact absurd he ht
  | preempts => exact ⟨rfl, rfl, by rintro ⟨⟩, by rintro ⟨⟩⟩
  | dispatches => exact ⟨rfl, rfl, by rintro ⟨⟩, by rintro ⟨⟩⟩

/-- The timer dispatches nobody but idle who cannot run. -/
theorem tick_awake (hn : Neat k.sched) (hj : j ≠ 0) {rsp : Nat}
    (hne : (k.exec (.tick rsp)).life j ≠ k.life j) : (k.life j).Awake := by
  have hentry := k.sched.tickEntry_core rsp j
  have hcore := congrFun (Sched.schedulerTick_core hn rsp) j
  by_cases hc : j = k.sched.currentIdx ∧ j ≠ 0 ∧ (k.sched.core j).state = .running
  · exact .inr hc.2.2
  · rw [if_neg hc] at hentry
    by_cases hcur : j = (k.sched.schedulerTick rsp).1.currentIdx
    · left
      have hidx := Sched.schedulerTick_currentIdx hn rsp
      have hready := Sched.dequeueNextReady_ready ((Sched.tickEntry_moves hn rsp).neat hn)
        (by rw [← hidx, ← hcur]; exact hj)
      rw [← hidx, ← hcur] at hready
      exact (congrArg PCB.state hentry).symm.trans hready
    · rw [Function.update_of_ne hcur, hentry] at hcore
      exact absurd (congrArg PCB.life hcore) hne

theorem Noticed.ne_zero (h : Noticed P k) (hP : 0 < P) (hj : (k.life j).pid = P) : j ≠ 0 := by
  rintro rfl
  rw [h.sound.pids.idle.1] at hj
  omega

/-- The end of the awaited child makes the process ready. -/
theorem Noticed.released (h : Noticed P k) (hP : 0 < P) (hj : (k.life j).pid = P)
    (hb : (k.life j).state = .blocked) (ht : k.tickets P = 0) {i : Slot}
    (hi : Child P (k.life j).waitingFor k i) {op : Op} (htarget : k.target op = some i) :
    ((k.exec op).life j).state = .ready ∧ ((k.exec op).life j).waitingFor = -1 := by
  have hij : j ≠ i := by
    rintro rfl
    have hlt := (h.sound.pids.live j (h.ne_zero hP hj) hi.live.1).2
    rw [hi.parent, hj] at hlt
    omega
  obtain ⟨l, hl, hlife⟩ := target_paid h.sound.pids htarget hj hij
  rcases hl with rfl | ⟨-, hlt⟩
  · rw [hlife, Life.woken, if_pos ⟨hb, hi.pid.symm⟩]
    exact ⟨if_neg (h.ne_zero hP hj), rfl⟩
  · omega

/-- A child that is still awaited has not ended. -/
theorem Noticed.child (h : Noticed P k) (hP : 0 < P) (hj : (k.life j).pid = P)
    (hb : (k.life j).state = .blocked) (ht : k.tickets P = 0) {i : Slot}
    (hi : Child P (k.life j).waitingFor k i) {op : Op}
    (hb' : ((k.exec op).life j).state = .blocked) : Child P (k.life j).waitingFor (k.exec op) i := by
  have hnot : k.target op ≠ some i := by
    intro htarget
    cases hb'.symm.trans (h.released hP hj hb ht hi htarget).1
  obtain ⟨hpid, hparent, hlive⟩ := (k.exec_lifeStep h.sound.ordered op i).alive hi.live hnot
  exact ⟨hpid.trans hi.pid, hparent.trans hi.parent, hlive⟩

/-- A piece that leaves the state and `waiting_for` alone leaves the process as it was. -/
theorem Noticed.mood_same (h : Noticed P k) (hP : 0 < P) {op : Op}
    (hzero : k.tickets P = 0 → (k.exec op).tickets P = 0) (hpid : (k.life j).pid = P)
    (hstate : ((k.exec op).life j).state = (k.life j).state)
    (hfor : ((k.exec op).life j).waitingFor = (k.life j).waitingFor) : Mood P (k.exec op) j := by
  rcases h.mood j hpid with hover | ⟨haw, hw, ht⟩ | ⟨hb, hw⟩ | ⟨hb, ht, i, hi⟩
  · exact .over (by rw [hstate]; exact hover)
  · refine .awake ?_ (by rw [hfor]; exact hw) (hzero ht)
    rw [Life.Awake, hstate]
    exact haw
  · exact .asleep (by rw [hstate]; exact hb) (by rw [hfor]; exact hw)
  · refine .awaits (by rw [hstate]; exact hb) (hzero ht) i ?_
    rw [hfor]
    exact h.child hP hpid hb ht hi (hstate.trans hb)

/-- A waiter that is woken has used up its entry. -/
theorem Noticed.mood_woken (h : Noticed P k) {op : Op} (hpid : (k.life j).pid = P)
    (hb : (k.life j).state = .blocked) (hposts : Posts op) (hwaiting : k.Waiting P)
    (hl : (k.exec op).life j = (k.life j).setState .ready) : Mood P (k.exec op) j := by
  have hpos := tickets_pos hwaiting
  have haw : ((k.exec op).life j).Awake := by
    rw [hl]
    exact .inl rfl
  rcases (h.mood j hpid).sleeps hb with hw | ⟨ht, -⟩
  · refine .awake haw (by rw [hl]; exact hw) ?_
    have hlt := (exec_wake h.sound hpid hb hw (by rintro rfl; exact hposts)
      (by rintro rsp rfl; exact hposts)).resolve_left (not_not.mpr haw)
    have := h.once
    omega
  · omega

/-- `P` waits for a child that has not ended. -/
theorem Noticed.mood_waits (h : Noticed P k) {c : Int} {i : Slot}
    (hzero : k.tickets P = 0 → (k.exec (.wait c)).tickets P = 0)
    (hcur : (k.life k.sched.currentIdx).pid = P)
    (hrun : (k.life k.sched.currentIdx).state = .running) (hi : k.sched.findIndexByPid c = some i)
    (hparent : (k.life i).parentPid = (k.life k.sched.currentIdx).pid)
    (hz : (k.life i).state ≠ .zombie)
    (hl : (k.exec (.wait c)).life k.sched.currentIdx =
      { k.life k.sched.currentIdx with state := .blocked, waitingFor := c }) :
    Mood P (k.exec (.wait c)) k.sched.currentIdx := by
  obtain ⟨hpi, hdi⟩ := Sched.findIndexByPid_some hi
  obtain ⟨hpid', hparent', hlive'⟩ := (k.exec_lifeStep h.sound.ordered (.wait c) i).alive
    ⟨hdi, hz⟩ (by rintro ⟨⟩)
  have ht := ((h.mood _ hcur).runs (.inr hrun)).2
  refine .awaits (by rw [hl]) (hzero ht) i ?_
  rw [hl]
  exact ⟨hpid'.trans hpi, hparent'.trans (hparent.trans hcur), hlive'⟩

/-- A piece that does not put `P` into a queue. -/
theorem Noticed.mood_exec (h : Noticed P k) (hP : 0 < P) {op : Op} (hop : Polite P k op)
    (hpark : k.Parks op → k.sched.schedulerGetpid ≠ P) (hj : ((k.exec op).life j).pid = P) :
    Mood P (k.exec op) j := by
  have hzero : k.tickets P = 0 → (k.exec op).tickets P = 0 := fun h0 =>
    Nat.le_zero.mp ((k.exec_tickets hpark).trans h0.le)
  have hstep := k.exec_lifeStep h.sound.ordered op j
  generalize hl : (k.exec op).life j = l at hstep hj
  cases hstep with
  | keeps => exact h.mood_same hP hzero hj (by rw [hl]) (by rw [hl])
  | creates _ _ _ =>
      refine .awake (by rw [hl]; exact .inl rfl) (by rw [hl]; show (-1 : Int) ≤ 0; decide)
        (hzero ?_)
      by_contra hne
      have hlt := h.born (Nat.pos_of_ne_zero hne)
      have hnext : k.sched.nextPid = P := hj
      omega
  | renices => exact h.mood_same hP hzero hj (by rw [hl]) (by rw [hl])
  | wakes hb hw =>
      have hpid : (k.life j).pid = P := hj
      have hwaiting : Posts op ∧ k.Waiting (k.life j).pid := by
        refine hw.resolve_right fun he => ?_
        subst he
        exact hop hpid
      exact h.mood_woken hpid hb hwaiting.1 (hpid ▸ hwaiting.2) hl
  | releases ht hb hw =>
      rename_i i
      rw [Life.woken, if_pos ⟨hb, hw⟩] at hl hj
      have hpid : (k.life j).pid = P := hj
      have hpos := target_pid_pos h.sound.pids ht
      rcases (h.mood j hpid).sleeps hb with hle | ⟨ht0, -⟩
      · omega
      · refine .awake ?_ (by rw [hl]; show (-1 : Int) ≤ 0; decide) (hzero ht0)
        rw [hl]
        exact .inl (if_neg (h.ne_zero hP hpid))
  | blocks hfind => exact absurd ((Sched.findIndexByPid_some hfind).1.symm.trans hj) hop
  | parks hparks hfind =>
      exact absurd ((Sched.findIndexByPid_some hfind).1.symm.trans hj) (hpark hparks)
  | waits hpid hi hparent hz => exact h.mood_waits hzero hj hop hi hparent hz hl
  | reaps =>
      have h0 : (0 : Int) = P := hj
      omega
  | ends => exact .over (.inr (by rw [hl]; rfl))
  | kills => exact .over (.inl (by rw [hl]; rfl))
  | preempts hrun =>
      have hcur : (k.life k.sched.currentIdx).pid = P := hj
      obtain ⟨hw, ht⟩ := (h.mood _ hcur).runs (.inr hrun)
      exact .awake (by rw [hl]; exact .inl rfl) (by rw [hl]; exact hw) (hzero ht)
  | dispatches _ =>
      have hpid : (k.life j).pid = P := hj
      have haw : (k.life j).Awake := by
        by_cases hrun : (k.life j).state = .running
        · exact .inr hrun
        · apply tick_awake h.neat (h.ne_zero hP hpid)
          intro he
          apply hrun
          rw [← he, hl]
          rfl
      obtain ⟨hw, ht⟩ := (h.mood j hpid).runs haw
      exact .awake (by rw [hl]; exact .inr rfl) (by rw [hl]; exact hw) (hzero ht)

/-- `P` itself waits for a semaphore. -/
theorem Noticed.parks_self (h : Noticed P k) (hP : 0 < P) {op : Op} (hop : Polite P k op)
    (hpark : k.Parks op) (hpid : k.sched.schedulerGetpid = P) :
    (k.exec op).tickets P ≤ 1 ∧
      ∀ j, ((k.exec op).life j).pid = P → Mood P (k.exec op) j := by
  have hcur : (k.life k.sched.currentIdx).pid = P := hpid
  obtain ⟨hw, ht⟩ := (h.mood _ hcur).runs (.inr (hop.parks hpark))
  refine ⟨?_, fun j hj => ?_⟩
  · rw [hpark.semWait.1, ← hpid]
    exact semWait_tickets_self hpark.semWait.2 (by rw [hpid]; exact ht)
  · have hlife := hpark.life j
    rw [schedulerBlock_life, h.sound.pids.find_current (h.ne_zero hP hcur)] at hlife
    have hcj : k.sched.currentIdx = j := by
      by_contra hne
      rw [if_neg fun e => hne (Option.some.inj e)] at hlife
      have hpj : (k.life j).pid = P := by
        rw [← hj, hlife]
        rfl
      exact hne (h.sound.pids.distinct _ _ (hcur.trans hpj.symm) (hcur ▸ hP))
    subst hcj
    rw [if_pos rfl] at hlife
    exact .asleep (by rw [hlife]; rfl) (by rw [hlife]; exact hw)

theorem exec_neat (hs : Sound k) (hn : Neat k.sched) (op : Op)
    (hwait : ∀ pid, op = .wait pid → (k.proc k.sched.currentIdx).state = .running) :
    Neat (k.exec op).sched := by
  by_cases htick : ∃ rsp, op = .tick rsp
  · obtain ⟨rsp, rfl⟩ := htick
    exact Sched.schedulerTick_neat hn hs.pids.idle.2.1 rsp
  · exact (exec_moves hn hs.pids.current (fun rsp e => htick ⟨rsp, e⟩) hwait).neat hn

theorem exec_noticed (h : Noticed P k) (hP : 0 < P) {op : Op} (hop : Polite P k op) :
    Noticed P (k.exec op) := by
  have hs := exec_sound h.sound op
  have hn := exec_neat h.sound h.neat op (by rintro pid rfl; exact hop)
  have hnext := k.exec_nextPid_le op
  by_cases hself : k.Parks op ∧ k.sched.schedulerGetpid = P
  · obtain ⟨hpark, hpid⟩ := hself
    obtain ⟨honce, hmood⟩ := h.parks_self hP hop hpark hpid
    refine ⟨hs, hn, honce, fun _ => ?_, hmood⟩
    rw [← hpid]
    exact (h.sound.pids.fresh k.sched.currentIdx).trans_le hnext
  · have hpark : k.Parks op → k.sched.schedulerGetpid ≠ P := fun hp he => hself ⟨hp, he⟩
    have hle := k.exec_tickets hpark
    exact ⟨hs, hn, hle.trans h.once, fun hpos => (h.born (hpos.trans_le hle)).trans_le hnext,
      fun j hj => h.mood_exec hP hop hpark hj⟩

theorem init_noticed (hP : 0 < P) (idleStack : Nat) : Noticed P (init idleStack) := by
  have h0 : (init idleStack).tickets P = 0 := Finset.sum_eq_zero fun _ _ => rfl
  refine ⟨init_sound idleStack, (init_onCpu idleStack).neat, by omega, by omega, fun j hj => ?_⟩
  -- every pid is 0
  have hzero : ((init idleStack).life j).pid = 0 := by
    simp only [life, Sched.life, Sched.core, init, Sched.schedulerInit]
    split <;> rfl
  omega

end Kernel

end TP2Kernel
