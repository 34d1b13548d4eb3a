/-
TP2Kernel/Dispatch.lean

Who may run.  The processor is driven by three kinds of steps: a call of the
running process, followed by `scheduler_tick` exactly when
`scheduler_should_reschedule` asks for it (`_irq80Handler`), a timer interrupt
(`_irq00Handler`), and Ctrl+C.  Over all orders of these steps the state field,
the queue membership and `current_idx` agree, and only ready processes are
dispatched.

The tick after a call that blocks belongs to the same step.  In the kernel it comes when
`_hlt` ends, so a Ctrl+C that arrives while the caller is halted and BLOCKED is no run
here; `System` has these runs.

`tickEntry` is the scheduler as `dequeue_next_ready` finds it; the early return
of `scheduler_tick` is never taken because no quantum exceeds one.
-/
import TP2Kernel.Moves

namespace TP2Kernel

namespace Sched

variable {s : Sched} {i : Slot}

theorem state_of_core {s s' : Sched} (h : s'.core = s.core) (j : Slot) :
    (s'.processTable j).state = (s.processTable j).state := by
  rw [← core_state, h, core_state]

/-! ### Ageing -/

/-- What `age_ready_processes` does to one process, links apart. -/
def aged (p : PCB) : PCB :=
  if !p.inReadyQueue ∨ p.state ≠ .ready then p
  else if p.readyWaitTicks + 1 ≥ agingThresholdTicks ∧ p.effectivePriority < priorityMax then
    { p with effectivePriority := p.effectivePriority + 1, readyWaitTicks := 0 }
  else { p with readyWaitTicks := p.readyWaitTicks + 1 }

theorem ageProcess_unlinked (s : Sched) (i j : Slot) :
    ((s.ageProcess i).processTable j).unlinked =
      if j = i then (aged (s.processTable i)).unlinked else (s.processTable j).unlinked := by
  by_cases hc : !(s.processTable i).inReadyQueue ∨ (s.processTable i).state ≠ .ready
  · simp only [ageProcess, aged, if_pos hc]
    split
    · rename_i hj
      rw [hj]
    · rfl
  · simp only [ageProcess, aged, if_neg hc]
    by_cases hp : (s.processTable i).readyWaitTicks + 1 ≥ agingThresholdTicks ∧
        (s.processTable i).effectivePriority < priorityMax
    · simp only [if_pos hp]
      rw [(enqueueReadyQueue_requeued _ i).unlinked j]
      have hu := (removeFromReadyQueue_requeued (s.modify i fun p =>
        { p with readyWaitTicks := p.readyWaitTicks + 1 }) i).unlinked
      by_cases hj : j = i
      · subst hj
        have hj' := hu j
        rw [modify_self] at hj'
        rw [if_pos rfl, modify_self]
        have hpromote : ∀ p : PCB, PCB.unlinked { p with
            effectivePriority := p.effectivePriority + 1, readyWaitTicks := 0 } =
            { p.unlinked with
              effectivePriority := p.unlinked.effectivePriority + 1, readyWaitTicks := 0 } :=
          fun _ => rfl
        rw [hpromote, hj']
        rfl
      · rw [if_neg hj, modify_of_ne _ _ _ _ hj, hu j, modify_of_ne _ _ _ _ hj]
    · simp only [if_neg hp, modify_processTable]
      split <;> rfl

/-- Putting a process other than idle on its queue sets its flag. -/
theorem enqueueReadyQueue_on {L : Fin priorityLevels → List Slot} (hL : Queues s L)
    (h0 : i ≠ 0) : ((s.enqueueReadyQueue i).processTable i).inReadyQueue = true := by
  by_cases hq : (s.processTable i).inReadyQueue = true
  · rw [enqueueReadyQueue, if_pos (.inr hq)]
    exact hq
  · have hoff : (s.processTable i).inReadyQueue = false := by simpa using hq
    refine ((hL.enqueue h0 hoff).mem_iff i (s.queueOf i)).mp ?_ |>.1
    rw [Function.update_self]
    exact List.mem_append_right _ List.mem_cons_self

/-- Ageing writes the effective priority and the waiting ticks only. -/
theorem aged_field {α : Type} (g : PCB → α)
    (hg : ∀ (p : PCB) e t, g { p with effectivePriority := e, readyWaitTicks := t } = g p)
    (p : PCB) : g (aged p) = g p := by
  unfold aged
  split
  · rfl
  · split
    · exact hg p _ _
    · exact hg p _ _

/-- What the ageing pass makes of a queued process: it is promoted, or has waited one
tick more. -/
theorem aged_queued {b : PCB} (h : b.Tidy) (hq : b.inReadyQueue = true) :
    (5 ≤ b.readyWaitTicks ∧ b.effectivePriority < 5 ∧
      (aged b).effectivePriority = b.effectivePriority + 1 ∧ (aged b).readyWaitTicks = 0) ∨
    ((b.readyWaitTicks < 5 ∨ b.effectivePriority = 5) ∧
      (aged b).effectivePriority = b.effectivePriority ∧
      (aged b).readyWaitTicks = b.readyWaitTicks + 1) := by
  have hr := h.queued hq
  have hrange := (h.ranked (by rw [hr]; rintro ⟨⟩)).2
  have hready : ¬ (!b.inReadyQueue ∨ b.state ≠ .ready) := by
    rw [hq, hr]
    simp
  rw [aged, if_neg hready]
  unfold agingThresholdTicks priorityMax
  split
  · exact .inl ⟨by omega, by omega, rfl, rfl⟩
  · exact .inr ⟨by omega, rfl, rfl⟩

theorem aged_tidy {p : PCB} (h : p.Tidy) : (aged p).Tidy := by
  unfold aged agingThresholdTicks priorityMax
  split
  · exact h
  · have ht := h.ticks
    split
    · rename_i hp
      refine .fresh h.queued h.quantum rfl fun hd => ?_
      have hr := h.ranked hd
      exact ⟨hr.1, by simp only; omega⟩
    · rename_i hp
      refine ⟨h.queued, h.quantum, ⟨?_, fun heff => ?_⟩, h.ranked⟩
      · simp only
        omega
      · simp only at heff ⊢
        omega

/-- Ageing keeps everybody on the queues. -/
theorem ageProcess_flag (h : Neat s) (i j : Slot) :
    ((s.ageProcess i).processTable j).inReadyQueue = (s.processTable j).inReadyQueue := by
  simp only [ageProcess]
  split
  · rfl
  · rename_i hc
    simp only [not_or, Bool.not_eq_true', Bool.not_eq_false, ne_eq, not_not] at hc
    obtain ⟨L, hL⟩ := h.lists
    have hflag : ∀ t, ((s.modify i fun p => { p with readyWaitTicks := p.readyWaitTicks + 1 }
        ).processTable t).inReadyQueue = (s.processTable t).inReadyQueue :=
      fun t => s.modify_field i t _ PCB.inReadyQueue rfl
    split
    · by_cases hj : j = i
      · subst hj
        rw [hc.1]
        -- off the old queue and on the next one
        have hord : Ordered (fun _ => False) (fun _ => True)
            (s.modify j fun p => { p with readyWaitTicks := p.readyWaitTicks + 1 }) :=
          h.ordered.modify_kept (fun _ => rfl) (fun _ => rfl) (fun _ => rfl) fun _ => rfl
        obtain ⟨⟨L', hL'⟩, -, -⟩ := (hord.remove j).1
        have hoff := (hord.remove j).2
        exact enqueueReadyQueue_on (hL'.modify_off hoff (f := fun p =>
          { p with effectivePriority := p.effectivePriority + 1, readyWaitTicks := 0 }) hoff)
          (hL.ne_zero hc.1)
      · rw [enqueueReadyQueue_flag hj, modify_of_ne _ _ _ _ hj, removeFromReadyQueue_flag hj, hflag]
    · exact hflag j

theorem ageProcess_neat (h : Neat s) (i : Slot) : Neat (s.ageProcess i) := by
  refine h.of_update (h.ordered.ageProcess i).lists (i := i) (fun ht => ?_) fun j hj => ?_
  · have hu := s.ageProcess_unlinked i i
    rw [if_pos rfl] at hu
    refine (aged_tidy ht).of_unlinked hu fun hq => ?_
    rw [ageProcess_flag h] at hq
    exact (aged_field PCB.state (fun _ _ _ => rfl) _).trans (ht.queued hq)
  · have hu := s.ageProcess_unlinked i j
    rw [if_neg hj] at hu
    exact ⟨hu, ageProcess_flag h i j⟩

theorem ageReadyProcesses_neat (h : Neat s) : Neat s.ageReadyProcesses := by
  unfold ageReadyProcesses
  induction userSlots generalizing s with
  | nil => exact h
  | cons i l ih => exact ih (ageProcess_neat h i)

/-! ### Dequeueing -/

/-- The head of the first queue that is not empty leaves it. -/
theorem dequeueFrom_spec {L : Fin priorityLevels → List Slot} (hL : Queues s L) (prs : List Int) :
    ((∀ pr ∈ prs, L (priorityQueueIndex pr) = []) ∧ s.dequeueFrom prs = (s, 0)) ∨
    ∃ pr i l, (∃ before after, prs = before ++ pr :: after ∧
        ∀ pr' ∈ before, L (priorityQueueIndex pr') = []) ∧
      L (priorityQueueIndex pr) = i :: l ∧ (s.dequeueFrom prs).2 = i ∧
      Queues (s.dequeueFrom prs).1 (Function.update L (priorityQueueIndex pr) l) ∧
      ∀ j, (j ≠ i → ((s.dequeueFrom prs).1.processTable j).inReadyQueue =
            (s.processTable j).inReadyQueue) ∧
          ((s.dequeueFrom prs).1.processTable j).unlinked =
            if j = i then (rebased { s.processTable i with readyWaitTicks := 0 }).unlinked
            else (s.processTable j).unlinked := by
  induction prs with
  | nil => exact .inl ⟨fun _ h => absurd h List.not_mem_nil, rfl⟩
  | cons pr prs ih =>
      have hhead := (hL.queue (priorityQueueIndex pr)).head_eq
      rcases hq : L (priorityQueueIndex pr) with - | ⟨i, l⟩
      · -- nothing here, on to the next priority
        rw [hq, List.head?_nil] at hhead
        have hnext : s.dequeueFrom (pr :: prs) = s.dequeueFrom prs := by
          simp only [dequeueFrom, dequeueReadyQueue, hhead]
        rw [hnext]
        rcases ih with ⟨hnil, he⟩ | ⟨pr', i, l, ⟨before, after, hprs, hbefore⟩, hrest⟩
        · exact .inl ⟨List.forall_mem_cons.mpr ⟨hq, hnil⟩, he⟩
        · exact .inr ⟨pr', i, l, ⟨pr :: before, after, by rw [hprs, List.cons_append],
            List.forall_mem_cons.mpr ⟨hq, hbefore⟩⟩, hrest⟩
      · rw [hq, List.head?_cons] at hhead
        obtain ⟨hres, hnx, hin, -, -⟩ := s.dequeueReadyQueue_eq hhead
        obtain ⟨-, hL'⟩ := hL.dequeue hq
        have hoff : ((s.dequeueReadyQueue pr).1.processTable i).inReadyQueue = false := by
          rw [hin, if_pos rfl]
        have hstep : s.dequeueFrom (pr :: prs) =
            ((s.dequeueReadyQueue pr).1.modify i rebased, i) := by
          rcases hd : s.dequeueReadyQueue pr with ⟨t, r⟩
          rw [hd] at hres
          simp only at hres
          subst hres
          simp only [dequeueFrom, hd]
        refine .inr ⟨pr, i, l, ⟨[], prs, rfl, fun _ h => absurd h List.not_mem_nil⟩, hq, ?_⟩
        rw [hstep]
        refine ⟨rfl, hL'.modify_off hoff hoff, fun j => ⟨fun hj => ?_, ?_⟩⟩
        · rw [modify_of_ne _ _ _ _ hj, hin, if_neg hj]
        · have hu : ∀ j, ((s.dequeueReadyQueue pr).1.processTable j).unlinked =
              if j = i then PCB.unlinked { s.processTable i with readyWaitTicks := 0 }
              else (s.processTable j).unlinked := by
            intro j
            simp only [dequeueReadyQueue, hhead, unlink, setQueue_processTable,
              modify_processTable]
            split
            · simp only [if_true]
              rfl
            · rfl
          have hj := hu j
          by_cases hji : j = i
          · subst hji
            rw [if_pos rfl] at hj ⊢
            rw [modify_self]
            have hr : ∀ p : PCB, (rebased p).unlinked = rebased p.unlinked := fun _ => rfl
            rw [hr, hr, hj]
          · rw [if_neg hji] at hj ⊢
            rw [modify_of_ne _ _ _ _ hji]
            exact hj

/-- Every queue is searched. -/
theorem exists_priority (q : Fin priorityLevels) :
    ∃ pr ∈ prioritiesDown, priorityQueueIndex pr = q := by
  revert q
  decide

theorem dequeueFrom_neat (h : Neat s) (prs : List Int) :
    Neat (s.dequeueFrom prs).1 ∧
      ((s.dequeueFrom prs).1.processTable (s.dequeueFrom prs).2).inReadyQueue = false := by
  obtain ⟨L, hL⟩ := h.lists
  rcases dequeueFrom_spec hL prs with ⟨-, he⟩ | ⟨pr, i, l, -, hq, hi, hL', hj⟩
  · rw [he]
    exact ⟨h, hL.idle⟩
  · have hmem : i ∈ L (priorityQueueIndex pr) := by
      rw [hq]
      exact List.mem_cons_self
    have hready := (h.tidy i).queued ((hL.mem_iff _ _).mp hmem).1
    have hoff : ((s.dequeueFrom prs).1.processTable i).inReadyQueue = false := by
      rcases hf : ((s.dequeueFrom prs).1.processTable i).inReadyQueue with - | -
      · rfl
      · -- it would still be on a list, but it was on no other and has left its own
        have hi' := (hL'.mem_iff i _).mpr ⟨hf, rfl⟩
        have hnd := (hL.queue (priorityQueueIndex pr)).nodup
        rw [hq] at hnd
        by_cases hqi : queueOf (s.dequeueFrom prs).1 i = priorityQueueIndex pr
        · rw [hqi, Function.update_self] at hi'
          exact absurd hi' (List.nodup_cons.mp hnd).1
        · rw [Function.update_of_ne hqi] at hi'
          exact absurd (hL.disjoint hi' hmem) hqi
    refine ⟨h.of_update ⟨_, hL'⟩ (i := i) (fun ht => ?_) fun j hji => ?_, by rw [hi]; exact hoff⟩
    · have hu := (hj i).2
      rw [if_pos rfl] at hu
      refine PCB.Tidy.of_unlinked (p := rebased { s.processTable i with readyWaitTicks := 0 }) ?_ hu
        fun hf => absurd (hoff.symm.trans hf) Bool.false_ne_true
      have hr := ht.ranked (by rw [hready]; rintro ⟨⟩)
      exact .fresh ht.queued ht.quantum rfl fun _ => ⟨hr.1, hr.1⟩
    · have hu := (hj j).2
      rw [if_neg hji] at hu
      exact ⟨hu, (hj j).1 hji⟩

theorem dispatch_neat (h : Neat s) (hidle : (s.processTable 0).state ≠ .dead) :
    Neat s.dispatch.1 := by
  obtain ⟨hn, hoff⟩ := dequeueFrom_neat (ageReadyProcesses_neat h) prioritiesDown
  have halive : ((s.dequeueNextReady.1.processTable s.dequeueNextReady.2).state) ≠ .dead := by
    rw [state_of_core s.dequeueNextReady_core]
    rcases h.ordered.dequeueNextReady_alive with h0 | hu
    · rw [h0]
      exact hidle
    · intro hd
      rw [core_state, hd] at hu
      exact hu trivial
  unfold dispatch
  unfold dequeueNextReady at halive ⊢
  generalize s.ageReadyProcesses.dequeueFrom prioritiesDown = r at hn hoff halive ⊢
  refine Neat.of_tables (s := r.1.modify r.2 started) ?_ rfl rfl
  exact hn.modify_off hoff hoff fun ht =>
    ⟨fun hq => absurd (hoff.symm.trans hq) Bool.false_ne_true, le_refl _, ht.ticks,
      fun _ => ht.ranked halive⟩

/-! ### The timer -/

/-- The scheduler when `scheduler_tick` calls `dequeue_next_ready`. -/
def tickEntry (s : Sched) (rsp : Nat) : Sched :=
  if s.current.state = .running then (s.saveRsp rsp).countTick.putBack else s.saveRsp rsp

/-- **The timer always dispatches**: with a quantum of one the early return of
`scheduler_tick` is not taken. -/
theorem schedulerTick_eq (hq : s.current.quantumsLeft ≤ 1) (rsp : Nat) :
    s.schedulerTick rsp = (s.tickEntry rsp).dispatch := by
  have hcur : (s.saveRsp rsp).countTick.current.quantumsLeft ≤ 0 := by
    have hc : (s.saveRsp rsp).countTick.current.quantumsLeft = s.current.quantumsLeft - 1 := by
      simp only [current, countTick, saveRsp, modify_currentIdx, modify_self]
    omega
  simp only [schedulerTick, tickEntry, s.saveRsp_current rsp]
  split
  · rw [if_neg fun hc => by omega]
  · rfl

theorem mild_saveRsp (rsp : Nat) (p : PCB) : Mild p { p with rsp := rsp } :=
  ⟨rfl, rfl, rfl, rfl, rfl, rfl, id⟩

theorem mild_countTick (p : PCB) : Mild p { p with quantumsLeft := p.quantumsLeft - 1 } :=
  ⟨rfl, rfl, rfl, rfl, rfl, rfl, fun h => by simp only; omega⟩

/-- Up to the dispatch, the timer moves the current process only. -/
theorem tickEntry_moves (h : Neat s) (rsp : Nat) : Moves (fun _ => False) s (s.tickEntry rsp) := by
  have h1 : Moves (fun _ => False) s (s.saveRsp rsp) := .adjust _ (mild_saveRsp rsp)
  unfold tickEntry
  split
  · rename_i hrun
    have h2 : Moves (fun _ => False) s (s.saveRsp rsp).countTick :=
      h1.trans (.adjust _ mild_countTick)
    unfold putBack
    split
    · refine h2.trans (.single (.ready _ (((h2.neat h).tidy _).off fun hr => ?_)))
      have hst : ((s.saveRsp rsp).countTick.processTable s.currentIdx).state = s.current.state := by
        simp only [countTick, saveRsp, modify_currentIdx, modify_self]
        rfl
      cases (hst.trans hrun).symm.trans hr
    · exact h2
  · exact h1

theorem tickEntry_ordered {st ex : Slot → Prop} (h : Ordered st ex s) (rsp : Nat) :
    Ordered st ex (s.tickEntry rsp) := by
  have h1 : Ordered st ex (s.saveRsp rsp) :=
    h.modify_kept (fun _ => rfl) (fun _ => rfl) (fun _ => rfl) fun _ => rfl
  unfold tickEntry
  split
  · exact Ordered.putBack (h1.modify_kept (fun _ => rfl) (fun _ => rfl) (fun _ => rfl) fun _ => rfl)
  · exact h1

/-- The current process is ready again if it was running, idle apart. -/
theorem tickEntry_core (rsp : Nat) (j : Slot) :
    (s.tickEntry rsp).core j =
      if j = s.currentIdx ∧ j ≠ 0 ∧ (s.core j).state = .running then (s.core j).setState .ready
      else s.core j := by
  have h1 := s.saveRsp_core rsp
  unfold tickEntry
  split
  · rename_i hrun
    have h2 : (s.saveRsp rsp).countTick.core = s.core := (countTick_core _).trans h1
    have hidx : (s.saveRsp rsp).countTick.currentIdx = s.currentIdx := rfl
    have hrun' : (s.core s.currentIdx).state = .running := hrun
    rw [putBack_core, hidx, h2]
    by_cases hc : (s.saveRsp rsp).countTick.CanReady s.currentIdx
    · rw [if_pos hc]
      by_cases hj : j = s.currentIdx
      · subst hj
        rw [Function.update_self, if_pos ⟨rfl, hc.1, hrun'⟩]
      · rw [Function.update_of_ne hj, if_neg fun hn => hj hn.1]
    · rw [if_neg hc, if_neg]
      rintro ⟨rfl, h0, -⟩
      refine hc ⟨h0, ?_⟩
      rw [h2, hrun']
      exact ⟨by rintro ⟨⟩, by rintro ⟨⟩⟩
  · rename_i hrun
    rw [h1, if_neg]
    rintro ⟨rfl, -, hr⟩
    exact hrun hr

theorem schedulerTick_neat (h : Neat s) (hidle : (s.processTable 0).state ≠ .dead) (rsp : Nat) :
    Neat (s.schedulerTick rsp).1 := by
  rw [schedulerTick_eq (h.tidy _).quantum]
  refine dispatch_neat ((tickEntry_moves h rsp).neat h) ?_
  have hcore := s.tickEntry_core rsp 0
  rw [if_neg fun hc => hc.2.1 rfl] at hcore
  rw [← core_state, hcore]
  exact hidle

/-! ### What a tick dispatches -/

/-- No process but the current one is running. -/
def Solo (s : Sched) : Prop :=
  ∀ i, i ≠ 0 → (s.processTable i).state = .running → i = s.currentIdx

/-- What `scheduler_tick` dispatches: a process that is ready when
`dequeue_next_ready` is called, because it was ready or was the running one, or
idle, and then nobody was ready or running. -/
def Dispatches (s : Sched) (rsp : Nat) : Prop :=
  ((s.schedulerTick rsp).1.processTable (s.schedulerTick rsp).1.currentIdx).state = .running ∧
    (((s.schedulerTick rsp).1.currentIdx ≠ 0 ∧
        ((s.tickEntry rsp).processTable (s.schedulerTick rsp).1.currentIdx).state = .ready ∧
        ((s.processTable (s.schedulerTick rsp).1.currentIdx).state = .ready ∨
          (s.schedulerTick rsp).1.currentIdx = s.currentIdx ∧ s.current.state = .running)) ∨
      ((s.schedulerTick rsp).1.currentIdx = 0 ∧
        ∀ i, i ≠ 0 → (s.processTable i).state ≠ .ready ∧ (s.processTable i).state ≠ .running))

/-- A queue is found empty only if nobody is ready. -/
theorem dequeueNextReady_idle (h : Ordered (fun _ => False) (fun _ => False) s)
    (h0 : s.dequeueNextReady.2 = 0) (i : Slot) (hi : i ≠ 0) :
    (s.processTable i).state ≠ .ready := by
  intro hr
  have hage := h.ageReadyProcesses
  obtain ⟨L, hL⟩ := hage.lists
  have hready : (s.ageReadyProcesses.processTable i).state = .ready :=
    (state_of_core s.ageReadyProcesses_core i).trans hr
  have hmem := hL.mem_of_queued (hage.covered i hi id hready)
  rcases dequeueFrom_spec hL prioritiesDown with ⟨hnil, -⟩ | ⟨pr, j, l, -, hq, hj, -⟩
  · obtain ⟨pr, hpr, hidx⟩ := exists_priority (queueOf s.ageReadyProcesses i)
    rw [← hidx, hnil pr hpr] at hmem
    exact absurd hmem List.not_mem_nil
  · rw [dequeueNextReady, hj] at h0
    have hmem' : j ∈ L (priorityQueueIndex pr) := by
      rw [hq]
      exact List.mem_cons_self
    exact hL.ne_zero ((hL.mem_iff _ _).mp hmem').1 h0

/-- The process taken from a queue was ready. -/
theorem dequeueNextReady_ready (h : Neat s) (h0 : s.dequeueNextReady.2 ≠ 0) :
    (s.processTable s.dequeueNextReady.2).state = .ready := by
  have hage := ageReadyProcesses_neat h
  obtain ⟨L, hL⟩ := hage.lists
  rw [← state_of_core s.ageReadyProcesses_core]
  rcases dequeueFrom_spec hL prioritiesDown with ⟨-, he⟩ | ⟨pr, i, l, -, hq, hi, -⟩
  · exact absurd (congrArg Prod.snd he) h0
  · rw [dequeueNextReady, hi]
    refine (hage.tidy i).queued ((hL.mem_iff i (priorityQueueIndex pr)).mp ?_).1
    rw [hq]
    exact List.mem_cons_self

theorem schedulerTick_currentIdx (h : Neat s) (rsp : Nat) :
    (s.schedulerTick rsp).1.currentIdx = (s.tickEntry rsp).dequeueNextReady.2 := by
  rw [schedulerTick_eq (h.tidy _).quantum, dispatch_currentIdx]

theorem schedulerTick_core (h : Neat s) (rsp : Nat) :
    (s.schedulerTick rsp).1.core =
      Function.update (s.tickEntry rsp).core (s.schedulerTick rsp).1.currentIdx
        (((s.tickEntry rsp).core (s.schedulerTick rsp).1.currentIdx).setState .running) := by
  rw [schedulerTick_currentIdx h, schedulerTick_eq (h.tidy _).quantum, dispatch_core]

theorem schedulerTick_dispatches (h : Neat s) (hord : Ordered (fun _ => False) (fun _ => False) s)
    (hsolo : s.Solo) (rsp : Nat) : s.Dispatches rsp := by
  have hentry := (tickEntry_moves h rsp).neat h
  have hcore := schedulerTick_core h rsp
  have hidx := schedulerTick_currentIdx h rsp
  refine ⟨?_, ?_⟩
  · rw [← core_state, hcore, Function.update_self]
    rfl
  · by_cases h0 : (s.schedulerTick rsp).1.currentIdx = 0
    · refine .inr ⟨h0, fun i hi => ?_⟩
      have hno := dequeueNextReady_idle (tickEntry_ordered hord rsp) (hidx ▸ h0) i hi
      rw [← core_state, tickEntry_core] at hno
      constructor
      · intro hr
        rw [if_neg fun hc => by cases hr.symm.trans hc.2.2] at hno
        exact hno hr
      · intro hr
        rw [if_pos ⟨hsolo i hi hr, hi, hr⟩] at hno
        exact hno rfl
    · have hready := dequeueNextReady_ready hentry (hidx ▸ h0)
      rw [← hidx] at hready
      refine .inl ⟨h0, hready, ?_⟩
      rw [← core_state, tickEntry_core] at hready
      by_cases hc : (s.schedulerTick rsp).1.currentIdx = s.currentIdx ∧
          (s.schedulerTick rsp).1.currentIdx ≠ 0 ∧
          (s.core (s.schedulerTick rsp).1.currentIdx).state = .running
      · refine .inr ⟨hc.1, ?_⟩
        have hrun := hc.2.2
        rw [hc.1] at hrun
        exact hrun
      · rw [if_neg hc] at hready
        exact .inl hready

theorem schedulerTick_solo (h : Neat s) (hsolo : s.Solo) (rsp : Nat) :
    (s.schedulerTick rsp).1.Solo := by
  intro i hi hr
  by_contra hne
  rw [← core_state, schedulerTick_core h rsp, Function.update_of_ne hne, tickEntry_core] at hr
  split at hr
  · cases hr
  · rename_i hc
    exact hc ⟨hsolo i hi hr, hi, hr⟩

end Sched

namespace Kernel

variable {k : Kernel}

/-! ### Runs -/

/-- What the processor does next. -/
inductive CpuLabel
  | call (op : Op) (rsp : Nat)
  | timer (rsp : Nat)
  | keyboard

/-- The pieces that serve a call. -/
def Op.IsCall : Op → Bool
  | .tick _ | .killForeground => false
  | _ => true

/-- The calls of the running process with `_irq80Handler`, the timer and
Ctrl+C. -/
def cpuMachine : Machine Kernel CpuLabel where
  guard := fun k l =>
    match l with
    | .call op _ => op.IsCall = true ∧ (k.proc k.sched.currentIdx).state = .running
    | .timer _ | .keyboard => True
  step := fun k l =>
    match l with
    | .call op rsp =>
        if (k.exec op).sched.schedulerShouldReschedule then some ((k.exec op).exec (.tick rsp))
        else some (k.exec op)
    | .timer rsp => some (k.exec (.tick rsp))
    | .keyboard => some (k.exec .killForeground)

instance (k : Kernel) : DecidablePred (cpuMachine.guard k)
  | .call op _ => inferInstanceAs
      (Decidable (op.IsCall = true ∧ (k.proc k.sched.currentIdx).state = .running))
  | .timer _ | .keyboard => inferInstanceAs (Decidable True)

/-- The state in which a step calls `scheduler_tick`, and the stack pointer
passed. -/
def tickOf (k : Kernel) : CpuLabel → Option (Kernel × Nat)
  | .call op rsp =>
      if (k.exec op).sched.schedulerShouldReschedule then some (k.exec op, rsp) else none
  | .timer rsp => some (k, rsp)
  | .keyboard => none

/-- What holds between the steps. -/
structure OnCpu (k : Kernel) : Prop where
  sound : Sound k
  neat : Neat k.sched
  solo : k.sched.Solo

/-- No piece but the timer sets a process running. -/
theorem exec_running (hs : Sound k) {op : Op} (htick : ∀ rsp, op ≠ .tick rsp) {j : Slot}
    (hr : ((k.exec op).life j).state = .running) : (k.life j).state = .running := by
  have hstep := k.exec_lifeStep hs.ordered op j
  generalize (k.exec op).life j = l at hstep hr
  cases hstep with
  | keeps => exact hr
  | creates => cases hr
  | renices => exact hr
  | wakes => cases hr
  | releases _ hb hw =>
      unfold Life.woken at hr
      rw [if_pos ⟨hb, hw⟩] at hr
      simp only at hr
      split at hr <;> cases hr
  | blocks => cases hr
  | parks => cases hr
  | waits => cases hr
  | reaps => cases hr
  | ends => cases hr
  | kills => cases hr
  | preempts => exact absurd rfl (htick _)
  | dispatches => exact absurd rfl (htick _)

theorem exec_currentIdx {op : Op} (htick : ∀ rsp, op ≠ .tick rsp) :
    (k.exec op).sched.currentIdx = k.sched.currentIdx := by
  by_cases hc : ∃ name pr fg stack, op = .create name pr fg stack
  · obtain ⟨name, pr, fg, stack, rfl⟩ := hc
    exact (k.create_frame name pr fg stack).1
  · exact (k.exec_frame htick fun name pr fg stack e => hc ⟨name, pr, fg, stack, e⟩).1

theorem OnCpu.exec (h : OnCpu k) {op : Op} (htick : ∀ rsp, op ≠ .tick rsp)
    (hwait : ∀ pid, op = .wait pid → (k.proc k.sched.currentIdx).state = .running) :
    OnCpu (k.exec op) := by
  refine ⟨exec_sound h.sound op, (exec_moves h.neat h.sound.pids.current htick hwait).neat h.neat,
    fun i hi hr => ?_⟩
  rw [exec_currentIdx htick]
  exact h.solo i hi (exec_running h.sound htick hr)

theorem OnCpu.tick (h : OnCpu k) (rsp : Nat) : OnCpu (k.exec (.tick rsp)) :=
  ⟨exec_sound h.sound _, Sched.schedulerTick_neat h.neat h.sound.pids.idle.2.1 rsp,
    Sched.schedulerTick_solo h.neat h.solo rsp⟩

theorem init_onCpu (idleStack : Nat) : OnCpu (init idleStack) := by
  refine ⟨init_sound idleStack, ⟨(init_sound idleStack).ordered.lists, fun i => ?_⟩,
    fun i hi hr => ?_⟩
  · simp only [init, Sched.schedulerInit]
    split
    · exact .fresh (fun hq => absurd hq Bool.false_ne_true) (le_refl _) rfl fun _ => by
        simp only
        omega
    · exact .fresh (fun hq => absurd hq Bool.false_ne_true) (by decide : (0 : Int) ≤ 1) rfl
        fun hd => absurd rfl hd
  · simp only [init, Sched.schedulerInit, if_neg hi] at hr
    cases hr

theorem IsCall.not_tick {op : Op} (h : op.IsCall = true) (rsp : Nat) : op ≠ .tick rsp := by
  rintro rfl
  cases h

theorem OnCpu.step (h : OnCpu k) {l : CpuLabel} {k' : Kernel} (hg : cpuMachine.guard k l)
    (hstep : cpuMachine.step k l = some k') : OnCpu k' := by
  cases l with
  | call op rsp =>
      have hop := h.exec (IsCall.not_tick hg.1) fun _ _ => hg.2
      simp only [cpuMachine] at hstep
      split at hstep
      · obtain rfl := Option.some.inj hstep
        exact hop.tick rsp
      · obtain rfl := Option.some.inj hstep
        exact hop
  | timer rsp =>
      obtain rfl := Option.some.inj hstep
      exact h.tick rsp
  | keyboard =>
      obtain rfl := Option.some.inj hstep
      exact h.exec (fun _ => by rintro ⟨⟩) fun _ e => by cases e

theorem cpuMachine_onCpu {idleStack : Nat} (h : cpuMachine.Reach (init idleStack) k) :
    OnCpu k :=
  h.invariant (init_onCpu idleStack) fun _ _ _ hk hg hstep => hk.step hg hstep

/-- A tick follows a call or is the timer's. -/
theorem tickOf_some {l : CpuLabel} {k₁ : Kernel} {rsp : Nat}
    (ht : k.tickOf l = some (k₁, rsp)) :
    (∃ op, l = .call op rsp ∧ k₁ = k.exec op) ∨ (l = .timer rsp ∧ k₁ = k) := by
  cases l with
  | call op r =>
      simp only [tickOf] at ht
      split at ht
      · obtain ⟨rfl, rfl⟩ := Prod.ext_iff.mp (Option.some.inj ht)
        exact .inl ⟨op, rfl, rfl⟩
      · cases ht
  | timer r =>
      obtain ⟨rfl, rfl⟩ := Prod.ext_iff.mp (Option.some.inj ht)
      exact .inr ⟨rfl, rfl⟩
  | keyboard => cases ht

theorem tickOf_onCpu (h : OnCpu k) {l : CpuLabel} (hg : cpuMachine.guard k l)
    {k₁ : Kernel} {rsp : Nat} (ht : k.tickOf l = some (k₁, rsp)) : OnCpu k₁ := by
  rcases tickOf_some ht with ⟨op, rfl, rfl⟩ | ⟨-, rfl⟩
  · exact h.exec (IsCall.not_tick hg.1) fun _ _ => hg.2
  · exact h

/-- **Only runnable processes are dispatched**: in every state of a run the
processes on the ready queues are ready, a running process other than idle is
the current one and on no queue, the current slot is not dead, and every
`scheduler_tick` of the next step dispatches a ready process, or idle if nobody
was ready or running. -/
theorem only_runnable_dispatched {idleStack : Nat} (h : cpuMachine.Reach (init idleStack) k) :
    (∃ L, Queues k.sched L ∧ (∀ q, ∀ i ∈ L q, (k.proc i).state = .ready) ∧
      ∀ i, i ≠ 0 → (k.proc i).state = .running → i = k.sched.currentIdx ∧ ∀ q, i ∉ L q) ∧
    (k.proc k.sched.currentIdx).state ≠ .dead ∧
    ∀ l k₁ rsp, cpuMachine.guard k l → k.tickOf l = some (k₁, rsp) → k₁.sched.Dispatches rsp := by
  have hk := cpuMachine_onCpu h
  obtain ⟨L, hL⟩ := hk.neat.lists
  have hready : ∀ q, ∀ i ∈ L q, (k.proc i).state = .ready := fun q i hi =>
    (hk.neat.tidy i).queued ((hL.mem_iff i q).mp hi).1
  refine ⟨⟨L, hL, hready, fun i hi hr => ⟨hk.solo i hi hr, fun q hq => ?_⟩⟩,
    hk.sound.pids.current, fun l k₁ rsp hg ht => ?_⟩
  · cases hr.symm.trans (hready q i hq)
  · have h1 := tickOf_onCpu hk hg ht
    exact Sched.schedulerTick_dispatches h1.neat h1.sound.ordered h1.solo rsp

/-- The shell waits for its child: the tick that follows dispatches the child,
the only ready process. -/
theorem only_runnable_dispatched_wait : ∃ k : Kernel,
    cpuMachine.Reach (init 1000) k ∧ k.sched.currentIdx = 1 ∧ (k.proc 2).state = .ready ∧
      k.tickOf (.call (.wait 2) 0) = some (k.exec (.wait 2), 0) ∧
      ((k.exec (.wait 2)).proc 1).state = .blocked ∧ (k.exec (.wait 2)).sched.Dispatches 0 := by
  obtain ⟨k, hk, hcur, h2, ht, hg, hb⟩ := cpuMachine.exists_reach_of_trace (s := init 1000)
    [.call (.create [115] 3 1 5000) 0, .call (.create [99] 3 0 9000) 0]
    (P := fun k => k.sched.currentIdx = 1 ∧ (k.proc 2).state = .ready ∧
      (k.exec (.wait 2)).sched.schedulerShouldReschedule = true ∧
      cpuMachine.guard k (.call (.wait 2) 0) ∧
      ((k.exec (.wait 2)).proc 1).state = .blocked) (by decide +kernel)
  have htick : k.tickOf (.call (.wait 2) 0) = some (k.exec (.wait 2), 0) := by
    rw [tickOf, if_pos ht]
  exact ⟨k, hk, hcur, h2, htick, hb, (only_runnable_dispatched hk).2.2 _ _ _ hg htick⟩

end Kernel

end TP2Kernel
