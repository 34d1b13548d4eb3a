/-
TP2Kernel/ReadyQueueRun.lean

The ready queues over whole runs of the kernel.  `Ordered strict ex s` holds
between operations with `ex` empty: the links spell five lists, every ready
process is on one of them, and no dead, zombie or running process is.  Inside an
operation a process can be ready and off its queue; `ex` names the processes
for which that is the case.  `strict` names the slots that are not queued when
blocked either: all of them in runs without `scheduler_wait`, which does not take
its caller off a queue.

`scheduler_kill` takes its victim off the queue first and only later marks it
dead; in between, closing the victim's pipe ends wakes processes.  The victim
is not one of them because its pid has just been taken out of every active
semaphore (`closeProcessFds_kept`).
-/
import TP2Kernel.Wakes

namespace TP2Kernel

/-- The states that keep a process off the queues: dead, zombie and running, and under
the strict reading blocked. -/
def Unqueued (strict : Prop) : ProcState → Prop
  | .dead | .zombie | .running => True
  | .blocked => strict
  | .ready => False

/-- The links spell lists, every ready process outside `ex` is queued, and no
dead, zombie or running process is; of the slots in `strict` no blocked one is either. -/
structure Ordered (strict ex : Slot → Prop) (s : Sched) : Prop where
  lists : ∃ L, Queues s L
  covered : ∀ i, i ≠ 0 → ¬ ex i → (s.processTable i).state = .ready →
    (s.processTable i).inReadyQueue = true
  retired : ∀ i, Unqueued (strict i) (s.processTable i).state →
    (s.processTable i).inReadyQueue = false

namespace Ordered

variable {st ex ex' : Slot → Prop} {s s' : Sched} {i : Slot}

theorem mono (h : Ordered st ex s) (hex : ∀ i, ex i → ex' i) : Ordered st ex' s :=
  ⟨h.lists, fun i h0 hi => h.covered i h0 fun he => hi (hex i he), h.retired⟩

theorem of_tables (h : Ordered st ex s) (hT : s'.processTable = s.processTable)
    (hQ : s'.readyQueues = s.readyQueues) : Ordered st ex s' := by
  obtain ⟨L, hL⟩ := h.lists
  refine ⟨⟨L, hL.congr hQ ?_ ?_ ?_⟩, ?_, ?_⟩
  · intro j
    rw [hT]
  · intro j
    rw [hT]
  · intro j _
    unfold Sched.queueOf
    rw [hT]
  · rw [hT]
    exact h.covered
  · rw [hT]
    exact h.retired

/-- A change of one process outside its queue fields. -/
theorem modify (h : Ordered st ex s) {f : PCB → PCB}
    (hnx : (f (s.processTable i)).readyNext = (s.processTable i).readyNext)
    (hin : (f (s.processTable i)).inReadyQueue = (s.processTable i).inReadyQueue)
    (heff : (s.processTable i).inReadyQueue = true →
      (f (s.processTable i)).effectivePriority = (s.processTable i).effectivePriority)
    (hready : (f (s.processTable i)).state = .ready →
      i = 0 ∨ ex i ∨ (s.processTable i).inReadyQueue = true)
    (hret : Unqueued (st i) (f (s.processTable i)).state →
      (s.processTable i).inReadyQueue = false) : Ordered st ex (s.modify i f) := by
  obtain ⟨L, hL⟩ := h.lists
  have hin' : ∀ j, ((s.modify i f).processTable j).inReadyQueue
      = (s.processTable j).inReadyQueue := fun j => s.modify_field i j f PCB.inReadyQueue hin
  refine ⟨⟨L, hL.congr rfl (fun j => s.modify_field i j f PCB.readyNext hnx) hin' ?_⟩, ?_, ?_⟩
  · intro j hj
    unfold Sched.queueOf
    by_cases hji : j = i
    · subst hji
      rw [Sched.modify_self, heff hj]
    · rw [s.modify_of_ne _ _ _ hji]
  · intro j h0 hex hj
    rw [hin']
    by_cases hji : j = i
    · subst hji
      rw [Sched.modify_self] at hj
      exact ((hready hj).resolve_left h0).resolve_left hex
    · rw [s.modify_of_ne _ _ _ hji] at hj
      exact h.covered j h0 hex hj
  · intro j hj
    rw [hin']
    by_cases hji : j = i
    · subst hji
      rw [Sched.modify_self] at hj
      exact hret hj
    · rw [s.modify_of_ne _ _ _ hji] at hj
      exact h.retired j hj

theorem ready_cases (h : Ordered st ex s) (hr : (s.processTable i).state = .ready) :
    i = 0 ∨ ex i ∨ (s.processTable i).inReadyQueue = true := by
  by_cases h0 : i = 0
  · exact .inl h0
  · by_cases hex : ex i
    · exact .inr (.inl hex)
    · exact .inr (.inr (h.covered i h0 hex hr))

/-- A queued process is in a state that allows it. -/
theorem queued_alive (h : Ordered st ex s) (hq : (s.processTable i).inReadyQueue = true) :
    ¬ Unqueued (st i) (s.processTable i).state := by
  intro hu
  have hret := h.retired i hu
  rw [hq] at hret
  cases hret

/-- A change of one process that keeps queue fields, priority and state. -/
theorem modify_kept (h : Ordered st ex s) {f : PCB → PCB}
    (hnx : ∀ p, (f p).readyNext = p.readyNext) (hin : ∀ p, (f p).inReadyQueue = p.inReadyQueue)
    (heff : ∀ p, (f p).effectivePriority = p.effectivePriority)
    (hst : ∀ p, (f p).state = p.state) : Ordered st ex (s.modify i f) := by
  refine h.modify (hnx _) (hin _) (fun _ => heff _) ?_ ?_
  · rw [hst]
    exact h.ready_cases
  · rw [hst]
    exact h.retired i

/-- A process that is not ready needs no exemption. -/
theorem unexempt (h : Ordered st (fun j => ex j ∨ j = i) s)
    (hst : (s.processTable i).state ≠ .ready) : Ordered st ex s := by
  refine ⟨h.lists, fun j hj hex hr => ?_, h.retired⟩
  refine h.covered j hj (fun he => he.elim hex fun hji => ?_) hr
  rw [hji] at hr
  exact hst hr

/-- A process off the queues may change in any way that keeps it off. -/
theorem modify_off (h : Ordered st ex s) (hin : (s.processTable i).inReadyQueue = false)
    {f : PCB → PCB} (hf : (f (s.processTable i)).inReadyQueue = false)
    (hready : (f (s.processTable i)).state = .ready → i = 0 ∨ ex i) :
    Ordered st ex (s.modify i f) := by
  obtain ⟨L, hL⟩ := h.lists
  have hflag : ∀ j, ((s.modify i f).processTable j).inReadyQueue
      = (s.processTable j).inReadyQueue :=
    fun j => s.modify_field i j f PCB.inReadyQueue (hf.trans hin.symm)
  refine ⟨⟨L, hL.modify_off hin hf⟩, fun j h0 hex hr => ?_, fun j hj => ?_⟩
  · rw [hflag]
    by_cases hji : j = i
    · subst hji
      rw [Sched.modify_self] at hr
      exact absurd ((hready hr).resolve_left h0) hex
    · rw [s.modify_of_ne _ _ _ hji] at hr
      exact h.covered j h0 hex hr
  · rw [hflag]
    by_cases hji : j = i
    · rw [hji]
      exact hin
    · rw [s.modify_of_ne _ _ _ hji] at hj
      exact h.retired j hj

/-! ### The queue operations -/

/-- Putting a process on its queue ends its exemption. -/
theorem enqueue (h : Ordered st (fun j => ex j ∨ j = i) s) (h0 : i ≠ 0)
    (hu : ¬ Unqueued (st i) (s.processTable i).state) : Ordered st ex (s.enqueueReadyQueue i) := by
  obtain ⟨L, hL⟩ := h.lists
  by_cases hidx : (s.processTable i).inReadyQueue = true
  · have hself : s.enqueueReadyQueue i = s := by
      rw [Sched.enqueueReadyQueue, if_pos (.inr hidx)]
    rw [hself]
    refine ⟨h.lists, fun j hj hex hr => ?_, h.retired⟩
    by_cases hji : j = i
    · rw [hji]
      exact hidx
    · exact h.covered j hj (fun he => he.elim hex hji) hr
  · have hidx' : (s.processTable i).inReadyQueue = false := by simpa using hidx
    have hreq := s.enqueueReadyQueue_requeued i
    have hin : ∀ j, ((s.enqueueReadyQueue i).processTable j).inReadyQueue =
        if j = i then true else (s.processTable j).inReadyQueue := by
      refine (s.enqueueReadyQueue_eq h0 hidx' fun ht => ?_).2.1
      exact hL.not_mem hidx' _ (List.mem_of_getLast? ((hL.queue _).tail_eq.symm.trans ht))
    refine ⟨⟨_, hL.enqueue h0 hidx'⟩, ?_, ?_⟩
    · intro j hj hex hr
      rw [hin]
      split
      · rfl
      · rename_i hji
        rw [hreq.state] at hr
        exact h.covered j hj (fun he => he.elim hex hji) hr
    · intro j hj
      rw [hreq.state] at hj
      have hji : j ≠ i := by
        rintro rfl
        exact hu hj
      rw [hin, if_neg hji]
      exact h.retired j hj

/-- Taking a process off its queue makes it exempt. -/
theorem remove (h : Ordered st ex s) (i : Slot) :
    Ordered st (fun j => ex j ∨ j = i) (s.removeFromReadyQueue i) ∧
      ((s.removeFromReadyQueue i).processTable i).inReadyQueue = false := by
  obtain ⟨L, hL⟩ := h.lists
  have hreq := s.removeFromReadyQueue_requeued i
  by_cases hidx : (s.processTable i).inReadyQueue = true
  · have h0 := hL.ne_zero hidx
    obtain ⟨xs, ys, hq⟩ := List.append_of_mem (hL.mem_of_queued hidx)
    have hnd := (hL.queue (s.queueOf i)).nodup
    rw [hq] at hnd
    have hxs : i ∉ xs := fun hm =>
      (List.nodup_cons.mp (List.nodup_middle.mp hnd)).1 (List.mem_append_left _ hm)
    have hin := (s.removeFromReadyQueue_eq h0 hidx (hL.findPrev_eq hq)
      fun he => hxs (List.mem_of_getLast? he)).2.1
    refine ⟨⟨⟨_, hL.remove hidx⟩, ?_, ?_⟩, by rw [hin, if_pos rfl]⟩
    · intro j hj hex hr
      rw [hreq.state] at hr
      rw [hin, if_neg fun he => hex (.inr he)]
      exact h.covered j hj (fun he => hex (.inl he)) hr
    · intro j hj
      rw [hreq.state] at hj
      rw [hin]
      split
      · rfl
      · exact h.retired j hj
  · have hself : s.removeFromReadyQueue i = s := by
      rw [Sched.removeFromReadyQueue, if_pos (.inr (by simpa using hidx))]
    rw [hself]
    exact ⟨h.mono fun _ => .inl, by simpa using hidx⟩

/-! ### Readying -/

theorem readyPrep (h : Ordered st ex s) (i : Slot) (r : Bool) :
    Ordered st (fun j => ex j ∨ j = i) (s.readyPrep i r) := by
  obtain ⟨h1, hin1⟩ := h.remove i
  have href : ∀ p : PCB, (Sched.refreshed r p).readyNext = p.readyNext ∧
      (Sched.refreshed r p).inReadyQueue = p.inReadyQueue ∧
      (Sched.refreshed r p).state = p.state := by
    intro p
    unfold Sched.refreshed
    split <;> exact ⟨rfl, rfl, rfl⟩
  have h2 : Ordered st (fun j => ex j ∨ j = i)
      ((s.removeFromReadyQueue i).modify i (Sched.refreshed r)) := by
    refine h1.modify (href _).1 (href _).2.1 ?_ (fun _ => .inr (.inl (.inr rfl))) fun _ => hin1
    rw [hin1]
    rintro ⟨⟩
  exact h2.modify rfl rfl (fun _ => rfl) (fun _ => .inr (.inl (.inr rfl))) (False.elim ·)

/-- `make_ready` ends the exemption of the process it acts on. -/
theorem makeReady_exempt (h : Ordered st (fun j => ex j ∨ j = i) s) (hc : s.CanReady i) (r : Bool) :
    Ordered st ex (s.makeReady i r) := by
  rw [s.makeReady_eq hc]
  have hprep : Ordered st (fun j => ex j ∨ j = i) (s.readyPrep i r) :=
    (h.readyPrep i r).mono fun _ he => he.elim id .inr
  have hst : ((s.readyPrep i r).processTable i).state = .ready := by
    show ((s.readyPrep i r).core i).state = .ready
    rw [s.readyPrep_core, Function.update_self]
    rfl
  refine (hprep.enqueue hc.1 ?_).of_tables (Sched.preempt_processTable _ _)
    (Sched.preempt_readyQueues _ _)
  rw [hst]
  exact id

/-- `make_ready` keeps the queues in order. -/
theorem makeReady (h : Ordered st ex s) (i : Slot) (r : Bool) : Ordered st ex (s.makeReady i r) := by
  by_cases hc : s.CanReady i
  · exact (h.mono fun _ => .inl).makeReady_exempt hc r
  · rw [s.makeReady_of_not hc]
    exact h

theorem schedulerUnblock (h : Ordered st ex s) (pid : Int) : Ordered st ex (s.schedulerUnblock pid) := by
  unfold Sched.schedulerUnblock
  split
  · exact h
  · exact h.makeReady _ true

/-! ### Blocking and priorities -/

theorem schedulerBlock (h : Ordered st ex s) (pid : Int) : Ordered st ex (s.schedulerBlock pid) := by
  simp only [Sched.schedulerBlock]
  split
  · exact h
  · rename_i i _
    obtain ⟨h1, hin⟩ := h.remove i
    have h2 : Ordered st ex ((s.removeFromReadyQueue i).modify i fun p =>
        { p with state := .blocked }) := by
      refine unexempt (i := i) (h1.modify_off hin hin fun e => by cases e) ?_
      rw [Sched.modify_self]
      rintro ⟨⟩
    split
    · exact (h2.modify_kept (f := Sched.expired) (fun _ => rfl) (fun _ => rfl) (fun _ => rfl)
        fun _ => rfl).of_tables rfl rfl
    · exact h2

theorem schedulerNice (h : Ordered st ex s) (pid pr : Int) :
    Ordered st ex (s.schedulerNice pid pr).1 := by
  simp only [Sched.schedulerNice]
  split
  · exact h
  · split
    · exact h
    · rename_i i _
      have hfin : ∀ t : Sched, Ordered st ex t → ∀ c : Prop, [Decidable c] →
          Ordered st ex (if c then ({ t with needResched := true }, (0 : Int)) else (t, 0)).1 := by
        intro t ht c _
        split
        · exact ht.of_tables rfl rfl
        · exact ht
      apply hfin
      by_cases hq : (s.processTable i).inReadyQueue = true
      · simp only [hq, if_true]
        obtain ⟨L, hL⟩ := h.lists
        obtain ⟨h1, hin⟩ := h.remove i
        have hst := (s.removeFromReadyQueue_requeued i).state i
        have hret := h.queued_alive hq
        have h2 : Ordered st (fun j => ex j ∨ j = i)
            ((s.removeFromReadyQueue i).modify i (Sched.reniced pr)) := by
          refine h1.modify rfl rfl ?_ (fun _ => .inr (.inl (.inr rfl))) fun _ => hin
          rw [hin]
          rintro ⟨⟩
        refine h2.enqueue (hL.ne_zero hq) ?_
        rw [Sched.modify_self]
        show ¬ Unqueued (st i) ((s.removeFromReadyQueue i).processTable i).state
        rw [hst]
        exact hret
      · simp only [hq, Bool.false_eq_true, if_false]
        exact h.modify rfl rfl (fun hf => absurd hf hq) h.ready_cases (h.retired i)

theorem schedulerYield (h : Ordered st ex s) : Ordered st ex s.schedulerYield :=
  (h.modify_kept (f := Sched.expired) (fun _ => rfl) (fun _ => rfl) (fun _ => rfl)
    fun _ => rfl).of_tables rfl rfl

/-! ### Ageing and dispatching -/

theorem ageProcess (h : Ordered st ex s) (i : Slot) : Ordered st ex (s.ageProcess i) := by
  simp only [Sched.ageProcess]
  split
  · exact h
  · rename_i hcond
    simp only [not_or, Bool.not_eq_true', Bool.not_eq_false, ne_eq, not_not] at hcond
    obtain ⟨L, hL⟩ := h.lists
    have h0 : i ≠ 0 := hL.ne_zero hcond.1
    have h1 : Ordered st ex (s.modify i fun p => { p with readyWaitTicks := p.readyWaitTicks + 1 }) :=
      h.modify_kept (fun _ => rfl) (fun _ => rfl) (fun _ => rfl) fun _ => rfl
    split
    · obtain ⟨h2, hin⟩ := h1.remove i
      have hreq := Sched.removeFromReadyQueue_requeued
        (s.modify i fun p => { p with readyWaitTicks := p.readyWaitTicks + 1 }) i
      have hst : ((Sched.removeFromReadyQueue (s.modify i fun p =>
          { p with readyWaitTicks := p.readyWaitTicks + 1 }) i).processTable i).state = .ready := by
        rw [hreq.state, Sched.modify_self]
        exact hcond.2
      refine Ordered.enqueue (i := i) (h2.modify rfl rfl ?_ (fun _ => .inr (.inl (.inr rfl)))
        fun _ => hin) h0 ?_
      · rw [hin]
        rintro ⟨⟩
      · rw [Sched.modify_self]
        show ¬ Unqueued (st i) (Sched.processTable _ i).state
        rw [hst]
        exact id
    · exact h1

theorem foldl {f : Sched → Slot → Sched} (hf : ∀ s i, Ordered st ex s → Ordered st ex (f s i))
    (h : Ordered st ex s) (l : List Slot) : Ordered st ex (l.foldl f s) := by
  induction l generalizing s with
  | nil => exact h
  | cons i l ih => exact ih (hf s i h)

theorem ageReadyProcesses (h : Ordered st ex s) : Ordered st ex s.ageReadyProcesses :=
  h.foldl (fun _ i h => h.ageProcess i) _

/-- The dequeued process was queued; it is exempt until it is dispatched. -/
theorem dequeueReadyQueue (h : Ordered st ex s) (pr : Int) :
    (s.dequeueReadyQueue pr = (s, none)) ∨
    ∃ i, (s.dequeueReadyQueue pr).2 = some i ∧
      (s.processTable i).inReadyQueue = true ∧
      Ordered st (fun j => ex j ∨ j = i) (s.dequeueReadyQueue pr).1 ∧
      ((s.dequeueReadyQueue pr).1.processTable i).inReadyQueue = false := by
  obtain ⟨L, hL⟩ := h.lists
  have hhead := (hL.queue (priorityQueueIndex pr)).head_eq
  rcases hq : L (priorityQueueIndex pr) with - | ⟨i, l⟩
  · left
    rw [hq] at hhead
    simp only [Sched.dequeueReadyQueue]
    rw [hhead]
    rfl
  · right
    rw [hq] at hhead
    obtain ⟨hres, -, hin, -, -⟩ := s.dequeueReadyQueue_eq hhead
    have hcore := s.dequeueReadyQueue_core pr
    have hst : ∀ j, ((s.dequeueReadyQueue pr).1.processTable j).state
        = (s.processTable j).state := by
      intro j
      show ((s.dequeueReadyQueue pr).1.core j).state = (s.core j).state
      rw [hcore]
    have hmem : i ∈ L (priorityQueueIndex pr) := by
      rw [hq]
      exact List.mem_cons_self
    refine ⟨i, hres, ((hL.mem_iff _ _).mp hmem).1, ⟨⟨_, (hL.dequeue hq).2⟩, ?_, ?_⟩,
      by rw [hin, if_pos rfl]⟩
    · intro j hj hex hr
      rw [hst] at hr
      rw [hin, if_neg fun he => hex (.inr he)]
      exact h.covered j hj (fun he => hex (.inl he)) hr
    · intro j hj
      rw [hst] at hj
      rw [hin]
      split
      · rfl
      · exact h.retired j hj

theorem dequeueFrom (h : Ordered st ex s) (prs : List Int) :
    (s.dequeueFrom prs = (s, 0)) ∨
    ((s.processTable (s.dequeueFrom prs).2).inReadyQueue = true ∧
      Ordered st (fun j => ex j ∨ j = (s.dequeueFrom prs).2) (s.dequeueFrom prs).1 ∧
      ((s.dequeueFrom prs).1.processTable (s.dequeueFrom prs).2).inReadyQueue = false) := by
  induction prs with
  | nil => exact .inl rfl
  | cons pr prs ih =>
      rcases h.dequeueReadyQueue pr with hnone | ⟨i, hres, hq, hord, hin⟩
      · rw [Sched.dequeueFrom, hnone]
        exact ih
      · right
        rcases hd : s.dequeueReadyQueue pr with ⟨t, r⟩
        rw [hd] at hres hord hin
        simp only at hres hord hin
        subst hres
        simp only [Sched.dequeueFrom, hd]
        refine ⟨hq, ?_, ?_⟩
        · refine hord.modify rfl rfl ?_ (fun _ => .inr (.inl (.inr rfl))) fun _ => hin
          rw [hin]
          rintro ⟨⟩
        · rw [Sched.modify_self]
          exact hin

/-- The process dispatched next is the idle one or was allowed on a queue. -/
theorem dequeueNextReady_alive (h : Ordered st ex s) :
    s.dequeueNextReady.2 = 0 ∨ ¬ Unqueued (st s.dequeueNextReady.2) (s.core s.dequeueNextReady.2).state := by
  have hage := h.ageReadyProcesses
  have hcore := s.ageReadyProcesses_core
  unfold Sched.dequeueNextReady
  generalize s.ageReadyProcesses = t at hage hcore ⊢
  rcases hage.dequeueFrom Sched.prioritiesDown with hnone | ⟨hq, -, -⟩
  · left
    rw [hnone]
  · right
    rw [← hcore]
    exact hage.queued_alive hq

/-- The dispatched process runs, so it need not be queued. -/
theorem dispatch (h : Ordered st ex s) : Ordered st ex s.dispatch.1 := by
  have hage := h.ageReadyProcesses
  rcases hage.dequeueFrom Sched.prioritiesDown with hnone | ⟨-, hord, hin⟩
  · unfold Sched.dispatch Sched.dequeueNextReady
    rw [hnone]
    generalize s.ageReadyProcesses = t at hage ⊢
    obtain ⟨L, hL⟩ := hage.lists
    have hoff : (t.processTable 0).inReadyQueue = false := by
      simpa using fun hq => hL.ne_zero hq rfl
    exact (hage.modify (f := Sched.started) (i := 0) rfl rfl (fun _ => rfl)
      (fun e => by cases e) fun _ => hoff).of_tables rfl rfl
  · unfold Sched.dispatch Sched.dequeueNextReady
    generalize s.ageReadyProcesses.dequeueFrom Sched.prioritiesDown = r at hord hin ⊢
    refine Ordered.of_tables (s := r.1.modify r.2 Sched.started) ?_ rfl rfl
    refine unexempt (i := r.2) (hord.modify_off hin hin fun e => by cases e) ?_
    rw [Sched.modify_self]
    rintro ⟨⟩

theorem putBack (h : Ordered st ex s) : Ordered st ex s.putBack := by
  unfold Sched.putBack
  split
  · exact h.makeReady _ true
  · exact h

theorem schedulerTick (h : Ordered st ex s) (rsp : Nat) : Ordered st ex (s.schedulerTick rsp).1 := by
  have h1 : Ordered st ex (s.saveRsp rsp) :=
    h.modify_kept (fun _ => rfl) (fun _ => rfl) (fun _ => rfl) fun _ => rfl
  have h2 : Ordered st ex (s.saveRsp rsp).countTick :=
    h1.modify_kept (fun _ => rfl) (fun _ => rfl) (fun _ => rfl) fun _ => rfl
  have hcase := s.schedulerTick_cases rsp
  generalize (s.schedulerTick rsp).1 = t at hcase
  cases hcase with
  | keeps _ => exact h2
  | preempts _ => exact h2.putBack.dispatch
  | switches _ => exact h1.dispatch

/-! ### Creating, waiting, foreground -/

theorem setForeground (h : Ordered st ex s) (i : Slot) (fg : Int) :
    Ordered st ex (s.modify i (Sched.setForeground fg)) :=
  h.modify_kept (fun _ => rfl) (fun _ => rfl) (fun _ => rfl) fun _ => rfl

theorem ensureForegroundOwner (h : Ordered st ex s) : Ordered st ex s.ensureForegroundOwner := by
  unfold Sched.ensureForegroundOwner
  split
  · exact h
  · split
    · exact h
    · split
      · exact h.setForeground _ 1
      · exact h

theorem restoreParentForeground (h : Ordered st ex s) (i : Slot) :
    Ordered st ex (s.restoreParentForeground i) := by
  simp only [Sched.restoreParentForeground]
  split
  · exact h
  · refine Ordered.setForeground ?_ i 0
    split
    · exact h
    · split
      · exact (h.setForeground _ 1).of_tables rfl rfl
      · exact h

theorem wakeWaiter (h : Ordered st ex s) (pid : Int) (hand : Bool) (i : Slot) :
    Ordered st ex (Sched.wakeWaiter pid hand s i) := by
  simp only [Sched.wakeWaiter]
  split
  · have h1 : Ordered st ex (s.modify i fun p => { p with waitingFor := -1 }) :=
      h.modify_kept (fun _ => rfl) (fun _ => rfl) (fun _ => rfl) fun _ => rfl
    refine Ordered.makeReady ?_ i true
    split
    · exact (h1.setForeground i 1).of_tables rfl rfl
    · exact h1
  · exact h

theorem wakeWaiters (h : Ordered st ex s) (pid : Int) (hand : Bool) :
    Ordered st ex (s.wakeWaiters pid hand) :=
  h.foldl (fun _ i h => h.wakeWaiter pid hand i) _

/-- Filling a free slot: nothing was queued there. -/
theorem createPrep (h : Ordered st ex s) {slot : Slot} (hslot : s.findFreeSlot = some slot)
    (name : List UInt8) (pr fg : Int) (stack : Nat) :
    Ordered st (fun j => ex j ∨ j = slot) (s.createPrep name pr fg stack slot) := by
  have hin : (s.processTable slot).inReadyQueue = false :=
    h.retired slot ((Sched.findFreeSlot_some hslot).2 ▸ trivial)
  have h1 : Ordered st (fun j => ex j ∨ j = slot) { s with nextPid := s.nextPid + 1 } :=
    (h.mono fun _ => .inl).of_tables rfl rfl
  have h2 := h1.modify_off (f := Sched.created s.nextPid s.current.pid name pr fg stack) hin rfl
    fun _ => .inr (.inr rfl)
  unfold Sched.createPrep
  refine Ordered.of_tables (s := Sched.modify _ slot fun p => { p with fds := initialFds }) ?_ rfl rfl
  refine Ordered.modify_kept ?_ (fun _ => rfl) (fun _ => rfl) (fun _ => rfl) fun _ => rfl
  split
  · exact h2.setForeground _ 0
  · exact h2

theorem schedulerCreate (h : Ordered st ex s) (name : List UInt8) (priority fg : Int) (stack : Nat) :
    Ordered st ex (s.schedulerCreate name priority fg stack).1 := by
  have hcase := s.schedulerCreate_cases name priority fg stack
  generalize s.schedulerCreate name priority fg stack = r at hcase
  cases hcase with
  | refused => exact h
  | creates slot pr hpr hslot hstack =>
      refine (h.createPrep hslot name pr fg stack).makeReady_exempt ?_ true
      obtain ⟨fg', hcore⟩ := s.createPrep_core_slot name pr fg stack slot
      refine ⟨(Sched.findFreeSlot_some hslot).1, ?_, ?_⟩
      · rw [hcore]
        rintro ⟨⟩
      · rw [hcore]
        rintro ⟨⟩

theorem reapProcess (h : Ordered st ex s) (i : Slot) : Ordered st ex (s.reapProcess i) := by
  simp only [Sched.reapProcess]
  split
  · exact h
  · obtain ⟨h1, hin⟩ := h.remove i
    refine unexempt (i := i) ?_ ?_
    · split
      · exact Ordered.modify_off (s := Sched.freeStack _ _) (f := Sched.reaped)
          (h1.of_tables rfl rfl) hin rfl fun e => by cases e
      · exact h1.modify_off hin rfl fun e => by cases e
    · rw [Sched.modify_self]
      rintro ⟨⟩

/-- `scheduler_wait` does not take its caller off a queue. -/
theorem schedulerWait (h : Ordered st ex s) (pid : Int)
    (hoff : st s.currentIdx → (s.processTable s.currentIdx).inReadyQueue = false) :
    Ordered st ex (s.schedulerWait pid).1 := by
  have hcase := s.schedulerWait_cases pid
  generalize s.schedulerWait pid = r at hcase
  cases hcase with
  | refused => exact h
  | reaps i s' _ _ _ _ hs' =>
      rw [hs']
      exact (h.reapProcess i).of_tables rfl rfl
  | blocks i _ _ _ _ =>
      refine Ordered.of_tables (s := s.modify s.currentIdx (Sched.waiting pid)) ?_ rfl rfl
      exact h.modify rfl rfl (fun _ => rfl) (fun e => by cases e) hoff

/-- Wake-ups keep the queues in order. -/
theorem wakes {S : Int → Prop} (h : Ordered st ex s) (hw : Wakes S s s') : Ordered st ex s' :=
  hw.invariant h fun _ i ht _ _ => ht.makeReady i true

end Ordered

/-! ### The flag of one process -/

theorem Sched.makeReady_flag (s : Sched) {i j : Slot} (hj : j ≠ i) (r : Bool) :
    ((s.makeReady i r).processTable j).inReadyQueue = (s.processTable j).inReadyQueue := by
  by_cases hc : s.CanReady i
  · rw [s.makeReady_eq hc, preempt_processTable, enqueueReadyQueue_flag hj, readyPrep,
      modify_of_ne _ _ _ _ hj, modify_of_ne _ _ _ _ hj, removeFromReadyQueue_flag hj]
  · rw [s.makeReady_of_not hc]

theorem Sched.restoreParentForeground_flag (s : Sched) (i j : Slot) :
    ((s.restoreParentForeground i).processTable j).inReadyQueue
      = (s.processTable j).inReadyQueue := by
  simp only [restoreParentForeground]
  split
  · rfl
  · rw [modify_field _ _ _ _ PCB.inReadyQueue rfl]
    split
    · rfl
    · split
      · exact s.modify_field _ _ _ PCB.inReadyQueue rfl
      · rfl

/-- Waking others leaves the flag of a process alone. -/
theorem Wakes.flag {S : Int → Prop} {s s' : Sched} (h : Wakes S s s') {j : Slot}
    (hj : ¬ S (s.core j).pid) :
    (s'.core j).pid = (s.core j).pid ∧
      (s'.processTable j).inReadyQueue = (s.processTable j).inReadyQueue := by
  refine h.invariant (P := fun t => (t.core j).pid = (s.core j).pid ∧
    (t.processTable j).inReadyQueue = (s.processTable j).inReadyQueue) ⟨rfl, rfl⟩ ?_
  rintro t i ⟨hpid, hin⟩ - hS
  have hji : j ≠ i := by
    rintro rfl
    rw [hpid] at hS
    exact hj hS
  refine ⟨?_, (t.makeReady_flag hji true).trans hin⟩
  rw [t.makeReady_core]
  split
  · rw [Function.update_of_ne hji, hpid]
  · exact hpid

namespace Kernel

variable {st ex : Slot → Prop} {k : Kernel}

/-! ### Killing and exiting -/

theorem closeProcessFds_ordered (h : Ordered st ex k.sched) (idx : Slot) :
    Ordered st ex (k.closeProcessFds idx).sched :=
  closeProcessFds_invariant (P := fun k => Ordered st ex k.sched) h
    (fun _ _ h hr => h.wakes hr.wakes)
    fun _ _ _ h => h.modify_kept (fun _ => rfl) (fun _ => rfl) (fun _ => rfl) fun _ => rfl

/-- The process in slot `i` is off the queues and nobody can wake it. -/
structure Kept (i : Slot) (pid : Int) (k : Kernel) : Prop where
  off : (k.proc i).inReadyQueue = false
  pid_eq : (k.sched.core i).pid = pid
  quiet : ¬ k.Waiting pid

/-- The victim of a kill stays off the queues while its descriptors are
closed. -/
theorem closeProcessFds_kept {i : Slot} {pid : Int} (h : Kept i pid k) :
    Kept i pid (k.closeProcessFds i) := by
  refine closeProcessFds_invariant h ?_ ?_
  · intro k k' h hr
    obtain ⟨hpid, hin⟩ := hr.wakes.flag (j := i) (by rw [h.pid_eq]; exact h.quiet)
    exact ⟨hin.trans h.off, hpid.trans h.pid_eq, fun hw => h.quiet (hr.shrink _ hw)⟩
  · intro k fd d h
    refine ⟨?_, ?_, h.quiet⟩
    · show ((k.sched.modify i (setFd fd d)).processTable i).inReadyQueue = false
      rw [Sched.modify_self]
      exact h.off
    · show ((k.sched.modify i (setFd fd d)).processTable i).pid = pid
      rw [Sched.modify_self]
      exact h.pid_eq

theorem leave_ordered {s : Sched} (h : Ordered st ex s) (cur : Slot) (pid : Int) (hand : Bool) :
    Ordered st ex (leave s cur pid hand) := by
  obtain ⟨h1, hoff⟩ := h.remove cur
  simp only [leave]
  refine Ordered.ensureForegroundOwner (Ordered.wakeWaiters ?_ _ _)
  refine Ordered.of_tables (s := Sched.modify _ cur ended) ?_ rfl rfl
  refine Ordered.unexempt (i := cur) (h1.modify_off hoff hoff fun e => by cases e) ?_
  rw [Sched.modify_self]
  rintro ⟨⟩

theorem schedulerExitCurrent_ordered (h : Ordered st ex k.sched) (status : Int) :
    Ordered st ex (k.schedulerExitCurrent status).sched := by
  simp only [schedulerExitCurrent]
  split
  · exact h
  · have h1 : Ordered st ex (k.sched.modify k.sched.currentIdx (setExitStatus status)) :=
      h.modify_kept (fun _ => rfl) (fun _ => rfl) (fun _ => rfl) fun _ => rfl
    have h2 : Ordered st ex (k.exitPrep k.sched.currentIdx status).sched :=
      h1.restoreParentForeground _
    rw [onSched_sched]
    exact leave_ordered (closeProcessFds_ordered h2 _) _ _ _

theorem bury_ordered {s : Sched} {i : Slot} (h : Ordered st (fun j => ex j ∨ j = i) s)
    (hoff : (s.processTable i).inReadyQueue = false) (pid : Int) : Ordered st ex (bury s i pid) := by
  simp only [bury]
  refine Ordered.ensureForegroundOwner (Ordered.wakeWaiters ?_ _ _)
  have h1 : Ordered st ex (s.modify i killed) := by
    refine Ordered.unexempt (i := i) (h.modify_off hoff rfl fun e => by cases e) ?_
    rw [Sched.modify_self]
    rintro ⟨⟩
  split
  · refine Ordered.of_tables (s := (s.modify i killed).modify i fun p =>
      { p with stackBase := 0 }) ?_ rfl rfl
    exact h1.modify_kept (fun _ => rfl) (fun _ => rfl) (fun _ => rfl) fun _ => rfl
  · exact h1.of_tables rfl rfl

/-- After the first part of a kill the victim is off the queues and waits
nowhere. -/
theorem killPrep_kept (h : Ordered st ex k.sched) {i : Slot} {pid : Int}
    (hi : k.sched.findIndexByPid pid = some i) : Kept i pid (k.killPrep i pid) := by
  refine ⟨(Sched.restoreParentForeground_flag _ i i).trans (h.remove i).2, ?_,
    fun hw => ((waiting_semRemoveWaitingPid _ pid pid).mp hw).2 rfl⟩
  show (((k.sched.removeFromReadyQueue i).restoreParentForeground i).core i).pid = pid
  rw [(Sched.restoreParentForeground_fgOnly _ i).field i PCB.pid fun _ => rfl,
    (k.sched.removeFromReadyQueue_requeued i).core]
  exact (Sched.findIndexByPid_some hi).1

theorem killOther_ordered (h : Ordered st ex k.sched) {i : Slot} {pid : Int}
    (hi : k.sched.findIndexByPid pid = some i) : Ordered st ex (k.killOther i pid).sched := by
  have h2 : Ordered st (fun j => ex j ∨ j = i) (k.killPrep i pid).sched :=
    (h.remove i).1.restoreParentForeground i
  have h3 := closeProcessFds_ordered h2 i
  simp only [killOther, onSched_sched]
  exact bury_ordered h3 (closeProcessFds_kept (killPrep_kept h hi)).off pid

theorem schedulerKill_ordered (h : Ordered st ex k.sched) (pid : Int) :
    Ordered st ex (k.schedulerKill pid).1.sched := by
  simp only [schedulerKill]
  split
  · exact h
  · split
    · exact h
    · rename_i i hi
      split
      · exact schedulerExitCurrent_ordered h (-1)
      · exact killOther_ordered h hi

/-! ### Semaphores and pipes -/

theorem semWait_ordered (h : Ordered st ex k.sched) (semId : Int) :
    Ordered st ex (k.semWait semId).1.sched := by
  rw [semWait_sched]
  split
  · exact h.schedulerBlock _
  · exact h

theorem syscallPipeSetFd_ordered (h : Ordered st ex k.sched) (pid : Int) (fd : Nat) (pipeId : Int)
    (w : Bool) : Ordered st ex (k.syscallPipeSetFd pid fd pipeId w).1.sched :=
  syscallPipeSetFd_invariant (P := fun k' => Ordered st ex k'.sched) h
    (fun _ _ _ _ hrel => (h.wakes hrel.wakes).modify_kept (fun _ => rfl) (fun _ => rfl)
      (fun _ => rfl) fun _ => rfl) _ _ _ _

theorem StepCases.ordered {α : Type} {p : Fin maxPipes} {own other : Int} {move : Pipe → Pipe}
    {dry shut live : Prop} {fl bl ag sp dn : α} {r : Kernel × α}
    (hr : k.StepCases p own other move dry shut live fl bl ag sp dn r)
    (h : Ordered st ex k.sched) : Ordered st ex r.1.sched := by
  cases hr with
  | waits _ => exact semWait_ordered h _
  | stops _ => exact h
  | moves _ => exact h.wakes ((k.modifyPipe_releases p _).trans (semPost_releases _ _)).wakes

/-! ### Runs -/

/-- **Every piece of kernel code keeps the ready queues in order**; for the strict
reading of its slot, the caller of `scheduler_wait` has to be off the queues. -/
theorem exec_ordered (h : Ordered st ex k.sched) {op : Op}
    (hwait : ∀ pid, op = .wait pid → st k.sched.currentIdx →
      (k.proc k.sched.currentIdx).inReadyQueue = false) : Ordered st ex (k.exec op).sched := by
  cases op with
  | create name priority fg stack => exact h.schedulerCreate name priority fg stack
  | kill pid => exact schedulerKill_ordered h pid
  | killForeground =>
      simp only [exec, schedulerKillForeground]
      split
      · exact h
      · exact schedulerKill_ordered h _
  | block pid => exact h.schedulerBlock pid
  | unblock pid => exact h.schedulerUnblock pid
  | nice pid pr => exact h.schedulerNice pid pr
  | wait pid => exact h.schedulerWait pid (hwait pid rfl)
  | exit status => exact schedulerExitCurrent_ordered h status
  | yield => exact h.schedulerYield
  | tick rsp => exact h.schedulerTick rsp
  | semWait semId => exact semWait_ordered h semId
  | semOpen | semPost | semPostAll | semClose | pipeOpen | pipeClose => exact h.wakes (k.exec_wakes _ trivial)
  | pipeSetFd pid fd pipeId w => exact syscallPipeSetFd_ordered h pid fd pipeId w
  | pipeRead p => exact (k.pipeReadStep_cases p).ordered h
  | pipeWrite p c => exact (k.pipeWriteStep_cases p c).ordered h

theorem init_ordered (idleStack : Nat) : Ordered st ex (init idleStack).sched := by
  have hoff : ∀ i, ((init idleStack).sched.processTable i).inReadyQueue = false := by
    intro i
    simp only [init, Sched.schedulerInit]
    split <;> rfl
  have hstate : ∀ i, i ≠ 0 → ((init idleStack).sched.processTable i).state = .dead := by
    intro i h0
    simp only [init, Sched.schedulerInit, if_neg h0]
    rfl
  refine ⟨⟨fun _ => [], ⟨fun _ => Queue.nil, fun i q => ?_, hoff 0⟩⟩, fun i h0 _ hr => ?_,
    fun i _ => hoff i⟩
  · rw [hoff]
    exact iff_of_false List.not_mem_nil fun hm => Bool.noConfusion hm.1
  · rw [hstate i h0] at hr
    cases hr

end Kernel

/-! ### The lists -/

namespace Queues

variable {s : Sched} {L : Fin priorityLevels → List Slot}

/-- Over the five queues every slot occurs at most once. -/
theorem nodup_flatMap (hL : Queues s L) : ((List.finRange priorityLevels).flatMap L).Nodup := by
  refine List.nodup_flatMap.mpr ⟨fun q _ => (hL.queue q).nodup, ?_⟩
  refine (List.nodup_finRange priorityLevels).imp fun {q q'} hne => ?_
  intro i hi hi'
  exact hne (hL.disjoint hi hi')

/-- `enqueue_ready_queue` on the lists, for any process. -/
theorem enqueue_list (hL : Queues s L) (i : Slot) :
    Queues (s.enqueueReadyQueue i)
      (if i = 0 ∨ (s.processTable i).inReadyQueue = true then L
       else Function.update L (s.queueOf i) (L (s.queueOf i) ++ [i])) := by
  split
  · rename_i h
    rw [Sched.enqueueReadyQueue, if_pos h]
    exact hL
  · rename_i h
    simp only [not_or, Bool.not_eq_true] at h
    exact hL.enqueue h.1 h.2

/-- `remove_from_ready_queue` on the lists, for any process. -/
theorem remove_list (hL : Queues s L) (i : Slot) :
    Queues (s.removeFromReadyQueue i)
      (Function.update L (s.queueOf i) ((L (s.queueOf i)).erase i)) := by
  by_cases hi : (s.processTable i).inReadyQueue = true
  · exact hL.remove hi
  · have hi' : (s.processTable i).inReadyQueue = false := by simpa using hi
    rw [Sched.removeFromReadyQueue_of_not hi', List.erase_of_not_mem (hL.not_mem hi' _),
      Function.update_eq_self]
    exact hL

/-- `dequeue_ready_queue` on the lists. -/
theorem dequeue_list (hL : Queues s L) (pr : Int) :
    (s.dequeueReadyQueue pr).2 = (L (priorityQueueIndex pr)).head? ∧
      Queues (s.dequeueReadyQueue pr).1
        (Function.update L (priorityQueueIndex pr) (L (priorityQueueIndex pr)).tail) := by
  have hhead := (hL.queue (priorityQueueIndex pr)).head_eq
  rcases hq : L (priorityQueueIndex pr) with - | ⟨i, l⟩
  · rw [hq] at hhead
    have hself : s.dequeueReadyQueue pr = (s, none) := by
      simp only [Sched.dequeueReadyQueue]
      rw [hhead]
      rfl
    rw [hself]
    refine ⟨rfl, ?_⟩
    rw [List.tail_nil, ← hq, Function.update_eq_self]
    exact hL
  · exact hL.dequeue hq

end Queues

/-- **The ready queues refine lists.**  In every state the kernel reaches the
links spell five lists without repetition, every ready process is on the list
of its effective priority, and the queue operations append, erase and take the
head. -/
theorem readyQueues_refine {idleStack : Nat} {k : Kernel}
    (h : Kernel.machine.Reach (Kernel.init idleStack) k) :
    (∃ L, Queues k.sched L ∧
      (∀ q, (k.sched.readyQueues q).head = none ↔ (k.sched.readyQueues q).tail = none) ∧
      ((List.finRange priorityLevels).flatMap L).Nodup ∧
      (∀ i, i ≠ 0 → (k.proc i).state = .ready →
        i ∈ L (priorityQueueIndex (k.proc i).effectivePriority))) ∧
    ∀ s L, Queues s L →
      (∀ i, Queues (s.enqueueReadyQueue i)
        (if i = 0 ∨ (s.processTable i).inReadyQueue = true then L
         else Function.update L (s.queueOf i) (L (s.queueOf i) ++ [i]))) ∧
      (∀ i, Queues (s.removeFromReadyQueue i)
        (Function.update L (s.queueOf i) ((L (s.queueOf i)).erase i))) ∧
      (∀ pr, (s.dequeueReadyQueue pr).2 = (L (priorityQueueIndex pr)).head? ∧
        Queues (s.dequeueReadyQueue pr).1
          (Function.update L (priorityQueueIndex pr) (L (priorityQueueIndex pr)).tail)) := by
  have hord : Ordered (fun _ => False) (fun _ => False) k.sched := by
    refine h.invariant (I := fun k => Ordered (fun _ => False) (fun _ => False) k.sched)
      (Kernel.init_ordered idleStack) fun k op k' hk _ hs => ?_
    obtain rfl := Option.some.inj hs
    exact Kernel.exec_ordered hk fun _ _ => False.elim
  obtain ⟨L, hL⟩ := hord.lists
  refine ⟨⟨L, hL, fun q => (hL.queue q).ends, hL.nodup_flatMap, fun i h0 hr => ?_⟩,
    fun s L hL => ⟨hL.enqueue_list, hL.remove_list, hL.dequeue_list⟩⟩
  exact hL.mem_of_queued (hord.covered i h0 not_false hr)

/-- The shell is created, runs, and creates two children of one priority. -/
theorem readyQueues_refine_children : ∃ k : Kernel,
    ((k.proc 2).state = .ready ∧ (k.proc 3).state = .ready) ∧
      ∃ L, Queues k.sched L ∧ 2 ∈ L (priorityQueueIndex (k.proc 2).effectivePriority) ∧
        3 ∈ L (priorityQueueIndex (k.proc 3).effectivePriority) := by
  obtain ⟨k, hk, h2, h3⟩ := Kernel.machine.exists_reach_of_trace (s := Kernel.init 1000)
    [.create [115] 3 1 5000, .tick 0, .create [97] 2 0 6000, .create [98] 2 0 7000]
    (P := fun k => (k.proc 2).state = .ready ∧ (k.proc 3).state = .ready) (by decide +kernel)
  obtain ⟨⟨L, hL, -, -, hready⟩, -⟩ := readyQueues_refine hk
  exact ⟨k, ⟨h2, h3⟩, L, hL, hready 2 (by decide) h2, hready 3 (by decide) h3⟩

end TP2Kernel
