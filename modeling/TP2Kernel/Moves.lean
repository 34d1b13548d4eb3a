/-
TP2Kernel/Moves.lean

What the kernel's pieces can do to the fields by which processes are
scheduled: state, priorities, quantum, waiting ticks and the ready queues.
Every piece but the timer is a sequence of `Move`s.  A process on a ready queue
is moved only if the piece is aimed at it; a process off the queues may be
changed freely or made ready.

`PCB.Tidy` is what then holds of every process: it is queued only while it is
ready, its quantum is at most one, it has not waited beyond the ageing
threshold, and its priorities are in range.
-/
import TP2Kernel.ReadyQueueRun
import TP2Kernel.Lives

namespace TP2Kernel

/-! ### Tidy processes -/

/-- What holds of every process control block in a run. -/
structure PCB.Tidy (p : PCB) : Prop where
  queued : p.inReadyQueue = true → p.state = .ready
  quantum : p.quantumsLeft ≤ 1
  ticks : 0 ≤ p.readyWaitTicks ∧ (p.effectivePriority < 5 → p.readyWaitTicks < 6)
  ranked : p.state ≠ .dead → (1 ≤ p.priority ∧ p.priority ≤ 5) ∧
    1 ≤ p.effectivePriority ∧ p.effectivePriority ≤ 5

namespace PCB.Tidy

variable {p q : PCB}

/-- A change of links, or off the queue. -/
theorem of_unlinked (h : p.Tidy) (hu : q.unlinked = p.unlinked)
    (hflag : q.inReadyQueue = true → p.state = .ready) : q.Tidy := by
  have hstate := field_of_unlinked hu PCB.state fun _ => rfl
  have heff := field_of_unlinked hu PCB.effectivePriority fun _ => rfl
  refine ⟨fun hq => hstate.trans (hflag hq), ?_, ?_, ?_⟩
  · rw [field_of_unlinked hu PCB.quantumsLeft fun _ => rfl]
    exact h.quantum
  · rw [field_of_unlinked hu PCB.readyWaitTicks fun _ => rfl, heff]
    exact h.ticks
  · rw [hstate, field_of_unlinked hu PCB.priority fun _ => rfl, heff]
    exact h.ranked

/-- A process that has not waited. -/
theorem fresh (hq : p.inReadyQueue = true → p.state = .ready) (hquantum : p.quantumsLeft ≤ 1)
    (hticks : p.readyWaitTicks = 0)
    (hr : p.state ≠ .dead → (1 ≤ p.priority ∧ p.priority ≤ 5) ∧
      1 ≤ p.effectivePriority ∧ p.effectivePriority ≤ 5) : p.Tidy :=
  ⟨hq, hquantum, ⟨hticks.ge, fun _ => by omega⟩, hr⟩

/-- A process that is not ready is on no queue. -/
theorem off (h : p.Tidy) (hs : p.state ≠ .ready) : p.inReadyQueue = false := by
  rcases hq : p.inReadyQueue with - | -
  · rfl
  · exact absurd (h.queued hq) hs

end PCB.Tidy

/-- Queues and processes are in order. -/
structure Neat (s : Sched) : Prop where
  lists : ∃ L, Queues s L
  tidy : ∀ i, (s.processTable i).Tidy

namespace Neat

variable {s s' : Sched}

theorem ordered (h : Neat s) : Ordered (fun _ => False) (fun _ => True) s := by
  refine ⟨h.lists, fun _ _ hex => absurd trivial hex, fun i hu => (h.tidy i).off fun hr => ?_⟩
  rw [hr] at hu
  exact hu

theorem of_tables (h : Neat s) (hT : s'.processTable = s.processTable)
    (hQ : s'.readyQueues = s.readyQueues) : Neat s' :=
  ⟨(h.ordered.of_tables hT hQ).lists, by rw [hT]; exact h.tidy⟩

/-- A change of one process, and its queue. -/
theorem of_update (h : Neat s) (hL : ∃ L, Queues s' L) {i : Slot}
    (hi : (s.processTable i).Tidy → (s'.processTable i).Tidy)
    (hj : ∀ j, j ≠ i → (s'.processTable j).unlinked = (s.processTable j).unlinked ∧
      (s'.processTable j).inReadyQueue = (s.processTable j).inReadyQueue) : Neat s' := by
  refine ⟨hL, fun j => ?_⟩
  by_cases hji : j = i
  · rw [hji]
    exact hi (h.tidy i)
  · refine (h.tidy j).of_unlinked (hj j hji).1 fun hq => (h.tidy j).queued ?_
    rw [← (hj j hji).2]
    exact hq

theorem modify_off (h : Neat s) {i : Slot} (hoff : (s.processTable i).inReadyQueue = false)
    {f : PCB → PCB} (hf : (f (s.processTable i)).inReadyQueue = false)
    (ht : (s.processTable i).Tidy → (f (s.processTable i)).Tidy) : Neat (s.modify i f) := by
  obtain ⟨L, hL⟩ := h.lists
  refine h.of_update ⟨L, hL.modify_off hoff hf⟩ (i := i) ?_ fun j hj => ?_
  · rw [Sched.modify_self]
    exact ht
  · rw [s.modify_of_ne _ _ _ hj]
    exact ⟨rfl, rfl⟩

end Neat

namespace Sched

variable {s : Sched} {i : Slot}

/-! ### The operations on one process -/

/-- `remove_from_ready_queue` takes the process off. -/
theorem removeFromReadyQueue_off (h : Neat s) (i : Slot) :
    ((s.removeFromReadyQueue i).processTable i).inReadyQueue = false := (h.ordered.remove i).2

theorem removeFromReadyQueue_neat (h : Neat s) (i : Slot) : Neat (s.removeFromReadyQueue i) := by
  refine h.of_update (h.ordered.remove i).1.lists (i := i) (fun ht => ?_) fun j hj => ?_
  · refine ht.of_unlinked ((s.removeFromReadyQueue_requeued i).unlinked i) fun hq => ?_
    rw [removeFromReadyQueue_off h] at hq
    cases hq
  · exact ⟨(s.removeFromReadyQueue_requeued i).unlinked j, removeFromReadyQueue_flag hj⟩

/-- `make_ready`, links and queue flags apart. -/
theorem makeReady_unlinked (hc : s.CanReady i) (j : Slot) :
    ((s.makeReady i true).processTable j).unlinked =
      if j = i then (readied (refreshed true (s.processTable i))).unlinked
      else (s.processTable j).unlinked := by
  have hreq := s.removeFromReadyQueue_requeued i
  rw [s.makeReady_eq hc, preempt_processTable,
    (enqueueReadyQueue_requeued (s.readyPrep i true) i).unlinked j, readyPrep]
  by_cases hj : j = i
  · subst hj
    have hu : ∀ p : PCB, (readied (refreshed true p)).unlinked =
        readied (refreshed true p.unlinked) := fun _ => rfl
    rw [if_pos rfl, modify_self, modify_self, hu, hu, hreq.unlinked j]
  · rw [if_neg hj, modify_of_ne _ _ _ _ hj, modify_of_ne _ _ _ _ hj, hreq.unlinked j]

theorem makeReady_neat (h : Neat s) (i : Slot) : Neat (s.makeReady i true) := by
  by_cases hc : s.CanReady i
  · refine h.of_update (h.ordered.makeReady i true).lists (i := i) (fun ht => ?_) fun j hj => ?_
    · have hu := s.makeReady_unlinked hc i
      rw [if_pos rfl] at hu
      have hr := ht.ranked hc.2.1
      refine PCB.Tidy.of_unlinked (p := readied (refreshed true (s.processTable i))) ?_ hu
        fun _ => rfl
      exact .fresh (fun _ => rfl) (le_refl _) rfl fun _ => ⟨hr.1, hr.1⟩
    · have hu := s.makeReady_unlinked hc j
      rw [if_neg hj] at hu
      exact ⟨hu, s.makeReady_flag hj true⟩
  · rw [s.makeReady_of_not hc]
    exact h

/-- The part of `scheduler_nice` that changes the process. -/
def renice (s : Sched) (i : Slot) (pr : Int) : Sched :=
  if (s.processTable i).inReadyQueue then
    ((s.removeFromReadyQueue i).modify i (reniced pr)).enqueueReadyQueue i
  else s.modify i (reniced pr)

theorem schedulerNice_renice (s : Sched) (pid pr : Int) :
    (s.schedulerNice pid pr).1 = s ∨
      ∃ i, s.findIndexByPid pid = some i ∧ (1 ≤ pr ∧ pr ≤ 5) ∧
        (s.schedulerNice pid pr).1.processTable = (s.renice i pr).processTable ∧
        (s.schedulerNice pid pr).1.readyQueues = (s.renice i pr).readyQueues := by
  unfold schedulerNice priorityMin priorityMax
  split
  · exact .inl rfl
  · rename_i hpr
    rcases hi : s.findIndexByPid pid with - | i
    · exact .inl rfl
    · refine .inr ⟨i, rfl, by omega, ?_⟩
      by_cases hq : (s.processTable i).inReadyQueue = true
      · simp only [renice, hq, if_true]
        split <;> exact ⟨rfl, rfl⟩
      · simp only [renice, hq, Bool.false_eq_true, if_false]
        split <;> exact ⟨rfl, rfl⟩

theorem reniced_tidy {p : PCB} (h : p.Tidy) {pr : Int} (hpr : 1 ≤ pr ∧ pr ≤ 5) :
    (reniced pr p).Tidy := .fresh h.queued (le_refl _) rfl fun _ => ⟨hpr, hpr⟩

/-- `enqueue_ready_queue` of a ready process. -/
theorem enqueueReadyQueue_neat (h : Neat s) (hr : (s.processTable i).state = .ready) :
    Neat (s.enqueueReadyQueue i) := by
  obtain ⟨L, hL⟩ := h.lists
  refine h.of_update ⟨_, hL.enqueue_list i⟩ (i := i) (fun ht => ?_) fun j hj => ?_
  · exact ht.of_unlinked ((s.enqueueReadyQueue_requeued i).unlinked i) fun _ => hr
  · exact ⟨(s.enqueueReadyQueue_requeued i).unlinked j, enqueueReadyQueue_flag hj⟩

theorem renice_neat (h : Neat s) {pr : Int} (hpr : 1 ≤ pr ∧ pr ≤ 5) : Neat (s.renice i pr) := by
  unfold renice
  split
  · rename_i hq
    have hoff := removeFromReadyQueue_off h i
    have h1 := (removeFromReadyQueue_neat h i).modify_off (f := reniced pr) hoff hoff
      fun ht => reniced_tidy ht hpr
    refine enqueueReadyQueue_neat h1 ?_
    rw [modify_self]
    exact ((s.removeFromReadyQueue_requeued i).state i).trans ((h.tidy i).queued hq)
  · rename_i hq
    have hoff : (s.processTable i).inReadyQueue = false := by simpa using hq
    exact h.modify_off hoff hoff fun ht => reniced_tidy ht hpr

end Sched

/-! ### Moves -/

/-- A change that leaves alone what the queues and the ageing depend on. -/
structure Mild (p q : PCB) : Prop where
  readyNext : q.readyNext = p.readyNext
  inReadyQueue : q.inReadyQueue = p.inReadyQueue
  state : q.state = p.state
  priority : q.priority = p.priority
  effectivePriority : q.effectivePriority = p.effectivePriority
  readyWaitTicks : q.readyWaitTicks = p.readyWaitTicks
  quantum : p.quantumsLeft ≤ 1 → q.quantumsLeft ≤ 1

theorem Mild.tidy {p q : PCB} (h : Mild p q) (hp : p.Tidy) : q.Tidy := by
  refine ⟨?_, h.quantum hp.quantum, ?_, ?_⟩
  · rw [h.inReadyQueue, h.state]
    exact hp.queued
  · rw [h.readyWaitTicks, h.effectivePriority]
    exact hp.ticks
  · rw [h.state, h.priority, h.effectivePriority]
    exact hp.ranked

/-- One change of the scheduling fields.  A process on a queue is taken off or
given another priority only if the piece is aimed at it. -/
inductive Move (aim : Slot → Prop) (s : Sched) : Sched → Prop
  | tables {s' : Sched} (hT : s'.processTable = s.processTable)
      (hQ : s'.readyQueues = s.readyQueues) : Move aim s s'
  | adjust (i : Slot) {f : PCB → PCB} (hf : Mild (s.processTable i) (f (s.processTable i))) :
      Move aim s (s.modify i f)
  | ready (i : Slot) (hoff : (s.processTable i).inReadyQueue = false) :
      Move aim s (s.makeReady i true)
  | set (i : Slot) {f : PCB → PCB} (hoff : (s.processTable i).inReadyQueue = false)
      (hf : (f (s.processTable i)).inReadyQueue = false)
      (ht : (s.processTable i).Tidy → (f (s.processTable i)).Tidy) : Move aim s (s.modify i f)
  | unqueue (i : Slot) (ha : aim i) : Move aim s (s.removeFromReadyQueue i)
  | renice (i : Slot) {pr : Int} (hpr : 1 ≤ pr ∧ pr ≤ 5) (ha : aim i) : Move aim s (s.renice i pr)

theorem Move.neat {aim : Slot → Prop} {s s' : Sched} (m : Move aim s s') (h : Neat s) : Neat s' := by
  cases m with
  | tables hT hQ => exact h.of_tables hT hQ
  | adjust i hf =>
      obtain ⟨L, hL⟩ := h.lists
      have hin : ∀ j, ((s.modify i _).processTable j).inReadyQueue =
          (s.processTable j).inReadyQueue :=
        fun j => s.modify_field i j _ PCB.inReadyQueue hf.inReadyQueue
      refine h.of_update (i := i) ⟨L, hL.congr rfl
        (fun j => s.modify_field i j _ PCB.readyNext hf.readyNext) hin fun j _ => ?_⟩ ?_ ?_
      · exact s.modify_field i j _ (fun p => priorityQueueIndex p.effectivePriority)
          (congrArg priorityQueueIndex hf.effectivePriority)
      · rw [Sched.modify_self]
        exact hf.tidy
      · intro j hj
        rw [s.modify_of_ne _ _ _ hj]
        exact ⟨rfl, rfl⟩
  | ready i _ => exact Sched.makeReady_neat h i
  | set i hoff hf ht => exact h.modify_off hoff hf ht
  | unqueue i _ => exact Sched.removeFromReadyQueue_neat h i
  | renice i hpr _ => exact Sched.renice_neat h hpr

/-- Moves one after the other. -/
def Moves (aim : Slot → Prop) : Sched → Sched → Prop := Relation.ReflTransGen (Move aim)

namespace Moves

variable {aim : Slot → Prop} {s s' s'' : Sched}

theorem refl (s : Sched) : Moves aim s s := Relation.ReflTransGen.refl

theorem single (m : Move aim s s') : Moves aim s s' := Relation.ReflTransGen.single m

theorem trans (h : Moves aim s s') (h' : Moves aim s' s'') : Moves aim s s'' :=
  Relation.ReflTransGen.trans h h'

/-- What every move from neat states keeps. -/
theorem invariant {P : Sched → Prop} (h : Moves aim s s') (hn : Neat s) (hs : P s)
    (hstep : ∀ t t', Neat t → P t → Move aim t t' → P t') : Neat s' ∧ P s' := by
  induction h with
  | refl => exact ⟨hn, hs⟩
  | tail _ m ih => exact ⟨m.neat ih.1, hstep _ _ ih.1 ih.2 m⟩

theorem neat (h : Moves aim s s') (hn : Neat s) : Neat s' :=
  (h.invariant hn (P := fun _ => True) trivial fun _ _ _ _ _ => trivial).1

theorem tables (hT : s'.processTable = s.processTable) (hQ : s'.readyQueues = s.readyQueues) :
    Moves aim s s' := single (.tables hT hQ)

/-- A change of fields that scheduling does not read. -/
theorem adjust (i : Slot) {f : PCB → PCB} (hf : ∀ p, Mild p (f p)) : Moves aim s (s.modify i f) :=
  single (.adjust i (hf _))

end Moves

/-! ### The calls as moves -/

section Calls

variable {aim : Slot → Prop} {s : Sched}

theorem mild_foreground (fg : Int) (p : PCB) : Mild p (Sched.setForeground fg p) :=
  ⟨rfl, rfl, rfl, rfl, rfl, rfl, id⟩

theorem mild_expired (p : PCB) : Mild p (Sched.expired p) :=
  ⟨rfl, rfl, rfl, rfl, rfl, rfl, fun _ => (by decide : (0 : Int) ≤ 1)⟩

theorem Wakes.moves {S : Int → Prop} {s s' : Sched} (hw : Wakes S s s') (h : Neat s) :
    Moves aim s s' := by
  refine hw.invariant (P := fun t => Moves aim s t) (.refl s) fun t i ht hb _ => ?_
  refine ht.trans (.single (.ready i (((ht.neat h).tidy i).off fun hr => ?_)))
  cases hr.symm.trans hb

theorem ensureForegroundOwner_moves : Moves aim s s.ensureForegroundOwner := by
  unfold Sched.ensureForegroundOwner
  split
  · exact .refl s
  · split
    · exact .refl s
    · split
      · exact .adjust _ (mild_foreground 1)
      · exact .refl s

theorem restoreParentForeground_moves (i : Slot) : Moves aim s (s.restoreParentForeground i) := by
  simp only [Sched.restoreParentForeground]
  split
  · exact .refl s
  · refine Moves.trans ?_ (.adjust i (mild_foreground 0))
    split
    · exact .refl s
    · rename_i parent _
      split
      · exact Moves.trans (.adjust parent (mild_foreground 1)) (.tables rfl rfl)
      · exact .refl s

theorem wakeWaiter_moves (h : Neat s) (pid : Int) (hand : Bool) (i : Slot) :
    Moves aim s (Sched.wakeWaiter pid hand s i) := by
  simp only [Sched.wakeWaiter]
  split
  · rename_i hc
    have h1 : Moves aim s (s.modify i fun p => { p with waitingFor := -1 }) :=
      .adjust i fun _ => ⟨rfl, rfl, rfl, rfl, rfl, rfl, id⟩
    have hoff : (s.processTable i).inReadyQueue = false := by
      refine (h.tidy i).off ?_
      rw [hc.1]
      rintro ⟨⟩
    split
    · have h2 : Moves aim s ((s.modify i fun p => { p with waitingFor := -1 }).modify i
          (Sched.setForeground 1)).keyboardClearBuffer :=
        (h1.trans (.adjust i (mild_foreground 1))).trans (.tables rfl rfl)
      refine h2.trans (.single (.ready i ?_))
      simp only [Sched.keyboardClearBuffer, Sched.modify_self]
      exact hoff
    · refine h1.trans (.single (.ready i ?_))
      rw [Sched.modify_self]
      exact hoff
  · exact .refl s

theorem wakeWaiters_moves (h : Neat s) (pid : Int) (hand : Bool) :
    Moves aim s (s.wakeWaiters pid hand) := by
  unfold Sched.wakeWaiters
  induction allSlots generalizing s with
  | nil => exact .refl s
  | cons i l ih =>
      have h1 : Moves aim s (Sched.wakeWaiter pid hand s i) := wakeWaiter_moves h pid hand i
      exact h1.trans (ih (h1.neat h))

theorem schedulerBlock_moves (h : Neat s) {pid : Int}
    (ha : ∀ i, s.findIndexByPid pid = some i → aim i) : Moves aim s (s.schedulerBlock pid) := by
  simp only [Sched.schedulerBlock]
  split
  · exact .refl s
  · rename_i i hi
    have hoff := Sched.removeFromReadyQueue_off h i
    have h1 : Moves aim s ((s.removeFromReadyQueue i).modify i fun p =>
        { p with state := .blocked }) := by
      refine Moves.trans (.single (.unqueue i (ha i hi))) (.single (.set i hoff hoff fun ht => ?_))
      refine ⟨fun hq => ?_, ht.quantum, ht.ticks, fun _ => ht.ranked fun hd => ?_⟩
      · cases hoff.symm.trans hq
      · -- the search found a process that is not dead
        rw [(s.removeFromReadyQueue_requeued i).state] at hd
        exact (Sched.findIndexByPid_some hi).2 hd
    split
    · exact (h1.trans (.adjust i mild_expired)).trans (.tables rfl rfl)
    · exact h1

theorem schedulerNice_moves {pid pr : Int} (ha : ∀ i, s.findIndexByPid pid = some i → aim i) :
    Moves aim s (s.schedulerNice pid pr).1 := by
  rcases s.schedulerNice_renice pid pr with he | ⟨i, hi, hpr, hT, hQ⟩
  · rw [he]
    exact .refl s
  · exact Moves.trans (.single (.renice i hpr (ha i hi))) (.tables hT hQ)

theorem schedulerYield_moves : Moves aim s s.schedulerYield :=
  Moves.trans (.adjust s.currentIdx mild_expired) (.tables rfl rfl)

theorem schedulerUnblock_moves (h : Neat s) (pid : Int) : Moves aim s (s.schedulerUnblock pid) :=
  (s.schedulerUnblock_wakes (S := fun _ => True) trivial).moves h

theorem schedulerCreate_moves (h : Neat s) (name : List UInt8) (priority fg : Int) (stack : Nat) :
    Moves aim s (s.schedulerCreate name priority fg stack).1 := by
  have hcase := s.schedulerCreate_cases name priority fg stack
  generalize s.schedulerCreate name priority fg stack = r at hcase
  cases hcase with
  | refused => exact .refl s
  | creates slot pr hpr hslot hstack =>
      have hoff : (s.processTable slot).inReadyQueue = false := by
        refine (h.tidy slot).off ?_
        rw [(Sched.findFreeSlot_some hslot).2]
        rintro ⟨⟩
      have h0 : Moves aim s { s with nextPid := s.nextPid + 1 } := .tables rfl rfl
      have h1 := h0.trans (.single (.set slot
        (f := Sched.created s.nextPid s.current.pid name pr fg stack) hoff rfl fun _ =>
          .fresh (fun _ => rfl) (le_refl _) rfl fun _ => ⟨hpr, hpr⟩))
      have h2 : Moves aim s (if fg ≠ 0 then
          (Sched.modify { s with nextPid := s.nextPid + 1 } slot
            (Sched.created s.nextPid s.current.pid name pr fg stack)).modify s.currentIdx
              (Sched.setForeground 0)
          else Sched.modify { s with nextPid := s.nextPid + 1 } slot
            (Sched.created s.nextPid s.current.pid name pr fg stack)) := by
        split
        · exact h1.trans (.adjust _ (mild_foreground 0))
        · exact h1
      have h3 : Moves aim s (s.createPrep name pr fg stack slot) :=
        (h2.trans (.adjust slot (f := fun p => { p with fds := initialFds })
          fun _ => ⟨rfl, rfl, rfl, rfl, rfl, rfl, id⟩)).trans (.tables rfl rfl)
      refine h3.trans (.single (.ready slot ?_))
      simp only [Sched.createPrep, Sched.modify_self]
      split
      · rw [Sched.modify_field _ _ _ _ PCB.inReadyQueue rfl, Sched.modify_self]
        rfl
      · rw [Sched.modify_self]
        rfl

theorem reaped_tidy (p : PCB) : (Sched.reaped p).Tidy :=
  .fresh (fun hq => absurd hq Bool.false_ne_true) (by decide : (0 : Int) ≤ 1) rfl
    fun hd => absurd rfl hd

theorem schedulerWait_moves (h : Neat s) {pid : Int}
    (hrun : s.current.state = .running) : Moves aim s (s.schedulerWait pid).1 := by
  have hcase := s.schedulerWait_cases pid
  generalize s.schedulerWait pid = r at hcase
  cases hcase with
  | refused => exact .refl s
  | reaps i s' _ _ _ hz hs' =>
      -- a zombie is on no queue, so `reap_process` has nothing to take off
      have hoff : (s.processTable i).inReadyQueue = false := by
        refine (h.tidy i).off fun hr => ?_
        cases hr.symm.trans hz
      have hrem := Sched.removeFromReadyQueue_of_not hoff
      have htail : Moves aim (s.reapProcess i) s' := by
        rw [hs']
        exact .tables rfl rfl
      refine Moves.trans ?_ htail
      simp only [Sched.reapProcess, hrem]
      split
      · exact .refl s
      · split
        · have hfree : Moves aim s (s.freeStack (s.processTable i).stackBase) :=
            .tables rfl rfl
          exact hfree.trans (.single (.set i hoff rfl fun _ => reaped_tidy _))
        · exact .single (.set i hoff rfl fun _ => reaped_tidy _)
  | blocks i _ _ _ _ =>
      have hoff : (s.processTable s.currentIdx).inReadyQueue = false := by
        refine (h.tidy s.currentIdx).off fun hr => ?_
        cases hr.symm.trans hrun
      refine Moves.trans (.single (.set s.currentIdx (f := Sched.waiting pid) hoff hoff fun ht => ?_))
        (.tables rfl rfl)
      refine ⟨fun hq => ?_, (by decide : (0 : Int) ≤ 1), ht.ticks, fun _ => ht.ranked fun hd => ?_⟩
      · cases hoff.symm.trans hq
      · cases hd.symm.trans hrun

end Calls

namespace Kernel

variable {aim : Slot → Prop} {k : Kernel}

theorem closeProcessFds_moves (h : Neat k.sched) (i : Slot) :
    Moves aim k.sched (k.closeProcessFds i).sched :=
  closeProcessFds_invariant (P := fun k' => Moves aim k.sched k'.sched) (.refl _)
    (fun _ _ hm hr => hm.trans (hr.wakes.moves (hm.neat h)))
    fun _ _ _ hm => hm.trans (.adjust i fun _ => ⟨rfl, rfl, rfl, rfl, rfl, rfl, id⟩)

theorem leave_moves {s : Sched} (h : Neat s) {cur : Slot} (ha : aim cur)
    (hd : (s.processTable cur).state ≠ .dead) (pid : Int) (hand : Bool) :
    Moves aim s (leave s cur pid hand) := by
  have hoff := Sched.removeFromReadyQueue_off h cur
  have h1 : Moves aim s (s.removeFromReadyQueue cur) := .single (.unqueue cur ha)
  have hd' : ((s.removeFromReadyQueue cur).processTable cur).state ≠ .dead := by
    rw [(s.removeFromReadyQueue_requeued cur).state]
    exact hd
  have h2 := h1.trans (.single (.set cur (f := ended) hoff hoff fun ht =>
    .fresh (fun hq => absurd (hoff.symm.trans hq) Bool.false_ne_true)
      (by decide : (0 : Int) ≤ 1) rfl fun _ => ht.ranked hd'))
  have h3 : Moves aim s { (s.removeFromReadyQueue cur).modify cur ended with needResched := true } :=
    h2.trans (.tables rfl rfl)
  simp only [leave]
  exact (h3.trans (wakeWaiters_moves (h3.neat h) pid hand)).trans ensureForegroundOwner_moves

theorem schedulerExitCurrent_moves (h : Neat k.sched) (ha : aim k.sched.currentIdx)
    (hd : (k.proc k.sched.currentIdx).state ≠ .dead) (status : Int) :
    Moves aim k.sched (k.schedulerExitCurrent status).sched := by
  simp only [schedulerExitCurrent]
  split
  · exact .refl _
  · have h1 : Moves aim k.sched (k.exitPrep k.sched.currentIdx status).sched :=
      Moves.trans (.adjust _ (f := setExitStatus status)
        fun _ => ⟨rfl, rfl, rfl, rfl, rfl, rfl, id⟩) (restoreParentForeground_moves _)
    -- closing descriptors does not end the process
    have hlive : (((k.exitPrep k.sched.currentIdx status).closeProcessFds
        k.sched.currentIdx).life k.sched.currentIdx).state ≠ .dead := by
      rcases closeProcessFds_life (k.exitPrep k.sched.currentIdx status) k.sched.currentIdx
        k.sched.currentIdx with he | ⟨-, -, he⟩
      · rw [he, exitPrep_life, if_pos rfl]
        exact hd
      · rw [he]
        rintro ⟨⟩
    have h2 := h1.trans (closeProcessFds_moves (k := k.exitPrep k.sched.currentIdx status)
      (h1.neat h) k.sched.currentIdx)
    rw [onSched_sched]
    generalize (k.exitPrep k.sched.currentIdx status).closeProcessFds k.sched.currentIdx = k₂
      at h2 hlive ⊢
    exact h2.trans (leave_moves (h2.neat h) ha hlive _ _)

theorem bury_moves {s : Sched} (h : Neat s) {i : Slot}
    (hoff : (s.processTable i).inReadyQueue = false) (pid : Int) : Moves aim s (bury s i pid) := by
  have h1 : Moves aim s (s.modify i killed) :=
    .single (.set i hoff rfl fun _ => .fresh (fun hq => absurd hq Bool.false_ne_true)
      (by decide : (0 : Int) ≤ 1) rfl fun hd => absurd rfl hd)
  have hfin : ∀ {t : Sched}, Moves aim s t →
      Moves aim s (t.wakeWaiters pid false).ensureForegroundOwner := fun ht =>
    (ht.trans (wakeWaiters_moves (ht.neat h) pid false)).trans ensureForegroundOwner_moves
  simp only [bury]
  apply hfin
  split
  · have h2 : Moves aim s ((s.modify i killed).freeStack
        ((s.modify i killed).processTable i).stackBase) := h1.trans (.tables rfl rfl)
    exact (h2.trans (.adjust i (f := fun p => { p with stackBase := 0 })
      fun _ => ⟨rfl, rfl, rfl, rfl, rfl, rfl, id⟩)).trans (.tables rfl rfl)
  · exact h1.trans (.tables rfl rfl)

theorem killOther_moves (h : Neat k.sched) {i : Slot} {pid : Int} (ha : aim i)
    (hi : k.sched.findIndexByPid pid = some i) :
    Moves aim k.sched (k.killOther i pid).sched := by
  have h1 : Moves aim k.sched (k.killPrep i pid).sched :=
    Moves.trans (.single (.unqueue i ha)) (restoreParentForeground_moves i)
  have h2 := h1.trans (closeProcessFds_moves (k := k.killPrep i pid) (h1.neat h) i)
  have hoff := (closeProcessFds_kept (killPrep_kept h.ordered hi)).off
  rw [killOther, onSched_sched]
  generalize (k.killPrep i pid).closeProcessFds i = k₂ at h2 hoff ⊢
  exact h2.trans (bury_moves (h2.neat h) hoff pid)

/-! ### One piece of kernel code -/

/-- The processes a piece is aimed at. -/
def Aims (k : Kernel) : Op → Slot → Prop
  | .block pid, j | .nice pid _, j => k.sched.findIndexByPid pid = some j
  | .semWait _, j | .pipeRead _, j | .pipeWrite _ _, j =>
      k.sched.findIndexByPid k.sched.schedulerGetpid = some j
  | .exit status, j => k.target (.exit status) = some j
  | .kill pid, j => k.target (.kill pid) = some j
  | .killForeground, j => k.target .killForeground = some j
  | _, _ => False

theorem schedulerKill_moves (h : Neat k.sched) (hd : (k.proc k.sched.currentIdx).state ≠ .dead)
    {pid : Int} (ha : ∀ i, 1 < pid → k.sched.findIndexByPid pid = some i → aim i) :
    Moves aim k.sched (k.schedulerKill pid).1.sched := by
  simp only [schedulerKill]
  split
  · exact .refl _
  · rename_i hpid
    split
    · exact .refl _
    · rename_i i hi
      have hai := ha i (by omega) hi
      split
      · rename_i hcur
        exact schedulerExitCurrent_moves h (hcur ▸ hai) hd (-1)
      · exact killOther_moves h hai hi

theorem semWait_moves (h : Neat k.sched)
    (ha : ∀ i, k.sched.findIndexByPid k.sched.schedulerGetpid = some i → aim i) (semId : Int) :
    Moves aim k.sched (k.semWait semId).1.sched := by
  rw [semWait_sched]
  split
  · exact schedulerBlock_moves h ha
  · exact .refl _

theorem StepCases.schedMoves {α : Type} {p : Fin maxPipes} {own other : Int} {move : Pipe → Pipe}
    {dry shut live : Prop} {fl bl ag sp dn : α} {r : Kernel × α}
    (hr : k.StepCases p own other move dry shut live fl bl ag sp dn r) (h : Neat k.sched)
    (ha : ∀ i, k.sched.findIndexByPid k.sched.schedulerGetpid = some i → aim i) :
    Moves aim k.sched r.1.sched := by
  cases hr with
  | waits _ => exact semWait_moves h ha _
  | stops _ => exact .refl _
  | moves _ => exact ((k.modifyPipe_releases p _).trans (semPost_releases _ _)).wakes.moves h

/-- **Every piece but the timer is a sequence of moves**, and moves processes on
the ready queues only if it is aimed at them; `scheduler_wait` is called by a
running process. -/
theorem exec_moves (h : Neat k.sched) (hd : (k.proc k.sched.currentIdx).state ≠ .dead) {op : Op}
    (htick : ∀ rsp, op ≠ .tick rsp)
    (hwait : ∀ pid, op = .wait pid → (k.proc k.sched.currentIdx).state = .running) :
    Moves (k.Aims op) k.sched (k.exec op).sched := by
  have hwakes := k.exec_wakes op
  cases op with
  | create name priority fg stack => exact schedulerCreate_moves h name priority fg stack
  | kill pid =>
      refine schedulerKill_moves h hd fun i hpid hi => ?_
      show (if pid ≤ 1 then none else k.sched.findIndexByPid pid) = some i
      rw [if_neg (by omega), hi]
  | killForeground =>
      show Moves _ _ k.schedulerKillForeground.1.sched
      unfold schedulerKillForeground
      rcases hf : findForeground k.sched with - | i
      · exact .refl _
      · refine schedulerKill_moves h hd fun j hpid hj => ?_
        show (findForeground k.sched).bind _ = some j
        rw [hf, Option.bind_some, if_neg (by omega), hj]
  | block pid => exact schedulerBlock_moves h fun i hi => hi
  | unblock pid => exact schedulerUnblock_moves h pid
  | nice pid pr => exact schedulerNice_moves fun i hi => hi
  | wait pid => exact schedulerWait_moves h (hwait pid rfl)
  | exit status =>
      by_cases h0 : k.sched.currentIdx = 0
      · have hk : k.exec (.exit status) = k := by
          show k.schedulerExitCurrent status = k
          rw [schedulerExitCurrent, if_pos h0]
        rw [hk]
        exact .refl _
      · refine schedulerExitCurrent_moves h ?_ hd status
        show (if k.sched.currentIdx = 0 then none else some k.sched.currentIdx) = _
        rw [if_neg h0]
  | yield => exact schedulerYield_moves
  | tick rsp => exact absurd rfl (htick rsp)
  | semWait semId => exact semWait_moves h (fun i hi => hi) semId
  | semOpen | semPost | semPostAll | semClose | pipeOpen | pipeClose => exact (hwakes trivial).moves h
  | pipeSetFd pid fd pipeId w =>
      exact syscallPipeSetFd_invariant (P := fun k' => Moves _ k.sched k'.sched) (.refl _)
        (fun _ i _ _ hrel => (hrel.wakes.moves h).trans
          (.adjust i fun _ => ⟨rfl, rfl, rfl, rfl, rfl, rfl, id⟩)) _ _ _ _
  | pipeRead p => exact (k.pipeReadStep_cases p).schedMoves h fun i hi => hi
  | pipeWrite p c => exact (k.pipeWriteStep_cases p c).schedMoves h fun i hi => hi

end Kernel

end TP2Kernel
