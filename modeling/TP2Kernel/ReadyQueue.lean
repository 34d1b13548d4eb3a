/-
TP2Kernel/ReadyQueue.lean

The ready queues of `Kernel/scheduler.c`: five singly linked lists threaded
through `ready_next`, one for each priority level.  The queue of a process is
not stored; it is computed again from `effective_priority` whenever the
process is taken out.

`Queues s L` says that the links of `s` spell the lists `L`, that exactly the
slots with `in_ready_queue` set are on them, and that each is on the list of
its effective priority.  Under it the three queue operations are `append`,
`erase` and `tail` on the lists.

The walk of `remove_from_ready_queue` takes at most one step for each slot
unless the links run in a circle; the model leaves the state alone in that
case, and `Queues.remove` shows that the walk ends.
-/
import TP2Kernel.Process
import TP2Kernel.Paths
import Mathlib.Data.Fintype.Card

namespace TP2Kernel

/-! ### The code -/

/-- `clamp_priority`. -/
def clampPriority (priority : Int) : Int :=
  if priority < priorityMin then priorityMin
  else if priority > priorityMax then priorityMax
  else priority

theorem clampPriority_bounds (priority : Int) :
    1 ≤ clampPriority priority ∧ clampPriority priority ≤ 5 := by
  unfold clampPriority priorityMin priorityMax
  split
  · omega
  · split <;> omega

/-- `priority_queue_index`. -/
def priorityQueueIndex (priority : Int) : Fin priorityLevels :=
  ⟨(clampPriority priority - priorityMin).toNat, by
    have := clampPriority_bounds priority
    unfold priorityMin priorityLevels
    omega⟩

namespace Sched

/-- The queue a process belongs to. -/
def queueOf (s : Sched) (i : Slot) : Fin priorityLevels :=
  priorityQueueIndex (s.processTable i).effectivePriority

/-- The links of the ready queues. -/
def nx (s : Sched) (i : Slot) : Option Slot := (s.processTable i).readyNext

/-- `enqueue_ready_queue`. -/
def enqueueReadyQueue (s : Sched) (idx : Slot) : Sched :=
  if idx = 0 ∨ (s.processTable idx).inReadyQueue then s
  else
    let q := s.queueOf idx
    let s := s.modify idx fun p => { p with readyNext := none }
    let s :=
      match (s.readyQueues q).tail with
      | none => s.setQueue q ⟨some idx, some idx⟩
      | some t =>
          let s := s.modify t fun p => { p with readyNext := some idx }
          s.setQueue q ⟨(s.readyQueues q).head, some idx⟩
    s.modify idx fun p => { p with inReadyQueue := true }

/-- `process_table[idx].ready_next = READY_NONE; in_ready_queue = 0`. -/
def unlink (s : Sched) (idx : Slot) : Sched :=
  s.modify idx fun p => { p with readyNext := none, inReadyQueue := false }

/-- `remove_from_ready_queue`. -/
def removeFromReadyQueue (s : Sched) (idx : Slot) : Sched :=
  if idx = 0 ∨ !(s.processTable idx).inReadyQueue then s
  else
    let q := s.queueOf idx
    match findPrev s.nx idx (maxProcesses + 1) none (s.readyQueues q).head with
    | none => s
    | some none => s.unlink idx
    | some (some prev) =>
        let next := s.nx idx
        let head := (s.readyQueues q).head
        let tail := (s.readyQueues q).tail
        let s :=
          match prev with
          | none => s
          | some p => s.modify p fun b => { b with readyNext := next }
        let s := s.setQueue q
          ⟨if prev = none then next else head, if tail = some idx then prev else tail⟩
        s.unlink idx

/-- `dequeue_ready_queue`. -/
def dequeueReadyQueue (s : Sched) (priority : Int) : Sched × Option Slot :=
  let q := priorityQueueIndex priority
  match (s.readyQueues q).head with
  | none => (s, none)
  | some idx =>
      let next := s.nx idx
      let tail := (s.readyQueues q).tail
      let s := s.setQueue q ⟨next, if next = none then none else tail⟩
      let s := s.unlink idx
      (s.modify idx fun p => { p with readyWaitTicks := 0 }, some idx)

/-- The priorities from `PROCESS_PRIORITY_MAX` down to `PROCESS_PRIORITY_MIN`. -/
def prioritiesDown : List Int := [5, 4, 3, 2, 1]

/-- `highest_ready_priority`. -/
def highestReadyPriority (s : Sched) : Int :=
  (prioritiesDown.find? fun pr =>
    ((s.readyQueues (priorityQueueIndex pr)).head).isSome).getD 0

/-- The body of the loop of `age_ready_processes`. -/
def ageProcess (s : Sched) (idx : Slot) : Sched :=
  let p := s.processTable idx
  if !p.inReadyQueue ∨ p.state ≠ .ready then s
  else
    let s := s.modify idx fun p => { p with readyWaitTicks := p.readyWaitTicks + 1 }
    if p.readyWaitTicks + 1 ≥ agingThresholdTicks ∧ p.effectivePriority < priorityMax then
      let s := s.removeFromReadyQueue idx
      let s := s.modify idx fun p =>
        { p with effectivePriority := p.effectivePriority + 1, readyWaitTicks := 0 }
      s.enqueueReadyQueue idx
    else s

/-- `age_ready_processes`. -/
def ageReadyProcesses (s : Sched) : Sched := userSlots.foldl ageProcess s

/-- The dequeued process gets its own priority back. -/
def rebased (p : PCB) : PCB := { p with effectivePriority := p.priority }

/-- The loop of `dequeue_next_ready` over the given priorities. -/
def dequeueFrom (s : Sched) : List Int → Sched × Slot
  | [] => (s, 0)
  | pr :: prs =>
      match s.dequeueReadyQueue pr with
      | (s, some idx) => (s.modify idx rebased, idx)
      | (s, none) => dequeueFrom s prs

/-- `dequeue_next_ready`. -/
def dequeueNextReady (s : Sched) : Sched × Slot :=
  s.ageReadyProcesses.dequeueFrom prioritiesDown

/-- What `make_ready` sets when asked to reset the effective priority. -/
def refreshed (resetEffectivePriority : Bool) (p : PCB) : PCB :=
  if resetEffectivePriority then { p with effectivePriority := p.priority, readyWaitTicks := 0 }
  else p

/-- What `make_ready` sets before the process is enqueued. -/
def readied (p : PCB) : PCB := { p with state := .ready, quantumsLeft := defaultQuantum }

/-- `make_ready`. -/
def makeReady (s : Sched) (idx : Slot) (resetEffectivePriority : Bool) : Sched :=
  if idx = 0 ∨ (s.processTable idx).state = .dead ∨ (s.processTable idx).state = .zombie then s
  else
    let s := if (s.processTable idx).inReadyQueue then s.removeFromReadyQueue idx else s
    let s := s.modify idx (refreshed resetEffectivePriority)
    let s := s.modify idx readied
    let s := s.enqueueReadyQueue idx
    if s.currentIdx ≠ 0 ∧
        (s.processTable idx).effectivePriority > s.current.effectivePriority then
      { s with needResched := true }
    else s

end Sched

/-! ### What the queue operations leave alone -/

/-- A process without its queue fields. -/
def PCB.unlinked (p : PCB) : PCB := { p with readyNext := none, inReadyQueue := false }

/-- Fields other than the queue fields can be read off `unlinked`. -/
theorem PCB.field_of_unlinked {p q : PCB} (h : q.unlinked = p.unlinked) {α : Type} (g : PCB → α)
    (hg : ∀ r : PCB, g r.unlinked = g r) : g q = g p := by
  rw [← hg q, h, hg p]

/-- Only the table and the queues differ. -/
def SameGlobals (s s' : Sched) : Prop :=
  s' = { s with processTable := s'.processTable, readyQueues := s'.readyQueues }

/-- Only the queues and the queue fields of processes differ. -/
structure Requeued (s s' : Sched) : Prop where
  globals : SameGlobals s s'
  unlinked : ∀ j, (s'.processTable j).unlinked = (s.processTable j).unlinked

namespace Requeued

variable {s s' s'' : Sched}

theorem refl (s : Sched) : Requeued s s := ⟨rfl, fun _ => rfl⟩

theorem trans (h : Requeued s s') (h' : Requeued s' s'') : Requeued s s'' := by
  refine ⟨?_, fun j => (h'.unlinked j).trans (h.unlinked j)⟩
  have h1 := h.globals
  have h2 := h'.globals
  unfold SameGlobals at *
  rw [h2, h1]

theorem modify (s : Sched) (i : Slot) (f : PCB → PCB)
    (hf : (f (s.processTable i)).unlinked = (s.processTable i).unlinked) :
    Requeued s (s.modify i f) :=
  ⟨rfl, fun _ => s.modify_field _ _ _ _ hf⟩

theorem setQueue (s : Sched) (q : Fin priorityLevels) (r : ReadyQueue) :
    Requeued s (s.setQueue q r) :=
  ⟨rfl, fun _ => rfl⟩

/-- Fields other than the queue fields are unchanged. -/
theorem field (h : Requeued s s') (j : Slot) {α : Type} (g : PCB → α)
    (hg : ∀ p : PCB, g p.unlinked = g p) : g (s'.processTable j) = g (s.processTable j) :=
  PCB.field_of_unlinked (h.unlinked j) g hg

theorem state (h : Requeued s s') (j : Slot) :
    (s'.processTable j).state = (s.processTable j).state :=
  h.field j PCB.state fun _ => rfl

theorem queueOf (h : Requeued s s') (j : Slot) : s'.queueOf j = s.queueOf j :=
  congrArg priorityQueueIndex (h.field j PCB.effectivePriority fun _ => rfl)

end Requeued

namespace Sched

theorem enqueueReadyQueue_requeued (s : Sched) (idx : Slot) :
    Requeued s (s.enqueueReadyQueue idx) := by
  simp only [enqueueReadyQueue]
  split
  · exact .refl s
  · refine .trans (.trans (.modify s idx (fun p => { p with readyNext := none }) rfl) ?_)
      (.modify _ _ _ rfl)
    split
    · exact .setQueue _ _ _
    · exact .trans (.modify _ _ (fun p => { p with readyNext := some idx }) rfl) (.setQueue _ _ _)

theorem unlink_requeued (s : Sched) (idx : Slot) : Requeued s (s.unlink idx) :=
  .modify _ _ _ rfl

theorem removeFromReadyQueue_of_not {s : Sched} {idx : Slot}
    (h : (s.processTable idx).inReadyQueue = false) : s.removeFromReadyQueue idx = s := by
  rw [removeFromReadyQueue, if_pos (.inr (by simp [h]))]

theorem removeFromReadyQueue_requeued (s : Sched) (idx : Slot) :
    Requeued s (s.removeFromReadyQueue idx) := by
  simp only [removeFromReadyQueue]
  split
  · exact .refl s
  · split
    · exact .refl s
    · exact s.unlink_requeued idx
    · rename_i prev _
      refine .trans (.trans ?_ (.setQueue _ _ _)) (unlink_requeued _ idx)
      cases prev with
      | none => exact .refl s
      | some p => exact .modify _ _ _ rfl

end Sched

/-! ### The queue fields after an operation -/

namespace Sched

variable {s : Sched} {idx : Slot}

theorem enqueueReadyQueue_eq (h0 : idx ≠ 0) (hidx : (s.processTable idx).inReadyQueue = false)
    (htail : (s.readyQueues (s.queueOf idx)).tail ≠ some idx) :
    (∀ j, (s.enqueueReadyQueue idx).nx j =
      if j = idx then none
      else if some j = (s.readyQueues (s.queueOf idx)).tail then some idx else s.nx j) ∧
    (∀ j, ((s.enqueueReadyQueue idx).processTable j).inReadyQueue =
      if j = idx then true else (s.processTable j).inReadyQueue) ∧
    (s.enqueueReadyQueue idx).readyQueues = Function.update s.readyQueues (s.queueOf idx)
      ⟨if (s.readyQueues (s.queueOf idx)).tail = none then some idx
        else (s.readyQueues (s.queueOf idx)).head, some idx⟩ := by
  have hguard : ¬ (idx = 0 ∨ (s.processTable idx).inReadyQueue = true) := by
    rw [hidx]
    simpa using h0
  simp only [enqueueReadyQueue, if_neg hguard, modify_readyQueues]
  rcases ht : (s.readyQueues (s.queueOf idx)).tail with - | t
  · refine ⟨fun j => ?_, fun j => ?_, ?_⟩
    · simp only [nx, modify_processTable, setQueue_processTable, reduceCtorEq, if_false]
      split <;> simp_all
    · simp only [modify_processTable, setQueue_processTable]
      split <;> simp_all
    · simp [setQueue]
  · have hne : t ≠ idx := fun e => htail (by rw [ht, e])
    refine ⟨fun j => ?_, fun j => ?_, ?_⟩
    · simp only [nx, modify_processTable, setQueue_processTable, Option.some.injEq]
      split <;> split <;> simp_all
    · simp only [modify_processTable, setQueue_processTable]
      split <;> split <;> simp_all
    · simp [setQueue]

/-- Queueing one process leaves the flags of the others alone. -/
theorem enqueueReadyQueue_flag {j : Slot} (hj : j ≠ idx) :
    ((s.enqueueReadyQueue idx).processTable j).inReadyQueue
      = (s.processTable j).inReadyQueue := by
  simp only [enqueueReadyQueue]
  split
  · rfl
  · rw [modify_of_ne _ _ _ _ hj]
    split
    · rw [setQueue_processTable, modify_of_ne _ _ _ _ hj]
    · rw [setQueue_processTable, modify_field _ _ _ _ PCB.inReadyQueue rfl,
        modify_of_ne _ _ _ _ hj]

theorem removeFromReadyQueue_flag {j : Slot} (hj : j ≠ idx) :
    ((s.removeFromReadyQueue idx).processTable j).inReadyQueue
      = (s.processTable j).inReadyQueue := by
  simp only [removeFromReadyQueue, unlink]
  split
  · rfl
  · split
    · rfl
    · rw [modify_of_ne _ _ _ _ hj]
    · rename_i prev _
      rw [modify_of_ne _ _ _ _ hj, setQueue_processTable]
      cases prev with
      | none => rfl
      | some p => exact modify_field _ _ _ _ PCB.inReadyQueue rfl

theorem removeFromReadyQueue_eq {prev : Option Slot} (h0 : idx ≠ 0)
    (hidx : (s.processTable idx).inReadyQueue = true)
    (hfind : findPrev s.nx idx (maxProcesses + 1) none (s.readyQueues (s.queueOf idx)).head
      = some (some prev)) (hprev : prev ≠ some idx) :
    (∀ j, (s.removeFromReadyQueue idx).nx j =
      if j = idx then none else if some j = prev then s.nx idx else s.nx j) ∧
    (∀ j, ((s.removeFromReadyQueue idx).processTable j).inReadyQueue =
      if j = idx then false else (s.processTable j).inReadyQueue) ∧
    (s.removeFromReadyQueue idx).readyQueues = Function.update s.readyQueues (s.queueOf idx)
      ⟨if prev = none then s.nx idx else (s.readyQueues (s.queueOf idx)).head,
        if (s.readyQueues (s.queueOf idx)).tail = some idx then prev
          else (s.readyQueues (s.queueOf idx)).tail⟩ := by
  have hguard : ¬ (idx = 0 ∨ (!(s.processTable idx).inReadyQueue) = true) := by
    rw [hidx]
    simpa using h0
  simp only [removeFromReadyQueue, if_neg hguard, hfind]
  rcases prev with - | p
  · refine ⟨fun j => ?_, fun j => ?_, ?_⟩
    · simp only [nx, unlink, modify_processTable, setQueue_processTable, reduceCtorEq, if_false]
      split <;> simp_all
    · simp only [unlink, modify_processTable, setQueue_processTable]
      split <;> simp_all
    · simp [setQueue, unlink]
  · have hne : p ≠ idx := fun e => hprev (by rw [e])
    refine ⟨fun j => ?_, fun j => ?_, ?_⟩
    · simp only [nx, unlink, modify_processTable, setQueue_processTable, Option.some.injEq]
      split <;> split <;> simp_all
    · simp only [unlink, modify_processTable, setQueue_processTable]
      split <;> split <;> simp_all
    · simp [setQueue, unlink]

theorem dequeueReadyQueue_eq {pr : Int}
    (hhead : (s.readyQueues (priorityQueueIndex pr)).head = some idx) :
    (s.dequeueReadyQueue pr).2 = some idx ∧
    (∀ j, (s.dequeueReadyQueue pr).1.nx j = if j = idx then none else s.nx j) ∧
    (∀ j, ((s.dequeueReadyQueue pr).1.processTable j).inReadyQueue =
      if j = idx then false else (s.processTable j).inReadyQueue) ∧
    (s.dequeueReadyQueue pr).1.readyQueues = Function.update s.readyQueues (priorityQueueIndex pr)
      ⟨s.nx idx, if s.nx idx = none then none
        else (s.readyQueues (priorityQueueIndex pr)).tail⟩ ∧
    ∀ j, (s.dequeueReadyQueue pr).1.queueOf j = s.queueOf j := by
  simp only [dequeueReadyQueue, hhead]
  refine ⟨trivial, fun j => ?_, fun j => ?_, ?_, fun j => ?_⟩
  · simp only [nx, unlink, modify_processTable, setQueue_processTable]
    split <;> simp_all
  · simp only [unlink, modify_processTable, setQueue_processTable]
    split <;> simp_all
  · simp [setQueue, unlink]
  · simp only [queueOf, unlink, modify_processTable, setQueue_processTable]
    split <;> simp_all

end Sched

/-! ### The list view -/

/-- The links of `s` spell the lists `L`. -/
structure Queues (s : Sched) (L : Fin priorityLevels → List Slot) : Prop where
  queue : ∀ q, Queue s.nx (s.readyQueues q).head (s.readyQueues q).tail (L q)
  mem_iff : ∀ i q, i ∈ L q ↔ (s.processTable i).inReadyQueue = true ∧ s.queueOf i = q
  idle : (s.processTable 0).inReadyQueue = false

namespace Queues

variable {s : Sched} {L : Fin priorityLevels → List Slot} {idx : Slot}

/-- Queues of different levels share no slot. -/
theorem disjoint (hL : Queues s L) {q q' : Fin priorityLevels} {i : Slot} (hi : i ∈ L q)
    (hi' : i ∈ L q') : q = q' :=
  ((hL.mem_iff i q).mp hi).2.symm.trans ((hL.mem_iff i q').mp hi').2

theorem not_mem (hL : Queues s L) (hidx : (s.processTable idx).inReadyQueue = false)
    (q : Fin priorityLevels) : idx ∉ L q := by
  intro hm
  have := ((hL.mem_iff idx q).mp hm).1
  rw [hidx] at this
  cases this

/-- A change that touches no queue field, and the effective priority of no
queued process, keeps the lists. -/
theorem congr (hL : Queues s L) {s' : Sched} (hq : s'.readyQueues = s.readyQueues)
    (hnx : ∀ i, (s'.processTable i).readyNext = (s.processTable i).readyNext)
    (hin : ∀ i, (s'.processTable i).inReadyQueue = (s.processTable i).inReadyQueue)
    (heff : ∀ i, (s.processTable i).inReadyQueue = true → s'.queueOf i = s.queueOf i) :
    Queues s' L := by
  refine ⟨?_, ?_, ?_⟩
  · intro q
    rw [hq]
    exact (hL.queue q).congr fun i _ => hnx i
  · intro i q
    rw [hL.mem_iff, hin]
    refine and_congr_right fun h => ?_
    rw [heff i h]
  · rw [hin]
    exact hL.idle

/-- A process off the queues may change in any way that keeps it off. -/
theorem modify_off (hL : Queues s L) (hidx : (s.processTable idx).inReadyQueue = false)
    {f : PCB → PCB} (hf : (f (s.processTable idx)).inReadyQueue = false) :
    Queues (s.modify idx f) L := by
  have hin : ∀ j, ((s.modify idx f).processTable j).inReadyQueue
      = (s.processTable j).inReadyQueue :=
    fun j => s.modify_field idx j f PCB.inReadyQueue (hf.trans hidx.symm)
  refine ⟨fun q => ?_, fun i q => ?_, (hin 0).trans hL.idle⟩
  · refine (hL.queue q).congr fun x hx => ?_
    have hxi : x ≠ idx := fun e => hL.not_mem hidx q (e ▸ hx)
    rw [Sched.nx, s.modify_of_ne _ _ _ hxi]
    rfl
  · rw [hL.mem_iff, hin]
    refine and_congr_right fun hq => ?_
    have hii : i ≠ idx := by
      rintro rfl
      rw [hidx] at hq
      cases hq
    rw [Sched.queueOf, Sched.queueOf, s.modify_of_ne _ _ _ hii]

/-- **`enqueue_ready_queue` appends.** -/
theorem enqueue (hL : Queues s L) (h0 : idx ≠ 0)
    (hidx : (s.processTable idx).inReadyQueue = false) :
    Queues (s.enqueueReadyQueue idx)
      (Function.update L (s.queueOf idx) (L (s.queueOf idx) ++ [idx])) := by
  have hnot := hL.not_mem hidx
  have hreq := s.enqueueReadyQueue_requeued idx
  have htl : ∀ q t, (s.readyQueues q).tail = some t → t ∈ L q := fun q t ht =>
    List.mem_of_getLast? ((hL.queue q).tail_eq.symm.trans ht)
  have htail : (s.readyQueues (s.queueOf idx)).tail ≠ some idx := fun he => hnot _ (htl _ _ he)
  obtain ⟨hnx, hin, hrq⟩ := s.enqueueReadyQueue_eq h0 hidx htail
  refine ⟨?_, ?_, ?_⟩
  · intro q
    rw [hrq]
    by_cases hq : q = s.queueOf idx
    · subst hq
      rw [Function.update_self, Function.update_self]
      refine (hL.queue _).append (hnot _) ?_ rfl ?_ ?_
      · rw [hnx, if_pos rfl]
      · intro t ht
        have hti : t ≠ idx := fun e => hnot _ (e ▸ htl _ t ht)
        rw [hnx, if_neg hti, if_pos ht.symm]
      · intro x hx hne
        have hxi : x ≠ idx := fun e => hnot _ (e ▸ hx)
        rw [hnx, if_neg hxi, if_neg hne]
    · rw [Function.update_of_ne hq, Function.update_of_ne hq]
      refine (hL.queue q).congr fun x hx => ?_
      have hxi : x ≠ idx := fun e => hnot _ (e ▸ hx)
      -- the tail of the other queue is on the other queue
      have hxt : some x ≠ (s.readyQueues (s.queueOf idx)).tail := fun e =>
        hq (hL.disjoint hx (htl _ x e.symm))
      rw [hnx, if_neg hxi, if_neg hxt]
  · intro i q
    rw [hin, hreq.queueOf]
    by_cases hq : q = s.queueOf idx
    · subst hq
      rw [Function.update_self, List.mem_append, List.mem_singleton, hL.mem_iff]
      by_cases hi : i = idx
      · simp [hi]
      · simp [hi]
    · rw [Function.update_of_ne hq, hL.mem_iff]
      by_cases hi : i = idx
      · subst hi
        simp [hidx, Ne.symm hq]
      · simp [hi]
  · rw [hin, if_neg (Ne.symm h0)]
    exact hL.idle

theorem mem_of_queued (hL : Queues s L) (hidx : (s.processTable idx).inReadyQueue = true) :
    idx ∈ L (s.queueOf idx) :=
  (hL.mem_iff idx _).mpr ⟨hidx, rfl⟩

theorem ne_zero (hL : Queues s L) (hidx : (s.processTable idx).inReadyQueue = true) :
    idx ≠ 0 := by
  rintro rfl
  rw [hL.idle] at hidx
  cases hidx

theorem length_le (hL : Queues s L) (q : Fin priorityLevels) : (L q).length ≤ maxProcesses := by
  have h := (hL.queue q).nodup.length_le_card
  rwa [Fintype.card_fin] at h

/-- The walk of `remove_from_ready_queue` ends at the process. -/
theorem findPrev_eq (hL : Queues s L) {xs ys : List Slot}
    (hq : L (s.queueOf idx) = xs ++ idx :: ys) :
    findPrev s.nx idx (maxProcesses + 1) none (s.readyQueues (s.queueOf idx)).head
      = some (some xs.getLast?) := by
  have hqueue := hL.queue (s.queueOf idx)
  have hlen := hL.length_le (s.queueOf idx)
  rw [hq] at hqueue hlen
  have hnd := List.nodup_middle.mp hqueue.nodup
  have hxs : idx ∉ xs := fun hm => (List.nodup_cons.mp hnd).1 (List.mem_append_left _ hm)
  rw [findPrev_path hqueue.path hxs (by simp at hlen; omega), Option.or_none]

/-- **`remove_from_ready_queue` erases.** -/
theorem remove (hL : Queues s L) (hidx : (s.processTable idx).inReadyQueue = true) :
    Queues (s.removeFromReadyQueue idx)
      (Function.update L (s.queueOf idx) ((L (s.queueOf idx)).erase idx)) := by
  have h0 := hL.ne_zero hidx
  have hreq := s.removeFromReadyQueue_requeued idx
  obtain ⟨xs, ys, hq⟩ := List.append_of_mem (hL.mem_of_queued hidx)
  have hqueue := hL.queue (s.queueOf idx)
  rw [hq] at hqueue
  have hnd := List.nodup_cons.mp (List.nodup_middle.mp hqueue.nodup)
  have hxs : idx ∉ xs := fun hm => hnd.1 (List.mem_append_left _ hm)
  have herase : (L (s.queueOf idx)).erase idx = xs ++ ys := by
    rw [hq, List.erase_append_right _ hxs, List.erase_cons_head]
  have hprev : ∀ p, xs.getLast? = some p → p ∈ xs := fun p hp => List.mem_of_getLast? hp
  obtain ⟨hnx, hin, hrq⟩ := s.removeFromReadyQueue_eq h0 hidx (hL.findPrev_eq hq)
    fun he => hxs (hprev idx he)
  rw [herase]
  refine ⟨?_, ?_, ?_⟩
  · intro q
    rw [hrq]
    by_cases hqq : q = s.queueOf idx
    · subst hqq
      rw [Function.update_self, Function.update_self]
      refine hqueue.erase rfl rfl ?_ ?_
      · intro p hp
        have hpi : p ≠ idx := fun e => hxs (e ▸ hprev p hp)
        rw [hnx, if_neg hpi, if_pos hp.symm]
      · intro x hx hne
        have hxi : x ≠ idx := fun e => hnd.1 (e ▸ hx)
        rw [hnx, if_neg hxi, if_neg hne]
    · rw [Function.update_of_ne hqq, Function.update_of_ne hqq]
      refine (hL.queue q).congr fun x hx => ?_
      have hxi : x ≠ idx := fun e => hqq (hL.disjoint (e ▸ hx) (hL.mem_of_queued hidx))
      have hxp : some x ≠ xs.getLast? := fun e =>
        hqq (hL.disjoint hx (by rw [hq]; exact List.mem_append_left _ (hprev x e.symm)))
      rw [hnx, if_neg hxi, if_neg hxp]
  · intro i q
    rw [hin, hreq.queueOf]
    by_cases hqq : q = s.queueOf idx
    · subst hqq
      rw [Function.update_self, ← herase, List.Nodup.mem_erase_iff (hL.queue _).nodup, hL.mem_iff]
      by_cases hi : i = idx
      · simp [hi]
      · simp [hi]
    · rw [Function.update_of_ne hqq, hL.mem_iff]
      by_cases hi : i = idx
      · subst hi
        simp [Ne.symm hqq]
      · simp [hi]
  · rw [hin, if_neg (Ne.symm h0)]
    exact hL.idle

/-- **`dequeue_ready_queue` takes the head.** -/
theorem dequeue (hL : Queues s L) {pr : Int} {l : List Slot}
    (hq : L (priorityQueueIndex pr) = idx :: l) :
    (s.dequeueReadyQueue pr).2 = some idx ∧
      Queues (s.dequeueReadyQueue pr).1 (Function.update L (priorityQueueIndex pr) l) := by
  have hqueue := hL.queue (priorityQueueIndex pr)
  have hmem : idx ∈ L (priorityQueueIndex pr) := by
    rw [hq]
    exact List.mem_cons_self
  obtain ⟨hidx, hqi⟩ := (hL.mem_iff _ _).mp hmem
  rw [hq] at hqueue
  have hhead := hqueue.head_eq
  have hnd := List.nodup_cons.mp hqueue.nodup
  obtain ⟨hres, hnx, hin, hrq, hqo⟩ := s.dequeueReadyQueue_eq hhead
  refine ⟨hres, ?_, ?_, ?_⟩
  · intro q
    rw [hrq]
    by_cases hqq : q = priorityQueueIndex pr
    · subst hqq
      rw [Function.update_self, Function.update_self]
      refine hqueue.pop rfl fun y hy => ?_
      have hyi : y ≠ idx := fun e => hnd.1 (e ▸ hy)
      rw [hnx, if_neg hyi]
    · rw [Function.update_of_ne hqq, Function.update_of_ne hqq]
      refine (hL.queue q).congr fun x hx => ?_
      have hxi : x ≠ idx := fun e => hqq (hL.disjoint (e ▸ hx) hmem)
      rw [hnx, if_neg hxi]
  · intro i q
    rw [hin, hqo]
    by_cases hqq : q = priorityQueueIndex pr
    · subst hqq
      rw [Function.update_self]
      have hm := hL.mem_iff i (priorityQueueIndex pr)
      rw [hq, List.mem_cons] at hm
      by_cases hi : i = idx
      · subst hi
        simp [hnd.1]
      · rw [if_neg hi, ← hm]
        simp [hi]
    · rw [Function.update_of_ne hqq, hL.mem_iff]
      by_cases hi : i = idx
      · subst hi
        rw [hqi]
        simp [Ne.symm hqq]
      · simp [hi]
  · rw [hin, if_neg (Ne.symm (hL.ne_zero hidx))]
    exact hL.idle

end Queues

end TP2Kernel
