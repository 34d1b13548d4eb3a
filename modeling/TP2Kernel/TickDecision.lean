/-
TP2Kernel/TickDecision.lean

What one `scheduler_tick` decides, read on the five ready queues as lists.  The
current process, if it was running, joins the tail of the level of its base
priority (`joined`); the ageing pass then goes through the slots in index order
and moves those that are due to the tail of the next level (`agedLevels`); the
head of the highest level that is not empty is dispatched (`firstOf`) and only
leaves its list.

The ageing pass is a fold over slots on both sides, so its list reading is a
step lemma (`Queues.ageProcess`) and one induction over the slots; no slot is
visited twice, which is why the pass can be given the table it starts from.

When nobody is ready `dequeue_next_ready` returns slot 0 without touching it.
That its effective priority equals its priority all the same is an invariant of
its own (`Flat`): idle is never queued, so it is never aged, and every other
write sets the two fields together.
-/
import TP2Kernel.Aging

namespace TP2Kernel

namespace Sched

/-- The five ready queues as lists. -/
abbrev Levels := Fin priorityLevels → List Slot

variable {s s' : Sched} {L : Levels} {i j : Slot}

/-! ### The ageing pass on lists -/

/-- The ageing pass promotes the process when it comes to it. -/
def Due (p : PCB) : Prop :=
  (p.inReadyQueue = true ∧ p.state = .ready) ∧
    p.readyWaitTicks + 1 ≥ agingThresholdTicks ∧ p.effectivePriority < priorityMax

instance (p : PCB) : Decidable (Due p) := inferInstanceAs (Decidable ((_ ∧ _) ∧ _ ∧ _))

/-- Slot `i`'s turn in the ageing pass: a process that is due goes to the tail
of the next level. -/
def promote (T : Slot → PCB) (L : Levels) (i : Slot) : Levels :=
  if Due (T i) then fun q =>
    (L q).erase i ++ if q = priorityQueueIndex ((T i).effectivePriority + 1) then [i] else []
  else L

/-- The ageing pass on the lists `L` of the table `T`. -/
def agedLevels (T : Slot → PCB) (L : Levels) : Levels := userSlots.foldl (promote T) L

/-- Whether a process is due does not depend on its links. -/
theorem due_congr {b c : PCB} (hu : c.unlinked = b.unlinked)
    (hin : c.inReadyQueue = b.inReadyQueue) : Due c ↔ Due b := by
  have hst : c.state = b.state := PCB.field_of_unlinked hu PCB.state fun _ => rfl
  have ht : c.readyWaitTicks = b.readyWaitTicks :=
    PCB.field_of_unlinked hu PCB.readyWaitTicks fun _ => rfl
  have he : c.effectivePriority = b.effectivePriority :=
    PCB.field_of_unlinked hu PCB.effectivePriority fun _ => rfl
  unfold Due
  rw [hst, ht, he, hin]

theorem promote_congr {T T' : Slot → PCB} (hu : (T' i).unlinked = (T i).unlinked)
    (hin : (T' i).inReadyQueue = (T i).inReadyQueue) (L : Levels) :
    promote T' L i = promote T L i := by
  have he : (T' i).effectivePriority = (T i).effectivePriority :=
    PCB.field_of_unlinked hu PCB.effectivePriority fun _ => rfl
  unfold promote
  rw [he]
  simp only [due_congr hu hin]

/-- Leaving one list and joining another, as one function of the level. -/
theorem update_erase_append (hL : Queues s L) (q' : Fin priorityLevels) (i : Slot) :
    Function.update (Function.update L (s.queueOf i) ((L (s.queueOf i)).erase i)) q'
        (Function.update L (s.queueOf i) ((L (s.queueOf i)).erase i) q' ++ [i]) =
      fun q => (L q).erase i ++ if q = q' then [i] else [] := by
  have herase : ∀ q, Function.update L (s.queueOf i) ((L (s.queueOf i)).erase i) q =
      (L q).erase i := by
    intro q
    by_cases hq : q = s.queueOf i
    · rw [hq, Function.update_self]
    · rw [Function.update_of_ne hq, List.erase_of_not_mem]
      exact fun hm => hq ((hL.mem_iff i q).mp hm).2.symm
  funext q
  by_cases hq : q = q'
  · rw [hq, Function.update_self, herase, if_pos rfl]
  · rw [Function.update_of_ne hq, herase, if_neg hq, List.append_nil]

/-- **One turn of the ageing loop.** -/
theorem ageProcess_queues (hL : Queues s L) (i : Slot) :
    Queues (s.ageProcess i) (promote s.processTable L i) := by
  have hcount : Queues (s.modify i fun p => { p with readyWaitTicks := p.readyWaitTicks + 1 }) L :=
    hL.congr rfl (fun j => s.modify_field i j _ PCB.readyNext rfl)
      (fun j => s.modify_field i j _ PCB.inReadyQueue rfl) fun j _ =>
      congrArg priorityQueueIndex (s.modify_field i j _ PCB.effectivePriority rfl)
  simp only [ageProcess]
  by_cases hc : !(s.processTable i).inReadyQueue ∨ (s.processTable i).state ≠ .ready
  · rw [if_pos hc, promote, if_neg]
    · exact hL
    · rintro ⟨⟨hq, hr⟩, -⟩
      rcases hc with hc | hc
      · rw [hq] at hc
        cases hc
      · exact hc hr
  · rw [if_neg hc]
    simp only [not_or, Bool.not_eq_true', Bool.not_eq_false, ne_eq, not_not] at hc
    by_cases hp : (s.processTable i).readyWaitTicks + 1 ≥ agingThresholdTicks ∧
        (s.processTable i).effectivePriority < priorityMax
    · rw [if_pos hp, promote, if_pos ⟨hc, hp⟩]
      generalize hs₁ : (s.modify i fun p =>
        { p with readyWaitTicks := p.readyWaitTicks + 1 }) = s₁ at hcount ⊢
      have heff : (s₁.processTable i).effectivePriority = (s.processTable i).effectivePriority := by
        rw [← hs₁]
        exact s.modify_field i i _ PCB.effectivePriority rfl
      have hq : (s₁.processTable i).inReadyQueue = true := by
        rw [← hs₁]
        exact (s.modify_field i i _ PCB.inReadyQueue rfl).trans hc.1
      -- off its list, one level up, and on to the next
      have hrem := hcount.remove hq
      have hoff : ((s₁.removeFromReadyQueue i).processTable i).inReadyQueue = false := by
        rcases hf : ((s₁.removeFromReadyQueue i).processTable i).inReadyQueue with - | -
        · rfl
        · have hm := hrem.mem_of_queued hf
          rw [(s₁.removeFromReadyQueue_requeued i).queueOf, Function.update_self] at hm
          exact absurd hm (List.Nodup.not_mem_erase (hcount.queue _).nodup)
      have hup := hrem.modify_off hoff (f := fun p =>
        { p with effectivePriority := p.effectivePriority + 1, readyWaitTicks := 0 }) hoff
      have hon := hup.enqueue (hcount.ne_zero hq) (by rw [modify_self]; exact hoff)
      have hlevel : queueOf ((s₁.removeFromReadyQueue i).modify i fun p =>
          { p with effectivePriority := p.effectivePriority + 1, readyWaitTicks := 0 }) i =
          priorityQueueIndex ((s.processTable i).effectivePriority + 1) := by
        rw [queueOf, modify_self, ← heff]
        exact congrArg (fun e => priorityQueueIndex (e + 1))
          ((s₁.removeFromReadyQueue_requeued i).field i PCB.effectivePriority fun _ => rfl)
      rw [hlevel, update_erase_append hcount] at hon
      exact hon
    · rw [if_neg hp, promote, if_neg fun hd => hp hd.2]
      exact hcount

/-- **The ageing pass**, with the table it starts from. -/
theorem ageReadyProcesses_queues (h : Neat s) (hL : Queues s L) :
    Queues s.ageReadyProcesses (agedLevels s.processTable L) := by
  have hfold : ∀ (l : List Slot) (t : Sched) (M : Levels), Neat t → Queues t M → l.Nodup →
      (∀ i ∈ l, (t.processTable i).unlinked = (s.processTable i).unlinked ∧
        (t.processTable i).inReadyQueue = (s.processTable i).inReadyQueue) →
      Queues (l.foldl ageProcess t) (l.foldl (promote s.processTable) M) := by
    intro l
    induction l with
    | nil => exact fun t M _ hM _ _ => hM
    | cons i l ih =>
        intro t M ht hM hnd hsame
        obtain ⟨hi, hnd⟩ := List.nodup_cons.mp hnd
        obtain ⟨hu, hin⟩ := hsame i List.mem_cons_self
        have hstep := ageProcess_queues hM i
        rw [promote_congr hu hin] at hstep
        -- the slots still to come are as they were
        refine ih _ _ (ageProcess_neat ht i) hstep hnd fun j hj => ?_
        have hji : j ≠ i := fun e => hi (e ▸ hj)
        obtain ⟨hju, hjin⟩ := hsame j (List.mem_cons_of_mem _ hj)
        have hage := t.ageProcess_unlinked i j
        rw [if_neg hji] at hage
        exact ⟨hage.trans hju, (ageProcess_flag ht i j).trans hjin⟩
  unfold ageReadyProcesses
  exact hfold userSlots s L h hL nodup_userSlots fun _ _ => ⟨rfl, rfl⟩

/-! ### The dispatch on lists -/

/-- The head of the highest level that is not empty, and slot 0 if all are. -/
def firstOf (Q : Levels) : Slot :=
  (prioritiesDown.flatMap fun pr => Q (priorityQueueIndex pr)).headD 0

theorem firstOf_nil {Q : Levels} (h : ∀ pr ∈ prioritiesDown, Q (priorityQueueIndex pr) = []) :
    firstOf Q = 0 := by
  unfold firstOf
  rw [List.flatMap_eq_nil_iff.mpr h]
  rfl

theorem firstOf_cons {Q : Levels} {pr : Int} {l before after : List _}
    (hsplit : prioritiesDown = before ++ pr :: after)
    (hbefore : ∀ pr' ∈ before, Q (priorityQueueIndex pr') = [])
    (hq : Q (priorityQueueIndex pr) = i :: l) : firstOf Q = i := by
  unfold firstOf
  rw [hsplit, List.flatMap_append, List.flatMap_eq_nil_iff.mpr hbefore, List.nil_append,
    List.flatMap_cons, hq]
  rfl

/-- What the dispatch leaves of a process it passes over is what the ageing pass
made of it. -/
theorem dispatch_spec (h : Neat s) (hL : Queues s L) :
    s.dispatch.1.currentIdx = firstOf (agedLevels s.processTable L) ∧
    Queues s.dispatch.1
      (fun q => (agedLevels s.processTable L q).erase s.dispatch.1.currentIdx) ∧
    ∀ j, (s.dispatch.1.processTable j).unlinked =
      if j = s.dispatch.1.currentIdx then
        (started (if j = 0 then s.processTable 0
          else rebased { aged (s.processTable j) with readyWaitTicks := 0 })).unlinked
      else (aged (s.processTable j)).unlinked := by
  have hQ := ageReadyProcesses_queues h hL
  have hneat := ageReadyProcesses_neat h
  have hage := ageReadyProcesses_unlinked h
  have hidle : (s.ageReadyProcesses.processTable 0).unlinked = (s.processTable 0).unlinked := by
    rw [(hage 0).1, aged, if_pos (.inl (by rw [hL.idle]; rfl))]
  have hstarted : ∀ b c : PCB, b.unlinked = c.unlinked →
      (started b).unlinked = (started c).unlinked := by
    intro b c hbc
    show started b.unlinked = started c.unlinked
    rw [hbc]
  rw [dispatch_currentIdx]
  unfold dispatch dequeueNextReady
  generalize s.ageReadyProcesses = t at hQ hneat hage hidle ⊢
  generalize agedLevels s.processTable L = Q at hQ ⊢
  rcases dequeueFrom_spec hQ prioritiesDown with
    ⟨hnil, he⟩ | ⟨pr, i, l, ⟨before, after, hsplit, hbefore⟩, hq, hi, hL', hj⟩
  · -- nobody is ready
    rw [he]
    refine ⟨(firstOf_nil hnil).symm, ?_, fun j => ?_⟩
    · have h0 : ∀ q, (Q q).erase 0 = Q q := fun q => List.erase_of_not_mem (hQ.not_mem hQ.idle q)
      simp only [h0]
      exact Queues.congr (hQ.modify_off (f := started) hQ.idle hQ.idle) rfl (fun _ => rfl)
        (fun _ => rfl) fun _ _ => rfl
    · show ((t.modify 0 started).processTable j).unlinked = _
      by_cases hj0 : j = 0
      · rw [if_pos hj0, if_pos hj0, hj0, modify_self]
        exact hstarted _ _ hidle
      · rw [if_neg hj0, modify_of_ne _ _ _ _ hj0]
        exact (hage j).1
  · rw [hi]
    have hmem : i ∈ Q (priorityQueueIndex pr) := by
      rw [hq]
      exact List.mem_cons_self
    have hi0 : i ≠ 0 := hQ.ne_zero ((hQ.mem_iff i _).mp hmem).1
    have herase : Function.update Q (priorityQueueIndex pr) l = fun q => (Q q).erase i := by
      funext q
      by_cases hqp : q = priorityQueueIndex pr
      · rw [hqp, Function.update_self, hq, List.erase_cons_head]
      · rw [Function.update_of_ne hqp, List.erase_of_not_mem]
        exact fun hm => hqp (hQ.disjoint hm hmem)
    have hnot := (dequeueFrom_neat hneat prioritiesDown).2
    rw [hi] at hnot
    rw [herase] at hL'
    refine ⟨(firstOf_cons hsplit hbefore hq).symm, ?_, fun j => ?_⟩
    · exact Queues.congr (hL'.modify_off (f := started) hnot hnot) rfl (fun _ => rfl)
        (fun _ => rfl) fun _ _ => rfl
    · show (((t.dequeueFrom prioritiesDown).1.modify i started).processTable j).unlinked = _
      have hu := (hj j).2
      by_cases hji : j = i
      · subst hji
        rw [if_pos rfl] at hu
        rw [if_pos rfl, if_neg hi0, modify_self]
        refine hstarted _ _ (hu.trans ?_)
        show rebased { (t.processTable j).unlinked with readyWaitTicks := 0 } =
          rebased { (aged (s.processTable j)).unlinked with readyWaitTicks := 0 }
        rw [(hage j).1]
      · rw [if_neg hji] at hu
        rw [if_neg hji, modify_of_ne _ _ _ _ hji, hu]
        exact (hage j).1

/-! ### The tick on lists -/

/-- The current process, unless idle, is appended to the level of its base
priority if it was running. -/
def joined (s : Sched) (L : Levels) : Levels :=
  if s.current.state = .running ∧ s.currentIdx ≠ 0 then
    Function.update L (priorityQueueIndex s.current.priority)
      (L (priorityQueueIndex s.current.priority) ++ [s.currentIdx])
  else L

theorem makeReady_queues (hL : Queues s L) (hc : s.CanReady i)
    (hoff : (s.processTable i).inReadyQueue = false) :
    Queues (s.makeReady i true) (Function.update L (priorityQueueIndex (s.processTable i).priority)
      (L (priorityQueueIndex (s.processTable i).priority) ++ [i])) := by
  rw [s.makeReady_eq hc, readyPrep, removeFromReadyQueue_of_not hoff]
  have h1 := hL.modify_off hoff (f := refreshed true) hoff
  have h2 := h1.modify_off (by rw [modify_self]; exact hoff) (f := readied)
    (by rw [modify_self]; exact hoff)
  have h3 := h2.enqueue hc.1 (by rw [modify_self, modify_self]; exact hoff)
  have hq : queueOf ((s.modify i (refreshed true)).modify i readied) i =
      priorityQueueIndex (s.processTable i).priority := by
    rw [queueOf, modify_self, modify_self]
    rfl
  rw [hq] at h3
  exact h3.congr (preempt_readyQueues _ _) (fun _ => by rw [preempt_processTable])
    (fun _ => by rw [preempt_processTable]) fun _ _ => by
      unfold queueOf
      rw [preempt_processTable]

theorem tickEntry_queues (h : Neat s) (hL : Queues s L) (rsp : Nat) :
    Queues (s.tickEntry rsp) (s.joined L) := by
  have h1 : Queues (s.saveRsp rsp) L :=
    hL.congr rfl (fun j => s.modify_field _ j _ PCB.readyNext rfl)
      (fun j => s.modify_field _ j _ PCB.inReadyQueue rfl) fun j _ =>
      congrArg priorityQueueIndex (s.modify_field _ j _ PCB.effectivePriority rfl)
  unfold tickEntry joined
  by_cases hrun : s.current.state = .running
  · rw [if_pos hrun]
    have h2 : Queues (s.saveRsp rsp).countTick L :=
      h1.congr rfl (fun j => Sched.modify_field _ _ j _ PCB.readyNext rfl)
        (fun j => Sched.modify_field _ _ j _ PCB.inReadyQueue rfl) fun j _ =>
        congrArg priorityQueueIndex (Sched.modify_field _ _ j _ PCB.effectivePriority rfl)
    have hidx : (s.saveRsp rsp).countTick.currentIdx = s.currentIdx := rfl
    rw [putBack, hidx]
    by_cases h0 : s.currentIdx ≠ 0
    · rw [if_pos h0, if_pos ⟨hrun, h0⟩]
      have hcur : ((s.saveRsp rsp).countTick.processTable s.currentIdx) =
          { s.current with rsp := rsp, quantumsLeft := s.current.quantumsLeft - 1 } := by
        simp only [countTick, saveRsp, modify_currentIdx, modify_self]
        rfl
      have hoff : ((s.saveRsp rsp).countTick.processTable s.currentIdx).inReadyQueue = false := by
        rw [hcur]
        refine (h.tidy s.currentIdx).off fun hr => ?_
        cases hrun.symm.trans hr
      have hcan : (s.saveRsp rsp).countTick.CanReady s.currentIdx := by
        refine ⟨h0, ?_⟩
        rw [core_state, hcur]
        show s.current.state ≠ .dead ∧ s.current.state ≠ .zombie
        rw [hrun]
        exact ⟨by rintro ⟨⟩, by rintro ⟨⟩⟩
      have hback := makeReady_queues h2 hcan hoff
      rw [hcur] at hback
      exact hback
    · rw [if_neg h0, if_neg fun hc => h0 hc.2]
      exact h2
  · rw [if_neg hrun, if_neg fun hc => hrun hc.1]
    exact h1

/-- Up to the dispatch, a tick leaves the fields that neither `make_ready` nor
the quantum count writes. -/
theorem tickEntry_field {α : Type} (g : PCB → α) (hun : ∀ p : PCB, g p.unlinked = g p)
    (hready : ∀ p, g (readied (refreshed true p)) = g p)
    (hcount : ∀ p : PCB, g { p with quantumsLeft := p.quantumsLeft - 1 } = g p) (rsp : Nat)
    (j : Slot) : g ((s.tickEntry rsp).processTable j) = g ((s.saveRsp rsp).processTable j) := by
  unfold tickEntry
  split
  · have h1 : g ((s.saveRsp rsp).countTick.processTable j) = g ((s.saveRsp rsp).processTable j) :=
      Sched.modify_field _ _ j _ g (hcount _)
    rw [← h1]
    unfold putBack
    split
    · by_cases hc : (s.saveRsp rsp).countTick.CanReady (s.saveRsp rsp).countTick.currentIdx
      · have hu := makeReady_unlinked hc j
        rw [← hun, hu]
        split
        · rename_i hj
          rw [hun, hready, hj]
        · exact hun _
      · rw [makeReady_of_not _ hc]
    · rfl
  · rfl

theorem tickEntry_priority (s : Sched) (rsp : Nat) (j : Slot) :
    ((s.tickEntry rsp).processTable j).priority = (s.processTable j).priority := by
  rw [s.tickEntry_field PCB.priority (fun _ => rfl) (fun _ => rfl) fun _ => rfl]
  exact s.modify_field _ j _ PCB.priority rfl

/-- What `scheduler_tick` decides; `Q` are the queues it picks from. -/
structure Decides (s : Sched) (rsp : Nat) (Q : Levels) (r : Sched × Nat) : Prop where
  /-- The early return is not taken. -/
  always : r = (s.tickEntry rsp).dispatch
  /-- The head of the highest level is dispatched. -/
  next : r.1.currentIdx = firstOf Q
  /-- Everybody else stays where they are. -/
  lists : Queues r.1 fun q => (Q q).erase r.1.currentIdx
  /-- The stack pointer is stored in the old current slot. -/
  saved : ∀ j, (r.1.processTable j).rsp =
    if j = s.currentIdx then rsp else (s.processTable j).rsp
  /-- The stack pointer of the dispatched slot is returned. -/
  returns : r.2 = if r.1.currentIdx = s.currentIdx then rsp
    else (s.processTable r.1.currentIdx).rsp
  /-- Base priorities stay. -/
  priority : ∀ j, (r.1.processTable j).priority = (s.processTable j).priority
  /-- Only the dispatched slot gets its base priority back. -/
  effective : ∀ j, (r.1.processTable j).effectivePriority =
    if j = r.1.currentIdx then (s.processTable j).priority
    else (aged ((s.tickEntry rsp).processTable j)).effectivePriority

/-- The dispatch leaves the fields that neither ageing nor it writes. -/
theorem dispatch_field (h : Neat s) {α : Type} (g : PCB → α) (hun : ∀ p : PCB, g p.unlinked = g p)
    (hage : ∀ (p : PCB) e t, g { p with effectivePriority := e, readyWaitTicks := t } = g p)
    (hstart : ∀ p, g (started p) = g p) (j : Slot) :
    g (s.dispatch.1.processTable j) = g (s.processTable j) := by
  obtain ⟨L, hL⟩ := h.lists
  have htable := (dispatch_spec h hL).2.2 j
  have haged := aged_field g hage (s.processTable j)
  split at htable
  · rw [← hun, htable, hun, hstart]
    split
    · rename_i hj
      rw [hj]
    · have hback : g (rebased { aged (s.processTable j) with readyWaitTicks := 0 }) =
          g (aged (s.processTable j)) :=
            hage (aged (s.processTable j)) (aged (s.processTable j)).priority 0
      rw [hback, haged]
  · rw [← hun, htable, hun, haged]

theorem dispatch_returns (s : Sched) :
    s.dispatch.2 = (s.dispatch.1.processTable s.dispatch.1.currentIdx).rsp := by
  unfold dispatch
  generalize s.dequeueNextReady = r
  rfl

/-! ### The idle process -/

/-- The effective priority of the process is its base priority. -/
def Level (p : PCB) : Prop := p.effectivePriority = p.priority

/-- Idle is at its base priority. -/
def Flat (s : Sched) : Prop := Level (s.processTable 0)

namespace Flat

theorem of_table (h : s.Flat) (hT : s'.processTable = s.processTable) : s'.Flat := by
  unfold Flat
  rw [hT]
  exact h

theorem modify (h : s.Flat) (i : Slot) {f : PCB → PCB} (hf : ∀ p, Level p → Level (f p)) :
    (s.modify i f).Flat := by
  unfold Flat
  rw [modify_processTable]
  split
  · exact hf _ (by rename_i hi; rw [← hi]; exact h)
  · exact h

theorem modify_user (h : s.Flat) (hi : i ≠ 0) (f : PCB → PCB) : (s.modify i f).Flat := by
  unfold Flat
  rw [modify_of_ne _ _ _ _ hi.symm]
  exact h

theorem requeued (h : s.Flat) (hr : Requeued s s') : s'.Flat := by
  unfold Flat Level
  rw [hr.field 0 PCB.effectivePriority fun _ => rfl, hr.field 0 PCB.priority fun _ => rfl]
  exact h

/-- `make_ready` refuses idle. -/
theorem makeReady (h : s.Flat) (i : Slot) : (s.makeReady i true).Flat := by
  by_cases hc : s.CanReady i
  · rw [s.makeReady_eq hc]
    refine of_table ?_ (preempt_processTable _ _)
    exact (((h.requeued (s.removeFromReadyQueue_requeued i)).modify_user hc.1 _).modify_user hc.1
      _).requeued (enqueueReadyQueue_requeued _ i)
  · rw [s.makeReady_of_not hc]
    exact h

theorem wakes {S : Int → Prop} (h : s.Flat) (hw : Wakes S s s') : s'.Flat :=
  hw.invariant h fun _ i ht _ _ => ht.makeReady i

theorem wakeWaiters (h : s.Flat) (pid : Int) (hand : Bool) : (s.wakeWaiters pid hand).Flat := by
  unfold Sched.wakeWaiters
  induction allSlots generalizing s with
  | nil => exact h
  | cons i l ih =>
      apply ih
      simp only [wakeWaiter]
      split
      · have h1 : (s.modify i fun p => { p with waitingFor := -1 }).Flat := h.modify i fun _ => id
        split
        · apply Flat.makeReady
          exact (h1.modify i (f := setForeground 1) fun _ => id).of_table rfl
        · exact h1.makeReady i
      · exact h

theorem ensureForegroundOwner (h : s.Flat) : s.ensureForegroundOwner.Flat := by
  unfold Sched.ensureForegroundOwner
  split
  · exact h
  · split
    · exact h
    · split
      · exact h.modify _ fun _ => id
      · exact h

theorem restoreParentForeground (h : s.Flat) (i : Slot) : (s.restoreParentForeground i).Flat := by
  simp only [Sched.restoreParentForeground]
  split
  · exact h
  · refine Flat.modify ?_ i fun _ => id
    split
    · exact h
    · split
      · exact (h.modify _ (f := setForeground 1) fun _ => id).of_table rfl
      · exact h

theorem schedulerBlock (h : s.Flat) (pid : Int) : (s.schedulerBlock pid).Flat := by
  simp only [Sched.schedulerBlock]
  split
  · exact h
  · rename_i i _
    have h1 : ((s.removeFromReadyQueue i).modify i fun p => { p with state := .blocked }).Flat :=
      (h.requeued (s.removeFromReadyQueue_requeued i)).modify i fun _ => id
    split
    · exact (h1.modify i (f := expired) fun _ => id).of_table rfl
    · exact h1

theorem schedulerCreate (h : s.Flat) (name : List UInt8) (priority fg : Int) (stack : Nat) :
    (s.schedulerCreate name priority fg stack).1.Flat := by
  have hcase := s.schedulerCreate_cases name priority fg stack
  generalize s.schedulerCreate name priority fg stack = r at hcase
  cases hcase with
  | refused => exact h
  | creates slot pr hpr hslot hstack =>
      have h0 := (findFreeSlot_some hslot).1
      apply Flat.makeReady
      have h1 : (Sched.modify { s with nextPid := s.nextPid + 1 } slot
          (created s.nextPid s.current.pid name pr fg stack)).Flat :=
        modify_user (h.of_table rfl) h0 _
      simp only [createPrep]
      refine of_table (modify_user ?_ h0 fun p => { p with fds := initialFds }) rfl
      split
      · exact h1.modify _ fun _ => id
      · exact h1

theorem schedulerWait (h : s.Flat) (pid : Int) : (s.schedulerWait pid).1.Flat := by
  have hcase := s.schedulerWait_cases pid
  generalize s.schedulerWait pid = r at hcase
  cases hcase with
  | refused => exact h
  | reaps i s' _ _ _ _ hs' =>
      rw [hs']
      refine of_table (s := s.reapProcess i) ?_ rfl
      simp only [reapProcess]
      split
      · exact h
      · have h1 := h.requeued (s.removeFromReadyQueue_requeued i)
        refine Flat.modify ?_ i fun _ _ => rfl
        split
        · exact h1.of_table rfl
        · exact h1
  | blocks i _ _ _ _ => exact (h.modify _ (f := waiting pid) fun _ => id).of_table rfl

theorem schedulerNice (h : s.Flat) (pid pr : Int) : (s.schedulerNice pid pr).1.Flat := by
  rcases s.schedulerNice_renice pid pr with he | ⟨i, -, -, hT, -⟩
  · rw [he]
    exact h
  · refine of_table ?_ hT
    unfold renice
    split
    · exact ((h.requeued (s.removeFromReadyQueue_requeued i)).modify i (f := reniced pr)
        fun _ _ => rfl).requeued (enqueueReadyQueue_requeued _ i)
    · exact h.modify i (f := reniced pr) fun _ _ => rfl

theorem tickEntry (h : s.Flat) (rsp : Nat) : (s.tickEntry rsp).Flat := by
  have h1 : (s.saveRsp rsp).Flat := h.modify _ fun _ => id
  unfold Sched.tickEntry
  split
  · have h2 : (s.saveRsp rsp).countTick.Flat := h1.modify _ fun _ => id
    unfold putBack
    split
    · exact h2.makeReady _
    · exact h2
  · exact h1

end Flat

theorem schedulerTick_decides (h : Neat s) (hflat : s.Flat) (hL : Queues s L) (rsp : Nat) :
    s.Decides rsp (agedLevels (s.tickEntry rsp).processTable (s.joined L))
      (s.schedulerTick rsp) := by
  have hentry := (tickEntry_moves h rsp).neat h
  obtain ⟨hnext, hlists, htable⟩ := dispatch_spec hentry (tickEntry_queues h hL rsp)
  have hrsp : ∀ j, (((s.tickEntry rsp).dispatch).1.processTable j).rsp =
      if j = s.currentIdx then rsp else (s.processTable j).rsp := by
    intro j
    rw [dispatch_field hentry PCB.rsp (fun _ => rfl) (fun _ _ _ => rfl) fun _ => rfl,
      s.tickEntry_field PCB.rsp (fun _ => rfl) (fun _ => rfl) (fun _ => rfl), saveRsp,
      modify_processTable]
    split
    · rfl
    · rfl
  have hbase := s.tickEntry_priority rsp
  have hflat' := hflat.tickEntry rsp
  rw [schedulerTick_eq (h.tidy _).quantum]
  refine ⟨rfl, hnext, hlists, hrsp, ?_, fun j => ?_, fun j => ?_⟩
  · rw [← hrsp, dispatch_returns]
  · rw [dispatch_field hentry PCB.priority (fun _ => rfl) (fun _ _ _ => rfl) fun _ => rfl, hbase]
  · have hj := htable j
    split at hj
    · rename_i hcur
      have he := PCB.field_of_unlinked hj PCB.effectivePriority fun _ => rfl
      rw [he, if_pos hcur, ← hbase]
      by_cases h0 : j = 0
      · -- nobody was ready: idle is dispatched as it is
        subst h0
        rw [if_pos rfl]
        exact hflat'
      · rw [if_neg h0]
        exact aged_field PCB.priority (fun _ _ _ => rfl) _
    · rename_i hcur
      rw [if_neg hcur]
      exact PCB.field_of_unlinked hj PCB.effectivePriority fun _ => rfl

end Sched

namespace Kernel

open Sched

variable {k : Kernel}

theorem closeProcessFds_flat (h : k.sched.Flat) (i : Slot) : (k.closeProcessFds i).sched.Flat :=
  closeProcessFds_invariant (P := fun k => k.sched.Flat) h (fun _ _ hf hr => hf.wakes hr.wakes)
    fun _ _ _ hf => hf.modify i fun _ => id

theorem schedulerExitCurrent_flat (h : k.sched.Flat) (status : Int) :
    (k.schedulerExitCurrent status).sched.Flat := by
  simp only [schedulerExitCurrent]
  split
  · exact h
  · rename_i h0
    have h1 : (k.exitPrep k.sched.currentIdx status).sched.Flat :=
      (h.modify _ (f := setExitStatus status) fun _ => id).restoreParentForeground _
    have h2 := closeProcessFds_flat h1 k.sched.currentIdx
    rw [onSched_sched]
    generalize (k.exitPrep k.sched.currentIdx status).closeProcessFds k.sched.currentIdx = k₂
      at h2 ⊢
    simp only [leave]
    refine Flat.ensureForegroundOwner (Flat.wakeWaiters ?_ _ _)
    exact ((h2.requeued (removeFromReadyQueue_requeued _ _)).modify_user h0 ended).of_table rfl

theorem killOther_flat (h : k.sched.Flat) {i : Slot} (hi : i ≠ 0) (pid : Int) :
    (k.killOther i pid).sched.Flat := by
  have h1 : (k.killPrep i pid).sched.Flat :=
    (h.requeued (k.sched.removeFromReadyQueue_requeued i)).restoreParentForeground i
  have h2 := closeProcessFds_flat h1 i
  rw [killOther, onSched_sched]
  generalize (k.killPrep i pid).closeProcessFds i = k₂ at h2 ⊢
  simp only [bury]
  refine Flat.ensureForegroundOwner (Flat.wakeWaiters ?_ _ _)
  have h3 := h2.modify_user hi killed
  have h4 : ((k₂.sched.modify i killed).freeStack
      ((k₂.sched.modify i killed).processTable i).stackBase).Flat := h3.of_table rfl
  split
  · exact (h4.modify_user hi fun p => { p with stackBase := 0 }).of_table rfl
  · exact h3.of_table rfl

theorem schedulerKill_flat (hs : Sound k) (h : k.sched.Flat) (pid : Int) :
    (k.schedulerKill pid).1.sched.Flat := by
  simp only [schedulerKill]
  split
  · exact h
  · rename_i hpid
    split
    · exact h
    · rename_i i hi
      split
      · exact schedulerExitCurrent_flat h _
      · refine killOther_flat h ?_ pid
        -- idle has pid 0
        rintro rfl
        have h0 : (k.sched.processTable 0).pid = 0 := hs.pids.idle.1
        have := (findIndexByPid_some hi).1
        omega

theorem semWait_flat (h : k.sched.Flat) (semId : Int) : (k.semWait semId).1.sched.Flat := by
  rw [semWait_sched]
  split
  · exact h.schedulerBlock _
  · exact h

theorem StepCases.flat {α : Type} {p : Fin maxPipes} {own other : Int} {move : Pipe → Pipe}
    {dry shut live : Prop} {fl bl ag sp dn : α} {r : Kernel × α}
    (hr : k.StepCases p own other move dry shut live fl bl ag sp dn r) (h : k.sched.Flat) :
    r.1.sched.Flat := by
  cases hr with
  | waits _ => exact semWait_flat h _
  | stops _ => exact h
  | moves _ => exact h.wakes ((k.modifyPipe_releases p _).trans (semPost_releases _ _)).wakes

/-- **Idle stays at its base priority.** -/
theorem exec_flat (hs : Sound k) (h : k.sched.Flat) {op : Op} (htick : ∀ rsp, op ≠ .tick rsp) :
    (k.exec op).sched.Flat := by
  cases op with
  | create name priority fg stack => exact h.schedulerCreate name priority fg stack
  | kill pid => exact schedulerKill_flat hs h pid
  | killForeground =>
      show k.schedulerKillForeground.1.sched.Flat
      unfold schedulerKillForeground
      split
      · exact h
      · exact schedulerKill_flat hs h _
  | block pid => exact h.schedulerBlock pid
  | unblock pid => exact h.wakes (k.sched.schedulerUnblock_wakes (S := fun _ => True) trivial)
  | nice pid pr => exact h.schedulerNice pid pr
  | wait pid => exact h.schedulerWait pid
  | exit status => exact schedulerExitCurrent_flat h status
  | yield => exact (h.modify _ (f := expired) fun _ => id).of_table rfl
  | tick rsp => exact absurd rfl (htick rsp)
  | semWait semId => exact semWait_flat h semId
  | semOpen | semPost | semPostAll | semClose | pipeOpen | pipeClose => exact h.wakes (k.exec_wakes _ trivial)
  | pipeSetFd pid fd pipeId w =>
      exact syscallPipeSetFd_invariant (P := fun k' => k'.sched.Flat) h
        (fun _ i _ _ hrel => (h.wakes hrel.wakes).modify i fun _ => id) _ _ _ _
  | pipeRead p => exact (k.pipeReadStep_cases p).flat h
  | pipeWrite p c => exact (k.pipeWriteStep_cases p c).flat h

/-! ### Runs -/

/-- Whoever a tick dispatches, idle stays at its base priority. -/
theorem tick_flat (hk : OnCpu k) (h : k.sched.Flat) (rsp : Nat) :
    (k.exec (.tick rsp)).sched.Flat := by
  obtain ⟨L, hL⟩ := hk.neat.lists
  have hd := schedulerTick_decides hk.neat h hL rsp
  show (k.sched.schedulerTick rsp).1.Flat
  unfold Flat Level
  rw [hd.effective, hd.priority]
  split
  · rfl
  · -- idle is on no queue, so the ageing pass skips it
    have hoff := (tickEntry_queues hk.neat hL rsp).idle
    rw [aged, if_pos (.inl (by rw [hoff]; rfl))]
    exact (h.tickEntry rsp).trans (k.sched.tickEntry_priority rsp 0)

theorem step_flat (hk : OnCpu k) (h : k.sched.Flat) {l : CpuLabel} {k' : Kernel}
    (hg : cpuMachine.guard k l) (hstep : cpuMachine.step k l = some k') : k'.sched.Flat := by
  cases l with
  | call op rsp =>
      have hop := hk.exec (IsCall.not_tick hg.1) fun _ _ => hg.2
      have hf := exec_flat hk.sound h (IsCall.not_tick hg.1)
      simp only [cpuMachine] at hstep
      split at hstep
      · obtain rfl := Option.some.inj hstep
        exact tick_flat hop hf rsp
      · obtain rfl := Option.some.inj hstep
        exact hf
  | timer rsp =>
      obtain rfl := Option.some.inj hstep
      exact tick_flat hk h rsp
  | keyboard =>
      obtain rfl := Option.some.inj hstep
      exact exec_flat hk.sound h fun _ => by rintro ⟨⟩

theorem cpuMachine_flat {idleStack : Nat} (h : cpuMachine.Reach (init idleStack) k) :
    OnCpu k ∧ k.sched.Flat :=
  h.invariant (I := fun k => OnCpu k ∧ k.sched.Flat) ⟨init_onCpu idleStack, rfl⟩
    fun _ _ _ hk hg hstep => ⟨hk.1.step hg hstep, step_flat hk.1 hk.2 hg hstep⟩

theorem tickOf_flat (hk : OnCpu k) (h : k.sched.Flat) {l : CpuLabel} (hg : cpuMachine.guard k l)
    {k₁ : Kernel} {rsp : Nat} (ht : k.tickOf l = some (k₁, rsp)) : k₁.sched.Flat := by
  rcases tickOf_some ht with ⟨op, rfl, rfl⟩ | ⟨-, rfl⟩
  · exact exec_flat hk.sound h (IsCall.not_tick hg.1)
  · exact h

/-- **The dispatch decision**: in every state of a run no quantum exceeds one,
and every `scheduler_tick` of the next step, the timer's or the one after a
call, decides by the lists it finds. -/
theorem dispatch_decision {idleStack : Nat} (h : cpuMachine.Reach (init idleStack) k) :
    (∀ i, (k.proc i).quantumsLeft ≤ 1) ∧
    ∀ l k₁ rsp, cpuMachine.guard k l → k.tickOf l = some (k₁, rsp) →
      (∀ i, (k₁.proc i).quantumsLeft ≤ 1) ∧ Queues k₁.sched k₁.sched.readyList ∧
      k₁.sched.Decides rsp (agedLevels (k₁.sched.tickEntry rsp).processTable
        (k₁.sched.joined k₁.sched.readyList)) (k₁.sched.schedulerTick rsp) := by
  obtain ⟨hk, hflat⟩ := cpuMachine_flat h
  refine ⟨fun i => (hk.neat.tidy i).quantum, fun l k₁ rsp hg ht => ?_⟩
  have h1 := tickOf_onCpu hk hg ht
  obtain ⟨L, hL⟩ := h1.neat.lists
  have hlist : k₁.sched.readyList = L := funext fun q => readyList_eq hL q
  rw [hlist]
  exact ⟨fun i => (h1.neat.tidy i).quantum, hL,
    schedulerTick_decides h1.neat (tickOf_flat hk hflat hg ht) hL rsp⟩

/-- The shell and its child share a level: the timer puts the shell behind the
child and dispatches the child. -/
theorem dispatch_decision_child : ∃ k : Kernel,
    cpuMachine.Reach (init 1000) k ∧ k.sched.currentIdx = 1 ∧
      firstOf (agedLevels (k.sched.tickEntry 7).processTable
        (k.sched.joined k.sched.readyList)) = 2 ∧
      k.sched.Decides 7 (agedLevels (k.sched.tickEntry 7).processTable
        (k.sched.joined k.sched.readyList)) (k.sched.schedulerTick 7) := by
  obtain ⟨k, hk, hcur, hfirst⟩ := cpuMachine.exists_reach_of_trace (s := init 1000)
    [.call (.create [115] 3 1 5000) 0, .timer 0, .call (.create [99] 3 0 9000) 0]
    (P := fun k => k.sched.currentIdx = 1 ∧ firstOf (agedLevels (k.sched.tickEntry 7).processTable
        (k.sched.joined k.sched.readyList)) = 2) (by decide +kernel)
  exact ⟨k, hk, hcur, hfirst, ((dispatch_decision hk).2 (.timer 7) k 7 trivial rfl).2.2⟩

end Kernel

end TP2Kernel
