/-
TP2Kernel/Aging.lean

Nobody is passed over forever.  The rank of a ready process is how far it is
from the top priority and how long until it is promoted, or, once it is at the
top, how many processes are before it in the top queue.  Every tick dispatches
the process or lowers its rank, and no piece of kernel code that is not aimed
at it raises the rank (`aging_progress`); since the rank is bounded, at most
`87` ticks can go by (`PassedOver`).
-/
import TP2Kernel.Dispatch
import Mathlib.Data.Prod.Lex
import Mathlib.Algebra.Order.Ring.Int

namespace TP2Kernel

namespace Sched

variable {s s' : Sched} {p i : Slot} {q : Fin priorityLevels} {n : Nat}

/-! ### Rank -/

/-- The ready queue of a level, read along its links. -/
def readyList (s : Sched) (q : Fin priorityLevels) : List Slot :=
  walk s.nx maxProcesses (s.readyQueues q).head

theorem readyList_eq {L : Fin priorityLevels → List Slot} (hL : Queues s L)
    (q : Fin priorityLevels) : s.readyList q = L q :=
  walk_path (hL.queue q).path (hL.length_le q)

/-- The queue of `PROCESS_PRIORITY_MAX`. -/
def topQueue : Fin priorityLevels := priorityQueueIndex priorityMax

/-- How far a ready process is from being dispatched. -/
def rank (s : Sched) (p : Slot) : ℤ ×ₗ ℤ :=
  if (s.processTable p).effectivePriority < 5 then
    toLex (5 - (s.processTable p).effectivePriority, 6 - (s.processTable p).readyWaitTicks)
  else toLex (0, ((s.readyList topQueue).idxOf p : ℤ))

/-! ### The place in a queue -/

/-- The process is on the queue `q`, with at most `n` others before it. -/
def Within (s : Sched) (p : Slot) (q : Fin priorityLevels) (n : Nat) : Prop :=
  ∃ L, Queues s L ∧ p ∈ L q ∧ (L q).idxOf p ≤ n

theorem idxOf_erase_le {l : List Slot} (hip : i ≠ p) : (l.erase i).idxOf p ≤ l.idxOf p := by
  induction l with
  | nil => exact le_refl _
  | cons x l ih =>
      by_cases hx : x = i
      · subst hx
        rw [List.erase_cons_head, List.idxOf_cons_ne _ hip]
        exact Nat.le_succ _
      · rw [List.erase_cons_tail (by simpa using hx)]
        by_cases hxp : x = p
        · subst hxp
          rw [List.idxOf_cons_self]
          exact Nat.zero_le _
        · rw [List.idxOf_cons_ne _ hxp, List.idxOf_cons_ne _ hxp]
          exact Nat.succ_le_succ ih

namespace Within

theorem of_tables (h : s.Within p q n) (hT : s'.processTable = s.processTable)
    (hQ : s'.readyQueues = s.readyQueues) : s'.Within p q n := by
  obtain ⟨L, hL, hmem, hn⟩ := h
  refine ⟨L, hL.congr hQ (fun j => ?_) (fun j => ?_) fun j _ => ?_, hmem, hn⟩
  · rw [hT]
  · rw [hT]
  · unfold queueOf
    rw [hT]

theorem adjust (h : s.Within p q n) {f : PCB → PCB}
    (hf : Mild (s.processTable i) (f (s.processTable i))) : (s.modify i f).Within p q n := by
  obtain ⟨L, hL, hmem, hn⟩ := h
  refine ⟨L, hL.congr rfl (fun j => s.modify_field i j f PCB.readyNext hf.readyNext)
    (fun j => s.modify_field i j f PCB.inReadyQueue hf.inReadyQueue) fun j _ => ?_, hmem, hn⟩
  exact s.modify_field i j f (fun p => priorityQueueIndex p.effectivePriority)
    (congrArg priorityQueueIndex hf.effectivePriority)

theorem modify_off (h : s.Within p q n) (hoff : (s.processTable i).inReadyQueue = false)
    {f : PCB → PCB} (hf : (f (s.processTable i)).inReadyQueue = false) :
    (s.modify i f).Within p q n := by
  obtain ⟨L, hL, hmem, hn⟩ := h
  exact ⟨L, hL.modify_off hoff hf, hmem, hn⟩

/-- Others queue up behind. -/
theorem enqueue (h : s.Within p q n) (i : Slot) : (s.enqueueReadyQueue i).Within p q n := by
  obtain ⟨L, hL, hmem, hn⟩ := h
  have hL' := hL.enqueue_list i
  split at hL'
  · exact ⟨L, hL', hmem, hn⟩
  · by_cases hq : q = s.queueOf i
    · subst hq
      refine ⟨_, hL', ?_, ?_⟩
      · rw [Function.update_self]
        exact List.mem_append_left _ hmem
      · rw [Function.update_self, List.idxOf_append_of_mem hmem]
        exact hn
    · refine ⟨_, hL', ?_, ?_⟩
      · rw [Function.update_of_ne hq]
        exact hmem
      · rw [Function.update_of_ne hq]
        exact hn

/-- Those who leave make room. -/
theorem remove (h : s.Within p q n) (hip : i ≠ p) : (s.removeFromReadyQueue i).Within p q n := by
  obtain ⟨L, hL, hmem, hn⟩ := h
  have hL' := hL.remove_list i
  by_cases hq : q = s.queueOf i
  · subst hq
    refine ⟨_, hL', ?_, ?_⟩
    · rw [Function.update_self]
      exact (List.mem_erase_of_ne hip.symm).mpr hmem
    · rw [Function.update_self]
      exact (idxOf_erase_le hip).trans hn
  · refine ⟨_, hL', ?_, ?_⟩
    · rw [Function.update_of_ne hq]
      exact hmem
    · rw [Function.update_of_ne hq]
      exact hn

theorem makeReady (h : s.Within p q n) (hoff : (s.processTable i).inReadyQueue = false) :
    (s.makeReady i true).Within p q n := by
  by_cases hc : s.CanReady i
  · rw [s.makeReady_eq hc, readyPrep, removeFromReadyQueue_of_not hoff]
    refine of_tables ?_ (preempt_processTable _ _) (preempt_readyQueues _ _)
    refine enqueue (modify_off (modify_off h hoff hoff) ?_ ?_) i
    · rw [modify_self]
      exact hoff
    · rw [modify_self]
      exact hoff
  · rw [s.makeReady_of_not hc]
    exact h

theorem renice (h : s.Within p q n) (hneat : Neat s) (hip : i ≠ p) (pr : Int) :
    (s.renice i pr).Within p q n := by
  unfold Sched.renice
  split
  · have hoff := removeFromReadyQueue_off hneat i
    exact ((h.remove hip).modify_off hoff hoff).enqueue i
  · rename_i hq
    have hoff : (s.processTable i).inReadyQueue = false := by simpa using hq
    exact h.modify_off hoff hoff

end Within

/-- The process waits as before. -/
structure Waits (p q : PCB) : Prop where
  state : q.state = p.state
  inReadyQueue : q.inReadyQueue = p.inReadyQueue
  effectivePriority : q.effectivePriority = p.effectivePriority
  readyWaitTicks : q.readyWaitTicks = p.readyWaitTicks

namespace Waits

theorem refl (b : PCB) : Waits b b := ⟨rfl, rfl, rfl, rfl⟩

theorem of_eq {b c : PCB} (h : c = b) : Waits b c := h ▸ refl b

theorem trans {b c d : PCB} (h : Waits b c) (h' : Waits c d) : Waits b d :=
  ⟨h'.state.trans h.state, h'.inReadyQueue.trans h.inReadyQueue,
    h'.effectivePriority.trans h.effectivePriority, h'.readyWaitTicks.trans h.readyWaitTicks⟩

theorem of_mild {b c : PCB} (h : Mild b c) : Waits b c :=
  ⟨h.state, h.inReadyQueue, h.effectivePriority, h.readyWaitTicks⟩

theorem of_unlinked {b c : PCB} (h : c.unlinked = b.unlinked)
    (hin : c.inReadyQueue = b.inReadyQueue) : Waits b c :=
  ⟨PCB.field_of_unlinked h PCB.state fun _ => rfl, hin,
    PCB.field_of_unlinked h PCB.effectivePriority fun _ => rfl,
    PCB.field_of_unlinked h PCB.readyWaitTicks fun _ => rfl⟩

end Waits

/-- What a queued process that nothing is aimed at sees of a change. -/
structure Steady (p : Slot) (s s' : Sched) : Prop where
  waits : Waits (s.processTable p) (s'.processTable p)
  within : ∀ q n, s.Within p q n → s'.Within p q n

namespace Steady

theorem refl (p : Slot) (s : Sched) : Steady p s s := ⟨.refl _, fun _ _ h => h⟩

theorem trans {s'' : Sched} (h : Steady p s s') (h' : Steady p s' s'') : Steady p s s'' :=
  ⟨h.waits.trans h'.waits, fun q n hw => h'.within q n (h.within q n hw)⟩

theorem queued (h : Steady p s s') (hp : (s.processTable p).inReadyQueue = true) :
    (s'.processTable p).inReadyQueue = true := h.waits.inReadyQueue.trans hp

end Steady

theorem ne_of_off (hp : (s.processTable p).inReadyQueue = true)
    (hoff : (s.processTable i).inReadyQueue = false) : i ≠ p := by
  rintro rfl
  cases hp.symm.trans hoff

/-- A move that is not aimed at a queued process. -/
theorem move_steady {aim : Slot → Prop} (m : Move aim s s') (h : Neat s)
    (hp : (s.processTable p).inReadyQueue = true) (ha : ¬ aim p) : Steady p s s' := by
  have hother : ∀ {i : Slot}, aim i → p ≠ i := by
    rintro i hi rfl
    exact ha hi
  cases m with
  | tables hT hQ => exact ⟨.of_eq (by rw [hT]), fun _ _ hw => hw.of_tables hT hQ⟩
  | adjust i hf =>
      refine ⟨?_, fun _ _ hw => hw.adjust hf⟩
      rw [modify_processTable]
      split
      · rename_i hpi
        subst hpi
        exact .of_mild hf
      · exact .refl _
  | ready i hoff =>
      have hpi := (ne_of_off hp hoff).symm
      refine ⟨?_, fun _ _ hw => hw.makeReady hoff⟩
      by_cases hc : s.CanReady i
      · have hu := s.makeReady_unlinked hc p
        rw [if_neg hpi] at hu
        exact .of_unlinked hu (s.makeReady_flag hpi true)
      · exact .of_eq (by rw [s.makeReady_of_not hc])
  | set i hoff hf _ =>
      refine ⟨.of_eq ?_, fun _ _ hw => hw.modify_off hoff hf⟩
      rw [modify_of_ne _ _ _ _ (ne_of_off hp hoff).symm]
  | unqueue i hi =>
      exact ⟨.of_unlinked ((s.removeFromReadyQueue_requeued i).unlinked p)
        (removeFromReadyQueue_flag (hother hi)), fun _ _ hw => hw.remove (hother hi).symm⟩
  | renice i _ hi =>
      have hpi := hother hi
      refine ⟨?_, fun _ _ hw => hw.renice h hpi.symm _⟩
      unfold Sched.renice
      split
      · refine .of_unlinked ?_ ?_
        · rw [(enqueueReadyQueue_requeued _ i).unlinked, modify_of_ne _ _ _ _ hpi,
            (s.removeFromReadyQueue_requeued i).unlinked]
        · rw [enqueueReadyQueue_flag hpi, modify_of_ne _ _ _ _ hpi, removeFromReadyQueue_flag hpi]
      · exact .of_eq (by rw [modify_of_ne _ _ _ _ hpi])

theorem moves_steady {aim : Slot → Prop} (m : Moves aim s s') (h : Neat s)
    (hp : (s.processTable p).inReadyQueue = true) (ha : ¬ aim p) : Steady p s s' :=
  (m.invariant h (P := fun t => Steady p s t) (.refl p s) fun _ _ hn ht hm =>
    ht.trans (move_steady hm hn (ht.queued hp) ha)).2

/-- The place of a queued process. -/
theorem within_of_queued (h : Neat s) (hp : (s.processTable p).inReadyQueue = true) :
    s.Within p (s.queueOf p) ((s.readyList (s.queueOf p)).idxOf p) := by
  obtain ⟨L, hL⟩ := h.lists
  refine ⟨L, hL, hL.mem_of_queued hp, ?_⟩
  rw [readyList_eq hL]

theorem idxOf_le_of_within (h : s.Within p q n) : (s.readyList q).idxOf p ≤ n := by
  obtain ⟨L, hL, -, hn⟩ := h
  rw [readyList_eq hL]
  exact hn

/-- A queued process at the top is on the top queue. -/
theorem queueOf_top (h : Neat s) (hp : (s.processTable p).inReadyQueue = true)
    (h5 : ¬ (s.processTable p).effectivePriority < 5) : s.queueOf p = topQueue := by
  have hr := (h.tidy p).ranked (by rw [(h.tidy p).queued hp]; rintro ⟨⟩)
  have he : (s.processTable p).effectivePriority = 5 := by omega
  unfold queueOf topQueue
  rw [he]
  rfl

/-- **Nothing that is not aimed at a process raises its rank.** -/
theorem Steady.rank_le (hs : Steady p s s') (h : Neat s)
    (hp : (s.processTable p).inReadyQueue = true) : s'.rank p ≤ s.rank p := by
  unfold rank
  rw [hs.waits.effectivePriority, hs.waits.readyWaitTicks]
  split
  · exact le_refl _
  · rename_i h5
    have hw := within_of_queued h hp
    rw [queueOf_top h hp h5] at hw
    have hle := idxOf_le_of_within (hs.within _ _ hw)
    refine Prod.Lex.toLex_le_toLex.mpr (.inr ⟨rfl, ?_⟩)
    exact Int.ofNat_le.mpr hle

/-! ### The tick -/

/-- Ageing reads the queue flag and the fields outside the links. -/
theorem aged_congr {b c : PCB} (hu : c.unlinked = b.unlinked)
    (hin : c.inReadyQueue = b.inReadyQueue) : (aged c).unlinked = (aged b).unlinked := by
  obtain ⟨x, rfl⟩ : ∃ x, c = { b with readyNext := x } := by
    refine ⟨c.readyNext, ?_⟩
    calc c = { c.unlinked with readyNext := c.readyNext, inReadyQueue := c.inReadyQueue } := rfl
      _ = { b.unlinked with readyNext := c.readyNext, inReadyQueue := b.inReadyQueue } := by
        rw [hu, hin]
  unfold aged
  split
  · exact hu
  · split
    · rfl
    · rfl

/-- The ageing loop reaches each slot of its range once. -/
theorem foldl_ageProcess_unlinked (p : Slot) (l : List Slot) (s : Sched) (h : Neat s)
    (hnd : l.Nodup) :
    ((l.foldl ageProcess s).processTable p).unlinked =
        (if p ∈ l then aged (s.processTable p) else s.processTable p).unlinked ∧
      ((l.foldl ageProcess s).processTable p).inReadyQueue = (s.processTable p).inReadyQueue := by
  induction l generalizing s with
  | nil => exact ⟨rfl, rfl⟩
  | cons i l ih =>
      obtain ⟨hi, hnd⟩ := List.nodup_cons.mp hnd
      obtain ⟨hu, hin⟩ := ih (s.ageProcess i) (ageProcess_neat h i) hnd
      have hflag := ageProcess_flag h i p
      have hstep := s.ageProcess_unlinked i p
      rw [List.foldl_cons, hu, hin, hflag]
      refine ⟨?_, rfl⟩
      by_cases hpi : p = i
      · subst hpi
        rw [if_neg hi, if_pos List.mem_cons_self, hstep, if_pos rfl]
      · rw [if_neg hpi] at hstep
        simp only [List.mem_cons, hpi, false_or]
        split
        · exact aged_congr hstep hflag
        · exact hstep

theorem nodup_userSlots : userSlots.Nodup := nodup_allSlots.sublist (List.tail_sublist _)

/-- Every process is aged once. -/
theorem ageReadyProcesses_unlinked (h : Neat s) (p : Slot) :
    (s.ageReadyProcesses.processTable p).unlinked = (aged (s.processTable p)).unlinked ∧
      (s.ageReadyProcesses.processTable p).inReadyQueue = (s.processTable p).inReadyQueue := by
  obtain ⟨hu, hin⟩ := foldl_ageProcess_unlinked p userSlots s h nodup_userSlots
  unfold ageReadyProcesses
  refine ⟨?_, hin⟩
  by_cases hp : p = 0
  · -- the loop starts at slot 1, and idle is on no queue
    subst hp
    obtain ⟨L, hL⟩ := h.lists
    rw [if_neg fun hm => mem_userSlots.mp hm rfl] at hu
    rw [aged, if_pos (.inl (by rw [hL.idle]; rfl))]
    exact hu
  · rw [if_pos (mem_userSlots.mpr hp)] at hu
    exact hu

/-- Ageing lets nobody pass a process at the top. -/
theorem ageReadyProcesses_within (h : Neat s) (h5 : ¬ (s.processTable p).effectivePriority < 5)
    (hw : s.Within p q n) : s.ageReadyProcesses.Within p q n := by
  unfold ageReadyProcesses
  generalize userSlots = l
  induction l generalizing s with
  | nil => exact hw
  | cons i l ih =>
      have hstep := s.ageProcess_unlinked i p
      refine ih (ageProcess_neat h i) ?_ ?_
      · have heff : ((s.ageProcess i).processTable p).effectivePriority =
            (s.processTable p).effectivePriority := by
          rw [← apply_ite PCB.unlinked] at hstep
          rw [PCB.field_of_unlinked hstep PCB.effectivePriority fun _ => rfl]
          split
          · rename_i hpi
            subst hpi
            unfold aged
            split
            · rfl
            · rw [if_neg fun hc => h5 hc.2]
          · rfl
        rw [heff]
        exact h5
      · simp only [ageProcess]
        split
        · exact hw
        · have h1 : Within (s.modify i fun b => { b with readyWaitTicks := b.readyWaitTicks + 1 })
              p q n := by
            obtain ⟨L, hL, hmem, hn⟩ := hw
            exact ⟨L, hL.congr rfl (fun j => s.modify_field i j _ PCB.readyNext rfl)
              (fun j => s.modify_field i j _ PCB.inReadyQueue rfl) fun j _ =>
                s.modify_field i j _ (fun b => priorityQueueIndex b.effectivePriority) rfl, hmem, hn⟩
          split
          · rename_i hc
            have hip : i ≠ p := by
              rintro rfl
              exact h5 hc.2
            have hord : Ordered (fun _ => False) (fun _ => True)
                (s.modify i fun b => { b with readyWaitTicks := b.readyWaitTicks + 1 }) :=
              h.ordered.modify_kept (fun _ => rfl) (fun _ => rfl) (fun _ => rfl) fun _ => rfl
            have hoff := (hord.remove i).2
            exact ((h1.remove hip).modify_off hoff hoff).enqueue i
          · exact h1

/-- The top queue is looked at first. -/
theorem first_priority {L : Fin priorityLevels → List Slot} {pr : Int}
    (hsplit : ∃ before after, prioritiesDown = before ++ pr :: after ∧
      ∀ pr' ∈ before, L (priorityQueueIndex pr') = []) (hne : L topQueue ≠ []) :
    pr = priorityMax := by
  obtain ⟨before, after, heq, hnil⟩ := hsplit
  cases before with
  | nil => exact (List.cons.inj heq).1.symm
  | cons pr' before =>
      refine absurd (hnil pr' List.mem_cons_self) ?_
      rw [← (List.cons.inj heq).1]
      exact hne

/-- Ageing lowers the rank below the top level; there the place in the queue must. -/
theorem rank_lt_of_aged {t : Sched} (h : Neat s) (hp : (s.processTable p).inReadyQueue = true)
    (heff : (t.processTable p).effectivePriority = (aged (s.processTable p)).effectivePriority)
    (hticks : (t.processTable p).readyWaitTicks = (aged (s.processTable p)).readyWaitTicks)
    (htop : ¬ (s.processTable p).effectivePriority < 5 →
      (t.readyList topQueue).idxOf p < (s.readyList topQueue).idxOf p) : t.rank p < s.rank p := by
  have htidy := h.tidy p
  unfold rank
  rw [heff, hticks]
  rcases aged_queued htidy hp with ⟨-, h5, he, ht⟩ | ⟨-, he, ht⟩
  · -- promoted, perhaps to the top level
    rw [he, ht, if_pos h5]
    split
    · exact Prod.Lex.toLex_lt_toLex.mpr (.inl (by omega))
    · exact Prod.Lex.toLex_lt_toLex.mpr (.inl (by omega))
  · rw [he, ht]
    by_cases h5 : (s.processTable p).effectivePriority < 5
    · rw [if_pos h5, if_pos h5]
      exact Prod.Lex.toLex_lt_toLex.mpr (.inr ⟨rfl, by omega⟩)
    · rw [if_neg h5, if_neg h5]
      exact Prod.Lex.toLex_lt_toLex.mpr (.inr ⟨rfl, Int.ofNat_lt.mpr (htop h5)⟩)

/-- **A tick dispatches a queued process or lowers its rank.** -/
theorem dispatch_rank (h : Neat s) (hp : (s.processTable p).inReadyQueue = true)
    (hne : s.dispatch.1.currentIdx ≠ p) :
    (s.dispatch.1.processTable p).state = .ready ∧ s.dispatch.1.rank p < s.rank p := by
  have hage := ageReadyProcesses_neat h
  obtain ⟨hu, hin⟩ := ageReadyProcesses_unlinked h p
  have hwithin : ∀ q n, ¬ (s.processTable p).effectivePriority < 5 → s.Within p q n →
      s.ageReadyProcesses.Within p q n := fun q n h5 hw => ageReadyProcesses_within h h5 hw
  rw [dispatch_currentIdx] at hne
  unfold dispatch
  unfold dequeueNextReady at hne ⊢
  generalize s.ageReadyProcesses = t at hage hu hin hwithin hne ⊢
  obtain ⟨L, hL⟩ := hage.lists
  have hpt : (t.processTable p).inReadyQueue = true := hin.trans hp
  obtain ⟨-, hoff⟩ := dequeueFrom_neat hage prioritiesDown
  rcases dequeueFrom_spec hL prioritiesDown with ⟨hnil, -⟩ | ⟨pr, i, l, hsplit, hq, hi, hL', hj⟩
  · -- the process is on one of the queues
    obtain ⟨pr, hpr, hidx⟩ := exists_priority (t.queueOf p)
    have hmem := hL.mem_of_queued hpt
    rw [← hidx, hnil pr hpr] at hmem
    exact absurd hmem List.not_mem_nil
  · rw [hi] at hne hoff
    have hpi : p ≠ i := fun e => hne e.symm
    generalize t.dequeueFrom prioritiesDown = r at hi hL' hj hoff ⊢
    subst hi
    have hup := (hj p).2
    rw [if_neg hpi, hu] at hup
    -- the dispatched process is another one
    have hpf : ((r.1.modify r.2 started).processTable p) = r.1.processTable p :=
      modify_of_ne _ _ _ _ hpi
    have hfin : Queues { r.1.modify r.2 started with currentIdx := r.2, needResched := false }
        (Function.update L (priorityQueueIndex pr) l) :=
      (hL'.modify_off hoff hoff).congr rfl (fun _ => rfl) (fun _ => rfl) fun _ _ => rfl
    rw [← hpf] at hup
    refine ⟨?_, rank_lt_of_aged h hp ?_ ?_ fun h5 => ?_⟩
    · refine (PCB.field_of_unlinked hup PCB.state fun _ => rfl).trans ?_
      exact (aged_field PCB.state (fun _ _ _ => rfl) _).trans ((h.tidy p).queued hp)
    · exact PCB.field_of_unlinked hup PCB.effectivePriority fun _ => rfl
    · exact PCB.field_of_unlinked hup PCB.readyWaitTicks fun _ => rfl
    · -- the head of the top queue has left
      have hw := within_of_queued h hp
      rw [queueOf_top h hp h5] at hw
      obtain ⟨L₁, hL₁, hmem, hn⟩ := hwithin _ _ h5 hw
      have hLL : L₁ topQueue = L topQueue := by
        rw [← readyList_eq hL₁, readyList_eq hL]
      rw [hLL] at hmem hn
      obtain rfl := first_priority hsplit (List.ne_nil_of_mem hmem)
      have hq' : L topQueue = r.2 :: l := hq
      rw [hq', List.idxOf_cons_ne _ hpi.symm] at hn
      have hup' : Function.update L (priorityQueueIndex priorityMax) l topQueue = l :=
        Function.update_self _ _ _
      rw [readyList_eq hfin, hup']
      exact hn

theorem schedulerTick_rank (h : Neat s) (hp : (s.processTable p).inReadyQueue = true) (rsp : Nat) :
    (s.schedulerTick rsp).1.currentIdx = p ∨
      ((s.schedulerTick rsp).1.processTable p).state = .ready ∧
        (s.schedulerTick rsp).1.rank p < s.rank p := by
  have hmoves := tickEntry_moves h rsp
  have hsteady := moves_steady hmoves h hp id
  rw [schedulerTick_eq (h.tidy _).quantum]
  by_cases hne : (s.tickEntry rsp).dispatch.1.currentIdx = p
  · exact .inl hne
  · obtain ⟨hst, hlt⟩ := dispatch_rank (hmoves.neat h) (hsteady.queued hp) hne
    exact .inr ⟨hst, hlt.trans_le (hsteady.rank_le h hp)⟩

/-! ### How many ticks a rank stands for -/

/-- The ranks that occur. -/
def Bounded (r : ℤ ×ₗ ℤ) : Prop :=
  (ofLex r).1 = 0 ∧ 0 ≤ (ofLex r).2 ∧ (ofLex r).2 ≤ 63 ∨
    1 ≤ (ofLex r).1 ∧ (ofLex r).1 ≤ 4 ∧ 1 ≤ (ofLex r).2 ∧ (ofLex r).2 ≤ 6

/-- The ticks a process of this rank can be passed over: six on each level
below the top, then everybody before it there. -/
def patience (r : ℤ ×ₗ ℤ) : ℤ :=
  if (ofLex r).1 = 0 then (ofLex r).2 else 57 + 6 * (ofLex r).1 + (ofLex r).2

theorem patience_bounds {r : ℤ ×ₗ ℤ} (h : Bounded r) : 0 ≤ patience r ∧ patience r ≤ 87 := by
  unfold Bounded at h
  unfold patience
  split <;> omega

theorem patience_lt {r r' : ℤ ×ₗ ℤ} (h : Bounded r) (h' : Bounded r') (hlt : r' < r) :
    patience r' < patience r := by
  have hlt := Prod.Lex.lt_iff.mp hlt
  unfold Bounded at h h'
  unfold patience
  split <;> split <;> omega

theorem rank_bounded (h : Neat s) (hp : (s.processTable p).inReadyQueue = true) :
    Bounded (s.rank p) := by
  have ht := h.tidy p
  have hr := ht.ranked (by rw [ht.queued hp]; rintro ⟨⟩)
  have hticks := ht.ticks
  unfold rank
  split
  · rename_i h5
    have := hticks.2 h5
    exact .inr (by simp only [ofLex_toLex]; omega)
  · rename_i h5
    obtain ⟨L, hL⟩ := h.lists
    have hmem := hL.mem_of_queued hp
    rw [queueOf_top h hp h5] at hmem
    have hlt := (List.idxOf_lt_length_of_mem hmem).trans_le (hL.length_le topQueue)
    rw [readyList_eq hL]
    have h64 : (L topQueue).idxOf p < 64 := hlt
    exact .inl ⟨rfl, Int.natCast_nonneg _, by simp only [ofLex_toLex]; omega⟩

end Sched

namespace Kernel

open Sched

variable {k k' : Kernel} {p : Slot}

theorem OnCpu.queued (h : OnCpu k) (hp : p ≠ 0) (hr : (k.proc p).state = .ready) :
    (k.proc p).inReadyQueue = true :=
  h.sound.ordered.covered p hp id hr

/-- A piece of kernel code that is not aimed at a ready process. -/
theorem OnCpu.exec_rank (h : OnCpu k) (hp : p ≠ 0) (hr : (k.proc p).state = .ready) {op : Op}
    (htick : ∀ rsp, op ≠ .tick rsp)
    (hwait : ∀ pid, op = .wait pid → (k.proc k.sched.currentIdx).state = .running)
    (ha : ¬ k.Aims op p) :
    ((k.exec op).proc p).state = .ready ∧ (k.exec op).sched.rank p ≤ k.sched.rank p := by
  have hin := h.queued hp hr
  have hsteady := moves_steady (exec_moves h.neat h.sound.pids.current htick hwait) h.neat hin ha
  exact ⟨hsteady.waits.state.trans hr, hsteady.rank_le h.neat hin⟩

/-- A timer tick. -/
theorem OnCpu.tick_rank (h : OnCpu k) (hp : p ≠ 0) (hr : (k.proc p).state = .ready) (rsp : Nat) :
    (k.exec (.tick rsp)).sched.currentIdx = p ∨
      ((k.exec (.tick rsp)).proc p).state = .ready ∧
        (k.exec (.tick rsp)).sched.rank p < k.sched.rank p :=
  schedulerTick_rank h.neat (h.queued hp hr) rsp

/-- The code of the step is aimed at the process. -/
def AimedAt (k : Kernel) (p : Slot) : CpuLabel → Prop
  | .call op _ => k.Aims op p
  | .timer _ => False
  | .keyboard => k.Aims .killForeground p

/-- A run with `n` ticks, none of which dispatches the process, and without
anything aimed at it. -/
inductive PassedOver (p : Slot) (k : Kernel) : Nat → Kernel → Prop
  | start : PassedOver p k 0 k
  | quiet {n : Nat} {k₁ k₂ : Kernel} {l : CpuLabel} (h : PassedOver p k n k₁)
      (hg : cpuMachine.guard k₁ l) (hs : cpuMachine.step k₁ l = some k₂)
      (ha : ¬ k₁.AimedAt p l) (ht : k₁.tickOf l = none) : PassedOver p k n k₂
  | tick {n : Nat} {k₁ k₂ k₃ : Kernel} {l : CpuLabel} {rsp : Nat} (h : PassedOver p k n k₁)
      (hg : cpuMachine.guard k₁ l) (hs : cpuMachine.step k₁ l = some k₃)
      (ha : ¬ k₁.AimedAt p l) (ht : k₁.tickOf l = some (k₂, rsp))
      (hne : k₃.sched.currentIdx ≠ p) : PassedOver p k (n + 1) k₃

/-- The code that runs before the tick of a step, or instead of it. -/
theorem OnCpu.step_rank (h : OnCpu k) (hp : p ≠ 0) (hr : (k.proc p).state = .ready) {l : CpuLabel}
    (hg : cpuMachine.guard k l) (hs : cpuMachine.step k l = some k') (ha : ¬ k.AimedAt p l) :
    (k.tickOf l = none → (k'.proc p).state = .ready ∧ k'.sched.rank p ≤ k.sched.rank p) ∧
    ∀ k₁ rsp, k.tickOf l = some (k₁, rsp) → k'.sched.currentIdx ≠ p →
      (k'.proc p).state = .ready ∧ k'.sched.rank p < k.sched.rank p := by
  cases l with
  | call op r =>
      obtain ⟨hst, hle⟩ := h.exec_rank hp hr (IsCall.not_tick hg.1) (fun _ _ => hg.2) ha
      have hop := h.exec (IsCall.not_tick hg.1) fun _ _ => hg.2
      simp only [cpuMachine] at hs
      simp only [tickOf]
      split at hs
      · rename_i hresched
        obtain rfl := Option.some.inj hs
        refine ⟨fun ht => ?_, fun _ _ _ hne => ?_⟩
        · rw [if_pos hresched] at ht
          cases ht
        · obtain ⟨hst', hlt⟩ := (hop.tick_rank hp hst r).resolve_left hne
          exact ⟨hst', hlt.trans_le hle⟩
      · rename_i hresched
        obtain rfl := Option.some.inj hs
        refine ⟨fun _ => ⟨hst, hle⟩, fun _ _ ht => ?_⟩
        rw [if_neg hresched] at ht
        cases ht
  | timer r =>
      obtain rfl := Option.some.inj hs
      refine ⟨fun ht => ?_, fun _ _ _ hne => (h.tick_rank hp hr r).resolve_left hne⟩
      cases ht
  | keyboard =>
      obtain rfl := Option.some.inj hs
      refine ⟨fun _ => h.exec_rank hp hr (fun _ => by rintro ⟨⟩) (fun _ e => by cases e) ha,
        fun _ _ ht => ?_⟩
      cases ht

/-- Every tick of such a run uses up some patience. -/
theorem PassedOver.patience_le {n : Nat} (h : PassedOver p k n k') (hk : OnCpu k) (hp : p ≠ 0)
    (hr : (k.proc p).state = .ready) :
    OnCpu k' ∧ (k'.proc p).state = .ready ∧
      n + patience (k'.sched.rank p) ≤ patience (k.sched.rank p) := by
  induction h with
  | start => exact ⟨hk, hr, by simp⟩
  | quiet h hg hs ha ht ih =>
      obtain ⟨h1, hr1, hle⟩ := ih
      have h2 := h1.step hg hs
      obtain ⟨hr2, hle2⟩ := (h1.step_rank hp hr1 hg hs ha).1 ht
      refine ⟨h2, hr2, ?_⟩
      rcases hle2.lt_or_eq with hlt | heq
      · have := patience_lt (rank_bounded h1.neat (h1.queued hp hr1))
          (rank_bounded h2.neat (h2.queued hp hr2)) hlt
        omega
      · rw [heq]
        exact hle
  | tick h hg hs ha ht hne ih =>
      obtain ⟨h1, hr1, hle⟩ := ih
      have h2 := h1.step hg hs
      obtain ⟨hr2, hlt⟩ := (h1.step_rank hp hr1 hg hs ha).2 _ _ ht hne
      refine ⟨h2, hr2, ?_⟩
      have := patience_lt (rank_bounded h1.neat (h1.queued hp hr1))
        (rank_bounded h2.neat (h2.queued hp hr2)) hlt
      push_cast
      omega

/-- **Aging makes progress**: in every state of a run, a queued process below
the top has waited less than six ticks; and for every ready process, a
`scheduler_tick` dispatches it or lowers its rank, no piece of kernel code that
is not aimed at it raises the rank, a step with a tick, the timer's or the one after a
call, dispatches it or lowers the rank, and it is passed over at most 87 times. -/
theorem aging_progress {idleStack : Nat} (h : cpuMachine.Reach (init idleStack) k) :
    (∀ i, (k.proc i).inReadyQueue = true → (k.proc i).effectivePriority < 5 →
      (k.proc i).readyWaitTicks < 6) ∧
    ∀ p, p ≠ 0 → (k.proc p).state = .ready →
      (∀ rsp, (k.exec (.tick rsp)).sched.currentIdx = p ∨
        ((k.exec (.tick rsp)).proc p).state = .ready ∧
          (k.exec (.tick rsp)).sched.rank p < k.sched.rank p) ∧
      (∀ op, (∀ rsp, op ≠ .tick rsp) →
        (∀ pid, op = .wait pid → (k.proc k.sched.currentIdx).state = .running) →
        ¬ k.Aims op p →
        ((k.exec op).proc p).state = .ready ∧ (k.exec op).sched.rank p ≤ k.sched.rank p) ∧
      (∀ l k₁ k' rsp, cpuMachine.guard k l → cpuMachine.step k l = some k' → ¬ k.AimedAt p l →
        k.tickOf l = some (k₁, rsp) → k'.sched.currentIdx = p ∨
          (k'.proc p).state = .ready ∧ k'.sched.rank p < k.sched.rank p) ∧
      ∀ n k', PassedOver p k n k' → n ≤ 87 := by
  have hk := cpuMachine_onCpu h
  refine ⟨fun i _ h5 => (hk.neat.tidy i).ticks.2 h5, fun p hp hr =>
    ⟨hk.tick_rank hp hr, fun op htick hwait ha => hk.exec_rank hp hr htick hwait ha,
      fun l k₁ k' rsp hg hs ha ht => ?_, fun n k' hrun => ?_⟩⟩
  · exact or_iff_not_imp_left.mpr ((hk.step_rank hp hr hg hs ha).2 k₁ rsp ht)
  obtain ⟨hk', hr', hle⟩ := hrun.patience_le hk hp hr
  have h0 := (patience_bounds (rank_bounded hk'.neat (hk'.queued hp hr'))).1
  have h87 := (patience_bounds (rank_bounded hk.neat (hk.queued hp hr))).2
  omega

/-- A child of low priority is passed over by the tick that dispatches the
shell again, but not more than 87 times. -/
theorem aging_progress_child : ∃ k : Kernel,
    cpuMachine.Reach (init 1000) k ∧ (k.proc 2).state = .ready ∧
      (k.proc 2).effectivePriority = 1 ∧ PassedOver 2 k 1 (k.exec (.tick 0)) ∧
      ∀ n k', PassedOver 2 k n k' → n ≤ 87 := by
  obtain ⟨k, hk, h2, he, hne⟩ := cpuMachine.exists_reach_of_trace (s := init 1000)
    [.call (.create [115] 5 1 5000) 0, .call (.create [99] 1 0 9000) 0]
    (P := fun k => (k.proc 2).state = .ready ∧ (k.proc 2).effectivePriority = 1 ∧
      (k.exec (.tick 0)).sched.currentIdx ≠ 2) (by decide +kernel)
  exact ⟨k, hk, h2, he, .tick .start (l := .timer 0) trivial rfl id rfl hne,
    ((aging_progress hk).2 2 (by decide) h2).2.2.2⟩

end Kernel

end TP2Kernel
