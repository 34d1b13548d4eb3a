/-
TP2Kernel/RoundRobin.lean

In which order processes of one base priority are dispatched.  A roll, kept
beside the kernel, lists the ready processes in the order in which they became
ready, with the number of ageing passes made by then.

The queues alone do not keep that order: `age_ready_processes` visits the slots
by index, so two processes that are due in the same pass change places when the
later one has the lower slot (`later_one_first`).  They are due in the same pass
exactly when they became ready between the same two passes.  In all other cases,
and for processes that cannot be promoted, the order is kept: `Ahead` is the
invariant, a lexicographic comparison of level, place and wait count, and the
three parts of a tick (put back, age, dispatch) each preserve it.
-/
import TP2Kernel.TickDecision

namespace TP2Kernel

/-- The effective priority of a queued process is one of the five. -/
theorem Neat.effective_range {s : Sched} (h : Neat s) {j : Slot}
    (hj : (s.processTable j).inReadyQueue = true) :
    1 ≤ (s.processTable j).effectivePriority ∧ (s.processTable j).effectivePriority ≤ 5 := by
  refine ((h.tidy j).ranked ?_).2
  rw [(h.tidy j).queued hj]
  rintro ⟨⟩

namespace Sched

variable {s s' : Sched} {p q i : Slot}

/-! ### The order on one level -/

theorem pair_sublist_erase {l : List Slot} (hp : p ≠ i) (hq : q ≠ i) (h : [p, q].Sublist l) :
    [p, q].Sublist (l.erase i) := by
  have he := h.erase i
  rwa [List.erase_of_not_mem] at he
  intro hm
  rcases List.mem_cons.mp hm with e | hm
  · exact hp e.symm
  · exact hq (List.mem_singleton.mp hm).symm

/-- Two elements of the middle part of a list. -/
theorem pair_sublist_middle {xs l ys : List Slot} (hp : p ∉ xs) (hq : q ∉ ys)
    (h : [p, q].Sublist (xs ++ (l ++ ys))) : [p, q].Sublist l := by
  obtain ⟨a, b, hab, ha, hb⟩ := List.sublist_append_iff.mp h
  rcases a with - | ⟨x, a⟩
  · obtain rfl : [p, q] = b := hab
    obtain ⟨c, d, hcd, hc, hd⟩ := List.sublist_append_iff.mp hb
    rcases List.eq_nil_or_concat' d with rfl | ⟨d, y, rfl⟩
    · rw [List.append_nil] at hcd
      rw [hcd]
      exact hc
    · have hy : [p, q].getLast? = some y := by
        rw [hcd, ← List.append_assoc, List.getLast?_concat]
      obtain rfl : q = y := Option.some.inj hy
      exact absurd (hd.subset (List.mem_append_right _ List.mem_cons_self)) hq
  · obtain ⟨rfl, -⟩ := List.cons.inj hab
    exact absurd (ha.subset List.mem_cons_self) hp

/-- Wherever the two share a level, `p` is before `q`. -/
def Precedes (s : Sched) (p q : Slot) : Prop :=
  ∃ L, Queues s L ∧ ∀ l, p ∈ L l → q ∈ L l → [p, q].Sublist (L l)

namespace Precedes

theorem lists (h : s.Precedes p q) {L : Levels} (hL : Queues s L) {l : Fin priorityLevels}
    (hp : p ∈ L l) (hq : q ∈ L l) : [p, q].Sublist (L l) := by
  obtain ⟨M, hM, hlist⟩ := h
  have hML : M = L := funext fun l => (readyList_eq hM l).symm.trans (readyList_eq hL l)
  subst hML
  exact hlist l hp hq

theorem of_tables (h : s.Precedes p q) (hT : s'.processTable = s.processTable)
    (hQ : s'.readyQueues = s.readyQueues) : s'.Precedes p q := by
  obtain ⟨L, hL, hlist⟩ := h
  refine ⟨L, hL.congr hQ (fun _ => by rw [hT]) (fun _ => by rw [hT]) fun _ _ => ?_, hlist⟩
  unfold queueOf
  rw [hT]

theorem adjust (h : s.Precedes p q) {f : PCB → PCB}
    (hf : Mild (s.processTable i) (f (s.processTable i))) : (s.modify i f).Precedes p q := by
  obtain ⟨L, hL, hlist⟩ := h
  exact ⟨L, hL.congr rfl (fun j => s.modify_field i j f PCB.readyNext hf.readyNext)
    (fun j => s.modify_field i j f PCB.inReadyQueue hf.inReadyQueue)
    fun j _ => congrArg priorityQueueIndex
      (s.modify_field i j f PCB.effectivePriority hf.effectivePriority), hlist⟩

theorem modify_off (h : s.Precedes p q) (hoff : (s.processTable i).inReadyQueue = false)
    {f : PCB → PCB} (hf : (f (s.processTable i)).inReadyQueue = false) :
    (s.modify i f).Precedes p q := by
  obtain ⟨L, hL, hlist⟩ := h
  exact ⟨L, hL.modify_off hoff hf, hlist⟩

/-- Whoever joins a level joins behind `p`. -/
theorem enqueue (h : s.Precedes p q) (hi : i ≠ p) :
    (s.enqueueReadyQueue i).Precedes p q := by
  obtain ⟨L, hL, hlist⟩ := h
  by_cases hc : i = 0 ∨ (s.processTable i).inReadyQueue = true
  · rw [enqueueReadyQueue, if_pos hc]
    exact ⟨L, hL, hlist⟩
  · obtain ⟨h0, hoff⟩ := not_or.mp hc
    refine ⟨_, hL.enqueue h0 (by simpa using hoff), fun l => ?_⟩
    by_cases hl : l = s.queueOf i
    · subst hl
      rw [Function.update_self]
      intro hp hq
      have hp' := (List.mem_append.mp hp).resolve_right fun hm => hi (List.mem_singleton.mp hm).symm
      rcases List.mem_append.mp hq with hq | hq
      · exact (hlist _ hp' hq).trans (List.sublist_append_left _ _)
      · rw [List.mem_singleton.mp hq]
        exact (List.singleton_sublist.mpr hp').append (List.Sublist.refl [i])
    · rw [Function.update_of_ne hl]
      exact hlist l

theorem remove (h : s.Precedes p q) (i : Slot) : (s.removeFromReadyQueue i).Precedes p q := by
  obtain ⟨L, hL, hlist⟩ := h
  refine ⟨_, hL.remove_list i, fun l => ?_⟩
  by_cases hl : l = s.queueOf i
  · subst hl
    rw [Function.update_self]
    have hnd : (L (s.queueOf i)).Nodup := (hL.queue _).nodup
    intro hp hq
    obtain ⟨hpi, hp⟩ := hnd.mem_erase_iff.mp hp
    obtain ⟨hqi, hq⟩ := hnd.mem_erase_iff.mp hq
    exact pair_sublist_erase hpi hqi (hlist _ hp hq)
  · rw [Function.update_of_ne hl]
    exact hlist l

theorem makeReady (h : s.Precedes p q) (hi : i ≠ p)
    (hoff : (s.processTable i).inReadyQueue = false) : (s.makeReady i true).Precedes p q := by
  by_cases hc : s.CanReady i
  · rw [s.makeReady_eq hc, readyPrep, removeFromReadyQueue_of_not hoff]
    refine of_tables ?_ (preempt_processTable _ _) (preempt_readyQueues _ _)
    refine enqueue (modify_off (modify_off h hoff hoff) ?_ ?_) hi
    · rw [modify_self]
      exact hoff
    · rw [modify_self]
      exact hoff
  · rw [s.makeReady_of_not hc]
    exact h

theorem renice (h : s.Precedes p q) (hneat : Neat s) (hi : i ≠ p) (pr : Int) :
    (s.renice i pr).Precedes p q := by
  unfold Sched.renice
  split
  · have hoff := removeFromReadyQueue_off hneat i
    exact ((h.remove i).modify_off hoff hoff).enqueue hi
  · rename_i hq
    have hoff : (s.processTable i).inReadyQueue = false := by simpa using hq
    exact h.modify_off hoff hoff

end Precedes

/-- Two processes on different levels. -/
theorem precedes_of_ne (h : Neat s) (hpq : s.queueOf p ≠ s.queueOf q) : s.Precedes p q := by
  obtain ⟨L, hL⟩ := h.lists
  refine ⟨L, hL, fun l hp hq => absurd ?_ hpq⟩
  rw [((hL.mem_iff p l).mp hp).2, ((hL.mem_iff q l).mp hq).2]

/-- **Nothing that is not aimed at `p` lets `q` pass it.** -/
theorem moves_precedes {aim : Slot → Prop} (m : Moves aim s s') (h : Neat s)
    (hp : (s.processTable p).inReadyQueue = true) (ha : ¬ aim p) (hs : s.Precedes p q) :
    s'.Precedes p q := by
  refine (m.invariant h (P := fun t => (t.processTable p).inReadyQueue = true ∧ t.Precedes p q)
    ⟨hp, hs⟩ fun t t' hn ht hm => ⟨(move_steady hm hn ht.1 ha).queued ht.1, ?_⟩).2.2
  obtain ⟨hp, hs⟩ := ht
  have hother : ∀ {i : Slot}, aim i → i ≠ p := by
    rintro i hi rfl
    exact ha hi
  cases hm with
  | tables hT hQ => exact hs.of_tables hT hQ
  | adjust i hf => exact hs.adjust hf
  | ready i hoff => exact hs.makeReady (ne_of_off hp hoff) hoff
  | set i hoff hf _ => exact hs.modify_off hoff hf
  | unqueue i hi => exact hs.remove i
  | renice i _ hi => exact hs.renice hn (hother hi) _

/-- A queued process that nothing is aimed at keeps its base priority. -/
theorem moves_priority {aim : Slot → Prop} (m : Moves aim s s') (h : Neat s)
    (hp : (s.processTable p).inReadyQueue = true) (ha : ¬ aim p) :
    (s'.processTable p).priority = (s.processTable p).priority := by
  refine (m.invariant h (P := fun t => (t.processTable p).inReadyQueue = true ∧
    (t.processTable p).priority = (s.processTable p).priority)
    ⟨hp, rfl⟩ fun t t' hn ht hm => ⟨(move_steady hm hn ht.1 ha).queued ht.1, ?_⟩).2.2
  obtain ⟨hp, hs⟩ := ht
  refine Eq.trans ?_ hs
  have hother : ∀ {i : Slot}, aim i → p ≠ i := by
    rintro i hi rfl
    exact ha hi
  cases hm with
  | tables hT hQ => rw [hT]
  | adjust i hf => exact t.modify_field i p _ PCB.priority hf.priority
  | ready i hoff =>
      by_cases hc : t.CanReady i
      · have hu := t.makeReady_unlinked hc p
        rw [if_neg (ne_of_off hp hoff).symm] at hu
        exact PCB.field_of_unlinked hu PCB.priority fun _ => rfl
      · rw [t.makeReady_of_not hc]
  | set i hoff hf _ => rw [modify_of_ne _ _ _ _ (ne_of_off hp hoff).symm]
  | unqueue i hi => exact (t.removeFromReadyQueue_requeued i).field p PCB.priority fun _ => rfl
  | renice i _ hi =>
      unfold Sched.renice
      split
      · rw [(enqueueReadyQueue_requeued _ i).field p PCB.priority fun _ => rfl,
          modify_of_ne _ _ _ _ (hother hi)]
        exact (t.removeFromReadyQueue_requeued i).field p PCB.priority fun _ => rfl
      · rw [modify_of_ne _ _ _ _ (hother hi)]

/-- A process that is queued starts at its base priority with nothing waited. -/
def Starts (p : PCB) : Prop :=
  p.inReadyQueue = true → p.effectivePriority = p.priority ∧ p.readyWaitTicks = 0

theorem Starts.of_unlinked {b c : PCB} (h : Starts b) (hu : c.unlinked = b.unlinked)
    (hin : c.inReadyQueue = b.inReadyQueue) : Starts c := by
  intro hq
  rw [PCB.field_of_unlinked hu PCB.effectivePriority fun _ => rfl,
    PCB.field_of_unlinked hu PCB.priority fun _ => rfl,
    PCB.field_of_unlinked hu PCB.readyWaitTicks fun _ => rfl]
  exact h (hin ▸ hq)

theorem starts_of_base {b c : PCB} (hu : c.unlinked = b.unlinked)
    (hb : b.effectivePriority = b.priority ∧ b.readyWaitTicks = 0) : Starts c := by
  intro _
  rw [PCB.field_of_unlinked hu PCB.effectivePriority fun _ => rfl,
    PCB.field_of_unlinked hu PCB.priority fun _ => rfl,
    PCB.field_of_unlinked hu PCB.readyWaitTicks fun _ => rfl]
  exact hb

/-- **Who becomes ready joins its own level and has waited for nothing.** -/
theorem moves_starts {aim : Slot → Prop} (m : Moves aim s s') (h : Neat s)
    (hq : Starts (s.processTable q)) : Starts (s'.processTable q) := by
  refine (m.invariant h (P := fun t => Starts (t.processTable q)) hq fun t t' hn ht hm => ?_).2
  cases hm with
  | tables hT hQ =>
      rw [hT]
      exact ht
  | adjust i hf =>
      intro hin
      rw [t.modify_field i q _ PCB.inReadyQueue hf.inReadyQueue] at hin
      rw [t.modify_field i q _ PCB.effectivePriority hf.effectivePriority,
        t.modify_field i q _ PCB.priority hf.priority,
        t.modify_field i q _ PCB.readyWaitTicks hf.readyWaitTicks]
      exact ht hin
  | ready i hoff =>
      by_cases hc : t.CanReady i
      · have hu := t.makeReady_unlinked hc q
        by_cases hqi : q = i
        · rw [if_pos hqi] at hu
          exact starts_of_base hu ⟨rfl, rfl⟩
        · rw [if_neg hqi] at hu
          exact ht.of_unlinked hu (t.makeReady_flag hqi true)
      · rw [t.makeReady_of_not hc]
        exact ht
  | set i hoff hf _ =>
      by_cases hqi : q = i
      · subst hqi
        rw [modify_self]
        intro hin
        cases hf.symm.trans hin
      · rw [modify_of_ne _ _ _ _ hqi]
        exact ht
  | unqueue i hi =>
      by_cases hqi : q = i
      · subst hqi
        intro hin
        cases (removeFromReadyQueue_off hn q).symm.trans hin
      · exact ht.of_unlinked ((t.removeFromReadyQueue_requeued i).unlinked q)
          (removeFromReadyQueue_flag hqi)
  | renice i _ hi =>
      by_cases hqi : q = i
      · subst hqi
        unfold Sched.renice
        split
        · refine starts_of_base ((enqueueReadyQueue_requeued _ q).unlinked q) ?_
          rw [modify_self]
          exact ⟨rfl, rfl⟩
        · rw [modify_self]
          exact fun _ => ⟨rfl, rfl⟩
      · unfold Sched.renice
        split
        · refine ht.of_unlinked ?_ ?_
          · rw [(enqueueReadyQueue_requeued _ i).unlinked, modify_of_ne _ _ _ _ hqi,
              (t.removeFromReadyQueue_requeued i).unlinked]
          · rw [enqueueReadyQueue_flag hqi, modify_of_ne _ _ _ _ hqi, removeFromReadyQueue_flag hqi]
        · rw [modify_of_ne _ _ _ _ hqi]
          exact ht

/-! ### The order under the ageing pass -/

/-- A turn of the ageing loop keeps the order, unless it moves `p` to the level
where `q` already is. -/
theorem ageProcess_precedes (hs : s.Precedes p q)
    (hi : i = p → Due (s.processTable p) → (s.processTable q).inReadyQueue = true →
      s.queueOf q ≠ priorityQueueIndex ((s.processTable p).effectivePriority + 1)) (hpq : p ≠ q) :
    (s.ageProcess i).Precedes p q := by
  obtain ⟨L, hL, hlist⟩ := hs
  refine ⟨_, ageProcess_queues hL i, fun l => ?_⟩
  unfold promote
  split
  · rename_i hdue
    show p ∈ (L l).erase i ++ _ → q ∈ (L l).erase i ++ _ → [p, q].Sublist ((L l).erase i ++ _)
    have hnd : (L l).Nodup := (hL.queue l).nodup
    generalize hlevel : priorityQueueIndex ((s.processTable i).effectivePriority + 1) = l'
    have hstay : ∀ {x : Slot}, x ≠ i → x ∈ (L l).erase i ++ (if l = l' then [i] else []) →
        x ∈ (L l).erase i := by
      intro x hx hm
      refine (List.mem_append.mp hm).resolve_right fun hm => ?_
      split at hm
      · exact hx (List.mem_singleton.mp hm)
      · cases hm
    intro hp hq
    by_cases hip : i = p
    · subst hip
      -- `p` is at the tail of the next level, and `q` is not there
      have hl : l = l' := by
        by_contra hl
        rw [if_neg hl, List.append_nil] at hp
        exact absurd hp hnd.not_mem_erase
      obtain ⟨hqq, hql⟩ := (hL.mem_iff q l).mp (List.mem_of_mem_erase (hstay hpq.symm hq))
      exact absurd (hql.trans (hl.trans hlevel.symm)) (hi rfl hdue hqq)
    · have hp' := hstay (Ne.symm hip) hp
      by_cases hiq : i = q
      · subst hiq
        -- `q` goes to the tail
        refine (List.singleton_sublist.mpr hp').append (List.singleton_sublist.mpr ?_)
        exact (List.mem_append.mp hq).resolve_left hnd.not_mem_erase
      · have hq' := hstay (Ne.symm hiq) hq
        have hlist' := hlist l (List.mem_of_mem_erase hp') (List.mem_of_mem_erase hq')
        exact (pair_sublist_erase (Ne.symm hip) (Ne.symm hiq) hlist').trans
          (List.sublist_append_left _ _)
  · exact hlist l

theorem foldl_ageProcess_precedes (l : List Slot) (hl : p ∉ l) (hpq : p ≠ q) (s : Sched)
    (hs : s.Precedes p q) : (l.foldl ageProcess s).Precedes p q := by
  induction l generalizing s with
  | nil => exact hs
  | cons i l ih =>
      rw [List.mem_cons, not_or] at hl
      exact ih hl.2 _ (ageProcess_precedes hs (fun e => absurd e.symm hl.1) hpq)

/-- The slots are visited by index. -/
theorem userSlots_split (hp : p ≠ 0) : ∃ l₁ l₂, userSlots = l₁ ++ p :: l₂ ∧ (∀ i ∈ l₁, i < p) ∧
    p ∉ l₂ := by
  obtain ⟨l₁, l₂, hsplit⟩ := List.append_of_mem (mem_userSlots.mpr hp)
  have hsorted : userSlots.Pairwise (· < ·) :=
    (List.pairwise_lt_finRange maxProcesses).sublist (List.tail_sublist _)
  rw [hsplit, List.pairwise_append, List.pairwise_cons] at hsorted
  refine ⟨l₁, l₂, hsplit, fun i hi => hsorted.2.2 i hi p List.mem_cons_self, fun hm => ?_⟩
  exact lt_irrefl p (hsorted.2.1.1 p hm)

theorem ageReadyProcesses_precedes (h : Neat s) (hpq : p ≠ q) (hp0 : p ≠ 0) (hs : s.Precedes p q)
    (hlater : Due (s.processTable p) →
      s.queueOf q ≠ priorityQueueIndex ((s.processTable p).effectivePriority + 1))
    (hearlier : Due (s.processTable p) → q < p →
      priorityQueueIndex (aged (s.processTable q)).effectivePriority ≠
        priorityQueueIndex ((s.processTable p).effectivePriority + 1)) :
    s.ageReadyProcesses.Precedes p q := by
  obtain ⟨l₁, l₂, hsplit, hlt, hp₂⟩ := userSlots_split hp0
  have hp₁ : p ∉ l₁ := fun hm => lt_irrefl p (hlt p hm)
  have hnd₁ : l₁.Nodup := by
    have hnd := nodup_userSlots
    rw [hsplit] at hnd
    exact (List.nodup_append.mp hnd).1
  unfold ageReadyProcesses
  rw [hsplit, List.foldl_append, List.foldl_cons]
  refine foldl_ageProcess_precedes l₂ hp₂ hpq _ ?_
  refine ageProcess_precedes (foldl_ageProcess_precedes l₁ hp₁ hpq s hs) (fun _ => ?_) hpq
  -- at `p`'s turn `q` has been aged if its slot is lower
  obtain ⟨hup, hinp⟩ := foldl_ageProcess_unlinked p l₁ s h hnd₁
  obtain ⟨huq, -⟩ := foldl_ageProcess_unlinked q l₁ s h hnd₁
  rw [if_neg hp₁] at hup
  rw [due_congr hup hinp, PCB.field_of_unlinked hup PCB.effectivePriority fun _ => rfl]
  intro hdue _
  unfold queueOf
  rw [PCB.field_of_unlinked huq PCB.effectivePriority fun _ => rfl]
  split
  · rename_i hq
    exact hearlier hdue (hlt q hq)
  · exact hlater hdue

/-! ### Being ahead -/

/-- `p` is ahead of `q`: on a higher level, or before it on the same one and not
to be caught up by the ageing pass. -/
def Ahead (s : Sched) (p q : Slot) : Prop :=
  (s.processTable q).effectivePriority < (s.processTable p).effectivePriority ∨
    (s.processTable p).effectivePriority = (s.processTable q).effectivePriority ∧
    s.Precedes p q ∧
    ((s.processTable p).effectivePriority = 5 ∨
      (s.processTable q).readyWaitTicks < (s.processTable p).readyWaitTicks ∨
      (s.processTable q).readyWaitTicks = (s.processTable p).readyWaitTicks ∧ p < q)

theorem priorityQueueIndex_inj {a b : Int} (ha : 1 ≤ a ∧ a ≤ 5) (hb : 1 ≤ b ∧ b ≤ 5)
    (h : priorityQueueIndex a = priorityQueueIndex b) : a = b := by
  have hv := congrArg Fin.val h
  simp only [priorityQueueIndex, clampPriority, priorityMin, priorityMax] at hv
  omega

/-- What the ageing pass makes of a queued process. -/
theorem aged_cases {b : PCB} (h : b.Tidy) (hq : b.inReadyQueue = true) :
    (Due b ∧ 5 ≤ b.readyWaitTicks ∧ b.effectivePriority < 5 ∧
      (aged b).effectivePriority = b.effectivePriority + 1 ∧ (aged b).readyWaitTicks = 0) ∨
    (¬ Due b ∧ (b.readyWaitTicks < 5 ∨ b.effectivePriority = 5) ∧
      (aged b).effectivePriority = b.effectivePriority ∧
      (aged b).readyWaitTicks = b.readyWaitTicks + 1) := by
  have hr := h.queued hq
  unfold Due agingThresholdTicks priorityMax
  rcases aged_queued h hq with ⟨hw, heff, he, ht⟩ | ⟨hw, he, ht⟩
  · exact .inl ⟨⟨⟨hq, hr⟩, by omega, heff⟩, hw, heff, he, ht⟩
  · exact .inr ⟨fun hd => by omega, hw, he, ht⟩

/-- The level of a queued process is its effective priority. -/
theorem queueOf_eq_iff (h : Neat s) (hp : (s.processTable p).inReadyQueue = true)
    (hq : (s.processTable q).inReadyQueue = true) :
    s.queueOf p = s.queueOf q ↔
      (s.processTable p).effectivePriority = (s.processTable q).effectivePriority := by
  exact ⟨priorityQueueIndex_inj (h.effective_range hp) (h.effective_range hq), congrArg priorityQueueIndex⟩

/-- **The ageing pass keeps `p` ahead.** -/
theorem ageReadyProcesses_ahead (h : Neat s) (hpq : p ≠ q)
    (hp : (s.processTable p).inReadyQueue = true) (hq : (s.processTable q).inReadyQueue = true)
    (ha : s.Ahead p q) : s.ageReadyProcesses.Ahead p q := by
  have hp0 : p ≠ 0 := by
    obtain ⟨L, hL⟩ := h.lists
    exact hL.ne_zero hp
  have hrp := h.effective_range hp
  have hrq := h.effective_range hq
  have htp := (h.tidy p).ticks
  have htq := (h.tidy q).ticks
  -- once for the cases in which `p` stays, once for those in which both move
  have hstay : ¬ Due (s.processTable p) → s.Precedes p q → s.ageReadyProcesses.Precedes p q :=
    fun hd hs => ageReadyProcesses_precedes h hpq hp0 hs (fun h => absurd h hd)
      fun h => absurd h hd
  have hboth : (s.processTable p).effectivePriority = (s.processTable q).effectivePriority →
      (s.processTable p).effectivePriority < 5 → p < q → s.Precedes p q →
      s.ageReadyProcesses.Precedes p q := by
    intro he h5 hlt hs
    refine ageReadyProcesses_precedes h hpq hp0 hs (fun _ hl => ?_) fun _ hlt' =>
      absurd hlt' (lt_asymm hlt)
    have := priorityQueueIndex_inj hrq (by omega) hl
    omega
  obtain ⟨hup, -⟩ := ageReadyProcesses_unlinked h p
  obtain ⟨huq, -⟩ := ageReadyProcesses_unlinked h q
  unfold Ahead
  rw [PCB.field_of_unlinked hup PCB.effectivePriority fun _ => rfl,
    PCB.field_of_unlinked huq PCB.effectivePriority fun _ => rfl,
    PCB.field_of_unlinked hup PCB.readyWaitTicks fun _ => rfl,
    PCB.field_of_unlinked huq PCB.readyWaitTicks fun _ => rfl]
  rcases ha with hlt | ⟨he, hs, hcount⟩
  · -- a level below: `q` may come up to the tail of `p`'s level
    rcases aged_cases (h.tidy p) hp with ⟨hdp, hwp, hep, hep', htp'⟩ | ⟨hdp, hwp, hep', htp'⟩
    · refine .inl ?_
      rcases aged_cases (h.tidy q) hq with ⟨-, -, -, heq', -⟩ | ⟨-, -, heq', -⟩ <;> omega
    · rcases aged_cases (h.tidy q) hq with ⟨-, -, -, heq', htq'⟩ | ⟨-, -, heq', -⟩
      · by_cases hsame : (s.processTable q).effectivePriority + 1 =
            (s.processTable p).effectivePriority
        · refine .inr ⟨by omega, hstay hdp (precedes_of_ne h ?_), .inr (.inl (by omega))⟩
          rw [Ne, queueOf_eq_iff h hp hq]
          omega
        · exact .inl (by omega)
      · exact .inl (by omega)
  · rcases aged_cases (h.tidy p) hp with ⟨hdp, hwp, hep, hep', htp'⟩ | ⟨hdp, hwp, hep', htp'⟩
    · rcases aged_cases (h.tidy q) hq with ⟨-, hwq, -, heq', htq'⟩ | ⟨-, -, heq', -⟩
      · -- both are due, so both have waited five passes and the slots decide
        rcases hcount with h5 | hlt | ⟨-, hlt⟩
        · omega
        · omega
        · exact .inr ⟨by omega, hboth he hep hlt hs, .inr (.inr ⟨by omega, hlt⟩)⟩
      · exact .inl (by omega)
    · rcases aged_cases (h.tidy q) hq with ⟨-, hwq, heq, heq', htq'⟩ | ⟨-, -, heq', htq'⟩
      · exfalso
        omega
      · refine .inr ⟨by omega, hstay hdp hs, ?_⟩
        rcases hcount with h5 | hlt | ⟨ht, hlt⟩
        · exact .inl (by omega)
        · exact .inr (.inl (by omega))
        · exact .inr (.inr ⟨by omega, hlt⟩)

/-! ### The order under the dispatch -/

/-- The priorities above the first one found are searched before it. -/
theorem mem_before {pr x : Int} {before after : List Int}
    (hsplit : prioritiesDown = before ++ pr :: after) (hx : 1 ≤ x ∧ x ≤ 5) (hlt : pr < x) :
    x ∈ before := by
  have hmem : x ∈ prioritiesDown := by
    unfold prioritiesDown
    simp only [List.mem_cons, List.not_mem_nil, or_false]
    omega
  have hsorted : prioritiesDown.Pairwise (· > ·) := by decide
  rw [hsplit, List.pairwise_append, List.pairwise_cons] at hsorted
  rw [hsplit, List.mem_append, List.mem_cons] at hmem
  rcases hmem with hm | rfl | hm
  · exact hm
  · exact absurd hlt (lt_irrefl _)
  · have := hsorted.2.1.1 x hm
    omega

/-- **Nobody is dispatched while somebody is ahead.** -/
theorem dequeueFrom_ahead (h : Neat s) (hpq : p ≠ q)
    (hp : (s.processTable p).inReadyQueue = true) (ha : s.Ahead p q) :
    (s.dequeueFrom prioritiesDown).2 ≠ q := by
  obtain ⟨L, hL⟩ := h.lists
  have hmp := hL.mem_of_queued hp
  intro hnext
  rcases dequeueFrom_spec hL prioritiesDown with
    ⟨hnil, -⟩ | ⟨pr, i, l, ⟨before, after, hsplit, hbefore⟩, hq, hi, -⟩
  · obtain ⟨pr, hpr, hidx⟩ := exists_priority (s.queueOf p)
    rw [← hidx, hnil pr hpr] at hmp
    exact absurd hmp List.not_mem_nil
  · obtain rfl : i = q := hi.symm.trans hnext
    have hmq : i ∈ L (priorityQueueIndex pr) := by
      rw [hq]
      exact List.mem_cons_self
    obtain ⟨hqq, hlevel⟩ := (hL.mem_iff i _).mp hmq
    have hpr : 1 ≤ pr ∧ pr ≤ 5 := by
      have hm : pr ∈ prioritiesDown := by
        rw [hsplit]
        exact List.mem_append_right _ List.mem_cons_self
      unfold prioritiesDown at hm
      simp only [List.mem_cons, List.not_mem_nil, or_false] at hm
      omega
    have heff : (s.processTable i).effectivePriority = pr :=
      priorityQueueIndex_inj (h.effective_range hqq) hpr hlevel
    rcases ha with hlt | ⟨he, hs, -⟩
    · -- the level of `p` is searched first
      have hnil := hbefore _ (mem_before hsplit (h.effective_range hp) (heff ▸ hlt))
      change p ∈ L (priorityQueueIndex (s.processTable p).effectivePriority) at hmp
      rw [hnil] at hmp
      exact absurd hmp List.not_mem_nil
    · have hlevel' : s.queueOf p = priorityQueueIndex pr :=
        ((queueOf_eq_iff h hp hqq).mpr he).trans hlevel
      rw [hlevel'] at hmp
      have hsub := hs.lists hL hmp hmq
      have hnd := (hL.queue (priorityQueueIndex pr)).nodup
      rw [hq] at hsub hnd
      have hl : i ∈ l := by
        rcases List.sublist_cons_iff.mp hsub with hin | ⟨r, hr, -⟩
        · exact hin.subset (List.mem_cons_of_mem _ List.mem_cons_self)
        · exact absurd (List.cons.inj hr).1 hpq
      exact (List.nodup_cons.mp hnd).1 hl

theorem dispatch_ahead (h : Neat s) (hpq : p ≠ q)
    (hp : (s.processTable p).inReadyQueue = true) (hq : (s.processTable q).inReadyQueue = true)
    (ha : s.Ahead p q) : s.dispatch.1.currentIdx ≠ q ∧
      (s.dispatch.1.currentIdx ≠ p → s.dispatch.1.Ahead p q) := by
  have hage := ageReadyProcesses_neat h
  have ha' := ageReadyProcesses_ahead h hpq hp hq ha
  obtain ⟨L, hL⟩ := h.lists
  obtain ⟨-, hlists, htable⟩ := dispatch_spec h hL
  have hne : s.dispatch.1.currentIdx ≠ q := by
    rw [dispatch_currentIdx]
    exact dequeueFrom_ahead hage hpq (((ageReadyProcesses_unlinked h p).2).trans hp) ha'
  refine ⟨hne, fun hnp => ?_⟩
  have hfields : ∀ j, s.dispatch.1.currentIdx ≠ j →
      (s.dispatch.1.processTable j).unlinked = (s.ageReadyProcesses.processTable j).unlinked := by
    intro j hj
    have hu := htable j
    rw [if_neg hj.symm] at hu
    rw [hu, (ageReadyProcesses_unlinked h j).1]
  unfold Ahead at ha' ⊢
  rw [PCB.field_of_unlinked (hfields p hnp) PCB.effectivePriority fun _ => rfl,
    PCB.field_of_unlinked (hfields q hne) PCB.effectivePriority fun _ => rfl,
    PCB.field_of_unlinked (hfields p hnp) PCB.readyWaitTicks fun _ => rfl,
    PCB.field_of_unlinked (hfields q hne) PCB.readyWaitTicks fun _ => rfl]
  refine ha'.imp_right fun hs => ⟨hs.1, ⟨_, hlists, fun l hpl hql => ?_⟩, hs.2.2⟩
  exact pair_sublist_erase hnp.symm hne.symm (hs.2.1.lists (ageReadyProcesses_queues h hL)
    (List.mem_of_mem_erase hpl) (List.mem_of_mem_erase hql))

end Sched

/-! ### The roll -/

/-- The ready processes in the order in which they became ready, the number of
ageing passes so far, and for each process on the list their number when it
became ready. -/
structure Roll where
  order : List Slot
  ticks : Nat
  since : Slot → Nat

namespace Roll

/-- Nobody has become ready yet. -/
def start : Roll := ⟨[], 0, fun _ => 0⟩

/-- The given processes become ready, in this order. -/
def join (r : Roll) (js : List Slot) : Roll :=
  { r with order := r.order ++ js, since := fun j => if j ∈ js then r.ticks else r.since j }

/-- The given processes are struck off: a call was aimed at them. -/
def strike (r : Roll) (aim : Slot → Prop) [DecidablePred aim] : Roll :=
  { r with order := r.order.filter fun j => ¬ aim j }

/-- An ageing pass is made and a process dispatched. -/
def pass (r : Roll) (next : Slot) : Roll :=
  { r with order := r.order.erase next, ticks := r.ticks + 1 }

/-- What the order of becoming ready is worth: an ageing pass came between the
two, or `p` has the lower slot, or neither can be promoted. -/
def Settles (r : Roll) (s : Sched) (p q : Slot) : Prop :=
  r.since p < r.since q ∨ p < q ∨ (s.processTable p).priority = priorityMax

end Roll

/-- What the roll says of the scheduler. -/
structure OnRoll (s : Sched) (r : Roll) : Prop where
  queued : ∀ j ∈ r.order, (s.processTable j).inReadyQueue = true
  once : r.order.Nodup
  waited : ∀ j ∈ r.order, r.since j ≤ r.ticks ∧
    (s.processTable j).priority ≤ (s.processTable j).effectivePriority ∧
    (r.since j < r.ticks → (s.processTable j).priority < (s.processTable j).effectivePriority ∨
      0 < (s.processTable j).readyWaitTicks)
  ahead : ∀ p q, [p, q].Sublist r.order →
    (s.processTable p).priority = (s.processTable q).priority → r.Settles s p q → s.Ahead p q

namespace OnRoll

open Sched

variable {s s' : Sched} {r : Roll}

theorem ne_of_pair {l : List Slot} {p q : Slot} (hnd : l.Nodup) (h : [p, q].Sublist l) : p ≠ q := by
  have := hnd.sublist h
  rintro rfl
  exact (List.nodup_cons.mp this).1 List.mem_cons_self

/-- A process that has just become ready is behind those before it on its level that
have been promoted or passed over, come first in the ageing pass, or are at the top. -/
theorem ahead_of_newcomer {p q : Slot}
    (hq : (s.processTable q).effectivePriority = (s.processTable q).priority ∧
      (s.processTable q).readyWaitTicks = 0)
    (hprio : (s.processTable p).priority = (s.processTable q).priority)
    (hbase : (s.processTable p).priority ≤ (s.processTable p).effectivePriority)
    (hticks : 0 ≤ (s.processTable p).readyWaitTicks) (hord : s.Precedes p q)
    (hset : ((s.processTable p).priority < (s.processTable p).effectivePriority ∨
        0 < (s.processTable p).readyWaitTicks) ∨ p < q ∨ (s.processTable p).priority = 5) :
    s.Ahead p q := by
  obtain ⟨heq, htq⟩ := hq
  by_cases hlt : (s.processTable q).effectivePriority < (s.processTable p).effectivePriority
  · exact .inl hlt
  · refine .inr ⟨by omega, hord, ?_⟩
    rcases hset with hpass | hslot | h5
    · exact .inr (.inl (by omega))
    · by_cases h0 : (s.processTable p).readyWaitTicks = 0
      · exact .inr (.inr ⟨by omega, hslot⟩)
      · exact .inr (.inl (by omega))
    · exact .inl (by omega)

/-- Two queued processes at which nothing is aimed. -/
theorem ahead_moves {p q : Slot} (ha : s.Ahead p q) (hn : Neat s) {aim : Slot → Prop}
    (m : Moves aim s s') (hp : (s.processTable p).inReadyQueue = true) (hap : ¬ aim p)
    (hq : (s.processTable q).inReadyQueue = true) (haq : ¬ aim q) : s'.Ahead p q := by
  have hwp := (moves_steady m hn hp hap).waits
  have hwq := (moves_steady m hn hq haq).waits
  unfold Ahead at ha ⊢
  rw [hwp.effectivePriority, hwq.effectivePriority, hwp.readyWaitTicks, hwq.readyWaitTicks]
  exact ha.imp_right fun hs => ⟨hs.1, moves_precedes m hn hp hap hs.2.1, hs.2.2⟩

/-- **What becomes of the roll when the scheduler moves processes** without
aiming at those kept on it. -/
theorem moves (h : OnRoll s r) (hn : Neat s) {aim : Slot → Prop} [DecidablePred aim]
    (m : Moves aim s s') {js : List Slot} (hjs : js.Nodup)
    (hnew : ∀ j ∈ js, (s.processTable j).inReadyQueue = false ∧
      (s'.processTable j).inReadyQueue = true)
    (hord : ∀ p q, [p, q].Sublist js → s'.Precedes p q) : OnRoll s' ((r.strike aim).join js) := by
  have hn' := m.neat hn
  have hkept : ∀ j ∈ (r.strike aim).order, j ∈ r.order ∧ ¬ aim j ∧
      (s.processTable j).inReadyQueue = true ∧ j ∉ js := by
    intro j hj
    obtain ⟨hmem, ha⟩ := List.mem_filter.mp hj
    have hq := h.queued j hmem
    refine ⟨hmem, of_decide_eq_true ha, hq, fun hm => ?_⟩
    cases (hnew j hm).1.symm.trans hq
  have hbegun : ∀ j ∈ js, (s'.processTable j).effectivePriority = (s'.processTable j).priority ∧
      (s'.processTable j).readyWaitTicks = 0 := by
    intro j hj
    refine moves_starts m hn (fun hq => ?_) (hnew j hj).2
    cases (hnew j hj).1.symm.trans hq
  refine ⟨fun j hj => ?_, ?_, fun j hj => ?_, fun p q hpq hprio hset => ?_⟩
  · rcases List.mem_append.mp hj with hj | hj
    · obtain ⟨-, ha, hq, -⟩ := hkept j hj
      exact (moves_steady m hn hq ha).queued hq
    · exact (hnew j hj).2
  · refine List.nodup_append.mpr ⟨h.once.filter _, hjs, fun a ha b hb hab => ?_⟩
    exact (hkept a ha).2.2.2 (hab ▸ hb)
  · rcases List.mem_append.mp hj with hj | hj
    · obtain ⟨hmem, ha, hq, hnot⟩ := hkept j hj
      have hw := (moves_steady m hn hq ha).waits
      have hb := moves_priority m hn hq ha
      show (if j ∈ js then r.ticks else r.since j) ≤ r.ticks ∧ _ ∧
        ((if j ∈ js then r.ticks else r.since j) < r.ticks → _)
      rw [if_neg hnot, hw.effectivePriority, hw.readyWaitTicks, hb]
      exact h.waited j hmem
    · show (if j ∈ js then r.ticks else r.since j) ≤ r.ticks ∧ _ ∧
        ((if j ∈ js then r.ticks else r.since j) < r.ticks → _)
      rw [if_pos hj, (hbegun j hj).1]
      exact ⟨le_refl _, le_refl _, fun hlt => absurd hlt (lt_irrefl _)⟩
  · have hset' : (if p ∈ js then r.ticks else r.since p) < (if q ∈ js then r.ticks else r.since q) ∨
        p < q ∨ (s'.processTable p).priority = 5 := hset
    obtain ⟨l₁, l₂, hsplit, hl₁, hl₂⟩ := List.sublist_append_iff.mp hpq
    rcases l₁ with - | ⟨x, - | ⟨y, l₁⟩⟩
    · -- both have just become ready
      obtain rfl : [p, q] = l₂ := hsplit
      have hpj : p ∈ js := hl₂.subset List.mem_cons_self
      have hqj : q ∈ js := hl₂.subset (List.mem_cons_of_mem _ List.mem_cons_self)
      obtain ⟨hep, htp⟩ := hbegun p hpj
      rw [if_pos hpj, if_pos hqj] at hset'
      refine ahead_of_newcomer (hbegun q hqj) hprio hep.ge htp.ge (hord p q hl₂) ?_
      exact .inr (hset'.resolve_left (lt_irrefl _))
    · -- `q` has just become ready and `p` was waiting
      obtain ⟨rfl, hrest⟩ := List.cons.inj hsplit
      obtain rfl : [q] = l₂ := hrest
      have hqj : q ∈ js := List.singleton_sublist.mp hl₂
      obtain ⟨hmem, ha, hqp, hnot⟩ := hkept p (List.singleton_sublist.mp hl₁)
      have hw := (moves_steady m hn hqp ha).waits
      have hb := moves_priority m hn hqp ha
      obtain ⟨-, hbase, hcount⟩ := h.waited p hmem
      rw [if_neg hnot, if_pos hqj] at hset'
      rw [← hw.effectivePriority, ← hb] at hbase hcount
      rw [← hw.readyWaitTicks] at hcount
      refine ahead_of_newcomer (hbegun q hqj) hprio hbase (hn'.tidy p).ticks.1
        (moves_precedes m hn hqp ha ?_) (hset'.imp_left hcount)
      obtain ⟨L, hL⟩ := hn.lists
      exact ⟨L, hL, fun l _ hql => absurd hql (hL.not_mem (hnew q hqj).1 l)⟩
    · -- both were waiting
      obtain ⟨rfl, hrest⟩ := List.cons.inj hsplit
      obtain ⟨rfl, hnil⟩ := List.cons.inj hrest
      obtain ⟨rfl, rfl⟩ := List.append_eq_nil_iff.mp hnil.symm
      have hold : [p, q].Sublist r.order := hl₁.trans List.filter_sublist
      obtain ⟨-, hap, hqp, hnp⟩ := hkept p (hl₁.subset List.mem_cons_self)
      obtain ⟨-, haq, hqq, hnq⟩ := hkept q
        (hl₁.subset (List.mem_cons_of_mem _ List.mem_cons_self))
      have hbp := moves_priority m hn hqp hap
      rw [if_neg hnp, if_neg hnq, hbp] at hset'
      rw [hbp, moves_priority m hn hqq haq] at hprio
      exact ahead_moves (h.ahead p q hold hprio hset') hn m hqp hap hqq haq

/-- **The roll after a dispatch.** -/
theorem dispatch (h : OnRoll s r) (hn : Neat s) :
    OnRoll s.dispatch.1 (r.pass s.dispatch.1.currentIdx) := by
  obtain ⟨L, hL⟩ := hn.lists
  obtain ⟨-, hlists, htable⟩ := dispatch_spec hn hL
  generalize hnext : s.dispatch.1.currentIdx = next at hlists htable ⊢
  have hkept : ∀ j ∈ r.order.erase next, j ∈ r.order ∧ next ≠ j ∧
      (s.dispatch.1.processTable j).unlinked = (aged (s.processTable j)).unlinked := by
    intro j hj
    obtain ⟨hne, hmem⟩ := h.once.mem_erase_iff.mp hj
    have hu := htable j
    rw [if_neg hne] at hu
    exact ⟨hmem, hne.symm, hu⟩
  refine ⟨fun j hj => ?_, h.once.erase _, fun j hj => ?_, fun p q hpq hprio hset => ?_⟩
  · obtain ⟨hmem, hne, -⟩ := hkept j hj
    have hq := (ageReadyProcesses_queues hn hL).mem_of_queued
      (((ageReadyProcesses_unlinked hn j).2).trans (h.queued j hmem))
    exact ((hlists.mem_iff j _).mp ((List.mem_erase_of_ne hne.symm).mpr hq)).1
  · obtain ⟨hmem, -, hu⟩ := hkept j hj
    obtain ⟨hsince, hbase, -⟩ := h.waited j hmem
    rw [PCB.field_of_unlinked hu PCB.effectivePriority fun _ => rfl,
      PCB.field_of_unlinked hu PCB.readyWaitTicks fun _ => rfl,
      PCB.field_of_unlinked hu PCB.priority fun _ => rfl,
      aged_field PCB.priority (fun _ _ _ => rfl)]
    have hticks := (hn.tidy j).ticks.1
    show r.since j ≤ r.ticks + 1 ∧ _
    rcases aged_cases (hn.tidy j) (h.queued j hmem) with ⟨-, -, -, he, ht⟩ | ⟨-, -, he, ht⟩
    · exact ⟨by omega, by omega, fun _ => .inl (by omega)⟩
    · exact ⟨by omega, by omega, fun _ => .inr (by omega)⟩
  · have hold : [p, q].Sublist r.order := hpq.trans List.erase_sublist
    obtain ⟨hmp, hnp, hup⟩ := hkept p (hpq.subset List.mem_cons_self)
    obtain ⟨hmq, -, huq⟩ := hkept q (hpq.subset (List.mem_cons_of_mem _ List.mem_cons_self))
    have hbp : (s.dispatch.1.processTable p).priority = (s.processTable p).priority := by
      rw [PCB.field_of_unlinked hup PCB.priority fun _ => rfl]
      exact aged_field PCB.priority (fun _ _ _ => rfl) _
    have hbq : (s.dispatch.1.processTable q).priority = (s.processTable q).priority := by
      rw [PCB.field_of_unlinked huq PCB.priority fun _ => rfl]
      exact aged_field PCB.priority (fun _ _ _ => rfl) _
    have hset' : r.Settles s p q := by
      unfold Roll.Settles at hset ⊢
      rw [hbp] at hset
      exact hset
    rw [hbp, hbq] at hprio
    refine (dispatch_ahead hn (ne_of_pair h.once hold) (h.queued p hmp) (h.queued q hmq)
      (h.ahead p q hold hprio hset')).2 ?_
    rw [hnext]
    exact hnp

end OnRoll

namespace Kernel

open Sched

variable {k : Kernel} {r : Roll}

instance (k : Kernel) (op : Op) : DecidablePred (k.Aims op) := fun j => by
  induction op using Op.casesOn <;> dsimp only [Aims] <;> infer_instance

/-- The processes a call makes ready.  Those of one priority are appended to one
list in the order of the calls of `make_ready`, so that order is read off the
lists. -/
def newcomers (k k₁ : Kernel) : List Slot :=
  (prioritiesDown.flatMap fun pr => k₁.sched.readyList (priorityQueueIndex pr)).filter fun j =>
    (k.proc j).state ≠ .ready

/-- The roll after the call of a step. -/
def rollCall (k : Kernel) (r : Roll) (op : Op) : Roll :=
  (r.strike (k.Aims op)).join (k.newcomers (k.exec op))

/-- The roll when `scheduler_tick` has put the current process back. -/
def rollEntry (k : Kernel) (r : Roll) : Roll :=
  r.join (if (k.proc k.sched.currentIdx).state = .running ∧ k.sched.currentIdx ≠ 0
    then [k.sched.currentIdx] else [])

/-- The roll after the call of a step and before its tick. -/
def rollStep (k : Kernel) (r : Roll) : CpuLabel → Roll
  | .call op _ => k.rollCall r op
  | .timer _ => r
  | .keyboard => k.rollCall r .killForeground

/-- The steps of the processor, with the roll. -/
def rollMachine : Machine (Kernel × Roll) CpuLabel where
  guard := fun x l => cpuMachine.guard x.1 l
  step := fun x l =>
    (cpuMachine.step x.1 l).map fun k' =>
      (k', match x.1.tickOf l with
        | none => x.1.rollStep x.2 l
        | some (k₁, _) => (k₁.rollEntry (x.1.rollStep x.2 l)).pass k'.sched.currentIdx)

section Newcomers

variable {s : Sched} {L : Levels}

theorem nodup_levels (hL : Queues s L) :
    (prioritiesDown.flatMap fun pr => L (priorityQueueIndex pr)).Nodup := by
  refine List.nodup_flatMap.mpr ⟨fun pr _ => (hL.queue _).nodup, ?_⟩
  have hne : prioritiesDown.Pairwise fun a b => priorityQueueIndex a ≠ priorityQueueIndex b := by
    decide
  exact hne.imp fun hab x hx hy => hab (hL.disjoint hx hy)

/-- The order on the levels one after the other is the order on each. -/
theorem precedes_of_levels (hL : Queues s L) {p q : Slot}
    (h : [p, q].Sublist (prioritiesDown.flatMap fun pr => L (priorityQueueIndex pr))) :
    s.Precedes p q := by
  refine ⟨L, hL, fun l hp hq => ?_⟩
  obtain ⟨pr, hpr, rfl⟩ := exists_priority l
  obtain ⟨before, after, hsplit⟩ := List.append_of_mem hpr
  have hnd := nodup_levels hL
  rw [hsplit, List.flatMap_append, List.flatMap_cons] at h hnd
  obtain ⟨-, hnd', hbefore⟩ := List.nodup_append.mp hnd
  obtain ⟨-, -, hafter⟩ := List.nodup_append.mp hnd'
  exact pair_sublist_middle (fun hm => hbefore p hm p (List.mem_append_left _ hp) rfl)
    (fun hm => hafter q hq q hm rfl) h

end Newcomers

theorem newcomers_eq {k₁ : Kernel} {L : Levels} (hL : Queues k₁.sched L) :
    k.newcomers k₁ = (prioritiesDown.flatMap fun pr => L (priorityQueueIndex pr)).filter fun j =>
      (k.proc j).state ≠ .ready := by
  unfold newcomers
  rw [funext fun q => readyList_eq hL q]

theorem rollCall_onRoll (hk : OnCpu k) (h : OnRoll k.sched r) {op : Op}
    (htick : ∀ rsp, op ≠ .tick rsp)
    (hwait : ∀ pid, op = .wait pid → (k.proc k.sched.currentIdx).state = .running) :
    OnRoll (k.exec op).sched (k.rollCall r op) := by
  obtain ⟨L, hL⟩ := (hk.exec htick hwait).neat.lists
  unfold rollCall
  rw [newcomers_eq hL]
  refine h.moves hk.neat (exec_moves hk.neat hk.sound.pids.current htick hwait)
    ((nodup_levels hL).filter _) (fun j hj => ?_) fun p q hpq => ?_
  · obtain ⟨hmem, hstate⟩ := List.mem_filter.mp hj
    obtain ⟨pr, -, hlevel⟩ := List.mem_flatMap.mp hmem
    exact ⟨(hk.neat.tidy j).off (of_decide_eq_true hstate), ((hL.mem_iff j _).mp hlevel).1⟩
  · exact precedes_of_levels hL (hpq.trans List.filter_sublist)

theorem rollEntry_onRoll (hk : OnCpu k) (h : OnRoll k.sched r) (rsp : Nat) :
    OnRoll (k.sched.tickEntry rsp) (k.rollEntry r) := by
  obtain ⟨L, hL⟩ := hk.neat.lists
  have hentry := tickEntry_queues hk.neat hL rsp
  have hstrike : r.strike (fun _ => False) = r := by
    unfold Roll.strike
    rw [List.filter_eq_self.mpr fun _ _ => decide_eq_true not_false]
  have hmoves : ∀ js : List Slot, js.Nodup → (∀ j ∈ js, (k.proc j).inReadyQueue = false ∧
      ((k.sched.tickEntry rsp).processTable j).inReadyQueue = true) →
      (∀ p q, [p, q].Sublist js → (k.sched.tickEntry rsp).Precedes p q) →
      OnRoll (k.sched.tickEntry rsp) (r.join js) := by
    intro js hnd hnew hord
    have hm := h.moves hk.neat (tickEntry_moves hk.neat rsp) hnd hnew hord
    rwa [hstrike] at hm
  unfold rollEntry
  split
  · rename_i hrun
    refine hmoves _ (List.nodup_singleton _) (fun j hj => ?_) fun p q hpq => ?_
    · obtain rfl := List.mem_singleton.mp hj
      refine ⟨(hk.neat.tidy _).off fun hr => ?_, ?_⟩
      · cases hrun.1.symm.trans hr
      · refine ((hentry.mem_iff _ (priorityQueueIndex k.sched.current.priority)).mp ?_).1
        have hrun' : k.sched.current.state = .running ∧ k.sched.currentIdx ≠ 0 := hrun
        rw [joined, if_pos hrun', Function.update_self]
        exact List.mem_append_right _ List.mem_cons_self
    · have hlen : 2 ≤ 1 := hpq.length_le
      omega
  · refine hmoves [] List.nodup_nil (fun j hj => absurd hj List.not_mem_nil) fun p q hpq => ?_
    cases hpq

/-! ### Runs -/

theorem tick_onRoll (hk : OnCpu k) (h : OnRoll k.sched r) (rsp : Nat) :
    OnRoll (k.exec (.tick rsp)).sched
      ((k.rollEntry r).pass (k.exec (.tick rsp)).sched.currentIdx) := by
  show OnRoll (k.sched.schedulerTick rsp).1 (Roll.pass _ (k.sched.schedulerTick rsp).1.currentIdx)
  rw [schedulerTick_eq (hk.neat.tidy _).quantum]
  exact (rollEntry_onRoll hk h rsp).dispatch ((tickEntry_moves hk.neat rsp).neat hk.neat)

/-- The roll before the tick of a step. -/
theorem tickOf_onRoll (hk : OnCpu k) (h : OnRoll k.sched r) {l : CpuLabel}
    (hg : cpuMachine.guard k l) {k₁ : Kernel} {rsp : Nat} (ht : k.tickOf l = some (k₁, rsp)) :
    OnRoll k₁.sched (k.rollStep r l) := by
  rcases tickOf_some ht with ⟨op, rfl, rfl⟩ | ⟨rfl, rfl⟩
  · exact rollCall_onRoll hk h (IsCall.not_tick hg.1) fun _ _ => hg.2
  · exact h

/-- What holds between the steps. -/
def Rolled (x : Kernel × Roll) : Prop := OnCpu x.1 ∧ OnRoll x.1.sched x.2

theorem Rolled.step {x x' : Kernel × Roll} {l : CpuLabel} (h : Rolled x)
    (hg : rollMachine.guard x l) (hs : rollMachine.step x l = some x') : Rolled x' := by
  obtain ⟨k, r⟩ := x
  obtain ⟨hk, hr⟩ := h
  obtain ⟨k', hstep, rfl⟩ := Option.map_eq_some_iff.mp hs
  refine ⟨hk.step hg hstep, ?_⟩
  cases l with
  | call op rsp =>
      have hcall := rollCall_onRoll hk hr (IsCall.not_tick hg.1) fun _ _ => hg.2
      have hop := hk.exec (IsCall.not_tick hg.1) fun _ _ => hg.2
      simp only [cpuMachine, tickOf] at hstep ⊢
      by_cases hres : (k.exec op).sched.schedulerShouldReschedule
      · rw [if_pos hres] at hstep ⊢
        obtain rfl := Option.some.inj hstep
        exact tick_onRoll hop hcall rsp
      · rw [if_neg hres] at hstep ⊢
        obtain rfl := Option.some.inj hstep
        exact hcall
  | timer rsp =>
      obtain rfl := Option.some.inj hstep
      exact tick_onRoll hk hr rsp
  | keyboard =>
      obtain rfl := Option.some.inj hstep
      exact rollCall_onRoll hk hr (fun _ => by rintro ⟨⟩) fun _ e => by cases e

theorem rollMachine_rolled {idleStack : Nat}
    (h : rollMachine.Reach (init idleStack, Roll.start) (k, r)) : Rolled (k, r) := by
  refine h.invariant (I := Rolled) ⟨init_onCpu idleStack, ?_, List.nodup_nil, ?_, ?_⟩
    fun _ _ _ hx hg hs => hx.step hg hs
  · exact fun j hj => absurd hj List.not_mem_nil
  · exact fun j hj => absurd hj List.not_mem_nil
  · intro p q hpq
    cases hpq

/-- **Round robin**: of two waiting processes of one base priority the one that
became ready first is dispatched first, if an ageing pass came between the two
or the first has the lower slot or neither can be promoted.  The roll is the one
at the tick: `k₁` is the kernel that `scheduler_tick` finds. -/
theorem round_robin {idleStack : Nat}
    (h : rollMachine.Reach (init idleStack, Roll.start) (k, r)) {l : CpuLabel}
    (hg : cpuMachine.guard k l) {k₁ : Kernel} {rsp : Nat} (ht : k.tickOf l = some (k₁, rsp))
    {p q : Slot} (hpq : [p, q].Sublist (k₁.rollEntry (k.rollStep r l)).order)
    (hprio : (k₁.proc p).priority = (k₁.proc q).priority)
    (hset : (k₁.rollEntry (k.rollStep r l)).Settles k₁.sched p q) :
    (k₁.exec (.tick rsp)).sched.currentIdx ≠ q := by
  obtain ⟨hk, hr⟩ := rollMachine_rolled h
  have hk₁ := tickOf_onCpu hk hg ht
  have hroll := rollEntry_onRoll hk₁ (tickOf_onRoll hk hr hg ht) rsp
  have hneat := (tickEntry_moves hk₁.neat rsp).neat hk₁.neat
  have hbase : ∀ j, ((k₁.sched.tickEntry rsp).processTable j).priority = (k₁.proc j).priority :=
    k₁.sched.tickEntry_priority rsp
  have hp := hroll.queued p (hpq.subset List.mem_cons_self)
  have hq := hroll.queued q (hpq.subset (List.mem_cons_of_mem _ List.mem_cons_self))
  have ha : (k₁.sched.tickEntry rsp).Ahead p q := by
    refine hroll.ahead p q hpq ?_ ?_
    · rw [hbase, hbase]
      exact hprio
    · unfold Roll.Settles at hset ⊢
      rw [hbase]
      exact hset
  show (k₁.sched.schedulerTick rsp).1.currentIdx ≠ q
  rw [schedulerTick_eq (hk₁.neat.tidy _).quantum]
  exact (dispatch_ahead hneat (OnRoll.ne_of_pair hroll.once hpq) hp hq ha).1

instance (x : Kernel × Roll) (l : CpuLabel) : Decidable (rollMachine.guard x l) :=
  inferInstanceAs (Decidable (cpuMachine.guard x.1 l))

instance (r : Roll) (s : Sched) (p q : Slot) : Decidable (r.Settles s p q) :=
  inferInstanceAs (Decidable (_ ∨ _ ∨ _))

/-- Two children of one priority, created between the same two ticks: when the
shell blocks, the second is not dispatched before the first. -/
theorem round_robin_children : ∃ k r, rollMachine.Reach (init 1000, Roll.start) (k, r) ∧
    r.order = [2, 3] ∧ (k.proc 2).priority = (k.proc 3).priority ∧ r.since 2 = r.since 3 ∧
    k.tickOf (.call (.block 1) 0) = some (k.exec (.block 1), 0) ∧
    ((k.exec (.block 1)).exec (.tick 0)).sched.currentIdx ≠ 3 := by
  obtain ⟨⟨k, r⟩, hk, horder, hprio, hsince, hres, hg, hpq, hprio', hset⟩ :=
    rollMachine.exists_reach_of_trace (s := (init 1000, Roll.start))
      [.call (.create [115] 3 1 5000) 0, .timer 0, .call (.create [97] 1 0 9000) 0,
        .call (.create [98] 1 0 13000) 0]
      (P := fun x => x.2.order = [2, 3] ∧ (x.1.proc 2).priority = (x.1.proc 3).priority ∧
        x.2.since 2 = x.2.since 3 ∧
        (x.1.exec (.block 1)).sched.schedulerShouldReschedule = true ∧
        cpuMachine.guard x.1 (.call (.block 1) 0) ∧
        [2, 3].Sublist ((x.1.exec (.block 1)).rollEntry
          (x.1.rollStep x.2 (.call (.block 1) 0))).order ∧
        ((x.1.exec (.block 1)).proc 2).priority = ((x.1.exec (.block 1)).proc 3).priority ∧
        ((x.1.exec (.block 1)).rollEntry (x.1.rollStep x.2 (.call (.block 1) 0))).Settles
          (x.1.exec (.block 1)).sched 2 3) (by decide +kernel)
  have ht : k.tickOf (.call (.block 1) 0) = some (k.exec (.block 1), 0) := by
    rw [tickOf, if_pos hres]
  exact ⟨k, r, hk, horder, hprio, hsince, ht, round_robin hk hg ht hpq hprio' hset⟩

/-- The shell (slot 1, priority 1) creates a process of its own priority in slot
2 and one of priority 3, which takes the processor over.  Slot 2 is ready before
the shell is, but both are due in the same ageing passes, and the pass comes to
slot 1 first: when they reach the third level the shell is dispatched. -/
theorem later_one_first : ∃ k r, rollMachine.Reach (init 1000, Roll.start) (k, r) ∧
    [2, 1].Sublist (k.rollEntry r).order ∧ (k.proc 2).priority = (k.proc 1).priority ∧
    (k.exec (.tick 0)).sched.currentIdx = 1 := by
  obtain ⟨⟨k, r⟩, hk, h⟩ := rollMachine.exists_reach_of_trace (s := (init 1000, Roll.start))
    ([.call (.create [115] 1 1 5000) 0, .timer 0, .call (.create [97] 1 0 9000) 0,
      .call (.create [98] 3 0 13000) 0] ++ List.replicate 11 (.timer 0))
    (P := fun x => [2, 1].Sublist (x.1.rollEntry x.2).order ∧
      (x.1.proc 2).priority = (x.1.proc 1).priority ∧
      (x.1.exec (.tick 0)).sched.currentIdx = 1) (by decide +kernel)
  exact ⟨k, r, hk, h⟩

end Kernel

end TP2Kernel
