/-
TP2Kernel/SemaphoreOrder.lean

The order in which waiters are woken.  A waiter's score is its priority plus
its credit, and every waiter that is passed over gains credit up to a cap.  New
waiters enter at the end with no credit and all others gain together, so credits
never increase along a queue (`Graded`).  With that, a waiter is never chosen
over an earlier one of at least its priority, whatever the cap does: scores tie
at worst, and a tie goes to the earlier one (`bestWaiter_first`).

The cap does not bound overtaking by itself.  A waiter of low priority at the
cap has the same credit as one of high priority at the cap, and a newcomer of
high priority needs only a few rounds, in which others are served, to pass it
(`newcomer_overtakes`).  Newcomers of at most its priority never do, and then
only those already in the queue can be served before it (`passes_bounded`).
-/
import TP2Kernel.WaitQueues

namespace TP2Kernel

/-! ### The choice of a waiter -/

/-- The score with which a waiter takes part in the choice: it is a blocked
process. -/
def HasScore (s : Sched) (w : Int × Int) (t : Int) : Prop :=
  ∃ j, s.findIndexByPid w.1 = some j ∧ (s.processTable j).state = .blocked ∧
    (s.processTable j).priority + w.2 = t

/-- **The waiter chosen beats every earlier one strictly.** -/
theorem bestWaiter_first {s : Sched} {ws : List (Int × Int)} {i r : Nat} {best : Option Nat}
    {sc : Int} (h : bestWaiter s ws i best sc = some r) :
    best = some r ∨ ∃ n t, r = i + n ∧ sc < t ∧ (∃ w, ws[n]? = some w ∧ HasScore s w t) ∧
      ∀ w ∈ ws.take n, ∀ u, HasScore s w u → u < t := by
  induction ws generalizing i best sc with
  | nil => exact .inl h
  | cons w ws ih =>
      obtain ⟨pid, credit⟩ := w
      -- a later choice beats this waiter if it beats what this waiter leaves
      have hlater : ∀ sc', sc ≤ sc' → (∀ u, HasScore s (pid, credit) u → u ≤ sc') →
          (∃ n t, r = i + 1 + n ∧ sc' < t ∧ (∃ w, ws[n]? = some w ∧ HasScore s w t) ∧
            ∀ w ∈ ws.take n, ∀ u, HasScore s w u → u < t) →
          ∃ n t, r = i + n ∧ sc < t ∧ (∃ w, ((pid, credit) :: ws)[n]? = some w ∧ HasScore s w t) ∧
            ∀ w ∈ ((pid, credit) :: ws).take n, ∀ u, HasScore s w u → u < t := by
        rintro sc' hle hbound ⟨n, t, hr, ht, hw, hbefore⟩
        refine ⟨n + 1, t, by omega, by omega, hw, fun w hm u hu => ?_⟩
        rw [List.take_succ_cons, List.mem_cons] at hm
        rcases hm with rfl | hm
        · have := hbound u hu
          omega
        · exact hbefore w hm u hu
      simp only [bestWaiter] at h
      rcases hf : s.findIndexByPid pid with - | j
      · rw [hf] at h
        refine (ih h).imp_right (hlater sc le_rfl ?_)
        rintro u ⟨j, hj, -⟩
        rw [hf] at hj
        cases hj
      · rw [hf] at h
        simp only at h
        have hscore : ∀ u, HasScore s (pid, credit) u →
            (s.processTable j).state = .blocked ∧ u = (s.processTable j).priority + credit := by
          rintro u ⟨j', hj', hst, rfl⟩
          obtain rfl := Option.some.inj (hf.symm.trans hj')
          exact ⟨hst, rfl⟩
        split at h
        · rename_i hc
          rcases ih h with he | hn
          · obtain rfl := Option.some.inj he
            exact .inr ⟨0, _, rfl, hc.2, ⟨_, rfl, j, hf, hc.1, rfl⟩, by simp⟩
          · exact .inr (hlater _ (by omega) (fun u hu => le_of_eq (hscore u hu).2) hn)
        · rename_i hc
          refine (ih h).imp_right (hlater sc le_rfl fun u hu => ?_)
          obtain ⟨hst, rfl⟩ := hscore u hu
          exact Int.not_lt.mp fun hlt => hc ⟨hst, hlt⟩

/-! ### Credits along the queue -/

/-- Credits do not increase along the queue. -/
def Graded (ws : List (Int × Int)) : Prop := ws.Pairwise fun w w' => w'.2 ≤ w.2

/-- A waiter that has been passed over. -/
def oneUp (w : Int × Int) : Int × Int := if w.2 < 5 then (w.1, w.2 + 1) else w

theorem oneUp_snd (w : Int × Int) : (oneUp w).2 = if w.2 < 5 then w.2 + 1 else w.2 := by
  unfold oneUp
  split <;> rfl

theorem oneUp_le {w w' : Int × Int} (h : w'.2 ≤ w.2) : (oneUp w').2 ≤ (oneUp w).2 := by
  rw [oneUp_snd, oneUp_snd]
  split <;> split <;> omega

theorem released_eq (ws : List (Int × Int)) (b : Nat) :
    Kernel.released ws b = (ws.eraseIdx b).map oneUp := by
  unfold Kernel.released ageWaitersExcept
  rw [← List.eraseIdx_map]
  refine List.ext_getElem? fun n => ?_
  simp only [List.getElem?_eraseIdx, List.getElem?_mapIdx, List.getElem?_map]
  split
  · rename_i hn
    have hne : n ≠ b := by omega
    simp only [hne, ne_eq, not_false_eq_true, true_and]
    rfl
  · rename_i hn
    have hne : n + 1 ≠ b := by omega
    simp only [hne, ne_eq, not_false_eq_true, true_and]
    rfl

theorem Graded.sublist {ws ws' : List (Int × Int)} (h : Graded ws) (hs : ws'.Sublist ws) :
    Graded ws' :=
  List.Pairwise.sublist hs h

theorem Graded.released {ws : List (Int × Int)} (h : Graded ws) (b : Nat) :
    Graded (Kernel.released ws b) := by
  rw [released_eq]
  exact List.Pairwise.map oneUp (fun _ _ => oneUp_le) (h.sublist (List.eraseIdx_sublist ws b))

/-- A newcomer at the end has no credit. -/
theorem Graded.concat {ws : List (Int × Int)} (h : Graded ws) (hc : ∀ w ∈ ws, 0 ≤ w.2)
    (pid : Int) : Graded (ws ++ [(pid, 0)]) := by
  refine List.pairwise_append.mpr ⟨h, List.pairwise_singleton _ _, fun w hw w' hw' => ?_⟩
  rw [List.mem_singleton] at hw'
  subst hw'
  exact hc w hw

namespace Kernel

variable {k : Kernel}

/-- A property of the single queues that is kept when they shrink is kept by
every semaphore call but `sem_wait`. -/
theorem semClosed_waiting {Q : Fin maxSemaphores → List (Int × Int) → Prop} (hnil : ∀ n, Q n [])
    (hremove : ∀ n ws pid, Q n ws → Q n (removePid ws pid))
    (hrelease : ∀ n ws b, Q n ws → Q n (released ws b)) :
    SemClosed fun T => ∀ n, Q n (T n).waiting := by
  have hmodify : ∀ (k : Kernel) i (f : Semaphore → Semaphore),
      Q i (f (k.semTable i)).waiting → (∀ n, Q n (k.semTable n).waiting) →
      ∀ n, Q n ((k.modifySem i f).semTable n).waiting := by
    intro k i f hf h n
    rw [modifySem_semTable]
    split
    · rename_i hn
      exact hn ▸ hf
    · exact h n
  have hunblock : ∀ (k : Kernel) i, (∀ n, Q n (k.semTable n).waiting) →
      ∀ n, Q n ((k.unblockOneWaiter i).semTable n).waiting := by
    intro k i h
    rw [unblockOneWaiter_eq]
    split
    · exact hmodify k i _ (hnil i) h
    · rename_i b _
      exact hmodify k i (fun m => m.setWaiting (released m.waiting b)) (hrelease i _ b (h i)) h
  refine ⟨fun k name v h => ?_, fun k semId h => ?_, fun k semId h => ?_, fun k semId h => ?_,
    fun k pid h n => ?_⟩
  · unfold semOpen
    split
    · rename_i i _
      exact hmodify k i (fun s => { s with refCount := s.refCount + 1 }) (h i) h
    · split
      · exact h
      · rename_i i _
        exact hmodify k i (fun _ => ⟨name, v, [], true, 1⟩) (hnil i) h
  · simp only [semPost]
    split
    · exact h
    · rename_i i _
      have h1 := hmodify k i (fun s => s.addValue 1) (h i) h
      split
      · exact hunblock _ i h1
      · exact h1
  · have hloop : ∀ i m (k : Kernel), (∀ n, Q n (k.semTable n).waiting) →
        ∀ n, Q n ((postAllLoop i m k).semTable n).waiting := by
      intro i m
      induction m with
      | zero => exact fun _ h => h
      | succ m ih =>
          intro k h
          simp only [postAllLoop]
          split
          · exact h
          · exact ih _ (hunblock _ i (hmodify k i (fun s => s.addValue 1) (h i) h))
    simp only [semPostAll]
    split
    · exact h
    · rename_i i _
      have h1 := hloop i (k.semTable i).waiting.length k h
      split
      · exact hmodify _ i (fun s => { s with value := 0 }) (h1 i) h1
      · exact h1
  · simp only [semClose]
    split
    · exact h
    · rename_i i _
      have h1 := hmodify k i (fun s => { s with refCount := s.refCount - 1 }) (h i) h
      split
      · exact hmodify _ i (fun s => { s with active := false, waiting := [] }) (hnil i) h1
      · exact h1
  · simp only [semRemoveWaitingPid]
    split
    · exact hremove n _ pid (h n)
    · exact h n

/-- What `sem_wait` leaves of a property that also admits the newcomer. -/
theorem semWait_waiting {Q : Fin maxSemaphores → List (Int × Int) → Prop}
    (h : ∀ n, Q n (k.semTable n).waiting)
    (hremove : ∀ n, Q n (removePid (k.semTable n).waiting k.sched.schedulerGetpid))
    (hpark : ∀ n, Q n (removePid (k.semTable n).waiting k.sched.schedulerGetpid
      ++ [(k.sched.schedulerGetpid, 0)])) (semId : Int) :
    ∀ n, Q n ((k.semWait semId).1.semTable n).waiting := by
  have hmodify : ∀ i (f : Semaphore → Semaphore), Q i (f (k.semTable i)).waiting →
      ∀ n, Q n ((k.modifySem i f).semTable n).waiting := by
    intro i f hf n
    rw [modifySem_semTable]
    split
    · rename_i hn
      exact hn ▸ hf
    · exact h n
  have hcases := k.semWait_cases semId
  generalize k.semWait semId = r at hcases
  cases hcases with
  | refused _ => exact h
  | takes i _ _ => exact hmodify i (fun m => m.addValue (-1)) (h i)
  | full i _ _ _ => exact hmodify i (fun m => m.setWaiting (removePid m.waiting _)) (hremove i)
  | parks i _ _ _ => exact hmodify i (fun m => m.park _) (hpark i)

/-- Every queue is graded. -/
def GradedTable (T : Fin maxSemaphores → Semaphore) : Prop := ∀ n, Graded (T n).waiting

theorem gradedTable_closed : SemClosed GradedTable :=
  semClosed_waiting (Q := fun _ ws => Graded ws) (fun _ => List.Pairwise.nil)
    (fun _ _ _ h => h.sublist List.filter_sublist) (fun _ _ b h => h.released b)

theorem exec_graded (h : GradedTable k.semTable) (hm : SaneTable k.semTable) (op : Op) :
    GradedTable (k.exec op).semTable := by
  refine exec_semTable gradedTable_closed h op fun _ semId => ?_
  refine semWait_waiting (Q := fun _ ws => Graded ws) h (fun n => ?_) (fun n => ?_) semId
  · exact (h n).sublist List.filter_sublist
  · refine ((h n).sublist List.filter_sublist).concat (fun w hw => ?_) _
    exact ((hm n).credit w (List.mem_of_mem_filter hw)).1

/-- What holds of the queues and their processes in every run. -/
structure Lineup (k : Kernel) : Prop where
  sound : Sound k
  ranked : k.Ranked
  sane : SaneTable k.semTable
  graded : GradedTable k.semTable

theorem Lineup.step {l : QueueLabel} {k' : Kernel} (h : Lineup k) (hg : queueMachine.guard k l)
    (hstep : queueMachine.step k l = some k') : Lineup k' := by
  obtain ⟨hs, hr, hm⟩ := queueMachine_step h.sound h.ranked h.sane hg hstep
  refine ⟨hs, hr, hm, ?_⟩
  cases l with
  | piece op =>
      obtain rfl := Option.some.inj hstep
      exact exec_graded h.graded h.sane op
  | withdraw pid =>
      obtain rfl := Option.some.inj hstep
      exact gradedTable_closed.removes k pid h.graded

theorem reach_lineup {idleStack : Nat} (h : queueMachine.Reach (init idleStack) k) : Lineup k := by
  refine h.invariant (I := Lineup) ⟨init_sound _, init_ranked _, fun _ => .of_nil rfl, fun _ => ?_⟩ ?_
  · exact List.Pairwise.nil
  · exact fun _ _ _ hi hg hs => hi.step hg hs

/-! ### Who is ahead -/

/-- The process is blocked and stands in the queue. -/
def WaitsOn (k : Kernel) (i : Fin maxSemaphores) (pid : Int) : Prop :=
  pid ∈ k.queue i ∧ k.Asleep pid

instance (k : Kernel) (i : Fin maxSemaphores) (pid : Int) : Decidable (k.WaitsOn i pid) :=
  inferInstanceAs (Decidable (_ ∧ _))

/-- The first process has at least the priority of the second. -/
def Outranks (k : Kernel) (a b : Int) : Prop :=
  ∀ ja jb, (k.life ja).pid = a → (k.life jb).pid = b →
    (k.life jb).priority ≤ (k.life ja).priority

instance (k : Kernel) (a b : Int) : Decidable (k.Outranks a b) :=
  inferInstanceAs (Decidable (∀ _ _, _ → _ → _))

/-- Order is kept when a list without repetition shrinks. -/
theorem ahead_of_sublist {l l' : List Int} {a b : Int} (hnd : l.Nodup) (hs : l'.Sublist l)
    (hab : [a, b].Sublist l) (ha : a ∈ l') (hb : b ∈ l') : [a, b].Sublist l' := by
  induction hs with
  | slnil => exact absurd ha List.not_mem_nil
  | @cons l₁ l₂ x hs ih =>
      obtain ⟨hx, hnd⟩ := List.nodup_cons.mp hnd
      rcases List.sublist_cons_iff.mp hab with hab | ⟨r, hr, -⟩
      · exact ih hnd hab ha hb
      · obtain ⟨rfl, -⟩ := List.cons.inj hr
        exact absurd (hs.subset ha) hx
  | @cons_cons l₁ l₂ x hs ih =>
      obtain ⟨hx, hnd⟩ := List.nodup_cons.mp hnd
      have hmem : ∀ y, y ∈ l₂ → y ∈ x :: l₁ → y ∈ l₁ := by
        intro y hy hy'
        rcases List.mem_cons.mp hy' with rfl | hy'
        · exact absurd hy hx
        · exact hy'
      rcases List.sublist_cons_iff.mp hab with hab | ⟨r, hr, hrl⟩
      · have ha₂ : a ∈ l₂ := hab.subset (by simp)
        have hb₂ : b ∈ l₂ := hab.subset (by simp)
        exact (ih hnd hab (hmem a ha₂ ha) (hmem b hb₂ hb)).cons x
      · obtain ⟨rfl, rfl⟩ := List.cons.inj hr
        have hb₂ : b ∈ l₂ := hrl.subset (by simp)
        exact (List.singleton_sublist.mpr (hmem b hb₂ hb)).cons_cons a

/-- A queue between two rounds of posting. -/
structure Row (k : Kernel) (i : Fin maxSemaphores) : Prop where
  active : (k.semTable i).active = true
  distinct : k.Distinct
  ranked : k.Ranked
  nodup : (k.queue i).Nodup
  positive : ∀ w ∈ (k.semTable i).waiting, 0 < w.1 ∧ 0 ≤ w.2
  graded : Graded (k.semTable i).waiting

/-- `a` and `b` wait, `a` in front and with at least the priority of `b`. -/
structure Behind (k : Kernel) (i : Fin maxSemaphores) (a b : Int) : Prop where
  ahead : [a, b].Sublist (k.queue i)
  asleep : k.Asleep a
  asleep' : k.Asleep b
  outranks : k.Outranks a b

variable {i : Fin maxSemaphores} {a b : Int}

theorem Behind.front (h : Behind k i a b) : a ∈ k.queue i := h.ahead.subset (by simp)

theorem Behind.back (h : Behind k i a b) : b ∈ k.queue i := h.ahead.subset (by simp)

theorem Lineup.row (h : Lineup k) (hact : (k.semTable i).active = true) : Row k i :=
  ⟨hact, h.sound.pids.distinct, h.ranked, (h.sane i).nodup,
    fun w hw => ⟨(h.sane i).positive w hw, ((h.sane i).credit w hw).1⟩, h.graded i⟩

/-- Whoever stands in a queue is a process other than idle. -/
theorem Lineup.pos_of_mem (h : Lineup k) (ha : a ∈ k.queue i) : 0 < a := by
  obtain ⟨w, hw, rfl⟩ := List.mem_map.mp ha
  exact (h.sane i).positive w hw

/-- A post finds the value negative if somebody waits. -/
theorem Lineup.value_neg (h : Lineup k) (ha : a ∈ k.queue i) : (k.semTable i).value < 0 := by
  refine (h.sane i).neg_of_ne fun hnil => ?_
  unfold queue at ha
  rw [hnil] at ha
  exact absurd ha List.not_mem_nil

theorem addValue_queue (k : Kernel) (i : Fin maxSemaphores) (d : Int) :
    (k.modifySem i fun m => m.addValue d).queue i = k.queue i := by
  unfold queue
  rw [modifySem_self]
  rfl

theorem Row.addValue (h : Row k i) (d : Int) : Row (k.modifySem i fun m => m.addValue d) i := by
  have hw : ((k.modifySem i fun m => m.addValue d).semTable i).waiting
      = (k.semTable i).waiting := by
    rw [modifySem_self]
    rfl
  refine ⟨?_, h.distinct, h.ranked, ?_, ?_, ?_⟩
  · rw [modifySem_self]
    exact h.active
  · rw [addValue_queue]
    exact h.nodup
  · rw [hw]
    exact h.positive
  · rw [hw]
    exact h.graded

theorem Behind.addValue (h : Behind k i a b) (d : Int) :
    Behind (k.modifySem i fun m => m.addValue d) i a b := by
  refine ⟨?_, h.asleep, h.asleep', h.outranks⟩
  rw [addValue_queue]
  exact h.ahead

/-- A blocked process takes part in the choice. -/
theorem Row.hasScore (h : Row k i) {w : Int × Int} (hw : w ∈ (k.semTable i).waiting) {j : Slot}
    (hpid : (k.life j).pid = w.1) (hb : (k.life j).state = .blocked) :
    HasScore k.sched w ((k.life j).priority + w.2) := by
  have hfind := h.distinct.find_eq (hpid ▸ (h.positive w hw).1) (by rw [hb]; rintro ⟨⟩)
  rw [hpid] at hfind
  exact ⟨j, hfind, hb, rfl⟩

/-- **A waiter behind one of at least its priority is not chosen.** -/
theorem Row.not_chosen (h : Row k i) (hab : [a, b].Sublist (k.queue i)) (ha : k.Asleep a)
    (hout : k.Outranks a b) {r : Nat}
    (hr : bestWaiter k.sched (k.semTable i).waiting 0 none (-1) = some r) :
    ((k.semTable i).waiting.getD r (0, 0)).1 ≠ b := by
  intro hchosen
  obtain ⟨n, t, hrn, -, ⟨w, hget, hscore⟩, hfirst⟩ :=
    (bestWaiter_first hr).resolve_left fun h => by cases h
  rw [Nat.zero_add] at hrn
  subst hrn
  rw [List.getD_eq_getElem?_getD, hget] at hchosen
  simp only [Option.getD_some] at hchosen
  -- the queue is split at the waiter chosen; `a` stands in its first part
  obtain ⟨hlt, hgetE⟩ := List.getElem?_eq_some_iff.mp hget
  have hsplit : (k.semTable i).waiting
      = (k.semTable i).waiting.take r ++ w :: (k.semTable i).waiting.drop (r + 1) := by
    rw [← hgetE, List.cons_getElem_drop_succ, List.take_append_drop]
  have hnd := h.nodup
  have hahead := hab
  have hgraded := h.graded
  have hmemA : a ∈ k.queue i := hab.subset (by simp)
  unfold queue at hnd hahead hmemA
  rw [hsplit] at hnd hahead hgraded hmemA
  rw [List.map_append, List.map_cons, hchosen] at hnd hahead hmemA
  have hfront : a ∈ ((k.semTable i).waiting.take r).map Prod.fst := by
    by_contra hnot
    have hrest := (List.mem_append.mp hmemA).resolve_left hnot
    have hsub := ahead_of_sublist hnd (List.sublist_append_right _ _) hahead hrest
      (List.mem_cons_self ..)
    have hnd' := List.nodup_cons.mp (hnd.sublist (List.sublist_append_right _ _))
    rcases List.sublist_cons_iff.mp hsub with hsub | ⟨s, hs, hsub⟩
    · exact hnd'.1 (hsub.subset (by simp))
    · obtain ⟨-, rfl⟩ := List.cons.inj hs
      exact hnd'.1 (hsub.subset (by simp))
  obtain ⟨wa, hwa, hwafst⟩ := List.mem_map.mp hfront
  -- it has at least the credit and at least the priority
  have hcredit : w.2 ≤ wa.2 := (List.pairwise_append.mp hgraded).2.2 wa hwa w (List.mem_cons_self ..)
  obtain ⟨ja, hja, hblocked⟩ := ha
  obtain ⟨jb, hjb, -, hscoreb⟩ := hscore
  have hprio := hout ja jb hja ((Sched.findIndexByPid_some hjb).1.trans hchosen)
  have hscorea := h.hasScore (List.mem_of_mem_take hwa) (hja.trans hwafst.symm) hblocked
  have hlt' := hfirst wa hwa _ hscorea
  have hpb : (k.life jb).priority + w.2 = t := hscoreb
  omega

/-- **One round of posting leaves the later of the two asleep** in the queue. -/
theorem Row.round (h : Row k i) (hb : Behind k i a b) : (k.unblockOneWaiter i).WaitsOn i b := by
  rw [unblockOneWaiter_eq]
  rcases hr : bestWaiter k.sched (k.semTable i).waiting 0 none (-1) with - | r
  · obtain ⟨w, hw, hfst⟩ := List.mem_map.mp hb.front
    obtain ⟨hpos, hcr⟩ := h.positive w hw
    exact absurd (eligible_of_asleep h.distinct h.ranked hpos hcr (hfst ▸ hb.asleep))
      (bestWaiter_eq_none.mp hr w hw)
  · have hne := h.not_chosen hb.ahead hb.asleep hb.outranks hr
    obtain ⟨n, hn, hlt, -⟩ := (bestWaiter_some hr).resolve_left fun h => by cases h
    rw [Nat.zero_add] at hn
    subst hn
    constructor
    · show b ∈ ((k.grant i r).semTable i).waiting.map Prod.fst
      rw [grant_semTable, Semaphore.setWaiting_waiting, map_fst_released, List.mem_eraseIdx_iff_getElem]
      obtain ⟨m, hm, hget⟩ := List.mem_iff_getElem.mp hb.back
      refine ⟨m, hm, ?_, hget⟩
      rintro rfl
      apply hne
      rw [List.getD_eq_getElem _ _ hlt, ← hget]
      exact (List.getElem_map _).symm
    · obtain ⟨j, hpid, hbl⟩ := hb.asleep'
      have hl : (k.sched.schedulerUnblock ((k.semTable i).waiting.getD r (0, 0)).1).life j
          = k.life j := unblock_life (by rw [hpid]; exact hne.symm)
      exact ⟨j, (congrArg Life.pid hl).trans hpid, (congrArg Life.state hl).trans hbl⟩

/-- Posting adds nobody to the queue. -/
theorem unblockOneWaiter_queue (k : Kernel) (i : Fin maxSemaphores) :
    ((k.unblockOneWaiter i).queue i).Sublist (k.queue i) := by
  unfold queue
  rw [unblockOneWaiter_eq]
  split
  · rw [modifySem_self]
    exact List.nil_sublist _
  · rename_i r _
    show (((k.grant i r).semTable i).waiting.map Prod.fst).Sublist _
    rw [grant_semTable, Semaphore.setWaiting_waiting, map_fst_released]
    exact List.eraseIdx_sublist _ _

theorem postAllLoop_queue (i : Fin maxSemaphores) (n : Nat) (k : Kernel) :
    ((postAllLoop i n k).queue i).Sublist (k.queue i) := by
  induction n generalizing k with
  | zero => exact List.Sublist.refl _
  | succ n ih =>
      simp only [postAllLoop]
      split
      · exact List.Sublist.refl _
      · exact (ih _).trans (addValue_queue k i 1 ▸ unblockOneWaiter_queue _ i)

/-- Nobody is put to sleep by waking others. -/
theorem asleep_of_releases {k' : Kernel} (h : Releases k k') {pid : Int} (ha : k'.Asleep pid) :
    k.Asleep pid := by
  obtain ⟨j, hpid, hb⟩ := ha
  rcases h.wakes.life j with hl | ⟨-, -, hl⟩
  · have hl' : k'.life j = k.life j := hl
    exact ⟨j, hl' ▸ hpid, hl' ▸ hb⟩
  · have hl' : k'.life j = (k.life j).setState .ready := hl
    rw [hl'] at hb
    cases hb

theorem outranks_of_releases {k' : Kernel} (h : Releases k k') (ho : k.Outranks a b) :
    k'.Outranks a b := by
  intro ja jb hja hjb
  have hprio : ∀ j, (k'.life j).priority = (k.life j).priority := fun j =>
    h.wakes.field j (fun p => p.life.priority) fun _ => rfl
  rw [hprio, hprio]
  exact ho ja jb ((h.pid ja).symm.trans hja) ((h.pid jb).symm.trans hjb)

theorem Row.unblock (h : Row k i) : Row (k.unblockOneWaiter i) i := by
  have hrel : Releases k (k.unblockOneWaiter i) := .single (k.unblockOneWaiter_release h.active)
  refine ⟨(k.unblockOneWaiter_active i i).trans h.active, h.distinct.of_pid hrel.pid,
    Releases.ranked hrel h.ranked, h.nodup.sublist (k.unblockOneWaiter_queue i), ?_, ?_⟩
  · rw [unblockOneWaiter_eq]
    split
    · rw [modifySem_self]
      exact fun w hw => absurd hw List.not_mem_nil
    · rename_i r _
      show ∀ w ∈ ((k.grant i r).semTable i).waiting, _
      rw [grant_semTable, Semaphore.setWaiting_waiting]
      intro w hw
      obtain ⟨w₀, hw₀, hfst, hsnd⟩ := mem_released hw
      obtain ⟨hpos, hcr⟩ := h.positive w₀ hw₀
      exact ⟨hfst ▸ hpos, by omega⟩
  · rw [unblockOneWaiter_eq]
    split
    · rw [modifySem_self]
      exact List.Pairwise.nil
    · rename_i r _
      show Graded ((k.grant i r).semTable i).waiting
      rw [grant_semTable, Semaphore.setWaiting_waiting]
      exact h.graded.released r

/-- The two keep their order while both wait. -/
theorem Row.behind_round (h : Row k i) (hb : Behind k i a b)
    (ha : (k.unblockOneWaiter i).WaitsOn i a) : Behind (k.unblockOneWaiter i) i a b := by
  have hrel : Releases k (k.unblockOneWaiter i) := .single (k.unblockOneWaiter_release h.active)
  have hwait := h.round hb
  exact ⟨ahead_of_sublist h.nodup (k.unblockOneWaiter_queue i) hb.ahead ha.1 hwait.1, ha.2,
    hwait.2, outranks_of_releases hrel hb.outranks⟩

/-- **`sem_post_all` wakes the earlier of the two first**: after any number of
its rounds the later one is asleep in the queue if the earlier one is. -/
theorem postAllLoop_behind (n : Nat) (h : Row k i) (hb : Behind k i a b)
    (ha : (postAllLoop i n k).WaitsOn i a) : (postAllLoop i n k).WaitsOn i b := by
  induction n generalizing k with
  | zero => exact ⟨hb.back, hb.asleep'⟩
  | succ n ih =>
      simp only [postAllLoop] at ha ⊢
      split at ha
      · rename_i hnil
        rw [if_pos hnil]
        exact ⟨hb.back, hb.asleep'⟩
      · rename_i hne
        rw [if_neg hne]
        have h1 := (h.addValue 1).unblock
        -- whoever waits after further rounds waits after this one
        have ha1 : ((k.modifySem i fun m => m.addValue 1).unblockOneWaiter i).WaitsOn i a :=
          ⟨(postAllLoop_queue i n _).subset ha.1,
            asleep_of_releases (postAllLoop_releases _ n h1.active) ha.2⟩
        exact ih h1 ((h.addValue 1).behind_round (hb.addValue 1) ha1) ha

/-- **`sem_post` does not wake the later of the two.** -/
theorem semPost_behind (h : Row k i) (hv : (k.semTable i).value < 0) (hb : Behind k i a b) :
    (k.semPost i.val).1.WaitsOn i b := by
  rw [semPost_eq (validSem_of_active h.active) hv]
  exact (h.addValue 1).round (hb.addValue 1)

/-! ### Runs -/

/-- A process that may have to wait is a running one. -/
def Proper (k : Kernel) : QueueLabel → Prop
  | .piece op => MayWait op → (k.life k.sched.currentIdx).state = .running
  | .withdraw _ => True

instance (k : Kernel) : DecidablePred k.Proper
  | .piece op =>
      inferInstanceAs (Decidable (MayWait op → (k.life k.sched.currentIdx).state = .running))
  | .withdraw _ => inferInstanceAs (Decidable True)

theorem map_fst_removePid (ws : List (Int × Int)) (pid : Int) :
    (removePid ws pid).map Prod.fst = (ws.map Prod.fst).filter (· ≠ pid) := by
  rw [List.filter_map]
  rfl

/-- What a step leaves of a queue: some of it, and perhaps the current process
behind it. -/
theorem queue_step {l : QueueLabel} {k' : Kernel} (hstep : queueMachine.step k l = some k')
    (i : Fin maxSemaphores) :
    (k'.queue i).Sublist (k.queue i) ∨
      ((∃ op, l = .piece op ∧ MayWait op) ∧ (k'.queue i).Sublist
        ((k.queue i).filter (· ≠ k.sched.schedulerGetpid) ++ [k.sched.schedulerGetpid])) := by
  cases l with
  | withdraw pid =>
      obtain rfl := Option.some.inj hstep
      left
      unfold queue
      simp only [semRemoveWaitingPid]
      split
      · exact removePid_sublist _ pid
      · exact List.Sublist.refl _
  | piece op =>
      obtain rfl := Option.some.inj hstep
      have hclosed : SemClosed fun T => ∀ n, n = i →
          (((T n).waiting.map Prod.fst).Sublist (k.queue i) ∨ (MayWait op ∧
            ((T n).waiting.map Prod.fst).Sublist ((k.queue i).filter
              (· ≠ k.sched.schedulerGetpid) ++ [k.sched.schedulerGetpid]))) := by
        refine semClosed_waiting (Q := fun n ws => n = i → ((ws.map Prod.fst).Sublist (k.queue i) ∨
          (MayWait op ∧ (ws.map Prod.fst).Sublist ((k.queue i).filter
            (· ≠ k.sched.schedulerGetpid) ++ [k.sched.schedulerGetpid])))) ?_ ?_ ?_
        · exact fun n _ => .inl (List.nil_sublist _)
        · intro n ws pid h hn
          exact (h hn).imp (removePid_sublist ws pid).trans
            fun h => ⟨h.1, (removePid_sublist ws pid).trans h.2⟩
        · intro n ws r h hn
          rw [map_fst_released]
          exact (h hn).imp (List.eraseIdx_sublist _ r).trans
            fun h => ⟨h.1, (List.eraseIdx_sublist _ r).trans h.2⟩
      have hrun := exec_semTable hclosed (k := k) ?_ op ?_ i rfl
      · exact hrun.imp_right fun h => ⟨⟨op, rfl, h.1⟩, h.2⟩
      · rintro n rfl
        exact .inl (List.Sublist.refl _)
      · intro hmay semId
        refine semWait_waiting (Q := fun n ws => n = i → ((ws.map Prod.fst).Sublist (k.queue i) ∨
          (MayWait op ∧ (ws.map Prod.fst).Sublist ((k.queue i).filter
            (· ≠ k.sched.schedulerGetpid) ++ [k.sched.schedulerGetpid])))) ?_ ?_ ?_ semId
        · rintro n rfl
          exact .inl (List.Sublist.refl _)
        · rintro n rfl
          exact .inl (removePid_sublist _ _)
        · rintro n rfl
          rw [List.map_append, map_fst_removePid]
          exact .inr ⟨hmay, List.Sublist.refl _⟩

/-- A process that is asleep is not the one that runs. -/
theorem asleep_ne_running (hd : k.Distinct) {pid : Int} (hpos : 0 < pid) (ha : k.Asleep pid)
    (hrun : (k.life k.sched.currentIdx).state = .running) : pid ≠ k.sched.schedulerGetpid := by
  rintro rfl
  obtain ⟨j, hpid, hb⟩ := ha
  have hpid' : (k.life j).pid = (k.life k.sched.currentIdx).pid := hpid
  obtain rfl := hd j k.sched.currentIdx hpid' (hpid ▸ hpos)
  rw [hb] at hrun
  cases hrun

/-- Nobody gets in front of a process that is asleep in the queue. -/
theorem ahead_step {l : QueueLabel} {k' : Kernel} (h : Lineup k) (hp : k.Proper l)
    (ha : k.WaitsOn i a) (hstep : queueMachine.step k l = some k')
    (hab : b ∈ k.queue i → [a, b].Sublist (k.queue i)) (ha' : a ∈ k'.queue i)
    (hb' : b ∈ k'.queue i) : [a, b].Sublist (k'.queue i) := by
  have hnd : (k.queue i).Nodup := (h.sane i).nodup
  rcases queue_step hstep i with hsub | ⟨⟨op, rfl, hmay⟩, hsub⟩
  · exact ahead_of_sublist hnd hsub (hab (hsub.subset hb')) ha' hb'
  · have hne := asleep_ne_running h.sound.pids.distinct (h.pos_of_mem ha.1) ha.2 (hp hmay)
    generalize k.sched.schedulerGetpid = c at hsub hne
    have hmem : a ∈ (k.queue i).filter (· ≠ c) := List.mem_filter.mpr ⟨ha.1, by simpa using hne⟩
    have hnd' : ((k.queue i).filter (· ≠ c) ++ [c]).Nodup := by
      refine List.nodup_append.mpr ⟨hnd.sublist List.filter_sublist, by simp, ?_⟩
      rintro x hx y hy rfl
      rw [List.mem_singleton] at hy
      simp [hy] at hx
    refine ahead_of_sublist hnd' hsub ?_ ha' hb'
    rcases List.mem_append.mp (hsub.subset hb') with hbq | hbc
    · have hbk := List.mem_of_mem_filter hbq
      exact (ahead_of_sublist hnd List.filter_sublist (hab hbk) hmem hbq).trans
        (List.sublist_append_left _ _)
    · rw [List.mem_singleton] at hbc
      subst hbc
      exact (List.singleton_sublist.mpr hmem).append (List.Sublist.refl [b])

/-- **No overtaking by a waiter of equal or lower priority.**  From a state in
which `b` is not in the queue, for as long as `a` waits, and whatever the
processes do, a post that finds `b` waiting with at most the priority of `a` serves somebody
else, and `sem_post_all` serves `b` in none of its rounds before `a`. -/
theorem no_overtaking {idleStack : Nat} {k₁ : Kernel}
    (h₁ : queueMachine.Reach (init idleStack) k₁) (hb₁ : b ∉ k₁.queue i)
    (h : (queueMachine.restrict fun k l => k.Proper l ∧ k.WaitsOn i a).Reach k₁ k)
    (hact : (k.semTable i).active = true) (ha : k.WaitsOn i a) (hb : k.WaitsOn i b)
    (hprio : k.Outranks a b) :
    ServesWaiter k (k.semPost i.val).1 i ∧ (k.semPost i.val).1.WaitsOn i b ∧
      ∀ n, (postAllLoop i n k).WaitsOn i a → (postAllLoop i n k).WaitsOn i b := by
  have hinv : Lineup k ∧ (a ∈ k.queue i → b ∈ k.queue i → [a, b].Sublist (k.queue i)) := by
    refine h.invariant (I := fun k => Lineup k ∧
      (a ∈ k.queue i → b ∈ k.queue i → [a, b].Sublist (k.queue i)))
      ⟨reach_lineup h₁, fun _ hmem => absurd hmem hb₁⟩ ?_
    rintro k l k' ⟨hl, hab⟩ ⟨hg, hp, hwa⟩ hs
    exact ⟨hl.step hg hs, fun ha' hb' => ahead_step hl hp hwa hs (hab hwa.1) ha' hb'⟩
  obtain ⟨hl, hab⟩ := hinv
  have hrow := hl.row hact
  have hbehind : Behind k i a b := ⟨hab ha.1 hb.1, ha.2, hb.2, hprio⟩
  have hv := hl.value_neg ha.1
  refine ⟨?_, semPost_behind hrow hv hbehind, fun n => postAllLoop_behind n hrow hbehind⟩
  obtain ⟨w, hw, hfst⟩ := List.mem_map.mp ha.1
  exact semPost_serves hl.sound.pids hl.ranked (validSem_of_active hact) hv hrow.positive
    ⟨w, hw, hfst ▸ ha.2⟩

/-- Two processes of one priority. -/
theorem no_overtaking_pair : ∃ k₁ k : Kernel, queueMachine.Reach (init 1000) k₁ ∧
    k₁.WaitsOn 0 1 ∧ 2 ∉ k₁.queue 0 ∧
    (queueMachine.restrict fun k l => k.Proper l ∧ k.WaitsOn 0 1).Reach k₁ k ∧
    k.WaitsOn 0 1 ∧ k.WaitsOn 0 2 ∧ k.Outranks 1 2 ∧ ServesWaiter k (k.semPost 0).1 0 ∧
    (k.semPost 0).1.WaitsOn 0 2 := by
  obtain ⟨k₁, k, h₁, ⟨ha₁, hb₁⟩, h, hact, ha, hb, hprio⟩ := Machine.exists_reach_of_traces
    (T := queueMachine) (s := init 1000)
    (queueMachine.restrict fun k l => k.Proper l ∧ k.WaitsOn 0 1) id
    [.piece (.create [115] 3 1 5000), .piece (.tick 0), .piece (.semOpen [109] 0),
      .piece (.create [99] 3 0 9000), .piece (.semWait 0)]
    [.piece (.tick 0), .piece (.semWait 0)]
    (P := fun k => k.WaitsOn 0 1 ∧ 2 ∉ k.queue 0)
    (Q := fun k => (k.semTable 0).active = true ∧ k.WaitsOn 0 1 ∧ k.WaitsOn 0 2 ∧ k.Outranks 1 2)
    (by decide +kernel)
  obtain ⟨hserves, hwaits, -⟩ := no_overtaking h₁ hb₁ h hact ha hb hprio
  exact ⟨k₁, k, h₁, ha₁, hb₁, h, ha, hb, hprio, hserves, hwaits⟩

/-! ### How often a waiter is passed over -/

/-- What happens while the process `w` waits on the semaphore `i`: waits, posts,
and the timer.  A process that comes to wait there has at most the priority of
`w`. -/
def Contends (i : Fin maxSemaphores) (w : Int) (k : Kernel) : Op → Prop
  | .semWait semId =>
      k.sched.currentIdx ≠ 0 ∧ (k.life k.sched.currentIdx).state = .running ∧
        (semId = i.val → k.Outranks w k.sched.schedulerGetpid)
  | .semPost _ | .semOpen .. | .yield | .tick _ => True
  | _ => False

instance (i : Fin maxSemaphores) (w : Int) (k : Kernel) : DecidablePred (Contends i w k) := fun op => by
  induction op using Op.casesOn <;> dsimp only [Contends] <;> infer_instance

/-- The kernel, how often the process has been passed over, and who has entered
the queue since. -/
structure Watch where
  kernel : Kernel
  passes : Nat
  entered : List Int

/-- One piece of code, watched. -/
def watch (i : Fin maxSemaphores) (w : Int) (s : Watch) (op : Op) : Watch :=
  let k := s.kernel.exec op
  match op with
  | .semPost semId =>
      if semId = i.val ∧ k.WaitsOn i w then ⟨k, s.passes + 1, s.entered⟩
      else ⟨k, s.passes, s.entered⟩
  | .semWait semId =>
      if semId = i.val ∧ (s.kernel.semWait semId).2 = 1 then
        ⟨k, s.passes, s.kernel.sched.schedulerGetpid :: s.entered⟩
      else ⟨k, s.passes, s.entered⟩
  | _ => ⟨k, s.passes, s.entered⟩

/-- The runs during which the process waits. -/
def watchMachine (i : Fin maxSemaphores) (w : Int) : Machine Watch Op where
  guard := fun s op => s.kernel.WaitsOn i w ∧ Contends i w s.kernel op
  step := fun s op => some (watch i w s op)

instance (i : Fin maxSemaphores) (w : Int) (s : Watch) :
    DecidablePred ((watchMachine i w).guard s) :=
  fun op => inferInstanceAs (Decidable (s.kernel.WaitsOn i w ∧ Contends i w s.kernel op))

theorem watch_kernel (i : Fin maxSemaphores) (w : Int) (s : Watch) (op : Op) :
    (watch i w s op).kernel = s.kernel.exec op := by
  simp only [watch]
  split
  · split <;> rfl
  · split <;> rfl
  · rfl

/-- The queue is made of an old part, in which `w` stands and which only
shrinks, and of newcomers that `w` outranks.  Every time `w` is passed over the
old part loses one. -/
structure Parted (k : Kernel) (i : Fin maxSemaphores) (w : Int) (passes : Nat)
    (entered : List Int) (bound : Nat) (xs ys : List Int) : Prop where
  queue : k.queue i = xs ++ ys
  mem : w ∈ xs
  outranks : ∀ y ∈ ys, k.Outranks w y
  newcomers : ∀ e ∈ entered, e ∉ xs
  bounded : passes + xs.length ≤ bound

/-- What holds of the queue while it is watched. -/
structure Watched (i : Fin maxSemaphores) (w : Int) (bound : Nat) (s : Watch) : Prop where
  lineup : Lineup s.kernel
  active : (s.kernel.semTable i).active = true
  parted : w ∈ s.kernel.queue i →
    ∃ xs ys, Parted s.kernel i w s.passes s.entered bound xs ys

variable {w : Int} {bound : Nat} {s : Watch}

theorem Contends.exec_active {op : Op} (hop : Contends i w k op)
    (hact : (k.semTable i).active = true) : ((k.exec op).semTable i).active = true := by
  cases op with
  | semWait semId => exact (Semaphore.active_of_entry (k.semWait_entry i semId)).trans hact
  | semPost semId => exact (Semaphore.active_of_entry (k.semPost_entry i semId)).trans hact
  | semOpen name v =>
      show ((k.semOpen name v).1.semTable i).active = true
      unfold semOpen
      split
      · exact (k.modifySem_field _ i (g := Semaphore.active)
          (f := fun s => { s with refCount := s.refCount + 1 }) fun _ => rfl).trans hact
      · split
        · exact hact
        · rw [modifySem_semTable]
          split
          · rfl
          · exact hact
  | yield => exact hact
  | tick _ => exact hact
  | _ => exact hop.elim

/-- Nobody changes its pid or its priority. -/
theorem Contends.standing (h : Sound k) {op : Op} (hop : Contends i w k op) (j : Slot) :
    ((k.exec op).life j).pid = (k.life j).pid ∧
      ((k.exec op).life j).priority = (k.life j).priority := by
  have hstep := k.exec_lifeStep h.ordered op j
  generalize (k.exec op).life j = l at hstep
  cases hstep with
  | creates => exact hop.elim
  | renices => exact hop.elim
  | reaps => exact hop.elim
  | releases ht hb hw =>
      unfold Life.woken
      rw [if_pos ⟨hb, hw⟩]
      exact ⟨rfl, rfl⟩
  | _ => exact ⟨rfl, rfl⟩

theorem Contends.outranks (h : Sound k) {op : Op} (hop : Contends i w k op) {x y : Int}
    (ho : k.Outranks x y) : (k.exec op).Outranks x y := by
  intro jx jy hx hy
  rw [(hop.standing h jx).2, (hop.standing h jy).2]
  exact ho jx jy ((hop.standing h jx).1 ▸ hx) ((hop.standing h jy).1 ▸ hy)

theorem Contends.queueMachine_guard {op : Op} (hop : Contends i w k op) :
    queueMachine.guard k (.piece op) := by
  intro hmay
  cases op with
  | semWait semId => exact hop.1
  | _ => first | exact hmay.elim | exact hop.elim

/-- A queue of which some is left. -/
theorem Parted.shrink {k' : Kernel} {xs ys : List Int} {p : Nat} {es : List Int}
    (h : Parted k i w p es bound xs ys) (hnd : (k.queue i).Nodup)
    (hsub : (k'.queue i).Sublist (k.queue i)) (hw : w ∈ k'.queue i)
    (ho : ∀ y, k.Outranks w y → k'.Outranks w y) :
    ∃ xs' ys', Parted k' i w p es bound xs' ys' := by
  rw [h.queue] at hsub hnd
  obtain ⟨xs', ys', hq, hx, hy⟩ := List.sublist_append_iff.mp hsub
  refine ⟨xs', ys', hq, ?_, fun y hmem => ho y (h.outranks y (hy.subset hmem)),
    fun e he hmem => h.newcomers e he (hx.subset hmem), ?_⟩
  · rw [hq] at hw
    refine (List.mem_append.mp hw).resolve_right fun hmem => ?_
    exact (List.nodup_append.mp hnd).2.2 w h.mem w (hy.subset hmem) rfl
  · have := hx.length_le
    have := h.bounded
    omega

/-- A waiter of the old part stands in front of every newcomer. -/
theorem Parted.ahead {xs ys : List Int} {p : Nat} {es : List Int}
    (h : Parted k i w p es bound xs ys) {y : Int} (hy : y ∈ ys) : [w, y].Sublist (k.queue i) := by
  rw [h.queue]
  exact (List.singleton_sublist.mpr h.mem).append (List.singleton_sublist.mpr hy)

/-- The waiter served is not a newcomer. -/
theorem Parted.served {xs ys : List Int} {p : Nat} {es : List Int} (hrow : Row k i)
    (ha : k.Asleep w) (h : Parted k i w p es bound xs ys)
    (hw : w ∈ (k.unblockOneWaiter i).queue i) :
    ∃ xs' ys', Parted (k.unblockOneWaiter i) i w (p + 1) es bound xs' ys' := by
  have hrel : Releases k (k.unblockOneWaiter i) :=
    .single (k.unblockOneWaiter_release hrow.active)
  have hnd := hrow.nodup
  rcases hr : bestWaiter k.sched (k.semTable i).waiting 0 none (-1) with - | r
  · have hnil : (k.unblockOneWaiter i).queue i = [] := by
      unfold Kernel.queue
      rw [unblockOneWaiter_eq, hr, modifySem_self]
      rfl
    rw [hnil] at hw
    exact absurd hw List.not_mem_nil
  · have hq : (k.unblockOneWaiter i).queue i = (k.queue i).eraseIdx r := by
      unfold Kernel.queue
      rw [unblockOneWaiter_eq, hr]
      show (((k.grant i r).semTable i).waiting.map Prod.fst) = _
      rw [grant_semTable, Semaphore.setWaiting_waiting, map_fst_released]
    obtain ⟨n, hn, hlt, -⟩ := (bestWaiter_some hr).resolve_left fun h => by cases h
    rw [Nat.zero_add] at hn
    subst hn
    -- the one chosen stands in the old part
    have hold : r < xs.length := by
      by_contra hge
      have hlen : r < (xs ++ ys).length := by
        rw [← h.queue]
        unfold Kernel.queue
        rw [List.length_map]
        exact hlt
      have hget : (xs ++ ys)[r] = ((k.semTable i).waiting.getD r (0, 0)).1 := by
        rw [List.getD_eq_getElem _ _ hlt]
        simp only [← h.queue]
        exact List.getElem_map _
      have hmem : (xs ++ ys)[r] ∈ ys := by
        rw [List.getElem_append_right (by omega)]
        exact List.getElem_mem _
      rw [hget] at hmem
      exact hrow.not_chosen (h.ahead hmem) ha (h.outranks _ hmem) hr rfl
    rw [hq, h.queue, List.eraseIdx_append_of_lt_length hold] at hw
    rw [h.queue] at hnd
    refine ⟨xs.eraseIdx r, ys, ?_, ?_, fun y hy => outranks_of_releases hrel (h.outranks y hy),
      fun e he hmem => h.newcomers e he (List.eraseIdx_subset hmem), ?_⟩
    · rw [hq, h.queue, List.eraseIdx_append_of_lt_length hold]
    · refine (List.mem_append.mp hw).resolve_right fun hmem => ?_
      exact (List.nodup_append.mp hnd).2.2 w h.mem w hmem rfl
    · have := h.bounded
      rw [List.length_eraseIdx_of_lt hold]
      omega

/-- What `sem_wait` does to a queue: the caller is put at its end, or nobody is
added. -/
theorem semWait_queue (k : Kernel) (semId : Int) (i : Fin maxSemaphores) :
    (semId = i.val ∧ (k.semWait semId).2 = 1 ∧ (k.semWait semId).1.queue i =
        (k.queue i).filter (· ≠ k.sched.schedulerGetpid) ++ [k.sched.schedulerGetpid]) ∨
      (¬ (semId = i.val ∧ (k.semWait semId).2 = 1) ∧
        ((k.semWait semId).1.queue i).Sublist (k.queue i)) := by
  have hother : ∀ n (f : Semaphore → Semaphore), ((f (k.semTable n)).waiting.map Prod.fst).Sublist
      (k.queue n) → ((k.modifySem n f).queue i).Sublist (k.queue i) := by
    intro n f hf
    unfold queue
    rw [modifySem_semTable]
    split
    · rename_i hn
      subst hn
      exact hf
    · exact List.Sublist.refl _
  have hcases := k.semWait_cases semId
  generalize k.semWait semId = r at hcases
  cases hcases with
  | refused _ => exact .inr ⟨fun h => absurd h.2 (by decide : (-1 : Int) ≠ 1), List.Sublist.refl _⟩
  | takes n _ _ =>
      exact .inr ⟨fun h => absurd h.2 (by decide : (0 : Int) ≠ 1),
        hother n (fun m => m.addValue (-1)) (List.Sublist.refl _)⟩
  | full n _ _ _ =>
      exact .inr ⟨fun h => absurd h.2 (by decide : (-1 : Int) ≠ 1),
        hother n (fun m => m.setWaiting (removePid m.waiting _)) (removePid_sublist _ _)⟩
  | parks n hn _ _ =>
      have hid := (k.validSem_some hn).2
      by_cases hni : n = i
      · subst hni
        refine .inl ⟨hid, rfl, ?_⟩
        show ((k.modifySem n fun m => m.park k.sched.schedulerGetpid).semTable n).waiting.map
          Prod.fst = _
        rw [modifySem_self]
        show (removePid (k.semTable n).waiting k.sched.schedulerGetpid
          ++ [(k.sched.schedulerGetpid, 0)]).map Prod.fst = _
        rw [List.map_append, map_fst_removePid]
        rfl
      · refine .inr ⟨?_, ?_⟩
        · rintro ⟨he, -⟩
          exact hni (Fin.ext (by have := hid.symm.trans he; omega))
        · show (((k.modifySem n fun m => m.park k.sched.schedulerGetpid).semTable i).waiting.map
            Prod.fst).Sublist _
          rw [modifySem_of_ne _ _ _ _ (Ne.symm hni)]
          exact List.Sublist.refl _

/-- A queue that a newcomer has entered. -/
theorem Parted.enter {k' : Kernel} {xs ys : List Int} {c : Int} {n : Nat} {es : List Int}
    (h : Parted k i w n es bound xs ys) (hne : w ≠ c)
    (hq : k'.queue i = (k.queue i).filter (· ≠ c) ++ [c])
    (ho : ∀ y, k.Outranks w y → k'.Outranks w y) (hc : k.Outranks w c) :
    ∃ xs' ys', Parted k' i w n (c :: es) bound xs' ys' := by
  refine ⟨xs.filter (· ≠ c), ys.filter (· ≠ c) ++ [c], ?_, ?_, fun y hy => ?_, fun e he hmem => ?_, ?_⟩
  · rw [hq, h.queue, List.filter_append, List.append_assoc]
  · exact List.mem_filter.mpr ⟨h.mem, by simpa using hne⟩
  · rcases List.mem_append.mp hy with hy | hy
    · exact ho y (h.outranks y (List.mem_of_mem_filter hy))
    · rw [List.mem_singleton] at hy
      exact hy ▸ ho c hc
  · obtain ⟨hmem, hec⟩ := List.mem_filter.mp hmem
    rcases List.mem_cons.mp he with rfl | he
    · simp at hec
    · exact h.newcomers e he hmem
  · have := List.length_filter_le (· ≠ c) xs
    have := h.bounded
    omega

/-- **Every step keeps the old part apart from the newcomers.** -/
theorem Watched.step (h : Watched i w bound s) {op : Op} (hw : s.kernel.WaitsOn i w)
    (hop : Contends i w s.kernel op) : Watched i w bound (watch i w s op) := by
  have hkernel := watch_kernel i w s op
  have hlineup : Lineup (s.kernel.exec op) := h.lineup.step hop.queueMachine_guard rfl
  refine ⟨hkernel ▸ hlineup, hkernel ▸ hop.exec_active h.active, fun hmem => ?_⟩
  obtain ⟨xs, ys, hp⟩ := h.parted hw.1
  have hnd : (s.kernel.queue i).Nodup := (h.lineup.sane i).nodup
  have ho : ∀ y, s.kernel.Outranks w y → (s.kernel.exec op).Outranks w y :=
    fun y => hop.outranks h.lineup.sound
  rw [hkernel] at hmem ⊢
  -- a piece that cannot wait only shortens the queue
  have hshort : ¬ MayWait op → ∃ xs' ys',
      Parted (s.kernel.exec op) i w s.passes s.entered bound xs' ys' := by
    intro hmay
    refine hp.shrink hnd ?_ hmem ho
    refine (queue_step (k := s.kernel) (l := .piece op) rfl i).resolve_right ?_
    rintro ⟨⟨op', he, hmay'⟩, -⟩
    cases he
    exact hmay hmay'
  cases op with
  | semPost semId =>
      by_cases hid : semId = i.val
      · subst hid
        have hexec : s.kernel.exec (.semPost i.val)
            = (s.kernel.modifySem i fun m => m.addValue 1).unblockOneWaiter i :=
          semPost_eq (validSem_of_active h.active) (h.lineup.value_neg hw.1)
        rw [hexec] at hmem
        obtain ⟨xs', ys', hp'⟩ := Parted.served ((h.lineup.row h.active).addValue 1) hw.2
          ⟨(addValue_queue _ i 1).trans hp.queue, hp.mem, hp.outranks, hp.newcomers, hp.bounded⟩ hmem
        rw [← hexec] at hp'
        refine ⟨xs', ys', hp'.queue, hp'.mem, hp'.outranks, ?_, ?_⟩
        · simp only [watch]
          split <;> exact hp'.newcomers
        · have := hp'.bounded
          simp only [watch]
          split <;> simp only <;> omega
      · have hwatch : watch i w s (.semPost semId)
            = ⟨s.kernel.exec (.semPost semId), s.passes, s.entered⟩ :=
          if_neg fun h => hid h.1
        rw [hwatch]
        exact hshort (by rintro ⟨⟩)
  | semWait semId =>
      rcases s.kernel.semWait_queue semId i with ⟨hid, hret, hq⟩ | ⟨hno, hsub⟩
      · have hwatch : watch i w s (.semWait semId) = ⟨s.kernel.exec (.semWait semId), s.passes,
            s.kernel.sched.schedulerGetpid :: s.entered⟩ := if_pos ⟨hid, hret⟩
        rw [hwatch]
        exact hp.enter (asleep_ne_running h.lineup.sound.pids.distinct
          (h.lineup.pos_of_mem hw.1) hw.2 hop.2.1) hq ho (hop.2.2 hid)
      · have hwatch : watch i w s (.semWait semId)
            = ⟨s.kernel.exec (.semWait semId), s.passes, s.entered⟩ := if_neg hno
        rw [hwatch]
        exact hp.shrink hnd hsub hmem ho
  | semOpen name v => exact hshort (by rintro ⟨⟩)
  | yield => exact hshort (by rintro ⟨⟩)
  | tick rsp => exact hshort (by rintro ⟨⟩)
  | _ => exact hop.elim

/-- **How often a waiter can be passed over**, if everybody that comes to wait
has at most its priority: whoever has entered after `k₁` is not woken before it,
so only those that were in the queue already can be, and there are fewer than
`MAX_WAITING` of them. -/
theorem passes_bounded {idleStack : Nat} {k₁ : Kernel}
    (h₁ : queueMachine.Reach (init idleStack) k₁) (hact : (k₁.semTable i).active = true)
    (h : (watchMachine i w).Reach ⟨k₁, 0, []⟩ s) (hw : s.kernel.WaitsOn i w) :
    s.passes ≤ maxWaiting - 1 ∧
      ∀ x ∈ s.entered, s.kernel.WaitsOn i x → (s.kernel.semPost i.val).1.WaitsOn i x := by
  have hl := reach_lineup h₁
  have hinv : Watched i w (k₁.queue i).length s := by
    refine h.invariant (I := Watched i w (k₁.queue i).length) ⟨hl, hact, fun hmem => ?_⟩ ?_
    · exact ⟨k₁.queue i, [], by simp, hmem, by simp, by simp, by simp⟩
    · rintro s op s' hs ⟨hws, hop⟩ hstep
      obtain rfl := Option.some.inj hstep
      exact hs.step hws hop
  obtain ⟨xs, ys, hp⟩ := hinv.parted hw.1
  have hrow := hinv.lineup.row hinv.active
  constructor
  · have hfits := (hl.sane i).fits
    have hpos := List.length_pos_of_mem hp.mem
    have hbound := hp.bounded
    unfold queue at hbound
    rw [List.length_map] at hbound
    omega
  · intro x hx hwx
    have hy : x ∈ ys := by
      have hq := hwx.1
      rw [hp.queue] at hq
      exact (List.mem_append.mp hq).resolve_left (hp.newcomers x hx)
    exact semPost_behind hrow (hinv.lineup.value_neg hw.1) ⟨hp.ahead hy, hw.2, hwx.2, hp.outranks x hy⟩

/-- Three processes of one priority wait; one is served and comes back. -/
theorem passes_bounded_three : ∃ k₁ : Kernel, ∃ s : Watch,
    queueMachine.Reach (init 1000) k₁ ∧ k₁.queue 0 = [1, 2] ∧
    (watchMachine 0 2).Reach ⟨k₁, 0, []⟩ s ∧ s.passes = 1 ∧ s.entered = [1] ∧
    s.kernel.WaitsOn 0 2 ∧ s.kernel.WaitsOn 0 1 ∧ (s.kernel.semPost 0).1.WaitsOn 0 1 := by
  obtain ⟨k₁, s, h₁, ⟨hact, hq⟩, h, hpass, hent, hw, hwx⟩ := Machine.exists_reach_of_traces
    (T := queueMachine) (s := init 1000) (watchMachine 0 2) (fun k => ⟨k, 0, []⟩)
    [.piece (.create [115] 3 1 5000), .piece (.tick 0), .piece (.semOpen [109] 0),
      .piece (.create [97] 3 0 9000), .piece (.create [98] 3 0 14000), .piece (.semWait 0),
      .piece (.tick 0), .piece (.semWait 0), .piece (.tick 0)]
    [.semPost 0, .tick 0, .semWait 0, .tick 0]
    (P := fun k => (k.semTable 0).active = true ∧ k.queue 0 = [1, 2])
    (Q := fun s => s.passes = 1 ∧ s.entered = [1] ∧ s.kernel.WaitsOn 0 2 ∧ s.kernel.WaitsOn 0 1)
    (by decide +kernel)
  have hspec := passes_bounded h₁ hact h hw
  exact ⟨k₁, s, h₁, hq, h, hpass, hent, hw, hwx, hspec.2 1 (by rw [hent]; simp) hwx⟩

/-- Waits of a running process, posts and the timer. -/
def WaitsAndPosts (k : Kernel) : QueueLabel → Prop
  | .piece (.semWait _) => (k.life k.sched.currentIdx).state = .running
  | .piece (.semPost _) | .piece (.tick _) => True
  | _ => False

instance (k : Kernel) : DecidablePred k.WaitsAndPosts := fun l => by
  induction l using QueueLabel.casesOn
  case piece op => induction op using Op.casesOn <;> dsimp only [WaitsAndPosts] <;> infer_instance
  all_goals
    dsimp only [WaitsAndPosts]
    infer_instance

/-- The process 1 has priority 1 and its credit is at the cap.  Two others wait
with priority 5 and full credit when the process 2, of priority 5 as well, comes
to wait.  They are served, which gives 2 the credit to pass 1, and the next post
wakes 2. -/
theorem newcomer_overtakes : ∃ k₁ k : Kernel, queueMachine.Reach (init 1000) k₁ ∧
    (k₁.semTable 0).waiting = [(1, 5), (7, 5), (8, 5)] ∧
    (queueMachine.restrict WaitsAndPosts).Reach k₁ k ∧
    (k.semTable 0).waiting = [(1, 5), (2, 2)] ∧
    k.WaitsOn 0 1 ∧ k.WaitsOn 0 2 ∧ (k.semPost 0).1.WaitsOn 0 1 ∧
    ¬ (k.semPost 0).1.WaitsOn 0 2 := by
  obtain ⟨k₁, k, h₁, hq₁, h, hq, hw, hx, hw', hx'⟩ := Machine.exists_reach_of_traces
    (T := queueMachine) (s := init 1000) (queueMachine.restrict WaitsAndPosts) id
    ([.piece (.create [115] 1 1 5000), .piece (.tick 0), .piece (.semOpen [109] 0)]
      ++ (List.range 8).map (fun n => .piece (.create [97] 5 0 (9000 + 5000 * n)))
      ++ (List.range 8).flatMap (fun _ => [.piece (.semWait 0), .piece (.tick 0)])
      ++ List.replicate 5 (.piece (.semPost 0)))
    [.piece (.tick 0), .piece (.semWait 0), .piece (.tick 0), .piece (.semPost 0),
      .piece (.semPost 0)]
    (P := fun k => (k.semTable 0).waiting = [(1, 5), (7, 5), (8, 5)])
    (Q := fun k => (k.semTable 0).waiting = [(1, 5), (2, 2)] ∧ k.WaitsOn 0 1 ∧ k.WaitsOn 0 2 ∧
      (k.semPost 0).1.WaitsOn 0 1 ∧ ¬ (k.semPost 0).1.WaitsOn 0 2)
    (by decide +kernel)
  exact ⟨k₁, k, h₁, hq₁, h, hq, hw, hx, hw', hx'⟩

end Kernel

end TP2Kernel
