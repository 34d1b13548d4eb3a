/-
TP2Kernel/SemaphoreRefinement.lean

The bytes of `sem_table` and the semaphores they stand for.

`view` reads a record as a semaphore: the name up to its NUL, the numbers, and the
queue as a list.  Every call of `Kernel/semaphore.c` on the bytes, seen through
`view`, is the call on semaphores with the same result (`lift_semOpen`,
`lift_semPost`, ..), as long as a name has fewer than 32 bytes and no number leaves
the range of an `int`.  So what holds of the semaphores holds of the bytes, for runs
that keep to this.  With a longer name it does not: `strcpy` goes on into the next
record, and 1109 letters there are a `wait_count` of 97.
-/
import TP2Kernel.SemaphoreNames
import TP2Kernel.WaitQueues

namespace TP2Kernel

namespace SemTable

/-! ### A record as a semaphore -/

/-- The string at `a`, looked for in `n` bytes. -/
def nameFrom (m : ByteMem) : Nat → Int → List UInt8
  | 0, _ => []
  | n + 1, a => if m a = 0 then [] else m a :: nameFrom m n (a + 1)

/-- The semaphore that record `i` stands for. -/
def view (m : ByteMem) (i : Fin maxSemaphores) : Semaphore where
  name := nameFrom m nameLen (recordAt i)
  value := value m i
  waiting := waiters m i
  active := active m i = 1
  refCount := refCount m i

/-- The kernel whose semaphores are those in memory. -/
def lift (k : Kernel) (s : Sched) (m : ByteMem) : Kernel :=
  { k with sched := s, semTable := view m }

section Names

variable {m m' : ByteMem} {n : Nat} {a : Int}

/-- Only a string that is there, with its NUL, is read. -/
theorem nameFrom_eq_iff {bs : List UInt8} (hb : 0 ∉ bs) (hlen : bs.length < n) :
    nameFrom m n a = bs ↔ m.Holds a (bs ++ [0]) := by
  induction bs generalizing n a with
  | nil =>
      obtain ⟨n, rfl⟩ := Nat.exists_eq_succ_of_ne_zero (by omega : n ≠ 0)
      rw [nameFrom]
      split
      · rename_i h0
        exact iff_of_true rfl ⟨h0, trivial⟩
      · rename_i h0
        exact iff_of_false (by rintro ⟨⟩) fun h => h0 h.1
  | cons c cs ih =>
      obtain ⟨n, rfl⟩ := Nat.exists_eq_succ_of_ne_zero (by omega : n ≠ 0)
      rw [List.mem_cons, not_or] at hb
      rw [nameFrom]
      split
      · rename_i h0
        exact iff_of_false (by rintro ⟨⟩) fun h => hb.1 (h0.symm.trans h.1)
      · rw [List.cons.injEq, ih hb.2 (Nat.lt_of_succ_lt_succ hlen)]
        exact Iff.rfl

theorem nameFrom_congr (h : ∀ x, a ≤ x → x < a + n → m' x = m x) :
    nameFrom m' n a = nameFrom m n a := by
  induction n generalizing a with
  | zero => rfl
  | succ n ih =>
      rw [nameFrom, nameFrom, h a le_rfl (by omega), ih fun x hx hx' => h x (by omega) (by omega)]

end Names

section Views

variable {m m' : ByteMem} {i j : Fin maxSemaphores} {lo hi : Int}

theorem nameFrom_of_eqOn (h : Set.EqOn m' m (outside lo hi))
    (hout : recordAt i + 32 ≤ lo ∨ hi ≤ recordAt i) :
    nameFrom m' nameLen (recordAt i) = nameFrom m nameLen (recordAt i) := by
  rw [eqOn_outside] at h
  refine nameFrom_congr fun x hx hx' => h x ?_
  unfold nameLen at hx'
  omega

theorem waiters_of_eqOn (h : Set.EqOn m' m (outside lo hi))
    (hout : recordAt i + 552 ≤ lo ∨ hi ≤ recordAt i + 36) (hm : Ranged m i) :
    waiters m' i = waiters m i := by
  have hcount : waitCount m' i = waitCount m i := ByteMem.readInt_of_eqOn h (by omega)
  have hmax := hm.2
  unfold maxWaiting at hmax
  rw [waiters, waiters, hcount]
  refine entries_congr fun j hj => Prod.ext ?_ ?_
  · exact ByteMem.readInt_of_eqOn h (by omega)
  · exact ByteMem.readInt_of_eqOn h (by omega)

theorem view_eq {S : Semaphore} (hname : nameFrom m' nameLen (recordAt i) = S.name)
    (hvalue : value m' i = S.value) (hqueue : waiters m' i = S.waiting)
    (hactive : decide (active m' i = 1) = S.active) (hrefs : refCount m' i = S.refCount) :
    view m' i = S := by
  unfold view
  rw [hname, hvalue, hqueue, hactive, hrefs]

theorem view_setValue (hm : Ranged m i) {v : Int} (hv : -2 ^ 31 ≤ v ∧ v < 2 ^ 31) :
    view (setValue m i v) i = { view m i with value := v } := by
  have hset := ByteMem.writeInt_eqOn (a := recordAt i + 32) m v le_rfl le_rfl
  refine view_eq (nameFrom_of_eqOn hset (by omega)) (ByteMem.readInt_writeInt_of_range hv)
    (waiters_of_eqOn hset (by omega) hm) ?_ (ByteMem.readInt_of_eqOn hset (by omega))
  exact congrArg (fun a : Int => decide (a = 1)) (ByteMem.readInt_of_eqOn hset (by omega))

theorem view_setRefCount (hm : Ranged m i) {v : Int} (hv : -2 ^ 31 ≤ v ∧ v < 2 ^ 31) :
    view (setRefCount m i v) i = { view m i with refCount := v } := by
  have hset := ByteMem.writeInt_eqOn (a := recordAt i + 556) m v le_rfl le_rfl
  refine view_eq (nameFrom_of_eqOn hset (by omega)) (ByteMem.readInt_of_eqOn hset (by omega))
    (waiters_of_eqOn hset (by omega) hm) ?_ (ByteMem.readInt_writeInt_of_range hv)
  exact congrArg (fun a : Int => decide (a = 1)) (ByteMem.readInt_of_eqOn hset (by omega))

theorem view_requeued {ws : List (Int × Int)} (h : Requeued i m m' ws) :
    view m' i = (view m i).setWaiting ws := by
  refine view_eq (nameFrom_of_eqOn h.inside (by omega)) (ByteMem.readInt_of_eqOn h.inside (by omega))
    h.waiters_eq ?_ (ByteMem.readInt_of_eqOn h.inside (by omega))
  exact congrArg (fun a : Int => decide (a = 1)) (ByteMem.readInt_of_eqOn h.inside (by omega))

theorem view_of_within (h : Within i m m') (hj : j ≠ i) (hm : Ranged m j) :
    view m' j = view m j := by
  have hapart := recordAt_apart hj
  refine view_eq (nameFrom_of_eqOn h (by omega)) (ByteMem.readInt_of_eqOn h (by omega))
    (waiters_of_eqOn h (by omega) hm) ?_ (ByteMem.readInt_of_eqOn h (by omega))
  exact congrArg (fun a : Int => decide (a = 1)) (ByteMem.readInt_of_eqOn h (by omega))

/-- A change of one record is a change of one semaphore. -/
theorem lift_modifySem {f : Semaphore → Semaphore} (k : Kernel) (s : Sched)
    (hm : ∀ j, Ranged m j) (h : Within i m m') (hi : view m' i = f (view m i)) :
    (lift k s m).modifySem i f = lift k s m' := by
  have htable : Function.update (view m) i (f (view m i)) = view m' := by
    funext j
    rcases eq_or_ne j i with rfl | hne
    · rw [Function.update_self, hi]
    · rw [Function.update_of_ne hne, view_of_within h hne (hm j)]
  unfold Kernel.modifySem lift
  simp only [htable]

theorem Inside.within (h : Inside i m m') : Within i m m' := eqOn_widen h (by omega) (by omega)

end Views

/-! ### The calls -/

/-- What holds of the table between the calls. -/
structure Shaped (m : ByteMem) : Prop where
  ranged : ∀ i, Ranged m i
  active : ∀ i, active m i = 0 ∨ active m i = 1
  refCount : ∀ i, 0 ≤ refCount m i

section Calls

variable {m : ByteMem} {i : Fin maxSemaphores} (k : Kernel) (s : Sched) (semId : Int)

theorem lift_sched : (lift k s m).sched = s := rfl

theorem lift_validSem : (lift k s m).validSem semId = isValid m semId := rfl

theorem lift_addValue (hm : ∀ j, Ranged m j) {d : Int}
    (hv : -2 ^ 31 ≤ value m i + d ∧ value m i + d < 2 ^ 31) :
    (lift k s m).modifySem i (fun S => S.addValue d) =
      lift k s (setValue m i (value m i + d)) :=
  lift_modifySem k s hm (setValue_works (.refl (hm i)) _).inside.within (view_setValue (hm i) hv)

theorem lift_requeued {m' : ByteMem} {ws : List (Int × Int)} (hm : ∀ j, Ranged m j)
    (h : Requeued i m m' ws) :
    (lift k s m).modifySem i (fun S => S.setWaiting ws) = lift k s m' :=
  lift_modifySem k s hm h.works.inside.within (view_requeued h)

theorem lift_unblockOneWaiter (hm : ∀ j, Ranged m j) :
    (lift k s m).unblockOneWaiter i =
      lift k (unblockOneWaiter s m i).1 (unblockOneWaiter s m i).2 := by
  obtain ⟨hsched, hqueue⟩ := unblockOneWaiter_spec (k := lift k s m) (hm i) rfl
  have hsched' : (unblockOneWaiter s m i).1 = ((lift k s m).unblockOneWaiter i).sched := hsched
  rw [Kernel.unblockOneWaiter_only, lift_requeued k s hm hqueue, hsched']
  rfl

/-- **`sem_post`** on the bytes is `sem_post` on the semaphores. -/
theorem lift_semPost (hm : ∀ j, Ranged m j)
    (hv : ∀ i, isValid m semId = some i → value m i < 2 ^ 31 - 1) :
    (lift k s m).semPost semId =
      (lift k (semPost s m semId).1.1 (semPost s m semId).1.2, (semPost s m semId).2) := by
  unfold Kernel.semPost semPost
  rw [lift_validSem]
  rcases hi : isValid m semId with - | i
  · rfl
  · have hlow := (ByteMem.readInt_range m (recordAt i + 32)).1
    have hlow' : -2 ^ 31 ≤ value m i := hlow
    have hadd := lift_addValue k s hm (i := i) (d := 1) (by have := hv i hi; omega)
    have hset := (setValue_works (.refl (hm i)) (value m i + 1)).keepsNames hm
    simp only
    rw [hadd]
    show (if value (setValue m i (value m i + 1)) i ≤ 0 then _ else _) = _
    split
    · rw [lift_unblockOneWaiter k s hset.ranged]
    · rfl

/-- **`sem_wait`.** -/
theorem lift_semWait (hm : ∀ j, Ranged m j)
    (hpid : -2 ^ 31 ≤ s.schedulerGetpid ∧ s.schedulerGetpid < 2 ^ 31)
    (hv : ∀ i, isValid m semId = some i → -2 ^ 31 < value m i) :
    (lift k s m).semWait semId =
      (lift k (semWait s m semId).1.1 (semWait s m semId).1.2, (semWait s m semId).2) := by
  unfold Kernel.semWait semWait
  rw [lift_validSem]
  rcases hi : isValid m semId with - | i
  · rfl
  · have hlow := hv i hi
    have hhigh : value m i < 2 ^ 31 := (ByteMem.readInt_range m (recordAt i + 32)).2
    have hadd : (lift k s m).modifySem i (fun S => S.addValue (-1)) =
        lift k s (setValue m i (value m i - 1)) := lift_addValue k s hm (by omega)
    have hr := ((setValue_works (.refl (hm i)) (value m i - 1)).keepsNames hm).ranged
    have hval : value (setValue m i (value m i - 1)) i = value m i - 1 :=
      ByteMem.readInt_writeInt_of_range (by omega)
    simp only
    rw [lift_sched, hadd]
    generalize setValue m i (value m i - 1) = m₁ at hr hval
    have hvalue : ((lift k s m₁).semTable i).value = value m₁ i := rfl
    rw [hvalue]
    split
    · rfl
    · have henq := enqueue_spec (hr i) s.schedulerGetpid
      rw [Int.bmod_eq_of_le (n := s.schedulerGetpid) (by omega) (by omega)] at henq
      split at henq
      · -- the queue is full, and the value goes back
        rename_i hfull
        obtain ⟨hq, hret⟩ := henq
        have hqueue : (lift k s m₁).modifySem i
            (fun S => S.setWaiting (removePid S.waiting s.schedulerGetpid)) =
            lift k s (enqueue m₁ i s.schedulerGetpid).1 :=
          lift_modifySem k s hr hq.works.inside.within (view_requeued hq)
        have hback : value (enqueue m₁ i s.schedulerGetpid).1 i = value m i - 1 :=
          (ByteMem.readInt_of_eqOn hq.inside (by omega)).trans hval
        have hlen : ((lift k s (enqueue m₁ i s.schedulerGetpid).1).semTable i).waiting =
            removePid (waiters m₁ i) s.schedulerGetpid := hq.waiters_eq
        rw [hqueue, hlen, if_pos hfull, hret, if_pos (by decide),
          lift_addValue k s (hq.works.keepsNames hr).ranged (by omega)]
      · rename_i hroom
        obtain ⟨hq, hret⟩ := henq
        have hqueue : (lift k s m₁).modifySem i (fun S => (S.setWaiting
              (removePid S.waiting s.schedulerGetpid)).setWaiting
              ((S.setWaiting (removePid S.waiting s.schedulerGetpid)).waiting ++
                [(s.schedulerGetpid, 0)])) =
            lift k s (enqueue m₁ i s.schedulerGetpid).1 :=
          lift_modifySem k s hr hq.works.inside.within (view_requeued hq)
        have hlen : (((lift k s m₁).modifySem i fun S =>
            S.setWaiting (removePid S.waiting s.schedulerGetpid)).semTable i).waiting =
            removePid (waiters m₁ i) s.schedulerGetpid := by
          rw [Kernel.modifySem_self]
          rfl
        rw [hlen, if_neg hroom, Kernel.modifySem_modifySem, hqueue, hret, if_neg (by decide)]
        rfl

/-- The loop of `sem_post_all`.  As long as somebody waits the value is negative. -/
theorem lift_postAllLoop (n : Nat) (hm : ∀ j, Ranged m j) (hs : (view m i).Sane) :
    Kernel.postAllLoop i n (lift k s m) =
        lift k (loop (fun x : Sched × ByteMem => waitCount x.2 i > 0) (postRound i) n (s, m)).1
          (loop (fun x : Sched × ByteMem => waitCount x.2 i > 0) (postRound i) n (s, m)).2 ∧
      ∀ j, Ranged
        (loop (fun x : Sched × ByteMem => waitCount x.2 i > 0) (postRound i) n (s, m)).2 j := by
  induction n generalizing s m with
  | zero => exact ⟨rfl, hm⟩
  | succ n ih =>
      have hlen := length_waiters (hm i)
      have hwaiting : ((lift k s m).semTable i).waiting = waiters m i := rfl
      rw [loop, Kernel.postAllLoop, hwaiting]
      by_cases hnil : waiters m i = []
      · rw [if_pos hnil, if_neg (by rw [← hlen, hnil]; decide)]
        exact ⟨rfl, hm⟩
      · have hpos := List.length_pos_iff.mpr hnil
        have hneg : value m i < 0 := hs.neg_of_ne hnil
        have hlow : -2 ^ 31 ≤ value m i := (ByteMem.readInt_range m (recordAt i + 32)).1
        have hadd := lift_addValue k s hm (i := i) (d := 1) (by omega)
        have hr := ((setValue_works (.refl (hm i)) (value m i + 1)).keepsNames hm).ranged
        have hsane := Kernel.unblockOneWaiter_sane
          (k := (lift k s m).modifySem i fun S => S.addValue 1) (i := i) (view m i) hs
          (Kernel.modifySem_self ..)
        have hgo : waitCount (s, m).2 i > 0 := by
          show waitCount m i > 0
          omega
        have hnext : ∀ j, Ranged (postRound i (s, m)).2 j :=
          ((postRound_works (x := (s, m)) (hm i)).keepsNames hm).ranged
        rw [if_neg hnil, if_pos hgo]
        simp only
        rw [hadd, lift_unblockOneWaiter k s hr] at hsane ⊢
        exact ih _ hnext hsane

/-- **`sem_post_all`.** -/
theorem lift_semPostAll (hm : ∀ j, Ranged m j)
    (hs : ∀ i, isValid m semId = some i → (view m i).Sane) :
    (lift k s m).semPostAll semId =
      (lift k (semPostAll s m semId).1.1 (semPostAll s m semId).1.2, (semPostAll s m semId).2) := by
  unfold Kernel.semPostAll semPostAll
  rw [lift_validSem]
  rcases hi : isValid m semId with - | i
  · rfl
  · have hlen := length_waiters (hm i)
    have hcount : ((lift k s m).semTable i).waiting.length = (waitCount m i).toNat := by
      show (waiters m i).length = _
      omega
    simp only
    rw [hcount]
    obtain ⟨hloop, hr⟩ := lift_postAllLoop k s (waitCount m i).toNat hm (hs i hi)
    rw [hloop]
    generalize loop (fun x : Sched × ByteMem => waitCount x.2 i > 0) (postRound i)
      (waitCount m i).toNat (s, m) = x at hr
    show (if value x.2 i < 0 then _ else _) = _
    split
    · have hset : (lift k x.1 x.2).modifySem i (fun S => { S with value := 0 }) =
          lift k x.1 (setValue x.2 i 0) :=
        lift_modifySem k x.1 hr (setValue_works (.refl (hr i)) 0).inside.within
          (view_setValue (hr i) (by decide))
      rw [hset]
    · rfl

/-- What `sem_remove_waiting_pid` makes of one semaphore. -/
theorem view_removeFrom (hm : Ranged m i) (hact : active m i = 0 ∨ active m i = 1)
    (hs : (view m i).Sane) (pid : Int) :
    view (removeFrom pid m i) i =
      if (view m i).active then
        ((view m i).setWaiting (removePid (view m i).waiting pid)).addValue
          (removedCount (view m i).waiting pid)
      else view m i := by
  unfold removeFrom
  rcases hact with h0 | h1
  · have hoff : (view m i).active = false := decide_eq_false (by omega)
    rw [if_neg (not_not.mpr h0), hoff]
    rfl
  · have hon : (view m i).active = true := decide_eq_true h1
    obtain ⟨hq, hremoved⟩ := removeWaitingPidFromSem_spec hm pid
    have hvalue : value (removeWaitingPidFromSem m i pid).1 i = value m i :=
      ByteMem.readInt_of_eqOn hq.inside (by omega)
    -- every entry taken out is counted in the value
    have hrange : -2 ^ 31 ≤ value m i + removedCount (waiters m i) pid ∧
        value m i + removedCount (waiters m i) pid < 2 ^ 31 := by
      have hr : -2 ^ 31 ≤ value m i ∧ value m i < 2 ^ 31 := ByteMem.readInt_range m _
      have hlen := length_removePid (waiters m i) pid
      have hdebt : waiters m i = [] ∨ value m i ≤ -((waiters m i).length : Int) := hs.debt
      rcases hdebt with hnil | hle
      · rw [hnil] at hlen ⊢
        simp only [removePid, List.filter_nil, List.length_nil] at hlen
        omega
      · have hnn : 0 ≤ removedCount (waiters m i) pid := Int.natCast_nonneg _
        omega
    rw [if_pos (by omega), hon, if_pos rfl]
    simp only
    rw [hvalue, hremoved, view_setValue hq.ranged hrange, view_requeued hq]
    rfl

theorem view_foldl_removeFrom (hm : ∀ j, Ranged m j) (hact : ∀ j, active m j = 0 ∨ active m j = 1)
    (pid : Int) (is : List (Fin maxSemaphores)) (hnodup : is.Nodup)
    (hs : ∀ j ∈ is, (view m j).Sane) (j : Fin maxSemaphores) :
    view (is.foldl (removeFrom pid) m) j =
      if j ∈ is ∧ (view m j).active then
        ((view m j).setWaiting (removePid (view m j).waiting pid)).addValue
          (removedCount (view m j).waiting pid)
      else view m j := by
  induction is generalizing m with
  | nil => simp
  | cons i is ih =>
      rw [List.nodup_cons] at hnodup
      have hkeep := removeFrom_keepsNames hm pid i
      have hother : ∀ j, j ≠ i → view (removeFrom pid m i) j = view m j := by
        intro j hj
        refine view_of_within ?_ hj (hm j)
        unfold removeFrom
        split
        · exact (setValue_works (removeWaitingPidFromSem_spec (hm i) pid).1.works _).inside.within
        · exact Set.eqOn_refl m _
      rw [List.foldl_cons, ih hkeep.ranged (fun j => by rw [hkeep.active]; exact hact j) hnodup.2
        fun j hj => by
          rw [hother j fun he => hnodup.1 (he ▸ hj)]
          exact hs j (List.mem_cons_of_mem _ hj)]
      rcases eq_or_ne j i with rfl | hne
      · rw [if_neg fun h => hnodup.1 h.1, view_removeFrom (hm j) (hact j)
          (hs j List.mem_cons_self) pid]
        simp only [List.mem_cons_self, true_and]
      · rw [hother j hne]
        simp only [List.mem_cons, hne, false_or]

/-- **`sem_remove_waiting_pid`.** -/
theorem lift_semRemoveWaitingPid (hm : Shaped m) (hs : ∀ i, (view m i).Sane) (pid : Int) :
    (lift k s m).semRemoveWaitingPid pid = lift k s (semRemoveWaitingPid m pid) := by
  have htable : view (semRemoveWaitingPid m pid) = fun i =>
      if (view m i).active then
        ((view m i).setWaiting (removePid (view m i).waiting pid)).addValue
          (removedCount (view m i).waiting pid)
      else view m i := by
    funext j
    unfold semRemoveWaitingPid
    rw [view_foldl_removeFrom hm.ranged hm.active pid _ (List.nodup_finRange _) fun i _ => hs i]
    simp only [List.mem_finRange, true_and]
  unfold Kernel.semRemoveWaitingPid
  unfold lift
  rw [htable]

/-- **`sem_open`**, for a name that fits. -/
theorem lift_semOpen (hm : Shaped m) {name : CString} (hname : name.bytes.length < nameLen)
    {v : Int} (hv : -2 ^ 31 ≤ v ∧ v < 2 ^ 31) (hmax : ∀ i, refCount m i < 2 ^ 31 - 1) :
    (lift k s m).semOpen name.bytes v = (lift k s (semOpen m name v).1, (semOpen m name v).2) := by
  have hfind : (lift k s m).findByName name.bytes = findByName m name := by
    unfold Kernel.findByName findByName
    congr 1
    funext i
    refine decide_eq_decide.mpr (and_congr decide_eq_true_iff ?_)
    exact (nameFrom_eq_iff name.noNul hname).trans (strcmp_eq_zero name.noNul).symm
  have hfree : (lift k s m).findFreeSem = findFreeSlot m := by
    unfold Kernel.findFreeSem findFreeSlot
    congr 1
    funext i
    show (!decide (active m i = 1)) = decide (active m i = 0)
    rcases hm.active i with h | h
    · rw [h]
      rfl
    · rw [h]
      rfl
  unfold Kernel.semOpen semOpen
  rw [hfind]
  rcases findByName m name with - | i
  · simp only
    rw [hfree]
    rcases findFreeSlot m with - | i
    · rfl
    · obtain ⟨hwithin, hholds, hcount, hactive, hrefs⟩ := newRecord_spec m i v hname
      have hvalue : value (newRecord m i name v) i = v := newRecord_value m i hv
      have hview : view (newRecord m i name v) i = ⟨name.bytes, v, [], true, 1⟩ := by
        refine view_eq ((nameFrom_eq_iff name.noNul hname).mpr hholds) hvalue ?_
          (decide_eq_true hactive) hrefs
        rw [waiters, hcount]
        rfl
      exact congrArg (·, _) (lift_modifySem k s hm.ranged hwithin hview)
  · have h0 := hm.refCount i
    have h1 := hmax i
    exact congrArg (·, _) (lift_modifySem k s hm.ranged (setRefCount_within m i _)
      (view_setRefCount (hm.ranged i) (by omega)))

/-- **`sem_close`.** -/
theorem lift_semClose (hm : Shaped m) :
    (lift k s m).semClose semId = (lift k s (semClose m semId).1, (semClose m semId).2) := by
  unfold Kernel.semClose semClose
  rw [lift_validSem]
  rcases hi : isValid m semId with - | i
  · rfl
  · have h0 := hm.refCount i
    have h1 : refCount m i < 2 ^ 31 := (ByteMem.readInt_range m _).2
    have hdrop : (lift k s m).modifySem i (fun S => { S with refCount := S.refCount - 1 }) =
        lift k s (setRefCount m i (refCount m i - 1)) :=
      lift_modifySem k s hm.ranged (setRefCount_within m i _)
        (view_setRefCount (hm.ranged i) (by omega))
    have hr : ∀ j, Ranged (setRefCount m i (refCount m i - 1)) j := by
      intro j
      have hcount : waitCount (setRefCount m i (refCount m i - 1)) j = waitCount m j := by
        apply ByteMem.readInt_writeInt_of_ne
        rcases eq_or_ne j i with rfl | hne
        · omega
        · have := recordAt_apart hne
          omega
      unfold Ranged
      rw [hcount]
      exact hm.ranged j
    simp only
    rw [hdrop]
    generalize setRefCount m i (refCount m i - 1) = m₁ at hr
    have hrefs : ((lift k s m₁).semTable i).refCount = refCount m₁ i := rfl
    rw [hrefs]
    split
    · have hset : Set.EqOn (setWaitCount (setActive m₁ i 0) i 0) m₁
          (outside (recordAt i + 548) (recordAt i + 556)) :=
        eqOn_chain (ByteMem.writeInt_eqOn _ 0 (by omega) (by omega))
          (ByteMem.writeInt_eqOn _ 0 (by omega) (by omega))
      have hcount : waitCount (setWaitCount (setActive m₁ i 0) i 0) i = 0 :=
        ByteMem.readInt_writeInt_of_range (by decide)
      have hoff : active (setWaitCount (setActive m₁ i 0) i 0) i = 0 :=
        (ByteMem.readInt_writeInt_of_ne (by omega)).trans
          (ByteMem.readInt_writeInt_of_range (by decide))
      refine congrArg (·, _) (lift_modifySem k s hr (eqOn_widen hset (by omega) (by omega)) ?_)
      refine view_eq (nameFrom_of_eqOn hset (by omega)) (ByteMem.readInt_of_eqOn hset (by omega)) ?_
        (decide_eq_false (by rw [hoff]; decide)) (ByteMem.readInt_of_eqOn hset (by omega))
      rw [waiters, hcount]
      rfl
    · rfl

end Calls

end SemTable

open SemTable

/-! ### Runs -/

/-- A name that is opened fits, the caller of `sem_wait` is not idle, and no number
passes the limits of an `int`. -/
def Careful (x : SemRun) : SemCall → Prop
  | .semOpen name v => Fits x (.semOpen name v) ∧ -2 ^ 31 ≤ v ∧ v < 2 ^ 31
  | .semWait semId => 0 < x.sched.schedulerGetpid ∧ x.sched.schedulerGetpid < 2 ^ 31 ∧
      ∀ i, isValid x.mem semId = some i → -2 ^ 31 < value x.mem i
  | .semPost semId => ∀ i, isValid x.mem semId = some i → value x.mem i < 2 ^ 31 - 1
  | .semPostAll _ | .semClose _ | .removeWaiting _ | .schedule _ => True

instance (x : SemRun) : DecidablePred (Careful x) := fun l => by
  induction l using SemCall.casesOn <;> dsimp only [Careful] <;> infer_instance

theorem Careful.fits {x : SemRun} {l : SemCall} (h : Careful x l) : Fits x l := by
  cases l with
  | semOpen name v => exact h.1
  | semWait _ | semPost _ | semPostAll _ | semClose _ | removeWaiting _ | schedule _ => exact trivial

theorem Named.shaped {x : SemRun} (h : Named x) : Shaped x.mem where
  ranged := h.ranged
  active := fun i => by
    rw [h.active i]
    split
    · exact .inl rfl
    · exact .inr rfl
  refCount := fun i => by
    rw [h.refCount i]
    exact Int.natCast_nonneg _

/-- The semaphores that the table stands for are sane. -/
def SaneRun (x : SemRun) : Prop := Kernel.SaneTable (view x.mem)

theorem view_of_blank {x : SemRun} (h : Blank x) (i : Fin maxSemaphores) :
    view x.mem i = ⟨[], 0, [], false, 0⟩ := by
  have hread : ∀ k : Int, 0 ≤ k → k < 557 → x.mem.readInt (recordAt i + k) = 0 := by
    intro k hk hk'
    have hrange := recordAt_range i
    exact ByteMem.readInt_zero fun a ha ha' => h.1 a (by omega) (by omega)
  have hname : x.mem (recordAt i) = 0 := by
    have hrange := recordAt_range i
    exact h.1 _ (by omega) (by omega)
  refine view_eq ?_ (hread 32 (by decide) (by decide)) ?_ ?_ (hread 556 (by decide) (by decide))
  · rw [nameLen, nameFrom, if_pos hname]
  · rw [waiters, show waitCount x.mem i = 0 from hread 548 (by decide) (by decide)]
    rfl
  · rw [show active x.mem i = 0 from hread 552 (by decide) (by decide)]
    rfl

theorem SaneRun.of_blank {x : SemRun} (h : Blank x) : SaneRun x := fun i => by
  rw [view_of_blank h i]
  exact .of_nil rfl

/-- What a call returns. -/
def SemRun.answer (x : SemRun) : SemCall → Int
  | .semOpen name v => (SemTable.semOpen x.mem name v).2
  | .semWait semId => (SemTable.semWait x.sched x.mem semId).2
  | .semPost semId => (SemTable.semPost x.sched x.mem semId).2
  | .semPostAll semId => (SemTable.semPostAll x.sched x.mem semId).2
  | .semClose semId => (SemTable.semClose x.mem semId).2
  | .removeWaiting _ | .schedule _ => 0

/-- The same calls on semaphores, with what they return. -/
def Kernel.call (k : Kernel) : SemCall → Kernel × Int
  | .semOpen name v => k.semOpen name.bytes v
  | .semWait semId => k.semWait semId
  | .semPost semId => k.semPost semId
  | .semPostAll semId => k.semPostAll semId
  | .semClose semId => k.semClose semId
  | .removeWaiting pid => (k.semRemoveWaitingPid pid, 0)
  | .schedule s => ({ k with sched := s }, 0)

/-- Runs of the calls on semaphores. -/
def callMachine : Machine Kernel SemCall where
  guard := fun _ _ => True
  step := fun k l => some (k.call l).1

/-- **One call** on the bytes is the call on the semaphores they stand for. -/
theorem SaneRun.call_eq {x x' : SemRun} {l : SemCall} (hx : Named x) (h : SaneRun x)
    (hl : Careful x l) (hs : semMachine.step x l = some x') (k : Kernel) :
    (lift k x.sched x.mem).call l = (lift k x'.sched x'.mem, x.answer l) := by
  have hm := hx.shaped
  cases l with
  | semOpen name v =>
      obtain rfl := Option.some.inj hs
      refine lift_semOpen k x.sched hm hl.1.1 hl.2 fun i => ?_
      have hheld := hl.1.2 i
      rw [hx.refCount i]
      omega
  | semWait semId =>
      obtain rfl := Option.some.inj hs
      have hpos := hl.1
      exact lift_semWait k x.sched semId hm.ranged ⟨by omega, hl.2.1⟩ hl.2.2
  | semPost semId =>
      obtain rfl := Option.some.inj hs
      exact lift_semPost k x.sched semId hm.ranged hl
  | semPostAll semId =>
      obtain rfl := Option.some.inj hs
      exact lift_semPostAll k x.sched semId hm.ranged fun i _ => h i
  | semClose semId =>
      obtain rfl := Option.some.inj hs
      exact lift_semClose k x.sched semId hm
  | removeWaiting pid =>
      obtain rfl := Option.some.inj hs
      exact congrArg (·, 0) (lift_semRemoveWaitingPid k x.sched hm h pid)
  | schedule s =>
      obtain rfl := Option.some.inj hs
      rfl

/-- What the calls on semaphores keep. -/
theorem Kernel.call_sane {k : Kernel} (h : SaneTable k.semTable) (l : SemCall)
    (hpos : ∀ semId, l = .semWait semId → 0 < k.sched.schedulerGetpid) :
    SaneTable (k.call l).1.semTable := by
  cases l with
  | semOpen name v => exact semOpen_sane h name.bytes v
  | semWait semId => exact semWait_sane h (hpos semId rfl) semId
  | semPost semId => exact semPost_sane h semId
  | semPostAll semId => exact semPostAll_sane h semId
  | semClose semId => exact semClose_sane h semId
  | removeWaiting pid => exact semRemoveWaitingPid_sane h pid
  | schedule s => exact h

theorem SaneRun.step {x x' : SemRun} {l : SemCall} (hx : Named x) (h : SaneRun x)
    (hl : Careful x l) (hs : semMachine.step x l = some x') : SaneRun x' := by
  -- the rest of the kernel does not matter
  have hstep := Kernel.call_sane (k := lift (Kernel.init 0) x.sched x.mem) h l (by
    rintro semId rfl
    exact hl.1)
  rwa [h.call_eq hx hl hs] at hstep

theorem SaneRun.of_reach {x₀ x : SemRun} (h₀ : Blank x₀)
    (h : (semMachine.restrict Careful).Reach x₀ x) : Named x ∧ SaneRun x := by
  refine h.invariant (I := fun x => Named x ∧ SaneRun x) ⟨.of_blank h₀, .of_blank h₀⟩ ?_
  rintro x l x' ⟨hx, hsane⟩ hg hs
  exact ⟨hx.step hg.2.fits hs, hsane.step hx hg.2 hs⟩

/-! ### The refinement -/

/-- No call writes outside of the table. -/
theorem inTable_step {x x' : SemRun} {l : SemCall} (hx : Named x) (hl : Careful x l)
    (hs : semMachine.step x l = some x') : InTable x.mem x'.mem := by
  have hm := hx.ranged
  cases l with
  | semOpen name v =>
      obtain rfl := Option.some.inj hs
      rcases semOpen_within x.mem v hl.1.1 with ⟨-, hsame⟩ | ⟨i, -, hwithin⟩
      · show InTable x.mem (SemTable.semOpen x.mem name v).1
        rw [hsame]
        exact Set.eqOn_refl x.mem _
      · exact hwithin.inTable
  | semWait semId =>
      obtain rfl := Option.some.inj hs
      exact (semWait_keepsNames hm x.sched semId).inTable
  | semPost semId =>
      obtain rfl := Option.some.inj hs
      exact (semPost_keepsNames hm x.sched semId).inTable
  | semPostAll semId =>
      obtain rfl := Option.some.inj hs
      exact (semPostAll_keepsNames hm x.sched semId).inTable
  | semClose semId =>
      obtain rfl := Option.some.inj hs
      rcases semClose_within x.mem semId with hsame | ⟨i, hwithin⟩
      · show InTable x.mem (SemTable.semClose x.mem semId).1
        rw [hsame]
        exact Set.eqOn_refl x.mem _
      · exact hwithin.inTable
  | removeWaiting pid =>
      obtain rfl := Option.some.inj hs
      exact (semRemoveWaitingPid_keepsNames hm pid).inTable
  | schedule s =>
      obtain rfl := Option.some.inj hs
      exact Set.eqOn_refl x.mem _

/-- **The bytes refine the semaphores.**  A table of zeros stands for closed semaphores
without names, every run of the calls on the bytes is a run of the calls on the
semaphores they stand for, in every state reached the next call returns the same on
both, and nothing outside of the table is written. -/
theorem table_refined {x₀ x : SemRun} (h₀ : Blank x₀)
    (h : (semMachine.restrict Careful).Reach x₀ x) (k : Kernel) :
    (∀ i, view x₀.mem i = ⟨[], 0, [], false, 0⟩) ∧
      callMachine.Reach (lift k x₀.sched x₀.mem) (lift k x.sched x.mem) ∧
      (∀ l, Careful x l → ∃ x', semMachine.step x l = some x' ∧
        (lift k x.sched x.mem).call l = (lift k x'.sched x'.mem, x.answer l)) ∧
      Set.EqOn x.mem x₀.mem (outside 0 (560 * maxSemaphores)) := by
  have hrun : Named x ∧ SaneRun x ∧
      callMachine.Reach (lift k x₀.sched x₀.mem) (lift k x.sched x.mem) ∧
      InTable x₀.mem x.mem := by
    refine h.invariant (I := fun x => Named x ∧ SaneRun x ∧
      callMachine.Reach (lift k x₀.sched x₀.mem) (lift k x.sched x.mem) ∧ InTable x₀.mem x.mem)
      ⟨.of_blank h₀, .of_blank h₀, .refl _, Set.eqOn_refl x₀.mem _⟩ ?_
    rintro x l x' ⟨hx, hsane, hreach, hin⟩ hg hs
    refine ⟨hx.step hg.2.fits hs, hsane.step hx hg.2 hs, ?_,
      eqOn_chain hin (inTable_step hx hg.2 hs)⟩
    refine hreach.tail (l := l) trivial ?_
    show some ((lift k x.sched x.mem).call l).1 = _
    rw [hsane.call_eq hx hg.2 hs k]
  obtain ⟨hx, hsane, hreach, hin⟩ := hrun
  refine ⟨view_of_blank h₀, hreach, fun l hl => ?_, hin⟩
  have hstep : ∃ x', semMachine.step x l = some x' := by
    cases l <;> exact ⟨_, rfl⟩
  obtain ⟨x', hs⟩ := hstep
  exact ⟨x', hs, hsane.call_eq hx hl hs k⟩

/-- The pids in the queue of a record. -/
def pids (m : ByteMem) (i : Fin maxSemaphores) : List Int := (waiters m i).map Prod.fst

/-- The scheduler after some pieces of kernel code. -/
def schedAfter (ops : List Kernel.Op) : Sched := (ops.foldl Kernel.exec (Kernel.init 1000)).sched

/-- The shell waits at semaphore 0, whose name is opened again, and semaphore 1 is
closed: its name gets slot 1 anew, a post finds the waiter, and so it is on the lists. -/
theorem table_refined_waiting : ∃ x : SemRun,
    (semMachine.restrict Careful).Reach SemRun.start x ∧ pids x.mem 0 = [1] ∧
      callMachine.Reach (lift (Kernel.init 0) SemRun.start.sched SemRun.start.mem)
        (lift (Kernel.init 0) x.sched x.mem) ∧
      ((lift (Kernel.init 0) x.sched x.mem).call (.semOpen (.single 98 (by decide)) 5)).2 = 1 ∧
      pids (SemTable.semPost x.sched x.mem 0).1.2 0 = [] ∧
      ((lift (Kernel.init 0) x.sched x.mem).call (.semPost 0)).1.semTable 0 =
        view (SemTable.semPost x.sched x.mem 0).1.2 0 := by
  obtain ⟨x, hx, hpids, hopen, hposted, hcareful⟩ :=
    (semMachine.restrict Careful).exists_reach_of_trace (s := SemRun.start)
      [.schedule (schedAfter [.create [115] 3 1 5000, .tick 0]),
        .semOpen (.single 109 (by decide)) 0, .semWait 0, .semOpen (.single 98 (by decide)) 1,
        .semOpen (.single 109 (by decide)) 7, .semClose 1]
      (P := fun x => pids x.mem 0 = [1] ∧ x.answer (.semOpen (.single 98 (by decide)) 5) = 1 ∧
        pids (SemTable.semPost x.sched x.mem 0).1.2 0 = [] ∧
        Careful x (.semOpen (.single 98 (by decide)) 5) ∧ Careful x (.semPost 0))
      (by decide +kernel)
  obtain ⟨-, hreach, hcalls, -⟩ := table_refined ⟨fun _ _ _ => rfl, rfl⟩ hx (Kernel.init 0)
  obtain ⟨x₁, -, hopened⟩ := hcalls _ hcareful.1
  obtain ⟨x₂, hs, hpost⟩ := hcalls _ hcareful.2
  refine ⟨x, hx, hpids, hreach, ?_, hposted, ?_⟩
  · rw [hopened]
    exact hopen
  · obtain rfl := Option.some.inj hs
    rw [hpost]
    rfl

/-! ### The queues in memory -/

/-- What always holds of a record. -/
structure SaneRecord (m : ByteMem) (i : Fin maxSemaphores) : Prop where
  count : 0 ≤ waitCount m i ∧ waitCount m i ≤ maxWaiting
  distinct : ∀ j j', 0 ≤ j → j < j' → j' < waitCount m i → waiting m i j ≠ waiting m i j'
  credit : ∀ j, 0 ≤ j → j < waitCount m i → 0 ≤ waitingCredit m i j ∧ waitingCredit m i j ≤ 5
  debt : waitCount m i = 0 ∨ value m i ≤ -waitCount m i

theorem SaneRecord.of_view {m : ByteMem} {i : Fin maxSemaphores} (hm : Ranged m i)
    (h : (view m i).Sane) : SaneRecord m i := by
  have hlen := length_waiters hm
  have hget : ∀ j : Nat, (j : Int) < waitCount m i → (waiters m i)[j]? = some (entryAt m i j) :=
    fun j hj => entries_getElem? (by omega)
  refine ⟨hm, fun j j' hj hjj' hj' heq => ?_, fun j hj hj' => ?_, ?_⟩
  · lift j to Nat using hj
    lift j' to Nat using (by omega)
    have hnodup : ((waiters m i).map Prod.fst).Nodup := h.nodup
    have hidx : ((waiters m i).map Prod.fst)[j]? = ((waiters m i).map Prod.fst)[j']? := by
      rw [List.getElem?_map, List.getElem?_map, hget j (by omega), hget j' hj']
      exact congrArg some heq
    have := (List.getElem?_inj (by rw [List.length_map]; omega) hnodup).mp hidx
    omega
  · lift j to Nat using hj
    exact h.credit _ (List.mem_of_getElem? (hget j hj'))
  · have hdebt : waiters m i = [] ∨ value m i ≤ -((waiters m i).length : Int) := h.debt
    rcases hdebt with hnil | hle
    · left
      rw [← hlen, hnil]
      rfl
    · right
      omega

/-- The scheduler is in a state that a run of the kernel leads to. -/
def Sched.Occurs (s : Sched) : Prop :=
  ∃ idleStack k, Kernel.queueMachine.Reach (Kernel.init idleStack) k ∧ k.sched = s

/-- **The waiting queues stay sane**, whatever is opened, posted, awaited, closed and
withdrawn and whatever happens to the processes in between, as long as every name
opened has fewer than 32 bytes.  So a post on a semaphore with a waiter reaches
`unblock_one_waiter`, and if a waiter is blocked exactly one such waiter is taken out
and made ready. -/
theorem semaphore_queues_sane {x₀ x : SemRun} (h₀ : Blank x₀)
    (h : (semMachine.restrict Careful).Reach x₀ x) (i : Fin maxSemaphores)
    (hact : active x.mem i = 1) :
    SaneRecord x.mem i ∧
      (0 < waitCount x.mem i → SemTable.semPost x.sched x.mem i.val =
        (SemTable.unblockOneWaiter x.sched (setValue x.mem i (value x.mem i + 1)) i, 0)) ∧
      (x.sched.Occurs → (∃ pid ∈ pids x.mem i, ∃ j, (x.sched.life j).pid = pid ∧
          (x.sched.life j).state = .blocked) →
        Kernel.ReleasesOne x.sched (SemTable.semPost x.sched x.mem i.val).1.1 (pids x.mem i)
          (pids (SemTable.semPost x.sched x.mem i.val).1.2 i)) := by
  obtain ⟨hx, hsane⟩ := SaneRun.of_reach h₀ h
  have hvalid : isValid x.mem i.val = some i := by
    unfold isValid
    rw [index?_natCast]
    exact Option.filter_eq_some_iff.mpr ⟨rfl, decide_eq_true hact⟩
  have hneg : waiters x.mem i ≠ [] → value x.mem i < 0 := (hsane i).neg_of_ne
  have hlen := length_waiters (hx.ranged i)
  have hlow : -2 ^ 31 ≤ value x.mem i := (ByteMem.readInt_range x.mem _).1
  refine ⟨.of_view (hx.ranged i) (hsane i), fun hpos => ?_, ?_⟩
  · have hv := hneg (List.ne_nil_of_length_pos (by omega))
    have hval : value (setValue x.mem i (value x.mem i + 1)) i = value x.mem i + 1 :=
      ByteMem.readInt_writeInt_of_range (by omega)
    unfold SemTable.semPost
    rw [hvalid]
    simp only
    rw [if_pos (by omega)]
  · rintro ⟨idleStack, k, hk, hsched⟩ ⟨pid, hpid, j, hj, hb⟩
    obtain ⟨hs, hr, -⟩ := Kernel.queueMachine_invariant hk
    rw [← hsched] at hj hb ⊢
    obtain ⟨w, hw, rfl⟩ := List.mem_map.mp hpid
    have hv := hneg (List.ne_nil_of_mem hw)
    -- the kernel of that run, with the semaphores in memory
    have hserves := Kernel.semPost_serves (k := lift k k.sched x.mem) (i := i)
      ⟨hs.pids.next, hs.pids.fresh, hs.pids.live, hs.pids.distinct, hs.pids.current, hs.pids.idle⟩
      hr hvalid hv (fun w hw => ⟨(hsane i).positive w hw, ((hsane i).credit w hw).1⟩)
      ⟨w, hw, j, hj, hb⟩
    rwa [lift_semPost _ _ _ hx.ranged fun i' hi' => by
      obtain rfl := Option.some.inj (hvalid.symm.trans hi')
      omega] at hserves

/-- The shell waits, a second process waits behind it and is unblocked from outside;
its entry is stale, and a post releases the shell. -/
theorem semaphore_queues_sane_stale : ∃ x : SemRun,
    (semMachine.restrict Careful).Reach SemRun.start x ∧ pids x.mem 0 = [1, 2] ∧
      (∀ j, (x.sched.life j).pid = 2 → (x.sched.life j).state ≠ .blocked) ∧
      SaneRecord x.mem 0 ∧
      Kernel.ReleasesOne x.sched (SemTable.semPost x.sched x.mem 0).1.1 (pids x.mem 0)
        (pids (SemTable.semPost x.sched x.mem 0).1.2 0) := by
  obtain ⟨k, hk, hblocked, hready⟩ := Kernel.queueMachine.exists_reach_of_trace
    (s := Kernel.init 1000)
    [.piece (.create [115] 3 1 5000), .piece (.tick 0), .piece (.semOpen [109] 0),
      .piece (.create [99] 3 0 9000), .piece (.semWait 0), .piece (.tick 0), .piece (.semWait 0),
      .piece (.unblock 2)]
    (P := fun k => (∃ j, (k.sched.life j).pid = 1 ∧ (k.sched.life j).state = .blocked) ∧
      ∀ j, (k.sched.life j).pid = 2 → (k.sched.life j).state ≠ .blocked) (by decide +kernel)
  obtain ⟨y, hy, hact, hpids⟩ := (semMachine.restrict Careful).exists_reach_of_trace
    (s := SemRun.start)
    [.schedule (schedAfter [.create [115] 3 1 5000, .tick 0]), .semOpen (.single 109 (by decide)) 0,
      .semWait 0, .schedule (schedAfter [.create [115] 3 1 5000, .tick 0, .create [99] 3 0 9000,
        .block 1, .tick 0]), .semWait 0]
    (P := fun y => active y.mem 0 = 1 ∧ pids y.mem 0 = [1, 2]) (by decide +kernel)
  have hx : (semMachine.restrict Careful).Reach SemRun.start (y.after (k.sched, y.mem)) :=
    hy.tail (l := .schedule k.sched) ⟨trivial, trivial⟩ rfl
  obtain ⟨hsane, -, hserves⟩ := semaphore_queues_sane ⟨fun _ _ _ => rfl, rfl⟩ hx 0 hact
  exact ⟨_, hx, hpids, hready, hsane,
    hserves ⟨1000, k, hk, rfl⟩ ⟨1, hpids ▸ List.mem_cons_self, hblocked⟩⟩

/-- **A name that runs into the next record**: semaphore 1 is active, and its queue has
a length of 97. -/
theorem long_name_fills_queue : ∃ x : SemRun, semMachine.Reach SemRun.start x ∧
    (CString.single 98 (by decide), 1) ∈ x.refs ∧ active x.mem 1 = 1 ∧
    waitCount x.mem 1 = 97 ∧ ¬ waitCount x.mem 1 ≤ maxWaiting := by
  exact semMachine.exists_reach_of_trace (s := SemRun.start)
    [.semOpen (.single 97 (by decide)) 0, .semOpen (.single 98 (by decide)) 0, .semClose 0,
      .semOpen (.letters 1109) 0]
    (P := fun x => (CString.single 98 (by decide), 1) ∈ x.refs ∧ active x.mem 1 = 1 ∧
      waitCount x.mem 1 = 97 ∧ ¬ waitCount x.mem 1 ≤ maxWaiting) (by decide +kernel)

end TP2Kernel
