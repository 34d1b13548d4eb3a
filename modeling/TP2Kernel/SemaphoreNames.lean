/-
TP2Kernel/SemaphoreNames.lean

Names of semaphores, over the bytes of `sem_table`.  A run consists of calls of
`semaphore.c` in any order, with the scheduler in any state between them, and is
recorded with the references its callers hold: the name given to `sem_open` and
the identifier it returned, from the call that opened it until a `sem_close`.

A name that fits into its field lies there with its NUL and nothing but
`sem_open` ever writes there, so at every moment the active records hold the
names of the open references, each name in one record (`Named`).
-/
import TP2Kernel.SemaphoreQueues

namespace TP2Kernel

open SemTable

/-! ### Runs of the semaphore calls -/

/-- The scheduler, the memory from the start of `sem_table` on, and the open
references. -/
structure SemRun where
  sched : Sched
  mem : ByteMem
  refs : List (CString × Int)

/-- The calls; `schedule` is any step of the kernel outside of `semaphore.c`. -/
inductive SemCall
  | semOpen (name : CString) (initialValue : Int)
  | semWait (semId : Int)
  | semPost (semId : Int)
  | semPostAll (semId : Int)
  | semClose (semId : Int)
  | removeWaiting (pid : Int)
  | schedule (s : Sched)

namespace SemRun

/-- The references to one semaphore. -/
def held (x : SemRun) (i : Fin maxSemaphores) : Nat :=
  x.refs.countP fun r => r.2 = (i.val : Int)

/-- `sem_open` returned `r.2`: a reference, unless it failed. -/
def afterOpen (x : SemRun) (name : CString) (r : ByteMem × Int) : SemRun :=
  { x with mem := r.1, refs := if r.2 = -1 then x.refs else (name, r.2) :: x.refs }

/-- `sem_close` of `semId` returned `r.2`: one reference less, unless it failed. -/
def afterClose (x : SemRun) (semId : Int) (r : ByteMem × Int) : SemRun :=
  { x with mem := r.1, refs := if r.2 = 0 then x.refs.eraseP (fun p => p.2 = semId) else x.refs }

/-- Another call changes the scheduler and the table. -/
def after (x : SemRun) (r : Sched × ByteMem) : SemRun := { x with sched := r.1, mem := r.2 }

end SemRun

/-- Runs of the semaphore calls. -/
def semMachine : Machine SemRun SemCall where
  guard := fun _ _ => True
  step := fun x l =>
    match l with
    | .semOpen name v => some (x.afterOpen name (SemTable.semOpen x.mem name v))
    | .semWait semId => some (x.after (SemTable.semWait x.sched x.mem semId).1)
    | .semPost semId => some (x.after (SemTable.semPost x.sched x.mem semId).1)
    | .semPostAll semId => some (x.after (SemTable.semPostAll x.sched x.mem semId).1)
    | .semClose semId => some (x.afterClose semId (SemTable.semClose x.mem semId))
    | .removeWaiting pid => some (x.after (x.sched, semRemoveWaitingPid x.mem pid))
    | .schedule s => some (x.after (s, x.mem))

instance (x : SemRun) (l : SemCall) : Decidable (semMachine.guard x l) :=
  inferInstanceAs (Decidable True)

/-- The table before any call: static memory starts out as zeros. -/
def Blank (x : SemRun) : Prop :=
  (∀ a : Int, 0 ≤ a → a < 560 * maxSemaphores → x.mem a = 0) ∧ x.refs = []

/-- A name that is opened leaves room for its NUL, and no reference count is at
the end of an `int`. -/
def Fits (x : SemRun) : SemCall → Prop
  | .semOpen name _ => name.bytes.length < nameLen ∧ ∀ i, x.held i < 2 ^ 31 - 1
  | _ => True

instance (x : SemRun) : DecidablePred (Fits x) := fun l => by
  induction l using SemCall.casesOn <;> dsimp only [Fits] <;> infer_instance

/-! ### What `sem_open` and `sem_close` write -/

/-- A change inside record `i`. -/
def Within (i : Fin maxSemaphores) (m m' : ByteMem) : Prop :=
  Set.EqOn m' m (outside (recordAt i) (recordAt i + 560))

/-- Record `j` with its name is as before. -/
structure SameRecord (j : Fin maxSemaphores) (m m' : ByteMem) : Prop where
  name : ∀ x, recordAt j ≤ x → x < recordAt j + 32 → m' x = m x
  waitCount : waitCount m' j = waitCount m j
  active : active m' j = active m j
  refCount : refCount m' j = refCount m j

section Writes

variable {i j : Fin maxSemaphores} {m m₁ : ByteMem} {name : CString}

theorem Within.sameRecord (h : Within i m m₁) (hj : j ≠ i) : SameRecord j m m₁ := by
  have hapart := recordAt_apart hj
  refine ⟨fun x hx hx' => ?_, ?_, ?_, ?_⟩
  · rw [Within, eqOn_outside] at h
    apply h
    omega
  · apply ByteMem.readInt_of_eqOn h
    omega
  · apply ByteMem.readInt_of_eqOn h
    omega
  · apply ByteMem.readInt_of_eqOn h
    omega

theorem setRefCount_within (m : ByteMem) (i : Fin maxSemaphores) (v : Int) :
    Within i m (setRefCount m i v) :=
  ByteMem.writeInt_eqOn m v (by omega) (by omega)

/-- A name of fewer than 32 bytes keeps `strcpy` inside its field, and the
assignments that follow do not touch it. -/
theorem newRecord_spec (m : ByteMem) (i : Fin maxSemaphores) (v : Int)
    (hn : name.bytes.length < nameLen) :
    Within i m (newRecord m i name v) ∧ (newRecord m i name v).Holds (recordAt i) name.stored ∧
      waitCount (newRecord m i name v) i = 0 ∧ active (newRecord m i name v) i = 1 ∧
      refCount (newRecord m i name v) i = 1 := by
  unfold nameLen at hn
  have hcopy : Set.EqOn (strcpy m (recordAt i) name.bytes) m
      (outside (recordAt i) (recordAt i + 32)) :=
    strcpy_eqOn m (recordAt i) name.bytes (by omega)
  have hholds := strcpy_holds m (recordAt i) name.bytes
  unfold newRecord
  generalize strcpy m (recordAt i) name.bytes = m₁ at hcopy hholds
  simp only
  -- everything after the copy is written behind the name
  have hrest : Set.EqOn
      (setRefCount (setActive (setWaitCount (setValue m₁ i v) i 0) i 1) i 1) m₁
      (outside (recordAt i + 32) (recordAt i + 560)) := by
    have hvalue : Set.EqOn (setValue m₁ i v) m₁
        (outside (recordAt i + 32) (recordAt i + 560)) :=
      ByteMem.writeInt_eqOn m₁ v (by omega) (by omega)
    refine eqOn_chain (eqOn_chain (eqOn_chain hvalue
      (ByteMem.writeInt_eqOn (a := recordAt i + 548) _ 0 ?_ ?_))
      (ByteMem.writeInt_eqOn (a := recordAt i + 552) _ 1 ?_ ?_))
      (ByteMem.writeInt_eqOn (a := recordAt i + 556) _ 1 ?_ ?_)
    all_goals omega
  refine ⟨?_, ?_, ?_, ?_, ?_⟩
  · exact eqOn_chain (eqOn_widen hcopy (by omega) (by omega))
      (eqOn_widen hrest (by omega) (by omega))
  · rw [eqOn_outside] at hrest
    have hlen := name.stored_length
    refine (ByteMem.Holds.congr fun x hx hx' => ?_).mpr hholds
    apply hrest
    have hx'' : x < recordAt i + name.stored.length := hx'
    omega
  · refine (ByteMem.readInt_writeInt_of_ne ?_).trans ((ByteMem.readInt_writeInt_of_ne ?_).trans
      (ByteMem.readInt_writeInt_of_range ?_))
    · omega
    · omega
    · decide
  · refine (ByteMem.readInt_writeInt_of_ne ?_).trans (ByteMem.readInt_writeInt_of_range ?_)
    · omega
    · decide
  · apply ByteMem.readInt_writeInt_of_range
    decide

theorem newRecord_value (m : ByteMem) (i : Fin maxSemaphores) {v : Int}
    (hv : -2 ^ 31 ≤ v ∧ v < 2 ^ 31) : value (newRecord m i name v) i = v := by
  refine (ByteMem.readInt_writeInt_of_ne ?_).trans ((ByteMem.readInt_writeInt_of_ne ?_).trans
    ((ByteMem.readInt_writeInt_of_ne ?_).trans (ByteMem.readInt_writeInt_of_range hv)))
  all_goals omega

/-- **`sem_open` writes into the record it returns**, and nowhere else. -/
theorem semOpen_within (m : ByteMem) (v : Int) (hn : name.bytes.length < nameLen) :
    ((SemTable.semOpen m name v).2 = -1 ∧ (SemTable.semOpen m name v).1 = m) ∨
      ∃ i, (SemTable.semOpen m name v).2 = (i.val : Int) ∧
        Within i m (SemTable.semOpen m name v).1 := by
  unfold SemTable.semOpen
  split
  · rename_i i hi
    exact .inr ⟨i, rfl, setRefCount_within m i _⟩
  · split
    · exact .inl ⟨rfl, rfl⟩
    · rename_i i hi
      exact .inr ⟨i, rfl, (newRecord_spec m i v hn).1⟩

/-- **`sem_close`** writes into the record it is given. -/
theorem semClose_within (m : ByteMem) (semId : Int) :
    (SemTable.semClose m semId).1 = m ∨ ∃ i, Within i m (SemTable.semClose m semId).1 := by
  unfold SemTable.semClose
  split
  · exact .inl rfl
  · rename_i i hi
    have hset := setRefCount_within m i (SemTable.refCount m i - 1)
    refine .inr ⟨i, ?_⟩
    simp only
    split
    · exact eqOn_chain (eqOn_chain hset (ByteMem.writeInt_eqOn _ 0 (by omega) (by omega)))
        (ByteMem.writeInt_eqOn _ 0 (by omega) (by omega))
    · exact hset

theorem Within.inTable (h : Within i m m₁) : InTable m m₁ := by
  have hrange := recordAt_range i
  exact eqOn_widen h (by omega) (by omega)

end Writes

/-! ### The invariant -/

/-- **The records hold the names of the open references.** -/
structure Named (x : SemRun) : Prop where
  ranged : ∀ i, Ranged x.mem i
  active : ∀ i, active x.mem i = if x.held i = 0 then 0 else 1
  refCount : ∀ i, refCount x.mem i = x.held i
  name : ∀ r ∈ x.refs, ∃ i : Fin maxSemaphores, r.2 = (i.val : Int) ∧
    x.mem.Holds (recordAt i) r.1.stored ∧ r.1.bytes.length < nameLen
  unique : ∀ r ∈ x.refs, ∀ r' ∈ x.refs, r.1 = r'.1 → r.2 = r'.2

namespace Named

variable {x : SemRun} {i : Fin maxSemaphores} {name : CString}

theorem of_blank (h : Blank x) : Named x := by
  have hread : ∀ (i : Fin maxSemaphores) (k : Int), 0 ≤ k → k < 557 →
      x.mem.readInt (recordAt i + k) = 0 := by
    intro i k hk hk'
    have hi := i.isLt
    apply ByteMem.readInt_zero
    intro a ha ha'
    unfold recordAt at ha ha'
    apply h.1
    · omega
    · omega
  have hheld : ∀ i, x.held i = 0 := by
    intro i
    unfold SemRun.held
    rw [h.2]
    rfl
  refine ⟨fun i => ?_, fun i => ?_, fun i => ?_, ?_, ?_⟩
  · unfold Ranged
    rw [show waitCount x.mem i = 0 from hread i 548 (by decide) (by decide)]
    decide
  · rw [hheld]
    exact hread i 552 (by decide) (by decide)
  · rw [hheld]
    exact hread i 556 (by decide) (by decide)
  · rw [h.2]
    intro r hr
    cases hr
  · rw [h.2]
    intro r hr
    cases hr

theorem active_iff (h : Named x) : SemTable.active x.mem i = 1 ↔ ∃ r ∈ x.refs, r.2 = (i.val : Int) := by
  have hheld : x.held i ≠ 0 ↔ ∃ r ∈ x.refs, r.2 = (i.val : Int) := by
    unfold SemRun.held
    rw [← Nat.pos_iff_ne_zero, List.countP_pos_iff]
    simp only [decide_eq_true_eq]
  rw [h.active i, ← hheld]
  split
  · rename_i h0
    exact iff_of_false (by decide) fun hne => hne h0
  · rename_i hne
    exact iff_of_true rfl hne

/-- The name of a reference lies in the record it refers to. -/
theorem holds (h : Named x) {r : CString × Int} (hr : r ∈ x.refs) (hi : r.2 = (i.val : Int)) :
    x.mem.Holds (recordAt i) r.1.stored := by
  obtain ⟨j, hj, hholds, -⟩ := h.name r hr
  have hij : i = j := Fin.ext (by omega)
  rw [hij]
  exact hholds

/-- References to one semaphore have been opened by one name. -/
theorem same_name (h : Named x) {r r' : CString × Int} (hr : r ∈ x.refs) (hr' : r' ∈ x.refs)
    (heq : r.2 = r'.2) : r.1 = r'.1 := by
  obtain ⟨i, hi, hholds, -⟩ := h.name r hr
  exact hholds.unique (h.holds hr' (heq.symm.trans hi))

/-- **`find_by_name` finds the open references.** -/
theorem findByName_eq_some (h : Named x) :
    findByName x.mem name = some i ↔ (name, (i.val : Int)) ∈ x.refs := by
  have hfound : ∀ j, findByName x.mem name = some j → (name, (j.val : Int)) ∈ x.refs := by
    intro j hj
    have hp := List.find?_some hj
    simp only [decide_eq_true_eq] at hp
    obtain ⟨r, hr, hrj⟩ := h.active_iff.mp hp.1
    have hname : r.1 = name := (h.holds hr hrj).unique ((strcmp_eq_zero name.noNul).mp hp.2)
    rwa [← hname, ← hrj]
  refine ⟨hfound i, fun hmem => ?_⟩
  have hsome : (findByName x.mem name).isSome := by
    unfold findByName
    rw [List.find?_isSome]
    refine ⟨i, List.mem_finRange i, ?_⟩
    simp only [decide_eq_true_eq]
    exact ⟨h.active_iff.mpr ⟨_, hmem, rfl⟩, (strcmp_eq_zero name.noNul).mpr (h.holds hmem rfl)⟩
  obtain ⟨j, hj⟩ := Option.isSome_iff_exists.mp hsome
  have hij : ((i.val : Int)) = (j.val : Int) := h.unique _ hmem _ (hfound j hj) rfl
  rw [hj, Fin.ext (by omega : i.val = j.val)]

/-- A free slot has no references. -/
theorem findFreeSlot_some (h : Named x) (hi : findFreeSlot x.mem = some i) :
    ∀ r ∈ x.refs, r.2 ≠ (i.val : Int) := by
  have hp := List.find?_some hi
  simp only [decide_eq_true_eq] at hp
  intro r hr hri
  rw [h.active_iff.mpr ⟨r, hr, hri⟩] at hp
  exact absurd hp (by decide)

/-- **Names and identifiers**: `sem_open` returns the identifier of an open
reference exactly if that has the same name. -/
theorem semOpen_iff (h : Named x) (v : Int) {r : CString × Int} (hr : r ∈ x.refs) :
    (SemTable.semOpen x.mem name v).2 = r.2 ↔ r.1 = name := by
  obtain ⟨i, hi, -, -⟩ := h.name r hr
  constructor
  · intro hret
    unfold SemTable.semOpen at hret
    split at hret
    · rename_i j hj
      exact h.same_name hr (h.findByName_eq_some.mp hj) hret.symm
    · split at hret
      · simp only at hret
        omega
      · rename_i j hj
        exact absurd hret.symm (h.findFreeSlot_some hj r hr)
  · intro hname
    have hfind : findByName x.mem name = some i := by
      rw [h.findByName_eq_some, ← hname, ← hi]
      exact hr
    unfold SemTable.semOpen
    rw [hfind]
    exact hi.symm

/-! ### Every call keeps it -/

/-- A record that is as before still holds its name. -/
theorem holds_of_same (h : Named x) {m : ByteMem}
    (hname : ∀ a, recordAt i ≤ a → a < recordAt i + 32 → m a = x.mem a) {r : CString × Int}
    (hr : r ∈ x.refs) (hi : r.2 = (i.val : Int)) : m.Holds (recordAt i) r.1.stored := by
  obtain ⟨-, -, -, hlen⟩ := h.name r hr
  have hstored := r.1.stored_length
  unfold nameLen at hlen
  refine (ByteMem.Holds.congr fun a ha ha' => ?_).mpr (h.holds hr hi)
  exact hname a ha (by omega)

theorem keepsNames (h : Named x) {m : ByteMem} (hm : KeepsNames x.mem m) (s : Sched) :
    Named (x.after (s, m)) where
  ranged := hm.ranged
  active := fun i => (hm.active i).trans (h.active i)
  refCount := fun i => (hm.refCount i).trans (h.refCount i)
  name := by
    intro r hr
    obtain ⟨i, hi, -, hlen⟩ := h.name r hr
    exact ⟨i, hi, h.holds_of_same (hm.name i) hr hi, hlen⟩
  unique := h.unique

/-- A change within the record of semaphore `i`. -/
theorem ranged_of_within (h : Named x) {m : ByteMem} (hm : Within i x.mem m) (hranged : Ranged m i)
    (j : Fin maxSemaphores) : Ranged m j := by
  rcases eq_or_ne j i with rfl | hne
  · exact hranged
  · unfold Ranged
    rw [(hm.sameRecord hne).waitCount]
    exact h.ranged j

/-- One more reference to semaphore `i`. -/
theorem grow (h : Named x) {m : ByteMem} (hm : Within i x.mem m) (hranged : Ranged m i)
    (hactive : SemTable.active m i = 1) (hcount : SemTable.refCount m i = x.held i + 1)
    (hholds : m.Holds (recordAt i) name.stored) (hlen : name.bytes.length < nameLen)
    (hiff : ∀ r ∈ x.refs, r.1 = name ↔ r.2 = (i.val : Int)) :
    Named { x with mem := m, refs := (name, (i.val : Int)) :: x.refs } := by
  have hheld : ∀ j, SemRun.held { x with mem := m, refs := (name, (i.val : Int)) :: x.refs } j =
      if j = i then x.held i + 1 else x.held j := by
    intro j
    unfold SemRun.held
    rw [List.countP_cons]
    rcases eq_or_ne j i with rfl | hne
    · simp
    · have hval : ¬ (i.val : Int) = (j.val : Int) := fun he => hne (Fin.ext (by omega))
      simp [hne, hval]
  refine ⟨fun j => ?_, fun j => ?_, fun j => ?_, fun r hr => ?_, fun r hr r' hr' heq => ?_⟩
  · exact h.ranged_of_within hm hranged j
  · rw [hheld]
    rcases eq_or_ne j i with rfl | hne
    · rw [if_pos rfl, if_neg (Nat.succ_ne_zero _)]
      exact hactive
    · rw [if_neg hne]
      exact (hm.sameRecord hne).active.trans (h.active j)
  · rw [hheld]
    rcases eq_or_ne j i with rfl | hne
    · rw [if_pos rfl]
      exact hcount
    · rw [if_neg hne]
      exact (hm.sameRecord hne).refCount.trans (h.refCount j)
  · rcases List.mem_cons.mp hr with rfl | hold
    · exact ⟨i, rfl, hholds, hlen⟩
    · obtain ⟨j, hj, -, hlen'⟩ := h.name r hold
      rcases eq_or_ne j i with rfl | hne
      · -- a reference to the same semaphore has the same name
        rw [(hiff r hold).mpr hj]
        exact ⟨j, hj, hholds, hlen⟩
      · exact ⟨j, hj, h.holds_of_same (hm.sameRecord hne).name hold hj, hlen'⟩
  · rcases List.mem_cons.mp hr with rfl | hold
    · rcases List.mem_cons.mp hr' with rfl | hold'
      · rfl
      · exact ((hiff r' hold').mp heq.symm).symm
    · rcases List.mem_cons.mp hr' with rfl | hold'
      · exact (hiff r hold).mp heq
      · exact h.unique r hold r' hold' heq

theorem semOpen (h : Named x) (v : Int) (hfit : Fits x (.semOpen name v)) :
    Named (x.afterOpen name (SemTable.semOpen x.mem name v)) := by
  obtain ⟨hlen, hmax⟩ := hfit
  have hiff : ∀ r ∈ x.refs, (SemTable.semOpen x.mem name v).2 = r.2 ↔ r.1 = name :=
    fun r hr => h.semOpen_iff v hr
  have hne : ∀ i : Fin maxSemaphores, (i.val : Int) ≠ -1 := fun i => by omega
  unfold SemTable.semOpen at hiff ⊢
  unfold SemRun.afterOpen
  split
  · rename_i i hi
    have hmem := h.findByName_eq_some.mp hi
    have hfix : SemTable.waitCount (setRefCount x.mem i (SemTable.refCount x.mem i + 1)) i =
        waitCount x.mem i := ByteMem.readInt_writeInt_of_ne (by omega)
    rw [hi] at hiff
    rw [if_neg (hne i)]
    apply h.grow (setRefCount_within x.mem i _)
    · unfold Ranged
      rw [hfix]
      exact h.ranged i
    · refine (ByteMem.readInt_writeInt_of_ne (by omega)).trans ?_
      exact h.active_iff.mpr ⟨_, hmem, rfl⟩
    · rw [h.refCount i]
      have hi' := hmax i
      exact ByteMem.readInt_writeInt_of_range (by omega)
    · refine h.holds_of_same (fun a ha ha' => ?_) hmem rfl
      have hset := ByteMem.writeInt_eqOn (a := recordAt i + 556) x.mem
        (SemTable.refCount x.mem i + 1) le_rfl le_rfl
      rw [eqOn_outside] at hset
      exact hset a (by omega)
    · exact hlen
    · exact fun r hr => (hiff r hr).symm.trans eq_comm
  · rename_i hnone
    rw [hnone] at hiff
    split
    · exact ⟨h.ranged, h.active, h.refCount, h.name, h.unique⟩
    · rename_i i hi
      obtain ⟨hwithin, hholds, hcount, hactive, hrefs⟩ := newRecord_spec x.mem i v hlen
      have hfree := h.findFreeSlot_some hi
      have hheld : x.held i = 0 := by
        unfold SemRun.held
        rw [List.countP_eq_zero]
        intro r hr
        simpa using hfree r hr
      rw [hi] at hiff
      rw [if_neg (hne i)]
      apply h.grow hwithin
      · unfold Ranged
        rw [hcount]
        decide
      · exact hactive
      · rw [hrefs, hheld]
        rfl
      · exact hholds
      · exact hlen
      · exact fun r hr => (hiff r hr).symm.trans eq_comm

/-- One reference to semaphore `i` less. -/
theorem shrink (h : Named x) {m : ByteMem} (hm : Within i x.mem m)
    (hname : ∀ a, recordAt i ≤ a → a < recordAt i + 32 → m a = x.mem a) (hranged : Ranged m i)
    (hpos : 0 < x.held i) (hactive : SemTable.active m i = if x.held i = 1 then 0 else 1)
    (hcount : SemTable.refCount m i = x.held i - 1) :
    Named { x with mem := m, refs := x.refs.eraseP fun p => p.2 = (i.val : Int) } := by
  have hheld : ∀ j, SemRun.held
      { x with mem := m, refs := x.refs.eraseP fun p => p.2 = (i.val : Int) } j =
      if j = i then x.held i - 1 else x.held j := by
    intro j
    obtain ⟨r, hr, hri⟩ := List.countP_pos_iff.mp hpos
    obtain ⟨a, l₁, l₂, -, ha, hl, herase⟩ := List.exists_of_eraseP (p := fun p => p.2 = (i.val : Int)) hr hri
    simp only [decide_eq_true_eq] at ha
    unfold SemRun.held
    simp only
    rw [herase, hl]
    simp only [List.countP_append, List.countP_cons]
    rcases eq_or_ne j i with rfl | hne
    · simp only [ha, decide_true, if_true]
      omega
    · have hval : ¬ a.2 = (j.val : Int) := fun he => hne (Fin.ext (by omega))
      simp [hne, hval]
  have hsub : ∀ r ∈ x.refs.eraseP (fun p => p.2 = (i.val : Int)), r ∈ x.refs :=
    fun r hr => List.mem_of_mem_eraseP hr
  refine ⟨fun j => ?_, fun j => ?_, fun j => ?_, fun r hr => ?_,
    fun r hr r' hr' => h.unique r (hsub r hr) r' (hsub r' hr')⟩
  · exact h.ranged_of_within hm hranged j
  · rw [hheld]
    rcases eq_or_ne j i with rfl | hne
    · rw [if_pos rfl]
      refine hactive.trans ?_
      have hone : x.held j - 1 = 0 ↔ x.held j = 1 := by omega
      simp only [hone]
    · rw [if_neg hne]
      exact (hm.sameRecord hne).active.trans (h.active j)
  · rw [hheld]
    rcases eq_or_ne j i with rfl | hne
    · rw [if_pos rfl, hcount]
      omega
    · rw [if_neg hne]
      exact (hm.sameRecord hne).refCount.trans (h.refCount j)
  · obtain ⟨j, hj, -, hlen⟩ := h.name r (hsub r hr)
    refine ⟨j, hj, ?_, hlen⟩
    rcases eq_or_ne j i with rfl | hne
    · exact h.holds_of_same hname (hsub r hr) hj
    · exact h.holds_of_same (hm.sameRecord hne).name (hsub r hr) hj

theorem semClose (h : Named x) (semId : Int) :
    Named (x.afterClose semId (SemTable.semClose x.mem semId)) := by
  unfold SemTable.semClose SemRun.afterClose
  split
  · exact ⟨h.ranged, h.active, h.refCount, h.name, h.unique⟩
  · rename_i i hi
    obtain ⟨hidx, hact⟩ := Option.filter_eq_some_iff.mp hi
    obtain rfl := index?_eq_some hidx
    simp only [decide_eq_true_eq] at hact
    have hpos : 0 < x.held i := by
      have h1 := h.active i
      rw [hact] at h1
      split at h1
      · exact absurd h1 (by decide)
      · omega
    -- the count that has been read is an `int`
    have hmax : (x.held i : Int) < 2 ^ 31 := by
      rw [← h.refCount i]
      exact (ByteMem.readInt_range x.mem _).2
    have hset : Set.EqOn (setRefCount x.mem i (SemTable.refCount x.mem i - 1)) x.mem
        (outside (recordAt i + 548) (recordAt i + 560)) :=
      ByteMem.writeInt_eqOn x.mem _ (by omega) (by omega)
    have hcount : SemTable.refCount (setRefCount x.mem i (SemTable.refCount x.mem i - 1)) i =
        x.held i - 1 := by
      rw [h.refCount i]
      exact ByteMem.readInt_writeInt_of_range (by omega)
    simp only
    split
    · rename_i hle
      rw [hcount] at hle
      have hall : Set.EqOn (setWaitCount (setActive
          (setRefCount x.mem i (SemTable.refCount x.mem i - 1)) i 0) i 0) x.mem
          (outside (recordAt i + 548) (recordAt i + 560)) := by
        refine eqOn_chain (eqOn_chain hset
          (ByteMem.writeInt_eqOn (a := recordAt i + 552) _ 0 ?_ ?_))
          (ByteMem.writeInt_eqOn (a := recordAt i + 548) _ 0 ?_ ?_)
        all_goals omega
      rw [if_pos rfl]
      apply h.shrink (eqOn_widen hall (by omega) (by omega)) ?_ ?_ hpos
      · rw [if_pos (by omega)]
        refine (ByteMem.readInt_writeInt_of_ne ?_).trans (ByteMem.readInt_writeInt_of_range ?_)
        · omega
        · decide
      · refine Eq.trans ?_ hcount
        refine (ByteMem.readInt_writeInt_of_ne ?_).trans (ByteMem.readInt_writeInt_of_ne ?_)
        · omega
        · omega
      · rw [eqOn_outside] at hall
        exact fun a ha ha' => hall a (by omega)
      · unfold Ranged
        rw [show waitCount (setWaitCount _ i 0) i = 0 from
          ByteMem.readInt_writeInt_of_range (by decide)]
        decide
    · rename_i hgt
      rw [hcount] at hgt
      rw [if_pos rfl]
      apply h.shrink (setRefCount_within x.mem i _) ?_ ?_ hpos
      · rw [if_neg (by omega)]
        exact (ByteMem.readInt_writeInt_of_ne (by omega)).trans hact
      · exact hcount
      · rw [eqOn_outside] at hset
        exact fun a ha ha' => hset a (by omega)
      · have hfix : waitCount (setRefCount x.mem i (SemTable.refCount x.mem i - 1)) i =
            waitCount x.mem i := ByteMem.readInt_writeInt_of_ne (by omega)
        unfold Ranged
        rw [hfix]
        exact h.ranged i

theorem step (h : Named x) {l : SemCall} (hfit : Fits x l) {x' : SemRun}
    (hs : semMachine.step x l = some x') : Named x' := by
  cases l with
  | semOpen name v =>
      obtain rfl := Option.some.inj hs
      exact h.semOpen v hfit
  | semWait semId =>
      obtain rfl := Option.some.inj hs
      exact h.keepsNames (semWait_keepsNames h.ranged x.sched semId) _
  | semPost semId =>
      obtain rfl := Option.some.inj hs
      exact h.keepsNames (semPost_keepsNames h.ranged x.sched semId) _
  | semPostAll semId =>
      obtain rfl := Option.some.inj hs
      exact h.keepsNames (semPostAll_keepsNames h.ranged x.sched semId) _
  | semClose semId =>
      obtain rfl := Option.some.inj hs
      exact h.semClose semId
  | removeWaiting pid =>
      obtain rfl := Option.some.inj hs
      exact h.keepsNames (semRemoveWaitingPid_keepsNames h.ranged pid) _
  | schedule s =>
      obtain rfl := Option.some.inj hs
      exact h.keepsNames (.refl h.ranged) _

theorem of_reach {x₀ : SemRun} (h₀ : Blank x₀) (h : (semMachine.restrict Fits).Reach x₀ x) :
    Named x :=
  h.invariant (of_blank h₀) fun _ _ _ hx hg hs => hx.step hg.2 hs

end Named

/-! ### Names identify semaphores -/

/-- **Names that fit identify semaphores.**  In every run that opens only such
names, `sem_open` returns the identifier of an open reference exactly if that
was opened by the same name, open references of different names have different
identifiers, and opening writes to no byte outside of the record returned. -/
theorem names_identify {x₀ x : SemRun} (h₀ : Blank x₀)
    (h : (semMachine.restrict Fits).Reach x₀ x) (name : CString)
    (hname : name.bytes.length < nameLen) (v : Int) :
    (∀ r ∈ x.refs, (SemTable.semOpen x.mem name v).2 = r.2 ↔ r.1 = name) ∧
    (∀ r ∈ x.refs, ∀ r' ∈ x.refs, r.2 = r'.2 ↔ r.1 = r'.1) ∧
    (((SemTable.semOpen x.mem name v).2 = -1 ∧ (SemTable.semOpen x.mem name v).1 = x.mem) ∨
      ∃ i : Fin maxSemaphores, (SemTable.semOpen x.mem name v).2 = (i.val : Int) ∧
        ∀ a, a < recordAt i ∨ recordAt i + 560 ≤ a →
          (SemTable.semOpen x.mem name v).1 a = x.mem a) := by
  have hx := Named.of_reach h₀ h
  refine ⟨fun r hr => hx.semOpen_iff v hr,
    fun r hr r' hr' => ⟨hx.same_name hr hr', hx.unique r hr r' hr'⟩, ?_⟩
  rcases semOpen_within x.mem v hname with hfull | ⟨i, hi, hwithin⟩
  · exact .inl hfull
  · exact .inr ⟨i, hi, eqOn_outside.mp hwithin⟩

/-- Nothing has been opened. -/
def SemRun.start : SemRun := ⟨Sched.schedulerInit 1000, fun _ => 0, []⟩

/-- The name of one byte. -/
def CString.single (c : UInt8) (h : c ≠ 0) : CString := ⟨[c], by simpa using h.symm⟩

/-- Two semaphores, the first one opened twice, posted, waited for and closed
once: opening its name again finds it, and leaves the other one alone. -/
theorem names_identify_reopened : ∃ x : SemRun, (semMachine.restrict Fits).Reach SemRun.start x ∧
    (SemTable.semOpen x.mem (.single 97 (by decide)) 5).2 = 0 ∧
    (SemTable.semOpen x.mem (.single 98 (by decide)) 5).2 = 1 := by
  obtain ⟨x, hr, ha, hb⟩ := (semMachine.restrict Fits).exists_reach_of_trace (s := SemRun.start)
    [.semOpen (.single 97 (by decide)) 1, .semOpen (.single 98 (by decide)) 0, .semPost 0,
      .semOpen (.single 97 (by decide)) 7, .semWait 0, .semClose 0]
    (P := fun x => (CString.single 97 (by decide), 0) ∈ x.refs ∧
      (CString.single 98 (by decide), 1) ∈ x.refs) (by decide +kernel)
  have hblank : Blank SemRun.start := ⟨fun _ _ _ => rfl, rfl⟩
  refine ⟨x, hr, ?_, ?_⟩
  · exact ((names_identify hblank hr _ (by decide) 5).1 _ ha).mpr rfl
  · exact ((names_identify hblank hr _ (by decide) 5).1 _ hb).mpr rfl

/-- `n` times the letter `a`. -/
def CString.letters (n : Nat) : CString :=
  ⟨List.replicate n 97, fun h => absurd (List.eq_of_mem_replicate h) (by decide)⟩

/-- The letter `a` for 32 times, and a byte 1. -/
def CString.lettersOne : CString :=
  ⟨List.replicate 32 97 ++ [1], by decide⟩

/-- **Names that do not fit.**  A name of 32 bytes ends in the value, here 1.  Opened
a second time it is not found, and gets another semaphore; the name that has the
value as one more byte gets the first one.  A name as long as a record writes into
the next one: semaphore 1 loses its name. -/
theorem long_names_fail :
    (∃ x : SemRun, semMachine.Reach SemRun.start x ∧ (CString.letters 32, 0) ∈ x.refs ∧
      (SemTable.semOpen x.mem (.letters 32) 1).2 = 1 ∧
      (SemTable.semOpen x.mem .lettersOne 1).2 = 0) ∧
    ∃ x : SemRun, semMachine.Reach SemRun.start x ∧
      (CString.single 98 (by decide), 1) ∈ x.refs ∧
      (SemTable.semOpen x.mem (.letters 560) 1).2 = 0 ∧
      x.mem (recordAt 1) = 98 ∧ (SemTable.semOpen x.mem (.letters 560) 1).1 (recordAt 1) = 0 := by
  constructor
  · exact semMachine.exists_reach_of_trace (s := SemRun.start) [.semOpen (.letters 32) 1]
      (P := fun x => (CString.letters 32, 0) ∈ x.refs ∧
        (SemTable.semOpen x.mem (.letters 32) 1).2 = 1 ∧
        (SemTable.semOpen x.mem .lettersOne 1).2 = 0) (by decide +kernel)
  · exact semMachine.exists_reach_of_trace (s := SemRun.start)
      [.semOpen (.single 97 (by decide)) 1, .semOpen (.single 98 (by decide)) 1, .semClose 0]
      (P := fun x => (CString.single 98 (by decide), 1) ∈ x.refs ∧
        (SemTable.semOpen x.mem (.letters 560) 1).2 = 0 ∧
        x.mem (recordAt 1) = 98 ∧ (SemTable.semOpen x.mem (.letters 560) 1).1 (recordAt 1) = 0)
      (by decide +kernel)

end TP2Kernel
