/-
TP2Kernel/PipeEnds.lean

The end points of the pipes.  `Kernel.ends` forgets everything about the pipes
but their end-point counts, and every pipe call acts on it as the operation of
`Ends` of the same purpose.  Semaphore calls do not touch the pipes
(`SamePipes`), so the posts in `pipe_close` disappear in this view.
-/
import TP2Kernel.EndPoints
import TP2Kernel.Wakes

namespace TP2Kernel

/-! ### Semaphore calls -/

/-- The pipes and their arrays are unchanged. -/
structure SamePipes (k k' : Kernel) : Prop where
  pipeTable : k'.pipeTable = k.pipeTable
  semData : k'.pipeSemData = k.pipeSemData
  semSpace : k'.pipeSemSpace = k.pipeSemSpace
  reservedReaders : k'.pipeReservedReaders = k.pipeReservedReaders
  reservedWriters : k'.pipeReservedWriters = k.pipeReservedWriters

namespace SamePipes

variable {k k' k'' : Kernel}

theorem refl (k : Kernel) : SamePipes k k := ⟨rfl, rfl, rfl, rfl, rfl⟩

theorem trans (h : SamePipes k k') (h' : SamePipes k' k'') : SamePipes k k'' :=
  ⟨h'.pipeTable.trans h.pipeTable, h'.semData.trans h.semData, h'.semSpace.trans h.semSpace,
    h'.reservedReaders.trans h.reservedReaders, h'.reservedWriters.trans h.reservedWriters⟩

theorem modifySem (k : Kernel) (i : Fin maxSemaphores) (f : Semaphore → Semaphore) :
    SamePipes k (k.modifySem i f) := ⟨rfl, rfl, rfl, rfl, rfl⟩

theorem onSched (k : Kernel) (f : Sched → Sched) : SamePipes k (k.onSched f) :=
  ⟨rfl, rfl, rfl, rfl, rfl⟩

theorem unblockOneWaiter (k : Kernel) (i : Fin maxSemaphores) :
    SamePipes k (k.unblockOneWaiter i) := by
  rw [Kernel.unblockOneWaiter_eq]
  split <;> exact ⟨rfl, rfl, rfl, rfl, rfl⟩

theorem semPost (k : Kernel) (semId : Int) : SamePipes k (k.semPost semId).1 := by
  simp only [Kernel.semPost]
  split
  · exact refl k
  · split
    · exact (modifySem k _ _).trans (unblockOneWaiter _ _)
    · exact ⟨rfl, rfl, rfl, rfl, rfl⟩

theorem postAllLoop (k : Kernel) (i : Fin maxSemaphores) (n : Nat) :
    SamePipes k (Kernel.postAllLoop i n k) := by
  induction n generalizing k with
  | zero => exact refl k
  | succ n ih =>
      simp only [Kernel.postAllLoop]
      split
      · exact refl k
      · exact ((modifySem k _ _).trans (unblockOneWaiter _ _)).trans (ih _)

theorem semPostAll (k : Kernel) (semId : Int) : SamePipes k (k.semPostAll semId).1 := by
  simp only [Kernel.semPostAll]
  split
  · exact refl k
  · split
    · exact (postAllLoop k _ _).trans ⟨rfl, rfl, rfl, rfl, rfl⟩
    · exact postAllLoop k _ _

theorem semClose (k : Kernel) (semId : Int) : SamePipes k (k.semClose semId).1 := by
  simp only [Kernel.semClose]
  split
  · exact refl k
  · split <;> exact ⟨rfl, rfl, rfl, rfl, rfl⟩

theorem semOpen (k : Kernel) (name : List UInt8) (v : Int) : SamePipes k (k.semOpen name v).1 := by
  simp only [Kernel.semOpen]
  split
  · exact ⟨rfl, rfl, rfl, rfl, rfl⟩
  · split
    · exact refl k
    · exact ⟨rfl, rfl, rfl, rfl, rfl⟩

theorem semWait (k : Kernel) (semId : Int) : SamePipes k (k.semWait semId).1 := by
  have hcase := k.semWait_cases semId
  generalize k.semWait semId = r at hcase
  cases hcase with
  | refused _ => exact refl k
  | takes i _ _ => exact ⟨rfl, rfl, rfl, rfl, rfl⟩
  | full i _ _ _ => exact ⟨rfl, rfl, rfl, rfl, rfl⟩
  | parks i _ _ _ => exact ⟨rfl, rfl, rfl, rfl, rfl⟩

theorem closePosts (k : Kernel) (p : Fin maxPipes) (w : Bool) :
    SamePipes k (k.closePosts p w) := by
  simp only [Kernel.closePosts]
  split
  · split
    · exact semPostAll k _
    · split
      · exact semPost k _
      · exact refl k
  · split
    · exact semPostAll k _
    · split
      · exact semPost k _
      · exact refl k

end SamePipes

/-! ### The counts -/

/-- The end of a pipe that a descriptor names. -/
def endOf (d : FileDescriptor) : Option (Fin maxPipes × Bool) :=
  match d.type with
  | .pipeRead => (index? maxPipes d.pipeId).map fun p => (p, false)
  | .pipeWrite => (index? maxPipes d.pipeId).map fun p => (p, true)
  | _ => none

/-- Close the end that a descriptor names. -/
def Ends.releaseFd (E : Ends (Fin maxPipes)) (d : FileDescriptor) : Ends (Fin maxPipes) :=
  match endOf d with
  | none => E
  | some (p, w) => E.release p w

namespace Kernel

variable (k : Kernel)

/-- The end-point counts of the pipes; `true` is the write end. -/
def ends : Ends (Fin maxPipes) where
  active := fun p => (k.pipeTable p).active
  held := fun p w => if w then (k.pipeTable p).writers else (k.pipeTable p).readers
  reserved := fun p w => if w then k.pipeReservedWriters p else k.pipeReservedReaders p

theorem ends_eq {k k' : Kernel} (h : SamePipes k k') : k'.ends = k.ends := by
  unfold ends
  rw [h.pipeTable, h.reservedReaders, h.reservedWriters]

/-- The five arrays decide the counts. -/
theorem ends_ext {k : Kernel} {E : Ends (Fin maxPipes)}
    (ha : ∀ q, (k.pipeTable q).active = E.active q)
    (hr : ∀ q, (k.pipeTable q).readers = E.held q false)
    (hw : ∀ q, (k.pipeTable q).writers = E.held q true)
    (hrr : ∀ q, k.pipeReservedReaders q = E.reserved q false)
    (hrw : ∀ q, k.pipeReservedWriters q = E.reserved q true) : k.ends = E := by
  obtain ⟨active, held, reserved⟩ := E
  unfold ends
  congr 1
  · funext q
    exact ha q
  · funext q v
    cases v
    · exact hr q
    · exact hw q
  · funext q v
    cases v
    · exact hrr q
    · exact hrw q

theorem dropEnd_ends (p : Fin maxPipes) (w : Bool) : (k.dropEnd p w).ends = k.ends.drop p w := by
  cases w <;> refine ends_ext (fun q => ?_) (fun q => ?_) (fun q => ?_) (fun q => ?_) fun q => ?_
  all_goals
    by_cases hq : q = p
    · subst hq
      simp [dropEnd, Ends.drop, Ends.set, ends]
    · simp [dropEnd, Ends.drop, Ends.set, ends, modifyPipe_pipeTable, hq]

theorem retire_ends (p : Fin maxPipes) : (k.retire p).ends = k.ends.retire p := by
  have hc : ((k.pipeTable p).readers = 0 ∧ (k.pipeTable p).writers = 0) ↔
      k.ends.held p false = 0 ∧ k.ends.held p true = 0 := Iff.rfl
  unfold retire Ends.retire
  split
  · rename_i h
    rw [if_pos (hc.mp h)]
    simp only
    rw [ends_eq (SamePipes.semClose _ _), ends_eq (SamePipes.semClose _ _)]
    refine ends_ext (fun q => ?_) (fun q => ?_) (fun q => ?_) (fun q => ?_) fun q => ?_
    all_goals
      by_cases hq : q = p
      · subst hq
        simp [ends]
      · simp [ends, modifyPipe_pipeTable, hq]
  · rename_i h
    rw [if_neg fun hz => h (hc.mpr hz)]

/-- **`pipe_close`** closes the end. -/
theorem pipeClose_ends {pipeId : Int} {p : Fin maxPipes} (h : k.validPipe pipeId = some p)
    (w : Bool) : (k.pipeClose pipeId w).1.ends = k.ends.close p w := by
  simp only [pipeClose, h]
  rw [retire_ends, ends_eq (SamePipes.closePosts _ p w), dropEnd_ends]
  rfl

theorem pipeClose_index (pipeId : Int) (w : Bool) :
    (k.pipeClose pipeId w).1.ends =
      match index? maxPipes pipeId with
      | none => k.ends
      | some p => k.ends.release p w := by
  rcases hi : index? maxPipes pipeId with - | p
  · have hv : k.validPipe pipeId = none := by rw [validPipe, hi]; rfl
    simp only [pipeClose, hv]
  · unfold Ends.release
    by_cases ha : (k.pipeTable p).active = true
    · have hv : k.validPipe pipeId = some p := by
        rw [validPipe, hi, Option.filter_some, if_pos ha]
      simp only
      rw [if_pos (show k.ends.active p = true from ha)]
      exact k.pipeClose_ends hv w
    · have hv : k.validPipe pipeId = none := by
        rw [validPipe, hi, Option.filter_some, if_neg ha]
      simp only
      rw [if_neg (show ¬ k.ends.active p = true from ha)]
      simp only [pipeClose, hv]

theorem releaseFd_ends (d : FileDescriptor) : (k.releaseFd d).ends = k.ends.releaseFd d := by
  unfold releaseFd Ends.releaseFd endOf
  rcases d.type
  · rfl
  · rfl
  · rfl
  · simp only
    rw [pipeClose_index]
    cases index? maxPipes d.pipeId <;> rfl
  · simp only
    rw [pipeClose_index]
    cases index? maxPipes d.pipeId <;> rfl

/-- **`pipe_attach`** counts a user. -/
theorem pipeAttach_ends {pipeId : Int} {p : Fin maxPipes} (h : k.validPipe pipeId = some p)
    (w : Bool) : (k.pipeAttach pipeId w).1.ends = k.ends.attach p w := by
  simp only [pipeAttach, h]
  unfold Ends.attach
  have hres : k.ends.reserved p w =
      if w then k.pipeReservedWriters p else k.pipeReservedReaders p := rfl
  cases w
  all_goals
    simp only [Bool.false_eq_true, if_false, if_true] at hres ⊢
    rw [hres]
    split
    all_goals
      refine ends_ext (fun q => ?_) (fun q => ?_) (fun q => ?_) (fun q => ?_) fun q => ?_
      all_goals
        by_cases hq : q = p
        · subst hq
          simp [Ends.set, ends]
        · simp [Ends.set, ends, modifyPipe_pipeTable, hq]

/-- `pipe_open_with_capacity` up to the call of `pipe_init_sems`. -/
def openPrep (p : Fin maxPipes) (capacity : Int) : Kernel :=
  { k.modifyPipe p (fun b =>
      { b with
        readPos := 0, writePos := 0, count := 0, capacity := capacity.toNat, readers := 1,
        writers := 1, active := true }) with
    pipeReservedReaders := Function.update k.pipeReservedReaders p 1
    pipeReservedWriters := Function.update k.pipeReservedWriters p 1 }

theorem pipeOpenWithCapacity_eq (c : Int) :
    k.pipeOpenWithCapacity c = (k, -1) ∨ ∃ p, (k.pipeTable p).active = false ∧
      (0 < c ∧ c ≤ pipeBufSize) ∧
      k.pipeOpenWithCapacity c = ((k.openPrep p c).pipeInitSems p, (p.val : Int)) := by
  unfold pipeOpenWithCapacity
  split
  · exact .inl rfl
  · split
    · exact .inl rfl
    · rename_i p hp
      have hfree := List.find?_some hp
      exact .inr ⟨p, by simpa using hfree, by omega, rfl⟩

theorem pipeInitSems_pipeTable (p : Fin maxPipes) : (k.pipeInitSems p).pipeTable = k.pipeTable := by
  simp only [pipeInitSems]
  rw [(SamePipes.semOpen _ _ _).pipeTable]
  exact (SamePipes.semOpen k _ _).pipeTable

theorem pipeInitSems_reserved (p : Fin maxPipes) :
    (k.pipeInitSems p).pipeReservedReaders = k.pipeReservedReaders ∧
      (k.pipeInitSems p).pipeReservedWriters = k.pipeReservedWriters := by
  simp only [pipeInitSems]
  constructor
  · rw [(SamePipes.semOpen _ _ _).reservedReaders]
    exact (SamePipes.semOpen k _ _).reservedReaders
  · rw [(SamePipes.semOpen _ _ _).reservedWriters]
    exact (SamePipes.semOpen k _ _).reservedWriters

/-- **`pipe_open_with_capacity`** launches a pipe that was not active, or does
nothing. -/
theorem pipeOpenWithCapacity_ends (c : Int) :
    k.pipeOpenWithCapacity c = (k, -1) ∨
      ∃ p, (k.pipeTable p).active = false ∧ (k.pipeOpenWithCapacity c).2 = (p.val : Int) ∧
        (k.pipeOpenWithCapacity c).1.ends = k.ends.launch p := by
  rcases k.pipeOpenWithCapacity_eq c with hno | ⟨p, hfree, -, hopen⟩
  · exact .inl hno
  · refine .inr ⟨p, hfree, by rw [hopen], ?_⟩
    rw [hopen]
    refine ends_ext (fun q => ?_) (fun q => ?_) (fun q => ?_) (fun q => ?_) fun q => ?_
    all_goals
      simp only [pipeInitSems_pipeTable, (pipeInitSems_reserved _ _).1,
        (pipeInitSems_reserved _ _).2, openPrep]
      by_cases hq : q = p
      · subst hq
        simp [Ends.launch, ends]
      · simp [Ends.launch, ends, modifyPipe_pipeTable, hq]

/-! ### Closing all descriptors -/

/-- Waking processes does not touch descriptors. -/
theorem releaseFd_fds (d : FileDescriptor) (j : Slot) :
    ((k.releaseFd d).proc j).fds = (k.proc j).fds :=
  (k.releaseFd_releases d).wakes.field j PCB.fds fun _ => rfl

/-- The descriptors after one of them has been set. -/
theorem setFd_fds (i j : Slot) (fd fd' : Fin maxFds) (d : FileDescriptor) :
    ((k.onSched fun s => s.modify i (setFd fd d)).proc j).fds fd' =
      if j = i ∧ fd' = fd then d else (k.proc j).fds fd' := by
  show ((k.sched.modify i (setFd fd d)).processTable j).fds fd' = _
  by_cases hj : j = i
  · subst hj
    rw [Sched.modify_self]
    show Function.update _ _ _ _ = _
    rw [Function.update_apply]
    exact if_congr (and_iff_right rfl).symm rfl rfl
  · rw [Sched.modify_of_ne _ _ _ _ hj, if_neg fun h => hj h.1]
    rfl

theorem closeFd_fds (i j : Slot) (fd fd' : Fin maxFds) :
    ((k.closeFd i fd).proc j).fds fd' =
      if j = i ∧ fd' = fd then ⟨.none, -1⟩ else (k.proc j).fds fd' := by
  unfold closeFd
  rw [setFd_fds, releaseFd_fds]

theorem closeFd_ends (i : Slot) (fd : Fin maxFds) :
    (k.closeFd i fd).ends = k.ends.releaseFd ((k.proc i).fds fd) :=
  (ends_eq (SamePipes.onSched _ _)).trans (k.releaseFd_ends _)

theorem foldl_closeFd_fds (i j : Slot) (l : List (Fin maxFds)) (fd : Fin maxFds) :
    ((l.foldl (closeFd i) k).proc j).fds fd =
      if j = i ∧ fd ∈ l then ⟨.none, -1⟩ else (k.proc j).fds fd := by
  induction l generalizing k with
  | nil => exact (if_neg fun h => List.not_mem_nil h.2).symm
  | cons fd' l ih =>
      rw [List.foldl_cons, ih, closeFd_fds]
      by_cases hj : j = i
      · by_cases hl : fd ∈ l
        · rw [if_pos ⟨hj, hl⟩, if_pos ⟨hj, List.mem_cons_of_mem _ hl⟩]
        · rw [if_neg fun h => hl h.2]
          refine if_congr (and_congr_right fun _ => ?_) rfl rfl
          rw [List.mem_cons, or_iff_left hl]
      · rw [if_neg fun h => hj h.1, if_neg fun h => hj h.1, if_neg fun h => hj h.1]

theorem foldl_closeFd_ends (i : Slot) {l : List (Fin maxFds)} (hl : l.Nodup) :
    (l.foldl (closeFd i) k).ends = (l.map (k.proc i).fds).foldl Ends.releaseFd k.ends := by
  induction l generalizing k with
  | nil => rfl
  | cons fd l ih =>
      obtain ⟨hfd, hl⟩ := List.nodup_cons.mp hl
      -- the descriptors still to be closed are as they were
      have hrest : l.map ((k.closeFd i fd).proc i).fds = l.map (k.proc i).fds := by
        refine List.map_congr_left fun fd' hm => ?_
        have hne : ¬ (i = i ∧ fd' = fd) := fun h => hfd (h.2 ▸ hm)
        rw [closeFd_fds, if_neg hne]
      rw [List.foldl_cons, ih _ hl, hrest, closeFd_ends]
      rfl

/-- **`close_process_fds`** closes the ends the descriptors name. -/
theorem closeProcessFds_ends (i : Slot) :
    (k.closeProcessFds i).ends =
      ((List.finRange maxFds).map (k.proc i).fds).foldl Ends.releaseFd k.ends :=
  k.foldl_closeFd_ends i (List.nodup_finRange _)

theorem closeProcessFds_fds (i j : Slot) (fd : Fin maxFds) :
    ((k.closeProcessFds i).proc j).fds fd =
      if j = i then ⟨.none, -1⟩ else (k.proc j).fds fd := by
  refine (k.foldl_closeFd_fds i j _ fd).trans (if_congr (and_iff_left ?_) rfl rfl)
  exact List.mem_finRange fd

end Kernel

namespace Ends

variable {E : Ends (Fin maxPipes)}

theorem Settled.releaseFd {q : Fin maxPipes} (h : Settled E q) (d : FileDescriptor) :
    Settled (E.releaseFd d) q := by
  unfold Ends.releaseFd
  split
  · exact h
  · exact h.release

theorem Settled.releaseFd_held {q : Fin maxPipes} (h : Settled E q) (d : FileDescriptor)
    (v : Bool) : (E.releaseFd d).held q v = E.held q v - if endOf d = some (q, v) then 1 else 0 := by
  unfold Ends.releaseFd
  rcases endOf d with - | ⟨p, w⟩
  · rw [if_neg fun e => by cases e]
    rfl
  · rw [h.release_held]
    congr 1
    refine if_congr ?_ rfl rfl
    rw [Option.some.injEq]
    exact eq_comm

/-- Every descriptor takes its end down by one. -/
theorem Settled.foldl_held {q : Fin maxPipes} (h : Settled E q) (ds : List FileDescriptor)
    (v : Bool) : (ds.foldl Ends.releaseFd E).held q v
      = E.held q v - ds.countP fun d => endOf d = some (q, v) := by
  induction ds generalizing E with
  | nil => rfl
  | cons d ds ih =>
      rw [List.foldl_cons, ih (h.releaseFd d), h.releaseFd_held, List.countP_cons]
      simp only [decide_eq_true_eq]
      omega

end Ends

end TP2Kernel
