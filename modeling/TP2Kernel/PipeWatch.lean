/-
TP2Kernel/PipeWatch.lean

Who answers for a waiter of a pipe.  A side of a pipe sleeps in the queue of its
semaphore when it finds nothing to use: readers when there is no byte, writers
when there is no space.  Every byte that is moved and every end that is closed
posts one semaphore, so a wake-up stands for one unit, and the process that is
woken has to use it or to hand it on.

`Answered` counts this: while somebody sleeps in the queue of the side `w`, the
other side has an end, and every unit the side could use is answered for by a
process that has been released from the queue and has not looked again
(`roused`).  `owed` is how many such processes are missing; it is zero but while
a process is being ended.  A process that ends owes the unit it was woken for
until its own end of the pipe is closed, and that hands the wake-up on: as
somebody else still sleeps there, and holds an end, the closed end is not the
last one.
-/
import TP2Kernel.PipeAccounting
import TP2Kernel.PipeCounters

namespace TP2Kernel

/-- Two holders of one end. -/
theorem Ends.one_lt_names {P X : Type*} [DecidableEq P] [Fintype X] {f : X → Option (P × Bool)}
    {e : P × Bool} {x y : X} (hx : f x = some e) (hy : f y = some e) (hxy : x ≠ y) :
    1 < Ends.names f e :=
  Finset.one_lt_card.mpr ⟨x, Finset.mem_filter.mpr ⟨Finset.mem_univ x, hx⟩, y,
    Finset.mem_filter.mpr ⟨Finset.mem_univ y, hy⟩, hxy⟩

namespace Kernel

variable {k k' : Kernel} {park park' : Slot → Option (Fin maxSemaphores)}
  {i : Fin maxSemaphores} {p : Fin maxPipes} {n : Bool → Fin maxSemaphores}
  {owed owed' : Bool → Nat}

/-! ### Processes that have been released -/

/-- The number of processes that were parked in the queue of `i` and can run
again. -/
def roused (k : Kernel) (park : Slot → Option (Fin maxSemaphores)) (i : Fin maxSemaphores) : Nat :=
  k.headcount fun j => (k.life j).Awake ∧ park j = some i

theorem roused_mono (h : ∀ j, park j = some i → (k.life j).Awake →
    park' j = some i ∧ (k'.life j).Awake) : k.roused park i ≤ k'.roused park' i := by
  refine headcount_mono fun j _ hj => ?_
  obtain ⟨hpark, hawake⟩ := h j hj.2 hj.1
  exact ⟨hawake.ne_dead, hawake, hpark⟩

/-- All but one process go on as before. -/
theorem roused_le_succ {c : Slot} (h : ∀ j, j ≠ c → park j = some i → (k.life j).Awake →
    park' j = some i ∧ (k'.life j).Awake) : k.roused park i ≤ k'.roused park' i + 1 := by
  refine headcount_le_succ (v := c) fun j hjc _ hj => ?_
  obtain ⟨hpark, hawake⟩ := h j hjc hj.2 hj.1
  exact ⟨hawake.ne_dead, hawake, hpark⟩

theorem exists_of_roused_pos (h : 0 < k.roused park i) :
    ∃ j, (k.life j).Awake ∧ park j = some i := by
  obtain ⟨j, -, hj⟩ := exists_of_headcount_pos h
  exact ⟨j, hj⟩

/-- Posts and closes put nobody to sleep. -/
theorem awake_of_releases (h : Releases k k') {j : Slot} (hj : (k.life j).Awake) :
    (k'.life j).Awake := by
  rcases h.wakes.life j with hl | ⟨hb, -, -⟩
  · have hl' : k'.life j = k.life j := hl
    rwa [hl']
  · exact absurd hb hj.ne_blocked

theorem roused_of_releases (h : Releases k k') : k.roused park i ≤ k'.roused park i :=
  roused_mono fun _ hpark hj => ⟨hpark, awake_of_releases h hj⟩

/-- Posts and closes put nobody into a queue. -/
theorem waiting_ne_nil_of_releases (h : Releases k k') (hne : (k'.semTable i).waiting ≠ []) :
    (k.semTable i).waiting ≠ [] := by
  refine h.invariant (P := fun k' => (k'.semTable i).waiting ≠ [] → (k.semTable i).waiting ≠ [])
    id (fun k₁ k₂ h₁ hr hne₂ => h₁ ?_) hne
  have hmod : ∀ {m : Fin maxSemaphores} {f : Semaphore → Semaphore},
      ((f (k₁.semTable m)).waiting ≠ [] → (k₁.semTable m).waiting ≠ []) →
      ((k₁.modifySem m f).semTable i).waiting ≠ [] → (k₁.semTable i).waiting ≠ [] := by
    intro m f hf hi
    rw [modifySem_semTable] at hi
    split at hi
    · rename_i him
      rw [him]
      exact hf hi
    · exact hi
  cases hr with
  | pipes _ ht =>
      rw [ht] at hne₂
      exact hne₂
  | counts m _ hw =>
      refine hmod (fun hf => ?_) hne₂
      rcases hw with hw | hw
      · rwa [hw] at hf
      · exact absurd hw hf
  | closes m _ hw => exact hmod (fun hf => absurd hw hf) hne₂
  | grants m b _ hb =>
      refine hmod (f := fun s => s.setWaiting (released s.waiting b)) (fun _ hnil => ?_) hne₂
      rw [hnil] at hb
      cases hb

/-! ### Steady kernels -/

/-- The pids are in order, no priority is negative, and the queues and the
processes belong together. -/
structure Steady (k : Kernel) (park : Slot → Option (Fin maxSemaphores)) : Prop where
  pids : Pids k
  ranked : k.Ranked
  parked : Parked k park

/-- The pids do not depend on who waits and who runs. -/
theorem Pids.of_life (h : Pids k) (hf : Frame k.sched k'.sched)
    (hpid : ∀ j, (k'.life j).pid = (k.life j).pid)
    (hparent : ∀ j, (k'.life j).parentPid = (k.life j).parentPid)
    (hdead : ∀ j, (k'.life j).state = .dead ↔ (k.life j).state = .dead)
    (hidle : (k'.life 0).state ≠ .zombie) : Pids k' := by
  refine ⟨?_, fun j => ?_, fun j h0 hd => ?_, h.distinct.of_pid hpid, ?_, ?_, ?_, hidle⟩
  · rw [hf.nextPid]
    exact h.next
  · rw [hpid, hf.nextPid]
    exact h.fresh j
  · rw [hpid, hparent]
    exact h.live j h0 fun hd' => hd ((hdead j).mpr hd')
  · rw [hf.currentIdx]
    exact fun hd => h.current ((hdead _).mp hd)
  · rw [hpid]
    exact h.idle.1
  · exact fun hd => h.idle.2.1 ((hdead 0).mp hd)

namespace Steady

theorem releases (h : Steady k park) (hr : Releases k k') : Steady k' park := by
  refine ⟨?_, Releases.ranked hr h.ranked, h.parked.releases h.pids.distinct hr⟩
  have hstate : ∀ j, (k'.life j).state = (k.life j).state ∨
      (k.life j).state = .blocked ∧ (k'.life j).state = .ready := by
    intro j
    rcases hr.wakes.life j with hl | ⟨hb, -, hl⟩
    · exact .inl (congrArg Life.state hl)
    · exact .inr ⟨hb, congrArg Life.state hl⟩
  refine h.pids.of_life hr.wakes.frame hr.pid
    (fun j => hr.wakes.field j (fun q => q.life.parentPid) fun _ => rfl) (fun j => ?_) ?_
  · rcases hstate j with hs | ⟨hb, hs⟩
    · rw [hs]
    · rw [hs, hb]
      exact iff_of_false (by rintro ⟨⟩) (by rintro ⟨⟩)
  · rcases hstate 0 with hs | ⟨-, hs⟩
    · rw [hs]
      exact h.pids.idle.2.2
    · rw [hs]
      rintro ⟨⟩

/-- A change that keeps who is who and who waits. -/
theorem of_life (h : Steady k park) (hf : Frame k.sched k'.sched) (hp : Parked k' park')
    (hl : ∀ j, (k'.life j).pid = (k.life j).pid ∧ (k'.life j).parentPid = (k.life j).parentPid ∧
      (k'.life j).state = (k.life j).state ∧ (k'.life j).priority = (k.life j).priority) :
    Steady k' park' := by
  refine ⟨h.pids.of_life hf (fun j => (hl j).1) (fun j => (hl j).2.1) (fun j => ?_) ?_,
    fun j => ?_, hp⟩
  · rw [(hl j).2.2.1]
  · rw [(hl 0).2.2.1]
    exact h.pids.idle.2.2
  · rw [(hl j).2.2.2]
    exact h.ranked j

/-- **A post releases a waiter if there is one.** -/
theorem roused_post (h : Steady k park) {semId : Int} (hi : k.validSem semId = some i)
    (ht : (k.semTable i).Tight) (hne : (k.semTable i).waiting ≠ []) :
    k.roused park i + 1 ≤ (k.semPost semId).1.roused park i := by
  have hv : (k.semTable i).value < 0 := by
    have hlen := List.length_pos_iff.mpr hne
    unfold Semaphore.Tight at ht
    omega
  obtain ⟨w₀, hw₀⟩ := List.exists_mem_of_ne_nil _ hne
  obtain ⟨-, -, j₀, hj₀, hb₀, -⟩ := h.parked.asleep i w₀ hw₀
  obtain ⟨b, j, hb, hblocked, -, hready, hrest⟩ := semPost_serves h.pids h.ranked hi hv
    (fun w hw => ⟨(h.parked.asleep i w hw).2.1, (h.parked.asleep i w hw).1⟩)
    ⟨w₀, hw₀, j₀, hj₀, hb₀⟩
  -- the process that is served is parked here
  change (k.semPost semId).1.life j = _ at hready
  change ∀ j', j' ≠ j → (k.semPost semId).1.life j' = k.life j' at hrest
  obtain ⟨w, hmem, hpid⟩ := List.mem_map.mp (List.mem_of_getElem? hb)
  obtain ⟨-, hpos, j', hpid', -, hpark⟩ := h.parked.asleep i w hmem
  obtain rfl : j' = j := h.pids.distinct j' j (hpid'.trans hpid) (hpid' ▸ hpos)
  refine headcount_lt (v := j') ⟨?_, ?_, hpark⟩ fun j'' hd hj'' => ?_
  · rw [hready]
    rintro ⟨⟩
  · rw [hready]
    exact .inl rfl
  · have hne' : j'' ≠ j' := by
      rintro rfl
      exact hj''.1.ne_blocked hblocked
    rw [hrest j'' hne']
    exact ⟨hne', hd, hj''⟩

end Steady

/-! ### A pipe with semaphores of its own -/

/-- The pipe is open, its two semaphores are open and different, and no other
pipe has one of them. -/
@[mk_iff]
structure SoleOwner (k : Kernel) (p : Fin maxPipes) (n : Bool → Fin maxSemaphores) : Prop where
  active : (k.pipeTable p).active = true
  sem : ∀ w, k.wiring.sem p w = ((n w).val : Int)
  apart : n false ≠ n true
  isOpen : ∀ w, (k.semTable (n w)).active = true
  alone : ∀ q v w, q ≠ p → (k.pipeTable q).active = true → k.wiring.sem q v ≠ ((n w).val : Int)

instance (k : Kernel) (p : Fin maxPipes) (n : Bool → Fin maxSemaphores) :
    Decidable (SoleOwner k p n) := decidable_of_iff _ (soleOwner_iff k p n).symm

namespace SoleOwner

theorem validSem (h : SoleOwner k p n) (w : Bool) : k.validSem (k.wiring.sem p w) = some (n w) := by
  rw [h.sem w]
  exact validSem_of_active (h.isOpen w)

theorem sem_ne (h : SoleOwner k p n) (w : Bool) : k.wiring.sem p w ≠ ((n (!w)).val : Int) := by
  rw [h.sem w]
  exact fun e => Balance.side_ne h.apart w (Fin.ext (Int.ofNat.inj e)).symm

theorem sem_not_ne (h : SoleOwner k p n) (w : Bool) : k.wiring.sem p (!w) ≠ ((n w).val : Int) := by
  have hne := h.sem_ne !w
  rwa [Bool.not_not] at hne

/-- Another pipe does not touch the two semaphores. -/
theorem apart_of_ne (h : SoleOwner k p n) {q : Fin maxPipes} (hq : q ≠ p)
    (hact : (k.pipeTable q).active = true) (w : Bool) : k.Apart (n w) q :=
  ⟨h.alone q false w hq hact, h.alone q true w hq hact⟩

/-- What keeps the wiring keeps this. -/
theorem next (h : SoleOwner k p n) (hact : (k'.pipeTable p).active = true)
    (hsem : k'.wiring.sem = k.wiring.sem)
    (hopen : ∀ w, (k'.semTable (n w)).active = (k.semTable (n w)).active)
    (hback : ∀ q, (k'.pipeTable q).active = true → (k.pipeTable q).active = true) :
    SoleOwner k' p n := by
  refine ⟨hact, fun w => ?_, h.apart, fun w => (hopen w).trans (h.isOpen w),
    fun q v w hq hq' => ?_⟩
  · rw [hsem]
    exact h.sem w
  · rw [hsem]
    exact h.alone q v w hq (hback q hq')

theorem of_wiring (h : SoleOwner k p n) (hw : k'.wiring = k.wiring) : SoleOwner k' p n := by
  have hact : ∀ q, (k'.pipeTable q).active = (k.pipeTable q).active :=
    congrFun (congrArg Wiring.active hw)
  refine h.next ((hact p).trans h.active) (congrArg Wiring.sem hw) (fun w => ?_) fun q hq =>
    (hact q).symm.trans hq
  exact congrArg (fun W : Wiring => (W.entry (n w)).2.1) hw

end SoleOwner

/-- A side of the pipe that sleeps has somebody on the other side, and every unit
it could use is answered for. -/
def Lively (k : Kernel) (p : Fin maxPipes) (i : Fin maxSemaphores)
    (park : Slot → Option (Fin maxSemaphores)) (owed : Nat) (w : Bool) : Prop :=
  (k.semTable i).waiting ≠ [] →
    0 < k.ends.held p (!w) ∧ (k.pipeTable p).avail w ≤ k.roused park i + owed

/-- Every unit of both sides is answered for. -/
structure Answered (k : Kernel) (p : Fin maxPipes) (n : Bool → Fin maxSemaphores)
    (park : Slot → Option (Fin maxSemaphores)) (owed : Bool → Nat) : Prop where
  steady : Steady k park
  tight : ∀ w, (k.semTable (n w)).Tight
  lively : ∀ w, k.Lively p (n w) park (owed w) w

/-- What becomes of a side when its queue gets no longer. -/
theorem Lively.next {w : Bool} {m m' : Nat} (h : k.Lively p i park m w)
    (hne : (k'.semTable i).waiting ≠ [] → (k.semTable i).waiting ≠ [])
    (hheld : 0 < k.ends.held p (!w) → 0 < k'.ends.held p (!w))
    (hunits : (k.semTable i).waiting ≠ [] →
      (k'.pipeTable p).avail w + (k.roused park i + m) ≤
        (k.pipeTable p).avail w + (k'.roused park' i + m')) : k'.Lively p i park' m' w := by
  intro hne'
  obtain ⟨hpos, hle⟩ := h (hne hne')
  have hu := hunits (hne hne')
  exact ⟨hheld hpos, by omega⟩

namespace Answered

theorem mono (h : Answered k p n park owed)
    (howed : ∀ w, (k.semTable (n w)).waiting ≠ [] → owed w ≤ owed' w) :
    Answered k p n park owed' := by
  refine ⟨h.steady, h.tight, fun w => (h.lively w).next id id fun hne => ?_⟩
  have hle := howed w hne
  omega

/-- A change that leaves the queues and the bytes of the pipe alone. -/
theorem frame (h : Answered k p n park owed) (hs : Steady k' park')
    (hvalue : ∀ w, (k'.semTable (n w)).value = (k.semTable (n w)).value)
    (hwaiting : ∀ w, (k'.semTable (n w)).waiting = (k.semTable (n w)).waiting)
    (hring : (k'.pipeTable p).ring = (k.pipeTable p).ring)
    (hheld : ∀ w, k.ends.held p w ≤ k'.ends.held p w)
    (hawake : ∀ j w, park j = some (n w) → (k.life j).Awake →
      park' j = some (n w) ∧ (k'.life j).Awake) : Answered k' p n park' owed := by
  refine ⟨hs, fun w => ?_, fun w => (h.lively w).next ?_ (fun hpos => hpos.trans_le (hheld _)) ?_⟩
  · have ht := h.tight w
    unfold Semaphore.Tight at ht ⊢
    rwa [hvalue, hwaiting]
  · rw [hwaiting]
    exact id
  · intro _
    have hr : k.roused park (n w) ≤ k'.roused park' (n w) := roused_mono fun j => hawake j w
    rw [Pipe.avail_of_ring hring]
    omega

/-- Posts and closes elsewhere. -/
theorem releases (h : Answered k p n park owed) (hr : Releases k k')
    (hsem : ∀ w, k'.semTable (n w) = k.semTable (n w))
    (hring : (k'.pipeTable p).ring = (k.pipeTable p).ring)
    (hheld : ∀ w, k.ends.held p w ≤ k'.ends.held p w) : Answered k' p n park owed :=
  h.frame (h.steady.releases hr) (fun w => by rw [hsem]) (fun w => by rw [hsem]) hring hheld
    fun _ _ hpark hj => ⟨hpark, awake_of_releases hr hj⟩

/-- A change of the scheduler that keeps who is who and who waits. -/
theorem sched (h : Answered k p n park owed) (hf : Frame k.sched k'.sched)
    (ht : k'.semTable = k.semTable) (hp : k'.pipeTable = k.pipeTable)
    (hl : ∀ j, (k'.life j).pid = (k.life j).pid ∧ (k'.life j).parentPid = (k.life j).parentPid ∧
      (k'.life j).state = (k.life j).state ∧ (k'.life j).priority = (k.life j).priority) :
    Answered k' p n park owed := by
  have hparked : Parked k' park :=
    h.steady.parked.frame ht fun j hb _ => ⟨(hl j).1, (hl j).2.2.1.trans hb, rfl⟩
  refine h.frame (h.steady.of_life hf hparked hl) (fun w => by rw [ht]) (fun w => by rw [ht])
    (by rw [hp]) (fun w => ?_) fun j w hpark hj => ⟨hpark, ?_⟩
  · unfold ends
    rw [hp]
  · unfold Life.Awake
    rw [(hl j).2.2.1]
    exact hj

theorem setFd (h : Answered k p n park owed) (j : Slot) (fd : Fin maxFds) (f : FileDescriptor) :
    Answered (k.onSched fun s => s.modify j (setFd fd f)) p n park owed := by
  refine h.sched (.modify _ _ _) rfl rfl fun i => ?_
  rw [onSched_life, Sched.modify_life _ j (f := Kernel.setFd fd f) fun _ => rfl]
  exact ⟨rfl, rfl, rfl, rfl⟩

end Answered

/-! ### Closing ends -/

theorem retire_sem (k : Kernel) (p : Fin maxPipes) : (k.retire p).wiring.sem = k.wiring.sem := by
  unfold retire
  split
  · funext q w
    unfold wiring
    simp only
    rw [(SamePipes.semClose _ _).semSpace, (SamePipes.semClose _ _).semData,
      (SamePipes.semClose _ _).semSpace, (SamePipes.semClose _ _).semData]
    rfl
  · rfl

theorem pipeClose_sem (k : Kernel) (pipeId : Int) (v : Bool) :
    (k.pipeClose pipeId v).1.wiring.sem = k.wiring.sem := by
  unfold pipeClose
  split
  · rfl
  · exact (retire_sem _ _).trans (congrArg Wiring.sem
      ((closePosts_wiring _ _ v).trans (k.dropEnd_wiring _ v)))

/-- The descriptor names the end that is closed. -/
theorem releaseFd_eq (k : Kernel) (f : FileDescriptor) :
    k.releaseFd f = (endOf f).elim k fun e => (k.pipeClose e.1.val e.2).1 := by
  have hnone : ∀ {pipeId : Int} (v : Bool), index? maxPipes pipeId = none →
      (k.pipeClose pipeId v).1 = k := by
    intro pipeId v h
    simp only [pipeClose, validPipe, h, Option.filter_none]
  unfold releaseFd endOf
  rcases f.type with - | - | - | - | - <;> simp only
  · rfl
  · rfl
  · rfl
  · rcases hi : index? maxPipes f.pipeId with - | q
    · exact hnone false hi
    · rw [index?_eq_some hi]
      rfl
  · rcases hi : index? maxPipes f.pipeId with - | q
    · exact hnone true hi
    · rw [index?_eq_some hi]
      rfl

/-- Closing an end of another pipe, or of none. -/
theorem SoleOwner.pipeClose_semTable (h : SoleOwner k p n) {q : Fin maxPipes} (hq : q ≠ p) (v w : Bool) :
    (k.pipeClose q.val v).1.semTable (n w) = k.semTable (n w) := by
  rcases hv : k.validPipe q.val with - | q'
  · simp only [pipeClose, hv]
  · obtain ⟨hact, hid⟩ := k.validPipe_some hv
    obtain rfl : q = q' := Fin.ext (Int.ofNat.inj hid)
    refine pipeClose_other (fun q' hq' => ?_) v
    rw [index?_natCast] at hq'
    obtain rfl := Option.some.inj hq'
    exact h.apart_of_ne hq hact w

theorem SoleOwner.pipeClose (h : SoleOwner k p n) (q : Fin maxPipes) (v : Bool)
    (hact : ((k.pipeClose q.val v).1.pipeTable p).active = true) :
    SoleOwner (k.pipeClose q.val v).1 p n := by
  refine h.next hact (k.pipeClose_sem _ v) (fun w => ?_) fun q' => (KeepsRings.pipeClose k _ v q').2
  by_cases hq : q = p
  · subst hq
    exact congrArg (fun W : Wiring => (W.entry (n w)).2.1) (pipeClose_wiring v hact)
  · rw [h.pipeClose_semTable hq]

namespace Answered

/-- **A post on a side** releases one of its sleepers, who answers for one unit
more. -/
theorem post (h : Answered k p n park owed) (ho : SoleOwner k p n) (v : Bool)
    (howed : ∀ w, (k.semTable (n w)).waiting ≠ [] → owed w ≤ owed' w + if w = v then 1 else 0) :
    Answered (k.semPost (k.wiring.sem p v)).1 p n park owed' := by
  have hrel := k.semPost_releases (k.wiring.sem p v)
  have hsame := SamePipes.semPost k (k.wiring.sem p v)
  have hother : (k.semPost (k.wiring.sem p v)).1.semTable (n !v) = k.semTable (n !v) :=
    semPost_other (ho.sem_ne v)
  refine ⟨h.steady.releases hrel, fun w => ?_, fun w => (h.lively w).next
    (waiting_ne_nil_of_releases hrel) (fun hpos => ?_) fun hne => ?_⟩
  · by_cases hw : w = v
    · subst hw
      exact (semPost_tight h.steady.parked h.steady.pids.distinct h.steady.ranked (ho.validSem w)
        (h.tight w)).1
    · obtain rfl : w = !v := Bool.eq_not.mpr hw
      rw [hother]
      exact h.tight !v
  · rwa [ends_eq hsame]
  · have hle := howed w hne
    rw [hsame.pipeTable]
    by_cases hw : w = v
    · subst hw
      have hpost := h.steady.roused_post (ho.validSem w) (h.tight w) hne
      rw [if_pos rfl] at hle
      omega
    · have hr : k.roused park (n w) ≤ (k.semPost (k.wiring.sem p v)).1.roused park (n w) :=
        roused_of_releases hrel
      rw [if_neg hw] at hle
      omega

/-- **Waking a whole side** settles it, whatever it was owed. -/
theorem postAll (hs : Steady k park) (ht : ∀ w, (k.semTable (n w)).Tight) (ho : SoleOwner k p n)
    {v : Bool} (hv : k.Lively p (n v) park (owed v) v) :
    Answered (k.semPostAll (k.wiring.sem p !v)).1 p n park owed := by
  have hrel := k.semPostAll_releases (k.wiring.sem p !v)
  have hsame := SamePipes.semPostAll k (k.wiring.sem p !v)
  obtain ⟨hnil, hvalue⟩ := semPostAll_tight (ho.validSem !v)
  have hother : (k.semPostAll (k.wiring.sem p !v)).1.semTable (n v) = k.semTable (n v) :=
    semPostAll_other (ho.sem_not_ne v)
  refine ⟨hs.releases hrel, fun w => ?_, fun w => ?_⟩
  · by_cases hw : w = v
    · subst hw
      rw [hother]
      exact ht w
    · obtain rfl : w = !v := Bool.eq_not.mpr hw
      exact .of_nil hnil hvalue
  · by_cases hw : w = v
    · subst hw
      refine hv.next (waiting_ne_nil_of_releases hrel) (fun hpos => ?_) fun _ => ?_
      · rwa [ends_eq hsame]
      · have hr : k.roused park (n w) ≤ (k.semPostAll (k.wiring.sem p !w)).1.roused park (n w) :=
          roused_of_releases hrel
        rw [hsame.pipeTable]
        omega
    · obtain rfl : w = !v := Bool.eq_not.mpr hw
      exact fun hne => absurd hnil hne

/-- One end less on the side `v` matters to the other side only. -/
theorem dropEnd_lively (h : Answered k p n park owed) (v w : Bool)
    (hheld : w ≠ v → k.ends.held p v - 1 ≠ 0) : (k.dropEnd p v).Lively p (n w) park (owed w) w := by
  have hrel := k.dropEnd_releases p v
  refine (h.lively w).next (waiting_ne_nil_of_releases hrel) (fun hpos => ?_) fun _ => ?_
  · rw [dropEnd_held]
    split
    · rename_i hw
      exact Nat.pos_of_ne_zero (hheld fun e => by rw [e] at hw; cases v <;> cases hw)
    · exact hpos
  · have hr : k.roused park (n w) ≤ (k.dropEnd p v).roused park (n w) := roused_of_releases hrel
    rw [Pipe.avail_of_ring (KeepsRings.dropEnd k p v p).1]
    omega

/-- **Closing an end of the pipe**: the last end of a side wakes the whole other
side, another one hands a wake-up on to its own side. -/
theorem closePosts (h : Answered k p n park owed) (ho : SoleOwner k p n) (v : Bool)
    (howed : ∀ w, (k.semTable (n w)).waiting ≠ [] →
      owed w ≤ owed' w + if w = v ∧ 1 < k.ends.held p v then 1 else 0) :
    Answered ((k.dropEnd p v).closePosts p v) p n park owed' := by
  have hsteady := h.steady.releases (k.dropEnd_releases p v)
  have hsem : (k.dropEnd p v).semTable = k.semTable := k.dropEnd_semTable p v
  have htight : ∀ w, ((k.dropEnd p v).semTable (n w)).Tight := by
    rw [hsem]
    exact h.tight
  have ho₁ : SoleOwner (k.dropEnd p v) p n := ho.of_wiring (k.dropEnd_wiring p v)
  have hdropped : (k.dropEnd p v).ends.held p v = k.ends.held p v - 1 :=
    (k.dropEnd_held p v v).trans (if_pos rfl)
  rw [closePosts_eq, hdropped]
  by_cases hlast : k.ends.held p v - 1 = 0
  · rw [if_pos hlast]
    refine postAll hsteady htight ho₁ ?_
    refine Lively.next (h.dropEnd_lively v v fun hne => absurd rfl hne) id id fun hne => ?_
    have hle := howed v (by rwa [← hsem])
    rw [if_neg fun hc => by omega] at hle
    omega
  · have h₁ : Answered (k.dropEnd p v) p n park owed :=
      ⟨hsteady, htight, fun w => h.dropEnd_lively v w fun _ => hlast⟩
    have hpays : ∀ w, ((k.dropEnd p v).semTable (n w)).waiting ≠ [] →
        owed w ≤ owed' w + if w = v then 1 else 0 := by
      intro w hne
      rw [hsem] at hne
      refine (howed w hne).trans (Nat.add_le_add_left ?_ _)
      split
      · rename_i hc
        rw [if_pos hc.1]
      · exact Nat.zero_le _
    rw [if_neg hlast]
    split
    · exact h₁.post ho₁ v hpays
    · -- nothing to use, so nothing to answer for
      rename_i huse
      refine ⟨hsteady, htight, fun w hne => ?_⟩
      obtain ⟨hpos, hle⟩ := h₁.lively w hne
      have hpay := hpays w hne
      refine ⟨hpos, ?_⟩
      by_cases hw : w = v
      · subst hw
        omega
      · rw [if_neg hw] at hpay
        omega

/-- **Giving a descriptor up.** -/
theorem releaseFd (h : Answered k p n park owed) (ho : SoleOwner k p n) (f : FileDescriptor)
    (hact : ((k.releaseFd f).pipeTable p).active = true)
    (howed : ∀ w, (k.semTable (n w)).waiting ≠ [] →
      owed w ≤ owed' w + if endOf f = some (p, w) ∧ 1 < k.ends.held p w then 1 else 0) :
    Answered (k.releaseFd f) p n park owed' ∧ SoleOwner (k.releaseFd f) p n := by
  rw [releaseFd_eq] at hact ⊢
  rcases he : endOf f with - | ⟨q, v⟩
  · refine ⟨h.mono fun w hne => ?_, ho⟩
    have hle := howed w hne
    rwa [he, if_neg fun hc => by cases hc.1] at hle
  · rw [he] at hact
    simp only [Option.elim] at hact ⊢
    refine ⟨?_, ho.pipeClose q v hact⟩
    by_cases hq : q = p
    · subst hq
      have hvalid := validPipe_of_active ho.active
      simp only [pipeClose, hvalid] at hact ⊢
      rw [retire_of_active hact]
      refine h.closePosts ho v fun w hne => (howed w hne).trans (Nat.add_le_add_left ?_ _)
      split
      · rename_i hc
        obtain rfl : v = w := (Prod.mk.inj (Option.some.inj (he.symm.trans hc.1))).2
        rw [if_pos ⟨rfl, hc.2⟩]
      · exact Nat.zero_le _
    · have hring := KeepsRings.pipeClose k q.val v
      have hends : ∀ w, (k.pipeClose q.val v).1.ends.held p w = k.ends.held p w := by
        intro w
        rw [pipeClose_index, index?_natCast]
        simp only [Ends.release]
        split
        · rw [Ends.close_held, if_neg fun e => hq (Prod.mk.inj e).1.symm]
        · rfl
      refine (h.releases (k.pipeClose_releases _ v) (ho.pipeClose_semTable hq v) (hring p).1
        fun w => (hends w).ge).mono fun w hne => ?_
      rw [ho.pipeClose_semTable hq] at hne
      have hle := howed w hne
      rw [he, if_neg fun hc => hq (Prod.mk.inj (Option.some.inj hc.1)).1] at hle
      exact hle

end Answered

/-! ### Ending a process -/

/-- Somebody who sleeps on a side of the pipe holds an end of that side, and is
not the process `i`. -/
def Backed (k : Kernel) (p : Fin maxPipes) (n : Bool → Fin maxSemaphores)
    (park : Slot → Option (Fin maxSemaphores)) (i : Slot) : Prop :=
  ∀ j w, (k.life j).state ≠ .dead → park j = some (n w) →
    j ≠ i ∧ ∃ fd, (k.proc j).fds fd = descriptor p w

/-- A process whose end of the pipe is closed while somebody sleeps there does
not hold the last end. -/
theorem Backed.two {j : Slot} (h : Backed k p n park j) (hacc : Accounted k) (hp : Parked k park)
    {w : Bool} (hne : (k.semTable (n w)).waiting ≠ []) (hj : (k.proc j).state ≠ .dead)
    {fd : Fin maxFds} (hfd : endOf ((k.proc j).fds fd) = some (p, w)) : 1 < k.ends.held p w := by
  obtain ⟨e, he⟩ := List.exists_mem_of_ne_nil _ hne
  obtain ⟨-, -, j', -, hb, hpark⟩ := hp.asleep _ e he
  have hlive : (k.proc j').state ≠ .dead := by
    have hb' : (k.proc j').state = .blocked := hb
    rw [hb']
    rintro ⟨⟩
  obtain ⟨hne', fd', hfd'⟩ := h j' w hlive hpark
  have hx : k.naming (j, fd) = some (p, w) := (naming_of_alive hj fd).trans hfd
  have hy : k.naming (j', fd') = some (p, w) :=
    (naming_of_alive hlive fd').trans (endOf_eq_some.mpr hfd')
  have htwo := Ends.one_lt_names hx hy fun e => hne' (Prod.mk.inj e).1.symm
  have hcount := hacc.balanced.count p w (hacc.balanced.named p w (by omega))
  omega

theorem Backed.closeFd {j : Slot} (h : Backed k p n park j) (fd : Fin maxFds) :
    Backed (k.closeFd j fd) p n park j := by
  intro j' w hd hpark
  obtain ⟨hne, fd', hfd'⟩ := h j' w (fun hd' => hd ((closeFd_dead j j' fd).mpr hd')) hpark
  refine ⟨hne, fd', ?_⟩
  rw [closeFd_fds, if_neg fun hc => hne hc.1]
  exact hfd'

/-- **Closing the descriptors of a process** one after the other: a unit that the
process was woken for is handed on when its end of the pipe is closed. -/
theorem Answered.foldl_closeFd {j : Slot} {l : List (Fin maxFds)} (hl : l.Nodup)
    (h : Answered k p n park owed) (ho : SoleOwner k p n) (hacc : Accounted k)
    (hj : (k.proc j).state ≠ .dead) (hback : Backed k p n park j)
    (howed : ∀ w, owed w = 0 ∨ owed w = 1 ∧ ∃ fd ∈ l, (k.proc j).fds fd = descriptor p w)
    (hact : ((l.foldl (closeFd j) k).pipeTable p).active = true) :
    Answered (l.foldl (closeFd j) k) p n park fun _ => 0 := by
  induction l generalizing k owed with
  | nil =>
      refine h.mono fun w _ => ?_
      rcases howed w with h0 | ⟨-, fd, hfd, -⟩
      · exact h0.le
      · exact absurd hfd List.not_mem_nil
  | cons fd l ih =>
      obtain ⟨hfd, hl'⟩ := List.nodup_cons.mp hl
      rw [List.foldl_cons] at hact ⊢
      have hact₁ : ((k.releaseFd ((k.proc j).fds fd)).pipeTable p).active = true :=
        (KeepsRings.endClosed.foldl_closeFd (k.closeFd j fd) j l p).2 hact
      -- what is still owed when the first descriptor is closed
      have hpays : ∀ w, (k.semTable (n w)).waiting ≠ [] → owed w ≤
          (if ∃ fd' ∈ l, (k.proc j).fds fd' = descriptor p w then owed w else 0) +
            if endOf ((k.proc j).fds fd) = some (p, w) ∧ 1 < k.ends.held p w then 1 else 0 := by
        intro w hne
        split
        · exact Nat.le_add_right _ _
        · rename_i hnone
          rcases howed w with h0 | ⟨h1, fd', hfd', hd'⟩
          · rw [h0]
            exact Nat.zero_le _
          · rcases List.mem_cons.mp hfd' with rfl | hmem
            · have hend := endOf_eq_some.mpr hd'
              rw [h1, if_pos ⟨hend, hback.two hacc h.steady.parked hne hj hend⟩]
            · exact absurd ⟨fd', hmem, hd'⟩ hnone
      obtain ⟨hw, ho'⟩ := h.releaseFd ho _ hact₁ hpays
      refine ih hl' (hw.setFd j fd ⟨.none, -1⟩) (ho'.of_wiring rfl) (closeFd_accounted hacc hj fd)
        (fun hd => hj ((closeFd_dead j j fd).mp hd)) (hback.closeFd fd) (fun w => ?_) hact
      split
      · rename_i hsome
        obtain ⟨fd', hmem, hd'⟩ := hsome
        refine (howed w).imp_right fun h1 => ⟨h1.1, fd', hmem, ?_⟩
        show ((k.closeFd j fd).proc j).fds fd' = _
        rw [closeFd_fds, if_neg]
        · exact hd'
        · rintro ⟨-, rfl⟩
          exact hfd hmem
      · exact .inl rfl

/-- The common part of `scheduler_exit_current` and `scheduler_kill`. -/
theorem Answered.closeAll {j : Slot} (h : Answered k p n park owed) (ho : SoleOwner k p n)
    (hacc : Accounted k) (hj : (k.proc j).state ≠ .dead) (hback : Backed k p n park j)
    (howed : ∀ w, owed w = 0 ∨ owed w = 1 ∧ ∃ fd, (k.proc j).fds fd = descriptor p w)
    {f : Sched → Sched} (hact : (((k.closeProcessFds j).onSched f).pipeTable p).active = true)
    (hs : Steady ((k.closeProcessFds j).onSched f) park')
    (hawake : ∀ i w, park i = some (n w) → ((k.closeProcessFds j).life i).Awake →
      park' i = some (n w) ∧ (((k.closeProcessFds j).onSched f).life i).Awake) :
    Answered ((k.closeProcessFds j).onSched f) p n park' fun _ => 0 := by
  have hclosed : Answered (k.closeProcessFds j) p n park fun _ => 0 := by
    refine h.foldl_closeFd (List.nodup_finRange _) ho hacc hj hback (fun w => ?_) hact
    refine (howed w).imp_right fun h1 => ?_
    obtain ⟨fd, hfd⟩ := h1.2
    exact ⟨h1.1, fd, List.mem_finRange fd, hfd⟩
  exact hclosed.frame hs (fun _ => rfl) (fun _ => rfl) rfl (fun _ => le_refl _) hawake

/-- The beginning of `scheduler_kill`: the process leaves the queues, and owes the
unit it was woken for. -/
theorem Answered.killPrep (h : Answered k p n park fun _ => 0) {i : Slot} {pid : Int}
    (hi : (k.life i).pid = pid) :
    Answered (k.killPrep i pid) p n (Function.update park i none)
      fun w => if (k.life i).Awake ∧ park i = some (n w) then 1 else 0 := by
  have hlife := k.killPrep_life i pid
  have hsub : ∀ m, ((k.killPrep i pid).semTable m).waiting ≠ [] →
      (k.semTable m).waiting ≠ [] := by
    intro m hne hnil
    have hnone : ((k.semRemoveWaitingPid pid).semTable m).waiting = [] := by
      simp only [semRemoveWaitingPid]
      split
      · show removePid (k.semTable m).waiting pid = []
        rw [hnil]
        rfl
      · exact hnil
    exact hne hnone
  have hparked : Parked (k.killPrep i pid) park := by
    refine (semRemoveWaitingPid_parked h.steady.parked pid).frame rfl fun j hb _ => ?_
    rw [hlife]
    exact ⟨rfl, hb, rfl⟩
  have hsteady : Steady (k.killPrep i pid) (Function.update park i none) := by
    refine h.steady.of_life (k.killPrep_frame i pid) (hparked.repark fun j _ hw => ?_) fun j => ?_
    · refine Function.update_of_ne ?_ _ _
      rintro rfl
      rw [hlife, hi] at hw
      exact ((waiting_semRemoveWaitingPid _ _ _).mp hw).2 rfl
    · rw [hlife]
      exact ⟨rfl, rfl, rfl, rfl⟩
  refine ⟨hsteady, fun w => semRemoveWaitingPid_tight (h.tight w) pid, fun w =>
    (h.lively w).next (hsub _) id fun _ => ?_⟩
  have hother : ∀ j, j ≠ i → park j = some (n w) → (k.life j).Awake →
      Function.update park i none j = some (n w) ∧ ((k.killPrep i pid).life j).Awake := by
    intro j hj hpark hawake
    rw [hlife, Function.update_of_ne hj]
    exact ⟨hpark, hawake⟩
  refine Nat.add_le_add_left ?_ ((k.pipeTable p).avail w)
  split
  · exact roused_le_succ hother
  · rename_i hno
    refine roused_mono fun j hpark hawake => hother j ?_ hpark hawake
    rintro rfl
    exact hno ⟨hawake, hpark⟩

/-- **Killing another process**: a wake-up it has not used goes to the next
sleeper. -/
theorem Answered.killOther (h : Answered k p n park fun _ => 0) (ho : SoleOwner k p n)
    (hacc : Accounted k) {i : Slot} {pid : Int} (hi : k.sched.findIndexByPid pid = some i)
    (hheld : ∀ j w, (k.life j).state ≠ .dead → park j = some (n w) →
      ∃ fd, (k.proc j).fds fd = descriptor p w)
    (hact : ((k.killOther i pid).pipeTable p).active = true)
    (hs : Steady (k.killOther i pid) park')
    (hpark : ∀ j w, park j = some (n w) → ((k.killOther i pid).life j).Awake →
      park' j = some (n w)) : Answered (k.killOther i pid) p n park' fun _ => 0 := by
  obtain ⟨hpid, hlive⟩ := Sched.findIndexByPid_some hi
  have hsame := fun j => killPrep_sameFds (k := k) i pid j
  refine (h.killPrep hpid).closeAll (ho.of_wiring ?_) ?_ (fun hd => hlive ((hsame i).2.mp hd))
    (fun j w hd hj => ?_) (fun w => ?_) hact hs fun j w hj hawake => ?_
  · exact wiring_eq (fun m => semRemoveWaitingPid_entry _ m pid) (fun _ => rfl) rfl rfl
  · exact hacc.of_quiet rfl fun j => .inl (hsame j)
  · by_cases hji : j = i
    · rw [hji, Function.update_self] at hj
      cases hj
    · rw [Function.update_of_ne hji] at hj
      rw [(hsame j).1]
      exact ⟨hji, hheld j w (fun hd' => hd ((hsame j).2.mpr hd')) hj⟩
  · split
    · rename_i hc
      rw [(hsame i).1]
      exact .inr ⟨rfl, hheld i w hlive hc.2⟩
    · exact .inl rfl
  · by_cases hji : j = i
    · rw [hji, Function.update_self] at hj
      cases hj
    · rw [Function.update_of_ne hji] at hj
      have hawake' : ((k.killOther i pid).life j).Awake := by
        unfold Kernel.killOther
        rw [onSched_life, bury_life, if_neg hji]
        exact hawake.woken _ _
      exact ⟨hpark j w hj hawake', hawake'⟩

/-- **A process ends**: one that does not sleep on the pipe owes nothing. -/
theorem Answered.schedulerExitCurrent (h : Answered k p n park fun _ => 0) (ho : SoleOwner k p n)
    (hacc : Accounted k) (h0 : k.sched.currentIdx ≠ 0)
    (hcur : ∀ w, park k.sched.currentIdx ≠ some (n w))
    (hheld : ∀ j w, (k.life j).state ≠ .dead → park j = some (n w) →
      ∃ fd, (k.proc j).fds fd = descriptor p w) (status : Int)
    (hact : ((k.schedulerExitCurrent status).pipeTable p).active = true)
    (hs : Steady (k.schedulerExitCurrent status) park')
    (hpark : ∀ j w, park j = some (n w) → ((k.schedulerExitCurrent status).life j).Awake →
      park' j = some (n w)) : Answered (k.schedulerExitCurrent status) p n park' fun _ => 0 := by
  have hlive := h.steady.pids.current
  simp only [Kernel.schedulerExitCurrent, if_neg h0] at hact hs hpark ⊢
  generalize k.sched.currentIdx = cur at hcur hlive hact hs hpark ⊢
  have hsame := fun j => exitPrep_sameFds (k := k) cur status j
  have hprep : Answered (k.exitPrep cur status) p n park fun _ => 0 := by
    refine h.sched (k.exitPrep_frame cur status) rfl rfl fun j => ?_
    rw [exitPrep_life]
    split
    · rename_i hj
      rw [hj]
      exact ⟨rfl, rfl, rfl, rfl⟩
    · exact ⟨rfl, rfl, rfl, rfl⟩
  refine hprep.closeAll (ho.of_wiring rfl) ?_ (fun hd => hlive ((hsame cur).2.mp hd))
    (fun j w hd hj => ?_) (fun w => .inl rfl) hact hs fun j w hj hawake => ?_
  · exact hacc.of_quiet rfl fun j => .inl (hsame j)
  · rw [(hsame j).1]
    refine ⟨?_, hheld j w (fun hd' => hd ((hsame j).2.mpr hd')) hj⟩
    rintro rfl
    exact hcur w hj
  · have hne : j ≠ cur := by
      rintro rfl
      exact hcur w hj
    refine and_iff_right_of_imp (hpark j w hj) |>.mpr ?_
    rw [onSched_life, leave_life, if_neg hne]
    exact hawake.woken _ _

end Kernel

end TP2Kernel
