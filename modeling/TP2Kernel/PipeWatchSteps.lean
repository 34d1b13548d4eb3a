/-
TP2Kernel/PipeWatchSteps.lean

Every piece of kernel code keeps the watch over a pipe.  A step of `pipe_read` or
`pipe_write` on the pipe uses one unit and posts the other semaphore, or parks its
caller after it has found nothing to use.  All the rest touches neither the bytes
of the pipe nor its queues, except by ending a process or by closing an end, and
those hand their wake-up on (`Harmless` says what has to be kept away from).
-/
import TP2Kernel.PipeWatch

namespace TP2Kernel

namespace Kernel

variable {k k' : Kernel} {park park' : Slot → Option (Fin maxSemaphores)}
  {p : Fin maxPipes} {n : Bool → Fin maxSemaphores}

/-! ### Steps of the pipe -/

/-- `sem_wait` puts nobody to sleep but its caller. -/
theorem semWait_awake (hp : Pids k) (h0 : k.sched.currentIdx ≠ 0) (semId : Int) {j : Slot}
    (hj : j ≠ k.sched.currentIdx) (ha : (k.life j).Awake) :
    ((k.semWait semId).1.life j).Awake := by
  show ((k.semWait semId).1.sched.life j).Awake
  rw [semWait_sched]
  split
  · rw [schedulerBlock_life, hp.find_current h0, if_neg fun e => hj (Option.some.inj e).symm]
    exact ha
  · exact ha

/-- The caller finds nothing on its side and waits; the other side goes on as before. -/
theorem Answered.sleeps {v : Bool} (h : Answered k p n park fun _ => 0) (ho : SoleOwner k p n)
    (hpos : 0 < k.ends.held p (!v)) (hnone : (k.pipeTable p).avail v = 0)
    (h0 : k.sched.currentIdx ≠ 0) (hw : ¬ k.Waiting k.sched.schedulerGetpid)
    (hs : Steady (k.semWait (k.wiring.sem p v)).1 park')
    (hcur : park k.sched.currentIdx ≠ some (n !v))
    (hpark : ∀ j, j ≠ k.sched.currentIdx → park' j = park j) :
    Answered (k.semWait (k.wiring.sem p v)).1 p n park' fun _ => 0 := by
  have hsame := SamePipes.semWait k (k.wiring.sem p v)
  have hkeep : (k.semWait (k.wiring.sem p v)).1.semTable (n !v) = k.semTable (n !v) :=
    semWait_other (ho.sem_ne v)
  refine ⟨hs, fun w => ?_, fun w => ?_⟩
  · by_cases hwv : w = v
    · subst hwv
      exact (semWait_tight (ho.validSem w) (h.tight w) hw).1
    · obtain rfl : w = !v := Bool.eq_not.mpr hwv
      rw [hkeep]
      exact h.tight !v
  · by_cases hwv : w = v
    · subst hwv
      intro _
      rw [ends_eq hsame, hsame.pipeTable, hnone]
      exact ⟨hpos, Nat.zero_le _⟩
    · obtain rfl : w = !v := Bool.eq_not.mpr hwv
      refine (h.lively !v).next ?_ ?_ fun _ => ?_
      · rw [hkeep]
        exact id
      · rw [ends_eq hsame]
        exact id
      · rw [hsame.pipeTable]
        have hr : k.roused park (n !v) ≤
            (k.semWait (k.wiring.sem p v)).1.roused park' (n !v) := by
          refine roused_mono fun j hj ha => ?_
          have hne : j ≠ k.sched.currentIdx := fun e => hcur (e ▸ hj)
          exact ⟨(hpark j hne).trans hj, semWait_awake h.steady.pids h0 _ hne ha⟩
        omega

/-- The caller uses a unit of its side and posts one to the other side. -/
theorem Answered.transfers {v : Bool} {move : Pipe → Pipe} (h : Answered k p n park fun _ => 0)
    (ho : SoleOwner k p n)
    (hless : (move (k.pipeTable p)).avail v + 1 ≤ (k.pipeTable p).avail v)
    (hmore : (move (k.pipeTable p)).avail (!v) ≤ (k.pipeTable p).avail (!v) + 1)
    (hends : ∀ b, (move b).active = b.active ∧ (move b).readers = b.readers ∧
      (move b).writers = b.writers)
    (hs : Steady k park') (hother : k.roused park (n !v) ≤ k.roused park' (n !v))
    (hown : k.roused park (n v) ≤ k.roused park' (n v) + 1) :
    Answered ((k.modifyPipe p move).semPost (k.wiring.sem p !v)).1 p n park' fun _ => 0 := by
  have hheld : ∀ w, (k.modifyPipe p move).ends.held p w = k.ends.held p w := by
    intro w
    unfold Kernel.ends
    simp only [modifyPipe_self, (hends _).2.1, (hends _).2.2]
  -- the byte is moved, and the other side is owed a wake-up
  have h₁ : Answered (k.modifyPipe p move) p n park' fun w => if w = v then 0 else 1 := by
    refine ⟨hs.releases (k.modifyPipe_releases p move), h.tight, fun w => ?_⟩
    refine (h.lively w).next id (fun hpos => ?_) fun _ => ?_
    · rwa [hheld]
    · rw [modifyPipe_self]
      show _ ≤ _ + (k.roused park' (n w) + _)
      by_cases hwv : w = v
      · subst hwv
        rw [if_pos rfl]
        omega
      · obtain rfl : w = !v := Bool.eq_not.mpr hwv
        rw [if_neg hwv]
        omega
  have ho₁ : SoleOwner (k.modifyPipe p move) p n :=
    ho.of_wiring (k.modifyPipe_wiring p fun b => (hends b).1)
  refine h₁.post ho₁ (!v) fun w _ => ?_
  by_cases hwv : w = v
  · rw [if_pos hwv]
    exact Nat.zero_le _
  · rw [if_neg hwv, if_pos (Bool.eq_not.mpr hwv)]

/-- **A step of `pipe_read` or `pipe_write`** by a process that does not wait and
was woken, if at all, on the side it works on.  It finds nothing and goes to
sleep, it finds the other side gone, or it uses the unit it answers for and wakes
one process of the other side for what it leaves there. -/
theorem StepCases.answered {α : Type} {v : Bool} {move : Pipe → Pipe} {dry shut live : Prop}
    {fl bl ag sp dn : α} {r : Kernel × α}
    (hr : k.StepCases p (k.wiring.sem p v) (k.wiring.sem p !v) move dry shut live fl bl ag sp dn r)
    (h : Answered k p n park fun _ => 0) (ho : SoleOwner k p n)
    (hdry : dry → 0 < k.ends.held p (!v) ∧ (k.pipeTable p).avail v = 0)
    (hshut : shut → k.ends.held p (!v) = 0)
    (hmove : live → (move (k.pipeTable p)).avail v + 1 ≤ (k.pipeTable p).avail v ∧
      (move (k.pipeTable p)).avail (!v) ≤ (k.pipeTable p).avail (!v) + 1)
    (hends : ∀ b, (move b).active = b.active ∧ (move b).readers = b.readers ∧
      (move b).writers = b.writers)
    (h0 : k.sched.currentIdx ≠ 0) (hw : ¬ k.Waiting k.sched.schedulerGetpid)
    (hs : Steady r.1 park') (hcur : ∀ w, park k.sched.currentIdx = some (n w) → w = v)
    (hpark : ∀ j, j ≠ k.sched.currentIdx → park' j = park j) :
    Answered r.1 p n park' fun _ => 0 := by
  have hcur' : park k.sched.currentIdx ≠ some (n !v) := by
    intro he
    have := hcur _ he
    cases v <;> cases this
  have hsteady : Steady k park' := by
    refine ⟨h.steady.pids, h.steady.ranked, h.steady.parked.repark fun j _ hj => hpark j ?_⟩
    rintro rfl
    exact hw hj
  -- the processes of the other side go on as before, and on this side all but the caller
  have hother : k.roused park (n !v) ≤ k.roused park' (n !v) := by
    refine roused_mono fun j hj ha => ⟨?_, ha⟩
    rw [hpark j fun e => hcur' (e ▸ hj)]
    exact hj
  have hown : k.roused park (n v) ≤ k.roused park' (n v) + 1 :=
    roused_le_succ fun j hj hjv ha => ⟨(hpark j hj).trans hjv, ha⟩
  cases hr with
  | waits hd =>
      obtain ⟨hpos, hnone⟩ := hdry hd
      exact h.sleeps ho hpos hnone h0 hw hs hcur' hpark
  | stops hd =>
      refine ⟨hs, h.tight, fun w => ?_⟩
      by_cases hwv : w = v
      · subst hwv
        intro hne
        have hpos := (h.lively w hne).1
        rw [hshut hd] at hpos
        cases hpos
      · obtain rfl : w = !v := Bool.eq_not.mpr hwv
        show k.Lively p (n !v) park' 0 !v
        exact (h.lively !v).next id id fun _ => by omega
  | moves hl =>
      obtain ⟨hless, hmore⟩ := hmove hl
      exact h.transfers ho hless hmore hends hsteady hother hown

theorem pipeReadStep_answered (h : Answered k p n park fun _ => 0) (ho : SoleOwner k p n)
    (h0 : k.sched.currentIdx ≠ 0) (hw : ¬ k.Waiting k.sched.schedulerGetpid)
    (hs : Steady (k.exec (.pipeRead p)) park')
    (hcur : ∀ w, park k.sched.currentIdx = some (n w) → w = false)
    (hpark : ∀ j, j ≠ k.sched.currentIdx → park' j = park j) :
    Answered (k.exec (.pipeRead p)) p n park' fun _ => 0 := by
  refine StepCases.answered (v := false) (k.pipeReadStep_cases p) h ho id And.left (fun hpos => ?_)
    (fun _ => ⟨rfl, rfl, rfl⟩) h0 hw hs hcur hpark
  show (k.pipeTable p).count - 1 + 1 ≤ (k.pipeTable p).count ∧
    (k.pipeTable p).capacity - ((k.pipeTable p).count - 1) ≤
      (k.pipeTable p).capacity - (k.pipeTable p).count + 1
  omega

theorem pipeWriteStep_answered (h : Answered k p n park fun _ => 0) (ho : SoleOwner k p n)
    (h0 : k.sched.currentIdx ≠ 0) (hw : ¬ k.Waiting k.sched.schedulerGetpid) (c : UInt8)
    (hs : Steady (k.exec (.pipeWrite p c)) park')
    (hcur : ∀ w, park k.sched.currentIdx = some (n w) → w = true)
    (hpark : ∀ j, j ≠ k.sched.currentIdx → park' j = park j) :
    Answered (k.exec (.pipeWrite p c)) p n park' fun _ => 0 := by
  refine StepCases.answered (v := true) (k.pipeWriteStep_cases p c) h ho
    (fun hd => ⟨hd.1, Nat.sub_eq_zero_of_le hd.2⟩) id (fun hl => ?_) (fun _ => ⟨rfl, rfl, rfl⟩) h0 hw
    hs hcur hpark
  show (k.pipeTable p).capacity - ((k.pipeTable p).count + 1) + 1 ≤
      (k.pipeTable p).capacity - (k.pipeTable p).count ∧
    (k.pipeTable p).count + 1 ≤ (k.pipeTable p).count + 1
  omega

/-! ### Everything else -/

/-- The semaphores are not those of the pipe. -/
def Op.Spares (n : Bool → Fin maxSemaphores) : Op → Prop
  | .semWait semId | .semPost semId | .semPostAll semId | .semClose semId =>
      ∀ w, semId ≠ ((n w).val : Int)
  | _ => True

instance (n : Bool → Fin maxSemaphores) : DecidablePred (Op.Spares n) := fun op => by
  induction op using Op.casesOn <;> dsimp only [Op.Spares] <;> infer_instance

/-- What a piece of kernel code must not do to the pipe and to the processes that
sleep on it; the steps of the pipe itself are another matter. -/
structure Harmless (k : Kernel) (p : Fin maxPipes) (n : Bool → Fin maxSemaphores)
    (park : Slot → Option (Fin maxSemaphores)) (op : Op) : Prop where
  spares : op.Spares n
  waits : ∀ pid, op ≠ .wait pid
  blocks : ∀ pid j w, op = .block pid → k.sched.findIndexByPid pid = some j →
    park j ≠ some (n w)
  own : k.Parks op ∨ k.target op = some k.sched.currentIdx →
    ∀ w, park k.sched.currentIdx ≠ some (n w)
  streams : ∀ q, (op = .pipeRead q ∨ ∃ c, op = .pipeWrite q c) →
    q ≠ p ∧ (k.pipeTable q).active = true

/-- Who can run goes on to be able to. -/
theorem LifeStep.awake {op : Op} {j : Slot} {l : Life} (h : k.LifeStep op j l)
    (ha : (k.life j).Awake) (hwait : ∀ pid, op ≠ .wait pid)
    (hblock : ∀ pid, op = .block pid → k.sched.findIndexByPid pid ≠ some j)
    (hpark : k.Parks op → k.sched.findIndexByPid k.sched.schedulerGetpid ≠ some j)
    (htarget : k.target op ≠ some j) : l.Awake := by
  cases h with
  | keeps => exact ha
  | creates _ _ _ => exact .inl rfl
  | renices _ _ => exact ha
  | wakes _ _ => exact .inl rfl
  | releases _ hb _ => exact absurd hb ha.ne_blocked
  | blocks hj => exact absurd hj (hblock _ rfl)
  | parks hop hj => exact absurd hj (hpark hop)
  | waits _ _ _ _ => exact absurd rfl (hwait _)
  | reaps _ _ _ _ => exact absurd rfl (hwait _)
  | ends ht _ => exact absurd ht htarget
  | kills ht _ => exact absurd ht htarget
  | preempts _ => exact .inl rfl
  | dispatches _ => exact .inr rfl

/-- Only the current process has its pid. -/
theorem Pids.eq_current (h : Pids k) {j : Slot}
    (hj : k.sched.findIndexByPid k.sched.schedulerGetpid = some j) : j = k.sched.currentIdx := by
  have hfind := Sched.findIndexByPid_some hj
  have hpid : (k.life j).pid = (k.life k.sched.currentIdx).pid := hfind.1
  by_cases h0 : k.sched.currentIdx = 0
  · by_contra hne
    rw [h0] at hne hpid
    have hpos := (h.live j hne hfind.2).1
    rw [hpid, h.idle.1] at hpos
    exact absurd hpos (lt_irrefl 0)
  · exact h.distinct j _ hpid (hpid ▸ (h.live _ h0 h.current).1)

/-- Opening a semaphore leaves the open ones as they are, but for `ref_count`. -/
theorem semOpen_kept {i : Fin maxSemaphores} (hi : (k.semTable i).active = true)
    (name : List UInt8) (v : Int) :
    ((k.semOpen name v).1.semTable i).active = true ∧
      ((k.semOpen name v).1.semTable i).value = (k.semTable i).value ∧
      ((k.semOpen name v).1.semTable i).waiting = (k.semTable i).waiting := by
  unfold semOpen
  rcases hf : k.findByName name with - | m
  · rcases hs : k.findFreeSem with - | m
    · exact ⟨hi, rfl, rfl⟩
    · have hne : i ≠ m := by
        rintro rfl
        exact findFreeSem_some hs hi
      simp only
      rw [modifySem_of_ne _ _ _ _ hne]
      exact ⟨hi, rfl, rfl⟩
  · simp only
    rw [modifySem_semTable]
    split
    · rename_i him
      rw [him] at hi ⊢
      exact ⟨hi, rfl, rfl⟩
    · exact ⟨hi, rfl, rfl⟩

theorem pipeInitSems_kept {i : Fin maxSemaphores} (hi : (k.semTable i).active = true)
    (q : Fin maxPipes) :
    ((k.pipeInitSems q).semTable i).value = (k.semTable i).value ∧
      ((k.pipeInitSems q).semTable i).waiting = (k.semTable i).waiting := by
  obtain ⟨hact, hv, hw⟩ := semOpen_kept hi [100, 48 + UInt8.ofNat q.val] 0
  unfold pipeInitSems
  simp only
  generalize k.semOpen [100, 48 + UInt8.ofNat q.val] 0 = r at hact hv hw ⊢
  obtain ⟨-, hv', hw'⟩ := semOpen_kept
    (k := { r.1 with pipeSemData := Function.update r.1.pipeSemData q r.2 }) hact
    [115, 48 + UInt8.ofNat q.val] 0
  exact ⟨hv'.trans hv, hw'.trans hw⟩

/-- What the pipe looks like from outside. -/
structure Unmoved (k k' : Kernel) (p : Fin maxPipes) (n : Bool → Fin maxSemaphores) : Prop where
  value : ∀ w, (k'.semTable (n w)).value = (k.semTable (n w)).value
  waiting : ∀ w, (k'.semTable (n w)).waiting = (k.semTable (n w)).waiting
  pipe : k'.pipeTable p = k.pipeTable p

namespace Unmoved

theorem of_tables (hsem : ∀ w, k'.semTable (n w) = k.semTable (n w))
    (hpipe : k'.pipeTable = k.pipeTable) : Unmoved k k' p n :=
  ⟨fun w => by rw [hsem], fun w => by rw [hsem], by rw [hpipe]⟩

theorem pipeOpen (ho : SoleOwner k p n) (c : Int) : Unmoved k (k.pipeOpenWithCapacity c).1 p n := by
  rcases k.pipeOpenWithCapacity_eq c with he | ⟨q, hq, -, he⟩
  · rw [he]
    exact of_tables (fun _ => rfl) rfl
  · rw [he]
    have hne : p ≠ q := by
      rintro rfl
      rw [ho.active] at hq
      cases hq
    refine ⟨fun w => (pipeInitSems_kept (k := k.openPrep q c) (ho.isOpen w) q).1,
      fun w => (pipeInitSems_kept (k := k.openPrep q c) (ho.isOpen w) q).2, ?_⟩
    show ((k.openPrep q c).pipeInitSems q).pipeTable p = _
    rw [pipeInitSems_pipeTable]
    exact Function.update_of_ne hne _ _

theorem stepCases {α : Type} {q : Fin maxPipes} {own other : Int} {move : Pipe → Pipe}
    {dry shut live : Prop} {fl bl ag sp dn : α} {r : Kernel × α}
    (hr : k.StepCases q own other move dry shut live fl bl ag sp dn r) (hq : q ≠ p)
    (hown : ∀ w, own ≠ ((n w).val : Int)) (hother : ∀ w, other ≠ ((n w).val : Int)) :
    Unmoved k r.1 p n := by
  cases hr with
  | waits _ =>
      exact of_tables (fun w => semWait_other (hown w)) (SamePipes.semWait k own).pipeTable
  | stops _ => exact of_tables (fun _ => rfl) rfl
  | moves _ =>
      have hsem : ∀ w, ((k.modifyPipe q move).semPost other).1.semTable (n w) = k.semTable (n w) :=
        fun w => semPost_other (hother w)
      refine ⟨fun w => by rw [hsem], fun w => by rw [hsem], ?_⟩
      show ((k.modifyPipe q move).semPost other).1.pipeTable p = _
      rw [(SamePipes.semPost _ other).pipeTable]
      exact modifyPipe_of_ne _ _ _ _ hq.symm

/-- The pieces that end nobody and close no end. -/
theorem exec (ho : SoleOwner k p n) {op : Op} (hop : Harmless k p n park op)
    (ht : k.target op = none) (hclose : ∀ pipeId v, op ≠ .pipeClose pipeId v)
    (hset : ∀ pid fd pipeId v, op ≠ .pipeSetFd pid fd pipeId v) :
    Unmoved k (k.exec op) p n := by
  have hnone : (∃ status, op = .exit status) ∨ (∃ pid, op = .kill pid) ∨ op = .killForeground →
      Unmoved k (k.exec op) p n := by
    intro hop'
    rw [exec_target_none ht hop']
    exact of_tables (fun _ => rfl) rfl
  have hapart : ∀ {q}, (op = .pipeRead q ∨ ∃ c, op = .pipeWrite q c) →
      q ≠ p ∧ ∀ v w, k.wiring.sem q v ≠ ((n w).val : Int) := by
    intro q hq
    obtain ⟨hne, hact⟩ := hop.streams q hq
    exact ⟨hne, fun v w => ho.alone q v w hne hact⟩
  cases op with
  | create name pr fg stack => exact of_tables (fun _ => rfl) rfl
  | kill pid => exact hnone (.inr (.inl ⟨pid, rfl⟩))
  | killForeground => exact hnone (.inr (.inr rfl))
  | block pid => exact of_tables (fun _ => rfl) rfl
  | unblock pid => exact of_tables (fun _ => rfl) rfl
  | nice pid pr => exact of_tables (fun _ => rfl) rfl
  | wait pid => exact absurd rfl (hop.waits pid)
  | exit status => exact hnone (.inl ⟨status, rfl⟩)
  | yield => exact of_tables (fun _ => rfl) rfl
  | tick rsp => exact of_tables (fun _ => rfl) rfl
  | semOpen name v =>
      refine ⟨fun w => (semOpen_kept (ho.isOpen w) name v).2.1,
        fun w => (semOpen_kept (ho.isOpen w) name v).2.2, ?_⟩
      show (k.semOpen name v).1.pipeTable p = _
      rw [(SamePipes.semOpen k name v).pipeTable]
  | semWait semId =>
      exact of_tables (fun w => semWait_other (hop.spares w)) (SamePipes.semWait k semId).pipeTable
  | semPost semId =>
      exact of_tables (fun w => semPost_other (hop.spares w)) (SamePipes.semPost k semId).pipeTable
  | semPostAll semId =>
      exact of_tables (fun w => semPostAll_other (hop.spares w))
        (SamePipes.semPostAll k semId).pipeTable
  | semClose semId =>
      exact of_tables (fun w => semClose_other (hop.spares w)) (SamePipes.semClose k semId).pipeTable
  | pipeOpen c => exact .pipeOpen ho c
  | pipeClose pipeId v => exact absurd rfl (hclose pipeId v)
  | pipeSetFd pid fd pipeId v => exact absurd rfl (hset pid fd pipeId v)
  | pipeRead q =>
      obtain ⟨hne, hsem⟩ := hapart (.inl rfl)
      exact .stepCases (k.pipeReadStep_cases q) hne (hsem false) (hsem true)
  | pipeWrite q c =>
      obtain ⟨hne, hsem⟩ := hapart (.inr ⟨c, rfl⟩)
      exact .stepCases (k.pipeWriteStep_cases q c) hne (hsem true) (hsem false)

end Unmoved

theorem pipeAttach_answered (h : Answered k p n park fun _ => 0) (pipeId : Int) (v : Bool) :
    Answered (k.pipeAttach pipeId v).1 p n park fun _ => 0 := by
  refine h.releases (k.pipeAttach_releases pipeId v) (fun w => by rw [pipeAttach_semTable])
    (KeepsRings.pipeAttach k pipeId v p).1 fun w => ?_
  rcases hv : k.validPipe pipeId with - | q
  · simp only [pipeAttach, hv]
    exact le_refl _
  · rw [k.pipeAttach_ends hv, Ends.attach_held]
    split
    · rename_i he
      obtain ⟨rfl, rfl⟩ := Prod.mk.inj he.1
      exact Nat.le_succ _
    · exact le_refl _

/-- **Every harmless piece of kernel code** leaves every unit answered for. -/
theorem exec_answered (h : Answered k p n park fun _ => 0) (hs : Strict k) (ho : SoleOwner k p n)
    (hacc : Accounted k) {op : Op} (hop : Harmless k p n park op)
    (hheld : ∀ j w, (k.life j).state ≠ .dead → park j = some (n w) →
      ∃ fd, (k.proc j).fds fd = descriptor p w)
    (hact : ((k.exec op).pipeTable p).active = true) (hs' : Steady (k.exec op) park')
    (hpark : ∀ j w, park j = some (n w) → ((k.exec op).life j).Awake → park' j = some (n w)) :
    Answered (k.exec op) p n park' fun _ => 0 := by
  -- it is enough to know this with the processes parked where they were
  have hmoved : Answered (k.exec op) p n park (fun _ => 0) →
      Answered (k.exec op) p n park' fun _ => 0 := fun hw =>
    hw.frame hs' (fun _ => rfl) (fun _ => rfl) rfl (fun _ => le_refl _) fun j w hj ha =>
      ⟨hpark j w hj ha, ha⟩
  rcases ht : k.target op with - | i
  · by_cases hclose : ∃ pipeId v, op = .pipeClose pipeId v
    · obtain ⟨pipeId, v, rfl⟩ := hclose
      have hrel : k.releaseFd ⟨if v then .pipeWrite else .pipeRead, pipeId⟩ =
          (k.pipeClose pipeId v).1 := by cases v <;> rfl
      refine hmoved ?_
      show Answered (k.pipeClose pipeId v).1 p n park fun _ => 0
      rw [← hrel]
      refine (h.releaseFd ho _ ?_ fun _ _ => Nat.zero_le _).1
      rw [hrel]
      exact hact
    · by_cases hset : ∃ pid fd pipeId v, op = .pipeSetFd pid fd pipeId v
      · obtain ⟨pid, fd, pipeId, v, rfl⟩ := hset
        refine hmoved ?_
        have hcase := k.syscallPipeSetFd_cases pid fd pipeId v
        change ((k.syscallPipeSetFd pid fd pipeId v).1.pipeTable p).active = true at hact
        show Answered (k.syscallPipeSetFd pid fd pipeId v).1 p n park _
        generalize k.syscallPipeSetFd pid fd pipeId v = r at hcase hact ⊢
        cases hcase with
        | refused => exact h
        | binds i m q _ _ _ =>
            have hwa := pipeAttach_answered h pipeId v
            have hoa : SoleOwner (k.pipeAttach pipeId v).1 p n :=
              ho.of_wiring (k.pipeAttach_wiring pipeId v)
            refine Answered.setFd ?_ i m _
            exact (hwa.releaseFd hoa _ hact fun _ _ => Nat.zero_le _).1
      · have hu := Unmoved.exec ho hop ht (fun pipeId v e => hclose ⟨pipeId, v, e⟩)
          fun pid fd pipeId v e => hset ⟨pid, fd, pipeId, v, e⟩
        refine h.frame hs' hu.value hu.waiting (by rw [hu.pipe]) (fun w => ?_) fun j w hj ha => ?_
        · unfold ends
          simp only [hu.pipe]
          exact le_refl _
        · have ha' : ((k.exec op).life j).Awake := by
            refine (k.exec_lifeStep hs.sound.ordered op j).awake ha hop.waits
              (fun pid e hf => hop.blocks pid j w e hf hj) (fun hp hf => ?_) ?_
            · exact hop.own (.inl hp) w (hs.sound.pids.eq_current hf ▸ hj)
            · rw [ht]
              rintro ⟨⟩
          exact ⟨hpark j w hj ha', ha'⟩
  · rcases exec_target hs.sound.pids ht with ⟨rfl, h0, he⟩ | ⟨-, hi, -, he⟩
    · rw [he] at hact hs' hpark ⊢
      exact h.schedulerExitCurrent ho hacc h0 (hop.own (.inr ht)) hheld _ hact hs' hpark
    · rw [he] at hact hs' hpark ⊢
      exact h.killOther ho hacc hi hheld hact hs' hpark

end Kernel

end TP2Kernel
