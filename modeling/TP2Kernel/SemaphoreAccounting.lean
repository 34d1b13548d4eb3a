/-
TP2Kernel/SemaphoreAccounting.lean

The books of one semaphore.  Beside the kernel runs a tally of what has been
done to the semaphore: posts, waits, waiters killed, waiters released by
`sem_post_all`.  As long as processes wait only while they are running, nobody
unblocks a waiter from outside and no semaphore is closed, the value is the
initial value plus what came in minus what was taken, and the queue holds
exactly the processes the value is short of.
-/
import TP2Kernel.WaitQueues

namespace TP2Kernel

namespace Kernel

/-! ### The runs under consideration -/

/-- The pieces under consideration: a process waits or exits only while it is
running, the current process is not killed, and nobody unblocks a waiter. -/
def Accountable (k : Kernel) : Op → Prop
  | .semWait _ | .exit _ =>
      k.sched.currentIdx ≠ 0 ∧ (k.life k.sched.currentIdx).state = .running
  | .kill pid => k.sched.findIndexByPid pid ≠ some k.sched.currentIdx
  | .unblock pid => ¬ k.Waiting pid
  | .create .. | .block _ | .nice .. | .yield | .tick _ | .semOpen .. | .semPost _
  | .semPostAll _ => True
  | _ => False

instance (k : Kernel) : DecidablePred k.Accountable := fun op => by
  induction op using Op.casesOn <;> dsimp only [Accountable] <;> infer_instance

/-- What has been done to a semaphore. -/
structure Tally where
  posts : Nat
  waits : Nat
  killed : Nat
  released : Nat

/-- What came in, less what was taken. -/
def Tally.balance (t : Tally) : Int := t.posts + t.killed + t.released - t.waits

/-- The tally of the semaphore `n` after a piece that starts in `k`. -/
def tally (n : Fin maxSemaphores) (k : Kernel) (op : Op) (t : Tally) : Tally :=
  match op with
  | .semPost semId => if semId = n.val then { t with posts := t.posts + 1 } else t
  | .semWait semId => if semId = n.val then { t with waits := t.waits + 1 } else t
  | .semPostAll semId =>
      if semId = n.val then { t with released := t.released + (k.semTable n).waiting.length }
      else t
  | .kill pid =>
      if k.target (.kill pid) ≠ none ∧ pid ∈ (k.semTable n).waiting.map Prod.fst then
        { t with killed := t.killed + 1 }
      else t
  | _ => t

/-- The kernel with the tally of the semaphore `n`. -/
def tallyMachine (n : Fin maxSemaphores) : Machine (Kernel × Tally) Op where
  guard := fun s op => s.1.Accountable op
  step := fun s op => some (s.1.exec op, tally n s.1 op s.2)

instance (n : Fin maxSemaphores) (s : Kernel × Tally) : DecidablePred ((tallyMachine n).guard s) :=
  fun op => inferInstanceAs (Decidable (s.1.Accountable op))

/-! ### What the runs keep -/

/-- The waiters are parked, and there are no pipes. -/
structure Lawful (k : Kernel) : Prop where
  strict : k.Strict
  parked : ∃ park, k.Parked park
  noPipes : ∀ p, (k.pipeTable p).active = false

variable {k : Kernel} {n : Fin maxSemaphores}

theorem init_lawful (idleStack : Nat) : (init idleStack).Lawful := by
  refine ⟨init_strict idleStack, ⟨fun _ => none, fun _ _ => rfl, fun i w hw => ?_, fun _ => ?_⟩,
    fun _ => rfl⟩
  · cases hw
  · exact List.nodup_nil

theorem schedulerExitCurrent_noPipes (h : ∀ p, (k.pipeTable p).active = false) (status : Int) :
    (k.schedulerExitCurrent status).semTable = k.semTable ∧
      (k.schedulerExitCurrent status).pipeTable = k.pipeTable := by
  simp only [schedulerExitCurrent]
  split
  · exact ⟨rfl, rfl⟩
  · rw [onSched_semTable, onSched_pipeTable]
    exact closeProcessFds_noPipes (k := k.exitPrep k.sched.currentIdx status) h _

/-- Without pipes, a kill of another process takes its entries out and does
nothing else to the tables. -/
theorem schedulerKill_noPipes (h : ∀ p, (k.pipeTable p).active = false) {pid : Int}
    (hcur : k.sched.findIndexByPid pid ≠ some k.sched.currentIdx) :
    (k.schedulerKill pid).1.pipeTable = k.pipeTable ∧
      (k.schedulerKill pid).1.semTable =
        if k.target (.kill pid) = none then k.semTable else (k.semRemoveWaitingPid pid).semTable := by
  simp only [schedulerKill, target]
  split
  · exact ⟨rfl, rfl⟩
  · rcases hi : k.sched.findIndexByPid pid with - | i
    · exact ⟨rfl, rfl⟩
    · have hne : i ≠ k.sched.currentIdx := fun e => hcur (hi.trans (congrArg some e))
      obtain ⟨hs, hp⟩ := closeProcessFds_noPipes (k := k.killPrep i pid) h i
      simp only [if_neg hne, reduceCtorEq, if_false, killOther, onSched_semTable, onSched_pipeTable]
      exact ⟨hp, hs⟩

theorem exec_noPipes (h : ∀ p, (k.pipeTable p).active = false) {op : Op} (hop : k.Accountable op) :
    (k.exec op).pipeTable = k.pipeTable := by
  cases op with
  | create _ _ _ _ => rfl
  | kill pid => exact (schedulerKill_noPipes h hop).1
  | block _ => rfl
  | unblock _ => rfl
  | nice _ _ => rfl
  | exit status => exact (schedulerExitCurrent_noPipes h status).2
  | yield => rfl
  | tick _ => rfl
  | semOpen name v => exact (SamePipes.semOpen k name v).pipeTable
  | semWait semId => exact (SamePipes.semWait k semId).pipeTable
  | semPost semId => exact (SamePipes.semPost k semId).pipeTable
  | semPostAll semId => exact (SamePipes.semPostAll k semId).pipeTable
  | _ => exact absurd hop id

theorem Accountable.orderly {op : Op} (h : k.Accountable op) : k.Orderly op := by
  cases op with
  | unblock _ => exact h
  | killForeground => exact absurd h id
  | wait _ => exact absurd h id
  | _ => trivial

/-- A running process waits nowhere. -/
theorem Lawful.not_waiting (h : k.Lawful)
    (hrun : (k.life k.sched.currentIdx).state = .running) :
    ¬ k.Waiting (k.life k.sched.currentIdx).pid := by
  obtain ⟨park, hpark⟩ := h.parked
  refine hpark.not_waiting_of_state h.strict.distinct ?_
  rw [hrun]
  rintro ⟨⟩

theorem Accountable.acts {op : Op} (h : k.Accountable op) (ha : k.Acts op) :
    k.sched.currentIdx ≠ 0 ∧ (k.life k.sched.currentIdx).state = .running := by
  cases op with
  | semWait _ => exact h
  | exit _ => exact h
  | kill _ => exact absurd ha h
  | pipeRead _ => exact absurd h id
  | pipeWrite _ _ => exact absurd h id
  | _ => exact absurd ha id

theorem acts_of_parks {op : Op} (h : k.Parks op) : k.Acts op := by
  cases op with
  | semWait _ => trivial
  | pipeRead _ => trivial
  | pipeWrite _ _ => trivial
  | _ => exact absurd h id

theorem exec_lawful (h : k.Lawful) {op : Op} (hop : k.Accountable op) : (k.exec op).Lawful := by
  have hown : k.Acts op →
      k.sched.currentIdx ≠ 0 ∧ ¬ k.Waiting (k.life k.sched.currentIdx).pid := fun ha =>
    ⟨(hop.acts ha).1, h.not_waiting (hop.acts ha).2⟩
  refine ⟨exec_strict h.strict op ?_, ?_, by rw [exec_noPipes h.noPipes hop]; exact h.noPipes⟩
  · rintro pid rfl
    exact hop
  · obtain ⟨park, hpark⟩ := h.parked
    by_cases hp : k.Parks op
    · have ha := hown (acts_of_parks hp)
      exact ⟨_, parks_parked hpark h.strict hp ha.1 ha.2⟩
    · exact ⟨park, exec_parked hpark h.strict hop.orderly hp hown⟩

/-! ### The value -/

/-- **`sem_post_all` on a tight semaphore** gives one token to every waiter. -/
theorem postAllLoop_value {park : Slot → Option (Fin maxSemaphores)} (h : Parked k park)
    (hd : k.Distinct) (hr : k.Ranked) :
    ((postAllLoop n (k.semTable n).waiting.length k).semTable n).value =
      (k.semTable n).value + (k.semTable n).waiting.length := by
  generalize hm : (k.semTable n).waiting.length = m
  induction m generalizing k with
  | zero =>
      rw [postAllLoop]
      omega
  | succ m ih =>
      have hne : (k.semTable n).waiting ≠ [] := List.ne_nil_of_length_eq_add_one hm
      simp only [postAllLoop, if_neg hne]
      have hval : (k.modifySem n fun s => s.addValue 1).semTable n = (k.semTable n).addValue 1 :=
        modifySem_self _ _ _
      have hrel : Release k (k.modifySem n fun s => s.addValue 1) := .counts n rfl (.inl rfl)
      have h1 := h.release hd hrel
      obtain ⟨b, hb, heq⟩ := unblockOneWaiter_parked h1 hd hr (i := n) (by rw [hval]; exact hne)
      have hact := h.active_of_mem (List.getElem_mem (Nat.zero_lt_of_lt (hval ▸ hb)))
      have hgrant : Release (k.modifySem n fun s => s.addValue 1)
          ((k.modifySem n fun s => s.addValue 1).grant n b) :=
        .grants n b (by rw [hval]; exact hact) hb
      rw [hval, Semaphore.addValue_waiting] at hb
      have hnext := grant_semTable (k.modifySem n fun s => s.addValue 1) n b
      rw [heq, ih (h1.release hd hgrant) (hd.of_pid fun j => (Releases.single hgrant).pid j)
        (Releases.ranked (.single hgrant) hr)]
      · rw [hnext, hval, Semaphore.setWaiting_value, Semaphore.addValue_value]
        omega
      · rw [hnext, hval, Semaphore.setWaiting_waiting, Semaphore.addValue_waiting,
          length_released hb]
        omega

theorem semPostAll_value (h : k.Lawful) {semId : Int} (hi : k.validSem semId = some n)
    (ht : (k.semTable n).Tight) :
    ((k.semPostAll semId).1.semTable n).value =
      (k.semTable n).value + (k.semTable n).waiting.length := by
  obtain ⟨park, hpark⟩ := h.parked
  have hval := postAllLoop_value (n := n) hpark h.strict.distinct h.strict.ranked
  unfold Semaphore.Tight at ht
  simp only [semPostAll, hi]
  rw [if_neg (by omega)]
  exact hval

/-- A pid leaves a queue without duplicates once. -/
theorem removedCount_eq {ws : List (Int × Int)} (hnd : (ws.map Prod.fst).Nodup) (pid : Int) :
    removedCount ws pid = if pid ∈ ws.map Prod.fst then 1 else 0 := by
  have hcount : ws.countP (fun w => w.1 = pid) = (ws.map Prod.fst).count pid := by
    rw [List.count, List.countP_map]
    refine List.countP_congr fun w _ => ?_
    simp
  unfold removedCount
  rw [hcount, hnd.count]
  split <;> rfl

/-- A running process never finds the queue full. -/
theorem semWait_not_full (h : k.Lawful) (hrun : (k.life k.sched.currentIdx).state = .running)
    {semId : Int} (hi : k.validSem semId = some n) : 0 ≤ (k.semWait semId).2 := by
  obtain ⟨park, hpark⟩ := h.parked
  exact hpark.semWait_nonneg (h.not_waiting hrun) hi

/-! ### The books -/

/-- The semaphore `n`, opened with the value `v`, and its tally. -/
structure Accounts (n : Fin maxSemaphores) (v : Int) (k : Kernel) (t : Tally) : Prop where
  lawful : k.Lawful
  active : (k.semTable n).active = true
  tight : (k.semTable n).Tight
  balance : (k.semTable n).value = v + t.balance

namespace Accounts

variable {v : Int} {t : Tally}

/-- A piece that leaves value and queue of the semaphore alone. -/
theorem keep (h : Accounts n v k t) {op : Op} (hop : k.Accountable op)
    (hact : ((k.exec op).semTable n).active = (k.semTable n).active)
    (hval : ((k.exec op).semTable n).value = (k.semTable n).value)
    (hw : ((k.exec op).semTable n).waiting = (k.semTable n).waiting) :
    Accounts n v (k.exec op) t := by
  refine ⟨exec_lawful h.lawful hop, hact.trans h.active, ?_, hval.trans h.balance⟩
  have ht := h.tight
  unfold Semaphore.Tight at ht ⊢
  rw [hw, hval]
  exact ht

theorem semOpen (h : Accounts n v k t) (name : List UInt8) (v' : Int) :
    Accounts n v (k.exec (.semOpen name v')) t := by
  have hop : k.Accountable (.semOpen name v') := trivial
  rcases hf : k.findByName name with - | i
  · rcases hfree : k.findFreeSem with - | i
    · have hk : k.exec (.semOpen name v') = k := by
        simp only [exec, Kernel.semOpen, hf, hfree]
      exact h.keep hop (by rw [hk]) (by rw [hk]) (by rw [hk])
    · -- the new semaphore takes a slot out of use
      have hk : (k.exec (.semOpen name v')).semTable n = k.semTable n := by
        simp only [exec, Kernel.semOpen, hf, hfree]
        refine modifySem_of_ne _ _ _ _ ?_
        rintro rfl
        have hoff : (k.semTable n).active = false := by simpa using List.find?_some hfree
        cases hoff.symm.trans h.active
      exact h.keep hop (by rw [hk]) (by rw [hk]) (by rw [hk])
  · have hk : k.exec (.semOpen name v') =
        k.modifySem i fun s => { s with refCount := s.refCount + 1 } := by
      simp only [exec, Kernel.semOpen, hf]
    refine h.keep hop ?_ ?_ ?_
    · rw [hk]
      exact k.modifySem_field i n (g := Semaphore.active) fun _ => rfl
    · rw [hk]
      exact k.modifySem_field i n (g := Semaphore.value) fun _ => rfl
    · rw [hk]
      exact k.modifySem_field i n (g := Semaphore.waiting) fun _ => rfl

theorem semWait (h : Accounts n v k t) {semId : Int} (hop : k.Accountable (.semWait semId)) :
    Accounts n v (k.exec (.semWait semId)) (tally n k (.semWait semId) t) := by
  by_cases hn : semId = (n.val : Int)
  · subst hn
    have hi := validSem_of_active h.active
    obtain ⟨ht, hv⟩ := semWait_tight hi h.tight (h.lawful.not_waiting hop.2)
    have hfull := semWait_not_full h.lawful hop.2 hi
    have hbal := h.balance
    rw [if_neg (by omega)] at hv
    refine ⟨exec_lawful h.lawful hop, ?_, ht, ?_⟩
    · exact (Semaphore.active_of_entry (k.semWait_entry n n.val)).trans h.active
    · show ((k.semWait n.val).1.semTable n).value = _
      simp only [tally, if_true, Tally.balance] at hbal ⊢
      omega
  · have hk : (k.exec (.semWait semId)).semTable n = k.semTable n := semWait_other hn
    simp only [tally, if_neg hn]
    exact h.keep hop (by rw [hk]) (by rw [hk]) (by rw [hk])

theorem semPost (h : Accounts n v k t) (semId : Int) :
    Accounts n v (k.exec (.semPost semId)) (tally n k (.semPost semId) t) := by
  have hop : k.Accountable (.semPost semId) := trivial
  by_cases hn : semId = (n.val : Int)
  · subst hn
    obtain ⟨park, hpark⟩ := h.lawful.parked
    obtain ⟨ht, hv⟩ := semPost_tight hpark h.lawful.strict.distinct h.lawful.strict.ranked
      (validSem_of_active h.active) h.tight
    have hbal := h.balance
    refine ⟨exec_lawful h.lawful hop, ?_, ht, ?_⟩
    · exact (Semaphore.active_of_entry (k.semPost_entry n n.val)).trans h.active
    · show ((k.semPost n.val).1.semTable n).value = _
      simp only [tally, if_true, Tally.balance] at hbal ⊢
      omega
  · have hk : (k.exec (.semPost semId)).semTable n = k.semTable n := semPost_other hn
    simp only [tally, if_neg hn]
    exact h.keep hop (by rw [hk]) (by rw [hk]) (by rw [hk])

theorem semPostAll (h : Accounts n v k t) (semId : Int) :
    Accounts n v (k.exec (.semPostAll semId)) (tally n k (.semPostAll semId) t) := by
  have hop : k.Accountable (.semPostAll semId) := trivial
  by_cases hn : semId = (n.val : Int)
  · subst hn
    have hi := validSem_of_active h.active
    obtain ⟨hnil, hpos⟩ := semPostAll_tight hi
    have hv := semPostAll_value h.lawful hi h.tight
    have hbal := h.balance
    refine ⟨exec_lawful h.lawful hop, ?_, .of_nil hnil hpos, ?_⟩
    · exact (Semaphore.active_of_entry (k.semPostAll_entry n n.val)).trans h.active
    · show ((k.semPostAll n.val).1.semTable n).value = _
      simp only [tally, if_true, Tally.balance] at hbal ⊢
      omega
  · have hk : (k.exec (.semPostAll semId)).semTable n = k.semTable n := semPostAll_other hn
    simp only [tally, if_neg hn]
    exact h.keep hop (by rw [hk]) (by rw [hk]) (by rw [hk])

theorem kill (h : Accounts n v k t) {pid : Int} (hop : k.Accountable (.kill pid)) :
    Accounts n v (k.exec (.kill pid)) (tally n k (.kill pid) t) := by
  have hsem : (k.exec (.kill pid)).semTable =
      if k.target (.kill pid) = none then k.semTable else (k.semRemoveWaitingPid pid).semTable :=
    (schedulerKill_noPipes h.lawful.noPipes hop).2
  by_cases ht : k.target (.kill pid) = none
  · rw [if_pos ht] at hsem
    have htally : tally n k (.kill pid) t = t := by
      simp only [tally]
      exact if_neg fun hc => hc.1 ht
    rw [htally]
    exact h.keep hop (by rw [hsem]) (by rw [hsem]) (by rw [hsem])
  · rw [if_neg ht] at hsem
    obtain ⟨park, hpark⟩ := h.lawful.parked
    have hbal := h.balance
    refine ⟨exec_lawful h.lawful hop, ?_, ?_, ?_⟩
    · rw [hsem]
      exact (Semaphore.active_of_entry (k.semRemoveWaitingPid_entry n pid)).trans h.active
    · rw [hsem]
      exact semRemoveWaitingPid_tight h.tight pid
    · have hv : ((k.semRemoveWaitingPid pid).semTable n).value =
          (k.semTable n).value + removedCount (k.semTable n).waiting pid := by
        simp only [semRemoveWaitingPid, h.active, if_true]
        rfl
      rw [hsem, hv, removedCount_eq (hpark.nodup n)]
      simp only [tally, ne_eq, ht, not_false_eq_true, true_and]
      simp only [Tally.balance] at hbal ⊢
      split
      · simp only
        omega
      · omega

end Accounts

theorem exec_accounts {v : Int} {t : Tally} (h : Accounts n v k t) {op : Op}
    (hop : k.Accountable op) : Accounts n v (k.exec op) (tally n k op t) := by
  cases op with
  | create _ _ _ _ => exact h.keep hop rfl rfl rfl
  | kill pid => exact h.kill hop
  | block _ => exact h.keep hop rfl rfl rfl
  | unblock _ => exact h.keep hop rfl rfl rfl
  | nice _ _ => exact h.keep hop rfl rfl rfl
  | exit status =>
      have hsem : (k.exec (.exit status)).semTable = k.semTable :=
        (schedulerExitCurrent_noPipes h.lawful.noPipes status).1
      exact h.keep hop (by rw [hsem]) (by rw [hsem]) (by rw [hsem])
  | yield => exact h.keep hop rfl rfl rfl
  | tick _ => exact h.keep hop rfl rfl rfl
  | semOpen name v' => exact h.semOpen name v'
  | semWait semId => exact h.semWait hop
  | semPost semId => exact h.semPost semId
  | semPostAll semId => exact h.semPostAll semId
  | _ => exact absurd hop id

/-! ### No post is lost -/

/-- What a post does: it counts, and either exactly one waiter is served or
nobody waits and no process changes. -/
def PostCounts (k : Kernel) (n : Fin maxSemaphores) : Prop :=
  ((k.semPost n.val).1.semTable n).value = (k.semTable n).value + 1 ∧
    ((k.semTable n).waiting ≠ [] → ServesWaiter k (k.semPost n.val).1 n) ∧
    ((k.semTable n).waiting = [] → (k.semPost n.val).1.sched = k.sched)

theorem Accounts.postCounts {v : Int} {t : Tally} (h : Accounts n v k t) :
    k.PostCounts n := by
  obtain ⟨park, hpark⟩ := h.lawful.parked
  have hi := validSem_of_active h.active
  have hs := h.lawful.strict
  have ht := h.tight
  unfold Semaphore.Tight at ht
  refine ⟨(semPost_tight hpark hs.distinct hs.ranked hi h.tight).2, fun hne => ?_, fun hnil => ?_⟩
  · obtain ⟨w, hw⟩ := List.exists_mem_of_ne_nil _ hne
    have hlen := List.length_pos_iff.mpr hne
    refine semPost_serves hs.sound.pids hs.ranked hi (by omega)
      (fun w hw => ⟨(hpark.asleep n w hw).2.1, (hpark.asleep n w hw).1⟩) ⟨w, hw, ?_⟩
    obtain ⟨-, -, j, hj, hb, -⟩ := hpark.asleep n w hw
    exact ⟨j, hj, hb⟩
  · rw [hnil, List.length_nil] at ht
    simp only [Kernel.semPost, hi, modifySem_self, Semaphore.addValue_value]
    rw [if_neg (by omega)]
    rfl

/-- **Semaphore accounting**: for a semaphore created with the value `v`, at
every moment of the run the queue is as long as the value is negative, every
entry is a blocked process, the value is `v` plus posts, waiters killed and
waiters released less waits, a post counts and serves exactly one waiter if
there is one, and a running process never finds the queue full. -/
theorem semaphore_accounting {idleStack : Nat} {k₀ : Kernel}
    (h₀ : (machine.restrict Accountable).Reach (init idleStack) k₀) {name : List UInt8} {v : Int}
    (hv : 0 ≤ v) (hnew : k₀.findByName name = none) (hfree : k₀.findFreeSem = some n)
    {t : Tally}
    (h : (tallyMachine n).Reach ((k₀.semOpen name v).1, ⟨0, 0, 0, 0⟩) (k, t)) :
    (k.semTable n).waiting.length = (-(k.semTable n).value).toNat ∧
      (∀ w ∈ (k.semTable n).waiting, k.Asleep w.1) ∧
      (k.semTable n).value = v + t.posts + t.killed + t.released - t.waits ∧
      k.PostCounts n ∧
      (k.sched.currentIdx ≠ 0 → (k.life k.sched.currentIdx).state = .running →
        0 ≤ (k.semWait n.val).2) := by
  have hl₀ : k₀.Lawful := machine_invariant h₀ (init_lawful idleStack) fun _ _ hk hop =>
    exec_lawful hk hop
  have hopen : (k₀.semOpen name v).1.semTable n = ⟨name, v, [], true, 1⟩ := by
    simp only [Kernel.semOpen, hnew, hfree, modifySem_self]
  have hstart : Accounts n v (k₀.semOpen name v).1 ⟨0, 0, 0, 0⟩ := by
    have hl : (k₀.exec (.semOpen name v)).Lawful := exec_lawful hl₀ trivial
    refine ⟨hl, ?_, ?_, ?_⟩
    · rw [hopen]
    · rw [hopen]
      exact .of_nil rfl hv
    · rw [hopen]
      exact (Int.add_zero v).symm
  have hacc : Accounts n v k t := by
    refine h.invariant (I := fun s => Accounts n v s.1 s.2) hstart ?_
    rintro ⟨k, t⟩ op s' hs hg hstep
    obtain rfl := Option.some.inj hstep
    exact exec_accounts hs hg
  obtain ⟨park, hpark⟩ := hacc.lawful.parked
  have hbal := hacc.balance
  refine ⟨hacc.tight, fun w hw => ?_, ?_, hacc.postCounts, fun _ hrun => ?_⟩
  · obtain ⟨-, -, j, hj, hb, -⟩ := hpark.asleep n w hw
    exact ⟨j, hj, hb⟩
  · simp only [Tally.balance] at hbal
    omega
  · exact semWait_not_full hacc.lawful hrun (validSem_of_active hacc.active)

/-- The shell takes the only token and then waits; a child waits behind it and
is killed by the next one. -/
theorem semaphore_accounting_three : ∃ k₀ k : Kernel, ∃ t : Tally,
    (machine.restrict Accountable).Reach (init 1000) k₀ ∧
      k₀.findByName [109] = none ∧ k₀.findFreeSem = some 0 ∧
      (tallyMachine 0).Reach ((k₀.semOpen [109] 1).1, ⟨0, 0, 0, 0⟩) (k, t) ∧
      t.waits = 3 ∧ t.killed = 1 ∧ (k.semTable 0).value = -1 ∧
      ServesWaiter k (k.semPost 0).1 0 := by
  have hk₀ : (machine.restrict Accountable).Reach (init 1000)
      (((init 1000).exec (.create [115] 3 1 5000)).exec (.tick 0)) := by
    have ht : (machine.restrict Accountable).trace (init 1000)
        [.create [115] 3 1 5000, .tick 0] =
          some (((init 1000).exec (.create [115] 3 1 5000)).exec (.tick 0)) := rfl
    exact Machine.trace_reach ht
  obtain ⟨⟨k, t⟩, hk, hw, ht, hposts, hrel, hne⟩ := (tallyMachine 0).exists_reach_of_trace
    (s := (((((init 1000).exec (.create [115] 3 1 5000)).exec (.tick 0)).semOpen [109] 1).1,
      ⟨0, 0, 0, 0⟩))
    [.create [97] 3 0 9000, .create [98] 3 0 14000, .semWait 0, .semWait 0, .tick 0, .semWait 0,
      .tick 0, .kill 2]
    (P := fun s => s.2.waits = 3 ∧ s.2.killed = 1 ∧ s.2.posts = 0 ∧ s.2.released = 0 ∧
      (s.1.semTable 0).waiting ≠ []) (by decide +kernel)
  obtain ⟨-, -, hval, hpost, -⟩ := semaphore_accounting hk₀ (by decide) (by decide +kernel)
    (by decide +kernel) hk
  refine ⟨_, k, t, hk₀, by decide +kernel, by decide +kernel, hk, hw, ht, ?_, hpost.2.1 hne⟩
  simp only at hw ht hposts hrel
  omega

end Kernel

end TP2Kernel
