/-
TP2Kernel/WaitRounds.lean

The rounds of `syscall_wait`.  Only the first round runs with interrupts off: a later
one follows a `_hlt`, and the timer can come between its look at the child and its
store of `BLOCKED`.  The exit of the child in between would be missed.

A process inside `syscall_wait(c)` does not get to a later round before `c` has ended,
unless somebody calls `sys_unblock` on it or a post meets an entry that it left in the
queue of a semaphore (`Unroused`).  Until then it is blocked and on no ready queue
(`Patient`), and the next round finds the status; nobody but its parent reaps `c`, so
that an interrupt inside this round does not change what it returns.
-/
import TP2Kernel.ExitStatus

namespace TP2Kernel

theorem Ordered.of_strict {st st' ex : Slot → Prop} {s : Sched} (h : Ordered st ex s)
    (hst : ∀ i, st' i → st i ∨ (s.processTable i).state ≠ .blocked) : Ordered st' ex s := by
  refine ⟨h.lists, h.covered, fun i hu => h.retired i ?_⟩
  rcases he : (s.processTable i).state with - | - | - | - | - <;> rw [he] at hu
  case blocked => exact (hst i hu).resolve_right (not_not.mpr he)
  case ready => exact hu
  all_goals trivial

namespace Kernel

variable {k : Kernel} {c : Int} {f f' : Fate} {op : Op} {j : Slot}

/-! ### One sleeper -/

/-- The process in slot `j` is inside `syscall_wait(c)`: no semaphore has an entry of
it, and while `c` has not ended it cannot run and waits for nobody else. -/
structure Awaits (c : Int) (k : Kernel) (f : Fate) (j : Slot) : Prop where
  ne : j ≠ 0
  known : c < k.sched.nextPid
  quiet : (k.life j).state ≠ .dead → k.tickets (k.life j).pid = 0
  asleep : ∀ p, f = .alive p →
    ¬ (k.life j).Awake ∧ ((k.life j).waitingFor = c ∨ (k.life j).waitingFor ≤ 0)

/-- What leaves a process asleep for `c`. -/
theorem LifeStep.asleep {l : Life} (hp : Pids k) (h : k.LifeStep op j l)
    (hasleep : ¬ (k.life j).Awake) (hfor : (k.life j).waitingFor = c ∨ (k.life j).waitingFor ≤ 0)
    (htick : ∀ rsp, op ≠ .tick rsp)
    (hfree : ∀ name pr fg stack, op = .create name pr fg stack → (k.life j).state ≠ .dead)
    (hquiet : (k.life j).state = .blocked → ¬ k.Waiting (k.life j).pid)
    (hun : op ≠ .unblock (k.life j).pid)
    (hend : ∀ i, k.target op = some i → (k.life i).pid ≠ c)
    (hwait : ∀ pid, op = .wait pid → j = k.sched.currentIdx → pid = c) :
    ¬ l.Awake ∧ (l.waitingFor = c ∨ l.waitingFor ≤ 0) := by
  have hstill : ∀ {l : Life}, l.state ≠ .ready → l.state ≠ .running → ¬ l.Awake :=
    fun h h' ha => ha.elim h h'
  cases h with
  | keeps => exact ⟨hasleep, hfor⟩
  | creates hj => exact absurd (Sched.findFreeSlot_some hj).2 (hfree _ _ _ _ rfl)
  | renices => exact ⟨hasleep, hfor⟩
  | wakes hb hw =>
      rcases hw with ⟨-, hw⟩ | hw
      · exact absurd hw (hquiet hb)
      · exact absurd hw hun
  | releases ht hb hw =>
      -- the process that ends is not `c`, and not idle
      have hpos := target_pid_pos hp ht
      have hne := hend _ ht
      rcases hfor with hfor | hfor
      · exact absurd (hw.symm.trans hfor) hne
      · omega
  | blocks => exact ⟨hstill (by rintro ⟨⟩) (by rintro ⟨⟩), hfor⟩
  | parks => exact ⟨hstill (by rintro ⟨⟩) (by rintro ⟨⟩), hfor⟩
  | waits =>
      refine ⟨hstill (by rintro ⟨⟩) (by rintro ⟨⟩), .inl ?_⟩
      exact hwait _ rfl rfl
  | reaps => exact ⟨hstill (by rintro ⟨⟩) (by rintro ⟨⟩), .inr (by decide)⟩
  | ends => exact ⟨hstill (by rintro ⟨⟩) (by rintro ⟨⟩), hfor⟩
  | kills => exact ⟨hstill (by rintro ⟨⟩) (by rintro ⟨⟩), .inr (show (-1 : Int) ≤ 0 by decide)⟩
  | preempts => exact absurd rfl (htick _)
  | dispatches => exact absurd rfl (htick _)

/-- A live process keeps its pid, unless it is new. -/
theorem LifeStep.live_pid {l : Life} (hp : Pids k) (h : k.LifeStep op j l)
    (hfree : ∀ name pr fg stack, op = .create name pr fg stack → (k.life j).state ≠ .dead)
    (hlive : l.state ≠ .dead) : l.pid = (k.life j).pid ∧ (k.life j).state ≠ .dead := by
  have hbefore : (k.life j).state ≠ .dead := by
    rcases h.dead hp with hiff | ⟨hd, -⟩ | ⟨hd, -⟩ | ⟨-, _, _, _, _, he⟩
    · exact fun hd => hlive (hiff.mpr hd)
    · exact absurd hd hlive
    · exact absurd hd hlive
    · exact hfree _ _ _ _ he
  rcases h.pids hp with ⟨hpid, -, -⟩ | ⟨-, -, hslot, -⟩ | ⟨-, hd, -⟩
  · exact ⟨hpid, hbefore⟩
  · exact absurd (Sched.findFreeSlot_some hslot).2 hbefore
  · exact absurd hd hlive

/-- **Nothing but the end of `c` makes it ready**, if nobody unblocks it. -/
theorem Awaits.exec {st : Slot → Prop} (hs : Sound k)
    (hord : Ordered st (fun _ => False) k.sched) (h : Awaits c k f j)
    (hst : ∀ p, f = .alive p → st j)
    (hfree : ∀ name pr fg stack, op = .create name pr fg stack → (k.life j).state ≠ .dead)
    (hun : op ≠ .unblock (k.life j).pid)
    (hend : ∀ p, f' = .alive p → f = .alive p ∧
      ∀ i, k.target op = some i → (k.life i).pid ≠ c)
    (hpark : k.Parks op → j ≠ k.sched.currentIdx)
    (hwait : ∀ pid, op = .wait pid → j = k.sched.currentIdx → pid = c) :
    Awaits c (k.exec op) f' j := by
  have hstep := k.exec_lifeStep hs.ordered op j
  refine ⟨h.ne, h.known.trans_le (k.exec_nextPid_le op), fun hlive => ?_, fun p hf => ?_⟩
  · obtain ⟨hpid, hbefore⟩ := hstep.live_pid hs.pids hfree hlive
    -- its caller has another pid
    have hcaller : k.Parks op → k.sched.schedulerGetpid ≠ (k.life j).pid := fun hp he =>
      hpark hp (hs.pids.distinct _ _ he.symm (hs.pids.live j h.ne hbefore).1)
    rw [hpid]
    have hle := k.exec_tickets hcaller
    have hzero := h.quiet hbefore
    omega
  · obtain ⟨hf, htarget⟩ := hend p hf
    obtain ⟨hasleep, hfor⟩ := h.asleep p hf
    by_cases htick : ∃ rsp, op = .tick rsp
    · obtain ⟨rsp, rfl⟩ := htick
      have hsame : (k.exec (.tick rsp)).life j = k.life j :=
        k.tick_asleep hord rsp h.ne (hst p hf) hasleep
      rw [hsame]
      exact ⟨hasleep, hfor⟩
    · refine hstep.asleep hs.pids hasleep hfor (fun rsp e => htick ⟨rsp, e⟩) hfree
        (fun hb hw => ?_) hun htarget hwait
      have hzero := h.quiet (by rw [hb]; rintro ⟨⟩)
      have hpos := tickets_pos hw
      omega

/-- A `scheduler_wait` that does not block leaves its caller as it was. -/
theorem wait_caller (hs : Sound k) (h0 : k.sched.currentIdx ≠ 0) {pid : Int}
    (hres : (k.sched.schedulerWait pid).2 ≠ schedulerWaitBlocked) :
    (k.exec (.wait pid)).life k.sched.currentIdx = k.life k.sched.currentIdx := by
  have hstep := k.exec_lifeStep hs.ordered (.wait pid) k.sched.currentIdx
  generalize (k.exec (.wait pid)).life k.sched.currentIdx = l at hstep
  generalize hj : k.sched.currentIdx = j at hstep
  cases hstep with
  | keeps => rfl
  | wakes _ hw =>
      rcases hw with ⟨hp, -⟩ | hw
      · cases hp
      · cases hw
  | releases ht => cases ht
  | parks hp => cases hp
  | waits hpid hi hparent hz =>
      refine absurd ?_ hres
      rw [k.sched.schedulerWait_blocks hpid hi hparent hz]
  | reaps _ hi hparent _ =>
      -- nobody is its own parent
      rw [hj] at hparent
      have hlt := (hs.pids.live j (hj ▸ h0) (hj ▸ hs.pids.current)).2
      omega
  | ends ht => cases ht
  | kills ht => cases ht

/-- A `scheduler_wait` that says it blocks has found the process it is given. -/
theorem wait_found {pid : Int} (hres : (k.sched.schedulerWait pid).2 = schedulerWaitBlocked) :
    ∃ i, k.sched.findIndexByPid pid = some i ∧ ((k.life i).state ≠ .zombie →
      ((k.exec (.wait pid)).life k.sched.currentIdx).state = .blocked ∧
        ((k.exec (.wait pid)).life k.sched.currentIdx).waitingFor = pid) := by
  have hcase := k.sched.schedulerWait_cases pid
  simp only [exec]
  generalize k.sched.schedulerWait pid = r at hcase hres
  cases hcase with
  | refused => cases hres
  | reaps i s' _ hi _ hz _ => exact ⟨i, hi, fun hnz => absurd hz hnz⟩
  | blocks i _ hi _ _ =>
      refine ⟨i, hi, fun _ => ?_⟩
      have hlife := Sched.life_update (k.sched.waiting_core pid) k.sched.currentIdx
      rw [if_pos rfl] at hlife
      exact ⟨congrArg Life.state hlife, congrArg Life.waitingFor hlife⟩

end Kernel

theorem Fate.alive_of_after {c p : Int} {f : Fate} {e : Event} (h : f.after c e = .alive p) :
    f = .alive p ∧ (∀ s, e ≠ .exited c s) ∨ e = .created p c := by
  unfold Fate.after at h
  split at h
  · split at h
    · rename_i hc
      rw [Fate.alive.inj h, hc]
      exact .inr rfl
    · cases h
  · split at h
    · cases h
    · rename_i hc
      refine .inl ⟨h, ?_⟩
      rintro s ⟨⟩
      exact hc rfl
  · split at h <;> cases h
  · rename_i hexit _
    refine .inl ⟨h, ?_⟩
    rintro s rfl
    exact hexit p c s h rfl

namespace Sys

open Kernel

variable {σ τ : Sys} {c : Int}

/-! ### All sleepers -/

/-- Nobody calls `sys_unblock` on a process inside `syscall_wait(c)`, and whoever
calls `syscall_wait(c)` has no entry in the queue of a semaphore. -/
def Unroused (c : Int) (σ : Sys) : Label → Prop
  | .call (.unblock pid) _ => ∀ j, σ.cont j = .wait c → (σ.kernel.life j).pid ≠ pid
  | .wait pid _ => pid = c → σ.kernel.tickets σ.pid = 0
  | _ => True

instance (c : Int) (σ : Sys) : DecidablePred (Unroused c σ) := fun l => by
  induction l using Label.casesOn
  case call op _ => induction op using Kernel.Op.casesOn <;> dsimp only [Unroused] <;> infer_instance
  all_goals
    dsimp only [Unroused]
    infer_instance

/-- The slots of which no blocked process is on a ready queue: those inside no
`syscall_wait`, and those that wait for a `c` that has not ended. -/
def OffQueue (c : Int) (σ : Sys) (j : Slot) : Prop :=
  ∀ pid, σ.cont j = .wait pid → pid = c ∧ ∃ p, fate c σ.log = .alive p

/-- Whoever is inside `syscall_wait(c)` sleeps until `c` has ended. -/
structure Patient (c : Int) (σ : Sys) : Prop where
  ordered : Ordered (σ.OffQueue c) (fun _ => False) σ.kernel.sched
  awaits : ∀ j, σ.cont j = .wait c → Awaits c σ.kernel (fate c σ.log) j

/-- A change outside the kernel; whoever leaves a `syscall_wait` is not blocked. -/
theorem Patient.congr (h : Patient c σ) (hk : τ.kernel = σ.kernel)
    (hcont : ∀ j pid, τ.cont j = .wait pid → σ.cont j = .wait pid)
    (hleft : ∀ j pid, σ.cont j = .wait pid → (σ.kernel.life j).state = .blocked →
      τ.cont j = .wait pid) (hfate : fate c τ.log = fate c σ.log) : Patient c τ := by
  refine ⟨?_, fun j hj => ?_⟩
  · rw [hk]
    refine h.ordered.of_strict fun j hj => ?_
    by_cases hb : (σ.kernel.life j).state = .blocked
    · refine .inl fun pid hpid => ?_
      rw [← hfate]
      exact hj pid (hleft j pid hpid hb)
    · exact .inr hb
  · rw [hk, hfate]
    exact h.awaits j (hcont j c hj)

/-- A piece of kernel code other than `scheduler_wait`. -/
theorem Patient.exec (h : Patient c σ) (hs : σ.kernel.Sound) {op : Op} (es : List Event)
    (hwait : ∀ pid, op ≠ .wait pid)
    (hfree : ∀ name pr fg stack, op = .create name pr fg stack →
      ∀ j, σ.cont j = .wait c → (σ.kernel.life j).state ≠ .dead)
    (hun : ∀ j, σ.cont j = .wait c → op ≠ .unblock (σ.kernel.life j).pid)
    (hend : ∀ p, fate c (es ++ σ.log) = .alive p → c < σ.kernel.sched.nextPid →
      fate c σ.log = .alive p ∧ ∀ i, σ.kernel.target op = some i → (σ.kernel.life i).pid ≠ c)
    (hpark : σ.kernel.Parks op → σ.cont σ.cur ≠ .wait c) : Patient c ((σ.exec op).record es) := by
  have hord : Ordered (σ.OffQueue c) (fun _ => False) (σ.kernel.exec op).sched :=
    exec_ordered h.ordered fun pid e => absurd e (hwait pid)
  refine ⟨hord.of_strict fun j hj => .inl fun pid hpid => ?_, fun j hj => ?_⟩
  · obtain ⟨rfl, p, hf⟩ := hj pid hpid
    exact ⟨rfl, p, (hend p hf (h.awaits j hpid).known).1⟩
  · have haw := h.awaits j hj
    refine haw.exec hs h.ordered (fun p hf pid hpid => ?_)
      (fun name pr fg stack e => hfree name pr fg stack e j hj) (hun j hj)
      (fun p hf => hend p hf haw.known) (fun hp he => ?_) fun pid e => absurd e (hwait pid)
    · obtain rfl := Cont.wait.inj (hj.symm.trans hpid)
      exact ⟨rfl, p, hf⟩
    · rw [he] at hj
      exact hpark hp hj

/-! ### A round -/

/-- `scheduler_wait` leaves the other sleepers alone. -/
theorem Patient.wait_others (h : Patient c σ) (hs : σ.kernel.Sound) (pid : Int) {f : Fate}
    (hf : ∀ p, f = .alive p → fate c σ.log = .alive p) {j : Slot} (hne : j ≠ σ.cur)
    (hj : σ.cont j = .wait c) : Awaits c (σ.kernel.exec (.wait pid)) f j := by
  refine (h.awaits j hj).exec hs h.ordered (fun p hp pid' hpid' => ?_)
    (fun _ _ _ _ => by rintro ⟨⟩) (by rintro ⟨⟩) (fun p hp => ⟨hf p hp, fun i hi => by cases hi⟩)
    (fun hp => by cases hp) fun _ _ e => absurd e hne
  obtain rfl := Cont.wait.inj (hj.symm.trans hpid')
  exact ⟨rfl, p, hp⟩

/-- The caller goes to sleep. -/
theorem awaits_caller (hσ : Faithful c σ) (h0 : σ.cur ≠ 0) (hquiet : σ.kernel.tickets σ.pid = 0)
    (hres : (σ.kernel.sched.schedulerWait c).2 = schedulerWaitBlocked) :
    Awaits c (σ.kernel.exec (.wait c)) (fate c σ.log) σ.cur := by
  have hs := hσ.delivers.sound
  obtain ⟨i, hi, hblocks⟩ := wait_found hres
  have hpid : (σ.kernel.life i).pid = c := (Sched.findIndexByPid_some hi).1
  refine ⟨h0, ?_, fun hlive => ?_, fun p hf => ?_⟩
  · have hfresh := hs.pids.fresh i
    have hle := σ.kernel.exec_nextPid_le (.wait c)
    omega
  · have hkeep := (σ.kernel.exec_lifeStep hs.ordered (.wait c) σ.cur).live_pid hs.pids
      (fun _ _ _ _ => by rintro ⟨⟩) hlive
    have hle : (σ.kernel.exec (.wait c)).tickets σ.pid ≤ σ.kernel.tickets σ.pid :=
      σ.kernel.exec_tickets fun hp => by cases hp
    rw [hkeep.1]
    exact Nat.le_zero.mp (hle.trans hquiet.le)
  · have hfated := hσ.delivers.fated
    rw [hf] at hfated
    obtain ⟨i', hborn, hdead, hz⟩ := hfated
    obtain rfl := Option.some.inj ((hborn.find hs hdead).symm.trans hi)
    obtain ⟨hstate, hfor⟩ := hblocks hz
    exact ⟨fun ha => ha.ne_blocked hstate, .inl hfor⟩

/-- A caller that is not blocked, and not ready if it has to be off the queues, is off
them when it goes to sleep. -/
theorem Patient.wait_ordered (h : Patient c σ) (pid : Int)
    (hb : (σ.kernel.life σ.cur).state ≠ .blocked)
    (hready : σ.OffQueue c σ.cur → (σ.kernel.life σ.cur).state ≠ .ready) :
    Ordered (σ.OffQueue c) (fun _ => False) (σ.kernel.exec (.wait pid)).sched := by
  refine exec_ordered h.ordered fun _ _ hoff => h.ordered.retired _ ?_
  have hr := hready hoff
  unfold cur at hr hb
  show Unqueued _ (σ.kernel.life σ.kernel.sched.currentIdx).state
  rcases he : (σ.kernel.life σ.kernel.sched.currentIdx).state with - | - | - | - | -
  case ready => exact absurd he hr
  case blocked => exact absurd he hb
  all_goals trivial

/-- A round of `syscall_wait` of such a caller. -/
theorem Patient.wait (h : Patient c σ) (hσ : Faithful c σ) {pid : Int} (h0 : σ.cur ≠ 0)
    (hb : (σ.kernel.life σ.cur).state ≠ .blocked)
    (hready : σ.OffQueue c σ.cur → (σ.kernel.life σ.cur).state ≠ .ready)
    (hcur : ∀ pid', σ.cont σ.cur = .wait pid' → pid' = pid)
    (hquiet : pid = c → σ.kernel.tickets σ.pid = 0) : Patient c (σ.waitStep pid).1 := by
  have hs := hσ.delivers.sound
  have hcurrent : (σ.exec (.wait pid)).cur = σ.cur := σ.exec_cur fun _ => by rintro ⟨⟩
  have hord := h.wait_ordered pid hb hready
  simp only [waitStep]
  split
  · -- the caller sleeps
    rename_i hres
    refine ⟨hord.of_strict fun j hj => .inl fun pid' hpid' => hj pid' ?_, fun j hj => ?_⟩
    · rw [goto_cont, hcurrent]
      by_cases hjc : j = σ.cur
      · rw [hjc] at hpid' ⊢
        rw [Function.update_self, hcur pid' hpid']
      · rw [Function.update_of_ne hjc]
        exact hpid'
    · rw [goto_cont, hcurrent] at hj
      by_cases hjc : j = σ.cur
      · rw [hjc, Function.update_self] at hj
        obtain rfl := Cont.wait.inj hj
        rw [hjc]
        exact awaits_caller hσ h0 (hquiet rfl) hres
      · rw [Function.update_of_ne hjc] at hj
        exact h.wait_others hs pid (fun _ => id) hjc hj
  · -- the call returns, and nobody comes to life by it
    rename_i hres
    have hstate : ((σ.kernel.exec (.wait pid)).life σ.cur).state ≠ .blocked := by
      rw [cur, wait_caller hs h0 hres]
      exact hb
    have hfate : ∀ p, fate c (.waited σ.pid pid (σ.kernel.sched.schedulerWait pid).2 :: σ.log) =
        .alive p → fate c σ.log = .alive p := by
      intro p hf
      rcases Fate.alive_of_after hf with ⟨hf, -⟩ | he
      · exact hf
      · cases he
    refine ⟨hord.of_strict fun j hj => ?_, fun j hj => ?_⟩
    · by_cases hjc : j = σ.cur
      · rw [hjc]
        exact .inr hstate
      · refine .inl fun pid' hpid' => ?_
        obtain ⟨rfl, p, hf⟩ := hj pid' (by
          rw [record_cont, goto_cont, hcurrent, Function.update_of_ne hjc]
          exact hpid')
        exact ⟨rfl, p, hfate p hf⟩
    · rw [record_cont, goto_cont, hcurrent] at hj
      by_cases hjc : j = σ.cur
      · rw [hjc, Function.update_self] at hj
        cases hj
      · rw [Function.update_of_ne hjc] at hj
        exact h.wait_others hs pid hfate hjc hj

/-! ### The steps -/

theorem vacate_patient (h : Patient c σ) : Patient c σ.vacate := by
  refine h.congr rfl (fun j pid hj => ?_) (fun j pid hj hb => ?_) rfl
  · simp only [vacate] at hj
    split at hj
    · cases hj
    · exact hj
  · have hlive : (σ.kernel.proc j).state ≠ .dead := fun hd => by cases hb.symm.trans hd
    exact (if_neg hlive).trans hj

/-- What a call tells brings no `c` to life that has its pid already; the exit of `c`
ends it. -/
theorem alive_of_told {k : Kernel} (hs : k.Sound) {op : Op} {log : List Event} {p : Int}
    (hf : fate c (told k op ++ log) = .alive p) (hknown : c < k.sched.nextPid) :
    fate c log = .alive p ∧ ∀ s, op = .exit s → (k.life k.sched.currentIdx).pid ≠ c := by
  by_cases hcreate : ∃ name pr fg stack, op = .create name pr fg stack
  · obtain ⟨name, pr, fg, stack, rfl⟩ := hcreate
    refine ⟨?_, fun _ => by rintro ⟨⟩⟩
    rw [told_create] at hf
    rcases create_turnover hs name pr fg stack with ⟨hnone, -, -⟩ |
      ⟨_, _, _, _, j, hop, -, -, -, hgot, -, -, -, -, -⟩ | ⟨_, hnone, -⟩
    · rwa [hnone] at hf
    · obtain ⟨-, -, -, rfl⟩ := Op.create.inj hop
      rw [hgot] at hf
      rcases Fate.alive_of_after hf with ⟨hf, -⟩ | he
      · exact hf
      · have hnew : k.sched.nextPid = c := (Event.created.inj he).2
        omega
    · rwa [hnone] at hf
  · have hcreate : ∀ name pr fg stack, op ≠ .create name pr fg stack :=
      fun name pr fg stack e => hcreate ⟨name, pr, fg, stack, e⟩
    by_cases hexit : ∃ s, op = .exit s
    · obtain ⟨s, rfl⟩ := hexit
      rcases Fate.alive_of_after hf with ⟨hf, hne⟩ | he
      · refine ⟨hf, fun _ _ hc => hne s ?_⟩
        rw [← hc]
        rfl
      · cases he
    · have hexit : ∀ s, op ≠ .exit s := fun s e => hexit ⟨s, e⟩
      rw [fate_plain (told_plain k hcreate hexit)] at hf
      exact ⟨hf, fun s e => absurd e (hexit s)⟩

/-- A call that runs to its end. -/
theorem call_patient (h : Patient c σ) (hs : σ.kernel.Sound) {op : Op} {rsp : Nat}
    (hnow : op.AtOnce = true) (hok : Undisturbed c σ (.call op rsp))
    (hun : Unroused c σ (.call op rsp)) : Patient c (σ.call op) := by
  have hlive : ∀ j, σ.vacate.cont j = .wait c →
      σ.cont j = .wait c ∧ (σ.kernel.life j).state ≠ .dead := by
    intro j hj
    simp only [vacate] at hj
    split at hj
    · cases hj
    · exact ⟨hj, ‹_›⟩
  refine (vacate_patient h).exec hs (told σ.kernel op) (fun pid => ?_)
    (fun _ _ _ _ _ j hj => (hlive j hj).2) (fun j hj => ?_) (fun p hf hknown => ?_) fun hp => ?_
  · rintro rfl
    cases hnow
  · rintro rfl
    exact hun j (hlive j hj).1 rfl
  · obtain ⟨hf, hexit⟩ := alive_of_told hs hf hknown
    refine ⟨hf, fun i hi => ?_⟩
    rcases target_some hi with ⟨rfl, -, s, rfl⟩ | ⟨-, -, rfl | rfl⟩
    · exact hexit s rfl
    · exact hok
    · cases hnow
  · cases op with
    | semWait => cases hnow
    | pipeRead => cases hnow
    | pipeWrite => cases hnow
    | _ => cases hp

/-- Where the current process goes in the main part of a step: only a call that returns
leaves it in user mode, and only a round of `syscall_wait` inside `syscall_wait`. -/
def Moves (σ : Sys) (l : Label) (r : Sys × Bool) : Prop :=
  ∃ c', r.1.cont = Function.update σ.cont σ.cur c' ∧ r.1.cur = σ.cur ∧
    (c' = .user → r.2 = true) ∧ ∀ pid, c' = .wait pid → σ.opOf l = some (.wait pid)

theorem Moves.of_exec {l : Label} {ret : Bool} (op : Op) (c' : Cont) (htick : ∀ rsp, op ≠ .tick rsp)
    (hcont : τ.cont = ((σ.exec op).goto c').cont) (hcur : τ.cur = (σ.exec op).cur)
    (huser : c' = .user → ret = true)
    (hwait : ∀ pid, c' = .wait pid → σ.opOf l = some (.wait pid)) : σ.Moves l (τ, ret) := by
  refine ⟨c', ?_, hcur.trans (σ.exec_cur htick), huser, hwait⟩
  rw [hcont, goto_cont, σ.exec_cur htick, exec_cont]

/-- A call that stays where it is returns. -/
theorem Moves.of_user {l : Label} (hu : σ.InUser) : σ.Moves l (σ, true) := by
  refine ⟨.user, ?_, rfl, fun _ => rfl, fun _ => by rintro ⟨⟩⟩
  rw [← hu.2, Function.update_eq_self]

theorem waitStep_moves {l : Label} {pid : Int} (hop : σ.opOf l = some (.wait pid)) :
    σ.Moves l (σ.waitStep pid) := by
  simp only [waitStep]
  split
  · refine .of_exec (.wait pid) _ (by rintro _ ⟨⟩) rfl rfl (by rintro ⟨⟩) ?_
    rintro _ ⟨⟩
    exact hop
  · exact .of_exec (.wait pid) _ (by rintro _ ⟨⟩) rfl rfl (fun _ => rfl) (by rintro _ ⟨⟩)

theorem main_moves {l : Label} {r : Sys × Bool} (hg : σ.guard l) (h : σ.main l = some r)
    (hcall : ∀ op rsp, l ≠ .call op rsp) (hctrl : l ≠ .ctrlC) : σ.Moves l r := by
  cases l
  case call op rsp => exact absurd rfl (hcall op rsp)
  case ctrlC => exact absurd rfl hctrl
  case timer => cases h
  all_goals obtain rfl := Option.some.inj h
  case wait => exact waitStep_moves rfl
  case semWait semId rsp =>
      have hstays : σ.Moves (.semWait semId rsp) (σ.exec (.semWait semId), true) :=
        .of_exec (.semWait semId) .user (by rintro _ ⟨⟩)
          (by rw [← hg.2, σ.exec_goto_cont (by rintro _ ⟨⟩)]) rfl (fun _ => rfl) (by rintro _ ⟨⟩)
      simp only [semWait]
      split
      · split
        · exact hstays
        · exact .of_exec (.semWait semId) _ (by rintro _ ⟨⟩) rfl rfl (fun _ => rfl) (by rintro _ ⟨⟩)
      · exact hstays
  case read fd count rsp =>
      simp only [readStart]
      split
      · split
        · exact ⟨_, rfl, rfl, by rintro ⟨⟩, by rintro _ ⟨⟩⟩
        · exact .of_user hg
      · exact .of_user hg
  case write fd buf rsp =>
      simp only [writeStart]
      split
      · split
        · exact ⟨_, rfl, rfl, by rintro ⟨⟩, by rintro _ ⟨⟩⟩
        · exact .of_user hg
      · exact .of_user hg
  case resume rsp =>
      obtain ⟨-, hres, -⟩ := hg
      rcases hc : σ.cont σ.cur with - | i | pid | ⟨p, count, got, asleep⟩ | ⟨p, buf, n, asleep⟩ <;>
        simp only [resume, hc]
      · cases hc ▸ hres
      · cases hc ▸ hres
      · exact waitStep_moves (by simp only [opOf, hc])
      · simp only [readStep]
        split
        · split
          all_goals exact .of_exec (.pipeRead p) _ (by rintro _ ⟨⟩) rfl rfl (by simp) (by simp)
        all_goals exact .of_exec (.pipeRead p) _ (by rintro _ ⟨⟩) rfl rfl (by simp) (by simp)
      · simp only [writeStep]
        split
        · split
          all_goals exact .of_exec (.pipeWrite p _) _ (by rintro _ ⟨⟩) rfl rfl (by simp) (by simp)
        all_goals exact .of_exec (.pipeWrite p _) _ (by rintro _ ⟨⟩) rfl rfl (by simp) (by simp)

/-- A process inside `syscall_wait` goes on with a round or is interrupted. -/
theorem opOf_of_inside {l : Label} {pid : Int} (hg : σ.guard l) (hc : σ.cont σ.cur = .wait pid) :
    σ.opOf l = some (.wait pid) ∨ (∃ rsp, l = .timer rsp) ∨ l = .ctrlC := by
  cases l with
  | resume => simp only [opOf, hc, true_or]
  | timer rsp => exact .inr (.inl ⟨rsp, rfl⟩)
  | ctrlC => exact .inr (.inr rfl)
  | call => cases hg.1.2.symm.trans hc
  | _ => cases hg.2.symm.trans hc

/-- Which processes are inside `syscall_wait` changes with its rounds and with calls
only. -/
theorem main_waits_iff {l : Label} {r : Sys × Bool} (hg : σ.guard l) (h : σ.main l = some r)
    (hcall : ∀ op rsp, l ≠ .call op rsp) (hwait : ∀ pid, σ.opOf l ≠ some (.wait pid)) (j : Slot)
    (pid : Int) : r.1.cont j = .wait pid ↔ σ.cont j = .wait pid := by
  by_cases hctrl : l = .ctrlC
  · subst hctrl
    obtain rfl := Option.some.inj h
    exact Iff.rfl
  · obtain ⟨c', hcont, -, -, hc'⟩ := main_moves hg h hcall hctrl
    rw [hcont]
    by_cases hj : j = σ.cur
    · rw [hj, Function.update_self]
      refine iff_of_false (fun e => hwait pid (hc' pid e)) fun e => ?_
      rcases opOf_of_inside hg e with hop | ⟨_, rfl⟩ | rfl
      · exact hwait pid hop
      · cases h
      · exact hctrl rfl
    · rw [Function.update_of_ne hj]

/-- In user mode the current process runs, or it is a zombie that Ctrl+C has left. -/
def Upright (σ : Sys) : Prop :=
  σ.InUser → (σ.kernel.life σ.cur).state = .running ∨ (σ.kernel.life σ.cur).state = .zombie

/-- The caller of a round is not ready if it has to be off the queues. -/
theorem Patient.caller (h : Patient c σ) (hs : σ.kernel.Sound) (hup : σ.Upright) {l : Label}
    {pid : Int} (hg : σ.guard l) (hop : σ.opOf l = some (.wait pid))
    (hcall : ∀ op rsp, l ≠ .call op rsp) (hun : Unroused c σ l) :
    σ.cur ≠ 0 ∧ (σ.kernel.life σ.cur).state ≠ .blocked ∧
      (σ.OffQueue c σ.cur → (σ.kernel.life σ.cur).state ≠ .ready) ∧
      (∀ pid', σ.cont σ.cur = .wait pid' → pid' = pid) ∧
      (pid = c → σ.kernel.tickets σ.pid = 0) := by
  cases l with
  | call op rsp => exact absurd rfl (hcall op rsp)
  | wait pid' rsp =>
      -- the first round
      obtain rfl := Op.wait.inj (Option.some.inj hop)
      have hstate := hup hg
      refine ⟨hg.1, fun hb => ?_, fun _ hr => ?_, fun _ e => ?_, hun⟩
      · rcases hstate with he | he <;> cases he.symm.trans hb
      · rcases hstate with he | he <;> cases he.symm.trans hr
      · cases hg.2.symm.trans e
  | resume rsp =>
      rcases hc : σ.cont σ.cur with - | i | pid' | ⟨p, count, got, asleep⟩ | ⟨p, buf, n, asleep⟩ <;>
        simp only [opOf, hc] at hop
      · cases hop
      · cases hop
      · -- a later round
        obtain rfl := Op.wait.inj (Option.some.inj hop)
        obtain ⟨h0, -, hb⟩ := hg
        have hb : (σ.kernel.life σ.cur).state ≠ .blocked := by
          rw [hc] at hb
          exact hb trivial
        refine ⟨h0, hb, fun hoff hr => ?_, fun _ e => (Cont.wait.inj e).symm, fun e => ?_⟩
        · obtain ⟨rfl, p, hf⟩ := hoff pid' hc
          exact ((h.awaits _ hc).asleep p hf).1 (.inl hr)
        · rw [e] at hc
          exact (h.awaits _ hc).quiet hs.pids.current
      · cases hop
      · cases hop
  | semWait => cases hop
  | read => cases hop
  | write => cases hop
  | timer => cases hop
  | ctrlC => cases hop

/-- Whoever parks is not inside `syscall_wait`. -/
theorem not_inside_of_parks {l : Label} {op : Op} (hg : σ.guard l) (ho : σ.opOf l = some op)
    (hp : σ.kernel.Parks op) : σ.cont σ.cur ≠ .wait c := by
  intro hc
  rcases opOf_of_inside hg hc with hop | ⟨_, rfl⟩ | rfl
  · rw [← Option.some.inj (hop.symm.trans ho)] at hp
    cases hp
  · cases ho
  · rw [← Option.some.inj ho] at hp
    cases hp

theorem main_patient (h : Patient c σ) (hσ : Faithful c σ) (hup : σ.Upright) {l : Label}
    (hg : σ.guard l) (hok : Undisturbed c σ l) (hun : Unroused c σ l) {r : Sys × Bool}
    (hr : σ.main l = some r) : Patient c r.1 := by
  have hs := hσ.delivers.sound
  by_cases hcall : ∃ op rsp, l = .call op rsp
  · obtain ⟨op, rsp, rfl⟩ := hcall
    obtain rfl := Option.some.inj hr
    exact call_patient h hs hg.2 hok hun
  · have hcall : ∀ op rsp, l ≠ .call op rsp := fun op rsp e => hcall ⟨op, rsp, e⟩
    by_cases hwait : ∃ pid, σ.opOf l = some (.wait pid)
    · -- a round of `syscall_wait`
      obtain ⟨pid, hop⟩ := hwait
      obtain ⟨h0, hb, hready, hcur, hquiet⟩ := h.caller hs hup hg hop hcall hun
      rw [main_wait hr hop hcall]
      exact h.wait hσ h0 hb hready hcur hquiet
    · -- the calls that wait elsewhere, and Ctrl+C: who is inside `syscall_wait` stays
      have hwait : ∀ pid, σ.opOf l ≠ some (.wait pid) := fun pid e => hwait ⟨pid, e⟩
      obtain ⟨es, hes, hlog⟩ := main_plain hr hcall hwait
      have hcont := main_waits_iff hg hr hcall hwait
      have hkernel := main_kernel hr
      have hfate : fate c r.1.log = fate c σ.log := by rw [hlog, fate_plain hes]
      rcases ho : σ.opOf l with - | op <;> rw [ho] at hkernel
      · exact h.congr hkernel (fun j pid => (hcont j pid).mp)
          (fun j pid hj _ => (hcont j pid).mpr hj) hfate
      · have hinner : (∀ name pr fg stack, op ≠ .create name pr fg stack) ∧
            ∀ pid, op ≠ .unblock pid := by
          rcases opOf_inner ho hcall with ⟨-, rfl⟩ | ⟨pid, rfl⟩ | hmay
          · exact ⟨by rintro _ _ _ _ ⟨⟩, by rintro _ ⟨⟩⟩
          · exact ⟨by rintro _ _ _ _ ⟨⟩, by rintro _ ⟨⟩⟩
          · constructor
            · rintro _ _ _ _ rfl
              cases hmay
            · rintro _ rfl
              cases hmay
        have hexec : Patient c ((σ.exec op).record []) := by
          refine h.exec hs [] (fun pid e => hwait pid (e ▸ ho))
            (fun _ _ _ _ e => absurd e (hinner.1 _ _ _ _)) (fun j _ => hinner.2 _)
            (fun p hf _ => ⟨hf, fun i hi => ?_⟩) (not_inside_of_parks hg ho)
          rcases opOf_inner ho hcall with ⟨rfl, rfl⟩ | ⟨pid, rfl⟩ | hmay
          · exact hok i hi
          · cases hi
          · rcases target_some hi with ⟨-, -, s, rfl⟩ | ⟨-, -, rfl | rfl⟩ <;> cases hmay
        exact hexec.congr hkernel (fun j pid => (hcont j pid).mp)
          (fun j pid hj _ => (hcont j pid).mpr hj) hfate

theorem step_patient (h : Patient c σ) (hσ : Faithful c σ) (hup : σ.Upright) {l : Label}
    (hg : σ.guard l) (hok : Undisturbed c σ l) (hun : Unroused c σ l) : Patient c (σ.step l) := by
  have hs := hσ.delivers.sound
  refine (step_invariant (I := fun σ => σ.kernel.Sound ∧ Patient c σ) ⟨hs, h⟩
    (fun r hr => ⟨(main_delivers hσ hg hok hr).sound, main_patient h hσ hup hg hok hun hr⟩)
    (fun σ rsp hσ => ⟨exec_sound hσ.1 (.tick rsp), ?_⟩) fun σ hσ _ => ⟨?_, ?_⟩).2
  · show Patient c ((σ.exec (.tick rsp)).record [])
    exact hσ.2.exec hσ.1 [] (fun _ => by rintro ⟨⟩) (fun _ _ _ _ => by rintro ⟨⟩)
      (fun _ _ => by rintro ⟨⟩) (fun p hf _ => ⟨hf, fun i hi => by cases hi⟩) fun hp => by cases hp
  · rw [arrive_kernel]
    exact hσ.1
  · rcases σ.arrive_cases with ⟨i, hc, he⟩ | ⟨-, he⟩
    · rw [he]
      have hiff : ∀ j pid, (σ.goto .user).cont j = .wait pid ↔ σ.cont j = .wait pid := by
        intro j pid
        rw [goto_cont]
        by_cases hj : j = σ.cur
        · rw [hj, Function.update_self, hc]
          exact iff_of_false (by rintro ⟨⟩) (by rintro ⟨⟩)
        · rw [Function.update_of_ne hj]
      refine hσ.2.congr rfl (fun j pid => (hiff j pid).mp)
        (fun j pid hj _ => (hiff j pid).mpr hj) ?_
      refine fate_plain (fun e he => ?_) σ.log
      obtain rfl := List.mem_singleton.mp he
      trivial
    · rw [he]
      exact hσ.2

/-- A call that does not return leaves its process inside the kernel. -/
theorem eq_ctrlC_of_user {σ' : Sys} {l : Label} (hg : σ.guard l) (hm : σ.main l = some (σ', false))
    (hu : σ'.cont σ'.cur = .user) : l = .ctrlC := by
  by_contra hctrl
  have hcall : ∀ op rsp, l ≠ .call op rsp := by
    rintro op rsp rfl
    cases hm
  obtain ⟨c', hcont, hcur, huser, -⟩ := main_moves hg hm hcall hctrl
  rw [hcont, hcur, Function.update_self] at hu
  cases huser hu

/-- Ctrl+C ends the current process or leaves it running. -/
theorem upright_killForeground {k : Kernel} (hs : k.Sound)
    (h : (k.life k.sched.currentIdx).state = .running ∨
      (k.life k.sched.currentIdx).state = .zombie) :
    ((k.exec .killForeground).life k.sched.currentIdx).state = .running ∨
      ((k.exec .killForeground).life k.sched.currentIdx).state = .zombie := by
  have hb : (k.life k.sched.currentIdx).state ≠ .blocked := by
    rcases h with h | h <;> rw [h] <;> rintro ⟨⟩
  have hstep := k.exec_lifeStep hs.ordered .killForeground k.sched.currentIdx
  generalize (k.exec .killForeground).life k.sched.currentIdx = l at hstep
  generalize hj : k.sched.currentIdx = j at hstep h hb
  cases hstep with
  | keeps => exact h
  | wakes hbl => exact absurd hbl hb
  | releases _ hbl => exact absurd hbl hb
  | parks hp => cases hp
  | ends => exact .inr rfl
  | kills _ hne => exact absurd hj.symm hne

/-- **In user mode the current process runs or is a zombie.** -/
theorem step_upright (hs : σ.kernel.Sound) (h : σ.Upright) {l : Label} (hg : σ.guard l) :
    (σ.step l).Upright := by
  intro hu
  unfold step at hu ⊢
  rcases hm : σ.main l with - | ⟨σ', ret⟩
  · left
    show ((σ.tick l.rsp).kernel.life (σ.tick l.rsp).cur).state = .running
    rw [tick, cur, arrive_kernel]
    exact Kernel.tick_current l.rsp
  · rw [hm] at hu
    cases ret with
    | true => exact .inl (σ'.sysret_running l.rsp)
    | false =>
        obtain rfl := eq_ctrlC_of_user hg hm hu.2
        obtain rfl : σ.exec .killForeground = σ' := congrArg Prod.fst (Option.some.inj hm)
        have hcur : (σ.exec .killForeground).cur = σ.cur := σ.exec_cur fun _ => by rintro ⟨⟩
        have hold := h ⟨hcur ▸ hu.1, hcur ▸ hu.2⟩
        rw [hcur]
        exact upright_killForeground hs hold

theorem init_patient (idleStack stack : Nat) : Patient c (init idleStack stack) :=
  ⟨exec_ordered (Kernel.init_ordered idleStack) fun _ => by rintro ⟨⟩, fun _ hj => by cases hj⟩

/-- A run without the disturbances, and in which nobody is roused. -/
def Calmly (c : Int) (σ : Sys) (l : Label) : Prop := Undisturbed c σ l ∧ Unroused c σ l

instance (c : Int) (σ : Sys) (l : Label) : Decidable (Calmly c σ l) :=
  inferInstanceAs (Decidable (_ ∧ _))

end Sys

end TP2Kernel
