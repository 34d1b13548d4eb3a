/-
TP2Kernel/SemaphoreSafety.lean

Semaphores as user processes see them.  Whenever `sys_sem_wait` has returned 0
a token has been given away, and tokens come from the initial value and from
`sys_sem_post` only.  The books are kept by

    granted + inside + value  ≤  initial value + posted

where `inside` counts the processes inside `sys_sem_wait`, asleep or already
woken.  A process that is killed on its way out takes its token along, which
is why this is not an equation.  As a queue is never longer than `inside`, and
as long as the value is negative, `granted` alone is bounded.

`sys_unblock` aimed at a waiter ends its wait without a token; `unblock_grants`
is the shortest such run.
-/
import TP2Kernel.Tokens
import TP2Kernel.KillResidue
import Mathlib.Algebra.BigOperators.Group.Finset.Piecewise
import Mathlib.Algebra.Order.BigOperators.Group.Finset

namespace TP2Kernel

/-! ### What the history says -/

/-- The semaphore an event is about. -/
def Event.sem : Event → Option (Fin maxSemaphores)
  | .semOpened i _ | .semGranted _ i | .semPosted _ i => some i
  | _ => none

/-- A `sys_sem_wait` on the semaphore has returned 0. -/
def Event.Grants (i : Fin maxSemaphores) : Event → Bool
  | .semGranted _ n => n = i
  | _ => false

/-- A `sys_sem_post` on the semaphore. -/
def Event.Posts (i : Fin maxSemaphores) : Event → Bool
  | .semPosted _ n => n = i
  | _ => false

/-- How many calls of `sys_sem_wait` have returned 0. -/
def granted (log : List Event) (i : Fin maxSemaphores) : Nat := log.countP (Event.Grants i)

/-- How many calls of `sys_sem_post` there were. -/
def posted (log : List Event) (i : Fin maxSemaphores) : Nat := log.countP (Event.Posts i)

theorem granted_append (es log : List Event) (i : Fin maxSemaphores) :
    granted (es ++ log) i = granted es i + granted log i := List.countP_append

theorem posted_append (es log : List Event) (i : Fin maxSemaphores) :
    posted (es ++ log) i = posted es i + posted log i := List.countP_append

/-- Events about nothing, or about another semaphore, do not count. -/
theorem count_of_sem (es : List Event) {i : Fin maxSemaphores} (h : ∀ e ∈ es, e.sem ≠ some i) :
    granted es i = 0 ∧ posted es i = 0 := by
  constructor
  · refine List.countP_eq_zero.mpr fun e he hg => h e he ?_
    cases e <;> simp_all [Event.Grants, Event.sem]
  · refine List.countP_eq_zero.mpr fun e he hg => h e he ?_
    cases e <;> simp_all [Event.Posts, Event.sem]

/-! ### Taking turns -/

/-- Where a process stands that waits and posts in turn: `true` between its
wait and its post, and nothing if it got out of step. -/
def phase (pid : Int) (i : Fin maxSemaphores) : List Event → Option Bool
  | [] => some false
  | .semGranted p n :: log =>
      if p = pid ∧ n = i then if phase pid i log = some false then some true else none
      else phase pid i log
  | .semPosted p n :: log =>
      if p = pid ∧ n = i then if phase pid i log = some true then some false else none
      else phase pid i log
  | _ :: log => phase pid i log

/-- A process in step has got one token more than it has posted, or as many. -/
theorem count_of_phase {pid : Int} {i : Fin maxSemaphores} {log : List Event} {b : Bool}
    (h : phase pid i log = some b) :
    log.count (.semGranted pid i) = log.count (.semPosted pid i) + b.toNat := by
  induction log generalizing b with
  | nil =>
      obtain rfl := Option.some.inj h
      rfl
  | cons e log ih =>
      cases e
      case semGranted p n | semPosted p n =>
          simp only [phase] at h
          by_cases hpn : p = pid ∧ n = i
          · obtain ⟨rfl, rfl⟩ := hpn
            rw [if_pos ⟨rfl, rfl⟩] at h
            split at h
            · rename_i hprev
              obtain rfl := Option.some.inj h
              have hcount := ih hprev
              rw [List.count_cons_self, List.count_cons_of_ne (by rintro ⟨⟩), hcount]
              rfl
            · cases h
          · rw [if_neg hpn] at h
            rw [List.count_cons_of_ne ?_, List.count_cons_of_ne ?_, ih h]
            all_goals
              rintro ⟨⟩
              try exact hpn ⟨rfl, rfl⟩
      all_goals
          rw [List.count_cons_of_ne (by rintro ⟨⟩),
            List.count_cons_of_ne (by rintro ⟨⟩)]
          exact ih h

/-- The events of one kind, counted for each process. -/
theorem countP_eq_sum {log : List Event} {P : Event → Bool} (f : Int → Event)
    (hf : Function.Injective f) (hP : ∀ pid, P (f pid) = true) {S : Finset Int}
    (hS : ∀ e ∈ log, P e = true → ∃ pid ∈ S, e = f pid) :
    log.countP P = ∑ pid ∈ S, log.count (f pid) := by
  induction log with
  | nil => simp
  | cons e log ih =>
      have ih := ih fun e he => hS e (List.mem_cons_of_mem _ he)
      rw [List.countP_cons, ih]
      by_cases hPe : P e = true
      · obtain ⟨pid, hpid, rfl⟩ := hS e List.mem_cons_self hPe
        simp only [List.count_cons, hP, if_true, Finset.sum_add_distrib, beq_iff_eq, hf.eq_iff]
        rw [Finset.sum_ite_eq, if_pos hpid]
      · rw [if_neg hPe]
        refine Finset.sum_congr rfl fun pid _ => (List.count_cons_of_ne ?_).symm
        rintro rfl
        exact hPe (hP pid)

/-- Who an event about a semaphore is about. -/
def Event.actor : Event → Int
  | .semGranted pid _ | .semPosted pid _ => pid
  | _ => 0

/-- **Mutual exclusion from counting**: if all processes take turns and at most
one token more has been given away than posted, two processes cannot both be
between their wait and their post. -/
theorem phase_unique {log : List Event} {i : Fin maxSemaphores}
    (hle : granted log i ≤ posted log i + 1) (hturn : ∀ pid, phase pid i log ≠ none) {p q : Int}
    (hp : phase p i log = some true) (hq : phase q i log = some true) : p = q := by
  by_contra hpq
  -- all the processes there are, and the two
  let S : Finset Int := insert p (insert q (log.map Event.actor).toFinset)
  have hmem : ∀ e ∈ log, e.actor ∈ S := fun e he =>
    Finset.mem_insert_of_mem (Finset.mem_insert_of_mem
      (List.mem_toFinset.mpr (List.mem_map_of_mem he)))
  have hg : granted log i = ∑ pid ∈ S, log.count (.semGranted pid i) := by
    refine countP_eq_sum (fun pid => .semGranted pid i) (fun a b h => (Event.semGranted.inj h).1)
      (fun pid => by simp [Event.Grants]) fun e he hPe => ⟨e.actor, hmem e he, ?_⟩
    cases e <;> simp_all [Event.Grants, Event.actor]
  have ho : posted log i = ∑ pid ∈ S, log.count (.semPosted pid i) := by
    refine countP_eq_sum (fun pid => .semPosted pid i) (fun a b h => (Event.semPosted.inj h).1)
      (fun pid => by simp [Event.Posts]) fun e he hPe => ⟨e.actor, hmem e he, ?_⟩
    cases e <;> simp_all [Event.Posts, Event.actor]
  have hone : ∀ pid, log.count (.semPosted pid i) + ((if pid = p then 1 else 0) +
      (if pid = q then 1 else 0)) ≤ log.count (.semGranted pid i) := by
    intro pid
    obtain ⟨b, hb⟩ := Option.ne_none_iff_exists'.mp (hturn pid)
    have hcount := count_of_phase hb
    by_cases h1 : pid = p
    · subst h1
      obtain rfl := Option.some.inj (hb.symm.trans hp)
      rw [if_pos rfl, if_neg hpq, hcount]
      rfl
    · by_cases h2 : pid = q
      · subst h2
        obtain rfl := Option.some.inj (hb.symm.trans hq)
        rw [if_neg h1, if_pos rfl, hcount]
        rfl
      · rw [if_neg h1, if_neg h2, hcount]
        exact Nat.le_add_right _ _
  have hsum := Finset.sum_le_sum fun pid (_ : pid ∈ S) => hone pid
  rw [Finset.sum_add_distrib, Finset.sum_add_distrib, Finset.sum_ite_eq', Finset.sum_ite_eq',
    if_pos (Finset.mem_insert_self _ _),
    if_pos (Finset.mem_insert_of_mem (Finset.mem_insert_self _ _)), ← hg, ← ho] at hsum
  omega

/-! ### Runs with semaphores only -/

/-- The calls under consideration. -/
def Kernel.Op.SemCall : Kernel.Op → Bool
  | .create _ _ _ _ | .kill _ | .block _ | .unblock _ | .nice _ _ | .exit _ | .yield
  | .semOpen _ _ | .semPost _ => true
  | _ => false

/-- The steps under consideration: these calls, `sys_sem_wait` and the
timer. -/
def Label.SemCall : Label → Bool
  | .call op _ => op.SemCall
  | .semWait _ _ | .timer _ => true
  | _ => false

namespace Sys

variable {σ σ' : Sys} {i : Fin maxSemaphores} {v : Int}

/-- The number of processes inside `sys_sem_wait` on a semaphore. -/
def inside (σ : Sys) (i : Fin maxSemaphores) : Nat :=
  σ.kernel.headcount fun j => σ.park j = some i

/-- The books of a semaphore opened with the value `v`. -/
structure Ledger (σ : Sys) (i : Fin maxSemaphores) (v : Int) : Prop where
  tight : (σ.kernel.semTable i).Tight
  tokens : (granted σ.log i : Int) + σ.inside i + (σ.kernel.semTable i).value ≤
    v + posted σ.log i

/-- What the steps under consideration keep: no pipes, and nothing is about a
semaphore that is out of use. -/
structure Books (σ : Sys) : Prop where
  disciplined : σ.Disciplined
  noPipes : ∀ p, (σ.kernel.pipeTable p).active = false
  parkedAt : ∀ j i, (σ.kernel.life j).state ≠ .dead → σ.park j = some i →
    (σ.kernel.semTable i).active = true
  logged : ∀ e ∈ σ.log, ∀ i, e.sem = some i → (σ.kernel.semTable i).active = true
  ledger : ∀ i v, Event.semOpened i v ∈ σ.log → 0 ≤ v → σ.Ledger i v

theorem init_books (idleStack stack : Nat) : (init idleStack stack).Books := by
  refine ⟨init_disciplined idleStack stack, fun _ => rfl, fun j i _ hj => ?_, fun e he => ?_,
    fun i v he => ?_⟩
  · cases hj
  · cases he
  · cases he

/-- A step that opens no semaphore: new events and newly parked processes are
about semaphores in use, and the ledgers are kept. -/
theorem Books.next (h : σ.Books) (hd : σ'.Disciplined)
    (hp : σ'.kernel.pipeTable = σ.kernel.pipeTable)
    (hact : ∀ i, (σ'.kernel.semTable i).active = (σ.kernel.semTable i).active)
    (hpark : ∀ j i, (σ'.kernel.life j).state ≠ .dead → σ'.park j = some i →
      (σ.kernel.life j).state ≠ .dead ∧ σ.park j = some i ∨ (σ.kernel.semTable i).active = true)
    (es : List Event) (hlog : σ'.log = es ++ σ.log) (hes : ∀ e ∈ es, ∀ i v, e ≠ .semOpened i v)
    (hsem : ∀ e ∈ es, ∀ i, e.sem = some i → (σ.kernel.semTable i).active = true)
    (hledger : ∀ i v, σ.Ledger i v → σ'.Ledger i v) : σ'.Books := by
  refine ⟨hd, by rw [hp]; exact h.noPipes, fun j i hl hj => ?_, fun e he i hi => ?_,
    fun i v he hv => ?_⟩
  · rw [hact]
    rcases hpark j i hl hj with ⟨hl', hj'⟩ | hi
    · exact h.parkedAt j i hl' hj'
    · exact hi
  · rw [hact]
    rw [hlog] at he
    rcases List.mem_append.mp he with he | he
    · exact hsem e he i hi
    · exact h.logged e he i hi
  · rw [hlog] at he
    rcases List.mem_append.mp he with he | he
    · exact absurd rfl (hes _ he i v)
    · exact hledger i v (h.ledger i v he hv)

/-- Nobody is parked at a semaphore out of use. -/
theorem Books.inside_eq_zero (h : σ.Books) (hi : (σ.kernel.semTable i).active = false) :
    σ.inside i = 0 := by
  rcases Nat.eq_zero_or_pos (σ.inside i) with h0 | hpos
  · exact h0
  · obtain ⟨j, hl, hj⟩ := Kernel.exists_of_headcount_pos hpos
    cases hi.symm.trans (h.parkedAt j i hl hj)

/-! ### The timer and the way back -/

theorem tick_books (h : σ.Books) (rsp : Nat) : (σ.exec (.tick rsp)).Books := by
  have hlive : ∀ j, ((σ.kernel.exec (.tick rsp)).life j).state = .dead ↔
      (σ.kernel.life j).state = .dead :=
    Kernel.exec_dead_iff h.disciplined.strict.sound (.tick rsp) rfl (fun _ => by rintro ⟨⟩)
      fun _ _ _ _ => by rintro ⟨⟩
  refine h.next (h.disciplined.tick rsp) rfl (fun _ => rfl)
    (fun j i hl hj => .inl ⟨fun hd => hl ((hlive j).mpr hd), hj⟩) [] rfl
    (fun _ he => by cases he) (fun _ he => by cases he) fun i v hL => ⟨hL.tight, ?_⟩
  have hin : (σ.exec (.tick rsp)).inside i ≤ σ.inside i :=
    Kernel.headcount_mono fun j hl hj => ⟨fun hd => hl ((hlive j).mpr hd), hj⟩
  have htok := hL.tokens
  show (granted σ.log i : Int) + (σ.exec (.tick rsp)).inside i + (σ.kernel.semTable i).value ≤
    v + posted σ.log i
  omega

/-- Who returns from `sys_sem_wait` is no longer inside. -/
theorem arrive_books (h : σ.Books) (hrun : (σ.kernel.life σ.cur).state = .running) :
    σ.arrive.Books := by
  have hdisc := h.disciplined.arrive hrun
  rcases σ.arrive_cases with ⟨n, hc, heq⟩ | ⟨-, heq⟩
  · rw [heq] at hdisc ⊢
    have hlive : (σ.kernel.life σ.cur).state ≠ .dead := by
      rw [hrun]
      rintro ⟨⟩
    have hcur : σ.park σ.cur = some n := by
      unfold park
      rw [hc]
      rfl
    -- the others stay where they are
    have hpark : ∀ j i, ((σ.goto .user).record [.semGranted σ.pid n]).park j = some i →
        j ≠ σ.cur ∧ σ.park j = some i := by
      intro j i hj
      have hj' : (σ.goto .user).park j = some i := hj
      rw [goto_park] at hj'
      by_cases hjc : j = σ.cur
      · rw [hjc, Function.update_self] at hj'
        cases hj'
      · rw [Function.update_of_ne hjc] at hj'
        exact ⟨hjc, hj'⟩
    have hact := h.parkedAt σ.cur n hlive hcur
    refine h.next hdisc rfl (fun _ => rfl) (fun j i hl hj => .inl ⟨hl, (hpark j i hj).2⟩)
      [.semGranted σ.pid n] rfl (fun e he => ?_) (fun e he i hi => ?_) fun i v hL =>
        ⟨hL.tight, ?_⟩
    · obtain rfl := List.mem_singleton.mp he
      exact fun _ _ => by rintro ⟨⟩
    · obtain rfl := List.mem_singleton.mp he
      obtain rfl := Option.some.inj hi
      exact hact
    · have htok := hL.tokens
      simp only [record_log, goto_log, record_kernel, goto_kernel, granted_append, posted_append]
      have hp0 : posted [.semGranted σ.pid n] i = 0 := rfl
      by_cases hin : n = i
      · subst hin
        have hlt : ((σ.goto .user).record [.semGranted σ.pid n]).inside n + 1 ≤ σ.inside n :=
          Kernel.headcount_lt ⟨hlive, hcur⟩ fun j hl hj => ⟨(hpark j n hj).1, hl, (hpark j n hj).2⟩
        have hg1 : granted [.semGranted σ.pid n] n = 1 := by simp [granted, Event.Grants]
        omega
      · have hle : ((σ.goto .user).record [.semGranted σ.pid n]).inside i ≤ σ.inside i :=
          Kernel.headcount_mono fun j hl hj => ⟨hl, (hpark j i hj).2⟩
        have hg0 : granted [.semGranted σ.pid n] i = 0 := by simp [granted, Event.Grants, hin]
        omega
  · rw [heq]
    exact h

/-! ### The calls -/

/-- A call parks nobody, and a process that has ended is parked nowhere. -/
theorem call_park {op : Kernel.Op} {j : Slot} (h : (σ.call op).park j = some i) :
    (σ.kernel.life j).state ≠ .dead ∧ σ.park j = some i := by
  have h' : Cont.park (if (σ.kernel.proc j).state = .dead then .user else σ.cont j) = some i := h
  split at h'
  · cases h'
  · exact ⟨‹_›, h'⟩

theorem call_inside_le (σ : Sys) (op : Kernel.Op) (i : Fin maxSemaphores) :
    (σ.call op).inside i ≤ σ.inside i :=
  Kernel.headcount_mono fun _ _ hj => call_park hj

theorem call_log (σ : Sys) (op : Kernel.Op) : (σ.call op).log = told σ.kernel op ++ σ.log := rfl

/-- A call that leaves the semaphores alone. -/
theorem Books.call (h : σ.Books) {op : Kernel.Op} (hd : (σ.call op).Disciplined)
    (hp : (σ.kernel.exec op).pipeTable = σ.kernel.pipeTable)
    (hs : (σ.kernel.exec op).semTable = σ.kernel.semTable)
    (htold : ∀ e ∈ told σ.kernel op, e.sem = none) : (σ.call op).Books := by
  refine h.next hd hp (fun i => by rw [← hs]; rfl) (fun j i _ hj => .inl (call_park hj))
    _ (σ.call_log op) (fun e he i v hev => ?_) (fun e he i hi => ?_) fun i v hL => ?_
  · have hnone := htold e he
    rw [hev] at hnone
    cases hnone
  · cases (htold e he).symm.trans hi
  · obtain ⟨hg, hp⟩ := count_of_sem _ (i := i) fun e he hi => by cases (htold e he).symm.trans hi
    have hin := σ.call_inside_le op i
    have htok := hL.tokens
    have hi : (σ.call op).kernel.semTable i = σ.kernel.semTable i := congrFun hs i
    refine ⟨by rw [hi]; exact hL.tight, ?_⟩
    rw [hi, call_log, granted_append, posted_append, hg, hp]
    omega

/-- `sys_exit`, and `sys_kill` of the caller itself: without pipes the
semaphores stay as they are. -/
theorem Books.exitCurrent (h : σ.Books) (status : Int) :
    (σ.kernel.schedulerExitCurrent status).semTable = σ.kernel.semTable ∧
      (σ.kernel.schedulerExitCurrent status).pipeTable = σ.kernel.pipeTable := by
  unfold Kernel.schedulerExitCurrent
  split
  · exact ⟨rfl, rfl⟩
  · simp only [Kernel.onSched_semTable, Kernel.onSched_pipeTable]
    exact Kernel.closeProcessFds_noPipes (k := σ.kernel.exitPrep _ status) h.noPipes _

theorem Books.killOther (h : σ.Books) (n : Slot) (pid : Int) :
    (σ.kernel.killOther n pid).semTable = (σ.kernel.semRemoveWaitingPid pid).semTable ∧
      (σ.kernel.killOther n pid).pipeTable = σ.kernel.pipeTable := by
  unfold Kernel.killOther
  simp only [Kernel.onSched_semTable, Kernel.onSched_pipeTable]
  exact Kernel.closeProcessFds_noPipes (k := σ.kernel.killPrep n pid) h.noPipes n

/-- A process waits at most once, so taking it out gives at most one token
back, and then the process was inside. -/
theorem removedCount_cases (h : σ.Disciplined) {n : Slot}
    (hn : 0 < (σ.kernel.life n).pid) (i : Fin maxSemaphores) :
    removedCount (σ.kernel.semTable i).waiting (σ.kernel.life n).pid = 0 ∨
      removedCount (σ.kernel.semTable i).waiting (σ.kernel.life n).pid = 1 ∧
        (σ.kernel.life n).state ≠ .dead ∧ σ.park n = some i := by
  have hcount : (σ.kernel.semTable i).waiting.countP (fun w => w.1 = (σ.kernel.life n).pid) =
      ((σ.kernel.semTable i).waiting.map Prod.fst).count (σ.kernel.life n).pid := by
    rw [List.count, List.countP_map]
    exact List.countP_congr fun w _ => by simp
  unfold removedCount
  rw [hcount]
  by_cases hm : (σ.kernel.life n).pid ∈ (σ.kernel.semTable i).waiting.map Prod.fst
  · rw [List.count_eq_one_of_mem (h.parked.nodup i) hm]
    obtain ⟨w, hw, hpid⟩ := List.mem_map.mp hm
    obtain ⟨-, -, n', hn', hb, hpark⟩ := h.parked.asleep i w hw
    obtain rfl := h.strict.distinct n' n (hn'.trans hpid) (by rw [hn', hpid]; exact hn)
    refine .inr ⟨rfl, ?_, hpark⟩
    rw [hb]
    rintro ⟨⟩
  · rw [List.count_eq_zero_of_not_mem hm]
    exact .inl rfl

theorem kill_books (h : σ.Books) {pid : Int} (hd : (σ.call (.kill pid)).Disciplined) :
    (σ.call (.kill pid)).Books := by
  have hk : σ.kernel.exec (.kill pid) = (σ.kernel.schedulerKill pid).1 := rfl
  simp only [Kernel.schedulerKill] at hk
  split at hk
  · exact h.call hd (by rw [hk]) (by rw [hk]) fun _ he => by cases he
  · rename_i hpid
    split at hk
    · exact h.call hd (by rw [hk]) (by rw [hk]) fun _ he => by cases he
    · rename_i n hn
      split at hk
      · obtain ⟨hs, hp⟩ := h.exitCurrent (-1)
        exact h.call hd (by rw [hk]; exact hp) (by rw [hk]; exact hs) fun _ he => by cases he
      · obtain ⟨hs, hp⟩ := h.killOther n pid
        obtain ⟨hfound, hlive⟩ := Sched.findIndexByPid_some hn
        have hfound : (σ.kernel.life n).pid = pid := hfound
        have hk : (σ.call (.kill pid)).kernel = σ.kernel.killOther n pid := hk
        have hi : ∀ i, (σ.call (.kill pid)).kernel.semTable i =
            (σ.kernel.semRemoveWaitingPid pid).semTable i := fun i => by rw [hk, hs]
        have hdead : ((σ.call (.kill pid)).kernel.life n).state = .dead := by
          obtain ⟨l, -, hl⟩ := σ.kernel.killOther_life hn n
          rw [hk, hl, if_pos rfl]
          rfl
        refine h.next hd (by rw [hk, hp]) (fun i => ?_)
          (fun j i _ hj => .inl (call_park hj)) [] rfl (fun _ he => by cases he)
          (fun _ he => by cases he) fun i v hL => ?_
        · rw [hi]
          simp only [Kernel.semRemoveWaitingPid]
          split <;> rfl
        · refine ⟨by rw [hi]; exact Kernel.semRemoveWaitingPid_tight hL.tight pid, ?_⟩
          have htok := hL.tokens
          show (granted σ.log i : Int) + (σ.call (.kill pid)).inside i + _ ≤ v + posted σ.log i
          rw [hi]
          simp only [Kernel.semRemoveWaitingPid]
          have hle := σ.call_inside_le (.kill pid) i
          split
          · simp only [Semaphore.addValue_value, Semaphore.setWaiting_value]
            rcases removedCount_cases h.disciplined (n := n) (by omega) i with h0 | ⟨h1, hn', hpark⟩
            · rw [hfound] at h0
              omega
            · -- the victim was inside and is gone
              have hlt : (σ.call (.kill pid)).inside i + 1 ≤ σ.inside i := by
                refine Kernel.headcount_lt ⟨hn', hpark⟩ fun j hj hjp => ⟨?_, call_park hjp⟩
                rintro rfl
                exact hj hdead
              rw [hfound] at h1
              omega
          · omega

/-- A call about one semaphore in use. -/
theorem Books.callSem (h : σ.Books) {op : Kernel.Op} (hd : (σ.call op).Disciplined)
    {n : Fin maxSemaphores} (hn : (σ.kernel.semTable n).active = true)
    (hp : (σ.kernel.exec op).pipeTable = σ.kernel.pipeTable)
    (hs : ∀ i, i ≠ n → (σ.kernel.exec op).semTable i = σ.kernel.semTable i)
    (hact : ((σ.kernel.exec op).semTable n).active = true)
    (htold : ∀ e ∈ told σ.kernel op, (∀ i v, e ≠ .semOpened i v) ∧ e.sem = some n)
    (hledger : ∀ v, σ.Ledger n v → (σ.call op).Ledger n v) : (σ.call op).Books := by
  refine h.next hd hp (fun i => ?_) (fun j i _ hj => .inl (call_park hj)) _ (σ.call_log op)
    (fun e he => (htold e he).1) (fun e he i hi => ?_) fun i v hL => ?_
  · by_cases hin : i = n
    · rw [hin, hn]
      exact hact
    · exact congrArg Semaphore.active (hs i hin)
  · obtain rfl := Option.some.inj ((htold e he).2.symm.trans hi)
    exact hn
  · by_cases hin : i = n
    · subst hin
      exact hledger v hL
    · obtain ⟨hg, hp⟩ := count_of_sem (told σ.kernel op) (i := i) fun e he hi =>
        hin (Option.some.inj ((htold e he).2.symm.trans hi)).symm
      have hle := σ.call_inside_le op i
      have htok := hL.tokens
      have hi : (σ.call op).kernel.semTable i = σ.kernel.semTable i := hs i hin
      refine ⟨by rw [hi]; exact hL.tight, ?_⟩
      rw [hi, call_log, granted_append, posted_append, hg, hp]
      omega

/-- **`sys_sem_post`** puts one token in. -/
theorem semPost_books (h : σ.Books) {semId : Int}
    (hd : (σ.call (.semPost semId)).Disciplined) : (σ.call (.semPost semId)).Books := by
  have hpipe : (σ.kernel.exec (.semPost semId)).pipeTable = σ.kernel.pipeTable :=
    (SamePipes.semPost σ.kernel semId).pipeTable
  rcases hn : σ.kernel.validSem semId with - | n
  · have hk : σ.kernel.exec (.semPost semId) = σ.kernel := by
      show (σ.kernel.semPost semId).1 = _
      rw [Kernel.semPost, hn]
    refine h.call hd hpipe (by rw [hk]) fun e he => ?_
    have he' : e ∈ told σ.kernel (.semPost semId) := he
    simp only [told, hn] at he'
    cases he'
  · obtain ⟨hact, hid⟩ := σ.kernel.validSem_some hn
    have htold : told σ.kernel (.semPost semId) = [.semPosted σ.kernel.sched.schedulerGetpid n] := by
      simp only [told, hn]
    refine h.callSem hd hact hpipe (fun i hi => ?_) ?_ (fun e he => ?_) fun v hL => ?_
    · refine Kernel.semPost_other fun he => hi (Fin.ext ?_)
      omega
    · exact (Semaphore.active_of_entry (σ.kernel.semPost_entry n semId)).trans hact
    · rw [htold] at he
      obtain rfl := List.mem_singleton.mp he
      exact ⟨fun _ _ => by rintro ⟨⟩, rfl⟩
    · obtain ⟨ht, hv⟩ := Kernel.semPost_tight h.disciplined.parked h.disciplined.strict.distinct
        h.disciplined.strict.ranked hn hL.tight
      refine ⟨ht, ?_⟩
      have hle := σ.call_inside_le (.semPost semId) n
      have htok := hL.tokens
      have hg : granted [.semPosted σ.kernel.sched.schedulerGetpid n] n = 0 := rfl
      have hp : posted [.semPosted σ.kernel.sched.schedulerGetpid n] n = 1 := by
        simp [posted, Event.Posts]
      have hv' : ((σ.call (.semPost semId)).kernel.semTable n).value =
        (σ.kernel.semTable n).value + 1 := hv
      rw [hv', call_log, htold, granted_append, posted_append, hg, hp]
      omega

/-- A new semaphore starts its books. -/
theorem semOpen_books_new (h : σ.Books) {name : List UInt8} {v₀ : Int} {n : Fin maxSemaphores}
    (hn : σ.kernel.findByName name = none) (hf : σ.kernel.findFreeSem = some n)
    (hd : (σ.call (.semOpen name v₀)).Disciplined) : (σ.call (.semOpen name v₀)).Books := by
  have hpipe : (σ.kernel.exec (.semOpen name v₀)).pipeTable = σ.kernel.pipeTable :=
    (SamePipes.semOpen σ.kernel name v₀).pipeTable
  have hk : σ.kernel.exec (.semOpen name v₀) = (σ.kernel.semOpen name v₀).1 := rfl
  simp only [Kernel.semOpen, hn, hf] at hk
  have ht : told σ.kernel (.semOpen name v₀) = [.semOpened n v₀] := by
    simp only [told, hn, hf]
  have hfree : (σ.kernel.semTable n).active = false := by simpa using List.find?_some hf
  have hi : ∀ i, (σ.call (.semOpen name v₀)).kernel.semTable i =
      if i = n then ⟨name, v₀, [], true, 1⟩ else σ.kernel.semTable i := by
    intro i
    show (σ.kernel.exec (.semOpen name v₀)).semTable i = _
    rw [hk, Kernel.modifySem_semTable]
  have hact : ∀ i, (σ.kernel.semTable i).active = true →
      ((σ.call (.semOpen name v₀)).kernel.semTable i).active = true := by
    intro i hi'
    rw [hi]
    split
    · rfl
    · exact hi'
  have hle := fun i => σ.call_inside_le (.semOpen name v₀) i
  -- the history says nothing about the new semaphore
  have hnew : ∀ e ∈ σ.log, e.sem ≠ some n := fun e he hsem =>
    by cases hfree.symm.trans (h.logged e he n hsem)
  refine ⟨hd, fun p => ?_, fun j i _ hj => ?_, fun e he i hsem => ?_, fun i v he hv => ?_⟩
  · show ((σ.kernel.exec (.semOpen name v₀)).pipeTable p).active = false
    rw [hpipe]
    exact h.noPipes p
  · obtain ⟨hl, hj⟩ := call_park hj
    exact hact i (h.parkedAt j i hl hj)
  · rw [call_log, ht] at he
    rcases List.mem_append.mp he with he | he
    · obtain rfl := List.mem_singleton.mp he
      obtain rfl := Option.some.inj hsem
      rw [hi, if_pos rfl]
    · exact hact i (h.logged e he i hsem)
  · rw [call_log, ht] at he
    by_cases hin : i = n
    · subst hin
      rcases List.mem_append.mp he with he | he
      · obtain ⟨-, rfl⟩ := Event.semOpened.inj (List.mem_singleton.mp he)
        obtain ⟨hg, hp⟩ := count_of_sem _ hnew
        have hin := h.inside_eq_zero hfree
        have hle := hle i
        refine ⟨by rw [hi, if_pos rfl]; exact .of_nil rfl hv, ?_⟩
        rw [hi, if_pos rfl, call_log, ht, granted_append, posted_append, hg, hp]
        show ((0 : Nat) : Int) + _ + v ≤ v + _
        omega
      · exact absurd rfl (hnew _ he)
    · have he : Event.semOpened i v ∈ σ.log := by
        rcases List.mem_append.mp he with he | he
        · exact absurd (Event.semOpened.inj (List.mem_singleton.mp he)).1 hin
        · exact he
      have hL := h.ledger i v he hv
      have htok := hL.tokens
      have hle := hle i
      refine ⟨by rw [hi, if_neg hin]; exact hL.tight, ?_⟩
      rw [hi, if_neg hin, call_log, ht, granted_append, posted_append]
      show ((0 + granted σ.log i : Nat) : Int) + _ + _ ≤ v + (0 + posted σ.log i : Nat)
      omega

/-- To open a semaphore once more changes nothing in its books. -/
theorem semOpen_books_again (h : σ.Books) {name : List UInt8} {v₀ : Int} {n : Fin maxSemaphores}
    (hn : σ.kernel.findByName name = some n)
    (hd : (σ.call (.semOpen name v₀)).Disciplined) : (σ.call (.semOpen name v₀)).Books := by
  have hpipe : (σ.kernel.exec (.semOpen name v₀)).pipeTable = σ.kernel.pipeTable :=
    (SamePipes.semOpen σ.kernel name v₀).pipeTable
  have hk : σ.kernel.exec (.semOpen name v₀) = (σ.kernel.semOpen name v₀).1 := rfl
  simp only [Kernel.semOpen, hn] at hk
  have ht : told σ.kernel (.semOpen name v₀) = [] := by
    simp only [told, hn]
  have hact : (σ.kernel.semTable n).active = true := by
    have := List.find?_some hn
    simp only [Bool.decide_and, Bool.and_eq_true, decide_eq_true_eq] at this
    exact this.1
  have hi : (σ.kernel.exec (.semOpen name v₀)).semTable n =
      { σ.kernel.semTable n with refCount := (σ.kernel.semTable n).refCount + 1 } := by
    rw [hk]
    exact σ.kernel.modifySem_self n fun m => { m with refCount := m.refCount + 1 }
  refine h.callSem hd hact hpipe (fun i hin => ?_) (by rw [hi]; exact hact) (fun e he => ?_)
    fun v hL => ?_
  · rw [hk]
    exact Function.update_of_ne hin _ _
  · rw [ht] at he
    cases he
  · have hi' : (σ.call (.semOpen name v₀)).kernel.semTable n =
      { σ.kernel.semTable n with refCount := (σ.kernel.semTable n).refCount + 1 } := hi
    have hle := σ.call_inside_le (.semOpen name v₀) n
    have htok := hL.tokens
    refine ⟨by rw [hi']; exact hL.tight, ?_⟩
    rw [hi', call_log, ht]
    show (granted σ.log n : Int) + _ + (σ.kernel.semTable n).value ≤ v + posted σ.log n
    omega

/-- **A semaphore that is opened**, if there is room for it. -/
theorem semOpen_books (h : σ.Books) {name : List UInt8} {v₀ : Int}
    (hd : (σ.call (.semOpen name v₀)).Disciplined) : (σ.call (.semOpen name v₀)).Books := by
  rcases hn : σ.kernel.findByName name with - | n
  · rcases hf : σ.kernel.findFreeSem with - | n
    · have hk : σ.kernel.exec (.semOpen name v₀) = (σ.kernel.semOpen name v₀).1 := rfl
      simp only [Kernel.semOpen, hn, hf] at hk
      refine h.call hd (by rw [hk]) (by rw [hk]) fun e he => ?_
      simp only [told, hn, hf] at he
      cases he
    · exact semOpen_books_new h hn hf hd
  · exact semOpen_books_again h hn hd

theorem call_books (h : σ.Books) {op : Kernel.Op} (hop : op.SemCall = true)
    (hd : (σ.call op).Disciplined) : (σ.call op).Books := by
  cases op with
  | create name priority fg stack =>
      refine h.call hd rfl rfl fun e he => ?_
      simp only [told] at he
      split at he
      · cases he
      · obtain rfl := List.mem_singleton.mp he
        rfl
  | kill pid => exact kill_books h hd
  | block pid => exact h.call hd rfl rfl fun _ he => by cases he
  | unblock pid => exact h.call hd rfl rfl fun _ he => by cases he
  | nice pid pr => exact h.call hd rfl rfl fun _ he => by cases he
  | exit status =>
      obtain ⟨hs, hp⟩ := h.exitCurrent status
      refine h.call hd hp hs fun e he => ?_
      obtain rfl := List.mem_singleton.mp he
      rfl
  | yield => exact h.call hd rfl rfl fun _ he => by cases he
  | semOpen name v => exact semOpen_books h hd
  | semPost semId => exact semPost_books h hd
  | _ => cases hop

/-! ### Waiting -/

/-- The caller of `sys_sem_wait` is inside while its call may return 0. -/
theorem semWait_inside_le (h : σ.Books) (semId : Int) (c : Cont) (i : Fin maxSemaphores) :
    ((σ.exec (.semWait semId)).goto c).inside i ≤
      σ.inside i + (if c.park = some i then 1 else 0) := by
  have hcur : (σ.exec (.semWait semId)).cur = σ.cur := σ.exec_cur fun _ => by rintro ⟨⟩
  have hlive := Kernel.exec_dead_iff h.disciplined.strict.sound (.semWait semId) rfl
    (fun _ => by rintro ⟨⟩) fun _ _ _ _ => by rintro ⟨⟩
  have hold : ∀ j, j ≠ σ.cur → ((σ.kernel.exec (.semWait semId)).life j).state ≠ .dead →
      ((σ.exec (.semWait semId)).goto c).park j = some i →
      (σ.kernel.life j).state ≠ .dead ∧ σ.park j = some i := by
    intro j hj hl hp
    rw [goto_park, hcur, Function.update_of_ne hj] at hp
    exact ⟨fun hd => hl ((hlive j).mpr hd), hp⟩
  split
  · exact Kernel.headcount_le_succ (v := σ.cur) hold
  · rename_i hc
    refine Kernel.headcount_mono fun j hl hp => hold j ?_ hl hp
    rintro rfl
    rw [goto_park, hcur, Function.update_self] at hp
    exact hc hp

/-- A call of `sys_sem_wait` that fails leaves its caller in user mode. -/
theorem semWait_eq (hu : σ.InUser) (semId : Int) :
    ∃ c : Cont, σ.semWait semId = (σ.exec (.semWait semId)).goto c ∧
      ∀ i, c.park = some i ↔
        σ.kernel.validSem semId = some i ∧ ¬ (σ.kernel.semWait semId).2 < 0 := by
  have hstay : σ.exec (.semWait semId) = (σ.exec (.semWait semId)).goto .user := by
    rw [← hu.2]
    refine (σ.exec_goto_cont ?_).symm
    exact fun _ => by rintro ⟨⟩
  unfold semWait
  split
  · rename_i n hn
    split
    · rename_i hneg
      refine ⟨.user, hstay, fun i => iff_of_false ?_ fun h => h.2 hneg⟩
      rintro ⟨⟩
    · rename_i hpos
      refine ⟨.semWait n, rfl, fun i => ⟨fun h => ⟨h ▸ hn, hpos⟩, fun h => ?_⟩⟩
      exact hn.symm.trans h.1
  · rename_i hn
    refine ⟨.user, hstay, fun i => iff_of_false ?_ fun h => by cases hn.symm.trans h.1⟩
    rintro ⟨⟩

/-- **`sys_sem_wait`** takes a token with the call. -/
theorem semWait_books (h : σ.Books) (hu : σ.InUser) (semId : Int) : (σ.semWait semId).Books := by
  have hd := semWait_disciplined h.disciplined hu semId
  obtain ⟨c, heq, hc⟩ := semWait_eq hu semId
  rw [heq] at hd ⊢
  have hlive := Kernel.exec_dead_iff h.disciplined.strict.sound (.semWait semId) rfl
    (fun _ => by rintro ⟨⟩) fun _ _ _ _ => by rintro ⟨⟩
  refine h.next hd (SamePipes.semWait σ.kernel semId).pipeTable
    (fun i => Semaphore.active_of_entry (σ.kernel.semWait_entry i semId)) (fun j i hl hj => ?_)
    [] rfl (fun _ he => by cases he) (fun _ he => by cases he) fun i v hL => ?_
  · have hcur : (σ.exec (.semWait semId)).cur = σ.cur := σ.exec_cur fun _ => by rintro ⟨⟩
    rw [goto_park, hcur] at hj
    by_cases hjc : j = σ.cur
    · rw [hjc, Function.update_self] at hj
      exact .inr (σ.kernel.validSem_some ((hc i).mp hj).1).1
    · rw [Function.update_of_ne hjc] at hj
      exact .inl ⟨fun hdead => hl ((hlive j).mpr hdead), hj⟩
  · have hin := semWait_inside_le h semId c i
    have htok := hL.tokens
    generalize hσ' : (σ.exec (.semWait semId)).goto c = σ' at hin ⊢
    have hk : σ'.kernel = (σ.kernel.semWait semId).1 := by
      rw [← hσ']
      rfl
    have hlog : σ'.log = σ.log := by
      rw [← hσ']
      rfl
    rcases hn : σ.kernel.validSem semId with - | n
    · have hsame : (σ.kernel.semWait semId).1 = σ.kernel := by
        rw [Kernel.semWait, hn]
      have hp : c.park ≠ some i := fun hp => by cases hn.symm.trans ((hc i).mp hp).1
      rw [if_neg hp] at hin
      refine ⟨by rw [hk, hsame]; exact hL.tight, ?_⟩
      rw [hk, hsame, hlog]
      omega
    · by_cases hni : n = i
      · subst hni
        obtain ⟨ht, hv⟩ := Kernel.semWait_tight hn hL.tight (h.disciplined.idle_of_user hu.2)
        refine ⟨by rw [hk]; exact ht, ?_⟩
        rw [hk, hv, hlog]
        by_cases hneg : (σ.kernel.semWait semId).2 < 0
        · rw [if_neg fun hp => ((hc n).mp hp).2 hneg] at hin
          rw [if_pos hneg]
          omega
        · rw [if_pos ((hc n).mpr ⟨hn, hneg⟩)] at hin
          rw [if_neg hneg]
          omega
      · have hother : (σ.kernel.semWait semId).1.semTable i = σ.kernel.semTable i := by
          refine Kernel.semWait_other fun he => hni (Fin.ext ?_)
          have := (σ.kernel.validSem_some hn).2
          omega
        rw [if_neg fun hp => hni (Option.some.inj (hn.symm.trans ((hc i).mp hp).1))] at hin
        refine ⟨by rw [hk, hother]; exact hL.tight, ?_⟩
        rw [hk, hother, hlog]
        omega

/-- **The books are kept by every orderly step.** -/
theorem step_books (h : σ.Books) {l : Label} (hg : σ.guard l) (hl : l.SemCall = true)
    (hok : σ.Orderly l) : (σ.step l).Books := by
  refine step_invariant h (fun r hr => ?_) (fun σ rsp hσ => tick_books hσ rsp) fun σ hσ hrun =>
    arrive_books hσ hrun
  cases l with
  | call op rsp =>
      obtain rfl := Option.some.inj hr
      exact call_books h hl (call_disciplined h.disciplined (hok op rfl) hg.1 hg.2)
  | semWait semId rsp =>
      obtain rfl := Option.some.inj hr
      exact semWait_books h hg semId
  | timer rsp => cases hr
  | _ => cases hl

/-- The calls and the timer, without a `sys_unblock` aimed at a process in a
waiting queue. -/
def FairCall (σ : Sys) (l : Label) : Prop := l.SemCall = true ∧ σ.Orderly l

instance (σ : Sys) (l : Label) : Decidable (σ.FairCall l) := inferInstanceAs (Decidable (_ ∧ _))

theorem reach_books {idleStack stack : Nat}
    (h : (machine.restrict FairCall).Reach (init idleStack stack) σ) : σ.Books := by
  refine h.invariant (init_books idleStack stack) fun σ l σ' hσ hg hs => ?_
  obtain rfl := Option.some.inj hs
  exact step_books hσ hg.1 hg.2.1 hg.2.2

/-- No more tokens have been given away than there were. -/
theorem Books.granted_le (h : σ.Books) (ho : Event.semOpened i v ∈ σ.log) (hv : 0 ≤ v) :
    (granted σ.log i : Int) ≤ v + posted σ.log i := by
  obtain ⟨ht, htok⟩ := h.ledger i v ho hv
  have hlen : (σ.kernel.semTable i).waiting.length ≤ σ.inside i :=
    h.disciplined.parked.length_le fun _ _ _ hp => hp
  unfold Semaphore.Tight at ht
  omega

/-- **Semaphores are safe**: a semaphore opened with `v` tokens has let no more
calls of `sys_sem_wait` return 0 than `v` and the calls of `sys_sem_post`
together.  With one token, of the processes that wait and post in turn at most
one is between its wait and its post. -/
theorem semaphore_safe {idleStack stack : Nat}
    (h : (machine.restrict FairCall).Reach (init idleStack stack) σ)
    (ho : Event.semOpened i v ∈ σ.log) (hv : 0 ≤ v) :
    (granted σ.log i : Int) ≤ v + posted σ.log i ∧
      (v = 1 → (∀ pid, phase pid i σ.log ≠ none) → ∀ p q, phase p i σ.log = some true →
        phase q i σ.log = some true → p = q) := by
  have hle := (reach_books h).granted_le ho hv
  refine ⟨hle, fun h1 hturn p q hp hq => phase_unique ?_ hturn hp hq⟩
  omega

/-- The shell and a child take turns on a semaphore with one token; the child
has been blocked in its wait, and woken by the shell's post. -/
theorem semaphore_safe_turns : ∃ σ : Sys,
    (machine.restrict FairCall).Reach (init 1000 5000) σ ∧
      phase 1 0 σ.log = some false ∧ phase 2 0 σ.log = some true ∧
      granted σ.log 0 = 2 ∧ posted σ.log 0 = 1 ∧ (2 : Int) ≤ 1 + 1 := by
  obtain ⟨σ, hσ, ho, h1, h2, hg, hp⟩ := (machine.restrict FairCall).exists_reach_of_trace
    (s := init 1000 5000)
    [.timer 0, .call (.semOpen [109] 1) 0, .semWait 0 0, .call (.create [99] 3 1 9000) 0,
      .call .yield 0, .semWait 0 0, .call (.semPost 0) 0, .call .yield 0]
    (P := fun σ => Event.semOpened 0 1 ∈ σ.log ∧ phase 1 0 σ.log = some false ∧
      phase 2 0 σ.log = some true ∧ granted σ.log 0 = 2 ∧ posted σ.log 0 = 1) (by decide +kernel)
  have hsafe := (semaphore_safe hσ ho (by decide)).1
  rw [hg, hp] at hsafe
  exact ⟨σ, hσ, h1, h2, hg, hp, hsafe⟩

/-- **`sys_unblock` gives a token away**: the child waits in the queue, and the
shell, which holds the only token, unblocks it. -/
theorem unblock_grants : ∃ σ : Sys,
    (machine.restrict fun _ l => l.SemCall = true).Reach (init 1000 5000) σ ∧
      Event.semOpened 0 1 ∈ σ.log ∧ granted σ.log 0 = 2 ∧ posted σ.log 0 = 0 ∧
      phase 1 0 σ.log = some true ∧ phase 2 0 σ.log = some true := by
  refine (machine.restrict fun _ l => l.SemCall = true).exists_reach_of_trace (s := init 1000 5000)
    [.timer 0, .call (.semOpen [109] 1) 0, .semWait 0 0, .call (.create [99] 3 1 9000) 0,
      .call .yield 0, .semWait 0 0, .call (.unblock 2) 0, .call .yield 0] ?_
  decide +kernel

end Sys

end TP2Kernel
