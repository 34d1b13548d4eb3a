/-
TP2Kernel/Resume.lean

What a process sees of the switching, over whole runs: when it runs again it has the
registers and the stack it had (`resumes`), a new process starts as
`setup_initial_stack` says (`starts`), a system call gives back every register but
`rax` (`call_returns`), and the snapshot of Ctrl+R is the one of the process that was
interrupted (`snapshot_shows`).  The runs are those of `Board.machine`, in which no
interrupt comes inside the end of `_irq80Handler`.

A process is followed by its pid, which nobody else gets again; `Knows` is what is
known of it as long as it takes no step of its own.
-/
import TP2Kernel.ContextSwitch

namespace TP2Kernel

namespace Board

section Steps

variable {L : Layout} {idleStack : Nat} {σ σ' : Board}

/-! ### A process over time -/

/-- The steps a process takes itself. -/
def Label.isOwn : Label → Bool
  | .run _ _ => true
  | .int80 => true
  | .ret80 _ => true
  | _ => false

/-- The pid of the process that runs. -/
def pid (σ : Board) : Int := (σ.kernel.life σ.cur).pid

/-- The process `p` takes a step of its own. -/
def Acts (p : Int) (σ : Board) (l : Label) : Prop := σ.pid = p ∧ l.isOwn = true

instance (p : Int) (σ : Board) (l : Label) : Decidable (Acts p σ l) :=
  inferInstanceAs (Decidable (_ ∧ _))

/-- The label asks for a snapshot. -/
def Label.isSnapshot : Label → Bool
  | .key .ctrlR _ => true
  | _ => false

/-- A step runs at most one piece of kernel code.  Threads change by their own steps,
and when a process is created; the snapshot changes by Ctrl+R. -/
theorem step_frame {l : Label} (hs : step L σ l = some σ') :
    ∃ code : Option Kernel.Op, σ'.kernel = code.elim σ.kernel σ.kernel.exec ∧
      (∀ j, σ'.threads j = σ.threads j ∨ (j = σ.cur ∧ l.isOwn = true) ∨
        ∃ op ∈ code, ∃ stack, birth σ.kernel op = some (j, stack)) ∧
      (l.isSnapshot = false → σ'.buffer = σ.buffer) := by
  have hown : ∀ {t : Thread} {code : Option Kernel.Op} {j : Slot}, l.isOwn = true →
      Function.update σ.threads σ.cur t j = σ.threads j ∨ (j = σ.cur ∧ l.isOwn = true) ∨
        ∃ op ∈ code, ∃ stack, birth σ.kernel op = some (j, stack) := by
    intro t code j hl
    by_cases hj : j = σ.cur
    · exact .inr (.inl ⟨hj, hl⟩)
    · exact .inl (Function.update_of_ne hj _ _)
  cases l with
  | run c ws =>
      obtain rfl := Option.some.inj hs
      exact ⟨none, rfl, fun _ => hown rfl, fun _ => rfl⟩
  | piece op entry argc argv =>
      rw [step] at hs
      rcases hb : birth σ.kernel op with - | ⟨i, stack⟩
      · rw [hb] at hs
        obtain rfl := Option.some.inj hs
        exact ⟨some op, rfl, fun _ => .inl rfl, fun _ => rfl⟩
      · rw [hb] at hs
        obtain rfl := Option.some.inj hs
        refine ⟨some op, rfl, fun j => ?_, fun _ => rfl⟩
        by_cases hj : j = i
        · exact .inr (.inr ⟨op, rfl, stack, hj ▸ hb⟩)
        · exact .inl (Function.update_of_ne hj _ _)
  | int80 =>
      obtain rfl := Option.some.inj hs
      exact ⟨none, rfl, fun _ => hown rfl, fun _ => rfl⟩
  | ret80 ws =>
      rw [step] at hs
      split at hs
      · cases hs
      · simp only at hs
        split at hs
        · obtain rfl := Option.some.inj hs
          exact ⟨some (.tick _), rfl, fun _ => hown rfl, fun _ => rfl⟩
        · obtain rfl := Option.some.inj hs
          exact ⟨none, rfl, fun _ => hown rfl, fun _ => rfl⟩
  | timer ws =>
      obtain rfl := Option.some.inj hs
      exact ⟨some (.tick _), rfl, fun _ => .inl rfl, fun _ => rfl⟩
  | key hot ws =>
      obtain rfl := Option.some.inj hs
      cases hot with
      | ctrlC => exact ⟨some .killForeground, rfl, fun _ => .inl rfl, fun _ => rfl⟩
      | plain => exact ⟨none, rfl, fun _ => .inl rfl, fun _ => rfl⟩
      | ctrlR => exact ⟨none, rfl, fun _ => .inl rfl, fun hl => by cases hl⟩

/-- **Who is alive** was so before, with its thread changed by nobody else, or has the
pid that was next. -/
theorem step_live (h : Inv L idleStack σ) {l : Label} (hs : step L σ l = some σ') {j : Slot}
    (hj : σ'.Live j) :
    (σ.Live j ∧ Life.Same (σ.kernel.life j) (σ'.kernel.life j) ∧
      (σ'.threads j = σ.threads j ∨ j = σ.cur ∧ l.isOwn = true)) ∨
      (σ'.kernel.life j).pid = σ.kernel.sched.nextPid := by
  obtain ⟨code, hk, hthreads, -⟩ := step_frame hs
  have hnew : ∀ {op stack}, op ∈ code → birth σ.kernel op = some (j, stack) →
      (σ'.kernel.life j).pid = σ.kernel.sched.nextPid := by
    intro op stack hop hb
    obtain rfl := Option.mem_def.mp hop
    rw [hk]
    exact (born h.placed.owned hb).2.2.2.1
  have halive : (σ.Live j ∧ Life.Same (σ.kernel.life j) (σ'.kernel.life j)) ∨
      (σ'.kernel.life j).pid = σ.kernel.sched.nextPid := by
    unfold Live at hj
    cases code with
    | none =>
        rw [hk] at hj ⊢
        exact .inl ⟨hj, .refl _⟩
    | some op =>
        rw [hk] at hj
        rcases survives h.placed.owned hj with ⟨hlive, hsame⟩ | ⟨stack, hb⟩
        · exact .inl ⟨hlive, hk ▸ hsame⟩
        · exact .inr (hnew rfl hb)
  rcases halive with ⟨hlive, hsame⟩ | hpid
  · rcases hthreads j with ht | ht | ⟨op, hop, stack, hb⟩
    · exact .inl ⟨hlive, hsame, .inl ht⟩
    · exact .inl ⟨hlive, hsame, .inr ht⟩
    · exact .inr (hnew hop hb)
  · exact .inr hpid

theorem step_nextPid {l : Label} (hs : step L σ l = some σ') :
    σ.kernel.sched.nextPid ≤ σ'.kernel.sched.nextPid := by
  obtain ⟨code, hk, -⟩ := step_frame hs
  rw [hk]
  cases code with
  | none => exact le_rfl
  | some op => exact Kernel.exec_nextPid_le op

/-- The process `p`, if it is alive, has a thread with the property `Q`, on a stack that
ends where `Q` says. -/
def Knows (L : Layout) (p : Int) (Q : Nat → Thread → Prop) (σ : Board) : Prop :=
  p < σ.kernel.sched.nextPid ∧
    ∀ j, σ.Live j → (σ.kernel.life j).pid = p → Q (L.high σ.kernel j) (σ.threads j)

/-- Pids are not given out again, so what is known of a process is lost by its own steps
only. -/
theorem Knows.step {p : Int} {Q : Nat → Thread → Prop} (hk : Knows L p Q σ)
    (h : Inv L idleStack σ) {l : Label} (hs : step L σ l = some σ')
    (hown : Acts p σ l → Q (L.high σ.kernel σ.cur) σ.thread →
      Q (L.high σ.kernel σ.cur) (σ'.threads σ.cur)) : Knows L p Q σ' := by
  refine ⟨lt_of_lt_of_le hk.1 (step_nextPid hs), fun j hj hp => ?_⟩
  rcases step_live h hs hj with ⟨hlive, hsame, ht⟩ | hnext
  · rw [high_same hsame]
    have hp' : (σ.kernel.life j).pid = p := hsame.pid.symm.trans hp
    have hq := hk.2 j hlive hp'
    rcases ht with ht | ⟨rfl, hl⟩
    · rw [ht]
      exact hq
    · exact hown ⟨hp', hl⟩ hq
  · exact absurd (hp.symm.trans hnext) hk.1.ne

theorem Knows.run {p : Int} {Q : Nat → Thread → Prop} {ok : Board → Label → Prop}
    (hk : Knows L p Q σ) (h : Inv L idleStack σ) (hrun : ((machine L).restrict ok).Reach σ σ')
    (hown : ∀ τ l τ', ok τ l → Board.step L τ l = some τ' → Acts p τ l →
      Q (L.high τ.kernel τ.cur) τ.thread → Q (L.high τ.kernel τ.cur) (τ'.threads τ.cur)) :
    Inv L idleStack σ' ∧ Knows L p Q σ' := by
  refine hrun.invariant (I := fun τ => Inv L idleStack τ ∧ Knows L p Q τ) ⟨h, hk⟩ ?_
  intro τ l τ' hτ hg hs
  exact ⟨step_inv hτ.1 hg.1 hs, hτ.2.step hτ.1 hs (hown τ l τ' hg.2 hs)⟩

/-- What is known of a process stays so while it takes no step. -/
theorem Knows.wait {p : Int} {Q : Nat → Thread → Prop} (hk : Knows L p Q σ)
    (h : Inv L idleStack σ)
    (hrun : ((machine L).restrict fun τ l => ¬ Acts p τ l).Reach σ σ') (hp : σ'.pid = p) :
    Inv L idleStack σ' ∧ Q (L.high σ'.kernel σ'.cur) σ'.thread := by
  obtain ⟨h', hk'⟩ := hk.run h hrun fun _ _ _ hno _ hacts => absurd hacts hno
  exact ⟨h', hk'.2 σ'.cur h'.live_cur hp⟩

/-- Live processes have different pids. -/
theorem Inv.eq_of_pid (h : Inv L idleStack σ) {i j : Slot} (hi : σ.Live i) (hj : σ.Live j)
    (he : (σ.kernel.life i).pid = (σ.kernel.life j).pid) : i = j := by
  have hpids := h.placed.owned.sound.pids
  have hzero : ∀ {n}, σ.Live n → (σ.kernel.life n).pid ≤ 0 → n = 0 := by
    intro n hn hle
    by_contra h0
    exact absurd (hpids.live n h0 hn).1 (not_lt.mpr hle)
  by_cases hpos : 0 < (σ.kernel.life i).pid
  · exact hpids.distinct i j he hpos
  · rw [hzero hi (not_lt.mp hpos), hzero hj (he ▸ not_lt.mp hpos)]

/-- What is known of the process that runs, after a step of its own. -/
theorem Inv.knows_own (h : Inv L idleStack σ) {l : Label} (hs : step L σ l = some σ')
    {Q : Nat → Thread → Prop} (hq : Q (L.high σ.kernel σ.cur) (σ'.threads σ.cur)) :
    Knows L σ.pid Q σ' := by
  have hfresh := h.placed.owned.sound.pids.fresh σ.cur
  refine ⟨lt_of_lt_of_le hfresh (step_nextPid hs), fun j hj hp => ?_⟩
  rcases step_live h hs hj with ⟨hlive, hsame, -⟩ | hnext
  · obtain rfl := h.eq_of_pid hlive h.live_cur (hsame.pid.symm.trans hp)
    rw [high_same hsame]
    exact hq
  · exact absurd (hp.symm.trans hnext) hfresh.ne

theorem Inv.knows (h : Inv L idleStack σ) {Q : Nat → Thread → Prop}
    (hq : Q (L.high σ.kernel σ.cur) σ.thread) : Knows L σ.pid Q σ := by
  refine ⟨h.placed.owned.sound.pids.fresh _, fun j hj hp => ?_⟩
  obtain rfl := h.eq_of_pid hj h.live_cur hp
  exact hq

/-! ### Runs -/

/-- The stack of `main` when the kernel starts. -/
def Bootable (L : Layout) (c : Context) : Prop :=
  c.Valid ∧ L.bootLow ≤ c.rsp ∧ c.rsp ≤ L.bootHigh ∧ L.bootHigh < 2 ^ 64

theorem boot_inv {c : Context} (hboot : Bootable L c) (idleStack : Nat) (mem : Cells)
    (threads : Slot → Thread) : Inv L idleStack (boot idleStack c mem threads) := by
  obtain ⟨hv, hlow, htop, hbound⟩ := hboot
  have hzero : ∀ j, (boot idleStack c mem threads).Live j → j = 0 := by
    intro j hj
    by_contra h0
    refine hj ?_
    show ((Kernel.init idleStack).life j).state = .dead
    simp only [Kernel.life, Sched.life, Sched.core, Kernel.init, Sched.schedulerInit, if_neg h0]
    rfl
  have hthread : (boot idleStack c mem threads).threads 0 = ⟨c, [], mem⟩ := by
    show Function.update threads 0 _ 0 = _
    exact Function.update_self ..
  refine ⟨⟨⟨Kernel.init_owned idleStack, hbound, fun j h0 hj => absurd (hzero j hj) h0⟩,
    fun j hj => ?_, fun j hj hne => absurd (hzero j hj) hne⟩, ?_⟩
  · obtain rfl := hzero j hj
    unfold GoodAt
    rw [hthread]
    exact .own hv hlow htop trivial fun _ hf => absurd hf List.not_mem_nil
  · exact (congrArg Thread.ctx hthread).symm

variable {c : Context} {mem : Cells} {threads : Slot → Thread}

theorem reach_inv (hboot : Bootable L c)
    (h : (machine L).Reach (boot idleStack c mem threads) σ) : Inv L idleStack σ :=
  h.invariant (boot_inv hboot idleStack mem threads) fun _ _ _ hτ hg hs => step_inv hτ hg hs

/-- **Processes do not notice the others.**  When a process runs again after a run in
which it has taken no step, its registers are those it had, and so is everything on its
stack, whatever the timer, the keyboard and the other processes have done. -/
theorem resumes (hboot : Bootable L c)
    (h : (machine L).Reach (boot idleStack c mem threads) σ)
    (hrun : ((machine L).restrict fun τ l => ¬ Acts σ.pid τ l).Reach σ σ')
    (hpid : σ'.pid = σ.pid) :
    σ'.cpu = σ.cpu ∧
      ∀ x, σ.cpu.rsp ≤ x → x < L.high σ.kernel σ.cur → σ'.mem x = σ.mem x := by
  have hinv := reach_inv hboot h
  have hknows := hinv.knows (Q := fun hi t => hi = L.high σ.kernel σ.cur ∧ t = σ.thread) ⟨rfl, rfl⟩
  obtain ⟨hinv', hhigh, hthread⟩ := hknows.wait hinv hrun hpid
  have hcpu : σ'.cpu = σ.cpu := by rw [hinv'.cpu, hthread, hinv.cpu]
  refine ⟨hcpu, fun x hlo hhi => ?_⟩
  rw [hinv'.good_cur.same x (by rw [← hinv'.cpu, hcpu]; exact hlo) (by rw [hhigh]; exact hhi),
    hinv.good_cur.same x (by rw [← hinv.cpu]; exact hlo) hhi, hthread]

theorem birth_none {k : Kernel} {name : List UInt8} {pr fg : Int} {stack : Nat}
    (h : birth k (.create name pr fg stack) = none) :
    (k.sched.schedulerCreate name pr fg stack).2 = -1 := by
  rw [birth] at h
  simp only [Sched.schedulerCreate]
  rcases hslot : k.sched.findFreeSlot with - | slot
  · rfl
  · by_cases hstack : stack = 0
    · simp only [if_pos hstack]
    · rw [if_neg hstack, hslot] at h
      cases h

theorem create_pid {k : Kernel} {name : List UInt8} {pr fg : Int} {stack : Nat} {i : Slot}
    (hslot : k.sched.findFreeSlot = some i) (hstack : stack ≠ 0) :
    (k.sched.schedulerCreate name pr fg stack).2 = k.sched.nextPid := by
  simp only [Sched.schedulerCreate, hslot, if_neg hstack]

/-- A small memory map. -/
def sampleLayout : Layout := ⟨100000, 200000, 7, 9⟩

/-- `main`, on its stack. -/
def sampleMain : Context := ⟨fun _ => 0, 1, 0x08, 0x202, 190000, 0⟩

/-- A process in the middle of its work. -/
def sampleContext (rsp : Nat) : Context :=
  ⟨fun r => if r = .rbx then 5 else 6, 77, 0x08, 0x202, rsp, 0⟩

/-- The start, with nothing in memory. -/
def sampleBoot : Board := boot 1000 sampleMain (fun _ => 0) fun _ => ⟨sampleMain, [], fun _ => 0⟩

theorem sample_bootable : Bootable sampleLayout sampleMain := by
  unfold Bootable
  decide

/-- Two processes take turns; the second writes to its own stack. -/
theorem resumes_after_switch : ∃ σ σ', (machine sampleLayout).Reach sampleBoot σ ∧
    ((machine sampleLayout).restrict fun τ l => ¬ Acts 1 τ l).Reach σ σ' ∧
    σ.pid = 1 ∧ σ'.pid = 1 ∧ σ'.mem 23000 = 42 ∧ σ'.cpu = σ.cpu := by
  obtain ⟨σ, σ', hσ, hp, hσ', hp', hmem⟩ := (machine sampleLayout).exists_reach_of_traces
    ((machine sampleLayout).restrict fun τ l => ¬ Acts 1 τ l) id (s := sampleBoot)
    [.piece (.create [115] 3 1 10000) 50 0 0, .timer [],
      .piece (.create [97] 3 0 20000) 60 1 2, .run (sampleContext 13000) [(13008, 8)]]
    [.timer [], .timer [], .timer [], .run (sampleContext 23000) [(23000, 42)], .timer [],
      .timer [], .timer []]
    (P := fun σ => σ.pid = 1) (Q := fun σ => σ.pid = 1 ∧ σ.mem 23000 = 42) (by decide +kernel)
  refine ⟨σ, σ', hσ, hσ', hp, hp', hmem, ?_⟩
  exact (resumes sample_bootable hσ (hp ▸ hσ') (hp'.trans hp.symm)).1

/-- **A process starts** at its entry, with its arguments and the other registers zero,
whatever has happened between its creation and its first turn. -/
theorem starts (hboot : Bootable L c)
    (h : (machine L).Reach (boot idleStack c mem threads) σ) {name : List UInt8} {pr fg : Int}
    {stack entry : Nat} {argc : Int} {argv : Nat} {σ₁ : Board}
    (hg : guard L σ (.piece (.create name pr fg stack) entry argc argv))
    (hs : step L σ (.piece (.create name pr fg stack) entry argc argv) = some σ₁) {p : Int}
    (hp : (σ.kernel.sched.schedulerCreate name pr fg stack).2 = p) (hpos : 0 ≤ p)
    (hrun : ((machine L).restrict fun τ l => ¬ Acts p τ l).Reach σ₁ σ') (hpid : σ'.pid = p) :
    σ'.cpu = .initial stack entry argc argv := by
  have hinv := reach_inv hboot h
  have hinv₁ := step_inv hinv hg hs
  rw [step] at hs
  rcases hb : birth σ.kernel (.create name pr fg stack) with - | ⟨i, stack'⟩
  · rw [birth_none hb] at hp
    omega
  · rw [hb] at hs
    obtain rfl := Option.some.inj hs
    obtain ⟨⟨_, _, _, he⟩, hslot, hstack⟩ := birth_some hb
    cases he
    obtain ⟨-, hready, -, hnew, -⟩ := born hinv.placed.owned hb
    have hnext := hinv₁.placed.owned.sound.pids.fresh i
    rw [create_pid hslot hstack] at hp
    have hknows : Knows L p (fun _ t => t.ctx = .initial stack entry argc argv)
        ((σ.exec (.create name pr fg stack)).launch L i stack entry argc argv) := by
      refine ⟨hp ▸ hnew ▸ hnext, fun j hj hjp => ?_⟩
      have hi : ((σ.exec (.create name pr fg stack)).launch L i stack entry argc argv).Live i := by
        show ((σ.kernel.exec _).life i).state ≠ .dead
        rw [hready]
        rintro ⟨⟩
      obtain rfl := hinv₁.eq_of_pid hj hi (hjp.trans (hp.symm.trans hnew.symm))
      exact congrArg Thread.ctx (Function.update_self j _ σ.threads)
    obtain ⟨hinv', hctx⟩ := hknows.wait hinv₁ hrun hpid
    rw [hinv'.cpu]
    exact hctx

/-- The shell, in the middle of its work, creates a process, works on, and is
interrupted by Ctrl+R and the timer, until the new process has its first turn. -/
theorem starts_child : ∃ σ σ' : Board, (machine sampleLayout).Reach sampleBoot σ ∧ σ.pid = 1 ∧
    σ.cpu.rsp = 13000 ∧ σ'.pid = 2 ∧ σ'.mem 12000 = 9 ∧
    σ'.cpu = .initial 20000 60 3 70 := by
  obtain ⟨σ, hσ, ⟨hp, hrsp, hg, hnew⟩, hrun⟩ := (machine sampleLayout).exists_reach_of_trace
    (s := sampleBoot)
    [.piece (.create [115] 3 1 10000) 50 0 0, .timer [], .run (sampleContext 13000) [(13008, 8)],
      .timer [], .timer [], .timer []]
    (P := fun σ => (σ.pid = 1 ∧ σ.cpu.rsp = 13000 ∧
        guard sampleLayout σ (.piece (.create [97] 3 0 20000) 60 3 70) ∧
        (σ.kernel.sched.schedulerCreate [97] 3 0 20000).2 = 2) ∧
      (step sampleLayout σ (.piece (.create [97] 3 0 20000) 60 3 70)).any (fun σ₁ =>
        (((machine sampleLayout).restrict fun τ l => ¬ Acts 2 τ l).trace σ₁
          [.run (sampleContext 12000) [(12000, 9)], .key .ctrlR [], .timer [], .timer [],
            .timer []]).any fun σ' => σ'.pid = 2 ∧ σ'.mem 12000 = 9) = true) (by decide +kernel)
  obtain ⟨σ₁, hs, hrun⟩ := (Option.any_eq_true _ _).mp hrun
  obtain ⟨σ', htrace, hp'⟩ := (Option.any_eq_true _ _).mp hrun
  obtain ⟨hp', hmem⟩ := of_decide_eq_true hp'
  refine ⟨σ, σ', hσ, hp, hrsp, hp', hmem, ?_⟩
  exact starts sample_bootable hσ hg hs hnew (by decide) (Machine.trace_reach htrace) hp'

def Label.isReturn : Label → Bool
  | .ret80 _ => true
  | _ => false

/-- While the process `p` is inside a call at depth `n + 1`, it returns from deeper ones
only. -/
def Inside (p : Int) (n : Nat) (σ : Board) (l : Label) : Prop :=
  σ.pid = p → l.isReturn = true → n + 1 < σ.thread.calls.length

instance (p : Int) (n : Nat) (σ : Board) (l : Label) : Decidable (Inside p n σ l) :=
  inferInstanceAs (Decidable (_ → _ → _))

/-- What a return leaves of the process. -/
theorem ret80_thread {ws : List (Nat × Nat)} (hs : step L σ (.ret80 ws) = some σ') :
    ∃ f fs, σ.thread.calls = f :: fs ∧
      (σ'.threads σ.cur).ctx = f.2.setRax (σ.cpu.regs .rax) ∧ (σ'.threads σ.cur).calls = fs := by
  rw [step] at hs
  split at hs
  · cases hs
  · rename_i f c fs hcalls
    have hown : ∀ {t : Thread} {τ : Board}, τ.threads = Function.update σ.threads σ.cur t →
        τ.threads σ.cur = t := by
      intro t τ ht
      rw [ht]
      exact Function.update_self ..
    refine ⟨(f, c), fs, hcalls, ?_⟩
    simp only at hs
    split at hs
    · obtain rfl := Option.some.inj hs
      rw [hown rfl]
      exact ⟨rfl, rfl⟩
    · obtain rfl := Option.some.inj hs
      rw [hown rfl]
      exact ⟨rfl, rfl⟩

theorem int80_calls (hs : step L σ .int80 = some σ') :
    (σ'.threads σ.cur).calls = ((σ.cpu.enter σ.mem).2, σ.cpu) :: σ.thread.calls := by
  rw [step] at hs
  generalize σ.cpu.enter σ.mem = r at hs ⊢
  obtain rfl := Option.some.inj hs
  show (Board.own _ _).thread.calls = _
  rw [own_thread]

/-- The frame of a call stays where it is until the return from that call. -/
theorem suffix_own {p : Int} {f : Nat × Context} {fs : List (Nat × Context)} {l : Label}
    (hok : Inside p fs.length σ l) (hs : step L σ l = some σ') (hacts : Acts p σ l)
    (hsuf : f :: fs <:+ σ.thread.calls) : f :: fs <:+ (σ'.threads σ.cur).calls := by
  cases l with
  | run c ws =>
      obtain rfl := Option.some.inj hs
      show f :: fs <:+ (Board.own _ _).thread.calls
      rw [own_thread]
      exact hsuf
  | int80 =>
      rw [int80_calls hs]
      exact hsuf.trans (List.suffix_cons _ _)
  | ret80 ws =>
      obtain ⟨g, gs, hcalls, -, hrest⟩ := ret80_thread hs
      have hlen := hok hacts.1 rfl
      rw [hcalls] at hsuf hlen
      rw [hrest]
      rcases List.suffix_cons_iff.mp hsuf with he | hsuf'
      · rw [← he, List.length_cons] at hlen
        omega
      · exact hsuf'
  | piece op entry argc argv => cases hacts.2
  | timer ws => cases hacts.2
  | key hot ws => cases hacts.2

/-- **A system call gives back the registers.**  Between `int 0x80` and the return from
that call the process can be preempted any number of times, in the kernel or out of it,
and make other calls; when it goes on after the return, all its registers are as they were
but `rax`, which holds what the handler had in it. -/
theorem call_returns (hboot : Bootable L c)
    (h : (machine L).Reach (boot idleStack c mem threads) σ) {σ₁ σ₂ σ₃ : Board}
    {ws : List (Nat × Nat)} (hg : guard L σ .int80) (hcall : step L σ .int80 = some σ₁)
    (hrun : ((machine L).restrict (Inside σ.pid σ.thread.calls.length)).Reach σ₁ σ₂)
    (hpid₂ : σ₂.pid = σ.pid) (hdepth : σ₂.thread.calls.length = σ.thread.calls.length + 1)
    (hg₂ : guard L σ₂ (.ret80 ws)) (hret : step L σ₂ (.ret80 ws) = some σ₃)
    (hwait : ((machine L).restrict fun τ l => ¬ Acts σ.pid τ l).Reach σ₃ σ')
    (hpid : σ'.pid = σ.pid) :
    σ'.cpu = σ.cpu.setRax (σ₂.cpu.regs .rax) := by
  have hinv := reach_inv hboot h
  have hinv₁ := step_inv hinv hg hcall
  obtain ⟨hinv₂, hknows₂⟩ := (hinv.knows_own hcall
    (Q := fun _ t => ((σ.cpu.enter σ.mem).2, σ.cpu) :: σ.thread.calls <:+ t.calls)
    (by rw [int80_calls hcall])).run hinv₁ hrun
      fun τ l τ' hok hs hacts hsuf => suffix_own hok hs hacts hsuf
  have hsuf := hknows₂.2 σ₂.cur hinv₂.live_cur hpid₂
  have hcalls := hsuf.eq_of_length hdepth.symm
  obtain ⟨f, fs, hcalls', hctx, -⟩ := ret80_thread hret
  obtain ⟨rfl, -⟩ := List.cons.inj (hcalls.trans hcalls')
  have hknows₃ := hinv₂.knows_own hret
    (Q := fun _ t => t.ctx = σ.cpu.setRax (σ₂.cpu.regs .rax)) hctx
  rw [hpid₂] at hknows₃
  obtain ⟨hinv', hctx'⟩ := hknows₃.wait (step_inv hinv₂ hg₂ hret) hwait hpid
  rw [hinv'.cpu]
  exact hctx'

/-- A call in which the process yields, and goes on after another one has run. -/
theorem call_returns_after_yield : ∃ σ σ₂ σ' : Board, σ.pid = 1 ∧ σ'.pid = 1 ∧
    σ₂.cpu.regs .rax = 6 ∧ σ'.cpu = σ.cpu.setRax (σ₂.cpu.regs .rax) := by
  obtain ⟨σ, hσ, ⟨hp, hdepth, hg⟩, hrun⟩ := (machine sampleLayout).exists_reach_of_trace
    (s := sampleBoot)
    [.piece (.create [115] 3 1 10000) 50 0 0, .timer [], .piece (.create [97] 3 0 20000) 60 1 2,
      .run ⟨fun _ => 1, 70, 0x08, 0x202, 13000, 0⟩ [(13008, 8)]]
    (P := fun σ => (σ.pid = 1 ∧ σ.thread.calls.length = 0 ∧ guard sampleLayout σ .int80) ∧
      (step sampleLayout σ .int80).any (fun σ₁ =>
        (((machine sampleLayout).restrict (Inside 1 0)).trace σ₁ [.piece .yield 0 0 0, .timer [],
            .run (sampleContext 23000) [], .timer [], .timer [], .timer [],
            .run (sampleContext σ₁.cpu.rsp) []]).any fun σ₂ =>
          decide (σ₂.pid = 1 ∧ σ₂.thread.calls.length = 1 ∧ guard sampleLayout σ₂ (.ret80 []) ∧
            σ₂.cpu.regs .rax = 6) &&
          (step sampleLayout σ₂ (.ret80 [])).any fun σ₃ =>
            (((machine sampleLayout).restrict fun τ l => ¬ Acts 1 τ l).trace σ₃
              [.timer [], .timer []]).any fun σ' => σ'.pid = 1) = true) (by decide +kernel)
  obtain ⟨σ₁, hs₁, hrun⟩ := (Option.any_eq_true _ _).mp hrun
  obtain ⟨σ₂, ht₂, hrun⟩ := (Option.any_eq_true _ _).mp hrun
  obtain ⟨h₂, hrun⟩ := Bool.and_eq_true_iff.mp hrun
  obtain ⟨hp₂, hdepth₂, hg₂, hrax⟩ := of_decide_eq_true h₂
  obtain ⟨σ₃, hs₃, hrun⟩ := (Option.any_eq_true _ _).mp hrun
  obtain ⟨σ', ht', hp'⟩ := (Option.any_eq_true _ _).mp hrun
  have hp' := of_decide_eq_true hp'
  refine ⟨σ, σ₂, σ', hp, hp', hrax, ?_⟩
  refine call_returns sample_bootable hσ hg hs₁ ?_ (hp₂.trans hp.symm) ?_ hg₂ hs₃ ?_
    (hp'.trans hp.symm)
  · rw [hp, hdepth]
    exact Machine.trace_reach ht₂
  · rw [hdepth₂, hdepth]
  · rw [hp]
    exact Machine.trace_reach ht'

/-! ### The snapshot -/

/-- **The snapshot is of the interrupted process.**  What Ctrl+R leaves in
`snapshot_buffer` are the registers of the process that ran, in the order of
`CPURegisters` and with the stack pointer it had, until the next Ctrl+R. -/
theorem snapshot_shows (hboot : Bootable L c)
    (h : (machine L).Reach (boot idleStack c mem threads) σ) {ws : List (Nat × Nat)} {σ₁ : Board}
    (hg : guard L σ (.key .ctrlR ws)) (hs : step L σ (.key .ctrlR ws) = some σ₁)
    (hrun : ((machine L).restrict fun _ l => l.isSnapshot = false).Reach σ₁ σ') :
    σ'.buffer = σ.cpu.shown := by
  have hshown := ((reach_inv hboot h).key hg hs).2 rfl
  refine hrun.invariant (I := fun τ => τ.buffer = σ.cpu.shown) hshown ?_
  intro τ l τ' hτ hok hstep
  obtain ⟨-, -, -, hbuffer⟩ := step_frame hstep
  exact (hbuffer hok.2).trans hτ

/-- A context with a number of its own in every register. -/
def sampleDistinct : Context where
  regs
    | .rax => 100 | .rbx => 101 | .rcx => 102 | .rdx => 103 | .rbp => 104 | .rdi => 105
    | .rsi => 106 | .r8 => 107 | .r9 => 108 | .r10 => 109 | .r11 => 110 | .r12 => 111
    | .r13 => 112 | .r14 => 113 | .r15 => 114
  rip := 77
  cs := 0x08
  rflags := 0x10202
  rsp := 13000
  ss := 0

/-- Ctrl+R while the shell runs with numbers of its own in all registers; then another
process runs and has other numbers in them. -/
theorem snapshot_shows_shell : ∃ σ' : Board, σ'.pid = 2 ∧ σ'.cpu.regs .rbx = 5 ∧
    σ'.buffer = [100, 101, 102, 103, 104, 105, 106, 107, 108, 109, 110, 111, 112, 113, 114, 77,
      13000, 0x202] := by
  obtain ⟨σ, hσ, ⟨hcpu, hg⟩, hrun⟩ := (machine sampleLayout).exists_reach_of_trace
    (s := sampleBoot)
    [.piece (.create [115] 3 1 10000) 50 0 0, .timer [], .piece (.create [97] 3 0 20000) 60 1 2,
      .run sampleDistinct [(13008, 8)]]
    (P := fun σ => (σ.cpu.shown = [100, 101, 102, 103, 104, 105, 106, 107, 108, 109, 110, 111, 112,
        113, 114, 77, 13000, 0x202] ∧ guard sampleLayout σ (.key .ctrlR [])) ∧
      (step sampleLayout σ (.key .ctrlR [])).any (fun σ₁ =>
        (((machine sampleLayout).restrict fun _ l => l.isSnapshot = false).trace σ₁
          [.timer [], .timer [], .timer [], .run (sampleContext 23000) [(23000, 42)]]).any fun σ' =>
            σ'.pid = 2 ∧ σ'.cpu.regs .rbx = 5) = true) (by decide +kernel)
  obtain ⟨σ₁, hs, hrun⟩ := (Option.any_eq_true _ _).mp hrun
  obtain ⟨σ', htrace, hp⟩ := (Option.any_eq_true _ _).mp hrun
  obtain ⟨hp, hrbx⟩ := of_decide_eq_true hp
  refine ⟨σ', hp, hrbx, ?_⟩
  rw [snapshot_shows sample_bootable hσ hg hs (Machine.trace_reach htrace)]
  exact hcpu

end Steps

end Board

end TP2Kernel
