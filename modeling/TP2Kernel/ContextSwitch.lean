/-
TP2Kernel/ContextSwitch.lean

One processor for all processes.  `Board` is the processor, the memory, the kernel
and, for every slot, what the process in it knows of itself: its registers, the
system calls it is inside of, and the memory as it last left it (`Thread`).  The
steps are those of `Kernel/asm/interrupts.asm`: code that runs undisturbed, the
system call and its return, the timer and the keyboard, in any order.  An interrupt can
come inside a system call, between two steps of it.  It does not come inside a step: a
piece of kernel code, an interrupt handler and the end of `_irq80Handler` are taken as
uninterrupted, although the last runs with interrupts on after a call that waited on a
pipe or closed a pipe end.  A timer between its `call scheduler_tick` and `mov rsp, rax`
would be told the stack of one process as that of another.

Interrupts have no stack of their own here: a handler pushes on the stack of the
process it interrupts, and that frame is all that is left of the process while
others run.  `step_inv` says that it is enough, for processes that keep to their
stacks and leave room on them.
-/
import TP2Kernel.Interrupts
import TP2Kernel.SavedRsp
import TP2Kernel.Dispatch
import TP2Kernel.StackOwnership

namespace TP2Kernel

/-! ### Threads -/

/-- A process as it knows itself: its registers, the frames of the system calls it is
inside of, the innermost first, with the registers to go on with after them, and the
memory after its own last step. -/
structure Thread where
  ctx : Context
  calls : List (Nat × Context)
  seen : Cells

/-- Where the innermost frame is, on a stack that ends at `hi`. -/
def innermost (hi : Nat) : List (Nat × Context) → Nat
  | [] => hi
  | f :: _ => f.1

/-- Each frame lies below the stack pointer of the context it was pushed for, and that
one below the frame before. -/
def Nested (lo hi : Nat) : List (Nat × Context) → Prop
  | [] => True
  | f :: fs => f.1 = f.2.frameAt ∧ f.2.Valid ∧ lo + 176 ≤ f.2.rsp ∧ f.2.rsp ≤ innermost hi fs ∧
      Nested lo hi fs

/-- Words written one after the other. -/
def store (mem : Cells) (ws : List (Nat × Nat)) : Cells :=
  ws.foldl (fun m w => Function.update m w.1 w.2) mem

/-- No byte between `lo` and `hi` is written. -/
def Untouched (lo hi : Nat) (ws : List (Nat × Nat)) : Prop :=
  ∀ w ∈ ws, w.1 + 8 ≤ lo ∨ hi ≤ w.1

instance (lo hi : Nat) (ws : List (Nat × Nat)) : Decidable (Untouched lo hi ws) :=
  inferInstanceAs (Decidable (∀ w ∈ ws, _ ∨ _))

theorem store_untouched {mem : Cells} {lo hi : Nat} {ws : List (Nat × Nat)} (h : Untouched lo hi ws)
    {x : Nat} (hlo : lo ≤ x) (hhi : x < hi) : store mem ws x = mem x := by
  induction ws generalizing mem with
  | nil => rfl
  | cons w ws ih =>
      have hw := h w List.mem_cons_self
      refine (ih fun w' hw' => h w' (List.mem_cons_of_mem _ hw')).trans ?_
      exact Function.update_of_ne (by omega) _ _

theorem Context.frameAt_bounds {c : Context} {lo : Nat} (h : lo + 176 ≤ c.rsp) :
    lo ≤ c.frameAt ∧ c.frameAt + 160 ≤ c.rsp := by
  unfold Context.frameAt
  omega

theorem Nested.innermost_le {lo hi : Nat} {fs : List (Nat × Context)} (h : Nested lo hi fs) :
    innermost hi fs ≤ hi := by
  induction fs with
  | nil => exact le_rfl
  | cons f fs ih =>
      obtain ⟨hf, -, hlo, hle, hrest⟩ := h
      have hb := Context.frameAt_bounds hlo
      have := ih hrest
      show f.1 ≤ hi
      omega

/-- The frames lie between the innermost one and the end of the stack. -/
theorem Nested.bounds {lo hi : Nat} {fs : List (Nat × Context)} (h : Nested lo hi fs) :
    ∀ f ∈ fs, innermost hi fs ≤ f.1 ∧ lo ≤ f.1 ∧ f.1 + 160 ≤ hi := by
  induction fs with
  | nil => exact fun _ hf => absurd hf List.not_mem_nil
  | cons g fs ih =>
      obtain ⟨hg, -, hlo, hle, hrest⟩ := h
      have hb := Context.frameAt_bounds hlo
      have hin := hrest.innermost_le
      intro f hf
      show g.1 ≤ f.1 ∧ _
      rcases List.mem_cons.mp hf with rfl | hf
      · omega
      · have := ih hrest f hf
        omega

/-- What holds for every live process with a stack from `lo` to `hi`: its stack is in
order, and what lies above its stack pointer is as it left it. -/
structure Good (lo hi : Nat) (mem : Cells) (t : Thread) : Prop where
  valid : t.ctx.Valid
  low : lo ≤ t.ctx.rsp
  top : t.ctx.rsp ≤ innermost hi t.calls
  nested : Nested lo hi t.calls
  same : ∀ x, t.ctx.rsp ≤ x → x < hi → mem x = t.seen x
  frames : ∀ f ∈ t.calls, HoldsWords mem f.1 f.2.frame

/-- What holds for a live process that is not running: its registers are in a frame on
its stack. -/
structure Saved (lo hi rsp : Nat) (mem : Cells) (t : Thread) : Prop where
  frame : HoldsWords mem rsp t.ctx.frame
  low : lo ≤ rsp
  high : rsp + 160 ≤ hi

section Threads

variable {lo hi rsp : Nat} {mem mem' : Cells} {t : Thread}

theorem Good.congr (h : Good lo hi mem t)
    (hag : ∀ x, t.ctx.rsp ≤ x → x < hi → mem' x = mem x) : Good lo hi mem' t := by
  refine ⟨h.valid, h.low, h.top, h.nested,
    fun x hlo hhi => (hag x hlo hhi).trans (h.same x hlo hhi),
    fun f hf => (h.frames f hf).congr fun x hx hx' => ?_⟩
  have hb := h.nested.bounds f hf
  have htop := h.top
  rw [Context.frame_length] at hx'
  exact hag x (by omega) (by omega)

theorem Saved.congr (h : Saved lo hi rsp mem t)
    (hag : ∀ x, rsp ≤ x → x < rsp + 160 → mem' x = mem x) : Saved lo hi rsp mem' t :=
  ⟨h.frame.congr hag, h.low, h.high⟩

/-- The return to a saved process brings back its registers. -/
theorem Saved.load (h : Saved lo hi rsp mem t) (hv : t.ctx.Valid) (hhi : hi < 2 ^ 64)
    (c : Context) : Context.load mem rsp c = t.ctx :=
  Context.load_frame h.frame (by have := h.high; omega) hv c

theorem Saved.snapshot (h : Saved lo hi rsp mem t) : Context.snapshot mem rsp = t.ctx.shown :=
  Context.snapshot_frame h.frame

/-- A thread after one of its own steps: only the frames of its open calls and its
stack pointer have to be in order. -/
theorem Good.own {c : Context} {fs : List (Nat × Context)} (hv : c.Valid) (hlow : lo ≤ c.rsp)
    (htop : c.rsp ≤ innermost hi fs) (hn : Nested lo hi fs)
    (hf : ∀ f ∈ fs, HoldsWords mem f.1 f.2.frame) : Good lo hi mem ⟨c, fs, mem⟩ :=
  ⟨hv, hlow, htop, hn, fun _ _ _ => rfl, hf⟩

/-- **The return from a system call**: with the answer in the frame of the innermost call
and nothing written above it, that frame is the one of the registers to go on with. -/
theorem Good.returned {ctx c : Context} {a : Nat} {fs : List (Nat × Context)} {seen : Cells}
    (h : Good lo hi mem ⟨ctx, (a, c) :: fs, seen⟩) (v : Nat) {ws : List (Nat × Nat)}
    (hclear : Untouched a hi ws)
    (hmem : mem' = store (Function.update mem (a + 8 * 14) v) ws) :
    Good lo hi mem' ⟨c.setRax v, fs, mem'⟩ ∧ Saved lo hi a mem' ⟨c.setRax v, fs, mem'⟩ := by
  obtain ⟨ha, hv, hroom, hle, hrest⟩ : a = c.frameAt ∧ c.Valid ∧ lo + 176 ≤ c.rsp ∧
    c.rsp ≤ innermost hi fs ∧ Nested lo hi fs := h.nested
  have hb := Context.frameAt_bounds hroom
  have hin := hrest.innermost_le
  have habove : ∀ x, a + 160 ≤ x → x < hi → mem' x = mem x := by
    intro x hlo hhi
    rw [hmem, store_untouched hclear (by omega) hhi]
    exact Function.update_of_ne (by omega) _ _
  refine ⟨.own (Context.setRax_valid hv v) ?_ hle hrest fun f hf => ?_, ?_, by omega, by omega⟩
  · show lo ≤ c.rsp
    omega
  · have hfb := hrest.bounds f hf
    refine (h.frames f (List.mem_cons_of_mem _ hf)).congr fun x hlo hhi => ?_
    rw [Context.frame_length] at hhi
    exact habove x (by omega) (by omega)
  · refine (Context.frame_setRax (h.frames (a, c) List.mem_cons_self) v).congr fun x hlo hhi => ?_
    rw [Context.frame_length] at hhi
    rw [hmem]
    exact store_untouched hclear hlo (by omega)

end Threads

/-! ### The board -/

/-- Where the kernel's own parts are: the stack `main` runs on, which is the one of the
idle process, the handler of the system calls and the trampoline of
`setup_initial_stack`. -/
structure Layout where
  bootLow : Nat
  bootHigh : Nat
  irq80 : Nat
  trampoline : Nat

namespace Layout

variable (L : Layout) (k : Kernel) (j : Slot)

def low : Nat := if j = 0 then L.bootLow else (k.life j).stackBase

def high : Nat := if j = 0 then L.bootHigh else (k.life j).stackBase + stackSize

end Layout

/-- The processor, the memory and the kernel, `snapshot_buffer`, and the processes as
they know themselves. -/
structure Board where
  cpu : Context
  mem : Cells
  kernel : Kernel
  grants : Kernel.Grants
  buffer : List Nat
  threads : Slot → Thread

/-- The keys that do more than fill the keyboard's buffer. -/
inductive Hotkey
  | plain | ctrlC | ctrlR

namespace Board

open Kernel (Grants Owned Fresh)

/-- What can happen next.  `run` is any code of the process, or of the kernel on its
behalf, up to the next event; `piece` is a piece of kernel code, with the entry and the
arguments of a process it may create.  The words written by a handler itself come with
the interrupt. -/
inductive Label
  | run (c : Context) (ws : List (Nat × Nat))
  | piece (op : Kernel.Op) (entry : Nat) (argc : Int) (argv : Nat)
  | int80
  | ret80 (ws : List (Nat × Nat))
  | timer (ws : List (Nat × Nat))
  | key (hot : Hotkey) (ws : List (Nat × Nat))

def cur (σ : Board) : Slot := σ.kernel.sched.currentIdx

/-- The process that runs. -/
def thread (σ : Board) : Thread := σ.threads σ.cur

def Live (σ : Board) (j : Slot) : Prop := (σ.kernel.life j).state ≠ .dead

instance (σ : Board) (j : Slot) : Decidable (σ.Live j) := inferInstanceAs (Decidable (_ ≠ _))

/-- A piece of kernel code. -/
def exec (σ : Board) (op : Kernel.Op) : Board :=
  { σ with kernel := σ.kernel.exec op, grants := σ.grants.after σ.kernel op }

/-- The step of the current process to another thread. -/
def own (σ : Board) (t : Thread) : Board :=
  { σ with threads := Function.update σ.threads σ.cur t }

/-- `call scheduler_tick`, `mov rsp, rax` and the return from the interrupt. -/
def switch (σ : Board) (rsp : Nat) : Board :=
  { σ.exec (.tick rsp) with cpu := Context.load σ.mem (σ.kernel.sched.schedulerTick rsp).2 σ.cpu }

/-- `setup_initial_stack` for a process created in slot `j`. -/
def launch (σ : Board) (L : Layout) (j : Slot) (stack entry : Nat) (argc : Int) (argv : Nat) :
    Board :=
  let mem := (setupInitialStack σ.mem stack entry argc argv L.trampoline).1
  { σ with
    mem := mem
    threads := Function.update σ.threads j ⟨.initial stack entry argc argv, [], mem⟩ }

/-- What `keyboard_interrupt_handler` does to the kernel. -/
def pressed (σ : Board) : Hotkey → Board
  | .ctrlC => σ.exec .killForeground
  | _ => σ

/-- The slot a creation will use. -/
def birth (k : Kernel) : Kernel.Op → Option (Slot × Nat)
  | .create _ _ _ stack =>
      if stack = 0 then none else k.sched.findFreeSlot.map fun j => (j, stack)
  | _ => none

/-- One step, uninterrupted.  `ret80` is the end of `_irq80Handler` from the store of the
result in the frame to `iretq`, with `scheduler_tick` and the switch of stacks. -/
def step (L : Layout) (σ : Board) : Label → Option Board
  | .run c ws =>
      let mem := store σ.mem ws
      some ({ σ with cpu := c, mem := mem }.own ⟨c, σ.thread.calls, mem⟩)
  | .piece op entry argc argv =>
      match birth σ.kernel op with
      | some (j, stack) => some ((σ.exec op).launch L j stack entry argc argv)
      | none => some (σ.exec op)
  | .int80 =>
      let (mem, f) := σ.cpu.enter σ.mem
      let c := σ.cpu.inHandler L.irq80
      some ({ σ with cpu := c, mem := mem }.own ⟨c, (f, σ.cpu) :: σ.thread.calls, mem⟩)
  | .ret80 ws =>
      match σ.thread.calls with
      | [] => none
      | (_, c) :: fs =>
          let f := σ.cpu.rsp
          let v := σ.cpu.regs .rax
          let mem := store (Function.update σ.mem (f + 8 * 14) v) ws
          let σ' := { σ with mem := mem }.own ⟨c.setRax v, fs, mem⟩
          if σ.kernel.sched.schedulerShouldReschedule then some (σ'.switch f)
          else some { σ' with cpu := Context.load mem f σ.cpu }
  | .timer ws =>
      let (mem, f) := σ.cpu.enter σ.mem
      some ({ σ with mem := store mem ws }.switch f)
  | .key hot ws =>
      let (mem, f) := σ.cpu.enter σ.mem
      let mem := store mem ws
      let σ' := σ.pressed hot
      some { σ' with
        mem := mem
        buffer := match hot with
          | .ctrlR => Context.snapshot mem f
          | _ => σ.buffer
        cpu := Context.load mem f σ.cpu }

/-- The stacks of the other live processes are not written to. -/
def SparesOthers (L : Layout) (σ : Board) (ws : List (Nat × Nat)) : Prop :=
  ∀ j, j ≠ σ.cur → σ.Live j → Untouched (L.low σ.kernel j) (L.high σ.kernel j) ws

instance (L : Layout) (σ : Board) (ws : List (Nat × Nat)) : Decidable (SparesOthers L σ ws) :=
  inferInstanceAs (Decidable (∀ j, j ≠ σ.cur → σ.Live j →
    Untouched (L.low σ.kernel j) (L.high σ.kernel j) ws))

/-- There is room for a frame on the stack of the current process. -/
def Room (L : Layout) (σ : Board) : Prop := L.low σ.kernel σ.cur + 176 ≤ σ.cpu.rsp

instance (L : Layout) (σ : Board) : Decidable (Room L σ) := inferInstanceAs (Decidable (_ ≤ _))

/-- A handler finds room for its frame, and writes below the frame or outside all
stacks. -/
def Handles (L : Layout) (σ : Board) (ws : List (Nat × Nat)) : Prop :=
  Room L σ ∧ SparesOthers L σ ws ∧ Untouched σ.cpu.frameAt (L.high σ.kernel σ.cur) ws

instance (L : Layout) (σ : Board) (ws : List (Nat × Nat)) : Decidable (Handles L σ ws) :=
  inferInstanceAs (Decidable (_ ∧ _ ∧ _))

/-- The stack `mm_alloc` has returned ends below the last address and is not part of the
stack of `main`. -/
def Placeable (L : Layout) (stack : Nat) : Prop :=
  stack + stackSize < 2 ^ 64 ∧ (stack + stackSize ≤ L.bootLow ∨ L.bootHigh ≤ stack)

instance (L : Layout) (stack : Nat) : Decidable (Placeable L stack) :=
  inferInstanceAs (Decidable (_ ∧ _))

def isTick : Kernel.Op → Bool
  | .tick _ => true
  | _ => false

/-- What is asked of a step.  Code keeps to the stack of its process and leaves the
frames of the open calls alone; interrupts find room for their frame, and their handlers
write below it or outside all stacks; a system call returns where it was entered. -/
def guard (L : Layout) (σ : Board) : Label → Prop
  | .run c ws =>
      c.Valid ∧ L.low σ.kernel σ.cur ≤ c.rsp ∧
        c.rsp ≤ innermost (L.high σ.kernel σ.cur) σ.thread.calls ∧ SparesOthers L σ ws ∧
        ∀ f ∈ σ.thread.calls, Untouched f.1 (f.1 + 160) ws
  | .piece op _ _ _ =>
      isTick op = false ∧ Fresh σ.kernel σ.grants op ∧
        ∀ x ∈ σ.kernel.obtained op, Placeable L x.1
  | .int80 => Room L σ
  | .ret80 ws =>
      σ.cpu.rsp = innermost (L.high σ.kernel σ.cur) σ.thread.calls ∧ SparesOthers L σ ws ∧
        Untouched σ.cpu.rsp (L.high σ.kernel σ.cur) ws
  | .timer ws => Handles L σ ws
  | .key hot ws => Handles L (σ.pressed hot) ws

instance (L : Layout) (σ : Board) (l : Label) : Decidable (guard L σ l) := by
  cases l <;> unfold guard
  case piece =>
    unfold Fresh
    infer_instance
  all_goals infer_instance

def machine (L : Layout) : Machine Board Label where
  guard := guard L
  step := step L

instance (L : Layout) (σ : Board) (l : Label) : Decidable ((machine L).guard σ l) :=
  inferInstanceAs (Decidable (guard L σ l))

/-- After `scheduler_init`: `main` runs, and the process table has it as idle. -/
def boot (idleStack : Nat) (c : Context) (mem : Cells) (threads : Slot → Thread) : Board where
  cpu := c
  mem := mem
  kernel := Kernel.init idleStack
  grants := ⟨[], []⟩
  buffer := []
  threads := Function.update threads 0 ⟨c, [], mem⟩

/-! ### Who is alive after a piece of kernel code -/

section Survivors

variable {k : Kernel} {g : Grants} {op : Kernel.Op} {idleStack : Nat} {L : Layout}

theorem birth_some {j : Slot} {stack : Nat} (h : birth k op = some (j, stack)) :
    (∃ name pr fg, op = .create name pr fg stack) ∧ k.sched.findFreeSlot = some j ∧ stack ≠ 0 := by
  cases op with
  | create name pr fg stack' =>
      rw [birth] at h
      split at h
      · cases h
      · rename_i hne
        obtain ⟨i, hi, he⟩ := Option.map_eq_some_iff.mp h
        cases he
        exact ⟨⟨name, pr, fg, rfl⟩, hi, hne⟩
  | _ => cases h

/-- A process that is alive was so before, as the same process, or has just been
created. -/
theorem survives (h : Owned idleStack k g) {j : Slot}
    (hlive : ((k.exec op).life j).state ≠ .dead) :
    ((k.life j).state ≠ .dead ∧ Life.Same (k.life j) ((k.exec op).life j)) ∨
      ∃ stack, birth k op = some (j, stack) := by
  rcases Kernel.exec_turnover h.sound h.stacked op with ⟨-, -, hlife⟩ |
    ⟨name, pr, fg, stack, i, rfl, hi, hstack, -, -, -, -, -, -, hother⟩ |
    ⟨i, -, -, -, -, hdead, -, -, -, -, hother⟩
  · exact .inl ⟨(hlife j).dead.not.mp hlive, hlife j⟩
  · by_cases hj : j = i
    · refine .inr ⟨stack, ?_⟩
      rw [birth, if_neg hstack, hi, hj]
      rfl
    · exact .inl ⟨(hother j hj).dead.not.mp hlive, hother j hj⟩
  · have hj : j ≠ i := by
      rintro rfl
      exact hlive hdead.1
    exact .inl ⟨(hother j hj).dead.not.mp hlive, hother j hj⟩

/-- The process that has been created. -/
theorem born (h : Owned idleStack k g) {j : Slot} {stack : Nat}
    (hb : birth k op = some (j, stack)) :
    (k.life j).state = .dead ∧ ((k.exec op).life j).state = .ready ∧
      ((k.exec op).life j).stackBase = stack ∧ ((k.exec op).life j).pid = k.sched.nextPid ∧
      (stack, k.sched.nextPid) ∈ k.obtained op := by
  obtain ⟨⟨name, pr, fg, rfl⟩, hslot, hstack⟩ := birth_some hb
  have hnext : (k.exec (.create name pr fg stack)).sched.nextPid = k.sched.nextPid + 1 :=
    k.create_nextPid hslot hstack
  rcases Kernel.exec_turnover h.sound h.stacked (.create name pr fg stack) with ⟨-, hbooks, -⟩ |
    ⟨_, _, _, _, i, he, hi, -, hnew, hgot, -, -, -, -, -⟩ | ⟨_, -, -, -, -, -, -, hsame, -, -, -⟩
  · have := hbooks.nextPid
    omega
  · cases he
    obtain rfl := Option.some.inj (hslot.symm.trans hi)
    refine ⟨(Sched.findFreeSlot_some hslot).2, hnew.2.2.2, hnew.2.2.1, hnew.1, ?_⟩
    rw [hgot]
    exact List.mem_cons_self
  · omega

/-- Stacks are apart from each other and from the one of `main`. -/
structure Placed (L : Layout) (idleStack : Nat) (k : Kernel) (g : Grants) : Prop where
  owned : Owned idleStack k g
  boot : L.bootHigh < 2 ^ 64
  fits : ∀ j, j ≠ 0 → (k.life j).state ≠ .dead → Placeable L (k.life j).stackBase

namespace Placed

theorem bound (h : Placed L idleStack k g) {j : Slot} (hj : (k.life j).state ≠ .dead) :
    L.high k j < 2 ^ 64 := by
  unfold Layout.high
  split
  · exact h.boot
  · rename_i h0
    exact (h.fits j h0 hj).1

/-- The stacks of two live processes do not overlap. -/
theorem apart (h : Placed L idleStack k g) {i j : Slot} (hij : i ≠ j)
    (hi : (k.life i).state ≠ .dead) (hj : (k.life j).state ≠ .dead) :
    L.high k i ≤ L.low k j ∨ L.high k j ≤ L.low k i := by
  unfold Layout.high Layout.low
  by_cases hi0 : i = 0
  · have hj0 : j ≠ 0 := fun hj0 => hij (hi0.trans hj0.symm)
    rw [if_pos hi0, if_pos hi0, if_neg hj0, if_neg hj0]
    exact (h.fits j hj0 hj).2.symm
  · by_cases hj0 : j = 0
    · rw [if_neg hi0, if_neg hi0, if_pos hj0, if_pos hj0]
      exact (h.fits i hi0 hi).2
    · rw [if_neg hi0, if_neg hi0, if_neg hj0, if_neg hj0]
      exact h.owned.apart i j hij hi hj

theorem exec (h : Placed L idleStack k g) (hfresh : Fresh k g op)
    (hplace : ∀ x ∈ k.obtained op, Placeable L x.1) :
    Placed L idleStack (k.exec op) (g.after k op) := by
  refine ⟨Kernel.exec_owned h.owned hfresh, h.boot, fun j h0 hlive => ?_⟩
  rcases survives h.owned hlive with ⟨hbefore, hsame⟩ | ⟨stack, hb⟩
  · rw [hsame.stackBase]
    exact h.fits j h0 hbefore
  · obtain ⟨-, -, hbase, -, hgot⟩ := born h.owned hb
    rw [hbase]
    exact hplace _ hgot

/-- Pieces that create nobody ask nothing of the heap. -/
theorem exec_of_obtained (h : Placed L idleStack k g) (hnone : k.obtained op = []) :
    Placed L idleStack (k.exec op) (g.after k op) := by
  apply h.exec
  · unfold Fresh
    rw [hnone]
    exact fun _ hx => absurd hx List.not_mem_nil
  · rw [hnone]
    exact fun _ hx => absurd hx List.not_mem_nil

end Placed

theorem low_same {k' : Kernel} {j : Slot} (h : Life.Same (k.life j) (k'.life j)) :
    L.low k' j = L.low k j := by
  unfold Layout.low
  rw [h.stackBase]

theorem high_same {k' : Kernel} {j : Slot} (h : Life.Same (k.life j) (k'.life j)) :
    L.high k' j = L.high k j := by
  unfold Layout.high
  rw [h.stackBase]

end Survivors

/-! ### The invariant -/

/-- The process in slot `j` is in order. -/
def GoodAt (L : Layout) (σ : Board) (j : Slot) : Prop :=
  Good (L.low σ.kernel j) (L.high σ.kernel j) σ.mem (σ.threads j)

/-- The process in slot `j` has its registers in a frame at `rsp`. -/
def SavedAt (L : Layout) (σ : Board) (j : Slot) (rsp : Nat) : Prop :=
  Saved (L.low σ.kernel j) (L.high σ.kernel j) rsp σ.mem (σ.threads j)

/-- What holds between any two steps, but for the current process: the other live ones
are saved where the process table says. -/
structure Others (L : Layout) (idleStack : Nat) (σ : Board) : Prop where
  placed : Placed L idleStack σ.kernel σ.grants
  good : ∀ j, σ.Live j → GoodAt L σ j
  saved : ∀ j, σ.Live j → j ≠ σ.cur → SavedAt L σ j (σ.kernel.proc j).rsp

/-- What holds between any two steps. -/
structure Inv (L : Layout) (idleStack : Nat) (σ : Board) : Prop extends
    Others L idleStack σ where
  cpu : σ.cpu = σ.thread.ctx

/-- A step leaves the process in slot `j` and its stack alone. -/
structure Kept (L : Layout) (σ σ' : Board) (j : Slot) : Prop where
  live : σ.Live j
  same : Life.Same (σ.kernel.life j) (σ'.kernel.life j)
  thread : σ'.threads j = σ.threads j
  mem : ∀ x, L.low σ.kernel j ≤ x → x < L.high σ.kernel j → σ'.mem x = σ.mem x

section Steps

variable {L : Layout} {idleStack : Nat} {σ σ' : Board}

theorem Kept.good {j : Slot} (h : Kept L σ σ' j) (hg : GoodAt L σ j) : GoodAt L σ' j := by
  unfold GoodAt
  rw [low_same h.same, high_same h.same, h.thread]
  exact Good.congr hg fun x hlo hhi => h.mem x (le_trans hg.low hlo) hhi

theorem Kept.saved {j : Slot} {rsp : Nat} (h : Kept L σ σ' j) (hp : SavedAt L σ j rsp) :
    SavedAt L σ' j rsp := by
  have hlow := hp.low
  have hhigh := hp.high
  unfold SavedAt
  rw [low_same h.same, high_same h.same, h.thread]
  exact Saved.congr hp fun x hlo hhi => h.mem x (by omega) (by omega)

theorem Others.live_cur (h : Others L idleStack σ) : σ.Live σ.cur :=
  h.placed.owned.sound.pids.current

/-- Who is alive after a piece that creates nobody has been left alone by it. -/
theorem Others.kept (h : Others L idleStack σ) {op : Kernel.Op} (hnone : birth σ.kernel op = none)
    {j : Slot} (hj : (σ.exec op).Live j) : Kept L σ (σ.exec op) j := by
  rcases survives h.placed.owned hj with ⟨hlive, hsame⟩ | ⟨stack, hb⟩
  · exact ⟨hlive, hsame, rfl, fun _ _ _ => rfl⟩
  · cases hnone.symm.trans hb

theorem ne_tick {op : Kernel.Op} (h : isTick op = false) (rsp : Nat) : op ≠ .tick rsp := by
  rintro rfl
  cases h

/-- **A piece that creates nobody** and is not the timer leaves the processes that
survive it as they are. -/
theorem Others.exec (h : Others L idleStack σ) {op : Kernel.Op} (htick : isTick op = false)
    (hnone : birth σ.kernel op = none)
    (hplaced : Placed L idleStack (σ.kernel.exec op) (σ.grants.after σ.kernel op)) :
    Others L idleStack (σ.exec op) := by
  refine ⟨hplaced, fun j hj => ?_, fun j hj hne => ?_⟩
  · have hkept := h.kept hnone hj
    exact hkept.good (h.good j hkept.live)
  · have hkept := h.kept hnone hj
    have hrsp : ((σ.exec op).kernel.proc j).rsp = (σ.kernel.proc j).rsp :=
      Kernel.exec_rsp (ne_tick htick) hkept.live hj
    rw [hrsp]
    exact hkept.saved (h.saved j hkept.live fun he =>
      hne (he.trans (Kernel.exec_currentIdx (ne_tick htick)).symm))

/-- **The switch**: when the current process has its frame at `rsp` too, the process that
`scheduler_tick` picks goes on with its own registers. -/
theorem Others.switch (h : Others L idleStack σ) {rsp : Nat} (hcur : SavedAt L σ σ.cur rsp) :
    Inv L idleStack (σ.switch rsp) := by
  have hplaced : Placed L idleStack (σ.kernel.exec (.tick rsp))
      (σ.grants.after σ.kernel (.tick rsp)) := h.placed.exec_of_obtained rfl
  have hkept : ∀ {j}, (σ.switch rsp).Live j → Kept L σ (σ.switch rsp) j := by
    intro j hj
    have hexec : Kept L σ (σ.exec (.tick rsp)) j := h.kept rfl hj
    obtain ⟨hlive, hsame, -, -⟩ := hexec
    exact ⟨hlive, hsame, rfl, fun _ _ _ => rfl⟩
  have hgood : ∀ j, (σ.switch rsp).Live j → GoodAt L (σ.switch rsp) j := fun j hj =>
    (hkept hj).good (h.good j (hkept hj).live)
  -- Everybody is saved where the table says, the process that has just stopped included.
  have hsaved : ∀ j, (σ.switch rsp).Live j →
      SavedAt L (σ.switch rsp) j ((σ.switch rsp).kernel.proc j).rsp := by
    intro j hj
    have hrsp : ((σ.switch rsp).kernel.proc j).rsp =
        if j = σ.cur then rsp else (σ.kernel.proc j).rsp := Kernel.tick_rsp σ.kernel rsp j
    rw [hrsp]
    split
    · rename_i he
      exact (hkept hj).saved (he ▸ hcur)
    · rename_i hne
      exact (hkept hj).saved (h.saved j (hkept hj).live hne)
  have hnew : (σ.switch rsp).Live (σ.switch rsp).cur := hplaced.owned.sound.pids.current
  refine ⟨⟨hplaced, hgood, fun j hj _ => hsaved j hj⟩, ?_⟩
  show Context.load σ.mem (σ.kernel.sched.schedulerTick rsp).2 σ.cpu = _
  rw [Sched.schedulerTick_returns]
  exact (hsaved _ hnew).load (hgood _ hnew).valid (hplaced.bound hnew) _

/-- A step that leaves the kernel and the stacks of the others alone. -/
theorem Others.touch (h : Others L idleStack σ) (hk : σ'.kernel = σ.kernel)
    (hg : σ'.grants = σ.grants) (hthreads : ∀ j, j ≠ σ.cur → σ'.threads j = σ.threads j)
    (hmem : ∀ j, σ.Live j → j ≠ σ.cur → ∀ x, L.low σ.kernel j ≤ x → x < L.high σ.kernel j →
      σ'.mem x = σ.mem x)
    (hgood : Good (L.low σ.kernel σ.cur) (L.high σ.kernel σ.cur) σ'.mem (σ'.threads σ.cur)) :
    Others L idleStack σ' := by
  have hcur : σ'.cur = σ.cur := congrArg (·.sched.currentIdx) hk
  have hkept : ∀ {j}, σ'.Live j → j ≠ σ.cur → Kept L σ σ' j := by
    intro j hj hne
    have hlive : σ.Live j := by
      unfold Live at hj
      rw [hk] at hj
      exact hj
    refine ⟨hlive, ?_, hthreads j hne, hmem j hlive hne⟩
    rw [hk]
    exact .refl _
  refine ⟨by rw [hk, hg]; exact h.placed, fun j hj => ?_, fun j hj hne => ?_⟩
  · by_cases he : j = σ.cur
    · unfold GoodAt
      rw [hk, he]
      exact hgood
    · exact (hkept hj he).good (h.good j (hkept hj he).live)
  · rw [hcur] at hne
    rw [hk]
    exact (hkept hj hne).saved (h.saved j (hkept hj hne).live hne)

/-- The stack pointer is on the stack. -/
theorem Inv.rsp_le (h : Inv L idleStack σ) :
    σ.cpu.rsp ≤ innermost (L.high σ.kernel σ.cur) σ.thread.calls ∧
      innermost (L.high σ.kernel σ.cur) σ.thread.calls ≤ L.high σ.kernel σ.cur := by
  have hgood := h.good _ h.live_cur
  rw [h.cpu]
  exact ⟨hgood.top, hgood.nested.innermost_le⟩

/-- **The frame of an interrupt** is pushed below the stack pointer, on the stack of the
current process. -/
theorem Inv.enter (h : Inv L idleStack σ) (hroom : Room L σ) :
    ∃ mem, σ.cpu.enter σ.mem = (mem, σ.cpu.frameAt) ∧
      HoldsWords mem σ.cpu.frameAt σ.cpu.frame ∧
      (∀ j, σ.Live j → j ≠ σ.cur → ∀ x, L.low σ.kernel j ≤ x → x < L.high σ.kernel j →
        mem x = σ.mem x) ∧
      ∀ x, σ.cpu.rsp ≤ x → mem x = σ.mem x := by
  unfold Room at hroom
  have hle := h.rsp_le
  have hbound := h.placed.bound h.live_cur
  have hb := Context.frameAt_bounds hroom
  obtain ⟨mem, hrun, hwords, hag⟩ := Context.enter_spec (c := σ.cpu) σ.mem (by omega) (by omega)
  refine ⟨mem, hrun, hwords, fun j hj hne x hlo hhi => hag x ?_, fun x hx => hag x ?_⟩
  · rcases h.placed.apart hne hj h.live_cur with hd | hd
    · omega
    · omega
  · omega

theorem Inv.good_cur (h : Inv L idleStack σ) :
    Good (L.low σ.kernel σ.cur) (L.high σ.kernel σ.cur) σ.mem σ.thread :=
  h.good _ h.live_cur

/-- **In a handler**, with its own writes done, every live process is saved. -/
theorem Inv.interrupted (h : Inv L idleStack σ) {ws : List (Nat × Nat)} (hws : Handles L σ ws) :
    ∃ mem, σ.cpu.enter σ.mem = (mem, σ.cpu.frameAt) ∧
      Others L idleStack { σ with mem := store mem ws } ∧
      SavedAt L { σ with mem := store mem ws } σ.cur σ.cpu.frameAt := by
  obtain ⟨hroom, hspares, hclear⟩ := hws
  obtain ⟨mem, hrun, hwords, hothers, hown⟩ := h.enter hroom
  have hb := Context.frameAt_bounds hroom
  have hle := h.rsp_le
  refine ⟨mem, hrun, h.toOthers.touch rfl rfl (fun _ _ => rfl) (fun j hj hne x hlo hhi => ?_) ?_,
    ?_, hb.1, le_trans hb.2 (le_trans hle.1 hle.2)⟩
  · exact (store_untouched (hspares j hne hj) hlo hhi).trans (hothers j hj hne x hlo hhi)
  · refine h.good_cur.congr fun x hlo hhi => ?_
    rw [← h.cpu] at hlo
    exact (store_untouched hclear (by omega) hhi).trans (hown x hlo)
  · have hframe : HoldsWords mem σ.cpu.frameAt σ.thread.ctx.frame := h.cpu ▸ hwords
    refine hframe.congr fun x hlo hhi => store_untouched hclear hlo ?_
    rw [Context.frame_length] at hhi
    omega

/-- What the keyboard handler does to the kernel keeps the invariant. -/
theorem Inv.pressed (h : Inv L idleStack σ) (hot : Hotkey) : Inv L idleStack (σ.pressed hot) := by
  cases hot with
  | ctrlC =>
      refine ⟨h.toOthers.exec rfl rfl (h.placed.exec_of_obtained rfl), ?_⟩
      have hcur : (σ.exec .killForeground).cur = σ.cur :=
        Kernel.exec_currentIdx fun _ => by rintro ⟨⟩
      show σ.cpu = (σ.threads (σ.exec .killForeground).cur).ctx
      rw [hcur]
      exact h.cpu
  | plain => exact h
  | ctrlR => exact h

theorem launch_kernel (σ : Board) (j : Slot) (stack entry : Nat) (argc : Int) (argv : Nat) :
    (σ.launch L j stack entry argc argv).kernel = σ.kernel := rfl

theorem launch_mem (σ : Board) (j : Slot) (stack entry : Nat) (argc : Int) (argv : Nat) :
    (σ.launch L j stack entry argc argv).mem =
      (setupInitialStack σ.mem stack entry argc argv L.trampoline).1 := rfl

theorem exec_mem (σ : Board) (op : Kernel.Op) : (σ.exec op).mem = σ.mem := rfl

theorem exec_kernel (σ : Board) (op : Kernel.Op) : (σ.exec op).kernel = σ.kernel.exec op := rfl

theorem pressed_cpu (σ : Board) (hot : Hotkey) :
    (σ.pressed hot).cpu = σ.cpu ∧ (σ.pressed hot).mem = σ.mem := by
  cases hot <;> exact ⟨rfl, rfl⟩

@[simp] theorem own_thread (σ : Board) (t : Thread) : (σ.own t).thread = t := by
  show Function.update σ.threads σ.cur t σ.cur = t
  exact Function.update_self ..

theorem Inv.run (h : Inv L idleStack σ) {c : Context} {ws : List (Nat × Nat)}
    (hg : guard L σ (.run c ws)) (hs : step L σ (.run c ws) = some σ') :
    Inv L idleStack σ' := by
  obtain ⟨hv, hlow, htop, hspares, hclear⟩ := hg
  obtain rfl := Option.some.inj hs
  refine ⟨h.toOthers.touch rfl rfl (fun j hj => Function.update_of_ne hj _ _)
    (fun j hj hne x hlo hhi => store_untouched (hspares j hne hj) hlo hhi) ?_, ?_⟩
  · show Good _ _ (store σ.mem ws) (Board.own _ _).thread
    rw [own_thread]
    refine .own hv hlow htop h.good_cur.nested fun f hf => ?_
    refine (h.good_cur.frames f hf).congr fun x hlo hhi => store_untouched (hclear f hf) hlo hhi
  · rw [own_thread]
    rfl

theorem Inv.int80 (h : Inv L idleStack σ) (hroom : Room L σ)
    (hs : step L σ .int80 = some σ') : Inv L idleStack σ' := by
  obtain ⟨mem, hrun, hwords, hothers, hown⟩ := h.enter hroom
  have hb := Context.frameAt_bounds hroom
  have hgood := h.good_cur
  simp only [step, hrun] at hs
  obtain rfl := Option.some.inj hs
  refine ⟨h.toOthers.touch rfl rfl (fun j hj => Function.update_of_ne hj _ _) hothers ?_, ?_⟩
  · show Good _ _ mem (Board.own _ _).thread
    rw [own_thread]
    have hv : σ.cpu.Valid := h.cpu ▸ hgood.valid
    refine .own (Context.inHandler_valid hv _) hb.1 le_rfl ?_ fun f hf => ?_
    · exact ⟨rfl, hv, hroom, h.rsp_le.1, hgood.nested⟩
    · rcases List.mem_cons.mp hf with rfl | hf
      · exact hwords
      · refine (hgood.frames f hf).congr fun x hlo _ => hown x ?_
        have := (hgood.nested.bounds f hf).1
        have := h.rsp_le.1
        omega
  · rw [own_thread]
    rfl

theorem Inv.timer (h : Inv L idleStack σ) {ws : List (Nat × Nat)} (hg : Handles L σ ws)
    (hs : step L σ (.timer ws) = some σ') : Inv L idleStack σ' := by
  obtain ⟨mem, hrun, hothers, hsaved⟩ := h.interrupted hg
  simp only [step, hrun] at hs
  obtain rfl := Option.some.inj hs
  exact hothers.switch hsaved

theorem Inv.key (h : Inv L idleStack σ) {hot : Hotkey} {ws : List (Nat × Nat)}
    (hg : Handles L (σ.pressed hot) ws) (hs : step L σ (.key hot ws) = some σ') :
    Inv L idleStack σ' ∧ (hot = .ctrlR → σ'.buffer = σ.cpu.shown) := by
  have h' := h.pressed hot
  obtain ⟨hcpu, hmem⟩ := σ.pressed_cpu hot
  obtain ⟨mem, hrun, hothers, hsaved⟩ := h'.interrupted hg
  rw [hcpu, hmem] at hrun
  rw [hcpu] at hsaved
  simp only [step, hrun] at hs
  obtain rfl := Option.some.inj hs
  have hgood := hothers.good _ h'.live_cur
  have hbound := h'.placed.bound h'.live_cur
  refine ⟨⟨⟨hothers.placed, hothers.good, hothers.saved⟩, ?_⟩, ?_⟩
  · exact hsaved.load hgood.valid hbound σ.cpu
  · rintro rfl
    exact hsaved.snapshot.trans (congrArg Context.shown h.cpu.symm)

/-- **The end of a system call** finds the frame of its beginning. -/
theorem Inv.ret80 (h : Inv L idleStack σ) {ws : List (Nat × Nat)} (hg : guard L σ (.ret80 ws))
    (hs : step L σ (.ret80 ws) = some σ') : Inv L idleStack σ' := by
  obtain ⟨hrsp, hspares, hclear⟩ := hg
  have hgood := h.good_cur
  rw [step] at hs
  rcases hthread : σ.thread with ⟨ctx, - | ⟨⟨a, c⟩, fs⟩, seen⟩
  · rw [hthread] at hs
    cases hs
  rw [hthread] at hs hrsp hgood
  replace hrsp : σ.cpu.rsp = a := hrsp
  rw [hrsp] at hclear
  simp only [hrsp] at hs
  set v := σ.cpu.regs .rax
  set mem := store (Function.update σ.mem (a + 8 * 14) v) ws with hmem
  obtain ⟨hgood', hsaved'⟩ := hgood.returned v hclear hmem
  have hb := hgood.nested.bounds (a, c) List.mem_cons_self
  have hothers : Others L idleStack ({ σ with mem := mem }.own ⟨c.setRax v, fs, mem⟩) := by
    refine h.toOthers.touch rfl rfl (fun j hj => Function.update_of_ne hj _ _)
      (fun j hj hne x hlo hhi => ?_) ?_
    · refine (store_untouched (hspares j hne hj) hlo hhi).trans (Function.update_of_ne ?_ _ _)
      rcases h.placed.apart hne hj h.live_cur with hd | hd
      · omega
      · omega
    · show Good _ _ mem ({ σ with mem := mem }.own _).thread
      rw [own_thread]
      exact hgood'
  have hsaved : SavedAt L ({ σ with mem := mem }.own ⟨c.setRax v, fs, mem⟩) σ.cur a := by
    show Saved _ _ a mem ({ σ with mem := mem }.own _).thread
    rw [own_thread]
    exact hsaved'
  split at hs
  · obtain rfl := Option.some.inj hs
    exact hothers.switch hsaved
  · obtain rfl := Option.some.inj hs
    refine ⟨⟨hothers.placed, hothers.good, hothers.saved⟩, ?_⟩
    exact hsaved.load (hothers.good _ hothers.live_cur).valid (h.placed.bound h.live_cur) σ.cpu

/-- **A creation**: the new process has its first frame. -/
theorem Inv.launch (h : Inv L idleStack σ) {op : Kernel.Op} {i : Slot} {stack : Nat}
    (hb : birth σ.kernel op = some (i, stack))
    (hplaced : Placed L idleStack (σ.kernel.exec op) (σ.grants.after σ.kernel op))
    (hfit : stack + stackSize < 2 ^ 64) (entry : Nat) (argc : Int) (argv : Nat) :
    Inv L idleStack ((σ.exec op).launch L i stack entry argc argv) := by
  obtain ⟨hdead, hready, hbase, -, -⟩ := born h.placed.owned hb
  have hi0 : i ≠ 0 := by
    rintro rfl
    exact h.placed.owned.sound.pids.idle.2.1 hdead
  have hne : σ.cur ≠ i := fun he => h.live_cur (he ▸ hdead)
  have hlow : L.low (σ.kernel.exec op) i = stack := by rw [Layout.low, if_neg hi0, hbase]
  have hhigh : L.high (σ.kernel.exec op) i = stack + stackSize := by
    rw [Layout.high, if_neg hi0, hbase]
  obtain ⟨hframe, hag⟩ := setupInitialStack_frame σ.mem entry argc argv L.trampoline hfit.le
  have hop := birth_some hb
  have htick : ∀ rsp, op ≠ .tick rsp := by
    obtain ⟨⟨name, pr, fg, rfl⟩, -⟩ := hop
    exact fun _ => by rintro ⟨⟩
  have hcur : (σ.exec op).cur = σ.cur := Kernel.exec_currentIdx htick
  -- Whoever else is alive was so before, and the new stack is apart from theirs.
  have hkept : ∀ j, (σ.exec op).Live j → j ≠ i →
      Kept L σ ((σ.exec op).launch L i stack entry argc argv) j := by
    intro j hj hji
    rcases survives h.placed.owned hj with ⟨hbefore, hsame⟩ | ⟨_, hb'⟩
    · refine ⟨hbefore, hsame, Function.update_of_ne hji _ _, fun x hlo hhi => ?_⟩
      rw [launch_mem, exec_mem]
      apply hag x
      have hd := hplaced.apart hji hj (by rw [hready]; rintro ⟨⟩)
      rw [low_same hsame, high_same hsame, hlow, hhigh] at hd
      omega
    · cases hb.symm.trans hb'
      exact absurd rfl hji
  have hnew : ((σ.exec op).launch L i stack entry argc argv).threads i =
      ⟨.initial stack entry argc argv, [], ((σ.exec op).launch L i stack entry argc argv).mem⟩ :=
    Function.update_self ..
  refine ⟨⟨hplaced, fun j hj => ?_, fun j hj hjc => ?_⟩, ?_⟩
  · -- every stack is as its process left it: the new one has been laid out just now
    by_cases hji : j = i
    · unfold GoodAt
      rw [hji, hnew, launch_kernel, exec_kernel, hlow, hhigh]
      refine .own (Context.initial_valid ..) ?_ (Nat.sub_le _ _) trivial ?_
      · show stack ≤ stack + stackSize - 8
        unfold stackSize
        omega
      · exact fun _ hf => absurd hf List.not_mem_nil
    · exact (hkept j hj hji).good (h.good j (hkept j hj hji).live)
  · -- whoever waits has its frame at the saved `rsp`: the new one the initial frame
    rw [launch_kernel, exec_kernel]
    by_cases hji : j = i
    · obtain ⟨⟨name, pr, fg, rfl⟩, hslot, hstack⟩ := hop
      have hr := initialRsp_add stack
      unfold SavedAt
      rw [hji, hnew, launch_kernel, launch_mem, exec_kernel, exec_mem, hlow, hhigh,
        Kernel.create_rsp hslot hstack, if_pos rfl]
      exact ⟨hframe, hr.2, hr.1.le⟩
    · have hlive := (hkept j hj hji).live
      rw [Kernel.exec_rsp htick hlive hj]
      exact (hkept j hj hji).saved (h.saved j hlive fun he => hjc (he.trans hcur.symm))
  · -- the creator runs on
    show σ.cpu = (((σ.exec op).launch L i stack entry argc argv).threads (σ.exec op).cur).ctx
    rw [hcur, (hkept σ.cur (hcur ▸ hplaced.owned.sound.pids.current) hne).thread]
    exact h.cpu

theorem Inv.piece (h : Inv L idleStack σ) {op : Kernel.Op} {entry : Nat} {argc : Int} {argv : Nat}
    (hg : guard L σ (.piece op entry argc argv))
    (hs : step L σ (.piece op entry argc argv) = some σ') : Inv L idleStack σ' := by
  obtain ⟨htick, hfresh, hplace⟩ := hg
  have hplaced := h.placed.exec hfresh hplace
  rw [step] at hs
  rcases hb : birth σ.kernel op with - | ⟨i, stack⟩
  · rw [hb] at hs
    obtain rfl := Option.some.inj hs
    refine ⟨h.toOthers.exec htick hb hplaced, ?_⟩
    have hcur : (σ.exec op).cur = σ.cur := Kernel.exec_currentIdx (ne_tick htick)
    show σ.cpu = (σ.threads (σ.exec op).cur).ctx
    rw [hcur]
    exact h.cpu
  · rw [hb] at hs
    obtain rfl := Option.some.inj hs
    exact h.launch hb hplaced (hplace _ (born h.placed.owned hb).2.2.2.2).1 entry argc argv

/-- **Every step keeps the invariant.** -/
theorem step_inv (h : Inv L idleStack σ) {l : Label} (hg : guard L σ l)
    (hs : step L σ l = some σ') : Inv L idleStack σ' := by
  cases l with
  | run c ws => exact h.run hg hs
  | piece op entry argc argv => exact h.piece hg hs
  | int80 => exact h.int80 hg hs
  | ret80 ws => exact h.ret80 hg hs
  | timer ws => exact h.timer hg hs
  | key hot ws => exact (h.key hg hs).1

end Steps

end Board

end TP2Kernel
