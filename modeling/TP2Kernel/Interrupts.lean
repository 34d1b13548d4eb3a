/-
TP2Kernel/Interrupts.lean

The frames of `Kernel/asm/interrupts.asm`.  An interrupt puts twenty words on the
stack of the process it interrupts: the five words the processor pushes, after
aligning the stack pointer, and the fifteen of `pushState`.  `popState` and
`iretq` take them off again (`load`).  What is taken off is what was put on
(`load_frame`), as long as the twenty words are left alone in between.

`_irq01Handler` also copies a frame to `snapshot_buffer` when the driver has seen
Ctrl+R, in the order of the structure `CPURegisters` that `regsCmd` prints.
-/
import TP2Kernel.InitialStack

namespace TP2Kernel

/-- The registers of a process. -/
structure Context where
  regs : Reg → Nat
  rip : Nat
  cs : Nat
  rflags : Nat
  rsp : Nat
  ss : Nat

namespace Context

/-- Segment selectors have sixteen bits. -/
def Valid (c : Context) : Prop := c.cs < 2 ^ 16 ∧ c.ss < 2 ^ 16

instance (c : Context) : Decidable c.Valid := inferInstanceAs (Decidable (_ ∧ _))

/-- The registers in the order in which `pushState` names them. -/
def pushOrder : List Reg :=
  [.rax, .rbx, .rcx, .rdx, .rbp, .rdi, .rsi, .r8, .r9, .r10, .r11, .r12, .r13, .r14, .r15]

/-- The words of a frame, the lowest first. -/
def frame (c : Context) : List Nat :=
  Cpu.popOrder.map c.regs ++ [c.rip, c.cs, c.rflags, c.rsp, c.ss]

/-- Where the frame of an interrupt ends up: twenty words below the stack pointer
aligned to sixteen bytes. -/
def frameAt (c : Context) : Nat := c.rsp / 16 * 16 - 160

/-- The beginning of a handler: the memory and the stack pointer after the pushes of
the processor and of `pushState`. -/
def enter (c : Context) (mem : Cells) : Cells × Nat :=
  ([c.ss, c.rsp, c.rflags, c.cs, c.rip] ++ pushOrder.map c.regs).foldl pushWord
    (mem, c.rsp / 16 * 16)

/-- What the handler starts with: the registers are as they were, the gate of
`setup_IDT_entry` gives the selector `0x08` and turns off `TF`, `IF`, `NT` and `RF`. -/
def inHandler (c : Context) (handler : Nat) : Context :=
  { c with
    rip := handler, cs := 0x08, rflags := c.rflags &&& 0xFFFFFFFFFFFEBCFF, rsp := c.frameAt }

/-- The end of a handler: the stack is switched to `rsp` and the frame is taken from
it. -/
def load (mem : Cells) (rsp : Nat) (c : Context) : Context :=
  let cpu := Cpu.restore mem rsp ⟨c.regs, c.rip, c.cs, c.rflags, c.rsp, c.ss, []⟩
  ⟨cpu.regs, cpu.rip, cpu.cs, cpu.rflags, cpu.rsp, cpu.ss⟩

/-- `mov [rsp + 14*8], rax` in `_irq80Handler`: the answer of a system call. -/
def setRax (c : Context) (v : Nat) : Context := { c with regs := Function.update c.regs .rax v }

/-- The registers a process is dispatched with for the first time. -/
def initial (stackBase entry : Nat) (argc : Int) (argv : Nat) : Context where
  regs := fun r => if r = .rdi then toWord argc else if r = .rsi then argv else 0
  rip := entry
  cs := 0x08
  rflags := 0x202
  rsp := stackBase + stackSize - 8
  ss := 0

/-- The copy `_irq01Handler` makes of the frame at `f`. -/
def snapshot (mem : Cells) (f : Nat) : List Nat :=
  [14, 13, 12, 11, 10, 9, 8, 7, 6, 5, 4, 3, 2, 1, 0, 15, 18].map (fun i => mem (f + 8 * i)) ++
    [mem (f + 8 * 17) &&& 0xFFFFFFFFFFFEFFFF]

/-- The fields of `CPURegisters`: `rax` to `r15`, `rip`, `rsp` and `rflags`. -/
def shown (c : Context) : List Nat :=
  pushOrder.map c.regs ++ [c.rip, c.rsp, c.rflags &&& 0xFFFFFFFFFFFEFFFF]

/-! ### Frames -/

variable {c : Context} {mem : Cells}

theorem frame_length (c : Context) : 8 * c.frame.length = 160 := rfl

/-- **The pushes** lay the frame out below the aligned stack pointer and write nothing
else. -/
theorem enter_spec (mem : Cells) (hlo : 176 ≤ c.rsp) (hhi : c.rsp < 2 ^ 64) :
    ∃ mem', c.enter mem = (mem', c.frameAt) ∧ HoldsWords mem' c.frameAt c.frame ∧
      AgreeOutside c.frameAt (c.frameAt + 160) mem mem' := by
  have htop : c.frameAt + 160 = c.rsp / 16 * 16 := by
    unfold frameAt
    omega
  obtain ⟨mem', hrun, hwords, hag⟩ := @foldl_pushWord mem c.frameAt
    ([c.ss, c.rsp, c.rflags, c.cs, c.rip] ++ pushOrder.map c.regs) (by simp)
    (by show c.frameAt + 160 ≤ 2 ^ 64; omega)
  have hlen : 8 * ([c.ss, c.rsp, c.rflags, c.cs, c.rip] ++ pushOrder.map c.regs).length = 160 := rfl
  rw [hlen] at hrun hag
  refine ⟨mem', ?_, hwords, hag⟩
  rw [htop, w64_of_lt (by omega)] at hrun
  exact hrun

/-- **The pops** bring back the registers of a frame. -/
theorem load_frame {a : Nat} (hw : HoldsWords mem a c.frame) (hfit : a + 160 ≤ 2 ^ 64)
    (hv : c.Valid) (c₀ : Context) : load mem a c₀ = c := by
  set start : Cpu := ⟨c₀.regs, c₀.rip, c₀.cs, c₀.rflags, a, c₀.ss, []⟩ with hstart
  obtain ⟨hrsp, hregs, hrest, -⟩ := @Cpu.foldl_pop mem start Cpu.popOrder (Cpu.popOrder.map c.regs)
    [c.rip, c.cs, c.rflags, c.rsp, c.ss] rfl hw (by show a + 120 < 2 ^ 64; omega)
  have hpop : Cpu.popOrder.foldl (Cpu.pop mem) start = Cpu.popState mem start := rfl
  have hlen : start.rsp + 8 * Cpu.popOrder.length = a + 120 := rfl
  rw [hpop, hlen] at hrsp
  rw [hlen] at hrest
  rw [hpop] at hregs
  have hiret := Cpu.iretq_spec (c := Cpu.popState mem start) (by rw [hrsp]; exact hrest)
    (by rw [hrsp]; omega)
  have hall : (Cpu.popState mem start).regs = c.regs := by
    rw [hregs]
    funext r
    cases r <;> rfl
  have hrestore : Cpu.restore mem a ⟨c₀.regs, c₀.rip, c₀.cs, c₀.rflags, c₀.rsp, c₀.ss, []⟩ =
      Cpu.iretq mem (Cpu.popState mem start) := rfl
  simp only [load, hrestore, hiret, hall, Nat.mod_eq_of_lt hv.1, Nat.mod_eq_of_lt hv.2]

theorem inHandler_valid (hv : c.Valid) (handler : Nat) : (c.inHandler handler).Valid :=
  ⟨show 0x08 < 2 ^ 16 by decide, hv.2⟩

theorem setRax_valid (hv : c.Valid) (v : Nat) : (c.setRax v).Valid := hv

/-- The word of `rax` in a frame is the fifteenth. -/
theorem frame_setRax {a : Nat} (hw : HoldsWords mem a c.frame) (v : Nat) :
    HoldsWords (Function.update mem (a + 8 * 14) v) a (c.setRax v).frame := by
  have hframe : (c.setRax v).frame =
      (Cpu.popOrder.take 14).map c.regs ++ v :: [c.rip, c.cs, c.rflags, c.rsp, c.ss] := rfl
  rw [hframe]
  have hw' : HoldsWords mem a ((Cpu.popOrder.take 14).map c.regs ++
      c.regs .rax :: [c.rip, c.cs, c.rflags, c.rsp, c.ss]) := hw
  exact hw'.set v

theorem initial_valid (stackBase entry : Nat) (argc : Int) (argv : Nat) :
    (initial stackBase entry argc argv).Valid :=
  ⟨show 0x08 < 2 ^ 16 by decide, show 0 < 2 ^ 16 by decide⟩

/-- The snapshot of a frame shows its registers. -/
theorem snapshot_frame {f : Nat} (hw : HoldsWords mem f c.frame) : snapshot mem f = c.shown := by
  simp only [frame, Cpu.popOrder, List.map_cons, List.map_nil, List.cons_append, List.nil_append,
    HoldsWords, Nat.add_assoc] at hw
  obtain ⟨h0, h1, h2, h3, h4, h5, h6, h7, h8, h9, h10, h11, h12, h13, h14, h15, h16, h17, h18, h19,
    -⟩ := hw
  simp only [snapshot, shown, pushOrder, List.map_cons, List.map_nil, List.cons_append,
    List.nil_append, Nat.mul_zero, Nat.add_zero, h0]
  simp only [List.cons.injEq, and_true]
  exact ⟨h14, h13, h12, h11, h10, h9, h8, h7, h6, h5, h4, h3, h2, h1, trivial, h15, h18,
    congrArg (· &&& _) h17⟩

end Context

/-- `setup_initial_stack` writes inside the stack, and leaves the first frame of the
process at its top. -/
theorem setupInitialStack_frame (mem : Cells) {stackBase : Nat} (entry : Nat) (argc : Int)
    (argv trampoline : Nat) (hfit : stackBase + stackSize ≤ 2 ^ 64) :
    HoldsWords (setupInitialStack mem stackBase entry argc argv trampoline).1 (initialRsp stackBase)
        (Context.initial stackBase entry argc argv).frame ∧
      AgreeOutside stackBase (stackBase + stackSize) mem
        (setupInitialStack mem stackBase entry argc argv trampoline).1 := by
  have hslot : sub64 (w64 (stackBase + stackSize)) 8 = stackBase + stackSize - 8 := by
    have hsum : stackBase + stackSize = stackBase + stackSize - 8 + 8 := by
      unfold stackSize
      omega
    rw [hsum]
    exact sub64_step (by omega)
  obtain ⟨htop, hlow⟩ := initialRsp_add stackBase
  obtain ⟨mem', hrun, hwords, hag⟩ := @foldl_pushWord
    (Function.update mem (stackBase + stackSize - 8) trampoline) (initialRsp stackBase)
    (frameWords (stackBase + stackSize - 8) entry argc argv) (by simp [frameWords])
    (by show initialRsp stackBase + 160 ≤ 2 ^ 64; omega)
  rw [show 8 * (frameWords _ entry argc argv).length = 160 from rfl, htop] at hrun hag
  have hsetup : setupInitialStack mem stackBase entry argc argv trampoline =
      (mem', initialRsp stackBase) := by
    rw [setupInitialStack, hslot]
    exact hrun
  rw [hsetup]
  refine ⟨hwords, ?_⟩
  have hslot' : AgreeOutside stackBase (stackBase + stackSize) mem
      (Function.update mem (stackBase + stackSize - 8) trampoline) :=
    .update mem trampoline (by unfold stackSize; omega) (by unfold stackSize; omega)
  exact hslot'.trans (hag.mono hlow le_rfl)

end TP2Kernel
