/-
TP2Kernel/InitialStack.lean

The first dispatch of a process.  `setup_initial_stack` writes a frame of twenty
words downwards from the end of the stack; the timer handler takes it apart
upwards, with the pops of `popState` and with `iretq`.

The two agree on every register (`restored_frame`).  They do not agree on the
return address.  It is written to the highest word of the stack, through
`return_slot`, and the first push of the frame goes to the same word: the word
`rsp` points to is the `SS` of the frame, zero.
-/
import TP2Kernel.Words
import TP2Kernel.Scheduler

namespace TP2Kernel

/-! ### Writing the frame -/

/-- The conversion of an `int` to `uint64_t`. -/
def toWord (n : Int) : Nat := (n % 2 ^ 64).toNat

/-- The words of the frame in the order of the pushes. -/
def frameWords (returnSlot entry : Nat) (argc : Int) (argv : Nat) : List Nat :=
  -- SS, RSP, RFLAGS, CS, RIP
  [0x00, returnSlot, 0x202, 0x08, entry,
  -- rax, rbx, rcx, rdx, rbp, rdi, rsi
    0, 0, 0, 0, 0, toWord argc, argv,
  -- r8 to r15
    0, 0, 0, 0, 0, 0, 0, 0]

/-- `setup_initial_stack`: the memory it leaves and the `rsp` it stores.
`trampoline` is the address of `process_exit_trampoline`. -/
def setupInitialStack (mem : Cells) (stackBase entry : Nat) (argc : Int)
    (argv trampoline : Nat) : Cells × Nat :=
  let sp := w64 (stackBase + stackSize)
  let returnSlot := sub64 sp 8
  let mem := Function.update mem returnSlot trampoline
  (frameWords returnSlot entry argc argv).foldl pushWord (mem, sp)

/-! ### Taking it apart -/

/-- The general registers, without the stack pointer. -/
inductive Reg
  | rax | rbx | rcx | rdx | rbp | rdi | rsi | r8 | r9 | r10 | r11 | r12 | r13 | r14 | r15
  deriving DecidableEq, Repr

/-- The processor, with the addresses it has read from the stack. -/
structure Cpu where
  regs : Reg → Nat
  rip : Nat
  cs : Nat
  rflags : Nat
  rsp : Nat
  ss : Nat
  touched : List Nat

namespace Cpu

/-- `pop`. -/
def pop (mem : Cells) (c : Cpu) (r : Reg) : Cpu :=
  { c with
    regs := Function.update c.regs r (mem c.rsp), rsp := w64 (c.rsp + 8),
    touched := c.rsp :: c.touched }

/-- The registers in the order in which `popState` names them. -/
def popOrder : List Reg :=
  [.r15, .r14, .r13, .r12, .r11, .r10, .r9, .r8, .rsi, .rdi, .rbp, .rdx, .rcx, .rbx, .rax]

/-- `popState`. -/
def popState (mem : Cells) (c : Cpu) : Cpu := popOrder.foldl (pop mem) c

/-- `iretq`: `RIP`, `CS`, `RFLAGS`, `RSP` and `SS`.  A selector takes the low
half-word of its word. -/
def iretq (mem : Cells) (c : Cpu) : Cpu :=
  { c with
    rip := mem c.rsp
    cs := mem (w64 (c.rsp + 8)) % 2 ^ 16
    rflags := mem (w64 (c.rsp + 16))
    rsp := mem (w64 (c.rsp + 24))
    ss := mem (w64 (c.rsp + 32)) % 2 ^ 16
    touched := [c.rsp, w64 (c.rsp + 8), w64 (c.rsp + 16), w64 (c.rsp + 24), w64 (c.rsp + 32)]
      ++ c.touched }

/-- `ret`. -/
def ret (mem : Cells) (c : Cpu) : Cpu :=
  { c with rip := mem c.rsp, rsp := w64 (c.rsp + 8), touched := c.rsp :: c.touched }

/-- The end of `_irq00Handler`: the stack is switched to `rsp` and the frame is
taken from it. -/
def restore (mem : Cells) (rsp : Nat) (c : Cpu) : Cpu :=
  iretq mem (popState mem { c with rsp := rsp, touched := [] })

/-- **Pops in a row** load the registers with the words of the stack from the
lowest one on. -/
theorem foldl_pop {mem : Cells} {c : Cpu} {rs : List Reg} {ws rest : List Nat}
    (hlen : rs.length = ws.length) (hw : HoldsWords mem c.rsp (ws ++ rest))
    (hfit : c.rsp + 8 * rs.length < 2 ^ 64) :
    (rs.foldl (pop mem) c).rsp = c.rsp + 8 * rs.length ∧
      (rs.foldl (pop mem) c).regs
        = (rs.zip ws).foldl (fun f q => Function.update f q.1 q.2) c.regs ∧
      HoldsWords mem (c.rsp + 8 * rs.length) rest ∧
      ∀ a ∈ (rs.foldl (pop mem) c).touched,
        a ∈ c.touched ∨ (c.rsp ≤ a ∧ a + 8 ≤ c.rsp + 8 * rs.length) := by
  induction rs generalizing c ws with
  | nil =>
      obtain rfl : ws = [] := List.eq_nil_of_length_eq_zero hlen.symm
      exact ⟨rfl, rfl, hw, fun a ha => .inl ha⟩
  | cons r rs ih =>
      obtain ⟨w, ws, rfl⟩ : ∃ w ws', ws = w :: ws' :=
        List.exists_cons_of_length_pos (by rw [← hlen]; simp)
      rw [List.length_cons] at hfit ⊢
      obtain ⟨hhead, hw⟩ := hw
      have hrsp : (pop mem c r).rsp = c.rsp + 8 := w64_of_lt (by omega)
      have hregs : (pop mem c r).regs = Function.update c.regs r w := by
        rw [← hhead]
        rfl
      obtain ⟨h₁, h₂, h₃, h₄⟩ := @ih (pop mem c r) ws (by simpa using hlen)
        (by rw [hrsp]; exact hw) (by rw [hrsp]; omega)
      have hsum : c.rsp + 8 + 8 * rs.length = c.rsp + 8 * (rs.length + 1) := by omega
      rw [hrsp, hsum] at h₁ h₃
      rw [hregs] at h₂
      refine ⟨h₁, h₂, h₃, fun a ha => ?_⟩
      rcases h₄ a ha with hold | ⟨hlo, hhi⟩
      · rcases List.mem_cons.mp hold with rfl | hold
        · exact .inr ⟨le_rfl, by omega⟩
        · exact .inl hold
      · rw [hrsp] at hlo hhi
        exact .inr ⟨by omega, by omega⟩

theorem iretq_spec {mem : Cells} {c : Cpu} {rip cs rflags rsp ss : Nat}
    (hw : HoldsWords mem c.rsp [rip, cs, rflags, rsp, ss]) (hfit : c.rsp + 40 ≤ 2 ^ 64) :
    iretq mem c =
      { c with
        rip := rip, cs := cs % 2 ^ 16, rflags := rflags, rsp := rsp, ss := ss % 2 ^ 16,
        touched := [c.rsp, c.rsp + 8, c.rsp + 16, c.rsp + 24, c.rsp + 32] ++ c.touched } := by
  obtain ⟨h₁, h₂, h₃, h₄, h₅, -⟩ := hw
  simp only [iretq]
  rw [w64_of_lt (n := c.rsp + 8) (by omega), w64_of_lt (n := c.rsp + 16) (by omega),
    w64_of_lt (n := c.rsp + 24) (by omega), w64_of_lt (n := c.rsp + 32) (by omega), h₁, h₂, h₃,
    h₄, h₅]

end Cpu

/-! ### The frame as it is restored -/

theorem initialRsp_add (stackBase : Nat) :
    initialRsp stackBase + 160 = stackBase + stackSize ∧ stackBase ≤ initialRsp stackBase := by
  unfold initialRsp stackSize
  omega

/-- The stack that is left: `rsp` is where the scheduler's model has it, the
frame lies above it, and the highest word is the `SS` of the frame. -/
theorem setupInitialStack_spec (mem : Cells) {stackBase : Nat} (entry : Nat) (argc : Int)
    (argv trampoline : Nat) (hfit : stackBase + stackSize ≤ 2 ^ 64) :
    ∃ mem', setupInitialStack mem stackBase entry argc argv trampoline
        = (mem', initialRsp stackBase) ∧
      HoldsWords mem' (initialRsp stackBase)
        ([0, 0, 0, 0, 0, 0, 0, 0, argv, toWord argc, 0, 0, 0, 0, 0] ++
          [entry, 0x08, 0x202, stackBase + stackSize - 8, 0]) := by
  have hslot : sub64 (w64 (stackBase + stackSize)) 8 = stackBase + stackSize - 8 := by
    have hsum : stackBase + stackSize = stackBase + stackSize - 8 + 8 := by
      unfold stackSize
      omega
    rw [hsum]
    exact sub64_step (by omega)
  have htop := (initialRsp_add stackBase).1
  obtain ⟨mem', hrun, hwords, -⟩ := @foldl_pushWord
    (Function.update mem (stackBase + stackSize - 8) trampoline) (initialRsp stackBase)
    (frameWords (stackBase + stackSize - 8) entry argc argv) (by simp [frameWords])
    (by show initialRsp stackBase + 160 ≤ 2 ^ 64; omega)
  rw [show 8 * (frameWords _ entry argc argv).length = 160 from rfl, htop] at hrun
  refine ⟨mem', ?_, hwords⟩
  rw [setupInitialStack, hslot]
  exact hrun

/-- **The frame as it is restored**, for every stack, entry and argument: the
process starts at its entry with its arguments, the flags and selectors are
those of a kernel process with interrupts enabled, and only words of its stack
have been read.  The word at the restored `rsp` is zero, so a `ret` of the entry
function finds the trampoline only if that is at address zero. -/
theorem restored_frame (mem : Cells) {stackBase : Nat} (entry : Nat) (argc : Int)
    (argv trampoline : Nat) (c : Cpu) (hfit : stackBase + stackSize ≤ 2 ^ 64) :
    ∃ mem' rsp c', setupInitialStack mem stackBase entry argc argv trampoline = (mem', rsp) ∧
      c' = Cpu.restore mem' rsp c ∧
      c'.rip = entry ∧ c'.regs .rdi = toWord argc ∧ c'.regs .rsi = argv ∧
      (∀ r, r ≠ .rdi → r ≠ .rsi → c'.regs r = 0) ∧
      c'.rflags = 0x202 ∧ c'.cs = 0x08 ∧ c'.ss = 0 ∧
      (∀ a ∈ c'.touched, stackBase ≤ a ∧ a + 8 ≤ stackBase + stackSize) ∧
      c'.rsp = stackBase + stackSize - 8 ∧ mem' c'.rsp = 0 ∧
      ((Cpu.ret mem' c').rip = trampoline ↔ trampoline = 0) := by
  obtain ⟨mem', hsetup, hwords⟩ := setupInitialStack_spec mem entry argc argv trampoline hfit
  obtain ⟨htop, hlow⟩ := initialRsp_add stackBase
  set start : Cpu := { c with rsp := initialRsp stackBase, touched := [] } with hstart
  -- the fifteen pops
  obtain ⟨hrsp, hregs, hrest, htouched⟩ := @Cpu.foldl_pop mem' start Cpu.popOrder _ _ rfl hwords
    (by show initialRsp stackBase + 120 < 2 ^ 64; omega)
  have hlen : start.rsp + 8 * Cpu.popOrder.length = initialRsp stackBase + 120 := rfl
  have hpop : Cpu.popOrder.foldl (Cpu.pop mem') start = Cpu.popState mem' start := rfl
  rw [hlen, hpop] at hrsp htouched
  rw [hlen] at hrest
  rw [hpop] at hregs
  -- and `iretq`
  have hiret := Cpu.iretq_spec (c := Cpu.popState mem' start) (by rw [hrsp]; exact hrest)
    (by rw [hrsp]; omega)
  have hzero : mem' (stackBase + stackSize - 8) = 0 := by
    have hlast := (@holdsWords_concat mem' _ _ [0, 0, 0, 0, 0, 0, 0, 0, argv, toWord argc, 0,
      0, 0, 0, 0, entry, 0x08, 0x202, stackBase + stackSize - 8]).mp hwords
    rw [show stackBase + stackSize - 8 = initialRsp stackBase + 8 * 19 by omega]
    exact hlast.2
  refine ⟨mem', _, _, hsetup, rfl, ?_⟩
  rw [Cpu.restore, ← hstart, hiret]
  refine ⟨rfl, ?_, ?_, ?_, rfl, rfl, rfl, ?_, rfl, hzero, ?_⟩
  · exact congrFun hregs .rdi
  · exact congrFun hregs .rsi
  · intro r hdi hsi
    refine (congrFun hregs r).trans ?_
    cases r <;> first | exact absurd rfl hdi | exact absurd rfl hsi | rfl
  · intro a ha
    rcases List.mem_append.mp ha with ha | ha
    · simp only [hrsp, List.mem_cons, List.not_mem_nil, or_false] at ha
      omega
    · rcases htouched a ha with ha | ⟨hlo, hhi⟩
      · simp [hstart] at ha
      · have hlo' : initialRsp stackBase ≤ a := hlo
        omega
  · show mem' (stackBase + stackSize - 8) = trampoline ↔ trampoline = 0
    rw [hzero]
    exact eq_comm

/-- A process with two arguments on a stack at `0x1000`. -/
theorem restored_frame_small : ∃ mem' rsp c',
    setupInitialStack (fun _ => 0) 0x1000 0x400000 2 0x600000 0x101000 = (mem', rsp) ∧
      c' = Cpu.restore mem' rsp ⟨fun _ => 0, 0, 0, 0, 0, 0, []⟩ ∧ c'.rip = 0x400000 ∧
      c'.regs .rdi = 2 ∧ c'.regs .rsi = 0x600000 := by
  obtain ⟨mem', rsp, c', hsetup, hc, hrip, hdi, hsi, -⟩ := restored_frame (fun _ => 0) 0x400000 2
    0x600000 0x101000 ⟨fun _ => 0, 0, 0, 0, 0, 0, []⟩ (by decide : 0x1000 + stackSize ≤ _)
  exact ⟨mem', rsp, c', hsetup, hc, hrip, hdi, hsi⟩

/-- The same process returns from its entry function to address zero. -/
theorem return_slot_overwritten : ∃ mem' rsp c',
    setupInitialStack (fun _ => 0) 0x1000 0x400000 2 0x600000 0x101000 = (mem', rsp) ∧
      c' = Cpu.restore mem' rsp ⟨fun _ => 0, 0, 0, 0, 0, 0, []⟩ ∧ c'.rsp = 0x1ff8 ∧
      mem' c'.rsp ≠ 0x101000 ∧ (Cpu.ret mem' c').rip = 0 :=
  ⟨_, _, _, rfl, rfl, by decide +kernel, by decide +kernel, by decide +kernel⟩

end TP2Kernel
