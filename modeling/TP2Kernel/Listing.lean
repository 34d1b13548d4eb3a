/-
TP2Kernel/Listing.lean

`syscall_ps` of `Kernel/syscalls_kernel.c`, which writes the process table as text
into a buffer of the caller.  The helpers share three variables: where the next
character goes, how many bytes of the buffer remain, and how many characters have
been written.  A character is dropped when only the place of the NUL remains, so
whatever the helpers are asked to write, the buffer gets a piece from its front.

Every helper amounts to giving the characters of some text to `append_char` one
after the other, and then only that loop has to be looked at.
-/
import TP2Kernel.CMemory
import TP2Kernel.Numerals
import TP2Kernel.Scheduler

namespace TP2Kernel

/-! ### The helpers -/

/-- The buffer, and the variables `out`, `rem` and `written`. -/
structure Writer where
  mem : ByteMem
  out : Int
  rem : Int
  written : Int

namespace Writer

/-- `append_char`. -/
def appendChar (w : Writer) (c : UInt8) : Writer :=
  -- one byte is kept for the NUL
  if w.rem ≤ 1 then w
  else ⟨Function.update w.mem w.out c, w.out + 1, w.rem - 1, w.written + 1⟩

/-- `append_str`; the string ends at its first NUL. -/
def appendStr : Writer → List UInt8 → Writer
  | w, [] => w
  | w, c :: cs => if c = 0 then w else appendStr (w.appendChar c) cs

/-- `append_uint`; the digits go through `buffer[32]`. -/
def appendUint (w : Writer) (value base : Nat) : Writer :=
  if value = 0 then w.appendChar 48
  else ((peel base 32 value).map digitChar).reverse.foldl appendChar w

/-- `append_int`. -/
def appendInt (w : Writer) (value : Int) : Writer :=
  if value < 0 then
    (w.appendChar 45).appendUint (Int.bmod (-value) (2 ^ 32) % (2 ^ 64 : Nat)).toNat 10
  else w.appendUint value.toNat 10

end Writer

/-! ### The listing -/

/-- The number of a state. -/
def ProcState.code : ProcState → Int
  | .ready => 0
  | .running => 1
  | .blocked => 2
  | .dead => 3
  | .zombie => 4

/-- `scheduler_list`. -/
def Sched.schedulerList (s : Sched) (max : Nat) : List PCB :=
  ((allSlots.map s.processTable).filter fun p => p.state ≠ .dead).take max

/-- One round of the loop of `syscall_ps`. -/
def psLine (w : Writer) (p : PCB) : Writer :=
  let w := w.appendStr p.name
  -- `" PID="`, `" PRI="`, `" FG="`, `" RSP=0x"`, `" BASE=0x"` and `" STATE="`
  let w := w.appendStr [32, 80, 73, 68, 61]
  let w := w.appendInt p.pid
  let w := w.appendStr [32, 80, 82, 73, 61]
  let w := w.appendInt p.priority
  let w := w.appendStr [32, 70, 71, 61]
  let w := w.appendInt p.foreground
  let w := w.appendStr [32, 82, 83, 80, 61, 48, 120]
  let w := w.appendUint p.rsp 16
  let w := w.appendStr [32, 66, 65, 83, 69, 61, 48, 120]
  let w := w.appendUint p.stackBase 16
  let w := w.appendStr [32, 83, 84, 65, 84, 69, 61]
  let w := w.appendInt p.state.code
  w.appendChar 10

/-- `for (int i = 0; i < count && rem > 1; i++)`. -/
def psLoop : Writer → List PCB → Writer
  | w, [] => w
  | w, p :: ps => if 1 < w.rem then psLoop (psLine w p) ps else w

/-- `syscall_ps`: the memory afterwards and the value returned. -/
def syscallPs (s : Sched) (mem : ByteMem) (buf : Int) (maxLen : Nat) : ByteMem × Int :=
  let w := psLoop ⟨mem, buf, Int.bmod maxLen (2 ^ 32), 0⟩ (s.schedulerList maxProcesses)
  (if 0 < w.rem then Function.update w.mem w.out 0 else w.mem, w.written)

/-! ### Helpers and texts -/

namespace Writer

/-- Give the characters of a text to `append_char`. -/
def appendText (w : Writer) (text : List UInt8) : Writer := text.foldl appendChar w

theorem appendText_append (w : Writer) (t u : List UInt8) :
    (w.appendText t).appendText u = w.appendText (t ++ u) := (List.foldl_append).symm

theorem appendChar_eq (w : Writer) (c : UInt8) : w.appendChar c = w.appendText [c] := rfl

/-- Once only the place of the NUL remains, nothing is written any more. -/
theorem appendText_of_full {w : Writer} (h : w.rem ≤ 1) (text : List UInt8) :
    w.appendText text = w := by
  induction text with
  | nil => rfl
  | cons c cs ih =>
      have hc : w.appendChar c = w := if_pos h
      rwa [appendText, List.foldl_cons, hc]

theorem appendStr_eq (w : Writer) (str : List UInt8) :
    w.appendStr str = w.appendText (str.takeWhile (· ≠ 0)) := by
  induction str generalizing w with
  | nil => rfl
  | cons c cs ih =>
      rw [appendStr]
      by_cases hc : c = 0
      · rw [if_pos hc, List.takeWhile_cons_of_neg (by simpa using hc)]
        rfl
      · rw [if_neg hc, List.takeWhile_cons_of_pos (by simpa using hc), ih]
        rfl

/-- `buffer[32]` is large enough for 64 bits in every base. -/
theorem appendUint_eq (w : Writer) {value base : Nat} (hv : value < 2 ^ 64) (hb : 10 ≤ base) :
    w.appendUint value base = w.appendText (numeral base value) := by
  have hroom : value < base ^ 32 := by
    refine hv.trans_le ((?_ : 2 ^ 64 ≤ 10 ^ 32).trans (Nat.pow_le_pow_left hb 32))
    norm_num
  unfold appendUint numeral
  split
  · rfl
  · rw [peel_eq_digits (by omega) 32 hroom]
    rfl

end Writer

/-- The decimal text of an integer. -/
def integerText (z : Int) : List UInt8 :=
  if z < 0 then 45 :: numeral 10 z.natAbs else numeral 10 z.natAbs

theorem Writer.appendInt_eq (w : Writer) {z : Int} (h : -2 ^ 31 < z ∧ z < 2 ^ 31) :
    w.appendInt z = w.appendText (integerText z) := by
  unfold appendInt integerText
  split
  -- `-value` does not wrap around, since the least `int` is excluded
  · have hneg : Int.bmod (-z) (2 ^ 32) = -z := Int.bmod_eq_of_le (by omega) (by omega)
    have habs : (Int.bmod (-z) (2 ^ 32) % (2 ^ 64 : Nat)).toNat = z.natAbs := by
      rw [hneg]
      omega
    rw [habs, appendUint_eq _ (by omega) le_rfl, appendChar_eq, appendText_append]
    rfl
  · have habs : z.toNat = z.natAbs := by omega
    rw [habs, appendUint_eq _ (by omega) le_rfl]

/-- The line of a process. -/
def lineText (p : PCB) : List UInt8 :=
  p.name.takeWhile (· ≠ 0) ++ [32, 80, 73, 68, 61] ++ integerText p.pid ++
    [32, 80, 82, 73, 61] ++ integerText p.priority ++ [32, 70, 71, 61] ++
    integerText p.foreground ++ [32, 82, 83, 80, 61, 48, 120] ++ numeral 16 p.rsp ++
    [32, 66, 65, 83, 69, 61, 48, 120] ++ numeral 16 p.stackBase ++
    [32, 83, 84, 65, 84, 69, 61] ++ integerText p.state.code ++ [10]

/-- The whole listing: a line for each slot that is not `DEAD`, in the order of the
table. -/
def listing (s : Sched) : List UInt8 :=
  ((allSlots.map s.processTable).filter fun p => p.state ≠ .dead).flatMap lineText

/-- The fields are what their C types can hold, and the `int`s are not the least
one. -/
@[mk_iff]
structure PCB.Sized (p : PCB) : Prop where
  pid : -2 ^ 31 < p.pid ∧ p.pid < 2 ^ 31
  priority : -2 ^ 31 < p.priority ∧ p.priority < 2 ^ 31
  foreground : -2 ^ 31 < p.foreground ∧ p.foreground < 2 ^ 31
  rsp : p.rsp < 2 ^ 64
  stackBase : p.stackBase < 2 ^ 64

instance (p : PCB) : Decidable p.Sized := decidable_of_iff _ p.sized_iff.symm

theorem ProcState.code_range (s : ProcState) : -2 ^ 31 < s.code ∧ s.code < 2 ^ 31 := by
  cases s <;> decide

theorem psLine_eq (w : Writer) {p : PCB} (h : p.Sized) : psLine w p = w.appendText (lineText p) := by
  unfold psLine lineText
  simp only [Writer.appendStr_eq, Writer.appendInt_eq _ h.pid, Writer.appendInt_eq _ h.priority,
    Writer.appendInt_eq _ h.foreground, Writer.appendInt_eq _ p.state.code_range,
    Writer.appendUint_eq _ h.rsp (by decide : 10 ≤ 16),
    Writer.appendUint_eq _ h.stackBase (by decide : 10 ≤ 16), Writer.appendChar_eq,
    Writer.appendText_append]
  rfl

theorem psLoop_eq (w : Writer) {ps : List PCB} (h : ∀ p ∈ ps, p.Sized) :
    psLoop w ps = w.appendText (ps.flatMap lineText) := by
  induction ps generalizing w with
  | nil => rfl
  | cons p ps ih =>
      rw [psLoop]
      split
      · rw [ih _ fun q hq => h q (List.mem_cons_of_mem _ hq), psLine_eq w (h p List.mem_cons_self),
          Writer.appendText_append]
        rfl
      -- `rem > 1` ends the loop early; the lines left out would not have been written
      · rename_i hrem
        exact (Writer.appendText_of_full (by omega) _).symm

/-! ### What the buffer gets -/

/-- **A text given to `append_char`** arrives up to the place of the NUL. -/
theorem Writer.appendText_spec (w : Writer) (text : List UInt8) {n : Nat}
    (hn : n = min text.length (w.rem - 1).toNat) :
    (w.appendText text).mem.Holds w.out (text.take n) ∧ (w.appendText text).out = w.out + n ∧
      (w.appendText text).rem = w.rem - n ∧ (w.appendText text).written = w.written + n ∧
      Set.EqOn (w.appendText text).mem w.mem (outside w.out (w.out + n)) := by
  induction text generalizing w n with
  | nil =>
      have h0 : n = 0 := by simpa using hn
      subst h0
      refine ⟨trivial, ?_, ?_, ?_, fun _ _ => rfl⟩
      · show w.out = w.out + 0
        omega
      · show w.rem = w.rem - 0
        omega
      · show w.written = w.written + 0
        omega
  | cons c cs ih =>
      -- the writer is full already, or it takes `c` and goes on behind it
      by_cases hrem : w.rem ≤ 1
      · have h0 : n = 0 := by
          rw [hn, Int.toNat_of_nonpos (by omega)]
          exact Nat.min_zero _
        subst h0
        rw [appendText_of_full hrem]
        exact ⟨trivial, by simp, by simp, by simp, fun _ _ => rfl⟩
      · have hw : w.appendChar c =
            ⟨Function.update w.mem w.out c, w.out + 1, w.rem - 1, w.written + 1⟩ := if_neg hrem
        obtain ⟨k, rfl⟩ : ∃ k, n = k + 1 := by
          refine Nat.exists_eq_succ_of_ne_zero ?_
          rw [List.length_cons] at hn
          omega
        have hk : k = min cs.length ((w.appendChar c).rem - 1).toNat := by
          rw [hw]
          rw [List.length_cons] at hn
          show k = min cs.length (w.rem - 1 - 1).toNat
          omega
        obtain ⟨hholds, hout, hrem', hwritten, hframe⟩ := ih (w.appendChar c) hk
        have hstep : w.appendText (c :: cs) = (w.appendChar c).appendText cs := rfl
        rw [hstep]
        rw [hw] at hholds hout hrem' hwritten hframe ⊢
        dsimp only at hholds hout hrem' hwritten hframe
        refine ⟨⟨?_, hholds⟩, ?_, ?_, ?_, ?_⟩
        -- the later characters go behind `c`
        · refine (hframe ?_).trans (Function.update_self _ _ _)
          exact .inl (by omega)
        · rw [hout]
          omega
        · rw [hrem']
          omega
        · rw [hwritten]
          omega
        · refine Set.EqOn.trans (eqOn_widen hframe (by omega) (by omega)) ?_
          exact eqOn_update c le_rfl (by omega)

theorem schedulerList_all (s : Sched) :
    s.schedulerList maxProcesses =
      (allSlots.map s.processTable).filter fun p => p.state ≠ .dead := by
  refine List.take_of_length_le ((List.length_filter_le _ _).trans ?_)
  rw [List.length_map]
  exact (List.length_finRange).le

/-- How much of the listing finds room in front of the NUL. -/
def listed (s : Sched) (maxLen : Nat) : Nat := min (listing s).length (maxLen - 1)

/-- **The listing is cut off cleanly**: `syscall_ps` returns how many bytes it has
written, these are the first bytes of the listing, there is a NUL behind them, and
no byte outside the buffer changes. -/
theorem syscallPs_truncates {s : Sched}
    (hs : ∀ i, (s.processTable i).state ≠ .dead → (s.processTable i).Sized) (mem : ByteMem)
    (buf : Int) {maxLen : Nat} (hmax : maxLen < 2 ^ 31) :
    (syscallPs s mem buf maxLen).2 = listed s maxLen ∧
    (syscallPs s mem buf maxLen).1.Holds buf ((listing s).take (listed s maxLen)) ∧
    (0 < maxLen → (syscallPs s mem buf maxLen).1 (buf + listed s maxLen) = 0) ∧
    Set.EqOn (syscallPs s mem buf maxLen).1 mem (outside buf (buf + maxLen)) := by
  have hrem : Int.bmod (maxLen : Int) (2 ^ 32) = maxLen := Int.bmod_eq_of_le (by omega) (by omega)
  have hlist : ∀ p ∈ s.schedulerList maxProcesses, p.Sized := by
    rw [schedulerList_all]
    intro p hp
    obtain ⟨hmem, halive⟩ := List.mem_filter.mp hp
    obtain ⟨i, -, rfl⟩ := List.mem_map.mp hmem
    exact hs i (by simpa using halive)
  -- `rem` is an `int`, and a length below `2 ^ 31` keeps its value
  have htext : psLoop ⟨mem, buf, Int.bmod maxLen (2 ^ 32), 0⟩ (s.schedulerList maxProcesses) =
      Writer.appendText ⟨mem, buf, maxLen, 0⟩ (listing s) := by
    rw [psLoop_eq _ hlist, schedulerList_all, hrem]
    rfl
  have hn : listed s maxLen = min (listing s).length ((maxLen : Int) - 1).toNat := by
    unfold listed
    omega
  have hle : listed s maxLen ≤ maxLen - 1 := Nat.min_le_right _ _
  obtain ⟨hholds, hout, hleft, hwritten, hframe⟩ :=
    Writer.appendText_spec ⟨mem, buf, maxLen, 0⟩ (listing s) hn
  unfold syscallPs
  rw [htext]
  generalize Writer.appendText ⟨mem, buf, maxLen, 0⟩ (listing s) = w at hholds hout hleft hwritten hframe
  generalize listed s maxLen = n at hholds hout hleft hwritten hframe hle
  dsimp only at hholds hout hleft hwritten hframe ⊢
  refine ⟨hwritten.trans (Int.zero_add _), ?_⟩
  by_cases hpos : 0 < maxLen
  · rw [if_pos (by omega), hout]
    refine ⟨?_, fun _ => Function.update_self _ _ _, ?_⟩
    · -- the NUL comes behind what has been written
      refine (ByteMem.Holds.congr fun x hx hx' => ?_).mpr hholds
      have hlen := List.length_take_le n (listing s)
      exact Function.update_of_ne (by omega) _ _
    · refine Set.EqOn.trans (eqOn_update 0 (by omega) (by omega)) ?_
      exact eqOn_widen hframe le_rfl (by omega)
  · rw [if_neg (by omega)]
    exact ⟨hholds, fun h => absurd h hpos, eqOn_widen hframe le_rfl (by omega)⟩

/-- The shell has been created and dispatched, and has created a process. -/
def sampleTable : Sched :=
  ((((Sched.schedulerInit 1000).schedulerCreate [115, 104] 3 1 5000).1.schedulerTick 0).1
    |>.schedulerCreate [99] 2 0 9000).1

/-- Its listing has three lines, and eighty bytes end in the second one. -/
theorem syscallPs_truncates_three :
    (syscallPs sampleTable (fun _ => 255) 100 80).2 = 79 ∧
    (syscallPs sampleTable (fun _ => 255) 100 80).1 179 = 0 ∧
    (syscallPs sampleTable (fun _ => 255) 100 80).1 180 = 255 := by
  have hs : ∀ i, (sampleTable.processTable i).state ≠ .dead →
      (sampleTable.processTable i).Sized := by decide +kernel
  have hlisted : listed sampleTable 80 = 79 := by decide +kernel
  obtain ⟨hret, -, hnul, hout⟩ :=
    syscallPs_truncates hs (fun _ => 255) 100 (show 80 < 2 ^ 31 by decide)
  rw [hlisted] at hret hnul
  have hlast : (100 : Int) + (79 : Nat) = 179 := by decide
  rw [hlast] at hnul
  have hbehind : (syscallPs sampleTable (fun _ => 255) 100 80).1 180 = (fun _ => 255) (180 : Int) :=
    hout (x := 180) (.inr (by decide))
  exact ⟨hret, hnul (by decide), hbehind⟩

end TP2Kernel
