/-
TP2Kernel/RingBuffer.lean

Ring buffers and the history of their transfers.  A buffer keeps its elements in a
window of `count` cells from `readPos` on, cyclically in the first `capacity`
cells.  `put` and `take` are total; what they do to the contents holds when there
is room, or something to take.

A history is the list of transfers, the latest first.  `Fifo b ms` says that the
transfers `ms` led from an empty buffer to `b`: what has been delivered followed by
what is stored is what has been accepted, and a buffer with a single cell was
filled and emptied in turn.
-/
import Mathlib.Data.List.Chain
import Mathlib.Logic.Function.Basic
import Mathlib.Tactic.Common

namespace TP2Kernel

/-- A ring buffer. -/
structure RingBuffer (α : Type*) where
  cells : Nat → α
  readPos : Nat
  writePos : Nat
  count : Nat
  capacity : Nat

namespace RingBuffer

variable {α : Type*} {b : RingBuffer α} {a : α}

/-- Take the element at `readPos` out. -/
def take (b : RingBuffer α) : RingBuffer α :=
  { b with readPos := (b.readPos + 1) % b.capacity, count := b.count - 1 }

/-- Store an element at `writePos`. -/
def put (b : RingBuffer α) (a : α) : RingBuffer α :=
  { b with
    cells := Function.update b.cells b.writePos a
    writePos := (b.writePos + 1) % b.capacity
    count := b.count + 1 }

/-- The elements from `readPos` on. -/
def contents (b : RingBuffer α) : List α :=
  (List.range b.count).map fun i => b.cells ((b.readPos + i) % b.capacity)

/-- The positions are inside the buffer and `writePos` is where the contents
end. -/
structure Valid (b : RingBuffer α) : Prop where
  count_le : b.count ≤ b.capacity
  read_lt : b.readPos < b.capacity
  write_lt : b.writePos < b.capacity
  write_eq : b.writePos = (b.readPos + b.count) % b.capacity

/-- Two offsets less than a turn apart lead to two cells. -/
theorem index_ne {r i n c : Nat} (hi : i < n) (hn : n < c) : (r + i) % c ≠ (r + n) % c := by
  intro he
  have hd : c ∣ r + n - (r + i) := Nat.dvd_of_mod_eq_zero (Nat.sub_mod_eq_zero_of_mod_eq he.symm)
  have : r + n - (r + i) = 0 := Nat.eq_zero_of_dvd_of_lt hd (by omega)
  omega

theorem Valid.put (h : b.Valid) (hroom : b.count < b.capacity) (a : α) : (b.put a).Valid := by
  refine ⟨hroom, h.read_lt, Nat.mod_lt _ (by omega), ?_⟩
  show (b.writePos + 1) % b.capacity = (b.readPos + (b.count + 1)) % b.capacity
  rw [h.write_eq, Nat.mod_add_mod, Nat.add_assoc]

theorem Valid.take (h : b.Valid) (hpos : 0 < b.count) : b.take.Valid := by
  have hcap : 0 < b.capacity := Nat.zero_lt_of_lt h.read_lt
  refine ⟨(Nat.sub_le _ _).trans h.count_le, Nat.mod_lt _ hcap, h.write_lt, ?_⟩
  show b.writePos = ((b.readPos + 1) % b.capacity + (b.count - 1)) % b.capacity
  rw [Nat.mod_add_mod, h.write_eq, show b.readPos + 1 + (b.count - 1) = b.readPos + b.count by omega]

/-- A stored element joins the contents at their end. -/
theorem contents_put (h : b.Valid) (hroom : b.count < b.capacity) (a : α) :
    (b.put a).contents = b.contents ++ [a] := by
  show (List.range (b.count + 1)).map (fun i =>
    Function.update b.cells b.writePos a ((b.readPos + i) % b.capacity)) = _
  rw [List.range_succ, List.map_append, List.map_singleton, ← h.write_eq, Function.update_self]
  congr 1
  apply List.map_congr_left
  intro i hi
  -- the cells in use are not the one written
  apply Function.update_of_ne
  rw [h.write_eq]
  exact index_ne (List.mem_range.mp hi) hroom

/-- The element taken is the first one. -/
theorem contents_take (h : b.Valid) (hpos : 0 < b.count) :
    b.contents = b.cells b.readPos :: b.take.contents := by
  obtain ⟨n, hn⟩ : ∃ n, b.count = n + 1 := ⟨b.count - 1, by omega⟩
  have htake : b.take.count = n := by
    show b.count - 1 = n
    omega
  unfold contents
  rw [htake, hn, List.range_succ_eq_map, List.map_cons, List.map_map, Nat.add_zero,
    Nat.mod_eq_of_lt h.read_lt]
  congr 1
  apply List.map_congr_left
  intro i _
  show b.cells ((b.readPos + (i + 1)) % b.capacity)
    = b.cells (((b.readPos + 1) % b.capacity + i) % b.capacity)
  rw [Nat.mod_add_mod, Nat.add_assoc, Nat.add_comm 1 i]

end RingBuffer

/-! ### Histories -/

/-- What is done to a buffer. -/
inductive Transfer (α : Type*)
  | put (a : α)
  | take (a : α)

namespace Transfer

variable {α : Type*}

/-- The transfer fills a cell. -/
def isPut : Transfer α → Bool
  | .put _ => true
  | .take _ => false

/-- The elements stored, in the order in which they were; the latest transfer is
the head of the history. -/
def accepted : List (Transfer α) → List α
  | [] => []
  | .put a :: ms => accepted ms ++ [a]
  | .take _ :: ms => accepted ms

/-- The elements taken, in the order in which they were. -/
def delivered : List (Transfer α) → List α
  | [] => []
  | .put _ :: ms => delivered ms
  | .take a :: ms => delivered ms ++ [a]

/-- Puts and takes alternate, and the first transfer is a put. -/
def Alternating (ms : List (Transfer α)) : Prop := (ms.map isPut ++ [false]).IsChain (· ≠ ·)

/-- Whether the latest transfer is a put. -/
def filled (ms : List (Transfer α)) : Bool := (ms.map isPut).headD false

theorem Alternating.cons {ms : List (Transfer α)} (h : Alternating ms) {m : Transfer α}
    (hm : m.isPut ≠ filled ms) : Alternating (m :: ms) := by
  unfold Alternating at h ⊢
  rw [List.map_cons, List.cons_append]
  cases ms with
  | nil => exact List.isChain_cons_cons.mpr ⟨hm, h⟩
  | cons m' ms => exact List.isChain_cons_cons.mpr ⟨hm, h⟩

end Transfer

open Transfer

/-- The transfers `ms` led from an empty buffer to `b`. -/
structure Fifo {α : Type*} (b : RingBuffer α) (ms : List (Transfer α)) : Prop where
  valid : b.Valid
  order : delivered ms ++ b.contents = accepted ms
  single : b.capacity = 1 → Alternating ms ∧ (filled ms = true ↔ b.count = 1)

namespace Fifo

variable {α : Type*} {b : RingBuffer α} {ms : List (Transfer α)}

theorem fresh (hcap : 0 < b.capacity) (hr : b.readPos = 0) (hw : b.writePos = 0)
    (hc : b.count = 0) : Fifo b [] := by
  refine ⟨⟨by omega, by omega, by omega, ?_⟩, ?_, fun _ => ⟨List.isChain_singleton false, ?_⟩⟩
  · rw [hr, hw, hc, Nat.zero_mod]
  · rw [RingBuffer.contents, hc]
    rfl
  · exact iff_of_false Bool.false_ne_true (by omega)

theorem put (h : Fifo b ms) (hroom : b.count < b.capacity) (a : α) :
    Fifo (b.put a) (.put a :: ms) := by
  refine ⟨h.valid.put hroom a, ?_, fun hone => ?_⟩
  · rw [RingBuffer.contents_put h.valid hroom, ← List.append_assoc]
    exact congrArg (· ++ [a]) h.order
  · obtain ⟨halt, hfull⟩ := h.single hone
    have hcap : b.capacity = 1 := hone
    refine ⟨halt.cons ?_, ?_⟩
    · -- the cell was empty, so the latest transfer is not a put
      intro hput
      have := hfull.mp hput.symm
      omega
    · show true = true ↔ b.count + 1 = 1
      exact iff_of_true rfl (by omega)

theorem take (h : Fifo b ms) (hpos : 0 < b.count) :
    Fifo b.take (.take (b.cells b.readPos) :: ms) := by
  refine ⟨h.valid.take hpos, ?_, fun hone => ?_⟩
  · have horder := h.order
    rw [RingBuffer.contents_take h.valid hpos] at horder
    show delivered ms ++ [b.cells b.readPos] ++ b.take.contents = accepted ms
    rw [List.append_assoc]
    exact horder
  · obtain ⟨halt, hfull⟩ := h.single hone
    have hcap : b.capacity = 1 := hone
    have hle := h.valid.count_le
    refine ⟨halt.cons ?_, ?_⟩
    · rw [hfull.mpr (by omega)]
      exact Bool.false_ne_true
    · show false = true ↔ b.count - 1 = 1
      exact iff_of_false Bool.false_ne_true (by omega)

end Fifo

end TP2Kernel
