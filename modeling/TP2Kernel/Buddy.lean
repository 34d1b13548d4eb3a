/-
TP2Kernel/Buddy.lean

The buddy memory manager, `Kernel/memory/buddyManager.c`.

A block of order `k` is `2 ^ k` bytes.  Its first cell is `header.order`; while
the block is free the next two cells are the links of the doubly linked list
of its order.  The code below runs on the raw cells.  Walking a list need not
end in an arbitrary memory, so the walks take a bound and answer `none` when
it is used up.

`Core h N P H B` ties the cells to the blocks they stand for: `P k` holds the
offsets of the free blocks of order `k` in list order, `B` the blocks handed
out and `H` the blocks the code is holding between two list operations; all of
them together cover the first `N` bytes of the heap exactly once.  There is
one lemma for each thing the code does to a block: `Core.take` and `Core.put`
move it between a list and the hand, `Core.split` and `Core.join` exchange it
for halves, `Core.give` and `Core.release` pass it to and from the client.
-/
import TP2Kernel.Words
import TP2Kernel.Links
import TP2Kernel.Dyadic

namespace TP2Kernel

namespace Buddy

/-! ### The code -/

/-- `MIN_ORDER`. -/
def minOrder : Nat := 5

/-- `MAX_ORDER`. -/
def maxOrder : Nat := 20

/-- `sizeof(BlockHeader)`. -/
def headerSize : Nat := 8

/-- The manager's globals together with memory. -/
structure Heap where
  heapBase : Nat
  heapSize : Nat
  freeLists : Nat → Nat
  mem : Cells

/-- `list_index`. -/
def listIndex (order : Nat) : Nat := order - minOrder

namespace Heap

/-- `block->header.order`. -/
def order (h : Heap) (block : Nat) : Nat := h.mem block

/-- `block->next`. -/
def next (h : Heap) (block : Nat) : Nat := h.mem (block + 8)

/-- `block->prev`. -/
def prev (h : Heap) (block : Nat) : Nat := h.mem (block + 16)

/-- The head of the list of an order. -/
def head (h : Heap) (order : Nat) : Nat := h.freeLists (listIndex order)

/-- Store a word. -/
def store (h : Heap) (a v : Nat) : Heap := { h with mem := Function.update h.mem a v }

/-- `block->header.order = v`. -/
def setOrder (h : Heap) (block v : Nat) : Heap := h.store block v

/-- `block->next = v`. -/
def setNext (h : Heap) (block v : Nat) : Heap := h.store (block + 8) v

/-- `block->prev = v`. -/
def setPrev (h : Heap) (block v : Nat) : Heap := h.store (block + 16) v

/-- `free_lists[list_index(order)] = v`. -/
def setHead (h : Heap) (order v : Nat) : Heap :=
  { h with freeLists := Function.update h.freeLists (listIndex order) v }

/-- More steps than a list of distinct blocks inside the heap can take. -/
def walkBound (h : Heap) : Nat := h.heapSize + 1

end Heap

/-- `list_push`. -/
def listPush (h : Heap) (order block : Nat) : Heap :=
  let h := h.setNext block (h.head order)
  let h := h.setPrev block 0
  let h := if h.head order ≠ 0 then h.setPrev (h.head order) block else h
  h.setHead order block

/-- `list_remove`. -/
def listRemove (h : Heap) (order block : Nat) : Heap :=
  let h :=
    if h.head order ≠ 0 then
      let h := if h.prev block ≠ 0 then h.setNext (h.prev block) (h.next block)
        else h.setHead order (h.next block)
      if h.next block ≠ 0 then h.setPrev (h.next block) (h.prev block) else h
    else h
  let h := h.setNext block 0
  h.setPrev block 0

/-- The loop of `order_for_size`; `none` is a shift by 64. -/
def orderWalk (size : Nat) : Nat → Nat → Option Nat
  | 0, _ => none
  | fuel + 1, order => if 2 ^ order < size then orderWalk size fuel (order + 1) else some order

/-- `order_for_size`; the inner `none` is the return value `-1`. -/
def orderForSize (size : Nat) : Option (Option Nat) :=
  (orderWalk size (64 - minOrder) minOrder).map fun order =>
    if maxOrder < order then none else some order

/-- `mm_init`'s `while(remaining >= block_size)`. -/
def carveOrder (order : Nat) : Nat → Heap × Nat × Nat → Heap × Nat × Nat
  | 0, r => r
  | fuel + 1, (h, offset, remaining) =>
      if 2 ^ order ≤ remaining then
        let block := w64 (h.heapBase + offset)
        let h := h.setOrder block order
        let h := listPush h order block
        carveOrder order fuel (h, w64 (offset + 2 ^ order), sub64 remaining (2 ^ order))
      else (h, offset, remaining)

/-- `mm_init`'s loop over the orders from `order` down to `MIN_ORDER`. -/
def carveOrders : Nat → Heap × Nat × Nat → Heap × Nat × Nat
  | 0, r => r
  | n + 1, r =>
      if 0 < r.2.2 then carveOrders n (carveOrder (minOrder + n) r.2.2 r) else r

/-- `mm_init`. -/
def mmInit (mem : Cells) (heapStart heapSize : Nat) : Heap :=
  (carveOrders (maxOrder - minOrder + 1) (⟨heapStart, heapSize, fun _ => 0, mem⟩, 0, heapSize)).1

/-- `mm_alloc`'s `while(found > order)`, for `found = order + n`. -/
def splitLoop (block order : Nat) : Nat → Heap → Heap
  | 0, h => h
  | n + 1, h =>
      let secondHalf := w64 (block + 2 ^ (order + n))
      let h := h.setOrder secondHalf (order + n)
      let h := listPush h (order + n) secondHalf
      splitLoop block order n h

/-- The first order from `order` on whose list is not empty. -/
def findOrder (h : Heap) (order : Nat) : Option Nat :=
  (List.range' order (maxOrder + 1 - order)).find? fun i => h.head i ≠ 0

/-- `mm_alloc`: the returned pointer (`0` is `NULL`) and the new heap. -/
def mmAlloc (h : Heap) (size : Nat) : Option (Nat × Heap) :=
  if size = 0 then some (0, h)
  else
    (orderForSize (w64 (size + headerSize))).map fun r =>
      match r with
      | none => (0, h)
      | some order =>
          match findOrder h order with
          | none => (0, h)
          | some found =>
              let block := h.head found
              let h := listRemove h found block
              let h := splitLoop block order (found - order) h
              (w64 (block + headerSize), h.setOrder block order)

/-- `mm_free`'s walk for the buddy along the list of one order. -/
def findBlock (h : Heap) (buddy : Nat) : Nat → Nat → Option Bool
  | 0, _ => none
  | fuel + 1, current =>
      if current = 0 then some false
      else if current = buddy then some true
      else findBlock h buddy fuel (h.next current)

/-- `mm_free`'s `while(order < MAX_ORDER && can_merge)`, for
`order = MAX_ORDER - n`. -/
def mergeLoop : Nat → Heap → Nat → Option (Heap × Nat × Nat)
  | 0, h, block => some (h, block, maxOrder)
  | n + 1, h, block =>
      let order := maxOrder - (n + 1)
      let offset := sub64 block h.heapBase
      let buddy := w64 (h.heapBase + (offset ^^^ 2 ^ order))
      (findBlock h buddy h.walkBound (h.head order)).bind fun canMerge =>
        if canMerge then
          mergeLoop n (listRemove h order buddy) (if buddy < block then buddy else block)
        else some (h, block, order)

/-- `mm_free`.  A block of order `MAX_ORDER` or more enters no merge. -/
def mmFree (h : Heap) (ptr : Nat) : Option Heap :=
  if ptr = 0 then some h
  else
    let block := sub64 ptr headerSize
    let order := h.order block
    (if order < maxOrder then mergeLoop (maxOrder - order) h block
      else some (h, block, order)).map fun r =>
        listPush (r.1.setOrder r.2.1 r.2.2) r.2.2 r.2.1

/-- `mm_info`'s walk along one list. -/
def infoWalk (h : Heap) (order : Nat) : Nat → Nat → Nat → Option Nat
  | 0, _, _ => none
  | fuel + 1, current, available =>
      if current = 0 then some available
      else infoWalk h order fuel (h.next current) (w64 (available + 2 ^ order))

/-- `mm_info`: total, used and free bytes. -/
def mmInfo (h : Heap) : Option (Nat × Nat × Nat) :=
  ((List.range' minOrder (maxOrder - minOrder + 1)).foldlM
    (fun available order => infoWalk h order h.walkBound (h.head order) available) 0).map
      fun available => (h.heapSize, sub64 h.heapSize available, available)

/-! ### The list operations on cells -/

section ListOps

variable {h : Heap} {k a : Nat}

@[simp] theorem listPush_heapBase : (listPush h k a).heapBase = h.heapBase := by
  simp only [listPush]
  split <;> rfl

@[simp] theorem listPush_heapSize : (listPush h k a).heapSize = h.heapSize := by
  simp only [listPush]
  split <;> rfl

@[simp] theorem listRemove_heapBase : (listRemove h k a).heapBase = h.heapBase := by
  simp only [listRemove]
  split
  · split <;> split <;> rfl
  · rfl

@[simp] theorem listRemove_heapSize : (listRemove h k a).heapSize = h.heapSize := by
  simp only [listRemove]
  split
  · split <;> split <;> rfl
  · rfl

theorem listPush_freeLists :
    (listPush h k a).freeLists = Function.update h.freeLists (listIndex k) a := by
  simp only [listPush]
  split <;> rfl

theorem listPush_mem (x : Nat) :
    (listPush h k a).mem x =
      if h.head k ≠ 0 ∧ x = h.head k + 16 then a
      else if x = a + 16 then 0 else if x = a + 8 then h.head k else h.mem x := by
  have hhead : ((h.setNext a (h.head k)).setPrev a 0).head k = h.head k := rfl
  simp only [listPush, hhead]
  split <;> rename_i hk <;>
    simp [Heap.setHead, Heap.setPrev, Heap.setNext, Heap.store, Function.update_apply, hk]

/-- `list_remove` from a list whose head, and whose neighbours of `a`, are
proper nodes. -/
theorem listRemove_freeLists (hhead : h.head k ≠ 0) :
    (listRemove h k a).freeLists =
      if h.prev a ≠ 0 then h.freeLists
      else Function.update h.freeLists (listIndex k) (h.next a) := by
  simp only [listRemove, if_pos hhead]
  split <;> split <;> rfl

theorem listRemove_mem (hhead : h.head k ≠ 0)
    (hp : h.prev a ≠ 0 → h.prev a ≠ a ∧ h.prev a ≠ a + 8) (x : Nat) :
    (listRemove h k a).mem x =
      if x = a + 16 ∨ x = a + 8 then 0
      else if h.next a ≠ 0 ∧ x = h.next a + 16 then h.prev a
      else if h.prev a ≠ 0 ∧ x = h.prev a + 8 then h.next a else h.mem x := by
  simp only [listRemove, if_pos hhead]
  by_cases h0 : h.prev a = 0
  · have hn : (h.setHead k (h.next a)).next a = h.next a := rfl
    have hq : (h.setHead k (h.next a)).prev a = 0 := h0
    simp only [h0, ne_eq, not_true_eq_false, if_false, hn, hq, false_and]
    split <;> rename_i hk <;>
      simp only [Heap.setHead, Heap.setPrev, Heap.setNext, Heap.store, Function.update_apply, hk,
        false_and, true_and, not_false_eq_true, if_false] <;>
      split_ifs <;> first | rfl | omega
  · obtain ⟨h1, h2⟩ := hp h0
    have hn : (h.setNext (h.prev a) (h.next a)).next a = h.next a :=
      Function.update_of_ne (by omega) _ _
    have hq : (h.setNext (h.prev a) (h.next a)).prev a = h.prev a :=
      Function.update_of_ne (by omega) _ _
    simp only [h0, ne_eq, not_false_eq_true, if_true, hn, hq, true_and]
    split <;> rename_i hk <;>
      simp only [Heap.setPrev, Heap.setNext, Heap.store, Function.update_apply, hk,
        false_and, true_and, not_false_eq_true, if_false] <;>
      split_ifs <;> first | rfl | omega

end ListOps

/-! ### Blocks and cells -/

/-- The forward links of one list; the null pointer leads to its head. -/
def Heap.nx (h : Heap) (k x : Nat) : Nat := if x = 0 then h.head k else h.next x

/-- The cells of `h` hold the free blocks `P`, the live blocks `B` and, out of
every list, the blocks `H` at hand; together they cover the first `N` bytes
exactly once. -/
structure Core (h : Heap) (N : Nat) (P : Nat → List Nat) (H B : List (Nat × Nat)) : Prop where
  base_ne : h.heapBase ≠ 0
  fits : h.heapBase + N ≤ 2 ^ 64
  rings : ∀ k ∈ Finset.Icc minOrder maxOrder,
    Ring 0 (h.nx k) h.prev ((P k).map (h.heapBase + ·))
  freeOrder : ∀ k ∈ Finset.Icc minOrder maxOrder, ∀ o ∈ P k, h.order (h.heapBase + o) = k
  liveOrder : ∀ b ∈ B, h.order (h.heapBase + b.1) = b.2
  freeAligned : ∀ k ∈ Finset.Icc minOrder maxOrder, ∀ o ∈ P k, 2 ^ k ∣ o
  aligned : ∀ b ∈ H ++ B, 2 ^ b.2 ∣ b.1
  orders : ∀ b ∈ H ++ B, b.2 ∈ Finset.Icc minOrder maxOrder
  cover : ∀ x, coverPool minOrder maxOrder P x + coverList (H ++ B) x = if x < N then 1 else 0

/-- Two blocks are at least the smallest block apart. -/
def Apart (o o' : Nat) : Prop := o + 32 ≤ o' ∨ o' + 32 ≤ o

theorem le_two_pow {k : Nat} (hk : k ∈ Finset.Icc minOrder maxOrder) : 32 ≤ 2 ^ k :=
  Nat.pow_le_pow_right (n := 2) (i := 5) (by decide) (Finset.mem_Icc.mp hk).1

/-- Blocks that are not apart share the start of one of them. -/
theorem apart_or_meet {k k' : Nat} (hk : k ∈ Finset.Icc minOrder maxOrder)
    (hk' : k' ∈ Finset.Icc minOrder maxOrder) (o o' : Nat) :
    Apart o o' ∨ ∃ x, ind x o k = 1 ∧ ind x o' k' = 1 := by
  have h1 := le_two_pow hk
  have h2 := le_two_pow hk'
  by_cases h : Apart o o'
  · exact .inl h
  · right
    unfold Apart at h
    rcases Nat.le_total o o' with hle | hle
    · exact ⟨o', ind_eq_one (by omega) (by omega), ind_eq_one (by omega) (by omega)⟩
    · exact ⟨o, ind_eq_one (by omega) (by omega), ind_eq_one (by omega) (by omega)⟩

namespace Core

variable {h : Heap} {N : Nat} {P : Nat → List Nat} {H B : List (Nat × Nat)}
variable {k k' o o' : Nat} {b b' : Nat × Nat}

theorem cover_le (hc : Core h N P H B) (x : Nat) :
    coverPool minOrder maxOrder P x + coverList (H ++ B) x ≤ 1 := by
  rw [hc.cover]
  split <;> omega

theorem apart_free (hc : Core h N P H B) (hk : k ∈ Finset.Icc minOrder maxOrder) (ho : o ∈ P k)
    (hk' : k' ∈ Finset.Icc minOrder maxOrder) (ho' : o' ∈ P k') (hne : ¬ (k = k' ∧ o = o')) :
    Apart o o' := by
  rcases apart_or_meet hk hk' o o' with h | ⟨x, h1, h2⟩
  · exact h
  · have hle := hc.cover_le x
    exact absurd (pool_unique (by omega) hk ho hk' ho' h1 h2) hne

theorem apart_held (hc : Core h N P H B) (hk : k ∈ Finset.Icc minOrder maxOrder) (ho : o ∈ P k)
    (hb : b ∈ H ++ B) : Apart o b.1 := by
  rcases apart_or_meet hk (hc.orders b hb) o b.1 with h | ⟨x, h1, h2⟩
  · exact h
  · have hle := hc.cover_le x
    have hp := ind_le_coverPool (x := x) hk ho
    have hl := ind_le_coverList (x := x) hb
    omega

theorem apart_first (hc : Core h N P (b :: H) B) (hb : b' ∈ H ++ B) : Apart b.1 b'.1 := by
  rcases apart_or_meet (hc.orders b (.head _)) (hc.orders b' (.tail _ hb)) b.1 b'.1 with
    h | ⟨x, h1, h2⟩
  · exact h
  · have hle := hc.cover_le x
    have hl := ind_le_coverList (x := x) hb
    rw [List.cons_append, coverList_cons] at hle
    omega

theorem inside_free (hc : Core h N P H B) (hk : k ∈ Finset.Icc minOrder maxOrder) (ho : o ∈ P k) :
    o + 2 ^ k ≤ N := by
  refine block_inside fun x hx => ?_
  have hcov := hc.cover x
  have hp := ind_le_coverPool (x := x) hk ho
  by_contra hlt
  rw [if_neg hlt] at hcov
  omega

theorem inside_held (hc : Core h N P H B) (hb : b ∈ H ++ B) : b.1 + 2 ^ b.2 ≤ N := by
  refine block_inside fun x hx => ?_
  have hcov := hc.cover x
  have hp := ind_le_coverList (x := x) hb
  by_contra hlt
  rw [if_neg hlt] at hcov
  omega

/-- The offset of a block of the pool or of the list. -/
def Known (P : Nat → List Nat) (L : List (Nat × Nat)) (x : Nat) : Prop :=
  (∃ k ∈ Finset.Icc minOrder maxOrder, x ∈ P k) ∨ ∃ b ∈ L, b.1 = x

theorem known_free {L : List (Nat × Nat)} (hk : k ∈ Finset.Icc minOrder maxOrder)
    (ho : o ∈ P k) : Known P L o :=
  .inl ⟨k, hk, ho⟩

theorem known_live (hb : b ∈ B) : Known P (H ++ B) b.1 :=
  .inr ⟨b, List.mem_append_right _ hb, rfl⟩

theorem known_apart (hc : Core h N P H B) (hk : k ∈ Finset.Icc minOrder maxOrder) (ho : o ∈ P k)
    {x : Nat} (hx : Known P (H ++ B) x) : x = o ∨ Apart x o := by
  rcases hx with ⟨j, hj, hx⟩ | ⟨b, hb, rfl⟩
  · by_cases hxo : x = o
    · exact .inl hxo
    · exact .inr (hc.apart_free hj hx hk ho fun e => hxo e.2)
  · exact .inr (hc.apart_held hk ho hb).symm

theorem known_apart_first (hc : Core h N P (b :: H) B) {x : Nat} (hx : Known P (H ++ B) x) :
    Apart x b.1 := by
  rcases hx with ⟨j, hj, hx⟩ | ⟨b', hb', rfl⟩
  · exact hc.apart_held hj hx (.head _)
  · exact (hc.apart_first hb').symm

/-- The head of a list is null or the address of a block on it. -/
theorem head_cases (hc : Core h N P H B) (hk : k ∈ Finset.Icc minOrder maxOrder) :
    (P k = [] ∧ h.head k = 0) ∨ ∃ o l, P k = o :: l ∧ h.head k = h.heapBase + o := by
  have hhead : h.head k = ((P k).map (h.heapBase + ·)).headD 0 := (hc.rings k hk).head
  cases hP : P k with
  | nil =>
      rw [hP] at hhead
      exact .inl ⟨rfl, hhead⟩
  | cons o l =>
      rw [hP] at hhead
      exact .inr ⟨o, l, rfl, hhead⟩

theorem known_cons {L : List (Nat × Nat)} {x : Nat} (hx : Known P L x) : Known P (b :: L) x := by
  rcases hx with hx | ⟨c, hc, rfl⟩
  · exact .inl hx
  · exact .inr ⟨c, .tail _ hc, rfl⟩

/-- A block known besides `b` is off the cells of `b` and of every head. -/
theorem known_off_head (hc : Core h N P (b :: H) B) (hk : k ∈ Finset.Icc minOrder maxOrder)
    {x : Nat} (hx : Known P (H ++ B) x) :
    Apart (h.heapBase + x) (h.heapBase + b.1) ∧
      (h.head k = 0 ∨ h.heapBase + x = h.head k ∨ Apart (h.heapBase + x) (h.head k)) := by
  have h1 := hc.known_apart_first hx
  refine ⟨by unfold Apart at *; omega, ?_⟩
  rcases hc.head_cases hk with ⟨-, he⟩ | ⟨o, l, hP, he⟩
  · exact .inl he
  · have h2 := hc.known_apart hk (hP ▸ List.mem_cons_self : o ∈ P k) (known_cons hx)
    unfold Apart at *
    omega

/-! ### Moving one block -/

/-- Label the block at `a` with its order and push it. -/
def enlist (h : Heap) (k a : Nat) : Heap := listPush (h.setOrder a k) k a

theorem enlist_mem {a : Nat} (x : Nat) :
    (enlist h k a).mem x = if h.head k ≠ 0 ∧ x = h.head k + 16 then a
      else if x = a + 16 then 0 else if x = a + 8 then h.head k
      else if x = a then k else h.mem x := by
  rw [enlist, listPush_mem]
  show (if h.head k ≠ 0 ∧ x = h.head k + 16 then a else if x = a + 16 then 0
    else if x = a + 8 then h.head k else Function.update h.mem a k x) = _
  rw [Function.update_apply]

theorem enlist_head {a j : Nat} (hj : j ∈ Finset.Icc minOrder maxOrder)
    (hk : k ∈ Finset.Icc minOrder maxOrder) :
    (enlist h k a).head j = if j = k then a else h.head j := by
  have h1 := (Finset.mem_Icc.mp hj).1
  have h2 := (Finset.mem_Icc.mp hk).1
  rw [enlist, Heap.head, listPush_freeLists, Function.update_apply]
  refine if_congr ?_ rfl rfl
  unfold listIndex
  omega

/-- What `enlist` leaves alone: everything in the other blocks but the back
link of the old head. -/
theorem enlist_cells (hc : Core h N P ((o, k) :: H) B) {x : Nat} (hx : Known P (H ++ B) x) :
    (enlist h k (h.heapBase + o)).order (h.heapBase + x) = h.order (h.heapBase + x) ∧
    (enlist h k (h.heapBase + o)).next (h.heapBase + x) = h.next (h.heapBase + x) ∧
    (h.heapBase + x ≠ h.head k →
      (enlist h k (h.heapBase + o)).prev (h.heapBase + x) = h.prev (h.heapBase + x)) := by
  have hk : k ∈ Finset.Icc minOrder maxOrder := hc.orders _ (.head _)
  obtain ⟨h1, h2⟩ := hc.known_off_head hk hx
  unfold Apart at h1 h2
  simp only [Heap.order, Heap.next, Heap.prev, enlist_mem]
  refine ⟨?_, ?_, fun h3 => ?_⟩ <;> split_ifs <;> first | rfl | omega

theorem mem_addresses {l : List Nat} {y : Nat} :
    y ∈ l.map (h.heapBase + ·) ↔ ∃ x ∈ l, y = h.heapBase + x := by
  simp only [List.mem_map, eq_comm]

theorem nx_address (hc : Core h N P H B) (j x : Nat) :
    h.nx j (h.heapBase + x) = h.next (h.heapBase + x) :=
  if_neg (by have := hc.base_ne; omega)

theorem head_apart_first (hc : Core h N P ((o, k) :: H) B) :
    h.head k = 0 ∨ Apart (h.head k) (h.heapBase + o) := by
  have hk : k ∈ Finset.Icc minOrder maxOrder := hc.orders _ (.head _)
  rcases hc.head_cases hk with ⟨-, he⟩ | ⟨x, l, hP, he⟩
  · exact .inl he
  · have := hc.apart_held hk (hP ▸ List.mem_cons_self : x ∈ P k) (.head _)
    unfold Apart at this ⊢
    omega

theorem enlist_ring (hc : Core h N P ((o, k) :: H) B) :
    Ring 0 ((enlist h k (h.heapBase + o)).nx k) (enlist h k (h.heapBase + o)).prev
      ((h.heapBase + o) :: (P k).map (h.heapBase + ·)) := by
  have hk : k ∈ Finset.Icc minOrder maxOrder := hc.orders _ (.head _)
  have h0 := hc.base_ne
  have hoff := hc.head_apart_first
  unfold Apart at hoff
  have hnx : ∀ x, (enlist h k (h.heapBase + o)).nx k (h.heapBase + x)
      = (enlist h k (h.heapBase + o)).next (h.heapBase + x) := fun x => if_neg (by omega)
  refine (hc.rings k hk).push ?_ ?_ ?_ ?_ ?_ ?_ ?_
  · intro hmem
    rcases List.mem_cons.mp hmem with he | hmem
    · omega
    · obtain ⟨x, hx, he⟩ := mem_addresses.mp hmem
      have := hc.apart_held hk hx (.head _)
      unfold Apart at this
      omega
  · rw [hnx, Heap.next, enlist_mem, if_neg (by omega), if_neg (by omega), if_pos rfl]
    rfl
  · show (enlist h k _).head k = _
    rw [enlist_head hk hk, if_pos rfl]
  · rw [Heap.prev, enlist_mem, if_neg (by omega), if_pos rfl]
  · intro hne
    exact (enlist_mem _).trans (if_pos ⟨hne, rfl⟩)
  · intro y hy
    obtain ⟨x, hx, rfl⟩ := mem_addresses.mp hy
    rw [hnx, hc.nx_address]
    exact (hc.enlist_cells (known_free hk hx)).2.1
  · intro y hy hne
    obtain ⟨x, hx, rfl⟩ := mem_addresses.mp hy
    exact (hc.enlist_cells (known_free hk hx)).2.2 hne

theorem enlist_ring_of_ne (hc : Core h N P ((o, k) :: H) B) {j : Nat}
    (hj : j ∈ Finset.Icc minOrder maxOrder) (hjk : j ≠ k) :
    Ring 0 ((enlist h k (h.heapBase + o)).nx j) (enlist h k (h.heapBase + o)).prev
      ((P j).map (h.heapBase + ·)) := by
  have hk : k ∈ Finset.Icc minOrder maxOrder := hc.orders _ (.head _)
  have h0 := hc.base_ne
  refine (hc.rings j hj).congr ?_ ?_
  · intro y hy
    rcases List.mem_cons.mp hy with rfl | hy
    · show (enlist h k _).head j = h.head j
      rw [enlist_head hj hk, if_neg hjk]
    · obtain ⟨x, hx, rfl⟩ := mem_addresses.mp hy
      rw [hc.nx_address, Heap.nx, if_neg (by omega)]
      exact (hc.enlist_cells (known_free hj hx)).2.1
  · intro y hy
    obtain ⟨x, hx, rfl⟩ := mem_addresses.mp hy
    refine (hc.enlist_cells (known_free hj hx)).2.2 ?_
    -- the head of another list is another block
    rcases hc.head_cases hk with ⟨-, he⟩ | ⟨o', l, hP, he⟩
    · omega
    · have := hc.apart_free hj hx hk (hP ▸ List.mem_cons_self : o' ∈ P k) fun e => hjk e.1
      unfold Apart at this
      omega

/-- A property of every list of the pool after one of them has been exchanged. -/
theorem lists_update {Q : Nat → List Nat → Prop} {l : List Nat} (hl : Q k l)
    (hP : ∀ j ∈ Finset.Icc minOrder maxOrder, j ≠ k → Q j (P j)) :
    ∀ j ∈ Finset.Icc minOrder maxOrder, Q j (Function.update P k l j) := by
  intro j hj
  by_cases hjk : j = k
  · subst hjk
    rwa [Function.update_self]
  · rw [Function.update_of_ne hjk]
    exact hP j hj hjk

/-- The same for a property of every block. -/
theorem forall_update {Q : Nat → Nat → Prop} {l : List Nat} (hl : ∀ o ∈ l, Q k o)
    (hP : ∀ j ∈ Finset.Icc minOrder maxOrder, ∀ o ∈ P j, Q j o) :
    ∀ j ∈ Finset.Icc minOrder maxOrder, ∀ o ∈ Function.update P k l j, Q j o :=
  lists_update (Q := fun j l => ∀ o ∈ l, Q j o) hl fun j hj _ => hP j hj

/-- A block at hand goes to the front of the list of its order. -/
theorem put (hc : Core h N P ((o, k) :: H) B) :
    Core (enlist h k (h.heapBase + o)) N (Function.update P k (o :: P k)) H B := by
  have hk : k ∈ Finset.Icc minOrder maxOrder := hc.orders _ (.head _)
  have hbase : (enlist h k (h.heapBase + o)).heapBase = h.heapBase := listPush_heapBase
  refine ⟨by rw [hbase]; exact hc.base_ne, by rw [hbase]; exact hc.fits, ?_, ?_, ?_, ?_, ?_, ?_, ?_⟩
  · rw [hbase]
    exact lists_update (Q := fun j l => Ring 0 (Heap.nx _ j) _ (l.map (h.heapBase + ·)))
      hc.enlist_ring fun j hj hjk => hc.enlist_ring_of_ne hj hjk
  · rw [hbase]
    have hold : ∀ j ∈ Finset.Icc minOrder maxOrder, ∀ x ∈ P j,
        (enlist h k (h.heapBase + o)).order (h.heapBase + x) = j := fun j hj x hx =>
      (hc.enlist_cells (known_free hj hx)).1.trans (hc.freeOrder j hj x hx)
    refine forall_update ?_ hold
    intro x hx
    rcases List.mem_cons.mp hx with rfl | hx
    · have hoff := hc.head_apart_first
      unfold Apart at hoff
      rw [Heap.order, enlist_mem, if_neg (by omega), if_neg (by omega), if_neg (by omega),
        if_pos rfl]
    · exact hold k hk x hx
  · intro b hb
    rw [hbase]
    exact (hc.enlist_cells (known_live hb)).1.trans (hc.liveOrder b hb)
  · refine forall_update ?_ hc.freeAligned
    intro x hx
    rcases List.mem_cons.mp hx with rfl | hx
    · exact hc.aligned _ (.head _)
    · exact hc.freeAligned k hk x hx
  · exact fun b hb => hc.aligned b (.tail _ hb)
  · exact fun b hb => hc.orders b (.tail _ hb)
  · intro x
    rw [← hc.cover x]
    have := coverPool_update (P := P) (x := x) hk (o :: P k)
    simp only [coverOrder_cons, List.cons_append, coverList_cons] at *
    omega

section Take

variable {xs ys : List Nat}

theorem mem_of_split (hP : P k = xs ++ o :: ys) : o ∈ P k := by
  rw [hP]
  exact List.mem_append_right _ List.mem_cons_self

theorem mem_of_rest {x : Nat} (hP : P k = xs ++ o :: ys) (hx : x ∈ xs ++ ys) : x ∈ P k := by
  rw [hP]
  rcases List.mem_append.mp hx with hx | hx
  · exact List.mem_append_left _ hx
  · exact List.mem_append_right _ (.tail _ hx)

theorem ne_of_rest (hc : Core h N P H B) (hk : k ∈ Finset.Icc minOrder maxOrder)
    (hP : P k = xs ++ o :: ys) {x : Nat} (hx : x ∈ xs ++ ys) : x ≠ o := by
  rintro rfl
  have hnd := (hc.rings k hk).nodup
  rw [List.nodup_cons, hP] at hnd
  have hnd' := List.Nodup.of_map _ hnd.2
  rw [List.nodup_middle, List.nodup_cons] at hnd'
  exact hnd'.1 hx

/-- A block other than `o`, on a list or held, is apart from `o` and from every
other block of the list of `o`. -/
theorem known_update (hc : Core h N P H B) (hk : k ∈ Finset.Icc minOrder maxOrder)
    (hP : P k = xs ++ o :: ys) {x : Nat}
    (hx : Known (Function.update P k (xs ++ ys)) (H ++ B) x) :
    Apart x o ∧ Known P (H ++ B) x := by
  rcases hx with ⟨j, hj, hx⟩ | ⟨b, hb, rfl⟩
  · by_cases hjk : j = k
    · subst hjk
      rw [Function.update_self] at hx
      have hxP := mem_of_rest hP hx
      exact ⟨hc.apart_free hj hxP hk (mem_of_split hP) fun e => hc.ne_of_rest hk hP hx e.2,
        known_free hj hxP⟩
    · rw [Function.update_of_ne hjk] at hx
      exact ⟨hc.apart_free hj hx hk (mem_of_split hP) fun e => hjk e.1, known_free hj hx⟩
  · exact ⟨(hc.apart_held hk (mem_of_split hP) hb).symm, .inr ⟨b, hb, rfl⟩⟩

/-- The neighbours of `o` on its list. -/
theorem neighbours (hc : Core h N P H B) (hk : k ∈ Finset.Icc minOrder maxOrder)
    (hP : P k = xs ++ o :: ys) :
    (h.prev (h.heapBase + o) = 0 ∨ ∃ x ∈ xs ++ ys, h.prev (h.heapBase + o) = h.heapBase + x) ∧
    (h.next (h.heapBase + o) = 0 ∨ ∃ x ∈ xs ++ ys, h.next (h.heapBase + o) = h.heapBase + x) := by
  have hring := hc.rings k hk
  rw [hP, List.map_append, List.map_cons] at hring
  obtain ⟨hp, hn⟩ := hring.neighbours
  rw [hc.nx_address] at hn
  constructor
  · have hmem := List.getLast_mem (l := 0 :: xs.map (h.heapBase + ·)) (by simp)
    rw [← hp] at hmem
    rcases List.mem_cons.mp hmem with h0 | hmem
    · exact .inl h0
    · obtain ⟨x, hx, he⟩ := mem_addresses.mp hmem
      exact .inr ⟨x, List.mem_append_left _ hx, he⟩
  · cases ys with
    | nil => exact .inl hn
    | cons y ys => exact .inr ⟨y, by simp, hn⟩

/-- The cells after `list_remove` of `o`. -/
theorem remove_mem (hc : Core h N P H B) (hk : k ∈ Finset.Icc minOrder maxOrder)
    (hP : P k = xs ++ o :: ys) (x : Nat) :
    (listRemove h k (h.heapBase + o)).mem x =
      if x = h.heapBase + o + 16 ∨ x = h.heapBase + o + 8 then 0
      else if h.next (h.heapBase + o) ≠ 0 ∧ x = h.next (h.heapBase + o) + 16 then
        h.prev (h.heapBase + o)
      else if h.prev (h.heapBase + o) ≠ 0 ∧ x = h.prev (h.heapBase + o) + 8 then
        h.next (h.heapBase + o)
      else h.mem x := by
  refine listRemove_mem ?_ (fun h0 => ?_) x
  · rcases hc.head_cases hk with ⟨hnil, -⟩ | ⟨o', l, -, he⟩
    · rw [hP] at hnil
      simp at hnil
    · have := hc.base_ne
      omega
  · rcases (hc.neighbours hk hP).1 with he | ⟨x, hx, he⟩
    · exact absurd he h0
    · have := (hc.known_update hk hP (known_free hk (by rwa [Function.update_self]))).1
      unfold Apart at this
      rw [he]
      omega

/-- A pointer that is null or leads to a block on the list is off the cells of
any other block. -/
theorem off_pointer (hc : Core h N P H B) (hk : k ∈ Finset.Icc minOrder maxOrder)
    (hP : P k = xs ++ o :: ys) {x p : Nat} (hx : Known P (H ++ B) x)
    (hp : p = 0 ∨ ∃ y ∈ xs ++ ys, p = h.heapBase + y) :
    p = 0 ∨ h.heapBase + x = p ∨ Apart (h.heapBase + x) p := by
  rcases hp with hp | ⟨y, hy, rfl⟩
  · exact .inl hp
  · rcases hc.known_apart hk (mem_of_rest hP hy) hx with rfl | ha
    · exact .inr (.inl rfl)
    · unfold Apart at *
      omega

/-- What `list_remove` does to the other blocks. -/
theorem remove_cells (hc : Core h N P H B) (hk : k ∈ Finset.Icc minOrder maxOrder)
    (hP : P k = xs ++ o :: ys) {x : Nat}
    (hx : Known (Function.update P k (xs ++ ys)) (H ++ B) x) :
    (listRemove h k (h.heapBase + o)).order (h.heapBase + x) = h.order (h.heapBase + x) ∧
    (listRemove h k (h.heapBase + o)).next (h.heapBase + x) =
      (if h.heapBase + x = h.prev (h.heapBase + o) then h.next (h.heapBase + o)
        else h.next (h.heapBase + x)) ∧
    (listRemove h k (h.heapBase + o)).prev (h.heapBase + x) =
      (if h.heapBase + x = h.next (h.heapBase + o) then h.prev (h.heapBase + o)
        else h.prev (h.heapBase + x)) := by
  obtain ⟨h1, hx⟩ := hc.known_update hk hP hx
  obtain ⟨hp, hn⟩ := hc.neighbours hk hP
  have h0 := hc.base_ne
  have h2 := hc.off_pointer hk hP hx hp
  have h3 := hc.off_pointer hk hP hx hn
  clear hp hn
  unfold Apart at h1 h2 h3
  simp only [Heap.order, hc.remove_mem hk hP]
  refine ⟨?_, ?_, ?_⟩
  · rw [if_neg (by omega), if_neg (by omega), if_neg (by omega)]
  · rw [Heap.next, hc.remove_mem hk hP, if_neg (by omega), if_neg (by omega)]
    refine if_congr ?_ rfl rfl
    omega
  · rw [Heap.prev, hc.remove_mem hk hP, if_neg (by omega)]
    refine if_congr (by omega) rfl ?_
    rw [if_neg (by omega)]
    rfl

theorem remove_head (hc : Core h N P H B) (hk : k ∈ Finset.Icc minOrder maxOrder)
    (hP : P k = xs ++ o :: ys) {j : Nat} (hj : j ∈ Finset.Icc minOrder maxOrder) :
    (listRemove h k (h.heapBase + o)).head j =
      if j = k ∧ h.prev (h.heapBase + o) = 0 then h.next (h.heapBase + o) else h.head j := by
  have h1 := (Finset.mem_Icc.mp hj).1
  have h2 := (Finset.mem_Icc.mp hk).1
  have hidx : listIndex j = listIndex k ↔ j = k := by
    unfold listIndex
    omega
  have hne : h.head k ≠ 0 := by
    rcases hc.head_cases hk with ⟨hnil, -⟩ | ⟨o', l, -, he⟩
    · rw [hP] at hnil
      simp at hnil
    · have := hc.base_ne
      omega
  rw [Heap.head, listRemove_freeLists hne]
  by_cases h0 : h.prev (h.heapBase + o) = 0
  · rw [if_neg (not_not.mpr h0), Function.update_apply]
    exact if_congr (by rw [hidx, and_iff_left h0]) rfl rfl
  · rw [if_pos h0, if_neg fun e => h0 e.2]
    rfl

theorem remove_ring (hc : Core h N P H B) (hk : k ∈ Finset.Icc minOrder maxOrder)
    (hP : P k = xs ++ o :: ys) :
    Ring 0 ((listRemove h k (h.heapBase + o)).nx k) (listRemove h k (h.heapBase + o)).prev
      ((xs ++ ys).map (h.heapBase + ·)) := by
  have hring := hc.rings k hk
  have h0 := hc.base_ne
  rw [hP, List.map_append, List.map_cons] at hring
  have hknown : ∀ x ∈ xs ++ ys, Known (Function.update P k (xs ++ ys)) (H ++ B) x :=
    fun x hx => known_free hk (by rwa [Function.update_self])
  have hnx : ∀ x, (listRemove h k (h.heapBase + o)).nx k (h.heapBase + x)
      = (listRemove h k (h.heapBase + o)).next (h.heapBase + x) := fun x => if_neg (by omega)
  have hna := hc.nx_address k o
  rw [List.map_append]
  refine hring.unlink ?_ ?_ ?_ ?_
  · rw [hna]
    rcases (hc.neighbours hk hP).1 with hp | ⟨x, hx, hp⟩
    · rw [hp]
      show (listRemove h k _).head k = _
      rw [hc.remove_head hk hP hk, if_pos ⟨rfl, hp⟩]
    · rw [hp, hnx, (hc.remove_cells hk hP (hknown x hx)).2.1, if_pos hp.symm]
  · rw [hna]
    intro hne
    rcases (hc.neighbours hk hP).2 with hn | ⟨x, hx, hn⟩
    · exact absurd hn hne
    · rw [hn, (hc.remove_cells hk hP (hknown x hx)).2.2, if_pos hn.symm]
  · intro y hy hne
    rw [← List.map_append] at hy
    rcases List.mem_cons.mp hy with rfl | hy
    · show (listRemove h k _).head k = h.head k
      rw [hc.remove_head hk hP hk, if_neg fun e => hne e.2.symm]
    · obtain ⟨x, hx, rfl⟩ := mem_addresses.mp hy
      rw [hnx, hc.nx_address, (hc.remove_cells hk hP (hknown x hx)).2.1, if_neg hne]
  · intro y hy hne
    rw [← List.map_append] at hy
    obtain ⟨x, hx, rfl⟩ := mem_addresses.mp hy
    rw [hna] at hne
    rw [(hc.remove_cells hk hP (hknown x hx)).2.2, if_neg hne]

theorem remove_ring_of_ne (hc : Core h N P H B) (hk : k ∈ Finset.Icc minOrder maxOrder)
    (hP : P k = xs ++ o :: ys) {j : Nat} (hj : j ∈ Finset.Icc minOrder maxOrder) (hjk : j ≠ k) :
    Ring 0 ((listRemove h k (h.heapBase + o)).nx j) (listRemove h k (h.heapBase + o)).prev
      ((P j).map (h.heapBase + ·)) := by
  have h0 := hc.base_ne
  have hknown : ∀ x ∈ P j, Known (Function.update P k (xs ++ ys)) (H ++ B) x :=
    fun x hx => known_free hj (by rwa [Function.update_of_ne hjk])
  -- a neighbour of `o` is on the list of order `k`, not on this one
  have hother : ∀ x ∈ P j, ∀ p, (p = 0 ∨ ∃ y ∈ xs ++ ys, p = h.heapBase + y) →
      h.heapBase + x ≠ p := by
    rintro x hx p (rfl | ⟨y, hy, rfl⟩)
    · omega
    · have := hc.apart_free hj hx hk (mem_of_rest hP hy) fun e => hjk e.1
      unfold Apart at this
      omega
  refine (hc.rings j hj).congr ?_ ?_
  · intro y hy
    rcases List.mem_cons.mp hy with rfl | hy
    · show (listRemove h k _).head j = h.head j
      rw [hc.remove_head hk hP hj, if_neg fun e => hjk e.1]
    · obtain ⟨x, hx, rfl⟩ := mem_addresses.mp hy
      rw [hc.nx_address, Heap.nx, if_neg (by omega), (hc.remove_cells hk hP (hknown x hx)).2.1,
        if_neg (hother x hx _ (hc.neighbours hk hP).1)]
  · intro y hy
    obtain ⟨x, hx, rfl⟩ := mem_addresses.mp hy
    rw [(hc.remove_cells hk hP (hknown x hx)).2.2, if_neg (hother x hx _ (hc.neighbours hk hP).2)]

/-- A free block is taken off its list. -/
theorem take (hc : Core h N P H B) (hk : k ∈ Finset.Icc minOrder maxOrder)
    (hP : P k = xs ++ o :: ys) :
    Core (listRemove h k (h.heapBase + o)) N (Function.update P k (xs ++ ys)) ((o, k) :: H) B := by
  have hbase : (listRemove h k (h.heapBase + o)).heapBase = h.heapBase := listRemove_heapBase
  have hcells := fun x hx => hc.remove_cells hk hP (x := x) hx
  refine ⟨by rw [hbase]; exact hc.base_ne, by rw [hbase]; exact hc.fits, ?_, ?_, ?_, ?_, ?_, ?_, ?_⟩
  · rw [hbase]
    exact lists_update (Q := fun j l => Ring 0 (Heap.nx _ j) _ (l.map (h.heapBase + ·)))
      (hc.remove_ring hk hP) fun j hj hjk => hc.remove_ring_of_ne hk hP hj hjk
  · intro j hj x hx
    rw [hbase, (hcells x (known_free hj hx)).1]
    exact forall_update (Q := fun j x => h.order (h.heapBase + x) = j)
      (fun x hx => hc.freeOrder k hk x (mem_of_rest hP hx)) hc.freeOrder j hj x hx
  · intro b hb
    rw [hbase, (hcells b.1 (known_live hb)).1]
    exact hc.liveOrder b hb
  · exact forall_update (fun x hx => hc.freeAligned k hk x (mem_of_rest hP hx)) hc.freeAligned
  · intro b hb
    rcases List.mem_cons.mp hb with rfl | hb
    · exact hc.freeAligned k hk o (mem_of_split hP)
    · exact hc.aligned b hb
  · intro b hb
    rcases List.mem_cons.mp hb with rfl | hb
    · exact hk
    · exact hc.orders b hb
  · intro x
    rw [← hc.cover x]
    have := coverPool_update (P := P) (x := x) hk (xs ++ ys)
    simp only [hP, coverOrder_append, coverOrder_cons, List.cons_append, coverList_cons] at *
    omega

end Take

/-- Split a block at hand into its halves; the second one goes first. -/
theorem split (hc : Core h N P ((o, k + 1) :: H) B) (hk : minOrder ≤ k) :
    Core h N P ((o + 2 ^ k, k) :: (o, k) :: H) B := by
  have hk1 := (Finset.mem_Icc.mp (hc.orders _ (.head _))).2
  have hd : 2 ^ (k + 1) ∣ o := hc.aligned _ (.head _)
  have hd' : 2 ^ k ∣ o := (pow_dvd_pow 2 (by omega)).trans hd
  refine ⟨hc.base_ne, hc.fits, hc.rings, hc.freeOrder, hc.liveOrder, hc.freeAligned, ?_, ?_, ?_⟩
  · intro b hb
    rcases List.mem_cons.mp hb with rfl | hb
    · exact hd'.add (dvd_refl _)
    · rcases List.mem_cons.mp hb with rfl | hb
      · exact hd'
      · exact hc.aligned b (.tail _ hb)
  · intro b hb
    rcases List.mem_cons.mp hb with rfl | hb
    · exact Finset.mem_Icc.mpr ⟨hk, by simp only at *; omega⟩
    · rcases List.mem_cons.mp hb with rfl | hb
      · exact Finset.mem_Icc.mpr ⟨hk, by simp only at *; omega⟩
      · exact hc.orders b (.tail _ hb)
  · intro x
    rw [← hc.cover x]
    simp only [List.cons_append, coverList_cons, ind_split]
    omega

/-- Join a block at hand with its buddy. -/
theorem join (hc : Core h N P ((o ^^^ 2 ^ k, k) :: (o, k) :: H) B) (hk : k < maxOrder) :
    Core h N P ((min (o ^^^ 2 ^ k) o, k + 1) :: H) B := by
  have hk1 := (Finset.mem_Icc.mp (hc.orders _ (.head _))).1
  have ho : 2 ^ k ∣ o := hc.aligned (o, k) (.tail _ (.head _))
  obtain ⟨m, hm, hcase⟩ := buddy_cases ho
  have hmin : min (o ^^^ 2 ^ k) o = m := by omega
  rw [hmin]
  refine ⟨hc.base_ne, hc.fits, hc.rings, hc.freeOrder, hc.liveOrder, hc.freeAligned, ?_, ?_, ?_⟩
  · intro b hb
    rcases List.mem_cons.mp hb with rfl | hb
    · exact hm
    · exact hc.aligned b (.tail _ (.tail _ hb))
  · intro b hb
    rcases List.mem_cons.mp hb with rfl | hb
    · exact Finset.mem_Icc.mpr ⟨by simp only at *; omega, hk⟩
    · exact hc.orders b (.tail _ (.tail _ hb))
  · intro x
    rw [← hc.cover x]
    simp only [List.cons_append, coverList_cons, ind_split]
    rcases hcase with ⟨h1, h2⟩ | ⟨h1, h2⟩
    · rw [h2, h1]
      omega
    · rw [h2, h1]
      omega

/-- A live block is taken back. -/
theorem release {B₁ B₂ : List (Nat × Nat)} (hc : Core h N P H (B₁ ++ b :: B₂)) :
    Core h N P (b :: H) (B₁ ++ B₂) := by
  have hperm : (H ++ (B₁ ++ b :: B₂)).Perm (b :: H ++ (B₁ ++ B₂)) := by
    rw [← List.append_assoc, ← List.append_assoc]
    exact List.perm_middle
  refine ⟨hc.base_ne, hc.fits, hc.rings, hc.freeOrder, ?_, hc.freeAligned, ?_, ?_, ?_⟩
  · intro c hcB
    refine hc.liveOrder c ?_
    rcases List.mem_append.mp hcB with hm | hm
    · exact List.mem_append_left _ hm
    · exact List.mem_append_right _ (.tail _ hm)
  · exact fun c hm => hc.aligned c (hperm.mem_iff.mpr hm)
  · exact fun c hm => hc.orders c (hperm.mem_iff.mpr hm)
  · intro x
    rw [← hc.cover x, coverList_perm hperm]

/-- Memory may change wherever no list link and no header of a free or live
block is stored. -/
theorem frame (hc : Core h N P H B) {h' : Heap} (hbase : h'.heapBase = h.heapBase)
    (hlists : h'.freeLists = h.freeLists)
    (hfree : ∀ k ∈ Finset.Icc minOrder maxOrder, ∀ o ∈ P k, ∀ d < 32,
      h'.mem (h.heapBase + o + d) = h.mem (h.heapBase + o + d))
    (hlive : ∀ b ∈ B, h'.mem (h.heapBase + b.1) = h.mem (h.heapBase + b.1)) :
    Core h' N P H B := by
  have h0 := hc.base_ne
  refine ⟨by rw [hbase]; exact h0, by rw [hbase]; exact hc.fits, ?_, ?_, ?_, hc.freeAligned,
    hc.aligned, hc.orders, hc.cover⟩
  · intro j hj
    rw [hbase]
    refine (hc.rings j hj).congr ?_ ?_
    · intro y hy
      rcases List.mem_cons.mp hy with rfl | hy
      · show h'.freeLists _ = h.freeLists _
        rw [hlists]
      · obtain ⟨x, hx, rfl⟩ := mem_addresses.mp hy
        rw [hc.nx_address, Heap.nx, if_neg (by omega)]
        exact hfree j hj x hx 8 (by omega)
    · intro y hy
      obtain ⟨x, hx, rfl⟩ := mem_addresses.mp hy
      exact hfree j hj x hx 16 (by omega)
  · intro j hj x hx
    rw [hbase]
    exact (hfree j hj x hx 0 (by omega)).trans (hc.freeOrder j hj x hx)
  · intro b hb
    rw [hbase]
    exact (hlive b hb).trans (hc.liveOrder b hb)

/-- A block at hand is labelled and goes to the client. -/
theorem give (hc : Core h N P ((o, k) :: H) B) :
    Core (h.setOrder (h.heapBase + o) k) N P H ((o, k) :: B) := by
  have hperm : (H ++ (o, k) :: B).Perm ((o, k) :: H ++ B) := List.perm_middle
  -- the header of `o` is none of the cells of another block
  have hmem : ∀ x, Known P (H ++ B) x → ∀ d < 32,
      (h.setOrder (h.heapBase + o) k).mem (h.heapBase + x + d) = h.mem (h.heapBase + x + d) := by
    intro x hx d hd
    have := hc.known_apart_first hx
    unfold Apart at this
    exact Function.update_of_ne (by simp only at this; omega) _ _
  have hc' := hc.frame (show (h.setOrder (h.heapBase + o) k).heapBase = h.heapBase from rfl) rfl
    (fun j hj x hx d hd => hmem x (known_free hj hx) d hd)
    fun b hb => hmem b.1 (known_live hb) 0 (by omega)
  refine ⟨hc'.base_ne, hc'.fits, hc'.rings, hc'.freeOrder, ?_, hc'.freeAligned, ?_, ?_, ?_⟩
  · intro b hb
    rcases List.mem_cons.mp hb with rfl | hb
    · exact Function.update_self _ _ _
    · exact hc'.liveOrder b hb
  · exact fun c hm => hc.aligned c (hperm.mem_iff.mp hm)
  · exact fun c hm => hc.orders c (hperm.mem_iff.mp hm)
  · intro x
    rw [← hc.cover x, coverList_perm hperm]

/-- A store into a live block, behind its header. -/
theorem store {B₁ B₂ : List (Nat × Nat)} (hc : Core h N P [] (B₁ ++ b :: B₂)) {c v : Nat}
    (hlo : h.heapBase + b.1 < c) (hhi : c < h.heapBase + b.1 + 2 ^ b.2) :
    Core (h.store c v) N P [] (B₁ ++ b :: B₂) := by
  have hrel := hc.release
  have hown : ∀ y, h.heapBase + y = c → ind y b.1 b.2 = 1 := fun y hy =>
    ind_eq_one (by omega) (by omega)
  refine hc.frame rfl rfl (fun j hj x hx d hd => ?_) fun b' hb' => ?_
  · refine Function.update_of_ne (fun he => ?_) _ _
    -- the byte would be in two blocks
    have h32 := le_two_pow hj
    have hcov := hrel.cover_le (x + d)
    have h1 := hown (x + d) (by omega)
    have h2 : ind (x + d) x j = 1 := ind_eq_one (by omega) (by omega)
    have h3 := ind_le_coverPool (x := x + d) hj hx
    rw [List.cons_append, coverList_cons] at hcov
    omega
  · refine Function.update_of_ne (fun he => ?_) _ _
    rcases eq_or_ne b' b with rfl | hne
    · omega
    · have hmem : b' ∈ B₁ ++ B₂ := by
        rcases List.mem_append.mp hb' with hm | hm
        · exact List.mem_append_left _ hm
        · exact List.mem_append_right _ (List.mem_of_ne_of_mem hne hm)
      have hcov := hrel.cover_le b'.1
      have h1 := hown b'.1 he
      have h2 : ind b'.1 b'.1 b'.2 = 1 :=
        ind_eq_one (le_refl _) (Nat.lt_add_of_pos_right (Nat.two_pow_pos _))
      have h3 := ind_le_coverList (x := b'.1) hmem
      rw [List.cons_append, coverList_cons, List.nil_append] at hcov
      omega

end Core

end Buddy

end TP2Kernel
