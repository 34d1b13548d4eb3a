/-
TP2Kernel/FreeList.lean

The free-list memory manager, `Kernel/memory/memManager.c`.

A block header occupies three cells: `size` at its address, `is_free` eight
bytes on and `next` sixteen bytes on; the payload follows at `+24`.  The
functions below run on the raw cells.  Following `next` need not end in an
arbitrary memory, so each walk takes a bound on its number of steps and
answers `none` when the bound is used up; `walkBound` is larger than any list
of distinct headers inside the heap can be.

The second half is the list view: `Chain mem a bs z` says that from address
`a` the cells spell out the blocks `bs`, one directly behind the other, and
that the last one points to `z`.  `allocBlocks` and `freeBlocks` are what the
two operations do to that list, and `allocWalk_chain`, `mmFree_chain` say that
the pointer code does exactly this.
-/
import TP2Kernel.Words
import TP2Kernel.Tiling

namespace TP2Kernel

namespace FreeList

/-! ### The code -/

/-- `sizeof(block_t)`. -/
def blockHeader : Nat := 24

/-- `MIN_BLOCK_SIZE`. -/
def minBlockSize : Nat := 8

/-- The allocator's globals together with memory. -/
structure Heap where
  heapStart : Nat
  heapSize : Nat
  firstBlock : Nat
  mem : Cells

namespace Heap

/-- `block->size`. -/
def size (h : Heap) (block : Nat) : Nat := h.mem block

/-- `block->is_free`. -/
def isFree (h : Heap) (block : Nat) : Nat := h.mem (block + 8)

/-- `block->next`. -/
def next (h : Heap) (block : Nat) : Nat := h.mem (block + 16)

/-- Store a word. -/
def store (h : Heap) (a v : Nat) : Heap := { h with mem := Function.update h.mem a v }

/-- `block->size = v`. -/
def setSize (h : Heap) (block v : Nat) : Heap := h.store block v

/-- `block->is_free = v`. -/
def setIsFree (h : Heap) (block v : Nat) : Heap := h.store (block + 8) v

/-- `block->next = v`. -/
def setNext (h : Heap) (block v : Nat) : Heap := h.store (block + 16) v

/-- More steps than a list of distinct headers inside the heap can take. -/
def walkBound (h : Heap) : Nat := h.heapSize + 1

end Heap

/-- `mm_init`. -/
def mmInit (mem : Cells) (heapStart heapSize : Nat) : Heap :=
  let h : Heap := ⟨heapStart, heapSize, heapStart, mem⟩
  let h := h.setSize h.firstBlock (sub64 heapSize blockHeader)
  let h := h.setIsFree h.firstBlock 1
  h.setNext h.firstBlock 0

/-- `(size + 7) & ~7`. -/
def align8 (size : Nat) : Nat := w64 (size + 7) &&& (2 ^ 64 - 2 ^ 3)

/-- The body of `mm_alloc`'s loop for a block that is large enough: split it
if the rest can hold a header and `MIN_BLOCK_SIZE` bytes, mark it used, and
return its payload. -/
def takeBlock (h : Heap) (current size : Nat) : Nat × Heap :=
  let h :=
    if w64 (w64 (size + blockHeader) + minBlockSize) ≤ h.size current then
      let newBlock := w64 (w64 (current + blockHeader) + size)
      let h := h.setSize newBlock (sub64 (sub64 (h.size current) size) blockHeader)
      let h := h.setIsFree newBlock 1
      let h := h.setNext newBlock (h.next current)
      let h := h.setSize current size
      h.setNext current newBlock
    else h
  (w64 (current + blockHeader), h.setIsFree current 0)

/-- `mm_alloc`'s `while(current != NULL)`. -/
def allocWalk (size : Nat) (h : Heap) : Nat → Nat → Option (Nat × Heap)
  | 0, _ => none
  | fuel + 1, current =>
      if current = 0 then some (0, h)
      else if h.isFree current ≠ 0 ∧ size ≤ h.size current then
        some (takeBlock h current size)
      else allocWalk size h fuel (h.next current)

/-- `mm_alloc`: the returned pointer (`0` is `NULL`) and the new heap. -/
def mmAlloc (h : Heap) (size : Nat) : Option (Nat × Heap) :=
  if size = 0 then some (0, h)
  else allocWalk (align8 size) h h.walkBound h.firstBlock

/-- `mm_free`'s `while (prev->next != NULL && prev->next != block)`. -/
def prevWalk (h : Heap) (block : Nat) : Nat → Nat → Option Nat
  | 0, _ => none
  | fuel + 1, prev =>
      if h.next prev ≠ 0 ∧ h.next prev ≠ block then prevWalk h block fuel (h.next prev)
      else some prev

/-- Absorb the block `b`, which directly follows `a`, into `a`. -/
def absorb (h : Heap) (a b : Nat) : Heap :=
  let h := h.setSize a (w64 (h.size a + w64 (blockHeader + h.size b)))
  h.setNext a (h.next b)

/-- `mm_free`'s merge with the following block. -/
def absorbNext (h : Heap) (block : Nat) : Heap :=
  if h.next block ≠ 0 ∧ h.isFree (h.next block) ≠ 0
    then absorb h block (h.next block) else h

/-- `mm_free`. -/
def mmFree (h : Heap) (ptr : Nat) : Option Heap :=
  if ptr = 0 then some h
  else if ptr < h.heapStart ∨ w64 (h.heapStart + h.heapSize) ≤ ptr then some h
  else
    let block := sub64 ptr blockHeader
    if h.isFree block ≠ 0 then some h
    else
      let h := absorbNext (h.setIsFree block 1) block
      (prevWalk h block h.walkBound h.firstBlock).map fun prev =>
        if prev ≠ block ∧ h.isFree prev ≠ 0 then absorb h prev block else h

/-- `mm_info`'s loop, with the two sums so far. -/
def infoWalk (h : Heap) : Nat → Nat → Nat → Nat → Option (Nat × Nat)
  | 0, _, _, _ => none
  | fuel + 1, current, used, free =>
      if current = 0 then some (used, free)
      else if h.isFree current ≠ 0 then
        infoWalk h fuel (h.next current) used (w64 (free + h.size current))
      else infoWalk h fuel (h.next current) (w64 (used + h.size current)) free

/-- `mm_info`: total, used and free bytes. -/
def mmInfo (h : Heap) : Option (Nat × Nat × Nat) :=
  (infoWalk h h.walkBound h.firstBlock 0 0).map fun r => (h.heapSize, r.1, r.2)

/-! ### The list view -/

/-- One block of the list. -/
structure Blk where
  size : Nat
  free : Bool
  deriving DecidableEq, Repr

/-- Header and payload together. -/
def Blk.span (b : Blk) : Nat := blockHeader + b.size

/-- The pointer that leads to the blocks `bs` placed at `a`, when `z` is what
the list ends in. -/
def link (a : Nat) (bs : List Blk) (z : Nat) : Nat :=
  match bs with
  | [] => z
  | _ :: _ => a

/-- The three cells of a header. -/
structure HeaderAt (mem : Cells) (a : Nat) (b : Blk) (next : Nat) : Prop where
  size : mem a = b.size
  isFree : mem (a + 8) = b.free.toNat
  next : mem (a + 16) = next

/-- From `a` on, the cells spell out the blocks `bs`; the last one points to
`z`. -/
def Chain (mem : Cells) : Nat → List Blk → Nat → Prop
  | _, [], _ => True
  | a, b :: bs, z =>
      HeaderAt mem a b (link (a + b.span) bs z) ∧ Chain mem (a + b.span) bs z

/-- What `takeBlock` makes of a block. -/
def carve (size : Nat) (b : Blk) : List Blk :=
  if size + blockHeader + minBlockSize ≤ b.size then
    [⟨size, false⟩, ⟨b.size - size - blockHeader, true⟩]
  else [⟨b.size, false⟩]

/-- First fit on the list: the offset of the block taken, and the new list. -/
def allocBlocks (size : Nat) : List Blk → Option (Nat × List Blk)
  | [] => none
  | b :: bs =>
      if b.free ∧ size ≤ b.size then some (0, carve size b ++ bs)
      else (allocBlocks size bs).map fun r => (b.span + r.1, b :: r.2)

/-- Merge a free block with a free block behind it. -/
def mergeNext (b : Blk) : List Blk → List Blk
  | [] => [b]
  | c :: bs => if c.free then ⟨b.size + c.span, true⟩ :: bs else b :: c :: bs

/-- Release the block `b` that stands between `pre` and `post`. -/
def freeBlocks (b : Blk) (post : List Blk) : List Blk → List Blk
  | [] => mergeNext ⟨b.size, true⟩ post
  | [p] =>
      if p.free then mergeNext p (mergeNext ⟨b.size, true⟩ post)
      else p :: mergeNext ⟨b.size, true⟩ post
  | p :: q :: pre => p :: freeBlocks b post (q :: pre)

theorem Blk.span_pos (b : Blk) : 0 < b.span := by
  simp only [Blk.span, blockHeader]
  omega

@[simp] theorem link_nil (a z : Nat) : link a [] z = z := rfl

@[simp] theorem link_cons (a z : Nat) (b : Blk) (bs : List Blk) :
    link a (b :: bs) z = a := rfl

theorem link_append_cons (a : Nat) (pre : List Blk) (b : Blk) (rest : List Blk) (z : Nat) :
    link a (pre ++ b :: rest) z = a := by
  cases pre <;> rfl

theorem link_append (a z : Nat) (xs ys : List Blk) :
    link a (xs ++ ys) z = link a xs (link (a + extent Blk.span xs) ys z) := by
  cases xs <;> simp

@[simp] theorem chain_nil (mem : Cells) (a z : Nat) : Chain mem a [] z := trivial

theorem chain_cons {mem : Cells} {a z : Nat} {b : Blk} {bs : List Blk} :
    Chain mem a (b :: bs) z ↔
      HeaderAt mem a b (link (a + b.span) bs z) ∧ Chain mem (a + b.span) bs z :=
  Iff.rfl

theorem chain_append {mem : Cells} {a z : Nat} {xs ys : List Blk} :
    Chain mem a (xs ++ ys) z ↔
      Chain mem a xs (link (a + extent Blk.span xs) ys z) ∧
        Chain mem (a + extent Blk.span xs) ys z := by
  induction xs generalizing a with
  | nil => simp
  | cons x xs ih =>
      simp only [List.cons_append, chain_cons, ih, extent_cons, link_append, Nat.add_assoc]
      exact and_assoc.symm

/-- A chain reads only cells of the region it spans. -/
theorem Chain.congr {mem mem' : Cells} {a z : Nat} {bs : List Blk}
    (h : Chain mem a bs z)
    (hag : ∀ x, a ≤ x → x < a + extent Blk.span bs → mem' x = mem x) :
    Chain mem' a bs z := by
  induction bs generalizing a with
  | nil => trivial
  | cons b bs ih =>
      simp only [extent_cons] at hag
      have hb : blockHeader ≤ b.span := Nat.le_add_right _ _
      simp only [blockHeader] at hb
      obtain ⟨hh, hrest⟩ := h
      refine ⟨⟨?_, ?_, ?_⟩, ih hrest fun x h₁ h₂ => hag x (by omega) (by omega)⟩
      · rw [hag a (by omega) (by omega)]; exact hh.size
      · rw [hag (a + 8) (by omega) (by omega)]; exact hh.isFree
      · rw [hag (a + 16) (by omega) (by omega)]; exact hh.next

theorem length_le_extent (bs : List Blk) : bs.length ≤ extent Blk.span bs := by
  induction bs with
  | nil => simp
  | cons b bs ih =>
      have := b.span_pos
      simp only [List.length_cons, extent_cons]
      omega

theorem extent_carve (size : Nat) (b : Blk) :
    extent Blk.span (carve size b) = b.span := by
  unfold carve
  split
  · simp [Blk.span, blockHeader, minBlockSize] at *
    omega
  · simp [Blk.span]

theorem takeBlock_globals (h : Heap) (a size : Nat) :
    (takeBlock h a size).2 = { h with mem := (takeBlock h a size).2.mem } := by
  unfold takeBlock
  dsimp only
  split <;> rfl

/-- `takeBlock` on a block that is large enough writes `carve` in its place. -/
theorem takeBlock_chain {h : Heap} {a z size : Nat} {b : Blk} {bs : List Blk}
    (hc : Chain h.mem a (b :: bs) z) (hend : a + extent Blk.span (b :: bs) ≤ 2 ^ 64)
    (hb : b.size < 2 ^ 63) (hpos : 0 < size) (hfit : size ≤ b.size) :
    (takeBlock h a size).1 = a + blockHeader ∧
      Chain (takeBlock h a size).2.mem a (carve size b ++ bs) z ∧
      AgreeOutside a (a + b.span) h.mem (takeBlock h a size).2.mem := by
  obtain ⟨⟨hsz, hfr, hnx⟩, hrest⟩ := hc
  simp only [extent_cons, Blk.span, blockHeader] at *
  have hptr : w64 (a + 24) = a + 24 := w64_of_lt (by omega)
  have hsplit : w64 (w64 (size + 24) + 8) = size + 24 + 8 := by
    rw [w64_of_lt (show size + 24 < 2 ^ 64 by omega), w64_of_lt (by omega)]
  by_cases hs : size + 24 + 8 ≤ b.size
  · -- split: the new header lies inside the old payload
    have hnew : w64 (a + 24 + size) = a + 24 + size := w64_of_lt (by omega)
    have hsub : sub64 (sub64 b.size size) 24 = b.size - size - 24 := by
      rw [sub64_of_le hfit (by omega), sub64_of_le (by omega) (by omega)]
    have hmem : (takeBlock h a size).2.mem =
        Function.update (Function.update (Function.update (Function.update
          (Function.update (Function.update h.mem (a + 24 + size) (b.size - size - 24))
          (a + 24 + size + 8) 1) (a + 24 + size + 16) (link (a + (24 + b.size)) bs z))
          a size) (a + 16) (a + 24 + size)) (a + 8) 0 := by
      simp (disch := omega) only [takeBlock, Heap.size, Heap.next, Heap.setSize, Heap.setIsFree,
        Heap.setNext, Heap.store, minBlockSize, blockHeader, hsplit, hptr, hnew, hsz, hs,
        if_true, hsub, Function.update_of_ne, hnx]
    refine ⟨hptr, ?_, ?_⟩
    · have hadj : a + (24 + size) = a + 24 + size := by omega
      have hend' : a + 24 + size + (24 + (b.size - size - 24)) = a + (24 + b.size) := by omega
      simp only [carve, blockHeader, minBlockSize, hs, if_true, List.cons_append, List.nil_append,
        chain_cons, Blk.span, link_cons, hadj, hend']
      refine ⟨⟨?_, ?_, ?_⟩, ⟨?_, ?_, ?_⟩, hrest.congr fun x h₁ h₂ => ?_⟩ <;>
        simp (disch := omega) only [hmem, Function.update_of_ne, Function.update_self,
          Bool.toNat_true, Bool.toNat_false]
    · intro x hx
      simp (disch := omega) only [hmem, Function.update_of_ne]
  · -- too small to split: only the flag changes
    have hmem : (takeBlock h a size).2.mem = Function.update h.mem (a + 8) 0 := by
      simp only [takeBlock, Heap.size, Heap.setIsFree, Heap.store, minBlockSize, blockHeader,
        hsplit, hsz, hs, if_false]
    refine ⟨hptr, ?_, ?_⟩
    · simp only [carve, blockHeader, minBlockSize, hs, if_false, List.cons_append, List.nil_append,
        chain_cons, Blk.span]
      refine ⟨⟨?_, ?_, ?_⟩, hrest.congr fun x h₁ h₂ => ?_⟩ <;>
        simp (disch := omega) only [hmem, Function.update_of_ne, Function.update_self, hsz, hnx,
          Bool.toNat_false]
    · intro x hx
      simp (disch := omega) only [hmem, Function.update_of_ne]

theorem allocBlocks_cons_of_not {size : Nat} {b : Blk} {bs : List Blk}
    (h : ¬ (b.free ∧ size ≤ b.size)) :
    allocBlocks size (b :: bs) =
      (allocBlocks size bs).map fun r => (b.span + r.1, b :: r.2) := by
  rw [allocBlocks, if_neg h]

/-- A list that first fit has changed is not empty. -/
theorem allocBlocks_ne_nil {size o : Nat} {bs bs' : List Blk}
    (h : allocBlocks size bs = some (o, bs')) : bs ≠ [] ∧ bs' ≠ [] := by
  cases bs with
  | nil => simp [allocBlocks] at h
  | cons b bs =>
      refine ⟨List.cons_ne_nil _ _, ?_⟩
      by_cases hb : b.free ∧ size ≤ b.size
      · rw [allocBlocks, if_pos hb] at h
        obtain ⟨-, rfl⟩ := Prod.mk.injEq .. ▸ Option.some.inj h
        unfold carve
        split <;> simp
      · rw [allocBlocks_cons_of_not hb, Option.map_eq_some_iff] at h
        obtain ⟨r, -, hr⟩ := h
        obtain ⟨-, rfl⟩ := Prod.mk.injEq .. ▸ hr
        exact List.cons_ne_nil _ _

/-- The used blocks of the list, headers and payloads, are the same in both
memories. -/
def KeepsUsed (a : Nat) (bs : List Blk) (mem mem' : Cells) : Prop :=
  ∀ x b, (x, b) ∈ place Blk.span a bs → b.free = false →
    ∀ c, x ≤ c → c < x + b.span → mem' c = mem c

/-- The walk of `mm_alloc` is first fit on the block list, and writes into no block
that is in use. -/
theorem allocWalk_chain {h : Heap} {a size fuel : Nat} {bs : List Blk}
    (hc : Chain h.mem a bs 0) (ha : a ≠ 0) (hend : a + extent Blk.span bs ≤ 2 ^ 64)
    (hb : ∀ b ∈ bs, b.size < 2 ^ 63) (hpos : 0 < size) (hf : bs.length < fuel) :
    (allocBlocks size bs = none ∧ allocWalk size h fuel (link a bs 0) = some (0, h)) ∨
      ∃ o bs' mem', allocBlocks size bs = some (o, bs') ∧
        allocWalk size h fuel (link a bs 0)
          = some (a + o + blockHeader, { h with mem := mem' }) ∧
        Chain mem' a bs' 0 ∧ AgreeOutside a (a + extent Blk.span bs) h.mem mem' ∧
        KeepsUsed a bs h.mem mem' := by
  induction bs generalizing a fuel with
  | nil =>
      obtain ⟨fuel, rfl⟩ := Nat.exists_eq_add_one_of_ne_zero (Nat.ne_zero_of_lt hf)
      exact .inl ⟨rfl, by simp [allocWalk]⟩
  | cons b bs ih =>
      obtain ⟨fuel, rfl⟩ := Nat.exists_eq_add_one_of_ne_zero (Nat.ne_zero_of_lt hf)
      have hread : (h.isFree a ≠ 0 ∧ size ≤ h.size a) ↔ (b.free ∧ size ≤ b.size) := by
        simp only [Heap.isFree, Heap.size, hc.1.isFree, hc.1.size]
        cases b.free <;> simp
      by_cases hfit : b.free ∧ size ≤ b.size
      · obtain ⟨hptr, hch, hag⟩ :=
          takeBlock_chain hc hend (hb b (by simp)) hpos hfit.2
        refine .inr ⟨0, carve size b ++ bs, (takeBlock h a size).2.mem, ?_, ?_, hch, ?_, ?_⟩
        · rw [allocBlocks, if_pos hfit]
        · rw [link_cons, allocWalk, if_neg ha, if_pos (hread.mpr hfit), ← takeBlock_globals]
          exact congrArg some (Prod.ext hptr rfl)
        · exact hag.mono le_rfl (by simp only [extent_cons]; omega)
        · intro x c hx hused z hlo hhi
          rcases List.mem_cons.mp hx with he | hx
          · -- the block taken was not in use
            rw [(Prod.mk.inj he).2, hfit.1] at hused
            cases hused
          · exact hag z (.inr ((place_bounds hx).1.trans hlo))
      · have hspan := b.span_pos
        have hstep : allocWalk size h (fuel + 1) (link a (b :: bs) 0)
            = allocWalk size h fuel (link (a + b.span) bs 0) := by
          rw [link_cons, allocWalk, if_neg ha, if_neg (fun hr => hfit (hread.mp hr)), Heap.next,
            hc.1.next]
        simp only [extent_cons] at hend
        rw [hstep, allocBlocks_cons_of_not hfit]
        rcases ih hc.2 (by omega) (by omega) (fun c hc => hb c (by simp [hc]))
          (by simpa using hf) with ⟨hn, hw⟩ | ⟨o, bs', mem', hs, hw, hch, hag, hkeep⟩
        · exact .inl ⟨by rw [hn]; rfl, hw⟩
        · refine .inr ⟨b.span + o, b :: bs', mem', by rw [hs]; rfl, ?_, ⟨?_, hch⟩, ?_, ?_⟩
          · rw [hw, ← Nat.add_assoc a]
          · -- the header in front is outside the region the rest was changed in
            have hl : link (a + b.span) bs' 0 = link (a + b.span) bs 0 := by
              obtain ⟨h₁, h₂⟩ := allocBlocks_ne_nil hs
              cases bs with
              | nil => exact absurd rfl h₁
              | cons _ _ => cases bs' with
                | nil => exact absurd rfl h₂
                | cons _ _ => rfl
            have hb24 : blockHeader ≤ b.span := Nat.le_add_right _ _
            simp only [blockHeader] at hb24
            rw [hl]
            exact ⟨(hag a (.inl (by omega))).trans hc.1.size,
              (hag (a + 8) (.inl (by omega))).trans hc.1.isFree,
              (hag (a + 16) (.inl (by omega))).trans hc.1.next⟩
          · exact hag.mono (by omega) (by simp only [extent_cons]; omega)
          · intro x c hx hused z hlo hhi
            rcases List.mem_cons.mp hx with he | hx
            · obtain ⟨rfl, rfl⟩ := Prod.mk.inj he
              exact hag z (.inl hhi)
            · exact hkeep x c hx hused z hlo hhi

/-! ### Releasing a block -/

/-- Absorbing the following block removes it from the chain. -/
theorem absorb_chain {h : Heap} {a z : Nat} {b c : Blk} {bs : List Blk}
    (hc : Chain h.mem a (b :: c :: bs) z)
    (hend : extent Blk.span (b :: c :: bs) < 2 ^ 64) :
    Chain (absorb h a (a + b.span)).mem a (⟨b.size + c.span, b.free⟩ :: bs) z ∧
      AgreeOutside a (a + blockHeader) h.mem (absorb h a (a + b.span)).mem := by
  obtain ⟨⟨hsz, hfr, -⟩, ⟨hsz', -, hnx'⟩, hrest⟩ := hc
  simp only [extent_cons, Blk.span, blockHeader] at *
  have hsum : w64 (b.size + w64 (24 + c.size)) = b.size + (24 + c.size) := by
    rw [w64_of_lt (show 24 + c.size < 2 ^ 64 by omega), w64_of_lt (by omega)]
  have hmem : (absorb h a (a + (24 + b.size))).mem =
      Function.update (Function.update h.mem a (b.size + (24 + c.size))) (a + 16)
        (link (a + (24 + b.size) + (24 + c.size)) bs z) := by
    simp (disch := omega) only [absorb, Heap.size, Heap.next, Heap.setSize, Heap.setNext,
      Heap.store, blockHeader, hsz, hsz', hsum, hnx', Function.update_of_ne]
  have hadj : a + (24 + (b.size + (24 + c.size))) = a + (24 + b.size) + (24 + c.size) := by omega
  simp only [chain_cons, Blk.span, blockHeader, hadj]
  refine ⟨⟨⟨?_, ?_, ?_⟩, hrest.congr fun x h₁ h₂ => ?_⟩, fun x hx => ?_⟩ <;>
    simp (disch := omega) only [hmem, Function.update_of_ne, Function.update_self, hfr]

/-- The predecessor walk passes the blocks of `pre`, none of which ends at the block
sought, and stops at the one behind them. -/
theorem prevWalk_stops {h : Heap} {a z block fuel : Nat} {q : Blk} {pre rest : List Blk}
    (hc : Chain h.mem a (pre ++ q :: rest) z) (hf : pre.length < fuel)
    (hpass : block ≤ a ∨ a + extent Blk.span pre < block)
    (hstop : h.next (a + extent Blk.span pre) = 0 ∨ h.next (a + extent Blk.span pre) = block) :
    prevWalk h block fuel a = some (a + extent Blk.span pre) := by
  induction pre generalizing a fuel with
  | nil =>
      obtain ⟨fuel, rfl⟩ := Nat.exists_eq_add_one_of_ne_zero (Nat.ne_zero_of_lt hf)
      have hzero : a + extent Blk.span [] = a := rfl
      rw [hzero] at hstop ⊢
      rw [prevWalk, if_neg fun hn => hstop.elim hn.1 hn.2]
  | cons r pre ih =>
      obtain ⟨fuel, rfl⟩ := Nat.exists_eq_add_one_of_ne_zero (Nat.ne_zero_of_lt hf)
      have hn : h.next a = a + r.span := hc.1.next.trans (link_append_cons _ pre _ _ _)
      have hr := r.span_pos
      rw [extent_cons] at hpass
      rw [extent_cons, ← Nat.add_assoc] at hstop ⊢
      rw [prevWalk, hn, if_pos ⟨by omega, by omega⟩]
      exact ih hc.2 (Nat.lt_of_succ_lt_succ hf) (by omega) hstop

/-- The walk finds the block whose `next` is the one sought. -/
theorem prevWalk_chain {h : Heap} {a z fuel : Nat} {p c : Blk} {pre rest : List Blk}
    (hc : Chain h.mem a (pre ++ p :: c :: rest) z) (hf : pre.length < fuel) :
    prevWalk h (a + extent Blk.span pre + p.span) fuel a
      = some (a + extent Blk.span pre) := by
  obtain ⟨-, hp⟩ := chain_append.mp hc
  have hpos := p.span_pos
  exact prevWalk_stops hc hf (.inr (by omega)) (.inr hp.1.next)

theorem freeBlocks_concat (b p : Blk) (post pre : List Blk) :
    freeBlocks b post (pre ++ [p]) =
      pre ++ if p.free then mergeNext p (mergeNext ⟨b.size, true⟩ post)
        else p :: mergeNext ⟨b.size, true⟩ post := by
  induction pre with
  | nil => simp [freeBlocks]
  | cons q pre ih =>
      cases pre with
      | nil => simp [freeBlocks]
      | cons r pre =>
          rw [List.cons_append, List.cons_append, freeBlocks, ← List.cons_append, ih,
            ← List.cons_append]

/-- Change the tail of a chain and leave the cells in front of it alone. -/
theorem Chain.replace {mem mem' : Cells} {a z : Nat} {pre : List Blk} {x y : Blk}
    {xs ys : List Blk} (h : Chain mem a (pre ++ x :: xs) z)
    (hnew : Chain mem' (a + extent Blk.span pre) (y :: ys) z)
    (hag : ∀ c, c < a + extent Blk.span pre → mem' c = mem c) :
    Chain mem' a (pre ++ y :: ys) z := by
  rw [chain_append] at h ⊢
  exact ⟨h.1.congr fun c _ hc => hag c hc, hnew⟩

/-- Marking a block free changes its flag in the list. -/
theorem setIsFree_chain {h : Heap} {a z : Nat} {b : Blk} {bs : List Blk}
    (hc : Chain h.mem a (b :: bs) z) :
    Chain (h.setIsFree a 1).mem a (⟨b.size, true⟩ :: bs) z := by
  obtain ⟨⟨hsz, -, hnx⟩, hrest⟩ := hc
  simp only [Blk.span, blockHeader] at *
  refine ⟨⟨?_, ?_, ?_⟩, hrest.congr fun x h₁ h₂ => ?_⟩ <;>
    simp (disch := omega) only [Heap.setIsFree, Heap.store, Function.update_of_ne,
      Function.update_self, hsz, hnx, Blk.span, blockHeader, Bool.toNat_true]

theorem absorbNext_chain {h : Heap} {a : Nat} {b : Blk} {bs : List Blk}
    (hc : Chain h.mem a (b :: bs) 0) (hend : extent Blk.span (b :: bs) < 2 ^ 64)
    (hfree : b.free = true) :
    Chain (absorbNext h a).mem a (mergeNext b bs) 0 ∧
      AgreeOutside a (a + blockHeader) h.mem (absorbNext h a).mem := by
  have hn : h.next a = link (a + b.span) bs 0 := hc.1.next
  cases bs with
  | nil =>
      simp only [absorbNext, hn, link_nil, ne_eq, not_true_eq_false, false_and, if_false]
      exact ⟨hc, AgreeOutside.refl _ _ _⟩
  | cons c bs =>
      have hspan := b.span_pos
      have hfr : h.isFree (a + b.span) = c.free.toNat := hc.2.1.isFree
      have hne : a + b.span ≠ 0 := by omega
      simp only [absorbNext, hn, link_cons, hfr, ne_eq, hne, not_false_eq_true, true_and]
      cases hcf : c.free with
      | false =>
          simp only [Bool.toNat_false, not_true_eq_false, if_false, mergeNext, hcf,
            Bool.false_eq_true]
          exact ⟨hc, AgreeOutside.refl _ _ _⟩
      | true =>
          have := absorb_chain hc hend
          rw [hfree] at this
          simpa [mergeNext, hcf] using this

/-- `mm_free` from the point where the block has been found in use. -/
theorem mmFree_eq (h : Heap) (block : Nat) (hlo : h.heapStart ≤ block + blockHeader)
    (hhi : block + blockHeader < w64 (h.heapStart + h.heapSize))
    (hused : h.isFree block = 0) :
    mmFree h (block + blockHeader) =
      let h' := absorbNext (h.setIsFree block 1) block
      (prevWalk h' block h'.walkBound h'.firstBlock).map fun prev =>
        if prev ≠ block ∧ h'.isFree prev ≠ 0 then absorb h' prev block else h' := by
  have hsub : sub64 (block + blockHeader) blockHeader = block := by
    rw [sub64_of_le (by omega) (hhi.trans (w64_lt _))]
    omega
  have h0 : block + blockHeader ≠ 0 := by simp [blockHeader]
  simp only [mmFree, h0, if_false, hsub, hused, ne_eq, not_true_eq_false]
  rw [if_neg (by omega)]

theorem absorbNext_globals (h : Heap) (block : Nat) :
    absorbNext h block = { h with mem := (absorbNext h block).mem } := by
  unfold absorbNext
  split <;> rfl

/-- A released block either stands as it is, in front of a used block or at the
end, or takes in the free block behind it. -/
theorem mergeNext_cases (n : Nat) (post : List Blk) :
    (mergeNext ⟨n, true⟩ post = ⟨n, true⟩ :: post ∧ ∀ c ∈ post.head?, c.free = false) ∨
      ∃ c post', post = c :: post' ∧ c.free = true ∧
        mergeNext ⟨n, true⟩ post = ⟨n + c.span, true⟩ :: post' := by
  rcases post with - | ⟨c, post⟩
  · exact .inl ⟨rfl, by simp⟩
  · cases hc : c.free
    · exact .inl ⟨by simp [mergeNext, hc], by simpa using hc⟩
    · exact .inr ⟨c, post, rfl, hc, by simp [mergeNext, hc]⟩

/-- A merge leaves a free block in front. -/
theorem mergeNext_eq_cons (n : Nat) (post : List Blk) :
    ∃ m post', mergeNext ⟨n, true⟩ post = ⟨m, true⟩ :: post' := by
  rcases mergeNext_cases n post with ⟨h, -⟩ | ⟨c, post', -, -, h⟩
  · exact ⟨n, post, h⟩
  · exact ⟨n + c.span, post', h⟩

theorem extent_mergeNext (b : Blk) (post : List Blk) :
    extent Blk.span (mergeNext b post) = b.span + extent Blk.span post := by
  rcases post with - | ⟨c, post⟩
  · simp [mergeNext]
  · simp only [mergeNext]
    split
    · simp only [extent_cons, Blk.span]; omega
    · simp only [extent_cons]

/-- The middle of `mm_free`: the block is marked free and takes in a free
successor.  Only the block's own header is written. -/
theorem release_chain {h : Heap} {a : Nat} {b : Blk} {pre post : List Blk}
    (hc : Chain h.mem a (pre ++ b :: post) 0) (hend : b.span + extent Blk.span post < 2 ^ 64)
    {x : Nat} (hx : x = a + extent Blk.span pre) :
    Chain (absorbNext (h.setIsFree x 1) x).mem a (pre ++ mergeNext ⟨b.size, true⟩ post) 0 ∧
      AgreeOutside x (x + blockHeader) h.mem (absorbNext (h.setIsFree x 1) x).mem := by
  subst hx
  have hb := (chain_append.mp hc).2
  obtain ⟨m, post', hm⟩ := mergeNext_eq_cons b.size post
  obtain ⟨hc₂, hag₂⟩ := absorbNext_chain (setIsFree_chain hb) (by rw [extent_cons]; exact hend) rfl
  have hag : AgreeOutside (a + extent Blk.span pre) (a + extent Blk.span pre + blockHeader) h.mem
      (absorbNext (h.setIsFree (a + extent Blk.span pre) 1) (a + extent Blk.span pre)).mem :=
    (AgreeOutside.update h.mem 1 (by omega) (by simp only [blockHeader]; omega)).trans hag₂
  refine ⟨?_, hag⟩
  rw [hm] at hc₂ ⊢
  exact hc.replace hc₂ fun c hcx => hag c (.inl hcx)

/-- Looking for a block that no `next` points to, the walk runs to the end of
the list. -/
theorem prevWalk_last {h : Heap} {a block fuel : Nat} {l : Blk} {pre : List Blk}
    (hc : Chain h.mem a (pre ++ [l]) 0) (hb : block ≤ a) (hf : pre.length < fuel) :
    prevWalk h block fuel a = some (a + extent Blk.span pre) := by
  obtain ⟨-, hl⟩ := chain_append.mp hc
  exact prevWalk_stops hc hf (.inl hb) (.inl hl.1.next)

/-- `mm_free` of a used block other than the first one finds the block in front of
it, and takes the released block into that one if it is free. -/
theorem mmFree_inner {h : Heap} {b p : Blk} {pre post : List Blk}
    (hfirst : h.firstBlock = h.heapStart)
    (hc : Chain h.mem h.heapStart ((pre ++ [p]) ++ b :: post) 0)
    (hext : extent Blk.span ((pre ++ [p]) ++ b :: post) = h.heapSize)
    (hend : h.heapStart + h.heapSize < 2 ^ 64) (hused : b.free = false)
    (hin : extent Blk.span (pre ++ [p]) + blockHeader < h.heapSize)
    {x : Nat} (hx : x = h.heapStart + extent Blk.span (pre ++ [p])) :
    mmFree h (x + blockHeader) =
      some (if p.free then
          absorb (absorbNext (h.setIsFree x 1) x) (h.heapStart + extent Blk.span pre) x
        else absorbNext (h.setIsFree x 1) x) := by
  obtain ⟨-, hb⟩ := chain_append.mp hc
  rw [← hx] at hb
  obtain ⟨m, post', hm⟩ := mergeNext_eq_cons b.size post
  have hsize : extent Blk.span (pre ++ [p]) + (b.span + extent Blk.span post) = h.heapSize := by
    rw [← hext]
    simp only [extent_append, extent_cons]
  have hlen : (pre ++ [p]).length < h.walkBound := by
    have := length_le_extent (pre ++ [p])
    have := b.span_pos
    simp only [Heap.walkBound]
    omega
  obtain ⟨hfull, -⟩ := release_chain hc (by omega) hx
  have hglob : absorbNext (h.setIsFree x 1) x
      = { h with mem := (absorbNext (h.setIsFree x 1) x).mem } :=
    absorbNext_globals (h.setIsFree x 1) x
  have hfree := mmFree_eq h x (by omega) (by rw [w64_of_lt hend]; omega)
    (by show h.mem (x + 8) = 0; rw [hb.1.isFree, hused]; rfl)
  generalize absorbNext (h.setIsFree x 1) x = h₂ at hfull hglob hfree ⊢
  rw [hm, List.append_assoc, List.singleton_append] at hfull
  have hxp : x = h.heapStart + extent Blk.span pre + p.span := by
    rw [hx]; simp only [extent_append, extent_cons, extent_nil]; omega
  have hwalk : prevWalk h₂ x h₂.walkBound h₂.firstBlock
      = some (h.heapStart + extent Blk.span pre) := by
    have hw : h₂.walkBound = h.walkBound := by rw [hglob]; rfl
    have hfb : h₂.firstBlock = h.heapStart := by rw [hglob]; exact hfirst
    rw [hxp, hw, hfb]
    exact prevWalk_chain hfull (by simp only [List.length_append] at hlen; omega)
  have hpf : h₂.isFree (h.heapStart + extent Blk.span pre) = p.free.toNat :=
    (chain_append.mp hfull).2.1.isFree
  have hne : h.heapStart + extent Blk.span pre ≠ x := by have := p.span_pos; omega
  rw [hfree]
  simp only [hwalk, Option.map_some, ne_eq, hne, not_false_eq_true, true_and, hpf]
  cases p.free <;> rfl

/-- **`mm_free` of a used block other than the first one** releases it in the
list: it is merged with a free block behind it and with a free block in front
of it. -/
theorem mmFree_chain {h : Heap} {b p : Blk} {pre post : List Blk}
    (hfirst : h.firstBlock = h.heapStart)
    (hc : Chain h.mem h.heapStart ((pre ++ [p]) ++ b :: post) 0)
    (hext : extent Blk.span ((pre ++ [p]) ++ b :: post) = h.heapSize)
    (hend : h.heapStart + h.heapSize < 2 ^ 64) (hused : b.free = false)
    (hin : extent Blk.span (pre ++ [p]) + blockHeader < h.heapSize) :
    ∃ mem', mmFree h (h.heapStart + extent Blk.span (pre ++ [p]) + blockHeader)
        = some { h with mem := mem' } ∧
      Chain mem' h.heapStart (freeBlocks b post (pre ++ [p])) 0 ∧
      AgreeOutside (h.heapStart + extent Blk.span (if p.free then pre else pre ++ [p]))
        (h.heapStart + extent Blk.span (pre ++ [p]) + blockHeader) h.mem mem' := by
  set x := h.heapStart + extent Blk.span (pre ++ [p]) with hx
  obtain ⟨m, post', hm⟩ := mergeNext_eq_cons b.size post
  have hsize : extent Blk.span (pre ++ [p]) + (b.span + extent Blk.span post) = h.heapSize := by
    rw [← hext]
    simp only [extent_append, extent_cons]
  -- the block is marked free and takes in a free successor
  obtain ⟨hfull, hag₁₂⟩ := release_chain hc (by omega) hx
  have hglob : absorbNext (h.setIsFree x 1) x
      = { h with mem := (absorbNext (h.setIsFree x 1) x).mem } :=
    absorbNext_globals (h.setIsFree x 1) x
  have hfree := mmFree_inner hfirst hc hext hend hused hin hx
  generalize absorbNext (h.setIsFree x 1) x = h₂ at hfull hag₁₂ hglob hfree
  rw [hm, List.append_assoc, List.singleton_append] at hfull
  have hxp : x = h.heapStart + extent Blk.span pre + p.span := by
    rw [hx]; simp only [extent_append, extent_cons, extent_nil]; omega
  rw [freeBlocks_concat, hm]
  cases hp : p.free with
  | false =>
      refine ⟨h₂.mem, ?_, ?_, ?_⟩
      · simpa [hp, ← hglob] using hfree
      · simpa using hfull
      · exact hag₁₂
  | true =>
      -- merge into the free predecessor
      obtain ⟨hfpre, hfp⟩ := chain_append.mp hfull
      have hext' : extent Blk.span (p :: ⟨m, true⟩ :: post') < 2 ^ 64 := by
        rw [extent_cons, ← hm, extent_mergeNext]
        show p.span + (b.span + _) < _
        simp only [extent_append, extent_cons, extent_nil] at hsize
        omega
      obtain ⟨hc₃, hag₃⟩ := absorb_chain hfp hext'
      rw [← hxp] at hc₃ hag₃
      refine ⟨(absorb h₂ (h.heapStart + extent Blk.span pre) x).mem, ?_, ?_, ?_⟩
      · rw [hfree, hp, if_pos rfl, hglob]
        rfl
      · simp only [mergeNext, if_true]
        rw [hp] at hc₃
        exact hfull.replace hc₃ fun c hcx => hag₃ c (.inl hcx)
      · simp only [if_true]
        exact (hag₁₂.mono (by omega) le_rfl).trans (hag₃.mono le_rfl (by omega))

/-- **`mm_free` of the first block**, up to the search for a predecessor: that
search ends at the last block of the list. -/
theorem mmFree_first {h : Heap} {b l : Blk} {post pre' : List Blk}
    (hfirst : h.firstBlock = h.heapStart) (hc : Chain h.mem h.heapStart (b :: post) 0)
    (hext : extent Blk.span (b :: post) = h.heapSize)
    (hend : h.heapStart + h.heapSize < 2 ^ 64) (hused : b.free = false)
    (hin : blockHeader < h.heapSize) (hlast : mergeNext ⟨b.size, true⟩ post = pre' ++ [l]) :
    ∃ h₂ : Heap, h₂ = { h with mem := h₂.mem } ∧
      Chain h₂.mem h.heapStart (pre' ++ [l]) 0 ∧
      AgreeOutside h.heapStart (h.heapStart + blockHeader) h.mem h₂.mem ∧
      mmFree h (h.heapStart + blockHeader) =
        some (if pre' ≠ [] ∧ l.free then
          absorb h₂ (h.heapStart + extent Blk.span pre') h.heapStart else h₂) := by
  rw [extent_cons] at hext
  obtain ⟨hfull, hag⟩ := @release_chain h h.heapStart b [] post hc (by omega) _ rfl
  have hfree := mmFree_eq h h.heapStart (by omega) (by rw [w64_of_lt hend]; omega)
    (by show h.mem (h.heapStart + 8) = 0; rw [hc.1.isFree, hused]; rfl)
  have hglob := absorbNext_globals (h.setIsFree h.heapStart 1) h.heapStart
  simp only [extent_nil, Nat.add_zero, List.nil_append, hlast] at hfull hag
  refine ⟨absorbNext (h.setIsFree h.heapStart 1) h.heapStart, hglob, hfull, hag, ?_⟩
  generalize absorbNext (h.setIsFree h.heapStart 1) h.heapStart = h₂ at hfull hglob hfree
  have hlen : pre'.length < h₂.walkBound := by
    have hle := length_le_extent (pre' ++ [l])
    rw [← hlast, extent_mergeNext] at hle
    have : (⟨b.size, true⟩ : Blk).span = b.span := rfl
    have hw : h₂.walkBound = h.heapSize + 1 := by rw [hglob]; rfl
    simp only [hlast, List.length_append, List.length_singleton] at hle
    omega
  have hwalk : prevWalk h₂ h.heapStart h₂.walkBound h₂.firstBlock
      = some (h.heapStart + extent Blk.span pre') := by
    have hfb : h₂.firstBlock = h.heapStart := by rw [hglob]; exact hfirst
    rw [hfb]
    exact prevWalk_last hfull le_rfl hlen
  have hlf : h₂.isFree (h.heapStart + extent Blk.span pre') = l.free.toNat :=
    (chain_append.mp hfull).2.1.isFree
  rw [hfree]
  simp only [hwalk, Option.map_some, hlf]
  -- the walk has moved off the first block exactly when others are left behind it
  have hmoved : h.heapStart + extent Blk.span pre' ≠ h.heapStart ↔ pre' ≠ [] := by
    cases pre' with
    | nil => simp
    | cons q pre' =>
        have := q.span_pos
        simp only [extent_cons, ne_eq, reduceCtorEq, not_false_eq_true, iff_true]
        omega
  have hset : l.free.toNat ≠ 0 ↔ l.free = true := by cases l.free <;> simp
  simp only [hmoved, hset]

end FreeList

end TP2Kernel
