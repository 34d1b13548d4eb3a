/-
TP2Kernel/BuddyRun.lean

Whole runs of the buddy manager.  The loops of `mm_init`, `mm_alloc` and
`mm_free` are followed block by block with the moves of `Core`; between two
calls no block is at hand and no free block has a free buddy (`Separate`).

* `mm_init` extends the covered prefix by one block at a time.  Below
  `MAX_ORDER` it makes at most one block of each order, so no two of them can
  be buddies.
* `mm_alloc` takes a block of the first order with a non-empty list.  The
  halves it puts back go to lists that were empty.
* `mm_free` joins until the buddy is not free, which is what `Separate` asks
  for the block it puts back.

Merging never crosses the blocks carved by `mm_init` because a join needs the
buddy on a free list, and everything on a free list is inside the covered
prefix.
-/
import TP2Kernel.Buddy
import TP2Kernel.HeapClient

namespace TP2Kernel

namespace Buddy

/-- No free block of order less than `MAX_ORDER` has a free buddy. -/
def Separate (P : Nat → List Nat) : Prop :=
  ∀ k, minOrder ≤ k → k < maxOrder → ∀ o ∈ P k, o ^^^ 2 ^ k ∉ P k

theorem xor_pow_ne (o k : Nat) : o ^^^ 2 ^ k ≠ o := by
  intro h
  have : 2 ^ k = 0 := by
    rw [← Nat.zero_xor (2 ^ k), ← Nat.xor_self o, Nat.xor_assoc, h, Nat.xor_self]
  exact absurd this (Nat.two_pow_pos k).ne'

theorem xor_pow_xor_pow (o k : Nat) : o ^^^ 2 ^ k ^^^ 2 ^ k = o := by
  rw [Nat.xor_assoc, Nat.xor_self, Nat.xor_zero]

theorem Separate.of_subset {P Q : Nat → List Nat} (h : Separate P) (hsub : ∀ k, Q k ⊆ P k) :
    Separate Q :=
  fun k hk hk' o ho hb => h k hk hk' o (hsub k ho) (hsub k hb)

/-- A block whose buddy is not free may become free. -/
theorem Separate.push {P : Nat → List Nat} {o k : Nat} (h : Separate P)
    (hb : k < maxOrder → o ^^^ 2 ^ k ∉ P k) : Separate (Function.update P k (o :: P k)) := by
  intro j hj hj' x hx hx'
  by_cases hjk : j = k
  · subst hjk
    rw [Function.update_self] at hx hx'
    rcases List.mem_cons.mp hx with rfl | hx
    · rcases List.mem_cons.mp hx' with he | hx'
      · exact xor_pow_ne x j he
      · exact hb hj' hx'
    · rcases List.mem_cons.mp hx' with he | hx'
      · rw [← he, xor_pow_xor_pow] at hb
        exact hb hj' hx
      · exact h j hj hj' x hx hx'
  · rw [Function.update_of_ne hjk] at hx hx'
    exact h j hj hj' x hx hx'

/-! ### `order_for_size` and the search for a list -/

/-- `k` is the least order whose blocks hold `size` bytes. -/
structure Needs (size k : Nat) : Prop where
  min : minOrder ≤ k
  fits : size ≤ 2 ^ k
  least : ∀ j, minOrder ≤ j → j < k → 2 ^ j < size

theorem orderWalk_spec {size fuel order : Nat} (hf : 0 < fuel)
    (hs : size ≤ 2 ^ (order + fuel - 1)) :
    ∃ r, orderWalk size fuel order = some r ∧ order ≤ r ∧ size ≤ 2 ^ r ∧
      ∀ j, order ≤ j → j < r → 2 ^ j < size := by
  induction fuel generalizing order with
  | zero => omega
  | succ fuel ih =>
      rw [orderWalk]
      by_cases hlt : 2 ^ order < size
      · rw [if_pos hlt]
        have hpos : 0 < fuel := by
          rcases Nat.eq_zero_or_pos fuel with rfl | hpos
          · have : order + (0 + 1) - 1 = order := by omega
            rw [this] at hs
            omega
          · exact hpos
        have he : order + 1 + fuel - 1 = order + (fuel + 1) - 1 := by omega
        obtain ⟨r, hr, hle, hsize, hleast⟩ := ih hpos (by rw [he]; exact hs)
        refine ⟨r, hr, by omega, hsize, fun j hj hjr => ?_⟩
        rcases Nat.eq_or_lt_of_le hj with rfl | hj
        · exact hlt
        · exact hleast j hj hjr
      · rw [if_neg hlt]
        exact ⟨order, rfl, le_refl _, by omega, fun j hj hjr => by omega⟩

/-- `order_for_size` answers with the order needed, or `-1` above `MAX_ORDER`. -/
theorem orderForSize_spec {size : Nat} (hs : size ≤ 2 ^ 63) :
    ∃ k, Needs size k ∧ orderForSize size = some (if maxOrder < k then none else some k) := by
  obtain ⟨r, hr, hle, hsize, hleast⟩ := @orderWalk_spec size (64 - minOrder) minOrder (by decide)
    (by exact hs)
  refine ⟨r, ⟨hle, hsize, hleast⟩, ?_⟩
  unfold orderForSize
  rw [hr, Option.map_some]

theorem findOrder_some {h : Heap} {order found : Nat} (hf : findOrder h order = some found) :
    order ≤ found ∧ found ≤ maxOrder ∧ h.head found ≠ 0 ∧
      ∀ i, order ≤ i → i < found → h.head i = 0 := by
  obtain ⟨hne, hmem, hbefore⟩ := List.find?_range'_eq_some.mp hf
  rw [List.mem_range'_1] at hmem
  refine ⟨hmem.1, by omega, of_decide_eq_true hne, fun i hi hi' => ?_⟩
  simpa using hbefore i hi hi'

theorem findOrder_none {h : Heap} {order : Nat} (hf : findOrder h order = none) {i : Nat}
    (hi : order ≤ i) (hi' : i ≤ maxOrder) : h.head i = 0 := by
  have := List.find?_eq_none.mp hf i (List.mem_range'_1.mpr ⟨hi, by omega⟩)
  simpa using this

/-! ### Splitting -/

/-- The pool after halving a block of order `order + n` at `o` down to
`order`. -/
def splitPool (P : Nat → List Nat) (o order n : Nat) : Nat → List Nat := fun j =>
  if order ≤ j ∧ j < order + n then (o + 2 ^ j) :: P j else P j

theorem splitPool_zero (P : Nat → List Nat) (o order : Nat) : splitPool P o order 0 = P := by
  funext j
  exact if_neg (by omega)

theorem splitPool_succ (P : Nat → List Nat) (o order n : Nat) :
    splitPool (Function.update P (order + n) ((o + 2 ^ (order + n)) :: P (order + n))) o order n
      = splitPool P o order (n + 1) := by
  funext j
  unfold splitPool
  by_cases hj : j = order + n
  · subst hj
    rw [if_neg (by omega), if_pos (by omega), Function.update_self]
  · rw [Function.update_of_ne hj]
    exact if_congr (by omega) rfl rfl

theorem splitLoop_heapBase (block order n : Nat) (h : Heap) :
    (splitLoop block order n h).heapBase = h.heapBase := by
  induction n generalizing h with
  | zero => rfl
  | succ n ih => exact (ih _).trans listPush_heapBase

theorem splitLoop_heapSize (block order n : Nat) (h : Heap) :
    (splitLoop block order n h).heapSize = h.heapSize := by
  induction n generalizing h with
  | zero => rfl
  | succ n ih => exact (ih _).trans listPush_heapSize

/-- The split loop: one `split` and one `put` for each order passed. -/
theorem splitLoop_core {h : Heap} {N o order n : Nat} {P : Nat → List Nat}
    {H B : List (Nat × Nat)} (hc : Core h N P ((o, order + n) :: H) B)
    (horder : minOrder ≤ order) :
    Core (splitLoop (h.heapBase + o) order n h) N (splitPool P o order n) ((o, order) :: H) B := by
  induction n generalizing h P with
  | zero =>
      rw [splitPool_zero]
      exact hc
  | succ n ih =>
      have hc' := hc.split (k := order + n) (by omega)
      -- the second half starts inside the heap, so the address does not wrap
      have hin := hc'.inside_held (b := (o + 2 ^ (order + n), order + n)) (.head _)
      have hpos : 0 < 2 ^ (order + n) := Nat.two_pow_pos _
      have hw : w64 (h.heapBase + o + 2 ^ (order + n)) = h.heapBase + (o + 2 ^ (order + n)) := by
        have := hc.fits
        simp only at hin
        rw [w64_of_lt (by omega), Nat.add_assoc]
      have hput := hc'.put
      rw [← splitPool_succ, splitLoop, hw]
      have hbase : (Core.enlist h (order + n) (h.heapBase + (o + 2 ^ (order + n)))).heapBase
          = h.heapBase := listPush_heapBase
      have := ih hput
      rw [hbase] at this
      exact this

/-! ### `mm_alloc` -/

/-- Halves go to lists that were empty, so they have no free buddy. -/
theorem Separate.split {P : Nat → List Nat} {o order n : Nat} (h : Separate P)
    (hempty : ∀ j, order ≤ j → j < order + n → P j = []) :
    Separate (splitPool P o order n) := by
  intro j hj hj' x hx hx'
  unfold splitPool at hx hx'
  split at hx
  · rename_i hin
    rw [if_pos hin, hempty j hin.1 hin.2, List.mem_singleton] at hx'
    rw [hempty j hin.1 hin.2, List.mem_singleton] at hx
    rw [hx] at hx'
    exact xor_pow_ne _ _ hx'
  · rename_i hin
    rw [if_neg hin] at hx'
    exact h j hj hj' x hx hx'

/-- What `mm_alloc` finds for order `k`: the first list from `k` on that is not
empty, with `o` at its head. -/
structure Found (P : Nat → List Nat) (k found o : Nat) (l : List Nat) : Prop where
  le : k ≤ found
  max : found ≤ maxOrder
  before : ∀ i, k ≤ i → i < found → P i = []
  first : P found = o :: l

/-- The pool once the block found is taken and halved down to order `k`. -/
def allocPool (P : Nat → List Nat) (k found o : Nat) (l : List Nat) : Nat → List Nat :=
  splitPool (Function.update P found l) o k (found - k)

/-- The block found, taken off its list, halved and labelled. -/
theorem alloc_found {h : Heap} {N o order found : Nat} {P : Nat → List Nat}
    {B : List (Nat × Nat)} {l : List Nat} (hc : Core h N P [] B) (hs : Separate P)
    (hmin : minOrder ≤ order) (hf : Found P order found o l) :
    Core ((splitLoop (h.heapBase + o) order (found - order)
        (listRemove h found (h.heapBase + o))).setOrder (h.heapBase + o) order) N
      (allocPool P order found o l) [] ((o, order) :: B) ∧
    Separate (allocPool P order found o l) := by
  obtain ⟨hle, hmax, hbefore, hP⟩ := hf
  have hfound : found ∈ Finset.Icc minOrder maxOrder := Finset.mem_Icc.mpr ⟨by omega, hmax⟩
  have hn : order + (found - order) = found := by omega
  constructor
  · have htake := hc.take hfound (show P found = [] ++ o :: l from hP)
    have hbase : (listRemove h found (h.heapBase + o)).heapBase = h.heapBase :=
      listRemove_heapBase
    rw [← hn, List.nil_append] at htake
    have hsplit := splitLoop_core htake hmin
    rw [hn, hbase] at hsplit
    have hgive := hsplit.give
    rw [splitLoop_heapBase, hbase] at hgive
    exact hgive
  · have hsub : Separate (Function.update P found l) := by
      refine hs.of_subset fun j => ?_
      by_cases hj : j = found
      · subst hj
        rw [Function.update_self, hP]
        exact List.subset_cons_self o l
      · rw [Function.update_of_ne hj]
        exact List.Subset.refl _
    refine hsub.split fun j hj hj' => ?_
    rw [Function.update_of_ne (by omega)]
    exact hbefore j hj (by omega)

/-- The search for a list, in terms of the pool. -/
theorem findOrder_core {h : Heap} {N k : Nat} {P : Nat → List Nat} {B : List (Nat × Nat)}
    (hc : Core h N P [] B) (hmin : minOrder ≤ k) :
    (findOrder h k = none ∧ ∀ i, k ≤ i → i ≤ maxOrder → P i = []) ∨
      ∃ found o l, findOrder h k = some found ∧ h.head found = h.heapBase + o ∧
        Found P k found o l := by
  have hnil : ∀ i, k ≤ i → i ≤ maxOrder → h.head i = 0 → P i = [] := by
    intro i hi hi' h0
    rcases hc.head_cases (Finset.mem_Icc.mpr ⟨by omega, hi'⟩ : i ∈ _) with
      ⟨hnil, -⟩ | ⟨o, l, -, hhead⟩
    · exact hnil
    · have := hc.base_ne
      omega
  rcases hfind : findOrder h k with - | found
  · exact .inl ⟨rfl, fun i hi hi' => hnil i hi hi' (findOrder_none hfind hi hi')⟩
  · obtain ⟨hle, hmax, hne, hbefore⟩ := findOrder_some hfind
    rcases hc.head_cases (Finset.mem_Icc.mpr ⟨by omega, hmax⟩ : found ∈ _) with
      ⟨-, h0⟩ | ⟨o, l, hP, hhead⟩
    · exact absurd h0 hne
    · refine .inr ⟨found, o, l, rfl, hhead, hle, hmax, fun i hi hi' => ?_, hP⟩
      exact hnil i hi (by omega) (hbefore i hi hi')

/-- **`mm_alloc`** refuses without a change when no list from the order needed on
has a block, and otherwise hands out a block of that order. -/
theorem mmAlloc_core {h : Heap} {N size : Nat} {P : Nat → List Nat} {B : List (Nat × Nat)}
    (hc : Core h N P [] B) (hs : Separate P) (hpos : 0 < size)
    (hsize : size + headerSize ≤ 2 ^ 63) :
    ∃ k, Needs (size + headerSize) k ∧
      ((mmAlloc h size = some (0, h) ∧ ∀ i, k ≤ i → i ≤ maxOrder → P i = []) ∨
        ∃ found o l h', Found P k found o l ∧
          mmAlloc h size = some (h.heapBase + o + headerSize, h') ∧
          h'.heapBase = h.heapBase ∧ h'.heapSize = h.heapSize ∧
          Core h' N (allocPool P k found o l) [] ((o, k) :: B) ∧
          Separate (allocPool P k found o l)) := by
  have hw : w64 (size + headerSize) = size + headerSize := w64_of_lt (by omega)
  obtain ⟨k, hneeds, hord⟩ := orderForSize_spec hsize
  refine ⟨k, hneeds, ?_⟩
  unfold mmAlloc
  rw [if_neg (by omega), hw, hord, Option.map_some]
  by_cases hmax : maxOrder < k
  · rw [if_pos hmax]
    exact .inl ⟨rfl, fun i hi hi' => by omega⟩
  rw [if_neg hmax]
  rcases findOrder_core hc hneeds.min with ⟨hfind, hempty⟩ | ⟨found, o, l, hfind, hhead, hf⟩
  · exact .inl ⟨by simp only [hfind], hempty⟩
  · right
    obtain ⟨hcore, hsep⟩ := alloc_found hc hs hneeds.min hf
    have hptr : w64 (h.heapBase + o + headerSize) = h.heapBase + o + headerSize := by
      have hin := hcore.inside_held (b := (o, k)) (.head _)
      have h32 := le_two_pow (Finset.mem_Icc.mpr ⟨hneeds.min, Nat.le_of_not_lt hmax⟩)
      have := hc.fits
      unfold headerSize
      simp only at hin
      exact w64_of_lt (by omega)
    refine ⟨found, o, l, _, hf, ?_, ?_, ?_, hcore, hsep⟩
    · simp only [hfind, hhead, hptr]
    · exact (splitLoop_heapBase _ _ _ _).trans listRemove_heapBase
    · exact (splitLoop_heapSize _ _ _ _).trans listRemove_heapSize

/-! ### `mm_free` -/

/-- The first step of a walk along a list. -/
theorem linked_first {h : Heap} {k x : Nat} {l : List Nat}
    (hl : Linked 0 (h.nx k) h.prev (x :: l ++ [0])) (h0 : 0 ∉ x :: l) :
    x ≠ 0 ∧ h.next x = l.headD 0 ∧ Linked 0 (h.nx k) h.prev (l ++ [0]) ∧ 0 ∉ l := by
  have hx : x ≠ 0 := fun e => h0 (e ▸ List.mem_cons_self)
  obtain ⟨hnext, hrest⟩ := linked_next hl
  rw [Heap.nx, if_neg hx] at hnext
  exact ⟨hx, hnext, hrest, fun hm => h0 (.tail _ hm)⟩

/-- Walking a list for a node answers whether the node is on it. -/
theorem findBlock_linked {h : Heap} {k buddy fuel : Nat} {l : List Nat}
    (hl : Linked 0 (h.nx k) h.prev (l ++ [0])) (h0 : 0 ∉ l) (hf : l.length < fuel) :
    findBlock h buddy fuel (l.headD 0) = some (decide (buddy ∈ l)) := by
  induction l generalizing fuel with
  | nil =>
      obtain ⟨fuel, rfl⟩ := Nat.exists_eq_add_one_of_ne_zero (Nat.ne_zero_of_lt hf)
      simp [findBlock]
  | cons x l ih =>
      obtain ⟨fuel, rfl⟩ := Nat.exists_eq_add_one_of_ne_zero (Nat.ne_zero_of_lt hf)
      obtain ⟨hx, hnext, hrest, h0'⟩ := linked_first hl h0
      rw [List.headD_cons, findBlock, if_neg hx]
      by_cases hb : x = buddy
      · rw [if_pos hb]
        simp [hb]
      · rw [if_neg hb, hnext, ih hrest h0' (by simpa using hf)]
        simp [Ne.symm hb]

theorem Core.length_le {h : Heap} {N k : Nat} {P : Nat → List Nat} {H B : List (Nat × Nat)}
    (hc : Core h N P H B) (hk : k ∈ Finset.Icc minOrder maxOrder) : (P k).length ≤ N := by
  have hsize := size_of_cover hc.cover (fun j hj o ho => hc.inside_free hj ho)
    fun b hb => hc.inside_held hb
  have hterm : (P k).length * 2 ^ k ≤ sizePool minOrder maxOrder P :=
    Finset.single_le_sum (f := fun j => (P j).length * 2 ^ j) (fun _ _ => Nat.zero_le _) hk
  have hpos : 1 ≤ 2 ^ k := Nat.one_le_two_pow
  calc (P k).length = (P k).length * 1 := (Nat.mul_one _).symm
    _ ≤ (P k).length * 2 ^ k := Nat.mul_le_mul_left _ hpos
    _ ≤ N := by omega

/-- The list of an order can be walked from its head, within the bound on walks. -/
theorem Core.walkable {h : Heap} {N k : Nat} {P : Nat → List Nat} {H B : List (Nat × Nat)}
    (hc : Core h N P H B) (hN : N ≤ h.heapSize) (hk : k ∈ Finset.Icc minOrder maxOrder) :
    h.head k = ((P k).map (h.heapBase + ·)).headD 0 ∧
      Linked 0 (h.nx k) h.prev ((P k).map (h.heapBase + ·) ++ [0]) ∧
      0 ∉ (P k).map (h.heapBase + ·) ∧ ((P k).map (h.heapBase + ·)).length < h.walkBound := by
  have hring := hc.rings k hk
  have hlen := hc.length_le hk
  refine ⟨hring.head, (linked_next hring.linked).2, (List.nodup_cons.mp hring.nodup).1, ?_⟩
  rw [List.length_map]
  unfold Heap.walkBound
  omega

/-- `mm_free`'s search answers whether the buddy is free. -/
theorem findBlock_buddy {h : Heap} {N o k : Nat} {P : Nat → List Nat} {H B : List (Nat × Nat)}
    (hc : Core h N P ((o, k) :: H) B) (hN : N ≤ h.heapSize) :
    findBlock h (w64 (h.heapBase + (o ^^^ 2 ^ k))) h.walkBound (h.head k)
      = some (decide (o ^^^ 2 ^ k ∈ P k)) := by
  have hk : k ∈ Finset.Icc minOrder maxOrder := hc.orders _ (.head _)
  obtain ⟨hhead, hlinked, h0, hbound⟩ := hc.walkable hN hk
  rw [hhead, findBlock_linked hlinked h0 hbound]
  refine congrArg some (decide_eq_decide.mpr ⟨fun hm => ?_, fun hm => ?_⟩)
  · -- the address of a node: the sum did not wrap
    obtain ⟨x, hx, he⟩ := Core.mem_addresses.mp hm
    have hin := hc.inside_free hk hx
    have hin' := hc.inside_held (b := (o, k)) (.head _)
    have hfit := hc.fits
    have h0 := hc.base_ne
    obtain ⟨m, -, hcase⟩ := buddy_cases (hc.aligned (o, k) (.head _))
    have hpos : 0 < 2 ^ k := Nat.two_pow_pos k
    simp only at hcase hin'
    have hb : h.heapBase + (o ^^^ 2 ^ k) < 2 ^ 64 := by
      by_contra hge
      have hwrap : h.heapBase + (o ^^^ 2 ^ k) = 2 ^ 64 := by omega
      rw [hwrap] at he
      have : w64 (2 ^ 64) = 0 := by decide
      omega
    rw [w64_of_lt hb] at he
    have : o ^^^ 2 ^ k = x := by omega
    rwa [this]
  · have hin := hc.inside_free hk hm
    have hpos : 0 < 2 ^ k := Nat.two_pow_pos k
    have hfit := hc.fits
    rw [w64_of_lt (by omega)]
    exact List.mem_map.mpr ⟨_, hm, rfl⟩

/-- Joining with free buddies from order `MAX_ORDER - n` on: the pool without
them, and the block it ends with. -/
def mergePool : Nat → (Nat → List Nat) → Nat → (Nat → List Nat) × Nat × Nat
  | 0, P, o => (P, o, maxOrder)
  | n + 1, P, o =>
      let k := maxOrder - (n + 1)
      let b := o ^^^ 2 ^ k
      if b ∈ P k then mergePool n (Function.update P k ((P k).erase b)) (min b o) else (P, o, k)

/-- The pool after `mm_free` of the block `(o, k)`. -/
def freePool (P : Nat → List Nat) (o k : Nat) : Nat → List Nat :=
  let r := mergePool (maxOrder - k) P o
  Function.update r.1 r.2.2 (r.2.1 :: r.1 r.2.2)

/-- The merge loop: it ends with a block whose buddy is not free. -/
theorem mergeLoop_core {h : Heap} {N o n : Nat} {P : Nat → List Nat} {B : List (Nat × Nat)}
    (hN : N ≤ h.heapSize) (hc : Core h N P [(o, maxOrder - n)] B) (hs : Separate P)
    (hn : n ≤ maxOrder) {r : (Nat → List Nat) × Nat × Nat} (hr : mergePool n P o = r) :
    ∃ h', mergeLoop n h (h.heapBase + o) = some (h', h.heapBase + r.2.1, r.2.2) ∧
      h'.heapBase = h.heapBase ∧ h'.heapSize = h.heapSize ∧ Core h' N r.1 [r.2] B ∧
      Separate r.1 ∧ (r.2.2 < maxOrder → r.2.1 ^^^ 2 ^ r.2.2 ∉ r.1 r.2.2) := by
  induction n generalizing h o P with
  | zero =>
      subst hr
      exact ⟨h, rfl, rfl, rfl, hc, hs, fun hlt => absurd hlt (lt_irrefl _)⟩
  | succ n ih =>
      rw [mergePool] at hr
      set k := maxOrder - (n + 1) with hk
      have hkI : k ∈ Finset.Icc minOrder maxOrder := hc.orders (o, k) (.head _)
      have hfit := hc.fits
      have hin := hc.inside_held (b := (o, k)) (.head _)
      have h32 := le_two_pow hkI
      simp only at hin hr
      have hoff : sub64 (h.heapBase + o) h.heapBase = o := by
        rw [sub64_of_le (by omega) (by omega)]
        omega
      rw [mergeLoop, ← hk]
      simp only [hoff]
      rw [findBlock_buddy hc hN, Option.bind_some]
      by_cases hm : o ^^^ 2 ^ k ∈ P k
      · rw [if_pos hm] at hr
        rw [if_pos (decide_eq_true hm)]
        obtain ⟨xs, ys, hP⟩ := List.append_of_mem hm
        have hbin := hc.inside_free hkI hm
        rw [w64_of_lt (by omega)]
        have htake := (hc.take hkI hP).join (by omega)
        rw [show k + 1 = maxOrder - n by omega] at htake
        have hblock : (if h.heapBase + (o ^^^ 2 ^ k) < h.heapBase + o then
            h.heapBase + (o ^^^ 2 ^ k) else h.heapBase + o)
              = h.heapBase + min (o ^^^ 2 ^ k) o := by
          split <;> omega
        -- the list has the buddy once
        have herase : (P k).erase (o ^^^ 2 ^ k) = xs ++ ys := by
          rw [hP, List.erase_append_right _ fun hx =>
            hc.ne_of_rest hkI hP (List.mem_append_left ys hx) rfl, List.erase_cons_head]
        have hsub : Separate (Function.update P k (xs ++ ys)) := by
          refine hs.of_subset fun j => ?_
          by_cases hj : j = k
          · subst hj
            rw [Function.update_self]
            exact fun x hx => Core.mem_of_rest hP hx
          · rw [Function.update_of_ne hj]
            exact List.Subset.refl _
        rw [herase] at hr
        have hrec := ih (by rw [listRemove_heapSize]; exact hN) htake hsub (by omega) hr
        rw [listRemove_heapBase, listRemove_heapSize] at hrec
        rw [hblock]
        exact hrec
      · rw [if_neg hm] at hr
        subst hr
        rw [if_neg (by simpa using hm)]
        exact ⟨h, rfl, rfl, rfl, hc, hs, fun _ => hm⟩

/-- **`mm_free`** of a live block comes to an end and makes its bytes free. -/
theorem mmFree_core {h : Heap} {N : Nat} {b : Nat × Nat} {P : Nat → List Nat}
    {B₁ B₂ : List (Nat × Nat)} (hN : N ≤ h.heapSize) (hc : Core h N P [] (B₁ ++ b :: B₂))
    (hs : Separate P) :
    ∃ h', mmFree h (h.heapBase + b.1 + headerSize) = some h' ∧
      h'.heapBase = h.heapBase ∧ h'.heapSize = h.heapSize ∧
      Core h' N (freePool P b.1 b.2) [] (B₁ ++ B₂) ∧ Separate (freePool P b.1 b.2) := by
  obtain ⟨o, k⟩ := b
  have hmem : (o, k) ∈ ([] : List (Nat × Nat)) ++ (B₁ ++ (o, k) :: B₂) := by simp
  have hk : k ∈ Finset.Icc minOrder maxOrder := hc.orders (o, k) hmem
  have hkmax := (Finset.mem_Icc.mp hk).2
  have hin := hc.inside_held hmem
  have h32 := le_two_pow hk
  have hfit := hc.fits
  simp only at hin
  have hptr : h.heapBase + o + headerSize ≠ 0 := by unfold headerSize; omega
  have hblock : sub64 (h.heapBase + o + headerSize) headerSize = h.heapBase + o := by
    unfold headerSize
    rw [sub64_of_le (by omega) (by omega)]
    omega
  have horder : h.order (h.heapBase + o) = k := hc.liveOrder (o, k) (by simp)
  have hrel := hc.release
  rw [← Nat.sub_sub_self hkmax] at hrel
  obtain ⟨h', hcode, hbase, hsz, hcore, hsep, hlast⟩ :=
    mergeLoop_core hN hrel hs (Nat.sub_le _ _) rfl
  -- a block of order `MAX_ORDER` enters no merge
  have hmerge : (if k < maxOrder then mergeLoop (maxOrder - k) h (h.heapBase + o)
      else some (h, h.heapBase + o, k)) = mergeLoop (maxOrder - k) h (h.heapBase + o) := by
    split
    · rfl
    · obtain rfl : k = maxOrder := by omega
      rw [Nat.sub_self, mergeLoop]
  have hput := hcore.put
  rw [hbase] at hput
  refine ⟨_, ?_, ?_, ?_, hput, hsep.push hlast⟩
  · unfold mmFree
    rw [if_neg hptr]
    simp only [hblock, horder]
    rw [hmerge, hcode]
    rfl
  · exact listPush_heapBase.trans hbase
  · exact listPush_heapSize.trans hsz

/-! ### `mm_init` -/

/-- The next block extends the covered prefix. -/
theorem Core.grow {h : Heap} {N k : Nat} {P : Nat → List Nat} (hc : Core h N P [] [])
    (hk : k ∈ Finset.Icc minOrder maxOrder) (hd : 2 ^ k ∣ N)
    (hfit : h.heapBase + (N + 2 ^ k) ≤ 2 ^ 64) : Core h (N + 2 ^ k) P [(N, k)] [] := by
  refine ⟨hc.base_ne, hfit, hc.rings, hc.freeOrder, by simp, hc.freeAligned, ?_, ?_, ?_⟩
  · intro b hb
    obtain rfl : b = (N, k) := by simpa using hb
    exact hd
  · intro b hb
    obtain rfl : b = (N, k) := by simpa using hb
    exact hk
  · intro x
    have hx := hc.cover x
    simp only [List.append_nil, coverList_nil, coverList_cons, Nat.add_zero] at hx ⊢
    rw [hx, ind]
    split_ifs <;> omega

/-- Carving blocks of one order: every block carved is on its list, and less
than one block remains. -/
theorem carveOrder_core {k fuel off rem : Nat} {h : Heap} {P : Nat → List Nat}
    (hc : Core h off P [] []) (hk : k ∈ Finset.Icc minOrder maxOrder)
    (hsum : off + rem = h.heapSize) (hfit : h.heapBase + h.heapSize ≤ 2 ^ 64)
    (hd : 2 ^ k ∣ off) (hfuel : rem < (fuel + 1) * 2 ^ k) :
    ∃ h' off' rem' P', carveOrder k fuel (h, off, rem) = (h', off', rem') ∧
      h'.heapBase = h.heapBase ∧ h'.heapSize = h.heapSize ∧ Core h' off' P' [] [] ∧
      off' + rem' = h.heapSize ∧ 2 ^ k ∣ off' ∧ rem' < 2 ^ k ∧
      (∀ j, j ≠ k → P' j = P j) ∧
      (P' k).length * 2 ^ k + rem' = (P k).length * 2 ^ k + rem := by
  induction fuel generalizing h off rem P with
  | zero =>
      exact ⟨h, off, rem, P, rfl, rfl, rfl, hc, hsum, hd, by omega, fun _ _ => rfl, rfl⟩
  | succ fuel ih =>
      rw [carveOrder]
      by_cases hle : 2 ^ k ≤ rem
      · have h32 := le_two_pow hk
        have h0 := hc.base_ne
        have hput := (hc.grow hk hd (by omega)).put
        have hblock : w64 (h.heapBase + off) = h.heapBase + off := w64_of_lt (by omega)
        have hoff : w64 (off + 2 ^ k) = off + 2 ^ k := w64_of_lt (by omega)
        have hrem : sub64 rem (2 ^ k) = rem - 2 ^ k := sub64_of_le hle (by omega)
        have hbase : (Core.enlist h k (h.heapBase + off)).heapBase = h.heapBase :=
          listPush_heapBase
        have hsize : (Core.enlist h k (h.heapBase + off)).heapSize = h.heapSize :=
          listPush_heapSize
        have hmul : (fuel + 1 + 1) * 2 ^ k = (fuel + 1) * 2 ^ k + 2 ^ k := Nat.succ_mul _ _
        obtain ⟨h', off', rem', P', hrun, hb, hz, hcore, hs', hd', hlt, hother, hlen⟩ :=
          @ih (off + 2 ^ k) (rem - 2 ^ k) _ _ hput (by rw [hsize]; omega)
            (by rw [hsize, hbase]; exact hfit) (hd.add (dvd_refl _)) (by omega)
        refine ⟨h', off', rem', P', ?_, hb.trans hbase, hz.trans hsize, hcore,
          hs'.trans hsize, hd', hlt, ?_, ?_⟩
        · rw [if_pos hle, hblock, hoff, hrem]
          exact hrun
        · intro j hj
          rw [hother j hj, Function.update_of_ne hj]
        · rw [hlen, Function.update_self, List.length_cons, Nat.succ_mul]
          omega
      · rw [if_neg hle]
        exact ⟨h, off, rem, P, rfl, rfl, rfl, hc, hsum, hd, by omega, fun _ _ => rfl, rfl⟩

/-- Below `MAX_ORDER` the lists have at most one block each. -/
def AtMostOne (P : Nat → List Nat) : Prop := ∀ j, j < maxOrder → (P j).length ≤ 1

theorem AtMostOne.separate {P : Nat → List Nat} (h : AtMostOne P) : Separate P := by
  intro k _ hk o ho hb
  have hlen := h k hk
  rcases hP : P k with - | ⟨a, - | ⟨c, l⟩⟩
  · rw [hP] at ho
    cases ho
  · rw [hP, List.mem_singleton] at ho hb
    exact xor_pow_ne o k (hb.trans ho.symm)
  · rw [hP] at hlen
    simp at hlen

/-- The loop over the orders. -/
theorem carveOrders_core {n off rem : Nat} {h : Heap} {P : Nat → List Nat}
    (hc : Core h off P [] []) (hn : minOrder + n ≤ maxOrder + 1)
    (hsum : off + rem = h.heapSize) (hfit : h.heapBase + h.heapSize ≤ 2 ^ 64)
    (hd : 2 ^ (minOrder + n) ∣ off) (hrem : minOrder + n ≤ maxOrder → rem < 2 ^ (minOrder + n))
    (hempty : ∀ j, j < minOrder + n → P j = []) (hone : AtMostOne P) :
    ∃ h' off' rem' P', carveOrders n (h, off, rem) = (h', off', rem') ∧
      h'.heapBase = h.heapBase ∧ h'.heapSize = h.heapSize ∧ Core h' off' P' [] [] ∧
      off' + rem' = h.heapSize ∧ 2 ^ minOrder ∣ off' ∧ rem' < 2 ^ minOrder ∧ AtMostOne P' := by
  induction n generalizing h off rem P with
  | zero =>
      exact ⟨h, off, rem, P, rfl, rfl, rfl, hc, hsum, hd, hrem (by decide), hone⟩
  | succ n ih =>
      rw [carveOrders]
      by_cases hpos : 0 < rem
      · have hk : minOrder + n ∈ Finset.Icc minOrder maxOrder :=
          Finset.mem_Icc.mpr ⟨by omega, by omega⟩
        have hd1 : 2 ^ (minOrder + n) ∣ off := (pow_dvd_pow 2 (by omega)).trans hd
        have hone1 : 1 ≤ 2 ^ (minOrder + n) := Nat.one_le_two_pow
        have hfuel : rem < (rem + 1) * 2 ^ (minOrder + n) :=
          Nat.lt_of_lt_of_le (Nat.lt_succ_self rem) (Nat.le_mul_of_pos_right _ hone1)
        obtain ⟨h', off', rem', P', hrun, hb, hz, hcore, hs', hd', hlt, hother, hlen⟩ :=
          carveOrder_core hc hk hsum hfit hd1 hfuel
        have hnil : P (minOrder + n) = [] := hempty _ (by omega)
        have hnext : AtMostOne P' := by
          intro j hj
          by_cases hjn : j = minOrder + n
          · subst hjn
            -- less than two blocks were left for this order
            have h2 := hrem (by omega)
            rw [hnil, List.length_nil] at hlen
            rw [← Nat.add_assoc, pow_succ] at h2
            by_contra hgt
            have : 2 * 2 ^ (minOrder + n) ≤ (P' (minOrder + n)).length * 2 ^ (minOrder + n) :=
              Nat.mul_le_mul_right _ (by omega)
            omega
          · rw [hother j hjn]
            exact hone j hj
        obtain ⟨h'', off'', rem'', P'', hrun', hb', hz', hrest⟩ :=
          ih hcore (by omega) (by rw [hz]; exact hs') (by rw [hb, hz]; exact hfit) hd'
            (fun _ => hlt)
            (fun j hj => by rw [hother j (by omega)]; exact hempty j (by omega)) hnext
        refine ⟨h'', off'', rem'', P'', ?_, hb'.trans hb, hz'.trans hz, ?_⟩
        · rw [if_pos hpos]
          show carveOrders n (carveOrder (minOrder + n) rem (h, off, rem)) = _
          rw [hrun]
          exact hrun'
        · rw [hz] at hrest
          exact hrest
      · rw [if_neg hpos]
        have h0 : rem = 0 := by omega
        refine ⟨h, off, rem, P, rfl, rfl, rfl, hc, hsum, ?_, ?_, hone⟩
        · exact (pow_dvd_pow 2 (by omega)).trans hd
        · rw [h0]
          exact Nat.two_pow_pos _

/-- **`mm_init`** carves all of the heap but the last `heapSize % 32` bytes. -/
theorem mmInit_core {mem : Cells} {heapStart heapSize : Nat} (h₀ : heapStart ≠ 0)
    (h₁ : heapStart + heapSize ≤ 2 ^ 64) :
    (mmInit mem heapStart heapSize).heapBase = heapStart ∧
    (mmInit mem heapStart heapSize).heapSize = heapSize ∧
    ∃ P, Core (mmInit mem heapStart heapSize) (heapSize - heapSize % 32) P [] [] ∧
      Separate P := by
  have hempty : Core ⟨heapStart, heapSize, fun _ => 0, mem⟩ 0 (fun _ => []) [] [] := by
    refine ⟨h₀, by show heapStart + 0 ≤ _; omega, ?_, by simp, by simp, by simp, by simp, by simp,
      ?_⟩
    · intro k _
      exact Ring.nil rfl
    · intro x
      simp [coverPool]
  obtain ⟨h', off, rem, P, hrun, hb, hz, hcore, hsum, hd, hlt, hone⟩ :=
    @carveOrders_core (maxOrder - minOrder + 1) 0 heapSize _ _ hempty (by decide)
      (Nat.zero_add _) h₁ (Nat.dvd_zero _) (fun hle => absurd hle (by decide)) (fun _ _ => rfl)
      (fun _ _ => by simp)
  have hinit : mmInit mem heapStart heapSize = h' := by
    rw [mmInit, hrun]
  have hN : heapSize - heapSize % 32 = off := by
    have hd' : 32 ∣ off := hd
    have hlt' : rem < 32 := hlt
    have hsum' : off + rem = heapSize := hsum
    omega
  rw [hinit, hN]
  exact ⟨hb, hz, P, hcore, hone.separate⟩

/-! ### `mm_info` -/

theorem infoWalk_linked {h : Heap} {k fuel available : Nat} {l : List Nat}
    (hl : Linked 0 (h.nx k) h.prev (l ++ [0])) (h0 : 0 ∉ l) (hf : l.length < fuel)
    (hb : available + l.length * 2 ^ k < 2 ^ 64) :
    infoWalk h k fuel (l.headD 0) available = some (available + l.length * 2 ^ k) := by
  induction l generalizing fuel available with
  | nil =>
      obtain ⟨fuel, rfl⟩ := Nat.exists_eq_add_one_of_ne_zero (Nat.ne_zero_of_lt hf)
      simp [infoWalk]
  | cons x l ih =>
      obtain ⟨fuel, rfl⟩ := Nat.exists_eq_add_one_of_ne_zero (Nat.ne_zero_of_lt hf)
      obtain ⟨hx, hnext, hrest, h0'⟩ := linked_first hl h0
      have hmul : (x :: l).length * 2 ^ k = l.length * 2 ^ k + 2 ^ k := Nat.succ_mul _ _
      rw [hmul] at hb ⊢
      rw [List.headD_cons, infoWalk, if_neg hx, hnext, w64_of_lt (by omega),
        ih hrest h0' (by simpa using hf) (by omega)]
      congr 1
      omega

/-- The fold over the orders adds the lists up. -/
theorem infoFold_core {h : Heap} {N available : Nat} {P : Nat → List Nat}
    {H B : List (Nat × Nat)} {ks : List Nat} (hc : Core h N P H B) (hN : N ≤ h.heapSize)
    (hks : ∀ k ∈ ks, k ∈ Finset.Icc minOrder maxOrder)
    (hb : available + (ks.map fun k => (P k).length * 2 ^ k).sum < 2 ^ 64) :
    ks.foldlM (fun available order => infoWalk h order h.walkBound (h.head order) available)
        available
      = some (available + (ks.map fun k => (P k).length * 2 ^ k).sum) := by
  induction ks generalizing available with
  | nil => rfl
  | cons k ks ih =>
      have hk := hks k (.head _)
      obtain ⟨hhead, hlinked, h0, hbound⟩ := hc.walkable hN hk
      rw [List.map_cons, List.sum_cons] at hb ⊢
      have hwalk := @infoWalk_linked h k h.walkBound available _ hlinked h0 hbound
        (by rw [List.length_map]; omega)
      rw [← hhead, List.length_map] at hwalk
      rw [List.foldlM_cons, hwalk]
      show ks.foldlM _ _ = _
      rw [ih (fun j hj => hks j (.tail _ hj)) (by omega)]
      congr 1
      omega

theorem sum_range_orders (P : Nat → List Nat) :
    ((List.range' minOrder (maxOrder - minOrder + 1)).map fun k => (P k).length * 2 ^ k).sum
      = sizePool minOrder maxOrder P := rfl

/-- **`mm_info`** reports the live blocks and the uncovered tail as used. -/
theorem mmInfo_core {h : Heap} {P : Nat → List Nat} {B : List (Nat × Nat)}
    (hc : Core h (h.heapSize - h.heapSize % 32) P [] B) (hsize : h.heapSize < 2 ^ 63) :
    mmInfo h = some (h.heapSize, sizeList B + h.heapSize % 32, sizePool minOrder maxOrder P) := by
  have hsum := size_of_cover hc.cover (fun j hj o ho => hc.inside_free hj ho)
    fun b hb => hc.inside_held hb
  have hle : h.heapSize % 32 ≤ h.heapSize := Nat.mod_le _ _
  rw [List.nil_append] at hsum
  have hfold := @infoFold_core h _ 0 P [] B (List.range' minOrder (maxOrder - minOrder + 1)) hc
    (by omega) (fun k hk => by
      rw [List.mem_range'_1] at hk
      exact Finset.mem_Icc.mpr ⟨hk.1, by have := hk.2; unfold minOrder maxOrder at *; omega⟩)
    (by rw [sum_range_orders]; omega)
  have hused : sub64 h.heapSize (sizePool minOrder maxOrder P) = sizeList B + h.heapSize % 32 := by
    rw [sub64_of_le (by omega) (by omega)]
    omega
  rw [mmInfo, hfold, sum_range_orders, Option.map_some, Nat.zero_add, hused]

/-! ### Client runs -/

/-- The buddy manager. -/
def manager : Manager Heap where
  alloc := mmAlloc
  free := mmFree
  store := Heap.store

/-- The calls of the contract: a pointer passed to `mm_free` is `NULL` or
held. -/
def Allowed (σ : Session Heap) : HeapOp → Prop
  | .alloc size => 0 < size ∧ size < 2 ^ 62
  | .free ptr => ptr = 0 ∨ ptr ∈ σ.live.map Prod.fst
  | .store addr _ => InPayload σ addr

instance (σ : Session Heap) : (op : HeapOp) → Decidable (Allowed σ op)
  | .alloc _ => inferInstanceAs (Decidable (_ ∧ _))
  | .free _ => inferInstanceAs (Decidable (_ ∨ _))
  | .store _ _ => inferInstanceAs (Decidable (InPayload _ _))

/-- After `mm_init`. -/
def start (mem : Cells) (heapStart heapSize : Nat) : Session Heap :=
  ⟨mmInit mem heapStart heapSize, []⟩

/-- The held pointer `q` is the payload of the block `b`, which is large enough
for what was asked. -/
def Serves (h : Heap) (q b : Nat × Nat) : Prop :=
  q.1 = h.heapBase + b.1 + headerSize ∧ q.2 + headerSize ≤ 2 ^ b.2

/-- What holds between two calls. -/
structure Inv (σ : Session Heap) (P : Nat → List Nat) (B : List (Nat × Nat)) : Prop where
  size_lt : σ.heap.heapSize < 2 ^ 63
  core : Core σ.heap (σ.heap.heapSize - σ.heap.heapSize % 32) P [] B
  separate : Separate P
  held : List.Forall₂ (Serves σ.heap) σ.live B

/-- Two lists in step are split at corresponding places. -/
theorem forall₂_split {α β : Type} {R : α → β → Prop} {l : List α} {m : List β}
    (h : List.Forall₂ R l m) {a : α} (ha : a ∈ l) :
    ∃ l₁ l₂ m₁ b m₂, l = l₁ ++ a :: l₂ ∧ m = m₁ ++ b :: m₂ ∧ R a b ∧
      List.Forall₂ R l₁ m₁ ∧ List.Forall₂ R l₂ m₂ := by
  induction h with
  | nil => cases ha
  | @cons x y l m hxy hrest ih =>
      rcases List.mem_cons.mp ha with rfl | ha
      · exact ⟨[], l, [], y, m, rfl, rfl, hxy, .nil, hrest⟩
      · obtain ⟨l₁, l₂, m₁, b, m₂, rfl, rfl, hab, h₁, h₂⟩ := ih ha
        exact ⟨x :: l₁, l₂, y :: m₁, b, m₂, rfl, rfl, hab, .cons hxy h₁, h₂⟩

/-- Releasing a pointer takes its own entry out and no other. -/
theorem filter_live {h : Heap} {N : Nat} {P : Nat → List Nat} {b q : Nat × Nat}
    {B₁ B₂ l₁ l₂ : List (Nat × Nat)} (hc : Core h N P [b] (B₁ ++ B₂)) (hq : Serves h q b)
    (h₁ : List.Forall₂ (Serves h) l₁ B₁) (h₂ : List.Forall₂ (Serves h) l₂ B₂) :
    (l₁ ++ q :: l₂).filter (fun r => r.1 ≠ q.1) = l₁ ++ l₂ := by
  have hother : ∀ l m, List.Forall₂ (Serves h) l m → (∀ c ∈ m, c ∈ B₁ ++ B₂) →
      l.filter (fun r => r.1 ≠ q.1) = l := by
    intro l m hlm hsub
    rw [List.filter_eq_self]
    intro r hr
    obtain ⟨-, -, m₁, c, m₂, -, rfl, hrc, -, -⟩ := forall₂_split hlm hr
    have hap := hc.apart_first (hsub c (by simp))
    unfold Apart at hap
    have := hrc.1
    have := hq.1
    exact decide_eq_true (by omega)
  rw [List.filter_append, List.filter_cons_of_neg (by simp),
    hother l₁ B₁ h₁ fun c hm => List.mem_append_left _ hm,
    hother l₂ B₂ h₂ fun c hm => List.mem_append_right _ hm]

theorem serves_congr {h h' : Heap} (hb : h'.heapBase = h.heapBase) : Serves h' = Serves h := by
  funext q b
  unfold Serves
  rw [hb]

theorem Inv.start {mem : Cells} {heapStart heapSize : Nat} (h₀ : heapStart ≠ 0)
    (h₁ : heapSize < 2 ^ 63) (h₂ : heapStart + heapSize ≤ 2 ^ 64) :
    ∃ P, Inv (start mem heapStart heapSize) P [] := by
  obtain ⟨-, hz, P, hc, hs⟩ := @mmInit_core mem heapStart heapSize h₀ h₂
  refine ⟨P, ?_, ?_, hs, .nil⟩
  · show (mmInit mem heapStart heapSize).heapSize < 2 ^ 63
    rw [hz]
    exact h₁
  · show Core (mmInit mem heapStart heapSize) ((mmInit mem heapStart heapSize).heapSize -
      (mmInit mem heapStart heapSize).heapSize % 32) P [] []
    rw [hz]
    exact hc

/-- The part of `Inv` that does not bound the size of the heap. -/
structure Shape (σ : Session Heap) (P : Nat → List Nat) (B : List (Nat × Nat)) : Prop where
  core : Core σ.heap (σ.heap.heapSize - σ.heap.heapSize % 32) P [] B
  separate : Separate P
  held : List.Forall₂ (Serves σ.heap) σ.live B

section Step

variable {σ : Session Heap} {P : Nat → List Nat} {B : List (Nat × Nat)}

theorem Inv.shape (hi : Inv σ P B) : Shape σ P B := ⟨hi.core, hi.separate, hi.held⟩

/-- A call that leaves the heap where it is and updates the blocks. -/
theorem Shape.of_core {h' : Heap} {live' : List (Nat × Nat)}
    (hb : h'.heapBase = σ.heap.heapBase) (hz : h'.heapSize = σ.heap.heapSize)
    (hc : Core h' (σ.heap.heapSize - σ.heap.heapSize % 32) P [] B) (hs : Separate P)
    (hl : List.Forall₂ (Serves σ.heap) live' B) : Shape ⟨h', live'⟩ P B := by
  refine ⟨?_, hs, ?_⟩
  · show Core h' (h'.heapSize - h'.heapSize % 32) P [] B
    rw [hz]
    exact hc
  · show List.Forall₂ (Serves h') _ _
    rw [serves_congr hb]
    exact hl

theorem add_header_le {size : Nat} (h : size < 2 ^ 62) : size + headerSize ≤ 2 ^ 63 := by
  unfold headerSize
  omega

/-- `mm_alloc` between two calls. -/
theorem Shape.alloc (hi : Shape σ P B) {size : Nat} (hpos : 0 < size)
    (hsize : size + headerSize ≤ 2 ^ 63) :
    ∃ k, Needs (size + headerSize) k ∧
      ((mmAlloc σ.heap size = some (0, σ.heap) ∧ ∀ i, k ≤ i → i ≤ maxOrder → P i = []) ∨
        ∃ found o l h', Found P k found o l ∧
          mmAlloc σ.heap size = some (σ.heap.heapBase + o + headerSize, h') ∧
          h'.heapBase = σ.heap.heapBase ∧ h'.heapSize = σ.heap.heapSize ∧
          Shape ⟨h', (σ.heap.heapBase + o + headerSize, size) :: σ.live⟩
            (allocPool P k found o l) ((o, k) :: B)) := by
  obtain ⟨k, hneeds, hcase⟩ := mmAlloc_core hi.core hi.separate hpos hsize
  refine ⟨k, hneeds, ?_⟩
  rcases hcase with hnull | ⟨found, o, l, h', hf, hcode, hb, hz, hc, hs⟩
  · exact .inl hnull
  · exact .inr ⟨found, o, l, h', hf, hcode, hb, hz,
      .of_core hb hz hc hs (.cons ⟨rfl, hneeds.fits⟩ hi.held)⟩

/-- `mm_free` of a held pointer between two calls. -/
theorem Shape.free (hi : Shape σ P B) {ptr : Nat} (hptr : ptr ∈ σ.live.map Prod.fst) :
    ∃ b B₁ B₂ h', B = B₁ ++ b :: B₂ ∧ ptr = σ.heap.heapBase + b.1 + headerSize ∧
      mmFree σ.heap ptr = some h' ∧ h'.heapBase = σ.heap.heapBase ∧
      h'.heapSize = σ.heap.heapSize ∧
      (σ.live.map Prod.fst).Perm (ptr :: (σ.live.filter fun q => q.1 ≠ ptr).map Prod.fst) ∧
      Shape ⟨h', σ.live.filter fun q => q.1 ≠ ptr⟩ (freePool P b.1 b.2) (B₁ ++ B₂) := by
  obtain ⟨q, hq, rfl⟩ := List.mem_map.mp hptr
  obtain ⟨l₁, l₂, B₁, b, B₂, hl, rfl, hqb, hl₁, hl₂⟩ := forall₂_split hi.held hq
  obtain ⟨h', hcode, hb, hz, hc, hs⟩ := mmFree_core (Nat.sub_le _ _) hi.core hi.separate
  rw [hl, filter_live hi.core.release hqb hl₁ hl₂]
  refine ⟨b, B₁, B₂, h', rfl, hqb.1, hqb.1 ▸ hcode, hb, hz, ?_, .of_core hb hz hc hs ?_⟩
  · exact List.perm_middle.map Prod.fst
  · exact List.rel_append hl₁ hl₂

/-- No held pointer is `NULL`. -/
theorem Shape.filter_null (hi : Shape σ P B) : σ.live.filter (fun q => q.1 ≠ 0) = σ.live := by
  rw [List.filter_eq_self]
  intro q hq
  obtain ⟨-, -, -, b, -, -, -, hqb, -, -⟩ := forall₂_split hi.held hq
  have := hqb.1
  unfold headerSize at this
  exact decide_eq_true (by omega)

/-- **Every allowed operation comes to an end**, leaves the heap where it is and
keeps its shape. -/
theorem Shape.step (hi : Shape σ P B) {op : HeapOp} (hop : Allowed σ op) :
    ∃ σ' P' B', manager.exec σ op = some σ' ∧ σ'.heap.heapBase = σ.heap.heapBase ∧
      σ'.heap.heapSize = σ.heap.heapSize ∧ Shape σ' P' B' := by
  cases op with
  | alloc size =>
      obtain ⟨k, -, hcase⟩ := hi.alloc hop.1 (add_header_le hop.2)
      rcases hcase with ⟨hnull, -⟩ | ⟨found, o, l, h', -, hcode, hb, hz, hi'⟩
      · exact ⟨σ, P, B, Manager.exec_alloc_null hnull, rfl, rfl, hi⟩
      · have hne : σ.heap.heapBase + o + headerSize ≠ 0 := by unfold headerSize; omega
        exact ⟨_, _, _, Manager.exec_alloc hcode hne, hb, hz, hi'⟩
  | free ptr =>
      by_cases h0 : ptr = 0
      · subst h0
        refine ⟨_, P, B, Manager.exec_free (h := σ.heap) rfl, rfl, rfl, ?_⟩
        rw [hi.filter_null]
        exact hi
      · obtain ⟨b, B₁, B₂, h', -, -, hcode, hb, hz, -, hi'⟩ := hi.free (hop.resolve_left h0)
        exact ⟨_, _, _, Manager.exec_free hcode, hb, hz, hi'⟩
  | store addr value =>
      obtain ⟨q, hq, hlo, hhi⟩ := hop
      obtain ⟨-, -, B₁, b, B₂, -, rfl, hqb, -, -⟩ := forall₂_split hi.held hq
      obtain ⟨hq1, hq2⟩ := hqb
      unfold headerSize at hq1 hq2
      exact ⟨_, P, _, rfl, rfl, rfl, hi.core.store (by omega) (by omega), hi.separate, hi.held⟩

theorem Inv.step (hi : Inv σ P B) {op : HeapOp} (hop : Allowed σ op) :
    ∃ σ' P' B', manager.exec σ op = some σ' ∧ Inv σ' P' B' := by
  obtain ⟨σ', P', B', he, -, hz, hi'⟩ := hi.shape.step hop
  exact ⟨σ', P', B', he, hz ▸ hi.size_lt, hi'.core, hi'.separate, hi'.held⟩

end Step

/-! ### Safety -/

/-- The blocks of a state: `P k` are the offsets of the free blocks of order
`k`, in list order, and `B` the live blocks, in the order of the client's
pointers. -/
structure Safe (σ : Session Heap) (P : Nat → List Nat) (B : List (Nat × Nat)) : Prop where
  partition : ∀ x, coverPool minOrder maxOrder P x + coverList B x =
    if x < σ.heap.heapSize - σ.heap.heapSize % 32 then 1 else 0
  freeAligned : ∀ k ∈ Finset.Icc minOrder maxOrder, ∀ o ∈ P k, 2 ^ k ∣ o
  liveAligned : ∀ b ∈ B, b.2 ∈ Finset.Icc minOrder maxOrder ∧ 2 ^ b.2 ∣ b.1
  links : ∀ k ∈ Finset.Icc minOrder maxOrder,
    Ring 0 (σ.heap.nx k) σ.heap.prev ((P k).map (σ.heap.heapBase + ·))
  freeOrder : ∀ k ∈ Finset.Icc minOrder maxOrder, ∀ o ∈ P k,
    σ.heap.order (σ.heap.heapBase + o) = k
  liveOrder : ∀ b ∈ B, σ.heap.order (σ.heap.heapBase + b.1) = b.2
  oneList : ∀ k ∈ Finset.Icc minOrder maxOrder, ∀ k' ∈ Finset.Icc minOrder maxOrder,
    ∀ o, o ∈ P k → o ∈ P k' → k = k'
  separate : Separate P
  held : List.Forall₂ (Serves σ.heap) σ.live B
  info : mmInfo σ.heap = some (σ.heap.heapSize, sizeList B + σ.heap.heapSize % 32,
    sizePool minOrder maxOrder P)

theorem Inv.safe {σ : Session Heap} {P : Nat → List Nat} {B : List (Nat × Nat)}
    (hi : Inv σ P B) : Safe σ P B where
  partition := hi.core.cover
  freeAligned := hi.core.freeAligned
  liveAligned := fun b hb => ⟨hi.core.orders b hb, hi.core.aligned b hb⟩
  links := hi.core.rings
  freeOrder := hi.core.freeOrder
  liveOrder := hi.core.liveOrder
  oneList := by
    intro k hk k' hk' o ho ho'
    rw [← hi.core.freeOrder k hk o ho, hi.core.freeOrder k' hk' o ho']
  separate := hi.separate
  held := hi.held
  info := mmInfo_core hi.core hi.size_lt

/-- **Safety of the buddy manager over whole runs.**  In every state reached
from `mm_init` live and free blocks partition the heap but its last
`heapSize % 32` bytes, every block is aligned to its size, the lists are
consistent, no block is free together with its buddy, `mm_info` adds up, and
every further allowed call comes to an end. -/
theorem buddy_safe {mem : Cells} {heapStart heapSize : Nat} (h₀ : heapStart ≠ 0)
    (h₁ : heapSize < 2 ^ 63) (h₂ : heapStart + heapSize ≤ 2 ^ 64) {σ : Session Heap}
    (hr : (manager.client Allowed).Reach (start mem heapStart heapSize) σ) :
    (∃ P B, Safe σ P B) ∧ ∀ op, Allowed σ op → (manager.exec σ op).isSome := by
  have hinv : ∃ P B, Inv σ P B := by
    obtain ⟨P, hstart⟩ := @Inv.start mem heapStart heapSize h₀ h₁ h₂
    refine Machine.Reach.invariant (I := fun σ => ∃ P B, Inv σ P B) hr ⟨P, [], hstart⟩ ?_
    rintro s op s' ⟨P, B, hi⟩ hop hs
    obtain ⟨σ', P', B', he, hi'⟩ := hi.step hop
    obtain rfl := Option.some.inj (he.symm.trans hs)
    exact ⟨P', B', hi'⟩
  obtain ⟨P, B, hi⟩ := hinv
  refine ⟨⟨P, B, hi.safe⟩, fun op hop => ?_⟩
  obtain ⟨σ', -, -, he, -⟩ := hi.step hop
  rw [he]
  rfl

/-- Three blocks of a 200-byte heap; releasing the second one leaves the
others live. -/
theorem buddy_safe_small : ∃ σ, (manager.client Allowed).Reach (start (fun _ => 0) 4096 200) σ ∧
    σ.live = [(4096 + 8, 40), (4096 + 128 + 8, 9)] ∧ ∃ P B, Safe σ P B := by
  obtain ⟨σ, hr, hlive⟩ := Machine.exists_reach_of_trace (T := manager.client Allowed)
    (s := start (fun _ => 0) 4096 200)
    (P := fun σ => σ.live = [(4096 + 8, 40), (4096 + 128 + 8, 9)])
    [.alloc 9, .alloc 20, .alloc 40, .store (4096 + 8) 7,
      .free (4096 + 128 + 32 + 8)]
    (by decide +kernel)
  exact ⟨σ, hr, hlive, (buddy_safe (by decide) (by decide) (by decide) hr).1⟩

end Buddy

end TP2Kernel
