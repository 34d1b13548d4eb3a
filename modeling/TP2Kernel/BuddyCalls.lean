/-
TP2Kernel/BuddyCalls.lean

Request sizes of the buddy manager.  `order_for_size` doubles from `MIN_ORDER`
until the block is large enough, so its loop ends before the shift by 64 exactly
when the request with its header is at most `2 ^ 63`.  Up to there `mm_alloc`
refuses without a change or hands out a block of the least order that has room.

Behind that bound the code goes two ways.  From `2 ^ 63 - 7` on the loop shifts
by 64, and from `2 ^ 64 - 8` on the sum with the header wraps to a few bytes and
a block of `MIN_ORDER` is handed out.
-/
import TP2Kernel.BuddyRun

namespace TP2Kernel

namespace Buddy

/-- The bytes a block of an order has behind its header. -/
def capacity (order : Nat) : Nat := 2 ^ order - headerSize

/-- The contract of a client that asks for any size up to the bound. -/
def Admitted (σ : Session Heap) : HeapOp → Prop
  | .alloc size => size + headerSize ≤ 2 ^ 63
  | .free ptr => Allowed σ (.free ptr)
  | .store addr value => Allowed σ (.store addr value)

instance (σ : Session Heap) : (op : HeapOp) → Decidable (Admitted σ op)
  | .alloc _ => inferInstanceAs (Decidable (_ ≤ _))
  | .free ptr => inferInstanceAs (Decidable (Allowed σ (.free ptr)))
  | .store addr value => inferInstanceAs (Decidable (Allowed σ (.store addr value)))

/-! ### Reachable heaps -/

theorem Shape.admitted_step {σ σ' : Session Heap} {P : Nat → List Nat} {B : List (Nat × Nat)}
    (hi : Shape σ P B) {op : HeapOp} (hop : Admitted σ op) (hs : manager.exec σ op = some σ') :
    ∃ P' B', Shape σ' P' B' := by
  -- the operations besides `mm_alloc` are those of the narrower contract
  have hallowed : Allowed σ op → ∃ P' B', Shape σ' P' B' := by
    intro hal
    obtain ⟨σ₁, P', B', he, -, -, hi'⟩ := hi.step hal
    obtain rfl := Option.some.inj (he.symm.trans hs)
    exact ⟨P', B', hi'⟩
  cases op with
  | free ptr => exact hallowed hop
  | store addr value => exact hallowed hop
  | alloc size =>
      rcases Nat.eq_zero_or_pos size with rfl | hpos
      · have he : manager.exec σ (.alloc 0) = some σ := Manager.exec_alloc_null (h := σ.heap) rfl
        obtain rfl := Option.some.inj (he.symm.trans hs)
        exact ⟨P, B, hi⟩
      · obtain ⟨k, -, hcase⟩ := hi.alloc hpos hop
        rcases hcase with ⟨hnull, -⟩ | ⟨found, o, l, h', -, hcode, -, -, hi'⟩
        · obtain rfl := Option.some.inj ((Manager.exec_alloc_null hnull).symm.trans hs)
          exact ⟨P, B, hi⟩
        · have hne : σ.heap.heapBase + o + headerSize ≠ 0 := by unfold headerSize; omega
          obtain rfl := Option.some.inj ((Manager.exec_alloc hcode hne).symm.trans hs)
          exact ⟨_, _, hi'⟩

theorem reach_shape {mem : Cells} {heapStart heapSize : Nat} (h₀ : heapStart ≠ 0)
    (h₁ : heapStart + heapSize ≤ 2 ^ 64) {σ : Session Heap}
    (hr : (manager.client Admitted).Reach (start mem heapStart heapSize) σ) :
    ∃ P B, Shape σ P B := by
  refine Machine.Reach.invariant (I := fun σ => ∃ P B, Shape σ P B) hr ?_ ?_
  · obtain ⟨-, hsize, P, hc, hs⟩ := @mmInit_core mem heapStart heapSize h₀ h₁
    refine ⟨P, [], ?_, hs, .nil⟩
    show Core (mmInit mem heapStart heapSize) _ P [] []
    rw [show (start mem heapStart heapSize).heap.heapSize = heapSize from hsize]
    exact hc
  · rintro s op s' ⟨P, B, hi⟩ hop hs
    exact hi.admitted_step hop hs

/-! ### Every request size -/

/-- Being large enough with the header is having the capacity. -/
theorem le_capacity_iff {size order : Nat} (h : minOrder ≤ order) :
    size ≤ capacity order ↔ size + headerSize ≤ 2 ^ order := by
  have h32 : 2 ^ minOrder ≤ 2 ^ order := Nat.pow_le_pow_right (by decide) h
  have hmin : 2 ^ minOrder = 32 := by decide
  unfold capacity headerSize
  omega

/-- **`mm_alloc` honours a request** that is at most `2 ^ 63` bytes with its
header, in every reachable state: the loop of `order_for_size` ends before a
shift by 64, and the call comes back with `NULL` and an unchanged heap or with a
block of the least order whose capacity is large enough. -/
theorem mmAlloc_least {mem : Cells} {heapStart heapSize : Nat} (h₀ : heapStart ≠ 0)
    (h₁ : heapStart + heapSize ≤ 2 ^ 64) {σ : Session Heap}
    (hr : (manager.client Admitted).Reach (start mem heapStart heapSize) σ) {size : Nat}
    (hpos : 0 < size) (hsize : size + headerSize ≤ 2 ^ 63) :
    (orderForSize (w64 (size + headerSize))).isSome ∧
      (mmAlloc σ.heap size = some (0, σ.heap) ∨
        ∃ block order h', mmAlloc σ.heap size = some (block + headerSize, h') ∧
          h'.order block = order ∧ minOrder ≤ order ∧ size ≤ capacity order ∧
          ∀ j, minOrder ≤ j → j < order → capacity j < size) := by
  obtain ⟨P, B, hi⟩ := reach_shape h₀ h₁ hr
  constructor
  · obtain ⟨k, -, hord⟩ := orderForSize_spec hsize
    rw [w64_of_lt (by omega), hord]
    rfl
  · obtain ⟨k, hneeds, hcase⟩ := hi.alloc hpos hsize
    rcases hcase with ⟨hnull, -⟩ | ⟨found, o, l, h', -, hcode, hb, -, hi'⟩
    · exact .inl hnull
    · right
      refine ⟨_, k, h', hcode, ?_, hneeds.min, (le_capacity_iff hneeds.min).mpr hneeds.fits, ?_⟩
      · rw [← hb]
        exact hi'.core.liveOrder (o, k) (.head _)
      · intro j hj hlt
        apply Nat.lt_of_not_le
        rw [le_capacity_iff hj]
        exact Nat.not_le.mpr (hneeds.least j hj hlt)

/-- A request of twenty-five bytes from a heap in which three blocks have been taken and
the second one has been given back. -/
theorem mmAlloc_least_reused : ∃ σ : Session Heap,
    (manager.client Admitted).Reach (start (fun _ => 0) 4096 512) σ ∧
      ∃ block order h', mmAlloc σ.heap 25 = some (block + headerSize, h') ∧
        h'.order block = order ∧ minOrder ≤ order ∧ 25 ≤ capacity order ∧
        ∀ j, minOrder ≤ j → j < order → capacity j < 25 := by
  obtain ⟨σ, hσ, hptr⟩ := (manager.client Admitted).exists_reach_of_trace
    (s := start (fun _ => 0) 4096 512) [.alloc 20, .alloc 50, .alloc 5, .free 4168]
    (P := fun σ => (mmAlloc σ.heap 25).map Prod.fst = some 4168) (by decide +kernel)
  refine ⟨σ, hσ, ?_⟩
  rcases (mmAlloc_least (by decide) (by decide) hσ (show 0 < 25 by decide) (by decide)).2 with
    hnull | htaken
  · rw [hnull] at hptr
    cases hptr
  · exact htaken

/-- Behind the bound.  For `2 ^ 63` bytes the loop shifts by 64.  For
`2 ^ 64 - 1` bytes the sum with the header is 7, and a block with room for 24
bytes is handed out. -/
theorem mmAlloc_beyond : orderForSize (w64 (2 ^ 63 + headerSize)) = none ∧
    mmAlloc (mmInit (fun _ => 0) 4096 32) (2 ^ 63) = none ∧
    ∃ h', mmAlloc (mmInit (fun _ => 0) 4096 32) (2 ^ 64 - 1) = some (4096 + headerSize, h') ∧
      h'.order 4096 = minOrder ∧ capacity minOrder < 2 ^ 64 - 1 := by
  refine ⟨by decide +kernel, ?_, ?_⟩
  · have h : (mmAlloc (mmInit (fun _ => 0) 4096 32) (2 ^ 63)).isNone := by decide +kernel
    exact Option.isNone_iff_eq_none.mp h
  · have h : (mmAlloc (mmInit (fun _ => 0) 4096 32) (2 ^ 64 - 1)).map
        (fun r => (r.1, r.2.order 4096)) = some (4096 + headerSize, minOrder) := by decide +kernel
    obtain ⟨⟨p, h'⟩, hcode, hr⟩ := Option.map_eq_some_iff.mp h
    obtain ⟨rfl, ho⟩ := Prod.mk.inj hr
    exact ⟨h', hcode, ho, by decide⟩

end Buddy

end TP2Kernel
