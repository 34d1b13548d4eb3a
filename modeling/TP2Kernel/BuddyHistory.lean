/-
TP2Kernel/BuddyHistory.lean

The free lists of the buddy manager do not remember how they came about.

Between two calls the free blocks are a coarse pool over the bytes that are not
live, and a coarse pool is determined by its bytes (`pool_canonical`).  So runs
that end with the same live blocks end with the same free blocks, and giving
everything back leads to the blocks carved by `mm_init`.  As sets, that is: the
order within a list depends on the run.

`mm_free` right after `mm_alloc` does more.  The halves put back by the split are
alone on their lists, so the merge meets exactly them (`mergePool_splitPool`) and
the lists come back in their old order.

A coarse pool also has a block around every aligned region that is free
(`inside_one_block`), which is why `mm_alloc` refuses only when there is no such
region.
-/
import TP2Kernel.BuddyRun

namespace TP2Kernel

namespace Buddy

/-! ### The free lists in memory -/

/-- The offsets of the blocks met from `current` on, at most `fuel` of them. -/
def blocksFrom (h : Heap) : Nat → Nat → List Nat
  | 0, _ => []
  | fuel + 1, current =>
      if current = 0 then []
      else (current - h.heapBase) :: blocksFrom h fuel (h.next current)

/-- The free list of an order, as offsets from `heap_base`. -/
def freeBlocks (h : Heap) (order : Nat) : List Nat := blocksFrom h h.walkBound (h.head order)

theorem blocksFrom_linked {h : Heap} {k fuel : Nat} {l : List Nat}
    (hl : Linked 0 (h.nx k) h.prev (l ++ [0])) (h0 : 0 ∉ l) (hf : l.length < fuel) :
    blocksFrom h fuel (l.headD 0) = l.map (· - h.heapBase) := by
  induction l generalizing fuel with
  | nil =>
      obtain ⟨fuel, rfl⟩ := Nat.exists_eq_add_one_of_ne_zero (Nat.ne_zero_of_lt hf)
      simp [blocksFrom]
  | cons x l ih =>
      obtain ⟨fuel, rfl⟩ := Nat.exists_eq_add_one_of_ne_zero (Nat.ne_zero_of_lt hf)
      obtain ⟨hx, hnext, hrest, h0'⟩ := linked_first hl h0
      rw [List.headD_cons, blocksFrom, if_neg hx, hnext, ih hrest h0' (by simpa using hf),
        List.map_cons]

/-- Walking a list reads the pool off memory. -/
theorem Core.freeBlocks_eq {h : Heap} {N k : Nat} {P : Nat → List Nat} {H B : List (Nat × Nat)}
    (hc : Core h N P H B) (hN : N ≤ h.heapSize) (hk : k ∈ Finset.Icc minOrder maxOrder) :
    freeBlocks h k = P k := by
  obtain ⟨hhead, hlinked, h0, hbound⟩ := hc.walkable hN hk
  rw [freeBlocks, hhead, blocksFrom_linked hlinked h0 hbound, List.map_map]
  have hid : (fun x => x - h.heapBase) ∘ (fun x => h.heapBase + x) = id := by
    funext x
    exact Nat.add_sub_cancel_left h.heapBase x
  rw [hid, List.map_id]

theorem Core.nodup {h : Heap} {N k : Nat} {P : Nat → List Nat} {H B : List (Nat × Nat)}
    (hc : Core h N P H B) (hk : k ∈ Finset.Icc minOrder maxOrder) : (P k).Nodup :=
  List.Nodup.of_map _ (List.nodup_cons.mp (hc.rings k hk).nodup).2

/-- The client holds the block of order `k` at offset `o`. -/
def LiveBlock (σ : Session Heap) (o k : Nat) : Prop :=
  σ.heap.heapBase + o + headerSize ∈ σ.live.map Prod.fst ∧ σ.heap.order (σ.heap.heapBase + o) = k

section Blocks

variable {σ τ : Session Heap} {P Q : Nat → List Nat} {B C : List (Nat × Nat)}

theorem Shape.live_iff (hi : Shape σ P B) {o k : Nat} : LiveBlock σ o k ↔ (o, k) ∈ B := by
  constructor
  · rintro ⟨hmem, rfl⟩
    obtain ⟨q, hq, he⟩ := List.mem_map.mp hmem
    obtain ⟨-, -, B₁, ⟨o', k'⟩, B₂, -, rfl, hqb, -, -⟩ := forall₂_split hi.held hq
    have hqb := hqb.1
    simp only at hqb
    obtain rfl : o' = o := by omega
    have hlabel : σ.heap.order (σ.heap.heapBase + o') = k' :=
      hi.core.liveOrder (o', k') (by simp)
    rw [hlabel]
    exact List.mem_append_right _ List.mem_cons_self
  · intro hb
    obtain ⟨-, -, l₁, q, l₂, -, hl, hqb, -, -⟩ := forall₂_split hi.held.flip hb
    refine ⟨?_, hi.core.liveOrder (o, k) hb⟩
    rw [hl, ← hqb.1]
    exact List.mem_map_of_mem (List.mem_append_right _ List.mem_cons_self)

/-- The live blocks determine the bytes that are not free. -/
theorem Shape.coverList_eq (hi : Shape σ P B) (hi' : Shape τ Q C)
    (hlive : ∀ o k, LiveBlock σ o k ↔ LiveBlock τ o k) (x : Nat) : coverList B x = coverList C x := by
  have hmem : ∀ b : Nat × Nat, b ∈ B ↔ b ∈ C := by
    rintro ⟨o, k⟩
    rw [← hi.live_iff, hlive, hi'.live_iff]
  have hpos : 0 < coverList B x ↔ 0 < coverList C x := by
    simp only [coverList_pos, hmem]
  have h₁ := hi.core.cover_le x
  have h₂ := hi'.core.cover_le x
  rw [List.nil_append] at h₁ h₂
  omega

end Blocks

/-! ### Whole runs -/

/-- The shape of a heap of `n` bytes from `a` on. -/
structure Exact (a n : Nat) (σ : Session Heap) (P : Nat → List Nat) (B : List (Nat × Nat)) :
    Prop extends Shape σ P B where
  base : σ.heap.heapBase = a
  size : σ.heap.heapSize = n

section Exact

variable {a n : Nat} {σ τ : Session Heap} {P Q : Nat → List Nat} {B C : List (Nat × Nat)}

theorem Exact.init {mem : Cells} (h₀ : a ≠ 0) (h₁ : a + n ≤ 2 ^ 64) :
    ∃ P, Exact a n (Buddy.start mem a n) P [] := by
  obtain ⟨hb, hz, P, hc, hs⟩ := @mmInit_core mem a n h₀ h₁
  refine ⟨P, ⟨?_, hs, .nil⟩, hb, hz⟩
  show Core (mmInit mem a n) ((mmInit mem a n).heapSize - (mmInit mem a n).heapSize % 32) P [] []
  rw [hz]
  exact hc

theorem reach_exact {mem : Cells} (h₀ : a ≠ 0) (h₁ : a + n ≤ 2 ^ 64)
    (hr : (manager.client Allowed).Reach (Buddy.start mem a n) σ) : ∃ P B, Exact a n σ P B := by
  obtain ⟨P₀, hinit⟩ := @Exact.init a n mem h₀ h₁
  apply hr.invariant (I := fun σ => ∃ P B, Exact a n σ P B) ⟨P₀, [], hinit⟩
  rintro s op s' ⟨P, B, h⟩ hop hs
  obtain ⟨σ', P', B', he, hb, hz, hi'⟩ := h.step hop
  obtain rfl := Option.some.inj (he.symm.trans hs)
  exact ⟨P', B', hi', hb.trans h.base, hz.trans h.size⟩

theorem Exact.freeBlocks_eq (h : Exact a n σ P B) {k : Nat}
    (hk : k ∈ Finset.Icc minOrder maxOrder) : freeBlocks σ.heap k = P k :=
  h.core.freeBlocks_eq (Nat.sub_le _ _) hk

/-- What the heap has besides the live blocks is free. -/
theorem Exact.coverPool_eq (h : Exact a n σ P B) (x : Nat) :
    coverPool minOrder maxOrder P x = (if x < n - n % 32 then 1 else 0) - coverList B x := by
  have := h.core.cover x
  rw [h.size, List.nil_append] at this
  omega

/-- The same live blocks leave the same free blocks. -/
theorem Exact.mem_of_mem (h : Exact a n σ P B) (h' : Exact a n τ Q C)
    (hlive : ∀ o k, LiveBlock σ o k ↔ LiveBlock τ o k) {k o : Nat}
    (hk : k ∈ Finset.Icc minOrder maxOrder) (ho : o ∈ P k) : o ∈ Q k := by
  apply pool_canonical h.core.freeAligned h.separate h'.core.freeAligned h'.separate ?_ ?_ hk ho
  · intro x
    rw [h.coverPool_eq, h'.coverPool_eq, h.coverList_eq h'.toShape hlive]
  · intro x
    have := h.core.cover_le x
    omega

theorem Exact.perm (h : Exact a n σ P B) (h' : Exact a n τ Q C)
    (hlive : ∀ o k, LiveBlock σ o k ↔ LiveBlock τ o k) {k : Nat}
    (hk : k ∈ Finset.Icc minOrder maxOrder) :
    (freeBlocks σ.heap k).Perm (freeBlocks τ.heap k) := by
  rw [h.freeBlocks_eq hk, h'.freeBlocks_eq hk,
    List.perm_ext_iff_of_nodup (h.core.nodup hk) (h'.core.nodup hk)]
  intro o
  exact ⟨fun ho => h.mem_of_mem h' hlive hk ho,
    fun ho => h'.mem_of_mem h (fun o k => (hlive o k).symm) hk ho⟩

/-- Giving back every held pointer, in any order. -/
theorem Exact.frees (h : Exact a n σ P B) {ps : List Nat} (hps : ps.Perm (σ.live.map Prod.fst)) :
    ∃ σ' P', (manager.client Allowed).trace σ (ps.map .free) = some σ' ∧ Exact a n σ' P' [] := by
  induction ps generalizing σ P B with
  | nil =>
      have hlive : σ.live = [] := List.map_eq_nil_iff.mp (List.nil_perm.mp hps)
      have hheld := h.held
      rw [hlive, List.forall₂_nil_left_iff] at hheld
      subst hheld
      exact ⟨σ, P, rfl, h⟩
  | cons p ps ih =>
      have hp : p ∈ σ.live.map Prod.fst := hps.mem_iff.mp List.mem_cons_self
      obtain ⟨b, B₁, B₂, h', -, -, hfree, hb, hz, hperm, hi'⟩ := h.free hp
      have hrest := (List.perm_cons p).mp (hps.trans hperm)
      obtain ⟨σ', P', htrace, hexact⟩ := ih ⟨hi', hb.trans h.base, hz.trans h.size⟩ hrest
      refine ⟨σ', P', ?_, hexact⟩
      rw [List.map_cons, Machine.trace_cons (show Allowed σ (.free p) from .inr hp)
        (Manager.exec_free hfree)]
      exact htrace

/-! ### `mm_free` right after `mm_alloc` -/

/-- Merging meets the halves of the split, one at each order, and stops at the
block that was split. -/
theorem mergePool_splitPool {o k m : Nat} (hmax : k + m ≤ maxOrder) (hd : 2 ^ (k + m) ∣ o)
    (hempty : ∀ i, k ≤ i → i < k + m → P i = [])
    (hlast : k + m < maxOrder → o ^^^ 2 ^ (k + m) ∉ P (k + m)) :
    mergePool (maxOrder - k) (splitPool P o k m) o = (P, o, k + m) := by
  induction m generalizing k with
  | zero =>
      rw [splitPool_zero]
      rcases Nat.eq_or_lt_of_le hmax with he | hlt
      · rw [show maxOrder - k = 0 by omega, he, mergePool]
      · rw [show maxOrder - k = (maxOrder - k - 1) + 1 by omega, mergePool,
          show maxOrder - (maxOrder - k - 1 + 1) = k by omega]
        exact if_neg (hlast hlt)
  | succ m ih =>
      -- the list of order `k` is the second half alone
      have hbuddy : o ^^^ 2 ^ k = o + 2 ^ k :=
        xor_pow_of_dvd ((pow_dvd_pow 2 (by omega)).trans hd)
      have hlist : splitPool P o k (m + 1) k = [o + 2 ^ k] := by
        rw [splitPool, if_pos (by omega), hempty k (le_refl k) (by omega)]
      have hpool : Function.update (splitPool P o k (m + 1)) k [] = splitPool P o (k + 1) m := by
        funext j
        by_cases hj : j = k
        · rw [hj, Function.update_self, splitPool, if_neg (by omega),
            hempty k (le_refl k) (by omega)]
        · rw [Function.update_of_ne hj]
          exact if_congr (by omega) rfl rfl
      have he : k + (m + 1) = k + 1 + m := by omega
      rw [he] at hmax hd hempty hlast ⊢
      rw [show maxOrder - k = (maxOrder - (k + 1)) + 1 by omega, mergePool,
        show maxOrder - (maxOrder - (k + 1) + 1) = k by omega]
      simp only [hbuddy, hlist, List.mem_singleton, if_true, List.erase_cons_head, hpool]
      rw [Nat.min_eq_right (Nat.le_add_right o _)]
      exact ih hmax hd (fun i hi hi' => hempty i (by omega) hi') hlast

theorem freePool_allocPool {k found o : Nat} {l : List Nat} (hs : Separate P)
    (hmin : minOrder ≤ k) (hf : Found P k found o l) (hd : 2 ^ found ∣ o) :
    freePool (allocPool P k found o l) o k = P := by
  have hle := hf.le
  have hn : k + (found - k) = found := by omega
  have hmerge : mergePool (maxOrder - k) (allocPool P k found o l) o
      = (Function.update P found l, o, found) := by
    have := @mergePool_splitPool (Function.update P found l) o k (found - k)
    rw [hn] at this
    apply this hf.max hd
    · intro i hi hi'
      rw [Function.update_of_ne (by omega)]
      exact hf.before i hi hi'
    · intro hlt hmem
      rw [Function.update_self] at hmem
      apply hs found (by omega) hlt o
      · rw [hf.first]
        exact List.mem_cons_self
      · rw [hf.first]
        exact List.mem_cons_of_mem o hmem
  unfold freePool
  rw [hmerge]
  funext j
  show Function.update (Function.update P found l) found
    (o :: Function.update P found l found) j = P j
  by_cases hj : j = found
  · rw [hj, Function.update_self, Function.update_self, hf.first]
  · rw [Function.update_of_ne hj, Function.update_of_ne hj]

/-- `mm_free` of what `mm_alloc` just returned restores every list. -/
theorem Exact.alloc_free (h : Exact a n σ P B) {size ptr : Nat} {h' : Heap} (hpos : 0 < size)
    (hsize : size < 2 ^ 62) (halloc : mmAlloc σ.heap size = some (ptr, h')) (hptr : ptr ≠ 0) :
    ∃ h'', mmFree h' ptr = some h'' ∧
      ∀ k ∈ Finset.Icc minOrder maxOrder, freeBlocks h'' k = freeBlocks σ.heap k := by
  obtain ⟨j, hneeds, hcase⟩ := mmAlloc_core h.core h.separate hpos (add_header_le hsize)
  rcases hcase with ⟨hnull, -⟩ | ⟨found, o, l, h₁, hf, hcode, hb, hz, hc, hs⟩
  · rw [hnull] at halloc
    obtain ⟨rfl, -⟩ := Prod.mk.inj (Option.some.inj halloc)
    exact absurd rfl hptr
  · rw [hcode] at halloc
    obtain ⟨rfl, rfl⟩ := Prod.mk.inj (Option.some.inj halloc)
    have hN : σ.heap.heapSize - σ.heap.heapSize % 32 ≤ h₁.heapSize := by omega
    obtain ⟨h₂, hfree, hb', hz', hc', -⟩ :=
      mmFree_core (b := (o, j)) hN (show Core h₁ _ _ [] ([] ++ (o, j) :: B) from hc) hs
    have hfound : found ∈ Finset.Icc minOrder maxOrder :=
      Finset.mem_Icc.mpr ⟨hneeds.min.trans hf.le, hf.max⟩
    have hd : 2 ^ found ∣ o := by
      apply h.core.freeAligned found hfound
      rw [hf.first]
      exact List.mem_cons_self
    rw [hb] at hfree
    refine ⟨h₂, hfree, fun k hk => ?_⟩
    simp only at hc'
    rw [freePool_allocPool h.separate hneeds.min hf hd] at hc'
    rw [hc'.freeBlocks_eq (by omega) hk, h.freeBlocks_eq hk]

/-! ### When `mm_alloc` refuses -/

/-- The region of order `k` at `o` is aligned, lies in one block of the carve, and
no live block reaches into it. -/
def FreeRegion (carve : Heap) (σ : Session Heap) (o k : Nat) : Prop :=
  2 ^ k ∣ o ∧
    (∃ j ∈ Finset.Icc minOrder maxOrder, ∃ c ∈ freeBlocks carve j, c ≤ o ∧ o + 2 ^ k ≤ c + 2 ^ j) ∧
    ∀ o' k', LiveBlock σ o' k' → o' + 2 ^ k' ≤ o ∨ o + 2 ^ k ≤ o'

/-- A free region is inside a free block. -/
theorem Exact.block_of_region (h : Exact a n σ P B) (h' : Exact a n τ Q [])
    {o k : Nat} (hk : k ∈ Finset.Icc minOrder maxOrder) (hr : FreeRegion τ.heap σ o k) :
    ∃ j ∈ Finset.Icc k maxOrder, P j ≠ [] := by
  obtain ⟨hd, ⟨i, hi, c, hc, hle, hend⟩, hfree⟩ := hr
  rw [h'.freeBlocks_eq hi] at hc
  have hin := h'.core.inside_free hi hc
  rw [h'.size] at hin
  obtain ⟨j, hj, d, hdP, -⟩ := inside_one_block h.core.freeAligned h.separate hk hd fun x hx => by
    have hx := ind_eq_one_iff.mp hx
    -- the byte is in the heap and in no live block
    have hnone : coverList B x = 0 := by
      by_contra hpos
      obtain ⟨b, hb, hxb⟩ := coverList_pos.mp (Nat.pos_of_ne_zero hpos)
      have hxb := ind_eq_one_iff.mp hxb
      have := hfree b.1 b.2 (h.live_iff.mpr hb)
      omega
    rw [h.coverPool_eq, hnone, if_pos (by omega)]
    exact Nat.one_pos
  exact ⟨j, hj, List.ne_nil_of_mem hdP⟩

/-- The front of a free block is a free region of every smaller order. -/
theorem Exact.region_of_block (h : Exact a n σ P B) (h' : Exact a n τ Q [])
    {o k j : Nat} (hk : k ∈ Finset.Icc minOrder maxOrder) (hkj : k ≤ j) (hj : j ≤ maxOrder)
    (ho : o ∈ P j) : FreeRegion τ.heap σ o k := by
  have hjI : j ∈ Finset.Icc minOrder maxOrder :=
    Finset.mem_Icc.mpr ⟨(Finset.mem_Icc.mp hk).1.trans hkj, hj⟩
  have hd : 2 ^ k ∣ o := (pow_dvd_pow 2 hkj).trans (h.core.freeAligned j hjI o ho)
  have hpow : 2 ^ k ≤ 2 ^ j := Nat.pow_le_pow_right (by decide) hkj
  have hin := h.core.inside_free hjI ho
  rw [h.size] at hin
  refine ⟨hd, ?_, fun o' k' hlive => ?_⟩
  · -- the carve covers the whole heap, so one of its blocks holds the region
    obtain ⟨i, hi, c, hc, hle, hend⟩ :=
      inside_one_block h'.core.freeAligned h'.separate hk hd fun x hx => by
        have hx := ind_eq_one_iff.mp hx
        rw [h'.coverPool_eq, coverList_nil, if_pos (by omega)]
        exact Nat.one_pos
    have hiI : i ∈ Finset.Icc minOrder maxOrder :=
      Finset.Icc_subset_Icc_left (Finset.mem_Icc.mp hk).1 hi
    refine ⟨i, hiI, c, ?_, hle, hend⟩
    rw [h'.freeBlocks_eq hiI]
    exact hc
  · have hb := h.live_iff.mp hlive
    have hpos : 0 < 2 ^ k' := Nat.two_pow_pos k'
    have hpos' : 0 < 2 ^ k := Nat.two_pow_pos k
    -- a byte of both would be covered twice
    by_contra hmeet
    have hx₁ : ind (max o o') o j = 1 := ind_eq_one_iff.mpr ⟨by omega, by omega⟩
    have hx₂ : ind (max o o') o' k' = 1 := ind_eq_one_iff.mpr ⟨by omega, by omega⟩
    have h₁ := ind_le_coverPool (x := max o o') hjI ho
    have h₂ := ind_le_coverList (x := max o o') hb
    have := h.core.cover_le (max o o')
    simp only [List.nil_append] at this h₂
    omega

/-- `mm_alloc` refuses exactly when the order needed is too large or no region of
it is free. -/
theorem Exact.refuses_iff (h : Exact a n σ P B) (h' : Exact a n τ Q []) {size : Nat}
    (hpos : 0 < size) (hsize : size < 2 ^ 62) :
    ∃ k ptr h₁, Needs (size + headerSize) k ∧ mmAlloc σ.heap size = some (ptr, h₁) ∧
      (ptr = 0 ↔ maxOrder < k ∨ ¬ ∃ o, FreeRegion τ.heap σ o k) ∧ (ptr = 0 → h₁ = σ.heap) := by
  obtain ⟨k, hneeds, hcase⟩ := mmAlloc_core h.core h.separate hpos (add_header_le hsize)
  rcases hcase with ⟨hnull, hempty⟩ | ⟨found, o, l, h₁, hf, hcode, -⟩
  · refine ⟨k, 0, σ.heap, hneeds, hnull, ⟨fun _ => ?_, fun _ => rfl⟩, fun _ => rfl⟩
    by_cases hmax : maxOrder < k
    · exact .inl hmax
    · right
      rintro ⟨o, hr⟩
      have hk : k ∈ Finset.Icc minOrder maxOrder :=
        Finset.mem_Icc.mpr ⟨hneeds.min, Nat.le_of_not_lt hmax⟩
      obtain ⟨j, hj, hne⟩ := h.block_of_region h' hk hr
      obtain ⟨hj₁, hj₂⟩ := Finset.mem_Icc.mp hj
      exact hne (hempty j hj₁ hj₂)
  · have hne : σ.heap.heapBase + o + headerSize ≠ 0 := by unfold headerSize; omega
    refine ⟨k, _, h₁, hneeds, hcode, ⟨fun h0 => absurd h0 hne, fun hno => ?_⟩,
      fun h0 => absurd h0 hne⟩
    exfalso
    have hk : k ∈ Finset.Icc minOrder maxOrder :=
      Finset.mem_Icc.mpr ⟨hneeds.min, hf.le.trans hf.max⟩
    rcases hno with hmax | hno
    · exact absurd (Finset.mem_Icc.mp hk).2 (Nat.not_le_of_lt hmax)
    · apply hno
      refine ⟨o, h.region_of_block h' hk hf.le hf.max ?_⟩
      rw [hf.first]
      exact List.mem_cons_self

end Exact

/-- **The buddy heap recovers fully and refuses only when it must**, for every
size of the heap.

* Runs from `mm_init` that end with the same live blocks end with the same free
  blocks at every order.
* Giving back all held pointers, in any order, restores the blocks of the carve.
* `mm_free` right after `mm_alloc` restores every list as it was.
* `mm_alloc` returns `NULL` exactly when the order needed exceeds `MAX_ORDER` or no
  aligned region of that order inside one block of the carve is free; the heap
  then stays as it is. -/
theorem history_free {mem mem' : Cells} {heapStart heapSize : Nat} {σ τ : Session Heap}
    (h₀ : heapStart ≠ 0) (h₁ : heapStart + heapSize ≤ 2 ^ 64)
    (hσ : (manager.client Allowed).Reach (Buddy.start mem heapStart heapSize) σ)
    (hτ : (manager.client Allowed).Reach (Buddy.start mem' heapStart heapSize) τ) :
    ((∀ o k, LiveBlock σ o k ↔ LiveBlock τ o k) → ∀ k ∈ Finset.Icc minOrder maxOrder,
      (freeBlocks σ.heap k).Perm (freeBlocks τ.heap k)) ∧
    (∀ ps : List Nat, ps.Perm (σ.live.map Prod.fst) →
      ∃ σ', (manager.client Allowed).trace σ (ps.map .free) = some σ' ∧
        ∀ k ∈ Finset.Icc minOrder maxOrder,
          (freeBlocks σ'.heap k).Perm (freeBlocks (mmInit mem heapStart heapSize) k)) ∧
    (∀ size ptr h', 0 < size → size < 2 ^ 62 → mmAlloc σ.heap size = some (ptr, h') → ptr ≠ 0 →
      ∃ h'', mmFree h' ptr = some h'' ∧
        ∀ k ∈ Finset.Icc minOrder maxOrder, freeBlocks h'' k = freeBlocks σ.heap k) ∧
    ∀ size, 0 < size → size < 2 ^ 62 →
      ∃ k ptr h', Needs (size + headerSize) k ∧ mmAlloc σ.heap size = some (ptr, h') ∧
        (ptr = 0 ↔ maxOrder < k ∨ ¬ ∃ o, FreeRegion (mmInit mem heapStart heapSize) σ o k) ∧
        (ptr = 0 → h' = σ.heap) := by
  obtain ⟨P₀, hinit⟩ := @Exact.init heapStart heapSize mem h₀ h₁
  obtain ⟨P, B, hexact⟩ := reach_exact h₀ h₁ hσ
  obtain ⟨Q, C, hexact'⟩ := reach_exact h₀ h₁ hτ
  refine ⟨fun hlive k hk => hexact.perm hexact' hlive hk, fun ps hps => ?_,
    fun size ptr h' hpos hsize halloc hptr => hexact.alloc_free hpos hsize halloc hptr,
    fun size hpos hsize => hexact.refuses_iff hinit hpos hsize⟩
  obtain ⟨σ', P', htrace, hend⟩ := hexact.frees hps
  refine ⟨σ', htrace, fun k hk => hend.perm hinit (fun o j => ?_) hk⟩
  rw [hend.live_iff, hinit.live_iff]

/-- Three blocks of a 200-byte heap, given back in the order they came. -/
theorem history_free_small : ∃ σ,
    (manager.client Allowed).Reach (Buddy.start (fun _ => 0) 4096 200) σ ∧
      σ.live.map Prod.fst = [4096 + 8, 4096 + 128 + 32 + 8, 4096 + 128 + 8] ∧
      ∃ σ', (manager.client Allowed).trace σ
          [.free (4096 + 128 + 8), .free (4096 + 128 + 32 + 8), .free (4096 + 8)] = some σ' ∧
        ∀ k ∈ Finset.Icc minOrder maxOrder,
          (freeBlocks σ'.heap k).Perm (freeBlocks (mmInit (fun _ => 0) 4096 200) k) := by
  obtain ⟨σ, hσ, hlive⟩ := (manager.client Allowed).exists_reach_of_trace
    (s := Buddy.start (fun _ => 0) 4096 200) [.alloc 9, .alloc 20, .alloc 40]
    (P := fun σ => σ.live.map Prod.fst = [4096 + 8, 4096 + 128 + 32 + 8, 4096 + 128 + 8])
    (by decide +kernel)
  refine ⟨σ, hσ, hlive, ?_⟩
  apply (history_free (by decide) (by decide) hσ hσ).2.1
    [4096 + 128 + 8, 4096 + 128 + 32 + 8, 4096 + 8]
  rw [hlive]
  decide

end Buddy

end TP2Kernel
