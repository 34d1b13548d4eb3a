/-
TP2Kernel/ArgCopy.lean

`copy_args` and `free_args` of `shell/commands_utils.c`, over the free-list heap.
The copy is an array of pointers, a cell each, and a block for every string, whose
characters are the bytes of the block's cells.  The arguments themselves are the
caller's and are given by their contents.

The clean-up after a failed allocation and `free_args` are the same walk over the
array, which reads the pointers out of a block that is still in use.  What it gives
back is what `copy_args` has taken, in another order and not in the reverse one; that
the block list is the old one again rests on the list being determined by the used
blocks.
-/
import Mathlib.Algebra.Ring.Int.Defs
import TP2Kernel.CMemory
import TP2Kernel.FreeListRepeats

namespace TP2Kernel

namespace FreeList

/-! ### The code -/

/-- `sizeof(char *) * (argc + 1)`: the sum is an `int`, which wraps around, and the
product has 64 bits. -/
def arrayBytes (argc : Int) : Nat := (8 * (argc + 1).bmod (2 ^ 32) % 2 ^ 64).toNat

/-- The stores `copy[i] = NULL`, `k` of them. -/
def clearCells (copy : Nat) : Nat → Cells → Cells
  | 0, m => m
  | k + 1, m => Function.update (clearCells copy k m) (copy + 8 * k) 0

/-- The loop of `free_args`, with `k` rounds to go. -/
def freeLoop (argv : Nat) : Nat → Nat → Heap → Option Heap
  | 0, _, h => some h
  | k + 1, i, h =>
      (if h.mem (argv + 8 * i) ≠ 0 then mmFree h (h.mem (argv + 8 * i)) else some h).bind
        (freeLoop argv k (i + 1))

/-- `free_args`. -/
def freeArgs (h : Heap) (argc : Int) (argv : Nat) : Option Heap :=
  if argv = 0 then some h
  else (freeLoop argv argc.toNat 0 h).bind fun h => mmFree h argv

/-- The second loop of `copy_args`, with `k` rounds to go, and what follows it. -/
def copyLoop (argc : Int) (argv : Nat → CString) (copy : Nat) :
    Nat → Nat → Heap → Option (Nat × Heap)
  | 0, _, h => some (copy, h.store (copy + 8 * argc.toNat) 0)
  | k + 1, i, h =>
      (mmAlloc h ((argv i).bytes.length + 1)).bind fun r =>
        let h := r.2.store (copy + 8 * i) r.1
        if r.1 = 0 then (freeArgs h argc copy).map fun h => (0, h)
        else copyLoop argc argv copy k (i + 1)
          { h with mem := writeChars r.1 0 (argv i).stored h.mem }

/-- `copy_args`: the array (`0` is `NULL`) and the new heap. -/
def copyArgs (h : Heap) (argc : Int) (argv : Nat → CString) : Option (Nat × Heap) :=
  (mmAlloc h (arrayBytes argc)).bind fun r =>
    if r.1 = 0 then some (0, r.2)
    else copyLoop argc argv r.1 argc.toNat 0
      { r.2 with mem := clearCells r.1 (argc + 1).toNat r.2.mem }

theorem copyLoop_refused {argc : Int} {argv : Nat → CString} {copy k i : Nat} {h h' : Heap}
    (he : mmAlloc h ((argv i).bytes.length + 1) = some (0, h')) :
    copyLoop argc argv copy (k + 1) i h =
      (freeArgs (h'.store (copy + 8 * i) 0) argc copy).map fun h => (0, h) := by
  rw [copyLoop, he, Option.bind_some]
  exact if_pos rfl

theorem copyLoop_taken {argc : Int} {argv : Nat → CString} {copy k i p : Nat} {h h' : Heap}
    (he : mmAlloc h ((argv i).bytes.length + 1) = some (p, h')) (hp : p ≠ 0) :
    copyLoop argc argv copy (k + 1) i h = copyLoop argc argv copy k (i + 1)
      { h' with
        mem := writeChars p 0 (argv i).stored (Function.update h'.mem (copy + 8 * i) p) } := by
  rw [copyLoop, he, Option.bind_some]
  exact if_neg hp

/-! ### Blocks and cells -/

theorem clearCells_agree (copy k : Nat) (m : Cells) :
    AgreeOutside copy (copy + 8 * k) m (clearCells copy k m) := by
  induction k with
  | zero => exact AgreeOutside.refl _ _ m
  | succ k ih =>
      exact (ih.mono le_rfl (by omega)).trans (AgreeOutside.update _ 0 (by omega) (by omega))

theorem clearCells_apply (copy : Nat) {i k : Nat} (m : Cells) (h : i < k) :
    clearCells copy k m (copy + 8 * i) = 0 := by
  induction k with
  | zero => omega
  | succ k ih =>
      rw [clearCells, Function.update_apply]
      split
      · rfl
      · exact ih (by omega)

/-- Two used blocks do not overlap. -/
theorem Used.apart {a x y m k : Nat} {bs : List Blk} (hx : Used a bs x m) (hy : Used a bs y k)
    (hne : x ≠ y) : x + blockHeader + m ≤ y ∨ y + blockHeader + k ≤ x := by
  have hspan : (⟨m, false⟩ : Blk).span = blockHeader + m := rfl
  have hspan' : (⟨k, false⟩ : Blk).span = blockHeader + k := rfl
  rcases place_disjoint hx hy with he | hlt | hlt
  · exact absurd (Prod.mk.inj he).1 hne
  · exact .inl (by omega)
  · exact .inr (by omega)

/-- A list of pointers as an array that is `NULL` behind it, with one more entry. -/
theorem getD_concat (ptrs : List Nat) (v j : Nat) :
    (ptrs ++ [v]).getD j 0 = if j = ptrs.length then v else ptrs.getD j 0 := by
  simp only [List.getD_eq_getElem?_getD]
  rcases Nat.lt_trichotomy j ptrs.length with hlt | rfl | hgt
  · rw [List.getElem?_append_left hlt, if_neg (Nat.ne_of_lt hlt)]
  · rw [List.getElem?_concat_length, if_pos rfl, Option.getD_some]
  · rw [List.getElem?_eq_none (by simpa using Nat.succ_le_of_lt hgt), List.getElem?_eq_none hgt.le,
      if_neg (Nat.ne_of_gt hgt)]

/-! ### A copy in the making -/

variable {a n argc copy : Nat} {σ τ : Session Heap} {bs cs : List Blk} {argv : Nat → CString}
  {ptrs : List Nat}

/-- The session `τ` has come from `σ` by taking the array `copy` and the strings
`ptrs`, copies of the first arguments; the rest of the array is `NULL`. -/
structure Copying (a n : Nat) (σ : Session Heap) (bs : List Blk) (argc : Nat)
    (argv : Nat → CString) (copy : Nat) (ptrs : List Nat) (τ : Session Heap) (cs : List Blk) :
    Prop where
  exact : Exact a n τ cs
  array : ∃ x m, copy = x + blockHeader ∧ 8 * (argc + 1) ≤ m ∧ Used a cs x m
  pointers : τ.live.map Prod.fst = ptrs.reverse ++ copy :: σ.live.map Prod.fst
  used : ∀ x m, Used a bs x m ↔ Used a cs x m ∧ x + blockHeader ∉ copy :: ptrs
  cells : ∀ i ≤ argc, τ.heap.mem (copy + 8 * i) = ptrs.getD i 0
  strings : ∀ i p, ptrs[i]? = some p → ∃ x m, p = x + blockHeader ∧
    (argv i).stored.length ≤ m ∧ Used a cs x m ∧ HoldsChars τ.heap.mem p (argv i).stored

namespace Copying

theorem live (hc : Copying a n σ bs argc argv copy ptrs τ cs) {p : Nat} (hp : p ∈ copy :: ptrs) :
    p ∈ τ.live.map Prod.fst := by
  rw [hc.pointers, List.mem_append, List.mem_reverse, List.mem_cons]
  rcases List.mem_cons.mp hp with rfl | hp
  · exact .inr (.inl rfl)
  · exact .inl hp

theorem nodup (hc : Copying a n σ bs argc argv copy ptrs τ cs) : (copy :: ptrs).Nodup := by
  have hnd := hc.exact.inv.nodup
  rw [hc.pointers, List.nodup_append] at hnd
  refine List.nodup_cons.mpr ⟨fun hp => ?_, (List.reverse_perm ptrs).nodup_iff.mp hnd.1⟩
  exact hnd.2.2 copy (List.mem_reverse.mpr hp) copy List.mem_cons_self rfl

/-- The blocks of the copy were not held before. -/
theorem fresh (hc : Copying a n σ bs argc argv copy ptrs τ cs) {p : Nat} (hp : p ∈ copy :: ptrs) :
    p ∉ σ.live.map Prod.fst := by
  have hnd := hc.exact.inv.nodup
  rw [hc.pointers, List.nodup_append, List.nodup_cons] at hnd
  intro hold
  rcases List.mem_cons.mp hp with rfl | hp
  · exact hnd.2.1.1 hold
  · exact hnd.2.2 p (List.mem_reverse.mpr hp) p (List.mem_cons_of_mem _ hold) rfl

/-- The array has been taken and cleared. -/
theorem start {x m : Nat} {h' : Heap}
    (hexact : Exact a n ⟨h', (x + blockHeader, 8 * (argc + 1)) :: σ.live⟩ cs)
    (hm : 8 * (argc + 1) ≤ m) (hnew : ∀ k, ¬ Used a bs x k)
    (hused : ∀ y k, Used a cs y k ↔ Used a bs y k ∨ (y = x ∧ k = m)) :
    Copying a n σ bs argc argv (x + blockHeader) []
      ⟨{ h' with mem := clearCells (x + blockHeader) (argc + 1) h'.mem },
        (x + blockHeader, 8 * (argc + 1)) :: σ.live⟩ cs where
  exact := hexact.rewrite ((hused x m).mpr (.inr ⟨rfl, rfl⟩))
    ((clearCells_agree _ _ h'.mem).mono le_rfl (by omega))
  array := ⟨x, m, rfl, hm, (hused x m).mpr (.inr ⟨rfl, rfl⟩)⟩
  pointers := rfl
  used y k := by
    rw [hused, List.mem_singleton, Nat.add_right_cancel_iff]
    constructor
    · intro hu
      exact ⟨.inl hu, fun he => hnew k (he ▸ hu)⟩
    · rintro ⟨hu | ⟨rfl, -⟩, hne⟩
      · exact hu
      · exact absurd rfl hne
  cells i hi := by
    rw [List.getD_nil]
    exact clearCells_apply _ _ (Nat.lt_succ_of_le hi)
  strings i p hp := by
    rw [List.getElem?_nil] at hp
    cases hp

/-- One more string has been taken, entered in the array and filled. -/
theorem next (hc : Copying a n σ bs argc argv copy ptrs τ cs) (hlen : ptrs.length < argc)
    {x m size : Nat} {h' : Heap} {cs' : List Blk}
    (hexact : Exact a n ⟨h', (x + blockHeader, size) :: τ.live⟩ cs')
    (hm : (argv ptrs.length).stored.length ≤ m) (hnew : ∀ k, ¬ Used a cs x k)
    (hused : ∀ y k, Used a cs' y k ↔ Used a cs y k ∨ (y = x ∧ k = m))
    (hkeep : KeepsUsed a cs τ.heap.mem h'.mem) :
    Copying a n σ bs argc argv copy (ptrs ++ [x + blockHeader])
      ⟨{ h' with
          mem := writeChars (x + blockHeader) 0 (argv ptrs.length).stored
            (Function.update h'.mem (copy + 8 * ptrs.length) (x + blockHeader)) },
        (x + blockHeader, size) :: τ.live⟩ cs' := by
  obtain ⟨xa, ma, hcopy, hma, hua⟩ := hc.array
  have hux : Used a cs' x m := (hused x m).mpr (.inr ⟨rfl, rfl⟩)
  have hold : ∀ {y k}, Used a cs y k → Used a cs' y k := fun hu => (hused _ _).mpr (.inl hu)
  have hne : ∀ {y k}, Used a cs y k → y ≠ x := fun hu he => hnew _ (he ▸ hu)
  have hcell : AgreeOutside (xa + blockHeader) (xa + blockHeader + ma) h'.mem
      (Function.update h'.mem (copy + 8 * ptrs.length) (x + blockHeader)) :=
    AgreeOutside.update _ _ (by omega) (by omega)
  have hchars : AgreeOutside (x + blockHeader) (x + blockHeader + m)
      (Function.update h'.mem (copy + 8 * ptrs.length) (x + blockHeader))
      (writeChars (x + blockHeader) 0 (argv ptrs.length).stored
        (Function.update h'.mem (copy + 8 * ptrs.length) (x + blockHeader))) :=
    writeChars_agree _ _ (by omega)
  -- what is written into the new block leaves the payloads of the others alone
  have hother : ∀ y k, Used a cs y k → ∀ c, y + blockHeader ≤ c → c < y + blockHeader + k →
      writeChars (x + blockHeader) 0 (argv ptrs.length).stored
        (Function.update h'.mem (copy + 8 * ptrs.length) (x + blockHeader)) c =
      Function.update h'.mem (copy + 8 * ptrs.length) (x + blockHeader) c := by
    intro y k hu c hlo hhi
    apply hchars
    have := (hold hu).apart hux (hne hu)
    omega
  have hkept : ∀ y k, Used a cs y k → ∀ c, y + blockHeader ≤ c → c < y + blockHeader + k →
      h'.mem c = τ.heap.mem c := by
    intro y k hu c hlo hhi
    exact hkeep y _ hu rfl c (by omega) (by simp only [Blk.span]; omega)
  refine ⟨(hexact.rewrite (hold hua) hcell).rewrite hux hchars, ⟨xa, ma, hcopy, hma, hold hua⟩,
    ?_, fun y k => ?_, fun j hj => ?_, fun j p hp => ?_⟩
  · rw [List.map_cons, hc.pointers, List.reverse_append]
    rfl
  · rw [hc.used, hused, List.mem_cons, List.mem_cons, List.mem_append, List.mem_singleton,
      Nat.add_right_cancel_iff]
    constructor
    · rintro ⟨hu, hno⟩
      exact ⟨.inl hu, fun h => hno (h.imp_right fun h => h.resolve_right (hne hu))⟩
    · rintro ⟨hu | ⟨rfl, -⟩, hno⟩
      · exact ⟨hu, fun h => hno (h.imp_right .inl)⟩
      · exact absurd (.inr (.inr rfl)) hno
  · show writeChars _ _ _ _ (copy + 8 * j) = _
    rw [hother xa ma hua _ (by omega) (by omega), Function.update_apply, getD_concat,
      hkept xa ma hua _ (by omega) (by omega), hc.cells j hj]
    exact if_congr ⟨fun _ => by omega, fun _ => by omega⟩ rfl rfl
  · rcases Nat.lt_or_ge j ptrs.length with hlt | hge
    · rw [List.getElem?_append_left hlt] at hp
      obtain ⟨y, k, rfl, hk, hu, hholds⟩ := hc.strings j p hp
      refine ⟨y, k, rfl, hk, hold hu, hholds.congr hk fun c hlo hhi => ?_⟩
      -- the array is another block
      have hya : y ≠ xa := by
        rintro rfl
        have hnd := (List.nodup_cons.mp hc.nodup).1
        rw [hcopy] at hnd
        exact hnd (List.mem_of_getElem? hp)
      have := hu.apart hua hya
      show writeChars _ _ _ _ c = _
      rw [hother y k hu c hlo hhi, Function.update_of_ne (by omega), hkept y k hu c hlo hhi]
    · rw [List.getElem?_append_right hge, List.getElem?_singleton] at hp
      split at hp
      · next hj =>
          obtain rfl : j = ptrs.length := by omega
          obtain rfl := Option.some.inj hp
          exact ⟨x, m, rfl, hm, hux, holdsChars_writeChars _ _ _⟩
      · cases hp

/-- The walk over the array gives back the strings it has not passed yet. -/
theorem freeLoop_run (hc : Copying a n σ bs argc argv copy ptrs τ cs) (hend : a + n < 2 ^ 64)
    (hfirst : a + blockHeader ∈ σ.live.map Prod.fst) {gone : List Nat} {h : Heap} {ds : List Blk}
    (k i : Nat) (hik : i + k ≤ argc) (hgone : ∀ q, q ∈ gone ↔ q ∈ ptrs.take i)
    (hr : Returned a n τ cs gone h ds) :
    ∃ gone' h' ds', freeLoop copy k i h = some h' ∧ Returned a n τ cs gone' h' ds' ∧
      ∀ q, q ∈ gone' ↔ q ∈ ptrs.take (i + k) := by
  induction k generalizing i gone h ds with
  | zero => exact ⟨gone, h, ds, rfl, hr, hgone⟩
  | succ k ih =>
      obtain ⟨hnd, hnd'⟩ := List.nodup_cons.mp hc.nodup
      -- the array is still in use and holds what was written
      have hread : h.mem (copy + 8 * i) = ptrs.getD i 0 := by
        obtain ⟨x, m, hcopy, hm, hu⟩ := hc.array
        rw [← hc.cells i (by omega)]
        refine hr.kept x m hu ?_ _ (by omega) (by omega)
        rw [← hcopy, hgone]
        exact fun hp => hnd (List.mem_of_mem_take hp)
      rw [freeLoop, hread]
      have hnext : ∀ {gone₁ h₁ ds₁}, Returned a n τ cs gone₁ h₁ ds₁ →
          (∀ q, q ∈ gone₁ ↔ q ∈ ptrs.take (i + 1)) →
          ∃ gone' h' ds', freeLoop copy k (i + 1) h₁ = some h' ∧ Returned a n τ cs gone' h' ds' ∧
            ∀ q, q ∈ gone' ↔ q ∈ ptrs.take (i + (k + 1)) := by
        intro gone₁ h₁ ds₁ hr₁ hgone₁
        rw [show i + (k + 1) = i + 1 + k by omega]
        exact ih (i + 1) (by omega) hgone₁ hr₁
      -- a string to give back, or one of the entries that are still `NULL`
      rcases Nat.lt_or_ge i ptrs.length with hlt | hge
      · have hget : ptrs[i]? = some ptrs[i] := List.getElem?_eq_getElem hlt
        have hmem : ptrs[i] ∈ copy :: ptrs := List.mem_cons_of_mem _ (List.getElem_mem hlt)
        obtain ⟨x, m, hx, -⟩ := hc.strings i _ hget
        have hne : ptrs[i] ≠ a + blockHeader := fun he => hc.fresh hmem (he ▸ hfirst)
        have htake : ptrs.take (i + 1) = ptrs.take i ++ [ptrs[i]] := by
          rw [List.take_add_one, hget]
          rfl
        have hnot : ptrs[i] ∉ gone := by
          rw [hgone]
          have hsub := hnd'.sublist (List.take_sublist (i + 1) ptrs)
          rw [htake, List.nodup_append] at hsub
          exact fun hp => hsub.2.2 _ hp _ (List.mem_singleton.mpr rfl) rfl
        obtain ⟨h₁, ds₁, hfree, hr₁⟩ := hr.first hend (hc.live hmem) hne hnot
        rw [List.getD_eq_getElem _ _ hlt, if_pos (by rw [hx]; exact Nat.succ_ne_zero _), hfree]
        refine hnext hr₁ fun q => ?_
        rw [htake, List.mem_cons, List.mem_append, List.mem_singleton, hgone, or_comm]
      · rw [List.getD_eq_default _ _ hge, if_neg (by simp)]
        refine hnext hr fun q => ?_
        rw [hgone, List.take_of_length_le hge, List.take_of_length_le (by omega)]

/-- **Giving the copy back restores the block list.** -/
theorem freeArgs_restores (hσ : Exact a n σ bs)
    (hc : Copying a n σ bs argc argv copy ptrs τ cs) (hend : a + n < 2 ^ 64)
    (hfirst : a + blockHeader ∈ σ.live.map Prod.fst) (hlen : ptrs.length ≤ argc) :
    ∃ h', freeArgs τ.heap argc copy = some h' ∧ blockList h' = blockList σ.heap := by
  obtain ⟨x, m, hcopy, -, -⟩ := hc.array
  obtain ⟨gone, h₁, ds₁, hloop, hr, hgone⟩ := hc.freeLoop_run hend hfirst argc 0 (by omega)
    (by simp) (Returned.nil hc.exact)
  rw [Nat.zero_add, List.take_of_length_le hlen] at hgone
  have hne : copy ≠ a + blockHeader := fun he => hc.fresh List.mem_cons_self (he ▸ hfirst)
  have hnot : copy ∉ gone := by
    rw [hgone]
    exact (List.nodup_cons.mp hc.nodup).1
  obtain ⟨h', ds', hfree, hr'⟩ := hr.first hend (hc.live List.mem_cons_self) hne hnot
  refine ⟨h', ?_, hr'.exact.blockList_eq hσ fun y k => ?_⟩
  · rw [freeArgs, if_neg (by rw [hcopy]; exact Nat.succ_ne_zero _), Int.toNat_natCast, hloop]
    exact hfree
  · rw [hr'.used, hc.used, List.mem_cons, List.mem_cons, hgone]

end Copying

/-! ### Copying all arguments -/

/-- The array `copy` holds `argc` pointers and `NULL`, the pointers are to strings
equal to the arguments, and the array and the strings lie in used blocks no two of
which overlap. -/
structure ArgsCopied (h : Heap) (argc : Nat) (argv : Nat → CString) (copy : Nat)
    (ptrs : List Nat) : Prop where
  count : ptrs.length = argc
  cells : ∀ i p, ptrs[i]? = some p → h.mem (copy + 8 * i) = p
  null : h.mem (copy + 8 * argc) = 0
  strings : ∀ i p, ptrs[i]? = some p → HoldsChars h.mem p (argv i).stored ∧
    (argv i).stored.length ≤ h.size (p - blockHeader)
  blocks : ∀ p ∈ copy :: ptrs, (p - blockHeader, h.size (p - blockHeader), 0) ∈ blockList h
  disjoint : (copy :: ptrs).Pairwise fun p q =>
    p + h.size (p - blockHeader) ≤ q - blockHeader ∨ q + h.size (q - blockHeader) ≤ p - blockHeader

theorem Copying.copied (hc : Copying a n σ bs argc argv copy ptrs τ cs)
    (hlen : ptrs.length = argc) : ArgsCopied τ.heap argc argv copy ptrs := by
  have hsize : ∀ {x m}, Used a cs x m → τ.heap.size x = m := by
    intro x m hu
    rw [← hc.exact.start] at hu
    exact hc.exact.inv.wellFormed.chain.size_eq hu
  have hblock : ∀ p ∈ copy :: ptrs, ∃ x m, p = x + blockHeader ∧ Used a cs x m := by
    intro p hp
    rcases List.mem_cons.mp hp with rfl | hp
    · obtain ⟨x, m, hx, -, hu⟩ := hc.array
      exact ⟨x, m, hx, hu⟩
    · obtain ⟨i, hi⟩ := List.mem_iff_getElem?.mp hp
      obtain ⟨x, m, hx, -, hu, -⟩ := hc.strings i p hi
      exact ⟨x, m, hx, hu⟩
  refine ⟨hlen, fun i p hp => ?_, ?_, fun i p hp => ?_, fun p hp => ?_, ?_⟩
  · obtain ⟨hi, he⟩ := List.getElem?_eq_some_iff.mp hp
    rw [hc.cells i (by omega), List.getD_eq_getElem _ _ hi, he]
  · rw [hc.cells argc le_rfl, List.getD_eq_default _ _ (by omega)]
  · obtain ⟨x, m, rfl, hm, hu, hholds⟩ := hc.strings i p hp
    rw [Nat.add_sub_cancel, hsize hu]
    exact ⟨hholds, hm⟩
  · obtain ⟨x, m, rfl, hu⟩ := hblock p hp
    rw [Nat.add_sub_cancel, hsize hu,
      hc.exact.inv.wellFormed.blockList_eq hc.exact.inv.region, hc.exact.start]
    exact List.mem_map.mpr ⟨_, hu, rfl⟩
  · refine hc.nodup.imp_of_mem fun {p q} hp hq hne => ?_
    obtain ⟨x, m, rfl, hu⟩ := hblock p hp
    obtain ⟨y, k, rfl, hu'⟩ := hblock q hq
    rw [Nat.add_sub_cancel, Nat.add_sub_cancel, hsize hu, hsize hu']
    exact hu.apart hu' fun he => hne (by rw [he])

/-- The loop copies the remaining arguments, or runs into a refused allocation and
gives everything back. -/
theorem copyLoop_run (hσ : Exact a n σ bs) (hend : a + n < 2 ^ 64)
    (hfirst : a + blockHeader ∈ σ.live.map Prod.fst)
    (hargv : ∀ i < argc, (argv i).bytes.length < 2 ^ 31)
    (hc : Copying a n σ bs argc argv copy ptrs τ cs) {k : Nat} (hk : ptrs.length + k = argc) :
    (∃ h', copyLoop argc argv copy k ptrs.length τ.heap = some (0, h') ∧
      blockList h' = blockList σ.heap) ∨
    ∃ ptrs' τ' cs', copyLoop argc argv copy k ptrs.length τ.heap = some (copy, τ'.heap) ∧
      Copying a n σ bs argc argv copy ptrs' τ' cs' ∧ ptrs'.length = argc := by
  -- the entries behind the strings are `NULL` already
  have hnull : ∀ {ptrs τ cs}, Copying a n σ bs argc argv copy ptrs τ cs → ptrs.length ≤ argc →
      τ.heap.store (copy + 8 * ptrs.length) 0 = τ.heap := by
    intro ptrs τ cs hc hle
    have hcell := hc.cells ptrs.length hle
    rw [List.getD_eq_default _ _ le_rfl] at hcell
    rw [Heap.store, ← hcell, Function.update_eq_self]
  induction k generalizing ptrs τ cs with
  | zero =>
      right
      refine ⟨ptrs, τ, cs, ?_, hc, by omega⟩
      rw [copyLoop, Int.toNat_natCast, show argc = ptrs.length by omega, hnull hc (by omega)]
  | succ k ih =>
      have hlen := hargv ptrs.length (by omega)
      have hop : Allowed τ (.alloc ((argv ptrs.length).bytes.length + 1)) :=
        ⟨Nat.succ_pos _, by omega⟩
      rcases hc.exact.alloc hop with
        hrefused | ⟨x, m, h', cs', htaken, hm, hexact, hnew, hused, hkeep⟩
      -- `copy[i]` is `NULL` after the refusal, as it was: `free_args` sees the strings so far
      · left
        obtain ⟨h', hfree, hlist⟩ := hc.freeArgs_restores hσ hend hfirst (by omega)
        refine ⟨h', ?_, hlist⟩
        rw [copyLoop_refused hrefused, hnull hc (by omega), hfree]
        rfl
      · have hstored : (argv ptrs.length).stored.length ≤ m := by
          rw [CString.stored, List.length_append, List.length_singleton]
          exact hm
        have hnext := hc.next (by omega) hexact hstored hnew hused hkeep
        have hrest := ih hnext (by rw [List.length_append, List.length_singleton]; omega)
        rw [List.length_append, List.length_singleton] at hrest
        rw [copyLoop_taken htaken (Nat.succ_ne_zero _)]
        exact hrest

theorem arrayBytes_natCast {argc : Nat} (h : (argc : Int) + 1 < 2 ^ 31) :
    arrayBytes argc = 8 * (argc + 1) := by
  unfold arrayBytes
  rw [Int.bmod_eq_of_le (by omega) (by omega)]
  omega

/-- A negative count, or one whose successor is negative, asks for nothing or for more
than any heap has. -/
theorem arrayBytes_neg {argc : Int} (hlo : -2 ^ 31 ≤ argc) (hhi : argc < 2 ^ 31)
    (hneg : ¬ (0 ≤ argc ∧ argc + 1 < 2 ^ 31)) :
    arrayBytes argc = 0 ∨ (2 ^ 63 ≤ arrayBytes argc ∧ arrayBytes argc ≤ 2 ^ 64 - 8) := by
  unfold arrayBytes
  by_cases htop : argc + 1 = 2 ^ 31
  · rw [htop]
    exact .inr (by decide)
  · rw [Int.bmod_eq_of_le (by omega) (by omega)]
    omega

/-- **Argument copying is all or nothing**: whichever allocation fails, the block list
is what it was; and when none fails, the copy is right and `free_args` restores the
list.  The first block of the heap is in use throughout; `argc` and the lengths are
values of an `int`. -/
theorem copyArgs_all_or_nothing {mem : Cells} (h₀ : a ≠ 0) (h₁ : blockHeader ≤ n)
    (h₂ : n < 2 ^ 63) (h₃ : a + n < 2 ^ 64)
    (hr : (manager.client Allowed).Reach (FreeList.start mem a n) σ)
    (hfirst : a + blockHeader ∈ σ.live.map Prod.fst) {argc : Int} (hlo : -2 ^ 31 ≤ argc)
    (hhi : argc < 2 ^ 31) {argv : Nat → CString}
    (hargv : ∀ i : Nat, i < argc → (argv i).bytes.length < 2 ^ 31) :
    ∃ copy h', copyArgs σ.heap argc argv = some (copy, h') ∧
      (copy = 0 → blockList h' = blockList σ.heap) ∧
      (copy ≠ 0 → 0 ≤ argc ∧ (∃ ptrs, ArgsCopied h' argc.toNat argv copy ptrs) ∧
        ∃ h'', freeArgs h' argc copy = some h'' ∧ blockList h'' = blockList σ.heap) := by
  obtain ⟨bs, hσ⟩ := reach_exact h₀ h₁ h₂ h₃ hr
  have hrefused : mmAlloc σ.heap (arrayBytes argc) = some (0, σ.heap) →
      copyArgs σ.heap argc argv = some (0, σ.heap) := by
    intro he
    rw [copyArgs, he, Option.bind_some, if_pos rfl]
  -- a count for which the size of the array is not one fails at once
  by_cases hpos : 0 ≤ argc ∧ argc + 1 < 2 ^ 31
  swap
  · refine ⟨0, σ.heap, hrefused ?_, fun _ => rfl, fun h => absurd rfl h⟩
    rcases arrayBytes_neg hlo hhi hpos with hzero | hbig
    · rw [hzero]
      rfl
    · have hop : Allowed σ (.alloc (arrayBytes argc)) := ⟨by omega, hbig.2⟩
      rcases hσ.alloc hop with
        he | ⟨x, m, h', cs, -, hm, hexact, -, hused, -⟩
      · exact he
      · -- a block is not larger than the heap
        have hu : Used a cs x m := (hused x m).mpr (.inr ⟨rfl, rfl⟩)
        have hbound := (place_bounds hu).2
        have hcover := hexact.inv.wellFormed.covers
        rw [hexact.size] at hcover
        simp only [Blk.span] at hbound
        have := (place_bounds hu).1
        omega
  · obtain ⟨hpos, hhi⟩ := hpos
    obtain ⟨count, rfl⟩ := Int.eq_ofNat_of_zero_le hpos
    have hbytes : arrayBytes count = 8 * (count + 1) := arrayBytes_natCast hhi
    have hop : Allowed σ (.alloc (arrayBytes count)) := ⟨by omega, by omega⟩
    rcases hσ.alloc hop with
      he | ⟨x, m, h', cs, htaken, hm, hexact, hnew, hused, -⟩
    · exact ⟨0, σ.heap, hrefused he, fun _ => rfl, fun h => absurd rfl h⟩
    · rw [hbytes] at hm hexact
      have hstart : Copying a n σ bs count argv (x + blockHeader) [] _ cs :=
        Copying.start hexact hm hnew hused
      have hcode : copyArgs σ.heap count argv = copyLoop count argv (x + blockHeader) count 0
          { h' with mem := clearCells (x + blockHeader) (count + 1) h'.mem } := by
        rw [copyArgs, htaken, Option.bind_some]
        exact if_neg (Nat.succ_ne_zero _)
      rw [hcode]
      rcases copyLoop_run hσ h₃ hfirst (fun i hi => hargv i (by omega)) hstart
          (Nat.zero_add count) with
        ⟨h'', hloop, hlist⟩ | ⟨ptrs, τ, ds, hloop, hcopied, hlen⟩
      · exact ⟨0, h'', hloop, fun _ => hlist, fun h => absurd rfl h⟩
      · refine ⟨x + blockHeader, τ.heap, hloop, fun h => absurd h (Nat.succ_ne_zero _),
          fun _ => ⟨hpos, ⟨ptrs, hcopied.copied hlen⟩, ?_⟩⟩
        exact hcopied.freeArgs_restores hσ h₃ hfirst hlen.le

/-- Two arguments behind a first block of 24 bytes; a heap of 512 bytes has room for
them, one of 136 bytes has not. -/
theorem copyArgs_all_or_nothing_two :
    let argv : Nat → CString := fun i => if i = 0 then ⟨[97, 98], by decide⟩ else ⟨[99], by decide⟩
    (∃ σ : Session Heap, (manager.client Allowed).Reach (FreeList.start (fun _ => 0) 4096 512) σ ∧
      ∃ h', copyArgs σ.heap 2 argv = some (4168, h') ∧
        (∃ ptrs, ArgsCopied h' 2 argv 4168 ptrs) ∧
        ∃ h'', freeArgs h' 2 4168 = some h'' ∧ blockList h'' = blockList σ.heap) ∧
    ∃ σ : Session Heap, (manager.client Allowed).Reach (FreeList.start (fun _ => 0) 4096 136) σ ∧
      ∃ h', copyArgs σ.heap 2 argv = some (0, h') ∧ blockList h' = blockList σ.heap := by
  intro argv
  have hargv : ∀ i : Nat, i < (2 : Int) → (argv i).bytes.length < 2 ^ 31 := by
    intro i hi
    simp only [argv]
    split <;> decide
  constructor
  · obtain ⟨σ, hσ, hlive, hcopy⟩ := (manager.client Allowed).exists_reach_of_trace
      (s := FreeList.start (fun _ => 0) 4096 512) [.alloc 24]
      (P := fun σ => σ.live.map Prod.fst = [4120] ∧
        (copyArgs σ.heap 2 argv).map Prod.fst = some 4168) (by decide +kernel)
    obtain ⟨copy, h', hrun, -, hsome⟩ := copyArgs_all_or_nothing (by decide) (by decide) (by decide)
      (by decide) hσ (by rw [hlive]; decide) (by decide) (by decide) hargv
    rw [hrun, Option.map_some, Option.some.injEq] at hcopy
    obtain rfl : copy = 4168 := hcopy
    obtain ⟨-, hcopied, hrestored⟩ := hsome (by decide)
    exact ⟨σ, hσ, h', hrun, hcopied, hrestored⟩
  · obtain ⟨σ, hσ, hlive, hcopy⟩ := (manager.client Allowed).exists_reach_of_trace
      (s := FreeList.start (fun _ => 0) 4096 136) [.alloc 24]
      (P := fun σ => σ.live.map Prod.fst = [4120] ∧
        (copyArgs σ.heap 2 argv).map Prod.fst = some 0) (by decide +kernel)
    obtain ⟨copy, h', hrun, hnone, -⟩ := copyArgs_all_or_nothing (by decide) (by decide) (by decide)
      (by decide) hσ (by rw [hlive]; decide) (by decide) (by decide) hargv
    rw [hrun, Option.map_some, Option.some.injEq] at hcopy
    obtain rfl : copy = 0 := hcopy
    exact ⟨σ, hσ, h', hrun, hnone rfl⟩

end FreeList

end TP2Kernel
