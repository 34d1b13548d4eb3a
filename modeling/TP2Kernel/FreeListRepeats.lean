/-
TP2Kernel/FreeListRepeats.lean

Giving a block back twice.  `mm_free` looks at the flag in the header in front of
the pointer, and by then that header may lie inside a larger free block.  A merge
writes the `size` and the `next` of blocks that are in the list and never a flag,
and a header that has left the list overlaps none that is in it.  So the flag of a
released block stays set through all later merges, and the second `mm_free` of its
pointer returns at once.
-/
import TP2Kernel.FreeListHistory
import TP2Kernel.FreeListCalls

namespace TP2Kernel

namespace FreeList

/-! ### Flags -/

/-- The headers at `x` and `y` are the same or do not overlap. -/
def HeadersApart (x y : Nat) : Prop := x = y ∨ x + blockHeader ≤ y ∨ y + blockHeader ≤ x

theorem headersApart_of_mem {a x y : Nat} {b c : Blk} {bs : List Blk}
    (hb : (x, b) ∈ place Blk.span a bs) (hc : (y, c) ∈ place Blk.span a bs) :
    HeadersApart x y := by
  rcases place_disjoint hb hc with he | hlt | hlt
  · exact .inl (Prod.mk.inj he).1
  · exact .inr (.inl (by simp only [Blk.span] at hlt; omega))
  · exact .inr (.inr (by simp only [Blk.span] at hlt; omega))

/-- A merge leaves every flag as it is. -/
theorem absorb_isFree (h : Heap) {x z : Nat} (y : Nat) (hz : HeadersApart z x) :
    (absorb h x y).isFree z = h.isFree z := by
  -- the two cells written are `size` and `next`; a flag is at offset 8 of its header
  have hsize : z + 8 ≠ x := by unfold HeadersApart blockHeader at hz; omega
  have hnext : z + 8 ≠ x + 16 := by unfold HeadersApart blockHeader at hz; omega
  simp only [absorb, Heap.isFree, Heap.setSize, Heap.setNext, Heap.store,
    Function.update_of_ne hsize, Function.update_of_ne hnext]

theorem absorbNext_isFree (h : Heap) {x z : Nat} (hz : HeadersApart z x) :
    (absorbNext h x).isFree z = h.isFree z := by
  unfold absorbNext
  split
  · exact absorb_isFree h _ hz
  · rfl

/-- `mm_free` sets the flag of the block it is given and no other, in the list or
not. -/
theorem mmFree_isFree {h h' : Heap} {b p : Blk} {pre post : List Blk} {x y z : Nat}
    (hw : WellFormed h ((pre ++ [p]) ++ b :: post)) (hend : h.heapStart + h.heapSize < 2 ^ 64)
    (hused : b.free = false) (hin : extent Blk.span (pre ++ [p]) + blockHeader < h.heapSize)
    (hx : x = h.heapStart + extent Blk.span (pre ++ [p]))
    (hy : y = h.heapStart + extent Blk.span pre) (hfree : mmFree h (x + blockHeader) = some h')
    (hzx : HeadersApart z x) (hzy : HeadersApart z y) :
    h'.isFree z = if z = x then 1 else h.isFree z := by
  -- the flag is set, and what follows it is one or two merges
  have hnext : (absorbNext (h.setIsFree x 1) x).isFree z = if z = x then 1 else h.isFree z := by
    rw [absorbNext_isFree _ hzx]
    simp only [Heap.isFree, Heap.setIsFree, Heap.store, Function.update_apply,
      Nat.add_right_cancel_iff]
  rw [mmFree_inner hw.first hw.chain hw.covers hend hused hin hx, Option.some.injEq, ← hy] at hfree
  rw [← hfree, ← hnext]
  split
  · exact absorb_isFree _ x hzy
  · rfl

/-- A pointer whose header has the flag set is ignored. -/
theorem mmFree_of_isFree {h : Heap} {x : Nat} (hfree : h.isFree x ≠ 0)
    (hx : x + blockHeader < 2 ^ 64) : mmFree h (x + blockHeader) = some h := by
  have hsub : sub64 (x + blockHeader) blockHeader = x := by
    rw [sub64_of_le (Nat.le_add_left _ _) hx, Nat.add_sub_cancel]
  unfold mmFree
  simp only [hsub, if_pos hfree, ite_self]

/-! ### Releases with repetitions -/

variable {a n : Nat} {σ : Session Heap} {bs bs' : List Blk} {ps : List Nat} {h : Heap}

/-- The session `σ` with the block list `bs` after the pointers `ps` have been given
back, each once or more often: the other blocks are in use, with the contents they
had. -/
structure Returned (a n : Nat) (σ : Session Heap) (bs : List Blk) (ps : List Nat) (h : Heap)
    (bs' : List Blk) : Prop where
  exact : Exact a n ⟨h, σ.live.filter fun q => q.1 ∉ ps⟩ bs'
  used : ∀ x m, Used a bs' x m ↔ Used a bs x m ∧ x + blockHeader ∉ ps
  starts : ∀ x c, (x, c) ∈ place Blk.span a bs' → ∃ d, (x, d) ∈ place Blk.span a bs
  flags : ∀ p ∈ ps, ∃ x d, p = x + blockHeader ∧ (x, d) ∈ place Blk.span a bs ∧ h.isFree x ≠ 0
  kept : ∀ x m, Used a bs x m → x + blockHeader ∉ ps →
    ∀ c, x ≤ c → c < x + (blockHeader + m) → h.mem c = σ.heap.mem c

theorem Returned.nil (hσ : Exact a n σ bs) : Returned a n σ bs [] σ.heap bs where
  exact := by
    simp only [List.not_mem_nil, not_false_eq_true, decide_true, List.filter_true]
    exact hσ
  used x m := by simp
  starts x c hc := ⟨c, hc⟩
  flags p hp := absurd hp List.not_mem_nil
  kept x m hu hx c hlo hhi := rfl

/-- The pointer has been given back before. -/
theorem Returned.again (hr : Returned a n σ bs ps h bs') {p : Nat} (hp : p ∈ ps)
    (hlt : p < 2 ^ 64) : mmFree h p = some h ∧ Returned a n σ bs (p :: ps) h bs' := by
  obtain ⟨x, d, rfl, hd, hflag⟩ := hr.flags p hp
  have hmem : ∀ q, q ∈ (x + blockHeader) :: ps ↔ q ∈ ps := by
    intro q
    rw [List.mem_cons, or_iff_right_iff_imp]
    rintro rfl
    exact hp
  -- nothing happens, and the pointers given back are the same set
  refine ⟨mmFree_of_isFree hflag hlt, ?_, ?_, hr.starts, ?_, ?_⟩
  · simp only [hmem]
    exact hr.exact
  · simp only [hmem]
    exact hr.used
  · simp only [hmem]
    exact hr.flags
  · simp only [hmem]
    exact hr.kept

/-- The pointer is given back for the first time. -/
theorem Returned.first (hr : Returned a n σ bs ps h bs') (hend : a + n < 2 ^ 64) {p : Nat}
    (hlive : p ∈ σ.live.map Prod.fst) (hne : p ≠ a + blockHeader) (hp : p ∉ ps) :
    ∃ h' bs'', mmFree h p = some h' ∧ Returned a n σ bs (p :: ps) h' bs'' := by
  have hheld : p ∈ (σ.live.filter fun q => q.1 ∉ ps).map Prod.fst := by
    obtain ⟨q, hq, rfl⟩ := List.mem_map.mp hlive
    exact List.mem_map.mpr ⟨q, List.mem_filter.mpr ⟨hq, decide_eq_true hp⟩, rfl⟩
  have hbounds := hr.exact.inv.held_bounds hheld
  obtain ⟨pre, q, b, post, h', rfl, hb, rfl, hfree, hexact⟩ := hr.exact.release hend hheld hne
  have hstart : h.heapStart = a := hr.exact.start
  have hsize : h.heapSize = n := hr.exact.size
  have hend' : h.heapStart + h.heapSize < 2 ^ 64 := by omega
  have hin : extent Blk.span (pre ++ [q]) + blockHeader < h.heapSize := by
    simp only at hbounds
    omega
  -- the block and the one in front of it were in the list at the start
  obtain ⟨d, hd⟩ := hr.starts (a + extent Blk.span (pre ++ [q])) b
    (mem_place_iff.mpr ⟨pre ++ [q], post, rfl, rfl⟩)
  obtain ⟨e, he⟩ := hr.starts (a + extent Blk.span pre) q
    (mem_place_iff.mpr ⟨pre, b :: post, by simp, rfl⟩)
  have hflag : ∀ z c, (z, c) ∈ place Blk.span a bs →
      h'.isFree z = if z = a + extent Blk.span (pre ++ [q]) then 1 else h.isFree z := by
    intro z c hz
    refine mmFree_isFree hr.exact.inv.wellFormed hend' hb hin ?_ ?_ hfree
      (headersApart_of_mem hz hd) (headersApart_of_mem hz he)
    · rw [hstart]
    · rw [hstart]
  refine ⟨h', freeBlocks b post (pre ++ [q]), hfree, ?_, fun x m => ?_, fun x c hc => ?_,
    fun p hp => ?_, fun x m hu hx c hlo hhi => ?_⟩
  · rw [List.filter_filter] at hexact
    simp only [List.mem_cons, not_or, Bool.decide_and]
    exact hexact
  · rw [used_free, hr.used, List.mem_cons, not_or, and_assoc, and_comm (a := _ ∉ ps)]
    refine and_congr_right fun _ => and_congr_left fun _ => not_congr ?_
    omega
  -- a merge makes no new block, so the starts are among the old ones
  · obtain ⟨c', hc'⟩ := starts_free hc
    exact hr.starts x c' hc'
  · rcases List.mem_cons.mp hp with rfl | hp
    · exact ⟨_, d, rfl, hd, by rw [hflag _ d hd, if_pos rfl]; decide⟩
    · obtain ⟨z, c, rfl, hz, hset⟩ := hr.flags p hp
      refine ⟨z, c, rfl, hz, ?_⟩
      rw [hflag z c hz]
      split
      · decide
      · exact hset
  · rw [List.mem_cons, not_or] at hx
    obtain ⟨size, f⟩ := b
    obtain rfl : f = false := hb
    -- the other used blocks keep their cells, headers included
    obtain ⟨mem', bs₁, hfree', hreleased⟩ := hr.exact.inv.wellFormed.release_inner hend' hin
    rw [show h.heapStart = a from hstart, hfree, Option.some.injEq] at hfree'
    have hsame := hreleased.untouched x m c (by rw [hstart]; exact (hr.used x m).mpr ⟨hu, hx.2⟩)
      (by rw [hstart]; exact fun he => hx.1 (by rw [he])) hlo hhi
    rw [hfree']
    exact hsame.trans (hr.kept x m hu hx.2 c hlo hhi)

/-- Any sequence of releases of pointers that were held at its start. -/
theorem Returned.run (hr : Returned a n σ bs ps h bs') (hend : a + n < 2 ^ 64) {qs : List Nat}
    (hqs : ∀ q ∈ qs, q ∈ σ.live.map Prod.fst ∧ q ≠ a + blockHeader ∧ q < 2 ^ 64) :
    ∃ h' bs'', qs.foldlM mmFree h = some h' ∧ Returned a n σ bs (qs.reverse ++ ps) h' bs'' := by
  induction qs generalizing ps h bs' with
  | nil => exact ⟨h, bs', rfl, hr⟩
  | cons q qs ih =>
      obtain ⟨hlive, hne, hlt⟩ := hqs q List.mem_cons_self
      have hstep : ∃ h₁ bs₁, mmFree h q = some h₁ ∧ Returned a n σ bs (q :: ps) h₁ bs₁ := by
        by_cases hq : q ∈ ps
        · obtain ⟨hfree, hr'⟩ := hr.again hq hlt
          exact ⟨h, bs', hfree, hr'⟩
        · exact hr.first hend hlive hne hq
      obtain ⟨h₁, bs₁, hfree, hr₁⟩ := hstep
      obtain ⟨h', bs'', hrest, hr'⟩ := ih hr₁ fun r hr => hqs r (List.mem_cons_of_mem q hr)
      refine ⟨h', bs'', ?_, ?_⟩
      · rw [List.foldlM_cons, hfree]
        exact hrest
      · rw [List.reverse_cons, List.append_assoc]
        exact hr'

/-- **Repeated releases are harmless**: pointers that are held, other than the first
block's, may be given back in any order and any number of times; the block list is
the one after each of them has been given back once. -/
theorem repeated_frees {mem : Cells} (h₀ : a ≠ 0) (h₁ : blockHeader ≤ n) (h₂ : n < 2 ^ 63)
    (h₃ : a + n < 2 ^ 64) (hσ : (manager.client Allowed).Reach (FreeList.start mem a n) σ)
    (hps : ∀ p ∈ ps, p ∈ σ.live.map Prod.fst ∧ p ≠ a + blockHeader) :
    ∃ h', ps.foldlM mmFree σ.heap = some h' ∧
      ∀ qs : List Nat, qs.Nodup → (∀ q, q ∈ qs ↔ q ∈ ps) →
        ∃ h'', qs.foldlM mmFree σ.heap = some h'' ∧ blockList h' = blockList h'' := by
  obtain ⟨bs, hbs⟩ := reach_exact h₀ h₁ h₂ h₃ hσ
  have hlt : ∀ p ∈ ps, p ∈ σ.live.map Prod.fst ∧ p ≠ a + blockHeader ∧ p < 2 ^ 64 := by
    intro p hp
    have hbounds := hbs.inv.held_bounds (hps p hp).1
    rw [hbs.start, hbs.size] at hbounds
    exact ⟨(hps p hp).1, (hps p hp).2, by omega⟩
  obtain ⟨h', bs', hfrees, hr⟩ := (Returned.nil hbs).run h₃ hlt
  refine ⟨h', hfrees, fun qs _ hqs => ?_⟩
  obtain ⟨h'', bs'', hfrees', hr'⟩ := (Returned.nil hbs).run h₃ fun q hq => hlt q ((hqs q).mp hq)
  refine ⟨h'', hfrees', hr.exact.blockList_eq hr'.exact fun x m => ?_⟩
  rw [hr.used, hr'.used, List.append_nil, List.append_nil, List.mem_reverse, List.mem_reverse, hqs]

/-- The header of the third block is inside the second when it is given back again. -/
theorem repeated_frees_absorbed : ∃ σ : Session Heap,
    (manager.client Allowed).Reach (FreeList.start (fun _ => 0) 4096 512) σ ∧
      σ.live.map Prod.fst = [4208, 4168, 4120] ∧
      ∃ h' h'', [4208, 4168, 4208, 4168, 4208].foldlM mmFree σ.heap = some h' ∧
        [4168, 4208].foldlM mmFree σ.heap = some h'' ∧ blockList h' = blockList h'' := by
  obtain ⟨σ, hσ, hlive⟩ := (manager.client Allowed).exists_reach_of_trace
    (s := FreeList.start (fun _ => 0) 4096 512) [.alloc 20, .alloc 16, .alloc 40]
    (P := fun σ => σ.live.map Prod.fst = [4208, 4168, 4120]) (by decide +kernel)
  have hps : ∀ p ∈ [4208, 4168, 4208, 4168, 4208],
      p ∈ σ.live.map Prod.fst ∧ p ≠ 4096 + blockHeader := by
    rw [hlive]
    decide
  obtain ⟨h', hfrees, hall⟩ :=
    repeated_frees (by decide) (by decide) (by decide) (by decide) hσ hps
  obtain ⟨h'', hfrees', heq⟩ := hall [4168, 4208] (by decide) (by intro q; simp; tauto)
  exact ⟨σ, hσ, hlive, h', h'', hfrees, hfrees', heq⟩

end FreeList

end TP2Kernel
