/-
TP2Kernel/FreeListHistory.lean

The free-list heap forgets its history.  Between two calls the used blocks of
the list are exactly the blocks the client holds (`Exact`), and the rest of the
heap is covered by free blocks no two of which are neighbours.  Such a tiling
is determined by its used blocks (`place_canonical`), so the block list depends
on what is held and on nothing else: not on the order of the releases, and not
on blocks that have been taken and given back.

The end of the heap is an address here: a heap that ended at `2 ^ 64` would be
one whose every pointer `mm_free` takes for one behind the end.
-/
import TP2Kernel.FreeListRun

namespace TP2Kernel

namespace FreeList

/-! ### The list as it is in memory -/

/-- The blocks from `current` on: address, size and `is_free`. -/
def blocksFrom (h : Heap) : Nat → Nat → List (Nat × Nat × Nat)
  | 0, _ => []
  | fuel + 1, current =>
      if current = 0 then []
      else (current, h.size current, h.isFree current) :: blocksFrom h fuel (h.next current)

/-- The block list. -/
def blockList (h : Heap) : List (Nat × Nat × Nat) := blocksFrom h h.walkBound h.firstBlock

/-- A placed block as it is in memory. -/
def asRecord (q : Nat × Blk) : Nat × Nat × Nat := (q.1, q.2.size, q.2.free.toNat)

theorem blocksFrom_chain {h : Heap} {a fuel : Nat} {bs : List Blk} (hc : Chain h.mem a bs 0)
    (ha : a ≠ 0) (hf : bs.length < fuel) :
    blocksFrom h fuel (link a bs 0) = (place Blk.span a bs).map asRecord := by
  induction bs generalizing a fuel with
  | nil =>
      obtain ⟨fuel, rfl⟩ := Nat.exists_eq_add_one_of_ne_zero (Nat.ne_zero_of_lt hf)
      rw [link_nil, blocksFrom, if_pos rfl]
      rfl
  | cons b bs ih =>
      obtain ⟨fuel, rfl⟩ := Nat.exists_eq_add_one_of_ne_zero (Nat.ne_zero_of_lt hf)
      have hsize : h.size a = b.size := hc.1.size
      have hfree : h.isFree a = b.free.toNat := hc.1.isFree
      have hnext : h.next a = link (a + b.span) bs 0 := hc.1.next
      rw [List.length_cons] at hf
      rw [link_cons, blocksFrom, if_neg ha, hsize, hfree, hnext, ih hc.2 (by omega) (by omega)]
      rfl

theorem WellFormed.blockList_eq {h : Heap} {bs : List Blk} (hw : WellFormed h bs)
    (hr : Region h) : blockList h = (place Blk.span h.heapStart bs).map asRecord := by
  rw [blockList, ← hw.link_eq]
  exact blocksFrom_chain hw.chain hr.start_ne hw.length_lt

/-- The header of a placed block. -/
theorem Chain.size_eq {mem : Cells} {a z x : Nat} {b : Blk} {bs : List Blk}
    (hc : Chain mem a bs z) (hb : (x, b) ∈ place Blk.span a bs) : mem x = b.size := by
  obtain ⟨pre, post, rfl, rfl⟩ := mem_place_iff.mp hb
  exact (chain_append.mp hc).2.1.size

/-! ### Canonical lists -/

/-- **The used blocks determine the list.** -/
theorem WellFormed.unique {h h' : Heap} {bs bs' : List Blk} (hw : WellFormed h bs)
    (hw' : WellFormed h' bs') (hsize : h'.heapSize = h.heapSize)
    (hused : ∀ x n, Used h.heapStart bs x n ↔ Used h.heapStart bs' x n) : bs = bs' := by
  have hchain : ∀ {cs : List Blk}, Coalesced cs →
      cs.IsChain fun b c => b.free = false ∨ c.free = false := by
    intro cs hcs
    apply hcs.imp
    intro b c hbc
    cases hb : b.free with
    | false => exact .inl rfl
    | true => exact .inr (Bool.eq_false_iff.mpr fun hc => hbc ⟨hb, hc⟩)
  refine place_canonical (a := h.heapStart) Blk.span_pos ?_ (hchain hw.coalesced)
    (hchain hw'.coalesced) ?_ ?_
  · -- a free block is its span
    rintro ⟨n, f⟩ ⟨m, g⟩ hf hg hspan
    simp only [Bool.not_eq_false, Blk.span] at hf hg hspan
    subst hf hg
    congr 1
    omega
  · rw [hw.covers, hw'.covers, hsize]
  · rintro x ⟨n, f⟩ hf
    simp only at hf
    subst hf
    exact hused x n

/-! ### Exact sessions -/

/-- Between two calls, on a heap of `n` bytes at `a`: the used blocks are those
that are held. -/
structure Exact (a n : Nat) (σ : Session Heap) (bs : List Blk) : Prop where
  inv : Inv σ bs
  start : σ.heap.heapStart = a
  size : σ.heap.heapSize = n
  held : ∀ x m, Used a bs x m → x + blockHeader ∈ σ.live.map Prod.fst

/-- The client holds the pointer `p`, whose block has `n` bytes. -/
def LiveBlock (σ : Session Heap) (p n : Nat) : Prop :=
  p ∈ σ.live.map Prod.fst ∧ σ.heap.size (p - blockHeader) = n

variable {a n : Nat} {σ σ' : Session Heap} {bs bs' : List Blk} {op : HeapOp}

theorem Exact.used_iff (h : Exact a n σ bs) (x m : Nat) :
    Used a bs x m ↔ LiveBlock σ (x + blockHeader) m := by
  have hsize : ∀ {y k}, Used a bs y k → σ.heap.size y = k := by
    intro y k hu
    rw [← h.start] at hu
    exact h.inv.wellFormed.chain.size_eq hu
  unfold LiveBlock
  rw [Nat.add_sub_cancel]
  constructor
  · intro hu
    exact ⟨h.held x m hu, hsize hu⟩
  · rintro ⟨hlive, hm⟩
    obtain ⟨⟨p, s⟩, hp, hx⟩ := List.mem_map.mp hlive
    obtain ⟨-, y, k, hy, -, hu⟩ := h.inv.held p s hp
    obtain rfl : y = x := by
      simp only at hx
      omega
    rw [h.start] at hu
    rw [← hm, hsize hu]
    exact hu

theorem Exact.init {mem : Cells} (h₀ : a ≠ 0) (h₁ : blockHeader ≤ n) (h₂ : n < 2 ^ 63)
    (h₃ : a + n < 2 ^ 64) :
    Exact a n (FreeList.start mem a n) [⟨n - blockHeader, true⟩] := by
  refine ⟨.start h₀ h₁ h₂ (by omega), rfl, rfl, fun x m hu => ?_⟩
  rw [used_cons_free rfl] at hu
  exact absurd hu used_nil

theorem Exact.step (h : Exact a n σ bs) (hend : a + n < 2 ^ 64) (hop : Allowed σ op) :
    ∃ σ' bs', manager.exec σ op = some σ' ∧ Exact a n σ' bs' ∧ Effect σ bs op σ' bs' := by
  obtain ⟨σ', bs', hexec, he, hw⟩ := h.inv.effect hop
  have hinv := h.inv.after hop he hw
  refine ⟨σ', bs', hexec, ?_, he⟩
  have hstart := h.start
  have hsize := h.size
  cases he with
  | refused => exact h
  | takes hbs hfree hfit =>
      subst hbs
      refine ⟨hinv, h.start, h.size, fun x m hu => ?_⟩
      rw [List.map_cons, List.mem_cons]
      rcases (used_alloc hfree).mp hu with hu | ⟨hx, -⟩
      · exact .inr (h.held x m hu)
      · exact .inl (by rw [hx, hstart])
  | ignores hout =>
      refine ⟨hinv, h.start, h.size, fun x m hu => ?_⟩
      obtain ⟨q, hq, hx⟩ := List.mem_map.mp (h.held x m hu)
      refine List.mem_map.mpr ⟨q, List.mem_filter.mpr ⟨hq, ?_⟩, hx⟩
      -- the pointer is outside the heap, so it is not held
      simp only [decide_eq_true_eq]
      rintro rfl
      have := hout (List.mem_map.mpr ⟨q, hq, rfl⟩)
      omega
  | releases hbs _ =>
      subst hbs
      refine ⟨hinv, h.start, h.size, fun x m hu => ?_⟩
      obtain ⟨hu, hne⟩ := used_free.mp hu
      obtain ⟨q, hq, hx⟩ := List.mem_map.mp (h.held x m hu)
      refine List.mem_map.mpr ⟨q, List.mem_filter.mpr ⟨hq, ?_⟩, hx⟩
      simp only [decide_eq_true_eq]
      omega
  | stores addr value => exact ⟨hinv, h.start, h.size, h.held⟩

theorem reach_exact {mem : Cells} (h₀ : a ≠ 0) (h₁ : blockHeader ≤ n) (h₂ : n < 2 ^ 63)
    (h₃ : a + n < 2 ^ 64)
    (hr : (manager.client Allowed).Reach (FreeList.start mem a n) σ) : ∃ bs, Exact a n σ bs := by
  refine hr.invariant (I := fun σ => ∃ bs, Exact a n σ bs) ⟨_, Exact.init h₀ h₁ h₂ h₃⟩ ?_
  rintro τ op τ' ⟨bs, h⟩ hop hs
  obtain ⟨τ'', bs', hexec, h', -⟩ := h.step h₃ hop
  obtain rfl := Option.some.inj (hexec.symm.trans hs)
  exact ⟨bs', h'⟩

/-- Two exact sessions with the same used blocks have the same block list. -/
theorem Exact.blockList_eq (h : Exact a n σ bs) (h' : Exact a n σ' bs')
    (hused : ∀ x m, Used a bs x m ↔ Used a bs' x m) : blockList σ.heap = blockList σ'.heap := by
  have hbs : bs = bs' := by
    apply h.inv.wellFormed.unique h'.inv.wellFormed
    · rw [h.size, h'.size]
    · rw [h.start]
      exact hused
  rw [h.inv.wellFormed.blockList_eq h.inv.region, h'.inv.wellFormed.blockList_eq h'.inv.region,
    h.start, h'.start, hbs]

/-! ### Taking blocks and writing into them -/

/-- `mm_alloc` refuses and changes nothing, or adds one block to the used ones and
writes into none that was in use. -/
theorem Exact.alloc (h : Exact a n σ bs) {size : Nat} (hop : Allowed σ (.alloc size)) :
    mmAlloc σ.heap size = some (0, σ.heap) ∨
      ∃ x m h' bs', mmAlloc σ.heap size = some (x + blockHeader, h') ∧ size ≤ m ∧
        Exact a n ⟨h', (x + blockHeader, size) :: σ.live⟩ bs' ∧ (∀ k, ¬ Used a bs x k) ∧
        (∀ y k, Used a bs' y k ↔ Used a bs y k ∨ (y = x ∧ k = m)) ∧
        KeepsUsed a bs σ.heap.mem h'.mem := by
  have hstart := h.start
  rcases h.inv.wellFormed.alloc h.inv.region hop.1 hop.2 with
    ⟨hnull, -⟩ | ⟨pre, b, post, mem', rfl, hfree, hfit, hsome, hw, hkeep⟩
  · exact .inl hnull
  · rw [hstart] at hkeep
    have hle : size ≤ align8 size := by rw [align8_eq hop.2]; omega
    refine .inr ⟨σ.heap.heapStart + extent Blk.span pre, takenSize (align8 size) b, _,
      pre ++ (carve (align8 size) b ++ post), hsome, hle.trans (le_takenSize hfit), ?_,
      fun k hu => ?_, fun y k => ?_, hkeep⟩
    · refine ⟨h.inv.alloc_taken hfree hop.1 hop.2 hfit hw, hstart, h.size, fun y k hu => ?_⟩
      rw [List.map_cons, List.mem_cons]
      rcases (used_alloc hfree).mp hu with hu | ⟨hy, -⟩
      · exact .inr (h.held y k hu)
      · exact .inl (by rw [hy, hstart])
    · -- the block that was taken was free
      rw [hstart] at hu
      have hsame := place_unique Blk.span_pos hu (mem_place_iff.mpr ⟨pre, post, rfl, rfl⟩)
      rw [← hsame] at hfree
      cases hfree
    · rw [used_alloc hfree, hstart]

/-- Writes into the payload of a used block. -/
theorem Exact.rewrite (h : Exact a n σ bs) {x m : Nat} {mem' : Cells} (hu : Used a bs x m)
    (hag : AgreeOutside (x + blockHeader) (x + blockHeader + m) σ.heap.mem mem') :
    Exact a n ⟨{ σ.heap with mem := mem' }, σ.live⟩ bs := by
  have hw : WellFormed { σ.heap with mem := mem' } bs := by
    rw [← h.start] at hu
    rw [Nat.add_assoc] at hag
    exact h.inv.wellFormed.rewrite hu hag
  exact ⟨⟨⟨h.inv.region.start_ne, h.inv.region.end_le, h.inv.region.size_lt⟩, hw, h.inv.aligned,
    h.inv.held, h.inv.nodup⟩, h.start, h.size, h.held⟩

/-! ### Giving blocks back -/

/-- `mm_free` of a held pointer releases its block in the list. -/
theorem Exact.release (h : Exact a n σ bs) (hend : a + n < 2 ^ 64) {ptr : Nat}
    (hptr : ptr ∈ σ.live.map Prod.fst) (hne : ptr ≠ a + blockHeader) :
    ∃ pre p b post h', bs = (pre ++ [p]) ++ b :: post ∧ b.free = false ∧
      ptr = a + extent Blk.span (pre ++ [p]) + blockHeader ∧ mmFree σ.heap ptr = some h' ∧
      Exact a n ⟨h', σ.live.filter fun q => q.1 ≠ ptr⟩ (freeBlocks b post (pre ++ [p])) := by
  have hop : Allowed σ (.free ptr) := .inr (.inr (.inr ⟨hptr, by rw [h.start]; exact hne⟩))
  obtain ⟨σ', bs', hexec, h', he⟩ := h.step hend hop
  obtain ⟨h₁, hfree, hσ'⟩ := Option.map_eq_some_iff.mp hexec
  subst hσ'
  have hstart := h.start
  have hsize := h.size
  generalize hτ : (⟨h₁, σ.live.filter fun q => q.1 ≠ ptr⟩ : Session Heap) = τ at he h'
  cases he with
  | ignores hout =>
      have := hout hptr
      omega
  | releases hbs hused =>
      rename_i pre post p b mem'
      rw [← hτ] at h'
      exact ⟨pre, p, b, post, h₁, hbs, hused, by rw [hstart], hfree, h'⟩

/-- `mm_free` of a held pointer takes its block out of the used blocks. -/
theorem Exact.free (h : Exact a n σ bs) (hend : a + n < 2 ^ 64) {ptr : Nat}
    (hptr : ptr ∈ σ.live.map Prod.fst) (hne : ptr ≠ a + blockHeader) :
    ∃ h' bs', mmFree σ.heap ptr = some h' ∧
      Exact a n ⟨h', σ.live.filter fun q => q.1 ≠ ptr⟩ bs' ∧
      ∀ x m, Used a bs' x m ↔ Used a bs x m ∧ x + blockHeader ≠ ptr := by
  obtain ⟨pre, p, b, post, h', rfl, -, rfl, hfree, hexact⟩ := h.release hend hptr hne
  refine ⟨h', _, hfree, hexact, fun x m => ?_⟩
  rw [used_free]
  refine and_congr_right fun _ => not_congr ?_
  omega

/-- Releasing held pointers one after the other. -/
theorem Exact.frees (h : Exact a n σ bs) (hend : a + n < 2 ^ 64) {ps : List Nat} (hnd : ps.Nodup)
    (hps : ∀ p ∈ ps, p ∈ σ.live.map Prod.fst ∧ p ≠ a + blockHeader) :
    ∃ σ' bs', (manager.client Allowed).trace σ (ps.map .free) = some σ' ∧ Exact a n σ' bs' ∧
      ∀ x m, Used a bs' x m ↔ Used a bs x m ∧ x + blockHeader ∉ ps := by
  induction ps generalizing σ bs with
  | nil => exact ⟨σ, bs, rfl, h, by simp⟩
  | cons p ps ih =>
      obtain ⟨hp, hnd⟩ := List.nodup_cons.mp hnd
      obtain ⟨hlive, hne⟩ := hps p List.mem_cons_self
      obtain ⟨h₁, bs₁, hfree, hexact, hused⟩ := h.free hend hlive hne
      -- the other pointers are still held
      have hrest : ∀ q ∈ ps, q ∈ (σ.live.filter fun r => r.1 ≠ p).map Prod.fst ∧
          q ≠ a + blockHeader := by
        intro q hq
        obtain ⟨hql, hqa⟩ := hps q (List.mem_cons_of_mem p hq)
        obtain ⟨r, hr, rfl⟩ := List.mem_map.mp hql
        refine ⟨List.mem_map.mpr ⟨r, List.mem_filter.mpr ⟨hr, ?_⟩, rfl⟩, hqa⟩
        simp only [decide_eq_true_eq]
        rintro rfl
        exact hp hq
      obtain ⟨σ', bs', htrace, hexact', hused'⟩ := ih hexact hnd hrest
      refine ⟨σ', bs', ?_, hexact', fun x m => ?_⟩
      · have hop : Allowed σ (.free p) :=
          .inr (.inr (.inr ⟨hlive, by rw [h.start]; exact hne⟩))
        rw [List.map_cons, Machine.trace_cons hop (Manager.exec_free hfree)]
        exact htrace
      · rw [hused', hused, List.mem_cons, not_or, and_assoc]

/-- `mm_alloc` and `mm_free` of what it returned. -/
theorem Exact.alloc_free (h : Exact a n σ bs) (hend : a + n < 2 ^ 64) {size ptr : Nat} {h' : Heap}
    (hop : Allowed σ (.alloc size)) (halloc : mmAlloc σ.heap size = some (ptr, h'))
    (h0 : ptr ≠ 0) (hne : ptr ≠ a + blockHeader) :
    ∃ h'', mmFree h' ptr = some h'' ∧ blockList h'' = blockList σ.heap := by
  rcases h.alloc hop with hnull | ⟨x, m, h₁, bs', hsome, -, hexact, hnew, hused, -⟩
  · rw [halloc, Option.some.injEq, Prod.mk.injEq] at hnull
    exact absurd hnull.1 h0
  · rw [halloc, Option.some.injEq, Prod.mk.injEq] at hsome
    obtain ⟨rfl, rfl⟩ := hsome
    obtain ⟨h'', bs'', hfree, hexact', hused'⟩ := hexact.free hend List.mem_cons_self hne
    refine ⟨h'', hfree, hexact'.blockList_eq h fun y k => ?_⟩
    rw [hused', hused]
    constructor
    · rintro ⟨hu | ⟨rfl, -⟩, hy⟩
      · exact hu
      · exact absurd rfl hy
    · intro hu
      refine ⟨.inl hu, ?_⟩
      rw [ne_eq, Nat.add_right_cancel_iff]
      rintro rfl
      exact hnew k hu

/-- When at most the first block is held, at most one block is free. -/
theorem Exact.one_free (h : Exact a n σ bs)
    (hlive : ∀ p ∈ σ.live.map Prod.fst, p = a + blockHeader) :
    (blockList σ.heap).countP (fun r => r.2.2 ≠ 0) ≤ 1 := by
  rw [h.inv.wellFormed.blockList_eq h.inv.region, h.start]
  have hco := h.inv.wellFormed.coalesced
  have hfirst : ∀ x b, (x, b) ∈ place Blk.span a bs → b.free = false → x = a := by
    rintro x ⟨m, f⟩ hb hf
    simp only at hf
    subst hf
    have := hlive _ (h.held x m hb)
    omega
  cases bs with
  | nil => simp
  | cons b bs =>
      cases bs with
      | nil => exact List.countP_le_length
      | cons c cs =>
          -- the second block is free, so the first is not, and there is no third
          have hpos := b.span_pos
          have hc : c.free = true := by
            by_contra hused
            have := hfirst (a + b.span) c (by simp) (Bool.not_eq_true _ ▸ hused)
            omega
          have hb : b.free = false := by
            by_contra hused
            exact (coalesced_cons.mp hco).1 c (by simp) ⟨Bool.not_eq_false _ ▸ hused, hc⟩
          have hcs : cs = [] := by
            cases cs with
            | nil => rfl
            | cons d ds =>
                have hd : d.free = true := by
                  by_contra hused
                  have := hfirst (a + b.span + c.span) d (by simp) (Bool.not_eq_true _ ▸ hused)
                  omega
                exact absurd ⟨hc, hd⟩
                  ((coalesced_cons.mp (coalesced_cons.mp hco).2).1 d (by simp))
          subst hcs
          simp [asRecord, hb, hc]

/-- **The free-list heap is history-independent**: two runs from `mm_init` that end
with the same held blocks end with the same block list, whatever the memory held
before.  So blocks can be given back in any order, `mm_free` undoes `mm_alloc`, and
when all but the first block have been given back, at most one block is free. -/
theorem history_independent {mem mem' : Cells} {τ : Session Heap} (h₀ : a ≠ 0)
    (h₁ : blockHeader ≤ n) (h₂ : n < 2 ^ 63) (h₃ : a + n < 2 ^ 64)
    (hσ : (manager.client Allowed).Reach (FreeList.start mem a n) σ)
    (hτ : (manager.client Allowed).Reach (FreeList.start mem' a n) τ) :
    ((∀ p m, LiveBlock σ p m ↔ LiveBlock τ p m) → blockList σ.heap = blockList τ.heap) ∧
    (∀ ps qs : List Nat, ps.Perm qs → ps.Nodup →
      (∀ p ∈ ps, p ∈ σ.live.map Prod.fst ∧ p ≠ a + blockHeader) →
      ∃ σ₁ σ₂, (manager.client Allowed).trace σ (ps.map .free) = some σ₁ ∧
        (manager.client Allowed).trace σ (qs.map .free) = some σ₂ ∧
        blockList σ₁.heap = blockList σ₂.heap) ∧
    (∀ size ptr h', Allowed σ (.alloc size) → mmAlloc σ.heap size = some (ptr, h') → ptr ≠ 0 →
      ptr ≠ a + blockHeader → ∃ h'', mmFree h' ptr = some h'' ∧ blockList h'' = blockList σ.heap) ∧
    ∀ ps : List Nat, ps.Nodup → (∀ p, p ∈ ps ↔ p ∈ σ.live.map Prod.fst ∧ p ≠ a + blockHeader) →
      ∃ σ', (manager.client Allowed).trace σ (ps.map .free) = some σ' ∧
        (blockList σ'.heap).countP (fun r => r.2.2 ≠ 0) ≤ 1 := by
  obtain ⟨bs, hbs⟩ := reach_exact h₀ h₁ h₂ h₃ hσ
  obtain ⟨cs, hcs⟩ := reach_exact h₀ h₁ h₂ h₃ hτ
  refine ⟨fun hlive => ?_, fun ps qs hperm hnd hps => ?_, fun size ptr h' hop halloc h0 hne =>
    hbs.alloc_free h₃ hop halloc h0 hne, fun ps hnd hps => ?_⟩
  · refine hbs.blockList_eq hcs fun x m => ?_
    rw [hbs.used_iff, hcs.used_iff, hlive]
  · obtain ⟨σ₁, bs₁, htrace₁, hex₁, hused₁⟩ := hbs.frees h₃ hnd hps
    obtain ⟨σ₂, bs₂, htrace₂, hex₂, hused₂⟩ := hbs.frees h₃ (hperm.nodup_iff.mp hnd)
      fun q hq => hps q (hperm.mem_iff.mpr hq)
    refine ⟨σ₁, σ₂, htrace₁, htrace₂, hex₁.blockList_eq hex₂ fun x m => ?_⟩
    rw [hused₁, hused₂, hperm.mem_iff]
  · obtain ⟨σ', bs', htrace, hex, hused⟩ := hbs.frees h₃ hnd fun p hp => (hps p).mp hp
    refine ⟨σ', htrace, hex.one_free fun p hp => ?_⟩
    -- what is still held was held before and has not been given back
    obtain ⟨⟨q, s⟩, hq, rfl⟩ := List.mem_map.mp hp
    obtain ⟨-, x, m, hx, -, hu⟩ := hex.inv.held q s hq
    rw [hex.start] at hu
    obtain ⟨hu', hno⟩ := (hused x m).mp hu
    by_contra hne
    apply hno
    rw [hps]
    simp only at hne hx ⊢
    exact ⟨hbs.held x m hu', by omega⟩

/-- Three blocks; the second and the third are given back in either order. -/
theorem history_independent_three : ∃ σ : Session Heap,
    (manager.client Allowed).Reach (FreeList.start (fun _ => 0) 4096 512) σ ∧
      σ.live.map Prod.fst = [4208, 4168, 4120] ∧
      ∃ σ₁ σ₂, (manager.client Allowed).trace σ [.free 4208, .free 4168] = some σ₁ ∧
        (manager.client Allowed).trace σ [.free 4168, .free 4208] = some σ₂ ∧
        blockList σ₁.heap = blockList σ₂.heap := by
  obtain ⟨σ, hσ, hlive⟩ := (manager.client Allowed).exists_reach_of_trace
    (s := FreeList.start (fun _ => 0) 4096 512) [.alloc 20, .alloc 16, .alloc 40]
    (P := fun σ => σ.live.map Prod.fst = [4208, 4168, 4120]) (by decide +kernel)
  refine ⟨σ, hσ, hlive, ?_⟩
  apply (history_independent (by decide) (by decide) (by decide) (by decide) hσ hσ).2.1
    [4208, 4168] [4168, 4208] (.swap _ _ _) (by decide)
  rw [hlive]
  decide

end FreeList

end TP2Kernel
