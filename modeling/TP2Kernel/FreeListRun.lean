/-
TP2Kernel/FreeListRun.lean

Runs of the free-list manager.  A client allocates, releases what it holds,
and stores into the bytes it was given; `Session` pairs the heap with the
pointers handed out and not yet released.

`WellFormed h bs` is the shape of the heap: the list from `first_block` is
`bs`, it tiles the heap, and no two neighbours are free.  The list operations
keep it (`WellFormed.alloc`, `WellFormed.free`), and they change the set of
used blocks by exactly the block taken or released (`used_alloc`, `used_free`).
`heap_safe` puts this together over whole runs.

The manager finds a predecessor by a walk that ends at the last block when
there is none, so releasing the block at `heap_start` is left out here.
-/
import TP2Kernel.FreeList
import TP2Kernel.HeapClient
import Mathlib.Data.List.Chain
import Mathlib.Tactic.NormNum

namespace TP2Kernel

namespace FreeList

/-! ### Well-formed heaps -/

/-- The heap is a region of memory that does not wrap and is not at `NULL`. -/
structure Region (h : Heap) : Prop where
  start_ne : h.heapStart ≠ 0
  end_le : h.heapStart + h.heapSize ≤ 2 ^ 64
  size_lt : h.heapSize < 2 ^ 63

/-- No two neighbours are free. -/
def Coalesced (bs : List Blk) : Prop := bs.IsChain fun b c => ¬ (b.free ∧ c.free)

/-- The list from `first_block` is `bs`; it starts at `heap_start`, ends at the
heap's end, and no two neighbours are free. -/
structure WellFormed (h : Heap) (bs : List Blk) : Prop where
  first : h.firstBlock = h.heapStart
  chain : Chain h.mem h.heapStart bs 0
  nonempty : bs ≠ []
  covers : extent Blk.span bs = h.heapSize
  coalesced : Coalesced bs

/-- The block at `x` is in use and has `n` bytes. -/
def Used (a : Nat) (bs : List Blk) (x n : Nat) : Prop :=
  (x, (⟨n, false⟩ : Blk)) ∈ place Blk.span a bs

/-- A walk enters the list at its first block. -/
theorem WellFormed.link_eq {h : Heap} {bs : List Blk} (hw : WellFormed h bs) :
    link h.heapStart bs 0 = h.firstBlock := by
  rw [hw.first]
  cases bs with
  | nil => exact absurd rfl hw.nonempty
  | cons _ _ => rfl

/-- The bound on the walks is out of reach. -/
theorem WellFormed.length_lt {h : Heap} {bs : List Blk} (hw : WellFormed h bs) :
    bs.length < h.walkBound := by
  have := length_le_extent bs
  rw [hw.covers] at this
  unfold Heap.walkBound
  omega

theorem mmInit_wellFormed {mem : Cells} {heapStart heapSize : Nat}
    (h₁ : blockHeader ≤ heapSize) (h₂ : heapSize < 2 ^ 64) :
    WellFormed (mmInit mem heapStart heapSize) [⟨heapSize - blockHeader, true⟩] := by
  simp only [blockHeader] at h₁
  refine ⟨rfl, ⟨⟨?_, ?_, ?_⟩, trivial⟩, by simp, ?_, by simp [Coalesced]⟩
  · simp (disch := omega) [mmInit, Heap.setSize, Heap.setIsFree, Heap.setNext, Heap.store,
      blockHeader, sub64_of_le h₁ h₂]
  · simp [mmInit, Heap.setSize, Heap.setIsFree, Heap.setNext, Heap.store]
  · simp [mmInit, Heap.setSize, Heap.setIsFree, Heap.setNext, Heap.store]
  · simp only [extent_cons, extent_nil, Blk.span, blockHeader]
    show _ = heapSize
    omega

/-! ### First fit, inverted -/

/-- First fit finds nothing when every free block is too small. -/
theorem allocBlocks_eq_none {size : Nat} {bs : List Blk} (h : allocBlocks size bs = none) :
    ∀ b ∈ bs, b.free = true → b.size < size := by
  induction bs with
  | nil => intro b hb; simp at hb
  | cons c bs ih =>
      simp only [allocBlocks] at h
      split at h
      · simp at h
      next hc =>
        intro b hb hfree
        rcases List.mem_cons.mp hb with rfl | hb
        · exact Nat.not_le.mp fun hle => hc ⟨hfree, hle⟩
        · exact ih (by simpa using h) b hb hfree

/-- What first fit does: it takes the first free block that is large enough
and carves it. -/
theorem allocBlocks_eq_some {size o : Nat} {bs bs' : List Blk}
    (h : allocBlocks size bs = some (o, bs')) :
    ∃ pre b post, bs = pre ++ b :: post ∧ b.free = true ∧ size ≤ b.size ∧
      o = extent Blk.span pre ∧ bs' = pre ++ (carve size b ++ post) := by
  induction bs generalizing o bs' with
  | nil => simp [allocBlocks] at h
  | cons b bs ih =>
      by_cases hb : b.free ∧ size ≤ b.size
      · rw [allocBlocks, if_pos hb] at h
        obtain ⟨rfl, rfl⟩ := Prod.mk.injEq .. ▸ Option.some.inj h
        exact ⟨[], b, bs, rfl, hb.1, hb.2, rfl, rfl⟩
      · rw [allocBlocks_cons_of_not hb, Option.map_eq_some_iff] at h
        obtain ⟨⟨o', bs''⟩, hr, he⟩ := h
        obtain ⟨rfl, rfl⟩ := Prod.mk.injEq .. ▸ he
        obtain ⟨pre, c, post, rfl, hf, hs, rfl, rfl⟩ := ih hr
        exact ⟨b :: pre, c, post, rfl, hf, hs, by simp, rfl⟩

/-- The block first fit hands out has this many bytes. -/
def takenSize (size : Nat) (b : Blk) : Nat :=
  if size + blockHeader + minBlockSize ≤ b.size then size else b.size

theorem le_takenSize {size : Nat} {b : Blk} (h : size ≤ b.size) : size ≤ takenSize size b := by
  unfold takenSize
  split <;> omega

/-- Carving starts with the used block; a free remainder may follow. -/
theorem carve_eq_cons (size : Nat) (b : Blk) :
    ∃ rest, carve size b = ⟨takenSize size b, false⟩ :: rest ∧
      (rest = [] ∨ ∃ m, rest = [⟨m, true⟩]) := by
  unfold carve takenSize
  split
  · exact ⟨_, rfl, .inr ⟨_, rfl⟩⟩
  · exact ⟨_, rfl, .inl rfl⟩

/-! ### The used blocks -/

theorem used_append (a x n : Nat) (xs ys : List Blk) :
    Used a (xs ++ ys) x n ↔ Used a xs x n ∨ Used (a + extent Blk.span xs) ys x n := by
  rw [Used, place_append, List.mem_append]
  rfl

theorem used_cons {a x n : Nat} {b : Blk} {bs : List Blk} :
    Used a (b :: bs) x n ↔ (x = a ∧ b = ⟨n, false⟩) ∨ Used (a + b.span) bs x n := by
  rw [Used, place_cons, List.mem_cons, Prod.mk.injEq, eq_comm (a := b)]
  rfl

theorem used_nil {a x n : Nat} : ¬ Used a [] x n := by
  simp [Used]

theorem used_cons_free {a x n : Nat} {b : Blk} {bs : List Blk} (hb : b.free = true) :
    Used a (b :: bs) x n ↔ Used (a + b.span) bs x n := by
  rw [used_cons]
  constructor
  · rintro (⟨-, rfl⟩ | h)
    · cases hb
    · exact h
  · exact .inr

/-- Allocation adds the block it returns to the used blocks and changes no
other. -/
theorem used_alloc {a size x n : Nat} {pre post : List Blk} {b : Blk} (hb : b.free = true) :
    Used a (pre ++ (carve size b ++ post)) x n ↔
      Used a (pre ++ b :: post) x n ∨
        (x = a + extent Blk.span pre ∧ n = takenSize size b) := by
  obtain ⟨rest, hcarve, hrest⟩ := carve_eq_cons size b
  have hext : a + extent Blk.span pre + (⟨takenSize size b, false⟩ : Blk).span
      + extent Blk.span rest = a + extent Blk.span pre + b.span := by
    rw [← extent_carve size b, hcarve, extent_cons]
    omega
  have hr : ∀ y, Used y (rest ++ post) x n ↔ Used (y + extent Blk.span rest) post x n := by
    intro y
    rcases hrest with rfl | ⟨m, rfl⟩
    · simp
    · rw [List.singleton_append, used_cons_free rfl, extent_cons, extent_nil, Nat.add_zero]
  have hnew : Used (a + extent Blk.span pre) (carve size b ++ post) x n ↔
      (x = a + extent Blk.span pre ∧ n = takenSize size b) ∨
        Used (a + extent Blk.span pre + b.span) post x n := by
    rw [hcarve, List.cons_append, used_cons, hr, hext]
    simp only [Blk.mk.injEq, and_true, eq_comm (a := n)]
  rw [used_append a x n pre (carve size b ++ post), used_append a x n pre (b :: post),
    used_cons_free hb, hnew]
  constructor
  · rintro (h | ⟨rfl, rfl⟩ | h)
    · exact .inl (.inl h)
    · exact .inr ⟨rfl, rfl⟩
    · exact .inl (.inr h)
  · rintro ((h | h) | ⟨rfl, rfl⟩)
    · exact .inl h
    · exact .inr (.inr h)
    · exact .inr (.inl ⟨rfl, rfl⟩)

theorem used_mergeNext {a x n : Nat} {b : Blk} {bs : List Blk} (hb : b.free = true) :
    Used a (mergeNext b bs) x n ↔ Used (a + b.span) bs x n := by
  rcases bs with - | ⟨c, bs⟩
  · rw [mergeNext, used_cons_free hb]
  · simp only [mergeNext]
    split
    · rename_i hc
      rw [used_cons_free rfl, used_cons_free hc]
      simp only [Blk.span, Nat.add_assoc]
    · rw [used_cons_free hb]

/-- Releasing a block removes it from the used blocks and changes no other. -/
theorem used_free {a x n : Nat} {pre post : List Blk} {b : Blk} :
    Used a (freeBlocks b post pre) x n ↔
      Used a (pre ++ b :: post) x n ∧ x ≠ a + extent Blk.span pre := by
  have hpost : Used (a + extent Blk.span pre) (mergeNext ⟨b.size, true⟩ post) x n ↔
      Used (a + extent Blk.span pre + b.span) post x n := used_mergeNext rfl
  -- the used blocks of the result are those in front and those behind
  have hsplit : Used a (freeBlocks b post pre) x n ↔
      Used a pre x n ∨
        Used (a + extent Blk.span pre) (mergeNext ⟨b.size, true⟩ post) x n := by
    rcases List.eq_nil_or_concat pre with rfl | ⟨pre, p, rfl⟩
    · rw [freeBlocks, extent_nil, Nat.add_zero]
      simp only [used_nil, false_or]
    · rw [List.concat_eq_append, freeBlocks_concat, used_append]
      split
      · rename_i hp
        rw [used_mergeNext hp, used_append, used_cons_free hp, extent_append, extent_cons,
          extent_nil, Nat.add_zero, ← Nat.add_assoc]
        simp only [used_nil, or_false]
      · rw [used_append, used_cons, used_cons, extent_append, extent_cons, extent_nil,
          Nat.add_zero, ← Nat.add_assoc]
        simp only [used_nil, or_false]
        exact or_assoc.symm
  rw [hsplit, hpost, used_append a x n pre (b :: post), used_cons]
  constructor
  · rintro (h | h)
    · have := (place_bounds h).2
      exact ⟨.inl h, by have := (⟨n, false⟩ : Blk).span_pos; omega⟩
    · have := (place_bounds h).1
      exact ⟨.inr (.inr h), by have := b.span_pos; omega⟩
  · rintro ⟨h | ⟨rfl, -⟩ | h, hne⟩
    · exact .inl h
    · exact absurd rfl hne
    · exact .inr h

/-! ### Block addresses -/

/-- Allocation adds at most one block address, the one behind the bytes
taken. -/
theorem starts_alloc {a size x : Nat} {pre post : List Blk} {b c : Blk}
    (h : (x, c) ∈ place Blk.span a (pre ++ (carve size b ++ post))) :
    (∃ d, (x, d) ∈ place Blk.span a (pre ++ b :: post)) ∨
      x = a + extent Blk.span pre + (blockHeader + size) := by
  rw [place_append, List.mem_append] at h
  rcases h with h | h
  · exact .inl ⟨c, by rw [place_append, List.mem_append]; exact .inl h⟩
  · rw [place_append, extent_carve, List.mem_append] at h
    rcases h with h | h
    · unfold carve at h
      split at h
      · simp only [place_cons, place_nil, List.mem_cons, Prod.mk.injEq, List.not_mem_nil,
          or_false] at h
        rcases h with ⟨rfl, -⟩ | ⟨rfl, -⟩
        · exact .inl ⟨b, by rw [place_append]; simp⟩
        · exact .inr rfl
      · simp only [place_cons, place_nil, List.mem_singleton, Prod.mk.injEq] at h
        exact .inl ⟨b, by rw [place_append, h.1]; simp⟩
    · exact .inl ⟨c, by rw [place_append, List.mem_append, place_cons]; exact .inr (.tail _ h)⟩

theorem starts_mergeNext {a x : Nat} {b c : Blk} {bs : List Blk}
    (h : (x, c) ∈ place Blk.span a (mergeNext b bs)) :
    ∃ d, (x, d) ∈ place Blk.span a (b :: bs) := by
  rcases bs with - | ⟨e, bs⟩
  · exact ⟨c, h⟩
  · simp only [mergeNext] at h
    split at h
    · simp only [place_cons, List.mem_cons, Prod.mk.injEq] at h ⊢
      rcases h with ⟨rfl, -⟩ | h
      · exact ⟨b, .inl ⟨rfl, rfl⟩⟩
      · refine ⟨c, .inr (.inr ?_)⟩
        simpa only [Blk.span, Nat.add_assoc] using h
    · exact ⟨c, h⟩

/-- Releasing a block adds no block address. -/
theorem starts_free {a x : Nat} {pre post : List Blk} {p b c : Blk}
    (h : (x, c) ∈ place Blk.span a (freeBlocks b post (pre ++ [p]))) :
    ∃ d, (x, d) ∈ place Blk.span a ((pre ++ [p]) ++ b :: post) := by
  rw [freeBlocks_concat, place_append, List.mem_append] at h
  rw [List.append_assoc, List.singleton_append]
  have hlast : ∀ y e, (x, e) ∈ place Blk.span y (p :: mergeNext ⟨b.size, true⟩ post) →
      ∃ d, (x, d) ∈ place Blk.span y (p :: b :: post) := by
    intro y e he
    rw [place_cons, List.mem_cons] at he
    rcases he with he | he
    · exact ⟨e, by rw [place_cons, List.mem_cons]; exact .inl he⟩
    · obtain ⟨d, hd⟩ := starts_mergeNext he
      simp only [place_cons, List.mem_cons, Prod.mk.injEq] at hd ⊢
      rcases hd with ⟨rfl, -⟩ | hd
      · exact ⟨b, .inr (.inl ⟨rfl, rfl⟩)⟩
      · exact ⟨d, .inr (.inr hd)⟩
  rcases h with h | h
  · exact ⟨c, by rw [place_append, List.mem_append]; exact .inl h⟩
  · have : ∃ d, (x, d) ∈ place Blk.span (a + extent Blk.span pre) (p :: b :: post) := by
      split at h
      · obtain ⟨e, he⟩ := starts_mergeNext h
        exact hlast _ e he
      · exact hlast _ c h
    obtain ⟨d, hd⟩ := this
    exact ⟨d, by rw [place_append, List.mem_append]; exact .inr hd⟩

/-! ### The operations keep the shape -/

theorem coalesced_cons {b : Blk} {bs : List Blk} :
    Coalesced (b :: bs) ↔ (∀ c ∈ bs.head?, ¬ (b.free ∧ c.free)) ∧ Coalesced bs :=
  List.isChain_cons

theorem coalesced_append {xs ys : List Blk} :
    Coalesced (xs ++ ys) ↔ Coalesced xs ∧ Coalesced ys ∧
      ∀ b ∈ xs.getLast?, ∀ c ∈ ys.head?, ¬ (b.free ∧ c.free) :=
  List.isChain_append

theorem coalesced_carve {size : Nat} {pre post : List Blk} {b : Blk} (hb : b.free = true)
    (h : Coalesced (pre ++ b :: post)) : Coalesced (pre ++ (carve size b ++ post)) := by
  rw [coalesced_append, coalesced_cons] at h
  obtain ⟨hpre, ⟨hnext, hpost⟩, -⟩ := h
  have hpost' : ∀ c ∈ post.head?, c.free = false := by
    intro c hc
    have := hnext c hc
    simpa [hb] using this
  obtain ⟨rest, hcarve, hrest⟩ := carve_eq_cons size b
  rw [hcarve, coalesced_append, List.cons_append, coalesced_cons]
  refine ⟨hpre, ⟨by simp, ?_⟩, by simp⟩
  rcases hrest with rfl | ⟨m, rfl⟩
  · exact hpost
  · rw [List.singleton_append, coalesced_cons]
    exact ⟨fun c hc => by simp [hpost' c hc], hpost⟩

theorem coalesced_mergeNext {n : Nat} {post : List Blk} (h : Coalesced post) :
    Coalesced (mergeNext ⟨n, true⟩ post) := by
  rcases post with - | ⟨c, post⟩
  · simp [mergeNext, Coalesced]
  · simp only [mergeNext]
    split
    · rename_i hc
      rw [coalesced_cons] at h ⊢
      exact ⟨fun d hd => by have := h.1 d hd; simpa [hc] using this, h.2⟩
    · rename_i hc
      rw [coalesced_cons]
      exact ⟨by simpa using hc, h⟩

theorem coalesced_freeBlocks {pre post : List Blk} {b : Blk}
    (h : Coalesced (pre ++ b :: post)) : Coalesced (freeBlocks b post pre) := by
  obtain ⟨hfront, hback, -⟩ := coalesced_append.mp h
  obtain ⟨-, hpost⟩ := coalesced_cons.mp hback
  have hmerged := coalesced_mergeNext (n := b.size) hpost
  rcases List.eq_nil_or_concat pre with rfl | ⟨pre, p, rfl⟩
  · exact hmerged
  rw [List.concat_eq_append] at hfront ⊢
  obtain ⟨hpre, -, hlast⟩ := coalesced_append.mp hfront
  rw [freeBlocks_concat, coalesced_append]
  obtain ⟨m, post', hm⟩ := mergeNext_eq_cons b.size post
  rw [hm] at hmerged ⊢
  have hlast' : ∀ c ∈ pre.getLast?, ¬ (c.free ∧ p.free) := by
    intro c hc
    exact hlast c hc p (by simp)
  cases hp : p.free with
  | true =>
      rw [hp] at hlast'
      refine ⟨hpre, ?_, ?_⟩
      · simp only [if_true, mergeNext]
        rw [coalesced_cons] at hmerged ⊢
        exact hmerged
      · simpa [mergeNext] using hlast'
  | false =>
      refine ⟨hpre, ?_, ?_⟩
      · simp only [Bool.false_eq_true, if_false]
        rw [coalesced_cons]
        exact ⟨by simp [hp], hmerged⟩
      · simp [hp]

theorem align8_eq {size : Nat} (h : size ≤ 2 ^ 64 - 8) :
    align8 size = (size + 7) / 8 * 8 := by
  unfold align8
  rw [w64_of_lt (by omega), land_mask_eq (by omega)]
  norm_num

theorem WellFormed.size_lt {h : Heap} {bs : List Blk} {b : Blk} (hw : WellFormed h bs)
    (hr : Region h) (hb : b ∈ bs) : b.size < 2 ^ 63 := by
  have hsum := hw.covers
  obtain ⟨pre, post, rfl⟩ := List.append_of_mem hb
  have := hr.size_lt
  simp only [extent_append, extent_cons, Blk.span] at hsum
  omega

/-- `mm_alloc` on a well-formed heap: either no free block is large enough and
nothing changes, or first fit is applied to the list and the payload of the
block taken is returned. -/
theorem WellFormed.alloc {h : Heap} {bs : List Blk} {size : Nat} (hw : WellFormed h bs)
    (hr : Region h) (hpos : 0 < size) (hsize : size ≤ 2 ^ 64 - 8) :
    (mmAlloc h size = some (0, h) ∧ ∀ b ∈ bs, b.free = true → b.size < align8 size) ∨
      ∃ pre b post mem', bs = pre ++ b :: post ∧ b.free = true ∧ align8 size ≤ b.size ∧
        mmAlloc h size = some (h.heapStart + extent Blk.span pre + blockHeader,
          { h with mem := mem' }) ∧
        WellFormed { h with mem := mem' } (pre ++ (carve (align8 size) b ++ post)) ∧
        KeepsUsed h.heapStart bs h.mem mem' := by
  have hsum := hw.covers
  have hbig : ∀ b ∈ bs, b.size < 2 ^ 63 := fun b => hw.size_lt hr
  have halign : 0 < align8 size := by rw [align8_eq hsize]; omega
  have hcode : mmAlloc h size = allocWalk (align8 size) h h.walkBound h.firstBlock := by
    rw [mmAlloc, if_neg (by omega)]
  rcases allocWalk_chain hw.chain hr.start_ne (by rw [hsum]; exact hr.end_le) hbig halign
      hw.length_lt with ⟨hnone, hwalk⟩ | ⟨o, bs', mem', hs, hwalk, hch, -, hkeep⟩
  · exact .inl ⟨by rw [hcode, ← hw.link_eq, hwalk], allocBlocks_eq_none hnone⟩
  · obtain ⟨pre, b, post, rfl, hf, hfit, rfl, rfl⟩ := allocBlocks_eq_some hs
    rw [hw.link_eq] at hwalk
    refine .inr ⟨pre, b, post, mem', rfl, hf, hfit, hcode.trans hwalk, ?_, hkeep⟩
    exact {
      first := hw.first
      chain := hch
      nonempty := (allocBlocks_ne_nil hs).2
      covers := by
        rw [← hsum]
        simp only [extent_append, extent_cons, extent_carve]
      coalesced := coalesced_carve hf hw.coalesced }

theorem extent_freeBlocks (b : Blk) (post pre : List Blk) :
    extent Blk.span (freeBlocks b post pre) = extent Blk.span (pre ++ b :: post) := by
  have hb : (⟨b.size, true⟩ : Blk).span = b.span := rfl
  rcases List.eq_nil_or_concat pre with rfl | ⟨pre, p, rfl⟩
  · rw [freeBlocks, extent_mergeNext, hb, List.nil_append, extent_cons]
  · rw [List.concat_eq_append, freeBlocks_concat]
    split <;> simp only [extent_append, extent_cons, extent_nil, extent_mergeNext, hb] <;> omega

theorem freeBlocks_ne_nil (b : Blk) (post pre : List Blk) : freeBlocks b post pre ≠ [] := by
  intro h
  have := extent_freeBlocks b post pre
  have hspan := b.span_pos
  rw [h, extent_append, extent_cons, extent_nil] at this
  omega

/-- The list a release leaves is well formed again. -/
theorem WellFormed.released {h : Heap} {b : Blk} {pre post : List Blk} {mem' : Cells}
    (hw : WellFormed h (pre ++ b :: post))
    (hch : Chain mem' h.heapStart (freeBlocks b post pre) 0) :
    WellFormed { h with mem := mem' } (freeBlocks b post pre) where
  first := hw.first
  chain := hch
  nonempty := freeBlocks_ne_nil b post pre
  covers := (extent_freeBlocks b post pre).trans hw.covers
  coalesced := coalesced_freeBlocks hw.coalesced

/-- `mm_free` of a used block that is not the first one. -/
theorem WellFormed.free {h : Heap} {p b : Blk} {pre post : List Blk}
    (hw : WellFormed h ((pre ++ [p]) ++ b :: post))
    (hend : h.heapStart + h.heapSize < 2 ^ 64) (hused : b.free = false) (hpos : 0 < b.size) :
    ∃ mem', mmFree h (h.heapStart + extent Blk.span (pre ++ [p]) + blockHeader)
        = some { h with mem := mem' } ∧
      WellFormed { h with mem := mem' } (freeBlocks b post (pre ++ [p])) := by
  have hin : extent Blk.span (pre ++ [p]) + blockHeader < h.heapSize := by
    have := hw.covers
    simp only [extent_append, extent_cons, Blk.span] at this ⊢
    omega
  obtain ⟨mem', hfree, hch, -⟩ := mmFree_chain hw.first hw.chain hw.covers hend hused hin
  exact ⟨mem', hfree, hw.released hch⟩

/-- Writes into the payload of a block leave the list as it is. -/
theorem WellFormed.rewrite {h : Heap} {bs : List Blk} {x : Nat} {b : Blk} {mem' : Cells}
    (hw : WellFormed h bs) (hb : (x, b) ∈ place Blk.span h.heapStart bs)
    (hag : AgreeOutside (x + blockHeader) (x + b.span) h.mem mem') :
    WellFormed { h with mem := mem' } bs := by
  refine ⟨hw.first, ?_, hw.nonempty, hw.covers, hw.coalesced⟩
  obtain ⟨pre, post, rfl, rfl⟩ := mem_place_iff.mp hb
  simp only [blockHeader] at hag
  refine hw.chain.replace (y := b) (z := 0) ⟨⟨?_, ?_, ?_⟩, ?_⟩ fun y hy => hag y (by omega)
  all_goals have hc := (chain_append.mp hw.chain).2
  · exact (hag _ (.inl (by omega))).trans hc.1.size
  · exact (hag _ (.inl (by omega))).trans hc.1.isFree
  · exact (hag _ (.inl (by omega))).trans hc.1.next
  · exact hc.2.congr fun y hy _ => hag y (by omega)

/-- A store into the payload of a block leaves the list as it is. -/
theorem WellFormed.store {h : Heap} {bs : List Blk} {x c v : Nat} {b : Blk}
    (hw : WellFormed h bs) (hb : (x, b) ∈ place Blk.span h.heapStart bs)
    (hlo : x + blockHeader ≤ c) (hhi : c < x + b.span) : WellFormed (h.store c v) bs :=
  hw.rewrite hb (AgreeOutside.update h.mem v hlo hhi)

/-- `mm_info` adds up the payloads: with the headers they are the whole
heap. -/
theorem infoWalk_chain {h : Heap} {a fuel used free : Nat} {bs : List Blk}
    (hc : Chain h.mem a bs 0) (ha : a ≠ 0)
    (hend : used + free + extent Blk.span bs < 2 ^ 64) (hf : bs.length < fuel) :
    ∃ u f, infoWalk h fuel (link a bs 0) used free = some (u, f) ∧
      u + f + blockHeader * bs.length = used + free + extent Blk.span bs := by
  induction bs generalizing a fuel used free with
  | nil =>
      obtain ⟨fuel, rfl⟩ := Nat.exists_eq_add_one_of_ne_zero (Nat.ne_zero_of_lt hf)
      exact ⟨used, free, by simp [infoWalk], by simp⟩
  | cons b bs ih =>
      obtain ⟨fuel, rfl⟩ := Nat.exists_eq_add_one_of_ne_zero (Nat.ne_zero_of_lt hf)
      have hspan : b.span = blockHeader + b.size := rfl
      have hsz : h.size a = b.size := hc.1.size
      have hfr : h.isFree a = b.free.toNat := hc.1.isFree
      have hnx : h.next a = link (a + b.span) bs 0 := hc.1.next
      simp only [extent_cons, List.length_cons, blockHeader] at *
      rw [link_cons, infoWalk, if_neg ha, hsz, hfr, hnx]
      cases b.free with
      | true =>
          have hw : w64 (free + b.size) = free + b.size := w64_of_lt (by omega)
          obtain ⟨u, f, hi, hsum⟩ := @ih (a + b.span) fuel used (free + b.size) hc.2
            (by omega) (by omega) (by omega)
          exact ⟨u, f, by simpa [hw] using hi, by omega⟩
      | false =>
          have hw : w64 (used + b.size) = used + b.size := w64_of_lt (by omega)
          obtain ⟨u, f, hi, hsum⟩ := @ih (a + b.span) fuel (used + b.size) free hc.2
            (by omega) (by omega) (by omega)
          exact ⟨u, f, by simpa [hw] using hi, by omega⟩

theorem WellFormed.info {h : Heap} {bs : List Blk} (hw : WellFormed h bs) (hr : Region h) :
    ∃ used free, mmInfo h = some (h.heapSize, used, free) ∧
      used + free + blockHeader * bs.length = h.heapSize := by
  obtain ⟨u, f, hi, hsum⟩ := @infoWalk_chain h h.heapStart h.walkBound 0 0 bs hw.chain hr.start_ne
    (by have := hr.size_lt; rw [hw.covers]; omega) hw.length_lt
  refine ⟨u, f, ?_, by rw [hw.covers] at hsum; omega⟩
  rw [mmInfo, ← hw.link_eq, hi]
  rfl

/-! ### Client runs -/

/-- The free-list manager. -/
def manager : Manager Heap where
  alloc := mmAlloc
  free := mmFree
  store := Heap.store

/-- The calls of the contract.  A pointer passed to `mm_free` is `NULL`,
outside the heap, or held, and is not the block at `heap_start`. -/
def Allowed (σ : Session Heap) : HeapOp → Prop
  | .alloc size => 0 < size ∧ size ≤ 2 ^ 64 - 8
  | .free ptr =>
      ptr = 0 ∨ ptr < σ.heap.heapStart ∨ σ.heap.heapStart + σ.heap.heapSize ≤ ptr ∨
        (ptr ∈ σ.live.map Prod.fst ∧ ptr ≠ σ.heap.heapStart + blockHeader)
  | .store addr _ => InPayload σ addr

instance (σ : Session Heap) : (op : HeapOp) → Decidable (Allowed σ op)
  | .alloc _ => inferInstanceAs (Decidable (_ ∧ _))
  | .free _ => inferInstanceAs (Decidable (_ ∨ _ ∨ _ ∨ _ ∧ _))
  | .store _ _ => inferInstanceAs (Decidable (InPayload _ _))

/-- After `mm_init`. -/
def start (mem : Cells) (heapStart heapSize : Nat) : Session Heap :=
  ⟨mmInit mem heapStart heapSize, []⟩

/-- What holds between two calls. -/
structure Inv (σ : Session Heap) (bs : List Blk) : Prop where
  region : Region σ.heap
  wellFormed : WellFormed σ.heap bs
  aligned : ∀ x b, (x, b) ∈ place Blk.span σ.heap.heapStart bs → 8 ∣ x - σ.heap.heapStart
  held : ∀ p s, (p, s) ∈ σ.live →
    0 < s ∧ ∃ x n, p = x + blockHeader ∧ s ≤ n ∧ Used σ.heap.heapStart bs x n
  nodup : (σ.live.map Prod.fst).Nodup

theorem Inv.start {mem : Cells} {heapStart heapSize : Nat} (h₀ : heapStart ≠ 0)
    (h₁ : blockHeader ≤ heapSize) (h₂ : heapSize < 2 ^ 63)
    (h₃ : heapStart + heapSize ≤ 2 ^ 64) :
    Inv (start mem heapStart heapSize) [⟨heapSize - blockHeader, true⟩] where
  region := ⟨h₀, h₃, h₂⟩
  wellFormed := mmInit_wellFormed h₁ (by omega)
  aligned := by
    intro x b hx
    simp only [place_cons, place_nil, List.mem_singleton, Prod.mk.injEq] at hx
    rw [hx.1, Nat.sub_self]
    exact Nat.dvd_zero 8
  held := fun _ _ hp => absurd hp List.not_mem_nil
  nodup := List.nodup_nil

/-- The list part of a step in which first fit succeeds. -/
theorem Inv.alloc_taken {σ : Session Heap} {pre post : List Blk} {b : Blk} {size : Nat}
    {mem' : Cells} (hi : Inv σ (pre ++ b :: post)) (hfree : b.free = true)
    (hpos : 0 < size) (hsize : size ≤ 2 ^ 64 - 8) (hfit : align8 size ≤ b.size)
    (hw : WellFormed { σ.heap with mem := mem' } (pre ++ (carve (align8 size) b ++ post))) :
    Inv ⟨{ σ.heap with mem := mem' },
        (σ.heap.heapStart + extent Blk.span pre + blockHeader, size) :: σ.live⟩
      (pre ++ (carve (align8 size) b ++ post)) where
  region := ⟨hi.region.start_ne, hi.region.end_le, hi.region.size_lt⟩
  wellFormed := hw
  aligned := by
    intro x c hx
    rcases starts_alloc hx with ⟨d, hd⟩ | hx
    · exact hi.aligned x d hd
    · have hb : (σ.heap.heapStart + extent Blk.span pre, b) ∈
          place Blk.span σ.heap.heapStart (pre ++ b :: post) :=
        mem_place_iff.mpr ⟨pre, post, rfl, rfl⟩
      have hd := hi.aligned _ _ hb
      have h8 : 8 ∣ align8 size := by rw [align8_eq hsize]; exact Nat.dvd_mul_left 8 _
      simp only [hx, blockHeader]
      omega
  held := by
    intro p s hp
    rcases List.mem_cons.mp hp with hp | hp
    · obtain ⟨rfl, rfl⟩ := Prod.mk.injEq .. ▸ hp
      have hle : s ≤ align8 s := by rw [align8_eq hsize]; omega
      exact ⟨hpos, _, takenSize (align8 s) b, rfl, hle.trans (le_takenSize hfit),
        (used_alloc hfree).mpr (.inr ⟨rfl, rfl⟩)⟩
    · obtain ⟨h0, x, n, hx, hn, hu⟩ := hi.held p s hp
      exact ⟨h0, x, n, hx, hn, (used_alloc hfree).mpr (.inl hu)⟩
  nodup := by
    rw [List.map_cons, List.nodup_cons]
    refine ⟨?_, hi.nodup⟩
    -- the block taken was free, so no held pointer is its payload
    intro hmem
    obtain ⟨⟨p, s⟩, hp, he⟩ := List.mem_map.mp hmem
    obtain ⟨-, x, n, hx, -, hu⟩ := hi.held p s hp
    have hxx : x = σ.heap.heapStart + extent Blk.span pre := by
      simp only at he
      omega
    have hb := place_unique Blk.span_pos hu
      (hxx ▸ mem_place_iff.mpr ⟨pre, post, rfl, rfl⟩ : (x, b) ∈ _)
    rw [← hb] at hfree
    cases hfree

/-- The list part of a step that releases a held block. -/
theorem Inv.free_held {σ : Session Heap} {pre post : List Blk} {p b : Blk} {mem' : Cells}
    (hi : Inv σ ((pre ++ [p]) ++ b :: post))
    (hw : WellFormed { σ.heap with mem := mem' } (freeBlocks b post (pre ++ [p]))) :
    Inv ⟨{ σ.heap with mem := mem' }, σ.live.filter fun q =>
        q.1 ≠ σ.heap.heapStart + extent Blk.span (pre ++ [p]) + blockHeader⟩
      (freeBlocks b post (pre ++ [p])) where
  region := ⟨hi.region.start_ne, hi.region.end_le, hi.region.size_lt⟩
  wellFormed := hw
  aligned := by
    intro x c hx
    obtain ⟨d, hd⟩ := starts_free hx
    exact hi.aligned x d hd
  held := by
    intro q s hq
    obtain ⟨hq, hne⟩ := List.mem_filter.mp hq
    obtain ⟨h0, x, n, hx, hn, hu⟩ := hi.held q s hq
    refine ⟨h0, x, n, hx, hn, used_free.mpr ⟨hu, ?_⟩⟩
    rintro rfl
    exact (of_decide_eq_true hne) hx
  nodup := (List.filter_sublist.map _).nodup hi.nodup

theorem Inv.forget {σ : Session Heap} {bs : List Blk} (hi : Inv σ bs)
    (f : Nat × Nat → Bool) : Inv ⟨σ.heap, σ.live.filter f⟩ bs where
  region := hi.region
  wellFormed := hi.wellFormed
  aligned := hi.aligned
  held := fun p s hp => hi.held p s (List.mem_filter.mp hp).1
  nodup := (List.filter_sublist.map _).nodup hi.nodup

/-- A block that is not at `heap_start` has a predecessor. -/
theorem used_has_pred {a x n : Nat} {bs : List Blk} (hu : Used a bs x n) (hx : x ≠ a) :
    ∃ pre p post, bs = (pre ++ [p]) ++ ⟨n, false⟩ :: post ∧
      x = a + extent Blk.span (pre ++ [p]) := by
  obtain ⟨pre, post, rfl, rfl⟩ := mem_place_iff.mp hu
  rcases List.eq_nil_or_concat pre with rfl | ⟨pre, p, rfl⟩
  · simp at hx
  · exact ⟨pre, p, post, by simp, by simp⟩

/-- What an allowed call does to the heap, the pointers held and the block list.
A pointer that is held is rejected only if the heap ends where the address space
does. -/
inductive Effect (σ : Session Heap) (bs : List Blk) : HeapOp → Session Heap → List Blk → Prop
  | refused (size : Nat) : Effect σ bs (.alloc size) σ bs
  | takes {size : Nat} {pre post : List Blk} {b : Blk} {mem' : Cells} (hbs : bs = pre ++ b :: post)
      (hfree : b.free = true) (hfit : align8 size ≤ b.size) :
      Effect σ bs (.alloc size)
        ⟨{ σ.heap with mem := mem' },
          (σ.heap.heapStart + extent Blk.span pre + blockHeader, size) :: σ.live⟩
        (pre ++ (carve (align8 size) b ++ post))
  | ignores {ptr : Nat}
      (hout : ptr ∈ σ.live.map Prod.fst → σ.heap.heapStart + σ.heap.heapSize = 2 ^ 64) :
      Effect σ bs (.free ptr) ⟨σ.heap, σ.live.filter fun q => q.1 ≠ ptr⟩ bs
  | releases {pre post : List Blk} {p b : Blk} {mem' : Cells}
      (hbs : bs = (pre ++ [p]) ++ b :: post) (hused : b.free = false) :
      Effect σ bs (.free (σ.heap.heapStart + extent Blk.span (pre ++ [p]) + blockHeader))
        ⟨{ σ.heap with mem := mem' }, σ.live.filter fun q =>
          q.1 ≠ σ.heap.heapStart + extent Blk.span (pre ++ [p]) + blockHeader⟩
        (freeBlocks b post (pre ++ [p]))
  | stores (addr value : Nat) :
      Effect σ bs (.store addr value) ⟨σ.heap.store addr value, σ.live⟩ bs

/-- A held pointer lies inside the heap. -/
theorem Inv.held_bounds {σ : Session Heap} {bs : List Blk} (hi : Inv σ bs) {ptr : Nat}
    (hptr : ptr ∈ σ.live.map Prod.fst) :
    σ.heap.heapStart < ptr ∧ ptr < σ.heap.heapStart + σ.heap.heapSize := by
  obtain ⟨⟨p, s⟩, hp, rfl⟩ := List.mem_map.mp hptr
  obtain ⟨h0, x, n, hx, hn, hu⟩ := hi.held p s hp
  obtain ⟨hlo, hhi⟩ := place_bounds hu
  rw [hi.wellFormed.covers] at hhi
  simp only [Blk.span, blockHeader] at hx hhi ⊢
  omega

/-- `mm_free` of an allowed pointer. -/
theorem Inv.free_effect {σ : Session Heap} {bs : List Blk} (hi : Inv σ bs) {ptr : Nat}
    (hop : Allowed σ (.free ptr)) :
    ∃ σ' bs', manager.exec σ (.free ptr) = some σ' ∧ Effect σ bs (.free ptr) σ' bs' ∧
      WellFormed σ'.heap bs' := by
  by_cases hwrap : w64 (σ.heap.heapStart + σ.heap.heapSize) ≤ ptr ∨
      ptr < σ.heap.heapStart ∨ ptr = 0
  · -- rejected by the range check
    have hcode : mmFree σ.heap ptr = some σ.heap := by
      unfold mmFree
      split
      · rfl
      · rw [if_pos (by omega)]
    refine ⟨_, bs, Manager.exec_free hcode, .ignores fun hlive => ?_, hi.wellFormed⟩
    obtain ⟨hlo, hhi⟩ := hi.held_bounds hlive
    by_contra hne
    rw [w64_of_lt (by have := hi.region.end_le; omega)] at hwrap
    omega
  · have hend : σ.heap.heapStart + σ.heap.heapSize < 2 ^ 64 := by
      have := hi.region.end_le
      by_contra hcon
      have he : σ.heap.heapStart + σ.heap.heapSize = 2 ^ 64 := by omega
      rw [he] at hwrap
      simp [w64] at hwrap
    rw [w64_of_lt hend] at hwrap
    obtain ⟨hmem, hne⟩ : ptr ∈ σ.live.map Prod.fst ∧ ptr ≠ σ.heap.heapStart + blockHeader := by
      rcases hop with h | h | h | h
      · omega
      · omega
      · omega
      · exact h
    obtain ⟨⟨p, s⟩, hp, rfl⟩ := List.mem_map.mp hmem
    obtain ⟨h0, x, n, hx, hn, hu⟩ := hi.held p s hp
    simp only at hx hne hwrap
    subst hx
    obtain ⟨pre, q, post, rfl, rfl⟩ := used_has_pred hu (by omega)
    obtain ⟨mem', hfree, hw⟩ := hi.wellFormed.free hend rfl (by show 0 < n; omega)
    exact ⟨_, _, Manager.exec_free hfree, .releases rfl rfl, hw⟩

/-- **Every allowed call comes to an end**, with one of the effects. -/
theorem Inv.effect {σ : Session Heap} {bs : List Blk} (hi : Inv σ bs) {op : HeapOp}
    (hop : Allowed σ op) :
    ∃ σ' bs', manager.exec σ op = some σ' ∧ Effect σ bs op σ' bs' ∧ WellFormed σ'.heap bs' := by
  cases op with
  | alloc size =>
      rcases hi.wellFormed.alloc hi.region hop.1 hop.2 with
        ⟨hn, -⟩ | ⟨pre, b, post, mem', rfl, hfree, hfit, hs, hw, -⟩
      · exact ⟨σ, bs, Manager.exec_alloc_null hn, .refused size, hi.wellFormed⟩
      · have h0 : σ.heap.heapStart + extent Blk.span pre + blockHeader ≠ 0 := by
          simp [blockHeader]
        exact ⟨_, _, Manager.exec_alloc hs h0, .takes rfl hfree hfit, hw⟩
  | store addr value =>
      obtain ⟨⟨ptr, size⟩, hlive, hlo, hhi⟩ := hop
      obtain ⟨-, x, n, rfl, hn, hu⟩ := hi.held ptr size hlive
      have hspan : (⟨n, false⟩ : Blk).span = blockHeader + n := rfl
      exact ⟨_, bs, rfl, .stores addr value, hi.wellFormed.store hu hlo (by omega)⟩
  | free ptr => exact hi.free_effect hop

/-- Every effect keeps the invariant. -/
theorem Inv.after {σ σ' : Session Heap} {bs bs' : List Blk} (hi : Inv σ bs) {op : HeapOp}
    (hop : Allowed σ op) (he : Effect σ bs op σ' bs') (hw : WellFormed σ'.heap bs') :
    Inv σ' bs' := by
  cases he with
  | refused => exact hi
  | takes hbs hfree hfit =>
      subst hbs
      exact hi.alloc_taken hfree hop.1 hop.2 hfit hw
  | ignores _ => exact hi.forget _
  | releases hbs _ =>
      subst hbs
      exact hi.free_held hw
  | stores addr value =>
      exact ⟨⟨hi.region.start_ne, hi.region.end_le, hi.region.size_lt⟩, hw, hi.aligned, hi.held,
        hi.nodup⟩

/-- **Every allowed operation comes to an end and keeps the invariant.** -/
theorem Inv.step {σ : Session Heap} {bs : List Blk} (hi : Inv σ bs) {op : HeapOp}
    (hop : Allowed σ op) : ∃ σ' bs', manager.exec σ op = some σ' ∧ Inv σ' bs' := by
  obtain ⟨σ', bs', hexec, he, hw⟩ := hi.effect hop
  exact ⟨σ', bs', hexec, hi.after hop he hw⟩

/-! ### Safety -/

/-- The payload of the held pointer `p`, asked for with `s` bytes: it is the
`n` bytes behind a header of the list, inside the heap, aligned, and apart
from every header and from every other held payload. -/
structure PayloadSafe (σ : Session Heap) (bs : List Blk) (p s n : Nat) : Prop where
  block : Used σ.heap.heapStart bs (p - blockHeader) n
  holds : s ≤ n
  lower : σ.heap.heapStart + blockHeader ≤ p
  upper : p + n ≤ σ.heap.heapStart + σ.heap.heapSize
  aligned : 8 ∣ p - σ.heap.heapStart
  headers : ∀ x b, (x, b) ∈ place Blk.span σ.heap.heapStart bs →
    p + n ≤ x ∨ x + blockHeader ≤ p
  others : ∀ q t m, (q, t) ∈ σ.live → q ≠ p →
    Used σ.heap.heapStart bs (q - blockHeader) m → p + n ≤ q ∨ q + m ≤ p

/-- A state of the manager in which nothing overlaps and every byte is
accounted for. -/
structure Safe (σ : Session Heap) (bs : List Blk) : Prop where
  wellFormed : WellFormed σ.heap bs
  payload : ∀ p s, (p, s) ∈ σ.live → ∃ n, PayloadSafe σ bs p s n
  distinct : (σ.live.map Prod.fst).Nodup
  info : ∃ used free, mmInfo σ.heap = some (σ.heap.heapSize, used, free) ∧
    used + free + blockHeader * bs.length = σ.heap.heapSize

theorem Inv.safe {σ : Session Heap} {bs : List Blk} (hi : Inv σ bs) : Safe σ bs where
  wellFormed := hi.wellFormed
  payload := by
    intro p s hp
    obtain ⟨-, x, n, rfl, hn, hu⟩ := hi.held p s hp
    have hspan : ∀ m, (⟨m, false⟩ : Blk).span = blockHeader + m := fun _ => rfl
    have hx : x + blockHeader - blockHeader = x := by omega
    obtain ⟨hlo, hhi⟩ := place_bounds hu
    rw [hi.wellFormed.covers, hspan] at hhi
    refine ⟨n, by rw [hx]; exact hu, hn, by omega, by omega, ?_, ?_, ?_⟩
    · have := hi.aligned x _ hu
      simp only [blockHeader] at *
      omega
    · intro y b hb
      have hbs : b.span = blockHeader + b.size := rfl
      rcases place_disjoint hu hb with h | h | h
      · exact .inr (by rw [(Prod.mk.inj h).1])
      · rw [hspan] at h; exact .inl (by omega)
      · exact .inr (by omega)
    · intro q t m hq hne hm
      obtain ⟨-, y, k, rfl, -, -⟩ := hi.held q t hq
      rw [show y + blockHeader - blockHeader = y by omega] at hm
      rcases place_disjoint hu hm with h | h | h
      · exact absurd (by rw [(Prod.mk.inj h).1]) hne
      · rw [hspan] at h; exact .inl (by omega)
      · rw [hspan] at h; exact .inr (by omega)
  distinct := hi.nodup
  info := hi.wellFormed.info hi.region

theorem reach_inv {mem : Cells} {heapStart heapSize : Nat} (h₀ : heapStart ≠ 0)
    (h₁ : blockHeader ≤ heapSize) (h₂ : heapSize < 2 ^ 63)
    (h₃ : heapStart + heapSize ≤ 2 ^ 64) {σ : Session Heap}
    (hr : (manager.client Allowed).Reach (start mem heapStart heapSize) σ) : ∃ bs, Inv σ bs := by
  refine Machine.Reach.invariant (I := fun σ => ∃ bs, Inv σ bs) hr
    ⟨_, Inv.start h₀ h₁ h₂ h₃⟩ ?_
  rintro s op s' ⟨bs, hi⟩ hop hs
  obtain ⟨σ', bs', he, hi'⟩ := hi.step hop
  obtain rfl := Option.some.inj (he.symm.trans hs)
  exact ⟨bs', hi'⟩

/-- **Safety of the free-list manager over whole runs.**  In every state
reached from `mm_init` the block list tiles the heap with no two free
neighbours, every held payload is safe, `mm_info` adds up, and every further
allowed call comes to an end. -/
theorem heap_safe {mem : Cells} {heapStart heapSize : Nat} (h₀ : heapStart ≠ 0)
    (h₁ : blockHeader ≤ heapSize) (h₂ : heapSize < 2 ^ 63)
    (h₃ : heapStart + heapSize ≤ 2 ^ 64) {σ : Session Heap}
    (hr : (manager.client Allowed).Reach (start mem heapStart heapSize) σ) :
    (∃ bs, Safe σ bs) ∧ ∀ op, Allowed σ op → (manager.exec σ op).isSome := by
  obtain ⟨bs, hi⟩ := reach_inv h₀ h₁ h₂ h₃ hr
  refine ⟨⟨bs, hi.safe⟩, fun op hop => ?_⟩
  obtain ⟨σ', -, he, -⟩ := hi.step hop
  rw [he]
  rfl

/-- Three blocks taken from a 256-byte heap, the middle one given back after a
store into the first. -/
theorem heap_safe_small : ∃ σ, (manager.client Allowed).Reach (start (fun _ => 0) 4096 256) σ ∧
    σ.live = [(4096 + 24 + 16 + 24 + 8 + 24, 40), (4096 + 24, 9)] ∧ ∃ bs, Safe σ bs := by
  obtain ⟨σ, hr, hlive⟩ := Machine.exists_reach_of_trace (T := manager.client Allowed)
    (s := start (fun _ => 0) 4096 256)
    (P := fun σ => σ.live = [(4096 + 24 + 16 + 24 + 8 + 24, 40), (4096 + 24, 9)])
    [.alloc 9, .alloc 8, .alloc 40, .store (4096 + 24) 7, .free (4096 + 24 + 16 + 24)]
    (by decide +kernel)
  exact ⟨σ, hr, hlive, (heap_safe (by decide) (by decide) (by decide) (by decide) hr).1⟩

end FreeList

end TP2Kernel
