/-
TP2Kernel/FreeListCalls.lean

One call on any well-formed heap, whatever run has led to it.

`mm_alloc` honours every size that can be rounded up to a multiple of eight in
64 bits.  A larger one is rounded to zero, and the first free block, if there is
any, is then handed out for it.

`mm_free` releases every used block but one: the first block of a list of
three blocks or more whose last one is free.  No `next` points to the first
block, so the search for its predecessor ends at the last one; if that one is
free it is taken for the predecessor, and its `next` is turned back into the
list (`mmFree_first_loops`).
-/
import TP2Kernel.FreeListRun

namespace TP2Kernel

namespace FreeList

/-! ### The walks end -/

theorem allocWalk_isSome {h : Heap} {a size fuel : Nat} {bs : List Blk}
    (hc : Chain h.mem a bs 0) (hf : bs.length < fuel) :
    (allocWalk size h fuel (link a bs 0)).isSome := by
  induction bs generalizing a fuel with
  | nil =>
      obtain ⟨fuel, rfl⟩ := Nat.exists_eq_add_one_of_ne_zero (Nat.ne_zero_of_lt hf)
      simp [allocWalk]
  | cons b bs ih =>
      obtain ⟨fuel, rfl⟩ := Nat.exists_eq_add_one_of_ne_zero (Nat.ne_zero_of_lt hf)
      have hn : h.next a = link (a + b.span) bs 0 := hc.1.next
      rw [link_cons, allocWalk, hn]
      split
      · rfl
      · split
        · rfl
        · exact ih hc.2 (by simpa using hf)

theorem infoWalk_isSome {h : Heap} {a used free fuel : Nat} {bs : List Blk}
    (hc : Chain h.mem a bs 0) (hf : bs.length < fuel) :
    (infoWalk h fuel (link a bs 0) used free).isSome := by
  induction bs generalizing a used free fuel with
  | nil =>
      obtain ⟨fuel, rfl⟩ := Nat.exists_eq_add_one_of_ne_zero (Nat.ne_zero_of_lt hf)
      simp [infoWalk]
  | cons b bs ih =>
      obtain ⟨fuel, rfl⟩ := Nat.exists_eq_add_one_of_ne_zero (Nat.ne_zero_of_lt hf)
      have hn : h.next a = link (a + b.span) bs 0 := hc.1.next
      rw [link_cons, infoWalk, hn]
      split
      · rfl
      · split
        · exact ih hc.2 (by simpa using hf)
        · exact ih hc.2 (by simpa using hf)

theorem prevWalk_isSome {h : Heap} {a block fuel : Nat} {b : Blk} {bs : List Blk}
    (hc : Chain h.mem a (b :: bs) 0) (hf : bs.length < fuel) :
    (prevWalk h block fuel a).isSome := by
  induction bs generalizing a b fuel with
  | nil =>
      obtain ⟨fuel, rfl⟩ := Nat.exists_eq_add_one_of_ne_zero (Nat.ne_zero_of_lt hf)
      have hn : h.next a = 0 := hc.1.next
      simp [prevWalk, hn]
  | cons c bs ih =>
      obtain ⟨fuel, rfl⟩ := Nat.exists_eq_add_one_of_ne_zero (Nat.ne_zero_of_lt hf)
      have hn : h.next a = a + b.span := hc.1.next
      rw [prevWalk, hn]
      split
      · exact ih hc.2 (by simpa using hf)
      · rfl

/-- Every call that walks the list comes to an end. -/
structure WalksEnd (h : Heap) (bs : List Blk) : Prop where
  alloc : ∀ size, (mmAlloc h size).isSome
  info : (mmInfo h).isSome
  free : ∀ x n, Used h.heapStart bs x n → (mmFree h (x + blockHeader)).isSome

theorem WellFormed.free_isSome {h : Heap} {bs : List Blk} {x n : Nat} (hw : WellFormed h bs)
    (hend : h.heapStart + h.heapSize < 2 ^ 64) (hu : Used h.heapStart bs x n) :
    (mmFree h (x + blockHeader)).isSome := by
  have hcov := hw.covers
  have hlen := hw.length_lt
  obtain ⟨hlo, hhi⟩ := place_bounds hu
  obtain ⟨pre, post, rfl, hx⟩ := mem_place_iff.mp hu
  have hspan : (⟨n, false⟩ : Blk).span = blockHeader + n := rfl
  by_cases hin : x + blockHeader < h.heapStart + h.heapSize
  · have hused : h.isFree x = 0 := by
      rw [hx]
      exact (chain_append.mp hw.chain).2.1.isFree
    rw [mmFree_eq h x (by omega) (by rw [w64_of_lt hend]; exact hin) hused]
    simp only [extent_append, extent_cons] at hcov
    have hfull := (release_chain hw.chain (by omega) hx).1
    have hglob := absorbNext_globals (h.setIsFree x 1) x
    generalize absorbNext (h.setIsFree x 1) x = h₂ at hfull hglob ⊢
    have hfb : h₂.firstBlock = h.heapStart := by rw [hglob]; exact hw.first
    have hbound : h₂.walkBound = h.walkBound := by rw [hglob]; rfl
    have hshort : (pre ++ mergeNext ⟨n, true⟩ post).length
        ≤ (pre ++ (⟨n, false⟩ : Blk) :: post).length := by
      rcases mergeNext_cases n post with ⟨hm, -⟩ | ⟨c, post', rfl, -, hm⟩ <;> simp [hm]
    simp only [Option.isSome_map, hfb, hbound]
    generalize hbs : pre ++ mergeNext ⟨n, true⟩ post = bs at hfull hshort
    cases bs with
    | nil =>
        obtain ⟨m, post', hm⟩ := mergeNext_eq_cons n post
        simp [hm] at hbs
    | cons c bs =>
        rw [List.length_cons] at hshort
        exact prevWalk_isSome hfull (by omega)
  · -- the pointer of an empty block at the very end is taken for one outside the heap
    have h0 : x + blockHeader ≠ 0 := by simp [blockHeader]
    rw [mmFree, if_neg h0, if_pos (Or.inr (by rw [w64_of_lt hend]; omega))]
    rfl

theorem WellFormed.walksEnd {h : Heap} {bs : List Blk} (hw : WellFormed h bs)
    (hend : h.heapStart + h.heapSize < 2 ^ 64) : WalksEnd h bs where
  alloc size := by
    unfold mmAlloc
    split
    · rfl
    · rw [← hw.link_eq]
      exact allocWalk_isSome hw.chain hw.length_lt
  info := by
    rw [mmInfo, ← hw.link_eq, Option.isSome_map]
    exact infoWalk_isSome hw.chain hw.length_lt
  free _ _ hu := hw.free_isSome hend hu

/-! ### Taking a block of any size -/

/-- The size rounded up to a multiple of eight, without wrap-around. -/
def roundUp8 (size : Nat) : Nat := (size + 7) / 8 * 8

/-- What `mm_alloc(size)` is to do: it comes back with `NULL` exactly when no free
block has the rounded size, and the heap is then as it was.  Otherwise a free
block is now used, no other used block has changed, and it holds at least `size`
bytes. -/
def Honours (h : Heap) (bs : List Blk) (size : Nat) : Prop :=
  ∃ p h', mmAlloc h size = some (p, h') ∧
    (p = 0 ↔ ∀ b ∈ bs, b.free = true → b.size < roundUp8 size) ∧
    (p = 0 → h' = h) ∧
    (p ≠ 0 → ∃ x m n bs', p = x + blockHeader ∧
      (x, (⟨m, true⟩ : Blk)) ∈ place Blk.span h.heapStart bs ∧ WellFormed h' bs' ∧ size ≤ n ∧
      ∀ y k, Used h.heapStart bs' y k ↔ Used h.heapStart bs y k ∨ (y = x ∧ k = n))

theorem honours_of_le {h : Heap} {bs : List Blk} {size : Nat} (hw : WellFormed h bs)
    (hr : Region h) (hpos : 0 < size) (hsize : size ≤ 2 ^ 64 - 8) : Honours h bs size := by
  have halign : align8 size = roundUp8 size := align8_eq hsize
  rcases hw.alloc hr hpos hsize with
    ⟨hnull, hsmall⟩ | ⟨pre, b, post, mem', rfl, hfree, hfit, hs, hw', -⟩
  · rw [halign] at hsmall
    exact ⟨0, h, hnull, ⟨fun _ => hsmall, fun _ => rfl⟩, fun _ => rfl, fun h0 => absurd rfl h0⟩
  · have h0 : h.heapStart + extent Blk.span pre + blockHeader ≠ 0 := by simp [blockHeader]
    refine ⟨_, _, hs, ⟨fun h => absurd h h0, fun hsmall => ?_⟩, fun h => absurd h h0, fun _ => ?_⟩
    · have := hsmall b (by simp) hfree
      omega
    · have hle : size ≤ takenSize (align8 size) b := by
        have := le_takenSize hfit
        rw [halign, roundUp8] at *
        omega
      exact ⟨_, b.size, _, _, rfl, mem_place_iff.mpr ⟨pre, post, by rw [← hfree], rfl⟩, hw', hle,
        fun y k => used_alloc hfree⟩

/-- A larger size wraps around. -/
theorem align8_wraps {size : Nat} (h : 2 ^ 64 - 8 < size) (hlt : size < 2 ^ 64) :
    align8 size = 0 := by
  have hw : w64 (size + 7) = size + 7 - 2 ^ 64 := by
    unfold w64
    omega
  rw [align8, hw, land_mask_eq (by omega), Nat.div_eq_of_lt (by omega), Nat.zero_mul]

/-- Where every block is in use the walk comes to the end of the list. -/
theorem allocWalk_used {h : Heap} {a size fuel : Nat} {bs : List Blk}
    (hc : Chain h.mem a bs 0) (hf : bs.length < fuel) (hused : ∀ b ∈ bs, b.free = false) :
    allocWalk size h fuel (link a bs 0) = some (0, h) := by
  induction bs generalizing a fuel with
  | nil =>
      obtain ⟨fuel, rfl⟩ := Nat.exists_eq_add_one_of_ne_zero (Nat.ne_zero_of_lt hf)
      simp [allocWalk]
  | cons b bs ih =>
      obtain ⟨fuel, rfl⟩ := Nat.exists_eq_add_one_of_ne_zero (Nat.ne_zero_of_lt hf)
      have hfree : h.isFree a = 0 := by
        rw [Heap.isFree, hc.1.isFree, hused b List.mem_cons_self]
        rfl
      have hn : h.next a = link (a + b.span) bs 0 := hc.1.next
      rw [link_cons, allocWalk, hfree, hn]
      split
      · rfl
      · rw [if_neg fun hr => hr.1 rfl]
        exact ih hc.2 (by simpa using hf) fun c hc => hused c (List.mem_cons_of_mem _ hc)

/-- The size zero fits into the first free block, which is marked used. -/
theorem allocWalk_zero {h h' : Heap} {a p fuel : Nat} {bs : List Blk} (hc : Chain h.mem a bs 0)
    (ha : a ≠ 0) (hfree : ∃ b ∈ bs, b.free = true)
    (hs : allocWalk 0 h fuel (link a bs 0) = some (p, h')) : h' ≠ h := by
  induction bs generalizing a fuel with
  | nil =>
      obtain ⟨b, hb, -⟩ := hfree
      exact absurd hb List.not_mem_nil
  | cons b bs ih =>
      cases fuel with
      | zero => cases hs
      | succ fuel =>
          have hn : h.next a = link (a + b.span) bs 0 := hc.1.next
          have hb : h.isFree a = b.free.toNat := hc.1.isFree
          rw [link_cons, allocWalk, if_neg ha, hb, hn] at hs
          cases hbf : b.free with
          | true =>
              rw [hbf, if_pos ⟨Nat.one_ne_zero, Nat.zero_le _⟩] at hs
              have hh : (takeBlock h a 0).2 = h' := congrArg Prod.snd (Option.some.inj hs)
              -- its mark was 1 and is 0 now
              have hmark : h'.isFree a = 0 := by
                rw [← hh]
                exact Function.update_self _ _ _
              rintro rfl
              rw [hb, hbf] at hmark
              cases hmark
          | false =>
              rw [hbf, if_neg fun hr => hr.1 rfl] at hs
              obtain ⟨c, hmem, hcf⟩ := hfree
              rcases List.mem_cons.mp hmem with rfl | hmem
              · rw [hbf] at hcf
                cases hcf
              · exact ih hc.2 (by omega) ⟨c, hmem, hcf⟩ hs

/-- **`mm_alloc` honours a request** exactly when its rounding fits in 64 bits or
there is no free block to be handed out for it. -/
theorem mmAlloc_honours {h : Heap} {bs : List Blk} {size : Nat} (hw : WellFormed h bs)
    (hr : Region h) (hpos : 0 < size) (hlt : size < 2 ^ 64) :
    Honours h bs size ↔ size ≤ 2 ^ 64 - 8 ∨ ∀ b ∈ bs, b.free = false := by
  rcases Nat.lt_or_ge (2 ^ 64 - 8) size with hbig | hsize
  · have hcode : mmAlloc h size = allocWalk 0 h h.walkBound (link h.heapStart bs 0) := by
      rw [mmAlloc, if_neg (by omega), align8_wraps hbig hlt, hw.link_eq]
    constructor
    · rintro ⟨p, h', hs, hnull, hsame, -⟩
      refine .inr fun b hb => Bool.eq_false_iff.mpr fun hfree => ?_
      -- no block is that large, so `NULL` is due and nothing may have changed
      have hp : p = 0 := hnull.mpr fun c hc _ => by
        have := hw.size_lt hr hc
        unfold roundUp8
        omega
      exact allocWalk_zero hw.chain hr.start_ne ⟨b, hb, hfree⟩ (hcode ▸ hs) (hsame hp)
    · rintro (hle | hused)
      · omega
      · refine ⟨0, h, hcode.trans (allocWalk_used hw.chain hw.length_lt hused),
          ⟨fun _ b hb hf => ?_, fun _ => rfl⟩, fun _ => rfl, fun h0 => absurd rfl h0⟩
        rw [hused b hb] at hf
        cases hf
  · exact ⟨fun _ => .inl hsize, fun _ => honours_of_le hw hr hpos hsize⟩

/-- A request of nine bytes takes sixteen. -/
theorem mmAlloc_honours_small : ∃ p h', mmAlloc (mmInit (fun _ => 0) 4096 96) 9 = some (p, h') ∧
    p ≠ 0 ∧ ∃ x m n bs', p = x + blockHeader ∧
      (x, (⟨m, true⟩ : Blk)) ∈ place Blk.span 4096 [⟨72, true⟩] ∧ WellFormed h' bs' ∧ 9 ≤ n ∧
      ∀ y k, Used 4096 bs' y k ↔ Used 4096 [⟨72, true⟩] y k ∨ (y = x ∧ k = n) := by
  have hw : WellFormed (mmInit (fun _ => 0) 4096 96) [⟨72, true⟩] :=
    mmInit_wellFormed (by decide) (by decide)
  obtain ⟨p, h', hs, hnull, -, htaken⟩ := (@mmAlloc_honours _ _ 9 hw
    ⟨by decide, by decide, by decide⟩ (by decide) (by decide)).mpr (.inl (by decide))
  have hp : p ≠ 0 := by
    rw [ne_eq, hnull]
    decide
  exact ⟨p, h', hs, hp, htaken hp⟩

/-- The largest request is rounded to zero: on a fresh heap of 96 bytes it is
given a block with no byte in it. -/
theorem mmAlloc_wraps : WellFormed (mmInit (fun _ => 0) 4096 96) [⟨72, true⟩] ∧
    72 < roundUp8 (2 ^ 64 - 1) ∧ ∃ h',
      mmAlloc (mmInit (fun _ => 0) 4096 96) (2 ^ 64 - 1) = some (4096 + blockHeader, h') ∧
      WellFormed h' [⟨0, false⟩, ⟨48, true⟩] :=
  ⟨mmInit_wellFormed (by decide) (by decide), by decide, _, rfl,
    ⟨rfl, ⟨⟨rfl, rfl, rfl⟩, ⟨rfl, rfl, rfl⟩, trivial⟩, by simp, rfl, by simp [Coalesced]⟩⟩

/-! ### Releasing any block -/

/-- An address inside a free block, header included. -/
def FreeByte (a : Nat) (bs : List Blk) (c : Nat) : Prop :=
  ∃ y d, (y, d) ∈ place Blk.span a bs ∧ d.free = true ∧ y ≤ c ∧ c < y + d.span

theorem FreeByte.append_right {a c : Nat} {xs ys : List Blk}
    (h : FreeByte (a + extent Blk.span xs) ys c) : FreeByte a (xs ++ ys) c := by
  obtain ⟨y, d, hd, hrest⟩ := h
  refine ⟨y, d, ?_, hrest⟩
  rw [place_append]
  exact List.mem_append_right _ hd

theorem freeByte_head {a c : Nat} {b : Blk} {bs : List Blk} (hb : b.free = true) (hlo : a ≤ c)
    (hhi : c < a + b.span) : FreeByte a (b :: bs) c :=
  ⟨a, b, List.mem_cons_self .., hb, hlo, hhi⟩

/-- A released block and what it takes in. -/
theorem le_mergeNext {n m : Nat} {post post' : List Blk}
    (hm : mergeNext ⟨n, true⟩ post = ⟨m, true⟩ :: post') : n ≤ m := by
  rcases mergeNext_cases n post with ⟨h, -⟩ | ⟨c, post'', -, -, h⟩
  · rw [h] at hm
    simp only [List.cons.injEq, Blk.mk.injEq] at hm
    omega
  · rw [h] at hm
    simp only [List.cons.injEq, Blk.mk.injEq] at hm
    omega

/-- The bytes of a released block are free, whichever neighbours it is merged
with. -/
theorem freeByte_freeBlocks {a c : Nat} {b : Blk} {pre post : List Blk}
    (hlo : a + extent Blk.span pre ≤ c) (hhi : c < a + extent Blk.span pre + b.span) :
    FreeByte a (freeBlocks b post pre) c := by
  obtain ⟨m, post', hm⟩ := mergeNext_eq_cons b.size post
  have hle := le_mergeNext hm
  have hspan : b.span = blockHeader + b.size := rfl
  have hspan' : (⟨m, true⟩ : Blk).span = blockHeader + m := rfl
  rcases List.eq_nil_or_concat pre with rfl | ⟨pre, p, rfl⟩
  · rw [freeBlocks, hm]
    simp only [extent_nil, Nat.add_zero] at hlo hhi
    exact freeByte_head rfl hlo (by omega)
  · rw [List.concat_eq_append] at hlo hhi ⊢
    rw [freeBlocks_concat, hm]
    apply FreeByte.append_right
    simp only [extent_append, extent_cons, extent_nil] at hlo hhi
    cases hp : p.free with
    | false =>
        apply @FreeByte.append_right _ c [p]
        simp only [extent_cons, extent_nil]
        exact freeByte_head rfl (by omega) (by omega)
    | true =>
        simp only [if_true, mergeNext]
        refine freeByte_head rfl (by omega) ?_
        simp only [Blk.span] at *
        omega

/-- What `mm_free` of the used block at `x`, of size `n`, is to do. -/
structure Released (h : Heap) (bs : List Blk) (x n : Nat) (h' : Heap) (bs' : List Blk) :
    Prop where
  wellFormed : WellFormed h' bs'
  freed : ∀ c, x ≤ c → c < x + (blockHeader + n) → FreeByte h.heapStart bs' c
  others : ∀ y m, Used h.heapStart bs' y m ↔ Used h.heapStart bs y m ∧ y ≠ x
  untouched : ∀ y m c, Used h.heapStart bs y m → y ≠ x → y ≤ c → c < y + (blockHeader + m) →
    h'.mem c = h.mem c

/-- What is written lies outside every other used block: it starts at the block
released or at the free block in front of it. -/
theorem untouched_of_agree {a lo x n : Nat} {bs : List Blk} {mem mem' : Cells}
    (hu : Used a bs x n) (hag : AgreeOutside lo (x + blockHeader) mem mem')
    (hlo : lo = x ∨ ∃ p : Blk, (lo, p) ∈ place Blk.span a bs ∧ p.free = true ∧ lo + p.span = x)
    {y m c : Nat} (hy : Used a bs y m) (hne : y ≠ x) (hc : y ≤ c)
    (hc' : c < y + (blockHeader + m)) : mem' c = mem c := by
  have hspan : (⟨n, false⟩ : Blk).span = blockHeader + n := rfl
  have hspan' : (⟨m, false⟩ : Blk).span = blockHeader + m := rfl
  apply hag
  rcases place_disjoint hu hy with he | hafter | hbefore
  · exact absurd (Prod.mk.inj he).1.symm hne
  · exact .inr (by omega)
  · left
    rcases hlo with rfl | ⟨p, hp, hfree, hlast⟩
    · omega
    · rcases place_disjoint hp hy with he | hafter | hbefore'
      · rw [(Prod.mk.inj he).2] at hfree
        exact absurd hfree Bool.false_ne_true
      · omega
      · omega

theorem WellFormed.release_inner {h : Heap} {pre post : List Blk} {p : Blk} {n : Nat}
    (hw : WellFormed h ((pre ++ [p]) ++ ⟨n, false⟩ :: post))
    (hend : h.heapStart + h.heapSize < 2 ^ 64)
    (hin : extent Blk.span (pre ++ [p]) + blockHeader < h.heapSize) :
    ∃ mem' bs', mmFree h (h.heapStart + extent Blk.span (pre ++ [p]) + blockHeader)
        = some { h with mem := mem' } ∧
      Released h ((pre ++ [p]) ++ ⟨n, false⟩ :: post)
        (h.heapStart + extent Blk.span (pre ++ [p])) n { h with mem := mem' } bs' := by
  obtain ⟨mem', hfree, hch, hag⟩ := mmFree_chain hw.first hw.chain hw.covers hend rfl hin
  have hu : Used h.heapStart ((pre ++ [p]) ++ ⟨n, false⟩ :: post)
      (h.heapStart + extent Blk.span (pre ++ [p])) n := mem_place_iff.mpr ⟨_, _, rfl, rfl⟩
  refine ⟨mem', _, hfree, hw.released hch, fun c hlo hhi => freeByte_freeBlocks hlo hhi,
    fun y m => used_free, ?_⟩
  intro y m c hy hne hc hc'
  refine untouched_of_agree hu hag ?_ hy hne hc hc'
  cases hp : p.free with
  | false => exact .inl rfl
  | true =>
      refine .inr ⟨p, ?_, hp, ?_⟩
      · exact mem_place_iff.mpr ⟨pre, ⟨n, false⟩ :: post, by simp, rfl⟩
      · simp only [if_true, extent_append, extent_cons, extent_nil]
        omega

/-- A released first block that is not alone keeps a used block at the end of
the list behind it. -/
theorem last_used {n : Nat} {post pre' : List Blk} {l : Blk}
    (hok : post.length ≤ 1 ∨ ∀ c ∈ post.getLast?, c.free = false)
    (hl : mergeNext ⟨n, true⟩ post = pre' ++ [l]) : ¬ (pre' ≠ [] ∧ l.free = true) := by
  rintro ⟨hne, hfree⟩
  obtain ⟨q, pre', rfl⟩ := List.exists_cons_of_ne_nil hne
  rw [List.cons_append] at hl
  rcases mergeNext_cases n post with ⟨hm, hhead⟩ | ⟨c, post', rfl, -, hm⟩
  · obtain ⟨-, rfl⟩ := List.cons.inj (hm.symm.trans hl)
    rcases hok with hshort | hlast
    · have : pre' = [] := by simpa using hshort
      subst this
      have := hhead l (by simp)
      simp_all
    · have := hlast l (by simp)
      simp_all
  · obtain ⟨-, rfl⟩ := List.cons.inj (hm.symm.trans hl)
    rcases hok with hshort | hlast
    · simp at hshort
    · have := hlast l (by rw [← List.cons_append]; exact List.getLast?_concat)
      simp_all

theorem WellFormed.release_first {h : Heap} {post : List Blk} {n : Nat}
    (hw : WellFormed h (⟨n, false⟩ :: post)) (hend : h.heapStart + h.heapSize < 2 ^ 64)
    (hin : blockHeader < h.heapSize)
    (hok : post.length ≤ 1 ∨ ∀ c ∈ post.getLast?, c.free = false) :
    ∃ mem' bs', mmFree h (h.heapStart + blockHeader) = some { h with mem := mem' } ∧
      Released h (⟨n, false⟩ :: post) h.heapStart n { h with mem := mem' } bs' := by
  obtain ⟨m, post', hm⟩ := mergeNext_eq_cons n post
  obtain ⟨pre', l, hl⟩ : ∃ pre' l, mergeNext ⟨n, true⟩ post = pre' ++ [l] :=
    ⟨_, _, by rw [hm]; exact (List.dropLast_append_getLast (by simp)).symm⟩
  obtain ⟨h₂, hglob, hch, hag, hfree⟩ := mmFree_first hw.first hw.chain hw.covers hend rfl hin hl
  rw [if_neg (by simpa using last_used hok hl), hglob] at hfree
  rw [← hl] at hch
  have hu : Used h.heapStart (⟨n, false⟩ :: post) h.heapStart n := List.mem_cons_self ..
  refine ⟨h₂.mem, _, hfree, @WellFormed.released h ⟨n, false⟩ [] post _ hw hch,
    fun c hlo hhi => @freeByte_freeBlocks _ c ⟨n, false⟩ [] post hlo hhi,
    fun y k => @used_free _ y k [] post ⟨n, false⟩, ?_⟩
  intro y k c hy hne hc hc'
  exact untouched_of_agree hu hag (.inl rfl) hy hne hc hc'

/-- **`mm_free` releases a used block** of any well-formed heap whose end is an
address: the list is well formed again, the block's bytes are free, the other
used blocks are the same with every cell of theirs, and every walk ends.

Two blocks are excluded.  An empty block at the very end of the heap has a
pointer behind the heap, which `mm_free` ignores.  The first block of a list of
three or more whose last one is free is merged with that last one. -/
theorem mmFree_releases {h : Heap} {bs : List Blk} {x n : Nat} (hw : WellFormed h bs)
    (hu : Used h.heapStart bs x n) (hend : h.heapStart + h.heapSize < 2 ^ 64)
    (hin : x + blockHeader < h.heapStart + h.heapSize)
    (hok : x ≠ h.heapStart ∨ bs.length ≤ 2 ∨ ∀ c ∈ bs.getLast?, c.free = false) :
    ∃ h' bs', mmFree h (x + blockHeader) = some h' ∧ Released h bs x n h' bs' ∧
      WalksEnd h' bs' := by
  by_cases hx : x = h.heapStart
  · obtain ⟨pre, post, rfl, hpre⟩ := mem_place_iff.mp hu
    obtain rfl : pre = [] := by
      have := length_le_extent pre
      exact List.eq_nil_of_length_eq_zero (by omega)
    subst hx
    have hok' : post.length ≤ 1 ∨ ∀ c ∈ post.getLast?, c.free = false := by
      rcases hok with hne | hshort | hlast
      · exact absurd rfl hne
      · exact .inl (by simpa using hshort)
      · right
        intro c hc
        apply hlast
        rw [List.nil_append, List.getLast?_cons, Option.mem_def.mp hc]
        rfl
    obtain ⟨mem', bs', hfree, hrel⟩ := hw.release_first hend (by omega) hok'
    exact ⟨_, bs', hfree, hrel, hrel.wellFormed.walksEnd hend⟩
  · obtain ⟨pre, p, post, rfl, rfl⟩ := used_has_pred hu hx
    obtain ⟨mem', bs', hfree, hrel⟩ := hw.release_inner hend (by omega)
    exact ⟨_, bs', hfree, hrel, hrel.wellFormed.walksEnd hend⟩

/-- A used block between two free ones. -/
theorem mmFree_releases_small : ∃ h bs, WellFormed h bs ∧ Used h.heapStart bs 4128 8 ∧
    ∃ h' bs', mmFree h (4128 + blockHeader) = some h' ∧ Released h bs 4128 8 h' bs' ∧
      WalksEnd h' bs' := by
  have hw : WellFormed ⟨4096, 96, 4096, fun c => ([(4096, 8), (4104, 1), (4112, 4128), (4128, 8),
      (4144, 4160), (4160, 8), (4168, 1)].lookup c).getD 0⟩
      [⟨8, true⟩, ⟨8, false⟩, ⟨8, true⟩] :=
    ⟨rfl, ⟨⟨rfl, rfl, rfl⟩, ⟨rfl, rfl, rfl⟩, ⟨rfl, rfl, rfl⟩, trivial⟩, by simp, rfl,
      by simp [Coalesced]⟩
  have hu : Used 4096 [⟨8, true⟩, ⟨8, false⟩, ⟨8, true⟩] 4128 8 :=
    mem_place_iff.mpr ⟨[⟨8, true⟩], [⟨8, true⟩], rfl, rfl⟩
  exact ⟨_, _, hw, hu, mmFree_releases hw hu (by decide) (by decide) (by decide)⟩

/-! ### The first block -/

/-- A walk along a list that is closed into a ring never ends. -/
theorem infoWalk_ring {h : Heap} {a z fuel used free : Nat} {b : Blk} {bs : List Blk}
    (hc : Chain h.mem a (b :: bs) z) (ha : a ≠ 0)
    (hring : ∀ k, k < fuel → ∀ u f, infoWalk h k z u f = none) :
    infoWalk h fuel a used free = none := by
  induction bs generalizing a b fuel used free with
  | nil =>
      cases fuel with
      | zero => rfl
      | succ fuel =>
          have hn : h.next a = z := hc.1.next
          rw [infoWalk, if_neg ha, hn]
          split <;> exact hring fuel (by omega) _ _
  | cons c bs ih =>
      cases fuel with
      | zero => rfl
      | succ fuel =>
          have hn : h.next a = a + b.span := hc.1.next
          rw [infoWalk, if_neg ha, hn]
          split <;> exact ih hc.2 (by omega) fun k hk => hring k (by omega)

theorem infoWalk_ring_none {h : Heap} {a : Nat} {bs : List Blk} (hc : Chain h.mem a bs a)
    (hne : bs ≠ []) (ha : a ≠ 0) (fuel used free : Nat) :
    infoWalk h fuel a used free = none := by
  obtain ⟨b, bs, rfl⟩ := List.exists_cons_of_ne_nil hne
  induction fuel using Nat.strong_induction_on generalizing used free with
  | _ fuel ih => exact infoWalk_ring hc ha fun k hk u f => ih k hk u f

/-- Give the last block of a chain a new size and a new `next`. -/
theorem Chain.close {mem : Cells} {a z v w : Nat} {mid : List Blk} {l : Blk}
    (hc : Chain mem a (mid ++ [l]) z) {y : Nat} (hy : y = a + extent Blk.span mid) :
    Chain (Function.update (Function.update mem y v) (y + 16) w) a (mid ++ [⟨v, l.free⟩]) w := by
  subst hy
  rw [chain_append] at hc ⊢
  obtain ⟨hmid, ⟨-, hfr, -⟩, -⟩ := hc
  refine ⟨hmid.congr fun c _ hc => ?_, ⟨?_, ?_, ?_⟩, trivial⟩ <;>
    simp (disch := omega) only [Function.update_of_ne, Function.update_self, hfr, link_nil]

/-- A first block with two blocks or more behind it, the last one free. -/
theorem mergeNext_split {n : Nat} {post : List Blk} (hlen : 2 ≤ post.length)
    (hlast : ∀ c ∈ post.getLast?, c.free = true) :
    ∃ m mid l, mergeNext ⟨n, true⟩ post = ⟨m, true⟩ :: (mid ++ [l]) ∧ l.free = true := by
  obtain ⟨pre, l, rfl⟩ : ∃ pre l, post = pre ++ [l] :=
    ⟨_, _, (List.dropLast_append_getLast (by intro h; simp [h] at hlen)).symm⟩
  have hl : l.free = true := hlast l List.getLast?_concat
  rcases mergeNext_cases n (pre ++ [l]) with ⟨hm, -⟩ | ⟨c, post', hc, -, hm⟩
  · exact ⟨n, pre, l, hm, hl⟩
  · cases pre with
    | nil => simp at hlen
    | cons d pre =>
        rw [List.cons_append] at hc
        obtain ⟨-, rfl⟩ := List.cons.inj hc
        exact ⟨_, pre, l, hm, hl⟩

/-- **What `mm_free` does to the first block** of a list of three or more whose
last block is free: the last block takes it in and its `next` goes back into
the list.  The walk of `mm_info` never ends from then on. -/
theorem mmFree_first_loops {h : Heap} {n : Nat} {post : List Blk}
    (hw : WellFormed h (⟨n, false⟩ :: post)) (h₀ : h.heapStart ≠ 0)
    (hend : h.heapStart + h.heapSize < 2 ^ 64) (hlen : 2 ≤ post.length)
    (hlast : ∀ c ∈ post.getLast?, c.free = true) :
    ∃ h', mmFree h (h.heapStart + blockHeader) = some h' ∧
      (∀ fuel, infoWalk h' fuel h'.firstBlock 0 0 = none) ∧ ∀ bs', ¬ WellFormed h' bs' := by
  obtain ⟨m, mid, l, hm, hl⟩ := mergeNext_split (n := n) hlen hlast
  have hin : blockHeader < h.heapSize := by
    have := length_le_extent post
    have hcov := hw.covers
    simp only [extent_cons, Blk.span] at hcov
    omega
  obtain ⟨h₂, hglob, hch, -, hfree⟩ := mmFree_first hw.first hw.chain hw.covers hend rfl hin
    (show mergeNext _ post = (⟨m, true⟩ :: mid) ++ [l] from hm)
  rw [if_pos (by simpa using hl)] at hfree
  set a := h.heapStart with ha
  set y := a + extent Blk.span (⟨m, true⟩ :: mid) with hy
  have hspan : (⟨m, true⟩ : Blk).span = 24 + m := rfl
  rw [extent_cons, hspan] at hy
  have hnext : h₂.next a = a + (24 + m) := hch.1.next.trans (link_append_cons _ mid _ _ _)
  -- the last block points back to the block behind the first one
  have hmem : (absorb h₂ y a).mem = Function.update (Function.update h₂.mem y
      (w64 (h₂.size y + w64 (blockHeader + h₂.size a)))) (y + 16) (a + (24 + m)) := by
    have hnext' : h₂.mem (a + 16) = a + (24 + m) := hnext
    simp (disch := omega) only [absorb, Heap.setSize, Heap.setNext, Heap.store, Heap.next,
      Function.update_of_ne, hnext']
  have hring : Chain (absorb h₂ y a).mem (a + (24 + m))
      (mid ++ [⟨w64 (h₂.size y + w64 (blockHeader + h₂.size a)), l.free⟩]) (a + (24 + m)) := by
    rw [hmem]
    exact Chain.close hch.2 (by rw [hy, hspan]; omega)
  have hhead : Chain (absorb h₂ y a).mem a [⟨m, true⟩] (a + (24 + m)) := by
    obtain ⟨⟨hsz, hfr, -⟩, -⟩ := hch
    have hnext' : h₂.mem (a + 16) = a + (24 + m) := hnext
    refine ⟨⟨?_, ?_, ?_⟩, trivial⟩ <;>
      simp (disch := omega) only [hmem, Function.update_of_ne, hsz, hfr, hnext', link_nil]
  have hloop : ∀ fuel, infoWalk (absorb h₂ y a) fuel (absorb h₂ y a).firstBlock 0 0 = none := by
    intro fuel
    have hfirst : (absorb h₂ y a).firstBlock = a := by
      show h₂.firstBlock = a
      rw [hglob]
      exact hw.first
    rw [hfirst]
    exact infoWalk_ring hhead h₀ fun k _ u f =>
      infoWalk_ring_none hring (by simp) (by omega) k u f
  refine ⟨_, hfree, hloop, fun bs' hw' => ?_⟩
  have hsome := @infoWalk_isSome _ _ 0 0 _ _ hw'.chain hw'.length_lt
  rw [hw'.link_eq, hloop] at hsome
  exact absurd hsome (by simp)

/-- Two blocks are taken from a fresh heap and the first one is given back. -/
theorem mmFree_first_ring : ∃ h₁ h₂ h₃,
    mmAlloc (mmInit (fun _ => 0) 4096 96) 8 = some (4096 + blockHeader, h₁) ∧
    mmAlloc h₁ 8 = some (4128 + blockHeader, h₂) ∧
    WellFormed h₂ [⟨8, false⟩, ⟨8, false⟩, ⟨8, true⟩] ∧
    mmFree h₂ (4096 + blockHeader) = some h₃ ∧
    (∀ fuel, infoWalk h₃ fuel h₃.firstBlock 0 0 = none) ∧ ∀ bs, ¬ WellFormed h₃ bs := by
  have hw : WellFormed
      ((mmAlloc ((mmAlloc (mmInit (fun _ => 0) 4096 96) 8).get rfl).2 8).get rfl).2
      [⟨8, false⟩, ⟨8, false⟩, ⟨8, true⟩] :=
    ⟨rfl, ⟨⟨rfl, rfl, rfl⟩, ⟨rfl, rfl, rfl⟩, ⟨rfl, rfl, rfl⟩, trivial⟩, by simp, rfl,
      by simp [Coalesced]⟩
  obtain ⟨h₃, hfree, hloop, hnot⟩ :=
    mmFree_first_loops hw (by decide) (by decide) (by decide) (by decide)
  exact ⟨_, _, h₃, rfl, rfl, hw, hfree, hloop, hnot⟩

end FreeList

end TP2Kernel
