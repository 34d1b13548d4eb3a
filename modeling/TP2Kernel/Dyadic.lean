/-
TP2Kernel/Dyadic.lean

Dyadic blocks and exact covers.  The block `(o, k)` is the `2 ^ k` bytes from
offset `o`.  A pool keeps the offsets of its blocks in one list for each order;
`coverPool P x` counts the blocks of the pool that contain byte `x`, and
`coverList` does the same for a plain list of blocks.

"These blocks partition the first `N` bytes" is the equation
`cover x = if x < N then 1 else 0` for every `x`.  It is additive in the
blocks, so splitting a block and joining two buddies keep it by one identity
(`ind_split`), and disjointness and containment are read off it
(`pool_unique`, `block_inside`).  A pool in which no two buddies lie together is
determined by the bytes it covers (`pool_canonical`).
-/
import Mathlib.Algebra.BigOperators.Fin
import Mathlib.Algebra.Order.BigOperators.Group.Finset
import Mathlib.Algebra.Order.BigOperators.Group.List
import Mathlib.Data.Nat.Bitwise
import Mathlib.Order.Interval.Finset.Nat
import Mathlib.Tactic.Ring

namespace TP2Kernel

/-! ### Counting -/

/-- `1` if byte `x` is in the block `(o, k)`. -/
def ind (x o k : Nat) : Nat := if o ≤ x ∧ x < o + 2 ^ k then 1 else 0

/-- The blocks of order `k` in the list that contain `x`. -/
def coverOrder (k : Nat) (l : List Nat) (x : Nat) : Nat := (l.map fun o => ind x o k).sum

/-- The blocks of the list that contain `x`. -/
def coverList (bs : List (Nat × Nat)) (x : Nat) : Nat := (bs.map fun b => ind x b.1 b.2).sum

/-- The blocks of the pool, with orders from `lo` to `hi`, that contain `x`. -/
def coverPool (lo hi : Nat) (P : Nat → List Nat) (x : Nat) : Nat :=
  ∑ k ∈ Finset.Icc lo hi, coverOrder k (P k) x

variable {x o k lo hi N : Nat} {P : Nat → List Nat} {bs : List (Nat × Nat)}

theorem ind_eq_one (h₁ : o ≤ x) (h₂ : x < o + 2 ^ k) : ind x o k = 1 :=
  if_pos ⟨h₁, h₂⟩

theorem ind_eq_one_iff : ind x o k = 1 ↔ o ≤ x ∧ x < o + 2 ^ k := by
  unfold ind
  split <;> simp_all

theorem ind_of_ne_zero (h : ind x o k ≠ 0) : ind x o k = 1 := by
  unfold ind at h ⊢
  split at h
  · rw [if_pos ‹_›]
  · exact absurd rfl h

/-- A block is its two halves. -/
theorem ind_split (x o k : Nat) : ind x o (k + 1) = ind x o k + ind x (o + 2 ^ k) k := by
  unfold ind
  have : 2 ^ (k + 1) = 2 ^ k + 2 ^ k := by rw [pow_succ]; omega
  have : 0 < 2 ^ k := Nat.two_pow_pos k
  split <;> split <;> split <;> omega

@[simp] theorem coverOrder_nil : coverOrder k [] x = 0 := rfl

@[simp] theorem coverOrder_cons (l : List Nat) :
    coverOrder k (o :: l) x = ind x o k + coverOrder k l x := by
  simp [coverOrder]

@[simp] theorem coverOrder_append (l₁ l₂ : List Nat) :
    coverOrder k (l₁ ++ l₂) x = coverOrder k l₁ x + coverOrder k l₂ x := by
  simp [coverOrder]

@[simp] theorem coverList_nil : coverList [] x = 0 := rfl

@[simp] theorem coverList_cons (b : Nat × Nat) :
    coverList (b :: bs) x = ind x b.1 b.2 + coverList bs x := by
  simp [coverList]

theorem coverList_perm {bs' : List (Nat × Nat)} (h : bs.Perm bs') :
    coverList bs x = coverList bs' x :=
  (h.map _).sum_eq

/-- Exchange the list of one order. -/
theorem coverPool_update (hk : k ∈ Finset.Icc lo hi) (l : List Nat) :
    coverPool lo hi (Function.update P k l) x + coverOrder k (P k) x
      = coverPool lo hi P x + coverOrder k l x := by
  unfold coverPool
  rw [← Finset.add_sum_erase _ _ hk,
    ← Finset.add_sum_erase _ (fun j => coverOrder j (P j) x) hk]
  have hrest : ∑ j ∈ (Finset.Icc lo hi).erase k, coverOrder j (Function.update P k l j) x
      = ∑ j ∈ (Finset.Icc lo hi).erase k, coverOrder j (P j) x := by
    refine Finset.sum_congr rfl fun j hj => ?_
    rw [Function.update_of_ne (Finset.ne_of_mem_erase hj)]
  rw [hrest, Function.update_self]
  omega

/-! ### Reading a cover -/

theorem ind_le_coverOrder {l : List Nat} (h : o ∈ l) : ind x o k ≤ coverOrder k l x :=
  List.single_le_sum (fun _ _ => Nat.zero_le _) _ (List.mem_map.mpr ⟨o, h, rfl⟩)

theorem ind_le_coverList {b : Nat × Nat} (h : b ∈ bs) : ind x b.1 b.2 ≤ coverList bs x :=
  List.single_le_sum (fun _ _ => Nat.zero_le _) _ (List.mem_map.mpr ⟨b, h, rfl⟩)

theorem coverOrder_le_coverPool (hk : k ∈ Finset.Icc lo hi) :
    coverOrder k (P k) x ≤ coverPool lo hi P x :=
  Finset.single_le_sum (f := fun j => coverOrder j (P j) x) (fun _ _ => Nat.zero_le _) hk

theorem ind_le_coverPool (hk : k ∈ Finset.Icc lo hi) (h : o ∈ P k) :
    ind x o k ≤ coverPool lo hi P x :=
  (ind_le_coverOrder h).trans (coverOrder_le_coverPool hk)

/-- Two different members of a list count twice. -/
theorem two_le_coverOrder {l : List Nat} {o' : Nat} (h : o ∈ l) (h' : o' ∈ l) (hne : o ≠ o') :
    ind x o k + ind x o' k ≤ coverOrder k l x := by
  obtain ⟨l₁, l₂, rfl⟩ := List.append_of_mem h
  have hmem : o' ∈ l₁ ++ l₂ := by
    simp only [List.mem_append, List.mem_cons] at h' ⊢
    rcases h' with h' | rfl | h'
    · exact .inl h'
    · exact absurd rfl hne
    · exact .inr h'
  have := ind_le_coverOrder (x := x) (k := k) hmem
  simp only [coverOrder_append, coverOrder_cons] at this ⊢
  omega

/-- Blocks of a pool that meet in a byte covered at most once are the same. -/
theorem pool_unique (hcov : coverPool lo hi P x ≤ 1) {k' o' : Nat}
    (hk : k ∈ Finset.Icc lo hi) (ho : o ∈ P k) (hk' : k' ∈ Finset.Icc lo hi) (ho' : o' ∈ P k')
    (hx : ind x o k = 1) (hx' : ind x o' k' = 1) : k = k' ∧ o = o' := by
  by_cases hkk : k = k'
  · subst hkk
    refine ⟨rfl, ?_⟩
    by_contra hne
    have h₁ := two_le_coverOrder (x := x) (k := k) ho ho' hne
    have h₂ := coverOrder_le_coverPool (P := P) (x := x) hk
    omega
  · exfalso
    have hsub : ({k, k'} : Finset Nat) ⊆ Finset.Icc lo hi := by
      intro j hj
      rcases Finset.mem_insert.mp hj with rfl | hj
      · exact hk
      · rwa [Finset.mem_singleton.mp hj]
    have h₁ := Finset.sum_le_sum_of_subset (f := fun j => coverOrder j (P j) x) hsub
    rw [Finset.sum_pair hkk] at h₁
    have h₂ := ind_le_coverOrder (x := x) (k := k) ho
    have h₃ := ind_le_coverOrder (x := x) (k := k') ho'
    unfold coverPool at hcov
    omega

/-- A block whose bytes are covered lies inside the covered prefix. -/
theorem block_inside (h : ∀ x, ind x o k = 1 → x < N) : o + 2 ^ k ≤ N := by
  have hpos : 0 < 2 ^ k := Nat.two_pow_pos k
  have := h (o + 2 ^ k - 1) (ind_eq_one (by omega) (by omega))
  omega

/-! ### Sizes -/

/-- The bytes of the blocks of a list. -/
def sizeList (bs : List (Nat × Nat)) : Nat := (bs.map fun b => 2 ^ b.2).sum

/-- The bytes of the blocks of a pool. -/
def sizePool (lo hi : Nat) (P : Nat → List Nat) : Nat :=
  ∑ k ∈ Finset.Icc lo hi, (P k).length * 2 ^ k

theorem sum_ind (h : o + 2 ^ k ≤ N) : ∑ x ∈ Finset.range N, ind x o k = 2 ^ k := by
  have hfilter : (Finset.range N).filter (fun x => o ≤ x ∧ x < o + 2 ^ k)
      = Finset.Ico o (o + 2 ^ k) := by
    ext x
    simp only [Finset.mem_filter, Finset.mem_range, Finset.mem_Ico]
    omega
  unfold ind
  rw [← Finset.sum_filter, hfilter, Finset.sum_const, Nat.card_Ico]
  simp

theorem sum_coverOrder {l : List Nat} (h : ∀ o ∈ l, o + 2 ^ k ≤ N) :
    ∑ x ∈ Finset.range N, coverOrder k l x = l.length * 2 ^ k := by
  induction l with
  | nil => simp
  | cons o l ih =>
      simp only [coverOrder_cons, Finset.sum_add_distrib, sum_ind (h o (.head _)),
        ih fun o' ho' => h o' (.tail _ ho'), List.length_cons]
      ring

theorem sum_coverList (h : ∀ b ∈ bs, b.1 + 2 ^ b.2 ≤ N) :
    ∑ x ∈ Finset.range N, coverList bs x = sizeList bs := by
  induction bs with
  | nil => simp [sizeList]
  | cons b bs ih =>
      simp only [coverList_cons, Finset.sum_add_distrib, sum_ind (h b (.head _)),
        ih fun b' hb' => h b' (.tail _ hb'), sizeList, List.map_cons, List.sum_cons]

/-- Blocks that cover each of the first `N` bytes once have `N` bytes in all. -/
theorem size_of_cover
    (hcov : ∀ x, coverPool lo hi P x + coverList bs x = if x < N then 1 else 0)
    (hP : ∀ k ∈ Finset.Icc lo hi, ∀ o ∈ P k, o + 2 ^ k ≤ N)
    (hbs : ∀ b ∈ bs, b.1 + 2 ^ b.2 ≤ N) : sizePool lo hi P + sizeList bs = N := by
  have hsum : ∑ x ∈ Finset.range N, (coverPool lo hi P x + coverList bs x) = N := by
    rw [Finset.sum_congr rfl fun x hx => (hcov x).trans (if_pos (Finset.mem_range.mp hx))]
    simp
  rw [Finset.sum_add_distrib, sum_coverList hbs] at hsum
  unfold coverPool at hsum
  rw [Finset.sum_comm, Finset.sum_congr rfl fun k hk => sum_coverOrder (hP k hk)] at hsum
  exact hsum

/-! ### Buddies -/

/-- An aligned block and its buddy are the two halves of one aligned block of
the next order. -/
theorem buddy_cases (h : 2 ^ k ∣ o) :
    ∃ m, 2 ^ (k + 1) ∣ m ∧
      ((o = m ∧ o ^^^ 2 ^ k = m + 2 ^ k) ∨ (o = m + 2 ^ k ∧ o ^^^ 2 ^ k = m)) := by
  obtain ⟨q, rfl⟩ := h
  have hx : (2 ^ k * q) ^^^ 2 ^ k = (q ^^^ 1) * 2 ^ k := by
    rw [← Nat.shiftLeft_eq, Nat.shiftLeft_xor_distrib, Nat.shiftLeft_eq, Nat.shiftLeft_eq,
      Nat.mul_comm, Nat.one_mul]
  rw [hx]
  rcases Nat.even_or_odd q with hq | hq
  · obtain ⟨t, rfl⟩ := hq.two_dvd
    rw [Nat.xor_one_of_even hq]
    exact ⟨t * 2 ^ (k + 1), Nat.dvd_mul_left _ _, .inl ⟨by ring, by ring⟩⟩
  · obtain ⟨t, rfl⟩ := hq
    rw [Nat.xor_one_of_odd ⟨t, rfl⟩, Nat.add_sub_cancel]
    exact ⟨t * 2 ^ (k + 1), Nat.dvd_mul_left _ _, .inr ⟨by ring, by ring⟩⟩

/-- The buddy of a block that is aligned for the next order is the block behind
it. -/
theorem xor_pow_of_dvd (h : 2 ^ (k + 1) ∣ o) : o ^^^ 2 ^ k = o + 2 ^ k := by
  obtain ⟨m, hm, hcase⟩ := buddy_cases ((pow_dvd_pow 2 (Nat.le_succ k)).trans h)
  rcases hcase with ⟨rfl, he⟩ | ⟨he, -⟩
  · exact he
  · -- the second half is not aligned for the next order
    exfalso
    rw [he, Nat.dvd_add_right hm] at h
    exact absurd (Nat.le_of_dvd (Nat.two_pow_pos k) h)
      (by rw [pow_succ]; have := Nat.two_pow_pos k; omega)

/-! ### The coarsest pool

A pool in which no block lies together with its buddy has the largest blocks its
bytes allow: every aligned region it covers is inside one of its blocks.  So the
bytes determine the pool. -/

/-- Aligned blocks that meet are nested. -/
theorem inside_of_meet {c j x : Nat} (hkj : k ≤ j) (ho : 2 ^ k ∣ o) (hc : 2 ^ j ∣ c)
    (hxo : ind x o k = 1) (hxc : ind x c j = 1) : c ≤ o ∧ o + 2 ^ k ≤ c + 2 ^ j := by
  obtain ⟨q, rfl⟩ := ho
  obtain ⟨d, rfl⟩ : 2 ^ k ∣ c := (pow_dvd_pow 2 hkj).trans hc
  obtain ⟨m, hm⟩ := pow_dvd_pow 2 hkj
  obtain ⟨hle, hlt⟩ := ind_eq_one_iff.mp hxo
  obtain ⟨hle', hlt'⟩ := ind_eq_one_iff.mp hxc
  rw [hm] at hlt' ⊢
  have hdq : d < q + 1 := Nat.lt_of_mul_lt_mul_left (a := 2 ^ k) (by rw [Nat.mul_succ]; omega)
  have hqd : q < d + m := Nat.lt_of_mul_lt_mul_left (a := 2 ^ k) (by rw [Nat.mul_add]; omega)
  constructor
  · exact Nat.mul_le_mul_left _ (by omega)
  · have := Nat.mul_le_mul_left (2 ^ k) (show q + 1 ≤ d + m by omega)
    rw [Nat.mul_succ, Nat.mul_add] at this
    exact this

/-- A covered byte is in a block. -/
theorem exists_block (h : 0 < coverPool lo hi P x) :
    ∃ j ∈ Finset.Icc lo hi, ∃ c ∈ P j, ind x c j = 1 := by
  obtain ⟨j, hj, hpos⟩ := Finset.exists_ne_zero_of_sum_ne_zero h.ne'
  obtain ⟨y, hy, hne⟩ := List.exists_mem_ne_zero_of_sum_ne_zero hpos
  obtain ⟨c, hc, rfl⟩ := List.mem_map.mp hy
  exact ⟨j, hj, c, hc, ind_of_ne_zero hne⟩

theorem coverList_pos : 0 < coverList bs x ↔ ∃ b ∈ bs, ind x b.1 b.2 = 1 := by
  constructor
  · intro h
    obtain ⟨y, hy, hne⟩ := List.exists_mem_ne_zero_of_sum_ne_zero h.ne'
    obtain ⟨b, hb, rfl⟩ := List.mem_map.mp hy
    exact ⟨b, hb, ind_of_ne_zero hne⟩
  · rintro ⟨b, hb, hx⟩
    exact Nat.lt_of_lt_of_le (hx ▸ Nat.one_pos) (ind_le_coverList hb)

/-- Blocks of the pool start at multiples of their size. -/
def AlignedPool (lo hi : Nat) (P : Nat → List Nat) : Prop :=
  ∀ k ∈ Finset.Icc lo hi, ∀ o ∈ P k, 2 ^ k ∣ o

/-- No block below the top order lies in the pool together with its buddy. -/
def Coarse (lo hi : Nat) (P : Nat → List Nat) : Prop :=
  ∀ k, lo ≤ k → k < hi → ∀ o ∈ P k, o ^^^ 2 ^ k ∉ P k

/-- **A covered aligned region is inside one block** of a coarse pool. -/
theorem inside_one_block (ha : AlignedPool lo hi P) (hs : Coarse lo hi P)
    (hk : k ∈ Finset.Icc lo hi) (ho : 2 ^ k ∣ o)
    (hcov : ∀ x, ind x o k = 1 → 0 < coverPool lo hi P x) :
    ∃ j ∈ Finset.Icc k hi, ∃ c ∈ P j, c ≤ o ∧ o + 2 ^ k ≤ c + 2 ^ j := by
  obtain ⟨hlo, hhi⟩ := Finset.mem_Icc.mp hk
  -- on the order, from the bottom; a block that is too small leads to the two halves
  induction k, hlo using Nat.le_induction generalizing o with
  | base =>
      have hx : ind o o lo = 1 := ind_eq_one_iff.mpr ⟨le_refl o, by have := Nat.two_pow_pos lo; omega⟩
      obtain ⟨j, hj, c, hc, hxc⟩ := exists_block (hcov o hx)
      obtain ⟨hj₁, hj₂⟩ := Finset.mem_Icc.mp hj
      exact ⟨j, hj, c, hc, inside_of_meet hj₁ ho (ha j hj c hc) hx hxc⟩
  | succ k hlo ih =>
      have hk' : k ∈ Finset.Icc lo hi := Finset.mem_Icc.mpr ⟨hlo, by omega⟩
      have hpos : 0 < 2 ^ k := Nat.two_pow_pos k
      have htwo : 2 ^ (k + 1) = 2 ^ k + 2 ^ k := by ring
      have hdvd : 2 ^ k ∣ o := (pow_dvd_pow 2 (Nat.le_succ k)).trans ho
      have hleft : ∀ x, ind x o k = 1 → ind x o (k + 1) = 1 := by
        intro x hx
        have := ind_eq_one_iff.mp hx
        exact ind_eq_one_iff.mpr ⟨by omega, by omega⟩
      have hright : ∀ x, ind x (o + 2 ^ k) k = 1 → ind x o (k + 1) = 1 := by
        intro x hx
        have := ind_eq_one_iff.mp hx
        exact ind_eq_one_iff.mpr ⟨by omega, by omega⟩
      obtain ⟨j₁, hj₁, c₁, hc₁, hle₁, hend₁⟩ :=
        ih hk' hdvd (fun x hx => hcov x (hleft x hx)) (by omega)
      obtain ⟨j₂, hj₂, c₂, hc₂, hle₂, hend₂⟩ :=
        ih hk' (hdvd.add (dvd_refl _)) (fun x hx => hcov x (hright x hx)) (by omega)
      obtain ⟨hkj₁, hhi₁⟩ := Finset.mem_Icc.mp hj₁
      obtain ⟨hkj₂, hhi₂⟩ := Finset.mem_Icc.mp hj₂
      -- a block of the next order that holds a half holds the region
      have hwide : ∀ j c, k + 1 ≤ j → j ≤ hi → c ∈ P j → ∀ x, ind x o (k + 1) = 1 →
          ind x c j = 1 → ∃ j ∈ Finset.Icc (k + 1) hi, ∃ c ∈ P j,
            c ≤ o ∧ o + 2 ^ (k + 1) ≤ c + 2 ^ j := by
        intro j c hj hj' hc x hxo hxc
        exact ⟨j, Finset.mem_Icc.mpr ⟨hj, hj'⟩, c, hc, inside_of_meet hj ho
          (ha j (Finset.mem_Icc.mpr ⟨by omega, hj'⟩) c hc) hxo hxc⟩
      rcases Nat.lt_or_ge k j₁ with hlt₁ | hge₁
      · exact hwide j₁ c₁ hlt₁ hhi₁ hc₁ o (ind_eq_one_iff.mpr ⟨by omega, by omega⟩)
          (ind_eq_one_iff.mpr ⟨by omega, by omega⟩)
      rcases Nat.lt_or_ge k j₂ with hlt₂ | hge₂
      · exact hwide j₂ c₂ hlt₂ hhi₂ hc₂ (o + 2 ^ k) (ind_eq_one_iff.mpr ⟨by omega, by omega⟩)
          (ind_eq_one_iff.mpr ⟨by omega, by omega⟩)
      -- otherwise the two halves are blocks, and they are buddies
      obtain rfl : j₁ = k := by omega
      obtain rfl : j₂ = j₁ := by omega
      obtain rfl : c₁ = o := by omega
      obtain rfl : c₂ = c₁ + 2 ^ j₂ := by omega
      refine absurd hc₂ ?_
      rw [← xor_pow_of_dvd ho]
      exact hs j₂ hlo (by omega) c₁ hc₁

/-- **The bytes determine a coarse pool.** -/
theorem pool_canonical {Q : Nat → List Nat} (haP : AlignedPool lo hi P) (hsP : Coarse lo hi P)
    (haQ : AlignedPool lo hi Q) (hsQ : Coarse lo hi Q)
    (hcov : ∀ x, coverPool lo hi P x = coverPool lo hi Q x)
    (hone : ∀ x, coverPool lo hi P x ≤ 1) (hk : k ∈ Finset.Icc lo hi) (ho : o ∈ P k) : o ∈ Q k := by
  have hpos : 0 < 2 ^ k := Nat.two_pow_pos k
  -- the block is inside a block of `Q`, and that one inside a block of `P`
  obtain ⟨j, hj, c, hc, hle, hend⟩ := inside_one_block haQ hsQ hk (haP k hk o ho) fun x hx => by
    rw [← hcov]
    exact Nat.lt_of_lt_of_le (hx ▸ Nat.one_pos) (ind_le_coverPool hk ho)
  obtain ⟨hkj, hj'⟩ := Finset.mem_Icc.mp hj
  have hjI : j ∈ Finset.Icc lo hi :=
    Finset.mem_Icc.mpr ⟨(Finset.mem_Icc.mp hk).1.trans hkj, hj'⟩
  obtain ⟨i, hi', d, hd, hle', hend'⟩ := inside_one_block haP hsP hjI (haQ j hjI c hc) fun x hx => by
    rw [hcov]
    exact Nat.lt_of_lt_of_le (hx ▸ Nat.one_pos) (ind_le_coverPool hjI hc)
  obtain ⟨hji, hii⟩ := Finset.mem_Icc.mp hi'
  have hiI : i ∈ Finset.Icc lo hi :=
    Finset.mem_Icc.mpr ⟨(Finset.mem_Icc.mp hjI).1.trans hji, hii⟩
  obtain ⟨rfl, rfl⟩ := pool_unique (hone o) hk ho hiI hd (ind_eq_one_iff.mpr ⟨le_refl o, by omega⟩)
    (ind_eq_one_iff.mpr ⟨by omega, by omega⟩)
  obtain rfl : j = k := by omega
  obtain rfl : c = o := by omega
  exact hc

end TP2Kernel
