/-
TP2Kernel/Tiling.lean

Consecutive placement.  A list of pieces, each with a width given by `span`,
is laid out one after the other from a base address; `place` pairs every piece
with the address it starts at.

The two facts everything else rests on are `mem_place_iff` (a placed piece is
a split of the list, its address the extent of the part before it) and
`place_pairwise` (pieces come in address order and do not overlap).
-/
import Mathlib.Algebra.GroupWithZero.Nat
import Mathlib.Data.List.Basic
import Mathlib.Data.List.Chain

namespace TP2Kernel

variable {α : Type*} (span : α → Nat)

/-! ### Extent and placement -/

/-- Total width of a list of pieces. -/
def extent (bs : List α) : Nat := (bs.map span).sum

/-- The pieces with the addresses they start at. -/
def place : Nat → List α → List (Nat × α)
  | _, [] => []
  | a, b :: bs => (a, b) :: place (a + span b) bs

@[simp] theorem extent_nil : extent span [] = 0 := rfl

@[simp] theorem extent_cons (b : α) (bs : List α) :
    extent span (b :: bs) = span b + extent span bs := by
  simp [extent]

@[simp] theorem extent_append (xs ys : List α) :
    extent span (xs ++ ys) = extent span xs + extent span ys := by
  simp [extent]

@[simp] theorem place_nil (a : Nat) : place span a [] = [] := rfl

@[simp] theorem place_cons (a : Nat) (b : α) (bs : List α) :
    place span a (b :: bs) = (a, b) :: place span (a + span b) bs := rfl

theorem place_append (a : Nat) (xs ys : List α) :
    place span a (xs ++ ys) = place span a xs ++ place span (a + extent span xs) ys := by
  induction xs generalizing a with
  | nil => simp
  | cons x xs ih =>
      simp only [List.cons_append, place_cons, ih, extent_cons]
      rw [Nat.add_assoc]

variable {span}

/-- A piece is placed at `x` exactly when the list splits there. -/
theorem mem_place_iff {a x : Nat} {b : α} {bs : List α} :
    (x, b) ∈ place span a bs ↔
      ∃ pre post, bs = pre ++ b :: post ∧ x = a + extent span pre := by
  constructor
  · intro h
    induction bs generalizing a with
    | nil => simp at h
    | cons c bs ih =>
        rcases List.mem_cons.mp h with h | h
        · obtain ⟨rfl, rfl⟩ := Prod.mk.injEq .. ▸ h
          exact ⟨[], bs, rfl, by simp⟩
        · obtain ⟨pre, post, rfl, hx⟩ := ih h
          exact ⟨c :: pre, post, rfl, by simp only [extent_cons]; omega⟩
  · rintro ⟨pre, post, rfl, rfl⟩
    rw [place_append]
    simp

/-- A placed piece lies inside the region it was placed in. -/
theorem place_bounds {a x : Nat} {b : α} {bs : List α} (h : (x, b) ∈ place span a bs) :
    a ≤ x ∧ x + span b ≤ a + extent span bs := by
  obtain ⟨pre, post, rfl, rfl⟩ := mem_place_iff.mp h
  simp only [extent_append, extent_cons]
  omega

/-- Pieces are placed in address order, one ending before the next begins. -/
theorem place_pairwise (a : Nat) (bs : List α) :
    (place span a bs).Pairwise fun p q => p.1 + span p.2 ≤ q.1 := by
  induction bs generalizing a with
  | nil => simp
  | cons b bs ih =>
      rw [place_cons, List.pairwise_cons]
      exact ⟨fun q hq => (place_bounds (b := q.2) hq).1, ih _⟩

/-- Two placed pieces are the same or one ends before the other begins. -/
theorem place_disjoint {a x y : Nat} {b c : α} {bs : List α}
    (hb : (x, b) ∈ place span a bs) (hc : (y, c) ∈ place span a bs) :
    (x, b) = (y, c) ∨ x + span b ≤ y ∨ y + span c ≤ x := by
  obtain ⟨i, hi, ei⟩ := List.getElem_of_mem hb
  obtain ⟨j, hj, ej⟩ := List.getElem_of_mem hc
  have hp := List.pairwise_iff_getElem.mp (@place_pairwise α span a bs)
  rcases Nat.lt_trichotomy i j with hij | rfl | hij
  · have := hp i j hi hj hij
    rw [ei, ej] at this
    exact .inr (.inl this)
  · exact .inl (ei.symm.trans ej)
  · have := hp j i hj hi hij
    rw [ei, ej] at this
    exact .inr (.inr this)

/-- With positive widths a start address determines its piece. -/
theorem place_unique {a x : Nat} {b c : α} {bs : List α} (hpos : ∀ d, 0 < span d)
    (hb : (x, b) ∈ place span a bs) (hc : (x, c) ∈ place span a bs) : b = c := by
  rcases place_disjoint hb hc with h | h | h
  · exact (Prod.mk.inj h).2
  · have := hpos b; omega
  · have := hpos c; omega

/-! ### Canonical tilings -/

/-- What is placed behind the first block of a tiling. -/
theorem mem_place_tail {a x : Nat} {b c : α} {bs : List α} (h : (x, c) ∈ place span a (b :: bs))
    (hx : x ≠ a) : (x, c) ∈ place span (a + span b) bs := by
  rcases List.mem_cons.mp h with he | ht
  · exact absurd (Prod.mk.inj he).1 hx
  · exact ht

section Canonical

variable {used : α → Prop} (hpos : ∀ b, 0 < span b)
include hpos

/-- What is placed at the start of a tiling. -/
theorem mem_place_head {a : Nat} {b c : α} {bs : List α} (h : (a, c) ∈ place span a (b :: bs)) :
    c = b := by
  rcases List.mem_cons.mp h with he | ht
  · exact (Prod.mk.inj he).2
  · have hle := (place_bounds ht).1
    have := hpos b
    omega

/-- A gap at the start reaches as far as the gap at the start of a tiling with
the same used blocks: what comes next is used, and the other tiling has it too. -/
theorem gap_le {a : Nat} {b c : α} {bs cs : List α} (hgap : ¬ used b)
    (hb : (b :: bs).IsChain fun b c => used b ∨ used c)
    (hext : extent span (b :: bs) = extent span (c :: cs))
    (hused : ∀ x d, used d → (x, d) ∈ place span a (b :: bs) → (x, d) ∈ place span a (c :: cs)) :
    span c ≤ span b := by
  cases bs with
  | nil =>
      simp only [extent_cons, extent_nil] at hext
      omega
  | cons d ds =>
      have hd : used d := (List.isChain_cons_cons.mp hb).1.resolve_left hgap
      have hmem : (a + span b, d) ∈ place span a (b :: d :: ds) := by simp
      have htail := mem_place_tail (hused _ d hd hmem) (by have := hpos b; omega)
      have := (place_bounds htail).1
      omega

/-- **Canonical form**: two tilings of one extent, with the same used blocks and no
two gaps side by side, are the same, if gaps of one span are. -/
theorem place_canonical (hgap : ∀ b c, ¬ used b → ¬ used c → span b = span c → b = c)
    {a : Nat} {bs cs : List α} (hb : bs.IsChain fun b c => used b ∨ used c)
    (hc : cs.IsChain fun b c => used b ∨ used c) (hext : extent span bs = extent span cs)
    (hused : ∀ x d, used d → ((x, d) ∈ place span a bs ↔ (x, d) ∈ place span a cs)) :
    bs = cs := by
  induction bs generalizing cs a with
  | nil =>
      cases cs with
      | nil => rfl
      | cons c cs =>
          have := hpos c
          simp only [extent_nil, extent_cons] at hext
          omega
  | cons b bs ih =>
      cases cs with
      | nil =>
          have := hpos b
          simp only [extent_nil, extent_cons] at hext
          omega
      | cons c cs =>
          have hbc : b = c := by
            by_cases hub : used b
            · exact mem_place_head hpos ((hused a b hub).mp (by simp))
            · by_cases huc : used c
              · exact (mem_place_head hpos ((hused a c huc).mpr (by simp))).symm
              · apply hgap b c hub huc
                have hle := gap_le hpos hub hb hext fun x d hd => (hused x d hd).mp
                have hge := gap_le hpos huc hc hext.symm fun x d hd => (hused x d hd).mpr
                omega
          subst hbc
          have hrest : bs = cs := by
            apply ih (a := a + span b) (List.isChain_cons.mp hb).2 (List.isChain_cons.mp hc).2
            · simp only [extent_cons] at hext
              omega
            · intro x d hd
              have hcons : ∀ ds : List α, (x, d) ∈ place span (a + span b) ds ↔
                  (x, d) ∈ place span a (b :: ds) ∧ x ≠ a := by
                intro ds
                constructor
                · intro h
                  have := (place_bounds h).1
                  have := hpos b
                  exact ⟨List.mem_cons_of_mem _ h, by omega⟩
                · rintro ⟨h, hx⟩
                  exact mem_place_tail h hx
              rw [hcons, hcons, hused x d hd]
          rw [hrest]

end Canonical

end TP2Kernel
