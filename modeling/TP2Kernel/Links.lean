/-
TP2Kernel/Links.lean

Doubly linked lists through two link functions.  `nx` leads forward and `pv`
back; one value `s` marks both ends, and `nx s` is the head of the list.  A
list `l` is threaded through the links when every two consecutive nodes of
`s, l, s` point to each other (`Ring`).  Where a program keeps the head in a
variable of its own and stops at a null pointer, `s` is the null pointer and
`nx s` reads that variable.

The two edits, `Ring.push` and `Ring.unlink`, are stated by what the new link
functions return on the nodes concerned, so that they apply to links read from
memory after a handful of stores.
-/
import Mathlib.Data.List.Nodup

namespace TP2Kernel

variable {ι : Type*}

/-! ### Consecutive links -/

/-- Consecutive nodes point to each other; the end mark has no back link. -/
def Linked (s : ι) (nx pv : ι → ι) : List ι → Prop
  | x :: y :: l => nx x = y ∧ (y ≠ s → pv y = x) ∧ Linked s nx pv (y :: l)
  | _ => True

variable {s : ι} {nx pv nx' pv' : ι → ι}

theorem linked_cons_cons {x y : ι} {l : List ι} :
    Linked s nx pv (x :: y :: l) ↔
      nx x = y ∧ (y ≠ s → pv y = x) ∧ Linked s nx pv (y :: l) := Iff.rfl

/-- Both halves share the node at the seam. -/
theorem linked_append {x : ι} {l₁ l₂ : List ι} :
    Linked s nx pv (l₁ ++ x :: l₂) ↔
      Linked s nx pv (l₁ ++ [x]) ∧ Linked s nx pv (x :: l₂) := by
  induction l₁ with
  | nil => simp [Linked]
  | cons a l₁ ih =>
      cases l₁ with
      | nil =>
          simp only [List.nil_append, List.cons_append, linked_cons_cons]
          constructor
          · rintro ⟨h₁, h₂, h₃⟩
            exact ⟨⟨h₁, h₂, trivial⟩, h₃⟩
          · rintro ⟨⟨h₁, h₂, -⟩, h₃⟩
            exact ⟨h₁, h₂, h₃⟩
      | cons b l₁ =>
          simp only [List.cons_append, linked_cons_cons] at ih ⊢
          rw [ih, and_assoc, and_assoc]

/-- Only forward links of all nodes but the last and back links of all nodes
but the first are read. -/
theorem Linked.congr {l : List ι} (h : Linked s nx pv l)
    (hnx : ∀ x ∈ l.dropLast, nx' x = nx x) (hpv : ∀ y ∈ l.tail, y ≠ s → pv' y = pv y) :
    Linked s nx' pv' l := by
  induction l with
  | nil => trivial
  | cons x l ih =>
      cases l with
      | nil => trivial
      | cons y l =>
          obtain ⟨h₁, h₂, h₃⟩ := h
          refine ⟨?_, fun hy => ?_, ih h₃ ?_ ?_⟩
          · rw [hnx x (by simp)]; exact h₁
          · rw [hpv y (by simp) hy]; exact h₂ hy
          · intro z hz
            exact hnx z (by simp [hz])
          · intro z hz
            exact hpv z (by simp only [List.tail_cons] at hz ⊢; exact .tail _ hz)

/-! ### Rings -/

/-- `l` is threaded through the links from `nx s` to the end mark. -/
structure Ring (s : ι) (nx pv : ι → ι) (l : List ι) : Prop where
  linked : Linked s nx pv (s :: (l ++ [s]))
  nodup : (s :: l).Nodup

theorem Ring.nil (h : nx s = s) : Ring s nx pv [] :=
  ⟨⟨h, fun hs => absurd rfl hs, trivial⟩, by simp⟩

/-- One step along the list. -/
theorem linked_next {x : ι} {l : List ι} (h : Linked s nx pv (x :: (l ++ [s]))) :
    nx x = l.headD s ∧ Linked s nx pv (l ++ [s]) := by
  cases l with
  | nil => exact ⟨h.1, h.2.2⟩
  | cons y l => exact ⟨h.1, h.2.2⟩

/-- The head of the list. -/
theorem Ring.head {l : List ι} (h : Ring s nx pv l) : nx s = l.headD s :=
  (linked_next h.linked).1

theorem Ring.congr {l : List ι} (h : Ring s nx pv l)
    (hnx : ∀ x ∈ s :: l, nx' x = nx x) (hpv : ∀ y ∈ l, pv' y = pv y) :
    Ring s nx' pv' l := by
  refine ⟨h.linked.congr ?_ ?_, h.nodup⟩
  · intro x hx
    rw [← List.cons_append, List.dropLast_concat] at hx
    exact hnx x hx
  · intro y hy hys
    rw [List.tail_cons, List.mem_append, List.mem_singleton] at hy
    exact hpv y (hy.resolve_right hys)

/-- Insert a node in front. -/
theorem Ring.push {l : List ι} {b : ι} (h : Ring s nx pv l) (hb : b ∉ s :: l)
    (hnb : nx' b = nx s) (hns : nx' s = b) (hpb : pv' b = s)
    (hhead : nx s ≠ s → pv' (nx s) = b)
    (hnx : ∀ x ∈ l, nx' x = nx x) (hpv : ∀ y ∈ l, y ≠ nx s → pv' y = pv y) :
    Ring s nx' pv' (b :: l) := by
  have hnd := h.nodup
  refine ⟨⟨hns, fun _ => hpb, ?_⟩, ?_⟩
  · -- the rest starts at the old head
    have hl := h.linked
    have hh := h.head
    cases l with
    | nil =>
        refine ⟨by rw [hnb]; exact hl.1, fun hs => absurd rfl hs, trivial⟩
    | cons a l =>
        have ha : nx s = a := hl.1
        have has : a ≠ s := by
          rintro rfl
          simp at hnd
        refine ⟨by rw [hnb, ha], fun _ => by rw [← ha]; exact hhead (by rwa [ha]), ?_⟩
        refine Linked.congr (l := (a :: l) ++ [s]) hl.2.2 ?_ ?_
        · intro x hx
          rw [List.dropLast_concat] at hx
          exact hnx x hx
        · intro y hy hys
          rw [List.cons_append, List.tail_cons, List.mem_append, List.mem_singleton] at hy
          have hyl := hy.resolve_right hys
          refine hpv y (.tail _ hyl) ?_
          rw [ha]
          rintro rfl
          simp only [List.nodup_cons] at hnd
          exact hnd.2.1 hyl
  · rw [List.nodup_cons] at hnd ⊢
    simp only [List.mem_cons, not_or] at hb ⊢
    exact ⟨⟨fun e => hb.1 e.symm, hnd.1⟩, List.nodup_cons.mpr ⟨hb.2, hnd.2⟩⟩

/-- The neighbours of a node. -/
theorem Ring.neighbours {a : ι} {xs ys : List ι} (h : Ring s nx pv (xs ++ a :: ys)) :
    pv a = (s :: xs).getLast (by simp) ∧ nx a = ys.headD s := by
  have hl := h.linked
  have ha : a ≠ s := by
    rintro rfl
    have := h.nodup
    simp at this
  rw [List.append_assoc, List.cons_append, ← List.cons_append] at hl
  obtain ⟨us, p, hp⟩ : ∃ us p, s :: xs = us ++ [p] :=
    ⟨_, _, (List.dropLast_append_getLast (by simp)).symm⟩
  have hlast : (s :: xs).getLast (by simp) = p := by simp [hp]
  rw [hlast]
  rw [hp, List.append_assoc, List.singleton_append] at hl
  have h₂ := (linked_append.mp hl).2
  refine ⟨h₂.2.1 ha, ?_⟩
  have h₃ := h₂.2.2
  cases ys with
  | nil => exact h₃.1
  | cons y ys => exact h₃.1

/-- Take `a` out of a path, where the new links agree with the old ones except around
it. -/
theorem Linked.unlink {us vs : List ι} {p a n : ι} (h : Linked s nx pv (us ++ p :: a :: n :: vs))
    (hnp : nx' p = n) (hpn : n ≠ s → pv' n = p)
    (hnx : ∀ x ∈ us ++ (n :: vs).dropLast, nx' x = nx x)
    (hpv : ∀ y ∈ (us ++ [p]).tail ++ vs, y ≠ s → pv' y = pv y) :
    Linked s nx' pv' (us ++ p :: n :: vs) := by
  obtain ⟨hfront, -, -, -, -, hback⟩ := linked_append.mp h
  refine linked_append.mpr ⟨hfront.congr ?_ ?_, hnp, hpn, hback.congr ?_ ?_⟩
  · intro x hx
    rw [List.dropLast_concat] at hx
    exact hnx x (List.mem_append_left _ hx)
  · exact fun y hy hys => hpv y (List.mem_append_left _ hy) hys
  · exact fun x hx => hnx x (List.mem_append_right _ hx)
  · exact fun y hy hys => hpv y (List.mem_append_right _ hy) hys

/-- Take a node out: its neighbours point to each other. -/
theorem Ring.unlink {a : ι} {xs ys : List ι} (h : Ring s nx pv (xs ++ a :: ys))
    (hnp : nx' (pv a) = nx a) (hpn : nx a ≠ s → pv' (nx a) = pv a)
    (hnx : ∀ x ∈ s :: (xs ++ ys), x ≠ pv a → nx' x = nx x)
    (hpv : ∀ y ∈ xs ++ ys, y ≠ nx a → pv' y = pv y) :
    Ring s nx' pv' (xs ++ ys) := by
  obtain ⟨hp, hn⟩ := h.neighbours
  have hl := h.linked
  have hnd : (s :: (xs ++ ys)).Nodup :=
    h.nodup.sublist (.cons_cons s (.append (.refl xs) (.cons a (.refl ys))))
  refine ⟨?_, hnd⟩
  -- `s :: xs` ends in the predecessor
  obtain ⟨us, p, hup⟩ : ∃ us p, s :: xs = us ++ [p] :=
    ⟨_, _, (List.dropLast_append_getLast (by simp)).symm⟩
  have hpp : pv a = p := by rw [hp]; simp [hup]
  have hfront : s :: (xs ++ ys) = us ++ p :: ys := by
    rw [← List.cons_append, hup, List.append_assoc, List.singleton_append]
  have hpnd : p ∉ us ++ ys := by
    have hnd' := hnd
    rw [hfront, List.nodup_middle, List.nodup_cons] at hnd'
    exact hnd'.1
  -- `ys ++ [s]` begins with the successor, which is not among the other nodes
  obtain ⟨n, vs, hnv, hnn, hafter⟩ : ∃ n vs, ys ++ [s] = n :: vs ∧ ys.headD s = n ∧
      ∀ y ∈ xs ++ vs, y ≠ s → y ∈ xs ++ ys ∧ y ≠ n := by
    cases ys with
    | nil => exact ⟨s, [], rfl, rfl, fun y hy hys => ⟨hy, hys⟩⟩
    | cons n ys =>
        refine ⟨n, ys ++ [s], rfl, rfl, fun y hy hys => ?_⟩
        have hmem : y ∈ xs ++ ys := by
          rw [← List.append_assoc, List.mem_append, List.mem_singleton] at hy
          exact hy.resolve_right hys
        have hnd' := (List.nodup_cons.mp hnd).2
        rw [List.nodup_middle, List.nodup_cons] at hnd'
        refine ⟨?_, fun he => hnd'.1 (he ▸ hmem)⟩
        rcases List.mem_append.mp hmem with hy | hy
        · exact List.mem_append_left _ hy
        · exact List.mem_append_right _ (.tail _ hy)
  rw [hn, hnn] at hnp hpn hpv
  rw [hpp] at hnp hpn hnx
  rw [List.append_assoc, List.cons_append, hnv, ← List.cons_append, hup, List.append_assoc] at hl
  rw [List.append_assoc, hnv, ← List.cons_append, hup, List.append_assoc]
  refine Linked.unlink (a := a) hl hnp hpn (fun x hx => ?_) fun y hy hys => ?_
  · rw [← hnv, List.dropLast_concat] at hx
    refine hnx x ?_ fun he => hpnd (he ▸ hx)
    rw [hfront]
    exact List.mem_append.mpr ((List.mem_append.mp hx).imp_right (.tail _))
  · rw [← hup] at hy
    obtain ⟨hmem, hne⟩ := hafter y hy hys
    exact hpv y hmem hne

end TP2Kernel
