/-
TP2Kernel/Paths.lean

Queues threaded through one link function.  `nx` leads from a node to the one
behind it, `none` at the end; a queue keeps its first and its last node.
`Queue nx head tail l` says that the two ends and the links spell the list
`l`.

The edits are stated by what the new links return on the nodes concerned, as
for the two-way lists: `Queue.append` adds a node at the tail, `Queue.pop`
takes the head off, `Queue.erase` takes out any node given its predecessor.
`findPrev` is the walk by which a program finds that predecessor.
-/
import Mathlib.Data.List.Nodup
import Mathlib.Data.List.Induction

namespace TP2Kernel

variable {ι : Type*}

/-! ### Paths -/

/-- Following `nx` from `h` visits `l` and ends. -/
def Path (nx : ι → Option ι) : Option ι → List ι → Prop
  | h, [] => h = none
  | h, x :: l => h = some x ∧ Path nx (nx x) l

variable {nx nx' : ι → Option ι} {h : Option ι} {l : List ι}

theorem Path.head_eq (hp : Path nx h l) : h = l.head? := by
  cases l with
  | nil => exact hp
  | cons x l => exact hp.1

theorem Path.congr (hp : Path nx h l) (hnx : ∀ x ∈ l, nx' x = nx x) : Path nx' h l := by
  induction l generalizing h with
  | nil => exact hp
  | cons x l ih =>
      refine ⟨hp.1, ?_⟩
      rw [hnx x (.head _)]
      exact ih hp.2 fun y hy => hnx y (.tail _ hy)

/-- Replace what follows the first part: only the link of its last node
changes. -/
theorem Path.splice {xs ys zs : List ι} (hp : Path nx h (xs ++ ys)) (hnd : xs.Nodup)
    (hnil : xs = [] → h = zs.head?) (hlast : ∀ p ∈ xs.getLast?, nx' p = zs.head?)
    (hnx : ∀ x ∈ xs, some x ≠ xs.getLast? → nx' x = nx x)
    (hzs : Path nx' zs.head? zs) : Path nx' h (xs ++ zs) := by
  induction xs generalizing h with
  | nil =>
      rw [hnil rfl]
      exact hzs
  | cons x xs ih =>
      refine ⟨hp.1, ?_⟩
      cases xs with
      | nil =>
          have hx := hlast x rfl
          rw [hx]
          exact hzs
      | cons y xs =>
          have hlst : (x :: y :: xs).getLast? = (y :: xs).getLast? := by simp
          have hx : some x ≠ (x :: y :: xs).getLast? := by
            rw [hlst]
            intro he
            exact (List.nodup_cons.mp hnd).1 (List.mem_of_getLast? he.symm)
          rw [hnx x (.head _) hx]
          refine ih hp.2 (List.nodup_cons.mp hnd).2 (fun hn => by cases hn) ?_ ?_
          · rw [← hlst]
            exact hlast
          · intro z hz hne
            exact hnx z (.tail _ hz) (by rw [hlst]; exact hne)

/-! ### Queues -/

/-- The two ends and the links spell `l`. -/
structure Queue (nx : ι → Option ι) (head tail : Option ι) (l : List ι) : Prop where
  path : Path nx head l
  tail_eq : tail = l.getLast?
  nodup : l.Nodup

variable {head tail head' tail' : Option ι}

theorem Queue.nil : Queue nx none none [] := ⟨rfl, rfl, List.nodup_nil⟩

theorem Queue.head_eq (hq : Queue nx head tail l) : head = l.head? := hq.path.head_eq

/-- The queue has no head exactly when it has no tail. -/
theorem Queue.ends (hq : Queue nx head tail l) : head = none ↔ tail = none := by
  rw [hq.head_eq, hq.tail_eq, List.head?_eq_none_iff, List.getLast?_eq_none_iff]

theorem Queue.congr (hq : Queue nx head tail l) (hnx : ∀ x ∈ l, nx' x = nx x) :
    Queue nx' head tail l :=
  ⟨hq.path.congr hnx, hq.tail_eq, hq.nodup⟩

/-- Add a node at the tail. -/
theorem Queue.append {b : ι} (hq : Queue nx head tail l) (hb : b ∉ l) (hend : nx' b = none)
    (hhead : head' = if tail = none then some b else head)
    (hlast : ∀ t ∈ tail, nx' t = some b)
    (hnx : ∀ x ∈ l, some x ≠ tail → nx' x = nx x) :
    Queue nx' head' (some b) (l ++ [b]) := by
  have htail := hq.tail_eq
  refine ⟨?_, by simp, ?_⟩
  · have hp : Path nx head (l ++ []) := by
      rw [List.append_nil]
      exact hq.path
    by_cases hnil : l = []
    · subst hnil
      rw [hhead, htail]
      exact ⟨rfl, hend⟩
    · have hne : tail ≠ none := by
        rw [htail]
        simpa using hnil
      rw [hhead, if_neg hne]
      exact hp.splice hq.nodup (fun hn => absurd hn hnil) (htail ▸ hlast) (htail ▸ hnx)
        ⟨rfl, hend⟩
  · rw [List.nodup_append]
    refine ⟨hq.nodup, by simp, ?_⟩
    intro x hx y hy
    rw [List.mem_singleton] at hy
    rintro rfl
    rw [hy] at hx
    exact hb hx

/-- Take the head off. -/
theorem Queue.pop {x : ι} (hq : Queue nx head tail (x :: l))
    (htail : tail' = if nx x = none then none else tail)
    (hnx : ∀ y ∈ l, nx' y = nx y) : Queue nx' (nx x) tail' l := by
  obtain ⟨-, hp⟩ := hq.path
  refine ⟨hp.congr hnx, ?_, (List.nodup_cons.mp hq.nodup).2⟩
  rw [htail, hq.tail_eq, hp.head_eq]
  cases l with
  | nil => rfl
  | cons y l => simp

/-- Take out a node: its predecessor, or the head, gets its link. -/
theorem Queue.erase [DecidableEq ι] {a : ι} {xs ys : List ι} (hq : Queue nx head tail (xs ++ a :: ys))
    (hhead : head' = if xs.getLast? = none then nx a else head)
    (htail : tail' = if tail = some a then xs.getLast? else tail)
    (hlast : ∀ p ∈ xs.getLast?, nx' p = nx a)
    (hnx : ∀ x ∈ xs ++ ys, some x ≠ xs.getLast? → nx' x = nx x) :
    Queue nx' head' tail' (xs ++ ys) := by
  have hnd := hq.nodup
  have hnd' : (xs ++ ys).Nodup := (List.nodup_cons.mp (List.nodup_middle.mp hnd)).2
  have hxs : xs.Nodup := (List.nodup_append.mp hnd').1
  -- the part behind `a` is a path from the link of `a`
  have hys : Path nx (nx a) ys := by
    have hp := hq.path
    clear hnd hnd' hxs hlast hnx hhead htail hq
    induction xs generalizing head with
    | nil => exact hp.2
    | cons x xs ih => exact ih hp.2
  have hya : nx a = ys.head? := hys.head_eq
  have hys' : Path nx' ys.head? ys := by
    rw [← hya]
    refine hys.congr fun y hy => hnx y (List.mem_append_right _ hy) fun he => ?_
    exact List.disjoint_of_nodup_append hnd' (List.mem_of_getLast? he.symm) hy
  refine ⟨?_, ?_, hnd'⟩
  · by_cases hnil : xs = []
    · subst hnil
      rw [hhead, if_pos (by simp), hya]
      exact hys'
    · rw [hhead, if_neg (by simpa using hnil)]
      refine hq.path.splice hxs (fun hn => absurd hn hnil) ?_ ?_ hys'
      · intro p hp
        rw [hlast p hp, hya]
      · intro x hx hne
        exact hnx x (List.mem_append_left _ hx) hne
  · rw [htail, hq.tail_eq]
    cases ys using List.reverseRecOn with
    | nil => simp
    | append_singleton ys z =>
        have hza : z ≠ a := by
          rintro rfl
          rw [List.nodup_middle, List.nodup_cons] at hnd
          exact hnd.1 (by simp)
        have h₁ : (xs ++ a :: (ys ++ [z])).getLast? = some z := by
          rw [← List.cons_append, ← List.append_assoc, List.getLast?_concat]
        have h₂ : (xs ++ (ys ++ [z])).getLast? = some z := by
          rw [← List.append_assoc, List.getLast?_concat]
        rw [h₁, h₂, if_neg fun he => hza (Option.some.inj he)]

/-! ### Finding the predecessor -/

/-- Walk from `cur` to `a`, remembering the node before.  The outer `none` is
a walk of more than `fuel` steps, the inner one a walk that ends without
`a`. -/
def findPrev [DecidableEq ι] (nx : ι → Option ι) (a : ι) :
    Nat → Option ι → Option ι → Option (Option (Option ι))
  | 0, _, _ => none
  | fuel + 1, prev, cur =>
      match cur with
      | none => some none
      | some c => if c = a then some (some prev) else findPrev nx a fuel (some c) (nx c)

theorem findPrev_path [DecidableEq ι] {a : ι} {xs ys : List ι} {fuel : Nat} {prev : Option ι}
    (hp : Path nx h (xs ++ a :: ys)) (ha : a ∉ xs) (hf : xs.length < fuel) :
    findPrev nx a fuel prev h = some (some (xs.getLast?.or prev)) := by
  induction xs generalizing h fuel prev with
  | nil =>
      obtain ⟨fuel, rfl⟩ := Nat.exists_eq_add_one_of_ne_zero (Nat.ne_zero_of_lt hf)
      rw [hp.1, findPrev]
      simp
  | cons x xs ih =>
      obtain ⟨fuel, rfl⟩ := Nat.exists_eq_add_one_of_ne_zero (Nat.ne_zero_of_lt hf)
      have hx : x ≠ a := fun e => ha (e ▸ List.mem_cons_self)
      rw [hp.1, findPrev]
      simp only [hx, if_false]
      rw [ih hp.2 (fun hm => ha (.tail _ hm)) (by simpa using hf)]
      cases xs using List.reverseRecOn with
      | nil => simp
      | append_singleton xs z =>
          rw [← List.cons_append, List.getLast?_concat, List.getLast?_concat]
          rfl

/-! ### Reading a path -/

/-- The nodes met from `h` on, at most as many as the fuel. -/
def walk (nx : ι → Option ι) : Nat → Option ι → List ι
  | 0, _ => []
  | fuel + 1, h =>
      match h with
      | none => []
      | some x => x :: walk nx fuel (nx x)

theorem walk_path {fuel : Nat} (hp : Path nx h l) (hf : l.length ≤ fuel) : walk nx fuel h = l := by
  induction l generalizing h fuel with
  | nil =>
      obtain rfl : h = none := hp
      cases fuel <;> rfl
  | cons x l ih =>
      obtain ⟨rfl, hrest⟩ := hp
      cases fuel with
      | zero => cases hf
      | succ fuel => exact congrArg (x :: ·) (ih hrest (Nat.le_of_succ_le_succ hf))

end TP2Kernel
