/-
TP2Kernel/HeapClient.lean

The client side of a heap manager.  A manager is given by its two calls and by
what a store into memory does to its state; a session is the manager's state
together with the pointers the client holds and the sizes it asked for.  Which
calls a client may make is a contract of the manager, so it is a parameter.
-/
import TP2Kernel.Runs
import Mathlib.Data.List.Forall2

namespace TP2Kernel

/-- The calls of a heap manager with states `H`.  An allocation answers with a
pointer, `0` for none; `none` is a call that does not come to an end. -/
structure Manager (H : Type) where
  alloc : H → Nat → Option (Nat × H)
  free : H → Nat → Option H
  store : H → Nat → Nat → H

/-- The manager's state and the pointers held by the client, each with the size
it asked for. -/
structure Session (H : Type) where
  heap : H
  live : List (Nat × Nat)

/-- What a client does: the two calls, and stores through a pointer it
holds. -/
inductive HeapOp
  | alloc (size : Nat)
  | free (ptr : Nat)
  | store (addr value : Nat)

/-- The store stays inside a payload the client holds. -/
def InPayload {H : Type} (σ : Session H) (addr : Nat) : Prop :=
  ∃ q ∈ σ.live, q.1 ≤ addr ∧ addr + 8 ≤ q.1 + q.2

instance {H : Type} (σ : Session H) (addr : Nat) : Decidable (InPayload σ addr) :=
  inferInstanceAs (Decidable (∃ q ∈ σ.live, _ ∧ _))

namespace Manager

variable {H : Type}

/-- Run one client operation. -/
def exec (M : Manager H) (σ : Session H) : HeapOp → Option (Session H)
  | .alloc size =>
      (M.alloc σ.heap size).map fun r =>
        ⟨r.2, if r.1 = 0 then σ.live else (r.1, size) :: σ.live⟩
  | .free ptr =>
      (M.free σ.heap ptr).map fun h => ⟨h, σ.live.filter fun q => q.1 ≠ ptr⟩
  | .store addr value => some ⟨M.store σ.heap addr value, σ.live⟩

/-- The client's machine under a contract. -/
def client (M : Manager H) (allowed : Session H → HeapOp → Prop) : Machine (Session H) HeapOp where
  guard := allowed
  step := M.exec

instance (M : Manager H) (allowed : Session H → HeapOp → Prop)
    [∀ σ op, Decidable (allowed σ op)] (σ : Session H) (op : HeapOp) :
    Decidable ((M.client allowed).guard σ op) :=
  inferInstanceAs (Decidable (allowed σ op))

variable {M : Manager H} {σ : Session H} {h : H} {ptr size : Nat}

theorem exec_alloc_null (he : M.alloc σ.heap size = some (0, h)) :
    M.exec σ (.alloc size) = some ⟨h, σ.live⟩ := by
  rw [exec, he, Option.map_some, if_pos rfl]

theorem exec_alloc (he : M.alloc σ.heap size = some (ptr, h)) (hp : ptr ≠ 0) :
    M.exec σ (.alloc size) = some ⟨h, (ptr, size) :: σ.live⟩ := by
  rw [exec, he, Option.map_some, if_neg hp]

theorem exec_free (he : M.free σ.heap ptr = some h) :
    M.exec σ (.free ptr) = some ⟨h, σ.live.filter fun q => q.1 ≠ ptr⟩ := by
  rw [exec, he, Option.map_some]

end Manager

end TP2Kernel
