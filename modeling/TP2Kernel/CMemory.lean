/-
TP2Kernel/CMemory.lean

Memory as a C program sees it: a byte at every address, an `int` in four of
them with the lowest first, strings that end in a NUL, and loops that run for a
bounded number of rounds.

Addresses are integers, so that an index below zero is an address like any
other.  What a piece of code leaves alone is an instance of `Set.EqOn`:
`Set.EqOn m' m (outside lo hi)` says that all changes lie in `[lo, hi)`.
-/
import Mathlib.Data.Set.Function
import Mathlib.Algebra.Ring.Int.Defs
import Mathlib.Algebra.GroupWithZero.Nat

namespace TP2Kernel

/-- The byte stored at each address. -/
abbrev ByteMem := Int → UInt8

/-! ### Where a change lies -/

/-- The addresses that are not in `[lo, hi)`. -/
def outside (lo hi : Int) : Set Int := {x | x < lo ∨ hi ≤ x}

section Frames

variable {m m₁ m₂ : ByteMem} {lo hi : Int}

theorem eqOn_outside :
    Set.EqOn m₁ m (outside lo hi) ↔ ∀ x, x < lo ∨ hi ≤ x → m₁ x = m x := Iff.rfl

/-- A frame may be widened. -/
theorem eqOn_widen {lo' hi' : Int} (h : Set.EqOn m₁ m (outside lo hi)) (hlo : lo' ≤ lo)
    (hhi : hi ≤ hi') : Set.EqOn m₁ m (outside lo' hi') := by
  rw [eqOn_outside] at h ⊢
  intro x hx
  apply h
  omega

/-- Two changes in the same place, one after the other. -/
theorem eqOn_chain (h₁ : Set.EqOn m₁ m (outside lo hi))
    (h₂ : Set.EqOn m₂ m₁ (outside lo hi)) : Set.EqOn m₂ m (outside lo hi) :=
  h₂.trans h₁

theorem eqOn_update {a : Int} (c : UInt8) (hlo : lo ≤ a) (hhi : a < hi) :
    Set.EqOn (Function.update m a c) m (outside lo hi) := by
  rw [eqOn_outside]
  intro x hx
  apply Function.update_of_ne
  omega

end Frames

namespace ByteMem

/-! ### Integers of four bytes -/

/-- The four bytes from `a` upwards as a number. -/
def readNat (m : ByteMem) (a : Int) : Nat :=
  (m a).toNat + 2 ^ 8 * (m (a + 1)).toNat + 2 ^ 16 * (m (a + 2)).toNat +
    2 ^ 24 * (m (a + 3)).toNat

/-- The `int` at `a`, with its sign in the highest byte. -/
@[irreducible] def readInt (m : ByteMem) (a : Int) : Int :=
  if (m (a + 3)).toNat < 128 then (m.readNat a : Int) else (m.readNat a : Int) - (2 ^ 32 : Nat)

/-- Byte `k` of an `int`. -/
def intByte (v : Int) (k : Nat) : UInt8 := UInt8.ofNat ((v % (2 ^ 32 : Nat)).toNat / 2 ^ (8 * k))

/-- Store an `int` at `a`. -/
@[irreducible] def writeInt (m : ByteMem) (a v : Int) : ByteMem := fun x =>
  if a ≤ x ∧ x < a + 4 then intByte v (x - a).toNat else m x

variable {m m' : ByteMem} {a b v : Int}

theorem writeInt_eqOn (m : ByteMem) (v : Int) {lo hi : Int} (hlo : lo ≤ a) (hhi : a + 4 ≤ hi) :
    Set.EqOn (m.writeInt a v) m (outside lo hi) := by
  rw [eqOn_outside]
  intro x hx
  unfold writeInt
  exact if_neg (by omega)

theorem readInt_congr (h : ∀ x, a ≤ x → x < a + 4 → m' x = m x) : m'.readInt a = m.readInt a := by
  unfold readInt readNat
  rw [h a (by omega) (by omega), h (a + 1) (by omega) (by omega), h (a + 2) (by omega) (by omega),
    h (a + 3) (by omega) (by omega)]

theorem readInt_range (m : ByteMem) (a : Int) : -2 ^ 31 ≤ m.readInt a ∧ m.readInt a < 2 ^ 31 := by
  have h0 := (m a).toNat_lt
  have h1 := (m (a + 1)).toNat_lt
  have h2 := (m (a + 2)).toNat_lt
  have h3 := (m (a + 3)).toNat_lt
  unfold readInt readNat
  split
  · omega
  · omega

theorem readInt_eq_bmod (m : ByteMem) (a : Int) : m.readInt a = Int.bmod (m.readNat a) (2 ^ 32) := by
  have h0 := (m a).toNat_lt
  have h1 := (m (a + 1)).toNat_lt
  have h2 := (m (a + 2)).toNat_lt
  have h3 := (m (a + 3)).toNat_lt
  rw [Int.bmod_def]
  unfold readInt readNat
  split
  · rw [if_pos (by omega)]
    omega
  · rw [if_neg (by omega)]
    omega

theorem readInt_zero (h : ∀ x, a ≤ x → x < a + 4 → m x = 0) : m.readInt a = 0 := by
  unfold readInt readNat
  rw [h a (by omega) (by omega), h (a + 1) (by omega) (by omega), h (a + 2) (by omega) (by omega),
    h (a + 3) (by omega) (by omega)]
  rfl

/-- An `int` outside a change is not changed. -/
theorem readInt_of_eqOn {lo hi : Int} (h : Set.EqOn m' m (outside lo hi))
    (ha : a + 4 ≤ lo ∨ hi ≤ a) : m'.readInt a = m.readInt a := by
  rw [eqOn_outside] at h
  apply readInt_congr
  intro x hx hx'
  apply h
  omega

theorem readInt_writeInt_of_ne (h : b + 4 ≤ a ∨ a + 4 ≤ b) :
    (m.writeInt a v).readInt b = m.readInt b :=
  readInt_of_eqOn (writeInt_eqOn m v (le_refl a) (le_refl (a + 4))) h

/-- The four bytes of an `int` make it up again. -/
theorem intByte_sum (v : Int) :
    (((intByte v 0).toNat + 2 ^ 8 * (intByte v 1).toNat + 2 ^ 16 * (intByte v 2).toNat +
      2 ^ 24 * (intByte v 3).toNat : Nat) : Int) = v % (2 ^ 32 : Nat) := by
  have hnn : (((v % (2 ^ 32 : Nat)).toNat : Nat) : Int) = v % (2 ^ 32 : Nat) := by omega
  have hlt : (v % (2 ^ 32 : Nat)).toNat < 2 ^ 32 := by omega
  simp only [intByte, UInt8.toNat_ofNat']
  generalize (v % (2 ^ 32 : Nat)).toNat = u at hnn hlt
  rw [← hnn]
  omega

theorem writeInt_byte (m : ByteMem) (a v : Int) {k : Nat} (hk : k < 4) :
    m.writeInt a v (a + k) = intByte v k := by
  have hin : a ≤ a + k ∧ a + k < a + 4 := by omega
  have hoff : (a + k - a).toNat = k := by omega
  unfold writeInt
  rw [if_pos hin, hoff]

/-- What has been stored is read back, brought into the range of an `int`. -/
theorem readInt_writeInt : (m.writeInt a v).readInt a = Int.bmod v (2 ^ 32) := by
  have h0 : m.writeInt a v a = intByte v 0 := by
    have h := writeInt_byte m a v (k := 0) (by decide)
    rwa [Nat.cast_zero, Int.add_zero] at h
  have h1 : m.writeInt a v (a + 1) = intByte v 1 := writeInt_byte m a v (k := 1) (by decide)
  have h2 : m.writeInt a v (a + 2) = intByte v 2 := writeInt_byte m a v (k := 2) (by decide)
  have h3 : m.writeInt a v (a + 3) = intByte v 3 := writeInt_byte m a v (k := 3) (by decide)
  rw [readInt_eq_bmod]
  unfold readNat
  rw [h0, h1, h2, h3, intByte_sum, Int.emod_bmod]

/-- What is read from memory is in the range of an `int`. -/
theorem bmod_readInt (m : ByteMem) (a : Int) : Int.bmod (m.readInt a) (2 ^ 32) = m.readInt a := by
  have h := readInt_range m a
  exact Int.bmod_eq_of_le (by omega) (by omega)

theorem readInt_writeInt_of_range (h : -2 ^ 31 ≤ v ∧ v < 2 ^ 31) :
    (m.writeInt a v).readInt a = v := by
  rw [readInt_writeInt]
  exact Int.bmod_eq_of_le (by omega) (by omega)

/-! ### Strings -/

/-- The bytes from `a` upwards. -/
def Holds (m : ByteMem) : Int → List UInt8 → Prop
  | _, [] => True
  | a, c :: cs => m a = c ∧ Holds m (a + 1) cs

instance decidableHolds (m : ByteMem) : (a : Int) → (bs : List UInt8) → Decidable (Holds m a bs)
  | _, [] => inferInstanceAs (Decidable True)
  | a, c :: cs =>
      have := decidableHolds m (a + 1) cs
      inferInstanceAs (Decidable (m a = c ∧ Holds m (a + 1) cs))

theorem Holds.congr {bs : List UInt8} (h : ∀ x, a ≤ x → x < a + bs.length → m' x = m x) :
    Holds m' a bs ↔ Holds m a bs := by
  induction bs generalizing a with
  | nil => exact Iff.rfl
  | cons c cs ih =>
      have hlen : ((c :: cs).length : Int) = cs.length + 1 := by simp
      rw [hlen] at h
      simp only [Holds]
      rw [h a (by omega) (by omega), ih fun x hx hx' => h x (by omega) (by omega)]

theorem holds_append {bs cs : List UInt8} :
    m.Holds a (bs ++ cs) ↔ m.Holds a bs ∧ m.Holds (a + bs.length) cs := by
  induction bs generalizing a with
  | nil =>
      simp [Holds]
  | cons c bs ih =>
      have hlen : ((c :: bs).length : Int) = bs.length + 1 := by simp
      rw [List.cons_append, Holds, Holds, ih, hlen, and_assoc]
      rw [show a + 1 + (bs.length : Int) = a + (bs.length + 1) by omega]

end ByteMem

/-- The bytes of a string before its NUL. -/
structure CString where
  bytes : List UInt8
  noNul : 0 ∉ bytes
deriving DecidableEq

/-- The bytes of a string with its NUL. -/
def CString.stored (n : CString) : List UInt8 := n.bytes ++ [0]

theorem CString.stored_length (n : CString) : (n.stored.length : Int) = n.bytes.length + 1 := by
  simp [stored]

/-- Only one string is stored at an address. -/
theorem ByteMem.Holds.unique {m : ByteMem} {a : Int} {n n' : CString} (h : m.Holds a n.stored)
    (h' : m.Holds a n'.stored) : n = n' := by
  obtain ⟨bs, hbs⟩ := n
  obtain ⟨bs', hbs'⟩ := n'
  simp only [CString.stored] at h h'
  simp only [CString.mk.injEq]
  -- the shorter one would put its NUL inside the other
  induction bs generalizing a bs' with
  | nil =>
      cases bs' with
      | nil => rfl
      | cons c' cs' =>
          exact absurd (h.1.symm.trans h'.1) fun he => hbs' (by rw [he]; exact List.mem_cons_self)
  | cons c cs ih =>
      cases bs' with
      | nil =>
          exact absurd (h'.1.symm.trans h.1) fun he => hbs (by rw [he]; exact List.mem_cons_self)
      | cons c' cs' =>
          rw [← h.1, ← h'.1, ih (fun hm => hbs (List.mem_cons_of_mem _ hm)) h.2 cs'
            (fun hm => hbs' (List.mem_cons_of_mem _ hm)) h'.2]

/-! ### Loops -/

section Loops

variable {S : Type*} {c : S → Prop} [DecidablePred c] {f : S → S}

/-- `while (cond) body`, for at most `n` rounds. -/
def loop (cond : S → Prop) [DecidablePred cond] (body : S → S) : Nat → S → S
  | 0, s => s
  | n + 1, s => if cond s then loop cond body n (body s) else s

/-- **The loop rule**: what a round keeps holds when the loop ends. -/
theorem loop_invariant {I : S → Prop} (hf : ∀ s, I s → c s → I (f s)) (n : Nat) {s : S}
    (h : I s) : I (loop c f n s) := by
  induction n generalizing s with
  | zero => exact h
  | succ n ih =>
      rw [loop]
      split
      · rename_i hc
        exact ih (hf s h hc)
      · exact h

/-- **The rule for a loop that counts its rounds**: it ends after the last one. -/
theorem loop_counted {I : Nat → S → Prop} {n : Nat} (hc : ∀ r s, I r s → (c s ↔ r < n))
    (hf : ∀ r s, r < n → I r s → I (r + 1) (f s)) {r rounds : Nat} {s : S} (h : I r s)
    (hr : r ≤ n) (hrounds : n ≤ r + rounds) : I n (loop c f rounds s) := by
  induction rounds generalizing r s with
  | zero =>
      obtain rfl : r = n := le_antisymm hr hrounds
      exact h
  | succ rounds ih =>
      rw [loop]
      split
      · rename_i hcs
        have hlt := (hc r s h).mp hcs
        exact ih (hf r s hlt h) hlt (by omega)
      · rename_i hcs
        obtain rfl : r = n := le_antisymm hr (not_lt.mp fun hlt => hcs ((hc r s h).mpr hlt))
        exact h

end Loops

end TP2Kernel
