/-
TP2Kernel/Words.lean

Machine words as natural numbers.  A 64-bit register holds a `Nat` below
`2 ^ 64`; every arithmetic result is brought back into range by `w64`, so a
wrap-around is visible in the model as a `%` and is discharged by a bound
wherever the program cannot reach it.

Memory is a map from byte addresses to the word stored there.  Only the cell
that starts at an address is modelled, which is exact for a program whose
accesses all lie on one 8-byte grid.
-/
import Mathlib.Logic.Function.Basic
import Mathlib.Data.Nat.Bitwise

namespace TP2Kernel

/-! ### Wrap-around arithmetic -/

/-- Bring a result back into 64 bits. -/
def w64 (n : Nat) : Nat := n % 2 ^ 64

theorem w64_of_lt {n : Nat} (h : n < 2 ^ 64) : w64 n = n :=
  Nat.mod_eq_of_lt h

theorem w64_lt (n : Nat) : w64 n < 2 ^ 64 :=
  Nat.mod_lt _ (by decide)

/-- 64-bit subtraction of two words. -/
def sub64 (a b : Nat) : Nat := w64 (a + 2 ^ 64 - b)

theorem sub64_of_le {a b : Nat} (hb : b ≤ a) (ha : a < 2 ^ 64) :
    sub64 a b = a - b := by
  unfold sub64 w64
  have : a + 2 ^ 64 - b = (a - b) + 2 ^ 64 := by omega
  rw [this, Nat.add_mod_right]
  exact Nat.mod_eq_of_lt (by omega)

/-- Clearing the low `k` bits of a `w`-bit word rounds it down to a multiple
of `2 ^ k`. -/
theorem land_mask_eq {w k x : Nat} (hx : x < 2 ^ w) :
    x &&& (2 ^ w - 2 ^ k) = x / 2 ^ k * 2 ^ k := by
  apply Nat.eq_of_testBit_eq
  intro i
  rw [Nat.testBit_and, Nat.testBit_mul_two_pow, Nat.testBit_div_two_pow]
  by_cases hi : k ≤ i
  · by_cases hw : i < w
    · have hm : (2 ^ w - 2 ^ k).testBit i = true := by
        have hkw : k ≤ w := by omega
        have : 2 ^ w - 2 ^ k = (2 ^ (w - k) - 1) * 2 ^ k := by
          rw [Nat.sub_mul, one_mul, ← pow_add, Nat.sub_add_cancel hkw]
        rw [this, Nat.testBit_mul_two_pow, Nat.testBit_two_pow_sub_one]
        simp only [hi, decide_true, Bool.true_and, decide_eq_true_eq]
        omega
      simp [hi, hm]
    · have hz : x.testBit i = false :=
        Nat.testBit_lt_two_pow (lt_of_lt_of_le hx (Nat.pow_le_pow_right (by omega) (by omega)))
      simp [hi, hz]
  · have hm : (2 ^ w - 2 ^ k).testBit i = false := by
      rcases Nat.lt_or_ge k w with hkw | hkw
      · have : 2 ^ w - 2 ^ k = (2 ^ (w - k) - 1) * 2 ^ k := by
          rw [Nat.sub_mul, one_mul, ← pow_add, Nat.sub_add_cancel hkw.le]
        rw [this, Nat.testBit_mul_two_pow]
        simp [hi]
      · have : 2 ^ w - 2 ^ k = 0 :=
          Nat.sub_eq_zero_of_le (Nat.pow_le_pow_right (by omega) hkw)
        rw [this, Nat.zero_testBit]
    simp [hi, hm]

/-! ### Memory cells -/

/-- The word stored at each byte address. -/
abbrev Cells := Nat → Nat

/-- `m'` differs from `m` only at addresses in `[lo, hi)`. -/
def AgreeOutside (lo hi : Nat) (m m' : Cells) : Prop :=
  ∀ x, x < lo ∨ hi ≤ x → m' x = m x

theorem AgreeOutside.refl (lo hi : Nat) (m : Cells) : AgreeOutside lo hi m m :=
  fun _ _ => rfl

theorem AgreeOutside.trans {lo hi : Nat} {m₁ m₂ m₃ : Cells}
    (h₁ : AgreeOutside lo hi m₁ m₂) (h₂ : AgreeOutside lo hi m₂ m₃) :
    AgreeOutside lo hi m₁ m₃ :=
  fun x hx => (h₂ x hx).trans (h₁ x hx)

theorem AgreeOutside.mono {lo hi lo' hi' : Nat} {m m' : Cells}
    (h : AgreeOutside lo hi m m') (hlo : lo' ≤ lo) (hhi : hi ≤ hi') :
    AgreeOutside lo' hi' m m' :=
  fun x hx => h x (by omega)

theorem AgreeOutside.update {lo hi a : Nat} (m : Cells) (v : Nat)
    (hlo : lo ≤ a) (hhi : a < hi) : AgreeOutside lo hi m (Function.update m a v) := by
  intro x hx
  have hxa : x ≠ a := by omega
  exact Function.update_of_ne hxa v m

/-! ### Characters inside words -/

/-- Byte `k` of a word. -/
def byteOf (w k : Nat) : UInt8 := UInt8.ofNat (w / 256 ^ k)

/-- The word with byte `k` replaced. -/
def setByte (w k : Nat) (c : UInt8) : Nat :=
  w % 256 ^ k + 256 ^ k * (c.toNat + 256 * (w / 256 ^ (k + 1)))

theorem byteOf_setByte (w k : Nat) (c : UInt8) : byteOf (setByte w k c) k = c := by
  have hpos : 0 < 256 ^ k := Nat.pow_pos (by decide)
  have hmod : w % 256 ^ k / 256 ^ k = 0 := Nat.div_eq_of_lt (Nat.mod_lt _ hpos)
  rw [byteOf, setByte, Nat.add_mul_div_left _ _ hpos, hmod, Nat.zero_add]
  apply UInt8.toNat_inj.mp
  rw [UInt8.toNat_ofNat']
  have hc := c.toNat_lt
  omega

theorem byteOf_setByte_of_ne (w : Nat) {j k : Nat} (c : UInt8) (h : j ≠ k) :
    byteOf (setByte w k c) j = byteOf w j := by
  apply UInt8.toNat_inj.mp
  rw [byteOf, byteOf, UInt8.toNat_ofNat', UInt8.toNat_ofNat', setByte]
  rcases Nat.lt_or_gt_of_ne h with hlt | hgt
  · -- the bytes below `k` are those of `w % 256 ^ k`
    obtain ⟨d, rfl⟩ := Nat.exists_eq_add_of_lt hlt
    have hpow : 256 ^ (j + d + 1) = 256 ^ j * (2 ^ 8 * 256 ^ d) := by
      rw [Nat.add_assoc, Nat.pow_add, Nat.pow_succ, Nat.mul_comm (256 ^ d)]
      rfl
    rw [hpow, Nat.mul_assoc, Nat.add_mul_div_left _ _ (Nat.pow_pos (by decide)),
      Nat.mod_mul_right_div_self, Nat.mul_assoc, Nat.add_mul_mod_self_left, Nat.mod_mul_right_mod]
  · -- the bytes above it are those of `w / 256 ^ (k + 1)`
    obtain ⟨d, rfl⟩ := Nat.exists_eq_add_of_lt hgt
    have hpow : 256 ^ (k + d + 1) = 256 ^ k * 256 * 256 ^ d := by
      rw [Nat.add_right_comm, Nat.pow_add, Nat.pow_succ]
    have hpos : 0 < 256 ^ k := Nat.pow_pos (by decide)
    have hmod : w % 256 ^ k / 256 ^ k = 0 := Nat.div_eq_of_lt (Nat.mod_lt _ hpos)
    have hc : c.toNat / 256 = 0 := Nat.div_eq_of_lt c.toNat_lt
    rw [hpow, ← Nat.div_div_eq_div_mul, ← Nat.div_div_eq_div_mul, ← Nat.div_div_eq_div_mul,
      ← Nat.div_div_eq_div_mul, Nat.add_mul_div_left _ _ hpos, hmod, Nat.zero_add,
      Nat.add_mul_div_left _ _ (by decide), hc, Nat.zero_add, Nat.pow_succ,
      ← Nat.div_div_eq_div_mul]

/-- Character `j` of the string at `s`, an address on the grid. -/
def charAt (m : Cells) (s j : Nat) : UInt8 := byteOf (m (s + 8 * (j / 8))) (j % 8)

/-- `s[j] = c`. -/
def setCharAt (m : Cells) (s j : Nat) (c : UInt8) : Cells :=
  Function.update m (s + 8 * (j / 8)) (setByte (m (s + 8 * (j / 8))) (j % 8) c)

theorem charAt_setCharAt (m : Cells) (s j : Nat) (c : UInt8) :
    charAt (setCharAt m s j c) s j = c := by
  rw [charAt, setCharAt, Function.update_self, byteOf_setByte]

theorem charAt_setCharAt_of_ne (m : Cells) (s : Nat) {i j : Nat} (c : UInt8) (h : i ≠ j) :
    charAt (setCharAt m s j c) s i = charAt m s i := by
  rw [charAt, charAt, setCharAt, Function.update_apply]
  split
  · next hcell =>
      have hbyte : i % 8 ≠ j % 8 := by omega
      rw [byteOf_setByte_of_ne _ c hbyte, hcell]
  · rfl

/-- Write characters one after the other, from `s[j]` on. -/
def writeChars (s : Nat) : Nat → List UInt8 → Cells → Cells
  | _, [], m => m
  | j, c :: cs, m => writeChars s (j + 1) cs (setCharAt m s j c)

theorem writeChars_agree (s : Nat) {j n : Nat} {cs : List UInt8} (m : Cells)
    (h : j + cs.length ≤ n) : AgreeOutside s (s + n) m (writeChars s j cs m) := by
  induction cs generalizing j m with
  | nil => exact AgreeOutside.refl s (s + n) m
  | cons c cs ih =>
      rw [List.length_cons] at h
      exact (AgreeOutside.update m _ (by omega) (by omega)).trans (ih _ (by omega))

theorem charAt_writeChars_of_lt (s : Nat) {i j : Nat} (cs : List UInt8) (m : Cells) (h : i < j) :
    charAt (writeChars s j cs m) s i = charAt m s i := by
  induction cs generalizing j m with
  | nil => rfl
  | cons c cs ih =>
      rw [writeChars, ih _ (Nat.lt_succ_of_lt h), charAt_setCharAt_of_ne m s c (Nat.ne_of_lt h)]

/-- The characters from `s` upwards. -/
def HoldsChars (m : Cells) (s : Nat) (text : List UInt8) : Prop :=
  ∀ i c, text[i]? = some c → charAt m s i = c

theorem charAt_writeChars (s j : Nat) (cs : List UInt8) (m : Cells) {i : Nat} {c : UInt8}
    (h : cs[i]? = some c) : charAt (writeChars s j cs m) s (j + i) = c := by
  induction cs generalizing i j m with
  | nil => rw [List.getElem?_nil] at h; cases h
  | cons d cs ih =>
      rw [writeChars]
      cases i with
      | zero =>
          rw [List.getElem?_cons_zero, Option.some.injEq] at h
          have hfirst := charAt_writeChars_of_lt s cs (setCharAt m s j d) (Nat.lt_add_one j)
          exact hfirst.trans ((charAt_setCharAt m s j d).trans h)
      | succ i =>
          rw [List.getElem?_cons_succ] at h
          rw [← Nat.add_assoc, Nat.add_right_comm]
          exact ih (j + 1) _ h

/-- **A string written character by character** reads back. -/
theorem holdsChars_writeChars (s : Nat) (text : List UInt8) (m : Cells) :
    HoldsChars (writeChars s 0 text m) s text := by
  intro i c hc
  have hread := charAt_writeChars s 0 text m hc
  rwa [Nat.zero_add] at hread

theorem HoldsChars.congr {m m' : Cells} {s n : Nat} {text : List UInt8} (h : HoldsChars m s text)
    (hlen : text.length ≤ n) (hag : ∀ x, s ≤ x → x < s + n → m' x = m x) :
    HoldsChars m' s text := by
  intro i c hc
  obtain ⟨hi, -⟩ := List.getElem?_eq_some_iff.mp hc
  rw [← h i c hc, charAt, charAt, hag _ (by omega) (by omega)]

/-! ### A stack that grows downwards -/

/-- Memory and stack pointer after `*(--sp) = v`. -/
def pushWord (s : Cells × Nat) (v : Nat) : Cells × Nat :=
  (Function.update s.1 (sub64 s.2 8) v, sub64 s.2 8)

/-- The words from `a` upwards. -/
def HoldsWords (m : Cells) : Nat → List Nat → Prop
  | _, [] => True
  | a, v :: vs => m a = v ∧ HoldsWords m (a + 8) vs

theorem holdsWords_concat {m : Cells} {a v : Nat} {vs : List Nat} :
    HoldsWords m a (vs ++ [v]) ↔ HoldsWords m a vs ∧ m (a + 8 * vs.length) = v := by
  induction vs generalizing a with
  | nil => simp [HoldsWords]
  | cons w vs ih =>
      have hlen : a + 8 + 8 * vs.length = a + 8 * (vs.length + 1) := by omega
      simp only [List.cons_append, HoldsWords, ih, List.length_cons, hlen, and_assoc]

theorem HoldsWords.congr {m m' : Cells} {a : Nat} {vs : List Nat} (h : HoldsWords m a vs)
    (hag : ∀ x, a ≤ x → x < a + 8 * vs.length → m' x = m x) : HoldsWords m' a vs := by
  induction vs generalizing a with
  | nil => trivial
  | cons v vs ih =>
      rw [List.length_cons] at hag
      exact ⟨(hag a le_rfl (by omega)).trans h.1,
        ih h.2 fun x hlo hhi => hag x (by omega) (by omega)⟩

/-- One word replaced by another. -/
theorem HoldsWords.set {m : Cells} {a v : Nat} {us vs : List Nat}
    (h : HoldsWords m a (us ++ v :: vs)) (v' : Nat) :
    HoldsWords (Function.update m (a + 8 * us.length) v') a (us ++ v' :: vs) := by
  induction us generalizing a with
  | nil =>
      refine ⟨Function.update_self .., h.2.congr fun x hlo _ => ?_⟩
      exact Function.update_of_ne (by simp only [List.length_nil]; omega) _ _
  | cons u us ih =>
      have haddr : a + 8 * (u :: us).length = a + 8 + 8 * us.length := by
        rw [List.length_cons]
        omega
      rw [haddr]
      exact ⟨(Function.update_of_ne (by omega) _ _).trans h.1, ih h.2⟩

/-- Below an address that is not a wrapped one the pointer steps down by a
word. -/
theorem sub64_step {n : Nat} (h : n + 8 ≤ 2 ^ 64) : sub64 (w64 (n + 8)) 8 = n := by
  unfold sub64 w64
  omega

/-- **Words pushed in a row** lie in memory with the last one lowest, and
nothing else is written. -/
theorem foldl_pushWord (m : Cells) {lo : Nat} (vs : List Nat) (hvs : vs ≠ [])
    (hfit : lo + 8 * vs.length ≤ 2 ^ 64) :
    ∃ m', vs.foldl pushWord (m, w64 (lo + 8 * vs.length)) = (m', lo) ∧
      HoldsWords m' lo vs.reverse ∧ AgreeOutside lo (lo + 8 * vs.length) m m' := by
  induction vs generalizing m with
  | nil => exact absurd rfl hvs
  | cons v vs ih =>
      have hlen : lo + 8 * (vs.length + 1) = lo + 8 * vs.length + 8 := by omega
      rw [List.length_cons, hlen] at hfit ⊢
      have hpush : pushWord (m, w64 (lo + 8 * vs.length + 8)) v
          = (Function.update m (lo + 8 * vs.length) v, lo + 8 * vs.length) := by
        rw [pushWord, sub64_step hfit]
      rw [List.foldl_cons, hpush]
      have hstep := AgreeOutside.update m v (Nat.le_add_right lo (8 * vs.length))
        (Nat.lt_add_of_pos_right (by decide : 0 < 8))
      have hval : Function.update m (lo + 8 * vs.length) v (lo + 8 * vs.length) = v :=
        Function.update_self ..
      generalize Function.update m (lo + 8 * vs.length) v = m₁ at hstep hval
      rcases eq_or_ne vs [] with rfl | hne
      · exact ⟨m₁, rfl, ⟨by simpa using hval, trivial⟩, hstep⟩
      · obtain ⟨m', hrun, hwords, hag⟩ := ih m₁ hne (by omega)
        rw [w64_of_lt (by omega)] at hrun
        refine ⟨m', hrun, ?_, hstep.trans (hag.mono le_rfl (by omega))⟩
        rw [List.reverse_cons, holdsWords_concat, List.length_reverse]
        exact ⟨hwords, (hag _ (.inr le_rfl)).trans hval⟩

end TP2Kernel
