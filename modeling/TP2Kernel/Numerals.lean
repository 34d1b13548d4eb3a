/-
TP2Kernel/Numerals.lean

Numbers as text.  `numeral b n` is the text of `n` in base `b`, highest digit
first and without leading zeros; `Nat.digits` has the digits in the other order,
which is the order in which a program finds them when it divides by `b` again and
again (`peel`).  `Canonical` says what a decimal text has to be, and `numeral 10`
is such a text.
-/
import Mathlib.Data.Nat.Digits.Lemmas

namespace TP2Kernel

/-- The character of a digit: `0` to `9`, then `a` onwards. -/
def digitChar (d : Nat) : UInt8 := if d < 10 then UInt8.ofNat (48 + d) else UInt8.ofNat (87 + d)

theorem digitChar_toNat {d : Nat} (h : d < 10) : (digitChar d).toNat = 48 + d := by
  unfold digitChar
  rw [if_pos h, UInt8.toNat_ofNat']
  exact Nat.mod_eq_of_lt (by omega)

/-- `n` in base `b`, highest digit first; zero is one digit. -/
def numeral (b n : Nat) : List UInt8 :=
  if n = 0 then [48] else ((Nat.digits b n).map digitChar).reverse

theorem numeral_zero (b : Nat) : numeral b 0 = [48] := if_pos rfl

theorem numeral_of_ne_zero (b : Nat) {n : Nat} (h : n ≠ 0) :
    numeral b n = ((Nat.digits b n).map digitChar).reverse := if_neg h

/-- A bound on the number of digits. -/
theorem numeral_length_le {b k n : Nat} (hb : 1 < b) (hk : 0 < k) (h : n < b ^ k) :
    (numeral b n).length ≤ k := by
  unfold numeral
  split
  · exact hk
  · rw [List.length_reverse, List.length_map]
    exact (Nat.digits_length_le_iff hb n).mpr h

/-- The digits found by dividing by `b` again and again, lowest first, at most `room`
of them. -/
def peel (b : Nat) : Nat → Nat → List Nat
  | 0, _ => []
  | room + 1, n => if n = 0 then [] else n % b :: peel b room (n / b)

/-- With enough room these are all the digits. -/
theorem peel_eq_digits {b : Nat} (hb : 1 < b) (room : Nat) {n : Nat} (h : n < b ^ room) :
    peel b room n = Nat.digits b n := by
  induction room generalizing n with
  | zero =>
      have hn : n = 0 := by simpa using h
      rw [hn, Nat.digits_zero]
      rfl
  | succ room ih =>
      rw [peel]
      split
      · rename_i hn
        rw [hn, Nat.digits_zero]
      · rename_i hn
        have hlt : n / b < b ^ room := by
          apply Nat.div_lt_of_lt_mul
          rwa [pow_succ, mul_comm] at h
        rw [Nat.digits_def' hb (Nat.pos_of_ne_zero hn), ih hlt]

/-! ### Decimal texts -/

/-- The number a decimal text stands for. -/
def decimalValue (text : List UInt8) : Nat := text.foldl (fun v c => v * 10 + (c.toNat - 48)) 0

/-- The decimal text of `n`: digits, at least one, and no zero in front. -/
structure Canonical (text : List UInt8) (n : Nat) : Prop where
  digits : ∀ c ∈ text, 48 ≤ c.toNat ∧ c.toNat ≤ 57
  nonempty : text ≠ []
  leading : text.head? = some 48 → text = [48]
  value : decimalValue text = n

theorem decimalValue_append (text : List UInt8) (c : UInt8) :
    decimalValue (text ++ [c]) = decimalValue text * 10 + (c.toNat - 48) := by
  unfold decimalValue
  rw [List.foldl_append]
  rfl

/-- Reading the digits from the highest to the lowest gives the number back. -/
theorem decimalValue_digits {ds : List Nat} (h : ∀ d ∈ ds, d < 10) :
    decimalValue ((ds.map digitChar).reverse) = Nat.ofDigits 10 ds := by
  induction ds with
  | nil => rfl
  | cons d ds ih =>
      rw [List.map_cons, List.reverse_cons, decimalValue_append,
        ih fun d hd => h d (List.mem_cons_of_mem _ hd), digitChar_toNat (h d List.mem_cons_self),
        Nat.ofDigits_cons]
      omega

theorem numeral_digit {n : Nat} {c : UInt8} (hc : c ∈ numeral 10 n) :
    48 ≤ c.toNat ∧ c.toNat ≤ 57 := by
  unfold numeral at hc
  split at hc
  · rw [List.mem_singleton.mp hc]
    decide
  · rw [List.mem_reverse, List.mem_map] at hc
    obtain ⟨d, hd, rfl⟩ := hc
    have hlt := Nat.digits_lt_base (by decide) hd
    rw [digitChar_toNat hlt]
    omega

/-- **The decimal text of a number is canonical.** -/
theorem numeral_canonical (n : Nat) : Canonical (numeral 10 n) n := by
  by_cases hn : n = 0
  · subst hn
    refine ⟨fun c hc => numeral_digit hc, ?_, fun _ => numeral_zero 10, ?_⟩
    · rw [numeral_zero]
      exact List.cons_ne_nil _ _
    · rw [numeral_zero]
      rfl
  · have hne : Nat.digits 10 n ≠ [] := Nat.digits_ne_nil_iff_ne_zero.mpr hn
    refine ⟨fun c hc => numeral_digit hc, ?_, fun hzero => ?_, ?_⟩
    · rw [numeral_of_ne_zero 10 hn]
      simpa using hne
    · -- the first character comes from the highest digit, which is not zero
      rw [numeral_of_ne_zero 10 hn, List.head?_reverse, List.getLast?_map,
        List.getLast?_eq_getLast_of_ne_nil hne, Option.map_some, Option.some.injEq] at hzero
      have hlast := Nat.getLast_digit_ne_zero 10 hn
      have hlt := Nat.digits_lt_base (by decide) (List.getLast_mem hne)
      have hval := digitChar_toNat hlt
      rw [hzero] at hval
      exact absurd (show (Nat.digits 10 n).getLast hne = 0 by
        have h48 : (48 : UInt8).toNat = 48 := rfl
        omega) hlast
    · rw [numeral_of_ne_zero 10 hn,
        decimalValue_digits fun d hd => Nat.digits_lt_base (by decide) hd, Nat.ofDigits_digits]

end TP2Kernel
