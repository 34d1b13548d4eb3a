/-
TP2Kernel/Memcpy.lean

`memcpy` of `Kernel/lib.c`.  It copies words of four bytes if both addresses and the
length are multiples of four, and single bytes otherwise.

Both loops go upwards, so a source that begins below the destination and runs into it
is read after it has been overwritten: its first bytes are repeated, with the distance
of the regions as the period (`origin`).  A word is read before it is stored, and four
bytes are not; that the loops agree nevertheless is where the alignment is used, since
a distance that is a multiple of four is none of 1, 2 and 3 (`copyBytes_four`).  So
`memcpy` is the byte loop on all arguments (`memcpy_eq_copyBytes`).
-/
import TP2Kernel.CMemory

namespace TP2Kernel

namespace ByteMem

/-- `for (i = 0; i < n; i++) d[i] = s[i];` on bytes. -/
def copyBytes (m : ByteMem) (d s : Int) (n : Nat) : ByteMem :=
  (List.range n).foldl (fun m (i : Nat) => Function.update m (d + i) (m (s + i))) m

/-- `for (i = 0; i < n; i++) d[i] = s[i];` on words of four bytes. -/
def copyWords (m : ByteMem) (d s : Int) (n : Nat) : ByteMem :=
  (List.range n).foldl (fun m (i : Nat) => m.writeInt (d + 4 * i) (m.readNat (s + 4 * i))) m

/-- `memcpy`. -/
def memcpy (m : ByteMem) (destination source : Int) (length : Nat) : ByteMem :=
  if destination % 4 = 0 ∧ source % 4 = 0 ∧ length % 4 = 0 then
    m.copyWords destination source (length / 4)
  else m.copyBytes destination source length

variable {m : ByteMem} {d s : Int}

theorem copyBytes_succ (n : Nat) :
    m.copyBytes d s (n + 1) =
      Function.update (m.copyBytes d s n) (d + n) (m.copyBytes d s n (s + n)) := by
  unfold copyBytes
  rw [List.range_succ, List.foldl_append]
  rfl

theorem copyWords_succ (n : Nat) :
    m.copyWords d s (n + 1) =
      (m.copyWords d s n).writeInt (d + 4 * n) ((m.copyWords d s n).readNat (s + 4 * n)) := by
  unfold copyWords
  rw [List.range_succ, List.foldl_append]
  rfl

/-- A word that is read and stored elsewhere arrives byte by byte. -/
theorem intByte_readNat (m : ByteMem) (a : Int) {k : Nat} (hk : k < 4) :
    intByte (m.readNat a) k = m (a + k) := by
  have h0 := (m a).toNat_lt
  have h1 := (m (a + 1)).toNat_lt
  have h2 := (m (a + 2)).toNat_lt
  have h3 := (m (a + 3)).toNat_lt
  have hmod : (((m.readNat a : Nat) : Int) % (2 ^ 32 : Nat)).toNat = m.readNat a := by
    unfold readNat
    omega
  apply UInt8.toNat_inj.mp
  rw [intByte, hmod, UInt8.toNat_ofNat']
  have hcases : k = 0 ∨ k = 1 ∨ k = 2 ∨ k = 3 := by omega
  unfold readNat
  rcases hcases with rfl | rfl | rfl | rfl
  · have ha : a + (0 : Nat) = a := by omega
    rw [ha]
    omega
  · show _ = (m (a + 1)).toNat
    omega
  · show _ = (m (a + 2)).toNat
    omega
  · show _ = (m (a + 3)).toNat
    omega

theorem writeInt_readNat (m : ByteMem) (a b x : Int) :
    m.writeInt a (m.readNat b) x = if a ≤ x ∧ x < a + 4 then m (b + (x - a)) else m x := by
  unfold writeInt
  split
  · have hk : (x - a).toNat < 4 := by omega
    rw [intByte_readNat m b hk, Int.toNat_of_nonneg (by omega)]
  · rfl

/-! ### The byte loop -/

/-- Where the byte comes from that the loop stores `k` places behind `d`. -/
def origin (d s k : Int) : Int := if s < d then s + k % (d - s) else s + k

/-- A place of the source that the loop has not written before it reads it. -/
theorem origin_of_unread {k : Int} (hk : 0 ≤ k) (h : d ≤ s ∨ s + k < d) :
    origin d s k = s + k := by
  unfold origin
  split
  · rw [Int.emod_eq_of_lt hk (by omega)]
  · rfl

/-- A place of the source that the loop has written: what it holds has come there from
one period below. -/
theorem origin_of_read {k : Int} (h : s < d) : origin d s (s + k - d) = origin d s k := by
  unfold origin
  rw [if_pos h, if_pos h, show s + k - d = k - (d - s) by omega, Int.sub_emod_right]

/-- **The byte loop**, for all regions. -/
theorem copyBytes_apply (m : ByteMem) (d s : Int) (n : Nat) (x : Int) :
    m.copyBytes d s n x = if d ≤ x ∧ x < d + n then m (origin d s (x - d)) else m x := by
  induction n generalizing x with
  | zero =>
      rw [if_neg (by omega)]
      rfl
  | succ n ih =>
      rw [copyBytes_succ]
      by_cases hx : x = d + n
      · -- the byte just stored; the loop may have written it to `s + n` itself
        rw [hx, Function.update_self, if_pos (by omega), ih, show d + (n : Int) - d = n by omega]
        split
        · rw [origin_of_read (by omega)]
        · rw [origin_of_unread (by omega) (by omega)]
      · rw [Function.update_of_ne hx, ih]
        exact if_congr (by omega) rfl rfl

theorem copyBytes_eqOn (m : ByteMem) (d s : Int) (n : Nat) :
    Set.EqOn (m.copyBytes d s n) m (outside d (d + n)) := by
  rw [eqOn_outside]
  intro x hx
  rw [copyBytes_apply, if_neg (by omega)]

/-- The loop may be interrupted. -/
theorem copyBytes_add (m : ByteMem) (d s : Int) (n k : Nat) :
    m.copyBytes d s (n + k) = (m.copyBytes d s n).copyBytes (d + n) (s + n) k := by
  induction k with
  | zero => rfl
  | succ k ih =>
      rw [← Nat.add_assoc, copyBytes_succ, copyBytes_succ, ih, Nat.cast_add, Int.add_assoc,
        Int.add_assoc]

/-! ### The word loop -/

/-- One word is four bytes: none of them is written before it is read. -/
theorem copyBytes_four (m : ByteMem) (h : d % 4 = s % 4) :
    m.copyBytes d s 4 = m.writeInt d (m.readNat s) := by
  funext x
  rw [copyBytes_apply, writeInt_readNat]
  split
  · rw [origin_of_unread (by omega) (by omega), if_pos (by omega)]
  · rw [if_neg (by omega)]

/-- **The word loop is the byte loop**, if the distance of the regions is a multiple of
four. -/
theorem copyWords_eq_copyBytes (m : ByteMem) (h : d % 4 = s % 4) (n : Nat) :
    m.copyWords d s n = m.copyBytes d s (4 * n) := by
  induction n with
  | zero => rfl
  | succ n ih =>
      rw [copyWords_succ, ih, Nat.mul_succ, copyBytes_add, copyBytes_four _ (by push_cast; omega)]
      push_cast
      rfl

/-- `memcpy` is the byte loop on all arguments. -/
theorem memcpy_eq_copyBytes (m : ByteMem) (d s : Int) (length : Nat) :
    m.memcpy d s length = m.copyBytes d s length := by
  unfold memcpy
  split
  · rename_i hfour
    obtain ⟨hd, hs, hl⟩ := hfour
    rw [copyWords_eq_copyBytes m (hd.trans hs.symm),
      Nat.mul_div_cancel' (Nat.dvd_of_mod_eq_zero hl)]
  · rfl

/-- **The two paths of `memcpy` agree** where the word path is taken, overlapping regions
included, and nothing changes outside the destination. -/
theorem memcpy_word_path (m : ByteMem) {destination source : Int} {length : Nat}
    (hd : destination % 4 = 0) (hs : source % 4 = 0) (hl : length % 4 = 0) :
    m.memcpy destination source length = m.copyWords destination source (length / 4) ∧
    m.copyWords destination source (length / 4) = m.copyBytes destination source length ∧
    Set.EqOn (m.copyWords destination source (length / 4)) m
      (outside destination (destination + length)) := by
  have hword : m.memcpy destination source length = m.copyWords destination source (length / 4) :=
    if_pos ⟨hd, hs, hl⟩
  have hbyte := memcpy_eq_copyBytes m destination source length
  refine ⟨hword, hword.symm.trans hbyte, ?_⟩
  rw [← hword, hbyte]
  exact copyBytes_eqOn m destination source length

/-- Eight bytes to four places above: the first four arrive twice, word by word as byte
by byte. -/
theorem memcpy_word_path_overlapping :
    let m : ByteMem := fun x => UInt8.ofNat x.toNat
    m.copyWords 4 0 2 = m.copyBytes 4 0 8 ∧ (m.memcpy 4 0 8).Holds 4 [0, 1, 2, 3, 0, 1, 2, 3] := by
  intro m
  obtain ⟨hword, hbyte, -⟩ := memcpy_word_path m (show (4 : Int) % 4 = 0 from rfl)
    (show (0 : Int) % 4 = 0 from rfl) (show 8 % 4 = 0 from rfl)
  refine ⟨hbyte, ?_⟩
  rw [hword, hbyte]
  decide

/-! ### Regions that do not overlap -/

/-- The destination and the source do not overlap. -/
def Apart (d s : Int) (length : Nat) : Prop := d + length ≤ s ∨ s + length ≤ d

/-- What the copy of a source elsewhere leaves. -/
def Copied (m m' : ByteMem) (d s : Int) (n : Nat) : Prop :=
  ∀ x, m' x = if d ≤ x ∧ x < d + n then m (x - d + s) else m x

/-- **`memcpy` between regions that do not overlap**, whichever loop is taken. -/
theorem memcpy_copied {length : Nat} (h : Apart d s length) :
    Copied m (m.memcpy d s length) d s length := by
  unfold Apart at h
  intro x
  rw [memcpy_eq_copyBytes, copyBytes_apply]
  split
  · rw [origin_of_unread (by omega) (by omega), Int.add_comm]
  · rfl

/-- Bytes found again elsewhere. -/
theorem Holds.shift {m' : ByteMem} {bs : List UInt8}
    (h : ∀ k : Nat, k < bs.length → m' (d + k) = m (s + k)) (hm : m.Holds s bs) :
    m'.Holds d bs := by
  induction bs generalizing d s with
  | nil => exact trivial
  | cons c cs ih =>
      obtain ⟨hc, hcs⟩ := hm
      have h0 := h 0 (Nat.succ_pos _)
      rw [Nat.cast_zero, Int.add_zero, Int.add_zero] at h0
      refine ⟨h0.trans hc, ih (fun k hk => ?_) hcs⟩
      have hk' := h (k + 1) (Nat.succ_lt_succ hk)
      rw [Nat.cast_succ] at hk'
      rw [show d + 1 + k = d + (k + 1) by omega, hk']
      congr 1
      omega

/-- The destination holds what the source held. -/
theorem Copied.holds {m' : ByteMem} {bs : List UInt8} (h : Copied m m' d s bs.length)
    (hm : m.Holds s bs) : m'.Holds d bs := by
  refine Holds.shift (fun k hk => ?_) hm
  rw [h, if_pos (by omega)]
  congr 1
  omega

/-- Outside the destination nothing changes. -/
theorem Copied.outside {m' : ByteMem} {n : Nat} (h : Copied m m' d s n) {x : Int}
    (hx : x < d ∨ d + n ≤ x) : m' x = m x := by
  rw [h, if_neg (by omega)]

end ByteMem

end TP2Kernel
