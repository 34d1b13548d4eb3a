/-
TP2Kernel/Format.lean

`atoi`, `printf` and `sprintf` of `Userland/SampleCodeModule/lib.c`.

The format is read from memory byte by byte, so that a scan that misses the NUL
goes on with whatever is stored behind it; such a scan need not end, and both
functions take a bound on their number of rounds and answer `none` when it is used
up.  `none` is also the answer where C gives no meaning: an argument that is not
there or has another type, and a digit stored behind the end of `buf[12]`.

`printf` gives its characters to `putchar` one after the other, `sprintf` stores
them from `str` on.  A directive is the same piece of code in both, except that
`printf` knows `%llx` and `sprintf` does not.
-/
import TP2Kernel.CMemory
import TP2Kernel.Numerals

namespace TP2Kernel

/-! ### Integers as text -/

/-- `(char) n`. -/
def charOf (n : Int32) : UInt8 := UInt8.ofInt n.toInt

/-- `while (n > 0) { buf[buf_i++] = (n % 10) + '0'; n /= 10; }`, with `room` bytes of
`buf` left. -/
def digitLoop : Nat → Int32 → List UInt8 → Option (List UInt8)
  | 0, n, buf => if 0 < n then none else some buf
  | room + 1, n, buf =>
      if 0 < n then digitLoop room (n / 10) (buf ++ [charOf (n % 10 + 48)]) else some buf

/-- What `%d` makes of its argument.  The negation wraps around. -/
def intText (n : Int32) : Option (List UInt8) :=
  -- zero has no digits in the loop
  if n = 0 then some [48]
  else if n < 0 then (digitLoop 12 (-n) []).map fun buf => 45 :: buf.reverse
  else (digitLoop 12 n []).map fun buf => buf.reverse

/-- `while (str[i] == ' ' || str[i] == '\t' || str[i] == '\n') i++;`. -/
def skipBlanks : List UInt8 → List UInt8
  | [] => []
  | c :: cs => if c = 32 ∨ c = 9 ∨ c = 10 then skipBlanks cs else c :: cs

/-- `while (str[i] >= '0' && str[i] <= '9') res = res * 10 + (str[i] - '0');`. -/
def readDigits : Int32 → List UInt8 → Int32
  | res, [] => res
  | res, c :: cs =>
      if 48 ≤ c ∧ c ≤ 57 then readDigits (res * 10 + (Int32.ofNat c.toNat - 48)) cs else res

/-- `atoi`. -/
def atoi (str : CString) : Int32 :=
  match skipBlanks str.bytes with
  | [] => 1 * readDigits 0 []
  | c :: cs =>
      -- a minus, a plus, or a digit at once
      if c = 45 then -1 * readDigits 0 cs
      else if c = 43 then 1 * readDigits 0 cs
      else 1 * readDigits 0 (c :: cs)

section Digits

variable {n : Int32} {room : Nat} {buf : List UInt8}

theorem toInt_div_ten (h : 0 ≤ n.toInt) : (n / 10).toInt = n.toInt / 10 := by
  have hlt := n.toInt_lt
  have h10 : (10 : Int32).toInt = 10 := rfl
  rw [Int32.toInt_div, h10, Int.tdiv_eq_ediv_of_nonneg h]
  exact Int.bmod_eq_of_le (by omega) (by omega)

theorem toInt_mod_ten (h : 0 ≤ n.toInt) : (n % 10).toInt = n.toInt % 10 := by
  have h10 : (10 : Int32).toInt = 10 := rfl
  rw [Int32.toInt_mod, h10, Int.tmod_eq_emod_of_nonneg h]

theorem charOf_digit (h : 0 ≤ n.toInt) :
    charOf (n % 10 + 48) = digitChar (n.toInt.toNat % 10) := by
  have h48 : (48 : Int32).toInt = 48 := rfl
  have hadd : (n % 10 + 48).toInt = n.toInt % 10 + 48 := by
    rw [Int32.toInt_add, toInt_mod_ten h, h48]
    exact Int.bmod_eq_of_le (by omega) (by omega)
  apply UInt8.toNat_inj.mp
  rw [digitChar_toNat (by omega), charOf, hadd]
  unfold UInt8.ofInt
  rw [UInt8.toNat_ofNat']
  omega

/-- **The digit loop** finds the digits of `n`, lowest first, if they fit. -/
theorem digitLoop_eq (h : 0 ≤ n.toInt) (hroom : n.toInt.toNat < 10 ^ room) :
    digitLoop room n buf = some (buf ++ (Nat.digits 10 n.toInt.toNat).map digitChar) := by
  have hzero : (0 : Int32).toInt = 0 := rfl
  induction room generalizing n buf with
  | zero =>
      have hn : ¬ 0 < n := by
        rw [Int32.lt_iff_toInt_lt, hzero]
        rw [pow_zero] at hroom
        omega
      have hnat : n.toInt.toNat = 0 := by
        rw [pow_zero] at hroom
        omega
      rw [digitLoop, if_neg hn, hnat, Nat.digits_zero, List.map_nil, List.append_nil]
  | succ room ih =>
      rw [digitLoop]
      split
      · rename_i hn
        rw [Int32.lt_iff_toInt_lt, hzero] at hn
        have hdiv := toInt_div_ten h
        have hnat : (n / 10).toInt.toNat = n.toInt.toNat / 10 := by omega
        -- one byte of room less, one digit less
        have hlt : (n / 10).toInt.toNat < 10 ^ room := by
          rw [hnat]
          apply Nat.div_lt_of_lt_mul
          rwa [pow_succ, mul_comm] at hroom
        rw [ih (by omega) hlt, hnat, Nat.digits_def' (by decide) (by omega : 0 < n.toInt.toNat),
          charOf_digit h, List.map_cons, List.append_assoc]
        rfl
      · rename_i hn
        rw [Int32.lt_iff_toInt_lt, hzero] at hn
        have hnat : n.toInt.toNat = 0 := by omega
        rw [hnat, Nat.digits_zero, List.map_nil, List.append_nil]

end Digits

/-- The digits of an `int` fit into `buf[12]`. -/
theorem toNat_lt_of_int32 (n : Int32) : n.toInt.toNat < 10 ^ 12 := by
  have h := n.toInt_lt
  have h12 : (10 : Nat) ^ 12 = 1000000000000 := by norm_num
  omega

theorem intText_of_pos {n : Int32} (h : 0 < n.toInt) :
    intText n = some (numeral 10 n.toInt.toNat) := by
  have hzero : (0 : Int32).toInt = 0 := rfl
  have hne : n ≠ 0 := by
    rintro rfl
    omega
  have hneg : ¬ n < 0 := by
    rw [Int32.lt_iff_toInt_lt]
    omega
  rw [intText, if_neg hne, if_neg hneg, digitLoop_eq h.le (toNat_lt_of_int32 n),
    numeral_of_ne_zero 10 (by omega)]
  rfl

theorem toInt_neg_of_ne_min {n : Int32} (h : n ≠ Int32.minValue) : (-n).toInt = -n.toInt := by
  have hne : n.toInt ≠ -2 ^ 31 := fun he => h (Int32.toInt_inj.mp (he.trans Int32.toInt_minValue.symm))
  have hlo := n.le_toInt
  have hhi := n.toInt_lt
  rw [Int32.toInt_neg]
  exact Int.bmod_eq_of_le (by omega) (by omega)

theorem intText_of_neg {n : Int32} (h : n.toInt < 0) (hmin : n ≠ Int32.minValue) :
    intText n = some (45 :: numeral 10 n.toInt.natAbs) := by
  have hzero : (0 : Int32).toInt = 0 := rfl
  -- the negation does not wrap around, so the loop sees the absolute value
  have hneg := toInt_neg_of_ne_min hmin
  have hne : n ≠ 0 := by
    rintro rfl
    omega
  have hlt : n < 0 := by
    rw [Int32.lt_iff_toInt_lt]
    omega
  have habs : (-n).toInt.toNat = n.toInt.natAbs := by omega
  rw [intText, if_neg hne, if_pos hlt, digitLoop_eq (by omega) (toNat_lt_of_int32 _), habs,
    numeral_of_ne_zero 10 (by omega)]
  rfl

/-- `%d` has a text for every `int`; that of the least one is a minus alone. -/
theorem intText_isSome (n : Int32) : ∃ text, intText n = some text := by
  by_cases hmin : n = Int32.minValue
  · subst hmin
    exact ⟨[45], by decide +kernel⟩
  · rcases lt_trichotomy n.toInt 0 with h | h | h
    · exact ⟨_, intText_of_neg h hmin⟩
    · have hzero : n = 0 := Int32.toInt_inj.mp h
      exact ⟨[48], if_pos hzero⟩
    · exact ⟨_, intText_of_pos h⟩

/-! ### Reading an integer -/

/-- A step of the loop of `atoi` is a step of the decimal value, wrapped around. -/
theorem readDigits_eq {text : List UInt8} (h : ∀ c ∈ text, 48 ≤ c.toNat ∧ c.toNat ≤ 57) (v : Nat) :
    readDigits (Int32.ofNat v) text =
      Int32.ofNat (text.foldl (fun v c => v * 10 + (c.toNat - 48)) v) := by
  induction text generalizing v with
  | nil => rfl
  | cons c cs ih =>
      obtain ⟨hlo, hhi⟩ := h c List.mem_cons_self
      have hdigit : 48 ≤ c ∧ c ≤ 57 := ⟨UInt8.le_iff_toNat_le.mpr hlo, UInt8.le_iff_toNat_le.mpr hhi⟩
      -- the arithmetic of `int` wraps around, and so does the decimal value read modulo 2 ^ 32
      have hstep : Int32.ofNat v * 10 + (Int32.ofNat c.toNat - 48) =
          Int32.ofNat (v * 10 + (c.toNat - 48)) := by
        rw [Int32.ofNat_add, Int32.ofNat_mul, Int32.ofNat_sub _ _ hlo]
        rfl
      rw [readDigits, if_pos hdigit, hstep, ih fun c hc => h c (List.mem_cons_of_mem _ hc)]
      rfl

theorem readDigits_numeral (n : Nat) : readDigits 0 (numeral 10 n) = Int32.ofNat n := by
  have hdigits : ∀ c ∈ numeral 10 n, 48 ≤ c.toNat ∧ c.toNat ≤ 57 := fun c hc => numeral_digit hc
  rw [show (0 : Int32) = Int32.ofNat 0 from rfl, readDigits_eq hdigits]
  exact congrArg Int32.ofNat (numeral_canonical n).value

theorem skipBlanks_of_ne {c : UInt8} (h : 10 < c.toNat ∧ c.toNat ≠ 32) (cs : List UInt8) :
    skipBlanks (c :: cs) = c :: cs := by
  apply if_neg
  rintro (rfl | rfl | rfl)
  · exact h.2 rfl
  · exact absurd h.1 (by decide)
  · exact absurd h.1 (by decide)

theorem atoi_numeral {str : CString} {n : Nat} (h : str.bytes = numeral 10 n) :
    atoi str = Int32.ofNat n := by
  rcases htext : numeral 10 n with - | ⟨c, cs⟩
  · exact absurd htext (numeral_canonical n).nonempty
  · have hc : 48 ≤ c.toNat ∧ c.toNat ≤ 57 := by
      apply numeral_digit (n := n)
      rw [htext]
      exact List.mem_cons_self
    have hminus : c ≠ 45 := by
      rintro rfl
      exact absurd hc.1 (by decide)
    have hplus : c ≠ 43 := by
      rintro rfl
      exact absurd hc.1 (by decide)
    unfold atoi
    rw [h, htext, skipBlanks_of_ne (by omega)]
    show (if c = 45 then _ else if c = 43 then _ else _) = _
    rw [if_neg hminus, if_neg hplus, ← htext, readDigits_numeral, Int32.one_mul]

theorem atoi_minus {str : CString} {n : Nat} (h : str.bytes = 45 :: numeral 10 n) :
    atoi str = -Int32.ofNat n := by
  unfold atoi
  rw [h, skipBlanks_of_ne (by decide)]
  show (if (45 : UInt8) = 45 then -1 * readDigits 0 (numeral 10 n) else _) = _
  rw [if_pos rfl, readDigits_numeral, Int32.neg_mul, Int32.one_mul]

/-! ### The formats -/

/-- An argument behind the format. -/
inductive Arg
  | int (n : Int32)
  | str (s : CString)
  | ull (v : UInt64)

/-- What a directive gives: its characters, what it adds to `count`, the place of its
last character and the arguments that are left. -/
structure Piece where
  text : List UInt8
  count : Nat
  last : Int
  args : List Arg

/-- The cases of the `switch` that both functions have, for the character at `p`. -/
def directive (m : ByteMem) (p : Int) (args : List Arg) : Option Piece :=
  -- `case 's'`
  if m p = 115 then
    match args with
    | .str s :: args => some ⟨s.bytes, s.bytes.length, p, args⟩
    | _ => none
  -- `case 'd'`
  else if m p = 100 then
    match args with
    | .int n :: args => (intText n).map fun text => ⟨text, text.length, p, args⟩
    | _ => none
  -- `case 'c'`
  else if m p = 99 then
    match args with
    | .int n :: args => some ⟨[charOf n], 1, p, args⟩
    | _ => none
  -- `case '%'`, and the default, which puts the `%` out as well
  else if m p = 37 then some ⟨[37], 1, p, args⟩
  else some ⟨[37, m p], 2, p, args⟩

/-- `buf[j] = "0123456789ABCDEF"[v & 0xF]; v >>= 4;` from `buf[15]` down to `buf[0]`. -/
def hexDigits (v : UInt64) : List UInt8 :=
  (List.range 16).map fun j =>
    let d := (v >>> UInt64.ofNat (4 * (15 - j)) &&& 0xF).toNat
    if d < 10 then UInt8.ofNat (48 + d) else UInt8.ofNat (55 + d)

/-- `while (*p == '0' && *(p + 1)) p++;`. -/
def skipZeros : List UInt8 → List UInt8
  | c :: d :: cs => if c = 48 then skipZeros (d :: cs) else c :: d :: cs
  | cs => cs

/-- The `switch` of `printf`.  The `l` that does not begin `%llx` falls through to the
default. -/
def printfDirective (m : ByteMem) (p : Int) (args : List Arg) : Option Piece :=
  if m p = 108 ∧ m (p + 1) = 108 ∧ m (p + 2) = 120 then
    match args with
    | .ull v :: args =>
        let text := skipZeros (hexDigits v)
        some ⟨text, text.length, p + 2, args⟩
    | _ => none
  else directive m p args

/-- The `switch` of `sprintf`. -/
def sprintfDirective (m : ByteMem) (p : Int) (args : List Arg) : Option Piece := directive m p args

/-- `for (int i = 0; fmt[i] != '\0'; i++)`: what has been put out, `count`, and the place
where the loop ends. -/
def formatLoop {σ : Type} (put : σ → UInt8 → σ)
    (switch : ByteMem → Int → List Arg → Option Piece) (m : ByteMem) :
    Nat → Int → List Arg → σ → Nat → Option (σ × Nat × Int)
  | 0, _, _, _, _ => none
  | rounds + 1, p, args, out, count =>
      if m p = 0 then some (out, count, p)
      else if m p = 37 then
        (switch m (p + 1) args).bind fun d =>
          formatLoop put switch m rounds (d.last + 1) d.args (d.text.foldl put out)
            (count + d.count)
      else formatLoop put switch m rounds (p + 1) args (put out (m p)) (count + 1)

/-- `putchar`: the characters written so far. -/
def putchar (out : List UInt8) (c : UInt8) : List UInt8 := out ++ [c]

/-- `str[str_index++] = c`: the memory of `str` and the place of the next character. -/
def putStr (s : ByteMem × Int) (c : UInt8) : ByteMem × Int := (Function.update s.1 s.2 c, s.2 + 1)

/-- `printf`: the characters written, the value returned and the place where the scan of
the format ends. -/
def printf (rounds : Nat) (m : ByteMem) (fmt : Int) (args : List Arg) :
    Option (List UInt8 × Nat × Int) :=
  formatLoop putchar printfDirective m rounds fmt args [] 0

/-- `sprintf`: the memory of `str`, the value returned and the place where the scan of
the format ends. -/
def sprintf (rounds : Nat) (m : ByteMem) (b : ByteMem) (str fmt : Int) (args : List Arg) :
    Option (ByteMem × Nat × Int) :=
  (formatLoop putStr sprintfDirective m rounds fmt args (b, str) 0).map fun r =>
    ((putStr r.1 0).1, r.2)

/-! ### What a format stands for -/

/-- The arguments match the directives of the format. -/
inductive WellTyped : List UInt8 → List Arg → Prop
  | nil (args : List Arg) : WellTyped [] args
  | plain {c : UInt8} {f : List UInt8} {args : List Arg} (hc : c ≠ 37) (h : WellTyped f args) :
      WellTyped (c :: f) args
  | str {f : List UInt8} {args : List Arg} (s : CString) (h : WellTyped f args) :
      WellTyped (37 :: 115 :: f) (.str s :: args)
  | dec {f : List UInt8} {args : List Arg} (n : Int32) (h : WellTyped f args) :
      WellTyped (37 :: 100 :: f) (.int n :: args)
  | chr {f : List UInt8} {args : List Arg} (n : Int32) (h : WellTyped f args) :
      WellTyped (37 :: 99 :: f) (.int n :: args)
  | hex {f : List UInt8} {args : List Arg} (v : UInt64) (h : WellTyped f args) :
      WellTyped (37 :: 108 :: 108 :: 120 :: f) (.ull v :: args)
  | other {d : UInt8} {f : List UInt8} {args : List Arg} (hd : d ≠ 115 ∧ d ≠ 100 ∧ d ≠ 99)
      (hl : ¬ [108, 108, 120] <+: d :: f) (h : WellTyped f args) : WellTyped (37 :: d :: f) args
  | trailing (args : List Arg) : WellTyped [37] args

/-- The format has no `%llx`, and no `%` at its end that begins a directive. -/
def Shared : List UInt8 → Prop
  | [] => True
  | [c] => c ≠ 37
  | c :: d :: f =>
      if c = 37 then ¬ [108, 108, 120] <+: d :: f ∧ Shared f else Shared (d :: f)

/-- A letter behind `%` that both functions treat alike: the arguments before it, its
text and the arguments that are left. -/
inductive Letter : UInt8 → List Arg → List UInt8 → List Arg → Prop
  | str (s : CString) (args : List Arg) : Letter 115 (.str s :: args) s.bytes args
  | dec {n : Int32} {t : List UInt8} (hn : intText n = some t) (args : List Arg) :
      Letter 100 (.int n :: args) t args
  | chr (n : Int32) (args : List Arg) : Letter 99 (.int n :: args) [charOf n] args
  | percent (args : List Arg) : Letter 37 args [37] args
  | other {d : UInt8} (hd : d ≠ 115 ∧ d ≠ 100 ∧ d ≠ 99 ∧ d ≠ 37) (args : List Arg) :
      Letter d args [37, d] args

/-- The text of a format that both functions know. -/
inductive Renders : List UInt8 → List Arg → List UInt8 → Prop
  | nil (args : List Arg) : Renders [] args []
  | plain {c : UInt8} {f text : List UInt8} {args : List Arg} (hc : c ≠ 37)
      (h : Renders f args text) : Renders (c :: f) args (c :: text)
  | letter {d : UInt8} {f t text : List UInt8} {args args' : List Arg}
      (hd : Letter d args t args') (hl : ¬ [108, 108, 120] <+: d :: f)
      (h : Renders f args' text) : Renders (37 :: d :: f) args (t ++ text)

theorem Shared.tail {c : UInt8} {f : List UInt8} (hc : c ≠ 37) (h : Shared (c :: f)) :
    Shared f := by
  cases f with
  | nil => exact trivial
  | cons d f =>
      rw [Shared, if_neg hc] at h
      exact h

theorem Shared.plain {c : UInt8} {f : List UInt8} (hc : c ≠ 37) (h : Shared f) :
    Shared (c :: f) := by
  cases f with
  | nil => exact hc
  | cons d f => rwa [Shared, if_neg hc]

theorem shared_letter {d : UInt8} {f : List UInt8} :
    Shared (37 :: d :: f) ↔ ¬ [108, 108, 120] <+: d :: f ∧ Shared f := by
  rw [Shared, if_pos rfl]

theorem not_long {d : UInt8} (f : List UInt8) (hd : d ≠ 108) : ¬ [108, 108, 120] <+: d :: f :=
  fun h => hd (List.cons_prefix_cons.mp h).1.symm

/-- The rule of induction over formats whose arguments match: the letters that both
functions know are one case. -/
theorem WellTyped.rec_letter {P : ∀ f args, WellTyped f args → Prop}
    (nil : ∀ args, P [] args (.nil args))
    (plain : ∀ {c f args} (hc : c ≠ 37) (h : WellTyped f args), P f args h →
      P (c :: f) args (.plain hc h))
    (letter : ∀ {d f t args args'} (_ : Letter d args t args')
      (_ : ¬ [108, 108, 120] <+: d :: f) (h : WellTyped f args')
      (h' : WellTyped (37 :: d :: f) args), P f args' h → P (37 :: d :: f) args h')
    (hex : ∀ {f args} v (h : WellTyped f args),
      P (37 :: 108 :: 108 :: 120 :: f) (.ull v :: args) (.hex v h))
    (trailing : ∀ args, P [37] args (.trailing args)) {f : List UInt8} {args : List Arg}
    (h : WellTyped f args) : P f args h := by
  induction h with
  | nil args => exact nil args
  | plain hc h ih => exact plain hc h ih
  | str s h ih => exact letter (.str s _) (not_long _ (by decide)) h _ ih
  | dec n h ih =>
      obtain ⟨t, hn⟩ := intText_isSome n
      exact letter (.dec hn _) (not_long _ (by decide)) h _ ih
  | chr n h ih => exact letter (.chr n _) (not_long _ (by decide)) h _ ih
  | hex v h ih => exact hex v h
  | @other d f args hd hl h ih =>
      by_cases hp : d = 37
      · subst hp
        exact letter (.percent _) hl h _ ih
      · exact letter (.other ⟨hd.1, hd.2.1, hd.2.2, hp⟩ _) hl h _ ih
  | trailing args => exact trailing args

/-- A format that both functions know has a text. -/
theorem WellTyped.renders {f : List UInt8} {args : List Arg} (h : WellTyped f args)
    (hs : Shared f) : ∃ text, Renders f args text := by
  induction h using WellTyped.rec_letter with
  | nil args => exact ⟨[], .nil args⟩
  | plain hc h ih =>
      obtain ⟨text, ht⟩ := ih (hs.tail hc)
      exact ⟨_, .plain hc ht⟩
  | letter hd hl h h' ih =>
      obtain ⟨text, ht⟩ := ih (shared_letter.mp hs).2
      exact ⟨_, .letter hd hl ht⟩
  | hex v h => exact absurd ⟨_, rfl⟩ (shared_letter.mp hs).1
  | trailing args => exact absurd rfl hs

theorem foldl_putchar (text out : List UInt8) : text.foldl putchar out = out ++ text := by
  induction text generalizing out with
  | nil => exact (List.append_nil out).symm
  | cons c cs ih =>
      rw [List.foldl_cons, ih, putchar, List.append_assoc]
      rfl

section Loop

variable {m : ByteMem} {p : Int} {σ : Type} {put : σ → UInt8 → σ}
  {switch : ByteMem → Int → List Arg → Option Piece}

/-- The two switches agree on what is no `%llx`. -/
theorem printfDirective_eq {d : UInt8} {f : List UInt8} (hm : m.Holds p (d :: f ++ [0]))
    (hl : ¬ [108, 108, 120] <+: d :: f) (args : List Arg) :
    printfDirective m p args = directive m p args := by
  apply if_neg
  rintro ⟨h1, h2, h3⟩
  apply hl
  obtain ⟨rfl, hm⟩ := hm
  rw [h1]
  -- the NUL is neither of the two letters
  rcases f with - | ⟨e, - | ⟨e', f⟩⟩
  · exact absurd (hm.1.symm.trans h2) (by decide)
  · exact absurd (hm.2.1.symm.trans ((congrArg m (by omega : p + 1 + 1 = p + 2)).trans h3))
      (by decide)
  · have he : e = 108 := hm.1.symm.trans h2
    have he' : e' = 120 := hm.2.1.symm.trans ((congrArg m (by omega : p + 1 + 1 = p + 2)).trans h3)
    rw [he, he']
    exact ⟨f, rfl⟩

/-- The `switch` does what both do, where it meets no `%llx`. -/
def Agrees (switch : ByteMem → Int → List Arg → Option Piece) (m : ByteMem) : Prop :=
  ∀ q d f args, m.Holds q (d :: f ++ [0]) → ¬ [108, 108, 120] <+: d :: f →
    switch m q args = directive m q args

theorem Letter.directive_eq {d : UInt8} {args args' : List Arg} {t : List UInt8}
    (h : Letter d args t args') {q : Int} (hq : m q = d) :
    directive m q args = some ⟨t, t.length, q, args'⟩ := by
  unfold directive
  cases h with
  | str s args => rw [if_pos hq]
  | dec hn args =>
      rw [hq, if_neg (by decide), if_pos rfl]
      simp only [hn, Option.map_some]
  | chr n args =>
      rw [hq, if_neg (by decide), if_neg (by decide), if_pos rfl]
      rfl
  | percent args =>
      rw [hq, if_neg (by decide), if_neg (by decide), if_neg (by decide), if_pos rfl]
      rfl
  | other hd args =>
      rw [hq, if_neg hd.1, if_neg hd.2.1, if_neg hd.2.2.1, if_neg hd.2.2.2]
      rfl

/-- One round reads the `%` and what the `switch` takes behind it. -/
theorem formatLoop_switch {args : List Arg} {d : Piece} (h37 : m p = 37)
    (hd : switch m (p + 1) args = some d) (n : Nat) (out : σ) (count : Nat) :
    formatLoop put switch m (n + 1) p args out count =
      formatLoop put switch m n (d.last + 1) d.args (d.text.foldl put out) (count + d.count) := by
  have h0 : m p ≠ 0 := by
    rw [h37]
    decide
  rw [formatLoop, if_neg h0, if_pos h37, hd]
  rfl

theorem formatLoop_letter (hswitch : Agrees switch m) {d : UInt8} {f t : List UInt8}
    {args args' : List Arg} (hd : Letter d args t args') (hl : ¬ [108, 108, 120] <+: d :: f)
    (hm : m.Holds p (37 :: d :: f ++ [0])) (n : Nat) (out : σ) (count : Nat) :
    formatLoop put switch m (n + 1) p args out count =
      formatLoop put switch m n (p + 1 + 1) args' (t.foldl put out) (count + t.length) := by
  obtain ⟨h37, hm⟩ := hm
  exact formatLoop_switch h37 ((hswitch (p + 1) d f args hm hl).trans (hd.directive_eq hm.1)) ..

theorem formatLoop_plain {c : UInt8} (hc : c ≠ 37) (hc0 : c ≠ 0) (hmp : m p = c)
    (args : List Arg) (n : Nat) (out : σ) (count : Nat) :
    formatLoop put switch m (n + 1) p args out count =
      formatLoop put switch m n (p + 1) args (put out c) (count + 1) := by
  rw [formatLoop, hmp, if_neg hc0, if_neg hc]

/-- The loop puts out `text` for the format `f`, wherever it is stored. -/
def PutsOut (put : σ → UInt8 → σ) (switch : ByteMem → Int → List Arg → Option Piece)
    (m : ByteMem) (f : List UInt8) (args : List Arg) (text : List UInt8) : Prop :=
  ∀ p n out count, f.length < n → m.Holds p (f ++ [0]) →
    formatLoop put switch m n p args out count =
      some (text.foldl put out, count + text.length, p + f.length)

/-- **The loop over a format** puts out its text, counts it, and ends at the NUL. -/
theorem Renders.putsOut (hswitch : Agrees switch m) {f text : List UInt8} {args : List Arg}
    (h : Renders f args text) (hnul : 0 ∉ f) : PutsOut put switch m f args text := by
  induction h with
  | nil args =>
      intro p n out count hn hm
      obtain ⟨n, rfl⟩ := Nat.exists_eq_succ_of_ne_zero (by omega : n ≠ 0)
      rw [formatLoop, if_pos hm.1]
      simp
  | plain hc h ih =>
      rw [List.mem_cons, not_or] at hnul
      intro p n out count hn hm
      obtain ⟨n, rfl⟩ := Nat.exists_eq_succ_of_ne_zero (by omega : n ≠ 0)
      rw [formatLoop_plain hc (Ne.symm hnul.1) hm.1,
        ih hnul.2 _ n _ _ (Nat.lt_of_succ_lt_succ hn) hm.2]
      simp only [List.foldl_cons, List.length_cons, Option.some.injEq, Prod.mk.injEq, true_and]
      omega
  | letter hd hl h ih =>
      rw [List.mem_cons, List.mem_cons, not_or, not_or] at hnul
      intro p n out count hn hm
      obtain ⟨n, rfl⟩ := Nat.exists_eq_succ_of_ne_zero (by omega : n ≠ 0)
      rw [List.length_cons, List.length_cons] at hn
      rw [formatLoop_letter hswitch hd hl hm, ih hnul.2.2 _ n _ _ (by omega) hm.2.2,
        List.foldl_append, List.length_append, ← Nat.add_assoc]
      simp only [List.length_cons, Option.some.injEq, Prod.mk.injEq, true_and]
      omega

/-- What is put out, and where the scan ends, does not depend on where it goes to. -/
theorem formatLoop_putchar (out : σ) (n : Nat) (p : Int) (args : List Arg) (text : List UInt8)
    (count : Nat) :
    formatLoop put switch m n p args (text.foldl put out) count =
      (formatLoop putchar switch m n p args text count).map fun r => (r.1.foldl put out, r.2) := by
  induction n generalizing p args text count with
  | zero => rfl
  | succ n ih =>
      rw [formatLoop, formatLoop]
      split
      · rfl
      · split
        · cases switch m (p + 1) args with
          | none => rfl
          | some d =>
              show formatLoop put switch m n _ _ (d.text.foldl put (text.foldl put out)) _ =
                (formatLoop putchar switch m n _ _ (d.text.foldl putchar text) _).map _
              rw [← List.foldl_append, foldl_putchar, ih]
        · show formatLoop put switch m n _ _ (put (text.foldl put out) (m p)) _ = _
          rw [← @List.foldl_concat _ _ put, ih]
          rfl

/-- Nothing is taken back. -/
theorem formatLoop_append {n k : Nat} {args : List Arg} {pre text : List UInt8} {count : Nat}
    {e : Int} (h : formatLoop putchar switch m n p args pre count = some (text, k, e)) :
    ∃ t, text = pre ++ t := by
  have hput := (formatLoop_putchar pre n p args [] count).symm.trans h
  obtain ⟨r, -, hr⟩ := Option.map_eq_some_iff.mp hput
  exact ⟨r.1, ((foldl_putchar r.1 pre).symm.trans (congrArg Prod.fst hr)).symm⟩

end Loop

theorem printf_agrees (m : ByteMem) : Agrees printfDirective m :=
  fun _ _ _ args hm hl => printfDirective_eq hm hl args

theorem sprintf_agrees (m : ByteMem) : Agrees sprintfDirective m := fun _ _ _ _ _ _ => rfl

/-! ### The two functions -/

/-- Characters stored one after the other. -/
theorem foldl_putStr (text : List UInt8) (b : ByteMem) (a : Int) :
    (text.foldl putStr (b, a)).2 = a + text.length ∧ (text.foldl putStr (b, a)).1.Holds a text ∧
      Set.EqOn (text.foldl putStr (b, a)).1 b (outside a (a + text.length)) := by
  induction text generalizing b a with
  | nil => exact ⟨(Int.add_zero a).symm, trivial, fun _ _ => rfl⟩
  | cons c cs ih =>
      obtain ⟨hplace, hholds, hframe⟩ := ih (Function.update b a c) (a + 1)
      have hlen : ((c :: cs).length : Int) = cs.length + 1 := by simp
      rw [hlen]
      refine ⟨?_, ⟨?_, hholds⟩, ?_⟩
      · rw [List.foldl_cons, putStr, hplace]
        omega
      · refine (hframe ?_).trans (Function.update_self a c b)
        exact .inl (by omega)
      · refine Set.EqOn.trans (eqOn_widen hframe (by omega) (by omega)) ?_
        exact eqOn_update c (le_refl a) (by omega)

theorem printf_renders {m : ByteMem} {fmt : Int} {f : CString} (hm : m.Holds fmt f.stored)
    {args : List Arg} {text : List UInt8} (h : Renders f.bytes args text) {rounds : Nat}
    (hr : f.bytes.length < rounds) :
    printf rounds m fmt args = some (text, text.length, fmt + f.bytes.length) := by
  unfold printf
  rw [h.putsOut (printf_agrees m) f.noNul fmt rounds [] 0 hr hm, foldl_putchar, Nat.zero_add]
  rfl

theorem sprintf_renders {m b : ByteMem} {fmt : Int} {f : CString} (hm : m.Holds fmt f.stored)
    {args : List Arg} {text : List UInt8} (h : Renders f.bytes args text) {rounds : Nat}
    (hr : f.bytes.length < rounds) (str : Int) :
    ∃ b', sprintf rounds m b str fmt args = some (b', text.length, fmt + f.bytes.length) ∧
      b'.Holds str (text ++ [0]) ∧ Set.EqOn b' b (outside str (str + text.length + 1)) := by
  -- the NUL is one more character put
  obtain ⟨-, hholds, hframe⟩ := foldl_putStr (text ++ [0]) b str
  refine ⟨((text ++ [0]).foldl putStr (b, str)).1, ?_, hholds, eqOn_widen hframe le_rfl ?_⟩
  · unfold sprintf
    rw [h.putsOut (sprintf_agrees m) f.noNul fmt rounds (b, str) 0 hr hm, List.foldl_append,
      Nat.zero_add]
    rfl
  · simp only [List.length_append, List.length_singleton]
    omega

/-- A directive ends where it begins or behind. -/
theorem directive_last {m : ByteMem} {q : Int} {args : List Arg} {d : Piece}
    (h : directive m q args = some d) : d.last = q := by
  unfold directive at h
  repeat' split at h
  all_goals grind [Option.map_eq_some_iff]

theorem sprintf_le_end {m : ByteMem} {n k : Nat} {p e : Int} {args : List Arg}
    {pre text : List UInt8} {count : Nat}
    (h : formatLoop putchar sprintfDirective m n p args pre count = some (text, k, e)) :
    p ≤ e := by
  induction n generalizing p args pre count with
  | zero => cases h
  | succ n ih =>
      rw [formatLoop] at h
      split at h
      · cases h
        exact le_rfl
      · split at h
        · obtain ⟨d, hd, h⟩ := Option.bind_eq_some_iff.mp h
          have hle := ih h
          rw [directive_last hd] at hle
          omega
        · have hle := ih h
          omega

theorem skipZeros_head {cs : List UInt8} (h : ∀ c ∈ cs, c ≠ 37) (hne : cs ≠ []) :
    ∃ c ds, skipZeros cs = c :: ds ∧ c ≠ 37 := by
  induction cs with
  | nil => exact absurd rfl hne
  | cons c cs ih =>
      cases cs with
      | nil => exact ⟨c, [], rfl, h c List.mem_cons_self⟩
      | cons d ds =>
          rw [skipZeros]
          split
          · exact ih (fun e he => h e (List.mem_cons_of_mem _ he)) (List.cons_ne_nil d ds)
          · exact ⟨c, d :: ds, rfl, h c List.mem_cons_self⟩

/-- The first digit of a number in hexadecimal is no `%`. -/
theorem hexText_head (v : UInt64) : ∃ c cs, skipZeros (hexDigits v) = c :: cs ∧ c ≠ 37 := by
  apply skipZeros_head
  · intro c hc
    obtain ⟨j, -, rfl⟩ := List.mem_map.mp hc
    have hd : (v >>> UInt64.ofNat (4 * (15 - j)) &&& 0xF).toNat < 16 := by
      rw [UInt64.toNat_and]
      exact lt_of_le_of_lt Nat.and_le_right (by decide)
    generalize (v >>> UInt64.ofNat (4 * (15 - j)) &&& 0xF).toNat = d at hd
    dsimp only
    interval_cases d <;> decide
  · rw [hexDigits, List.range_succ_eq_map]
    exact List.cons_ne_nil _ _

/-- **Where the two functions part**: a format on which they put out the same
characters, `sprintf` stopping at the NUL, is one that both know. -/
theorem WellTyped.shared {m b : ByteMem} {str p e : Int} {f : List UInt8} {args : List Arg}
    (h : WellTyped f args) {n count k k' : Nat} {pre text text' : List UInt8} (hnul : 0 ∉ f)
    (hm : m.Holds p (f ++ [0]))
    (hp : formatLoop putchar printfDirective m n p args pre count = some (text, k, e))
    (hs : formatLoop putchar sprintfDirective m n p args pre count =
      some (text', k', p + f.length))
    (ht : b.Holds str text) (ht' : b.Holds str text') : Shared f := by
  induction h using WellTyped.rec_letter generalizing p n count pre with
  | nil args => exact trivial
  | @plain c f args hc h ih =>
      rw [List.mem_cons, not_or] at hnul
      cases n with
      | zero => cases hp
      | succ n =>
          rw [formatLoop_plain hc (Ne.symm hnul.1) hm.1] at hp hs
          refine .plain hc (ih hnul.2 hm.2 hp ?_)
          rw [hs, List.length_cons, Nat.cast_succ, Int.add_assoc, Int.add_comm 1]
  | @letter d f t args args' hd hl h h' ih =>
      rw [List.mem_cons, List.mem_cons, not_or, not_or] at hnul
      cases n with
      | zero => cases hp
      | succ n =>
          rw [formatLoop_letter (printf_agrees m) hd hl hm] at hp
          rw [formatLoop_letter (sprintf_agrees m) hd hl hm] at hs
          refine shared_letter.mpr ⟨hl, ih hnul.2.2 hm.2.2 hp ?_⟩
          rw [hs]
          simp only [List.length_cons, Option.some.injEq, Prod.mk.injEq, true_and]
          omega
  | @hex f args v h =>
      -- the next character is a hexadecimal digit of `printf` and the `%` of `sprintf`
      cases n with
      | zero => cases hp
      | succ n =>
          obtain ⟨h37, hl, hl', hx, -⟩ := hm
          rw [show p + 1 + 1 + 1 = p + 1 + 2 by omega] at hx
          have hd : sprintfDirective m (p + 1) (.ull v :: args) =
              some ⟨[37, 108], 2, p + 1, .ull v :: args⟩ :=
            (Letter.other (by decide) _).directive_eq hl
          rw [formatLoop_switch h37 (if_pos ⟨hl, hl', hx⟩), foldl_putchar] at hp
          rw [formatLoop_switch h37 hd, foldl_putchar] at hs
          obtain ⟨c, cs, hhead, hc⟩ := hexText_head v
          obtain ⟨t, rfl⟩ := formatLoop_append hp
          obtain ⟨t', rfl⟩ := formatLoop_append hs
          rw [hhead, List.append_assoc, ByteMem.holds_append] at ht
          rw [List.append_assoc, ByteMem.holds_append] at ht'
          exact absurd (ht.2.1.symm.trans ht'.2.1) hc
  | trailing args =>
      -- `sprintf` goes on behind the NUL
      cases n with
      | zero => cases hs
      | succ n =>
          obtain ⟨h37, h0, -⟩ := hm
          have hd : sprintfDirective m (p + 1) args = some ⟨[37, 0], 2, p + 1, args⟩ :=
            (Letter.other (by decide) args).directive_eq h0
          rw [formatLoop_switch h37 hd] at hs
          have hle : p + 1 + 1 ≤ p + ([37] : List UInt8).length := sprintf_le_end hs
          rw [List.length_singleton] at hle
          omega

/-- `sprintf` stores the characters that `printf` writes and a NUL behind them, both
return their number, and both end their scan at the NUL of the format. -/
def Agree (rounds : Nat) (m : ByteMem) (f : CString) (fmt : Int) (args : List Arg) (b : ByteMem)
    (str : Int) : Prop :=
  ∃ text b', printf rounds m fmt args = some (text, text.length, fmt + f.bytes.length) ∧
    sprintf rounds m b str fmt args = some (b', text.length, fmt + f.bytes.length) ∧
    b'.Holds str (text ++ [0]) ∧ Set.EqOn b' b (outside str (str + text.length + 1))

/-- **`printf` and `sprintf` agree** exactly on the formats without `%llx` and without
a lonely `%` at the end. -/
theorem sprintf_stores_printf {f : CString} {args : List Arg} (htyped : WellTyped f.bytes args)
    {m : ByteMem} {fmt : Int} (hm : m.Holds fmt f.stored) (b : ByteMem) (str : Int) {rounds : Nat}
    (hr : f.bytes.length < rounds) :
    Agree rounds m f fmt args b str ↔ Shared f.bytes := by
  constructor
  · rintro ⟨text, b', hp, hs, hb, -⟩
    rw [sprintf, show (b, str) = ([] : List UInt8).foldl putStr (b, str) from rfl,
      formatLoop_putchar, Option.map_map] at hs
    obtain ⟨⟨text', k, e⟩, hloop, hr⟩ := Option.map_eq_some_iff.mp hs
    obtain ⟨rfl, -, rfl⟩ := hr
    have hstored := (foldl_putStr (text' ++ [0]) b str).2.1
    rw [List.foldl_concat] at hstored
    exact htyped.shared f.noNul hm hp hloop (ByteMem.holds_append.mp hb).1
      (ByteMem.holds_append.mp hstored).1
  · intro hshared
    obtain ⟨text, ht⟩ := htyped.renders hshared
    obtain ⟨b', hb', hrest⟩ := sprintf_renders (b := b) hm ht hr str
    exact ⟨text, b', printf_renders hm ht hr, hb', hrest⟩

/-- A string literal, stored from address `0` on. -/
def literal (f : CString) : ByteMem := fun x => f.stored.getD x.toNat 0

theorem holds_getD (pre l : List UInt8) :
    ByteMem.Holds (fun x => (pre ++ l).getD x.toNat 0) pre.length l := by
  induction l generalizing pre with
  | nil => exact trivial
  | cons c cs ih =>
      have h := ih (pre ++ [c])
      rw [List.append_assoc, List.length_append, List.length_singleton, Nat.cast_add] at h
      refine ⟨?_, h⟩
      show (pre ++ c :: cs).getD (pre.length : Int).toNat 0 = c
      simp

theorem literal_holds (f : CString) : (literal f).Holds 0 f.stored := holds_getD [] f.stored

/-- `%d` of five and of a string. -/
theorem sprintf_stores_printf_two : ∃ text b',
    printf 6 (literal ⟨[37, 100, 58, 37, 115], by decide⟩) 0 [.int 5, .str ⟨[97], by decide⟩] =
      some (text, text.length, 5) ∧
    sprintf 6 (literal ⟨[37, 100, 58, 37, 115], by decide⟩) (fun _ => 0) 100 0
      [.int 5, .str ⟨[97], by decide⟩] = some (b', text.length, 5) ∧
    b'.Holds 100 (text ++ [0]) := by
  have htyped : WellTyped [37, 100, 58, 37, 115] [.int 5, .str ⟨[97], by decide⟩] :=
    .dec 5 (.plain (by decide) (.str _ (.nil [])))
  have hshared : Shared [37, 100, 58, 37, 115] := by
    simp only [Shared, List.cons_prefix_cons]
    decide
  obtain ⟨text, b', hp, hs, hb, -⟩ := (sprintf_stores_printf
    (f := ⟨[37, 100, 58, 37, 115], by decide⟩) htyped (literal_holds _) (fun _ => 0) 100
    (Nat.lt_succ_self 5)).mpr hshared
  exact ⟨text, b', hp, hs, hb⟩

/-- **Where they differ**: `sprintf` copies a `%llx` that `printf` prints in
hexadecimal, and a `%` at the end of a format makes `sprintf` step over the NUL and
go on with what is stored behind it. -/
theorem sprintf_differs :
    (WellTyped [37, 108, 108, 120] [.ull 255] ∧ ∃ b',
      printf 5 (literal ⟨[37, 108, 108, 120], by decide⟩) 0 [.ull 255] = some ([70, 70], 2, 4) ∧
      sprintf 5 (literal ⟨[37, 108, 108, 120], by decide⟩) (fun _ => 0) 0 0 [.ull 255] =
        some (b', 4, 4) ∧ b'.Holds 0 [37, 108, 108, 120, 0]) ∧
    (WellTyped [37] [] ∧ ∃ m b' : ByteMem, m.Holds 0 (CString.mk [37] (by decide)).stored ∧
      sprintf 3 m (fun _ => 0) 0 0 [] = some (b', 3, 3)) := by
  refine ⟨⟨.hex 255 (.nil []), _, rfl, rfl, rfl, rfl, rfl, rfl, rfl, trivial⟩, .trailing [],
    fun x => [37, 0, 120, 0].getD x.toNat 0, _, ⟨rfl, rfl, trivial⟩, rfl⟩

/-! ### The round trip -/

theorem CString.of_digits {text : List UInt8} (h : ∀ c ∈ text, 45 ≤ c.toNat) : 0 ∉ text :=
  fun h0 => absurd (h 0 h0) (by decide)

/-- What `%d` writes is the canonical text, and `atoi` reads it back. -/
theorem intText_spec {n : Int32} (hn : n ≠ Int32.minValue) :
    ∃ (text : CString) (digits : List UInt8), intText n = some text.bytes ∧
      text.bytes = (if n.toInt < 0 then [45] else []) ++ digits ∧
      Canonical digits n.toInt.natAbs ∧ digits.length ≤ 12 ∧ atoi text = n := by
  have hlen : (numeral 10 n.toInt.natAbs).length ≤ 12 := by
    have hlo := n.le_toInt
    have hhi := n.toInt_lt
    apply numeral_length_le (by decide) (by decide)
    have h12 : (10 : Nat) ^ 12 = 1000000000000 := by norm_num
    omega
  have hdigits : ∀ c ∈ numeral 10 n.toInt.natAbs, 45 ≤ c.toNat := fun c hc => by
    have h := numeral_digit hc
    omega
  rcases lt_or_ge n.toInt 0 with hneg | hpos
  · refine ⟨⟨45 :: numeral 10 n.toInt.natAbs, CString.of_digits ?_⟩, numeral 10 n.toInt.natAbs,
      intText_of_neg hneg hn, ?_, numeral_canonical _, hlen, ?_⟩
    · intro c hc
      rcases List.mem_cons.mp hc with rfl | hc
      · decide
      · exact hdigits c hc
    · rw [if_pos hneg]
      rfl
    · rw [atoi_minus rfl, ← Int32.ofInt_eq_ofNat, ← Int32.ofInt_neg]
      rw [show -((n.toInt.natAbs : Nat) : Int) = n.toInt by omega]
      exact n.ofInt_toInt
  · refine ⟨⟨numeral 10 n.toInt.natAbs, CString.of_digits hdigits⟩, numeral 10 n.toInt.natAbs, ?_,
      ?_, numeral_canonical _, hlen, ?_⟩
    · rcases hpos.eq_or_lt with hzero | hpos
      · have h0 : n = 0 := Int32.toInt_inj.mp hzero.symm
        subst h0
        rfl
      · rw [intText_of_pos hpos, show n.toInt.toNat = n.toInt.natAbs by omega]
    · rw [if_neg (by omega)]
      rfl
    · rw [atoi_numeral rfl, ← Int32.ofInt_eq_ofNat]
      rw [show ((n.toInt.natAbs : Nat) : Int) = n.toInt by omega]
      exact n.ofInt_toInt

/-- **The round trip of integers**: for every `int` but the least one, `sprintf` with
`%d` stores its canonical decimal text, within `buf[12]`, and `atoi` of that text
gives the number back. -/
theorem sprintf_atoi {n : Int32} (hn : n ≠ Int32.minValue) {m : ByteMem} {fmt : Int}
    (hm : m.Holds fmt [37, 100, 0]) (b : ByteMem) (str : Int) {rounds : Nat} (hr : 2 < rounds) :
    ∃ (text : CString) (digits : List UInt8) (b' : ByteMem),
      sprintf rounds m b str fmt [.int n] = some (b', text.bytes.length, fmt + 2) ∧
      b'.Holds str text.stored ∧ text.bytes = (if n.toInt < 0 then [45] else []) ++ digits ∧
      Canonical digits n.toInt.natAbs ∧ digits.length ≤ 12 ∧ atoi text = n := by
  obtain ⟨text, digits, htext, hsign, hcan, hlen, hatoi⟩ := intText_spec hn
  have hrender : Renders [37, 100] [.int n] (text.bytes ++ []) :=
    .letter (.dec htext []) (not_long _ (by decide)) (.nil [])
  rw [List.append_nil] at hrender
  obtain ⟨b', hb', hholds, -⟩ := sprintf_renders (b := b) (f := ⟨[37, 100], by decide⟩) hm hrender
    hr str
  exact ⟨text, digits, b', hb', hholds, hsign, hcan, hlen, hatoi⟩

theorem sprintf_atoi_negative : ∃ (text : CString) (b' : ByteMem),
    sprintf 3 (literal ⟨[37, 100], by decide⟩) (fun _ => 0) 0 0 [.int (-7)] =
      some (b', text.bytes.length, 2) ∧ b'.Holds 0 text.stored ∧ atoi text = -7 := by
  obtain ⟨text, -, b', hb', hholds, -, -, -, hatoi⟩ := sprintf_atoi (n := -7) (by decide)
    (literal_holds ⟨[37, 100], by decide⟩) (fun _ => 0) 0 (Nat.lt_succ_self 2)
  exact ⟨text, b', hb', hholds, hatoi⟩

/-- The least `int` is its own negation, so the digit loop does not run: the text is a
minus, and `atoi` makes `0` of it. -/
theorem sprintf_least_int : ∃ b' : ByteMem,
    sprintf 3 (literal ⟨[37, 100], by decide⟩) (fun _ => 0) 0 0 [.int Int32.minValue] =
      some (b', 1, 2) ∧ b'.Holds 0 [45, 0] ∧ atoi ⟨[45], by decide⟩ = 0 :=
  ⟨_, rfl, ⟨rfl, rfl, trivial⟩, rfl⟩

end TP2Kernel
