/-
TP2Kernel/Filters.lean

The programs `cat`, `filter` and `wc` of `Userland/SampleCodeModule/apps`.

What they read is a `Feed`: the results of `sys_read` one after the other, chunks of
1 to 128 bytes and at last a result that is not positive.  A program stops at the
first byte `EOF_CHAR`, which can be anywhere in a chunk, and leaves the rest of the
feed unread.  What it puts out depends only on the bytes of the feed up to there
(`upToEof`), not on where the chunks end.
-/
import TP2Kernel.Format

namespace TP2Kernel

/-- `IO_BUFFER_SIZE`. -/
def ioBufferSize : Nat := 128

/-- `EOF_CHAR`. -/
def eofChar : UInt8 := 4

/-- What the calls of `sys_read` give. -/
inductive Feed
  | ends (ret : Int32) (h : ret ≤ 0)
  | chunk (bytes : List UInt8) (h : 1 ≤ bytes.length ∧ bytes.length ≤ ioBufferSize) (rest : Feed)

/-- All the bytes, with the cuts removed. -/
def Feed.stream : Feed → List UInt8
  | .ends _ _ => []
  | .chunk bytes _ rest => bytes ++ rest.stream

/-! ### The programs -/

/-- The search for `EOF_CHAR` in `cat_main`: the new `read`, and `eof`. -/
def findEof : List UInt8 → Nat → Nat × Bool
  | [], i => (i, false)
  | c :: cs, i => if c = eofChar then (i, true) else findEof cs (i + 1)

/-- `sys_write`, which is called only if there is something to write. -/
def written (out : List UInt8) : List (List UInt8) := if 0 < out.length then [out] else []

/-- `cat_main`: the buffers given to `sys_write`. -/
def catMain : Feed → List (List UInt8)
  | .ends _ _ => []
  | .chunk bytes _ rest =>
      -- `read` is cut at the mark, and then nothing more is read
      let r := findEof bytes 0
      written (bytes.take r.1) ++ if r.2 then [] else catMain rest

/-- `is_vowel`. -/
def isVowel (c : UInt8) : Bool :=
  -- `aeiou`, then `AEIOU`
  c == 97 || c == 101 || c == 105 || c == 111 || c == 117 ||
    c == 65 || c == 69 || c == 73 || c == 79 || c == 85

/-- The loop of `filter_main` over a chunk: `output`, and whether `EOF_CHAR` was met. -/
def filterLoop : List UInt8 → List UInt8 → List UInt8 × Bool
  | [], output => (output, false)
  | c :: cs, output =>
      if c = eofChar then (output, true)
      else filterLoop cs (if isVowel c then output else output ++ [c])

/-- `filter_main`: the buffers given to `sys_write`. -/
def filterMain : Feed → List (List UInt8)
  | .ends _ _ => []
  | .chunk bytes _ rest =>
      let r := filterLoop bytes []
      written r.1 ++ if r.2 then [] else filterMain rest

/-- The loop of `wc_main` over a chunk: `lines`, and whether `EOF_CHAR` was met. -/
def countLoop : List UInt8 → Int32 → Int32 × Bool
  | [], lines => (lines, false)
  | c :: cs, lines =>
      if c = eofChar then (lines, true) else countLoop cs (if c = 10 then lines + 1 else lines)

/-- `printf("%d\n", lines)`. -/
def printLines (lines : Int32) : Option (List UInt8) :=
  (printf 4 (literal ⟨[37, 100, 10], by decide⟩) 0 [.int lines]).map Prod.fst

/-- `wc_main`, from the value of `lines` on: what is printed. -/
def wcMain : Feed → Int32 → Option (List UInt8)
  | .ends _ _, lines => printLines lines
  | .chunk bytes _ rest, lines =>
      let r := countLoop bytes lines
      if r.2 then printLines r.1 else wcMain rest r.1

/-! ### Up to the end of file -/

/-- The bytes before the first `EOF_CHAR`. -/
def upToEof (s : List UInt8) : List UInt8 := s.takeWhile (· ≠ eofChar)

theorem upToEof_cons (c : UInt8) (cs : List UInt8) :
    upToEof (c :: cs) = if c = eofChar then [] else c :: upToEof cs := by
  unfold upToEof
  by_cases h : c = eofChar
  · rw [if_pos h, List.takeWhile_cons_of_neg (by simpa using h)]
  · rw [if_neg h, List.takeWhile_cons_of_pos (by simpa using h)]

/-- What a chunk adds: all of it and what follows, or what is before its first
`EOF_CHAR`. -/
theorem upToEof_append (s t : List UInt8) :
    upToEof (s ++ t) = upToEof s ++ if eofChar ∈ s then [] else upToEof t := by
  induction s with
  | nil => rfl
  | cons c cs ih =>
      rw [List.cons_append, upToEof_cons, upToEof_cons]
      by_cases h : c = eofChar
      · rw [if_pos h, if_pos h, if_pos (h ▸ List.mem_cons_self)]
        rfl
      · have hmem : eofChar ∈ c :: cs ↔ eofChar ∈ cs := by
          rw [List.mem_cons, or_iff_right (Ne.symm h)]
        rw [if_neg h, if_neg h, ih, if_congr hmem rfl rfl]
        rfl

theorem written_flatten (out : List UInt8) : (written out).flatten = out := by
  cases out with
  | nil => rfl
  | cons c cs =>
      rw [written, if_pos (List.length_pos_of_mem List.mem_cons_self)]
      exact List.append_nil _

/-! ### What a chunk does -/

theorem findEof_eq (cs : List UInt8) (i : Nat) :
    findEof cs i = (i + (upToEof cs).length, decide (eofChar ∈ cs)) := by
  induction cs generalizing i with
  | nil => rfl
  | cons c cs ih =>
      rw [findEof, upToEof_cons]
      by_cases h : c = eofChar
      · simp [h]
      · rw [if_neg h, if_neg h, ih]
        simp only [List.length_cons, List.mem_cons, Ne.symm h, false_or, Prod.mk.injEq, and_true]
        omega

theorem filterLoop_eq (cs output : List UInt8) :
    filterLoop cs output =
      (output ++ (upToEof cs).filter fun c => !isVowel c, decide (eofChar ∈ cs)) := by
  induction cs generalizing output with
  | nil =>
      show (output, false) = (output ++ [], false)
      rw [List.append_nil]
  | cons c cs ih =>
      rw [filterLoop, upToEof_cons]
      by_cases h : c = eofChar
      · simp [h]
      · rw [if_neg h, if_neg h, ih]
        cases hv : isVowel c <;> simp [hv, Ne.symm h]

theorem countLoop_eq (cs : List UInt8) (lines : Nat) :
    countLoop cs (Int32.ofNat lines) =
      (Int32.ofNat (lines + (upToEof cs).count 10), decide (eofChar ∈ cs)) := by
  induction cs generalizing lines with
  | nil => rfl
  | cons c cs ih =>
      rw [countLoop, upToEof_cons]
      by_cases h : c = eofChar
      · simp [h]
      · have hone : Int32.ofNat lines + 1 = Int32.ofNat (lines + 1) := (Int32.ofNat_add lines 1).symm
        rw [if_neg h, if_neg h, hone, ← apply_ite Int32.ofNat, ih, List.count_cons]
        simp only [List.mem_cons, Ne.symm h, false_or, Prod.mk.injEq, and_true]
        congr 1
        by_cases h10 : c = 10
        · simp only [h10, if_true, BEq.rfl]
          omega
        · simp only [h10, if_false, beq_iff_eq]
          omega

/-! ### What the programs put out -/

theorem catMain_flatten (feed : Feed) : (catMain feed).flatten = upToEof feed.stream := by
  induction feed with
  | ends ret h => rfl
  | chunk bytes h rest ih =>
      have htake : bytes.take (upToEof bytes).length = upToEof bytes :=
        (List.prefix_iff_eq_take.mp (List.takeWhile_prefix _)).symm
      rw [catMain, Feed.stream, upToEof_append, findEof_eq]
      simp only [Nat.zero_add, List.flatten_append, written_flatten, decide_eq_true_eq, htake]
      split
      · rfl
      · rw [ih]

theorem filterMain_flatten (feed : Feed) :
    (filterMain feed).flatten = (upToEof feed.stream).filter fun c => !isVowel c := by
  induction feed with
  | ends ret h => rfl
  | chunk bytes h rest ih =>
      rw [filterMain, Feed.stream, upToEof_append, filterLoop_eq]
      simp only [List.nil_append, List.flatten_append, written_flatten, decide_eq_true_eq,
        List.filter_append]
      split
      · rfl
      · rw [ih]

theorem wcMain_eq (feed : Feed) (lines : Nat) :
    wcMain feed (Int32.ofNat lines) =
      printLines (Int32.ofNat (lines + (upToEof feed.stream).count 10)) := by
  induction feed generalizing lines with
  | ends ret h => rfl
  | chunk bytes h rest ih =>
      rw [wcMain, Feed.stream, upToEof_append, countLoop_eq, List.count_append]
      simp only [decide_eq_true_eq]
      split
      · rfl
      · rw [ih, Nat.add_assoc]

theorem printLines_eq {lines : Nat} (h : lines < 2 ^ 31) :
    printLines (Int32.ofNat lines) = some (numeral 10 lines ++ [10]) := by
  have htoInt : (Int32.ofNat lines).toInt = lines := Int32.toInt_ofNat_of_lt h
  have htext : intText (Int32.ofNat lines) = some (numeral 10 lines) := by
    rcases Nat.eq_zero_or_pos lines with rfl | hpos
    · rfl
    · rw [intText_of_pos (by omega), htoInt]
      rfl
  have hrender : Renders [37, 100, 10] [.int (Int32.ofNat lines)] (numeral 10 lines ++ [10]) :=
    .letter (.dec htext []) (not_long _ (by decide)) (.plain (by decide) (.nil []))
  unfold printLines
  rw [printf_renders (literal_holds ⟨[37, 100, 10], by decide⟩) hrender (Nat.lt_succ_self 3)]
  rfl

/-- **The filters do not depend on the chunks**: `cat` writes the bytes before the
first `EOF_CHAR`, `filter` writes them without the ten vowels, and `wc` prints the
number of newlines among them. -/
theorem filters_ignore_chunks (feed : Feed) :
    (catMain feed).flatten = feed.stream.takeWhile (· ≠ 4) ∧
    (filterMain feed).flatten = (feed.stream.takeWhile (· ≠ 4)).filter
      (· ∉ [97, 101, 105, 111, 117, 65, 69, 73, 79, 85]) ∧
    ((feed.stream.takeWhile (· ≠ 4)).count 10 < 2 ^ 31 →
      wcMain feed 0 = some (numeral 10 ((feed.stream.takeWhile (· ≠ 4)).count 10) ++ [10])) := by
  refine ⟨catMain_flatten feed, ?_, fun hlines => ?_⟩
  · rw [filterMain_flatten]
    apply List.filter_congr
    intro c _
    rw [Bool.eq_iff_iff]
    simp [isVowel, and_assoc]
  · have h := wcMain_eq feed 0
    rw [Nat.zero_add] at h
    exact h.trans (printLines_eq hlines)

/-- Two chunks, with the end of file inside the second one. -/
theorem filters_ignore_chunks_two : ∃ feed : Feed,
    (catMain feed).flatten = [97, 10, 98] ∧ (filterMain feed).flatten = [10, 98] ∧
      wcMain feed 0 = some (numeral 10 1 ++ [10]) := by
  let feed : Feed := .chunk [97, 10] (by decide) (.chunk [98, 4, 10] (by decide) (.ends 0 (by decide)))
  obtain ⟨hcat, hfilter, hwc⟩ := filters_ignore_chunks feed
  exact ⟨feed, hcat, hfilter, hwc (by decide)⟩

end TP2Kernel
