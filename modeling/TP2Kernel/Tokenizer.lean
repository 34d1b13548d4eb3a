/-
TP2Kernel/Tokenizer.lean

`fillCommandAndArgs` of `Userland/SampleCodeModule/shell/commands_utils.c`, which
cuts a command line into words.  It writes a NUL over every space it passes, in the
line it is reading, and notes the address of the first character of each word.

The loop ends with the line or with the word number `MAX_ARGS`, whichever comes
first.  In the second case the rest of the line is not looked at, so the spaces
behind the start of that word stay where they are.

`heads` are the addresses where words begin.  Reading a string from such an address,
in a line whose spaces are NULs, gives the word (`heads_words`).
-/
import Mathlib.Data.List.Forall2
import TP2Kernel.CMemory

namespace TP2Kernel

/-- `MAX_ARGS`. -/
def maxArgs : Nat := 8

/-- The memory with the line, the array `args` (a null pointer is `0`), and the local
variables. -/
structure Scan where
  mem : ByteMem
  args : Nat → Int
  argc : Nat
  inArg : Bool

/-- The body of the loop, for the character at `p`. -/
def Scan.step (s : Scan) (p : Int) : Scan :=
  -- a space ends a word, and the first character behind one begins the next
  if s.mem p = 32 then { s with mem := Function.update s.mem p 0, inArg := false }
  else if s.inArg = false then
    { s with args := Function.update s.args s.argc p, argc := s.argc + 1, inArg := true }
  else s

/-- `for (int i = 0; input[i] != '\0' && argc < MAX_ARGS; i++)`, for at most `rounds`
rounds; `p` is the address of `input[i]`. -/
def fillLoop : Nat → Int → Scan → Option Scan
  | 0, _, _ => none
  | rounds + 1, p, s =>
      if s.mem p ≠ 0 ∧ s.argc < maxArgs then fillLoop rounds (p + 1) (s.step p) else some s

/-- `fillCommandAndArgs`. -/
def fillCommandAndArgs (rounds : Nat) (mem : ByteMem) (args : Nat → Int) (input : Int) :
    Option Scan :=
  (fillLoop rounds input ⟨mem, args, 0, false⟩).map fun s =>
    { s with args := Function.update s.args s.argc 0 }

theorem Scan.step_mem (s : Scan) {p x : Int} (hx : x ≠ p) : (s.step p).mem x = s.mem x := by
  unfold step
  split
  · exact Function.update_of_ne hx _ _
  · split <;> rfl

theorem Scan.step_argc (s : Scan) (p : Int) (h : s.argc < maxArgs) :
    (s.step p).argc ≤ maxArgs := by
  unfold step
  split
  · exact h.le
  · split
    · exact h
    · exact h.le

/-! ### Words -/

/-- The words of a line: the maximal runs of characters that are not spaces. -/
def words (line : List UInt8) : List (List UInt8) :=
  (line.splitOnP (· == 32)).filter (· ≠ [])

/-- The addresses where words begin, in a text at `p`; the flag says whether the
character before it belongs to a word. -/
def heads : Bool → Int → List UInt8 → List Int
  | _, _, [] => []
  | inWord, p, c :: cs =>
      if c = 32 then heads false (p + 1) cs
      else if inWord = false then p :: heads true (p + 1) cs
      else heads true (p + 1) cs

/-- A space becomes a NUL. -/
def blanked (c : UInt8) : UInt8 := if c = 32 then 0 else c

theorem splitOnP_space (cs : List UInt8) :
    (32 :: cs).splitOnP (· == 32) = [] :: cs.splitOnP (· == 32) := by
  rw [List.splitOnP_cons_eq_if_modifyHead]
  exact if_pos rfl

/-- A character that is no space makes the first piece longer. -/
theorem splitOnP_char {c : UInt8} (hc : c ≠ 32) {cs w : List UInt8} {ws : List (List UInt8)}
    (h : cs.splitOnP (· == 32) = w :: ws) :
    (c :: cs).splitOnP (· == 32) = (c :: w) :: ws := by
  rw [List.splitOnP_cons_eq_if_modifyHead, if_neg (by simpa using hc), h]
  rfl

theorem heads_length (p : Int) (cs : List UInt8) :
    (heads false p cs).length = (words cs).length ∧
      ∀ w ws, cs.splitOnP (· == 32) = w :: ws →
        (heads true p cs).length = (ws.filter (· ≠ [])).length := by
  induction cs generalizing p with
  | nil =>
      refine ⟨rfl, ?_⟩
      rintro w ws ⟨⟩
      rfl
  | cons c cs ih =>
      obtain ⟨hout, hin⟩ := ih (p + 1)
      obtain ⟨w, ws, hws⟩ := List.exists_cons_of_ne_nil (List.splitOnP_ne_nil (· == 32) cs)
      by_cases hc : c = 32
      · subst hc
        refine ⟨?_, ?_⟩
        · rw [heads, if_pos rfl, hout, words, words, splitOnP_space]
          rfl
        · intro w' ws' h
          rw [splitOnP_space, List.cons.injEq] at h
          rw [heads, if_pos rfl, hout, words, h.2]
      · refine ⟨?_, ?_⟩
        · rw [heads, if_neg hc, if_pos rfl, List.length_cons, hin w ws hws, words,
            splitOnP_char hc hws]
          rfl
        · intro w' ws' h
          rw [splitOnP_char hc hws, List.cons.injEq] at h
          rw [heads, if_neg hc, if_neg (by decide), hin w ws hws, h.2]

/-- **Words are read back from their heads**, once the spaces are NULs.  Inside a word
the text begins with the rest of that word. -/
theorem heads_words {m : ByteMem} (cs : List UInt8) (p : Int)
    (hm : m.Holds p (cs.map blanked ++ [0])) :
    List.Forall₂ (fun a w => m.Holds a (w ++ [0])) (heads false p cs) (words cs) ∧
      ∀ w ws, cs.splitOnP (· == 32) = w :: ws → m.Holds p (w ++ [0]) ∧
        List.Forall₂ (fun a w => m.Holds a (w ++ [0])) (heads true p cs)
          (ws.filter (· ≠ [])) := by
  induction cs generalizing p with
  | nil =>
      refine ⟨.nil, ?_⟩
      rintro w ws ⟨⟩
      exact ⟨hm, .nil⟩
  | cons c cs ih =>
      -- outside a word and inside one, together: a space leads from the second to the
      -- first, any other character from the first to the second
      obtain ⟨hout, hin⟩ := ih (p + 1) hm.2
      obtain ⟨w, ws, hws⟩ := List.exists_cons_of_ne_nil (List.splitOnP_ne_nil (· == 32) cs)
      by_cases hc : c = 32
      · subst hc
        refine ⟨?_, ?_⟩
        · rw [heads, if_pos rfl, words, splitOnP_space]
          exact hout
        · intro w' ws' h
          rw [splitOnP_space, List.cons.injEq] at h
          obtain ⟨rfl, rfl⟩ := h
          refine ⟨⟨hm.1, trivial⟩, ?_⟩
          rw [heads, if_pos rfl]
          exact hout
      · have hchar : m p = c := hm.1.trans (if_neg hc)
        obtain ⟨hrest, htail⟩ := hin w ws hws
        refine ⟨?_, ?_⟩
        · rw [heads, if_neg hc, if_pos rfl, words, splitOnP_char hc hws]
          exact .cons ⟨hchar, hrest⟩ htail
        · intro w' ws' h
          rw [splitOnP_char hc hws, List.cons.injEq] at h
          obtain ⟨rfl, rfl⟩ := h
          refine ⟨⟨hchar, hrest⟩, ?_⟩
          rw [heads, if_neg hc, if_neg (by decide)]
          exact htail

/-! ### The loop -/

theorem eq_space_of_heads_nil {cs : List UInt8} {p : Int} (h : heads false p cs = []) :
    ∀ c ∈ cs, c = 32 := by
  induction cs generalizing p with
  | nil => exact fun c hc => absurd hc List.not_mem_nil
  | cons c cs ih =>
      by_cases hc : c = 32
      · rw [heads, if_pos hc] at h
        intro d hd
        rcases List.mem_cons.mp hd with rfl | hd
        · exact hc
        · exact ih h d hd
      · rw [heads, if_neg hc, if_pos rfl] at h
        cases h

theorem getLast?_tail {c : UInt8} {cs : List UInt8} (h : (c :: cs).getLast? ≠ some 32) :
    cs.getLast? ≠ some 32 := by
  cases cs with
  | nil => rintro ⟨⟩
  | cons d ds => rwa [List.getLast?_cons_cons] at h

/-- Where no word begins any more and the text does not end with a space, there is no
space. -/
theorem no_space_of_heads_nil {cs : List UInt8} {b : Bool} {p : Int} (h : heads b p cs = [])
    (hlast : cs.getLast? ≠ some 32) : ∀ c ∈ cs, c ≠ 32 := by
  induction cs generalizing b p with
  | nil => exact fun c hc => absurd hc List.not_mem_nil
  | cons c cs ih =>
      by_cases hc : c = 32
      · -- then only spaces follow, and the last character is one of them
        rw [heads, if_pos hc] at h
        have hall : ∀ d ∈ c :: cs, d = 32 := by
          intro d hd
          rcases List.mem_cons.mp hd with rfl | hd
          · exact hc
          · exact eq_space_of_heads_nil h d hd
        have hne : c :: cs ≠ [] := List.cons_ne_nil c cs
        refine absurd ?_ hlast
        rw [List.getLast?_eq_getLast_of_ne_nil hne, hall _ (List.getLast_mem hne)]
      · intro d hd
        rcases List.mem_cons.mp hd with rfl | hd
        · exact hc
        · rw [heads, if_neg hc] at h
          split at h
          · cases h
          · exact ih h (getLast?_tail hlast) d hd

/-- The text cut where its word number `k` begins. -/
theorem heads_split {b : Bool} {p a : Int} {cs : List UInt8} {k : Nat}
    (h : (heads b p cs)[k]? = some a) :
    ∃ pre post, cs = pre ++ post ∧ a = p + pre.length ∧
      (heads b p cs).length = k + (heads false a post).length := by
  induction cs generalizing b p k with
  | nil => cases h
  | cons c cs ih =>
      -- the word begins behind `c`
      have behind : ∀ b' k', (heads b' (p + 1) cs)[k']? = some a →
          ∃ pre post, c :: cs = pre ++ post ∧ a = p + pre.length ∧
            (heads b' (p + 1) cs).length = k' + (heads false a post).length := by
        intro b' k' h
        obtain ⟨pre, post, rfl, ha, hlen⟩ := ih h
        refine ⟨c :: pre, post, rfl, ?_, hlen⟩
        rw [ha, List.length_cons]
        omega
      rw [heads] at h ⊢
      split
      · rename_i hc
        rw [if_pos hc] at h
        exact behind false k h
      · rename_i hc
        rw [if_neg hc] at h
        split
        · rename_i hb
          rw [if_pos hb] at h
          cases k with
          | zero =>
              obtain rfl : p = a := Option.some.inj h
              refine ⟨[], c :: cs, rfl, (Int.add_zero _).symm, ?_⟩
              rw [heads, if_neg hc, if_pos rfl, Nat.zero_add]
          | succ k =>
              rw [List.getElem?_cons_succ] at h
              obtain ⟨pre, post, hcs, ha, hlen⟩ := behind true k h
              refine ⟨pre, post, hcs, ha, ?_⟩
              rw [List.length_cons, hlen]
              omega
        · rename_i hb
          rw [if_neg hb] at h
          exact behind true k h

theorem heads_true_of_no_space {p : Int} {cs : List UInt8} (h : ∀ c ∈ cs, c ≠ 32) :
    heads true p cs = [] := by
  induction cs generalizing p with
  | nil => rfl
  | cons c cs ih =>
      rw [heads, if_neg (h c List.mem_cons_self), if_neg (by decide)]
      exact ih fun d hd => h d (List.mem_cons_of_mem _ hd)

/-- A text without a space is one word at most. -/
theorem heads_length_le_one {p : Int} {cs : List UInt8} (h : ∀ c ∈ cs, c ≠ 32) :
    (heads false p cs).length ≤ 1 := by
  cases cs with
  | nil => exact Nat.zero_le 1
  | cons c cs =>
      rw [heads, if_neg (h c List.mem_cons_self), if_pos rfl,
        heads_true_of_no_space fun d hd => h d (List.mem_cons_of_mem _ hd)]
      exact le_rfl

/-- The pieces of a line have its characters but the spaces. -/
theorem mem_of_splitOnP {cs w : List UInt8} (hw : w ∈ cs.splitOnP (· == 32)) :
    ∀ c ∈ w, c ∈ cs ∧ c ≠ 32 := by
  induction cs generalizing w with
  | nil =>
      rw [List.splitOnP_nil, List.mem_singleton] at hw
      rw [hw]
      exact fun c hc => absurd hc List.not_mem_nil
  | cons d cs ih =>
      have behind : ∀ w ∈ cs.splitOnP (· == 32), ∀ c ∈ w, c ∈ d :: cs ∧ c ≠ 32 :=
        fun w hw c hc => ⟨List.mem_cons_of_mem _ (ih hw c hc).1, (ih hw c hc).2⟩
      by_cases hd : d = 32
      · rw [hd, splitOnP_space] at hw
        rcases List.mem_cons.mp hw with rfl | hw
        · exact fun c hc => absurd hc List.not_mem_nil
        · exact behind w hw
      · obtain ⟨v, vs, hvs⟩ := List.exists_cons_of_ne_nil (List.splitOnP_ne_nil (· == 32) cs)
        rw [splitOnP_char hd hvs] at hw
        rcases List.mem_cons.mp hw with rfl | hw
        · intro c hc
          rcases List.mem_cons.mp hc with rfl | hc
          · exact ⟨List.mem_cons_self, hd⟩
          · exact behind v (hvs ▸ List.mem_cons_self) c hc
        · exact behind w (hvs ▸ List.mem_cons_of_mem _ hw)

/-- The words that begin in the text find room in `args`, and no space follows the one
that uses the last place. -/
def RoomFor (argc : Nat) (b : Bool) (p : Int) (cs : List UInt8) : Prop :=
  argc + (heads b p cs).length < maxArgs ∨
    argc + (heads b p cs).length = maxArgs ∧ cs.getLast? ≠ some 32

/-- What the loop does with the text `cs` at `p`. -/
structure Filled (s s' : Scan) (p : Int) (cs : List UInt8) : Prop where
  argc : s'.argc = min maxArgs (s.argc + (heads s.inArg p cs).length)
  before : ∀ k < s.argc, s'.args k = s.args k
  args : ∀ k, s.argc + k < maxArgs → ∀ a, (heads s.inArg p cs)[k]? = some a →
    s'.args (s.argc + k) = a
  frame : Set.EqOn s'.mem s.mem (outside p (p + cs.length))
  stops : s.argc = maxArgs → s'.mem = s.mem
  kept : ∀ k a, s.argc + k + 1 = maxArgs → (heads s.inArg p cs)[k]? = some a →
    ∀ x, a ≤ x → s'.mem x = s.mem x
  blank : RoomFor s.argc s.inArg p cs → s'.mem.Holds p (cs.map blanked ++ [0])

theorem map_blanked_of_no_space {cs : List UInt8} (h : ∀ c ∈ cs, c ≠ 32) : cs.map blanked = cs := by
  conv_rhs => rw [← List.map_id cs]
  exact List.map_congr_left fun c hc => if_neg (h c hc)

/-- The loop stops at a full array. -/
theorem Filled.full {s : Scan} {p : Int} {cs : List UInt8} (hargc : s.argc = maxArgs)
    (hm : s.mem.Holds p (cs ++ [0])) : Filled s s p cs := by
  refine ⟨by omega, fun _ _ => rfl, fun k hk => by omega, fun _ _ => rfl, fun _ => rfl,
    fun k _ hk => by omega, fun hfit => ?_⟩
  rcases hfit with h | ⟨h, hlast⟩
  · omega
  -- no word begins in the rest, and no space is left to become a NUL
  · have hnil : heads s.inArg p cs = [] := List.length_eq_zero_iff.mp (by omega)
    rwa [map_blanked_of_no_space (no_space_of_heads_nil hnil hlast)]

theorem RoomFor.tail {argc argc' : Nat} {b b' : Bool} {p : Int} {c : UInt8} {cs : List UInt8}
    (h : RoomFor argc b p (c :: cs))
    (hlen : argc + (heads b p (c :: cs)).length = argc' + (heads b' (p + 1) cs).length) :
    RoomFor argc' b' (p + 1) cs := by
  rcases h with h | ⟨h, hlast⟩
  · exact .inl (by omega)
  · exact .inr ⟨by omega, getLast?_tail hlast⟩

/-- What the first character of the text becomes. -/
theorem Filled.head {s s' : Scan} {p : Int} {c : UInt8} {cs : List UInt8}
    (hframe : Set.EqOn s'.mem s.mem (outside (p + 1) (p + 1 + cs.length)))
    (hc : s.mem p = blanked c) (hrest : s'.mem.Holds (p + 1) (cs.map blanked ++ [0])) :
    s'.mem.Holds p ((c :: cs).map blanked ++ [0]) :=
  ⟨(hframe (.inl (by omega))).trans hc, hrest⟩

/-- A space. -/
theorem Filled.space {s s' : Scan} {p : Int} {cs : List UInt8} (hlt : s.argc < maxArgs)
    (hc : s.mem p = 32) (h : Filled (s.step p) s' (p + 1) cs) : Filled s s' p (32 :: cs) := by
  have hstep : s.step p = { s with mem := Function.update s.mem p 0, inArg := false } := if_pos hc
  have hheads : heads s.inArg p (32 :: cs) = heads false (p + 1) cs := if_pos rfl
  have hlen : ((32 :: cs).length : Int) = cs.length + 1 := by simp
  rw [hstep] at h
  refine ⟨?_, h.before, ?_, ?_, fun hfull => absurd hfull hlt.ne, fun k a hk ha x hx => ?_,
    fun hfit => ?_⟩
  · rw [hheads]
    exact h.argc
  · rw [hheads]
    exact h.args
  · rw [hlen]
    refine (eqOn_widen h.frame (by omega) (by omega)).trans ?_
    exact eqOn_update 0 le_rfl (by omega)
  · rw [hheads] at ha
    obtain ⟨pre, post, -, hle, -⟩ := heads_split ha
    exact (h.kept k a hk ha x hx).trans (Function.update_of_ne (by omega) _ _)
  · refine Filled.head h.frame (Function.update_self p 0 s.mem) (h.blank (hfit.tail ?_))
    rw [hheads]

/-- The first character of a word. -/
theorem Filled.start {s s' : Scan} {p : Int} {c : UInt8} {cs : List UInt8}
    (hlt : s.argc < maxArgs) (hmp : s.mem p = c) (hc : c ≠ 32) (hin : s.inArg = false)
    (h : Filled (s.step p) s' (p + 1) cs) : Filled s s' p (c :: cs) := by
  have hstep : s.step p =
      { s with args := Function.update s.args s.argc p, argc := s.argc + 1, inArg := true } := by
    unfold Scan.step
    rw [if_neg (by rwa [hmp]), if_pos hin]
  have hheads : heads s.inArg p (c :: cs) = p :: heads true (p + 1) cs := by
    rw [heads, if_neg hc, if_pos hin]
  have hlen : ((c :: cs).length : Int) = cs.length + 1 := by simp
  rw [hstep] at h
  refine ⟨?_, fun k hk => ?_, fun k hk a ha => ?_, ?_, fun hfull => absurd hfull hlt.ne,
    fun k a hk ha x hx => ?_, fun hfit => ?_⟩
  · rw [hheads, List.length_cons, h.argc]
    dsimp only
    omega
  · refine (h.before k (Nat.lt_succ_of_lt hk)).trans ?_
    exact Function.update_of_ne (by omega) _ _
  · rw [hheads] at ha
    cases k with
    -- the word that begins here
    | zero =>
        cases ha
        refine (h.before s.argc (Nat.lt_succ_self _)).trans ?_
        exact Function.update_self _ _ _
    | succ k =>
        rw [List.getElem?_cons_succ] at ha
        have hargs := h.args k (by dsimp only; omega) a ha
        rwa [show s.argc + (k + 1) = s.argc + 1 + k by omega]
  · rw [hlen]
    exact eqOn_widen h.frame (by omega) (by omega)
  · rw [hheads] at ha
    cases k with
    -- the word takes the last place, and the loop stops behind its first character
    | zero => exact congrFun (h.stops hk) x
    | succ k =>
        rw [List.getElem?_cons_succ] at ha
        exact h.kept k a (by dsimp only; omega) ha x hx
  · refine Filled.head h.frame (hmp.trans (if_neg hc).symm) (h.blank (hfit.tail ?_))
    rw [hheads, List.length_cons]
    dsimp only
    omega

/-- A further character of a word. -/
theorem Filled.inside {s s' : Scan} {p : Int} {c : UInt8} {cs : List UInt8} (hmp : s.mem p = c)
    (hc : c ≠ 32) (hin : s.inArg = true) (h : Filled (s.step p) s' (p + 1) cs) :
    Filled s s' p (c :: cs) := by
  have hstep : s.step p = s := by
    unfold Scan.step
    rw [if_neg (by rwa [hmp]), if_neg (by rw [hin]; decide)]
  have hheads : heads s.inArg p (c :: cs) = heads s.inArg (p + 1) cs := by
    rw [heads, if_neg hc, hin, if_neg (by decide)]
  have hlen : ((c :: cs).length : Int) = cs.length + 1 := by simp
  rw [hstep] at h
  refine ⟨?_, h.before, ?_, ?_, h.stops, ?_, fun hfit => ?_⟩
  · rw [hheads]
    exact h.argc
  · rw [hheads]
    exact h.args
  · rw [hlen]
    exact eqOn_widen h.frame (by omega) (by omega)
  · rw [hheads]
    exact h.kept
  · refine Filled.head h.frame (hmp.trans (if_neg hc).symm) (h.blank (hfit.tail ?_))
    rw [hheads]

/-- **The run lemma of the loop.** -/
theorem fillLoop_filled {cs : List UInt8} (hnul : 0 ∉ cs) {rounds : Nat} (hr : cs.length < rounds)
    {p : Int} {s : Scan} (hargc : s.argc ≤ maxArgs) (hm : s.mem.Holds p (cs ++ [0])) :
    ∃ s', fillLoop rounds p s = some s' ∧ Filled s s' p cs := by
  induction cs generalizing rounds p s with
  | nil =>
      obtain ⟨n, rfl⟩ := Nat.exists_eq_succ_of_ne_zero (by omega : rounds ≠ 0)
      refine ⟨s, ?_, ?_⟩
      · rw [fillLoop, if_neg fun h => h.1 hm.1]
      · refine ⟨?_, fun _ _ => rfl, ?_, fun _ _ => rfl, fun _ => rfl, ?_, fun _ => hm⟩
        · show s.argc = min maxArgs (s.argc + 0)
          omega
        · rintro k - a ⟨⟩
        · rintro k a - ⟨⟩
  | cons c cs ih =>
      obtain ⟨n, rfl⟩ := Nat.exists_eq_succ_of_ne_zero (by omega : rounds ≠ 0)
      have hmp : s.mem p = c := hm.1
      have hc0 : s.mem p ≠ 0 := by
        rw [hmp]
        rintro rfl
        exact hnul List.mem_cons_self
      -- the condition of the loop: `argc < MAX_ARGS`
      rcases hargc.eq_or_lt with hfull | hlt
      · refine ⟨s, ?_, .full hfull hm⟩
        rw [fillLoop, if_neg fun h => absurd h.2 (by omega)]
      · rw [fillLoop, if_pos ⟨hc0, hlt⟩]
        -- only the character at `p` can have changed
        have hrest : (s.step p).mem.Holds (p + 1) (cs ++ [0]) :=
          (ByteMem.Holds.congr fun x hx _ => s.step_mem (by omega)).mpr hm.2
        obtain ⟨s', hrun, hfilled⟩ := ih (fun h => hnul (List.mem_cons_of_mem _ h))
          (Nat.lt_of_succ_lt_succ hr) (s.step_argc p hlt) hrest
        refine ⟨s', hrun, ?_⟩
        by_cases hc : c = 32
        · subst hc
          exact hfilled.space hlt hmp
        · rcases hin : s.inArg with - | -
          · exact hfilled.start hlt hmp hc hin
          · exact hfilled.inside hmp hc hin

/-- The line is such that the loop passes all its spaces: it has fewer than `MAX_ARGS`
words, or just as many and no space behind them. -/
def Roomy (line : List UInt8) : Prop :=
  (words line).length < maxArgs ∨ (words line).length = maxArgs ∧ line.getLast? ≠ some 32

instance (line : List UInt8) : Decidable (Roomy line) := inferInstanceAs (Decidable (_ ∨ _ ∧ _))

/-- The strings at `args` are the words of the line. -/
def Scan.ReadsWords (s : Scan) (line : List UInt8) : Prop :=
  ∀ i < s.argc, ∃ w, (words line)[i]? = some w ∧ s.mem.Holds (s.args i) (w ++ [0])

/-- A word that is read from the line as it was has nothing behind it: it is the last
one, and no space follows. -/
theorem last_of_holds {line : CString} {m : ByteMem} {input a : Int} {k : Nat} {w : List UInt8}
    (hm : m.Holds input line.stored) (ha : (heads false input line.bytes)[k]? = some a)
    (hw : w ∈ words line.bytes) (hread : m.Holds a (w ++ [0])) :
    (words line.bytes).length ≤ k + 1 ∧ line.bytes.getLast? ≠ some 32 := by
  obtain ⟨hsplit, hne⟩ := List.mem_filter.mp hw
  have hchars := mem_of_splitOnP hsplit
  have hspace : ∀ c ∈ w, c ≠ 32 := fun c hc => (hchars c hc).2
  obtain ⟨pre, post, hcs, hplace, hcount⟩ := heads_split ha
  -- the line read from there on is its end, up to the only NUL
  have hpost : m.Holds a (post ++ [0]) := by
    rw [CString.stored, hcs, List.append_assoc, ByteMem.holds_append] at hm
    rw [hplace]
    exact hm.2
  have h0 : 0 ∉ post := fun h => line.noNul (hcs ▸ List.mem_append_right pre h)
  have hword : m.Holds a (CString.stored ⟨w, fun h => line.noNul (hchars 0 h).1⟩) := hread
  have hrest : m.Holds a (CString.stored ⟨post, h0⟩) := hpost
  have heq : w = post := congrArg CString.bytes (hword.unique hrest)
  subst heq
  refine ⟨?_, fun hlast => ?_⟩
  · rw [← (heads_length input line.bytes).1, hcount]
    exact Nat.add_le_add_left (heads_length_le_one hspace) k
  · rw [hcs, List.getLast?_append_of_ne_nil _ (by simpa using hne)] at hlast
    exact hspace 32 (List.mem_of_getLast? hlast) rfl

/-- **The tokenizer**: `argc` is the number of words, at most `MAX_ARGS`, `args[argc]`
is null, and the strings are the words exactly if the loop passes all the spaces. -/
theorem fillCommandAndArgs_words (line : CString) {rounds : Nat}
    (hr : line.bytes.length < rounds) {mem : ByteMem} {input : Int}
    (hm : mem.Holds input line.stored) (args : Nat → Int) :
    ∃ s, fillCommandAndArgs rounds mem args input = some s ∧
      s.argc = min maxArgs (words line.bytes).length ∧ s.args s.argc = 0 ∧
      (s.ReadsWords line.bytes ↔ Roomy line.bytes) := by
  obtain ⟨s, hrun, hfilled⟩ := fillLoop_filled (s := ⟨mem, args, 0, false⟩) line.noNul hr
    (Nat.zero_le _) hm
  have hlen := (heads_length input line.bytes).1
  have hargc := hfilled.argc
  dsimp only at hargc
  rw [Nat.zero_add, hlen] at hargc
  -- the null pointer is behind the words
  have harg : ∀ i < s.argc, ∃ a, (heads false input line.bytes)[i]? = some a ∧
      Function.update s.args s.argc 0 i = a := by
    intro i hi
    have hheads : i < (heads false input line.bytes).length := by omega
    refine ⟨_, List.getElem?_eq_getElem hheads, ?_⟩
    have h := hfilled.args i (by dsimp only; omega) _ (List.getElem?_eq_getElem hheads)
    rw [Nat.zero_add] at h
    rw [Function.update_of_ne hi.ne, h]
  refine ⟨_, congrArg (Option.map _) hrun, hargc, Function.update_self _ _ _, ?_, ?_⟩
  · intro hreads
    by_cases hfew : (words line.bytes).length < maxArgs
    · exact .inl hfew
    · -- the last place of the array is used, and the line is as it was from there on
      have hseven : 7 < s.argc := by
        rw [hargc, maxArgs] at *
        omega
      obtain ⟨w, hw, hread⟩ := hreads 7 hseven
      obtain ⟨a, ha, hat⟩ := harg 7 hseven
      have horig : mem.Holds a (w ++ [0]) := by
        rw [← ByteMem.Holds.congr fun x hx _ => hfilled.kept 7 a rfl ha x hx, ← hat]
        exact hread
      obtain ⟨hle, hlast⟩ := last_of_holds hm ha (List.mem_of_getElem? hw) horig
      exact .inr ⟨le_antisymm hle (not_lt.mp hfew), hlast⟩
  · intro hroom i hi
    have hi' : i < s.argc := hi
    have hfit : RoomFor 0 false input line.bytes := by
      unfold RoomFor
      rwa [Nat.zero_add, hlen]
    obtain ⟨-, hread⟩ :=
      List.forall₂_iff_get.mp (heads_words line.bytes input (hfilled.blank hfit)).1
    have hwords : i < (words line.bytes).length := by omega
    have hheads : i < (heads false input line.bytes).length := by omega
    obtain ⟨a, ha, hat⟩ := harg i hi'
    refine ⟨(words line.bytes).get ⟨i, hwords⟩, List.getElem?_eq_getElem hwords, ?_⟩
    have hget : (heads false input line.bytes).get ⟨i, hheads⟩ = a :=
      Option.some.inj ((List.getElem?_eq_getElem hheads).symm.trans ha)
    show s.mem.Holds (Function.update s.args s.argc 0 i) _
    rw [hat, ← hget]
    exact hread i hheads hwords

/-- Two words, with spaces around them. -/
theorem fillCommandAndArgs_words_two : ∃ s,
    fillCommandAndArgs 7 (fun x => [32, 97, 32, 32, 98, 32, 0].getD x.toNat 0) (fun _ => 0) 0 =
      some s ∧ s.argc = 2 ∧ s.args 2 = 0 ∧
      (∀ i < 2, ∃ w, (words [32, 97, 32, 32, 98, 32])[i]? = some w ∧
        s.mem.Holds (s.args i) (w ++ [0])) := by
  have hm : ByteMem.Holds (fun x => [32, 97, 32, 32, 98, 32, 0].getD x.toNat 0) 0
      [32, 97, 32, 32, 98, 32, 0] := ⟨rfl, rfl, rfl, rfl, rfl, rfl, rfl, trivial⟩
  obtain ⟨s, hs, hargc, hnull, hwords⟩ := fillCommandAndArgs_words
    ⟨[32, 97, 32, 32, 98, 32], by decide⟩ (Nat.lt_succ_self 6) hm (fun _ => 0)
  have h2 : s.argc = 2 := hargc
  have hreads := hwords.mpr (by decide)
  rw [h2] at hnull
  rw [Scan.ReadsWords, h2] at hreads
  exact ⟨s, hs, h2, hnull, hreads⟩

/-- **Eight words and a space**: the loop ends at the first letter of the eighth word,
so the string that `args[7]` points to has the space behind the word. -/
theorem eighth_word_keeps_space : ∃ s,
    fillCommandAndArgs 17
        (fun x => [97, 32, 97, 32, 97, 32, 97, 32, 97, 32, 97, 32, 97, 32, 98, 32, 0].getD x.toNat 0)
        (fun _ => 0) 0 = some s ∧ s.argc = 8 ∧
      (words [97, 32, 97, 32, 97, 32, 97, 32, 97, 32, 97, 32, 97, 32, 98, 32])[7]? = some [98] ∧
      s.mem.Holds (s.args 7) [98, 32, 0] :=
  ⟨_, rfl, rfl, rfl, rfl, rfl, rfl, trivial⟩

end TP2Kernel
