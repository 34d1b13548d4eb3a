/-
TP2Kernel/PipeSemaphores.lean

The two semaphores of a pipe.  `pipe_init_sems` opens them by name in the table
that user processes use as well, ignores the answer of `sem_open`, and `pipe_close`
closes them again with the last end.  `Wiring` is the part of the state this is
about: the entries of the semaphore table, which pipes are active, and which
identifiers the pipes hold.

As long as user processes leave the names and the identifiers of the pipes alone
and the table has room, the wiring is sound (`Wired`): the entry a pipe holds
carries its name and one reference, and an entry with the name of a pipe is held
by it.  Since names tell pipes and sides apart, nothing is shared.
-/
import TP2Kernel.Tokens
import TP2Kernel.PipeEnds

namespace TP2Kernel

/-- The names of `pipe_init_sems`: `d` for the data, which readers wait for, and
`s` for the space, which writers wait for. -/
def pipeSemName (p : Fin maxPipes) (w : Bool) : List UInt8 :=
  [if w then 115 else 100, 48 + UInt8.ofNat p.val]

theorem pipeSemName_inj {p q : Fin maxPipes} {v w : Bool}
    (h : pipeSemName p v = pipeSemName q w) : p = q ∧ v = w := by
  obtain ⟨hside, hdigit⟩ := List.cons_eq_cons.mp h
  have hnum : UInt8.ofNat p.val = UInt8.ofNat q.val := by
    have hcons := (List.cons_eq_cons.mp hdigit).1
    exact (UInt8.add_right_inj 48).mp hcons
  have hval : p.val % 256 = q.val % 256 := congrArg UInt8.toNat hnum
  have hp : p.val < 32 := p.isLt
  have hq : q.val < 32 := q.isLt
  refine ⟨Fin.ext (by omega), ?_⟩
  cases v <;> cases w <;> first | rfl | cases hside

/-! ### Wirings -/

/-- The entries of the semaphore table, the active pipes and the identifiers they
hold. -/
structure Wiring where
  entry : Fin maxSemaphores → List UInt8 × Bool × Int
  active : Fin maxPipes → Bool
  sem : Fin maxPipes → Bool → Int

namespace Wiring

variable {W : Wiring} {p : Fin maxPipes} {i j : Fin maxSemaphores}

/-- The entry `i` is open. -/
def Open (W : Wiring) (i : Fin maxSemaphores) : Prop := (W.entry i).2.1 = true

/-- The pipe `p` holds the entry `i`, alone and under its own name. -/
def Holds (W : Wiring) (p : Fin maxPipes) (w : Bool) (i : Fin maxSemaphores) : Prop :=
  W.sem p w = (i.val : Int) ∧ W.entry i = (pipeSemName p w, true, 1)

/-- Every active pipe holds its two semaphores, and nobody else has their names. -/
structure Wired (W : Wiring) : Prop where
  holds : ∀ p w, W.active p = true → ∃ i, W.Holds p w i
  named : ∀ i p w, W.Open i → (W.entry i).1 = pipeSemName p w →
    W.active p = true ∧ W.sem p w = (i.val : Int)

theorem Wired.eq (h : Wired W) {q : Fin maxPipes} {v w : Bool} (hp : W.active p = true)
    (hq : W.active q = true) (hsem : W.sem p v = W.sem q w) : p = q ∧ v = w := by
  obtain ⟨i, hi, hname⟩ := h.holds p v hp
  obtain ⟨j, hj, hname'⟩ := h.holds q w hq
  obtain rfl : i = j := Fin.ext (by omega)
  exact pipeSemName_inj (congrArg Prod.fst (hname.symm.trans hname'))

/-- An entry that is closed, or has another name, is held by no pipe. -/
theorem Wired.not_held (h : Wired W) (hi : W.Open i → ∀ p w, (W.entry i).1 ≠ pipeSemName p w)
    (q : Fin maxPipes) (w : Bool) (hq : W.active q = true) : W.sem q w ≠ (i.val : Int) := by
  intro hsem
  obtain ⟨n, hn, hentry⟩ := h.holds q w hq
  obtain rfl : n = i := Fin.ext (by omega)
  have hopen : W.Open n := by
    unfold Open
    rw [hentry]
  exact hi hopen q w (congrArg Prod.fst hentry)

/-- Change one entry. -/
def set (W : Wiring) (i : Fin maxSemaphores) (e : List UInt8 × Bool × Int) : Wiring :=
  { W with entry := Function.update W.entry i e }

/-- A change of an entry that no pipe holds. -/
theorem Wired.set (h : Wired W) {e : List UInt8 × Bool × Int}
    (hi : ∀ p w, W.active p = true → W.sem p w ≠ (i.val : Int))
    (he : e.2.1 = true → ∀ p w, e.1 ≠ pipeSemName p w) : Wired (W.set i e) := by
  refine ⟨fun p w hp => ?_, fun n p w hopen hname => ?_⟩
  · obtain ⟨n, hn, hentry⟩ := h.holds p w hp
    have hne : n ≠ i := by
      rintro rfl
      exact hi p w hp hn
    exact ⟨n, hn, (Function.update_of_ne hne _ _).trans hentry⟩
  · by_cases hne : n = i
    · subst hne
      unfold Open at hopen
      simp only [Wiring.set, Function.update_self] at hopen hname
      exact absurd hname (he hopen p w)
    · unfold Open at hopen
      simp only [Wiring.set, Function.update_of_ne hne] at hopen hname
      exact h.named n p w hopen hname

/-- The pipe `p` opens with the entries `i` and `j`. -/
def launch (W : Wiring) (p : Fin maxPipes) (i j : Fin maxSemaphores) : Wiring where
  entry := Function.update (Function.update W.entry i (pipeSemName p false, true, 1)) j
    (pipeSemName p true, true, 1)
  active := Function.update W.active p true
  sem := Function.update W.sem p fun w => if w then j.val else i.val

theorem launch_holds (hij : i ≠ j) (w : Bool) : ∃ n, (W.launch p i j).Holds p w n := by
  cases w with
  | false =>
      refine ⟨i, ?_, ?_⟩
      · simp [launch]
      · simp only [launch]
        rw [Function.update_of_ne hij, Function.update_self]
  | true =>
      refine ⟨j, ?_, ?_⟩
      · simp [launch]
      · simp only [launch, Function.update_self]

theorem Wired.launch (h : Wired W) (hp : W.active p = false) (hij : i ≠ j) (hi : ¬ W.Open i)
    (hj : ¬ W.Open j) : Wired (W.launch p i j) := by
  refine ⟨fun q w hq => ?_, fun n q w hopen hname => ?_⟩
  · by_cases hqp : q = p
    · subst hqp
      exact launch_holds hij w
    · have hq' : W.active q = true := (Function.update_of_ne hqp _ _).symm.trans hq
      obtain ⟨n, hn, hentry⟩ := h.holds q w hq'
      have hopen : W.Open n := by
        unfold Open
        rw [hentry]
      have hni : n ≠ i := fun e => hi (e ▸ hopen)
      have hnj : n ≠ j := fun e => hj (e ▸ hopen)
      refine ⟨n, ?_, ?_⟩
      · exact (congrFun (Function.update_of_ne hqp _ _) w).trans hn
      · simp only [Wiring.launch]
        rw [Function.update_of_ne hnj, Function.update_of_ne hni, hentry]
  · -- the two new entries carry the names of `p`, the others are as before
    unfold Open at hopen
    simp only [Wiring.launch] at hopen hname ⊢
    by_cases hnj : n = j
    · subst hnj
      rw [Function.update_self] at hname
      obtain ⟨rfl, rfl⟩ := pipeSemName_inj hname
      simp
    · rw [Function.update_of_ne hnj] at hopen hname
      by_cases hni : n = i
      · subst hni
        rw [Function.update_self] at hname
        obtain ⟨rfl, rfl⟩ := pipeSemName_inj hname
        simp
      · rw [Function.update_of_ne hni] at hopen hname
        obtain ⟨hq, hsem⟩ := h.named n q w hopen hname
        have hqp : q ≠ p := by
          rintro rfl
          rw [hp] at hq
          cases hq
        rw [Function.update_of_ne hqp, Function.update_of_ne hqp]
        exact ⟨hq, hsem⟩

/-- The pipe `p` gives its two entries up. -/
def retire (W : Wiring) (p : Fin maxPipes) : Wiring where
  entry := fun i =>
    if W.sem p false = (i.val : Int) ∨ W.sem p true = (i.val : Int) then
      ((W.entry i).1, false, 0)
    else W.entry i
  active := Function.update W.active p false
  sem := W.sem

theorem Wired.retire (h : Wired W) (hp : W.active p = true) : Wired (W.retire p) := by
  refine ⟨fun q w hq => ?_, fun n q w hopen hname => ?_⟩
  · have hqp : q ≠ p := by
      rintro rfl
      simp [Wiring.retire] at hq
    have hq' : W.active q = true := (Function.update_of_ne hqp _ _).symm.trans hq
    obtain ⟨n, hn, hentry⟩ := h.holds q w hq'
    have hother : ∀ v, W.sem p v ≠ (n.val : Int) := by
      intro v hv
      exact hqp (h.eq hq' hp (hn.trans hv.symm)).1
    refine ⟨n, hn, ?_⟩
    simp only [Wiring.retire]
    rw [if_neg (not_or.mpr ⟨hother false, hother true⟩), hentry]
  · unfold Open at hopen
    simp only [Wiring.retire] at hopen hname ⊢
    split at hopen
    · cases hopen
    · rename_i hno
      rw [if_neg hno] at hname
      obtain ⟨hq, hsem⟩ := h.named n q w hopen hname
      have hqp : q ≠ p := by
        rintro rfl
        cases w with
        | false => exact hno (.inl hsem)
        | true => exact hno (.inr hsem)
      rw [Function.update_of_ne hqp]
      exact ⟨hq, hsem⟩

end Wiring

namespace Kernel

open Wiring

/-- The wiring of a kernel. -/
def wiring (k : Kernel) : Wiring where
  entry := fun i => (k.semTable i).entry
  active := fun p => (k.pipeTable p).active
  sem := fun p w => if w then k.pipeSemSpace p else k.pipeSemData p

variable {k k' : Kernel} {op : Op}

/-! ### What leaves the wiring alone -/

theorem wiring_eq (hentry : ∀ i, (k'.semTable i).entry = (k.semTable i).entry)
    (hactive : ∀ p, (k'.pipeTable p).active = (k.pipeTable p).active)
    (hdata : k'.pipeSemData = k.pipeSemData) (hspace : k'.pipeSemSpace = k.pipeSemSpace) :
    k'.wiring = k.wiring := by
  unfold wiring
  rw [hdata, hspace, funext hentry, funext hactive]

theorem wiring_of_samePipes (hentry : ∀ i, (k'.semTable i).entry = (k.semTable i).entry)
    (h : SamePipes k k') : k'.wiring = k.wiring :=
  wiring_eq hentry (fun p => by rw [h.pipeTable]) h.semData h.semSpace

theorem semPost_wiring (k : Kernel) (semId : Int) : (k.semPost semId).1.wiring = k.wiring :=
  wiring_of_samePipes (fun i => k.semPost_entry i semId) (.semPost k semId)

theorem semPostAll_wiring (k : Kernel) (semId : Int) : (k.semPostAll semId).1.wiring = k.wiring :=
  wiring_of_samePipes (fun i => k.semPostAll_entry i semId) (.semPostAll k semId)

theorem semWait_wiring (k : Kernel) (semId : Int) : (k.semWait semId).1.wiring = k.wiring :=
  wiring_of_samePipes (fun i => k.semWait_entry i semId) (.semWait k semId)

theorem modifyPipe_wiring (k : Kernel) (p : Fin maxPipes) {f : Pipe → Pipe}
    (hf : ∀ b, (f b).active = b.active) : (k.modifyPipe p f).wiring = k.wiring := by
  refine wiring_eq (fun _ => rfl) (fun q => ?_) rfl rfl
  rw [modifyPipe_pipeTable]
  split
  · rename_i hq
    rw [hf, hq]
  · rfl

theorem StepCases.wiring {α : Type} {p : Fin maxPipes} {own other : Int} {move : Pipe → Pipe}
    {dry shut live : Prop} {fl bl ag sp dn : α} {r : Kernel × α}
    (hr : k.StepCases p own other move dry shut live fl bl ag sp dn r)
    (hmove : ∀ b, (move b).active = b.active) : r.1.wiring = k.wiring := by
  cases hr with
  | waits _ => exact k.semWait_wiring own
  | stops _ => rfl
  | moves _ => exact (semPost_wiring _ other).trans (k.modifyPipe_wiring p hmove)

theorem pipeAttach_wiring (k : Kernel) (pipeId : Int) (w : Bool) :
    (k.pipeAttach pipeId w).1.wiring = k.wiring := by
  unfold pipeAttach
  split
  · rfl
  · rename_i p _
    cases w with
    | false =>
        simp only [Bool.false_eq_true, if_false]
        split
        · rfl
        · dsimp only
          apply modifyPipe_wiring
          intro b
          rfl
    | true =>
        simp only [if_true]
        split
        · rfl
        · dsimp only
          apply modifyPipe_wiring
          intro b
          rfl

theorem dropEnd_wiring (k : Kernel) (p : Fin maxPipes) (w : Bool) :
    (k.dropEnd p w).wiring = k.wiring := by
  cases w with
  | false => exact k.modifyPipe_wiring p (f := fun b => { b with readers := b.readers - 1 }) fun _ => rfl
  | true => exact k.modifyPipe_wiring p (f := fun b => { b with writers := b.writers - 1 }) fun _ => rfl

theorem closePosts_wiring (k : Kernel) (p : Fin maxPipes) (w : Bool) :
    (k.closePosts p w).wiring = k.wiring := by
  simp only [closePosts]
  split
  · split
    · exact k.semPostAll_wiring _
    · split
      · exact k.semPost_wiring _
      · rfl
  · split
    · exact k.semPostAll_wiring _
    · split
      · exact k.semPost_wiring _
      · rfl

/-! ### Opening and closing semaphores -/

theorem modifySem_wiring (k : Kernel) (i : Fin maxSemaphores) (f : Semaphore → Semaphore) :
    (k.modifySem i f).wiring = k.wiring.set i (f (k.semTable i)).entry := by
  unfold wiring Wiring.set
  simp only [Wiring.mk.injEq]
  refine ⟨?_, rfl, rfl⟩
  funext n
  rw [modifySem_semTable, Function.update_apply]
  split <;> rfl

theorem findByName_some {name : List UInt8} {i : Fin maxSemaphores}
    (h : k.findByName name = some i) : k.wiring.Open i ∧ (k.wiring.entry i).1 = name := by
  have := List.find?_some h
  simpa [wiring, Wiring.Open, Semaphore.entry] using this

theorem findFreeSem_some {i : Fin maxSemaphores} (h : k.findFreeSem = some i) :
    ¬ k.wiring.Open i := by
  have := List.find?_some h
  simpa [wiring, Wiring.Open, Semaphore.entry] using this

theorem findFreeSem_none (h : k.findFreeSem = none) (i : Fin maxSemaphores) : k.wiring.Open i := by
  have := List.find?_eq_none.mp h i (List.mem_finRange i)
  simpa [wiring, Wiring.Open, Semaphore.entry] using this

/-- A semaphore as `sem_open` makes it. -/
def freshSem (name : List UInt8) (v : Int) : Semaphore := ⟨name, v, [], true, 1⟩

/-- A name nobody has, and room in the table: `sem_open` makes a new entry. -/
theorem semOpen_fresh {name : List UInt8} (v : Int)
    (hname : ∀ i, k.wiring.Open i → (k.wiring.entry i).1 ≠ name)
    (hfree : ∃ i, ¬ k.wiring.Open i) :
    ∃ i, ¬ k.wiring.Open i ∧
      k.semOpen name v = (k.modifySem i fun _ => freshSem name v, (i.val : Int)) := by
  have hnone : k.findByName name = none := by
    cases hf : k.findByName name with
    | none => rfl
    | some i => exact absurd (findByName_some hf).2 (hname i (findByName_some hf).1)
  cases hs : k.findFreeSem with
  | none =>
      obtain ⟨i, hi⟩ := hfree
      exact absurd (findFreeSem_none hs i) hi
  | some i =>
      refine ⟨i, findFreeSem_some hs, ?_⟩
      simp only [semOpen, hnone, hs, freshSem]

/-- `sem_open` under a name that is not a pipe's. -/
theorem semOpen_wired (h : Wired k.wiring) {name : List UInt8}
    (hname : ∀ p w, name ≠ pipeSemName p w) (v : Int) : Wired (k.semOpen name v).1.wiring := by
  cases hf : k.findByName name with
  | some i =>
      obtain ⟨-, hi⟩ := findByName_some hf
      simp only [semOpen, hf]
      rw [modifySem_wiring]
      apply h.set
      · exact h.not_held fun _ p w => hi ▸ hname p w
      · intro _ p w
        exact hi ▸ hname p w
  | none =>
      cases hs : k.findFreeSem with
      | none =>
          simp only [semOpen, hf, hs]
          exact h
      | some i =>
          simp only [semOpen, hf, hs]
          rw [modifySem_wiring]
          apply h.set
          · exact h.not_held fun hopen => absurd hopen (findFreeSem_some hs)
          · intro _
            exact hname

/-- `sem_close` takes one reference, and closes the entry with the last one. -/
theorem semClose_wiring (k : Kernel) (semId : Int) :
    (k.semClose semId).1.wiring = k.wiring ∨
      ∃ i, semId = (i.val : Int) ∧ k.wiring.Open i ∧
        (k.semClose semId).1.wiring = k.wiring.set i ((k.wiring.entry i).1,
          decide (1 < (k.wiring.entry i).2.2), (k.wiring.entry i).2.2 - 1) := by
  simp only [semClose]
  split
  · exact .inl rfl
  · rename_i i hi
    obtain ⟨hact, hid⟩ := k.validSem_some hi
    refine .inr ⟨i, hid, hact, ?_⟩
    rw [modifySem_self]
    split
    · rename_i hr
      have hr' : (k.semTable i).refCount ≤ 1 := by
        have : (k.semTable i).refCount - 1 ≤ 0 := hr
        omega
      rw [modifySem_modifySem, modifySem_wiring]
      have hlast : ¬ 1 < (k.wiring.entry i).2.2 := not_lt.mpr hr'
      rw [decide_eq_false hlast]
      rfl
    · rename_i hr
      have hr' : 1 < (k.wiring.entry i).2.2 := by
        have : ¬ (k.semTable i).refCount - 1 ≤ 0 := hr
        show 1 < (k.semTable i).refCount
        omega
      rw [modifySem_wiring, decide_eq_true hr']
      unfold Semaphore.entry
      rw [hact]
      rfl

theorem semClose_wired (h : Wired k.wiring) {semId : Int}
    (hid : ∀ p w, k.wiring.active p = true → k.wiring.sem p w ≠ semId) :
    Wired (k.semClose semId).1.wiring := by
  rcases k.semClose_wiring semId with hsame | ⟨i, hi, hopen, hset⟩
  · rw [hsame]
    exact h
  · rw [hset]
    apply h.set
    · intro p w hp
      exact hi ▸ hid p w hp
    · -- an open entry with the name of a pipe would be held by it
      intro _ p w hname
      obtain ⟨hp, hsem⟩ := h.named i p w hopen hname
      exact hid p w hp (hsem.trans hi.symm)

/-- The last reference. -/
theorem semClose_last {i : Fin maxSemaphores} {name : List UInt8}
    (hi : k.wiring.entry i = (name, true, 1)) :
    (k.semClose (i.val : Int)).1.wiring = k.wiring.set i (name, false, 0) := by
  have hact : (k.semTable i).active = true := congrArg (fun e => e.2.1) hi
  have hvalid := validSem_of_active hact
  have hr : (k.semTable i).refCount = 1 := congrArg (fun e => e.2.2) hi
  have hn : (k.semTable i).name = name := congrArg Prod.fst hi
  simp only [semClose, hvalid, modifySem_self, hr]
  rw [if_pos (by decide), modifySem_modifySem, modifySem_wiring]
  unfold Semaphore.entry
  simp only [hr, hn]
  rfl

/-! ### Closing pipes -/

/-- The first half of the end of `pipe_close`: the entry of the pipe. -/
def deactivate (k : Kernel) (p : Fin maxPipes) : Kernel :=
  { k.modifyPipe p (fun b => { b with active := false }) with
    pipeReservedReaders := Function.update k.pipeReservedReaders p 0
    pipeReservedWriters := Function.update k.pipeReservedWriters p 0 }

theorem deactivate_wiring (k : Kernel) (p : Fin maxPipes) :
    (k.deactivate p).wiring =
      ⟨k.wiring.entry, Function.update k.wiring.active p false, k.wiring.sem⟩ := by
  unfold wiring
  simp only [Wiring.mk.injEq]
  refine ⟨rfl, ?_, rfl⟩
  funext q
  show ((k.modifyPipe p fun b => { b with active := false }).pipeTable q).active = _
  rw [modifyPipe_pipeTable, Function.update_apply]
  split <;> rfl

/-- The second half: both semaphores are closed for good. -/
theorem closeSems_wiring {p : Fin maxPipes} {i j : Fin maxSemaphores} (hij : i ≠ j)
    (hi : k.wiring.Holds p false i) (hj : k.wiring.Holds p true j) :
    ((k.semClose (k.pipeSemData p)).1.semClose ((k.semClose (k.pipeSemData p)).1.pipeSemSpace p)).1.wiring
      = (k.wiring.set i (pipeSemName p false, false, 0)).set j (pipeSemName p true, false, 0) := by
  have hdata : k.pipeSemData p = (i.val : Int) := hi.1
  have hspace : k.pipeSemSpace p = (j.val : Int) := hj.1
  have hfirst := semClose_last hi.2
  rw [(SamePipes.semClose k _).semSpace, hdata, hspace]
  rw [← hfirst]
  apply semClose_last
  rw [hfirst]
  exact (Function.update_of_ne hij.symm _ _).trans hj.2

theorem retire_wiring (h : Wired k.wiring) {p : Fin maxPipes} (hp : k.wiring.active p = true) :
    (k.retire p).wiring = k.wiring ∨ (k.retire p).wiring = k.wiring.retire p := by
  obtain ⟨i, hi, hei⟩ := h.holds p false hp
  obtain ⟨j, hj, hej⟩ := h.holds p true hp
  have hij : i ≠ j := by
    rintro rfl
    cases (h.eq hp hp (hi.trans hj.symm)).2
  unfold retire
  split
  · right
    have hw := k.deactivate_wiring p
    have hboth := closeSems_wiring (k := k.deactivate p) hij (by rw [hw]; exact ⟨hi, hei⟩)
      (by rw [hw]; exact ⟨hj, hej⟩)
    refine hboth.trans ?_
    rw [hw]
    unfold Wiring.set Wiring.retire
    simp only [Wiring.mk.injEq, and_true]
    funext n
    rw [hi, hj]
    by_cases hnj : n = j
    · subst hnj
      rw [Function.update_self, if_pos (.inr rfl), hej]
    · rw [Function.update_of_ne hnj]
      by_cases hni : n = i
      · subst hni
        rw [Function.update_self, if_pos (.inl rfl), hei]
      · rw [Function.update_of_ne hni, if_neg]
        rintro (he | he)
        · exact hni (Fin.ext (by omega))
        · exact hnj (Fin.ext (by omega))
  · exact .inl rfl

/-- What closing ends does to the wiring: it stays sound, and the pipes keep their
identifiers. -/
def Keeps (k k' : Kernel) : Prop :=
  Wired k.wiring → Wired k'.wiring ∧ k'.wiring.sem = k.wiring.sem

theorem Keeps.of_eq (h : k'.wiring = k.wiring) : Keeps k k' := by
  intro hw
  rw [h]
  exact ⟨hw, rfl⟩

theorem Keeps.trans {k'' : Kernel} (h : Keeps k k') (h' : Keeps k' k'') : Keeps k k'' := by
  intro hw
  obtain ⟨hw', hsem'⟩ := h hw
  obtain ⟨hw'', hsem''⟩ := h' hw'
  exact ⟨hw'', hsem''.trans hsem'⟩

theorem pipeClose_keeps (k : Kernel) (pipeId : Int) (w : Bool) :
    Keeps k (k.pipeClose pipeId w).1 := by
  intro hw
  unfold pipeClose
  split
  · exact ⟨hw, rfl⟩
  · rename_i p hp
    have hsame : ((k.dropEnd p w).closePosts p w).wiring = k.wiring :=
      (closePosts_wiring _ p w).trans (k.dropEnd_wiring p w)
    have hactive : k.wiring.active p = true := (k.validPipe_some hp).1
    show Wired (((k.dropEnd p w).closePosts p w).retire p).wiring ∧ _
    rcases retire_wiring (hsame ▸ hw) (hsame ▸ hactive) with hr | hr
    · rw [hr, hsame]
      exact ⟨hw, rfl⟩
    · rw [hr, hsame]
      exact ⟨hw.retire hactive, rfl⟩

theorem keeps_endClosed : EndClosed Keeps where
  refl := fun _ => .of_eq rfl
  trans := fun h h' => h.trans h'
  sched := fun _ _ => .of_eq rfl
  closes := fun k pipeId w => k.pipeClose_keeps pipeId w
  removes := fun _ pid =>
    .of_eq (wiring_eq (fun n => semRemoveWaitingPid_entry _ n pid) (fun _ => rfl) rfl rfl)

/-! ### Opening pipes -/

/-- Two entries of the semaphore table are free. -/
def RoomForTwo (k : Kernel) : Prop := ∃ i j, i ≠ j ∧ ¬ k.wiring.Open i ∧ ¬ k.wiring.Open j

/-- `sem_open` of the name of a side, when one entry is free. -/
theorem semOpen_side {p : Fin maxPipes} {w : Bool}
    (hnone : ∀ n, k.wiring.Open n → (k.wiring.entry n).1 ≠ pipeSemName p w)
    (hfree : ∃ n, ¬ k.wiring.Open n) :
    ∃ i, ¬ k.wiring.Open i ∧ k.semOpen [if w then 115 else 100, 48 + UInt8.ofNat p.val] 0 =
      (k.modifySem i fun _ => freshSem (pipeSemName p w) 0, (i.val : Int)) :=
  semOpen_fresh 0 hnone hfree

/-- **`pipe_init_sems`** with room in the table and no trace of an earlier pipe. -/
theorem pipeInitSems_eq {p : Fin maxPipes}
    (hnone : ∀ w n, k.wiring.Open n → (k.wiring.entry n).1 ≠ pipeSemName p w)
    (hroom : k.RoomForTwo) :
    ∃ i j, i ≠ j ∧ ¬ k.wiring.Open i ∧ ¬ k.wiring.Open j ∧
      k.pipeInitSems p = { k with
        semTable := Function.update (Function.update k.semTable i
          (freshSem (pipeSemName p false) 0)) j (freshSem (pipeSemName p true) 0)
        pipeSemData := Function.update k.pipeSemData p i.val
        pipeSemSpace := Function.update k.pipeSemSpace p j.val } := by
  obtain ⟨a, b, hab, ha, hb⟩ := hroom
  obtain ⟨i, hi, hdata⟩ := semOpen_side (w := false) (hnone false) ⟨a, ha⟩
  generalize hk₂ : ({ k.modifySem i (fun _ => freshSem (pipeSemName p false) 0) with
    pipeSemData := Function.update k.pipeSemData p i.val } : Kernel) = k₂
  have htable : k₂.semTable = Function.update k.semTable i (freshSem (pipeSemName p false) 0) := by
    rw [← hk₂]
    rfl
  have hself : k₂.wiring.entry i = (pipeSemName p false, true, 1) := by
    show (k₂.semTable i).entry = _
    rw [htable, Function.update_self]
    rfl
  have hother : ∀ n, n ≠ i → k₂.wiring.entry n = k.wiring.entry n := by
    intro n hn
    show (k₂.semTable n).entry = _
    rw [htable, Function.update_of_ne hn]
    rfl
  have hfree : ∃ n, ¬ k₂.wiring.Open n := by
    have hopen : ∀ n, n ≠ i → ¬ k.wiring.Open n → ¬ k₂.wiring.Open n := by
      intro n hn hclosed
      unfold Wiring.Open
      rw [hother n hn]
      exact hclosed
    by_cases hai : a = i
    · exact ⟨b, hopen b (hai ▸ hab.symm) hb⟩
    · exact ⟨a, hopen a hai ha⟩
  have hnone₂ : ∀ n, k₂.wiring.Open n → (k₂.wiring.entry n).1 ≠ pipeSemName p true := by
    intro n hopen
    by_cases hn : n = i
    · subst hn
      rw [hself]
      intro hname
      cases (pipeSemName_inj hname).2
    · unfold Wiring.Open at hopen
      rw [hother n hn] at hopen ⊢
      exact hnone true n hopen
  obtain ⟨j, hj, hspace⟩ := semOpen_side (w := true) hnone₂ hfree
  have hji : j ≠ i := by
    rintro rfl
    apply hj
    unfold Wiring.Open
    rw [hself]
  refine ⟨i, j, hji.symm, hi, ?_, ?_⟩
  · unfold Wiring.Open at hj
    rw [hother j hji] at hj
    exact hj
  · simp only [Bool.false_eq_true, if_false] at hdata
    simp only [if_true] at hspace
    have hinit : k.pipeInitSems p = { (k₂.semOpen [115, 48 + UInt8.ofNat p.val] 0).1 with
        pipeSemSpace := Function.update (k₂.semOpen [115, 48 + UInt8.ofNat p.val] 0).1.pipeSemSpace p
          (k₂.semOpen [115, 48 + UInt8.ofNat p.val] 0).2 } := by
      rw [← hk₂]
      simp only [pipeInitSems, hdata]
      rfl
    rw [hinit, hspace, ← hk₂]
    rfl

/-- **`pipe_open_with_capacity`** with room in the table: it refuses, or the new
pipe has two new semaphores. -/
theorem pipeOpen_wired (h : Wired k.wiring) (c : Int)
    (hroom : (k.pipeOpenWithCapacity c).2 = -1 ∨ k.RoomForTwo) :
    k.pipeOpenWithCapacity c = (k, -1) ∨ ∃ p i j, i ≠ j ∧ k.wiring.active p = false ∧
      (k.pipeOpenWithCapacity c).2 = (p.val : Int) ∧
      (k.pipeOpenWithCapacity c).1.wiring = k.wiring.launch p i j ∧
      ¬ k.wiring.Open i ∧ ¬ k.wiring.Open j ∧
      (k.pipeOpenWithCapacity c).1.semTable i = freshSem (pipeSemName p false) 0 ∧
      (k.pipeOpenWithCapacity c).1.semTable j = freshSem (pipeSemName p true) 0 := by
  rcases k.pipeOpenWithCapacity_eq c with hrefused | ⟨p, hp, -, hopened⟩
  · exact .inl hrefused
  · right
    have hroom' : k.RoomForTwo := by
      rcases hroom with hminus | hroom
      · rw [hopened] at hminus
        dsimp only at hminus
        omega
      · exact hroom
    -- nobody has the names of `p`, which is not active
    have hnone : ∀ w n, (k.openPrep p c).wiring.Open n →
        ((k.openPrep p c).wiring.entry n).1 ≠ pipeSemName p w := by
      intro w n hopen hname
      have hactive := (h.named n p w hopen hname).1
      cases hactive.symm.trans hp
    obtain ⟨i, j, hij, hi, hj, hinit⟩ := pipeInitSems_eq hnone hroom'
    refine ⟨p, i, j, hij, hp, by rw [hopened], ?_, hi, hj, ?_, ?_⟩
    · rw [hopened]
      dsimp only
      rw [hinit]
      unfold wiring Wiring.launch
      simp only [Wiring.mk.injEq]
      refine ⟨?_, ?_, ?_⟩
      · funext n
        simp only [Function.update_apply]
        split
        · rfl
        · split <;> rfl
      · funext q
        show ((k.openPrep p c).pipeTable q).active = _
        unfold openPrep
        rw [modifyPipe_pipeTable, Function.update_apply]
        split <;> rfl
      · funext q w
        by_cases hq : q = p
        · subst hq
          cases w <;> simp only [Function.update_self, Bool.false_eq_true, if_false, if_true]
        · cases w <;> simp only [Function.update_of_ne hq] <;> rfl
    · rw [hopened, hinit]
      exact (Function.update_of_ne hij _ _).trans (Function.update_self _ _ _)
    · rw [hopened, hinit]
      exact Function.update_self _ _ _

/-! ### Runs -/

/-- User processes leave the names and the semaphores of pipes alone, and the
table has room when a pipe is opened. -/
def LeavesPipes (k : Kernel) : Op → Prop
  | .semOpen name _ => ∀ p w, name ≠ pipeSemName p w
  | .semClose semId => ∀ p w, k.wiring.active p = true → k.wiring.sem p w ≠ semId
  | .pipeOpen c => (k.pipeOpenWithCapacity c).2 = -1 ∨ k.RoomForTwo
  | _ => True

/-- Every name that is opened has fewer than 32 bytes.  A longer one is written into the
next record of the table, which the list of semaphores does not show. -/
def ShortNames : Op → Prop
  | .semOpen name _ => name.length < 32
  | _ => True

/-- User processes stay out of the semaphores of pipes. -/
def SparesPipes (k : Kernel) (op : Op) : Prop := LeavesPipes k op ∧ ShortNames op

/-- One piece of kernel code: the wiring stays sound, and a pipe that stays active
keeps its semaphores. -/
theorem exec_wired (h : Wired k.wiring) (hop : LeavesPipes k op) :
    Wired (k.exec op).wiring ∧
      ∀ p, k.wiring.active p = true → (k.exec op).wiring.sem p = k.wiring.sem p := by
  have hkeeps : Keeps k (k.exec op) → Wired (k.exec op).wiring ∧
      ∀ p, k.wiring.active p = true → (k.exec op).wiring.sem p = k.wiring.sem p := by
    intro hk
    obtain ⟨hw, hsem⟩ := hk h
    exact ⟨hw, fun p _ => by rw [hsem]⟩
  cases op with
  | create name pr fg stack => exact hkeeps (.of_eq rfl)
  | kill pid => exact hkeeps (keeps_endClosed.schedulerKill k pid)
  | killForeground => exact hkeeps (keeps_endClosed.schedulerKillForeground k)
  | block pid => exact hkeeps (.of_eq rfl)
  | unblock pid => exact hkeeps (.of_eq rfl)
  | nice pid pr => exact hkeeps (.of_eq rfl)
  | wait pid => exact hkeeps (.of_eq rfl)
  | exit status => exact hkeeps (keeps_endClosed.schedulerExitCurrent k status)
  | yield => exact hkeeps (.of_eq rfl)
  | tick rsp => exact hkeeps (.of_eq rfl)
  | semOpen name v =>
      refine ⟨semOpen_wired h hop v, fun p _ => ?_⟩
      have hsame := SamePipes.semOpen k name v
      funext w
      show (if w then (k.semOpen name v).1.pipeSemSpace p else (k.semOpen name v).1.pipeSemData p) = _
      rw [hsame.semSpace, hsame.semData]
      rfl
  | semWait semId => exact hkeeps (.of_eq (k.semWait_wiring semId))
  | semPost semId => exact hkeeps (.of_eq (k.semPost_wiring semId))
  | semPostAll semId => exact hkeeps (.of_eq (k.semPostAll_wiring semId))
  | semClose semId =>
      refine ⟨semClose_wired h hop, fun p _ => ?_⟩
      have hsame := SamePipes.semClose k semId
      funext w
      show (if w then (k.semClose semId).1.pipeSemSpace p else (k.semClose semId).1.pipeSemData p) = _
      rw [hsame.semSpace, hsame.semData]
      rfl
  | pipeOpen c =>
      show Wired (k.pipeOpenWithCapacity c).1.wiring ∧ _
      rcases pipeOpen_wired h c hop with hrefused | ⟨p, i, j, hij, hp, -, hw, hi, hj, -⟩
      · rw [hrefused]
        exact ⟨h, fun _ _ => by rw [exec, hrefused]⟩
      · rw [hw]
        refine ⟨h.launch hp hij hi hj, fun q hq => ?_⟩
        have hqp : q ≠ p := by
          rintro rfl
          cases hq.symm.trans hp
        show (k.pipeOpenWithCapacity c).1.wiring.sem q = _
        rw [hw]
        exact Function.update_of_ne hqp _ _
  | pipeClose pipeId w => exact hkeeps (k.pipeClose_keeps pipeId w)
  | pipeSetFd pid fd pipeId w =>
      apply hkeeps
      exact keeps_endClosed.syscallPipeSetFd k pid fd pipeId w (.of_eq (k.pipeAttach_wiring pipeId w))
  | pipeRead p => exact hkeeps (.of_eq ((k.pipeReadStep_cases p).wiring fun _ => rfl))
  | pipeWrite p c => exact hkeeps (.of_eq ((k.pipeWriteStep_cases p c).wiring fun _ => rfl))

theorem init_wired (idleStack : Nat) : Wired (init idleStack).wiring := by
  refine ⟨fun p w hp => ?_, fun i p w hopen => ?_⟩
  · cases hp
  · cases hopen

/-- A semaphore nobody has used yet. -/
def Unused (m : Semaphore) : Prop :=
  m.active = true ∧ m.value = 0 ∧ m.waiting = [] ∧ m.refCount = 1

/-- **Every open pipe can block**: in every run in which user processes leave the
names and the semaphores of pipes alone and open short names only,
`pipe_open_with_capacity`, called with room for two semaphores, refuses and changes
nothing, or returns a pipe with two unused semaphores; and the semaphores of an active pipe are open, different,
referenced once, shared with no other pipe, and the same until it is closed. -/
theorem pipes_can_block {idleStack : Nat}
    (h : (machine.restrict SparesPipes).Reach (init idleStack) k) :
    (∀ c, LeavesPipes k (.pipeOpen c) →
      k.pipeOpenWithCapacity c = (k, -1) ∨
      ∃ p i j, i ≠ j ∧ (k.pipeOpenWithCapacity c).2 = (p.val : Int) ∧
        (k.pipeOpenWithCapacity c).1.pipeSemData p = (i.val : Int) ∧
        (k.pipeOpenWithCapacity c).1.pipeSemSpace p = (j.val : Int) ∧
        Unused ((k.pipeOpenWithCapacity c).1.semTable i) ∧
        Unused ((k.pipeOpenWithCapacity c).1.semTable j)) ∧
    ∀ p, (k.pipeTable p).active = true →
      (∃ i j, i ≠ j ∧ k.pipeSemData p = (i.val : Int) ∧ k.pipeSemSpace p = (j.val : Int) ∧
        ((k.semTable i).active = true ∧ (k.semTable i).refCount = 1) ∧
        ((k.semTable j).active = true ∧ (k.semTable j).refCount = 1) ∧
        ∀ q, q ≠ p → (k.pipeTable q).active = true →
          k.pipeSemData q ≠ i.val ∧ k.pipeSemData q ≠ j.val ∧
          k.pipeSemSpace q ≠ i.val ∧ k.pipeSemSpace q ≠ j.val) ∧
      ∀ op, SparesPipes k op →
        (k.exec op).pipeSemData p = k.pipeSemData p ∧
        (k.exec op).pipeSemSpace p = k.pipeSemSpace p := by
  have hw : Wired k.wiring := by
    refine h.invariant (I := fun k => Wired k.wiring) (init_wired idleStack)
      fun k op k' hk hg hs => ?_
    obtain rfl := Option.some.inj hs
    exact (exec_wired hk hg.2.1).1
  refine ⟨fun c hc => ?_, fun p hp => ⟨?_, fun op hop => ?_⟩⟩
  · rcases pipeOpen_wired hw c hc with hrefused | ⟨p, i, j, hij, -, hret, hlaunch, -, -, hi, hj⟩
    · exact .inl hrefused
    · right
      have hsem : ∀ w, (k.pipeOpenWithCapacity c).1.wiring.sem p w =
          if w then (j.val : Int) else i.val := by
        intro w
        rw [hlaunch]
        simp only [Wiring.launch, Function.update_self]
      refine ⟨p, i, j, hij, hret, hsem false, hsem true, ?_, ?_⟩
      · rw [hi]
        exact ⟨rfl, rfl, rfl, rfl⟩
      · rw [hj]
        exact ⟨rfl, rfl, rfl, rfl⟩
  · obtain ⟨i, hi, hei⟩ := hw.holds p false hp
    obtain ⟨j, hj, hej⟩ := hw.holds p true hp
    have hij : i ≠ j := by
      rintro rfl
      cases (hw.eq hp hp (hi.trans hj.symm)).2
    refine ⟨i, j, hij, hi, hj, ⟨congrArg (fun e => e.2.1) hei, congrArg (fun e => e.2.2) hei⟩,
      ⟨congrArg (fun e => e.2.1) hej, congrArg (fun e => e.2.2) hej⟩, fun q hqp hq => ?_⟩
    have hne : ∀ v w, k.wiring.sem q v ≠ k.wiring.sem p w := by
      intro v w hsem
      exact hqp (hw.eq hq hp hsem).1
    exact ⟨hi ▸ hne false false, hj ▸ hne false true, hi ▸ hne true false, hj ▸ hne true true⟩
  · have hsem := (exec_wired hw hop.1).2 p hp
    exact ⟨congrFun hsem false, congrFun hsem true⟩

/-- A pipe is opened while the user holds a semaphore called `A`. -/
theorem pipes_can_block_beside_user : ∃ k : Kernel,
    (machine.restrict SparesPipes).Reach (init 1000) k ∧ (k.semTable 0).name = [65] ∧
      ∃ p i j, i ≠ j ∧ (k.pipeOpenWithCapacity 1).2 = (p.val : Int) ∧
        (k.pipeOpenWithCapacity 1).1.pipeSemData p = (i.val : Int) ∧
        (k.pipeOpenWithCapacity 1).1.pipeSemSpace p = (j.val : Int) ∧
        Unused ((k.pipeOpenWithCapacity 1).1.semTable i) ∧
        Unused ((k.pipeOpenWithCapacity 1).1.semTable j) := by
  have hguard : SparesPipes (init 1000) (.semOpen [65] 3) := by
    refine ⟨fun p w hname => ?_, show 1 < 32 by decide⟩
    cases congrArg List.length hname
  have hreach : (machine.restrict SparesPipes).Reach (init 1000)
      ((init 1000).exec (.semOpen [65] 3)) :=
    (Machine.Reach.refl _).tail ⟨trivial, hguard⟩ rfl
  have hroom : LeavesPipes ((init 1000).exec (.semOpen [65] 3)) (.pipeOpen 1) :=
    .inr ⟨1, 2, by decide, by rintro ⟨⟩, by rintro ⟨⟩⟩
  refine ⟨_, hreach, by decide +kernel, ?_⟩
  rcases (pipes_can_block hreach).1 1 hroom with hrefused | hopened
  · have hret : (((init 1000).exec (.semOpen [65] 3)).pipeOpenWithCapacity 1).2 = 0 := by
      decide +kernel
    rw [hrefused] at hret
    cases hret
  · exact hopened

/-- **Pipes that cannot block**: a pipe opened when the table is full has no
semaphores at all; one opened after a user has opened `d0` shares that semaphore,
whose value is the user's; and a user can close the semaphore of an active pipe. -/
theorem pipe_without_semaphores :
    (∃ k : Kernel, machine.Reach (init 1000) k ∧ (k.pipeOpenWithCapacity 1).2 = 0 ∧
      (k.pipeOpenWithCapacity 1).1.pipeSemData 0 = -1 ∧
      (k.pipeOpenWithCapacity 1).1.pipeSemSpace 0 = -1) ∧
    (∃ k : Kernel, machine.Reach (init 1000) k ∧ (k.pipeOpenWithCapacity 1).2 = 0 ∧
      (k.pipeOpenWithCapacity 1).1.pipeSemData 0 = 0 ∧
      ((k.pipeOpenWithCapacity 1).1.semTable 0).value = 5 ∧
      ((k.pipeOpenWithCapacity 1).1.semTable 0).refCount = 2) ∧
    ∃ k : Kernel, machine.Reach (init 1000) k ∧ (k.pipeTable 0).active = true ∧
      k.pipeSemData 0 = 0 ∧ (k.semTable 0).active = false := by
  refine ⟨?_, ?_, ?_⟩
  · exact machine.exists_reach_of_trace (s := init 1000)
      ((List.range 64).map fun n => .semOpen [65, UInt8.ofNat n] 1) (by decide +kernel)
  · exact machine.exists_reach_of_trace (s := init 1000) [.semOpen [100, 48] 5] (by decide +kernel)
  · exact machine.exists_reach_of_trace (s := init 1000) [.pipeOpen 1, .semClose 0]
      (by decide +kernel)

end Kernel

end TP2Kernel
