/-
TP2Kernel/Runs.lean

Runs of a labelled machine.  A machine has a guard, saying which labels may be
taken in a state, and a partial step function; `none` is a step that does not
come to an end.  Reachability is the reflexive-transitive closure of one
guarded step, so safety over whole runs reduces to `Reach.invariant`.

`restrict` strengthens the guard: a statement about the reachable states of
`T.restrict ok` is a statement about every run of `T` whose steps all meet
`ok`.
-/
import Mathlib.Logic.Relation

namespace TP2Kernel

/-- A machine with states `S` and labels `L`. -/
structure Machine (S L : Type*) where
  guard : S → L → Prop
  step : S → L → Option S

namespace Machine

variable {S L : Type*}

/-- One guarded step. -/
def Next (T : Machine S L) (s s' : S) : Prop :=
  ∃ l, T.guard s l ∧ T.step s l = some s'

/-- `s'` is reached from `s` by a run. -/
def Reach (T : Machine S L) : S → S → Prop :=
  Relation.ReflTransGen T.Next

/-- The machine that only takes steps meeting `ok`. -/
def restrict (T : Machine S L) (ok : S → L → Prop) : Machine S L where
  guard := fun s l => T.guard s l ∧ ok s l
  step := T.step

instance (T : Machine S L) (ok : S → L → Prop) [∀ s l, Decidable (T.guard s l)]
    [∀ s l, Decidable (ok s l)] (s : S) (l : L) : Decidable ((T.restrict ok).guard s l) :=
  inferInstanceAs (Decidable (T.guard s l ∧ ok s l))

variable {T : Machine S L} {s₀ s s' : S}

theorem Reach.refl (s : S) : T.Reach s s := Relation.ReflTransGen.refl

theorem Reach.tail (h : T.Reach s₀ s) {l : L} (hg : T.guard s l) (hs : T.step s l = some s') :
    T.Reach s₀ s' :=
  Relation.ReflTransGen.tail h ⟨l, hg, hs⟩

/-- **The invariant rule**: what holds at the start and is kept by every
guarded step holds in every state reached. -/
theorem Reach.invariant {I : S → Prop} (h : T.Reach s₀ s) (h₀ : I s₀)
    (hstep : ∀ s l s', I s → T.guard s l → T.step s l = some s' → I s') : I s := by
  induction h with
  | refl => exact h₀
  | tail _ hn ih =>
      obtain ⟨l, hg, hs⟩ := hn
      exact hstep _ l _ ih hg hs

/-- A run that meets a condition is a run. -/
theorem Reach.of_restrict {ok : S → L → Prop} (h : (T.restrict ok).Reach s₀ s) : T.Reach s₀ s :=
  h.invariant (.refl s₀) fun _ _ _ ht hg hs => ht.tail hg.1 hs

/-! ### Executing a run -/

/-- Take the labels one after the other; `none` when a guard fails or a step
does not end. -/
def trace (T : Machine S L) [∀ s l, Decidable (T.guard s l)] : S → List L → Option S
  | s, [] => some s
  | s, l :: ls => if T.guard s l then (T.step s l).bind fun s' => trace T s' ls else none

theorem trace_cons [∀ s l, Decidable (T.guard s l)] {l : L} (hg : T.guard s l)
    (hs : T.step s l = some s') (ls : List L) : T.trace s (l :: ls) = T.trace s' ls := by
  rw [trace, if_pos hg, hs]
  rfl

theorem trace_reach [∀ s l, Decidable (T.guard s l)] {ls : List L}
    (h : T.trace s ls = some s') : T.Reach s s' := by
  induction ls generalizing s with
  | nil =>
      obtain rfl := Option.some.inj h
      exact Reach.refl s
  | cons l ls ih =>
      rw [trace] at h
      split at h
      · rename_i hg
        obtain ⟨t, ht, hrest⟩ := Option.bind_eq_some_iff.mp h
        exact Relation.ReflTransGen.head ⟨l, hg, ht⟩ (ih hrest)
      · cases h

/-- A property of the result of a run, read off its execution. -/
theorem exists_reach_of_trace [∀ s l, Decidable (T.guard s l)] (ls : List L) {P : S → Prop}
    [DecidablePred P] (h : (T.trace s ls).any (fun s' => decide (P s')) = true) :
    ∃ s', T.Reach s s' ∧ P s' := by
  rcases ht : T.trace s ls with - | s'
  · rw [ht] at h; cases h
  · rw [ht] at h
    exact ⟨s', trace_reach ht, of_decide_eq_true h⟩

/-- A run, and a run of another machine from what the first one leaves. -/
theorem exists_reach_of_traces {S' L' : Type*} (T' : Machine S' L')
    [∀ s l, Decidable (T.guard s l)] [∀ s l, Decidable (T'.guard s l)] (f : S → S')
    (ls : List L) (ls' : List L') {P : S → Prop} {Q : S' → Prop} [DecidablePred P]
    [DecidablePred Q]
    (h : (T.trace s ls).any (fun s₁ => decide (P s₁) &&
      (T'.trace (f s₁) ls').any fun s₂ => decide (Q s₂)) = true) :
    ∃ s₁ s₂, T.Reach s s₁ ∧ P s₁ ∧ T'.Reach (f s₁) s₂ ∧ Q s₂ := by
  rcases ht : T.trace s ls with - | s₁
  · rw [ht] at h; cases h
  · rw [ht, Option.any_some, Bool.and_eq_true] at h
    rcases ht' : T'.trace (f s₁) ls' with - | s₂
    · rw [ht'] at h; cases h.2
    · rw [ht'] at h
      exact ⟨s₁, s₂, trace_reach ht, of_decide_eq_true h.1, trace_reach ht', of_decide_eq_true h.2⟩

end Machine

end TP2Kernel
