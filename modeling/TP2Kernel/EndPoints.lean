/-
TP2Kernel/EndPoints.lean

Counting the end points of two-ended objects.  `held p w` counts the users of
the end `w` of the object `p`, `reserved p w` the part of them that nobody has
taken up yet.  Opening an object reserves both ends; attaching takes up a
reservation or adds a user; closing an end takes both counts down, stopping at
zero; an object without users is retired.

`Balanced E n` relates the counts to the number `n` of users there really are:
every user and every reservation is counted once, users name active objects,
and an active object has a user or a reservation.
-/
import Mathlib.Data.Fintype.Basic
import Mathlib.Data.Finset.Card

namespace TP2Kernel

/-- The counts of the end points; an end is a `Bool`. -/
structure Ends (P : Type*) where
  active : P → Bool
  held : P → Bool → Nat
  reserved : P → Bool → Nat

namespace Ends

variable {P : Type*} [DecidableEq P] (E : Ends P) (p : P) (w : Bool)

/-- Set one count. -/
def set (f : P → Bool → Nat) (p : P) (w : Bool) (n : Nat) : P → Bool → Nat :=
  fun q v => if (q, v) = (p, w) then n else f q v

/-- A new object with both ends reserved. -/
def launch : Ends P where
  active := Function.update E.active p true
  held := fun q v => if q = p then 1 else E.held q v
  reserved := fun q v => if q = p then 1 else E.reserved q v

/-- A new user takes up the reservation or is counted. -/
def attach : Ends P :=
  if 0 < E.reserved p w then { E with reserved := set E.reserved p w (E.reserved p w - 1) }
  else { E with held := set E.held p w (E.held p w + 1) }

/-- One user less. -/
def drop : Ends P :=
  { E with
    held := set E.held p w (E.held p w - 1)
    reserved := set E.reserved p w (E.reserved p w - 1) }

/-- An object without users is given up. -/
def retire : Ends P :=
  if E.held p false = 0 ∧ E.held p true = 0 then
    { E with
      active := Function.update E.active p false
      reserved := fun q v => if q = p then 0 else E.reserved q v }
  else E

/-- Close one end. -/
def close : Ends P := (E.drop p w).retire p

/-- Close one end if the object is active. -/
def release : Ends P := if E.active p then E.close p w else E

/-! ### The counts -/

/-- The number of users of one end, one more. -/
def plus (n : P × Bool → Nat) (e : P × Bool) : P × Bool → Nat :=
  fun e' => if e' = e then n e + 1 else n e'

/-- The number of users of one end, one less. -/
def minus (n : P × Bool → Nat) (e : P × Bool) : P × Bool → Nat :=
  fun e' => if e' = e then n e - 1 else n e'

/-- `n` users are counted in `E`. -/
structure Balanced (E : Ends P) (n : P × Bool → Nat) : Prop where
  count : ∀ p w, E.active p = true → E.held p w = n (p, w) + E.reserved p w
  named : ∀ p w, 0 < n (p, w) → E.active p = true
  used : ∀ p, E.active p = true → 0 < E.held p false ∨ 0 < E.held p true
  reserve : ∀ p w, E.active p = true → E.reserved p w = 0 ∨ E.reserved p w = 1 ∧ n (p, w) = 0

variable {E p w} {n : P × Bool → Nat}

theorem attach_active : (E.attach p w).active = E.active := by
  unfold attach
  split <;> rfl

theorem attach_held (q : P) (v : Bool) :
    (E.attach p w).held q v =
      if (q, v) = (p, w) ∧ E.reserved p w = 0 then E.held p w + 1 else E.held q v := by
  unfold attach
  by_cases hr : 0 < E.reserved p w
  · rw [if_pos hr, if_neg fun h => by omega]
  · rw [if_neg hr]
    exact if_congr (iff_self_and.mpr fun _ => by omega) rfl rfl

theorem attach_reserved (q : P) (v : Bool) :
    (E.attach p w).reserved q v =
      if (q, v) = (p, w) then E.reserved p w - 1 else E.reserved q v := by
  unfold attach
  by_cases hr : 0 < E.reserved p w
  · rw [if_pos hr]
    rfl
  · rw [if_neg hr]
    split
    · rename_i he
      obtain ⟨rfl, rfl⟩ := Prod.mk.inj he
      show E.reserved q v = E.reserved q v - 1
      omega
    · rfl

theorem close_held (q : P) (v : Bool) :
    (E.close p w).held q v = if (q, v) = (p, w) then E.held p w - 1 else E.held q v := by
  unfold close retire
  split <;> rfl

/-- Closing the end leaves no user. -/
def Last (E : Ends P) (p : P) (w : Bool) : Prop :=
  (E.close p w).held p false = 0 ∧ (E.close p w).held p true = 0

instance : Decidable (Last E p w) := inferInstanceAs (Decidable (_ ∧ _))

theorem last_iff : Last E p w ↔ (E.drop p w).held p false = 0 ∧ (E.drop p w).held p true = 0 := by
  unfold Last close retire
  split <;> rfl

theorem close_active (q : P) :
    (E.close p w).active q = if q = p ∧ Last E p w then false else E.active q := by
  unfold close retire
  by_cases hl : Last E p w
  · rw [if_pos (last_iff.mp hl)]
    by_cases hq : q = p
    · rw [if_pos ⟨hq, hl⟩, hq]
      exact Function.update_self _ _ _
    · rw [if_neg fun h => hq h.1]
      exact Function.update_of_ne hq _ _
  · rw [if_neg fun h => hl (last_iff.mpr h), if_neg fun h => hl h.2]
    rfl

theorem close_reserved (q : P) (v : Bool) :
    (E.close p w).reserved q v =
      if q = p ∧ Last E p w then 0
      else if (q, v) = (p, w) then E.reserved p w - 1 else E.reserved q v := by
  unfold close retire
  by_cases hl : Last E p w
  · rw [if_pos (last_iff.mp hl)]
    exact if_congr (iff_self_and.mpr fun _ => hl) rfl rfl
  · rw [if_neg fun h => hl (last_iff.mpr h), if_neg fun h => hl h.2]
    rfl

/-! ### Balance -/

theorem Balanced.launch (h : Balanced E n) (hp : E.active p = false) :
    Balanced (E.launch p) n := by
  have hn : ∀ w, n (p, w) = 0 := by
    intro w
    by_contra hne
    rw [h.named p w (Nat.pos_of_ne_zero hne)] at hp
    cases hp
  have hact : ∀ q, q ≠ p → (E.launch p).active q = E.active q := fun q hq =>
    Function.update_of_ne hq _ _
  refine ⟨fun q v hq => ?_, fun q v hq => ?_, fun q hq => ?_, fun q v hq => ?_⟩
  · by_cases hqp : q = p
    · subst hqp
      simp only [Ends.launch, if_true, hn]
    · rw [hact q hqp] at hq
      simp only [Ends.launch, if_neg hqp]
      exact h.count q v hq
  · by_cases hqp : q = p
    · subst hqp
      exact Function.update_self _ _ _
    · rw [hact q hqp]
      exact h.named q v hq
  · by_cases hqp : q = p
    · subst hqp
      simp only [Ends.launch, if_true]
      exact .inl Nat.one_pos
    · rw [hact q hqp] at hq
      simp only [Ends.launch, if_neg hqp]
      exact h.used q hq
  · by_cases hqp : q = p
    · subst hqp
      exact .inr ⟨if_pos rfl, hn v⟩
    · rw [hact q hqp] at hq
      simp only [Ends.launch, if_neg hqp]
      exact h.reserve q v hq

/-- A new user is counted. -/
theorem Balanced.attach (h : Balanced E n) (hp : E.active p = true) :
    Balanced (E.attach p w) (plus n (p, w)) := by
  refine ⟨fun q v hq => ?_, fun q v hq => ?_, fun q hq => ?_, fun q v hq => ?_⟩
  · rw [attach_active] at hq
    have hc := h.count q v hq
    rw [attach_held, attach_reserved, plus]
    by_cases he : (q, v) = (p, w)
    · obtain ⟨rfl, rfl⟩ := Prod.mk.inj he
      simp only [if_true, true_and]
      split <;> omega
    · simp only [he, if_false, false_and]
      exact hc
  · rw [attach_active]
    by_cases he : (q, v) = (p, w)
    · rwa [(Prod.mk.inj he).1]
    · rw [plus, if_neg he] at hq
      exact h.named q v hq
  · rw [attach_active] at hq
    have hu := h.used q hq
    rw [attach_held, attach_held]
    split <;> split <;> omega
  · rw [attach_active] at hq
    have hr := h.reserve q v hq
    rw [attach_reserved, plus]
    by_cases he : (q, v) = (p, w)
    · obtain ⟨rfl, rfl⟩ := Prod.mk.inj he
      simp only [if_true]
      omega
    · simp only [he, if_false]
      exact hr

/-- Closing an end keeps the balance if the counts of that end agree. -/
theorem Balanced.close_of (h : Balanced E n) {m : P × Bool → Nat}
    (hm : ∀ e, e ≠ (p, w) → m e = n e)
    (hc : E.held p w - 1 = m (p, w) + (E.reserved p w - 1))
    (hmn : 0 < m (p, w) → 0 < n (p, w))
    (hr : E.reserved p w - 1 = 0) : Balanced (E.close p w) m := by
  have hact : ∀ q, (E.close p w).active q = true → E.active q = true ∧ ¬ (q = p ∧ Last E p w) := by
    intro q hq
    rw [close_active] at hq
    split at hq
    · cases hq
    · exact ⟨hq, ‹_›⟩
  have hcount : ∀ q v, E.active q = true → (E.close p w).held q v
      = m (q, v) + if (q, v) = (p, w) then E.reserved p w - 1 else E.reserved q v := by
    intro q v hq
    rw [close_held]
    by_cases he : (q, v) = (p, w)
    · rw [if_pos he, if_pos he, he]
      exact hc
    · rw [if_neg he, if_neg he, hm _ he]
      exact h.count q v hq
  refine ⟨fun q v hq => ?_, fun q v hq => ?_, fun q hq => ?_, fun q v hq => ?_⟩
  · obtain ⟨ha, hl⟩ := hact q hq
    rw [hcount q v ha, close_reserved, if_neg hl]
  · have hn : 0 < n (q, v) := by
      by_cases he : (q, v) = (p, w)
      · rw [he] at hq ⊢
        exact hmn hq
      · rwa [hm _ he] at hq
    have ha := h.named q v hn
    rw [close_active, if_neg]
    · exact ha
    · rintro ⟨rfl, hf, ht⟩
      rw [hcount _ _ ha] at hf ht
      cases v <;> omega
  · obtain ⟨ha, hl⟩ := hact q hq
    by_contra hnone
    simp only [not_or, Nat.not_lt, Nat.le_zero] at hnone
    by_cases hqp : q = p
    · subst hqp
      exact hl ⟨rfl, hnone⟩
    · have hu := h.used q ha
      rw [close_held, close_held, if_neg fun e => hqp (Prod.mk.inj e).1,
        if_neg fun e => hqp (Prod.mk.inj e).1] at hnone
      omega
  · obtain ⟨ha, hl⟩ := hact q hq
    rw [close_reserved, if_neg hl]
    by_cases he : (q, v) = (p, w)
    · rw [if_pos he]
      exact .inl hr
    · rw [if_neg he, hm _ he]
      exact h.reserve q v ha

/-- A user goes. -/
theorem Balanced.close (h : Balanced E n) (hn : 0 < n (p, w)) :
    Balanced (E.close p w) (minus n (p, w)) := by
  have ha := h.named p w hn
  have hc := h.count p w ha
  have hr := h.reserve p w ha
  have hm : minus n (p, w) (p, w) = n (p, w) - 1 := if_pos rfl
  refine h.close_of (fun e he => if_neg he) ?_ (fun _ => hn) (by omega)
  rw [hm]
  omega

/-- A reservation is given up. -/
theorem Balanced.cancel (h : Balanced E n) (ha : E.active p = true) (hr : 0 < E.reserved p w) :
    Balanced (E.close p w) n := by
  have hc := h.count p w ha
  have hr' := h.reserve p w ha
  exact h.close_of (fun _ _ => rfl) (by omega) id (by omega)

/-! ### Releasing many ends -/

/-- The object is active or has no user left. -/
def Settled (E : Ends P) (p : P) : Prop := E.active p = true ∨ ∀ w, E.held p w = 0

theorem Settled.release {q : P} (h : Settled E q) : Settled (E.release p w) q := by
  unfold Ends.release
  split
  · rcases h with ha | hz
    · by_cases hl : q = p ∧ Last E p w
      · right
        intro v
        obtain ⟨rfl, hf, ht⟩ := hl
        cases v
        · exact hf
        · exact ht
      · left
        rwa [close_active, if_neg hl]
    · right
      intro v
      rw [close_held]
      split
      · rename_i he
        obtain ⟨rfl, rfl⟩ := Prod.mk.inj he
        rw [hz]
      · exact hz v
  · exact h

theorem Settled.release_held {q : P} (h : Settled E q) (v : Bool) :
    (E.release p w).held q v = E.held q v - if (q, v) = (p, w) then 1 else 0 := by
  unfold Ends.release
  split
  · rw [close_held]
    split
    · rename_i he
      obtain ⟨rfl, rfl⟩ := Prod.mk.inj he
      rfl
    · rfl
  · split
    · rename_i hna he
      obtain ⟨rfl, rfl⟩ := Prod.mk.inj he
      rcases h with ha | hz
      · exact absurd ha hna
      · rw [hz]
    · rfl

/-! ### Counting the users -/

section Names

variable {X : Type*} [Fintype X] {f : X → Option (P × Bool)} {x : X} {e : P × Bool}

/-- How many holders name an end. -/
def names (f : X → Option (P × Bool)) (e : P × Bool) : Nat :=
  (Finset.univ.filter fun x => f x = some e).card

theorem names_pos (hx : f x = some e) : 0 < names f e :=
  Finset.card_pos.mpr ⟨x, Finset.mem_filter.mpr ⟨Finset.mem_univ x, hx⟩⟩

theorem exists_of_names_pos (h : 0 < names f e) : ∃ x, f x = some e := by
  obtain ⟨x, hx⟩ := Finset.card_pos.mp h
  exact ⟨x, (Finset.mem_filter.mp hx).2⟩

/-- Fewer holders, one of them gone. -/
theorem names_lt {g : X → Option (P × Bool)} (hx : f x = some e) (hgx : g x = none)
    (hg : ∀ y, g y = some e → f y = some e) : names g e < names f e := by
  refine Finset.card_lt_card ⟨fun y hy => ?_, fun hsub => ?_⟩
  · exact Finset.mem_filter.mpr ⟨Finset.mem_univ y, hg y (Finset.mem_filter.mp hy).2⟩
  · have hmem := hsub (Finset.mem_filter.mpr ⟨Finset.mem_univ x, hx⟩)
    cases hgx.symm.trans (Finset.mem_filter.mp hmem).2

variable [DecidableEq X]

/-- A holder lets go. -/
theorem names_update_none (hx : f x = some e) :
    names (Function.update f x none) = minus (names f) e := by
  funext e'
  unfold names minus
  by_cases he : e' = e
  · subst he
    rw [if_pos rfl, ← Finset.card_erase_of_mem (Finset.mem_filter.mpr ⟨Finset.mem_univ x, hx⟩)]
    congr 1
    ext y
    by_cases hy : y = x
    · simp [hy]
    · simp [hy]
  · rw [if_neg he]
    congr 1
    ext y
    by_cases hy : y = x
    · subst hy
      simp [hx, Ne.symm he]
    · simp [hy]

/-- A holder takes an end. -/
theorem names_update_some (hx : f x = none) :
    names (Function.update f x (some e)) = plus (names f) e := by
  have hself : Function.update (Function.update f x (some e)) x none = f := by
    rw [Function.update_idem, ← hx, Function.update_eq_self]
  have hminus := names_update_none (f := Function.update f x (some e)) (Function.update_self x _ f)
  have hpos := names_pos (f := Function.update f x (some e)) (Function.update_self x _ f)
  rw [hself] at hminus
  rw [hminus]
  funext e'
  unfold plus minus
  by_cases he : e' = e
  · subst he
    rw [if_pos rfl, if_pos rfl]
    omega
  · rw [if_neg he, if_neg he]

/-- A holder changes what it names. -/
theorem names_update (f : X → Option (P × Bool)) (x : X) (v : Option (P × Bool)) (e : P × Bool) :
    names (Function.update f x v) e =
      names f e - (if f x = some e then 1 else 0) + if v = some e then 1 else 0 := by
  have hclear : names (Function.update f x none) e
      = names f e - if f x = some e then 1 else 0 := by
    rcases hx : f x with - | e₀
    · rw [← hx, Function.update_eq_self, hx]
      rfl
    · rw [names_update_none hx, minus]
      by_cases he : e = e₀
      · rw [if_pos he, if_pos (congrArg some he.symm), he]
      · rw [if_neg he, if_neg fun h => he (Option.some.inj h).symm]
        rfl
  rcases v with - | e₀
  · exact hclear
  · have hx : Function.update f x none x = none := Function.update_self ..
    have hset := congrFun (names_update_some (e := e₀) hx) e
    rw [Function.update_idem] at hset
    rw [hset, ← hclear, plus]
    by_cases he : e = e₀
    · rw [if_pos he, if_pos (congrArg some he.symm), he]
    · rw [if_neg he, if_neg fun h => he (Option.some.inj h).symm]
      rfl

end Names

end Ends

end TP2Kernel
