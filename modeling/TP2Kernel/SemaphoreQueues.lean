/-
TP2Kernel/SemaphoreQueues.lean

What the loops of `Kernel/semaphore.c` do to the queue of a record.

The first `wait_count` entries of `waiting` and `waiting_credit` are the queue,
and what lies behind them is scratch.  A loop that goes up through the entries
has made the queue's list out of those it has passed and has not yet touched the
others, so each of them is a list function: `removePid` for the sweep, `eraseIdx`
for `dequeue_at`, `ageWaitersExcept` and `bestWaiter`.  `Requeued` says that a
piece of code turns the queue into a given list and writes nowhere else.
-/
import TP2Kernel.SemaphoreBytes

namespace TP2Kernel

namespace SemTable

/-! ### The queue of a record -/

/-- Entry `j` of the queue. -/
def entryAt (m : ByteMem) (i : Fin maxSemaphores) (j : Nat) : Int × Int :=
  (waiting m i j, waitingCredit m i j)

/-- The first `n` entries. -/
def entries (m : ByteMem) (i : Fin maxSemaphores) (n : Nat) : List (Int × Int) :=
  (List.range n).map (entryAt m i)

/-- The queue. -/
def waiters (m : ByteMem) (i : Fin maxSemaphores) : List (Int × Int) :=
  entries m i (waitCount m i).toNat

/-- The queue has a length it has room for. -/
def Ranged (m : ByteMem) (i : Fin maxSemaphores) : Prop :=
  0 ≤ waitCount m i ∧ waitCount m i ≤ maxWaiting

/-- A change inside the queue of record `i` and its length. -/
def InQueue (i : Fin maxSemaphores) (m m' : ByteMem) : Prop :=
  Set.EqOn m' m (outside (recordAt i + 36) (recordAt i + 552))

/-- The queue of record `i` is now `ws`, and nothing else has changed. -/
structure Requeued (i : Fin maxSemaphores) (m m' : ByteMem) (ws : List (Int × Int)) : Prop where
  inside : InQueue i m m'
  count : waitCount m' i = ws.length
  entries : entries m' i ws.length = ws
  room : ws.length ≤ maxWaiting

section Entries

variable {i : Fin maxSemaphores} {m m₁ m₂ : ByteMem} {j n : Nat} {ws : List (Int × Int)}

theorem length_entries : (entries m i n).length = n := by
  rw [entries, List.length_map, List.length_range]

theorem entries_succ : entries m i (n + 1) = entries m i n ++ [entryAt m i n] := by
  rw [entries, List.range_succ, List.map_append]
  rfl

theorem entries_congr (h : ∀ j < n, entryAt m₁ i j = entryAt m i j) :
    entries m₁ i n = entries m i n :=
  List.map_congr_left fun j hj => h j (List.mem_range.mp hj)

theorem entries_getElem? (hj : j < n) : (entries m i n)[j]? = some (entryAt m i j) := by
  rw [entries, List.getElem?_map, List.getElem?_range hj]
  rfl

theorem length_waiters (h : Ranged m i) : ((waiters m i).length : Int) = waitCount m i := by
  rw [waiters, length_entries]
  exact Int.toNat_of_nonneg h.1

theorem length_waiters_le (h : Ranged m i) : (waiters m i).length ≤ maxWaiting := by
  have hlen := length_waiters h
  have hle := h.2
  omega

theorem Requeued.refl (h : Ranged m i) : Requeued i m m (waiters m i) where
  inside := Set.eqOn_refl m _
  count := (length_waiters h).symm
  entries := by
    rw [waiters, length_entries]
  room := length_waiters_le h

theorem Requeued.trans (h₁ : InQueue i m m₁) (h₂ : Requeued i m₁ m₂ ws) : Requeued i m m₂ ws :=
  ⟨eqOn_chain h₁ h₂.inside, h₂.count, h₂.entries, h₂.room⟩

theorem Requeued.ranged (h : Requeued i m m₁ ws) : Ranged m₁ i := by
  have hroom := h.room
  unfold Ranged
  rw [h.count]
  omega

theorem Requeued.waiters_eq (h : Requeued i m m₁ ws) : waiters m₁ i = ws := by
  rw [waiters, h.count, Int.toNat_natCast]
  exact h.entries

/-- Both parts of entry `j` are written; an `int` is stored as far as it is in range. -/
theorem setEntry_spec (m : ByteMem) (hj : j < maxWaiting) (v w : Int) :
    InQueue i m (setWaitingCredit (setWaiting m i j v) i j w) ∧
      waitCount (setWaitingCredit (setWaiting m i j v) i j w) i = waitCount m i ∧
      ∀ j' < maxWaiting, entryAt (setWaitingCredit (setWaiting m i j v) i j w) i j' =
        if j' = j then (Int.bmod v (2 ^ 32), Int.bmod w (2 ^ 32)) else entryAt m i j' := by
  unfold maxWaiting at hj
  refine ⟨eqOn_chain (ByteMem.writeInt_eqOn m v ?_ ?_) (ByteMem.writeInt_eqOn _ w ?_ ?_), ?_, ?_⟩
  · omega
  · omega
  · omega
  · omega
  · refine (ByteMem.readInt_writeInt_of_ne ?_).trans (ByteMem.readInt_writeInt_of_ne ?_)
    · omega
    · omega
  · intro j' hj'
    unfold maxWaiting at hj'
    split
    · rename_i he
      subst he
      refine Prod.ext ?_ ByteMem.readInt_writeInt
      exact (ByteMem.readInt_writeInt_of_ne (by omega)).trans ByteMem.readInt_writeInt
    · rename_i hne
      refine Prod.ext ?_ ?_
      · exact (ByteMem.readInt_writeInt_of_ne (by omega)).trans
          (ByteMem.readInt_writeInt_of_ne (by omega))
      · exact (ByteMem.readInt_writeInt_of_ne (by omega)).trans
          (ByteMem.readInt_writeInt_of_ne (by omega))

/-- The last assignment of a queue operation. -/
theorem setWaitCount_requeued (h : InQueue i m m₁) (hent : entries m₁ i ws.length = ws)
    (hroom : ws.length ≤ maxWaiting) : Requeued i m (setWaitCount m₁ i ws.length) ws := by
  have hr := hroom
  unfold maxWaiting at hr
  refine ⟨eqOn_chain h (ByteMem.writeInt_eqOn _ _ (by omega) (by omega)),
    ByteMem.readInt_writeInt_of_range (by omega), ?_, hroom⟩
  refine (entries_congr fun j hj => Prod.ext ?_ ?_).trans hent
  · exact ByteMem.readInt_writeInt_of_ne (by omega)
  · exact ByteMem.readInt_writeInt_of_ne (by omega)

end Entries

/-! ### Taking a pid out -/

section Sweeping

variable {i : Fin maxSemaphores} {m : ByteMem} {pid : Int} {r : Nat} {s : Sweep}

theorem removePid_concat (ws : List (Int × Int)) (w : Int × Int) (pid : Int) :
    removePid (ws ++ [w]) pid = removePid ws pid ++ if w.1 = pid then [] else [w] := by
  unfold removePid
  rw [List.filter_append]
  by_cases h : w.1 = pid <;> simp [h]

theorem removedCount_concat (ws : List (Int × Int)) (w : Int × Int) (pid : Int) :
    removedCount (ws ++ [w]) pid = removedCount ws pid + if w.1 = pid then 1 else 0 := by
  unfold removedCount
  rw [List.countP_append]
  by_cases h : w.1 = pid <;> simp [h]

theorem length_removePid_le (ws : List (Int × Int)) (pid : Int) :
    (removePid ws pid).length ≤ ws.length :=
  List.length_filter_le _ _

/-- The sweep has passed `r` entries, and has written those it keeps behind the place
it reads. -/
structure Swept (i : Fin maxSemaphores) (m : ByteMem) (pid : Int) (r : Nat) (s : Sweep) : Prop where
  inside : InQueue i m s.mem
  count : waitCount s.mem i = waitCount m i
  read : s.readIdx = r
  write : s.writeIdx = (removePid (entries m i r) pid).length
  removed : s.removed = removedCount (entries m i r) pid
  kept : entries s.mem i (removePid (entries m i r) pid).length = removePid (entries m i r) pid
  rest : ∀ j, r ≤ j → j < maxWaiting → entryAt s.mem i j = entryAt m i j

theorem Swept.round (h : Swept i m pid r s) (hr : r < maxWaiting) :
    Swept i m pid (r + 1) (s.round i pid) := by
  have hentry : (waiting s.mem i r, waitingCredit s.mem i r) = entryAt m i r :=
    h.rest r le_rfl hr
  have hle : (removePid (entries m i r) pid).length ≤ r :=
    (length_removePid_le _ _).trans_eq length_entries
  obtain ⟨hin, hcount, hread, hwrite, hremoved, hkept, hrest⟩ := h
  unfold Sweep.round
  rw [hread, hwrite]
  by_cases hpid : (entryAt m i r).1 = pid
  · rw [if_neg (not_not.mpr ((congrArg Prod.fst hentry).trans hpid))]
    have hsame : removePid (entries m i (r + 1)) pid = removePid (entries m i r) pid := by
      rw [entries_succ, removePid_concat, if_pos hpid, List.append_nil]
    refine ⟨hin, hcount, by simp, ?_, ?_, ?_, fun j hj => hrest j (by omega)⟩
    · rw [hsame]
    · rw [entries_succ, removedCount_concat, if_pos hpid, ← hremoved]
    · rw [hsame]
      exact hkept
  · rw [if_pos fun he => hpid ((congrArg Prod.fst hentry).symm.trans he)]
    have hmore : removePid (entries m i (r + 1)) pid =
        removePid (entries m i r) pid ++ [entryAt m i r] := by
      rw [entries_succ, removePid_concat, if_neg hpid]
    -- the pids and the credits are in different arrays
    have hcredit : ∀ v, waitingCredit (setWaiting s.mem i
        (removePid (entries m i r) pid).length v) i r = waitingCredit s.mem i r := by
      intro v
      unfold maxWaiting at hr
      exact ByteMem.readInt_writeInt_of_ne (by omega)
    simp only
    rw [hcredit]
    obtain ⟨hset, hcnt, hent⟩ := setEntry_spec (i := i) s.mem (lt_of_le_of_lt hle hr)
      (waiting s.mem i r) (waitingCredit s.mem i r)
    refine ⟨eqOn_chain hin hset, hcnt.trans hcount, by simp, ?_, ?_, ?_, fun j hj hj' => ?_⟩
    · rw [hmore]
      simp
    · rw [entries_succ, removedCount_concat, if_neg hpid, ← hremoved, Int.add_zero]
    · rw [hmore, List.length_append, List.length_singleton, entries_succ, hent _ (by omega),
        if_pos rfl]
      refine congrArg₂ _ ((entries_congr fun j hj => ?_).trans hkept) ?_
      · rw [hent j (by omega), if_neg (by omega)]
      · rw [← hentry]
        exact congrArg (fun e => [e]) (Prod.ext (ByteMem.bmod_readInt _ _)
          (ByteMem.bmod_readInt _ _))
    · rw [hent j hj', if_neg (by omega)]
      exact hrest j (by omega) hj'

/-- **`remove_waiting_pid_from_sem`.** -/
theorem removeWaitingPidFromSem_spec (hm : Ranged m i) (pid : Int) :
    Requeued i m (removeWaitingPidFromSem m i pid).1 (removePid (waiters m i) pid) ∧
      (removeWaitingPidFromSem m i pid).2 = removedCount (waiters m i) pid := by
  have hn : ((waitCount m i).toNat : Int) = waitCount m i := Int.toNat_of_nonneg hm.1
  have hmax := hm.2
  have hend := loop_counted (I := Swept i m pid) (n := (waitCount m i).toNat) (r := 0)
    (c := fun s : Sweep => s.readIdx < waitCount s.mem i) (f := Sweep.round i pid)
    (fun r s hs => by rw [hs.read, hs.count]; omega) (fun r s hr hs => hs.round (by omega))
    (s := ⟨m, 0, 0, 0⟩) ⟨Set.eqOn_refl m _, rfl, rfl, rfl, rfl, rfl, fun _ _ _ => rfl⟩
    (Nat.zero_le _) (Nat.le_add_left _ _)
  refine ⟨?_, hend.removed⟩
  unfold removeWaitingPidFromSem
  simp only
  rw [hend.write]
  refine setWaitCount_requeued hend.inside hend.kept ((length_removePid_le _ _).trans ?_)
  rw [length_entries]
  omega

/-- **`enqueue`**: the caller goes to the end, unless the queue is full. -/
theorem enqueue_spec (hm : Ranged m i) (pid : Int) :
    if maxWaiting ≤ (removePid (waiters m i) pid).length then
      Requeued i m (enqueue m i pid).1 (removePid (waiters m i) pid) ∧ (enqueue m i pid).2 = -1
    else
      Requeued i m (enqueue m i pid).1 (removePid (waiters m i) pid ++ [(Int.bmod pid (2 ^ 32), 0)]) ∧
        (enqueue m i pid).2 = 0 := by
  have hsweep := (removeWaitingPidFromSem_spec hm pid).1
  unfold enqueue
  generalize (removeWaitingPidFromSem m i pid).1 = m₁ at hsweep
  generalize removePid (waiters m i) pid = ws at hsweep
  simp only
  rw [hsweep.count]
  split
  · rename_i hfull
    rw [if_pos (by exact_mod_cast hfull)]
    exact ⟨hsweep, rfl⟩
  · rename_i hroom
    rw [if_neg (by exact_mod_cast hroom)]
    have hlt : ws.length < maxWaiting := not_le.mp hroom
    obtain ⟨hset, hcnt, hent⟩ := setEntry_spec (i := i) m₁ hlt pid 0
    have hcount : waitCount (setWaiting m₁ i ws.length pid) i = ws.length := by
      unfold maxWaiting at hlt
      exact (ByteMem.readInt_writeInt_of_ne (by omega)).trans hsweep.count
    rw [hcount, hcnt, hsweep.count]
    refine ⟨?_, rfl⟩
    have hlen : ((ws.length : Int) + 1) = ((ws ++ [(Int.bmod pid (2 ^ 32), 0)]).length : Nat) := by
      simp
    rw [hlen]
    refine setWaitCount_requeued (eqOn_chain hsweep.inside hset) ?_ (by rw [List.length_append]; exact hlt)
    rw [List.length_append, List.length_singleton, entries_succ, hent _ hlt, if_pos rfl]
    refine congrArg₂ _ ((entries_congr fun j hj => ?_).trans hsweep.entries) rfl
    rw [hent j (by omega), if_neg (by omega)]

end Sweeping

/-! ### Taking an entry out -/

section Shifting

variable {i : Fin maxSemaphores} {m : ByteMem} {idx : Nat}

/-- The entries behind `idx` have moved up as far as `r`. -/
structure Shifted (i : Fin maxSemaphores) (m : ByteMem) (idx r : Nat) (x : ByteMem × Int) :
    Prop where
  inside : InQueue i m x.1
  count : waitCount x.1 i = waitCount m i
  place : x.2 = r
  behind : idx ≤ r
  moved : entries x.1 i r = (entries m i (r + 1)).eraseIdx idx
  rest : ∀ j, r ≤ j → j < maxWaiting → entryAt x.1 i j = entryAt m i j

theorem Shifted.shift {r : Nat} {x : ByteMem × Int} (h : Shifted i m idx r x)
    (hr : r + 1 < maxWaiting) : Shifted i m idx (r + 1) (shift i x) := by
  obtain ⟨hin, hcount, hplace, hbehind, hmoved, hrest⟩ := h
  have hnext : (waiting x.1 i ((r : Int) + 1), waitingCredit x.1 i ((r : Int) + 1)) =
      entryAt m i (r + 1) := by
    have h := hrest (r + 1) (by omega) hr
    rwa [entryAt, Nat.cast_succ] at h
  have hcredit : ∀ v, waitingCredit (setWaiting x.1 i r v) i ((r : Int) + 1) =
      waitingCredit x.1 i ((r : Int) + 1) := by
    intro v
    unfold maxWaiting at hr
    exact ByteMem.readInt_writeInt_of_ne (by omega)
  unfold SemTable.shift
  simp only
  rw [hplace, hcredit]
  obtain ⟨hset, hcnt, hent⟩ := setEntry_spec (i := i) x.1 (by omega : r < maxWaiting)
    (waiting x.1 i ((r : Int) + 1)) (waitingCredit x.1 i ((r : Int) + 1))
  refine ⟨eqOn_chain hin hset, hcnt.trans hcount, by simp, by omega, ?_, fun j hj hj' => ?_⟩
  · rw [entries_succ, hent r (by omega), if_pos rfl,
      show entries m i (r + 1 + 1) = entries m i (r + 1) ++ [entryAt m i (r + 1)] from entries_succ,
      List.eraseIdx_append_of_lt_length (by rw [length_entries]; omega)]
    refine congrArg₂ _ ((entries_congr fun j hj => ?_).trans hmoved) ?_
    · rw [hent j (by omega), if_neg (by omega)]
    · rw [← hnext]
      exact congrArg (fun e => [e]) (Prod.ext (ByteMem.bmod_readInt _ _) (ByteMem.bmod_readInt _ _))
  · rw [hent j hj', if_neg (by omega)]
    exact hrest j (by omega) hj'

/-- **`dequeue_at`.** -/
theorem dequeueAt_spec (hm : Ranged m i) (hidx : idx < (waiters m i).length) :
    Requeued i m (dequeueAt m i idx).1 ((waiters m i).eraseIdx idx) ∧
      (dequeueAt m i idx).2 = ((waiters m i).getD idx (0, 0)).1 := by
  have hlen := length_waiters hm
  have hmax := length_waiters_le hm
  have hn : (waitCount m i).toNat = (waiters m i).length := by omega
  generalize hq : (waiters m i).length = n at *
  have hstart : entries m i idx = (entries m i (idx + 1)).eraseIdx idx := by
    rw [entries_succ, List.eraseIdx_append_of_length_le (by rw [length_entries]), length_entries,
      Nat.sub_self, List.eraseIdx_cons_zero, List.append_nil]
  have hend := loop_counted (I := Shifted i m idx) (n := n - 1) (r := idx)
    (c := fun x : ByteMem × Int => x.2 < waitCount x.1 i - 1) (f := shift i)
    (fun r x hx => by rw [hx.place, hx.count]; omega) (fun r x hr hx => hx.shift (by omega))
    (s := (m, (idx : Int))) ⟨Set.eqOn_refl m _, rfl, rfl, le_rfl, hstart, fun _ _ _ => rfl⟩
    (by omega) (by omega : n - 1 ≤ idx + (waitCount m i).toNat)
  have hqueue : waiters m i = entries m i (n - 1 + 1) := by
    rw [waiters, hn, Nat.sub_add_cancel (by omega)]
  have herase : ((waiters m i).eraseIdx idx).length = n - 1 := by
    rw [List.length_eraseIdx_of_lt (by omega), hq]
  constructor
  · unfold dequeueAt
    simp only
    rw [hend.count, show waitCount m i - 1 = (((waiters m i).eraseIdx idx).length : Nat) by omega]
    refine setWaitCount_requeued hend.inside ?_ (by omega)
    rw [herase, hend.moved, hqueue]
  · show waiting m i idx = _
    rw [List.getD_eq_getElem?_getD, waiters, entries_getElem? (by omega)]
    rfl

end Shifting

/-! ### Aging -/

section Aging

variable {i : Fin maxSemaphores} {m : ByteMem} {selected : Nat}

/-- The first `r` entries are aged. -/
structure AgedTo (i : Fin maxSemaphores) (m : ByteMem) (selected r : Nat) (x : ByteMem × Int) :
    Prop where
  inside : InQueue i m x.1
  count : waitCount x.1 i = waitCount m i
  place : x.2 = r
  done : entries x.1 i r = TP2Kernel.ageWaitersExcept (entries m i r) selected
  rest : ∀ j, r ≤ j → j < maxWaiting → entryAt x.1 i j = entryAt m i j

theorem ageWaitersExcept_concat (ws : List (Int × Int)) (w : Int × Int) (selected : Nat) :
    TP2Kernel.ageWaitersExcept (ws ++ [w]) selected =
      TP2Kernel.ageWaitersExcept ws selected ++
        [if ws.length ≠ selected ∧ w.2 < 5 then (w.1, w.2 + 1) else w] := by
  unfold TP2Kernel.ageWaitersExcept
  rw [List.mapIdx_concat]

theorem AgedTo.round {r : Nat} {x : ByteMem × Int} (h : AgedTo i m selected r x)
    (hr : r < maxWaiting) : AgedTo i m selected (r + 1) (ageRound i selected x) := by
  obtain ⟨hin, hcount, hplace, hdone, hrest⟩ := h
  have hentry : (waiting x.1 i r, waitingCredit x.1 i r) = entryAt m i r := hrest r le_rfl hr
  have hcredit : waitingCredit x.1 i r = (entryAt m i r).2 := congrArg Prod.snd hentry
  have hdone' : ∀ m', entryAt m' i r = (if r ≠ selected ∧ (entryAt m i r).2 < 5 then
      ((entryAt m i r).1, (entryAt m i r).2 + 1) else entryAt m i r) →
      (∀ j < r, entryAt m' i j = entryAt x.1 i j) →
      entries m' i (r + 1) = TP2Kernel.ageWaitersExcept (entries m i (r + 1)) selected := by
    intro m' he hold
    rw [entries_succ, entries_succ, ageWaitersExcept_concat, length_entries, he,
      entries_congr hold, hdone]
  unfold ageRound
  rw [hplace, hcredit]
  split
  · rename_i hc
    have hc' : r ≠ selected ∧ (entryAt m i r).2 < 5 := ⟨fun he => hc.1 (by rw [he]), hc.2⟩
    have hrange := (ByteMem.readInt_range m (recordAt i + 292 + 4 * r)).1
    have hset : ∀ j < maxWaiting, entryAt (setWaitingCredit x.1 i r ((entryAt m i r).2 + 1)) i j =
        if j = r then ((entryAt m i r).1, (entryAt m i r).2 + 1) else entryAt x.1 i j := by
      intro j hj
      unfold maxWaiting at hj hr
      split
      · rename_i he
        subst he
        refine Prod.ext ?_ (ByteMem.readInt_writeInt_of_range ?_)
        · exact (ByteMem.readInt_writeInt_of_ne (by omega)).trans (congrArg Prod.fst hentry)
        · have hlow : -2 ^ 31 ≤ (entryAt m i j).2 := hrange
          omega
      · exact Prod.ext (ByteMem.readInt_writeInt_of_ne (by omega))
          (ByteMem.readInt_writeInt_of_ne (by omega))
    unfold maxWaiting at hr
    refine ⟨eqOn_chain hin (ByteMem.writeInt_eqOn _ _ (by omega) (by omega)),
      (ByteMem.readInt_writeInt_of_ne (by omega)).trans hcount, by simp, ?_, fun j hj hj' => ?_⟩
    · apply hdone'
      · rw [hset r hr, if_pos rfl, if_pos hc']
      · exact fun j hj => by rw [hset j (by unfold maxWaiting; omega), if_neg (by omega)]
    · rw [hset j hj', if_neg (by omega)]
      exact hrest j (by omega) hj'
  · rename_i hc
    have hc' : ¬ (r ≠ selected ∧ (entryAt m i r).2 < 5) :=
      fun h => hc ⟨fun he => h.1 (by exact_mod_cast he), h.2⟩
    refine ⟨hin, hcount, by simp, ?_, fun j hj => hrest j (by omega)⟩
    apply hdone'
    · rw [if_neg hc']
      exact hentry
    · exact fun _ _ => rfl

/-- **`age_waiters_except`.** -/
theorem ageWaitersExcept_spec (hm : Ranged m i) (selected : Nat) :
    Requeued i m (ageWaitersExcept m i selected)
      (TP2Kernel.ageWaitersExcept (waiters m i) selected) := by
  have hlen := length_waiters hm
  have hmax := length_waiters_le hm
  have hn : (waitCount m i).toNat = (waiters m i).length := by omega
  have hend := loop_counted (I := AgedTo i m selected) (n := (waitCount m i).toNat) (r := 0)
    (c := fun x : ByteMem × Int => x.2 < waitCount x.1 i) (f := ageRound i selected)
    (fun r x hx => by rw [hx.place, hx.count]; omega) (fun r x hr hx => hx.round (by omega))
    (s := (m, 0)) ⟨Set.eqOn_refl m _, rfl, rfl, rfl, fun _ _ _ => rfl⟩
    (Nat.zero_le _) (Nat.le_add_left _ _)
  have hsame : (TP2Kernel.ageWaitersExcept (waiters m i) selected).length = (waiters m i).length :=
    List.length_mapIdx
  refine ⟨hend.inside, hend.count.trans (by rw [hsame]; omega), ?_, by omega⟩
  rw [hsame, ← hn]
  exact hend.done

end Aging

/-! ### Choosing a waiter -/

/-- `best_idx`: -1 while no waiter has been found. -/
def bestIdxOf : Option Nat → Int
  | none => -1
  | some b => b

/-- **The scan of `unblock_one_waiter`.** -/
theorem bestIdx_spec {m : ByteMem} {i : Fin maxSemaphores} (hm : Ranged m i) (s : Sched) :
    bestIdx s m i = bestIdxOf (bestWaiter s (waiters m i) 0 none (-1)) := by
  have hn : ((waitCount m i).toNat : Int) = waitCount m i := Int.toNat_of_nonneg hm.1
  -- what the rest of the scan will find does not change
  have hend := loop_counted (n := (waitCount m i).toNat) (r := 0)
    (I := fun r x => ∃ best score, x = ⟨r, bestIdxOf best, score⟩ ∧
      bestWaiter s ((waiters m i).drop r) r best score = bestWaiter s (waiters m i) 0 none (-1))
    (c := fun x : Scan => x.idx < waitCount m i) (f := Scan.round s m i)
    (fun r x hx => by
      obtain ⟨best, score, rfl, -⟩ := hx
      simp only
      omega)
    (fun r x hr hx => by
      obtain ⟨best, score, rfl, hbest⟩ := hx
      have hdrop : (waiters m i).drop r = entryAt m i r :: (waiters m i).drop (r + 1) := by
        have hlt : r < (waiters m i).length := by rwa [waiters, length_entries]
        rw [List.drop_eq_getElem_cons hlt]
        exact congrArg (· :: _) (Option.some.inj
          ((List.getElem?_eq_getElem hlt).symm.trans (entries_getElem? hr)))
      rw [hdrop, entryAt, bestWaiter] at hbest
      unfold Scan.round
      simp only
      rcases hf : s.findIndexByPid (waiting m i r) with - | j
      · rw [hf] at hbest
        exact ⟨best, score, by simp, hbest⟩
      · rw [hf] at hbest
        simp only at hbest ⊢
        split
        · rename_i hc
          rw [if_pos hc] at hbest
          exact ⟨some r, _, by simp [bestIdxOf], hbest⟩
        · rename_i hc
          rw [if_neg hc] at hbest
          exact ⟨best, score, by simp, hbest⟩)
    (s := ⟨0, -1, -1⟩) ⟨none, -1, rfl, rfl⟩ (Nat.zero_le _) (Nat.le_add_left _ _)
  obtain ⟨best, score, hx, hbest⟩ := hend
  have hnil : (waiters m i).drop (waitCount m i).toNat = [] := by
    rw [List.drop_eq_nil_iff, waiters, length_entries]
  rw [hnil, bestWaiter] at hbest
  unfold bestIdx
  rw [hx, ← hbest]

theorem fst_getD_ageWaitersExcept (ws : List (Int × Int)) (selected b : Nat) :
    ((TP2Kernel.ageWaitersExcept ws selected).getD b (0, 0)).1 = (ws.getD b (0, 0)).1 := by
  unfold TP2Kernel.ageWaitersExcept
  rw [List.getD_eq_getElem?_getD, List.getD_eq_getElem?_getD, List.getElem?_mapIdx]
  cases ws[b]? with
  | none => rfl
  | some w =>
      simp only [Option.map_some, Option.getD_some]
      split <;> rfl

/-- **The loop of `unblock_one_waiter`** does to a record what the loop over lists does
to the semaphore it stands for. -/
theorem unblockLoop_spec {m : ByteMem} {i : Fin maxSemaphores} {k : Kernel} (n : Nat)
    (hm : Ranged m i) (hk : (k.semTable i).waiting = waiters m i) :
    (unblockLoop i n k.sched m).1 = (Kernel.unblockLoop i n k).sched ∧
      Requeued i m (unblockLoop i n k.sched m).2
        ((Kernel.unblockLoop i n k).semTable i).waiting := by
  induction n generalizing m k with
  | zero =>
      refine ⟨rfl, ?_⟩
      rw [Kernel.unblockLoop, hk]
      exact .refl hm
  | succ n ih =>
      have hlen := length_waiters hm
      rw [unblockLoop, Kernel.unblockLoop, hk]
      by_cases hnil : waiters m i = []
      · rw [if_neg (by rw [← hlen, hnil]; decide), if_pos hnil]
        refine ⟨rfl, ?_⟩
        rw [hk]
        exact .refl hm
      · have hpos := List.length_pos_iff.mpr hnil
        rw [if_pos (by omega), if_neg hnil, bestIdx_spec hm]
        rcases hb : bestWaiter k.sched (waiters m i) 0 none (-1) with - | b
        · -- a queue without a blocked process loses its first entry
          have hd := (dequeueAt_spec hm hpos).1
          have hrest := ih (m := (dequeueAt m i 0).1) (k := k.dequeueAt i 0) hd.ranged (by
            rw [Kernel.dequeueAt, Kernel.modifySem_self, Semaphore.setWaiting_waiting, hk]
            exact hd.waiters_eq.symm)
          rw [if_pos (by decide)]
          exact ⟨hrest.1, .trans hd.inside hrest.2⟩
        · obtain ⟨n', hn', hlt, -⟩ := (bestWaiter_some hb).resolve_left fun h => by cases h
          rw [Nat.zero_add] at hn'
          subst hn'
          have hage := ageWaitersExcept_spec hm b
          have hplace : b < (waiters (ageWaitersExcept m i b) i).length := by
            rw [hage.waiters_eq]
            exact hlt.trans_eq List.length_mapIdx.symm
          have hd := dequeueAt_spec hage.ranged hplace
          rw [hage.waiters_eq, fst_getD_ageWaitersExcept] at hd
          have hboth := Requeued.trans hage.inside hd.1
          have hfound : ¬ bestIdxOf (some b) < 0 := not_lt.mpr (Int.natCast_nonneg b)
          have hidx : bestIdxOf (some b) = b := rfl
          rw [if_neg hfound]
          simp only [hidx, hd.2, Kernel.dequeueAt, Kernel.modifySem_modifySem,
            Kernel.modifySem_sched, Semaphore.setWaiting_waiting]
          split
          · refine ⟨rfl, ?_⟩
            simp only [Kernel.modifySem_self, Semaphore.setWaiting_waiting, hk]
            exact hboth
          · have hrest := ih (k := k.modifySem i fun s => (s.setWaiting
              (TP2Kernel.ageWaitersExcept s.waiting b)).setWaiting
                ((TP2Kernel.ageWaitersExcept s.waiting b).eraseIdx b)) hboth.ranged (by
              simp only [Kernel.modifySem_self, Semaphore.setWaiting_waiting, hk]
              exact hboth.waiters_eq.symm)
            exact ⟨hrest.1, .trans hboth.inside hrest.2⟩

/-- **`unblock_one_waiter`.** -/
theorem unblockOneWaiter_spec {m : ByteMem} {i : Fin maxSemaphores} {k : Kernel}
    (hm : Ranged m i) (hk : (k.semTable i).waiting = waiters m i) :
    (unblockOneWaiter k.sched m i).1 = (k.unblockOneWaiter i).sched ∧
      Requeued i m (unblockOneWaiter k.sched m i).2 ((k.unblockOneWaiter i).semTable i).waiting := by
  have hlen := length_waiters hm
  unfold unblockOneWaiter Kernel.unblockOneWaiter
  rw [hk, show (waitCount m i).toNat = (waiters m i).length by omega]
  exact unblockLoop_spec _ hm hk

/-! ### Where the calls write -/

/-- A change inside the value, the queue and its length of record `i`. -/
def Inside (i : Fin maxSemaphores) (m m' : ByteMem) : Prop :=
  Set.EqOn m' m (outside (recordAt i + 32) (recordAt i + 552))

/-- A piece of code that works on semaphore `i` and keeps the queue in range. -/
structure Works (i : Fin maxSemaphores) (m m' : ByteMem) : Prop where
  inside : Inside i m m'
  ranged : Ranged m' i

section Writes

variable {i : Fin maxSemaphores} {m m₁ m₂ : ByteMem}

theorem Works.refl (h : Ranged m i) : Works i m m := ⟨Set.eqOn_refl m _, h⟩

theorem Works.trans (h₁ : Works i m m₁) (h₂ : Works i m₁ m₂) : Works i m m₂ :=
  ⟨eqOn_chain h₁.inside h₂.inside, h₂.ranged⟩

theorem Requeued.works {ws : List (Int × Int)} (h : Requeued i m m₁ ws) : Works i m m₁ :=
  ⟨eqOn_widen h.inside (by omega) le_rfl, h.ranged⟩

@[simp] theorem waitCount_setValue (m : ByteMem) (v : Int) :
    waitCount (setValue m i v) i = waitCount m i :=
  ByteMem.readInt_writeInt_of_ne (by omega)

theorem setValue_works (h : Works i m m₁) (v : Int) : Works i m (setValue m₁ i v) := by
  refine ⟨eqOn_chain h.inside (ByteMem.writeInt_eqOn m₁ v (by omega) (by omega)), ?_⟩
  unfold Ranged
  rw [waitCount_setValue]
  exact h.ranged

theorem enqueue_works (hm : Ranged m i) (pid : Int) : Works i m (enqueue m i pid).1 := by
  have hspec := enqueue_spec hm pid
  split at hspec
  · exact hspec.1.works
  · exact hspec.1.works

theorem unblockOneWaiter_works (hm : Ranged m i) (s : Sched) :
    Works i m (unblockOneWaiter s m i).2 := by
  -- any semaphore with this queue will do
  have hspec := unblockOneWaiter_spec hm
    (k := { Kernel.init 0 with sched := s, semTable := fun _ => ⟨[], 0, waiters m i, true, 1⟩ }) rfl
  exact hspec.2.works

theorem postRound_works {x : Sched × ByteMem} (hm : Ranged x.2 i) :
    Works i x.2 (postRound i x).2 := by
  have hset := setValue_works (.refl hm) (value x.2 i + 1)
  unfold postRound
  exact hset.trans (unblockOneWaiter_works hset.ranged x.1)

end Writes

/-! ### What the calls leave alone -/

/-- A change inside the table. -/
def InTable (m m' : ByteMem) : Prop := Set.EqOn m' m (outside 0 (560 * maxSemaphores))

/-- No name, `active` or `ref_count` changes, nothing outside of the table does, and the
queues stay in range. -/
structure KeepsNames (m m' : ByteMem) : Prop where
  inTable : InTable m m'
  name : ∀ i x, recordAt i ≤ x → x < recordAt i + 32 → m' x = m x
  active : ∀ i, active m' i = active m i
  refCount : ∀ i, refCount m' i = refCount m i
  ranged : ∀ i, Ranged m' i

section Calls

variable {m m₁ m₂ : ByteMem} {i : Fin maxSemaphores}

/-- Two records do not overlap. -/
theorem recordAt_apart {i j : Fin maxSemaphores} (h : i ≠ j) :
    recordAt i + 560 ≤ recordAt j ∨ recordAt j + 560 ≤ recordAt i := by
  unfold recordAt
  rcases Nat.lt_or_gt_of_ne (Fin.val_ne_of_ne h) with hlt | hlt
  · left
    omega
  · right
    omega

theorem recordAt_range (i : Fin maxSemaphores) :
    0 ≤ recordAt i ∧ recordAt i + 560 ≤ 560 * maxSemaphores := by
  have hi := i.isLt
  unfold recordAt
  omega

theorem KeepsNames.refl (h : ∀ i, Ranged m i) : KeepsNames m m :=
  ⟨Set.eqOn_refl m _, fun _ _ _ _ => rfl, fun _ => rfl, fun _ => rfl, h⟩

theorem KeepsNames.trans (h₁ : KeepsNames m m₁) (h₂ : KeepsNames m₁ m₂) : KeepsNames m m₂ where
  inTable := eqOn_chain h₁.inTable h₂.inTable
  name := fun i x hx hx' => (h₂.name i x hx hx').trans (h₁.name i x hx hx')
  active := fun i => (h₂.active i).trans (h₁.active i)
  refCount := fun i => (h₂.refCount i).trans (h₁.refCount i)
  ranged := h₂.ranged

theorem Works.keepsNames (h : Works i m m₁) (hm : ∀ i, Ranged m i) : KeepsNames m m₁ := by
  have hframe := h.inside
  have hrange := recordAt_range i
  refine ⟨eqOn_widen hframe (by omega) (by omega), fun j x hx hx' => ?_, fun j => ?_, fun j => ?_,
    fun j => ?_⟩
  · rw [Inside, eqOn_outside] at hframe
    apply hframe
    rcases eq_or_ne j i with rfl | hne
    · omega
    · have := recordAt_apart hne
      omega
  · apply ByteMem.readInt_of_eqOn hframe
    rcases eq_or_ne j i with rfl | hne
    · omega
    · have := recordAt_apart hne
      omega
  · apply ByteMem.readInt_of_eqOn hframe
    rcases eq_or_ne j i with rfl | hne
    · omega
    · have := recordAt_apart hne
      omega
  · rcases eq_or_ne j i with rfl | hne
    · exact h.ranged
    · have hcount : waitCount m₁ j = waitCount m j := by
        apply ByteMem.readInt_of_eqOn hframe
        have := recordAt_apart hne
        omega
      unfold Ranged
      rw [hcount]
      exact hm j

theorem semPost_keepsNames (hm : ∀ i, Ranged m i) (s : Sched) (semId : Int) :
    KeepsNames m (semPost s m semId).1.2 := by
  unfold semPost
  split
  · exact .refl hm
  · rename_i i hi
    have hset := setValue_works (.refl (hm i)) (value m i + 1)
    simp only
    split
    · exact (hset.trans (unblockOneWaiter_works hset.ranged s)).keepsNames hm
    · exact hset.keepsNames hm

theorem semPostAll_keepsNames (hm : ∀ i, Ranged m i) (s : Sched) (semId : Int) :
    KeepsNames m (semPostAll s m semId).1.2 := by
  unfold semPostAll
  split
  · exact .refl hm
  · rename_i i hi
    have hloop := loop_invariant (c := fun x : Sched × ByteMem => waitCount x.2 i > 0)
      (f := postRound i) (I := fun x => Works i m x.2)
      (fun x hx _ => hx.trans (postRound_works hx.ranged)) (waitCount m i).toNat
      (s := (s, m)) (.refl (hm i))
    simp only
    split
    · exact (setValue_works hloop 0).keepsNames hm
    · exact hloop.keepsNames hm

theorem semWait_keepsNames (hm : ∀ i, Ranged m i) (s : Sched) (semId : Int) :
    KeepsNames m (semWait s m semId).1.2 := by
  unfold semWait
  split
  · exact .refl hm
  · rename_i i hi
    have hset := setValue_works (.refl (hm i)) (value m i - 1)
    have hqueue := hset.trans (enqueue_works hset.ranged s.schedulerGetpid)
    simp only
    split
    · exact hset.keepsNames hm
    · split
      · exact (setValue_works hqueue _).keepsNames hm
      · exact hqueue.keepsNames hm

theorem removeFrom_keepsNames (hm : ∀ i, Ranged m i) (pid : Int) (i : Fin maxSemaphores) :
    KeepsNames m (removeFrom pid m i) := by
  unfold removeFrom
  split
  · exact (setValue_works (removeWaitingPidFromSem_spec (hm i) pid).1.works _).keepsNames hm
  · exact .refl hm

theorem semRemoveWaitingPid_keepsNames (hm : ∀ i, Ranged m i) (pid : Int) :
    KeepsNames m (semRemoveWaitingPid m pid) := by
  unfold semRemoveWaitingPid
  generalize List.finRange maxSemaphores = is
  induction is generalizing m with
  | nil => exact .refl hm
  | cons i is ih =>
      have hfirst := removeFrom_keepsNames hm pid i
      exact hfirst.trans (ih hfirst.ranged)

end Calls

end SemTable

end TP2Kernel
