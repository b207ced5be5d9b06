import Mathlib.Data.Fintype.Option
import SatCat5Proofs.ListCore.Heap

/-! # Intrusive lists: `has_loop`, the tortoise and the hare

`ListCore::has_loop` follows `m_next` from the head with two pointers, `slow` one item per
round and `fast` two. In round `i` the tortoise stands at step `i` of the walk from the head and
the hare at step `2 i + 1` (`hasLoopLoop_round`); the round ends the loop (`Stops`) when the
hare or the item after it is null, or when the tortoise meets one of them.

* `hasLoopLoop_first`: the loop answers at its first stopping round `k`, with `true` exactly
  when step `2 k + 2` is an item.
* A meeting makes the walk periodic, so it never reaches null (`walk_ne_none_of_eq`); hence the
  answer `true` is never given on a walk that ends.
* Some round `≤ n` stops (`exists_stops`): a walk that ends does so within `n` steps, and one
  that does not repeats an item among its first `n + 1` steps (pigeonhole), after which the hare
  meets the tortoise once a multiple of the period has passed.

So on a heap of `n` items `has_loop` ends within its `n + 1` rounds and says whether the walk from
the head never reaches null (`hasLoop_of_walk_eq_none`, `hasLoop_of_walk_ne_none`). -/

namespace SatCat5Proofs.ListCore.HasLoop

open SatCat5Proofs.ListCore.Heap

variable {n : ℕ}

/-- The loop of `ListCore::has_loop`. `step` stands for `slow->m_next`: `slow` is never null
inside the loop, since it walks behind `fast`. -/
def hasLoopLoop (next : Fin n → Ptr n) : ℕ → Ptr n → Ptr n → Option Bool
  | 0, _, _ => none
  | _ + 1, _, none => some false
  | fuel + 1, slow, some f =>
    match next f with
    | none => some false
    | some f₂ =>
      if slow = some f ∨ slow = some f₂ then some true
      else hasLoopLoop next fuel (step next slow) (next f₂)

/-- **`ListCore::has_loop`**: does the list held from `list` loop back on itself? -/
def hasLoop (m : Mem n) (list : Ptr n) : Option Bool :=
  match list with
  | none => some false
  | some l => hasLoopLoop m.next (n + 1) (some l) (m.next l)

variable {next : Fin n → Ptr n} {p : Ptr n}

theorem walk_succ' (k : ℕ) : walk next p (k + 1) = step next (walk next p k) := by
  rw [walk_add]; rfl

/-- Round `i` ends the loop. -/
def Stops (next : Fin n → Ptr n) (p : Ptr n) (i : ℕ) : Prop :=
  walk next p (2 * i + 1) = none ∨ walk next p (2 * i + 2) = none ∨
    walk next p i = walk next p (2 * i + 1) ∨ walk next p i = walk next p (2 * i + 2)

instance (next : Fin n → Ptr n) (p : Ptr n) (i : ℕ) : Decidable (Stops next p i) :=
  inferInstanceAs (Decidable (_ ∨ _ ∨ _ ∨ _))

/-- **One round** of the loop, the tortoise at step `i` and the hare at step `2 i + 1`. -/
theorem hasLoopLoop_round (fuel i : ℕ) :
    hasLoopLoop next (fuel + 1) (walk next p i) (walk next p (2 * i + 1)) =
      if Stops next p i then some (walk next p (2 * i + 2)).isSome
      else hasLoopLoop next fuel (walk next p (i + 1)) (walk next p (2 * (i + 1) + 1)) := by
  have e₂ : walk next p (2 * i + 2) = step next (walk next p (2 * i + 1)) := walk_succ' _
  have e₃ : walk next p (2 * (i + 1) + 1) = step next (walk next p (2 * i + 2)) := walk_succ' _
  rw [walk_succ' i, e₃]
  unfold Stops
  simp only [e₂]
  rcases hf : walk next p (2 * i + 1) with _ | f
  · simp [hasLoopLoop, step]
  · rcases hf₂ : next f with _ | f₂ <;> simp [hasLoopLoop, step, hf₂]

/-- **The loop answers at its first stopping round.** -/
theorem hasLoopLoop_first (fuel k i : ℕ) (hk : Stops next p (i + k))
    (hfirst : ∀ j < k, ¬ Stops next p (i + j)) :
    hasLoopLoop next (fuel + k + 1) (walk next p i) (walk next p (2 * i + 1)) =
      some (walk next p (2 * (i + k) + 2)).isSome := by
  induction k generalizing i with
  | zero =>
    simp only [Nat.add_zero] at hk ⊢
    rw [hasLoopLoop_round, if_pos hk]
  | succ k ih =>
    rw [show fuel + (k + 1) + 1 = fuel + k + 1 + 1 by omega, hasLoopLoop_round,
      if_neg (by simpa using hfirst 0 (Nat.succ_pos k)),
      ih (i + 1) (by rwa [Nat.add_right_comm, Nat.add_assoc])
        fun j hj => by simpa [Nat.add_right_comm, Nat.add_assoc] using hfirst (j + 1) (by omega)]
    congr 3
    omega

/-- Past a repeated item the walk runs in circles. -/
theorem walk_period {a d : ℕ} (h : walk next p a = walk next p (a + d)) (c j : ℕ) :
    walk next p (a + c * d + j) = walk next p (a + j) := by
  induction c with
  | zero => simp
  | succ c ih =>
    rw [show a + (c + 1) * d + j = a + d + (c * d + j) by rw [Nat.add_mul, Nat.one_mul]; omega,
      walk_add, ← h, ← walk_add,
      ← Nat.add_assoc, ih]

/-- A walk that meets an item again never reaches the null pointer. -/
theorem walk_ne_none_of_eq {a d : ℕ} (hd : 0 < d) (h : walk next p a = walk next p (a + d))
    (ha : walk next p a ≠ none) (k : ℕ) : walk next p k ≠ none := by
  induction k using Nat.strong_induction_on with
  | _ k ih =>
    by_cases hk : k < a + d
    · exact fun e => ha (h.trans (walk_eq_none_of_le hk.le e))
    · obtain ⟨j, rfl⟩ : ∃ j, k = a + 1 * d + j := ⟨k - a - d, by omega⟩
      rw [walk_period h 1 j]
      exact ih _ (by omega)

/-- **Some round up to `n` stops the loop.** -/
theorem exists_stops (next : Fin n → Ptr n) (p : Ptr n) : ∃ i ≤ n, Stops next p i := by
  by_cases hn : walk next p n = none
  · exact ⟨n / 2, Nat.div_le_self _ _, .inr (.inl (walk_eq_none_of_le (by omega) hn))⟩
  have hcard : (Finset.univ.erase (none : Ptr n)).card < (Finset.range (n + 1)).card := by
    simp [Finset.card_erase_of_mem]
  obtain ⟨a, ha, b, hb, hab, e⟩ := Finset.exists_ne_map_eq_of_card_lt_of_maps_to hcard
    (f := walk next p) fun k hk => Finset.mem_erase.mpr
      ⟨fun e => hn (walk_eq_none_of_le (by simpa [Nat.lt_succ_iff] using hk) e),
        Finset.mem_univ _⟩
  wlog hlt : a < b generalizing a b
  · exact this b hb a ha hab.symm e.symm (by omega)
  simp only [Finset.mem_range] at ha hb
  obtain ⟨d, rfl⟩ : ∃ d, b = a + d := ⟨b - a, by omega⟩
  have hd : 0 < d := by omega
  have h₁ := Nat.div_mul_le_self a d
  have h₂ := Nat.lt_div_mul_add (a := a) hd
  refine ⟨a / d * d + d - 1, by omega, .inr (.inr (.inl ?_))⟩
  have := walk_period e (a / d + 1) (a / d * d + d - 1 - a)
  rw [show a + (a / d + 1) * d + (a / d * d + d - 1 - a) = 2 * (a / d * d + d - 1) + 1 by
    rw [Nat.add_mul, one_mul]; omega, show a + (a / d * d + d - 1 - a) = a / d * d + d - 1 by
    omega] at this
  exact this.symm

/-- A stopping round whose step `2 k + 2` is an item is a meeting: the walk never ends. -/
theorem walk_ne_none_of_stops {k : ℕ} (hk : Stops next p k)
    (hw : walk next p (2 * k + 2) ≠ none) (j : ℕ) : walk next p j ≠ none := by
  have h₁ : walk next p (2 * k + 1) ≠ none := fun e => hw (walk_eq_none_of_le (Nat.le_succ _) e)
  rcases hk with h | h | h | h
  · exact absurd h h₁
  · exact absurd h hw
  · exact walk_ne_none_of_eq (Nat.succ_pos k) (by rw [h]; congr 1; omega) (h ▸ h₁) j
  · exact walk_ne_none_of_eq (by omega : 0 < k + 2) (by rw [h]; congr 1; omega) (h ▸ hw) j

/-- `has_loop` answers at a stopping round `k ≤ n`, with whether step `2 k + 2` is an item. -/
theorem hasLoop_eq_stop (m : Mem n) (list : Ptr n) :
    ∃ k, Stops m.next list k ∧ hasLoop m list = some (walk m.next list (2 * k + 2)).isSome := by
  rcases list with _ | l
  · exact ⟨0, .inl (walk_none _), by simp [hasLoop]⟩
  classical
  obtain ⟨i, hin, hi⟩ := exists_stops m.next (some l)
  have hex : ∃ i, Stops m.next (some l) i := ⟨i, hi⟩
  have hk := Nat.find_spec hex
  have hkn : Nat.find hex ≤ n := (Nat.find_min' hex hi).trans hin
  have hrun := hasLoopLoop_first (n - Nat.find hex) (Nat.find hex) 0 (by simpa using hk)
    fun j hj => by simpa using Nat.find_min hex hj
  rw [show n - Nat.find hex + Nat.find hex + 1 = n + 1 by omega] at hrun
  exact ⟨_, hk, by simpa [hasLoop] using hrun⟩

/-- On a walk that reaches the null pointer `has_loop` answers `false`. -/
theorem hasLoop_of_walk_eq_none (m : Mem n) {list : Ptr n} {j : ℕ}
    (h : walk m.next list j = none) : hasLoop m list = some false := by
  obtain ⟨k, hk, e⟩ := hasLoop_eq_stop m list
  rcases hw : walk m.next list (2 * k + 2) with _ | w
  · simpa [hw] using e
  · exact absurd h (walk_ne_none_of_stops hk (by simp [hw]) j)

/-- On a walk that never reaches the null pointer `has_loop` answers `true`. -/
theorem hasLoop_of_walk_ne_none (m : Mem n) {list : Ptr n}
    (h : ∀ j, walk m.next list j ≠ none) : hasLoop m list = some true := by
  obtain ⟨k, -, e⟩ := hasLoop_eq_stop m list
  rcases hw : walk m.next list (2 * k + 2) with _ | w
  · exact absurd hw (h _)
  · simpa [hw] using e

/-- **`has_loop` on any finite heap and any head**: it ends, and answers `true` exactly when the
walk from the head never reaches the null pointer. -/
theorem hasLoop_correct (m : Mem n) (list : Ptr n) :
    ∃ b, hasLoop m list = some b ∧ (b = true ↔ ∀ k, walk m.next list k ≠ none) := by
  by_cases h : ∀ k, walk m.next list k ≠ none
  · exact ⟨true, hasLoop_of_walk_ne_none m h, by simpa using h⟩
  · push_neg at h
    obtain ⟨k, hk⟩ := h
    exact ⟨false, hasLoop_of_walk_eq_none m hk, by simpa using ⟨k, hk⟩⟩

end SatCat5Proofs.ListCore.HasLoop
