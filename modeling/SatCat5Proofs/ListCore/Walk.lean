import Mathlib.Data.UInt
import SatCat5Proofs.ListCore.Heap

/-! # Intrusive lists: the read-only walks

`contains`, `find_ptr`, `get_index` and `len` each walk a list in a `while` loop. A loop is a
function that spends one unit of `fuel` per test of its condition and returns `none` when the
fuel runs out. `contains`, `find_ptr` and `len` get `n + 1` units, one more than the longest list
of the heap; `get_index` tests its condition at most `idx + 1` times and gets exactly that. On a
list each walk ends and returns what it should:

* `containsLoop_eq`: whether the item is one of the list's;
* `findPtrLoop_append`, the loop invariant of `find_ptr`: after passing items other than the
  target the walk stands at the link after them (`lastLink`); from it `findPtr_found`,
  `findPtr_null` and `findPtr_absent`;
* `getIndexLoop_eq`: the item at position `idx`, the null pointer past the end;
* `lenLoop_eq`: the number of items, modulo `2 ^ 32` (`unsigned` arithmetic). -/

namespace SatCat5Proofs.ListCore.Walk

open SatCat5Proofs.ListCore.Heap

variable {n : ℕ}

/-- The loop of `ListCore::contains`. -/
def containsLoop (next : Fin n → Ptr n) (item : Ptr n) : ℕ → Ptr n → Option Bool
  | 0, _ => none
  | _ + 1, none => some false
  | fuel + 1, some x => if some x = item then some true else containsLoop next item fuel (next x)

/-- **`ListCore::contains`**: scan the list held from `list` for `item`. -/
def contains (m : Mem n) (list item : Ptr n) : Option Bool :=
  containsLoop m.next item (n + 1) list

/-- The loop of `ListCore::find_ptr`; the inner `none` is the null `T**` it returns. -/
def findPtrLoop (m : Mem n) (item : Ptr n) : ℕ → Link n → Option (Option (Link n))
  | 0, _ => none
  | fuel + 1, ptr =>
    if m.read ptr = item then some (some ptr)
    else match m.read ptr with
      | none => some none
      | some x => findPtrLoop m item fuel (.next x)

/-- **`ListCore::find_ptr`**: the link, from `list` on, whose target is `item`. -/
def findPtr (m : Mem n) (list : Link n) (item : Ptr n) : Option (Option (Link n)) :=
  findPtrLoop m item (n + 1) list

/-- The loop of `ListCore::get_index`, `while (ptr && idx--)`. -/
def getIndexLoop (next : Fin n → Ptr n) : ℕ → Ptr n → UInt32 → Option (Ptr n)
  | 0, _, _ => none
  | _ + 1, none, _ => some none
  | fuel + 1, some x, idx =>
    if idx = 0 then some (some x) else getIndexLoop next fuel (next x) (idx - 1)

/-- **`ListCore::get_index`**: the item at position `idx` of the list held from `list`; the loop
tests its condition at most `idx + 1` times. -/
def getIndex (m : Mem n) (list : Ptr n) (idx : UInt32) : Option (Ptr n) :=
  getIndexLoop m.next (idx.toNat + 1) list idx

/-- The loop of `ListCore::len`. -/
def lenLoop (next : Fin n → Ptr n) : ℕ → Ptr n → UInt32 → Option UInt32
  | 0, _, _ => none
  | _ + 1, none, count => some count
  | fuel + 1, some x, count => lenLoop next fuel (next x) (count + 1)

/-- **`ListCore::len`**: count the items of the list held from `list`. -/
def len (m : Mem n) (list : Ptr n) : Option UInt32 :=
  lenLoop m.next (n + 1) list 0

/-- **`ListCore::next`**: `item->m_next`. -/
def next (m : Mem n) (item : Fin n) : Ptr n := m.next item

/-- **`List::is_empty`**: `m_head == 0`. -/
def isEmpty (m : Mem n) (list : ℕ) : Bool := m.head list = none

variable {m : Mem n} {next : Fin n → Ptr n} {p q : Ptr n} {item : Ptr n} {ℓ : Link n}
  {x : Fin n} {xs as bs : List (Fin n)}

/-- Fuel beyond a list's length pays for its first item and for the rest of the list. -/
theorem fuel_cons {fuel : ℕ} (hf : (x :: xs).length < fuel) :
    ∃ k, fuel = k + 1 ∧ xs.length < k := by
  rw [List.length_cons] at hf
  exact ⟨fuel - 1, by omega, by omega⟩

/-! ### `contains` -/

theorem containsLoop_eq (h : ListAt next p xs) {fuel : ℕ} (hf : xs.length < fuel) :
    containsLoop next item fuel p = some (decide (∃ y ∈ xs, some y = item)) := by
  induction xs generalizing p fuel with
  | nil =>
    obtain rfl := Path.nil_iff.mp h; obtain ⟨k, rfl⟩ := Nat.exists_eq_add_of_lt hf
    simp [containsLoop]
  | cons y xs ih =>
    obtain ⟨rfl, ht⟩ := Path.cons_iff.mp h
    obtain ⟨k, rfl, hk⟩ := fuel_cons hf
    by_cases hy : some y = item
    · simp [containsLoop, hy]
    · simp [containsLoop, hy, ih ht hk]

/-! ### `find_ptr` -/

/-- The link reached from `ℓ` past the items `as`: `ℓ` itself, or the `m_next` of the last. -/
def lastLink (ℓ : Link n) : List (Fin n) → Link n
  | [] => ℓ
  | x :: xs => lastLink (.next x) xs

@[simp] theorem lastLink_nil : lastLink ℓ [] = ℓ := rfl

@[simp] theorem lastLink_snoc : lastLink ℓ (as ++ [x]) = .next x := by
  induction as generalizing ℓ with
  | nil => rfl
  | cons a as ih => exact ih

theorem read_lastLink (h : Path m.next (m.read ℓ) as q) : m.read (lastLink ℓ as) = q := by
  induction as generalizing ℓ with
  | nil => exact Path.nil_iff.mp h
  | cons a as ih =>
    obtain ⟨-, ht⟩ := Path.cons_iff.mp h
    exact ih (ℓ := .next a) ht

/-- **The loop invariant of `find_ptr`**: items other than the target are passed one per round,
the pointer-to-pointer moving to the link after them. -/
theorem findPtrLoop_append (h : Path m.next (m.read ℓ) as q) (hne : ∀ y ∈ as, some y ≠ item)
    (fuel : ℕ) :
    findPtrLoop m item (fuel + as.length) ℓ = findPtrLoop m item fuel (lastLink ℓ as) := by
  induction as generalizing ℓ with
  | nil => rfl
  | cons a as ih =>
    obtain ⟨ha, ht⟩ := Path.cons_iff.mp h
    have hna : m.read ℓ ≠ item := ha ▸ hne a (List.mem_cons_self _ _)
    rw [List.length_cons, ← add_assoc, findPtrLoop, if_neg hna, ha]
    exact ih (ℓ := .next a) ht fun y hy => hne y (List.mem_cons_of_mem _ hy)

/-- The walk of `find_ptr` over `as`, the items in front of the link it stops at. -/
theorem findPtr_eq_at (h : ListAt m.next (m.read ℓ) (as ++ bs))
    (hne : ∀ y ∈ as, some y ≠ item) :
    findPtr m ℓ item = findPtrLoop m item (n + 1 - as.length) (lastLink ℓ as) := by
  have hle := ListAt.length_le h
  rw [List.length_append] at hle
  obtain ⟨q, hq, -⟩ := Path.append_iff.mp h
  rw [findPtr, ← findPtrLoop_append hq hne, Nat.sub_add_cancel (by omega)]

/-- `find_ptr` on an item of the list: the link after the items in front of it. -/
theorem findPtr_found (h : ListAt m.next (m.read ℓ) (as ++ x :: bs)) :
    findPtr m ℓ (some x) = some (some (lastLink ℓ as)) := by
  have hx : x ∉ as := ListAt.not_mem_front h
  have hne : ∀ y ∈ as, some y ≠ some x := fun y hy e => hx (Option.some_inj.mp e ▸ hy)
  have hle := ListAt.length_le h
  simp only [List.length_append, List.length_cons] at hle
  obtain ⟨q, hq, hb⟩ := Path.append_iff.mp h
  obtain ⟨rfl, -⟩ := Path.cons_iff.mp hb
  rw [findPtr_eq_at h hne, show n + 1 - as.length = n - as.length + 1 by omega, findPtrLoop,
    if_pos (read_lastLink hq)]

/-- `find_ptr` on the null pointer: the link that ends the list. -/
theorem findPtr_null (h : ListAt m.next (m.read ℓ) xs) :
    findPtr m ℓ none = some (some (lastLink ℓ xs)) := by
  have hle := ListAt.length_le h
  rw [findPtr_eq_at (show ListAt m.next (m.read ℓ) (xs ++ []) by rwa [List.append_nil])
      (fun _ _ => Option.some_ne_none _),
    show n + 1 - xs.length = n - xs.length + 1 by omega, findPtrLoop, if_pos (read_lastLink h)]

/-- `find_ptr` on an item off the list: the null `T**`. -/
theorem findPtr_absent (h : ListAt m.next (m.read ℓ) xs) (hx : x ∉ xs) :
    findPtr m ℓ (some x) = some none := by
  have hle := ListAt.length_le h
  have hne : ∀ y ∈ xs, some y ≠ some x := fun y hy e => hx (Option.some_inj.mp e ▸ hy)
  rw [findPtr_eq_at (show ListAt m.next (m.read ℓ) (xs ++ []) by rwa [List.append_nil]) hne,
    show n + 1 - xs.length = n - xs.length + 1 by omega, findPtrLoop, read_lastLink h,
    if_neg (Option.some_ne_none x).symm]

/-! ### `get_index` and `len` -/

theorem toNat_sub_one_add_one {a : UInt32} (h : a ≠ 0) : (a - 1).toNat + 1 = a.toNat := by
  have h0 : a.toNat ≠ 0 := fun e => h (UInt32.toNat.inj (by simpa using e))
  rw [UInt32.toNat_sub_of_le _ _ (Nat.pos_of_ne_zero h0)]
  exact Nat.sub_add_cancel (Nat.pos_of_ne_zero h0)

/-- **The loop of `get_index` on a list**: given more tests than `idx`, the item at position
`idx`, the null pointer past the end. -/
theorem getIndexLoop_eq (h : ListAt next p xs) (idx : UInt32) {fuel : ℕ} (hf : idx.toNat < fuel) :
    getIndexLoop next fuel p idx = some xs[idx.toNat]? := by
  induction fuel generalizing p xs idx with
  | zero => omega
  | succ fuel ih =>
    cases h with
    | nil => simp [getIndexLoop]
    | cons ht =>
      by_cases hi : idx = 0
      · simp [getIndexLoop, hi]
      · have e := toNat_sub_one_add_one hi
        rw [getIndexLoop, if_neg hi, ih ht (idx - 1) (by omega), ← e]
        simp

theorem lenLoop_eq (h : ListAt next p xs) {fuel : ℕ} (hf : xs.length < fuel) (count : UInt32) :
    (lenLoop next fuel p count).map UInt32.toNat = some ((count.toNat + xs.length) % 2 ^ 32) := by
  induction xs generalizing p fuel count with
  | nil =>
    obtain rfl := Path.nil_iff.mp h; obtain ⟨k, rfl⟩ := Nat.exists_eq_add_of_lt hf
    simp [lenLoop, Nat.mod_eq_of_lt count.toNat_lt_size]
  | cons y xs ih =>
    obtain ⟨rfl, ht⟩ := Path.cons_iff.mp h
    obtain ⟨k, rfl, hk⟩ := fuel_cons hf
    rw [lenLoop, ih ht hk, show (count + 1).toNat = (count.toNat + 1) % 2 ^ 32 from
      BitVec.toNat_add _ _, List.length_cons]
    congr 1
    omega

/-! ### On a list -/

/-- **`find_ptr` on a list** hung from `ℓ`: on an item, the head slot if the item leads the
list, else the `m_next` of its predecessor; on the null pointer, the link that ends the list;
on an item off the list, the null `T**`. -/
theorem findPtr_correct (h : ListAt m.next (m.read ℓ) xs) :
    (∀ x bs, xs = x :: bs → findPtr m ℓ (some x) = some (some ℓ)) ∧
    (∀ as y x bs, xs = as ++ y :: x :: bs → findPtr m ℓ (some x) = some (some (.next y))) ∧
    (xs = [] → findPtr m ℓ none = some (some ℓ)) ∧
    (∀ as y, xs = as ++ [y] → findPtr m ℓ none = some (some (.next y))) ∧
    (∀ x, x ∉ xs → findPtr m ℓ (some x) = some none) := by
  refine ⟨fun x bs e => ?_, fun as y x bs e => ?_, fun e => ?_, fun as y e => ?_,
    fun x hx => findPtr_absent h hx⟩ <;> subst e
  · exact findPtr_found (show ListAt m.next (m.read ℓ) ([] ++ x :: bs) from h)
  · simpa using
      findPtr_found (show ListAt m.next (m.read ℓ) ((as ++ [y]) ++ x :: bs) by simpa using h)
  · exact findPtr_null h
  · simpa using findPtr_null h

theorem findPtr_correct_demo :
    ListAt demo.next (demo.read (.head 0)) [0, 2, 1] ∧
      (∀ x bs, ([0, 2, 1] : List (Fin 4)) = x :: bs →
        findPtr demo (.head 0) (some x) = some (some (.head 0))) ∧
      (∀ as y x bs, ([0, 2, 1] : List (Fin 4)) = as ++ y :: x :: bs →
        findPtr demo (.head 0) (some x) = some (some (.next y))) ∧
      (([0, 2, 1] : List (Fin 4)) = [] → findPtr demo (.head 0) none = some (some (.head 0))) ∧
      (∀ as y, ([0, 2, 1] : List (Fin 4)) = as ++ [y] →
        findPtr demo (.head 0) none = some (some (.next y))) ∧
      (∀ x, x ∉ ([0, 2, 1] : List (Fin 4)) → findPtr demo (.head 0) (some x) = some none) :=
  ⟨demo_listAt_zero, findPtr_correct demo_listAt_zero⟩

/-- **`get_index` and `len` on a list**: the item at position `idx`, the null pointer from the
length on; and the number of items, modulo `2 ^ 32`. -/
theorem getIndex_len (h : ListAt m.next p xs) (idx : UInt32) :
    (∀ hi : idx.toNat < xs.length, getIndex m p idx = some (some xs[idx.toNat])) ∧
    (xs.length ≤ idx.toNat → getIndex m p idx = some none) ∧
    ∃ c, len m p = some c ∧ c.toNat = xs.length % 2 ^ 32 := by
  have hg := getIndexLoop_eq h idx (Nat.lt_succ_self _)
  refine ⟨fun hi => by simp [getIndex, hg, hi], fun hi => by simp [getIndex, hg, hi], ?_⟩
  have hl := lenLoop_eq h (Nat.lt_succ_of_le (ListAt.length_le h)) 0
  obtain ⟨c, hc, e⟩ := Option.map_eq_some'.mp hl
  exact ⟨c, hc, by simpa using e⟩

theorem getIndex_len_demo :
    ListAt demo.next (demo.head 0) [0, 2, 1] ∧
      (∀ hi : (1 : UInt32).toNat < ([0, 2, 1] : List (Fin 4)).length,
        getIndex demo (demo.head 0) 1 = some (some ([0, 2, 1] : List (Fin 4))[(1 : UInt32).toNat])) ∧
      (([0, 2, 1] : List (Fin 4)).length ≤ (1 : UInt32).toNat →
        getIndex demo (demo.head 0) 1 = some none) ∧
      ∃ c, len demo (demo.head 0) = some c ∧ c.toNat = ([0, 2, 1] : List (Fin 4)).length % 2 ^ 32 :=
  ⟨demo_listAt_zero, getIndex_len demo_listAt_zero 1⟩

/-- The pointer to item `i` of `k`, null from `k` on. -/
def chainPtr (k i : ℕ) : Ptr k := if h : i < k then some ⟨i, h⟩ else none

/-- `k` items chained in order, `i->m_next = i + 1`, all head variables on item `0`. -/
def chain (k : ℕ) : Mem k where
  next i := chainPtr k (i.val + 1)
  head _ := chainPtr k 0

theorem chain_listAt (k : ℕ) :
    ∀ j ≤ k, ∃ xs, ListAt (chain k).next (chainPtr k (k - j)) xs ∧ xs.length = j
  | 0, _ => ⟨[], by simp [chainPtr], rfl⟩
  | j + 1, hj => by
    obtain ⟨xs, hxs, hl⟩ := chain_listAt k j (by omega)
    refine ⟨⟨k - (j + 1), by omega⟩ :: xs, Path.cons_iff.mpr ⟨dif_pos (by omega), ?_⟩,
      by simp [hl]⟩
    simpa [chain, show k - (j + 1) + 1 = k - j by omega] using hxs

/-- A list of `2 ^ 32` items has `len` `0`. -/
theorem len_chain_wraps : ∃ xs, ListAt (chain (2 ^ 32)).next ((chain (2 ^ 32)).head 0) xs ∧
    xs.length = 2 ^ 32 ∧ len (chain (2 ^ 32)) ((chain (2 ^ 32)).head 0) = some 0 := by
  obtain ⟨xs, hxs, hl⟩ := chain_listAt (2 ^ 32) (2 ^ 32) le_rfl
  rw [Nat.sub_self] at hxs
  obtain ⟨c, hc, e⟩ :=
    Option.map_eq_some'.mp (lenLoop_eq hxs (show xs.length < 2 ^ 32 + 1 by omega) 0)
  refine ⟨xs, hxs, hl, ?_⟩
  rw [len, show (chain (2 ^ 32)).head 0 = chainPtr (2 ^ 32) 0 from rfl, hc]
  exact congrArg some (UInt32.toNat.inj (by rw [e, hl]; rfl))

end SatCat5Proofs.ListCore.Walk
