import Mathlib.Data.Fin.VecNotation
import Mathlib.Data.Fintype.Card
import Mathlib.Logic.Function.Iterate

/-! # Intrusive lists: the items, the links and the memory they live in

`satcat5::util::ListCore` threads singly-linked lists through a pointer `m_next` that every item
carries itself. Its routines touch two kinds of memory: that field of each item, and the head
variables the lists are held in (a `T*&` argument, or the `m_head` of a `List<T>`). The `n` items
of a heap are `Fin n`, a pointer is a `Ptr n` (`none` is the null pointer) and a `T**` is a
`Link`, the address of a head variable or of an item's `m_next`.

* `Path next p xs q`: following `m_next` from `p` passes the items `xs`, in order, and arrives at
  `q`; `ListAt next p xs`, a path to the null pointer, is the list held from `p`.
* Such a list lists the walk from `p` (`ListAt.walk_eq`), so it is determined by `p`
  (`ListAt.unique`); its items are pairwise distinct (`ListAt.nodup`), hence at most `n`.
* A path reads only the `m_next` fields of its own items (`Path.congr`): every write elsewhere
  keeps it. -/

namespace SatCat5Proofs.ListCore.Heap

variable {n : ℕ}

/-- A pointer to one of the `n` items; `none` is the null pointer. -/
abbrev Ptr (n : ℕ) := Option (Fin n)

/-- A `T**`: the address of the head variable `l`, or of the `m_next` field of an item. -/
inductive Link (n : ℕ)
  | head (l : ℕ)
  | next (x : Fin n)
  deriving DecidableEq

/-- **The memory of the lists**: the `m_next` field of every item, and the head variables. -/
structure Mem (n : ℕ) where
  next : Fin n → Ptr n
  head : ℕ → Ptr n

namespace Mem

/-- `x->m_next = p`. -/
def setNext (m : Mem n) (x : Fin n) (p : Ptr n) : Mem n :=
  { m with next := Function.update m.next x p }

/-- `list = p`, for the head variable `l`. -/
def setHead (m : Mem n) (l : ℕ) (p : Ptr n) : Mem n :=
  { m with head := Function.update m.head l p }

/-- `*ptr`. -/
def read (m : Mem n) : Link n → Ptr n
  | .head l => m.head l
  | .next x => m.next x

/-- `*ptr = p`. -/
def write (m : Mem n) : Link n → Ptr n → Mem n
  | .head l, p => m.setHead l p
  | .next x, p => m.setNext x p

variable (m : Mem n) (x : Fin n) (l : ℕ) (p : Ptr n)

@[simp] theorem setNext_next : (m.setNext x p).next = Function.update m.next x p := rfl
@[simp] theorem setNext_head : (m.setNext x p).head = m.head := rfl
@[simp] theorem setHead_next : (m.setHead l p).next = m.next := rfl
@[simp] theorem setHead_head : (m.setHead l p).head = Function.update m.head l p := rfl
@[simp] theorem read_head : m.read (.head l) = m.head l := rfl
@[simp] theorem read_next : m.read (.next x) = m.next x := rfl
@[simp] theorem write_head : m.write (.head l) p = m.setHead l p := rfl
@[simp] theorem write_next : m.write (.next x) p = m.setNext x p := rfl

@[simp] theorem read_write_self (ℓ : Link n) : (m.write ℓ p).read ℓ = p := by
  cases ℓ <;> simp

theorem read_write_of_ne {ℓ ℓ' : Link n} (h : ℓ' ≠ ℓ) :
    (m.write ℓ p).read ℓ' = m.read ℓ' := by
  cases ℓ <;> cases ℓ' <;> simp_all [Function.update_noteq]

end Mem

/-- **A frame**: every link outside `L` keeps its target from `m` to `m'`. -/
def Unchanged (L : List (Link n)) (m m' : Mem n) : Prop :=
  ∀ ℓ, ℓ ∉ L → m'.read ℓ = m.read ℓ

namespace Unchanged

variable {L L' : List (Link n)} {m m₁ m₂ : Mem n}

theorem write (m : Mem n) (ℓ : Link n) (p : Ptr n) : Unchanged [ℓ] m (m.write ℓ p) :=
  fun _ h => Mem.read_write_of_ne _ _ fun e => h (e ▸ List.mem_singleton_self _)

theorem trans (h₁ : Unchanged L m m₁) (h₂ : Unchanged L' m₁ m₂) :
    Unchanged (L ++ L') m m₂ := by
  intro ℓ h
  rw [List.mem_append, not_or] at h
  rw [h₂ ℓ h.2, h₁ ℓ h.1]

theorem mono (h : Unchanged L m m₁) (hL : L ⊆ L') : Unchanged L' m m₁ :=
  fun ℓ hℓ => h ℓ fun e => hℓ (hL e)

end Unchanged

/-! ### Walking along `m_next` -/

/-- `p->m_next`, the null pointer staying null. -/
def step (next : Fin n → Ptr n) : Ptr n → Ptr n
  | none => none
  | some x => next x

/-- Where `k` steps along `m_next` from `p` lead. -/
def walk (next : Fin n → Ptr n) (p : Ptr n) (k : ℕ) : Ptr n := (step next)^[k] p

variable {next next' : Fin n → Ptr n} {p q r : Ptr n} {x : Fin n} {xs ys as bs : List (Fin n)}

@[simp] theorem walk_zero : walk next p 0 = p := rfl

theorem walk_succ (k : ℕ) : walk next p (k + 1) = walk next (step next p) k :=
  Function.iterate_succ_apply _ _ _

theorem walk_add (j k : ℕ) : walk next p (j + k) = walk next (walk next p j) k := by
  rw [walk, add_comm, Function.iterate_add_apply]; rfl

@[simp] theorem walk_none (k : ℕ) : walk next none k = none := by
  induction k with
  | zero => rfl
  | succ k ih => rw [walk_succ]; exact ih

/-- Once the walk has reached the null pointer it stays there. -/
theorem walk_eq_none_of_le {j k : ℕ} (hjk : j ≤ k) (h : walk next p j = none) :
    walk next p k = none := by
  obtain ⟨d, rfl⟩ := Nat.exists_eq_add_of_le hjk
  rw [walk_add, h, walk_none]

/-! ### Paths and lists -/

/-- **A path**: following `m_next` from `p` passes the items `xs`, in order, and arrives at `q`. -/
inductive Path (next : Fin n → Ptr n) : Ptr n → List (Fin n) → Ptr n → Prop
  | nil (p : Ptr n) : Path next p [] p
  | cons {x : Fin n} {xs : List (Fin n)} {q : Ptr n} :
      Path next (next x) xs q → Path next (some x) (x :: xs) q

/-- **The list held from `p`**: the items met from `p` up to the null pointer. -/
abbrev ListAt (next : Fin n → Ptr n) (p : Ptr n) (xs : List (Fin n)) : Prop := Path next p xs none

namespace Path

@[simp] theorem nil_iff : Path next p [] q ↔ p = q :=
  ⟨fun | .nil _ => rfl, fun h => h ▸ .nil p⟩

@[simp] theorem cons_iff : Path next p (x :: xs) q ↔ p = some x ∧ Path next (next x) xs q :=
  ⟨fun | .cons h => ⟨rfl, h⟩, fun ⟨hp, h⟩ => hp ▸ .cons h⟩

theorem append_iff : Path next p (as ++ bs) r ↔ ∃ q, Path next p as q ∧ Path next q bs r := by
  induction as generalizing p with
  | nil => simp
  | cons a as ih => simp [ih, and_assoc, exists_and_left]

theorem snoc_iff : Path next p (as ++ [x]) q ↔ Path next p as (some x) ∧ next x = q := by
  simp only [append_iff, cons_iff, nil_iff]
  exact ⟨fun ⟨_, h, rfl, e⟩ => ⟨h, e⟩, fun ⟨h, e⟩ => ⟨_, h, rfl, e⟩⟩

/-- A path reads only the `m_next` fields of its own items. -/
theorem congr (h : Path next p xs q) (he : ∀ y ∈ xs, next' y = next y) : Path next' p xs q := by
  induction h with
  | nil p => exact .nil p
  | @cons y _ _ _ ih =>
    refine .cons ?_
    rw [he y (List.mem_cons_self _ _)]
    exact ih fun z hz => he z (List.mem_cons_of_mem _ hz)

/-- Writing `m_next` of an item off the path keeps it. -/
theorem update (h : Path next p xs q) (hx : x ∉ xs) (v : Ptr n) :
    Path (Function.update next x v) p xs q :=
  h.congr fun _ hy => Function.update_noteq (by rintro rfl; exact hx hy) _ _

/-- Redirecting the `m_next` of the last item of a path moves its end. -/
theorem retarget (h : Path next p (as ++ [x]) q) (hx : x ∉ as) (v : Ptr n) :
    Path (Function.update next x v) p (as ++ [x]) v := by
  obtain ⟨h, -⟩ := snoc_iff.mp h
  exact snoc_iff.mpr ⟨h.update hx v, Function.update_same _ _ _⟩

/-- Following a path to its end takes as many steps as it has items. -/
theorem walk_length (h : Path next p xs q) : walk next p xs.length = q := by
  induction h with
  | nil p => rfl
  | cons _ ih => rw [List.length_cons, walk_succ]; exact ih

end Path

namespace ListAt

/-- A list is the walk from its head, read position by position. -/
theorem walk_eq (h : ListAt next p xs) (k : ℕ) : walk next p k = xs[k]? := by
  induction xs generalizing p k with
  | nil => obtain rfl := Path.nil_iff.mp h; rw [walk_none, List.getElem?_nil]
  | cons y xs ih =>
    obtain ⟨rfl, ht⟩ := Path.cons_iff.mp h
    cases k with
    | zero => rw [walk_zero, List.getElem?_cons_zero]
    | succ k => rw [walk_succ, List.getElem?_cons_succ]; exact ih ht k

theorem unique (h : ListAt next p xs) (h' : ListAt next p ys) : xs = ys :=
  List.ext_getElem? fun k => by rw [← h.walk_eq, ← h'.walk_eq]

/-- The walk from the head of a list reaches the null pointer after the list's items. -/
theorem walk_length (h : ListAt next p xs) : walk next p xs.length = none := by
  simp [h.walk_eq]

/-- **A list has pairwise distinct items**: a repeated item would start the same list twice. -/
theorem nodup (h : ListAt next p xs) : xs.Nodup := by
  induction xs generalizing p with
  | nil => exact List.nodup_nil
  | cons y xs ih =>
    obtain ⟨rfl, ht⟩ := Path.cons_iff.mp h
    refine List.nodup_cons.mpr ⟨fun hy => ?_, ih ht⟩
    obtain ⟨as, bs, rfl⟩ := List.append_of_mem hy
    obtain ⟨q, -, hq⟩ := Path.append_iff.mp ht
    obtain ⟨rfl, hbs⟩ := Path.cons_iff.mp hq
    have := congrArg List.length (unique ht hbs)
    simp only [List.length_append, List.length_cons] at this; omega

/-- An item of a list is not among the items in front of it. -/
theorem not_mem_front (h : ListAt next p (as ++ x :: bs)) : x ∉ as :=
  fun hx => (List.nodup_append.mp h.nodup).2.2 hx (List.mem_cons_self _ _)

theorem length_le (h : ListAt next p xs) : xs.length ≤ n :=
  h.nodup.length_le_card.trans (Fintype.card_fin n).le

end ListAt

theorem ListAt.head_eq (h : ListAt next p xs) : p = xs.head? := by
  cases xs with
  | nil => exact Path.nil_iff.mp h
  | cons y ys => exact (Path.cons_iff.mp h).1

theorem Unchanged.rfl (L : List (Link n)) (m : Mem n) : Unchanged L m m := fun _ _ => Eq.refl _

/-- A path none of whose items' `m_next` is written stays as it is. -/
theorem Unchanged.path {L : List (Link n)} {m m' : Mem n} (h : Unchanged L m m')
    (hy : ∀ y ∈ ys, Link.next y ∉ L) (hys : Path m.next p ys q) : Path m'.next p ys q :=
  hys.congr fun y hy' => h (.next y) (hy y hy')

/-- A list none of whose links is written stays as it is. -/
theorem Unchanged.listAt {L : List (Link n)} {m m' : Mem n} {l : ℕ} (h : Unchanged L m m')
    (hl : Link.head l ∉ L) (hy : ∀ y ∈ ys, Link.next y ∉ L)
    (hys : ListAt m.next (m.head l) ys) : ListAt m'.next (m'.head l) ys := by
  have e : m'.head l = m.head l := h (.head l) hl
  exact e ▸ h.path hy hys

/-! ### A small heap -/

/-- Four items: head variable `0` holds `0, 2, 1`, head variable `1` holds `3`, the others are
empty. -/
def demo : Mem 4 where
  next := ![some 2, none, some 1, none]
  head l := if l = 0 then some 0 else if l = 1 then some 3 else none

theorem demo_listAt_zero : ListAt demo.next (demo.head 0) [0, 2, 1] :=
  .cons (.cons (.cons (.nil none)))

theorem demo_listAt_one : ListAt demo.next (demo.head 1) [3] := .cons (.nil none)

end SatCat5Proofs.ListCore.Heap
