import SatCat5Proofs.ListCore.HasLoop
import SatCat5Proofs.ListCore.Update

/-! # Intrusive lists: all the lists of a heap, over every run

The lists of a program share one heap: each is held in a head variable and threaded through the
same `m_next` fields. A `Call` is one relinking routine on one head variable, and `run` performs
calls in order. The header of `list.h` sets the discipline (`Allowed`): an item is added only
from no list, `add_safe` and `remove` get an item on no list or on the target list,
`insert_after` an anchor on the target list, and `add_list` two distinct lists.

The abstract state gives each head variable the items it should hold, in order (`Held`); a call
changes it as its routine promises (`absStep`): push to the front, append, insert after the
anchor, delete, drop the head, clear, or move one list's items onto another.

* `Represents m a`: every head variable `l` holds exactly `a l`, and no item is on two lists.
* `represents_step`: an allowed call on a represented heap returns, and its result represents
  the abstract step; `represents_run` carries this along a whole run.
* `run_lists`: along every allowed run from empty lists, every list stays null-terminated, free
  of repeats and disjoint from the others, holds exactly the abstract items, and `contains`,
  `len` and `find_ptr` end on it while `has_loop` answers `false`.
* `run_observers`: after such a run `contains`, `get_index`, `len`, `is_empty` and `pop_front`
  answer as the abstract lists do.
* `run_free_next_null`: along such a run without `reset`, every item on no list has a null
  `m_next` (`Clean`), so `List::reset(item)` of one makes a one-item list.
* Outside the discipline: `reset_dropped_keeps_tail` (`List(item)` of an item `reset()`
  dropped holds the rest of its old list too), `add_present_loops` (adding an item already on the list makes it
  cyclic), `remove_other_truncates` (removing through the wrong list cuts the right one),
  `addSafe_other_merges` (`add_safe` of an item held on another list splices the two),
  `pushBack_present_truncates` (appending an item already on the list cuts the list after it)
  and `insertAfter_later_loops` (inserting after the anchor an item that already follows it makes
  the list cyclic). -/

namespace SatCat5Proofs.ListCore.Lists

open SatCat5Proofs.ListCore.Heap SatCat5Proofs.ListCore.Walk SatCat5Proofs.ListCore.HasLoop
open SatCat5Proofs.ListCore.Update

variable {n : ℕ}

/-- A call of a relinking routine on the list held in head variable `l`. -/
inductive Call (n : ℕ)
  | add (l : ℕ) (item : Fin n)
  | pushFront (l : ℕ) (item : Fin n)
  | pushBack (l : ℕ) (item : Fin n)
  | insertAfter (l : ℕ) (wh item : Fin n)
  | addSafe (l : ℕ) (item : Fin n)
  | remove (l : ℕ) (item : Fin n)
  | popFront (l : ℕ)
  | reset (l : ℕ)
  | addList (l₁ l₂ : ℕ)

/-- Perform a call; `List::insert_after` does not read its list, and `reset` is `reset()`. -/
def exec (m : Mem n) : Call n → Option (Mem n)
  | .add l x => some (add m l x)
  | .pushFront l x => some (pushFront m l x)
  | .pushBack l x => pushBack m l x
  | .insertAfter _ w x => some (insertAfter m (some w) (some x))
  | .addSafe l x => addSafe m l x
  | .remove l x => remove m l x
  | .popFront l => some (popFront m l).1
  | .reset l => some (reset m l none)
  | .addList l₁ l₂ => addList m l₁ l₂

/-- Is the call a `reset`? -/
def Call.isReset : Call n → Bool
  | .reset _ => true
  | _ => false

/-- Perform calls in order; `none` as soon as one does not return. -/
def run (m : Mem n) : List (Call n) → Option (Mem n)
  | [] => some m
  | c :: cs => (exec m c).bind fun m' => run m' cs

/-- The items each head variable should hold, in order. -/
abbrev Held (n : ℕ) := ℕ → List (Fin n)

/-- Insert `x` just after the first `w`. -/
def insertAfterItem (w x : Fin n) : List (Fin n) → List (Fin n)
  | [] => []
  | y :: ys => if y = w then y :: x :: ys else y :: insertAfterItem w x ys

/-- **What a call does to the lists.** -/
def absStep (a : Held n) : Call n → Held n
  | .add l x | .pushFront l x => Function.update a l (x :: a l)
  | .pushBack l x => Function.update a l (a l ++ [x])
  | .insertAfter l w x => Function.update a l (insertAfterItem w x (a l))
  | .addSafe l x => Function.update a l (if x ∈ a l then a l else x :: a l)
  | .remove l x => Function.update a l ((a l).erase x)
  | .popFront l => Function.update a l (a l).tail
  | .reset l => Function.update a l []
  | .addList l₁ l₂ =>
    Function.update (Function.update a l₁ ((a l₂).reverse ++ a l₁)) l₂ []

/-- The lists after a run from empty lists. -/
def absRun (cs : List (Call n)) : Held n := cs.foldl absStep fun _ => []

/-- `x` is on no list. -/
def Free (a : Held n) (x : Fin n) : Prop := ∀ l, x ∉ a l

/-- **The discipline of `list.h`** for a call on the lists `a`. -/
def Allowed (a : Held n) : Call n → Prop
  | .add _ x | .pushFront _ x | .pushBack _ x => Free a x
  | .insertAfter l w x => Free a x ∧ w ∈ a l
  | .addSafe l x | .remove l x => Free a x ∨ x ∈ a l
  | .popFront _ | .reset _ => True
  | .addList l₁ l₂ => l₁ ≠ l₂

/-- Every call of a run is allowed in the lists it meets. -/
def AllowedRun (a : Held n) : List (Call n) → Prop
  | [] => True
  | c :: cs => Allowed a c ∧ AllowedRun (absStep a c) cs

/-- No item is on two lists. -/
def Disj (a : Held n) : Prop := ∀ x l₁ l₂, x ∈ a l₁ → x ∈ a l₂ → l₁ = l₂

/-- **`m` holds the lists `a`.** -/
structure Represents (m : Mem n) (a : Held n) : Prop where
  listAt : ∀ l, ListAt m.next (m.head l) (a l)
  disj : Disj a

/-- **Every item on no list has a null `m_next`**: `pop_front` and `remove` clear the `m_next` of
the item they take off, `push_back` that of the item it appends. -/
def Clean (m : Mem n) (a : Held n) : Prop := ∀ x, Free a x → m.next x = none

/-! ### The abstract lists -/

section Abstract

variable {a : Held n} {l l' : ℕ} {w x y : Fin n} {ys as bs : List (Fin n)}

theorem mem_update :
    y ∈ Function.update a l ys l' ↔ (l' = l ∧ y ∈ ys) ∨ (l' ≠ l ∧ y ∈ a l') := by
  by_cases h : l' = l
  · subst h; simp
  · simp [Function.update_noteq h, h]

theorem insertAfterItem_eq (hw : w ∉ as) :
    insertAfterItem w x (as ++ w :: bs) = as ++ w :: x :: bs := by
  induction as with
  | nil => simp [insertAfterItem]
  | cons z as ih =>
    rw [List.mem_cons, not_or] at hw
    simp [insertAfterItem, show z ≠ w from fun e => hw.1 e.symm, ih hw.2]

/-- A list may be replaced by items that are on no other list. -/
theorem Disj.update (hd : Disj a) (hys : ∀ y ∈ ys, ∀ l', l' ≠ l → y ∉ a l') :
    Disj (Function.update a l ys) := by
  intro y l₁ l₂ h₁ h₂
  rw [mem_update] at h₁ h₂
  rcases h₁ with ⟨rfl, h₁⟩ | ⟨n₁, h₁⟩ <;>
    rcases h₂ with ⟨rfl, h₂⟩ | ⟨n₂, h₂⟩
  · rfl
  · exact absurd h₂ (hys y h₁ l₂ n₂)
  · exact absurd h₁ (hys y h₂ l₁ n₁)
  · exact hd y l₁ l₂ h₁ h₂

/-- The items of a list are on no other. -/
theorem Disj.not_mem (hd : Disj a) (hy : y ∈ a l) (hl : l' ≠ l) : y ∉ a l' :=
  fun h => hl (hd y l' l h hy)

theorem Disj.own (hd : Disj a) : ∀ y ∈ a l, ∀ l', l' ≠ l → y ∉ a l' :=
  fun _ hy _ hl => hd.not_mem hy hl

/-- Items of the list `l` and items on no list are on no list but `l`. -/
theorem Disj.off (hd : Disj a) (hx : Free a x) (hys : ∀ y ∈ ys, y = x ∨ y ∈ a l) :
    ∀ y ∈ ys, ∀ l', l' ≠ l → y ∉ a l' := by
  intro y hy l' hl
  rcases hys y hy with rfl | hy
  · exact hx l'
  · exact hd.not_mem hy hl

theorem Free.not_mem_update (h : Free (Function.update a l ys) y) : y ∉ ys := by
  simpa using h l

/-- An item on no list after a list `l` is replaced, that was not on `l` unless it stays there,
was on no list before. -/
theorem Free.of_update (h : Free (Function.update a l ys) y) (hy : y ∈ a l → y ∈ ys) :
    Free a y := fun l' hl' => by
  by_cases e : l' = l
  · subst e; exact h.not_mem_update (hy hl')
  · exact h l' (by rwa [Function.update_noteq e])

theorem subset_insertAfterItem : ys ⊆ insertAfterItem w x ys := by
  induction ys with
  | nil => exact List.nil_subset _
  | cons z ys ih =>
    unfold insertAfterItem
    split_ifs
    · exact List.cons_subset_cons _ (List.subset_cons_self _ _)
    · exact List.cons_subset_cons _ ih

theorem mem_insertAfterItem (hw : w ∈ ys) : x ∈ insertAfterItem w x ys := by
  induction ys with
  | nil => cases hw
  | cons z ys ih =>
    unfold insertAfterItem
    split_ifs with h
    · simp
    · exact List.mem_cons_of_mem _ (ih ((List.mem_cons.mp hw).resolve_left (Ne.symm h)))

end Abstract

/-! ### One call -/

section Step

variable {m m' : Mem n} {a a' : Held n} {l l₁ l₂ : ℕ} {w x : Fin n}

/-- A call that writes only the head variables `H` and the `m_next` of the items `S`, none of
which is on a list outside `H`, keeps every other list. -/
theorem Represents.of_frame (hr : Represents m a) (hd : Disj a') {H : List ℕ} {S : List (Fin n)}
    (hU : Unchanged (H.map .head ++ S.map .next) m m')
    (hs : ∀ l, l ∉ H → ∀ y ∈ S, y ∉ a l) (ho : ∀ l, l ∉ H → a' l = a l)
    (ht : ∀ l ∈ H, ListAt m'.next (m'.head l) (a' l)) :
    Represents m' a' where
  listAt l := by
    by_cases hl : l ∈ H
    · exact ht l hl
    · rw [ho l hl]
      exact hU.listAt (by simpa using hl) (fun y hy hy' => hs l hl y (by simpa using hy') hy)
        (hr.listAt l)
  disj := hd

/-- The link that ends a prefix of a list is one of the list's links. -/
theorem lastLink_mem {as s : List (Fin n)} (h : as ⊆ s) :
    lastLink (.head l) as ∈ [l].map Link.head ++ s.map Link.next := by
  rcases lastLink_head_cases (l := l) as with e | ⟨z, hz, e⟩
  · simp [e]
  · simp [e, h hz]

/-- **A call on one list**: it writes the head variable `l` and only `m_next` fields of items on
no list but `l`, and leaves there items that are on no other list. -/
theorem Represents.of_call (hr : Represents m a) {S ys : List (Fin n)}
    (hS : ∀ y ∈ S, ∀ l', l' ≠ l → y ∉ a l')
    (hys : ∀ y ∈ ys, ∀ l', l' ≠ l → y ∉ a l')
    (hU : Unchanged ([l].map .head ++ S.map .next) m m')
    (ht : ListAt m'.next (m'.head l) ys) :
    Represents m' (Function.update a l ys) :=
  hr.of_frame (hr.disj.update hys) hU (fun l' hl y hy => hS y hy l' (by simpa using hl))
    (fun l' hl => Function.update_noteq (by simpa using hl) _ _)
    fun l' hl => by simp only [List.mem_singleton] at hl; subst hl; simpa using ht

/-- The items of the list `l`, and an item on no list, are on no list but `l`. -/
theorem Represents.off (hr : Represents m a) (hx : Free a x) :
    ∀ y ∈ x :: a l, ∀ l', l' ≠ l → y ∉ a l' :=
  hr.disj.off hx fun _ hy => List.mem_cons.mp hy

theorem Represents.pushFront (hr : Represents m a) (hx : Free a x) :
    Represents (pushFront m l x) (Function.update a l (x :: a l)) :=
  hr.of_call (S := [x]) (fun y hy => hr.off hx y (by simp at hy; simp [hy])) (hr.off hx)
    (pushFront_unchanged.mono fun ℓ => by simp; exact Or.symm)
    (pushFront_listAt (hr.listAt l) (hx l))

theorem Represents.pushBack (hr : Represents m a) (hx : Free a x) :
    ∃ m', pushBack m l x = some m' ∧ Represents m' (Function.update a l (a l ++ [x])) := by
  obtain ⟨m', hm', hl, -, hU⟩ := pushBack_listAt (hr.listAt l) (hx l)
  refine ⟨m', hm', hr.of_call (hr.off hx)
    (fun y hy => hr.off hx y (by simp at hy ⊢; exact hy.symm)) (hU.mono fun ℓ hℓ => ?_) hl⟩
  simp only [List.mem_cons, List.mem_singleton, List.not_mem_nil, or_false] at hℓ
  rcases hℓ with rfl | rfl
  · exact lastLink_mem (List.subset_cons_self _ _)
  · simp

theorem Represents.insertAfter (hr : Represents m a) (hx : Free a x) (hw : w ∈ a l) :
    Represents (insertAfter m (some w) (some x))
      (Function.update a l (insertAfterItem w x (a l))) := by
  obtain ⟨as, bs, e⟩ := List.append_of_mem hw
  have hl := hr.listAt l
  rw [e] at hl
  have hwa : w ∉ as := ListAt.not_mem_front hl
  obtain ⟨hl', hU⟩ := insertAfter_listAt hl (e ▸ hx l)
  rw [e, insertAfterItem_eq hwa]
  refine hr.of_call (hr.off hx) (fun y hy => hr.off hx y ?_) (hU.mono fun ℓ hℓ => ?_) hl'
  · rw [e]; simp at hy ⊢
    rcases hy with h | h | h | h <;> simp only [h, true_or, or_true]
  · simp only [List.mem_cons, List.mem_singleton, List.not_mem_nil, or_false] at hℓ
    rcases hℓ with rfl | rfl <;> simp [hw]

theorem Represents.remove (hr : Represents m a) (hx : Free a x ∨ x ∈ a l) :
    ∃ m', remove m l x = some m' ∧ Represents m' (Function.update a l ((a l).erase x)) := by
  by_cases hxl : x ∈ a l
  · obtain ⟨as, bs, e⟩ := List.append_of_mem hxl
    have hl := hr.listAt l
    rw [e] at hl
    have hxa : x ∉ as := ListAt.not_mem_front hl
    obtain ⟨m', hm', hl', -, hU⟩ := remove_found hl
    have hoff := hr.disj.own (l := l)
    refine ⟨m', hm', hr.of_call (S := a l) hoff (fun y hy => hoff y (List.mem_of_mem_erase hy))
      (hU.mono fun ℓ hℓ => ?_) ?_⟩
    · simp only [List.mem_cons, List.mem_singleton, List.not_mem_nil, or_false] at hℓ
      rcases hℓ with rfl | rfl
      · exact lastLink_mem fun y hy => e ▸ List.mem_append_left _ hy
      · simp [hxl]
    · rwa [e, List.erase_append_right _ hxa, List.erase_cons_head]
  · have hfree : Free a x := hx.resolve_right hxl
    refine ⟨_, remove_absent (hr.listAt l) hxl, ?_⟩
    rw [List.erase_of_not_mem hxl]
    exact hr.of_call (S := [x]) (fun y hy => hr.off hfree y (by simp at hy; simp [hy]))
      (fun y hy => hr.off hfree y (List.mem_cons_of_mem _ hy))
      ((Unchanged.write m (.next x) none).mono (by simp)) ((hr.listAt l).update hxl none)

theorem Represents.popFront (hr : Represents m a) :
    Represents (popFront m l).1 (Function.update a l (a l).tail) := by
  have hoff := hr.disj.own (l := l)
  rcases hal : a l with _ | ⟨y, ys⟩
  · have hl := hr.listAt l
    rw [hal] at hl
    rw [popFront_of_empty (Path.nil_iff.mp hl)]
    exact hr.of_call (S := []) (by simp) (by simp) (Unchanged.rfl _ _) hl
  · have hl := hr.listAt l
    rw [hal] at hl hoff
    obtain ⟨-, hl', -, hU⟩ := popFront_of_head hl
    exact hr.of_call hoff (fun z hz => hoff z (List.mem_cons_of_mem _ hz))
      (hU.mono fun ℓ => by simp; exact Or.imp_right .inl) hl'

theorem Represents.reset (hr : Represents m a) :
    Represents (reset m l none) (Function.update a l []) :=
  hr.of_call (S := []) (by simp) (by simp) ((Unchanged.write m (.head l) none).mono (by simp))
    (by simp [Update.reset])

theorem Represents.addList (hr : Represents m a) (hne : l₁ ≠ l₂) :
    ∃ m', addList m l₁ l₂ = some m' ∧
      Represents m'
        (Function.update (Function.update a l₁ ((a l₂).reverse ++ a l₁)) l₂ []) := by
  obtain ⟨m', hm', he, hl, hU⟩ := addListLoop_listAt hne (a l₂) (a l₁) m (n + 1)
    (hr.listAt l₁) (hr.listAt l₂) (fun y h₁ h₂ => hne (hr.disj y l₁ l₂ h₁ h₂))
    (Nat.lt_succ_of_le (ListAt.length_le (hr.listAt l₂)))
  have hd₂ : Disj (Function.update a l₂ []) := hr.disj.update (by simp)
  refine ⟨m', hm', hr.of_frame ?_ (H := [l₁, l₂]) (S := a l₂)
    (hU.mono fun ℓ h => by simpa using h)
    (fun l hl y hy => hr.disj.not_mem hy (by simp at hl; exact hl.2)) (fun l hl => ?_)
    fun l hl => ?_⟩
  · rw [Function.update_comm hne]
    refine hd₂.update fun y hy l' hl' => ?_
    by_cases h₂ : l' = l₂
    · subst h₂; simp
    · rw [Function.update_noteq h₂]
      rcases List.mem_append.mp hy with hy | hy
      · exact hr.disj.not_mem (List.mem_reverse.mp hy) h₂
      · exact hr.disj.not_mem hy hl'
  · simp only [List.mem_cons, List.mem_singleton, List.not_mem_nil, or_false, not_or] at hl
    rw [Function.update_noteq hl.2, Function.update_noteq hl.1]
  · simp only [List.mem_cons, List.mem_singleton, List.not_mem_nil, or_false] at hl
    rcases hl with rfl | rfl
    · simpa [Function.update_noteq hne] using hl
    · simp [he]

/-- **One allowed call** on a represented heap returns, and represents the abstract step. -/
theorem represents_step (hr : Represents m a) {c : Call n} (hc : Allowed a c) :
    ∃ m', exec m c = some m' ∧ Represents m' (absStep a c) := by
  cases c with
  | add l x => exact ⟨_, rfl, hr.pushFront hc⟩
  | pushFront l x => exact ⟨_, rfl, hr.pushFront hc⟩
  | pushBack l x => exact hr.pushBack hc
  | insertAfter l w x => exact ⟨_, rfl, hr.insertAfter hc.1 hc.2⟩
  | addSafe l x =>
    refine ⟨_, addSafe_eq (hr.listAt l) x, ?_⟩
    by_cases hxl : x ∈ a l
    · simpa [absStep, hxl] using hr
    · simpa [absStep, hxl] using hr.pushFront (hc.resolve_right hxl)
  | remove l x => exact hr.remove hc
  | popFront l => exact ⟨_, rfl, hr.popFront⟩
  | reset l => exact ⟨_, rfl, hr.reset⟩
  | addList l₁ l₂ => exact hr.addList hc

end Step

/-! ### Runs -/

theorem represents_run {m : Mem n} {a : Held n} (hr : Represents m a) {cs : List (Call n)}
    (hc : AllowedRun a cs) : ∃ m', run m cs = some m' ∧ Represents m' (cs.foldl absStep a) := by
  induction cs generalizing m a with
  | nil => exact ⟨m, rfl, hr⟩
  | cons c cs ih =>
    obtain ⟨m₁, h₁, hr₁⟩ := represents_step hr hc.1
    obtain ⟨m', h', hr'⟩ := ih hr₁ hc.2
    exact ⟨m', by simp [run, h₁, h'], hr'⟩

/-- The empty lists: every head variable null. -/
theorem represents_empty {m : Mem n} (hm : ∀ l, m.head l = none) : Represents m fun _ => [] :=
  ⟨fun l => by simp [hm l], fun _ _ _ h => absurd h (by simp)⟩

/-- The read-only walks end on a list, and `has_loop` finds no loop in it. -/
theorem reads_of_listAt {m : Mem n} {l : ℕ} {xs : List (Fin n)}
    (h : ListAt m.next (m.head l) xs) :
    (∀ x, contains m (m.head l) x ≠ none) ∧ len m (m.head l) ≠ none ∧
      (∀ x, findPtr m (.head l) x ≠ none) ∧ hasLoop m (m.head l) = some false := by
  have hf : xs.length < n + 1 := Nat.lt_succ_of_le (ListAt.length_le h)
  have h' : ListAt m.next (m.read (.head l)) xs := h
  refine ⟨fun x => by simp [contains, containsLoop_eq h hf], fun e => ?_, fun x => ?_,
    hasLoop_of_walk_eq_none m (ListAt.walk_length h)⟩
  · have hl := lenLoop_eq h hf 0
    rw [show lenLoop m.next (n + 1) (m.head l) 0 = none from e] at hl
    simp at hl
  · rcases x with _ | x
    · simp [findPtr_null h']
    · by_cases hx : x ∈ xs
      · obtain ⟨as, bs, rfl⟩ := List.append_of_mem hx
        simp [findPtr_found h']
      · simp [findPtr_absent h' hx]

/-- **Every allowed run from empty lists**: every call returns, and afterwards every list is
null-terminated, free of repeats, disjoint from every other list and holds exactly the items the
calls put there and did not take away; `contains`, `len` and `find_ptr` end on it, and
`has_loop` answers `false`. -/
theorem run_lists (m : Mem n) (hm : ∀ l, m.head l = none) (cs : List (Call n))
    (hcs : AllowedRun (fun _ => []) cs) :
    ∃ m', run m cs = some m' ∧ ∀ l,
      ListAt m'.next (m'.head l) (absRun cs l) ∧ (absRun cs l).Nodup ∧
      (∀ l', l' ≠ l → (absRun cs l).Disjoint (absRun cs l')) ∧
      (∀ x, contains m' (m'.head l) x ≠ none) ∧ len m' (m'.head l) ≠ none ∧
      (∀ x, findPtr m' (.head l) x ≠ none) ∧ hasLoop m' (m'.head l) = some false := by
  obtain ⟨m', hrun, hr⟩ := represents_run (represents_empty hm) hcs
  exact ⟨m', hrun, fun l => ⟨hr.listAt l, ListAt.nodup (hr.listAt l),
    fun l' hl y h₁ h₂ => hl (hr.disj y l' l h₂ h₁), reads_of_listAt (hr.listAt l)⟩⟩

/-- Three items, every `m_next` and head variable null. -/
def blank : Mem 3 := ⟨fun _ => none, fun _ => none⟩

/-- Build `1, 2` in list `0`, slip `0` in after `1`, move the list onto list `1`, remove `2`. -/
def demoRun : List (Call 3) :=
  [.pushFront 0 1, .pushBack 0 2, .insertAfter 0 1 0, .addList 1 0, .remove 1 2]

theorem demoRun_allowed : AllowedRun (fun _ => []) demoRun := by
  simp [demoRun, AllowedRun, Allowed, Free, absStep, Function.update_apply, insertAfterItem]
  intro l; split_ifs <;> decide

theorem run_lists_demo :
    ((∀ l, blank.head l = none) ∧ AllowedRun (fun _ => []) demoRun) ∧
      ∃ m', run blank demoRun = some m' ∧ ∀ l,
        ListAt m'.next (m'.head l) (absRun demoRun l) ∧ (absRun demoRun l).Nodup ∧
        (∀ l', l' ≠ l → (absRun demoRun l).Disjoint (absRun demoRun l')) ∧
        (∀ x, contains m' (m'.head l) x ≠ none) ∧ len m' (m'.head l) ≠ none ∧
        (∀ x, findPtr m' (.head l) x ≠ none) ∧ hasLoop m' (m'.head l) = some false :=
  ⟨⟨fun _ => rfl, demoRun_allowed⟩, run_lists blank (fun _ => rfl) demoRun demoRun_allowed⟩

/-- **What the list API observes after every allowed run from empty lists**: on every list,
`contains`, `get_index`, `len`, `is_empty` and the item `pop_front` would take give the answer of
the abstract list the calls built. -/
theorem run_observers (m : Mem n) (hm : ∀ l, m.head l = none) (cs : List (Call n))
    (hcs : AllowedRun (fun _ => []) cs) :
    ∃ m', run m cs = some m' ∧ ∀ l,
      (∀ x, contains m' (m'.head l) (some x) = some (decide (x ∈ absRun cs l))) ∧
      (∀ idx, getIndex m' (m'.head l) idx = some (absRun cs l)[idx.toNat]?) ∧
      (∃ c, len m' (m'.head l) = some c ∧ c.toNat = (absRun cs l).length % 2 ^ 32) ∧
      (isEmpty m' l = true ↔ absRun cs l = []) ∧
      (popFront m' l).2 = (absRun cs l).head? := by
  obtain ⟨m', hrun, hr⟩ := represents_run (represents_empty hm) hcs
  refine ⟨m', hrun, fun l => ?_⟩
  have h : ListAt m'.next (m'.head l) (absRun cs l) := hr.listAt l
  have hf : (absRun cs l).length < n + 1 := Nat.lt_succ_of_le (ListAt.length_le h)
  obtain ⟨c, hc, e⟩ := Option.map_eq_some'.mp (lenLoop_eq h hf 0)
  refine ⟨fun x => by simp [contains, containsLoop_eq h hf], fun idx => getIndexLoop_eq h idx (Nat.lt_succ_self _),
    ⟨c, hc, by simpa using e⟩, ?_, ?_⟩
  · rw [isEmpty, decide_eq_true_iff, ListAt.head_eq h]
    cases absRun cs l <;> simp
  · rcases hal : absRun cs l with _ | ⟨y, ys⟩
    · rw [hal] at h
      rw [popFront_of_empty (Path.nil_iff.mp h)]
      rfl
    · rw [hal] at h
      exact (popFront_of_head h).1

theorem run_observers_demo :
    ((∀ l, blank.head l = none) ∧ AllowedRun (fun _ => []) demoRun) ∧
      ∃ m', run blank demoRun = some m' ∧ ∀ l,
        (∀ x, contains m' (m'.head l) (some x) = some (decide (x ∈ absRun demoRun l))) ∧
        (∀ idx, getIndex m' (m'.head l) idx = some (absRun demoRun l)[idx.toNat]?) ∧
        (∃ c, len m' (m'.head l) = some c ∧ c.toNat = (absRun demoRun l).length % 2 ^ 32) ∧
        (isEmpty m' l = true ↔ absRun demoRun l = []) ∧
        (popFront m' l).2 = (absRun demoRun l).head? :=
  ⟨⟨fun _ => rfl, demoRun_allowed⟩, run_observers blank (fun _ => rfl) demoRun demoRun_allowed⟩

/-! ### Detached items -/

section Detached

variable {m m' : Mem n} {a : Held n} {l : ℕ} {x y : Fin n}

/-- A call that writes only the links `L` keeps the free items clean if each item free after it
has been cleared, or was free before and its `m_next` is not in `L`. -/
theorem Clean.of_frame (hcl : Clean m a) {a' : Held n} {L : List (Link n)}
    (hU : Unchanged L m m')
    (h : ∀ y, Free a' y → m'.next y = none ∨ (Free a y ∧ Link.next y ∉ L)) : Clean m' a' :=
  fun y hy => (h y hy).elim id fun ⟨hf, hL⟩ => (hU (.next y) hL).trans (hcl y hf)

/-- The link that ends a prefix of a list is not the `m_next` of an item off the list. -/
theorem lastLink_ne_next {as : List (Fin n)} (h : as ⊆ a l) (hy : Free a y) :
    Link.next y ≠ lastLink (.head l) as := by
  rcases lastLink_head_cases (l := l) as with e | ⟨z, hz, e⟩ <;> rw [e]
  · exact Link.noConfusion
  · exact fun e => hy l (Link.next.inj e ▸ h hz)

theorem Clean.pushFront (hcl : Clean m a) :
    Clean (pushFront m l x) (Function.update a l (x :: a l)) :=
  hcl.of_frame pushFront_unchanged fun y hy => .inr ⟨hy.of_update (List.mem_cons_of_mem _), by
    simp [show y ≠ x from fun e => hy.not_mem_update (e ▸ List.mem_cons_self _ _)]⟩

theorem Clean.pushBack (hr : Represents m a) (hcl : Clean m a) (hx : Free a x)
    (he : pushBack m l x = some m') : Clean m' (Function.update a l (a l ++ [x])) := by
  obtain ⟨m'', hm'', -, hnx, hU⟩ := pushBack_listAt (hr.listAt l) (hx l)
  obtain rfl : m'' = m' := Option.some.inj (hm''.symm.trans he)
  refine hcl.of_frame hU fun y hy => ?_
  by_cases hyx : y = x
  · exact .inl (hyx ▸ hnx)
  · have hf := hy.of_update fun h => List.mem_append_left _ h
    exact .inr ⟨hf, by simp [hyx, lastLink_ne_next (List.Subset.refl _) hf]⟩

theorem Clean.insertAfter (hcl : Clean m a) {w : Fin n} (hw : w ∈ a l) :
    Clean (insertAfter m (some w) (some x)) (Function.update a l (insertAfterItem w x (a l))) := by
  have hU : Unchanged [.next x, .next w] m (Update.insertAfter m (some w) (some x)) :=
    (Unchanged.write m (.next x) _).trans (Unchanged.write _ (.next w) _)
  refine hcl.of_frame hU fun y hy => ?_
  have hf : Free a y := hy.of_update fun h => subset_insertAfterItem h
  have hyx : y ≠ x := fun e => hy.not_mem_update (e ▸ mem_insertAfterItem hw)
  have hyw : y ≠ w := fun e => hf l (e ▸ hw)
  exact .inr ⟨hf, by simp [hyx, hyw]⟩

theorem Clean.remove (hr : Represents m a) (hcl : Clean m a) (he : remove m l x = some m') :
    Clean m' (Function.update a l ((a l).erase x)) := by
  by_cases hxl : x ∈ a l
  · obtain ⟨as, bs, e⟩ := List.append_of_mem hxl
    obtain ⟨m'', hm'', -, hnx, hU⟩ := remove_found (e ▸ hr.listAt l)
    obtain rfl : m'' = m' := Option.some.inj (hm''.symm.trans he)
    refine hcl.of_frame hU fun y hy => ?_
    by_cases hyx : y = x
    · exact .inl (hyx ▸ hnx)
    · have hf := hy.of_update fun h => (List.mem_erase_of_ne hyx).mpr h
      have has : as ⊆ a l := fun z hz => e ▸ List.mem_append_left _ hz
      exact .inr ⟨hf, by simp [hyx, lastLink_ne_next has hf]⟩
  · obtain rfl : m.setNext x none = m' :=
      Option.some.inj ((remove_absent (hr.listAt l) hxl).symm.trans he)
    refine hcl.of_frame (Unchanged.write m (.next x) none) fun y hy => ?_
    by_cases hyx : y = x
    · exact .inl (by simp [hyx])
    · exact .inr ⟨hy.of_update fun h => by rwa [List.erase_of_not_mem hxl], by simp [hyx]⟩

theorem Clean.popFront (hr : Represents m a) (hcl : Clean m a) :
    Clean (popFront m l).1 (Function.update a l (a l).tail) := by
  have hl := hr.listAt l
  rcases hal : a l with _ | ⟨z, zs⟩
  · rw [hal] at hl
    rw [popFront_of_empty (Path.nil_iff.mp hl)]
    exact hcl.of_frame (Unchanged.rfl [] m) fun y hy =>
      .inr ⟨hy.of_update fun h => absurd (hal ▸ h) (List.not_mem_nil _), List.not_mem_nil _⟩
  · rw [hal] at hl
    obtain ⟨-, -, hnz, hU⟩ := popFront_of_head hl
    refine hcl.of_frame hU fun y hy => ?_
    by_cases hyz : y = z
    · exact .inl (hyz ▸ hnz)
    · exact .inr ⟨hy.of_update fun h => (List.mem_cons.mp (hal ▸ h)).resolve_left hyz,
        by simp [hyz]⟩

theorem Clean.addList (hr : Represents m a) (hcl : Clean m a) {l₁ l₂ : ℕ} (hne : l₁ ≠ l₂)
    (he : addList m l₁ l₂ = some m') :
    Clean m' (Function.update (Function.update a l₁ ((a l₂).reverse ++ a l₁)) l₂ []) := by
  obtain ⟨m'', hm'', -, -, hU⟩ := addListLoop_listAt hne (a l₂) (a l₁) m (n + 1)
    (hr.listAt l₁) (hr.listAt l₂) (fun y h₁ h₂ => hne (hr.disj y l₁ l₂ h₁ h₂))
    (Nat.lt_succ_of_le (ListAt.length_le (hr.listAt l₂)))
  obtain rfl : m'' = m' := Option.some.inj (hm''.symm.trans he)
  refine hcl.of_frame hU fun y hy => ?_
  -- an item on no list afterwards was on neither list: the moved items are all on `l₁`
  have h₁ : y ∉ a l₂ ∧ y ∉ a l₁ := by
    simpa [Function.update_noteq hne, not_or] using hy l₁
  have hf : Free a y := fun l' hl' => by
    by_cases e₁ : l' = l₁
    · exact h₁.2 (e₁ ▸ hl')
    by_cases e₂ : l' = l₂
    · exact h₁.1 (e₂ ▸ hl')
    exact hy l' (by rwa [Function.update_noteq e₂, Function.update_noteq e₁])
  exact .inr ⟨hf, by simp [h₁.1]⟩

/-- **One allowed call other than `reset` keeps the free items clean.** -/
theorem clean_step (hr : Represents m a) (hcl : Clean m a) {c : Call n} (hc : Allowed a c)
    (hres : c.isReset = false) (he : exec m c = some m') : Clean m' (absStep a c) := by
  cases c with
  | add l x | pushFront l x => cases he; exact hcl.pushFront
  | pushBack l x => exact hcl.pushBack hr hc he
  | insertAfter l w x => cases he; exact hcl.insertAfter hc.2
  | addSafe l x =>
    rw [exec, addSafe_eq (hr.listAt l), Option.some.injEq] at he
    subst he
    by_cases hxl : x ∈ a l
    · simpa [absStep, hxl] using hcl
    · simpa [absStep, hxl] using hcl.pushFront
  | remove l x => exact hcl.remove hr he
  | popFront l => cases he; exact hcl.popFront hr
  | reset l => exact Bool.noConfusion hres
  | addList l₁ l₂ => exact hcl.addList hr hc he

/-- **The free items stay clean along a run without `reset`**, together with the lists. -/
theorem clean_run (hr : Represents m a) (hcl : Clean m a) {cs : List (Call n)}
    (hc : AllowedRun a cs) (hres : ∀ c ∈ cs, c.isReset = false) :
    ∃ m', run m cs = some m' ∧ Represents m' (cs.foldl absStep a) ∧
      Clean m' (cs.foldl absStep a) := by
  induction cs generalizing m a with
  | nil => exact ⟨m, rfl, hr, hcl⟩
  | cons c cs ih =>
    obtain ⟨m₁, h₁, hr₁⟩ := represents_step hr hc.1
    obtain ⟨m', h', hr', hcl'⟩ := ih hr₁
      (clean_step hr hcl hc.1 (hres c (List.mem_cons_self _ _)) h₁) hc.2
      fun d hd => hres d (List.mem_cons_of_mem _ hd)
    exact ⟨m', by simp [run, h₁, h'], hr', hcl'⟩

end Detached

/-- **Items taken off a list point nowhere**: along every allowed run without `reset` from a
heap whose head variables and `m_next` fields are all null, every item on no list has a null
`m_next`. So `List::reset(item)` of such an item makes any list hold that one item, and
`push_front` of it followed by `pop_front` leaves the heap as it was. (`reset()` drops a whole
list without clearing its items' `m_next`, which then still point at each other.) -/
theorem run_free_next_null (m : Mem n) (hm : ∀ l, m.head l = none) (hn : ∀ x, m.next x = none)
    (cs : List (Call n)) (hcs : AllowedRun (fun _ => []) cs) (hres : ∀ c ∈ cs, c.isReset = false) :
    ∃ m', run m cs = some m' ∧ ∀ x, Free (absRun cs) x → m'.next x = none ∧
      ∀ l, ListAt (reset m' l (some x)).next ((reset m' l (some x)).head l) [x] ∧
        popFront (pushFront m' l x) l = (m', some x) := by
  obtain ⟨m', hrun, -, hcl⟩ := clean_run (represents_empty hm) (fun x _ => hn x) hcs hres
  exact ⟨m', hrun, fun x hx => ⟨hcl x hx, fun l =>
    ⟨by simp [Update.reset, hcl x hx], popFront_pushFront (hcl x hx)⟩⟩⟩

theorem run_free_next_null_demo :
    ((∀ l, blank.head l = none) ∧ (∀ x, blank.next x = none) ∧ AllowedRun (fun _ => []) demoRun ∧
      ∀ c ∈ demoRun, c.isReset = false) ∧
      ∃ m', run blank demoRun = some m' ∧ ∀ x, Free (absRun demoRun) x → m'.next x = none ∧
        ∀ l, ListAt (reset m' l (some x)).next ((reset m' l (some x)).head l) [x] ∧
          popFront (pushFront m' l x) l = (m', some x) :=
  ⟨⟨fun _ => rfl, fun _ => rfl, demoRun_allowed, by decide⟩,
    run_free_next_null blank (fun _ => rfl) (fun _ => rfl) demoRun demoRun_allowed (by decide)⟩

/-! ### Outside the discipline -/

/-- **`add` of an item already on the list closes a cycle**: the item's `m_next` now points
at the old head, from which the walk comes round to the item again and never ends, and
`has_loop` reports it. This is what `add_safe` guards against. -/
theorem add_present_loops {m : Mem n} {l : ℕ} {x : Fin n} {xs : List (Fin n)}
    (h : ListAt m.next (m.head l) xs) (hx : x ∈ xs) :
    hasLoop (add m l x) ((add m l x).head l) = some true := by
  obtain ⟨as, bs, rfl⟩ := List.append_of_mem hx
  obtain ⟨_, has, hq⟩ := Path.append_iff.mp h
  obtain ⟨rfl, -⟩ := Path.cons_iff.mp hq
  have hxa : x ∉ as := ListAt.not_mem_front h
  have hcyc : Path (add m l x).next (some x) (x :: as) (some x) :=
    .cons (by simpa [add, pushFront] using has.update hxa (m.head l))
  have hhead : (add m l x).head l = some x := by simp [add, pushFront]
  refine hasLoop_of_walk_ne_none _ fun k => ?_
  rw [hhead]
  exact walk_ne_none_of_eq (a := 0) (d := (x :: as).length) (List.length_pos.mpr (by simp))
    (by rw [Nat.zero_add, Path.walk_length hcyc]; rfl) (by simp) k

/-- Head variable `0` of `demo` holds `0, 2, 1`: adding `2` again makes it loop. -/
theorem add_present_loops_demo :
    (2 : Fin 4) ∈ ([0, 2, 1] : List (Fin 4)) ∧
      hasLoop (add demo 0 2) ((add demo 0 2).head 0) = some true :=
  ⟨by decide, add_present_loops demo_listAt_zero (by decide)⟩

/-- **`remove` from a list that does not hold the item cuts the list that does**: `remove`
clears the item's `m_next` whether or not it found the item, so another list holding it now ends
at the item and has lost the items after it. Hence the rule that the item be on the target list
or on none. -/
theorem remove_other_truncates {m : Mem n} {l₁ l₂ : ℕ} {x : Fin n} {xs as bs : List (Fin n)}
    (h₁ : ListAt m.next (m.head l₁) xs) (hx : x ∉ xs)
    (h₂ : ListAt m.next (m.head l₂) (as ++ x :: bs)) :
    ∃ m', remove m l₁ x = some m' ∧ ListAt m'.next (m'.head l₂) (as ++ [x]) := by
  refine ⟨_, remove_absent h₁ hx, ?_⟩
  obtain ⟨_, has, hq⟩ := Path.append_iff.mp h₂
  obtain ⟨rfl, -⟩ := Path.cons_iff.mp hq
  exact Path.snoc_iff.mpr ⟨by simpa using has.update (ListAt.not_mem_front h₂) none, by simp⟩

/-- Removing `2` through head variable `1` of `demo`, which holds only `3`, cuts list `0`
after `2`: item `1` is lost. -/
theorem remove_other_truncates_demo :
    (2 : Fin 4) ∉ ([3] : List (Fin 4)) ∧
      ∃ m', remove demo 1 2 = some m' ∧ ListAt m'.next (m'.head 0) ([0] ++ [2]) :=
  ⟨by decide, remove_other_truncates demo_listAt_one (by decide)
    (show ListAt _ _ ([0] ++ 2 :: [1]) from demo_listAt_zero)⟩

/-- **`add_safe` of an item held on another list splices that list into this one**: `add_safe`
searches only its own list, so it pushes the item to the front, and the other list now runs
through the item into the items of this one. -/
theorem addSafe_other_merges {m : Mem n} {l₁ l₂ : ℕ} {x : Fin n} {xs as bs : List (Fin n)}
    (hl : l₁ ≠ l₂) (h₁ : ListAt m.next (m.head l₁) xs) (hx : x ∉ xs)
    (h₂ : ListAt m.next (m.head l₂) (as ++ x :: bs)) :
    ∃ m', addSafe m l₁ x = some m' ∧ ListAt m'.next (m'.head l₁) (x :: xs) ∧
      ListAt m'.next (m'.head l₂) (as ++ x :: xs) := by
  refine ⟨_, by rw [addSafe_eq h₁, if_neg hx], pushFront_listAt h₁ hx, ?_⟩
  obtain ⟨_, has, hq⟩ := Path.append_iff.mp h₂
  obtain ⟨rfl, -⟩ := Path.cons_iff.mp hq
  have hhead : (pushFront m l₁ x).head l₁ = some x := by simp [pushFront]
  refine Path.append_iff.mpr ⟨some x, ?_, hhead ▸ pushFront_listAt h₁ hx⟩
  simpa [pushFront, Function.update_noteq hl.symm] using has.update (ListAt.not_mem_front h₂) _

/-- Adding `2` safely to head variable `1` of `demo`, which holds only `3`: list `0`, which held
`0, 2, 1`, now runs `0, 2, 3` and has lost `1`. -/
theorem addSafe_other_merges_demo :
    (1 : ℕ) ≠ 0 ∧ (2 : Fin 4) ∉ ([3] : List (Fin 4)) ∧
      ∃ m', addSafe demo 1 2 = some m' ∧ ListAt m'.next (m'.head 1) [2, 3] ∧
        ListAt m'.next (m'.head 0) ([0] ++ [2, 3]) :=
  ⟨by decide, by decide, addSafe_other_merges (by decide) demo_listAt_one (by decide)
    (show ListAt _ _ ([0] ++ 2 :: [1]) from demo_listAt_zero)⟩

/-- **`push_back` of an item already on the list cuts the list after it**: the link that ended
the list now points at the item, whose `m_next` is then cleared, so the list ends at the item and
the items after it are lost (none are if it was the last). -/
theorem pushBack_present_truncates {m : Mem n} {l : ℕ} {x : Fin n} {as bs : List (Fin n)}
    (h : ListAt m.next (m.head l) (as ++ x :: bs)) :
    ∃ m', pushBack m l x = some m' ∧ ListAt m'.next (m'.head l) (as ++ [x]) := by
  obtain ⟨ys, z, e⟩ := (List.eq_nil_or_concat (x :: bs)).resolve_left (List.cons_ne_nil _ _)
  rw [List.concat_eq_append] at e
  have hz : z ∉ as := fun hz => List.disjoint_of_nodup_append
    (by rw [List.append_assoc, ← e]; exact ListAt.nodup h) (List.mem_append_left ys hz)
      (List.mem_singleton_self z)
  have hf := findPtr_null (show ListAt m.next (m.read (.head l)) (as ++ x :: bs) from h)
  rw [e, ← List.append_assoc, lastLink_snoc] at hf
  obtain ⟨_, has, hq⟩ := Path.append_iff.mp h
  obtain ⟨rfl, -⟩ := Path.cons_iff.mp hq
  refine ⟨(m.setNext z (some x)).setNext x none, by simp [pushBack, hf],
    Path.snoc_iff.mpr ⟨?_, by simp⟩⟩
  simpa using (has.update hz (some x)).update (ListAt.not_mem_front h) none

/-- Head variable `0` of `demo` holds `0, 2, 1`: pushing `2` to the back again loses `1`. -/
theorem pushBack_present_truncates_demo :
    ListAt demo.next (demo.head 0) ([0] ++ 2 :: [1]) ∧
      ∃ m', pushBack demo 0 2 = some m' ∧ ListAt m'.next (m'.head 0) ([0] ++ [2]) :=
  ⟨demo_listAt_zero, pushBack_present_truncates demo_listAt_zero⟩

/-- **`insert_after` of an item that already follows the anchor closes a cycle**: the item takes
the anchor's old successor, which leads back to the item, and the anchor now points at it; the
walk from the head never ends and `has_loop` reports it. -/
theorem insertAfter_later_loops {m : Mem n} {l : ℕ} {w x : Fin n} {as cs ds : List (Fin n)}
    (h : ListAt m.next (m.head l) (as ++ w :: (cs ++ x :: ds))) :
    hasLoop (insertAfter m (some w) (some x)) ((insertAfter m (some w) (some x)).head l) =
      some true := by
  have hwa : w ∉ as := ListAt.not_mem_front h
  obtain ⟨hxa, hwx, hxc⟩ : x ∉ as ∧ x ≠ w ∧ x ∉ cs := by
    simpa [not_or] using ListAt.not_mem_front
      (show ListAt m.next (m.head l) ((as ++ w :: cs) ++ x :: ds) by simpa using h)
  obtain ⟨_, has, hq⟩ := Path.append_iff.mp h
  have hwc : w ∉ cs := fun hc => (List.nodup_cons.mp (ListAt.nodup hq)).1 (by simp [hc])
  obtain ⟨rfl, hwq⟩ := Path.cons_iff.mp hq
  obtain ⟨_, hcs, hxq⟩ := Path.append_iff.mp hwq
  obtain ⟨rfl, -⟩ := Path.cons_iff.mp hxq
  -- the head reaches `x` past `as` and `w`, and `x` comes back to itself past `cs`
  have hpre : Path (insertAfter m (some w) (some x)).next
      ((insertAfter m (some w) (some x)).head l) (as ++ [w]) (some x) :=
    Path.snoc_iff.mpr ⟨by simpa [insertAfter] using (has.update hxa _).update hwa (some x),
      by simp [insertAfter]⟩
  have hcyc : Path (insertAfter m (some w) (some x)).next (some x) (x :: cs) (some x) :=
    .cons (by simpa [insertAfter, Function.update_noteq hwx] using
      (hcs.update hxc (m.next w)).update hwc (some x))
  refine hasLoop_of_walk_ne_none _ fun k => ?_
  exact walk_ne_none_of_eq (a := (as ++ [w]).length) (d := (x :: cs).length) (by simp)
    (by rw [walk_add, Path.walk_length hpre, Path.walk_length hcyc])
    (by rw [Path.walk_length hpre]; simp) k

/-- Head variable `0` of `demo` holds `0, 2, 1`: inserting `1` again after `0` makes it loop. -/
theorem insertAfter_later_loops_demo :
    ListAt demo.next (demo.head 0) ([] ++ 0 :: ([2] ++ 1 :: [])) ∧
      hasLoop (insertAfter demo (some 0) (some 1))
        ((insertAfter demo (some 0) (some 1)).head 0) = some true :=
  have h : ListAt demo.next (demo.head 0) ([] ++ 0 :: ([2] ++ 1 :: [])) := demo_listAt_zero
  ⟨h, insertAfter_later_loops h⟩

end SatCat5Proofs.ListCore.Lists
