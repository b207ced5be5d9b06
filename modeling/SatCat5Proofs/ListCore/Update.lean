import SatCat5Proofs.ListCore.Walk

/-! # Intrusive lists: the routines that relink

`push_front` (and `add`), `pop_front`, `push_back`, `remove`, `insert_after`, `add_safe`,
`add_list` and `List::reset`. Items passed by pointer are never null here: the routines
dereference them (`insert_after` alone tests its arguments). A routine that loops returns
`none` when its walk runs out of fuel, or when it would write through a null `T**`.

Each routine has one lemma saying what it does to the list it is given (`pushFront_listAt`,
`popFront_of_head`, `pushBack_listAt`, `remove_found`, `remove_absent`, `insertAfter_listAt`,
`addListLoop_listAt`) and which links it writes (an `Unchanged` frame); the frame is what keeps
every other list intact. -/

namespace SatCat5Proofs.ListCore.Update

open SatCat5Proofs.ListCore.Heap SatCat5Proofs.ListCore.Walk

variable {n : ℕ}

/-- **`ListCore::push_front`**: `item->m_next = list; list = item;`. -/
def pushFront (m : Mem n) (list : ℕ) (item : Fin n) : Mem n :=
  (m.setNext item (m.head list)).setHead list (some item)

/-- **`ListCore::add`**: add to the front. -/
def add (m : Mem n) (list : ℕ) (item : Fin n) : Mem n := pushFront m list item

/-- **`ListCore::pop_front`**: unlink the head item, clear its `m_next` and return it. -/
def popFront (m : Mem n) (list : ℕ) : Mem n × Ptr n :=
  match m.head list with
  | none => (m, none)
  | some item => ((m.setHead list (m.next item)).setNext item none, some item)

/-- **`ListCore::push_back`**: write the item into the link `find_ptr(&list, 0)` returns. -/
def pushBack (m : Mem n) (list : ℕ) (item : Fin n) : Option (Mem n) :=
  match findPtr m (.head list) none with
  | some (some ptr) => some ((m.write ptr (some item)).setNext item none)
  | _ => none

/-- **`ListCore::remove`**: bypass the item if `find_ptr` finds it, then clear its `m_next`. -/
def remove (m : Mem n) (list : ℕ) (item : Fin n) : Option (Mem n) :=
  (findPtr m (.head list) (some item)).map fun ptr =>
    (match ptr with
      | some ℓ => m.write ℓ (m.next item)
      | none => m).setNext item none

/-- **`ListCore::insert_after`**; `wh` is the source's `where`. -/
def insertAfter (m : Mem n) (wh item : Ptr n) : Mem n :=
  match wh, item with
  | some w, some i => (m.setNext i (m.next w)).setNext w (some i)
  | _, _ => m

/-- **`ListCore::add_safe`**: add the item unless `contains` finds it. -/
def addSafe (m : Mem n) (list : ℕ) (item : Fin n) : Option (Mem n) :=
  (contains m (m.head list) (some item)).map fun c => if !c then add m list item else m

/-- The loop of `ListCore::add_list`: pop from `list2`, add to `list1`, until `list2` is empty. -/
def addListLoop (list1 list2 : ℕ) : ℕ → Mem n → Option (Mem n)
  | 0, _ => none
  | fuel + 1, m =>
    match popFront m list2 with
    | (m', none) => some m'
    | (m', some item) => addListLoop list1 list2 fuel (add m' list1 item)

/-- **`ListCore::add_list`**: move every item of `list2` onto `list1`. -/
def addList (m : Mem n) (list1 list2 : ℕ) : Option (Mem n) :=
  addListLoop list1 list2 (n + 1) m

/-- **`List::reset`**: `m_head = item`. -/
def reset (m : Mem n) (list : ℕ) (item : Ptr n) : Mem n := m.setHead list item

variable {m : Mem n} {l l₁ l₂ : ℕ} {x y w : Fin n} {xs ys as bs : List (Fin n)}

/-- The link that ends a list hung from a head variable: that variable, or an item's `m_next`. -/
theorem lastLink_head_cases (as : List (Fin n)) :
    lastLink (.head l) as = .head l ∨ ∃ z ∈ as, lastLink (.head l) as = .next z := by
  rcases List.eq_nil_or_concat as with rfl | ⟨bs, z, rfl⟩
  · exact .inl rfl
  · exact .inr ⟨z, by simp, by rw [List.concat_eq_append, lastLink_snoc]⟩

/-- Redirecting the link that ends a path from a head variable moves the path's end. -/
theorem path_write_lastLink {q : Ptr n} (h : Path m.next (m.head l) xs q) (hd : xs.Nodup)
    (v : Ptr n) : Path (m.write (lastLink (.head l) xs) v).next
      ((m.write (lastLink (.head l) xs) v).head l) xs v := by
  rcases List.eq_nil_or_concat xs with rfl | ⟨as, z, rfl⟩
  · simp
  · rw [List.concat_eq_append] at h hd ⊢
    have hz : z ∉ as := fun hz => (List.nodup_append.mp hd).2.2 hz (List.mem_singleton_self z)
    simpa using h.retarget hz v

/-! ### `push_front`, `pop_front` -/

theorem pushFront_listAt (h : ListAt m.next (m.head l) xs) (hx : x ∉ xs) :
    ListAt (pushFront m l x).next ((pushFront m l x).head l) (x :: xs) := by
  refine Path.cons_iff.mpr ⟨by simp [pushFront], ?_⟩
  simpa [pushFront] using h.update hx (m.head l)

theorem pushFront_unchanged : Unchanged [.next x, .head l] m (pushFront m l x) :=
  (Unchanged.write m (.next x) _).trans (Unchanged.write _ (.head l) _)

theorem popFront_of_head (h : ListAt m.next (m.head l) (y :: ys)) :
    (popFront m l).2 = some y ∧ ListAt (popFront m l).1.next ((popFront m l).1.head l) ys ∧
      (popFront m l).1.next y = none ∧ Unchanged [.head l, .next y] m (popFront m l).1 := by
  obtain ⟨hy, ht⟩ := Path.cons_iff.mp h
  have hys : y ∉ ys := (List.nodup_cons.mp (ListAt.nodup h)).1
  have e : popFront m l = ((m.setHead l (m.next y)).setNext y none, some y) := by
    simp [popFront, hy]
  rw [e]
  refine ⟨rfl, by simpa using ht.update hys none, by simp, ?_⟩
  exact (Unchanged.write m (.head l) _).trans (Unchanged.write _ (.next y) _)

theorem popFront_of_empty (h : m.head l = none) : popFront m l = (m, none) := by
  simp [popFront, h]

/-! ### `push_back` -/

/-- **`push_back` on a list**: the item becomes the new tail, and only the link that ended the
list and the item's own `m_next` are written. -/
theorem pushBack_listAt (h : ListAt m.next (m.head l) xs) (hx : x ∉ xs) :
    ∃ m', pushBack m l x = some m' ∧ ListAt m'.next (m'.head l) (xs ++ [x]) ∧
      m'.next x = none ∧ Unchanged [lastLink (.head l) xs, .next x] m m' := by
  have hf := findPtr_null (show ListAt m.next (m.read (.head l)) xs from h)
  refine ⟨(m.write (lastLink (.head l) xs) (some x)).setNext x none, by simp [pushBack, hf],
    Path.snoc_iff.mpr ⟨?_, by simp⟩, by simp,
    (Unchanged.write m _ _).trans (Unchanged.write _ (.next x) _)⟩
  exact (path_write_lastLink h (ListAt.nodup h) (some x)).update hx none

/-- **`push_back` on a list, the empty list included**: the item becomes the tail, with a null
`m_next`, and no link changes but the one that ended the list (the head variable of an empty
list, else the old tail's `m_next`) and the item's own. -/
theorem pushBack_correct (h : ListAt m.next (m.head l) xs) (hx : x ∉ xs) :
    ∃ m', pushBack m l x = some m' ∧ ListAt m'.next (m'.head l) (xs ++ [x]) ∧ m'.next x = none ∧
      ∀ ℓ, ℓ ≠ lastLink (.head l) xs → ℓ ≠ .next x → m'.read ℓ = m.read ℓ := by
  obtain ⟨m', hm', hl, hn, hU⟩ := pushBack_listAt h hx
  exact ⟨m', hm', hl, hn, fun ℓ h₁ h₂ => hU ℓ (by simp [h₁, h₂])⟩

theorem pushBack_correct_demo :
    (ListAt demo.next (demo.head 0) [0, 2, 1] ∧ (3 : Fin 4) ∉ ([0, 2, 1] : List (Fin 4))) ∧
      ∃ m', pushBack demo 0 3 = some m' ∧ ListAt m'.next (m'.head 0) ([0, 2, 1] ++ [3]) ∧
        m'.next 3 = none ∧ ∀ ℓ, ℓ ≠ lastLink (.head 0) ([0, 2, 1] : List (Fin 4)) → ℓ ≠ .next 3 →
          m'.read ℓ = demo.read ℓ :=
  ⟨⟨demo_listAt_zero, by decide⟩, pushBack_correct demo_listAt_zero (by decide)⟩

/-! ### `remove` -/

/-- **`remove` of an item of the list**: its predecessor's link is bypassed. -/
theorem remove_found (h : ListAt m.next (m.head l) (as ++ x :: bs)) :
    ∃ m', remove m l x = some m' ∧ ListAt m'.next (m'.head l) (as ++ bs) ∧
      m'.next x = none ∧ Unchanged [lastLink (.head l) as, .next x] m m' := by
  have hf := findPtr_found (show ListAt m.next (m.read (.head l)) (as ++ x :: bs) from h)
  have hd := ListAt.nodup h
  obtain ⟨q, hq, hb⟩ := Path.append_iff.mp h
  obtain ⟨rfl, hbs⟩ := Path.cons_iff.mp hb
  have hU := (Unchanged.write m (lastLink (.head l) as) (m.next x)).trans
    (Unchanged.write _ (.next x) none)
  refine ⟨(m.write (lastLink (.head l) as) (m.next x)).setNext x none, by simp [remove, hf],
    Path.append_iff.mpr ⟨m.next x, ?_, ?_⟩, by simp, hU⟩
  · exact (path_write_lastLink hq (List.nodup_append.mp hd).1 _).update
      (ListAt.not_mem_front h) none
  · refine hU.path (fun z hz => ?_) hbs
    have hza : z ∉ as := fun hza => (List.nodup_append.mp hd).2.2 hza (List.mem_cons_of_mem _ hz)
    have hzx : z ≠ x := fun e => (List.nodup_cons.mp (List.nodup_append.mp hd).2.1).1 (e ▸ hz)
    rcases lastLink_head_cases (l := l) as with e | ⟨z', hz', e⟩
    · simp [e, hzx]
    · simp [e, hzx, show z ≠ z' from fun e' => hza (e' ▸ hz')]

/-- **`remove` of an item off the list**: only the item's `m_next` is cleared. -/
theorem remove_absent (h : ListAt m.next (m.head l) xs) (hx : x ∉ xs) :
    remove m l x = some (m.setNext x none) := by
  simp [remove, findPtr_absent (show ListAt m.next (m.read (.head l)) xs from h) hx]

/-- **`remove` on a list**: the item leaves it, every other item keeps its place, the item's
`m_next` is cleared; an item off the list leaves every link of the list as it was. Removing an
item just pushed to the front gives the list back. -/
theorem remove_correct (h : ListAt m.next (m.head l) xs) (x : Fin n) :
    (∃ m', remove m l x = some m' ∧ ListAt m'.next (m'.head l) (xs.erase x) ∧ m'.next x = none ∧
      (x ∉ xs → m' = m.setNext x none)) ∧
    (x ∉ xs → ∃ m', remove (pushFront m l x) l x = some m' ∧ m'.head l = m.head l ∧
      ListAt m'.next (m'.head l) xs) := by
  refine ⟨?_, fun hx => ?_⟩
  · by_cases hx : x ∈ xs
    · obtain ⟨as, bs, rfl⟩ := List.append_of_mem hx
      have hxa : x ∉ as := ListAt.not_mem_front h
      obtain ⟨m', hm', hl, hn, -⟩ := remove_found h
      refine ⟨m', hm', ?_, hn, fun h' => absurd hx h'⟩
      rwa [List.erase_append_right _ hxa, List.erase_cons_head]
    · refine ⟨_, remove_absent h hx, ?_, by simp, fun _ => rfl⟩
      rw [List.erase_of_not_mem hx]
      simpa using h.update hx none
  · obtain ⟨m', hm', hl, -⟩ :=
      remove_found (show ListAt _ _ ([] ++ x :: xs) from pushFront_listAt h hx)
    rw [List.nil_append] at hl
    exact ⟨m', hm', (ListAt.head_eq hl).trans (ListAt.head_eq h).symm, hl⟩

theorem remove_correct_demo :
    ListAt demo.next (demo.head 0) [0, 2, 1] ∧
      (∃ m', remove demo 0 2 = some m' ∧
        ListAt m'.next (m'.head 0) (([0, 2, 1] : List (Fin 4)).erase 2) ∧ m'.next 2 = none ∧
        ((2 : Fin 4) ∉ ([0, 2, 1] : List (Fin 4)) → m' = demo.setNext 2 none)) ∧
      ((2 : Fin 4) ∉ ([0, 2, 1] : List (Fin 4)) → ∃ m', remove (pushFront demo 0 2) 0 2 = some m' ∧
        m'.head 0 = demo.head 0 ∧ ListAt m'.next (m'.head 0) [0, 2, 1]) :=
  ⟨demo_listAt_zero, remove_correct demo_listAt_zero 2⟩

/-! ### `insert_after` -/

/-- **`insert_after` on a list**: an item off the list goes in right after the anchor, and only
the two `m_next` fields are written. -/
theorem insertAfter_listAt (h : ListAt m.next (m.head l) (as ++ w :: bs))
    (hx : x ∉ as ++ w :: bs) :
    ListAt (insertAfter m (some w) (some x)).next ((insertAfter m (some w) (some x)).head l)
      (as ++ w :: x :: bs) ∧
      Unchanged [.next x, .next w] m (insertAfter m (some w) (some x)) := by
  have hU : Unchanged [.next x, .next w] m (insertAfter m (some w) (some x)) :=
    (Unchanged.write m (.next x) _).trans (Unchanged.write _ (.next w) _)
  have hd := ListAt.nodup h
  have hxw : x ≠ w := fun e => hx (e ▸ List.mem_append_right _ (List.mem_cons_self _ _))
  obtain ⟨q, hq, hb⟩ := Path.append_iff.mp h
  obtain ⟨rfl, hbs⟩ := Path.cons_iff.mp hb
  refine ⟨Path.append_iff.mpr ⟨some w, hU.path (fun z hz => ?_) hq, ?_⟩, hU⟩
  · have hzw : z ≠ w := fun e => (List.nodup_append.mp hd).2.2 hz (e ▸ List.mem_cons_self _ _)
    have hzx : z ≠ x := fun e => hx (e ▸ List.mem_append_left _ hz)
    simp [hzw, hzx]
  · have e : (insertAfter m (some w) (some x)).next x = m.next w := by simp [insertAfter, hxw]
    refine Path.cons
      (Path.cons_iff.mpr ⟨by simp [insertAfter], e ▸ hU.path (fun z hz => ?_) hbs⟩)
    have hzw : z ≠ w := fun e => (List.nodup_cons.mp (List.nodup_append.mp hd).2.1).1 (e ▸ hz)
    have hzx : z ≠ x := fun e => hx (e ▸ List.mem_append_right _ (List.mem_cons_of_mem _ hz))
    simp [hzw, hzx]

/-! ### `add_safe` -/

theorem addSafe_eq (h : ListAt m.next (m.head l) xs) (x : Fin n) :
    addSafe m l x = some (if x ∈ xs then m else pushFront m l x) := by
  have hc : contains m (m.head l) (some x) = some (decide (∃ y ∈ xs, some y = some x)) :=
    containsLoop_eq h (Nat.lt_succ_of_le (ListAt.length_le h))
  by_cases hx : x ∈ xs <;> simp [addSafe, hc, hx, add]

/-- **`add_safe` on a list**: an item already there leaves the list as it was, any other is
pushed to the front; so it is idempotent and the list stays free of cycles and repeats. -/
theorem addSafe_correct (h : ListAt m.next (m.head l) xs) (x : Fin n) :
    ∃ m', addSafe m l x = some m' ∧ (x ∈ xs → m' = m) ∧
      ListAt m'.next (m'.head l) (if x ∈ xs then xs else x :: xs) ∧
      (if x ∈ xs then xs else x :: xs).Nodup ∧
      (addSafe m l x).bind (fun m' => addSafe m' l x) = addSafe m l x := by
  have hl : ListAt (if x ∈ xs then m else pushFront m l x).next
      ((if x ∈ xs then m else pushFront m l x).head l) (if x ∈ xs then xs else x :: xs) := by
    by_cases hx : x ∈ xs
    · simpa [hx] using h
    · simpa [hx] using pushFront_listAt h hx
  refine ⟨_, addSafe_eq h x, fun hx => if_pos hx, hl, ListAt.nodup hl, ?_⟩
  rw [addSafe_eq h x, Option.some_bind, addSafe_eq hl x]
  by_cases hx : x ∈ xs <;> simp [hx]

theorem addSafe_correct_demo :
    ListAt demo.next (demo.head 0) [0, 2, 1] ∧
      ∃ m', addSafe demo 0 2 = some m' ∧ ((2 : Fin 4) ∈ ([0, 2, 1] : List (Fin 4)) → m' = demo) ∧
        ListAt m'.next (m'.head 0) (if (2 : Fin 4) ∈ ([0, 2, 1] : List (Fin 4)) then [0, 2, 1] else
          2 :: [0, 2, 1]) ∧
        (if (2 : Fin 4) ∈ ([0, 2, 1] : List (Fin 4)) then ([0, 2, 1] : List (Fin 4)) else
          2 :: [0, 2, 1]).Nodup ∧
        (addSafe demo 0 2).bind (fun m' => addSafe m' 0 2) = addSafe demo 0 2 :=
  ⟨demo_listAt_zero, addSafe_correct demo_listAt_zero 2⟩

/-! ### `add_list` -/

/-- **The loop of `add_list`**, by induction on the items left in `list2`: with fuel beyond their
number it empties `list2` onto the front of `list1`, one item at a time, so in reverse order. -/
theorem addListLoop_listAt (hne : l₁ ≠ l₂) :
    ∀ (xs₂ xs₁ : List (Fin n)) (m : Mem n) (fuel : ℕ),
    ListAt m.next (m.head l₁) xs₁ → ListAt m.next (m.head l₂) xs₂ →
    xs₁.Disjoint xs₂ → xs₂.length < fuel →
    ∃ m', addListLoop l₁ l₂ fuel m = some m' ∧ m'.head l₂ = none ∧
      ListAt m'.next (m'.head l₁) (xs₂.reverse ++ xs₁) ∧
      Unchanged (.head l₁ :: .head l₂ :: xs₂.map .next) m m'
  | [], xs₁, m, fuel + 1, h₁, h₂, _, _ => by
    have e : m.head l₂ = none := Path.nil_iff.mp h₂
    exact ⟨m, by simp [addListLoop, popFront_of_empty e], e, h₁, Unchanged.rfl _ _⟩
  | y :: ys, xs₁, m, fuel + 1, h₁, h₂, hd, hf => by
    obtain ⟨hp, hl₂, hy, hU₁⟩ := popFront_of_head h₂
    set m₁ := (popFront m l₂).1
    have hys : y ∉ ys := (List.nodup_cons.mp (ListAt.nodup h₂)).1
    have hyx : y ∉ xs₁ := fun hy' => hd hy' (List.mem_cons_self _ _)
    have hl₁ : ListAt m₁.next (m₁.head l₁) xs₁ := hU₁.listAt (by simp [hne])
      (fun z hz => by simp [show z ≠ y from fun e => hyx (e ▸ hz)]) h₁
    have hU₂ := pushFront_unchanged (m := m₁) (x := y) (l := l₁)
    have hl₂' : ListAt (pushFront m₁ l₁ y).next ((pushFront m₁ l₁ y).head l₂) ys :=
      hU₂.listAt (by simp [Ne.symm hne])
        (fun z hz => by simp [show z ≠ y from fun e => hys (e ▸ hz)]) hl₂
    have hd' : (y :: xs₁).Disjoint ys := by
      intro z hz hz'
      rcases List.mem_cons.mp hz with rfl | hz
      · exact hys hz'
      · exact hd hz (List.mem_cons_of_mem _ hz')
    obtain ⟨m', hm', he, hl, hU₃⟩ :=
      addListLoop_listAt hne ys (y :: xs₁) (pushFront m₁ l₁ y) fuel
        (pushFront_listAt hl₁ hyx) hl₂' hd'
        (by simpa using hf)
    have e : popFront m l₂ = (m₁, some y) := Prod.ext rfl hp
    refine ⟨m', by simp only [addListLoop, e, add, hm'], he, by simpa using hl, ?_⟩
    refine ((hU₁.trans hU₂).trans hU₃).mono fun a ha => ?_
    simp only [List.map_cons, List.mem_append, List.mem_cons, List.mem_map, List.mem_singleton,
      List.mem_nil_iff, or_false] at ha ⊢
    rcases ha with ((h | h) | h | h) | h | h | h <;> simp only [h, true_or, or_true]

/-- **`add_list` of two lists in distinct head variables with no item in common**: the second
ends empty and the first holds the second's items, reversed, in front of its own; no item is
lost or repeated and the result has no cycle. -/
theorem addList_correct (hne : l₁ ≠ l₂) (h₁ : ListAt m.next (m.head l₁) xs)
    (h₂ : ListAt m.next (m.head l₂) ys) (hd : xs.Disjoint ys) :
    ∃ m', addList m l₁ l₂ = some m' ∧ m'.head l₂ = none ∧
      ListAt m'.next (m'.head l₁) (ys.reverse ++ xs) ∧ (ys.reverse ++ xs).Nodup := by
  obtain ⟨m', hm', he, hl, -⟩ :=
    addListLoop_listAt hne ys xs m (n + 1) h₁ h₂ hd (Nat.lt_succ_of_le (ListAt.length_le h₂))
  exact ⟨m', hm', he, hl, ListAt.nodup hl⟩

theorem addList_correct_demo :
    ((0 : ℕ) ≠ 1 ∧ ListAt demo.next (demo.head 0) [0, 2, 1] ∧ ListAt demo.next (demo.head 1) [3] ∧
      ([0, 2, 1] : List (Fin 4)).Disjoint [3]) ∧
      ∃ m', addList demo 0 1 = some m' ∧ m'.head 1 = none ∧
        ListAt m'.next (m'.head 0) (([3] : List (Fin 4)).reverse ++ [0, 2, 1]) ∧
        (([3] : List (Fin 4)).reverse ++ [0, 2, 1]).Nodup :=
  ⟨⟨by decide, demo_listAt_zero, demo_listAt_one, List.disjoint_singleton.mpr (by decide)⟩,
    addList_correct (by decide) demo_listAt_zero demo_listAt_one
      (List.disjoint_singleton.mpr (by decide))⟩

/-- `pop_front` followed by `add` of the popped item gives the heap back. -/
theorem add_popFront (hx : m.head l = some x) : add (popFront m l).1 l x = m := by
  obtain ⟨next, head⟩ := m
  dsimp only at hx
  have hh : Function.update head l (some x) = head := hx ▸ Function.update_eq_self _ _
  simp [add, pushFront, popFront, hx, Mem.setNext, Mem.setHead, hh]

/-- `push_front` followed by `pop_front` gives the heap back when the item's `m_next` was null. -/
theorem popFront_pushFront (hx : m.next x = none) :
    popFront (pushFront m l x) l = (m, some x) := by
  obtain ⟨next, head⟩ := m
  dsimp only at hx
  simp [pushFront, popFront, Mem.setNext, Mem.setHead, ← hx]

/-- **`add_list` of a list onto itself never returns** when the list is not empty: every
iteration pops the head item and pushes it straight back, which restores the heap, so `list2`
never empties and every budget of iterations runs out. -/
theorem addListLoop_self (hx : m.head l ≠ none) (fuel : ℕ) : addListLoop l l fuel m = none := by
  obtain ⟨x, hx⟩ := Option.ne_none_iff_exists'.mp hx
  induction fuel with
  | zero => rfl
  | succ fuel ih =>
    have e : popFront m l = ((popFront m l).1, some x) := Prod.ext rfl (by simp [popFront, hx])
    rw [addListLoop, e]
    simp only [add_popFront hx, ih]

theorem addListLoop_self_demo : demo.head 0 ≠ none ∧ ∀ fuel, addListLoop 0 0 fuel demo = none :=
  ⟨by decide, addListLoop_self (by decide)⟩

end SatCat5Proofs.ListCore.Update
