import Mathlib.Order.Lattice
import Mathlib.Data.Nat.Notation
import Mathlib.Tactic.SplitIfs
import Mathlib.Tactic.Cases

/-!
# Maps in key order

A `SortedMap` is a list of keys and values with strictly increasing keys: the map together with
the order in which its entries are visited.  `get?_insert` and `get?_erase` say what the two
updates do, `mem_toList` that the list and the lookup agree.
-/

namespace NovaChannel

/-- A map, in the order of its keys. -/
structure SortedMap (κ α : Type) [LinearOrder κ] where
  toList : List (κ × α)
  sorted : toList.Pairwise fun x y => x.1 < y.1

namespace SortedMap

variable {κ α : Type} [LinearOrder κ]

/-- The value at a key. -/
def get? (m : SortedMap κ α) (k : κ) : Option α := (m.toList.find? (·.1 = k)).map (·.2)

/-- The key has a value. -/
def contains (m : SortedMap κ α) (k : κ) : Bool := (m.get? k).isSome

/-- The map without entries. -/
def empty : SortedMap κ α := ⟨[], .nil⟩

/-- An entry put in its place. -/
def insertList (k : κ) (a : α) : List (κ × α) → List (κ × α)
  | [] => [(k, a)]
  | x :: xs =>
    if k < x.1 then (k, a) :: x :: xs
    else if x.1 < k then x :: insertList k a xs
    else (k, a) :: xs

theorem mem_insertList {k : κ} {a : α} {xs : List (κ × α)} {y : κ × α}
    (h : y ∈ insertList k a xs) : y = (k, a) ∨ y ∈ xs := by
  induction xs with
  | nil => exact .inl (List.mem_singleton.1 h)
  | cons x xs ih =>
    simp only [insertList] at h
    split_ifs at h with h1 h2
    · exact List.mem_cons.1 h
    · rcases List.mem_cons.1 h with rfl | h
      · exact .inr List.mem_cons_self
      · exact (ih h).imp_right (List.mem_cons_of_mem _)
    · exact (List.mem_cons.1 h).imp_right (List.mem_cons_of_mem _)

theorem sorted_insertList {k : κ} {a : α} {xs : List (κ × α)}
    (h : xs.Pairwise fun x y => x.1 < y.1) :
    (insertList k a xs).Pairwise fun x y => x.1 < y.1 := by
  induction xs with
  | nil => exact List.pairwise_singleton _ _
  | cons x xs ih =>
    obtain ⟨hx, hxs⟩ := List.pairwise_cons.1 h
    simp only [insertList]
    split_ifs with h1 h2
    · refine List.pairwise_cons.2 ⟨fun y hy => ?_, h⟩
      rcases List.mem_cons.1 hy with rfl | hy
      · exact h1
      · exact lt_trans h1 (hx y hy)
    · refine List.pairwise_cons.2 ⟨fun y hy => ?_, ih hxs⟩
      rcases mem_insertList hy with rfl | hy
      · exact h2
      · exact hx y hy
    · obtain rfl : x.1 = k := le_antisymm (not_lt.1 h1) (not_lt.1 h2)
      exact List.pairwise_cons.2 ⟨hx, hxs⟩

/-- `insert`. -/
def insert (m : SortedMap κ α) (k : κ) (a : α) : SortedMap κ α :=
  ⟨insertList k a m.toList, sorted_insertList m.sorted⟩

/-- `remove`. -/
def erase (m : SortedMap κ α) (k : κ) : SortedMap κ α :=
  ⟨m.toList.filter (·.1 ≠ k), m.sorted.filter _⟩

variable {m : SortedMap κ α} {k k' : κ} {a b : α}

theorem mem_toList : (k, a) ∈ m.toList ↔ m.get? k = some a := by
  obtain ⟨xs, hsorted⟩ := m
  simp only [get?]
  induction xs with
  | nil => simp
  | cons x xs ih =>
    obtain ⟨hx, hxs⟩ := List.pairwise_cons.1 hsorted
    rw [List.mem_cons, List.find?_cons]
    by_cases hk : x.1 = k
    · subst hk
      have hnot : (x.1, a) ∉ xs := fun h => lt_irrefl x.1 (hx (x.1, a) h)
      simp only [decide_true, Option.map_some, Option.some.injEq, hnot, or_false]
      exact ⟨fun h => h ▸ rfl, fun h => h ▸ rfl⟩
    · have hne : (k, a) ≠ x := fun h => hk (h ▸ rfl)
      simp only [hk, decide_false, hne, false_or]
      exact ih hxs

@[simp] theorem get?_empty : (empty : SortedMap κ α).get? k = none := rfl

theorem get?_insert : (m.insert k a).get? k' = if k' = k then some a else m.get? k' := by
  have hself : (k, a) ∈ insertList k a m.toList := by
    generalize m.toList = xs
    induction xs with
    | nil => exact List.mem_singleton.2 rfl
    | cons x xs ih =>
      simp only [insertList]
      split_ifs
      · exact List.mem_cons_self
      · exact List.mem_cons_of_mem _ ih
      · exact List.mem_cons_self
  have hother : ∀ y : κ × α, y.1 ≠ k → (y ∈ insertList k a m.toList ↔ y ∈ m.toList) := by
    intro y hy
    have hne : y ≠ (k, a) := fun h => hy (h ▸ rfl)
    generalize m.toList = xs
    induction xs with
    | nil => simp [insertList, hne]
    | cons x xs ih =>
      simp only [insertList]
      split_ifs with h1 h2
      · simp [hne]
      · simp [ih]
      · obtain rfl : x.1 = k := le_antisymm (not_lt.1 h1) (not_lt.1 h2)
        have hnex : y ≠ x := fun h => hy (h ▸ rfl)
        simp [hne, hnex]
  split_ifs with hk
  · rw [hk]
    exact mem_toList.1 hself
  · refine Option.ext fun b => ?_
    rw [← mem_toList, ← mem_toList]
    exact hother (k', b) hk

theorem get?_erase : (m.erase k).get? k' = if k' = k then none else m.get? k' := by
  split_ifs with hk
  · rw [hk, Option.eq_none_iff_forall_ne_some]
    intro b hb
    have := (List.mem_filter.1 (mem_toList.2 hb)).2
    simp at this
  · refine Option.ext fun b => ?_
    rw [← mem_toList, ← mem_toList]
    exact ⟨fun h => (List.mem_filter.1 h).1, fun h => List.mem_filter.2 ⟨h, by simpa using hk⟩⟩

/-- `collect`: entries inserted one after the other. -/
def collect (xs : List (κ × α)) : SortedMap κ α := xs.foldl (fun m x => m.insert x.1 x.2) empty

/-- A map collected from entries with different keys has just these. -/
theorem get?_collect {xs : List (κ × α)} (hnd : (xs.map (·.1)).Nodup) :
    (collect xs).get? k = some a ↔ (k, a) ∈ xs := by
  have hgeneral : ∀ (xs : List (κ × α)) (m : SortedMap κ α), (xs.map (·.1)).Nodup →
      ((xs.foldl (fun m x => m.insert x.1 x.2) m).get? k = some a ↔
        (k, a) ∈ xs ∨ k ∉ xs.map (·.1) ∧ m.get? k = some a) := by
    intro xs
    induction xs with
    | nil => simp
    | cons x xs ih =>
      intro m hnd
      obtain ⟨hx, hnd⟩ := List.nodup_cons.1 hnd
      rw [List.foldl_cons, ih _ hnd, get?_insert, List.map_cons, List.mem_cons, List.mem_cons]
      by_cases hk : k = x.1
      · subst hk
        have hnot : (x.1, a) ∉ xs := fun h => hx (List.mem_map.2 ⟨_, h, rfl⟩)
        simp [hx, hnot, Prod.ext_iff, eq_comm]
      · have hne : (k, a) ≠ x := fun h => hk (h ▸ rfl)
        simp [hk, hne]
  rw [collect, hgeneral xs empty hnd]
  simp

theorem nodup_keys (m : SortedMap κ α) : (m.toList.map (·.1)).Nodup :=
  List.pairwise_map.2 (m.sorted.imp fun h => ne_of_lt h)

/-- Collecting puts entries with different keys in order. -/
theorem perm_collect {xs : List (κ × α)} (hnd : (xs.map (·.1)).Nodup) :
    (collect xs).toList.Perm xs := by
  have hentries : ∀ {ys : List (κ × α)}, (ys.map (·.1)).Nodup → ys.Nodup := fun h =>
    List.Pairwise.of_map (·.1) (fun _ _ hne heq => hne (congrArg Prod.fst heq)) h
  refine (List.perm_ext_iff_of_nodup (hentries (nodup_keys _)) (hentries hnd)).2 fun x => ?_
  obtain ⟨k, a⟩ := x
  rw [mem_toList, get?_collect hnd]

/-- The entries with a new value. -/
def filterMap {β : Type} (f : κ → α → Option β) (m : SortedMap κ α) : SortedMap κ β where
  toList := m.toList.filterMap fun x => (f x.1 x.2).map (x.1, ·)
  sorted := by
    refine m.sorted.filterMap _ fun x y hxy x' hx y' hy => ?_
    obtain ⟨_, -, rfl⟩ := Option.map_eq_some_iff.1 hx
    obtain ⟨_, -, rfl⟩ := Option.map_eq_some_iff.1 hy
    exact hxy

theorem get?_filterMap {β : Type} (f : κ → α → Option β) (k : κ) :
    (m.filterMap f).get? k = (m.get? k).bind (f k) := by
  refine Option.ext fun b => ?_
  rw [← mem_toList, filterMap, List.mem_filterMap, Option.bind_eq_some_iff]
  constructor
  · rintro ⟨⟨k', a⟩, hx, heq⟩
    obtain ⟨_, hf, heq⟩ := Option.map_eq_some_iff.1 heq
    obtain ⟨rfl, rfl⟩ := Prod.mk.inj heq
    exact ⟨a, mem_toList.1 hx, hf⟩
  · rintro ⟨a, ha, hf⟩
    exact ⟨(k, a), mem_toList.2 ha, by rw [hf]; rfl⟩

/-- The keys with a value, in order. -/
def keys (m : SortedMap κ α) : List κ := m.toList.map (·.1)

theorem mem_keys : k ∈ m.keys ↔ ∃ a, m.get? k = some a := by
  rw [keys, List.mem_map]
  constructor
  · rintro ⟨⟨k, a⟩, h, rfl⟩
    exact ⟨a, mem_toList.1 h⟩
  · rintro ⟨a, h⟩
    exact ⟨(k, a), mem_toList.2 h, rfl⟩

end SortedMap

end NovaChannel
