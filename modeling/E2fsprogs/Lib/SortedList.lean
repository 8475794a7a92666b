import Mathlib

/-!
# Lists sorted by a key

A table that is kept as an array sorted by key: a binary search narrows the place of a
key down between the elements known to be below it and those known to be above it
(`E2fsprogs.SortedList.Below`, `E2fsprogs.SortedList.Above`), an element is stored in place
of the one with its key or put in the gap the search has found. Either way the list stays
sorted and the lookup changes at that key only.
-/

namespace E2fsprogs

namespace SortedList

variable {α κ : Type} [LinearOrder κ] (key : α → κ)

/-- The keys of the list ascend strictly. -/
def Sorted (l : List α) : Prop := l.Pairwise fun a b => key a < key b

/-- The elements before position `i` have keys below `k`. -/
def Below (l : List α) (k : κ) (i : ℕ) : Prop := ∀ a ∈ l.take i, key a < k

/-- The elements from position `i` on have keys above `k`. -/
def Above (l : List α) (k : κ) (i : ℕ) : Prop := ∀ a ∈ l.drop i, k < key a

/-- The element of a key, if there is one. -/
def lookup (l : List α) (k : κ) : Option α := l.find? fun a => key a = k

/-- The list with `a` put in at position `i`. -/
def insertAt (l : List α) (i : ℕ) (a : α) : List α := l.take i ++ a :: l.drop i

variable {key} {l : List α} {k : κ} {a b : α} {i j : ℕ}

/-! ### Searching -/

theorem below_zero : Below key l k 0 := fun a ha => absurd ha (by simp)

theorem above_length : Above key l k l.length := fun a ha => absurd ha (by simp)

theorem Sorted.below (hs : Sorted key l) (hi : l[i]? = some a) (ha : key a < k) :
    Below key l k (i + 1) := by
  intro b hb
  obtain ⟨j, hj, rfl⟩ := List.mem_iff_getElem.mp hb
  rw [List.length_take] at hj
  rw [List.getElem_take]
  obtain ⟨hil, rfl⟩ := List.getElem?_eq_some_iff.mp hi
  rcases Nat.lt_or_ge j i with hlt | hge
  · exact lt_trans (List.pairwise_iff_getElem.mp hs _ _ _ hil hlt) ha
  · have hij : j = i := by omega
    subst hij
    exact ha

theorem Sorted.above (hs : Sorted key l) (hi : l[i]? = some a) (ha : k < key a) :
    Above key l k i := by
  intro b hb
  obtain ⟨j, hj, rfl⟩ := List.mem_iff_getElem.mp hb
  rw [List.length_drop] at hj
  rw [List.getElem_drop]
  obtain ⟨hil, rfl⟩ := List.getElem?_eq_some_iff.mp hi
  rcases Nat.eq_zero_or_pos j with rfl | hpos
  · exact ha
  · exact lt_trans ha (List.pairwise_iff_getElem.mp hs _ _ _ _ (by omega))

/-- A key above the last element's is above all. -/
theorem Sorted.below_length (hs : Sorted key l) (h : ∀ a ∈ l.getLast?, key a < k) :
    Below key l k l.length := by
  rcases List.eq_nil_or_concat l with rfl | ⟨l', a, rfl⟩
  · exact below_zero
  · have hlast : (l' ++ [a])[l'.length]? = some a := by simp
    rw [List.concat_eq_append] at h ⊢
    rw [List.length_append]
    exact Sorted.below (by simpa using hs) hlast (h a (by simp))

theorem lookup_eq_none (hb : Below key l k i) (ha : Above key l k i) : lookup key l k = none := by
  rw [lookup, List.find?_eq_none]
  intro a hmem
  rw [← List.take_append_drop i l, List.mem_append] at hmem
  rcases hmem with h | h
  · simpa using (hb a h).ne
  · simpa using (ha a h).ne'

theorem Sorted.lookup_eq (hs : Sorted key l) (hi : l[i]? = some a) :
    lookup key l (key a) = some a := by
  have hmem : a ∈ l := List.mem_of_getElem? hi
  rcases hf : lookup key l (key a) with _ | b
  · exact absurd (List.find?_eq_none.mp hf a hmem) (by simp)
  · obtain ⟨j, hj, rfl⟩ := List.mem_iff_getElem.mp (List.mem_of_find?_eq_some hf)
    have hkey : key l[j] = key a := by simpa using List.find?_some hf
    obtain ⟨hil, rfl⟩ := List.getElem?_eq_some_iff.mp hi
    rcases Nat.lt_trichotomy i j with h | h | h
    · exact absurd hkey (List.pairwise_iff_getElem.mp hs _ _ hil hj h).ne'
    · subst h
      rfl
    · exact absurd hkey (List.pairwise_iff_getElem.mp hs _ _ hj hil h).ne

/-! ### Putting an element in -/

theorem length_insertAt (h : i ≤ l.length) : (insertAt l i a).length = l.length + 1 := by
  rw [insertAt, List.length_append, List.length_cons, List.length_take, List.length_drop]
  omega

theorem getElem?_insertAt (h : i ≤ l.length) : (insertAt l i a)[i]? = some a := by
  rw [insertAt, List.getElem?_append_right (by rw [List.length_take]; omega), List.length_take,
    Nat.min_eq_left h, Nat.sub_self]
  rfl

theorem insertIdx_eq_insertAt : ∀ {i : ℕ} {l : List α}, i ≤ l.length →
    l.insertIdx i a = insertAt l i a := by
  intro i
  induction i with
  | zero => exact fun _ => rfl
  | succ i ih =>
    intro l h
    cases l with
    | nil => cases h
    | cons b l =>
      rw [List.insertIdx_succ_cons, ih (Nat.le_of_succ_le_succ h)]
      rfl

/-- Putting in behind the first `k` elements. -/
theorem drop_insertIdx : ∀ {k : ℕ} {l : List α}, i + k ≤ l.length →
    (l.insertIdx (i + k) a).drop k = insertAt (l.drop k) i a := by
  intro k
  induction k with
  | zero => exact fun h => insertIdx_eq_insertAt h
  | succ k ih =>
    intro l h
    cases l with
    | nil => cases h
    | cons b l => exact ih (Nat.le_of_succ_le_succ h)

/-- One element less in front of the last ones. -/
theorem drop_eraseIdx : ∀ {i k : ℕ} {l : List α}, i ≤ k → k < l.length →
    (l.eraseIdx i).drop k = l.drop (k + 1) := by
  intro i
  induction i with
  | zero =>
    intro k l _ h
    cases l with
    | nil => cases h
    | cons b l => rfl
  | succ i ih =>
    intro k l hik h
    cases l with
    | nil => cases h
    | cons b l =>
      obtain ⟨k, rfl⟩ := Nat.exists_eq_add_of_le' hik
      exact ih (Nat.le_add_left _ _) (Nat.lt_of_succ_lt_succ h)

theorem Sorted.insertAt (hs : Sorted key l) (hb : Below key l (key a) i)
    (ha : Above key l (key a) i) : Sorted key (insertAt l i a) := by
  refine List.pairwise_append.mpr ⟨hs.sublist (List.take_sublist _ _),
    List.pairwise_cons.mpr ⟨ha, hs.sublist (List.drop_sublist _ _)⟩, fun b hbm c hc => ?_⟩
  rcases List.mem_cons.mp hc with rfl | hc
  · exact hb b hbm
  · exact lt_trans (hb b hbm) (ha c hc)

theorem lookup_insertAt_of_ne (h : key a ≠ k) :
    lookup key (insertAt l i a) k = lookup key l k := by
  rw [lookup, lookup, insertAt, List.find?_append, List.find?_cons_of_neg (by simpa using h),
    ← List.find?_append, List.take_append_drop]

/-! ### Changing an element in place -/

theorem Sorted.set (hs : Sorted key l) (hi : l[i]? = some b) (hk : key a = key b) :
    Sorted key (l.set i a) := by
  obtain ⟨hil, rfl⟩ := List.getElem?_eq_some_iff.mp hi
  have hkeys : (l.set i a).map key = l.map key := by
    rw [List.map_set, hk]
    refine List.ext_getElem (by simp) fun n h1 h2 => ?_
    rw [List.getElem_set]
    split
    · next h => subst h; simp
    · rfl
  have hs' : (l.map key).Pairwise (· < ·) := List.pairwise_map.mpr hs
  rw [← hkeys] at hs'
  exact List.pairwise_map.mp hs'

theorem lookup_set_of_ne (hi : l[i]? = some b) (hb : key b ≠ k) (ha : key a ≠ k) :
    lookup key (l.set i a) k = lookup key l k := by
  obtain ⟨hil, rfl⟩ := List.getElem?_eq_some_iff.mp hi
  conv_rhs => rw [← List.take_append_drop i l, ← List.cons_getElem_drop_succ (h := hil)]
  rw [lookup, lookup, List.set_eq_take_append_cons_drop, if_pos hil, List.find?_append,
    List.find?_append, List.find?_cons_of_neg (by simpa using ha),
    List.find?_cons_of_neg (by simpa using hb)]

end SortedList

end E2fsprogs
