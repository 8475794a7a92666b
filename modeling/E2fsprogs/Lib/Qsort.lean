import Mathlib

/-!
# Sorting with a comparison function

`qsort` is given a function that returns a negative number, zero or a positive one, or nothing where
the C code of it has no defined result. It sorts when the function is consistent on the entries
(`E2fsprogs.Qsort.Consistent`); with any other function nothing is known about its outcome.

What one wants to know of a comparison function is that it follows a key
(`E2fsprogs.Qsort.Follows`): such a function is consistent, and the sorted entries ascend by the
key.

A function that sorts is one of many (`E2fsprogs.Qsort.Conforms`), and where the comparison is not
consistent any permutation is the outcome of one of them
(`E2fsprogs.Qsort.exists_conforms_of_perm`).
-/

namespace E2fsprogs

namespace Qsort

variable {α κ : Type} [LinearOrder κ] (cmp : α → α → Option ℤ) (key : α → κ)

/-- The function puts the first entry in front of the second. -/
def InFront (x y : α) : Prop := ∃ r, cmp x y = some r ∧ r < 0

/-- The function puts the first entry behind the second. -/
def Behind (x y : α) : Prop := ∃ r, cmp x y = some r ∧ 0 < r

/-- The function does not put the first entry behind the second. -/
def NotBehind (x y : α) : Prop := ∃ r, cmp x y = some r ∧ r ≤ 0

/-- The function is defined on the entries, and orders them. -/
structure Consistent (l : List α) : Prop where
  anti : ∀ x ∈ l, ∀ y ∈ l, InFront cmp x y ↔ Behind cmp y x
  total : ∀ x ∈ l, ∀ y ∈ l, NotBehind cmp x y ∨ Behind cmp x y
  trans : ∀ x ∈ l, ∀ y ∈ l, ∀ z ∈ l, NotBehind cmp x y → NotBehind cmp y z → NotBehind cmp x z

/-- What `qsort` may make of a list. -/
def Sorts (l l' : List α) : Prop := Consistent cmp l → l'.Perm l ∧ l'.Pairwise (NotBehind cmp)

/-- What is asked of a function that sorts: the entries stay the same ones, and are sorted if the
comparison is consistent on them. -/
structure Conforms (qsort : (α → α → Option ℤ) → List α → List α) : Prop where
  perm : ∀ cmp l, (qsort cmp l).Perm l
  sorts : ∀ cmp l, Sorts cmp l (qsort cmp l)

/-- The function compares the keys of two entries. -/
structure Compares (x y : α) : Prop where
  before : InFront cmp x y ↔ key x < key y
  notBehind : NotBehind cmp x y ↔ key x ≤ key y
  behind : Behind cmp x y ↔ key y < key x

/-- The function compares the keys of all entries. -/
def Follows (l : List α) : Prop := ∀ x ∈ l, ∀ y ∈ l, Compares cmp key x y

variable {cmp key} {l l' : List α} {x y : α}

theorem compares_of_lt {r : ℤ} (h : cmp x y = some r) (hr : r < 0) (hlt : key x < key y) :
    Compares cmp key x y := by
  have heq : ∀ s, cmp x y = some s → s = r := fun s hs => Option.some.inj (hs.symm.trans h)
  refine ⟨iff_of_true ⟨r, h, hr⟩ hlt, iff_of_true ⟨r, h, hr.le⟩ hlt.le, iff_of_false ?_ hlt.not_gt⟩
  rintro ⟨s, hs, hpos⟩
  exact hr.not_gt (heq s hs ▸ hpos)

theorem compares_of_gt {r : ℤ} (h : cmp x y = some r) (hr : 0 < r) (hlt : key y < key x) :
    Compares cmp key x y := by
  have heq : ∀ s, cmp x y = some s → s = r := fun s hs => Option.some.inj (hs.symm.trans h)
  refine ⟨iff_of_false ?_ hlt.not_gt, iff_of_false ?_ hlt.not_ge, iff_of_true ⟨r, h, hr⟩ hlt⟩
  · rintro ⟨s, hs, hneg⟩
    exact hr.not_gt (heq s hs ▸ hneg)
  · rintro ⟨s, hs, hle⟩
    exact hr.not_ge (heq s hs ▸ hle)

theorem compares_of_eq (h : cmp x y = some 0) (heq : key x = key y) : Compares cmp key x y := by
  have hzero : ∀ s, cmp x y = some s → s = 0 := fun s hs => Option.some.inj (hs.symm.trans h)
  refine ⟨iff_of_false ?_ heq.not_lt, iff_of_true ⟨0, h, le_rfl⟩ heq.le,
    iff_of_false ?_ heq.symm.not_lt⟩
  · rintro ⟨s, hs, hneg⟩
    exact hneg.ne (hzero s hs)
  · rintro ⟨s, hs, hpos⟩
    exact hpos.ne' (hzero s hs)

/-- A function that follows a key is consistent. -/
theorem Follows.consistent (h : Follows cmp key l) : Consistent cmp l where
  anti := fun x hx y hy => (h x hx y hy).before.trans (h y hy x hx).behind.symm
  total := by
    intro x hx y hy
    rw [(h x hx y hy).notBehind, (h x hx y hy).behind]
    exact le_or_gt _ _
  trans := by
    intro x hx y hy z hz hxy hyz
    rw [(h x hx y hy).notBehind] at hxy
    rw [(h y hy z hz).notBehind] at hyz
    rw [(h x hx z hz).notBehind]
    exact hxy.trans hyz

/-- **Sorting with a function that follows a key** permutes the entries so that they ascend by the
key. -/
theorem Follows.sorts (h : Follows cmp key l) (hs : Sorts cmp l l') :
    l'.Perm l ∧ l'.Pairwise fun x y => key x ≤ key y := by
  obtain ⟨hperm, hsorted⟩ := hs h.consistent
  refine ⟨hperm, hsorted.imp_of_mem fun {x y} hx hy hxy => ?_⟩
  exact (h x (hperm.mem_iff.mp hx) y (hperm.mem_iff.mp hy)).notBehind.mp hxy

theorem Consistent.notBehind_total (h : Consistent cmp l) (hx : x ∈ l) (hy : y ∈ l) :
    NotBehind cmp x y ∨ NotBehind cmp y x := by
  refine (h.total x hx y hy).imp_right fun hb => ?_
  obtain ⟨r, hr, hneg⟩ := (h.anti y hy x hx).mpr hb
  exact ⟨r, hr, hneg.le⟩

/-- Every list can be sorted. -/
theorem exists_sorts (cmp : α → α → Option ℤ) (l : List α) : ∃ l', l'.Perm l ∧ Sorts cmp l l' := by
  classical
  by_cases h : Consistent cmp l
  · -- made an order on all entries: the others come first
    obtain ⟨le, hle⟩ : ∃ le : α → α → Bool,
        ∀ a b, le a b = true ↔ a ∉ l ∨ b ∈ l ∧ NotBehind cmp a b :=
      ⟨fun a b => decide (a ∉ l ∨ b ∈ l ∧ NotBehind cmp a b), fun a b => decide_eq_true_iff⟩
    have htrans : ∀ a b c, le a b = true → le b c = true → le a c = true := by
      intro a b c hab hbc
      rw [hle] at hab hbc ⊢
      by_cases ha : a ∈ l
      · obtain ⟨hb, hab⟩ := hab.resolve_left (not_not.mpr ha)
        obtain ⟨hc, hbc⟩ := hbc.resolve_left (not_not.mpr hb)
        exact Or.inr ⟨hc, h.trans a ha b hb c hc hab hbc⟩
      · exact Or.inl ha
    have htotal : ∀ a b, (le a b || le b a) = true := by
      intro a b
      rw [Bool.or_eq_true, hle, hle]
      by_cases ha : a ∈ l
      · by_cases hb : b ∈ l
        · exact (h.notBehind_total ha hb).imp (fun hab => Or.inr ⟨hb, hab⟩)
            fun hba => Or.inr ⟨ha, hba⟩
        · exact Or.inr (Or.inl hb)
      · exact Or.inl (Or.inl ha)
    refine ⟨l.mergeSort le, List.mergeSort_perm _ _, fun _ => ⟨List.mergeSort_perm _ _, ?_⟩⟩
    refine (List.pairwise_mergeSort htrans htotal l).imp_of_mem fun {a b} ha _ hab => ?_
    exact (((hle a b).mp hab).resolve_left (not_not.mpr (List.mem_mergeSort.mp ha))).2
  · exact ⟨l, List.Perm.refl l, fun hc => absurd hc h⟩

theorem exists_conforms (α : Type) :
    ∃ qsort : (α → α → Option ℤ) → List α → List α, Conforms qsort := by
  choose qsort h using @exists_sorts α
  exact ⟨qsort, fun cmp l => (h cmp l).1, fun cmp l => (h cmp l).2⟩

/-- **Without consistency any permutation may be the outcome.** -/
theorem exists_conforms_of_perm (hno : ¬Consistent cmp l) (hperm : l'.Perm l) :
    ∃ qsort : (α → α → Option ℤ) → List α → List α, Conforms qsort ∧ qsort cmp l = l' := by
  classical
  obtain ⟨qsort, h⟩ := exists_conforms α
  refine ⟨fun c m => if c = cmp ∧ m = l then l' else qsort c m, ⟨fun c m => ?_, fun c m => ?_⟩,
    if_pos ⟨rfl, rfl⟩⟩
  · split
    · next heq => exact heq.2 ▸ hperm
    · exact h.perm c m
  · split
    · next heq =>
      obtain ⟨rfl, rfl⟩ := heq
      exact fun hc => absurd hc hno
    · exact h.sorts c m

end Qsort

end E2fsprogs
