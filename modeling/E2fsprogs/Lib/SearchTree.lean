import Mathlib

/-!
# Searching a binary tree

Of a search tree only the sequence of its entries matters, in order. What a search needs is that the
comparison is monotone along that sequence (`E2fsprogs.SearchTree.Sorted`): of two entries the
sought place is before the second or behind the first. Then a search that finds nothing ends at one
of the two entries next to the gap, whatever the shape of the tree
(`E2fsprogs.SearchTree.find_gap`), and a new entry is linked into the gap
(`E2fsprogs.SearchTree.link_gap`).
-/

namespace E2fsprogs

/-- A binary tree with entries at its nodes. -/
inductive SearchTree (α : Type)
  | leaf
  | node (l : SearchTree α) (x : α) (r : SearchTree α)

namespace SearchTree

variable {α : Type}

/-- The entries in order. -/
def inorder : SearchTree α → List α
  | leaf => []
  | node l x r => l.inorder ++ x :: r.inorder

/-- The tree that leans to the right. -/
def ofList : List α → SearchTree α
  | [] => leaf
  | x :: xs => node leaf x (ofList xs)

@[simp] theorem inorder_ofList (l : List α) : (ofList l).inorder = l := by
  induction l with
  | nil => rfl
  | cons x xs ih => rw [ofList, inorder, inorder, ih, List.nil_append]

/-- The same tree with other entries. -/
def map (f : α → α) : SearchTree α → SearchTree α
  | leaf => leaf
  | node l x r => node (map f l) (f x) (map f r)

@[simp] theorem inorder_map (f : α → α) (t : SearchTree α) :
    (t.map f).inorder = t.inorder.map f := by
  induction t with
  | leaf => rfl
  | node l x r ihl ihr => rw [map, inorder, inorder, ihl, ihr, List.map_append, List.map_cons]

section Search

-- where the sought place is, seen from an entry
variable (cmp : α → Ordering)

/-- Search from the root: the entry that is found, and the last entry that was visited. -/
def find : SearchTree α → Option α → Option α × Option α
  | leaf, parent => (none, parent)
  | node l x r, _ =>
    match cmp x with
    | .lt => l.find (some x)
    | .gt => r.find (some x)
    | .eq => (some x, some x)

/-- Put a new entry where a search that finds nothing ends. -/
def link (y : α) : SearchTree α → SearchTree α
  | leaf => node leaf y leaf
  | node l x r =>
    match cmp x with
    | .lt => node (l.link y) x r
    | _ => node l x (r.link y)

/-- Of two entries in order, the sought place is before the second or behind the first. -/
def Sorted (l : List α) : Prop := l.Pairwise fun a b => cmp b = .lt ∨ cmp a = .gt

variable {cmp} {t : SearchTree α} {parent : Option α}

/-- All entries behind one that the place is before. -/
theorem Sorted.lt_of_mem {a b : List α} {x y : α} (h : Sorted cmp (a ++ x :: b)) (hx : cmp x ≠ .gt)
    (hy : y ∈ b) :
    cmp y = .lt := by
  have hcons := (List.pairwise_append.mp h).2.1
  exact ((List.pairwise_cons.mp hcons).1 y hy).resolve_right hx

/-- All entries before one that the place is behind. -/
theorem Sorted.gt_of_mem {a b : List α} {x y : α} (h : Sorted cmp (a ++ x :: b)) (hx : cmp x ≠ .lt)
    (hy : y ∈ a) :
    cmp y = .gt :=
  ((List.pairwise_append.mp h).2.2 y hy x (List.mem_cons_self ..)).resolve_left hx

theorem find_found {x : α} (h : (t.find cmp parent).1 = some x) : x ∈ t.inorder ∧ cmp x = .eq := by
  induction t generalizing parent with
  | leaf => cases h
  | node l y r ihl ihr =>
    rw [find] at h
    rw [inorder]
    cases hc : cmp y with
    | lt =>
      rw [hc] at h
      exact ⟨List.mem_append_left _ (ihl h).1, (ihl h).2⟩
    | gt =>
      rw [hc] at h
      exact ⟨List.mem_append_right _ (List.mem_cons_of_mem _ (ihr h).1), (ihr h).2⟩
    | eq =>
      rw [hc] at h
      obtain rfl := Option.some.inj h
      exact ⟨List.mem_append_right _ (List.mem_cons_self ..), hc⟩

/-- **An entry at the sought place is found.** -/
theorem find_of_mem (hs : Sorted cmp t.inorder) {x : α} (hx : x ∈ t.inorder) (hc : cmp x = .eq) :
    (t.find cmp parent).1 = some x := by
  induction t generalizing parent with
  | leaf => cases hx
  | node l y r ihl ihr =>
    rw [inorder] at hs hx
    have hsl : Sorted cmp l.inorder := (List.pairwise_append.mp hs).1
    have hsr : Sorted cmp r.inorder := (List.pairwise_cons.mp (List.pairwise_append.mp hs).2.1).2
    rw [find]
    rcases List.mem_append.mp hx with hxl | hxr
    · have hlt : cmp y = .lt := by
        have := (List.pairwise_append.mp hs).2.2 x hxl y (List.mem_cons_self ..)
        rw [hc] at this
        exact this.resolve_right nofun
      rw [hlt]
      exact ihl hsl hxl
    · rcases List.mem_cons.mp hxr with rfl | hxr
      · rw [hc]
      · have hgt : cmp y = .gt := by
          have := (List.pairwise_cons.mp (List.pairwise_append.mp hs).2.1).1 x hxr
          rw [hc] at this
          exact this.resolve_left nofun
        rw [hgt]
        exact ihr hsr hxr

/-- **A search that finds nothing** ends next to the gap. -/
theorem find_gap (hs : Sorted cmp t.inorder) (h : (t.find cmp parent).1 = none) :
    (t.inorder = [] ∧ (t.find cmp parent).2 = parent) ∨
      ∃ q a b, (t.find cmp parent).2 = some q ∧ t.inorder = a ++ q :: b ∧ cmp q ≠ .eq ∧
        (∀ x ∈ a, cmp x = .gt) ∧ ∀ x ∈ b, cmp x = .lt := by
  induction t generalizing parent with
  | leaf => exact Or.inl ⟨rfl, rfl⟩
  | node l y r ihl ihr =>
    rw [inorder] at hs ⊢
    have hsl : Sorted cmp l.inorder := (List.pairwise_append.mp hs).1
    have hsr : Sorted cmp r.inorder := (List.pairwise_cons.mp (List.pairwise_append.mp hs).2.1).2
    rw [find] at h ⊢
    refine Or.inr ?_
    cases hc : cmp y with
    | eq =>
      rw [hc] at h
      cases h
    | lt =>
      rw [hc] at h
      have hafter : ∀ x ∈ r.inorder, cmp x = .lt := fun x hx => hs.lt_of_mem (by rw [hc]; nofun) hx
      rcases ihl hsl h with ⟨hnil, hpar⟩ | ⟨q, a, b, hq, hin, hne, ha, hb⟩
      · rw [hnil]
        exact ⟨y, [], r.inorder, hpar, rfl, by rw [hc]; nofun, nofun, hafter⟩
      · refine ⟨q, a, b ++ y :: r.inorder, hq, by rw [hin]; simp, hne, ha, fun x hx => ?_⟩
        rcases List.mem_append.mp hx with hx | hx
        · exact hb x hx
        · rcases List.mem_cons.mp hx with rfl | hx
          · exact hc
          · exact hafter x hx
    | gt =>
      rw [hc] at h
      have hbefore : ∀ x ∈ l.inorder, cmp x = .gt := fun x hx => hs.gt_of_mem (by rw [hc]; nofun) hx
      rcases ihr hsr h with ⟨hnil, hpar⟩ | ⟨q, a, b, hq, hin, hne, ha, hb⟩
      · rw [hnil]
        exact ⟨y, l.inorder, [], hpar, rfl, by rw [hc]; nofun, hbefore, nofun⟩
      · refine ⟨q, l.inorder ++ y :: a, b, hq, by rw [hin]; simp, hne, fun x hx => ?_, hb⟩
        rcases List.mem_append.mp hx with hx | hx
        · exact hbefore x hx
        · rcases List.mem_cons.mp hx with rfl | hx
          · exact hc
          · exact ha x hx

/-- **A new entry goes into the gap.** -/
theorem link_gap (hs : Sorted cmp t.inorder) (hne : ∀ x ∈ t.inorder, cmp x ≠ .eq) (y : α) :
    ∃ a b, t.inorder = a ++ b ∧ (t.link cmp y).inorder = a ++ y :: b ∧ (∀ x ∈ a, cmp x = .gt) ∧
      ∀ x ∈ b, cmp x = .lt := by
  induction t with
  | leaf => exact ⟨[], [], rfl, rfl, nofun, nofun⟩
  | node l z r ihl ihr =>
    rw [inorder] at hs hne
    have hsl : Sorted cmp l.inorder := (List.pairwise_append.mp hs).1
    have hsr : Sorted cmp r.inorder := (List.pairwise_cons.mp (List.pairwise_append.mp hs).2.1).2
    have hz := hne z (List.mem_append_right _ (List.mem_cons_self ..))
    rw [link, inorder]
    cases hc : cmp z with
    | eq => exact absurd hc hz
    | lt =>
      obtain ⟨a, b, hin, hlink, ha, hb⟩ := ihl hsl fun x hx => hne x (List.mem_append_left _ hx)
      refine ⟨a, b ++ z :: r.inorder, by rw [hin, List.append_assoc], ?_, ha, fun x hx => ?_⟩
      · show (link cmp y l).inorder ++ z :: r.inorder = _
        rw [hlink]
        simp
      · rcases List.mem_append.mp hx with hx | hx
        · exact hb x hx
        · rcases List.mem_cons.mp hx with rfl | hx
          · exact hc
          · exact hs.lt_of_mem (by rw [hc]; nofun) hx
    | gt =>
      obtain ⟨a, b, hin, hlink, ha, hb⟩ :=
        ihr hsr fun x hx => hne x (List.mem_append_right _ (List.mem_cons_of_mem _ hx))
      refine ⟨l.inorder ++ z :: a, b, by rw [hin]; simp, ?_, fun x hx => ?_, hb⟩
      · show l.inorder ++ z :: (link cmp y r).inorder = _
        rw [hlink]
        simp
      · rcases List.mem_append.mp hx with hx | hx
        · exact hs.gt_of_mem (by rw [hc]; nofun) hx
        · rcases List.mem_cons.mp hx with rfl | hx
          · exact hc
          · exact ha x hx

end Search

end SearchTree

end E2fsprogs
