import Mathlib

/-!
# Linked lists in memory

A memory holds nodes at addresses, and a node has the address of the next one, or none. The
nodes from one pointer on, up to another, are a *segment* of a list
(`E2fsprogs.LinkedList.Segment`), which is cut where any of its nodes is. Nodes are changed,
put in and taken out by writing to the memory; what is written outside of a segment does not
change it.
-/

namespace E2fsprogs

namespace LinkedList

/-- A node with its value, and the address of the next one. -/
structure Node (α : Type) where
  val : α
  next : Option ℕ

/-- A memory with nodes at some of its addresses. -/
abbrev Memory (α : Type) := ℕ → Option (Node α)

variable {α : Type}

/-- Following the pointers from `p` on, one comes to these nodes, with these addresses, and
then to `q`. -/
def Segment (mem : Memory α) : Option ℕ → List (ℕ × α) → Option ℕ → Prop
  | p, [], q => p = q
  | p, c :: l, q => p = some c.1 ∧ ∃ r, mem c.1 = some ⟨c.2, r⟩ ∧ Segment mem r l q

variable {mem : Memory α} {p q r : Option ℕ} {l l' : List (ℕ × α)} {c : ℕ × α} {a : ℕ} {x y : α}

theorem segment_nil : Segment mem p [] q ↔ p = q := Iff.rfl

theorem segment_cons : Segment mem p (c :: l) q ↔
    p = some c.1 ∧ ∃ r, mem c.1 = some ⟨c.2, r⟩ ∧ Segment mem r l q := Iff.rfl

theorem segment_append :
    Segment mem p (l ++ l') q ↔ ∃ r, Segment mem p l r ∧ Segment mem r l' q := by
  induction l generalizing p with
  | nil => simp [segment_nil]
  | cons c l ih =>
    simp only [List.cons_append, segment_cons, ih]
    constructor
    · rintro ⟨hp, s, hs, r, hr, hr'⟩
      exact ⟨r, ⟨hp, s, hs, hr⟩, hr'⟩
    · rintro ⟨r, ⟨hp, s, hs, hr⟩, hr'⟩
      exact ⟨hp, s, hs, r, hr, hr'⟩

/-- Where a list that ends is empty, its pointer is null. -/
theorem segment_none : Segment mem none l none ↔ l = [] := by
  cases l with
  | nil => simp [segment_nil]
  | cons c l => simp [segment_cons]

/-- A segment with a last node. -/
theorem segment_concat : Segment mem p (l ++ [(a, x)]) q ↔
    Segment mem p l (some a) ∧ mem a = some ⟨x, q⟩ := by
  rw [segment_append]
  simp only [segment_cons, segment_nil]
  constructor
  · rintro ⟨r, hl, rfl, s, hs, rfl⟩
    exact ⟨hl, hs⟩
  · rintro ⟨hl, hx⟩
    exact ⟨_, hl, rfl, _, hx, rfl⟩

/-- The address of the last node. -/
def lastAddr (l : List (ℕ × α)) : Option ℕ := (l.map Prod.fst).getLast?

theorem lastAddr_append (h : l' ≠ []) : lastAddr (l ++ l') = lastAddr l' := by
  rw [lastAddr, lastAddr, List.map_append, List.getLast?_append_of_ne_nil _ (by simpa using h)]

@[simp] theorem lastAddr_concat : lastAddr (l ++ [c]) = some c.1 := by
  rw [lastAddr, List.map_append, List.map_singleton, List.getLast?_concat]

theorem lastAddr_cons (h : l ≠ []) : lastAddr (c :: l) = lastAddr l :=
  lastAddr_append (l := [c]) h

/-! ### Writing -/

/-- The address is not one of the nodes. -/
def Avoids (a : ℕ) (l : List (ℕ × α)) : Prop := ∀ c ∈ l, c.1 ≠ a

/-- **The frame of a write**: a segment that does not have the address stays. -/
theorem Segment.frame (h : Segment mem p l q) (ha : Avoids a l) (n : Option (Node α)) :
    Segment (Function.update mem a n) p l q := by
  induction l generalizing p with
  | nil => exact h
  | cons c l ih =>
    obtain ⟨hp, r, hr, hl⟩ := h
    refine ⟨hp, r, ?_, ih hl fun d hd => ha d (List.mem_cons_of_mem _ hd)⟩
    rw [Function.update_of_ne (ha c (List.mem_cons_self ..))]
    exact hr

/-- The addresses of the nodes are different, and below a bound. -/
structure Placed (brk : ℕ) (l : List (ℕ × α)) : Prop where
  nodup : (l.map Prod.fst).Nodup
  lt : ∀ c ∈ l, c.1 < brk

theorem Placed.avoids_brk {brk : ℕ} (h : Placed brk l) : Avoids brk l :=
  fun c hc => (h.lt c hc).ne

theorem Placed.length_le {brk : ℕ} (h : Placed brk l) : l.length ≤ brk := by
  have hsub : l.map Prod.fst ⊆ List.range brk := by
    intro a ha
    obtain ⟨c, hc, rfl⟩ := List.mem_map.mp ha
    exact List.mem_range.mpr (h.lt c hc)
  have := (h.nodup.subperm hsub).length_le
  rwa [List.length_map, List.length_range] at this

theorem Placed.mid {brk : ℕ} (h : Placed brk (l ++ c :: l')) : Avoids c.1 l ∧ Avoids c.1 l' := by
  have hn := h.nodup
  rw [List.map_append, List.map_cons, List.nodup_middle, List.nodup_cons, List.mem_append] at hn
  obtain ⟨hn, -⟩ := hn
  rw [not_or] at hn
  exact ⟨fun d hd he => hn.1 (he ▸ List.mem_map_of_mem hd),
    fun d hd he => hn.2 (he ▸ List.mem_map_of_mem hd)⟩

/-- Nodes at addresses of the list. -/
theorem Placed.of_sublist {brk : ℕ} (h : Placed brk l) {l₁ : List (ℕ × α)}
    (hs : (l₁.map Prod.fst).Sublist (l.map Prod.fst)) : Placed brk l₁ := by
  refine ⟨h.nodup.sublist hs, fun c hc => ?_⟩
  obtain ⟨d, hd, he⟩ := List.mem_map.mp (hs.subset (List.mem_map_of_mem hc))
  rw [← he]
  exact h.lt d hd

/-- One more address. -/
theorem Placed.insert {brk : ℕ} (h : Placed brk (l ++ l')) (x : α) :
    Placed (brk + 1) (l ++ (brk, x) :: l') := by
  refine ⟨?_, fun c hc => ?_⟩
  · rw [List.map_append, List.map_cons, List.nodup_middle, List.nodup_cons, ← List.map_append]
    refine ⟨fun hmem => ?_, h.nodup⟩
    obtain ⟨c, hc, he⟩ := List.mem_map.mp hmem
    exact absurd he (h.avoids_brk c hc)
  · rw [List.mem_append, List.mem_cons] at hc
    rcases hc with hc | rfl | hc
    · exact Nat.lt_succ_of_lt (h.lt c (List.mem_append_left _ hc))
    · exact Nat.lt_succ_self _
    · exact Nat.lt_succ_of_lt (h.lt c (List.mem_append_right _ hc))

/-- **A node is given another value**, and perhaps other successors. -/
theorem Segment.write {brk : ℕ} (h : Segment mem p (l ++ (a, x) :: l') q)
    (hp : Placed brk (l ++ (a, x) :: l')) {l₁ : List (ℕ × α)} (ha : Avoids a l₁)
    (hl : Segment mem r l₁ q) :
    Segment (Function.update mem a (some ⟨y, r⟩)) p (l ++ (a, y) :: l₁) q := by
  obtain ⟨s, hs, rfl, -⟩ := segment_append.mp h
  refine segment_append.mpr ⟨_, hs.frame hp.mid.1 _, rfl, r, ?_, hl.frame ha _⟩
  exact Function.update_self ..

end LinkedList

end E2fsprogs
