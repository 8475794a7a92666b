import Mathlib

/-!
# The table of moved blocks

`resize/extent.c`. Pairs of an old and a new location are added one by one; a pair that continues
the last run is added to it. Before the first look-up the runs are sorted, if they have been added
out of order, and they are then searched by interpolation; where in its window a step looks is left
open here.

The runs are compared by the difference of their locations as an `int`, which `qsort` is given. What
`qsort` does with a comparison that is no order is not defined, and any order of the runs may come
out.
-/

namespace E2fsprogs

/-- `struct ext2_extent_entry`. -/
structure ExtentEntry where
  oldLoc : ℕ
  newLoc : ℕ
  size : ℕ
  deriving DecidableEq

/-- `struct _ext2_extent`, with the memory of the list left out. -/
structure ExtentTable where
  list : List ExtentEntry
  cursor : ℕ
  sorted : Bool

/-- `ext2fs_create_extent_table`. -/
def ExtentTable.create : ExtentTable := ⟨[], 0, true⟩

/-- `ext2fs_add_extent_entry`. -/
def ExtentTable.add (t : ExtentTable) (oldLoc newLoc : ℕ) : ExtentTable :=
  match t.list.getLast? with
  | none => { t with list := t.list ++ [⟨oldLoc, newLoc, 1⟩] }
  | some ent =>
    if (ent.oldLoc + ent.size) % 2 ^ 64 = oldLoc ∧ (ent.newLoc + ent.size) % 2 ^ 64 = newLoc then
      { t with list := t.list.dropLast ++ [{ ent with size := ent.size + 1 }] }
    else
      { t with
        list := t.list ++ [⟨oldLoc, newLoc, 1⟩]
        sorted := if oldLoc < (ent.oldLoc + ent.size) % 2 ^ 64 then false else t.sorted }

/-- The table after some calls. -/
def ExtentTable.addAll (t : ExtentTable) (pairs : List (ℕ × ℕ)) : ExtentTable :=
  pairs.foldl (fun t p => t.add p.1 p.2) t

/-- `extent_cmp`: the difference of two numbers of 64 bits, as an `int`. -/
def extentCmp (a b : ExtentEntry) : ℤ := Int.bmod (a.oldLoc - b.oldLoc) (2 ^ 32)

/-- The comparison of `qsort` is an order on the entries. -/
structure CmpOrders (l : List ExtentEntry) : Prop where
  anti : ∀ x ∈ l, ∀ y ∈ l, extentCmp x y < 0 ↔ 0 < extentCmp y x
  trans : ∀ x ∈ l, ∀ y ∈ l, ∀ z ∈ l, extentCmp x y ≤ 0 → extentCmp y z ≤ 0 → extentCmp x z ≤ 0

/-- What `qsort` may do: the entries are permuted, and sorted if the comparison is an order on
them. -/
structure QSorts (l l' : List ExtentEntry) : Prop where
  perm : l'.Perm l
  sorted : CmpOrders l → l'.Pairwise fun x y => extentCmp x y ≤ 0

/-- The table that a look-up searches. -/
def ExtentTable.Sorts (t t' : ExtentTable) : Prop :=
  if t.sorted then t' = t else QSorts t.list t'.list ∧ t'.cursor = t.cursor ∧ t'.sorted = true

/-- The search of `ext2fs_extent_translate` from `low` to `high`, in at most `rounds` rounds. `mid`
is the number that is interpolated. -/
def translateFrom (list : List ExtentEntry) (mid : ℕ → ℤ → ℤ → ℤ) (oldLoc : ℕ) :
    ℕ → ℤ → ℤ → Option ℕ
  | 0, _, _ => none
  | rounds + 1, low, high =>
    if low ≤ high then
      let i := mid oldLoc low high
      match list[i.toNat]? with
      | none => none
      | some ent =>
        if ent.oldLoc ≤ oldLoc ∧ oldLoc < (ent.oldLoc + ent.size) % 2 ^ 64 then
          some ((ent.newLoc + (oldLoc - ent.oldLoc)) % 2 ^ 64)
        else if oldLoc < ent.oldLoc then translateFrom list mid oldLoc rounds low (i - 1)
        else translateFrom list mid oldLoc rounds (i + 1) high
    else some 0

/-- `ext2fs_extent_translate`, on a table that has been sorted. Each round leaves an entry out. -/
def ExtentTable.translate (t : ExtentTable) (mid : ℕ → ℤ → ℤ → ℤ) (oldLoc : ℕ) : Option ℕ :=
  translateFrom t.list mid oldLoc (t.list.length + 1) 0 (t.list.length - 1)

/-- The number that is interpolated is in the window. -/
def MidInWindow (mid : ℕ → ℤ → ℤ → ℤ) : Prop :=
  ∀ o low high, low ≤ high → low ≤ mid o low high ∧ mid o low high ≤ high

/-- `ext2fs_iterate_extent`, with a place for the entry: an entry of size 0 is the end. -/
def ExtentTable.iterate (t : ExtentTable) : ExtentEntry × ExtentTable :=
  match t.list[t.cursor]? with
  | none => (⟨0, 0, 0⟩, t)
  | some ent => (ent, { t with cursor := t.cursor + 1 })

/-- `ext2fs_iterate_extent` without a place, which begins again. -/
def ExtentTable.rewind (t : ExtentTable) : ExtentTable := { t with cursor := 0 }

/-- The runs that a loop over `ext2fs_iterate_extent` is given in at most `rounds` rounds. -/
def ExtentTable.iterateAll : ℕ → ExtentTable → Option (List ExtentEntry)
  | 0, _ => none
  | rounds + 1, t =>
    if t.iterate.1.size = 0 then some [] else (iterateAll rounds t.iterate.2).map (t.iterate.1 :: ·)

/-- The pairs of a run. -/
def ExtentEntry.pairs (e : ExtentEntry) : List (ℕ × ℕ) :=
  (List.range e.size).map fun k => (e.oldLoc + k, (e.newLoc + k) % 2 ^ 64)

/-- **The table translates exactly**, whatever `qsort` does that it may do, and wherever a search
looks. -/
structure TranslatesExactly (pairs : List (ℕ × ℕ)) : Prop where
  added : ∀ t, (ExtentTable.create.addAll pairs).Sorts t → ∀ mid, MidInWindow mid → ∀ p ∈ pairs,
    t.translate mid p.1 = some p.2
  other : ∀ t, (ExtentTable.create.addAll pairs).Sorts t → ∀ mid, MidInWindow mid → ∀ o < 2 ^ 64,
    (∀ p ∈ pairs, p.1 ≠ o) → t.translate mid o = some 0
  iterate : ∀ t, (ExtentTable.create.addAll pairs).Sorts t →
    ∃ rounds runs, t.rewind.iterateAll rounds = some runs ∧
    (runs.flatMap ExtentEntry.pairs).Perm pairs

/-- The runs that have been added are compared as their locations are. -/
def CmpAgrees (l : List ExtentEntry) : Prop :=
  ∀ x ∈ l, ∀ y ∈ l, x.oldLoc < y.oldLoc → extentCmp x y < 0 ∧ 0 < extentCmp y x

instance (l : List ExtentEntry) : Decidable (CmpAgrees l) :=
  inferInstanceAs (Decidable (∀ x ∈ l, ∀ y ∈ l, x.oldLoc < y.oldLoc → extentCmp x y < 0 ∧
    0 < extentCmp y x))

section ExtentTable

variable {t : ExtentTable} {l l' : List ExtentEntry} {e x y : ExtentEntry}
    {ps : List (ℕ × ℕ)} {o n : ℕ}
  {mid : ℕ → ℤ → ℤ → ℤ}

/-! ### Adding pairs -/

/-- The run has the location. -/
def ExtentEntry.Has (e : ExtentEntry) (o : ℕ) : Prop := e.oldLoc ≤ o ∧ o < e.oldLoc + e.size

/-- Where the run leads the location to. -/
def ExtentEntry.value (e : ExtentEntry) (o : ℕ) : ℕ := (e.newLoc + (o - e.oldLoc)) % 2 ^ 64

theorem ExtentEntry.mem_pairs {p : ℕ × ℕ} : p ∈ e.pairs ↔ e.Has p.1 ∧ p.2 = e.value p.1 := by
  rw [ExtentEntry.pairs, List.mem_map]
  constructor
  · rintro ⟨k, hk, rfl⟩
    have := List.mem_range.mp hk
    refine ⟨⟨by omega, by omega⟩, ?_⟩
    rw [ExtentEntry.value, Nat.add_sub_cancel_left]
  · rintro ⟨⟨hlo, hhi⟩, hval⟩
    refine ⟨p.1 - e.oldLoc, List.mem_range.mpr (by omega), Prod.ext (Nat.add_sub_cancel' hlo) ?_⟩
    rw [hval, ExtentEntry.value]

theorem ExtentEntry.pairs_grow (e : ExtentEntry) :
    ({ e with size := e.size + 1 } : ExtentEntry).pairs =
    e.pairs ++ [(e.oldLoc + e.size, (e.newLoc + e.size) % 2 ^ 64)] := by
  rw [ExtentEntry.pairs, List.range_succ, List.map_append]
  rfl

/-- Each run ends before the next begins. -/
def InOrder (l : List ExtentEntry) : Prop := l.Pairwise fun x y => x.oldLoc + x.size ≤ y.oldLoc

/-- The table that some pairs have been added to. -/
structure Built (ps : List (ℕ × ℕ)) (t : ExtentTable) : Prop where
  pairs : t.list.flatMap ExtentEntry.pairs = ps
  pos : ∀ e ∈ t.list, 0 < e.size
  inOrder : t.sorted = true → InOrder t.list

/-- The numbers of a file system. -/
def Bounded (ps : List (ℕ × ℕ)) : Prop := ∀ p ∈ ps, p.1 < 2 ^ 48 ∧ p.2 < 2 ^ 64

instance (ps : List (ℕ × ℕ)) : Decidable (Bounded ps) :=
  inferInstanceAs (Decidable (∀ p ∈ ps, p.1 < 2 ^ 48 ∧ p.2 < 2 ^ 64))

theorem Built.end_le (h : Built ps t) (hps : Bounded ps) (he : e ∈ t.list) :
    e.oldLoc + e.size ≤ 2 ^ 48 := by
  have hpos := h.pos e he
  have hmem : (e.oldLoc + (e.size - 1), e.value (e.oldLoc + (e.size - 1))) ∈ ps := by
    rw [← h.pairs]
    exact List.mem_flatMap.mpr ⟨e, he, ExtentEntry.mem_pairs.mpr ⟨⟨by omega, by omega⟩, rfl⟩⟩
  have hlt := (hps _ hmem).1
  dsimp only at hlt
  omega

theorem ExtentEntry.pairs_one (hn : n < 2 ^ 64) : (⟨o, n, 1⟩ : ExtentEntry).pairs = [(o, n)] := by
  rw [ExtentEntry.pairs, List.range_one, List.map_singleton]
  dsimp only
  rw [Nat.add_zero, Nat.add_zero, Nat.mod_eq_of_lt hn]

/-- **A pair is added.** -/
theorem Built.add (h : Built ps t) (hps : Bounded ps) (hn : n < 2 ^ 64) :
    Built (ps ++ [(o, n)]) (t.add o n) := by
  -- the first run, the last run grown by one, or a run of its own
  rcases List.eq_nil_or_concat t.list with hnil | ⟨l, ent, hl⟩
  · have hps' : ps = [] := by rw [← h.pairs, hnil]; rfl
    rw [ExtentTable.add, hnil, hps']
    refine ⟨?_, ?_, fun _ => List.pairwise_singleton _ _⟩
    · rw [List.getLast?_nil]
      dsimp only
      rw [List.nil_append, List.flatMap_singleton, ExtentEntry.pairs_one hn, List.nil_append]
    · intro e he
      rw [List.mem_singleton.mp he]
      exact Nat.one_pos
  · rw [List.concat_eq_append] at hl
    have hent : ent ∈ t.list := hl ▸ List.mem_append_right l (List.mem_singleton_self ent)
    have hend := h.end_le hps hent
    have hpos := h.pos ent hent
    have hpairs := h.pairs
    rw [hl, List.flatMap_append, List.flatMap_singleton] at hpairs
    rw [ExtentTable.add, hl, List.getLast?_concat, List.dropLast_concat]
    dsimp only
    rw [Nat.mod_eq_of_lt (show ent.oldLoc + ent.size < 2 ^ 64 by omega)]
    split
    · next hmerge =>
      refine ⟨?_, fun e he => ?_, fun hs => ?_⟩
      · dsimp only
        rw [List.flatMap_append, List.flatMap_singleton, ExtentEntry.pairs_grow, hmerge.1, hmerge.2,
          ← List.append_assoc, hpairs]
      · rcases List.mem_append.mp he with he | he
        · exact h.pos e (hl ▸ List.mem_append_left _ he)
        · rw [List.mem_singleton.mp he]
          exact Nat.succ_pos _
      · have hin := h.inOrder hs
        rw [hl] at hin
        obtain ⟨h1, -, h3⟩ := List.pairwise_append.mp hin
        refine List.pairwise_append.mpr ⟨h1, List.pairwise_singleton _ _, fun x hx y hy => ?_⟩
        rw [List.mem_singleton.mp hy]
        exact h3 x hx ent (List.mem_singleton_self ent)
    · refine ⟨?_, fun e he => ?_, fun hs => ?_⟩
      · dsimp only
        rw [← hl, List.flatMap_append, List.flatMap_singleton, ExtentEntry.pairs_one hn, h.pairs]
      · rcases List.mem_append.mp he with he | he
        · exact h.pos e (hl ▸ he)
        · rw [List.mem_singleton.mp he]
          exact Nat.one_pos
      · dsimp only at hs
        split at hs
        · cases hs
        · next hle =>
          have hin := h.inOrder hs
          refine List.pairwise_append.mpr ⟨hl ▸ hin, List.pairwise_singleton _ _,
            fun x hx y hy => ?_⟩
          rw [List.mem_singleton.mp hy]
          have hlast : x.oldLoc + x.size ≤ ent.oldLoc + ent.size := by
            rw [hl] at hin
            rcases List.mem_append.mp hx with hx | hx
            · exact ((List.pairwise_append.mp hin).2.2 x hx ent (List.mem_singleton_self ent)).trans
                (Nat.le_add_right _ _)
            · rw [List.mem_singleton.mp hx]
          exact hlast.trans (not_lt.mp hle)

/-- **The table of some pairs**, when they have been added one by one. -/
theorem built_addAll (hps : Bounded ps) : Built ps (ExtentTable.create.addAll ps) := by
  induction ps using List.reverseRecOn with
  | nil => exact ⟨rfl, nofun, fun _ => List.Pairwise.nil⟩
  | append_singleton ps p ih =>
    have hps' : Bounded ps := fun q hq => hps q (List.mem_append_left _ hq)
    have hp := hps p (List.mem_append_right _ (List.mem_singleton_self p))
    rw [ExtentTable.addAll, List.foldl_append]
    exact (ih hps').add hps' hp.2

/-! ### Distinct locations -/

/-- Runs that have no location in common. -/
def RunsApart (l : List ExtentEntry) : Prop := l.Pairwise fun x y => ∀ o, x.Has o → ¬y.Has o

theorem Built.apart (h : Built ps t) (hnd : (ps.map Prod.fst).Nodup) : RunsApart t.list := by
  rw [← h.pairs, List.map_flatMap, List.nodup_flatMap] at hnd
  refine hnd.2.imp fun {x y} hdisj o hx hy => ?_
  have hmem : ∀ e : ExtentEntry, e.Has o → o ∈ (fun e : ExtentEntry => e.pairs.map Prod.fst) e :=
    fun e he =>
    List.mem_map.mpr ⟨(o, e.value o), ExtentEntry.mem_pairs.mpr ⟨he, rfl⟩, rfl⟩
  exact hdisj (hmem x hx) (hmem y hy)

theorem RunsApart.perm (h : RunsApart l) (hp : l'.Perm l) : RunsApart l' :=
  (hp.pairwise_iff fun hab o hb ha => hab o ha hb).mpr h

/-- A location is in one place of the list. -/
theorem RunsApart.unique (h : RunsApart l) {i j : ℕ} (hi : l[i]? = some x) (hj : l[j]? = some y)
    (hx : x.Has o) (hy : y.Has o) : i = j := by
  obtain ⟨hil, rfl⟩ := List.getElem?_eq_some_iff.mp hi
  obtain ⟨hjl, rfl⟩ := List.getElem?_eq_some_iff.mp hj
  rcases lt_trichotomy i j with hlt | heq | hlt
  · exact absurd hy (List.pairwise_iff_getElem.mp h i j hil hjl hlt o hx)
  · exact heq
  · exact absurd hx (List.pairwise_iff_getElem.mp h j i hjl hil hlt o hy)

/-! ### The search -/

/-- The runs are not empty, and end below the end of 64 bits. -/
def RunsFit (l : List ExtentEntry) : Prop := ∀ e ∈ l, 0 < e.size ∧ e.oldLoc + e.size < 2 ^ 64

/-- A round looks at an entry of the window. -/
theorem translateFrom_round {rounds i : ℕ} {low high : ℤ} (hle : low ≤ high)
    (hi : mid o low high = i) (hent : l[i]? = some e) (hend : e.oldLoc + e.size < 2 ^ 64) :
    translateFrom l mid o (rounds + 1) low high =
      if e.oldLoc ≤ o ∧ o < e.oldLoc + e.size then some (e.value o)
      else if o < e.oldLoc then translateFrom l mid o rounds low (i - 1)
      else translateFrom l mid o rounds (i + 1) high := by
  rw [translateFrom, if_pos hle, hi]
  dsimp only
  rw [Int.toNat_natCast, hent]
  dsimp only
  rw [Nat.mod_eq_of_lt hend, ExtentEntry.value]

/-- **A search ends**, with 0 or with what a run of the window says. -/
theorem translateFrom_sound (hmid : MidInWindow mid) (hfit : RunsFit l) {rounds : ℕ} {low high : ℤ}
    (hlow : 0 ≤ low)
    (hhigh : high < l.length) (hrounds : high - low + 1 < rounds) (h0 : 0 < rounds) :
    ∃ v, translateFrom l mid o rounds low high = some v ∧
      (v = 0 ∨ ∃ (k : ℕ) (e : ExtentEntry), low ≤ k ∧ (k : ℤ) ≤ high ∧ l[k]? = some e ∧ e.Has o ∧
        v = e.value o) := by
  induction rounds generalizing low high with
  | zero => omega
  | succ rounds ih =>
    by_cases hle : low ≤ high
    · obtain ⟨hlo, hhi⟩ := hmid o low high hle
      obtain ⟨i, hi⟩ : ∃ i : ℕ, mid o low high = i := ⟨(mid o low high).toNat, by omega⟩
      have hil : i < l.length := by omega
      obtain ⟨ent, hent⟩ : ∃ ent, l[i]? = some ent := ⟨l[i], List.getElem?_eq_getElem hil⟩
      rw [translateFrom_round hle hi hent (hfit ent (List.mem_of_getElem? hent)).2]
      split
      · next hhas => exact ⟨_, rfl, Or.inr ⟨i, ent, by omega, by omega, hent, hhas, rfl⟩⟩
      · split
        · obtain ⟨v, hv, hres⟩ := @ih low ((i : ℤ) - 1) hlow (by omega) (by omega) (by omega)
          refine ⟨v, hv, hres.imp_right ?_⟩
          rintro ⟨k, e, h1, h2, h3⟩
          exact ⟨k, e, h1, by omega, h3⟩
        · obtain ⟨v, hv, hres⟩ := @ih ((i : ℤ) + 1) high (by omega) hhigh (by omega) (by omega)
          refine ⟨v, hv, hres.imp_right ?_⟩
          rintro ⟨k, e, h1, h2, h3⟩
          exact ⟨k, e, by omega, h2, h3⟩
    · exact ⟨0, by rw [translateFrom, if_neg hle], Or.inl rfl⟩

/-- **In a list in order, the run that has the location is found.** -/
theorem translateFrom_found (hmid : MidInWindow mid) (hfit : RunsFit l) (hin : InOrder l)
    {rounds j : ℕ} {low high : ℤ}
    (hlow : 0 ≤ low) (hhigh : high < l.length) (hrounds : high - low + 1 < rounds)
    (hj : l[j]? = some e) (he : e.Has o) (hlj : low ≤ j) (hjh : (j : ℤ) ≤ high) :
    translateFrom l mid o rounds low high = some (e.value o) := by
  -- on the rounds left; the window always keeps the run that has the location
  induction rounds generalizing low high with
  | zero => omega
  | succ rounds ih =>
    obtain ⟨hlo, hhi⟩ := hmid o low high (by omega)
    obtain ⟨i, hi⟩ : ∃ i : ℕ, mid o low high = i := ⟨(mid o low high).toNat, by omega⟩
    have hil : i < l.length := by omega
    obtain ⟨ent, hent⟩ : ∃ ent, l[i]? = some ent := ⟨l[i], List.getElem?_eq_getElem hil⟩
    obtain ⟨hjl, hje⟩ := List.getElem?_eq_some_iff.mp hj
    obtain ⟨hil', hie⟩ := List.getElem?_eq_some_iff.mp hent
    -- runs in front of it end below its start, runs behind it begin past its end
    have hbefore : i < j → ent.oldLoc + ent.size ≤ e.oldLoc := fun hij =>
      hie ▸ hje ▸ List.pairwise_iff_getElem.mp hin i j hil hjl hij
    have hbehind : j < i → e.oldLoc + e.size ≤ ent.oldLoc := fun hji =>
      hie ▸ hje ▸ List.pairwise_iff_getElem.mp hin j i hjl hil hji
    obtain ⟨heo, hoe⟩ := he
    rw [translateFrom_round (by omega) hi hent (hfit ent (List.mem_of_getElem? hent)).2]
    split
    · next hhas =>
      have hij : i = j := by
        rcases lt_trichotomy i j with hlt | heq | hlt
        · have := hbefore hlt
          omega
        · exact heq
        · have := hbehind hlt
          omega
      rw [hij, hj] at hent
      rw [← Option.some.inj hent]
    · next hnot =>
      split
      · next hlt =>
        have hji : j < i := by
          by_contra hge
          rcases Nat.lt_or_eq_of_le (not_lt.mp hge) with hij | hij
          · have := hbefore hij
            omega
          · rw [hij, hj] at hent
            rw [Option.some.inj hent] at heo
            omega
        exact ih hlow (by omega) (by omega) hlj (by omega)
      · next hge =>
        have hij : i < j := by
          by_contra hle
          rcases Nat.lt_or_eq_of_le (not_lt.mp hle) with hji | hji
          · have := hbehind hji
            omega
          · rw [← hji, hj] at hent
            rw [Option.some.inj hent] at heo hoe
            omega
        exact ih (by omega) hhigh (by omega) (by omega) hjh

/-! ### Sorting -/

/-- The difference of two numbers, as an `int`. -/
theorem cmpOrders_of_agrees (h : CmpAgrees l) : CmpOrders l := by
  have hle : ∀ x ∈ l, ∀ y ∈ l, extentCmp x y ≤ 0 ↔ x.oldLoc ≤ y.oldLoc := by
    intro x hx y hy
    rcases lt_trichotomy x.oldLoc y.oldLoc with hlt | heq | hlt
    · exact iff_of_true (h x hx y hy hlt).1.le hlt.le
    · rw [extentCmp, heq, sub_self]
      exact iff_of_true (by decide) le_rfl
    · exact iff_of_false (not_le.mpr (h y hy x hx hlt).2) (not_le.mpr hlt)
  refine ⟨fun x hx y hy => ?_, fun x hx y hy z hz hxy hyz => ?_⟩
  · rcases lt_trichotomy x.oldLoc y.oldLoc with hlt | heq | hlt
    · exact iff_of_true (h x hx y hy hlt).1 (h x hx y hy hlt).2
    · rw [extentCmp, extentCmp, heq, sub_self]
      decide
    · have hyx := h y hy x hx hlt
      exact iff_of_false (not_lt.mpr hyx.2.le) (not_lt.mpr hyx.1.le)
  · rw [hle x hx y hy] at hxy
    rw [hle y hy z hz] at hyz
    rw [hle x hx z hz]
    exact hxy.trans hyz

/-- With a comparison that agrees, `qsort` puts the runs in order. -/
theorem QSorts.inOrder (h : QSorts l l') (hagree : CmpAgrees l) (hapart : RunsApart l)
    (hfit : RunsFit l) : InOrder l' := by
  refine ((h.sorted (cmpOrders_of_agrees hagree)).and (hapart.perm h.perm)).imp_of_mem ?_
  rintro x y hx hy ⟨hcmp, hdisj⟩
  have hx := h.perm.subset hx
  have hy := h.perm.subset hy
  have hle : x.oldLoc ≤ y.oldLoc := by
    by_contra hlt
    have := (hagree y hy x hx (not_le.mp hlt)).2
    omega
  by_contra hlt
  exact hdisj y.oldLoc ⟨hle, not_le.mp hlt⟩ ⟨le_refl _, Nat.lt_add_of_pos_right (hfit y hy).1⟩

/-- An order on the entries of a list, made into one on all entries: the others come first. -/
def cmpLe (l : List ExtentEntry) (x y : ExtentEntry) : Bool :=
  decide (x ∉ l ∨ y ∈ l ∧ extentCmp x y ≤ 0)

/-- **With a comparison that does not agree, `qsort` may put two runs in the wrong order.** -/
theorem exists_qsorts_not_inOrder (h : ¬CmpAgrees l) :
    ∃ l', QSorts l l' ∧ ¬l'.Pairwise fun x y => x.oldLoc ≤ y.oldLoc := by
  obtain ⟨x, hx, y, hy, hlt, hnot⟩ : ∃ x ∈ l, ∃ y ∈ l, x.oldLoc < y.oldLoc ∧
      ¬(extentCmp x y < 0 ∧ 0 < extentCmp y x) := by
    by_contra hall
    refine h fun x hx y hy hlt => ?_
    by_contra hnot
    exact hall ⟨x, hx, y, hy, hlt, hnot⟩
  have hne : x ≠ y := fun heq => by
    rw [heq] at hlt
    exact absurd hlt (lt_irrefl _)
  -- the two runs at the front, the larger one first
  obtain ⟨l₁, hl₁⟩ : ∃ l₁, l₁ = y :: x :: (l.erase y).erase x := ⟨_, rfl⟩
  have hperm : l₁.Perm l := by
    rw [hl₁]
    exact ((List.perm_cons_erase ((List.mem_erase_of_ne hne).mpr hx)).symm.cons y).trans
      (List.perm_cons_erase hy).symm
  have hsub : [y, x].Sublist l₁ := by
    rw [hl₁]
    exact ((List.nil_sublist _).cons_cons x).cons_cons y
  have hbad : ∀ {l' : List ExtentEntry}, [y, x].Sublist l' → ¬l'.Pairwise fun x y =>
      x.oldLoc ≤ y.oldLoc := by
    intro l' hs hp
    have := List.rel_of_pairwise_cons (hp.sublist hs) (List.mem_singleton_self x)
    omega
  by_cases hc : CmpOrders l
  · have htrans : ∀ a b c, cmpLe l a b = true → cmpLe l b c = true → cmpLe l a c = true := by
      intro a b c hab hbc
      rw [cmpLe, decide_eq_true_eq] at hab hbc ⊢
      by_cases ha : a ∈ l
      · obtain ⟨hb, hab⟩ := hab.resolve_left (not_not.mpr ha)
        obtain ⟨hcl, hbc⟩ := hbc.resolve_left (not_not.mpr hb)
        exact Or.inr ⟨hcl, hc.trans a ha b hb c hcl hab hbc⟩
      · exact Or.inl ha
    have htotal : ∀ a b, (cmpLe l a b || cmpLe l b a) = true := by
      intro a b
      rw [Bool.or_eq_true, cmpLe, cmpLe, decide_eq_true_eq, decide_eq_true_eq]
      by_cases ha : a ∈ l
      · by_cases hb : b ∈ l
        · rcases le_or_gt (extentCmp a b) 0 with hle | hgt
          · exact Or.inl (Or.inr ⟨hb, hle⟩)
          · exact Or.inr (Or.inr ⟨ha, ((hc.anti b hb a ha).mpr hgt).le⟩)
        · exact Or.inr (Or.inl hb)
      · exact Or.inl (Or.inl ha)
    have hyx : cmpLe l y x = true := by
      rw [cmpLe, decide_eq_true_eq]
      refine Or.inr ⟨hx, not_lt.mp fun hpos => hnot ⟨(hc.anti x hx y hy).mpr hpos, hpos⟩⟩
    refine ⟨l₁.mergeSort (cmpLe l), ⟨(List.mergeSort_perm _ _).trans hperm, fun _ => ?_⟩,
      hbad (List.pair_sublist_mergeSort htrans htotal hyx hsub)⟩
    refine (List.pairwise_mergeSort htrans htotal l₁).imp_of_mem fun {a b} ha _ hab => ?_
    rw [cmpLe, decide_eq_true_eq] at hab
    exact (hab.resolve_left (not_not.mpr (hperm.subset (List.mem_mergeSort.mp ha)))).2
  · exact ⟨l₁, ⟨hperm, fun h => absurd h hc⟩, hbad hsub⟩

/-- **In a list that is not in order, a search can miss a run.** -/
theorem exists_translate_zero (hfit : RunsFit l) (hapart : RunsApart l)
    (h : ¬l.Pairwise fun x y => x.oldLoc ≤ y.oldLoc) :
    ∃ mid, MidInWindow mid ∧ ∃ e ∈ l,
      translateFrom l mid e.oldLoc (l.length + 1) 0 (l.length - 1) = some 0 := by
  obtain ⟨i, j, hi, hj, hij, hlt⟩ : ∃ i j, ∃ (hi : i < l.length) (hj : j < l.length), i < j ∧
      l[j].oldLoc < l[i].oldLoc := by
    by_contra hall
    refine h (List.pairwise_iff_getElem.mpr fun i j hi hj hij => ?_)
    by_contra hle
    exact hall ⟨i, j, hi, hj, hij, not_le.mp hle⟩
  -- the search looks at the run that is too far in front
  obtain ⟨mid, hmid⟩ : ∃ mid : ℕ → ℤ → ℤ → ℤ,
      mid = (fun _ low high => if low ≤ (i : ℤ) ∧ (i : ℤ) ≤ high then (i : ℤ) else low) := ⟨_, rfl⟩
  have hwin : MidInWindow mid := by
    intro o low high hle
    rw [hmid]
    dsimp only
    split <;> omega
  have hfirst : mid l[j].oldLoc 0 (l.length - 1) = i := by
    rw [hmid]
    exact if_pos ⟨by omega, by omega⟩
  refine ⟨mid, hwin, l[j], List.getElem_mem hj, ?_⟩
  rw [translateFrom_round (by omega) hfirst (List.getElem?_eq_getElem hi)
    (hfit _ (List.getElem_mem hi)).2, if_neg (by omega), if_pos hlt]
  obtain ⟨v, hv, hres⟩ :=
    @translateFrom_sound l l[j].oldLoc mid hwin hfit l.length 0 (i - 1) (le_refl _) (by omega)
    (by omega) (by omega)
  rcases hres with rfl | ⟨k, e, -, hk, hek, hhas, -⟩
  · exact hv
  · have := hapart.unique hek (List.getElem?_eq_getElem hj) hhas
      ⟨le_refl _, Nat.lt_add_of_pos_right (hfit _ (List.getElem_mem hj)).1⟩
    omega

/-! ### Going through the runs -/

theorem iterateAll_eq {t : ExtentTable} (hpos : ∀ e ∈ t.list, 0 < e.size) (m : ℕ)
    (hm : t.cursor + m = t.list.length) :
    t.iterateAll (m + 1) = some (t.list.drop t.cursor) := by
  induction m generalizing t with
  | zero =>
    rw [ExtentTable.iterateAll, ExtentTable.iterate, List.getElem?_eq_none (by omega),
      List.drop_of_length_le (by omega)]
    rfl
  | succ m ih =>
    have hlt : t.cursor < t.list.length := by omega
    have hmem := List.getElem_mem hlt
    rw [ExtentTable.iterateAll, ExtentTable.iterate, List.getElem?_eq_getElem hlt]
    dsimp only
    have hrest :=
      @ih { t with cursor := t.cursor + 1 } hpos (by show t.cursor + 1 + m = t.list.length; omega)
    rw [if_neg (hpos _ hmem).ne', hrest]
    exact congrArg some (List.drop_eq_getElem_cons hlt).symm

/-! ### The table translates -/

/-- What holds of every table that a look-up searches. -/
theorem Built.sorts {t' : ExtentTable} (h : Built ps t) (hps : Bounded ps)
    (hnd : (ps.map Prod.fst).Nodup) (hs : t.Sorts t') :
    t'.list.Perm t.list ∧ RunsFit t'.list ∧ RunsApart t'.list := by
  have hperm : t'.list.Perm t.list := by
    rw [ExtentTable.Sorts] at hs
    split at hs
    · rw [hs]
    · exact hs.1.perm
  refine ⟨hperm, fun e he => ?_, (h.apart hnd).perm hperm⟩
  have he := hperm.subset he
  have := h.end_le hps he
  exact ⟨h.pos e he, by omega⟩

/-- **The table translates exactly if** no pair has been added out of order, or the comparison of
the runs agrees with the order of their locations; **and only if**, when no location is moved to
0. -/
theorem translatesExactly_iff (hps : Bounded ps) (hnd : (ps.map Prod.fst).Nodup) :
    ((ExtentTable.create.addAll ps).sorted = true ∨ CmpAgrees (ExtentTable.create.addAll ps).list →
        TranslatesExactly ps) ∧
      ((∀ p ∈ ps, p.2 ≠ 0) → TranslatesExactly ps →
        (ExtentTable.create.addAll ps).sorted = true ∨
        CmpAgrees (ExtentTable.create.addAll ps).list) := by
  have hb := built_addAll hps
  obtain ⟨t, ht⟩ : ∃ t, t = ExtentTable.create.addAll ps := ⟨_, rfl⟩
  rw [← ht] at hb ⊢
  have hfit : RunsFit t.list := fun e he => ⟨hb.pos e he, by have := hb.end_le hps he; omega⟩
  have hapart := hb.apart hnd
  refine ⟨fun hcond => ⟨fun t' hs mid hmid p hp => ?_, fun t' hs mid hmid o _ ho => ?_,
    fun t' hs => ?_⟩, fun hne h => ?_⟩
  · rw [← ht] at hs
    obtain ⟨hperm, hfit', hapart'⟩ := hb.sorts hps hnd hs
    have hin : InOrder t'.list := by
      rw [ExtentTable.Sorts] at hs
      split at hs
      · next hsorted =>
        rw [hs]
        exact hb.inOrder hsorted
      · next hsorted => exact hs.1.inOrder (hcond.resolve_left hsorted) hapart hfit
    rw [← hb.pairs] at hp
    obtain ⟨e, he, hpe⟩ := List.mem_flatMap.mp hp
    obtain ⟨hhas, hval⟩ := ExtentEntry.mem_pairs.mp hpe
    obtain ⟨j, hj, hje⟩ := List.getElem_of_mem (hperm.symm.subset he)
    rw [ExtentTable.translate, hval]
    exact translateFrom_found hmid hfit' hin (le_refl _) (by omega) (by omega)
      (List.getElem?_eq_some_iff.mpr ⟨hj, hje⟩) hhas (by omega) (by omega)
  · rw [← ht] at hs
    obtain ⟨hperm, hfit', hapart'⟩ := hb.sorts hps hnd hs
    rw [ExtentTable.translate]
    obtain ⟨v, hv, hres⟩ :=
      @translateFrom_sound t'.list o mid hmid hfit' (t'.list.length + 1) 0 (t'.list.length - 1)
      (le_refl _) (by omega) (by omega) (by omega)
    rcases hres with rfl | ⟨k, e, -, -, hek, hhas, -⟩
    · exact hv
    · -- a run that has the location would say that it has been added
      have he := hperm.subset (List.mem_of_getElem? hek)
      refine absurd rfl (ho (o, e.value o) ?_)
      rw [← hb.pairs]
      exact List.mem_flatMap.mpr ⟨e, he, ExtentEntry.mem_pairs.mpr ⟨hhas, rfl⟩⟩
  · rw [← ht] at hs
    obtain ⟨hperm, hfit', -⟩ := hb.sorts hps hnd hs
    refine ⟨_, _, @iterateAll_eq t'.rewind (fun e he => (hfit' e he).1) t'.list.length
      (Nat.zero_add _), ?_⟩
    rw [← hb.pairs]
    exact hperm.flatMap_right _
  · by_contra hcond
    obtain ⟨hsorted, hnot⟩ := not_or.mp hcond
    obtain ⟨l', hq, hbad⟩ := exists_qsorts_not_inOrder hnot
    have hs : t.Sorts ⟨l', t.cursor, true⟩ := by
      rw [ExtentTable.Sorts, if_neg hsorted]
      exact ⟨hq, rfl, rfl⟩
    obtain ⟨hperm, hfit', hapart'⟩ := hb.sorts hps hnd hs
    obtain ⟨mid, hmid, e, he, hzero⟩ := exists_translate_zero hfit' hapart' hbad
    have hmem : (e.oldLoc, e.value e.oldLoc) ∈ ps := by
      rw [← hb.pairs]
      exact List.mem_flatMap.mpr ⟨e, hperm.subset he, ExtentEntry.mem_pairs.mpr
        ⟨⟨le_refl _, Nat.lt_add_of_pos_right (hfit' e he).1⟩, rfl⟩⟩
    have hfound := h.added _ (ht ▸ hs) mid hmid _ hmem
    rw [ExtentTable.translate, hzero] at hfound
    exact hne _ hmem (Option.some.inj hfound).symm

/-- Two locations that lie `2 ^ 32` apart are equal for `extent_cmp`, and may stay in the order that
they have been added in. -/
def farPairs : List (ℕ × ℕ) := [(2 ^ 32 + 8, 100), (8, 200)]

theorem not_translatesExactly_far : ¬TranslatesExactly farPairs := by
  intro h
  have hs : (ExtentTable.create.addAll farPairs).Sorts ⟨[⟨2 ^ 32 + 8, 100, 1⟩, ⟨8, 200, 1⟩],
      0, true⟩ := by
    rw [ExtentTable.Sorts, if_neg (by decide)]
    exact ⟨⟨List.Perm.refl _, fun _ => by decide⟩, rfl, rfl⟩
  have hfound :=
    h.added _ hs (fun _ low _ => low) (fun _ _ _ hle => ⟨le_refl _, hle⟩) (8, 200) (by decide)
  exact absurd hfound (by decide)

theorem translatesExactly_iff_near : TranslatesExactly [(5, 1), (6, 2), (3, 9)] :=
  (translatesExactly_iff (by decide) (by decide)).1 (Or.inr (by decide))

end ExtentTable

end E2fsprogs
