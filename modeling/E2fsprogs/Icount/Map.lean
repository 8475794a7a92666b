import E2fsprogs.Icount.Operations

/-!
# The inode-count store is a map

An icount in its bitmap and list representation holds one count for each inode
(`E2fsprogs.Icount.value`), whatever stale entries the list has. A call on an icount whose
list is sorted and has fewer than `2 ^ 31` entries does to these counts what it does to a
plain map (`E2fsprogs.step_spec`), or runs out of memory and changes nothing.

The bound is that of the `int` positions. A list of `2 ^ 31` entries is grown at the
position `(int) icount->count`, which is negative.
-/

namespace E2fsprogs

open SortedList

/-! ### Positions -/

theorem toInt_of_lt {n : ℕ} (h : n < 2 ^ 31) : toInt n = n := by
  rw [toInt, Nat.mod_eq_of_lt (by omega), if_pos h]

theorem toUnsigned_of_lt {n : ℕ} (h : n < 2 ^ 32) : toUnsigned n = n := by
  rw [toUnsigned]
  omega

theorem elAt_natCast (l : List IcountEl) (i : ℕ) : elAt l i = l[i]? := by
  rw [elAt, if_pos (Int.natCast_nonneg i), Int.toNat_natCast]

/-! ### Searching the list -/

section Search

variable {l : List IcountEl} {ino : ℕ}

/-- How a search ends: at the entry of the inode, or at the gap it belongs in. -/
def SearchEnds (l : List IcountEl) (ino : ℕ) (r : Option ElSearch) : Prop :=
  (∃ (i : ℕ) (el : IcountEl), r = some (.found i) ∧ l[i]? = some el ∧ el.ino = ino) ∨
  ∃ i : ℕ, r = some (.missing i) ∧ i ≤ l.length ∧ Below IcountEl.ino l ino i ∧
    Above IcountEl.ino l ino i

/-- **The binary search.** Its window is `[low, n)`. -/
theorem searchIcountEl_spec (hs : Sorted IcountEl.ino l) (hlen : l.length < 2 ^ 31) (fuel : ℕ) :
    ∀ low n : ℕ, low ≤ n → n ≤ l.length → n - low < fuel → Below IcountEl.ino l ino low →
    Above IcountEl.ino l ino n →
    SearchEnds l ino (searchIcountEl l ino fuel low ((n : ℤ) - 1)) := by
  induction fuel with
  | zero =>
    intro low n _ _ hfuel
    omega
  | succ fuel ih =>
    intro low n hle hn hfuel hb ha
    rw [searchIcountEl]
    rcases Nat.eq_or_lt_of_le hle with rfl | hlt
    · rw [if_neg (by omega)]
      exact Or.inr ⟨low, rfl, hn, hb, ha⟩
    · rw [if_pos (by omega)]
      obtain ⟨high, rfl⟩ : ∃ high, n = high + 1 := ⟨n - 1, by omega⟩
      have hhigh : ((high + 1 : ℕ) : ℤ) - 1 = (high : ℕ) := by omega
      have hmid : toInt ((toUnsigned low + toUnsigned high) % 2 ^ 32 / 2) =
          ((low + high) / 2 : ℕ) := by
        rw [toUnsigned_of_lt (by omega), toUnsigned_of_lt (by omega),
          Nat.mod_eq_of_lt (by omega), toInt_of_lt (by omega)]
      rw [hhigh, hmid]
      dsimp only
      rw [elAt_natCast]
      have hget : l[(low + high) / 2]? = some (l.get ⟨(low + high) / 2, by omega⟩) :=
        List.getElem?_eq_getElem _
      generalize l.get ⟨(low + high) / 2, _⟩ = el at hget
      rw [hget]
      simp only
      rcases Nat.lt_trichotomy ino el.ino with h | h | h
      · rw [if_neg h.ne, if_pos h]
        exact ih low _ (by omega) (by omega) (by omega) hb (hs.above hget h)
      · rw [if_pos h]
        exact Or.inl ⟨_, el, rfl, hget, h.symm⟩
      · rw [if_neg h.ne', if_neg (by omega), if_pos (by omega), ← hhigh]
        exact ih ((low + high) / 2 + 1) (high + 1) (by omega) hn (by omega) (hs.below hget h) ha

end Search

/-! ### Entries of the list -/

/-- The count an inode has in the list. -/
def countIn (l : List IcountEl) (ino : ℕ) : ℕ :=
  ((lookup IcountEl.ino l ino).map IcountEl.count).getD 0

/-- A list as the operations keep it. -/
structure Icount.ListOk (icount : Icount) : Prop where
  sorted : Sorted IcountEl.ino icount.list
  room : icount.list.length ≤ icount.size

/-- Memory has been refused. -/
def IcEnv.Refuses (env : IcEnv) : Prop := ∃ n, env.resizeMem n = false

section Entries

variable {env : IcEnv} {icount : Icount} {ino : ℕ}

theorem lastLookupIs_eq_none (h : lookup IcountEl.ino icount.list ino = none) :
    icount.lastLookupIs ino = none := by
  rw [Icount.lastLookupIs, Option.filter_eq_none_iff]
  intro i _ hi
  obtain ⟨el, hel, hino⟩ := Option.map_eq_some_iff.mp (by simpa using hi)
  have := List.find?_eq_none.mp h el (List.mem_of_getElem? hel)
  simp [hino] at this

theorem grow_spec (env : IcEnv) (hroom : icount.list.length ≤ icount.size)
    (hlen : icount.list.length < 2 ^ 31) :
    (icount.grow env = none ∧ env.Refuses) ∨
    ∃ size, icount.list.length < size ∧ icount.grow env = some { icount with size := size } := by
  rw [Icount.grow]
  by_cases hsize : icount.size ≤ icount.list.length
  · have hnew : icount.size + 100 ≤ icount.newSize env := by
      rw [Icount.newSize, Nat.mod_eq_of_lt (show icount.size + 100 < 2 ^ 32 by omega)]
      have hmax : ∀ e n : ℕ, n ≤ if e < n then n else e := by
        intro e n
        split <;> omega
      exact hmax _ _
    rw [if_pos hsize]
    rcases hmem : env.resizeMem (icount.newSize env * 8) with _ | _
    · exact Or.inl ⟨if_neg (by simp), _, hmem⟩
    · exact Or.inr ⟨icount.newSize env, by omega, if_pos rfl⟩
  · rw [if_neg hsize]
    exact Or.inr ⟨icount.size, by omega, rfl⟩

/-- **Putting an entry in**, in the gap its inode belongs in. -/
theorem insertIcountEl_spec (env : IcEnv) {i : ℕ} (hroom : icount.list.length ≤ icount.size)
    (hlen : icount.list.length < 2 ^ 31) (hi : i ≤ icount.list.length)
    (hno : lookup IcountEl.ino icount.list ino = none) :
    (insertIcountEl env icount ino i = (.null, icount) ∧ env.Refuses) ∨
    ∃ size, icount.list.length < size ∧ insertIcountEl env icount ino i =
      (.el i, { icount with
        size := size
        list := insertAt icount.list i ⟨ino, 0⟩
        lastLookup := some i }) := by
  rw [insertIcountEl, lastLookupIs_eq_none hno]
  rcases grow_spec env hroom hlen with ⟨hg, hmem⟩ | ⟨size, hroom, hg⟩
  · rw [hg]
    exact Or.inl ⟨rfl, hmem⟩
  · rw [hg]
    refine Or.inr ⟨size, hroom, ?_⟩
    simp only [toInt_of_lt hlen, Int.toNat_natCast]
    rw [if_neg (by omega), if_neg (by omega), if_neg (by omega)]

/-- A lookup that finds the entry of the inode. -/
def Finds (icount : Icount) (ino : ℕ) (r : ElPtr × Icount) : Prop :=
  ∃ i el cursor, icount.list[i]? = some el ∧ el.ino = ino ∧
    r = (.el i, { icount with cursor := cursor })

/-- What the search leaves to `get_icount_el`: the entry, or the gap and whether it is filled. -/
theorem getIcountEl_searched (env : IcEnv) (create : Bool) (hs : Sorted IcountEl.ino icount.list)
    (hlen : icount.list.length < 2 ^ 31)
    (hlast : ¬(create ∧ ∀ last ∈ icount.list.getLast?, last.ino < ino)) :
    Finds icount ino (getIcountEl env icount ino create) ∨
    ∃ i cursor, i ≤ icount.list.length ∧ Below IcountEl.ino icount.list ino i ∧
      Above IcountEl.ino icount.list ino i ∧
      getIcountEl env icount ino create =
        if create then insertIcountEl env { icount with cursor := cursor } ino i
        else (.null, { icount with cursor := cursor }) := by
  rw [getIcountEl, if_neg hlast]
  by_cases hnil : icount.list = []
  · rw [if_pos hnil]
    refine Or.inr ⟨0, icount.cursor, Nat.zero_le _, below_zero, ?_, ?_⟩
    · rw [hnil]
      exact above_length
    · rw [if_neg fun hc => hlast ⟨hc, by simp [hnil]⟩]
  · rw [if_neg hnil]
    obtain ⟨cursor, hcursor⟩ : ∃ cursor, (if icount.list.length ≤ icount.cursor then
        { icount with cursor := 0 } else icount) = { icount with cursor := cursor } := by
      split
      · exact ⟨0, rfl⟩
      · exact ⟨icount.cursor, rfl⟩
    rw [hcursor]
    dsimp only
    by_cases hat : (icount.list[cursor]?).map IcountEl.ino = some ino
    · rw [if_pos hat]
      obtain ⟨el, hel, hino⟩ := Option.map_eq_some_iff.mp hat
      exact Or.inl ⟨cursor, el, cursor + 1, hel, hino, rfl⟩
    · rw [if_neg hat, toInt_of_lt hlen, if_neg (by omega)]
      rcases searchIcountEl_spec hs hlen (icount.list.length + 1) 0 icount.list.length
        (Nat.zero_le _) le_rfl (by omega) (below_zero (k := ino)) above_length with
        ⟨i, el, hr, hel, hino⟩ | ⟨i, hr, hi, hb, ha⟩
      · rw [Nat.cast_zero] at hr
        rw [hr]
        exact Or.inl ⟨i, el, i + 1, hel, hino, rfl⟩
      · rw [Nat.cast_zero] at hr
        rw [hr]
        exact Or.inr ⟨i, cursor, hi, hb, ha, rfl⟩

/-- **Looking an inode up.** -/
theorem getIcountEl_lookup (env : IcEnv) (ino : ℕ) (hs : Sorted IcountEl.ino icount.list)
    (hlen : icount.list.length < 2 ^ 31) :
    Finds icount ino (getIcountEl env icount ino false) ∨
    ∃ cursor, lookup IcountEl.ino icount.list ino = none ∧
      getIcountEl env icount ino false = (.null, { icount with cursor := cursor }) := by
  rcases getIcountEl_searched env false hs hlen (by simp) with h | ⟨i, cursor, -, hb, ha, hr⟩
  · exact Or.inl h
  · exact Or.inr ⟨cursor, lookup_eq_none hb ha, hr⟩

/-- **Looking an inode up or making an entry for it.** -/
theorem getIcountEl_create (env : IcEnv) (ino : ℕ) (hok : icount.ListOk)
    (hlen : icount.list.length < 2 ^ 31) :
    Finds icount ino (getIcountEl env icount ino true) ∨
    (∃ cursor, lookup IcountEl.ino icount.list ino = none ∧ env.Refuses ∧
      getIcountEl env icount ino true = (.null, { icount with cursor := cursor })) ∨
    ∃ i size cursor, i ≤ icount.list.length ∧ icount.list.length < size ∧
      Below IcountEl.ino icount.list ino i ∧ Above IcountEl.ino icount.list ino i ∧
      getIcountEl env icount ino true = (.el i, { icount with
        size := size
        cursor := cursor
        list := insertAt icount.list i ⟨ino, 0⟩
        lastLookup := some i }) := by
  have hgap : Finds icount ino (getIcountEl env icount ino true) ∨
      ∃ i cursor, i ≤ icount.list.length ∧ Below IcountEl.ino icount.list ino i ∧
        Above IcountEl.ino icount.list ino i ∧ getIcountEl env icount ino true =
          insertIcountEl env { icount with cursor := cursor } ino (i : ℕ) := by
    by_cases hlast : ∀ last ∈ icount.list.getLast?, last.ino < ino
    · refine Or.inr ⟨icount.list.length, icount.cursor, le_rfl, hok.sorted.below_length hlast,
        above_length, ?_⟩
      rw [getIcountEl, if_pos ⟨rfl, hlast⟩, toInt_of_lt hlen]
    · exact getIcountEl_searched env true hok.sorted hlen fun h => hlast h.2
  rcases hgap with h | ⟨i, cursor, hi, hb, ha, hr⟩
  · exact Or.inl h
  · rw [hr]
    rcases @insertIcountEl_spec { icount with cursor := cursor } ino env i hok.room hlen hi
      (lookup_eq_none hb ha) with ⟨h, hmem⟩ | ⟨size, hroom, h⟩
    · exact Or.inr (Or.inl ⟨cursor, lookup_eq_none hb ha, hmem, h⟩)
    · exact Or.inr (Or.inr ⟨i, size, cursor, hi, hroom, hb, ha, h⟩)

theorem countIn_eq {i : ℕ} {el : IcountEl} (hs : Sorted IcountEl.ino icount.list)
    (hi : icount.list[i]? = some el) : countIn icount.list el.ino = el.count := by
  rw [countIn, hs.lookup_eq hi]
  rfl

theorem countIn_eq_zero {l : List IcountEl} (h : lookup IcountEl.ino l ino = none) :
    countIn l ino = 0 := by
  rw [countIn, h]
  rfl

/-- An entry with its count changed. -/
theorem modify_count {l : List IcountEl} {i : ℕ} {el : IcountEl} (hs : Sorted IcountEl.ino l)
    (hi : l[i]? = some el) (count : ℕ) :
    Sorted IcountEl.ino (l.modify i fun el => { el with count := count }) ∧
    countIn (l.modify i fun el => { el with count := count }) =
      Function.update (countIn l) el.ino count := by
  have hset : (l.modify i fun el => { el with count := count }) = l.set i ⟨el.ino, count⟩ := by
    rw [List.modify_eq_set_getElem?, hi]
    rfl
  rw [hset]
  have hs' : Sorted IcountEl.ino (l.set i ⟨el.ino, count⟩) := hs.set hi rfl
  refine ⟨hs', funext fun k => ?_⟩
  by_cases hk : k = el.ino
  · subst hk
    have hat : (l.set i ⟨el.ino, count⟩)[i]? = some ⟨el.ino, count⟩ := by
      rw [List.getElem?_set_self (List.getElem?_eq_some_iff.mp hi).1]
    rw [Function.update_self, countIn, hs'.lookup_eq hat]
    rfl
  · rw [Function.update_of_ne hk, countIn,
      lookup_set_of_ne (a := ⟨el.ino, count⟩) hi (Ne.symm hk) (Ne.symm hk), countIn]

end Entries

/-- Two icounts that differ in the list and what belongs to it. -/
structure Icount.SameBits (a b : Icount) : Prop where
  single : a.single = b.single
  multiple : a.multiple = b.multiple
  numInodes : a.numInodes = b.numInodes
  fullmap : a.fullmap = b.fullmap

section Counts

variable {icount : Icount} (env : IcEnv) (ino : ℕ)

theorem setInodeCount_of_list (count : ℕ) (hfull : icount.fullmap = none) :
    setInodeCount env icount ino count = setElCount env icount ino count := by
  rw [setInodeCount, hfull]

theorem getInodeCount_of_list (hfull : icount.fullmap = none) :
    getInodeCount env icount ino = getElCount env icount ino := by
  rw [getInodeCount, hfull]

/-- **Storing a count in the list.** -/
theorem setInodeCount_spec (count : ℕ) (hok : icount.ListOk) (hlen : icount.list.length < 2 ^ 31)
    (hfull : icount.fullmap = none) :
    (∃ icount', setInodeCount env icount ino count = (.ok (), icount') ∧ icount'.ListOk ∧
      icount'.SameBits icount ∧
      countIn icount'.list = Function.update (countIn icount.list) ino count) ∨
    (∃ cursor, setInodeCount env icount ino count =
        (.error .noMemory, { icount with cursor := cursor }) ∧ env.Refuses ∧
      countIn icount.list ino = 0) := by
  rw [setInodeCount_of_list env ino count hfull, setElCount]
  rcases getIcountEl_create env ino hok hlen with ⟨i, el, cursor, hi, rfl, hr⟩ |
    ⟨cursor, hno, hmem, hr⟩ | ⟨i, size, cursor, hi, hroom, hb, ha, hr⟩
  · rw [hr]
    obtain ⟨hs', hc⟩ := modify_count hok.sorted hi count
    refine Or.inl ⟨_, rfl, ⟨hs', ?_⟩, ⟨rfl, rfl, rfl, rfl⟩, hc⟩
    simpa using hok.room
  · rw [hr]
    exact Or.inr ⟨cursor, rfl, hmem, countIn_eq_zero hno⟩
  · rw [hr]
    have hs' : Sorted IcountEl.ino (insertAt icount.list i ⟨ino, 0⟩) := hok.sorted.insertAt hb ha
    obtain ⟨hs'', hc⟩ := modify_count hs' (getElem?_insertAt hi) count
    refine Or.inl ⟨_, rfl, ⟨hs'', ?_⟩, ⟨rfl, rfl, rfl, rfl⟩, ?_⟩
    · show (List.modify _ _ _).length ≤ size
      rw [List.length_modify, length_insertAt hi]
      omega
    · refine hc.trans (funext fun k => ?_)
      by_cases hk : k = ino
      · rw [hk, Function.update_self, Function.update_self]
      · rw [Function.update_of_ne hk, Function.update_of_ne hk, countIn,
          lookup_insertAt_of_ne (Ne.symm hk), countIn]

/-- **Reading a count of the list.** -/
theorem getInodeCount_spec (hok : icount.ListOk) (hlen : icount.list.length < 2 ^ 31)
    (hfull : icount.fullmap = none) :
    ∃ cursor, getInodeCount env icount ino =
      (.ok (countIn icount.list ino), { icount with cursor := cursor }) := by
  rw [getInodeCount_of_list env ino hfull, getElCount]
  rcases getIcountEl_lookup env ino hok.sorted hlen with ⟨i, el, cursor, hi, rfl, hr⟩ |
    ⟨cursor, hno, hr⟩
  · refine ⟨cursor, ?_⟩
    rw [hr, countIn_eq hok.sorted hi]
    simp only [hi]
  · refine ⟨cursor, ?_⟩
    rw [hr, countIn_eq_zero hno]

end Counts

/-! ### The counts an icount holds -/

/-- **The count of an inode**, from the bitmaps and the list. -/
def Icount.value (icount : Icount) (ino : ℕ) : ℕ :=
  if icount.single ino then 1
  else if ∃ m ∈ icount.multiple, m ino = false then 0
  else countIn icount.list ino

/-- An icount in its bitmap and list representation, as the operations keep it. -/
structure Icount.Ok (icount : Icount) : Prop extends icount.ListOk where
  fullmap : icount.fullmap = none

section Value

variable {icount icount' : Icount} {ino : ℕ}

theorem value_congr {a b : Icount} {k : ℕ} (hsingle : a.single k = b.single k)
    (hmultiple : (∃ m ∈ a.multiple, m k = false) ↔ ∃ m ∈ b.multiple, m k = false)
    (hcount : countIn a.list k = countIn b.list k) : a.value k = b.value k := by
  simp only [Icount.value, hsingle, hmultiple, hcount]

/-- Counts that differ at one inode only. -/
theorem value_update {a b : Icount} {count : ℕ} (hsingle : ∀ k ≠ ino, a.single k = b.single k)
    (hmultiple : ∀ k ≠ ino, (∃ m ∈ a.multiple, m k = false) ↔ ∃ m ∈ b.multiple, m k = false)
    (hcount : ∀ k ≠ ino, countIn a.list k = countIn b.list k) (hat : a.value ino = count) :
    a.value = Function.update b.value ino count := by
  refine funext fun k => ?_
  by_cases hk : k = ino
  · rw [hk, Function.update_self, hat]
  · rw [Function.update_of_ne hk]
    exact value_congr (hsingle k hk) (hmultiple k hk) (hcount k hk)

theorem single_setSingle (v : Bool) : (icount.setSingle ino v).single ino = v :=
  Function.update_self ..

theorem single_setSingle_of_ne (v : Bool) : ∀ k ≠ ino,
    (icount.setSingle ino v).single k = icount.single k :=
  fun _ hk => Function.update_of_ne hk ..

theorem multiple_setMultiple_of_ne (v : Bool) : ∀ k ≠ ino,
    ((∃ m ∈ (icount.setMultiple ino v).multiple, m k = false) ↔
      ∃ m ∈ icount.multiple, m k = false) := by
  intro k hk
  rw [Icount.setMultiple]
  cases icount.multiple with
  | none => simp
  | some m => simp [setBit, hk]

theorem multiple_setMultiple_true :
    ¬∃ m ∈ (icount.setMultiple ino true).multiple, m ino = false := by
  rw [Icount.setMultiple]
  cases icount.multiple with
  | none => simp
  | some m => simp [setBit]

theorem multiple_setMultiple_false (h : icount.multiple.isSome) :
    ∃ m ∈ (icount.setMultiple ino false).multiple, m ino = false := by
  obtain ⟨m, hm⟩ := Option.isSome_iff_exists.mp h
  exact ⟨setBit m ino false, by simp [Icount.setMultiple, hm], Function.update_self ..⟩

theorem value_setSingle_true :
    (icount.setSingle ino true).value = Function.update icount.value ino 1 :=
  value_update (single_setSingle_of_ne true) (fun _ _ => Iff.rfl) (fun _ _ => rfl)
    (if_pos (single_setSingle true))

/-- Both bits clear: the count is zero, whatever the list has. -/
theorem value_clearBits (h : icount.multiple.isSome) :
    ((icount.setSingle ino false).setMultiple ino false).value =
      Function.update icount.value ino 0 := by
  refine value_update (single_setSingle_of_ne false)
    (@multiple_setMultiple_of_ne (icount.setSingle ino false) ino false) (fun _ _ => rfl) ?_
  rw [Icount.value, if_neg, if_pos (@multiple_setMultiple_false (icount.setSingle ino false) ino h)]
  show ¬(icount.setSingle ino false).single ino = true
  rw [single_setSingle]
  simp

/-- The count is in the list, and the bits say so. -/
theorem value_listed {count : ℕ} (hbits : icount'.SameBits icount)
    (hcount : countIn icount'.list = Function.update (countIn icount.list) ino count) :
    ((icount'.setSingle ino false).setMultiple ino true).value =
      Function.update icount.value ino count := by
  refine value_update ?_ ?_ ?_ ?_
  · rw [← hbits.single]
    exact single_setSingle_of_ne false
  · rw [← hbits.multiple]
    exact @multiple_setMultiple_of_ne (icount'.setSingle ino false) ino true
  · intro k hk
    exact (congrFun hcount k).trans (Function.update_of_ne hk ..)
  · rw [Icount.value, if_neg, if_neg multiple_setMultiple_true]
    · exact (congrFun hcount ino).trans (Function.update_self ..)
    · show ¬(icount'.setSingle ino false).single ino = true
      rw [single_setSingle]
      simp

/-- The count is in the list, and the bits said so before. -/
theorem value_relisted {count : ℕ} (hbits : icount'.SameBits icount)
    (hcount : countIn icount'.list = Function.update (countIn icount.list) ino count)
    (hsingle : ¬icount.single ino) (hmultiple : ¬∃ m ∈ icount.multiple, m ino = false) :
    icount'.value = Function.update icount.value ino count := by
  refine value_update (fun k _ => by rw [hbits.single]) (fun k _ => by rw [hbits.multiple]) ?_ ?_
  · intro k hk
    rw [hcount, Function.update_of_ne hk]
  · rw [Icount.value, hbits.single, hbits.multiple, if_neg hsingle, if_neg hmultiple, hcount,
      Function.update_self]

theorem value_of_listed (hsingle : ¬icount.single ino)
    (hmultiple : ¬∃ m ∈ icount.multiple, m ino = false) :
    icount.value ino = countIn icount.list ino := by
  rw [Icount.value, if_neg hsingle, if_neg hmultiple]

end Value

/-! ### The operations on a plain map -/

/-- A call on a map of counts. -/
def mapStep (m : ℕ → ℕ) : IcOp → Except IcErr ℕ × (ℕ → ℕ)
  | .fetch ino => (.ok (m ino), m)
  | .increment ino => (.ok (m ino + 1), Function.update m ino (m ino + 1))
  | .decrement ino =>
    if m ino = 0 then (.error .invalidArgument, m)
    else (.ok (m ino - 1), Function.update m ino (m ino - 1))
  | .store ino count => (.ok 0, Function.update m ino count)

/-- A call on a map of counts that are kept in 32 bits and handed out by
`icount_16_xlate`. -/
def wordStep (m : ℕ → ℕ) : IcOp → Except IcErr ℕ × (ℕ → ℕ)
  | .fetch ino => (.ok (icount16Xlate (m ino)), m)
  | .increment ino =>
    (.ok (icount16Xlate ((m ino + 1) % 2 ^ 32)), Function.update m ino ((m ino + 1) % 2 ^ 32))
  | .decrement ino =>
    if m ino = 0 then (.error .invalidArgument, m)
    else (.ok (icount16Xlate (m ino - 1)), Function.update m ino (m ino - 1))
  | .store ino count => (.ok 0, Function.update m ino count)

theorem icount16Xlate_of_le {n : ℕ} (h : n ≤ 65500) : icount16Xlate n = n := if_neg (by omega)

/-- Counts up to 65500 are handed out as they are. -/
theorem wordStep_eq_mapStep {m : ℕ → ℕ} {op : IcOp} (h : (mapStep m op).2 op.ino ≤ 65500) :
    wordStep m op = mapStep m op := by
  cases op with
  | fetch ino =>
    have hle : m ino ≤ 65500 := h
    rw [wordStep, icount16Xlate_of_le hle, mapStep]
  | increment ino =>
    have hle : m ino + 1 ≤ 65500 := by simpa [mapStep, IcOp.ino] using h
    rw [wordStep, Nat.mod_eq_of_lt (by omega), icount16Xlate_of_le hle, mapStep]
  | decrement ino =>
    rw [wordStep, mapStep]
    by_cases h0 : m ino = 0
    · rw [if_pos h0, if_pos h0]
    · have hle : m ino - 1 ≤ 65500 := by simpa [mapStep, IcOp.ino, h0] using h
      rw [if_neg h0, if_neg h0, icount16Xlate_of_le hle]
  | store ino count => rfl

/-- What a call comes to: it does what the call on the map does, or memory is refused and
the counts stay. -/
structure Outcome (env : IcEnv) (icount : Icount) (spec : Except IcErr ℕ × (ℕ → ℕ))
    (r : Except IcErr ℕ × Icount) : Prop where
  ok : r.2.Ok
  numInodes : r.2.numInodes = icount.numInodes
  result : (r.1 = .error .noMemory ∧ env.Refuses ∧ r.2.value = icount.value) ∨
    (r.1 = spec.1 ∧ r.2.value = spec.2)

section Step

variable {icount : Icount} {ino count : ℕ} (env : IcEnv)

theorem Icount.Ok.cursor (hok : icount.Ok) (cursor : ℕ) :
    ({ icount with cursor := cursor } : Icount).Ok :=
  ⟨⟨hok.sorted, hok.room⟩, hok.fullmap⟩

theorem Icount.Ok.setSingle (hok : icount.Ok) (v : Bool) : (icount.setSingle ino v).Ok :=
  ⟨⟨hok.sorted, hok.room⟩, hok.fullmap⟩

theorem Icount.Ok.setMultiple (hok : icount.Ok) (v : Bool) : (icount.setMultiple ino v).Ok :=
  ⟨⟨hok.sorted, hok.room⟩, hok.fullmap⟩

theorem icountFetch_spec (hok : icount.Ok) (hlen : icount.list.length < 2 ^ 31)
    (hvalid : icount.Valid ino) :
    Outcome env icount (wordStep icount.value (.fetch ino)) (icountFetch env icount ino) := by
  rw [icountFetch, if_neg (not_not.mpr hvalid)]
  by_cases hs : icount.single ino
  · rw [if_pos ⟨hok.fullmap, hs⟩]
    refine ⟨hok, rfl, Or.inr ⟨?_, rfl⟩⟩
    show Except.ok 1 = Except.ok (icount16Xlate (icount.value ino))
    rw [Icount.value, if_pos hs]
    rfl
  · rw [if_neg fun h => hs h.2]
    by_cases hm : ∃ m ∈ icount.multiple, m ino = false
    · rw [if_pos ⟨hok.fullmap, hm⟩]
      refine ⟨hok, rfl, Or.inr ⟨?_, rfl⟩⟩
      show Except.ok 0 = Except.ok (icount16Xlate (icount.value ino))
      rw [Icount.value, if_neg hs, if_pos hm]
      rfl
    · rw [if_neg fun h => hm h.2]
      obtain ⟨cursor, hget⟩ := getInodeCount_spec env ino hok.toListOk hlen hok.fullmap
      rw [hget, ← value_of_listed hs hm]
      exact ⟨hok.cursor cursor, rfl, Or.inr ⟨rfl, rfl⟩⟩

/-- Storing a count in the list, as an increment does. -/
theorem storeIncremented_spec (hok : icount.Ok) (hlen : icount.list.length < 2 ^ 31) :
    Outcome env icount (.ok (icount16Xlate count), Function.update icount.value ino count)
      (storeIncremented env icount ino count) := by
  rw [storeIncremented]
  rcases setInodeCount_spec env ino count hok.toListOk hlen hok.fullmap with
    ⟨icount', hset, hlist, hbits, hc⟩ | ⟨cursor, hset, hmem, -⟩
  · rw [hset]
    have hok' : icount'.Ok := ⟨hlist, hbits.fullmap.trans hok.fullmap⟩
    exact ⟨(hok'.setSingle false).setMultiple true, hbits.numInodes, Or.inr ⟨rfl,
      value_listed hbits hc⟩⟩
  · rw [hset]
    exact ⟨hok.cursor cursor, rfl, Or.inl ⟨rfl, hmem, rfl⟩⟩

theorem icountIncrement_spec (hok : icount.Ok) (hlen : icount.list.length < 2 ^ 31)
    (hvalid : icount.Valid ino) :
    Outcome env icount (wordStep icount.value (.increment ino))
      (icountIncrement env icount ino) := by
  rw [icountIncrement, if_neg (not_not.mpr hvalid), hok.fullmap]
  dsimp only
  rw [wordStep]
  by_cases hs : icount.single ino
  · have hval : icount.value ino = 1 := if_pos hs
    rw [if_pos hs, hval]
    exact storeIncremented_spec env hok hlen
  · rw [if_neg hs]
    by_cases hm : ∃ m ∈ icount.multiple, m ino = false
    · have hval : icount.value ino = 0 := by rw [Icount.value, if_neg hs, if_pos hm]
      rw [if_pos hm, hval]
      exact ⟨hok.setSingle true, rfl, Or.inr ⟨rfl, value_setSingle_true⟩⟩
    · rw [if_neg hm]
      obtain ⟨cursor, hget⟩ := getInodeCount_spec env ino hok.toListOk hlen hok.fullmap
      rw [hget, ← value_of_listed hs hm]
      have h := @storeIncremented_spec _ ino ((icount.value ino + 1) % 2 ^ 32) env
        (hok.cursor cursor) hlen
      exact ⟨h.ok, h.numInodes, h.result⟩

/-- Setting a count to zero. An entry that could not be made for want of memory is one that
was not there. -/
theorem clearCount_spec (hok : icount.Ok) (hlen : icount.list.length < 2 ^ 31) :
    Outcome env icount (.ok 0, Function.update icount.value ino 0) (clearCount env icount ino) := by
  rw [clearCount]
  by_cases hm : (icount.setSingle ino false).multiple.isSome
  · rw [if_pos hm]
    exact ⟨(hok.setSingle false).setMultiple false, rfl, Or.inr ⟨rfl, value_clearBits hm⟩⟩
  · rw [if_neg hm]
    have hnone : icount.multiple = none := by simpa [Icount.setSingle] using hm
    have hvalue : ∀ icount' : Icount, icount'.SameBits (icount.setSingle ino false) →
        countIn icount'.list = Function.update (countIn icount.list) ino 0 →
        icount'.value = Function.update icount.value ino 0 := by
      intro icount' hbits hc
      refine value_update ?_ ?_ ?_ ?_
      · rw [hbits.single]
        exact single_setSingle_of_ne false
      · rw [hbits.multiple]
        exact fun _ _ => Iff.rfl
      · intro k hk
        rw [hc, Function.update_of_ne hk]
      · rw [Icount.value, hbits.single, single_setSingle, hbits.multiple, if_neg (by simp),
          if_neg (by simp [Icount.setSingle, hnone]), hc, Function.update_self]
    rcases setInodeCount_spec env ino 0
      (@Icount.Ok.setSingle _ ino hok false).toListOk hlen hok.fullmap
      with ⟨icount', hset, hlist, hbits, hc⟩ | ⟨cursor, hset, hmem, hzero⟩
    · rw [hset]
      exact ⟨⟨hlist, hbits.fullmap.trans hok.fullmap⟩, hbits.numInodes,
        Or.inr ⟨rfl, hvalue icount' hbits hc⟩⟩
    · rw [hset]
      refine ⟨(hok.setSingle false).cursor cursor, rfl,
        Or.inr ⟨rfl, hvalue _ ⟨rfl, rfl, rfl, rfl⟩ ?_⟩⟩
      exact (Function.update_eq_self_iff.mpr hzero.symm).symm

theorem icountDecrement_spec (hok : icount.Ok) (hlen : icount.list.length < 2 ^ 31)
    (hvalid : icount.Valid ino) :
    Outcome env icount (wordStep icount.value (.decrement ino))
      (icountDecrement env icount ino) := by
  rw [icountDecrement, if_neg (not_not.mpr hvalid), hok.fullmap]
  dsimp only
  rw [wordStep]
  -- the bit for a count of one, the bit for more, and the list
  by_cases hs : icount.single ino
  · have hval : icount.value ino = 1 := if_pos hs
    rw [if_pos hs, hval, if_neg one_ne_zero]
    exact clearCount_spec env hok hlen
  · rw [if_neg hs]
    by_cases hm : ∃ m ∈ icount.multiple, m ino = false
    · have hval : icount.value ino = 0 := by rw [Icount.value, if_neg hs, if_pos hm]
      rw [if_pos hm, if_pos hval]
      exact ⟨hok, rfl, Or.inr ⟨rfl, rfl⟩⟩
    · rw [if_neg hm]
      obtain ⟨cursor, hget⟩ := getInodeCount_spec env ino hok.toListOk hlen hok.fullmap
      rw [hget, ← value_of_listed hs hm]
      rcases hval : icount.value ino with _ | n
      · exact ⟨hok.cursor cursor, rfl, Or.inr ⟨rfl, rfl⟩⟩
      · rw [if_neg (Nat.succ_ne_zero n), Nat.add_sub_cancel]
        dsimp only
        rcases setInodeCount_spec env ino n (hok.cursor cursor).toListOk hlen hok.fullmap with
          ⟨icount', hset, hlist, hbits, hc⟩ | ⟨cursor', hset, hmem, -⟩
        · rw [hset]
          dsimp only
          have hok' : icount'.Ok := ⟨hlist, hbits.fullmap.trans hok.fullmap⟩
          have hvalue : icount'.value = Function.update icount.value ino n :=
            @value_relisted { icount with cursor := cursor } icount' ino n hbits hc hs hm
          -- a count that falls to one goes back to the bitmap, one that falls to zero leaves both
          by_cases h1 : n = 1
          · subst h1
            rw [if_pos rfl, if_neg one_ne_zero]
            refine ⟨hok'.setSingle true, hbits.numInodes, Or.inr ⟨rfl, ?_⟩⟩
            rw [value_setSingle_true, hvalue, Function.update_idem]
          · rw [if_neg h1]
            by_cases h0 : n = 0
            · subst h0
              rw [if_pos rfl]
              refine ⟨hok'.setMultiple false, hbits.numInodes, Or.inr ⟨rfl, ?_⟩⟩
              have hclear : (icount'.setMultiple ino false).value =
                  Function.update icount'.value ino 0 := by
                refine value_update (fun _ _ => rfl) (multiple_setMultiple_of_ne false)
                  (fun _ _ => rfl) ?_
                have hsingle : ¬(icount'.setMultiple ino false).single ino := by
                  show ¬icount'.single ino = true
                  rw [hbits.single]
                  exact hs
                have hzero : countIn (icount'.setMultiple ino false).list ino = 0 :=
                  (congrFun hc ino).trans (Function.update_self ..)
                rw [Icount.value, if_neg hsingle, hzero, ite_self]
              rw [hclear, hvalue, Function.update_idem]
            · rw [if_neg h0]
              exact ⟨hok', hbits.numInodes, Or.inr ⟨rfl, hvalue⟩⟩
        · rw [hset]
          exact ⟨hok.cursor cursor', rfl, Or.inl ⟨rfl, hmem, rfl⟩⟩

theorem icountStore_spec (hok : icount.Ok) (hlen : icount.list.length < 2 ^ 31)
    (hvalid : icount.Valid ino) :
    Outcome env icount (wordStep icount.value (.store ino count))
      (icountStore env icount ino count) := by
  rw [icountStore, if_neg (not_not.mpr hvalid), if_neg (by rw [hok.fullmap]; simp), wordStep]
  by_cases h1 : count = 1
  · subst h1
    rw [if_pos rfl]
    refine ⟨(hok.setSingle true).setMultiple false, rfl, Or.inr ⟨rfl, ?_⟩⟩
    exact value_update (single_setSingle_of_ne true)
      (@multiple_setMultiple_of_ne (icount.setSingle ino true) ino false) (fun _ _ => rfl)
      (if_pos (single_setSingle true))
  · rw [if_neg h1]
    by_cases h0 : count = 0
    · subst h0
      rw [if_pos rfl]
      exact clearCount_spec env hok hlen
    · rw [if_neg h0]
      rcases setInodeCount_spec env ino count hok.toListOk hlen hok.fullmap with
        ⟨icount', hset, hlist, hbits, hc⟩ | ⟨cursor, hset, hmem, -⟩
      · rw [hset]
        have hok' : icount'.Ok := ⟨hlist, hbits.fullmap.trans hok.fullmap⟩
        exact ⟨(hok'.setSingle false).setMultiple true, hbits.numInodes,
          Or.inr ⟨rfl, value_listed hbits hc⟩⟩
      · rw [hset]
        exact ⟨hok.cursor cursor, rfl, Or.inl ⟨rfl, hmem, rfl⟩⟩

/-- **One call** on an icount whose list has fewer than `2 ^ 31` entries. -/
theorem step_wordSpec (op : IcOp) (hok : icount.Ok) (hlen : icount.list.length < 2 ^ 31)
    (hvalid : icount.Valid op.ino) :
    Outcome env icount (wordStep icount.value op) (icount.step env op) := by
  cases op with
  | fetch ino => exact icountFetch_spec env hok hlen hvalid
  | increment ino => exact icountIncrement_spec env hok hlen hvalid
  | decrement ino => exact icountDecrement_spec env hok hlen hvalid
  | store ino count => exact icountStore_spec env hok hlen hvalid

/-- One call that leaves the count at most 65500. -/
theorem step_spec (op : IcOp) (hok : icount.Ok) (hlen : icount.list.length < 2 ^ 31)
    (hvalid : icount.Valid op.ino) (hcount : (mapStep icount.value op).2 op.ino ≤ 65500) :
    Outcome env icount (mapStep icount.value op) (icount.step env op) := by
  rw [← wordStep_eq_mapStep hcount]
  exact step_wordSpec env op hok hlen hvalid

end Step

end E2fsprogs
