import E2fsprogs.EaRefcount.Table

/-!
# The table of reference counts is a map

A table holds a count for every key (`E2fsprogs.EaRefcount.value`): that of its entry, or zero
where there is none. Throwing out the entries whose count is zero changes none of them, and
neither does putting in a new entry, so that all that a lookup does to the table is hidden
(`E2fsprogs.getRefcountEl_spec`), and a call does to the counts what it does to a map
(`E2fsprogs.EaRefcount.step_spec`).

The table may have up to `2 ^ 30` entries. The sum of two positions of a longer one need not be
an `int`.
-/

namespace E2fsprogs

open SortedList

/-- The count of a key in a list. -/
def valueIn (l : List EaRefcountEl) (eaKey : ℕ) : ℕ :=
  ((lookup EaRefcountEl.eaKey l eaKey).map EaRefcountEl.eaValue).getD 0

/-- The count of a key. -/
def EaRefcount.value (refcount : EaRefcount) (eaKey : ℕ) : ℕ := valueIn refcount.list eaKey

/-- A table as the operations keep it. -/
structure EaRefcount.Ok (refcount : EaRefcount) : Prop where
  sorted : Sorted EaRefcountEl.eaKey refcount.list
  room : refcount.list.length ≤ refcount.size

/-- A call has not been given the memory it asked for. -/
def Denies (mem : ℕ → Bool) : Prop := ∃ n, mem n = false

/-! ### Lists of counts -/

section Lists

variable {l : List EaRefcountEl} {k : ℕ} {el : EaRefcountEl}

theorem valueIn_cons (el : EaRefcountEl) (l : List EaRefcountEl) (k : ℕ) :
    valueIn (el :: l) k = if el.eaKey = k then el.eaValue else valueIn l k := by
  rw [valueIn, lookup, List.find?_cons]
  by_cases h : el.eaKey = k
  · rw [if_pos h, decide_eq_true h]
    rfl
  · rw [if_neg h, decide_eq_false h]
    rfl

/-- A key that all keys are above of has no count. -/
theorem valueIn_eq_zero (h : ∀ el ∈ l, k ≠ el.eaKey) : valueIn l k = 0 := by
  rw [valueIn, lookup, List.find?_eq_none.mpr]
  · rfl
  · intro el hel
    simpa using (h el hel).symm

/-- **Collapsing changes no count.** -/
theorem valueIn_filter (hs : Sorted EaRefcountEl.eaKey l) (k : ℕ) :
    valueIn (l.filter fun el => el.eaValue ≠ 0) k = valueIn l k := by
  induction l with
  | nil => rfl
  | cons el l ih =>
    obtain ⟨hlt, hs⟩ := List.pairwise_cons.mp hs
    by_cases hzero : el.eaValue = 0
    · rw [List.filter_cons_of_neg (by simpa using hzero), ih hs, valueIn_cons]
      split
      · next hk =>
        rw [hzero]
        exact valueIn_eq_zero fun d hd => hk ▸ (hlt d hd).ne
      · rfl
    · rw [List.filter_cons_of_pos (by simpa using hzero), valueIn_cons, valueIn_cons, ih hs]

theorem valueIn_eq (hs : Sorted EaRefcountEl.eaKey l) {i : ℕ} (hi : l[i]? = some el) :
    valueIn l el.eaKey = el.eaValue := by
  rw [valueIn, hs.lookup_eq hi]
  rfl

/-- **A new entry changes no count**: it starts with zero. -/
theorem valueIn_insertAt {i : ℕ} (hb : Below EaRefcountEl.eaKey l k i)
    (ha : SortedList.Above EaRefcountEl.eaKey l k i) (hi : i ≤ l.length)
    (hs : Sorted EaRefcountEl.eaKey l) :
    valueIn (insertAt l i ⟨k, 0⟩) = valueIn l := by
  funext k'
  by_cases hk : k' = k
  · subst hk
    have hs' : Sorted EaRefcountEl.eaKey (insertAt l i ⟨k', 0⟩) := Sorted.insertAt hs hb ha
    have hnone : valueIn l k' = 0 := by
      rw [valueIn, lookup_eq_none hb ha]
      rfl
    rw [hnone]
    exact valueIn_eq hs' (getElem?_insertAt hi)
  · rw [valueIn, lookup_insertAt_of_ne (Ne.symm hk), valueIn]

/-- **The value of an entry is changed.** -/
theorem valueIn_modify {i : ℕ} (hs : Sorted EaRefcountEl.eaKey l)
    (hi : l[i]? = some el) (f : ℕ → ℕ) :
    Sorted EaRefcountEl.eaKey (l.modify i fun el => { el with eaValue := f el.eaValue }) ∧
    valueIn (l.modify i fun el => { el with eaValue := f el.eaValue }) =
      Function.update (valueIn l) el.eaKey (f el.eaValue) := by
  obtain ⟨hil, -⟩ := List.getElem?_eq_some_iff.mp hi
  have hset : l.modify i (fun el => { el with eaValue := f el.eaValue }) =
      l.set i ⟨el.eaKey, f el.eaValue⟩ := by
    rw [List.modify_eq_set_getElem?, hi]
    rfl
  have hs' : Sorted EaRefcountEl.eaKey (l.set i ⟨el.eaKey, f el.eaValue⟩) := hs.set hi rfl
  rw [hset]
  refine ⟨hs', funext fun k => ?_⟩
  by_cases hk : k = el.eaKey
  · subst hk
    rw [Function.update_self]
    exact @valueIn_eq _ ⟨el.eaKey, f el.eaValue⟩ hs' _ (List.getElem?_set_self hil)
  · rw [Function.update_of_ne hk, valueIn,
      lookup_set_of_ne (a := ⟨el.eaKey, f el.eaValue⟩) hi (Ne.symm hk) (Ne.symm hk), valueIn]

end Lists

/-! ### Searching -/

section Search

variable {l : List EaRefcountEl} {eaKey : ℕ}

theorem refcountElAt_natCast (l : List EaRefcountEl) (i : ℕ) : refcountElAt l i = l[i]? := by
  rw [refcountElAt, if_pos (Int.natCast_nonneg i), Int.toNat_natCast]

/-- How a search ends: at the entry of the key, or at the gap it belongs in. -/
def RcEnds (l : List EaRefcountEl) (eaKey : ℕ) (r : Option ElSearch) : Prop :=
  (∃ (i : ℕ) (el : EaRefcountEl), r = some (.found i) ∧ l[i]? = some el ∧ el.eaKey = eaKey) ∨
  ∃ i : ℕ, r = some (.missing i) ∧ i ≤ l.length ∧ Below EaRefcountEl.eaKey l eaKey i ∧
    SortedList.Above EaRefcountEl.eaKey l eaKey i

/-- **The binary search.** Its window is `[low, n)`. -/
theorem searchRefcountEl_spec (hs : Sorted EaRefcountEl.eaKey l)
    (hlen : l.length ≤ 2 ^ 30) (fuel : ℕ) :
    ∀ low n : ℕ, low ≤ n → n ≤ l.length → n - low < fuel → Below EaRefcountEl.eaKey l eaKey low →
    SortedList.Above EaRefcountEl.eaKey l eaKey n →
    RcEnds l eaKey (searchRefcountEl l eaKey fuel low ((n : ℤ) - 1)) := by
  induction fuel with
  | zero =>
    intro low n _ _ hfuel
    omega
  | succ fuel ih =>
    intro low n hle hn hfuel hb ha
    rw [searchRefcountEl]
    rcases Nat.eq_or_lt_of_le hle with rfl | hlt
    · rw [if_neg (by omega)]
      exact Or.inr ⟨low, rfl, hn, hb, ha⟩
    · rw [if_pos (by omega), if_pos (by omega)]
      obtain ⟨high, rfl⟩ : ∃ high, n = high + 1 := ⟨n - 1, by omega⟩
      have hhigh : ((high + 1 : ℕ) : ℤ) - 1 = (high : ℕ) := by omega
      have hmid : ((low : ℤ) + (high : ℕ)).tdiv 2 = ((low + high) / 2 : ℕ) := by
        rw [Int.tdiv_eq_ediv_of_nonneg (by omega)]
        omega
      rw [hhigh, hmid]
      dsimp only
      rw [refcountElAt_natCast]
      have hget : l[(low + high) / 2]? = some (l.get ⟨(low + high) / 2, by omega⟩) :=
        List.getElem?_eq_getElem _
      generalize l.get ⟨(low + high) / 2, _⟩ = el at hget
      rw [hget]
      simp only
      rcases Nat.lt_trichotomy eaKey el.eaKey with h | h | h
      · rw [if_neg h.ne, if_pos h]
        exact ih low _ (by omega) (by omega) (by omega) hb (hs.above hget h)
      · rw [if_pos h]
        exact Or.inl ⟨_, el, rfl, hget, h.symm⟩
      · rw [if_neg h.ne', if_neg (by omega), ← hhigh]
        exact ih ((low + high) / 2 + 1) (high + 1) (by omega) hn (by omega) (hs.below hget h) ha

end Search

/-! ### Entries -/

section Entries

variable {mem : ℕ → Bool} {refcount refcount' : EaRefcount} {eaKey : ℕ}

/-- A table with the same counts, and at most so many entries. -/
structure Same (refcount : EaRefcount) (n : ℕ) (refcount' : EaRefcount) : Prop where
  ok : refcount'.Ok
  value : refcount'.value = refcount.value
  length : refcount'.list.length ≤ n

/-- An entry of the key. -/
def IsEl (refcount : EaRefcount) (eaKey : ℕ) (p : ElPtr) : Prop :=
  ∃ i el, p = .el i ∧ refcount.list[i]? = some el ∧ el.eaKey = eaKey

/-- What a lookup that may create an entry comes to. -/
structure Gets (mem : ℕ → Bool) (refcount : EaRefcount) (eaKey : ℕ) (create : Bool)
    (r : ElPtr × EaRefcount) : Prop extends Same refcount (refcount.list.length + 1) r.2 where
  ptr : IsEl r.2 eaKey r.1 ∨
    r.1 = .null ∧ ((create = false ∧ refcount.value eaKey = 0) ∨ create = true ∧ Denies mem)

theorem EaRefcount.Ok.cursor (h : refcount.Ok) (cursor : ℕ) :
    ({ refcount with cursor := cursor } : EaRefcount).Ok := ⟨h.sorted, h.room⟩

theorem EaRefcount.Ok.collapse (h : refcount.Ok) :
    Same refcount refcount.list.length (refcountCollapse refcount) := by
  have hle := List.length_filter_le (fun el : EaRefcountEl => el.eaValue ≠ 0) refcount.list
  exact ⟨⟨h.sorted.sublist List.filter_sublist, hle.trans h.room⟩, funext (valueIn_filter h.sorted),
    hle⟩

/-- **An entry is put in**, in the gap its key belongs in. -/
theorem insertRefcountEl_spec (mem : ℕ → Bool) (h : refcount.Ok) {i : ℕ}
    (hlen : refcount.list.length ≤ 2 ^ 30) (hi : i ≤ refcount.list.length)
    (hb : Below EaRefcountEl.eaKey refcount.list eaKey i)
    (ha : SortedList.Above EaRefcountEl.eaKey refcount.list eaKey i) :
    Gets mem refcount eaKey true (insertRefcountEl mem refcount eaKey i) := by
  rw [insertRefcountEl]
  dsimp only
  split
  · next hno =>
    exact ⟨⟨h, rfl, Nat.le_succ _⟩, Or.inr ⟨rfl, Or.inr ⟨rfl, _, hno.2⟩⟩⟩
  · obtain ⟨size, hsize, heq⟩ : ∃ size, refcount.list.length < size ∧
        (if refcount.size ≤ refcount.list.length then
          { refcount with size := refcount.size + 100 } else refcount) =
        { refcount with size := size } := by
      have hroom := h.room
      split
      · exact ⟨_, by omega, rfl⟩
      · exact ⟨refcount.size, by omega, rfl⟩
    rw [heq]
    dsimp only
    rw [toInt_of_lt (by omega), if_neg (by omega), if_neg (by omega), if_neg (by omega),
      Int.toNat_natCast]
    refine ⟨⟨⟨Sorted.insertAt h.sorted hb ha, ?_⟩, valueIn_insertAt hb ha hi h.sorted, ?_⟩,
      Or.inl ⟨i, ⟨eaKey, 0⟩, rfl, getElem?_insertAt hi, rfl⟩⟩
    · dsimp only
      rw [length_insertAt hi]
      omega
    · dsimp only
      rw [length_insertAt hi]

/-- What is got from a table with the same counts. -/
theorem Gets.of_same {create : Bool} {r : ElPtr × EaRefcount}
    (hsame : Same refcount refcount.list.length refcount') (h : Gets mem refcount' eaKey create r) :
    Gets mem refcount eaKey create r := by
  refine ⟨⟨h.ok, h.value.trans hsame.value, h.length.trans (Nat.succ_le_succ hsame.length)⟩, ?_⟩
  rw [← hsame.value]
  exact h.ptr

/-- A key above all of them gets an entry at the end. -/
theorem appendRefcountEl_spec (mem : ℕ → Bool) (h : refcount.Ok)
    (hlen : refcount.list.length ≤ 2 ^ 30) (hlast : ∀ el ∈ refcount.list, el.eaKey < eaKey) :
    Gets mem refcount eaKey true (appendRefcountEl mem refcount eaKey) := by
  obtain ⟨refcount', heq, hsame, hsub⟩ : ∃ refcount',
      (if refcount.size ≤ refcount.list.length then refcountCollapse refcount
        else refcount) = refcount' ∧
      Same refcount refcount.list.length refcount' ∧ refcount'.list ⊆ refcount.list := by
    split
    · exact ⟨_, rfl, h.collapse, List.filter_subset_self _⟩
    · exact ⟨_, rfl, ⟨h, rfl, le_rfl⟩, List.Subset.refl _⟩
  rw [appendRefcountEl, heq]
  have hlen' := hsame.length.trans hlen
  rw [toInt_of_lt (by omega)]
  refine .of_same hsame (insertRefcountEl_spec mem hsame.ok hlen' le_rfl
    (fun el hel => ?_) above_length)
  rw [List.take_length] at hel
  exact hlast el (hsub hel)

/-- **A key is looked up**, at the cursor and in the list. -/
theorem lookupRefcountEl_spec (h : refcount.Ok) (hlen : refcount.list.length ≤ 2 ^ 30) :
    ∃ cursor r, lookupRefcountEl refcount eaKey (toInt refcount.list.length - 1) =
      (r, { refcount with cursor := cursor }) ∧ RcEnds refcount.list eaKey r := by
  obtain ⟨cursor, hcursor⟩ : ∃ cursor, (if refcount.list.length ≤ refcount.cursor then
      { refcount with cursor := 0 } else refcount) = { refcount with cursor := cursor } := by
    split
    · exact ⟨0, rfl⟩
    · exact ⟨refcount.cursor, rfl⟩
  rw [lookupRefcountEl, hcursor]
  dsimp only
  by_cases hat : (refcount.list[cursor]?).map EaRefcountEl.eaKey = some eaKey
  · rw [if_pos hat]
    obtain ⟨el, hel, hkey⟩ := Option.map_eq_some_iff.mp hat
    exact ⟨_, _, rfl, Or.inl ⟨cursor, el, rfl, hel, hkey⟩⟩
  · rw [if_neg hat, toInt_of_lt (by omega)]
    have hends :=
      searchRefcountEl_spec h.sorted hlen (refcount.list.length + 1) 0 refcount.list.length
      (Nat.zero_le _) le_rfl (by omega) (below_zero (k := eaKey)) above_length
    rw [Nat.cast_zero] at hends
    rcases hends with ⟨i, el, hr, hel, hkey⟩ | ⟨i, hr, hi⟩
    · rw [hr]
      exact ⟨_, _, rfl, Or.inl ⟨i, el, rfl, hel, hkey⟩⟩
    · rw [hr]
      exact ⟨_, _, rfl, Or.inr ⟨i, rfl, hi⟩⟩

/-- The last entry. -/
theorem refcountElAt_last {l : List EaRefcountEl} (hlen : l.length ≤ 2 ^ 30) :
    refcountElAt l (toInt l.length - 1) = l.getLast? := by
  rw [toInt_of_lt (by omega)]
  rcases List.eq_nil_or_concat l with rfl | ⟨l, el, rfl⟩
  · rfl
  · rw [List.concat_eq_append, List.length_append, List.length_singleton,
      show ((l.length + 1 : ℕ) : ℤ) - 1 = (l.length : ℕ) by omega, refcountElAt_natCast,
      List.getLast?_concat]
    simp

/-- The last key is the greatest. -/
theorem lt_of_last_lt {l : List EaRefcountEl} (hs : Sorted EaRefcountEl.eaKey l)
    (h : ∀ last ∈ l.getLast?, last.eaKey < eaKey) : ∀ el ∈ l, el.eaKey < eaKey := by
  have hbelow := hs.below_length h
  rwa [Below, List.take_length] at hbelow

/-- One try: the entry is there, or is not to be created, or its gap has been found. -/
theorem getRefcountEl_try (mem : ℕ → Bool) (create : Bool) (tries : ℕ) (h : refcount.Ok)
    (hlen : refcount.list.length ≤ 2 ^ 30) :
    Gets mem refcount eaKey create (getRefcountEl mem eaKey create (tries + 1) refcount) ∨
    ∃ (i cursor : ℕ) (found : EaRefcount), found = { refcount with cursor := cursor } ∧
      create = true ∧ i ≤ refcount.list.length ∧ Below EaRefcountEl.eaKey refcount.list eaKey i ∧
      SortedList.Above EaRefcountEl.eaKey refcount.list eaKey i ∧
      getRefcountEl mem eaKey create (tries + 1) refcount =
        if found.size ≤ found.list.length then
          if (refcountCollapse found).list.length < found.size then
            getRefcountEl mem eaKey create tries (refcountCollapse found)
          else insertRefcountEl mem (refcountCollapse found) eaKey i
        else insertRefcountEl mem found eaKey i := by
  rw [getRefcountEl]
  dsimp only
  rw [refcountElAt_last hlen, if_neg (by rw [toInt_of_lt (by omega)]; omega),
    if_neg (fun hc => hc.2.1 (List.getLast?_eq_none_iff.mp hc.2.2))]
  by_cases happ : create = true ∧ ∀ last ∈ refcount.list.getLast?, last.eaKey < eaKey
  · rw [if_pos happ, happ.1]
    exact Or.inl (appendRefcountEl_spec mem h hlen (lt_of_last_lt h.sorted happ.2))
  rw [if_neg happ]
  by_cases hnil : refcount.list = []
  · rw [if_pos hnil]
    have hcreate : create = false := by
      by_contra hc
      exact happ ⟨by simpa using hc, by simp [hnil]⟩
    refine Or.inl ⟨⟨h, rfl, Nat.le_succ _⟩, Or.inr ⟨rfl, Or.inl ⟨hcreate, ?_⟩⟩⟩
    rw [EaRefcount.value, hnil]
    rfl
  rw [if_neg hnil]
  obtain ⟨cursor, r, hr, hends⟩ := @lookupRefcountEl_spec _ eaKey h hlen
  rw [hr]
  rcases hends with ⟨i, el, rfl, hel, hkey⟩ | ⟨i, rfl, hi, hb, ha⟩
  · exact Or.inl ⟨⟨h.cursor cursor, rfl, Nat.le_succ _⟩, Or.inl ⟨i, el, rfl, hel, hkey⟩⟩
  · dsimp only
    by_cases hcreate : create = false
    · rw [if_pos hcreate]
      refine Or.inl ⟨⟨h.cursor cursor, rfl, Nat.le_succ _⟩, Or.inr ⟨rfl, Or.inl ⟨hcreate, ?_⟩⟩⟩
      rw [EaRefcount.value, valueIn, lookup_eq_none hb ha]
      rfl
    · rw [if_neg hcreate]
      exact Or.inr ⟨i, cursor, _, rfl, by simpa using hcreate, hi, hb, ha, rfl⟩

/-- **`get_refcount_el`.** It needs another try if the table is full. -/
theorem getRefcountEl_spec (mem : ℕ → Bool) (eaKey : ℕ) (create : Bool) (tries : ℕ) :
    ∀ {refcount : EaRefcount}, refcount.Ok → refcount.list.length ≤ 2 ^ 30 →
    (refcount.size ≤ refcount.list.length → 0 < tries) →
    Gets mem refcount eaKey create (getRefcountEl mem eaKey create (tries + 1) refcount) := by
  induction tries with
  | zero =>
    intro refcount h hlen htries
    rcases @getRefcountEl_try _ eaKey mem create 0 h hlen with
      hgets | ⟨i, cursor, found, rfl, rfl, hi, hb, ha, heq⟩
    · exact hgets
    · rw [heq, if_neg fun hfull => absurd (htries hfull) (lt_irrefl 0)]
      exact .of_same ⟨h.cursor cursor, rfl, le_rfl⟩
        (insertRefcountEl_spec mem (h.cursor cursor) hlen hi hb ha)
  | succ tries ih =>
    intro refcount h hlen htries
    rcases @getRefcountEl_try _ eaKey mem create (tries + 1) h hlen with
      hgets | ⟨i, cursor, found, hfound, rfl, hi, hb, ha, heq⟩
    · exact hgets
    have hok : found.Ok := hfound ▸ h.cursor cursor
    have hlist : found.list = refcount.list := by rw [hfound]
    have hsame : Same refcount refcount.list.length found :=
      ⟨hok, by rw [hfound]; rfl, by rw [hlist]⟩
    rw [heq]
    by_cases hfull : found.size ≤ found.list.length
    · rw [if_pos hfull]
      have hcollapse := hok.collapse
      by_cases hroom : (refcountCollapse found).list.length < found.size
      · rw [if_pos hroom]
        refine .of_same hsame (.of_same hcollapse (ih hcollapse.ok ?_ fun hf => ?_))
        · exact hcollapse.length.trans (hlist ▸ hlen)
        · exact absurd hroom (not_lt.mpr hf)
      · -- none of the entries has been thrown out
        have hsub : (refcountCollapse found).list.Sublist found.list := List.filter_sublist
        have hsize := hok.room
        have hkeep := hsub.eq_of_length_le (by omega)
        rw [if_neg hroom]
        refine .of_same hsame (.of_same hcollapse
          (insertRefcountEl_spec mem hcollapse.ok ?_ ?_ ?_ ?_))
        · rw [hkeep, hlist]
          exact hlen
        · rw [hkeep, hlist]
          exact hi
        · rw [hkeep, hlist]
          exact hb
        · rw [hkeep, hlist]
          exact ha
    · rw [if_neg hfull]
      refine .of_same hsame (insertRefcountEl_spec mem hok ?_ ?_ ?_ ?_)
      · rw [hlist]
        exact hlen
      · rw [hlist]
        exact hi
      · rw [hlist]
        exact hb
      · rw [hlist]
        exact ha

end Entries

/-! ### The operations on a map -/

/-- A call on a map of 64-bit counts. -/
def rcMapStep (m : ℕ → ℕ) : RcOp → Except IcErr ℕ × (ℕ → ℕ)
  | .fetch eaKey => (.ok (m eaKey), m)
  | .increment eaKey =>
    (.ok ((m eaKey + 1) % 2 ^ 64), Function.update m eaKey ((m eaKey + 1) % 2 ^ 64))
  | .decrement eaKey =>
    if m eaKey = 0 then (.error .invalidArgument, m)
    else (.ok (m eaKey - 1), Function.update m eaKey (m eaKey - 1))
  | .store eaKey eaValue => (.ok 0, Function.update m eaKey eaValue)

/-- What a call comes to: it does what the call on the map does, or memory is refused and
the counts stay. -/
structure RcOutcome (mem : ℕ → Bool) (refcount : EaRefcount) (spec : Except IcErr ℕ × (ℕ → ℕ))
    (r : Except IcErr ℕ × EaRefcount) : Prop where
  ok : r.2.Ok
  length : r.2.list.length ≤ refcount.list.length + 1
  result : (r.1 = .error .noMemory ∧ Denies mem ∧ r.2.value = refcount.value) ∨
    (r.1 = spec.1 ∧ r.2.value = spec.2)

section Operations

variable {refcount refcount' : EaRefcount} {eaKey i : ℕ} {el : EaRefcountEl}

theorem valueAt_eq (h : refcount.Ok) (hel : refcount.list[i]? = some el) :
    refcount.valueAt i = refcount.value el.eaKey := by
  rw [EaRefcount.valueAt, hel, EaRefcount.value, valueIn_eq h.sorted hel]
  rfl

theorem modify_spec (h : refcount.Ok) (hel : refcount.list[i]? = some el) (f : ℕ → ℕ) :
    (refcount.modify i f).Ok ∧
      (refcount.modify i f).list.length = refcount.list.length ∧ (refcount.modify i f).value =
        Function.update refcount.value el.eaKey (f (refcount.value el.eaKey)) := by
  obtain ⟨hsorted, hvalue⟩ := valueIn_modify h.sorted hel f
  have hlen : (refcount.modify i f).list.length = refcount.list.length := List.length_modify ..
  refine ⟨⟨hsorted, hlen.le.trans h.room⟩, hlen, ?_⟩
  rw [show refcount.value el.eaKey = el.eaValue from valueIn_eq h.sorted hel]
  exact hvalue

/-- **One call** on a table of up to `2 ^ 30` entries. -/
theorem EaRefcount.step_spec (mem : ℕ → Bool) (op : RcOp) (h : refcount.Ok)
    (hlen : refcount.list.length ≤ 2 ^ 30) :
    RcOutcome mem refcount (rcMapStep refcount.value op) (refcount.step mem op) := by
  have hget := fun eaKey create => getRefcountEl_spec mem eaKey create 1 h hlen fun _ => one_pos
  cases op with
  | fetch eaKey =>
    rw [EaRefcount.step, eaRefcountFetch]
    have hg := hget eaKey false
    generalize getRefcountEl mem eaKey false 2 refcount = r at hg
    obtain ⟨p, refcount'⟩ := r
    obtain ⟨⟨hok, hvalue, hle⟩, ⟨i, el, rfl, hel, rfl⟩ | ⟨rfl, ⟨-, hzero⟩ | ⟨hno, -⟩⟩⟩ := hg
    · dsimp only at hok hvalue hle hel ⊢
      refine ⟨hok, hle, Or.inr ⟨?_, hvalue⟩⟩
      rw [valueAt_eq hok hel, hvalue]
      rfl
    · exact ⟨hok, hle, Or.inr ⟨by rw [rcMapStep, hzero], hvalue⟩⟩
    · cases hno
  | increment eaKey =>
    rw [EaRefcount.step, eaRefcountIncrement]
    have hg := hget eaKey true
    generalize getRefcountEl mem eaKey true 2 refcount = r at hg
    obtain ⟨p, refcount'⟩ := r
    obtain ⟨⟨hok, hvalue, hle⟩, ⟨i, el, rfl, hel, rfl⟩ | ⟨rfl, ⟨hno, -⟩ | ⟨-, hmem⟩⟩⟩ := hg
    · dsimp only at hok hvalue hle hel ⊢
      obtain ⟨hok', hlen', hvalue'⟩ := modify_spec hok hel fun v => (v + 1) % 2 ^ 64
      refine ⟨hok', hlen'.le.trans hle, Or.inr ⟨?_, ?_⟩⟩
      · rw [valueAt_eq hok hel, hvalue]
        rfl
      · rw [hvalue', hvalue]
        rfl
    · cases hno
    · exact ⟨hok, hle, Or.inl ⟨rfl, hmem, hvalue⟩⟩
  | decrement eaKey =>
    rw [EaRefcount.step, eaRefcountDecrement, rcMapStep]
    have hg := hget eaKey false
    generalize getRefcountEl mem eaKey false 2 refcount = r at hg
    obtain ⟨p, refcount'⟩ := r
    obtain ⟨⟨hok, hvalue, hle⟩, ⟨i, el, rfl, hel, rfl⟩ | ⟨rfl, ⟨-, hzero⟩ | ⟨hno, -⟩⟩⟩ := hg
    · dsimp only
      rw [valueAt_eq hok hel, hvalue]
      by_cases hzero : refcount.value el.eaKey = 0
      · rw [if_pos hzero, if_pos hzero]
        exact ⟨hok, hle, Or.inr ⟨rfl, hvalue⟩⟩
      · obtain ⟨hok', hlen', hvalue'⟩ := modify_spec hok hel fun v => v - 1
        rw [if_neg hzero, if_neg hzero]
        refine ⟨hok', hlen'.le.trans hle, Or.inr ⟨rfl, ?_⟩⟩
        rw [hvalue', hvalue]
    · rw [if_pos hzero]
      exact ⟨hok, hle, Or.inr ⟨rfl, hvalue⟩⟩
    · cases hno
  | store eaKey eaValue =>
    rw [EaRefcount.step, eaRefcountStore]
    have hg := hget eaKey (eaValue ≠ 0)
    generalize getRefcountEl mem eaKey (eaValue ≠ 0) 2 refcount = r at hg
    obtain ⟨p, refcount'⟩ := r
    obtain ⟨⟨hok, hvalue, hle⟩, ⟨i, el, rfl, hel, rfl⟩ | ⟨rfl, ⟨hno, hzero⟩ | ⟨hyes, hmem⟩⟩⟩ := hg
    · obtain ⟨hok', hlen', hvalue'⟩ := modify_spec hok hel fun _ => eaValue
      refine ⟨hok', hlen'.le.trans hle, Or.inr ⟨rfl, ?_⟩⟩
      rw [hvalue', hvalue]
      rfl
    · -- no entry has been made for the count zero
      have hv : eaValue = 0 := by simpa using hno
      subst hv
      refine ⟨hok, hle, Or.inr ⟨rfl, ?_⟩⟩
      dsimp only
      rw [hvalue]
      exact (Function.update_eq_self_iff.mpr hzero.symm).symm
    · have hv : eaValue ≠ 0 := by simpa using hyes
      dsimp only
      rw [if_pos hv]
      exact ⟨hok, hle, Or.inl ⟨rfl, hmem, hvalue⟩⟩

end Operations

/-! ### Iterating -/

section Iterate

variable {refcount : EaRefcount}

/-- What is left to return: the entries from the cursor on whose count is not zero. -/
def intrLeft (refcount : EaRefcount) : List EaRefcountEl :=
  (refcount.list.drop refcount.cursor).filter fun el => el.eaValue ≠ 0

/-- **The loop of `ea_refcount_intr_next`.** -/
theorem intrLoop_spec (n : ℕ) : ∀ refcount : EaRefcount,
    refcount.list.length - refcount.cursor = n →
    ∃ cursor, (intrLoop n refcount).2 = { refcount with cursor := cursor } ∧
      (intrLoop n refcount).1 =
        ((intrLeft refcount).head?.map fun el => (el.eaKey, some el.eaValue)).getD (0, none) ∧
      intrLeft { refcount with cursor := cursor } = (intrLeft refcount).tail := by
  induction n with
  | zero =>
    intro refcount hn
    have hnil : intrLeft refcount = [] := by
      rw [intrLeft, List.drop_eq_nil_of_le (by omega)]
      rfl
    refine ⟨refcount.cursor, rfl, ?_, ?_⟩
    · rw [hnil]
      rfl
    · show intrLeft refcount = (intrLeft refcount).tail
      rw [hnil]
      rfl
  | succ n ih =>
    intro refcount hn
    have hlt : refcount.cursor < refcount.list.length := by omega
    have hdrop := List.drop_eq_getElem_cons hlt
    rw [intrLoop, List.getElem?_eq_getElem hlt]
    generalize refcount.list[refcount.cursor] = el at hdrop
    dsimp only
    by_cases hzero : el.eaValue = 0
    · rw [if_neg (not_not.mpr hzero)]
      have hleft : intrLeft refcount =
          intrLeft { refcount with cursor := refcount.cursor + 1 } := by
        rw [intrLeft, hdrop, List.filter_cons_of_neg (by simpa using hzero)]
        rfl
      rw [hleft]
      exact ih { refcount with cursor := refcount.cursor + 1 } (by dsimp only; omega)
    · rw [if_pos hzero]
      have hleft : intrLeft refcount =
          el :: intrLeft { refcount with cursor := refcount.cursor + 1 } := by
        rw [intrLeft, hdrop, List.filter_cons_of_pos (by simpa using hzero)]
        rfl
      refine ⟨refcount.cursor + 1, rfl, ?_, ?_⟩
      · rw [hleft]
        rfl
      · rw [hleft]
        rfl

/-- **Repeated calls** return what is left, and then zero. -/
theorem intrCalls_spec (n : ℕ) : ∀ refcount : EaRefcount, intrCalls n refcount =
    ((intrLeft refcount).map (fun el : EaRefcountEl => (el.eaKey, some el.eaValue)) ++
      List.replicate n (0, none)).take n := by
  induction n with
  | zero => exact fun _ => rfl
  | succ n ih =>
    intro refcount
    obtain ⟨cursor, hnext, hret, hleft⟩ := intrLoop_spec _ refcount rfl
    rw [intrCalls, eaRefcountIntrNext, hret, hnext, ih, hleft]
    rcases intrLeft refcount with _ | ⟨el, l⟩
    · simp [List.replicate_succ]
    · have htake : ∀ L : List (ℕ × Option ℕ), (L ++ List.replicate (n + 1) (0, none)).take n =
          (L ++ List.replicate n (0, none)).take n := by
        intro L
        rw [List.replicate_succ', ← List.append_assoc, List.take_append_of_le_length (by simp)]
      rw [List.map_cons, List.cons_append, List.take_succ_cons, htake]
      rfl

end Iterate

end E2fsprogs
