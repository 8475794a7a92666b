import E2fsprogs.Lib.SortedList

/-!
# The list of bad blocks

`lib/ext2fs/badblocks.c`. Numbers of 32 bits are kept in an ascending array. An addition behind the
last number is the common case; any other one looks for its place from the beginning. A number is
looked up at the two ends of the array and then by bisection, whose bounds are exclusive.

Whatever calls are made, the list is the set of the numbers that were added and not deleted since
(`E2fsprogs.u32List_isSet`).
-/

namespace E2fsprogs

open SortedList

/-- The memory that `malloc` and `realloc` hand out, which is never as much as `2 ^ 63` bytes. -/
structure HeapMemory where
  grants : ℕ → Bool
  limit : ∀ n, 2 ^ 63 ≤ n → grants n = false

/-- `struct ext2_struct_u32_list`. The array is `list[0 .. num)`; `size` is an `int`. -/
structure U32List where
  size : ℤ
  list : List ℕ

/-- `ext2fs_u32_list_create`. The size is an `unsigned long` where the array is allocated. -/
def ext2fsU32ListCreate (mem : HeapMemory) (size : ℤ) : Option U32List :=
  let size := if size = 0 then 10 else size
  let count := (size % 2 ^ 64).toNat
  if count * 4 < 2 ^ 64 ∧ mem.grants (count * 4) = true then some ⟨size, []⟩ else none

/-! ### Adding and deleting -/

/-- The array is made larger when it is full. The sum of an `int` wraps to a negative number, of
which there is no such memory. -/
def U32List.grow (mem : HeapMemory) (bb : U32List) : Option U32List :=
  if bb.size ≤ bb.list.length then
    let size := Int.bmod (bb.size + 100) (2 ^ 32)
    if mem.grants (size * 4 % 2 ^ 64).toNat then some { bb with size := size } else none
  else some bb

/-- The loop that looks for the place of a number, from place `i` on. There is none for a number
that is on the list. -/
def u32Place (blk : ℕ) : List ℕ → ℕ → Option ℕ
  | [], i => some i
  | v :: vs, i => if v = blk then none else if blk < v then some i else u32Place blk vs (i + 1)

/-- The array with a number added. -/
def u32Insert (list : List ℕ) (blk : ℕ) : List ℕ :=
  match list.getLast? with
  | none => list ++ [blk]
  | some last =>
    if last = blk then list
    else if last < blk then list ++ [blk]
    else
      match u32Place blk list 0 with
      | none => list
      | some j => insertAt list j blk

/-- `ext2fs_u32_list_add`, with whether there was memory. -/
def ext2fsU32ListAdd (mem : HeapMemory) (bb : U32List) (blk : ℕ) : Bool × U32List :=
  match bb.grow mem with
  | none => (false, bb)
  | some bb => (true, { bb with list := u32Insert bb.list blk })

/-- The loop of `ext2fs_u32_list_find`, in so many rounds at most. -/
def u32Bisect (list : List ℕ) (blk : ℕ) : ℕ → ℕ → ℕ → Option ℤ
  | 0, _, _ => none
  | rounds + 1, low, high =>
    if low < high then
      let mid := (low + high) % 2 ^ 32 / 2
      if mid = low ∨ mid = high then some (-1)
      else
        match list[mid]? with
        | none => none
        | some v =>
          if blk = v then some mid
          else if blk < v then u32Bisect list blk rounds low mid
          else u32Bisect list blk rounds mid high
    else some (-1)

/-- `ext2fs_u32_list_find`. Each round leaves a place out. -/
def ext2fsU32ListFind (bb : U32List) (blk : ℕ) : Option ℤ :=
  match bb.list.head?, bb.list.getLast? with
  | some first, some last =>
    if blk = first then some 0
    else if blk = last then some (bb.list.length - 1)
    else u32Bisect bb.list blk bb.list.length 0 (bb.list.length - 1)
  | _, _ => some (-1)

/-- `ext2fs_u32_list_test`. -/
def ext2fsU32ListTest (bb : U32List) (blk : ℕ) : Option Bool :=
  (ext2fsU32ListFind bb blk).map fun found => decide (0 ≤ found)

/-- `ext2fs_u32_list_del`, with whether the number was on the list. -/
def ext2fsU32ListDel (bb : U32List) (blk : ℕ) : Option (Bool × U32List) :=
  if bb.list.length = 0 then some (false, bb)
  else
    (ext2fsU32ListFind bb blk).map fun remloc =>
      if remloc < 0 then (false, bb) else (true, { bb with list := bb.list.eraseIdx remloc.toNat })

/-- `ext2fs_u32_list_iterate`, with the place of the iterator. -/
def ext2fsU32ListIterate (bb : U32List) (ptr : ℕ) : Option ℕ × ℕ :=
  if ptr < bb.list.length then (bb.list[ptr]?, ptr + 1) else (none, ptr)

/-- What so many steps of an iterator hand out. -/
def u32IterateCalls (bb : U32List) : ℕ → ℕ → List (Option ℕ)
  | 0, _ => []
  | n + 1, ptr =>
    (ext2fsU32ListIterate bb ptr).1 :: u32IterateCalls bb n (ext2fsU32ListIterate bb ptr).2

/-! ### The set -/

/-- A call. -/
inductive U32Op where
  | add (mem : HeapMemory) (blk : ℕ)
  | del (blk : ℕ)
  | find (blk : ℕ)
  | test (blk : ℕ)

/-- A call on the list, with whether an addition or a deletion was made. -/
def U32List.step (bb : U32List) : U32Op → Option (Bool × U32List)
  | .add mem blk => some (ext2fsU32ListAdd mem bb blk)
  | .del blk => ext2fsU32ListDel bb blk
  | .find blk => (ext2fsU32ListFind bb blk).map fun _ => (false, bb)
  | .test blk => (ext2fsU32ListTest bb blk).map fun _ => (false, bb)

/-- The numbers that were added and not deleted since; an addition that had no memory adds
nothing. -/
def U32Op.onSet (s : Finset ℕ) : U32Op → Bool → Finset ℕ
  | .add _ blk, done => if done then insert blk s else s
  | .del blk, _ => s.erase blk
  | .find _, _ => s
  | .test _, _ => s

/-- A list that calls in sequence lead to, and the set of the numbers that should be on it. -/
inductive U32Run : U32List → Finset ℕ → Prop
  | create {mem size bb} : -2 ^ 31 ≤ size ∧ size < 2 ^ 31 →
      ext2fsU32ListCreate mem size = some bb → U32Run bb ∅
  | step {bb s op done bb'} : U32Run bb s → bb.step op = some (done, bb') →
      U32Run bb' (op.onSet s done)

/-- **The list is the set**: it ascends strictly, each test and each search says what is on it, an
iteration hands out its numbers in order, and every call has a result. An addition is refused only
where the array is full and there is no memory for one of 100 more places. -/
structure U32List.IsSet (bb : U32List) (s : Finset ℕ) : Prop where
  ascends : bb.list.Pairwise (· < ·)
  test : ∀ v, ext2fsU32ListTest bb v = some (decide (v ∈ s))
  find : ∀ v ∈ s, ∃ i : ℕ, ext2fsU32ListFind bb v = some (i : ℤ) ∧ bb.list[i]? = some v
  not_find : ∀ v ∉ s, ext2fsU32ListFind bb v = some (-1)
  iterates : ∀ n, u32IterateCalls bb n 0 =
    ((s.sort (· ≤ ·)).map some ++ List.replicate n none).take n
  returns : ∀ op, ∃ done bb', bb.step op = some (done, bb')
  refused : ∀ mem blk bb', bb.step (.add mem blk) = some (false, bb') →
    bb.size = bb.list.length ∧
      (2 ^ 31 ≤ bb.size + 100 ∨ mem.grants ((bb.size + 100) * 4).toNat = false)

section U32List

variable {list : List ℕ} {bb bb' : U32List} {s : Finset ℕ} {blk low high : ℕ}

/-! ### Searching -/

/-- What the result of a search says. -/
def U32At (list : List ℕ) (blk : ℕ) (found : ℤ) : Prop :=
  found = -1 ∧ blk ∉ list ∨ ∃ i : ℕ, found = i ∧ list[i]? = some blk

/-- The number is neither at `low` or below it nor at `high` or above it. -/
structure U32Between (list : List ℕ) (blk low high : ℕ) : Prop where
  le : low ≤ high
  lt : high < list.length
  not_low : blk ∉ list.take (low + 1)
  not_high : blk ∉ list.drop high

theorem U32Between.not_mem (h : U32Between list blk low high) (hmeet : high ≤ low + 1) :
    blk ∉ list := by
  intro hmem
  rw [← List.take_append_drop high list, List.mem_append] at hmem
  rcases hmem with hmem | hmem
  · exact h.not_low ((List.take_sublist_take_left hmeet).subset hmem)
  · exact h.not_high hmem

/-- **The bisection** ends, and finds the number if it is there. -/
theorem U32Between.bisect (hs : Sorted id list) (hsmall : list.length < 2 ^ 31) {rounds : ℕ}
    (h : U32Between list blk low high) (hrounds : high - low < rounds) :
    ∃ found, u32Bisect list blk rounds low high = some found ∧ U32At list blk found := by
  induction rounds generalizing low high with
  | zero => exact absurd hrounds (Nat.not_lt_zero _)
  | succ rounds ih =>
    have hlt := h.lt
    rw [u32Bisect]
    by_cases hgap : low < high
    · obtain ⟨mid, hmid⟩ : ∃ mid, mid = (low + high) % 2 ^ 32 / 2 := ⟨_, rfl⟩
      rw [if_pos hgap, ← hmid]
      dsimp only
      by_cases hend : mid = low ∨ mid = high
      · rw [if_pos hend]
        exact ⟨-1, rfl, Or.inl ⟨rfl, h.not_mem (by omega)⟩⟩
      · obtain ⟨v, hv⟩ : ∃ v, list[mid]? = some v := ⟨_, List.getElem?_eq_getElem (by omega)⟩
        rw [if_neg hend, hv]
        dsimp only
        rcases lt_trichotomy blk v with hless | rfl | hmore
        · rw [if_neg hless.ne, if_pos hless]
          refine ih ⟨by omega, by omega, h.not_low, fun hmem => ?_⟩ (by omega)
          exact (hs.above hv hless blk hmem).false
        · rw [if_pos rfl]
          exact ⟨mid, rfl, Or.inr ⟨mid, rfl, hv⟩⟩
        · rw [if_neg hmore.ne', if_neg hmore.not_gt]
          refine ih ⟨by omega, hlt, fun hmem => ?_, h.not_high⟩ (by omega)
          exact (hs.below hv hmore blk hmem).false
    · rw [if_neg hgap]
      exact ⟨-1, rfl, Or.inl ⟨rfl, h.not_mem (by omega)⟩⟩

/-- **A search** finds the number if it is on the list. -/
theorem find_spec (hs : Sorted id bb.list) (hsmall : bb.list.length < 2 ^ 31) (blk : ℕ) :
    ∃ found, ext2fsU32ListFind bb blk = some found ∧ U32At bb.list blk found := by
  rw [ext2fsU32ListFind]
  rcases List.eq_nil_or_concat bb.list with hnil | ⟨l, last, hlast⟩
  · rw [hnil]
    exact ⟨-1, rfl, Or.inl ⟨rfl, List.not_mem_nil⟩⟩
  · rw [List.concat_eq_append] at hlast
    have hlen : 0 < bb.list.length := by
      rw [hlast, List.length_append, List.length_singleton]
      exact Nat.succ_pos _
    obtain ⟨first, hfirst⟩ : ∃ first, bb.list[0]? = some first := ⟨_, List.getElem?_eq_getElem hlen⟩
    have hend : bb.list[bb.list.length - 1]? = some last := by
      rw [← List.getLast?_eq_getElem?, hlast, List.getLast?_concat]
    rw [List.head?_eq_getElem?, List.getLast?_eq_getElem?, hfirst, hend]
    dsimp only
    by_cases hf : blk = first
    · rw [if_pos hf]
      exact ⟨0, rfl, Or.inr ⟨0, rfl, hf ▸ hfirst⟩⟩
    · rw [if_neg hf]
      by_cases hl : blk = last
      · rw [if_pos hl]
        exact ⟨_, rfl, Or.inr ⟨bb.list.length - 1, by omega, hl ▸ hend⟩⟩
      · rw [if_neg hl]
        refine U32Between.bisect hs hsmall ⟨Nat.zero_le _, by omega, ?_, ?_⟩ (by omega)
        · rw [List.take_add_one, List.take_zero, hfirst]
          simpa using hf
        · rw [hlast, List.length_append, List.length_singleton, Nat.add_sub_cancel, List.drop_left]
          simpa using hl

/-! ### Adding a number -/

/-- The loop finds the number, or the place in front of the first larger one. -/
theorem u32Place_spec (hs : Sorted id list) (blk i : ℕ) :
    u32Place blk list i = none ∧ blk ∈ list ∨
      ∃ k ≤ list.length, u32Place blk list i = some (i + k) ∧ Below id list blk k ∧
      Above id list blk k := by
  induction list generalizing i with
  | nil => exact Or.inr ⟨0, le_rfl, rfl, below_zero, above_length⟩
  | cons v vs ih =>
    rw [u32Place]
    rcases lt_trichotomy blk v with hless | rfl | hmore
    · rw [if_neg hless.ne', if_pos hless]
      exact Or.inr ⟨0, Nat.zero_le _, rfl, below_zero, hs.above List.getElem?_cons_zero hless⟩
    · rw [if_pos rfl]
      exact Or.inl ⟨rfl, List.mem_cons_self⟩
    · rw [if_neg hmore.ne, if_neg hmore.not_gt]
      rcases ih hs.of_cons (i + 1) with ⟨hnone, hmem⟩ | ⟨k, hk, hsome, hbelow, habove⟩
      · exact Or.inl ⟨hnone, List.mem_cons_of_mem v hmem⟩
      · refine Or.inr ⟨k + 1, Nat.succ_le_succ hk, ?_, ?_, habove⟩
        · rw [hsome, Nat.add_assoc, Nat.add_comm 1 k]
        · intro w hw
          rcases List.mem_cons.mp hw with rfl | hw
          · exact hmore
          · exact hbelow w hw

/-- `list'` is the list with a number added. -/
structure U32Added (list : List ℕ) (blk : ℕ) (list' : List ℕ) : Prop where
  sorted : Sorted id list'
  mem : ∀ v, v ∈ list' ↔ v = blk ∨ v ∈ list
  length : list'.length ≤ list.length + 1

theorem U32Added.of_mem (hs : Sorted id list) (h : blk ∈ list) : U32Added list blk list :=
  ⟨hs, fun _ => ⟨Or.inr, fun hv => hv.elim (fun heq => heq ▸ h) id⟩, Nat.le_succ _⟩

theorem U32Added.insertAt {k : ℕ} (hs : Sorted id list) (hk : k ≤ list.length)
    (hb : Below id list blk k)
    (ha : Above id list blk k) : U32Added list blk (SortedList.insertAt list k blk) := by
  refine ⟨hs.insertAt hb ha, fun v => ?_, (length_insertAt hk).le⟩
  conv_rhs => rw [← List.take_append_drop k list, List.mem_append]
  rw [SortedList.insertAt, List.mem_append, List.mem_cons]
  exact or_left_comm

theorem u32Insert_added (hs : Sorted id list) (blk : ℕ) :
    U32Added list blk (u32Insert list blk) := by
  have hback : (∀ last ∈ list.getLast?, last < blk) → U32Added list blk (list ++ [blk]) := by
    intro hlast
    have heq : list ++ [blk] = SortedList.insertAt list list.length blk := by
      rw [SortedList.insertAt, List.take_length, List.drop_length]
    rw [heq]
    exact U32Added.insertAt hs le_rfl (hs.below_length hlast) above_length
  rw [u32Insert]
  cases hlast : list.getLast? with
  | none =>
    rw [hlast] at hback
    exact hback fun _ h => absurd h (Option.not_mem_none _)
  | some last =>
    dsimp only
    by_cases heq : last = blk
    · rw [if_pos heq]
      exact U32Added.of_mem hs (heq ▸ List.mem_of_getLast? hlast)
    · rw [if_neg heq]
      by_cases hlt : last < blk
      · rw [if_pos hlt]
        rw [hlast] at hback
        exact hback fun v hv => Option.mem_some.mp hv ▸ hlt
      · rw [if_neg hlt]
        rcases u32Place_spec hs blk 0 with ⟨hnone, hmem⟩ | ⟨k, hk, hsome, hbelow, habove⟩
        · rw [hnone]
          exact U32Added.of_mem hs hmem
        · rw [hsome, Nat.zero_add]
          exact U32Added.insertAt hs hk hbelow habove

/-! ### The invariant -/

/-- The list holds the set, and there is room for it. -/
structure U32List.Holds (bb : U32List) (s : Finset ℕ) : Prop where
  sorted : Sorted id bb.list
  mem : ∀ v, v ∈ bb.list ↔ v ∈ s
  le_size : (bb.list.length : ℤ) ≤ bb.size
  size_lt : bb.size < 2 ^ 31

theorem U32List.Holds.small (h : bb.Holds s) : bb.list.length < 2 ^ 31 := by
  have := h.le_size
  have := h.size_lt
  omega

/-- What was allocated has a size that is an `int`. -/
theorem HeapMemory.size_lt (mem : HeapMemory) {size : ℤ} (hint : -2 ^ 31 ≤ size)
    (hle : size < 2 ^ 31) (h : mem.grants (size * 4 % 2 ^ 64).toNat = true) : 0 ≤ size := by
  by_contra hneg
  rw [mem.limit _ (by omega)] at h
  exact Bool.false_ne_true h

/-- **The array grows** by 100 places or not at all. -/
theorem U32List.Holds.grow (h : bb.Holds s) {mem : HeapMemory} (hg : bb.grow mem = some bb') :
    bb'.Holds s ∧ bb'.list = bb.list ∧ (bb.list.length : ℤ) < bb'.size := by
  have hle := h.le_size
  have hlt := h.size_lt
  rw [U32List.grow] at hg
  by_cases hfull : bb.size ≤ bb.list.length
  · rw [if_pos hfull] at hg
    obtain ⟨hmem, hg⟩ := Option.ite_none_right_eq_some.mp hg
    cases hg
    have hnonneg := mem.size_lt (by rw [Int.bmod_def]; omega) (by rw [Int.bmod_def]; omega) hmem
    have hsize : bb.size + 1 ≤ Int.bmod (bb.size + 100) (2 ^ 32) ∧
        Int.bmod (bb.size + 100) (2 ^ 32) < 2 ^ 31 := by
      rw [Int.bmod_def] at hnonneg ⊢
      omega
    refine ⟨⟨h.sorted, h.mem, ?_, hsize.2⟩, rfl, ?_⟩
    all_goals dsimp only
    all_goals omega
  · rw [if_neg hfull] at hg
    cases hg
    exact ⟨h, rfl, by omega⟩

theorem U32List.Holds.add (h : bb.Holds s) {mem : HeapMemory} {done : Bool}
    (hadd : ext2fsU32ListAdd mem bb blk = (done, bb')) :
    bb'.Holds (if done then insert blk s else s) := by
  rw [ext2fsU32ListAdd] at hadd
  cases hg : bb.grow mem with
  | none =>
    rw [hg] at hadd
    cases hadd
    exact h
  | some grown =>
    rw [hg] at hadd
    cases hadd
    obtain ⟨hgrown, hlist, hroom⟩ := h.grow hg
    have hadded := u32Insert_added hgrown.sorted blk
    refine ⟨hadded.sorted, fun v => ?_, ?_, hgrown.size_lt⟩
    · rw [if_pos rfl, Finset.mem_insert, hadded.mem, hgrown.mem]
    · have := hadded.length
      rw [hlist] at this
      dsimp only
      rw [hlist]
      omega

theorem U32List.Holds.del (h : bb.Holds s) {done : Bool}
    (hdel : ext2fsU32ListDel bb blk = some (done, bb')) :
    bb'.Holds (s.erase blk) := by
  have hnot : blk ∉ bb.list → bb.Holds (s.erase blk) := by
    intro hblk
    rw [h.mem] at hblk
    rwa [Finset.erase_eq_of_notMem hblk]
  rw [ext2fsU32ListDel] at hdel
  split_ifs at hdel with hzero
  · cases hdel
    refine hnot fun hmem => ?_
    rw [List.length_eq_zero_iff.mp hzero] at hmem
    exact List.not_mem_nil hmem
  · obtain ⟨found, hfound, hat⟩ := find_spec h.sorted h.small blk
    rw [hfound, Option.map_some] at hdel
    rcases hat with ⟨rfl, hmem⟩ | ⟨i, rfl, hi⟩
    · rw [if_pos (by decide)] at hdel
      cases hdel
      exact hnot hmem
    · rw [if_neg (by omega)] at hdel
      cases hdel
      obtain ⟨hlt, rfl⟩ := List.getElem?_eq_some_iff.mp hi
      have hnodup : bb.list.Nodup := h.sorted.imp fun hxy => hxy.ne
      refine ⟨h.sorted.sublist (List.eraseIdx_sublist _ _), fun v => ?_, ?_, h.size_lt⟩
      · dsimp only
        rw [Int.toNat_natCast, ← hnodup.erase_getElem, hnodup.mem_erase_iff,
          Finset.mem_erase, h.mem]
      · have := h.le_size
        dsimp only
        rw [Int.toNat_natCast, List.length_eraseIdx_of_lt hlt]
        omega

theorem U32List.Holds.step (h : bb.Holds s) {op : U32Op} {done : Bool}
    (hstep : bb.step op = some (done, bb')) :
    bb'.Holds (op.onSet s done) := by
  cases op with
  | add mem blk => exact h.add (Option.some.inj hstep)
  | del blk => exact h.del hstep
  | find blk =>
    obtain ⟨found, -, heq⟩ := Option.map_eq_some_iff.mp hstep
    cases heq
    exact h
  | test blk =>
    obtain ⟨found, -, heq⟩ := Option.map_eq_some_iff.mp hstep
    cases heq
    exact h

theorem U32List.Holds.create {mem : HeapMemory} {size : ℤ} (hint : -2 ^ 31 ≤ size ∧ size < 2 ^ 31)
    (h : ext2fsU32ListCreate mem size = some bb) : bb.Holds ∅ := by
  rw [ext2fsU32ListCreate] at h
  split_ifs at h with hsize hmem hmem
  · cases h
    exact ⟨List.Pairwise.nil, by simp, by simp, by decide⟩
  · cases h
    refine ⟨List.Pairwise.nil, by simp, ?_, hint.2⟩
    have hcount := hmem.1
    have hle := hint.1
    dsimp only
    rw [List.length_nil]
    omega

/-- **An addition that is refused** finds the array full and no memory for a larger one. -/
theorem U32List.Holds.refused (h : bb.Holds s) {mem : HeapMemory}
    (hstep : bb.step (.add mem blk) = some (false, bb')) :
    bb.size = bb.list.length ∧
      (2 ^ 31 ≤ bb.size + 100 ∨ mem.grants ((bb.size + 100) * 4).toNat = false) := by
  have hadd := Option.some.inj hstep
  have hle := h.le_size
  rw [ext2fsU32ListAdd, U32List.grow] at hadd
  by_cases hfull : bb.size ≤ bb.list.length
  · refine ⟨by omega, or_iff_not_imp_left.mpr fun hint => ?_⟩
    have hbytes : (bb.size + 100) * 4 % 2 ^ 64 = (bb.size + 100) * 4 :=
      Int.emod_eq_of_lt (by omega) (by omega)
    rw [if_pos hfull, Int.bmod_eq_of_le (by omega) (by omega)] at hadd
    dsimp only at hadd
    by_contra hgrants
    rw [hbytes, if_pos (Bool.eq_true_of_not_eq_false hgrants)] at hadd
    exact Bool.noConfusion (congrArg Prod.fst hadd)
  · rw [if_neg hfull] at hadd
    exact Bool.noConfusion (congrArg Prod.fst hadd)

/-- **Whatever calls are made**, the list holds the set. -/
theorem U32Run.holds (h : U32Run bb s) : bb.Holds s := by
  induction h with
  | create hint hc => exact U32List.Holds.create hint hc
  | step _ hstep ih => exact ih.step hstep

/-! ### The answers -/

theorem u32IterateCalls_eq (bb : U32List) (n ptr : ℕ) :
    u32IterateCalls bb n ptr = ((bb.list.drop ptr).map some ++ List.replicate n none).take n := by
  induction n generalizing ptr with
  | zero => rfl
  | succ n ih =>
    rw [u32IterateCalls, ext2fsU32ListIterate]
    by_cases hlt : ptr < bb.list.length
    · rw [if_pos hlt, ih, List.drop_eq_getElem_cons hlt, List.map_cons, List.cons_append,
        List.take_succ_cons, List.getElem?_eq_getElem hlt, List.replicate_succ',
        ← List.append_assoc]
      refine congrArg (some bb.list[ptr] :: ·) (List.take_append_of_le_length ?_).symm
      rw [List.length_append, List.length_replicate]
      exact Nat.le_add_left _ _
    · rw [if_neg hlt, ih, List.drop_eq_nil_of_le (Nat.le_of_not_lt hlt)]
      rfl

theorem U32List.Holds.list_eq (h : bb.Holds s) : bb.list = s.sort (· ≤ ·) := by
  have hnodup : bb.list.Nodup := h.sorted.imp fun hxy => hxy.ne
  have hs : s = bb.list.toFinset := by
    ext v
    rw [List.mem_toFinset, h.mem]
  rw [hs]
  exact ((List.toFinset_sort (· ≤ ·) hnodup).mpr (h.sorted.imp fun hxy => hxy.le)).symm

/-- **The list is the set** of the numbers that were added and not deleted since. -/
theorem u32List_isSet (h : U32Run bb s) : bb.IsSet s := by
  have hholds := h.holds
  have hfind := find_spec hholds.sorted hholds.small
  refine ⟨hholds.sorted, fun v => ?_, fun v hv => ?_, fun v hv => ?_, fun n => ?_, fun op => ?_,
    fun mem blk bb' => hholds.refused⟩
  · obtain ⟨found, hfound, ⟨rfl, hmem⟩ | ⟨i, rfl, hi⟩⟩ := hfind v
    · rw [hholds.mem] at hmem
      rw [ext2fsU32ListTest, hfound, decide_eq_false hmem]
      rfl
    · have hmem := List.mem_of_getElem? hi
      rw [hholds.mem] at hmem
      rw [ext2fsU32ListTest, hfound, decide_eq_true hmem, Option.map_some,
        decide_eq_true (Int.natCast_nonneg i)]
  · rw [← hholds.mem] at hv
    obtain ⟨found, hfound, ⟨-, hmem⟩ | ⟨i, rfl, hi⟩⟩ := hfind v
    · exact absurd hv hmem
    · exact ⟨i, hfound, hi⟩
  · rw [← hholds.mem] at hv
    obtain ⟨found, hfound, ⟨rfl, -⟩ | ⟨i, rfl, hi⟩⟩ := hfind v
    · exact hfound
    · exact absurd (List.mem_of_getElem? hi) hv
  · rw [u32IterateCalls_eq, List.drop_zero, hholds.list_eq]
  · cases op with
    | add mem blk => exact ⟨_, _, rfl⟩
    | del blk =>
      obtain ⟨found, hfound, -⟩ := hfind blk
      rw [U32List.step, ext2fsU32ListDel, hfound]
      split_ifs
      · exact ⟨_, _, rfl⟩
      · exact ⟨_, _, rfl⟩
    | find blk =>
      obtain ⟨found, hfound, -⟩ := hfind blk
      rw [U32List.step, hfound]
      exact ⟨_, _, rfl⟩
    | test blk =>
      obtain ⟨found, hfound, -⟩ := hfind blk
      rw [U32List.step, ext2fsU32ListTest, hfound]
      exact ⟨_, _, rfl⟩

/-- As much memory as there can be. -/
def allMemory : HeapMemory :=
  ⟨fun n => decide (n < 2 ^ 63), fun _ h => decide_eq_false (Nat.not_lt.mpr h)⟩

/-- Two additions and a deletion. -/
theorem u32List_isSet_three : (⟨101, [7]⟩ : U32List).IsSet {7} := by
  have hcreate : U32Run ⟨1, []⟩ ∅ :=
    .create (by decide) (rfl : ext2fsU32ListCreate allMemory 1 = some ⟨1, []⟩)
  have hfirst : U32Run ⟨1, [9]⟩ (insert 9 ∅) :=
    .step hcreate (rfl : U32List.step ⟨1, []⟩ (.add allMemory 9) = some (true, ⟨1, [9]⟩))
  have hsecond : U32Run ⟨101, [7, 9]⟩ (insert 7 (insert 9 ∅)) :=
    .step hfirst (rfl : U32List.step ⟨1, [9]⟩ (.add allMemory 7) = some (true, ⟨101, [7, 9]⟩))
  have hdel : U32Run ⟨101, [7]⟩ ((insert 7 (insert 9 ∅) : Finset ℕ).erase 9) :=
    .step hsecond (rfl : U32List.step ⟨101, [7, 9]⟩ (.del 9) = some (true, ⟨101, [7]⟩))
  exact (by decide : (insert 7 (insert 9 ∅) : Finset ℕ).erase 9 = {7}) ▸ u32List_isSet hdel

end U32List

end E2fsprogs
