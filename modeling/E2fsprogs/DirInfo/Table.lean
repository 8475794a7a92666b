import E2fsprogs.Lib.Loop
import E2fsprogs.Lib.SortedList

/-!
# The directory information table

`e2fsck/dirinfo.c`, the table in memory. One entry for each directory, in an array sorted by
inode number. A directory is looked up at the entry the last iteration step has handed out,
at the two ends of the array, and by bisection; an addition behind the last entry is the
common case, any other one moves the entries behind its place up by one.

A pointer to an entry is its position. The positions are `ext2_ino_t`: the sum of two of them
is taken in 32 bits before it is widened, and the size of the array grows in 32 bits as well.
An access outside the array has no result.
-/

namespace E2fsprogs

open SortedList

/-- `struct dir_info`. -/
structure DirInfo where
  ino : ℕ
  dotdot : ℕ
  parent : ℕ
  deriving DecidableEq, Repr

/-- `struct dir_info_db`. The array is `array[0 .. count)`. -/
structure DirInfoDb where
  size : ℕ
  array : List DirInfo
  lastLookup : Option ℕ
  deriving Repr

/-! ### Adding a directory -/

/-- `setup_db`. The number of directories is `ext2fs_get_num_dirs`, or a guess. -/
def setupDirInfoDb (numDirs : ℕ) : DirInfoDb := ⟨(numDirs + 10) % 2 ^ 32, [], none⟩

/-- The array is made larger when it is full. `moved` is whether `ext2fs_resize_mem` puts
the array somewhere else; it does not return when there is no memory. -/
def growDirInfo (moved : Bool) (db : DirInfoDb) : DirInfoDb :=
  if db.size ≤ db.array.length then
    { db with
      size := (db.size + 10) % 2 ^ 32
      lastLookup := if moved then none else db.lastLookup }
  else db

/-- The first loop of `e2fsck_add_dir_info`, from the position `i` down. -/
def dirInfoPlace (array : List DirInfo) (ino : ℕ) : ℕ → ℕ
  | 0 => 0
  | i + 1 => if ∃ d ∈ array[i]?, d.ino < ino then i + 1 else dirInfoPlace array ino i

/-- The entry is stored behind the others, in place of the one with its inode number, or
between two others. -/
def placeDirInfo (array : List DirInfo) (dir : DirInfo) : List DirInfo :=
  if ∃ last ∈ array.getLast?, dir.ino ≤ last.ino then
    let i := dirInfoPlace array dir.ino (array.length - 1)
    if (array[i]?).map DirInfo.ino = some dir.ino then array.set i dir
    else insertAt array i dir
  else array ++ [dir]

/-- `e2fsck_add_dir_info`. -/
def e2fsckAddDirInfo (numDirs : ℕ) (moved : Bool) (ctx : Option DirInfoDb) (ino parent : ℕ) :
    Option DirInfoDb :=
  let db := growDirInfo moved (ctx.getD (setupDirInfoDb numDirs))
  if db.array.length < db.size then
    some { db with array := placeDirInfo db.array ⟨ino, parent, parent⟩ }
  else none

/-! ### Looking a directory up -/

/-- One round of the bisection: the positions `low` and `high`, or the pointer that is
returned. -/
def bisectDirInfo (array : List DirInfo) (ino : ℕ) :
    ℕ × ℕ → (ℕ × ℕ) ⊕ Option (Option ℕ)
  | (low, high) =>
    if low < high then
      let mid := (low + high) % 2 ^ 32 / 2
      if mid = low ∨ mid = high then .inr (some none)
      else
        match array[mid]? with
        | none => .inr none
        | some d =>
          if ino = d.ino then .inr (some (some mid))
          else if ino < d.ino then .inl (low, mid)
          else .inl (mid, high)
    else .inr (some none)

/-- `e2fsck_get_dir_info`, with so many rounds of the bisection at most. -/
def e2fsckGetDirInfo (ctx : Option DirInfoDb) (ino : ℕ) (fuel : ℕ) : Option (Option ℕ) :=
  match ctx with
  | none => some none
  | some db =>
    match db.lastLookup.filter fun i => (db.array[i]?).map DirInfo.ino = some ino with
    | some i => some (some i)
    | none =>
      match db.array[0]?, db.array[db.array.length - 1]? with
      | some first, some last =>
        if ino = first.ino then some (some 0)
        else if ino = last.ino then some (some (db.array.length - 1))
        else (Loop.run (bisectDirInfo db.array ino) fuel (0, db.array.length - 1)).join
      | _, _ => none

/-- The entry a pointer leads to. -/
def DirInfoDb.at (ctx : Option DirInfoDb) (i : ℕ) : Option DirInfo :=
  ctx.bind fun db => db.array[i]?

/-- `e2fsck_dir_info_get_parent`: the parent, or nothing when it returns `1`. -/
def e2fsckDirInfoGetParent (ctx : Option DirInfoDb) (ino : ℕ) (fuel : ℕ) : Option (Option ℕ) :=
  (e2fsckGetDirInfo ctx ino fuel).map fun p => (p.bind (DirInfoDb.at ctx)).map DirInfo.parent

/-- `e2fsck_dir_info_get_dotdot`. -/
def e2fsckDirInfoGetDotdot (ctx : Option DirInfoDb) (ino : ℕ) (fuel : ℕ) : Option (Option ℕ) :=
  (e2fsckGetDirInfo ctx ino fuel).map fun p => (p.bind (DirInfoDb.at ctx)).map DirInfo.dotdot

/-- An entry is changed through the pointer to it: the return value, and the table. -/
def DirInfoDb.modify (ctx : Option DirInfoDb) (p : Option ℕ) (f : DirInfo → DirInfo) :
    ℕ × Option DirInfoDb :=
  match p with
  | none => (1, ctx)
  | some i => (0, ctx.map fun db => { db with array := db.array.modify i f })

/-- `e2fsck_dir_info_set_parent`. -/
def e2fsckDirInfoSetParent (ctx : Option DirInfoDb) (ino parent : ℕ) (fuel : ℕ) :
    Option (ℕ × Option DirInfoDb) :=
  (e2fsckGetDirInfo ctx ino fuel).map fun p =>
    DirInfoDb.modify ctx p fun d => { d with parent := parent }

/-- `e2fsck_dir_info_set_dotdot`. -/
def e2fsckDirInfoSetDotdot (ctx : Option DirInfoDb) (ino dotdot : ℕ) (fuel : ℕ) :
    Option (ℕ × Option DirInfoDb) :=
  (e2fsckGetDirInfo ctx ino fuel).map fun p =>
    DirInfoDb.modify ctx p fun d => { d with dotdot := dotdot }

/-- `e2fsck_dir_info_iter`: the entry, and the table with the pointer to it. `i` is the
position of the iterator. -/
def e2fsckDirInfoIter (ctx : Option DirInfoDb) (i : ℕ) : Option DirInfo × Option DirInfoDb × ℕ :=
  match ctx with
  | none => (none, none, i)
  | some db =>
    if i < db.array.length then (db.array[i]?, some { db with lastLookup := some i }, i + 1)
    else (none, some db, i)

/-- What so many steps of an iterator hand out. -/
def dirInfoIterCalls : ℕ → Option DirInfoDb → ℕ → List (Option DirInfo)
  | 0, _, _ => []
  | n + 1, ctx, i =>
    (e2fsckDirInfoIter ctx i).1 ::
      dirInfoIterCalls n (e2fsckDirInfoIter ctx i).2.1 (e2fsckDirInfoIter ctx i).2.2

/-! ### The bisection -/

/-- The inode number is neither at `low` or below it nor at `high` or above it. -/
structure Bisecting (array : List DirInfo) (ino low high : ℕ) : Prop where
  le : low ≤ high
  lt : high < array.length
  not_low : ∀ d ∈ array.take (low + 1), d.ino ≠ ino
  not_high : ∀ d ∈ array.drop high, d.ino ≠ ino

/-- What a pointer that the lookup returns says. -/
def DirInfoAt (array : List DirInfo) (ino : ℕ) : Option ℕ → Prop
  | none => lookup DirInfo.ino array ino = none
  | some i => ∃ d, array[i]? = some d ∧ d.ino = ino

variable {array : List DirInfo} {ino low high : ℕ}

theorem Bisecting.lookup_eq_none (h : Bisecting array ino low high) (hmeet : high ≤ low + 1) :
    lookup DirInfo.ino array ino = none := by
  rw [lookup, List.find?_eq_none]
  intro d hd
  rw [← List.take_append_drop high array, List.mem_append] at hd
  rcases hd with hd | hd
  · have := h.not_low d ((List.take_sublist_take_left hmeet).subset hd)
    simpa using this
  · simpa using h.not_high d hd

/-- A small enough array is bisected exactly. -/
theorem Bisecting.mid_eq (h : Bisecting array ino low high) (hlt : low < high)
    (hsmall : array.length ≤ 2 ^ 31 + 1) : (low + high) % 2 ^ 32 / 2 = (low + high) / 2 := by
  have := h.lt
  rw [Nat.mod_eq_of_lt (by omega)]

/-- One round of the bisection: it ends with the right pointer, or the gap gets smaller. -/
theorem Bisecting.round (h : Bisecting array ino low high) (hs : Sorted DirInfo.ino array)
    (hsmall : array.length ≤ 2 ^ 31 + 1) :
    (∃ p, bisectDirInfo array ino (low, high) = .inr (some p) ∧ DirInfoAt array ino p) ∨
    ∃ low' high', bisectDirInfo array ino (low, high) = .inl (low', high') ∧
      Bisecting array ino low' high' ∧ high' - low' < high - low := by
  have hlt := h.lt
  rw [bisectDirInfo]
  split_ifs with hgap
  · have hmid := h.mid_eq hgap hsmall
    obtain ⟨mid, hmid'⟩ : ∃ mid, mid = (low + high) / 2 := ⟨_, rfl⟩
    dsimp only
    rw [hmid, ← hmid']
    split_ifs with hend
    · exact Or.inl ⟨none, rfl, h.lookup_eq_none (by omega)⟩
    · obtain ⟨d, hd⟩ : ∃ d, array[mid]? = some d :=
        ⟨_, List.getElem?_eq_getElem (by omega)⟩
      rw [hd]
      dsimp only
      split_ifs with heq hless
      · exact Or.inl ⟨some mid, rfl, d, hd, heq.symm⟩
      · refine Or.inr ⟨low, mid, rfl, ⟨by omega, by omega, h.not_low, ?_⟩, by omega⟩
        exact fun e he => (hs.above hd hless e he).ne'
      · refine Or.inr ⟨mid, high, rfl, ⟨by omega, hlt, ?_, h.not_high⟩, by omega⟩
        exact fun e he => (hs.below hd (by omega) e he).ne
  · exact Or.inl ⟨none, rfl, h.lookup_eq_none (by omega)⟩

/-- The bisection ends, and with the right pointer. -/
theorem Bisecting.leaves (h : Bisecting array ino low high) (hs : Sorted DirInfo.ino array)
    (hsmall : array.length ≤ 2 ^ 31 + 1) :
    ∃ p, Loop.Leaves (bisectDirInfo array ino) (low, high) (some p) ∧ DirInfoAt array ino p := by
  induction hgap : high - low using Nat.strong_induction_on generalizing low high with
  | _ gap ih =>
    rcases h.round hs hsmall with ⟨p, hp, hpoints⟩ | ⟨low', high', hround, h', hless⟩
    · exact ⟨p, Loop.leaves_of_inr hp, hpoints⟩
    · obtain ⟨p, hp, hpoints⟩ := ih (high' - low') (hgap ▸ hless) h' rfl
      exact ⟨p, Loop.leaves_of_round hround hp, hpoints⟩

end E2fsprogs
