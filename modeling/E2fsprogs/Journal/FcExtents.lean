import E2fsprogs.Journal.Format
import E2fsprogs.Bitmap.Clusters
import E2fsprogs.Lib.Qsort

/-!
# The extent list of the fast-commit replay

The replay of the range tags of a file edits a list of its extents, which is written back
as a whole. `ext4_modify_extent_list` first makes a hole in the list where the new extent
is to go, one loop that has to cut extents in four ways and leaves extents of length zero
behind, then appends the new extent, unless the range is to be deleted, and has
`ex_sort_and_merge` put the list in order.

The list is `list->extents[0 .. count)`. Block numbers are `blk64_t`, lengths `__u32`,
and the distance by which an extent is moved goes through an `int`. `qsort` is a parameter:
the first of the two comparisons is no order, and what becomes of a list that is sorted
with it is left open by C.
-/

namespace E2fsprogs

/-- `struct ext2fs_extent`. -/
structure FcExtent where
  ePblk : ℕ
  eLblk : ℕ
  eLen : ℕ
  eFlags : ℕ
  deriving DecidableEq, Repr

/-- `e_flags & EXT2_EXTENT_FLAGS_UNINIT`. -/
def FcExtent.uninit (e : FcExtent) : Bool := e.eFlags.testBit 1

/-- `struct extent_list`, as far as the replay uses it. -/
structure ExtentList where
  extents : List FcExtent
  size : ℕ
  deriving DecidableEq, Repr

/-- What keeps an edit from succeeding. -/
inductive FcListErr
  /-- The list could not be grown, and the code says so. -/
  | noMemory
  /-- Not an error code: what the code does is not defined. -/
  | undefined
  deriving DecidableEq, Repr

/-- Whether `ext2fs_resize_mem` succeeds, in the two places where the list may grow. -/
structure FcListMem where
  split : Bool
  add : Bool

/-- `ex_end`. -/
def exEnd (e : FcExtent) : ℕ := (e.eLblk + e.eLen + (2 ^ 64 - 1)) % 2 ^ 64

/-- `ex_pend`. -/
def exPend (e : FcExtent) : ℕ := (e.ePblk + e.eLen + (2 ^ 64 - 1)) % 2 ^ 64

/-- The bytes a full list is grown to: `(list->size + 341) * sizeof(struct ext2fs_extent)`,
in an `unsigned int`. -/
def grownBytes (size : ℕ) : ℕ := (size + 341) % 2 ^ 32 * 24 % 2 ^ 32

/-- `make_room` at index `i`, with the extent that the caller then stores there. -/
def ExtentList.makeRoom (mem : Bool) (list : ExtentList) (i : ℕ) (x : FcExtent) :
    Except FcListErr ExtentList :=
  if list.extents.length = list.size then
    if mem = false then .error .noMemory
    else if grownBytes list.size < (list.extents.length + 1) * 24 then .error .undefined
    else .ok ⟨list.extents.insertIdx i x, (list.size + 341) % 2 ^ 32⟩
  else .ok ⟨list.extents.insertIdx i x, list.size⟩

/-! ### Sorting and merging -/

section Modify

/-- `ex_compar`. The lengths are subtracted as unsigned numbers. -/
def exCompar (ex1 ex2 : FcExtent) : Option ℤ :=
  if ex1.eLblk < ex2.eLblk then some (-1)
  else if ex2.eLblk < ex1.eLblk then some 1
  else
    let d : ℕ := (ex1.eLen + 2 ^ 32 - ex2.eLen) % 2 ^ 32
    some (if d < 2 ^ 31 then d else (d : ℤ) - 2 ^ 32)

/-- `ex_len_compar`. -/
def exLenCompar (ex1 ex2 : FcExtent) : Option ℤ :=
  if ex1.eLen < ex2.eLen then some 1
  else if ex2.eLblk < ex1.eLblk then some (-1)
  else some 0

/-- Two extents in a row that are one: logically and physically contiguous, and both
written or both not. -/
def Contiguous (a b : FcExtent) : Prop :=
  (exEnd a + 1) % 2 ^ 64 = b.eLblk ∧ (exPend a + 1) % 2 ^ 64 = b.ePblk ∧ a.uninit = b.uninit

instance (a b : FcExtent) : Decidable (Contiguous a b) :=
  inferInstanceAs (Decidable (_ ∧ _ ∧ _))

/-- The last loop of `ex_sort_and_merge`, from an extent on. -/
def mergeFrom (e : FcExtent) : List FcExtent → List FcExtent
  | [] => [e]
  | e' :: rest =>
    if Contiguous e e' then mergeFrom { e with eLen := (e.eLen + e'.eLen) % 2 ^ 32 } rest
    else e :: mergeFrom e' rest

/-- The last loop of `ex_sort_and_merge`. -/
def mergeExtents : List FcExtent → List FcExtent
  | [] => []
  | e :: rest => mergeFrom e rest

variable (qsort : (FcExtent → FcExtent → Option ℤ) → List FcExtent → List FcExtent)

/-- `ex_sort_and_merge`. -/
def exSortAndMerge (list : ExtentList) : ExtentList :=
  if list.extents.length < 2 then list
  else
    let l := (qsort exLenCompar list.extents).takeWhile fun e => e.eLen ≠ 0
    { list with extents := mergeExtents (qsort exCompar l) }

/-! ### The hole -/

variable (bal : SearchTree RbExtent → List RbExtent → SearchTree RbExtent)

/-- The start of an extent moved behind the range: the distance is an `int`. -/
def moveBehind (add e : FcExtent) : FcExtent :=
  let offset := (exEnd add + 1 + 2 ^ 64 - e.eLblk) % 2 ^ 64 % 2 ^ 32
  { e with
    eLblk := (e.eLblk + signExtend64 offset) % 2 ^ 64
    ePblk := (e.ePblk + signExtend64 offset) % 2 ^ 64
    eLen := (e.eLen + 2 ^ 32 - offset) % 2 ^ 32 }

/-- The end of an extent moved in front of the range. -/
def cutBefore (add e : FcExtent) : FcExtent :=
  { e with eLen := (add.eLblk + 2 ^ 64 - e.eLblk) % 2 ^ 64 % 2 ^ 32 }

/-- The loop of `ext4_modify_extent_list`, behind the extents `done`. -/
def holeFrom (mem : Bool) (size : ℕ) (add : FcExtent) : List FcExtent → List FcExtent →
    BlockBitmap → Except FcListErr ExtentList × BlockBitmap
  | done, [], bm => (.ok ⟨done, size⟩, bm)
  | done, e :: rest, bm =>
    if exEnd e < add.eLblk then holeFrom mem size add (done ++ [e]) rest bm
    else if exEnd add < e.eLblk then (.ok ⟨done ++ e :: rest, size⟩, bm)
    else
      let bm := bm.unmarkRange bal e.ePblk e.eLen
      if e.eLblk < add.eLblk ∧ exEnd add < exEnd e then
        (ExtentList.makeRoom mem ⟨done ++ cutBefore add e :: rest, size⟩ (done.length + 1)
          (moveBehind add e), bm)
      else if add.eLblk ≤ e.eLblk ∧ exEnd e ≤ exEnd add then
        holeFrom mem size add (done ++ [{ e with eLen := 0 }]) rest bm
      else if exEnd add < exEnd e then (.ok ⟨done ++ moveBehind add e :: rest, size⟩, bm)
      else if exEnd e ≤ exEnd add then
        holeFrom mem size add
          (done ++ [if e.eLblk < add.eLblk then cutBefore add e else { e with eLen := 0 }]) rest bm
      else holeFrom mem size add (done ++ [e]) rest bm

/-- The new extent is put at the end. The answer of `make_room` is not looked at: without
room the last extent is overwritten. -/
def appendExtent (mem : Bool) (list : ExtentList) (ex : FcExtent) : Except FcListErr ExtentList :=
  match ExtentList.makeRoom mem list list.extents.length ex with
  | .ok list => .ok list
  | .error .undefined => .error .undefined
  | .error .noMemory =>
    if list.extents = [] then .error .undefined
    else .ok { list with extents := list.extents.set (list.extents.length - 1) ex }

/-- `ext4_modify_extent_list`: the list and the bitmap where it returns `0`. -/
def ext4ModifyExtentList (mem : FcListMem) (bm : BlockBitmap) (list : ExtentList) (ex : FcExtent)
    (del : Bool) : Except FcListErr (ExtentList × BlockBitmap) :=
  match holeFrom bal mem.split list.size ex [] list.extents bm with
  | (.error err, _) => .error err
  | (.ok list, bm) =>
    match (if ex.eLen ≠ 0 ∧ del = false then appendExtent mem.add list ex else .ok list) with
    | .error err => .error err
    | .ok list =>
      let list := exSortAndMerge qsort list
      .ok (list, list.extents.foldl (fun bm e => bm.markRange bal e.ePblk e.eLen) bm)

/-- `ext4_add_extent_to_list`. -/
def ext4AddExtentToList (mem : FcListMem) (bm : BlockBitmap) (list : ExtentList) (ex : FcExtent) :
    Except FcListErr (ExtentList × BlockBitmap) :=
  ext4ModifyExtentList qsort bal mem bm list ex false

/-- `ext4_del_extent_from_list`. -/
def ext4DelExtentFromList (mem : FcListMem) (bm : BlockBitmap) (list : ExtentList) (ex : FcExtent) :
    Except FcListErr (ExtentList × BlockBitmap) :=
  ext4ModifyExtentList qsort bal mem bm list ex true

end Modify

end E2fsprogs
