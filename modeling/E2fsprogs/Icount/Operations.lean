import E2fsprogs.Lib.SortedList

/-!
# The inode-count store

`lib/ext2fs/icount.c`. A count of one is a bit of the bitmap `single`, larger counts are in
a list sorted by inode number, and an optional second bitmap `multiple` says which inodes
have a count in the list. The list is grown on demand, and a cursor remembers where the
last lookup ended.

The list is `icount->list[0 .. count)`: the entries beyond `count` are allocated and never
read. A pointer to an entry is its position. The magic number is that of an icount that has
been created and not freed. `int` values are integers, and where the code converts an
unsigned number to `int` so does the model: a position may come out negative. An access
outside the list or the full map, an overflow of an `int` and a search that does not end
are `E2fsprogs.IcErr.undefined`.
-/

namespace E2fsprogs

/-- The errors of the operations. -/
inductive IcErr
  /-- `EXT2_ET_NO_MEMORY`. -/
  | noMemory
  /-- `EXT2_ET_INVALID_ARGUMENT`. -/
  | invalidArgument
  /-- Not an error code: what the code does is not defined. -/
  | undefined
  deriving DecidableEq, Repr

/-- `struct ext2_icount_el`. -/
structure IcountEl where
  ino : ℕ
  count : ℕ
  deriving DecidableEq, Repr

/-- `struct ext2_icount`, without the tdb. -/
structure Icount where
  single : ℕ → Bool
  multiple : Option (ℕ → Bool)
  size : ℕ
  numInodes : ℕ
  cursor : ℕ
  list : List IcountEl
  lastLookup : Option ℕ
  fullmap : Option (List ℕ)

/-- `icount_16_xlate`. -/
def icount16Xlate (x : ℕ) : ℕ := if 65500 < x then 65500 else x

/-- A 32-bit unsigned value converted to `int`. -/
def toInt (n : ℕ) : ℤ := if n % 2 ^ 32 < 2 ^ 31 then (n % 2 ^ 32 : ℕ) else (n % 2 ^ 32 : ℕ) - 2 ^ 32

/-- An `int` converted to a 32-bit unsigned value. -/
def toUnsigned (z : ℤ) : ℕ := (z % 2 ^ 32).toNat

/-- What a call finds outside the icount. -/
structure IcEnv where
  /-- Whether `ext2fs_resize_mem` has that many bytes. -/
  resizeMem : ℕ → Bool
  /-- `(ext2_ino_t) (count * ((float) num_inodes / last))`, which is rounded twice. -/
  scale : ℕ → ℕ → ℕ → ℕ

/-! ### Creating an icount -/

/-- What `ext2fs_create_icount2` reads of the file system. -/
structure IcFs where
  sInodesCount : ℕ
  /-- What `ext2fs_get_num_dirs` returns. -/
  numDirs : ℕ

/-- Which of the allocations of `ext2fs_create_icount2` succeed. -/
structure IcAlloc where
  fullmap : Bool
  single : Bool
  multiple : Bool
  list : Bool

/-- `EXT2_ICOUNT_OPT_INCREMENT`. -/
def icountOptIncrement : ℕ := 0x01

/-- `EXT2_ICOUNT_OPT_FULLMAP`. -/
def icountOptFullmap : ℕ := 0x02

/-- `alloc_icount`. The size of the full map is computed in an `unsigned`. -/
def allocIcount (fs : IcFs) (mem : IcAlloc) (flags : ℕ) : Except IcErr Icount :=
  let icount : Icount := ⟨fun _ => false, none, 0, fs.sInodesCount, 0, [], none, none⟩
  if flags &&& icountOptFullmap ≠ 0 ∧ flags &&& icountOptIncrement ≠ 0 ∧ mem.fullmap then
    .ok { icount with fullmap := some (List.replicate (2 * fs.sInodesCount % 2 ^ 32 / 2) 0) }
  else if mem.single = false then .error .noMemory
  else if flags &&& icountOptIncrement ≠ 0 then
    if mem.multiple = false then .error .noMemory
    else .ok { icount with multiple := some fun _ => false }
  else .ok icount

/-- `ext2fs_create_icount2`. -/
def createIcount2 (fs : IcFs) (mem : IcAlloc) (flags size : ℕ) (hint : Option Icount) :
    Except IcErr Icount :=
  let size := match hint with
    | some h => if size < h.size then h.size else size
    | none => size
  match allocIcount fs mem flags with
  | .error e => .error e
  | .ok icount =>
    if icount.fullmap.isSome then .ok icount
    else
      let size := if size ≠ 0 then size else (fs.numDirs + fs.sInodesCount / 50) % 2 ^ 32
      if mem.list = false then .error .noMemory
      else match hint with
        | none => .ok { icount with size := size }
        | some h =>
          if size < h.list.length then .error .undefined
          else .ok { icount with size := size, list := h.list.map fun el => ⟨el.ino, 0⟩ }

/-! ### The sorted list -/

/-- A pointer to an entry of the list. -/
inductive ElPtr
  /-- A null pointer. -/
  | null
  /-- The entry at a position. -/
  | el (i : ℕ)
  /-- What the code does is not defined. -/
  | undef
  deriving DecidableEq, Repr

/-- The entry at an `int` position. -/
def elAt (l : List IcountEl) (pos : ℤ) : Option IcountEl :=
  if 0 ≤ pos then l[pos.toNat]? else none

/-- The size a full list is grown to. -/
def Icount.newSize (env : IcEnv) (icount : Icount) : ℕ :=
  let newSize := match icount.list.getLast? with
    | some last => env.scale icount.list.length icount.numInodes last.ino % 2 ^ 32
    | none => 0
  if newSize < (icount.size + 100) % 2 ^ 32 then (icount.size + 100) % 2 ^ 32 else newSize

/-- The list of an icount with room for one more entry, if there is the memory. -/
def Icount.grow (env : IcEnv) (icount : Icount) : Option Icount :=
  if icount.size ≤ icount.list.length then
    if env.resizeMem (icount.newSize env * 8) then some { icount with size := icount.newSize env }
    else none
  else some icount

/-- Whether `last_lookup` is at the inode. -/
def Icount.lastLookupIs (icount : Icount) (ino : ℕ) : Option ℕ :=
  icount.lastLookup.filter fun i => (icount.list[i]?).map IcountEl.ino = some ino

/-- `insert_icount_el`. -/
def insertIcountEl (env : IcEnv) (icount : Icount) (ino : ℕ) (pos : ℤ) : ElPtr × Icount :=
  match icount.lastLookupIs ino with
  | some i => (.el i, icount)
  | none =>
    match icount.grow env with
    | none => (.null, icount)
    | some icount =>
      if toInt icount.list.length - pos < -2 ^ 31 then (.undef, icount)
      else if toInt icount.list.length < pos then (.null, icount)
      else if pos < 0 ∨ icount.size ≤ icount.list.length then (.undef, icount)
      else (.el pos.toNat, { icount with
        list := SortedList.insertAt icount.list pos.toNat ⟨ino, 0⟩
        lastLookup := some pos.toNat })

/-- Where a search has ended. -/
inductive ElSearch
  /-- At an entry of the inode. -/
  | found (mid : ℤ)
  /-- With `low` beyond `high`. -/
  | missing (low : ℤ)
  deriving DecidableEq, Repr

/-- The loop of `get_icount_el`. -/
def searchIcountEl (l : List IcountEl) (ino : ℕ) : ℕ → ℤ → ℤ → Option ElSearch
  | 0, _, _ => none
  | fuel + 1, low, high =>
    if low ≤ high then
      let mid := toInt ((toUnsigned low + toUnsigned high) % 2 ^ 32 / 2)
      match elAt l mid with
      | none => none
      | some el =>
        if ino = el.ino then some (.found mid)
        else if ino < el.ino then searchIcountEl l ino fuel low (mid - 1)
        else if mid + 1 < 2 ^ 31 then searchIcountEl l ino fuel (mid + 1) high
        else none
    else some (.missing low)

/-- `get_icount_el`. -/
def getIcountEl (env : IcEnv) (icount : Icount) (ino : ℕ) (create : Bool) : ElPtr × Icount :=
  if create ∧ ∀ last ∈ icount.list.getLast?, last.ino < ino then
    insertIcountEl env icount ino (toInt icount.list.length)
  else if icount.list = [] then (.null, icount)
  else
    let icount := if icount.list.length ≤ icount.cursor then { icount with cursor := 0 } else icount
    if (icount.list[icount.cursor]?).map IcountEl.ino = some ino then
      (.el icount.cursor, { icount with cursor := icount.cursor + 1 })
    else if toInt icount.list.length - 1 < -2 ^ 31 then (.undef, icount)
    else
      match searchIcountEl icount.list ino (icount.list.length + 1) 0
        (toInt icount.list.length - 1) with
      | none => (.undef, icount)
      | some (.found mid) => (.el mid.toNat, { icount with cursor := mid.toNat + 1 })
      | some (.missing low) =>
        if create then insertIcountEl env icount ino low else (.null, icount)

/-- The part of `set_inode_count` for the list. -/
def setElCount (env : IcEnv) (icount : Icount) (ino count : ℕ) : Except IcErr Unit × Icount :=
  match getIcountEl env icount ino true with
  | (.undef, icount) => (.error .undefined, icount)
  | (.null, icount) => (.error .noMemory, icount)
  | (.el i, icount) =>
    (.ok (), { icount with list := icount.list.modify i fun el => { el with count := count } })

/-- `set_inode_count`. -/
def setInodeCount (env : IcEnv) (icount : Icount) (ino count : ℕ) : Except IcErr Unit × Icount :=
  match icount.fullmap with
  | some m =>
    if ino < m.length then
      (.ok (), { icount with fullmap := some (m.set ino (icount16Xlate count)) })
    else (.error .undefined, icount)
  | none => setElCount env icount ino count

/-- The part of `get_inode_count` for the list. The callers do not look at the `ENOENT` of an
inode without entry, whose count has been set to zero. -/
def getElCount (env : IcEnv) (icount : Icount) (ino : ℕ) : Except IcErr ℕ × Icount :=
  match getIcountEl env icount ino false with
  | (.undef, icount) => (.error .undefined, icount)
  | (.null, icount) => (.ok 0, icount)
  | (.el i, icount) =>
    match icount.list[i]? with
    | some el => (.ok el.count, icount)
    | none => (.error .undefined, icount)

/-- `get_inode_count`. -/
def getInodeCount (env : IcEnv) (icount : Icount) (ino : ℕ) : Except IcErr ℕ × Icount :=
  match icount.fullmap with
  | some m =>
    match m[ino]? with
    | some count => (.ok count, icount)
    | none => (.error .undefined, icount)
  | none => getElCount env icount ino

/-- `ext2fs_icount_validate`. -/
def icountValidate (icount : Icount) : Except IcErr Unit :=
  if icount.size < icount.list.length then .error .invalidArgument
  else if (icount.list.zip icount.list.tail).any fun p => p.2.ino ≤ p.1.ino then
    .error .invalidArgument
  else .ok ()

/-! ### The operations -/

/-- A bitmap with a bit changed. -/
def setBit (m : ℕ → Bool) (ino : ℕ) (v : Bool) : ℕ → Bool := Function.update m ino v

/-- The bit of the inode in `single` changed. -/
def Icount.setSingle (icount : Icount) (ino : ℕ) (v : Bool) : Icount :=
  { icount with single := setBit icount.single ino v }

/-- The bit of the inode in `multiple` changed, when there is such a bitmap. -/
def Icount.setMultiple (icount : Icount) (ino : ℕ) (v : Bool) : Icount :=
  { icount with multiple := icount.multiple.map fun m => setBit m ino v }

/-- The inode numbers the operations accept. -/
def Icount.Valid (icount : Icount) (ino : ℕ) : Prop := ¬(ino = 0 ∨ icount.numInodes < ino)

instance (icount : Icount) (ino : ℕ) : Decidable (icount.Valid ino) :=
  inferInstanceAs (Decidable (¬(_ ∨ _)))

/-- `ext2fs_icount_fetch`. -/
def icountFetch (env : IcEnv) (icount : Icount) (ino : ℕ) : Except IcErr ℕ × Icount :=
  if ¬icount.Valid ino then (.error .invalidArgument, icount)
  else if icount.fullmap = none ∧ icount.single ino then (.ok 1, icount)
  else if icount.fullmap = none ∧ ∃ m ∈ icount.multiple, m ino = false then (.ok 0, icount)
  else
    match getInodeCount env icount ino with
    | (.error e, icount) => (.error e, icount)
    | (.ok val, icount) => (.ok (icount16Xlate val), icount)

/-- The part of `ext2fs_icount_increment` that stores a count in the list. The bit in `single`
is clear already unless the count was one. -/
def storeIncremented (env : IcEnv) (icount : Icount) (ino currValue : ℕ) :
    Except IcErr ℕ × Icount :=
  match setInodeCount env icount ino currValue with
  | (.error .undefined, icount) => (.error .undefined, icount)
  | (.error _, icount) => (.error .noMemory, icount)
  | (.ok (), icount) =>
    (.ok (icount16Xlate currValue), (icount.setSingle ino false).setMultiple ino true)

/-- `ext2fs_icount_increment`. -/
def icountIncrement (env : IcEnv) (icount : Icount) (ino : ℕ) : Except IcErr ℕ × Icount :=
  if ¬icount.Valid ino then (.error .invalidArgument, icount)
  else match icount.fullmap with
    | some m =>
      match m[ino]? with
      | some count =>
        (.ok (icount16Xlate (icount16Xlate (count + 1))),
          { icount with fullmap := some (m.set ino (icount16Xlate (count + 1))) })
      | none => (.error .undefined, icount)
    | none =>
      if icount.single ino then storeIncremented env icount ino 2
      else if ∃ m ∈ icount.multiple, m ino = false then (.ok 1, icount.setSingle ino true)
      else
        match getInodeCount env icount ino with
        | (.error e, icount) => (.error e, icount)
        | (.ok currValue, icount) => storeIncremented env icount ino ((currValue + 1) % 2 ^ 32)

/-- The part of `ext2fs_icount_decrement` and of `ext2fs_icount_store` that sets a count to
zero. They do not look at what `set_inode_count` returns. -/
def clearCount (env : IcEnv) (icount : Icount) (ino : ℕ) : Except IcErr ℕ × Icount :=
  let icount := icount.setSingle ino false
  if icount.multiple.isSome then (.ok 0, icount.setMultiple ino false)
  else
    match setInodeCount env icount ino 0 with
    | (.error .undefined, icount) => (.error .undefined, icount)
    | (_, icount) => (.ok 0, icount)

/-- `ext2fs_icount_decrement`. -/
def icountDecrement (env : IcEnv) (icount : Icount) (ino : ℕ) : Except IcErr ℕ × Icount :=
  if ¬icount.Valid ino then (.error .invalidArgument, icount)
  else match icount.fullmap with
    | some m =>
      match m[ino]? with
      | some 0 => (.error .invalidArgument, icount)
      | some (count + 1) =>
        (.ok (icount16Xlate count), { icount with fullmap := some (m.set ino count) })
      | none => (.error .undefined, icount)
    | none =>
      if icount.single ino then clearCount env icount ino
      else if ∃ m ∈ icount.multiple, m ino = false then (.error .invalidArgument, icount)
      else
        match getInodeCount env icount ino with
        | (.error e, icount) => (.error e, icount)
        | (.ok 0, icount) => (.error .invalidArgument, icount)
        | (.ok (currValue + 1), icount) =>
          match setInodeCount env icount ino currValue with
          | (.error .undefined, icount) => (.error .undefined, icount)
          | (.error _, icount) => (.error .noMemory, icount)
          | (.ok (), icount) =>
            let icount := if currValue = 1 then icount.setSingle ino true else icount
            (.ok (icount16Xlate currValue),
              if currValue = 0 then icount.setMultiple ino false else icount)

/-- `ext2fs_icount_store`. -/
def icountStore (env : IcEnv) (icount : Icount) (ino count : ℕ) : Except IcErr ℕ × Icount :=
  if ¬icount.Valid ino then (.error .invalidArgument, icount)
  else if icount.fullmap.isSome then
    match setInodeCount env icount ino count with
    | (.error e, icount) => (.error e, icount)
    | (.ok (), icount) => (.ok 0, icount)
  else if count = 1 then (.ok 0, (icount.setSingle ino true).setMultiple ino false)
  else if count = 0 then clearCount env icount ino
  else
    match setInodeCount env icount ino count with
    | (.error .undefined, icount) => (.error .undefined, icount)
    | (.error _, icount) => (.error .noMemory, icount)
    | (.ok (), icount) => (.ok 0, (icount.setSingle ino false).setMultiple ino true)

/-- One call. -/
inductive IcOp
  | fetch (ino : ℕ)
  | increment (ino : ℕ)
  | decrement (ino : ℕ)
  | store (ino count : ℕ)
  deriving DecidableEq, Repr

/-- The inode a call is about. -/
def IcOp.ino : IcOp → ℕ
  | .fetch ino | .increment ino | .decrement ino | .store ino _ => ino

/-- What a call returns and leaves; a store returns no number. -/
def Icount.step (icount : Icount) (env : IcEnv) : IcOp → Except IcErr ℕ × Icount
  | .fetch ino => icountFetch env icount ino
  | .increment ino => icountIncrement env icount ino
  | .decrement ino => icountDecrement env icount ino
  | .store ino count => icountStore env icount ino count

end E2fsprogs
