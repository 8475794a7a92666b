import E2fsprogs.Quota.File

/-!
# The quota tree

`lib/support/quotaio_tree.c`. Blocks of a quota file are in one of three roles: free blocks are
in a list through `dqdh_next_free`; index blocks have a reference for each byte of an id, at
depths zero to three; and data blocks have the entries, with those that are neither full nor
empty in a doubly linked list through the same two words. `E2fsprogs.Quota.qtreeWriteDquot`,
`E2fsprogs.Quota.qtreeDeleteDquot` and `E2fsprogs.Quota.qtreeReadDquot` are the operations.

A write of a block that the file has is one that succeeds, and so are reads; `room` is whether
the file can be given a block behind its last one. Memory is always there. A recursion over the
depth takes the number of levels that are below, `QT_TREEDEPTH - 1 - depth`, which is what
`get_index` shifts by.
-/

namespace E2fsprogs

namespace Quota

/-- `struct quota_handle`, with the file and the info that is in memory. -/
structure QuotaHandle where
  file : Words
  fmt : Fmt
  dqiBlocks : ℕ
  dqiFreeBlk : ℕ
  dqiFreeEntry : ℕ

/-- `struct dquot`. Zero for `dqb_off` is a dquot that is not in the file. -/
structure Dquot where
  dqId : UInt32
  dqb : Dqblk
  dqbOff : ℕ
  deriving DecidableEq, Repr

/-- The first blocks of a new file, with the magic number of its type. -/
def newWords (magic : ℕ) : Words := fun a => [magic, 1, 604800, 604800, 0, 2, 0, 0].getD a 0

/-- `v2_new_io` -/
def v2NewIo (magic : ℕ) : QuotaHandle := ⟨newWords magic, .r1, 2, 0, 0⟩

def QuotaHandle.readBlk (h : QuotaHandle) (blk : ℕ) : Buf := Quota.readBlk h.file blk

def QuotaHandle.writeBlk (h : QuotaHandle) (blk : ℕ) (buf : Buf) : QuotaHandle :=
  { h with file := Quota.writeBlk h.file blk buf }

/-- `get_index`, with the number of levels below. -/
def getIndex (id : UInt32) (n : ℕ) : Fin 256 :=
  ⟨id.toNat / 256 ^ n % 256, Nat.mod_lt _ (by norm_num)⟩

/-! ### Free blocks -/

/-- A block number that is returned as an `int`: a negative one is an error for the caller. -/
def asInt (blk : ℕ) : Option ℕ := if blk < 2 ^ 31 then some blk else none

/-- `get_free_dqblk` -/
def getFreeDqblk (room : ℕ → Bool) (h : QuotaHandle) : Option ℕ × QuotaHandle :=
  if h.dqiFreeBlk ≠ 0 then
    (asInt h.dqiFreeBlk, { h with dqiFreeBlk := (h.readBlk h.dqiFreeBlk).nextFree })
  else if room h.dqiBlocks then
    (asInt h.dqiBlocks,
      { h.writeBlk h.dqiBlocks zeroBuf with dqiBlocks := (h.dqiBlocks + 1) % 2 ^ 32 })
  else (none, h)

/-- `put_free_dqblk` -/
def putFreeDqblk (h : QuotaHandle) (buf : Buf) (blk : ℕ) : QuotaHandle :=
  { h.writeBlk blk (((buf.setNextFree h.dqiFreeBlk).setPrevFree 0).setEntries 0) with
    dqiFreeBlk := blk }

/-! ### Data blocks with free entries -/

/-- `remove_free_dqentry`, with the block that the caller goes on with. -/
def removeFreeDqentry (h : QuotaHandle) (buf : Buf) (blk : ℕ) : Buf × QuotaHandle :=
  let nextblk := buf.nextFree
  let prevblk := buf.prevFree
  let h := if nextblk ≠ 0 then h.writeBlk nextblk ((h.readBlk nextblk).setPrevFree prevblk) else h
  let h :=
    if prevblk ≠ 0 then h.writeBlk prevblk ((h.readBlk prevblk).setNextFree nextblk)
    else { h with dqiFreeEntry := nextblk }
  let buf := (buf.setNextFree 0).setPrevFree 0
  (buf, h.writeBlk blk buf)

/-- `insert_free_dqentry` -/
def insertFreeDqentry (h : QuotaHandle) (buf : Buf) (blk : ℕ) : QuotaHandle :=
  let h' := h.writeBlk blk ((buf.setNextFree h.dqiFreeEntry).setPrevFree 0)
  let h' :=
    if h.dqiFreeEntry ≠ 0 then
      h'.writeBlk h.dqiFreeEntry ((h'.readBlk h.dqiFreeEntry).setPrevFree blk)
    else h'
  { h' with dqiFreeEntry := blk }

/-- The loops over the entries of a block: the index of the first one with a property, or their
number. -/
def firstEntry (fmt : Fmt) (p : List ℕ → Bool) (buf : Buf) : ℕ :=
  ((List.range fmt.dqstrInBlk).find? fun i => p (buf.entry fmt i)).getD fmt.dqstrInBlk

/-- The second part of `find_free_dqentry`, once it has a block: the offset of the entry. -/
def takeDqentry (h : QuotaHandle) (buf : Buf) (blk : ℕ) : ℕ × QuotaHandle :=
  let r := if h.fmt.dqstrInBlk ≤ buf.entries + 1 then removeFreeDqentry h buf blk else (buf, h)
  let buf := r.1.setEntries (r.1.entries + 1)
  (freeDqentryOff h.fmt blk (firstEntry h.fmt entryUnused buf), r.2.writeBlk blk buf)

/-- What an insertion has done: the block that is referred to, or none for an error, the offset
of the entry, and the file. -/
structure Inserted where
  blk : Option ℕ
  dqbOff : ℕ
  handle : QuotaHandle

/-- `find_free_dqentry` -/
def findFreeDqentry (room : ℕ → Bool) (h : QuotaHandle) : Inserted :=
  if h.dqiFreeEntry ≠ 0 then
    let r := takeDqentry h (h.readBlk h.dqiFreeEntry) h.dqiFreeEntry
    ⟨some h.dqiFreeEntry, r.1, r.2⟩
  else
    match getFreeDqblk room h with
    | (none, h) => ⟨none, 0, h⟩
    | (some blk, h) =>
      let r := takeDqentry { h with dqiFreeEntry := blk } zeroBuf blk
      ⟨some blk, r.1, r.2⟩

/-! ### Writing -/

/-- The rest of `do_insert_tree`, once the reference of a block has been followed. `newact` is
whether the block has been taken for it. -/
def linkTree (i : Fin 256) (treeblk : ℕ) (buf : Buf) (newact : Bool) (r : Inserted) : Inserted :=
  match r.blk with
  | some newblk =>
    if buf i = 0 then
      ⟨some treeblk, r.dqbOff, r.handle.writeBlk treeblk (Function.update buf i newblk)⟩
    else ⟨some treeblk, r.dqbOff, r.handle⟩
  | none =>
    if newact then ⟨none, r.dqbOff, putFreeDqblk r.handle buf treeblk⟩
    else ⟨none, r.dqbOff, r.handle⟩

/-- `do_insert_tree` -/
def doInsertTree (room : ℕ → Bool) (id : UInt32) : ℕ → QuotaHandle → ℕ → Inserted
  | 0, h, treeblk =>
    if treeblk = 0 then
      match getFreeDqblk room h with
      | (none, h) => ⟨none, 0, h⟩
      | (some treeblk, h) => linkTree (getIndex id 0) treeblk zeroBuf true (findFreeDqentry room h)
    else
      linkTree (getIndex id 0) treeblk (h.readBlk treeblk) false (findFreeDqentry room h)
  | n + 1, h, treeblk =>
    if treeblk = 0 then
      match getFreeDqblk room h with
      | (none, h) => ⟨none, 0, h⟩
      | (some treeblk, h) =>
        linkTree (getIndex id (n + 1)) treeblk zeroBuf true (doInsertTree room id n h 0)
    else
      linkTree (getIndex id (n + 1)) treeblk (h.readBlk treeblk) false
        (doInsertTree room id n h (h.readBlk treeblk (getIndex id (n + 1))))

/-- `qtree_write_dquot`. Where the insertion fails, `dqb_off` stays zero, and the entry is written
all the same. -/
def qtreeWriteDquot (room : ℕ → Bool) (h : QuotaHandle) (dquot : Dquot) : Dquot × QuotaHandle :=
  let r : ℕ × QuotaHandle :=
    if dquot.dqbOff = 0 then
      let r := doInsertTree room dquot.dqId 3 h qtTreeoff
      (r.dqbOff, r.handle)
    else (dquot.dqbOff, h)
  ({ dquot with dqbOff := r.1 },
    { r.2 with file := writeEntry r.2.file r.1 (r.2.fmt.mem2disk dquot.dqId dquot.dqb) })

/-! ### Deleting -/

/-- `free_dqentry` -/
def freeDqentry (h : QuotaHandle) (dqbOff blk : ℕ) : QuotaHandle :=
  let buf := (h.readBlk blk).setEntries ((h.readBlk blk).entries + (2 ^ 16 - 1))
  if buf.entries = 0 then
    let r := removeFreeDqentry h buf blk
    putFreeDqblk r.2 r.1 blk
  else
    let buf := buf.clear (dqbOff % qtBlksize / 4) h.fmt.entryWords
    if buf.entries = h.fmt.dqstrInBlk - 1 then insertFreeDqentry h buf blk
    else h.writeBlk blk buf

/-- The rest of `remove_tree`, once the reference of a block has been followed: the reference is
cleared where what it leads to is gone, and the block is freed where it has no other. -/
def unlinkTree (i : Fin 256) (blk : ℕ) (buf : Buf) (newblk : ℕ) (h : QuotaHandle) :
    ℕ × QuotaHandle :=
  if newblk = 0 then
    let buf := Function.update buf i 0
    if (∀ j, buf j = 0) ∧ blk ≠ qtTreeoff then (0, putFreeDqblk h buf blk)
    else (blk, h.writeBlk blk buf)
  else (blk, h)

/-- `remove_tree` -/
def removeTree (id : UInt32) (dqbOff : ℕ) : ℕ → QuotaHandle → ℕ → ℕ × QuotaHandle
  | 0, h, blk =>
    let buf := h.readBlk blk
    unlinkTree (getIndex id 0) blk buf 0 (freeDqentry h dqbOff (buf (getIndex id 0)))
  | n + 1, h, blk =>
    let buf := h.readBlk blk
    let r := removeTree id dqbOff n h (buf (getIndex id (n + 1)))
    unlinkTree (getIndex id (n + 1)) blk buf r.1 r.2

/-- `qtree_delete_dquot` -/
def qtreeDeleteDquot (h : QuotaHandle) (dquot : Dquot) : Dquot × QuotaHandle :=
  if dquot.dqbOff = 0 then (dquot, h)
  else ({ dquot with dqbOff := 0 }, (removeTree dquot.dqId dquot.dqbOff 3 h qtTreeoff).2)

/-! ### Reading -/

/-- `find_block_dqentry` -/
def findBlockDqentry (h : QuotaHandle) (id : UInt32) (blk : ℕ) : ℕ :=
  blockDqentryOff h.fmt blk (firstEntry h.fmt (fun disk => isId disk id) (h.readBlk blk))

/-- `find_tree_dqentry` -/
def findTreeDqentry (h : QuotaHandle) (id : UInt32) : ℕ → ℕ → ℕ
  | 0, blk =>
    let blk := h.readBlk blk (getIndex id 0)
    if blk = 0 then 0 else findBlockDqentry h id blk
  | n + 1, blk =>
    let blk := h.readBlk blk (getIndex id (n + 1))
    if blk = 0 then 0 else findTreeDqentry h id n blk

/-- `qtree_read_dquot` -/
def qtreeReadDquot (h : QuotaHandle) (id : UInt32) : Dquot :=
  let offset := findTreeDqentry h id 3 qtTreeoff
  if 0 < offset then
    let disk := readEntry h.file h.fmt offset
    ⟨.ofNat (entryId disk), h.fmt.disk2mem disk, offset⟩
  else ⟨id, .empty, 0⟩

end Quota

end E2fsprogs
