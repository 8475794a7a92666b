import E2fsprogs.Alloc.NewBlock
import E2fsprogs.Xattr.Handle

/-!
# EA blocks shared by inodes

An EA block is named by any number of inodes, and keeps their number in its header. The
number is changed on disk, in the block, before the inode is written that does not name the
block any more or names another one: `prep_ea_block_for_write` gives up a shared block before
a new one is allocated, and `ext2fs_free_ext_attr` frees a block before the inode is written.

What reads, writes and allocations of memory return is given with each operation. A write
that fails changes nothing. Which inodes are in use and which blocks are EA blocks is
recorded for the statements only.
-/

namespace E2fsprogs

/-- The part of a file system that has to do with EA blocks. -/
structure EaState where
  /-- `h_refcount` of a block on disk. -/
  hRefcount : ℕ → ℕ
  /-- The block has the magic number of an EA block of version 2. -/
  hMagic : ℕ → Bool
  /-- `ext2fs_file_acl_block` of an inode on disk. -/
  fileAcl : ℕ → ℕ
  /-- The reference count of the inode of a large value. -/
  eaInodeRef : ℕ → ℕ
  /-- The block bitmap, by clusters. -/
  blockMap : ℕ → Bool
  inodes : Finset ℕ
  eaBlocks : Finset ℕ

/-- The errors that the functions for EA blocks return themselves. -/
def etBadEaBlockNum : ℕ := 2133571418
def etBadEaHeader : ℕ := 2133571489
def etBlockAllocFail : ℕ := 2133571400
def etInodeCorrupted : ℕ := 2133571505

/-! ### Freeing a block -/

/-- What is returned to `ext2fs_free_ext_attr`: `none`, or an error. -/
structure FreeIo where
  getMem : Option ℕ
  readBlock : Option ℕ
  writeBlock : Option ℕ
  iblkSubBlocks : Option ℕ

section Blocks

variable (fs : BmapFs)

/-- One inode less is counted in a block, which is freed with the last one. -/
def EaState.dropRef (st : EaState) (blk : ℕ) : EaState :=
  let refcount := (st.hRefcount blk + 2 ^ 32 - 1) % 2 ^ 32
  { st with
    hRefcount := Function.update st.hRefcount blk refcount
    blockMap := if refcount = 0 then blockAllocStats fs st.blockMap blk false else st.blockMap }

/-- `ext2fs_free_ext_attr` with the inode given, whose EA block is `blk`: what it returns, and
the EA block that the inode has then. -/
def freeExtAttr (io : FreeIo) (blk : ℕ) (st : EaState) : Option ℕ × ℕ × EaState :=
  if blk = 0 then (none, blk, st)
  else if blk < fs.firstDataBlock ∨ fs.blocksCount ≤ blk then (some etBadEaBlockNum, blk, st)
  else if io.getMem.isSome then (io.getMem, blk, st)
  else if io.readBlock.isSome then (io.readBlock, blk, st)
  else if st.hMagic blk = false then (some etBadEaHeader, blk, st)
  else if io.writeBlock.isSome then (io.writeBlock, blk, st)
  else (io.iblkSubBlocks, 0, st.dropRef fs blk)

/-- The inode is written, with its EA block. -/
def EaState.writeInode (st : EaState) (ino blk : ℕ) : EaState :=
  { st with fileAcl := Function.update st.fileAcl ino blk }

/-- `ext2fs_free_ext_attr` without an inode: it is read, and written in the end. -/
def freeExtAttrOf (readInode writeInode : Option ℕ) (io : FreeIo) (ino : ℕ) (st : EaState) :
    Option ℕ × EaState :=
  if readInode.isSome then (readInode, st)
  else if st.fileAcl ino = 0 then (none, st)
  else
    match freeExtAttr fs io (st.fileAcl ino) st with
    | (some err, _, st) => (some err, st)
    | (none, blk, st) =>
      if writeInode.isSome then (writeInode, st) else (none, st.writeInode ino blk)

/-! ### Writing attributes -/

/-- What is returned to `prep_ea_block_for_write`. -/
structure PrepIo where
  getMem : Option ℕ
  readBlock : Option ℕ
  writeBlock : Option ℕ
  iblkAddBlocks : Option ℕ
  goal : ℕ
  /-- The block bitmap cannot be read. -/
  readBitmap : Option ℕ
  /-- The new block cannot be cleared. -/
  zeroBlocks : Option ℕ

/-- `ext2fs_alloc_block2` for an EA block. -/
def allocEaBlock (io : PrepIo) (st : EaState) : Except ℕ ℕ × EaState :=
  if io.readBitmap.isSome then (.error (io.readBitmap.getD 0), st)
  else
    match newBlock fs st.blockMap io.goal with
    | none => (.error etBlockAllocFail, st)
    | some blk =>
      if io.zeroBlocks.isSome then (.error (io.zeroBlocks.getD 0), st)
      else (.ok blk, { st with
        hRefcount := Function.update st.hRefcount blk 0
        hMagic := Function.update st.hMagic blk false
        blockMap := blockAllocStats fs st.blockMap blk true
        eaBlocks := insert blk (st.eaBlocks.filter fun b => b / fs.ratio ≠ blk / fs.ratio) })

/-- `prep_ea_block_for_write`, for an inode with the EA block `blk`: the block it has then. -/
def prepEaBlockForWrite (io : PrepIo) (blk : ℕ) (st : EaState) : Except ℕ ℕ × EaState :=
  if blk ≠ 0 then
    if blk < fs.firstDataBlock ∨ fs.blocksCount ≤ blk then (.error etBadEaBlockNum, st)
    else if io.getMem.isSome then (.error (io.getMem.getD 0), st)
    else if io.readBlock.isSome then (.error (io.readBlock.getD 0), st)
    else if st.hMagic blk = false then (.error etBadEaHeader, st)
    else if st.hRefcount blk = 1 then (.ok blk, st)
    else if io.writeBlock.isSome then (.error (io.writeBlock.getD 0), st)
    else allocEaBlock fs io { st with
      hRefcount := Function.update st.hRefcount blk ((st.hRefcount blk + 2 ^ 32 - 1) % 2 ^ 32) }
  else if io.iblkAddBlocks.isSome then (.error (io.iblkAddBlocks.getD 0), st)
  else allocEaBlock fs io st

/-- What is returned to `ext2fs_xattrs_write`. -/
structure WriteIo where
  getInodeMem : Option ℕ
  readInode : Option ℕ
  /-- `i_extra_isize` is no multiple of four. -/
  badExtraIsize : Bool
  /-- The attributes of the body cannot be written to the buffer. -/
  writeBody : Option ℕ
  getBlockMem : Option ℕ
  /-- Those of the block cannot be written to the buffer. -/
  writeEntries : Option ℕ
  prep : PrepIo
  writeBlock : Option ℕ
  writeInode : Option ℕ

/-- `ext2fs_xattrs_write`, for a handle with or without attributes for the block. A block that
is not needed any more is not freed, but written without attributes: what is behind
`skip_ea_block` is only reached without a block. -/
def xattrsWrite (io : WriteIo) (ino : ℕ) (inBlock : Bool) (st : EaState) : Option ℕ × EaState :=
  let blk := st.fileAcl ino
  if io.getInodeMem.isSome then (io.getInodeMem, st)
  else if io.readInode.isSome then (io.readInode, st)
  else if io.badExtraIsize then (some etInodeCorrupted, st)
  else if io.writeBody.isSome then (io.writeBody, st)
  else if inBlock = false ∧ blk = 0 then
    if io.writeInode.isSome then (io.writeInode, st) else (none, st.writeInode ino blk)
  else if io.getBlockMem.isSome then (io.getBlockMem, st)
  else if io.writeEntries.isSome then (io.writeEntries, st)
  else
    match prepEaBlockForWrite fs io.prep blk st with
    | (.error err, st) => (some err, st)
    | (.ok blk, st) =>
      if io.writeBlock.isSome then (io.writeBlock, st)
      else
        let st := { st with
          hRefcount := Function.update st.hRefcount blk 1
          hMagic := Function.update st.hMagic blk true }
        if io.writeInode.isSome then (io.writeInode, st) else (none, st.writeInode ino blk)

/-! ### Inodes of large values -/

/-- What is returned to `xattr_inode_dec_ref`, and the blocks that `ext2fs_punch` frees. -/
structure DecRefIo where
  readInode : Option ℕ
  free : FreeIo
  punch : Option ℕ
  punched : List ℕ
  writeInode : Option ℕ

/-- `xattr_inode_dec_ref` -/
def xattrInodeDecRef (io : DecRefIo) (ino : ℕ) (st : EaState) : Option ℕ × EaState :=
  let refCount := (st.eaInodeRef ino + 2 ^ 64 - 1) % 2 ^ 64
  let writeOut (st : EaState) (blk : ℕ) : Option ℕ × EaState :=
    if io.writeInode.isSome then (io.writeInode, st)
    else (none, { st.writeInode ino blk with
      eaInodeRef := Function.update st.eaInodeRef ino refCount })
  if io.readInode.isSome then (io.readInode, st)
  else if refCount ≠ 0 then writeOut st (st.fileAcl ino)
  else
    match freeExtAttr fs io.free (st.fileAcl ino) st with
    | (some _, blk, st) => writeOut st blk
    | (none, blk, st) =>
      let st := { st with
        blockMap := io.punched.foldl (fun map b => blockAllocStats fs map b false) st.blockMap }
      if io.punch.isSome then (io.punch, st)
      else writeOut { st with inodes := st.inodes.erase ino } blk

/-- What `xattr_create_ea_inode` finds: the inode, or an error, and the blocks that are
allocated for the value. -/
structure CreateIo where
  ino : Except ℕ ℕ
  taken : List ℕ

/-- `xattr_create_ea_inode`, as far as EA blocks are concerned. -/
def xattrCreateEaInode (io : CreateIo) (st : EaState) : Except ℕ ℕ × EaState :=
  let st := { st with
    blockMap := io.taken.foldl (fun map b => blockAllocStats fs map b true) st.blockMap
    eaBlocks := st.eaBlocks.filter fun b => ∀ t ∈ io.taken, b / fs.ratio ≠ t / fs.ratio }
  match io.ino with
  | .error err => (.error err, st)
  | .ok ino => (.ok ino, { st.writeInode ino 0 with
      eaInodeRef := Function.update st.eaInodeRef ino 1
      inodes := insert ino st.inodes })

/-! ### Operations and calls -/

/-- What changes EA blocks, the inodes that name them, and the block bitmap. -/
inductive EaOp
  | write (ino : ℕ) (inBlock : Bool) (io : WriteIo)
  | decRef (ino : ℕ) (io : DecRefIo)
  | create (io : CreateIo)
  | free (ino : ℕ) (readInode writeInode : Option ℕ) (io : FreeIo)
  /-- With the inode given: writing it is left to the caller. -/
  | freeGiven (ino : ℕ) (io : FreeIo)

/-- The state after the operation. -/
def EaOp.run (st : EaState) : EaOp → EaState
  | write ino inBlock io => (xattrsWrite fs io ino inBlock st).2
  | decRef ino io => (xattrInodeDecRef fs io ino st).2
  | create io => (xattrCreateEaInode fs io st).2
  | free ino readInode writeInode io => (freeExtAttrOf fs readInode writeInode io ino st).2
  | freeGiven ino io => (freeExtAttr fs io (st.fileAcl ino) st).2.2

/-- What is returned to an operation, whichever it is. -/
structure EaOutcome where
  getMem : Bool
  extraIsize : Except ℕ ℕ
  write : WriteIo
  decRef : DecRefIo
  create : CreateIo
  readInode : Option ℕ
  free : FreeIo
  writeInode : Option ℕ

/-- A state, what will be returned to the operations, and the operations so far, each with
the state before it. -/
structure EaWorld where
  st : EaState
  script : ℕ → EaOutcome
  log : List (EaState × EaOp)

/-- An outcome is used up. -/
def EaWorld.skip (w : EaWorld) : EaWorld := { w with script := fun i => w.script (i + 1) }

/-- An operation is done. -/
def EaWorld.does (w : EaWorld) (op : EaOp) : EaWorld :=
  { w.skip with st := op.run fs w.st, log := (w.st, op) :: w.log }

/-- The sizes that `ext2fs_xattr_set` looks at. -/
structure XattrSizes where
  inodeSize : ℕ
  wantExtraIsize : ℕ
  blocksize : ℕ
  eaInode : Bool

def toExcept : Option ℕ → Except ℕ Unit
  | none => .ok ()
  | some err => .error err

/-- The operations of `ext2fs_xattr_set` and `ext2fs_xattr_remove` on the file system. -/
def eaOps (sizes : XattrSizes) : XattrOps EaWorld where
  getMem _ w := ((w.script 0).getMem, w.skip)
  readExtraIsize _ w := ((w.script 0).extraIsize, w.skip)
  createEaInode _ w :=
    ((xattrCreateEaInode fs (w.script 0).create w.st).1, w.does fs (.create (w.script 0).create))
  inodeDecRef ino w :=
    (toExcept (xattrInodeDecRef fs (w.script 0).decRef ino w.st).1,
      w.does fs (.decRef ino (w.script 0).decRef))
  xattrsWrite h w :=
    let inBlock := decide (h.ibodyCount ≠ h.attrs.length)
    (toExcept (xattrsWrite fs (w.script 0).write h.ino inBlock w.st).1,
      w.does fs (.write h.ino inBlock (w.script 0).write))
  inodeSize := sizes.inodeSize
  wantExtraIsize := sizes.wantExtraIsize
  blocksize := sizes.blocksize
  eaInode := sizes.eaInode

/-- A call on an inode: with a handle, or freeing its EA block. -/
inductive EaCall
  | xattr (h : XattrHandle) (call : XattrCall)
  | free (ino : ℕ)
  | freeGiven (ino : ℕ)

/-- The call, whether it succeeds or not. -/
def EaCall.run (sizes : XattrSizes) (w : EaWorld) : EaCall → EaWorld
  | xattr h call => (call.run (eaOps fs sizes) (h, w)).2.2
  | free ino =>
    w.does fs (.free ino (w.script 0).readInode (w.script 0).writeInode (w.script 0).free)
  | freeGiven ino => w.does fs (.freeGiven ino (w.script 0).free)

/-- Calls one after the other. -/
def eaRun (sizes : XattrSizes) (w : EaWorld) (calls : List EaCall) : EaWorld :=
  calls.foldl (EaCall.run fs sizes) w

end Blocks

end E2fsprogs
