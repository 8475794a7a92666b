import E2fsprogs.Lib.Crc32
import E2fsprogs.Lib.Memcpy

/-!
# Reading and writing inodes

`ext2fs_read_inode2` and `ext2fs_write_inode2` of `lib/ext2fs/inode.c`, on a file system that is no
image file and without the override callbacks. Inodes that were read are kept in the slots of a
small cache, which is filled in turn, and the last block of an inode table that was read or written
in a buffer. A slot is filled before the checksum of the inode is looked at, and labelled with the
number of the inode after that.

Device errors and failing allocations are left out.
-/

namespace E2fsprogs

/-- The parts of the file system that inodes are found by. -/
structure InodeGeometry where
  blocksize : ℕ
  inodeSize : ℕ
  inodesCount : ℕ
  inodesPerGroup : ℕ
  groupDescCount : ℕ
  inodeTableLoc : ℕ → ℕ
  inodeBlocksPerGroup : ℕ
  firstDataBlock : ℕ
  blocksCount : ℕ
  metadataCsum : Bool
  csumSeed : ℕ
  /-- `EXT2_FLAG_IGNORE_CSUM_ERRORS`. -/
  ignoreCsumErrors : Bool
  /-- `EXT2_FLAG_RW`. -/
  rw : Bool

/-- The error codes. -/
inductive InodeErr where
  | filsysCorrupted
  | badInodeNum
  | missingInodeTable
  | gdescBadInodeTable
  | inodeCsumInvalid
  | roFilsys
  deriving DecidableEq

/-- `struct ext2_inode_cache`. A slot with the label 0 is empty; `cacheSlot` is the one after
`cache_last`, which is filled next. -/
structure Icache where
  buffer : Block
  bufferBlk : ℕ
  cacheSize : ℕ
  cacheSlot : ℕ
  ino : ℕ → ℕ
  inode : ℕ → Block

/-- The device and the cache, which is created when it is needed. -/
structure InodeState where
  disk : ℕ → Block
  icache : Option Icache

variable (g : InodeGeometry)

/-! ### Checksums -/

/-- An inode with a field of two bytes for the upper half of its checksum. -/
def hasChecksumHi (inode : Block) : Bool :=
  decide (128 < g.inodeSize) && decide (4 ≤ getLe inode 128 2)

/-- `ext2fs_inode_csum`. -/
def inodeCsum (ino : ℕ) (inode : Block) : ℕ :=
  let cleared := putLe inode 124 2 0
  let cleared := if hasChecksumHi g inode then putLe cleared 130 2 0 else cleared
  let crc := ext2fsCrc32cLe g.csumSeed (bytesOf (putLe (fun _ => 0) 0 4 ino) 4)
  let crc := ext2fsCrc32cLe crc (bytesAt inode 100 4)
  ext2fsCrc32cLe crc (bytesOf cleared g.inodeSize)

/-- `ext2fs_inode_csum_verify`. -/
def inodeCsumVerify (ino : ℕ) (inode : Block) : Bool :=
  if !g.metadataCsum then true
  else
    let calculated := inodeCsum g ino inode
    let provided := getLe inode 124 2
    if hasChecksumHi g inode then
      decide (provided + getLe inode 130 2 * 2 ^ 16 = calculated) || (bytesOf inode 128).all
        (· == 0)
    else decide (provided = calculated % 2 ^ 16) || (bytesOf inode 128).all (· == 0)

/-- `ext2fs_inode_csum_set`. -/
def inodeCsumSet (ino : ℕ) (inode : Block) : Block :=
  if !g.metadataCsum then inode
  else
    let crc := inodeCsum g ino inode
    let inode' := putLe inode 124 2 (crc % 2 ^ 16)
    if hasChecksumHi g inode then putLe inode' 130 2 (crc / 2 ^ 16) else inode'

/-! ### The cache and its buffer -/

/-- `ext2fs_flush_icache`. -/
def Icache.flush (c : Icache) : Icache := { c with ino := fun _ => 0, bufferBlk := 0 }

/-- `ext2fs_create_inode_cache`. -/
def createInodeCache (cacheSize : ℕ) : Icache :=
  Icache.flush
    { buffer := fun _ => 0, bufferBlk := 0, cacheSize := cacheSize, cacheSlot := 0,
      ino := fun _ => 0, inode := fun _ _ => 0 }

/-- The slot of an inode. -/
def Icache.find (c : Icache) (ino : ℕ) : Option ℕ :=
  (List.range c.cacheSize).find? fun i => c.ino i == ino

/-- The cache, created when there is none. -/
def InodeState.cache (st : InodeState) : Icache := st.icache.getD (createInodeCache 4)

/-- A block is brought into the buffer. -/
def Icache.fill (c : Icache) (disk : ℕ → Block) (blockNr : ℕ) : Icache :=
  if blockNr ≠ c.bufferBlk then { c with buffer := disk blockNr, bufferBlk := blockNr } else c

/-- Where the inode is: its block, and its offset in the block. -/
def locateInode (ino : ℕ) : Except InodeErr (ℕ × ℕ) :=
  let offset := (ino - 1) % g.inodesPerGroup * g.inodeSize
  let blockNr := g.inodeTableLoc ((ino - 1) / g.inodesPerGroup)
  if blockNr = 0 then .error .missingInodeTable
  else if blockNr < g.firstDataBlock ∨ g.blocksCount ≤ blockNr + g.inodeBlocksPerGroup - 1 then
    .error .gdescBadInodeTable
  else .ok (blockNr + offset / g.blocksize, offset % g.blocksize)

/-- The number of bytes of a round of the copy loops. -/
def copyLen (offset length : ℕ) : ℕ :=
  if g.blocksize < offset + length then g.blocksize - offset else length

/-- The loop that copies an inode out of its table, of at most `n` rounds. -/
def copyFromTable (disk : ℕ → Block) : ℕ → Icache → ℕ → ℕ → ℕ → ℕ → Block → Icache × Block
  | 0, c, _, _, _, _, dst => (c, dst)
  | n + 1, c, blockNr, offset, length, ptr, dst =>
    if length = 0 then (c, dst)
    else
      let clen := copyLen g offset length
      let c := c.fill disk blockNr
      copyFromTable disk n c (blockNr + 1) 0 (length - clen) (ptr + clen)
        (memcpy dst ptr (fromPos c.buffer offset) clen)

/-- The loop that copies an inode into its table. -/
def copyToTable (src : Block) : ℕ → (ℕ → Block) → Icache → ℕ → ℕ → ℕ → ℕ → (ℕ → Block) × Icache
  | 0, disk, c, _, _, _, _ => (disk, c)
  | n + 1, disk, c, blockNr, offset, length, ptr =>
    if length = 0 then (disk, c)
    else
      let clen := copyLen g offset length
      let c := c.fill disk blockNr
      let buffer := memcpy c.buffer offset (fromPos src ptr) clen
      copyToTable src n (Function.update disk blockNr buffer) { c with buffer := buffer }
        (blockNr + 1) 0
        (length - clen) (ptr + clen)

/-! ### The calls -/

/-- An inode that is not in the cache is read into the next slot, and copied to the caller. -/
def readUncached (st : InodeState) (c : Icache) (ino : ℕ) (inode : Block) (bufsize : ℕ)
    (nocsum : Bool) :
    Option InodeErr × Block × InodeState :=
  if g.groupDescCount < (ino - 1) / g.inodesPerGroup then
    (some .badInodeNum, inode, { st with icache := some c })
  else
    match locateInode g ino with
    | .error e => (some e, inode, { st with icache := some c })
    | .ok (blockNr, offset) =>
      let slot := c.cacheSlot
      let r := copyFromTable g st.disk g.inodeSize c blockNr offset g.inodeSize 0 (c.inode slot)
      let c := { r.1 with inode := Function.update r.1.inode slot r.2 }
      let verified := inodeCsumVerify g ino r.2
      let c := if verified then
        { c with ino := Function.update c.ino slot ino, cacheSlot := (slot + 1) % c.cacheSize }
          else c
      (if !g.ignoreCsumErrors && !nocsum && !verified then some .inodeCsumInvalid else none,
        memcpy inode 0 r.2 (Nat.min bufsize g.inodeSize), { st with icache := some c })

/-- `ext2fs_read_inode2`, with the buffer of the caller and what becomes of it. -/
def readInode2 (st : InodeState) (ino : ℕ) (inode : Block) (bufsize : ℕ) (nocsum : Bool) :
    Option InodeErr × Block × InodeState :=
  if g.blocksize < 1024 then (some .filsysCorrupted, inode, st)
  else if ino = 0 ∨ g.inodesCount < ino then (some .badInodeNum, inode, st)
  else
    match st.cache.find ino with
    | some i => (none, memcpy inode 0 (st.cache.inode i) (Nat.min bufsize g.inodeSize),
      { st with icache := st.cache })
    | none => readUncached g st st.cache ino inode bufsize nocsum

/-- The copy of the inode that is cached is updated. -/
def Icache.store (c : Icache) (ino : ℕ) (inode : Block) (len : ℕ) : Icache :=
  match c.find ino with
  | some i => { c with inode := Function.update c.inode i (memcpy (c.inode i) 0 inode len) }
  | none => c

/-- `ext2fs_write_inode2`. -/
def writeInode2 (st : InodeState) (ino : ℕ) (inode : Block) (bufsize : ℕ) (nocsum : Bool) :
    Option InodeErr × InodeState :=
  if ino = 0 ∨ g.inodesCount < ino then (some .badInodeNum, st)
  else
    let r := if bufsize < g.inodeSize then readInode2 g st ino (fun _ => 0) g.inodeSize true
      else (none, (fun _ => 0), st)
    match r with
    | (some e, _, st) => (some e, st)
    | (none, w, st) =>
      let len := Nat.min bufsize g.inodeSize
      let c := st.cache.store ino inode len
      let w := memcpy w 0 inode len
      if !g.rw then (some .roFilsys, { st with icache := some c })
      else
        let w := if nocsum then w else inodeCsumSet g ino w
        match locateInode g ino with
        | .error e => (some e, { st with icache := some c })
        | .ok (blockNr, offset) =>
          let r := copyToTable g w g.inodeSize st.disk c blockNr offset g.inodeSize 0
          (none, { disk := r.1, icache := some r.2 })

end E2fsprogs
