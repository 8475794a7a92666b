import E2fsprogs.Inode.Cache
import E2fsprogs.Extent.Get

/-!
# Scanning the inode tables

`ext2fs_open_inode_scan` and `ext2fs_get_next_inode_full` of `lib/ext2fs/inode.c`, on a scan without
a `done_group` callback, where nobody changed the flags other than `EXT2_SF_WARN_GARBAGE_INODES`.
Inodes are served from a window of several blocks of an inode table, which is cut short in front of
a bad block; a bad block is a window of its own, full of zeroes. The place in the list of bad blocks
only moves forward.

When the flag is set, the inodes of a window are looked at as soon as it is read, and what was found
out about its blocks is kept in an array with a place for each block of a full window.

`none` stands for behaviour that C does not define: a signed number that overflows, a buffer that is
written behind its end, bytes that were never read. Failing allocations are left out.
-/

namespace E2fsprogs

/-- The parts of the file system that a scan looks at. -/
structure ScanFs where
  blocksize : ℕ
  inodeSize : ℕ
  inodesPerGroup : ℕ
  inodeBlocksPerGroup : ℕ
  groupDescCount : ℕ
  firstDataBlock : ℕ
  blocksCount : ℕ
  /-- `ext2fs_has_group_desc_csum`. -/
  groupDescCsum : Bool
  /-- `EXT2_FLAG_IGNORE_CSUM_ERRORS`. -/
  ignoreCsumErrors : Bool
  inodeTableLoc : ℕ → ℕ
  itableUnused : ℕ → ℕ
  /-- `EXT2_BG_INODE_UNINIT`. -/
  inodeUninit : ℕ → Bool
  /-- The list of bad blocks, empty when there is none. -/
  badblocks : List ℕ
  /-- `io->align`. -/
  ioAlign : ℕ
  /-- `ext2fs_inode_csum_verify`. -/
  csumVerify : ℕ → List UInt8 → Bool
  readable : ℕ → Bool
  disk : ℕ → Block

/-- The error codes. -/
inductive ScanErr where
  | filsysCorrupted
  | gdescBadInodeTable
  | missingInodeTable
  | nextInodeRead
  | inodeCsumInvalid
  | badBlockInInodeTable
  | inodeIsGarbage
  deriving DecidableEq

/-- What is known about a block of the window. -/
structure BlockStatus where
  /-- `IBLOCK_STATUS_CSUMS_OK`. -/
  csumsOk : Bool
  /-- `IBLOCK_STATUS_INSANE`. -/
  insane : Bool
  deriving DecidableEq

/-- `struct ext2_struct_inode_scan`, with the size of the window's buffer and a field for each
flag. -/
structure InodeScan where
  currentInode : ℕ
  currentBlock : ℕ
  currentGroup : ℕ
  inodesLeft : ℕ
  blocksLeft : ℕ
  groupsLeft : ℕ
  inodeBufferBlocks : ℕ
  bufferSize : ℕ
  inodeBuffer : Block
  ptr : ℕ
  bytesLeft : ℕ
  badBlockPtr : ℕ
  /-- `EXT2_SF_CHK_BADBLOCKS`. -/
  chkBadblocks : Bool
  /-- `EXT2_SF_BAD_INODE_BLK`. -/
  badInodeBlk : Bool
  /-- `EXT2_SF_BAD_EXTRA_BYTES`. -/
  badExtraBytes : Bool
  /-- `EXT2_SF_DO_LAZY`. -/
  doLazy : Bool
  /-- `EXT2_SF_WARN_GARBAGE_INODES`. -/
  warnGarbageInodes : Bool
  /-- `SCAN_BLOCK_STATUS`. -/
  blockStatus : ℕ → BlockStatus

variable (fs : ScanFs)

/-! ### A new group -/

/-- An inode table that is outside the file system. -/
def ScanFs.tableOutside (group : ℕ) : Bool :=
  let blk := fs.inodeTableLoc group
  decide (blk ≠ 0) &&
    (decide (blk < fs.firstDataBlock) || decide (fs.blocksCount ≤ blk + fs.inodeBlocksPerGroup - 1))

/-- The inodes of a group up to the unused ones at its end. -/
def ScanFs.inodesLeft (group : ℕ) : ℕ :=
  if fs.groupDescCsum then
    if fs.itableUnused group < fs.inodesPerGroup then fs.inodesPerGroup - fs.itableUnused group
    else 0
  else fs.inodesPerGroup

/-- The blocks they are in, computed in 32 bits. -/
def ScanFs.blocksLeft (group : ℕ) : ℕ :=
  if fs.groupDescCsum then
    (fs.inodesLeft group + (fs.blocksize / fs.inodeSize - 1)) * fs.inodeSize % 2 ^ 32 / fs.blocksize
  else fs.inodeBlocksPerGroup

/-- `get_next_blockgroup`, with its error. -/
def getNextBlockgroup (scan : InodeScan) : Option ScanErr × InodeScan :=
  let group := scan.currentGroup + 1
  (if fs.tableOutside group then some .gdescBadInodeTable else none,
    { scan with
      currentGroup := group
      groupsLeft := scan.groupsLeft - 1
      currentBlock := fs.inodeTableLoc group
      currentInode := group * fs.inodesPerGroup % 2 ^ 32
      bytesLeft := 0
      inodesLeft := fs.inodesLeft group
      blocksLeft := fs.blocksLeft group })

/-- What the search for a group with inodes comes to. -/
inductive GroupSearch where
  | atGroup (scan : InodeScan)
  | failed (err : ScanErr) (scan : InodeScan)
  | ended (scan : InodeScan)

/-- A group that has no inodes left. -/
def leavesGroup (scan : InodeScan) : Bool :=
  decide (scan.inodesLeft = 0) || (scan.doLazy && fs.inodeUninit scan.currentGroup)

/-- The jumps to `force_new_group`, as many as there are groups left. -/
def forceNewGroup : ℕ → InodeScan → GroupSearch
  | 0, scan => .ended scan
  | groupsLeft + 1, scan =>
    match getNextBlockgroup fs scan with
    | (some err, scan) => .failed err scan
    | (none, scan) => if leavesGroup fs scan then forceNewGroup groupsLeft scan else .atGroup scan

/-! ### More blocks of the group -/

/-- The `while` loop that passes the bad blocks in front of a block. -/
def skipBelow (blk badBlockPtr : ℕ) : ℕ :=
  badBlockPtr + ((fs.badblocks.drop badBlockPtr).takeWhile (· < blk)).length

/-- `check_for_inode_bad_blocks`, with the number of blocks to read. -/
def checkForInodeBadBlocks (scan : InodeScan) (numBlocks : ℕ) : ℕ × InodeScan :=
  if scan.currentBlock = 0 then (numBlocks, scan)
  else
    let p := skipBelow fs scan.currentBlock scan.badBlockPtr
    match fs.badblocks[p]? with
    | none => (numBlocks, { scan with badBlockPtr := p, chkBadblocks := false })
    | some y =>
      if scan.currentBlock = y then
        (1, { scan with
          badBlockPtr := p + 1
          badInodeBlk := true
          chkBadblocks := scan.chkBadblocks && decide (p + 1 < fs.badblocks.length) })
      else (if y < scan.currentBlock + numBlocks then y - scan.currentBlock else numBlocks,
        { scan with badBlockPtr := p })

/-- `io_channel_read_blk64`: the bytes of several blocks. -/
def ScanFs.readBlocks (blk numBlocks : ℕ) : Option Block :=
  if ∀ k < numBlocks, fs.readable (blk + k) = true then
    some fun n => fs.disk (blk + n / fs.blocksize) (n % fs.blocksize)
  else none

/-! ### Insane inodes -/

/-- `EXT2_INODES_PER_BLOCK`. -/
def ScanFs.inodesPerBlock : ℕ := fs.blocksize / fs.inodeSize

/-- `EXT4_EXTENTS_FL`. -/
def hasExtents (inode : Block) : Bool := (getLe inode 32 4).testBit 19

/-- `EXT4_INLINE_DATA_FL`. -/
def hasInlineData (inode : Block) : Bool := (getLe inode 32 4).testBit 28

/-- The file type, in the upper bits of `i_mode`. -/
def inodeType (inode : Block) : ℕ := getLe inode 0 2 / 2 ^ 12

/-- `EXT2_I_SIZE`. -/
def inodeFileSize (inode : Block) : ℕ := getLe inode 4 4 + getLe inode 108 4 * 2 ^ 32

/-- `extent_head_looks_insane`. -/
def extentHeadLooksInsane (inode : Block) : Bool :=
  hasExtents inode && !extentHeaderVerify (fun k => inode (40 + k)) 60

/-- An entry of a block map that is outside the file system. -/
def ScanFs.blockOutside (blk : ℕ) : Bool :=
  decide (blk ≠ 0) && (decide (blk < fs.firstDataBlock) || decide (fs.blocksCount ≤ blk))

/-- `block_map_looks_insane`. A regular file has type 8, a symbolic link 10 and a directory 4. -/
def blockMapLooksInsane (inode : Block) : Bool :=
  if hasInlineData inode || hasExtents inode then false
  else if inodeType inode ≠ 8 ∧ inodeType inode ≠ 10 ∧ inodeType inode ≠ 4 then false
  else if inodeType inode = 10 ∧ inodeFileSize inode ≤ 60 then false
  -- `i_links_count`
  else if getLe inode 26 2 = 0 then false
  else decide (15 / 2 < (List.range 15).countP fun i =>
    fs.blockOutside (getLe inode (40 + 4 * i) 4))

/-- The bytes of an inode as a list. -/
def ScanFs.inodeBytes (inode : Block) : List UInt8 := (List.range fs.inodeSize).map inode

/-- The variables of the loop of `check_inode_block_sanity`; `offset` is the place in the buffer. -/
structure SanityCheck where
  offset : ℕ
  ino : ℕ
  inodesToScan : ℕ
  badness : ℕ
  checksumFailures : ℕ
  blockStatus : ℕ → BlockStatus

/-- The body of the loop. -/
def sanityTurn (buffer : Block) (s : SanityCheck) : SanityCheck :=
  let blk := s.offset / fs.blocksize
  let inode : Block := fun k => buffer (s.offset + k)
  let badCsum := !fs.csumVerify s.ino (fs.inodeBytes inode)
  let checksumFailures := if badCsum then s.checksumFailures + 1 else s.checksumFailures
  let badness :=
    if badCsum || (extentHeadLooksInsane inode || blockMapLooksInsane fs inode) then s.badness + 1
    else s.badness
  -- when more than half of the inodes are insane, the rest of the block is passed over
  if fs.inodesPerBlock / 2 < badness then
    let inoAdj := min (fs.inodesPerBlock - (s.ino - 1) % fs.inodesPerBlock) s.inodesToScan
    { offset := s.offset + fs.inodeSize * inoAdj
      ino := s.ino + inoAdj
      inodesToScan := s.inodesToScan - inoAdj
      badness := 0
      checksumFailures := 0
      blockStatus := Function.update s.blockStatus blk { s.blockStatus blk with insane := true } }
  else
    let blockEnds := decide (s.ino % fs.inodesPerBlock = 0)
    { offset := s.offset + fs.inodeSize
      ino := s.ino + 1
      inodesToScan := s.inodesToScan - 1
      badness := if blockEnds then 0 else badness
      checksumFailures := if blockEnds then 0 else checksumFailures
      blockStatus :=
        if blockEnds && decide (checksumFailures = 0) then
          Function.update s.blockStatus blk { s.blockStatus blk with csumsOk := true }
        else s.blockStatus }

/-- The loop, which takes no more turns than there are inodes. -/
def sanityLoop (buffer : Block) : ℕ → SanityCheck → SanityCheck
  | 0, s => s
  | n + 1, s => if s.inodesToScan = 0 then s else sanityLoop buffer n (sanityTurn fs buffer s)

/-- `check_inode_block_sanity`: the new array. -/
def checkInodeBlockSanity (scan : InodeScan) (buffer : Block) (numBlocks : ℕ) : ℕ → BlockStatus :=
  if !scan.warnGarbageInodes then scan.blockStatus
  else
    let inodesToScan := min scan.inodesLeft (numBlocks * fs.blocksize / fs.inodeSize % 2 ^ 32)
    let blockStatus := fun blk => if blk < scan.inodeBufferBlocks then ⟨false, false⟩
      else scan.blockStatus blk
    if fs.inodesPerBlock < 2 then blockStatus
    else
      (sanityLoop fs buffer inodesToScan ⟨0, scan.currentInode + 1, inodesToScan, 0, 0,
        blockStatus⟩).blockStatus

/-- The window after some blocks were put into the buffer. -/
def InodeScan.served (scan : InodeScan) (numBlocks : ℕ) (buffer : Block) : InodeScan :=
  { scan with
    blockStatus := checkInodeBlockSanity fs scan buffer numBlocks
    inodeBuffer := buffer
    ptr := 0
    bytesLeft := numBlocks * fs.blocksize
    blocksLeft := scan.blocksLeft - numBlocks
    currentBlock := if scan.currentBlock = 0 then 0 else scan.currentBlock + numBlocks }

/-- What is left of a bad block is bad as well. -/
def InodeScan.leaveBadBlock (scan : InodeScan) : InodeScan :=
  if scan.badInodeBlk then
    { scan with
      badExtraBytes := scan.badExtraBytes || decide (scan.bytesLeft ≠ 0)
      badInodeBlk := false }
  else scan

/-- `get_next_blocks`, with its error. -/
def getNextBlocks (scan : InodeScan) : Option (Option ScanErr × InodeScan) :=
  let scan := scan.leaveBadBlock
  let wanted := min scan.inodeBufferBlocks scan.blocksLeft
  let checked := if scan.chkBadblocks then checkForInodeBadBlocks fs scan wanted else (wanted, scan)
  let numBlocks := checked.1
  let scan := checked.2
  if scan.bufferSize < numBlocks * fs.blocksize then none
  else if scan.badInodeBlk || decide (scan.currentBlock = 0) then
    some (none, scan.served fs numBlocks fun n => if n < numBlocks * fs.blocksize then 0
      else scan.inodeBuffer n)
  else
    match fs.readBlocks scan.currentBlock numBlocks with
    | none => some (some .nextInodeRead, scan)
    | some buffer => some (none, scan.served fs numBlocks buffer)

/-! ### The next inode -/

/-- What a call hands back; `ino` is `none` when `*ino` is not written. -/
structure ScanAnswer where
  err : Option ScanErr
  ino : Option ℕ
  inode : List UInt8
  deriving DecidableEq

/-- The end of `ext2fs_get_next_inode_full`: an inode whose first bytes may have been left over from
the window before. -/
def takeInode (leftOver : Block) (extraBytes : ℕ) (scan : InodeScan) (bufsize : ℕ) :
    Option (ScanAnswer × InodeScan) :=
  let rest := fs.inodeSize - extraBytes
  if scan.bytesLeft < rest then none
  else
    let byte := fun k => if k < extraBytes then leftOver k
      else scan.inodeBuffer (scan.ptr + (k - extraBytes))
    let ino := scan.currentInode + 1
    let bad := if extraBytes = 0 then scan.badInodeBlk else scan.badExtraBytes
    let status :=
      scan.blockStatus (scan.currentInode % fs.inodesPerGroup / fs.inodesPerBlock %
        scan.inodeBufferBlocks)
    let err :=
      if bad then some .badBlockInInodeTable
      else if status.insane then some .inodeIsGarbage
      else if !status.csumsOk && !fs.ignoreCsumErrors && !fs.csumVerify ino
        (fs.inodeBytes byte) then
        some .inodeCsumInvalid
      else none
    some (⟨err, some ino, (List.range (min bufsize fs.inodeSize)).map byte⟩,
      { scan with
        ptr := scan.ptr + rest
        bytesLeft := scan.bytesLeft - rest
        badExtraBytes := if extraBytes = 0 then scan.badExtraBytes else false
        inodesLeft := scan.inodesLeft - 1
        currentInode := ino })

/-- The part of `ext2fs_get_next_inode_full` from the label `force_new_group` on. -/
def nextOfGroup (scan : InodeScan) (bufsize : ℕ) : Option (ScanAnswer × InodeScan) :=
  if scan.currentBlock = 0 then some (⟨some .missingInodeTable, none, []⟩, scan)
  else if scan.bytesLeft < fs.inodeSize then
    match getNextBlocks fs scan with
    | none => none
    | some (some err, scan') => some (⟨some err, none, []⟩, scan')
    | some (none, scan') =>
      takeInode fs (fun k => scan.inodeBuffer (scan.ptr + k)) scan.bytesLeft scan' bufsize
  else takeInode fs (fun _ => 0) 0 scan bufsize

/-- `ext2fs_get_next_inode_full`. -/
def getNextInodeFull (scan : InodeScan) (bufsize : ℕ) : Option (ScanAnswer × InodeScan) :=
  match (if leavesGroup fs scan then forceNewGroup fs scan.groupsLeft scan else .atGroup scan :
    GroupSearch) with
  | .ended scan => some (⟨none, some 0, []⟩, scan)
  | .failed err scan => some (⟨some err, none, []⟩, scan)
  | .atGroup scan => nextOfGroup fs scan bufsize

/-! ### A whole scan -/

/-- The blocks of the window, a 32-bit number. -/
def scanBlocks (bufferBlocks : ℤ) : ℕ :=
  if bufferBlocks = 0 then 8 else (bufferBlocks % 2 ^ 32).toNat

/-- The bytes that `io_channel_alloc_buf` computes; a negative count is a number of bytes. -/
def ScanFs.scanBytes (bufferBlocks : ℤ) : ℕ :=
  if bufferBlocks < 0 then (-bufferBlocks).toNat else fs.blocksize * scanBlocks bufferBlocks

/-- `ext2fs_open_inode_scan`. -/
def openInodeScan (bufferBlocks : ℤ) : Option (Except ScanErr InodeScan) :=
  if fs.blocksize < 1024 then some (.error .filsysCorrupted)
  else if fs.tableOutside 0 then some (.error .gdescBadInodeTable)
  else if 2 ^ 31 ≤ fs.scanBytes bufferBlocks then none
  -- the size of `temp_buffer` is computed in 32 bits
  else if 2 ^ 32 ≤ fs.inodeSize + scanBlocks bufferBlocks then none
  else
    some (.ok
      { currentInode := 0
        currentBlock := fs.inodeTableLoc 0
        currentGroup := 0
        inodesLeft := fs.inodesLeft 0
        blocksLeft := fs.blocksLeft 0
        groupsLeft := fs.groupDescCount - 1
        inodeBufferBlocks := scanBlocks bufferBlocks
        bufferSize := max fs.ioAlign (fs.scanBytes bufferBlocks)
        inodeBuffer := fun _ => 0
        ptr := 0
        bytesLeft := 0
        badBlockPtr := 0
        chkBadblocks := decide (fs.badblocks ≠ [])
        badInodeBlk := false
        badExtraBytes := false
        doLazy := fs.groupDescCsum
        warnGarbageInodes := false
        blockStatus := fun _ => ⟨false, false⟩ })

/-- `ext2fs_inode_scan_flags`, to set `EXT2_SF_WARN_GARBAGE_INODES`. -/
def InodeScan.warn (scan : InodeScan) : InodeScan := { scan with warnGarbageInodes := true }

/-- The answers to repeated calls, until inode 0. -/
def scanRun (bufsize : ℕ) : ℕ → InodeScan → Option (List ScanAnswer)
  | 0, _ => none
  | fuel + 1, scan =>
    match getNextInodeFull fs scan bufsize with
    | none => none
    | some (answer, scan) =>
      if answer.ino = some 0 then some [] else (scanRun bufsize fuel scan).map (answer :: ·)

end E2fsprogs
