import E2fsprogs.Journal.Recovery

/-!
# Writing a transaction

`do_journal.c` of debugfs, the other side of recovery: `journal_write` puts one
transaction into the log – descriptor blocks with their data, revoke blocks, a
commit block – from the head of the log on, without wrapping.

The descriptor block is filled in a buffer that is written out when the next tag
no longer fits and then filled again from the start, without being cleared
(`E2fsprogs.AddBlocks`). Two details of the tags are worth a look. The uuid after the
first tag is copied to `jdbt + tag_bytes`, where `jdbt` points to tags and not to
bytes, so that it lands further down in the block, where later tags overwrite it
(`E2fsprogs.putTag`). And the room for a transaction is estimated beforehand
(`E2fsprogs.journalGuessBlocks`); the next transaction starts where the estimate
ends, not where the writing did.

A call that fails is only known to fail: what it has already put into the log is not
modelled.
-/

namespace E2fsprogs

/-- The errors of the writer. -/
inductive WriteError
  /-- `EXT2_ET_INVALID_ARGUMENT`. -/
  | invalidArgument
  /-- `EXT2_ET_BAD_BLOCK_NUM`. -/
  | badBlockNum
  | enospc
  /-- `fread` found less than a block, with `errno` set. -/
  | shortRead
  /-- `jbd2_journal_bmap` or the transfer failed. -/
  | io
  deriving DecidableEq, Repr

/-- The journal as debugfs has it open. -/
structure Writer where
  journal : Journal
  jHead : ℕ
  jTransactionSequence : ℕ
  /-- `j_superblock->s_uuid`. -/
  sUuid : List UInt8
  sUuid_length : sUuid.length = 16
  /-- `ext2fs_blocks_count` of the file system, a 64-bit number. -/
  blocksCount : ℕ
  blocksCount_lt : blocksCount < 2 ^ 64
  /-- The log blocks that can be mapped and written. -/
  writable : ℕ → Bool
  /-- The log blocks written so far, newest first; not in the source. -/
  logWrites : List ℕ

/-- Write one block of the log: `jbd2_journal_bmap`, then `ll_rw_block`. -/
def Writer.write (w : Writer) (blk : ℕ) (b : Block) : Except WriteError Writer :=
  if w.writable blk then
    .ok { w with
      journal := { w.journal with jDev := Function.update w.journal.jDev blk (some b) }
      logWrites := blk :: w.logWrites }
  else .error .io

/-- `journal_transaction_t`. The check of its magic number is left out: the only
caller hands on the transaction it has just opened. -/
structure Trans where
  block : ℕ
  start : ℕ
  endBlock : ℕ
  tid : ℕ
  /-- `J_TRANS_OPEN`. -/
  opened : Bool
  /-- `J_TRANS_COMMITTED`. -/
  committed : Bool
  deriving DecidableEq, Repr

/-! ### Checksums -/

/-- `jbd2_descr_block_csum_set`, which is also `jbd2_revoke_csum_set`. -/
def jbd2DescrBlockCsumSet (j : Journal) (b : Block) : Block :=
  if !j.features.csumV2or3 then b
  else
    let tail := j.jBlocksize - 4
    let b := putBe b tail 4 0
    putBe b tail 4 (jbd2Chksum j.jCsumSeed (bytesOf b j.jBlocksize))

/-- `jbd2_commit_block_csum_set`. -/
def jbd2CommitBlockCsumSet (j : Journal) (b : Block) : Block :=
  if !j.features.csumV2or3 then b
  else
    let b := putBe (putBe (putBe b 12 1 0) 13 1 0) 16 4 0
    putBe b 16 4 (jbd2Chksum j.jCsumSeed (bytesOf b j.jBlocksize))

/-- `jbd2_block_tag_csum_set`, for the tag at offset `tagp`. -/
def jbd2BlockTagCsumSet (j : Journal) (b : Block) (tagp : ℕ) (data : Block) (sequence : ℕ) :
    Block :=
  if !j.features.csumV2or3 then b
  else if j.features.csum3 then putBe b (tagp + 12) 4 (blockTagCsum j data sequence)
  else putBe b (tagp + 4) 2 (blockTagCsum j data sequence)

/-! ### Descriptor blocks -/

/-- The data block starts with the magic number. -/
def isEscaped (data : Block) : Bool := getBe data 0 4 == jbd2MagicNumber

/-- A data block as it goes into the log. -/
def escape (data : Block) : Block := if isEscaped data then putBe data 0 4 0 else data

/-- `t_flags` of the tag of a data block. -/
def tagFlags (first last : Bool) (data : Block) : ℕ :=
  (if first then 0 else jbd2FlagSameUuid) + (if last then jbd2FlagLastTag else 0) +
    if isEscaped data then jbd2FlagEscape else 0

/-- Fill out the tag at offset `jdbt`. -/
def putTag (w : Writer) (tid : ℕ) (jdb : Block) (jdbt blocknr : ℕ) (last : Bool)
    (data : Block) : Block :=
  let f := w.journal.features
  let first := decide (jdbt = journalHeaderSize)
  let jdb := putBe jdb jdbt 4 (blocknr % 2 ^ 32)
  -- the destination is counted in tags of 12 bytes
  let jdb := if first then putBytes jdb (jdbt + 12 * journalTagBytes f) w.sUuid else jdb
  let jdb := putBe jdb (jdbt + 6) 2 (tagFlags first last data)
  let jdb := if f.bit64 then putBe jdb (jdbt + 8) 4 (blocknr / 2 ^ 32) else jdb
  jbd2BlockTagCsumSet w.journal jdb jdbt (escape data) tid

/-- The local variables of `journal_add_blocks_to_trans`. -/
structure AddBlocks where
  w : Writer
  currBlk : ℕ
  jdbBlk : ℕ
  /-- The offset of the next tag. -/
  jdbt : ℕ
  /-- The buffer of the descriptor block. -/
  jdb : Block

/-- Write the descriptor block out. -/
def flushDescriptor (s : AddBlocks) : Except WriteError AddBlocks := do
  let jdb := jbd2DescrBlockCsumSet s.w.journal s.jdb
  let w ← s.w.write s.jdbBlk jdb
  return { s with w := w, jdb := jdb }

/-- Make room for a tag: with no space left in the descriptor block, write it out
and begin the next one. -/
def makeRoom (s : AddBlocks) : Except WriteError AddBlocks :=
  let j := s.w.journal
  if j.jBlocksize - descrCsumSize j.features < s.jdbt + journalTagBytes j.features then do
    let s ← flushDescriptor s
    return { s with jdbt := journalHeaderSize, jdbBlk := s.currBlk, currBlk := s.currBlk + 1 }
  else .ok s

/-- The body of the loop of `journal_add_blocks_to_trans`. -/
def addBlock (tid : ℕ) (last : Bool) (blocknr : ℕ) (data : Block) (s : AddBlocks) :
    Except WriteError AddBlocks := do
  let s ← makeRoom s
  if s.w.blocksCount ≤ blocknr then .error .badBlockNum
  else
    let w ← s.w.write s.currBlk (escape data)
    return { s with
      w := w
      jdb := putTag s.w tid s.jdb s.jdbt blocknr last data
      currBlk := s.currBlk + 1
      jdbt := s.jdbt + journalTagBytes s.w.journal.features +
        if s.jdbt = journalHeaderSize then 16 else 0 }

/-- The loop of `journal_add_blocks_to_trans` over the block list, with the blocks of
the file still to be read. A short read ends it with `errno`, which the end of a file does
not set; the second component says whether the loop has run to its end. -/
def addBlocksLoop (tid errno : ℕ) :
    List ℕ → List Block → AddBlocks → Except WriteError (AddBlocks × Bool)
  | [], _, s => .ok (s, true)
  | _ :: _, [], s => if errno = 0 then .ok (s, false) else .error .shortRead
  | blocknr :: blockList, data :: fp, s => do
      let s ← addBlock tid blockList.isEmpty blocknr data s
      addBlocksLoop tid errno blockList fp s

/-- `journal_add_blocks_to_trans`. -/
def journalAddBlocksToTrans (w : Writer) (trans : Trans) (blockList : List ℕ)
    (fp : List Block) (errno : ℕ) : Except WriteError (Writer × Trans) :=
  if trans.committed ∨ !trans.opened then .error .invalidArgument
  else if blockList = [] then .ok (w, trans)
  else do
    let (s, ended) ← addBlocksLoop trans.tid errno blockList fp
      { w := w
        currBlk := trans.block + 1
        jdbBlk := trans.block
        jdbt := journalHeaderSize
        jdb := putHeader zeroBlock jbd2DescriptorBlock trans.tid }
    -- a short read without `errno` is a success, but the descriptor block is not written
    let s ← if ended ∧ s.jdbt ≠ journalHeaderSize then flushDescriptor s else .ok s
    return (s.w, { trans with block := s.currBlk })

/-! ### Revoke blocks -/

/-- The local variables of `journal_add_revoke_to_trans`. -/
structure AddRevoke where
  w : Writer
  currBlk : ℕ
  /-- The offset of the next record. -/
  offset : ℕ
  /-- The buffer of the revoke block. -/
  jrb : Block

/-- Write the revoke block out. -/
def flushRevoke (s : AddRevoke) : Except WriteError AddRevoke := do
  let jrb := jbd2DescrBlockCsumSet s.w.journal (putBe s.jrb 12 4 s.offset)
  let w ← s.w.write s.currBlk jrb
  return { s with w := w, jrb := jrb, currBlk := s.currBlk + 1 }

/-- The body of the loop of `journal_add_revoke_to_trans`. -/
def addRevoke (blocknr : ℕ) (s : AddRevoke) : Except WriteError AddRevoke := do
  let j := s.w.journal
  let sz := recordLen j.features
  let s ← if j.jBlocksize - descrCsumSize j.features < s.offset + sz then do
      let s ← flushRevoke s
      pure { s with offset := revokeHeaderSize }
    else .ok s
  if s.w.blocksCount ≤ blocknr then .error .badBlockNum
  else return { s with jrb := putBe s.jrb s.offset sz blocknr, offset := s.offset + sz }

/-- The loop of `journal_add_revoke_to_trans`. -/
def addRevokeLoop : List ℕ → AddRevoke → Except WriteError AddRevoke
  | [], s => .ok s
  | blocknr :: revokeList, s => do
      let s ← addRevoke blocknr s
      addRevokeLoop revokeList s

/-- `journal_add_revoke_to_trans`. -/
def journalAddRevokeToTrans (w : Writer) (trans : Trans) (revokeList : List ℕ) :
    Except WriteError (Writer × Trans) :=
  if trans.committed ∨ !trans.opened then .error .invalidArgument
  else if revokeList = [] then .ok (w, trans)
  else do
    let s ← addRevokeLoop revokeList
      { w := w
        currBlk := trans.block
        offset := revokeHeaderSize
        jrb := putHeader zeroBlock jbd2RevokeBlock trans.tid }
    -- `offset > 0` always holds
    let s ← flushRevoke s
    return (s.w, { trans with block := s.currBlk })

/-! ### Commit blocks -/

/-- The whole-transaction checksum: of all `n` blocks from `cblk` on. -/
def csumV1From (w : Writer) : ℕ → ℕ → ℕ → Except WriteError ℕ
  | 0, _, crc => .ok crc
  | n + 1, cblk, crc => match w.journal.jDev cblk with
      | none => .error .io
      | some b => csumV1From w n (cblk + 1) (ext2fsCrc32Be crc (bytesOf b w.journal.jBlocksize))

/-- The commit block of a transaction: `csumV1` is its whole-transaction checksum,
if it has one, `tvSec` and `tvNsec` the time of day. -/
def commitBlock (j : Journal) (tid : ℕ) (csumV1 : Option ℕ) (tvSec tvNsec : ℕ) : Block :=
  let b := putHeader zeroBlock jbd2CommitBlock tid
  let b := match csumV1 with
    | some crc => putBe (putBe (putBe b 12 1 jbd2Crc32Chksum) 13 1 jbd2Crc32ChksumSize) 16 4 crc
    | none => putBe (putBe (putBe b 12 1 0) 13 1 0) 16 4 0
  -- a 32-bit big-endian word in a 64-bit field
  let b := putBe (putBe (putBe b 48 4 tvSec) 52 4 0) 56 4 tvNsec
  jbd2CommitBlockCsumSet j b

/-- `journal_commit_trans`. -/
def journalCommitTrans (w : Writer) (trans : Trans) (tvSec tvNsec : ℕ) :
    Except WriteError (Writer × Trans) :=
  if trans.committed ∨ !trans.opened then .error .invalidArgument
  else do
    let csumV1 ← if w.journal.features.checksum then
        some <$> csumV1From w (trans.block - trans.start) trans.start allOnes32
      else .ok none
    let w ← w.write trans.block (commitBlock w.journal trans.tid csumV1 tvSec tvNsec)
    return (w, { trans with committed := true, opened := false, block := trans.block + 1 })

/-! ### A whole transaction -/

/-- `journal_guess_blocks`. -/
def journalGuessBlocks (j : Journal) (dataBlocks revokeBlocks : ℕ) : ℕ :=
  1 + revokeBlocks * recordLen j.features / (j.jBlocksize - descrCsumSize j.features) +
    dataBlocks * journalTagBytes j.features / (j.jBlocksize - 16 - descrCsumSize j.features) +
    dataBlocks

/-- `journal_open_trans`. -/
def journalOpenTrans (w : Writer) (blocks : ℕ) : Except WriteError Trans :=
  let tid := if w.journal.jTail = 0 then w.journal.jTailSequence else w.jTransactionSequence
  let start := if w.journal.jTail = 0 then w.journal.jFirst else w.jHead
  if w.journal.jLast < start + blocks then .error .enospc
  else
    .ok { block := start, start := start, endBlock := start + blocks, tid := tid,
          opened := true, committed := false }

/-- `journal_close_trans`. -/
def journalCloseTrans (w : Writer) (trans : Trans) : Writer :=
  if !trans.committed then w
  else
    { w with
      journal := if w.journal.jTail = 0 then
          { w.journal with jTailSequence := trans.tid, jTail := trans.start }
        else w.journal
      jHead := trans.endBlock + 1
      jTransactionSequence := tidSucc trans.tid }

/-- What one `journal_write` is given. -/
structure WriteArgs where
  blockList : List ℕ
  /-- The blocks of the file `fp`. -/
  fp : List Block
  /-- `errno` as the file comes to its end. -/
  errno : ℕ
  revokeList : List ℕ
  /-- The time of day as it commits. -/
  tvSec : ℕ
  tvNsec : ℕ

/-- `journal_write`, without `JOURNAL_WRITE_NO_COMMIT`. -/
def journalWrite (w : Writer) (a : WriteArgs) : Except WriteError Writer := do
  let blocks := journalGuessBlocks w.journal a.blockList.length a.revokeList.length
  let trans ← journalOpenTrans w blocks
  let (w, trans) ← journalAddBlocksToTrans w trans a.blockList a.fp a.errno
  let (w, trans) ← journalAddRevokeToTrans w trans a.revokeList
  let (w, trans) ← journalCommitTrans w trans a.tvSec a.tvNsec
  return journalCloseTrans w trans

end E2fsprogs
