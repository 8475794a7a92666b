import E2fsprogs.Lib.Bytes
import E2fsprogs.Lib.Crc32

/-!
# The journal on disk

The layout of `kernel-jbd.h`, read off the bytes, and the check of the journal
superblock that every recovery starts with.

A log block starts with a header of three big-endian words – magic, block type,
transaction id. A descriptor block goes on with block tags, a revoke block with a
byte count and block numbers, a commit block with checksums and a time. The four
sizes a tag can have (`E2fsprogs.journalTagBytes`) and the word at the end of a
descriptor block that a checksum may occupy (`E2fsprogs.descrCsumSize`) are the
only places where the features enter the layout.

`E2fsprogs.e2fsckJournalLoad` is the superblock check. It decides which features
can occur together and where the log area lies; everything a later argument
knows about a journal it knows from there.
-/

namespace E2fsprogs

/-! ### Constants of `kernel-jbd.h` -/

def jbd2MagicNumber : ℕ := 0xc03b3998

def jbd2DescriptorBlock : ℕ := 1
def jbd2CommitBlock : ℕ := 2
def jbd2SuperblockV1 : ℕ := 3
def jbd2SuperblockV2 : ℕ := 4
def jbd2RevokeBlock : ℕ := 5

def jbd2MinJournalBlocks : ℕ := 1024
def jbd2DefaultFastCommitBlocks : ℕ := 256

def jbd2Crc32Chksum : ℕ := 1
def jbd2Crc32cChksum : ℕ := 4
def jbd2Crc32ChksumSize : ℕ := 4

def jbd2FlagEscape : ℕ := 1
def jbd2FlagSameUuid : ℕ := 2
def jbd2FlagLastTag : ℕ := 8

/-- `JBD2_KNOWN_INCOMPAT_FEATURES`: the six low bits. -/
def jbd2KnownIncompatFeatures : ℕ := 0x3f

/-- `~0` in a 32-bit word, the value a checksum starts from. -/
def allOnes32 : ℕ := 0xffffffff

/-- The flag bit `f` is set in the word `w`. -/
def hasFlag (w f : ℕ) : Bool := w &&& f != 0

/-! ### Headers, tags and tails -/

/-- `h_magic`. -/
def hMagic (b : Block) : ℕ := getBe b 0 4

/-- `h_blocktype`. -/
def hBlocktype (b : Block) : ℕ := getBe b 4 4

/-- `h_sequence`. -/
def hSequence (b : Block) : ℕ := getBe b 8 4

/-- Fill in a `journal_header_t`. -/
def putHeader (b : Block) (blocktype sequence : ℕ) : Block :=
  putBe (putBe (putBe b 0 4 jbd2MagicNumber) 4 4 blocktype) 8 4 sequence

/-- `sizeof(journal_header_t)`. -/
def journalHeaderSize : ℕ := 12

/-- `sizeof(jbd2_journal_revoke_header_t)`. -/
def revokeHeaderSize : ℕ := 16

/-- `r_count` of a revoke block: the bytes of it that are in use. -/
def rCount (b : Block) : ℕ := getBe b 12 4

/-- `h_chksum_type` of a commit block. -/
def hChksumType (b : Block) : ℕ := getBe b 12 1

/-- `h_chksum_size` of a commit block. -/
def hChksumSize (b : Block) : ℕ := getBe b 13 1

/-- `h_chksum[0]` of a commit block. -/
def hChksum (b : Block) : ℕ := getBe b 16 4

/-- `h_commit_sec` of a commit block. -/
def hCommitSec (b : Block) : ℕ := getBe b 48 8

/-! ### Features -/

/-- The features of a journal, each already conjoined with
`j_format_version >= 2` as the `jbd2_has_feature_*` predicates have it. -/
structure Features where
  /-- `JBD2_FEATURE_COMPAT_CHECKSUM`, the whole-transaction checksum (v1). -/
  checksum : Bool
  /-- `JBD2_FEATURE_INCOMPAT_64BIT`. -/
  bit64 : Bool
  /-- `JBD2_FEATURE_INCOMPAT_ASYNC_COMMIT`. -/
  asyncCommit : Bool
  /-- `JBD2_FEATURE_INCOMPAT_CSUM_V2`. -/
  csum2 : Bool
  /-- `JBD2_FEATURE_INCOMPAT_CSUM_V3`. -/
  csum3 : Bool
  /-- `JBD2_FEATURE_INCOMPAT_FAST_COMMIT`. -/
  fastCommit : Bool
  deriving DecidableEq, Repr

/-- `jbd2_journal_has_csum_v2or3`. -/
def Features.csumV2or3 (f : Features) : Bool := f.csum2 || f.csum3

/-- `journal_tag_bytes`: the size of a block tag. -/
def journalTagBytes (f : Features) : ℕ :=
  if f.csum3 then 16
  else
    let sz := if f.csum2 then 12 + 2 else 12
    if f.bit64 then sz else sz - 4

/-- The size of `struct jbd2_journal_block_tail`, where there is one. -/
def descrCsumSize (f : Features) : ℕ := if f.csumV2or3 then 4 else 0

theorem journalTagBytes_pos (f : Features) : 8 ≤ journalTagBytes f := by
  rcases f with ⟨a, b, c, d, e, g⟩
  cases b <;> cases d <;> cases e <;> simp [journalTagBytes]

theorem journalTagBytes_le (f : Features) : journalTagBytes f ≤ 16 := by
  rcases f with ⟨a, b, c, d, e, g⟩
  cases b <;> cases d <;> cases e <;> simp [journalTagBytes]

theorem descrCsumSize_le (f : Features) : descrCsumSize f ≤ 4 := by
  rw [descrCsumSize]
  split <;> omega

/-! ### The journal superblock -/

def sBlocksize (sb : Block) : ℕ := getBe sb 0x0c 4
def sMaxlen (sb : Block) : ℕ := getBe sb 0x10 4
def sFirst (sb : Block) : ℕ := getBe sb 0x14 4
def sSequence (sb : Block) : ℕ := getBe sb 0x18 4
def sStart (sb : Block) : ℕ := getBe sb 0x1c 4
def sFeatureCompat (sb : Block) : ℕ := getBe sb 0x24 4
def sFeatureIncompat (sb : Block) : ℕ := getBe sb 0x28 4
def sFeatureRoCompat (sb : Block) : ℕ := getBe sb 0x2c 4
def sNrUsers (sb : Block) : ℕ := getBe sb 0x40 4
def sChecksumType (sb : Block) : ℕ := getBe sb 0x50 1
def sNumFcBlks (sb : Block) : ℕ := getBe sb 0x54 4
def sChecksum (sb : Block) : ℕ := getBe sb 0xfc 4

/-- `s_uuid`. -/
def sUuid (sb : Block) : List UInt8 := (List.range 16).map fun i => sb (0x30 + i)

/-- A loaded journal: what `journal_t` holds once the superblock has been
accepted, together with the blocks of the journal device. -/
structure Journal where
  jBlocksize : ℕ
  jFirst : ℕ
  jLast : ℕ
  jFcFirst : ℕ
  jFcLast : ℕ
  jTotalLen : ℕ
  jTailSequence : ℕ
  jTail : ℕ
  jCsumSeed : ℕ
  features : Features
  /-- The log blocks by index; `none` where `jbd2_journal_bmap` or the read
  fails. -/
  jDev : ℕ → Option Block

/-- What `e2fsck_journal_load` looks at besides the superblock. -/
structure LoadContext where
  /-- `journal->j_blocksize`, the block size of the file system. -/
  jBlocksize : ℕ
  /-- The bounds `EXT2_MIN_BLOCK_SIZE` and `EXT2_MAX_BLOCK_SIZE`, which `ext2fs_open`
  checks. -/
  blocksize_ge : 1024 ≤ jBlocksize
  blocksize_le : jBlocksize ≤ 65536
  /-- `journal->j_total_len` as `e2fsck_get_journal` found it. -/
  jTotalLen : ℕ
  /-- `uuid_is_null(ctx->fs->super->s_journal_uuid)`. -/
  journalUuidNull : Bool
  /-- The answer `fix_problem` gives to `PR_0_CLEAR_V2_JOURNAL`. -/
  clearV2 : Bool
  /-- The log blocks. -/
  jDev : ℕ → Option Block

/-- The reasons for which a superblock is refused. -/
inductive LoadError
  | badInode
  | corruptJournalSb
  | journalUnsuppVersion
  | unsuppFeature
  | roUnsuppFeature
  deriving DecidableEq, Repr

/-- `clear_v2_journal_fields`: zero the superblock from `V1_SB_SIZE` on. -/
def clearV2JournalFields (ctx : LoadContext) (sb : Block) : Block := fun i =>
  if ctx.clearV2 ∧ 0x24 ≤ i then 0 else sb i

/-- The features of a superblock of the given format version. -/
def featuresOf (sb : Block) (jFormatVersion : ℕ) : Features where
  checksum := decide (2 ≤ jFormatVersion) && hasFlag (sFeatureCompat sb) 1
  bit64 := decide (2 ≤ jFormatVersion) && hasFlag (sFeatureIncompat sb) 2
  asyncCommit := decide (2 ≤ jFormatVersion) && hasFlag (sFeatureIncompat sb) 4
  csum2 := decide (2 ≤ jFormatVersion) && hasFlag (sFeatureIncompat sb) 8
  csum3 := decide (2 ≤ jFormatVersion) && hasFlag (sFeatureIncompat sb) 0x10
  fastCommit := decide (2 ≤ jFormatVersion) && hasFlag (sFeatureIncompat sb) 0x20

/-- `e2fsck_journal_sb_csum`: the checksum of the superblock with its own
checksum field zeroed. -/
def e2fsckJournalSbCsum (sb : Block) : ℕ :=
  ext2fsCrc32cLe allOnes32 (bytesOf (putBe sb 0xfc 4 0) 1024)

/-- `jbd2_journal_get_num_fc_blks`. -/
def jbd2JournalGetNumFcBlks (sb : Block) : ℕ :=
  if sNumFcBlks sb = 0 then jbd2DefaultFastCommitBlocks else sNumFcBlks sb

/-- An `int` with the given 32-bit pattern, widened to `unsigned long`. -/
def signExtend64 (n : ℕ) : ℕ := if n < 2 ^ 31 then n else n + (2 ^ 64 - 2 ^ 32)

/-- Subtraction in `unsigned long`. -/
def sub64 (a b : ℕ) : ℕ := (a + 2 ^ 64 - b) % 2 ^ 64

/-- The first part of `e2fsck_journal_load`: which superblock version this is,
and the superblock after `clear_v2_journal_fields` has had its say. -/
def journalFormatVersion (ctx : LoadContext) (sb : Block) : Except LoadError (ℕ × Block) :=
  if hMagic sb ≠ jbd2MagicNumber then .error .badInode
  else if hBlocktype sb = jbd2SuperblockV1 then
    if sFeatureCompat sb ≠ 0 ∨ sFeatureIncompat sb ≠ 0 ∨ sFeatureRoCompat sb ≠ 0 ∨
        sNrUsers sb ≠ 0 then
      .ok (1, clearV2JournalFields ctx sb)
    else .ok (1, sb)
  else if hBlocktype sb = jbd2SuperblockV2 then
    let sb' := if 1 < sNrUsers sb ∧ ctx.journalUuidNull then clearV2JournalFields ctx sb else sb
    if 1 < sNrUsers sb' then .error .journalUnsuppVersion else .ok (2, sb')
  else if hBlocktype sb = jbd2DescriptorBlock ∨ hBlocktype sb = jbd2CommitBlock ∨
      hBlocktype sb = jbd2RevokeBlock then
    .error .corruptJournalSb
  else .error .journalUnsuppVersion

/-- The fields of `journal_t` as `e2fsck_journal_load` sets them for every journal. -/
def loadedFields (ctx : LoadContext) (sb : Block) (f : Features) : Journal where
  jBlocksize := ctx.jBlocksize
  jFirst := sFirst sb
  jLast := sMaxlen sb
  jFcFirst := 0
  jFcLast := 0
  jTotalLen := sMaxlen sb
  jTailSequence := sSequence sb
  jTail := sStart sb
  jCsumSeed := if f.csumV2or3 then ext2fsCrc32cLe allOnes32 (sUuid sb) else 0
  features := f
  jDev := ctx.jDev

/-- The last part of `e2fsck_journal_load`: with fast commits, their area is cut off at
the end. -/
def journalFields (ctx : LoadContext) (sb : Block) (f : Features) : Except LoadError Journal :=
  let j := loadedFields ctx sb f
  if f.fastCommit then
    if (sMaxlen sb + 2 ^ 32 - jbd2JournalGetNumFcBlks sb) % 2 ^ 32 < jbd2MinJournalBlocks then
      .error .corruptJournalSb
    else
      let last := sub64 (sMaxlen sb) (signExtend64 (jbd2JournalGetNumFcBlks sb))
      .ok { j with jFcLast := sMaxlen sb, jLast := last, jFcFirst := (last + 1) % 2 ^ 64 }
  else .ok j

/-- The middle part of `e2fsck_journal_load`: the features, the checksum and the size. -/
def journalLoadChecks (ctx : LoadContext) (version : ℕ) (sb : Block) :
    Except LoadError Journal :=
  let f := featuresOf sb version
  if 2 ≤ version ∧ sFeatureIncompat sb &&& (allOnes32 - jbd2KnownIncompatFeatures) ≠ 0 then
    .error .unsuppFeature
  else if 2 ≤ version ∧ sFeatureRoCompat sb ≠ 0 then .error .roUnsuppFeature
  else if f.csum2 && f.csum3 then .error .corruptJournalSb
  else if f.csumV2or3 && f.checksum then .error .corruptJournalSb
  else if f.csumV2or3 ∧
      (sChecksumType sb ≠ jbd2Crc32cChksum ∨ sChecksum sb ≠ e2fsckJournalSbCsum sb) then
    .error .corruptJournalSb
  else if sBlocksize sb ≠ ctx.jBlocksize then .error .corruptJournalSb
  else if ctx.jTotalLen < sMaxlen sb then .error .corruptJournalSb
  else journalFields ctx sb f

/-- `e2fsck_journal_load`. -/
def e2fsckJournalLoad (ctx : LoadContext) (sb₀ : Block) : Except LoadError Journal := do
  let (version, sb) ← journalFormatVersion ctx sb₀
  journalLoadChecks ctx version sb

end E2fsprogs
