import E2fsprogs.Lib.Crc32
import E2fsprogs.Lib.Memcpy

/-!
# The undo file

The format that `lib/ext2fs/undo_io.c` writes and `misc/e2undo.c` reads. The file is cut up into
blocks: the header, a copy of the superblock, and then key blocks, each followed by the data
blocks its keys are of. A key says where in the file system its data belongs and how many bytes
they are; where they are in the undo file the reader computes from the keys before it.
-/

namespace E2fsprogs

/-- `struct undo_key`. -/
structure UndoKey where
  fsblk : ℕ
  blkCrc : ℕ
  size : ℕ
  deriving DecidableEq

/-- The fields of `struct undo_header` that are set by `write_undo_indexes` and read by
`e2undo`. -/
structure UndoHeader where
  numKeys : ℕ
  superOffset : ℕ
  keyOffset : ℕ
  blockSize : ℕ
  fsBlockSize : ℕ
  sbCrc : ℕ
  fsOffset : ℕ
  /-- `E2UNDO_FEATURE_COMPAT_FS_OFFSET`. -/
  hasFsOffset : Bool

/-- An undo file: its header, once there is one, and its bytes, of which the header's are not
looked at. -/
structure UndoFile where
  header : Option UndoHeader
  bytes : Block

/-- `KEYBLOCK_MAGIC`. -/
def keyblockMagic : ℕ := 0xCADECADE

/-- `E2UNDO_MIN_BLOCK_SIZE`. -/
def e2undoMinBlockSize : ℕ := 1024

/-- `E2UNDO_MAX_BLOCK_SIZE`. -/
def e2undoMaxBlockSize : ℕ := 1048576

/-- `E2UNDO_MAX_EXTENT_BLOCKS`. -/
def e2undoMaxExtentBlocks : ℕ := 512

/-- `KEYS_PER_BLOCK`. -/
def keysPerBlock (blockSize : ℕ) : ℕ := blockSize / 16 - 1

/-- A key stored at its place in a key block. -/
def putKey (b : Block) (j : ℕ) (key : UndoKey) : Block :=
  putLe (putLe (putLe b (16 + 16 * j) 8 key.fsblk) (24 + 16 * j) 4 key.blkCrc)
    (28 + 16 * j) 4 key.size

/-- The key at a place of a key block. -/
def getKey (b : Block) (j : ℕ) : UndoKey where
  fsblk := getLe b (16 + 16 * j) 8
  blkCrc := getLe b (24 + 16 * j) 4
  size := getLe b (28 + 16 * j) 4

/-- Keys stored one after the other. -/
def putKeys (b : Block) : ℕ → List UndoKey → Block
  | _, [] => b
  | j, key :: keys => putKeys (putKey b j key) (j + 1) keys

/-- A key block with its checksum still zero. -/
def keyBlockBody (keys : List UndoKey) : Block := putKeys (putLe zeroBlock 0 4 keyblockMagic) 0 keys

/-- The checksum of the first bytes of a block. -/
def blockCrc (b : Block) (n : ℕ) : ℕ := ext2fsCrc32cLe (2 ^ 32 - 1) (bytesOf b n)

/-- `struct undo_key_block` as `write_undo_indexes` writes it. -/
def encodeKeyBlock (blockSize : ℕ) (keys : List UndoKey) : Block :=
  putLe (keyBlockBody keys) 4 4 (blockCrc (keyBlockBody keys) blockSize)

/-- `s_magic` of a superblock complemented. -/
def flipMagic (super : Block) : Block := fun p => if p = 56 ∨ p = 57 then ~~~super p else super p

/-- `SUPERBLOCK_OFFSET` and `SUPERBLOCK_SIZE`. -/
def superblockSize : ℕ := 1024

end E2fsprogs
