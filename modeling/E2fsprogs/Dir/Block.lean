import E2fsprogs.Lib.Bytes
import E2fsprogs.Lib.Loop

/-!
# Directory blocks

A linear directory block is a chain of entries, each with the length of its record: an
inode number (zero for an unused entry), the record length, the length of the name, the
file type and the name (`struct ext2_dir_entry`, `lib/ext2fs/ext2_fs.h`). With the
`metadata_csum` feature the block ends in a tail that looks like an unused entry.

`E2fsprogs.dirStep` is one round of the loop of `ext2fs_process_dir_block`
(`lib/ext2fs/dir_iterate.c`) over a block that has been read. The loop calls a function on
each entry, and the function may change the block under it.
-/

namespace E2fsprogs

/-- What the directory code reads of the file system. -/
structure DirFs where
  blocksize : ℕ
  metadataCsum : Bool
  filetype : Bool

/-- The size of `struct ext2_dir_entry_tail` where blocks have one. -/
def csumSize (fs : DirFs) : ℕ := if fs.metadataCsum then 12 else 0

/-! ### Fields of an entry -/

section Fields

variable (b : Block) (d : ℕ)

/-- `dirent->inode`. -/
def dInode : ℕ := getLe b d 4

/-- `dirent->rec_len`. -/
def dRecLen : ℕ := getLe b (d + 4) 2

/-- `dirent->name_len`, which holds the file type too. -/
def dNameLen : ℕ := getLe b (d + 6) 2

/-- `ext2fs_dirent_name_len`: the low byte of `name_len`. -/
def direntNameLen : ℕ := getLe b (d + 6) 1

/-- `ext2fs_dirent_file_type`: the high byte of `name_len`. -/
def direntFileType : ℕ := getLe b (d + 7) 1

/-- `dirent->name`. -/
def direntName : List UInt8 := bytesAt b (d + 8) (direntNameLen b d)

/-- `ext2fs_dirent_set_name_len`. -/
def direntSetNameLen (len : ℕ) : Block := putLe b (d + 6) 1 len

/-- `ext2fs_dirent_set_file_type`. -/
def direntSetFileType (type : ℕ) : Block := putLe b (d + 7) 1 type

end Fields

/-- `EXT2_DIR_REC_LEN`, whose argument is a byte. -/
def dirRecLen (nameLen : ℕ) : ℕ := (nameLen % 256 + 11) / 4 * 4

/-- `ext2fs_get_rec_len`: `(len & 65532) | ((len & 3) << 16)` for large blocks, where the whole
block has two encodings of its own. -/
def getRecLen (fs : DirFs) (len : ℕ) : ℕ :=
  if fs.blocksize < 65536 then len
  else if len = 65535 ∨ len = 0 then fs.blocksize
  else len / 4 * 4 + len % 4 * 65536

/-- `ext2fs_set_rec_len`: nothing when the length is refused. -/
def setRecLen (fs : DirFs) (len : ℕ) (b : Block) (d : ℕ) : Option Block :=
  if fs.blocksize < len ∨ 2 ^ 18 < fs.blocksize ∨ len % 4 ≠ 0 then none
  else if len < 65536 then some (putLe b (d + 4) 2 len)
  else if len = fs.blocksize then
    some (putLe b (d + 4) 2 (if fs.blocksize = 65536 then 65535 else 0))
  else some (putLe b (d + 4) 2 (len % 65536 / 4 * 4 + len / 65536 % 4))

/-- The record length of the entry at `d`. -/
def recLen (fs : DirFs) (b : Block) (d : ℕ) : ℕ := getRecLen fs (dRecLen b d)

/-! ### Going through a block -/

/-- Which entries the loop shows to its function. -/
structure DirFlags where
  /-- `DIRENT_FLAG_INCLUDE_EMPTY`. -/
  includeEmpty : Bool
  /-- `DIRENT_FLAG_INCLUDE_REMOVED`. -/
  includeRemoved : Bool
  /-- `DIRENT_FLAG_INCLUDE_CSUM`. -/
  includeCsum : Bool
  /-- `DIRENT_FLAG_INCLUDE_INLINE_DATA`. -/
  includeInlineData : Bool

/-- `DIRENT_FLAG_INCLUDE_EMPTY` alone. -/
def DirFlags.empty : DirFlags := ⟨true, false, false, false⟩

/-- What kind of entry the function is told it is shown. -/
inductive DirentKind
  /-- `DIRENT_DOT_FILE`. -/
  | dot
  /-- `DIRENT_DOT_DOT_FILE`. -/
  | dotDot
  /-- `DIRENT_OTHER_FILE`. -/
  | other
  /-- `DIRENT_DELETED_FILE`. -/
  | deleted
  /-- `DIRENT_CHECKSUM`. -/
  | checksum
  deriving DecidableEq, Repr

/-- The kind of the entry after one of this kind. -/
def DirentKind.succ : DirentKind → DirentKind
  | .dot => .dotDot
  | .dotDot => .other
  | k => k

/-- What the function returns. -/
structure DirRet where
  /-- `DIRENT_CHANGED`. -/
  changed : Bool
  /-- `DIRENT_ABORT`. -/
  abort : Bool
  deriving DecidableEq, Repr

/-- A function called on the entries: it is given the kind, the offset, the block and its own
data. -/
abbrev DirFunc (σ : Type) := DirentKind → ℕ → Block → σ → DirRet × Block × σ

/-- The state of the loop. -/
structure DirIter (σ : Type) where
  offset : ℕ
  nextRealEntry : ℕ
  entry : DirentKind
  changed : Bool
  buf : Block
  priv : σ

/-- How the loop ends. -/
structure DirEnd (σ : Type) where
  /-- `EXT2_ET_DIR_CORRUPTED` has been set. -/
  corrupted : Bool
  aborted : Bool
  changed : Bool
  buf : Block
  priv : σ

/-- The loop of `ext2fs_validate_entry`. -/
def validateEntry (fs : DirFs) (b : Block) (finalOffset : ℕ) : ℕ → ℕ → Bool
  | 0, _ => false
  | fuel + 1, offset =>
    if offset < finalOffset ∧ offset ≤ fs.blocksize - 12 then
      let len := recLen fs b offset
      if len < 8 ∨ len % 4 ≠ 0 ∨ len < direntNameLen b offset + 8 then false
      else validateEntry fs b finalOffset fuel (offset + len)
    else offset = finalOffset

/-- The loop that looks for a removed entry inside a record. -/
def skipRemoved (fs : DirFs) (b : Block) (finalOffset : ℕ) : ℕ → ℕ → ℕ
  | 0, offset => offset
  | fuel + 1, offset =>
    if offset < finalOffset ∧ validateEntry fs b finalOffset finalOffset offset = false then
      skipRemoved fs b finalOffset fuel (offset + 4)
    else offset

section Iterate

variable {σ : Type} (fs : DirFs) (flags : DirFlags) (buflen : ℕ)

/-- The end of a round. -/
def DirIter.advance (s : DirIter σ) (len : ℕ) : DirIter σ :=
  let nextRealEntry := if s.nextRealEntry = s.offset then s.nextRealEntry + len else s.nextRealEntry
  let size := (direntNameLen s.buf s.offset + 11) / 4 * 4
  if flags.includeRemoved ∧ len ≠ size then
    { s with
      nextRealEntry := nextRealEntry
      offset := skipRemoved fs s.buf (s.offset + len) (s.offset + len) (s.offset + size) }
  else { s with nextRealEntry := nextRealEntry, offset := s.offset + len }

/-- The entry at an offset is the checksum tail. -/
def isTail (b : Block) (offset : ℕ) : Prop :=
  dInode b offset = 0 ∧ flags.includeInlineData = false ∧ offset = buflen - csumSize fs ∧
    dRecLen b offset = csumSize fs ∧ dNameLen b offset = 0xDE00

instance (b : Block) (offset : ℕ) : Decidable (isTail fs flags buflen b offset) :=
  inferInstanceAs (Decidable (_ ∧ _))

/-- **One round** of the loop of `ext2fs_process_dir_block`. -/
def dirStep (func : DirFunc σ) (s : DirIter σ) : DirIter σ ⊕ DirEnd σ :=
  if s.offset < buflen - 8 then
    let len := recLen fs s.buf s.offset
    if buflen < s.offset + len ∨ len < 8 ∨ len % 4 ≠ 0 ∨ len < direntNameLen s.buf s.offset + 8 then
      .inr ⟨true, false, s.changed, s.buf, s.priv⟩
    else if isTail fs flags buflen s.buf s.offset ∧ flags.includeCsum = false then
      .inl (s.advance fs flags len)
    else if dInode s.buf s.offset = 0 ∧ ¬isTail fs flags buflen s.buf s.offset ∧
        flags.includeEmpty = false then
      .inl (s.advance fs flags len)
    else
      let entry := if isTail fs flags buflen s.buf s.offset then .checksum else s.entry
      let r := func (if s.offset < s.nextRealEntry then .deleted else entry) s.offset s.buf s.priv
      let len := if r.1.changed then recLen fs r.2.1 s.offset else len
      let s : DirIter σ := { s with
        entry := entry.succ
        changed := s.changed || r.1.changed
        buf := r.2.1
        priv := r.2.2 }
      if r.1.abort then .inr ⟨false, true, s.changed, s.buf, s.priv⟩
      else .inl (s.advance fs flags len)
  else .inr ⟨false, false, s.changed, s.buf, s.priv⟩

/-- The state the loop starts in. -/
def DirIter.start (entry : DirentKind) (buf : Block) (priv : σ) : DirIter σ :=
  ⟨0, 0, entry, false, buf, priv⟩

end Iterate

end E2fsprogs
