import E2fsprogs.Lib.Loop
import E2fsprogs.Xattr.Format

/-!
# Reading extended attributes

`read_xattrs_from_buffer` goes through an area twice. The first loop (`E2fsprogs.findEnd`) checks
that headers and names fit and finds the end of the entries; the second one
(`E2fsprogs.readStep`) copies names and values. Both count the bytes that remain; the second
one takes values off as well, and does not look whether there is enough left for a name.

The bytes of the area that are read are recorded in `E2fsprogs.XReader`. Memory allocation and
what is read from other inodes are parameters (`E2fsprogs.EaFs`).
-/

namespace E2fsprogs

/-- The errors of `read_xattrs_from_buffer`. -/
inductive XattrErr
  | eaBadNameLen
  | badEaBlockNum
  | eaBadValueSize
  | eaBadValueOffset
  | badEaHash
  | noMemory
  /-- An error from reading an inode. -/
  | inode (err : ℕ)
  deriving DecidableEq, Repr

/-- `struct ext2_xattr`. -/
structure Xattr where
  nameIndex : ℕ
  name : List UInt8
  shortName : List UInt8
  value : List UInt8
  valueLen : ℕ
  eaIno : ℕ
  deriving DecidableEq, Repr

/-- What reading attributes needs of the rest of the file system. -/
structure EaFs where
  /-- The `ea_inode` feature. -/
  eaInode : Bool
  /-- Whether the array can be expanded when it holds that many attributes. -/
  expand : ℕ → Bool
  /-- Whether an allocation of that many bytes succeeds. -/
  malloc : ℕ → Bool
  /-- The value in an inode of the given size. -/
  readEaInode : ℕ → ℕ → Except ℕ (List UInt8)
  /-- `read_ea_inode_hash`. -/
  readEaInodeHash : ℕ → Except ℕ ℕ
  /-- `i_mtime` and `i_generation`, from `ext2fs_read_inode`. -/
  readInode : ℕ → Except ℕ (ℕ × ℕ)
  /-- There is no inode 0. -/
  readInode_zero : ∃ err, readInode 0 = .error err
  /-- `handle->ino`. -/
  ino : ℕ
  /-- `i_generation` of the inode. -/
  generation : ℕ

/-- Subtraction of `unsigned int`. -/
def sub32 (a b : ℕ) : ℕ := if b ≤ a then a - b else 2 ^ 32 - (b - a)

/-! ### The first loop -/

/-- The loop that finds the end of the entries, at most `fuel` times. It returns the offset of
the end, and the bytes it has read. -/
def findEnd (a : EaArea) : ℕ → ℕ → ℕ → List (ℕ × ℕ) → Except XattrErr ℕ × List (ℕ × ℕ)
  | 0, e, _, reads => (.ok e, reads)
  | fuel + 1, e, remain, reads =>
      if 16 ≤ remain then
        let reads := (e, 4) :: reads
        if eIsLast a.buf e then (.ok e, reads)
        else
          let remain := remain - 16
          let reads := (e, 1) :: reads
          if remain < eaSize (eNameLen a.buf e) then (.error .eaBadNameLen, reads)
          else findEnd a fuel (eNext a.buf e) (remain - eaSize (eNameLen a.buf e)) reads
      else (.ok e, reads)

/-! ### The second loop -/

/-- Where the second loop is. -/
structure XReader where
  entry : ℕ
  remain : ℕ
  attrs : List Xattr
  /-- The bytes of the area that have been read: offsets and numbers of bytes. -/
  reads : List (ℕ × ℕ)
  deriving Repr

/-- What `read_xattrs_from_buffer` returns, with the attributes in the handle and the bytes
read. -/
structure XEnd where
  err : Option XattrErr
  attrs : List Xattr
  reads : List (ℕ × ℕ)
  deriving Repr

/-- `n` bytes at offset `o` are read. -/
def XReader.read (s : XReader) (o n : ℕ) : XReader := { s with reads := (o, n) :: s.reads }

/-- The function returns. -/
def XReader.finish (s : XReader) (err : Option XattrErr) : XEnd := ⟨err, s.attrs, s.reads⟩

section Loop

variable (fs : EaFs) (a : EaArea)

/-- The value of the entry at `s.entry` is checked and copied. -/
def readValue (endOff : ℕ) (s : XReader) : Except XattrErr (List UInt8) × XReader :=
  let offs := eValueOffs a.buf s.entry
  let size := eValueSize a.buf s.entry
  let inum := eValueInum a.buf s.entry
  if fs.eaInode = false ∧ inum ≠ 0 then (.error .badEaBlockNum, s)
  else if inum = 0 then
    if s.remain < size then (.error .eaBadValueSize, s)
    else if a.valuesSize < (offs + size) % 2 ^ 32 then (.error .eaBadValueOffset, s)
    else if 0 < size ∧ offs < endOff + 4 then (.error .eaBadValueOffset, s)
    else
      let s := { s with remain := sub32 s.remain size }
      if !fs.malloc size then (.error .noMemory, s)
      else (.ok (bytesAt a.buf offs size), s.read offs size)
  else if offs ≠ 0 then (.error .eaBadValueOffset, s)
  else if 64 * 1024 < size then (.error .eaBadValueSize, s)
  else if !fs.malloc size then (.error .noMemory, s)
  else
    match fs.readEaInode inum size with
    | .error err => (.error (.inode err), s)
    | .ok value => (.ok value, s)

/-- `ext2fs_ext_attr_hash_entry2`: the bytes it reads, and the hash. -/
def hashEntry2 (s : XReader) : Except XattrErr ℕ × XReader :=
  let offs := eValueOffs a.buf s.entry
  let size := eValueSize a.buf s.entry
  let inum := eValueInum a.buf s.entry
  let hash := ext2fsExtAttrHashEntry a.buf s.entry offs
  let s := s.read (s.entry + eaEntrySize) (eNameLen a.buf s.entry)
  if inum = 0 then
    (.ok hash, if size ≠ 0 then s.read offs ((size + 3) % 2 ^ 32 / 4 * 4) else s)
  else
    match fs.readEaInodeHash inum with
    | .error err => (.error (.inode err), s)
    | .ok eaInodeHash => (.ok (hashRound 16 hash eaInodeHash), s)

/-- The hash of the entry at `s.entry` is checked, unless it is zero. -/
def checkHash (s : XReader) : Option XattrErr × XReader :=
  if eHash a.buf s.entry = 0 then (none, s)
  else
    match hashEntry2 fs a s with
    | (.error err, s) => (some err, s)
    | (.ok hash, s) =>
        if eHash a.buf s.entry = hash then (none, s)
        else
          match fs.readInode (eValueInum a.buf s.entry) with
          | .error err => (some (.inode err), s)
          | .ok (mtime, generation) =>
              if mtime ≠ fs.ino ∨ generation ≠ fs.generation then (some .badEaHash, s)
              else (none, s)

/-- The attribute that is made of the entry at `e`, with its value. -/
def xattrOf (b : Block) (e : ℕ) (value : List UInt8) : Xattr where
  nameIndex := eNameIndex b e
  name := (findEaPrefix (eNameIndex b e)).getD [] ++ eName b e
  shortName := eName b e
  value := value
  valueLen := eValueSize b e
  eaIno := eValueInum b e

/-- The header of the entry at `s.entry` and its name are copied, and taken off the bytes that
remain. -/
def XReader.afterName (s : XReader) : XReader :=
  let nameLen := eNameLen a.buf s.entry
  { s with
    remain := sub32 (sub32 s.remain 16) (eaSize nameLen)
    reads := (s.entry + eaEntrySize, nameLen) :: (s.entry, eaEntrySize) :: s.reads }

/-- The body of the second loop, once the entry is known not to be the last one. -/
def readEntry (endOff : ℕ) (s : XReader) : XReader ⊕ XEnd :=
  let nameSize := eNameLen a.buf s.entry +
    ((findEaPrefix (eNameIndex a.buf s.entry)).getD []).length + 1
  if !fs.expand s.attrs.length then .inr (s.finish (some .noMemory))
  else if !fs.malloc nameSize then .inr ((s.read s.entry eaEntrySize).finish (some .noMemory))
  else
    match readValue fs a endOff (s.afterName a) with
    | (.error err, s) => .inr (s.finish (some err))
    | (.ok value, s) =>
        match checkHash fs a s with
        | (some err, s) => .inr (s.finish (some err))
        | (none, s) =>
            .inl { s with
              entry := eNext a.buf s.entry
              attrs := s.attrs ++ [xattrOf a.buf s.entry value] }

/-- A round of the second loop. -/
def readStep (endOff : ℕ) (s : XReader) : XReader ⊕ XEnd :=
  if 16 ≤ s.remain then
    let s := s.read s.entry 4
    if eIsLast a.buf s.entry then .inr (s.finish none) else readEntry fs a endOff s
  else .inr (s.finish none)

/-- **`read_xattrs_from_buffer`**, its second loop run at most `fuel` times, on a handle with
the attributes `attrs`. -/
def readXattrsFromBuffer (fuel : ℕ) (attrs : List Xattr) : Option XEnd :=
  match findEnd a a.storageSize a.entries a.storageSize [] with
  | (.error err, reads) => some ⟨some err, attrs, reads⟩
  | (.ok endOff, reads) =>
      Loop.run (readStep fs a endOff) fuel ⟨a.entries, a.storageSize, attrs, reads⟩

end Loop

end E2fsprogs
