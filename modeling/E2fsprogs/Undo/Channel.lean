import E2fsprogs.Undo.Format

/-!
# The undo I/O manager

`lib/ext2fs/undo_io.c`: before a write goes to the device, the blocks it is about to overwrite
are saved in the undo file, once each. The device is cut up into undo blocks for that. Blocks
that follow one another extend the last key, and a key block that is full is closed.

The backing channel is a device of some size: a read that reaches past the end is short, and
no transfer fails. Numbers are natural numbers, except for the size of a write, an `int` that
may overflow.
-/

namespace E2fsprogs

/-- An open channel of the undo I/O manager: `struct undo_private_data`, the undo file and the
device. -/
structure UndoChannel where
  /-- `channel->block_size`, which is that of the backing channel too. -/
  blockSize : ℕ
  /-- `data->offset`, which is that of the backing channel too. -/
  offset : ℕ
  tdbDataSize : ℕ
  tdbWritten : ℤ
  undoBlkNum : ℕ
  keyBlkNum : ℕ
  superBlkNum : ℕ
  firstKeyBlk : ℕ
  /-- The keys of `data->keyb`. -/
  keyb : List UndoKey
  numKeys : ℕ
  writtenBlockMap : ℕ → Bool
  hdrBlockSize : ℕ
  undoFile : UndoFile
  dev : Block
  devSize : ℕ

/-- A value converted to `int`. -/
def toInt32 (n : ℤ) : ℤ := (n + 2 ^ 31) % 2 ^ 32 - 2 ^ 31

/-- A value converted to `unsigned long long`. -/
def toUInt64 (n : ℤ) : ℕ := (n % 2 ^ 64).toNat

/-- `size` in `undo_write_tdb`. -/
def undoSize (blockSize : ℕ) (count : ℤ) : ℤ :=
  if count = 1 then blockSize else if count < 0 then -count else toInt32 (count * blockSize)

/-- The block size of the undo file: `undo_setup_tdb` sets it with that of the header. -/
def UndoChannel.undoFileBlockSize (ch : UndoChannel) : ℕ :=
  if ch.hdrBlockSize = 0 then 1024 else ch.hdrBlockSize

/-- `write_undo_indexes`: whether it succeeds. -/
def writeUndoIndexes (ch : UndoChannel) : Bool × UndoChannel :=
  let ch :=
    if ch.keyb = [] then ch
    else
      let bytes := memcpy ch.undoFile.bytes (ch.keyBlkNum * ch.undoFileBlockSize)
        (encodeKeyBlock ch.tdbDataSize ch.keyb) ch.tdbDataSize
      let ch := { ch with undoFile := { ch.undoFile with bytes := bytes } }
      if ch.keyb.length = keysPerBlock ch.tdbDataSize then
        { ch with keyb := [], keyBlkNum := ch.undoBlkNum, undoBlkNum := ch.undoBlkNum + 1 }
      else ch
  if ch.devSize < ch.offset + 2 * superblockSize then (false, ch)
  else
    let super := fromPos ch.dev (ch.offset + superblockSize)
    let header : UndoHeader := {
      numKeys := ch.numKeys, superOffset := ch.superBlkNum, keyOffset := ch.firstKeyBlk
      blockSize := ch.hdrBlockSize, fsBlockSize := ch.blockSize
      sbCrc := blockCrc super superblockSize, fsOffset := ch.offset, hasFsOffset := ch.offset != 0 }
    let bytes := memcpy ch.undoFile.bytes (ch.superBlkNum * ch.undoFileBlockSize) (flipMagic super)
      superblockSize
    (true, { ch with undoFile := ⟨some header, bytes⟩ })

/-- `undo_setup_tdb`: the header blocks of the undo file are made to be there. -/
def undoSetupTdb (ch : UndoChannel) : UndoChannel :=
  if ch.tdbWritten = 1 then ch
  else { ch with
    tdbWritten := 1, writtenBlockMap := fun _ => false, keyb := [], keyBlkNum := ch.firstKeyBlk
    hdrBlockSize := ch.tdbDataSize }

/-- The keys with the bytes of a block added, and whether there is one more: the last key is
extended when the block follows it and it does not get too long. -/
def addKey (blockSize tdbDataSize backingBlkNum : ℕ) (data : List UInt8) (keyb : List UndoKey) :
    List UndoKey × Bool :=
  let new : UndoKey := ⟨backingBlkNum, ext2fsCrc32cLe (2 ^ 32 - 1) data, data.length⟩
  match keyb.getLast? with
  | none => ([new], true)
  | some key =>
    if (key.fsblk * blockSize + blockSize - 1 + key.size) / blockSize = backingBlkNum ∧
        key.size + data.length < e2undoMaxExtentBlocks * tdbDataSize then
      (keyb.dropLast ++ [⟨key.fsblk, ext2fsCrc32cLe key.blkCrc data, key.size + data.length⟩],
        false)
    else (keyb ++ [new], true)

/-- The loop of `undo_write_tdb` for one undo block that has not been saved yet. -/
def saveUndoBlock (ch : UndoChannel) (blockNum : ℕ) : Bool × UndoChannel :=
  let ch := { ch with writtenBlockMap := Function.update ch.writtenBlockMap blockNum true }
  let offset := blockNum * ch.tdbDataSize + ch.offset % ch.tdbDataSize
  let backingBlkNum := (offset - ch.offset) / ch.blockSize
  -- a short read has as many bytes as there are before the end of the device
  let pos := backingBlkNum * ch.blockSize + ch.offset
  let dataSize := min ch.tdbDataSize (ch.devSize - pos)
  if dataSize = 0 then (true, ch)
  else
    let r := addKey ch.blockSize ch.tdbDataSize backingBlkNum (bytesAt ch.dev pos dataSize) ch.keyb
    let bytes :=
      memcpy ch.undoFile.bytes (ch.undoBlkNum * ch.undoFileBlockSize) (fromPos ch.dev pos) dataSize
    writeUndoIndexes { ch with
      keyb := r.1, numKeys := if r.2 then ch.numKeys + 1 else ch.numKeys
      undoFile := { ch.undoFile with bytes := bytes }, undoBlkNum := ch.undoBlkNum + 1 }

/-- The loop of `undo_write_tdb`, for `n` undo blocks. -/
def saveUndoBlocks : ℕ → ℕ → UndoChannel → Bool × UndoChannel
  | 0, _, ch => (true, ch)
  | n + 1, blockNum, ch =>
    if ch.writtenBlockMap blockNum then saveUndoBlocks n (blockNum + 1) ch
    else
      match saveUndoBlock ch blockNum with
      | (true, ch) => saveUndoBlocks n (blockNum + 1) ch
      | (false, ch) => (false, ch)

/-- `undo_write_tdb`. -/
def undoWriteTdb (ch : UndoChannel) (block : ℕ) (count : ℤ) : Bool × UndoChannel :=
  let ch := undoSetupTdb ch
  let offset := block * ch.blockSize + ch.offset
  let blockNum := offset / ch.tdbDataSize
  let endBlock := toUInt64 (offset + undoSize ch.blockSize count - 1) / ch.tdbDataSize
  saveUndoBlocks (endBlock + 1 - blockNum) blockNum ch

/-- How many bytes a count means to the backing channel. -/
def backingSize (blockSize : ℕ) (count : ℤ) : ℕ :=
  if count < 0 then (-count).toNat else count.toNat * blockSize

/-- `undo_write_blk64`. -/
def undoWriteBlk64 (ch : UndoChannel) (block : ℕ) (count : ℤ) (buf : Block) : Bool × UndoChannel :=
  match undoWriteTdb ch block count with
  | (true, ch) => (true, { ch with
      dev :=
        memcpy ch.dev (block * ch.blockSize + ch.offset) buf (backingSize ch.blockSize count) })
  | (false, ch) => (false, ch)

/-- `undo_set_blksize`. -/
def undoSetBlksize (ch : UndoChannel) (blksize : ℕ) : Bool × UndoChannel :=
  if e2undoMaxBlockSize < blksize ∨ blksize < e2undoMinBlockSize then (false, ch)
  else
    (true, { ch with
      tdbDataSize := if ch.tdbDataSize = 0 ∨ ch.tdbWritten = 0 then blksize else ch.tdbDataSize
      blockSize := blksize })

/-- `undo_set_option` with `tdb_data_size`. -/
def undoSetTdbDataSize (ch : UndoChannel) (size : ℕ) : Bool × UndoChannel :=
  if e2undoMaxBlockSize < size ∨ size < e2undoMinBlockSize then (false, ch)
  else if ch.tdbDataSize = 0 ∨ ch.tdbWritten = 0 then
    (true, { ch with tdbWritten := -1, tdbDataSize := size })
  else (true, ch)

/-- `undo_open` with a new undo file, and `undo_set_option` with `offset`. -/
def undoOpen (offset : ℕ) (dev : Block) (devSize : ℕ) : UndoChannel where
  blockSize := 1024
  offset := offset
  tdbDataSize := 0
  tdbWritten := 0
  undoBlkNum := 3
  keyBlkNum := 0
  superBlkNum := 1
  firstKeyBlk := 2
  keyb := []
  numKeys := 0
  writtenBlockMap := fun _ => false
  hdrBlockSize := 0
  undoFile := ⟨none, zeroBlock⟩
  dev := dev
  devSize := devSize

/-- `undo_close`, as far as the undo file is concerned. -/
def undoClose (ch : UndoChannel) : Bool × UndoChannel := writeUndoIndexes ch

end E2fsprogs
