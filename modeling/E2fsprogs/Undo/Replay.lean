import E2fsprogs.Undo.Channel

/-!
# Replaying an undo file

`main` of `misc/e2undo.c`, without the option to force it: the header and the superblock are
checked, the keys are loaded, and then the data of each key is written where it came from. The
keys are sorted before that with a comparison that is no order on 64-bit numbers, so the model
replays them in any order.
-/

namespace E2fsprogs

/-- `struct undo_key_info`. -/
structure UndoKeyInfo where
  fsblk : ℕ
  fileblk : ℕ
  blkCrc : ℕ
  size : ℕ

/-- The keys of a key block with their places, from block `lblk` on, and where the next key block
is. Each key's data is checked. -/
def loadKeyBlock (bytes : Block) (blockSize : ℕ) : List UndoKey → ℕ → Option (List UndoKeyInfo × ℕ)
  | [], lblk => some ([], lblk)
  | key :: keys, lblk =>
    if e2undoMaxExtentBlocks * blockSize < key.size then none
    else if blockCrc (fromPos bytes (lblk * blockSize)) key.size ≠ key.blkCrc then none
    else
      (loadKeyBlock bytes blockSize keys (lblk + (key.size + blockSize - 1) / blockSize)).map
        fun r =>
        (⟨key.fsblk, lblk, key.blkCrc, key.size⟩ :: r.1, r.2)

/-- The loop that loads the keys, with `numKeys - i` of them to go. Each round is of at least one
key. -/
def loadKeys (bytes : Block) (blockSize : ℕ) : ℕ → ℕ → ℕ → Option (List UndoKeyInfo)
  | 0, _, _ => some []
  | fuel + 1, left, lblk =>
    if left = 0 then some []
    else
      let keyb := memcpy zeroBlock 0 (fromPos bytes (lblk * blockSize)) blockSize
      if getLe keyb 0 4 ≠ keyblockMagic then none
      else if blockCrc (putLe keyb 4 4 0) blockSize ≠ getLe keyb 4 4 then none
      else
        let n := min left (keysPerBlock blockSize)
        (loadKeyBlock bytes blockSize ((List.range n).map (getKey keyb)) (lblk + 1)).bind fun r =>
          (loadKeys bytes blockSize fuel (left - n) r.2).map fun rest => r.1 ++ rest

/-- `check_filesystem`: the superblock is the one that was recorded last. -/
def checkFilesystem (header : UndoHeader) (bytes : Block) (offset : ℕ) (dev : Block) : Bool :=
  let super := memcpy zeroBlock 0 (fromPos dev (offset + superblockSize)) superblockSize
  let recorded := flipMagic
    (memcpy zeroBlock 0 (fromPos bytes (header.superOffset * header.blockSize)) superblockSize)
  bytesOf super superblockSize == bytesOf recorded superblockSize &&
    blockCrc recorded superblockSize == header.sbCrc

/-- The offset `e2undo` gives the channel. -/
def UndoHeader.replayOffset (header : UndoHeader) : ℕ :=
  if header.hasFsOffset then header.fsOffset else 0

/-- The keys that `e2undo` loads, when it does not give up before it has written anything. -/
def e2undoKeys (file : UndoFile) (dev : Block) : Option (UndoHeader × List UndoKeyInfo) :=
  match file.header with
  | none => none
  | some header =>
    if header.blockSize = 0 ∨ header.fsBlockSize = 0 then none
    else if e2undoMaxBlockSize < header.blockSize ∨ header.blockSize < e2undoMinBlockSize then none
    else if checkFilesystem header file.bytes header.replayOffset dev = false then none
    else (loadKeys file.bytes header.blockSize header.numKeys header.numKeys header.keyOffset).map
      fun keys => (header, keys)

/-- The data of a key written where it came from. -/
def replayKey (header : UndoHeader) (bytes dev : Block) (key : UndoKeyInfo) : Block :=
  memcpy dev (key.fsblk * header.fsBlockSize + header.replayOffset)
    (fromPos bytes (key.fileblk * header.blockSize)) key.size

/-- **What `e2undo` may make of a device**: it gives up and leaves it, or replays the keys in some
order. -/
def E2undoMakes (file : UndoFile) (dev dev' : Block) : Prop :=
  match e2undoKeys file dev with
  | none => dev' = dev
  | some (header, keys) => ∃ sorted : List UndoKeyInfo, sorted.Perm keys ∧
      dev' = sorted.foldl (replayKey header file.bytes) dev

end E2fsprogs
