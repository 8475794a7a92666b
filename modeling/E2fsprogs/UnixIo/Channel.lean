import E2fsprogs.Lib.Memcpy

/-!
# The unix I/O manager

`lib/ext2fs/unix_io.c`: a channel reads and writes blocks of a device through a cache of eight
blocks. Transfers of more than four blocks and those counted in bytes (a negative count) bypass
the cache, after it has been written back.

The device is an array of bytes. What it may do wrong, and how the buffers of the caller lie in
memory, is an environment (`E2fsprogs.UnixEnv`) that is asked once per transfer. A transfer past
the end of the device is one that fails.
-/

namespace E2fsprogs

/-- `struct unix_cache`. -/
structure UnixCache where
  buf : Block
  block : ℕ
  accessTime : ℕ
  dirty : Bool
  inUse : Bool

/-- `CACHE_SIZE`. -/
def cacheSize : ℕ := 8

/-- `WRITE_DIRECT_SIZE`. -/
def writeDirectSize : ℤ := 4

/-- An open channel: `struct struct_io_channel`, `struct unix_private_data` and the device. -/
structure UnixChannel where
  blockSize : ℕ
  align : ℕ
  /-- `data->offset`. -/
  offset : ℕ
  /-- `IO_FLAG_NOCACHE`. -/
  noCache : Bool
  /-- `IO_FLAG_FORCE_BOUNCE`. -/
  forceBounce : Bool
  accessTime : ℕ
  cache : Fin cacheSize → UnixCache
  bounce : Block
  dev : Block
  /-- How many transfers there have been: the environment is asked by this number. -/
  transfers : ℕ
  /-- How many raw writes have failed. No code looks at it. -/
  writeErrors : ℕ

/-- Where a raw write comes from. -/
inductive WriteSite
  /-- `reuse_cache`. -/
  | reuse
  /-- `flush_cached_blocks`. -/
  | flush
  /-- A write of the caller's data. -/
  | direct
  deriving DecidableEq

/-- What a channel finds outside, transfer by transfer. -/
structure UnixEnv where
  readFails : ℕ → Bool
  writeFails : WriteSite → ℕ → Bool
  /-- How many bytes a failing write transfers. -/
  torn : ℕ → ℕ
  /-- Whether the address of the buffer is a multiple of `channel->align`. -/
  bufAligned : ℕ → Bool
  fsyncFails : ℕ → Bool
  /-- `UNIX_IO_NOZEROOUT` is set. -/
  noZeroout : Bool

/-- The errors a channel returns. -/
inductive UnixErr
  | io
  | unimplemented
  deriving DecidableEq

/-- How many bytes a count means. -/
def transferSize (blockSize : ℕ) (count : ℤ) : ℕ :=
  if count < 0 then (-count).toNat else count.toNat * blockSize

/-- The place of a block on the device. -/
def UnixChannel.location (ch : UnixChannel) (block : ℕ) : ℕ := block * ch.blockSize + ch.offset

/-! ### Raw I/O -/

/-- Whether a transfer goes directly between the device and the buffer. -/
def UnixChannel.directly (env : UnixEnv) (ch : UnixChannel) (location size : ℕ) : Bool :=
  !ch.forceBounce && (ch.align == 0 ||
    (env.bufAligned ch.transfers && location % ch.align == 0 && size % ch.align == 0))

/-- `channel->align` as the bounce buffer is used. -/
def UnixChannel.bounceAlign (ch : UnixChannel) : ℕ := if ch.align = 0 then 1 else ch.align

/-- `align_size`. -/
def UnixChannel.alignSize (ch : UnixChannel) : ℕ :=
  if ch.bounceAlign < ch.blockSize ∧ ch.blockSize % ch.bounceAlign = 0 then ch.blockSize
  else ch.bounceAlign

/-- The loop of `bounce_read`: `size` bytes still go to position `pos` of `buf`. -/
def bounceRead (dev : Block) (alignSize : ℕ) : ℕ → ℕ → ℕ → ℕ → ℕ → Block → Block
  | 0, _, _, _, _, buf => buf
  | fuel + 1, alignedBlk, offset, size, pos, buf =>
    if size = 0 then buf
    else
      let actual := min (alignSize - offset) size
      bounceRead dev alignSize fuel (alignedBlk + 1) 0 (size - actual) (pos + actual)
        (memcpy buf pos (fromPos dev (alignedBlk * alignSize + offset)) actual)

/-- The loop of `bounce_write`, with the bounce buffer and the device. A chunk that is not
written whole is read before. -/
def bounceWrite (alignSize : ℕ) : ℕ → ℕ → ℕ → ℕ → Block → Block → Block → Block × Block
  | 0, _, _, _, _, bounce, dev => (bounce, dev)
  | fuel + 1, alignedBlk, offset, size, buf, bounce, dev =>
    if size = 0 then (bounce, dev)
    else
      let bounce := if size < alignSize ∨ offset ≠ 0 then
        memcpy bounce 0 (fromPos dev (alignedBlk * alignSize)) alignSize else bounce
      let actual := min (alignSize - offset) size
      let bounce := memcpy bounce offset buf actual
      bounceWrite alignSize fuel (alignedBlk + 1) 0 (size - actual) (fromPos buf actual) bounce
        (memcpy dev (alignedBlk * alignSize) bounce alignSize)

/-- `raw_read_blk`, into position `pos` of a buffer. -/
def rawReadBlk (env : UnixEnv) (ch : UnixChannel) (block : ℕ) (count : ℤ) (buf : Block) (pos : ℕ) :
    Option Block × UnixChannel :=
  let size := transferSize ch.blockSize count
  let location := ch.location block
  let next := { ch with transfers := ch.transfers + 1 }
  if env.readFails ch.transfers then (none, next)
  else if ch.directly env location size then
    (some (memcpy buf pos (fromPos ch.dev location) size), next)
  else
    (some (bounceRead ch.dev ch.alignSize size (location / ch.alignSize) (location % ch.alignSize)
      size pos buf), { next with align := ch.bounceAlign })

/-- `raw_write_blk`. -/
def rawWriteBlk (env : UnixEnv) (site : WriteSite) (ch : UnixChannel) (block : ℕ) (count : ℤ)
    (buf : Block) : Bool × UnixChannel :=
  let size := transferSize ch.blockSize count
  let location := ch.location block
  let next := { ch with transfers := ch.transfers + 1 }
  if env.writeFails site ch.transfers then
    (false, { next with
      dev := memcpy ch.dev location buf (min (env.torn ch.transfers) size)
      writeErrors := ch.writeErrors + 1 })
  else if ch.directly env location size then
    (true, { next with dev := memcpy ch.dev location buf size })
  else
    let r := bounceWrite ch.alignSize size (location / ch.alignSize) (location % ch.alignSize) size
      buf ch.bounce ch.dev
    (true, { next with align := ch.bounceAlign, bounce := r.1, dev := r.2 })

/-! ### The cache -/

/-- One entry of the cache changed. -/
def UnixChannel.setEntry (ch : UnixChannel) (i : Fin cacheSize) (e : UnixCache) : UnixChannel :=
  { ch with cache := Function.update ch.cache i e }

/-- `cache->access_time = ++data->access_time`. -/
def UnixChannel.touch (ch : UnixChannel) (i : Fin cacheSize) : UnixChannel :=
  let ch := { ch with accessTime := ch.accessTime + 1 }
  ch.setEntry i { ch.cache i with accessTime := ch.accessTime }

/-- The loop of `find_cached_block`: the entry of the block, or else the one to be reused. The
cache is not empty, so one of `unused_cache` and `oldest_cache` is there at the end. -/
def findEntry (cache : Fin cacheSize → UnixCache) (block : ℕ) :
    List (Fin cacheSize) → Option (Fin cacheSize) → Option (Fin cacheSize) →
      Fin cacheSize ⊕ Fin cacheSize
  | [], unused, oldest => .inr ((unused.or oldest).getD ⟨0, by decide⟩)
  | i :: is, unused, oldest =>
    if !(cache i).inUse then findEntry cache block is (unused.or (some i)) oldest
    else if (cache i).block = block then .inl i
    else findEntry cache block is unused (match oldest with
      | none => some i
      | some o => if (cache i).accessTime < (cache o).accessTime then some i else some o)

/-- `find_cached_block`. -/
def findCachedBlock (ch : UnixChannel) (block : ℕ) :
    (Fin cacheSize ⊕ Fin cacheSize) × UnixChannel :=
  match findEntry ch.cache block (List.finRange cacheSize) none none with
  | .inl i => (.inl i, ch.touch i)
  | .inr i => (.inr i, ch)

/-- `reuse_cache`: whether the old block could be written is not asked. -/
def reuseCache (env : UnixEnv) (ch : UnixChannel) (i : Fin cacheSize) (block : ℕ) : UnixChannel :=
  let e := ch.cache i
  let ch := if e.dirty && e.inUse then (rawWriteBlk env .reuse ch e.block 1 e.buf).2 else ch
  (ch.setEntry i { e with inUse := true, dirty := false, block := block }).touch i

/-- One round of the loop of `flush_cached_blocks`: whether the write, if there was one,
succeeded. -/
def flushEntry (env : UnixEnv) (invalidate : Bool) (ch : UnixChannel) (i : Fin cacheSize) :
    Bool × UnixChannel :=
  if !(ch.cache i).inUse then (true, ch)
  else
    let ch := if invalidate then ch.setEntry i { ch.cache i with inUse := false } else ch
    if !(ch.cache i).dirty then (true, ch)
    else
      let r := rawWriteBlk env .flush ch (ch.cache i).block 1 (ch.cache i).buf
      if r.1 then (true, r.2.setEntry i { r.2.cache i with dirty := false }) else (false, r.2)

/-- The loop of `flush_cached_blocks`. -/
def flushEntries (env : UnixEnv) (invalidate : Bool) :
    List (Fin cacheSize) → UnixChannel → Bool × UnixChannel
  | [], ch => (true, ch)
  | i :: is, ch =>
    let r := flushEntry env invalidate ch i
    let rest := flushEntries env invalidate is r.2
    (r.1 && rest.1, rest.2)

/-- `flush_cached_blocks`: whether all writes succeeded. -/
def flushCachedBlocks (env : UnixEnv) (invalidate : Bool) (ch : UnixChannel) : Bool × UnixChannel :=
  flushEntries env invalidate (List.finRange cacheSize) ch

/-! ### Reading and writing blocks -/

/-- The number of blocks from `block` on that are not cached, at least `i` and at most
`i + left`. -/
def uncachedRun (block : ℕ) : ℕ → ℕ → UnixChannel → ℕ × UnixChannel
  | 0, i, ch => (i, ch)
  | left + 1, i, ch =>
    match findCachedBlock ch (block + i) with
    | (.inl _, ch) => (i, ch)
    | (.inr _, ch) => uncachedRun block left (i + 1) ch

/-- The loop that saves `n` blocks, read to position `pos` of the buffer, in the cache. -/
def saveBlocks (env : UnixEnv) (buf : Block) : ℕ → ℕ → ℕ → UnixChannel → UnixChannel
  | 0, _, _, ch => ch
  | n + 1, block, pos, ch =>
    match findCachedBlock ch block with
    | (.inl _, ch) => saveBlocks env buf n (block + 1) (pos + ch.blockSize) ch
    | (.inr i, ch) =>
      let ch := reuseCache env ch i block
      let ch := ch.setEntry i { ch.cache i with
        buf := memcpy (ch.cache i).buf 0 (fromPos buf pos) ch.blockSize }
      saveBlocks env buf n (block + 1) (pos + ch.blockSize) ch

/-- The main loop of `unix_read_blk64`, with `count` blocks to go to position `pos`. Each round
is of at least one block. -/
def readBlocks (env : UnixEnv) : ℕ → ℕ → ℕ → ℕ → Block → UnixChannel →
    Except UnixErr Block × UnixChannel
  | 0, _, _, _, buf, ch => (.ok buf, ch)
  | fuel + 1, block, count, pos, buf, ch =>
    if count = 0 then (.ok buf, ch)
    else
      match findCachedBlock ch block with
      | (.inl i, ch) =>
        readBlocks env fuel (block + 1) (count - 1) (pos + ch.blockSize)
          (memcpy buf pos (ch.cache i).buf ch.blockSize) ch
      | (.inr _, ch) =>
        let run := uncachedRun block (count - 1) 1 ch
        match rawReadBlk env run.2 block run.1 buf pos with
        | (none, ch) => (.error .io, ch)
        | (some buf, ch) =>
          readBlocks env fuel (block + run.1) (count - run.1) (pos + run.1 * ch.blockSize) buf
            (saveBlocks env buf run.1 block pos ch)

/-- A raw read with the error it returns. -/
def rawRead (env : UnixEnv) (ch : UnixChannel) (block : ℕ) (count : ℤ) (buf : Block) :
    Except UnixErr Block × UnixChannel :=
  match rawReadBlk env ch block count buf 0 with
  | (some buf, ch) => (.ok buf, ch)
  | (none, ch) => (.error .io, ch)

/-- `unix_read_blk64`. -/
def unixReadBlk64 (env : UnixEnv) (ch : UnixChannel) (block : ℕ) (count : ℤ) (buf : Block) :
    Except UnixErr Block × UnixChannel :=
  if ch.noCache then rawRead env ch block count buf
  else if count < 0 ∨ writeDirectSize < count then
    match flushCachedBlocks env false ch with
    | (true, ch) => rawRead env ch block count buf
    | (false, ch) => (.error .io, ch)
  else readBlocks env count.toNat block count.toNat 0 buf ch

/-- A block stored in an entry by `unix_write_blk64`. -/
def UnixChannel.store (ch : UnixChannel) (i : Fin cacheSize) (buf : Block) (dirty : Bool) :
    UnixChannel :=
  ch.setEntry i { ch.cache i with
    buf := memcpy (ch.cache i).buf 0 buf ch.blockSize, dirty := dirty }

/-- One round of the loop of `unix_write_blk64` that fills the cache. -/
def fillBlock (env : UnixEnv) (writethrough : Bool) (ch : UnixChannel) (block : ℕ) (buf : Block) :
    UnixChannel :=
  match findCachedBlock ch block with
  | (.inl i, ch) => ch.store i buf (!writethrough)
  | (.inr i, ch) => (reuseCache env ch i block).store i buf (!writethrough)

/-- The loop of `unix_write_blk64` that fills the cache. -/
def fillCache (env : UnixEnv) (writethrough : Bool) : ℕ → ℕ → Block → UnixChannel → UnixChannel
  | 0, _, _, ch => ch
  | count + 1, block, buf, ch =>
    fillCache env writethrough count (block + 1) (fromPos buf ch.blockSize)
      (fillBlock env writethrough ch block buf)

/-- A raw write with the error it returns. -/
def rawWrite (env : UnixEnv) (ch : UnixChannel) (block : ℕ) (count : ℤ) (buf : Block) :
    Except UnixErr Unit × UnixChannel :=
  match rawWriteBlk env .direct ch block count buf with
  | (true, ch) => (.ok (), ch)
  | (false, ch) => (.error .io, ch)

/-- `unix_write_blk64`, where `writethrough` is `CHANNEL_FLAGS_WRITETHROUGH` at the time of the
call. -/
def unixWriteBlk64 (env : UnixEnv) (writethrough : Bool) (ch : UnixChannel) (block : ℕ) (count : ℤ)
    (buf : Block) : Except UnixErr Unit × UnixChannel :=
  if ch.noCache then rawWrite env ch block count buf
  else if count < 0 ∨ writeDirectSize < count then
    match flushCachedBlocks env true ch with
    | (true, ch) => rawWrite env ch block count buf
    | (false, ch) => (.error .io, ch)
  else
    let r := if writethrough then rawWrite env ch block count buf else (.ok (), ch)
    (r.1, fillCache env writethrough count.toNat block buf r.2)

/-- `unix_write_byte`. -/
def unixWriteByte (env : UnixEnv) (ch : UnixChannel) (offset size : ℕ) (buf : Block) :
    Except UnixErr Unit × UnixChannel :=
  if ch.align ≠ 0 then (.error .unimplemented, ch)
  else
    match flushCachedBlocks env true ch with
    | (false, ch) => (.error .io, ch)
    | (true, ch) =>
      let next := { ch with transfers := ch.transfers + 1 }
      if env.writeFails .direct ch.transfers then
        (.error .io, { next with
          dev := memcpy ch.dev (offset + ch.offset) buf (min (env.torn ch.transfers) size)
          writeErrors := ch.writeErrors + 1 })
      else (.ok (), { next with dev := memcpy ch.dev (offset + ch.offset) buf size })

/-- `free_cache` and `alloc_cache`. -/
def emptyCache : Fin cacheSize → UnixCache := fun _ =>
  { buf := zeroBlock, block := 0, accessTime := 0, dirty := false, inUse := false }

/-- `unix_set_blksize`. -/
def unixSetBlksize (env : UnixEnv) (ch : UnixChannel) (blksize : ℕ) :
    Except UnixErr Unit × UnixChannel :=
  if ch.blockSize = blksize then (.ok (), ch)
  else
    match flushCachedBlocks env false ch with
    | (false, ch) => (.error .io, ch)
    | (true, ch) => (.ok (), { ch with blockSize := blksize, accessTime := 0, cache := emptyCache })

/-- `unix_flush`. -/
def unixFlush (env : UnixEnv) (ch : UnixChannel) : Except UnixErr Unit × UnixChannel :=
  match flushCachedBlocks env false ch with
  | (false, ch) => (.error .io, ch)
  | (true, ch) =>
    (if env.fsyncFails ch.transfers then .error .io
      else .ok (), { ch with transfers := ch.transfers + 1 })

/-- `unix_set_option` with `cache=on` and `cache=off`. -/
def unixSetCache (env : UnixEnv) (ch : UnixChannel) (on : Bool) :
    Except UnixErr Unit × UnixChannel :=
  if on then (.ok (), { ch with noCache := false })
  else
    let r := flushCachedBlocks env false ch
    (if r.1 then .ok () else .error .io, { r.2 with noCache := true })

/-- A range of blocks made zero by `fallocate` or the `BLKDISCARD` of a device where what is
discarded reads as zero. The bytes after the end of a file count as zero, so that extending it
changes none. -/
def zeroRange (env : UnixEnv) (ch : UnixChannel) (block count : ℕ) :
    Except UnixErr Unit × UnixChannel :=
  let next := { ch with transfers := ch.transfers + 1 }
  if env.writeFails .direct ch.transfers then (.error .io, next)
  else (.ok (), { next with
    dev := memcpy ch.dev (ch.location block) zeroBlock (count * ch.blockSize) })

/-- `unix_discard`. -/
def unixDiscard (env : UnixEnv) (ch : UnixChannel) (block count : ℕ) :
    Except UnixErr Unit × UnixChannel := zeroRange env ch block count

/-- `unix_zeroout`. -/
def unixZeroout (env : UnixEnv) (ch : UnixChannel) (block count : ℕ) :
    Except UnixErr Unit × UnixChannel :=
  if env.noZeroout then (.error .unimplemented, ch) else zeroRange env ch block count

end E2fsprogs
