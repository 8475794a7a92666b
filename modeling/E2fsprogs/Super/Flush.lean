import E2fsprogs.Lib.Crc32
import E2fsprogs.Lib.Fallible
import E2fsprogs.Lib.Memcpy
import E2fsprogs.Resize.Backups

/-!
# Writing the superblocks

`ext2fs_flush2` of `lib/ext2fs/closefs.c`. It edits the superblock in memory for the time that the
backups are written from it: the state is not valid and the journal needs no recovery. Then the edit
is undone and the primary superblock is written, of which only the words that have changed go to the
disk.

If a write for a group fails, the state is put back but not the feature.
-/

namespace E2fsprogs

/-- What `ext2fs_flush2` fails with. -/
inductive FlushErr
  | noGroupDesc
  | unimplemented
  | io (code : ℕ)
  deriving DecidableEq

/-- What a write comes to. Where it fails it leaves anything in its range. -/
inductive WriteOutcome
  | done
  | fails (e : FlushErr) (torn : Block)

/-- The handle, as far as it stays as it is. -/
structure FlushFs where
  blocksize : ℕ
  groupDescCount : ℕ
  descBlocks : ℕ
  superOnly : Bool
  masterSbOnly : Bool
  /-- The time that is written. -/
  wtime : ℕ

/-- What every call to the channel comes to, and to `write_bitmaps`, which is given the disk and the
descriptors. -/
structure FlushIo where
  writeBitmaps : Option (Block → Option Block → Option FlushErr × Block × Option Block)
  backup : ℕ → WriteOutcome
  oldDesc : ℕ → WriteOutcome
  newDesc : ℕ → WriteOutcome
  flushFirst : Option FlushErr
  /-- `write_byte`, for the words that begin with a word. -/
  writeByte : Option (ℕ → WriteOutcome)
  whole : WriteOutcome
  flushLast : Option FlushErr

/-- What `ext2fs_flush2` changes, and the backups that are written. -/
structure FlushState where
  super : Block
  origSuper : Option Block
  groupDesc : Option Block
  disk : Block
  dirty : Bool
  backups : List (ℕ × Block)

/-- The fields of a superblock that say where the blocks of the groups are. -/
structure SuperLayout where
  firstDataBlock : ℕ
  blocksPerGroup : ℕ
  metaBg : Bool
  firstMetaBg : ℕ
  descSize : ℕ
  sparseSuper : Bool
  sparseSuper2 : Bool
  backupBgs : ℕ × ℕ

abbrev FlushM := ExceptT FlushErr (StateM FlushState)

/-! ### The superblock -/

section Super

variable (s : Block)

/-- `s_state`. -/
def sbState : ℕ := getLe s 58 2

/-- `s_feature_compat`. -/
def sbCompat : ℕ := getLe s 92 4

/-- `s_feature_incompat`. -/
def sbIncompat : ℕ := getLe s 96 4

/-- `s_feature_ro_compat`. -/
def sbRoCompat : ℕ := getLe s 100 4

def hasNeedsRecovery : Bool := (sbIncompat s).testBit 2

def hasJournalDev : Bool := (sbIncompat s).testBit 3

def layoutOf : SuperLayout where
  firstDataBlock := getLe s 20 4
  blocksPerGroup := getLe s 32 4
  metaBg := (sbIncompat s).testBit 4
  firstMetaBg := getLe s 260 4
  descSize := if (sbIncompat s).testBit 7 then getLe s 254 2 else 32
  sparseSuper := (sbRoCompat s).testBit 0
  sparseSuper2 := (sbCompat s).testBit 9
  backupBgs := (getLe s 588 4, getLe s 592 4)

/-- `ext2fs_superblock_csum_set`. -/
def superblockCsumSet : Block :=
  if (sbRoCompat s).testBit 10 then putLe s 1020 4 (ext2fsCrc32cLe 0xffffffff (bytesOf s 1020))
  else s

/-- The edit for the backups: `EXT2_VALID_FS` and `needs_recovery` are cleared. -/
def invalidated : Block :=
  let s := putLe s 58 2 (sbState s &&& 0xfffe)
  putLe s 96 4 (sbIncompat s &&& 0xfffffffb)

/-- The `i`-th word of 16 bits. -/
def sbWord (i : ℕ) : ℕ := getLe s (2 * i) 2

end Super

/-! ### The writes -/

section Flush

variable (fs : FlushFs) (io : FlushIo)

/-- A write of `len` bytes to position `pos`. -/
def writeDisk (r : WriteOutcome) (pos : ℕ) (src : Block) (len : ℕ) : FlushM Unit := fun st =>
  match r with
  | .done => (.ok (), { st with disk := memcpy st.disk pos src len })
  | .fails e torn => (.error e, { st with disk := memcpy st.disk pos torn len })

/-- A call that only fails or not. -/
def flushStatus : Option FlushErr → FlushM Unit
  | none => pure ()
  | some e => throw e

/-- `fs->write_bitmaps`. -/
def writeBitmaps : FlushM Unit := fun st =>
  match io.writeBitmaps with
  | none => (.ok (), st)
  | some f =>
    let st' :=
      { st with disk := (f st.disk st.groupDesc).2.1, groupDesc := (f st.disk st.groupDesc).2.2 }
    match (f st.disk st.groupDesc).1 with
    | none => (.ok (), st')
    | some e => (.error e, st')

/-- `EXT2_DESC_PER_BLOCK`. -/
def descPerBlock (l : SuperLayout) : ℕ := fs.blocksize / l.descSize

/-- `ext2fs_super_and_bgd_loc2`: the block of the superblock, and those of the descriptors, 0 where
there are none. -/
def superAndBgdLoc (l : SuperLayout) (group : ℕ) : ℕ × ℕ × ℕ :=
  let first := l.firstDataBlock + group * l.blocksPerGroup
  let groupBlock := if first = 0 ∧ fs.blocksize = 1024 then 1 else first
  let hasSuper := bgHasSuper ⟨fs.groupDescCount, l.sparseSuper, l.sparseSuper2, l.backupBgs⟩ group
  let superBlk := if hasSuper then groupBlock else 0
  let metaBgSize := descPerBlock fs l
  if l.metaBg = false ∨ group / metaBgSize < l.firstMetaBg then
    (superBlk, if hasSuper then groupBlock + 1 else 0, 0)
  else if group % metaBgSize = 0 ∨ group % metaBgSize = 1 ∨ group % metaBgSize = metaBgSize - 1 then
    (superBlk, 0, groupBlock + if hasSuper then 1 else 0)
  else (superBlk, 0, 0)

/-- `write_backup_super`. -/
def writeBackupSuper (group groupBlock : ℕ) : FlushM Unit := fun st =>
  let super := superblockCsumSet (putLe st.super 90 2 (min group 0xffff))
  writeDisk (io.backup group) (groupBlock * fs.blocksize) super 1024
    { st with super := super, backups := st.backups ++ [(group, super)] }

/-- The blocks of descriptors that are written as one, behind a superblock. -/
def oldDescBlocks (l : SuperLayout) : ℕ :=
  if l.metaBg then min l.firstMetaBg fs.descBlocks else fs.descBlocks

/-- What is written for a group but for its superblock. -/
def writeGroupDescs (group : ℕ) : FlushM Unit := fun st =>
  let l := layoutOf st.super
  let loc := superAndBgdLoc fs l group
  let desc := st.groupDesc.getD zeroBlock
  if fs.superOnly then (.ok (), st)
  else
    ((if loc.2.1 ≠ 0 ∧ (fs.masterSbOnly = false ∨ group = 0) then
        writeDisk (io.oldDesc group) (loc.2.1 * fs.blocksize) desc
          (oldDescBlocks fs l * fs.blocksize)
      else pure ()) >>= fun _ =>
      if loc.2.2 ≠ 0 then
        writeDisk (io.newDesc group) (loc.2.2 * fs.blocksize)
          (fromPos desc (group / descPerBlock fs l * fs.blocksize))
          fs.blocksize
      else pure ()) st

/-- A round of the loop over the groups. -/
def flushGroup (group : ℕ) : FlushM Unit := fun st =>
  let loc := superAndBgdLoc fs (layoutOf st.super) group
  ((if fs.masterSbOnly = false ∧ group ≠ 0 ∧ loc.1 ≠ 0 then writeBackupSuper fs io group loc.1
    else pure ()) >>=
    fun _ => writeGroupDescs fs io group) st

/-- The loop over the groups. -/
def flushGroups : List ℕ → FlushM Unit
  | [] => pure ()
  | group :: groups => flushGroup fs io group >>= fun _ => flushGroups groups

/-! ### The primary superblock -/

/-- Where the words that differ end: at most `n` are looked at. -/
def runEnd (orig super : Block) : ℕ → ℕ → ℕ
  | 0, i => i
  | n + 1, i => if sbWord orig i = sbWord super i then i else runEnd orig super n (i + 1)

/-- The loop of `write_primary_superblock` with at most `n` rounds: whether `write_byte` is
there. -/
def writeDiffs (wb : ℕ → WriteOutcome) (orig super : Block) : ℕ → ℕ → FlushM Bool
  | 0, _ => pure true
  | n + 1, i => fun st =>
    if 512 ≤ i then (.ok true, st)
    else if sbWord orig i = sbWord super i then writeDiffs wb orig super n (i + 1) st
    else
      let stop := runEnd orig super (512 - (i + 1)) (i + 1)
      match writeDisk (wb i) (1024 + 2 * i) (fromPos super (2 * i)) (2 * (stop - i)) st with
      | (.ok _, st') => writeDiffs wb orig super n (stop + 1) st'
      | (.error .unimplemented, st') => (.ok false, st')
      | (.error e, st') => (.error e, st')

/-- The whole superblock is written. -/
def writeWhole : FlushM Unit := fun st => writeDisk io.whole 1024 st.super 1024 st

/-- `write_primary_superblock`. -/
def writePrimarySuperblock : FlushM Unit := fun st =>
  match io.writeByte, st.origSuper with
  | some wb, some orig =>
    (writeDiffs wb orig st.super 512 0 >>= fun bytes =>
      if bytes then fun st' => (.ok (), { st' with origSuper := some st'.super })
      else writeWhole io) st
  | _, _ => writeWhole io st

/-! ### `ext2fs_flush2` -/

/-- From `write_primary_superblock_only` on. -/
def flushPrimary (noSync : Bool) (fsState incompat : ℕ) : FlushM Unit := fun st =>
  let super := putLe (putLe (putLe st.super 90 2 0) 58 2 fsState) 96 4 incompat
  ((if noSync then pure () else flushStatus io.flushFirst) >>= fun _ =>
    writePrimarySuperblock io >>= fun _ =>
    modify (fun st => { st with dirty := false }) >>= fun _ =>
    if noSync then pure () else flushStatus io.flushLast)
      { st with super := superblockCsumSet super }

/-- What is done up to `errout`. -/
def flushBody (noSync : Bool) (fsState incompat : ℕ) : FlushM Unit :=
  writeBitmaps io >>= fun _ st =>
    let super := invalidated st.super
    ((if hasJournalDev super then pure ()
      else flushGroups fs io (List.range fs.groupDescCount)) >>= fun _ =>
      flushPrimary io noSync fsState incompat) { st with super := super }

/-- `ext2fs_flush2`. -/
def flush2 (noSync : Bool) : FlushM Unit := fun st =>
  if fs.superOnly = false ∧ hasJournalDev st.super = false ∧
    st.groupDesc = none then (.error .noGroupDesc, st)
  else
    let fsState := sbState st.super
    let incompat := sbIncompat st.super
    let super := putLe (putLe st.super 48 4 fs.wtime) 90 2 0
    match flushBody fs io noSync fsState incompat { st with super := super } with
    | (r, st') => (r, { st' with super := putLe st'.super 58 2 fsState })

end Flush

end E2fsprogs
