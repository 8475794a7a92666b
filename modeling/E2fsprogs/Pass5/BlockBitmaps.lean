import E2fsprogs.Lib.Loop

/-!
# The block bitmap in pass 5

`check_block_bitmaps` of `e2fsck/pass5.c`. The blocks that the earlier passes have found in use are
compared with the block bitmap of the file system, cluster by cluster or, on a fast path, group by
group; free blocks are counted on the way and handed to the device to be discarded. When the bitmaps
differ the one is copied over the other and all is counted again.
-/

namespace E2fsprogs

/-- The fields of the superblock that the pass reads. -/
structure BitmapGeometry where
  firstDataBlock : ℕ
  blocksCount : ℕ
  clustersPerGroup : ℕ
  groupDescCount : ℕ
  clusterBits : ℕ
  has64bit : Bool

/-- `PR_5_BLOCK_UNUSED` and `PR_5_BLOCK_USED`. -/
inductive BitmapProblem where
  | blockUnused
  | blockUsed
  deriving DecidableEq

/-- What the pass asks before it changes something. -/
inductive BitmapQuestion where
  | blockUninit
  | latchBbitmap
  | freeBlockCountGroup
  | freeBlockCount

/-- What the pass finds outside: the blocks in use, the answers of the user, and the device, for
which `discardFails` says whether a call of `io_channel_discard` fails. -/
structure BitmapEnv where
  found : ℕ → Bool
  answer : BitmapQuestion → Bool
  discardFails : ℕ → ℕ → Bool

/-- The variables of the counting loop. `hadProblem` is an `int`; `run` is the run of equal problems
not yet printed, with its first and its last block, and `discarded` the calls of
`io_channel_discard`. -/
structure CountState where
  group : ℕ
  blocks : ℕ
  freeBlocks : ℕ
  firstFree : ℕ
  groupFree : ℕ
  freeArray : ℕ → ℕ
  hadProblem : ℕ
  run : Option (BitmapProblem × ℕ × ℕ)
  printed : List (BitmapProblem × ℕ × ℕ)
  blockUninit : ℕ → Bool
  discard : Bool
  discarded : List (ℕ × ℕ)

variable (g : BitmapGeometry) (env : BitmapEnv)

/-- `EXT2FS_CLUSTER_RATIO`. -/
def BitmapGeometry.ratio : ℕ := 2 ^ g.clusterBits

/-! ### The counting loop -/

/-- `e2fsck_discard_blocks`. -/
def CountState.discardBlocks (changed : Bool) (st : CountState) (start count : ℕ) : CountState :=
  if st.discard && !changed then
    { st with
      discard := !env.discardFails start count
      discarded := st.discarded ++ [(start, count)] }
  else { st with discard := false }

/-- A cluster on which the bitmaps differ. -/
def CountState.note (st : CountState) (i : ℕ) (problem : BitmapProblem) : CountState :=
  let st := { st with
    blockUninit := if problem = BitmapProblem.blockUsed ∧ st.blockUninit st.group ∧
      env.answer .blockUninit then
      Function.update st.blockUninit st.group false else st.blockUninit
    hadProblem := (st.hadProblem + 1) % 2 ^ 32
    discard := false }
  match st.run with
  | none => { st with run := some (problem, i, i) }
  | some (save, blk, blk2) =>
    if problem = save ∧ blk2 + g.ratio = i then { st with run := some (save, blk, blk2 + g.ratio) }
    else { st with run := some (problem, i, i), printed := st.printed ++ [(save, blk, blk2)] }

/-- A cluster is counted. -/
def CountState.count (changed : Bool) (st : CountState) (i : ℕ) (bitmap : Bool) : CountState :=
  let st := if !bitmap then
      { st with
        groupFree := st.groupFree + 1
        freeBlocks := st.freeBlocks + 1
        firstFree := if i < st.firstFree then i else st.firstFree }
    else if st.firstFree < i then
      { st.discardBlocks env changed st.firstFree (i - st.firstFree) with
        firstFree := g.blocksCount }
    else st
  { st with blocks := st.blocks + 1 }

/-- The end of a group. -/
def CountState.nextGroup (st : CountState) : CountState :=
  { st with
    firstFree := g.blocksCount
    freeArray := Function.update st.freeArray st.group st.groupFree
    group := st.group + 1
    blocks := 0
    groupFree := 0 }

/-- The bits that `ext2fs_get_block_bitmap_range2` puts in a buffer, as far as its first
`s_clusters_per_group / 8` bytes. -/
def bitmapRange (map : ℕ → Bool) (c : ℕ) : List Bool :=
  ((List.range g.clustersPerGroup).map fun k => map (c + k)).take (8 * (g.clustersPerGroup / 8))

/-- A round of the counting loop, for the cluster that begins with block `i`. -/
def countStep (changed redo : Bool) (map : ℕ → Bool) (i : ℕ) (st : CountState) : ℕ × CountState :=
  let actual := env.found (i / g.ratio)
  if (i / g.ratio - g.firstDataBlock / g.ratio) % g.clustersPerGroup = 0 ∧
    st.group ≠ g.groupDescCount - 1 ∧
    st.discard = false ∧ bitmapRange g env.found (i / g.ratio) = bitmapRange g map
      (i / g.ratio) then
    let groupFree := g.clustersPerGroup - (bitmapRange g env.found (i / g.ratio)).count true
    (i + (g.clustersPerGroup - 1) * g.ratio + g.ratio,
      CountState.nextGroup g
        { st with groupFree := groupFree, freeBlocks := st.freeBlocks + groupFree })
  else
    let bitmap := if redo then actual else map (i / g.ratio)
    let st := if actual = bitmap then st
      else st.note g env i (if !actual && bitmap then .blockUnused else .blockUsed)
    let st := st.count g env changed i bitmap
    if st.blocks = g.clustersPerGroup ∨ i / g.ratio = (g.blocksCount - 1) / g.ratio then
      let st := if !bitmap ∧ st.firstFree ≤ i then
        st.discardBlocks env changed st.firstFree (i - st.firstFree + 1) else st
      (i + g.ratio, st.nextGroup g)
    else (i + g.ratio, st)

/-- The counting loop, of at most `n` rounds. -/
def countLoop (changed redo : Bool) (map : ℕ → Bool) : ℕ → ℕ → CountState → Option CountState
  | 0, _, _ => none
  | n + 1, i, st =>
    if i < g.blocksCount then
      countLoop changed redo map n (countStep g env changed redo map i st).1
        (countStep g env changed redo map i st).2
    else some st

/-! ### The pass -/

/-- The parts of the file system that the pass may change. -/
structure BitmapFs where
  map : ℕ → Bool
  bgFreeBlocksCount : ℕ → ℕ
  freeBlocksCount : ℕ
  valid : Bool
  changed : Bool

/-- The start of a count, at `redo_counts`. The counters are clear, the others keep their values. -/
def CountState.restart (st : CountState) : CountState :=
  { st with
    blocks := 0
    freeBlocks := 0
    groupFree := 0
    group := 0
    freeArray := fun _ => 0
    hadProblem := 0
    run := none }

/-- What is not yet printed is printed. -/
def CountState.printRun (st : CountState) : CountState :=
  match st.run with
  | none => st
  | some r => { st with run := none, printed := st.printed ++ [r] }

/-- The found blocks as the new bitmap, with its padding set. -/
def copyFound : ℕ → Bool := fun c =>
  env.found c || (decide ((g.blocksCount - 1) / g.ratio < c) &&
    decide (c < g.firstDataBlock / g.ratio + g.groupDescCount * g.clustersPerGroup))

/-- The counts, again and again until the bitmaps are left alone, `n` times at most. The second
component of the result says whether a count has reported a problem. -/
def redoCounts : ℕ → Bool → BitmapFs → CountState → Option (BitmapFs × Bool × CountState)
  | 0, _, _, _ => none
  | n + 1, redo, fs, st =>
    (countLoop g env fs.changed redo fs.map (g.blocksCount + 1)
      (g.firstDataBlock / g.ratio) st.restart).bind fun st =>
      let st := st.printRun
      if st.hadProblem = 0 then some (fs, false, st)
      else if env.answer .latchBbitmap then
        (redoCounts n true { fs with map := copyFound g env, changed := true } st).map fun r =>
          (r.1, true, r.2.2)
      else some ({ fs with valid := false }, true, st)

/-- `ext2fs_bg_free_blocks_count_set` and `ext2fs_free_blocks_count_set` keep as much as there is
room for. -/
def BitmapGeometry.truncate (width n : ℕ) : ℕ := n % 2 ^ (if g.has64bit then 2 * width else width)

/-- The counts of the groups and of the superblock are set. -/
def setCounts (fs : BitmapFs) (st : CountState) : BitmapFs :=
  let fs := { fs with
    bgFreeBlocksCount := fun gr =>
      if gr < g.groupDescCount ∧ st.freeArray gr ≠ fs.bgFreeBlocksCount gr ∧
        env.answer .freeBlockCountGroup then
        g.truncate 16 (st.freeArray gr)
      else fs.bgFreeBlocksCount gr
    valid := fs.valid && (List.range g.groupDescCount).all fun gr =>
      decide (st.freeArray gr = fs.bgFreeBlocksCount gr) || env.answer .freeBlockCountGroup }
  let freeBlocks := st.freeBlocks * g.ratio
  if freeBlocks ≠ fs.freeBlocksCount ∧ env.answer .freeBlockCount then
    { fs with freeBlocksCount := g.truncate 32 freeBlocks }
  else fs

/-- `check_block_bitmaps`. The result is the file system, whether a problem was reported, and the
calls of `io_channel_discard`. -/
def checkBlockBitmaps (fs : BitmapFs) (blockUninit : ℕ → Bool) (discard : Bool) :
    Option (BitmapFs × Bool × List (ℕ × ℕ)) :=
  let st : CountState :=
    { group := 0, blocks := 0, freeBlocks := 0, firstFree := g.blocksCount, groupFree := 0,
      freeArray := fun _ => 0, hadProblem := 0, run := none, printed := [],
      blockUninit := blockUninit,
      discard := discard, discarded := [] }
  (redoCounts g env 2 false fs st).map fun r => (setCounts g env r.1 r.2.2, r.2.1, r.2.2.discarded)

end E2fsprogs
