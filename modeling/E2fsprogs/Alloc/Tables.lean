import E2fsprogs.Journal.Format
import E2fsprogs.Lib.Loop

/-!
# Placing the tables of the groups

`ext2fs_allocate_tables` of `lib/ext2fs/alloc_tables.c`, with the search for free blocks of
`lib/ext2fs/alloc.c`. Each group is given a block for its block bitmap, a block for its inode bitmap
and a run of blocks for its inode table. Where the search starts depends on what earlier groups were
given; that it ends in a run of free blocks inside the device does not.

A search may go round for ever; then, as for an error and for a division by zero, there is no
result.
-/

namespace E2fsprogs

/-- The fields of the file system that the tables are placed by. -/
structure TableGeometry where
  firstDataBlock : ℕ
  blocksCount : ℕ
  blocksPerGroup : ℕ
  groupDescCount : ℕ
  inodeBlocksPerGroup : ℕ
  stride : ℕ
  flexBg : Bool
  logGroupsPerFlex : ℕ
  /-- The granularity of the bitmap. -/
  clusterBits : ℕ

/-- The tables of a group. -/
inductive TableKind where
  | blockBitmap
  | inodeBitmap
  | inodeTable
  deriving DecidableEq

/-- The block bitmap, by clusters, the group descriptors and the free count of the superblock. -/
structure TableState where
  map : ℕ → Bool
  loc : TableKind → ℕ → ℕ
  bgFreeBlocksCount : ℕ → ℕ
  blockUninit : ℕ → Bool
  freeBlocksCount : ℕ

variable (g : TableGeometry)

/-- `EXT2FS_CLUSTER_RATIO`. -/
def TableGeometry.ratio : ℕ := 2 ^ g.clusterBits

/-- `ext2fs_group_first_block2`. -/
def groupFirstBlock (group : ℕ) : ℕ := g.firstDataBlock + group * g.blocksPerGroup

/-- `ext2fs_group_last_block2`. -/
def groupLastBlock (group : ℕ) : ℕ :=
  if group = g.groupDescCount - 1 then g.blocksCount - 1
  else groupFirstBlock g group + (g.blocksPerGroup - 1)

/-! ### The bitmap -/

/-- The clusters from the one of block `b` to the end of a run of `num` blocks. -/
def clusterEnd (b num : ℕ) : ℕ := (b + num + g.ratio - 1) / g.ratio

/-- `ext2fs_fast_test_block_bitmap_range2`. For a run that is not inside the bitmap, the error
number it returns counts as true. -/
def testRange (map : ℕ → Bool) (b num : ℕ) : Bool :=
  if b / g.ratio < g.firstDataBlock / g.ratio ∨ (g.blocksCount - 1) / g.ratio < b / g.ratio ∨
    (g.blocksCount - 1) / g.ratio < clusterEnd g b num - 1 then true
  else (List.range' (b / g.ratio) (clusterEnd g b num - b / g.ratio)).all fun c => !map c

/-- `ext2fs_mark_block_bitmap_range2`. -/
def markRange (map : ℕ → Bool) (b num : ℕ) : ℕ → Bool := fun c =>
  map c || (decide (b / g.ratio ≤ c) && decide (c < clusterEnd g b num))

/-- A round of the loop of `ext2fs_get_free_blocks2`. The loop is left with a block or with
`EXT2_ET_BLOCK_ALLOC_FAIL`. -/
def freeStep (map : ℕ → Bool) (start finish num : ℕ) (b : ℕ) : ℕ ⊕ Option ℕ :=
  if g.blocksCount ≤ b + num - 1 ∧ start < finish then .inr none
  else
    let b := if g.blocksCount ≤ b + num - 1 then g.firstDataBlock else b
    if testRange g map b num then .inr (some b)
    else if b + g.ratio ≠ finish then .inl (b + g.ratio)
    else .inr none

/-- `ext2fs_get_free_blocks2`, with a loop of at most `n` rounds. -/
def getFreeBlocks2 (n : ℕ) (map : ℕ → Bool) (start finish num : ℕ) : Option (Option ℕ) :=
  let b := if start = 0 then g.firstDataBlock else start
  let finish := if finish = 0 then start else finish
  let num := if num = 0 then 1 else num
  Loop.run (freeStep g map start (finish - finish % g.ratio) num) n (b - b % g.ratio)

/-! ### The tables of a group -/

/-- `flexbg_size`, zero without flex groups. -/
def flexbgSize : ℕ := if g.flexBg ∧ g.logGroupsPerFlex ≠ 0 then 2 ^ g.logGroupsPerFlex else 0

/-- The last group of the flex group of a group. -/
def flexLastGroup (group : ℕ) : ℕ :=
  Nat.min (group ||| (2 ^ g.logGroupsPerFlex - 1)) (g.groupDescCount - 1)

/-- The first of some searches that finds something; 0 if none does. -/
def firstFound : List (Option (Option ℕ)) → Option ℕ
  | [] => some 0
  | none :: _ => none
  | some (some b) :: _ => some b
  | some none :: rest => firstFound rest

/-- `flexbg_offset`. -/
def flexbgOffset (n : ℕ) (map : ℕ → Bool) (group startBlk remGrp elemSize : ℕ) : Option ℕ :=
  let size := Nat.min (remGrp * elemSize) (g.blocksPerGroup / 4)
  let first := groupFirstBlock g (2 ^ g.logGroupsPerFlex * (group / 2 ^ g.logGroupsPerFlex))
  let last := groupLastBlock g (flexLastGroup g group)
  let rest := [
    getFreeBlocks2 g n map first last size,
    getFreeBlocks2 g n map first last elemSize,
    getFreeBlocks2 g n map 0 last elemSize]
  firstFound (if startBlk ≠ 0 ∧ startBlk < g.blocksCount then
    getFreeBlocks2 g n map startBlk (startBlk + size) elemSize :: rest else rest)

/-- The number of blocks of a table. -/
def tableLen : TableKind → ℕ
  | .inodeTable => g.inodeBlocksPerGroup
  | _ => 1

/-- A table is given its blocks. -/
def TableState.place (st : TableState) (kind : TableKind) (group newBlk : ℕ) : TableState :=
  { st with
    map := markRange g st.map newBlk (tableLen g kind)
    loc := fun k gr => if k = kind ∧ gr = group then newBlk else st.loc k gr }

/-- The counts of a group from which `num` blocks have been taken. -/
def TableState.charge (st : TableState) (gr num : ℕ) : TableState :=
  { st with
    bgFreeBlocksCount :=
      Function.update st.bgFreeBlocksCount gr
        ((st.bgFreeBlocksCount gr + 2 ^ 32 - num / g.ratio % 2 ^ 32) % 2 ^ 32)
    blockUninit := Function.update st.blockUninit gr false
    freeBlocksCount := sub64 st.freeBlocksCount num }

/-- The counts after a bitmap block has been taken, which is one cluster. -/
def TableState.chargeOne (st : TableState) (blk : ℕ) : TableState :=
  if flexbgSize g = 0 then st
  else
    let gr := (blk - g.firstDataBlock) / g.blocksPerGroup
    { st with
      bgFreeBlocksCount :=
        Function.update st.bgFreeBlocksCount gr ((st.bgFreeBlocksCount gr + 2 ^ 32 - 1) % 2 ^ 32)
      blockUninit := Function.update st.blockUninit gr false
      freeBlocksCount := sub64 st.freeBlocksCount 1 }

/-- The counts after the blocks of an inode table have been taken, group by group, with at most `n`
groups. -/
def TableState.chargeRun (st : TableState) : ℕ → ℕ → ℕ → TableState
  | 0, _, _ => st
  | n + 1, blk, num =>
    if num = 0 then st
    else
      let gr := (blk - g.firstDataBlock) / g.blocksPerGroup
      let last := groupLastBlock g gr
      let k := if last < blk + num then last - blk + 1 else num
      TableState.chargeRun (st.charge g gr k) n (blk + k) (num - k)

/-- Where the search for the bitmaps starts without flex groups. -/
def strideStart (n : ℕ) (map : ℕ → Bool) (group : ℕ) : Option ℕ :=
  let groupBlk := groupFirstBlock g group
  let last := groupLastBlock g group
  if g.stride ≠ 0 ∧ flexbgSize g = 0 then
    ((getFreeBlocks2 g n map groupBlk last 1).join).bind fun b =>
      let start := b + g.inodeBlocksPerGroup
      let room := (sub64 last start + 1) % 2 ^ 64
      if room = 0 then none
      else
        let start := start + g.stride * group % 2 ^ 32 % room
        some (if last ≤ start then groupBlk else start)
  else some groupBlk

/-- A bitmap block is placed. The second search is from the first block of the group. -/
def placeBitmap (n : ℕ) (st : TableState) (kind : TableKind) (group start last : ℕ) :
    Option TableState :=
  if st.loc kind group ≠ 0 then some st
  else
    (getFreeBlocks2 g n st.map start last 1).bind fun r =>
      (match r with
        | some b => some b
        | none => (getFreeBlocks2 g n st.map (groupFirstBlock g group) last 1).join).map fun b =>
        (st.place g kind group b).chargeOne g b

/-- `table_offset`. -/
def tableOffset (group : ℕ) : ℕ :=
  let size := flexbgSize g
  let last := flexLastGroup g group
  if group % size = 0 ∧ last = g.groupDescCount - 1 then
    if last % size = 0 then size else last % size + 1
  else size

/-- `ext2fs_allocate_group_table`. -/
def allocateGroupTable (n : ℕ) (st : TableState) (group : ℕ) : Option TableState := do
  let flex := flexbgSize g
  let last := if flex = 0 then groupLastBlock g group else groupLastBlock g (flexLastGroup g group)
  let rem := flexLastGroup g group - group + 1
  let start ← strideStart g n st.map group
  let start ← (if flex = 0 then some start else
    flexbgOffset g n st.map group (if group % flex ≠ 0 then st.loc .blockBitmap (group - 1) + 1
      else 0) rem 1)
  let st ← placeBitmap g n st .blockBitmap group start last
  let start ← (if flex = 0 then some start else
    flexbgOffset g n st.map group (if group % flex ≠ 0 then st.loc .inodeBitmap (group - 1) + 1
      else st.loc .blockBitmap group + tableOffset g group) rem 1)
  let st ← placeBitmap g n st .inodeBitmap group start last
  let start ← (if flex = 0 then some (groupFirstBlock g group) else
    flexbgOffset g n st.map group
      (if group % flex ≠ 0 then st.loc .inodeTable (group - 1) + g.inodeBlocksPerGroup
        else st.loc .inodeBitmap group + tableOffset g group) rem g.inodeBlocksPerGroup)
  if st.loc .inodeTable group ≠ 0 then some st
  else
    let b ← (getFreeBlocks2 g n st.map start last g.inodeBlocksPerGroup).join
    let st := st.place g .inodeTable group b
    some (if flex = 0 then st else st.chargeRun g g.inodeBlocksPerGroup b g.inodeBlocksPerGroup)

/-- `ext2fs_allocate_tables`. -/
def allocateTables (n : ℕ) (st : TableState) : Option TableState :=
  (List.range g.groupDescCount).foldlM (allocateGroupTable g n) st

/-! ### The search -/

section Search

variable {g} {map : ℕ → Bool} {n start finish num b : ℕ}

/-- A geometry in which the inode table of a group has room on the device, as `ext2fs_initialize`
sees to. With clusters, the first data block is at the start of one. -/
structure TableGeometry.Ok (g : TableGeometry) : Prop where
  aligned : g.firstDataBlock % g.ratio = 0
  room : g.firstDataBlock + 1 ≤ g.blocksCount
  inodeRoom : g.firstDataBlock + g.inodeBlocksPerGroup ≤ g.blocksCount

theorem TableGeometry.ratio_pos (g : TableGeometry) : 0 < g.ratio := Nat.two_pow_pos _

/-- The clusters of the blocks of a run. -/
theorem lt_clusterEnd {x : ℕ} (h : x < b + num) : x / g.ratio < clusterEnd g b num := by
  have hr := g.ratio_pos
  rw [clusterEnd, Nat.div_lt_iff_lt_mul hr]
  have := Nat.lt_mul_div_succ (b + num + g.ratio - 1) hr
  have hmod := Nat.mod_lt (b + num + g.ratio - 1) hr
  have hdiv := Nat.div_add_mod (b + num + g.ratio - 1) g.ratio
  rw [Nat.mul_comm g.ratio ((b + num + g.ratio - 1) / g.ratio)] at hdiv
  omega

/-- A run on the device that passes the test is free. -/
theorem free_of_testRange (h : testRange g map b num = true) (hfirst : g.firstDataBlock ≤ b)
    (hnum : 0 < num) (hlast : b + num ≤ g.blocksCount) {x : ℕ} (hx : b ≤ x) (hx' : x < b + num) :
    map (x / g.ratio) = false := by
  have hr := g.ratio_pos
  have h1 : g.firstDataBlock / g.ratio ≤ b / g.ratio := Nat.div_le_div_right hfirst
  have h2 : b / g.ratio ≤ (g.blocksCount - 1) / g.ratio := Nat.div_le_div_right (by omega)
  have h3 : clusterEnd g b num - 1 ≤ (g.blocksCount - 1) / g.ratio := by
    have h4 : clusterEnd g b num ≤ (b + num - 1) / g.ratio + 1 := by
      rw [clusterEnd, show b + num + g.ratio - 1 = b + num - 1 + g.ratio by omega,
        Nat.add_div_right _ hr]
    have h5 : (b + num - 1) / g.ratio ≤ (g.blocksCount - 1) / g.ratio :=
      Nat.div_le_div_right (by omega)
    exact Nat.sub_le_of_le_add (h4.trans (Nat.succ_le_succ h5))
  have h6 := @lt_clusterEnd g num b x hx'
  have h7 : b / g.ratio ≤ x / g.ratio := Nat.div_le_div_right hx
  rw [testRange, if_neg (by simp only [not_or, not_lt]; exact ⟨h1, h2, h3⟩)] at h
  have hc := List.all_eq_true.mp h (x / g.ratio) (List.mem_range'_1.mpr
    ⟨h7, by rw [Nat.add_sub_of_le (h7.trans h6.le)]; exact h6⟩)
  simpa using hc

/-- The last round of a search that succeeds. -/
theorem getFreeBlocks2_last (hg : g.Ok) (hstart : start = 0 ∨ g.firstDataBlock ≤ start)
    (h : getFreeBlocks2 g n map start finish num = some (some b)) :
    g.firstDataBlock ≤ b ∧ ∃ k, k = (if num = 0 then 1 else num) ∧ testRange g map b k = true ∧
      (b + k ≤ g.blocksCount ∨ b = g.firstDataBlock) := by
  have hr := g.ratio_pos
  have hroom := hg.room
  rw [getFreeBlocks2] at h
  obtain ⟨k, hk⟩ : ∃ k, k = if num = 0 then 1 else num := ⟨_, rfl⟩
  rw [← hk] at h
  generalize (if finish = 0 then start else finish) - (if finish = 0 then start
    else finish) % g.ratio = f at h
  have hk0 : 0 < k := by
    rw [hk]
    split <;> omega
  -- the search never goes below the first data block
  have hinit : g.firstDataBlock ≤ (if start = 0 then g.firstDataBlock else start) -
      (if start = 0 then g.firstDataBlock else start) % g.ratio := by
    have hle : g.firstDataBlock ≤ if start = 0 then g.firstDataBlock else start := by
      split <;> omega
    generalize (if start = 0 then g.firstDataBlock else start) = y at hle
    have h1 := Nat.div_le_div_right (c := g.ratio) hle
    have h2 := Nat.mul_le_mul_left g.ratio h1
    have h3 := Nat.div_add_mod g.firstDataBlock g.ratio
    have h4 := Nat.div_add_mod y g.ratio
    have h5 := hg.aligned
    omega
  obtain ⟨y, hreach, hlast⟩ := Loop.exists_last_of_leaves ⟨n, h⟩
  have hy : g.firstDataBlock ≤ y := by
    refine Loop.invariant (P := fun y => g.firstDataBlock ≤ y) ?_ hreach hinit
    intro a c ha hround
    rw [Loop.Round, freeStep] at hround
    split at hround
    · cases hround
    dsimp only at hround
    generalize hz : (if g.blocksCount ≤ a + k - 1 then g.firstDataBlock else a) = z at hround
    have hz' : g.firstDataBlock ≤ z := by
      rw [← hz]
      split <;> omega
    split at hround
    · cases hround
    split at hround
    · obtain rfl := Sum.inl.inj hround
      omega
    · cases hround
  rw [freeStep] at hlast
  split at hlast
  · cases hlast
  dsimp only at hlast
  generalize hz : (if g.blocksCount ≤ y + k - 1 then g.firstDataBlock else y) = z at hlast
  have hz' : g.firstDataBlock ≤ z ∧ (z + k ≤ g.blocksCount ∨ z = g.firstDataBlock) := by
    rw [← hz]
    split <;> omega
  split at hlast
  · next htest =>
    obtain rfl : z = b := by simpa using hlast
    exact ⟨hz'.1, k, hk, htest, hz'.2⟩
  · split at hlast <;> cases hlast

/-- **A search that succeeds** has found a run of free blocks on the device. -/
theorem getFreeBlocks2_found (hg : g.Ok) (hnum : g.firstDataBlock + num ≤ g.blocksCount)
    (hstart : start = 0 ∨ g.firstDataBlock ≤ start)
    (h : getFreeBlocks2 g n map start finish num = some (some b)) :
    g.firstDataBlock ≤ b ∧ b + num ≤ g.blocksCount ∧ ∀ x, b ≤ x → x < b + num →
    map (x / g.ratio) = false := by
  obtain ⟨hfirst, k, hk, htest, hlast⟩ := getFreeBlocks2_last hg hstart h
  have hroom := hg.room
  have hk0 : 0 < k ∧ num ≤ k ∧ b + k ≤ g.blocksCount := by
    rw [hk] at hlast ⊢
    split at hlast <;> split <;> omega
  exact ⟨hfirst, by omega, fun x hx hx' =>
    free_of_testRange htest hfirst hk0.1 hk0.2.2 hx (by omega)⟩

/-- Where the searches of a flex group lead. -/
theorem firstFound_mem {l : List (Option (Option ℕ))} (h : firstFound l = some b) :
    b = 0 ∨ some (some b) ∈ l := by
  induction l with
  | nil => exact Or.inl (Option.some.inj h).symm
  | cons r l ih =>
    cases r with
    | none => cases h
    | some r => cases r with
      | none =>
        rcases ih h with h0 | hmem
        · exact Or.inl h0
        · exact Or.inr (List.mem_cons_of_mem _ hmem)
      | some c =>
        obtain rfl := Option.some.inj h
        exact Or.inr List.mem_cons_self

theorem flexbgOffset_first {group rem elem : ℕ} (hg : g.Ok)
    (hstart : start = 0 ∨ g.firstDataBlock ≤ start)
    (h : flexbgOffset g n map group start rem elem = some b) : b = 0 ∨ g.firstDataBlock ≤ b := by
  have hgroup : ∀ gr, g.firstDataBlock ≤ groupFirstBlock g gr := fun gr => Nat.le_add_right _ _
  refine (firstFound_mem h).imp_right fun hmem => ?_
  have hrest : ∀ {l : List (Option (Option ℕ))}, some (some b) ∈ l → (∀ r ∈ l, ∃ s f k,
      (s = 0 ∨ g.firstDataBlock ≤ s) ∧ r = getFreeBlocks2 g n map s f k) →
        g.firstDataBlock ≤ b := by
    intro l hmem hl
    obtain ⟨s, f, k, hs, hr⟩ := hl _ hmem
    exact (getFreeBlocks2_last hg hs hr.symm).1
  refine hrest hmem fun r hr => ?_
  split at hr
  · simp only [List.mem_cons, List.not_mem_nil, or_false] at hr
    rcases hr with rfl | rfl | rfl | rfl
    · exact ⟨_, _, _, hstart, rfl⟩
    · exact ⟨_, _, _, Or.inr (hgroup _), rfl⟩
    · exact ⟨_, _, _, Or.inr (hgroup _), rfl⟩
    · exact ⟨_, _, _, Or.inl rfl, rfl⟩
  · simp only [List.mem_cons, List.not_mem_nil, or_false] at hr
    rcases hr with rfl | rfl | rfl
    · exact ⟨_, _, _, Or.inr (hgroup _), rfl⟩
    · exact ⟨_, _, _, Or.inr (hgroup _), rfl⟩
    · exact ⟨_, _, _, Or.inl rfl, rfl⟩

theorem strideStart_first {group : ℕ} (hg : g.Ok) (h : strideStart g n map group = some b) :
    g.firstDataBlock ≤ b := by
  have hgroup : g.firstDataBlock ≤ groupFirstBlock g group := Nat.le_add_right _ _
  rw [strideStart] at h
  split at h
  · obtain ⟨c, hc, hb⟩ := Option.bind_eq_some_iff.mp h
    have hfirst := (getFreeBlocks2_last hg (Or.inr hgroup) (Option.join_eq_some_iff.mp hc)).1
    dsimp only at hb
    split at hb
    · cases hb
    · obtain rfl := Option.some.inj hb
      split
      · exact hgroup
      · omega
  · obtain rfl := Option.some.inj h
    exact hgroup

end Search

/-! ### The tables -/

section Tables

variable {g} {map₀ : ℕ → Bool} {done : TableKind → ℕ → Prop} {st st' : TableState}
    {kind : TableKind}
  {n group start last b : ℕ}

/-- A block of a table. -/
def TableState.Has (g : TableGeometry) (st : TableState) (kind : TableKind) (group x : ℕ) : Prop :=
  st.loc kind group ≤ x ∧ x < st.loc kind group + tableLen g kind

/-- **The tables that have been placed**: they are on the device, their blocks were free and are in
use, and no block is in two of them. -/
structure Allocated (g : TableGeometry) (map₀ : ℕ → Bool) (done : TableKind → ℕ → Prop)
    (st : TableState) :
    Prop where
  mono : ∀ c, map₀ c = true → st.map c = true
  bounds : ∀ k gr, done k gr → g.firstDataBlock ≤ st.loc k gr ∧
    st.loc k gr + tableLen g k ≤ g.blocksCount
  free : ∀ k gr, done k gr → ∀ x, st.Has g k gr x → map₀ (x / g.ratio) = false
  marked : ∀ k gr, done k gr → ∀ x, st.Has g k gr x → st.map (x / g.ratio) = true
  apart : ∀ k gr k' gr', done k gr → done k' gr' → (k, gr) ≠ (k', gr') →
    ∀ x, st.Has g k gr x → ¬st.Has g k' gr' x
  zero : ∀ k gr, ¬done k gr → st.loc k gr = 0

/-- The tables that have been placed, and one more. -/
def alsoDone (done : TableKind → ℕ → Prop) (kind : TableKind) (group : ℕ) : TableKind → ℕ → Prop :=
  fun k gr => done k gr ∨ (k = kind ∧ gr = group)

theorem Allocated.congr (h : Allocated g map₀ done st) (hmap : st'.map = st.map)
    (hloc : st'.loc = st.loc) :
    Allocated g map₀ done st' := by
  have hhas : ∀ k gr x, st'.Has g k gr x ↔ st.Has g k gr x := fun k gr x => by
    rw [TableState.Has, TableState.Has, hloc]
  constructor
  · rw [hmap]; exact h.mono
  · rw [hloc]; exact h.bounds
  · exact fun k gr hd x hx => h.free k gr hd x ((hhas k gr x).mp hx)
  · rw [hmap]; exact fun k gr hd x hx => h.marked k gr hd x ((hhas k gr x).mp hx)
  · exact fun k gr k' gr' hd hd' hne x hx hx' =>
      h.apart k gr k' gr' hd hd' hne x ((hhas k gr x).mp hx) ((hhas k' gr' x).mp hx')
  · rw [hloc]; exact h.zero

/-- **One more table**, in a run of free blocks on the device. -/
theorem Allocated.place (h : Allocated g map₀ done st) (hnew : ¬done kind group)
    (hb : g.firstDataBlock ≤ b ∧ b + tableLen g kind ≤ g.blocksCount ∧
      ∀ x, b ≤ x → x < b + tableLen g kind → st.map (x / g.ratio) = false) :
    Allocated g map₀ (alsoDone done kind group) (st.place g kind group b) := by
  obtain ⟨hfirst, hlast, hfree⟩ := hb
  have hloc : ∀ k gr, done k gr → (st.place g kind group b).loc k gr = st.loc k gr := by
    intro k gr hd
    refine if_neg ?_
    rintro ⟨rfl, rfl⟩
    exact hnew hd
  have hself : (st.place g kind group b).loc kind group = b := if_pos ⟨rfl, rfl⟩
  have hhas : ∀ k gr x, done k gr → (st.place g kind group b).Has g k gr x → st.Has g k gr x := by
    intro k gr x hd hx
    rwa [TableState.Has, hloc k gr hd] at hx
  have hblk : ∀ x, (st.place g kind group b).Has g kind group x →
      b ≤ x ∧ x < b + tableLen g kind := by
    intro x hx
    rwa [TableState.Has, hself] at hx
  have hmono : ∀ c, st.map c = true → (st.place g kind group b).map c = true := by
    intro c hc
    simp [TableState.place, markRange, hc]
  constructor
  · exact fun c hc => hmono c (h.mono c hc)
  · rintro k gr (hd | ⟨rfl, rfl⟩)
    · rw [hloc k gr hd]
      exact h.bounds k gr hd
    · rw [hself]
      exact ⟨hfirst, hlast⟩
  · rintro k gr (hd | ⟨rfl, rfl⟩) x hx
    · exact h.free k gr hd x (hhas k gr x hd hx)
    · have hx' := hfree x (hblk x hx).1 (hblk x hx).2
      by_contra hmap
      rw [h.mono _ (by simpa using hmap)] at hx'
      cases hx'
  · rintro k gr (hd | ⟨rfl, rfl⟩) x hx
    · exact hmono _ (h.marked k gr hd x (hhas k gr x hd hx))
    · have h1 : b / g.ratio ≤ x / g.ratio := Nat.div_le_div_right (hblk x hx).1
      have h2 := @lt_clusterEnd g (tableLen g k) b x (hblk x hx).2
      simp [TableState.place, markRange, h1, h2]
  · -- a block of an earlier table is in use, and a block of the new one was not
    have hne : ∀ k gr x, done k gr → (st.place g kind group b).Has g k gr x →
        ¬(st.place g kind group b).Has g kind group x := by
      intro k gr x hd hx hx'
      have hused := h.marked k gr hd x (hhas k gr x hd hx)
      rw [hfree x (hblk x hx').1 (hblk x hx').2] at hused
      cases hused
    rintro k gr k' gr' (hd | ⟨rfl, rfl⟩) (hd' | ⟨rfl, rfl⟩) hneq x hx hx'
    · exact h.apart k gr k' gr' hd hd' hneq x (hhas k gr x hd hx) (hhas k' gr' x hd' hx')
    · exact hne k gr x hd hx hx'
    · exact hne k' gr' x hd' hx' hx
    · exact hneq rfl
  · intro k gr hd
    rw [alsoDone, not_or] at hd
    exact (if_neg hd.2).trans (h.zero k gr hd.1)

theorem TableState.chargeOne_map (st : TableState) (blk : ℕ) :
    (st.chargeOne g blk).map = st.map ∧ (st.chargeOne g blk).loc = st.loc := by
  rw [TableState.chargeOne]
  split
  · exact ⟨rfl, rfl⟩
  · exact ⟨rfl, rfl⟩

theorem TableState.chargeRun_map (st : TableState) (n blk num : ℕ) :
    (st.chargeRun g n blk num).map = st.map ∧ (st.chargeRun g n blk num).loc = st.loc := by
  induction n generalizing st blk num with
  | zero => exact ⟨rfl, rfl⟩
  | succ n ih =>
    rw [TableState.chargeRun]
    split
    · exact ⟨rfl, rfl⟩
    · exact ih _ _ _

/-- A bitmap block that is placed. -/
theorem placeBitmap_spec (hg : g.Ok) (hlen : tableLen g kind = 1) (h : Allocated g map₀ done st)
    (hnew : ¬done kind group) (hstart : start = 0 ∨ g.firstDataBlock ≤ start)
    (hp : placeBitmap g n st kind group start last = some st') :
    Allocated g map₀ (alsoDone done kind group) st' := by
  have hgroup : g.firstDataBlock ≤ groupFirstBlock g group := Nat.le_add_right _ _
  rw [placeBitmap, if_neg (by simp [h.zero kind group hnew])] at hp
  obtain ⟨r, hr, hp⟩ := Option.bind_eq_some_iff.mp hp
  obtain ⟨b, hb, rfl⟩ := Option.map_eq_some_iff.mp hp
  -- whichever search found the block
  obtain ⟨s, hs, hfound⟩ : ∃ s, (s = 0 ∨ g.firstDataBlock ≤ s) ∧
      getFreeBlocks2 g n st.map s last 1 = some (some b) := by
    cases r with
    | none => exact ⟨_, Or.inr hgroup, Option.join_eq_some_iff.mp hb⟩
    | some c =>
      obtain rfl := Option.some.inj hb
      exact ⟨_, hstart, hr⟩
  have hrun := getFreeBlocks2_found hg hg.room hs hfound
  obtain ⟨hmap, hloc⟩ := TableState.chargeOne_map (g := g) (st.place g kind group b) b
  refine (h.place hnew ?_).congr hmap hloc
  rw [hlen]
  exact hrun

/-- What has been placed before a group is reached. -/
def Before (group : ℕ) : TableKind → ℕ → Prop := fun _ gr => gr < group

/-- Where a search starts: at a block on the device, or behind a table that has been placed. -/
theorem Allocated.start_first {flex off off' rem elem s b : ℕ} (hg : g.Ok)
    (h : Allocated g map₀ done st) (hdone : ∀ gr < group, done kind gr)
    (hs : s = 0 ∨ g.firstDataBlock ≤ s) (hthis : off' = 0 ∨ g.firstDataBlock ≤ off')
    (hb : (if flex = 0 then some s else flexbgOffset g n st.map group
      (if group % flex ≠ 0 then st.loc kind (group - 1) + off else off') rem elem) = some b) :
    b = 0 ∨ g.firstDataBlock ≤ b := by
  split at hb
  · exact Option.some.inj hb ▸ hs
  · refine flexbgOffset_first hg ?_ hb
    split
    · next hmod =>
      have hpos : group ≠ 0 := fun h0 => hmod (by rw [h0, Nat.zero_mod])
      have hprev := (h.bounds kind (group - 1) (hdone _ (by omega))).1
      exact Or.inr (by omega)
    · exact hthis

/-- **A group**: after the groups before it, its three tables are placed. -/
theorem allocateGroupTable_spec (hg : g.Ok) (h : Allocated g map₀ (Before group) st)
    (hp : allocateGroupTable g n st group = some st') :
    Allocated g map₀ (Before (group + 1)) st' := by
  have hgroup : g.firstDataBlock ≤ groupFirstBlock g group := Nat.le_add_right _ _
  rw [allocateGroupTable] at hp
  obtain ⟨s₀, hs₀, hp⟩ := Option.bind_eq_some_iff.mp hp
  have hfirst₀ := strideStart_first hg hs₀
  obtain ⟨s₁, hs₁, hp⟩ := Option.bind_eq_some_iff.mp hp
  have hstart₁ := h.start_first hg (fun gr hgr => hgr) (Or.inr hfirst₀) (Or.inl rfl) hs₁
  obtain ⟨st₁, hst₁, hp⟩ := Option.bind_eq_some_iff.mp hp
  have h₁ := placeBitmap_spec hg rfl h (lt_irrefl group) hstart₁ hst₁
  have hloc₁ := (h₁.bounds .blockBitmap group (Or.inr ⟨rfl, rfl⟩)).1
  obtain ⟨s₂, hs₂, hp⟩ := Option.bind_eq_some_iff.mp hp
  have hstart₂ := h₁.start_first hg (fun gr hgr => Or.inl hgr) hstart₁ (Or.inr (by omega)) hs₂
  obtain ⟨st₂, hst₂, hp⟩ := Option.bind_eq_some_iff.mp hp
  have h₂ := placeBitmap_spec hg rfl h₁ (by simp [alsoDone, Before]) hstart₂ hst₂
  have hloc₂ := (h₂.bounds .inodeBitmap group (Or.inr ⟨rfl, rfl⟩)).1
  obtain ⟨s₃, hs₃, hp⟩ := Option.bind_eq_some_iff.mp hp
  have hstart₃ :=
    h₂.start_first hg (fun gr hgr => Or.inl (Or.inl hgr)) (Or.inr hgroup) (Or.inr (by omega)) hs₃
  have hnew : ¬alsoDone (alsoDone (Before group) .blockBitmap group) .inodeBitmap group
      .inodeTable group := by
    simp [alsoDone, Before]
  rw [if_neg (by simp [h₂.zero _ _ hnew])] at hp
  obtain ⟨b, hb, hp⟩ := Option.bind_eq_some_iff.mp hp
  have hrun := getFreeBlocks2_found hg hg.inodeRoom hstart₃ (Option.join_eq_some_iff.mp hb)
  have h₃ := h₂.place hnew hrun
  have h₄ : Allocated g map₀
    (alsoDone (alsoDone (alsoDone (Before group) .blockBitmap group) .inodeBitmap group)
      .inodeTable group) st' := by
    obtain rfl := Option.some.inj hp
    split
    · exact h₃
    · exact h₃.congr (TableState.chargeRun_map _ _ _ _).1 (TableState.chargeRun_map _ _ _ _).2
  have hdone : alsoDone (alsoDone (alsoDone (Before group) .blockBitmap group) .inodeBitmap group)
      .inodeTable group = Before (group + 1) := by
    funext k gr
    cases k <;> simp only [alsoDone, Before, reduceCtorEq, false_and, or_false, true_and,
      eq_iff_iff] <;> omega
  rwa [hdone] at h₄

/-- **The groups up to some group.** -/
theorem allocated_foldlM (hg : g.Ok) (h : Allocated g map₀ (Before group) st) {m : ℕ}
    (hp : (List.range' group m).foldlM (allocateGroupTable g n) st = some st') :
    Allocated g map₀ (Before (group + m)) st' := by
  induction m generalizing group st with
  | zero =>
    obtain rfl := Option.some.inj hp
    exact h
  | succ m ih =>
    rw [List.range'_succ, List.foldlM_cons] at hp
    obtain ⟨st₁, hst₁, hp⟩ := Option.bind_eq_some_iff.mp hp
    rw [show group + (m + 1) = group + 1 + m by omega]
    exact ih (allocateGroupTable_spec hg h hst₁) hp

/-- **Allocating the tables of all groups** gives every table of every group a run of blocks on the
device that were free and are in use afterwards, and no block to two of them. -/
theorem allocateTables_places (hg : g.Ok) (hloc : ∀ k gr, st.loc k gr = 0)
    (hp : allocateTables g n st = some st') :
    (∀ k, ∀ gr < g.groupDescCount,
      g.firstDataBlock ≤ st'.loc k gr ∧ st'.loc k gr + tableLen g k ≤ g.blocksCount ∧
      ∀ x, st'.Has g k gr x → st.map (x / g.ratio) = false ∧ st'.map (x / g.ratio) = true) ∧
    ∀ k, ∀ gr < g.groupDescCount, ∀ k', ∀ gr' < g.groupDescCount, (k, gr) ≠ (k', gr') →
      ∀ x, st'.Has g k gr x → ¬st'.Has g k' gr' x := by
  have h₀ : Allocated g st.map (Before 0) st := by
    constructor
    · exact fun c hc => hc
    · exact fun k gr hd => absurd hd (Nat.not_lt_zero gr)
    · exact fun k gr hd => absurd hd (Nat.not_lt_zero gr)
    · exact fun k gr hd => absurd hd (Nat.not_lt_zero gr)
    · exact fun k gr k' gr' hd => absurd hd (Nat.not_lt_zero gr)
    · exact fun k gr _ => hloc k gr
  rw [allocateTables, List.range_eq_range'] at hp
  have h := allocated_foldlM hg h₀ hp
  rw [Nat.zero_add] at h
  refine ⟨fun k gr hgr => ⟨(h.bounds k gr hgr).1, (h.bounds k gr hgr).2, fun x hx => ?_⟩, ?_⟩
  · exact ⟨h.free k gr hgr x hx, h.marked k gr hgr x hx⟩
  · exact fun k gr hgr k' gr' hgr' hne x hx => h.apart k gr k' gr' hgr hgr' hne x hx

end Tables

/-! ### A small file system -/

/-- Two groups of 32 blocks each in one flex group, in clusters of two blocks. -/
def twoGroups : TableGeometry where
  firstDataBlock := 0
  blocksCount := 64
  blocksPerGroup := 32
  groupDescCount := 2
  inodeBlocksPerGroup := 4
  stride := 0
  flexBg := true
  logGroupsPerFlex := 1
  clusterBits := 1

/-- The superblock and the descriptors are in the first cluster. -/
def twoGroupsStart : TableState where
  map := fun c => decide (c = 0)
  loc := fun _ _ => 0
  bgFreeBlocksCount := fun _ => 15
  blockUninit := fun _ => false
  freeBlocksCount := 62

theorem allocateTables_places_two :
    (∃ st', allocateTables twoGroups 64 twoGroupsStart = some st' ∧ st'.loc .inodeTable 1 = 14) ∧
      ∀ st', allocateTables twoGroups 64 twoGroupsStart = some st' →
        (∀ k, ∀ gr < 2, 0 ≤ st'.loc k gr ∧ st'.loc k gr + tableLen twoGroups k ≤ 64 ∧
          ∀ x, st'.Has twoGroups k gr x → twoGroupsStart.map (x / 2) = false ∧
          st'.map (x / 2) = true) ∧
        ∀ k, ∀ gr < 2, ∀ k', ∀ gr' < 2, (k, gr) ≠ (k', gr') →
          ∀ x, st'.Has twoGroups k gr x → ¬st'.Has twoGroups k' gr' x := by
  refine ⟨⟨_, rfl, by decide⟩, fun st' h => ?_⟩
  exact allocateTables_places (g := twoGroups) ⟨by decide, by decide, by decide⟩ (fun _ _ => rfl) h

end E2fsprogs
