import E2fsprogs.Lib.Loop
import E2fsprogs.Resize.Backups

/-!
# The size that a resize ends up with

`resize/resize2fs.c` computes it twice: `adjust_new_size` to see whether there is anything to do,
and `adjust_fs_info` when it is done. Both take the last group away while it is too small for its
own metadata, and once more if there would be more than `2 ^ 32 - 1` inodes. They do the same
(`E2fsprogs.SizeGeometry.Settled` is where both of them stop), and neither looks at the part of the
number of groups that does not fit in 32 bits. So the sizes that are predicted rightly are those
with fewer groups, and among the others those that are refused, or that are cut down to the few
groups their inodes leave room for (`E2fsprogs.predictedRight_iff`).

The numbers of free and of reserved blocks, which `adjust_fs_info` updates on its way, are left out.
-/

namespace E2fsprogs

/-- The parts of the superblock that the size depends on. -/
structure SizeGeometry where
  firstDataBlock : ℕ
  blocksPerGroup : ℕ
  inodesPerGroup : ℕ
  inodeBlocksPerGroup : ℕ
  /-- `EXT2_DESC_PER_BLOCK`. -/
  descPerBlock : ℕ
  reservedGdtBlocks : ℕ
  /-- The `64bit` feature. -/
  has64bit : Bool
  sparseSuper : Bool
  sparseSuper2 : Bool
  backupBgs : ℕ × ℕ
  blocksPerGroup_pos : 0 < blocksPerGroup
  inodesPerGroup_lt : inodesPerGroup < 2 ^ 32

/-- `ext2fs_div64_ceil`, and `ext2fs_div_ceil`. -/
def div64Ceil (a b : ℕ) : ℕ := if a = 0 then 0 else (a - 1) / b + 1

/-- The errors of `adjust_fs_info`. -/
inductive AdjustErr where
  | tooSmall
  | tooManyInodes
  deriving DecidableEq

/-- What `adjust_fs_info` makes of the file system before it touches the descriptors. -/
structure AdjustedFs where
  blocksCount : ℕ
  groupDescCount : ℕ
  descBlocks : ℕ
  inodesCount : ℕ
  /-- The end that the block bitmap is given. -/
  mapEnd : ℕ
  realEnd : ℕ
  deriving DecidableEq

namespace SizeGeometry

variable (g : SizeGeometry)

/-- The number of groups of a file system of a size, before it is cut to 32 bits. -/
def groups (size : ℕ) : ℕ := div64Ceil (size - g.firstDataBlock) g.blocksPerGroup

/-- `group_desc_count`, a `dgrp_t`. -/
def groupDescCount (size : ℕ) : ℕ := g.groups size % 2 ^ 32

def descBlocks (groupDescCount : ℕ) : ℕ := div64Ceil groupDescCount g.descPerBlock

/-- `has_bg`: the last group has a backup of the superblock. -/
def hasBg (groupDescCount : ℕ) : Bool :=
  if g.sparseSuper2 then
    if groupDescCount = 2 then g.backupBgs.1 ≠ 0 else g.backupBgs.2 ≠ 0
  else bgHasSuper ⟨groupDescCount, g.sparseSuper, g.sparseSuper2, g.backupBgs⟩ (groupDescCount - 1)

/-- `overhead`: the blocks of metadata of the last group. -/
def overhead (groupDescCount : ℕ) : ℕ :=
  2 + g.inodeBlocksPerGroup +
    if g.hasBg groupDescCount then 1 + g.descBlocks groupDescCount + g.reservedGdtBlocks else 0

/-- `rem`: the blocks of the last group, or 0 if it is full. -/
def rem (size : ℕ) : ℕ := (size - g.firstDataBlock) % g.blocksPerGroup

/-- One round of `adjust_new_size`; it leaves with the size it stores, if it stores one. -/
def adjustNewSize (size : ℕ) : ℕ ⊕ Option ℕ :=
  let groupDescCount := g.groupDescCount size
  if groupDescCount = 0 then .inr none
  else
    let overhead := g.overhead groupDescCount
    let rem := g.rem size
    if groupDescCount = 1 ∧ rem ≠ 0 ∧ rem < overhead then .inr none
    else if 1 < groupDescCount ∧ rem ≠ 0 ∧ rem < overhead + 50 then .inl (size - rem)
    else if 2 ^ 32 - 1 < g.inodesPerGroup * groupDescCount then
      if 2 ^ 32 - 1 < g.inodesPerGroup * (groupDescCount - 1) then .inr none
      else .inl (g.blocksPerGroup * (groupDescCount - 1) + g.firstDataBlock)
    else .inr (some size)

/-- `ext2fs_blocks_count` after `ext2fs_blocks_count_set`. -/
def blocksCountSet (blk : ℕ) : ℕ := if g.has64bit then blk else blk % 2 ^ 32

/-- One round of `adjust_fs_info`, which keeps the size in the superblock. -/
def adjustFsInfo (newSize blocksCount : ℕ) : ℕ ⊕ Except AdjustErr AdjustedFs :=
  let groupDescCount := g.groupDescCount blocksCount
  if groupDescCount = 0 then .inr (.error .tooSmall)
  else
    let overhead := g.overhead groupDescCount
    let rem := g.rem blocksCount
    if groupDescCount = 1 ∧ rem ≠ 0 ∧ rem < overhead then .inr (.error .tooSmall)
    else if 1 < groupDescCount ∧ rem ≠ 0 ∧
      rem < overhead + 50 then .inl (g.blocksCountSet (blocksCount - rem))
    else if 2 ^ 32 - 1 < g.inodesPerGroup * groupDescCount then
      if g.inodesPerGroup * (groupDescCount - 1) ≤ 2 ^ 32 - 1 then
        .inl (g.blocksCountSet (g.blocksPerGroup * (groupDescCount - 1) + g.firstDataBlock))
      else .inr (.error .tooManyInodes)
    else
      .inr (.ok {
        blocksCount
        groupDescCount
        descBlocks := g.descBlocks groupDescCount
        inodesCount := g.inodesPerGroup * groupDescCount
        mapEnd := newSize - 1
        realEnd := g.blocksPerGroup * groupDescCount - 1 + g.firstDataBlock })

/-! ### What the prediction should be -/

/-- **The size is predicted rightly**: the first loop ends, and with a size that it stores, the
second one gets through in one round, keeps the size, and has a block bitmap that ends where it can.
A second prediction gives the same. -/
structure PredictedRight (size : ℕ) : Prop where
  ends : Loop.Ends g.adjustNewSize size
  agrees : ∀ s, Loop.Leaves g.adjustNewSize size (some s) →
    ∃ fs, g.adjustFsInfo s (g.blocksCountSet s) = .inr (.ok fs) ∧ fs.blocksCount = s ∧
      fs.mapEnd = s - 1 ∧
      fs.mapEnd ≤ fs.realEnd
  again : ∀ s, Loop.Leaves g.adjustNewSize size (some s) → Loop.Leaves g.adjustNewSize s (some s)

/-- The last of several groups is too small. -/
def LastTooSmall (size : ℕ) : Prop :=
  1 < g.groupDescCount size ∧ g.rem size ≠ 0 ∧ g.rem size < g.overhead (g.groupDescCount size) + 50

instance (size : ℕ) : Decidable (g.LastTooSmall size) := inferInstanceAs (Decidable (_ ∧ _ ∧ _))

/-- The only group is too small. -/
def OnlyTooSmall (size : ℕ) : Prop :=
  g.groupDescCount size = 1 ∧ g.rem size ≠ 0 ∧ g.rem size < g.overhead 1

/-- The number of groups without a last one that is too small. -/
def groupsLeft (size : ℕ) : ℕ := if g.LastTooSmall size then g.groupDescCount size - 1
    else g.groupDescCount size

/-- **The sizes that are dealt with rightly**: the number of groups has 32 bits, or what is left of
it is refused, as no group at all or as one that is too small, or has too many inodes. -/
def Predictable (size : ℕ) : Prop :=
  g.groups size < 2 ^ 32 ∨ g.groupDescCount size = 0 ∨ g.OnlyTooSmall size ∨
    2 ^ 32 - 1 < g.inodesPerGroup * g.groupsLeft size

end SizeGeometry

section Groups

variable {g : SizeGeometry} {size s k : ℕ}

namespace SizeGeometry

/-! ### The number of groups -/

theorem groups_le_iff (h : g.firstDataBlock ≤ size) :
    g.groups size ≤ k ↔ size ≤ g.blocksPerGroup * k + g.firstDataBlock := by
  have hpos := g.blocksPerGroup_pos
  rw [groups, div64Ceil]
  split
  case isTrue h0 => exact iff_of_true (Nat.zero_le k) (by omega)
  case isFalse h0 =>
    rw [Nat.add_one_le_iff, Nat.div_lt_iff_lt_mul hpos, Nat.mul_comm k]
    omega

theorem groups_mul_add (k : ℕ) : g.groups (g.blocksPerGroup * k + g.firstDataBlock) = k := by
  have hpos := g.blocksPerGroup_pos
  refine le_antisymm ((groups_le_iff (Nat.le_add_left _ _)).mpr le_rfl) ?_
  have h := (groups_le_iff (Nat.le_add_left _ (g.blocksPerGroup * k))).mp (le_refl (g.groups _))
  exact Nat.le_of_mul_le_mul_left (Nat.add_le_add_iff_right.mp h) hpos

theorem rem_mul_add (k : ℕ) : g.rem (g.blocksPerGroup * k + g.firstDataBlock) = 0 := by
  rw [rem, Nat.add_sub_cancel, Nat.mul_mod_right]

/-- Without the blocks of its last group, a file system has whole groups, one less than before. -/
theorem sub_rem (hs : g.firstDataBlock ≤ size) (h : g.rem size ≠ 0) :
    size - g.rem size = g.blocksPerGroup * (g.groups size - 1) + g.firstDataBlock := by
  have hdiv := Nat.div_add_mod (size - g.firstDataBlock) g.blocksPerGroup
  have hmod := Nat.mod_lt (size - g.firstDataBlock) g.blocksPerGroup_pos
  have hgroups : g.groups size = (size - g.firstDataBlock) / g.blocksPerGroup + 1 := by
    have hsize : size = g.blocksPerGroup * ((size - g.firstDataBlock) / g.blocksPerGroup) +
        g.rem size + g.firstDataBlock := by
      rw [rem]
      omega
    refine le_antisymm ((groups_le_iff hs).mpr ?_) (Nat.succ_le_of_lt ?_)
    · rw [Nat.mul_add, Nat.mul_one]
      rw [rem] at hsize
      omega
    · by_contra hle
      have := (groups_le_iff hs).mp (Nat.le_of_not_lt hle)
      omega
  rw [hgroups, Nat.add_sub_cancel]
  rw [rem] at *
  omega

/-! ### Where both loops stop -/

/-- **A size that both loops keep.** -/
structure Settled (g : SizeGeometry) (size : ℕ) : Prop where
  groups : g.groupDescCount size ≠ 0
  only : ¬g.OnlyTooSmall size
  last : ¬g.LastTooSmall size
  inodes : g.inodesPerGroup * g.groupDescCount size ≤ 2 ^ 32 - 1

theorem only_iff :
    (g.groupDescCount size = 1 ∧ g.rem size ≠ 0 ∧ g.rem size < g.overhead (g.groupDescCount size)) ↔
    g.OnlyTooSmall size := by
  refine and_congr_right fun h => ?_
  rw [h]

theorem last_iff :
    (1 < g.groupDescCount size ∧ g.rem size ≠ 0 ∧
      g.rem size < g.overhead (g.groupDescCount size) + 50) ↔
    g.LastTooSmall size := Iff.rfl

theorem adjustNewSize_of_settled (h : g.Settled size) :
    g.adjustNewSize size = .inr (some size) := by
  rw [adjustNewSize, if_neg h.groups, if_neg (only_iff.not.mpr h.only),
    if_neg (last_iff.not.mpr h.last),
     if_neg (Nat.not_lt.mpr h.inodes)]

theorem adjustFsInfo_of_settled (h : g.Settled size) : g.adjustFsInfo s size = .inr (.ok {
    blocksCount := size
    groupDescCount := g.groupDescCount size
    descBlocks := g.descBlocks (g.groupDescCount size)
    inodesCount := g.inodesPerGroup * g.groupDescCount size
    mapEnd := s - 1
    realEnd := g.blocksPerGroup * g.groupDescCount size - 1 + g.firstDataBlock }) := by
  rw [adjustFsInfo, if_neg h.groups, if_neg (only_iff.not.mpr h.only),
    if_neg (last_iff.not.mpr h.last),
     if_neg (Nat.not_lt.mpr h.inodes)]

/-- **What one round can do**: refuse, take the last group away, take one away for its inodes, or
store the size. -/
theorem adjustNewSize_cases (size : ℕ) :
    (g.groupDescCount size = 0 ∨ g.OnlyTooSmall size) ∧ g.adjustNewSize size = .inr none ∨
    g.LastTooSmall size ∧ g.adjustNewSize size = .inl (size - g.rem size) ∨
    (g.groupDescCount size ≠ 0 ∧ ¬g.OnlyTooSmall size ∧ ¬g.LastTooSmall size ∧
      2 ^ 32 - 1 < g.inodesPerGroup * g.groupDescCount size ∧
      (g.adjustNewSize size = .inr none ∨
        g.inodesPerGroup * (g.groupDescCount size - 1) ≤ 2 ^ 32 - 1 ∧
        g.adjustNewSize size = .inl
          (g.blocksPerGroup * (g.groupDescCount size - 1) + g.firstDataBlock))) ∨
    g.Settled size ∧ g.adjustNewSize size = .inr (some size) := by
  by_cases h0 : g.groupDescCount size = 0
  · exact Or.inl ⟨Or.inl h0, by rw [adjustNewSize, if_pos h0]⟩
  by_cases h1 : g.OnlyTooSmall size
  · refine Or.inl ⟨Or.inr h1, ?_⟩
    rw [adjustNewSize, if_neg h0, if_pos (only_iff.mpr h1)]
  by_cases h2 : g.LastTooSmall size
  · refine Or.inr (Or.inl ⟨h2, ?_⟩)
    rw [adjustNewSize, if_neg h0, if_neg (only_iff.not.mpr h1), if_pos (last_iff.mpr h2)]
  by_cases h3 : 2 ^ 32 - 1 < g.inodesPerGroup * g.groupDescCount size
  · refine Or.inr (Or.inr (Or.inl ⟨h0, h1, h2, h3, ?_⟩))
    rw [adjustNewSize, if_neg h0, if_neg (only_iff.not.mpr h1),
      if_neg (last_iff.not.mpr h2), if_pos h3]
    split
    case isTrue => exact Or.inl rfl
    case isFalse h4 => exact Or.inr ⟨Nat.not_lt.mp h4, rfl⟩
  · have hs : g.Settled size := ⟨h0, h1, h2, Nat.not_lt.mp h3⟩
    exact Or.inr (Or.inr (Or.inr ⟨hs, adjustNewSize_of_settled hs⟩))

/-! ### Runs -/

/-- A size of whole groups is only cut down for its inodes. -/
theorem not_tooSmall_of_rem (h : g.rem size = 0) : ¬g.OnlyTooSmall size ∧ ¬g.LastTooSmall size :=
  ⟨fun h' => h'.2.1 h, fun h' => h'.2.1 h⟩

/-- The size that is left without the last group. -/
theorem groups_of_last (hs : g.firstDataBlock ≤ size) (h : g.LastTooSmall size) :
    g.rem (size - g.rem size) = 0 ∧ g.groups (size - g.rem size) = g.groups size - 1 ∧
      g.groupDescCount (size - g.rem size) = g.groupDescCount size - 1 := by
  have h1 : 1 < g.groups size % 2 ^ 32 := h.1
  have hgroups : g.groups (size - g.rem size) = g.groups size - 1 := by
    rw [sub_rem hs h.2.1, groups_mul_add]
  refine ⟨by rw [sub_rem hs h.2.1, rem_mul_add], hgroups, ?_⟩
  rw [groupDescCount, groupDescCount, hgroups]
  omega

/-- The size that is left when a group is taken away for its inodes: it has fewer groups than there
were, and both loops keep it. -/
theorem settled_of_inodes (h : 2 ^ 32 - 1 < g.inodesPerGroup * g.groupDescCount size)
    (h' : g.inodesPerGroup * (g.groupDescCount size - 1) ≤ 2 ^ 32 - 1) :
    g.groups (g.blocksPerGroup * (g.groupDescCount size - 1) + g.firstDataBlock) =
      g.groupDescCount size - 1 ∧
      g.Settled (g.blocksPerGroup * (g.groupDescCount size - 1) + g.firstDataBlock) := by
  have hlt : g.groupDescCount size < 2 ^ 32 := Nat.mod_lt _ (Nat.two_pow_pos 32)
  have hcount : g.groupDescCount
    (g.blocksPerGroup * (g.groupDescCount size - 1) + g.firstDataBlock) =
      g.groupDescCount size - 1 := by
    rw [groupDescCount, groups_mul_add, Nat.mod_eq_of_lt (by omega)]
  have htwo : g.groupDescCount size - 1 ≠ 0 := by
    intro h0
    have h1 : g.groupDescCount size ≤ 1 := by omega
    have h2 := Nat.mul_le_mul_left g.inodesPerGroup h1
    have h3 := g.inodesPerGroup_lt
    omega
  obtain ⟨h1, h2⟩ := not_tooSmall_of_rem (g.rem_mul_add (g.groupDescCount size - 1))
  exact ⟨groups_mul_add _, by rwa [hcount], h1, h2, by rwa [hcount]⟩

/-- Every round makes the size less, and leaves it at the first data block at least. -/
theorem lt_of_round (hs : g.firstDataBlock ≤ size) (h : Loop.Round g.adjustNewSize size s) :
    g.firstDataBlock ≤ s ∧ s < size := by
  rw [Loop.Round] at h
  rcases adjustNewSize_cases (g := g) size with ⟨-, he⟩ | ⟨hlast, he⟩ |
    ⟨h0, -, -, -, he | ⟨-, he⟩⟩ | ⟨-, he⟩ <;>
    rw [he] at h <;> cases h
  · have hrem := hlast.2.1
    have hle : g.rem size ≤ size - g.firstDataBlock := Nat.mod_le _ _
    omega
  · refine ⟨Nat.le_add_left _ _, Nat.lt_of_not_le fun hle => ?_⟩
    have hgroups := (groups_le_iff hs).mpr hle
    have hmod : g.groupDescCount size ≤ g.groups size := Nat.mod_le _ _
    omega

/-- **The loop ends.** -/
theorem adjustNewSize_ends (hs : g.firstDataBlock ≤ size) : Loop.Ends g.adjustNewSize size :=
  Loop.ends_of_wf Nat.lt_wfRel.wf id
    (P := fun s => g.firstDataBlock ≤ s) (fun _ _ h hr => lt_of_round h hr) hs

/-- **A size that is stored is settled**, and not more than the one that was asked for. -/
theorem settled_of_leaves (hs : g.firstDataBlock ≤ size)
    (h : Loop.Leaves g.adjustNewSize size (some s)) :
    g.Settled s ∧ g.firstDataBlock ≤ s ∧ s ≤ size := by
  obtain ⟨s', hreach, hstep⟩ := Loop.exists_last_of_leaves h
  have hle : g.firstDataBlock ≤ s' ∧ s' ≤ size := by
    refine Loop.invariant (P := fun s => g.firstDataBlock ≤ s ∧
      s ≤ size) (fun a b ha hr => ?_) hreach ⟨hs, le_rfl⟩
    have := lt_of_round ha.1 hr
    omega
  rcases adjustNewSize_cases (g := g) s' with ⟨-, he⟩ | ⟨-, he⟩ | ⟨-, -, -, -, he | ⟨-, he⟩⟩ |
    ⟨hset, he⟩ <;>
    rw [he] at hstep <;> cases hstep
  exact ⟨hset, hle⟩

/-- The loop stores no size with more groups than 32 bits can count. -/
def FewGroups (g : SizeGeometry) (size : ℕ) : Prop :=
  ∀ s, Loop.Leaves g.adjustNewSize size (some s) → g.groups s < 2 ^ 32

theorem fewGroups_of_round (h : Loop.Round g.adjustNewSize size s) :
    g.FewGroups size ↔ g.FewGroups s :=
  forall_congr' fun _ =>
    imp_congr_left ⟨fun hl => Loop.leaves_of_reach_start (Relation.ReflTransGen.single h) hl,
      fun hl => Loop.leaves_of_round h hl⟩

theorem fewGroups_of_none (h : g.adjustNewSize size = .inr none) : g.FewGroups size :=
  fun s hs => by
  cases Loop.leaves_unique (Loop.leaves_of_inr h) hs

/-- A size that is settled is the one that is stored. -/
theorem fewGroups_of_settled (h : g.Settled size) : g.FewGroups size ↔ g.groups size < 2 ^ 32 := by
  have hl : Loop.Leaves g.adjustNewSize size (some size) :=
    Loop.leaves_of_inr (adjustNewSize_of_settled h)
  refine ⟨fun hf => hf size hl, fun hlt s hs => ?_⟩
  obtain rfl := Option.some.inj (Loop.leaves_unique hl hs)
  exact hlt

/-- A size whose last group is big enough. -/
theorem fewGroups_of_not_last (h : ¬g.LastTooSmall size) : g.FewGroups size ↔
    g.groups size < 2 ^ 32 ∨ g.groupDescCount size = 0 ∨ g.OnlyTooSmall size ∨
      2 ^ 32 - 1 < g.inodesPerGroup * g.groupDescCount size := by
  rcases adjustNewSize_cases (g := g) size with ⟨h0 | h1, he⟩ | ⟨hlast, -⟩ |
    ⟨-, -, -, hin, he | ⟨hin', he⟩⟩ | ⟨hset, -⟩
  · exact iff_of_true (fewGroups_of_none he) (Or.inr (Or.inl h0))
  · exact iff_of_true (fewGroups_of_none he) (Or.inr (Or.inr (Or.inl h1)))
  · exact absurd hlast h
  · exact iff_of_true (fewGroups_of_none he) (Or.inr (Or.inr (Or.inr hin)))
  · refine iff_of_true ?_ (Or.inr (Or.inr (Or.inr hin)))
    obtain ⟨hgroups, hset⟩ := settled_of_inodes hin hin'
    rw [fewGroups_of_round he, fewGroups_of_settled hset, hgroups]
    exact (Nat.sub_le _ 1).trans_lt (Nat.mod_lt _ (Nat.two_pow_pos 32))
  · rw [fewGroups_of_settled hset]
    have h1 := hset.groups
    have h2 := hset.only
    have h3 := hset.inodes
    refine ⟨Or.inl, ?_⟩
    rintro (h' | h' | h' | h')
    · exact h'
    · exact absurd h' h1
    · exact absurd h' h2
    · omega

theorem fewGroups_iff (hs : g.firstDataBlock ≤ size) : g.FewGroups size ↔ g.Predictable size := by
  by_cases hlast : g.LastTooSmall size
  · obtain ⟨hrem, hgroups, hcount⟩ := groups_of_last hs hlast
    obtain ⟨honly', hlast'⟩ := not_tooSmall_of_rem hrem
    have hround : Loop.Round g.adjustNewSize size (size - g.rem size) := by
      rcases adjustNewSize_cases (g := g) size with ⟨h0, -⟩ | ⟨-, he⟩ | ⟨-, -, h, -⟩ | ⟨h, -⟩
      · have := hlast.1
        rcases h0 with h0 | h0
        · omega
        · have := h0.1
          omega
      · exact he
      · exact absurd hlast h
      · exact absurd hlast h.last
    rw [fewGroups_of_round hround, fewGroups_of_not_last hlast', hgroups, hcount,
      Predictable, groupsLeft, if_pos hlast]
    have h1 : 1 < g.groups size % 2 ^ 32 := hlast.1
    have h2 : g.groupDescCount size = g.groups size % 2 ^ 32 := rfl
    have honly : ¬g.OnlyTooSmall size := fun h => by
      have := h.1
      omega
    constructor
    · rintro (h | h | h | h)
      · exact Or.inl (by omega)
      · omega
      · exact absurd h honly'
      · exact Or.inr (Or.inr (Or.inr h))
    · rintro (h | h | h | h)
      · exact Or.inl (by omega)
      · omega
      · exact absurd h honly
      · exact Or.inr (Or.inr (Or.inr h))
  · rw [fewGroups_of_not_last hlast, Predictable, groupsLeft, if_neg hlast]

/-- The real end is far enough if the number of groups has 32 bits. -/
theorem mapEnd_le_iff (hs : g.firstDataBlock ≤ s) (h : g.Settled s) :
    s - 1 ≤ g.blocksPerGroup * g.groupDescCount s - 1 + g.firstDataBlock ↔ g.groups s < 2 ^ 32 := by
  have hpos : 0 < g.blocksPerGroup * g.groupDescCount s :=
    Nat.mul_pos g.blocksPerGroup_pos (Nat.pos_of_ne_zero h.groups)
  have hlt : g.groupDescCount s < 2 ^ 32 := Nat.mod_lt _ (Nat.two_pow_pos 32)
  have hiff : s - 1 ≤ g.blocksPerGroup * g.groupDescCount s - 1 + g.firstDataBlock ↔
      g.groups s ≤ g.groupDescCount s := by
    rw [groups_le_iff hs]
    omega
  rw [hiff]
  refine ⟨fun h => h.trans_lt hlt, fun h => ?_⟩
  rw [groupDescCount, Nat.mod_eq_of_lt h]

end SizeGeometry

/-- **The new size is predicted rightly if and only if the number of groups has 32 bits**, or the
size is refused or cut down. Without the `64bit` feature the size has 32 bits, which is looked at
before. -/
theorem predictedRight_iff {g : SizeGeometry} {size : ℕ} (hs : g.firstDataBlock ≤ size)
    (h64 : g.has64bit = false → size < 2 ^ 32) : g.PredictedRight size ↔ g.Predictable size := by
  rw [← SizeGeometry.fewGroups_iff hs]
  have hset : ∀ s, s ≤ size → g.blocksCountSet s = s := fun s hle => by
    rw [SizeGeometry.blocksCountSet]
    split
    case isTrue => rfl
    case isFalse h => exact Nat.mod_eq_of_lt (hle.trans_lt (h64 (Bool.eq_false_iff.mpr h)))
  constructor
  · intro hright s hl
    obtain ⟨hsettled, hle, hle'⟩ := SizeGeometry.settled_of_leaves hs hl
    obtain ⟨fs, he, -, -, hend⟩ := hright.agrees s hl
    rw [hset s hle', SizeGeometry.adjustFsInfo_of_settled hsettled] at he
    cases he
    exact (SizeGeometry.mapEnd_le_iff hle hsettled).mp hend
  · intro hfew
    refine ⟨SizeGeometry.adjustNewSize_ends hs, fun s hl => ?_, fun s hl => ?_⟩
    · obtain ⟨hsettled, hle, hle'⟩ := SizeGeometry.settled_of_leaves hs hl
      rw [hset s hle']
      exact ⟨_, SizeGeometry.adjustFsInfo_of_settled hsettled, rfl, rfl,
        (SizeGeometry.mapEnd_le_iff hle hsettled).mpr (hfew s hl)⟩
    · exact Loop.leaves_of_inr
        (SizeGeometry.adjustNewSize_of_settled (SizeGeometry.settled_of_leaves hs hl).1)

/-- A file system with blocks of 1024 bytes as `mke2fs` makes it, with the `64bit` feature. -/
def smallBlocks : SizeGeometry where
  firstDataBlock := 1
  blocksPerGroup := 8192
  inodesPerGroup := 2048
  inodeBlocksPerGroup := 512
  descPerBlock := 16
  reservedGdtBlocks := 256
  has64bit := true
  sparseSuper := true
  sparseSuper2 := false
  backupBgs := (0, 0)
  blocksPerGroup_pos := by decide
  inodesPerGroup_lt := by decide

theorem predictedRight_small : smallBlocks.PredictedRight 100000 ↔ smallBlocks.Predictable 100000 :=
  predictedRight_iff (by decide) (fun h => absurd h (by decide))

/-- **One group more than 32 bits can count**: the number of groups is taken to be one, and the
bitmap ends at the end of that group. -/
theorem not_predictedRight_wrapped : smallBlocks.firstDataBlock ≤ 2 ^ 45 + 8193 ∧
    ¬smallBlocks.PredictedRight (2 ^ 45 + 8193) := by
  refine ⟨by decide, fun hright => ?_⟩
  have hl : Loop.Leaves smallBlocks.adjustNewSize (2 ^ 45 + 8193) (some (2 ^ 45 + 8193)) :=
    Loop.leaves_of_inr (by decide)
  obtain ⟨fs, he, -, hmap, hend⟩ := hright.agrees _ hl
  have hfs : smallBlocks.adjustFsInfo (2 ^ 45 + 8193) (smallBlocks.blocksCountSet (2 ^ 45 + 8193)) =
      .inr (.ok ⟨2 ^ 45 + 8193, 1, 1, 2048, 2 ^ 45 + 8192, 8192⟩) := by decide
  rw [hfs] at he
  cases he
  exact absurd hend (by decide)

end Groups

end E2fsprogs
