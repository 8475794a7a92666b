import E2fsprogs.Lib.BitArray

/-!
# Allocating a block

`ext2fs_new_block3` of `lib/ext2fs/alloc.c`, and `ext2fs_block_alloc_stats2`. The block bitmap is
taken as the set of the clusters that are marked. The hooks of an application for the allocation
are left out.
-/

namespace E2fsprogs

/-- What is read of the file system: the size of its clusters, and its blocks. -/
structure BmapFs where
  bigalloc : Bool
  clusterBits : ℕ
  blocksCount : ℕ
  firstDataBlock : ℕ

/-- `EXT2FS_CLUSTER_RATIO`. -/
def BmapFs.ratio (fs : BmapFs) : ℕ := 2 ^ fs.clusterBits

/-- The numbers of the file system: whole clusters, and clusters only with the feature. -/
structure BmapFs.Ok (fs : BmapFs) : Prop where
  clusters : fs.ratio ∣ fs.blocksCount
  count : fs.blocksCount ≤ 2 ^ 64
  first : fs.firstDataBlock < fs.blocksCount
  bigalloc : fs.bigalloc = false → fs.clusterBits = 0

theorem BmapFs.ratio_pos (fs : BmapFs) : 0 < fs.ratio := Nat.two_pow_pos _

variable (fs : BmapFs)

/-- `ext2fs_block_alloc_stats2`, as far as the block bitmap is concerned. -/
def blockAllocStats (marks : ℕ → Bool) (blk : ℕ) (inuse : Bool) : ℕ → Bool :=
  if fs.blocksCount ≤ blk then marks else Function.update marks (blk / fs.ratio) inuse

/-- `ext2fs_find_first_zero_block_bitmap2`. -/
def findFirstZero (marks : ℕ → Bool) (start stop : ℕ) : Option ℕ :=
  if stop < start then none
  else
    let c := firstIn (fun c => !marks c) (start / fs.ratio) (stop / fs.ratio + 1 - start / fs.ratio)
    c.map fun c => max (c * fs.ratio) start

/-- `ext2fs_new_block3`. -/
def newBlock (marks : ℕ → Bool) (goal : ℕ) : Option ℕ :=
  let goal := if goal = 0 ∨ fs.blocksCount ≤ goal then fs.firstDataBlock else goal
  let goal := goal - goal % fs.ratio
  match findFirstZero fs marks goal (fs.blocksCount - 1) with
  | some b => some b
  | none =>
    if goal ≠ fs.firstDataBlock then findFirstZero fs marks fs.firstDataBlock (goal - 1) else none

variable {fs} {marks : ℕ → Bool}

/-- The block that is found is free. -/
theorem findFirstZero_free {start stop b : ℕ} (h : findFirstZero fs marks start stop = some b) :
    marks (b / fs.ratio) = false ∧ b ≤ stop := by
  rw [findFirstZero] at h
  split at h
  · cases h
  next hle =>
    obtain ⟨c, hc, rfl⟩ := Option.map_eq_some_iff.mp h
    obtain ⟨hlo, hhi, hfree⟩ := (firstIn_eq_some hc).1
    have hcstop : c ≤ stop / fs.ratio := by
      have := Nat.div_le_div_right (c := fs.ratio) (Nat.le_of_not_lt hle)
      omega
    have hmul : c * fs.ratio ≤ stop :=
      (Nat.mul_le_mul_right _ hcstop).trans (Nat.div_mul_le_self _ _)
    have hdiv : max (c * fs.ratio) start / fs.ratio = c := by
      rcases Nat.le_total start (c * fs.ratio) with hs | hs
      · rw [Nat.max_eq_left hs, Nat.mul_div_cancel _ fs.ratio_pos]
      · rw [Nat.max_eq_right hs]
        exact le_antisymm hlo ((Nat.le_div_iff_mul_le fs.ratio_pos).mpr hs)
    refine ⟨?_, by omega⟩
    rw [hdiv]
    exact Bool.not_eq_true' _ |>.mp hfree

theorem newBlock_free (hg : fs.Ok) {goal b : ℕ} (h : newBlock fs marks goal = some b) :
    marks (b / fs.ratio) = false ∧ b < fs.blocksCount := by
  have hfirst := hg.first
  rw [newBlock] at h
  obtain ⟨g, hgoal⟩ : ∃ g, g =
    if goal = 0 ∨ fs.blocksCount ≤ goal then fs.firstDataBlock else goal := ⟨_, rfl⟩
  have hglt : g < fs.blocksCount := by
    rw [hgoal]
    split <;> omega
  rw [← hgoal] at h
  split at h
  next b' heq =>
    obtain ⟨hfree, hle⟩ := findFirstZero_free heq
    obtain rfl := Option.some.inj h
    exact ⟨hfree, by omega⟩
  next =>
    split at h
    · obtain ⟨hfree, hle⟩ := findFirstZero_free h
      exact ⟨hfree, by omega⟩
    · cases h

end E2fsprogs
