import E2fsprogs.Xattr.EaBlock
import E2fsprogs.Xattr.Steps

/-!
# Reference counts of EA blocks

The count in an EA block is the number of inodes that name it, and the block is free exactly
if there is none (`E2fsprogs.EaState.Exact`). A call that fails after a block has been given
up, or after one has been allocated, leaves the inode on disk as it was, and the count is
wrong or the block is lost. If nothing fails behind that point
(`E2fsprogs.EaOp.Completes`), the counts stay exact.

What is known of the blocks of files and of the inodes that are found is stated with each
operation (`E2fsprogs.EaOp.Possible`).
-/

namespace E2fsprogs

open Fallible

section Refcount

variable {fs : BmapFs} {st st' : EaState} {ino blk b : ℕ}

/-- The number of inodes on disk that name a block. -/
def EaState.namers (st : EaState) (b : ℕ) : ℕ := (st.inodes.filter fun i => st.fileAcl i = b).card

/-- **The counts are exact**: each EA block has the number of inodes that name it, and is
free exactly if there is none. -/
def EaState.Exact (fs : BmapFs) (st : EaState) : Prop :=
  ∀ b ∈ st.eaBlocks, st.hRefcount b = st.namers b ∧
    (st.blockMap (b / fs.ratio) = false ↔ st.namers b = 0)

/-- Exact counts, of EA blocks that are blocks of the file system in clusters of their own. The
first cluster is in use for other things. -/
structure EaState.Good (fs : BmapFs) (st : EaState) : Prop where
  exact : st.Exact fs
  named : ∀ i ∈ st.inodes, st.fileAcl i = 0 ∨ st.fileAcl i ∈ st.eaBlocks
  apart : ∀ a ∈ st.eaBlocks, ∀ b ∈ st.eaBlocks, a / fs.ratio = b / fs.ratio → a = b
  inside : ∀ b ∈ st.eaBlocks, b < fs.blocksCount ∧ b / fs.ratio ≠ 0
  first : st.blockMap 0 = true
  inodes : ∀ i ∈ st.inodes, 0 < i ∧ i < 2 ^ 32

/-! ### When an operation keeps the counts exact -/

/-- `ext2fs_free_ext_attr` leaves before it has written the count. -/
def FreeIo.Stops (fs : BmapFs) (io : FreeIo) (blk : ℕ) (st : EaState) : Prop :=
  blk = 0 ∨ (blk < fs.firstDataBlock ∨ fs.blocksCount ≤ blk) ∨ io.getMem.isSome ∨
    io.readBlock.isSome ∨
    st.hMagic blk = false ∨ io.writeBlock.isSome

/-- A block can be allocated. -/
def PrepIo.Allocates (fs : BmapFs) (io : PrepIo) (st : EaState) : Prop :=
  io.readBitmap = none ∧ io.zeroBlocks = none ∧ (newBlock fs st.blockMap io.goal).isSome

/-- `prep_ea_block_for_write` neither writes a count nor allocates a block. -/
def PrepIo.Stops (fs : BmapFs) (io : PrepIo) (blk : ℕ) (st : EaState) : Prop :=
  if blk = 0 then io.iblkAddBlocks.isSome ∨ ¬io.Allocates fs st
  else (blk < fs.firstDataBlock ∨ fs.blocksCount ≤ blk) ∨ io.getMem.isSome ∨ io.readBlock.isSome ∨
    st.hMagic blk = false ∨ st.hRefcount blk = 1 ∨ io.writeBlock.isSome

/-- `ext2fs_xattrs_write` does not come to `prep_ea_block_for_write`. -/
def WriteIo.Skips (io : WriteIo) (inBlock : Bool) (blk : ℕ) : Prop :=
  io.getInodeMem.isSome ∨ io.readInode.isSome ∨ io.badExtraIsize = true ∨ io.writeBody.isSome ∨
    (inBlock = false ∧ blk = 0) ∨ io.getBlockMem.isSome ∨ io.writeEntries.isSome

/-- The operation stops in time, or nothing fails after a count has been written or a block
allocated. -/
def EaOp.Completes (fs : BmapFs) (st : EaState) : EaOp → Prop
  | write ino inBlock io =>
    io.Skips inBlock (st.fileAcl ino) ∨ io.prep.Stops fs (st.fileAcl ino) st ∨
      (io.prep.Allocates fs st ∧ io.writeBlock = none ∧ io.writeInode = none)
  | decRef ino io => io.readInode.isSome ∨ (st.eaInodeRef ino + 2 ^ 64 - 1) % 2 ^ 64 ≠ 0 ∨
      io.free.Stops fs (st.fileAcl ino) st ∨
      (io.writeInode = none ∧ (io.free.iblkSubBlocks = none → io.punch = none))
  | create _ => True
  | free ino readInode writeInode io => readInode.isSome ∨ io.Stops fs (st.fileAcl ino) st ∨
      (io.iblkSubBlocks = none ∧ writeInode = none)
  | freeGiven ino io => io.Stops fs (st.fileAcl ino) st

/-- What holds of an operation: it is about an inode in use; the blocks that are freed with a
file are not EA blocks, and those that are allocated for one are free; an inode that is
found is not in use. -/
def EaOp.Possible (fs : BmapFs) (st : EaState) : EaOp → Prop
  | write ino _ _ => ino ∈ st.inodes
  | decRef ino io => ino ∈ st.inodes ∧ ∀ t ∈ io.punched, t / fs.ratio ≠ 0 ∧
      ∀ b ∈ st.eaBlocks, b / fs.ratio ≠ t / fs.ratio
  | create io => (∀ t ∈ io.taken, st.blockMap (t / fs.ratio) = false) ∧
      ∀ ino, io.ino = .ok ino → ino ∉ st.inodes ∧ 0 < ino ∧ ino < 2 ^ 32
  | free ino _ _ _ => ino ∈ st.inodes
  | freeGiven ino _ => ino ∈ st.inodes

/-! ### Counting -/

/-- The number without one inode, and that one. -/
theorem namers_eq (hi : ino ∈ st.inodes) (b : ℕ) : st.namers b =
    (if st.fileAcl ino = b then 1 else 0) +
      ((st.inodes.erase ino).filter fun i => st.fileAcl i = b).card := by
  rw [EaState.namers, Finset.card_filter, Finset.card_filter,
    Finset.add_sum_erase st.inodes (fun i => if st.fileAcl i = b then 1 else 0) hi]

theorem namers_pos (hi : ino ∈ st.inodes) : 0 < st.namers (st.fileAcl ino) := by
  rw [namers_eq hi, if_pos rfl]
  omega

/-- **An inode names another block**, or none. -/
theorem namers_writeInode (hi : ino ∈ st.inodes) (v b : ℕ) :
    (st.writeInode ino v).namers b + (if st.fileAcl ino = b then 1 else 0) =
      st.namers b + if v = b then 1 else 0 := by
  have hnew := @namers_eq (st.writeInode ino v) ino hi b
  have hsame : ((st.inodes.erase ino).filter fun i => (st.writeInode ino v).fileAcl i = b) =
      (st.inodes.erase ino).filter fun i => st.fileAcl i = b := by
    refine Finset.filter_congr fun i hi => ?_
    show Function.update st.fileAcl ino v i = b ↔ _
    rw [Function.update_of_ne (Finset.ne_of_mem_erase hi)]
  have hself : (st.writeInode ino v).fileAcl ino = v := Function.update_self ..
  rw [hself] at hnew
  have hold := namers_eq hi b
  have herase : (st.writeInode ino v).inodes.erase ino = st.inodes.erase ino := rfl
  rw [herase, hsame] at hnew
  omega

theorem namers_lt (hg : st.Good fs) (b : ℕ) : st.namers b < 2 ^ 32 := by
  have hsub : (st.inodes.filter fun i => st.fileAcl i = b) ⊆ Finset.Ioo 0 (2 ^ 32) := by
    intro i hi
    exact Finset.mem_Ioo.mpr (hg.inodes i (Finset.mem_of_mem_filter i hi))
  have hcard := Finset.card_le_card hsub
  rw [Nat.card_Ioo] at hcard
  rw [EaState.namers]
  omega

/-! ### The block bitmap -/

theorem blockAllocStats_eq (marks : ℕ → Bool) (inuse : Bool) (h : blk < fs.blocksCount) (c : ℕ) :
    blockAllocStats fs marks blk inuse c = if c = blk / fs.ratio then inuse else marks c := by
  rw [blockAllocStats, if_neg (Nat.not_le.mpr h), Function.update_apply]

theorem foldl_blockAllocStats (inuse : Bool) : ∀ {blks : List ℕ} {marks : ℕ → Bool} {c : ℕ},
    (∀ t ∈ blks, c ≠ t / fs.ratio) →
    blks.foldl (fun map b => blockAllocStats fs map b inuse) marks c = marks c := by
  intro blks
  induction blks with
  | nil => exact fun _ => rfl
  | cons t blks ih =>
    intro marks c h
    rw [List.foldl_cons, ih fun y hy => h y (List.mem_cons_of_mem _ hy), blockAllocStats]
    split
    · rfl
    · exact Function.update_of_ne (h t (by simp)) ..

/-! ### Giving up a block -/

/-- **One namer less**: the count in the block, and the block if it was the last. -/
theorem EaState.Good.dropRef (hg : st.Good fs) (hi : ino ∈ st.inodes) (hblk : st.fileAcl ino ≠ 0) :
    ((st.dropRef fs (st.fileAcl ino)).writeInode ino 0).Good fs := by
  have hmem : st.fileAcl ino ∈ st.eaBlocks := (hg.named ino hi).resolve_left hblk
  obtain ⟨blk, hb⟩ : ∃ blk, blk = st.fileAcl ino := ⟨_, rfl⟩
  rw [← hb] at hmem hblk ⊢
  obtain ⟨hcount, hfree⟩ := hg.exact blk hmem
  have hpos : 0 < st.namers blk := hb ▸ namers_pos hi
  have hlt := namers_lt hg blk
  have hnew : (st.hRefcount blk + 2 ^ 32 - 1) % 2 ^ 32 = st.namers blk - 1 := by
    rw [hcount]
    omega
  obtain ⟨hin, hfirst⟩ := hg.inside blk hmem
  have hnamers : ∀ b, b ≠ 0 → ((st.dropRef fs blk).writeInode ino 0).namers b =
      st.namers b - if blk = b then 1 else 0 := by
    intro b hb0
    have h := namers_writeInode hi 0 b
    rw [if_neg hb0.symm, ← hb] at h
    show (st.writeInode ino 0).namers b = _
    omega
  have hrefs : ∀ b, ((st.dropRef fs blk).writeInode ino 0).hRefcount b =
      if b = blk then st.namers blk - 1 else st.hRefcount b := by
    intro b
    simp only [EaState.dropRef, EaState.writeInode, hnew, Function.update_apply]
  have hmap : ∀ c, ((st.dropRef fs blk).writeInode ino 0).blockMap c =
      if st.namers blk = 1 ∧ c = blk / fs.ratio then false else st.blockMap c := by
    intro c
    simp only [EaState.dropRef, EaState.writeInode, hnew]
    by_cases hone : st.namers blk = 1
    · rw [if_pos (by omega), blockAllocStats_eq _ _ hin]
      simp [hone]
    · rw [if_neg (by omega), if_neg fun h => hone h.1]
  refine ⟨fun b hbmem => ?_, fun i hi' => ?_, hg.apart, hg.inside, ?_, hg.inodes⟩
  · have hb0 : b ≠ 0 := fun h0 => (hg.inside b hbmem).2 (by rw [h0, Nat.zero_div])
    obtain ⟨hcb, hfb⟩ := hg.exact b hbmem
    rw [hnamers b hb0, hmap, hrefs]
    -- the block of the inode, freed if this was the last inode that named it
    by_cases hbb : b = blk
    · rw [if_pos hbb, if_pos hbb.symm, hbb]
      rw [hbb] at hfb
      refine ⟨rfl, ?_⟩
      · split
        · next h => simp [h.1]
        · next h =>
          have hone : st.namers blk ≠ 1 := fun h1 => h ⟨h1, rfl⟩
          rw [hfb]
          omega
    · have hcl : b / fs.ratio ≠ blk / fs.ratio := fun h => hbb (hg.apart b hbmem blk hmem h)
      rw [if_neg hbb, if_neg fun h => hbb h.symm, if_neg fun h => hcl h.2, Nat.sub_zero]
      exact ⟨hcb, hfb⟩
  · by_cases hii : i = ino
    · subst hii
      exact Or.inl (Function.update_self ..)
    · show Function.update st.fileAcl ino 0 i = 0 ∨ Function.update st.fileAcl ino 0 i ∈ st.eaBlocks
      rw [Function.update_of_ne hii]
      exact hg.named i hi'
  · rw [hmap, if_neg fun h => hfirst h.2.symm]
    exact hg.first

/-! ### A new block -/

/-- The state after an inode has been given the new block `nb` in place of its old one. -/
structure MovedTo (fs : BmapFs) (st : EaState) (ino nb : ℕ) (st' : EaState) : Prop where
  newRef : st'.hRefcount nb = 1
  oldRef : ∀ b, b ≠ nb → b ≠ 0 →
    st'.hRefcount b = if b = st.fileAcl ino then st.namers b - 1 else st.hRefcount b
  fileAcl : st'.fileAcl = Function.update st.fileAcl ino nb
  blockMap : st'.blockMap = blockAllocStats fs st.blockMap nb true
  inodes : st'.inodes = st.inodes
  eaBlocks : st'.eaBlocks = insert nb (st.eaBlocks.filter fun b => b / fs.ratio ≠ nb / fs.ratio)

/-- A free block is named by no inode. -/
theorem namers_of_free (hg : st.Good fs) (h0 : b ≠ 0) (hfree : st.blockMap (b / fs.ratio) = false) :
    st.namers b = 0 := by
  by_cases hb : b ∈ st.eaBlocks
  · exact (hg.exact b hb).2.mp hfree
  · rw [EaState.namers, Finset.card_eq_zero, Finset.filter_eq_empty_iff]
    intro i hi heq
    rcases hg.named i hi with h | h
    · exact h0 (heq.symm.trans h)
    · exact hb (heq ▸ h)

/-- **An inode gets a new block** in place of one it shares, or of none. -/
theorem EaState.Good.movedTo {nb goal : ℕ} (hg : st.Good fs) (hok : fs.Ok) (hi : ino ∈ st.inodes)
    (hnew : newBlock fs st.blockMap goal = some nb)
    (hold : st.fileAcl ino = 0 ∨ st.namers (st.fileAcl ino) ≠ 1) (hm : MovedTo fs st ino nb st') :
    st'.Good fs := by
  obtain ⟨hfree, hin⟩ := newBlock_free hok hnew
  have hcl0 : nb / fs.ratio ≠ 0 := fun h0 => by
    rw [h0, hg.first] at hfree
    cases hfree
  have hnb0 : nb ≠ 0 := fun h0 => hcl0 (by rw [h0, Nat.zero_div])
  have hnone : st.namers nb = 0 := namers_of_free hg hnb0 hfree
  have hne : st.fileAcl ino ≠ nb := fun h => by
    have hpos := namers_pos hi
    rw [h] at hpos
    omega
  have hnamers : ∀ b, st'.namers b + (if st.fileAcl ino = b then 1 else 0) =
      st.namers b + if nb = b then 1 else 0 := by
    intro b
    rw [← namers_writeInode hi nb b]
    rw [EaState.namers, EaState.namers, hm.fileAcl, hm.inodes]
    rfl
  have hmap : ∀ c, st'.blockMap c = if c = nb / fs.ratio then true else st.blockMap c := by
    intro c
    rw [hm.blockMap, blockAllocStats_eq _ _ hin]
  have hmem : ∀ b, b ∈ st'.eaBlocks ↔ b = nb ∨ b ∈ st.eaBlocks ∧ b / fs.ratio ≠ nb / fs.ratio := by
    intro b
    rw [hm.eaBlocks, Finset.mem_insert, Finset.mem_filter]
  have hinside : ∀ b ∈ st'.eaBlocks, b < fs.blocksCount ∧ b / fs.ratio ≠ 0 := by
    intro b hb
    rcases (hmem b).mp hb with rfl | ⟨hb, -⟩
    · exact ⟨hin, hcl0⟩
    · exact hg.inside b hb
  -- the new block was free, so nobody named it before
  refine ⟨fun b hb => ?_, fun i hi' => ?_, fun a ha b hb hab => ?_, hinside, ?_, ?_⟩
  · have hn := hnamers b
    rw [hmap]
    rcases (hmem b).mp hb with rfl | ⟨hb, hcl⟩
    · rw [if_neg hne, if_pos rfl] at hn
      rw [if_pos rfl, hm.newRef]
      exact ⟨by omega, by simp; omega⟩
    · have hbn : b ≠ nb := fun h => hcl (by rw [h])
      have hb0 : b ≠ 0 := fun h0 => (hg.inside b hb).2 (by rw [h0, Nat.zero_div])
      obtain ⟨hc, hf⟩ := hg.exact b hb
      rw [if_neg hbn.symm] at hn
      rw [if_neg hcl, hm.oldRef b hbn hb0, hf]
      by_cases hbo : b = st.fileAcl ino
      · rw [if_pos hbo.symm] at hn
        rw [if_pos hbo]
        have hpos := namers_pos hi
        rw [← hbo] at hpos hold
        rcases hold with h0 | hone
        · exact absurd h0 hb0
        · exact ⟨by omega, by omega⟩
      · rw [if_neg fun h => hbo h.symm] at hn
        rw [if_neg hbo]
        exact ⟨by omega, by omega⟩
  · rw [hm.inodes] at hi'
    rw [hm.fileAcl]
    by_cases hii : i = ino
    · subst hii
      rw [Function.update_self]
      exact Or.inr ((hmem nb).mpr (Or.inl rfl))
    · rw [Function.update_of_ne hii]
      refine (hg.named i hi').imp_right fun hmemi => (hmem _).mpr (Or.inr ⟨hmemi, fun hcl => ?_⟩)
      have hzero := (hg.exact _ hmemi).2.mp (hcl ▸ hfree)
      have := namers_pos hi'
      omega
  · rcases (hmem a).mp ha with rfl | ⟨ha, hca⟩
    · rcases (hmem b).mp hb with rfl | ⟨hb, hcb⟩
      · rfl
      · exact absurd hab.symm hcb
    · rcases (hmem b).mp hb with rfl | ⟨hb, hcb⟩
      · exact absurd hab hca
      · exact hg.apart a ha b hb hab
  · rw [hmap, if_neg hcl0.symm]
    exact hg.first
  · rw [hm.inodes]
    exact hg.inodes

/-! ### The operations -/

theorem freeExtAttr_of_stops {io : FreeIo} (h : io.Stops fs blk st) :
    (freeExtAttr fs io blk st).2 = (blk, st) := by
  rw [freeExtAttr]
  split_ifs with h1 h2 h3 h4 h5 h6
  · rfl
  · rfl
  · rfl
  · rfl
  · rfl
  · rfl
  · rcases h with h | h | h | h | h | h
    · exact absurd h h1
    · exact absurd h h2
    · exact absurd h h3
    · exact absurd h h4
    · exact absurd h h5
    · exact absurd h h6

theorem freeExtAttr_of_not_stops {io : FreeIo} (h : ¬io.Stops fs blk st) :
    blk ≠ 0 ∧ freeExtAttr fs io blk st = (io.iblkSubBlocks, 0, st.dropRef fs blk) := by
  rw [FreeIo.Stops] at h
  push Not at h
  obtain ⟨h1, h2, h3, h4, h5, h6⟩ := h
  refine ⟨h1, ?_⟩
  rw [freeExtAttr, if_neg h1, if_neg (by omega), if_neg h3, if_neg h4, if_neg (by simpa using h5),
    if_neg h6]

theorem blk_eq_zero_of_none {io : FreeIo} (h : io.Stops fs blk st)
    (hr : (freeExtAttr fs io blk st).1 = none) : blk = 0 := by
  by_contra hblk
  rw [freeExtAttr, if_neg hblk] at hr
  split_ifs at hr with h2 h3 h4 h5 h6
  · have hnone : io.getMem = none := hr
    rw [hnone] at h3
    cases h3
  · have hnone : io.readBlock = none := hr
    rw [hnone] at h4
    cases h4
  · have hnone : io.writeBlock = none := hr
    rw [hnone] at h6
    cases h6
  · rcases h with h | h | h | h | h | h
    · exact hblk h
    · exact h2 h
    · exact h3 h
    · exact h4 h
    · exact h5 h
    · exact h6 h

theorem writeInode_self (st : EaState) (ino : ℕ) : st.writeInode ino (st.fileAcl ino) = st := by
  rw [EaState.writeInode, Function.update_eq_self]

theorem EaState.Good.free {readInode writeInode : Option ℕ} {io : FreeIo} (hg : st.Good fs)
    (hp : (EaOp.free ino readInode writeInode io).Possible fs st)
    (hc : (EaOp.free ino readInode writeInode io).Completes fs st) :
    ((EaOp.free ino readInode writeInode io).run fs st).Good fs := by
  show (freeExtAttrOf fs readInode writeInode io ino st).2.Good fs
  rw [freeExtAttrOf]
  split
  · exact hg
  · next hread =>
    split
    · exact hg
    · by_cases hs : io.Stops fs (st.fileAcl ino) st
      · have h2 := freeExtAttr_of_stops hs
        rcases hr : freeExtAttr fs io (st.fileAcl ino) st with ⟨r, blk, st₁⟩
        rw [hr] at h2
        obtain ⟨rfl, rfl⟩ := Prod.mk.inj h2
        cases r with
        | some err => exact hg
        | none =>
          dsimp only
          split
          · exact hg
          · rw [writeInode_self]
            exact hg
      · obtain ⟨hblk, hr⟩ := freeExtAttr_of_not_stops hs
        obtain ⟨hsub, hwrite⟩ := (hc.resolve_left hread).resolve_left hs
        rw [hr, hsub, hwrite]
        exact hg.dropRef hp hblk

/-- Blocks that are no EA blocks are freed. -/
theorem EaState.Good.punch {punched : List ℕ} (hg : st.Good fs)
    (hp : ∀ t ∈ punched, t / fs.ratio ≠ 0 ∧ ∀ b ∈ st.eaBlocks, b / fs.ratio ≠ t / fs.ratio) :
    ({ st with
      blockMap := punched.foldl (fun map b => blockAllocStats fs map b false) st.blockMap } :
        EaState).Good fs := by
  refine ⟨fun b hb => ?_, hg.named, hg.apart, hg.inside, ?_, hg.inodes⟩
  · obtain ⟨hc, hf⟩ := hg.exact b hb
    refine ⟨hc, ?_⟩
    show punched.foldl _ st.blockMap (b / fs.ratio) = false ↔ _
    rw [foldl_blockAllocStats false fun t ht => (hp t ht).2 b hb]
    exact hf
  · show punched.foldl _ st.blockMap 0 = true
    rw [foldl_blockAllocStats false fun t ht => (hp t ht).1.symm]
    exact hg.first

/-- An inode that names no block is not in use any more. -/
theorem EaState.Good.erase (hg : st.Good fs) (h0 : st.fileAcl ino = 0) :
    ({ st with inodes := st.inodes.erase ino } : EaState).Good fs := by
  have hnamers : ∀ b, b ≠ 0 →
      ({ st with inodes := st.inodes.erase ino } : EaState).namers b = st.namers b := by
    intro b hb
    rw [EaState.namers, EaState.namers]
    refine congrArg Finset.card ?_
    show (st.inodes.erase ino).filter (fun i => st.fileAcl i = b) = _
    ext i
    rw [Finset.mem_filter, Finset.mem_filter, Finset.mem_erase]
    constructor
    · rintro ⟨⟨-, hi⟩, heq⟩
      exact ⟨hi, heq⟩
    · rintro ⟨hi, heq⟩
      refine ⟨⟨fun h => hb ?_, hi⟩, heq⟩
      rw [← heq, h, h0]
  refine ⟨fun b hb => ?_, fun i hi => hg.named i (Finset.mem_of_mem_erase hi), hg.apart, hg.inside,
    hg.first, fun i hi => hg.inodes i (Finset.mem_of_mem_erase hi)⟩
  rw [hnamers b fun h => (hg.inside b hb).2 (by rw [h, Nat.zero_div])]
  exact hg.exact b hb

/-- An inode comes into use, without an EA block. -/
theorem EaState.Good.addInode {eaInodeRef : ℕ → ℕ} (hg : st.Good fs) (hnew : ino ∉ st.inodes)
    (hino : 0 < ino ∧ ino < 2 ^ 32) : ({ st.writeInode ino 0 with
      eaInodeRef := eaInodeRef, inodes := insert ino st.inodes } : EaState).Good fs := by
  obtain ⟨st', hst'⟩ : ∃ st' : EaState, st' = { st.writeInode ino 0 with
      eaInodeRef := eaInodeRef, inodes := insert ino st.inodes } := ⟨_, rfl⟩
  rw [← hst']
  have hacl : st'.fileAcl = Function.update st.fileAcl ino 0 := by rw [hst']; rfl
  have hinodes : st'.inodes = insert ino st.inodes := by rw [hst']
  have hother : ∀ i ∈ st.inodes, st'.fileAcl i = st.fileAcl i := by
    intro i hi
    have hne : i ≠ ino := fun h => hnew (h ▸ hi)
    rw [hacl, Function.update_of_ne hne]
  have hnamers : ∀ b, b ≠ 0 → st'.namers b = st.namers b := by
    intro b hb
    rw [EaState.namers, EaState.namers, hinodes, Finset.filter_insert, hacl, Function.update_self,
      if_neg hb.symm]
    refine congrArg Finset.card (Finset.filter_congr fun i hi => ?_)
    rw [← hacl, hother i hi]
  refine ⟨fun b hb => ?_, fun i hi => ?_, ?_, ?_, ?_, fun i hi => ?_⟩
  · have hb : b ∈ st.eaBlocks := by rwa [hst'] at hb
    rw [hnamers b fun h => (hg.inside b hb).2 (by rw [h, Nat.zero_div]), hst']
    exact hg.exact b hb
  · rw [hinodes] at hi
    rcases Finset.mem_insert.mp hi with rfl | hi
    · rw [hacl, Function.update_self]
      exact Or.inl rfl
    · rw [hother i hi, hst']
      exact hg.named i hi
  · rw [hst']
    exact hg.apart
  · rw [hst']
    exact hg.inside
  · rw [hst']
    exact hg.first
  · rw [hinodes] at hi
    rcases Finset.mem_insert.mp hi with rfl | hi
    · exact hino
    · exact hg.inodes i hi

/-- The inode of a large value is written. -/
theorem EaState.Good.writeRef {eaInodeRef : ℕ → ℕ} (hg : st.Good fs) :
    ({ st with eaInodeRef := eaInodeRef } : EaState).Good fs :=
  ⟨hg.exact, hg.named, hg.apart, hg.inside, hg.first, hg.inodes⟩

/-- The inode of a large value is written with the EA block it had. -/
theorem EaState.Good.writeSame {eaInodeRef : ℕ → ℕ} (hg : st.Good fs) :
    ({ st.writeInode ino (st.fileAcl ino) with eaInodeRef := eaInodeRef } : EaState).Good fs := by
  rw [writeInode_self]
  exact hg.writeRef

theorem EaState.Good.decRef {io : DecRefIo} (hg : st.Good fs)
    (hp : (EaOp.decRef ino io).Possible fs st) (hc : (EaOp.decRef ino io).Completes fs st) :
    ((EaOp.decRef ino io).run fs st).Good fs := by
  obtain ⟨hi, hpunched⟩ := hp
  show (xattrInodeDecRef fs io ino st).2.Good fs
  rw [xattrInodeDecRef]
  split
  · exact hg
  next hread =>
  split
  · split
    · exact hg
    · exact hg.writeSame
  next hlast =>
  by_cases hs : io.free.Stops fs (st.fileAcl ino) st
  · have h2 := freeExtAttr_of_stops hs
    rcases hr : freeExtAttr fs io.free (st.fileAcl ino) st with ⟨r, blk, st₁⟩
    rw [hr] at h2
    obtain ⟨rfl, rfl⟩ := Prod.mk.inj h2
    cases r with
    | some err =>
      dsimp only
      split
      · exact hg
      · exact hg.writeSame
    | none =>
      -- there is no block, so that the inode does not count
      have hzero : st₁.fileAcl ino = 0 := blk_eq_zero_of_none hs (by rw [hr])
      dsimp only
      split
      · exact hg.punch hpunched
      · split
        · exact (hg.punch hpunched).erase hzero
        · exact ((hg.punch hpunched).erase hzero).writeSame
  · obtain ⟨hblk, hr⟩ := freeExtAttr_of_not_stops hs
    obtain ⟨hwrite, hpunch⟩ := ((hc.resolve_left hread).resolve_left hlast).resolve_left hs
    have hdrop := hg.dropRef hi hblk
    rw [hr, hwrite]
    have hsame : (st.dropRef fs (st.fileAcl ino)).eaBlocks = st.eaBlocks := rfl
    rw [← hsame] at hpunched
    generalize st.dropRef fs (st.fileAcl ino) = st₁ at hdrop hpunched ⊢
    rcases hsub : io.free.iblkSubBlocks with _ | err
    · rw [hpunch hsub]
      have hzero : (st₁.writeInode ino 0).fileAcl ino = 0 := Function.update_self ..
      exact ((hdrop.punch hpunched).erase hzero).writeRef
    · exact hdrop.writeRef

theorem EaState.Good.freeGiven {io : FreeIo} (hg : st.Good fs)
    (hc : (EaOp.freeGiven ino io).Completes fs st) :
    ((EaOp.freeGiven ino io).run fs st).Good fs := by
  show (freeExtAttr fs io (st.fileAcl ino) st).2.2.Good fs
  rw [freeExtAttr_of_stops hc]
  exact hg

/-- An inode is found for a large value, and blocks are allocated for it. -/
theorem EaState.Good.create {io : CreateIo} (hg : st.Good fs)
    (hp : (EaOp.create io).Possible fs st) : ((EaOp.create io).run fs st).Good fs := by
  obtain ⟨htaken, hino⟩ := hp
  have hkept : ∀ b ∈ st.eaBlocks, st.namers b ≠ 0 →
      ∀ t ∈ io.taken, b / fs.ratio ≠ t / fs.ratio := by
    intro b hb hn t ht heq
    exact hn ((hg.exact b hb).2.mp (heq ▸ htaken t ht))
  obtain ⟨st₁, hst₁⟩ : ∃ st₁ : EaState, st₁ = { st with
      blockMap := io.taken.foldl (fun map b => blockAllocStats fs map b true) st.blockMap
      eaBlocks := st.eaBlocks.filter fun b => ∀ t ∈ io.taken, b / fs.ratio ≠ t / fs.ratio } :=
    ⟨_, rfl⟩
  have htook : st₁.Good fs := by
    subst hst₁
    refine ⟨fun b hb => ?_, fun i hi => ?_, fun a ha b hb => ?_, fun b hb => ?_, ?_, hg.inodes⟩
    · obtain ⟨hb, ht⟩ := Finset.mem_filter.mp hb
      obtain ⟨hc, hf⟩ := hg.exact b hb
      refine ⟨hc, ?_⟩
      show io.taken.foldl _ st.blockMap (b / fs.ratio) = false ↔ _
      rw [foldl_blockAllocStats true ht]
      exact hf
    · refine (hg.named i hi).imp_right fun hmem => Finset.mem_filter.mpr ⟨hmem, ?_⟩
      exact hkept _ hmem (namers_pos hi).ne'
    · exact hg.apart a (Finset.mem_of_mem_filter a ha) b (Finset.mem_of_mem_filter b hb)
    · exact hg.inside b (Finset.mem_of_mem_filter b hb)
    · show io.taken.foldl _ st.blockMap 0 = true
      rw [foldl_blockAllocStats true fun t ht h0 => ?_]
      · exact hg.first
      · have := htaken t ht
        rw [← h0, hg.first] at this
        cases this
  show (xattrCreateEaInode fs io st).2.Good fs
  rw [xattrCreateEaInode, ← hst₁]
  rcases hr : io.ino with err | ino
  · exact htook
  · obtain ⟨hnew, hino⟩ := hino ino hr
    have hnew : ino ∉ st₁.inodes := by rwa [hst₁]
    exact htook.addInode hnew hino

/-! ### Writing attributes -/

theorem allocEaBlock_of_not {io : PrepIo} (h : ¬io.Allocates fs st) :
    ∃ err, allocEaBlock fs io st = (.error err, st) := by
  rw [allocEaBlock]
  split
  · exact ⟨_, rfl⟩
  · next hbitmap =>
    rcases hnew : newBlock fs st.blockMap io.goal with _ | nb
    · exact ⟨_, rfl⟩
    · dsimp only
      split
      · exact ⟨_, rfl⟩
      · next hzero =>
        exact absurd ⟨by simpa using hbitmap, by simpa using hzero, by rw [hnew]; rfl⟩ h

theorem allocEaBlock_of_allocates {io : PrepIo} (h : io.Allocates fs st) :
    ∃ nb, newBlock fs st.blockMap io.goal = some nb ∧ allocEaBlock fs io st = (.ok nb, { st with
      hRefcount := Function.update st.hRefcount nb 0
      hMagic := Function.update st.hMagic nb false
      blockMap := blockAllocStats fs st.blockMap nb true
      eaBlocks := insert nb (st.eaBlocks.filter fun b => b / fs.ratio ≠ nb / fs.ratio) }) := by
  obtain ⟨hbitmap, hzero, hnew⟩ := h
  obtain ⟨nb, hnb⟩ := Option.isSome_iff_exists.mp hnew
  refine ⟨nb, hnb, ?_⟩
  rw [allocEaBlock, hbitmap, hzero, hnb]
  rfl

/-- The block is not shared, or there is an error. -/
theorem prepEaBlockForWrite_of_stops {io : PrepIo} (h : io.Stops fs blk st) :
    ∃ r, prepEaBlockForWrite fs io blk st = (r, st) ∧
      ∀ nb, r = .ok nb → nb = blk ∧ st.hRefcount blk = 1 := by
  rw [prepEaBlockForWrite]
  rw [PrepIo.Stops] at h
  by_cases h0 : blk = 0
  · rw [if_pos h0] at h
    rw [if_neg (not_not.mpr h0)]
    split
    · exact ⟨_, rfl, fun _ h => by cases h⟩
    · next hadd =>
      obtain ⟨err, herr⟩ := allocEaBlock_of_not (h.resolve_left hadd)
      exact ⟨_, herr, fun _ h => by cases h⟩
  · rw [if_neg h0] at h
    rw [if_pos h0]
    split_ifs with h1 h2 h3 h4 h5 h6
    · exact ⟨_, rfl, fun _ h => by cases h⟩
    · exact ⟨_, rfl, fun _ h => by cases h⟩
    · exact ⟨_, rfl, fun _ h => by cases h⟩
    · exact ⟨_, rfl, fun _ h => by cases h⟩
    · refine ⟨_, rfl, fun nb h => ?_⟩
      cases h
      exact ⟨rfl, h5⟩
    · exact ⟨_, rfl, fun _ h => by cases h⟩
    · rcases h with h | h | h | h | h | h
      · exact absurd h h1
      · exact absurd h h2
      · exact absurd h h3
      · exact absurd h h4
      · exact absurd h h5
      · exact absurd h h6

/-- A new block is allocated, and the shared one has been given up. -/
theorem prepEaBlockForWrite_of_allocates {io : PrepIo} (hs : ¬io.Stops fs blk st)
    (ha : io.Allocates fs st) : (blk = 0 ∨ st.hRefcount blk ≠ 1) ∧
    ∃ nb hRefcount hMagic, newBlock fs st.blockMap io.goal = some nb ∧
      (∀ b, b ≠ nb → b ≠ 0 → hRefcount b =
        if b = blk then (st.hRefcount blk + 2 ^ 32 - 1) % 2 ^ 32 else st.hRefcount b) ∧
      prepEaBlockForWrite fs io blk st = (.ok nb, { st with
        hRefcount := hRefcount
        hMagic := hMagic
        blockMap := blockAllocStats fs st.blockMap nb true
        eaBlocks := insert nb (st.eaBlocks.filter fun b => b / fs.ratio ≠ nb / fs.ratio) }) := by
  rw [PrepIo.Stops] at hs
  rw [prepEaBlockForWrite]
  by_cases h0 : blk = 0
  · rw [if_pos h0] at hs
    push Not at hs
    obtain ⟨nb, hnb, hr⟩ := allocEaBlock_of_allocates ha
    rw [if_neg (not_not.mpr h0), if_neg hs.1, hr]
    refine ⟨Or.inl h0, nb, _, _, hnb, fun b hb hb0 => ?_, rfl⟩
    rw [if_neg fun h => hb0 (h.trans h0), Function.update_of_ne hb]
  · rw [if_neg h0] at hs
    push Not at hs
    obtain ⟨h1, h2, h3, h4, h5, h6⟩ := hs
    obtain ⟨st₁, hst₁⟩ : ∃ st₁ : EaState, st₁ = { st with
        hRefcount :=
          Function.update st.hRefcount blk ((st.hRefcount blk + 2 ^ 32 - 1) % 2 ^ 32) } :=
      ⟨_, rfl⟩
    have ha₁ : io.Allocates fs st₁ := by
      rw [hst₁]
      exact ha
    obtain ⟨nb, hnb, hr⟩ := allocEaBlock_of_allocates ha₁
    rw [if_pos h0, if_neg (by omega), if_neg h2, if_neg h3, if_neg (by simpa using h4), if_neg h5,
      if_neg h6, ← hst₁, hr]
    refine ⟨Or.inr h5, nb, Function.update st₁.hRefcount nb 0, Function.update st₁.hMagic nb false,
      ?_, fun b hb _ => ?_, ?_⟩
    · rw [← hnb, hst₁]
    · rw [Function.update_of_ne hb, hst₁]
      exact Function.update_apply ..
    · rw [hst₁]

/-- What `ext2fs_xattrs_write` does with the block it has prepared. -/
def xattrsWriteBlock (io : WriteIo) (ino : ℕ) : Except ℕ ℕ × EaState → Option ℕ × EaState
  | (.error err, st) => (some err, st)
  | (.ok blk, st) =>
    if io.writeBlock.isSome then (io.writeBlock, st)
    else
      let st := { st with
        hRefcount := Function.update st.hRefcount blk 1
        hMagic := Function.update st.hMagic blk true }
      if io.writeInode.isSome then (io.writeInode, st) else (none, st.writeInode ino blk)

theorem xattrsWrite_of_skips {inBlock : Bool} {io : WriteIo}
    (h : io.Skips inBlock (st.fileAcl ino)) :
    (xattrsWrite fs io ino inBlock st).2 = st := by
  rw [xattrsWrite]
  by_cases h1 : io.getInodeMem.isSome
  · rw [if_pos h1]
  by_cases h2 : io.readInode.isSome
  · rw [if_neg h1, if_pos h2]
  by_cases h3 : io.badExtraIsize = true
  · rw [if_neg h1, if_neg h2, if_pos h3]
  by_cases h4 : io.writeBody.isSome
  · rw [if_neg h1, if_neg h2, if_neg h3, if_pos h4]
  rw [if_neg h1, if_neg h2, if_neg h3, if_neg h4]
  by_cases h5 : inBlock = false ∧ st.fileAcl ino = 0
  · rw [if_pos h5]
    split
    · rfl
    · exact writeInode_self st ino
  by_cases h6 : io.getBlockMem.isSome
  · rw [if_neg h5, if_pos h6]
  rw [if_neg h5, if_neg h6, if_pos]
  rcases h with h | h | h | h | h | h | h
  · exact absurd h h1
  · exact absurd h h2
  · exact absurd h h3
  · exact absurd h h4
  · exact absurd h h5
  · exact absurd h h6
  · exact h

theorem xattrsWrite_of_not_skips {inBlock : Bool} {io : WriteIo}
    (h : ¬io.Skips inBlock (st.fileAcl ino)) : xattrsWrite fs io ino inBlock st =
      xattrsWriteBlock io ino (prepEaBlockForWrite fs io.prep (st.fileAcl ino) st) := by
  simp only [WriteIo.Skips, not_or] at h
  obtain ⟨h1, h2, h3, h4, h5, h6, h7⟩ := h
  rw [xattrsWrite, if_neg h1, if_neg h2, if_neg h3, if_neg h4, if_neg h5, if_neg h6, if_neg h7]
  rfl

theorem EaState.Good.write {inBlock : Bool} {io : WriteIo} (hg : st.Good fs) (hok : fs.Ok)
    (hi : ino ∈ st.inodes) (hc : (EaOp.write ino inBlock io).Completes fs st) :
    ((EaOp.write ino inBlock io).run fs st).Good fs := by
  show (xattrsWrite fs io ino inBlock st).2.Good fs
  by_cases hskips : io.Skips inBlock (st.fileAcl ino)
  · rw [xattrsWrite_of_skips hskips]
    exact hg
  rw [xattrsWrite_of_not_skips hskips]
  by_cases hs : io.prep.Stops fs (st.fileAcl ino) st
  · obtain ⟨r, hr, hone⟩ := prepEaBlockForWrite_of_stops hs
    rw [hr]
    cases r with
    | error err => exact hg
    | ok nb =>
      -- the block is not shared and stays where it is
      obtain ⟨hnb, hcount⟩ := hone nb rfl
      subst hnb
      have hwritten : ({ st with
          hRefcount := Function.update st.hRefcount (st.fileAcl ino) 1
          hMagic := Function.update st.hMagic (st.fileAcl ino) true } : EaState).Good fs := by
        rw [← hcount, Function.update_eq_self]
        exact ⟨hg.exact, hg.named, hg.apart, hg.inside, hg.first, hg.inodes⟩
      rw [xattrsWriteBlock]
      split
      · exact hg
      · dsimp only
        split
        · exact hwritten
        · exact (writeInode_self _ ino).symm ▸ hwritten
  · obtain ⟨ha, hblock, hinode⟩ := (hc.resolve_left hskips).resolve_left hs
    obtain ⟨hold, nb, hRefcount, hMagic, hnb, hrefs, hr⟩ := prepEaBlockForWrite_of_allocates hs ha
    rw [hr, xattrsWriteBlock, hblock, hinode]
    dsimp only
    rw [if_neg (by simp), if_neg (by simp)]
    have hcount : st.fileAcl ino ≠ 0 → st.hRefcount (st.fileAcl ino) = st.namers (st.fileAcl ino) :=
      fun h0 => (hg.exact _ ((hg.named ino hi).resolve_left h0)).1
    have hpos := namers_pos hi
    have hlt := namers_lt hg (st.fileAcl ino)
    refine hg.movedTo hok hi hnb ?_ ⟨?_, fun b hb hb0 => ?_, rfl, rfl, rfl, rfl⟩
    · by_cases h0 : st.fileAcl ino = 0
      · exact Or.inl h0
      · rw [← hcount h0]
        exact hold
    · exact Function.update_self ..
    · show Function.update hRefcount nb 1 b = _
      rw [Function.update_of_ne hb, hrefs b hb hb0]
      split
      · next heq =>
        rw [hcount (heq ▸ hb0)]
        rw [← heq] at hpos hlt ⊢
        omega
      · rfl

/-- **One operation**: it keeps the counts exact, if it completes. -/
theorem EaOp.good_run {op : EaOp} (hok : fs.Ok) (hg : st.Good fs) (hp : op.Possible fs st)
    (hc : op.Completes fs st) : (op.run fs st).Good fs := by
  cases op with
  | write ino inBlock io => exact hg.write hok hp hc
  | decRef ino io => exact hg.decRef hp hc
  | create io => exact hg.create hp
  | free ino readInode writeInode io => exact hg.free hp hc
  | freeGiven ino io => exact hg.freeGiven hc

end Refcount

end E2fsprogs
