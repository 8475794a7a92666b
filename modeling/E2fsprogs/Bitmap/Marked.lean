import E2fsprogs.Bitmap.Compare

/-!
# What is tested after ranges are marked and unmarked

A test of a block after `ext2fs_mark_block_bitmap_range2` and
`ext2fs_unmark_block_bitmap_range2`, for ranges that may lie outside a 64-bit bitmap: such a
range is refused as a whole, and a block outside is never set.
-/

namespace E2fsprogs

namespace BlockBitmap

/-- All of the range is in the bitmap. -/
def RangeIn (bm : BlockBitmap) (block num : ℕ) : Prop :=
  bm.first ≤ block >>> bm.clusterBits ∧ (block + num - 1) >>> bm.clusterBits ≤ bm.last

/-- The block is in the bitmap. -/
def BlockIn (bm : BlockBitmap) (b : ℕ) : Prop :=
  bm.first ≤ b >>> bm.clusterBits ∧ b >>> bm.clusterBits ≤ bm.last

/-- The range has a block in the cluster of `b`. -/
def Shares (bm : BlockBitmap) (block num b : ℕ) : Prop :=
  ∃ b', block ≤ b' ∧ b' < block + num ∧ b' >>> bm.clusterBits = b >>> bm.clusterBits

/-- Bitmaps of the same clusters. -/
structure SameShape (a b : BlockBitmap) : Prop where
  clusterBits : a.clusterBits = b.clusterBits
  first : a.first = b.first
  last : a.last = b.last

end BlockBitmap

open BlockBitmap

section Marked

variable {bal : SearchTree RbExtent → List RbExtent → SearchTree RbExtent} {bm bm' : BlockBitmap}
  {block num b : ℕ}

theorem BlockBitmap.SameShape.rangeIn (h : SameShape bm' bm) :
    bm'.RangeIn block num ↔ bm.RangeIn block num := by
  rw [RangeIn, RangeIn, h.clusterBits, h.first, h.last]

theorem BlockBitmap.SameShape.shares (h : SameShape bm' bm) :
    bm'.Shares block num b ↔ bm.Shares block num b := by
  rw [Shares, Shares, h.clusterBits]

theorem BlockBitmap.SameShape.trans {bm'' : BlockBitmap} (h : SameShape bm'' bm')
    (h' : SameShape bm' bm) : SameShape bm'' bm :=
  ⟨h.clusterBits.trans h'.clusterBits, h.first.trans h'.first, h.last.trans h'.last⟩

/-- A block is tested by the bit of its cluster, and clear outside the bitmap. -/
theorem test_iff (h : bm.Sound) :
    bm.test b = true ↔ bm.BlockIn b ∧ bm.bit (b >>> bm.clusterBits) = true := by
  cases bm with
  | legacy start bmapEnd realEnd a => cases h
  | rb c start bmapEnd bp =>
    rw [BlockBitmap.test]
    show _ ↔ (start ≤ b >>> c ∧ b >>> c ≤ bmapEnd) ∧ rbTest start bp (b >>> c) = true
    split
    · next hout =>
      refine ⟨fun hf => absurd hf Bool.false_ne_true, fun hin => ?_⟩
      omega
    · next hin => exact (and_iff_right (by omega)).symm
  | ba c start bmapEnd a =>
    rw [BlockBitmap.test]
    show _ ↔ (start ≤ b >>> c ∧ b >>> c ≤ bmapEnd) ∧ bitAt a (b >>> c - start) = true
    split
    · next hout =>
      refine ⟨fun hf => absurd hf Bool.false_ne_true, fun hin => ?_⟩
      omega
    · next hin => exact (and_iff_right (by omega)).symm

theorem blockIn_of_test (h : bm.Sound) (ht : bm.test b = true) : bm.BlockIn b :=
  ((test_iff h).mp ht).1

/-- The clusters of a range that is not empty. -/
theorem rangeClusters_eq (c : ℕ) (hpos : 0 < num) (hlt : num < 2 ^ 32) : rangeClusters c block num =
    (block >>> c, (block + num - 1) >>> c + 1 - block >>> c) := by
  have hle := @clusters_le c block num hpos
  rw [rangeClusters]
  rw [stop_eq hpos, Nat.mod_eq_of_lt (by omega)]

theorem rangeBad_iff (hpos : 0 < num) (hlt : num < 2 ^ 32) :
    rangeBad bm.first bm.last (rangeClusters bm.clusterBits block num).1
      (rangeClusters bm.clusterBits block num).2 ↔ ¬bm.RangeIn block num := by
  have hmono := @shiftRight_mono block (block + num - 1) (by omega) bm.clusterBits
  rw [rangeClusters_eq _ hpos hlt, rangeBad, RangeIn]
  omega

theorem overClusters_of_sound (hbal : ∀ t l, (bal t l).inorder = l) (h : bm.Sound) :
    OverClusters bal block num bm (rangeClusters bm.clusterBits block num) := by
  cases bm with
  | legacy start bmapEnd realEnd a => cases h
  | rb c start bmapEnd bp => exact overClusters_rb hbal h
  | ba c start bmapEnd a => exact overClusters_ba

/-- What marking and unmarking keep, and that a range outside is refused. -/
theorem markRange_kept (hbal : ∀ t l, (bal t l).inorder = l) (h : bm.Sound) :
    (bm.markRange bal block num).Sound ∧ SameShape (bm.markRange bal block num) bm ∧
      (rangeBad bm.first bm.last (rangeClusters bm.clusterBits block num).1
        (rangeClusters bm.clusterBits block num).2 → bm.markRange bal block num = bm) := by
  cases bm with
  | legacy start bmapEnd realEnd a => cases h
  | rb c start bmapEnd bp =>
    rw [BlockBitmap.markRange]
    split
    · exact ⟨h, ⟨rfl, rfl, rfl⟩, fun _ => rfl⟩
    · next hgood => exact ⟨(rbInsertExtent_spec hbal h).ok, ⟨rfl, rfl, rfl⟩,
        fun hbad => absurd hbad hgood⟩
  | ba c start bmapEnd a =>
    rw [BlockBitmap.markRange]
    split
    · exact ⟨h, ⟨rfl, rfl, rfl⟩, fun _ => rfl⟩
    · next hgood => exact ⟨trivial, ⟨rfl, rfl, rfl⟩, fun hbad => absurd hbad hgood⟩

theorem unmarkRange_kept (hbal : ∀ t l, (bal t l).inorder = l) (h : bm.Sound) :
    (bm.unmarkRange bal block num).Sound ∧ SameShape (bm.unmarkRange bal block num) bm ∧
      (rangeBad bm.first bm.last (rangeClusters bm.clusterBits block num).1
        (rangeClusters bm.clusterBits block num).2 → bm.unmarkRange bal block num = bm) := by
  cases bm with
  | legacy start bmapEnd realEnd a => cases h
  | rb c start bmapEnd bp =>
    rw [BlockBitmap.unmarkRange]
    split
    · exact ⟨h, ⟨rfl, rfl, rfl⟩, fun _ => rfl⟩
    · next hgood => exact ⟨(rbRemoveExtent_spec hbal h).ok, ⟨rfl, rfl, rfl⟩,
        fun hbad => absurd hbad hgood⟩
  | ba c start bmapEnd a =>
    rw [BlockBitmap.unmarkRange]
    split
    · exact ⟨h, ⟨rfl, rfl, rfl⟩, fun _ => rfl⟩
    · next hgood => exact ⟨trivial, ⟨rfl, rfl, rfl⟩, fun hbad => absurd hbad hgood⟩

theorem shares_iff (hpos : 0 < num) (hlt : num < 2 ^ 32) : bm.Shares block num b ↔
    (rangeClusters bm.clusterBits block num).1 ≤ b >>> bm.clusterBits ∧
      b >>> bm.clusterBits < (rangeClusters bm.clusterBits block num).1 +
        (rangeClusters bm.clusterBits block num).2 := by
  have hmono := @shiftRight_mono block (block + num - 1) (by omega) bm.clusterBits
  rw [rangeClusters_eq _ hpos hlt, Shares, hit_iff hpos]
  omega

/-- A cluster that a range in the bitmap shares is in the bitmap. -/
theorem blockIn_of_shares (hin : bm.RangeIn block num) (h : bm.Shares block num b) :
    bm.BlockIn b := by
  obtain ⟨b', h1, h2, h3⟩ := h
  rw [BlockIn, ← h3]
  exact ⟨hin.1.trans (shiftRight_mono h1 _), (shiftRight_mono (by omega) _).trans hin.2⟩

/-- **A test after marking a range.** -/
theorem test_markRange (hbal : ∀ t l, (bal t l).inorder = l) (h : bm.Sound) (hpos : 0 < num)
    (hlt : num < 2 ^ 32) : (bm.markRange bal block num).test b = true ↔
      bm.test b = true ∨ (bm.RangeIn block num ∧ bm.Shares block num b) := by
  obtain ⟨hs, hshape, hbad⟩ := @markRange_kept bal bm block num hbal h
  by_cases hin : bm.RangeIn block num
  · have hgood := (not_iff_not.mpr (rangeBad_iff hpos hlt)).mpr (not_not.mpr hin)
    have hmark := (overClusters_of_sound hbal h).mark hgood
    rw [test_iff hs, test_iff h, hshape.clusterBits, BlockIn, BlockIn, hshape.first, hshape.last,
      hshape.clusterBits]
    constructor
    · rintro ⟨hb, hbit⟩
      rcases (hmark _ hb.1).mp hbit with hbit | hshare
      · exact Or.inl ⟨hb, hbit⟩
      · exact Or.inr ⟨hin, (shares_iff hpos hlt).mpr hshare⟩
    · rintro (⟨hb, hbit⟩ | ⟨-, hshare⟩)
      · exact ⟨hb, (hmark _ hb.1).mpr (Or.inl hbit)⟩
      · have hb := blockIn_of_shares hin hshare
        exact ⟨hb, (hmark _ hb.1).mpr (Or.inr ((shares_iff hpos hlt).mp hshare))⟩
  · rw [hbad ((rangeBad_iff hpos hlt).mpr hin)]
    simp [hin]

/-- **A test after unmarking a range.** -/
theorem test_unmarkRange (hbal : ∀ t l, (bal t l).inorder = l) (h : bm.Sound) (hpos : 0 < num)
    (hlt : num < 2 ^ 32) : (bm.unmarkRange bal block num).test b = true ↔
      bm.test b = true ∧ ¬(bm.RangeIn block num ∧ bm.Shares block num b) := by
  obtain ⟨hs, hshape, hbad⟩ := @unmarkRange_kept bal bm block num hbal h
  by_cases hin : bm.RangeIn block num
  · have hgood := (not_iff_not.mpr (rangeBad_iff hpos hlt)).mpr (not_not.mpr hin)
    have hunmark := (overClusters_of_sound hbal h).unmark hgood
    rw [test_iff hs, test_iff h, hshape.clusterBits, BlockIn, BlockIn, hshape.first, hshape.last,
      hshape.clusterBits]
    refine (and_congr_right fun hb => ?_).trans and_assoc.symm
    rw [hunmark _ hb.1, shares_iff hpos hlt]
    exact and_congr_right fun _ => by simp [hin]
  · rw [hbad ((rangeBad_iff hpos hlt).mpr hin)]
    simp [hin]

end Marked

end E2fsprogs
