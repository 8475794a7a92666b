import E2fsprogs.Bitmap.Range

/-!
# Ranges of blocks in a bitmap of clusters

`ext2fs_mark_block_bitmap_range2`, `ext2fs_unmark_block_bitmap_range2` and
`ext2fs_test_block_bitmap_range2`. A range of blocks is turned into a range of clusters, with the
end rounded up; a bitmap of the old kind (`gen_bitmap.c`) has no clusters, and counts the range with
an `int`.

Block numbers stay far below the end of 64 bits, so the only thing that wraps is `block + num - 1`
of an empty range at block 0.
-/

namespace E2fsprogs

/-- A block bitmap, with the two back ends of the 64-bit kind, and the 32-bit kind. -/
inductive BlockBitmap
  | rb (clusterBits start bmapEnd : ℕ) (bp : RbPrivate)
  | ba (clusterBits start bmapEnd : ℕ) (b : Block)
  | legacy (start bmapEnd realEnd : ℕ) (b : Block)

/-- `EINVAL`, as an `int`. -/
def einval : ℕ := 22

/-! ### Clusters of a range -/

/-- The first cluster of a range of blocks, and how many there are. -/
def rangeClusters (clusterBits block num : ℕ) : ℕ × ℕ :=
  let stop := (block + num + ((1 <<< clusterBits) - 1)) >>> clusterBits
  (block >>> clusterBits, (stop - block >>> clusterBits) % 2 ^ 32)

/-- The check of a range against the bitmap. -/
def rangeBad (start bmapEnd block num : ℕ) : Prop :=
  block < start ∨ bmapEnd < block ∨ block + num = 0 ∨ bmapEnd < block + num - 1

instance (start bmapEnd block num : ℕ) : Decidable (rangeBad start bmapEnd block num) :=
  inferInstanceAs (Decidable (_ ∨ _ ∨ _ ∨ _))

/-- A range that does not fit into 32 bits, which the old kind of bitmap refuses. -/
def rangeTooFar (block num : ℕ) : Prop :=
  2 ^ 32 ≤ block ∨ block + num = 0 ∨ 2 ^ 32 ≤ block + num - 1

instance (block num : ℕ) : Decidable (rangeTooFar block num) :=
  inferInstanceAs (Decidable (_ ∨ _ ∨ _))

namespace BlockBitmap

/-- `ext2fs_test_generic_bmap`. -/
def test (arg : ℕ) : BlockBitmap → Bool
  | rb clusterBits start bmapEnd bp =>
    if arg >>> clusterBits < start ∨ bmapEnd < arg >>> clusterBits then false
    else rbTest start bp (arg >>> clusterBits)
  | ba clusterBits start bmapEnd b =>
    if arg >>> clusterBits < start ∨ bmapEnd < arg >>> clusterBits then false
    else bitAt b (arg >>> clusterBits - start)
  | legacy start bmapEnd _ b =>
    if 2 ^ 32 ≤ arg then false else if arg < start ∨ bmapEnd < arg then false
    else bitAt b (arg - start)

/-- `ext2fs_mark_block_bitmap_range2`. -/
def markRange (bal : SearchTree RbExtent → List RbExtent → SearchTree RbExtent) (block num : ℕ) :
    BlockBitmap → BlockBitmap
  | rb clusterBits start bmapEnd bp =>
    let r := rangeClusters clusterBits block num
    if rangeBad start bmapEnd r.1 r.2 then rb clusterBits start bmapEnd bp
    else rb clusterBits start bmapEnd (rbInsertExtent bal (r.1 - start) r.2 bp).2
  | ba clusterBits start bmapEnd b =>
    let r := rangeClusters clusterBits block num
    if rangeBad start bmapEnd r.1 r.2 then ba clusterBits start bmapEnd b
    else ba clusterBits start bmapEnd (baMarkExtent (r.1 - start) r.2 b)
  | legacy start bmapEnd realEnd b =>
    if rangeTooFar block num then legacy start bmapEnd realEnd b
    else if rangeBad start bmapEnd block num then legacy start bmapEnd realEnd b
    -- the loop counts with an int
    else if num < 2 ^ 31 then legacy start bmapEnd realEnd (baMarkExtent (block - start) num b)
    else legacy start bmapEnd realEnd b

/-- `ext2fs_unmark_block_bitmap_range2`. -/
def unmarkRange (bal : SearchTree RbExtent → List RbExtent → SearchTree RbExtent) (block num : ℕ) :
    BlockBitmap → BlockBitmap
  | rb clusterBits start bmapEnd bp =>
    let r := rangeClusters clusterBits block num
    if rangeBad start bmapEnd r.1 r.2 then rb clusterBits start bmapEnd bp
    else rb clusterBits start bmapEnd (rbRemoveExtent bal (r.1 - start) r.2 bp).2
  | ba clusterBits start bmapEnd b =>
    let r := rangeClusters clusterBits block num
    if rangeBad start bmapEnd r.1 r.2 then ba clusterBits start bmapEnd b
    else ba clusterBits start bmapEnd (baUnmarkExtent (r.1 - start) r.2 b)
  | legacy start bmapEnd realEnd b =>
    if rangeTooFar block num then legacy start bmapEnd realEnd b
    else if rangeBad start bmapEnd block num then legacy start bmapEnd realEnd b
    else if num < 2 ^ 31 then legacy start bmapEnd realEnd (baUnmarkExtent (block - start) num b)
    else legacy start bmapEnd realEnd b

/-- `ext2fs_test_block_bitmap_range2`. -/
def testRange (block num : ℕ) (bitmap : BlockBitmap) : ℕ :=
  if num = 1 then (!bitmap.test block).toNat
  else match bitmap with
    | rb clusterBits start bmapEnd bp =>
      let r := rangeClusters clusterBits block num
      if rangeBad start bmapEnd r.1 r.2 then einval else (rbTestClear (r.1 - start) r.2 bp).toNat
    | ba clusterBits start bmapEnd b =>
      let r := rangeClusters clusterBits block num
      if rangeBad start bmapEnd r.1 r.2 then einval else (baTestClear (r.1 - start) r.2 b).toNat
    | legacy start _ realEnd b =>
      if rangeTooFar block num then einval
      else if rangeBad start realEnd block num then 0
      else (baTestClear (block - start) num b).toNat

/-! ### What is to be touched -/

/-- The blocks of a cluster are `2 ^ clusterBits` many. -/
def clusterBits : BlockBitmap → ℕ
  | rb c _ _ _ => c
  | ba c _ _ _ => c
  | legacy _ _ _ _ => 0

/-- The first cluster. -/
def first : BlockBitmap → ℕ
  | rb _ start _ _ => start
  | ba _ start _ _ => start
  | legacy start _ _ _ => start

/-- The last cluster. -/
def last : BlockBitmap → ℕ
  | rb _ _ bmapEnd _ => bmapEnd
  | ba _ _ bmapEnd _ => bmapEnd
  | legacy _ bmapEnd _ _ => bmapEnd

/-- The bit of a cluster. -/
def bit (k : ℕ) : BlockBitmap → Bool
  | rb _ start _ bp => rbTest start bp k
  | ba _ start _ b => bitAt b (k - start)
  | legacy start _ _ b => bitAt b (k - start)

/-- The bitmaps that can be: a tree that the operations lead to, and any array. In the old kind
numbers have 32 bits, and so has the number of blocks. -/
def Reachable (bal : SearchTree RbExtent → List RbExtent → SearchTree RbExtent) : BlockBitmap → Prop
  | rb _ _ _ bp => RbReachable bal bp
  | ba _ _ _ _ => True
  | legacy _ bmapEnd realEnd _ => bmapEnd ≤ realEnd ∧ realEnd < 2 ^ 32 ∧ bmapEnd + 1 < 2 ^ 32

/-- The range is inside the bitmap. -/
def Inside (block num : ℕ) (bitmap : BlockBitmap) : Prop :=
  bitmap.first ≤ block >>> bitmap.clusterBits ∧ block >>> bitmap.clusterBits ≤ bitmap.last ∧
    block + num ≤ (bitmap.last + 1) <<< bitmap.clusterBits

/-- A cluster that the range of blocks intersects. -/
def Hit (block num : ℕ) (bitmap : BlockBitmap) (k : ℕ) : Prop :=
  ∃ b, block ≤ b ∧ b < block + num ∧ b >>> bitmap.clusterBits = k

/-- Exactly the clusters of the range are set, cleared, and tested. -/
structure RangesExact (bal : SearchTree RbExtent → List RbExtent → SearchTree RbExtent)
    (block num : ℕ) (bitmap : BlockBitmap) : Prop where
  mark : ∀ k, bitmap.first ≤ k → k ≤ bitmap.last →
    ((bitmap.markRange bal block num).bit k = true ↔ bitmap.bit k = true ∨ bitmap.Hit block num k)
  unmark : ∀ k, bitmap.first ≤ k → k ≤ bitmap.last →
    ((bitmap.unmarkRange bal block num).bit k = true ↔ bitmap.bit k = true ∧
      ¬bitmap.Hit block num k)
  test : bitmap.testRange block num = 1 ↔ ∀ k, bitmap.Hit block num k → bitmap.bit k = false

/-- When the range operations do that. -/
def RangeFits (block num : ℕ) : BlockBitmap → Prop
  | rb clusterBits _ _ _ => num ≠ 0 ∨ (block % 2 ^ clusterBits = 0 ∧ block ≠ 0)
  | ba clusterBits _ _ _ => num ≠ 0 ∨ (block % 2 ^ clusterBits = 0 ∧ block ≠ 0)
  | legacy _ _ _ _ => num < 2 ^ 31 ∧ (num ≠ 0 ∨ block ≠ 0)

end BlockBitmap

section Clusters

variable {clusterBits block num k start bmapEnd : ℕ}

theorem shiftRight_mono {a b : ℕ} (h : a ≤ b) (c : ℕ) : a >>> c ≤ b >>> c := by
  rw [Nat.shiftRight_eq_div_pow, Nat.shiftRight_eq_div_pow]
  exact Nat.div_le_div_right h

/-- The end of a range, rounded up, is behind the last cluster of it. -/
theorem stop_eq (hnum : 0 < num) : (block + num + ((1 <<< clusterBits) - 1)) >>> clusterBits =
    (block + num - 1) >>> clusterBits + 1 := by
  have hpos := Nat.two_pow_pos clusterBits
  rw [Nat.one_shiftLeft, Nat.shiftRight_eq_div_pow, Nat.shiftRight_eq_div_pow,
    ← Nat.add_div_right _ hpos]
  congr 1
  omega

/-- The clusters that a range hits. -/
theorem hit_iff (hnum : 0 < num) : (∃ b, block ≤ b ∧ b < block + num ∧ b >>> clusterBits = k) ↔
    block >>> clusterBits ≤ k ∧ k ≤ (block + num - 1) >>> clusterBits := by
  constructor
  · rintro ⟨b, hlo, hhi, rfl⟩
    exact ⟨shiftRight_mono hlo _, shiftRight_mono (by omega) _⟩
  · rintro ⟨hlo, hhi⟩
    have hpos := Nat.two_pow_pos clusterBits
    rcases Nat.eq_or_lt_of_le hlo with heq | hlt
    · exact ⟨block, le_rfl, by omega, heq⟩
    · -- the first block of the cluster
      rw [Nat.shiftRight_eq_div_pow] at hlt hhi
      have hbehind := (Nat.div_lt_iff_lt_mul hpos).mp hlt
      have hbefore := (Nat.le_div_iff_mul_le hpos).mp hhi
      refine ⟨k * 2 ^ clusterBits, hbehind.le, by omega, ?_⟩
      rw [Nat.shiftRight_eq_div_pow, Nat.mul_div_cancel _ hpos]

/-- There are not more clusters than blocks. -/
theorem clusters_le (hnum : 0 < num) :
    (block + num - 1) >>> clusterBits + 1 - block >>> clusterBits ≤ num := by
  have hpos := Nat.two_pow_pos clusterBits
  have hle : (block + (num - 1)) / 2 ^ clusterBits ≤
      (block + (num - 1) * 2 ^ clusterBits) / 2 ^ clusterBits :=
    Nat.div_le_div_right (Nat.add_le_add_left (Nat.le_mul_of_pos_right _ hpos) _)
  rw [Nat.add_mul_div_right _ _ hpos] at hle
  rw [Nat.shiftRight_eq_div_pow, Nat.shiftRight_eq_div_pow,
    show block + num - 1 = block + (num - 1) by omega]
  omega

/-- The clusters of a range that is inside the bitmap pass the check, and are those that the range
hits. -/
theorem rangeClusters_spec (hnum : num < 2 ^ 32) (hstart : start ≤ block >>> clusterBits)
    (hblock : block >>> clusterBits ≤ bmapEnd) (hend : block + num ≤ (bmapEnd + 1) <<< clusterBits)
    (hfits : num ≠ 0 ∨ (block % 2 ^ clusterBits = 0 ∧ block ≠ 0)) :
    ¬rangeBad start bmapEnd (rangeClusters clusterBits block num).1
      (rangeClusters clusterBits block num).2 ∧
      ∀ k, (∃ b, block ≤ b ∧ b < block + num ∧ b >>> clusterBits = k) ↔
        (rangeClusters clusterBits block num).1 ≤ k ∧
          k < (rangeClusters clusterBits block num).1 +
            (rangeClusters clusterBits block num).2 := by
  have hpos := Nat.two_pow_pos clusterBits
  rw [rangeClusters, rangeBad]
  dsimp only
  rcases Nat.eq_zero_or_pos num with rfl | hnumPos
  · -- an empty range that begins with a cluster
    obtain ⟨halign, hne⟩ := hfits.resolve_left (not_not.mpr rfl)
    have hstop : (block + 0 + ((1 <<< clusterBits) - 1)) >>> clusterBits =
        block >>> clusterBits := by
      rw [Nat.one_shiftLeft, Nat.shiftRight_eq_div_pow, Nat.shiftRight_eq_div_pow, Nat.add_zero]
      obtain ⟨q, rfl⟩ := Nat.dvd_of_mod_eq_zero halign
      rw [Nat.mul_add_div hpos, Nat.mul_div_cancel_left _ hpos,
        Nat.div_eq_of_lt (by omega), Nat.add_zero]
    have hblockPos : 0 < block >>> clusterBits := by
      rw [Nat.shiftRight_eq_div_pow]
      exact Nat.div_pos (Nat.le_of_dvd (Nat.pos_of_ne_zero hne)
        (Nat.dvd_of_mod_eq_zero halign)) hpos
    rw [hstop, Nat.sub_self, Nat.zero_mod]
    refine ⟨by omega, fun k => ⟨?_, fun hk => by omega⟩⟩
    rintro ⟨b, h1, h2, -⟩
    omega
  · have hle := @clusters_le clusterBits block num hnumPos
    have hmono := @shiftRight_mono block (block + num - 1) (by omega) clusterBits
    have hlast : (block + num - 1) >>> clusterBits ≤ bmapEnd := by
      rw [Nat.shiftRight_eq_div_pow]
      rw [Nat.shiftLeft_eq] at hend
      exact Nat.lt_add_one_iff.mp ((Nat.div_lt_iff_lt_mul hpos).mpr (by omega))
    rw [stop_eq hnumPos, Nat.mod_eq_of_lt (by omega)]
    refine ⟨by omega, fun k => ?_⟩
    rw [hit_iff hnumPos]
    omega

/-- Outside those ranges: an empty one either fails the check at block 0, or is taken for the
cluster that it begins in. -/
theorem rangeClusters_empty (h : ¬(block % 2 ^ clusterBits = 0 ∧ block ≠ 0)) :
    (block = 0 ∧ rangeClusters clusterBits block 0 = (0, 0)) ∨
      rangeClusters clusterBits block 0 = (block >>> clusterBits, 1) := by
  have hpos := Nat.two_pow_pos clusterBits
  rw [rangeClusters]
  rw [Nat.one_shiftLeft, Nat.shiftRight_eq_div_pow, Nat.shiftRight_eq_div_pow, Nat.add_zero]
  rcases Nat.eq_zero_or_pos block with rfl | hblock
  · left
    rw [Nat.zero_add, Nat.zero_div, Nat.div_eq_of_lt (by omega)]
    exact ⟨rfl, rfl⟩
  · right
    have hmod : 0 < block % 2 ^ clusterBits := Nat.pos_of_ne_zero fun hzero => h ⟨hzero, by omega⟩
    have hlt := Nat.mod_lt block hpos
    have hdiv := Nat.div_add_mod block (2 ^ clusterBits)
    have hstop : (block + (2 ^ clusterBits - 1)) / 2 ^ clusterBits =
        block / 2 ^ clusterBits + 1 := by
      conv_lhs => rw [← hdiv]
      rw [Nat.add_assoc, Nat.mul_add_div hpos]
      congr 1
      exact Nat.div_eq_of_lt_le (by omega) (by omega)
    rw [hstop, Nat.add_sub_cancel_left, Nat.mod_eq_of_lt (by norm_num)]

/-! ### The operations over clusters -/

/-- What the operations of a 64-bit bitmap do with a range of clusters `r`. -/
structure OverClusters (bal : SearchTree RbExtent → List RbExtent → SearchTree RbExtent)
    (block num : ℕ) (bitmap : BlockBitmap) (r : ℕ × ℕ) : Prop where
  mark : ¬rangeBad bitmap.first bitmap.last r.1 r.2 → ∀ k, bitmap.first ≤ k →
    ((bitmap.markRange bal block num).bit k = true ↔ bitmap.bit k = true ∨
      (r.1 ≤ k ∧ k < r.1 + r.2))
  unmark : ¬rangeBad bitmap.first bitmap.last r.1 r.2 → ∀ k, bitmap.first ≤ k →
    ((bitmap.unmarkRange bal block num).bit k = true ↔ bitmap.bit k = true ∧
      ¬(r.1 ≤ k ∧ k < r.1 + r.2))
  testOne : num = 1 → bitmap.Inside block num →
    (bitmap.testRange block num = 1 ↔ bitmap.bit (block >>> bitmap.clusterBits) = false)
  testBad : num ≠ 1 → rangeBad bitmap.first bitmap.last r.1 r.2 →
    bitmap.testRange block num = einval
  test : num ≠ 1 → ¬rangeBad bitmap.first bitmap.last r.1 r.2 →
    (bitmap.testRange block num = 1 ↔ ∀ k, r.1 ≤ k → k < r.1 + r.2 → bitmap.bit k = false)

theorem toNat_eq_one {b : Bool} : b.toNat = 1 ↔ b = true := by
  cases b <;> decide

variable {bal : SearchTree RbExtent → List RbExtent → SearchTree RbExtent}
    {bitmap : BlockBitmap} {r : ℕ × ℕ}

/-- A range of clusters that is the one to be touched. -/
theorem OverClusters.exact (h : OverClusters bal block num bitmap r) (hin : bitmap.Inside block num)
    (hgood : ¬rangeBad bitmap.first bitmap.last r.1 r.2)
    (hhit : ∀ k, bitmap.Hit block num k ↔ r.1 ≤ k ∧ k < r.1 + r.2) :
    bitmap.RangesExact bal block num := by
  refine ⟨fun k hk _ => ?_, fun k hk _ => ?_, ?_⟩
  · rw [h.mark hgood k hk, hhit]
  · rw [h.unmark hgood k hk, hhit]
  · by_cases hone : num = 1
    · rw [h.testOne hone hin]
      subst hone
      constructor
      · rintro hclear k ⟨b, h1, h2, rfl⟩
        rwa [show b = block by omega]
      · exact fun hall => hall _ ⟨block, le_rfl, by omega, rfl⟩
    · rw [h.test hone hgood]
      exact forall_congr' fun k => by rw [hhit, and_imp]

/-- **The range operations are exact** over a 64-bit bitmap except for an empty range at block 0 and
one that begins in the middle of a cluster. -/
theorem OverClusters.exact_iff
    (h : OverClusters bal block num bitmap (rangeClusters bitmap.clusterBits block num))
    (hin : bitmap.Inside block num) (hnum : num < 2 ^ 32) :
    bitmap.RangesExact bal block num ↔
    (num ≠ 0 ∨ (block % 2 ^ bitmap.clusterBits = 0 ∧ block ≠ 0)) := by
  obtain ⟨hstart, hblock, hend⟩ := hin
  constructor
  · intro hexact
    by_contra! hnot
    obtain ⟨rfl, hnot⟩ := hnot
    have hmiss : ∀ k, ¬bitmap.Hit block 0 k := by
      rintro k ⟨b, h1, h2, -⟩
      omega
    rcases rangeClusters_empty (fun hfits => hfits.2 (hnot hfits.1)) with ⟨rfl, hr⟩ | hr
    · -- the check wraps
      rw [hr] at h
      have htest := hexact.test.mpr fun k hk => absurd hk (hmiss k)
      rw [h.testBad (by decide) (Or.inr (Or.inr (Or.inl rfl)))] at htest
      exact absurd htest (by decide)
    · rw [hr] at h
      have hgood : ¬rangeBad bitmap.first bitmap.last (block >>> bitmap.clusterBits) 1 := by
        rw [rangeBad]
        omega
      have hmark :=
        (hexact.mark _ hstart hblock).mp
          ((h.mark hgood _ hstart).mpr (Or.inr ⟨le_rfl, Nat.lt_succ_self _⟩))
      have hunmark := (hexact.unmark _ hstart hblock).mpr ⟨hmark.resolve_right (hmiss _), hmiss _⟩
      exact ((h.unmark hgood _ hstart).mp hunmark).2 ⟨le_rfl, Nat.lt_succ_self _⟩
  · intro hfits
    obtain ⟨hgood, hhit⟩ := rangeClusters_spec hnum hstart hblock hend hfits
    exact h.exact ⟨hstart, hblock, hend⟩ hgood hhit

variable {bp : RbPrivate} {b : Block} {realEnd : ℕ}

theorem overClusters_rb (hbal : ∀ t l, (bal t l).inorder = l) (h : bp.Ok) :
    OverClusters bal block num (.rb clusterBits start bmapEnd bp)
      (rangeClusters clusterBits block num) := by
  obtain ⟨r, hr⟩ : ∃ r, r = rangeClusters clusterBits block num := ⟨_, rfl⟩
  rw [← hr]
  refine ⟨fun hgood k hk => ?_, fun hgood k hk => ?_, fun hone hin => ?_, fun hne hbad => ?_,
    fun hne hgood => ?_⟩
  · change ¬rangeBad start bmapEnd r.1 r.2 at hgood
    change start ≤ k at hk
    have hm := @rbInsertExtent_spec bal bp (r.1 - start) r.2 hbal h
    rw [BlockBitmap.markRange, ← hr, if_neg hgood]
    show rbTest start _ k = true ↔ rbTest start bp k = true ∨ _
    rw [rbTest_iff hm.ok, hm.marked, rbTest_iff h]
    refine or_congr_right ?_
    rw [rangeBad] at hgood
    omega
  · change ¬rangeBad start bmapEnd r.1 r.2 at hgood
    change start ≤ k at hk
    have hm := @rbRemoveExtent_spec bal bp (r.1 - start) r.2 hbal h
    rw [BlockBitmap.unmarkRange, ← hr, if_neg hgood]
    show rbTest start _ k = true ↔ rbTest start bp k = true ∧ _
    rw [rbTest_iff hm.ok, hm.marked, rbTest_iff h]
    refine and_congr_right fun _ => ?_
    rw [rangeBad] at hgood
    omega
  -- a range of one block is tested as that block
  · obtain ⟨h1, h2, -⟩ := hin
    change start ≤ block >>> clusterBits at h1
    change block >>> clusterBits ≤ bmapEnd at h2
    rw [BlockBitmap.testRange, if_pos hone, BlockBitmap.test, if_neg (by omega), toNat_eq_one,
      Bool.not_eq_true']
    rfl
  · change rangeBad start bmapEnd r.1 r.2 at hbad
    rw [BlockBitmap.testRange, if_neg hne, ← hr]
    exact if_pos hbad
  · change ¬rangeBad start bmapEnd r.1 r.2 at hgood
    rw [BlockBitmap.testRange, if_neg hne, ← hr]
    show (if _ then _ else _) = 1 ↔ _
    rw [if_neg hgood, toNat_eq_one, rbTestClear_spec h]
    show _ ↔ ∀ k, r.1 ≤ k → k < r.1 + r.2 → rbTest start bp k = false
    rw [rangeBad] at hgood
    constructor
    · exact fun hall k h1 h2 => (rbTest_eq_false h).mpr (hall (k - start) (by omega) (by omega))
    · intro hall bit h1 h2
      have := (rbTest_eq_false h).mp (hall (start + bit) (by omega) (by omega))
      rwa [Nat.add_sub_cancel_left] at this

/-- An array, of either kind, over a range of its bits. -/
theorem bitAt_mark_iff (h : start ≤ r.1) (hk : start ≤ k) :
    bitAt (baMarkExtent (r.1 - start) r.2 b) (k - start) = true ↔
    bitAt b (k - start) = true ∨ (r.1 ≤ k ∧ k < r.1 + r.2) := by
  rw [bitAt_baMarkExtent]
  refine or_congr_right ?_
  omega

theorem bitAt_unmark_iff (h : start ≤ r.1) (hk : start ≤ k) :
    bitAt (baUnmarkExtent (r.1 - start) r.2 b) (k - start) = true ↔
      bitAt b (k - start) = true ∧ ¬(r.1 ≤ k ∧ k < r.1 + r.2) := by
  rw [bitAt_baUnmarkExtent]
  refine and_congr_right fun _ => ?_
  omega

theorem testClear_iff (h : start ≤ r.1) : (baTestClear (r.1 - start) r.2 b).toNat = 1 ↔
    ∀ k, r.1 ≤ k → k < r.1 + r.2 → bitAt b (k - start) = false := by
  rw [toNat_eq_one, baTestClear_iff]
  constructor
  · exact fun hall k h1 h2 => hall (k - start) (by omega) (by omega)
  · intro hall m h1 h2
    have := hall (start + m) (by omega) (by omega)
    rwa [Nat.add_sub_cancel_left] at this

theorem overClusters_ba :
    OverClusters bal block num (.ba clusterBits start bmapEnd b)
      (rangeClusters clusterBits block num) := by
  obtain ⟨r, hr⟩ : ∃ r, r = rangeClusters clusterBits block num := ⟨_, rfl⟩
  rw [← hr]
  have hlow : ¬rangeBad start bmapEnd r.1 r.2 → start ≤ r.1 := fun hgood => by
    rw [rangeBad] at hgood
    omega
  refine ⟨fun hgood k hk => ?_, fun hgood k hk => ?_, fun hone hin => ?_, fun hne hbad => ?_,
    fun hne hgood => ?_⟩
  · change ¬rangeBad start bmapEnd r.1 r.2 at hgood
    rw [BlockBitmap.markRange, ← hr, if_neg hgood]
    exact bitAt_mark_iff (hlow hgood) hk
  · change ¬rangeBad start bmapEnd r.1 r.2 at hgood
    rw [BlockBitmap.unmarkRange, ← hr, if_neg hgood]
    exact bitAt_unmark_iff (hlow hgood) hk
  · obtain ⟨h1, h2, -⟩ := hin
    change start ≤ block >>> clusterBits at h1
    change block >>> clusterBits ≤ bmapEnd at h2
    rw [BlockBitmap.testRange, if_pos hone, BlockBitmap.test, if_neg (by omega), toNat_eq_one,
      Bool.not_eq_true']
    rfl
  · change rangeBad start bmapEnd r.1 r.2 at hbad
    rw [BlockBitmap.testRange, if_neg hne, ← hr]
    exact if_pos hbad
  · change ¬rangeBad start bmapEnd r.1 r.2 at hgood
    rw [BlockBitmap.testRange, if_neg hne, ← hr]
    show (if _ then _ else _) = 1 ↔ _
    rw [if_neg hgood]
    exact testClear_iff (hlow hgood)

/-- The old kind of bitmap, when the range is not empty at block 0, and an `int` can count it. -/
theorem overClusters_legacy (hreal : bmapEnd ≤ realEnd) (hend : realEnd < 2 ^ 32)
    (hin : (BlockBitmap.legacy start bmapEnd realEnd b).Inside block num) (hnum : num < 2 ^ 31)
    (hfits : num ≠ 0 ∨ block ≠ 0) :
    OverClusters bal block num (.legacy start bmapEnd realEnd b) (block, num) ∧
    ¬rangeBad start bmapEnd block num := by
  obtain ⟨h1, h2, h3⟩ := hin
  change start ≤ block at h1
  change block ≤ bmapEnd at h2
  change block + num ≤ bmapEnd + 1 at h3
  have hfar : ¬rangeTooFar block num := by
    rw [rangeTooFar]
    omega
  have hgood : ¬rangeBad start bmapEnd block num := by
    rw [rangeBad]
    omega
  have hgood' : ¬rangeBad start realEnd block num := by
    rw [rangeBad]
    omega
  refine ⟨⟨fun _ k hk => ?_, fun _ k hk => ?_, fun hone _ => ?_, fun _ hbad => absurd hbad hgood,
    fun hne _ => ?_⟩, hgood⟩
  · rw [BlockBitmap.markRange, if_neg hfar, if_neg hgood, if_pos hnum]
    exact @bitAt_mark_iff k start (block, num) b h1 hk
  · rw [BlockBitmap.unmarkRange, if_neg hfar, if_neg hgood, if_pos hnum]
    exact @bitAt_unmark_iff k start (block, num) b h1 hk
  · rw [BlockBitmap.testRange, if_pos hone, BlockBitmap.test, if_neg (by omega),
      if_neg (by omega), toNat_eq_one, Bool.not_eq_true']
    rfl
  · rw [BlockBitmap.testRange, if_neg hne]
    show (if _ then _ else _) = 1 ↔ _
    rw [if_neg hfar, if_neg hgood']
    exact @testClear_iff start (block, num) b h1

/-- A range that fits is touched exactly. -/
theorem rangesExact_of_fits (hbal : ∀ t l, (bal t l).inorder = l) (hreach : bitmap.Reachable bal)
    (hin : bitmap.Inside block num) (hnum : num < 2 ^ 32) (hfits : bitmap.RangeFits block num) :
    bitmap.RangesExact bal block num := by
  cases bitmap with
  | rb clusterBits start bmapEnd bp =>
    exact ((overClusters_rb hbal (RbReachable.ok hbal hreach)).exact_iff hin hnum).mpr hfits
  | ba clusterBits start bmapEnd b => exact (overClusters_ba.exact_iff hin hnum).mpr hfits
  | legacy start bmapEnd realEnd b =>
    obtain ⟨hreal, hend, -⟩ := hreach
    obtain ⟨h1, h2, h3⟩ := hin
    change start ≤ block at h1
    change block ≤ bmapEnd at h2
    change block + num ≤ bmapEnd + 1 at h3
    obtain ⟨hsmall, hfits⟩ := hfits
    obtain ⟨hover, hgood⟩ := @overClusters_legacy block num start bmapEnd bal b realEnd hreal hend
      ⟨h1, h2, h3⟩ hsmall hfits
    refine hover.exact ⟨h1, h2, h3⟩ hgood fun k => ?_
    constructor
    · rintro ⟨b', h1', h2', rfl⟩
      exact ⟨h1', h2'⟩
    · exact fun hk => ⟨k, hk.1, hk.2, rfl⟩

/-- **The range operations touch exactly the clusters of the range** in every bitmap that can be,
except for an empty range at block 0, an empty range that begins in the middle of a cluster, and, in
the old kind of bitmap, a range that an `int` cannot count. -/
theorem rangesExact_iff (hbal : ∀ t l, (bal t l).inorder = l) (hreach : bitmap.Reachable bal)
    (hin : bitmap.Inside block num) (hnum : num < 2 ^ 32) :
    bitmap.RangesExact bal block num ↔ bitmap.RangeFits block num := by
  refine ⟨fun hexact => ?_, rangesExact_of_fits hbal hreach hin hnum⟩
  cases bitmap with
  | rb clusterBits start bmapEnd bp =>
    exact ((overClusters_rb hbal (RbReachable.ok hbal hreach)).exact_iff hin hnum).mp hexact
  | ba clusterBits start bmapEnd b => exact (overClusters_ba.exact_iff hin hnum).mp hexact
  | legacy start bmapEnd realEnd b =>
    obtain ⟨h1, h2, h3⟩ := hin
    change start ≤ block at h1
    change block ≤ bmapEnd at h2
    change block + num ≤ bmapEnd + 1 at h3
    have hpos : num ≠ 0 ∨ block ≠ 0 := by
      by_contra! hzero
      obtain ⟨rfl, rfl⟩ := hzero
      have htest := hexact.test.mpr (by rintro k ⟨b', h1', h2', -⟩; omega)
      rw [BlockBitmap.testRange, if_neg (by decide)] at htest
      exact absurd htest (by simp [rangeTooFar, einval])
    refine ⟨?_, hpos⟩
    by_contra hlarge
    -- neither operation does anything
    have hmark : (BlockBitmap.legacy start bmapEnd realEnd b).markRange bal block num =
        .legacy start bmapEnd realEnd b := by
      rw [BlockBitmap.markRange]
      split_ifs <;> rfl
    have hunmark : (BlockBitmap.legacy start bmapEnd realEnd b).unmarkRange bal block num =
        .legacy start bmapEnd realEnd b := by
      rw [BlockBitmap.unmarkRange]
      split_ifs <;> rfl
    have hhit : (BlockBitmap.legacy start bmapEnd realEnd b).Hit block num block :=
      ⟨block, le_rfl, by omega, rfl⟩
    have hset := (hexact.mark block h1 h2).mpr (Or.inr hhit)
    rw [hmark] at hset
    have hclear := hexact.unmark block h1 h2
    rw [hunmark] at hclear
    exact (hclear.mp hset).2 hhit

/-- An empty range in the middle of a cluster. -/
theorem not_rangesExact_empty :
    (BlockBitmap.ba 4 0 7 fun _ => 0).Reachable (fun _ l => .ofList l) ∧
    (BlockBitmap.ba 4 0 7 fun _ => 0).Inside 40 0 ∧
      ¬(BlockBitmap.ba 4 0 7 fun _ => 0).RangesExact (fun _ l => .ofList l) 40 0 := by
  refine ⟨trivial, ⟨by decide, by decide, by decide⟩, fun h => ?_⟩
  rcases (h.mark 2 (by decide) (by decide)).mp (by decide) with hset | ⟨b, h1, h2, -⟩
  · exact absurd hset (by decide)
  · omega

theorem rangesExact_ba :
    (BlockBitmap.ba 4 0 7 fun _ => 0).RangesExact (fun _ l => .ofList l) 40 20 :=
  (@rangesExact_iff 40 20 _ (.ba 4 0 7 fun _ => 0) (fun _ l => SearchTree.inorder_ofList l) trivial
    ⟨by decide, by decide, by decide⟩ (by norm_num)).mpr
    (Or.inl (by decide))

end Clusters

end E2fsprogs
