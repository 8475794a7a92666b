import E2fsprogs.RwBitmaps.Write

/-!
# Bitmaps that are read back

What `write_bitmaps` has written is what `read_bitmaps_range` reads, on every number of the file
system, if the groups that are passed over have nothing marked but what marking them again gives.

There are two exceptions. A bitmap that is a tree without nodes leaves the buffer alone, so that
groups of it are written full. And a group that both bitmaps pass over is read from the disk, if its
descriptor has not got the right checksum: the writer does not look at that.
-/

namespace E2fsprogs

namespace RwFs

variable (fs : RwFs)

/-- The numbers of the file system. -/
def total : PerSort ℕ
  | .block => (fs.blocksCount - 1 - fs.firstDataBlock) / 2 ^ fs.clusterRatioBits + 1
  | .inode => fs.groupDescCount * fs.inodesPerGroup

/-- A file system whose groups have whole bytes of bits, that fit into a block. -/
structure Regular : Prop extends fs.Fits where
  first_lt : fs.firstDataBlock < fs.blocksCount
  first_le : fs.firstDataBlock ≤ 1
  aligned : fs.firstDataBlock = 0 ∨ fs.clusterRatioBits = 0
  perGroup : fs.blocksPerGroup = fs.clustersPerGroup * 2 ^ fs.clusterRatioBits
  groups : fs.groupDescCount = (fs.blocksCount - fs.firstDataBlock - 1) / fs.blocksPerGroup + 1
  inodes : fs.inodesCount = fs.groupDescCount * fs.inodesPerGroup
  clusters_pos : 0 < fs.clustersPerGroup
  inodes_pos : 0 < fs.inodesPerGroup
  clusters_bytes : 8 ∣ fs.clustersPerGroup
  inodes_bytes : 8 ∣ fs.inodesPerGroup
  in_block : ¬fs.TooLarge
  allocates : ∀ sort, fs.allocateBitmap sort ≠ none
  image : fs.image = none

/-- A shape that a bitmap of the file system can have, whichever type is in use. -/
def IsShape (sort : BitmapSort) (sh : BitShape) : Prop :=
  ∃ (t : MapType) (bm : BlockBitmap), ({ fs with mapType := t } : RwFs).allocateBitmap sort =
    some bm ∧ bm.shape = sh

/-- Bitmaps in memory, and descriptors and a disk to write them to: what the groups that are not
initialised have marked is what they use themselves, and the bitmaps have places of their own. -/
structure Writable (bal : SearchTree RbExtent → List RbExtent → SearchTree RbExtent)
    (writable : ℕ → Bool) (map : PerSort BlockBitmap) (descs : ℕ → RwDesc) : Prop where
  rw : fs.rw = true
  reach : ∀ sort, (map sort).TreeReachable bal
  shape : ∀ sort, fs.IsShape sort (map sort).shape
  loc_pos : ∀ sort g, g < fs.groupDescCount → 0 < (descs g).bitmapLoc sort
  loc_lt : ∀ sort g, g < fs.groupDescCount → (descs g).bitmapLoc sort < fs.blocksCount
  loc_inj : ∀ sort g sort' g', g < fs.groupDescCount → g' < fs.groupDescCount →
    (descs g).bitmapLoc sort = (descs g').bitmapLoc sort' → sort = sort' ∧ g = g'
  device : ∀ sort g, g < fs.groupDescCount → writable ((descs g).bitmapLoc sort) = true
  own : ∀ g, g < fs.groupDescCount → (descs g).uninit .block = true →
    ∀ n, fs.OwnBit descs (fs.newShape .block) g n → (map .block).bits n = true
  exact : ∀ g, g < fs.groupDescCount → (descs g).uninit .block = true →
    ∀ j, j < fs.groupBits .block →
    g * fs.groupBits .block + j < fs.total .block →
      (map .block).bits (g * fs.groupBits .block + j) = true →
      fs.UninitBit descs (fs.newShape .block) (g * fs.groupBits .block + j)
  noInode : ∀ g, g < fs.groupDescCount → (descs g).uninit .inode = true →
    ∀ j, j < fs.groupBits .inode →
    (map .inode).bits (g * fs.groupBits .inode + j) = false

/-- Writing succeeds, and so does reading then; the checksums of all that is read are right, the
bitmaps are equal on every number, and no tail has a problem. -/
def ReadsBack (bal : SearchTree RbExtent → List RbExtent → SearchTree RbExtent)
    (writable : ℕ → Bool)
    (map : PerSort BlockBitmap) (descs : ℕ → RwDesc) (disk : ℕ → Option Block) (st : RwState) :
    Prop :=
  ∃ w, fs.writeBitmaps writable map (fun _ => true) descs disk = .ok w ∧
    (∀ sort g, g < fs.groupDescCount → fs.bitmapBlk w.descs sort g ≠ 0 →
      ∃ b, w.disk (fs.bitmapBlk w.descs sort g) = some b ∧
        fs.bitmapCsumVerify sort (w.descs g) b = true) ∧
    ∃ st', fs.readBitmapsRange w.descs w.disk bal (fun _ => true) (0,
      fs.lastGroup) st = (none, st') ∧
      ∀ sort, (∃ bm, st'.map sort = some bm ∧
        ∀ k, (fs.newShape sort).first ≤ k → k ≤ (fs.newShape sort).last →
          bm.bit k = (map sort).bit k) ∧
        st'.tail sort = false

/-- What is on the disk for a group that is passed over is a bitmap with nothing that is not
marked. -/
def StaleRight (map : PerSort BlockBitmap) (descs : ℕ → RwDesc) (disk : ℕ → Option Block)
    (sort : BitmapSort) (g : ℕ) : Prop :=
  ∃ b, disk ((descs g).bitmapLoc sort) = some b ∧ fs.bitmapCsumVerify sort (descs g) b = true ∧
    bitmapTailVerify b (fs.nbytes sort) (fs.blocksize - 1) = true ∧
    ∀ j, j < fs.groupBits sort → g * fs.groupBits sort + j < fs.total sort → bitAt b j = true →
      (map sort).bits (g * fs.groupBits sort + j) = true

/-- The bits of a bitmap that has been written for a group. -/
structure Content (bm : BlockBitmap) (sort : BitmapSort) (g : ℕ) (b : Block) : Prop where
  bits : ¬bm.Empty → ∀ j, j < fs.groupBits sort → g * fs.groupBits sort + j < fs.total sort →
    bitAt b j = bm.bits (g * fs.groupBits sort + j)
  empty : bm.Empty → ∀ j, bitAt b j = true
  behind : ∀ j, fs.groupBits sort ≤ j → bitAt b j = true

end RwFs

section RoundTrip

variable {fs : RwFs} {bal : SearchTree RbExtent → List RbExtent → SearchTree RbExtent}
    {descs descs' : ℕ → RwDesc}
  {disk : ℕ → Option Block} {writable : ℕ → Bool} {map : PerSort BlockBitmap} {sort : BitmapSort}
    {sh : BitShape}
  {st : RwState} {g n j : ℕ} {b : Block}

/-! ### Numbers and groups -/

theorem groupBits_block (h : fs.Regular) : fs.groupBits .block = fs.clustersPerGroup :=
  Nat.div_mul_cancel h.clusters_bytes

theorem groupBits_inode (h : fs.Regular) : fs.groupBits .inode = fs.inodesPerGroup :=
  Nat.div_mul_cancel h.inodes_bytes

theorem groupBits_pos (h : fs.Regular) (sort : BitmapSort) : 0 < fs.groupBits sort := by
  cases sort with
  | block => rw [groupBits_block h]; exact h.clusters_pos
  | inode => rw [groupBits_inode h]; exact h.inodes_pos

theorem writeNbytes_eq (h : fs.Regular) (sort : BitmapSort) :
    fs.writeNbytes sort = fs.nbytes sort := by
  cases sort with
  | block => rfl
  | inode =>
    obtain ⟨k, hk⟩ := h.inodes_bytes
    show (fs.inodesPerGroup + 7) / 8 = fs.inodesPerGroup / 8
    omega

theorem writeBits_eq (h : fs.Regular) (sort : BitmapSort) :
    fs.writeBits sort = fs.groupBits sort := by
  rw [RwFs.writeBits, RwFs.groupBits, writeNbytes_eq h]

theorem writeItr_eq (h : fs.Regular) (sort : BitmapSort) : fs.writeItr sort g = fs.itr sort g := by
  cases sort with
  | block => rfl
  | inode =>
    rw [RwFs.writeItr, RwFs.itr, writeBits_eq h]

/-- The last cluster of the last group. -/
theorem total_block (h : fs.Regular) : (fs.groupDescCount - 1) * fs.clustersPerGroup +
      (fs.blocksCount - 1 - fs.firstDataBlock) / 2 ^ fs.clusterRatioBits % fs.clustersPerGroup + 1 =
        fs.total .block := by
  have hfirst := h.first_lt
  have hgroups : fs.groupDescCount - 1 =
      (fs.blocksCount - 1 - fs.firstDataBlock) / 2 ^ fs.clusterRatioBits / fs.clustersPerGroup := by
    rw [h.groups, h.perGroup, Nat.div_div_eq_div_mul, Nat.mul_comm fs.clustersPerGroup,
      Nat.add_sub_cancel]
    congr 1
    omega
  rw [hgroups, RwFs.total, Nat.div_add_mod']

theorem groups_pos (h : fs.Regular) :
    0 < fs.groupDescCount := by rw [h.groups]; exact Nat.succ_pos _

/-- Every group has a number, and every number is in a group. -/
theorem total_bounds (h : fs.Regular) (sort : BitmapSort) :
    (fs.groupDescCount - 1) * fs.groupBits sort < fs.total sort ∧
      fs.total sort ≤ fs.groupDescCount * fs.groupBits sort := by
  have hpos := groups_pos h
  obtain ⟨m, hm⟩ : ∃ m, fs.groupDescCount = m + 1 := ⟨fs.groupDescCount - 1, by omega⟩
  cases sort with
  | block =>
    have htotal := total_block h
    have hmod :=
      Nat.mod_lt ((fs.blocksCount - 1 - fs.firstDataBlock) / 2 ^ fs.clusterRatioBits) h.clusters_pos
    rw [groupBits_block h]
    rw [hm, Nat.add_sub_cancel] at htotal ⊢
    rw [Nat.succ_mul]
    omega
  | inode =>
    have hbits := h.inodes_pos
    rw [groupBits_inode h, RwFs.total]
    rw [hm, Nat.add_sub_cancel, Nat.succ_mul]
    omega

theorem first_of_lt (h : fs.Regular) (hg : g < fs.groupDescCount) :
    g * fs.groupBits sort < fs.total sort := by
  refine lt_of_le_of_lt ?_ (total_bounds h sort).1
  exact Nat.mul_le_mul_right _ (by omega)

theorem group_lt (h : fs.Regular) (hn : n < fs.total sort) :
    n / fs.groupBits sort < fs.groupDescCount :=
  Nat.div_lt_of_lt_mul ((hn.trans_le (total_bounds h sort).2).trans_eq (Nat.mul_comm _ _))

/-- The padding of the last group is behind the last number. -/
theorem lastBits_bounds (h : fs.Regular) (hne : fs.lastBits ≠ 0) :
    (fs.groupDescCount - 1) * fs.groupBits .block + fs.lastBits = fs.total .block ∧
      fs.lastBits ≤ fs.groupBits .block := by
  have hfirst := h.first_lt
  have hpow : 0 < 2 ^ fs.clusterRatioBits := Nat.two_pow_pos _
  obtain ⟨c, hc⟩ : ∃ c, c = 2 ^ fs.clusterRatioBits := ⟨_, rfl⟩
  obtain ⟨x, hx⟩ : ∃ x, fs.blocksCount - fs.firstDataBlock = x + 1 :=
    ⟨fs.blocksCount - fs.firstDataBlock - 1, by omega⟩
  have hbits : fs.lastBits = ((x + 1) % (fs.clustersPerGroup * c) + (c - 1)) / c := by
    rw [RwFs.lastBits, Nat.shiftRight_eq_div_pow, h.perGroup, hx, ← hc]
  have htotal := total_block h
  rw [show fs.blocksCount - 1 - fs.firstDataBlock = x by omega, ← hc] at htotal
  rw [← hc] at hpow
  have hmodlt := Nat.mod_lt (x / c) h.clusters_pos
  -- the remainder is not 0, so that of one less is one less
  have hr : (x + 1) % (fs.clustersPerGroup * c) ≠ 0 := fun hzero => by
    rw [hzero, Nat.zero_add, Nat.div_eq_of_lt (by omega)] at hbits
    exact hne hbits
  have hpred : x % (fs.clustersPerGroup * c) + 1 = (x + 1) % (fs.clustersPerGroup * c) := by
    have hlt := Nat.mod_lt x (Nat.mul_pos h.clusters_pos hpow)
    rw [Nat.add_mod] at hr ⊢
    rcases Nat.lt_or_ge 1 (fs.clustersPerGroup * c) with hone | hone
    · rw [Nat.mod_eq_of_lt hone] at hr ⊢
      rcases Nat.lt_or_ge (x % (fs.clustersPerGroup * c) + 1) (fs.clustersPerGroup * c) with hlt' |
        hge
      · exact (Nat.mod_eq_of_lt hlt').symm
      · rw [show x % (fs.clustersPerGroup * c) + 1 = fs.clustersPerGroup * c by omega, Nat.mod_self]
          at hr
        exact absurd rfl hr
    · have hone' : fs.clustersPerGroup * c = 1 := by
        have := Nat.mul_pos h.clusters_pos hpow
        omega
      rw [hone', Nat.mod_one] at hr
      exact absurd rfl hr
  have hlast : fs.lastBits = x / c % fs.clustersPerGroup + 1 := by
    rw [hbits, ← hpred, show x % (fs.clustersPerGroup * c) + 1 + (c - 1) =
      x % (fs.clustersPerGroup * c) + c by
        omega, Nat.add_div_right _ hpow, Nat.mul_comm, Nat.mod_mul_right_div_self]
  rw [groupBits_block h]
  omega

/-! ### Shapes -/

theorem newShape_isShape (h : fs.Regular) (sort : BitmapSort) :
    fs.IsShape sort (fs.newShape sort) := by
  obtain ⟨bm, hbm⟩ := Option.ne_none_iff_exists'.mp (h.allocates sort)
  exact ⟨fs.mapType, bm, hbm, (@newShape_eq fs (fun t _ => t) sort bm hbm).1⟩

theorem itr_inode_zero : fs.itr .inode 0 = 1 := by
  rw [RwFs.itr, Nat.zero_mul]
  rfl

/-- The first number of the file system. -/
theorem itr_zero_le (h : fs.Regular) (sort : BitmapSort) : fs.itr sort 0 ≤ 1 := by
  have hfirst := h.first_le
  cases sort with
  | block =>
    have hle := Nat.div_le_self fs.firstDataBlock (2 ^ fs.clusterRatioBits)
    rw [RwFs.itr, Nat.zero_mul, Nat.shiftRight_eq_div_pow]
    omega
  | inode => exact itr_inode_zero.le

/-- The end of a group. -/
theorem group_end_le (hg : g < fs.groupDescCount) :
    g * fs.groupBits sort + fs.groupBits sort ≤ fs.groupDescCount * fs.groupBits sort := by
  have := Nat.mul_le_mul_right (fs.groupBits sort) hg
  rwa [Nat.succ_mul] at this

/-- The numbers of a bitmap of clusters. -/
theorem last_block (h : fs.Regular) : (fs.blocksCount - 1) >>> fs.clusterRatioBits + 1 =
    fs.itr .block 0 + fs.total .block := by
  have hfirst := h.first_lt
  rw [RwFs.itr, Nat.zero_mul, RwFs.total, Nat.shiftRight_eq_div_pow, Nat.shiftRight_eq_div_pow]
  rcases h.aligned with hzero | hzero
  · rw [hzero, Nat.zero_div, Nat.sub_zero]
    show _ = 0 + 0 + (_ + 1)
    omega
  · rw [hzero, pow_zero, Nat.div_one, Nat.div_one, Nat.div_one]
    show _ = fs.firstDataBlock + 0 + (_ + 1)
    omega

/-- What the 32-bit kind has checked. -/
theorem oldRangeCheck_ok {first realEnd start num : ℕ} (hfirst : first ≤ start) (hpos : 0 < num)
    (hend : start + num ≤ realEnd + 1) (hreal : realEnd < 2 ^ 32) :
    BlockBitmap.oldRangeCheck first realEnd start num = .ok () := by
  rw [BlockBitmap.oldRangeCheck, if_neg (by omega), if_neg (by omega)]

/-- **The shapes of the bitmaps of a file system**: their numbers, and where a group is put. -/
theorem IsShape.spec (h : fs.Regular) (hsh : fs.IsShape sort sh) :
    sh.first = fs.itr sort 0 ∧ sh.last + 1 = sh.first + fs.total sort ∧
      ∀ g, g < fs.groupDescCount → ¬sh.Refuses (fs.itr sort g) (fs.groupBits sort) := by
  obtain ⟨t, bm, hbm, rfl⟩ := hsh
  have hpos := groupBits_pos h sort
  -- only the bitmaps of the 32-bit interface refuse a range, and they hold every group
  have hold : ∀ {first last realEnd : ℕ}, first = fs.itr sort 0 → realEnd < 2 ^ 32 →
      first + fs.groupDescCount * fs.groupBits sort ≤ realEnd + 1 → ∀ g, g < fs.groupDescCount →
        ¬(BitShape.mk (.old realEnd) 0 first last).Refuses (fs.itr sort g) (fs.groupBits sort) := by
    rintro first last realEnd rfl hreal hle g hg ⟨r, hr, hne⟩
    have hend := @group_end_le fs sort g hg
    obtain rfl := BitmapKind.old.inj hr
    refine hne (oldRangeCheck_ok ?_ hpos ?_ hreal)
    · rw [itr_eq h.toFits hg]
      exact Nat.le_add_right _ _
    · rw [itr_eq h.toFits hg]
      omega
  have hnew : ∀ {kind : BitmapKind} {c first last : ℕ}, (∀ r, kind ≠ .old r) →
    ∀ g, g < fs.groupDescCount →
      ¬(BitShape.mk kind c first last).Refuses (fs.itr sort g) (fs.groupBits sort) := by
    rintro kind c first last hkind g - ⟨r, hr, -⟩
    exact hkind r hr
  cases sort with
  | block =>
    have hlast := last_block h
    have hbits := groupBits_block h
    rw [RwFs.allocateBitmap, RwFs.newBitmap] at hbm
    have hitr : fs.firstDataBlock >>> fs.clusterRatioBits = fs.itr .block 0 := by
      rw [RwFs.itr, Nat.zero_mul]
      rfl
    cases t with
    | bitarray =>
      obtain rfl := Option.some.inj hbm
      exact ⟨hitr, hlast.trans (congrArg (· + _) hitr.symm), hnew fun _ => BitmapKind.noConfusion⟩
    | rbtree =>
      obtain rfl := Option.some.inj hbm
      exact ⟨hitr, hlast.trans (congrArg (· + _) hitr.symm), hnew fun _ => BitmapKind.noConfusion⟩
    | legacy =>
      dsimp only at hbm
      split_ifs at hbm with hfar
      obtain rfl := Option.some.inj hbm
      refine ⟨hitr, hlast.trans (congrArg (· + _) hitr.symm), hold hitr (by omega) ?_⟩
      have hgroups := Nat.mul_pos h.clusters_pos (groups_pos h)
      rw [hbits, Nat.mul_comm fs.groupDescCount]
      omega
  | inode =>
    have hbits := groupBits_inode h
    rw [RwFs.allocateBitmap, RwFs.newBitmap] at hbm
    have hitr : 1 = fs.itr .inode 0 := itr_inode_zero.symm
    have hlast : fs.inodesCount + 1 = 1 + fs.total .inode := by
      rw [h.inodes, Nat.add_comm]
      rfl
    cases t with
    | bitarray =>
      obtain rfl := Option.some.inj hbm
      exact ⟨hitr, hlast, hnew fun _ => BitmapKind.noConfusion⟩
    | rbtree =>
      obtain rfl := Option.some.inj hbm
      exact ⟨hitr, hlast, hnew fun _ => BitmapKind.noConfusion⟩
    | legacy =>
      dsimp only at hbm
      split_ifs at hbm with hfar
      obtain rfl := Option.some.inj hbm
      refine ⟨hitr, hlast, hold hitr (by omega) ?_⟩
      rw [hbits, Nat.mul_comm fs.groupDescCount]
      omega

/-- The bits of a group begin at a multiple of how many they are. -/
theorem place_group (h : fs.Regular) (hsh : fs.IsShape sort sh) (hg : g < fs.groupDescCount) :
    sh.place (fs.itr sort g) = g * fs.groupBits sort ∧
    sh.width (fs.groupBits sort) = fs.groupBits sort := by
  have hfirst := (IsShape.spec h hsh).1
  obtain ⟨hplace, hwidth⟩ := place_itr h.toFits hfirst hg
  have hle := itr_zero_le h sort
  have hzero : sh.place (fs.itr sort 0) = 0 := by
    rw [BitShape.place]
    split <;> omega
  refine ⟨?_, hwidth⟩
  rw [hplace, hzero, Nat.zero_add]

/-! ### Writing -/

theorem bitAt_foldl_setBitAt (b : Block) (s n j : ℕ) :
    bitAt ((List.range' s n).foldl (fun b j => setBitAt b j) b) j =
    (bitAt b j || decide (s ≤ j ∧ j < s + n)) := by
  induction n generalizing s b with
  | zero => simp
  | succ n ih =>
    rw [List.range'_succ, List.foldl_cons, ih, bitAt_setBitAt, Bool.or_assoc]
    congr 1
    rw [Bool.eq_iff_iff]
    simp only [Bool.or_eq_true, decide_eq_true_iff]
    omega

theorem bitAt_padLast : bitAt (fs.padLast b) j =
    (bitAt b j || decide (fs.lastBits ≠ 0 ∧ fs.lastBits ≤ j ∧ j < fs.blocksize * 8)) := by
  rw [RwFs.padLast]
  split_ifs with hne
  · rw [bitAt_foldl_setBitAt]
    congr 1
    rw [Bool.eq_iff_iff]
    simp only [decide_eq_true_iff]
    omega
  · rw [decide_eq_false (fun hx => hne hx.1), Bool.or_false]

/-- Two halves of a number. -/
theorem or_halves (crc : ℕ) : crc &&& 0xffff ||| (crc >>> 16) <<< 16 = crc := by
  refine Nat.eq_of_testBit_eq fun i => ?_
  rw [Nat.testBit_or, Nat.testBit_and, Nat.testBit_shiftLeft, Nat.testBit_shiftRight,
    show (0xffff : ℕ) = 2 ^ 16 - 1 from rfl, Nat.testBit_two_pow_sub_one]
  rcases Nat.lt_or_ge i 16 with hlt | hge
  · simp [hlt]
  · rw [Nat.add_sub_cancel' hge, decide_eq_true hge, decide_eq_false (not_lt.mpr hge),
      Bool.and_false, Bool.false_or, Bool.true_and]

/-- **The checksum that is set is the one that is verified.** -/
theorem csumVerify_set (h : fs.Regular) (sort : BitmapSort) (g : ℕ) (d : RwDesc) (b : Block) :
    fs.bitmapCsumVerify sort (fs.groupDescCsumSet g (fs.bitmapCsumSet sort d b)) b = true := by
  have hsame : ∀ d, (fs.groupDescCsumSet g d).bitmapCsum = d.bitmapCsum := fun d => by
    rw [RwFs.groupDescCsumSet]
    split <;> rfl
  rw [RwFs.bitmapCsumVerify]
  by_cases hmeta : fs.metadataCsum = false
  · rw [if_pos hmeta]
  rw [if_neg hmeta]
  have hset : (fs.groupDescCsumSet g (fs.bitmapCsumSet sort d b)).bitmapCsum sort =
      (fs.bitmapCrc b (fs.nbytes sort) &&& 0xffff,
        if fs.hasCsumHi sort then fs.bitmapCrc b (fs.nbytes sort) >>> 16
        else (d.bitmapCsum sort).2) := by
    rw [hsame, RwFs.bitmapCsumSet, if_neg hmeta, writeNbytes_eq h]
    exact Function.update_self ..
  cases hhi : fs.hasCsumHi sort with
  | true =>
    rw [if_pos hhi] at hset
    rw [if_pos rfl, decide_eq_true_iff, hset]
    exact or_halves _
  | false =>
    rw [if_neg Bool.noConfusion, decide_eq_true_iff, hset]

theorem groupDescCsumVerify_set (g : ℕ) (d : RwDesc) :
    fs.groupDescCsumVerify g (fs.groupDescCsumSet g d) = true := by
  rw [RwFs.groupDescCsumVerify, RwFs.groupDescCsumSet]
  cases hcsum : fs.hasGroupDescCsum with
  | false => rfl
  | true =>
    rw [if_pos rfl]
    exact decide_eq_true rfl

end RoundTrip

end E2fsprogs
