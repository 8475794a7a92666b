import E2fsprogs.Bitmap.Single

/-!
# Counting a range of blocks

`ext2fs_block_alloc_stats_range` of `lib/ext2fs/alloc_stats.c` against `ext2fs_block_alloc_stats2`,
which counts one cluster. The range is cut at the ends of the groups, and the free count of each
group is charged with the clusters that it has of the range; the counts are kept in as many bits as
the fields have. Both come to the same counts (`E2fsprogs.chargeGroups_spec`).

The loop moves its arguments on, and the callback of the range is then told what is left of them.
-/

namespace E2fsprogs

/-- The fields of the file system that blocks are counted by. -/
structure StatsGeometry where
  firstDataBlock : ℕ
  blocksCount : ℕ
  blocksPerGroup : ℕ
  groupDescCount : ℕ
  clusterBits : ℕ
  has64 : Bool
  hasGroupDescCsum : Bool
  /-- `ext2fs_group_desc_csum`, of a group with its free count and its flag. -/
  descCsum : ℕ → ℕ → Bool → ℕ
  /-- Whether `block_alloc_stats_range` is set. -/
  rangeCallback : Bool
  clusterBits_le : clusterBits ≤ 31
  perGroup_pos : 0 < blocksPerGroup
  perGroup_dvd : 2 ^ clusterBits ∣ blocksPerGroup
  first_dvd : 2 ^ clusterBits ∣ firstDataBlock
  groups_eq : groupDescCount = (blocksCount - firstDataBlock + blocksPerGroup - 1) / blocksPerGroup

/-- What is counted for a group: its free count, `EXT2_BG_BLOCK_UNINIT` and the checksum. -/
structure GroupFree where
  free : ℕ
  uninit : Bool
  csum : ℕ

/-- The counts of the groups and of the superblock. -/
@[ext] structure BlockCounts where
  group : ℕ → GroupFree
  free : ℕ

/-- The block bitmap, the counts, and what has been changed. -/
structure BlockAlloc where
  map : BlockBitmap
  counts : BlockCounts
  superDirty : Bool
  bbDirty : Bool

/-- An integer in a field of some bits. -/
def wrapInt (bits : ℕ) (z : ℤ) : ℕ := (z % 2 ^ bits).toNat

namespace StatsGeometry

variable (g : StatsGeometry)

/-- `EXT2FS_CLUSTER_RATIO`. -/
def ratio : ℕ := 2 ^ g.clusterBits

/-- `ext2fs_group_of_blk2`. -/
def groupOf (blk : ℕ) : ℕ := (blk - g.firstDataBlock) / g.blocksPerGroup

/-- `ext2fs_group_last_block2`. -/
def groupLast (group : ℕ) : ℕ :=
  if group = g.groupDescCount - 1 then g.blocksCount - 1
  else g.firstDataBlock + group * g.blocksPerGroup + (g.blocksPerGroup - 1)

/-- The bits of the free count of a group, and of that of the superblock. -/
def groupBits : ℕ := if g.has64 then 32 else 16

def superBits : ℕ := if g.has64 then 64 else 32

end StatsGeometry

section StatsRange

variable (g : StatsGeometry) (bal : SearchTree RbExtent → List RbExtent → SearchTree RbExtent)

/-! ### The counts -/

/-- `ext2fs_bg_free_blocks_count_set`, `ext2fs_bg_flags_clear` and `ext2fs_group_desc_csum_set`. -/
def setGroupFree (group n : ℕ) (c : BlockCounts) : BlockCounts :=
  { c with
    group := Function.update c.group group
      { free := n % 2 ^ g.groupBits
        uninit := false
        csum := if g.hasGroupDescCsum then g.descCsum group (n % 2 ^ g.groupBits) false
          else (c.group group).csum } }

/-- `ext2fs_free_blocks_count_add`. -/
def addSuperFree (n : ℕ) (c : BlockCounts) : BlockCounts :=
  { c with free := (c.free + n) % 2 ^ 64 % 2 ^ g.superBits }

/-- `ext2fs_block_alloc_stats2`. -/
def blockAllocStats2 (blk : ℕ) (inuse : ℤ) (st : BlockAlloc) : BlockAlloc :=
  if g.blocksCount ≤ blk then st
  else
    let group := g.groupOf blk
    { map := if 0 < inuse then st.map.mark bal blk else st.map.unmark bal blk
      counts := addSuperFree g (wrapInt 64 (-inuse * g.ratio))
        (setGroupFree g group (wrapInt 32 ((st.counts.group group).free - inuse)) st.counts)
      superDirty := true
      bbDirty := true }

/-- The loop of `ext2fs_block_alloc_stats_range`, with at most as many rounds as there are blocks:
`blk` and `num` as the loop leaves them, and the counts. -/
def chargeGroups (inuse : ℤ) : ℕ → ℕ → ℕ → BlockCounts → ℕ × ℕ × BlockCounts
  | 0, blk, num, c => (blk, num, c)
  | rounds + 1, blk, num, c =>
    if num = 0 then (blk, num, c)
    else
      let group := g.groupOf blk
      let lastBlk := g.groupLast group
      let n := if lastBlk < blk + num then lastBlk - blk + 1 else num
      let c :=
        setGroupFree g group (wrapInt 32
          ((c.group group).free - (wrapInt 64 (inuse * n) / g.ratio : ℕ))) c
      let c := addSuperFree g (wrapInt 64 (-inuse * n)) c
      chargeGroups inuse rounds (blk + n) (num - n) c

/-- `ext2fs_block_alloc_stats_range`, and what the callback is told. -/
def blockAllocStatsRange (blk num : ℕ) (inuse : ℤ) (st : BlockAlloc) :
    BlockAlloc × Option (ℕ × ℕ) :=
  if g.blocksCount < blk + num then (st, none)
  else if inuse = 0 then (st, none)
  else
    let map := if 0 < inuse then st.map.markRange bal blk num else st.map.unmarkRange bal blk num
    let inuse := if 0 < inuse then 1 else -1
    let r := chargeGroups g inuse num blk num st.counts
    ({ map := map, counts := r.2.2, superDirty := true, bbDirty := true },
      if g.rangeCallback then some (r.1, r.2.1) else none)

/-- `ext2fs_block_alloc_stats2` is called for each of `m` clusters. -/
def statsClusters (blk m : ℕ) (inuse : ℤ) (st : BlockAlloc) : BlockAlloc :=
  (List.range m).foldl (fun st i => blockAllocStats2 g bal (blk + i * g.ratio) inuse st) st

/-! ### What is to be the same -/

/-- A range of whole clusters of the file system. -/
structure ClusterRange (blk num : ℕ) : Prop where
  first_le : g.firstDataBlock ≤ blk
  le_count : blk + num ≤ g.blocksCount
  blk_dvd : g.ratio ∣ blk
  num_dvd : g.ratio ∣ num
  num_lt : num < 2 ^ 32

/-- A block bitmap of the file system. -/
structure BlockMapOf (map : BlockBitmap) : Prop where
  reach : map.Reachable bal
  clusterBits : map.clusterBits = g.clusterBits
  first : map.first = g.firstDataBlock / g.ratio
  last : map.last = (g.blocksCount - 1) / g.ratio

/-- The same bitmap, counts and flags. -/
structure SameAlloc (a b : BlockAlloc) : Prop where
  map : ∀ k, g.firstDataBlock / g.ratio ≤ k → k ≤ (g.blocksCount - 1) / g.ratio →
    a.map.bit k = b.map.bit k
  counts : a.counts = b.counts
  superDirty : a.superDirty = b.superDirty
  bbDirty : a.bbDirty = b.bbDirty

/-- The number of clear bits. -/
def clearClusters (map : BlockBitmap) : ℕ :=
  ((Finset.Icc (g.firstDataBlock / g.ratio) ((g.blocksCount - 1) / g.ratio)).filter fun k =>
    map.bit k = false).card

/-- The free count of the superblock, in the bits that it has, is that of the clear bits. -/
def CountsFree (st : BlockAlloc) : Prop :=
  st.counts.free = g.ratio * clearClusters g st.map % 2 ^ g.superBits

/-- The range is counted as its clusters are, and the callback is told so. -/
structure RangeAgrees (blk num : ℕ) (inuse : ℤ) (st : BlockAlloc) : Prop where
  same : SameAlloc g (blockAllocStatsRange g bal blk num inuse st).1
    (statsClusters g bal blk (num / g.ratio) inuse st)
  told : g.rangeCallback = true → (blockAllocStatsRange g bal blk num inuse st).2 = some (blk, num)
  free : CountsFree g st → CountsFree g (blockAllocStatsRange g bal blk num inuse st).1

variable {g bal} {blk num m a : ℕ} {inuse : ℤ} {c : BlockCounts} {group : ℕ}

/-! ### Charging -/

theorem wrapInt_eq_iff {bits : ℕ} {x y : ℤ} :
    wrapInt bits x = wrapInt bits y ↔ x ≡ y [ZMOD 2 ^ bits] := by
  have hpos : (0 : ℤ) < 2 ^ bits := by positivity
  rw [wrapInt, wrapInt, Int.ModEq]
  have h1 := Int.emod_nonneg x hpos.ne'
  have h2 := Int.emod_nonneg y hpos.ne'
  omega

theorem wrapInt_modEq (bits : ℕ) (z : ℤ) : (wrapInt bits z : ℤ) ≡ z [ZMOD 2 ^ bits] := by
  have hpos : (0 : ℤ) < 2 ^ bits := by positivity
  rw [wrapInt, Int.toNat_of_nonneg (Int.emod_nonneg z hpos.ne')]
  exact Int.mod_modEq z _

theorem wrapInt_natCast (bits n : ℕ) : wrapInt bits n = n % 2 ^ bits := by
  rw [wrapInt]
  exact_mod_cast Int.toNat_natCast (n % 2 ^ bits)

/-- A smaller field does not see what a larger one has cut off. -/
theorem modEq_wrapInt {bits big : ℕ} (h : bits ≤ big) (z : ℤ) :
    (wrapInt big z : ℤ) ≡ z [ZMOD 2 ^ bits] :=
  (wrapInt_modEq big z).of_dvd (pow_dvd_pow 2 h)

theorem wrapInt_mod {bits big : ℕ} (h : bits ≤ big) (z : ℤ) :
    wrapInt big z % 2 ^ bits = wrapInt bits z := by
  rw [← wrapInt_natCast, wrapInt_eq_iff]
  exact modEq_wrapInt h z

theorem StatsGeometry.groupBits_le (g : StatsGeometry) : g.groupBits ≤ 32 := by
  rw [StatsGeometry.groupBits]
  split <;> omega

theorem StatsGeometry.superBits_le (g : StatsGeometry) : g.superBits ≤ 64 := by
  rw [StatsGeometry.superBits]
  split <;> omega

/-- A group is charged with `d` clusters. -/
def charge (g : StatsGeometry) (d : ℤ) (group : ℕ) (c : BlockCounts) : BlockCounts where
  group := Function.update c.group group
    { free := wrapInt g.groupBits ((c.group group).free - d)
      uninit := false
      csum := if g.hasGroupDescCsum then
        g.descCsum group (wrapInt g.groupBits ((c.group group).free - d)) false
        else (c.group group).csum }
  free := wrapInt g.superBits (c.free - d * g.ratio)

/-- The two steps that charge a group, for numbers that are right in as many bits as the fields
have. -/
theorem charge_eq {n z : ℤ} {d : ℤ} (hn : n ≡ (c.group group).free - d [ZMOD 2 ^ 32])
    (hz : z = -d * g.ratio) :
    addSuperFree g (wrapInt 64 z) (setGroupFree g group (wrapInt 32 n) c) = charge g d group c := by
  have hgroup : wrapInt 32 n % 2 ^ g.groupBits = wrapInt g.groupBits
      ((c.group group).free - d) := by
    rw [wrapInt_mod g.groupBits_le, wrapInt_eq_iff]
    exact hn.of_dvd (pow_dvd_pow 2 g.groupBits_le)
  have hsuper : (c.free + wrapInt 64 z) % 2 ^ 64 % 2 ^ g.superBits = wrapInt g.superBits
      (c.free - d * g.ratio) := by
    rw [Nat.mod_mod_of_dvd _ (pow_dvd_pow 2 g.superBits_le), ← wrapInt_natCast,
      wrapInt_eq_iff, Nat.cast_add, show (c.free : ℤ) - d * g.ratio = c.free + z by rw [hz]; ring]
    exact (modEq_wrapInt g.superBits_le z).add_left _
  rw [addSuperFree, setGroupFree, charge, hgroup, hsuper]

/-- A group is charged twice. -/
theorem charge_charge (d e : ℤ) :
    charge g e group (charge g d group c) = charge g (d + e) group c := by
  have hgroup : wrapInt g.groupBits ((wrapInt g.groupBits ((c.group group).free - d) : ℤ) - e) =
      wrapInt g.groupBits ((c.group group).free - (d + e)) := by
    rw [wrapInt_eq_iff, ← sub_sub]
    exact (wrapInt_modEq _ _).sub_right _
  have hsuper : wrapInt g.superBits
    ((wrapInt g.superBits (c.free - d * g.ratio) : ℤ) - e * g.ratio) =
      wrapInt g.superBits (c.free - (d + e) * g.ratio) := by
    rw [wrapInt_eq_iff, add_mul, ← sub_sub]
    exact (wrapInt_modEq _ _).sub_right _
  ext1
  · simp only [charge, Function.update_self, Function.update_idem, hgroup]
    split <;> rfl
  · exact hsuper

/-! ### Clusters of one group, and of several -/

/-- The clusters from block `blk` on are charged to their groups. -/
def chargeClusters (g : StatsGeometry) (inuse : ℤ) (blk m : ℕ) (c : BlockCounts) : BlockCounts :=
  (List.range m).foldl (fun c i => charge g inuse (g.groupOf (blk + i * g.ratio)) c) c

theorem chargeClusters_succ : chargeClusters g inuse blk (m + 1) c =
    charge g inuse (g.groupOf (blk + m * g.ratio)) (chargeClusters g inuse blk m c) := by
  rw [chargeClusters, List.range_succ, List.foldl_append]
  rfl

theorem chargeClusters_add (m' : ℕ) : chargeClusters g inuse blk (m + m') c =
    chargeClusters g inuse (blk + m * g.ratio) m' (chargeClusters g inuse blk m c) := by
  induction m' with
  | zero => rfl
  | succ m' ih =>
    rw [← Nat.add_assoc, chargeClusters_succ, ih, chargeClusters_succ, Nat.add_mul, Nat.add_assoc]

/-- **Clusters of one group** are charged to it at once. -/
theorem chargeClusters_of_group (hm : 0 < m) (h : ∀ i < m, g.groupOf (blk + i * g.ratio) = group) :
    chargeClusters g inuse blk m c = charge g (inuse * m) group c := by
  induction m with
  | zero => omega
  | succ m ih =>
    rw [chargeClusters_succ, h m (by omega)]
    rcases Nat.eq_zero_or_pos m with rfl | hpos
    · rw [Nat.zero_add, Nat.cast_one, mul_one]
      rfl
    · rw [ih hpos fun i hi => h i (by omega), charge_charge]
      congr 1
      push_cast
      ring

/-- What is charged in all. -/
theorem chargeClusters_free (hc : c.free < 2 ^ g.superBits) :
    (chargeClusters g inuse blk m c).free = wrapInt g.superBits (c.free - inuse * m * g.ratio) := by
  induction m with
  | zero =>
    show c.free = _
    rw [Nat.cast_zero, mul_zero, zero_mul, sub_zero, wrapInt_natCast, Nat.mod_eq_of_lt hc]
  | succ m ih =>
    rw [chargeClusters_succ]
    show wrapInt g.superBits (((chargeClusters g inuse blk m c).free : ℤ) - inuse * g.ratio) = _
    rw [ih, wrapInt_eq_iff]
    refine ((wrapInt_modEq _ _).sub_right _).trans ?_
    rw [sub_sub]
    push_cast
    ring_nf
    rfl

/-! ### The groups of a range -/

/-- A block is in the group that its number is between the borders of. -/
theorem groupOf_eq {b q : ℕ} (hlo : g.firstDataBlock + q * g.blocksPerGroup ≤ b)
    (hhi : b < g.firstDataBlock + (q + 1) * g.blocksPerGroup) : g.groupOf b = q := by
  rw [StatsGeometry.groupOf]
  exact Nat.div_eq_of_lt_le (by omega) (by omega)

theorem le_groups (g : StatsGeometry) :
    g.blocksCount - g.firstDataBlock ≤ g.groupDescCount * g.blocksPerGroup := by
  have hpos := g.perGroup_pos
  have hlt := Nat.lt_div_mul_add hpos (a := g.blocksCount - g.firstDataBlock + g.blocksPerGroup - 1)
  rw [g.groups_eq]
  omega

/-- The blocks from `blk` to the end of its group are in its group, and those of a range are whole
clusters. -/
theorem ClusterRange.upto_group (h : ClusterRange g blk num) (hnum : 0 < num) :
    blk ≤ g.groupLast (g.groupOf blk) ∧
    (g.groupLast (g.groupOf blk) < blk + num → g.ratio ∣ g.groupLast (g.groupOf blk) + 1) ∧
    ∀ b, blk ≤ b → b ≤ g.groupLast (g.groupOf blk) → g.groupOf b = g.groupOf blk := by
  have hfirst := h.first_le
  have hcount := h.le_count
  have hpos := g.perGroup_pos
  obtain ⟨q, hq⟩ : ∃ q, q = g.groupOf blk := ⟨_, rfl⟩
  have hmod := Nat.div_add_mod' (blk - g.firstDataBlock) g.blocksPerGroup
  have hlt := Nat.mod_lt (blk - g.firstDataBlock) hpos
  change g.groupOf blk * g.blocksPerGroup + _ = _ at hmod
  rw [← hq] at hmod ⊢
  have hsucc : (q + 1) * g.blocksPerGroup = q * g.blocksPerGroup + g.blocksPerGroup :=
    Nat.succ_mul _ _
  rw [StatsGeometry.groupLast]
  split
  · next hlast =>
    have hle := le_groups g
    have hgroups : g.groupDescCount = q + 1 := by
      have : g.groupDescCount ≠ 0 := fun h0 => by
        rw [h0] at hle
        omega
      omega
    rw [hgroups] at hle
    refine ⟨by omega, fun hend => ?_, fun b hlo hhi => groupOf_eq (by omega) (by omega)⟩
    rw [show g.blocksCount - 1 + 1 = blk + num by omega]
    exact dvd_add h.blk_dvd h.num_dvd
  · refine ⟨by omega, fun _ => ?_, fun b hlo hhi => groupOf_eq (by omega) (by omega)⟩
    rw [show g.firstDataBlock + q * g.blocksPerGroup + (g.blocksPerGroup - 1) + 1 =
      g.firstDataBlock + (q + 1) * g.blocksPerGroup by omega]
    exact dvd_add g.first_dvd (g.perGroup_dvd.mul_left _)

/-- What a group is charged with: the division is of a number of 64 bits, also when blocks are
freed. -/
theorem charge_blocks {n : ℕ} (hinuse : inuse = 1 ∨ inuse = -1) (hdvd : g.ratio ∣ n)
    (hn : n < 2 ^ 64) :
    addSuperFree g (wrapInt 64 (-inuse * n)) (setGroupFree g group
      (wrapInt 32 ((c.group group).free - (wrapInt 64 (inuse * n) / g.ratio : ℕ))) c) =
    charge g (inuse * (n / g.ratio : ℕ)) group c := by
  obtain ⟨m, rfl⟩ := hdvd
  have hpos : 0 < g.ratio := Nat.two_pow_pos _
  rw [Nat.mul_div_cancel_left m hpos]
  refine charge_eq ?_ (by push_cast; ring)
  refine Int.ModEq.sub_left _ ?_
  rcases hinuse with rfl | rfl
  · rw [one_mul, wrapInt_natCast, Nat.mod_eq_of_lt hn, Nat.mul_div_cancel_left m hpos, one_mul]
  · -- the ratio divides the modulus, and what is left of the modulus is still 0 in 32 bits
    have hbits := g.clusterBits_le
    have hsplit : g.ratio * 2 ^ (64 - g.clusterBits) = 2 ^ 64 := by
      rw [StatsGeometry.ratio, ← pow_add, Nat.add_sub_cancel' (by omega)]
    have hle : m ≤ 2 ^ (64 - g.clusterBits) :=
      Nat.le_of_mul_le_mul_left (hn.le.trans hsplit.ge) hpos
    have hwrap : wrapInt 64 (-1 * ((g.ratio * m : ℕ) : ℤ)) =
        wrapInt 64 ((g.ratio * (2 ^ (64 - g.clusterBits) - m) : ℕ)) := by
      rw [wrapInt_eq_iff, Nat.mul_sub, hsplit, Nat.cast_sub hn.le]
      refine Int.ModEq.symm (Int.modEq_iff_dvd.mpr ⟨-1, ?_⟩)
      push_cast
      ring
    rw [hwrap, wrapInt_natCast]
    rcases Nat.eq_zero_or_pos m with rfl | hm
    · rw [Nat.sub_zero, hsplit, Nat.mod_self, Nat.zero_div]
      rfl
    · have hlt : g.ratio * (2 ^ (64 - g.clusterBits) - m) < 2 ^ 64 := by
        have := Nat.mul_pos hpos hm
        rw [Nat.mul_sub, hsplit]
        omega
      have hdvd : (2 : ℤ) ^ 32 ∣ 2 ^ (64 - g.clusterBits) := pow_dvd_pow 2 (by omega)
      rw [Nat.mod_eq_of_lt hlt, Nat.mul_div_cancel_left _ hpos, Nat.cast_sub hle]
      refine Int.modEq_iff_dvd.mpr ((dvd_neg.mpr hdvd).trans (dvd_of_eq ?_))
      push_cast
      ring

/-- **The loop over the groups** charges every cluster of the range to its group, and moves on to
the end of the range. -/
theorem chargeGroups_spec (hinuse : inuse = 1 ∨ inuse = -1) {rounds : ℕ}
    (h : ClusterRange g blk num) (hrounds : num ≤ rounds) :
    chargeGroups g inuse rounds blk num c = (blk + num, 0,
      chargeClusters g inuse blk (num / g.ratio) c) := by
  have hpos : 0 < g.ratio := Nat.two_pow_pos _
  induction rounds generalizing blk num c with
  | zero =>
    obtain rfl : num = 0 := by omega
    rw [chargeGroups, Nat.zero_div]
    rfl
  | succ rounds ih =>
    rw [chargeGroups]
    by_cases hnum : num = 0
    · rw [if_pos hnum, hnum, Nat.zero_div]
      rfl
    rw [if_neg hnum]
    obtain ⟨hle, hdvd, hgroup⟩ := h.upto_group (Nat.pos_of_ne_zero hnum)
    obtain ⟨last, hlast⟩ : ∃ last, last = g.groupLast (g.groupOf blk) := ⟨_, rfl⟩
    -- a round takes what is left of the group, or of the range
    obtain ⟨n, hn⟩ : ∃ n, n = if last < blk + num then last - blk + 1 else num := ⟨_, rfl⟩
    dsimp only
    rw [← hlast] at hle hdvd hgroup ⊢
    rw [← hn]
    have hn_dvd : g.ratio ∣ n := by
      rw [hn]
      split
      · next hlt =>
        rw [show last - blk + 1 = last + 1 - blk by omega]
        exact Nat.dvd_sub (hdvd hlt) h.blk_dvd
      · exact h.num_dvd
    have hn_le : 0 < n ∧ n ≤ num ∧ blk + n ≤ last + 1 := by
      split at hn <;> omega
    have h1 := h.first_le
    have h2 := h.le_count
    have h3 := h.num_lt
    have hrest : ClusterRange g (blk + n) (num - n) :=
      ⟨by omega, by omega, dvd_add h.blk_dvd hn_dvd, Nat.dvd_sub h.num_dvd hn_dvd, by omega⟩
    rw [charge_blocks hinuse hn_dvd (by omega), ih hrest (by omega)]
    obtain ⟨m, rfl⟩ := hn_dvd
    obtain ⟨k, rfl⟩ := h.num_dvd
    have hm : 0 < m := Nat.pos_of_mul_pos_left hn_le.1
    have hmk : m ≤ k := Nat.le_of_mul_le_mul_left hn_le.2.1 hpos
    rw [← Nat.mul_sub, Nat.mul_div_cancel_left _ hpos, Nat.mul_div_cancel_left _ hpos,
      Nat.mul_div_cancel_left _ hpos]
    -- all clusters of the round are in one group
    have hcharge : charge g (inuse * m) (g.groupOf blk) c = chargeClusters g inuse blk m c := by
      refine (chargeClusters_of_group hm fun i hi => hgroup _ (by omega) ?_).symm
      have : (i + 1) * g.ratio ≤ m * g.ratio := Nat.mul_le_mul_right _ hi
      rw [Nat.succ_mul, Nat.mul_comm m] at this
      omega
    have hsum : g.ratio * m + g.ratio * (k - m) = g.ratio * k := by
      rw [← Nat.mul_add, Nat.add_sub_cancel' hmk]
    rw [Nat.add_assoc, hsum, hcharge, Nat.mul_comm g.ratio m, ← chargeClusters_add,
      Nat.add_sub_cancel' hmk]

/-! ### The bitmap -/

/-- The bits of a range of clusters are all the same. -/
def setClusters (bits : ℕ → Bool) (a m : ℕ) (b : Bool) (k : ℕ) : Bool :=
  if a ≤ k ∧ k < a + m then b else bits k

theorem setClusters_succ (bits : ℕ → Bool) (b : Bool) :
    Function.update (setClusters bits a m b) (a + m) b = setClusters bits a (m + 1) b := by
  funext k
  rcases eq_or_ne k (a + m) with rfl | hne
  · rw [Function.update_self, setClusters, if_pos (by omega)]
  · rw [Function.update_of_ne hne, setClusters, setClusters]
    refine if_congr ?_ rfl rfl
    omega

/-- The clusters of a range are in the bitmap. -/
theorem BlockMapOf.cluster_in {map : BlockBitmap} {k : ℕ} (hmap : BlockMapOf g bal map)
    (hfirst : g.firstDataBlock ≤ k * g.ratio)
    (hcount : k * g.ratio < g.blocksCount) : map.first ≤ k ∧ k ≤ map.last := by
  have hpos : 0 < g.ratio := Nat.two_pow_pos _
  rw [hmap.first, hmap.last]
  exact ⟨Nat.div_le_of_le_mul (by rwa [Nat.mul_comm]), (Nat.le_div_iff_mul_le hpos).mpr (by omega)⟩

/-- **Cluster by cluster**: the bits are set or cleared, the counts are charged, and the flags are
set. -/
theorem statsClusters_spec (hbal : ∀ t l, (bal t l).inorder = l) {st : BlockAlloc}
    (hmap : BlockMapOf g bal st.map)
    (hinuse : inuse = 1 ∨ inuse = -1) (ha : blk = a * g.ratio) (hfirst : g.firstDataBlock ≤ blk)
    (hcount : blk + m * g.ratio ≤ g.blocksCount) :
    BlockBitmap.Becomes bal st.map (statsClusters g bal blk m inuse st).map
        (setClusters st.map.bit a m (decide (0 < inuse))) ∧
      (statsClusters g bal blk m inuse st).counts = chargeClusters g inuse blk m st.counts ∧
      (statsClusters g bal blk m inuse st).superDirty = (st.superDirty || decide (0 < m)) ∧
      (statsClusters g bal blk m inuse st).bbDirty = (st.bbDirty || decide (0 < m)) := by
  have hpos : 0 < g.ratio := Nat.two_pow_pos _
  induction m with
  | zero =>
    refine ⟨⟨hmap.reach, ⟨rfl, rfl, rfl⟩, fun k _ => ?_⟩, rfl, (Bool.or_false _).symm,
      (Bool.or_false _).symm⟩
    rw [setClusters, if_neg (by omega)]
    rfl
  | succ m ih =>
    rw [Nat.succ_mul] at hcount
    obtain ⟨hb, hcounts, -, -⟩ := ih (by omega)
    obtain ⟨st', hst'⟩ : ∃ st', st' = statsClusters g bal blk m inuse st := ⟨_, rfl⟩
    rw [← hst'] at hb hcounts
    have hstep : statsClusters g bal blk (m + 1) inuse st = blockAllocStats2 g bal
        (blk + m * g.ratio) inuse st' := by
      rw [statsClusters, List.range_succ, List.foldl_append, hst']
      rfl
    -- the clusters before have been done, and left the shape of the bitmap alone
    rw [hstep, blockAllocStats2, if_neg (by omega)]
    have hcluster : (blk + m * g.ratio) >>> st'.map.clusterBits = a + m := by
      rw [hb.shape.clusterBits, hmap.clusterBits, Nat.shiftRight_eq_div_pow, ha, ← Nat.add_mul]
      exact Nat.mul_div_cancel _ hpos
    have hin : st'.map.BlockIn (blk + m * g.ratio) := by
      have h1 := @BlockMapOf.cluster_in g bal st.map (a + m) hmap (by rw [Nat.add_mul]; omega)
        (by rw [Nat.add_mul]; omega)
      rw [BlockBitmap.BlockIn, hcluster, hb.shape.first, hb.shape.last]
      exact h1
    refine ⟨?_, ?_, (by simp), (by simp)⟩
    · rw [← setClusters_succ]
      rcases hinuse with rfl | rfl
      · have hmark := mark_becomes hbal hb.reach hin
        rw [hcluster] at hmark
        exact hb.update hmark
      · have hunmark := unmark_becomes hbal hb.reach hin
        rw [hcluster] at hunmark
        exact hb.update hunmark
    · dsimp only
      rw [charge_eq (Int.ModEq.refl _) (by ring), hcounts, chargeClusters_succ]

/-- An empty range of clusters changes no bit. -/
theorem bit_range_zero (hbal : ∀ t l, (bal t l).inorder = l) {map : BlockBitmap}
    (h : map.Reachable bal) (hblk : blk % 2 ^ map.clusterBits = 0) (k : ℕ) :
    (map.markRange bal blk 0).bit k = map.bit k ∧
    (map.unmarkRange bal blk 0).bit k = map.bit k := by
  have hempty : ∀ cb, blk % 2 ^ cb = 0 → (rangeClusters cb blk 0).2 = 0 := by
    intro cb hcb
    have hpos := Nat.two_pow_pos cb
    obtain ⟨q, rfl⟩ := Nat.dvd_of_mod_eq_zero hcb
    rw [rangeClusters]
    simp only [Nat.one_shiftLeft, Nat.shiftRight_eq_div_pow, Nat.add_zero]
    rw [Nat.mul_add_div hpos, Nat.mul_div_cancel_left _ hpos, Nat.div_eq_of_lt (by omega),
      Nat.add_zero, Nat.sub_self]
    rfl
  have hnot : ∀ x j : ℕ, ¬(x ≤ j ∧ j < x + 0) := fun x j => by omega
  cases map with
  | rb c start bmapEnd bp =>
    have hok := RbReachable.ok hbal h
    have hmark := @rbInsertExtent_spec bal bp ((rangeClusters c blk 0).1 - start) 0 hbal hok
    have hunmark := @rbRemoveExtent_spec bal bp ((rangeClusters c blk 0).1 - start) 0 hbal hok
    rw [BlockBitmap.markRange, BlockBitmap.unmarkRange]
    split
    · exact ⟨rfl, rfl⟩
    · rw [hempty c hblk]
      refine ⟨Bool.eq_iff_iff.mpr ?_, Bool.eq_iff_iff.mpr ?_⟩
      · change rbTest start _ k = true ↔ rbTest start bp k = true
        rw [rbTest_iff hmark.ok, hmark.marked, rbTest_iff hok]
        exact or_iff_left (hnot _ _)
      · change rbTest start _ k = true ↔ rbTest start bp k = true
        rw [rbTest_iff hunmark.ok, hunmark.marked, rbTest_iff hok]
        exact and_iff_left (hnot _ _)
  | ba c start bmapEnd b =>
    rw [BlockBitmap.markRange, BlockBitmap.unmarkRange]
    split
    · exact ⟨rfl, rfl⟩
    · rw [hempty c hblk]
      exact ⟨rfl, rfl⟩
  | legacy start bmapEnd realEnd b =>
    rw [BlockBitmap.markRange, BlockBitmap.unmarkRange]
    split_ifs <;> exact ⟨rfl, rfl⟩

/-- The bitmap after the range: its clusters are set or cleared, if the kind of bitmap can count
it. -/
theorem bit_range (hbal : ∀ t l, (bal t l).inorder = l) {map : BlockBitmap}
    (hmap : BlockMapOf g bal map) (h : ClusterRange g (a * g.ratio) (m * g.ratio))
    (hfits : ¬map.Is64 → m * g.ratio < 2 ^ 31) {k : ℕ} (hlo : map.first ≤ k) (hhi : k ≤ map.last) :
    (map.markRange bal (a * g.ratio) (m * g.ratio)).bit k = setClusters map.bit a m true k ∧
      (map.unmarkRange bal (a * g.ratio) (m * g.ratio)).bit k =
        setClusters map.bit a m false k := by
  have hpos : 0 < g.ratio := Nat.two_pow_pos _
  have hratio : 2 ^ map.clusterBits = g.ratio := by rw [hmap.clusterBits]; rfl
  rcases Nat.eq_zero_or_pos m with rfl | hm
  · have hzero :=
      bit_range_zero hbal hmap.reach
        (by rw [hratio, Nat.mul_mod_left] : a * g.ratio % 2 ^ map.clusterBits = 0) k
    rw [Nat.zero_mul, hzero.1, hzero.2, setClusters, setClusters, if_neg (by omega),
      if_neg (by omega)]
    exact ⟨rfl, rfl⟩
  -- the two operations are exact, and the clusters that the range hits are those from `a` on
  · have hnum : 0 < m * g.ratio := Nat.mul_pos hm hpos
    have hle : a * g.ratio + m * g.ratio ≤ g.blocksCount := h.le_count
    have hshift : ∀ j, (j * g.ratio) >>> map.clusterBits = j := fun j => by
      rw [Nat.shiftRight_eq_div_pow, hratio, Nat.mul_div_cancel _ hpos]
    have hin : map.Inside (a * g.ratio) (m * g.ratio) := by
      have h1 := hmap.cluster_in h.first_le (by omega)
      have h2 := @BlockMapOf.cluster_in g bal map (a + m - 1) hmap
        (h.first_le.trans (Nat.mul_le_mul_right _ (by omega))) (by
          have : (a + m - 1 + 1) * g.ratio = a * g.ratio + m * g.ratio := by
            rw [Nat.sub_add_cancel (by omega), Nat.add_mul]
          rw [Nat.succ_mul] at this
          omega)
      refine ⟨by rw [hshift]; exact h1.1, by rw [hshift]; exact h1.2, ?_⟩
      rw [Nat.shiftLeft_eq, hratio, ← Nat.add_mul]
      exact Nat.mul_le_mul_right _ (by omega)
    have hrange : map.RangeFits (a * g.ratio) (m * g.ratio) := by
      cases map with
      | rb c start bmapEnd bp => exact Or.inl hnum.ne'
      | ba c start bmapEnd b => exact Or.inl hnum.ne'
      | legacy start bmapEnd realEnd b => exact ⟨hfits fun h => h, Or.inl hnum.ne'⟩
    have hexact := rangesExact_of_fits hbal hmap.reach hin h.num_lt hrange
    have hhit : map.Hit (a * g.ratio) (m * g.ratio) k ↔ a ≤ k ∧ k < a + m := by
      rw [BlockBitmap.Hit, hit_iff hnum, hshift]
      refine and_congr_right fun _ => ?_
      have hpred : (a * g.ratio + m * g.ratio - 1) >>> map.clusterBits + 1 = a + m := by
        rw [← stop_eq hnum, Nat.one_shiftLeft, hratio, ← Nat.add_mul, Nat.shiftRight_eq_div_pow,
          hratio, Nat.mul_comm, Nat.mul_add_div hpos, Nat.div_eq_of_lt (by omega), Nat.add_zero]
      omega
    refine ⟨Bool.eq_iff_iff.mpr ?_, Bool.eq_iff_iff.mpr ?_⟩
    · rw [hexact.mark k hlo hhi, hhit, setClusters]
      split <;> simp [*]
    · rw [hexact.unmark k hlo hhi, hhit, setClusters]
      split <;> simp [*]

/-- The clear bits when clear clusters have been set. -/
theorem card_setClusters {bits : ℕ → Bool} {lo hi : ℕ} (hlo : lo ≤ a) (hhi : a + m ≤ hi + 1)
    (hclear : ∀ k, a ≤ k → k < a + m → bits k = false) :
    ((Finset.Icc lo hi).filter fun k => bits k = false).card =
      ((Finset.Icc lo hi).filter fun k => setClusters bits a m true k = false).card + m := by
  have hsplit : ((Finset.Icc lo hi).filter fun k => bits k = false) =
      ((Finset.Icc lo hi).filter fun k => setClusters bits a m true k = false) ∪
        Finset.Ico a (a + m) := by
    ext k
    simp only [Finset.mem_union, Finset.mem_filter, Finset.mem_Icc, Finset.mem_Ico]
    constructor
    · rintro ⟨hk, hbit⟩
      by_cases hin : a ≤ k ∧ k < a + m
      · exact Or.inr hin
      · exact Or.inl ⟨hk, by rwa [setClusters, if_neg hin]⟩
    · rintro (⟨hk, hbit⟩ | hin)
      · refine ⟨hk, ?_⟩
        rw [setClusters] at hbit
        split at hbit
        · cases hbit
        · exact hbit
      · exact ⟨by omega, hclear k hin.1 hin.2⟩
  have hdisj : Disjoint ((Finset.Icc lo hi).filter fun k => setClusters bits a m true k = false)
      (Finset.Ico a (a + m)) := by
    refine Finset.disjoint_left.mpr fun k hk hin => ?_
    have hbit := (Finset.mem_filter.mp hk).2
    rw [setClusters, if_pos (Finset.mem_Ico.mp hin)] at hbit
    cases hbit
  rw [hsplit, Finset.card_union_of_disjoint hdisj, Nat.card_Ico, Nat.add_sub_cancel_left]

/-- **The free count of the superblock** stays that of the clear bits. -/
theorem countsFree_charged {st st' : BlockAlloc} (hinuse : inuse = 1 ∨ inuse = -1)
    (hcounts : st'.counts = chargeClusters g inuse blk m st.counts)
    (hlo : g.firstDataBlock / g.ratio ≤ a) (hhi : a + m ≤ (g.blocksCount - 1) / g.ratio + 1)
    (hall : ∀ k, a ≤ k → k < a + m → st.map.bit k = decide (inuse < 0))
    (hbit : ∀ k, g.firstDataBlock / g.ratio ≤ k → k ≤ (g.blocksCount - 1) / g.ratio →
      st'.map.bit k = setClusters st.map.bit a m (decide (0 < inuse)) k)
    (h : CountsFree g st) : CountsFree g st' := by
  have hlt : st.counts.free < 2 ^ g.superBits := h.trans_lt (Nat.mod_lt _ (Nat.two_pow_pos _))
  have hclear : (clearClusters g st.map : ℤ) = clearClusters g st'.map + inuse * m := by
    have hcongr : clearClusters g st'.map = ((Finset.Icc (g.firstDataBlock / g.ratio)
        ((g.blocksCount - 1) / g.ratio)).filter fun k =>
          setClusters st.map.bit a m (decide (0 < inuse)) k = false).card := by
      refine congrArg Finset.card (Finset.filter_congr fun k hk => ?_)
      obtain ⟨h1, h2⟩ := Finset.mem_Icc.mp hk
      rw [hbit k h1 h2]
    rw [hcongr, clearClusters]
    rcases hinuse with rfl | rfl
    · rw [card_setClusters hlo hhi hall]
      push_cast
      rw [one_mul]
      rfl
    · -- seen from the bitmap after, the clusters have been set
      have hback : (fun k => setClusters (setClusters st.map.bit a m false) a m true k) =
          st.map.bit := by
        funext k
        rw [setClusters]
        split
        · next hin => exact (hall k hin.1 hin.2).symm
        · next hout => rw [setClusters, if_neg hout]
      have hcard :=
        @card_setClusters m a (setClusters st.map.bit a m false) _ _ hlo hhi fun k h1 h2 => by
        rw [setClusters, if_pos ⟨h1, h2⟩]
      rw [show (setClusters (setClusters st.map.bit a m false) a m true) = st.map.bit from hback]
        at hcard
      rw [show decide ((0 : ℤ) < -1) = false from rfl, hcard]
      push_cast
      ring
  rw [CountsFree, hcounts, chargeClusters_free hlt, ← wrapInt_natCast, wrapInt_eq_iff, h]
  have hmod : ((g.ratio * clearClusters g st.map % 2 ^ g.superBits : ℕ) : ℤ) ≡
    g.ratio * clearClusters g st.map
      [ZMOD 2 ^ g.superBits] := by
    push_cast
    exact Int.mod_modEq _ _
  refine (hmod.sub_right _).trans ?_
  rw [hclear]
  push_cast
  ring_nf
  rfl

/-- A bitmap of the old kind does not count a range that is too long for an `int`. -/
theorem range_of_long {map : BlockBitmap} (h32 : ¬map.Is64) (hnum : 2 ^ 31 ≤ num) :
    map.markRange bal blk num = map ∧ map.unmarkRange bal blk num = map := by
  cases map with
  | rb c start bmapEnd bp => exact absurd trivial h32
  | ba c start bmapEnd b => exact absurd trivial h32
  | legacy start bmapEnd realEnd b =>
    rw [BlockBitmap.markRange, BlockBitmap.unmarkRange, if_neg (not_lt.mpr hnum),
      if_neg (not_lt.mpr hnum)]
    split_ifs <;> exact ⟨rfl, rfl⟩

/-- What the range comes to, and what the callback is told. -/
theorem blockAllocStatsRange_eq {st : BlockAlloc} (h : ClusterRange g blk num)
    (hinuse : inuse = 1 ∨ inuse = -1) :
    blockAllocStatsRange g bal blk num inuse st =
      ({ map := if 0 < inuse then st.map.markRange bal blk num else st.map.unmarkRange bal blk num
         counts := chargeClusters g inuse blk (num / g.ratio) st.counts
         superDirty := true
         bbDirty := true }, if g.rangeCallback then some (blk + num, 0) else none) := by
  have hloop := @chargeGroups_spec g blk num inuse st.counts hinuse num h (le_refl num)
  rw [blockAllocStatsRange, if_neg (not_lt.mpr h.le_count)]
  have hne : inuse ≠ 0 := by omega
  have hone : (if 0 < inuse then 1 else -1) = inuse := by split <;> omega
  simp only [if_neg hne, hone, hloop]

/-- **The range is counted as its clusters are, and the callback is told so, exactly if** no
callback is set and the bitmap can count the range; for an empty range, if the dirty flags are set
already. -/
theorem rangeAgrees_iff (hbal : ∀ t l, (bal t l).inorder = l) {st : BlockAlloc}
    (hmap : BlockMapOf g bal st.map) (h : ClusterRange g blk num) (hinuse : inuse = 1 ∨ inuse = -1)
    (hall : ∀ k, blk / g.ratio ≤ k → k < (blk + num) / g.ratio →
      st.map.bit k = decide (inuse < 0)) :
    RangeAgrees g bal blk num inuse st ↔
      (num ≠ 0 ∧ g.rangeCallback = false ∧ (¬st.map.Is64 → num < 2 ^ 31)) ∨
        (num = 0 ∧ st.superDirty = true ∧ st.bbDirty = true) := by
  have hpos : 0 < g.ratio := Nat.two_pow_pos _
  have hrange := @blockAllocStatsRange_eq g bal blk num inuse st h hinuse
  obtain ⟨a, ha⟩ := h.blk_dvd
  obtain ⟨m, hm⟩ := h.num_dvd
  rw [Nat.mul_comm] at ha hm
  subst ha hm
  have hdiv : m * g.ratio / g.ratio = m := Nat.mul_div_cancel _ hpos
  rw [← Nat.add_mul, Nat.mul_div_cancel _ hpos, Nat.mul_div_cancel _ hpos] at hall
  obtain ⟨hbits, hcounts, hsuper, hbb⟩ :=
    @statsClusters_spec g bal (a * g.ratio) m a inuse hbal st hmap hinuse rfl h.first_le
    h.le_count
  rw [hdiv] at hrange
  have hlo : g.firstDataBlock / g.ratio ≤ a :=
    Nat.div_le_of_le_mul (by rw [Nat.mul_comm]; exact h.first_le)
  have hhi : a + m ≤ (g.blocksCount - 1) / g.ratio + 1 := by
    by_cases hzero : a + m = 0
    · rw [hzero]
      exact Nat.zero_le _
    have h1 := h.le_count
    have h2 : (a + m - 1 + 1) * g.ratio = a * g.ratio + m * g.ratio := by
      rw [Nat.sub_add_cancel (by omega), Nat.add_mul]
    rw [Nat.succ_mul] at h2
    have h3 :=
      (Nat.le_div_iff_mul_le hpos).mpr (show (a + m - 1) * g.ratio ≤ g.blocksCount - 1 by omega)
    omega
  -- when the bitmap can count the range
  have hmap' : (¬st.map.Is64 → m * g.ratio < 2 ^ 31) → ∀ k, g.firstDataBlock / g.ratio ≤ k →
      k ≤ (g.blocksCount - 1) / g.ratio →
        (blockAllocStatsRange g bal (a * g.ratio) (m * g.ratio) inuse st).1.map.bit k =
        setClusters st.map.bit a m (decide (0 < inuse)) k := by
    intro hfits k h1 h2
    obtain ⟨hmark, hunmark⟩ :=
      @bit_range g bal m a hbal st.map hmap h hfits k (hmap.first ▸ h1) (hmap.last ▸ h2)
    rw [hrange]
    rcases hinuse with rfl | rfl
    · exact hmark
    · exact hunmark
  constructor
  · intro hagree
    by_cases hm0 : m = 0
    · have h1 := hagree.same.superDirty
      have h2 := hagree.same.bbDirty
      rw [hrange, hdiv, hsuper, hm0, decide_eq_false (Nat.lt_irrefl 0), Bool.or_false] at h1
      rw [hrange, hdiv, hbb, hm0, decide_eq_false (Nat.lt_irrefl 0), Bool.or_false] at h2
      exact Or.inr ⟨by rw [hm0, Nat.zero_mul], h1.symm, h2.symm⟩
    · have hnum : 0 < m * g.ratio := Nat.mul_pos (Nat.pos_of_ne_zero hm0) hpos
      refine Or.inl ⟨hnum.ne', Bool.eq_false_iff.mpr fun hcb => ?_,
        fun h32 => not_le.mp fun hlong => ?_⟩
      · have htold := hagree.told hcb
        rw [hrange, if_pos hcb] at htold
        have := congrArg Prod.snd (Option.some.inj htold)
        dsimp only at this
        omega
      · -- the bitmap is as before
        obtain ⟨hmark, hunmark⟩ := @range_of_long bal (a * g.ratio) (m * g.ratio) st.map h32 hlong
        have hsame := hagree.same.map a hlo (by omega)
        rw [hrange] at hsame
        dsimp only at hsame
        rw [hmark, hunmark, ite_self, hdiv, hbits.bit a (hmap.first ▸ hlo), setClusters,
          if_pos (by omega), hall a (le_refl a) (by omega)] at hsame
        rcases hinuse with rfl | rfl <;> exact absurd hsame (by decide)
  · intro hcond
    have hfits : ¬st.map.Is64 → m * g.ratio < 2 ^ 31 := by
      rcases hcond with ⟨-, -, hfits⟩ | ⟨hzero, -, -⟩
      · exact hfits
      · exact fun _ => hzero ▸ by norm_num
    refine ⟨⟨fun k h1 h2 => ?_, ?_, ?_, ?_⟩, fun hcb => ?_, fun hfree => ?_⟩
    · rw [hmap' hfits k h1 h2, hdiv, hbits.bit k (hmap.first ▸ h1)]
    · rw [hdiv, hcounts, hrange]
    · rw [hdiv, hsuper, hrange]
      rcases hcond with ⟨hne, -, -⟩ | ⟨-, hs, -⟩
      · rw [decide_eq_true (Nat.pos_of_mul_pos_right (Nat.pos_of_ne_zero hne)), Bool.or_true]
      · rw [hs, Bool.true_or]
    · rw [hdiv, hbb, hrange]
      rcases hcond with ⟨hne, -, -⟩ | ⟨-, -, hb⟩
      · rw [decide_eq_true (Nat.pos_of_mul_pos_right (Nat.pos_of_ne_zero hne)), Bool.or_true]
      · rw [hb, Bool.true_or]
    · rcases hcond with ⟨-, hnone, -⟩ | ⟨hzero, -, -⟩
      · rw [hcb] at hnone
        cases hnone
      · rw [hrange, if_pos hcb, hzero, Nat.add_zero]
    · have hcharged : (blockAllocStatsRange g bal (a * g.ratio) (m * g.ratio) inuse st).1.counts =
          chargeClusters g inuse (a * g.ratio) m st.counts := by rw [hrange]
      exact countsFree_charged hinuse hcharged hlo hhi hall (hmap' hfits) hfree

/-- Two groups of 32 blocks, in clusters of 4 blocks. -/
def twoStatsGroups (callback : Bool) : StatsGeometry :=
  ⟨0, 64, 32, 2, 2, true, false, fun _ _ _ => 0, callback, by decide, by decide, by decide,
    by decide, by decide⟩

def noClusters : BlockAlloc := ⟨.ba 2 0 15 fun _ => 0, ⟨fun _ => ⟨8, false, 0⟩, 64⟩, false, false⟩

/-- The callback is told of a range behind the one that is counted, with no blocks. -/
theorem not_rangeAgrees_callback :
    ¬RangeAgrees (twoStatsGroups true) (fun _ l => .ofList l) 24 16 1 noClusters := by
  intro h
  have htold := h.told rfl
  rw [blockAllocStatsRange_eq ⟨by decide, by decide, by decide, by decide, by decide⟩ (Or.inl rfl)]
    at htold
  exact absurd htold (by decide)

theorem rangeAgrees_iff_across :
    RangeAgrees (twoStatsGroups false) (fun _ l => .ofList l) 24 16 1 noClusters :=
  (@rangeAgrees_iff (twoStatsGroups false) (fun _ l => .ofList l) 24 16 1
    (fun _ l => SearchTree.inorder_ofList l)
    noClusters ⟨trivial, rfl, rfl, rfl⟩ ⟨by decide, by decide, by decide, by decide,
      by decide⟩ (Or.inl rfl)
    fun _ _ _ => Nat.zero_testBit _).mpr
    (Or.inl ⟨by decide, rfl, fun h => absurd trivial h⟩)

end StatsRange

end E2fsprogs
