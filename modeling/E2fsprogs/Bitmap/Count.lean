import E2fsprogs.Bitmap.Clusters
import E2fsprogs.Lib.Loop

/-!
# Counting the clusters in use

`ext2fs_count_used_clusters` goes from run to run: it looks for the first set cluster, then for the
first clear one behind it, and goes on one block behind that. The loop ends before the last block of
the range, so with clusters of one block a run that begins there is not looked at
(`E2fsprogs.BlockBitmap.Missed`).
-/

namespace E2fsprogs

namespace BlockBitmap

/-- `ext2fs_find_first_zero_generic_bmap`. The loop over a bitmap of the old kind is a scan of its
bits. -/
def findFirstZero (base start stop : ℕ) : BlockBitmap → Except FindErr ℕ
  | rb clusterBits first last bp =>
    findFirstGeneric clusterBits first last (rbFindFirstZero first bp) start stop
  | ba clusterBits first last b =>
    findFirstGeneric clusterBits first last (baFindFirstZero first base b) start stop
  | legacy first last _ b =>
    if 2 ^ 32 ≤ start ∨ 2 ^ 32 ≤ stop then .error .einval
    else if start < first ∨ last < stop ∨ stop < start then .error .einval
    else (baFindTail false b (stop - start + 1) (start - first)).map fun k => k + first

/-- `ext2fs_find_first_set_generic_bmap`. -/
def findFirstSet (base start stop : ℕ) : BlockBitmap → Except FindErr ℕ
  | rb clusterBits first last bp =>
    findFirstGeneric clusterBits first last (rbFindFirstSet first bp) start stop
  | ba clusterBits first last b =>
    findFirstGeneric clusterBits first last (baFindFirstSet first base b) start stop
  | legacy first last _ b =>
    if 2 ^ 32 ≤ start ∨ 2 ^ 32 ≤ stop then .error .einval
    else if start < first ∨ last < stop ∨ stop < start then .error .einval
    else (baFindTail true b (stop - start + 1) (start - first)).map fun k => k + first

end BlockBitmap

/-- `EXT2FS_NUM_B2C`. -/
def numB2C (clusterBits blks : ℕ) : ℕ := (blks + ((1 <<< clusterBits) - 1)) >>> clusterBits

/-- One round of the loop of `ext2fs_count_used_clusters`, with `start` and `tot_set`. -/
def countUsedStep (base stop : ℕ) (bitmap : BlockBitmap) (s : ℕ × ℕ) : (ℕ × ℕ) ⊕ Except FindErr ℕ :=
  if s.1 < stop then
    match bitmap.findFirstSet base s.1 stop with
    | .error .enoent => .inr (.ok (numB2C bitmap.clusterBits s.2))
    | .error .einval => .inr (.error .einval)
    | .ok start =>
      match bitmap.findFirstZero base start stop with
      | .ok next => .inl (next + 1, s.2 + (next - start))
      | .error .enoent => .inr (.ok (numB2C bitmap.clusterBits (s.2 + (stop - start + 1))))
      | .error .einval => .inr (.error .einval)
  else .inr (.ok (numB2C bitmap.clusterBits s.2))

/-- `ext2fs_count_used_clusters` returns so. -/
def CountsUsed (base start stop : ℕ) (bitmap : BlockBitmap) (r : Except FindErr ℕ) : Prop :=
  Loop.Leaves (countUsedStep base stop bitmap) (start, 0) r

/-- How many clusters of a range are set. -/
def usedClusters (bitmap : BlockBitmap) (a c : ℕ) : ℕ :=
  ((Finset.Icc a c).filter fun k => bitmap.bit k = true).card

/-- The last block of the range is set and not looked at: it is the only one, or the run before it
ends two blocks before it. -/
def BlockBitmap.Missed (start stop : ℕ) (bitmap : BlockBitmap) : Prop :=
  bitmap.clusterBits = 0 ∧ bitmap.bit stop = true ∧
    (start = stop ∨ (start + 2 ≤ stop ∧ bitmap.bit (stop - 1) = false ∧
      bitmap.bit (stop - 2) = true))

instance (start stop : ℕ) (bitmap : BlockBitmap) : Decidable (bitmap.Missed start stop) :=
  inferInstanceAs (Decidable (_ ∧ _ ∧ _))

section Count

variable {bitmap : BlockBitmap} {a c k z : ℕ}

/-! ### Counting bits -/

/-- A range is split. -/
theorem usedClusters_split (hak : a ≤ k) (hkc : k ≤ c + 1) : usedClusters bitmap a c =
    ((Finset.Ico a k).filter fun k => bitmap.bit k = true).card + usedClusters bitmap k c := by
  have hIcc : ∀ x, Finset.Icc x c = Finset.Ico x (c + 1) := fun x => rfl
  rw [usedClusters, usedClusters, hIcc, hIcc, ← Finset.Ico_union_Ico_eq_Ico hak hkc,
    Finset.filter_union, Finset.card_union_of_disjoint]
  exact Finset.disjoint_filter_filter (Finset.Ico_disjoint_Ico_consecutive a k (c + 1))

/-- Clear clusters are not counted. -/
theorem usedClusters_of_clear (hak : a ≤ k) (hkc : k ≤ c + 1)
    (hclear : ∀ j, a ≤ j → j < k → bitmap.bit j = false) :
    usedClusters bitmap a c = usedClusters bitmap k c := by
  rw [usedClusters_split hak hkc, Finset.filter_false_of_mem, Finset.card_empty, Nat.zero_add]
  intro j hj
  rw [Finset.mem_Ico] at hj
  exact Bool.eq_false_iff.mp (hclear j hj.1 hj.2)

/-- Set clusters are. -/
theorem usedClusters_of_set (hak : a ≤ k) (hkc : k ≤ c + 1)
    (hset : ∀ j, a ≤ j → j < k → bitmap.bit j = true) :
    usedClusters bitmap a c = (k - a) + usedClusters bitmap k c := by
  rw [usedClusters_split hak hkc, Finset.filter_true_of_mem, Nat.card_Ico]
  intro j hj
  rw [Finset.mem_Ico] at hj
  exact hset j hj.1 hj.2

theorem usedClusters_nil (h : c < a) : usedClusters bitmap a c = 0 := by
  rw [usedClusters, Finset.Icc_eq_empty_of_lt h]
  rfl

theorem numB2C_shiftLeft (clusterBits n : ℕ) : numB2C clusterBits (n <<< clusterBits) = n := by
  have hpos := Nat.two_pow_pos clusterBits
  rw [numB2C, Nat.one_shiftLeft, Nat.shiftLeft_eq, Nat.shiftRight_eq_div_pow, Nat.mul_comm,
    Nat.mul_add_div hpos, Nat.div_eq_of_lt (by omega), Nat.add_zero]

/-! ### What is found -/

variable {bal : SearchTree RbExtent → List RbExtent → SearchTree RbExtent}
    {base start stop cur tot : ℕ}

/-- A block that is found in a bitmap of the old kind is its own cluster. -/
theorem findsBlock_legacy {P : ℕ → Prop} {r : Except FindErr ℕ} (h : FindsBit P start stop r) :
    FindsBlock P 0 start stop r := by
  cases r with
  | error e => exact h
  | ok n => exact ⟨n, h, (max_eq_right h.1.1).symm⟩

theorem FindsBlock.findsBit {P : ℕ → Prop} {r : Except FindErr ℕ}
    (h : FindsBlock P 0 start stop r) :
    FindsBit P start stop r := by
  cases r with
  | error e => exact h
  | ok n =>
    obtain ⟨k, hk, rfl⟩ := h
    have hle : start ≤ k := hk.1.1
    rwa [Nat.shiftLeft_zero, max_eq_right hle]

theorem findFirstSet_spec (hbal : ∀ t l, (bal t l).inorder = l) (hreach : bitmap.Reachable bal)
    (hle : start ≤ stop) (hstart : bitmap.first ≤ start >>> bitmap.clusterBits)
    (hstop : stop >>> bitmap.clusterBits ≤ bitmap.last) :
    FindsBlock (fun k => bitmap.bit k = true) bitmap.clusterBits start stop
      (bitmap.findFirstSet base start stop) := by
  have hcle := shiftRight_mono hle bitmap.clusterBits
  cases bitmap with
  | rb clusterBits first last bp =>
    have hok := RbReachable.ok hbal hreach
    exact findsBlock_iff hle hstart hstop ((rbFindFirstSet_spec hok hstart hcle).congr fun k _ _ =>
      (rbTest_iff hok).symm)
  | ba clusterBits first last b =>
    exact findsBlock_iff hle hstart hstop (baFindFirstSet_spec hstart hcle)
  | legacy first last realEnd b =>
    obtain ⟨-, -, hlast⟩ := hreach
    change first ≤ start at hstart
    change stop ≤ last at hstop
    rw [BlockBitmap.findFirstSet, if_neg (by omega), if_neg (by omega)]
    refine findsBlock_legacy (@finds_of_firstIn _ _ _ first _ (wanted true b) hstart hle
      (fun m => ?_) ?_)
    · rw [wanted, decide_eq_true_iff]
      show _ ↔ bitAt b (m + first - first) = true
      rw [Nat.add_sub_cancel]
    · rw [baFindTail_spec]

/-- A tree without nodes, for which `ENOENT` is returned whatever is looked for. -/
def BlockBitmap.Empty : BlockBitmap → Prop
  | rb _ _ _ bp => bp.nodes = []
  | _ => False

theorem BlockBitmap.Empty.clear (h : bitmap.Empty) (hreach : bitmap.Reachable bal)
    (hbal : ∀ t l, (bal t l).inorder = l) : ¬bitmap.bit k = true := by
  cases bitmap with
  | rb clusterBits first last bp =>
    intro hset
    have hmark := (rbTest_iff (RbReachable.ok hbal hreach)).mp hset
    rw [show bp.nodes = [] from h] at hmark
    exact marked_nil hmark
  | ba clusterBits first last b => cases h
  | legacy first last realEnd b => cases h

theorem BlockBitmap.Empty.findFirstZero (h : bitmap.Empty) (hle : start ≤ stop)
    (hstart : bitmap.first ≤ start >>> bitmap.clusterBits)
    (hstop : stop >>> bitmap.clusterBits ≤ bitmap.last) :
    bitmap.findFirstZero base start stop = .error .enoent := by
  have hcle := shiftRight_mono hle bitmap.clusterBits
  cases bitmap with
  | rb clusterBits first last bp =>
    change first ≤ start >>> clusterBits at hstart
    change stop >>> clusterBits ≤ last at hstop
    change start >>> clusterBits ≤ stop >>> clusterBits at hcle
    rw [BlockBitmap.findFirstZero, findFirstGeneric, if_neg (by omega), rbFindFirstZero,
      if_neg (by omega), if_pos (show bp.nodes = [] from h)]
    rfl
  | ba clusterBits first last b => cases h
  | legacy first last realEnd b => cases h

/-- In every other bitmap, the first clear bit is found. -/
theorem findFirstZero_exact (hbal : ∀ t l, (bal t l).inorder = l) (hreach : bitmap.Reachable bal)
    (hle : start ≤ stop) (hstart : bitmap.first ≤ start >>> bitmap.clusterBits)
    (hstop : stop >>> bitmap.clusterBits ≤ bitmap.last) (hne : ¬bitmap.Empty) :
    FindsBlock (fun k => bitmap.bit k = false) bitmap.clusterBits start stop
      (bitmap.findFirstZero base start stop) := by
  have hcle := shiftRight_mono hle bitmap.clusterBits
  cases bitmap with
  | rb clusterBits first last bp =>
    have hok := RbReachable.ok hbal hreach
    exact findsBlock_iff hle hstart hstop
      ((rbFindFirstZero_spec hok hstart hcle hne).congr fun k _ _ => (rbTest_eq_false hok).symm)
  | ba clusterBits first last b =>
    exact findsBlock_iff hle hstart hstop (baFindFirstZero_spec hstart hcle)
  | legacy first last realEnd b =>
    obtain ⟨-, -, hlast⟩ := hreach
    change first ≤ start at hstart
    change stop ≤ last at hstop
    rw [BlockBitmap.findFirstZero, if_neg (by omega), if_neg (by omega)]
    refine findsBlock_legacy (@finds_of_firstIn _ _ _ first _ (wanted false b) hstart hle
      (fun m => ?_) ?_)
    · rw [wanted, decide_eq_true_iff]
      show _ ↔ bitAt b (m + first - first) = false
      rw [Nat.add_sub_cancel]
    · rw [baFindTail_spec]

theorem findFirstZero_spec (hbal : ∀ t l, (bal t l).inorder = l) (hreach : bitmap.Reachable bal)
    (hle : start ≤ stop) (hstart : bitmap.first ≤ start >>> bitmap.clusterBits)
    (hstop : stop >>> bitmap.clusterBits ≤ bitmap.last) (hset : bitmap.bit k = true) :
    FindsBlock (fun k => bitmap.bit k = false) bitmap.clusterBits start stop
      (bitmap.findFirstZero base start stop) :=
  findFirstZero_exact hbal hreach hle hstart hstop fun h => h.clear hreach hbal hset

/-! ### The loop -/

/-- Where a round begins: at the first block of a cluster, or behind it when the cluster is
clear. -/
def AtCluster (bitmap : BlockBitmap) (a cur : ℕ) : Prop :=
  cur = a <<< bitmap.clusterBits ∨
    (0 < bitmap.clusterBits ∧ cur = a <<< bitmap.clusterBits + 1 ∧ bitmap.bit a = false)

theorem shiftLeft_mono (h : a ≤ k) (n : ℕ) : a <<< n ≤ k <<< n := by
  rw [Nat.shiftLeft_eq, Nat.shiftLeft_eq]
  exact Nat.mul_le_mul_right _ h

theorem succ_shiftLeft (a n : ℕ) : (a + 1) <<< n = a <<< n + 2 ^ n := by
  rw [Nat.shiftLeft_eq, Nat.shiftLeft_eq, Nat.add_mul, Nat.one_mul]

theorem sub_shiftLeft (a k n : ℕ) : (k - a) <<< n = k <<< n - a <<< n := by
  rw [Nat.shiftLeft_eq, Nat.shiftLeft_eq, Nat.shiftLeft_eq, Nat.sub_mul]

theorem add_shiftLeft (a k n : ℕ) : (a + k) <<< n = a <<< n + k <<< n := by
  rw [Nat.shiftLeft_eq, Nat.shiftLeft_eq, Nat.shiftLeft_eq, Nat.add_mul]

/-- The last block of a cluster is in it. -/
theorem shiftRight_stop {n : ℕ} (h : stop + 1 = (c + 1) <<< n) : stop >>> n = c := by
  have hpos := Nat.two_pow_pos n
  rw [succ_shiftLeft] at h
  rw [show stop = c <<< n + (2 ^ n - 1) by omega, Nat.shiftLeft_eq,
    Nat.shiftRight_eq_div_pow, Nat.mul_comm, Nat.mul_add_div hpos,
    Nat.div_eq_of_lt (by omega), Nat.add_zero]

theorem one_lt_two_pow_of_pos {n : ℕ} (h : 0 < n) : 1 < 2 ^ n := Nat.one_lt_two_pow (by omega)

theorem AtCluster.shiftRight (h : AtCluster bitmap a cur) : cur >>> bitmap.clusterBits = a := by
  rcases h with rfl | ⟨hpos, rfl, -⟩
  · exact Nat.shiftLeft_shiftRight a _
  · have hlt := one_lt_two_pow_of_pos hpos
    rw [Nat.shiftLeft_eq, Nat.shiftRight_eq_div_pow, Nat.mul_comm, Nat.mul_add_div (by omega),
      Nat.div_eq_of_lt hlt, Nat.add_zero]

/-- The block that a set cluster is found at is its first one. -/
theorem AtCluster.max_eq (h : AtCluster bitmap a cur) (hak : a ≤ k) (hset : bitmap.bit k = true) :
    max cur (k <<< bitmap.clusterBits) = k <<< bitmap.clusterBits := by
  refine max_eq_right ?_
  rcases h with rfl | ⟨hpos, rfl, hclear⟩
  · exact shiftLeft_mono hak _
  · have hlt : a + 1 ≤ k := Nat.lt_of_le_of_ne hak fun heq => by
      rw [← heq, hclear] at hset
      cases hset
    have hmono := shiftLeft_mono hlt bitmap.clusterBits
    rw [succ_shiftLeft] at hmono
    have := one_lt_two_pow_of_pos hpos
    omega

/-- The loop is over: there is no cluster left, or the last one is clear, or a cluster is a
block. -/
theorem AtCluster.of_le (h : AtCluster bitmap a cur)
    (hstop : stop + 1 = (c + 1) <<< bitmap.clusterBits) (hac : a ≤ c + 1) (hle : stop ≤ cur) :
    a = c + 1 ∨ (a = c ∧ (bitmap.bit c = false ∨ bitmap.clusterBits = 0)) := by
  rcases Nat.eq_or_lt_of_le hac with heq | hlt
  · exact Or.inl heq
  right
  have hmono := shiftLeft_mono (Nat.le_of_lt_succ hlt) bitmap.clusterBits
  rw [succ_shiftLeft] at hstop
  rcases Nat.eq_zero_or_pos bitmap.clusterBits with hzero | hpos
  · rcases h with rfl | ⟨hpos, -⟩
    · rw [hzero, Nat.shiftLeft_zero] at hle hstop
      exact ⟨by omega, Or.inr hzero⟩
    · omega
  · have htwo := one_lt_two_pow_of_pos hpos
    rcases h with rfl | ⟨-, rfl, hclear⟩
    · omega
    · rcases Nat.eq_or_lt_of_le (Nat.le_of_lt_succ hlt) with rfl | hbefore
      · exact ⟨rfl, Or.inl hclear⟩
      · have hmono' := shiftLeft_mono hbefore bitmap.clusterBits
        rw [Nat.succ_eq_add_one, succ_shiftLeft] at hmono'
        omega

/-- The last cluster is missed from the beginning of a round exactly if it is from the beginning of
the next one. -/
theorem missed_iff_of_round (hak : a ≤ k) (hkz : k < z)
    (hzc : z ≤ c) (hclear : bitmap.bit z = false) (hrun : ∀ j, k ≤ j → j < z → bitmap.bit j = true)
    (hac : a < c) : bitmap.Missed a c ↔ bitmap.Missed (z + 1) c := by
  refine and_congr_right fun _ => and_congr_right fun hlast => ?_
  have hne : z ≠ c := by
    rintro rfl
    rw [hclear] at hlast
    cases hlast
  constructor
  · rintro (rfl | ⟨h1, h2, h3⟩)
    · omega
    · rcases Nat.lt_or_ge z (c - 1) with hlt | hge
      · refine Or.inr ⟨?_, h2, h3⟩
        by_contra hnot
        rw [show z = c - 2 by omega, h3] at hclear
        cases hclear
      · exact Or.inl (by omega)
  · rintro (rfl | ⟨h1, h2, h3⟩)
    · refine Or.inr ⟨by omega, hclear, hrun _ ?_ ?_⟩
      · omega
      · omega
    · exact Or.inr ⟨by omega, h2, h3⟩

/-- Nothing is left but a cluster that is missed. -/
theorem used_of_over (h : a = c + 1 ∨ (a = c ∧ (bitmap.bit c = false ∨ bitmap.clusterBits = 0))) :
    usedClusters bitmap a c = if bitmap.Missed a c then 1 else 0 := by
  rcases h with rfl | ⟨rfl, hlast⟩
  · rw [usedClusters_nil (Nat.lt_succ_self c), if_neg]
    rintro ⟨-, -, h | h⟩
    · omega
    · omega
  · rcases Bool.eq_false_or_eq_true (bitmap.bit a) with hset | hclear
    · have hzero := hlast.resolve_left (by rw [hset]; exact Bool.noConfusion)
      rw [if_pos ⟨hzero, hset, Or.inl rfl⟩,
        usedClusters_of_set (Nat.le_succ a) le_rfl fun j h1 h2 => by rwa [show j = a by omega],
        usedClusters_nil (Nat.lt_succ_self a)]
      omega
    · have hmiss : ¬bitmap.Missed a a := fun hmiss => by
        have hbit := hmiss.2.1
        rw [hclear] at hbit
        cases hbit
      rw [if_neg hmiss, usedClusters_of_clear
        (Nat.le_succ a) le_rfl fun j h1 h2 => by
          rwa [show j = a by omega], usedClusters_nil (Nat.lt_succ_self a)]

/-- No set cluster is left. -/
theorem used_of_none (hac : a ≤ c) (hnone : ∀ j, a ≤ j → j ≤ c → ¬bitmap.bit j = true) :
    usedClusters bitmap a c = 0 ∧ ¬bitmap.Missed a c := by
  refine ⟨?_, fun hmiss => hnone c hac le_rfl hmiss.2.1⟩
  rw [usedClusters_of_clear (by omega : a ≤ c + 1) le_rfl fun j h1 h2 =>
    Bool.eq_false_iff.mpr (hnone j h1 (Nat.le_of_lt_succ h2)),
    usedClusters_nil (Nat.lt_succ_self c)]

/-- From the first set cluster on all are set. -/
theorem used_of_all (hlt : bitmap.clusterBits = 0 → a < c) (hak : a ≤ k) (hkc : k ≤ c)
    (hleast : ∀ j, a ≤ j → j ≤ c → bitmap.bit j = true → k ≤ j)
    (hall : ∀ j, k ≤ j → j ≤ c → ¬bitmap.bit j = false) :
    usedClusters bitmap a c = c + 1 - k ∧ ¬bitmap.Missed a c := by
  constructor
  · rw [usedClusters_of_clear hak (by omega) fun j h1 h2 => Bool.eq_false_iff.mpr fun hset => ?_,
      usedClusters_of_set (by omega : k ≤ c + 1) le_rfl fun j h1 h2 =>
        Bool.eq_true_of_not_eq_false (hall j h1 (Nat.le_of_lt_succ h2)),
        usedClusters_nil (Nat.lt_succ_self c), Nat.add_zero]
    have := hleast j h1 (by omega) hset
    omega
  · rintro ⟨hzero, hlast, heq | ⟨h1, h2, h3⟩⟩
    · have := hlt hzero
      omega
    · have hk := hleast (c - 2) (by omega) (by omega) h3
      exact hall (c - 1) (by omega) (by omega) h2

/-- **What the loop returns** from the beginning of a round on, by induction on the blocks that are
left: the set clusters, without the one that is missed. -/
theorem leaves_from (hbal : ∀ t l, (bal t l).inorder = l) (hreach : bitmap.Reachable bal)
    (hstop : stop + 1 = (c + 1) <<< bitmap.clusterBits) (hc : c ≤ bitmap.last)
    (ha : bitmap.first ≤ a) (hac : a ≤ c + 1) (hcur : AtCluster bitmap a cur) :
    Loop.Leaves (countUsedStep base stop bitmap) (cur, tot <<< bitmap.clusterBits)
      (.ok (tot + usedClusters bitmap a c - if bitmap.Missed a c then 1 else 0)) := by
  obtain ⟨n, hn⟩ : ∃ n, n = stop - cur := ⟨_, rfl⟩
  induction n using Nat.strong_induction_on generalizing a cur tot with
  | _ n ih =>
    have hpos := Nat.two_pow_pos bitmap.clusterBits
    have hsucc := succ_shiftLeft c bitmap.clusterBits
    have hstopc := shiftRight_stop hstop
    by_cases hmore : cur < stop
    swap
    · -- the loop is over
      rw [used_of_over (hcur.of_le hstop hac (by omega)), Nat.add_sub_cancel]
      refine Loop.leaves_of_inr ?_
      rw [countUsedStep, if_neg hmore, numB2C_shiftLeft]
    have hac' : a ≤ c := by
      rw [← hcur.shiftRight, ← hstopc]
      exact shiftRight_mono hmore.le _
    have hltc : bitmap.clusterBits = 0 → a < c := by
      intro hzero
      rw [← hcur.shiftRight, ← hstopc, hzero]
      exact hmore
    have hfirst :=
      @findFirstSet_spec bitmap bal base cur stop hbal hreach hmore.le (by rwa [hcur.shiftRight])
      (by rwa [hstopc])
    cases hfind : bitmap.findFirstSet base cur stop with
    | error e =>
      rw [hfind] at hfirst
      obtain ⟨rfl, hnone⟩ := hfirst
      rw [hcur.shiftRight, hstopc] at hnone
      obtain ⟨hused, hmiss⟩ := used_of_none hac' hnone
      rw [hused, if_neg hmiss]
      refine Loop.leaves_of_inr ?_
      rw [countUsedStep, if_pos hmore]
      dsimp only
      rw [hfind]
      dsimp only
      rw [numB2C_shiftLeft]
      rfl
    | ok start =>
      rw [hfind] at hfirst
      obtain ⟨k, hk, hstart⟩ := hfirst
      rw [hcur.shiftRight, hstopc] at hk
      obtain ⟨⟨hak, hkc, hset⟩, hleast⟩ := hk
      rw [hcur.max_eq hak hset] at hstart
      have hkstop := shiftLeft_mono hkc bitmap.clusterBits
      have hkstart : start >>> bitmap.clusterBits = k := by rw [hstart, Nat.shiftLeft_shiftRight]
      have hcurk : cur ≤ start := by
        rw [hstart, ← hcur.max_eq hak hset]
        exact le_max_left ..
      have hclear : ∀ j, a ≤ j → j < k → bitmap.bit j = false := fun j h1 h2 =>
        Bool.eq_false_iff.mpr fun hbit => by
          have := hleast ⟨h1, by omega, hbit⟩
          omega
      have hzero := @findFirstZero_spec bitmap k bal base start stop hbal hreach (by omega)
        (by rw [hkstart]; omega)
        (by rwa [hstopc]) hset
      cases hfind' : bitmap.findFirstZero base start stop with
      | error e =>
        rw [hfind'] at hzero
        obtain ⟨rfl, hall⟩ := hzero
        rw [hkstart, hstopc] at hall
        obtain ⟨hused, hmiss⟩ :=
          used_of_all hltc hak hkc (fun j h1 h2 hbit => hleast ⟨h1, h2, hbit⟩) hall
        rw [hused, if_neg hmiss]
        refine Loop.leaves_of_inr ?_
        rw [countUsedStep, if_pos hmore]
        dsimp only
        rw [hfind]
        dsimp only
        rw [hfind']
        have hsub := sub_shiftLeft k (c + 1) bitmap.clusterBits
        dsimp only
        rw [show stop - start + 1 = (c + 1 - k) <<< bitmap.clusterBits by omega, ← add_shiftLeft,
          numB2C_shiftLeft]
        rfl
      | ok next =>
        rw [hfind'] at hzero
        obtain ⟨z, hz, hnext⟩ := hzero
        rw [hkstart, hstopc] at hz
        obtain ⟨⟨hkz, hzc, hzclear⟩, hzleast⟩ := hz
        have hkz' : k < z := Nat.lt_of_le_of_ne hkz fun heq => by
          rw [← heq, hset] at hzclear
          cases hzclear
        have hrun : ∀ j, k ≤ j → j < z → bitmap.bit j = true := fun j h1 h2 =>
          Bool.eq_true_of_not_eq_false fun hbit => by
            have := hzleast ⟨h1, by omega, hbit⟩
            omega
        have hzmono := shiftLeft_mono hkz bitmap.clusterBits
        have hzstop := shiftLeft_mono hzc bitmap.clusterBits
        rw [hstart, max_eq_right hzmono] at hnext
        have hsub := sub_shiftLeft k z bitmap.clusterBits
        have hround : Loop.Round (countUsedStep base stop bitmap) (cur, tot <<< bitmap.clusterBits)
            (z <<< bitmap.clusterBits + 1, (tot + (z - k)) <<< bitmap.clusterBits) := by
          show countUsedStep base stop bitmap _ = _
          rw [countUsedStep, if_pos hmore]
          dsimp only
          rw [hfind]
          dsimp only
          rw [hfind']
          dsimp only
          rw [add_shiftLeft, hsub, hnext, hstart]
        refine Loop.leaves_of_round hround ?_
        have hused : usedClusters bitmap a c = (z - k) + usedClusters bitmap z c := by
          rw [usedClusters_of_clear hak (by omega) hclear, usedClusters_of_set hkz (by omega) hrun]
        have hused' : usedClusters bitmap z c = usedClusters bitmap (z + 1) c :=
          usedClusters_of_clear (Nat.le_succ z) (by omega) fun j h1 h2 => by
            rwa [show j = z by omega]
        rcases Nat.eq_zero_or_pos bitmap.clusterBits with hone | hmany
        · -- a cluster is a block, and the next one is looked at
          have hnextc := @ih (stop - (z <<< bitmap.clusterBits + 1)) (by omega) (z + 1)
            (z <<< bitmap.clusterBits + 1)
            (tot + (z - k)) (by omega) (by omega) (Or.inl (by rw [hone]; rfl)) rfl
          rw [hused, hused', if_congr (missed_iff_of_round hak hkz' hzc hzclear hrun (hltc hone))
            rfl rfl, ← Nat.add_assoc]
          exact hnextc
        · have hnextc :=
            @ih (stop - (z <<< bitmap.clusterBits + 1)) (by omega) z (z <<< bitmap.clusterBits + 1)
            (tot + (z - k)) (by omega) (by omega) (Or.inr ⟨hmany, rfl, hzclear⟩) rfl
          have hmiss : ∀ x, ¬bitmap.Missed x c := fun x hmiss => by
            have := hmiss.1
            omega
          rw [if_neg (hmiss z)] at hnextc
          rw [if_neg (hmiss a), hused, ← Nat.add_assoc]
          exact hnextc

/-- **`ext2fs_count_used_clusters` returns the number of set clusters of the range exactly if the
last block is not missed.** -/
theorem countsUsed_iff (hbal : ∀ t l, (bal t l).inorder = l)
    (hreach : bitmap.Reachable bal) (base : ℕ)
    (hle : start ≤ stop) (hstart : start % 2 ^ bitmap.clusterBits = 0)
    (hstop : (stop + 1) % 2 ^ bitmap.clusterBits = 0)
    (hfirst : bitmap.first ≤ start >>> bitmap.clusterBits)
    (hlast : stop >>> bitmap.clusterBits ≤ bitmap.last) :
    CountsUsed base start stop bitmap
        (.ok (usedClusters bitmap (start >>> bitmap.clusterBits) (stop >>> bitmap.clusterBits))) ↔
      ¬bitmap.Missed start stop := by
  have hpos := Nat.two_pow_pos bitmap.clusterBits
  obtain ⟨a, ha⟩ : ∃ a, start = a <<< bitmap.clusterBits := by
    obtain ⟨a, ha⟩ := Nat.dvd_of_mod_eq_zero hstart
    exact ⟨a, by rw [Nat.shiftLeft_eq, Nat.mul_comm, ha]⟩
  obtain ⟨c, hc⟩ : ∃ c, stop + 1 = (c + 1) <<< bitmap.clusterBits := by
    obtain ⟨c, hc⟩ := Nat.dvd_of_mod_eq_zero hstop
    cases c with
    | zero => omega
    | succ c => exact ⟨c, by rw [Nat.shiftLeft_eq, Nat.mul_comm, hc]⟩
  have hstopc := shiftRight_stop hc
  have hac : a ≤ c := by
    have hmono := shiftRight_mono hle bitmap.clusterBits
    rwa [ha, Nat.shiftLeft_shiftRight, hstopc] at hmono
  rw [ha, Nat.shiftLeft_shiftRight] at hfirst ⊢
  rw [hstopc] at hlast ⊢
  have hleave :=
    @leaves_from bitmap a c bal base stop (a <<< bitmap.clusterBits) 0 hbal hreach hc hlast hfirst
    (by omega) (Or.inl rfl)
  rw [Nat.zero_shiftLeft, Nat.zero_add] at hleave
  -- with clusters of one block, blocks are clusters
  have hmiss : bitmap.Missed (a <<< bitmap.clusterBits) stop ↔ bitmap.Missed a c := by
    constructor
    · intro hmiss
      have hzero := hmiss.1
      rw [hzero, Nat.shiftRight_zero] at hstopc
      rwa [hzero, Nat.shiftLeft_zero, hstopc] at hmiss
    · intro hmiss
      have hzero := hmiss.1
      rw [hzero, Nat.shiftRight_zero] at hstopc
      rwa [hzero, Nat.shiftLeft_zero, hstopc]
  rw [hmiss, CountsUsed]
  constructor
  · intro hright hbad
    have hres := Loop.leaves_unique hright hleave
    rw [if_pos hbad] at hres
    have hmem : c ∈ (Finset.Icc a c).filter fun k => bitmap.bit k = true :=
      Finset.mem_filter.mpr ⟨Finset.mem_Icc.mpr ⟨hac, le_rfl⟩, hbad.2.1⟩
    have hone : 0 < usedClusters bitmap a c := Finset.card_pos.mpr ⟨c, hmem⟩
    have := Except.ok.inj hres
    omega
  · intro hgood
    rwa [if_neg hgood] at hleave

/-- Block 0 alone, which is set. -/
theorem not_countsUsed_one : (BlockBitmap.ba 0 0 7 fun _ => 1).Reachable (fun _ l => .ofList l) ∧
    ¬CountsUsed 0 0 0 (.ba 0 0 7 fun _ => 1) (.ok (usedClusters (.ba 0 0 7 fun _ => 1) 0 0)) := by
  refine ⟨trivial, fun h => ?_⟩
  have hzero : CountsUsed 0 0 0 (.ba 0 0 7 fun _ => 1) (.ok 0) := ⟨1, rfl⟩
  have hres := Except.ok.inj (Loop.leaves_unique h hzero)
  exact absurd hres (by decide)

theorem countsUsed_ba :
    CountsUsed 0 0 31 (.ba 4 0 7 fun _ => 1) (.ok (usedClusters (.ba 4 0 7 fun _ => 1) 0 1)) :=
  (@countsUsed_iff (.ba 4 0 7 fun _ => 1) _ 0 31 (fun _ l => SearchTree.inorder_ofList l) trivial 0
    (by decide) (by decide)
    (by decide) (by decide) (by decide)).mpr fun h => absurd h.1 (by decide)

end Count

end E2fsprogs
