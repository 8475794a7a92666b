import E2fsprogs.RwBitmaps.Read

/-!
# Several threads read as one does

The ranges of the threads cover the groups one after the other, and a group is set at a place of its
own, so the insertions commute and it does not matter how the threads take turns.

Two things differ. No threads at all are divided by before they are compared with one. And if the
bitmaps of a group do not fit into a block, nothing has been freed yet, but the threads' way out
frees the bitmaps that were there.
-/

namespace E2fsprogs

/-- Bitmaps that hold the same bits, or none. -/
def SameMap (a b : Option BlockBitmap) : Prop :=
  Option.Rel (fun x y => x.shape = y.shape ∧ x.bits = y.bits) a b

/-- Both succeed or both fail, with the same bitmaps and flags. -/
structure SameResult (r r' : Option RwErr × RwState) : Prop where
  succeeds : r.1 = none ↔ r'.1 = none
  map : ∀ sort, SameMap (r.2.map sort) (r'.2.map sort)
  tail : r.2.tail = r'.2.tail

namespace RwFs

variable (fs : RwFs)

/-- The limits that `ext2fs_open2` checks. -/
structure Fits : Prop where
  blocksize_le : fs.blocksize ≤ 65536
  groups_lt : fs.groupDescCount < 2 ^ 32
  inodes_lt : fs.groupDescCount * fs.inodesPerGroup < 2 ^ 32

/-- The groups are given to threads. -/
def UsesThreads (nproc numThreads : ℤ) : Prop :=
  fs.ThreadsAllowed numThreads ∧ 1 < fs.threadCount nproc numThreads ∧
    fs.averageGroup (fs.threadCount nproc numThreads) ≠ 0

/-- Reading with threads: every group is in the range of one thread, the threads come to an end, and
however they take turns, the outcome is that of reading all the groups in a row. -/
structure ThreadedAsSerial (bal : SearchTree RbExtent → List RbExtent → SearchTree RbExtent)
    (descs : ℕ → RwDesc)
    (disk : ℕ → Option Block) (flags : PerSort Bool) (nproc numThreads : ℤ) (st : RwState) :
    Prop where
  covers : fs.UsesThreads nproc numThreads →
    (List.range (fs.threadCount nproc numThreads)).flatMap
      (fun i => groupsOf (fs.threadRange (fs.threadCount nproc numThreads) i)) =
        List.range fs.groupDescCount
  ends : ∃ out, fs.RwBitmaps descs disk bal flags nproc numThreads st out
  agrees : ∀ out, fs.RwBitmaps descs disk bal flags nproc numThreads st out →
    ∃ r, out = .done r ∧ SameResult r
      (fs.readBitmapsRange descs disk bal flags (0, fs.lastGroup) st)

/-- The shape of a new bitmap. -/
def newShape (sort : BitmapSort) : BitShape :=
  ((fs.allocateBitmap sort).map BlockBitmap.shape).getD ⟨.tree, 0, 0, 0⟩

/-- The bits that are set for a part, and whether its tail has a problem. -/
def partBits (descs : ℕ → RwDesc) (disk : ℕ → Option Block) (sort : BitmapSort) (group : ℕ) :
    Block × Bool :=
  match fs.groupBitmap descs disk sort group with
  | .ok r => r
  | .error _ => (zeroBlock, false)

/-- A part that is read, of a group that there is. -/
def GoodPart (descs : ℕ → RwDesc) (disk : ℕ → Option Block) (flags : PerSort Bool) : ReadPart → Prop
  | .group sort g => flags sort = true ∧ g < fs.groupDescCount ∧
      fs.groupBitmap descs disk sort g = .ok (fs.partBits descs disk sort g) ∧
      ¬(fs.newShape sort).Refuses (fs.itr sort g) (fs.groupBits sort)
  | .image _ => False

/-- One that fails. -/
def BadPart (descs : ℕ → RwDesc) (disk : ℕ → Option Block) (flags : PerSort Bool) : ReadPart → Prop
  | .group sort g => flags sort = true ∧ ((∃ e, fs.groupBitmap descs disk sort g = .error e) ∨
      (fs.newShape sort).Refuses (fs.itr sort g) (fs.groupBits sort))
  | .image _ => False

/-- What a part does to the bits. -/
def partEffect (descs : ℕ → RwDesc) (disk : ℕ → Option Block) (t : PerSort (ℕ → Bool)) :
    ReadPart → PerSort (ℕ → Bool)
  | .group sort g =>
    Function.update t sort ((fs.newShape sort).imported (fs.itr sort g) (fs.groupBits sort)
      (fs.partBits descs disk sort g).1 (t sort))
  | .image _ => t

/-- What it does to the flags. -/
def partNote (descs : ℕ → RwDesc) (disk : ℕ → Option Block) (tail : PerSort Bool) :
    ReadPart → PerSort Bool
  | .group sort g => Function.update tail sort (tail sort || (fs.partBits descs disk sort g).2)
  | .image _ => tail

/-- The bits of the superblock and the descriptors of a group. -/
def Reserved (sh : BitShape) (group n : ℕ) : Prop :=
  let loc := superAndBgdLoc fs.toFlushFs fs.toSuperLayout group
  ((((loc.1 ≠ 0 ∨ group = 0) ∧ sh.Single loc.1 n) ∨
    ((group = 0 ∧ fs.blocksize = 1024 ∧ 0 < fs.clusterRatioBits) ∧ sh.Single 0 n)) ∨
    (loc.2.1 ≠ 0 ∧ sh.Span loc.2.1 (fs.oldDescNum loc.2.1) n)) ∨ (loc.2.2 ≠ 0 ∧ sh.Single loc.2.2 n)

/-- The bits of the blocks that a group uses itself. -/
def OwnBit (descs : ℕ → RwDesc) (sh : BitShape) (group n : ℕ) : Prop :=
  let d := descs group
  ((fs.Reserved sh group n ∨
    (d.inodeTableLoc ≠ 0 ∧ sh.Span d.inodeTableLoc fs.inodeBlocksPerGroup n)) ∨
    (d.bitmapLoc .block ≠ 0 ∧ sh.Single (d.bitmapLoc .block) n)) ∨
    (d.bitmapLoc .inode ≠ 0 ∧ sh.Single (d.bitmapLoc .inode) n)

/-- The bits that are marked for the groups without a block bitmap. -/
def UninitBit (descs : ℕ → RwDesc) (sh : BitShape) (n : ℕ) : Prop :=
  ∃ group ∈ List.range fs.groupDescCount, (descs group).uninit .block = true ∧
    fs.OwnBit descs sh group n

/-- While the parts are read, the bitmaps that are asked for are there, and all else is as it
was. -/
structure Reading (bal : SearchTree RbExtent → List RbExtent → SearchTree RbExtent)
    (flags : PerSort Bool) (st₁ st : RwState) : Prop where
  there : ∀ sort, flags sort = true →
    ∃ bm, st.map sort = some bm ∧ bm.TreeReachable bal ∧ bm.shape = fs.newShape sort
  others : ∀ sort, flags sort = false → st.map sort = st₁.map sort
  tail : st.tail = st₁.tail

end RwFs

/-- The bits of the bitmaps. -/
def RwState.bits (st : RwState) (sort : BitmapSort) : ℕ → Bool :=
  (st.map sort).elim (fun _ => false) BlockBitmap.bits

section Threads

variable {fs : RwFs} {bal : SearchTree RbExtent → List RbExtent → SearchTree RbExtent}
    {descs : ℕ → RwDesc}
  {disk : ℕ → Option Block} {flags : PerSort Bool} {nproc numThreads : ℤ} {st st' st₁ st₂ : RwState}
  {sort : BitmapSort} {num i m g : ℕ}

theorem SameMap.refl (a : Option BlockBitmap) : SameMap a a := by
  cases a with
  | none => exact .none
  | some x => exact .some ⟨rfl, rfl⟩

theorem SameResult.refl (r : Option RwErr × RwState) : SameResult r r :=
  ⟨Iff.rfl, fun _ => .refl _, rfl⟩

/-! ### The ranges -/

theorem lastGroup_eq (h : fs.Fits) (hpos : fs.groupDescCount ≠ 0) :
    fs.lastGroup = fs.groupDescCount - 1 := by
  have := h.groups_lt
  rw [RwFs.lastGroup]
  omega

theorem averageGroup_mul_le : fs.averageGroup num * num ≤ fs.groupDescCount := by
  refine (Nat.mul_le_mul_right num ?_).trans (Nat.div_mul_le_self fs.groupDescCount num)
  rw [RwFs.averageGroup]
  split
  · exact Nat.div_mul_le_self _ _
  · exact le_rfl

theorem range_append_range' (m n : ℕ) : List.range m ++ List.range' m n = List.range (m + n) := by
  rw [List.range_eq_range', List.range_eq_range', ← List.range'_append_1, Nat.zero_add]

/-- The groups of the first threads, by induction on how many. The last thread is none of them. -/
theorem groups_of_first (hm : m + 1 < num) :
    (List.range (m + 1)).flatMap (fun i => RwFs.groupsOf (fs.threadRange num i)) =
      List.range (fs.averageGroup num * (m + 1) + 1) := by
  induction m with
  | zero =>
    rw [List.range_one, List.flatMap_singleton, RwFs.threadRange, if_pos rfl, if_neg (by omega),
      RwFs.groupsOf, ← List.range_eq_range']
    rfl
  | succ m ih =>
    have hmul : fs.averageGroup num * (m + 1 + 1) =
        fs.averageGroup num * (m + 1) + fs.averageGroup num :=
      Nat.mul_succ _ _
    rw [List.range_succ, List.flatMap_append, ih (by omega), List.flatMap_singleton,
      RwFs.threadRange, if_neg (Nat.succ_ne_zero m), if_neg (by omega), RwFs.groupsOf,
      range_append_range']
    dsimp only
    congr 1
    omega

/-- **The threads cover the groups in a row.** -/
theorem groups_of_threads (h : fs.Fits) (hnum : 1 < num) (haverage : fs.averageGroup num ≠ 0) :
    (List.range num).flatMap (fun i => RwFs.groupsOf (fs.threadRange num i)) =
      List.range fs.groupDescCount := by
  have hle := @averageGroup_mul_le fs num
  obtain ⟨m, rfl⟩ : ∃ m, num = m + 1 + 1 := ⟨num - 2, by omega⟩
  have hmul : fs.averageGroup (m + 1 + 1) * (m + 1 + 1) =
      fs.averageGroup (m + 1 + 1) * (m + 1) + fs.averageGroup (m + 1 + 1) := Nat.mul_succ _ _
  have hpos : 0 < fs.averageGroup (m + 1 + 1) := Nat.pos_of_ne_zero haverage
  have hlast := lastGroup_eq h (by omega)
  rw [List.range_succ, List.flatMap_append, @groups_of_first fs (m + 1 + 1) m (by omega),
    List.flatMap_singleton, RwFs.threadRange, if_neg (Nat.succ_ne_zero m), if_pos (by omega), hlast,
    RwFs.groupsOf, range_append_range']
  dsimp only
  exact congrArg List.range (by omega)

/-- What the threads have to do is what one has. -/
theorem pending_startThreads (h : fs.Fits) (himage : fs.image = none) (hnum : 1 < num)
    (haverage : fs.averageGroup num ≠ 0) :
    Workers.pending (fs.startThreads flags num) = fs.rangeParts flags (0, fs.lastGroup) := by
  have hpos : fs.groupDescCount ≠ 0 := by
    have := @averageGroup_mul_le fs num
    have := Nat.mul_pos (Nat.pos_of_ne_zero haverage) (by omega : 0 < num)
    omega
  have hparts : ∀ r, fs.rangeParts flags r = (RwFs.groupsOf r).flatMap (RwFs.groupParts flags) :=
    fun r => by
    rw [RwFs.rangeParts, himage]
  rw [Workers.pending, RwFs.startThreads, List.flatMap_map, hparts, RwFs.groupsOf,
    lastGroup_eq h hpos, show fs.groupDescCount - 1 + 1 - 0 = fs.groupDescCount by
      omega, ← List.range_eq_range',
    ← groups_of_threads h hnum haverage, List.flatMap_assoc]
  exact List.flatMap_congr fun i _ => hparts _

theorem mem_rangeParts {p : RwFs.ReadPart} (h : fs.Fits) (himage : fs.image = none)
    (hpos : fs.groupDescCount ≠ 0) (hp : p ∈ fs.rangeParts flags (0, fs.lastGroup)) :
    ∃ sort g, p = .group sort g ∧ flags sort = true ∧ g < fs.groupDescCount := by
  rw [RwFs.rangeParts, himage] at hp
  obtain ⟨g, hg, hp⟩ := List.mem_flatMap.mp hp
  rw [RwFs.groupsOf, lastGroup_eq h hpos, List.mem_range'_1] at hg
  dsimp only at hg
  rw [RwFs.groupParts, List.mem_append] at hp
  rcases hp with hp | hp
  · split_ifs at hp with hflag
    · exact ⟨.block, g, List.mem_singleton.mp hp, hflag, by omega⟩
    · cases hp
  · split_ifs at hp with hflag
    · exact ⟨.inode, g, List.mem_singleton.mp hp, hflag, by omega⟩
    · cases hp

/-! ### The places of the groups -/

theorem groupBits_le (h : fs.Fits) (hfits : ¬fs.TooLarge) (sort : BitmapSort) :
    fs.groupBits sort ≤ 2 ^ 19 := by
  have hsize := h.blocksize_le
  rw [RwFs.TooLarge] at hfits
  have hle : fs.nbytes sort ≤ 65536 := by
    cases sort with
    | block => omega
    | inode => omega
  rw [RwFs.groupBits]
  omega

theorem itr_eq (h : fs.Fits) (hg : g < fs.groupDescCount) (sort : BitmapSort) :
    fs.itr sort g = fs.itr sort 0 + g * fs.groupBits sort := by
  cases sort with
  | block =>
    rw [RwFs.itr, RwFs.itr, Nat.zero_mul]
    rfl
  | inode =>
    have hlt := h.inodes_lt
    have hbits : fs.groupBits .inode ≤ fs.inodesPerGroup := by
      rw [RwFs.groupBits, RwFs.nbytes]
      omega
    have hmul : g * fs.groupBits .inode ≤ fs.groupDescCount * fs.inodesPerGroup :=
      Nat.mul_le_mul hg.le hbits
    rw [RwFs.itr, RwFs.itr, Nat.zero_mul, Nat.mod_eq_of_lt (by norm_num : 1 + 0 < 2 ^ 32),
      Nat.mod_eq_of_lt]
    rcases Nat.eq_zero_or_pos (fs.groupBits .inode) with hzero | hpos
    · rw [hzero]
      norm_num
    · have hlast : (g + 1) * fs.groupBits .inode ≤ fs.groupDescCount * fs.inodesPerGroup :=
        Nat.mul_le_mul hg hbits
      rw [Nat.succ_mul] at hlast
      omega

theorem newShape_eq {bm : BlockBitmap} (h : fs.allocateBitmap sort = some bm) :
    bm.shape = fs.newShape sort ∧ bm.TreeReachable bal ∧ bm.first = fs.itr sort 0 := by
  refine ⟨by rw [RwFs.newShape, h]; rfl, ?_⟩
  cases sort with
  | block =>
    rw [RwFs.allocateBitmap, RwFs.newBitmap] at h
    rw [RwFs.itr, Nat.zero_mul]
    cases hm : fs.mapType with
    | bitarray =>
      rw [hm] at h
      obtain rfl := Option.some.inj h
      exact ⟨trivial, rfl⟩
    | rbtree =>
      rw [hm] at h
      obtain rfl := Option.some.inj h
      exact ⟨.new, rfl⟩
    | legacy =>
      rw [hm] at h
      dsimp only at h
      split_ifs at h
      obtain rfl := Option.some.inj h
      exact ⟨trivial, rfl⟩
  | inode =>
    rw [RwFs.allocateBitmap, RwFs.newBitmap] at h
    rw [RwFs.itr, Nat.zero_mul]
    cases hm : fs.mapType with
    | bitarray =>
      rw [hm] at h
      obtain rfl := Option.some.inj h
      exact ⟨trivial, rfl⟩
    | rbtree =>
      rw [hm] at h
      obtain rfl := Option.some.inj h
      exact ⟨.new, rfl⟩
    | legacy =>
      rw [hm] at h
      dsimp only at h
      split_ifs at h
      obtain rfl := Option.some.inj h
      exact ⟨trivial, rfl⟩

/-- Groups are put one behind the other. -/
theorem place_itr {sh : BitShape} (h : fs.Fits) (hfirst : sh.first = fs.itr sort 0)
    (hg : g < fs.groupDescCount) :
    sh.place (fs.itr sort g) = sh.place (fs.itr sort 0) + g * fs.groupBits sort ∧
      sh.width (fs.groupBits sort) = fs.groupBits sort := by
  have hdvd : fs.groupBits sort = 8 * fs.nbytes sort := Nat.mul_comm _ _
  have hmul : g * fs.groupBits sort = 8 * (g * fs.nbytes sort) := by
    rw [hdvd]
    exact Nat.mul_left_comm g 8 _
  obtain ⟨kind, c, first, last⟩ := sh
  change first = fs.itr sort 0 at hfirst
  rw [itr_eq h hg]
  cases kind with
  | tree =>
    rw [BitShape.width, if_pos rfl]
    refine ⟨?_, rfl⟩
    show fs.itr sort 0 + _ - first = fs.itr sort 0 - first + _
    omega
  | array =>
    rw [BitShape.width, if_neg BitmapKind.noConfusion]
    refine ⟨?_, by omega⟩
    show 8 * ((fs.itr sort 0 + _) / 8) = 8 * (fs.itr sort 0 / 8) + _
    omega
  | old r =>
    rw [BitShape.width, if_neg BitmapKind.noConfusion]
    refine ⟨?_, by omega⟩
    show 8 * ((fs.itr sort 0 + _ - first) / 8) = 8 * ((fs.itr sort 0 - first) / 8) + _
    omega

/-- Different groups are put at different places. -/
theorem place_apart {sh : BitShape} (h : fs.Fits) (hfirst : sh.first = fs.itr sort 0) {g' : ℕ}
    (hg : g < fs.groupDescCount) (hg' : g' < fs.groupDescCount) (hne : g ≠ g') :
    sh.place (fs.itr sort g) + sh.width (fs.groupBits sort) ≤ sh.place (fs.itr sort g') ∨
      sh.place (fs.itr sort g') + sh.width (fs.groupBits sort) ≤ sh.place (fs.itr sort g) := by
  obtain ⟨hplace, hwidth⟩ := place_itr h hfirst hg
  rw [hplace, (place_itr h hfirst hg').1, hwidth]
  rcases Nat.lt_or_gt_of_ne hne with hlt | hlt
  · left
    have := Nat.mul_le_mul_right (fs.groupBits sort) hlt
    rw [Nat.succ_mul] at this
    omega
  · right
    have := Nat.mul_le_mul_right (fs.groupBits sort) hlt
    rw [Nat.succ_mul] at this
    omega

/-! ### What a part does -/

theorem newShape_first (hallocate : fs.allocateBitmap sort ≠ none) :
    (fs.newShape sort).first = fs.itr sort 0 := by
  obtain ⟨bm, hbm⟩ := Option.ne_none_iff_exists'.mp hallocate
  have hshape := @newShape_eq fs (fun t _ => t) sort bm hbm
  rw [← hshape.1, shape_first, hshape.2.2]

/-- **A part is one insertion**, or it fails. -/
theorem readPart_acts (hbal : ∀ t l, (bal t l).inorder = l) (h : fs.Fits) (hfits : ¬fs.TooLarge)
    (hallocate : ∀ sort, flags sort = true → fs.allocateBitmap sort ≠ none) :
    Workers.Acts (fs.readPart descs disk bal) (fs.Reading bal flags st₁) RwState.bits
      (fs.GoodPart descs disk flags)
      (fs.BadPart descs disk flags) (fs.partEffect descs disk) (fs.partNote descs disk) where
  ok {a} own {s} hgood hinv := by
    cases a with
    | image run => cases hgood
    | group sort g =>
      obtain ⟨hflag, hg, hread, hrefuse⟩ := hgood
      obtain ⟨bm, hbm, hreach, hshape⟩ := hinv.there sort hflag
      have hfirst := newShape_first (hallocate sort hflag)
      have hitr := itr_eq h hg sort
      have hbits := groupBits_le h hfits sort
      have hmul : g * fs.groupBits sort ≤ 2 ^ 32 * 2 ^ 19 :=
        Nat.mul_le_mul (hg.trans h.groups_lt).le hbits
      obtain ⟨bm', hset, hreach', hshape', hb⟩ :=
        @setRange_ok bal bm (fs.newShape sort) (fs.groupBits sort)
        (fs.itr sort g) (fs.partBits descs disk sort g).1 hbal hreach hshape (by omega) (by omega)
          (by omega) hrefuse
      refine ⟨{ s with map := Function.update s.map sort (some bm') }, ?_,
        ⟨fun sort' hs => ?_, fun sort' hs => ?_, hinv.tail⟩, ?_⟩
      · rw [RwFs.readPart, hread]
        dsimp only
        rw [RwFs.setBitmapRange, hbm]
        dsimp only
        rw [hset]
        rfl
      -- the bitmap of the other sort is not touched
      · rcases eq_or_ne sort' sort with rfl | hne
        · exact ⟨bm', Function.update_self .., hreach', hshape'⟩
        · dsimp only
          rw [Function.update_of_ne hne]
          exact hinv.there sort' hs
      · dsimp only
        rw [Function.update_of_ne (fun heq => by rw [heq, hflag] at hs; cases hs)]
        exact hinv.others sort' hs
      · funext sort'
        rw [RwState.bits, RwFs.partEffect]
        dsimp only
        rcases eq_or_ne sort' sort with rfl | hne
        · rw [Function.update_self, Function.update_self]
          funext n
          rw [RwState.bits, hbm]
          exact hb n
        · rw [Function.update_of_ne hne, Function.update_of_ne hne]
          rfl
  failing {a} own {s} hbad hinv := by
    cases a with
    | image run => cases hbad
    | group sort g =>
      obtain ⟨hflag, hbad⟩ := hbad
      obtain ⟨bm, hbm, -, hshape⟩ := hinv.there sort hflag
      rw [RwFs.readPart]
      cases hread : fs.groupBitmap descs disk sort g with
      | error e => exact ⟨e, rfl⟩
      | ok r =>
        rcases hbad with ⟨e, he⟩ | hrefuse
        · rw [hread] at he
          cases he
        · rw [← hshape] at hrefuse
          obtain ⟨e, he⟩ := @setRange_refused bal bm (fs.groupBits sort) (fs.itr sort g) r.1 hrefuse
          refine ⟨.range e, ?_⟩
          dsimp only
          rw [RwFs.setBitmapRange, hbm]
          dsimp only
          rw [he]

theorem good_or_bad (hflag : flags sort = true) (hg : g < fs.groupDescCount) :
    fs.GoodPart descs disk flags (.group sort g) ∨ fs.BadPart descs disk flags (.group sort g) := by
  cases hread : fs.groupBitmap descs disk sort g with
  | error e => exact Or.inr ⟨hflag, Or.inl ⟨e, hread⟩⟩
  | ok r =>
    by_cases hrefuse : (fs.newShape sort).Refuses (fs.itr sort g) (fs.groupBits sort)
    · exact Or.inr ⟨hflag, Or.inr hrefuse⟩
    · refine Or.inl ⟨hflag, hg, ?_, hrefuse⟩
      rw [RwFs.partBits, hread]

/-- **Insertions can be done in either order.** -/
theorem partEffect_comm (h : fs.Fits)
    (hallocate : ∀ sort, flags sort = true → fs.allocateBitmap sort ≠ none)
    {a b : RwFs.ReadPart} (ha : fs.GoodPart descs disk flags a)
    (hb : fs.GoodPart descs disk flags b)
    (t : PerSort (ℕ → Bool)) : fs.partEffect descs disk (fs.partEffect descs disk t a) b =
      fs.partEffect descs disk (fs.partEffect descs disk t b) a := by
  cases a with
  | image run => cases ha
  | group sort g =>
    cases b with
    | image run => cases hb
    | group sort' g' =>
      simp only [RwFs.partEffect]
      rcases eq_or_ne sort sort' with rfl | hne
      · rcases eq_or_ne g g' with rfl | hg
        · rfl
        · rw [Function.update_self, Function.update_self, Function.update_idem,
            Function.update_idem]
          exact congrArg _ (imported_comm _
            (place_apart h (newShape_first (hallocate sort ha.1)) ha.2.1 hb.2.1 hg))
      · rw [Function.update_of_ne hne, Function.update_of_ne hne.symm, Function.update_comm hne]

/-- The flags behind some parts. -/
theorem foldl_partNote (tail : PerSort Bool) (parts : List RwFs.ReadPart) :
    parts.foldl (fs.partNote descs disk) tail sort =
      (tail sort || parts.any fun p => fs.partNote descs disk (fun _ => false) p sort) := by
  induction parts generalizing tail with
  | nil => rw [List.foldl_nil, List.any_nil, Bool.or_false]
  | cons p parts ih =>
    rw [List.foldl_cons, ih, List.any_cons, ← Bool.or_assoc]
    congr 1
    cases p with
    | image run => exact (Bool.or_false _).symm
    | group sort' g =>
      rw [RwFs.partNote, RwFs.partNote]
      rcases eq_or_ne sort sort' with rfl | hne
      · rw [Function.update_self, Function.update_self, Bool.false_or]
      · rw [Function.update_of_ne hne, Function.update_of_ne hne, Bool.or_false]

/-! ### The end -/

theorem reserve_adds (hbal : ∀ t l, (bal t l).inorder = l) (sh : BitShape) (group : ℕ) :
    Adds bal sh (fs.reserveSuperAndBgd bal group) (fs.Reserved sh group) :=
  (((mark_adds hbal).ite.comp (mark_adds hbal).ite).comp (markRange_adds hbal).ite).comp
    (mark_adds hbal).ite

/-- **The blocks of the groups without a block bitmap are added.** -/
theorem markUninit_adds (hbal : ∀ t l, (bal t l).inorder = l) (sh : BitShape) :
    Adds bal sh (fs.markUninitBgGroupBlocks descs bal) (fs.UninitBit descs sh) :=
  adds_foldl _ fun group _ =>
    Adds.ite ((((reserve_adds hbal sh group).comp (markRange_adds hbal).ite).comp
    (mark_adds hbal).ite).comp (mark_adds hbal).ite)

/-- What is left behind at the end is the same, if the bits are. -/
theorem rangeEnd_same (hbal : ∀ t l, (bal t l).inorder = l) {tail tail' : PerSort Bool}
    (h : fs.Reading bal flags st₁ st) (h' : fs.Reading bal flags st₁ st')
    (hbits : st.bits = st'.bits) (htail : tail = tail') :
    SameResult (none, fs.readBitmapsRangeEnd descs bal flags tail st)
      (none, fs.readBitmapsRangeEnd descs bal flags tail' st') := by
  subst htail
  refine ⟨Iff.rfl, fun sort => ?_, ?_⟩
  · rw [RwFs.readBitmapsRangeEnd, RwFs.readBitmapsRangeEnd]
    dsimp only
    cases hflag : flags sort with
    | false =>
      rw [if_neg (fun hx => Bool.noConfusion hx.1), if_neg (fun hx => Bool.noConfusion hx.1),
        h.others sort hflag, h'.others sort hflag]
      exact .refl _
    | true =>
      obtain ⟨bm, hbm, hreach, hshape⟩ := h.there sort hflag
      obtain ⟨bm', hbm', hreach', hshape'⟩ := h'.there sort hflag
      have heq : bm.bits = bm'.bits := by
        have := congrFun hbits sort
        rwa [RwState.bits, RwState.bits, hbm, hbm'] at this
      rw [hbm, hbm']
      by_cases hblock : sort = .block
      · rw [if_pos ⟨rfl, hblock⟩, if_pos ⟨rfl, hblock⟩]
        have hS := @markUninit_adds fs bal descs hbal (fs.newShape sort)
        obtain ⟨-, hs, hb⟩ := hS bm hreach hshape
        obtain ⟨-, hs', hb'⟩ := hS bm' hreach' hshape'
        refine .some ⟨hs.trans hs'.symm, ?_⟩
        funext n
        rw [Bool.eq_iff_iff, hb, hb', heq]
      · rw [if_neg (fun hx => hblock hx.2), if_neg (fun hx => hblock hx.2)]
        exact .some ⟨hshape.trans hshape'.symm, heq⟩
  · rw [RwFs.readBitmapsRangeEnd, RwFs.readBitmapsRangeEnd, h.tail, h'.tail]

theorem cleanup_same (hothers : ∀ sort, flags sort = false → st.map sort = st'.map sort)
    (htail : st.tail = st'.tail) (e e' : RwErr) :
    SameResult (some e, RwFs.cleanup flags st) (some e', RwFs.cleanup flags st') := by
  refine ⟨by simp, fun sort => ?_, htail⟩
  rw [RwFs.cleanup, RwFs.cleanup]
  dsimp only
  cases hflag : flags sort with
  | false =>
    rw [if_neg Bool.noConfusion, if_neg Bool.noConfusion, hothers sort hflag]
    exact .refl _
  | true => exact .refl _

/-- What has been prepared. -/
theorem prepare_ok (h : fs.readBitmapsRangePrepare flags st = (none, st₁)) :
    ¬fs.TooLarge ∧ (∀ sort, flags sort = true → fs.allocateBitmap sort ≠ none) ∧
    fs.Reading bal flags st₁ st₁ := by
  rw [RwFs.readBitmapsRangePrepare] at h
  split_ifs at h with hlarge hnone
  · cases (Prod.mk.inj h).1
  · cases (Prod.mk.inj h).1
  · obtain rfl := (Prod.mk.inj h).2
    have hsome : ∀ sort, flags sort = true → fs.allocateBitmap sort ≠ none :=
      fun sort hflag hno => by
      cases sort with
      | block => exact hnone (Or.inl ⟨hflag, hno⟩)
      | inode => exact hnone (Or.inr ⟨hflag, hno⟩)
    refine ⟨hlarge, hsome, fun sort hflag => ?_, fun _ _ => rfl, rfl⟩
    obtain ⟨bm, hbm⟩ := Option.ne_none_iff_exists'.mp (hsome sort hflag)
    have hshape := @newShape_eq fs bal sort bm hbm
    exact ⟨bm, by rw [← hbm]; exact if_pos hflag, hshape.2.1, hshape.1⟩

theorem findSome_error_done {ws : List (Workers.Worker RwFs.ReadPart (PerSort Bool) RwErr)}
    {note : PerSort Bool → RwFs.ReadPart → PerSort Bool} (h : ∀ w ∈ ws, w.error = none) :
    (ws.map (Workers.Worker.done note)).findSome? Workers.Worker.error = none := by
  rw [List.findSome?_eq_none_iff]
  intro w hw
  obtain ⟨w', hw', rfl⟩ := List.mem_map.mp hw
  exact h w' hw'

/-- **Threads that have been joined** leave what one leaves. -/
theorem joinThreads_same (hbal : ∀ t l, (bal t l).inorder = l) (h : fs.Fits)
    (himage : fs.image = none) (hnum : 1 < num) (haverage : fs.averageGroup num ≠ 0)
    (hprepare : fs.readBitmapsRangePrepare flags st = (none, st₁))
    {ws : List (Workers.Worker RwFs.ReadPart (PerSort Bool) RwErr)}
    (hrun : Relation.ReflTransGen (Workers.Step (fs.readPart descs disk bal))
      (fs.startThreads flags num, st₁) (ws, st₂))
    (hfinished : Workers.Finished ws) :
    SameResult (fs.joinThreads descs bal flags ws st₂)
      (fs.readBitmapsRange descs disk bal flags (0, fs.lastGroup) st) := by
  obtain ⟨hfits, hallocate, hreading⟩ := @prepare_ok fs bal flags st st₁ hprepare
  have hacts := @readPart_acts fs bal descs disk flags st₁ hbal h hfits hallocate
  have hpos : fs.groupDescCount ≠ 0 := by
    have := @averageGroup_mul_le fs num
    have := Nat.mul_pos (Nat.pos_of_ne_zero haverage) (by omega : 0 < num)
    omega
  have hpending := @pending_startThreads fs flags num h himage hnum haverage
  have hnone : ∀ w ∈ fs.startThreads flags num, w.error = none := by
    intro w hw
    obtain ⟨i, -, rfl⟩ := List.mem_map.mp hw
    rfl
  have hall : ∀ a ∈ fs.rangeParts flags (0, fs.lastGroup),
      fs.GoodPart descs disk flags a ∨ fs.BadPart descs disk flags a := by
    intro a ha
    obtain ⟨sort, g, rfl, hflag, hg⟩ := mem_rangeParts h himage hpos ha
    exact good_or_bad hflag hg
  rw [RwFs.readBitmapsRange, hprepare]
  by_cases hgood : ∀ a ∈ fs.rangeParts flags (0, fs.lastGroup), fs.GoodPart descs disk flags a
  · -- every insertion succeeds
    obtain ⟨hinv, hview, hws⟩ :=
      hacts.finishes (fun ha hb t => partEffect_comm h hallocate ha hb t) hrun hfinished
      hreading (by rw [hpending]; exact hgood)
    obtain ⟨s', hs', hinv', hview'⟩ := hacts.serial (fun _ => false) hreading hgood
    rw [hpending] at hview
    dsimp only at hview hws ⊢
    rw [hs']
    dsimp only
    subst hws
    rw [RwFs.joinThreads, findSome_error_done hnone]
    refine rangeEnd_same hbal hinv hinv' (hview.trans hview'.symm) ?_
    funext sort
    rw [foldl_partNote, Bool.false_or, ← hpending, Workers.pending, List.any_flatMap, List.any_map]
    rw [RwFs.startThreads, List.any_map, List.any_map]
    refine congrArg (List.any (List.range num)) (funext fun i => ?_)
    show (fs.rangeParts flags (fs.threadRange num i)).foldl (fs.partNote descs disk)
      (fun _ => false) sort = _
    rw [foldl_partNote, Bool.false_or]
    rfl
  · -- a thread fails, and so does the one that does all
    push Not at hgood
    obtain ⟨a, hmem, hnot⟩ := hgood
    have hbad : fs.BadPart descs disk flags a := (hall a hmem).resolve_left hnot
    obtain ⟨e, he⟩ := hacts.serial_fails (fun _ => false) hreading hall ⟨a, hmem, hbad⟩
    have hpend : ∀ a ∈ Workers.pending (fs.startThreads flags num),
        fs.GoodPart descs disk flags a ∨ fs.BadPart descs disk flags a := by rwa [hpending]
    rw [← hpending] at hmem
    obtain ⟨w, hw, haw⟩ := Workers.mem_pending.mp hmem
    obtain ⟨w', hw', herror⟩ :=
      hacts.troubled hrun hfinished hreading hpend ⟨w, hw, Or.inr ⟨a, haw, hbad⟩⟩
    have hinv := hacts.run_inv hrun hreading hpend
    dsimp only at hw' hinv ⊢
    rw [he, RwFs.joinThreads]
    cases hfind : ws.findSome? Workers.Worker.error with
    | none => exact absurd (List.findSome?_eq_none_iff.mp hfind w' hw') herror
    | some e' => exact cleanup_same hinv.others hinv.tail e' e

/-! ### All of it -/

theorem threadCount_eq_zero (hnproc : nproc ≠ 0) :
    fs.threadCount nproc numThreads = 0 ↔ numThreads = 0 ∨ fs.groupDescCount = 0 := by
  rw [RwFs.threadCount]
  split_ifs <;> omega

/-- **Reading with threads is reading serially** unless there are to be no threads, or no groups, or
bitmaps are to be replaced of a file system in which those of a group do not fit into a block. -/
theorem threadedAsSerial_iff (hbal : ∀ t l, (bal t l).inorder = l) (h : fs.Fits)
    (hnproc : nproc ≠ 0) :
    fs.ThreadedAsSerial bal descs disk flags nproc numThreads st ↔
      (fs.ThreadsAllowed numThreads → numThreads ≠ 0 ∧ fs.groupDescCount ≠ 0) ∧
        (fs.UsesThreads nproc numThreads → fs.TooLarge → ∀ sort, flags sort = true →
          st.map sort = none) := by
  constructor
  · intro hsame
    refine ⟨fun hallowed => ?_, fun huses hlarge sort hflag => ?_⟩
    · have hne : fs.threadCount nproc numThreads ≠ 0 := fun hzero => by
        obtain ⟨r, hr, -⟩ := hsame.agrees _ (.divisionByZero hallowed hzero)
        cases hr
      rwa [Ne, threadCount_eq_zero hnproc, not_or] at hne
    · have hprepare : fs.readBitmapsRangePrepare flags st = (some .corruptSuperblock, st) :=
        if_pos hlarge
      obtain ⟨r, hr, hres⟩ := hsame.agrees _ (.notPrepared huses.1 huses.2.1 huses.2.2 hprepare)
      obtain rfl := RwFs.RwOutcome.done.inj hr
      have hmap := hres.map sort
      rw [RwFs.readBitmapsRange, hprepare] at hmap
      have hnone : (RwFs.cleanup flags st).map sort = none := if_pos hflag
      dsimp only at hmap
      rw [hnone] at hmap
      cases hst : st.map sort with
      | none => rfl
      | some bm =>
        rw [hst] at hmap
        cases hmap
  · rintro ⟨hcount, hlarge⟩
    refine ⟨fun huses => groups_of_threads h huses.2.1 huses.2.2, ?_, fun out hout => ?_⟩
    · -- some outcome
      by_cases hallowed : fs.ThreadsAllowed numThreads
      · have hne : fs.threadCount nproc numThreads ≠ 0 := by
          rw [Ne, threadCount_eq_zero hnproc, not_or]
          exact hcount hallowed
        by_cases hfew : fs.threadCount nproc numThreads ≤ 1 ∨
          fs.averageGroup (fs.threadCount nproc numThreads) = 0
        · exact ⟨_, .few hallowed hne hfew⟩
        · have hmany := not_or.mp hfew
          obtain ⟨r, hr⟩ : ∃ r, r = fs.readBitmapsRangePrepare flags st := ⟨_, rfl⟩
          obtain ⟨e, st₁⟩ := r
          cases e with
          | some e => exact ⟨_, .notPrepared hallowed (by omega) hmany.2 hr.symm⟩
          | none =>
            obtain ⟨hfits, hallocate, hreading⟩ := @prepare_ok fs bal flags st st₁ hr.symm
            have hacts := @readPart_acts fs bal descs disk flags st₁ hbal h hfits hallocate
            obtain ⟨c', hrun, hfinished⟩ := hacts.exists_finished
              (c := (fs.startThreads flags (fs.threadCount nproc numThreads), st₁)) hreading (by
                intro a ha
                rw [pending_startThreads h hallowed.2.2 (by omega) hmany.2] at ha
                obtain ⟨sort, g, rfl, hflag, hg⟩ :=
                  mem_rangeParts h hallowed.2.2 (hcount hallowed).2 ha
                exact good_or_bad hflag hg)
            exact ⟨_, .joined hallowed (by omega) hmany.2 hr.symm hrun hfinished⟩
      · exact ⟨_, .fallback hallowed⟩
    · cases hout with
      | fallback hnot => exact ⟨_, rfl, .refl _⟩
      | divisionByZero hallowed hzero =>
        rw [threadCount_eq_zero hnproc] at hzero
        exact absurd hzero (not_or.mpr (hcount hallowed))
      | few hallowed hne hfew => exact ⟨_, rfl, .refl _⟩
      | @notPrepared e st' hallowed hnum haverage hprepare =>
        refine ⟨_, rfl, ?_⟩
        rw [RwFs.readBitmapsRange, hprepare]
        rw [RwFs.readBitmapsRangePrepare] at hprepare
        split_ifs at hprepare with htoo hnone
        · obtain ⟨-, rfl⟩ := Prod.mk.inj hprepare
          refine ⟨Iff.rfl, fun sort => ?_, rfl⟩
          cases hflag : flags sort with
          | false =>
            rw [RwFs.cleanup]
            dsimp only
            rw [if_neg (by rw [hflag]; exact Bool.noConfusion)]
            exact .refl _
          | true =>
            rw [RwFs.cleanup]
            dsimp only
            rw [if_pos hflag, hlarge ⟨hallowed, hnum, haverage⟩ htoo sort hflag]
            exact .refl _
        · obtain ⟨-, rfl⟩ := Prod.mk.inj hprepare
          refine ⟨Iff.rfl, fun sort => ?_, rfl⟩
          rw [RwFs.cleanup, RwFs.cleanup]
          dsimp only
          split_ifs <;> exact .refl _
        · cases (Prod.mk.inj hprepare).1
      | joined hallowed hnum haverage hprepare hrun hfinished =>
        exact ⟨_, rfl, joinThreads_same hbal h hallowed.2.2 hnum haverage hprepare hrun hfinished⟩

/-- A file system of two groups with eight blocks and eight inodes each. -/
def threadFs : RwFs where
  blocksize := 1024
  groupDescCount := 2
  descBlocks := 1
  superOnly := false
  masterSbOnly := false
  wtime := 0
  firstDataBlock := 0
  blocksPerGroup := 8
  metaBg := false
  firstMetaBg := 0
  descSize := 32
  sparseSuper := true
  sparseSuper2 := false
  backupBgs := (0, 0)
  rw := true
  blocksCount := 16
  inodesCount := 16
  clustersPerGroup := 8
  inodesPerGroup := 8
  clusterRatioBits := 0
  inodeBlocksPerGroup := 1
  reservedGdtBlocks := 0
  logGroupsPerFlex := 0
  flexBg := false
  gdtCsum := false
  metadataCsum := false
  ignoreCsumErrors := false
  csumSeed := 0
  descCrc _ _ := 0
  mapType := .rbtree
  image := none
  threads := true

/-- Its descriptors: the bitmaps and the inode table of a group follow one another. -/
def threadDescs (group : ℕ) : RwDesc where
  bitmapLoc sort := if sort = .block then 2 + 8 * group else 3 + 8 * group
  inodeTableLoc := 4 + 8 * group
  uninit _ := false
  bitmapCsum _ := (0, 0)
  checksum := 0

theorem threadFs_fits : threadFs.Fits := ⟨by decide, by decide, by decide⟩

theorem not_threadedAsSerial_zero : ¬threadFs.ThreadedAsSerial (fun _ l => .ofList l) threadDescs
    (fun _ => some fun _ => 0xff) (fun _ => true) 4 0 ⟨fun _ => none, fun _ => false⟩ := fun h => by
  obtain ⟨r, hr, -⟩ := h.agrees _ (.divisionByZero ⟨rfl, by decide, rfl⟩ (by decide))
  cases hr

theorem threadedAsSerial_two : threadFs.ThreadedAsSerial (fun _ l => .ofList l) threadDescs
    (fun _ => some fun _ => 0xff) (fun _ => true) 4 2 ⟨fun _ => none, fun _ => false⟩ :=
  (threadedAsSerial_iff (fun _ l => SearchTree.inorder_ofList l) threadFs_fits (by decide)).mpr
    ⟨fun _ => ⟨by decide, by decide⟩, fun _ _ _ _ => rfl⟩

end Threads

end E2fsprogs
