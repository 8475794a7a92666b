import E2fsprogs.Inode.Scan

/-!
# What a scan finds out about the blocks of a window

The loop of `check_inode_block_sanity` counts the inodes of a block that are insane, and those with
a wrong checksum. At the end each block has the verdict that its own inodes give it, whatever the
blocks around it are like; of the last block only some inodes may be scanned.
-/

namespace E2fsprogs

/-- The verdict on a block of `m` inodes of which `n` were scanned, from the inodes that are insane
and from those with a wrong checksum. -/
def blockVerdict (m n : ℕ) (insane badCsum : ℕ → Bool) : BlockStatus where
  csumsOk :=
    decide (m ≤ n) && (decide (Nat.count (insane ·) m ≤ m / 2) && decide
      (Nat.count (badCsum ·) m = 0))
  insane := decide (m / 2 < Nat.count (insane ·) (min m n))

section SanityLoop

variable (fs : ScanFs) (buffer : Block) (first total : ℕ)

/-- The checksum of inode `x` of the window is wrong; `first` is the number of the first one. -/
def ScanFs.badAt (x : ℕ) : Bool :=
  !fs.csumVerify (first + x) (fs.inodeBytes fun k => buffer (x * fs.inodeSize + k))

/-- Inode `x` of the window is insane. -/
def ScanFs.insaneAt (x : ℕ) : Bool :=
  fs.badAt buffer first x ||
    (extentHeadLooksInsane (fun k => buffer (x * fs.inodeSize + k)) ||
      blockMapLooksInsane fs fun k => buffer (x * fs.inodeSize + k))

/-- The verdict on block `j` of a window of which `total` inodes are scanned. -/
def ScanFs.verdictAt (j : ℕ) : BlockStatus :=
  blockVerdict fs.inodesPerBlock (total - j * fs.inodesPerBlock)
    (fun e => fs.insaneAt buffer first (j * fs.inodesPerBlock + e))
    fun e => fs.badAt buffer first (j * fs.inodesPerBlock + e)

/-- The array has the verdicts on the blocks of the window. -/
def ScanFs.Judged (places : ℕ) (blockStatus : ℕ → BlockStatus) : Prop :=
  ∀ j < places, blockStatus j = fs.verdictAt buffer first total j

/-- The loop in front of inode `x`. -/
structure SanityAt (places x : ℕ) (s : SanityCheck) : Prop where
  le : x ≤ total
  offset : s.offset = x * fs.inodeSize
  ino : s.ino = first + x
  left : s.inodesToScan = total - x
  badness : s.badness = Nat.count
    (fun e => fs.insaneAt buffer first (x / fs.inodesPerBlock * fs.inodesPerBlock + e))
      (x % fs.inodesPerBlock)
  failures : s.checksumFailures = Nat.count
    (fun e => fs.badAt buffer first (x / fs.inodesPerBlock * fs.inodesPerBlock + e))
      (x % fs.inodesPerBlock)
  few : s.badness ≤ fs.inodesPerBlock / 2
  status : ∀ j < places, s.blockStatus j =
    if j < x / fs.inodesPerBlock then fs.verdictAt buffer first total j else ⟨false, false⟩

variable {fs buffer first total} {places x : ℕ} {s : SanityCheck}

/-- Nothing is found out about a block that is not scanned. -/
theorem blockVerdict_zero {m : ℕ} (hm : 0 < m) (insane badCsum : ℕ → Bool) :
    blockVerdict m 0 insane badCsum = ⟨false, false⟩ := by
  rw [blockVerdict, decide_eq_false (Nat.not_le_of_lt hm), Bool.false_and, Nat.min_zero,
    Nat.count_zero, decide_eq_false (Nat.not_lt_zero _)]

/-- Of a block that is scanned in part, it is only found out that it is insane. -/
theorem blockVerdict_part {m n : ℕ} (hn : n < m) {insane badCsum : ℕ → Bool}
    (hfew : Nat.count (insane ·) n ≤ m / 2) :
    blockVerdict m n insane badCsum = ⟨false, false⟩ := by
  rw [blockVerdict, decide_eq_false (Nat.not_le_of_lt hn), Bool.false_and, min_eq_right hn.le,
    decide_eq_false (Nat.not_lt.mpr hfew)]

theorem blockVerdict_insane {m n : ℕ} {insane badCsum : ℕ → Bool} {k : ℕ} (hk : k ≤ min m n)
    (hmany : m / 2 < Nat.count (insane ·) k) : blockVerdict m n insane badCsum = ⟨false, true⟩ := by
  have hmin := hmany.trans_le (Nat.count_monotone (insane ·) hk)
  have hall := hmany.trans_le (Nat.count_monotone (insane ·) (hk.trans (min_le_left _ _)))
  rw [blockVerdict, decide_eq_true hmin, decide_eq_false (Nat.not_le_of_lt hall), Bool.false_and,
    Bool.and_false]

theorem blockVerdict_whole {m n : ℕ} (hn : m ≤ n) {insane badCsum : ℕ → Bool}
    (hfew : Nat.count (insane ·) m ≤ m / 2) :
    blockVerdict m n insane badCsum = ⟨decide (Nat.count (badCsum ·) m = 0), false⟩ := by
  rw [blockVerdict, decide_eq_true hn, decide_eq_true hfew, Bool.true_and, Bool.true_and,
    min_eq_left hn, decide_eq_false (Nat.not_lt.mpr hfew)]

theorem count_succ_ite (p : ℕ → Bool) (n : ℕ) :
    Nat.count (p ·) (n + 1) = if p n then Nat.count (p ·) n + 1 else Nat.count (p ·) n := by
  rw [Nat.count_succ]
  split_ifs
  all_goals rfl

/-- What a turn of the loop does, with the counts of the inodes of the block so far. -/
theorem SanityAt.sanityTurn_eq (h : SanityAt fs buffer first total places x s) {b e : ℕ}
    (hb : x / fs.inodesPerBlock = b) (he : x % fs.inodesPerBlock = e) :
    sanityTurn fs buffer s =
      if fs.inodesPerBlock / 2 <
        Nat.count (fun d => fs.insaneAt buffer first (b * fs.inodesPerBlock + d)) (e + 1) then
        let inoAdj := min (fs.inodesPerBlock - (s.ino - 1) % fs.inodesPerBlock) s.inodesToScan
        { offset := s.offset + fs.inodeSize * inoAdj
          ino := s.ino + inoAdj
          inodesToScan := s.inodesToScan - inoAdj
          badness := 0
          checksumFailures := 0
          blockStatus := Function.update s.blockStatus (s.offset / fs.blocksize)
            { s.blockStatus (s.offset / fs.blocksize) with insane := true } }
      else
        let blockEnds := decide (s.ino % fs.inodesPerBlock = 0)
        { offset := s.offset + fs.inodeSize
          ino := s.ino + 1
          inodesToScan := s.inodesToScan - 1
          badness := if blockEnds then 0 else
            Nat.count (fun d => fs.insaneAt buffer first (b * fs.inodesPerBlock + d)) (e + 1)
          checksumFailures := if blockEnds then 0 else
            Nat.count (fun d => fs.badAt buffer first (b * fs.inodesPerBlock + d)) (e + 1)
          blockStatus :=
            if blockEnds &&
                decide (Nat.count (fun d => fs.badAt buffer first (b * fs.inodesPerBlock + d))
                  (e + 1) = 0) then
              Function.update s.blockStatus (s.offset / fs.blocksize)
                { s.blockStatus (s.offset / fs.blocksize) with csumsOk := true }
            else s.blockStatus } := by
  have hx : b * fs.inodesPerBlock + e = x := by
    rw [← hb, ← he, Nat.mul_comm]
    exact Nat.div_add_mod x _
  have hins := h.badness
  have hbad := h.failures
  rw [hb, he] at hins hbad
  -- `badness` and `checksum_failures` so far, and one more where this inode is bad
  rw [count_succ_ite (fun d => fs.insaneAt buffer first (b * fs.inodesPerBlock + d)),
    count_succ_ite (fun d => fs.badAt buffer first (b * fs.inodesPerBlock + d)), hx, ← hins, ← hbad]
  have hverify : (!fs.csumVerify s.ino (fs.inodeBytes fun k => buffer (s.offset + k))) =
      fs.badAt buffer first x := by
    rw [h.ino, h.offset]
    rfl
  have hinsane :
    (fs.badAt buffer first x || (extentHeadLooksInsane (fun k => buffer (s.offset + k)) ||
      blockMapLooksInsane fs fun k => buffer (s.offset + k))) = fs.insaneAt buffer first x := by
    rw [h.offset]
    rfl
  rw [sanityTurn]
  dsimp only
  rw [hverify, hinsane]

/-- The loop in front of the first inode. -/
theorem sanityAt_zero (h : ∀ j < places, s.blockStatus j = ⟨false, false⟩) (ho : s.offset = 0)
    (hi : s.ino = first)
    (hl : s.inodesToScan = total) (hb : s.badness = 0) (hc : s.checksumFailures = 0) :
    SanityAt fs buffer first total places 0 s where
  le := Nat.zero_le _
  offset := ho.trans (Nat.zero_mul _).symm
  ino := hi
  left := hl
  badness := by rw [hb, Nat.zero_mod, Nat.count_zero]
  failures := by rw [hc, Nat.zero_mod, Nat.count_zero]
  few := hb ▸ Nat.zero_le _
  status := by
    intro j hj
    rw [h j hj, Nat.zero_div, if_neg (Nat.not_lt_zero j)]

/-- One more block has its verdict. -/
theorem SanityAt.extend (h : SanityAt fs buffer first total places x s) {b : ℕ}
    (hb : x / fs.inodesPerBlock = b)
    {f : ℕ → BlockStatus} (hother : ∀ j, j ≠ b → f j = s.blockStatus j)
    (hat : f b = fs.verdictAt buffer first total b) :
    ∀ j < places, f j = if j < b + 1 then fs.verdictAt buffer first total j
      else ⟨false, false⟩ := by
  intro j hj
  by_cases hjb : j = b
  · rw [hjb, if_pos (Nat.lt_succ_self b), hat]
  · have hiff : j < b + 1 ↔ j < b := by omega
    rw [hother j hjb, h.status j hj, hb]
    simp only [hiff]

/-- A block behind the inodes that are scanned has no verdict. -/
theorem verdictAt_behind (hm : 0 < fs.inodesPerBlock) {j : ℕ} (h : total ≤ j * fs.inodesPerBlock) :
    fs.verdictAt buffer first total j = ⟨false, false⟩ := by
  rw [ScanFs.verdictAt, Nat.sub_eq_zero_of_le h]
  exact blockVerdict_zero hm _ _

/-- The loop ends when no inodes are left. -/
theorem sanityLoop_of_zero (n : ℕ) (h : s.inodesToScan = 0) : sanityLoop fs buffer n s = s := by
  cases n with
  | zero => rfl
  | succ n => rw [sanityLoop, if_pos h]

section Turn

variable (hsize : 0 < fs.inodeSize) (hm : 0 < fs.inodesPerBlock)
    (hbs : fs.blocksize = fs.inodesPerBlock * fs.inodeSize)
  {q : ℕ} (hfirst : first = q * fs.inodesPerBlock + 1) (htotal : total ≤ places * fs.inodesPerBlock)

include hsize hm hbs hfirst htotal

/-- **A turn of the loop** looks at the next inode, and when the block is declared bad at all that
are left of it. -/
theorem SanityAt.turn (h : SanityAt fs buffer first total places x s) (hx : x < total) :
    (∃ x', x < x' ∧ SanityAt fs buffer first total places x' (sanityTurn fs buffer s)) ∨
      (sanityTurn fs buffer s).inodesToScan = 0 ∧
        fs.Judged buffer first total places (sanityTurn fs buffer s).blockStatus := by
  obtain ⟨m, hmeq⟩ : ∃ m, m = fs.inodesPerBlock := ⟨_, rfl⟩
  obtain ⟨b, hb⟩ : ∃ b, x / fs.inodesPerBlock = b := ⟨_, rfl⟩
  obtain ⟨e, he⟩ : ∃ e, x % fs.inodesPerBlock = e := ⟨_, rfl⟩
  have hbe : b * m + e = x := by
    rw [← hb, ← he, hmeq, Nat.mul_comm]
    exact Nat.div_add_mod x _
  have hem : e < m := by
    rw [← he, hmeq]
    exact Nat.mod_lt _ hm
  have hsucc : (b + 1) * m = b * m + m := Nat.succ_mul b m
  have hblk : s.offset / fs.blocksize = b := by
    rw [h.offset, hbs, Nat.mul_div_mul_right _ _ hsize, hb]
  have hplace : b < places := by
    rw [← hmeq] at htotal
    exact Nat.lt_of_mul_lt_mul_right (a := m) (by omega)
  have hclear : s.blockStatus b = ⟨false, false⟩ := by
    rw [h.status b hplace, if_neg (by omega)]
  have hinoEq : s.ino = (q + b) * m + (e + 1) := by
    rw [h.ino, hfirst, ← hmeq, Nat.add_mul]
    omega
  rw [h.sanityTurn_eq hb he, hblk, hclear, ← hmeq]
  have hverdict : fs.verdictAt buffer first total b = blockVerdict m (total - b * m)
      (fun d => fs.insaneAt buffer first (b * m + d)) fun d =>
        fs.badAt buffer first (b * m + d) := by
    rw [ScanFs.verdictAt, hmeq]
  -- the fields at the start of the next block
  have hnext : ∀ s' : SanityCheck, (b + 1) * m ≤ total → s'.offset = (b + 1) * m * fs.inodeSize →
      s'.ino = first + (b + 1) * m → s'.inodesToScan = total - (b + 1) * m → s'.badness = 0 →
      s'.checksumFailures = 0 → (∀ j, j ≠ b → s'.blockStatus j = s.blockStatus j) →
      s'.blockStatus b = fs.verdictAt buffer first total b →
        SanityAt fs buffer first total places ((b + 1) * m) s' := by
    intro s' hle hoff hino hleft hbadness hfail hother hat
    have hdiv : (b + 1) * m / fs.inodesPerBlock = b + 1 := by
      rw [← hmeq, Nat.mul_div_cancel _ (hmeq ▸ hm)]
    have hmod : (b + 1) * m % fs.inodesPerBlock = 0 := by rw [← hmeq, Nat.mul_mod_left]
    refine ⟨hle, hoff, hino, hleft, ?_, ?_, ?_, ?_⟩
    · rw [hmod, Nat.count_zero, hbadness]
    · rw [hmod, Nat.count_zero, hfail]
    · rw [hbadness]
      exact Nat.zero_le _
    · rw [hdiv]
      exact h.extend hb hother hat
  by_cases hmany : m / 2 < Nat.count (fun d => fs.insaneAt buffer first (b * m + d)) (e + 1)
  · have hbad : fs.verdictAt buffer first total b = ⟨false, true⟩ := by
      rw [hverdict]
      exact blockVerdict_insane (by omega) hmany
    have hrest : (s.ino - 1) % m = e := by
      rw [hinoEq, ← Nat.add_assoc, Nat.add_sub_cancel, Nat.mul_comm, Nat.mul_add_mod,
        Nat.mod_eq_of_lt hem]
    have hother : ∀ j, j ≠ b → Function.update s.blockStatus b ⟨false, true⟩ j = s.blockStatus j :=
      fun j hj =>
      Function.update_of_ne hj _ _
    have hat : Function.update s.blockStatus b ⟨false, true⟩ b =
        fs.verdictAt buffer first total b := by
      rw [Function.update_self, hbad]
    rw [if_pos hmany, hrest, h.left]
    dsimp only
    rcases Nat.lt_or_ge total ((b + 1) * m) with hlt | hle
    · rw [min_eq_right (by omega)]
      refine Or.inr ⟨Nat.sub_self _, fun j hj => ?_⟩
      have hj' := h.extend hb hother hat j hj
      rw [hj']
      split_ifs with hjb
      · rfl
      · refine (verdictAt_behind hm ?_).symm
        rw [← hmeq]
        exact hlt.le.trans (Nat.mul_le_mul_right m (Nat.le_of_not_lt hjb))
    · rw [min_eq_left (by omega)]
      refine Or.inl ⟨(b + 1) * m, by omega, hnext _ hle ?_ ?_ ?_ rfl rfl hother hat⟩
      · dsimp only
        rw [h.offset, Nat.mul_comm fs.inodeSize, ← Nat.add_mul]
        congr 1
        omega
      · dsimp only
        rw [h.ino]
        omega
      · dsimp only
        omega
  · have hfew := Nat.le_of_not_lt hmany
    rw [if_neg hmany]
    dsimp only
    by_cases hend : e + 1 = m
    · -- the last inode of a block
      have hends : s.ino % m = 0 := by
        rw [hinoEq, hend, Nat.mul_comm, Nat.mul_add_mod, Nat.mod_self]
      rw [decide_eq_true hends, if_pos rfl, if_pos rfl, Bool.true_and, hend]
      rw [hend] at hfew
      have hwhole : fs.verdictAt buffer first total b =
          ⟨decide (Nat.count (fun d => fs.badAt buffer first (b * m + d)) m = 0), false⟩ := by
        rw [hverdict]
        exact blockVerdict_whole (by omega) hfew
      refine Or.inl ⟨(b + 1) * m, by omega, hnext _ (by omega) ?_ ?_ ?_ rfl rfl (fun j hj => ?_) ?_⟩
      · dsimp only
        rw [h.offset, ← Nat.succ_mul]
        congr 1
        omega
      · dsimp only
        rw [h.ino]
        omega
      · dsimp only
        rw [h.left]
        omega
      · dsimp only
        split_ifs
        · exact Function.update_of_ne hj _ _
        · rfl
      · dsimp only
        rw [hwhole]
        split_ifs with hnone
        · rw [Function.update_self, hnone]
        · rw [hclear, Bool.eq_false_iff.mpr hnone]
    · have hnot : s.ino % m ≠ 0 := by
        rw [hinoEq, Nat.mul_comm, Nat.mul_add_mod, Nat.mod_eq_of_lt (by omega)]
        exact Nat.succ_ne_zero e
      rw [decide_eq_false hnot, if_neg Bool.false_ne_true, if_neg Bool.false_ne_true,
        Bool.false_and, if_neg Bool.false_ne_true]
      have hdiv : (x + 1) / fs.inodesPerBlock = b := by
        rw [← hmeq, ← hbe, Nat.add_assoc, Nat.mul_comm, Nat.mul_add_div (by omega),
          Nat.div_eq_of_lt (by omega), Nat.add_zero]
      have hmod : (x + 1) % fs.inodesPerBlock = e + 1 := by
        rw [← hmeq, ← hbe, Nat.add_assoc, Nat.mul_comm, Nat.mul_add_mod,
          Nat.mod_eq_of_lt (by omega)]
      refine Or.inl ⟨x + 1, Nat.lt_succ_self x, hx, ?_, ?_, ?_, ?_, ?_, hmeq ▸ hfew, ?_⟩
      · dsimp only
        rw [h.offset, Nat.succ_mul]
      · dsimp only
        rw [h.ino, Nat.add_assoc]
      · dsimp only
        rw [h.left, Nat.sub_sub]
      · rw [hdiv, hmod, ← hmeq]
      · rw [hdiv, hmod, ← hmeq]
      · rw [hdiv, ← hb]
        exact h.status

omit hsize hbs hfirst htotal in
/-- Behind the last inode every block has its verdict; only the block that was begun has to be
looked at. -/
theorem SanityAt.judged (h : SanityAt fs buffer first total places x s) (hx : x = total) :
    fs.Judged buffer first total places s.blockStatus := by
  intro j hj
  rw [h.status j hj]
  split_ifs with hlt
  · rfl
  have hmod := Nat.mod_lt x hm
  have hsum := Nat.div_add_mod x fs.inodesPerBlock
  rw [Nat.mul_comm] at hsum
  rcases Nat.lt_or_ge (x / fs.inodesPerBlock) j with hgt | hge
  · refine (verdictAt_behind hm ?_).symm
    have := Nat.mul_le_mul_right fs.inodesPerBlock hgt
    rw [Nat.succ_mul] at this
    omega
  · obtain rfl : j = x / fs.inodesPerBlock := by omega
    have hrest : total - x / fs.inodesPerBlock * fs.inodesPerBlock = x % fs.inodesPerBlock := by
      omega
    have hfew := h.few
    rw [h.badness] at hfew
    rw [ScanFs.verdictAt, hrest]
    exact (blockVerdict_part hmod hfew).symm

/-- **The loop gives every block its verdict.** -/
theorem SanityAt.sanityLoop (h : SanityAt fs buffer first total places x s) {n : ℕ}
    (hn : total - x ≤ n) :
    fs.Judged buffer first total places (E2fsprogs.sanityLoop fs buffer n s).blockStatus := by
  have hle := h.le
  induction n generalizing x s with
  | zero => exact h.judged hm (by omega)
  | succ n ih =>
    have hleft := h.left
    rw [E2fsprogs.sanityLoop]
    split_ifs with hzero
    · exact h.judged hm (by omega)
    · rcases h.turn hsize hm hbs hfirst htotal (by omega) with ⟨x', hlt, h'⟩ | ⟨hzero', hjudged⟩
      · exact ih h' (by omega) h'.le
      · rw [sanityLoop_of_zero n hzero']
        exact hjudged

end Turn

/-- **The verdicts on a window** whose first inode is the first one of a block. -/
theorem checkInodeBlockSanity_judged {scan : InodeScan} {numBlocks q : ℕ}
    (hwarn : scan.warnGarbageInodes = true)
    (hsize : 0 < fs.inodeSize) (htwo : 2 ≤ fs.inodesPerBlock)
    (hbs : fs.blocksize = fs.inodesPerBlock * fs.inodeSize)
    (hq : scan.currentInode = q * fs.inodesPerBlock)
    (hsmall : numBlocks * fs.inodesPerBlock < 2 ^ 32) (hnum : numBlocks ≤ scan.inodeBufferBlocks) :
    fs.Judged buffer (scan.currentInode + 1) (min scan.inodesLeft (numBlocks * fs.inodesPerBlock))
      scan.inodeBufferBlocks (checkInodeBlockSanity fs scan buffer numBlocks) := by
  have hcount : numBlocks * fs.blocksize / fs.inodeSize % 2 ^ 32 =
      numBlocks * fs.inodesPerBlock := by
    rw [hbs, ← Nat.mul_assoc, Nat.mul_div_cancel _ hsize, Nat.mod_eq_of_lt hsmall]
  rw [checkInodeBlockSanity, hwarn, Bool.not_true, if_neg Bool.false_ne_true]
  dsimp only
  rw [if_neg (Nat.not_lt.mpr htwo), hcount]
  refine SanityAt.sanityLoop hsize (lt_of_lt_of_le Nat.zero_lt_two htwo) hbs
    (congrArg (· + 1) hq) ?_
    (sanityAt_zero (fun j hj => if_pos hj) rfl rfl rfl rfl rfl) (Nat.sub_le _ _)
  exact (min_le_right _ _).trans (Nat.mul_le_mul_right _ hnum)

end SanityLoop

end E2fsprogs
