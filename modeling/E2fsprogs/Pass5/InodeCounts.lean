import E2fsprogs.Pass5.InodeBitmaps

/-!
# What pass 5 makes of the inode bitmap

The counting loop of `E2fsprogs.inodeCountLoop` counts the inodes in use, except that a group it
passes over is counted as free whatever it holds (`E2fsprogs.InodeMapGeometry.shown`). As long as no
difference was found, the tallies are those of the inodes behind (`E2fsprogs.Tally`); afterwards
they do not matter, since all is counted again. With bitmaps of the new format every group with the
flag is passed over. So the pass is right just when these groups are not in use
(`E2fsprogs.exactInodes_iff`).
-/

namespace E2fsprogs

variable {g : InodeMapGeometry} {env : InodeMapEnv} {map : ℕ → Bool} {changed redo : Bool}
    {st₀ st : InodeCount}
  {gr k i start count : ℕ}

/-! ### Groups of inodes -/

namespace InodeMapGeometry

/-- The groups that the loop passes over. -/
def Passed (g : InodeMapGeometry) (env : InodeMapEnv) (uninit : ℕ → Bool) (gr : ℕ) : Prop :=
  g.csumFlag = true ∧ uninit gr = true ∧ g.inodesPerGroup ≠ 1 ∧
    (env.oldBitmaps = true → g.Unused env.used gr)

instance (used : ℕ → Bool) : Decidable (g.Unused used gr) := inferInstanceAs (Decidable (∀ _, _))

instance (uninit : ℕ → Bool) : Decidable (g.Passed env uninit gr) :=
  inferInstanceAs (Decidable (_ ∧ _ ∧ _ ∧ _))

/-- The inodes in use as the loop sees them. -/
def shown (g : InodeMapGeometry) (env : InodeMapEnv) (uninit : ℕ → Bool) (ino : ℕ) : Bool :=
  env.used ino && !decide (g.Passed env uninit ((ino - 1) / g.inodesPerGroup))

theorem shown_eq {uninit : ℕ → Bool} (hk : k < g.inodesPerGroup) :
    g.shown env uninit (g.firstInode gr + k) =
      (env.used (g.firstInode gr + k) && !decide (g.Passed env uninit gr)) := by
  have hgroup : (g.firstInode gr + k - 1) / g.inodesPerGroup = gr := by
    rw [firstInode, show gr * g.inodesPerGroup + 1 + k - 1 =
      k + g.inodesPerGroup * gr by
        rw [Nat.mul_comm gr]; omega, Nat.add_mul_div_left _ _ g.inodesPerGroup_pos,
          Nat.div_eq_of_lt hk, Nat.zero_add]
  rw [shown, hgroup]

theorem shown_of_passed {uninit : ℕ → Bool} (h : g.Passed env uninit gr)
    (hk : k < g.inodesPerGroup) :
    g.shown env uninit (g.firstInode gr + k) = false := by
  rw [shown_eq hk, decide_eq_true h, Bool.not_true, Bool.and_false]

theorem shown_of_not_passed {uninit : ℕ → Bool} (h : ¬g.Passed env uninit gr)
    (hk : k < g.inodesPerGroup) :
    g.shown env uninit (g.firstInode gr + k) = env.used (g.firstInode gr + k) := by
  rw [shown_eq hk, decide_eq_false h, Bool.not_false, Bool.and_true]

/-- A group of the file system ends before the last inode. -/
theorem succ_mul_le (h : gr < g.groupDescCount) :
    gr * g.inodesPerGroup + g.inodesPerGroup ≤ g.inodesCount := by
  rw [inodesCount, ← Nat.succ_mul]
  exact Nat.mul_le_mul_right _ h

/-- An inode that is not the last of its group is not the last of all. -/
theorem firstInode_add_eq_iff (h : gr < g.groupDescCount) (hk : k < g.inodesPerGroup) :
    g.firstInode gr + k = g.inodesCount ↔ k + 1 = g.inodesPerGroup ∧ gr + 1 = g.groupDescCount := by
  have h1 := g.succ_mul_le h
  rw [firstInode]
  constructor
  · intro heq
    have hk' : k + 1 = g.inodesPerGroup := by omega
    refine ⟨hk', Nat.eq_of_mul_eq_mul_right g.inodesPerGroup_pos ?_⟩
    rw [Nat.add_mul, Nat.one_mul, ← inodesCount]
    omega
  · rintro ⟨hk', hgr⟩
    rw [inodesCount, ← hgr, Nat.add_mul, Nat.one_mul]
    omega

end InodeMapGeometry

theorem setBits_add (m : ℕ → Bool) (c n n' : ℕ) :
    setBits m c (n + n') = setBits m c n + setBits m (c + n) n' :=
  clearBits_add _ c n n'

theorem setBits_one (m : ℕ → Bool) (c : ℕ) : setBits m c 1 = if m c = true then 1 else 0 := by
  rw [setBits, clearBits_one]
  simp only [Bool.not_eq_false']

theorem clearBits_of_clear {m : ℕ → Bool} {c n : ℕ} (h : ∀ k < n, m (c + k) = false) :
    clearBits m c n = n := by
  rw [clearBits, Nat.count_iff_forall]
  exact h

theorem setBits_of_clear {m : ℕ → Bool} {c n : ℕ} (h : ∀ k < n, m (c + k) = false) :
    setBits m c n = 0 := by
  rw [setBits, clearBits, Nat.count_iff_forall_not]
  intro k hk
  simp [h k hk]

theorem setBits_congr {m m' : ℕ → Bool} {c n : ℕ} (h : ∀ d, c ≤ d → d < c + n → m d = m' d) :
    setBits m c n = setBits m' c n :=
  clearBits_congr fun d hd hd' => by rw [h d hd hd']

/-! ### Discards -/

/-- The blocks of a run of inodes: rounded up at its beginning and down at its end. -/
theorem onlyUnused_of_run {used : ℕ → Bool} (hgr : gr < g.groupDescCount) (hstart : 1 ≤ start)
    (hend : start + count ≤ g.inodesPerGroup + 1)
    (hrun : ∀ k, start ≤ k + 1 → k + 1 < start + count → used (g.firstInode gr + k) = false)
    {blk num : ℕ} (hblk : blk = (start - 1 + g.inodesPerBlock - 1) / g.inodesPerBlock)
    (hnum : num = (((count : ℤ) - ((blk : ℤ) * g.inodesPerBlock - (start - 1 : ℕ))).tdiv
      g.inodesPerBlock % 2 ^ 64).toNat) :
    g.OnlyUnused used (gr, g.inodeTableLoc gr + blk, num) := by
  have hpos := g.inodesPerBlock_pos
  have hlow : start - 1 ≤ blk * g.inodesPerBlock := by
    have h := Nat.lt_div_mul_add hpos (a := start - 1 + g.inodesPerBlock - 1)
    rw [← hblk] at h
    omega
  have hlow' : blk * g.inodesPerBlock ≤ start - 1 + g.inodesPerBlock - 1 := by
    rw [hblk]
    exact Nat.div_mul_le_self _ _
  have hhigh : num * g.inodesPerBlock = 0 ∨
      blk * g.inodesPerBlock + num * g.inodesPerBlock ≤ start - 1 + count := by
    by_cases hneg : start - 1 + count < blk * g.inodesPerBlock
    -- The signed number of inodes is negative, and more than minus a block: the quotient is zero.
    · left
      obtain ⟨m, hm⟩ : ∃ m : ℕ,
        (count : ℤ) - ((blk : ℤ) * g.inodesPerBlock - (start - 1 : ℕ)) = -(m : ℤ) ∧
          m < g.inodesPerBlock := by
        refine ⟨blk * g.inodesPerBlock - (start - 1 + count), ?_, by omega⟩
        push_cast [Nat.cast_sub hneg.le]
        ring
      have hz : num = 0 := by
        rw [hnum, hm.1, Int.neg_tdiv, ← Int.ofNat_tdiv, Nat.div_eq_of_lt hm.2]
        rfl
      rw [hz, Nat.zero_mul]
    · right
      obtain ⟨m, hm⟩ : ∃ m : ℕ,
        (count : ℤ) - ((blk : ℤ) * g.inodesPerBlock - (start - 1 : ℕ)) = (m : ℤ) ∧
          m + blk * g.inodesPerBlock = start - 1 + count := by
        refine ⟨start - 1 + count - blk * g.inodesPerBlock, ?_, by omega⟩
        push_cast [Nat.cast_sub (Nat.not_lt.mp hneg)]
        ring
      have hz : num ≤ m / g.inodesPerBlock := by
        rw [hnum, hm.1, ← Int.ofNat_tdiv]
        have hcast : ((m / g.inodesPerBlock : ℕ) : ℤ) % 2 ^ 64 =
            ((m / g.inodesPerBlock % 2 ^ 64 : ℕ) : ℤ) := by
          norm_cast
        rw [hcast, Int.toNat_natCast]
        exact Nat.mod_le _ _
      have :=
        (Nat.mul_le_mul_right g.inodesPerBlock hz).trans (Nat.div_mul_le_self m g.inodesPerBlock)
      omega
  refine ⟨hgr, fun b hb hb' => ?_⟩
  dsimp only at hb hb' ⊢
  obtain ⟨j, rfl⟩ := Nat.exists_eq_add_of_le hb
  have hj : j + 1 ≤ num := by omega
  have hsub : g.inodeTableLoc gr + blk + j - g.inodeTableLoc gr = blk + j := by omega
  have hmul := Nat.mul_le_mul_right g.inodesPerBlock hj
  rw [Nat.add_mul, Nat.one_mul] at hmul
  have hup : (blk + j + 1) * g.inodesPerBlock ≤ start - 1 + count := by
    rw [Nat.add_mul, Nat.add_mul, Nat.one_mul]
    omega
  rw [hsub]
  refine ⟨by omega, hup.trans (by omega), fun k hk => ?_⟩
  have h1 := Nat.div_mul_le_self k g.inodesPerBlock
  have h2 := Nat.lt_div_mul_add hpos (a := k)
  rw [hk] at h1 h2
  rw [Nat.add_mul] at h1 h2 hup
  rw [Nat.add_mul, Nat.one_mul] at hup
  exact hrun k (by omega) (by omega)

/-- A state with another option and other discards. -/
def InodeCount.setDiscard (st : InodeCount) (d : Bool) (l : List (ℕ × ℕ × ℕ)) : InodeCount :=
  { st with discard := d, discarded := l }

/-- **What a call of `e2fsck_discard_inodes` can do** for a run of unused inodes. -/
theorem discardInodes_cases {used : ℕ → Bool} (hgr : st.group < g.groupDescCount)
    (h : st.discard = true → 1 ≤ start ∧ start + count ≤ g.inodesPerGroup + 1 ∧
    ∀ k, start ≤ k + 1 → k + 1 < start + count → used (g.firstInode st.group + k) = false) :
    ∃ d l, st.discardInodes g env changed start count = st.setDiscard d l ∧
    (d = true → st.discard = true) ∧
      ∀ x ∈ l, x ∈ st.discarded ∨ st.discard = true ∧ g.OnlyUnused used x := by
  have hoff : ∃ d l, st.setDiscard false st.discarded = st.setDiscard d l ∧
    (d = true → st.discard = true) ∧
      ∀ x ∈ l, x ∈ st.discarded ∨ st.discard = true ∧ g.OnlyUnused used x :=
    ⟨false, st.discarded, rfl, nofun, fun x hx => Or.inl hx⟩
  have hsame : ∃ d l, st = st.setDiscard d l ∧ (d = true → st.discard = true) ∧
      ∀ x ∈ l, x ∈ st.discarded ∨ st.discard = true ∧ g.OnlyUnused used x :=
    ⟨st.discard, st.discarded, rfl, id, fun x hx => Or.inl hx⟩
  rw [InodeCount.discardInodes]
  by_cases hrange : start < 1 ∨ g.inodesPerGroup < start
  · rw [if_pos hrange]
    exact hoff
  · rw [if_neg hrange]
    cases hd : st.discard with
    | false => rwa [hd] at hsame
    | true =>
      obtain ⟨h1, h2, h3⟩ := h hd
      rw [hd] at hsame
      dsimp only
      split
      · exact hsame
      · split
        · rw [InodeCount.discardBlocks]
          split
          · refine ⟨_, _, rfl, fun _ => rfl, fun x hx => ?_⟩
            rcases List.mem_append.mp hx with hold | hnew
            · exact Or.inl hold
            · rw [List.mem_singleton] at hnew
              rw [hnew]
              exact Or.inr ⟨rfl, onlyUnused_of_run hgr h1 h2 h3 rfl rfl⟩
          · rw [hd] at hoff
            exact hoff
        · exact hsame

/-! ### Tallies -/

/-- **The tallies of the inodes behind**: those of the group that is counted, and those of the
groups before. -/
structure Tally (g : InodeMapGeometry) (env : InodeMapEnv) (uninit : ℕ → Bool) (st : InodeCount) :
    Prop where
  total : st.freeInodes = clearBits (g.shown env uninit) 1 (st.group * g.inodesPerGroup + st.inodes)
  free :
    ∀ gr < st.group, st.freeArray gr = clearBits (g.shown env uninit)
      (g.firstInode gr) g.inodesPerGroup
  dirs : ∀ gr < st.group, st.dirArray gr =
    setBits (fun ino => g.shown env uninit ino && env.dir ino) (g.firstInode gr) g.inodesPerGroup
  groupFree : st.groupFree = clearBits (g.shown env uninit) (g.firstInode st.group) st.inodes
  dirsCount : st.dirsCount =
    setBits (fun ino => g.shown env uninit ino && env.dir ino) (g.firstInode st.group) st.inodes
  firstFree : st.firstFree = g.inodesPerGroup + 1 ∨ 1 ≤ st.firstFree ∧ st.firstFree ≤ st.inodes ∧
    ∀ k, st.firstFree ≤ k + 1 → k < st.inodes →
    g.shown env uninit (g.firstInode st.group + k) = false

/-- An inode is counted, and nothing is discarded. -/
def InodeCount.tick (g : InodeMapGeometry) (env : InodeMapEnv) (st : InodeCount) (i : ℕ)
    (bitmap : Bool) : InodeCount :=
  { st with
    inodes := st.inodes + 1
    dirsCount := if bitmap && env.dir i then st.dirsCount + 1 else st.dirsCount
    groupFree := if bitmap then st.groupFree else st.groupFree + 1
    freeInodes := if bitmap then st.freeInodes else st.freeInodes + 1
    firstFree :=
      if bitmap then (if st.firstFree < st.inodes + 1 then g.inodesPerGroup + 1 else st.firstFree)
      else if st.inodes + 1 < st.firstFree then st.inodes + 1 else st.firstFree }

/-- The end of a group, and nothing is discarded. -/
def InodeCount.turn (g : InodeMapGeometry) (st : InodeCount) (i : ℕ) (zeroed : ℕ → Bool) :
    InodeCount :=
  { st with
    inodeZeroed := zeroed
    firstFree := g.inodesPerGroup + 1
    freeArray := Function.update st.freeArray st.group st.groupFree
    dirArray := Function.update st.dirArray st.group st.dirsCount
    group := st.group + 1
    inodes := 0
    skipGroup := g.csumFlag && decide (i ≠ g.inodesCount) && st.inodeUninit (st.group + 1)
    groupFree := 0
    dirsCount := 0 }

/-- What may have been discarded. -/
def Discards (g : InodeMapGeometry) (used : ℕ → Bool) (st : InodeCount) (d : Bool)
    (l : List (ℕ × ℕ × ℕ)) : Prop :=
  (d = true → st.discard = true) ∧ ∀ x ∈ l, x ∈ st.discarded ∨ st.discard = true ∧
    g.OnlyUnused used x

section Tally

variable {uninit : ℕ → Bool} {bitmap : Bool}

theorem count_cases (hgr : st.group < g.groupDescCount)
    (h : st.discard = true → Tally g env uninit st) (hk : st.inodes < g.inodesPerGroup) :
    ∃ d l, st.count g env changed i bitmap = (st.tick g env i bitmap).setDiscard d l ∧
      Discards g (g.shown env uninit) st d l := by
  have hsame : Discards g (g.shown env uninit) st st.discard st.discarded :=
    ⟨id, fun x hx => Or.inl hx⟩
  cases bitmap with
  | false => exact ⟨st.discard, st.discarded, rfl, hsame⟩
  | true =>
    obtain ⟨st₁, hst₁⟩ : ∃ st₁ : InodeCount, st₁ = { st with
        inodes := st.inodes + 1
        dirsCount := if env.dir i then st.dirsCount + 1 else st.dirsCount } := ⟨_, rfl⟩
    rw [InodeCount.count]
    simp only [if_true, ← hst₁]
    by_cases hlt : st.firstFree < st.inodes + 1
    · obtain ⟨d, l, heq, hd⟩ :=
        @discardInodes_cases g env changed st₁ st.firstFree (st.inodes + 1 - st.firstFree)
        (g.shown env uninit) (by rw [hst₁]; exact hgr) (by
          rw [hst₁]
          intro hdis
          rcases (h hdis).firstFree with hfree | ⟨h1, h2, h3⟩
          · omega
          · exact ⟨h1, by omega, fun k hk1 hk2 => h3 k hk1 (by omega)⟩)
      rw [hst₁] at heq hd
      refine ⟨d, l, ?_, hd⟩
      rw [hst₁, if_pos hlt, heq, InodeCount.tick, if_pos rfl, if_pos hlt]
      rfl
    · refine ⟨st.discard, st.discarded, ?_, hsame⟩
      rw [hst₁, if_neg hlt, InodeCount.tick, if_pos rfl, if_neg hlt]
      rfl

theorem nextGroup_cases (hgr : st.group < g.groupDescCount)
    (h : st.discard = true → Tally g env uninit st) (hk : st.inodes = g.inodesPerGroup) :
    ∃ d l z, st.nextGroup g env changed i bitmap = (st.turn g i z).setDiscard d l ∧
      Discards g (g.shown env uninit) st d l := by
  rw [InodeCount.nextGroup]
  by_cases hif : (!bitmap) = true ∧ st.firstFree ≤ st.inodes
  · obtain ⟨d, l, heq, hd⟩ :=
      @discardInodes_cases g env changed st st.firstFree (st.inodes - st.firstFree + 1)
      (g.shown env uninit) hgr (by
        intro hdis
        rcases (h hdis).firstFree with hfree | ⟨h1, h2, h3⟩
        · omega
        · exact ⟨h1, by omega, fun k hk1 hk2 => h3 k hk1 (by omega)⟩)
    rw [if_pos hif, heq]
    exact ⟨d, l, _, rfl, hd⟩
  · rw [if_neg hif]
    exact ⟨st.discard, st.discarded, _, rfl, id, fun x hx => Or.inl hx⟩

theorem Tally.setDiscard (h : Tally g env uninit st) (d : Bool) (l : List (ℕ × ℕ × ℕ)) :
    Tally g env uninit (st.setDiscard d l) :=
  ⟨h.total, h.free, h.dirs, h.groupFree, h.dirsCount, h.firstFree⟩

/-- **An inode is counted** as the loop sees it. -/
theorem Tally.tick (h : Tally g env uninit st) (hk : st.inodes < g.inodesPerGroup)
    (hi : i = g.firstInode st.group + st.inodes) (hbit : bitmap = g.shown env uninit i) :
    Tally g env uninit (st.tick g env i bitmap) := by
  have hi' : 1 + (st.group * g.inodesPerGroup + st.inodes) = i := by
    rw [hi, InodeMapGeometry.firstInode]
    omega
  have hclear : ∀ c n, c + n = i → clearBits (g.shown env uninit) c (n + 1) =
      if bitmap then clearBits (g.shown env uninit) c n
      else clearBits (g.shown env uninit) c n + 1 := by
    intro c n hcn
    rw [clearBits_add, clearBits_one, hcn, hbit]
    cases g.shown env uninit i <;> rfl
  have hset : setBits (fun ino => g.shown env uninit ino && env.dir ino) (g.firstInode st.group)
    (st.inodes + 1) =
      if bitmap && env.dir i then
        setBits (fun ino => g.shown env uninit ino && env.dir ino)
          (g.firstInode st.group) st.inodes + 1
      else setBits (fun ino => g.shown env uninit ino && env.dir ino)
        (g.firstInode st.group) st.inodes := by
    rw [setBits_add, setBits_one, ← hi, hbit]
    split <;> rfl
  refine ⟨?_, h.free, h.dirs, ?_, ?_, ?_⟩
  · show (if bitmap then st.freeInodes else st.freeInodes + 1) = _
    rw [InodeCount.tick, ← Nat.add_assoc, hclear 1 _ hi', h.total]
  · show (if bitmap then st.groupFree else st.groupFree + 1) = _
    rw [InodeCount.tick, hclear _ _ hi.symm, h.groupFree]
  · show (if bitmap && env.dir i then st.dirsCount + 1 else st.dirsCount) = _
    rw [InodeCount.tick, hset, h.dirsCount]
  -- an inode in use resets the first free one if the group has none behind it
  · cases bitmap with
    | true =>
      show (if st.firstFree < st.inodes + 1 then g.inodesPerGroup + 1 else st.firstFree) = _ ∨ _
      left
      split
      · rfl
      · rcases h.firstFree with hfree | ⟨-, hle, -⟩
        · exact hfree
        · omega
    | false =>
      have hlast : g.shown env uninit (g.firstInode st.group + st.inodes) = false := hi ▸ hbit.symm
      right
      show 1 ≤ (if st.inodes + 1 < st.firstFree then st.inodes + 1 else st.firstFree) ∧
        (if st.inodes + 1 < st.firstFree then st.inodes + 1 else st.firstFree) ≤ st.inodes + 1 ∧
        ∀ k, (if st.inodes + 1 < st.firstFree then st.inodes + 1 else st.firstFree) ≤ k + 1 →
          k < st.inodes + 1 →
          g.shown env uninit (g.firstInode st.group + k) = false
      rcases h.firstFree with hfree | ⟨h1, h2, h3⟩
      · have hmin : (if st.inodes + 1 < st.firstFree then st.inodes + 1 else st.firstFree) =
            st.inodes + 1 := by
          rw [hfree]
          split <;> omega
        rw [hmin]
        refine ⟨by omega, le_rfl, fun k hk1 hk2 => ?_⟩
        rw [show k = st.inodes by omega]
        exact hlast
      · rw [if_neg (by omega)]
        refine ⟨h1, by omega, fun k hk1 hk2 => ?_⟩
        rcases Nat.lt_succ_iff_lt_or_eq.mp hk2 with hk2 | rfl
        · exact h3 k hk1 hk2
        · exact hlast

/-- **A group is done.** -/
theorem Tally.turn (h : Tally g env uninit st) (hk : st.inodes = g.inodesPerGroup) (z : ℕ → Bool) :
    Tally g env uninit (st.turn g i z) := by
  refine ⟨?_, fun gr hgr => ?_, fun gr hgr => ?_, rfl, rfl, Or.inl rfl⟩
  · show st.freeInodes = clearBits _ 1 ((st.group + 1) * g.inodesPerGroup + 0)
    rw [h.total, hk, Nat.add_mul, Nat.one_mul, Nat.add_zero]
  · show Function.update st.freeArray st.group st.groupFree gr = _
    rcases Nat.lt_succ_iff_lt_or_eq.mp hgr with hlt | rfl
    · rw [Function.update_of_ne (by omega)]
      exact h.free gr hlt
    · rw [Function.update_self, h.groupFree, hk]
  · show Function.update st.dirArray st.group st.dirsCount gr = _
    rcases Nat.lt_succ_iff_lt_or_eq.mp hgr with hlt | rfl
    · rw [Function.update_of_ne (by omega)]
      exact h.dirs gr hlt
    · rw [Function.update_self, h.dirsCount, hk]

end Tally

/-! ### The invariant of the loop -/

/-- **No difference was found** so far: the tallies are right, and so is the bitmap of the groups
behind. -/
structure NoProblem (g : InodeMapGeometry) (env : InodeMapEnv) (map : ℕ → Bool) (redo : Bool)
    (st₀ st : InodeCount) :
    Prop where
  tally : Tally g env st₀.inodeUninit st
  flags : st.inodeUninit = st₀.inodeUninit
  equal : redo = false → ∀ gr < st.group, g.Passed env st₀.inodeUninit gr ∨
    (g.csumFlag = true ∧ st₀.inodeUninit gr = true ∧ g.Unused env.used gr) ∨
    ∀ k < g.inodesPerGroup, map (g.firstInode gr + k) = env.used (g.firstInode gr + k)
  here : redo = false → g.Passed env st₀.inodeUninit st.group ∨
    (g.csumFlag = true ∧ st₀.inodeUninit st.group = true ∧ st.skipGroup = true ∧
      ∀ k < st.inodes, env.used (g.firstInode st.group + k) = false) ∨
    st.skipGroup = false ∧ ∀ k < st.inodes,
    map (g.firstInode st.group + k) = env.used (g.firstInode st.group + k)

/-- **The loop has come to an inode.** In `st₀` it began. -/
structure CountingInodes (g : InodeMapGeometry) (env : InodeMapEnv) (map : ℕ → Bool) (redo : Bool)
    (st₀ st : InodeCount) : Prop where
  inodes_le : st.inodes ≤ g.inodesPerGroup
  pos_le : st.group * g.inodesPerGroup + st.inodes ≤ g.inodesCount
  start : st.inodes = 0 → st.group < g.groupDescCount →
    st.skipGroup = (g.csumFlag && st₀.inodeUninit st.group)
  fresh : st.inodes = 0 → st.firstFree = g.inodesPerGroup + 1 ∧
    (st.group = g.groupDescCount → st.skipGroup = false)
  passed : 0 < st.inodes → st.inodes < g.inodesPerGroup → ¬g.Passed env st₀.inodeUninit st.group
  sub : ∀ gr, st.inodeUninit gr = true → st₀.inodeUninit gr = true
  later : ∀ gr, st.group < gr ∨ st.group = gr ∧ st.inodes = 0 →
    st.inodeUninit gr = st₀.inodeUninit gr
  keep : ∀ gr, g.Passed env st₀.inodeUninit gr → st.inodeUninit gr = true
  clear : g.csumFlag = true → ∀ gr < st.group, st.inodeUninit gr = true →
    g.Passed env st₀.inodeUninit gr ∨ g.Unused env.used gr
  here : g.csumFlag = true → st.inodeUninit st.group = true → 0 < st.inodes →
    g.Passed env st₀.inodeUninit st.group ∨ g.Unused env.used st.group ∨
      st.skipGroup = true ∧ ∀ k < st.inodes, env.used (g.firstInode st.group + k) = false
  problems : st.hadProblem ≤ st.group * g.inodesPerGroup + st.inodes
  redone : redo = true → st.hadProblem = 0
  good : st.hadProblem = 0 → NoProblem g env map redo st₀ st
  option : st.discard = true → st₀.discard = true ∧ st.hadProblem = 0
  discards : ∀ x ∈ st.discarded, x ∈ st₀.discarded ∨
    st₀.discard = true ∧ g.OnlyUnused (g.shown env st₀.inodeUninit) x

/-- What a difference changes. -/
theorem noteInode_fields (st : InodeCount) (i : ℕ) (actual : Bool) :
    (st.note env i actual).group = st.group ∧ (st.note env i actual).inodes = st.inodes ∧
      (st.note env i actual).hadProblem = (st.hadProblem + 1) % 2 ^ 32 ∧
      (st.note env i actual).discard = false ∧
      (st.note env i actual).discarded = st.discarded ∧
      (st.note env i actual).skipGroup =
        (st.skipGroup && !(actual && st.skipGroup && env.answer .inodeUninit)) ∧
      (st.note env i actual).inodeUninit =
        (if actual && st.skipGroup && env.answer .inodeUninit then
        Function.update st.inodeUninit st.group false else st.inodeUninit) := by
  rw [InodeCount.note]
  generalize (if actual then InodeMapProblem.inodeUsed else .inodeUnused) = problem
  dsimp only
  rcases st.run with _ | ⟨save, ino, ino2⟩
  · exact ⟨rfl, rfl, rfl, rfl, rfl, rfl, rfl⟩
  · by_cases hc : problem = save ∧ ino2 + 1 = i
    · simp only [if_pos hc, and_self]
    · simp only [if_neg hc, and_self]

section Round

variable (hans : ∀ q, env.answer q = true)
  (hredo : redo = true → g.csumFlag = true → ∀ gr < g.groupDescCount, st₀.inodeUninit gr = true →
    g.Passed env st₀.inodeUninit gr ∨ g.Unused env.used gr)

/-- A group that is passed over is passed over from its first inode on. -/
theorem jump_iff (h : CountingInodes g env map redo st₀ st) (hgr : st.group < g.groupDescCount)
    (hk : st.inodes < g.inodesPerGroup) :
    (st.skipGroup = true ∧ (g.firstInode st.group + st.inodes) % g.inodesPerGroup = 1 ∧
      testInodeBitmapRange g env (g.firstInode st.group + st.inodes) g.inodesPerGroup = true) ↔
    st.inodes = 0 ∧ g.Passed env st₀.inodeUninit st.group := by
  have hpos := g.inodesPerGroup_pos
  have hmod : (g.firstInode st.group + st.inodes) % g.inodesPerGroup =
      (st.inodes + 1) % g.inodesPerGroup := by
    rw [InodeMapGeometry.firstInode, show st.group * g.inodesPerGroup + 1 + st.inodes =
      st.inodes + 1 + st.group * g.inodesPerGroup by omega, Nat.add_mul_mod_self_right]
  have hone : (st.inodes + 1) % g.inodesPerGroup = 1 ↔ st.inodes = 0 ∧ g.inodesPerGroup ≠ 1 := by
    rcases Nat.lt_or_ge (st.inodes + 1) g.inodesPerGroup with hlt | hge
    · rw [Nat.mod_eq_of_lt hlt]
      omega
    · rw [show st.inodes + 1 = g.inodesPerGroup by omega, Nat.mod_self]
      omega
  have hrange : testInodeBitmapRange g env (g.firstInode st.group) g.inodesPerGroup = true ↔
      (env.oldBitmaps = true → g.Unused env.used st.group) := by
    rw [testInodeBitmapRange]
    split
    case isTrue hold =>
      have hle := g.succ_mul_le hgr
      have hend : g.firstInode st.group + g.inodesPerGroup - 1 ≤ g.inodesCount := by
        rw [InodeMapGeometry.firstInode]
        omega
      rw [decide_eq_true hend, Bool.true_and, List.all_eq_true]
      simp only [hold, forall_const, List.mem_range, Bool.not_eq_true']
      exact Iff.rfl
    case isFalse hold => exact iff_of_true rfl fun h => absurd h hold
  rw [hmod, hone]
  constructor
  · rintro ⟨hskip, ⟨h0, h1⟩, htest⟩
    rw [h.start h0 hgr, Bool.and_eq_true] at hskip
    rw [h0, Nat.add_zero, hrange] at htest
    exact ⟨h0, hskip.1, hskip.2, h1, htest⟩
  · rintro ⟨h0, hp⟩
    rw [h.start h0 hgr, Bool.and_eq_true, h0, Nat.add_zero, hrange]
    exact ⟨⟨hp.1, hp.2.1⟩, ⟨rfl, hp.2.2.1⟩, hp.2.2.2⟩

include hans hredo in
/-- **An inode is compared and counted.** -/
theorem CountingInodes.inode (h : CountingInodes g env map redo st₀ st)
    (hgr : st.group < g.groupDescCount)
    (hk : st.inodes < g.inodesPerGroup) (hnot : ¬g.Passed env st₀.inodeUninit st.group)
    (hi : i = g.firstInode st.group + st.inodes) {bitmap : Bool}
    (hbit : bitmap = if redo then env.used i else if !st.skipGroup then map i else false)
    {st₁ : InodeCount}
    (hst₁ : st₁ = if env.used i = bitmap then st else st.note env i (env.used i)) :
    CountingInodes g env map redo st₀ (st₁.count g env changed i bitmap) ∧
      (st₁.count g env changed i bitmap).group = st.group ∧
      (st₁.count g env changed i bitmap).inodes = st.inodes + 1 := by
  have hpos := g.succ_mul_le hgr
  have hcount : g.inodesCount < 2 ^ 32 := g.inodesCount_lt
  have hshown : g.shown env st₀.inodeUninit i = env.used i := by
    rw [hi]
    exact InodeMapGeometry.shown_of_not_passed hnot hk
  -- The flag of the group was there at its beginning, and the group is not passed over: it was not
  -- skipped only if a used inode has cleared the flag.
  have hskip : g.csumFlag = true → st.inodeUninit st.group = true →
      g.Unused env.used st.group ∨ st.skipGroup = true ∧ ∀ k < st.inodes,
      env.used (g.firstInode st.group + k) = false := by
    intro hcsum hun
    rcases Nat.eq_zero_or_pos st.inodes with h0 | h0
    · refine Or.inr ⟨?_, fun k hk => absurd hk (by omega)⟩
      rw [h.start h0 hgr, hcsum, ← h.later _ (Or.inr ⟨rfl, h0⟩), hun, Bool.and_true]
    · exact (h.here hcsum hun h0).resolve_left hnot
  by_cases heq : env.used i = bitmap
  · rw [if_pos heq] at hst₁
    subst hst₁
    have htally : st₁.discard = true → Tally g env st₀.inodeUninit st₁ :=
      fun hd => (h.good (h.option hd).2).tally
    obtain ⟨d, l, hcnt, hd⟩ := @count_cases g env changed st₁ i st₀.inodeUninit bitmap hgr htally hk
    rw [hcnt]
    refine ⟨⟨hk, by show st₁.group * g.inodesPerGroup + (st₁.inodes + 1) ≤ _; omega, nofun, nofun,
      fun _ _ => hnot, h.sub, fun gr hor => ?_, h.keep, h.clear, fun hcsum hun _ => ?_, by
        show _ ≤ st₁.group * g.inodesPerGroup + (st₁.inodes + 1); exact h.problems.trans (by omega),
          h.redone,
      fun h0 => ?_, fun hd' => h.option (hd.1 hd'), fun x hx => ?_⟩, rfl, rfl⟩
    · rcases hor with hlt | ⟨-, h0⟩
      · exact h.later gr (Or.inl hlt)
      · cases h0
    · rcases hskip hcsum hun with hun' | ⟨hs, hz⟩
      · exact Or.inr (Or.inl hun')
      · cases hr : redo with
        | true => exact (hredo hr hcsum _ hgr (h.sub _ hun)).imp_right Or.inl
        | false =>
          refine Or.inr (Or.inr ⟨hs, fun k hk' => ?_⟩)
          rcases Nat.lt_succ_iff_lt_or_eq.mp hk' with hlt | rfl
          · exact hz k hlt
          · show env.used (g.firstInode st₁.group + st₁.inodes) = false
            rw [← hi, heq, hbit, hr, hs]
            rfl
    · have hgood := h.good h0
      refine ⟨(hgood.tally.tick hk hi (by rw [hshown, heq])).setDiscard d l, hgood.flags,
        hgood.equal, fun hr => Or.inr ?_⟩
      rcases (hgood.here hr).resolve_left hnot with ⟨hc, hf, hs, hz⟩ | ⟨hs, hz⟩
      · refine Or.inl ⟨hc, hf, hs, fun k hk' => ?_⟩
        rcases Nat.lt_succ_iff_lt_or_eq.mp hk' with hlt | rfl
        · exact hz k hlt
        · show env.used (g.firstInode st₁.group + st₁.inodes) = false
          rw [← hi, heq, hbit, hr, hs]
          rfl
      · refine Or.inr ⟨hs, fun k hk' => ?_⟩
        rcases Nat.lt_succ_iff_lt_or_eq.mp hk' with hlt | rfl
        · exact hz k hlt
        · show map (g.firstInode st₁.group + st₁.inodes) =
            env.used (g.firstInode st₁.group + st₁.inodes)
          rw [← hi, heq, hbit, hr, hs]
          rfl
    · rcases hd.2 x hx with hold | ⟨hd', hnew⟩
      · exact h.discards x hold
      · exact Or.inr ⟨(h.option hd').1, hnew⟩
  · rw [if_neg heq] at hst₁
    have hr : redo = false := by
      cases hr : redo with
      | true => exact absurd (by rw [hbit, hr, if_pos rfl]) heq
      | false => rfl
    obtain ⟨h1, h2, h3, h4, h5, h6, h7⟩ := @noteInode_fields env st i (env.used i)
    rw [← hst₁] at h1 h2 h3 h4 h5 h6 h7
    have hfix : (env.used i && st.skipGroup && env.answer .inodeUninit) =
        (env.used i && st.skipGroup) := by
      rw [hans, Bool.and_true]
    rw [hfix] at h6 h7
    have hflag : ∀ gr, gr ≠ st.group → st₁.inodeUninit gr = st.inodeUninit gr := fun gr hne => by
      rw [h7]
      split
      · exact Function.update_of_ne hne _ _
      · rfl
    have hsub : ∀ gr, st₁.inodeUninit gr = true → st.inodeUninit gr = true := fun gr hun => by
      by_cases hne : gr = st.group
      · rw [h7] at hun
        split at hun
        · rw [hne, Function.update_self] at hun
          cases hun
        · exact hun
      · rwa [hflag gr hne] at hun
    obtain ⟨d, l, hcnt, hd⟩ := @count_cases g env changed st₁ i st₀.inodeUninit bitmap
      (h1.symm ▸ hgr) (fun hd => absurd (h4.symm.trans hd) Bool.false_ne_true) (h2 ▸ hk)
    have hproblems : st₁.hadProblem = st.hadProblem + 1 := by
      have := h.problems
      rw [h3]
      exact Nat.mod_eq_of_lt (by omega)
    rw [hcnt]
    refine ⟨⟨by show st₁.inodes + 1 ≤ _; omega,
      by
        show st₁.group * g.inodesPerGroup + (st₁.inodes + 1) ≤ _; rw [h1, h2]; omega, nofun, nofun,
          fun _ _ => by
          show ¬g.Passed env _ st₁.group; rwa [h1], fun gr hun => h.sub gr (hsub gr hun),
      fun gr hor => ?_, fun gr hp => ?_, fun hcsum gr hlt hun => ?_, fun hcsum hun _ => ?_, ?_,
      fun hr' => absurd (hr.symm.trans hr') Bool.false_ne_true, fun h0 => ?_, fun hd' => ?_,
        fun x hx => ?_⟩,
      h1, congrArg (· + 1) h2⟩
    · rcases hor with hlt | ⟨-, h0⟩
      · replace hlt : st₁.group < gr := hlt
        show st₁.inodeUninit gr = _
        rw [hflag gr (by omega)]
        exact h.later gr (Or.inl (by omega))
      · cases h0
    · show st₁.inodeUninit gr = true
      rw [hflag gr fun he => hnot (he ▸ hp)]
      exact h.keep gr hp
    · replace hlt : gr < st₁.group := hlt
      exact h.clear hcsum gr (by omega) (hsub gr hun)
    · replace hun : st₁.inodeUninit st₁.group = true := hun
      show g.Passed env _ st₁.group ∨ g.Unused env.used st₁.group ∨ _
      rw [h1] at hun ⊢
      rcases hskip hcsum (hsub _ hun) with hun' | ⟨hs, -⟩
      · exact Or.inr (Or.inl hun')
      -- The bitmap counts as clear here, so it is the used inode that differs; it clears the flag.
      · have hbit' : bitmap = false := by rw [hbit, hr, hs]; rfl
        have hused : env.used i = true := by
          cases hu : env.used i with
          | true => rfl
          | false => exact absurd (hu.trans hbit'.symm) heq
        rw [h7, hused, hs, Bool.true_and, if_pos rfl, Function.update_self] at hun
        cases hun
    · show st₁.hadProblem ≤ st₁.group * g.inodesPerGroup + (st₁.inodes + 1)
      have := h.problems
      rw [hproblems, h1, h2]
      omega
    · replace h0 : st₁.hadProblem = 0 := h0
      omega
    · exact absurd ((h4.symm.trans (hd.1 hd'))) Bool.false_ne_true
    · rcases hd.2 x hx with hold | ⟨hd', -⟩
      · rw [h5] at hold
        exact h.discards x hold
      · exact absurd (h4.symm.trans hd') Bool.false_ne_true

/-- **A group is passed over**: it counts as free. -/
theorem CountingInodes.jump (h : CountingInodes g env map redo st₀ st)
    (hgr : st.group < g.groupDescCount)
    (h0 : st.inodes = 0) (hp : g.Passed env st₀.inodeUninit st.group)
    (hi : i = g.firstInode st.group + (g.inodesPerGroup - 1)) {st₁ : InodeCount}
    (hst₁ : st₁ = { st with
      firstFree := 1
      inodes := g.inodesPerGroup - 1
      groupFree := g.inodesPerGroup - 1
      freeInodes := st.freeInodes + (g.inodesPerGroup - 1)
      skipGroup := false }) :
    CountingInodes g env map redo st₀ (st₁.count g env changed i false) ∧
      (st₁.count g env changed i false).group = st.group ∧
      (st₁.count g env changed i false).inodes = g.inodesPerGroup := by
  have hpos := g.inodesPerGroup_pos
  have hle := g.succ_mul_le hgr
  -- all inodes of the group but the last are clear and counted in one go
  have hclear : ∀ k < g.inodesPerGroup - 1,
      g.shown env st₀.inodeUninit (g.firstInode st.group + k) = false :=
    fun k hk => InodeMapGeometry.shown_of_passed hp (by omega)
  have htally : st.hadProblem = 0 → Tally g env st₀.inodeUninit st₁ := fun hz => by
    have hold := (h.good hz).tally
    rw [hst₁]
    refine ⟨?_, hold.free, hold.dirs, (clearBits_of_clear hclear).symm, ?_,
      Or.inr ⟨le_rfl, ?_, fun k _ hk => hclear k hk⟩⟩
    · show st.freeInodes + (g.inodesPerGroup - 1) =
        clearBits _ 1 (st.group * g.inodesPerGroup + (g.inodesPerGroup - 1))
      rw [clearBits_add, Nat.add_comm 1, ← InodeMapGeometry.firstInode, clearBits_of_clear hclear,
        hold.total, h0, Nat.add_zero]
    · show st.dirsCount = setBits _ (g.firstInode st.group) (g.inodesPerGroup - 1)
      rw [hold.dirsCount, h0]
      refine (setBits_of_clear fun k hk => ?_).symm
      rw [hclear k hk, Bool.false_and]
    · show 1 ≤ g.inodesPerGroup - 1
      have := hp.2.2.1
      omega
  have hdis : st₁.discard = st.discard ∧ st₁.discarded = st.discarded ∧ st₁.group = st.group := by
    rw [hst₁]
    exact ⟨rfl, rfl, rfl⟩
  have hin : st₁.inodes = g.inodesPerGroup - 1 := by rw [hst₁]
  obtain ⟨d, l, hcnt, hd⟩ := @count_cases g env changed st₁ i st₀.inodeUninit false
    (hdis.2.2.symm ▸ hgr) (fun hd => htally (h.option (hdis.1 ▸ hd)).2)
      (by omega : st₁.inodes < g.inodesPerGroup)
  have hlast : false = g.shown env st₀.inodeUninit i := by
    rw [hi, InodeMapGeometry.shown_of_passed hp (by omega)]
  have hin' : st₁.inodes + 1 = g.inodesPerGroup := by omega
  rw [hcnt]
  refine ⟨⟨?_, ?_, nofun, nofun, fun _ hlt => ?_, ?_, fun gr hor => ?_, ?_, ?_,
    fun _ _ _ => Or.inl ?_, ?_, ?_, fun hz => ?_, fun hd' => ?_, fun x hx => ?_⟩, hdis.2.2, hin'⟩
  · exact hin'.le
  · show st₁.group * g.inodesPerGroup + (st₁.inodes + 1) ≤ _
    rw [hin', hdis.2.2]
    exact hle
  · replace hlt : st₁.inodes + 1 < g.inodesPerGroup := hlt
    omega
  · rw [hst₁]
    exact h.sub
  · rcases hor with hlt | ⟨-, hz⟩
    · rw [hst₁] at hlt ⊢
      exact h.later gr (Or.inl hlt)
    · cases hz
  · rw [hst₁]
    exact h.keep
  · rw [hst₁]
    exact h.clear
  · rw [hst₁]
    exact hp
  · have := h.problems
    rw [h0] at this
    rw [hst₁]
    show st.hadProblem ≤ st.group * g.inodesPerGroup + (g.inodesPerGroup - 1 + 1)
    omega
  · rw [hst₁]
    exact h.redone
  · replace hz : st.hadProblem = 0 := by rwa [hst₁] at hz
    refine ⟨((htally hz).tick (by omega) (by rw [hi, hin, hdis.2.2]) hlast).setDiscard d l, ?_, ?_,
      fun _ => Or.inl ?_⟩
    · rw [hst₁]
      exact (h.good hz).flags
    · rw [hst₁]
      exact (h.good hz).equal
    · rw [hst₁]
      exact hp
  · have hopt := h.option (hdis.1 ▸ hd.1 hd')
    rw [hst₁]
    exact hopt
  · rcases hd.2 x hx with hold | ⟨hd', hnew⟩
    · rw [hdis.2.1] at hold
      exact h.discards x hold
    · exact Or.inr ⟨(h.option (hdis.1 ▸ hd')).1, hnew⟩

/-- **The next group.** -/
theorem CountingInodes.nextGroup (h : CountingInodes g env map redo st₀ st)
    (hgr : st.group < g.groupDescCount)
    (hk : st.inodes = g.inodesPerGroup) (hi : i = g.firstInode st.group + (g.inodesPerGroup - 1))
    {bitmap : Bool} :
    CountingInodes g env map redo st₀ (st.nextGroup g env changed i bitmap) ∧
      (st.nextGroup g env changed i bitmap).group = st.group + 1 ∧
      (st.nextGroup g env changed i bitmap).inodes = 0 := by
  have hpos := g.inodesPerGroup_pos
  have hle := h.pos_le
  -- `i` is the last inode of the file system only in the last group
  have hlast := InodeMapGeometry.firstInode_add_eq_iff hgr (Nat.sub_lt hpos Nat.one_pos)
  rw [← hi] at hlast
  obtain ⟨d, l, z, hnext, hd⟩ := @nextGroup_cases g env changed st i st₀.inodeUninit bitmap
    hgr (fun hd => (h.good (h.option hd).2).tally) hk
  have hskip : (g.csumFlag && decide (i ≠ g.inodesCount) && st.inodeUninit (st.group + 1)) =
      (g.csumFlag && decide (i ≠ g.inodesCount) && st₀.inodeUninit (st.group + 1)) := by
    rw [h.later _ (Or.inl (Nat.lt_succ_self _))]
  have hmul : (st.group + 1) * g.inodesPerGroup + 0 = st.group * g.inodesPerGroup + st.inodes := by
    rw [hk, Nat.add_mul, Nat.one_mul]
    rfl
  rw [hnext]
  refine ⟨⟨Nat.zero_le _, ?_, fun _ hlt => ?_, fun _ => ⟨rfl, fun heq => ?_⟩,
    fun hz => absurd hz (Nat.lt_irrefl 0), h.sub, fun gr hor => ?_, h.keep, fun hcsum gr hlt hun =>
      ?_, fun _ _ hz => absurd hz (Nat.lt_irrefl 0), ?_, h.redone, fun hz => ?_,
    fun hd' => h.option (hd.1 hd'), fun x hx => ?_⟩, rfl, rfl⟩
  · show (st.group + 1) * g.inodesPerGroup + 0 ≤ _
    rw [hmul]
    exact hle
  · replace hlt : st.group + 1 < g.groupDescCount := hlt
    show (g.csumFlag && decide (i ≠ g.inodesCount) && st.inodeUninit (st.group + 1)) = _
    have hne : i ≠ g.inodesCount := fun he => by
      have := (hlast.mp he).2
      omega
    rw [hskip, decide_eq_true hne, Bool.and_true]
    rfl
  · replace heq : st.group + 1 = g.groupDescCount := heq
    show (g.csumFlag && decide (i ≠ g.inodesCount) && st.inodeUninit (st.group + 1)) = false
    have he : i = g.inodesCount := hlast.mpr ⟨Nat.sub_add_cancel hpos, heq⟩
    rw [decide_eq_false (not_not_intro he), Bool.and_false, Bool.false_and]
  · refine h.later gr (Or.inl ?_)
    rcases hor with hlt | ⟨heq, -⟩
    · exact Nat.lt_of_succ_lt hlt
    · exact heq ▸ Nat.lt_succ_self st.group
  · rcases Nat.lt_succ_iff_lt_or_eq.mp hlt with hlt | rfl
    · exact h.clear hcsum gr hlt hun
    · rcases h.here hcsum hun (by omega) with hp | hu | ⟨-, hu⟩
      · exact Or.inl hp
      · exact Or.inr hu
      · rw [hk] at hu
        exact Or.inr hu
  · show st.hadProblem ≤ (st.group + 1) * g.inodesPerGroup + 0
    rw [hmul]
    exact h.problems
  · have hgood := h.good hz
    refine ⟨(hgood.tally.turn hk z).setDiscard d l, hgood.flags, fun hr gr hlt => ?_,
      fun _ => Or.inr ?_⟩
    · rcases Nat.lt_succ_iff_lt_or_eq.mp hlt with hlt | rfl
      · exact hgood.equal hr gr hlt
      · have hhere := hgood.here hr
        rw [hk] at hhere
        rcases hhere with hp | ⟨hc, hf, -, hu⟩ | ⟨-, hu⟩
        · exact Or.inl hp
        · exact Or.inr (Or.inl ⟨hc, hf, hu⟩)
        · exact Or.inr (Or.inr hu)
    · show (g.csumFlag = true ∧ st₀.inodeUninit (st.group + 1) = true ∧
          (g.csumFlag && decide (i ≠ g.inodesCount) && st.inodeUninit (st.group + 1)) = true ∧
            ∀ k < 0, _) ∨
        (g.csumFlag && decide (i ≠ g.inodesCount) && st.inodeUninit (st.group + 1)) = false ∧
          ∀ k < 0, _
      rw [hskip]
      cases hs : (g.csumFlag && decide (i ≠ g.inodesCount) && st₀.inodeUninit (st.group + 1)) with
      | false => exact Or.inr ⟨rfl, fun k hk => absurd hk (Nat.not_lt_zero k)⟩
      | true =>
        rw [Bool.and_eq_true, Bool.and_eq_true] at hs
        exact Or.inl ⟨hs.1.1, hs.2, rfl, fun k hk => absurd hk (Nat.not_lt_zero k)⟩
  · exact (hd.2 x hx).elim (h.discards x) fun hnew => Or.inr ⟨(h.option hnew.1).1, hnew.2⟩

/-- The number of inodes behind. -/
def InodeCount.pos (g : InodeMapGeometry) (st : InodeCount) : ℕ :=
  st.group * g.inodesPerGroup + st.inodes

/-- From `do_counts` on: the inode is counted, and at the end of a group the next one begins. -/
theorem CountingInodes.doCounts (hgr : st.group < g.groupDescCount)
    (hk : st.inodes < g.inodesPerGroup) (hi : i = g.firstInode st.group + st.inodes) {bitmap : Bool}
    (h : CountingInodes g env map redo st₀ (st.count g env changed i bitmap) ∧
      (st.count g env changed i bitmap).group = st.group ∧
      (st.count g env changed i bitmap).inodes = st.inodes + 1) :
    CountingInodes g env map redo st₀ (st.doCounts g env changed i bitmap).1 ∧
      (st.doCounts g env changed i bitmap).1.inodes < g.inodesPerGroup ∧
      (st.doCounts g env changed i bitmap).1.pos g = st.pos g + 1 ∧
      (st.doCounts g env changed i bitmap).2 = (st.pos g + 1 + 1) % 2 ^ 32 := by
  obtain ⟨hc, hgroup, hin⟩ := h
  have hpos := g.inodesPerGroup_pos
  have hnext : (i + 1) % 2 ^ 32 = (st.pos g + 1 + 1) % 2 ^ 32 := by
    rw [hi, InodeMapGeometry.firstInode, InodeCount.pos]
    congr 1
    omega
  have hiff : (st.count g env changed i bitmap).inodes = g.inodesPerGroup ∨ i = g.inodesCount ↔
      st.inodes + 1 = g.inodesPerGroup := by
    rw [hin, hi, InodeMapGeometry.firstInode_add_eq_iff hgr hk]
    exact ⟨fun h => h.elim id And.left, Or.inl⟩
  by_cases hend : st.inodes + 1 = g.inodesPerGroup
  · have hdo : (st.doCounts g env changed i bitmap).1 =
        (st.count g env changed i bitmap).nextGroup g env changed i bitmap := if_pos (hiff.mpr hend)
    have hlast : i = g.firstInode (st.count g env changed i bitmap).group +
        (g.inodesPerGroup - 1) := by
      rw [hgroup]
      omega
    rw [hdo]
    obtain ⟨h1, h2, h3⟩ :=
      @CountingInodes.nextGroup g env map changed redo st₀ _ i hc (by omega) (by omega) hlast bitmap
    refine ⟨h1, by omega, ?_, hnext⟩
    rw [InodeCount.pos, InodeCount.pos, h2, h3, hgroup, Nat.add_mul, Nat.one_mul]
    omega
  · have hdo : (st.doCounts g env changed i bitmap).1 = st.count g env changed i bitmap :=
      if_neg fun h => hend (hiff.mp h)
    rw [hdo]
    refine ⟨hc, by omega, ?_, hnext⟩
    rw [InodeCount.pos, InodeCount.pos, hgroup, hin, Nat.add_assoc]

include hans hredo in
/-- **A round of the loop.** -/
theorem CountingInodes.step (h : CountingInodes g env map redo st₀ st)
    (hgr : st.group < g.groupDescCount)
    (hk : st.inodes < g.inodesPerGroup) (hi : i = st.pos g + 1) :
    ∃ st', inodeCountStep g env changed redo map i st = (st', (st'.pos g + 1) % 2 ^ 32) ∧
      CountingInodes g env map redo st₀ st' ∧ st'.inodes < g.inodesPerGroup ∧
      st.pos g < st'.pos g := by
  have hpos := g.inodesPerGroup_pos
  have hi' : i = g.firstInode st.group + st.inodes := by
    rw [hi, InodeCount.pos, InodeMapGeometry.firstInode]
    omega
  have hjump := jump_iff h hgr hk
  rw [← hi'] at hjump
  rw [inodeCountStep]
  -- a group that is passed over in one go, or a single inode
  by_cases hj : st.skipGroup = true ∧ i % g.inodesPerGroup = 1 ∧
    testInodeBitmapRange g env i g.inodesPerGroup = true
  · obtain ⟨h0, hp⟩ := hjump.mp hj
    rw [if_pos hj]
    dsimp only
    obtain ⟨st₁, hst₁⟩ : ∃ st₁ : InodeCount, st₁ = { st with
      firstFree := 1
      inodes := g.inodesPerGroup - 1
      groupFree := g.inodesPerGroup - 1
      freeInodes := st.freeInodes + (g.inodesPerGroup - 1)
      skipGroup := false } := ⟨_, rfl⟩
    have hfields : st₁.group = st.group ∧ st₁.inodes = g.inodesPerGroup - 1 := by
      rw [hst₁]
      exact ⟨rfl, rfl⟩
    have hlast : i + (g.inodesPerGroup - 1) = g.firstInode st.group + (g.inodesPerGroup - 1) := by
      omega
    obtain ⟨h1, h2, h3⟩ :=
      @CountingInodes.jump g env map changed redo st₀ st _ h hgr h0 hp hlast st₁ hst₁
    obtain ⟨h4, h5, h6, h7⟩ :=
      @CountingInodes.doCounts g env map changed redo st₀ st₁ _ (by omega) (by omega)
      (by rw [hlast, hfields.1, hfields.2]) false ⟨h1, by omega, by omega⟩
    rw [← hst₁]
    refine ⟨_, ?_, h4, h5, ?_⟩
    · rw [h6, ← h7]
    · rw [h6, InodeCount.pos, InodeCount.pos, hfields.1, hfields.2]
      omega
  · rw [if_neg hj]
    -- inside a group that is not passed over every inode is looked at
    have hnot : ¬g.Passed env st₀.inodeUninit st.group := by
      intro hp
      rcases Nat.eq_zero_or_pos st.inodes with h0 | h0
      · exact hj (hjump.mpr ⟨h0, hp⟩)
      · exact h.passed h0 hk hp
    dsimp only
    obtain ⟨st₁, hst₁⟩ : ∃ st₁ : InodeCount, st₁ =
      if env.used i = (if redo then env.used i else if !st.skipGroup then map i else false) then st
      else st.note env i (env.used i) := ⟨_, rfl⟩
    have hfields : st₁.group = st.group ∧ st₁.inodes = st.inodes := by
      rw [hst₁]
      by_cases heq : env.used i = (if redo then env.used i
        else if !st.skipGroup then map i else false)
      · rw [if_pos heq]
        exact ⟨rfl, rfl⟩
      · rw [if_neg heq]
        exact ⟨(noteInode_fields st i _).1, (noteInode_fields st i _).2.1⟩
    obtain ⟨h1, h2, h3⟩ :=
      @CountingInodes.inode g env map changed redo st₀ st i hans hredo h hgr hk hnot hi'
        _ rfl st₁ hst₁
    obtain ⟨h4, h5, h6, h7⟩ :=
      @CountingInodes.doCounts g env map changed redo st₀ st₁ i (by omega) (by omega)
      (by rw [hfields.1, hfields.2]; exact hi') _ ⟨h1, by omega, by omega⟩
    rw [← hst₁]
    refine ⟨_, ?_, h4, h5, ?_⟩
    · rw [h6, ← h7]
    · rw [h6, InodeCount.pos, InodeCount.pos, hfields.1, hfields.2]
      omega

include hans hredo in
/-- **The loop comes to the end** of the last group, where no number of an inode comes after `2 ^ 32
- 1`. -/
theorem CountingInodes.loop : ∀ n (st : InodeCount), CountingInodes g env map redo st₀ st →
    st.inodes < g.inodesPerGroup → g.inodesCount < st.pos g + n →
    ∃ st', inodeCountLoop g env changed redo map n ((st.pos g + 1) % 2 ^ 32) st = some st' ∧
      CountingInodes g env map redo st₀ st' ∧ st'.group = g.groupDescCount ∧ st'.inodes = 0 := by
  intro n
  have hcount : g.inodesCount < 2 ^ 32 := g.inodesCount_lt
  induction n with
  | zero =>
    intro st h _ hn
    have := h.pos_le
    rw [InodeCount.pos] at hn
    omega
  | succ n ih =>
    intro st h hk hn
    have hle := h.pos_le
    rw [← InodeCount.pos] at hle
    rw [inodeCountLoop]
    by_cases hlt : st.pos g < g.inodesCount
    · have hgr : st.group < g.groupDescCount := by
        by_contra hge
        have := Nat.mul_le_mul_right g.inodesPerGroup (Nat.not_lt.mp hge)
        rw [InodeCount.pos, InodeMapGeometry.inodesCount] at hlt
        omega
      have hi : (st.pos g + 1) % 2 ^ 32 = st.pos g + 1 := Nat.mod_eq_of_lt (by omega)
      obtain ⟨st', hstep, h1, h2, h3⟩ :=
        @CountingInodes.step g env map changed redo st₀ st _ hans hredo h hgr hk rfl
      rw [hi, if_pos ⟨hlt, Nat.succ_pos _⟩, hstep]
      exact ih st' h1 h2 (by omega)
    · have heq : st.pos g = g.inodesCount := by omega
      -- the 32-bit number of the next inode is past the last one, or wraps to zero
      have hstop : ¬((st.pos g + 1) % 2 ^ 32 ≤ g.inodesCount ∧ 0 < (st.pos g + 1) % 2 ^ 32) := by
        rintro ⟨h1, h2⟩
        rcases Nat.lt_or_ge (st.pos g + 1) (2 ^ 32) with hlt' | hge
        · rw [Nat.mod_eq_of_lt hlt'] at h1
          omega
        · rw [show st.pos g + 1 = 2 ^ 32 by omega, Nat.mod_self] at h2
          exact absurd h2 (Nat.lt_irrefl 0)
      rw [if_neg hstop]
      refine ⟨st, rfl, h, ?_⟩
      rw [InodeCount.pos, InodeMapGeometry.inodesCount] at heq
      have hpos := g.inodesPerGroup_pos
      have hgroup : st.group = g.groupDescCount := by
        have h1 : (st.group * g.inodesPerGroup + st.inodes) / g.inodesPerGroup = st.group := by
          rw [Nat.mul_comm, Nat.mul_add_div hpos, Nat.div_eq_of_lt hk, Nat.add_zero]
        have h2 : g.groupDescCount * g.inodesPerGroup / g.inodesPerGroup = g.groupDescCount :=
          Nat.mul_div_cancel _ hpos
        rw [← h1, heq, h2]
      rw [hgroup] at heq
      exact ⟨hgroup, by omega⟩

end Round

/-! ### The pass -/

theorem CountingInodes.restart (hskip : st.skipGroup = false)
    (hfree : st.firstFree = g.inodesPerGroup + 1) :
    CountingInodes g env map redo (st.restart g) (st.restart g) := by
  have hgroup : ∀ gr, ¬gr < (st.restart g).group := fun gr => Nat.not_lt_zero gr
  have hin : ∀ k, ¬k < (st.restart g).inodes := fun k => Nat.not_lt_zero k
  have hs : (st.restart g).skipGroup = (g.csumFlag && (st.restart g).inodeUninit 0) := by
    show (st.skipGroup || g.csumFlag && st.inodeUninit 0) = _
    rw [hskip, Bool.false_or]
    rfl
  have hzero : (st.restart g).group * g.inodesPerGroup + (st.restart g).inodes = 0 := Nat.zero_mul _
  refine ⟨Nat.zero_le _, hzero ▸ Nat.zero_le _, fun _ _ => hs, fun _ => ⟨hfree, fun heq => ?_⟩,
    fun h => absurd h (hin 0), fun _ h => h, fun _ _ => rfl, fun _ h => h.2.1, fun _ gr h =>
      absurd h (hgroup gr),
    fun _ _ h => absurd h (hin 0), Nat.zero_le _, fun _ => rfl, fun _ =>
      ⟨⟨?_, fun gr h => absurd h (hgroup gr),
    fun gr h => absurd h (hgroup gr), rfl, rfl, Or.inl hfree⟩, rfl, fun _ gr h =>
      absurd h (hgroup gr), fun _ => Or.inr ?_⟩,
    fun h => ⟨h, rfl⟩, fun _ h => Or.inl h⟩
  · have := g.groupDescCount_pos
    exact absurd heq (by show 0 ≠ g.groupDescCount; omega)
  · rw [hzero]
    rfl
  · cases hc : (g.csumFlag && (st.restart g).inodeUninit 0) with
    | false => exact Or.inr ⟨hs.trans hc, fun k h => absurd h (hin k)⟩
    | true =>
      exact Or.inl ⟨(Bool.and_eq_true_iff.mp hc).1, (Bool.and_eq_true_iff.mp hc).2, hs.trans hc,
        fun k h => absurd h (hin k)⟩

theorem CountingInodes.printRun (h : CountingInodes g env map redo st₀ st) :
    CountingInodes g env map redo st₀ st.printRun := by
  rw [InodeCount.printRun]
  split
  · exact h
  · exact ⟨h.inodes_le, h.pos_le, h.start, h.fresh, h.passed, h.sub, h.later, h.keep, h.clear,
      h.here, h.problems, h.redone, fun hz =>
        ⟨⟨(h.good hz).tally.total, (h.good hz).tally.free, (h.good hz).tally.dirs,
          (h.good hz).tally.groupFree,
        (h.good hz).tally.dirsCount, (h.good hz).tally.firstFree⟩, (h.good hz).flags,
        (h.good hz).equal, (h.good hz).here⟩,
      h.option, h.discards⟩

theorem printInodeRun_fields (st : InodeCount) :
    st.printRun.group = st.group ∧ st.printRun.inodes = st.inodes := by
  rw [InodeCount.printRun]
  split <;> exact ⟨rfl, rfl⟩

/-- **One count** of all the groups. -/
theorem count_all (hans : ∀ q, env.answer q = true) (hskip : st.skipGroup = false)
    (hfree : st.firstFree = g.inodesPerGroup + 1)
    (hredo : redo = true → g.csumFlag = true → ∀ gr < g.groupDescCount, st.inodeUninit gr = true →
      g.Passed env st.inodeUninit gr ∨ g.Unused env.used gr) (fs : InodeMapFs) (n : ℕ) :
    ∃ st', CountingInodes g env fs.map redo (st.restart g) st' ∧ st'.group = g.groupDescCount ∧
    st'.inodes = 0 ∧
      redoInodeCounts g env (n + 1) redo fs st =
        if st'.hadProblem = 0 then some (fs, st')
        else redoInodeCounts g env n true { fs with map := env.used, changed := true } st' := by
  have hstart : (st.restart g).pos g = 0 := Nat.zero_mul _
  obtain ⟨st', hloop, h, hgroup, hin⟩ :=
    @CountingInodes.loop g env fs.map fs.changed redo (st.restart g) hans hredo
    (g.inodesCount + 1) (st.restart g) (CountingInodes.restart hskip hfree) g.inodesPerGroup_pos
      (by omega)
  rw [hstart, show (0 + 1) % 2 ^ 32 = 1 from rfl] at hloop
  obtain ⟨h1, h2⟩ := printInodeRun_fields st'
  refine ⟨st'.printRun, h.printRun, h1.trans hgroup, h2.trans hin, ?_⟩
  rw [redoInodeCounts, hloop]
  simp only [Option.bind_some, hans, if_true]

/-- **What the counts leave**: the tallies of a last count that began with some of the flags of the
first one, with those of the groups that are passed over among them. -/
structure Recounted (g : InodeMapGeometry) (env : InodeMapEnv) (uninit : ℕ → Bool)
    (fs' : InodeMapFs) (st : InodeCount) :
    Prop where
  group : st.group = g.groupDescCount
  inodes : st.inodes = 0
  sub : ∀ gr, st.inodeUninit gr = true → uninit gr = true
  keep : ∀ gr, g.Passed env uninit gr → st.inodeUninit gr = true
  tally : Tally g env st.inodeUninit st
  clear : g.csumFlag = true → ∀ gr < g.groupDescCount, st.inodeUninit gr = true →
    g.Passed env uninit gr ∨ g.Unused env.used gr
  map : ∀ gr < g.groupDescCount, g.Passed env uninit gr ∨
    (st.inodeUninit gr = true ∧ g.Unused env.used gr) ∨
    ∀ k < g.inodesPerGroup, fs'.map (g.firstInode gr + k) = env.used (g.firstInode gr + k)
  discarded : ∀ x ∈ st.discarded, g.OnlyUnused (g.shown env uninit) x

theorem passed_mono {uninit uninit' : ℕ → Bool} (h : g.Passed env uninit gr)
    (h' : uninit' gr = true) :
    g.Passed env uninit' gr := ⟨h.1, h', h.2.2⟩

theorem redoInodeCounts_spec (hans : ∀ q, env.answer q = true) (hskip : st.skipGroup = false)
    (hfree : st.firstFree = g.inodesPerGroup + 1) (hnone : st.discarded = []) (fs : InodeMapFs) :
    ∃ fs' st', redoInodeCounts g env 2 false fs st = some (fs', st') ∧
      Recounted g env st.inodeUninit fs' st' := by
  obtain ⟨st₁, h₁, hgroup₁, hin₁, heq₁⟩ := @count_all g env false st hans hskip hfree nofun fs 1
  have hdis₁ : ∀ x ∈ st₁.discarded, g.OnlyUnused (g.shown env st.inodeUninit) x := fun x hx => by
    rcases h₁.discards x hx with hold | ⟨-, hnew⟩
    · rw [show (st.restart g).discarded = st.discarded from rfl, hnone] at hold
      cases hold
    · exact hnew
  by_cases hz : st₁.hadProblem = 0
  · have hgood := h₁.good hz
    have hflags : st₁.inodeUninit = st.inodeUninit := hgood.flags
    rw [if_pos hz] at heq₁
    refine ⟨fs, st₁, heq₁, hgroup₁, hin₁, h₁.sub, h₁.keep, ?_,
      fun hc gr hgr => h₁.clear hc gr (by omega), fun gr hgr => ?_, hdis₁⟩
    · rw [hflags]
      exact hgood.tally
    · rcases hgood.equal rfl gr (by omega) with hp | ⟨-, hf, hu⟩ | hm
      · exact Or.inl hp
      · exact Or.inr (Or.inl ⟨by rw [hflags]; exact hf, hu⟩)
      · exact Or.inr (Or.inr hm)
  -- All is counted again, with the flags that are left and nothing more to discard.
  · rw [if_neg hz] at heq₁
    have hskip₁ := (h₁.fresh hin₁).2 hgroup₁
    have hoff : st₁.discard = false := by
      cases hd : st₁.discard with
      | false => rfl
      | true => exact absurd (h₁.option hd).2 hz
    obtain ⟨st₂, h₂, hgroup₂, hin₂, heq₂⟩ := @count_all g env true st₁ hans hskip₁ (h₁.fresh hin₁).1
      (fun _ hc gr hgr hf => (h₁.clear hc gr (by omega) hf).imp_left fun hp => passed_mono hp hf)
      { fs with map := env.used, changed := true } 0
    have hz₂ := h₂.redone rfl
    have hgood₂ := h₂.good hz₂
    have hflags : st₂.inodeUninit = st₁.inodeUninit := hgood₂.flags
    rw [if_pos hz₂] at heq₂
    rw [heq₂] at heq₁
    refine ⟨_, st₂, heq₁, hgroup₂, hin₂, ?_, ?_, ?_, fun hc gr hgr hf => ?_,
      fun gr _ => Or.inr (Or.inr fun _ _ => rfl), fun x hx => ?_⟩
    · rw [hflags]
      exact h₁.sub
    · rw [hflags]
      exact h₁.keep
    · rw [hflags]
      exact hgood₂.tally
    · rw [hflags] at hf
      exact h₁.clear hc gr (by omega) hf
    · rcases h₂.discards x hx with hold | ⟨hd, -⟩
      · exact hdis₁ x hold
      · exact absurd (hoff.symm.trans hd) Bool.false_ne_true

/-- The counts of the groups fit in their fields. -/
theorem truncate_inodes {n : ℕ} (h : n ≤ g.inodesPerGroup) : g.truncate n = n := by
  have hlt := g.inodesPerGroup_lt
  rw [InodeMapGeometry.truncate]
  refine Nat.mod_eq_of_lt ?_
  split <;> omega

/-- **The counts that are set** are the tallies. -/
theorem setInodeCounts_eq (hans : ∀ q, env.answer q = true) {uninit : ℕ → Bool}
    (h : Tally g env uninit st)
    (hgroup : st.group = g.groupDescCount) (hin : st.inodes = 0) (fs : InodeMapFs) :
    (setInodeCounts g env fs st).map = fs.map ∧
    (∀ gr < g.groupDescCount, (setInodeCounts g env fs st).bgFreeInodesCount gr =
      clearBits (g.shown env uninit) (g.firstInode gr) g.inodesPerGroup) ∧
    (∀ gr < g.groupDescCount, (setInodeCounts g env fs st).bgUsedDirsCount gr =
      setBits (fun ino => g.shown env uninit ino && env.dir ino)
        (g.firstInode gr) g.inodesPerGroup) ∧
    (setInodeCounts g env fs st).freeInodesCount =
      clearBits (g.shown env uninit) 1 g.inodesCount := by
  have hset : ∀ (P : Prop) [Decidable P] (n m : ℕ), P → n ≤ g.inodesPerGroup →
      (if P ∧ n ≠ m ∧ true then g.truncate n else m) = n := by
    intro P _ n m hP hn
    by_cases hne : n = m
    · rw [if_neg fun h => h.2.1 hne, hne]
    · rw [if_pos ⟨hP, hne, rfl⟩, truncate_inodes hn]
  have htotal : st.freeInodes = clearBits (g.shown env uninit) 1 g.inodesCount := by
    rw [h.total, hgroup, hin, Nat.add_zero, InodeMapGeometry.inodesCount]
  have hfree : ∀ gr < g.groupDescCount, (setInodeCounts g env fs st).bgFreeInodesCount gr =
      clearBits (g.shown env uninit) (g.firstInode gr) g.inodesPerGroup := fun gr hgr => by
    rw [← h.free gr (hgroup ▸ hgr)]
    -- a count of one group fits the field it is stored in
    have hle : st.freeArray gr ≤ g.inodesPerGroup := by
      rw [h.free gr (hgroup ▸ hgr)]
      exact clearBits_le _ _ _
    refine Eq.trans ?_ (hset (gr < g.groupDescCount) (st.freeArray gr)
      (fs.bgFreeInodesCount gr) hgr hle)
    rw [setInodeCounts, hans, hans, hans]
    split <;> rfl
  have hdirs : ∀ gr < g.groupDescCount, (setInodeCounts g env fs st).bgUsedDirsCount gr =
      setBits (fun ino => g.shown env uninit ino && env.dir ino)
        (g.firstInode gr) g.inodesPerGroup := fun gr hgr => by
    rw [← h.dirs gr (hgroup ▸ hgr)]
    have hle : st.dirArray gr ≤ g.inodesPerGroup := by
      rw [h.dirs gr (hgroup ▸ hgr)]
      exact clearBits_le _ _ _
    refine Eq.trans ?_ (hset (gr < g.groupDescCount) (st.dirArray gr)
      (fs.bgUsedDirsCount gr) hgr hle)
    rw [setInodeCounts, hans, hans, hans]
    split <;> rfl
  refine ⟨?_, hfree, hdirs, ?_⟩
  · rw [setInodeCounts]
    split <;> rfl
  · rw [← htotal, setInodeCounts, hans, hans, hans]
    split
    case isTrue => rfl
    case isFalse hne =>
      have heq : st.freeInodes = fs.freeInodesCount := by
        by_contra h'
        exact hne ⟨h', rfl⟩
      exact heq.symm

/-- The result of the pass. -/
theorem checkInodeBitmaps_spec (hans : ∀ q, env.answer q = true) (fs : InodeMapFs)
    (inodeUninit inodeZeroed : ℕ → Bool)
    (discard : Bool) : ∃ fs' st', checkInodeBitmaps g env fs inodeUninit inodeZeroed discard =
      some (setInodeCounts g env fs' st', st') ∧ Recounted g env inodeUninit fs' st' := by
  obtain ⟨fs', st', heq, h⟩ := @redoInodeCounts_spec g env
    { group := 0, inodes := 0, freeInodes := 0, firstFree := g.inodesPerGroup + 1, groupFree := 0,
      dirsCount := 0,
      freeArray := fun _ => 0, dirArray := fun _ => 0, skipGroup := false, hadProblem := 0,
      run := none, printed := [],
      inodeUninit := inodeUninit, inodeZeroed := inodeZeroed, discard := discard,
      discarded := [] } hans rfl rfl rfl fs
  refine ⟨fs', st', ?_, h⟩
  rw [checkInodeBitmaps, heq]
  rfl

/-- **A group with the flag that is passed over although it is in use** keeps its flag. -/
theorem not_exactInodes (hans : ∀ q, env.answer q = true) {inodeUninit : ℕ → Bool}
    (hnot : ¬SkipsRightly g env inodeUninit)
    (fs : InodeMapFs) (inodeZeroed : ℕ → Bool) (discard : Bool) :
    ¬∃ r, checkInodeBitmaps g env fs inodeUninit inodeZeroed discard = some r ∧
    ExactInodes g env r := by
  rintro ⟨r, hr, hexact⟩
  obtain ⟨fs', st', heq, h⟩ := checkInodeBitmaps_spec hans fs inodeUninit inodeZeroed discard
  obtain rfl := Option.some.inj (heq.symm.trans hr)
  refine hnot (Or.inr ?_)
  by_contra hcon
  push Not at hcon
  obtain ⟨hcsum, hone, gr, hgr, hflag, hused⟩ := hcon
  have hp : g.Passed env inodeUninit gr :=
    ⟨Bool.not_eq_false _ ▸ hcsum, hflag, hone, fun hold => absurd (Or.inl hold) hnot⟩
  exact hused (hexact.uninit (Bool.not_eq_false _ ▸ hcsum) gr hgr (h.keep gr hp))

/-- The groups that are passed over are not in use. -/
theorem unused_of_skipsRightly {inodeUninit : ℕ → Bool} (h : SkipsRightly g env inodeUninit)
    (hgr : gr < g.groupDescCount) (hp : g.Passed env inodeUninit gr) : g.Unused env.used gr := by
  rcases h with hold | hcsum | hone | hall
  · exact hp.2.2.2 hold
  · exact absurd (hcsum.symm.trans hp.1) Bool.false_ne_true
  · exact absurd hone hp.2.2.1
  · exact hall gr hgr hp.2.1

/-- **Pass 5 makes the inode bitmap and the counts exact if and only if the groups that it passes
over are not in use.** -/
theorem exactInodes_iff (hans : ∀ q, env.answer q = true) (fs : InodeMapFs)
    (inodeUninit inodeZeroed : ℕ → Bool) (discard : Bool) :
    (∃ r, checkInodeBitmaps g env fs inodeUninit inodeZeroed discard = some r ∧
      ExactInodes g env r) ↔
      SkipsRightly g env inodeUninit := by
  constructor
  · intro h
    by_contra hnot
    exact not_exactInodes hans hnot fs inodeZeroed discard h
  · intro hright
    obtain ⟨fs', st', heq, h⟩ :=
      @checkInodeBitmaps_spec g env hans fs inodeUninit inodeZeroed discard
    have hunused : ∀ uninit : ℕ → Bool, (∀ gr, uninit gr = true → inodeUninit gr = true) →
      ∀ gr < g.groupDescCount,
        g.Passed env uninit gr → g.Unused env.used gr := fun uninit hsub gr hgr hp =>
      unused_of_skipsRightly hright hgr (passed_mono hp (hsub gr hp.2.1))
    have hshown : ∀ uninit : ℕ → Bool, (∀ gr, uninit gr = true → inodeUninit gr = true) →
      ∀ gr < g.groupDescCount,
        ∀ k < g.inodesPerGroup, g.shown env uninit (g.firstInode gr + k) =
          env.used (g.firstInode gr + k) := by
      intro uninit hsub gr hgr k hk
      by_cases hp : g.Passed env uninit gr
      · rw [InodeMapGeometry.shown_of_passed hp hk, hunused uninit hsub gr hgr hp k hk]
      · exact InodeMapGeometry.shown_of_not_passed hp hk
    have hin : ∀ ino, 1 ≤ ino → ino < 1 + g.inodesCount →
        g.shown env st'.inodeUninit ino = env.used ino := by
      intro ino h1 h2
      have hdiv := Nat.div_add_mod (ino - 1) g.inodesPerGroup
      have hmod := Nat.mod_lt (ino - 1) g.inodesPerGroup_pos
      have hgr : (ino - 1) / g.inodesPerGroup < g.groupDescCount := by
        rw [Nat.div_lt_iff_lt_mul g.inodesPerGroup_pos, ← InodeMapGeometry.inodesCount]
        omega
      have heq := hshown _ h.sub _ hgr _ hmod
      have hino : g.firstInode ((ino - 1) / g.inodesPerGroup) + (ino - 1) % g.inodesPerGroup =
          ino := by
        rw [InodeMapGeometry.firstInode, Nat.mul_comm]
        omega
      rwa [hino] at heq
    have hgroup : ∀ gr < g.groupDescCount, ∀ d, g.firstInode gr ≤ d →
      d < g.firstInode gr + g.inodesPerGroup →
        g.shown env st'.inodeUninit d = env.used d := fun gr hgr d hd hd' => by
      have := g.succ_mul_le hgr
      rw [InodeMapGeometry.firstInode] at hd hd'
      exact hin d (by omega) (by omega)
    obtain ⟨hmap, hfree, hdirs, htotal⟩ := setInodeCounts_eq hans h.tally h.group h.inodes fs'
    refine ⟨_, heq, fun gr hgr => ?_, fun hc gr hgr hf => ?_, fun gr hgr => ?_, fun gr hgr => ?_,
      ?_, fun x hx => ?_⟩
    · rcases h.map gr hgr with hp | ⟨hf, hu⟩ | hm
      · exact Or.inr ⟨h.keep gr hp, hunused inodeUninit (fun _ h => h) gr hgr hp⟩
      · exact Or.inr ⟨hf, hu⟩
      · left
        rw [hmap]
        exact hm
    · exact (h.clear hc gr hgr hf).elim (hunused inodeUninit (fun _ h => h) gr hgr) id
    · exact (hfree gr hgr).trans (clearBits_congr fun d hd hd' => hgroup gr hgr d hd hd')
    · refine (hdirs gr hgr).trans (setBits_congr fun d hd hd' => ?_)
      rw [hgroup gr hgr d hd hd']
    · exact htotal.trans (clearBits_congr fun d hd hd' => hin d hd hd')
    · obtain ⟨hgr, honly⟩ := h.discarded x hx
      refine ⟨hgr, fun b hb hb' => ?_⟩
      obtain ⟨h1, h2, h3⟩ := honly b hb hb'
      refine ⟨h1, h2, fun k hk => ?_⟩
      have hlt : k < g.inodesPerGroup := by
        have := Nat.lt_div_mul_add g.inodesPerBlock_pos (a := k)
        rw [hk] at this
        rw [Nat.add_mul, Nat.one_mul] at h2
        omega
      rw [← hshown inodeUninit (fun _ h => h) _ hgr k hlt]
      exact h3 k hk

/-! ### A file system -/

/-- Two groups of 32 inodes in tables of two blocks. -/
def twoTables : InodeMapGeometry where
  groupDescCount := 2
  inodesPerGroup := 32
  inodesPerBlock := 16
  inodeTableLoc := fun gr => 10 + 100 * gr
  csumFlag := true
  has64bit := false
  groupDescCount_pos := Nat.zero_lt_two
  inodesPerGroup_pos := Nat.zero_lt_succ 31
  inodesPerGroup_lt := by decide
  inodesPerBlock_pos := Nat.zero_lt_succ 15
  inodesCount_lt := by decide

/-- A run in which everything is answered with yes and no discard fails. Inode 40 is in use, and the
inodes below 12. -/
def inodesSaidYes (oldBitmaps : Bool) : InodeMapEnv where
  used := fun ino => decide (ino < 12 ∨ ino = 40)
  dir := fun ino => decide (ino = 2)
  oldBitmaps := oldBitmaps
  answer := fun _ => true
  discardFails := fun _ _ => false
  discardZeroesData := true

/-- A file system without counts. -/
def uncountedInodes (map : ℕ → Bool) : InodeMapFs where
  map := map
  bgFreeInodesCount := fun _ => 0
  bgUsedDirsCount := fun _ => 0
  freeInodesCount := 0
  valid := true
  changed := false

/-- The second group has the flag, and an inode in use. -/
def secondUninit : ℕ → Bool := fun gr => decide (gr = 1)

theorem exactInodes_iff_oldBitmaps :
    ∃ r, checkInodeBitmaps twoTables (inodesSaidYes true) (uncountedInodes fun ino =>
      decide (ino < 5))
    secondUninit (fun _ => false) true = some r ∧ ExactInodes twoTables (inodesSaidYes true) r :=
  (exactInodes_iff (fun _ => rfl) _ _ _ _).mpr (Or.inl rfl)

/-- **A group in use with the flag**, and bitmaps of the new format: the inode is not looked at. -/
theorem skipped_not_exactInodes : ¬∃ r, checkInodeBitmaps twoTables (inodesSaidYes false)
    (uncountedInodes fun ino => decide (ino < 12)) secondUninit (fun _ => false) true = some r ∧
      ExactInodes twoTables (inodesSaidYes false) r := by
  refine not_exactInodes (fun _ => rfl) ?_ _ _ _
  rintro (h | h | h | h)
  · cases h
  · cases h
  · exact absurd h (by decide)
  · exact absurd (h 1 (by decide) rfl 7 (by decide)) (by decide)

end E2fsprogs
