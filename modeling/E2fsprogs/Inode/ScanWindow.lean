import E2fsprogs.Inode.Scan

/-!
# The window of a scan of the inode tables

The inodes of a group are taken from a window of its table, which is filled when it is empty. What
is in the window, and which bad blocks are still to come, is the invariant of a scan.
-/

namespace E2fsprogs

section ScanWindow

variable {fs : ScanFs} {g i c : ℕ}

/-! ### The inodes of the file system -/

/-- A file system that `ext2fs_open` lets pass, with inode tables that do not overlap and bad blocks
that are sorted. Only bad blocks cannot be read. -/
structure ScanFs.Regular (fs : ScanFs) : Prop where
  blocks : ∃ e, 10 ≤ e ∧ e ≤ 16 ∧ fs.blocksize = 2 ^ e
  size : ∃ e, 7 ≤ e ∧ fs.inodeSize = 2 ^ e
  le : fs.inodeSize ≤ fs.blocksize
  perGroup : 0 < fs.inodesPerGroup
  groups : 0 < fs.groupDescCount
  count : fs.groupDescCount * fs.inodesPerGroup < 2 ^ 32
  tableBlocks : fs.inodeBlocksPerGroup =
    (fs.inodesPerGroup * fs.inodeSize + fs.blocksize - 1) / fs.blocksize
  tableMax : fs.inodeBlocksPerGroup ≤ 2 ^ 16 - fs.blocksize / fs.inodeSize
  tables : ∀ g < fs.groupDescCount, fs.inodeTableLoc g ≠ 0 ∧
    fs.firstDataBlock ≤ fs.inodeTableLoc g ∧
    fs.inodeTableLoc g + fs.inodeBlocksPerGroup ≤ fs.blocksCount
  apart : ∀ g < fs.groupDescCount, ∀ g' < fs.groupDescCount, g ≠ g' →
    fs.inodeTableLoc g + fs.inodeBlocksPerGroup ≤ fs.inodeTableLoc g' ∨
      fs.inodeTableLoc g' + fs.inodeBlocksPerGroup ≤ fs.inodeTableLoc g
  sorted : fs.badblocks.Pairwise (· ≤ ·)
  readable : ∀ g < fs.groupDescCount, ∀ c < fs.inodeBlocksPerGroup,
  fs.inodeTableLoc g + c ∉ fs.badblocks →
    fs.readable (fs.inodeTableLoc g + c) = true

/-- The inodes in the used part of a group; a group that is not initialised has none. -/
def ScanFs.used (fs : ScanFs) (g : ℕ) : ℕ :=
  if fs.groupDescCsum && fs.inodeUninit g then 0 else fs.inodesLeft g

/-- The blocks of the inode table that they are in. -/
def ScanFs.usedBlocks (fs : ScanFs) (g : ℕ) : ℕ :=
  (fs.used g * fs.inodeSize + fs.blocksize - 1) / fs.blocksize

/-- The block of an inode. -/
def ScanFs.inodeBlock (fs : ScanFs) (g i : ℕ) : ℕ :=
  fs.inodeTableLoc g + i * fs.inodeSize / fs.blocksize

/-- A byte of an inode table. -/
def ScanFs.tableByte (fs : ScanFs) (g n : ℕ) : UInt8 :=
  fs.disk (fs.inodeTableLoc g + n / fs.blocksize) (n % fs.blocksize)

/-- The inodes of the groups from `g` on. -/
def ScanFs.groupsFrom (fs : ScanFs) (g : ℕ) : List (ℕ × ℕ) :=
  (List.range' g (fs.groupDescCount - g)).flatMap fun g => (List.range (fs.used g)).map (g, ·)

/-- The inodes of a group from `i` on. -/
def ScanFs.inodesFrom (fs : ScanFs) (g i : ℕ) : List (ℕ × ℕ) :=
  (List.range' i (fs.used g - i)).map (g, ·)

/-- An answer that hands back the right inode, with its own bytes or with the right error. -/
structure ScanFs.AnswersFor (fs : ScanFs) (bufsize : ℕ) (answer : ScanAnswer) (slot : ℕ × ℕ) :
    Prop where
  ino : answer.ino = some (slot.1 * fs.inodesPerGroup + slot.2 + 1)
  bad : answer.err = some .badBlockInInodeTable ↔ fs.inodeBlock slot.1 slot.2 ∈ fs.badblocks
  bytes : fs.inodeBlock slot.1 slot.2 ∉ fs.badblocks → answer.inode =
    (List.range (min bufsize fs.inodeSize)).map fun k =>
      fs.tableByte slot.1 (slot.2 * fs.inodeSize + k)

/-- A scan that hands back every inode once, in order. -/
def ScansAll (fs : ScanFs) (bufferBlocks : ℤ) (bufsize : ℕ) : Prop :=
  ∃ scan, openInodeScan fs bufferBlocks = some (.ok scan) ∧ ∃ fuel answers,
    scanRun fs bufsize fuel scan = some answers ∧
      List.Forall₂ (fs.AnswersFor bufsize) answers (fs.groupsFrom 0)

/-- The conditions under which a scan works. -/
structure Scannable (fs : ScanFs) (bufferBlocks : ℤ) : Prop where
  bytes : fs.scanBytes bufferBlocks < 2 ^ 31
  blocks : fs.inodeSize + scanBlocks bufferBlocks < 2 ^ 32
  /-- A bad block is behind the first block of each table that was scanned before. -/
  behind : ∀ g < fs.groupDescCount, ∀ c < fs.usedBlocks g, fs.inodeTableLoc g + c ∈ fs.badblocks →
    ∀ g₀ < g, fs.used g₀ ≠ 0 → fs.inodeTableLoc g₀ < fs.inodeTableLoc g + c
  /-- What is read at once is no larger than the buffer. -/
  fits : ∀ g < fs.groupDescCount, ∀ c n, n ≤ scanBlocks bufferBlocks → c + n ≤ fs.usedBlocks g →
    (n = 1 ∨ ∀ k < n, fs.inodeTableLoc g + c + k ∉ fs.badblocks) →
      n * fs.blocksize ≤ max fs.ioAlign (fs.scanBytes bufferBlocks)

/-! ### Sizes -/

theorem ScanFs.used_le (fs : ScanFs) (g : ℕ) : fs.used g ≤ fs.inodesPerGroup := by
  rw [ScanFs.used, ScanFs.inodesLeft]
  split_ifs
  all_goals omega

section Sizes

variable (hf : fs.Regular)

include hf

theorem ScanFs.Regular.blocksize_ge : 1024 ≤ fs.blocksize := by
  obtain ⟨e, he, -, heq⟩ := hf.blocks
  rw [heq]
  exact Nat.pow_le_pow_right (n := 2) (by decide) he

theorem ScanFs.Regular.inodeSize_pos : 0 < fs.inodeSize := by
  obtain ⟨e, -, heq⟩ := hf.size
  rw [heq]
  exact Nat.two_pow_pos e

theorem ScanFs.Regular.blocksize_eq : ∃ m, 0 < m ∧ fs.blocksize = m * fs.inodeSize := by
  obtain ⟨e, -, -, heq⟩ := hf.blocks
  obtain ⟨f, -, hfeq⟩ := hf.size
  have hle := hf.le
  have hdvd : fs.inodeSize ∣ fs.blocksize := by
    rw [heq, hfeq] at hle ⊢
    exact pow_dvd_pow 2 ((Nat.pow_le_pow_iff_right (by decide)).mp hle)
  obtain ⟨m, hm⟩ := hdvd
  refine ⟨m, Nat.pos_of_ne_zero fun h0 => ?_, hm.trans (Nat.mul_comm _ _)⟩
  have := hf.blocksize_ge
  rw [hm, h0, Nat.mul_zero] at this
  exact absurd this (by decide)

/-- A block is used when its first inode is. -/
theorem ScanFs.Regular.lt_usedBlocks (g c : ℕ) :
    c < fs.usedBlocks g ↔ c * fs.blocksize < fs.used g * fs.inodeSize := by
  have hbs := hf.blocksize_ge
  rw [ScanFs.usedBlocks, Nat.lt_iff_add_one_le, Nat.le_div_iff_mul_le (by omega), Nat.add_mul]
  omega

theorem ScanFs.Regular.usedBlocks_le (g : ℕ) : fs.usedBlocks g ≤ fs.inodeBlocksPerGroup := by
  rw [hf.tableBlocks, ScanFs.usedBlocks]
  refine Nat.div_le_div_right ?_
  have := Nat.mul_le_mul_right fs.inodeSize (ScanFs.used_le fs g)
  omega

/-- The number of blocks is computed without an overflow. -/
theorem ScanFs.Regular.blocksLeft_eq (h : fs.used g ≠ 0) : fs.blocksLeft g = fs.usedBlocks g := by
  obtain ⟨m, hm, heq⟩ := hf.blocksize_eq
  have hpos := hf.inodeSize_pos
  have hused : fs.used g = fs.inodesLeft g := by
    rw [ScanFs.used] at h ⊢
    split_ifs at h ⊢
    · exact absurd rfl h
    · rfl
  have hle := ScanFs.used_le fs g
  rw [ScanFs.blocksLeft, ScanFs.usedBlocks, ← hused]
  by_cases hcsum : fs.groupDescCsum = true
  · have hdiv : fs.blocksize / fs.inodeSize = m := by rw [heq, Nat.mul_div_cancel _ hpos]
    have hsum : (fs.used g + (m - 1)) * fs.inodeSize + fs.inodeSize =
        fs.used g * fs.inodeSize + fs.blocksize := by
      rw [heq, ← Nat.succ_mul, ← Nat.add_mul]
      congr 1
      omega
    -- the last byte of a block does not start another inode
    have hceil : (fs.used g + (m - 1)) * fs.inodeSize / fs.blocksize =
        (fs.used g * fs.inodeSize + fs.blocksize - 1) / fs.blocksize := by
      rw [heq, Nat.mul_comm m, ← Nat.div_div_eq_div_mul, ← Nat.div_div_eq_div_mul,
        Nat.mul_div_cancel _ hpos]
      congr 1
      rw [Nat.mul_comm fs.inodeSize m, ← heq]
      refine (Nat.div_eq_of_lt_le ?_ ?_).symm
      · omega
      · rw [Nat.succ_mul]
        omega
    have hsmall : (fs.used g + (m - 1)) * fs.inodeSize < 2 ^ 32 := by
      obtain ⟨e, -, he, hbs⟩ := hf.blocks
      have hmax := hf.tableMax
      rw [hdiv] at hmax
      have hbs16 : fs.blocksize ≤ 2 ^ 16 := hbs ▸ Nat.pow_le_pow_right (n := 2) (by decide) he
      have htable : fs.inodesPerGroup * fs.inodeSize ≤ fs.inodeBlocksPerGroup * fs.blocksize := by
        rw [hf.tableBlocks]
        have := Nat.div_add_mod (fs.inodesPerGroup * fs.inodeSize + fs.blocksize - 1) fs.blocksize
        have hlt := Nat.mod_lt (fs.inodesPerGroup * fs.inodeSize + fs.blocksize - 1)
          (lt_of_lt_of_le (by decide) hf.blocksize_ge : 0 < fs.blocksize)
        rw [Nat.mul_comm (_ / _) fs.blocksize]
        omega
      have h1 : fs.used g * fs.inodeSize ≤ fs.inodesPerGroup * fs.inodeSize :=
        Nat.mul_le_mul_right _ hle
      have h2 : fs.inodeBlocksPerGroup * fs.blocksize ≤ (2 ^ 16 - m) * fs.blocksize :=
        Nat.mul_le_mul_right _ hmax
      have h3 : (2 ^ 16 - m) * fs.blocksize + fs.blocksize ≤ 2 ^ 16 * fs.blocksize := by
        rcases Nat.lt_or_ge m (2 ^ 16) with hlt | hge
        · rw [← Nat.succ_mul]
          exact Nat.mul_le_mul_right _ (by omega)
        · rw [Nat.sub_eq_zero_of_le hge, Nat.zero_mul, Nat.zero_add]
          exact Nat.le_mul_of_pos_left _ (by decide)
      have h4 : 2 ^ 16 * fs.blocksize ≤ 2 ^ 16 * 2 ^ 16 := Nat.mul_le_mul_left _ hbs16
      omega
    rw [if_pos hcsum, hdiv, Nat.mod_eq_of_lt hsmall, hceil]
  · have hall : fs.used g = fs.inodesPerGroup := by rw [hused, ScanFs.inodesLeft, if_neg hcsum]
    rw [if_neg hcsum, hf.tableBlocks, hall]

end Sizes

/-! ### The list of inodes -/

theorem ScanFs.groupsFrom_eq (h : g < fs.groupDescCount) :
    fs.groupsFrom g = fs.inodesFrom g 0 ++ fs.groupsFrom (g + 1) := by
  obtain ⟨n, hn⟩ : ∃ n, fs.groupDescCount - g = n + 1 := ⟨fs.groupDescCount - g - 1, by omega⟩
  have hn' : fs.groupDescCount - (g + 1) = n := by omega
  rw [ScanFs.groupsFrom, ScanFs.groupsFrom, hn, hn', List.range'_succ, List.flatMap_cons,
    ScanFs.inodesFrom, List.range_eq_range', Nat.sub_zero]

theorem ScanFs.groupsFrom_end (h : fs.groupDescCount ≤ g) : fs.groupsFrom g = [] := by
  rw [ScanFs.groupsFrom, Nat.sub_eq_zero_of_le h]
  rfl

theorem ScanFs.inodesFrom_eq (h : i < fs.used g) :
    fs.inodesFrom g i = (g, i) :: fs.inodesFrom g (i + 1) := by
  obtain ⟨n, hn⟩ : ∃ n, fs.used g - i = n + 1 := ⟨fs.used g - i - 1, by omega⟩
  have hn' : fs.used g - (i + 1) = n := by omega
  rw [ScanFs.inodesFrom, ScanFs.inodesFrom, hn, hn', List.range'_succ, List.map_cons]

theorem ScanFs.inodesFrom_end (h : fs.used g ≤ i) : fs.inodesFrom g i = [] := by
  rw [ScanFs.inodesFrom, Nat.sub_eq_zero_of_le h]
  rfl

theorem ScanFs.mem_groupsFrom (hg : g < fs.groupDescCount) (hi : i < fs.used g) :
    (g, i) ∈ fs.groupsFrom 0 := by
  refine List.mem_flatMap.mpr ⟨g, ?_, List.mem_map.mpr ⟨i, List.mem_range.mpr hi, rfl⟩⟩
  rw [List.mem_range'_1]
  omega

/-! ### The list of bad blocks -/

/-- A bad block of the used part of a table that is behind the first blocks of the tables before. -/
def ScanFs.Detects (fs : ScanFs) (g c : ℕ) : Prop :=
  fs.inodeTableLoc g + c ∈ fs.badblocks ∧
    ∀ g₀ < g, fs.used g₀ ≠ 0 → fs.inodeTableLoc g₀ < fs.inodeTableLoc g + c

/-- The bad blocks still to come when `c` blocks of the table of group `g` were read. -/
structure Ahead (fs : ScanFs) (g c : ℕ) (ahead : List ℕ) : Prop where
  sub : ∀ y ∈ ahead, y ∈ fs.badblocks
  sorted : ahead.Pairwise (· ≤ ·)
  before : ∀ y ∈ ahead, ∀ g₀ < g, fs.used g₀ ≠ 0 → fs.inodeTableLoc g₀ ≤ y
  start : ∀ y ∈ ahead, c ≠ 0 → fs.inodeTableLoc g ≤ y
  kept : ∀ y ∈ fs.badblocks,
    (∀ g₀ < g, fs.used g₀ ≠ 0 → fs.inodeTableLoc g₀ + fs.inodeBlocksPerGroup ≤ y) →
      (c ≠ 0 ∨ fs.used g ≠ 0 → fs.inodeTableLoc g + c ≤ y) → y ∈ ahead

theorem ahead_init (hf : fs.Regular) : Ahead fs 0 0 fs.badblocks where
  sub := fun _ hy => hy
  sorted := hf.sorted
  before := fun _ _ _ h => absurd h (Nat.not_lt_zero _)
  start := fun _ _ h => absurd rfl h
  kept := fun _ hy _ _ => hy

/-- The bad blocks to come are those of the table that can be found. -/
theorem Ahead.mem_iff (hf : fs.Regular) {ahead : List ℕ} (h : Ahead fs g c ahead)
    (hg : g < fs.groupDescCount) {b : ℕ} (hcb : c ≤ b) (hb : b < fs.inodeBlocksPerGroup) :
    fs.inodeTableLoc g + b ∈ ahead ↔ fs.Detects g b := by
  constructor
  · intro hmem
    refine ⟨h.sub _ hmem, fun g₀ hg₀ hused => ?_⟩
    have hle := h.before _ hmem g₀ hg₀ hused
    have := hf.apart g hg g₀ (by omega) (by omega)
    omega
  · rintro ⟨hbad, hbefore⟩
    refine h.kept _ hbad (fun g₀ hg₀ hused => ?_) fun _ => by omega
    have hlt := hbefore g₀ hg₀ hused
    have := hf.apart g hg g₀ (by omega) (by omega)
    omega

/-- The list after a block was looked at. -/
theorem Ahead.move {ahead ahead' : List ℕ} (h : Ahead fs g c ahead) {c' : ℕ} (hc : c < c')
    (hsub : ahead'.Sublist ahead) (hge : ∀ y ∈ ahead', fs.inodeTableLoc g + c ≤ y)
    (hkept : ∀ y ∈ ahead, fs.inodeTableLoc g + c < y → y ∈ ahead') : Ahead fs g c' ahead' where
  sub := fun y hy => h.sub y (hsub.subset hy)
  sorted := h.sorted.sublist hsub
  before := fun y hy => h.before y (hsub.subset hy)
  start := fun y hy _ => (Nat.le_add_right _ _).trans (hge y hy)
  kept := by
    intro y hy hbefore hfrom
    have hlt : fs.inodeTableLoc g + c' ≤ y := hfrom (Or.inl (by omega))
    exact hkept y (h.kept y hy hbefore fun _ => by omega) (by omega)

/-- The list in the next group. -/
theorem Ahead.next {ahead : List ℕ} (h : Ahead fs g c ahead) (hc : c ≤ fs.inodeBlocksPerGroup)
    (hused : fs.used g ≠ 0 ↔ c ≠ 0) : Ahead fs (g + 1) 0 ahead where
  sub := h.sub
  sorted := h.sorted
  before := by
    intro y hy g₀ hg₀ h₀
    rcases Nat.lt_or_ge g₀ g with hlt | hge
    · exact h.before y hy g₀ hlt h₀
    · obtain rfl : g₀ = g := by omega
      exact h.start y hy (hused.mp h₀)
  start := fun _ _ h0 => absurd rfl h0
  kept := by
    intro y hy hbefore _
    refine h.kept y hy (fun g₀ hg₀ => hbefore g₀ (by omega)) fun hc0 => ?_
    have := hbefore g (Nat.lt_succ_self g) (hc0.elim hused.mpr id)
    omega

theorem le_of_mem_dropWhile {l : List ℕ} {b y : ℕ} (hl : l.Pairwise (· ≤ ·))
    (h : y ∈ l.dropWhile (· < b)) : b ≤ y := by
  induction l with
  | nil => exact absurd h List.not_mem_nil
  | cons z l ih =>
    by_cases hz : z < b
    · rw [List.dropWhile_cons, if_pos (decide_eq_true hz)] at h
      exact ih hl.of_cons h
    · rw [List.dropWhile_cons_of_neg (by simpa using hz)] at h
      rcases List.mem_cons.mp h with rfl | h
      · exact Nat.le_of_not_lt hz
      · exact (Nat.le_of_not_lt hz).trans (List.rel_of_pairwise_cons hl h)

theorem mem_dropWhile_of_le {l : List ℕ} {b y : ℕ} (h : y ∈ l) (hb : b ≤ y) :
    y ∈ l.dropWhile (· < b) := by
  rw [← List.takeWhile_append_dropWhile (p := fun z => decide (z < b)) (l := l)] at h
  rcases List.mem_append.mp h with h | h
  · have hlt : decide (y < b) = true := List.mem_takeWhile_imp (p := fun z => decide (z < b)) h
    have := of_decide_eq_true hlt
    omega
  · exact h

theorem drop_skipBelow (fs : ScanFs) (blk p : ℕ) :
    fs.badblocks.drop (skipBelow fs blk p) = (fs.badblocks.drop p).dropWhile (· < blk) := by
  rw [skipBelow, ← List.drop_drop]
  conv_lhs => rw [← List.takeWhile_append_dropWhile (p := fun y => decide (y < blk))
    (l := fs.badblocks.drop p)]
  exact List.drop_left' (by rw [List.takeWhile_append_dropWhile])

/-- The bad blocks still to come in a scan. -/
def InodeScan.ahead (fs : ScanFs) (scan : InodeScan) : List ℕ := fs.badblocks.drop scan.badBlockPtr

/-- A scan that looks for bad blocks as long as there are any. -/
def InodeScan.Looks (fs : ScanFs) (scan : InodeScan) : Prop :=
  scan.chkBadblocks = true ∨ scan.ahead fs = []

/-- What `get_next_blocks` decides to read, at block `c` of the table. -/
structure ChosenBlocks (fs : ScanFs) (g c wanted : ℕ) (scan scan' : InodeScan) (num : ℕ) :
    Prop where
  eq : ∃ p chk bad, scan' = { scan with badBlockPtr := p, chkBadblocks := chk, badInodeBlk := bad }
  looks : scan'.Looks fs
  pos : 0 < num
  le : num ≤ wanted
  ahead : Ahead fs g (c + num) (scan'.ahead fs)
  flag : ∀ b, c ≤ b → b < c + num → b < fs.inodeBlocksPerGroup →
    (scan'.badInodeBlk = true ↔ fs.Detects g b)
  single : scan'.badInodeBlk = true → num = 1 ∧ fs.inodeTableLoc g + c ∈ fs.badblocks
  most : scan'.badInodeBlk = false → num = wanted ∨ fs.Detects g (c + num)

section ChosenBlocks

variable {scan : InodeScan} {wanted : ℕ}

/-- No bad block is found in what is read. -/
theorem chosen_clear (ha : Ahead fs g c (scan.ahead fs)) (hbad : scan.badInodeBlk = false)
    {p num : ℕ} {chk : Bool} (hg : g < fs.groupDescCount) (hf : fs.Regular)
    (hlooks : chk = true ∨ fs.badblocks.drop p = []) (hpos : 0 < num) (hle : num ≤ wanted)
    (hahead : Ahead fs g (c + num) (fs.badblocks.drop p))
    (hclear : ∀ b, c ≤ b → b < c + num → fs.inodeTableLoc g + b ∉ scan.ahead fs)
    (hmost : num = wanted ∨ fs.Detects g (c + num)) :
    ChosenBlocks fs g c wanted scan { scan with badBlockPtr := p, chkBadblocks := chk } num where
  eq := ⟨p, chk, scan.badInodeBlk, rfl⟩
  looks := hlooks
  pos := hpos
  le := hle
  ahead := hahead
  flag := by
    intro b hcb hb hlt
    refine iff_of_false (by simp [hbad]) fun hdet => ?_
    exact hclear b hcb hb ((ha.mem_iff hf hg hcb hlt).mpr hdet)
  single := fun h => absurd (hbad.symm.trans h) Bool.false_ne_true
  most := fun _ => hmost

/-- What the check for bad blocks decides. -/
theorem exists_chosen (hf : fs.Regular) (hg : g < fs.groupDescCount)
    (hc : c + wanted ≤ fs.inodeBlocksPerGroup) (hwanted : 0 < wanted)
    (ha : Ahead fs g c (scan.ahead fs))
    (hblk : scan.currentBlock = fs.inodeTableLoc g + c) (hbad : scan.badInodeBlk = false)
    (hlooks : scan.Looks fs) :
    ∃ num scan', (if scan.chkBadblocks then checkForInodeBadBlocks fs scan wanted
      else (wanted, scan)) =
      (num, scan') ∧ ChosenBlocks fs g c wanted scan scan' num := by
  by_cases hchk : scan.chkBadblocks = true
  · obtain ⟨p, hp⟩ : ∃ p, p = skipBelow fs scan.currentBlock scan.badBlockPtr := ⟨_, rfl⟩
    have hdrop : fs.badblocks.drop p = (scan.ahead fs).dropWhile (· < scan.currentBlock) := by
      rw [hp]
      exact drop_skipBelow fs _ _
    have hsub : (fs.badblocks.drop p).Sublist (scan.ahead fs) := hdrop ▸ List.dropWhile_sublist _
    have hge : ∀ y ∈ fs.badblocks.drop p, fs.inodeTableLoc g + c ≤ y := fun y hy =>
      hblk ▸ le_of_mem_dropWhile ha.sorted (hdrop ▸ hy)
    have hfrom : ∀ y ∈ scan.ahead fs, fs.inodeTableLoc g + c ≤ y → y ∈ fs.badblocks.drop p :=
      fun y hy hle =>
      hdrop ▸ mem_dropWhile_of_le hy (hblk ▸ hle)
    have hmove : ∀ {n}, 0 < n → Ahead fs g (c + n) (fs.badblocks.drop p) := fun hn =>
      ha.move (by omega) hsub hge fun y hy hlt => hfrom y hy hlt.le
    rw [if_pos hchk, checkForInodeBadBlocks, if_neg (by have := (hf.tables g hg).1; omega)]
    dsimp only
    rw [← hp, ← List.head?_drop]
    rcases hrest : fs.badblocks.drop p with _ | ⟨y, rest⟩
    · -- there are no bad blocks left
      rw [List.head?_nil]
      refine ⟨_, _, rfl, chosen_clear ha hbad hg hf (Or.inr hrest) hwanted le_rfl
        (hmove hwanted) ?_ (Or.inl rfl)⟩
      intro b hb _ hmem
      have := hfrom _ hmem (by omega)
      rw [hrest] at this
      exact List.not_mem_nil this
    · rw [List.head?_cons]
      have hyle : ∀ z ∈ fs.badblocks.drop p, y ≤ z := by
        intro z hz
        have hsorted := ha.sorted.sublist hsub
        rw [hrest] at hz hsorted
        rcases List.mem_cons.mp hz with rfl | hz
        · exact le_rfl
        · exact List.rel_of_pairwise_cons hsorted hz
      have hymem : y ∈ fs.badblocks.drop p := hrest ▸ List.mem_cons_self
      have hybad : y ∈ fs.badblocks := List.mem_of_mem_drop hymem
      have hyge := hge y hymem
      have htail : fs.badblocks.drop (p + 1) = rest := by
        rw [← List.drop_drop, hrest, List.drop_one, List.tail_cons]
      dsimp only
      by_cases hy : scan.currentBlock = y
      · -- the bad block is read alone
        have hyc : fs.inodeTableLoc g + c = y := hblk.symm.trans hy
        rw [if_pos hy]
        refine ⟨_, _, rfl, ⟨p + 1, _, true, rfl⟩, ?_, Nat.one_pos, hwanted, ?_, ?_,
          fun _ => ⟨rfl, hyc ▸ hybad⟩, fun h => absurd h.symm Bool.false_ne_true⟩
        · by_cases hend : p + 1 < fs.badblocks.length
          · exact Or.inl (by simp [hchk, hend])
          · exact Or.inr (List.drop_eq_nil_of_le (Nat.le_of_not_lt hend))
        · change Ahead fs g (c + 1) (fs.badblocks.drop (p + 1))
          refine ha.move (Nat.lt_succ_self c) ?_ (fun z hz => ?_) fun z hz hlt => ?_
          · exact (htail ▸ hrest ▸ List.sublist_cons_self y rest :
              (fs.badblocks.drop (p + 1)).Sublist
              (fs.badblocks.drop p)).trans hsub
          · rw [htail] at hz
            exact hge z (hrest ▸ List.mem_cons_of_mem y hz)
          · have hz' := hfrom z hz hlt.le
            rw [hrest] at hz'
            rw [htail]
            exact (List.mem_cons.mp hz').resolve_left (by omega)
        · intro b hcb hb hlt
          obtain rfl : b = c := by omega
          exact iff_of_true rfl ((ha.mem_iff hf hg le_rfl hlt).mp (hyc ▸ hsub.subset hymem))
      · rw [if_neg hy]
        have hlt : fs.inodeTableLoc g + c < y := by omega
        have hnum : 0 < (if y < scan.currentBlock + wanted then y - scan.currentBlock
            else wanted) := by
          split_ifs
          all_goals omega
        refine ⟨_, _, rfl, chosen_clear ha hbad hg hf (Or.inl hchk) hnum ?_ (hmove hnum)
          (fun b hb hbn hmem => ?_) ?_⟩
        · split_ifs
          all_goals omega
        · have := hyle _ (hfrom _ hmem (by omega))
          split_ifs at hbn
          all_goals omega
        · split_ifs
          · refine Or.inr ((ha.mem_iff hf hg (Nat.le_add_right _ _) (by omega)).mp ?_)
            rw [hblk, show fs.inodeTableLoc g + (c + (y - (fs.inodeTableLoc g + c))) = y by omega]
            exact hsub.subset hymem
          · exact Or.inl rfl
  · have hnil : scan.ahead fs = [] := hlooks.resolve_left hchk
    rw [if_neg hchk]
    have hahead : Ahead fs g (c + wanted) (scan.ahead fs) :=
      ha.move (by omega) (List.Sublist.refl _) (fun y hy => by simp [hnil] at hy) fun y hy _ => hy
    refine ⟨_, _, rfl, chosen_clear ha hbad hg hf hlooks hwanted le_rfl hahead ?_ (Or.inl rfl)⟩
    intro b _ _ hmem
    rw [hnil] at hmem
    exact List.not_mem_nil hmem

end ChosenBlocks

/-! ### The place of a scan -/

/-- The parts of a scan that stay as they are in a group. -/
structure Place (fs : ScanFs) (bufferBlocks : ℤ) (g : ℕ) (scan : InodeScan) : Prop where
  group : g < fs.groupDescCount
  inGroup : scan.currentGroup = g
  groupsLeft : scan.groupsLeft = fs.groupDescCount - 1 - g
  doLazy : scan.doLazy = fs.groupDescCsum
  blocks : scan.inodeBufferBlocks = scanBlocks bufferBlocks
  size : scan.bufferSize = max fs.ioAlign (fs.scanBytes bufferBlocks)
  looks : scan.Looks fs

/-- A scan that has just come to a group. -/
structure Arrived (fs : ScanFs) (bufferBlocks : ℤ) (g : ℕ) (scan : InodeScan) : Prop
    extends Place fs bufferBlocks g scan where
  ahead : Ahead fs g 0 (scan.ahead fs)
  block : scan.currentBlock = fs.inodeTableLoc g
  ino : scan.currentInode = g * fs.inodesPerGroup
  inodesLeft : scan.inodesLeft = fs.inodesLeft g
  blocksLeft : scan.blocksLeft = fs.blocksLeft g
  bytes : scan.bytesLeft = 0

/-- A scan whose next inode is inode `i` of a group, with a window that ends in front of block
`c`. -/
structure Window (fs : ScanFs) (bufferBlocks : ℤ) (g i c : ℕ) (scan : InodeScan) : Prop
    extends Place fs bufferBlocks g scan where
  ahead : Ahead fs g c (scan.ahead fs)
  block : scan.currentBlock = fs.inodeTableLoc g + c
  ino : scan.currentInode = g * fs.inodesPerGroup + i
  used : fs.used g ≠ 0
  le : i ≤ fs.used g
  inodesLeft : scan.inodesLeft = fs.used g - i
  reach : c ≤ fs.usedBlocks g
  blocksLeft : scan.blocksLeft = fs.usedBlocks g - c
  bytes : i * fs.inodeSize + scan.bytesLeft = c * fs.blocksize
  flag : ∀ b < c, i * fs.inodeSize < (b + 1) * fs.blocksize →
    (scan.badInodeBlk = true ↔ fs.Detects g b)
  content : scan.badInodeBlk = false → ∀ k < scan.bytesLeft,
    scan.inodeBuffer (scan.ptr + k) = fs.tableByte g (i * fs.inodeSize + k)
  /-- The window was read at once, up to where it had to end. -/
  chunk : c ≠ 0 → ∃ a num, a + num = c ∧ a * fs.blocksize ≤ i * fs.inodeSize ∧
    num * fs.blocksize ≤ max fs.ioAlign (fs.scanBytes bufferBlocks) ∧
      (num = scanBlocks bufferBlocks ∨ c = fs.usedBlocks g ∨ fs.inodeTableLoc g + c ∈ fs.badblocks ∨
        num = 1 ∧ fs.inodeTableLoc g + a ∈ fs.badblocks)

theorem ScanFs.used_eq (h : fs.used g ≠ 0) : fs.used g = fs.inodesLeft g := by
  rw [ScanFs.used] at h ⊢
  split_ifs at h ⊢
  · exact absurd rfl h
  · rfl

theorem scanBlocks_pos {bufferBlocks : ℤ} (h : -2 ^ 31 ≤ bufferBlocks)
    (h' : bufferBlocks < 2 ^ 31) :
    0 < scanBlocks bufferBlocks := by
  rw [scanBlocks]
  split_ifs
  all_goals omega

section Steps

variable {bufferBlocks : ℤ} {scan : InodeScan}

theorem Arrived.window (hf : fs.Regular) (h : Arrived fs bufferBlocks g scan)
    (hused : fs.used g ≠ 0) :
    Window fs bufferBlocks g 0 0 scan where
  toPlace := h.toPlace
  ahead := h.ahead
  block := h.block
  ino := h.ino
  used := hused
  le := Nat.zero_le _
  inodesLeft := h.inodesLeft.trans (ScanFs.used_eq hused).symm
  reach := Nat.zero_le _
  blocksLeft := h.blocksLeft.trans (hf.blocksLeft_eq hused)
  bytes := by rw [h.bytes, Nat.zero_mul, Nat.zero_mul]
  flag := fun _ hb => absurd hb (Nat.not_lt_zero _)
  content := fun _ k hk => absurd (h.bytes ▸ hk) (Nat.not_lt_zero k)
  chunk := fun h0 => absurd rfl h0

/-- The window after blocks were put into the buffer. -/
theorem Window.served (hf : fs.Regular) (h : Window fs bufferBlocks g i c scan)
    (h0 : scan.bytesLeft = 0) {num : ℕ} {chosen : InodeScan} {buffer : Block}
    (hch : ChosenBlocks fs g c (min (scanBlocks bufferBlocks) (fs.usedBlocks g - c))
      { scan with badInodeBlk := false } chosen num)
    (hfit : num * fs.blocksize ≤ max fs.ioAlign (fs.scanBytes bufferBlocks))
    (hbuf : chosen.badInodeBlk = false → ∀ k < num * fs.blocksize,
      buffer k = fs.disk (fs.inodeTableLoc g + c + k / fs.blocksize) (k % fs.blocksize)) :
    Window fs bufferBlocks g i (c + num) (chosen.served fs num buffer) := by
  obtain ⟨p, chk, bad, rfl⟩ := hch.eq
  have hstart : i * fs.inodeSize = c * fs.blocksize := by
    have := h.bytes
    omega
  have hnum : num ≤ fs.usedBlocks g - c := hch.le.trans (min_le_right _ _)
  have hreach := h.reach
  have hbs := hf.blocksize_ge
  exact
    { group := h.group
      inGroup := h.inGroup
      groupsLeft := h.groupsLeft
      doLazy := h.doLazy
      blocks := h.blocks
      size := h.size
      looks := hch.looks
      ahead := hch.ahead
      block := by
        have hne := (hf.tables g h.group).1
        have hblk := h.block
        rw [InodeScan.served]
        dsimp only
        rw [if_neg (by omega), hblk, Nat.add_assoc]
      ino := h.ino
      used := h.used
      le := h.le
      inodesLeft := h.inodesLeft
      reach := by omega
      blocksLeft := by
        rw [InodeScan.served]
        dsimp only
        rw [h.blocksLeft]
        omega
      bytes := by
        rw [InodeScan.served]
        dsimp only
        rw [hstart, Nat.add_mul]
      -- the flag tells of every block from the first of the chunk on
      flag := by
        intro b hb hib
        have hcb : c ≤ b := by
          rw [hstart] at hib
          exact Nat.le_of_lt_succ (Nat.lt_of_mul_lt_mul_right hib)
        exact hch.flag b hcb hb (by have := hf.usedBlocks_le g; omega)
      content := by
        intro hbad k hk
        refine (congrArg buffer (Nat.zero_add k)).trans ((hbuf hbad k hk).trans ?_)
        rw [ScanFs.tableByte, hstart, Nat.mul_comm c, Nat.mul_add_div (by omega), Nat.mul_add_mod,
          Nat.add_assoc]
      -- the chunk is as long as the buffer, ends the table, or ends before a bad block
      chunk := by
        refine fun _ => ⟨c, num, rfl, hstart.ge, hfit, ?_⟩
        cases hflag : bad with
        | true => exact Or.inr (Or.inr (Or.inr (hch.single hflag)))
        | false =>
          rcases hch.most hflag with hmost | hmost
          · rcases le_total (scanBlocks bufferBlocks) (fs.usedBlocks g - c) with hle | hle
            · exact Or.inl (hmost.trans (min_eq_left hle))
            · refine Or.inr (Or.inl ?_)
              rw [min_eq_right hle] at hmost
              omega
          · exact Or.inr (Or.inr (Or.inl hmost.1)) }

/-- A call that hands back no inode. -/
def NoInode (answer : Option (ScanAnswer × InodeScan)) : Prop :=
  answer = none ∨ ∃ err scan', answer = some (⟨some err, none, []⟩, scan')

/-- What is read is bad or as large as it may be, and when the scan works it fits. -/
theorem ChosenBlocks.fits {chosen : InodeScan} {num : ℕ} {before : InodeScan} (hf : fs.Regular)
    (hg : g < fs.groupDescCount)
    (hch : ChosenBlocks fs g c (min (scanBlocks bufferBlocks) (fs.usedBlocks g - c))
      before chosen num)
    (hc : c < fs.usedBlocks g) (hs : Scannable fs bufferBlocks) :
    num * fs.blocksize ≤ max fs.ioAlign (fs.scanBytes bufferBlocks) ∧
      (chosen.badInodeBlk = false → ∀ k < num, fs.inodeTableLoc g + c + k ∉ fs.badblocks) := by
  have hle := hch.le
  have hclear : chosen.badInodeBlk = false →
      ∀ k < num, fs.inodeTableLoc g + c + k ∉ fs.badblocks := by
    intro hflag k hk hbad
    have hused := hf.usedBlocks_le g
    rw [Nat.add_assoc] at hbad
    have hdet : fs.Detects g (c + k) := ⟨hbad, hs.behind g hg (c + k) (by omega) hbad⟩
    have := (hch.flag (c + k) (by omega) (by omega) (by omega)).mpr hdet
    exact Bool.false_ne_true (hflag.symm.trans this)
  refine ⟨hs.fits g hg c num (by omega) (by omega) ?_, hclear⟩
  cases hflag : chosen.badInodeBlk with
  | true => exact Or.inl (hch.single hflag).1
  | false => exact Or.inr (hclear hflag)

/-- The block behind an empty window is used when there are inodes left. -/
theorem Window.lt_usedBlocks (hf : fs.Regular) (h : Window fs bufferBlocks g i c scan)
    (hi : i < fs.used g) (h0 : scan.bytesLeft = 0) : c < fs.usedBlocks g := by
  have hstart : i * fs.inodeSize = c * fs.blocksize := by
    have := h.bytes
    omega
  rw [hf.lt_usedBlocks, ← hstart]
  exact Nat.mul_lt_mul_of_pos_right hi hf.inodeSize_pos

/-- When nothing was read, the bad blocks still to come are the same. -/
theorem ChosenBlocks.stays {chosen before : InodeScan} {num wanted : ℕ} (hf : fs.Regular)
    (hg : g < fs.groupDescCount)
    (hused : fs.used g ≠ 0) (hch : ChosenBlocks fs g c wanted before chosen num)
    (hc : c + wanted ≤ fs.inodeBlocksPerGroup) (hbad : chosen.badInodeBlk = false) :
    Ahead fs g c (chosen.ahead fs) where
  sub := hch.ahead.sub
  sorted := hch.ahead.sorted
  before := hch.ahead.before
  start := by
    have := hch.pos
    exact fun y hy _ => hch.ahead.start y hy (by omega)
  kept := by
    intro y hy hbefore hfrom
    refine hch.ahead.kept y hy hbefore fun _ => ?_
    by_contra hlt
    have hle := hch.le
    have hge := hfrom (Or.inr hused)
    obtain ⟨b, rfl⟩ := Nat.exists_eq_add_of_le ((Nat.le_add_right _ _).trans hge)
    -- it would have been found
    have hdet : fs.Detects g b := by
      refine ⟨hy, fun g₀ hg₀ h₀ => ?_⟩
      have := hbefore g₀ hg₀ h₀
      have := hf.apart g hg g₀ (by omega) (by omega)
      omega
    have hfound := (hch.flag b (by omega) (by omega) (by omega)).mpr hdet
    exact Bool.false_ne_true (hbad.symm.trans hfound)

/-- What reading more blocks comes to. -/
theorem Window.getNextBlocks (hf : fs.Regular)
    (hint : -2 ^ 31 ≤ bufferBlocks ∧ bufferBlocks < 2 ^ 31)
    (h : Window fs bufferBlocks g i c scan) (hi : i < fs.used g) (h0 : scan.bytesLeft = 0) :
    ∃ num chosen,
      ChosenBlocks fs g c (min (scanBlocks bufferBlocks) (fs.usedBlocks g - c))
        { scan with badInodeBlk := false } chosen num ∧
      (E2fsprogs.getNextBlocks fs scan = none ∧
        max fs.ioAlign (fs.scanBytes bufferBlocks) < num * fs.blocksize ∨
        (E2fsprogs.getNextBlocks fs scan = some (some .nextInodeRead, chosen) ∧
          chosen.badInodeBlk = false ∧
          ¬∀ k < num, fs.readable (fs.inodeTableLoc g + c + k) = true) ∨
        num * fs.blocksize ≤ max fs.ioAlign (fs.scanBytes bufferBlocks) ∧
          ∃ buffer : Block, E2fsprogs.getNextBlocks fs scan = some (none,
            chosen.served fs num buffer) ∧
            (chosen.badInodeBlk = false → ∀ k,
              buffer k = fs.disk (fs.inodeTableLoc g + c + k / fs.blocksize)
                (k % fs.blocksize))) := by
  have hc := h.lt_usedBlocks hf hi h0
  have hle := hf.usedBlocks_le g
  have hB := scanBlocks_pos hint.1 hint.2
  have hleave : scan.leaveBadBlock = { scan with badInodeBlk := false } := by
    rw [InodeScan.leaveBadBlock]
    cases hbad : scan.badInodeBlk with
    | true => rw [if_pos rfl, h0, decide_eq_false (fun hne => hne rfl), Bool.or_false]
    | false =>
      rw [if_neg Bool.false_ne_true, ← hbad]
  have hahead : Ahead fs g c (InodeScan.ahead fs { scan with badInodeBlk := false }) := h.ahead
  have hpos : 0 < min (scanBlocks bufferBlocks) (fs.usedBlocks g - c) := by omega
  obtain ⟨num, chosen, heq, hch⟩ :=
    exists_chosen hf h.group (by omega) hpos hahead h.block rfl h.looks
  have hwanted : min scan.inodeBufferBlocks scan.blocksLeft = min (scanBlocks bufferBlocks)
      (fs.usedBlocks g - c) := by
    rw [h.blocks, h.blocksLeft]
  have hsize : chosen.bufferSize = max fs.ioAlign (fs.scanBytes bufferBlocks) := by
    obtain ⟨p, chk, bad, rfl⟩ := hch.eq
    exact h.size
  have hblock : chosen.currentBlock = fs.inodeTableLoc g + c := by
    obtain ⟨p, chk, bad, rfl⟩ := hch.eq
    exact h.block
  have hne : fs.inodeTableLoc g + c ≠ 0 := by
    have := (hf.tables g h.group).1
    omega
  refine ⟨num, chosen, hch, ?_⟩
  rw [E2fsprogs.getNextBlocks, hleave]
  dsimp only at heq ⊢
  rw [hwanted, heq]
  dsimp only
  rw [hsize, hblock, decide_eq_false hne, Bool.or_false]
  -- a buffer that is too small, bad blocks that are not read, a failed read, or the blocks
  by_cases hfit : max fs.ioAlign (fs.scanBytes bufferBlocks) < num * fs.blocksize
  · rw [if_pos hfit]
    exact Or.inl ⟨rfl, hfit⟩
  · rw [if_neg hfit]
    have hle := Nat.le_of_not_lt hfit
    cases hbad : chosen.badInodeBlk with
    | true =>
      rw [if_pos rfl]
      exact Or.inr (Or.inr ⟨hle, _, rfl, fun hno => absurd hno.symm Bool.false_ne_true⟩)
    | false =>
      rw [if_neg Bool.false_ne_true, ScanFs.readBlocks]
      by_cases hread : ∀ k < num, fs.readable (fs.inodeTableLoc g + c + k) = true
      · rw [if_pos hread]
        exact Or.inr (Or.inr ⟨hle, _, rfl, fun _ _ => rfl⟩)
      · rw [if_neg hread]
        exact Or.inr (Or.inl ⟨rfl, rfl, hread⟩)

/-- A window that could not be filled stays as it was. -/
theorem Window.unread (hf : fs.Regular) (h : Window fs bufferBlocks g i c scan)
    (h0 : scan.bytesLeft = 0) {num : ℕ}
    {chosen : InodeScan} (hch :
      ChosenBlocks fs g c (min (scanBlocks bufferBlocks) (fs.usedBlocks g - c))
      { scan with badInodeBlk := false } chosen num)
    (hbad : chosen.badInodeBlk = false) : Window fs bufferBlocks g i c chosen := by
  have hle := hf.usedBlocks_le g
  have hreach := h.reach
  have hahead := hch.stays hf h.group h.used (by omega) hbad
  have hlooks := hch.looks
  obtain ⟨p, chk, bad, rfl⟩ := hch.eq
  have hstart : i * fs.inodeSize = c * fs.blocksize := by
    have := h.bytes
    omega
  exact
    { h with
      looks := hlooks
      ahead := hahead
      flag := fun b hb hib => by
        rw [hstart] at hib
        have := Nat.lt_of_mul_lt_mul_right hib
        omega
      content := fun _ k hk => absurd (h0 ▸ hk : k < 0) (Nat.not_lt_zero k) }

/-- **A window is filled when it is empty**, unless more is read than fits or a bad block is
read. -/
theorem Window.refill (hf : fs.Regular) (hint : -2 ^ 31 ≤ bufferBlocks ∧ bufferBlocks < 2 ^ 31)
    (h : Window fs bufferBlocks g i c scan) (hi : i < fs.used g) (h0 : scan.bytesLeft = 0) :
    (E2fsprogs.getNextBlocks fs scan = none ∨ ∃ err scan',
      E2fsprogs.getNextBlocks fs scan = some (some err, scan')) ∧
        ¬Scannable fs bufferBlocks ∨
      ∃ scan' c', E2fsprogs.getNextBlocks fs scan = some (none, scan') ∧
      Window fs bufferBlocks g i c' scan' ∧ c < c' := by
  have hc := h.lt_usedBlocks hf hi h0
  obtain ⟨num, chosen, hch, ⟨hnone, hlt⟩ | ⟨herr, hbad, hread⟩ | ⟨hfit, buffer, hok, hbuf⟩⟩ :=
    h.getNextBlocks hf hint hi h0
  · exact Or.inl ⟨Or.inl hnone,
      fun hs => absurd (hch.fits hf h.group hc hs).1 (Nat.not_le_of_lt hlt)⟩
  · refine Or.inl ⟨Or.inr ⟨_, _, herr⟩, fun hs => hread fun k hk => ?_⟩
    have hclear := (hch.fits hf h.group hc hs).2 hbad k hk
    have hnum := hch.le
    have hle := hf.usedBlocks_le g
    rw [Nat.add_assoc] at hclear ⊢
    exact hf.readable g h.group (c + k) (by omega) hclear
  · have hpos := hch.pos
    exact Or.inr ⟨_, _, hok, h.served hf h0 hch hfit fun hno k _ => hbuf hno k, by omega⟩

/-- The answer for an inode, which says what can be found out about its block. -/
structure ScanFs.Hands (fs : ScanFs) (bufsize g i : ℕ) (answer : ScanAnswer) : Prop where
  ino : answer.ino = some (g * fs.inodesPerGroup + i + 1)
  bad : answer.err = some .badBlockInInodeTable ↔ fs.Detects g (i * fs.inodeSize / fs.blocksize)
  bytes : fs.inodeBlock g i ∉ fs.badblocks → answer.inode =
    (List.range (min bufsize fs.inodeSize)).map fun k => fs.tableByte g (i * fs.inodeSize + k)

/-- A window that is not empty has a whole inode. -/
theorem Window.inodeSize_le (hf : fs.Regular) (h : Window fs bufferBlocks g i c scan)
    (h0 : scan.bytesLeft ≠ 0) :
    fs.inodeSize ≤ scan.bytesLeft := by
  obtain ⟨m, -, hmul⟩ := hf.blocksize_eq
  refine Nat.le_of_dvd (Nat.pos_of_ne_zero h0) ?_
  refine (Nat.dvd_add_right (Nat.dvd_mul_left fs.inodeSize i)).mp ?_
  rw [h.bytes, hmul, ← Nat.mul_assoc]
  exact Nat.dvd_mul_left _ _

/-- **An inode is taken from the window.** -/
theorem Window.take (hf : fs.Regular) (h : Window fs bufferBlocks g i c scan) (hi : i < fs.used g)
    (h0 : scan.bytesLeft ≠ 0) (leftOver : Block) (bufsize : ℕ) :
    ∃ answer scan', takeInode fs leftOver 0 scan bufsize = some (answer, scan') ∧
    fs.Hands bufsize g i answer ∧
      Window fs bufferBlocks g (i + 1) c scan' := by
  have hbs := hf.blocksize_ge
  have hbytes := h.bytes
  have hrest := h.inodeSize_le hf h0
  obtain ⟨b, hb⟩ : ∃ b, b = i * fs.inodeSize / fs.blocksize := ⟨_, rfl⟩
  have hbc : b < c := by
    rw [hb, Nat.div_lt_iff_lt_mul (by omega)]
    omega
  have hib : i * fs.inodeSize < (b + 1) * fs.blocksize := by
    rw [hb, Nat.mul_comm (_ / _ + 1)]
    exact Nat.lt_mul_div_succ _ (by omega)
  have hflag := h.flag b hbc hib
  have hsucc : (i + 1) * fs.inodeSize = i * fs.inodeSize + fs.inodeSize := Nat.succ_mul _ _
  rw [takeInode]
  dsimp only
  rw [Nat.sub_zero, if_neg (Nat.not_lt.mpr hrest)]
  refine ⟨_, _, rfl, ⟨by rw [h.ino], ?_, fun hgood => ?_⟩, ?_⟩
  -- the error answered is the verdict on the block that the inode begins in
  · rw [← hb, ← hflag]
    cases scan.badInodeBlk with
    | true => exact iff_of_true rfl rfl
    | false =>
      refine iff_of_false (fun herr => ?_) Bool.false_ne_true
      rw [if_pos rfl, if_neg Bool.false_ne_true] at herr
      split_ifs at herr
      all_goals cases herr
  · have hclear : scan.badInodeBlk = false := by
      rw [← Bool.not_eq_true, hflag]
      exact fun hdet => hgood (by rw [ScanFs.inodeBlock, ← hb]; exact hdet.1)
    refine List.map_congr_left fun k hk => ?_
    have hlt : k < fs.inodeSize := (List.mem_range.mp hk).trans_le (min_le_right _ _)
    rw [if_neg (Nat.not_lt_zero k), Nat.sub_zero]
    exact h.content hclear k (hlt.trans_le hrest)
  · exact
      { group := h.group
        inGroup := h.inGroup
        groupsLeft := h.groupsLeft
        doLazy := h.doLazy
        blocks := h.blocks
        size := h.size
        looks := h.looks
        ahead := h.ahead
        block := h.block
        ino := by
          dsimp only
          rw [h.ino, Nat.add_assoc]
        used := h.used
        le := hi
        inodesLeft := by
          dsimp only
          rw [h.inodesLeft]
          omega
        reach := h.reach
        blocksLeft := h.blocksLeft
        bytes := by
          dsimp only
          omega
        flag := fun b hb hlt => h.flag b hb (by omega)
        content := by
          intro hclear k hk
          dsimp only at hk ⊢
          rw [Nat.add_assoc, hsucc, Nat.add_assoc]
          exact h.content hclear _ (by omega)
        chunk := by
          intro hc
          obtain ⟨a, num, hsum, hle, hrest⟩ := h.chunk hc
          exact ⟨a, num, hsum, by omega, hrest⟩ }

/-- A group that is scanned is left when it has no inodes left. -/
theorem Window.leavesGroup_iff (h : Window fs bufferBlocks g i c scan) :
    leavesGroup fs scan = true ↔ i = fs.used g := by
  have hinit : (scan.doLazy && fs.inodeUninit scan.currentGroup) = false := by
    have := h.used
    rw [ScanFs.used] at this
    rw [h.doLazy, h.inGroup, ← Bool.not_eq_true]
    exact fun htrue => this (if_pos htrue)
  have hle := h.le
  rw [leavesGroup, hinit, Bool.or_false, decide_eq_true_eq, h.inodesLeft]
  omega

/-- **The next inode of a group.** The window it is taken from is filled when it is empty. -/
theorem Window.next (hf : fs.Regular) (hint : -2 ^ 31 ≤ bufferBlocks ∧ bufferBlocks < 2 ^ 31)
    (h : Window fs bufferBlocks g i c scan) (hi : i < fs.used g) (bufsize : ℕ) :
    NoInode (nextOfGroup fs scan bufsize) ∧ ¬Scannable fs bufferBlocks ∨
      ∃ answer scan' c', nextOfGroup fs scan bufsize = some (answer, scan') ∧
      fs.Hands bufsize g i answer ∧
        Window fs bufferBlocks g (i + 1) c' scan' ∧
          ∃ filled, Window fs bufferBlocks g i c' filled ∧ filled.bytesLeft ≠ 0 := by
  have hne : scan.currentBlock ≠ 0 := by
    have := (hf.tables g h.group).1
    have := h.block
    omega
  rw [nextOfGroup, if_neg hne]
  by_cases h0 : scan.bytesLeft = 0
  · rw [if_pos (h0 ▸ hf.inodeSize_pos)]
    rcases h.refill hf hint hi h0 with ⟨hnone | ⟨err, scan', herr⟩, hnot⟩ |
      ⟨scan', c', hok, hwin, hlt⟩
    · rw [hnone]
      exact Or.inl ⟨Or.inl rfl, hnot⟩
    · rw [herr]
      exact Or.inl ⟨Or.inr ⟨err, scan', rfl⟩, hnot⟩
    · rw [hok, h0]
      have hfull : scan'.bytesLeft ≠ 0 := by
        have hb := h.bytes
        have hb' := hwin.bytes
        have hbs := hf.blocksize_ge
        have : (c + 1) * fs.blocksize ≤ c' * fs.blocksize := Nat.mul_le_mul_right _ hlt
        rw [Nat.succ_mul] at this
        omega
      obtain ⟨answer, scan'', htake, hhands, hwin'⟩ :=
        hwin.take hf hi hfull (fun k => scan.inodeBuffer (scan.ptr + k)) bufsize
      exact Or.inr ⟨answer, scan'', c', htake, hhands, hwin', scan', hwin, hfull⟩
  · obtain ⟨answer, scan', htake, hhands, hwin⟩ := h.take hf hi h0 (fun _ => 0) bufsize
    rw [if_neg (Nat.not_lt.mpr (h.inodeSize_le hf h0))]
    exact Or.inr ⟨answer, scan', c, htake, hhands, hwin, scan, h, h0⟩

end Steps

end ScanWindow

end E2fsprogs
