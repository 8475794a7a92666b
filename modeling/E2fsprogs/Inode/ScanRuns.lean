import E2fsprogs.Inode.ScanWindow

/-!
# What a scan of the inode tables hands back

The place in the list of bad blocks is never moved back, so that the bad blocks of an inode table
are only found when the tables of the groups scanned before start in front of them.
-/

namespace E2fsprogs

section ScanRuns

variable {fs : ScanFs} {g i c : ℕ}

section Steps

variable {bufferBlocks : ℤ} {scan : InodeScan}

/-! ### The groups -/

theorem ScanFs.Regular.inside (hf : fs.Regular) (hg : g < fs.groupDescCount) :
    fs.tableOutside g = false := by
  obtain ⟨hne, hfirst, hlast⟩ := hf.tables g hg
  rw [ScanFs.tableOutside]
  rw [decide_eq_false (Nat.not_lt.mpr hfirst), Bool.false_or,
    decide_eq_false (p := fs.blocksCount ≤ _) (by omega), Bool.and_false]

/-- **The next group.** -/
theorem Place.getNextBlockgroup (hf : fs.Regular) (h : Place fs bufferBlocks g scan)
    (ha : Ahead fs (g + 1) 0 (scan.ahead fs)) (hg : g + 1 < fs.groupDescCount) :
    ∃ scan', getNextBlockgroup fs scan = (none, scan') ∧ Arrived fs bufferBlocks (g + 1) scan' ∧
      scan'.warnGarbageInodes = scan.warnGarbageInodes := by
  have hsmall : (g + 1) * fs.inodesPerGroup < 2 ^ 32 :=
    (Nat.mul_le_mul_right _ hg.le).trans_lt hf.count
  rw [E2fsprogs.getNextBlockgroup, h.inGroup]
  rw [hf.inside hg, if_neg Bool.false_ne_true]
  exact ⟨_, rfl,
    { group := hg
      inGroup := rfl
      groupsLeft := by
        dsimp only
        rw [h.groupsLeft]
        omega
      doLazy := h.doLazy
      blocks := h.blocks
      size := h.size
      looks := h.looks
      ahead := ha
      block := rfl
      ino := Nat.mod_eq_of_lt hsmall
      inodesLeft := rfl
      blocksLeft := rfl
      bytes := rfl }, rfl⟩

theorem Arrived.leavesGroup_iff (h : Arrived fs bufferBlocks g scan) :
    leavesGroup fs scan = true ↔ fs.used g = 0 := by
  rw [leavesGroup, h.doLazy, h.inGroup, h.inodesLeft, ScanFs.used]
  cases fs.groupDescCsum && fs.inodeUninit g with
  | true => simp
  | false => simp

/-- A scan that was not changed, or that has come to a group without inodes. -/
def WentPast (fs : ScanFs) (bufferBlocks : ℤ) (scan scan' : InodeScan) : Prop :=
  scan' = scan ∨ ∃ g, Arrived fs bufferBlocks g scan' ∧ fs.used g = 0

/-- **The search for a group with inodes** finds the next one that has any. -/
theorem Place.forceNewGroup (hf : fs.Regular) (h : Place fs bufferBlocks g scan)
    (ha : Ahead fs (g + 1) 0 (scan.ahead fs)) {n : ℕ} (hn : fs.groupDescCount - 1 - g = n) :
    (∃ scan', forceNewGroup fs n scan = .ended scan' ∧ WentPast fs bufferBlocks scan scan' ∧
        scan'.warnGarbageInodes = scan.warnGarbageInodes) ∧ fs.groupsFrom (g + 1) = [] ∨
      ∃ g' scan', forceNewGroup fs n scan = .atGroup scan' ∧ Window fs bufferBlocks g' 0 0 scan' ∧
        scan'.warnGarbageInodes = scan.warnGarbageInodes ∧
        fs.groupsFrom (g + 1) = fs.inodesFrom g' 0 ++ fs.groupsFrom (g' + 1) := by
  have hgroup := h.group
  induction n generalizing g scan with
  | zero => exact Or.inl ⟨⟨scan, rfl, Or.inl rfl, rfl⟩, ScanFs.groupsFrom_end (by omega)⟩
  | succ n ih =>
    have hg : g + 1 < fs.groupDescCount := by omega
    obtain ⟨scan', heq, harr, hwarn⟩ := h.getNextBlockgroup hf ha hg
    rw [E2fsprogs.forceNewGroup, heq]
    dsimp only
    by_cases hused : fs.used (g + 1) = 0
    · rw [if_pos (harr.leavesGroup_iff.mpr hused)]
      have hnext : Ahead fs (g + 1 + 1) 0 (scan'.ahead fs) :=
        harr.ahead.next (Nat.zero_le _) (iff_of_false (fun h0 => h0 hused) fun h0 => h0 rfl)
      rw [ScanFs.groupsFrom_eq hg, ScanFs.inodesFrom_end hused.le, List.nil_append, ← hwarn]
      rcases ih harr.toPlace hnext (by omega) hg with ⟨⟨scan'', hend, hpass, hkept⟩, hnil⟩ | hat
      · refine Or.inl ⟨⟨scan'', hend, Or.inr ?_, hkept⟩, hnil⟩
        rcases hpass with rfl | hlater
        · exact ⟨g + 1, harr, hused⟩
        · exact hlater
      · exact Or.inr hat
    · rw [if_neg fun hleave => hused (harr.leavesGroup_iff.mp hleave)]
      exact Or.inr ⟨g + 1, scan', rfl, harr.window hf hused, hwarn, ScanFs.groupsFrom_eq hg⟩

/-- The bad blocks still to come behind a group that was scanned. -/
theorem Window.nextAhead (hf : fs.Regular) (h : Window fs bufferBlocks g i c scan)
    (hend : i = fs.used g) :
    Ahead fs (g + 1) 0 (scan.ahead fs) := by
  have hc : c ≠ 0 := by
    rintro rfl
    have hbytes := h.bytes
    have hpos := Nat.mul_pos (Nat.pos_of_ne_zero h.used) hf.inodeSize_pos
    rw [← hend] at hpos
    omega
  exact h.ahead.next (h.reach.trans (hf.usedBlocks_le g)) (iff_of_true h.used hc)

/-- The inodes that are still to come in a scan. -/
def ToCome (fs : ScanFs) (bufferBlocks : ℤ) (inodes : List (ℕ × ℕ)) (scan : InodeScan) : Prop :=
  (∃ g i c, Window fs bufferBlocks g i c scan ∧
    inodes = fs.inodesFrom g i ++ fs.groupsFrom (g + 1)) ∨
    ∃ g, Arrived fs bufferBlocks g scan ∧ fs.used g = 0 ∧ inodes = fs.groupsFrom (g + 1)

/-- A call ends the scan, or it is about the first inode to come. -/
def CallsFor (fs : ScanFs) (bufferBlocks : ℤ) (bufsize : ℕ) (inodes : List (ℕ × ℕ))
    (scan : InodeScan) : Prop :=
  inodes = [] ∧ (∃ scan', getNextInodeFull fs scan bufsize = some (⟨none, some 0, []⟩, scan')) ∨
    ∃ g i c scan' rest, inodes = (g, i) :: rest ∧ Window fs bufferBlocks g i c scan' ∧
      i < fs.used g ∧
      rest = fs.inodesFrom g (i + 1) ++ fs.groupsFrom (g + 1) ∧
        getNextInodeFull fs scan bufsize = nextOfGroup fs scan' bufsize

theorem Place.callsFor (hf : fs.Regular) (h : Place fs bufferBlocks g scan)
    (ha : Ahead fs (g + 1) 0 (scan.ahead fs)) (hleaves : leavesGroup fs scan = true) (bufsize : ℕ) :
    CallsFor fs bufferBlocks bufsize (fs.groupsFrom (g + 1)) scan := by
  rw [CallsFor, getNextInodeFull, if_pos hleaves, h.groupsLeft]
  rcases h.forceNewGroup hf ha rfl with ⟨⟨scan', hend, -, -⟩, hnil⟩ |
    ⟨g', scan', hat, hwin, -, hfrom⟩
  · rw [hend]
    exact Or.inl ⟨hnil, scan', rfl⟩
  · rw [hat]
    have hpos : 0 < fs.used g' := Nat.pos_of_ne_zero hwin.used
    rw [ScanFs.inodesFrom_eq hpos] at hfrom
    exact Or.inr ⟨g', 0, 0, scan', _, hfrom, hwin, hpos, rfl, rfl⟩

theorem ToCome.callsFor (hf : fs.Regular) {inodes : List (ℕ × ℕ)}
    (h : ToCome fs bufferBlocks inodes scan)
    (bufsize : ℕ) : CallsFor fs bufferBlocks bufsize inodes scan := by
  rcases h with ⟨g, i, c, hwin, rfl⟩ | ⟨g, harr, hused, rfl⟩
  · by_cases hi : i < fs.used g
    · rw [CallsFor, getNextInodeFull, if_neg fun hleaves => hi.ne (hwin.leavesGroup_iff.mp hleaves),
        ScanFs.inodesFrom_eq hi]
      exact Or.inr ⟨g, i, c, scan, _, rfl, hwin, hi, rfl, rfl⟩
    · have hend : i = fs.used g := le_antisymm hwin.le (Nat.le_of_not_lt hi)
      rw [ScanFs.inodesFrom_end hend.ge, List.nil_append]
      exact hwin.toPlace.callsFor hf (hwin.nextAhead hf hend)
        (hwin.leavesGroup_iff.mpr hend) bufsize
  · refine harr.toPlace.callsFor hf ?_ (harr.leavesGroup_iff.mpr hused) bufsize
    exact harr.ahead.next (Nat.zero_le _) (iff_of_false (fun h0 => h0 hused) fun h0 => h0 rfl)

/-! ### Whole scans -/

theorem ScanFs.Hands.answersFor (hf : fs.Regular) {bufsize : ℕ} {answer : ScanAnswer}
    (h : fs.Hands bufsize g i answer) (hg : g < fs.groupDescCount) (hi : i < fs.used g)
    (hs : Scannable fs bufferBlocks) : fs.AnswersFor bufsize answer (g, i) where
  ino := h.ino
  bad := by
    refine h.bad.trans ⟨fun hdet => hdet.1, fun hbad => ⟨hbad, hs.behind g hg _ ?_ hbad⟩⟩
    rw [hf.lt_usedBlocks]
    exact (Nat.div_mul_le_self _ _).trans_lt (Nat.mul_lt_mul_of_pos_right hi hf.inodeSize_pos)
  bytes := h.bytes

/-- **A scan that works hands back every inode that is still to come.** -/
theorem ToCome.scanRun (hf : fs.Regular) (hint : -2 ^ 31 ≤ bufferBlocks ∧ bufferBlocks < 2 ^ 31)
    (hs : Scannable fs bufferBlocks) (bufsize : ℕ) {inodes : List (ℕ × ℕ)}
    (h : ToCome fs bufferBlocks inodes scan) :
    ∃ fuel answers, scanRun fs bufsize fuel scan = some answers ∧
    List.Forall₂ (fs.AnswersFor bufsize) answers inodes := by
  induction inodes generalizing scan with
  | nil =>
    rcases h.callsFor hf bufsize with ⟨-, scan', hend⟩ | ⟨g, i, c, scan', rest, hcons, -⟩
    · refine ⟨1, [], ?_, List.Forall₂.nil⟩
      rw [E2fsprogs.scanRun, hend]
      exact if_pos rfl
    · cases hcons
  | cons inode rest ih =>
    rcases h.callsFor hf bufsize with ⟨hnil, -⟩ |
      ⟨g, i, c, scan', rest', hcons, hwin, hi, hrest, hcall⟩
    · cases hnil
    · obtain ⟨rfl, rfl⟩ := List.cons.inj hcons
      rcases hwin.next hf hint hi bufsize with ⟨-, hnot⟩ |
        ⟨answer, scan'', c', hnext, hhands, hwin', -⟩
      · exact absurd hs hnot
      · obtain ⟨fuel, answers, hrun, hall⟩ := ih (Or.inl ⟨g, i + 1, c', hwin', hrest⟩)
        refine ⟨fuel + 1, answer :: answers, ?_,
          List.Forall₂.cons (hhands.answersFor hf hwin.group hi hs) hall⟩
        have hne : answer.ino ≠ some 0 := by
          rw [hhands.ino]
          exact fun h0 => absurd (Option.some.inj h0) (Nat.succ_ne_zero _)
        rw [E2fsprogs.scanRun, hcall, hnext]
        dsimp only
        rw [if_neg hne, hrun]
        rfl

/-- What a scan that handed back the right inodes came through. -/
theorem ToCome.passed (hf : fs.Regular) (hint : -2 ^ 31 ≤ bufferBlocks ∧ bufferBlocks < 2 ^ 31)
    {bufsize fuel : ℕ}
    {inodes : List (ℕ × ℕ)} {answers : List ScanAnswer} (h : ToCome fs bufferBlocks inodes scan)
    (hrun : E2fsprogs.scanRun fs bufsize fuel scan = some answers)
    (hall : List.Forall₂ (fs.AnswersFor bufsize) answers inodes) :
    ∀ inode ∈ inodes, (fs.inodeBlock inode.1 inode.2 ∈ fs.badblocks →
        fs.Detects inode.1 (inode.2 * fs.inodeSize / fs.blocksize)) ∧
      ∃ c filled, Window fs bufferBlocks inode.1 inode.2 c filled ∧ filled.bytesLeft ≠ 0 := by
  induction inodes generalizing scan fuel answers with
  | nil => exact fun _ hmem => absurd hmem List.not_mem_nil
  | cons inode rest ih =>
    rcases h.callsFor hf bufsize with ⟨hnil, -⟩ |
      ⟨g, i, c, scan', rest', hcons, hwin, hi, hrest, hcall⟩
    · cases hnil
    · obtain ⟨rfl, rfl⟩ := List.cons.inj hcons
      cases fuel with
      | zero => cases hrun
      | succ fuel =>
        rw [E2fsprogs.scanRun, hcall] at hrun
        rcases hwin.next hf hint hi bufsize with ⟨hnone | ⟨err, scan'', herr⟩, -⟩ |
          ⟨answer, scan'', c', hnext, hhands, hwin', filled, hfilled, hfull⟩
        · rw [hnone] at hrun
          cases hrun
        · rw [herr] at hrun
          obtain ⟨tail, -, rfl⟩ := Option.map_eq_some_iff.mp hrun
          obtain ⟨hfirst, -⟩ := List.forall₂_cons.mp hall
          cases hfirst.ino
        · rw [hnext] at hrun
          have hne : answer.ino ≠ some 0 := by
            rw [hhands.ino]
            exact fun h0 => absurd (Option.some.inj h0) (Nat.succ_ne_zero _)
          dsimp only at hrun
          rw [if_neg hne] at hrun
          obtain ⟨tail, htail, rfl⟩ := Option.map_eq_some_iff.mp hrun
          obtain ⟨hfirst, hothers⟩ := List.forall₂_cons.mp hall
          intro inode hmem
          rcases List.mem_cons.mp hmem with rfl | hmem
          · exact ⟨fun hbad => hhands.bad.mp (hfirst.bad.mpr hbad), c', filled, hfilled, hfull⟩
          · exact ih (Or.inl ⟨g, i + 1, c', hwin', hrest⟩) htail hothers inode hmem

theorem Arrived.of_open (hf : fs.Regular) (h : openInodeScan fs bufferBlocks = some (.ok scan)) :
    Arrived fs bufferBlocks 0 scan := by
  rw [openInodeScan] at h
  split_ifs at h
  all_goals cases h
  exact
    { group := hf.groups
      inGroup := rfl
      groupsLeft := rfl
      doLazy := rfl
      blocks := rfl
      size := rfl
      looks := by
        by_cases hnil : fs.badblocks = []
        · exact Or.inr hnil
        · exact Or.inl (decide_eq_true hnil)
      ahead := ahead_init hf
      block := rfl
      ino := (Nat.zero_mul _).symm
      inodesLeft := rfl
      blocksLeft := rfl
      bytes := rfl }

/-- All inodes are to come in a fresh scan. -/
theorem ToCome.of_open (hf : fs.Regular) (h : openInodeScan fs bufferBlocks = some (.ok scan)) :
    ToCome fs bufferBlocks (fs.groupsFrom 0) scan := by
  have harr := Arrived.of_open hf h
  by_cases hused : fs.used 0 = 0
  · refine Or.inr ⟨0, harr, hused, ?_⟩
    rw [ScanFs.groupsFrom_eq hf.groups, ScanFs.inodesFrom_end hused.le, List.nil_append]
  · exact Or.inl ⟨0, 0, 0, harr.window hf hused, ScanFs.groupsFrom_eq hf.groups⟩

theorem exists_openInodeScan (hf : fs.Regular) :
    (∃ scan, openInodeScan fs bufferBlocks = some (.ok scan)) ↔
      fs.scanBytes bufferBlocks < 2 ^ 31 ∧ fs.inodeSize + scanBlocks bufferBlocks < 2 ^ 32 := by
  have hbs := hf.blocksize_ge
  rw [openInodeScan, if_neg (Nat.not_lt.mpr hbs), hf.inside hf.groups, if_neg Bool.false_ne_true]
  constructor
  · rintro ⟨scan, h⟩
    split_ifs at h with hbytes hblocks
    exact ⟨Nat.lt_of_not_le hbytes, Nat.lt_of_not_le hblocks⟩
  · rintro ⟨hbytes, hblocks⟩
    rw [if_neg (Nat.not_le_of_lt hbytes), if_neg (Nat.not_le_of_lt hblocks)]
    exact ⟨_, rfl⟩

theorem Scannable.scansAll (hf : fs.Regular) (hint : -2 ^ 31 ≤ bufferBlocks ∧ bufferBlocks < 2 ^ 31)
    (hs : Scannable fs bufferBlocks) (bufsize : ℕ) : ScansAll fs bufferBlocks bufsize := by
  obtain ⟨scan, hopen⟩ := (exists_openInodeScan hf).mpr ⟨hs.bytes, hs.blocks⟩
  exact ⟨scan, hopen, (ToCome.of_open hf hopen).scanRun hf hint hs bufsize⟩

theorem ScansAll.scannable (hf : fs.Regular) (hint : -2 ^ 31 ≤ bufferBlocks ∧ bufferBlocks < 2 ^ 31)
    {bufsize : ℕ} (h : ScansAll fs bufferBlocks bufsize) : Scannable fs bufferBlocks := by
  obtain ⟨scan, hopen, fuel, answers, hrun, hall⟩ := h
  have hbs := hf.blocksize_ge
  have hpos := hf.inodeSize_pos
  obtain ⟨m, hm, hmul⟩ := hf.blocksize_eq
  obtain ⟨hbytes, hblocks⟩ := (exists_openInodeScan hf).mp ⟨scan, hopen⟩
  have hpassed := (ToCome.of_open hf hopen).passed hf hint hrun hall
  -- the first inode of a block stands for the block
  have hfirst : ∀ {g c}, c < fs.usedBlocks g → c * m * fs.inodeSize = c * fs.blocksize ∧
      c * m < fs.used g := by
    intro g c hc
    have heq : c * m * fs.inodeSize = c * fs.blocksize := by rw [hmul, Nat.mul_assoc]
    rw [hf.lt_usedBlocks, ← heq] at hc
    exact ⟨heq, Nat.lt_of_mul_lt_mul_right hc⟩
  refine ⟨hbytes, hblocks, fun g hg c hc hbad => ?_, fun g hg c n hn hcn hclear => ?_⟩
  · obtain ⟨heq, hi⟩ := hfirst hc
    have hdet := (hpassed (g, c * m) (ScanFs.mem_groupsFrom hg hi)).1
    dsimp only at hdet
    rw [ScanFs.inodeBlock, heq, Nat.mul_div_cancel _ (by omega)] at hdet
    exact (hdet hbad).2
  · rcases Nat.eq_zero_or_pos n with rfl | hn0
    · rw [Nat.zero_mul]
      exact Nat.zero_le _
    · obtain ⟨heq, hi⟩ := hfirst (g := g) (c := c) (by omega)
      obtain ⟨c', filled, hwin, hfull⟩ := (hpassed (g, c * m) (ScanFs.mem_groupsFrom hg hi)).2
      have hstart := hwin.bytes
      dsimp only at hstart hwin
      rw [heq] at hstart
      have hlt : c < c' := Nat.lt_of_mul_lt_mul_right (a := fs.blocksize) (by omega)
      obtain ⟨a, num, hsum, hle, hfit, hends⟩ := hwin.chunk (by omega)
      rw [heq] at hle
      have hac : a ≤ c := Nat.le_of_mul_le_mul_right hle (by omega)
      refine (Nat.mul_le_mul_right _ ?_).trans hfit
      rcases hclear with rfl | hclear
      · omega
      rcases hends with hmax | hend | hbad | ⟨hone, hbad⟩
      · omega
      · omega
      · by_contra hcon
        refine hclear (c' - c) (by omega) ?_
        rwa [Nat.add_assoc, Nat.add_sub_cancel' hlt.le]
      · refine absurd hbad ?_
        rw [show a = c by omega]
        exact hclear 0 hn0

/-- **When a scan hands back every inode.** The place in the list of bad blocks is not moved back
for a group whose table is in front of one that was scanned, and with a negative argument a window
may be larger than its buffer. -/
theorem scansAll_iff (hf : fs.Regular) (hint : -2 ^ 31 ≤ bufferBlocks ∧ bufferBlocks < 2 ^ 31)
    (bufsize : ℕ) :
    ScansAll fs bufferBlocks bufsize ↔ Scannable fs bufferBlocks :=
  ⟨fun h => h.scannable hf hint, fun h => h.scansAll hf hint bufsize⟩

end Steps

/-! ### Two small file systems -/

/-- Groups of eight inodes, with tables of one block. -/
def smallScan (groupDescCount : ℕ) (inodeTableLoc : ℕ → ℕ) (badblocks : List ℕ) : ScanFs where
  blocksize := 1024
  inodeSize := 128
  inodesPerGroup := 8
  inodeBlocksPerGroup := 1
  groupDescCount := groupDescCount
  firstDataBlock := 1
  blocksCount := 64
  groupDescCsum := false
  ignoreCsumErrors := false
  inodeTableLoc := inodeTableLoc
  itableUnused := fun _ => 0
  inodeUninit := fun _ => false
  badblocks := badblocks
  ioAlign := 0
  csumVerify := fun _ _ => true
  readable := fun _ => true
  disk := fun _ _ => 0

theorem smallScan_regular {groupDescCount : ℕ} {inodeTableLoc : ℕ → ℕ} {badblocks : List ℕ}
    (hpos : 0 < groupDescCount) (hcount : groupDescCount * 8 < 2 ^ 32)
    (htables : ∀ g < groupDescCount, 1 ≤ inodeTableLoc g ∧ inodeTableLoc g + 1 ≤ 64)
    (hapart : ∀ g < groupDescCount, ∀ g' < groupDescCount, g ≠ g' →
      inodeTableLoc g ≠ inodeTableLoc g')
    (hsorted : badblocks.Pairwise (· ≤ ·)) :
    (smallScan groupDescCount inodeTableLoc badblocks).Regular where
  blocks := ⟨10, le_rfl, by decide, rfl⟩
  size := ⟨7, le_rfl, rfl⟩
  le := (by decide : 128 ≤ 1024)
  perGroup := (by decide : 0 < 8)
  groups := hpos
  count := hcount
  tableBlocks := (by decide : 1 = (8 * 128 + 1024 - 1) / 1024)
  tableMax := (by decide : 1 ≤ 2 ^ 16 - 1024 / 128)
  tables :=
    fun g hg => ⟨by have := (htables g hg).1; exact Nat.pos_iff_ne_zero.mp this, htables g hg⟩
  apart := fun g hg g' hg' hne => Nat.lt_or_gt_of_ne (hapart g hg g' hg' hne)
  sorted := hsorted
  readable := fun _ _ _ _ _ => rfl

theorem smallScan_usedBlocks (groupDescCount : ℕ) (inodeTableLoc : ℕ → ℕ)
    (badblocks : List ℕ) (g : ℕ) :
    (smallScan groupDescCount inodeTableLoc badblocks).usedBlocks g = 1 :=
  (by decide : (8 * 128 + 1024 - 1) / 1024 = 1)

/-- With one group a bad block of its table is found. -/
theorem scansAll_oneTable : ScansAll (smallScan 1 (fun _ => 5) [5]) 0 128 := by
  refine (scansAll_iff (smallScan_regular Nat.one_pos (by decide) (fun _ _ => by decide) ?_ ?_)
    (by decide) 128).mpr ?_
  · intro g hg g' hg'
    omega
  · exact List.pairwise_singleton _ _
  · refine ⟨by decide, by decide, fun g hg c hc hbad g₀ hg₀ => ?_, fun g hg c n hn hcn _ => ?_⟩
    · change g < 1 at hg
      omega
    · rw [smallScan_usedBlocks] at hcn
      calc n * 1024 ≤ 1 * 1024 := Nat.mul_le_mul_right _ (by omega)
        _ ≤ max 0 (1024 * 8) := by decide

/-- With the second table in front of the first a bad block of it is not found. -/
theorem not_scansAll_backwards :
    (smallScan 2 (fun g => if g = 0 then 10 else 5) [5]).Regular ∧
      ¬ScansAll (smallScan 2 (fun g => if g = 0 then 10 else 5) [5]) 0 128 := by
  have hf : (smallScan 2 (fun g => if g = 0 then 10 else 5) [5]).Regular := by
    refine smallScan_regular (by decide) (by decide) (by decide) (by decide)
      (List.pairwise_singleton _ _)
  refine ⟨hf, fun h => ?_⟩
  have hs := h.scannable hf (by decide)
  have := hs.behind 1 (by decide) 0 (by decide) (by decide) 0 (by decide) (by decide)
  exact absurd this (by decide)

end ScanRuns

end E2fsprogs
