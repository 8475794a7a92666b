import E2fsprogs.Inode.ScanRuns
import E2fsprogs.Inode.ScanVerdicts

/-!
# Garbage that a scan of the inode tables reports

What was found out about a block of the window is stored at its place in the window, and looked up
at its number in the table modulo the size of a full window. The two are the same until a window was
cut short in front of a bad block: behind it an inode may be judged by another block of its window,
or by none.
-/

namespace E2fsprogs

section ScanGarbage

variable {fs : ScanFs} {g i c : ℕ}

/-! ### The blocks of a table -/

/-- The bytes of a table from one of its inodes on. -/
def ScanFs.slot (fs : ScanFs) (g e : ℕ) : Block := fun k => fs.tableByte g (e * fs.inodeSize + k)

/-- An inode whose checksum is wrong. -/
def ScanFs.csumWrong (fs : ScanFs) (g e : ℕ) : Bool :=
  !fs.csumVerify (g * fs.inodesPerGroup + e + 1) (fs.inodeBytes (fs.slot g e))

/-- An inode that is insane. -/
def ScanFs.insane (fs : ScanFs) (g e : ℕ) : Bool :=
  fs.csumWrong g e || (extentHeadLooksInsane (fs.slot g e) || blockMapLooksInsane fs (fs.slot g e))

/-- The inodes of a block that are scanned. -/
def ScanFs.scanned (fs : ScanFs) (g c : ℕ) : ℕ :=
  min fs.inodesPerBlock (fs.used g - c * fs.inodesPerBlock)

/-- Those of them that are insane. -/
def ScanFs.insaneCount (fs : ScanFs) (g c : ℕ) : ℕ :=
  Nat.count (fun d => fs.insane g (c * fs.inodesPerBlock + d)) (fs.scanned g c)

/-- A block that has more than half of its scanned inodes insane. -/
def ScanFs.MostlyInsane (fs : ScanFs) (g c : ℕ) : Prop := fs.scanned g c < 2 * fs.insaneCount g c

/-- A block with more insane inodes than half of those that fit. -/
def ScanFs.DeclaredBad (fs : ScanFs) (g c : ℕ) : Prop := fs.inodesPerBlock / 2 < fs.insaneCount g c

/-- A block that is scanned as a whole and not declared bad, with the right checksums. -/
def ScanFs.CsumsOk (fs : ScanFs) (g c : ℕ) : Prop :=
  fs.scanned g c = fs.inodesPerBlock ∧ ¬fs.DeclaredBad g c ∧
    ∀ d < fs.inodesPerBlock, fs.csumWrong g (c * fs.inodesPerBlock + d) = false

instance (g c : ℕ) : Decidable (fs.Detects g c) := inferInstanceAs (Decidable (_ ∧ _))

/-- The first block behind the last bad block in front of a block. -/
def ScanFs.windowBase (fs : ScanFs) (g : ℕ) : ℕ → ℕ
  | 0 => 0
  | c + 1 => if fs.Detects g c then c + 1 else fs.windowBase g c

/-- The first block of the window a block is in, when it is not bad. -/
def ScanFs.windowStart (fs : ScanFs) (places g c : ℕ) : ℕ :=
  fs.windowBase g c + (c - fs.windowBase g c) / places * places

/-- The block by which the inodes of a block are judged. -/
def ScanFs.pairedBlock (fs : ScanFs) (places g c : ℕ) : ℕ := fs.windowStart places g c + c % places

/-- That block is in the same window. -/
def ScanFs.Paired (fs : ScanFs) (places g c : ℕ) : Prop :=
  fs.pairedBlock places g c < fs.usedBlocks g ∧
    ∀ d ≤ fs.pairedBlock places g c, fs.windowStart places g c ≤ d → ¬fs.Detects g d

/-- **The block an inode is judged by gives it the verdict that it should have.** -/
structure ScanFs.JudgedRight (fs : ScanFs) (places g i : ℕ) : Prop where
  garbage : fs.Paired places g (i / fs.inodesPerBlock) ∧
    fs.DeclaredBad g (fs.pairedBlock places g (i / fs.inodesPerBlock)) ↔
    fs.MostlyInsane g (i / fs.inodesPerBlock)
  csum : fs.csumWrong g i = true →
    fs.Paired places g (i / fs.inodesPerBlock) ∧
      fs.DeclaredBad g (fs.pairedBlock places g (i / fs.inodesPerBlock)) ∨
      fs.ignoreCsumErrors = false ∧
        ¬(fs.Paired places g (i / fs.inodesPerBlock) ∧
          fs.CsumsOk g (fs.pairedBlock places g (i / fs.inodesPerBlock)))

/-- The answer for an inode outside bad blocks reports what there is to report. -/
structure ScanFs.ReportsRight (fs : ScanFs) (g i : ℕ) (answer : ScanAnswer) : Prop where
  csum : fs.csumWrong g i = true → answer.err = some .inodeCsumInvalid ∨
    answer.err = some .inodeIsGarbage
  garbage : answer.err = some .inodeIsGarbage ↔ fs.MostlyInsane g (i / fs.inodesPerBlock)

/-- The answers to some calls. -/
def scanCalls (fs : ScanFs) (bufsize : ℕ) : ℕ → InodeScan → Option (List ScanAnswer)
  | 0, _ => some []
  | n + 1, scan =>
    match getNextInodeFull fs scan bufsize with
    | none => none
    | some (answer, scan) => (scanCalls fs bufsize n scan).map (answer :: ·)

/-! ### Verdicts -/

/-- The verdict on a block of a table. -/
def ScanFs.verdict (fs : ScanFs) (g c : ℕ) : BlockStatus :=
  blockVerdict fs.inodesPerBlock (fs.used g - c * fs.inodesPerBlock)
    (fun d => fs.insane g (c * fs.inodesPerBlock + d))
    fun d => fs.csumWrong g (c * fs.inodesPerBlock + d)

theorem ScanFs.verdict_insane : (fs.verdict g c).insane = true ↔ fs.DeclaredBad g c :=
  decide_eq_true_iff

theorem ScanFs.verdict_csumsOk : (fs.verdict g c).csumsOk = true ↔ fs.CsumsOk g c := by
  have hwhole : fs.inodesPerBlock ≤ fs.used g - c * fs.inodesPerBlock ↔
      fs.scanned g c = fs.inodesPerBlock := by
    rw [ScanFs.scanned]
    omega
  have hnone : Nat.count (fun d => fs.csumWrong g (c * fs.inodesPerBlock + d)) fs.inodesPerBlock =
    0 ↔
      ∀ d < fs.inodesPerBlock, fs.csumWrong g (c * fs.inodesPerBlock + d) = false := by
    rw [Nat.count_iff_forall_not]
    simp only [Bool.not_eq_true]
  rw [ScanFs.verdict, blockVerdict]
  dsimp only
  rw [Bool.and_eq_true, Bool.and_eq_true, decide_eq_true_iff, decide_eq_true_iff,
    decide_eq_true_iff, hwhole, hnone, ScanFs.CsumsOk]
  refine and_congr_right fun hall => and_congr_left fun _ => ?_
  rw [ScanFs.DeclaredBad, ScanFs.insaneCount, hall, Nat.not_lt]

/-- A verdict depends on the inodes that fit in the block. -/
theorem blockVerdict_congr {m n n' : ℕ} (h : min m n = min m n') (insane badCsum : ℕ → Bool) :
    blockVerdict m n insane badCsum = blockVerdict m n' insane badCsum := by
  have hiff : m ≤ n ↔ m ≤ n' := by omega
  rw [blockVerdict, blockVerdict, h, decide_eq_decide.mpr hiff]

section Table

variable (hf : fs.Regular)

include hf

theorem ScanFs.Regular.blocksize_mul : fs.blocksize = fs.inodesPerBlock * fs.inodeSize := by
  obtain ⟨m, -, hm⟩ := hf.blocksize_eq
  rw [ScanFs.inodesPerBlock, hm, Nat.mul_div_cancel _ hf.inodeSize_pos]

theorem ScanFs.Regular.inodesPerBlock_pos : 0 < fs.inodesPerBlock :=
  Nat.div_pos hf.le hf.inodeSize_pos

/-- The block of an inode. -/
theorem ScanFs.Regular.div_blocksize (i : ℕ) :
    i * fs.inodeSize / fs.blocksize = i / fs.inodesPerBlock := by
  rw [hf.blocksize_mul, Nat.mul_div_mul_right _ _ hf.inodeSize_pos]

/-- The inodes of the blocks of a table are counted without an overflow. -/
theorem ScanFs.Regular.inodes_lt {n : ℕ} (h : n ≤ fs.inodeBlocksPerGroup) :
    n * fs.inodesPerBlock < 2 ^ 32 := by
  obtain ⟨e, -, he, hbs⟩ := hf.blocks
  obtain ⟨k, hk, hsize⟩ := hf.size
  have hmax : fs.inodeBlocksPerGroup ≤ 2 ^ 16 - fs.inodesPerBlock := hf.tableMax
  have hpos := hf.inodesPerBlock_pos
  have hlt : fs.inodesPerBlock < 2 ^ 16 := by
    rw [ScanFs.inodesPerBlock, hbs, hsize]
    refine (Nat.div_lt_self (Nat.two_pow_pos e) ?_).trans_le (Nat.pow_le_pow_right (by decide) he)
    exact Nat.one_lt_two_pow (by omega)
  calc n * fs.inodesPerBlock ≤ 2 ^ 16 * fs.inodesPerBlock := Nat.mul_le_mul_right _ (by omega)
    _ < 2 ^ 16 * 2 ^ 16 := Nat.mul_lt_mul_of_pos_left hlt (by decide)
    _ = 2 ^ 32 := by decide

/-- **The verdicts on a window are those on the blocks of the table.** -/
theorem ScanFs.Regular.verdictAt_eq {a num j : ℕ} {buffer : Block}
    (hbuf : ∀ k, buffer k = fs.tableByte g (a * fs.blocksize + k)) (hj : j < num) :
    fs.verdictAt buffer (g * fs.inodesPerGroup + a * fs.inodesPerBlock + 1)
      (min (fs.used g - a * fs.inodesPerBlock) (num * fs.inodesPerBlock)) j =
        fs.verdict g (a + j) := by
  have hslot : ∀ x, (fun k => buffer (x * fs.inodeSize + k)) =
      fs.slot g (a * fs.inodesPerBlock + x) := by
    intro x
    funext k
    rw [hbuf, hf.blocksize_mul, ScanFs.slot, Nat.add_mul, Nat.mul_assoc, Nat.add_assoc]
  have hbad : ∀ x, fs.badAt buffer (g * fs.inodesPerGroup + a * fs.inodesPerBlock + 1) x =
      fs.csumWrong g (a * fs.inodesPerBlock + x) := by
    intro x
    rw [ScanFs.badAt, hslot, ScanFs.csumWrong]
    congr 2
    omega
  have hins : ∀ x, fs.insaneAt buffer (g * fs.inodesPerGroup + a * fs.inodesPerBlock + 1) x =
      fs.insane g (a * fs.inodesPerBlock + x) := by
    intro x
    rw [ScanFs.insaneAt, hbad, hslot, ScanFs.insane]
  have hmul : (j + 1) * fs.inodesPerBlock ≤ num * fs.inodesPerBlock := Nat.mul_le_mul_right _ hj
  rw [Nat.succ_mul] at hmul
  rw [ScanFs.verdictAt, ScanFs.verdict, Nat.add_mul]
  simp only [hbad, hins]
  simp only [Nat.add_assoc]
  refine blockVerdict_congr ?_ _ _
  omega

end Table

/-! ### Windows -/

theorem ScanFs.windowBase_le (fs : ScanFs) (g c : ℕ) : fs.windowBase g c ≤ c := by
  induction c with
  | zero => exact le_rfl
  | succ c ih =>
    rw [ScanFs.windowBase]
    split_ifs
    · exact le_rfl
    · exact Nat.le_succ_of_le ih

theorem ScanFs.windowBase_eq {a : ℕ} (hac : a ≤ c) (hclear : ∀ d, a ≤ d → d < c → ¬fs.Detects g d) :
    fs.windowBase g c = fs.windowBase g a := by
  induction c, hac using Nat.le_induction with
  | base => rfl
  | succ c hac ih =>
    rw [ScanFs.windowBase, if_neg (hclear c hac (Nat.lt_succ_self c))]
    exact ih fun d hd hlt => hclear d hd (Nat.lt_succ_of_lt hlt)

/-- There is no bad block behind the last bad block. -/
theorem ScanFs.windowBase_clear {d : ℕ} (hd : fs.windowBase g c ≤ d) (hlt : d < c) :
    ¬fs.Detects g d := by
  induction c with
  | zero => exact absurd hlt (Nat.not_lt_zero d)
  | succ c ih =>
    rw [ScanFs.windowBase] at hd
    split_ifs at hd with hdet
    · omega
    · rcases Nat.lt_succ_iff_lt_or_eq.mp hlt with hlt | rfl
      · exact ih hd hlt
      · exact hdet

/-- A window without bad blocks, from block `a` of the table up to block `c`, with the verdicts on
its blocks. -/
structure FilledWindow (fs : ScanFs) (places g a c : ℕ) (scan : InodeScan) : Prop where
  start : places ∣ a - fs.windowBase g a
  clear : ∀ d, a ≤ d → d < c → ¬fs.Detects g d
  le : c ≤ a + places
  ends : c = a + places ∨ c = fs.usedBlocks g ∨ fs.Detects g c
  reach : c ≤ fs.usedBlocks g
  status : ∀ j < places, scan.blockStatus j = if a + j < c then fs.verdict g (a + j)
    else ⟨false, false⟩

section FilledWindow

variable {places a b : ℕ} {scan : InodeScan}

theorem FilledWindow.windowStart (h : FilledWindow fs places g a c scan) (hpos : 0 < places)
    (hab : a ≤ b) (hbc : b < c) :
    fs.windowStart places g b = a := by
  have hbase : fs.windowBase g b = fs.windowBase g a :=
    ScanFs.windowBase_eq hab fun d hd hlt => h.clear d hd (hlt.trans hbc)
  obtain ⟨k, hk⟩ := h.start
  have hle := fs.windowBase_le g a
  have hwidth := h.le
  have hsub : b - fs.windowBase g a = places * k + (b - a) := by omega
  rw [ScanFs.windowStart, hbase, hsub, Nat.mul_add_div hpos, Nat.div_eq_of_lt (by omega),
    Nat.add_zero, Nat.mul_comm, ← hk]
  omega

/-- **What is looked up for a block** is the verdict on the block that it is judged by, if that is
in the window. -/
theorem FilledWindow.lookup (h : FilledWindow fs places g a c scan) (hpos : 0 < places)
    (hab : a ≤ b) (hbc : b < c) :
    ((scan.blockStatus (b % places)).insane = true ↔
        fs.Paired places g b ∧ fs.DeclaredBad g (fs.pairedBlock places g b)) ∧
      ((scan.blockStatus (b % places)).csumsOk = true ↔
        fs.Paired places g b ∧ fs.CsumsOk g (fs.pairedBlock places g b)) := by
  have hstart := h.windowStart hpos hab hbc
  have hpair : fs.pairedBlock places g b = a + b % places := by rw [ScanFs.pairedBlock, hstart]
  have hmod := Nat.mod_lt b hpos
  -- the block is in the window when the window does not end in front of it
  have hin : fs.Paired places g b ↔ a + b % places < c := by
    rw [ScanFs.Paired, hpair, hstart]
    constructor
    · rintro ⟨hused, hclear⟩
      by_contra hout
      rcases h.ends with hend | hend | hdet
      · omega
      · omega
      · exact hclear c (Nat.le_of_not_lt hout) (hab.trans hbc.le) hdet
    · intro hlt
      exact ⟨hlt.trans_le h.reach, fun d hd had => h.clear d had (hd.trans_lt hlt)⟩
  rw [hin, hpair, h.status _ hmod]
  split_ifs with hlt
  · exact ⟨fs.verdict_insane.trans (and_iff_right hlt).symm,
      fs.verdict_csumsOk.trans (and_iff_right hlt).symm⟩
  · exact ⟨iff_of_false id fun hand => hlt hand.1, iff_of_false id fun hand => hlt hand.1⟩

end FilledWindow

/-! ### Answers -/

/-- The error for an inode that is not in a bad block, from what is known of its block. -/
def errorFor (status : BlockStatus) (ignoreCsumErrors csumWrong : Bool) : Option ScanErr :=
  if status.insane then some .inodeIsGarbage
  else if !status.csumsOk && !ignoreCsumErrors && csumWrong then some .inodeCsumInvalid
  else none

theorem errorFor_garbage {status : BlockStatus} {ignoreCsumErrors csumWrong : Bool} :
    errorFor status ignoreCsumErrors csumWrong = some .inodeIsGarbage ↔ status.insane = true := by
  rw [errorFor]
  split_ifs with hinsane
  · exact iff_of_true rfl hinsane
  · exact iff_of_false (by decide) hinsane
  · exact iff_of_false (by decide) hinsane

theorem errorFor_csumWrong {status : BlockStatus} {ignoreCsumErrors : Bool} :
    errorFor status ignoreCsumErrors true = some .inodeCsumInvalid ∨
        errorFor status ignoreCsumErrors true = some .inodeIsGarbage ↔
      status.insane = true ∨ ignoreCsumErrors = false ∧ ¬status.csumsOk = true := by
  rw [errorFor_garbage, errorFor]
  cases status.insane with
  | true => exact iff_of_true (Or.inr rfl) (Or.inl rfl)
  | false =>
    cases status.csumsOk with
    | true => simp
    | false => cases ignoreCsumErrors with
      | true => simp
      | false => simp

/-- An answer that follows from the verdict on the block its inode is judged by. -/
def ScanFs.Reported (fs : ScanFs) (places g i : ℕ) (answer : ScanAnswer) : Prop :=
  fs.inodeBlock g i ∉ fs.badblocks → (fs.ReportsRight g i answer ↔ fs.JudgedRight places g i)

section Steps

variable {bufferBlocks : ℤ} {scan : InodeScan}

/-- What is found out about the answer and the scan when an inode is taken from the window. -/
theorem takeInode_fields {leftOver : Block} {bufsize : ℕ} {answer : ScanAnswer} {scan' : InodeScan}
    (h : takeInode fs leftOver 0 scan bufsize = some (answer, scan')) :
    scan'.warnGarbageInodes = scan.warnGarbageInodes ∧ scan'.badInodeBlk = scan.badInodeBlk ∧
      scan'.blockStatus = scan.blockStatus ∧
      (scan.badInodeBlk = false → answer.err = errorFor
        (scan.blockStatus (scan.currentInode % fs.inodesPerGroup / fs.inodesPerBlock %
          scan.inodeBufferBlocks))
        fs.ignoreCsumErrors
        !fs.csumVerify (scan.currentInode + 1)
          (fs.inodeBytes fun k => scan.inodeBuffer (scan.ptr + k))) := by
  rw [takeInode] at h
  dsimp only at h
  by_cases hrest : scan.bytesLeft < fs.inodeSize - 0
  · rw [if_pos hrest] at h
    cases h
  rw [if_neg hrest] at h
  obtain ⟨rfl, rfl⟩ := Prod.mk.inj (Option.some.inj h)
  refine ⟨rfl, rfl, rfl, fun hbad => ?_⟩
  dsimp only
  rw [if_pos rfl, hbad, if_neg Bool.false_ne_true]
  rfl

/-- A scan that reports garbage, with the verdicts on the blocks of its window. -/
structure Watched (fs : ScanFs) (bufferBlocks : ℤ) (g i c : ℕ) (scan : InodeScan) : Prop
    extends Window fs bufferBlocks g i c scan where
  warn : scan.warnGarbageInodes = true
  aligned : c = fs.usedBlocks g ∨ fs.Detects g c ∨ scanBlocks bufferBlocks ∣ c - fs.windowBase g c
  judged : scan.bytesLeft ≠ 0 → scan.badInodeBlk = false →
    ∃ a, a ≤ i / fs.inodesPerBlock ∧ FilledWindow fs (scanBlocks bufferBlocks) g a c scan

/-- A scan that reports garbage and has not read anything of a group. -/
theorem Window.watched (h : Window fs bufferBlocks g 0 0 scan)
    (hwarn : scan.warnGarbageInodes = true) :
    Watched fs bufferBlocks g 0 0 scan where
  toWindow := h
  warn := hwarn
  aligned := Or.inr (Or.inr (dvd_zero _))
  judged := by
    intro h0
    have := h.bytes
    omega

/-- A bad block is read alone. -/
theorem ChosenBlocks.bad {chosen before : InodeScan} {num : ℕ} (hch : ChosenBlocks fs g c
      (min (scanBlocks bufferBlocks) (fs.usedBlocks g - c)) before chosen num)
      (hc : c < fs.inodeBlocksPerGroup)
    (hbad : chosen.badInodeBlk = true) : num = 1 ∧ fs.Detects g c := by
  have hone := (hch.single hbad).1
  exact ⟨hone, (hch.flag c le_rfl (by omega) hc).mp hbad⟩

section Window

variable (hf : fs.Regular) (hint : -2 ^ 31 ≤ bufferBlocks ∧ bufferBlocks < 2 ^ 31)
  (htwo : 2 ≤ fs.inodesPerBlock) (hper : fs.inodesPerBlock ∣ fs.inodesPerGroup)

include hf hint htwo hper

omit htwo hper in
/-- **An inode is taken from the window**, and the answer follows from what was stored about its
block. -/
theorem Watched.take (h : Watched fs bufferBlocks g i c scan) (hi : i < fs.used g)
    (h0 : scan.bytesLeft ≠ 0) (leftOver : Block) (bufsize : ℕ) :
    ∃ answer scan', takeInode fs leftOver 0 scan bufsize = some (answer, scan') ∧
      answer.ino = some (g * fs.inodesPerGroup + i + 1) ∧
      fs.Reported (scanBlocks bufferBlocks) g i answer ∧
        Watched fs bufferBlocks g (i + 1) c scan' := by
  obtain ⟨answer, scan', htake, hhands, hwin⟩ := h.toWindow.take hf hi h0 leftOver bufsize
  obtain ⟨hwarn, hbad, hstatus, herr⟩ := takeInode_fields htake
  refine ⟨answer, scan', htake, hhands.ino, fun hgood => ?_, ?_⟩
  · obtain ⟨b, hb⟩ : ∃ b, i / fs.inodesPerBlock = b := ⟨_, rfl⟩
    have hpos := hf.inodesPerBlock_pos
    have hbytes := h.bytes
    have hmul := hf.blocksize_mul
    have hrest := h.inodeSize_le hf h0
    have hsum := Nat.div_add_mod i fs.inodesPerBlock
    have hmod := Nat.mod_lt i hpos
    rw [hb] at hsum
    have hbc : b < c := by
      have hle : b * fs.inodesPerBlock * fs.inodeSize ≤ i * fs.inodeSize :=
        Nat.mul_le_mul_right _ (by rw [Nat.mul_comm]; omega)
      rw [Nat.mul_assoc, ← hmul] at hle
      have := hf.inodeSize_pos
      exact Nat.lt_of_mul_lt_mul_right (a := fs.blocksize) (by omega)
    have hlast : i * fs.inodeSize < (b + 1) * fs.blocksize := by
      rw [hmul, ← Nat.mul_assoc, Nat.succ_mul, Nat.mul_comm b]
      exact Nat.mul_lt_mul_of_pos_right (by omega) hf.inodeSize_pos
    have hclear : scan.badInodeBlk = false := by
      rw [← Bool.not_eq_true, h.flag b hbc hlast]
      rintro ⟨hmem, -⟩
      refine hgood ?_
      rw [ScanFs.inodeBlock, hf.div_blocksize, hb]
      exact hmem
    obtain ⟨a, hab, hfilled⟩ := h.judged h0 hclear
    obtain ⟨hinsane, hok⟩ := hfilled.lookup (scanBlocks_pos hint.1 hint.2) (hb ▸ hab) hbc
    have hplace : scan.currentInode % fs.inodesPerGroup / fs.inodesPerBlock %
      scan.inodeBufferBlocks =
        b % scanBlocks bufferBlocks := by
      have hlt : i < fs.inodesPerGroup := hi.trans_le (fs.used_le g)
      rw [h.ino, Nat.mul_comm, Nat.mul_add_mod, Nat.mod_eq_of_lt hlt, hb, h.blocks]
    -- the bytes in the window are those of the inode
    have hcsum : (!fs.csumVerify (scan.currentInode + 1)
      (fs.inodeBytes fun k => scan.inodeBuffer (scan.ptr + k))) =
        fs.csumWrong g i := by
      rw [ScanFs.csumWrong, h.ino]
      congr 2
      refine List.map_congr_left fun k hk => ?_
      exact h.content hclear k ((List.mem_range.mp hk).trans_le hrest)
    have herror := herr hclear
    rw [hplace, hcsum] at herror
    constructor
    · intro hright
      refine ⟨?_, fun hwrong => ?_⟩
      · rw [hb, ← hinsane, ← errorFor_garbage, ← herror, ← hb]
        exact hright.garbage
      · rw [hb, ← hinsane, ← hok, ← errorFor_csumWrong, ← hwrong, ← herror]
        exact hright.csum hwrong
    · intro hright
      refine ⟨fun hwrong => ?_, ?_⟩
      · have := hright.csum hwrong
        rw [hb, ← hinsane, ← hok, ← errorFor_csumWrong, ← hwrong, ← herror] at this
        exact this
      · have := hright.garbage
        rw [hb, ← hinsane, ← errorFor_garbage, ← herror, ← hb] at this
        exact this
  · exact
      { toWindow := hwin
        warn := hwarn.trans h.warn
        aligned := h.aligned
        judged := by
          intro _ hno
          obtain ⟨a, hab, hfilled⟩ := h.judged h0 (hbad.symm.trans hno)
          exact ⟨a, hab.trans (Nat.div_le_div_right (Nat.le_succ i)),
            { hfilled with status := hstatus ▸ hfilled.status }⟩ }

omit hint in
/-- **Blocks are read**, and their verdicts are stored. -/
theorem Watched.served (h : Watched fs bufferBlocks g i c scan) (hi : i < fs.used g)
    (h0 : scan.bytesLeft = 0) {num : ℕ} {chosen : InodeScan} {buffer : Block}
    (hch : ChosenBlocks fs g c (min (scanBlocks bufferBlocks) (fs.usedBlocks g - c))
      { scan with badInodeBlk := false } chosen num)
    (hfit : num * fs.blocksize ≤ max fs.ioAlign (fs.scanBytes bufferBlocks))
    (hbuf : chosen.badInodeBlk = false → ∀ k,
      buffer k = fs.disk (fs.inodeTableLoc g + c + k / fs.blocksize) (k % fs.blocksize)) :
    Watched fs bufferBlocks g i (c + num) (chosen.served fs num buffer) := by
  have hc := h.lt_usedBlocks hf hi h0
  have hle := hf.usedBlocks_le g
  have hnum := hch.le
  have hbase := fs.windowBase_le g c
  have hbs := hf.blocksize_ge
  have hstart : i * fs.inodeSize = c * fs.blocksize := by
    have := h.bytes
    omega
  have hi' : i = c * fs.inodesPerBlock := by
    rw [hf.blocksize_mul, ← Nat.mul_assoc] at hstart
    exact Nat.eq_of_mul_eq_mul_right hf.inodeSize_pos hstart
  have hwin := h.toWindow.served hf h0 hch hfit fun hno k _ => hbuf hno k
  have hfields : chosen.warnGarbageInodes = true ∧ chosen.currentInode = g * fs.inodesPerGroup + i ∧
      chosen.inodesLeft = fs.used g - i ∧ chosen.inodeBufferBlocks = scanBlocks bufferBlocks := by
    obtain ⟨p, chk, bad, rfl⟩ := hch.eq
    exact ⟨h.warn, h.ino, h.inodesLeft, h.blocks⟩
  obtain ⟨hwarn, hino, hleft, hplaces⟩ := hfields
  -- without a bad block the window goes on from where the windows before it started
  have hgood : chosen.badInodeBlk = false → scanBlocks bufferBlocks ∣ c - fs.windowBase g c ∧
      ∀ d, c ≤ d → d < c + num → ¬fs.Detects g d := by
    intro hbad
    have hnone : ∀ d, c ≤ d → d < c + num → ¬fs.Detects g d := fun d hd hlt hdet =>
      Bool.false_ne_true (hbad.symm.trans ((hch.flag d hd hlt (by omega)).mpr hdet))
    refine ⟨?_, hnone⟩
    rcases h.aligned with hend | hdet | hdvd
    · omega
    · have := hch.pos
      exact absurd hdet (hnone c le_rfl (by omega))
    · exact hdvd
  exact
    { toWindow := hwin
      warn := hwarn
      aligned := by
        cases hbad : chosen.badInodeBlk with
        | true =>
          obtain ⟨rfl, hdet⟩ := hch.bad (hc.trans_le hle) hbad
          refine Or.inr (Or.inr ?_)
          rw [ScanFs.windowBase, if_pos hdet, Nat.sub_self]
          exact dvd_zero _
        | false =>
          obtain ⟨hdvd, hnone⟩ := hgood hbad
          rcases hch.most hbad with hmost | hdet
          · rcases le_total (scanBlocks bufferBlocks) (fs.usedBlocks g - c) with hall | hall
            · rw [min_eq_left hall] at hmost
              refine Or.inr (Or.inr ?_)
              rw [ScanFs.windowBase_eq (Nat.le_add_right c num) hnone, hmost,
                Nat.sub_add_comm hbase]
              exact (Nat.dvd_add_self_right).mpr hdvd
            · rw [min_eq_right hall] at hmost
              exact Or.inl (by omega)
          · exact Or.inr (Or.inl hdet)
      judged := by
        intro _ hbad
        obtain ⟨hdvd, hnone⟩ := hgood hbad
        refine ⟨c, ?_, hdvd, hnone, by omega, ?_, by omega, fun j hj => ?_⟩
        · rw [hi', Nat.mul_div_cancel _ hf.inodesPerBlock_pos]
        · rcases hch.most hbad with hmost | hdet
          · rcases le_total (scanBlocks bufferBlocks) (fs.usedBlocks g - c) with hall | hall
            · rw [min_eq_left hall] at hmost
              exact Or.inl (by omega)
            · rw [min_eq_right hall] at hmost
              exact Or.inr (Or.inl (by omega))
          · exact Or.inr (Or.inr hdet)
        · obtain ⟨q, hq⟩ := hper
          have hfirst : chosen.currentInode = (g * q + c) * fs.inodesPerBlock := by
            rw [hino, hi', hq, Nat.add_mul]
            congr 1
            rw [Nat.mul_comm fs.inodesPerBlock, Nat.mul_assoc]
          have hjudged :=
            @checkInodeBlockSanity_judged fs buffer _ _ _ hwarn hf.inodeSize_pos htwo
              hf.blocksize_mul
            hfirst (hf.inodes_lt (n := num) (by omega)) (by omega) j (hplaces ▸ hj)
          have htable : ∀ k, buffer k = fs.tableByte g (c * fs.blocksize + k) := by
            intro k
            rw [hbuf hbad, ScanFs.tableByte, Nat.mul_comm c, Nat.mul_add_div (by omega),
              Nat.mul_add_mod, Nat.add_assoc]
          refine hjudged.trans ?_
          rw [hleft, hi', hino, hi']
          split_ifs with hlt
          · exact hf.verdictAt_eq htable (by omega)
          · refine verdictAt_behind hf.inodesPerBlock_pos ((min_le_right _ _).trans ?_)
            exact Nat.mul_le_mul_right _ (by omega) }

/-! ### Runs -/

omit hf hint htwo hper in
/-- A scan that reports garbage, at any place between two calls. -/
def Watching (fs : ScanFs) (bufferBlocks : ℤ) (scan : InodeScan) : Prop :=
  (∃ g i c, Watched fs bufferBlocks g i c scan) ∨
    ∃ g, Arrived fs bufferBlocks g scan ∧ fs.used g = 0 ∧ scan.warnGarbageInodes = true

omit hf hint htwo hper in
/-- An answer without an inode, or one that follows from the verdict on a block. -/
def AnswerReported (fs : ScanFs) (places : ℕ) (answer : ScanAnswer) : Prop :=
  (∀ ino, answer.ino = some ino → ino = 0) ∨ ∃ g i, i < fs.used g ∧
    answer.ino = some (g * fs.inodesPerGroup + i + 1) ∧ fs.Reported places g i answer

/-- The next inode of a group, or an error that leaves the scan where it is. -/
theorem Watched.next (h : Watched fs bufferBlocks g i c scan) (hi : i < fs.used g) {bufsize : ℕ}
    {answer : ScanAnswer}
    {scan' : InodeScan} (hnext : nextOfGroup fs scan bufsize = some (answer, scan')) :
    AnswerReported fs (scanBlocks bufferBlocks) answer ∧ Watching fs bufferBlocks scan' := by
  have hne : scan.currentBlock ≠ 0 := by
    have := (hf.tables g h.group).1
    have := h.block
    omega
  rw [nextOfGroup, if_neg hne] at hnext
  have htaken : ∀ {c filled} (leftOver : Block), Watched fs bufferBlocks g i c filled →
    filled.bytesLeft ≠ 0 →
      takeInode fs leftOver 0 filled bufsize = some (answer, scan') →
        AnswerReported fs (scanBlocks bufferBlocks) answer ∧ Watching fs bufferBlocks scan' := by
    intro c filled leftOver hfilled hfull htake
    obtain ⟨answer', scan'', htake', hino, hrep, hwatched⟩ :=
      hfilled.take hf hint hi hfull leftOver bufsize
    obtain ⟨rfl, rfl⟩ := Prod.mk.inj (Option.some.inj (htake'.symm.trans htake))
    exact ⟨Or.inr ⟨g, i, hi, hino, hrep⟩, Or.inl ⟨g, i + 1, c, hwatched⟩⟩
  by_cases h0 : scan.bytesLeft = 0
  · rw [if_pos (h0 ▸ hf.inodeSize_pos)] at hnext
    obtain ⟨num, chosen, hch, ⟨hnone, -⟩ | ⟨herr, hbad, -⟩ | ⟨hfit, buffer, hok, hbuf⟩⟩ :=
      h.toWindow.getNextBlocks hf hint hi h0
    · rw [hnone] at hnext
      cases hnext
    · rw [herr] at hnext
      obtain ⟨rfl, rfl⟩ := Prod.mk.inj (Option.some.inj hnext)
      refine ⟨Or.inl (fun ino hino => by cases hino), Or.inl ⟨g, i, c, ?_⟩⟩
      have hwin := h.toWindow.unread hf h0 hch hbad
      obtain ⟨p, chk, bad, rfl⟩ := hch.eq
      exact ⟨hwin, h.warn, h.aligned, fun hno => absurd h0 hno⟩
    · rw [hok, h0] at hnext
      have hserved := h.served hf htwo hper hi h0 hch hfit hbuf
      refine htaken _ hserved ?_ hnext
      have := hf.blocksize_ge
      exact (Nat.mul_pos hch.pos (by omega)).ne'
  · rw [if_neg (Nat.not_lt.mpr (h.inodeSize_le hf h0))] at hnext
    exact htaken _ h h0 hnext

/-- A call that leaves a group. -/
theorem Place.call (h : Place fs bufferBlocks g scan) (ha : Ahead fs (g + 1) 0 (scan.ahead fs))
    (hleaves : leavesGroup fs scan = true) (hwarn : scan.warnGarbageInodes = true)
    (hsame : Watching fs bufferBlocks scan) {bufsize : ℕ} {answer : ScanAnswer} {scan' : InodeScan}
    (hcall : getNextInodeFull fs scan bufsize = some (answer, scan')) :
    AnswerReported fs (scanBlocks bufferBlocks) answer ∧ Watching fs bufferBlocks scan' := by
  rw [getNextInodeFull, if_pos hleaves, h.groupsLeft] at hcall
  rcases h.forceNewGroup hf ha rfl with ⟨⟨scan'', hend, hpast, hkept⟩, -⟩ |
    ⟨g', scan'', hat, hwin, hkept, -⟩
  · rw [hend] at hcall
    obtain ⟨rfl, rfl⟩ := Prod.mk.inj (Option.some.inj hcall)
    refine ⟨Or.inl fun ino hino => (Option.some.inj hino).symm, ?_⟩
    rcases hpast with rfl | ⟨g', harr, hused⟩
    · exact hsame
    · exact Or.inr ⟨g', harr, hused, hkept.trans hwarn⟩
  · rw [hat] at hcall
    exact (hwin.watched (hkept.trans hwarn)).next hf hint htwo hper
      (Nat.pos_of_ne_zero hwin.used) hcall

/-- **One call.** -/
theorem Watching.call (h : Watching fs bufferBlocks scan) {bufsize : ℕ} {answer : ScanAnswer}
    {scan' : InodeScan} (hcall : getNextInodeFull fs scan bufsize = some (answer, scan')) :
    AnswerReported fs (scanBlocks bufferBlocks) answer ∧ Watching fs bufferBlocks scan' := by
  have hsame := h
  rcases h with ⟨g, i, c, hwatched⟩ | ⟨g, harr, hused, hwarn⟩
  · by_cases hi : i < fs.used g
    · rw [getNextInodeFull, if_neg fun hleaves => hi.ne (hwatched.leavesGroup_iff.mp hleaves)]
        at hcall
      exact hwatched.next hf hint htwo hper hi hcall
    · have hend : i = fs.used g := le_antisymm hwatched.le (Nat.le_of_not_lt hi)
      refine hwatched.toPlace.call hf hint htwo hper ?_
        (hwatched.leavesGroup_iff.mpr hend) hwatched.warn hsame hcall
      exact hwatched.toWindow.nextAhead hf hend
  · refine harr.toPlace.call hf hint htwo hper ?_ (harr.leavesGroup_iff.mpr hused) hwarn hsame hcall
    exact harr.ahead.next (Nat.zero_le _) (iff_of_false (fun h0 => h0 hused) fun h0 => h0 rfl)

/-- Any number of calls. -/
theorem Watching.calls (h : Watching fs bufferBlocks scan) {bufsize n : ℕ}
    {answers : List ScanAnswer} (hrun : scanCalls fs bufsize n scan = some answers) :
    ∀ answer ∈ answers, AnswerReported fs (scanBlocks bufferBlocks) answer := by
  induction n generalizing scan answers with
  | zero =>
    obtain rfl := Option.some.inj hrun
    exact fun _ hmem => absurd hmem List.not_mem_nil
  | succ n ih =>
    rw [scanCalls] at hrun
    cases hcall : getNextInodeFull fs scan bufsize with
    | none =>
      rw [hcall] at hrun
      cases hrun
    | some result =>
      obtain ⟨answer, scan'⟩ := result
      rw [hcall] at hrun
      obtain ⟨later, hlater, rfl⟩ := Option.map_eq_some_iff.mp hrun
      obtain ⟨hanswer, hwatching⟩ := h.call hf hint htwo hper hcall
      intro x hx
      rcases List.mem_cons.mp hx with rfl | hx
      · exact hanswer
      · exact ih hwatching hlater x hx

omit hint htwo hper in
/-- A fresh scan that is told to report garbage. -/
theorem Watching.of_open (hopen : openInodeScan fs bufferBlocks = some (.ok scan)) :
    Watching fs bufferBlocks scan.warn := by
  have harr : Arrived fs bufferBlocks 0 scan.warn := { Arrived.of_open hf hopen with }
  by_cases hused : fs.used 0 = 0
  · exact Or.inr ⟨0, harr, hused, rfl⟩
  · exact Or.inl ⟨0, 0, 0, (harr.window hf hused).watched rfl⟩

/-- **When an inode is reported as it should be**: when the block that it is judged by gives it the
right verdict. -/
theorem reportsRight_iff (hopen : openInodeScan fs bufferBlocks = some (.ok scan)) {bufsize n : ℕ}
    {answers : List ScanAnswer} (hrun : scanCalls fs bufsize n scan.warn = some answers)
    {answer : ScanAnswer} (hmem : answer ∈ answers) (hi : i < fs.inodesPerGroup)
    (hino : answer.ino = some (g * fs.inodesPerGroup + i + 1))
    (hgood : fs.inodeBlock g i ∉ fs.badblocks) :
    fs.ReportsRight g i answer ↔ fs.JudgedRight (scanBlocks bufferBlocks) g i := by
  rcases (Watching.of_open hf hopen).calls hf hint htwo hper hrun answer hmem with hnone |
    ⟨g', i', hi', hino', hrep⟩
  · exact absurd (hnone _ hino) (Nat.succ_ne_zero _)
  · have hlt := hi'.trans_le (fs.used_le g')
    have heq : g' * fs.inodesPerGroup + i' = g * fs.inodesPerGroup + i :=
      Nat.succ.inj (Option.some.inj (hino'.symm.trans hino))
    obtain ⟨rfl, rfl⟩ : g' = g ∧ i' = i := by
      have hdiv := congrArg (· / fs.inodesPerGroup) heq
      rw [Nat.mul_comm, Nat.mul_add_div hf.perGroup, Nat.div_eq_of_lt hlt, Nat.mul_comm,
        Nat.mul_add_div hf.perGroup, Nat.div_eq_of_lt hi, Nat.add_zero, Nat.add_zero] at hdiv
      subst hdiv
      exact ⟨rfl, Nat.add_left_cancel heq⟩
    exact hrep hgood

omit hint htwo hper in
/-- In a table without bad blocks, and behind one at the end of a full window, an inode is judged by
its own block. When the block is scanned as a whole that is right. -/
theorem judgedRight_of_dvd {places : ℕ} (hdvd : places ∣ fs.windowBase g (i / fs.inodesPerBlock))
    (hwhole : fs.scanned g (i / fs.inodesPerBlock) = fs.inodesPerBlock)
    (hclear : ¬fs.Detects g (i / fs.inodesPerBlock)) (hignore : fs.ignoreCsumErrors = false) :
    fs.JudgedRight places g i := by
  obtain ⟨b, hb⟩ : ∃ b, i / fs.inodesPerBlock = b := ⟨_, rfl⟩
  have hpos := hf.inodesPerBlock_pos
  have hle := fs.windowBase_le g b
  rw [hb] at hdvd hwhole hclear
  have hstart : fs.windowStart places g b = b - b % places := by
    obtain ⟨k, hk⟩ := hdvd
    have hmod : (b - fs.windowBase g b) % places = b % places := by
      rw [hk, Nat.sub_mul_mod (hk ▸ hle)]
    have hsum := Nat.div_add_mod (b - fs.windowBase g b) places
    rw [hmod, Nat.mul_comm] at hsum
    rw [ScanFs.windowStart]
    omega
  have hown : fs.pairedBlock places g b = b := by
    have := Nat.mod_le b places
    rw [ScanFs.pairedBlock, hstart]
    omega
  have hpaired : fs.Paired places g b := by
    rw [ScanFs.Paired, hown]
    constructor
    · rw [hf.lt_usedBlocks, hf.blocksize_mul, ← Nat.mul_assoc]
      rw [ScanFs.scanned] at hwhole
      exact Nat.mul_lt_mul_of_pos_right (by omega) hf.inodeSize_pos
    · intro d hd hfrom
      rcases hd.lt_or_eq with hlt | rfl
      · refine fs.windowBase_clear ?_ hlt
        rw [ScanFs.windowStart] at hfrom
        omega
      · exact hclear
  have hmost : fs.DeclaredBad g b ↔ fs.MostlyInsane g b := by
    rw [ScanFs.DeclaredBad, ScanFs.MostlyInsane, hwhole]
    omega
  refine ⟨?_, fun hwrong => Or.inr ⟨hignore, ?_⟩⟩
  · rw [hb, hown]
    exact (and_iff_right hpaired).trans hmost
  · rw [hb, hown]
    rintro ⟨-, -, -, hright⟩
    have hown := hright (i % fs.inodesPerBlock) (Nat.mod_lt i hpos)
    rw [← hb, Nat.mul_comm, Nat.div_add_mod] at hown
    exact Bool.false_ne_true (hown.symm.trans hwrong)

end Window

end Steps

/-! ### A table with garbage -/

/-- Every inode outside bad blocks is reported as it should be. -/
def ReportsAll (fs : ScanFs) (bufferBlocks : ℤ) (bufsize : ℕ) : Prop :=
  ∀ scan, openInodeScan fs bufferBlocks = some (.ok scan) →
    ∀ n answers, scanCalls fs bufsize n scan.warn = some answers →
    ∀ answer ∈ answers, ∀ g i, i < fs.inodesPerGroup →
      answer.ino = some (g * fs.inodesPerGroup + i + 1) →
      fs.inodeBlock g i ∉ fs.badblocks → fs.ReportsRight g i answer

/-- One group of 24 inodes in three blocks of a table. The second block is full of garbage, the
others are empty. -/
def garbageScan (badblocks : List ℕ) : ScanFs where
  blocksize := 1024
  inodeSize := 128
  inodesPerGroup := 24
  inodeBlocksPerGroup := 3
  groupDescCount := 1
  firstDataBlock := 1
  blocksCount := 64
  groupDescCsum := false
  ignoreCsumErrors := false
  inodeTableLoc := fun _ => 5
  itableUnused := fun _ => 0
  inodeUninit := fun _ => false
  badblocks := badblocks
  ioAlign := 0
  csumVerify := fun _ inode => decide (inode.headD 0 = 0)
  readable := fun _ => true
  disk := fun blk _ => if blk = 6 then 255 else 0

/-- A fresh scan of it, with windows of two blocks. -/
def freshScan (badblocks : List ℕ) : InodeScan where
  currentInode := 0
  currentBlock := 5
  currentGroup := 0
  inodesLeft := 24
  blocksLeft := 3
  groupsLeft := 0
  inodeBufferBlocks := 2
  bufferSize := 2048
  inodeBuffer := fun _ => 0
  ptr := 0
  bytesLeft := 0
  badBlockPtr := 0
  chkBadblocks := decide (badblocks ≠ [])
  badInodeBlk := false
  badExtraBytes := false
  doLazy := false
  warnGarbageInodes := false
  blockStatus := fun _ => ⟨false, false⟩

theorem garbageScan_regular {badblocks : List ℕ} (hsorted : badblocks.Pairwise (· ≤ ·)) :
    (garbageScan badblocks).Regular where
  blocks := ⟨10, le_rfl, by decide, rfl⟩
  size := ⟨7, le_rfl, rfl⟩
  le := (by decide : 128 ≤ 1024)
  perGroup := (by decide : 0 < 24)
  groups := Nat.one_pos
  count := (by decide : 1 * 24 < 2 ^ 32)
  tableBlocks := (by decide : 3 = (24 * 128 + 1024 - 1) / 1024)
  tableMax := (by decide : 3 ≤ 2 ^ 16 - 1024 / 128)
  tables := fun _ _ => (by decide : 5 ≠ 0 ∧ 1 ≤ 5 ∧ 5 + 3 ≤ 64)
  apart :=
    fun g hg g' hg' hne => absurd ((Nat.lt_one_iff.mp hg).trans (Nat.lt_one_iff.mp hg').symm) hne
  sorted := hsorted
  readable := fun _ _ _ _ _ => rfl

theorem openInodeScan_garbageScan (badblocks : List ℕ) :
    openInodeScan (garbageScan badblocks) 2 = some (.ok (freshScan badblocks)) := by
  have hsize : ¬(garbageScan badblocks).blocksize < 1024 := (by decide : ¬1024 < 1024)
  have hinside : (garbageScan badblocks).tableOutside 0 = false := rfl
  have hbytes : ¬2 ^ 31 ≤ (garbageScan badblocks).scanBytes 2 := (by decide : ¬2 ^ 31 ≤ 1024 * 2)
  have hblocks : ¬2 ^ 32 ≤ (garbageScan badblocks).inodeSize + scanBlocks 2 :=
    (by decide : ¬2 ^ 32 ≤ 128 + 2)
  rw [openInodeScan, if_neg hsize, hinside, if_neg Bool.false_ne_true, if_neg hbytes,
    if_neg hblocks]
  rfl

/-- Without bad blocks the garbage is reported. -/
theorem reportsRight_garbage :
    ∃ answers, scanCalls (garbageScan []) 0 9 (freshScan []).warn = some answers ∧
    ∃ answer ∈ answers, answer.ino = some 9 ∧ (garbageScan []).ReportsRight 0 8 answer := by
  have hf := garbageScan_regular List.Pairwise.nil
  have hrun : ∃ answers, scanCalls (garbageScan []) 0 9 (freshScan []).warn = some answers ∧
      ⟨some .inodeIsGarbage, some 9, []⟩ ∈ answers :=
    ⟨_, rfl, by decide +kernel⟩
  obtain ⟨answers, hanswers, hmem⟩ := hrun
  refine ⟨answers, hanswers, _, hmem, rfl, ?_⟩
  refine (reportsRight_iff hf (by decide) (by decide) (by decide)
    (openInodeScan_garbageScan []) hanswers hmem
    (by decide) rfl List.not_mem_nil).mpr ?_
  exact judgedRight_of_dvd hf (dvd_zero _) (by decide) (fun hdet => List.not_mem_nil hdet.1) rfl

/-- **A bad block in front of garbage**: nothing is reported about an inode with a wrong
checksum. -/
theorem not_reportsAll_behind : (garbageScan [5]).Regular ∧ 2 ≤ (garbageScan [5]).inodesPerBlock ∧
    (garbageScan [5]).inodesPerBlock ∣ (garbageScan [5]).inodesPerGroup ∧
    ¬ReportsAll (garbageScan [5]) 2 0 := by
  refine ⟨garbageScan_regular (List.pairwise_singleton _ _), by decide, by decide, fun h => ?_⟩
  have hrun : ∃ answers, scanCalls (garbageScan [5]) 0 9 (freshScan [5]).warn = some answers ∧
      ⟨none, some 9, []⟩ ∈ answers :=
    ⟨_, rfl, by decide +kernel⟩
  obtain ⟨answers, hanswers, hmem⟩ := hrun
  have hright :=
    h _ (openInodeScan_garbageScan [5]) 9 answers hanswers _ hmem 0 8 (by decide) rfl (by decide)
  rcases hright.csum (by decide) with herr | herr
  · cases herr
  · cases herr

end ScanGarbage

end E2fsprogs
