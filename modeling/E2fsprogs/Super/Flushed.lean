import E2fsprogs.Super.Flush

/-!
# What flushing leaves

The state and the features in memory are as before, but for `needs_recovery` after a write for a
group has failed. After a flush that succeeds, the primary superblock carries them, if it is written
as a whole or if the words that are not written are on the disk as the handle remembers them.
-/

namespace E2fsprogs

/-- The same state and features. -/
structure SameFlags (s s' : Block) : Prop where
  state : sbState s' = sbState s
  compat : sbCompat s' = sbCompat s
  incompat : sbIncompat s' = sbIncompat s
  roCompat : sbRoCompat s' = sbRoCompat s

/-- The state is not valid, the journal needs no recovery, and all else is the same. -/
structure BackupFlags (s s' : Block) : Prop where
  state : sbState s' = sbState s &&& 0xfffe
  compat : sbCompat s' = sbCompat s
  incompat : sbIncompat s' = sbIncompat s &&& 0xfffffffb
  roCompat : sbRoCompat s' = sbRoCompat s

section Flushed

variable (fs : FlushFs) (io : FlushIo) (noSync : Bool) (st : FlushState)

/-- **Flushing does not change the file system in memory**, and the superblocks that it writes are
right. -/
structure FlushRight : Prop where
  kept : ∀ r st', flush2 fs io noSync st = (r, st') → SameFlags st.super st'.super
  primary : ∀ st', flush2 fs io noSync st = (.ok (), st') →
    SameFlags st.super (fromPos st'.disk 1024)
  backups : ∀ r st' x, flush2 fs io noSync st = (r, st') → x ∈ st'.backups → x ∈ st.backups ∨
    BackupFlags st.super x.2

/-- The groups but the first lie behind the primary superblock. -/
structure GroupsBehind (l : SuperLayout) : Prop where
  blocksize : fs.blocksize = 1024 ∨ 2048 ≤ fs.blocksize
  perGroup_pos : 0 < l.blocksPerGroup
  second : fs.blocksize = 1024 → 2 ≤ l.firstDataBlock + l.blocksPerGroup

/-- No write that is due for a group fails. -/
def GroupDone (l : SuperLayout) (group : ℕ) : Prop :=
  (fs.masterSbOnly = false ∧ group ≠ 0 ∧ (superAndBgdLoc fs l group).1 ≠ 0 →
    io.backup group = .done) ∧
    (fs.superOnly = false →
      ((superAndBgdLoc fs l group).2.1 ≠ 0 ∧ (fs.masterSbOnly = false ∨ group = 0) →
        io.oldDesc group = .done) ∧
        ((superAndBgdLoc fs l group).2.2 ≠ 0 → io.newDesc group = .done))

/-- What `write_bitmaps` returns. -/
def bitmapsStatus : Option FlushErr := io.writeBitmaps.bind fun f => (f st.disk st.groupDesc).1

/-- The disk as `write_bitmaps` leaves it. -/
def bitmapsDisk : Block := io.writeBitmaps.elim st.disk fun f => (f st.disk st.groupDesc).2.1

/-- The loop over the groups is not reached, or is not needed. -/
def FlushStarts : Prop :=
  ¬(fs.superOnly = false ∧ hasJournalDev st.super = false ∧ st.groupDesc = none) ∧
    bitmapsStatus io st = none

/-- A write for a group fails. -/
def GroupFault : Prop :=
  FlushStarts fs io st ∧ hasJournalDev st.super = false ∧
    ¬∀ group < fs.groupDescCount, GroupDone fs io (layoutOf st.super) group

/-- Nothing fails but, perhaps, the writes of the primary superblock. -/
structure NoFault : Prop where
  starts : FlushStarts fs io st
  groups : hasJournalDev st.super = false → ∀ group < fs.groupDescCount,
  GroupDone fs io (layoutOf st.super) group
  flushes : noSync = false → io.flushFirst = none ∧ io.flushLast = none

/-- The primary superblock that is written. -/
def newSuper (s : Block) : Block := superblockCsumSet (putLe (putLe s 48 4 fs.wtime) 90 2 0)

/-- The first word of a run of words that differ. -/
def RunStart (orig s : Block) (w : ℕ) : Prop :=
  w < 512 ∧ sbWord orig w ≠ sbWord s w ∧ (w = 0 ∨ sbWord orig (w - 1) = sbWord s (w - 1))

/-- The words of the state and the features. -/
def flagWords : List ℕ := [29, 46, 47, 48, 49, 50, 51]

/-- The words of the state and the features that are not written are on the disk. -/
def RestOnDisk : Prop :=
  ∀ wb orig, io.writeByte = some wb → st.origSuper = some orig →
    (∀ w, RunStart orig (newSuper fs st.super) w → wb w = .done) → NoFault fs io noSync st →
    ∀ w ∈ flagWords, sbWord orig w = sbWord st.super w →
      sbWord (fromPos (bitmapsDisk io st) 1024) w = sbWord st.super w

variable {fs io noSync st}

/-! ### Edits of the superblock -/

/-- The superblocks are the same but for the number of the group and the checksum. -/
def SuperEdit (s s' : Block) : Prop :=
  ∀ p, p < 90 ∨ 92 ≤ p → (sbRoCompat s).testBit 10 = false ∨ p < 1020 ∨ 1024 ≤ p → s' p = s p

theorem SuperEdit.field {s s' : Block} {o n : ℕ} (h : SuperEdit s s')
    (hout : o + n ≤ 90 ∨ 92 ≤ o ∧ o + n ≤ 1020) :
    getLe s' o n = getLe s o n :=
  getLe_congr fun p _ _ => h p (by omega) (by omega)

theorem SuperEdit.refl (s : Block) : SuperEdit s s := fun _ _ _ => rfl

theorem SuperEdit.trans {s s' s'' : Block} (h : SuperEdit s s') (h' : SuperEdit s' s'') :
    SuperEdit s s'' := by
  intro p hp hcsum
  have hro : sbRoCompat s' = sbRoCompat s := h.field (by omega)
  rw [h' p hp (by rwa [hro]), h p hp hcsum]

theorem SuperEdit.layoutOf {s s' : Block} (h : SuperEdit s s') : layoutOf s' = layoutOf s := by
  unfold E2fsprogs.layoutOf sbIncompat sbRoCompat sbCompat
  rw [h.field (o := 20) (by omega), h.field (o := 32) (by omega), h.field (o := 96) (by omega),
    h.field (o := 260) (by omega), h.field (o := 254) (by omega), h.field (o := 100) (by omega),
    h.field (o := 92) (by omega), h.field (o := 588) (by omega), h.field (o := 592) (by omega)]

theorem superEdit_group (s : Block) (v : ℕ) : SuperEdit s (putLe s 90 2 v) :=
  fun _ hp _ => putLe_of_outside (by omega)

theorem superEdit_csum (s : Block) : SuperEdit s (superblockCsumSet s) := by
  intro p _ hcsum
  rw [superblockCsumSet]
  split
  case isTrue h =>
    rcases hcsum with hno | hp
    · rw [hno] at h
      cases h
    · exact putLe_of_outside (by omega)
  case isFalse => rfl

/-- Storing a field of another block is copying its bytes. -/
theorem putLe_getLe (b c : Block) (n : ℕ) :
    ∀ o, putLe b o n (getLe c o n) = memcpy b o (fromPos c o) n := by
  induction n with
  | zero =>
    intro o
    rw [memcpy_zero]
    funext p
    exact putLe_of_outside (by omega)
  | succ n ih =>
    intro o
    funext p
    by_cases hp : o ≤ p ∧ p < o + (n + 1)
    · rw [putLe, if_pos hp, memcpy_of_inside hp.1 hp.2, fromPos, Nat.add_sub_cancel' hp.1, getLe]
      have hbyte := (c o).toNat_lt
      obtain hpo | hpo := eq_or_lt_of_le hp.1
      · rw [← hpo, Nat.sub_self, pow_zero, Nat.div_one]
        apply UInt8.toNat.inj
        rw [UInt8.toNat_ofNat']
        omega
      · have htail := congrFun (ih (o + 1)) p
        rw [putLe, if_pos (by omega), memcpy_of_inside (by omega) (by omega), fromPos,
          Nat.add_sub_cancel' (by omega)] at htail
        rw [← htail]
        obtain ⟨k, hk⟩ : ∃ k, p - o = k + 1 := ⟨p - o - 1, by omega⟩
        rw [hk, show p - (o + 1) = k by omega, pow_succ', ← Nat.div_div_eq_div_mul]
        congr 2
        omega
    · rw [putLe_of_outside (by omega), memcpy_of_outside (by omega)]

theorem superblockCsumSet_congr {s s' : Block}
    (h : ∀ p, (sbRoCompat s).testBit 10 = false ∨ p < 1020 ∨ 1024 ≤ p → s' p = s p) :
    superblockCsumSet s' = superblockCsumSet s := by
  have hro : sbRoCompat s' = sbRoCompat s := getLe_congr fun p _ _ => h p (by omega)
  unfold superblockCsumSet
  rw [hro]
  split
  case isTrue hc =>
    rw [bytesOf_congr fun p hp => h p (by omega)]
    funext p
    rw [putLe, putLe]
    split
    · rfl
    · exact h p (by omega)
  case isFalse hc => exact funext fun p => h p (Or.inl (Bool.eq_false_iff.mpr hc))

/-- The time and the number of the group. -/
theorem sameFlags_timed (s : Block) (w : ℕ) : SameFlags s (putLe (putLe s 48 4 w) 90 2 0) := by
  have hfield : ∀ o n, 52 ≤ o → o + n ≤ 90 ∨ 92 ≤ o →
      getLe (putLe (putLe s 48 4 w) 90 2 0) o n = getLe s o n := by
    intro o n h1 h2
    rw [getLe_putLe_of_disjoint (by omega), getLe_putLe_of_disjoint (by omega)]
  exact ⟨hfield 58 2 (by omega) (by omega), hfield 92 4 (by omega) (by omega),
    hfield 96 4 (by omega) (by omega), hfield 100 4 (by omega) (by omega)⟩

theorem SuperEdit.sameFlags {s s' : Block} (h : SuperEdit s s') : SameFlags s s' :=
  ⟨h.field (by omega), h.field (by omega), h.field (by omega), h.field (by omega)⟩

theorem SameFlags.trans {s s' s'' : Block} (h : SameFlags s s') (h' : SameFlags s' s'') :
    SameFlags s s'' :=
  ⟨h'.state.trans h.state, h'.compat.trans h.compat, h'.incompat.trans h.incompat,
    h'.roCompat.trans h.roCompat⟩

theorem sameFlags_newSuper (s : Block) : SameFlags s (newSuper fs s) :=
  (sameFlags_timed s fs.wtime).trans (superEdit_csum _).sameFlags

/-- The edit for the backups. -/
theorem backupFlags_invalidated (s : Block) : BackupFlags s (invalidated s) := by
  have hstate : sbState s &&& 0xfffe < 256 ^ 2 := lt_of_le_of_lt Nat.and_le_left (getLe_lt s 2 58)
  have hincompat : sbIncompat s &&& 0xfffffffb < 256 ^ 4 :=
    lt_of_le_of_lt Nat.and_le_left (getLe_lt s 4 96)
  have hsame : sbIncompat (putLe s 58 2 (sbState s &&& 0xfffe)) = sbIncompat s :=
    getLe_putLe_of_disjoint (by omega)
  refine ⟨?_, ?_, ?_, ?_⟩
  · exact (getLe_putLe_of_disjoint (by omega)).trans (getLe_putLe s 58 hstate)
  · exact (getLe_putLe_of_disjoint (by omega)).trans (getLe_putLe_of_disjoint (by omega))
  · exact getLe_putLe _ 96 hincompat
  · exact (getLe_putLe_of_disjoint (by omega)).trans (getLe_putLe_of_disjoint (by omega))

theorem BackupFlags.of_edit {s s' s'' : Block} (h : BackupFlags s s') (h' : SuperEdit s' s'') :
    BackupFlags s s'' := by
  have hf := h'.sameFlags
  exact ⟨hf.state.trans h.state, hf.compat.trans h.compat, hf.incompat.trans h.incompat,
    hf.roCompat.trans h.roCompat⟩

/-- Putting the state and the features back, and the number of the group. -/
theorem restored_eq {s s' : Block} {w : ℕ}
    (h : SuperEdit (invalidated (putLe (putLe s 48 4 w) 90 2 0)) s') :
    superblockCsumSet (putLe (putLe (putLe s' 90 2 0) 58 2 (sbState s)) 96 4 (sbIncompat s)) =
      superblockCsumSet (putLe (putLe s 48 4 w) 90 2 0) := by
  have hflags := sameFlags_timed s w
  obtain ⟨t, ht⟩ : ∃ t, t = putLe (putLe s 48 4 w) 90 2 0 := ⟨_, rfl⟩
  rw [← ht] at h hflags ⊢
  have hro : sbRoCompat (invalidated t) = sbRoCompat t := (backupFlags_invalidated t).roCompat
  refine superblockCsumSet_congr fun p hp => ?_
  rw [← hflags.state, ← hflags.incompat, sbState, sbIncompat, putLe_getLe, putLe_getLe]
  by_cases h96 : 96 ≤ p ∧ p < 100
  · rw [memcpy_of_inside h96.1 (by omega), fromPos, Nat.add_sub_cancel' h96.1]
  rw [memcpy_of_outside (by omega)]
  by_cases h58 : 58 ≤ p ∧ p < 60
  · rw [memcpy_of_inside h58.1 (by omega), fromPos, Nat.add_sub_cancel' h58.1]
  rw [memcpy_of_outside (by omega)]
  by_cases h90 : 90 ≤ p ∧ p < 92
  · rw [ht, putLe, putLe, if_pos (by omega), if_pos (by omega)]
  · rw [putLe_of_outside (by omega), h p (by omega) (by rwa [hro]), invalidated,
      putLe_of_outside (by omega), putLe_of_outside (by omega)]

/-! ### The loop over the groups -/

/-- What the loop over the groups changes: nothing of the primary superblock on the disk, and in
memory nothing but the number of the group and the checksum. -/
structure GroupFrame (st st' : FlushState) : Prop where
  super : SuperEdit st.super st'.super
  disk : ∀ p < 2048, st'.disk p = st.disk p
  origSuper : st'.origSuper = st.origSuper
  backups : ∀ x ∈ st'.backups, x ∈ st.backups ∨ SuperEdit st.super x.2

instance : Std.Refl GroupFrame where
  refl _ := ⟨SuperEdit.refl _, fun _ _ => rfl, rfl, fun _ h => Or.inl h⟩

instance : IsTrans FlushState GroupFrame where
  trans a b c h h' := by
    refine ⟨h.super.trans h'.super, fun p hp => (h'.disk p hp).trans (h.disk p hp),
      h'.origSuper.trans h.origSuper, ?_⟩
    intro x hx
    rcases h'.backups x hx with hx | hx
    · exact h.backups x hx
    · exact Or.inr (h.super.trans hx)

open Fallible

/-- A write behind the primary superblock. -/
theorem writeDisk_frame {r : WriteOutcome} {pos len : ℕ} {src : Block} (hpos : 2048 ≤ pos) :
    SucceedsIff GroupFrame (r = .done) (writeDisk r pos src len) st := by
  have hframe : ∀ src, GroupFrame st { st with disk := memcpy st.disk pos src len } := fun src =>
    ⟨SuperEdit.refl _, fun p hp => memcpy_of_outside (by omega), rfl, fun _ h => Or.inl h⟩
  cases r with
  | done => exact ⟨hframe src, iff_of_true rfl rfl⟩
  | fails e torn => exact ⟨hframe torn, iff_of_false nofun nofun⟩

theorem GroupsBehind.block {l : SuperLayout} (h : GroupsBehind fs l) {group : ℕ}
    (hgroup : group ≠ 0) :
    2048 ≤ (l.firstDataBlock + group * l.blocksPerGroup) * fs.blocksize := by
  have hper : l.blocksPerGroup ≤ group * l.blocksPerGroup := Nat.le_mul_of_pos_left _ (by omega)
  have hpos := h.perGroup_pos
  rcases h.blocksize with hbs | hbs
  · have hsecond := h.second hbs
    rw [hbs]
    omega
  · calc 2048 ≤ 1 * fs.blocksize := by omega
      _ ≤ _ := Nat.mul_le_mul_right _ (by omega)

/-- The superblock of a group is its first block, and the descriptors are behind it or with the
first block where there is no superblock. -/
theorem GroupsBehind.loc {l : SuperLayout} (h : GroupsBehind fs l) (group : ℕ) :
    ((superAndBgdLoc fs l group).1 ≠ 0 → group ≠ 0 →
      2048 ≤ (superAndBgdLoc fs l group).1 * fs.blocksize) ∧
      ((superAndBgdLoc fs l group).2.1 ≠ 0 →
        2048 ≤ (superAndBgdLoc fs l group).2.1 * fs.blocksize) ∧
        ((superAndBgdLoc fs l group).2.2 ≠ 0 →
          2048 ≤ (superAndBgdLoc fs l group).2.2 * fs.blocksize) := by
  obtain ⟨b, hb⟩ : ∃ b, b = if l.firstDataBlock + group * l.blocksPerGroup = 0 ∧
    fs.blocksize = 1024 then 1
    else l.firstDataBlock + group * l.blocksPerGroup := ⟨_, rfl⟩
  obtain ⟨sup, hsup⟩ : ∃ sup, sup = bgHasSuper ⟨fs.groupDescCount, l.sparseSuper, l.sparseSuper2,
      l.backupBgs⟩ group :=
    ⟨_, rfl⟩
  have hfirst : group ≠ 0 → 2048 ≤ b * fs.blocksize := by
    intro hgroup
    have hblock := h.block hgroup
    rw [hb, if_neg (fun h0 => by rw [h0.1] at hblock; omega)]
    exact hblock
  -- the descriptors are at least one block behind the superblock
  have hsecond : 2048 ≤ (b + 1) * fs.blocksize := by
    by_cases hgroup : group = 0
    · rcases h.blocksize with hbs | hbs
      · have hone : 1 ≤ b := by split at hb <;> omega
        rw [hbs]
        omega
      · calc 2048 ≤ 1 * fs.blocksize := by omega
          _ ≤ _ := Nat.mul_le_mul_right _ (by omega)
    · exact (hfirst hgroup).trans (Nat.mul_le_mul_right _ (by omega))
  -- the first group always has a superblock
  have hzero : group = 0 → sup = true := by
    rintro rfl
    rw [hsup, bgHasSuper, if_pos rfl]
  have hbehind : 2048 ≤ (b + if sup then 1 else 0) * fs.blocksize := by
    cases hs : sup with
    | true => exact hsecond
    | false => exact hfirst fun h0 => by rw [hzero h0] at hs; cases hs
  rw [superAndBgdLoc, ← hsup, ← hb]
  split
  · refine ⟨fun h1 h2 => ?_, fun h1 => ?_, fun h1 => absurd rfl h1⟩
    · dsimp only at h1 ⊢
      split at h1
      · rw [if_pos ‹_›]
        exact hfirst h2
      · exact absurd rfl h1
    · dsimp only at h1 ⊢
      split at h1
      · rw [if_pos ‹_›]
        exact hsecond
      · exact absurd rfl h1
  · have hsuper : (if sup = true then b else 0) ≠ 0 → group ≠ 0 →
        2048 ≤ (if sup = true then b else 0) * fs.blocksize := by
      intro h1 h2
      split at h1
      · rw [if_pos ‹_›]
        exact hfirst h2
      · exact absurd rfl h1
    split
    · exact ⟨hsuper, fun h1 => absurd rfl h1, fun _ => hbehind⟩
    · exact ⟨hsuper, fun h1 => absurd rfl h1, fun h1 => absurd rfl h1⟩

/-- A backup. -/
theorem writeBackupSuper_frame {group groupBlock : ℕ} (hpos : 2048 ≤ groupBlock * fs.blocksize) :
    SucceedsIff GroupFrame (io.backup group = .done)
      (writeBackupSuper fs io group groupBlock) st := by
  have hedit := (superEdit_group st.super (min group 0xffff)).trans (superEdit_csum _)
  have hwrite := @writeDisk_frame { st with
    super := superblockCsumSet (putLe st.super 90 2 (min group 0xffff))
    backups := st.backups ++ [(group, superblockCsumSet (putLe st.super 90 2 (min group 0xffff)))] }
      (io.backup group)
    (groupBlock * fs.blocksize) 1024
      (superblockCsumSet (putLe st.super 90 2 (min group 0xffff))) hpos
  refine ⟨IsTrans.trans st _ _ ?_ hwrite.1, hwrite.2⟩
  refine ⟨hedit, fun _ _ => rfl, rfl, fun x hx => ?_⟩
  rcases List.mem_append.mp hx with hx | hx
  · exact Or.inl hx
  · rw [List.mem_singleton.mp hx]
    exact Or.inr hedit

/-- The descriptors of a group. -/
theorem writeGroupDescs_frame {l : SuperLayout} {group : ℕ} (hl : layoutOf st.super = l)
    (h : GroupsBehind fs l) :
    SucceedsIff GroupFrame
      (fs.superOnly = false →
        ((superAndBgdLoc fs l group).2.1 ≠ 0 ∧ (fs.masterSbOnly = false ∨ group = 0) →
          io.oldDesc group = .done) ∧
          ((superAndBgdLoc fs l group).2.2 ≠ 0 → io.newDesc group = .done))
      (writeGroupDescs fs io group) st := by
  obtain ⟨-, hold, hnew⟩ := h.loc group
  have heq := Eq.refl (writeGroupDescs fs io group st)
  conv_rhs at heq => rw [writeGroupDescs, hl]
  rw [SucceedsIff, heq]
  cases hso : fs.superOnly with
  | true => exact ⟨Std.Refl.refl st, iff_of_true rfl fun hc => Bool.noConfusion hc⟩
  | false =>
    rw [if_neg Bool.false_ne_true, forall_prop_of_true rfl]
    exact SucceedsIff.bind (succeedsIff_ite fun hc => writeDisk_frame (hold hc.1))
      (succeedsIff_ite fun hc => writeDisk_frame (hnew hc))

/-- A round of the loop over the groups. -/
theorem flushGroup_frame {l : SuperLayout} {group : ℕ} (hl : layoutOf st.super = l)
    (h : GroupsBehind fs l) :
    SucceedsIff GroupFrame (GroupDone fs io l group) (flushGroup fs io group) st := by
  have heq := Eq.refl (flushGroup fs io group st)
  conv_rhs at heq => rw [flushGroup, hl]
  rw [SucceedsIff, heq]
  have hbackup : SucceedsIff GroupFrame
      (fs.masterSbOnly = false ∧ group ≠ 0 ∧ (superAndBgdLoc fs l group).1 ≠ 0 →
        io.backup group = .done)
      (if fs.masterSbOnly = false ∧ group ≠ 0 ∧ (superAndBgdLoc fs l group).1 ≠ 0 then
        writeBackupSuper fs io group (superAndBgdLoc fs l group).1 else pure ()) st :=
    succeedsIff_ite fun hc => writeBackupSuper_frame ((h.loc group).1 hc.2.2 hc.2.1)
  exact hbackup.bind (writeGroupDescs_frame ((SuperEdit.layoutOf hbackup.1.super).trans hl) h)

/-- **The loop over the groups** succeeds exactly if no write fails that is due. -/
theorem flushGroups_frame {l : SuperLayout} (h : GroupsBehind fs l) :
    ∀ {groups : List ℕ} {st : FlushState}, layoutOf st.super = l →
      SucceedsIff GroupFrame (∀ group ∈ groups, GroupDone fs io l group)
        (flushGroups fs io groups) st := by
  intro groups
  induction groups with
  | nil => exact fun _ => ⟨Std.Refl.refl _, iff_of_true rfl fun _ hx => absurd hx List.not_mem_nil⟩
  | cons group groups ih =>
    intro st hl
    have hgroup := @flushGroup_frame fs io st l group hl h
    have hall := hgroup.bind (ih ((SuperEdit.layoutOf hgroup.1.super).trans hl))
    rw [← List.forall_mem_cons (p := GroupDone fs io l)] at hall
    exact hall

/-! ### The primary superblock -/

section Primary

variable {wb : ℕ → WriteOutcome} {orig s : Block}

/-- The disk with the words from `i` on that differ. -/
def diffDisk (orig s : Block) (i : ℕ) (disk : Block) : Block := fun p =>
  if 1024 + 2 * i ≤ p ∧ p < 2048 ∧ sbWord orig ((p - 1024) / 2) ≠ sbWord s ((p - 1024) / 2) then
    s (p - 1024) else disk p

theorem runEnd_spec : ∀ {n i : ℕ}, i ≤ runEnd orig s n i ∧ runEnd orig s n i ≤ i + n ∧
    (∀ w, i ≤ w → w < runEnd orig s n i → sbWord orig w ≠ sbWord s w) ∧
      (runEnd orig s n i < i + n →
        sbWord orig (runEnd orig s n i) = sbWord s (runEnd orig s n i)) := by
  intro n
  induction n with
  | zero => exact fun {i} =>
    ⟨le_refl i, le_refl i, fun w h1 h2 => absurd (h1.trans_lt h2) (lt_irrefl i),
      fun h => absurd h (lt_irrefl i)⟩
  | succ n ih =>
    intro i
    rw [runEnd]
    split
    case isTrue h =>
      exact ⟨le_refl i, by omega, fun w h1 h2 => absurd (h1.trans_lt h2) (lt_irrefl i), fun _ => h⟩
    case isFalse h =>
      obtain ⟨h1, h2, h3, h4⟩ := @ih (i + 1)
      refine ⟨by omega, by omega, fun w hw hlt => ?_, fun hlt => h4 (by omega)⟩
      rcases eq_or_lt_of_le hw with rfl | hw
      · exact h
      · exact h3 w hw hlt

theorem diffDisk_of_le {i : ℕ} (h : 512 ≤ i) (disk : Block) : diffDisk orig s i disk = disk := by
  funext p
  rw [diffDisk, if_neg (by omega)]

theorem diffDisk_same {i : ℕ} (h : sbWord orig i = sbWord s i) (disk : Block) :
    diffDisk orig s (i + 1) disk = diffDisk orig s i disk := by
  funext p
  rw [diffDisk, diffDisk]
  refine if_congr ⟨fun hp => ⟨by omega, hp.2⟩, fun hp => ⟨?_, hp.2⟩⟩ rfl rfl
  by_contra hlt
  have hw : (p - 1024) / 2 = i := by omega
  rw [hw] at hp
  exact hp.2.2 h

/-- A run of words that differ. -/
theorem diffDisk_run {i stop : ℕ} (hlt : i < stop) (hle : stop ≤ 512)
    (hrun : ∀ w, i ≤ w → w < stop → sbWord orig w ≠ sbWord s w)
    (hstop : stop < 512 → sbWord orig stop = sbWord s stop) (disk : Block) :
    diffDisk orig s (stop + 1) (memcpy disk (1024 + 2 * i) (fromPos s (2 * i)) (2 * (stop - i))) =
      diffDisk orig s i disk := by
  have hskip : diffDisk orig s (stop + 1)
    (memcpy disk (1024 + 2 * i) (fromPos s (2 * i)) (2 * (stop - i))) =
      diffDisk orig s stop (memcpy disk (1024 + 2 * i) (fromPos s (2 * i)) (2 * (stop - i))) := by
    rcases hle.lt_or_eq with hlt' | rfl
    · exact diffDisk_same (hstop hlt') _
    · rw [diffDisk_of_le (by omega), diffDisk_of_le (by omega)]
  rw [hskip]
  funext p
  rw [diffDisk, diffDisk]
  by_cases hp : 1024 + 2 * i ≤ p ∧ p < 1024 + 2 * stop
  · rw [if_neg (by omega), memcpy_of_inside hp.1 (by omega), fromPos,
      if_pos ⟨hp.1, by omega, hrun _ (by omega) (by omega)⟩]
    exact congrArg s (by omega)
  · rw [memcpy_of_outside (by omega)]
    have hiff : 1024 + 2 * stop ≤ p ∧ p < 2048 ↔ 1024 + 2 * i ≤ p ∧ p < 2048 := by omega
    exact if_congr (by rw [← and_assoc, ← and_assoc, hiff]) rfl rfl

/-- **The words that differ** are written, if every run of them is. -/
theorem writeDiffs_spec : ∀ {n i : ℕ} {st : FlushState}, 512 ≤ n + i →
    (i < 512 → i = 0 ∨ sbWord orig (i - 1) = sbWord s (i - 1)) →
      (∃ disk, (writeDiffs wb orig s n i st).2 = { st with disk := disk }) ∧
        ((∀ w, i ≤ w → RunStart orig s w → wb w = .done) →
          writeDiffs wb orig s n i st = (.ok true, { st with disk := diffDisk orig s i st.disk })) ∧
          ((writeDiffs wb orig s n i st).1 = .ok true → ∀ w, i ≤ w → RunStart orig s w →
            wb w = .done) := by
  intro n
  induction n with
  | zero =>
    intro i st hn _
    refine ⟨⟨st.disk, rfl⟩, fun _ => ?_, fun _ w hw h => absurd h.1 (by omega)⟩
    rw [diffDisk_of_le (by omega)]
    rfl
  | succ n ih =>
    intro i st hn hi
    have heq := Eq.refl (writeDiffs wb orig s (n + 1) i st)
    conv_rhs at heq => rw [writeDiffs]
    dsimp only at heq
    by_cases h512 : 512 ≤ i
    · rw [if_pos h512] at heq
      rw [heq, diffDisk_of_le h512]
      exact ⟨⟨st.disk, rfl⟩, fun _ => rfl, fun _ w hw h => absurd h.1 (by omega)⟩
    rw [if_neg h512] at heq
    by_cases hsame : sbWord orig i = sbWord s i
    · rw [if_pos hsame] at heq
      have hstarts : ∀ w, RunStart orig s w → (i ≤ w ↔ i + 1 ≤ w) := by
        refine fun w h => ⟨fun hw => ?_, fun hw => by omega⟩
        rcases eq_or_lt_of_le hw with rfl | hlt
        · exact absurd hsame h.2.1
        · exact hlt
      obtain ⟨h1, h2, h3⟩ := @ih (i + 1) st (by omega) fun _ => Or.inr hsame
      rw [heq, ← diffDisk_same hsame]
      exact ⟨h1, fun h => h2 fun w hw hs => h w ((hstarts w hs).mpr hw) hs,
        fun h w hw hs => h3 h w ((hstarts w hs).mp hw) hs⟩
    rw [if_neg hsame] at heq
    obtain ⟨hlt, hle, hrun, hstop⟩ := @runEnd_spec orig s (512 - (i + 1)) (i + 1)
    obtain ⟨stop, hs⟩ : ∃ stop, stop = runEnd orig s (512 - (i + 1)) (i + 1) := ⟨_, rfl⟩
    rw [← hs] at hlt hle hrun hstop heq
    have hstart : RunStart orig s i := ⟨by omega, hsame, hi (by omega)⟩
    cases hwb : wb i with
    | fails e torn =>
      rw [hwb] at heq
      have hnot : ¬∀ w, i ≤ w → RunStart orig s w → wb w = .done := by
        intro h
        have hdone := h i (le_refl i) hstart
        rw [hwb] at hdone
        cases hdone
      cases e with
      | noGroupDesc =>
        rw [heq]
        exact ⟨⟨_, rfl⟩, fun h => absurd h hnot, nofun⟩
      | unimplemented =>
        rw [heq]
        exact ⟨⟨_, rfl⟩, fun h => absurd h hnot, nofun⟩
      | io code =>
        rw [heq]
        exact ⟨⟨_, rfl⟩, fun h => absurd h hnot, nofun⟩
    | done =>
      rw [hwb] at heq
      -- behind a run is a word that is the same, and in it no other run begins
      have hrun' : ∀ w, i ≤ w → w < stop → sbWord orig w ≠ sbWord s w := by
        intro w hw hw'
        rcases eq_or_lt_of_le hw with rfl | hlt'
        · exact hsame
        · exact hrun w hlt' hw'
      have hstop' : stop < 512 → sbWord orig stop = sbWord s stop := fun h => hstop (by omega)
      have hstarts : ∀ w, RunStart orig s w → (i ≤ w ↔ w = i ∨ stop + 1 ≤ w) := by
        refine fun w h => ⟨fun hw => ?_, fun hw => by omega⟩
        by_contra hcon
        rcases Nat.lt_or_ge w stop with hw' | hw'
        · exact hrun' (w - 1) (by omega) (by omega) (h.2.2.resolve_left (by omega))
        · have hws : w = stop := by omega
          exact h.2.1 (hws ▸ hstop' (hws ▸ h.1))
      obtain ⟨h1, h2, h3⟩ := @ih (stop + 1)
        { st with disk := memcpy st.disk (1024 + 2 * i) (fromPos s (2 * i)) (2 * (stop - i)) }
          (by omega)
        fun h => Or.inr (hstop' (by omega))
      rw [heq]
      refine ⟨h1, fun h => ?_, fun h w hw hs' => ?_⟩
      · refine (h2 fun w hw hs' => h w (by omega) hs').trans ?_
        exact congrArg (fun disk => (Except.ok true, { st with disk := disk }))
          (diffDisk_run (by omega) (by omega) hrun' hstop' st.disk)
      · rcases (hstarts w hs').mp hw with rfl | hw
        · exact hwb
        · exact h3 h w hw hs'

theorem writeWhole_spec : ∃ disk, (writeWhole io st).2 = { st with disk := disk } ∧
    ((writeWhole io st).1 = .ok () → ∀ p < 1024, disk (1024 + p) = st.super p) := by
  rw [writeWhole]
  cases io.whole with
  | done => exact ⟨_, rfl, fun _ p hp => memcpy_add hp⟩
  | fails e torn => exact ⟨_, rfl, nofun⟩

/-- Every run of words that differ is written by `write_byte`. -/
def BytesWritten (io : FlushIo) (st : FlushState) (orig : Block) : Prop :=
  ∃ wb, io.writeByte = some wb ∧ st.origSuper = some orig ∧
    ∀ w, RunStart orig st.super w → wb w = .done

/-- **Writing the primary superblock** writes the words that differ, or it writes the whole or
fails. -/
theorem writePrimarySuperblock_spec : ∃ disk origSuper,
    (writePrimarySuperblock io st).2 = { st with disk := disk, origSuper := origSuper } ∧
      (∀ orig, BytesWritten io st orig →
        (writePrimarySuperblock io st).1 = .ok () ∧ disk = diffDisk orig st.super 0 st.disk) ∧
      ((∀ orig, ¬BytesWritten io st orig) → (writePrimarySuperblock io st).1 = .ok () →
        ∀ p < 1024, disk (1024 + p) = st.super p) := by
  obtain ⟨whole, hwhole, hok⟩ := @writeWhole_spec io st
  have heq := Eq.refl (writePrimarySuperblock io st)
  conv_rhs at heq => rw [writePrimarySuperblock]
  -- without byte writes, or without the superblock as it was read, the whole is written
  cases hwb : io.writeByte with
  | none =>
    rw [hwb] at heq
    rw [heq]
    refine ⟨whole, st.origSuper, hwhole, ?_, fun _ => hok⟩
    rintro orig ⟨wb, h, -⟩
    rw [hwb] at h
    cases h
  | some wb =>
    cases ho : st.origSuper with
    | none =>
      rw [hwb, ho] at heq
      rw [heq]
      refine ⟨whole, st.origSuper, hwhole, ?_, fun _ => hok⟩
      rintro orig ⟨wb, -, h, -⟩
      rw [ho] at h
      cases h
    | some orig =>
      rw [hwb, ho] at heq
      obtain ⟨⟨disk, hdisk⟩, hdone, hbytes⟩ :=
        @writeDiffs_spec wb orig st.super 512 0 st (by omega) fun _ => Or.inl rfl
      have hiff : ∀ orig', BytesWritten io st orig' ↔
          orig' = orig ∧ ∀ w, 0 ≤ w → RunStart orig st.super w → wb w = .done := by
        intro orig'
        constructor
        · rintro ⟨wb', h1, h2, h3⟩
          rw [hwb] at h1
          rw [ho] at h2
          cases h1
          cases h2
          exact ⟨rfl, fun w _ => h3 w⟩
        · rintro ⟨rfl, h⟩
          exact ⟨wb, hwb, ho, fun w => h w (Nat.zero_le w)⟩
      -- one run of words that cannot be written byte by byte sends all of it to the whole write
      by_cases hall : ∀ w, 0 ≤ w → RunStart orig st.super w → wb w = .done
      · have hrun := heq.trans (Fallible.bind_of_ok (hdone hall))
        rw [hrun]
        refine ⟨_, _, rfl, fun orig' h => ?_,
          fun h => absurd ((hiff orig).mpr ⟨rfl, hall⟩) (h orig)⟩
        rw [((hiff orig').mp h).1]
        exact ⟨rfl, rfl⟩
      · have hno : ∀ orig', ¬BytesWritten io st orig' := fun orig' h => hall ((hiff orig').mp h).2
        rcases hres : writeDiffs wb orig st.super 512 0 st with ⟨err | b, st'⟩
        · have hrun := heq.trans (Fallible.bind_of_error hres)
          rw [hres] at hdisk
          rw [hrun]
          exact ⟨disk, st.origSuper, hdisk, fun orig' h => absurd h (hno orig'), fun _ => nofun⟩
        · rw [hres] at hdisk hbytes
          have hrun := heq.trans (Fallible.bind_of_ok hres)
          cases b with
          | true => exact absurd (hbytes rfl) hall
          | false =>
            obtain ⟨disk', hdisk', hok'⟩ := @writeWhole_spec io st'
            rw [hrun]
            change st' = _ at hdisk
            subst hdisk
            exact ⟨disk', st.origSuper, hdisk', fun orig' h => absurd h (hno orig'),
              fun _ h => hok' h⟩

end Primary

/-! ### `ext2fs_flush2` -/

/-- What is left when the primary superblock of a state is written. -/
structure PrimaryLeft (io : FlushIo) (noSync : Bool) (st : FlushState)
    (out : Except FlushErr Unit × FlushState) : Prop where
  super : out.2.super = st.super
  backups : out.2.backups = st.backups
  ok : out.1 = .ok () → (noSync = false → io.flushFirst = none ∧ io.flushLast = none) ∧
    ((∃ orig, BytesWritten io st orig ∧ out.2.disk = diffDisk orig st.super 0 st.disk) ∨
      ∀ p < 1024, out.2.disk (1024 + p) = st.super p)
  done : ∀ orig, BytesWritten io st orig →
    (noSync = false → io.flushFirst = none ∧ io.flushLast = none) →
    out.1 = .ok () ∧ out.2.disk = diffDisk orig st.super 0 st.disk

theorem flushStatus_eq (e : Option FlushErr) :
    ∃ r, (if noSync then pure () else flushStatus e : FlushM Unit) st = (r, st) ∧
    (r = .ok () ↔ (noSync = false → e = none)) := by
  cases noSync with
  | true => exact ⟨_, rfl, iff_of_true rfl nofun⟩
  | false =>
    cases e with
    | none => exact ⟨_, rfl, iff_of_true rfl fun _ => rfl⟩
    | some e => exact ⟨.error e, rfl, iff_of_false nofun fun h => absurd (h rfl) nofun⟩

theorem flushPrimary_left {fsState incompat : ℕ} {s : Block}
    (hs : superblockCsumSet (putLe (putLe (putLe st.super 90 2 0) 58 2 fsState) 96 4 incompat) =
      s) :
    PrimaryLeft io noSync { st with super := s } (flushPrimary io noSync fsState incompat st) := by
  obtain ⟨st', hst'⟩ : ∃ st', st' = { st with super := s } := ⟨_, rfl⟩
  have heq := Eq.refl (flushPrimary io noSync fsState incompat st)
  conv_rhs at heq => rw [flushPrimary, hs]
  rw [← hst'] at heq ⊢
  obtain ⟨r, hr, hfirst⟩ := @flushStatus_eq noSync st' io.flushFirst
  obtain ⟨disk, orig', hst, hbytes, hwhole⟩ := @writePrimarySuperblock_spec io st'
  cases r with
  | error err =>
    rw [heq.trans (Fallible.bind_of_error hr)]
    exact ⟨rfl, rfl, nofun, fun orig _ h => absurd (hfirst.mpr fun hn => (h hn).1) nofun⟩
  | ok u =>
    replace heq := heq.trans (Fallible.bind_of_ok hr)
    rcases hp : writePrimarySuperblock io st' with ⟨err | u', st''⟩
    · rw [hp] at hst hbytes
      rw [heq.trans (Fallible.bind_of_error hp)]
      change st'' = _ at hst
      subst hst
      exact ⟨rfl, rfl, nofun, fun orig h _ => absurd (hbytes orig h).1 nofun⟩
    · rw [hp] at hst hbytes hwhole
      change st'' = _ at hst
      subst hst
      obtain ⟨r', hr', hlast⟩ :=
        @flushStatus_eq noSync { st' with disk := disk, origSuper := orig', dirty := false }
          io.flushLast
      rw [heq.trans ((Fallible.bind_of_ok hp).trans ((Fallible.bind_of_ok rfl).trans hr'))]
      refine ⟨rfl, rfl, fun h => ⟨fun hn => ⟨hfirst.mp rfl hn, hlast.mp h hn⟩, ?_⟩,
        fun orig h hf => ⟨hlast.mpr fun hn => (hf hn).2, (hbytes orig h).2⟩⟩
      by_cases hex : ∃ orig, BytesWritten io st' orig
      · obtain ⟨orig, h⟩ := hex
        exact Or.inl ⟨orig, h, (hbytes orig h).2⟩
      · exact Or.inr (hwhole (fun orig h => hex ⟨orig, h⟩) rfl)

/-- In memory all is as before but for the features, and the backups are right. -/
structure FlushLeft (st : FlushState) (incompat : ℕ) (st' : FlushState) : Prop where
  state : sbState st'.super = sbState st.super
  compat : sbCompat st'.super = sbCompat st.super
  incompat : sbIncompat st'.super = incompat
  roCompat : sbRoCompat st'.super = sbRoCompat st.super
  backups : ∀ x ∈ st'.backups, x ∈ st.backups ∨ BackupFlags st.super x.2

/-- The state is put back. -/
theorem flushLeft_of_super {st' : FlushState} {incompat : ℕ}
    (hcompat : sbCompat st'.super = sbCompat st.super)
    (hincompat : sbIncompat st'.super = incompat) (hro : sbRoCompat st'.super = sbRoCompat st.super)
    (hbackups : ∀ x ∈ st'.backups, x ∈ st.backups ∨ BackupFlags st.super x.2) :
    FlushLeft st incompat { st' with super := putLe st'.super 58 2 (sbState st.super) } where
  state := getLe_putLe _ _ (getLe_lt _ 2 _)
  compat := (getLe_putLe_of_disjoint (by omega)).trans hcompat
  incompat := (getLe_putLe_of_disjoint (by omega)).trans hincompat
  roCompat := (getLe_putLe_of_disjoint (by omega)).trans hro
  backups := hbackups

theorem layoutOf_invalidated (s : Block) (w : ℕ) :
    layoutOf (invalidated (putLe (putLe s 48 4 w) 90 2 0)) = layoutOf s ∧
      hasJournalDev (invalidated (putLe (putLe s 48 4 w) 90 2 0)) = hasJournalDev s := by
  have hflags := sameFlags_timed s w
  have hedit := backupFlags_invalidated (putLe (putLe s 48 4 w) 90 2 0)
  have hbit : ∀ k, (0xfffffffb : ℕ).testBit k = true →
      (sbIncompat (invalidated (putLe (putLe s 48 4 w) 90 2 0))).testBit k =
        (sbIncompat s).testBit k := by
    intro k hk
    rw [hedit.incompat, hflags.incompat, Nat.testBit_and, hk, Bool.and_true]
  have hfield : ∀ o n, o + n ≤ 48 ∨ 102 ≤ o →
      getLe (invalidated (putLe (putLe s 48 4 w) 90 2 0)) o n = getLe s o n := by
    intro o n h
    exact getLe_congr fun p _ _ => by
      rw [invalidated, putLe_of_outside (by omega), putLe_of_outside (by omega),
        putLe_of_outside (by omega), putLe_of_outside (by omega)]
  constructor
  · unfold layoutOf
    rw [hbit 4 (by decide), hbit 7 (by decide), hedit.roCompat, hflags.roCompat, hedit.compat,
      hflags.compat, hfield 20 4 (by omega), hfield 32 4 (by omega), hfield 260 4 (by omega),
      hfield 254 2 (by omega), hfield 588 4 (by omega), hfield 592 4 (by omega)]
  · exact hbit 3 (by decide)

theorem writeBitmaps_eq :
    ∃ r desc, writeBitmaps io st = (r, { st with disk := bitmapsDisk io st, groupDesc := desc }) ∧
    (r = .ok () ↔ bitmapsStatus io st = none) := by
  rw [writeBitmaps, bitmapsDisk, bitmapsStatus]
  cases io.writeBitmaps with
  | none => exact ⟨_, _, rfl, iff_of_true rfl rfl⟩
  | some f =>
    dsimp only [Option.bind, Option.elim]
    cases (f st.disk st.groupDesc).1 with
    | none => exact ⟨_, _, rfl, iff_of_true rfl rfl⟩
    | some e => exact ⟨.error e, _, rfl, iff_of_false nofun nofun⟩

/-- What `ext2fs_flush2` comes to. -/
inductive FlushCase (fs : FlushFs) (io : FlushIo) (noSync : Bool) (st : FlushState)
    (out : Except FlushErr Unit × FlushState) :
    Prop
  | stops (h : ¬FlushStarts fs io st) (fails : out.1 ≠ .ok ())
      (left : FlushLeft st (sbIncompat st.super) out.2)
  | faults (h : GroupFault fs io st) (fails : out.1 ≠ .ok ())
      (left : FlushLeft st (sbIncompat st.super &&& 0xfffffffb) out.2)
  | writes (starts : FlushStarts fs io st)
      (groups : hasJournalDev st.super = false → ∀ group < fs.groupDescCount,
        GroupDone fs io (layoutOf st.super) group)
      (left : FlushLeft st (sbIncompat st.super) out.2)
      (st' : FlushState) (super : st'.super = newSuper fs st.super) (origSuper :
        st'.origSuper = st.origSuper)
      (disk : ∀ p < 2048, st'.disk p = bitmapsDisk io st p)
      (primary : ∃ super, PrimaryLeft io noSync st' (out.1, { out.2 with super := super }))

theorem flush2_case (hbehind : GroupsBehind fs (layoutOf st.super)) :
    FlushCase fs io noSync st (flush2 fs io noSync st) := by
  have hsame : ∀ x ∈ st.backups, x ∈ st.backups ∨ BackupFlags st.super x.2 := fun _ => Or.inl
  by_cases hdesc : fs.superOnly = false ∧ hasJournalDev st.super = false ∧ st.groupDesc = none
  · rw [flush2, if_pos hdesc]
    exact .stops (fun h => h.1 hdesc) nofun ⟨rfl, rfl, rfl, rfl, hsame⟩
  rw [flush2, if_neg hdesc]
  dsimp only
  have hflags := sameFlags_timed st.super fs.wtime
  obtain ⟨hlayout, hjdev⟩ := layoutOf_invalidated st.super fs.wtime
  have hbackup := backupFlags_invalidated (putLe (putLe st.super 48 4 fs.wtime) 90 2 0)
  obtain ⟨r, desc, hbitmaps, hstatus⟩ :=
    @writeBitmaps_eq io { st with super := putLe (putLe st.super 48 4 fs.wtime) 90 2 0 }
  rw [flushBody]
  cases r with
  | error err =>
    rw [Fallible.bind_of_error hbitmaps]
    exact .stops (fun h => absurd (hstatus.mpr h.2) nofun) nofun
      (flushLeft_of_super hflags.compat hflags.incompat hflags.roCompat hsame)
  | ok u =>
    have hstarts : FlushStarts fs io st := ⟨hdesc, hstatus.mp rfl⟩
    have hdisk : bitmapsDisk io { st with super := putLe (putLe st.super 48 4 fs.wtime) 90 2 0 } =
      bitmapsDisk io st := rfl
    rw [Fallible.bind_of_ok hbitmaps]
    dsimp only
    rw [hjdev, hdisk]
    obtain ⟨st₁, hst₁⟩ : ∃ st₁ : FlushState,
      st₁ = FlushState.mk (invalidated (putLe (putLe st.super 48 4 fs.wtime) 90 2 0))
      st.origSuper desc (bitmapsDisk io st) st.dirty st.backups := ⟨_, rfl⟩
    have hsuper₁ : st₁.super = invalidated (putLe (putLe st.super 48 4 fs.wtime) 90 2 0) :=
      hst₁ ▸ rfl
    have hgroups : Fallible.SucceedsIff GroupFrame
        (hasJournalDev st.super = false → ∀ group ∈ List.range fs.groupDescCount,
          GroupDone fs io (layoutOf st.super) group)
        (if hasJournalDev st.super then pure ()
          else flushGroups fs io (List.range fs.groupDescCount)) st₁ := by
      cases hasJournalDev st.super with
      | true => exact ⟨Std.Refl.refl _, iff_of_true rfl nofun⟩
      | false =>
        have hloop :=
          @flushGroups_frame fs io _ hbehind (List.range fs.groupDescCount) st₁ (hsuper₁ ▸ hlayout)
        exact ⟨hloop.1, hloop.2.trans ⟨fun h _ => h, fun h => h rfl⟩⟩
    have hbackups : ∀ x, x ∈ st₁.backups ∨ SuperEdit st₁.super x.2 → x ∈ st.backups ∨
        BackupFlags st.super x.2 := by
      rintro x (hx | hx)
      · rw [hst₁] at hx
        exact Or.inl hx
      · rw [hsuper₁] at hx
        have hf := hbackup.of_edit hx
        exact Or.inr ⟨hf.state.trans (by rw [hflags.state]), hf.compat.trans hflags.compat,
          hf.incompat.trans (by rw [hflags.incompat]), hf.roCompat.trans hflags.roCompat⟩
    obtain ⟨hframe, hok⟩ := hgroups
    rw [← hst₁]
    have hdisk₁ : st₁.disk = bitmapsDisk io st := hst₁ ▸ rfl
    have horig₁ : st₁.origSuper = st.origSuper := hst₁ ▸ rfl
    rcases hres : (if hasJournalDev st.super then pure ()
      else flushGroups fs io (List.range fs.groupDescCount) : FlushM Unit) st₁
      with ⟨err | u', st₂⟩
    · -- the feature is still cleared at `errout`
      rw [hres] at hframe hok
      rw [Fallible.bind_of_error hres]
      have hfault : ¬(hasJournalDev st.super = false →
          ∀ group ∈ List.range fs.groupDescCount, GroupDone fs io (layoutOf st.super) group) :=
            fun h =>
        absurd (hok.mpr h) nofun
      obtain ⟨hj, hall⟩ := Classical.not_imp.mp hfault
      have hedit := hframe.super.sameFlags
      rw [hsuper₁] at hedit
      refine .faults ⟨hstarts, hj,
        fun h => hall fun group hg => h group (List.mem_range.mp hg)⟩ nofun
        (flushLeft_of_super (hedit.compat.trans (hbackup.compat.trans hflags.compat))
          (hedit.incompat.trans (hbackup.incompat.trans (by rw [hflags.incompat])))
          (hedit.roCompat.trans (hbackup.roCompat.trans hflags.roCompat)) fun x hx =>
            hbackups x (hframe.backups x hx))
    · rw [hres] at hframe hok
      rw [Fallible.bind_of_ok hres]
      have hsuper := hframe.super
      rw [hsuper₁] at hsuper
      have hprimary :=
        @flushPrimary_left io noSync st₂ _ _ (newSuper fs st.super) (restored_eq hsuper)
      rcases hp : flushPrimary io noSync (sbState st.super) (sbIncompat st.super) st₂ with ⟨r, st₃⟩
      rw [hp] at hprimary
      have hnew := @sameFlags_newSuper fs st.super
      have hsuper₃ : st₃.super = newSuper fs st.super := hprimary.super
      have hbackups₃ : st₃.backups = st₂.backups := hprimary.backups
      refine .writes hstarts (fun hj group hg => hok.mp rfl hj group (List.mem_range.mpr hg))
        (flushLeft_of_super
        (hsuper₃ ▸ hnew.compat) (hsuper₃ ▸ hnew.incompat) (hsuper₃ ▸ hnew.roCompat) fun x hx => ?_)
        { st₂ with super := newSuper fs st.super } rfl (hframe.origSuper.trans horig₁)
        (fun p hp => (hframe.disk p hp).trans (congrFun hdisk₁ p)) ⟨st₃.super, hprimary⟩
      exact hbackups x (hframe.backups x (hbackups₃ ▸ hx))

/-! ### When the flush is right -/

theorem getLe_four (b : Block) (o : ℕ) : getLe b o 4 = getLe b o 2 + 65536 * getLe b (o + 2) 2 := by
  simp only [getLe, Nat.add_assoc, Nat.reduceAdd]
  omega

/-- A field of 32 bits is two words. -/
theorem getLe_four_eq {s s' : Block} {o : ℕ} :
    getLe s' o 4 = getLe s o 4 ↔ getLe s' o 2 = getLe s o 2 ∧
    getLe s' (o + 2) 2 = getLe s (o + 2) 2 := by
  have h1 := getLe_lt s 2 o
  have h2 := getLe_lt s' 2 o
  rw [getLe_four, getLe_four]
  omega

/-- The state and the features word for word. -/
theorem sameFlags_iff {s s' : Block} :
    SameFlags s s' ↔ ∀ w ∈ flagWords, sbWord s' w = sbWord s w := by
  constructor
  · rintro ⟨h1, h2, h3, h4⟩ w hw
    obtain ⟨h5, h6⟩ := getLe_four_eq.mp h2
    obtain ⟨h7, h8⟩ := getLe_four_eq.mp h3
    obtain ⟨h9, h10⟩ := getLe_four_eq.mp h4
    rcases List.mem_cons.mp hw with rfl | hw
    · exact h1
    rcases List.mem_cons.mp hw with rfl | hw
    · exact h5
    rcases List.mem_cons.mp hw with rfl | hw
    · exact h6
    rcases List.mem_cons.mp hw with rfl | hw
    · exact h7
    rcases List.mem_cons.mp hw with rfl | hw
    · exact h8
    rcases List.mem_cons.mp hw with rfl | hw
    · exact h9
    rw [List.mem_singleton.mp hw]
    exact h10
  · intro h
    exact ⟨h 29 (by decide), getLe_four_eq.mpr ⟨h 46 (by decide), h 47 (by decide)⟩,
      getLe_four_eq.mpr ⟨h 48 (by decide), h 49 (by decide)⟩,
      getLe_four_eq.mpr ⟨h 50 (by decide), h 51 (by decide)⟩⟩

theorem sbWord_diffDisk {orig s disk : Block} {w : ℕ} (hw : w < 512) :
    sbWord (fromPos (diffDisk orig s 0 disk) 1024) w =
      if sbWord orig w = sbWord s w then sbWord (fromPos disk 1024) w else sbWord s w := by
  have hword : ∀ p, 2 * w ≤ p → p < 2 * w + 2 → (1024 + p - 1024) / 2 = w := by omega
  split
  case isTrue h =>
    refine getLe_congr fun p h1 h2 => ?_
    rw [fromPos, diffDisk, hword p h1 h2, if_neg (fun hd => hd.2.2 h)]
    rfl
  case isFalse h =>
    refine getLe_congr fun p h1 h2 => ?_
    rw [fromPos, diffDisk, hword p h1 h2, if_pos ⟨by omega, by omega, h⟩, Nat.add_sub_cancel_left]

theorem flagWords_lt : ∀ w ∈ flagWords, w < 512 := by decide

/-- The bit is not set exactly if clearing it changes nothing. -/
theorem and_needsRecovery_iff (s : Block) :
    sbIncompat s &&& 0xfffffffb = sbIncompat s ↔ hasNeedsRecovery s = false := by
  have hmask : ∀ i < 32, i ≠ 2 → (0xfffffffb : ℕ).testBit i = true := by decide
  constructor
  · intro h
    rw [hasNeedsRecovery, ← h, Nat.testBit_and]
    exact Bool.and_false _
  · intro h
    refine Nat.eq_of_testBit_eq fun i => ?_
    rw [Nat.testBit_and]
    by_cases h2 : i = 2
    · rw [h2]
      exact (congrArg (· && _) h).trans h.symm
    rcases Nat.lt_or_ge i 32 with hi | hi
    · rw [hmask i hi h2, Bool.and_true]
    · have hlt : sbIncompat s < 2 ^ i := calc
        sbIncompat s < 2 ^ 32 := getLe_lt s 4 96
        _ ≤ 2 ^ i := Nat.pow_le_pow_right Nat.two_pos hi
      rw [Nat.testBit_lt_two_pow hlt, Bool.false_and]

theorem FlushLeft.sameFlags {st' : FlushState} (h : FlushLeft st (sbIncompat st.super) st') :
    SameFlags st.super st'.super :=
  ⟨h.state, h.compat, h.incompat, h.roCompat⟩

/-- After a write for a group has failed, `needs_recovery` is lost. -/
theorem not_flushRight_of_fault (hbehind : GroupsBehind fs (layoutOf st.super))
    (hfault : GroupFault fs io st)
    (hneeds : hasNeedsRecovery st.super = true) : ¬FlushRight fs io noSync st := by
  intro h
  cases @flush2_case fs io noSync st hbehind with
  | stops hno _ _ => exact hno hfault.1
  | writes _ hgroups _ _ _ _ _ _ => exact hfault.2.2 (hgroups hfault.2.1)
  | faults _ _ hleft =>
    obtain ⟨out, hout⟩ : ∃ out, out = flush2 fs io noSync st := ⟨_, rfl⟩
    have hkept := (h.kept out.1 out.2 hout.symm).incompat
    rw [← hout] at hleft
    rw [hleft.incompat] at hkept
    rw [(and_needsRecovery_iff st.super).mp hkept] at hneeds
    cases hneeds

/-- **Flushing keeps the file system in memory and writes it, exactly if** no write for a group
fails while `needs_recovery` is set, and the words of the state and the features that are not
written are on the disk. -/
theorem flushRight_iff (hbehind : GroupsBehind fs (layoutOf st.super)) :
    FlushRight fs io noSync st ↔
    (hasNeedsRecovery st.super = true → ¬GroupFault fs io st) ∧ RestOnDisk fs io noSync st := by
  -- nothing is written, a group fails, or all groups are written and the superblock is last
  cases @flush2_case fs io noSync st hbehind with
  | stops hno hfails hleft =>
    refine iff_of_true ⟨?_, ?_, ?_⟩ ⟨fun _ h => hno h.1, fun _ _ _ _ _ h => absurd h.starts hno⟩
    · intro r st' h
      rw [h] at hleft
      exact hleft.sameFlags
    · intro st' h
      rw [h] at hfails
      exact absurd rfl hfails
    · intro r st' x h
      rw [h] at hleft
      exact hleft.backups x
  | faults hfault hfails hleft =>
    have hrest : RestOnDisk fs io noSync st :=
      fun _ _ _ _ _ h => absurd (h.groups hfault.2.1) hfault.2.2
    refine ⟨fun h => ⟨fun hneeds _ => not_flushRight_of_fault hbehind hfault hneeds h, hrest⟩,
      fun h => ⟨?_, ?_, ?_⟩⟩
    · intro r st' heq
      rw [heq] at hleft
      have hnot : hasNeedsRecovery st.super = false := Bool.eq_false_iff.mpr fun hneeds =>
        h.1 hneeds hfault
      exact ⟨hleft.state, hleft.compat, hleft.incompat.trans ((and_needsRecovery_iff _).mpr hnot),
        hleft.roCompat⟩
    · intro st' heq
      rw [heq] at hfails
      exact absurd rfl hfails
    · intro r st' x heq
      rw [heq] at hleft
      exact hleft.backups x
  | writes hstarts hgroups hleft st₁ hsuper horig hdisk hprimary =>
    obtain ⟨super, hprimary⟩ := hprimary
    have hnew := sameFlags_iff.mp (@sameFlags_newSuper fs st.super)
    have hfault : ¬GroupFault fs io st := fun h => h.2.2 (hgroups h.2.1)
    have hold : ∀ w < 512, sbWord (fromPos st₁.disk 1024) w =
      sbWord (fromPos (bitmapsDisk io st) 1024) w := fun w hw =>
      getLe_congr fun p h1 h2 => hdisk _ (by omega)
    constructor
    · intro h
      refine ⟨fun _ => hfault, fun wb orig hwb ho hruns hno w hw heq => ?_⟩
      obtain ⟨hok, hout⟩ := hprimary.done orig ⟨wb, hwb, horig.trans ho, hsuper ▸ hruns⟩ hno.flushes
      -- a word that is the same in memory was not written, so the disk must have had it
      have hword := sameFlags_iff.mp (h.primary _ (Prod.ext hok rfl)) w hw
      change (flush2 fs io noSync st).2.disk = _ at hout
      rw [hout, sbWord_diffDisk (flagWords_lt w hw), hsuper, hnew w hw, if_pos heq,
        hold w (flagWords_lt w hw)] at hword
      exact hword
    · intro h
      refine ⟨fun r st' heq => ?_, fun st' heq => sameFlags_iff.mpr fun w hw => ?_,
        fun r st' x heq => ?_⟩
      · rw [heq] at hleft
        exact hleft.sameFlags
      · rw [heq] at hprimary
        obtain ⟨hflushes, ⟨orig, ⟨wb, hwb, ho, hruns⟩, hout⟩ | hwhole⟩ := hprimary.ok rfl
        · change st'.disk = _ at hout
          rw [hout, sbWord_diffDisk (flagWords_lt w hw), hsuper, hnew w hw]
          split
          case isTrue hsame =>
            rw [hold w (flagWords_lt w hw)]
            exact h.2 wb orig hwb (horig.symm.trans ho) (hsuper ▸ hruns) ⟨hstarts, hgroups,
              hflushes⟩ w hw hsame
          case isFalse => rfl
        · rw [← hnew w hw]
          have hlt := flagWords_lt w hw
          exact getLe_congr fun p h1 h2 => (hwhole p (by omega)).trans (congrFun hsuper p)
      · rw [heq] at hleft
        exact hleft.backups x

/-- A superblock with `needs_recovery`, of two groups of 8192 blocks. -/
def recoverySuper : Block :=
  putLe (putLe (putLe (putLe zeroBlock 20 4 1) 32 4 8192) 58 2 1) 96 4 4

def recoveryFs : FlushFs := ⟨1024, 2, 1, false, false, 0⟩

def recoveryState : FlushState := ⟨recoverySuper, none, some zeroBlock, zeroBlock, true, []⟩

/-- All writes succeed but, perhaps, those of backups. -/
def backupIo (backup : WriteOutcome) : FlushIo :=
  ⟨none, fun _ => backup, fun _ => .done, fun _ => .done, none, none, .done, none⟩

theorem groupsBehind_recoverySuper : GroupsBehind recoveryFs (layoutOf recoverySuper) :=
  ⟨Or.inl rfl, by decide, fun _ => by decide⟩

/-- The write of the backup in the second group fails. -/
theorem not_flushRight_backup_fails :
    ¬FlushRight recoveryFs (backupIo (.fails (.io 5) zeroBlock)) false recoveryState := by
  refine not_flushRight_of_fault groupsBehind_recoverySuper ⟨⟨by decide, rfl⟩, by decide,
    fun h => ?_⟩ (by decide)
  have hdone := (h 1 (by decide)).1 ⟨rfl, by decide, by decide⟩
  cases hdone

theorem flushRight_iff_no_fault : FlushRight recoveryFs (backupIo .done) false recoveryState :=
  (flushRight_iff groupsBehind_recoverySuper).mpr
    ⟨fun _ h => h.2.2 fun _ _ => ⟨fun _ => rfl, fun _ => ⟨fun _ => rfl, fun _ => rfl⟩⟩, nofun⟩

end Flushed

end E2fsprogs
