import E2fsprogs.Resize.ResizeInode

/-!
# The creator and the checker of the resize inode agree

What `E2fsprogs.createResizeInode` makes of an empty inode passes `E2fsprogs.checkResizeInode` and
is left alone by a second call; and what passes the check is not found corrupt by the creator. The
checker looks at a quarter of the reserved blocks only.
-/

namespace E2fsprogs

section Agree

variable {g : ResizeGeometry}

/-- The groups with a backup, but the first. -/
def ResizeGeometry.backups (g : ResizeGeometry) : List ℕ :=
  (List.range' 1 (g.groupDescCount - 1)).filter (bgHasSuper g.toBackupGeometry)

/-- The entry of a reserved block for a group. -/
def ResizeGeometry.expect (g : ResizeGeometry) (gdtBlk grp : ℕ) : ℕ :=
  (gdtBlk + grp * g.blocksPerGroup) % 2 ^ 32

/-- The first reserved block. -/
def ResizeGeometry.base (g : ResizeGeometry) : ℕ := g.sbBlk + 1 + g.descBlocks

/-- A file system with a resize inode: of less than `2 ^ 32` blocks, with the reserved blocks of
every backup on the device. -/
structure ResizeGeometry.Ok (g : ResizeGeometry) : Prop where
  sparse : g.sparseSuper = true ∨ g.sparseSuper2 = true
  ascending : g.sparseSuper2 = true → g.backupBgs.1 ≠ 0 → g.backupBgs.2 ≠ 0 →
    g.backupBgs.1 < g.backupBgs.2
  size : g.blocksCount < 2 ^ 32
  perGroup : 8 ≤ g.blocksPerGroup
  groups : (g.groupDescCount - 1) * g.blocksPerGroup < g.blocksCount
  apb : 0 < g.apb
  reserved : g.reservedGdtBlocks ≤ g.apb
  room : ∀ grp < g.groupDescCount, bgHasSuper g.toBackupGeometry grp = true →
    g.base + g.reservedGdtBlocks + grp * g.blocksPerGroup ≤ g.blocksCount

/-- The loop over the counters is a loop over the groups. -/
theorem ResizeGeometry.Ok.backups_eq (hg : g.Ok) :
    backupsFrom g.toBackupGeometry (g.groupDescCount + 3) firstCounters = g.backups := by
  refine backupsFrom_eq_filter hg.sparse hg.ascending ?_
  have h1 := hg.groups
  have h2 := hg.size
  have h3 : (g.groupDescCount - 1) * 8 ≤ (g.groupDescCount - 1) * g.blocksPerGroup :=
    Nat.mul_le_mul_left _ hg.perGroup
  omega

/-- The entries that are expected are block numbers of the device. -/
theorem ResizeGeometry.Ok.expect_ne_zero (hg : g.Ok) {i grp : ℕ} (hi : i < g.reservedGdtBlocks)
    (h : grp ∈ g.backups) :
    g.expect (g.base + i) grp ≠ 0 := by
  obtain ⟨hmem, hsuper⟩ := List.mem_filter.mp h
  have hgrp := List.mem_range'_1.mp hmem
  have hroom := hg.room grp (by omega) hsuper
  have hsize := hg.size
  have hbase : 0 < g.base := by
    rw [ResizeGeometry.base]
    omega
  rw [ResizeGeometry.expect, Nat.mod_eq_of_lt (by omega)]
  omega

/-! ### The entries of a reserved block -/

/-- The loop of `addBackups`, over a list of groups. -/
def fillBackups (g : ResizeGeometry) (gdtBlk : ℕ) : List ℕ → ℕ → (ℕ → ℕ) → ℕ → (ℕ → ℕ) × ℕ × Bool
  | [], _, gdtBuf, added => (gdtBuf, added, false)
  | grp :: l, last, gdtBuf, added =>
    if gdtBuf last = 0 then
      fillBackups g gdtBlk l (last + 1) (Function.update gdtBuf last (g.expect gdtBlk grp))
        (added + 1)
    else if gdtBuf last ≠ g.expect gdtBlk grp then (gdtBuf, added, true)
    else fillBackups g gdtBlk l (last + 1) gdtBuf added

theorem addBackups_eq (gdtBlk n : ℕ) :
    ∀ c last gdtBuf added, addBackups g gdtBlk n c last gdtBuf added =
    fillBackups g gdtBlk (backupsFrom g.toBackupGeometry n c) last gdtBuf added := by
  induction n with
  | zero => exact fun _ _ _ _ => rfl
  | succ n ih =>
    intro c last gdtBuf added
    rw [addBackups, backupsFrom]
    dsimp only
    split
    · rw [fillBackups, ih, ih]
      rfl
    · rfl

/-- An array whose entries, from `last` on, are the expected ones. -/
def HasBackups (g : ResizeGeometry) (gdtBlk : ℕ) (l : List ℕ) (last : ℕ) (buf : ℕ → ℕ) : Prop :=
  ∀ k grp, l[k]? = some grp → buf (last + k) = g.expect gdtBlk grp

/-- An array whose entries, from `last` on, are the expected ones or not set. -/
def MayHaveBackups (g : ResizeGeometry) (gdtBlk : ℕ) (l : List ℕ) (last : ℕ) (buf : ℕ → ℕ) : Prop :=
  ∀ k grp, l[k]? = some grp → buf (last + k) = 0 ∨ buf (last + k) = g.expect gdtBlk grp

/-- **The missing entries are added.** -/
theorem fillBackups_may {gdtBlk : ℕ} {l : List ℕ} {last added : ℕ} {buf : ℕ → ℕ}
    (h : MayHaveBackups g gdtBlk l last buf) :
    (fillBackups g gdtBlk l last buf added).2.2 = false ∧
      HasBackups g gdtBlk l last (fillBackups g gdtBlk l last buf added).1 ∧
      ∀ k < last, (fillBackups g gdtBlk l last buf added).1 k = buf k := by
  induction l generalizing last added buf with
  | nil => exact ⟨rfl, fun k grp hk => by simp at hk, fun _ _ => rfl⟩
  | cons grp l ih =>
    have hhead := h 0 grp rfl
    rw [Nat.add_zero] at hhead
    have htail : ∀ {buf' : ℕ → ℕ}, (∀ k, last < k → buf' k = buf k) →
        MayHaveBackups g gdtBlk l (last + 1) buf' := by
      intro buf' hbuf k grp' hk
      rw [hbuf _ (by omega), show last + 1 + k = last + (k + 1) by omega]
      exact h (k + 1) grp' (by simpa using hk)
    have hdone : ∀ {buf' : ℕ → ℕ} {added' : ℕ}, buf' last = g.expect gdtBlk grp →
        (∀ k, last < k → buf' k = buf k) → (∀ k < last, buf' k = buf k) →
        (fillBackups g gdtBlk l (last + 1) buf' added').2.2 = false ∧
          HasBackups g gdtBlk (grp :: l) last (fillBackups g gdtBlk l (last + 1) buf' added').1 ∧
          ∀ k < last, (fillBackups g gdtBlk l (last + 1) buf' added').1 k = buf k := by
      intro buf' added' hlast habove hbelow
      obtain ⟨h1, h2, h3⟩ := @ih _ added' _ (htail habove)
      refine ⟨h1, fun k grp' hk => ?_, fun k hk => (h3 k (by omega)).trans (hbelow k hk)⟩
      cases k with
      | zero =>
        rw [List.getElem?_cons_zero] at hk
        rw [← Option.some.inj hk, ← hlast]
        exact h3 last (by omega)
      | succ k =>
        rw [show last + (k + 1) = last + 1 + k by omega]
        exact h2 k grp' (by simpa using hk)
    rw [fillBackups]
    split
    · refine hdone (Function.update_self _ _ _) (fun k hk => ?_) (fun k hk => ?_)
      · exact Function.update_of_ne (by omega) _ _
      · exact Function.update_of_ne (by omega) _ _
    · next hne =>
      rw [if_neg (not_not.mpr (hhead.resolve_left hne))]
      exact hdone (hhead.resolve_left hne) (fun _ _ => rfl) (fun _ _ => rfl)

/-- **When no entry is missing, nothing is added.** -/
theorem fillBackups_has {gdtBlk : ℕ} {l : List ℕ} {last added : ℕ} {buf : ℕ → ℕ}
    (hne : ∀ grp ∈ l, g.expect gdtBlk grp ≠ 0) (h : HasBackups g gdtBlk l last buf) :
    fillBackups g gdtBlk l last buf added = (buf, added, false) := by
  induction l generalizing last with
  | nil => rfl
  | cons grp l ih =>
    have hhead := h 0 grp rfl
    rw [Nat.add_zero] at hhead
    rw [fillBackups, if_neg (hhead ▸ hne grp List.mem_cons_self), if_neg (not_not.mpr hhead)]
    refine ih (fun grp' hmem => hne grp' (List.mem_cons_of_mem _ hmem)) fun k grp' hk => ?_
    rw [show last + 1 + k = last + (k + 1) by omega]
    exact h (k + 1) grp' (by simpa using hk)

theorem fillBackups_le {gdtBlk : ℕ} {l : List ℕ} : ∀ {last added : ℕ} {buf : ℕ → ℕ},
    added ≤ (fillBackups g gdtBlk l last buf added).2.1 := by
  induction l with
  | nil => exact le_refl _
  | cons grp l ih =>
    intro last added buf
    rw [fillBackups]
    split
    · exact (Nat.le_succ added).trans ih
    · split
      · exact le_refl _
      · exact ih

/-- An array to which nothing was added is as it was. -/
theorem fillBackups_of_added {gdtBlk : ℕ} {l : List ℕ} {last added : ℕ} {buf : ℕ → ℕ}
    (h : (fillBackups g gdtBlk l last buf added).2.1 = added) :
    (fillBackups g gdtBlk l last buf added).1 = buf := by
  induction l generalizing last with
  | nil => rfl
  | cons grp l ih =>
    rw [fillBackups] at h ⊢
    split
    · next h0 =>
      rw [if_pos h0] at h
      have :=
        @fillBackups_le g gdtBlk l (last + 1) (added + 1)
          (Function.update buf last (g.expect gdtBlk grp))
      omega
    · next h0 =>
      rw [if_neg h0] at h
      split
      · rfl
      · next h1 =>
        rw [if_neg h1] at h
        exact ih h

/-- **The checker accepts the expected entries** and no others. -/
theorem checkBackups_iff {indBuf : ℕ → ℕ} {pblk : ℕ} : ∀ {l : List ℕ} {indOff : ℕ},
    checkBackups g indBuf pblk l indOff = true ↔
      HasBackups g pblk (l.filter (bgHasSuper g.toBackupGeometry)) indOff indBuf := by
  intro l
  induction l with
  | nil => exact iff_of_true rfl fun k grp hk => by simp at hk
  | cons j l ih =>
    intro indOff
    rw [checkBackups]
    cases hs : bgHasSuper g.toBackupGeometry j with
    | false => rw [List.filter_cons_of_neg (by simp [hs]), ← ih]; simp
    | true =>
      rw [List.filter_cons_of_pos hs, if_neg (by simp), Nat.mul_comm]
      have hcons : HasBackups g pblk (j :: l.filter (bgHasSuper g.toBackupGeometry)) indOff indBuf ↔
          indBuf indOff = g.expect pblk j ∧
            HasBackups g pblk (l.filter (bgHasSuper g.toBackupGeometry)) (indOff + 1) indBuf := by
        constructor
        · refine fun h => ⟨h 0 j rfl, fun k grp hk => ?_⟩
          rw [show indOff + 1 + k = indOff + (k + 1) by omega]
          exact h (k + 1) grp (by simpa using hk)
        · rintro ⟨h0, h⟩ k grp hk
          cases k with
          | zero =>
            rw [List.getElem?_cons_zero] at hk
            rw [Nat.add_zero, h0, Option.some.inj hk]
          | succ k =>
            rw [show indOff + (k + 1) = indOff + 1 + k by omega]
            exact h k grp (by simpa using hk)
      rw [hcons, show (pblk + j * g.blocksPerGroup) % 2 ^ 32 = g.expect pblk j from rfl]
      by_cases hexp : indBuf indOff = g.expect pblk j
      · rw [if_neg (not_not.mpr hexp), ih, and_iff_right hexp]
      · rw [if_pos hexp]
        exact iff_of_false Bool.false_ne_true fun h => hexp h.1

/-! ### The reserved blocks -/

/-- The reserved block `blk` and its entry `o` of the double indirect block. -/
def HasReserved (g : ResizeGeometry) (dind : ℕ → ℕ) (ind : ℕ → ℕ → ℕ) (o blk : ℕ) : Prop :=
  dind o = blk ∧ HasBackups g blk g.backups 0 (ind blk)

/-- A reserved block to which nothing but entries that are not set is missing. -/
def MayHaveReserved (g : ResizeGeometry) (dind : ℕ → ℕ) (ind : ℕ → ℕ → ℕ) (o blk : ℕ) : Prop :=
  dind o = 0 ∨ (dind o = blk ∧ MayHaveBackups g blk g.backups 0 (ind blk))

/-- What the loop keeps of the inode and of the two flags. -/
structure ResizeWork.Keeps (w w' : ResizeWork) : Prop where
  iBlock : w'.inode.iBlock = w.inode.iBlock
  linksCount : w'.inode.linksCount = w.inode.linksCount
  mode : w'.inode.mode = w.inode.mode
  inodeDirty : w.inodeDirty = true → w'.inodeDirty = true
  dindirDirty : w.dindirDirty = true → w'.dindirDirty = true
  dindir : w'.dindirDirty = false → w'.dindirBuf = w.dindirBuf

theorem ResizeWork.Keeps.trans {w w' w'' : ResizeWork} (h : w.Keeps w') (h' : w'.Keeps w'') :
    w.Keeps w'' where
  iBlock := h'.iBlock.trans h.iBlock
  linksCount := h'.linksCount.trans h.linksCount
  mode := h'.mode.trans h.mode
  inodeDirty := fun hd => h'.inodeDirty (h.inodeDirty hd)
  dindirDirty := fun hd => h'.dindirDirty (h.dindirDirty hd)
  dindir := fun hd => by
    have hd' : w'.dindirDirty = false := by
      rw [← Bool.not_eq_true]
      intro ht
      rw [h'.dindirDirty ht] at hd
      cases hd
    exact (h'.dindir hd).trans (h.dindir hd')

/-- **A round of the loop over the reserved blocks.** -/
theorem addReserved_may (hg : g.Ok) {w : ResizeWork} {o blk : ℕ}
    (h : MayHaveReserved g w.dindirBuf w.ind o blk) :
    ∃ w', addReserved g w o blk = some (w', false) ∧ w.Keeps w' ∧
    HasReserved g w'.dindirBuf w'.ind o blk ∧
      (∀ o', o' ≠ o → w'.dindirBuf o' = w.dindirBuf o') ∧ ∀ b, b ≠ blk → w'.ind b = w.ind b := by
  have hentry : ¬(w.dindirBuf o ≠ 0 ∧ w.dindirBuf o ≠ blk) := by
    rcases h with h | h
    · exact fun hne => hne.1 h
    · exact fun hne => hne.2 h.1
  have hmay : MayHaveBackups g blk g.backups 0 (if decide (w.dindirBuf o = 0) = true then fun _ => 0
      else w.ind blk) := by
    by_cases h0 : w.dindirBuf o = 0
    · rw [if_pos (decide_eq_true h0)]
      exact fun k grp _ => Or.inl rfl
    · rw [if_neg (by simpa using h0)]
      exact (h.resolve_left h0).2
  obtain ⟨hok, hhas, -⟩ := @fillBackups_may g _ _ _ 0 _ hmay
  rw [addReserved]
  dsimp only
  rw [if_neg hentry, addBackups_eq, hg.backups_eq]
  obtain ⟨r, hr⟩ : ∃ r, r = fillBackups g blk g.backups 0
    (if decide (w.dindirBuf o = 0) = true then fun _ => 0 else w.ind blk) 0 := ⟨_, rfl⟩
  rw [← hr] at hok hhas ⊢
  rw [hok, Bool.false_or]
  -- the entry is new, or it names the block already and only lacks backups
  by_cases h0 : w.dindirBuf o = 0
  · simp only [h0, decide_true, Bool.true_or, Bool.not_true, Bool.false_eq_true, if_false,
      if_true, Bool.or_true]
    refine ⟨_, rfl, ⟨rfl, rfl, rfl, fun _ => rfl, fun _ => rfl, nofun⟩,
      ⟨Function.update_self _ _ _, ?_⟩, ?_, ?_⟩
    · dsimp only
      rw [Function.update_self]
      exact hhas
    · exact fun o' ho' => Function.update_of_ne ho' _ _
    · exact fun b hb => Function.update_of_ne hb _ _
  · have hdind : w.dindirBuf o = blk := (h.resolve_left h0).1
    simp only [h0, decide_false, Bool.false_or, Bool.or_false, Bool.false_eq_true,
      if_false, Nat.add_zero]
    split
    · next hnone =>
      refine ⟨_, rfl, ⟨rfl, rfl, rfl, fun hd => by simp [hd], id, fun _ => rfl⟩, ⟨hdind, ?_⟩,
        fun _ _ => rfl, fun _ _ => rfl⟩
      have hzero : r.2.1 = 0 := by simpa using hnone
      rw [hr] at hzero hhas
      rw [fillBackups_of_added hzero, if_neg (by simpa using h0)] at hhas
      exact hhas
    · refine ⟨_, rfl, ⟨rfl, rfl, rfl, fun hd => by simp [hd], id, fun _ => rfl⟩, ⟨hdind, ?_⟩,
        fun _ _ => rfl, ?_⟩
      · dsimp only
        rw [Function.update_self]
        exact hhas
      · exact fun b hb => Function.update_of_ne hb _ _

/-- A round that finds all entries does nothing. -/
theorem addReserved_has (hg : g.Ok) {w : ResizeWork} {o i : ℕ} (hi : i < g.reservedGdtBlocks)
    (h : HasReserved g w.dindirBuf w.ind o (g.base + i)) :
    addReserved g w o (g.base + i) = some (w, false) := by
  have hblk : g.base + i ≠ 0 := by
    rw [ResizeGeometry.base]
    omega
  have h0 : w.dindirBuf o ≠ 0 := h.1 ▸ hblk
  have hfill := @fillBackups_has g _ _ _ 0 _ (fun grp hmem => hg.expect_ne_zero hi hmem) h.2
  rw [addReserved]
  dsimp only
  rw [if_neg (fun hne => hne.2 h.1), addBackups_eq, hg.backups_eq]
  simp only [h0, decide_false, Bool.false_eq_true, if_false]
  rw [hfill]
  simp

/-- The offsets of the entries of the reserved blocks are different. -/
theorem offset_ne {off n i j : ℕ} (hn : n ≤ g.apb) (hi : i < n) (hj : j < n) (hne : i ≠ j) :
    (off + i) % g.apb ≠ (off + j) % g.apb := by
  intro h
  have := (Nat.ModEq.add_left_cancel' off h : i ≡ j [MOD g.apb])
  rw [Nat.ModEq, Nat.mod_eq_of_lt (by omega), Nat.mod_eq_of_lt (by omega)] at this
  exact hne this

/-- **The loop over the reserved blocks** makes all of them complete. -/
theorem addAllReserved_may (hg : g.Ok) {n off blk : ℕ} (hn : n ≤ g.apb) {w : ResizeWork}
    (h : ∀ i < n, MayHaveReserved g w.dindirBuf w.ind ((off + i) % g.apb) (blk + i)) :
    ∃ w', addAllReserved g n w off blk = (w', false) ∧ w.Keeps w' ∧
      (∀ i < n, HasReserved g w'.dindirBuf w'.ind ((off + i) % g.apb) (blk + i)) ∧
      (∀ o, (∀ i < n, o ≠ (off + i) % g.apb) → w'.dindirBuf o = w.dindirBuf o) ∧
      ∀ b, b < blk ∨ blk + n ≤ b → w'.ind b = w.ind b := by
  induction n generalizing off blk w with
  | zero => exact ⟨w, rfl, ⟨rfl, rfl, rfl, id, id, fun _ => rfl⟩, fun i hi => by omega,
    fun _ _ => rfl, fun _ _ => rfl⟩
  | succ n ih =>
    have hoff : ∀ i, (off % g.apb + 1 + i) % g.apb = (off + (i + 1)) % g.apb := by
      intro i
      rw [Nat.add_assoc, Nat.add_comm 1 i, Nat.mod_add_mod]
    have hfirst := h 0 (by omega)
    rw [Nat.add_zero, Nat.add_zero] at hfirst
    obtain ⟨w₁, hw₁, hkeep₁, hhas₁, hdind₁, hind₁⟩ := addReserved_may hg hfirst
    have hrest : ∀ i < n, MayHaveReserved g w₁.dindirBuf w₁.ind ((off % g.apb + 1 + i) % g.apb)
        (blk + 1 + i) := by
      intro i hi
      have hne : (off + (i + 1)) % g.apb ≠ off % g.apb :=
        offset_ne (j := 0) hn (by omega) (by omega) (by omega)
      rw [hoff, show blk + 1 + i = blk + (i + 1) by omega, MayHaveReserved, hdind₁ _ hne,
        hind₁ _ (by omega)]
      exact h (i + 1) (by omega)
    obtain ⟨w₂, hw₂, hkeep₂, hhas₂, hdind₂, hind₂⟩ := ih (by omega) hrest
    refine ⟨w₂, ?_, hkeep₁.trans hkeep₂, fun i hi => ?_, fun o ho => ?_, fun b hb => ?_⟩
    · rw [addAllReserved, hw₁]
      exact hw₂
    · cases i with
      | zero =>
        have hkept : w₂.dindirBuf (off % g.apb) = w₁.dindirBuf (off % g.apb) := by
          refine hdind₂ _ fun i hi => ?_
          rw [hoff]
          exact (offset_ne (i := i + 1) (j := 0) hn (by omega) (by omega) (by omega)).symm
        rw [Nat.add_zero, Nat.add_zero, HasReserved, hkept, hind₂ blk (by omega)]
        exact hhas₁
      | succ i =>
        have := hhas₂ i (by omega)
        rwa [hoff, show blk + 1 + i = blk + (i + 1) by omega] at this
    · rw [hdind₂ o fun i hi => by rw [hoff]; exact ho (i + 1) (by omega),
        hdind₁ o (ho 0 (by omega))]
    · rw [hind₂ b (by omega), hind₁ b (by omega)]

/-- **A loop that finds everything does nothing.** -/
theorem addAllReserved_has (hg : g.Ok) {n i off : ℕ} {w : ResizeWork}
    (hn : i + n ≤ g.reservedGdtBlocks)
    (h : ∀ j < n, HasReserved g w.dindirBuf w.ind ((off + j) % g.apb) (g.base + i + j)) :
    addAllReserved g n w off (g.base + i) = (w, false) := by
  induction n generalizing off i with
  | zero => rfl
  | succ n ih =>
    have hfirst := h 0 (by omega)
    rw [Nat.add_zero, Nat.add_zero] at hfirst
    rw [addAllReserved, addReserved_has hg (by omega) hfirst]
    refine ih (i := i + 1) (by omega) fun j hj => ?_
    have := h (j + 1) (by omega)
    rwa [show g.base + (i + 1) + j = g.base + i + (j + 1) by omega, Nat.add_assoc (off % g.apb),
      Nat.add_comm 1 j, Nat.mod_add_mod]

/-- **The checker's loop** accepts complete reserved blocks and no others. -/
theorem checkReserved_iff {ind : ℕ → ℕ → ℕ} {dind : ℕ → ℕ} {n : ℕ} : ∀ {off pblk : ℕ},
    checkReserved g ind dind n off pblk = true ↔
      ∀ i < n, HasReserved g dind ind ((off + i) % g.apb) (pblk + i) := by
  induction n with
  | zero => exact iff_of_true rfl fun i hi => by omega
  | succ n ih =>
    intro off pblk
    have hoff : ∀ i, (off % g.apb + 1 + i) % g.apb = (off + (i + 1)) % g.apb := by
      intro i
      rw [Nat.add_assoc, Nat.add_comm 1 i, Nat.mod_add_mod]
    have hsplit : (∀ i < n + 1, HasReserved g dind ind ((off + i) % g.apb) (pblk + i)) ↔
        HasReserved g dind ind (off % g.apb) pblk ∧
          ∀ i < n, HasReserved g dind ind ((off % g.apb + 1 + i) % g.apb) (pblk + 1 + i) := by
      constructor
      · refine fun h => ⟨h 0 (by omega), fun i hi => ?_⟩
        rw [hoff, show pblk + 1 + i = pblk + (i + 1) by omega]
        exact h (i + 1) (by omega)
      · rintro ⟨h0, h⟩ i hi
        cases i with
        | zero => exact h0
        | succ i =>
          have := h i (by omega)
          rwa [hoff, show pblk + 1 + i = pblk + (i + 1) by omega] at this
    rw [hsplit, ← ih, checkReserved, show g.blocksize / 4 = g.apb from rfl, HasReserved]
    by_cases hd : dind (off % g.apb) = pblk
    · rw [if_neg (not_not.mpr hd), and_assoc, and_iff_right hd, ResizeGeometry.backups,
        ← checkBackups_iff]
      cases checkBackups g (ind pblk) pblk (List.range' 1 (g.groupDescCount - 1)) 0 <;> simp
    · rw [if_pos hd]
      exact iff_of_false Bool.false_ne_true fun h => hd h.1.1

/-! ### The two sides -/

/-- A resize inode with all its blocks. -/
structure Complete (g : ResizeGeometry) (st : ResizeState) : Prop where
  only : ∀ i, i ≠ dindBlock → st.inode.iBlock i = 0
  dind : st.inode.iBlock dindBlock ≠ 0
  inside : g.firstDataBlock ≤ st.inode.iBlock dindBlock ∧ st.inode.iBlock dindBlock < g.blocksCount
  linksCount : st.inode.linksCount ≠ 0
  mode : st.inode.mode / 0o100000 % 2 ≠ 0
  reserved : ∀ i < g.reservedGdtBlocks,
    HasReserved g (st.ind (st.inode.iBlock dindBlock)) st.ind
      ((g.descBlocks + i) % g.apb) (g.base + i)

/-- The block that `check_resize_inode` begins with. -/
theorem base_eq (g : ResizeGeometry) : (if g.blocksize = 1024 ∧ g.firstDataBlock = 0 then
    g.firstDataBlock + 1 + g.descBlocks + 1 else g.firstDataBlock + 1 + g.descBlocks) = g.base := by
  rw [ResizeGeometry.base, ResizeGeometry.sbBlk]
  split <;> omega

/-- What the checker has seen of an inode that it accepts. -/
theorem checkResizeInode_iff {st : ResizeState} : checkResizeInode g st = true ↔
    ((∀ i < 15, i ≠ dindBlock → st.inode.iBlock i = 0) ∧ st.inode.iBlock dindBlock ≠ 0 ∧
      st.inode.linksCount ≠ 0 ∧
      st.inode.mode / 0o100000 % 2 ≠ 0 ∧ g.firstDataBlock ≤ st.inode.iBlock dindBlock ∧
      st.inode.iBlock dindBlock < g.blocksCount) ∧
    ∀ i < g.reservedGdtBlocks / 4,
      HasReserved g (st.ind (st.inode.iBlock dindBlock)) st.ind ((g.descBlocks + i) % g.apb)
        (g.base + i) := by
  rw [checkResizeInode]
  dsimp only
  rw [base_eq, ← checkReserved_iff]
  split
  · next hbad =>
    refine iff_of_false Bool.false_ne_true ?_
    rintro ⟨⟨h1, h2, h3, h4, h5, h6⟩, -⟩
    simp only [Bool.or_eq_true, List.any_eq_true, List.mem_range, Bool.and_eq_true,
      decide_eq_true_eq] at hbad
    rcases hbad with ((((⟨i, hi, hne, h⟩ | h) | h) | h) | h) | h
    · exact h (h1 i hi hne)
    · exact h2 h
    · exact h3 h
    · exact h4 h
    · omega
    · omega
  · next hgood =>
    refine (and_iff_right ?_).symm
    simp only [Bool.or_eq_true, List.any_eq_true, List.mem_range, Bool.and_eq_true,
      decide_eq_true_eq, not_or, not_exists, not_and, not_not, not_lt, not_le] at hgood
    exact ⟨hgood.1.1.1.1.1, hgood.1.1.1.1.2, hgood.1.1.1.2, hgood.1.1.2, hgood.1.2, hgood.2⟩

theorem Complete.check {st : ResizeState} (h : Complete g st) : checkResizeInode g st = true :=
  checkResizeInode_iff.mpr ⟨⟨fun i _ hi => h.only i hi, h.dind, h.linksCount, h.mode,
    h.inside.1, h.inside.2⟩, fun i hi => h.reserved i (lt_of_lt_of_le hi (Nat.div_le_self _ _))⟩

/-- **The creator leaves a complete inode alone.** -/
theorem Complete.create (hg : g.Ok) {st : ResizeState} (h : Complete g st) (alloc : ℕ) :
    (createResizeInode g alloc st).2.2 = [] := by
  have hbase : g.sbBlk + 1 + g.descBlocks = g.base + 0 := rfl
  rw [createResizeInode]
  simp only [h.dind, decide_false, Bool.false_eq_true, if_false]
  rw [hbase, addAllReserved_has hg
    (by omega) fun j hj => by rw [Nat.add_zero]; exact h.reserved j hj]
  simp

/-- A block that may be allocated for the double indirect block: on the device, and none of the
reserved blocks, which are in use. -/
structure FreshBlock (g : ResizeGeometry) (alloc : ℕ) : Prop where
  ne : alloc ≠ 0
  inside : g.firstDataBlock ≤ alloc ∧ alloc < g.blocksCount
  notReserved : ∀ i < g.reservedGdtBlocks, alloc ≠ g.base + i

/-- **The creator completes an empty inode.** -/
theorem createResizeInode_complete (hg : g.Ok) {alloc : ℕ} (halloc : FreshBlock g alloc)
    {st : ResizeState} (hst : ∀ i, st.inode.iBlock i = 0) :
    (createResizeInode g alloc st).2.1 = false ∧ Complete g (createResizeInode g alloc st).1 := by
  have hbase : g.sbBlk + 1 + g.descBlocks = g.base := rfl
  rw [createResizeInode]
  simp only [hst, decide_true, if_true]
  rw [hbase]
  obtain ⟨w, hw⟩ : ∃ w : ResizeWork, w =
    { dindirBuf := fun _ => 0
      dindirDirty := true
      inode :=
        { iBlock := Function.update st.inode.iBlock dindBlock alloc
          linksCount := 1
          mode := 0o100600
          size := (g.apb * g.apb + g.apb + 12) * g.blocksize
          blocks := 1 }
      inodeDirty := true
      ind := st.ind
      writes := [] } := ⟨_, rfl⟩
  rw [← hw]
  obtain ⟨w', hw', hkeep, hhas, -, -⟩ :=
    @addAllReserved_may g hg _ g.descBlocks g.base hg.reserved w
    fun i _ => Or.inl (by rw [hw])
  rw [hw']
  have hd : w'.dindirDirty = true := hkeep.dindirDirty (by rw [hw])
  have hi : w'.inodeDirty = true := hkeep.inodeDirty (by rw [hw])
  simp only [hd, hi, if_true]
  have hblk : w'.inode.iBlock = Function.update st.inode.iBlock dindBlock alloc :=
    hkeep.iBlock.trans (by rw [hw])
  have hself : w'.inode.iBlock dindBlock = alloc := by
    rw [hblk, Function.update_self]
  refine ⟨trivial, ?_⟩
  constructor
  · intro i hne
    dsimp only
    rw [hblk, Function.update_of_ne hne, hst]
  · dsimp only
    rw [hself]
    exact halloc.ne
  · dsimp only
    rw [hself]
    exact halloc.inside
  · dsimp only
    rw [hkeep.linksCount, hw]
    exact Nat.one_ne_zero
  · dsimp only
    rw [hkeep.mode, hw]
    show 0o100600 / 0o100000 % 2 ≠ 0
    decide
  -- the double indirect block is not one of the reserved ones, so writing it keeps them
  · intro i hlt
    dsimp only
    rw [hself, Function.update_self, HasReserved,
      Function.update_of_ne (halloc.notReserved i hlt).symm]
    exact hhas i hlt

/-- **What the checker accepts, with no other entry set, the creator does not find corrupt.** -/
theorem createResizeInode_of_check (hg : g.Ok) (alloc : ℕ) {st : ResizeState}
    (h : checkResizeInode g st = true)
    (hzero : ∀ i < g.reservedGdtBlocks, g.reservedGdtBlocks / 4 ≤ i →
      st.ind (st.inode.iBlock dindBlock) ((g.descBlocks + i) % g.apb) = 0) :
    (createResizeInode g alloc st).2.1 = false := by
  have hbase : g.sbBlk + 1 + g.descBlocks = g.base := rfl
  obtain ⟨⟨-, hdind, -⟩, hhas⟩ := checkResizeInode_iff.mp h
  rw [createResizeInode]
  simp only [hdind, decide_false, Bool.false_eq_true, if_false]
  rw [hbase]
  obtain ⟨w', hw', -⟩ := @addAllReserved_may g hg _ g.descBlocks g.base hg.reserved
    ({ dindirBuf := st.ind (st.inode.iBlock dindBlock), dindirDirty := false, inode := st.inode,
            inodeDirty := false, ind := st.ind, writes := [] })
    fun i hi => by
      by_cases hseen : i < g.reservedGdtBlocks / 4
      · obtain ⟨h1, h2⟩ := hhas i hseen
        exact Or.inr ⟨h1, fun k grp hk => Or.inr (h2 k grp hk)⟩
      · exact Or.inl (hzero i hi (by omega))
  rw [hw']

/-- **The creator and the checker agree.** An empty inode is made into one that the checker accepts
and that a second call leaves alone; and an inode that the checker accepts, in which no entry is set
but those it has looked at, is not found corrupt. -/
theorem resizeInode_agree (hg : g.Ok) :
    (∀ alloc st, FreshBlock g alloc → (∀ i, st.inode.iBlock i = 0) →
      (createResizeInode g alloc st).2.1 = false ∧
      checkResizeInode g (createResizeInode g alloc st).1 = true ∧
        ∀ alloc', (createResizeInode g alloc' (createResizeInode g alloc st).1).2.2 = []) ∧
    ∀ alloc st, checkResizeInode g st = true →
      (∀ o < g.apb, (∀ i < g.reservedGdtBlocks / 4, o ≠ (g.descBlocks + i) % g.apb) →
        st.ind (st.inode.iBlock dindBlock) o = 0) →
      (createResizeInode g alloc st).2.1 = false := by
  refine ⟨fun alloc st halloc hst => ?_, fun alloc st hcheck hzero => ?_⟩
  · obtain ⟨hok, hcomplete⟩ := createResizeInode_complete hg halloc hst
    exact ⟨hok, hcomplete.check, hcomplete.create hg⟩
  · refine createResizeInode_of_check hg alloc hcheck fun i hi hge => ?_
    have hle := hg.reserved
    refine hzero _ (Nat.mod_lt _ hg.apb) fun j hj => ?_
    exact offset_ne (n := g.reservedGdtBlocks) hle hi (by omega) (by omega)

/-- A file system of four groups with one block of descriptors and six reserved blocks. -/
def fourGroups : ResizeGeometry where
  groupDescCount := 4
  sparseSuper := true
  sparseSuper2 := false
  backupBgs := (0, 0)
  blocksize := 1024
  firstDataBlock := 1
  blocksCount := 32769
  blocksPerGroup := 8192
  descBlocks := 1
  reservedGdtBlocks := 6

/-- A file system on which nothing has been written. -/
def blankResize : ResizeState where
  ind := fun _ _ => 0
  inode := { iBlock := fun _ => 0, linksCount := 0, mode := 0, size := 0, blocks := 0 }

theorem fourGroups_ok : fourGroups.Ok where
  sparse := Or.inl rfl
  ascending := nofun
  size := by decide
  perGroup := by decide
  groups := by decide
  apb := by decide
  reserved := by decide
  room := by
    intro grp hgrp _
    have hlt : grp < 4 := hgrp
    have hbase : fourGroups.base + fourGroups.reservedGdtBlocks = 9 := by decide
    rw [hbase]
    show 9 + grp * 8192 ≤ 32769
    omega

/-- The first of the reserved blocks, and the double indirect block 100 with an entry for it. -/
def firstReserved : ResizeState where
  ind := fun b o => if b = 100 ∧ o = 1 then 3 else if b = 3 ∧ o = 0 then 8195 else if b = 3 ∧
    o = 1 then 24579 else 0
  inode :=
    { iBlock := fun i => if i = 13 then 100 else 0, linksCount := 1, mode := 0o100600, size := 0,
      blocks := 2 }

theorem resizeInode_agree_four :
    checkResizeInode fourGroups (createResizeInode fourGroups 100 blankResize).1 = true ∧
      (createResizeInode fourGroups 100 (createResizeInode fourGroups 100 blankResize).1).2.2 = [] ∧
      (createResizeInode fourGroups 100 firstReserved).2.1 = false := by
  obtain ⟨hcreate, hconverse⟩ := resizeInode_agree fourGroups_ok
  have hbase : fourGroups.base = 3 := by decide
  have hfresh : FreshBlock fourGroups 100 := by
    refine ⟨by decide, by decide, fun i hi => ?_⟩
    have hlt : i < 6 := hi
    omega
  obtain ⟨-, hcheck, htwice⟩ := hcreate 100 blankResize hfresh fun _ => rfl
  refine ⟨hcheck, htwice 100, hconverse 100 firstReserved (by decide) fun o ho hne => ?_⟩
  have hone : o ≠ 1 := hne 0 (by decide)
  show (if 100 = 100 ∧ o = 1 then 3 else if 100 = 3 ∧ o = 0 then 8195 else if 100 = 3 ∧
    o = 1 then 24579 else 0) = 0
  simp [hone]

end Agree

end E2fsprogs
