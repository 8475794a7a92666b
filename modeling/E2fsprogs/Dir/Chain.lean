import E2fsprogs.Dir.Link

/-!
# Chains of directory entries

A directory block is valid when the record lengths lead from entry to entry up to the end
of the block or its tail (`E2fsprogs.DirChain`, `E2fsprogs.ValidDirBlock`). What the block
says is the list of its live entries (`E2fsprogs.liveEntries`). Both depend only on the
bytes of the records, so an edit of one record leaves the rest of the chain alone.
-/

namespace E2fsprogs

/-- A live entry. -/
structure DirEntry where
  inode : ℕ
  fileType : ℕ
  name : List UInt8
  deriving DecidableEq

/-- The entry at an offset. -/
def direntAt (b : Block) (d : ℕ) : DirEntry := ⟨dInode b d, direntFileType b d, direntName b d⟩

/-- The live entries among those at the given offsets. -/
def liveEntries (b : Block) : List ℕ → List DirEntry
  | [] => []
  | d :: ds => if dInode b d ≠ 0 then direntAt b d :: liveEntries b ds else liveEntries b ds

/-- The record lengths lead from `off` over the entries `ds` to `stop`; each is a multiple of
four and has room for the name. -/
def DirChain (fs : DirFs) (b : Block) (stop : ℕ) : ℕ → List ℕ → Prop
  | off, [] => off = stop
  | off, d :: ds => d = off ∧ recLen fs b off % 4 = 0 ∧
      dirRecLen (direntNameLen b off) ≤ recLen fs b off ∧
      DirChain fs b stop (off + recLen fs b off) ds

/-- The checksum tail is in place. -/
def HasTail (fs : DirFs) (b : Block) : Prop :=
  fs.metadataCsum = true → dInode b (fs.blocksize - 12) = 0 ∧ dRecLen b (fs.blocksize - 12) = 12 ∧
    dNameLen b (fs.blocksize - 12) = 0xDE00

/-- **A valid directory block**, with its entries. -/
structure ValidDirBlock (fs : DirFs) (b : Block) (ds : List ℕ) : Prop where
  chain : DirChain fs b (fs.blocksize - csumSize fs) 0 ds
  tail : HasTail fs b

/-- Block sizes up to 64 KiB. -/
structure DirFs.Ok (fs : DirFs) : Prop where
  min_le : 1024 ≤ fs.blocksize
  le_max : fs.blocksize ≤ 65536
  four_dvd : fs.blocksize % 4 = 0

/-- The blocks have the same bytes from `lo` to `hi`. -/
def SameBytes (b b' : Block) (lo hi : ℕ) : Prop := ∀ i, lo ≤ i → i < hi → b' i = b i

/-- The blocks have the same bytes but from `lo` to `hi`. -/
def SameOutside (b b' : Block) (lo hi : ℕ) : Prop := ∀ i, i < lo ∨ hi ≤ i → b' i = b i

/-! ### Lengths -/

section Lengths

variable {fs : DirFs} {b b' : Block} {d : ℕ}

theorem eight_le_dirRecLen (n : ℕ) : 8 ≤ dirRecLen n := by
  rw [dirRecLen]
  omega

theorem dirRecLen_mod (n : ℕ) : dirRecLen n % 4 = 0 := by
  rw [dirRecLen]
  omega

theorem dirRecLen_le (n : ℕ) : dirRecLen n ≤ 264 := by
  rw [dirRecLen]
  omega

theorem name_le_dirRecLen {n : ℕ} (h : n < 256) : n + 8 ≤ dirRecLen n := by
  rw [dirRecLen, Nat.mod_eq_of_lt h]
  omega

theorem direntNameLen_lt (b : Block) (d : ℕ) : direntNameLen b d < 256 :=
  getLe_lt b 1 (d + 6)

theorem dRecLen_lt (b : Block) (d : ℕ) : dRecLen b d < 65536 :=
  getLe_lt b 2 (d + 4)

/-- Below the size of a 64 KiB block, a record length is stored as it is. -/
theorem dRecLen_eq (hfs : fs.Ok) (h : recLen fs b d < 65536) : dRecLen b d = recLen fs b d := by
  have hle := hfs.le_max
  have hlt := dRecLen_lt b d
  rw [recLen, getRecLen] at h ⊢
  split_ifs at h ⊢ with h1 h2
  · rfl
  · omega
  · omega

/-- **Storing a record length.** -/
theorem setRecLen_spec (hfs : fs.Ok) (b : Block) (d len : ℕ) (hlen : len ≤ fs.blocksize)
    (hmod : len % 4 = 0) (hpos : 0 < len) : ∃ v, setRecLen fs len b d = some (putLe b (d + 4) 2 v) ∧
      recLen fs (putLe b (d + 4) 2 v) d = len := by
  have hmax := hfs.le_max
  rw [setRecLen, if_neg (by omega)]
  by_cases hlt : len < 65536
  · refine ⟨len, if_pos hlt, ?_⟩
    rw [recLen, dRecLen, getLe_putLe _ _ (by norm_num; omega), getRecLen]
    split_ifs with h1 h2
    · rfl
    · omega
    · omega
  · refine ⟨65535, ?_, ?_⟩
    · rw [if_neg hlt, if_pos (by omega), if_pos (by omega)]
    · rw [recLen, dRecLen, getLe_putLe _ _ (by norm_num), getRecLen, if_neg (by omega),
        if_pos (Or.inl rfl)]
      omega

end Lengths

/-! ### Entries and chains depend on their records -/

section Congr

variable {fs : DirFs} {b b' : Block} {d off stop : ℕ} {ds : List ℕ}

theorem dInode_congr (h : SameBytes b b' d (d + 4)) : dInode b' d = dInode b d :=
  getLe_congr h

theorem dRecLen_congr (h : SameBytes b b' (d + 4) (d + 6)) : dRecLen b' d = dRecLen b d :=
  getLe_congr h

theorem dNameLen_congr (h : SameBytes b b' (d + 6) (d + 8)) : dNameLen b' d = dNameLen b d :=
  getLe_congr h

theorem recLen_congr (h : SameBytes b b' (d + 4) (d + 6)) : recLen fs b' d = recLen fs b d := by
  rw [recLen, recLen, dRecLen_congr h]

theorem direntNameLen_congr (h : SameBytes b b' (d + 6) (d + 7)) :
    direntNameLen b' d = direntNameLen b d :=
  getLe_congr h

theorem SameBytes.mono {lo hi lo' hi' : ℕ} (h : SameBytes b b' lo hi) (h1 : lo ≤ lo')
    (h2 : hi' ≤ hi) : SameBytes b b' lo' hi' := fun i hi hi' => h i (by omega) (by omega)

theorem direntAt_congr (h : SameBytes b b' d (d + 4))
    (h' : SameBytes b b' (d + 6) (d + 8 + direntNameLen b d)) : direntAt b' d = direntAt b d := by
  have hlen : direntNameLen b' d = direntNameLen b d :=
    direntNameLen_congr (h'.mono le_rfl (by omega))
  have htype : direntFileType b' d = direntFileType b d :=
    getLe_congr (h'.mono (by omega) (by omega))
  have hname : direntName b' d = direntName b d := by
    rw [direntName, direntName, hlen]
    exact bytesAt_congr (h'.mono (by omega) le_rfl)
  rw [direntAt, direntAt, dInode_congr h, htype, hname]

theorem DirChain.le (h : DirChain fs b stop off ds) : off ≤ stop := by
  induction ds generalizing off with
  | nil => exact h.le
  | cons d ds ih =>
    obtain ⟨-, -, -, hrest⟩ := h
    have := ih hrest
    omega

/-- The first entry of a chain. -/
theorem DirChain.head (h : DirChain fs b stop off (d :: ds)) :
    d = off ∧ recLen fs b off % 4 = 0 ∧ 8 ≤ recLen fs b off ∧
      direntNameLen b off + 8 ≤ recLen fs b off ∧ off + recLen fs b off ≤ stop := by
  obtain ⟨rfl, hmod, hroom, hrest⟩ := h
  have h1 := eight_le_dirRecLen (direntNameLen b d)
  have h2 := name_le_dirRecLen (direntNameLen_lt b d)
  exact ⟨rfl, hmod, by omega, by omega, hrest.le⟩

theorem DirChain.congr (h : DirChain fs b stop off ds) (hb : SameBytes b b' off stop) :
    DirChain fs b' stop off ds := by
  induction ds generalizing off with
  | nil => exact h
  | cons d ds ih =>
    obtain ⟨rfl, -, h8, -, hle⟩ := h.head
    obtain ⟨-, hmod, hroom, hrest⟩ := h
    have hrec : recLen fs b' d = recLen fs b d := recLen_congr (hb.mono (by omega) (by omega))
    refine ⟨rfl, by rw [hrec]; exact hmod, ?_, ?_⟩
    · rw [hrec, direntNameLen_congr (hb.mono (by omega) (by omega))]
      exact hroom
    · rw [hrec]
      exact ih hrest (hb.mono (by omega) le_rfl)

theorem liveEntries_congr (h : DirChain fs b stop off ds) (hb : SameBytes b b' off stop) :
    liveEntries b' ds = liveEntries b ds := by
  induction ds generalizing off with
  | nil => rfl
  | cons d ds ih =>
    obtain ⟨rfl, -, h8, hname, hle⟩ := h.head
    obtain ⟨-, -, -, hrest⟩ := h
    rw [liveEntries, liveEntries, dInode_congr (hb.mono le_rfl (by omega)),
      direntAt_congr (hb.mono le_rfl (by omega)) (hb.mono (by omega) (by omega)),
      ih hrest (hb.mono (by omega) le_rfl)]

theorem HasTail.congr (h : HasTail fs b) (hfs : fs.Ok)
    (hb : SameBytes b b' (fs.blocksize - csumSize fs) fs.blocksize) : HasTail fs b' := by
  intro hcsum
  have hmin := hfs.min_le
  have hsize : csumSize fs = 12 := if_pos hcsum
  rw [hsize] at hb
  obtain ⟨h1, h2, h3⟩ := h hcsum
  exact ⟨(dInode_congr (hb.mono le_rfl (by omega))).trans h1,
    (dRecLen_congr (hb.mono (by omega) (by omega))).trans h2,
    (dNameLen_congr (hb.mono (by omega) (by omega))).trans h3⟩

theorem csumSize_le (fs : DirFs) : csumSize fs ≤ 12 := by
  rw [csumSize]
  split
  · exact le_rfl
  · omega

end Congr

end E2fsprogs
