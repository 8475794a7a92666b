import E2fsprogs.Journal.FcApply

/-!
# Staying in the block

The loops over the tags of a block look at where a tag starts, not at where it ends, and
the length of a tag is only checked by the checksum that comes after it. What the two
passes read lies in the block exactly when every tag they come to fits: those the scan
looks at must fit with their header, the structure it copies and the bytes it adds to the
checksum (`E2fsprogs.ScanFits`), those that are replayed also with what their handler
copies (`E2fsprogs.ReplayFits`).
-/

namespace E2fsprogs

/-- The tags the scan looks at: the admitted ones, and the one after them. -/
def scannedTags (tid : ℕ) (area : List FcTagAt) : List FcTagAt :=
  if area.head?.map FcTagAt.tag = some .head then
    area.take ((admitted tid 0 area).length + 1)
  else []

/-- All tags the two passes come to fit into their block. -/
structure AreaFits (size inodeSize tid : ℕ) (area : List FcTagAt) : Prop where
  scan : ∀ t ∈ scannedTags tid area, ScanFits size tid t
  replay : ScanSucceeds tid area →
    ∀ t ∈ area.take ((validated tid area).length % 2 ^ 32), ReplayFits size inodeSize t

section OkOps

variable {size inodeSize : ℕ} {t : FcTagAt} {c : FcCtx Unit}

theorem tlToDarg_okOps (h : (tlToDarg (okOps inodeSize) t c).2.InBlock size) :
    c.InBlock size ∧ 8 ≤ t.len ∧ t.val + t.len ≤ size := by
  obtain ⟨h1, h2⟩ := h
  have hlen : (0 : ℤ) ≤ t.len - 8 := h2 _ List.mem_cons_self
  have hread := h1 _ List.mem_cons_self
  have hsize : sizeT ((t.len : ℤ) - 8) = t.len - 8 := by
    have := sizeT_of_nonneg (show t.len - 8 < 2 ^ 64 by have := t.len_lt; omega)
    rwa [Nat.cast_sub (by omega)] at this
  simp only [hsize] at hread
  refine ⟨⟨fun r hr => ?_, fun n hn => ?_⟩, by omega, by omega⟩
  · exact h1 r (List.mem_cons_of_mem _ (List.mem_cons_of_mem _ hr))
  · exact h2 n (List.mem_cons_of_mem _ hn)

theorem fcHandleRange_okOps {n : ℕ} {modify : Unit → ℤ × Unit}
    (h : (fcHandleRange (okOps inodeSize) n modify t c).2.InBlock size) :
    c.InBlock size ∧ t.val + n ≤ size :=
  FcCtx.inBlock_read.mp h

/-- Where nothing fails the handlers read all that they may read. -/
theorem okOps_readsAll (size inodeSize : ℕ) : (okOps inodeSize).ReadsAll size := by
  have hall : ∀ t c, (fcDispatch (okOps inodeSize) t c).2.InBlock size →
      c.InBlock size ∧ ReplayFits size inodeSize t := by
    intro t c h
    rw [fcDispatch] at h
    rw [ReplayFits]
    cases ht : t.tag with
    | creat => rw [ht] at h; exact @tlToDarg_okOps size inodeSize t c h
    | link => rw [ht] at h; exact @tlToDarg_okOps size inodeSize t c h
    | unlink => rw [ht] at h; exact @tlToDarg_okOps size inodeSize t c h
    | addRange => rw [ht] at h; exact @fcHandleRange_okOps size inodeSize t c _ _ h
    | delRange => rw [ht] at h; exact @fcHandleRange_okOps size inodeSize t c _ _ h
    | inode =>
      rw [ht] at h
      have hread : ((c.readInodeHead inodeSize t).read t.off (t.val + 4)
        (fcInodeLen inodeSize t)).InBlock size := h
      obtain ⟨h1, h2⟩ := FcCtx.inBlock_read.mp hread
      obtain ⟨h3, -, h4⟩ := FcCtx.inBlock_readInodeHead.mp h1
      exact ⟨h3, h4, h2⟩
    | _ => rw [ht] at h; exact ⟨h, trivial⟩
  exact ⟨fun t c h => (hall t c h).1, fun t c h => (hall t c h).2⟩

end OkOps

section Bounds

variable {σ : Type} {j : Journal} {tid sState : ℕ} {fs : σ}

/-- What the scan pass has read. -/
theorem fcPass_scan_inBlock (ops : FcOps σ) (hsize : 2 ≤ j.jBlocksize)
    (hlast : FcAreaEnds j) :
    (fcPass j ops .scan tid (.fresh sState fs)).2.InBlock j.jBlocksize ↔
      ∀ t ∈ scannedTags tid (fcArea j), ScanFits j.jBlocksize tid t := by
  by_cases hhead : AreaHead j
  · have hs : scannedTags tid (fcArea j) =
        (fcArea j).take ((admitted tid 0 (fcArea j)).length + 1) :=
      if_pos hhead
    rw [hs]
    rcases fcPass_scan_of_head tid ops sState fs hsize hlast hhead with
      ⟨-, h⟩ | ⟨t, rest, harea, -, h⟩
    · rw [h.inBlock, h.admitted_eq, List.take_of_length_le (by omega)]
    · have htake : (fcArea j).take ((admitted tid 0 (fcArea j)).length + 1) =
          admitted tid 0 (fcArea j) ++ [t] := by
        have := @List.take_length_add_append _ (admitted tid 0 (fcArea j)) (t :: rest) 1
        rw [← harea] at this
        exact this
      rw [h.inBlock, htake]
  · have hs : scannedTags tid (fcArea j) = [] := if_neg hhead
    rw [hs]
    exact (fcPass_scan_of_not_head tid ops sState fs hsize hhead).inBlock

theorem fcRecover_of_not_scanSucceeds (ops : FcOps σ) (hsize : 2 ≤ j.jBlocksize)
    (hlast : FcAreaEnds j) (h : ¬ScanSucceeds tid (fcArea j)) :
    (fcRecover j ops tid (.fresh sState fs)).2 = (fcPass j ops .scan tid (.fresh sState fs)).2 := by
  have hs := fcPass_scan tid sState fs ops hsize hlast
  cases hscan : (fcPass j ops .scan tid (.fresh sState fs)).1 with
  | some err =>
    rw [fcRecover, ← Prod.mk.eta (p := fcPass j ops .scan tid (.fresh sState fs)), hscan]
  | none =>
    have hhead : ¬AreaHead j := fun hh =>
      h ((fcPass_scan_eq_none_iff ops hsize hlast hh).mp hscan)
    have hnum := hs.numTags
    rw [validated_of_not_areaHead hhead] at hnum
    rw [fcRecover_eq hscan, fcPass_replay_zero hs.pass hnum]

/-- A tag among the first ones that are replayed, or the one after them, has been scanned. -/
theorem mem_scannedTags {area l : List FcTagAt} {t : FcTagAt} (h : ScanSucceeds tid area)
    (hl : l <+: area) (hlen : l.length ≤ (validated tid area).length + 1) (ht : t ∈ l) :
    t ∈ scannedTags tid area := by
  have hhead : area.head?.map FcTagAt.tag = some .head := by
    by_contra hn
    apply h.2
    rw [validated, if_neg hn]
    rfl
  have hle := (validated_isPrefixOf_admitted tid area).length_le
  rw [scannedTags, if_pos hhead]
  have hpre : l <+: area.take ((admitted tid 0 area).length + 1) :=
    List.prefix_take_iff.mpr ⟨hl, by omega⟩
  exact hpre.subset ht

/-- When all tags fit, nothing outside a block is read. -/
theorem AreaFits.inBlock {ops : FcOps σ} (h : AreaFits j.jBlocksize ops.inodeSize tid (fcArea j))
    (hsize : 2 ≤ j.jBlocksize) (hlast : FcAreaEnds j) :
    (fcRecover j ops tid (.fresh sState fs)).2.InBlock j.jBlocksize := by
  have hscan : (fcPass j ops .scan tid (.fresh sState fs)).2.InBlock j.jBlocksize :=
    (fcPass_scan_inBlock ops hsize hlast).mpr h.scan
  by_cases hsucc : ScanSucceeds tid (fcArea j)
  · have hmod := Nat.mod_le (validated tid (fcArea j)).length (2 ^ 32)
    have hl : ∀ l, l <+: fcArea j → l.length ≤ (validated tid (fcArea j)).length % 2 ^ 32 →
        ReplayInBlock j.jBlocksize ops.inodeSize l := by
      intro l hl hlen t ht
      exact ⟨(h.scan t (mem_scannedTags hsucc hl (by omega) ht)).1,
        h.replay hsucc t ((List.prefix_take_iff.mpr ⟨hl, hlen⟩).subset ht)⟩
    rcases fcRecover_outcome sState fs ops hsize hlast hsucc with
      ⟨-, l, rest, harea, hfin⟩ | ⟨-, l, hpre, hlen, -, hin, -⟩
    · refine hfin.inBlock hscan (hl l (harea ▸ List.prefix_append l rest) hfin.length.le) ?_
      intro t ht
      obtain ⟨rest', rfl⟩ : ∃ rest', rest = t :: rest' := List.head?_eq_some_iff.mp ht
      have hpre : l ++ [t] <+: fcArea j := ⟨rest', by rw [harea]; simp⟩
      have hlen : (l ++ [t]).length ≤ (validated tid (fcArea j)).length + 1 := by
        rw [List.length_append, List.length_singleton, hfin.length]
        omega
      exact (h.scan t (mem_scannedTags hsucc hpre hlen (by simp))).1
    · exact hin hscan (hl l hpre hlen)
  · rw [fcRecover_of_not_scanSucceeds ops hsize hlast hsucc]
    exact hscan

/-- When nothing outside a block is read, whatever the file system is like, all tags fit. -/
theorem AreaFits.of_inBlock {inodeSize : ℕ} (hsize : 2 ≤ j.jBlocksize)
    (hlast : FcAreaEnds j)
    (h : (fcRecover j (okOps inodeSize) tid (.fresh 0 ())).2.InBlock j.jBlocksize) :
    AreaFits j.jBlocksize inodeSize tid (fcArea j) := by
  by_cases hsucc : ScanSucceeds tid (fcArea j)
  · obtain ⟨-, l, rest, harea, hfin⟩ := fcRecover_okOps inodeSize hsize hlast hsucc
    obtain ⟨hscan, hfits⟩ := hfin.fits (okOps_readsAll _ _) h
    refine ⟨(fcPass_scan_inBlock _ hsize hlast).mp hscan, fun _ t ht => hfits t ?_⟩
    rwa [← hfin.length, harea, List.take_left] at ht
  · rw [fcRecover_of_not_scanSucceeds _ hsize hlast hsucc] at h
    exact ⟨(fcPass_scan_inBlock _ hsize hlast).mp h, fun hs => absurd hs hsucc⟩

end Bounds

/-- **The fast-commit passes stay in the block exactly when every tag fits.** -/
theorem fcRecover_inBlock_iff {ctx : LoadContext} {sb : Block} {j : Journal}
    (hload : e2fsckJournalLoad ctx sb = .ok j) (hfc : j.features.fastCommit = true)
    (tid inodeSize : ℕ) :
    (∀ (σ : Type) (ops : FcOps σ), ops.inodeSize = inodeSize → ∀ (sState : ℕ) (fs : σ),
      (fcRecover j ops tid (.fresh sState fs)).2.InBlock j.jBlocksize) ↔
    AreaFits j.jBlocksize inodeSize tid (fcArea j) := by
  have hl := loaded_of_load hload
  have hsize : 2 ≤ j.jBlocksize := by have := hl.blocksize_ge; omega
  have hlast : FcAreaEnds j :=
    ⟨(hl.fcLast_eq hfc).ge, (hl.fcLast_eq hfc).le.trans_lt hl.total_lt⟩
  constructor
  · intro h
    exact AreaFits.of_inBlock hsize hlast (h Unit (okOps inodeSize) rfl 0 ())
  · rintro h σ ops rfl sState fs
    exact h.inBlock hsize hlast

/-! ### A tag that does not fit -/

/-- A block with a head for transaction 1, followed by a tag with the given header bytes. -/
def headThen (tag : List UInt8) : Block := fun i =>
  ([9, 0, 8, 0, 0, 0, 0, 0, 1, 0, 0, 0] ++ tag).getD i 0

/-- A journal whose blocks all look like this. -/
def headThenJournal (tag : List UInt8) : Journal := fcJournal 1 fun _ => some (headThen tag)

theorem fcArea_headThenJournal (tag : List UInt8) : ∃ ts, fcArea (headThenJournal tag) =
    ⟨headThen tag, 0, 0⟩ :: fcTags 1024 (headThen tag) 0 1023 12 ++ ts := by
  have hread : jread (headThenJournal tag) 1025 = .ok (headThen tag) := rfl
  have hnext : FcTagAt.next ⟨headThen tag, 0, 0⟩ = 12 := rfl
  have htags : fcTags 1024 (headThen tag) 0 1024 0 =
      ⟨headThen tag, 0, 0⟩ :: fcTags 1024 (headThen tag) 0 1023 12 := by
    rw [fcTags, if_pos (by norm_num), hnext]
  have hfirst : (headThenJournal tag).jFcFirst = 1025 := rfl
  have hlast : (headThenJournal tag).jFcLast = 1280 := rfl
  have hsize : (headThenJournal tag).jBlocksize = 1024 := rfl
  refine ⟨fcAreaFrom (headThenJournal tag) 255 1026, ?_⟩
  rw [fcArea, hfirst, hlast, fcAreaFrom, hread]
  dsimp only
  rw [hfirst, hsize, Nat.sub_self, htags]

theorem scannedTags_headThenJournal (tag : List UInt8) : ∃ ts,
    scannedTags 1 (fcArea (headThenJournal tag)) =
      ⟨headThen tag, 0, 0⟩ :: ⟨headThen tag, 0, 12⟩ :: ts := by
  obtain ⟨ts, hts⟩ := fcArea_headThenJournal tag
  have hadm : FcTagAt.admits 1 0 ⟨headThen tag, 0, 0⟩ = true := rfl
  have htag : (some (⟨headThen tag, 0, 0⟩ : FcTagAt)).map FcTagAt.tag = some .head := rfl
  rw [fcTags, if_pos (by norm_num), List.cons_append, List.cons_append] at hts
  rw [scannedTags, hts, List.head?_cons, if_pos htag, admitted, if_pos hadm, List.length_cons,
    List.take_succ_cons, List.take_succ_cons]
  exact ⟨_, rfl⟩

/-- Remove block 0 of inode 12, and the tail that validates it. -/
def delRangeTags : List UInt8 :=
  [2, 0, 12, 0, 12, 0, 0, 0, 0, 0, 0, 0, 1, 0, 0, 0,
    8, 0, 8, 0, 1, 0, 0, 0, 44, 142, 138, 176]

/-- An area with a head, a range to remove and a tail fits. -/
theorem fcRecover_inBlock_delRange : ∃ ctx sb,
    e2fsckJournalLoad ctx sb = .ok (headThenJournal delRangeTags) ∧
    (validated 1 (fcArea (headThenJournal delRangeTags))).length = 3 ∧
    ∀ (σ : Type) (ops : FcOps σ), ops.inodeSize = 256 → ∀ (sState : ℕ) (fs : σ),
      (fcRecover (headThenJournal delRangeTags) ops 1 (.fresh sState fs)).2.InBlock 1024 := by
  have hload : e2fsckJournalLoad _ _ = .ok (headThenJournal delRangeTags) :=
    load_fcJournal (show 1 < 2 ^ 32 by norm_num) fun _ => some (headThen delRangeTags)
  generalize hbh : headThen delRangeTags = bh
  obtain ⟨ts, harea⟩ : ∃ ts, fcArea (headThenJournal delRangeTags) =
      [⟨bh, 0, 0⟩, ⟨bh, 0, 12⟩, ⟨bh, 0, 28⟩] ++ ⟨bh, 0, 40⟩ :: ts := by
    obtain ⟨ts, hts⟩ := fcArea_headThenJournal delRangeTags
    have h1 : FcTagAt.next ⟨headThen delRangeTags, 0, 12⟩ = 28 := rfl
    have h2 : FcTagAt.next ⟨headThen delRangeTags, 0, 28⟩ = 40 := rfl
    rw [hts, fcTags, if_pos (by norm_num), h1, fcTags, if_pos (by norm_num), h2, fcTags,
      if_pos (by norm_num), hbh]
    exact ⟨_, rfl⟩
  -- the head, the range and the tail are admitted, the padding behind them is not
  have hadm : admitted 1 0 (fcArea (headThenJournal delRangeTags)) =
      [⟨bh, 0, 0⟩, ⟨bh, 0, 12⟩, ⟨bh, 0, 28⟩] := by
    have h0 : FcTagAt.admits 1 0 ⟨bh, 0, 0⟩ = true := by
      subst hbh
      rfl
    have h1 : ∀ crc, FcTagAt.admits 1 crc ⟨bh, 0, 12⟩ = true := by
      subst hbh
      exact fun _ => rfl
    have h2 : FcTagAt.admits 1 (FcTagAt.crcAfter (FcTagAt.crcAfter 0 ⟨bh, 0, 0⟩) ⟨bh, 0, 12⟩)
        ⟨bh, 0, 28⟩ = true := by
      subst hbh
      decide +kernel
    have h3 : ∀ crc, FcTagAt.admits 1 crc ⟨bh, 0, 40⟩ = false := by
      subst hbh
      exact fun _ => rfl
    rw [harea]
    refine admitted_append_cons_of_not ?_ (h3 _)
    rw [admitted, if_pos h0, admitted, if_pos (h1 _), admitted, if_pos h2, admitted]
  have hhead : AreaHead (headThenJournal delRangeTags) := by
    rw [AreaHead, harea]
    subst hbh
    rfl
  have hval : validated 1 (fcArea (headThenJournal delRangeTags)) =
      [⟨bh, 0, 0⟩, ⟨bh, 0, 12⟩, ⟨bh, 0, 28⟩] := by
    rw [validated_of_areaHead hhead, hadm]
    subst hbh
    rfl
  refine ⟨_, _, hload, by rw [hval]; rfl, (fcRecover_inBlock_iff hload rfl 1 256).mpr ⟨?_, ?_⟩⟩
  · have hhead' : (fcArea (headThenJournal delRangeTags)).head?.map FcTagAt.tag = some .head :=
      hhead
    rw [scannedTags, if_pos hhead', hadm, harea]
    subst hbh
    intro t ht
    simp only [List.length_cons, List.length_nil, Nat.reduceAdd, List.cons_append, List.nil_append,
      List.take_succ_cons, List.take_zero, List.mem_cons, List.not_mem_nil, or_false] at ht
    rcases ht with rfl | rfl | rfl | rfl
    · exact ⟨show 4 ≤ 1024 by norm_num, show 12 ≤ 1024 by norm_num,
        fun _ => show 12 ≤ 1024 by norm_num⟩
    · exact ⟨show 16 ≤ 1024 by norm_num, show 28 ≤ 1024 by norm_num⟩
    · exact ⟨show 32 ≤ 1024 by norm_num, show 40 ≤ 1024 by norm_num⟩
    · exact ⟨show 44 ≤ 1024 by norm_num, trivial⟩
  · intro _ t ht
    rw [hval, harea] at ht
    subst hbh
    simp only [List.length_cons, List.length_nil, Nat.reduceAdd, Nat.reducePow, Nat.reduceMod,
      List.cons_append, List.nil_append, List.take_succ_cons, List.take_zero, List.mem_cons,
      List.not_mem_nil, or_false] at ht
    rcases ht with rfl | rfl | rfl
    · trivial
    · exact show 28 ≤ 1024 by norm_num
    · trivial

/-- **A tag that runs over the end of the block.** A head is followed by padding of 65535
bytes; the scan adds them to the checksum of a block of 1024 bytes. -/
theorem longPad_not_inBlock : ∃ ctx sb,
    e2fsckJournalLoad ctx sb = .ok (headThenJournal [7, 0, 255, 255]) ∧
    (headThenJournal [7, 0, 255, 255]).features.fastCommit = true ∧
    (headThenJournal [7, 0, 255, 255]).jBlocksize = 1024 ∧
    ¬(fcRecover (headThenJournal [7, 0, 255, 255]) (okOps 256) 1 (.fresh 0 ())).2.InBlock 1024 := by
  refine ⟨_, _, load_fcJournal (show 1 < 2 ^ 32 by norm_num) _, rfl, rfl, fun h => ?_⟩
  have hfits := AreaFits.of_inBlock (j := headThenJournal [7, 0, 255, 255])
    (show 2 ≤ 1024 by norm_num) ⟨le_rfl, show 1280 < 2 ^ 32 by norm_num⟩ h
  obtain ⟨ts, hts⟩ := scannedTags_headThenJournal [7, 0, 255, 255]
  have htag := (hfits.scan ⟨headThen [7, 0, 255, 255], 0, 12⟩ (by rw [hts]; simp)).2
  have hlen : 12 + 4 + 65535 ≤ 1024 := htag
  omega

end E2fsprogs
