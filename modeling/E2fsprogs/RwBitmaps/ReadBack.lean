import E2fsprogs.RwBitmaps.RoundTrip

/-!
# Reading what has been written

The loop of the writer by its invariant, over the bitmaps that it has come to; the bits that the
reader ends with in closed form; and from both when bitmaps are read back.
-/

namespace E2fsprogs

/-- **The invariant of the writer**, when it has come through the bitmaps `ps`. -/
structure Writing (fs : RwFs) (map : PerSort BlockBitmap) (descs : ℕ → RwDesc)
    (disk : ℕ → Option Block) (ps : List (BitmapSort × ℕ)) (st : RwWriteState) : Prop where
  behind : ∀ sort j, fs.groupBits sort ≤ j → bitAt (st.buf sort) j = true
  empty : ∀ sort, (map sort).Empty → ∀ j, bitAt (st.buf sort) j = true
  loc : ∀ g, (st.descs g).bitmapLoc = (descs g).bitmapLoc
  table : ∀ g, (st.descs g).inodeTableLoc = (descs g).inodeTableLoc
  uninit : ∀ g, (st.descs g).uninit = (descs g).uninit
  untouched : ∀ g, (∀ p ∈ ps, p.2 = g → fs.Skips descs p.1 g) → st.descs g = descs g
  verified : ∀ p ∈ ps, ¬fs.Skips descs p.1 p.2 → fs.groupDescCsumVerify p.2 (st.descs p.2) = true
  kept : ∀ blk, (∀ p ∈ ps, ¬fs.Skips descs p.1 p.2 → (descs p.2).bitmapLoc p.1 ≠ blk) →
    st.disk blk = disk blk
  written : ∀ p ∈ ps, ¬fs.Skips descs p.1 p.2 → ∃ b, st.disk ((descs p.2).bitmapLoc p.1) = some b ∧
    fs.Content (map p.1) p.1 p.2 b ∧ fs.bitmapCsumVerify p.1 (st.descs p.2) b = true

section ReadBack

variable {fs : RwFs} {bal : SearchTree RbExtent → List RbExtent → SearchTree RbExtent}
    {descs descs' : ℕ → RwDesc}
  {disk : ℕ → Option Block} {writable : ℕ → Bool} {map : PerSort BlockBitmap} {sort : BitmapSort}
  {st : RwState} {w : RwWriteState} {g n j m : ℕ} {b : Block} {ps : List (BitmapSort × ℕ)}
    {p : BitmapSort × ℕ}

/-! ### The writer -/

theorem Writing.start : Writing fs map descs disk [] ⟨fun _ _ => 0xff, descs, disk⟩ where
  behind _ _ _ := bitAt_of_ones rfl
  empty _ _ _ := bitAt_of_ones rfl
  loc _ := rfl
  table _ := rfl
  uninit _ := rfl
  untouched _ _ := rfl
  verified _ hp := absurd hp List.not_mem_nil
  kept _ _ := rfl
  written _ hp := absurd hp List.not_mem_nil

theorem Writing.skips_iff (h : Writing fs map descs disk ps w) :
    fs.Skips w.descs sort g ↔ fs.Skips descs sort g := by
  rw [RwFs.Skips, RwFs.Skips, h.uninit]

/-- The setting of the checksums leaves the rest of a descriptor. -/
theorem csumSet_fields (sort : BitmapSort) (g : ℕ) (d : RwDesc) (b : Block) :
    (fs.groupDescCsumSet g (fs.bitmapCsumSet sort d b)).bitmapLoc = d.bitmapLoc ∧
      (fs.groupDescCsumSet g (fs.bitmapCsumSet sort d b)).inodeTableLoc = d.inodeTableLoc ∧
      (fs.groupDescCsumSet g (fs.bitmapCsumSet sort d b)).uninit = d.uninit ∧
      ∀ sort', sort' ≠ sort →
        (fs.groupDescCsumSet g (fs.bitmapCsumSet sort d b)).bitmapCsum sort' =
          d.bitmapCsum sort' := by
  have hset : ∀ d : RwDesc, (fs.groupDescCsumSet g d).bitmapLoc = d.bitmapLoc ∧
      (fs.groupDescCsumSet g d).inodeTableLoc = d.inodeTableLoc ∧
        (fs.groupDescCsumSet g d).uninit = d.uninit ∧
      (fs.groupDescCsumSet g d).bitmapCsum = d.bitmapCsum := fun d => by
    rw [RwFs.groupDescCsumSet]
    split <;> exact ⟨rfl, rfl, rfl, rfl⟩
  obtain ⟨h1, h2, h3, h4⟩ := hset (fs.bitmapCsumSet sort d b)
  rw [h1, h2, h3, h4, RwFs.bitmapCsumSet]
  by_cases hmeta : fs.metadataCsum = false
  · rw [if_pos hmeta]
    exact ⟨rfl, rfl, rfl, fun _ _ => rfl⟩
  · rw [if_neg hmeta]
    exact ⟨rfl, rfl, rfl, fun _ hne => Function.update_of_ne hne ..⟩

theorem csumVerify_congr {d d' : RwDesc} (h : d'.bitmapCsum sort = d.bitmapCsum sort) :
    fs.bitmapCsumVerify sort d' b = fs.bitmapCsumVerify sort d b := by
  rw [RwFs.bitmapCsumVerify, RwFs.bitmapCsumVerify, h]

/-- The buffer of a group, with its padding, holds the bits of the group. -/
theorem content_of_exported (h : fs.Regular) {bm : BlockBitmap} {out out' : Block}
    (hsh : fs.IsShape sort bm.shape) (hg : g < fs.groupDescCount)
    (hex : Exported bm bm.shape (fs.itr sort g) (fs.groupBits sort) out out')
    (hbehind : ∀ j, fs.groupBits sort ≤ j → bitAt out j = true)
    (hempty : bm.Empty → ∀ j, bitAt out j = true) :
    fs.Content bm sort g (if sort = .block ∧ g = fs.groupDescCount - 1 then fs.padLast out'
      else out') := by
  have hplace := (place_group h hsh hg).1
  have hbytes : 8 * ((fs.groupBits sort + 7) / 8) = fs.groupBits sort := by
    rw [RwFs.groupBits]
    omega
  have hcontent : fs.Content bm sort g out' := by
    refine ⟨fun hne j hj _ => ?_, fun hem => ?_, fun j hj => ?_⟩
    · rw [hex.bits hne j hj, hplace]
    · rw [hex.empty hem]
      exact hempty hem
    · rw [hex.behind j (by omega)]
      exact hbehind j hj
  split_ifs with hlast
  · obtain ⟨rfl, rfl⟩ := hlast
    refine ⟨fun hne j hj hn => ?_, fun hem j => ?_, fun j hj => ?_⟩
    · rw [bitAt_padLast, hcontent.bits hne j hj hn, decide_eq_false, Bool.or_false]
      rintro ⟨hbits, hge, -⟩
      have := (lastBits_bounds h hbits).1
      omega
    · rw [bitAt_padLast, hcontent.empty hem, Bool.true_or]
    · rw [bitAt_padLast, hcontent.behind j hj, Bool.true_or]
  · exact hcontent

/-- **A step of the writer.** -/
theorem Writing.step (hbal : ∀ t l, (bal t l).inorder = l) (h : fs.Regular)
    (hw : fs.Writable bal writable map descs) (hinv : Writing fs map descs disk ps w) (hp : p ∉ ps)
    (hps : ∀ q ∈ ps, q.2 < fs.groupDescCount) (hg : p.2 < fs.groupDescCount) :
    ∃ w', fs.writeBitmap writable map w p = .ok w' ∧ Writing fs map descs disk (ps ++ [p]) w' := by
  obtain ⟨sort, g⟩ := p
  dsimp only at hg
  rw [RwFs.writeBitmap]
  dsimp only
  by_cases hskip : fs.Skips w.descs sort g
  · -- the group is passed over
    rw [if_pos hskip]
    have hskip' := hinv.skips_iff.mp hskip
    refine ⟨w, rfl, hinv.behind, hinv.empty, hinv.loc, hinv.table, hinv.uninit, fun g' hall => ?_,
      fun q hq hnot => ?_, fun blk hall => ?_, fun q hq hnot => ?_⟩
    · exact hinv.untouched g' fun q hq => hall q (List.mem_append_left _ hq)
    · rcases List.mem_append.mp hq with hq | hq
      · exact hinv.verified q hq hnot
      · rw [List.mem_singleton.mp hq] at hnot
        exact absurd hskip' hnot
    · exact hinv.kept blk fun q hq => hall q (List.mem_append_left _ hq)
    · rcases List.mem_append.mp hq with hq | hq
      · exact hinv.written q hq hnot
      · rw [List.mem_singleton.mp hq] at hnot
        exact absurd hskip' hnot
  rw [if_neg hskip, writeItr_eq h, writeBits_eq h]
  have hbits := groupBits_le h.toFits h.in_block sort
  obtain ⟨out', hget, hex⟩ := @getRange_ok bal (map sort) (map sort).shape (fs.groupBits sort)
    (fs.itr sort g) (w.buf sort) hbal (hw.reach sort) rfl (by omega)
    ((IsShape.spec h (hw.shape sort)).2.2 g hg)
  rw [hget]
  dsimp only
  have hcontent := content_of_exported h (hw.shape sort) hg hex (hinv.behind sort) (hinv.empty sort)
  obtain ⟨buf, hbuf⟩ : ∃ buf, buf = if sort = .block ∧ g = fs.groupDescCount - 1 then
      fs.padLast out' else out' :=
    ⟨_, rfl⟩
  rw [← hbuf] at hcontent ⊢
  obtain ⟨d, hd⟩ : ∃ d, d = fs.groupDescCsumSet g (fs.bitmapCsumSet sort (w.descs g) buf) :=
    ⟨_, rfl⟩
  obtain ⟨hdloc, hdtable, hduninit, hdcsum⟩ := @csumSet_fields fs sort g (w.descs g) buf
  rw [← hd] at hdloc hdtable hduninit hdcsum ⊢
  have hloc : d.bitmapLoc sort = (descs g).bitmapLoc sort := by rw [hdloc, hinv.loc]
  have hpos := hw.loc_pos sort g hg
  rw [hloc, if_neg (by omega), if_pos (hw.device sort g hg)]
  have hdesc : ∀ g', g' ≠ g → Function.update w.descs g d g' = w.descs g' :=
    fun g' hne => Function.update_of_ne hne ..
  have hself : Function.update w.descs g d g = d := Function.update_self ..
  -- another bitmap has another place
  have hother : ∀ q ∈ ps, (descs q.2).bitmapLoc q.1 ≠ (descs g).bitmapLoc sort := fun q hq heq => by
    obtain ⟨h1, h2⟩ := hw.loc_inj _ _ _ _ (hps q hq) hg heq
    exact hp (by rw [← h1, ← h2]; exact hq)
  refine ⟨_, rfl, fun sort' j hj => ?_, fun sort' hem j => ?_, fun g' => ?_, fun g' => ?_,
    fun g' => ?_, fun g' hall => ?_, fun q hq hnot => ?_, fun blk hall => ?_, fun q hq hnot => ?_⟩
  · rcases eq_or_ne sort' sort with rfl | hne
    · dsimp only
      rw [Function.update_self]
      exact hcontent.behind j hj
    · dsimp only
      rw [Function.update_of_ne hne]
      exact hinv.behind sort' j hj
  · rcases eq_or_ne sort' sort with rfl | hne
    · dsimp only
      rw [Function.update_self]
      exact hcontent.empty hem j
    · dsimp only
      rw [Function.update_of_ne hne]
      exact hinv.empty sort' hem j
  · rcases eq_or_ne g' g with rfl | hne
    · dsimp only
      rw [hself, hdloc, hinv.loc]
    · dsimp only
      rw [hdesc g' hne, hinv.loc]
  · rcases eq_or_ne g' g with rfl | hne
    · dsimp only
      rw [hself, hdtable, hinv.table]
    · dsimp only
      rw [hdesc g' hne, hinv.table]
  · rcases eq_or_ne g' g with rfl | hne
    · dsimp only
      rw [hself, hduninit, hinv.uninit]
    · dsimp only
      rw [hdesc g' hne, hinv.uninit]
  · rcases eq_or_ne g' g with rfl | hne
    · exact absurd (hinv.skips_iff.mpr
        (hall (sort, g') (List.mem_append_right _ (List.mem_singleton_self _)) rfl)) hskip
    · dsimp only
      rw [hdesc g' hne]
      exact hinv.untouched g' fun q hq => hall q (List.mem_append_left _ hq)
  · dsimp only
    rcases eq_or_ne q.2 g with heq | hne
    · rw [heq, hself, hd]
      exact groupDescCsumVerify_set g _
    · rw [hdesc q.2 hne]
      rcases List.mem_append.mp hq with hq | hq
      · exact hinv.verified q hq hnot
      · rw [List.mem_singleton.mp hq] at hne
        exact absurd rfl hne
  · dsimp only
    have hne := hall (sort, g) (List.mem_append_right _ (List.mem_singleton_self _))
      (mt hinv.skips_iff.mpr hskip)
    rw [Function.update_of_ne hne.symm]
    exact hinv.kept blk fun q hq => hall q (List.mem_append_left _ hq)
  · dsimp only
    rcases List.mem_append.mp hq with hq | hq
    · obtain ⟨b, hb, hcon, hver⟩ := hinv.written q hq hnot
      refine ⟨b, by rw [Function.update_of_ne (hother q hq)]; exact hb, hcon, ?_⟩
      rcases eq_or_ne q.2 g with heq | hne
      · have hsort : q.1 ≠ sort := fun hs => hp (by rw [← hs, ← heq]; exact hq)
        rw [heq] at hver ⊢
        rw [hself, csumVerify_congr (hdcsum q.1 hsort)]
        exact hver
      · rw [hdesc q.2 hne]
        exact hver
    · obtain rfl := List.mem_singleton.mp hq
      dsimp only
      rw [hself]
      exact ⟨buf, Function.update_self .., hcontent,
        by rw [hd]; exact csumVerify_set h sort g _ buf⟩

theorem writeList_succ (m : ℕ) :
    (List.range (m + 1)).flatMap (fun g => [(BitmapSort.block, g), (.inode, g)]) =
    (List.range m).flatMap (fun g => [(BitmapSort.block, g), (.inode, g)]) ++ [(.block, m),
      (.inode, m)] := by
  rw [List.range_succ, List.flatMap_append, List.flatMap_singleton]

theorem mem_writeList :
    p ∈ (List.range m).flatMap (fun g => [(BitmapSort.block, g), (.inode, g)]) ↔ p.2 < m := by
  obtain ⟨sort, g⟩ := p
  rw [List.mem_flatMap]
  constructor
  · rintro ⟨g', hg', hmem⟩
    have hlt := List.mem_range.mp hg'
    simp only [List.mem_cons, Prod.mk.injEq, List.not_mem_nil, or_false] at hmem
    dsimp only
    omega
  · intro hlt
    refine ⟨g, List.mem_range.mpr hlt, ?_⟩
    cases sort with
    | block => exact List.mem_cons_self ..
    | inode => exact List.mem_cons_of_mem _ (List.mem_cons_self ..)

/-- **The writer's loop**, by induction on the groups. -/
theorem writeBitmaps_spec (hbal : ∀ t l, (bal t l).inorder = l) (h : fs.Regular)
    (hw : fs.Writable bal writable map descs) :
    ∃ w, fs.writeBitmaps writable map (fun _ => true) descs disk = .ok w ∧
      Writing fs map descs disk ((List.range fs.groupDescCount).flatMap fun g =>
        [(.block, g), (.inode, g)]) w := by
  have hrun : ∀ m ≤ fs.groupDescCount, ∃ w,
      ((List.range m).flatMap fun g => [(BitmapSort.block, g), (.inode, g)]).foldlM
        (fs.writeBitmap writable map)
        ⟨fun _ _ => 0xff, descs, disk⟩ = .ok w ∧
      Writing fs map descs disk ((List.range m).flatMap fun g => [(.block, g), (.inode, g)]) w := by
    intro m hm
    -- each group writes its block bitmap first and its inode bitmap after it
    induction m with
    | zero => exact ⟨_, rfl, .start⟩
    | succ m ih =>
      obtain ⟨w, hrun, hinv⟩ := ih (by omega)
      have hlt : ∀ q ∈ (List.range m).flatMap (fun g => [(BitmapSort.block, g), (.inode, g)]),
          q.2 < fs.groupDescCount := fun q hq => (mem_writeList.mp hq).trans (by omega)
      obtain ⟨w₁, h₁, hinv₁⟩ :=
        @Writing.step fs bal descs disk writable map w _ (.block, m) hbal h hw hinv
        (fun hq => absurd (mem_writeList.mp hq) (lt_irrefl m)) hlt (by dsimp only; omega)
      obtain ⟨w₂, h₂, hinv₂⟩ :=
        @Writing.step fs bal descs disk writable map w₁ _ (.inode, m) hbal h hw hinv₁
        (fun hq => by
          rcases List.mem_append.mp hq with hq | hq
          · exact absurd (mem_writeList.mp hq) (lt_irrefl m)
          · cases (Prod.mk.inj (List.mem_singleton.mp hq)).1)
        (fun q hq => by
          rcases List.mem_append.mp hq with hq | hq
          · exact hlt q hq
          · rw [List.mem_singleton.mp hq]
            dsimp only
            omega) (by dsimp only; omega)
      refine ⟨w₂, ?_, ?_⟩
      · rw [writeList_succ, List.foldlM_append, hrun]
        show [(BitmapSort.block, m), (.inode, m)].foldlM (fs.writeBitmap writable map) w = _
        rw [List.foldlM_cons, h₁]
        show [(BitmapSort.inode, m)].foldlM (fs.writeBitmap writable map) w₁ = _
        rw [List.foldlM_cons, h₂]
        rfl
      · rw [writeList_succ]
        rw [List.append_assoc] at hinv₂
        exact hinv₂
  obtain ⟨w, hw', hinv⟩ := hrun _ le_rfl
  refine ⟨w, ?_, hinv⟩
  rw [RwFs.writeBitmaps, if_neg (by rw [hw.rw]; exact Bool.noConfusion)]
  exact hw'

/-! ### The reader -/

/-- The parts of the first groups. -/
def firstParts (m : ℕ) : List RwFs.ReadPart :=
  (List.range m).flatMap fun g => [.group .block g, .group .inode g]

theorem rangeParts_eq (h : fs.Regular) :
    fs.rangeParts (fun _ => true) (0, fs.lastGroup) = firstParts fs.groupDescCount := by
  have hpos := groups_pos h
  rw [RwFs.rangeParts, h.image, RwFs.groupsOf, lastGroup_eq h.toFits (by omega), firstParts,
    show (0, fs.groupDescCount - 1).2 + 1 - (0, fs.groupDescCount - 1).1 = fs.groupDescCount by
      dsimp only; omega,
    List.range_eq_range']
  rfl

theorem mem_firstParts {p : RwFs.ReadPart} :
    p ∈ firstParts m ↔ ∃ sort g, g < m ∧ p = .group sort g := by
  rw [firstParts, List.mem_flatMap]
  constructor
  · rintro ⟨g, hg, hp⟩
    rcases List.mem_cons.mp hp with rfl | hp
    · exact ⟨.block, g, List.mem_range.mp hg, rfl⟩
    · rw [List.mem_singleton.mp hp]
      exact ⟨.inode, g, List.mem_range.mp hg, rfl⟩
  · rintro ⟨sort, g, hg, rfl⟩
    refine ⟨g, List.mem_range.mpr hg, ?_⟩
    cases sort with
    | block => exact List.mem_cons_self ..
    | inode => exact List.mem_cons_of_mem _ (List.mem_cons_self ..)

/-- The bits behind a group that is set on bits that end in front of it. -/
theorem imported_group (h : fs.Regular) (hm : m < fs.groupDescCount) {f : ℕ → Bool}
    (hf : ∀ n, m * fs.groupBits sort ≤ n → f n = false) :
    (fs.newShape sort).imported (fs.itr sort m) (fs.groupBits sort) b f n =
      if m * fs.groupBits sort ≤ n ∧ n < m * fs.groupBits sort + fs.groupBits sort then
        bitAt b (n - m * fs.groupBits sort) else f n := by
  obtain ⟨hplace, hwidth⟩ := place_group h (newShape_isShape h sort) hm
  rw [BitShape.imported, hplace, hwidth]
  split_ifs with hin
  · rw [hf n hin.1, Bool.and_false, Bool.false_or]
  · rfl

/-- **The bits of the first groups**, by induction on how many. -/
theorem foldl_partEffect (h : fs.Regular) (hm : m ≤ fs.groupDescCount) :
    (firstParts m).foldl (fs.partEffect descs disk) (fun _ _ => false) sort n =
      if n < m * fs.groupBits sort then
        bitAt (fs.partBits descs disk sort (n / fs.groupBits sort)).1 (n % fs.groupBits sort)
      else false := by
  induction m generalizing sort n with
  | zero => rw [Nat.zero_mul, if_neg (Nat.not_lt_zero n)]; rfl
  | succ m ih =>
    have hpos := groupBits_pos h sort
    have hbefore : ∀ sort n, m * fs.groupBits sort ≤ n →
        (firstParts m).foldl (fs.partEffect descs disk) (fun _ _ => false) sort n = false :=
          fun sort n hn => by
      rw [ih (by omega), if_neg (by omega)]
    -- only the part of this bitmap counts
    have hstep : (firstParts (m + 1)).foldl (fs.partEffect descs disk) (fun _ _ => false) sort =
        (fs.newShape sort).imported (fs.itr sort m) (fs.groupBits sort)
          (fs.partBits descs disk sort m).1
          ((firstParts m).foldl (fs.partEffect descs disk) (fun _ _ => false) sort) := by
      rw [firstParts, List.range_succ, List.flatMap_append, List.flatMap_singleton,
        List.foldl_append]
      rw [List.foldl_cons, List.foldl_cons, List.foldl_nil, RwFs.partEffect, RwFs.partEffect]
      cases sort with
      | block =>
        rw [Function.update_of_ne BitmapSort.noConfusion, Function.update_self]
        rfl
      | inode =>
        rw [Function.update_self, Function.update_of_ne BitmapSort.noConfusion]
        rfl
    rw [hstep, imported_group h (by omega) (hbefore sort), Nat.succ_mul, ih (by omega)]
    split_ifs with hin hall
    · rw [show n / fs.groupBits sort = m
        from Nat.div_eq_of_lt_le hin.1 (by rw [Nat.succ_mul]; exact hin.2), Nat.mod_eq_sub_mul_div,
        show n / fs.groupBits sort = m from
          Nat.div_eq_of_lt_le hin.1 (by rw [Nat.succ_mul]; exact hin.2), Nat.mul_comm]
    · omega
    all_goals first | rfl | omega

/-- The flags for the tails. -/
theorem foldl_partNote_eq_false :
    (firstParts m).foldl (fs.partNote descs disk) (fun _ => false) sort = false ↔
      ∀ g < m, (fs.partBits descs disk sort g).2 = false := by
  rw [foldl_partNote, Bool.false_or, List.any_eq_false]
  constructor
  · intro hall g hg
    have := hall (.group sort g) (mem_firstParts.mpr ⟨sort, g, hg, rfl⟩)
    rw [RwFs.partNote, Function.update_self, Bool.false_or] at this
    exact Bool.eq_false_iff.mpr this
  · rintro hall p hp
    obtain ⟨sort', g, hg, rfl⟩ := mem_firstParts.mp hp
    rw [RwFs.partNote]
    rcases eq_or_ne sort sort' with rfl | hne
    · rw [Function.update_self, hall g hg]
      exact Bool.noConfusion
    · rw [Function.update_of_ne hne]
      exact Bool.noConfusion

/-- What the reader leaves. -/
structure ReadTo (fs : RwFs) (descs : ℕ → RwDesc) (disk : ℕ → Option Block) (st : RwState)
    (sort : BitmapSort) :
    Prop where
  bits : ∃ bm, st.map sort = some bm ∧ bm.shape = fs.newShape sort ∧ ∀ n, n < fs.total sort →
    (bm.bits n = true ↔ bitAt (fs.partBits descs disk sort (n / fs.groupBits sort)).1
      (n % fs.groupBits sort) = true ∨
      sort = .block ∧ fs.UninitBit descs (fs.newShape .block) n)
  tail : st.tail sort = false ↔ ∀ g < fs.groupDescCount, (fs.partBits descs disk sort g).2 = false

theorem prepare_regular (h : fs.Regular) (st : RwState) :
    ∃ st₁, fs.readBitmapsRangePrepare (fun _ => true) st =
    (none, st₁) ∧ ∀ sort, st₁.map sort = fs.allocateBitmap sort := by
  refine ⟨{ st with map := fun sort => fs.allocateBitmap sort }, ?_, fun _ => rfl⟩
  rw [RwFs.readBitmapsRangePrepare, if_neg h.in_block, if_neg]
  · rfl
  · rintro (⟨-, hno⟩ | ⟨-, hno⟩)
    · exact h.allocates _ hno
    · exact h.allocates _ hno

/-- A new bitmap has no bits. -/
theorem newBits {bm : BlockBitmap} (hbm : fs.allocateBitmap sort = some bm) :
    bm.bits n = false := by
  have hnew : ∀ {c start last realEnd : ℕ}, fs.newBitmap c start last realEnd = some bm →
      bm.bits n = false := by
    intro c start last realEnd hnew
    rw [RwFs.newBitmap] at hnew
    cases ht : fs.mapType with
    | bitarray =>
      rw [ht] at hnew
      obtain rfl := Option.some.inj hnew
      exact bitAt_zero n
    | rbtree =>
      rw [ht] at hnew
      obtain rfl := Option.some.inj hnew
      rw [Bool.eq_false_iff]
      intro hset
      exact marked_nil ((rbTest_iff RbPrivate.empty_ok).mp hset)
    | legacy =>
      rw [ht] at hnew
      dsimp only at hnew
      split_ifs at hnew
      obtain rfl := Option.some.inj hnew
      exact bitAt_zero n
  cases sort with
  | block => exact hnew hbm
  | inode => exact hnew hbm

/-- **What is read**, if no group fails. -/
theorem readBitmapsRange_spec (hbal : ∀ t l, (bal t l).inorder = l) (h : fs.Regular) (st : RwState)
    (hok : ∀ sort g, g < fs.groupDescCount →
      fs.groupBitmap descs disk sort g = .ok (fs.partBits descs disk sort g)) :
    ∃ st', fs.readBitmapsRange descs disk bal (fun _ => true) (0, fs.lastGroup) st = (none, st') ∧
      ∀ sort, ReadTo fs descs disk st' sort := by
  obtain ⟨st₁, hprepare, hmap⟩ := prepare_regular h st
  obtain ⟨hfits, hallocate, hreading⟩ := @prepare_ok fs bal _ st st₁ hprepare
  have hacts := @readPart_acts fs bal descs disk _ st₁ hbal h.toFits hfits hallocate
  have hgood : ∀ a ∈ fs.rangeParts (fun _ => true) (0, fs.lastGroup),
      fs.GoodPart descs disk (fun _ => true) a := by
    intro a ha
    rw [rangeParts_eq h] at ha
    obtain ⟨sort, g, hg, rfl⟩ := mem_firstParts.mp ha
    exact ⟨rfl, hg, hok sort g hg, (IsShape.spec h (newShape_isShape h sort)).2.2 g hg⟩
  -- one thread alone does all parts in order
  obtain ⟨s', hs', hinv, hview⟩ := hacts.serial (fun _ => false) hreading hgood
  rw [rangeParts_eq h] at hs' hview
  refine ⟨fs.readBitmapsRangeEnd descs bal (fun _ => true)
    ((firstParts fs.groupDescCount).foldl (fs.partNote descs disk) fun _ => false) s', ?_,
    fun sort => ⟨?_, ?_⟩⟩
  · rw [RwFs.readBitmapsRange, hprepare]
    dsimp only
    rw [rangeParts_eq h, hs']
  · obtain ⟨bm, hbm, hreach, hshape⟩ := hinv.there sort rfl
    have hstart : st₁.bits = fun _ _ => false := by
      funext sort' n
      obtain ⟨bm₁, hbm₁⟩ := Option.ne_none_iff_exists'.mp (h.allocates sort')
      rw [RwState.bits, hmap, hbm₁]
      exact newBits hbm₁
    have hbits : ∀ n, n < fs.total sort → bm.bits n =
        bitAt (fs.partBits descs disk sort (n / fs.groupBits sort)).1 (n % fs.groupBits sort) :=
          fun n hn => by
      have := congrFun (congrFun hview sort) n
      rw [RwState.bits, hbm, hstart, foldl_partEffect h le_rfl,
        if_pos (hn.trans_le (total_bounds h sort).2)] at this
      exact this
    rw [RwFs.readBitmapsRangeEnd]
    dsimp only
    rw [hbm]
    cases sort with
    | block =>
      -- groups flagged BLOCK_UNINIT get their metadata marked behind the loop
      rw [if_pos ⟨rfl, rfl⟩]
      obtain ⟨-, hs, hb⟩ := @markUninit_adds fs bal descs hbal (fs.newShape .block) bm hreach hshape
      exact ⟨_, rfl, hs, fun n hn => (hb n).trans (by rw [hbits n hn, and_iff_right rfl])⟩
    | inode =>
      rw [if_neg (fun hx => BitmapSort.noConfusion hx.2)]
      exact ⟨bm, rfl, hshape, fun n hn => by
        rw [hbits n hn]
        exact (or_iff_left fun hx => BitmapSort.noConfusion hx.1).symm⟩
  · rw [← foldl_partNote_eq_false]
    rfl

/-- A group that fails makes it fail. -/
theorem readBitmapsRange_fails (hbal : ∀ t l, (bal t l).inorder = l) (h : fs.Regular) (st : RwState)
    (hg : g < fs.groupDescCount) {e : RwErr} (he : fs.groupBitmap descs disk sort g = .error e) :
    (fs.readBitmapsRange descs disk bal (fun _ => true) (0, fs.lastGroup) st).1 ≠ none := by
  obtain ⟨st₁, hprepare, hmap⟩ := prepare_regular h st
  obtain ⟨hfits, hallocate, hreading⟩ := @prepare_ok fs bal _ st st₁ hprepare
  have hacts := @readPart_acts fs bal descs disk _ st₁ hbal h.toFits hfits hallocate
  have hall : ∀ a ∈ fs.rangeParts (fun _ => true) (0, fs.lastGroup),
      fs.GoodPart descs disk (fun _ => true) a ∨ fs.BadPart descs disk (fun _ => true) a := by
    intro a ha
    rw [rangeParts_eq h] at ha
    obtain ⟨sort, g, hg, rfl⟩ := mem_firstParts.mp ha
    exact good_or_bad rfl hg
  obtain ⟨e', he'⟩ := hacts.serial_fails (fun _ => false) hreading hall
    ⟨.group sort g, by rw [rangeParts_eq h]; exact mem_firstParts.mpr ⟨sort, g, hg, rfl⟩, rfl,
      Or.inl ⟨e, he⟩⟩
  rw [RwFs.readBitmapsRange, hprepare]
  dsimp only
  rw [he']
  exact Option.some_ne_none _

/-! ### Reading back -/

/-- All the bitmaps. -/
def allBitmaps (fs : RwFs) : List (BitmapSort × ℕ) :=
  (List.range fs.groupDescCount).flatMap fun g => [(.block, g), (.inode, g)]

theorem uninitBit_congr (hinv : Writing fs map descs disk ps w) {sh : BitShape} :
    fs.UninitBit w.descs sh n ↔ fs.UninitBit descs sh n := by
  simp only [RwFs.UninitBit, RwFs.OwnBit, hinv.loc, hinv.table, hinv.uninit]

/-- A group that is not passed over is read from its place. -/
theorem bitmapBlk_written (hw : fs.Writable bal writable map descs)
    (hinv : Writing fs map descs disk ps w)
    (hg : g < fs.groupDescCount) (hskip : ¬fs.Skips descs sort g) :
    fs.bitmapBlk w.descs sort g = (descs g).bitmapLoc sort := by
  have hlt := hw.loc_lt sort g hg
  rw [RwFs.bitmapBlk, hinv.loc, hinv.uninit, if_neg]
  rintro (⟨h1, h2, -⟩ | hfar)
  · exact hskip ⟨h1, h2⟩
  · omega

/-- One that is passed over is read if its descriptor is not trusted. -/
theorem bitmapBlk_skipped (hw : fs.Writable bal writable map descs)
    (hinv : Writing fs map descs disk ps w)
    (hg : g < fs.groupDescCount) (hskip : fs.Skips descs sort g) :
    fs.bitmapBlk w.descs sort g =
      if fs.groupDescCsumVerify g (w.descs g) = true then 0 else (descs g).bitmapLoc sort := by
  have hlt := hw.loc_lt sort g hg
  rw [RwFs.bitmapBlk, hinv.loc, hinv.uninit]
  split_ifs with hread hver hver
  · rfl
  · rcases hread with ⟨-, -, hv⟩ | hfar
    · exact absurd hv hver
    · omega
  · exact absurd (Or.inl ⟨hskip.1, hskip.2, hver⟩) hread
  · rfl

/-- The checksum of the descriptor is right unless both bitmaps are passed over. -/
theorem bad_csum (hinv : Writing fs map descs disk (allBitmaps fs) w) (hg : g < fs.groupDescCount)
    (hbad : ¬fs.groupDescCsumVerify g (w.descs g) = true) :
    (∀ sort, fs.Skips descs sort g) ∧ w.descs g = descs g := by
  have hall : ∀ sort, fs.Skips descs sort g := fun sort => by
    by_contra hnot
    exact hbad (hinv.verified (sort, g) (mem_writeList.mpr hg) hnot)
  refine ⟨hall, hinv.untouched g ?_⟩
  rintro p - rfl
  exact hall p.1

theorem kept_of_skip (hw : fs.Writable bal writable map descs)
    (hinv : Writing fs map descs disk (allBitmaps fs) w)
    (hg : g < fs.groupDescCount) (hskip : fs.Skips descs sort g) :
    w.disk ((descs g).bitmapLoc sort) = disk ((descs g).bitmapLoc sort) := by
  refine hinv.kept _ fun p hp hnot heq => ?_
  obtain ⟨h1, h2⟩ := hw.loc_inj _ _ _ _ (mem_writeList.mp hp) hg heq
  rw [h1, h2] at hnot
  exact hnot hskip

theorem tailVerify_of_behind (hbehind : ∀ j, fs.groupBits sort ≤ j → bitAt b j = true) (last : ℕ) :
    bitmapTailVerify b (fs.nbytes sort) last = true := by
  rw [bitmapTailVerify, List.all_eq_true]
  intro i hi
  have hle := (List.mem_range'_1.mp hi).1
  rw [decide_eq_true_iff]
  refine (byte_eq_ones_iff _).mpr fun k hk => ?_
  rw [← bitAt_mul_add i hk]
  refine hbehind _ ?_
  rw [RwFs.groupBits]
  omega

/-- What is read from a block whose checksum is right. -/
theorem groupBitmap_read (hblk : fs.bitmapBlk descs sort g ≠ 0)
    (hb : disk (fs.bitmapBlk descs sort g) = some b)
    (hver : fs.bitmapCsumVerify sort (descs g) b = true) :
    fs.groupBitmap descs disk sort g =
      .ok (b, !bitmapTailVerify b (fs.nbytes sort) (fs.blocksize - 1)) := by
  rw [RwFs.groupBitmap, if_neg hblk, hb]
  exact if_neg fun hx => by
    rw [hver] at hx
    exact Bool.noConfusion hx.2

theorem groupBitmap_empty (hblk : fs.bitmapBlk descs sort g = 0) :
    fs.groupBitmap descs disk sort g = .ok (zeroBlock, false) := if_pos hblk

theorem partBits_of_ok {r : Block × Bool} (hok : fs.groupBitmap descs disk sort g = .ok r) :
    fs.partBits descs disk sort g = r := by rw [RwFs.partBits, hok]

/-- A number, by its group and its place there. -/
theorem group_place (h : fs.Regular) (sort : BitmapSort) (n : ℕ) :
    n / fs.groupBits sort * fs.groupBits sort + n % fs.groupBits sort = n ∧
      n % fs.groupBits sort < fs.groupBits sort :=
  ⟨Nat.div_add_mod' _ _, Nat.mod_lt _ (groupBits_pos h sort)⟩

theorem empty_bits (hbal : ∀ t l, (bal t l).inorder = l) {bm : BlockBitmap}
    (hreach : bm.TreeReachable bal) (hempty : bm.Empty) : bm.bits n = false := by
  cases bm with
  | rb c start bmapEnd bp =>
    rw [Bool.eq_false_iff]
    intro hset
    have hmark := (rbTest_iff (RbReachable.ok hbal hreach)).mp hset
    rw [show bp.nodes = [] from hempty] at hmark
    exact marked_nil hmark
  | ba c start bmapEnd b => cases hempty
  | legacy start bmapEnd realEnd b => cases hempty

/-- When bitmaps are read back: a tree without nodes has no group that is written, and a group that
both bitmaps pass over has a descriptor with the right checksum, or what its places hold does no
harm. -/
structure CanReadBack (fs : RwFs) (map : PerSort BlockBitmap) (descs : ℕ → RwDesc)
    (disk : ℕ → Option Block) : Prop where
  nodes : ∀ sort, (map sort).Empty → ∀ g, g < fs.groupDescCount → fs.Skips descs sort g
  csums : ∀ g, g < fs.groupDescCount → (∀ sort, fs.Skips descs sort g) →
    fs.groupDescCsumVerify g (descs g) = false →
    ∀ sort, fs.StaleRight map descs disk sort g

/-- What every group has to give. -/
structure GroupRight (fs : RwFs) (map : PerSort BlockBitmap) (descs descs' : ℕ → RwDesc)
    (disk' : ℕ → Option Block) (sort : BitmapSort) (g : ℕ) : Prop where
  csum : fs.bitmapBlk descs' sort g ≠ 0 →
    ∃ b, disk' (fs.bitmapBlk descs' sort g) = some b ∧ fs.bitmapCsumVerify sort (descs' g) b = true
  read : fs.groupBitmap descs' disk' sort g = .ok (fs.partBits descs' disk' sort g)
  tail : (fs.partBits descs' disk' sort g).2 = false
  bits : ∀ j, j < fs.groupBits sort → g * fs.groupBits sort + j < fs.total sort →
    ((map sort).bits (g * fs.groupBits sort + j) = true ↔
      bitAt (fs.partBits descs' disk' sort g).1 j = true ∨
      sort = .block ∧ fs.UninitBit descs (fs.newShape .block) (g * fs.groupBits sort + j))

/-- **Bitmaps are read back if every group gives what it should.** -/
theorem readsBack_iff_groups (hbal : ∀ t l, (bal t l).inorder = l) (h : fs.Regular)
    (hw : fs.Writable bal writable map descs) (st : RwState)
    (hwrite : fs.writeBitmaps writable map (fun _ => true) descs disk = .ok w)
    (hinv : Writing fs map descs disk (allBitmaps fs) w) :
    fs.ReadsBack bal writable map descs disk st ↔
      ∀ sort g, g < fs.groupDescCount → GroupRight fs map descs w.descs w.disk sort g := by
  -- the bits by block or inode number are the bits by position
  have hnumbers : ∀ {sort} {bm : BlockBitmap}, bm.shape = fs.newShape sort →
      ((∀ k, (fs.newShape sort).first ≤ k → k ≤ (fs.newShape sort).last →
        bm.bit k = (map sort).bit k) ↔
        ∀ n, n < fs.total sort → bm.bits n = (map sort).bits n) := by
    intro sort bm hshape
    obtain ⟨hfirst, hlast, -⟩ := IsShape.spec h (newShape_isShape h sort)
    have hfirst' := (IsShape.spec h (hw.shape sort)).1
    rw [shape_first] at hfirst'
    have hbm : bm.first = (fs.newShape sort).first := by rw [← hshape, shape_first]
    constructor
    · intro hall n hn
      rw [bits_eq_bit, bits_eq_bit, hbm, hfirst', ← hfirst]
      exact hall _ (Nat.le_add_right ..) (by omega)
    · intro hall k hk hle
      have := hall (k - (fs.newShape sort).first) (by omega)
      rw [bits_eq_bit, bits_eq_bit, hbm, hfirst', ← hfirst, Nat.add_sub_cancel' hk] at this
      exact this
  constructor
  · rintro ⟨w', hwrite', hcsums, st', hread, hmaps⟩
    obtain rfl := Except.ok.inj (hwrite.symm.trans hwrite')
    -- the reading succeeded, so no group failed
    have hok : ∀ sort g, g < fs.groupDescCount →
        fs.groupBitmap w.descs w.disk sort g = .ok (fs.partBits w.descs w.disk sort g) :=
          fun sort g hg => by
      cases hgr : fs.groupBitmap w.descs w.disk sort g with
      | ok r => rw [partBits_of_ok hgr]
      | error e =>
        have hno := @readBitmapsRange_fails fs bal w.descs w.disk sort g hbal h st hg e hgr
        rw [hread] at hno
        exact absurd rfl hno
    obtain ⟨st'', hread', hto⟩ := readBitmapsRange_spec hbal h st hok
    obtain ⟨-, rfl⟩ := Prod.mk.inj (hread.symm.trans hread')
    intro sort g hg
    obtain ⟨⟨bm, hbm, heq⟩, htail⟩ := hmaps sort
    obtain ⟨bm', hbm', hshape, hbits⟩ := (hto sort).bits
    obtain rfl := Option.some.inj (hbm.symm.trans hbm')
    refine ⟨hcsums sort g hg, hok sort g hg, (hto sort).tail.mp htail g hg, fun j hj hn => ?_⟩
    have hspec := hbits _ hn
    have hdiv : (g * fs.groupBits sort + j) / fs.groupBits sort = g := by
      rw [Nat.mul_comm, Nat.mul_add_div (groupBits_pos h sort), Nat.div_eq_of_lt hj, Nat.add_zero]
    have hmod : (g * fs.groupBits sort + j) % fs.groupBits sort = j := by
      rw [Nat.mul_comm, Nat.mul_add_mod, Nat.mod_eq_of_lt hj]
    rw [(hnumbers hshape).mp heq _ hn, uninitBit_congr hinv, hdiv, hmod] at hspec
    exact hspec
  · intro hall
    obtain ⟨st', hread, hto⟩ := readBitmapsRange_spec hbal h st fun sort g hg =>
      (hall sort g hg).read
    refine ⟨w, hwrite, fun sort g hg => (hall sort g hg).csum, st', hread, fun sort => ⟨?_, ?_⟩⟩
    · obtain ⟨bm, hbm, hshape, hbits⟩ := (hto sort).bits
      refine ⟨bm, hbm, (hnumbers hshape).mpr fun n hn => ?_⟩
      obtain ⟨hplace, hlt⟩ := group_place h sort n
      have hg := group_lt h hn
      have hright := (hall sort _ hg).bits (n % fs.groupBits sort) hlt (by rw [hplace]; exact hn)
      rw [hplace] at hright
      rw [Bool.eq_iff_iff, hbits n hn, hright, uninitBit_congr hinv]
    · exact (hto sort).tail.mpr fun g hg => (hall sort g hg).tail

/-- What the bitmap of a group that is passed over has. -/
theorem skipped_bits (hw : fs.Writable bal writable map descs) (hg : g < fs.groupDescCount)
    (hskip : fs.Skips descs sort g) (hj : j < fs.groupBits sort)
    (hn : g * fs.groupBits sort + j < fs.total sort) :
    (map sort).bits (g * fs.groupBits sort + j) = true ↔
      sort = .block ∧ fs.UninitBit descs (fs.newShape .block) (g * fs.groupBits sort + j) := by
  cases sort with
  | block =>
    rw [and_iff_right rfl]
    refine ⟨hw.exact g hg hskip.2 j hj hn, ?_⟩
    rintro ⟨g', hg', hun, hown⟩
    exact hw.own g' (List.mem_range.mp hg') hun _ hown
  | inode =>
    rw [hw.noInode g hg hskip.2 j hj]
    exact ⟨fun hx => Bool.noConfusion hx, fun hx => BitmapSort.noConfusion hx.1⟩

/-- A group that is written, of a bitmap with nodes. -/
theorem groupRight_written (hw : fs.Writable bal writable map descs)
    (hinv : Writing fs map descs disk (allBitmaps fs) w) (hg : g < fs.groupDescCount)
    (hskip : ¬fs.Skips descs sort g) (hne : ¬(map sort).Empty) :
    GroupRight fs map descs w.descs w.disk sort g := by
  obtain ⟨b, hb, hcontent, hver⟩ := hinv.written (sort, g) (mem_writeList.mpr hg) hskip
  have hblk := bitmapBlk_written hw hinv hg hskip
  have hpos := hw.loc_pos sort g hg
  have hread := groupBitmap_read (by rw [hblk]; omega) (by rw [hblk]; exact hb) hver
  have hbits := partBits_of_ok hread
  refine ⟨fun _ => ⟨b, by rw [hblk]; exact hb, hver⟩, by rw [hbits]; exact hread, ?_,
    fun j hj hn => ?_⟩
  · rw [hbits, tailVerify_of_behind hcontent.behind]
    rfl
  · rw [hbits, hcontent.bits hne j hj hn]
    refine (or_iff_left_of_imp ?_).symm
    rintro ⟨hsort, g', hg', hun, hown⟩
    obtain rfl : sort = .block := hsort
    exact hw.own g' (List.mem_range.mp hg') hun _ hown

/-- One that is passed over, and not read. -/
theorem groupRight_skipped (hw : fs.Writable bal writable map descs)
    (hinv : Writing fs map descs disk (allBitmaps fs) w) (hg : g < fs.groupDescCount)
    (hskip : fs.Skips descs sort g) (hver : fs.groupDescCsumVerify g (w.descs g) = true) :
    GroupRight fs map descs w.descs w.disk sort g := by
  have hblk := bitmapBlk_skipped hw hinv hg hskip
  rw [if_pos hver] at hblk
  have hread := @groupBitmap_empty fs w.descs w.disk sort g hblk
  have hbits := partBits_of_ok hread
  refine ⟨fun hne => absurd hblk hne, by rw [hbits]; exact hread, by rw [hbits], fun j hj hn => ?_⟩
  rw [skipped_bits hw hg hskip hj hn, hbits, show bitAt zeroBlock j = false from bitAt_zero j]
  exact (or_iff_right Bool.noConfusion).symm

/-- One that is passed over, and read all the same. -/
theorem groupRight_stale_iff (hw : fs.Writable bal writable map descs)
    (hinv : Writing fs map descs disk (allBitmaps fs) w) (hg : g < fs.groupDescCount)
    (hskip : fs.Skips descs sort g) (hbad : ¬fs.groupDescCsumVerify g (w.descs g) = true) :
    GroupRight fs map descs w.descs w.disk sort g ↔ fs.StaleRight map descs disk sort g := by
  have hblk := bitmapBlk_skipped hw hinv hg hskip
  rw [if_neg hbad] at hblk
  have hpos := hw.loc_pos sort g hg
  have hkept := kept_of_skip hw hinv hg hskip
  have hdesc := (bad_csum hinv hg hbad).2
  have hread : ∀ b, disk ((descs g).bitmapLoc sort) = some b →
    fs.bitmapCsumVerify sort (descs g) b = true →
      fs.groupBitmap w.descs w.disk sort g =
        .ok (b, !bitmapTailVerify b (fs.nbytes sort) (fs.blocksize - 1)) := fun b hb hver =>
    groupBitmap_read (by rw [hblk]; omega) (by rw [hblk, hkept]; exact hb)
      (by rw [hdesc]; exact hver)
  constructor
  · intro hright
    obtain ⟨b, hb, hver⟩ := hright.csum (by rw [hblk]; omega)
    rw [hblk, hkept] at hb
    rw [hdesc] at hver
    have hbits := partBits_of_ok (hread b hb hver)
    have htail := hright.tail
    rw [hbits, Bool.not_eq_false'] at htail
    refine ⟨b, hb, hver, htail, fun j hj hn hset => (hright.bits j hj hn).mpr (Or.inl ?_)⟩
    rw [hbits]
    exact hset
  · rintro ⟨b, hb, hver, htail, hset⟩
    have hbits := partBits_of_ok (hread b hb hver)
    refine ⟨fun _ => ⟨b, by rw [hblk, hkept]; exact hb, by rw [hdesc]; exact hver⟩,
      by rw [hbits]; exact hread b hb hver, by rw [hbits, htail]; rfl, fun j hj hn => ?_⟩
    rw [hbits]
    constructor
    · exact fun hmap => Or.inr ((skipped_bits hw hg hskip hj hn).mp hmap)
    · rintro (hbit | hown)
      · exact hset j hj hn hbit
      · exact (skipped_bits hw hg hskip hj hn).mpr hown

/-- A tree without nodes is written full. -/
theorem not_groupRight_empty (hbal : ∀ t l, (bal t l).inorder = l) (h : fs.Regular)
    (hw : fs.Writable bal writable map descs) (hinv : Writing fs map descs disk (allBitmaps fs) w)
    (hg : g < fs.groupDescCount) (hskip : ¬fs.Skips descs sort g) (hempty : (map sort).Empty) :
    ¬GroupRight fs map descs w.descs w.disk sort g := by
  intro hright
  obtain ⟨b, hb, hcontent, hver⟩ := hinv.written (sort, g) (mem_writeList.mpr hg) hskip
  have hblk := bitmapBlk_written hw hinv hg hskip
  have hpos := hw.loc_pos sort g hg
  have hread := groupBitmap_read (by rw [hblk]; omega) (by rw [hblk]; exact hb) hver
  have hset := (hright.bits 0 (groupBits_pos h sort) (first_of_lt h hg)).mpr
    (Or.inl (by rw [partBits_of_ok hread]; exact hcontent.empty hempty 0))
  rw [empty_bits hbal (hw.reach sort) hempty] at hset
  exact Bool.noConfusion hset

/-- **Bitmaps are read back as they were written** if and only if a bitmap that is a tree without
nodes has no group that is written, and every group that both bitmaps pass over has the right
checksum in its descriptor, or nothing in its places that is not marked. -/
theorem readsBack_iff (hbal : ∀ t l, (bal t l).inorder = l) (h : fs.Regular)
    (hw : fs.Writable bal writable map descs) :
    fs.ReadsBack bal writable map descs disk st ↔ CanReadBack fs map descs disk := by
  obtain ⟨w, hwrite, hinv⟩ := @writeBitmaps_spec fs bal descs disk writable map hbal h hw
  rw [readsBack_iff_groups hbal h hw st hwrite hinv]
  constructor
  · intro hall
    refine ⟨fun sort hempty g hg => ?_, fun g hg hskips hbad sort => ?_⟩
    · by_contra hskip
      exact not_groupRight_empty hbal h hw hinv hg hskip hempty (hall sort g hg)
    · have hdesc : w.descs g = descs g := hinv.untouched g (by rintro p - rfl; exact hskips p.1)
      refine (groupRight_stale_iff hw hinv hg (hskips sort) ?_).mp (hall sort g hg)
      rw [hdesc, hbad]
      exact Bool.noConfusion
  · intro hcan sort g hg
    by_cases hskip : fs.Skips descs sort g
    · by_cases hver : fs.groupDescCsumVerify g (w.descs g) = true
      · exact groupRight_skipped hw hinv hg hskip hver
      · obtain ⟨hskips, hdesc⟩ := bad_csum hinv hg hver
        rw [hdesc] at hver
        refine (groupRight_stale_iff hw hinv hg hskip (by rw [hdesc]; exact hver)).mpr ?_
        exact hcan.csums g hg hskips (Bool.eq_false_iff.mpr hver) sort
    · exact groupRight_written hw hinv hg hskip fun hempty => hskip (hcan.nodes sort hempty g hg)

/-- The inode bitmap as a tree. -/
def clearTree : PerSort BlockBitmap
  | .block => .ba 0 0 15 fun _ => 0
  | .inode => .rb 0 1 16 RbPrivate.empty

theorem threadFs_regular : threadFs.Regular where
  toFits := threadFs_fits
  first_lt := by decide
  first_le := by decide
  aligned := Or.inl rfl
  perGroup := rfl
  groups := rfl
  inodes := rfl
  clusters_pos := by decide
  inodes_pos := by decide
  clusters_bytes := dvd_refl 8
  inodes_bytes := dvd_refl 8
  in_block := by decide
  allocates sort := by
    cases sort with
    | block => exact Option.some_ne_none _
    | inode => exact Option.some_ne_none _
  image := rfl

theorem threadFs_writable (hreach : ∀ sort, (map sort).TreeReachable bal)
    (hshape : ∀ sort, threadFs.IsShape sort (map sort).shape) :
    threadFs.Writable bal (fun _ => true) map threadDescs where
  rw := rfl
  reach := hreach
  shape := hshape
  loc_pos sort g _ := by
    rw [threadDescs]
    dsimp only
    split_ifs <;> omega
  loc_lt sort g hg := by
    have hlt : g < 2 := hg
    rw [threadDescs]
    show _ < 16
    dsimp only
    split_ifs <;> omega
  loc_inj sort g sort' g' _ _ heq := by
    cases sort with
    | block =>
      cases sort' with
      | block =>
        have heq' : 2 + 8 * g = 2 + 8 * g' := heq
        exact ⟨rfl, by omega⟩
      | inode =>
        have heq' : 2 + 8 * g = 3 + 8 * g' := heq
        omega
    | inode =>
      cases sort' with
      | block =>
        have heq' : 3 + 8 * g = 2 + 8 * g' := heq
        omega
      | inode =>
        have heq' : 3 + 8 * g = 3 + 8 * g' := heq
        exact ⟨rfl, by omega⟩
  device _ _ _ := rfl
  own _ _ hun := Bool.noConfusion hun
  exact _ _ hun := Bool.noConfusion hun
  noInode _ _ hun := Bool.noConfusion hun

theorem clearTree_writable :
    threadFs.Writable (fun _ l => .ofList l) (fun _ => true) clearTree threadDescs := by
  refine threadFs_writable (fun sort => ?_) fun sort => ?_
  · cases sort with
    | block => exact trivial
    | inode => exact .new
  · cases sort with
    | block => exact ⟨.bitarray, clearTree .block, rfl, rfl⟩
    | inode => exact ⟨.rbtree, clearTree .inode, rfl, rfl⟩

theorem not_readsBack_clearTree :
    threadFs.Writable (fun _ l => .ofList l) (fun _ => true) clearTree threadDescs ∧
    ¬threadFs.ReadsBack (fun _ l => .ofList l) (fun _ => true) clearTree threadDescs
      (fun _ => some zeroBlock)
      ⟨fun _ => none, fun _ => false⟩ := by
  have hbal : ∀ (_ : SearchTree RbExtent) (l : List RbExtent), (SearchTree.ofList l).inorder = l :=
    fun _ l => SearchTree.inorder_ofList l
  have hw := clearTree_writable
  obtain ⟨w, hwrite, hinv⟩ :=
    @writeBitmaps_spec threadFs (fun _ l => .ofList l) threadDescs (fun _ => some zeroBlock)
    (fun _ => true) clearTree hbal threadFs_regular hw
  refine ⟨hw, fun hback => ?_⟩
  have hall := (readsBack_iff_groups hbal threadFs_regular hw _ hwrite hinv).mp hback
  have hg : 0 < threadFs.groupDescCount := by decide
  exact not_groupRight_empty hbal threadFs_regular hw hinv hg
    (fun hskip => Bool.noConfusion hskip.1)
    (show (clearTree .inode).Empty from rfl) (hall .inode 0 hg)

/-- The two groups with checksums. -/
def csumFs : RwFs :=
  { threadFs with metadataCsum := true, descCrc := fun group d => group + d.inodeTableLoc }

/-- The second group is not initialised. -/
def csumDescs (group : ℕ) : RwDesc :=
  { threadDescs group with
    uninit := fun _ => group = 1
    checksum := if group = 1 then 13 else 0 }

/-- Blocks and inodes of the first group are in use, and the five blocks that the second group uses
itself. -/
def usedMaps : PerSort BlockBitmap
  | .block => .ba 0 0 15 fun i => [0x7f, 0x1f].getD i 0
  | .inode => .ba 0 1 16 fun i => [0x0f].getD i 0

theorem csumFs_regular : csumFs.Regular where
  blocksize_le := by decide
  groups_lt := by decide
  inodes_lt := by decide
  first_lt := by decide
  first_le := by decide
  aligned := Or.inl rfl
  perGroup := rfl
  groups := rfl
  inodes := rfl
  clusters_pos := by decide
  inodes_pos := by decide
  clusters_bytes := dvd_refl 8
  inodes_bytes := dvd_refl 8
  in_block := by decide
  allocates sort := by
    cases sort with
    | block => exact Option.some_ne_none _
    | inode => exact Option.some_ne_none _
  image := rfl

theorem treeShape_single {arg n : ℕ} (h : arg ≤ 15) :
    (⟨.tree, 0, 0, 15⟩ : BitShape).Single arg n ↔ n = arg :=
  ⟨fun hs => hs.eq, fun hn => ⟨Nat.zero_le _, h, nofun, hn⟩⟩

theorem treeShape_span {block n : ℕ} (h : block ≤ 15) :
    (⟨.tree, 0, 0, 15⟩ : BitShape).Span block 1 n ↔ n = block := by
  have hrange : (⟨.tree, 0, 0, 15⟩ : BitShape).rangeOf block 1 = (block, 1) := by
    simp [BitShape.rangeOf, rangeClusters]
  have hok : ¬(⟨.tree, 0, 0, 15⟩ : BitShape).RangeRefused block 1 := by
    rw [BitShape.RangeRefused, hrange]
    rintro (hbad | ⟨⟨r, hr⟩, -⟩)
    · simp only [rangeBad] at hbad
      omega
    · cases hr
  rw [BitShape.Span, and_iff_right hok, hrange]
  dsimp only
  omega

/-- What the second group uses itself: a superblock and descriptors, its bitmaps and its inode
table. -/
theorem csumFs_ownBit (n : ℕ) :
    csumFs.OwnBit csumDescs (csumFs.newShape .block) 1 n ↔ 8 ≤ n ∧ n ≤ 12 := by
  have hloc : superAndBgdLoc csumFs.toFlushFs csumFs.toSuperLayout 1 = (8, 9, 0) := by decide
  have hnum : csumFs.oldDescNum 9 = 1 := by decide
  have hsh : csumFs.newShape .block = ⟨.tree, 0, 0, 15⟩ := rfl
  rw [RwFs.OwnBit, RwFs.Reserved, hloc, hsh]
  dsimp only
  rw [hnum, show (csumDescs 1).inodeTableLoc = 12 from rfl,
    show csumFs.inodeBlocksPerGroup = 1 from rfl, show (csumDescs 1).bitmapLoc .block = 10 from rfl,
    show (csumDescs 1).bitmapLoc .inode = 11 from rfl, treeShape_single (by norm_num),
    treeShape_single (by norm_num), treeShape_single (by norm_num), treeShape_single (by norm_num),
    treeShape_span (by norm_num), treeShape_span (by norm_num)]
  omega

/-- The group that is not initialised. -/
theorem csumDescs_uninit {g : ℕ} {sort : BitmapSort} (h : (csumDescs g).uninit sort = true) :
    g = 1 := of_decide_eq_true h

theorem usedMaps_writable :
    csumFs.Writable (fun _ l => .ofList l) (fun _ => true) usedMaps csumDescs where
  rw := rfl
  reach sort := by cases sort <;> exact trivial
  shape sort := by cases sort <;> exact ⟨.bitarray, _, rfl, rfl⟩
  loc_pos sort g hg := clearTree_writable.loc_pos sort g hg
  loc_lt sort g hg := clearTree_writable.loc_lt sort g hg
  loc_inj sort g sort' g' hg hg' := clearTree_writable.loc_inj sort g sort' g' hg hg'
  device _ _ _ := rfl
  own g _ hun n hn := by
    obtain rfl := csumDescs_uninit hun
    obtain ⟨hlo, hhi⟩ := (csumFs_ownBit n).mp hn
    interval_cases n <;> rfl
  exact g _ hun j hj _ hbit := by
    obtain rfl := csumDescs_uninit hun
    refine ⟨1, by decide, rfl, (csumFs_ownBit _).mpr ?_⟩
    have hj : j < 8 := hj
    have hbits : csumFs.groupBits .block = 8 := rfl
    rw [hbits] at hbit ⊢
    interval_cases j <;> first | omega | cases hbit
  noInode g _ hun j hj := by
    obtain rfl := csumDescs_uninit hun
    have hj : j < 8 := hj
    interval_cases j <;> rfl

theorem readsBack_usedMaps : csumFs.ReadsBack (fun _ l => .ofList l) (fun _ => true) usedMaps
    csumDescs (fun _ => some zeroBlock) ⟨fun _ => none, fun _ => false⟩ := by
  refine (readsBack_iff (fun _ l => SearchTree.inorder_ofList l) csumFs_regular
    usedMaps_writable).mpr ⟨fun sort hempty => ?_, fun g _ hskips hbad => ?_⟩
  · cases sort with
    | block => cases hempty
    | inode => cases hempty
  · obtain rfl := csumDescs_uninit (hskips .block).2
    exact absurd hbad (by decide)

end ReadBack

end E2fsprogs
