import E2fsprogs.Rehash.Nodes

/-!
# An index of two levels

The state of the index after any number of leaf blocks has been entered, for an index with one level
of nodes below the root (`E2fsprogs.TwoLevels.run`).
-/

namespace E2fsprogs

variable {fs : DirFs}

/-! ### Adding a node -/

section Adding

variable {out closed : OutDir} {b : Block} {base n limit count i k o c : ℕ}
    {f : ℕ → ℕ × ℕ} {a : Alloced}

/-- The slot for a new node. The first slot has no hash if it is for the first leaf block. -/
theorem DxNode.allocSlot (h : DxNode b base f n limit count)
    (hf : f n = (closed.hashes i, closed.num))
    (hi : i = 1 ↔ n = 0) (hhash : closed.hashes i < 2 ^ 32) (hnum : closed.num < 2 ^ 32) :
    DxNode (allocSlot closed i b (base + 8 * n)) base f (n + 1) limit count := by
  rw [E2fsprogs.allocSlot]
  split
  · next h1 =>
    have := h.put (by omega) (by rw [hf]; exact hhash) (by rw [hf]; exact hnum)
    rwa [hf] at this
  · next h1 =>
    obtain rfl : n = 0 := hi.mp (not_not.mp h1)
    have := h.putFirst (by rw [hf]; exact hnum)
    rwa [hf] at this

/-- The level of the root is not in its slots. -/
theorem allocSlot_levels (ho : 32 ≤ o) : getLe (allocSlot closed i b o) 30 1 = getLe b 30 1 := by
  rw [allocSlot]
  split
  · rw [putSlot, putSlotBlock, getLe_putLe_of_disjoint (by omega),
      getLe_putLe_of_disjoint (by omega)]
  · rw [putSlotBlock, getLe_putLe_of_disjoint (by omega)]

theorem putWords_levels (hbase : 32 ≤ base) :
    getLe (putWords b base limit count) 30 1 = getLe b 30 1 := by
  rw [putWords, getLe_putLe_of_disjoint (by omega), getLe_putLe_of_disjoint (by omega)]

/-- **Closing the last node of the lowest level**, in a directory with the nodes of this level. The
count is stored if the buffer has not been reallocated. -/
theorem LowLevel.closeFull {hs addr cnt : ℕ → ℕ} {G : ℕ} {st : TreeState} (hfs : fs.Ok)
    (h : LowLevel fs hs addr cnt G (intLimit fs) st) (hinj : ∀ g g', g < g' → addr g ≠ addr g')
    (hbuf : ∀ g < G, out.buf (addr g) = st.out.buf (addr g))
    (hcnt : (out.gen = st.out.gen ∧ ∀ g, g + 1 = G → cnt g = intLimit fs) ∨
      (out.gen ≠ st.out.gen ∧ ∀ g, g + 1 = G → cnt g = 0)) :
    ∃ closed, closeFull fs out st.limit = closed ∧ closed.num = out.num ∧ closed.max = out.max ∧
      closed.hashes = out.hashes ∧ (∀ k, (∀ g < G, k ≠ addr g) → closed.buf k = out.buf k) ∧
      ∀ g < G, DxNode (closed.buf (addr g)) 8 (leafSlots fs hs g) (intLimit fs)
        (intLimit fs) (cnt g) := by
  have hlt := intLimit_spec hfs
  rcases Nat.eq_zero_or_pos G with hG | hG
  · rw [h.none hG]
    exact ⟨out, rfl, rfl, rfl, rfl, fun _ _ => rfl, fun g hg => absurd hg (by omega)⟩
  obtain ⟨g, rfl⟩ : ∃ g, g + 1 = G := ⟨G - 1, by omega⟩
  obtain ⟨p, hlimit, hgen, hpos, ho⟩ := h.limit g rfl
  have hlast := h.last g rfl
  have hfull : ∀ g' < g, DxNode (out.buf (addr g')) 8 (leafSlots fs hs g') (intLimit fs)
      (intLimit fs) (cnt g') := by
    intro g' hg'
    rw [hbuf g' (by omega)]
    exact h.full g' (by omega)
  rw [← hbuf g (by omega)] at hlast
  rw [hlimit]
  rcases hcnt with ⟨hsame, hcnt⟩ | ⟨hmoved, hcnt⟩
  · rw [closeFull_of_pointsTo ⟨hgen.trans hsame.symm, hpos, ho⟩, hlast.limit]
    refine ⟨_, rfl, rfl, rfl, rfl, fun k hk => put_buf_of_ne (hk g (by omega)) _ _,
      fun g' hg' => ?_⟩
    rcases Nat.lt_or_ge g' g with hlt' | hge
    · rw [put_buf_of_ne (hinj g' g hlt')]
      exact hfull g' hlt'
    · obtain rfl : g' = g := by omega
      rw [put_buf_self, hcnt g' rfl]
      exact hlast.words (by omega) (by omega)
  · rw [closeFull_of_gen_ne (by rw [hgen]; exact hmoved.symm)]
    refine ⟨out, rfl, rfl, rfl, rfl, fun _ _ => rfl, fun g' hg' => ?_⟩
    rcases Nat.lt_or_ge g' g with hlt' | hge
    · exact hfull g' hlt'
    · obtain rfl : g' = g := by omega
      rw [hcnt g' rfl]
      exact hlast

end Adding

/-! ### Two levels -/

section TwoLevels

variable {hs : ℕ → ℕ} {buf : ℕ → Block} {nb D r i : ℕ} {st : TreeState}

/-- The slots of the root of an index of two levels. -/
def rootSlots (fs : DirFs) (hs : ℕ → ℕ) (nb g : ℕ) : ℕ × ℕ := (hs (1 + g * intLimit fs), nb + g)

/-- **The index of two levels** with `D` nodes below the root, the last of which has `r` slots. -/
structure TwoLevels (fs : DirFs) (hs : ℕ → ℕ) (buf : ℕ → Block) (nb D r : ℕ) (st : TreeState) :
    Prop where
  num : st.out.num = nb + D
  hashes : st.out.hashes = hs
  low : LowLevel fs hs (fun g => nb + g) (fun _ => intLimit fs) D r st
  root : DxNode (st.out.buf 0) 32 (rootSlots fs hs nb) D (rootLimit fs) 0
  levels : getLe (st.out.buf 0) 30 1 = 1
  leaf : ∀ k, 0 < k → k < nb → st.out.buf k = buf k
  c1 : st.c1 = rootLimit fs - D
  c2 : st.c2 = intLimit fs - r
  rootOffset : st.rootOffset = 32 + 8 * D

/-- A node is added below the root. -/
theorem TwoLevels.newLowNode (h : TwoLevels fs hs buf nb D (intLimit fs) st) (hfs : fs.Ok)
    (hnb : 0 < nb) (hD : D < rootLimit fs) (hi : i = 1 + D * intLimit fs) (hhash : hs i < 2 ^ 32)
    (hnum : nb + D < 2 ^ 32) :
    TwoLevels fs hs buf nb (D + 1) 0 (newLowNode fs st i) := by
  have hlt := intLimit_spec hfs
  have hroot := rootLimit_spec hfs
  obtain ⟨closed, hclosed, hcnum, -, hchs, hcsame, hcfull⟩ := h.low.closeFull hfs
    (fun g g' hg => by omega) (fun _ _ => rfl) (Or.inl ⟨rfl, fun _ _ => rfl⟩)
  have hrootOffset : st.rootOffset = 0 * fs.blocksize + (32 + 8 * D) := by
    rw [h.rootOffset]
    omega
  have ha := @allocBlocks_spec fs st.out 0 (32 + 8 * D) st.limit i st.c1 closed hfs hclosed
    (by rw [hcnum, h.num]; omega) (by omega)
  rw [← hrootOffset] at ha
  rw [E2fsprogs.newLowNode]
  generalize allocBlocks fs st.limit st.rootOffset st.out i st.c1 = a at ha
  have hanum : closed.num = nb + D := hcnum.trans h.num
  -- the blocks that the new slot and the new node leave alone
  have hsame : ∀ k, k ≠ 0 → k < nb + D → a.out.buf k = closed.buf k := fun k h0 hk =>
    ha.same k h0 (by omega)
  refine ⟨?_, ?_, ?_, ?_, ?_, ?_, ?_, ?_, ?_⟩
  · show a.out.num = _
    rw [ha.num, hanum, Nat.add_assoc]
  · show a.out.hashes = _
    rw [ha.hashes, hchs, h.hashes]
  · refine lowLevel_newNode hfs rfl rfl ?_ ?_ ?_
    · show PointsTo fs a.out a.nextEnt (nb + D) 8
      rw [← hanum]
      exact ha.nextEnt
    · show a.out.buf (nb + D) = _
      rw [← hanum]
      exact ha.node
    · intro g hg
      show DxNode (a.out.buf (nb + g)) _ _ _ _ _
      rw [hsame _ (by omega) (by omega)]
      exact hcfull g hg
  · show DxNode (a.out.buf 0) _ _ _ _ _
    rw [ha.slot, hcsame 0 fun g _ => by omega]
    refine h.root.allocSlot ?_ ?_ ?_ (by omega)
    · rw [rootSlots, hchs, h.hashes, hanum, hi]
    · rw [hi]
      rcases Nat.eq_zero_or_pos D with rfl | hD
      · simp
      · have := Nat.mul_pos hD hlt.1
        omega
    · rw [hchs, h.hashes]
      exact hhash
  · show getLe (a.out.buf 0) 30 1 = 1
    rw [ha.slot, hcsame 0 fun g _ => by omega, allocSlot_levels (by omega), h.levels]
  · intro k h0 hk
    show a.out.buf k = _
    rw [hsame k (by omega) (by omega), hcsame k fun g _ => by omega, h.leaf k h0 hk]
  · show a.prevCount = _
    rw [ha.prevCount, h.c1]
    omega
  · show a.nextCount = _
    rw [ha.nextCount, (dxNode_setIntNode (f := fun _ => (0, 0)) hfs).limit]
    omega
  · show a.prevOffset = _
    rw [ha.prevOffset]
    omega

/-- A leaf block is entered into the last node. -/
theorem TwoLevels.putLeafEntry (h : TwoLevels fs hs buf nb (D + 1) r st) (hfs : fs.Ok)
    (hr : r < intLimit fs) (hi : i = 1 + D * intLimit fs + r) (hi32 : i < 2 ^ 32)
    (hhash : hs i < 2 ^ 32) (hnb : 0 < nb) :
    TwoLevels fs hs buf nb (D + 1) (r + 1) { putLeafEntry fs st i st.c2 with c2 := st.c2 - 1 } := by
  obtain ⟨b, hput, hlow⟩ :=
    h.low.putLeafEntry hfs hr h.c2 h.hashes hi hi32 hhash (fun g' hg' => by omega)
  rw [hput] at hlow ⊢
  have hne : ∀ k, k < nb → (st.out.put (nb + D) b).buf k = st.out.buf k := fun k hk =>
    put_buf_of_ne (by omega) _ _
  refine ⟨h.num, h.hashes, ⟨hlow.full, hlow.last, hlow.limit, hlow.dxEnt, hlow.none⟩, ?_,
    ?_, ?_, h.c1, ?_, h.rootOffset⟩
  · show DxNode ((st.out.put (nb + D) b).buf 0) _ _ _ _ _
    rw [hne 0 hnb]
    exact h.root
  · show getLe ((st.out.put (nb + D) b).buf 0) 30 1 = 1
    rw [hne 0 hnb, h.levels]
  · intro k h0 hk
    exact (hne k hk).trans (h.leaf k h0 hk)
  · show st.c2 - 1 = _
    rw [h.c2]
    omega

/-- **A round.** -/
theorem TwoLevels.intRound (h : TwoLevels fs hs buf nb D r st) (hfs : fs.Ok) (hnb : 0 < nb)
    (hr : r ≤ intLimit fs) (hD : r = intLimit fs → D < rootLimit fs) (hD0 : D = 0 → r = intLimit fs)
    (hi : i + intLimit fs = 1 + D * intLimit fs + r) (hhash : hs i < 2 ^ 32) (hi32 : i < 2 ^ 32)
    (hnum : nb + D < 2 ^ 32) :
    ∃ D' r' st', intRound fs st i = some st' ∧ TwoLevels fs hs buf nb D' r' st' ∧ 0 < r' ∧
      r' ≤ intLimit fs ∧ 0 < D' ∧ i + 1 + intLimit fs = 1 + D' * intLimit fs + r' := by
  have hlt := intLimit_spec hfs
  have hc1 := h.c1
  have hc2 := h.c2
  by_cases hfull : r = intLimit fs
  · subst hfull
    have hlt' := hD rfl
    have hi' : i = 1 + D * E2fsprogs.intLimit fs + 0 := by omega
    have hnew := h.newLowNode hfs hnb hlt' hi' hhash hnum
    refine ⟨D + 1, 0 + 1, _, ?_, hnew.putLeafEntry hfs (by omega) hi' hi32 hhash hnb,
      by omega, by omega, by omega, ?_⟩
    · rw [E2fsprogs.intRound, if_neg (by omega), if_pos (by omega)]
    · rw [Nat.succ_mul]
      omega
  · obtain ⟨D, rfl⟩ : ∃ D', D = D' + 1 := ⟨D - 1, by omega⟩
    rw [Nat.succ_mul] at hi
    have hi' : i = 1 + D * E2fsprogs.intLimit fs + r := by omega
    refine ⟨D + 1, r + 1, _, ?_, h.putLeafEntry hfs (by omega) hi' hi32 hhash hnb,
      by omega, by omega, by omega, ?_⟩
    · rw [E2fsprogs.intRound, if_neg (by omega), if_neg (by omega)]
    · rw [Nat.succ_mul]
      omega

/-- The number of nodes that some leaf blocks need. -/
theorem nodes_le {L D r j R : ℕ} (h : D * L + r = j + L) (hr : 0 < r) (hj : j ≤ R * L) : D ≤ R := by
  by_contra hcon
  have := Nat.mul_le_mul_right L (show R + 1 ≤ D by omega)
  rw [Nat.succ_mul] at this
  omega

theorem nodes_lt {L D j R : ℕ} (h : D * L + L = j + L) (hj : j < R * L) : D < R :=
  Nat.lt_of_mul_lt_mul_right (show D * L < R * L by omega)

/-- **All rounds.** The induction is on the number of leaf blocks that have been entered. -/
theorem TwoLevels.run (h : TwoLevels fs hs buf nb 0 (intLimit fs) st) (hfs : fs.Ok) (hnb : 0 < nb)
    (hnb31 : nb < 2 ^ 31) (hhash : ∀ k < nb, hs k < 2 ^ 32) :
    ∀ j, j < nb → j ≤ rootLimit fs * intLimit fs → ∃ D r st',
      (List.range' 1 j).foldlM (E2fsprogs.intRound fs) st = some st' ∧
      TwoLevels fs hs buf nb D r st' ∧ 0 < r ∧
        r ≤ intLimit fs ∧ (D = 0 → r = intLimit fs) ∧ D * intLimit fs + r = j + intLimit fs := by
  have hlt := intLimit_spec hfs
  have hroot := rootLimit_spec hfs
  intro j
  induction j with
  | zero =>
    intro _ _
    exact ⟨0, intLimit fs, st, rfl, h, by omega, le_rfl, fun _ => rfl, by omega⟩
  | succ j ih =>
    intro hj hle
    obtain ⟨D, r, mid, hrun, hmid, hr0, hr, hD0, hsum⟩ := ih (by omega) (by omega)
    have hD := nodes_le hsum hr0 (show j ≤ rootLimit fs * intLimit fs by omega)
    obtain ⟨D', r', st', hround, hst', hr0', hr', hD', hsum'⟩ :=
      hmid.intRound (i := 1 + j) hfs hnb hr
      (by rintro rfl; exact nodes_lt hsum (by omega)) hD0 (by omega) (hhash _ (by omega))
        (by omega) (by omega)
    refine ⟨D', r', st', ?_, hst', hr0', hr', by omega, by omega⟩
    rw [List.range'_1_concat, List.foldlM_append, hrun]
    simp only [List.foldlM_cons, List.foldlM_nil, Option.bind_eq_bind, Option.bind_some, hround]
    rfl

end TwoLevels

end E2fsprogs
