import E2fsprogs.Rehash.Tree

/-!
# An index of three levels

The state of the index after any number of leaf blocks has been entered, for an index with two
levels of nodes below the root. Two things go wrong (`E2fsprogs.ThreeLevels`):

* The first slot of each node of the middle level but the first is given a hash, which is where the
  limit and the count of the node are. When the node is full, its limit is taken from there.
* When the buffer is reallocated for a node of the middle level, `limit` points to the buffer that
  has been given up, and the count of the last node of the lowest level is not stored.
-/

namespace E2fsprogs

variable {fs : DirFs}

/-! ### Where the nodes are -/

section Addresses

variable {L nb g g' t d : ℕ}

/-- The block of the node `t` of the middle level. -/
def midAddr (nb L t : ℕ) : ℕ := nb + t * L + t

/-- The block of the node `g` of the lowest level. -/
def lowAddr (nb L g : ℕ) : ℕ := nb + g + g / L + 1

theorem lowAddr_eq (hd : d < L) (nb t : ℕ) : lowAddr nb L (t * L + d) = midAddr nb L t + d + 1 := by
  have : (t * L + d) / L = t := by
    rw [Nat.mul_comm, Nat.mul_add_div (by omega), Nat.div_eq_of_lt hd, Nat.add_zero]
  rw [lowAddr, midAddr, this]
  omega

theorem lt_lowAddr (nb L g : ℕ) : nb < lowAddr nb L g := by
  rw [lowAddr, Nat.add_assoc, Nat.add_assoc]
  exact Nat.lt_add_of_pos_right (by positivity)

theorem lowAddr_lt (h : g < g') : lowAddr nb L g < lowAddr nb L g' := by
  have := Nat.div_le_div_right (c := L) h.le
  rw [lowAddr, lowAddr]
  omega

theorem midAddr_lt {t t' : ℕ} (h : t < t') : midAddr nb L t + L < midAddr nb L t' := by
  have := Nat.mul_le_mul_right L (Nat.succ_le_of_lt h)
  rw [Nat.succ_mul] at this
  rw [midAddr, midAddr]
  omega

theorem lowAddr_lt_midAddr (hL : 0 < L) (h : g < t * L) : lowAddr nb L g < midAddr nb L t := by
  have := (Nat.div_lt_iff_lt_mul hL).mpr h
  rw [lowAddr, midAddr]
  omega

/-- The two levels do not meet. -/
theorem lowAddr_ne_midAddr (hL : 0 < L) (nb g t : ℕ) : lowAddr nb L g ≠ midAddr nb L t := by
  have hmod := Nat.mod_lt g hL
  have hg : g = g / L * L + g % L := by
    rw [Nat.mul_comm]
    exact (Nat.div_add_mod g L).symm
  rw [hg, lowAddr_eq hmod]
  rcases Nat.lt_trichotomy (g / L) t with hlt | rfl | hgt
  · have := @midAddr_lt L nb _ _ hlt
    omega
  · omega
  · have := @midAddr_lt L nb _ _ hgt
    omega

end Addresses

/-! ### The state -/

section ThreeLevels

variable {hs : ℕ → ℕ} {buf : ℕ → Block} {m nb T t d r i G : ℕ} {st : TreeState} {closed : OutDir}

/-- The buffer is reallocated for the node `t` of the middle level. -/
def Moved (m nb L t : ℕ) : Prop := bufMax m (midAddr nb L t) ≤ midAddr nb L t

instance : Decidable (Moved m nb T t) := inferInstanceAs (Decidable (_ ≤ _))

/-- The count of a node of the lowest level that is full. -/
def lowCount (m nb L g : ℕ) : ℕ := if (g + 1) % L = 0 ∧ Moved m nb L ((g + 1) / L) then 0 else L

/-- The slots of the root. -/
def topSlots (fs : DirFs) (hs : ℕ → ℕ) (nb t : ℕ) : ℕ × ℕ :=
  (hs (1 + t * intLimit fs * intLimit fs), midAddr nb (intLimit fs) t)

/-- The slots of the node `t` of the middle level. -/
def midSlots (fs : DirFs) (hs : ℕ → ℕ) (nb t e : ℕ) : ℕ × ℕ :=
  (hs (1 + (t * intLimit fs + e) * intLimit fs), midAddr nb (intLimit fs) t + e + 1)

/-- The limit of the node `t` of the middle level while it is filled, and then also its count. -/
def midLimit (fs : DirFs) (hs : ℕ → ℕ) (t : ℕ) : ℕ :=
  if t = 0 then intLimit fs else hs (1 + t * intLimit fs * intLimit fs) % 65536

/-- The count of the node `t` of the middle level while it is filled. -/
def midCount (fs : DirFs) (hs : ℕ → ℕ) (t : ℕ) : ℕ :=
  if t = 0 then 0 else hs (1 + t * intLimit fs * intLimit fs) / 65536

/-- The blocks above the lowest level, where the node `t` is the last of the middle level. -/
structure UpperLevels (fs : DirFs) (hs : ℕ → ℕ) (buf : ℕ → Block) (nb T : ℕ) (out : OutDir) :
    Prop where
  hashes : out.hashes = hs
  mid :
    ∀ t, t + 1 < T → DxNode (out.buf (midAddr nb (intLimit fs) t)) 8
      (midSlots fs hs nb t) (intLimit fs)
    (midLimit fs hs t) (midLimit fs hs t)
  root : DxNode (out.buf 0) 32 (topSlots fs hs nb) T (rootLimit fs) 0
  levels : getLe (out.buf 0) 30 1 = 2
  leaf : ∀ k, 0 < k → k < nb → out.buf k = buf k

/-- **The index of three levels** with `T` nodes of the middle level, the last of which has `d`
slots; the last node below it has `r` slots. -/
structure ThreeLevels (fs : DirFs) (hs : ℕ → ℕ) (buf : ℕ → Block) (m nb T d r G : ℕ)
    (st : TreeState) : Prop
    extends UpperLevels fs hs buf nb T st.out where
  nodes : G + intLimit fs = T * intLimit fs + d
  num : st.out.num = nb + T + G
  max : st.out.max = bufMax m st.out.num
  low : LowLevel fs hs (lowAddr nb (intLimit fs)) (lowCount m nb (intLimit fs)) G r st
  lastMid : ∀ t, t + 1 = T →
    DxNode (st.out.buf (midAddr nb (intLimit fs) t)) 8 (midSlots fs hs nb t) d
    (midLimit fs hs t) (midCount fs hs t)
  c1 : st.c1 = rootLimit fs - T
  c2 : st.c2 = intLimit fs - d
  c3 : st.c3 = intLimit fs - r
  rootOffset : st.rootOffset = 32 + 8 * T
  intOffset : ∀ t, t + 1 = T →
    st.intOffset = midAddr nb (intLimit fs) t * fs.blocksize + (8 + 8 * d)
  midPtr : ∀ t, t + 1 = T → ∃ p, st.intLimit = some p ∧
    PointsTo fs st.out p (midAddr nb (intLimit fs) t) 8
  noMid : T = 0 → st.intLimit = none

/-- A node of the lowest level can be added below the node `t` of the middle level, which has `d`
slots; `closed` is the directory in which the last node has been closed. -/
structure Ready (fs : DirFs) (hs : ℕ → ℕ) (buf : ℕ → Block) (m nb t d : ℕ) (st : TreeState)
    (closed : OutDir) : Prop extends UpperLevels fs hs buf nb (t + 1) closed where
  closed_eq : closeFull fs st.out st.limit = closed
  num : closed.num = midAddr nb (intLimit fs) t + d + 1
  max : closed.max = bufMax m closed.num
  full : ∀ g < t * intLimit fs + d,
  DxNode (closed.buf (lowAddr nb (intLimit fs) g)) 8 (leafSlots fs hs g)
    (intLimit fs) (intLimit fs) (lowCount m nb (intLimit fs) g)
  emptyMid : d = 0 → closed.buf (midAddr nb (intLimit fs) t) = setIntNode fs
  lastMid : 0 < d → DxNode (closed.buf (midAddr nb (intLimit fs) t)) 8 (midSlots fs hs nb t) d
    (midLimit fs hs t) (midCount fs hs t)
  c1 : st.c1 = rootLimit fs - (t + 1)
  c2 : st.c2 = intLimit fs - d
  rootOffset : st.rootOffset = 32 + 8 * (t + 1)
  intOffset : st.intOffset = midAddr nb (intLimit fs) t * fs.blocksize + (8 + 8 * d)
  midPtr : ∃ p, st.intLimit = some p ∧ p.pos = midAddr nb (intLimit fs) t * fs.blocksize + 8

/-- The slot of the node of the middle level. The first slot is given a hash unless it leads to the
first leaf block. -/
theorem Ready.lastMid_alloc (h : Ready fs hs buf m nb t d st closed) (hfs : fs.Ok)
    (hL : 1 ≤ intLimit fs)
    (hi : i = 1 + (t * intLimit fs + d) * intLimit fs) (hhash : hs i < 2 ^ 32)
    (hsmall : midAddr nb (intLimit fs) t < 2 ^ 31) (hd : d < intLimit fs) :
    DxNode (allocSlot closed i (closed.buf (midAddr nb (intLimit fs) t)) (8 + 8 * d)) 8
      (midSlots fs hs nb t)
      (d + 1) (midLimit fs hs t) (midCount fs hs t) := by
  have hlt := intLimit_spec hfs
  have hnum := h.num
  rcases Nat.eq_zero_or_pos d with rfl | hd0
  · rw [h.emptyMid rfl, allocSlot, h.hashes]
    have hslot : (midSlots fs hs nb t 0).2 = closed.num := by rw [midSlots, hnum]
    rw [Nat.add_zero] at hi
    by_cases ht : t = 0
    · subst ht
      rw [if_neg (not_not.mpr (by simpa using hi)), midLimit, midCount, if_pos rfl,
        if_pos rfl, ← hslot]
      exact (dxNode_setIntNode hfs).putFirst (by omega)
    · have := Nat.mul_pos (Nat.mul_pos (Nat.pos_of_ne_zero ht) hL) hL
      rw [if_pos (by omega), midLimit, midCount, if_neg ht, if_neg ht, ← hslot, ← hi]
      exact DxNode.putOver _ _ hhash (by omega)
  · have hpos : 0 < (t * intLimit fs + d) * intLimit fs := Nat.mul_pos (by omega) hL
    refine (h.lastMid hd0).allocSlot ?_ (by omega) ?_ (by omega)
    · rw [midSlots, h.hashes, hnum, hi]
    · rw [h.hashes]
      exact hhash

/-- **A node of the lowest level is added.** -/
theorem Ready.addLow (h : Ready fs hs buf m nb t d st closed) (hfs : fs.Ok) (hnb : 0 < nb)
    (hd : d < intLimit fs) (hi : i = 1 + (t * intLimit fs + d) * intLimit fs)
    (hhash : hs i < 2 ^ 32) (hpos : midAddr nb (intLimit fs) t * fs.blocksize + 8 < 2 ^ 31) :
    ∃ st', newDxNode fs st i = some st' ∧
      ThreeLevels fs hs buf m nb (t + 1) (d + 1) 0 (t * intLimit fs + d + 1) st' := by
  have hlt := intLimit_spec hfs
  have hmin := hfs.min_le
  obtain ⟨p, hp, hppos⟩ := h.midPtr
  have haddr := lowAddr_eq hd nb t
  have hmid0 : nb ≤ midAddr nb (intLimit fs) t := by
    rw [midAddr]
    omega
  have hsmall : midAddr nb (intLimit fs) t < 2 ^ 31 := by
    have := Nat.le_mul_of_pos_right (midAddr nb (intLimit fs) t) (show 0 < fs.blocksize by omega)
    omega
  have ha :=
    @allocBlocks_spec fs st.out (midAddr nb (intLimit fs) t) (8 + 8 * d) st.limit i st.c2 closed hfs
    h.closed_eq (by rw [h.num]; omega) (by omega)
  rw [← h.intOffset] at ha
  have hnew : newDxNode fs st i = some { st with
      out := (allocBlocks fs st.limit st.intOffset st.out i st.c2).out
      limit := some (allocBlocks fs st.limit st.intOffset st.out i st.c2).nextEnt
      dxEnt := (allocBlocks fs st.limit st.intOffset st.out i st.c2).nextEnt
      intOffset := (allocBlocks fs st.limit st.intOffset st.out i st.c2).prevOffset
      c2 := (allocBlocks fs st.limit st.intOffset st.out i st.c2).prevCount
      c3 := (allocBlocks fs st.limit st.intOffset st.out i st.c2).nextCount
      intLimit :=
        some ⟨(allocBlocks fs st.limit st.intOffset st.out i st.c2).out.gen, p.pos⟩ } := by
    rw [newDxNode, hp]
    exact if_pos (by rw [hppos]; exact hpos)
  refine ⟨_, hnew, ?_⟩
  clear hnew
  generalize allocBlocks fs st.limit st.intOffset st.out i st.c2 = a at ha
  -- the blocks that the new slot and the new node leave alone
  have hsame : ∀ k, k ≠ midAddr nb (intLimit fs) t → k < closed.num → a.out.buf k = closed.buf k :=
    fun k h0 hk => ha.same k h0 (by omega)
  have hmidSame : ∀ t' < t,
      a.out.buf (midAddr nb (intLimit fs) t') = closed.buf (midAddr nb (intLimit fs) t') := by
    intro t' ht'
    have := @midAddr_lt (intLimit fs) nb t' t ht'
    exact hsame _ (by omega) (by rw [h.num]; omega)
  have hzero : a.out.buf 0 = closed.buf 0 := hsame 0 (by omega) (by rw [h.num]; omega)
  refine ⟨⟨?_, ?_, ?_, ?_, ?_⟩, ?_, ?_, ?_, ?_, ?_, h.c1, ?_, ?_, h.rootOffset, ?_, ?_,
    fun h => absurd h (Nat.succ_ne_zero t)⟩
  · exact ha.hashes.trans h.hashes
  · intro t' ht'
    show DxNode (a.out.buf _) _ _ _ _ _
    rw [hmidSame t' (by omega)]
    exact h.mid t' ht'
  · show DxNode (a.out.buf 0) _ _ _ _ _
    rw [hzero]
    exact h.root
  · show getLe (a.out.buf 0) 30 1 = 2
    rw [hzero, h.levels]
  · intro k h0 hk
    show a.out.buf k = _
    rw [hsame k (by omega) (by rw [h.num]; omega), h.leaf k h0 hk]
  · rw [Nat.succ_mul]
    omega
  · show a.out.num = _
    rw [ha.num, h.num, midAddr]
    omega
  · exact ha.max m h.max
  · refine lowLevel_newNode hfs rfl rfl ?_ ?_ ?_
    · show PointsTo fs a.out a.nextEnt _ 8
      rw [haddr, ← h.num]
      exact ha.nextEnt
    · show a.out.buf _ = _
      rw [haddr, ← h.num]
      exact ha.node
    · intro g hg
      show DxNode (a.out.buf _) _ _ _ _ _
      have hg' := @lowAddr_lt (intLimit fs) nb g _ hg
      rw [hsame _ (lowAddr_ne_midAddr hlt.1 nb g t) (by rw [h.num]; omega)]
      exact h.full g hg
  · intro t' ht'
    obtain rfl : t' = t := by omega
    show DxNode (a.out.buf _) _ _ _ _ _
    rw [ha.slot]
    exact h.lastMid_alloc hfs hlt.1 hi hhash hsmall hd
  · show a.prevCount = _
    rw [ha.prevCount, h.c2]
    omega
  · show a.nextCount = _
    rw [ha.nextCount, (dxNode_setIntNode (f := fun _ => (0, 0)) hfs).limit]
    omega
  · intro t' ht'
    obtain rfl : t' = t := by omega
    show a.prevOffset = _
    rw [ha.prevOffset]
    omega
  · intro t' ht'
    obtain rfl : t' = t := by omega
    exact ⟨_, rfl, rfl, hppos, by omega⟩

/-- A full node of the lowest level that is not the last below its node is closed. -/
theorem lowCount_of_inner {L g : ℕ} (hd0 : 0 < d) (hd : d < L) (hg : g + 1 = t * L + d) :
    lowCount m nb L g = L := by
  refine if_neg fun h => ?_
  have hmod := h.1
  rw [hg, Nat.mul_comm, Nat.mul_add_mod, Nat.mod_eq_of_lt hd] at hmod
  omega

/-- The last node below a node of the middle level is closed unless the buffer is reallocated
then. -/
theorem lowCount_of_last {L g : ℕ} (hL : 0 < L) (hg : g + 1 = t * L) :
    lowCount m nb L g = if Moved m nb L t then 0 else L := by
  rw [lowCount, hg, Nat.mul_mod_left, Nat.mul_div_cancel t hL]
  simp

/-- A node of the lowest level can be added to a node of the middle level that is not full. -/
theorem ThreeLevels.ready (h : ThreeLevels fs hs buf m nb (t + 1) d (intLimit fs) G st)
    (hfs : fs.Ok) (hnb : 0 < nb)
    (hd0 : 0 < d) (hd : d < intLimit fs) : ∃ closed, Ready fs hs buf m nb t d st closed := by
  have hlt := intLimit_spec hfs
  have hnodes := h.nodes
  rw [Nat.succ_mul] at hnodes
  have hG : G = t * intLimit fs + d := by omega
  obtain ⟨closed, hclosed, hcnum, hcmax, hchs, hcsame, hcfull⟩ := h.low.closeFull hfs
    (fun g g' hg => (lowAddr_lt hg).ne) (fun _ _ => rfl)
    (Or.inl ⟨rfl, fun g hg => lowCount_of_inner hd0 hd (hg.trans hG)⟩)
  have hmidSame : ∀ t', closed.buf (midAddr nb (intLimit fs) t') =
      st.out.buf (midAddr nb (intLimit fs) t') :=
    fun t' => hcsame _ fun g _ => (lowAddr_ne_midAddr hlt.1 nb g t').symm
  have hlowSame : ∀ k < nb, closed.buf k = st.out.buf k := fun k hk => hcsame k fun g _ =>
    (hk.trans (lt_lowAddr nb (intLimit fs) g)).ne
  refine ⟨closed, ⟨?_, ?_, ?_, ?_, ?_⟩, hclosed, ?_, ?_, ?_, fun h0 => by omega,
    fun _ => ?_, h.c1, h.c2, h.rootOffset, h.intOffset t rfl, ?_⟩
  · rw [hchs, h.hashes]
  · intro t' ht'
    rw [hmidSame]
    exact h.mid t' ht'
  · rw [hlowSame 0 hnb]
    exact h.root
  · rw [hlowSame 0 hnb, h.levels]
  · intro k h0 hk
    rw [hlowSame k hk, h.leaf k h0 hk]
  · rw [hcnum, h.num, midAddr, hG]
    omega
  · rw [hcmax, hcnum, h.max]
  · rw [← hG]
    exact hcfull
  · rw [hmidSame]
    exact h.lastMid t rfl
  · obtain ⟨p, hp, -, hpos, -⟩ := h.midPtr t rfl
    exact ⟨p, hp, hpos⟩

/-- Closing the last node of the middle level, which is full. Its limit becomes its count. -/
theorem ThreeLevels.closeMid (h : ThreeLevels fs hs buf m nb T (intLimit fs) r G st) (hfs : fs.Ok) :
    ∃ closed, closeFull fs st.out st.intLimit = closed ∧ closed.num = st.out.num ∧
    closed.max = st.out.max ∧
      closed.gen = st.out.gen ∧ closed.hashes = st.out.hashes ∧
      (∀ k, (∀ t < T, k ≠ midAddr nb (intLimit fs) t) → closed.buf k = st.out.buf k) ∧
      ∀ t < T, DxNode (closed.buf (midAddr nb (intLimit fs) t)) 8
        (midSlots fs hs nb t) (intLimit fs)
        (midLimit fs hs t) (midLimit fs hs t) := by
  have hlt := intLimit_spec hfs
  rcases Nat.eq_zero_or_pos T with hT | hT
  · rw [h.noMid hT]
    exact ⟨st.out, rfl, rfl, rfl, rfl, rfl, fun _ _ => rfl, fun t ht => absurd ht (by omega)⟩
  obtain ⟨t, rfl⟩ : ∃ t, t + 1 = T := ⟨T - 1, by omega⟩
  obtain ⟨p, hp, hptr⟩ := h.midPtr t rfl
  have hlast := h.lastMid t rfl
  have hlimit : midLimit fs hs t < 65536 := by
    rw [midLimit]
    split <;> omega
  rw [hp, closeFull_of_pointsTo hptr, hlast.limit]
  refine ⟨_, rfl, rfl, rfl, rfl, rfl, fun k hk => put_buf_of_ne (hk t (by omega)) _ _,
    fun t' ht' => ?_⟩
  rcases Nat.lt_or_ge t' t with hlt' | hge
  · have := @midAddr_lt (intLimit fs) nb t' t hlt'
    rw [put_buf_of_ne (by omega)]
    exact h.mid t' (by omega)
  · obtain rfl : t' = t := by omega
    rw [put_buf_self]
    exact hlast.words hlimit hlimit

/-- The call of `alloc_blocks` for a node of the middle level. -/
theorem ThreeLevels.allocMid (h : ThreeLevels fs hs buf m nb T (intLimit fs) (intLimit fs) G st)
    (hfs : fs.Ok) (hnb : 0 < nb) (hT : T < rootLimit fs) (i : ℕ) {cl : OutDir}
    (hcl : closeFull fs st.out st.intLimit = cl) (hcnum : cl.num = st.out.num) :
    AllocedFrom fs cl i 0 (32 + 8 * T) st.c1
      (allocBlocks fs st.intLimit st.rootOffset st.out i st.c1) ∧
      G = T * intLimit fs ∧ cl.num = midAddr nb (intLimit fs) T ∧
      (allocBlocks fs st.intLimit st.rootOffset st.out i st.c1).nextEnt.pos =
        midAddr nb (intLimit fs) T * fs.blocksize + 8 := by
  have hroot := rootLimit_spec hfs
  have hG : G = T * intLimit fs := by
    have := h.nodes
    omega
  have hclnum : cl.num = midAddr nb (intLimit fs) T := by
    rw [hcnum, h.num, midAddr, hG]
    omega
  have hrootOffset : st.rootOffset = 0 * fs.blocksize + (32 + 8 * T) := by
    rw [h.rootOffset]
    omega
  have ha := @allocBlocks_spec fs st.out 0 (32 + 8 * T) st.intLimit i st.c1 cl hfs hcl
    (by rw [hclnum, midAddr]; omega) (by omega)
  rw [← hrootOffset] at ha
  exact ⟨ha, hG, hclnum, by rw [ha.nextEnt.2.1, hclnum]⟩

/-- **A node of the middle level is added.** -/
theorem ThreeLevels.addMid (h : ThreeLevels fs hs buf m nb T (intLimit fs) (intLimit fs) G st)
    (hfs : fs.Ok)
    (hnb : 0 < nb) (hT : T < rootLimit fs) (hi : i = 1 + T * intLimit fs * intLimit fs)
    (hhash : hs i < 2 ^ 32) (hpos : midAddr nb (intLimit fs) T * fs.blocksize + 8 < 2 ^ 31) :
    ∃ st' closed, newIntNode fs st i = some st' ∧ st'.c3 = st.c3 ∧
    Ready fs hs buf m nb T 0 st' closed := by
  have hlt := intLimit_spec hfs
  have hroot := rootLimit_spec hfs
  have hmin := hfs.min_le
  obtain ⟨cl, hcl, hcnum, hcmax, hcgen, hchs, hcsame, hcmid⟩ := h.closeMid hfs
  obtain ⟨ha, hG, hclnum, hnew⟩ := h.allocMid hfs hnb hT i hcl hcnum
  have hsmall : midAddr nb (intLimit fs) T < 2 ^ 31 := by
    have := Nat.le_mul_of_pos_right (midAddr nb (intLimit fs) T) (show 0 < fs.blocksize by omega)
    omega
  have hmid0 : ∀ t, nb ≤ midAddr nb (intLimit fs) t := fun t => by
    rw [midAddr]
    omega
  rw [newIntNode, if_pos (by rw [hnew]; exact hpos)]
  generalize allocBlocks fs st.intLimit st.rootOffset st.out i st.c1 = a at ha hnew
  -- the blocks that the new slot and the new node leave alone
  have hsame : ∀ k, k ≠ 0 → k < midAddr nb (intLimit fs) T → a.out.buf k = cl.buf k :=
    fun k h0 hk =>
    ha.same k h0 (by omega)
  have hlow : ∀ g < G, a.out.buf (lowAddr nb (intLimit fs) g) =
      st.out.buf (lowAddr nb (intLimit fs) g) := by
    intro g hg
    have hgt := lt_lowAddr nb (intLimit fs) g
    rw [hsame _ (by omega) (lowAddr_lt_midAddr hlt.1 (by omega)),
      hcsame _ fun t _ => lowAddr_ne_midAddr hlt.1 nb g t]
  have hmax : cl.max = bufMax m (midAddr nb (intLimit fs) T) := by
    rw [hcmax, h.max, ← hcnum, hclnum]
  have hcnt : (a.out.gen = st.out.gen ∧
        ∀ g, g + 1 = G → lowCount m nb (intLimit fs) g = intLimit fs) ∨
      (a.out.gen ≠ st.out.gen ∧ ∀ g, g + 1 = G → lowCount m nb (intLimit fs) g = 0) := by
    by_cases hmoved : Moved m nb (intLimit fs) T
    · refine Or.inr ⟨?_, fun g hg => ?_⟩
      · rw [ha.gen_of_le (by rw [hmax, hclnum]; exact hmoved), hcgen]
        omega
      · rw [lowCount_of_last hlt.1 (hg.trans hG), if_pos hmoved]
    · refine Or.inl ⟨?_, fun g hg => ?_⟩
      · rw [ha.gen_of_lt (by rw [hmax, hclnum]; exact Nat.lt_of_not_le hmoved), hcgen]
      · rw [lowCount_of_last hlt.1 (hg.trans hG), if_neg hmoved]
  obtain ⟨closed, hclosed, hcnum', hcmax', hchs', hcsame', hcfull'⟩ := h.low.closeFull hfs
    (fun g g' hg => (lowAddr_lt hg).ne) hlow hcnt
  have hmidSame : ∀ t, closed.buf (midAddr nb (intLimit fs) t) =
      a.out.buf (midAddr nb (intLimit fs) t) :=
    fun t => hcsame' _ fun g _ => (lowAddr_ne_midAddr hlt.1 nb g t).symm
  have hlowSame : ∀ k < nb, closed.buf k = a.out.buf k := fun k hk => hcsame' k fun g _ =>
    (hk.trans (lt_lowAddr nb (intLimit fs) g)).ne
  have hzero : cl.buf 0 = st.out.buf 0 := hcsame 0 fun t _ => by
    have := hmid0 t
    omega
  refine ⟨_, closed, rfl, rfl, ⟨?_, ?_, ?_, ?_, ?_⟩, hclosed, ?_, ?_, ?_, fun _ => ?_,
    fun h0 => absurd h0 (by omega), ?_, ?_, ?_, ?_, ⟨a.nextEnt, rfl, hnew⟩⟩
  · rw [hchs', ha.hashes, hchs, h.hashes]
  · intro t ht
    have ht' := @midAddr_lt (intLimit fs) nb t T (by omega)
    have := hmid0 t
    rw [hmidSame, hsame _ (by omega) (by omega)]
    exact hcmid t (by omega)
  · rw [hlowSame 0 hnb, ha.slot, hzero]
    refine h.root.allocSlot ?_ ?_ ?_ (by omega)
    · rw [topSlots, hchs, h.hashes, hclnum, hi]
    · rw [hi]
      rcases Nat.eq_zero_or_pos T with rfl | hT0
      · simp
      · have := Nat.mul_pos (Nat.mul_pos hT0 hlt.1) hlt.1
        omega
    · rw [hchs, h.hashes]
      exact hhash
  · rw [hlowSame 0 hnb, ha.slot, hzero, allocSlot_levels (by omega), h.levels]
  · intro k h0 hk
    have hk' : ∀ t < T, k ≠ midAddr nb (intLimit fs) t := fun t _ => by
      have := hmid0 t
      omega
    have := hmid0 T
    rw [hlowSame k hk, hsame k (by omega) (by omega), hcsame k hk', h.leaf k h0 hk]
  · rw [hcnum', ha.num, hclnum]
  · rw [hcmax', hcnum']
    exact ha.max m (by rw [hmax, hclnum])
  · rw [Nat.add_zero, ← hG]
    exact hcfull'
  · rw [hmidSame, ← hclnum]
    exact ha.node
  · show a.prevCount = _
    rw [ha.prevCount, h.c1]
    omega
  · show a.nextCount = _
    rw [ha.nextCount, (dxNode_setIntNode (f := fun _ => (0, 0)) hfs).limit]
    omega
  · show a.prevOffset = _
    rw [ha.prevOffset]
    omega
  · show a.nextEnt.pos = _
    rw [hnew]

/-- A leaf block is entered into the last node. -/
theorem ThreeLevels.putLeafEntry (h : ThreeLevels fs hs buf m nb T d r (G + 1) st) (hfs : fs.Ok)
    (hnb : 0 < nb) (hr : r < intLimit fs) (hi : i = 1 + G * intLimit fs + r) (hi32 : i < 2 ^ 32)
    (hhash : hs i < 2 ^ 32) :
    ThreeLevels fs hs buf m nb T d (r + 1) (G + 1)
      { putLeafEntry fs st i st.c3 with c3 := st.c3 - 1 } := by
  have hlt := intLimit_spec hfs
  obtain ⟨b, hput, hlow⟩ :=
    h.low.putLeafEntry hfs hr h.c3 h.hashes hi hi32 hhash (fun g' hg' => (lowAddr_lt hg').ne)
  rw [hput] at hlow ⊢
  have hne : ∀ k, k < nb → (st.out.put (lowAddr nb (intLimit fs) G) b).buf k = st.out.buf k :=
    fun k hk =>
    put_buf_of_ne (hk.trans (lt_lowAddr nb (intLimit fs) G)).ne _ _
  have hmid : ∀ t, (st.out.put (lowAddr nb (intLimit fs) G) b).buf (midAddr nb (intLimit fs) t) =
      st.out.buf (midAddr nb (intLimit fs) t) := fun t =>
    put_buf_of_ne (lowAddr_ne_midAddr hlt.1 nb G t).symm _ _
  refine ⟨⟨h.hashes, ?_, ?_, ?_, ?_⟩, h.nodes, h.num, h.max,
    ⟨hlow.full, hlow.last, hlow.limit, hlow.dxEnt, hlow.none⟩, ?_, h.c1, h.c2, ?_, h.rootOffset,
    h.intOffset, h.midPtr, h.noMid⟩
  · intro t ht
    show DxNode ((st.out.put _ b).buf _) _ _ _ _ _
    rw [hmid]
    exact h.mid t ht
  · show DxNode ((st.out.put _ b).buf 0) _ _ _ _ _
    rw [hne 0 hnb]
    exact h.root
  · show getLe ((st.out.put _ b).buf 0) 30 1 = 2
    rw [hne 0 hnb, h.levels]
  · intro k h0 hk
    exact (hne k hk).trans (h.leaf k h0 hk)
  · intro t ht
    show DxNode ((st.out.put _ b).buf _) _ _ _ _ _
    rw [hmid]
    exact h.lastMid t ht
  · show st.c3 - 1 = _
    rw [h.c3]
    omega

/-- **A round.** -/
theorem ThreeLevels.dxRound (h : ThreeLevels fs hs buf m nb T d r G st) (hfs : fs.Ok) (hnb : 0 < nb)
    (hr : r ≤ intLimit fs) (hd : d ≤ intLimit fs) (hd0 : 0 < d)
    (hT0 : T = 0 → d = intLimit fs ∧ r = intLimit fs)
    (hT : r = intLimit fs → d = intLimit fs → T < rootLimit fs ∧
      midAddr nb (intLimit fs) T * fs.blocksize + 8 < 2 ^ 31)
    (hpos : ∀ t, t + 1 = T → midAddr nb (intLimit fs) t * fs.blocksize + 8 < 2 ^ 31)
    (hi : i + intLimit fs = 1 + G * intLimit fs + r) (hhash : hs i < 2 ^ 32) (hi32 : i < 2 ^ 32) :
    ∃ T' d' r' G' st', dxRound fs st i = some st' ∧
    ThreeLevels fs hs buf m nb T' d' r' G' st' ∧ 0 < r' ∧
      r' ≤ intLimit fs ∧ 0 < d' ∧ d' ≤ intLimit fs ∧ 0 < T' ∧
      i + 1 + intLimit fs = 1 + G' * intLimit fs + r' := by
  have hlt := intLimit_spec hfs
  have hc1 := h.c1
  have hc2 := h.c2
  have hc3 := h.c3
  by_cases hfull : r = intLimit fs
  · subst hfull
    have hi' : i = 1 + G * E2fsprogs.intLimit fs + 0 := by omega
    have hsum : i + 1 + intLimit fs = 1 + (G + 1) * intLimit fs + (0 + 1) := by
      rw [Nat.succ_mul]
      omega
    -- both cases end with an empty node of the lowest level
    have hend : ∀ t e mid closed, G = t * intLimit fs + e → e < intLimit fs →
        midAddr nb (intLimit fs) t * fs.blocksize + 8 < 2 ^ 31 →
          Ready fs hs buf m nb t e mid closed →
        ∃ st', ((newDxNode fs mid i).map fun st =>
          { E2fsprogs.putLeafEntry fs st i st.c3 with c3 := st.c3 - 1 }) =
          some st' ∧ ThreeLevels fs hs buf m nb (t + 1) (e + 1) (0 + 1) (G + 1) st' := by
      rintro t e mid closed rfl he hposT hready
      obtain ⟨st', hnew, hst'⟩ := hready.addLow hfs hnb he (by omega) hhash hposT
      refine ⟨_, by rw [hnew]; rfl, hst'.putLeafEntry hfs hnb (by omega) hi' hi32 hhash⟩
    by_cases hdfull : d = intLimit fs
    · subst hdfull
      obtain ⟨hTlt, hposT⟩ := hT rfl rfl
      have hG : G = T * E2fsprogs.intLimit fs + 0 := by
        have := h.nodes
        omega
      obtain ⟨mid, closed, hnew, hmidc3, hready⟩ :=
        h.addMid (i := i) hfs hnb hTlt (by rw [hi', hG]; rfl) hhash hposT
      obtain ⟨st', hst', hthree⟩ := hend T 0 mid closed hG (by omega) hposT hready
      refine ⟨T + 1, 0 + 1, 0 + 1, G + 1, st', ?_, hthree, by omega, by omega, by omega, by omega,
        by omega, hsum⟩
      rw [E2fsprogs.dxRound, if_neg (by omega), if_pos ⟨by omega, by omega⟩, hnew, Option.bind_some,
        if_pos (by omega)]
      exact hst'
    · obtain ⟨t, rfl⟩ : ∃ t, t + 1 = T := ⟨T - 1, by omega⟩
      have hG : G = t * E2fsprogs.intLimit fs + d := by
        have := h.nodes
        rw [Nat.succ_mul] at this
        omega
      obtain ⟨closed, hready⟩ := h.ready hfs hnb hd0 (by omega)
      obtain ⟨st', hst', hthree⟩ := hend t d st closed hG (by omega) (hpos t rfl) hready
      refine ⟨t + 1, d + 1, 0 + 1, G + 1, st', ?_, hthree, by omega, by omega, by omega, by omega,
        by omega, hsum⟩
      rw [E2fsprogs.dxRound, if_neg (by omega), if_neg (by omega), Option.bind_some,
        if_pos (by omega)]
      exact hst'
  · obtain ⟨t, rfl⟩ : ∃ t, t + 1 = T := ⟨T - 1, by omega⟩
    obtain ⟨G, rfl⟩ : ∃ G', G = G' + 1 := by
      have := h.nodes
      rw [Nat.succ_mul] at this
      exact ⟨G - 1, by omega⟩
    rw [Nat.succ_mul] at hi
    have hi' : i = 1 + G * E2fsprogs.intLimit fs + r := by omega
    refine ⟨t + 1, d, r + 1, G + 1, _, ?_, h.putLeafEntry hfs hnb (by omega) hi' hi32 hhash,
      by omega, by omega, hd0, hd, by omega, ?_⟩
    · rw [E2fsprogs.dxRound, if_neg (by omega), if_neg (by omega), Option.bind_some,
        if_neg (by omega)]
      rfl
    · rw [Nat.succ_mul]
      omega

/-- A node of the middle level whose offset is not an `int`. -/
theorem ThreeLevels.dxRound_none (h : ThreeLevels fs hs buf m nb T (intLimit fs) (intLimit fs) G st)
    (hfs : fs.Ok) (hnb : 0 < nb) (hT : T < rootLimit fs)
    (hpos : 2 ^ 31 ≤ midAddr nb (intLimit fs) T * fs.blocksize + 8) :
    E2fsprogs.dxRound fs st i = none := by
  obtain ⟨cl, hcl, hcnum, -⟩ := h.closeMid hfs
  obtain ⟨-, -, -, hnew⟩ := h.allocMid hfs hnb hT i hcl hcnum
  have hc1 := h.c1
  have hc2 := h.c2
  have hc3 := h.c3
  rw [E2fsprogs.dxRound, if_neg (by omega), if_pos ⟨by omega, by omega⟩, newIntNode,
    if_neg (by rw [hnew]; omega)]
  rfl

/-- **All rounds**, as long as the offsets are `int`s. The induction is on the number of leaf blocks
that have been entered. -/
theorem ThreeLevels.run (h : ThreeLevels fs hs buf m nb 0 (intLimit fs) (intLimit fs) 0 st)
    (hfs : fs.Ok) (hnb : 0 < nb) (hnb31 : nb < 2 ^ 31) (hhash : ∀ k < nb, hs k < 2 ^ 32) :
    ∀ j, j < nb → j ≤ rootLimit fs * intLimit fs * intLimit fs →
      (∀ t, t * intLimit fs * intLimit fs < j →
        midAddr nb (intLimit fs) t * fs.blocksize + 8 < 2 ^ 31) →
      ∃ T d r G st', (List.range' 1 j).foldlM (E2fsprogs.dxRound fs) st = some st' ∧
        ThreeLevels fs hs buf m nb T d r G st' ∧ 0 < r ∧ r ≤ intLimit fs ∧ 0 < d ∧ d ≤ intLimit fs ∧
        (T = 0 → d = intLimit fs ∧ r = intLimit fs) ∧ G * intLimit fs + r = j + intLimit fs := by
  have hlt := intLimit_spec hfs
  intro j
  induction j with
  | zero =>
    intro _ _ _
    exact ⟨0, intLimit fs, intLimit fs, 0, st, rfl, h, by omega, le_rfl, by omega, le_rfl,
      fun _ => ⟨rfl, rfl⟩, by omega⟩
  | succ j ih =>
    intro hj hle hpos
    obtain ⟨T, d, r, G, mid, hrun, hmid, hr0, hr, hd0, hd, hT0, hsum⟩ := ih (by omega) (by omega)
      fun t ht => hpos t (by omega)
    have hnodes := hmid.nodes
    have hT : r = intLimit fs → d = intLimit fs → T < rootLimit fs ∧
        midAddr nb (intLimit fs) T * fs.blocksize + 8 < 2 ^ 31 := by
      rintro rfl rfl
      obtain rfl : G = T * intLimit fs := by omega
      refine ⟨?_, hpos T (by omega)⟩
      exact Nat.lt_of_mul_lt_mul_right (Nat.lt_of_mul_lt_mul_right
        (show T * intLimit fs * intLimit fs < rootLimit fs * intLimit fs * intLimit fs by omega))
    -- the node of the current branch begins where an `int` can hold its offset
    have hposLast : ∀ t, t + 1 = T → midAddr nb (intLimit fs) t * fs.blocksize + 8 < 2 ^ 31 := by
      rintro t rfl
      rw [Nat.succ_mul] at hnodes
      refine hpos t ?_
      have : t * intLimit fs * intLimit fs ≤ (G - 1) * intLimit fs :=
        Nat.mul_le_mul_right _ (by omega)
      have : (G - 1) * intLimit fs + intLimit fs = G * intLimit fs := by
        rw [← Nat.succ_mul]
        congr 1
        omega
      omega
    obtain ⟨T', d', r', G', st', hround, hst', hr0', hr', hd0', hd', hT', hsum'⟩ :=
      hmid.dxRound (i := 1 + j) hfs hnb hr hd hd0 hT0 hT hposLast (by omega)
        (hhash _ (by omega)) (by omega)
    refine ⟨T', d', r', G', st', ?_, hst', hr0', hr', hd0', hd', by omega, by omega⟩
    rw [List.range'_1_concat, List.foldlM_append, hrun]
    simp only [List.foldlM_cons, List.foldlM_nil, Option.bind_eq_bind, Option.bind_some, hround]
    rfl

end ThreeLevels

end E2fsprogs
