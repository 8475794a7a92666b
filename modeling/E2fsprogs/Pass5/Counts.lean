import E2fsprogs.Pass5.BlockBitmaps

/-!
# What pass 5 makes of the block bitmap

The invariant of the counting loop of `E2fsprogs.countLoop`: everything behind the cluster it has
come to is counted, and what was handed to the device to be discarded is free in both bitmaps. The
fast path and the slow path lead from one such state to another.
-/

namespace E2fsprogs

/-! ### Numbers of clusters -/

/-- The number of clear bits among the `n` from `c` on. -/
def clearBits (map : ℕ → Bool) (c n : ℕ) : ℕ := Nat.count (fun k => map (c + k) = false) n

/-- The number of bits that are not equal among the `n` from `c` on. -/
def unequalBits (map map' : ℕ → Bool) (c n : ℕ) : ℕ :=
  Nat.count (fun k => map (c + k) ≠ map' (c + k)) n

theorem clearBits_add (map : ℕ → Bool) (c n m : ℕ) :
    clearBits map c (n + m) = clearBits map c n + clearBits map (c + n) m := by
  simp only [clearBits, Nat.count_add, Nat.add_assoc]

theorem unequalBits_add (map map' : ℕ → Bool) (c n m : ℕ) :
    unequalBits map map' c (n + m) = unequalBits map map' c n + unequalBits map map' (c + n) m := by
  simp only [unequalBits, Nat.count_add, Nat.add_assoc]

theorem clearBits_one (map : ℕ → Bool) (c : ℕ) :
    clearBits map c 1 = if map c = false then 1 else 0 := by
  rw [clearBits, Nat.count_one, Nat.add_zero]

theorem unequalBits_one (map map' : ℕ → Bool) (c : ℕ) :
    unequalBits map map' c 1 = if map c ≠ map' c then 1 else 0 := by
  rw [unequalBits, Nat.count_one, Nat.add_zero]

theorem clearBits_le (map : ℕ → Bool) (c n : ℕ) : clearBits map c n ≤ n := Nat.count_le _

theorem unequalBits_eq_zero {map map' : ℕ → Bool} {c n : ℕ} :
    unequalBits map map' c n = 0 ↔ ∀ d, c ≤ d → d < c + n → map d = map' d := by
  rw [unequalBits, Nat.count_iff_forall_not]
  constructor
  · intro h d hd hd'
    have := h (d - c) (by omega)
    rwa [Nat.add_sub_cancel' hd, not_not] at this
  · exact fun h m hm => not_not.mpr (h _ (by omega) (by omega))

theorem clearBits_congr {map map' : ℕ → Bool} {c n : ℕ}
    (h : ∀ d, c ≤ d → d < c + n → map d = map' d) :
    clearBits map c n = clearBits map' c n := by
  induction n with
  | zero => rfl
  | succ n ih =>
    rw [clearBits_add, clearBits_add, ih fun d hd hd' => h d hd (by omega)]
    rw [clearBits_one, clearBits_one, h (c + n) (by omega) (by omega)]

/-- What the fast path counts. -/
theorem count_bitmapRange {g : BitmapGeometry} (h8 : g.clustersPerGroup % 8 = 0)
    (map : ℕ → Bool) (c : ℕ) :
    g.clustersPerGroup - (bitmapRange g map c).count true = clearBits map c g.clustersPerGroup := by
  have htake : bitmapRange g map c = (List.range g.clustersPerGroup).map fun k => map (c + k) := by
    rw [bitmapRange, List.take_of_length_le]
    rw [List.length_map, List.length_range]
    omega
  have hcount : ∀ n, ((List.range n).map fun k => map (c + k)).count true + clearBits map c n =
      n := by
    intro n
    induction n with
    | zero => rfl
    | succ n ih =>
      rw [List.range_succ, List.map_append, List.count_append, clearBits_add, clearBits_one]
      cases hb : map (c + n) <;> simp [hb] <;> omega
  rw [htake]
  have := hcount g.clustersPerGroup
  omega

/-- The fast path is taken when the bitmaps agree on the group. -/
theorem bitmapRange_eq_iff {g : BitmapGeometry} (h8 : g.clustersPerGroup % 8 = 0)
    {map map' : ℕ → Bool} {c : ℕ} :
    bitmapRange g map c = bitmapRange g map' c ↔
      ∀ d, c ≤ d → d < c + g.clustersPerGroup → map d = map' d := by
  have htake : ∀ m : ℕ → Bool, bitmapRange g m c = (List.range g.clustersPerGroup).map fun k =>
      m (c + k) := by
    intro m
    rw [bitmapRange, List.take_of_length_le]
    rw [List.length_map, List.length_range]
    omega
  rw [htake, htake, List.map_inj_left]
  constructor
  · intro h d hd hd'
    have := h (d - c) (List.mem_range.mpr (by omega))
    rwa [Nat.add_sub_cancel' hd] at this
  · exact fun h k hk => h _ (by omega) (by have := List.mem_range.mp hk; omega)

/-! ### The clusters of the file system -/

section Geometry

variable {g : BitmapGeometry} {env : BitmapEnv} {map : ℕ → Bool} {changed redo : Bool}
  {c n : ℕ} {st₀ st : CountState}

/-- The first cluster. -/
def BitmapGeometry.firstCluster (g : BitmapGeometry) : ℕ := g.firstDataBlock / g.ratio

/-- The cluster behind the last. -/
def BitmapGeometry.endCluster (g : BitmapGeometry) : ℕ := (g.blocksCount - 1) / g.ratio + 1

/-- The first cluster of a group. -/
def BitmapGeometry.groupStart (g : BitmapGeometry) (gr : ℕ) : ℕ :=
  g.firstCluster + gr * g.clustersPerGroup

/-- The number of clusters of a group, which is less than the others have for the last group. -/
def BitmapGeometry.groupLen (g : BitmapGeometry) (gr : ℕ) : ℕ :=
  Nat.min g.clustersPerGroup (g.endCluster - g.groupStart gr)

/-- A geometry as `check_super_block` lets pass: clusters of more than one block begin at block 0, a
group has `EXT2_MAX_CLUSTERS_PER_GROUP` clusters at most, and block numbers have room in the
superblock. -/
structure BitmapGeometry.Ok (g : BitmapGeometry) : Prop where
  first : g.firstDataBlock < g.blocksCount
  clusters : g.ratio = 1 ∨ g.firstDataBlock = 0
  bytes : g.clustersPerGroup % 8 = 0
  pos : 0 < g.clustersPerGroup
  max : g.clustersPerGroup ≤ 2 ^ 16 - 8
  groups : g.groupDescCount =
    (g.blocksCount - g.firstDataBlock + g.clustersPerGroup * g.ratio - 1) /
      (g.clustersPerGroup * g.ratio)
  size : g.endCluster * g.ratio < 2 ^ (if g.has64bit then 64 else 32)

theorem BitmapGeometry.ratio_pos (g : BitmapGeometry) : 0 < g.ratio := Nat.two_pow_pos _

theorem lt_endCluster_iff (hg : g.Ok) : c < g.endCluster ↔ c * g.ratio < g.blocksCount := by
  have hr := g.ratio_pos
  have hfirst := hg.first
  rw [BitmapGeometry.endCluster, Nat.lt_succ_iff, Nat.le_div_iff_mul_le hr]
  omega

theorem firstCluster_lt (hg : g.Ok) : g.firstCluster < g.endCluster := by
  rw [lt_endCluster_iff hg]
  have := Nat.div_mul_le_self g.firstDataBlock g.ratio
  rw [BitmapGeometry.firstCluster]
  exact lt_of_le_of_lt this hg.first

/-- The groups just cover the clusters. -/
theorem groupStart_last (hg : g.Ok) :
    0 < g.groupDescCount ∧ g.groupStart (g.groupDescCount - 1) < g.endCluster ∧
    g.endCluster ≤ g.groupStart g.groupDescCount := by
  have hr := g.ratio_pos
  have hfirst := hg.first
  have hpos := hg.pos
  have hbpg : 0 < g.clustersPerGroup * g.ratio := Nat.mul_pos hpos hr
  have hfc : g.firstCluster * g.ratio = g.firstDataBlock := by
    rw [BitmapGeometry.firstCluster]
    rcases hg.clusters with h | h
    · rw [h, Nat.div_one, Nat.mul_one]
    · rw [h, Nat.zero_div, Nat.zero_mul]
  obtain ⟨B, hB⟩ : ∃ B, B = g.clustersPerGroup * g.ratio := ⟨_, rfl⟩
  have hgdc := hg.groups
  rw [← hB] at hgdc hbpg
  have hle : g.blocksCount - g.firstDataBlock ≤ g.groupDescCount * B := by
    have h1 := Nat.lt_mul_div_succ (g.blocksCount - g.firstDataBlock + B - 1) hbpg
    rw [← hgdc, Nat.mul_add, Nat.mul_one, Nat.mul_comm] at h1
    omega
  have hgd : 0 < g.groupDescCount := by
    rw [hgdc]
    exact Nat.div_pos (by omega) hbpg
  have hlt : (g.groupDescCount - 1) * B < g.blocksCount - g.firstDataBlock := by
    have h1 := Nat.div_mul_le_self (g.blocksCount - g.firstDataBlock + B - 1) B
    rw [← hgdc] at h1
    rw [Nat.sub_mul, Nat.one_mul]
    have h2 : B ≤ g.groupDescCount * B := Nat.le_mul_of_pos_left B hgd
    omega
  have hmul : ∀ gr, g.groupStart gr * g.ratio = g.firstDataBlock + gr * B := by
    intro gr
    rw [BitmapGeometry.groupStart, Nat.add_mul, hfc, Nat.mul_assoc, ← hB]
  refine ⟨hgd, ?_, ?_⟩
  · rw [lt_endCluster_iff hg, hmul]
    omega
  · rw [← not_lt, lt_endCluster_iff hg, hmul]
    omega

theorem groupStart_succ (g : BitmapGeometry) (gr : ℕ) :
    g.groupStart (gr + 1) = g.groupStart gr + g.clustersPerGroup := by
  rw [BitmapGeometry.groupStart, BitmapGeometry.groupStart, Nat.add_mul, Nat.one_mul, Nat.add_assoc]

theorem firstCluster_le_groupStart (g : BitmapGeometry) (gr : ℕ) :
    g.firstCluster ≤ g.groupStart gr :=
  Nat.le_add_right _ _

theorem groupStart_mono {gr gr' : ℕ} (h : gr ≤ gr') : g.groupStart gr ≤ g.groupStart gr' :=
  Nat.add_le_add_left (Nat.mul_le_mul_right _ h) _

/-! ### The invariant of the loop -/

/-- A run of blocks that is free in both bitmaps. -/
def FreeRun (g : BitmapGeometry) (map map' : ℕ → Bool) (r : ℕ × ℕ) : Prop :=
  ∀ b, r.1 ≤ b → b < r.1 + r.2 → map (b / g.ratio) = false ∧ map' (b / g.ratio) = false

/-- The free clusters before cluster `c` that may be discarded. -/
def FreeSince (g : BitmapGeometry) (map : ℕ → Bool) (c firstFree : ℕ) : Prop :=
  firstFree = g.blocksCount ∨ ∃ f, firstFree = f * g.ratio ∧ g.firstCluster ≤ f ∧ f < c ∧
    ∀ d, f ≤ d → d < c → map d = false

/-- What is behind cluster `c` is counted, and what is behind cluster `e` is compared. In `st₀` the
loop began. -/
structure Counting (g : BitmapGeometry) (found map : ℕ → Bool) (st₀ : CountState) (e c : ℕ)
    (st : CountState) :
    Prop where
  total : st.freeBlocks = clearBits map g.firstCluster (c - g.firstCluster)
  array : ∀ gr < st.group, st.freeArray gr = clearBits map (g.groupStart gr) (g.groupLen gr)
  problems : st.hadProblem = unequalBits found map g.firstCluster (e - g.firstCluster) % 2 ^ 32
  same : st.discard = true → ∀ d, g.firstCluster ≤ d → d < e → found d = map d
  run : FreeSince g map c st.firstFree
  free : ∀ r ∈ st.discarded, r ∈ st₀.discarded ∨ (st₀.discard = true ∧ FreeRun g found map r)
  option : st.discard = true → st₀.discard = true

/-- **The loop has come to cluster `c`.** -/
structure Counted (g : BitmapGeometry) (found map : ℕ → Bool) (st₀ : CountState) (c : ℕ)
    (st : CountState) :
    Prop extends Counting g found map st₀ c c st where
  inside : g.firstCluster ≤ c ∧ c ≤ g.endCluster
  here : c < g.endCluster → g.groupStart st.group + st.blocks = c ∧ st.blocks < g.clustersPerGroup ∧
    st.groupFree = clearBits map (g.groupStart st.group) st.blocks
  done : c = g.endCluster → st.group = g.groupDescCount ∧ st.firstFree = g.blocksCount

theorem clearBits_to (hc : g.firstCluster ≤ c) (m : ℕ) :
    clearBits map g.firstCluster (c + m - g.firstCluster) =
    clearBits map g.firstCluster (c - g.firstCluster) + clearBits map c m := by
  rw [Nat.sub_add_comm hc, clearBits_add, Nat.add_sub_cancel' hc]

theorem unequalBits_to {found : ℕ → Bool} (hc : g.firstCluster ≤ c) (m : ℕ) :
    unequalBits found map g.firstCluster (c + m - g.firstCluster) =
      unequalBits found map g.firstCluster (c - g.firstCluster) + unequalBits found map c m := by
  rw [Nat.sub_add_comm hc, unequalBits_add, Nat.add_sub_cancel' hc]

/-- The blocks since the first free one may be discarded. -/
theorem freeRun_of_since {found : ℕ → Bool} {f start count : ℕ} (hstart : start = f * g.ratio)
    (hf : g.firstCluster ≤ f) (hmap : ∀ d, f ≤ d → d < c → map d = false)
    (hsame : ∀ d, g.firstCluster ≤ d → d < c → found d = map d)
    (hcount : start + count ≤ c * g.ratio) :
    FreeRun g found map (start, count) := by
  intro b hb hb'
  dsimp only at hb hb'
  have hr := g.ratio_pos
  have h1 : f ≤ b / g.ratio := (Nat.le_div_iff_mul_le hr).mpr (by omega)
  have h2 : b / g.ratio < c := (Nat.div_lt_iff_lt_mul hr).mpr (by omega)
  rw [hsame _ (hf.trans h1) h2]
  exact ⟨hmap _ h1 h2, hmap _ h1 h2⟩

/-- **A discard** of free blocks. -/
theorem Counting.discardBlocks {e start count : ℕ} (h : Counting g env.found map st₀ e c st)
    (hrun : st.discard = true → FreeRun g env.found map (start, count)) :
    Counting g env.found map st₀ e c (st.discardBlocks env changed start count) := by
  rw [CountState.discardBlocks]
  split
  · next hd =>
    rw [Bool.and_eq_true] at hd
    refine ⟨h.total, h.array, h.problems, fun _ => h.same hd.1, h.run, fun r hr => ?_,
      fun _ => h.option hd.1⟩
    rcases List.mem_append.mp hr with hold | hnew
    · exact h.free r hold
    · rw [List.mem_singleton] at hnew
      rw [hnew]
      exact Or.inr ⟨h.option hd.1, hrun hd.1⟩
  · exact ⟨h.total, h.array, h.problems, nofun, h.run, h.free, nofun⟩

theorem discardBlocks_fields (st : CountState) (start count : ℕ) :
    (st.discardBlocks env changed start count).group = st.group ∧
      (st.discardBlocks env changed start count).blocks = st.blocks ∧
      (st.discardBlocks env changed start count).groupFree = st.groupFree ∧
      (st.discardBlocks env changed start count).firstFree = st.firstFree := by
  rw [CountState.discardBlocks]
  split <;> exact ⟨rfl, rfl, rfl, rfl⟩

/-- **A cluster is compared**, and the bitmaps differ on it. -/
theorem Counting.note (h : Counting g env.found map st₀ c c st) (hc : g.firstCluster ≤ c)
    (hne : env.found c ≠ map c) (i : ℕ) (p : BitmapProblem) :
    Counting g env.found map st₀ (c + 1) c (st.note g env i p) := by
  obtain ⟨st₁, hst₁⟩ : ∃ st₁ : CountState, st₁ = { st with
    blockUninit := if p = BitmapProblem.blockUsed ∧ st.blockUninit st.group ∧
      env.answer .blockUninit then
      Function.update st.blockUninit st.group false else st.blockUninit
    hadProblem := (st.hadProblem + 1) % 2 ^ 32
    discard := false } := ⟨_, rfl⟩
  have h₁ : Counting g env.found map st₀ (c + 1) c st₁ := by
    rw [hst₁]
    refine ⟨h.total, h.array, ?_, nofun, h.run, h.free, nofun⟩
    dsimp only
    rw [h.problems, unequalBits_to hc, unequalBits_one, if_pos hne]
    omega
  rw [CountState.note, ← hst₁]
  split
  · exact ⟨h₁.total, h₁.array, h₁.problems, h₁.same, h₁.run, h₁.free, h₁.option⟩
  · split
    · exact ⟨h₁.total, h₁.array, h₁.problems, h₁.same, h₁.run, h₁.free, h₁.option⟩
    · exact ⟨h₁.total, h₁.array, h₁.problems, h₁.same, h₁.run, h₁.free, h₁.option⟩

theorem note_fields (st : CountState) (i : ℕ) (p : BitmapProblem) :
    (st.note g env i p).group = st.group ∧ (st.note g env i p).blocks = st.blocks ∧
      (st.note g env i p).groupFree = st.groupFree := by
  rw [CountState.note]
  split
  · exact ⟨rfl, rfl, rfl⟩
  · split <;> exact ⟨rfl, rfl, rfl⟩

/-- A cluster is compared, and the bitmaps agree on it. -/
theorem Counting.equal (h : Counting g env.found map st₀ c c st) (hc : g.firstCluster ≤ c)
    (heq : env.found c = map c) : Counting g env.found map st₀ (c + 1) c st := by
  refine ⟨h.total, h.array, ?_, fun hd d hd' hlt => ?_, h.run, h.free, h.option⟩
  · rw [h.problems, unequalBits_to hc, unequalBits_one, if_neg (not_not.mpr heq), Nat.add_zero]
  · rcases Nat.lt_succ_iff_lt_or_eq.mp hlt with hlt | rfl
    · exact h.same hd d hd' hlt
    · exact heq

/-- **A cluster is counted.** -/
theorem Counting.count (hg : g.Ok) (h : Counting g env.found map st₀ (c + 1) c st)
    (hc : g.firstCluster ≤ c) (hend : c < g.endCluster) :
    Counting g env.found map st₀ (c + 1) (c + 1)
      (st.count g env changed (c * g.ratio) (map c)) := by
  have hr := g.ratio_pos
  have hi := (lt_endCluster_iff hg).mp hend
  rw [CountState.count]
  cases hb : map c with
  | false =>
    refine ⟨?_, h.array, h.problems, h.same, ?_, h.free, h.option⟩
    · show st.freeBlocks + 1 = _
      rw [h.total, clearBits_to hc, clearBits_one, if_pos hb]
    · show FreeSince g map (c + 1) (if c * g.ratio < st.firstFree then c * g.ratio
        else st.firstFree)
      -- a clear cluster begins a run of free ones or goes on with it
      rcases h.run with hblk | ⟨f, hf, hfc, hlt, hmap⟩
      · rw [hblk, if_pos hi]
        refine Or.inr ⟨c, rfl, hc, by omega, fun d hd hd' => ?_⟩
        rw [show d = c by omega]
        exact hb
      · have hmul : f * g.ratio < c * g.ratio := Nat.mul_lt_mul_of_pos_right hlt hr
        rw [if_neg (by omega)]
        refine Or.inr ⟨f, hf, hfc, by omega, fun d hd hd' => ?_⟩
        rcases Nat.lt_succ_iff_lt_or_eq.mp hd' with hd' | rfl
        · exact hmap d hd hd'
        · exact hb
  | true =>
    have htotal : clearBits map g.firstCluster (c + 1 - g.firstCluster) =
        clearBits map g.firstCluster (c - g.firstCluster) := by
      rw [clearBits_to hc, clearBits_one, if_neg (by simp [hb]), Nat.add_zero]
    simp only [Bool.not_true, Bool.false_eq_true, if_false]
    -- a set cluster ends the run, which is discarded where there is one
    split
    · next hlt =>
      rcases h.run with hblk | ⟨f, hf, hfc, hlt', hmap⟩
      · omega
      · have hfree : st.discard = true →
            FreeRun g env.found map (st.firstFree, c * g.ratio - st.firstFree) := fun hd =>
          freeRun_of_since hf hfc hmap (fun d hd' hdc => h.same hd d hd' (by omega)) (by omega)
        have h' := @Counting.discardBlocks g env map changed c _ _ _ _ _ h hfree
        exact ⟨h'.total.trans htotal.symm, h'.array, h'.problems, h'.same, Or.inl rfl,
          h'.free, h'.option⟩
    · next hge =>
      refine ⟨h.total.trans htotal.symm, h.array, h.problems, h.same, ?_, h.free, h.option⟩
      rcases h.run with hblk | ⟨f, hf, hfc, hlt', hmap⟩
      · exact Or.inl hblk
      · have hmul : f * g.ratio < c * g.ratio := Nat.mul_lt_mul_of_pos_right hlt' hr
        omega

theorem count_fields (st : CountState) (i : ℕ) (b : Bool) :
    (st.count g env changed i b).group = st.group ∧
    (st.count g env changed i b).blocks = st.blocks + 1 ∧
      (st.count g env changed i b).groupFree = st.groupFree + (if b = false then 1 else 0) := by
  have hd := @discardBlocks_fields env changed st st.firstFree (i - st.firstFree)
  rw [CountState.count]
  cases b with
  | false => exact ⟨rfl, rfl, rfl⟩
  | true =>
    simp only [Bool.not_true, Bool.false_eq_true, if_false]
    split
    · exact ⟨hd.1, congrArg (· + 1) hd.2.1, hd.2.2.1⟩
    · exact ⟨rfl, rfl, rfl⟩

/-- **The end of a group.** -/
theorem Counting.nextGroup {e : ℕ} (h : Counting g env.found map st₀ e c st)
    (hfree : st.groupFree = clearBits map (g.groupStart st.group) (g.groupLen st.group)) :
    Counting g env.found map st₀ e c (st.nextGroup g) := by
  refine ⟨h.total, fun gr hgr => ?_, h.problems, h.same, Or.inl rfl, h.free, h.option⟩
  rcases Nat.lt_succ_iff_lt_or_eq.mp hgr with hlt | rfl
  · exact (Function.update_of_ne hlt.ne _ _).trans (h.array gr hlt)
  · exact (Function.update_self _ _ _).trans hfree

theorem groupLen_of_le {gr : ℕ} (h : g.groupStart (gr + 1) ≤ g.endCluster) :
    g.groupLen gr = g.clustersPerGroup := by
  rw [groupStart_succ] at h
  exact Nat.min_eq_left (by omega)

theorem groupLen_of_ge {gr : ℕ} (h : g.endCluster ≤ g.groupStart (gr + 1)) :
    g.groupLen gr = g.endCluster - g.groupStart gr := by
  rw [groupStart_succ] at h
  exact Nat.min_eq_right (by omega)

/-- The group that the loop is in. -/
theorem Counted.group_lt (hg : g.Ok) (h : Counted g env.found map st₀ c st)
    (hend : c < g.endCluster) :
    st.group < g.groupDescCount := by
  obtain ⟨hpos, -, -⟩ := h.here hend
  by_contra hge
  have h1 := (groupStart_last hg).2.2
  have h2 := groupStart_mono (g := g) (not_lt.mp hge)
  omega

/-- **The fast path** leads to the first cluster of the next group. -/
theorem Counted.fast (hg : g.Ok) (h : Counted g env.found map st₀ c st) (hend : c < g.endCluster)
    (hfirst : (c - g.firstCluster) % g.clustersPerGroup = 0)
    (hgroup : st.group ≠ g.groupDescCount - 1)
    (hd : st.discard = false) (heq : bitmapRange g env.found c = bitmapRange g map c) {k : ℕ}
    (hk : k = g.clustersPerGroup - (bitmapRange g env.found c).count true) :
    Counted g env.found map st₀ (c + g.clustersPerGroup)
      (CountState.nextGroup g { st with groupFree := k, freeBlocks := st.freeBlocks + k }) := by
  have hcpg := hg.pos
  have hc := h.inside.1
  obtain ⟨hpos, hlt, -⟩ := h.here hend
  have hb0 : st.blocks = 0 := by
    rw [← hpos, BitmapGeometry.groupStart, Nat.add_assoc, Nat.add_sub_cancel_left, Nat.add_comm,
      Nat.add_mul_mod_self_right, Nat.mod_eq_of_lt hlt] at hfirst
    exact hfirst
  rw [hb0, Nat.add_zero] at hpos
  have hsame := (bitmapRange_eq_iff hg.bytes).mp heq
  have hkc : k = clearBits map c g.clustersPerGroup := by
    rw [hk, heq, count_bitmapRange hg.bytes]
  -- the next group begins on the device
  have hnext : g.groupStart (st.group + 1) < g.endCluster := by
    have h1 := h.group_lt hg hend
    have h2 := (groupStart_last hg).2.1
    have h3 := groupStart_mono (g := g) (show st.group + 1 ≤ g.groupDescCount - 1 by omega)
    omega
  have hstart : g.groupStart (st.group + 1) = c + g.clustersPerGroup := by
    rw [groupStart_succ, hpos]
  have h' : Counting g env.found map st₀ (c + g.clustersPerGroup) (c + g.clustersPerGroup)
      (CountState.nextGroup g { st with groupFree := k, freeBlocks := st.freeBlocks + k }) := by
    refine ⟨?_, fun gr hgr => ?_, ?_, fun hd' => ?_, Or.inl rfl, h.free, h.option⟩
    · show st.freeBlocks + k = _
      rw [clearBits_to hc, h.total, hkc]
    · rcases Nat.lt_succ_iff_lt_or_eq.mp hgr with hlt | rfl
      · exact (Function.update_of_ne hlt.ne _ _).trans (h.array gr hlt)
      · refine (Function.update_self _ _ _).trans ?_
        show k = _
        rw [groupLen_of_le hnext.le, hkc, hpos]
    · show st.hadProblem = _
      rw [unequalBits_to hc, unequalBits_eq_zero.mpr hsame, Nat.add_zero]
      exact h.problems
    · exact absurd (hd.symm.trans hd') Bool.false_ne_true
  exact { h' with
    inside := ⟨by omega, by omega⟩
    here := fun _ => ⟨hstart, hcpg, rfl⟩
    done := fun he => by omega }

/-- **The slow path** leads to the next cluster. -/
theorem Counted.slow (hg : g.Ok) (h : Counted g env.found map st₀ c st) (hend : c < g.endCluster)
    {st₁ : CountState} (h₁ : Counting g env.found map st₀ (c + 1) c st₁)
    (hfields : st₁.group = st.group ∧ st₁.blocks = st.blocks ∧ st₁.groupFree = st.groupFree) {i : ℕ}
    (hi : i = c * g.ratio) {st₂ st₃ : CountState} (hst₂ : st₂ = st₁.count g env changed i (map c))
    (hst₃ : st₃ = if !map c ∧ st₂.firstFree ≤ i then
      st₂.discardBlocks env changed st₂.firstFree (i - st₂.firstFree + 1) else st₂) :
    Counted g env.found map st₀ (c + 1)
      (if st₂.blocks = g.clustersPerGroup ∨ c = (g.blocksCount - 1) / g.ratio then st₃.nextGroup g
        else st₂) := by
  have hr := g.ratio_pos
  have hc := h.inside.1
  have hlast : g.endCluster = (g.blocksCount - 1) / g.ratio + 1 := rfl
  obtain ⟨hpos, hlt, hgf⟩ := h.here hend
  obtain ⟨hg₁, hb₁, hf₁⟩ := hfields
  have h₂ : Counting g env.found map st₀ (c + 1) (c + 1) st₂ := by
    rw [hst₂, hi]
    exact h₁.count hg hc hend
  obtain ⟨hg₂, hb₂, hf₂⟩ := @count_fields g env changed st₁ i (map c)
  rw [← hst₂] at hg₂ hb₂ hf₂
  have hfree : st₂.groupFree = clearBits map (g.groupStart st.group) (st.blocks + 1) := by
    rw [hf₂, hf₁, hgf, clearBits_add, clearBits_one, hpos]
  have hgr := h.group_lt hg hend
  have h₃ : Counting g env.found map st₀ (c + 1) (c + 1) st₃ ∧ st₃.group = st.group ∧
      st₃.groupFree = st₂.groupFree := by
    rw [hst₃]
    split
    · next hle =>
      refine ⟨h₂.discardBlocks fun hd => ?_, ?_, ?_⟩
      · rcases h₂.run with hblk | ⟨f, hf, hfc, hlt', hmap⟩
        · have := (lt_endCluster_iff hg).mp hend
          omega
        · refine freeRun_of_since hf hfc hmap (fun d hd' hdc => h₂.same hd d hd' hdc) ?_
          rw [Nat.add_mul, Nat.one_mul]
          omega
      · exact (discardBlocks_fields _ _ _).1.trans (hg₂.trans hg₁)
      · exact (discardBlocks_fields _ _ _).2.2.1
    · exact ⟨h₂, hg₂.trans hg₁, rfl⟩
  have hnext := groupStart_succ g st.group
  split
  · next hgroupEnd =>
    -- the clusters of the group are counted
    have hlen : g.groupLen st.group = st.blocks + 1 := by
      rcases hgroupEnd with hfull | hdevice
      · rw [groupLen_of_le (by omega)]
        omega
      · rw [groupLen_of_ge (by omega)]
        omega
    have h₄ := h₃.1.nextGroup (by rw [h₃.2.2, h₃.2.1, hlen, hfree])
    refine { h₄ with inside := ⟨by omega, by omega⟩, here := fun hlt' => ?_, done := fun he => ?_ }
    · refine ⟨?_, hg.pos, rfl⟩
      show g.groupStart (st₃.group + 1) + 0 = c + 1
      rw [h₃.2.1]
      omega
    · refine ⟨?_, rfl⟩
      show st₃.group + 1 = _
      rw [h₃.2.1]
      by_contra hne
      have h1 := (groupStart_last hg).2.1
      have h2 := groupStart_mono (g := g) (show st.group + 1 ≤ g.groupDescCount - 1 by omega)
      omega
  · next hinside =>
    rw [not_or] at hinside
    refine { h₂ with
      inside := ⟨by omega, by omega⟩, here := fun hlt' => ?_, done := fun he => by omega }
    rw [hg₂, hg₁]
    refine ⟨by omega, by omega, ?_⟩
    rw [hfree, hb₂, hb₁]

/-- **A round of the loop** leads from a cluster to one behind it. -/
theorem Counted.step (hg : g.Ok) (h : Counted g env.found map st₀ c st) (hend : c < g.endCluster)
    (hredo : redo = true → ∀ d, g.firstCluster ≤ d → d < g.endCluster → map d = env.found d) :
    ∃ c', c < c' ∧ (countStep g env changed redo map (c * g.ratio) st).1 = c' * g.ratio ∧
      Counted g env.found map st₀ c' (countStep g env changed redo map (c * g.ratio) st).2 := by
  have hr := g.ratio_pos
  have hcpg := hg.pos
  have hc := h.inside.1
  have hdiv : c * g.ratio / g.ratio = c := Nat.mul_div_cancel c hr
  rw [countStep, hdiv]
  dsimp only
  split
  · next hfast =>
    obtain ⟨hfirst, hgroup, hd, heq⟩ := hfast
    refine ⟨c + g.clustersPerGroup, by omega, ?_, h.fast hg hend hfirst hgroup hd heq rfl⟩
    rw [Nat.add_assoc, ← Nat.succ_mul, ← Nat.add_mul, Nat.succ_eq_add_one, Nat.sub_add_cancel hcpg]
  · have hbit : (if redo = true then env.found c else map c) = map c := by
      split
      · next hred => exact (hredo hred c hc hend).symm
      · rfl
    rw [hbit]
    obtain ⟨st₁, hst₁⟩ : ∃ st₁, st₁ = if env.found c = map c then st
      else st.note g env (c * g.ratio) (if (!env.found c && map c) = true then .blockUnused
        else .blockUsed) :=
      ⟨_, rfl⟩
    rw [← hst₁]
    have h₁ : Counting g env.found map st₀ (c + 1) c st₁ ∧
        st₁.group = st.group ∧ st₁.blocks = st.blocks ∧ st₁.groupFree = st.groupFree := by
      rw [hst₁]
      split
      · next heq => exact ⟨h.toCounting.equal hc heq, rfl, rfl, rfl⟩
      · next hne => exact ⟨h.toCounting.note hc hne _ _, note_fields _ _ _⟩
    have h₂ := @Counted.slow g env map changed c _ _ hg h hend _ h₁.1 h₁.2 _ rfl _ _ rfl rfl
    refine ⟨c + 1, Nat.lt_succ_self c, ?_, ?_⟩
    · split <;> rw [Nat.add_mul, Nat.one_mul]
    · split
      · next hif => rwa [if_pos hif] at h₂
      · next hif => rwa [if_neg hif] at h₂

/-- **The counting loop** ends, with all clusters counted. -/
theorem countLoop_counted (hg : g.Ok) (h : Counted g env.found map st₀ c st)
    (hredo : redo = true → ∀ d, g.firstCluster ≤ d → d < g.endCluster → map d = env.found d)
    (hn : g.endCluster < c + n) :
    ∃ st', countLoop g env changed redo map n (c * g.ratio) st = some st' ∧
      Counted g env.found map st₀ g.endCluster st' := by
  induction n generalizing c st with
  | zero => exact absurd h.inside.2 (by omega)
  | succ n ih =>
    rw [countLoop]
    split
    · next hlt =>
      obtain ⟨c', hc', hi, h'⟩ :=
        @Counted.step g env map changed redo c _ _ hg h ((lt_endCluster_iff hg).mpr hlt) hredo
      rw [hi]
      exact ih h' (by omega)
    · next hge =>
      rw [← lt_endCluster_iff hg] at hge
      obtain rfl : c = g.endCluster := le_antisymm h.inside.2 (not_lt.mp hge)
      exact ⟨st, rfl, h⟩

end Geometry

/-! ### The pass -/

section Pass

variable {g : BitmapGeometry} {env : BitmapEnv} {fs : BitmapFs} {redo : Bool} {st : CountState}

/-- All the clusters on which two bitmaps differ. -/
def BitmapGeometry.differences (g : BitmapGeometry) (map map' : ℕ → Bool) : ℕ :=
  unequalBits map map' g.firstCluster (g.endCluster - g.firstCluster)

theorem differences_eq_zero (hg : g.Ok) {map map' : ℕ → Bool} :
    g.differences map map' = 0 ↔ ∀ c, g.firstCluster ≤ c → c < g.endCluster → map c = map' c := by
  rw [BitmapGeometry.differences, unequalBits_eq_zero, Nat.add_sub_cancel' (firstCluster_lt hg).le]

/-- The free clusters of all groups. -/
theorem sum_clearBits (hg : g.Ok) (map : ℕ → Bool) :
    ∑ gr ∈ Finset.range g.groupDescCount, clearBits map (g.groupStart gr) (g.groupLen gr) =
      clearBits map g.firstCluster (g.endCluster - g.firstCluster) := by
  obtain ⟨hpos, hlast, hend⟩ := groupStart_last hg
  -- up to the last group, whole groups
  have hsum : ∀ m, m < g.groupDescCount →
      ∑ gr ∈ Finset.range m, clearBits map (g.groupStart gr) (g.groupLen gr) =
        clearBits map g.firstCluster (g.groupStart m - g.firstCluster) := by
    intro m hm
    induction m with
    | zero => simp [BitmapGeometry.groupStart, clearBits]
    | succ m ih =>
      have hle : g.groupStart (m + 1) ≤ g.endCluster :=
        (groupStart_mono (show m + 1 ≤ g.groupDescCount - 1 by omega)).trans hlast.le
      rw [Finset.sum_range_succ, ih (by omega), groupLen_of_le hle, groupStart_succ,
        clearBits_to (firstCluster_le_groupStart g m)]
  obtain ⟨m, hm⟩ : ∃ m, g.groupDescCount = m + 1 := ⟨g.groupDescCount - 1, by omega⟩
  rw [hm] at hlast hend ⊢
  rw [Finset.sum_range_succ, hsum m (by omega), groupLen_of_ge hend]
  rw [Nat.add_sub_cancel] at hlast
  rw [← clearBits_to (firstCluster_le_groupStart g m), Nat.add_sub_cancel' hlast.le]

/-- **A count of all clusters**, in a state in which no free cluster is waiting to be discarded. -/
theorem counted_restart (hg : g.Ok) (hfirst : st.firstFree = g.blocksCount)
    (hredo : redo = true → ∀ d, g.firstCluster ≤ d → d < g.endCluster → fs.map d = env.found d) :
    ∃ st', countLoop g env fs.changed redo fs.map (g.blocksCount + 1)
      (g.firstDataBlock / g.ratio) st.restart =
      some st' ∧ Counted g env.found fs.map st g.endCluster st' := by
  have hstart : g.firstDataBlock / g.ratio = g.firstCluster * g.ratio := by
    rw [BitmapGeometry.firstCluster]
    rcases hg.clusters with h | h
    · rw [h, Nat.mul_one]
    · rw [h, Nat.zero_div, Nat.zero_mul]
  have hn : g.endCluster < g.firstCluster + (g.blocksCount + 1) := by
    have h1 := Nat.div_le_self (g.blocksCount - 1) g.ratio
    have h2 := hg.first
    rw [BitmapGeometry.endCluster]
    omega
  have hlt := firstCluster_lt hg
  rw [hstart]
  refine countLoop_counted hg ?_ hredo hn
  constructor
  · refine ⟨?_, fun gr hgr => absurd hgr (Nat.not_lt_zero gr), ?_, fun _ d hd hd' => ?_,
      Or.inl hfirst, fun r hr => Or.inl hr, id⟩
    · rw [Nat.sub_self]
      rfl
    · rw [Nat.sub_self]
      rfl
    · omega
  · exact ⟨le_refl _, hlt.le⟩
  · refine fun _ => ⟨?_, hg.pos, rfl⟩
    show g.groupStart 0 + 0 = _
    rw [BitmapGeometry.groupStart, Nat.zero_mul, Nat.add_zero]
  · exact fun he => absurd he hlt.ne

theorem printRun_fields (st : CountState) : st.printRun.hadProblem = st.hadProblem ∧
    st.printRun.discarded = st.discarded ∧ st.printRun.freeArray = st.freeArray ∧
    st.printRun.freeBlocks = st.freeBlocks ∧ st.printRun.firstFree = st.firstFree ∧
    st.printRun.discard = st.discard := by
  rw [CountState.printRun]
  split <;> exact ⟨rfl, rfl, rfl, rfl, rfl, rfl⟩

/-- The counts that a pass ends with. -/
structure Final (g : BitmapGeometry) (map : ℕ → Bool) (st : CountState) : Prop where
  total : st.freeBlocks = clearBits map g.firstCluster (g.endCluster - g.firstCluster)
  array : ∀ gr < g.groupDescCount, st.freeArray gr = clearBits map (g.groupStart gr) (g.groupLen gr)

/-- **One count.** When the bitmaps differ on a number of clusters that the counter cannot hold, or
on none, it is the last; else the found blocks become the bitmap. -/
theorem redoCounts_succ (hg : g.Ok) (hans : env.answer .latchBbitmap = true)
    (hfirst : st.firstFree = g.blocksCount)
    (hredo : redo = true → ∀ d, g.firstCluster ≤ d → d < g.endCluster → fs.map d = env.found d)
    (n : ℕ) :
    ∃ st', Final g fs.map st' ∧ st'.firstFree = g.blocksCount ∧
      (st'.discard = true → st.discard = true ∧ g.differences env.found fs.map = 0) ∧
      (∀ r ∈ st'.discarded, r ∈ st.discarded ∨ (st.discard = true ∧ FreeRun g env.found fs.map r)) ∧
      redoCounts g env (n + 1) redo fs st =
        if g.differences env.found fs.map % 2 ^ 32 = 0 then some (fs, false, st')
        else (redoCounts g env n true { fs with map := copyFound g env, changed := true } st').map
          fun r => (r.1, true, r.2.2) := by
  obtain ⟨st', hloop, h⟩ := @counted_restart g env fs redo _ hg hfirst hredo
  obtain ⟨hp, hdis, harr, htot, hff, hopt⟩ := printRun_fields st'
  obtain ⟨hgroup, hfree⟩ := h.done rfl
  refine ⟨st'.printRun, ⟨htot.trans h.total, fun gr hgr => ?_⟩, hff.trans hfree,
    fun hd => ?_, ?_, ?_⟩
  · rw [harr]
    exact h.array gr (hgroup ▸ hgr)
  · rw [hopt] at hd
    exact ⟨h.option hd, (differences_eq_zero hg).mpr (h.same hd)⟩
  · rw [hdis]
    exact h.free
  · rw [redoCounts, hloop, Option.bind_some]
    dsimp only
    rw [hp, h.problems, if_pos hans]
    rfl

/-- The counts that are stored. -/
theorem setCounts_eq (hg : g.Ok) (hans : ∀ q, env.answer q = true) {map : ℕ → Bool}
    (h : Final g map st) :
    (setCounts g env fs st).map = fs.map ∧
      (∀ gr < g.groupDescCount, (setCounts g env fs st).bgFreeBlocksCount gr =
        clearBits map (g.groupStart gr) (g.groupLen gr)) ∧
      (setCounts g env fs st).freeBlocksCount =
        clearBits map g.firstCluster (g.endCluster - g.firstCluster) * g.ratio := by
  have hgroup : ∀ gr < g.groupDescCount,
    (if gr < g.groupDescCount ∧ st.freeArray gr ≠ fs.bgFreeBlocksCount gr ∧
      env.answer .freeBlockCountGroup = true then g.truncate 16 (st.freeArray gr)
        else fs.bgFreeBlocksCount gr) =
        clearBits map (g.groupStart gr) (g.groupLen gr) := by
    intro gr hgr
    -- a group has at most 2^16 clusters, so the 16-bit field holds its count
    have hle : st.freeArray gr < 2 ^ 16 := by
      have h1 := clearBits_le map (g.groupStart gr) (g.groupLen gr)
      have h2 : g.groupLen gr ≤ g.clustersPerGroup := Nat.min_le_left _ _
      have h3 := hg.max
      rw [h.array gr hgr]
      omega
    rw [← h.array gr hgr]
    split
    · rw [BitmapGeometry.truncate]
      split
      · exact Nat.mod_eq_of_lt (hle.trans (by decide))
      · exact Nat.mod_eq_of_lt hle
    · next hif =>
      simp only [hgr, hans, true_and, and_true, not_not] at hif
      exact hif.symm
  have htotal : st.freeBlocks * g.ratio < 2 ^ (if g.has64bit then 64 else 32) := by
    refine lt_of_le_of_lt (Nat.mul_le_mul_right _ ?_) hg.size
    rw [h.total]
    exact (clearBits_le _ _ _).trans (Nat.sub_le _ _)
  have hlt : g.truncate 32 (st.freeBlocks * g.ratio) = st.freeBlocks * g.ratio := by
    rw [BitmapGeometry.truncate]
    split at htotal
    · next h64 => rwa [if_pos h64, Nat.mod_eq_of_lt]
    · next h64 => rwa [if_neg h64, Nat.mod_eq_of_lt]
  rw [setCounts]
  dsimp only
  split
  · refine ⟨rfl, hgroup, ?_⟩
    rw [← h.total]
    exact hlt
  · next hif =>
    refine ⟨rfl, hgroup, ?_⟩
    simp only [hans, and_true, not_not] at hif
    rw [← h.total]
    exact hif.symm

/-- **The pass has made the bitmap and the counts exact**, has told of a problem just when there was
one, and has discarded nothing that is in use in either bitmap. -/
def Exact (g : BitmapGeometry) (env : BitmapEnv) (fs : BitmapFs)
    (r : BitmapFs × Bool × List (ℕ × ℕ)) : Prop :=
  (∀ c, g.firstCluster ≤ c → c < g.endCluster → r.1.map c = env.found c) ∧
  (∀ gr < g.groupDescCount,
    r.1.bgFreeBlocksCount gr = clearBits env.found (g.groupStart gr) (g.groupLen gr)) ∧
  r.1.freeBlocksCount =
    g.ratio * ∑ gr ∈ Finset.range g.groupDescCount,
    clearBits env.found (g.groupStart gr) (g.groupLen gr) ∧
  (r.2.1 = true ↔ ∃ c, g.firstCluster ≤ c ∧ c < g.endCluster ∧ fs.map c ≠ env.found c) ∧
  ∀ d ∈ r.2.2, FreeRun g env.found fs.map d

theorem copyFound_eq {c : ℕ} (hc : c < g.endCluster) : copyFound g env c = env.found c := by
  have hlast : ¬(g.blocksCount - 1) / g.ratio < c := not_lt.mpr (Nat.lt_succ_iff.mp hc)
  simp [copyFound, hlast]

/-- Counts of equal bitmaps are equal. -/
theorem Final.congr {map map' : ℕ → Bool} (h : Final g map st)
    (heq : ∀ c, g.firstCluster ≤ c → c < g.endCluster → map c = map' c) (hg : g.Ok) :
    Final g map' st := by
  have hlt := firstCluster_lt hg
  refine ⟨h.total.trans (clearBits_congr fun d hd hd' => heq d hd (by omega)), fun gr hgr => ?_⟩
  refine (h.array gr hgr).trans (clearBits_congr fun d hd hd' => heq d ?_ ?_)
  · exact (firstCluster_le_groupStart g gr).trans hd
  · have hle : g.groupLen gr ≤ g.endCluster - g.groupStart gr := Nat.min_le_right _ _
    have hstart := groupStart_mono (g := g) (show gr ≤ g.groupDescCount - 1 by omega)
    have hlast := (groupStart_last hg).2.1
    omega

/-- The first count of the pass. -/
theorem checkBlockBitmaps_eq (hg : g.Ok) (hans : ∀ q, env.answer q = true) (fs : BitmapFs)
    (blockUninit : ℕ → Bool) (discard : Bool) :
    ∃ st', Final g fs.map st' ∧ st'.firstFree = g.blocksCount ∧
      (st'.discard = true → g.differences env.found fs.map = 0) ∧
      (∀ r ∈ st'.discarded, FreeRun g env.found fs.map r) ∧
      checkBlockBitmaps g env fs blockUninit discard =
        if g.differences env.found fs.map % 2 ^ 32 = 0 then
          some (setCounts g env fs st', false, st'.discarded)
        else (redoCounts g env 1 true { fs with map := copyFound g env, changed := true } st').map
          fun r => (setCounts g env r.1 r.2.2, true, r.2.2.discarded) := by
  obtain ⟨st, hst⟩ : ∃ st : CountState, st =
    { group := 0, blocks := 0, freeBlocks := 0, firstFree := g.blocksCount, groupFree := 0,
      freeArray := fun _ => 0, hadProblem := 0, run := none, printed := [],
      blockUninit := blockUninit,
      discard := discard, discarded := [] } := ⟨_, rfl⟩
  obtain ⟨st', hfinal, hfree, hopt, hdis, hredo⟩ :=
    @redoCounts_succ g env fs false st hg (hans _) (by rw [hst]) nofun 1
  refine ⟨st', hfinal, hfree, fun hd => (hopt hd).2, fun r hr => ?_, ?_⟩
  · rcases hdis r hr with hold | hnew
    · rw [hst] at hold
      cases hold
    · exact hnew.2
  · rw [checkBlockBitmaps, ← hst, hredo]
    split
    · rfl
    · rw [Option.map_map]
      rfl

/-- When the counter of problems is zero, the bitmap stays as it was. -/
theorem checkBlockBitmaps_unchanged (hg : g.Ok) (hans : ∀ q, env.answer q = true)
    {blockUninit : ℕ → Bool} {discard : Bool} (hzero : g.differences env.found fs.map % 2 ^ 32 = 0)
    {r : BitmapFs × Bool × List (ℕ × ℕ)}
    (h : checkBlockBitmaps g env fs blockUninit discard = some r) :
    r.1.map = fs.map := by
  obtain ⟨st', hfinal, -, -, -, heq⟩ := checkBlockBitmaps_eq hg hans fs blockUninit discard
  rw [heq, if_pos hzero] at h
  obtain rfl := Option.some.inj h
  exact (setCounts_eq hg hans hfinal).1

/-- When the bitmaps are equal, the pass is exact. -/
theorem checkBlockBitmaps_exact_of_eq (hg : g.Ok) (hans : ∀ q, env.answer q = true) (fs : BitmapFs)
    (blockUninit : ℕ → Bool) (discard : Bool) (heq : g.differences env.found fs.map = 0) :
    ∃ r, checkBlockBitmaps g env fs blockUninit discard = some r ∧ Exact g env fs r := by
  obtain ⟨st', hfinal, -, -, hdis, hcheck⟩ := checkBlockBitmaps_eq hg hans fs blockUninit discard
  rw [heq, Nat.zero_mod, if_pos rfl] at hcheck
  have hsame := (differences_eq_zero hg).mp heq
  have hset :=
    @setCounts_eq g env fs _ hg hans _ (hfinal.congr (fun c hc hc' => (hsame c hc hc').symm) hg)
  refine ⟨_, hcheck, fun c hc hc' => ?_, hset.2.1, ?_, ?_, hdis⟩
  · rw [hsame c hc hc', hset.1]
  · rw [hset.2.2, sum_clearBits hg, Nat.mul_comm]
  · refine ⟨nofun, ?_⟩
    rintro ⟨c, hc, hc', hne⟩
    exact absurd (hsame c hc hc').symm hne

/-- When the counter of problems is not zero, the second count is of equal bitmaps. -/
theorem checkBlockBitmaps_exact_of_ne (hg : g.Ok) (hans : ∀ q, env.answer q = true) (fs : BitmapFs)
    (blockUninit : ℕ → Bool) (discard : Bool) (hne : g.differences env.found fs.map % 2 ^ 32 ≠ 0) :
    ∃ r, checkBlockBitmaps g env fs blockUninit discard = some r ∧ Exact g env fs r := by
  obtain ⟨st', hfinal, hfree, hopt, hdis, hcheck⟩ :=
    checkBlockBitmaps_eq hg hans fs blockUninit discard
  have hsame : ∀ d, g.firstCluster ≤ d → d < g.endCluster → copyFound g env d = env.found d :=
    fun d _ hd' => copyFound_eq hd'
  obtain ⟨st₂, hfinal₂, -, -, hdis₂, hredo₂⟩ := @redoCounts_succ g env
    { fs with map := copyFound g env, changed := true } true _ hg (hans _) hfree (fun _ => hsame) 0
  have hdiff₂ : g.differences env.found (copyFound g env) = 0 :=
    (differences_eq_zero hg).mpr fun c hc hc' => (hsame c hc hc').symm
  have hne' : g.differences env.found fs.map ≠ 0 := fun h0 => hne (by rw [h0, Nat.zero_mod])
  -- the option is cleared at the first cluster on which the bitmaps differ
  have hoff : st'.discard = false := by
    rw [← Bool.not_eq_true]
    exact fun hd => hne' (hopt hd)
  rw [if_neg hne, hredo₂, hdiff₂, Nat.zero_mod, if_pos rfl, Option.map_some] at hcheck
  have hset := @setCounts_eq g env { fs with map := copyFound g env, changed := true } _ hg hans _
    (hfinal₂.congr hsame hg)
  refine ⟨_, hcheck, fun c hc hc' => ?_, hset.2.1, ?_, ?_, fun r hr => ?_⟩
  · rw [hset.1]
    exact hsame c hc hc'
  · rw [hset.2.2, sum_clearBits hg, Nat.mul_comm]
  · refine iff_of_true rfl ?_
    by_contra hall
    push Not at hall
    exact hne' ((differences_eq_zero hg).mpr fun c hc hc' => (hall c hc hc').symm)
  · rcases hdis₂ r hr with hold | hnew
    · exact hdis r hold
    · exact absurd (hoff.symm.trans hnew.1) Bool.false_ne_true

/-- **Pass 5 is exact just when its counter of problems does not come back to zero**: the bitmaps
are equal, or the number of clusters on which they differ is no multiple of `2 ^ 32`. -/
theorem checkBlockBitmaps_exact_iff (hg : g.Ok) (hans : ∀ q, env.answer q = true) (fs : BitmapFs)
    (blockUninit : ℕ → Bool) (discard : Bool) :
    (∃ r, checkBlockBitmaps g env fs blockUninit discard = some r ∧ Exact g env fs r) ↔
      (g.differences env.found fs.map = 0 ∨ g.differences env.found fs.map % 2 ^ 32 ≠ 0) := by
  constructor
  · rintro ⟨r, hr, hexact⟩
    by_cases hzero : g.differences env.found fs.map % 2 ^ 32 = 0
    · refine Or.inl ((differences_eq_zero hg).mpr fun c hc hc' => ?_)
      rw [← hexact.1 c hc hc', checkBlockBitmaps_unchanged hg hans hzero hr]
    · exact Or.inr hzero
  · rintro (heq | hne)
    · exact checkBlockBitmaps_exact_of_eq hg hans fs blockUninit discard heq
    · exact checkBlockBitmaps_exact_of_ne hg hans fs blockUninit discard hne

end Pass

/-! ### Two file systems -/

/-- 16 clusters of four blocks, in two groups. -/
def sixteenClusters : BitmapGeometry where
  firstDataBlock := 0
  blocksCount := 62
  clustersPerGroup := 8
  groupDescCount := 2
  clusterBits := 2
  has64bit := false

/-- A run in which everything is answered with yes and no discard fails. -/
def saidYes (found : ℕ → Bool) : BitmapEnv where
  found := found
  answer := fun _ => true
  discardFails := fun _ _ => false

/-- A file system with a bitmap and no counts. -/
def uncounted (map : ℕ → Bool) : BitmapFs where
  map := map
  bgFreeBlocksCount := fun _ => 0
  freeBlocksCount := 0
  valid := true
  changed := false

theorem checkBlockBitmaps_exact_iff_sixteen :
    sixteenClusters.differences (fun c => decide (c < 3)) (fun c => decide (c < 5)) = 2 ∧
      ∃ r, checkBlockBitmaps sixteenClusters (saidYes fun c => decide (c < 3))
        (uncounted fun c => decide (c < 5))
        (fun _ => false) true = some r ∧
        Exact sixteenClusters (saidYes fun c => decide (c < 3))
          (uncounted fun c => decide (c < 5)) r := by
  have hd : sixteenClusters.differences (fun c => decide (c < 3)) (fun c => decide (c < 5)) =
    2 := by decide
  refine ⟨hd, (checkBlockBitmaps_exact_iff ?_ (fun _ => rfl) _ _ _).mpr (Or.inr ?_)⟩
  · exact ⟨by decide, by decide, by decide, by decide, by decide, by decide, by decide⟩
  · show sixteenClusters.differences (fun c => decide (c < 3)) (fun c => decide (c < 5)) % 2 ^ 32 ≠
      0
    rw [hd]
    decide

/-- A device of 32 TiB in blocks of 4 KiB. -/
def manyBlocks : BitmapGeometry where
  firstDataBlock := 0
  blocksCount := 2 ^ 33
  clustersPerGroup := 32768
  groupDescCount := 2 ^ 18
  clusterBits := 0
  has64bit := true

/-- Blocks in use, and `2 ^ 32` more that are only marked so. -/
def strayFound : ℕ → Bool := fun c => decide (c < 2 ^ 20)

/-- See `E2fsprogs.strayFound`. -/
def strayMap : ℕ → Bool := fun c => decide (c < 2 ^ 20 + 2 ^ 32)

theorem manyBlocks_ok : manyBlocks.Ok where
  first := by decide
  clusters := Or.inl rfl
  bytes := by decide
  pos := by decide
  max := by decide
  groups := by decide
  size := by decide

theorem differences_stray : manyBlocks.differences strayFound strayMap = 2 ^ 32 := by
  have hlen : manyBlocks.endCluster - manyBlocks.firstCluster =
      2 ^ 20 + 2 ^ 32 + (2 ^ 33 - 2 ^ 32 - 2 ^ 20) := by
    decide
  have hstart : manyBlocks.firstCluster = 0 := by decide
  have hall : unequalBits strayFound strayMap (2 ^ 20) (2 ^ 32) = 2 ^ 32 := by
    rw [unequalBits, Nat.count_iff_forall]
    intro k hk
    have h1 : strayFound (2 ^ 20 + k) = false := decide_eq_false (by omega)
    have h2 : strayMap (2 ^ 20 + k) = true := decide_eq_true (by omega)
    rw [h1, h2]
    exact Bool.false_ne_true
  have hlow : unequalBits strayFound strayMap 0 (2 ^ 20) = 0 := by
    rw [unequalBits_eq_zero]
    intro d _ hd
    rw [strayFound, strayMap, decide_eq_true (by omega), decide_eq_true (by omega)]
  have hhigh : unequalBits strayFound strayMap (2 ^ 20 + 2 ^ 32)
      (2 ^ 33 - 2 ^ 32 - 2 ^ 20) = 0 := by
    rw [unequalBits_eq_zero]
    intro d hd _
    rw [strayFound, strayMap, decide_eq_false (by omega), decide_eq_false (by omega)]
  rw [BitmapGeometry.differences, hlen, hstart, unequalBits_add, unequalBits_add,
    Nat.zero_add, Nat.zero_add, hlow, hall, hhigh, Nat.zero_add, Nat.add_zero]

theorem stray_not_exact :
    ¬∃ r, checkBlockBitmaps manyBlocks (saidYes strayFound) (uncounted strayMap)
    (fun _ => false) false = some r ∧
    Exact manyBlocks (saidYes strayFound) (uncounted strayMap) r := by
  rintro ⟨r, hr, hexact⟩
  have hdiff : manyBlocks.differences (saidYes strayFound).found
      (uncounted strayMap).map = 2 ^ 32 :=
    differences_stray
  have hzero : manyBlocks.differences (saidYes strayFound).found (uncounted strayMap).map % 2 ^ 32 =
      0 := by
    rw [hdiff, Nat.mod_self]
  have hmap := checkBlockBitmaps_unchanged manyBlocks_ok (fun _ => rfl) hzero hr
  have hbit := hexact.1 (2 ^ 20) (by decide) (by decide)
  rw [hmap] at hbit
  exact absurd hbit (by decide)

end E2fsprogs
