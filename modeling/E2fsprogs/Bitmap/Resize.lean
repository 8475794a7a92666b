import E2fsprogs.Bitmap.Agree

/-!
# Resizing a bitmap

Both back ends are driven by one sequence of operations, among them `ext2fs_resize_generic_bmap`.
The abstract bitmap is a set of bits that loses, at a resize, the bits behind the new end.

The tree of extents always holds that set, with a run of padding behind the end. The array of bits
clears what lies between the old end and the old real end, and the bytes it gains, but not the rest
of its last byte behind the old real end: a bit that was set there, before the bitmap was cut off,
comes back (`E2fsprogs.ResizeOp.NoStale`).
-/

namespace E2fsprogs

/-! ### The tree of extents -/

section Tree

variable {bal : SearchTree RbExtent → List RbExtent → SearchTree RbExtent} {bp : RbPrivate}
  {a b : List RbExtent} {x : RbExtent} {newMax start oldEnd newEnd newRealEnd : ℕ}

theorem nodes_unlink (hbal : ∀ t l, (bal t l).inorder = l) (h : Addresses bp)
    (hnodes : bp.nodes = a ++ x :: b) :
    (bp.unlink bal x.id).nodes = a ++ b := by
  obtain ⟨ha, hb⟩ := h.ne hnodes
  show (bal _ _).inorder = _
  rw [hbal, hnodes, List.filter_append, List.filter_cons_of_neg (by simp),
    List.filter_eq_self.mpr (fun y hy => by simpa using ha y hy),
    List.filter_eq_self.mpr (fun y hy => by simpa using hb y hy)]

/-- Without the cursors, a part of the nodes has sound addresses. -/
theorem Addresses.of_sublist {bp' : RbPrivate} (h : Addresses bp)
    (hsub : bp'.nodes.Sublist bp.nodes)
    (hw : bp'.wcursor = none) (hr : bp'.rcursor = none) (hf : bp'.fresh = bp.fresh) :
    Addresses bp' where
  nodup := h.nodup.sublist (hsub.map _)
  fresh x hx := hf ▸ h.fresh x (hsub.subset hx)
  cursors := by
    rw [hw, hr]
    exact ⟨nofun, nofun, nofun⟩

/-- What cutting off leaves: the bits up to the new end, and no cursors. -/
structure Truncated (newMax : ℕ) (bp r : RbPrivate) : Prop where
  ok : r.Ok
  marked : ∀ bit, Marked r.nodes bit ↔ Marked bp.nodes bit ∧ bit ≤ newMax

/-- **The loop of `rb_truncate`**, by induction on the nodes it has not seen, which it takes from
behind. -/
theorem rbTruncateNodes_spec (hbal : ∀ t l, (bal t l).inorder = l) (h : bp.Ok)
    (hw : bp.wcursor = none) (hr : bp.rcursor = none) (hnodes : bp.nodes = a.reverse) :
    Truncated newMax bp (rbTruncateNodes bal newMax a bp) := by
  induction a generalizing bp with
  | nil => exact ⟨h, fun bit => by rw [rbTruncateNodes, hnodes]; simp⟩
  | cons ext a ih =>
    rw [List.reverse_cons] at hnodes
    have hapart := h.apart
    rw [hnodes] at hapart
    obtain ⟨ha, -, hpos, hax, -⟩ := Apart.middle_iff.mp hapart
    have hext := RbExtent.start_lt_stop hpos
    have hmarked : ∀ bit, Marked bp.nodes bit ↔ Marked a.reverse bit ∨
        (ext.start ≤ bit ∧ bit < ext.stop) := by
      intro bit
      rw [hnodes, marked_append, marked_cons, or_iff_left marked_nil]
    have hbefore : ∀ bit, Marked a.reverse bit → bit < ext.start := by
      rintro bit ⟨y, hy, hbit⟩
      have := hax y hy
      omega
    rw [rbTruncateNodes]
    split_ifs with hin hout
    · -- the last run ends in time
      refine ⟨h, fun bit => (and_iff_left_of_imp fun hbit => ?_).symm⟩
      rcases (hmarked bit).mp hbit with hbit | hbit
      · have := hbefore bit hbit
        omega
      · omega
    · -- the last run goes, and the loop turns to the one before
      have hun := nodes_unlink hbal h.addresses hnodes
      rw [List.append_nil] at hun
      have hsub : (bp.unlink bal ext.id).nodes.Sublist bp.nodes := by
        rw [hun, hnodes]
        exact List.sublist_append_left _ _
      have haddr := h.addresses.of_sublist hsub hw hr rfl
      have hih := @ih (bp.unlink bal ext.id) ⟨hun ▸ ha, haddr⟩ hw hr hun
      refine ⟨hih.ok, fun bit => ?_⟩
      rw [hih.marked, hun, hmarked]
      refine and_congr_left fun hbit => (or_iff_left fun hin => ?_).symm
      omega
    · -- the last run is shortened
      have hset := nodes_setExtent h.addresses hnodes ext.start (newMax - ext.start + 1)
      refine ⟨⟨?_, h.addresses.setExtent hnodes _ _⟩, fun bit => ?_⟩
      · rw [hset]
        exact Apart.middle_iff.mpr ⟨ha, apart_nil, Nat.succ_pos _, hax, nofun, fun _ _ => nofun⟩
      · rw [hset, hmarked, marked_append, marked_cons, or_iff_left marked_nil, or_and_right]
        have hstop : (⟨ext.id, ext.start, newMax - ext.start + 1⟩ : RbExtent).stop =
            newMax + 1 := by
          rw [RbExtent.stop]
          dsimp only
          omega
        rw [hstop]
        show _ ∨ (ext.start ≤ bit ∧ bit < newMax + 1) ↔ _
        refine or_congr (and_iff_left_of_imp fun hbit => ?_).symm ?_
        · have := hbefore bit hbit
          omega
        · omega

/-- **`rb_resize_bmap`** keeps the bits up to both ends, and sets the padding. -/
theorem rbResize_spec (hbal : ∀ t l, (bal t l).inorder = l) (h : bp.Ok) (hstart : start ≤ oldEnd)
    (hnew : start ≤ newEnd) :
    (rbResize bal start oldEnd newEnd newRealEnd bp).Ok ∧
      ∀ bit, Marked (rbResize bal start oldEnd newEnd newRealEnd bp).nodes bit ↔
        (Marked bp.nodes bit ∧ start + bit ≤ oldEnd ∧ start + bit ≤ newEnd) ∨
          (newEnd < start + bit ∧ start + bit ≤ newRealEnd) := by
  obtain ⟨bp₁, hbp₁⟩ : ∃ bp₁ : RbPrivate, bp₁ = { bp with rcursor := none, wcursor := none } :=
    ⟨_, rfl⟩
  have hnodes₁ : bp₁.nodes = bp.nodes := by rw [hbp₁]; rfl
  have hw₁ : bp₁.wcursor = none := by rw [hbp₁]
  have hr₁ : bp₁.rcursor = none := by rw [hbp₁]
  have h₁ : bp₁.Ok := ⟨hnodes₁ ▸ h.apart,
    h.addresses.of_sublist (hnodes₁ ▸ List.Sublist.refl _) hw₁ hr₁ (by rw [hbp₁])⟩
  obtain ⟨newMax, hmax⟩ : ∃ n, n = (if newEnd < oldEnd then newEnd else oldEnd) - start := ⟨_, rfl⟩
  have hle : ∀ bit, bit ≤ newMax ↔ start + bit ≤ oldEnd ∧ start + bit ≤ newEnd := by
    intro bit
    rw [hmax]
    split_ifs <;> omega
  have htrunc : Truncated newMax bp₁ (rbTruncate bal newMax bp₁) :=
    rbTruncateNodes_spec hbal h₁ hw₁ hr₁ (List.reverse_reverse _).symm
  rw [rbResize, ← hbp₁, ← hmax]
  split_ifs with hpad
  · -- the padding is set
    have hm := @rbInsertExtent_spec bal (rbTruncate bal newMax bp₁) (newEnd + 1 - start)
      (newRealEnd - newEnd)
      hbal htrunc.ok
    refine ⟨hm.ok, fun bit => ?_⟩
    rw [hm.marked, htrunc.marked, hnodes₁, hle]
    refine or_congr_right ?_
    omega
  · refine ⟨htrunc.ok, fun bit => ?_⟩
    rw [htrunc.marked, hnodes₁, hle]
    refine (or_iff_left fun hbit => ?_).symm
    omega

end Tree

/-! ### The array of bits -/

section Array

variable {b mem : Block} {start oldEnd oldRealEnd newEnd newRealEnd bitno m : ℕ}

theorem bitAt_baClearDown (h : start ≤ oldEnd) : bitAt (baClearDown start oldEnd bitno b) m = true ↔
    bitAt b m = true ∧ ¬(oldEnd < start + m ∧ start + m ≤ bitno) := by
  induction bitno generalizing b with
  | zero =>
    rw [baClearDown]
    exact (and_iff_left (by omega)).symm
  | succ bitno ih =>
    rw [baClearDown]
    split_ifs with hlt
    · rw [ih, bitAt_clearBitAt, Bool.and_eq_true, Bool.not_eq_true',
        decide_eq_false_iff_not, and_assoc]
      refine and_congr_right fun _ => ?_
      omega
    · refine (and_iff_left ?_).symm
      omega

/-- **`ba_resize_bmap`** keeps the bits up to both ends. Behind the old end it exposes the bits that
lie behind the old real end in the last byte. -/
theorem bitAt_baResize (hstart : start ≤ oldEnd) (hreal : oldEnd ≤ oldRealEnd)
    (hnew : newEnd ≤ newRealEnd) (hm : start + m ≤ newEnd) :
    bitAt (baResize start oldEnd oldRealEnd newEnd newRealEnd mem b) m = true ↔
      bitAt b m = true ∧ (start + m ≤ oldEnd ∨
        (oldRealEnd < start + m ∧ m / 8 < baSize start oldRealEnd)) := by
  obtain ⟨b₁, hb₁⟩ : ∃ b₁, b₁ = if oldEnd < newEnd then
      baClearDown start oldEnd (if newEnd < oldRealEnd then newEnd else oldRealEnd) b else b :=
        ⟨_, rfl⟩
  have hbit₁ : bitAt b₁ m = true ↔ bitAt b m = true ∧
      (start + m ≤ oldEnd ∨ oldRealEnd < start + m) := by
    rw [hb₁]
    split_ifs with hgrow hin
    · rw [bitAt_baClearDown hstart]
      refine and_congr_right fun _ => ?_
      omega
    · rw [bitAt_baClearDown hstart]
      refine and_congr_right fun _ => ?_
      omega
    · exact (and_iff_left (by omega)).symm
  rw [baResize, ← hb₁]
  dsimp only
  by_cases hsame : newRealEnd = oldRealEnd
  · rw [if_pos hsame, hbit₁]
    refine and_congr_right fun _ => ?_
    omega
  rw [if_neg hsame]
  have hnewByte : m / 8 < baSize start newRealEnd := div_lt_baSize (by omega)
  by_cases hbyte : m / 8 < baSize start oldRealEnd
  · -- the byte of the bit is kept
    have hkept : ∀ b₂ : Block, b₂ (m / 8) = b₁ (m / 8) →
        (bitAt b₂ m = true ↔ bitAt b m = true ∧ (start + m ≤ oldEnd ∨
          (oldRealEnd < start + m ∧ m / 8 < baSize start oldRealEnd))) := by
      intro b₂ hb₂
      rw [bitAt_congr hb₂, hbit₁, and_iff_left hbyte]
    refine hkept _ ?_
    obtain ⟨b₂, hb₂⟩ : ∃ b₂, b₂ = if baSize start oldRealEnd ≠ baSize start newRealEnd then
        resizeMem b₁ (baSize start oldRealEnd) (baSize start newRealEnd) mem else b₁ := ⟨_, rfl⟩
    have hmem : b₂ (m / 8) = b₁ (m / 8) := by
      rw [hb₂]
      split_ifs with hsize
      · exact if_pos ⟨hbyte, hnewByte⟩
      · rfl
    rw [← hb₂]
    split_ifs with hlt
    · rw [memcpy_of_outside (Or.inl hbyte), hmem]
    · exact hmem
  · -- the byte of the bit is new
    have hlt : baSize start oldRealEnd < baSize start newRealEnd := by omega
    have hfar : oldRealEnd < start + m := by
      by_contra hnot
      exact hbyte (div_lt_baSize (by omega))
    rw [if_pos hlt]
    have hzero : ∀ b₂ : Block, bitAt (memcpy b₂ (baSize start oldRealEnd) (fun _ => 0)
        (baSize start newRealEnd - baSize start oldRealEnd)) m = false := by
      intro b₂
      rw [bitAt, memcpy_of_inside (by omega) (by omega)]
      exact Nat.zero_testBit _
    rw [hzero]
    refine ⟨Bool.noConfusion, fun h => ?_⟩
    rcases h.2 with hle | hstale
    · omega
    · exact absurd hstale.2 hbyte

end Array

/-! ### Runs -/

/-- A bitmap in both back ends. -/
structure BmapPair where
  bmapEnd : ℕ
  realEnd : ℕ
  rb : RbPrivate
  ba : Block

/-- The operations, and resizing. The memory is what `ext2fs_resize_mem` finds behind the old
size. -/
inductive ResizeOp
  | op (o : BmapOp)
  | resize (newEnd newRealEnd : ℕ) (mem : Block)

namespace ResizeOp

/-- The arguments are inside the bitmap, and the new ends are behind its start. -/
def Inside (start : ℕ) (st : BmapPair) : ResizeOp → Prop
  | op o => o.Inside start st.bmapEnd
  | resize newEnd newRealEnd _ => start ≤ newEnd ∧ newEnd ≤ newRealEnd

/-- What an operation does to both back ends. -/
def run (bal : SearchTree RbExtent → List RbExtent → SearchTree RbExtent) (start : ℕ)
    (st : BmapPair) :
    ResizeOp → BmapPair
  | op o => { st with rb := (o.runRb bal start st.rb).2, ba := (o.runBa start st.realEnd st.ba).2 }
  | resize newEnd newRealEnd mem =>
    { bmapEnd := newEnd
      realEnd := newRealEnd
      rb := rbResize bal start st.bmapEnd newEnd newRealEnd st.rb
      ba := baResize start st.bmapEnd st.realEnd newEnd newRealEnd mem st.ba }

/-- The operation sets a bit. -/
def Sets (bit : ℕ) : ResizeOp → Prop
  | op (.mark arg) => bit = arg
  | op (.markExtent arg num) => bit ∈ Set.Ico arg (arg + num)
  | _ => False

/-- The operation clears a bit, or cuts it off. -/
def Clears (bit : ℕ) : ResizeOp → Prop
  | op (.unmark arg) => bit = arg
  | op (.unmarkExtent arg num) => bit ∈ Set.Ico arg (arg + num)
  | op .clear => True
  | resize newEnd _ _ => newEnd < bit
  | _ => False

/-- No bit that a resize exposes is set behind the real end, in the last byte of the array. -/
def NoStale (start : ℕ) (st : BmapPair) : ResizeOp → Prop
  | op _ => True
  | resize newEnd _ _ => ∀ m, st.realEnd < start + m → start + m ≤ newEnd →
    m / 8 < baSize start st.realEnd →
      bitAt st.ba m = false

end ResizeOp

/-- A bit has been set, and since then no operation has cleared it and no end was before it. -/
def SetSince (ops : List ResizeOp) (bit : ℕ) : Prop :=
  ∃ pre op post, ops = pre ++ op :: post ∧ op.Sets bit ∧ ∀ o ∈ post, ¬o.Clears bit

section Runs

variable (bal : SearchTree RbExtent → List RbExtent → SearchTree RbExtent) (start : ℕ)

/-- A new bitmap, from memory that `ba_new_bmap` clears. -/
def newPair (bmapEnd realEnd : ℕ) (mem : Block) : BmapPair :=
  ⟨bmapEnd, realEnd, RbPrivate.empty, baClear start realEnd mem⟩

/-- Both back ends after a sequence of operations. -/
def resizeRun (st : BmapPair) (ops : List ResizeOp) : BmapPair :=
  ops.foldl (ResizeOp.run bal start) st

/-- Every operation of a sequence is called inside the bitmap that it finds. -/
def RunInside : BmapPair → List ResizeOp → Prop
  | _, [] => True
  | st, op :: ops => op.Inside start st ∧ RunInside (op.run bal start st) ops

/-- What is expected after a sequence of operations. -/
structure ResizedRight (st : BmapPair) (ops : List ResizeOp) : Prop where
  /-- Whatever comes next, the tree answers what the bits that are set since then say, and the array
  answers the same. -/
  exact : ∀ op : BmapOp, op.Inside start (resizeRun bal start st ops).bmapEnd →
    op.Answers {bit | SetSince ops bit} (op.runRb bal start (resizeRun bal start st ops).rb).1 ∧
      (op.runBa start (resizeRun bal start st ops).realEnd (resizeRun bal start st ops).ba).1 =
        (op.runRb bal start (resizeRun bal start st ops).rb).1
  /-- The bits that a growing resize has just exposed are zero. -/
  grown : ∀ pre newEnd newRealEnd mem, ops = pre ++ [.resize newEnd newRealEnd mem] →
    ∀ bit, (resizeRun bal start st pre).bmapEnd < bit → bit ≤ newEnd →
      (rbTestBit (bit - start) (resizeRun bal start st ops).rb).1 = false ∧
        bitAt (resizeRun bal start st ops).ba (bit - start) = false

variable {bal start} {st : BmapPair} {ops pre : List ResizeOp} {op : ResizeOp} {s : Set ℕ} {bit : ℕ}

theorem resizeRun_append :
    resizeRun bal start st (pre ++ ops) = resizeRun bal start (resizeRun bal start st pre) ops :=
  List.foldl_append

theorem runInside_append : RunInside bal start st (pre ++ ops) ↔
    RunInside bal start st pre ∧ RunInside bal start (resizeRun bal start st pre) ops := by
  induction pre generalizing st with
  | nil => exact (and_iff_right trivial).symm
  | cons op pre ih =>
    rw [List.cons_append, RunInside, ih, RunInside, and_assoc]
    rfl

theorem not_setSince_nil : ¬SetSince [] bit := by
  rintro ⟨pre, op, post, hops, -⟩
  exact List.append_ne_nil_of_right_ne_nil pre (List.cons_ne_nil op post) hops.symm

/-- What one more operation does to the bits. -/
theorem setSince_concat :
    SetSince (ops ++ [op]) bit ↔ op.Sets bit ∨ (SetSince ops bit ∧ ¬op.Clears bit) := by
  constructor
  · rintro ⟨pre, o, post, hops, hsets, hpost⟩
    rcases List.eq_nil_or_concat post with rfl | ⟨post, last, rfl⟩
    · obtain ⟨-, rfl⟩ := List.append_inj' hops rfl |>.imp_right List.singleton_inj.mp
      exact Or.inl hsets
    · rw [List.concat_eq_append, ← List.cons_append, ← List.append_assoc] at hops
      obtain ⟨rfl, hlast⟩ := List.append_inj' hops rfl
      obtain rfl := List.singleton_inj.mp hlast
      refine Or.inr ⟨⟨pre, o, post, rfl, hsets, fun o' ho' => hpost o' ?_⟩, hpost op ?_⟩
      · exact List.concat_eq_append ▸ List.mem_append_left _ ho'
      · exact List.concat_eq_append ▸ List.mem_append_right _ (List.mem_singleton_self op)
  · rintro (hsets | ⟨⟨pre, o, post, rfl, hsets, hpost⟩, hclear⟩)
    · exact ⟨ops, op, [], rfl, hsets, nofun⟩
    · refine ⟨pre, o, post ++ [op], by rw [List.append_assoc, List.cons_append], hsets,
        fun o' ho' => ?_⟩
      rcases List.mem_append.mp ho' with ho' | ho'
      · exact hpost o' ho'
      · rwa [List.mem_singleton.mp ho']

/-- The operations of a bitmap do to a set what they do to its bits. -/
theorem mem_spec_iff (o : BmapOp) : bit ∈ o.spec s ↔
    (ResizeOp.op o).Sets bit ∨ (bit ∈ s ∧ ¬(ResizeOp.op o).Clears bit) := by
  cases o with
  | mark arg => exact or_congr_right (and_iff_left not_false).symm
  | unmark arg => exact (or_iff_right not_false).symm
  | markExtent arg num => exact or_comm.trans (or_congr_right (and_iff_left not_false).symm)
  | unmarkExtent arg num => exact (or_iff_right not_false).symm
  | test arg => exact ((or_iff_right not_false).trans (and_iff_left not_false)).symm
  | testClear arg len => exact ((or_iff_right not_false).trans (and_iff_left not_false)).symm
  | clear => exact ⟨nofun, fun h => h.elim False.elim fun h => h.2 trivial⟩
  | copy toCopy dest => exact ((or_iff_right not_false).trans (and_iff_left not_false)).symm

/-- The ends are in order, the set is inside the bitmap, and the tree holds it, up to its
padding. -/
structure PairHolds (start : ℕ) (st : BmapPair) (s : Set ℕ) : Prop where
  start_le : start ≤ st.bmapEnd
  end_le : st.bmapEnd ≤ st.realEnd
  inside : s ⊆ Set.Icc start st.bmapEnd
  rb : ∃ t, RbHolds start st.rb t ∧ ∀ bit ≤ st.bmapEnd, bit ∈ t ↔ bit ∈ s

/-- **The tree holds the set** through every operation. -/
theorem PairHolds.run (hbal : ∀ t l, (bal t l).inorder = l) (h : PairHolds start st s)
    (hin : op.Inside start st) :
    PairHolds start (op.run bal start st) {bit | op.Sets bit ∨ (bit ∈ s ∧ ¬op.Clears bit)} := by
  obtain ⟨t, ht, hts⟩ := h.rb
  cases op with
  | op o =>
    have hspec : {bit | (ResizeOp.op o).Sets bit ∨
        (bit ∈ s ∧ ¬(ResizeOp.op o).Clears bit)} = o.spec s :=
      Set.ext fun bit => (mem_spec_iff o).symm
    rw [hspec]
    refine ⟨h.start_le, h.end_le, hin.spec_subset h.inside, o.spec t, (runRb_holds hbal ht hin).1,
      fun bit hbit => ?_⟩
    rw [mem_spec_iff, mem_spec_iff, hts bit hbit]
  | resize newEnd newRealEnd mem =>
    obtain ⟨hok, hmarked⟩ :=
      @rbResize_spec bal st.rb start st.bmapEnd newEnd newRealEnd hbal ht.ok h.start_le hin.1
    refine ⟨hin.1, hin.2, ?_, {bit | (bit ∈ t ∧ bit ≤ st.bmapEnd ∧ bit ≤ newEnd) ∨
      (newEnd < bit ∧ bit ≤ newRealEnd)}, ⟨hok, fun bit => ?_⟩, fun bit hbit => ?_⟩
    · rintro bit (hsets | ⟨hbit, hcut⟩)
      · exact hsets.elim
      · exact ⟨(h.inside hbit).1, Nat.not_lt.mp hcut⟩
    · rw [ResizeOp.run, hmarked, ht.marked]
      rfl
    · change bit ≤ newEnd at hbit
      show (bit ∈ t ∧ _) ∨ _ ↔ False ∨ (bit ∈ s ∧ ¬newEnd < bit)
      constructor
      · rintro (⟨hbt, hle, -⟩ | hpad)
        · exact Or.inr ⟨(hts bit hle).mp hbt, by omega⟩
        · omega
      · rintro (hfalse | ⟨hbs, -⟩)
        · exact hfalse.elim
        · have hle := (h.inside hbs).2
          exact Or.inl ⟨(hts bit hle).mpr hbs, hle, hbit⟩

/-- **The array holds the set** through every operation that exposes no stale bit. -/
theorem BaHolds.run (h : PairHolds start st s) (hba : BaHolds start st.bmapEnd st.ba s)
    (hin : op.Inside start st) (hstale : op.NoStale start st) :
    BaHolds start (op.run bal start st).bmapEnd (op.run bal start st).ba
      {bit | op.Sets bit ∨ (bit ∈ s ∧ ¬op.Clears bit)} := by
  cases op with
  | op o =>
    have hspec : {bit | (ResizeOp.op o).Sets bit ∨
        (bit ∈ s ∧ ¬(ResizeOp.op o).Clears bit)} = o.spec s :=
      Set.ext fun bit => (mem_spec_iff o).symm
    rw [hspec]
    exact (runBa_holds h.end_le hba hin).1
  | resize newEnd newRealEnd mem =>
    intro m hm
    have hin1 := hin.1
    change m ≤ newEnd - start at hm
    rw [ResizeOp.run, bitAt_baResize h.start_le h.end_le hin.2 (by omega)]
    show _ ↔ False ∨ (start + m ∈ s ∧ ¬newEnd < start + m)
    rw [false_or]
    constructor
    · rintro ⟨hbit, hle | ⟨hfar, hbyte⟩⟩
      · exact ⟨(hba m (by omega)).mp hbit, by omega⟩
      · rw [hstale m hfar (by omega) hbyte] at hbit
        cases hbit
    · rintro ⟨hs, -⟩
      have hle := (h.inside hs).2
      exact ⟨(hba m (by omega)).mpr hs, Or.inl hle⟩

/-- **A run**: the tree holds the bits that are set since then, and so does the array when no resize
of the run exposes a stale bit. -/
theorem resizeRun_holds (hbal : ∀ t l, (bal t l).inorder = l) {bmapEnd realEnd : ℕ} {mem : Block}
    (hstart : start ≤ bmapEnd) (hend : bmapEnd ≤ realEnd)
    (hin : RunInside bal start (newPair start bmapEnd realEnd mem) ops) :
    PairHolds start (resizeRun bal start (newPair start bmapEnd realEnd mem) ops)
      {bit | SetSince ops bit} ∧
      ((∀ pre op, pre ++ [op] <+: ops →
        op.NoStale start (resizeRun bal start (newPair start bmapEnd realEnd mem) pre)) →
        BaHolds start (resizeRun bal start (newPair start bmapEnd realEnd mem) ops).bmapEnd
          (resizeRun bal start (newPair start bmapEnd realEnd mem) ops).ba
            {bit | SetSince ops bit}) := by
  induction ops using List.reverseRecOn with
  | nil =>
    refine ⟨⟨hstart, hend, fun bit hbit => absurd hbit not_setSince_nil, ∅,
      ⟨RbPrivate.empty_ok, fun bit => ?_⟩, fun bit _ =>
        ⟨nofun, fun hbit => absurd hbit not_setSince_nil⟩⟩, fun _ m hm => ?_⟩
    · exact ⟨fun hm => absurd hm marked_nil, nofun⟩
    · change m ≤ bmapEnd - start at hm
      show bitAt (baClear start realEnd mem) m = true ↔ _
      rw [bitAt_baClear (by omega)]
      exact ⟨nofun, fun hbit => absurd hbit not_setSince_nil⟩
  | append_singleton ops op ih =>
    obtain ⟨hin, hop, -⟩ := runInside_append.mp hin
    obtain ⟨hrb, hba⟩ := ih hin
    have hset : {bit | SetSince (ops ++ [op]) bit} = {bit | op.Sets bit ∨
        (bit ∈ {bit | SetSince ops bit} ∧ ¬op.Clears bit)} :=
      Set.ext fun bit => setSince_concat
    rw [hset, resizeRun_append]
    refine ⟨hrb.run hbal hop, fun hstale => ?_⟩
    refine (hba fun pre o hpre => hstale pre o (hpre.trans (List.prefix_append _ _))).run hrb hop ?_
    exact hstale ops op (List.prefix_refl _)

/-- An answer depends only on the bits of the bitmap. -/
theorem BmapOp.Answers.congr {o : BmapOp} {t : Set ℕ} {bmapEnd : ℕ} {answer : Option Bool}
    (hin : o.Inside start bmapEnd) (hts : ∀ bit ≤ bmapEnd, bit ∈ t ↔ bit ∈ s)
    (h : o.Answers t answer) :
    o.Answers s answer := by
  cases o with
  | test arg =>
    obtain ⟨b, hb, hiff⟩ := h
    exact ⟨b, hb, hiff.trans (hts arg hin.2)⟩
  | testClear arg len =>
    obtain ⟨b, hb, hiff⟩ := h
    refine ⟨b, hb, hiff.trans ?_⟩
    rw [Set.disjoint_left, Set.disjoint_left]
    refine forall_congr' fun bit => imp_congr_right fun hbit => not_congr (hts bit ?_)
    have h1 := hin.2.1
    have h2 := hbit.2
    omega
  | _ => exact h

/-- **Resizing is exact in every state of a run if and only if no resize of it exposes a stale
bit**: a bit that was set behind the real end in the last byte of the array. -/
theorem resizedRight_iff (hbal : ∀ t l, (bal t l).inorder = l) {bmapEnd realEnd : ℕ} (mem : Block)
    (hstart : start ≤ bmapEnd) (hend : bmapEnd ≤ realEnd)
    (hin : RunInside bal start (newPair start bmapEnd realEnd mem) ops) :
    (∀ pre, pre <+: ops → ResizedRight bal start (newPair start bmapEnd realEnd mem) pre) ↔
      ∀ pre op, pre ++ [op] <+: ops →
        op.NoStale start (resizeRun bal start (newPair start bmapEnd realEnd mem) pre) := by
  have hinside : ∀ pre, pre <+: ops →
      RunInside bal start (newPair start bmapEnd realEnd mem) pre := by
    rintro pre ⟨post, rfl⟩
    exact (runInside_append.mp hin).1
  constructor
  · intro hright pre op hpre
    cases op with
    | op o => trivial
    | resize newEnd newRealEnd mem' =>
      intro m hfar hle hbyte
      obtain ⟨hin', hop, -⟩ := runInside_append.mp (hinside _ hpre)
      have hpair := (resizeRun_holds hbal hstart hend hin').1
      have hgrown := (hright _ hpre).grown pre newEnd newRealEnd mem' rfl (start + m)
        (lt_of_le_of_lt hpair.end_le hfar) hle
      rw [resizeRun_append, Nat.add_sub_cancel_left] at hgrown
      by_contra hbit
      -- the stale bit is still there
      have hstale :=
        (@bitAt_baResize _ mem' _ _ _ newEnd newRealEnd _ hpair.start_le hpair.end_le hop.2 hle).mpr
        ⟨Bool.eq_true_of_not_eq_false hbit, Or.inr ⟨hfar, hbyte⟩⟩
      exact absurd hgrown.2 (by rw [Bool.not_eq_false]; exact hstale)
  · intro hstale pre hpre
    obtain ⟨hpair, hba⟩ := resizeRun_holds hbal hstart hend (hinside pre hpre)
    have hba' := hba fun pre' op hpre' => hstale pre' op (hpre'.trans hpre)
    obtain ⟨t, ht, hts⟩ := hpair.rb
    refine ⟨fun op hop => ?_, ?_⟩
    · have hrb := ((runRb_holds hbal ht hop).2).congr hop hts
      exact ⟨hrb, ((runBa_holds hpair.end_le hba' hop).2).unique hrb⟩
    · rintro pre' newEnd newRealEnd mem' rfl bit hlt hle
      have hpair' :=
        (resizeRun_holds hbal hstart hend (hinside pre' ((List.prefix_append _ _).trans hpre))).1
      have hunset : ¬SetSince (pre' ++ [.resize newEnd newRealEnd mem']) bit := by
        rw [setSince_concat]
        rintro (hfalse | ⟨hset, -⟩)
        · exact hfalse
        · have := (hpair'.inside hset).2
          omega
      have hend' : (resizeRun bal start (newPair start bmapEnd realEnd mem)
          (pre' ++ [.resize newEnd newRealEnd mem'])).bmapEnd = newEnd := by
        rw [resizeRun_append]
        rfl
      have hbit : start + (bit - start) = bit := by
        have := hpair'.start_le
        omega
      constructor
      · rw [Bool.eq_false_iff, ne_eq, (rbTestBit_spec ht.ok).answer, ht.marked, hbit,
          hts bit (hle.trans_eq hend'.symm)]
        exact hunset
      · rw [Bool.eq_false_iff, ne_eq, hba' (bit - start) (by omega), hbit]
        exact hunset

/-- A bit of the last byte is set, the bitmap is cut off before it, and grows again. -/
def cutAndRegrown : List ResizeOp :=
  [.op (.mark 5), .resize 3 3 fun _ => 0, .resize 15 15 fun _ => 0]

theorem not_resizedRight_cutAndRegrown :
    RunInside (fun _ l => .ofList l) 0 (newPair 0 15 15 fun _ => 0) cutAndRegrown ∧
      ¬ResizedRight (fun _ l => .ofList l) 0 (newPair 0 15 15 fun _ => 0) cutAndRegrown := by
  refine ⟨⟨⟨by decide, by decide⟩, ⟨by decide, by decide⟩, ⟨by decide, by decide⟩, trivial⟩,
    fun h => ?_⟩
  have hgrown :=
    (h.grown [.op (.mark 5), .resize 3 3 fun _ => 0] 15 15 (fun _ => 0) rfl 5 (by decide)
      (by decide)).2
  exact absurd hgrown (by decide)

/-- A bitmap that ends with a byte is cut off and grows again. -/
def cutAtByte : List ResizeOp := [.op (.mark 13), .resize 5 7 fun _ => 0, .resize 13 15 fun _ => 0]

theorem resizedRight_cutAtByte :
    (∀ pre, pre <+: cutAtByte →
      ResizedRight (fun _ l => .ofList l) 0 (newPair 0 15 15 fun _ => 0) pre) ↔
      ∀ pre op, pre ++ [op] <+: cutAtByte →
        op.NoStale 0 (resizeRun (fun _ l => .ofList l) 0 (newPair 0 15 15 fun _ => 0) pre) :=
  resizedRight_iff (fun _ l => SearchTree.inorder_ofList l) (fun _ => 0) (by decide) (by decide)
    ⟨⟨by decide, by decide⟩, ⟨by decide, by decide⟩, ⟨by decide, by decide⟩, trivial⟩

end Runs

end E2fsprogs
