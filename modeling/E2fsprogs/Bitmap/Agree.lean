import E2fsprogs.Bitmap.BitArray
import E2fsprogs.Bitmap.RbTest

/-!
# The two bitmaps agree

A tree of extents and an array of bits that go through the same operations hold the same set of
bits, and answer every test alike. The set is the abstract bitmap (`E2fsprogs.BmapOp.spec`); each
back end refines it, and the tree keeps its invariant.
-/

namespace E2fsprogs

/-- The operations of a bitmap, with bits as the caller counts them. -/
inductive BmapOp
  | mark (arg : ℕ)
  | unmark (arg : ℕ)
  | markExtent (arg num : ℕ)
  | unmarkExtent (arg num : ℕ)
  | test (arg : ℕ)
  | testClear (arg len : ℕ)
  | clear
  /-- The bitmap is copied, into an array that holds what it holds. What follows is done to the
  copy, or to the source. -/
  | copy (toCopy : Bool) (dest : Block)

/-- The arguments are inside the bitmap. -/
def BmapOp.Inside (start realEnd : ℕ) : BmapOp → Prop
  | .mark arg => start ≤ arg ∧ arg ≤ realEnd
  | .unmark arg => start ≤ arg ∧ arg ≤ realEnd
  | .markExtent arg num => start ≤ arg ∧ arg + num ≤ realEnd + 1
  | .unmarkExtent arg num => start ≤ arg ∧ arg + num ≤ realEnd + 1
  | .test arg => start ≤ arg ∧ arg ≤ realEnd
  | .testClear arg len => start ≤ arg ∧ arg + len ≤ realEnd + 1 ∧ 1 ≤ len
  | .clear => True
  | .copy _ _ => True

/-- What an operation does to the set of bits that are set. -/
def BmapOp.spec (s : Set ℕ) : BmapOp → Set ℕ
  | .mark arg => insert arg s
  | .unmark arg => s \ {arg}
  | .markExtent arg num => s ∪ Set.Ico arg (arg + num)
  | .unmarkExtent arg num => s \ Set.Ico arg (arg + num)
  | .test _ => s
  | .testClear _ _ => s
  | .clear => ∅
  | .copy _ _ => s

/-- What an operation is to answer. -/
def BmapOp.Answers (s : Set ℕ) : BmapOp → Option Bool → Prop
  | .test arg, answer => ∃ b, answer = some b ∧ (b = true ↔ arg ∈ s)
  | .testClear arg len, answer =>
    ∃ b, answer = some b ∧ (b = true ↔ Disjoint (Set.Ico arg (arg + len)) s)
  | _, answer => answer = none

section Backends

variable (bal : SearchTree RbExtent → List RbExtent → SearchTree RbExtent) (start realEnd : ℕ)

/-- The operations on a tree of extents. -/
def BmapOp.runRb (bp : RbPrivate) : BmapOp → Option Bool × RbPrivate
  | .mark arg => (none, (rbInsertExtent bal (arg - start) 1 bp).2)
  | .unmark arg => (none, (rbRemoveExtent bal (arg - start) 1 bp).2)
  | .markExtent arg num => (none, (rbInsertExtent bal (arg - start) num bp).2)
  | .unmarkExtent arg num => (none, (rbRemoveExtent bal (arg - start) num bp).2)
  | .test arg => let r := rbTestBit (arg - start) bp; (some r.1, r.2)
  | .testClear arg len => (some (rbTestClear (arg - start) len bp), bp)
  | .clear => (none, rbClear bp)
  | .copy toCopy _ => (none, if toCopy then (rbCopy bal bp).2 else (rbCopy bal bp).1)

/-- The operations on an array of bits. -/
def BmapOp.runBa (b : Block) : BmapOp → Option Bool × Block
  | .mark arg => (none, (baMark (arg - start) b).2)
  | .unmark arg => (none, (baUnmark (arg - start) b).2)
  | .markExtent arg num => (none, baMarkExtent (arg - start) num b)
  | .unmarkExtent arg num => (none, baUnmarkExtent (arg - start) num b)
  | .test arg => (some (bitAt b (arg - start)), b)
  | .testClear arg len => (some (baTestClear (arg - start) len b), b)
  | .clear => (none, baClear start realEnd b)
  | .copy toCopy dest => (none, if toCopy then baCopy start realEnd b dest else b)

/-- The tree of extents holds a set of bits. -/
structure RbHolds (bp : RbPrivate) (s : Set ℕ) : Prop where
  ok : bp.Ok
  marked : ∀ bit, Marked bp.nodes bit ↔ start + bit ∈ s

/-- The array of bits holds a set of bits. -/
def BaHolds (b : Block) (s : Set ℕ) : Prop :=
  ∀ bit ≤ realEnd - start, bitAt b bit = true ↔ start + bit ∈ s

/-- The nodes of a tree of extents: not empty, apart, within the bitmap, and what the cursors point
to. -/
structure TreeSound (bp : RbPrivate) : Prop where
  pos : ∀ x ∈ bp.nodes, 0 < x.count
  inside : ∀ x ∈ bp.nodes, start + x.start + x.count ≤ realEnd + 1
  sep : bp.nodes.Pairwise fun x y => x.start + x.count < y.start
  wcursor : ∀ i, bp.wcursor = some i → ∃ x ∈ bp.nodes, x.id = i
  rcursor : ∀ i, bp.rcursor = some i → ∃ x ∈ bp.nodes, x.id = i
  rcursorNext : ∀ i j, bp.rcursor = some i → bp.rcursorNext = some j →
    ∃ a x y b, bp.nodes = a ++ x :: y :: b ∧ x.id = i ∧ y.id = j

variable {bal start realEnd} {bp : RbPrivate} {b : Block} {s : Set ℕ} {op : BmapOp}

theorem RbHolds.sound (h : RbHolds start bp s) (hs : ∀ bit ∈ s, bit ≤ realEnd) :
    TreeSound start realEnd bp where
  pos := h.ok.apart.pos
  inside x hx := by
    have hpos := h.ok.apart.pos x hx
    have hlast :=
      hs _ ((h.marked (x.start + x.count - 1)).mp ⟨x, hx, by omega, by rw [RbExtent.stop]; omega⟩)
    omega
  sep := h.ok.apart.sep
  wcursor i hi := by
    obtain ⟨x, hx, hxi⟩ := List.mem_map.mp (h.ok.addresses.cursors.write i hi)
    exact ⟨x, hx, hxi⟩
  rcursor i hi := by
    obtain ⟨x, hx, hxi⟩ := List.mem_map.mp (h.ok.addresses.cursors.read i hi)
    exact ⟨x, hx, hxi⟩
  rcursorNext i j hi hj := exists_pair (h.ok.addresses.cursors.next i j hi hj)

/-- The set stays inside the bitmap. -/
theorem BmapOp.Inside.spec_subset (hin : op.Inside start realEnd) (hs : s ⊆ Set.Icc start realEnd) :
    op.spec s ⊆ Set.Icc start realEnd := by
  cases op with
  | mark arg => exact Set.insert_subset hin hs
  | unmark arg => exact Set.sdiff_subset.trans hs
  | markExtent arg num =>
    refine Set.union_subset hs fun bit hbit => ?_
    have h1 := hin.1
    have h2 := hin.2
    have h3 := hbit.1
    have h4 := hbit.2
    exact ⟨by omega, by omega⟩
  | unmarkExtent arg num => exact Set.sdiff_subset.trans hs
  | test arg => exact hs
  | testClear arg len => exact hs
  | clear => exact Set.empty_subset _
  | copy toCopy dest => exact hs

/-- An interval, seen from the start of the bitmap. -/
theorem mem_Ico_start {arg num bit : ℕ} (h : start ≤ arg) :
    start + bit ∈ Set.Ico arg (arg + num) ↔ arg - start ≤ bit ∧ bit < arg - start + num := by
  rw [Set.mem_Ico]
  omega

theorem disjoint_Ico {arg len : ℕ} (h : start ≤ arg) :
    Disjoint (Set.Ico arg (arg + len)) s ↔ ∀ bit, arg - start ≤ bit → bit < arg - start + len →
    start + bit ∉ s := by
  rw [Set.disjoint_left]
  constructor
  · exact fun hall bit h1 h2 => hall ((mem_Ico_start h).mpr ⟨h1, h2⟩)
  · intro hall bit hbit
    have hle := hbit.1
    have hbit' : start + (bit - start) ∈ Set.Ico arg (arg + len) := by
      rwa [show start + (bit - start) = bit by omega]
    obtain ⟨h1, h2⟩ := (mem_Ico_start h).mp hbit'
    have := hall (bit - start) h1 h2
    rwa [show start + (bit - start) = bit by omega] at this

/-- **The tree of extents refines the set**, operation by operation. -/
theorem runRb_holds (hbal : ∀ t l, (bal t l).inorder = l) (h : RbHolds start bp s)
    (hin : op.Inside start realEnd) :
    RbHolds start (op.runRb bal start bp).2 (op.spec s) ∧
    op.Answers s (op.runRb bal start bp).1 := by
  cases op with
  | mark arg =>
    have hm := @rbInsertExtent_spec bal bp (arg - start) 1 hbal h.ok
    refine ⟨⟨hm.ok, fun bit => ?_⟩, rfl⟩
    have h1 := hin.1
    rw [BmapOp.runRb, hm.marked, h.marked, BmapOp.spec, Set.mem_insert_iff, or_comm]
    refine or_congr_left ?_
    omega
  | unmark arg =>
    have hm := @rbRemoveExtent_spec bal bp (arg - start) 1 hbal h.ok
    refine ⟨⟨hm.ok, fun bit => ?_⟩, rfl⟩
    have h1 := hin.1
    rw [BmapOp.runRb, hm.marked, h.marked, BmapOp.spec, Set.mem_sdiff, Set.mem_singleton_iff]
    refine and_congr_right fun _ => not_congr ?_
    omega
  | markExtent arg num =>
    have hm := @rbInsertExtent_spec bal bp (arg - start) num hbal h.ok
    refine ⟨⟨hm.ok, fun bit => ?_⟩, rfl⟩
    rw [BmapOp.runRb, hm.marked, h.marked, BmapOp.spec, Set.mem_union, mem_Ico_start hin.1]
  | unmarkExtent arg num =>
    have hm := @rbRemoveExtent_spec bal bp (arg - start) num hbal h.ok
    refine ⟨⟨hm.ok, fun bit => ?_⟩, rfl⟩
    rw [BmapOp.runRb, hm.marked, h.marked, BmapOp.spec, Set.mem_sdiff, mem_Ico_start hin.1]
  | test arg =>
    have ht := @rbTestBit_spec bp (arg - start) h.ok
    refine ⟨⟨ht.ok, fun bit => ?_⟩, _, rfl, ?_⟩
    · rw [BmapOp.runRb, ht.nodes]
      exact h.marked bit
    · have h1 := hin.1
      rw [ht.answer, h.marked, show start + (arg - start) = arg by omega]
  -- no bit of the range is marked exactly if the range and the set are disjoint
  | testClear arg len =>
    refine ⟨h, _, rfl, ?_⟩
    rw [rbTestClear_spec h.ok, disjoint_Ico hin.1]
    exact forall_congr' fun bit => imp_congr_right fun _ => imp_congr_right fun _ =>
      not_congr (h.marked bit)
  | clear =>
    exact ⟨⟨rbClear_spec.1, fun bit => ⟨fun hm => absurd hm (rbClear_spec.2 bit), nofun⟩⟩, rfl⟩
  | copy toCopy dest =>
    obtain ⟨⟨hsrc, hnodes⟩, hok, hmarked⟩ := rbCopy_spec hbal h.ok
    refine ⟨?_, rfl⟩
    -- a copy goes on with the new tree or with the old one
    cases toCopy with
    | true => exact ⟨hok, fun bit => (hmarked bit).trans (h.marked bit)⟩
    | false =>
      exact ⟨hsrc, fun bit => by rw [BmapOp.runRb, if_neg (by simp), hnodes]; exact h.marked bit⟩

/-- **The array of bits refines the set**, operation by operation. -/
theorem runBa_holds {bmapEnd : ℕ} (hend : bmapEnd ≤ realEnd) (h : BaHolds start bmapEnd b s)
    (hin : op.Inside start bmapEnd) :
    BaHolds start bmapEnd (op.runBa start realEnd b).2 (op.spec s) ∧
    op.Answers s (op.runBa start realEnd b).1 := by
  cases op with
  | mark arg =>
    refine ⟨fun bit hbit => ?_, rfl⟩
    have h1 := hin.1
    rw [BmapOp.runBa, bitAt_baMark, h bit hbit, BmapOp.spec, Set.mem_insert_iff, or_comm]
    refine or_congr_left ?_
    omega
  | unmark arg =>
    refine ⟨fun bit hbit => ?_, rfl⟩
    have h1 := hin.1
    rw [BmapOp.runBa, bitAt_baUnmark, h bit hbit, BmapOp.spec, Set.mem_sdiff, Set.mem_singleton_iff]
    refine and_congr_right fun _ => not_congr ?_
    omega
  | markExtent arg num =>
    refine ⟨fun bit hbit => ?_, rfl⟩
    rw [BmapOp.runBa, bitAt_baMarkExtent, h bit hbit, BmapOp.spec, Set.mem_union,
      mem_Ico_start hin.1]
  | unmarkExtent arg num =>
    refine ⟨fun bit hbit => ?_, rfl⟩
    rw [BmapOp.runBa, bitAt_baUnmarkExtent, h bit hbit, BmapOp.spec, Set.mem_sdiff,
      mem_Ico_start hin.1]
  | test arg =>
    have h1 := hin.1
    have h2 := hin.2
    refine ⟨h, _, rfl, ?_⟩
    rw [h _ (by omega), show start + (arg - start) = arg by omega]
  | testClear arg len =>
    have h1 := hin.1
    have h2 := hin.2.1
    refine ⟨h, _, rfl, ?_⟩
    rw [baTestClear_iff, disjoint_Ico hin.1]
    refine forall_congr' fun bit => imp_congr_right fun hlo => imp_congr_right fun hhi => ?_
    rw [← h bit (by omega), Bool.not_eq_true]
  -- what `ba_clear_bmap` leaves behind the end is never asked for
  | clear =>
    refine ⟨fun bit hbit => ?_, rfl⟩
    rw [BmapOp.runBa, bitAt_baClear (by omega)]
    exact ⟨nofun, nofun⟩
  | copy toCopy dest =>
    refine ⟨fun bit hbit => ?_, rfl⟩
    cases toCopy with
    | true =>
      rw [BmapOp.runBa, if_pos rfl, bitAt_baCopy (by omega)]
      exact h bit hbit
    | false => exact h bit hbit

/-- There is one answer. -/
theorem BmapOp.Answers.unique {a a' : Option Bool} (h : op.Answers s a) (h' : op.Answers s a') :
    a = a' := by
  cases op with
  | test arg =>
    obtain ⟨x, rfl, hx⟩ := h
    obtain ⟨y, rfl, hy⟩ := h'
    rw [Bool.eq_iff_iff.mpr (hx.trans hy.symm)]
  | testClear arg len =>
    obtain ⟨x, rfl, hx⟩ := h
    obtain ⟨y, rfl, hy⟩ := h'
    rw [Bool.eq_iff_iff.mpr (hx.trans hy.symm)]
  | _ => exact h.trans h'.symm

end Backends

/-! ### Runs -/

section Runs

variable (bal : SearchTree RbExtent → List RbExtent → SearchTree RbExtent) (start realEnd : ℕ)

/-- The tree of extents after a sequence of operations. -/
def rbRun (ops : List BmapOp) : RbPrivate :=
  ops.foldl (fun bp op => (op.runRb bal start bp).2) RbPrivate.empty

/-- The array of bits after a sequence of operations, from memory that `ba_new_bmap` clears. -/
def baRun (mem : Block) (ops : List BmapOp) : Block :=
  ops.foldl (fun b op => (op.runBa start realEnd b).2) (baClear start realEnd mem)

/-- The set after a sequence of operations. -/
def setRun (ops : List BmapOp) : Set ℕ := ops.foldl BmapOp.spec ∅

variable {bal start realEnd}

/-- **Both back ends hold the set** after every sequence of operations. -/
theorem run_holds (hbal : ∀ t l, (bal t l).inorder = l) (mem : Block) (ops : List BmapOp)
    (hin : ∀ op ∈ ops, op.Inside start realEnd) :
    setRun ops ⊆ Set.Icc start realEnd ∧ RbHolds start (rbRun bal start ops) (setRun ops) ∧
      BaHolds start realEnd (baRun start realEnd mem ops) (setRun ops) := by
  induction ops using List.reverseRecOn with
  | nil =>
    refine ⟨Set.empty_subset _,
      ⟨RbPrivate.empty_ok, fun bit => ⟨fun hm => absurd hm marked_nil, nofun⟩⟩, fun bit hbit => ?_⟩
    show bitAt (baClear start realEnd mem) bit = true ↔ _
    rw [bitAt_baClear hbit]
    exact ⟨nofun, nofun⟩
  | append_singleton ops op ih =>
    obtain ⟨hsub, hrb, hba⟩ := ih fun o ho => hin o (List.mem_append_left _ ho)
    have hop := hin op (List.mem_append_right _ (List.mem_singleton_self _))
    have hset : setRun (ops ++ [op]) = op.spec (setRun ops) := by
      rw [setRun, List.foldl_append]
      rfl
    have hrb' : rbRun bal start (ops ++ [op]) = (op.runRb bal start (rbRun bal start ops)).2 := by
      rw [rbRun, List.foldl_append]
      rfl
    have hba' : baRun start realEnd mem (ops ++ [op]) =
        (op.runBa start realEnd (baRun start realEnd mem ops)).2 := by
      rw [baRun, List.foldl_append]
      rfl
    rw [hset, hrb', hba']
    exact ⟨hop.spec_subset hsub, (runRb_holds hbal hrb hop).1, (runBa_holds le_rfl hba hop).1⟩

/-- **The tree of extents refines the set of bits and agrees with the array of bits**: after every
sequence of operations the tree is sound, and whatever comes next is answered alike by both, as the
set says. -/
theorem bitmaps_agree (hbal : ∀ t l, (bal t l).inorder = l) (mem : Block) (ops : List BmapOp)
    (hin : ∀ op ∈ ops, op.Inside start realEnd) :
    TreeSound start realEnd (rbRun bal start ops) ∧
      ∀ op : BmapOp, op.Inside start realEnd →
        (op.runRb bal start (rbRun bal start ops)).1 =
          (op.runBa start realEnd (baRun start realEnd mem ops)).1 ∧
          op.Answers (setRun ops) (op.runRb bal start (rbRun bal start ops)).1 := by
  obtain ⟨hsub, hrb, hba⟩ := run_holds hbal mem ops hin
  refine ⟨hrb.sound fun bit hbit => (hsub hbit).2, fun op hop => ?_⟩
  have h1 := (runRb_holds hbal hrb hop).2
  have h2 := (runBa_holds le_rfl hba hop).2
  exact ⟨h1.unique h2, h1⟩

/-- Two runs, and a test between them. -/
def twoRuns : List BmapOp := [.markExtent 3 2, .mark 8, .test 4]

theorem bitmaps_agree_twoRuns :
    TreeSound 1 16 (rbRun (fun _ l => .ofList l) 1 twoRuns) ∧
      (BmapOp.runRb (fun _ l => .ofList l) 1 (rbRun (fun _ l => .ofList l) 1 twoRuns) (.test 6)).1 =
        (BmapOp.runBa 1 16 (baRun 1 16 (fun _ => 0) twoRuns) (.test 6)).1 := by
  have hagree :=
    @bitmaps_agree (fun _ l => .ofList l) 1 16 (fun _ l => SearchTree.inorder_ofList l) (fun _ => 0)
    twoRuns (by
      intro op hop
      rcases List.mem_cons.mp hop with rfl | hop
      · exact ⟨by decide, by decide⟩
      · rcases List.mem_pair.mp hop with rfl | rfl
        · exact ⟨by decide, by decide⟩
        · exact ⟨by decide, by decide⟩)
  exact ⟨hagree.1, (hagree.2 (.test 6) ⟨by decide, by decide⟩).1⟩

end Runs

end E2fsprogs
