import E2fsprogs.Bitmap.Clusters
import E2fsprogs.Lib.Loop

/-!
# Comparing two bitmaps

`ext2fs_compare_generic_bmap`. Where start and end agree, the loop that is to compare the
bits begins at `end - ((end - start) % 8)`: it looks at the last bits only, at most eight of
them. It passes what it counts to `ext2fs_test_generic_bmap`, which takes it for a block
number and divides it by the cluster size once more.
-/

namespace E2fsprogs

namespace BlockBitmap

/-- A test, with what it does to the cursors of a tree. -/
def testRun (arg : ℕ) : BlockBitmap → Bool × BlockBitmap
  | rb clusterBits start bmapEnd bp =>
    if arg >>> clusterBits < start ∨ bmapEnd < arg >>> clusterBits then
      (false, rb clusterBits start bmapEnd bp)
    else
      let r := rbTestBit (arg >>> clusterBits - start) bp
      (r.1, rb clusterBits start bmapEnd r.2)
  | bitmap => (bitmap.test arg, bitmap)

/-- A bitmap of the 64-bit kind. -/
def Is64 : BlockBitmap → Prop
  | legacy _ _ _ _ => False
  | _ => True

/-- A 64-bit bitmap whose tree, if it has one, is as the operations keep it. -/
def Sound : BlockBitmap → Prop
  | rb _ _ _ bp => bp.Ok
  | ba _ _ _ _ => True
  | legacy _ _ _ _ => False

end BlockBitmap

open BlockBitmap

/-- Where the loop begins: `end - ((end - start) % 8)`, in 64 bits. -/
def firstCompared (bm : BlockBitmap) : ℕ :=
  (bm.last + 2 ^ 64 - (bm.last + 2 ^ 64 - bm.first) % 2 ^ 64 % 8) % 2 ^ 64

/-- One round of the loop of `ext2fs_compare_generic_bmap`, with `i` and the two
bitmaps. -/
def compareStep (neq stop : ℕ) (s : ℕ × BlockBitmap × BlockBitmap) :
    (ℕ × BlockBitmap × BlockBitmap) ⊕ ℕ :=
  if s.1 ≤ stop then
    let r1 := s.2.1.testRun s.1
    let r2 := s.2.2.testRun s.1
    if r1.1 ≠ r2.1 then .inr neq else .inl ((s.1 + 1) % 2 ^ 64, r1.2, r2.2)
  else .inr 0

/-- `ext2fs_compare_generic_bmap` returns so, for two bitmaps of the 64-bit kind with the
same magic number. -/
def Compares (neq : ℕ) (bm1 bm2 : BlockBitmap) (r : ℕ) : Prop :=
  if bm1.first ≠ bm2.first ∨ bm1.last ≠ bm2.last then r = neq
  else Loop.Leaves (compareStep neq bm1.last) (firstCompared bm1, bm1, bm2) r

/-- Some bit of the range is set in one and clear in the other. -/
def BitsDiffer (bm1 bm2 : BlockBitmap) : Prop :=
  ∃ k, bm1.first ≤ k ∧ k ≤ bm1.last ∧ bm1.bit k ≠ bm2.bit k

/-- The comparison is equality: it returns `0` exactly for the same start and end and the
same bits. -/
def ComparesEqual (neq : ℕ) (bm1 bm2 : BlockBitmap) : Prop :=
  Compares neq bm1 bm2 0 ↔ bm1.first = bm2.first ∧ bm1.last = bm2.last ∧ ¬BitsDiffer bm1 bm2

/-- One of the last block numbers is tested with different answers. -/
def SeenDiffer (bm1 bm2 : BlockBitmap) : Prop :=
  ∃ i, firstCompared bm1 ≤ i ∧ i ≤ bm1.last ∧ bm1.test i ≠ bm2.test i

/-! ### Testing changes no bit -/

section Compare

variable {bm bm' bm1 bm2 : BlockBitmap} {neq : ℕ}

/-- A bitmap that answers as another does. -/
structure AnswersLike (bm bm' : BlockBitmap) : Prop where
  sound : bm'.Sound
  test : ∀ arg, bm'.test arg = bm.test arg

theorem AnswersLike.refl (h : bm.Sound) : AnswersLike bm bm := ⟨h, fun _ => rfl⟩

theorem testRun_spec (h : bm.Sound) (arg : ℕ) :
    (bm.testRun arg).1 = bm.test arg ∧ AnswersLike bm (bm.testRun arg).2 := by
  cases bm with
  | legacy start bmapEnd realEnd b => cases h
  | ba clusterBits start bmapEnd b => exact ⟨rfl, .refl h⟩
  | rb clusterBits start bmapEnd bp =>
    rw [testRun]
    by_cases hout : arg >>> clusterBits < start ∨ bmapEnd < arg >>> clusterBits
    · rw [if_pos hout]
      exact ⟨by rw [BlockBitmap.test, if_pos hout], .refl h⟩
    · rw [if_neg hout]
      have hok : bp.Ok := h
      have ht := @rbTestBit_spec bp (arg >>> clusterBits - start) hok
      refine ⟨by rw [BlockBitmap.test, if_neg hout]; rfl, ht.ok, fun a => ?_⟩
      rw [BlockBitmap.test, BlockBitmap.test]
      congr 1
      rw [Bool.eq_iff_iff, rbTest_iff ht.ok, rbTest_iff hok, ht.nodes]

theorem AnswersLike.testRun (h : AnswersLike bm bm') (arg : ℕ) :
    (bm'.testRun arg).1 = bm.test arg ∧ AnswersLike bm (bm'.testRun arg).2 := by
  obtain ⟨h1, h2⟩ := testRun_spec h.sound arg
  exact ⟨h1.trans (h.test arg), h2.sound, fun a => (h2.test a).trans (h.test a)⟩

theorem sound_of_reachable {bal : SearchTree RbExtent → List RbExtent → SearchTree RbExtent}
    (hbal : ∀ t l, (bal t l).inorder = l) (h64 : bm.Is64) (h : bm.Reachable bal) : bm.Sound := by
  cases bm with
  | rb clusterBits start bmapEnd bp => exact RbReachable.ok hbal h
  | ba clusterBits start bmapEnd b => trivial
  | legacy start bmapEnd realEnd b => cases h64

/-! ### The loop -/

/-- A round at a number within the range. -/
theorem compareStep_of_le {stop i : ℕ} {a b : BlockBitmap} (ha : AnswersLike bm1 a)
    (hb : AnswersLike bm2 b) (hle : i ≤ stop) :
    (bm1.test i ≠ bm2.test i ∧ compareStep neq stop (i, a, b) = .inr neq) ∨
    (bm1.test i = bm2.test i ∧ ∃ a' b', AnswersLike bm1 a' ∧ AnswersLike bm2 b' ∧
      compareStep neq stop (i, a, b) = .inl ((i + 1) % 2 ^ 64, a', b')) := by
  obtain ⟨ha1, ha2⟩ := ha.testRun i
  obtain ⟨hb1, hb2⟩ := hb.testRun i
  by_cases heq : bm1.test i = bm2.test i
  · refine Or.inr ⟨heq, _, _, ha2, hb2, ?_⟩
    simp only [compareStep, hle, if_true, ha1, hb1, heq, ne_eq, not_true_eq_false, if_false]
  · refine Or.inl ⟨heq, ?_⟩
    simp only [compareStep, hle, if_true, ha1, hb1, heq, ne_eq, not_false_eq_true]

/-- **The loop compares the rest of the range.** -/
theorem compareLoop {stop : ℕ} (hstop : stop + 1 < 2 ^ 64) (n : ℕ) : ∀ {i : ℕ} {a b : BlockBitmap},
    AnswersLike bm1 a → AnswersLike bm2 b → stop + 1 - i = n →
    ((∃ k, i ≤ k ∧ k ≤ stop ∧ bm1.test k ≠ bm2.test k) ∧
      Loop.Leaves (compareStep neq stop) (i, a, b) neq) ∨
    ((∀ k, i ≤ k → k ≤ stop → bm1.test k = bm2.test k) ∧
      Loop.Leaves (compareStep neq stop) (i, a, b) 0) := by
  induction n with
  | zero =>
    intro i a b _ _ hn
    have hgt : ¬i ≤ stop := by omega
    refine Or.inr ⟨fun k h1 h2 => absurd (h1.trans h2) hgt, Loop.leaves_of_inr ?_⟩
    rw [compareStep, if_neg hgt]
  | succ n ih =>
    intro i a b ha hb hn
    rcases compareStep_of_le ha hb (show i ≤ stop by omega) with ⟨hne, hstep⟩ |
      ⟨heq, a', b', ha', hb', hstep⟩
    · exact Or.inl ⟨⟨i, le_rfl, by omega, hne⟩, Loop.leaves_of_inr hstep⟩
    · rw [Nat.mod_eq_of_lt (by omega)] at hstep
      rcases ih ha' hb' (show stop + 1 - (i + 1) = n by omega) with ⟨⟨k, h1, h2, hk⟩, hl⟩ |
        ⟨hall, hl⟩
      · exact Or.inl ⟨⟨k, by omega, h2, hk⟩, Loop.leaves_of_round hstep hl⟩
      · refine Or.inr ⟨fun k h1 h2 => ?_, Loop.leaves_of_round hstep hl⟩
        rcases Nat.eq_or_lt_of_le h1 with rfl | hlt
        · exact heq
        · exact hall k hlt h2

/-- A range that ends with the last 64-bit number has no end for the loop. -/
theorem not_leaves_zero (hneq : neq ≠ 0) {i : ℕ} {a b : BlockBitmap} (hi : i < 2 ^ 64)
    (ha : AnswersLike bm1 a) (hb : AnswersLike bm2 b) :
    ¬Loop.Leaves (compareStep neq (2 ^ 64 - 1)) (i, a, b) 0 := by
  intro h
  obtain ⟨s', hreach, hlast⟩ := Loop.exists_last_of_leaves h
  have hinv : s'.1 < 2 ^ 64 ∧ AnswersLike bm1 s'.2.1 ∧ AnswersLike bm2 s'.2.2 := by
    refine Loop.invariant (P := fun s => s.1 < 2 ^ 64 ∧ AnswersLike bm1 s.2.1 ∧
      AnswersLike bm2 s.2.2) (fun s t hs hround => ?_) hreach ⟨hi, ha, hb⟩
    obtain ⟨hlt, ha, hb⟩ := hs
    rw [Loop.Round] at hround
    rcases @compareStep_of_le bm1 bm2 neq _ _ _ _ ha hb (Nat.le_sub_one_of_lt hlt) with ⟨-, hstep⟩ |
      ⟨-, a', b', ha', hb', hstep⟩
    · exact absurd (hstep.symm.trans hround) (by simp)
    · cases hstep.symm.trans hround
      exact ⟨Nat.mod_lt _ (by norm_num), ha', hb'⟩
  obtain ⟨hlt, ha, hb⟩ := hinv
  rcases @compareStep_of_le bm1 bm2 neq _ _ _ _ ha hb (Nat.le_sub_one_of_lt hlt) with ⟨-, hstep⟩ |
    ⟨-, a', b', -, -, hstep⟩
  · exact hneq (Sum.inr.inj (hstep.symm.trans hlast))
  · exact absurd (hstep.symm.trans hlast) (by simp)

/-- **When `0` is returned.** -/
theorem compares_zero_iff (hneq : neq ≠ 0) (h1 : bm1.Sound) (h2 : bm2.Sound)
    (hlast : bm1.last < 2 ^ 64) : Compares neq bm1 bm2 0 ↔
      bm1.first = bm2.first ∧ bm1.last = bm2.last ∧
        ¬(bm1.last = 2 ^ 64 - 1 ∨ SeenDiffer bm1 bm2) := by
  rw [Compares]
  by_cases hsame : bm1.first ≠ bm2.first ∨ bm1.last ≠ bm2.last
  · rw [if_pos hsame]
    constructor
    · exact fun h => absurd h.symm hneq
    · rintro ⟨hfirst, hend, -⟩
      rcases hsame with hne | hne
      · exact absurd hfirst hne
      · exact absurd hend hne
  · rw [if_neg hsame]
    push Not at hsame
    have ha := AnswersLike.refl h1
    have hb := AnswersLike.refl h2
    by_cases htop : bm1.last = 2 ^ 64 - 1
    · refine ⟨fun h => absurd h ?_, fun h => absurd (Or.inl htop) h.2.2⟩
      rw [htop]
      exact not_leaves_zero hneq (Nat.mod_lt _ (by norm_num)) ha hb
    · rcases @compareLoop bm1 bm2 neq _ (show bm1.last + 1 < 2 ^ 64 by omega) _ _ _ _ ha hb rfl with
        ⟨hdiff, hl⟩ | ⟨hall, hl⟩
      · exact ⟨fun h => absurd (Loop.leaves_unique hl h) hneq,
          fun h => absurd (Or.inr hdiff) h.2.2⟩
      · refine ⟨fun _ => ⟨hsame.1, hsame.2, ?_⟩, fun _ => hl⟩
        rintro (htop' | ⟨k, hk1, hk2, hne⟩)
        · exact htop htop'
        · exact hne (hall k hk1 hk2)

theorem comparesEqual_iff_of_sound (hneq : neq ≠ 0) (h1 : bm1.Sound) (h2 : bm2.Sound)
    (hlast : bm1.last < 2 ^ 64) :
    ComparesEqual neq bm1 bm2 ↔ (bm1.first = bm2.first → bm1.last = bm2.last →
      (BitsDiffer bm1 bm2 ↔ bm1.last = 2 ^ 64 - 1 ∨ SeenDiffer bm1 bm2)) := by
  rw [ComparesEqual, compares_zero_iff hneq h1 h2 hlast]
  constructor
  · intro h hfirst hend
    simp only [hfirst, hend, true_and] at h ⊢
    exact (not_iff_not.mp h).symm
  · intro h
    constructor
    · rintro ⟨hfirst, hend, hno⟩
      exact ⟨hfirst, hend, fun hdiff => hno ((h hfirst hend).mp hdiff)⟩
    · rintro ⟨hfirst, hend, hno⟩
      exact ⟨hfirst, hend, fun hseen => hno ((h hfirst hend).mpr hseen)⟩

/-- **The comparison is equality** exactly for bitmaps of different ranges and for those
whose bits differ where it is seen, or where the loop does not come to an end. -/
theorem comparesEqual_iff {bal : SearchTree RbExtent → List RbExtent → SearchTree RbExtent}
    (hbal : ∀ t l, (bal t l).inorder = l) (hneq : neq ≠ 0) (h64 : bm1.Is64) (h64' : bm2.Is64)
    (hreach : bm1.Reachable bal) (hreach' : bm2.Reachable bal) (hlast : bm1.last < 2 ^ 64) :
    ComparesEqual neq bm1 bm2 ↔ (bm1.first = bm2.first → bm1.last = bm2.last →
      (BitsDiffer bm1 bm2 ↔ bm1.last = 2 ^ 64 - 1 ∨ SeenDiffer bm1 bm2)) :=
  comparesEqual_iff_of_sound hneq (sound_of_reachable hbal h64 hreach)
    (sound_of_reachable hbal h64' hreach') hlast

/-- Two bitmaps of eight bits, all of which are looked at. -/
theorem comparesEqual_iff_eight_bits :
    ComparesEqual 1 (.ba 0 0 7 fun _ => 0) (.ba 0 0 7 fun _ => 1) ↔ (0 = 0 → 7 = 7 →
      (BitsDiffer (.ba 0 0 7 fun _ => 0) (.ba 0 0 7 fun _ => 1) ↔
        7 = 2 ^ 64 - 1 ∨ SeenDiffer (.ba 0 0 7 fun _ => 0) (.ba 0 0 7 fun _ => 1))) :=
  @comparesEqual_iff _ _ 1 (fun _ l => .ofList l) (fun _ l => SearchTree.inorder_ofList l)
    (by decide) trivial trivial trivial trivial (show 7 < 2 ^ 64 by norm_num)

theorem firstCompared_eq (hle : bm.first ≤ bm.last) (hlast : bm.last < 2 ^ 64) :
    firstCompared bm = bm.last - (bm.last - bm.first) % 8 := by
  have hmod : (bm.last + 2 ^ 64 - bm.first) % 2 ^ 64 = bm.last - bm.first := by
    rw [show bm.last + 2 ^ 64 - bm.first = bm.last - bm.first + 2 ^ 64 by omega,
      Nat.add_mod_right, Nat.mod_eq_of_lt (by omega)]
  have := Nat.mod_le (bm.last - bm.first) 8
  rw [firstCompared, hmod, show bm.last + 2 ^ 64 - (bm.last - bm.first) % 8 =
    bm.last - (bm.last - bm.first) % 8 + 2 ^ 64 by omega, Nat.add_mod_right,
    Nat.mod_eq_of_lt (by omega)]

/-- Without clusters a block number is the number of its bit. -/
theorem test_unclustered (h64 : bm.Is64) (hbits : bm.clusterBits = 0) {k : ℕ}
    (hfirst : bm.first ≤ k) (hlast : k ≤ bm.last) : bm.test k = bm.bit k := by
  cases bm with
  | legacy start bmapEnd realEnd b => cases h64
  | rb clusterBits start bmapEnd bp =>
    obtain rfl : clusterBits = 0 := hbits
    rw [BlockBitmap.test, Nat.shiftRight_zero]
    exact if_neg (not_or.mpr ⟨hfirst.not_gt, hlast.not_gt⟩)
  | ba clusterBits start bmapEnd b =>
    obtain rfl : clusterBits = 0 := hbits
    rw [BlockBitmap.test, Nat.shiftRight_zero]
    exact if_neg (not_or.mpr ⟨hfirst.not_gt, hlast.not_gt⟩)

/-- **Without clusters** the comparison is equality exactly for bitmaps that do not differ, or
differ in one of the last `(end - start) % 8 + 1` bits. -/
theorem comparesEqual_unclustered_iff
    {bal : SearchTree RbExtent → List RbExtent → SearchTree RbExtent}
    (hbal : ∀ t l, (bal t l).inorder = l) (hneq : neq ≠ 0) (h64 : bm1.Is64) (h64' : bm2.Is64)
    (hreach : bm1.Reachable bal) (hreach' : bm2.Reachable bal) (hbits : bm1.clusterBits = 0)
    (hbits' : bm2.clusterBits = 0) (hfirst : bm1.first = bm2.first) (hend : bm1.last = bm2.last)
    (hle : bm1.first ≤ bm1.last) (hlast : bm1.last < 2 ^ 64 - 1) :
    ComparesEqual neq bm1 bm2 ↔ (BitsDiffer bm1 bm2 →
      ∃ k, bm1.last - (bm1.last - bm1.first) % 8 ≤ k ∧ k ≤ bm1.last ∧ bm1.bit k ≠ bm2.bit k) := by
  have hbegin : bm1.first ≤ bm1.last - (bm1.last - bm1.first) % 8 := by omega
  have hseen : SeenDiffer bm1 bm2 ↔
      ∃ k, bm1.last - (bm1.last - bm1.first) % 8 ≤ k ∧ k ≤ bm1.last ∧ bm1.bit k ≠ bm2.bit k := by
    rw [SeenDiffer, firstCompared_eq hle (by omega)]
    refine exists_congr fun k => and_congr_right fun hk => and_congr_right fun hk' => ?_
    have hk₁ := hbegin.trans hk
    rw [test_unclustered h64 hbits hk₁ hk',
      test_unclustered h64' hbits' (hfirst ▸ hk₁) (hend ▸ hk')]
  rw [comparesEqual_iff_of_sound hneq (sound_of_reachable hbal h64 hreach)
    (sound_of_reachable hbal h64' hreach') (by omega), forall_prop_of_true hfirst,
    forall_prop_of_true hend, hseen, or_iff_right hlast.ne]
  refine ⟨fun h => h.mp, fun h => ⟨h, ?_⟩⟩
  rintro ⟨k, hk, hk', hne⟩
  exact ⟨k, hbegin.trans hk, hk', hne⟩

/-- Sixteen bits of which the first differs: only the last eight are looked at. -/
theorem not_comparesEqual_first_bit :
    ¬ComparesEqual 1 (.ba 0 0 15 fun _ => 0) (.ba 0 0 15 fun i => if i = 0 then 1 else 0) := by
  intro h
  have hzero : Compares 1 (.ba 0 0 15 fun _ => 0) (.ba 0 0 15 fun i => if i = 0 then 1 else 0) 0 :=
    ⟨10, by decide⟩
  exact (h.mp hzero).2.2 ⟨0, by decide, by decide, by decide⟩

end Compare

end E2fsprogs
