import E2fsprogs.Bitmap.Count
import E2fsprogs.Bitmap.Marked

/-!
# Marking and unmarking one number

`ext2fs_mark_generic_bmap` and `ext2fs_unmark_generic_bmap`. A number outside the bitmap is refused;
inside, the bit of its cluster is set or cleared, and nothing else changes.
-/

namespace E2fsprogs

namespace BlockBitmap

variable (bal : SearchTree RbExtent → List RbExtent → SearchTree RbExtent)

/-- `ext2fs_mark_generic_bmap`. -/
def mark (arg : ℕ) : BlockBitmap → BlockBitmap
  | rb clusterBits start bmapEnd bp =>
    if arg >>> clusterBits < start ∨ bmapEnd < arg >>> clusterBits then
      rb clusterBits start bmapEnd bp
    else rb clusterBits start bmapEnd (rbInsertExtent bal (arg >>> clusterBits - start) 1 bp).2
  | ba clusterBits start bmapEnd b =>
    if arg >>> clusterBits < start ∨ bmapEnd < arg >>> clusterBits then
      ba clusterBits start bmapEnd b
    else ba clusterBits start bmapEnd (baMark (arg >>> clusterBits - start) b).2
  | legacy start bmapEnd realEnd b =>
    if 2 ^ 32 ≤ arg then legacy start bmapEnd realEnd b
    else if arg < start ∨ bmapEnd < arg then legacy start bmapEnd realEnd b
    else legacy start bmapEnd realEnd (baMark (arg - start) b).2

/-- `ext2fs_unmark_generic_bmap`. -/
def unmark (arg : ℕ) : BlockBitmap → BlockBitmap
  | rb clusterBits start bmapEnd bp =>
    if arg >>> clusterBits < start ∨ bmapEnd < arg >>> clusterBits then
      rb clusterBits start bmapEnd bp
    else rb clusterBits start bmapEnd (rbRemoveExtent bal (arg >>> clusterBits - start) 1 bp).2
  | ba clusterBits start bmapEnd b =>
    if arg >>> clusterBits < start ∨ bmapEnd < arg >>> clusterBits then
      ba clusterBits start bmapEnd b
    else ba clusterBits start bmapEnd (baUnmark (arg >>> clusterBits - start) b).2
  | legacy start bmapEnd realEnd b =>
    if 2 ^ 32 ≤ arg then legacy start bmapEnd realEnd b
    else if arg < start ∨ bmapEnd < arg then legacy start bmapEnd realEnd b
    else legacy start bmapEnd realEnd (baUnmark (arg - start) b).2

/-- A bitmap that holds other bits: they are given, and the rest is as before. -/
structure Becomes (bm bm' : BlockBitmap) (bits : ℕ → Bool) : Prop where
  reach : bm'.Reachable bal
  shape : SameShape bm' bm
  bit : ∀ k, bm.first ≤ k → bm'.bit k = bits k

end BlockBitmap

open BlockBitmap

section Single

variable {bal : SearchTree RbExtent → List RbExtent → SearchTree RbExtent}
    {bm bm' bm'' : BlockBitmap} {arg : ℕ}
  {bits : ℕ → Bool}

/-- A bit is changed in a bitmap that holds other bits. -/
theorem BlockBitmap.Becomes.update {k : ℕ} {b : Bool} (h : Becomes bal bm bm' bits)
    (h' : Becomes bal bm' bm'' (Function.update bm'.bit k b)) :
    Becomes bal bm bm'' (Function.update bits k b) := by
  refine ⟨h'.reach, h'.shape.trans h.shape, fun j hj => ?_⟩
  rw [h'.bit j (by rw [h.shape.first]; exact hj), Function.update_apply,
    Function.update_apply, h.bit j hj]

theorem update_true_of_iff {k j : ℕ} {f : ℕ → Bool} {x : Bool} (h : x = true ↔ f k = true ∨ k = j) :
    x = Function.update f j true k := by
  rw [Bool.eq_iff_iff, h, Function.update_apply]
  split <;> simp [*]

theorem update_false_of_iff {k j : ℕ} {f : ℕ → Bool} {x : Bool}
    (h : x = true ↔ f k = true ∧ k ≠ j) :
    x = Function.update f j false k := by
  rw [Bool.eq_iff_iff, h, Function.update_apply]
  split <;> simp [*]

/-- **One number is marked.** -/
theorem mark_becomes (hbal : ∀ t l, (bal t l).inorder = l) (h : bm.Reachable bal)
    (hin : bm.BlockIn arg) :
    Becomes bal bm (bm.mark bal arg) (Function.update bm.bit (arg >>> bm.clusterBits) true) := by
  cases bm with
  | rb c start bmapEnd bp =>
    have hspec := @rbInsertExtent_spec bal bp (arg >>> c - start) 1 hbal (RbReachable.ok hbal h)
    have hlo : start ≤ arg >>> c := hin.1
    have hhi : arg >>> c ≤ bmapEnd := hin.2
    rw [BlockBitmap.mark, if_neg (by omega)]
    refine ⟨RbReachable.insert _ _ h, ⟨rfl, rfl, rfl⟩, fun k hk => update_true_of_iff ?_⟩
    change start ≤ k at hk
    change rbTest start _ k = true ↔ rbTest start bp k = true ∨ k = arg >>> c
    rw [rbTest_iff hspec.ok, hspec.marked, rbTest_iff (RbReachable.ok hbal h)]
    refine or_congr_right ?_
    omega
  | ba c start bmapEnd b =>
    have hlo : start ≤ arg >>> c := hin.1
    have hhi : arg >>> c ≤ bmapEnd := hin.2
    rw [BlockBitmap.mark, if_neg (by omega)]
    refine ⟨trivial, ⟨rfl, rfl, rfl⟩, fun k hk => update_true_of_iff ?_⟩
    change start ≤ k at hk
    refine bitAt_baMark.trans (or_congr_right ?_)
    show k - start = arg >>> c - start ↔ k = arg >>> c
    omega
  | legacy start bmapEnd realEnd b =>
    have hlo : start ≤ arg := hin.1
    have hhi : arg ≤ bmapEnd := hin.2
    obtain ⟨hreal, hlt, hend⟩ := h
    rw [BlockBitmap.mark, if_neg (by omega), if_neg (by omega)]
    refine ⟨⟨hreal, hlt, hend⟩, ⟨rfl, rfl, rfl⟩, fun k hk => update_true_of_iff ?_⟩
    change start ≤ k at hk
    refine bitAt_baMark.trans (or_congr_right ?_)
    show k - start = arg - start ↔ k = arg
    omega

/-- **One number is unmarked.** -/
theorem unmark_becomes (hbal : ∀ t l, (bal t l).inorder = l) (h : bm.Reachable bal)
    (hin : bm.BlockIn arg) :
    Becomes bal bm (bm.unmark bal arg) (Function.update bm.bit (arg >>> bm.clusterBits) false) := by
  cases bm with
  | rb c start bmapEnd bp =>
    have hspec := @rbRemoveExtent_spec bal bp (arg >>> c - start) 1 hbal (RbReachable.ok hbal h)
    have hlo : start ≤ arg >>> c := hin.1
    have hhi : arg >>> c ≤ bmapEnd := hin.2
    rw [BlockBitmap.unmark, if_neg (by omega)]
    refine ⟨RbReachable.remove _ _ h, ⟨rfl, rfl, rfl⟩, fun k hk => update_false_of_iff ?_⟩
    change start ≤ k at hk
    change rbTest start _ k = true ↔ rbTest start bp k = true ∧ k ≠ arg >>> c
    rw [rbTest_iff hspec.ok, hspec.marked, rbTest_iff (RbReachable.ok hbal h)]
    refine and_congr_right fun _ => ?_
    omega
  | ba c start bmapEnd b =>
    have hlo : start ≤ arg >>> c := hin.1
    have hhi : arg >>> c ≤ bmapEnd := hin.2
    rw [BlockBitmap.unmark, if_neg (by omega)]
    refine ⟨trivial, ⟨rfl, rfl, rfl⟩, fun k hk => update_false_of_iff ?_⟩
    change start ≤ k at hk
    refine bitAt_baUnmark.trans (and_congr_right fun _ => ?_)
    show k - start ≠ arg >>> c - start ↔ k ≠ arg >>> c
    omega
  | legacy start bmapEnd realEnd b =>
    have hlo : start ≤ arg := hin.1
    have hhi : arg ≤ bmapEnd := hin.2
    obtain ⟨hreal, hlt, hend⟩ := h
    rw [BlockBitmap.unmark, if_neg (by omega), if_neg (by omega)]
    refine ⟨⟨hreal, hlt, hend⟩, ⟨rfl, rfl, rfl⟩, fun k hk => update_false_of_iff ?_⟩
    change start ≤ k at hk
    refine bitAt_baUnmark.trans (and_congr_right fun _ => ?_)
    show k - start ≠ arg - start ↔ k ≠ arg
    omega

theorem test_of_blockIn (h : bm.Reachable bal) (hin : bm.BlockIn arg) :
    bm.test arg = bm.bit (arg >>> bm.clusterBits) := by
  have hnot : ¬(arg >>> bm.clusterBits < bm.first ∨ bm.last < arg >>> bm.clusterBits) := by
    rw [BlockIn] at hin
    omega
  cases bm with
  | rb c start bmapEnd bp => exact if_neg hnot
  | ba c start bmapEnd b => exact if_neg hnot
  | legacy start bmapEnd realEnd b =>
    have hhi : arg ≤ bmapEnd := hin.2
    obtain ⟨-, -, hend⟩ := h
    rw [BlockBitmap.test, if_neg (by omega)]
    exact if_neg hnot

/-- A number outside is refused. -/
theorem unmark_outside (hin : ¬bm.BlockIn arg) : bm.unmark bal arg = bm := by
  have hout : arg >>> bm.clusterBits < bm.first ∨ bm.last < arg >>> bm.clusterBits := by
    rw [BlockIn] at hin
    omega
  cases bm with
  | rb c start bmapEnd bp => exact if_pos hout
  | ba c start bmapEnd b => exact if_pos hout
  | legacy start bmapEnd realEnd b =>
    rw [BlockBitmap.unmark]
    split
    · rfl
    · exact if_pos hout

/-- A tree without nodes stays one. -/
theorem BlockBitmap.Empty.unmark (hbal : ∀ t l, (bal t l).inorder = l) (h : bm.Empty)
    (hreach : bm.Reachable bal) :
    (bm.unmark bal arg).Empty := by
  cases bm with
  | rb c start bmapEnd bp =>
    rw [BlockBitmap.unmark]
    split
    · exact h
    · have hspec :=
        @rbRemoveExtent_spec bal bp (arg >>> c - start) 1 hbal (RbReachable.ok hbal hreach)
      refine List.eq_nil_iff_forall_not_mem.mpr fun x hx => ?_
      have hmark := ((hspec.marked x.start).mp
        ⟨x, hx, le_refl _, Nat.lt_add_of_pos_right (hspec.ok.apart.pos x hx)⟩).1
      rw [show bp.nodes = [] from h] at hmark
      exact marked_nil hmark
  | ba c start bmapEnd b => cases h
  | legacy start bmapEnd realEnd b => cases h

end Single

end E2fsprogs
