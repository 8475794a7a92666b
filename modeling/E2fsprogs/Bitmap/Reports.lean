import E2fsprogs.Bitmap.Resize

/-!
# What marking and unmarking a bit report

`mark_bmap` and `unmark_bmap` return the old value of the bit. In a tree of extents the value is
what the loops of `rb_insert_extent` and `rb_remove_extent` leave: the loop that deletes to the
right stops at a run that begins behind the range, and takes one that begins right at its end for a
run it cuts, although nothing is left to be cut from it.
-/

namespace E2fsprogs

/-- The trees that the operations of `blkmap64_rb.c` lead to. Every one of them marks with
`rb_insert_extent` and unmarks with `rb_remove_extent`. -/
inductive RbReachable (bal : SearchTree RbExtent → List RbExtent → SearchTree RbExtent) :
    RbPrivate → Prop
  | new : RbReachable bal RbPrivate.empty
  | insert {bp : RbPrivate} (start count : ℕ) : RbReachable bal bp →
    RbReachable bal (rbInsertExtent bal start count bp).2
  | remove {bp : RbPrivate} (start count : ℕ) : RbReachable bal bp →
    RbReachable bal (rbRemoveExtent bal start count bp).2
  | test {bp : RbPrivate} (bit : ℕ) : RbReachable bal bp → RbReachable bal (rbTestBit bit bp).2
  | clear {bp : RbPrivate} : RbReachable bal bp → RbReachable bal (rbClear bp)
  | copied {bp : RbPrivate} : RbReachable bal bp → RbReachable bal (rbCopy bal bp).1
  | copy {bp : RbPrivate} : RbReachable bal bp → RbReachable bal (rbCopy bal bp).2
  | resize {bp : RbPrivate} {start oldEnd newEnd : ℕ} (newRealEnd : ℕ) : RbReachable bal bp →
    start ≤ oldEnd →
      start ≤ newEnd → RbReachable bal (rbResize bal start oldEnd newEnd newRealEnd bp)

/-- `rb_mark_bmap`, for a bitmap from `start` on. -/
def rbMark (bal : SearchTree RbExtent → List RbExtent → SearchTree RbExtent) (start arg : ℕ)
    (bp : RbPrivate) :
    Bool × RbPrivate :=
  rbInsertExtent bal (arg - start) 1 bp

/-- `rb_unmark_bmap`. -/
def rbUnmark (bal : SearchTree RbExtent → List RbExtent → SearchTree RbExtent) (start arg : ℕ)
    (bp : RbPrivate) :
    Bool × RbPrivate :=
  rbRemoveExtent bal (arg - start) 1 bp

/-- Marking and unmarking a bit report its old value, in both back ends. -/
structure ReportsOld (bal : SearchTree RbExtent → List RbExtent → SearchTree RbExtent)
    (start arg : ℕ) (bp : RbPrivate) (b : Block) : Prop where
  rbMark : (rbMark bal start arg bp).1 = (rbTestBit (arg - start) bp).1
  rbUnmark : (rbUnmark bal start arg bp).1 = (rbTestBit (arg - start) bp).1
  baMark : (baMark (arg - start) b).1 = bitAt b (arg - start)
  baUnmark : (baUnmark (arg - start) b).1 = bitAt b (arg - start)

section Reports

variable {bal : SearchTree RbExtent → List RbExtent → SearchTree RbExtent} {bp : RbPrivate}
    {bit start arg : ℕ}

/-- **Every state that is reached is sound.** -/
theorem RbReachable.ok (hbal : ∀ t l, (bal t l).inorder = l) (h : RbReachable bal bp) : bp.Ok := by
  induction h with
  | new => exact RbPrivate.empty_ok
  | insert start count _ ih => exact (rbInsertExtent_spec hbal ih).ok
  | remove start count _ ih => exact (rbRemoveExtent_spec hbal ih).ok
  | test bit _ ih => exact (rbTestBit_spec ih).ok
  | clear _ ih => exact rbClear_spec.1
  | copied _ ih => exact (rbCopy_spec hbal ih).1.1
  | copy _ ih => exact (rbCopy_spec hbal ih).2.1
  | resize newRealEnd _ hold hnew ih => exact (rbResize_spec hbal ih hold hnew).1

/-- A run is touched by a bit that it holds, and by the bit before it. -/
theorem touched_one_iff {l : List RbExtent} (h : Apart l) :
    Touched bit 1 l ↔ Marked l bit ∨ Marked l (bit + 1) := by
  constructor
  · rintro ⟨x, hx, hlt, hle⟩
    have hpos := RbExtent.start_lt_stop (h.pos x hx)
    rcases Nat.lt_or_ge bit x.start with hbefore | hin
    · exact Or.inr ⟨x, hx, hle, by omega⟩
    · exact Or.inl ⟨x, hx, hin, hlt⟩
  · rintro (⟨x, hx, hbit⟩ | ⟨x, hx, hbit⟩)
    · exact ⟨x, hx, hbit.2, by omega⟩
    · exact ⟨x, hx, by omega, hbit.1⟩

/-- **Marking and unmarking report the old value of a bit exactly if the bit is set, or the one
behind it is not.** -/
theorem reportsOld_iff (hbal : ∀ t l, (bal t l).inorder = l) (h : RbReachable bal bp) (b : Block) :
    ReportsOld bal start arg bp b ↔
      ((rbTestBit (arg - start) bp).1 = true ∨ (rbTestBit (arg - start + 1) bp).1 = false) := by
  have hok := h.ok hbal
  have htest := (@rbTestBit_spec bp (arg - start) hok).answer
  have hnext := (@rbTestBit_spec bp (arg - start + 1) hok).answer
  have hmark := (@rbInsertExtent_spec bal bp (arg - start) 1 hbal hok).was Nat.one_pos
  have hunmark := (@rbRemoveExtent_spec bal bp (arg - start) 1 hbal hok).was
  rw [touched_one_iff hok.apart, ← htest, ← hnext] at hunmark
  constructor
  · intro hold
    have hun := hold.rbUnmark
    rw [rbUnmark, Bool.eq_iff_iff, hunmark] at hun
    rcases Bool.eq_false_or_eq_true (rbTestBit (arg - start + 1) bp).1 with hset | hclear
    · exact Or.inl (hun.mp (Or.inr hset))
    · exact Or.inr hclear
  · intro hcond
    refine ⟨Bool.eq_iff_iff.mpr (hmark.trans htest.symm), ?_, rfl, rfl⟩
    rw [rbUnmark, Bool.eq_iff_iff, hunmark]
    refine or_iff_left_of_imp fun hset => ?_
    exact hcond.resolve_right (by rw [hset]; exact Bool.noConfusion)

/-- A run from 5 on. -/
def markedAtFive : RbPrivate := (rbMark (fun _ l => .ofList l) 0 5 RbPrivate.empty).2

theorem not_reportsOld_before_run :
    RbReachable (fun _ l => .ofList l) markedAtFive ∧
    ¬ReportsOld (fun _ l => .ofList l) 0 4 markedAtFive fun _ => 0 :=
  ⟨.insert 5 1 .new, fun h => absurd h.rbUnmark (by decide)⟩

theorem reportsOld_markedAtFive : ReportsOld (fun _ l => .ofList l) 0 5 markedAtFive fun _ => 0 :=
  (reportsOld_iff (fun _ l => SearchTree.inorder_ofList l) (.insert 5 1 .new) _).mpr
    (Or.inl (by decide))

end Reports

end E2fsprogs
