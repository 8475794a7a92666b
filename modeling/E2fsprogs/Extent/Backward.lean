import E2fsprogs.Extent.Forward

/-!
# Going backward through an extent tree

The extents before the current entry are those before the entry above, and then the entries before
it in its node. A call with `EXT2_EXTENT_PREV_LEAF` returns the last of them, and a call with
`EXT2_EXTENT_LAST_LEAF` on a new handle the last of all.
-/

namespace E2fsprogs

section Backward

variable {fs : ExtentFs} {h : ExtentHandle} {l : ℕ}

/-! ### What has gone before -/

/-- The extents before the current entry in its node. -/
def leavesBefore (fs : ExtentFs) (d : ℕ) (p : ExtentPath) : List Extent :=
  (List.range p.index).flatMap (entryLeaves fs d p.buf)

/-- The extents gone before, from the root to a level. -/
def leavesGone (fs : ExtentFs) (h : ExtentHandle) : ℕ → List Extent
  | 0 => leavesBefore fs h.maxDepth (h.path 0)
  | l + 1 => leavesGone fs h l ++ leavesBefore fs (h.maxDepth - (l + 1)) (h.path (l + 1))

/-- **A handle that goes backward**: its path is sane. The number of visits of a leaf is not written
on the way back, so it has to be zero from the start. -/
structure GoesBackward (fs : ExtentFs) (h : ExtentHandle) (l : ℕ) : Prop where
  level : h.level = l
  le : l ≤ h.maxDepth
  path : ∀ j ≤ l, PathOk fs (h.maxDepth - j) (h.path j)
  leafVisit : (h.path h.maxDepth).visitNum = 0

theorem leavesGone_congr {h' : ExtentHandle} (hmax : h'.maxDepth = h.maxDepth)
    (hpath : ∀ j ≤ l, leavesBefore fs (h.maxDepth - j) (h'.path j) =
      leavesBefore fs (h.maxDepth - j) (h.path j)) :
    leavesGone fs h' l = leavesGone fs h l := by
  induction l with
  | zero =>
    have := hpath 0 (le_refl 0)
    rw [Nat.sub_zero] at this
    rw [leavesGone, leavesGone, hmax, this]
  | succ l ih =>
    rw [leavesGone, leavesGone, hmax, hpath (l + 1) (le_refl _), ih fun j hj => hpath j (by omega)]

theorem leavesGone_at {p : ExtentPath} {j : ℕ} (hjl : j < l) :
    leavesGone fs (h.at l p) j = leavesGone fs h j :=
  leavesGone_congr rfl fun i hi => by rw [at_path_of_ne (by omega)]

/-- Before the last entry. -/
theorem leavesOf_concat {d : ℕ} {p : ExtentPath} (hp : PathOk fs d p) (hleft : p.left = 0) :
    leavesOf fs d p.buf = leavesBefore fs d p ++ entryLeaves fs d p.buf p.index := by
  have hlt := hp.left
  have hidx : ehEntries p.buf = p.index + 1 := by
    rw [ExtentPath.index, ← hp.entries]
    omega
  rw [leavesOf_eq, hidx, flatMap_range_succ, leavesBefore]

/-- Before the entry before. -/
theorem leavesBefore_concat {d : ℕ} {p p' : ExtentPath} (hp : PathOk fs d p) (hp' : PathOk fs d p')
    (hbuf : p'.buf = p.buf) (hleft : p'.left = p.left + 1) :
    leavesBefore fs d p = leavesBefore fs d p' ++ entryLeaves fs d p'.buf p'.index := by
  have hidx : p.index = p'.index + 1 := by
    have h1 := hp'.left
    have h2 := hp.entries
    have h3 := hp'.entries
    rw [hbuf] at h3
    rw [ExtentPath.index, ExtentPath.index]
    omega
  rw [leavesBefore, hidx, flatMap_range_succ, leavesBefore, hbuf]

theorem leavesBefore_nil {d : ℕ} {p : ExtentPath} (h : p.index = 0) : leavesBefore fs d p = [] := by
  rw [leavesBefore, h, List.range_zero, List.flatMap_nil]

/-! ### The rounds -/

/-- What is left of a round once the move is made. -/
theorem getStep_prevLeaf_of_move {op' : ExtentOp} {h₀ h₁ : ExtentHandle} {ix : ℕ}
    (hchoose : chooseOp .prevLeaf h = .ok (op', h₀))
    (hmove : moveExtent fs .prevLeaf op' h₀ = ⟨h₁, .ok (some ix, false)⟩) :
    getStep fs .prevLeaf (h, false) = if h₁.level ≠ h₁.maxDepth then .inl (h₁, false)
      else .inr (.ok (h₁.extent ix), h₁) := by
  rw [getStep, hchoose]
  dsimp only
  rw [hmove]
  by_cases hd : h₁.level = h₁.maxDepth
  · simp [hd]
  · simp [hd]

theorem chooseOp_prevLeaf : chooseOp .prevLeaf h =
    if h.level < h.maxDepth ∧ 0 < h.here.visitNum then .ok (.downAndLast, h)
    else if h.here.left + 1 < h.here.entries then .ok (.prevSib, h)
    else if 0 < h.level then .ok (.up, h)
    else .error .noPrev := by
  rw [chooseOp, if_neg (by simp), if_pos (Or.inr rfl)]

/-- The path of a handle that has moved inside a level, or to one. -/
theorem GoesBackward.at {h₀ : ExtentHandle} {p : ExtentPath} (hl : l ≤ h₀.maxDepth)
    (hpath : ∀ j < l, PathOk fs (h₀.maxDepth - j) (h₀.path j)) (hp : PathOk fs (h₀.maxDepth - l) p)
    (hleaf : (h₀.path h₀.maxDepth).visitNum = 0) (hv : l = h₀.maxDepth → p.visitNum = 0) :
    GoesBackward fs (h₀.at l p) l := by
  refine ⟨rfl, hl, fun j hj => ?_, ?_⟩
  · by_cases hjl : j = l
    · rw [hjl, at_path_self]
      exact hp
    · rw [at_path_of_ne hjl]
      exact hpath j (by omega)
  · rw [at_maxDepth]
    by_cases hD : l = h₀.maxDepth
    · rw [← hD, at_path_self]
      exact hv hD
    · rw [at_path_of_ne (Ne.symm hD)]
      exact hleaf

/-- The round that goes down to the last entry. -/
theorem getStep_downAndLast (hb : GoesBackward fs h l) (hl : l < h.maxDepth)
    (hv : 0 < (h.path l).visitNum) :
    ∃ p, GoesBackward fs (h.at (l + 1) p) (l + 1) ∧ p.left = 0 ∧
      p.buf = childAt fs (h.path l).buf (h.path l).index ∧ (l + 1 < h.maxDepth → 0 < p.visitNum) ∧
      (l + 1 = h.maxDepth → p.visitNum = 0) ∧
      getStep fs .prevLeaf (h, false) = if l + 1 ≠ h.maxDepth then .inl (h.at (l + 1) p, false)
        else .inr (.ok ((h.at (l + 1) p).extent (entryAt p.index)), h.at (l + 1) p) := by
  have hhere : h.here = h.path l := by rw [ExtentHandle.here, hb.level]
  have hpok : PathOk fs (h.maxDepth - (l + 1) + 1) h.here := by
    rw [hhere, show h.maxDepth - (l + 1) + 1 = h.maxDepth - l by omega]
    exact hb.path l (le_refl l)
  obtain ⟨p, hmove, hp, hbuf, hleft, -, hvisit⟩ :=
    moveDown_eq true (by rw [hb.level]; exact hl) hpok
  rw [hhere] at hbuf
  rw [if_pos rfl] at hleft
  rw [if_pos rfl, hb.level] at hvisit
  rw [hb.level] at hmove
  have hlast : l + 1 = h.maxDepth → p.visitNum = 0 := by
    intro hD
    rw [hvisit, if_neg (by omega), hD]
    exact hb.leafVisit
  have hchoose : chooseOp .prevLeaf h = .ok (.downAndLast, h) := by
    rw [chooseOp_prevLeaf, hhere, hb.level, if_pos ⟨hl, hv⟩]
  refine ⟨p, GoesBackward.at hl (fun j hj => hb.path j (by omega)) hp hb.leafVisit hlast, hleft,
    hbuf, ?_, hlast, getStep_prevLeaf_of_move hchoose hmove⟩
  intro hlt
  rw [hvisit, if_pos hlt]
  exact Nat.one_pos

/-- The level has been dealt with, going backward. -/
def DoneBefore (h : ExtentHandle) (l : ℕ) : Prop := l = h.maxDepth ∨ (h.path l).visitNum = 0

theorem DoneBefore.not_down (hd : DoneBefore h l) :
    ¬(l < h.maxDepth ∧ 0 < (h.path l).visitNum) := by
  rintro ⟨hlt, hv⟩
  rcases hd with rfl | h0
  · exact lt_irrefl _ hlt
  · omega

/-- The round that goes to the entry before. -/
theorem getStep_prev (hb : GoesBackward fs h l) (hd : DoneBefore h l)
    (hleft : (h.path l).left + 1 < (h.path l).entries) :
    ∃ p, GoesBackward fs (h.at l p) l ∧ p.buf = (h.path l).buf ∧ p.left = (h.path l).left + 1 ∧
      (l < h.maxDepth → 0 < p.visitNum) ∧ (l = h.maxDepth → p.visitNum = 0) ∧
      getStep fs .prevLeaf (h, false) = if l ≠ h.maxDepth then .inl (h.at l p, false)
        else .inr (.ok ((h.at l p).extent (entryAt p.index)), h.at l p) := by
  have hhere : h.here = h.path l := by rw [ExtentHandle.here, hb.level]
  have hpok : PathOk fs (h.maxDepth - l) h.here := hhere ▸ hb.path l (le_refl l)
  obtain ⟨p, hmove, hp, hbuf, hleft', hv⟩ := movePrevSib_eq hpok (hhere ▸ hleft)
  rw [hhere] at hbuf hleft'
  rw [hb.level] at hmove
  rw [hhere, hb.level] at hv
  have hlast : l = h.maxDepth → p.visitNum = 0 := by
    intro hD
    rw [hv, if_neg (by omega), hD]
    exact hb.leafVisit
  have hchoose : chooseOp .prevLeaf h = .ok (.prevSib, h) := by
    rw [chooseOp_prevLeaf, hhere, hb.level, if_neg hd.not_down, if_pos hleft]
  refine ⟨p, GoesBackward.at hb.le (fun j hj => hb.path j hj.le) hp hb.leafVisit hlast, hbuf,
    hleft', ?_, hlast, getStep_prevLeaf_of_move hchoose hmove⟩
  intro hlt
  rw [hv, if_pos hlt]
  exact Nat.one_pos

/-- The round that goes up. -/
theorem getStep_prev_up (hb : GoesBackward fs h (l + 1)) (hd : DoneBefore h (l + 1))
    (hleft : ¬(h.path (l + 1)).left + 1 < (h.path (l + 1)).entries) :
    ∃ p, GoesBackward fs (h.at l p) l ∧ p.buf = (h.path l).buf ∧ p.index = (h.path l).index ∧
    p.visitNum = 0 ∧
      getStep fs .prevLeaf (h, false) = .inl (h.at l p, false) := by
  have hhere : h.here = h.path (l + 1) := by rw [ExtentHandle.here, hb.level]
  have hpok : PathOk fs (h.maxDepth - l) (h.path l) := hb.path l (Nat.le_succ l)
  obtain ⟨p, hmove, hp, hbuf, hleft', -, hv⟩ := @moveUp_eq fs h _ l .prevLeaf hb.level hpok
  rw [if_pos (Or.inr rfl)] at hv
  have hchoose : chooseOp .prevLeaf h = .ok (.up, h) := by
    rw [chooseOp_prevLeaf, hhere, hb.level, if_neg hd.not_down, if_neg hleft,
      if_pos (Nat.succ_pos l)]
  have hlt : l < h.maxDepth := hb.le
  have hmove' : moveExtent fs .prevLeaf .up h = ⟨h.at l p, .ok (some (entryAt p.index), false)⟩ :=
    hmove
  have hstep := getStep_prevLeaf_of_move hchoose hmove'
  rw [at_level, at_maxDepth, if_pos (Nat.ne_of_lt hlt)] at hstep
  refine ⟨p, GoesBackward.at hlt.le (fun j hj => hb.path j (by omega)) hp hb.leafVisit fun _ => hv,
    hbuf, ?_, hv, hstep⟩
  rw [ExtentPath.index, ExtentPath.index, hp.entries, hbuf, ← hpok.entries, hleft']

/-- The round that finds nothing before. -/
theorem getStep_noPrev (hb : GoesBackward fs h 0) (hd : DoneBefore h 0)
    (hleft : ¬(h.path 0).left + 1 < (h.path 0).entries) :
    getStep fs .prevLeaf (h, false) = .inr (.error .noPrev, h) := by
  have hhere : h.here = h.path 0 := by rw [ExtentHandle.here, hb.level]
  rw [getStep, chooseOp_prevLeaf, hhere, hb.level, if_neg hd.not_down, if_neg hleft,
    if_neg (lt_irrefl 0)]

/-! ### To the leaf before -/

/-- Down from an entry: to the last extent below it. -/
theorem prevLeaf_of_down (hb : GoesBackward fs h l) (hl : l < h.maxDepth)
    (hv : 0 < (h.path l).visitNum) :
    ∃ x r h', entryLeaves fs (h.maxDepth - l) (h.path l).buf (h.path l).index = r ++ [x] ∧
      Loop.Leaves (getStep fs .prevLeaf) (h, false) (.ok x, h') ∧ GoesBackward fs h' h'.maxDepth ∧
      h'.maxDepth = h.maxDepth ∧ leavesGone fs h' h'.maxDepth = leavesGone fs h l ++ r := by
  -- the induction is on the number of levels below
  induction hn : h.maxDepth - (l + 1) generalizing h l with
  | zero =>
    obtain ⟨p, hb₁, hleft, hbuf, -, hv₁, hstep⟩ := getStep_downAndLast hb hl hv
    have hD : l + 1 = h.maxDepth := by omega
    have hp : PathOk fs 0 p := by
      have := hb₁.path (l + 1) (le_refl _)
      rwa [at_path_self, at_maxDepth, ← hD, Nat.sub_self] at this
    rw [if_neg (fun hc => hc hD), extent_leaf hD (hv₁ hD)] at hstep
    refine ⟨leafAt p.buf p.index, leavesBefore fs 0 p, h.at (l + 1) p, ?_,
      Loop.leaves_of_inr hstep, ?_, rfl, ?_⟩
    · rw [show h.maxDepth - l = 0 + 1 by omega]
      show leavesOf fs 0 (childAt fs _ _) = _
      rw [← hbuf, leavesOf_concat hp hleft]
      rfl
    · rw [at_maxDepth, ← hD]
      exact hb₁
    · rw [at_maxDepth, ← hD, leavesGone, at_path_self, at_maxDepth,
        leavesGone_at (Nat.lt_succ_self l), ← hD, Nat.sub_self]
  | succ n ih =>
    obtain ⟨p, hb₁, hleft, hbuf, hv₁, -, hstep⟩ := getStep_downAndLast hb hl hv
    rw [if_pos (by omega)] at hstep
    obtain ⟨x, r, h', hfirst, hleaves, hb', hmax', hgone'⟩ :=
      ih hb₁ (by rw [at_maxDepth]; omega) (by rw [at_path_self]; exact hv₁ (by omega))
        (by rw [at_maxDepth]; omega)
    have hp : PathOk fs (h.maxDepth - (l + 1)) p := by
      have := hb₁.path (l + 1) (le_refl _)
      rwa [at_path_self, at_maxDepth] at this
    rw [at_maxDepth, at_path_self] at hfirst
    refine ⟨x, leavesBefore fs (h.maxDepth - (l + 1)) p ++ r, h', ?_,
      Loop.leaves_of_round hstep hleaves, hb', hmax', ?_⟩
    · rw [show h.maxDepth - l = h.maxDepth - (l + 1) + 1 by omega]
      show leavesOf fs _ (childAt fs _ _) = _
      rw [← hbuf, leavesOf_concat hp hleft, hfirst, List.append_assoc]
    · rw [hgone', leavesGone, at_path_self, at_maxDepth, leavesGone_at (Nat.lt_succ_self l),
        List.append_assoc]

/-- On a leaf, with these extents to come on the way back. -/
def OnLeafBack (fs : ExtentFs) (h : ExtentHandle) (xs : List Extent) : Prop :=
  GoesBackward fs h h.maxDepth ∧ (leavesGone fs h h.maxDepth).reverse = xs

/-- To the entry before and down from it. -/
theorem prevLeaf_of_sib (hb : GoesBackward fs h l) (hd : DoneBefore h l)
    (hleft : (h.path l).left + 1 < (h.path l).entries) :
    Returns fs .prevLeaf .noPrev (OnLeafBack fs) h (leavesGone fs h l).reverse := by
  obtain ⟨p, hb₁, hbuf, hleft₁, hv, hv₁, hstep⟩ := getStep_prev hb hd hleft
  have hp : PathOk fs (h.maxDepth - l) p := by
    have := hb₁.path l (le_refl l)
    rwa [at_path_self] at this
  have hgone : leavesGone fs h l =
      leavesGone fs (h.at l p) l ++ entryLeaves fs (h.maxDepth - l) p.buf p.index := by
    have hbefore := leavesBefore_concat (hb.path l (le_refl l)) hp hbuf hleft₁
    cases l with
    | zero =>
      rw [Nat.sub_zero] at hbefore
      rw [leavesGone, hbefore, leavesGone, at_path_self, at_maxDepth, Nat.sub_zero]
    | succ l =>
      rw [leavesGone, hbefore, leavesGone, at_path_self, at_maxDepth, List.append_assoc,
        leavesGone_at (Nat.lt_succ_self l)]
  by_cases hD : l = h.maxDepth
  · rw [if_neg (fun hc => hc hD), extent_leaf hD (hv₁ hD)] at hstep
    rw [hgone, List.reverse_append, hD, Nat.sub_self]
    rw [hD] at hstep hb₁
    exact ⟨h.at h.maxDepth p, Loop.leaves_of_inr hstep, hb₁, rfl⟩
  · rw [if_pos hD] at hstep
    have hlt : l < h.maxDepth := lt_of_le_of_ne hb.le hD
    obtain ⟨x, r, h', hlast, hleaves, hb', hmax', hgone'⟩ :=
      prevLeaf_of_down hb₁ hlt (by rw [at_path_self]; exact hv hlt)
    rw [at_maxDepth, at_path_self] at hlast
    rw [hgone, hlast, List.reverse_append, List.reverse_append]
    refine ⟨h', Loop.leaves_of_round hstep hleaves, hb', ?_⟩
    rw [hgone', List.reverse_append]
    rfl

/-- **The leaf before**: what has gone last is returned. -/
theorem prevLeaf_returns (hb : GoesBackward fs h l) (hd : DoneBefore h l) :
    Returns fs .prevLeaf .noPrev (OnLeafBack fs) h (leavesGone fs h l).reverse := by
  induction l generalizing h with
  | zero =>
    by_cases hleft : (h.path 0).left + 1 < (h.path 0).entries
    · exact prevLeaf_of_sib hb hd hleft
    · rw [leavesGone, leavesBefore_nil (by rw [ExtentPath.index]; omega)]
      exact ⟨h, Loop.leaves_of_inr (getStep_noPrev hb hd hleft)⟩
  | succ l ih =>
    by_cases hleft : (h.path (l + 1)).left + 1 < (h.path (l + 1)).entries
    · exact prevLeaf_of_sib hb hd hleft
    · obtain ⟨p, hb₁, hbuf, hidx, hv, hstep⟩ := getStep_prev_up hb hd hleft
      have hgone : leavesGone fs (h.at l p) l = leavesGone fs h l := by
        refine leavesGone_congr rfl fun j hj => ?_
        by_cases hjl : j = l
        · rw [hjl, at_path_self, leavesBefore, leavesBefore, hidx, hbuf]
        · rw [at_path_of_ne hjl]
      rw [leavesGone, leavesBefore_nil (by rw [ExtentPath.index]; omega), List.append_nil, ← hgone]
      exact Returns.of_round hstep (ih hb₁ (Or.inr (by rw [at_path_self]; exact hv)))

end Backward

end E2fsprogs
