import E2fsprogs.Extent.Tree

/-!
# Going forward through an extent tree

What is still to come after the current entry is the entries behind it in its node, and then what is
to come after the entry above. A call with `EXT2_EXTENT_NEXT_LEAF` returns the first extent of that,
and a call with `EXT2_EXTENT_NEXT` the first entry of the walk round it.
-/

namespace E2fsprogs

section Forward

variable {fs : ExtentFs} {h : ExtentHandle} {l : ℕ}

/-! ### What is to come -/

/-- The extents behind the current entry in its node. -/
def leavesBehind (fs : ExtentFs) (d : ℕ) (p : ExtentPath) : List Extent :=
  (List.range' (p.index + 1) p.left).flatMap (entryLeaves fs d p.buf)

/-- The extents to come, from a level on. -/
def leavesToCome (fs : ExtentFs) (h : ExtentHandle) : ℕ → List Extent
  | 0 => leavesBehind fs h.maxDepth (h.path 0)
  | l + 1 => leavesBehind fs (h.maxDepth - (l + 1)) (h.path (l + 1)) ++ leavesToCome fs h l

/-- The walk round the entries behind the current one. -/
def visitsBehind (fs : ExtentFs) (d : ℕ) (p : ExtentPath) : List Extent :=
  (List.range' (p.index + 1) p.left).flatMap (entryVisits fs d p.buf p.endBlk)

/-- The walk to come, from a level on: the entry above is visited again. -/
def visitsToCome (fs : ExtentFs) (h : ExtentHandle) : ℕ → List Extent
  | 0 => visitsBehind fs h.maxDepth (h.path 0)
  | l + 1 => visitsBehind fs (h.maxDepth - (l + 1)) (h.path (l + 1)) ++
      indexAt (h.path l).buf (h.path l).endBlk (h.path l).index true :: visitsToCome fs h l

/-- **A handle that goes forward**: its path is sane, and what is above the current level has been
visited. -/
structure GoesForward (fs : ExtentFs) (h : ExtentHandle) (l : ℕ) : Prop where
  level : h.level = l
  le : l ≤ h.maxDepth
  path : ∀ j ≤ l, PathOk fs (h.maxDepth - j) (h.path j)
  visited : ∀ j < l, (h.path j).visitNum ≠ 0

/-- What is to come depends on the path only. -/
theorem leavesToCome_congr {h' : ExtentHandle} (hmax : h'.maxDepth = h.maxDepth)
    (hpath : ∀ j ≤ l, leavesBehind fs (h.maxDepth - j) (h'.path j) =
      leavesBehind fs (h.maxDepth - j) (h.path j)) :
    leavesToCome fs h' l = leavesToCome fs h l := by
  induction l with
  | zero =>
    have := hpath 0 (le_refl 0)
    rw [Nat.sub_zero] at this
    rw [leavesToCome, leavesToCome, hmax, this]
  | succ l ih =>
    rw [leavesToCome, leavesToCome, hmax, hpath (l + 1) (le_refl _),
      ih fun j hj => hpath j (by omega)]

/-- Behind the first entry. -/
theorem leavesOf_cons {d : ℕ} {p : ExtentPath} (hp : PathOk fs d p) (h0 : p.index = 0) :
    leavesOf fs d p.buf = entryLeaves fs d p.buf 0 ++ leavesBehind fs d p := by
  have hleft := hp.left
  rw [ExtentPath.index] at h0
  rw [leavesOf_eq, List.range_eq_range',
    show ehEntries p.buf = p.left + 1 by
      rw [← hp.entries]; omega, flatMap_range'_succ, leavesBehind, ExtentPath.index, h0]

/-- Behind the next entry. -/
theorem leavesBehind_cons {d : ℕ} {p p' : ExtentPath} (hp : PathOk fs d p) (hp' : PathOk fs d p')
    (hbuf : p'.buf = p.buf) (hleft : p'.left + 1 = p.left) :
    leavesBehind fs d p = entryLeaves fs d p'.buf p'.index ++ leavesBehind fs d p' := by
  have hidx : p'.index = p.index + 1 := by
    have h1 := hp.left
    have h2 := hp.entries
    have h3 := hp'.entries
    rw [hbuf] at h3
    rw [ExtentPath.index, ExtentPath.index]
    omega
  rw [leavesBehind, ← hleft, flatMap_range'_succ, leavesBehind, hidx, hbuf]

theorem leavesBehind_nil {d : ℕ} {p : ExtentPath} (h : p.left = 0) : leavesBehind fs d p = [] := by
  rw [leavesBehind, h, List.range'_zero, List.flatMap_nil]

theorem visitsOf_cons {d : ℕ} {p : ExtentPath} (hp : PathOk fs d p) (h0 : p.index = 0) :
    visitsOf fs d p.buf p.endBlk = entryVisits fs d p.buf p.endBlk 0 ++ visitsBehind fs d p := by
  have hleft := hp.left
  rw [ExtentPath.index] at h0
  rw [visitsOf_eq, List.range_eq_range',
    show ehEntries p.buf = p.left + 1 by
      rw [← hp.entries]; omega, flatMap_range'_succ, visitsBehind, ExtentPath.index, h0]

theorem visitsBehind_cons {d : ℕ} {p p' : ExtentPath} (hp : PathOk fs d p) (hp' : PathOk fs d p')
    (hbuf : p'.buf = p.buf) (hleft : p'.left + 1 = p.left) (hend : p'.endBlk = p.endBlk) :
    visitsBehind fs d p = entryVisits fs d p'.buf p'.endBlk p'.index ++ visitsBehind fs d p' := by
  have hidx : p'.index = p.index + 1 := by
    have h1 := hp.left
    have h2 := hp.entries
    have h3 := hp'.entries
    rw [hbuf] at h3
    rw [ExtentPath.index, ExtentPath.index]
    omega
  rw [visitsBehind, ← hleft, flatMap_range'_succ, visitsBehind, hidx, hbuf, hend]

theorem visitsBehind_nil {d : ℕ} {p : ExtentPath} (h : p.left = 0) : visitsBehind fs d p = [] := by
  rw [visitsBehind, h, List.range'_zero, List.flatMap_nil]

/-! ### The extent of an entry -/

theorem extent_leaf {p : ExtentPath} (hl : l = h.maxDepth) (hv : p.visitNum = 0) (k : ℕ) :
    (h.at l p).extent (entryAt k) = leafAt p.buf k := by
  rw [ExtentHandle.extent, at_level, at_maxDepth, if_pos hl, at_here, leafAt, hv]
  rfl

theorem extent_index {d : ℕ} {p : ExtentPath} (hl : l ≠ h.maxDepth) (hp : PathOk fs d p) :
    (h.at l p).extent (entryAt p.index) = indexAt p.buf p.endBlk p.index
      (decide (p.visitNum ≠ 0)) := by
  have hleft := hp.left
  have hnext : entryAt p.index + 12 = entryAt (p.index + 1) := by
    rw [entryAt, entryAt]
    omega
  have hend : (if 0 < p.left then eiBlock p.buf (entryAt p.index + 12) else p.endBlk) =
      entryEnd p.buf p.endBlk p.index := by
    rw [entryEnd, hnext, ← hp.entries, ExtentPath.index]
    by_cases h0 : 0 < p.left
    · rw [if_pos h0, if_pos (by omega)]
    · rw [if_neg h0, if_neg (by omega)]
  rw [ExtentHandle.extent, at_level, at_maxDepth, if_neg hl, at_here]
  dsimp only
  rw [hend, indexAt]

/-! ### To the next leaf -/

/-- The round that goes down. -/
theorem getStep_down {op : ExtentOp} (hop : op = .next ∨ op = .nextLeaf) (hf : GoesForward fs h l)
    (hl : l < h.maxDepth) (hv : (h.path l).visitNum = 0) :
    ∃ p h', GoesForward fs h' (l + 1) ∧ h'.maxDepth = h.maxDepth ∧
    h'.path (l + 1) = p ∧ p.index = 0 ∧
      p.buf = childAt fs (h.path l).buf (h.path l).index ∧
      p.endBlk = entryEnd (h.path l).buf (h.path l).endBlk (h.path l).index ∧ p.visitNum = 0 ∧
      (∀ j < l, h'.path j = h.path j) ∧
      h'.path l = { h.path l with visitNum := 1 } ∧ ∃ h₀ : ExtentHandle, h' = h₀.at (l + 1) p ∧
      h₀.maxDepth = h.maxDepth ∧
      getStep fs op (h, false) = if op = .nextLeaf ∧ l + 1 ≠ h.maxDepth then .inl (h', false)
        else .inr (.ok (h'.extent (entryAt p.index)), h') := by
  obtain ⟨p₀, hp₀⟩ : ∃ p₀ : ExtentPath, p₀ = { h.path l with visitNum := 1 } := ⟨_, rfl⟩
  have hhere : h.here = h.path l := by rw [ExtentHandle.here, hf.level]
  have hpok : PathOk fs (h.maxDepth - (l + 1) + 1) (h.at l p₀).here := by
    rw [at_here, hp₀, show h.maxDepth - (l + 1) + 1 = h.maxDepth - l by omega]
    exact (hf.path l (le_refl l)).congr rfl rfl rfl rfl
  obtain ⟨p, hmove, hp, hbuf, hleft, hend, hvisit⟩ :=
    moveDown_eq false (h := h.at l p₀) (by exact hl) hpok
  rw [at_here] at hbuf hleft hend
  have hindex₀ : p₀.index = (h.path l).index := by rw [hp₀]; rfl
  have hindex : p.index = 0 := by
    rw [ExtentPath.index, hp.entries, hbuf, hleft]
    exact Nat.sub_self _
  rw [hindex₀] at hbuf hend
  -- the entry has not been visited yet, so the choice is to go down
  have hchoose : chooseOp op h = .ok (.down, h.at l p₀) := by
    rw [chooseOp, if_pos hop, hhere, hf.level, if_pos ⟨hl, hv⟩, hv, setPath_eq_at, hf.level, hp₀]
  refine ⟨p, (h.at l p₀).at (l + 1) p, ?_, rfl, at_path_self _ _ _, hindex, ?_, ?_, hvisit, ?_, ?_,
    h.at l p₀, rfl, rfl, ?_⟩
  · refine ⟨rfl, hl, fun j hj => ?_, fun j hj => ?_⟩
    · rcases Nat.lt_or_ge j (l + 1) with hlt | hge
      · rw [at_path_of_ne (by omega)]
        by_cases hjl : j = l
        · rw [hjl, at_path_self, hp₀]
          exact (hf.path l (le_refl l)).congr rfl rfl rfl rfl
        · rw [at_path_of_ne hjl]
          exact hf.path j (by omega)
      · rw [show j = l + 1 by omega, at_path_self]
        exact hp
    · rw [at_path_of_ne (by omega)]
      by_cases hjl : j = l
      · rw [hjl, at_path_self, hp₀]
        exact Nat.one_ne_zero
      · rw [at_path_of_ne hjl]
        exact hf.visited j (by omega)
  · rw [hbuf, hp₀]
  · rw [hend, hp₀]
  · exact fun j hj => by rw [at_path_of_ne (by omega), at_path_of_ne (by omega)]
  · rw [at_path_of_ne (by omega), at_path_self, hp₀]
  · rw [getStep, hchoose]
    dsimp only
    rw [moveExtent, hmove]
    dsimp only
    -- `EXT2_EXTENT_NEXT_LEAF` goes on until a leaf is reached
    rcases hop with rfl | rfl
    · rw [if_neg (by rintro ⟨h1 | h1, -⟩ <;> cases h1), if_neg (by rintro ⟨h1, -⟩; cases h1)]
      simp
    · by_cases hd : l + 1 = h.maxDepth
      · rw [if_neg (by simp [hd]), if_neg (by rintro ⟨h1, -⟩; cases h1)]
        simp [hd]
      · rw [if_pos ⟨Or.inl rfl, hd⟩]
        simp [hd]

/-- What is left of the round once the move is made. -/
theorem getStep_of_move {op op' : ExtentOp} {h₀ h₁ : ExtentHandle} {ix : ℕ}
    (hop : op = .next ∨ op = .nextLeaf) (hchoose : chooseOp op h = .ok (op', h₀))
    (hmove : moveExtent fs op op' h₀ = ⟨h₁, .ok (some ix, false)⟩) :
    getStep fs op (h, false) = if op = .nextLeaf ∧ h₁.level ≠ h₁.maxDepth then .inl (h₁, false)
      else .inr (.ok (h₁.extent ix), h₁) := by
  rw [getStep, hchoose]
  dsimp only
  rw [hmove]
  rcases hop with rfl | rfl
  · rfl
  · by_cases hd : h₁.level = h₁.maxDepth
    · simp [hd]
    · simp [hd]

/-- The level has been dealt with: it is the last one, or what is below the entry has been
visited. -/
def DoneBelow (h : ExtentHandle) (l : ℕ) : Prop := l = h.maxDepth ∨ (h.path l).visitNum ≠ 0

theorem DoneBelow.not_down (hd : DoneBelow h l) : ¬(l < h.maxDepth ∧ (h.path l).visitNum = 0) := by
  rintro ⟨hlt, hv⟩
  rcases hd with rfl | hne
  · exact lt_irrefl _ hlt
  · exact hne hv

/-- The round that goes to the next entry. -/
theorem getStep_next {op : ExtentOp} (hop : op = .next ∨ op = .nextLeaf) (hf : GoesForward fs h l)
    (hd : DoneBelow h l) (hleft : 0 < (h.path l).left) :
    ∃ p, GoesForward fs (h.at l p) l ∧ p.buf = (h.path l).buf ∧ p.left + 1 = (h.path l).left ∧
    p.visitNum = 0 ∧
      p.endBlk = (h.path l).endBlk ∧
      getStep fs op (h, false) = if op = .nextLeaf ∧ l ≠ h.maxDepth then .inl (h.at l p, false)
        else .inr (.ok ((h.at l p).extent (entryAt p.index)), h.at l p) := by
  have hhere : h.here = h.path l := by rw [ExtentHandle.here, hf.level]
  have hpok : PathOk fs (h.maxDepth - l) h.here := hhere ▸ hf.path l (le_refl l)
  obtain ⟨p, hmove, hp, hbuf, hleft', hv, hend⟩ := moveNextSib_eq hpok (hhere ▸ hleft)
  rw [hhere] at hbuf hleft' hend
  rw [hf.level] at hmove
  have hchoose : chooseOp op h = .ok (.nextSib, h) := by
    rw [chooseOp, if_pos hop, hhere, hf.level, if_neg hd.not_down, if_pos hleft]
  refine ⟨p, ⟨rfl, hf.le, fun j hj => ?_, fun j hj => ?_⟩, hbuf, hleft', hv, hend,
    getStep_of_move hop hchoose hmove⟩
  · by_cases hjl : j = l
    · rw [hjl, at_path_self]
      exact hp
    · rw [at_path_of_ne hjl]
      exact hf.path j hj
  · rw [at_path_of_ne (by omega)]
    exact hf.visited j hj

/-- The round that goes up. -/
theorem getStep_up {op : ExtentOp} (hop : op = .next ∨ op = .nextLeaf)
    (hf : GoesForward fs h (l + 1)) (hd : DoneBelow h (l + 1)) (hleft : (h.path (l + 1)).left = 0) :
    ∃ p, GoesForward fs (h.at l p) l ∧ p.buf = (h.path l).buf ∧ p.left = (h.path l).left ∧
    p.entries = (h.path l).entries ∧
      p.visitNum ≠ 0 ∧ p.endBlk = (h.path l).endBlk ∧
      getStep fs op (h, false) = if op = .nextLeaf then .inl (h.at l p, false)
        else .inr (.ok ((h.at l p).extent (entryAt p.index)), h.at l p) := by
  have hhere : h.here = h.path (l + 1) := by rw [ExtentHandle.here, hf.level]
  have hpok : PathOk fs (h.maxDepth - l) (h.path l) := hf.path l (Nat.le_succ l)
  obtain ⟨p, hmove, hp, hbuf, hleft', hend, hv⟩ := @moveUp_eq fs h _ l op hf.level hpok
  have hvis := hf.visited l (Nat.lt_succ_self l)
  have hv' : p.visitNum = (h.path l).visitNum := by
    rw [hv, if_neg]
    rcases hop with rfl | rfl <;> simp
  have hchoose : chooseOp op h = .ok (.up, h) := by
    rw [chooseOp, if_pos hop, hhere, hf.level, if_neg hd.not_down, hleft, if_neg (lt_irrefl 0),
      if_pos (Nat.succ_pos l)]
  have hlt : l < h.maxDepth := hf.le
  have hmove' : moveExtent fs op .up h = ⟨h.at l p, .ok (some (entryAt p.index), false)⟩ := hmove
  have hstep := getStep_of_move hop hchoose hmove'
  simp only [at_level, at_maxDepth, and_iff_left (Nat.ne_of_lt hlt)] at hstep
  refine ⟨p, ⟨rfl, hlt.le, fun j hj => ?_, fun j hj => ?_⟩, hbuf, hleft', ?_,
    by rw [hv']; exact hvis, hend, hstep⟩
  · by_cases hjl : j = l
    · rw [hjl, at_path_self]
      exact hp
    · rw [at_path_of_ne hjl]
      exact hf.path j (by omega)
  · rw [at_path_of_ne (by omega)]
    exact hf.visited j (by omega)
  · rw [hp.entries, hpok.entries, hbuf]

/-- The round that finds nothing more. -/
theorem getStep_noNext {op : ExtentOp} (hop : op = .next ∨ op = .nextLeaf) (hf : GoesForward fs h 0)
    (hd : DoneBelow h 0) (hleft : (h.path 0).left = 0) :
    getStep fs op (h, false) = .inr (.error .noNext, h) := by
  have hhere : h.here = h.path 0 := by rw [ExtentHandle.here, hf.level]
  rw [getStep, chooseOp, if_pos hop, hhere, hf.level, if_neg hd.not_down, hleft,
    if_neg (lt_irrefl 0), if_neg (lt_irrefl 0)]

/-! ### To the next leaf -/

/-- Down from an entry that has not been visited: to the first extent below it. -/
theorem nextLeaf_of_down (hf : GoesForward fs h l) (hl : l < h.maxDepth)
    (hv : (h.path l).visitNum = 0) :
    ∃ x r h', entryLeaves fs (h.maxDepth - l) (h.path l).buf (h.path l).index = x :: r ∧
      Loop.Leaves (getStep fs .nextLeaf) (h, false) (.ok x, h') ∧ GoesForward fs h' h'.maxDepth ∧
      h'.maxDepth = h.maxDepth ∧ leavesToCome fs h' h'.maxDepth = r ++ leavesToCome fs h l := by
  -- the induction is on the number of levels below
  induction hn : h.maxDepth - (l + 1) generalizing h l with
  | zero =>
    obtain ⟨p, h₁, hf₁, hmax₁, hpath₁, hidx, hbuf, -, hv₁, hkeep, hkeepl, h₀, rfl, hmax₀, hstep⟩ :=
      getStep_down (Or.inr rfl) hf hl hv
    have hD : l + 1 = h.maxDepth := by omega
    rw [if_neg (fun hc => hc.2 hD)] at hstep
    have hp : PathOk fs 0 p := by
      have := hf₁.path (l + 1) (le_refl _)
      rwa [hpath₁, hmax₁, ← hD, Nat.sub_self] at this
    have hcome : leavesToCome fs (h₀.at (l + 1) p) l = leavesToCome fs h l := by
      refine leavesToCome_congr hmax₁ fun j hj => ?_
      by_cases hjl : j = l
      · rw [hjl, hkeepl]
        rfl
      · rw [hkeep j (by omega)]
    refine ⟨leafAt p.buf 0, leavesBehind fs 0 p, h₀.at (l + 1) p, ?_, ?_, ?_, hmax₁, ?_⟩
    · rw [show h.maxDepth - l = 0 + 1 by omega]
      show leavesOf fs 0 (childAt fs _ _) = _
      rw [← hbuf, leavesOf_cons hp hidx]
      rfl
    · refine Loop.leaves_of_inr (hstep.trans ?_)
      rw [extent_leaf (hD.trans hmax₀.symm) hv₁, hidx]
    · rw [hmax₁, ← hD]
      exact hf₁
    · rw [hmax₁, ← hD, leavesToCome, hmax₁, hpath₁, hcome, ← hD, Nat.sub_self]
  | succ n ih =>
    obtain ⟨p, h₁, hf₁, hmax₁, hpath₁, hidx, hbuf, -, hv₁, hkeep, hkeepl, -, -, -, hstep⟩ :=
      getStep_down (Or.inr rfl) hf hl hv
    rw [if_pos ⟨rfl, by omega⟩] at hstep
    obtain ⟨x, r, h', hfirst, hleaves, hf', hmax', hcome'⟩ :=
      ih hf₁ (by omega) (by rw [hpath₁]; exact hv₁) (by omega)
    have hp : PathOk fs (h.maxDepth - (l + 1)) p := by
      have := hf₁.path (l + 1) (le_refl _)
      rwa [hpath₁, hmax₁] at this
    have hcome : leavesToCome fs h₁ l = leavesToCome fs h l := by
      refine leavesToCome_congr hmax₁ fun j hj => ?_
      by_cases hjl : j = l
      · rw [hjl, hkeepl]
        rfl
      · rw [hkeep j (by omega)]
    rw [hmax₁, hpath₁, hidx] at hfirst
    refine ⟨x, r ++ leavesBehind fs (h.maxDepth - (l + 1)) p, h', ?_,
      Loop.leaves_of_round hstep hleaves, hf', hmax'.trans hmax₁, ?_⟩
    · rw [show h.maxDepth - l = h.maxDepth - (l + 1) + 1 by omega]
      show leavesOf fs _ (childAt fs _ _) = _
      rw [← hbuf, leavesOf_cons hp hidx, hfirst]
      rfl
    · rw [hcome', leavesToCome, hmax₁, hpath₁, hcome, List.append_assoc]

/-- What a call returns when these extents are still to come, and what is to come after it. -/
def Returns (fs : ExtentFs) (op : ExtentOp) (e : ExtentErr) (P : ExtentHandle → List Extent → Prop)
    (h : ExtentHandle) :
    List Extent → Prop
  | [] => ∃ h', Loop.Leaves (getStep fs op) (h, false) (.error e, h')
  | x :: xs => ∃ h', Loop.Leaves (getStep fs op) (h, false) (.ok x, h') ∧ P h' xs

theorem Returns.of_round {op : ExtentOp} {e : ExtentErr} {P : ExtentHandle → List Extent → Prop}
    {h' : ExtentHandle} {xs : List Extent} (hstep : getStep fs op (h, false) = .inl (h', false))
    (hr : Returns fs op e P h' xs) :
    Returns fs op e P h xs := by
  cases xs with
  | nil =>
    obtain ⟨h'', hl⟩ := hr
    exact ⟨h'', Loop.leaves_of_round hstep hl⟩
  | cons x xs =>
    obtain ⟨h'', hl, hP⟩ := hr
    exact ⟨h'', Loop.leaves_of_round hstep hl, hP⟩

/-- On a leaf, with these extents to come. -/
def OnLeaf (fs : ExtentFs) (h : ExtentHandle) (xs : List Extent) : Prop :=
  GoesForward fs h h.maxDepth ∧ leavesToCome fs h h.maxDepth = xs

/-- The extents to come from the levels above do not depend on this one. -/
theorem leavesToCome_at {p : ExtentPath} {j : ℕ} (hjl : j < l) :
    leavesToCome fs (h.at l p) j = leavesToCome fs h j :=
  leavesToCome_congr rfl fun i hi => by rw [at_path_of_ne (by omega)]

/-- To the next entry and down from it. -/
theorem nextLeaf_of_sib (hf : GoesForward fs h l) (hd : DoneBelow h l)
    (hleft : 0 < (h.path l).left) :
    Returns fs .nextLeaf .noNext (OnLeaf fs) h (leavesToCome fs h l) := by
  obtain ⟨p, hf₁, hbuf, hleft₁, hv, -, hstep⟩ := getStep_next (Or.inr rfl) hf hd hleft
  have hp : PathOk fs (h.maxDepth - l) p := by
    have := hf₁.path l (le_refl l)
    rwa [at_path_self] at this
  have hcome : leavesToCome fs h l =
      entryLeaves fs (h.maxDepth - l) p.buf p.index ++ leavesToCome fs (h.at l p) l := by
    have hbehind := leavesBehind_cons (hf.path l (le_refl l)) hp hbuf hleft₁
    cases l with
    | zero =>
      rw [Nat.sub_zero] at hbehind
      rw [leavesToCome, hbehind, leavesToCome, at_path_self, at_maxDepth, Nat.sub_zero]
    | succ l =>
      rw [leavesToCome, hbehind, leavesToCome, at_path_self, at_maxDepth, List.append_assoc,
        leavesToCome_at (Nat.lt_succ_self l)]
  by_cases hD : l = h.maxDepth
  · rw [if_neg (fun hc => hc.2 hD), extent_leaf hD hv] at hstep
    rw [hcome, hD, Nat.sub_self]
    rw [hD] at hstep hf₁
    exact ⟨h.at h.maxDepth p, Loop.leaves_of_inr hstep, hf₁, rfl⟩
  · rw [if_pos ⟨rfl, hD⟩] at hstep
    have hlt : l < h.maxDepth := lt_of_le_of_ne hf.le hD
    obtain ⟨x, r, h', hfirst, hleaves, hf', hmax', hcome'⟩ :=
      nextLeaf_of_down hf₁ hlt (by rw [at_path_self]; exact hv)
    rw [at_maxDepth, at_path_self] at hfirst
    rw [hcome, hfirst]
    exact ⟨h', Loop.leaves_of_round hstep hleaves, hf', hcome'⟩

/-- **The next leaf**: what is to come next is returned. -/
theorem nextLeaf_returns (hf : GoesForward fs h l) (hd : DoneBelow h l) :
    Returns fs .nextLeaf .noNext (OnLeaf fs) h (leavesToCome fs h l) := by
  -- the induction is on the level: with nothing left in the node, the round goes up
  induction l generalizing h with
  | zero =>
    by_cases hleft : (h.path 0).left = 0
    · rw [leavesToCome, leavesBehind_nil hleft]
      exact ⟨h, Loop.leaves_of_inr (getStep_noNext (Or.inr rfl) hf hd hleft)⟩
    · exact nextLeaf_of_sib hf hd (Nat.pos_of_ne_zero hleft)
  | succ l ih =>
    by_cases hleft : (h.path (l + 1)).left = 0
    · obtain ⟨p, hf₁, hbuf, hleft₁, hentries, hv, -, hstep⟩ := getStep_up (Or.inr rfl) hf hd hleft
      rw [if_pos rfl] at hstep
      have hcome : leavesToCome fs (h.at l p) l = leavesToCome fs h l := by
        refine leavesToCome_congr rfl fun j hj => ?_
        by_cases hjl : j = l
        · rw [hjl, at_path_self, leavesBehind, leavesBehind, ExtentPath.index, ExtentPath.index,
            hentries, hleft₁, hbuf]
        · rw [at_path_of_ne hjl]
      rw [leavesToCome, leavesBehind_nil hleft, List.nil_append, ← hcome]
      exact Returns.of_round hstep (ih hf₁ (Or.inr (by rw [at_path_self]; exact hv)))
    · exact nextLeaf_of_sib hf hd (Nat.pos_of_ne_zero hleft)

/-! ### The walk -/

theorem visitsToCome_congr {h' : ExtentHandle} (hmax : h'.maxDepth = h.maxDepth)
    (hpath : ∀ j ≤ l, visitsBehind fs (h.maxDepth - j) (h'.path j) =
      visitsBehind fs (h.maxDepth - j) (h.path j))
    (hindex : ∀ j < l, indexAt (h'.path j).buf (h'.path j).endBlk (h'.path j).index true =
      indexAt (h.path j).buf (h.path j).endBlk (h.path j).index true) :
    visitsToCome fs h' l = visitsToCome fs h l := by
  induction l with
  | zero =>
    have := hpath 0 (le_refl 0)
    rw [Nat.sub_zero] at this
    rw [visitsToCome, visitsToCome, hmax, this]
  | succ l ih =>
    rw [visitsToCome, visitsToCome, hmax, hpath (l + 1) (le_refl _), hindex l (Nat.lt_succ_self l),
      ih (fun j hj => hpath j (by omega)) fun j hj => hindex j (by omega)]

/-- The walk to come from a handle: the current entry may still have to be visited from below. -/
def visitsPending (fs : ExtentFs) (h : ExtentHandle) (l : ℕ) : List Extent :=
  if l < h.maxDepth ∧ (h.path l).visitNum = 0 then
    visitsOf fs (h.maxDepth - (l + 1)) (childAt fs (h.path l).buf (h.path l).index)
        (entryEnd (h.path l).buf (h.path l).endBlk (h.path l).index) ++
      indexAt (h.path l).buf (h.path l).endBlk (h.path l).index true :: visitsToCome fs h l
  else visitsToCome fs h l

/-- In the middle of the walk, with this still to come. -/
def OnWalk (fs : ExtentFs) (h : ExtentHandle) (xs : List Extent) : Prop :=
  ∃ l, GoesForward fs h l ∧ visitsPending fs h l = xs

/-- An entry that has just been come to is the first of the walk round it. -/
theorem entryVisits_append {p : ExtentPath} (hp : PathOk fs (h.maxDepth - l) p)
    (hl : l ≤ h.maxDepth) (hv : p.visitNum = 0) :
    entryVisits fs (h.maxDepth - l) p.buf p.endBlk p.index ++ visitsToCome fs (h.at l p) l =
      (h.at l p).extent (entryAt p.index) :: visitsPending fs (h.at l p) l := by
  by_cases hD : l = h.maxDepth
  · rw [extent_leaf hD hv, visitsPending, at_maxDepth, if_neg (by omega), hD, Nat.sub_self]
    rfl
  · have hlt : l < h.maxDepth := lt_of_le_of_ne hl hD
    rw [extent_index hD hp, visitsPending, at_maxDepth, at_path_self, if_pos ⟨hlt, hv⟩, hv,
      show h.maxDepth - l = h.maxDepth - (l + 1) + 1 by omega]
    show indexAt p.buf p.endBlk p.index false :: (visitsOf fs (h.maxDepth - (l + 1)) _ _ ++ [_]) ++
      _ = _
    rw [List.cons_append, List.append_assoc]
    rfl

theorem visitsToCome_at {p : ExtentPath} {j : ℕ} (hjl : j < l) :
    visitsToCome fs (h.at l p) j = visitsToCome fs h j :=
  visitsToCome_congr rfl (fun i hi => by rw [at_path_of_ne (by omega)]) fun i hi => by
    rw [at_path_of_ne (by omega)]

/-- Down: the walk goes on with the first entry below. -/
theorem next_of_down (hf : GoesForward fs h l) (hl : l < h.maxDepth)
    (hv : (h.path l).visitNum = 0) :
    Returns fs .next .noNext (OnWalk fs) h (visitsPending fs h l) := by
  obtain ⟨p, h₁, hf₁, hmax₁, hpath₁, hidx, hbuf, hend, hv₁, hkeep, hkeepl, h₀, rfl, hmax₀, hstep⟩ :=
    getStep_down (Or.inl rfl) hf hl hv
  rw [if_neg (fun hc => by cases hc.1)] at hstep
  have hp : PathOk fs (h.maxDepth - (l + 1)) p := by
    have := hf₁.path (l + 1) (le_refl _)
    rwa [hpath₁, hmax₁] at this
  have hcome : visitsToCome fs (h₀.at (l + 1) p) l = visitsToCome fs h l := by
    refine visitsToCome_congr hmax₁ (fun j hj => ?_) fun j hj => by rw [hkeep j hj]
    by_cases hjl : j = l
    · rw [hjl, hkeepl]
      rfl
    · rw [hkeep j (by omega)]
  have hpending : visitsPending fs h l =
    entryVisits fs (h.maxDepth - (l + 1)) p.buf p.endBlk p.index ++
      visitsToCome fs (h₀.at (l + 1) p) (l + 1) := by
    have habove : indexAt ((h₀.at (l + 1) p).path l).buf ((h₀.at (l + 1) p).path l).endBlk
        ((h₀.at (l + 1) p).path l).index true = indexAt (h.path l).buf (h.path l).endBlk
          (h.path l).index true := by
      rw [hkeepl]
      rfl
    rw [visitsPending, if_pos ⟨hl, hv⟩, ← hbuf, ← hend, visitsOf_cons hp hidx, visitsToCome, hmax₁,
      hpath₁, habove, hcome, hidx, List.append_assoc]
  have hp₀ : PathOk fs (h₀.maxDepth - (l + 1)) p := by rw [hmax₀]; exact hp
  rw [hpending, ← hmax₀, entryVisits_append hp₀ (by omega) hv₁]
  exact ⟨_, Loop.leaves_of_inr hstep, l + 1, hf₁, rfl⟩

/-- To the next entry of the node. -/
theorem next_of_sib (hf : GoesForward fs h l) (hd : DoneBelow h l) (hleft : 0 < (h.path l).left) :
    Returns fs .next .noNext (OnWalk fs) h (visitsToCome fs h l) := by
  obtain ⟨p, hf₁, hbuf, hleft₁, hv, hend, hstep⟩ := getStep_next (Or.inl rfl) hf hd hleft
  rw [if_neg (fun hc => by cases hc.1)] at hstep
  have hp : PathOk fs (h.maxDepth - l) p := by
    have := hf₁.path l (le_refl l)
    rwa [at_path_self] at this
  have hcome : visitsToCome fs h l =
      entryVisits fs (h.maxDepth - l) p.buf p.endBlk p.index ++ visitsToCome fs (h.at l p) l := by
    have hbehind := visitsBehind_cons (hf.path l (le_refl l)) hp hbuf hleft₁ hend
    cases l with
    | zero =>
      rw [Nat.sub_zero] at hbehind
      rw [visitsToCome, hbehind, visitsToCome, at_path_self, at_maxDepth, Nat.sub_zero]
    | succ l =>
      rw [visitsToCome, hbehind, visitsToCome, at_path_self, at_maxDepth, List.append_assoc,
        visitsToCome_at (Nat.lt_succ_self l), at_path_of_ne (Nat.ne_of_lt (Nat.lt_succ_self l))]
  rw [hcome, entryVisits_append hp hf.le hv]
  exact ⟨_, Loop.leaves_of_inr hstep, l, hf₁, rfl⟩

/-- Up: the entry above is visited again. -/
theorem next_of_up (hf : GoesForward fs h (l + 1)) (hd : DoneBelow h (l + 1))
    (hleft : (h.path (l + 1)).left = 0) :
    Returns fs .next .noNext (OnWalk fs) h (visitsToCome fs h (l + 1)) := by
  obtain ⟨p, hf₁, hbuf, hleft₁, hentries, hv, hend, hstep⟩ := getStep_up (Or.inl rfl) hf hd hleft
  rw [if_neg (fun hc => by cases hc)] at hstep
  have hp : PathOk fs (h.maxDepth - l) p := by
    have := hf₁.path l (le_refl l)
    rwa [at_path_self] at this
  have hidx : p.index = (h.path l).index := by
    rw [ExtentPath.index, ExtentPath.index, hentries, hleft₁]
  have hcome : visitsToCome fs (h.at l p) l = visitsToCome fs h l := by
    refine visitsToCome_congr rfl (fun j hj => ?_) fun j hj => by
      rw [at_path_of_ne (Nat.ne_of_lt hj)]
    by_cases hjl : j = l
    · rw [hjl, at_path_self, visitsBehind, visitsBehind, hidx, hleft₁, hbuf, hend]
    · rw [at_path_of_ne hjl]
  have hD : l ≠ h.maxDepth := Nat.ne_of_lt hf.le
  rw [extent_index hD hp, decide_eq_true hv, hbuf, hend, hidx] at hstep
  rw [visitsToCome, visitsBehind_nil hleft, List.nil_append]
  refine ⟨_, Loop.leaves_of_inr hstep, l, hf₁, ?_⟩
  rw [visitsPending, at_path_self, if_neg (fun hc => hv hc.2), hcome]

/-- **The next of the walk**: what is to come next is returned. -/
theorem next_returns {xs : List Extent} (hw : OnWalk fs h xs) :
    Returns fs .next .noNext (OnWalk fs) h xs := by
  obtain ⟨l, hf, rfl⟩ := hw
  by_cases hdown : l < h.maxDepth ∧ (h.path l).visitNum = 0
  · exact next_of_down hf hdown.1 hdown.2
  · have hd : DoneBelow h l := by
      rcases Nat.lt_or_ge l h.maxDepth with hlt | hge
      · exact Or.inr fun hv => hdown ⟨hlt, hv⟩
      · exact Or.inl (le_antisymm hf.le hge)
    rw [visitsPending, if_neg hdown]
    by_cases hleft : (h.path l).left = 0
    · cases l with
      | zero =>
        rw [visitsToCome, visitsBehind_nil hleft]
        exact ⟨h, Loop.leaves_of_inr (getStep_noNext (Or.inl rfl) hf hd hleft)⟩
      | succ l => exact next_of_up hf hd hleft
    · exact next_of_sib hf hd (Nat.pos_of_ne_zero hleft)

end Forward

end E2fsprogs
