import E2fsprogs.Extent.Backward

/-!
# An extent tree is gone through in order

From a new handle, `EXT2_EXTENT_ROOT` and then `EXT2_EXTENT_NEXT_LEAF` over and over returns the
extents of the leaves in order, `EXT2_EXTENT_LAST_LEAF` and then `EXT2_EXTENT_PREV_LEAF` returns
them in the reverse order, and `EXT2_EXTENT_ROOT` and then `EXT2_EXTENT_NEXT` is the walk round the
tree.

A tree without extents is a root without entries. There `EXT2_EXTENT_ROOT` finds nothing, but
`EXT2_EXTENT_LAST_LEAF` takes the entry before the first one, which is the header, for an extent.
-/

namespace E2fsprogs

section InOrder

variable {fs : ExtentFs} {h : ExtentHandle} {l : ℕ}

/-! ### Call after call -/

/-- The calls of a move return these extents and then the error. -/
inductive Gives (fs : ExtentFs) (op : ExtentOp) : ExtentHandle → List Extent → ExtentErr → Prop
  | stop {h h' : ExtentHandle} {e : ExtentErr}
      (hl : Loop.Leaves (getStep fs op) (h, false) (.error e, h')) :
      Gives fs op h [] e
  | more {h h' : ExtentHandle} {x : Extent} {xs : List Extent} {e : ExtentErr}
      (hl : Loop.Leaves (getStep fs op) (h, false) (.ok x, h')) (hg : Gives fs op h' xs e) :
        Gives fs op h (x :: xs) e

/-- What each call keeps, the calls keep. -/
theorem gives_of_returns {op : ExtentOp} {e : ExtentErr} {P : ExtentHandle → List Extent → Prop}
    (hP : ∀ h xs, P h xs → Returns fs op e P h xs) {xs : List Extent}
    (hr : Returns fs op e P h xs) :
    Gives fs op h xs e := by
  induction xs generalizing h with
  | nil =>
    obtain ⟨h', hl⟩ := hr
    exact .stop hl
  | cons x xs ih =>
    obtain ⟨h', hl, hp⟩ := hr
    exact .more hl (ih (hP h' xs hp))

/-- Enough rounds and enough calls. -/
theorem Gives.gets {op : ExtentOp} {e : ExtentErr} {xs : List Extent} (hg : Gives fs op h xs e) :
    ∃ N, ∀ n m, N ≤ n → N ≤ m → extentGets fs n op m h = some (xs, e) := by
  induction hg with
  | @stop h h' e hl =>
    obtain ⟨N, hN⟩ := hl
    refine ⟨N + 1, fun n m hn hm => ?_⟩
    obtain ⟨m, rfl⟩ : ∃ k, m = k + 1 := ⟨m - 1, by omega⟩
    rw [extentGets, extentGet, Loop.run_mono (by omega) hN]
  | @more h h' x xs e hl _ ih =>
    obtain ⟨N, hN⟩ := hl
    obtain ⟨M, hM⟩ := ih
    refine ⟨max N M + 1, fun n m hn hm => ?_⟩
    obtain ⟨m, rfl⟩ : ∃ k, m = k + 1 := ⟨m - 1, by omega⟩
    rw [extentGets, extentGet, Loop.run_mono (by omega) hN]
    dsimp only
    rw [hM n m (by omega) (by omega)]
    rfl

/-- The first call, and then call after call. -/
theorem iterate_of_gives {first op : ExtentOp} {e : ExtentErr} {x : Extent} {xs : List Extent}
    {h' : ExtentHandle}
    (hl : Loop.Leaves (getStep fs first) (h, false) (.ok x, h')) (hg : Gives fs op h' xs e) :
    ∃ N, ∀ n m, N ≤ n → N ≤ m → extentIterate fs n m first op h = some (x :: xs, e) := by
  obtain ⟨N, hN⟩ := hl
  obtain ⟨M, hM⟩ := hg.gets
  refine ⟨max N M, fun n m hn hm => ?_⟩
  rw [extentIterate, extentGet, Loop.run_mono (by omega) hN]
  dsimp only
  rw [hM n m (by omega) (by omega)]
  rfl

/-! ### A new handle -/

/-- A handle that is at the root, and has gone nowhere yet. -/
structure AtRoot (fs : ExtentFs) (h : ExtentHandle) (root : Block) (blocks : ℕ) : Prop where
  level : h.level = 0
  node : NodeOk fs h.maxDepth root
  buf : (h.path 0).buf = root
  entries : (h.path 0).entries = ehEntries root
  left : (h.path 0).left = ehEntries root
  endBlk : (h.path 0).endBlk = blocks
  leafVisit : 0 < h.maxDepth → (h.path h.maxDepth).visitNum = 0

variable {buf : Block} {endBlk : ℕ}

/-- `EXT2_EXTENT_ROOT`: to the first entry of the root. -/
theorem getStep_root (hr : AtRoot fs h buf endBlk) :
    ∃ p, GoesForward fs (h.at 0 p) 0 ∧ p.buf = buf ∧ p.index = 0 ∧ p.visitNum = 0 ∧
    p.endBlk = endBlk ∧
      getStep fs .root (h, false) = .inr (.ok ((h.at 0 p).extent (entryAt p.index)), h.at 0 p) := by
  have hpos := hr.node.pos
  obtain ⟨p, hp⟩ : ∃ p : ExtentPath, p = { h.path 0 with
    left := (h.path 0).entries - 1, curr := some firstEntry, visitNum := 0 } := ⟨_, rfl⟩
  have hidx : p.index = 0 := by rw [hp, ExtentPath.index, Nat.sub_self]
  refine ⟨p, ⟨rfl, Nat.zero_le _, fun j hj => ?_, fun j hj => absurd hj (Nat.not_lt_zero j)⟩,
    by rw [hp, hr.buf], hidx, by rw [hp], by rw [hp, hr.endBlk], ?_⟩
  · rw [Nat.le_zero.mp hj, at_path_self, at_maxDepth, Nat.sub_zero]
    refine ⟨?_, ?_, ?_, ?_⟩
    · rw [hp, hr.buf]
      exact hr.node
    · rw [hp, hr.buf]
      exact hr.entries
    · rw [hp]
      dsimp only
      rw [hr.entries]
      omega
    · rw [hidx, hp]
      rfl
  · have hmove : moveExtent fs .root .root h = ⟨h.at 0 p, .ok (some (entryAt p.index), false)⟩ := by
      show moveNextSib (ExtentHandle.at _ 0 _) = _
      rw [moveNextSib, at_here]
      dsimp only
      rw [show (ExtentHandle.here { h with level := 0 }) = h.path 0 from rfl,
        if_neg (by rw [hr.entries]; omega), hidx, hp, setPath_eq_at, at_level]
      dsimp only
      rw [ExtentHandle.at, ExtentHandle.at, ExtentHandle.at, Function.update_idem]
      rfl
    have hchoose : chooseOp .root h = .ok (.root, h) := by
      rw [chooseOp, if_neg (by simp), if_neg (by simp), if_neg (by simp)]
    rw [getStep, hchoose]
    dsimp only
    rw [hmove]
    rfl

/-- What `EXT2_EXTENT_ROOT` returns in a tree with index entries: the first of the root. In a
tree that is a leaf it returns the first extent. -/
def rootEntry (depth : ℕ) (buf : Block) (endBlk : ℕ) : List Extent :=
  if depth = 0 then [] else [indexAt buf endBlk 0 false]

/-- The leaves, from the root on. -/
theorem root_nextLeaf (hr : AtRoot fs h buf endBlk) : ∃ N, ∀ n m, N ≤ n → N ≤ m →
    extentIterate fs n m .root .nextLeaf h =
      some (rootEntry h.maxDepth buf endBlk ++ leavesOf fs h.maxDepth buf, .noNext) := by
  obtain ⟨p, hf, hbuf, hidx, hv, hend, hstep⟩ := getStep_root hr
  have hp : PathOk fs h.maxDepth p := by
    have := hf.path 0 (le_refl 0)
    rwa [at_path_self, at_maxDepth, Nat.sub_zero] at this
  have hgives : ∀ h' xs, OnLeaf fs h' xs → Gives fs .nextLeaf h' xs .noNext := by
    rintro h' xs ⟨hf', rfl⟩
    refine gives_of_returns (fun h xs hP => ?_) (nextLeaf_returns hf' (Or.inl rfl))
    obtain ⟨hf, rfl⟩ := hP
    exact nextLeaf_returns hf (Or.inl rfl)
  have hall := leavesOf_cons hp hidx
  rw [hbuf] at hall
  by_cases hD : h.maxDepth = 0
  · -- the root is a leaf, and its first extent is returned at once
    rw [extent_leaf hD.symm hv, hidx] at hstep
    have hlist : leavesOf fs h.maxDepth buf = leafAt p.buf 0 :: leavesToCome fs (h.at 0 p) 0 := by
      rw [hall, leavesToCome, at_path_self, at_maxDepth, hD, hbuf]
      rfl
    rw [rootEntry, if_pos hD, List.nil_append, hlist]
    refine iterate_of_gives (Loop.leaves_of_inr hstep) (hgives _ _ ⟨?_, ?_⟩)
    · rw [at_maxDepth, hD]
      exact hf
    · rw [at_maxDepth, hD]
  · have hlt : 0 < h.maxDepth := Nat.pos_of_ne_zero hD
    rw [extent_index (Ne.symm hD) hp, hbuf, hend, hidx, hv] at hstep
    obtain ⟨x, r, h', hfirst, hleaves, hf', -, hcome⟩ :=
      nextLeaf_of_down hf hlt (by rw [at_path_self]; exact hv)
    rw [at_path_self, at_maxDepth, Nat.sub_zero, hidx, hbuf] at hfirst
    rw [leavesToCome, at_path_self, at_maxDepth] at hcome
    rw [rootEntry, if_neg hD, hall, hfirst]
    exact iterate_of_gives (Loop.leaves_of_inr hstep) (.more hleaves (hgives _ _ ⟨hf', hcome⟩))

/-- The walk, from the root on. -/
theorem root_next (hr : AtRoot fs h buf endBlk) :
    ∃ N, ∀ n m, N ≤ n → N ≤ m →
      extentIterate fs n m .root .next h = some (visitsOf fs h.maxDepth buf endBlk, .noNext) := by
  obtain ⟨p, hf, hbuf, hidx, hv, hend, hstep⟩ := getStep_root hr
  have hp : PathOk fs h.maxDepth p := by
    have := hf.path 0 (le_refl 0)
    rwa [at_path_self, at_maxDepth, Nat.sub_zero] at this
  have hlist : visitsOf fs h.maxDepth buf endBlk =
      (h.at 0 p).extent (entryAt p.index) :: visitsPending fs (h.at 0 p) 0 := by
    have hall := visitsOf_cons hp hidx
    rw [hbuf, hend] at hall
    have hentry : entryVisits fs (h.maxDepth - 0) p.buf p.endBlk p.index ++ visitsToCome fs
        (h.at 0 p) 0 = _ :=
      entryVisits_append (by rw [Nat.sub_zero]; exact hp) (Nat.zero_le _) hv
    rw [hall, ← hentry, visitsToCome, at_path_self, at_maxDepth, Nat.sub_zero, hidx, hbuf, hend]
  rw [hlist]
  exact iterate_of_gives (Loop.leaves_of_inr hstep)
    (gives_of_returns (fun _ _ hP => next_returns hP) (next_returns ⟨0, hf, rfl⟩))

/-! ### The last leaf -/

theorem at_at (h : ExtentHandle) (l : ℕ) (p p' : ExtentPath) : (h.at l p).at l p' = h.at l p' := by
  rw [ExtentHandle.at, ExtentHandle.at, ExtentHandle.at, Function.update_idem]

theorem chooseOp_lastLeaf : chooseOp .lastLeaf h =
    if h.level < h.maxDepth ∧ h.here.left = 0 then .ok (.down, h) else .ok (.lastSib, h) := by
  rw [chooseOp, if_neg (by simp), if_neg (by simp), if_pos rfl]

theorem getStep_lastLeaf_of_move {op' : ExtentOp} {h₀ h₁ : ExtentHandle} {ix : ℕ}
    (hchoose : chooseOp .lastLeaf h = .ok (op', h₀))
    (hmove : moveExtent fs .lastLeaf op' h₀ = ⟨h₁, .ok (some ix, false)⟩) :
    getStep fs .lastLeaf (h, false) = if h₁.level ≠ h₁.maxDepth ∨
    h₁.here.left ≠ 0 then .inl (h₁, false)
      else .inr (.ok (h₁.extent ix), h₁) := by
  rw [getStep, hchoose]
  dsimp only
  rw [hmove]
  by_cases hd : h₁.level ≠ h₁.maxDepth ∨ h₁.here.left ≠ 0
  · simp [hd]
  · simp [hd]

/-- The round that goes to the last entry of a node. -/
theorem getStep_lastSib (hnode : NodeOk fs (h.maxDepth - l) (h.path l).buf) (hl : h.level = l)
    (hentries : (h.path l).entries = ehEntries (h.path l).buf) (hleft : (h.path l).left ≠ 0) :
    ∃ p, PathOk fs (h.maxDepth - l) p ∧ p.buf = (h.path l).buf ∧ p.left = 0 ∧ p.visitNum = 0 ∧
      getStep fs .lastLeaf (h, false) = if l ≠ h.maxDepth then .inl (h.at l p, false)
        else .inr (.ok (leafAt p.buf p.index), h.at l p) := by
  have hhere : h.here = h.path l := by rw [ExtentHandle.here, hl]
  obtain ⟨p, hmove, hp, hbuf, hleft', hv⟩ :=
    moveLastSib_eq (hhere ▸ hnode) (by rw [hhere]; exact hentries)
  rw [hl] at hmove
  rw [hhere] at hbuf
  have hchoose : chooseOp .lastLeaf h = .ok (.lastSib, h) := by
    rw [chooseOp_lastLeaf, hhere, if_neg (fun hc => hleft hc.2)]
  have hmove' : moveExtent fs .lastLeaf .lastSib h = ⟨h.at l p,
    .ok (some (entryAt p.index), false)⟩ := hmove
  have hstep := getStep_lastLeaf_of_move hchoose hmove'
  refine ⟨p, hp, hbuf, hleft', hv, ?_⟩
  rw [at_level, at_maxDepth, at_here] at hstep
  rw [hstep]
  by_cases hD : l = h.maxDepth
  · rw [if_neg (by rw [hleft']; simp [hD]), if_neg (fun hc => hc hD), extent_leaf hD hv]
  · rw [if_pos (Or.inl hD), if_pos hD]

/-- From the last entry of a node to the last entry of the node below it. -/
theorem lastLeaf_level (hb : GoesBackward fs h l) (hl : l < h.maxDepth)
    (hleft : (h.path l).left = 0) :
    ∃ p, GoesBackward fs (h.at (l + 1) p) (l + 1) ∧ p.left = 0 ∧
      p.buf = childAt fs (h.path l).buf (h.path l).index ∧
      (l + 1 ≠ h.maxDepth → Loop.Reach (getStep fs .lastLeaf) (h, false) (h.at (l + 1) p, false)) ∧
      (l + 1 = h.maxDepth →
        Loop.Leaves (getStep fs .lastLeaf) (h, false) (.ok (leafAt p.buf p.index),
          h.at (l + 1) p)) := by
  have hhere : h.here = h.path l := by rw [ExtentHandle.here, hb.level]
  have hpok : PathOk fs (h.maxDepth - (l + 1) + 1) h.here := by
    rw [hhere, show h.maxDepth - (l + 1) + 1 = h.maxDepth - l by omega]
    exact hb.path l (le_refl l)
  obtain ⟨p, hmove, hp, hbuf, -, -, hv⟩ := moveDown_eq false (by rw [hb.level]; exact hl) hpok
  rw [hhere] at hbuf
  rw [hb.level] at hmove
  have hchoose : chooseOp .lastLeaf h = .ok (.down, h) := by
    rw [chooseOp_lastLeaf, hhere, hb.level, if_pos ⟨hl, hleft⟩]
  have hmove' : moveExtent fs .lastLeaf .down h = ⟨h.at (l + 1) p,
    .ok (some (entryAt p.index), false)⟩ := hmove
  have hstep := getStep_lastLeaf_of_move hchoose hmove'
  rw [at_level, at_maxDepth, at_here] at hstep
  have hback : ∀ p', PathOk fs (h.maxDepth - (l + 1)) p' → p'.visitNum = 0 →
      GoesBackward fs (h.at (l + 1) p') (l + 1) :=
    fun p' hp' hv' =>
      GoesBackward.at hl (fun j hj => hb.path j (by omega)) hp' hb.leafVisit fun _ => hv'
  by_cases hone : p.left = 0
  · -- the node below has a single entry
    refine ⟨p, hback p hp hv, hone, hbuf, fun hD => ?_, fun hD => Loop.leaves_of_inr ?_⟩
    · rw [if_pos (Or.inl hD)] at hstep
      exact Relation.ReflTransGen.single hstep
    · rw [hstep, if_neg (by rw [hone]; simp [hD]), extent_leaf hD hv]
  · rw [if_pos (Or.inr hone)] at hstep
    have hnode : NodeOk fs ((h.at (l + 1) p).maxDepth - (l + 1))
        ((h.at (l + 1) p).path (l + 1)).buf := by
      rw [at_path_self, at_maxDepth]
      exact hp.node
    obtain ⟨p', hp', hbuf', hleft', hv', hstep'⟩ := getStep_lastSib hnode rfl
      (by rw [at_path_self]; exact hp.entries) (by rw [at_path_self]; exact hone)
    rw [at_path_self] at hbuf'
    rw [at_at, at_maxDepth] at hstep'
    rw [at_maxDepth] at hp'
    refine ⟨p', hback p' hp' hv', hleft', hbuf'.trans hbuf, fun hD => ?_, fun hD => ?_⟩
    · rw [if_pos hD] at hstep'
      exact Relation.ReflTransGen.tail (Relation.ReflTransGen.single hstep) hstep'
    · rw [if_neg (fun hc => hc hD)] at hstep'
      exact Loop.leaves_of_round hstep (Loop.leaves_of_inr hstep')

/-- Down from the last entry of a node: to the last extent below it. -/
theorem lastLeaf_of_down (hb : GoesBackward fs h l) (hl : l < h.maxDepth)
    (hleft : (h.path l).left = 0) :
    ∃ x r h', entryLeaves fs (h.maxDepth - l) (h.path l).buf (h.path l).index = r ++ [x] ∧
      Loop.Leaves (getStep fs .lastLeaf) (h, false) (.ok x, h') ∧ GoesBackward fs h' h'.maxDepth ∧
      h'.maxDepth = h.maxDepth ∧ leavesGone fs h' h'.maxDepth = leavesGone fs h l ++ r := by
  induction hn : h.maxDepth - (l + 1) generalizing h l with
  | zero =>
    obtain ⟨p, hb₁, hleft₁, hbuf, -, hlast⟩ := lastLeaf_level hb hl hleft
    have hD : l + 1 = h.maxDepth := by omega
    have hp : PathOk fs 0 p := by
      have := hb₁.path (l + 1) (le_refl _)
      rwa [at_path_self, at_maxDepth, ← hD, Nat.sub_self] at this
    refine ⟨leafAt p.buf p.index, leavesBefore fs 0 p, h.at (l + 1) p, ?_, hlast hD, ?_, rfl, ?_⟩
    · rw [show h.maxDepth - l = 0 + 1 by omega]
      show leavesOf fs 0 (childAt fs _ _) = _
      rw [← hbuf, leavesOf_concat hp hleft₁]
      rfl
    · rw [at_maxDepth, ← hD]
      exact hb₁
    · rw [at_maxDepth, ← hD, leavesGone, at_path_self, at_maxDepth,
        leavesGone_at (Nat.lt_succ_self l), ← hD, Nat.sub_self]
  | succ n ih =>
    obtain ⟨p, hb₁, hleft₁, hbuf, hreach, -⟩ := lastLeaf_level hb hl hleft
    obtain ⟨x, r, h', hfirst, hleaves, hb', hmax', hgone'⟩ :=
      ih hb₁ (by rw [at_maxDepth]; omega) (by rw [at_path_self]; exact hleft₁)
        (by rw [at_maxDepth]; omega)
    have hp : PathOk fs (h.maxDepth - (l + 1)) p := by
      have := hb₁.path (l + 1) (le_refl _)
      rwa [at_path_self, at_maxDepth] at this
    rw [at_maxDepth, at_path_self] at hfirst
    refine ⟨x, leavesBefore fs (h.maxDepth - (l + 1)) p ++ r, h', ?_,
      Loop.leaves_of_reach (hreach (by omega)) hleaves, hb', hmax', ?_⟩
    · rw [show h.maxDepth - l = h.maxDepth - (l + 1) + 1 by omega]
      show leavesOf fs _ (childAt fs _ _) = _
      rw [← hbuf, leavesOf_concat hp hleft₁, hfirst, List.append_assoc]
    · rw [hgone', leavesGone, at_path_self, at_maxDepth, leavesGone_at (Nat.lt_succ_self l),
        List.append_assoc]

/-- The leaves, from the last one back. -/
theorem lastLeaf_prevLeaf (hr : AtRoot fs h buf endBlk) :
    ∃ N, ∀ n m, N ≤ n → N ≤ m →
      extentIterate fs n m .lastLeaf .prevLeaf h = some ((leavesOf fs h.maxDepth buf).reverse,
        .noPrev) := by
  have hgives : ∀ h' xs, OnLeafBack fs h' xs → Gives fs .prevLeaf h' xs .noPrev := by
    rintro h' xs ⟨hb', rfl⟩
    refine gives_of_returns (fun h xs hP => ?_) (prevLeaf_returns hb' (Or.inl rfl))
    obtain ⟨hb, rfl⟩ := hP
    exact prevLeaf_returns hb (Or.inl rfl)
  have hpos := hr.node.pos
  obtain ⟨p, hp, hbuf, hleft, hv, hstep⟩ := getStep_lastSib (by rw [hr.buf]; exact hr.node) hr.level
    (by rw [hr.buf]; exact hr.entries) (by rw [hr.left]; omega)
  rw [hr.buf] at hbuf
  have hall := leavesOf_concat hp hleft
  rw [hbuf, Nat.sub_zero] at hall
  have hb : GoesBackward fs (h.at 0 p) 0 := by
    refine ⟨rfl, Nat.zero_le _, fun j hj => ?_, ?_⟩
    · rw [Nat.le_zero.mp hj, at_path_self]
      exact hp
    · rw [at_maxDepth]
      by_cases hD : h.maxDepth = 0
      · rw [hD, at_path_self]
        exact hv
      · rw [at_path_of_ne hD]
        exact hr.leafVisit (Nat.pos_of_ne_zero hD)
  by_cases hD : h.maxDepth = 0
  · rw [if_neg (fun hc => hc hD.symm)] at hstep
    rw [hall, List.reverse_append, hD]
    refine iterate_of_gives (Loop.leaves_of_inr (hbuf ▸ hstep)) (hgives _ _ ⟨?_, ?_⟩)
    · rw [at_maxDepth, hD]
      exact hb
    · rw [at_maxDepth, hD, leavesGone, at_path_self, at_maxDepth, hD]
      rfl
  · rw [if_pos (Ne.symm hD)] at hstep
    obtain ⟨x, r, h', hlast, hleaves, hb', -, hgone⟩ :=
      lastLeaf_of_down hb (Nat.pos_of_ne_zero hD) (by rw [at_path_self]; exact hleft)
    rw [at_maxDepth, at_path_self, Nat.sub_zero, hbuf] at hlast
    rw [leavesGone, at_path_self, at_maxDepth] at hgone
    rw [hall, hlast, List.reverse_append, List.reverse_append]
    refine iterate_of_gives (Loop.leaves_of_round hstep hleaves) (hgives _ _ ⟨hb', ?_⟩)
    rw [hgone, List.reverse_append]
    rfl

/-! ### Keys -/

/-- **The keys of a tree**: those of a node go up from its own key, and what is below an entry lies
between its key and the next. -/
def KeysOk (fs : ExtentFs) : ℕ → Block → ℕ → ℕ → Prop
  | 0, buf, lo, hi => ∀ k < ehEntries buf,
      lo ≤ eiBlock buf (entryAt k) ∧ eiBlock buf (entryAt k) < entryEnd buf hi k ∧
        entryEnd buf hi k ≤ hi
  | d + 1, buf, lo, hi => ∀ k < ehEntries buf,
      lo ≤ eiBlock buf (entryAt k) ∧ eiBlock buf (entryAt k) < entryEnd buf hi k ∧
        entryEnd buf hi k ≤ hi ∧
        KeysOk fs d (childAt fs buf k) (eiBlock buf (entryAt k)) (entryEnd buf hi k)

theorem KeysOk.entry {d : ℕ} {buf : Block} {lo hi k : ℕ} (hk : KeysOk fs d buf lo hi)
    (hlt : k < ehEntries buf) :
    lo ≤ eiBlock buf (entryAt k) ∧ eiBlock buf (entryAt k) < entryEnd buf hi k ∧
    entryEnd buf hi k ≤ hi := by
  cases d with
  | zero => exact hk k hlt
  | succ d => exact ⟨(hk k hlt).1, (hk k hlt).2.1, (hk k hlt).2.2.1⟩

/-- What is below an entry ends before the later entries. -/
theorem KeysOk.end_le {d : ℕ} {buf : Block} {lo hi j k : ℕ}
    (hk : KeysOk fs d buf lo hi) (hjk : j < k)
    (hlt : k < ehEntries buf) : entryEnd buf hi j ≤ eiBlock buf (entryAt k) := by
  induction k, hjk using Nat.le_induction with
  | base => rw [entryEnd, if_pos hlt]
  | succ k hle ih =>
    have hentry := (hk.entry (Nat.lt_of_succ_lt hlt)).2.1
    have hend : entryEnd buf hi k = eiBlock buf (entryAt (k + 1)) := by rw [entryEnd, if_pos hlt]
    rw [← hend]
    exact (ih (Nat.lt_of_succ_lt hlt)).trans hentry.le

/-- The extents below an entry lie between its key and the next. -/
theorem KeysOk.entryLeaves_between {d : ℕ} {buf : Block} {lo hi : ℕ} (hk : KeysOk fs d buf lo hi) :
    ∀ k < ehEntries buf, ∀ x ∈ entryLeaves fs d buf k,
      eiBlock buf (entryAt k) ≤ x.lblk ∧ x.lblk < entryEnd buf hi k := by
  induction d generalizing buf lo hi with
  | zero =>
    intro k hlt x hx
    rw [List.mem_singleton.mp hx]
    exact ⟨le_refl _, (hk k hlt).2.1⟩
  | succ d ih =>
    intro k hlt x hx
    have hchild := (hk k hlt).2.2.2
    rw [entryLeaves, leavesOf_eq] at hx
    obtain ⟨j, hj, hxj⟩ := List.mem_flatMap.mp hx
    have hj' := List.mem_range.mp hj
    obtain ⟨h1, h2⟩ := ih hchild j hj' x hxj
    obtain ⟨h3, -, h5⟩ := hchild.entry hj'
    exact ⟨h3.trans h1, lt_of_lt_of_le h2 h5⟩

/-- **The extents below a node go up.** -/
theorem KeysOk.leaves_pairwise {d : ℕ} {buf : Block} {lo hi : ℕ} (hk : KeysOk fs d buf lo hi) :
    (leavesOf fs d buf).Pairwise (fun x y => x.lblk < y.lblk) := by
  induction d generalizing buf lo hi with
  | zero =>
    rw [leavesOf_eq, List.pairwise_flatMap]
    refine ⟨fun k _ => List.pairwise_singleton _ _,
      List.pairwise_lt_range.imp_of_mem fun {j k} _ hk' hjk x hx y hy => ?_⟩
    have hlt := List.mem_range.mp hk'
    have h1 := (hk.entryLeaves_between j (hjk.trans hlt) x hx).2
    have h2 := (hk.entryLeaves_between k hlt y hy).1
    exact lt_of_lt_of_le h1 ((hk.end_le hjk hlt).trans h2)
  | succ d ih =>
    rw [leavesOf_eq, List.pairwise_flatMap]
    refine ⟨fun k hk' => ih (hk k (List.mem_range.mp hk')).2.2.2,
      List.pairwise_lt_range.imp_of_mem fun {j k} _ hk' hjk x hx y hy => ?_⟩
    have hlt := List.mem_range.mp hk'
    have h1 := (hk.entryLeaves_between j (hjk.trans hlt) x hx).2
    have h2 := (hk.entryLeaves_between k hlt y hy).1
    exact lt_of_lt_of_le h1 ((hk.end_le hjk hlt).trans h2)

/-! ### The tree of an inode -/

/-- **An extent tree**: the header in the inode is sane, the nodes below are, and the keys go up. A
tree without extents is a leaf without entries. -/
structure ExtentTreeOk (fs : ExtentFs) (iBlock : Block) : Prop where
  header : extentHeaderVerify iBlock 60 = true
  node : NodeOk fs (ehDepth iBlock) iBlock ∨ (ehDepth iBlock = 0 ∧ ehEntries iBlock = 0)
  keys : KeysOk fs (ehDepth iBlock) iBlock 0 (2 ^ 32)

/-- **The tree is gone through in order**, once enough rounds and calls are allowed. -/
def IteratesInOrder (fs : ExtentFs) (iBlock : Block) (endBlk : ℕ) : Prop :=
  ∃ h, extentOpen iBlock endBlk = some h ∧ ∃ N, ∀ n m, N ≤ n → N ≤ m →
    extentIterate fs n m .root .nextLeaf h =
      some (rootEntry (ehDepth iBlock) iBlock endBlk ++ leavesOf fs (ehDepth iBlock) iBlock,
        .noNext) ∧
    (leavesOf fs (ehDepth iBlock) iBlock).Pairwise (fun x y => x.lblk < y.lblk) ∧
    (∃ e, extentIterate fs n m .lastLeaf .prevLeaf h =
        some ((leavesOf fs (ehDepth iBlock) iBlock).reverse, e) ∧
      (leavesOf fs (ehDepth iBlock) iBlock ≠ [] → e = .noPrev)) ∧
    extentIterate fs n m .root .next h = some (visitsOf fs (ehDepth iBlock) iBlock endBlk, .noNext)

/-- A new handle is at the root. -/
theorem extentOpen_atRoot {iBlock : Block} (hheader : extentHeaderVerify iBlock 60 = true)
    (hnode : NodeOk fs (ehDepth iBlock) iBlock) (endBlk : ℕ) :
    ∃ h, extentOpen iBlock endBlk = some h ∧ h.maxDepth = ehDepth iBlock ∧
    AtRoot fs h iBlock endBlk := by
  refine ⟨_, by rw [extentOpen, hheader]; rfl, rfl, rfl, hnode, rfl, rfl, rfl, rfl, fun hD => ?_⟩
  dsimp only
  rw [if_neg (Nat.pos_iff_ne_zero.mp hD)]

/-- A tree that has extents is gone through in order. -/
theorem iteratesInOrder_of_node {iBlock : Block} (hheader : extentHeaderVerify iBlock 60 = true)
    (hnode : NodeOk fs (ehDepth iBlock) iBlock)
    (hkeys : KeysOk fs (ehDepth iBlock) iBlock 0 (2 ^ 32)) (endBlk : ℕ) :
    IteratesInOrder fs iBlock endBlk := by
  obtain ⟨h, hopen, hmax, hroot⟩ := extentOpen_atRoot hheader hnode endBlk
  obtain ⟨N₁, h₁⟩ := root_nextLeaf hroot
  obtain ⟨N₂, h₂⟩ := lastLeaf_prevLeaf hroot
  obtain ⟨N₃, h₃⟩ := root_next hroot
  rw [hmax] at h₁ h₂ h₃
  exact ⟨h, hopen, max N₁ (max N₂ N₃), fun n m hn hm => ⟨h₁ n m (by omega) (by omega),
    hkeys.leaves_pairwise, ⟨.noPrev, h₂ n m (by omega) (by omega), fun _ => rfl⟩,
    h₃ n m (by omega) (by omega)⟩⟩

/-- The last leaf of a tree without extents: an extent is returned. -/
theorem lastLeaf_of_empty (hmax : h.maxDepth = 0) (hlevel : h.level = 0) :
    ∃ x h', getStep fs .lastLeaf (h, false) = .inr (.ok x, h') := by
  have hchoose : chooseOp .lastLeaf h = .ok (.lastSib, h) := by
    rw [chooseOp_lastLeaf, if_neg (by omega)]
  have hmove : moveExtent fs .lastLeaf .lastSib h = moveLastSib h := rfl
  have hstep := getStep_lastLeaf_of_move hchoose (hmove.trans rfl)
  rw [if_neg] at hstep
  · exact ⟨_, _, hstep⟩
  · show ¬(h.level ≠ h.maxDepth ∨ (h.setPath _).here.left ≠ 0)
    rw [setPath_eq_at, at_here]
    simp [hmax, hlevel]

/-- A tree without extents is not gone through backward. -/
theorem not_iteratesInOrder_of_empty {iBlock : Block}
    (hheader : extentHeaderVerify iBlock 60 = true)
    (hdepth : ehDepth iBlock = 0) (hzero : ehEntries iBlock = 0) (endBlk : ℕ) :
    ¬IteratesInOrder fs iBlock endBlk := by
  rintro ⟨h, hopen, N, hN⟩
  have hleaves : leavesOf fs (ehDepth iBlock) iBlock = [] := by
    rw [leavesOf_eq, hzero, List.range_zero, List.flatMap_nil]
  obtain ⟨hmax, hlevel⟩ : h.maxDepth = 0 ∧ h.level = 0 := by
    rw [extentOpen, hheader] at hopen
    rw [← Option.some.inj hopen]
    exact ⟨hdepth, rfl⟩
  obtain ⟨x, h', hstep⟩ := lastLeaf_of_empty hmax hlevel
  obtain ⟨-, -, ⟨e, hlast, -⟩, -⟩ := hN (N + 1) N (Nat.le_succ N) (le_refl N)
  rw [hleaves, extentIterate, extentGet, Loop.run, hstep] at hlast
  obtain ⟨r, -, hr⟩ := Option.map_eq_some_iff.mp hlast
  cases hr

/-- **A tree is gone through in order, both ways, if and only if it has an extent.** -/
theorem iterates_in_order_iff {iBlock : Block} (ht : ExtentTreeOk fs iBlock) (endBlk : ℕ) :
    IteratesInOrder fs iBlock endBlk ↔ ehEntries iBlock ≠ 0 := by
  rcases ht.node with hnode | ⟨hdepth, hzero⟩
  · exact ⟨fun _ => Nat.pos_iff_ne_zero.mp hnode.pos,
      fun _ => iteratesInOrder_of_node ht.header hnode ht.keys endBlk⟩
  · exact ⟨fun hi => absurd hi (not_iteratesInOrder_of_empty ht.header hdepth hzero endBlk),
      fun hne => absurd hzero hne⟩

/-- A file system with one node, in block 7, of two extents. -/
def twoExtentsFs : ExtentFs where
  disk b :=
    if b = 7 then
      let buf := putLe (putLe (putLe (fun _ => 0) 0 2 0xF30A) 2 2 2) 4 2 84
      let buf := putLe (putLe buf 16 2 1) 20 4 100
      putLe (putLe (putLe buf 24 4 5) 28 2 1) 32 4 200
    else fun _ => 0
  blocksize := 1024
  metadataCsum := false
  csumSeed := 0
  ino := 12
  generation := 0
  ignoreCsumErrors := false

/-- A root with an index entry for block 7. -/
def twoExtentsRoot : Block :=
  putLe (putLe (putLe (putLe (putLe (fun _ => 0) 0 2 0xF30A) 2 2 1) 4 2 4) 6 2 1) 16 4 7

/-- A root without entries. -/
def emptyRoot : Block := putLe (putLe (fun _ => 0) 0 2 0xF30A) 4 2 4

/-- The tree is sane. -/
theorem extentTreeOk_twoExtents : ExtentTreeOk twoExtentsFs twoExtentsRoot := by
  have hdepth : ehDepth twoExtentsRoot = 1 := by decide
  have hentries : ehEntries twoExtentsRoot = 1 := by decide
  have hchild : ehEntries (childAt twoExtentsFs twoExtentsRoot 0) = 2 := by decide
  refine ⟨by decide, Or.inl ?_, ?_⟩
  · rw [hdepth]
    refine ⟨by decide, fun k hk => ?_⟩
    obtain rfl : k = 0 := by omega
    exact ⟨by decide, by decide, by rw [NodeOk, hchild]; decide⟩
  · rw [hdepth]
    intro k hk
    obtain rfl : k = 0 := by omega
    refine ⟨by decide, by decide, by decide, fun j hj => ?_⟩
    rcases (by omega : j = 0 ∨ j = 1) with rfl | rfl
    · exact ⟨by decide, by decide, by decide⟩
    · exact ⟨by decide, by decide, by decide⟩

theorem iterates_in_order_two_extents : ExtentTreeOk twoExtentsFs twoExtentsRoot ∧
    (leavesOf twoExtentsFs 1 twoExtentsRoot).map Extent.pblk = [100, 200] ∧
    IteratesInOrder twoExtentsFs twoExtentsRoot 6 :=
  ⟨extentTreeOk_twoExtents, by decide,
    (iterates_in_order_iff extentTreeOk_twoExtents 6).mpr (by decide)⟩

theorem not_iterates_in_order_empty :
    ExtentTreeOk twoExtentsFs emptyRoot ∧ leavesOf twoExtentsFs (ehDepth emptyRoot) emptyRoot = [] ∧
      ¬IteratesInOrder twoExtentsFs emptyRoot 0 := by
  have hdepth : ehDepth emptyRoot = 0 := by decide
  have hzero : ehEntries emptyRoot = 0 := by decide
  have hheader : extentHeaderVerify emptyRoot 60 = true := by decide
  refine ⟨⟨hheader, Or.inr ⟨hdepth, hzero⟩, ?_⟩, ?_,
    not_iteratesInOrder_of_empty hheader hdepth hzero 0⟩
  · rw [hdepth]
    intro k hk
    omega
  · rw [leavesOf_eq, hzero, List.range_zero, List.flatMap_nil]

end InOrder

end E2fsprogs
