import E2fsprogs.Extent.InOrder

/-!
# Looking a block up in an extent tree

`ext2fs_extent_goto2` of `lib/ext2fs/extent.c`. From the root, each node is scanned for the last
entry that does not begin behind the block: the scan looks one entry ahead and steps back when that
entry is behind the block. In a leaf the scan stops at the extent that has the block or, in a hole,
at the last extent before it.

The keys that lead the search are those of `E2fsprogs.ExtentTreeExact`: extents do not overlap, and
an index entry has the key of the first entry below it, as `e2fsck` checks. Where the cursor is, is
said by the extents before it and behind it (`E2fsprogs.CursorAt`).
-/

namespace E2fsprogs

/-! ### The search -/

section Search

variable (fs : ExtentFs)

/-- `ext2fs_extent_get`, for the moves that are one round. -/
def extentMove (op : ExtentOp) (h : ExtentHandle) : Except ExtentErr Extent × ExtentHandle :=
  match getStep fs op (h, false) with
  | .inr r => r
  | .inl (h, _) => (.error .noCurrentNode, h)

/-- What a search fails with. -/
inductive GotoErr where
  | notFound
  | get (e : ExtentErr)
  deriving DecidableEq

/-- From `go_down` on: the round ends in the node below. -/
def gotoDown (h : ExtentHandle) : ExtentHandle × Extent ⊕ Except GotoErr Unit × ExtentHandle :=
  match extentMove fs .down h with
  | (.error e, h) => .inr (.error (.get e), h)
  | (.ok extent, h) => .inl (h, extent)

/-- The step back from an entry that begins behind the block, and down. -/
def gotoBack (h : ExtentHandle) : ExtentHandle × Extent ⊕ Except GotoErr Unit × ExtentHandle :=
  match extentMove fs .prevSib h with
  | (.error e, h) => .inr (.error (.get e), h)
  | (.ok _, h) => gotoDown fs h

/-- To the next extent of a leaf. -/
def gotoNext (h : ExtentHandle) : ExtentHandle × Extent ⊕ Except GotoErr Unit × ExtentHandle :=
  match extentMove fs .nextSib h with
  | (.error .noNext, h) => .inr (.error .notFound, h)
  | (.error e, h) => .inr (.error (.get e), h)
  | (.ok extent, h) => .inl (h, extent)

/-- The body of the loop. -/
def gotoStep (leafLevel blk : ℕ) (s : ExtentHandle × Extent) :
    ExtentHandle × Extent ⊕ Except GotoErr Unit × ExtentHandle :=
  let (h, extent) := s
  if h.maxDepth = h.level + leafLevel then
    if extent.lblk ≤ blk ∧ blk < extent.lblk + extent.len then .inr (.ok (), h)
    else if blk < extent.lblk then .inr (.error .notFound, (extentMove fs .prevSib h).2)
    else gotoNext fs h
  else
    match extentMove fs .nextSib h with
    | (.error .noNext, h) => gotoDown fs h
    | (.error e, h) => .inr (.error (.get e), h)
    | (.ok extent, h) =>
      if blk = extent.lblk then gotoDown fs h
      else if extent.lblk < blk then .inl (h, extent)
      else gotoBack fs h

/-- `ext2fs_extent_goto2`, with at most `n` rounds. -/
def extentGoto2 (n leafLevel blk : ℕ) (h : ExtentHandle) :
    Option (Except GotoErr Unit × ExtentHandle) :=
  match extentMove fs .root h with
  | (.error .noNext, h) => some (.error .notFound, h)
  | (.error e, h) => some (.error (.get e), h)
  | (.ok extent, h) =>
    if h.maxDepth < leafLevel then some (.error (.get .opNotSupported), h)
    else Loop.run (gotoStep fs leafLevel blk) n (h, extent)

end Search

section Goto

variable {fs : ExtentFs} {h : ExtentHandle} {l : ℕ}

/-! ### Moves of one round -/

/-- What a move of one round answers. -/
def ExtentMoved.answer (m : ExtentMoved) : Except ExtentErr Extent × ExtentHandle :=
  match m with
  | ⟨h, .error e⟩ => (.error e, h)
  | ⟨h, .ok (none, _)⟩ => (.error .noCurrentNode, h)
  | ⟨h, .ok (some ix, failed)⟩ => if failed then (.error .csumInvalid, h)
    else (.ok (h.extent ix), h)

/-- The moves of a search. -/
def gotoMoves : List ExtentOp := [.root, .nextSib, .prevSib, .down]

theorem getStep_of_goto {op : ExtentOp} (hop : op ∈ gotoMoves) (h : ExtentHandle) :
    getStep fs op (h, false) = .inr (moveExtent fs op op h).answer := by
  have h1 : ¬(op = .next ∨ op = .nextLeaf) := by rintro (rfl | rfl) <;> simp [gotoMoves] at hop
  have h2 : ¬(op = .prev ∨ op = .prevLeaf) := by rintro (rfl | rfl) <;> simp [gotoMoves] at hop
  have h3 : op ≠ .lastLeaf := by rintro rfl; simp [gotoMoves] at hop
  have h4 : ¬(op = .nextLeaf ∨ op = .prevLeaf) := by rintro (rfl | rfl) <;> simp [gotoMoves] at hop
  rw [getStep, chooseOp, if_neg h1, if_neg h2, if_neg h3]
  dsimp only
  rcases moveExtent fs op op h with ⟨h', e | ⟨_ | ix, failed⟩⟩
  · rfl
  · rfl
  · dsimp only
    rw [if_neg (fun hc => h4 hc.1), if_neg (fun hc => h3 hc.1)]
    cases failed <;> rfl

theorem extentMove_eq {op : ExtentOp} (hop : op ∈ gotoMoves) (h : ExtentHandle) :
    extentMove fs op h = (moveExtent fs op op h).answer := by
  rw [extentMove, getStep_of_goto hop]

theorem extentMove_nextSib {d : ℕ} (hp : PathOk fs d h.here) (hleft : 0 < h.here.left) :
    ∃ p, extentMove fs .nextSib h = (.ok ((h.at h.level p).extent (entryAt p.index)),
      h.at h.level p) ∧
      PathOk fs d p ∧ p.buf = h.here.buf ∧ p.left + 1 = h.here.left := by
  obtain ⟨p, hmove, hok, hbuf, hleft', -⟩ := moveNextSib_eq hp hleft
  refine ⟨p, ?_, hok, hbuf, hleft'⟩
  rw [extentMove_eq (by simp [gotoMoves]), show moveExtent fs .nextSib .nextSib h = moveNextSib h
    from rfl, hmove]
  rfl

theorem extentMove_nextSib_last (hleft : h.here.left = 0) :
    extentMove fs .nextSib h = (.error .noNext, h) := by
  rw [extentMove_eq (by simp [gotoMoves]), show moveExtent fs .nextSib .nextSib h = moveNextSib h
    from rfl, moveNextSib, if_pos hleft]
  rfl

theorem extentMove_prevSib {d : ℕ} (hp : PathOk fs d h.here)
    (hleft : h.here.left + 1 < h.here.entries) :
    ∃ p, extentMove fs .prevSib h = (.ok ((h.at h.level p).extent (entryAt p.index)),
      h.at h.level p) ∧
      PathOk fs d p ∧ p.buf = h.here.buf ∧ p.left = h.here.left + 1 := by
  obtain ⟨p, hmove, hok, hbuf, hleft', -⟩ := movePrevSib_eq hp hleft
  refine ⟨p, ?_, hok, hbuf, hleft'⟩
  rw [extentMove_eq (by simp [gotoMoves]), show moveExtent fs .prevSib .prevSib h = movePrevSib h
    from rfl, hmove]
  rfl

theorem extentMove_prevSib_first {d : ℕ} (hp : PathOk fs d h.here)
    (hleft : h.here.entries ≤ h.here.left + 1) :
    extentMove fs .prevSib h = (.error .noPrev, h) := by
  rw [extentMove_eq (by simp [gotoMoves]), show moveExtent fs .prevSib .prevSib h = movePrevSib h
    from rfl, movePrevSib, hp.curr]
  dsimp only
  rw [if_pos hleft]
  rfl

theorem extentMove_down {d : ℕ} (hl : h.level < h.maxDepth) (hp : PathOk fs (d + 1) h.here) :
    ∃ p, extentMove fs .down h = (.ok ((h.at (h.level + 1) p).extent (entryAt p.index)),
      h.at (h.level + 1) p) ∧
      PathOk fs d p ∧ p.buf = childAt fs h.here.buf h.here.index ∧ p.index = 0 := by
  obtain ⟨p, hmove, hok, hbuf, hleft, -⟩ := moveDown_eq false hl hp
  refine ⟨p, ?_, hok, hbuf, ?_⟩
  · rw [extentMove_eq (by simp [gotoMoves]), show moveExtent fs .down .down h = moveDown fs false h
      from rfl, hmove]
    rfl
  · rw [ExtentPath.index, hok.entries, hbuf, hleft]
    exact Nat.sub_self _

/-- To the first entry of the root, from wherever the handle is. -/
theorem extentMove_root {d : ℕ} (hnode : NodeOk fs d (h.path 0).buf)
    (hentries : (h.path 0).entries = ehEntries (h.path 0).buf) :
    ∃ p, extentMove fs .root h = (.ok ((h.at 0 p).extent (entryAt p.index)), h.at 0 p) ∧
      PathOk fs d p ∧ p.buf = (h.path 0).buf ∧ p.index = 0 := by
  have hpos := hnode.pos
  obtain ⟨p, hp⟩ : ∃ p : ExtentPath, p = { h.path 0 with
    left := (h.path 0).entries - 1, curr := some firstEntry, visitNum := 0 } := ⟨_, rfl⟩
  have hidx : p.index = 0 := by rw [hp, ExtentPath.index, Nat.sub_self]
  refine ⟨p, ?_, ⟨?_, ?_, ?_, ?_⟩, by rw [hp], hidx⟩
  · have hmove : moveExtent fs .root .root h = ⟨h.at 0 p, .ok (some (entryAt p.index), false)⟩ := by
      show moveNextSib (ExtentHandle.at _ 0 _) = _
      rw [moveNextSib, at_here]
      dsimp only
      rw [show (ExtentHandle.here { h with level := 0 }) = h.path 0 from rfl,
        if_neg (by rw [hentries]; omega), hidx, hp, setPath_eq_at, at_level]
      dsimp only
      rw [ExtentHandle.at, ExtentHandle.at, ExtentHandle.at, Function.update_idem]
      rfl
    rw [extentMove_eq (by simp [gotoMoves]), hmove]
    rfl
  · rw [hp]
    exact hnode
  · rw [hp]
    exact hentries
  · rw [hp]
    dsimp only
    omega
  · rw [hidx, hp]
    rfl

/-- In a root without entries there is nothing. -/
theorem extentMove_root_empty (hentries : (h.path 0).entries = 0) :
    (extentMove fs .root h).1 = .error .noNext := by
  rw [extentMove_eq (by simp [gotoMoves])]
  show (moveNextSib (ExtentHandle.at _ 0 _)).answer.1 = _
  rw [moveNextSib, at_here]
  dsimp only
  rw [show (ExtentHandle.here { h with level := 0 }) = h.path 0 from rfl, if_pos hentries]
  rfl

/-- The key of the extent that is returned. -/
theorem extent_lblk (p : ExtentPath) (ix : ℕ) : ((h.at l p).extent ix).lblk = eiBlock p.buf ix := by
  rw [ExtentHandle.extent, at_here]
  dsimp only
  split <;> rfl

/-- The length of an extent of a leaf. -/
theorem extent_len {p : ExtentPath} (hl : l = h.maxDepth) (k : ℕ) :
    ((h.at l p).extent (entryAt k)).len = (leafAt p.buf k).len := by
  rw [ExtentHandle.extent, at_level, at_maxDepth, if_pos hl, at_here, leafAt]

/-! ### Keys that lead the search -/

/-- **Extents that can be looked up**: those of a leaf have blocks and do not overlap, and an index
entry has the key of the first entry below it. -/
def ExtentsOk (fs : ExtentFs) : ℕ → Block → ℕ → Prop
  | 0, buf, hi => ∀ k < ehEntries buf,
      0 < (leafAt buf k).len ∧ (leafAt buf k).lblk + (leafAt buf k).len ≤ entryEnd buf hi k
  | d + 1, buf, hi => ∀ k < ehEntries buf,
      eiBlock (childAt fs buf k) (entryAt 0) = eiBlock buf (entryAt k) ∧
        ExtentsOk fs d (childAt fs buf k) (entryEnd buf hi k)

/-- **A tree that can be searched.** -/
structure ExtentTreeExact (fs : ExtentFs) (iBlock : Block) :
    Prop extends ExtentTreeOk fs iBlock where
  extents : ExtentsOk fs (ehDepth iBlock) iBlock (2 ^ 32)

/-- What is below an entry ends before the next entry begins. -/
theorem ExtentsOk.end_le {d : ℕ} {buf : Block} {hi lo : ℕ} (he : ExtentsOk fs d buf hi)
    (hk : KeysOk fs d buf lo hi) :
    ∀ k < ehEntries buf, ∀ x ∈ entryLeaves fs d buf k, x.lblk + x.len ≤ entryEnd buf hi k := by
  induction d generalizing buf lo hi with
  | zero =>
    intro k hlt x hx
    rw [List.mem_singleton.mp hx]
    exact (he k hlt).2
  | succ d ih =>
    intro k hlt x hx
    rw [entryLeaves, leavesOf_eq] at hx
    obtain ⟨j, hj, hxj⟩ := List.mem_flatMap.mp hx
    have hj' := List.mem_range.mp hj
    have hchild := (hk k hlt).2.2.2
    exact (ih (he k hlt).2 hchild j hj' x hxj).trans (hchild.entry hj').2.2

/-- The keys of a node do not go down. -/
theorem KeysOk.key_le {d : ℕ} {buf : Block} {lo hi j k : ℕ}
    (hk : KeysOk fs d buf lo hi) (hjk : j ≤ k)
    (hlt : k < ehEntries buf) : eiBlock buf (entryAt j) ≤ eiBlock buf (entryAt k) := by
  rcases hjk.lt_or_eq with hjk | rfl
  · exact (hk.entry (hjk.trans hlt)).2.1.le.trans (hk.end_le hjk hlt)
  · exact le_refl _

/-! ### Where the cursor is -/

/-- **A path of the tree**, from the root to a level. -/
structure OnPath (fs : ExtentFs) (iBlock : Block) (h : ExtentHandle) (l : ℕ) : Prop where
  level : h.level = l
  depth : h.maxDepth = ehDepth iBlock
  le : l ≤ h.maxDepth
  path : ∀ j ≤ l, PathOk fs (h.maxDepth - j) (h.path j)
  root : (h.path 0).buf = iBlock
  below : ∀ j < l, (h.path (j + 1)).buf = childAt fs (h.path j).buf (h.path j).index

/-- **The cursor is on an extent**, with these extents before it and these behind it. -/
structure CursorAt (fs : ExtentFs) (iBlock : Block) (h : ExtentHandle)
    (before : List Extent) (x : Extent) (after : List Extent) : Prop where
  path : OnPath fs iBlock h h.maxDepth
  extent : leafAt (h.path h.maxDepth).buf (h.path h.maxDepth).index = x
  gone : leavesGone fs h h.maxDepth = before
  come : leavesToCome fs h h.maxDepth = after

/-- The extents of a node: before the entry, below it and behind it. -/
theorem leavesOf_split {d : ℕ} {p : ExtentPath} (hp : PathOk fs d p) :
    leavesOf fs d p.buf = leavesBefore fs d p ++
      (entryLeaves fs d p.buf p.index ++ leavesBehind fs d p) := by
  have hleft := hp.left
  have hsum : ehEntries p.buf = p.index + (p.left + 1) := by
    rw [ExtentPath.index, ← hp.entries]
    omega
  rw [leavesOf_eq, hsum, List.range_eq_range', ← List.range'_append_1, Nat.zero_add,
    List.flatMap_append, flatMap_range'_succ, leavesBefore, leavesBehind, List.range_eq_range']

theorem OnPath.leaves_at {iBlock : Block} (ho : OnPath fs iBlock h l) :
    ∀ j ≤ l, leavesOf fs (ehDepth iBlock) iBlock =
      leavesGone fs h j ++ (entryLeaves fs (h.maxDepth - j) (h.path j).buf
        (h.path j).index ++ leavesToCome fs h j) := by
  intro j
  induction j with
  | zero =>
    intro hj
    have hsplit := leavesOf_split (ho.path 0 hj)
    rw [Nat.sub_zero, ho.root] at hsplit
    rw [← ho.depth, hsplit, leavesGone, leavesToCome, Nat.sub_zero, ho.root]
  | succ j ih =>
    intro hj
    have hlt : j + 1 ≤ h.maxDepth := hj.trans ho.le
    have hentry : entryLeaves fs (h.maxDepth - j) (h.path j).buf (h.path j).index =
        leavesOf fs (h.maxDepth - (j + 1)) (h.path (j + 1)).buf := by
      rw [ho.below j hj, show h.maxDepth - j = h.maxDepth - (j + 1) + 1 by omega]
      rfl
    rw [ih (by omega), hentry, leavesOf_split (ho.path (j + 1) hj), leavesGone, leavesToCome]
    simp only [List.append_assoc]

/-- **The extents of the tree are those before the cursor, the one it is on, and those behind
it.** -/
theorem CursorAt.leaves {iBlock : Block} {before after : List Extent} {x : Extent}
    (hc : CursorAt fs iBlock h before x after) :
    leavesOf fs (ehDepth iBlock) iBlock = before ++ x :: after := by
  have hall := hc.path.leaves_at h.maxDepth (le_refl _)
  rw [Nat.sub_self, hc.gone, hc.come] at hall
  rw [hall, ← hc.extent]
  rfl

theorem mem_leavesGone {x : Extent} :
    x ∈ leavesGone fs h l ↔ ∃ j ≤ l, x ∈ leavesBefore fs (h.maxDepth - j) (h.path j) := by
  induction l with
  | zero => simp [leavesGone]
  | succ l ih =>
    rw [leavesGone, List.mem_append, ih]
    constructor
    · rintro (⟨j, hj, hx⟩ | hx)
      · exact ⟨j, by omega, hx⟩
      · exact ⟨l + 1, le_refl _, hx⟩
    · rintro ⟨j, hj, hx⟩
      rcases hj.lt_or_eq with hlt | rfl
      · exact Or.inl ⟨j, by omega, hx⟩
      · exact Or.inr hx

theorem mem_leavesToCome {x : Extent} :
    x ∈ leavesToCome fs h l ↔ ∃ j ≤ l, x ∈ leavesBehind fs (h.maxDepth - j) (h.path j) := by
  induction l with
  | zero => simp [leavesToCome]
  | succ l ih =>
    rw [leavesToCome, List.mem_append, ih]
    constructor
    · rintro (hx | ⟨j, hj, hx⟩)
      · exact ⟨l + 1, le_refl _, hx⟩
      · exact ⟨j, by omega, hx⟩
    · rintro ⟨j, hj, hx⟩
      rcases hj.lt_or_eq with hlt | rfl
      · exact Or.inr ⟨j, by omega, hx⟩
      · exact Or.inl hx

/-- Behind an entry that the block precedes. -/
theorem KeysOk.lt_behind {d blk lo hi : ℕ} {p : ExtentPath} (hk : KeysOk fs d p.buf lo hi)
    (hp : PathOk fs d p) (hnext : 0 < p.left → blk < eiBlock p.buf (entryAt (p.index + 1))) :
    ∀ x ∈ leavesBehind fs d p, blk < x.lblk := by
  intro x hx
  obtain ⟨k, hmem, hxk⟩ := List.mem_flatMap.mp hx
  have hk' := List.mem_range'_1.mp hmem
  have hleft := hp.left
  have hlt : k < ehEntries p.buf := by
    rw [← hp.entries]
    rw [ExtentPath.index] at hk'
    omega
  calc blk < eiBlock p.buf (entryAt (p.index + 1)) := hnext (by omega)
    _ ≤ eiBlock p.buf (entryAt k) := hk.key_le hk'.1 hlt
    _ ≤ x.lblk := (hk.entryLeaves_between k hlt x hxk).1

end Goto

end E2fsprogs
