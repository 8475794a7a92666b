import E2fsprogs.Extent.Get

/-!
# The tree below a node

What a node of a given height stands for: the extents of the leaves below it, in order
(`E2fsprogs.leavesOf`), and the walk round it that comes to every index entry before and after what
is below it (`E2fsprogs.visitsOf`). Then what the moves of `E2fsprogs.moveExtent` do on a path whose
nodes are sane.
-/

namespace E2fsprogs

/-! ### Entries -/

/-- The offset of an entry. -/
def entryAt (k : ℕ) : ℕ := 12 + 12 * k

/-- The extent of an entry of a leaf. -/
def leafAt (buf : Block) (k : ℕ) : Extent where
  pblk := eeStart buf (entryAt k)
  lblk := eiBlock buf (entryAt k)
  len := if 32768 < eeLen buf (entryAt k) then eeLen buf (entryAt k) - 32768
    else eeLen buf (entryAt k)
  leaf := true
  uninit := decide (32768 < eeLen buf (entryAt k))
  secondVisit := false

/-- Where the blocks below an index entry end. -/
def entryEnd (buf : Block) (endBlk k : ℕ) : ℕ :=
  if k + 1 < ehEntries buf then eiBlock buf (entryAt (k + 1)) else endBlk

/-- The extent that stands for an index entry. -/
def indexAt (buf : Block) (endBlk k : ℕ) (secondVisit : Bool) : Extent where
  pblk := eiLeaf buf (entryAt k)
  lblk := eiBlock buf (entryAt k)
  len := (entryEnd buf endBlk k + 2 ^ 64 - eiBlock buf (entryAt k)) % 2 ^ 32
  leaf := false
  uninit := false
  secondVisit := secondVisit

variable (fs : ExtentFs)

/-- The node below an index entry. -/
def childAt (buf : Block) (k : ℕ) : Block := fs.disk (eiLeaf buf (entryAt k))

/-- **The extents below a node** of a height. -/
def leavesOf : ℕ → Block → List Extent
  | 0, buf => (List.range (ehEntries buf)).flatMap fun k => [leafAt buf k]
  | d + 1, buf => (List.range (ehEntries buf)).flatMap fun k => leavesOf d (childAt fs buf k)

/-- The extents below an entry. -/
def entryLeaves (d : ℕ) (buf : Block) (k : ℕ) : List Extent :=
  match d with
  | 0 => [leafAt buf k]
  | d + 1 => leavesOf fs d (childAt fs buf k)

theorem leavesOf_eq (d : ℕ) (buf : Block) :
    leavesOf fs d buf = (List.range (ehEntries buf)).flatMap (entryLeaves fs d buf) := by
  cases d <;> rfl

/-- **The walk round a node**: an index entry comes before and after what is below it, the second
time with the flag. -/
def visitsOf : ℕ → Block → ℕ → List Extent
  | 0, buf, _ => (List.range (ehEntries buf)).flatMap fun k => [leafAt buf k]
  | d + 1, buf, endBlk => (List.range (ehEntries buf)).flatMap fun k =>
      indexAt buf endBlk k false ::
        (visitsOf d (childAt fs buf k) (entryEnd buf endBlk k) ++ [indexAt buf endBlk k true])

/-- The walk round an entry. -/
def entryVisits (d : ℕ) (buf : Block) (endBlk k : ℕ) : List Extent :=
  match d with
  | 0 => [leafAt buf k]
  | d + 1 => indexAt buf endBlk k false ::
      (visitsOf fs d (childAt fs buf k) (entryEnd buf endBlk k) ++ [indexAt buf endBlk k true])

theorem visitsOf_eq (d : ℕ) (buf : Block) (endBlk : ℕ) :
    visitsOf fs d buf endBlk = (List.range (ehEntries buf)).flatMap
      (entryVisits fs d buf endBlk) := by
  cases d <;> rfl

/-- The first of a range of entries. -/
theorem flatMap_range'_succ {α : Type} (f : ℕ → List α) (k n : ℕ) :
    (List.range' k (n + 1)).flatMap f = f k ++ (List.range' (k + 1) n).flatMap f := by
  rw [List.range'_succ, List.flatMap_cons]

/-- The last of a range of entries. -/
theorem flatMap_range_succ {α : Type} (f : ℕ → List α) (n : ℕ) :
    (List.range (n + 1)).flatMap f = (List.range n).flatMap f ++ f n := by
  rw [List.range_succ, List.flatMap_append, List.flatMap_singleton]

/-- **A node that the moves can go through**: it has entries, and the nodes below it are sane. -/
def NodeOk : ℕ → Block → Prop
  | 0, buf => 0 < ehEntries buf
  | d + 1, buf => 0 < ehEntries buf ∧ ∀ k < ehEntries buf,
      extentHeaderVerify (childAt fs buf k) fs.blocksize = true ∧
        (fs.ignoreCsumErrors || extentBlockCsumVerify fs (childAt fs buf k)) = true ∧
          NodeOk d (childAt fs buf k)

variable {fs}

theorem NodeOk.pos {d : ℕ} {buf : Block} (h : NodeOk fs d buf) : 0 < ehEntries buf := by
  cases d with
  | zero => exact h
  | succ d => exact h.1

/-! ### Paths -/

/-- The number of the current entry. -/
def ExtentPath.index (p : ExtentPath) : ℕ := p.entries - 1 - p.left

/-- A level of a path, through an entry of a sane node. -/
structure PathOk (fs : ExtentFs) (d : ℕ) (p : ExtentPath) : Prop where
  node : NodeOk fs d p.buf
  entries : p.entries = ehEntries p.buf
  left : p.left < p.entries
  curr : p.curr = some (entryAt p.index)

theorem PathOk.congr {d : ℕ} {p p' : ExtentPath} (h : PathOk fs d p) (hbuf : p'.buf = p.buf)
    (hentries : p'.entries = p.entries) (hleft : p'.left = p.left) (hcurr : p'.curr = p.curr) :
    PathOk fs d p' where
  node := hbuf ▸ h.node
  entries := by rw [hentries, hbuf]; exact h.entries
  left := by rw [hleft, hentries]; exact h.left
  curr := by rw [hcurr, ExtentPath.index, hentries, hleft]; exact h.curr

/-- A handle that has come to a level, which is changed. -/
def ExtentHandle.at (h : ExtentHandle) (l : ℕ) (p : ExtentPath) : ExtentHandle :=
  { h with level := l, path := Function.update h.path l p }

@[simp] theorem at_level (h : ExtentHandle) (l : ℕ) (p : ExtentPath) : (h.at l p).level = l := rfl

@[simp] theorem at_maxDepth (h : ExtentHandle) (l : ℕ) (p : ExtentPath) :
    (h.at l p).maxDepth = h.maxDepth := rfl

@[simp] theorem at_here (h : ExtentHandle) (l : ℕ) (p : ExtentPath) : (h.at l p).here = p :=
  Function.update_self _ _ _

@[simp] theorem at_path_self (h : ExtentHandle) (l : ℕ) (p : ExtentPath) : (h.at l p).path l = p :=
  Function.update_self _ _ _

theorem at_path_of_ne {h : ExtentHandle} {l j : ℕ} {p : ExtentPath} (hne : j ≠ l) :
    (h.at l p).path j = h.path j :=
  Function.update_of_ne hne _ _

theorem setPath_eq_at (h : ExtentHandle) (p : ExtentPath) : h.setPath p = h.at h.level p := rfl

/-! ### The moves -/

section Moves

variable {h : ExtentHandle}

/-- To the next entry. -/
theorem moveNextSib_eq {d : ℕ} (hp : PathOk fs d h.here) (hleft : 0 < h.here.left) :
    ∃ p, moveNextSib h = ⟨h.at h.level p, .ok (some (entryAt p.index), false)⟩ ∧ PathOk fs d p ∧
      p.buf = h.here.buf ∧ p.left + 1 = h.here.left ∧ p.visitNum = 0 ∧
      p.endBlk = h.here.endBlk := by
  have hidx : h.here.index + 1 = h.here.entries - 1 - (h.here.left - 1) := by
    have := hp.left
    rw [ExtentPath.index]
    omega
  have hnext : entryAt h.here.index + 12 = entryAt (h.here.index + 1) := by
    rw [entryAt, entryAt]
    omega
  obtain ⟨p, hpeq⟩ : ∃ p : ExtentPath, p = { h.here with
    left := h.here.left - 1, curr := some (entryAt (h.here.index + 1)), visitNum := 0 } := ⟨_, rfl⟩
  have hpidx : p.index = h.here.index + 1 := by rw [hidx, hpeq, ExtentPath.index]
  refine ⟨p, ?_, ?_, by rw [hpeq], ?_, by rw [hpeq], by rw [hpeq]⟩
  · rw [moveNextSib, hpidx, hpeq]
    dsimp only
    rw [if_neg (by omega), hp.curr]
    dsimp only
    rw [hnext]
    rfl
  · have := hp.left
    refine ⟨by rw [hpeq]; exact hp.node, by rw [hpeq]; exact hp.entries, ?_, ?_⟩
    · rw [hpeq]
      dsimp only
      omega
    · rw [hpidx, hpeq]
  · rw [hpeq]
    dsimp only
    omega

/-- To the entry before. -/
theorem movePrevSib_eq {d : ℕ} (hp : PathOk fs d h.here)
    (hleft : h.here.left + 1 < h.here.entries) :
    ∃ p, movePrevSib h = ⟨h.at h.level p, .ok (some (entryAt p.index), false)⟩ ∧ PathOk fs d p ∧
      p.buf = h.here.buf ∧ p.left = h.here.left + 1 ∧
      p.visitNum = (if h.level < h.maxDepth then 1 else h.here.visitNum) := by
  have hidx : h.here.index - 1 = h.here.entries - 1 - (h.here.left + 1) := by
    rw [ExtentPath.index]
    omega
  have hprev : entryAt h.here.index - 12 = entryAt (h.here.index - 1) := by
    have : 0 < h.here.index := by
      rw [ExtentPath.index]
      omega
    rw [entryAt, entryAt]
    omega
  obtain ⟨p, hpeq⟩ : ∃ p : ExtentPath, p = { h.here with
    left := h.here.left + 1, curr := some (entryAt (h.here.index - 1)),
    visitNum := if h.level < h.maxDepth then 1 else h.here.visitNum } := ⟨_, rfl⟩
  have hpidx : p.index = h.here.index - 1 := by rw [hidx, hpeq, ExtentPath.index]
  refine ⟨p, ?_, ?_, by rw [hpeq], by rw [hpeq], by rw [hpeq]⟩
  · rw [movePrevSib, hpidx, hpeq]
    dsimp only
    rw [hp.curr]
    dsimp only
    rw [if_neg (by omega), hprev]
    rfl
  · refine ⟨by rw [hpeq]; exact hp.node, by rw [hpeq]; exact hp.entries,
      by rw [hpeq]; exact hleft, ?_⟩
    rw [hpidx, hpeq]

theorem lastEntry_eq {buf : Block} (h : 0 < ehEntries buf) :
    lastEntry buf = entryAt (ehEntries buf - 1) := by
  rw [lastEntry, entryAt]
  omega

/-- To the last entry. -/
theorem moveLastSib_eq {d : ℕ} (hnode : NodeOk fs d h.here.buf)
    (hentries : h.here.entries = ehEntries h.here.buf) :
    ∃ p, moveLastSib h = ⟨h.at h.level p, .ok (some (entryAt p.index), false)⟩ ∧ PathOk fs d p ∧
      p.buf = h.here.buf ∧ p.left = 0 ∧ p.visitNum = 0 := by
  have hpos := hnode.pos
  refine ⟨{ h.here with curr := some (lastEntry h.here.buf), left := 0, visitNum := 0 }, ?_, ?_,
    rfl, rfl, rfl⟩
  · rw [moveLastSib, ExtentPath.index]
    dsimp only
    rw [hentries, Nat.sub_zero, ← lastEntry_eq hpos]
    rfl
  · refine ⟨hnode, hentries, ?_, ?_⟩
    · dsimp only
      omega
    · dsimp only
      rw [lastEntry_eq hpos, ExtentPath.index, hentries, Nat.sub_zero]

/-- Up, to the entry that the path goes through. -/
theorem moveUp_eq {d l : ℕ} {origOp : ExtentOp} (hl : h.level = l + 1)
    (hp : PathOk fs d (h.path l)) :
    ∃ p, moveUp origOp h = ⟨h.at l p, .ok (some (entryAt p.index), false)⟩ ∧ PathOk fs d p ∧
      p.buf = (h.path l).buf ∧ p.left = (h.path l).left ∧ p.endBlk = (h.path l).endBlk ∧
      p.visitNum = (if origOp = .prev ∨ origOp = .prevLeaf then 0 else (h.path l).visitNum) := by
  refine ⟨if origOp = .prev ∨ origOp = .prevLeaf then { h.path l with visitNum := 0 }
    else h.path l, ?_, ?_⟩
  · rw [moveUp, if_neg (by omega)]
    have hlevel : h.level - 1 = l := by omega
    simp only [hlevel]
    split
    · rw [show (ExtentHandle.here { h with level := l }) = h.path l from rfl]
      dsimp only
      rw [hp.curr]
      rfl
    · rw [show (ExtentHandle.here { h with level := l }) = h.path l from rfl, hp.curr]
      rfl
  · split
    · exact ⟨hp.congr rfl rfl rfl rfl, rfl, rfl, rfl, rfl⟩
    · exact ⟨hp, rfl, rfl, rfl, rfl⟩

/-- Down, to the first or the last entry of the node below. -/
theorem moveDown_eq {d : ℕ} (last : Bool) (hl : h.level < h.maxDepth)
    (hp : PathOk fs (d + 1) h.here) :
    ∃ p, moveDown fs last h = ⟨h.at (h.level + 1) p, .ok (some (entryAt p.index), false)⟩ ∧
    PathOk fs d p ∧
      p.buf = childAt fs h.here.buf h.here.index ∧
      p.left = (if last then 0 else ehEntries (childAt fs h.here.buf h.here.index) - 1) ∧
      p.endBlk = entryEnd h.here.buf h.here.endBlk h.here.index ∧
      p.visitNum = (if last then (if h.level + 1 < h.maxDepth then 1
        else (h.path (h.level + 1)).visitNum) else 0) := by
  have hleft := hp.left
  have hindex : h.here.index < ehEntries h.here.buf := by
    rw [← hp.entries, ExtentPath.index]
    omega
  obtain ⟨hverify, hcsum, hchild⟩ := hp.node.2 _ hindex
  obtain ⟨buf, hbuf⟩ : ∃ buf, buf = childAt fs h.here.buf h.here.index := ⟨_, rfl⟩
  rw [← hbuf] at hverify hcsum hchild ⊢
  have hpos := hchild.pos
  have hfailed : (!fs.ignoreCsumErrors && !extentBlockCsumVerify fs buf) = false := by
    rw [← Bool.not_or, hcsum, Bool.not_true]
  -- `end_blk` is the start of the next index entry where there is one
  have hend : (if 0 < h.here.left then eiBlock h.here.buf (entryAt h.here.index + 12)
    else h.here.endBlk) =
      entryEnd h.here.buf h.here.endBlk h.here.index := by
    rw [entryEnd, ← hp.entries, ExtentPath.index]
    have : entryAt (h.here.entries - 1 - h.here.left) + 12 =
        entryAt (h.here.entries - 1 - h.here.left + 1) := by
      rw [entryAt, entryAt]
      omega
    rw [this]
    by_cases h0 : 0 < h.here.left
    · rw [if_pos h0, if_pos (by omega)]
    · rw [if_neg h0, if_neg (by omega)]
  rw [moveDown]
  dsimp only
  rw [hp.curr]
  dsimp only
  rw [if_neg (by omega), show fs.disk (eiLeaf h.here.buf (entryAt h.here.index)) = buf
    from hbuf.symm, hverify, hfailed, hend, if_neg (by simp), if_neg (by omega)]
  cases last with
  | true =>
    obtain ⟨p, hpeq⟩ : ∃ p : ExtentPath, p = { h.path (h.level + 1) with
      buf := buf, entries := ehEntries buf, maxEntries := ehMax buf, left := 0,
      visitNum := if h.level + 1 < h.maxDepth then 1 else (h.path (h.level + 1)).visitNum,
      endBlk := entryEnd h.here.buf h.here.endBlk h.here.index, curr := some (lastEntry buf) } :=
        ⟨_, rfl⟩
    have hpidx : p.index = ehEntries buf - 1 := by rw [hpeq, ExtentPath.index, Nat.sub_zero]
    refine ⟨p, ?_, ?_, by rw [hpeq], by rw [hpeq, if_pos rfl], by rw [hpeq],
      by rw [hpeq, if_pos rfl]⟩
    · rw [hpidx, if_pos rfl, ← lastEntry_eq hpos, hpeq]
      rfl
    · refine ⟨by rw [hpeq]; exact hchild, by rw [hpeq], by rw [hpeq]; exact hpos, ?_⟩
      rw [hpidx, ← lastEntry_eq hpos, hpeq]
  | false =>
    obtain ⟨p, hpeq⟩ : ∃ p : ExtentPath, p = { h.path (h.level + 1) with
      buf := buf, entries := ehEntries buf, maxEntries := ehMax buf,
      left := ehEntries buf - 1, visitNum := 0,
      endBlk := entryEnd h.here.buf h.here.endBlk h.here.index, curr := some firstEntry } :=
        ⟨_, rfl⟩
    have hpidx : p.index = 0 := by rw [hpeq, ExtentPath.index, Nat.sub_self]
    refine ⟨p, ?_, ?_, by rw [hpeq], by rw [hpeq]; rfl, by rw [hpeq], by rw [hpeq]; rfl⟩
    · rw [hpidx, hpeq]
      rfl
    · refine ⟨by rw [hpeq]; exact hchild, by rw [hpeq], ?_, ?_⟩
      · rw [hpeq]
        dsimp only
        omega
      · rw [hpidx, hpeq]
        rfl

end Moves

end E2fsprogs
