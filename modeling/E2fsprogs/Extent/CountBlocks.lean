import E2fsprogs.Extent.Goto

/-!
# Counting the blocks of a file

`ext2fs_count_blocks` of `lib/ext2fs/extent.c`. The tree is gone through with `EXT2_EXTENT_NEXT`. At
each extent its blocks are counted, and so is each level of the path above the leaf whose `end_blk`
is not the one that was seen there last. What was seen last is kept in an array that is not
initialised: its first contents are a parameter.

The count comes out of the tree by recursion on its height (`E2fsprogs.countBelow`), whatever the
loop is at when it comes to a node.
-/

namespace E2fsprogs

/-! ### The count -/

section Count

variable (fs : ExtentFs)

/-- A level of the path is compared with what was seen there last. -/
def countNode (ends : ℕ → ℕ) (acc : ℕ × (ℕ → ℕ)) (i : ℕ) : ℕ × (ℕ → ℕ) :=
  if acc.2 i ≠ ends i then (acc.1 + 1, Function.update acc.2 i (ends i)) else acc

/-- The ends of the nodes of the path. -/
def ExtentHandle.ends (h : ExtentHandle) (i : ℕ) : ℕ := (h.path i).endBlk

/-- An extent is counted, with the levels above it. -/
def countExtent (level : ℕ) (ends : ℕ → ℕ) (extent : Extent) (acc : ℕ × (ℕ → ℕ)) : ℕ × (ℕ → ℕ) :=
  if extent.leaf then (List.range level).foldl (countNode ends) (acc.1 + extent.len, acc.2) else acc

/-- The body of the loop. -/
def countRound (s : (Extent × ExtentHandle) × (ℕ × (ℕ → ℕ))) :
    (Extent × ExtentHandle) × (ℕ × (ℕ → ℕ)) ⊕ ℕ :=
  let ((extent, h), acc) := s
  let acc := countExtent h.level h.ends extent acc
  match extentMove fs .next h with
  | (.error _, _) => .inr acc.1
  | (.ok extent, h) => .inl ((extent, h), acc)

/-- `ext2fs_count_blocks`, with at most `n` rounds, where `nodes` is what the array holds at
first. -/
def countBlocks (n : ℕ) (nodes : ℕ → ℕ) (iBlock : Block) (endBlk : ℕ) : Option ℕ :=
  match extentOpen iBlock endBlk with
  | none => some 0
  | some h =>
    match extentMove fs .root h with
    | (.error _, _) => some 0
    | (.ok extent, h) => Loop.run (countRound fs) n ((extent, h), (h.level, nodes))

/-- The blocks below a node, one for each node. -/
def nodesBelow : ℕ → Block → ℕ
  | 0, _ => 0
  | d + 1, buf =>
    ((List.range (ehEntries buf)).map fun k => 1 + nodesBelow d (childAt fs buf k)).sum

/-- **The blocks that a tree uses**: those of the extents and those of the nodes. -/
def blocksUsed (d : ℕ) (buf : Block) : ℕ :=
  ((leavesOf fs d buf).map Extent.len).sum + nodesBelow fs d buf

/-- **The count of a node** of a tree of a depth, once the loop has come to it with these ends
above. -/
def countBelow (depth : ℕ) : ℕ → (ℕ → ℕ) → Block → ℕ × (ℕ → ℕ) → ℕ × (ℕ → ℕ)
  | 0, ends, buf, acc =>
    (List.range (ehEntries buf)).foldl (fun acc k => countExtent depth ends (leafAt buf k) acc) acc
  | d + 1, ends, buf, acc => (List.range (ehEntries buf)).foldl (fun acc k =>
      countBelow depth d (Function.update ends (depth - d)
        (entryEnd buf (ends (depth - (d + 1))) k)) (childAt fs buf k) acc)
      acc

/-- The count of an entry of a node. -/
def countEntry (depth d : ℕ) (ends : ℕ → ℕ) (buf : Block) (acc : ℕ × (ℕ → ℕ)) (k : ℕ) :
    ℕ × (ℕ → ℕ) :=
  match d with
  | 0 => countExtent depth ends (leafAt buf k) acc
  | d + 1 =>
    countBelow fs depth d (Function.update ends (depth - d)
      (entryEnd buf (ends (depth - (d + 1))) k))
      (childAt fs buf k) acc

theorem countBelow_eq (depth d : ℕ) (ends : ℕ → ℕ) (buf : Block) (acc : ℕ × (ℕ → ℕ)) :
    countBelow fs depth d ends buf acc = (List.range (ehEntries buf)).foldl
      (countEntry fs depth d ends buf) acc := by
  cases d <;> rfl

end Count

section Walk

variable {fs : ExtentFs} {h : ExtentHandle} {l : ℕ}

/-! ### The count depends on the ends above only -/

theorem foldl_countNode_congr {ends ends' : ℕ → ℕ} {n : ℕ} (he : ∀ i < n, ends i = ends' i)
    (acc : ℕ × (ℕ → ℕ)) :
    (List.range n).foldl (countNode ends) acc = (List.range n).foldl (countNode ends') acc := by
  refine List.foldl_ext _ _ _ fun acc i hi => ?_
  rw [countNode, countNode, he i (List.mem_range.mp hi)]

theorem countExtent_congr {depth : ℕ} {ends ends' : ℕ → ℕ} (he : ∀ i < depth, ends i = ends' i)
    {x y : Extent} (hleaf : x.leaf = y.leaf) (hlen : x.len = y.len) (acc : ℕ × (ℕ → ℕ)) :
    countExtent depth ends x acc = countExtent depth ends' y acc := by
  rw [countExtent, countExtent, hleaf, hlen, foldl_countNode_congr he]

theorem countBelow_congr {depth d : ℕ} {ends ends' : ℕ → ℕ} (hd : d ≤ depth)
    (he : ∀ i ≤ depth - d, ends i = ends' i) (buf : Block) (acc : ℕ × (ℕ → ℕ)) :
    countBelow fs depth d ends buf acc = countBelow fs depth d ends' buf acc := by
  induction d generalizing ends ends' buf acc with
  | zero => exact List.foldl_ext _ _ _ fun acc k _ =>
    countExtent_congr (fun i hi => he i (by omega)) rfl rfl acc
  | succ d ih =>
    refine List.foldl_ext _ _ _ fun acc k _ => ih (by omega) (fun i hi => ?_) _ acc
    rcases eq_or_ne i (depth - d) with rfl | hne
    · rw [Function.update_self, Function.update_self, he (depth - (d + 1)) (le_refl _)]
    · rw [Function.update_of_ne hne, Function.update_of_ne hne, he i (by omega)]

theorem countEntry_congr {depth d : ℕ} {ends ends' : ℕ → ℕ} (hd : d ≤ depth)
    (he : ∀ i ≤ depth - d, ends i = ends' i) (buf : Block) (acc : ℕ × (ℕ → ℕ)) (k : ℕ) :
    countEntry fs depth d ends buf acc k = countEntry fs depth d ends' buf acc k := by
  cases d with
  | zero => exact countExtent_congr (fun i hi => he i (by omega)) rfl rfl acc
  | succ d =>
    refine countBelow_congr (by omega) (fun i hi => ?_) _ acc
    rcases eq_or_ne i (depth - d) with rfl | hne
    · rw [Function.update_self, Function.update_self, he (depth - (d + 1)) (le_refl _)]
    · rw [Function.update_of_ne hne, Function.update_of_ne hne, he i (by omega)]

/-! ### The walk -/

/-- The extent is the one of the current entry, as far as it is counted. -/
structure CountsAs (h : ExtentHandle) (x : Extent) : Prop where
  leaf : x.leaf = decide (h.level = h.maxDepth)
  len : h.level = h.maxDepth → x.len = (leafAt h.here.buf h.here.index).len

theorem countsAs_at (h : ExtentHandle) (l : ℕ) (p : ExtentPath) :
    CountsAs (h.at l p) ((h.at l p).extent (entryAt p.index)) where
  leaf := by
    rw [ExtentHandle.extent]
    dsimp only
    split
    next heq => exact (decide_eq_true heq).symm
    next hne => exact (decide_eq_false hne).symm
  len hl := by
    have hl : l = h.maxDepth := hl
    rw [extent_len hl, at_here]

/-- What is no leaf is not counted. -/
theorem CountsAs.countExtent_of_ne {x : Extent} (hx : CountsAs h x)
    (hl : h.level ≠ h.maxDepth) (level : ℕ)
    (ends : ℕ → ℕ) (acc : ℕ × (ℕ → ℕ)) : countExtent level ends x acc = acc := by
  rw [countExtent, hx.leaf, decide_eq_false hl]
  rfl

/-- One round. -/
theorem countRound_of_step {h' : ExtentHandle} {x x' : Extent} {acc : ℕ × (ℕ → ℕ)}
    (hstep : getStep fs .next (h, false) = .inr (.ok x', h')) :
    Loop.Round (countRound fs) ((x, h), acc) ((x', h'), countExtent h.level h.ends x acc) := by
  rw [Loop.Round, countRound, extentMove, hstep]

/-- **The walk is done with an entry** that it came to, or with a node: the path above is as it
was. -/
structure Finished (fs : ExtentFs) (h h' : ExtentHandle) (l : ℕ) : Prop where
  maxDepth : h'.maxDepth = h.maxDepth
  forward : GoesForward fs h' l
  done : DoneBelow h' l
  above : ∀ j < l, h'.path j = h.path j
  buf : (h'.path l).buf = (h.path l).buf
  endBlk : (h'.path l).endBlk = (h.path l).endBlk

/-- What the walk does at an entry of a height. -/
def WalksEntry (fs : ExtentFs) (d : ℕ) : Prop :=
  ∀ (h : ExtentHandle) (l : ℕ) (x : Extent) (acc : ℕ × (ℕ → ℕ)), GoesForward fs h l →
    l + d = h.maxDepth →
    (h.path l).visitNum = 0 → CountsAs h x →
    ∃ h' x' acc', Loop.Reach (countRound fs) ((x, h), acc) ((x', h'), acc') ∧ Finished fs h h' l ∧
      (h'.path l).left = (h.path l).left ∧
      countExtent h'.level h'.ends x' acc' =
        countEntry fs h.maxDepth d h.ends (h.path l).buf acc (h.path l).index

/-- What the walk does from an entry to the end of its node. -/
def WalksNode (fs : ExtentFs) (d : ℕ) : Prop :=
  ∀ (h : ExtentHandle) (l : ℕ) (x : Extent) (acc : ℕ × (ℕ → ℕ)), GoesForward fs h l →
    l + d = h.maxDepth →
    (h.path l).visitNum = 0 → CountsAs h x →
    ∃ h' x' acc', Loop.Reach (countRound fs) ((x, h), acc) ((x', h'), acc') ∧ Finished fs h h' l ∧
      (h'.path l).left = 0 ∧
      countExtent h'.level h'.ends x' acc' =
        (List.range' (h.path l).index ((h.path l).left + 1)).foldl
        (countEntry fs h.maxDepth d h.ends (h.path l).buf) acc

/-- An extent of a leaf. -/
theorem walksEntry_zero : WalksEntry fs 0 := by
  intro h l x acc hf hl hv hx
  have hD : h.level = h.maxDepth := hf.level.trans hl
  refine ⟨h, x, acc, Relation.ReflTransGen.refl,
    ⟨rfl, hf, Or.inl hl, fun j _ => rfl, rfl, rfl⟩, rfl, ?_⟩
  rw [hD, countEntry]
  refine countExtent_congr (fun i _ => rfl) ?_ ?_ acc
  · rw [hx.leaf, decide_eq_true hD]
    rfl
  · rw [hx.len hD, ExtentHandle.here, hf.level]

/-- Entry by entry to the end of the node. -/
theorem walksNode_of_entry {d : ℕ} (he : WalksEntry fs d) : WalksNode fs d := by
  intro h l x acc hf hl hv hx
  -- the induction is on the number of entries left in the node
  induction hn : (h.path l).left generalizing h x acc with
  | zero =>
    obtain ⟨h', x', acc', hreach, hfin, hleft, hcount⟩ := he h l x acc hf hl hv hx
    exact ⟨h', x', acc', hreach, hfin, hleft.trans hn, hcount⟩
  | succ n ih =>
    obtain ⟨h₁, x₁, acc₁, hreach₁, hfin₁, hleft₁, hcount₁⟩ := he h l x acc hf hl hv hx
    obtain ⟨p, hf₂, hbuf, hleft, hv₂, hend, hstep⟩ :=
      getStep_next (Or.inl rfl) hfin₁.forward hfin₁.done (by omega)
    rw [if_neg (fun hc => by cases hc.1)] at hstep
    have hp : PathOk fs (h₁.maxDepth - l) p := by
      have := hf₂.path l (le_refl l)
      rwa [at_path_self, at_maxDepth] at this
    have hidx : p.index = (h.path l).index + 1 := by
      have h1 := hp.entries
      have h2 := (hf.path l (le_refl l)).entries
      have h3 := (hf.path l (le_refl l)).left
      rw [hbuf, hfin₁.buf] at h1
      rw [ExtentPath.index, ExtentPath.index]
      omega
    obtain ⟨h', x', acc', hreach, hfin, hlast, hcount⟩ := ih (h₁.at l p) _ _ hf₂
      (by rw [at_maxDepth, hfin₁.maxDepth, hl]) (by rw [at_path_self]; exact hv₂)
        (countsAs_at h₁ l p)
      (by rw [at_path_self]; omega)
    refine ⟨h', x', acc', hreach₁.trans
      (Relation.ReflTransGen.head (countRound_of_step hstep) hreach), ?_, hlast, ?_⟩
    · refine ⟨hfin.maxDepth.trans hfin₁.maxDepth, hfin.forward, hfin.done, fun j hj => ?_, ?_, ?_⟩
      · rw [hfin.above j hj, at_path_of_ne (Nat.ne_of_lt hj), hfin₁.above j hj]
      · rw [hfin.buf, at_path_self, hbuf, hfin₁.buf]
      · rw [hfin.endBlk, at_path_self, hend, hfin₁.endBlk]
    · have hcons : List.range' (h.path l).index (n + 1 + 1) =
          (h.path l).index :: List.range' ((h.path l).index + 1) (n + 1) := List.range'_succ
      rw [hcount, at_path_self, at_maxDepth, hidx, hbuf, hfin₁.buf, hfin₁.maxDepth, hcount₁, hcons,
        List.foldl_cons]
      refine List.foldl_ext _ _ _ fun acc k _ =>
        countEntry_congr (by omega) (fun i hi => ?_) _ acc k
      rw [ExtentHandle.ends]
      rcases eq_or_ne i l with rfl | hne
      · rw [at_path_self, hend, hfin₁.endBlk]
        rfl
      · rw [at_path_of_ne hne, hfin₁.above i (by omega)]
        rfl

/-- Down from an entry, through the node below and up again. -/
theorem walksEntry_succ {d : ℕ} (hn : WalksNode fs d) : WalksEntry fs (d + 1) := by
  intro h l x acc hf hl hv hx
  have hlt : l < h.maxDepth := by omega
  -- the round that goes down into the child
  obtain ⟨p, h₁, hf₁, hmax₁, hpath₁, hidx, hbuf, hend, hv₁, hkeep, hkeepl, h₀, rfl, hmax₀, hstep⟩ :=
    getStep_down (Or.inl rfl) hf hlt hv
  rw [if_neg (fun hc => by cases hc.1)] at hstep
  obtain ⟨h₂, x₂, acc₂, hreach, hfin, hlast, hcount⟩ := hn (h₀.at (l + 1) p) (l + 1) _ acc hf₁
    (by rw [hmax₁]; omega) (by rw [at_path_self]; exact hv₁) (countsAs_at h₀ (l + 1) p)
  -- the round that comes back up from its last entry
  obtain ⟨q, hf₃, hbuf₃, hleft₃, hentries₃, hv₃, hend₃, hstep₃⟩ :=
    getStep_up (Or.inl rfl) hfin.forward hfin.done hlast
  rw [if_neg (fun hc => by cases hc)] at hstep₃
  have hmax₂ : h₂.maxDepth = h.maxDepth := hfin.maxDepth.trans hmax₁
  have hl₂ : h₂.path l = (h₀.at (l + 1) p).path l := hfin.above l (Nat.lt_succ_self l)
  refine ⟨h₂.at l q, (h₂.at l q).extent (entryAt q.index), countExtent h₂.level h₂.ends x₂ acc₂, ?_,
    ⟨hmax₂, hf₃, Or.inr ?_, fun j hj => ?_, ?_, ?_⟩, ?_, ?_⟩
  · have hfirst := @countRound_of_step fs h _ x _ acc hstep
    rw [hx.countExtent_of_ne (by rw [hf.level]; exact hlt.ne)] at hfirst
    exact (Relation.ReflTransGen.head hfirst hreach).tail (countRound_of_step hstep₃)
  · rw [at_path_self]
    exact hv₃
  · rw [at_path_of_ne (Nat.ne_of_lt hj), hfin.above j (by omega), hkeep j hj]
  · rw [at_path_self, hbuf₃, hl₂, hkeepl]
  · rw [at_path_self, hend₃, hl₂, hkeepl]
  · rw [at_path_self, hleft₃, hl₂, hkeepl]
  · have hp : PathOk fs (h.maxDepth - (l + 1)) p := by
      have := hf₁.path (l + 1) (le_refl _)
      rwa [hpath₁, hmax₁] at this
    have hall : ehEntries p.buf = p.left + 1 := by
      have := hp.left
      rw [ExtentPath.index] at hidx
      rw [← hp.entries]
      omega
    -- the index entry counts nothing of its own, so what was counted is the node below
    rw [(countsAs_at h₂ l q).countExtent_of_ne (by rw [at_level, at_maxDepth, hmax₂]; exact hlt.ne),
      hcount, at_path_self, hmax₁, hidx, ← hall, ← List.range_eq_range', ← countBelow_eq,
      hbuf, countEntry]
    refine countBelow_congr (by omega) (fun i hi => ?_) _ acc
    rw [show h.maxDepth - d = l + 1 by omega, show h.maxDepth - (d + 1) = l by omega,
      ExtentHandle.ends]
    rcases eq_or_ne i (l + 1) with rfl | hne
    · rw [at_path_self, Function.update_self, hend]
      rfl
    · rw [Function.update_of_ne hne]
      rcases eq_or_ne i l with rfl | hne'
      · rw [hkeepl]
        rfl
      · rw [hkeep i (by omega)]
        rfl

theorem walksEntry (d : ℕ) : WalksEntry fs d := by
  induction d with
  | zero => exact walksEntry_zero
  | succ d ih => exact walksEntry_succ (walksNode_of_entry ih)

/-- **The loop counts a node** as `countBelow` does. -/
theorem walksNode (d : ℕ) : WalksNode fs d := walksNode_of_entry (walksEntry d)

/-- From a new handle. -/
theorem count_of_atRoot {buf : Block} {endBlk : ℕ} (hr : AtRoot fs h buf endBlk) (nodes : ℕ → ℕ) :
    ∃ x h', extentMove fs .root h = (.ok x, h') ∧ h'.level = 0 ∧
      Loop.Leaves (countRound fs) ((x, h'), (0, nodes))
        (countBelow fs h.maxDepth h.maxDepth (fun _ => endBlk) buf (0, nodes)).1 := by
  obtain ⟨p, hf, hbuf, hidx, hv, hend, hstep⟩ := getStep_root hr
  refine ⟨(h.at 0 p).extent (entryAt p.index), h.at 0 p, by rw [extentMove, hstep], rfl, ?_⟩
  obtain ⟨h', x', acc', hreach, hfin, hlast, hcount⟩ :=
    walksNode h.maxDepth (h.at 0 p) 0 _ (0, nodes) hf
    (Nat.zero_add _) (by rw [at_path_self]; exact hv) (countsAs_at h 0 p)
  have hp : PathOk fs h.maxDepth p := by
    have := hf.path 0 (le_refl 0)
    rwa [at_path_self, at_maxDepth, Nat.sub_zero] at this
  have hall : ehEntries p.buf = p.left + 1 := by
    have := hp.left
    rw [ExtentPath.index] at hidx
    rw [← hp.entries]
    omega
  rw [at_path_self, at_maxDepth, hidx, ← hall, ← List.range_eq_range', ← countBelow_eq,
    hbuf] at hcount
  have hends : countBelow fs h.maxDepth h.maxDepth (h.at 0 p).ends buf (0, nodes) =
      countBelow fs h.maxDepth h.maxDepth (fun _ => endBlk) buf (0, nodes) := by
    refine countBelow_congr (le_refl _) (fun i hi => ?_) buf _
    rw [show i = 0 by omega, ExtentHandle.ends, at_path_self, hend]
  refine Loop.leaves_of_reach hreach (Loop.leaves_of_inr ?_)
  rw [countRound, extentMove, getStep_noNext (Or.inl rfl) hfin.forward hfin.done hlast,
    hcount, hends]

/-- **The count of a tree** is the one of its root. -/
theorem countBlocks_eq {iBlock : Block} (hheader : extentHeaderVerify iBlock 60 = true)
    (hnode : NodeOk fs (ehDepth iBlock) iBlock) (nodes : ℕ → ℕ) (endBlk : ℕ) :
    ∃ N, ∀ n, N ≤ n → countBlocks fs n nodes iBlock endBlk =
      some (countBelow fs (ehDepth iBlock) (ehDepth iBlock) (fun _ => endBlk) iBlock (0,
        nodes)).1 := by
  obtain ⟨h, hopen, hmax, hroot⟩ := extentOpen_atRoot hheader hnode endBlk
  obtain ⟨x, h', hmove, hlevel, N, hN⟩ := count_of_atRoot hroot nodes
  refine ⟨N, fun n hn => ?_⟩
  rw [countBlocks, hopen]
  dsimp only
  rw [hmove]
  dsimp only
  rw [hlevel, ← hmax]
  exact Loop.run_mono hn hN

end Walk

end E2fsprogs
