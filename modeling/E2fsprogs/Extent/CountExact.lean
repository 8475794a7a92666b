import E2fsprogs.Extent.CountBlocks

/-!
# When the count of blocks is right

The loop of `ext2fs_count_blocks` compares the levels above the leaf, from the root on. The root is
in the inode and should not be counted, and the leaf is outside and should be. So one node too many
is counted for the whole tree, and one too few for each leaf: the count is right for a root that is
a leaf, and for a tree with a single leaf node, unless what the array held at first was taken for a
node seen before.
-/

namespace E2fsprogs

section CountExact

variable {fs : ExtentFs}

/-! ### Levels that were not seen -/

/-- The number of levels whose end is not the one that was seen there last. -/
def stale (n : ℕ) (ends nodes : ℕ → ℕ) : ℕ :=
  (List.range n).countP fun i => decide (nodes i ≠ ends i)

theorem stale_succ (n : ℕ) (ends nodes : ℕ → ℕ) :
    stale (n + 1) ends nodes = stale n ends nodes + if nodes n ≠ ends n then 1 else 0 := by
  rw [stale, List.range_succ, List.countP_append, List.countP_singleton, stale]
  simp only [decide_eq_true_eq]

theorem stale_congr {n : ℕ} {ends ends' nodes nodes' : ℕ → ℕ} (he : ∀ i < n, ends i = ends' i)
    (hn : ∀ i < n, nodes i = nodes' i) : stale n ends nodes = stale n ends' nodes' :=
  List.countP_congr fun i hi => by rw [he i (List.mem_range.mp hi), hn i (List.mem_range.mp hi)]

theorem stale_mono {n m : ℕ} (hnm : n ≤ m) (ends nodes : ℕ → ℕ) :
    stale n ends nodes ≤ stale m ends nodes := by
  induction m, hnm using Nat.le_induction with
  | base => exact le_refl _
  | succ m _ ih =>
    rw [stale_succ]
    exact ih.trans (Nat.le_add_right _ _)

theorem stale_le (n : ℕ) (ends nodes : ℕ → ℕ) : stale n ends nodes ≤ n := by
  rw [stale]
  exact List.countP_le_length.trans_eq List.length_range

theorem stale_eq_iff {n : ℕ} {ends nodes : ℕ → ℕ} :
    stale n ends nodes = n ↔ ∀ i < n, nodes i ≠ ends i := by
  rw [stale]
  conv_lhs => rhs; rw [← List.length_range (n := n)]
  rw [List.countP_eq_length]
  simp

theorem stale_self (n : ℕ) (ends : ℕ → ℕ) : stale n ends ends = 0 := by
  rw [stale, List.countP_eq_zero]
  simp

/-- The levels above an extent are seen. -/
theorem foldl_countNode (n : ℕ) (ends : ℕ → ℕ) (acc : ℕ × (ℕ → ℕ)) :
    (List.range n).foldl (countNode ends) acc =
      (acc.1 + stale n ends acc.2, fun i => if i < n then ends i else acc.2 i) := by
  induction n with
  | zero => rfl
  | succ n ih =>
    rw [List.range_succ, List.foldl_append, ih, List.foldl_cons, List.foldl_nil,
      countNode, stale_succ]
    have hnth : (if n < n then ends n else acc.2 n) = acc.2 n := if_neg (lt_irrefl n)
    simp only [hnth]
    have hset : Function.update (fun i => if i < n then ends i else acc.2 i) n (ends n) =
        fun i => if i < n + 1 then ends i else acc.2 i := by
      funext i
      rcases eq_or_ne i n with rfl | hne
      · rw [Function.update_self, if_pos (Nat.lt_succ_self i)]
      · rw [Function.update_of_ne hne]
        exact if_congr (by omega) rfl rfl
    by_cases hn : acc.2 n ≠ ends n
    · rw [if_pos hn, if_pos hn, hset, Nat.add_assoc]
    · have hself : Function.update (fun i => if i < n then ends i else acc.2 i) n (ends n) =
          fun i => if i < n then ends i else acc.2 i :=
        Function.update_eq_self_iff.mpr ((not_ne_iff.mp hn).symm.trans hnth.symm)
      rw [if_neg hn, if_neg hn, ← hset, Nat.add_zero, hself]

/-- What an extent of a leaf adds: its blocks, and the levels above it that were not seen. -/
theorem countExtent_leaf (depth : ℕ) (ends : ℕ → ℕ) (buf : Block) (k : ℕ) (acc : ℕ × (ℕ → ℕ)) :
    (countExtent depth ends (leafAt buf k) acc).1 =
      acc.1 + (leafAt buf k).len + stale depth ends acc.2 ∧
      stale depth ends (countExtent depth ends (leafAt buf k) acc).2 = 0 := by
  have heq : countExtent depth ends (leafAt buf k) acc = _ :=
    foldl_countNode depth ends (acc.1 + (leafAt buf k).len, acc.2)
  rw [heq]
  refine ⟨rfl, ?_⟩
  rw [← stale_self depth ends]
  exact stale_congr (fun _ _ => rfl) fun i hi => if_pos hi

/-! ### The nodes that are counted -/

/-- The number of leaf nodes of the tree below a node. -/
def leafNodes (fs : ExtentFs) : ℕ → Block → ℕ
  | 0, _ => 1
  | d + 1, buf => ((List.range (ehEntries buf)).map fun k => leafNodes fs d (childAt fs buf k)).sum

/-- The number of nodes below a node that are not leaves. -/
def interiorBelow (fs : ExtentFs) : ℕ → Block → ℕ
  | 0, _ => 0
  | d + 1, buf => ((List.range (ehEntries buf)).map fun k =>
      min d 1 + interiorBelow fs d (childAt fs buf k)).sum

theorem nodesBelow_eq (d : ℕ) (buf : Block) :
    nodesBelow fs (d + 1) buf = interiorBelow fs (d + 1) buf + leafNodes fs (d + 1) buf := by
  induction d generalizing buf with
  | zero =>
    rw [nodesBelow, interiorBelow, leafNodes, ← List.sum_map_add]
    rfl
  | succ d ih =>
    rw [nodesBelow, interiorBelow, leafNodes, ← List.sum_map_add]
    refine congrArg List.sum (List.map_congr_left fun k _ => ?_)
    rw [ih]
    omega

theorem leafNodes_pos {d : ℕ} {buf : Block} (hn : NodeOk fs d buf) : 0 < leafNodes fs d buf := by
  induction d generalizing buf with
  | zero => exact Nat.one_pos
  | succ d ih =>
    have hmem : leafNodes fs d (childAt fs buf 0) ∈
        (List.range (ehEntries buf)).map fun k => leafNodes fs d (childAt fs buf k) :=
      List.mem_map.mpr ⟨0, List.mem_range.mpr hn.1, rfl⟩
    exact (ih (hn.2 0 hn.1).2.2).trans_le (List.le_sum_of_mem hmem)

/-- A tree with a single leaf node has a single entry in each node above. -/
theorem entries_of_leafNodes {d : ℕ} {buf : Block} (hn : NodeOk fs (d + 1) buf)
    (hone : leafNodes fs (d + 1) buf = 1) :
    ehEntries buf = 1 ∧ leafNodes fs d (childAt fs buf 0) = 1 := by
  have hle : ehEntries buf ≤ leafNodes fs (d + 1) buf := by
    have hall : ∀ x ∈ (List.range (ehEntries buf)).map fun k =>
        leafNodes fs d (childAt fs buf k), 1 ≤ x := by
      intro x hx
      obtain ⟨k, hk, rfl⟩ := List.mem_map.mp hx
      exact leafNodes_pos (hn.2 k (List.mem_range.mp hk)).2.2
    have hcard := List.card_nsmul_le_sum _ 1 hall
    rw [List.length_map, List.length_range, smul_eq_mul, mul_one] at hcard
    exact hcard
  have hentries : ehEntries buf = 1 := le_antisymm (hle.trans_eq hone) hn.1
  rw [leafNodes, hentries] at hone
  exact ⟨hentries, by simpa using hone⟩

/-- What the extents of a leaf add, all together. -/
theorem foldl_countExtent (depth : ℕ) (ends : ℕ → ℕ) (buf : Block) (n : ℕ) (acc : ℕ × (ℕ → ℕ)) :
    let r := (List.range n).foldl (fun acc k => countExtent depth ends (leafAt buf k) acc) acc
    r.1 + stale depth ends r.2 =
        acc.1 + stale depth ends acc.2 + ((List.range n).map fun k => (leafAt buf k).len).sum ∧
      (0 < n → stale depth ends r.2 = 0) := by
  induction n with
  | zero => exact ⟨rfl, fun h0 => absurd h0 (lt_irrefl 0)⟩
  | succ n ih =>
    rw [List.range_succ, List.foldl_append, List.foldl_cons, List.foldl_nil, List.map_append,
      List.sum_append]
    dsimp only at ih ⊢
    obtain ⟨h1, h2⟩ := countExtent_leaf depth ends buf n
      ((List.range n).foldl (fun acc k => countExtent depth ends (leafAt buf k) acc) acc)
    refine ⟨?_, fun _ => h2⟩
    rw [h1, h2, List.map_singleton, List.sum_singleton]
    have := ih.1
    omega

theorem leavesOf_zero_len (buf : Block) :
    (leavesOf fs 0 buf).map Extent.len = (List.range (ehEntries buf)).map fun k =>
      (leafAt buf k).len := by
  rw [leavesOf, List.map_flatMap, List.map_eq_flatMap]
  rfl

/-- What the entries of a node add, when each adds no more than its own. -/
theorem foldl_stale_le {f : ℕ × (ℕ → ℕ) → ℕ → ℕ × (ℕ → ℕ)} {m : ℕ} {ends : ℕ → ℕ} {c : ℕ → ℕ}
    (hf : ∀ acc k, (f acc k).1 + stale m ends (f acc k).2 ≤ acc.1 + stale m ends acc.2 + c k)
    (n : ℕ) (acc : ℕ × (ℕ → ℕ)) :
    ((List.range n).foldl f acc).1 + stale m ends ((List.range n).foldl f acc).2 ≤
      acc.1 + stale m ends acc.2 + ((List.range n).map c).sum := by
  induction n with
  | zero => exact le_refl _
  | succ n ih =>
    rw [List.range_succ, List.foldl_append, List.foldl_cons, List.foldl_nil, List.map_append,
      List.sum_append, List.map_singleton, List.sum_singleton, ← Nat.add_assoc]
    exact (hf _ n).trans (Nat.add_le_add_right ih _)

theorem leavesOf_succ_len (d : ℕ) (buf : Block) : ((leavesOf fs (d + 1) buf).map Extent.len).sum =
    ((List.range (ehEntries buf)).map fun k =>
      ((leavesOf fs d (childAt fs buf k)).map Extent.len).sum).sum := by
  rw [leavesOf, List.map_flatMap, List.flatMap_def, List.sum_flatten, List.map_map]
  rfl

/-- **What a node adds at most**: its extents, the nodes below it that are not leaves, and the
levels above that were not seen. -/
theorem countBelow_le {depth d : ℕ} (hd : d ≤ depth) (ends : ℕ → ℕ) (buf : Block)
    (acc : ℕ × (ℕ → ℕ)) :
    (countBelow fs depth d ends buf acc).1 +
        stale (min depth (depth - d + 1)) ends (countBelow fs depth d ends buf acc).2 ≤
      acc.1 + stale (min depth (depth - d + 1)) ends acc.2 +
        (((leavesOf fs d buf).map Extent.len).sum + interiorBelow fs d buf) := by
  induction d generalizing ends buf acc with
  | zero =>
    have hfold := (foldl_countExtent depth ends buf (ehEntries buf) acc).1
    rw [leavesOf_zero_len, show min depth (depth - 0 + 1) = depth by omega]
    exact hfold.le
  | succ d ih =>
    have hm : min depth (depth - (d + 1) + 1) = depth - d := by omega
    rw [hm, leavesOf_succ_len, interiorBelow, ← List.sum_map_add]
    refine foldl_stale_le (fun acc k => ?_) _ acc
    -- the level of the child is one more that may be found not to have been seen
    obtain ⟨ends', hends'⟩ : ∃ ends', ends' =
        Function.update ends (depth - d) (entryEnd buf (ends (depth - (d + 1))) k) := ⟨_, rfl⟩
    rw [← hends']
    have hsame : ∀ nodes, stale (depth - d) ends nodes = stale (depth - d) ends' nodes :=
      fun nodes =>
      stale_congr (fun i hi => by rw [hends', Function.update_of_ne (Nat.ne_of_lt hi)]) fun _ _ =>
        rfl
    have hafter := stale_mono (by omega : depth - d ≤ min depth (depth - d + 1)) ends'
      (countBelow fs depth d ends' (childAt fs buf k) acc).2
    have hbefore : stale (min depth (depth - d + 1)) ends' acc.2 ≤
        stale (depth - d) ends' acc.2 + min d 1 := by
      cases d with
      | zero => rw [show min depth (depth - 0 + 1) = depth - 0 by omega, Nat.zero_min, Nat.add_zero]
      | succ d =>
        rw [show min depth (depth - (d + 1) + 1) = depth - (d + 1) + 1 by omega, stale_succ]
        split <;> omega
    have hchild := ih (by omega) ends' (childAt fs buf k) acc
    rw [hsame, hsame]
    omega

/-- **What a chain of nodes adds**: its extents, and the levels that were not seen. -/
theorem countBelow_chain {depth d endBlk : ℕ} {ends : ℕ → ℕ} {buf : Block} (hd : d ≤ depth)
    (hn : NodeOk fs d buf)
    (hone : leafNodes fs d buf = 1) (hends : ∀ i ≤ depth - d, ends i = endBlk) (acc : ℕ × (ℕ → ℕ)) :
    (countBelow fs depth d ends buf acc).1 =
        acc.1 + stale depth (fun _ => endBlk) acc.2 + ((leavesOf fs d buf).map Extent.len).sum ∧
      nodesBelow fs d buf = d := by
  induction d generalizing ends buf with
  | zero =>
    obtain ⟨hsum, hzero⟩ := foldl_countExtent depth ends buf (ehEntries buf) acc
    have hsame : stale depth ends acc.2 = stale depth (fun _ => endBlk) acc.2 :=
      stale_congr (fun i hi => hends i (by omega)) fun _ _ => rfl
    rw [hzero hn.pos, hsame] at hsum
    rw [leavesOf_zero_len]
    exact ⟨hsum, rfl⟩
  | succ d ih =>
    obtain ⟨hentries, hchild⟩ := entries_of_leafNodes hn hone
    have hend : entryEnd buf (ends (depth - (d + 1))) 0 = endBlk := by
      rw [entryEnd, hentries, if_neg (lt_irrefl 1), hends _ (le_refl _)]
    have hends' : ∀ i ≤ depth - d, Function.update ends (depth - d) endBlk i = endBlk := by
      intro i hi
      rcases eq_or_ne i (depth - d) with rfl | hne
      · exact Function.update_self _ _ _
      · rw [Function.update_of_ne hne]
        exact hends i (by omega)
    obtain ⟨hcount, hnodes⟩ := ih (by omega) (hn.2 0 (by omega)).2.2 hchild hends'
    constructor
    · rw [leavesOf_succ_len, countBelow, hentries, List.range_one, List.foldl_cons,
        List.foldl_nil, hend, hcount, List.map_singleton, List.sum_singleton]
    · rw [nodesBelow, hentries, List.range_one, List.map_singleton, List.sum_singleton,
        hnodes, Nat.add_comm]

/-! ### When the count is right -/

/-- **The blocks of the file are counted**: what is returned, once enough rounds are allowed, is the
number of blocks that the tree uses. -/
def CountsBlocks (fs : ExtentFs) (nodes : ℕ → ℕ) (iBlock : Block) (endBlk : ℕ) : Prop :=
  ∃ N, ∀ n, N ≤ n → countBlocks fs n nodes iBlock endBlk =
    some (blocksUsed fs (ehDepth iBlock) iBlock)

variable {iBlock : Block} {nodes : ℕ → ℕ} {endBlk : ℕ}

theorem countsBlocks_iff_eq (hheader : extentHeaderVerify iBlock 60 = true)
    (hnode : NodeOk fs (ehDepth iBlock) iBlock) :
    CountsBlocks fs nodes iBlock endBlk ↔
      (countBelow fs (ehDepth iBlock) (ehDepth iBlock) (fun _ => endBlk) iBlock (0, nodes)).1 =
        blocksUsed fs (ehDepth iBlock) iBlock := by
  obtain ⟨N, hN⟩ := countBlocks_eq hheader hnode nodes endBlk
  constructor
  · rintro ⟨M, hM⟩
    have h1 := hN (max N M) (le_max_left _ _)
    rw [hM (max N M) (le_max_right _ _)] at h1
    exact (Option.some.inj h1).symm
  · intro heq
    exact ⟨N, fun n hn => by rw [hN n hn, heq]⟩

/-- A chain of nodes is counted right when no level is taken for one seen before. -/
theorem countsBlocks_of_chain (hheader : extentHeaderVerify iBlock 60 = true)
    (hnode : NodeOk fs (ehDepth iBlock) iBlock) (hone : leafNodes fs (ehDepth iBlock) iBlock = 1) :
    CountsBlocks fs nodes iBlock endBlk ↔ ∀ i < ehDepth iBlock, nodes i ≠ endBlk := by
  have hends : ∀ i ≤ ehDepth iBlock - ehDepth iBlock, (fun _ => endBlk) i = endBlk := fun _ _ => rfl
  obtain ⟨hcount, hbelow⟩ := countBelow_chain (le_refl _) hnode hone hends (0, nodes)
  have hstale : stale (ehDepth iBlock) (fun _ => endBlk) nodes = ehDepth iBlock ↔
      ∀ i < ehDepth iBlock, nodes i ≠ endBlk :=
    stale_eq_iff
  rw [countsBlocks_iff_eq hheader hnode, hcount, blocksUsed, hbelow, ← hstale]
  dsimp only
  omega

/-- With more than one leaf node, too few blocks are counted. -/
theorem not_countsBlocks_of_leaves (hheader : extentHeaderVerify iBlock 60 = true)
    (hnode : NodeOk fs (ehDepth iBlock) iBlock) (hmany : 1 < leafNodes fs (ehDepth iBlock) iBlock) :
    ¬CountsBlocks fs nodes iBlock endBlk := by
  rw [countsBlocks_iff_eq hheader hnode]
  have hle := @countBelow_le fs _ _ (le_refl (ehDepth iBlock)) (fun _ => endBlk) iBlock (0, nodes)
  cases hD : ehDepth iBlock with
  | zero =>
    rw [hD, leafNodes] at hmany
    exact absurd hmany (lt_irrefl 1)
  | succ d =>
    rw [hD] at hmany hle
    have hstale := stale_le (min (d + 1) (d + 1 - (d + 1) + 1)) (fun _ => endBlk) nodes
    rw [blocksUsed, nodesBelow_eq]
    dsimp only at hle hstale
    omega

/-- **The count of blocks is right if and only if** the root is a leaf, or there is a single leaf
node and no level of the array held the number of blocks of the file. -/
theorem countsBlocks_iff (ht : ExtentTreeOk fs iBlock) (nodes : ℕ → ℕ) (endBlk : ℕ) :
    CountsBlocks fs nodes iBlock endBlk ↔
      ehDepth iBlock = 0 ∨ (leafNodes fs (ehDepth iBlock) iBlock = 1 ∧ ∀ i < ehDepth iBlock,
        nodes i ≠ endBlk) := by
  rcases ht.node with hnode | ⟨hdepth, hzero⟩
  · by_cases hone : leafNodes fs (ehDepth iBlock) iBlock = 1
    · rw [countsBlocks_of_chain ht.header hnode hone]
      refine ⟨fun hall => Or.inr ⟨hone, hall⟩, ?_⟩
      rintro (hdepth | ⟨-, hall⟩)
      · rw [hdepth]
        exact fun i hi => absurd hi (Nat.not_lt_zero i)
      · exact hall
    · have hmany : 1 < leafNodes fs (ehDepth iBlock) iBlock :=
        lt_of_le_of_ne (leafNodes_pos hnode) (Ne.symm hone)
      refine ⟨fun hc => absurd hc (not_countsBlocks_of_leaves ht.header hnode hmany), ?_⟩
      rintro (hdepth | ⟨hone', -⟩)
      · rw [hdepth] at hone
        exact absurd rfl hone
      · exact absurd hone' hone
  · refine ⟨fun _ => Or.inl hdepth, fun _ => ⟨0, fun n _ => ?_⟩⟩
    have hused : blocksUsed fs (ehDepth iBlock) iBlock = 0 := by
      rw [blocksUsed, leavesOf_eq, hdepth, hzero]
      rfl
    obtain ⟨h, hopen, hentries⟩ : ∃ h, extentOpen iBlock endBlk = some h ∧ (h.path 0).entries = 0 :=
      ⟨_, by rw [extentOpen, ht.header]; rfl, hzero⟩
    have hroot := @extentMove_root_empty fs _ hentries
    rw [countBlocks, hopen, hused]
    dsimp only
    rcases hmove : extentMove fs .root h with ⟨r, h'⟩
    rw [hmove] at hroot
    rw [show r = .error .noNext from hroot]

/-- A file system with two nodes, in the blocks 7 and 8, of one extent each. -/
def twoLeavesFs : ExtentFs where
  disk b :=
    if b = 7 then putLe (putLe (putLe (putLe (putLe (fun _ => 0) 0 2 0xF30A) 2 2 1) 4 2 84) 16 2 1)
      20 4 100
    else if b = 8 then
      putLe (putLe (putLe (putLe (putLe (putLe (fun _ => 0) 0 2 0xF30A) 2 2 1) 4 2 84) 12 4 4)
        16 2 1) 20 4 200
    else fun _ => 0
  blocksize := 1024
  metadataCsum := false
  csumSeed := 0
  ino := 12
  generation := 0
  ignoreCsumErrors := false

/-- A root with index entries for the blocks 7 and 8. -/
def twoLeavesRoot : Block :=
  let buf := putLe (putLe (putLe (putLe (fun _ => 0) 0 2 0xF30A) 2 2 2) 4 2 4) 6 2 1
  putLe (putLe (putLe buf 16 4 7) 24 4 4) 28 4 8

theorem extentTreeOk_twoLeaves : ExtentTreeOk twoLeavesFs twoLeavesRoot := by
  have hdepth : ehDepth twoLeavesRoot = 1 := by decide
  have hentries : ehEntries twoLeavesRoot = 2 := by decide
  have hchild0 : ehEntries (childAt twoLeavesFs twoLeavesRoot 0) = 1 := by decide
  have hchild1 : ehEntries (childAt twoLeavesFs twoLeavesRoot 1) = 1 := by decide
  refine ⟨by decide, Or.inl ?_, ?_⟩
  · rw [hdepth]
    refine ⟨by decide, fun k hk => ?_⟩
    rcases (by omega : k = 0 ∨ k = 1) with rfl | rfl
    · exact ⟨by decide, by decide, by rw [NodeOk, hchild0]; decide⟩
    · exact ⟨by decide, by decide, by rw [NodeOk, hchild1]; decide⟩
  · rw [hdepth]
    intro k hk
    rcases (by omega : k = 0 ∨ k = 1) with rfl | rfl
    · refine ⟨by decide, by decide, by decide, fun j hj => ?_⟩
      obtain rfl : j = 0 := by omega
      exact ⟨by decide, by decide, by decide⟩
    · refine ⟨by decide, by decide, by decide, fun j hj => ?_⟩
      obtain rfl : j = 0 := by omega
      exact ⟨by decide, by decide, by decide⟩

/-- A tree with two leaf nodes uses four blocks, and three are counted. -/
theorem not_countsBlocks_two_leaves :
    ExtentTreeOk twoLeavesFs twoLeavesRoot ∧
    ¬CountsBlocks twoLeavesFs (fun _ => 0) twoLeavesRoot 6 ∧
      countBlocks twoLeavesFs 8 (fun _ => 0) twoLeavesRoot 6 = some 3 ∧
      blocksUsed twoLeavesFs (ehDepth twoLeavesRoot) twoLeavesRoot = 4 := by
  have hdepth : ehDepth twoLeavesRoot = 1 := by decide
  have hnode : NodeOk twoLeavesFs (ehDepth twoLeavesRoot) twoLeavesRoot :=
    extentTreeOk_twoLeaves.node.resolve_right fun hc => by
      rw [hdepth] at hc
      exact absurd hc.1 Nat.one_ne_zero
  refine ⟨extentTreeOk_twoLeaves, not_countsBlocks_of_leaves extentTreeOk_twoLeaves.header hnode ?_,
    by rfl, by decide⟩
  rw [hdepth]
  decide

theorem countsBlocks_iff_two_extents :
    CountsBlocks twoExtentsFs (fun _ => 0) twoExtentsRoot 6 ↔
      ehDepth twoExtentsRoot = 0 ∨
        (leafNodes twoExtentsFs (ehDepth twoExtentsRoot) twoExtentsRoot = 1 ∧
          ∀ i < ehDepth twoExtentsRoot, 0 ≠ 6) :=
  countsBlocks_iff extentTreeOk_twoExtents (fun _ => 0) 6

end CountExact

end E2fsprogs
