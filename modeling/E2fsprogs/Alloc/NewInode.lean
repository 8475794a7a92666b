import E2fsprogs.Bitmap.Single

/-!
# Allocating an inode

`ext2fs_new_inode` of `lib/ext2fs/alloc.c`. The search begins at the group of the parent directory
and goes on in chunks to the end of the inode table, and then from the first inode that is not
reserved to where it began. A chunk ends with the first inode of the next group, and is cut off at
the end of the table and, on the second lap, before the start; so the loop, which only stops at the
start itself, comes to it.

A tree without nodes answers that there is no clear bit. The search then goes all the way round, and
the test of the start finds that it is clear.
-/

namespace E2fsprogs

/-- The fields of the superblock that inodes are allocated by. -/
structure InodeAllocGeometry where
  inodesPerGroup : ℕ
  inodesCount : ℕ
  firstInode : ℕ
  groupDescCount : ℕ
  hasGroupDescCsum : Bool
  perGroup_pos : 0 < inodesPerGroup
  count_eq : inodesCount = groupDescCount * inodesPerGroup
  first_pos : 0 < firstInode

/-- The inode bitmap, the flags of the groups, and what has been changed. -/
structure InodeAlloc where
  map : BlockBitmap
  inodeUninit : ℕ → Bool
  blockUninit : ℕ → Bool
  ibDirty : Bool
  superDirty : Bool

section NewInode

variable (g : InodeAllocGeometry) (bal : SearchTree RbExtent → List RbExtent → SearchTree RbExtent)
    (base : ℕ)

/-- The inodes of a group are unmarked. -/
def unmarkGroup (map : BlockBitmap) (group : ℕ) : BlockBitmap :=
  (List.range g.inodesPerGroup).foldl
    (fun map i => map.unmark bal ((group * g.inodesPerGroup + 1 + i) % 2 ^ 32)) map

/-- `check_inode_uninit`. -/
def checkInodeUninit (group : ℕ) (st : InodeAlloc) : InodeAlloc :=
  if g.groupDescCount ≤ group ∨ g.hasGroupDescCsum = false ∨ st.inodeUninit group = false then st
  else
    { map := unmarkGroup g bal st.map group
      inodeUninit := Function.update st.inodeUninit group false
      blockUninit := Function.update st.blockUninit group false
      ibDirty := true
      superDirty := true }

/-- The last inode of the chunk that is looked through from `i` on. -/
def chunkEnd (start i : ℕ) : ℕ :=
  let upto := (i + (g.inodesPerGroup - (i - 1) % g.inodesPerGroup)) % 2 ^ 32
  let upto := if i < start ∧ start ≤ upto then start - 1 else upto
  if g.inodesCount < upto then g.inodesCount else upto

/-- A round of the loop of `ext2fs_new_inode`. The loop is left with an inode, or with an error
other than `ENOENT`. -/
def newInodeStep (start : ℕ) (s : ℕ × InodeAlloc) : (ℕ × InodeAlloc) ⊕ (Option ℕ × InodeAlloc) :=
  let st := checkInodeUninit g bal ((s.1 - 1) / g.inodesPerGroup) s.2
  match st.map.findFirstZero base s.1 (chunkEnd g start s.1) with
  | .ok firstZero => .inr (some firstZero, st)
  | .error .einval => .inr (none, st)
  | .error .enoent =>
    let i := (chunkEnd g start s.1 + 1) % 2 ^ 32
    let i := if g.inodesCount < i then g.firstInode else i
    if i ≠ start then .inl (i, st) else .inr (some i, st)

/-- `start_inode`. -/
def startInode (dir : ℕ) : ℕ :=
  let start := if 0 < dir then (dir - 1) / g.inodesPerGroup * g.inodesPerGroup + 1 else 0
  if start < g.firstInode then g.firstInode else start

/-- `ext2fs_new_inode`, with a loop of at most `n` rounds. Without an inode, it has returned
`EXT2_ET_INODE_ALLOC_FAIL`. -/
def newInode (n dir : ℕ) (st : InodeAlloc) : Option (Option ℕ × InodeAlloc) :=
  if g.inodesCount < startInode g dir then some (none, st)
  else (Loop.run (newInodeStep g bal base (startInode g dir)) n (startInode g dir, st)).map fun r =>
    (r.1.bind fun i => if r.2.map.test i then none else some i, r.2)

/-- How many inodes are met before `k` when one goes round from `start`. -/
def roundFrom (start k : ℕ) : ℕ :=
  if start ≤ k then k - start else g.inodesCount + 1 - start + (k - g.firstInode)

/-- The inode is clear, and none that is met before it is. -/
structure FirstClear (bits : ℕ → Bool) (start z : ℕ) : Prop where
  first_le : g.firstInode ≤ z
  le_count : z ≤ g.inodesCount
  clear : bits z = false
  least : ∀ k, g.firstInode ≤ k → k ≤ g.inodesCount → bits k = false →
    roundFrom g start z ≤ roundFrom g start k

/-- A bitmap of the inodes that holds given bits. -/
structure HoldsInodes (bits : ℕ → Bool) (map : BlockBitmap) : Prop where
  reach : map.Reachable bal
  clusterBits : map.clusterBits = 0
  first : map.first = 1
  last : map.last = g.inodesCount
  bit : ∀ k, 1 ≤ k → map.bit k = bits k

/-- The bits of the groups that are not initialised are clear. -/
def UninitClear (bits : ℕ → Bool) (uninit : ℕ → Bool) : Prop :=
  g.hasGroupDescCsum = true → ∀ group < g.groupDescCount, uninit group = true →
    ∀ i < g.inodesPerGroup, bits (group * g.inodesPerGroup + 1 + i) = false

variable {g bal base} {bits : ℕ → Bool} {map : BlockBitmap} {st : InodeAlloc} {start i k z : ℕ}

/-! ### The bitmap -/

theorem HoldsInodes.blockIn (h : HoldsInodes g bal bits map) :
    map.BlockIn k ↔ 1 ≤ k ∧ k ≤ g.inodesCount := by
  rw [BlockBitmap.BlockIn, h.clusterBits, h.first, h.last, Nat.shiftRight_zero]

/-- A bit that is clear can be cleared. -/
theorem HoldsInodes.unmark (hbal : ∀ t l, (bal t l).inorder = l) (h : HoldsInodes g bal bits map)
    (hk : bits k = false) : HoldsInodes g bal bits (map.unmark bal k) := by
  by_cases hin : map.BlockIn k
  · have hb := unmark_becomes hbal h.reach hin
    refine ⟨hb.reach, hb.shape.clusterBits.trans h.clusterBits, hb.shape.first.trans h.first,
      hb.shape.last.trans h.last, fun j hj => ?_⟩
    rw [hb.bit j (by rw [h.first]; exact hj), h.clusterBits, Nat.shiftRight_zero,
      Function.update_apply]
    split
    · next heq => rw [heq, hk]
    · exact h.bit j hj
  · rwa [unmark_outside hin]

/-- So can all bits of a group. -/
theorem HoldsInodes.unmarkGroup (hbal : ∀ t l, (bal t l).inorder = l) {group : ℕ}
    (h : HoldsInodes g bal bits map)
    (hclear : ∀ i < g.inodesPerGroup, bits ((group * g.inodesPerGroup + 1 + i) % 2 ^ 32) = false) :
    HoldsInodes g bal bits (unmarkGroup g bal map group) ∧
    (map.Empty → (unmarkGroup g bal map group).Empty) := by
  rw [E2fsprogs.unmarkGroup]
  obtain ⟨l, hl⟩ : ∃ l, l = List.range g.inodesPerGroup := ⟨_, rfl⟩
  have hmem : ∀ i ∈ l, bits ((group * g.inodesPerGroup + 1 + i) % 2 ^ 32) = false := fun i hi =>
    hclear i (List.mem_range.mp (hl ▸ hi))
  rw [← hl]
  clear hl
  induction l generalizing map with
  | nil => exact ⟨h, id⟩
  | cons i l ih =>
    obtain ⟨hh, hempty⟩ := ih (h.unmark hbal (hmem i List.mem_cons_self)) fun j hj =>
      hmem j (List.mem_cons_of_mem _ hj)
    exact ⟨hh, fun h0 => hempty (h0.unmark hbal h.reach)⟩

/-- The state of the search: the bitmap holds the bits, and those of the groups that are not
initialised are clear. -/
structure InodeSearch (g : InodeAllocGeometry)
    (bal : SearchTree RbExtent → List RbExtent → SearchTree RbExtent)
    (bits : ℕ → Bool) (st : InodeAlloc) : Prop where
  holds : HoldsInodes g bal bits st.map
  uninit : UninitClear g bits st.inodeUninit

/-- **The check of a group** changes no bit. -/
theorem InodeSearch.check (hbal : ∀ t l, (bal t l).inorder = l) (hcount : g.inodesCount < 2 ^ 32)
    (h : InodeSearch g bal bits st) (group : ℕ) :
    InodeSearch g bal bits (checkInodeUninit g bal group st) ∧
      (st.map.Empty → (checkInodeUninit g bal group st).map.Empty) := by
  rw [checkInodeUninit]
  split
  · exact ⟨h, id⟩
  · next hne =>
    have hgroup : group < g.groupDescCount := by omega
    have hcsum : g.hasGroupDescCsum = true := by
      cases hc : g.hasGroupDescCsum with
      | true => rfl
      | false => exact absurd (Or.inr (Or.inl hc)) hne
    have huninit : st.inodeUninit group = true := by
      cases hu : st.inodeUninit group with
      | true => rfl
      | false => exact absurd (Or.inr (Or.inr hu)) hne
    have hle : (group + 1) * g.inodesPerGroup ≤ g.inodesCount := by
      rw [g.count_eq]
      exact Nat.mul_le_mul_right _ hgroup
    rw [Nat.succ_mul] at hle
    have hclear : ∀ i < g.inodesPerGroup,
        bits ((group * g.inodesPerGroup + 1 + i) % 2 ^ 32) = false := by
      intro i hi
      rw [Nat.mod_eq_of_lt (by omega)]
      exact h.uninit hcsum group hgroup huninit i hi
    obtain ⟨hh, hempty⟩ := h.holds.unmarkGroup hbal hclear
    refine ⟨⟨hh, fun hc gr hgr hu i hi => ?_⟩, hempty⟩
    change Function.update st.inodeUninit group false gr = true at hu
    rw [Function.update_apply] at hu
    split at hu
    · cases hu
    · exact h.uninit hc gr hgr hu i hi

/-! ### A chunk -/

/-- A chunk is inside the table, and ends before the start on the second lap. -/
theorem chunkEnd_spec (hcount : g.inodesCount + g.inodesPerGroup < 2 ^ 32) (hi : 1 ≤ i)
    (hle : i ≤ g.inodesCount) :
    i ≤ chunkEnd g start i ∧ chunkEnd g start i ≤ g.inodesCount ∧
    (i < start → chunkEnd g start i < start) := by
  have hmod := Nat.mod_lt (i - 1) g.perGroup_pos
  rw [chunkEnd]
  rw [Nat.mod_eq_of_lt (by omega)]
  split <;> split <;> omega

/-- What is found in a chunk. -/
theorem HoldsInodes.find (hbal : ∀ t l, (bal t l).inorder = l)
    (h : HoldsInodes g bal bits map) {upto : ℕ}
    (hi : 1 ≤ i) (hle : i ≤ upto) (hupto : upto ≤ g.inodesCount) :
    (map.Empty ∧ map.findFirstZero base i upto = .error .enoent) ∨
      ¬map.Empty ∧ FindsBit (fun k => bits k = false) i upto (map.findFirstZero base i upto) := by
  have hshift : ∀ k, k >>> map.clusterBits = k := fun k => by
    rw [h.clusterBits, Nat.shiftRight_zero]
  have hlo : map.first ≤ i >>> map.clusterBits := by rw [hshift, h.first]; exact hi
  have hhi : upto >>> map.clusterBits ≤ map.last := by rw [hshift, h.last]; exact hupto
  by_cases hempty : map.Empty
  · exact Or.inl ⟨hempty, hempty.findFirstZero hle hlo hhi⟩
  · refine Or.inr ⟨hempty, ?_⟩
    have hfind := @findFirstZero_exact map bal base i upto hbal h.reach hle hlo hhi hempty
    rw [h.clusterBits] at hfind
    exact hfind.findsBit.congr fun k hk _ => by rw [h.bit k (hi.trans hk)]

theorem roundFrom_cases (g : InodeAllocGeometry) (start k : ℕ) :
    start ≤ k ∧ roundFrom g start k = k - start ∨
    k < start ∧ roundFrom g start k = g.inodesCount + 1 - start + (k - g.firstInode) := by
  rw [roundFrom]
  split
  · next h => exact Or.inl ⟨h, rfl⟩
  · next h => exact Or.inr ⟨not_le.mp h, rfl⟩

/-- The inode that the next chunk begins with: what is met before it has been met before, or is in
the chunk. -/
theorem next_spec {upto next : ℕ} (hstart : g.firstInode ≤ start ∧ start ≤ g.inodesCount)
    (hi : g.firstInode ≤ i)
    (hle : i ≤ upto) (hupto : upto ≤ g.inodesCount) (hclip : i < start → upto < start)
    (hnext : next = if g.inodesCount < upto + 1 then g.firstInode else upto + 1) :
    (g.firstInode ≤ next ∧ next ≤ g.inodesCount) ∧
    (next ≠ start → roundFrom g start i < roundFrom g start next) ∧
      ∀ k, g.firstInode ≤ k → k ≤ g.inodesCount → next = start ∨
      roundFrom g start k < roundFrom g start next →
        roundFrom g start k < roundFrom g start i ∨ i ≤ k ∧ k ≤ upto := by
  refine ⟨?_, fun hne => ?_, fun k hk hk' hmet => ?_⟩
  · split at hnext <;> omega
  · have h1 := roundFrom_cases g start i
    have h2 := roundFrom_cases g start next
    split at hnext <;> omega
  · have h1 := roundFrom_cases g start i
    have h2 := roundFrom_cases g start next
    have h3 := roundFrom_cases g start k
    split at hnext <;> omega

/-! ### The search -/

/-- Where the search has come to. -/
structure InodeSearchAt (g : InodeAllocGeometry)
    (bal : SearchTree RbExtent → List RbExtent → SearchTree RbExtent)
    (bits : ℕ → Bool) (start : ℕ) (s : ℕ × InodeAlloc) : Prop where
  searches : InodeSearch g bal bits s.2
  first_le : g.firstInode ≤ s.1
  le_count : s.1 ≤ g.inodesCount
  met : s.2.map.Empty ∨ ∀ k, g.firstInode ≤ k → k ≤ g.inodesCount →
    roundFrom g start k < roundFrom g start s.1 →
    bits k = true

/-- What the loop is left with: the inode that is looked for, or the start when there is none. -/
structure InodeSearchEnds (g : InodeAllocGeometry)
    (bal : SearchTree RbExtent → List RbExtent → SearchTree RbExtent)
    (bits : ℕ → Bool) (start : ℕ) (r : Option ℕ × InodeAlloc) : Prop where
  searches : InodeSearch g bal bits r.2
  found : ∃ z, r.1 = some z ∧
    (FirstClear g bits start z ∨ z = start ∧ ∀ k, g.firstInode ≤ k → k ≤ g.inodesCount →
      bits k = true)

/-- In a bitmap without a node, the start is the inode that is looked for. -/
theorem HoldsInodes.firstClear_start (hbal : ∀ t l, (bal t l).inorder = l)
    (h : HoldsInodes g bal bits map)
    (hempty : map.Empty) (hstart : g.firstInode ≤ start ∧ start ≤ g.inodesCount) :
    FirstClear g bits start start := by
  refine ⟨hstart.1, hstart.2, ?_, fun k _ _ _ => ?_⟩
  · rw [← h.bit start (g.first_pos.trans_le hstart.1)]
    exact Bool.eq_false_iff.mpr (hempty.clear h.reach hbal)
  · rw [roundFrom, if_pos (le_refl start)]
    omega

/-- **A round of the search** goes on to an inode that is met later, or leaves the loop. -/
theorem newInodeStep_spec (hbal : ∀ t l, (bal t l).inorder = l)
    (hcount : g.inodesCount + g.inodesPerGroup < 2 ^ 32)
    (hstart : g.firstInode ≤ start ∧ start ≤ g.inodesCount) {s : ℕ × InodeAlloc}
    (h : InodeSearchAt g bal bits start s) :
    (∃ s', newInodeStep g bal base start s = .inl s' ∧ InodeSearchAt g bal bits start s' ∧
        roundFrom g start s.1 < roundFrom g start s'.1) ∨
      ∃ r, newInodeStep g bal base start s = .inr r ∧ InodeSearchEnds g bal bits start r := by
  obtain ⟨i, st⟩ := s
  obtain ⟨hs, hempty⟩ := h.searches.check hbal (by omega) ((i - 1) / g.inodesPerGroup)
  have hfirst : g.firstInode ≤ i := h.first_le
  have hi : 1 ≤ i := g.first_pos.trans_le hfirst
  have hgroup := g.perGroup_pos
  obtain ⟨hle, hupto, hclip⟩ := @chunkEnd_spec g start i hcount hi h.le_count
  rw [newInodeStep]
  dsimp only
  obtain ⟨st', hst'⟩ : ∃ st', st' = checkInodeUninit g bal ((i - 1) / g.inodesPerGroup) st :=
    ⟨_, rfl⟩
  rw [← hst'] at hs hempty ⊢
  obtain ⟨next, hnext⟩ : ∃ next, next =
    if g.inodesCount < chunkEnd g start i + 1 then g.firstInode else chunkEnd g start i + 1 :=
      ⟨_, rfl⟩
  obtain ⟨hin, hlater, hmet⟩ := next_spec hstart hfirst hle hupto hclip hnext
  rw [Nat.mod_eq_of_lt (show chunkEnd g start i + 1 < 2 ^ 32 by omega), ← hnext]
  rcases @HoldsInodes.find g bal base bits st'.map i hbal hs.holds _ hi hle hupto with
      ⟨hnodes, hfind⟩ | ⟨hnodes, hfind⟩
  -- nothing is found in a tree without nodes, and the loop ends where it began
  · rw [hfind]
    dsimp only
    by_cases hend : next = start
    · rw [if_neg (not_not.mpr hend)]
      refine Or.inr ⟨_, rfl, hs, next, rfl, Or.inl ?_⟩
      rw [hend]
      exact hs.holds.firstClear_start hbal hnodes hstart
    · rw [if_pos hend]
      exact Or.inl ⟨_, rfl, ⟨hs, hin.1, hin.2, Or.inl hnodes⟩, hlater hend⟩
  -- the inodes that were met before are in use: the first clear one of the chunk is the answer
  · have hbefore := h.met.resolve_left fun h0 => hnodes (hempty h0)
    cases hres : st'.map.findFirstZero base i (chunkEnd g start i) with
    | ok z =>
      rw [hres] at hfind
      obtain ⟨⟨hiz, hzu, hz⟩, hleast⟩ := hfind
      refine Or.inr ⟨_, rfl, hs, z, rfl, Or.inl ⟨by omega, by omega, hz, fun k hk hk' hclear => ?_⟩⟩
      by_contra hlt
      have hnot : ¬roundFrom g start k < roundFrom g start i := fun hmet => by
        rw [hbefore k hk hk' hmet] at hclear
        cases hclear
      have hik : i ≤ k ∧ k < z := by
        have h1 := roundFrom_cases g start i
        have h2 := roundFrom_cases g start z
        have h3 := roundFrom_cases g start k
        omega
      exact absurd (hleast ⟨hik.1, by omega, hclear⟩) (not_le.mpr hik.2)
    | error e =>
      rw [hres] at hfind
      obtain ⟨rfl, hnone⟩ := hfind
      dsimp only
      have hall : ∀ k, g.firstInode ≤ k → k ≤ g.inodesCount →
          next = start ∨ roundFrom g start k < roundFrom g start next → bits k = true := by
        intro k hk hk' hnow
        rcases hmet k hk hk' hnow with hb | ⟨hik, hku⟩
        · exact hbefore k hk hk' hb
        · exact Bool.eq_true_of_not_eq_false (hnone k hik hku)
      by_cases hend : next = start
      · rw [if_neg (not_not.mpr hend)]
        exact Or.inr ⟨_, rfl, hs, next, rfl,
          Or.inr ⟨hend, fun k hk hk' => hall k hk hk' (Or.inl hend)⟩⟩
      · rw [if_pos hend]
        exact Or.inl ⟨_, rfl, ⟨hs, hin.1, hin.2,
          Or.inr fun k hk hk' hlt => hall k hk hk' (Or.inr hlt)⟩, hlater hend⟩

/-- **The search ends.** -/
theorem newInode_search (hbal : ∀ t l, (bal t l).inorder = l)
    (hcount : g.inodesCount + g.inodesPerGroup < 2 ^ 32)
    (hstart : g.firstInode ≤ start ∧ start ≤ g.inodesCount) {s : ℕ × InodeAlloc}
    (h : InodeSearchAt g bal bits start s) :
    ∃ r, Loop.Leaves (newInodeStep g bal base start) s r ∧ InodeSearchEnds g bal bits start r := by
  have hround : ∀ a b, InodeSearchAt g bal bits start a →
    Loop.Round (newInodeStep g bal base start) a b →
      InodeSearchAt g bal bits start b ∧ roundFrom g start a.1 < roundFrom g start b.1 := by
    intro a b ha hab
    rcases @newInodeStep_spec g bal base bits start hbal hcount hstart a ha with
        ⟨s', hs', hat, hlt⟩ | ⟨r, hr, -⟩
    · rw [Loop.Round, hs'] at hab
      cases hab
      exact ⟨hat, hlt⟩
    · rw [Loop.Round, hr] at hab
      cases hab
  have hbound : ∀ {a}, InodeSearchAt g bal bits start a →
      roundFrom g start a.1 ≤ g.inodesCount := by
    intro a ha
    have h1 := ha.first_le
    have h2 := ha.le_count
    have h3 := g.first_pos
    rw [roundFrom]
    split <;> omega
  obtain ⟨r, hr⟩ := Loop.ends_of_wf Nat.lt_wfRel.wf (fun a => g.inodesCount - roundFrom g start a.1)
    (fun a b ha hab => ⟨(hround a b ha hab).1, by
      have h1 := (hround a b ha hab).2
      have h2 := hbound (hround a b ha hab).1
      show g.inodesCount - roundFrom g start b.1 < g.inodesCount - roundFrom g start a.1
      omega⟩) h
  obtain ⟨s', hreach, hlast⟩ := Loop.exists_last_of_leaves hr
  have hat := Loop.invariant (fun a b ha hab => (hround a b ha hab).1) hreach h
  refine ⟨r, hr, ?_⟩
  rcases @newInodeStep_spec g bal base bits start hbal hcount hstart s' hat with ⟨s'', hs'', -⟩ |
    ⟨r', hr', hends⟩
  · rw [hs''] at hlast
    cases hlast
  · rw [hr'] at hlast
    cases hlast
    exact hends

/-! ### The inode that is allocated -/

theorem le_startInode (g : InodeAllocGeometry) (dir : ℕ) : g.firstInode ≤ startInode g dir := by
  rw [startInode]
  split <;> split <;> omega

/-- The start is in the table, if there is an inode that is not reserved. -/
theorem startInode_le_count {dir : ℕ} (hdir : dir ≤ g.inodesCount)
    (hfirst : g.firstInode ≤ g.inodesCount) :
    startInode g dir ≤ g.inodesCount := by
  have hmul := Nat.div_mul_le_self (dir - 1) g.inodesPerGroup
  rw [startInode]
  split <;> split <;> omega

/-- **`ext2fs_new_inode` returns**, with the first clear inode from the start on, or with an error
if there is none. -/
theorem newInode_firstClear (hbal : ∀ t l, (bal t l).inorder = l)
    (hcount : g.inodesCount + g.inodesPerGroup < 2 ^ 32)
    {dir : ℕ} (hdir : dir ≤ g.inodesCount) (hholds : HoldsInodes g bal bits st.map)
    (huninit : UninitClear g bits st.inodeUninit) :
    ∃ n r st', newInode g bal base n dir st = some (r, st') ∧
      (r = none ↔ ∀ k, g.firstInode ≤ k → k ≤ g.inodesCount → bits k = true) ∧
      ∀ z, r = some z → FirstClear g bits (startInode g dir) z := by
  by_cases hlt : g.inodesCount < startInode g dir
  · refine ⟨0, none, st, if_pos hlt, iff_of_true rfl fun k hk hk' => ?_, nofun⟩
    exact absurd (startInode_le_count hdir (hk.trans hk')) (not_le.mpr hlt)
  · have hstart : g.firstInode ≤ startInode g dir ∧ startInode g dir ≤ g.inodesCount :=
      ⟨le_startInode g dir, not_lt.mp hlt⟩
    have hat : InodeSearchAt g bal bits (startInode g dir) (startInode g dir, st) := by
      refine ⟨⟨hholds, huninit⟩, hstart.1, hstart.2, Or.inr fun k _ _ hmet => ?_⟩
      change roundFrom g (startInode g dir) k < roundFrom g (startInode g dir) (startInode g dir)
        at hmet
      have h1 := roundFrom_cases g (startInode g dir) (startInode g dir)
      omega
    obtain ⟨r, ⟨n, hn⟩, hends⟩ :=
      @newInode_search g bal base bits (startInode g dir) hbal hcount hstart _ hat
    obtain ⟨z, hz, hfound⟩ := hends.found
    obtain ⟨o, st'⟩ := r
    change o = some z at hz
    have hrange : g.firstInode ≤ z ∧ z ≤ g.inodesCount := by
      rcases hfound with h | ⟨rfl, -⟩
      · exact ⟨h.first_le, h.le_count⟩
      · exact hstart
    have hpos : 1 ≤ z := g.first_pos.trans_le hrange.1
    -- the test tells the two ways of leaving the loop apart
    have htest : st'.map.test z = bits z := by
      have hh := hends.searches.holds
      rw [test_of_blockIn hh.reach (hh.blockIn.mpr ⟨hpos, hrange.2⟩), hh.clusterBits,
        Nat.shiftRight_zero, hh.bit z hpos]
    have hrun : newInode g bal base n dir st = some (if bits z then none else some z, st') := by
      rw [newInode, if_neg hlt, hn, hz, Option.map_some, Option.bind_some, htest]
    rcases hfound with h | ⟨-, hall⟩
    · rw [h.clear, if_neg Bool.false_ne_true] at hrun
      refine ⟨n, some z, st', hrun, iff_of_false nofun fun hall => ?_, ?_⟩
      · have hset := hall z hrange.1 hrange.2
        rw [h.clear] at hset
        cases hset
      · rintro z' heq
        cases heq
        exact h
    · rw [hall z hrange.1 hrange.2, if_pos rfl] at hrun
      exact ⟨n, none, st', hrun, iff_of_true rfl hall, nofun⟩

/-- Three groups of 16 inodes. -/
def threeInodeGroups : InodeAllocGeometry := ⟨16, 48, 11, 3, true, by decide, rfl, by decide⟩

/-- The inodes of the second group are in use, and some of the first. The third group is not
initialised. -/
def usedInodes : InodeAlloc :=
  ⟨.ba 0 1 48 fun i => [0xff, 0x0f, 0xff, 0xff].getD i 0, (· = 2), (· = 2), false, false⟩

theorem usedInodes_uninitClear :
    UninitClear threeInodeGroups usedInodes.map.bit usedInodes.inodeUninit := by
  intro _ group _ huninit i hi
  obtain rfl : group = 2 := of_decide_eq_true huninit
  have hi : i < 16 := hi
  interval_cases i <;> rfl

/-- From the second group on, the first clear inode is in the third, and not the one that is clear
in the first. -/
theorem newInode_firstClear_of_three : ∃ n r st',
    newInode threeInodeGroups (fun _ l => .ofList l) 0 n 20 usedInodes = some (r, st') ∧
    (r = none ↔ ∀ k, 11 ≤ k → k ≤ 48 → usedInodes.map.bit k = true) ∧
    ∀ z, r = some z → FirstClear threeInodeGroups usedInodes.map.bit 17 z :=
  newInode_firstClear (fun _ l => SearchTree.inorder_ofList l) (by decide) (by decide)
    ⟨trivial, rfl, rfl, rfl, fun _ _ => rfl⟩ usedInodes_uninitClear

end NewInode

end E2fsprogs
