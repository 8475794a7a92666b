import E2fsprogs.Rehash.Leaves

/-!
# The index blocks of a rebuilt directory

An index block is a row of slots of eight bytes, a hash and a block number each. The limit and the
count of the block are where the hash of the first slot would be (`E2fsprogs.DxNode`), so that a
hash stored into the first slot of a block destroys them (`E2fsprogs.DxNode.putOver`).

The rounds of `calculate_tree` are described by what they do to such blocks: `alloc_blocks` closes
a node that is full, puts a slot into the node above and starts an empty node
(`E2fsprogs.allocBlocks_spec`).
-/

namespace E2fsprogs

variable {fs : DirFs}

/-! ### Slots -/

section Slots

variable {b : Block} {base n limit count : ℕ} {f : ℕ → ℕ × ℕ}

/-- The first `n` slots of an index block hold the hashes and blocks of `f`, but for the hash of the
first slot, where the limit and the count are. -/
structure DxNode (b : Block) (base : ℕ) (f : ℕ → ℕ × ℕ) (n limit count : ℕ) : Prop where
  slot : ∀ s < n, getLe b (base + 8 * s + 4) 4 = (f s).2 ∧
    (s ≠ 0 → getLe b (base + 8 * s) 4 = (f s).1)
  limit : getLe b base 2 = limit
  count : getLe b (base + 2) 2 = count

/-- A block number stored into a slot. -/
def putSlotBlock (b : Block) (pos blk : ℕ) : Block := putLe b (pos + 4) 4 blk

/-- A block number and a hash stored into a slot. -/
def putSlot (b : Block) (pos hash blk : ℕ) : Block := putLe (putSlotBlock b pos blk) pos 4 hash

/-- A limit and a count stored. -/
def putWords (b : Block) (base limit count : ℕ) : Block :=
  putLe (putLe b (base + 2) 2 count) base 2 limit

/-- The two halves of a word. -/
theorem getLe_halves (b : Block) (o : ℕ) :
    getLe b o 2 = getLe b o 4 % 65536 ∧ getLe b (o + 2) 2 = getLe b o 4 / 65536 := by
  have h0 := (b o).toNat_lt
  have h1 := (b (o + 1)).toNat_lt
  have h2 := (b (o + 2)).toNat_lt
  have h3 := (b (o + 3)).toNat_lt
  simp only [getLe, Nat.add_assoc, Nat.reduceAdd]
  omega

/-- A slot after the first. -/
theorem DxNode.put (h : DxNode b base f n limit count) (hn : 0 < n) (hhash : (f n).1 < 2 ^ 32)
    (hblk : (f n).2 < 2 ^ 32) :
    DxNode (putSlot b (base + 8 * n) (f n).1 (f n).2) base f (n + 1) limit count := by
  rw [putSlot, putSlotBlock]
  refine ⟨fun s hs => ?_, ?_, ?_⟩
  · rcases Nat.lt_succ_iff_lt_or_eq.mp hs with hs | rfl
    · rw [getLe_putLe_of_disjoint (by omega), getLe_putLe_of_disjoint (by omega),
        getLe_putLe_of_disjoint (by omega), getLe_putLe_of_disjoint (by omega)]
      exact h.slot s hs
    · rw [getLe_putLe_of_disjoint (by omega), getLe_putLe _ _ (by omega),
        getLe_putLe _ _ (by omega)]
      exact ⟨rfl, fun _ => rfl⟩
  · rw [getLe_putLe_of_disjoint (by omega), getLe_putLe_of_disjoint (by omega), h.limit]
  · rw [getLe_putLe_of_disjoint (by omega), getLe_putLe_of_disjoint (by omega), h.count]

/-- The first slot, without a hash. -/
theorem DxNode.putFirst (h : DxNode b base f 0 limit count) (hblk : (f 0).2 < 2 ^ 32) :
    DxNode (putSlotBlock b base (f 0).2) base f 1 limit count := by
  rw [putSlotBlock]
  refine ⟨fun s hs => ?_, ?_, ?_⟩
  · obtain rfl : s = 0 := by omega
    exact ⟨getLe_putLe _ _ (by omega), fun hs => absurd rfl hs⟩
  · rw [getLe_putLe_of_disjoint (by omega), h.limit]
  · rw [getLe_putLe_of_disjoint (by omega), h.count]

/-- **A hash in the first slot is where the limit and the count were.** -/
theorem DxNode.putOver (b : Block) (base : ℕ) {hash : ℕ} (hhash : hash < 2 ^ 32)
    (hblk : (f 0).2 < 2 ^ 32) :
    DxNode (putSlot b base hash (f 0).2) base f 1 (hash % 65536) (hash / 65536) := by
  rw [putSlot, putSlotBlock]
  refine ⟨fun s hs => ?_, ?_, ?_⟩
  · obtain rfl : s = 0 := by omega
    refine ⟨?_, fun hs => absurd rfl hs⟩
    rw [getLe_putLe_of_disjoint (by omega)]
    exact getLe_putLe _ _ (by omega)
  · rw [(getLe_halves _ _).1, getLe_putLe _ _ (by omega)]
  · rw [(getLe_halves _ _).2, getLe_putLe _ _ (by omega)]

/-- The words of a node say nothing about its slots. -/
theorem DxNode.words (h : DxNode b base f n limit count) {limit' count' : ℕ}
    (hlimit : limit' < 65536)
    (hcount : count' < 65536) : DxNode (putWords b base limit' count') base f n limit' count' := by
  rw [putWords]
  refine ⟨fun s hs => ⟨?_, fun h0 => ?_⟩, getLe_putLe _ _ (by omega), ?_⟩
  · rw [getLe_putLe_of_disjoint (by omega), getLe_putLe_of_disjoint (by omega)]
    exact (h.slot s hs).1
  · rw [getLe_putLe_of_disjoint (by omega), getLe_putLe_of_disjoint (by omega)]
    exact (h.slot s hs).2 h0
  · rw [getLe_putLe_of_disjoint (by omega), getLe_putLe _ _ (by omega)]

end Slots

/-! ### Stores into the buffer -/

section Buffer

variable {out : OutDir} {k o : ℕ} {p : BufPtr} {b : Block}

/-- The directory with another block. -/
def OutDir.put (out : OutDir) (k : ℕ) (b : Block) : OutDir :=
  { out with buf := Function.update out.buf k b }

@[simp] theorem put_num (out : OutDir) (k : ℕ) (b : Block) : (out.put k b).num = out.num := rfl

@[simp] theorem put_max (out : OutDir) (k : ℕ) (b : Block) : (out.put k b).max = out.max := rfl

@[simp] theorem put_gen (out : OutDir) (k : ℕ) (b : Block) : (out.put k b).gen = out.gen := rfl

@[simp] theorem put_hashes (out : OutDir) (k : ℕ) (b : Block) : (out.put k b).hashes = out.hashes :=
  rfl

@[simp] theorem put_buf_self (out : OutDir) (k : ℕ) (b : Block) : (out.put k b).buf k = b :=
  Function.update_self ..

theorem put_buf_of_ne {k k' : ℕ} (h : k' ≠ k) (out : OutDir) (b : Block) :
    (out.put k b).buf k' = out.buf k' := Function.update_of_ne h _ _

/-- A pointer into a block of the buffer there is. -/
def PointsTo (fs : DirFs) (out : OutDir) (p : BufPtr) (k o : ℕ) : Prop :=
  p.gen = out.gen ∧ p.pos = k * fs.blocksize + o ∧ o < fs.blocksize

theorem PointsTo.div_mod (h : PointsTo fs out p k o) :
    p.pos / fs.blocksize = k ∧ p.pos % fs.blocksize = o := by
  obtain ⟨-, hpos, ho⟩ := h
  rw [hpos, Nat.add_comm, Nat.mul_comm, Nat.add_mul_div_left _ _ (by omega),
    Nat.add_mul_mod_self_left, Nat.div_eq_of_lt ho, Nat.mod_eq_of_lt ho]
  exact ⟨Nat.zero_add _, rfl⟩

theorem store_of_pointsTo (h : PointsTo fs out p k o) (off n v : ℕ) :
    store fs out p off n v = out.put k (putLe (out.buf k) (o + off) n v) := by
  obtain ⟨hdiv, hmod⟩ := h.div_mod
  rw [store, if_pos h.1, hdiv, hmod]
  rfl

theorem load_of_pointsTo (h : PointsTo fs out p k o) (off n : ℕ) :
    load fs out p off n = getLe (out.buf k) (o + off) n := by
  obtain ⟨hdiv, hmod⟩ := h.div_mod
  rw [load, hdiv, hmod]

theorem put_put (out : OutDir) (k : ℕ) (b c : Block) : (out.put k b).put k c = out.put k c := by
  rw [OutDir.put, OutDir.put]
  exact congrArg (fun g => OutDir.mk _ _ _ g _) (Function.update_idem ..)

/-- The words of the node at `limit` have been stored again. -/
theorem closeFull_of_pointsTo (h : PointsTo fs out p k o) :
    closeFull fs out (some p) =
      out.put k (putWords (out.buf k) o (getLe (out.buf k) o 2) (getLe (out.buf k) o 2)) := by
  have h' : PointsTo fs (out.put k (putLe (out.buf k) (o + 2) 2 (getLe (out.buf k) o 2))) p k o := h
  rw [closeFull, load_of_pointsTo h, Nat.add_zero, store_of_pointsTo h,
    store_of_pointsTo h', put_put, put_buf_self, putWords]
  rfl

/-- Nothing is stored through a pointer to a buffer that has been given up. -/
theorem closeFull_of_gen_ne (h : p.gen ≠ out.gen) : closeFull fs out (some p) = out := by
  rw [closeFull, store, if_neg (by rw [store, if_neg h]; exact h), store, if_neg h]

/-- The words of a node that is closed at the end. -/
theorem closeNode_of_pointsTo {q : BufPtr} {k' o' : ℕ} (h : PointsTo fs out p k o)
    (hq : PointsTo fs out q k' o') (c : ℕ) : closeNode fs out p q c =
      out.put k (putWords (out.buf k) o (getLe (out.buf k') o' 2)
        (getLe (out.buf k') o' 2 - c)) := by
  have h' : PointsTo fs (out.put k (putLe (out.buf k) (o + 2) 2 (getLe (out.buf k') o' 2 - c))) p k
    o := h
  rw [closeNode, load_of_pointsTo hq, Nat.add_zero, store_of_pointsTo h,
    store_of_pointsTo h', put_put, put_buf_self, putWords]
  rfl

/-- The slot of the node above that `alloc_blocks` fills. -/
def allocSlot (out : OutDir) (i : ℕ) (b : Block) (pos : ℕ) : Block :=
  if i ≠ 1 then putSlot b pos (out.hashes i) out.num else putSlotBlock b pos out.num

/-- What `alloc_blocks` does to a directory in which the last node has been closed, where the slot
is in block `k` at `o`. -/
structure AllocedFrom (fs : DirFs) (closed : OutDir) (i k o c : ℕ) (a : Alloced) : Prop where
  num : a.out.num = closed.num + 1
  hashes : a.out.hashes = closed.hashes
  max : ∀ m, closed.max = bufMax m closed.num → a.out.max = bufMax m a.out.num
  gen_of_lt : closed.num < closed.max → a.out.gen = closed.gen
  gen_of_le : closed.max ≤ closed.num → a.out.gen = closed.gen + 1
  slot : a.out.buf k = allocSlot closed i (closed.buf k) o
  node : a.out.buf closed.num = setIntNode fs
  same : ∀ k', k' ≠ k → k' ≠ closed.num → a.out.buf k' = closed.buf k'
  nextEnt : PointsTo fs a.out a.nextEnt closed.num 8
  prevOffset : a.prevOffset = k * fs.blocksize + (o + 8)
  prevCount : a.prevCount = c - 1
  nextCount : a.nextCount = getLe (setIntNode fs) 8 2

theorem getNextBlock_gen (out : OutDir) :
    (getNextBlock out).gen = if out.max ≤ out.num then out.gen + 1 else out.gen := by
  rw [getNextBlock]
  split <;> rfl

/-- **What `alloc_blocks` does.** -/
theorem allocBlocks_spec {limit : Option BufPtr} {i c : ℕ} {closed : OutDir} (hfs : fs.Ok)
    (hclosed : closeFull fs out limit = closed) (hnum : k < closed.num) (ho : o < fs.blocksize) :
    AllocedFrom fs closed i k o c (allocBlocks fs limit (k * fs.blocksize + o) out i c) := by
  have hmin := hfs.min_le
  -- the slot of the node above
  have hslot : ∀ p : BufPtr, p = ⟨closed.gen, k * fs.blocksize + o⟩ →
      (if i ≠ 1 then store fs (store fs closed p 4 4 closed.num) p 0 4
        ((store fs closed p 4 4 closed.num).hashes i) else store fs closed p 4 4 closed.num) =
      closed.put k (allocSlot closed i (closed.buf k) o) := by
    rintro p rfl
    have hp : PointsTo fs closed ⟨closed.gen, k * fs.blocksize + o⟩ k o := ⟨rfl, rfl, ho⟩
    have hp' : PointsTo fs (closed.put k (putLe (closed.buf k) (o + 4) 4 closed.num))
      ⟨closed.gen, k * fs.blocksize + o⟩ k o := hp
    rw [store_of_pointsTo hp, store_of_pointsTo hp', put_put, put_buf_self, put_hashes, allocSlot]
    split <;> rfl
  have hnode : ∀ mid : OutDir,
    mid = getNextBlock (closed.put k (allocSlot closed i (closed.buf k) o)) →
      allocBlocks fs limit (k * fs.blocksize + o) out i c = {
        out := mid.put (mid.num - 1) (setIntNode fs)
        nextEnt := ⟨mid.gen, (mid.num - 1) * fs.blocksize + 8⟩
        prevOffset := k * fs.blocksize + o + 8, prevCount := c - 1
        nextCount := load fs (mid.put (mid.num - 1) (setIntNode fs))
          ⟨mid.gen, (mid.num - 1) * fs.blocksize + 8⟩ 0 2 } := by
    rintro mid rfl
    rw [allocBlocks, hclosed]
    dsimp only
    rw [hslot _ rfl]
    rfl
  obtain ⟨mid, hmid⟩ : ∃ mid,
      mid = getNextBlock (closed.put k (allocSlot closed i (closed.buf k) o)) :=
    ⟨_, rfl⟩
  have hmidNum : mid.num - 1 = closed.num := by
    rw [hmid, getNextBlock_num, put_num, Nat.add_sub_cancel]
  have hp : PointsTo fs (mid.put (mid.num - 1) (setIntNode fs))
      ⟨mid.gen, (mid.num - 1) * fs.blocksize + 8⟩ (mid.num - 1) 8 := ⟨rfl, rfl, by omega⟩
  rw [hnode mid hmid]
  constructor
  · rw [put_num, hmid, getNextBlock_num, put_num]
  · rw [put_hashes, hmid, getNextBlock_hashes, put_hashes]
  · intro m hm
    rw [put_max, put_num, hmid, getNextBlock_num]
    exact getNextBlock_max hm
  · intro hlt
    rw [put_gen, hmid, getNextBlock_gen, put_max, put_num, if_neg (by omega), put_gen]
  · intro hle
    rw [put_gen, hmid, getNextBlock_gen, put_max, put_num, if_pos hle, put_gen]
  · rw [put_buf_of_ne (by omega), hmid, getNextBlock_buf,
      Function.update_of_ne (by rw [put_num]; omega), put_buf_self]
  · rw [← hmidNum, put_buf_self]
  · intro k' hk hk'
    rw [put_buf_of_ne (by omega), hmid, getNextBlock_buf,
      Function.update_of_ne (by rw [put_num]; omega), put_buf_of_ne hk]
  · rw [← hmidNum]
    exact hp
  · exact Nat.add_assoc _ _ _
  · rfl
  · rw [load_of_pointsTo hp, put_buf_self]

end Buffer

/-! ### Empty nodes -/

section Empty

variable {f : ℕ → ℕ × ℕ}

theorem intLimit_spec (hfs : fs.Ok) : 1 ≤ intLimit fs ∧ intLimit fs < 8192 ∧
    8 + 8 * intLimit fs ≤ fs.blocksize := by
  have h1 := hfs.min_le
  have h2 := hfs.le_max
  rw [intLimit, dxTailSize]
  split <;> omega

theorem rootLimit_spec (hfs : fs.Ok) : 1 ≤ rootLimit fs ∧ rootLimit fs < 8192 ∧
    32 + 8 * rootLimit fs ≤ fs.blocksize := by
  have h1 := hfs.min_le
  have h2 := hfs.le_max
  rw [rootLimit, dxTailSize]
  split <;> omega

/-- A node of the lower levels before it is filled. -/
theorem dxNode_setIntNode (hfs : fs.Ok) : DxNode (setIntNode fs) 8 f 0 (intLimit fs) 0 := by
  have h := intLimit_spec hfs
  rw [setIntNode]
  refine ⟨fun s hs => absurd hs (Nat.not_lt_zero s), ?_, ?_⟩
  · rw [getLe_putLe_of_disjoint (by omega), getLe_putLe _ _ (by omega)]
  · rw [getLe_putLe _ _ (by decide)]

/-- The root before it is filled. -/
theorem dxNode_setRootNode (hfs : fs.Ok) (info : RootInfo) :
    DxNode (setRootNode fs info) 32 f 0 (rootLimit fs) 0 ∧
    getLe (setRootNode fs info) 30 1 = 0 := by
  have h := rootLimit_spec hfs
  rw [setRootNode]
  refine ⟨⟨fun s hs => absurd hs (Nat.not_lt_zero s), ?_, ?_⟩, ?_⟩
  · rw [getLe_putLe_of_disjoint (by omega), getLe_putLe _ _ (by omega)]
  · rw [getLe_putLe _ _ (by decide)]
  · rw [getLe_putLe_of_disjoint (by omega), getLe_putLe_of_disjoint (by omega),
      getLe_putLe _ _ (by decide)]

end Empty

/-! ### The lowest level -/

section Level

variable {hs addr cnt : ℕ → ℕ} {G g r i c : ℕ} {st : TreeState}

/-- The slots of the node `g` of the lowest level. -/
def leafSlots (fs : DirFs) (hs : ℕ → ℕ) (g s : ℕ) : ℕ × ℕ :=
  (hs (1 + g * intLimit fs + s), 1 + g * intLimit fs + s)

/-- **The lowest level of the index**, of `G` nodes at blocks `addr`. All but the last are full and
have their counts; the last has `r` slots, and is the one the pointers lead to. -/
structure LowLevel (fs : DirFs) (hs addr cnt : ℕ → ℕ) (G r : ℕ) (st : TreeState) : Prop where
  full : ∀ g, g + 1 < G →
    DxNode (st.out.buf (addr g)) 8 (leafSlots fs hs g) (intLimit fs) (intLimit fs) (cnt g)
  last : ∀ g, g + 1 = G → DxNode (st.out.buf (addr g)) 8 (leafSlots fs hs g) r (intLimit fs) 0
  limit : ∀ g, g + 1 = G → ∃ p, st.limit = some p ∧ PointsTo fs st.out p (addr g) 8
  dxEnt : ∀ g, g + 1 = G → r < intLimit fs → PointsTo fs st.out st.dxEnt (addr g) (8 + 8 * r)
  none : G = 0 → st.limit = none

/-- A slot for the leaf block `i` in the last node. -/
def leafSlot (b : Block) (r hash i : ℕ) : Block :=
  if r = 0 then putSlotBlock b 8 i else putSlot b (8 + 8 * r) hash i

theorem putLeafEntry_eq (h : LowLevel fs hs addr cnt (g + 1) r st) (hr : r < intLimit fs)
    (hc : c = intLimit fs - r) (hhs : st.out.hashes = hs) :
    putLeafEntry fs st i c = { st with
      out := st.out.put (addr g) (leafSlot (st.out.buf (addr g)) r (hs i) i)
      dxEnt := { st.dxEnt with pos := st.dxEnt.pos + 8 } } := by
  obtain ⟨p, hlimit, hp⟩ := h.limit g rfl
  have hq := h.dxEnt g rfl hr
  have hb : getLe (putLe (st.out.buf (addr g)) (8 + 8 * r + 4) 4 i) 8 2 = intLimit fs := by
    rw [getLe_putLe_of_disjoint (by omega), (h.last g rfl).limit]
  have hp' : PointsTo fs (st.out.put (addr g) (putLe (st.out.buf (addr g)) (8 + 8 * r + 4) 4 i)) p
    (addr g) 8 := hp
  have hq' : PointsTo fs (st.out.put (addr g) (putLe (st.out.buf (addr g)) (8 + 8 * r + 4) 4 i))
    st.dxEnt
      (addr g) (8 + 8 * r) := hq
  have hload : load fs (st.out.put (addr g) (putLe (st.out.buf (addr g)) (8 + 8 * r + 4) 4 i)) p 0
    2 =
      intLimit fs := by
    rw [load_of_pointsTo hp', put_buf_self, Nat.add_zero, hb]
  rw [putLeafEntry, hlimit, store_of_pointsTo hq]
  dsimp only
  by_cases hr0 : r = 0
  · rw [if_pos (decide_eq_true (by rw [hload]; omega)), leafSlot, if_pos hr0, hr0]
    rfl
  · rw [if_neg (by rw [hload]; exact fun h => absurd (of_decide_eq_true h) (by omega)),
      store_of_pointsTo hq', put_put, put_buf_self, put_hashes, hhs, leafSlot, if_neg hr0]
    rfl

/-- **A slot is added to the last node.** -/
theorem LowLevel.putLeafEntry (h : LowLevel fs hs addr cnt (g + 1) r st) (hfs : fs.Ok)
    (hr : r < intLimit fs)
    (hc : c = intLimit fs - r) (hhs : st.out.hashes = hs) (hi : i = 1 + g * intLimit fs + r)
    (hi32 : i < 2 ^ 32) (hhash : hs i < 2 ^ 32) (hinj : ∀ g' < g, addr g' ≠ addr g) :
    ∃ b, putLeafEntry fs st i c = { st with
        out := st.out.put (addr g) b, dxEnt := { st.dxEnt with pos := st.dxEnt.pos + 8 } } ∧
      LowLevel fs hs addr cnt (g + 1) (r + 1) (E2fsprogs.putLeafEntry fs st i c) := by
  have hlimit := intLimit_spec hfs
  refine ⟨_, putLeafEntry_eq h hr hc hhs, ?_⟩
  rw [putLeafEntry_eq h hr hc hhs]
  have hslot : leafSlots fs hs g r = (hs i, i) := by rw [leafSlots, hi]
  constructor
  · intro g' hg'
    rw [put_buf_of_ne (hinj g' (by omega))]
    exact h.full g' hg'
  · intro g' hg'
    obtain rfl : g' = g := by omega
    rw [put_buf_self, leafSlot]
    have hlast := h.last g' rfl
    split
    · next hr0 =>
      subst hr0
      have := hlast.putFirst (by rw [hslot]; exact hi32)
      rwa [hslot] at this
    · next hr0 =>
      have := hlast.put (by omega) (by rw [hslot]; exact hhash) (by rw [hslot]; exact hi32)
      rwa [hslot] at this
  · intro g' hg'
    exact h.limit g' hg'
  · intro g' hg' hr'
    obtain ⟨hgen, hpos, -⟩ := h.dxEnt g' hg' hr
    refine ⟨hgen, ?_, by omega⟩
    show st.dxEnt.pos + 8 = _
    rw [hpos]
    omega
  · exact h.none

/-- **A node is added when the others are full.** -/
theorem lowLevel_newNode (hfs : fs.Ok) {p : BufPtr} (hlimit : st.limit = some p)
    (hdxEnt : st.dxEnt = p)
    (hp : PointsTo fs st.out p (addr G) 8) (hnode : st.out.buf (addr G) = setIntNode fs)
    (hfull : ∀ g < G,
      DxNode (st.out.buf (addr g)) 8 (leafSlots fs hs g) (intLimit fs) (intLimit fs) (cnt g)) :
    LowLevel fs hs addr cnt (G + 1) 0 st := by
  constructor
  · intro g hg
    exact hfull g (by omega)
  · intro g hg
    obtain rfl : g = G := by omega
    rw [hnode]
    exact dxNode_setIntNode hfs
  · intro g hg
    obtain rfl : g = G := by omega
    exact ⟨p, hlimit, hp⟩
  · intro g hg _
    obtain rfl : g = G := by omega
    rw [hdxEnt]
    exact hp
  · exact fun h => absurd h (Nat.succ_ne_zero G)

end Level

end E2fsprogs
