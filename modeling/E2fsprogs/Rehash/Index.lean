import E2fsprogs.Rehash.ThreeLevels

/-!
# When the index is valid

The index of a directory is read from its root: the slots of a block, as many as its count says,
lead to blocks of the next level, and the first slot has the key of the slot that led to the block.
It is valid if all limits and counts are right and the slots of the lowest level lead to the leaf
blocks, each once, with their keys (`E2fsprogs.IndexOk`).

**The index of one or two levels is always valid; that of three levels is not**
(`E2fsprogs.calculateTree_indexOk`).
-/

namespace E2fsprogs

variable {fs : DirFs}

/-! ### Reading an index -/

/-- The slots of an index block that was reached with a key. -/
def dxSlots (b : Block) (base key : ℕ) : List (ℕ × ℕ) :=
  (List.range (getLe b (base + 2) 2)).map fun s =>
    (if s = 0 then key else getLe b (base + 8 * s) 4, getLe b (base + 8 * s + 4) 4)

/-- The leaf blocks below a slot, with their keys, with `l` levels of nodes between. -/
def dxLeaves (buf : ℕ → Block) : ℕ → ℕ × ℕ → List (ℕ × ℕ)
  | 0, e => [e]
  | l + 1, e => (dxSlots (buf e.2) 8 e.1).flatMap (dxLeaves buf l)

/-- The limit of an index block is right, and its count is neither zero nor above it. -/
def WordsOk (b : Block) (base limit : ℕ) : Prop :=
  getLe b base 2 = limit ∧ 1 ≤ getLe b (base + 2) 2 ∧ getLe b (base + 2) 2 ≤ limit

/-- The limits and counts of the nodes below a slot are right. -/
def NodesOk (fs : DirFs) (buf : ℕ → Block) : ℕ → ℕ × ℕ → Prop
  | 0, _ => True
  | l + 1, e => WordsOk (buf e.2) 8 (intLimit fs) ∧ ∀ e' ∈ dxSlots (buf e.2) 8 e.1,
    NodesOk fs buf l e'

/-- The key of the leaf block `1 + j`. The first one has none. -/
def leafRef (keys : ℕ → ℕ) (j : ℕ) : ℕ × ℕ := (if j = 0 then 0 else keys j, 1 + j)

/-- **A valid index** of `n` leaf blocks with these keys. -/
structure IndexOk (fs : DirFs) (buf : ℕ → Block) (keys : ℕ → ℕ) (n : ℕ) : Prop where
  root : WordsOk (buf 0) 32 (rootLimit fs)
  nodes : ∀ e ∈ dxSlots (buf 0) 32 0, NodesOk fs buf (getLe (buf 0) 30 1) e
  leaves : (dxSlots (buf 0) 32 0).flatMap (dxLeaves buf (getLe (buf 0) 30 1)) = (List.range n).map
    (leafRef keys)

section Reading

variable {b : Block} {buf : ℕ → Block} {base n limit L D r key l : ℕ} {f : ℕ → ℕ × ℕ} {α : Type}

/-- The slots of a node whose count is right. -/
theorem DxNode.dxSlots (h : DxNode b base f n limit n) :
    dxSlots b base key = (List.range n).map fun s => (if s = 0 then key else (f s).1, (f s).2) := by
  rw [E2fsprogs.dxSlots, h.count]
  refine List.map_congr_left fun s hs => ?_
  obtain ⟨h1, h2⟩ := h.slot s (List.mem_range.mp hs)
  split
  · rw [h1]
  · next h0 => rw [h1, h2 h0]

theorem DxNode.wordsOk (h : DxNode b base f n limit n) (hn : 1 ≤ n) (hle : n ≤ limit) :
    WordsOk b base limit :=
  ⟨h.limit, by rw [h.count]; exact hn, by rw [h.count]; exact hle⟩

/-- A list that is cut into pieces of length `L`. -/
theorem flatMap_pieces (F : ℕ → List α) (L D : ℕ) :
    ((List.range D).flatMap fun g => (List.range L).flatMap fun s => F (g * L + s)) =
      (List.range (D * L)).flatMap F := by
  induction D with
  | zero => rw [Nat.zero_mul]; rfl
  | succ D ih =>
    rw [List.range_succ, List.flatMap_append, ih, Nat.succ_mul, List.range_add, List.flatMap_append,
      List.flatMap_singleton, List.flatMap_map]

/-- The same where the last piece has length `r`. -/
theorem flatMap_pieces_last (F : ℕ → List α) (L D r : ℕ) :
    ((List.range (D + 1)).flatMap fun g =>
        (List.range (if g + 1 < D + 1 then L else r)).flatMap fun s => F (g * L + s)) =
      (List.range (D * L + r)).flatMap F := by
  rw [List.range_succ, List.flatMap_append, List.range_add, List.flatMap_append, ← flatMap_pieces,
    List.flatMap_singleton, List.flatMap_map, if_neg (by omega)]
  congr 1
  refine List.flatMap_congr fun g hg => ?_
  rw [if_pos (by have := List.mem_range.mp hg; omega)]

/-- The leaf blocks below a node of the lowest level. -/
theorem dxLeaves_low {hs : ℕ → ℕ} {g a : ℕ} (h : DxNode (buf a) 8 (leafSlots fs hs g) n limit n) :
    dxLeaves buf 1 ((leafRef (fun j => hs (1 + j)) (g * intLimit fs)).1, a) =
      (List.range n).flatMap fun s => [leafRef (fun j => hs (1 + j)) (g * intLimit fs + s)] := by
  rw [dxLeaves, h.dxSlots, List.flatMap_map]
  refine List.flatMap_congr fun s _ => ?_
  rw [dxLeaves, leafSlots, leafRef, leafRef]
  by_cases hs0 : s = 0
  · subst hs0
    rw [if_pos rfl]
    rfl
  · rw [if_neg hs0, if_neg (by omega), Nat.add_assoc]

/-- The leaf blocks below a node of the middle level. -/
theorem dxLeaves_mid {hs : ℕ → ℕ} {nb t a : ℕ}
    (h : DxNode (buf a) 8 (midSlots fs hs nb t) n limit n) (hL : 0 < intLimit fs) :
    dxLeaves buf 2 ((leafRef (fun j => hs (1 + j)) (t * intLimit fs * intLimit fs)).1, a) =
      (List.range n).flatMap fun e => dxLeaves buf 1
        ((leafRef (fun j => hs (1 + j)) ((t * intLimit fs + e) * intLimit fs)).1,
          midAddr nb (intLimit fs) t + e + 1) := by
  rw [dxLeaves, h.dxSlots, List.flatMap_map]
  refine List.flatMap_congr fun e _ => ?_
  rw [midSlots, leafRef, leafRef]
  by_cases he : e = 0
  · subst he
    rw [if_pos rfl, Nat.add_zero]
  · have : 0 < (t * intLimit fs + e) * intLimit fs := Nat.mul_pos (by omega) hL
    rw [if_neg he, if_neg (by omega)]

end Reading

/-! ### The end of `calculate_tree` -/

section Ends

variable {hs addr cnt : ℕ → ℕ} {buf : ℕ → Block} {m nb D T d r G g : ℕ} {st : TreeState}
    {out : OutDir}

/-- The lowest level when its last node has been closed. -/
def LowDone (fs : DirFs) (hs addr cnt : ℕ → ℕ) (G r : ℕ) (buf : ℕ → Block) : Prop :=
  ∀ g < G, DxNode (buf (addr g)) 8 (leafSlots fs hs g) (if g + 1 < G then intLimit fs
    else r) (intLimit fs)
    (if g + 1 < G then cnt g else r)

/-- Closing the last node of the lowest level at the end. -/
theorem LowLevel.closeNode {p : BufPtr} {c : ℕ}
    (h : LowLevel fs hs addr cnt (g + 1) r st) (hfs : fs.Ok)
    (hr : r ≤ intLimit fs) (hc : c = intLimit fs - r) (hp : PointsTo fs out p (addr g) 8)
    (hbuf : ∀ g' ≤ g, out.buf (addr g') = st.out.buf (addr g'))
    (hinj : ∀ g' < g, addr g' ≠ addr g) :
    ∃ b, closeNode fs out p p c = out.put (addr g) b ∧
    LowDone fs hs addr cnt (g + 1) r (out.put (addr g) b).buf := by
  have hlt := intLimit_spec hfs
  have hlast := h.last g rfl
  rw [← hbuf g le_rfl] at hlast
  refine ⟨_, closeNode_of_pointsTo hp hp c, fun g' hg' => ?_⟩
  rcases Nat.lt_or_ge g' g with hlt' | hge
  · rw [put_buf_of_ne (hinj g' hlt'), hbuf g' hlt'.le, if_pos (by omega), if_pos (by omega)]
    exact h.full g' (by omega)
  · obtain rfl : g' = g := by omega
    rw [put_buf_self, if_neg (by omega), if_neg (by omega), hlast.limit,
      show intLimit fs - c = r by omega]
    exact hlast.words (by omega) (by omega)

/-- Closing the root. -/
theorem closeRoot_eq {n c : ℕ} {f : ℕ → ℕ × ℕ} (hfs : fs.Ok)
    (h : DxNode (out.buf 0) 32 f n (rootLimit fs) 0)
    (hn : n ≤ rootLimit fs) (hc : c = rootLimit fs - n) :
    ∃ b, closeRoot fs out c = out.put 0 b ∧ DxNode b 32 f n (rootLimit fs) n ∧
      getLe b 30 1 = getLe (out.buf 0) 30 1 := by
  have hlt := rootLimit_spec hfs
  have hmin := hfs.min_le
  have hp : PointsTo fs out ⟨out.gen, 32⟩ 0 32 :=
    ⟨rfl, (by rw [Nat.zero_mul] : 32 = 0 * fs.blocksize + 32), by omega⟩
  refine ⟨_, closeNode_of_pointsTo hp hp c, ?_, putWords_levels le_rfl⟩
  rw [h.limit, show rootLimit fs - c = n by omega]
  exact h.words (by omega) (by omega)

/-- The key of a node is that of its first leaf block. -/
theorem leafRef_fst {keys : ℕ → ℕ} {L : ℕ} (hL : 0 < L) (g : ℕ) :
    (leafRef keys (g * L)).1 = if g = 0 then 0 else keys (g * L) := by
  rw [leafRef]
  by_cases hg : g = 0
  · rw [if_pos hg, if_pos (by rw [hg, Nat.zero_mul])]
  · rw [if_neg hg, if_neg (Nat.mul_ne_zero hg hL.ne')]

/-- **The end of an index of two levels.** -/
theorem TwoLevels.done (h : TwoLevels fs hs buf nb (D + 1) r st) (hfs : fs.Ok)
    (hnb : 0 < nb) (hr0 : 0 < r)
    (hr : r ≤ intLimit fs) (hD : D + 1 ≤ rootLimit fs) {p : BufPtr} (hp : st.limit = some p) :
    IndexOk fs (closeRoot fs (closeNode fs st.out p p st.c2) st.c1).buf (fun j => hs (1 + j))
        (D * intLimit fs + r) ∧
      ∀ k, 0 < k → k < nb → (closeRoot fs (closeNode fs st.out p p st.c2) st.c1).buf k = buf k := by
  have hlt := intLimit_spec hfs
  obtain ⟨p', hp', hptr⟩ := h.low.limit D rfl
  obtain rfl : p' = p := Option.some.inj (hp'.symm.trans hp)
  obtain ⟨b, hclose, hlow⟩ :=
    h.low.closeNode hfs hr h.c2 hptr (fun _ _ => rfl) (fun g' hg' => by omega)
  have hroot := h.root
  rw [← put_buf_of_ne (show 0 ≠ nb + D by omega) st.out b] at hroot
  obtain ⟨b', hclose', hroot', hlevels⟩ := closeRoot_eq hfs hroot hD h.c1
  rw [put_buf_of_ne (by omega), h.levels] at hlevels
  rw [hclose, hclose']
  have hnode : ∀ g < D + 1,
    DxNode (((st.out.put (nb + D) b).put 0 b').buf (nb + g)) 8 (leafSlots fs hs g)
      (if g + 1 < D + 1 then intLimit fs else r) (intLimit fs) (if g + 1 < D + 1 then
        intLimit fs else r) := by
    intro g hg
    rw [put_buf_of_ne (by omega)]
    exact hlow g hg
  refine ⟨⟨?_, ?_, ?_⟩, ?_⟩
  · rw [put_buf_self]
    exact hroot'.wordsOk (by omega) hD
  · rw [put_buf_self, hlevels, hroot'.dxSlots]
    intro e he
    obtain ⟨g, hg, rfl⟩ := List.mem_map.mp he
    refine ⟨(hnode g (List.mem_range.mp hg)).wordsOk ?_ ?_, fun _ _ => trivial⟩ <;> split <;> omega
  · rw [put_buf_self, hlevels, hroot'.dxSlots, List.flatMap_map, List.map_eq_flatMap,
      ← flatMap_pieces_last]
    refine List.flatMap_congr fun g hg => ?_
    have := dxLeaves_low (hnode g (List.mem_range.mp hg))
    rw [leafRef_fst hlt.1] at this
    exact this
  · intro k h0 hk
    rw [put_buf_of_ne (by omega), put_buf_of_ne (by omega), h.leaf k h0 hk]

/-- The blocks of an index of three levels at the end. -/
structure ThreeDone (fs : DirFs) (hs : ℕ → ℕ) (m nb T d r G : ℕ) (buf : ℕ → Block) : Prop where
  low : LowDone fs hs (lowAddr nb (intLimit fs)) (lowCount m nb (intLimit fs)) G r buf
  mid : ∀ t < T, DxNode (buf (midAddr nb (intLimit fs) t)) 8 (midSlots fs hs nb t)
    (if t + 1 < T then intLimit fs else d) (if t + 1 < T then midLimit fs hs t else intLimit fs)
    (if t + 1 < T then midLimit fs hs t else d)
  root : DxNode (buf 0) 32 (topSlots fs hs nb) T (rootLimit fs) T
  levels : getLe (buf 0) 30 1 = 2

/-- **The end of an index of three levels.** -/
theorem ThreeLevels.done (h : ThreeLevels fs hs buf m nb T d r (g + 1) st) (hfs : fs.Ok)
    (hnb : 0 < nb)
    (hr : r ≤ intLimit fs) (hd : d ≤ intLimit fs) (hT0 : 0 < T) (hT : T ≤ rootLimit fs) :
    ∃ p q, st.limit = some p ∧ st.intLimit = some q ∧
      ThreeDone fs hs m nb T d r (g + 1)
        (closeRoot fs (closeNode fs (closeNode fs st.out q p st.c2) p p st.c3) st.c1).buf ∧
      ∀ k, 0 < k → k < nb →
        (closeRoot fs (closeNode fs (closeNode fs st.out q p st.c2) p p st.c3) st.c1).buf k =
          buf k := by
  have hlt := intLimit_spec hfs
  obtain ⟨t, rfl⟩ : ∃ t, t + 1 = T := ⟨T - 1, by omega⟩
  obtain ⟨p, hp, hptr⟩ := h.low.limit g rfl
  obtain ⟨q, hq, hqtr⟩ := h.midPtr t rfl
  have hne := lowAddr_ne_midAddr hlt.1 nb
  have hmid0 : ∀ t, nb ≤ midAddr nb (intLimit fs) t := fun t => by
    rw [midAddr]
    omega
  have hlow0 := lt_lowAddr nb (intLimit fs)
  -- the last node of the middle level
  have hclose := closeNode_of_pointsTo hqtr hptr st.c2
  have hlast := h.lastMid t rfl
  rw [(h.low.last g rfl).limit, show intLimit fs - st.c2 = d by have := h.c2; omega] at hclose
  obtain ⟨b, hb⟩ : ∃ b, b = putWords (st.out.buf (midAddr nb (intLimit fs) t)) 8 (intLimit fs) d :=
    ⟨_, rfl⟩
  rw [← hb] at hclose
  have hmid := hlast.words (show intLimit fs < 65536 by omega) (show d < 65536 by omega)
  rw [← hb] at hmid
  -- the last node of the lowest level
  have hptr' : PointsTo fs (st.out.put (midAddr nb (intLimit fs) t) b) p
    (lowAddr nb (intLimit fs) g) 8 := hptr
  obtain ⟨b', hclose', hlow⟩ := h.low.closeNode hfs hr h.c3 hptr'
    (fun g' _ => put_buf_of_ne (hne g' t) _ _) (fun g' hg' => (lowAddr_lt hg').ne)
  -- the root
  have h0 : ((st.out.put (midAddr nb (intLimit fs) t) b).put
    (lowAddr nb (intLimit fs) g) b').buf 0 =
      st.out.buf 0 := by
    have h1 := hmid0 t
    have h2 := hlow0 g
    rw [put_buf_of_ne (by omega), put_buf_of_ne (by omega)]
  have hroot := h.root
  rw [← h0] at hroot
  obtain ⟨b'', hclose'', hroot', hlevels⟩ := closeRoot_eq hfs hroot hT h.c1
  rw [h0, h.levels] at hlevels
  refine ⟨p, q, hp, hq, ?_⟩
  rw [hclose, hclose', hclose'']
  refine ⟨⟨?_, ?_, ?_, ?_⟩, ?_⟩
  · intro g' hg'
    have := hlow0 g'
    rw [put_buf_of_ne (by omega)]
    exact hlow g' hg'
  · intro t' ht'
    have h1 := hmid0 t'
    rw [put_buf_of_ne (by omega), put_buf_of_ne (hne g t').symm]
    rcases Nat.lt_or_ge t' t with hlt' | hge
    · have := @midAddr_lt (intLimit fs) nb t' t hlt'
      rw [put_buf_of_ne (by omega), if_pos (by omega), if_pos (by omega), if_pos (by omega)]
      exact h.mid t' (by omega)
    · obtain rfl : t' = t := by omega
      rw [put_buf_self, if_neg (by omega), if_neg (by omega), if_neg (by omega)]
      exact hmid
  · rw [put_buf_self]
    exact hroot'
  · rw [put_buf_self, hlevels]
  · intro k hk0 hk
    have h1 := hmid0 t
    have h2 := hlow0 g
    rw [put_buf_of_ne (by omega), put_buf_of_ne (by omega), put_buf_of_ne (by omega),
      h.leaf k hk0 hk]

/-- What the nodes of an index of three levels must not meet. -/
def MidOk (fs : DirFs) (hs : ℕ → ℕ) (m nb T : ℕ) : Prop :=
  (∀ t, 0 < t → t + 1 < T → hs (1 + t * intLimit fs * intLimit fs) % 65536 = intLimit fs) ∧
    ∀ t, 0 < t → t < T → ¬Moved m nb (intLimit fs) t

/-- The counts of the lowest level where the buffer is not reallocated at the wrong time. -/
theorem lowCount_of_not_moved {L : ℕ} (hmoved : ∀ t, 0 < t → t < T → ¬Moved m nb L t)
    (hg : g + 1 < T * L) : lowCount m nb L g = L := by
  refine if_neg fun h => ?_
  have hdiv : (g + 1) / L * L = g + 1 := Nat.div_mul_cancel (Nat.dvd_of_mod_eq_zero h.1)
  refine hmoved _ ?_ ?_ h.2
  · exact Nat.pos_of_ne_zero fun h0 => by rw [h0, Nat.zero_mul] at hdiv; omega
  · exact Nat.lt_of_mul_lt_mul_right (show (g + 1) / L * L < T * L by omega)

/-- **An index of three levels is valid** where nothing goes wrong. -/
theorem ThreeDone.indexOk (h : ThreeDone fs hs m nb T d r (g + 1) buf) (hfs : fs.Ok)
    (hnodes : g + 1 + intLimit fs = T * intLimit fs + d) (hr0 : 0 < r)
    (hr : r ≤ intLimit fs) (hd0 : 0 < d)
    (hd : d ≤ intLimit fs) (hT0 : 0 < T) (hT : T ≤ rootLimit fs) (hok : MidOk fs hs m nb T) :
    IndexOk fs buf (fun j => hs (1 + j)) (g * intLimit fs + r) := by
  have hlt := intLimit_spec hfs
  have hlow : ∀ g' < g + 1, DxNode (buf (lowAddr nb (intLimit fs) g')) 8 (leafSlots fs hs g')
      (if g' + 1 < g + 1 then intLimit fs else r) (intLimit fs) (if g' + 1 < g + 1 then
        intLimit fs else r) := by
    intro g' hg'
    have := h.low g' hg'
    by_cases hlast : g' + 1 < g + 1
    · rw [if_pos hlast, if_pos hlast, lowCount_of_not_moved hok.2 (by omega)] at this
      rwa [if_pos hlast]
    · rw [if_neg hlast, if_neg hlast] at this
      rwa [if_neg hlast]
  have hmid : ∀ t < T, DxNode (buf (midAddr nb (intLimit fs) t)) 8 (midSlots fs hs nb t)
      (if t + 1 < T then intLimit fs else d) (intLimit fs) (if t + 1 < T then
        intLimit fs else d) := by
    intro t ht
    have := h.mid t ht
    by_cases hlast : t + 1 < T
    · have hlimit : midLimit fs hs t = intLimit fs := by
        rw [midLimit]
        split
        · rfl
        · next ht0 => exact hok.1 t (Nat.pos_of_ne_zero ht0) hlast
      rw [if_pos hlast, if_pos hlast, if_pos hlast, hlimit] at this
      rwa [if_pos hlast]
    · rw [if_neg hlast, if_neg hlast, if_neg hlast] at this
      rwa [if_neg hlast]
  -- the number of a node below the node `t` of the middle level
  have hindex : ∀ t < T, ∀ e < (if t + 1 < T then intLimit fs else d),
      t * intLimit fs + e < g + 1 ∧
        lowAddr nb (intLimit fs) (t * intLimit fs + e) = midAddr nb (intLimit fs) t + e + 1 := by
    intro t ht e he
    have heL : e < intLimit fs := by
      split at he <;> omega
    refine ⟨?_, lowAddr_eq heL nb t⟩
    by_cases hlast : t + 1 < T
    · have := Nat.mul_le_mul_right (intLimit fs) (show t + 2 ≤ T by omega)
      rw [Nat.add_mul] at this
      omega
    · obtain rfl : T = t + 1 := by omega
      rw [if_neg hlast] at he
      rw [Nat.succ_mul] at hnodes
      omega
  refine ⟨h.root.wordsOk (by omega) hT, ?_, ?_⟩
  · rw [h.levels, h.root.dxSlots]
    intro e he
    obtain ⟨t, ht, rfl⟩ := List.mem_map.mp he
    have ht' := List.mem_range.mp ht
    refine ⟨(hmid t ht').wordsOk (by split <;> omega) (by split <;> omega), ?_⟩
    intro e' he'
    rw [show (topSlots fs hs nb t).2 = midAddr nb (intLimit fs) t from rfl, (hmid t ht').dxSlots]
      at he'
    obtain ⟨e, he, rfl⟩ := List.mem_map.mp he'
    obtain ⟨hg', haddr⟩ := hindex t ht' e (List.mem_range.mp he)
    refine ⟨?_, fun _ _ => trivial⟩
    show WordsOk (buf (midAddr nb (intLimit fs) t + e + 1)) 8 _
    rw [← haddr]
    exact (hlow _ hg').wordsOk (by split <;> omega) (by split <;> omega)
  · rw [h.levels, h.root.dxSlots, List.flatMap_map, List.map_eq_flatMap]
    obtain ⟨t, rfl⟩ : ∃ t, t + 1 = T := ⟨T - 1, by omega⟩
    rw [Nat.succ_mul] at hnodes
    have hg : g + 1 = t * intLimit fs + d := by omega
    rw [← flatMap_pieces_last, hg, ← flatMap_pieces_last]
    refine List.flatMap_congr fun t' ht' => ?_
    have htop := dxLeaves_mid (hmid t' (List.mem_range.mp ht')) hlt.1
    have hkey : (leafRef (fun j => hs (1 + j)) (t' * intLimit fs * intLimit fs)).1 =
        if t' = 0 then 0 else (topSlots fs hs nb t').1 := by
      rw [leafRef_fst hlt.1]
      by_cases ht0 : t' = 0
      · rw [if_pos ht0, if_pos (by rw [ht0, Nat.zero_mul])]
      · rw [if_neg ht0, if_neg (Nat.mul_ne_zero ht0 (by omega))]
        rfl
    rw [hkey] at htop
    refine htop.trans (List.flatMap_congr fun e he => ?_)
    obtain ⟨hg', haddr⟩ := hindex t' (List.mem_range.mp ht') e (List.mem_range.mp he)
    have := dxLeaves_low (hlow _ hg')
    rw [haddr, hg] at this
    exact this

/-- **An index of three levels is valid** only where nothing goes wrong. -/
theorem ThreeDone.midOk (h : ThreeDone fs hs m nb T d r (g + 1) buf) (hfs : fs.Ok)
    (hnodes : g + 1 + intLimit fs = T * intLimit fs + d) (hd0 : 0 < d) {n : ℕ} {keys : ℕ → ℕ}
    (hindex : IndexOk fs buf keys n) : MidOk fs hs m nb T := by
  have hlt := intLimit_spec hfs
  -- the nodes of the middle level are reached
  have hmid : ∀ t < T, ∃ key, NodesOk fs buf 2 (key, midAddr nb (intLimit fs) t) := by
    intro t ht
    have hmem := List.mem_map_of_mem
      (f := fun s => (if s = 0 then 0 else (topSlots fs hs nb s).1, (topSlots fs hs nb s).2))
      (List.mem_range.mpr ht)
    rw [← h.root.dxSlots] at hmem
    have := hindex.nodes _ hmem
    rw [h.levels] at this
    exact ⟨_, this⟩
  have hlimit : ∀ t, t + 1 < T → midLimit fs hs t = intLimit fs := by
    intro t ht
    obtain ⟨key, hwords, -⟩ := hmid t (by omega)
    have hnode := (h.mid t (by omega)).limit
    rw [if_pos ht] at hnode
    exact hnode.symm.trans hwords.1
  refine ⟨fun t ht0 ht => ?_, fun t ht0 ht hmoved => ?_⟩
  · have := hlimit t ht
    rwa [midLimit, if_neg (by omega)] at this
  · -- the last node below the node before is reached, and its count is zero
    obtain ⟨t, rfl⟩ : ∃ t', t = t' + 1 := ⟨t - 1, by omega⟩
    obtain ⟨key, -, hnodes'⟩ := hmid t (by omega)
    have hnode := h.mid t (by omega)
    rw [if_pos ht, if_pos ht, if_pos ht, hlimit t ht] at hnode
    rw [hnode.dxSlots] at hnodes'
    obtain ⟨e, he⟩ : ∃ e, e + 1 = intLimit fs := ⟨intLimit fs - 1, by omega⟩
    have hlow :=
      (hnodes' _ (List.mem_map_of_mem (List.mem_range.mpr (show e < intLimit fs by omega)))).1
    have hg : t * intLimit fs + e + 1 = (t + 1) * intLimit fs := by
      rw [Nat.succ_mul]
      omega
    have hlast : t * intLimit fs + e + 1 < g + 1 := by
      have := Nat.mul_le_mul_right (intLimit fs) (show t + 2 ≤ T by omega)
      rw [Nat.add_mul] at this
      rw [Nat.succ_mul] at hg
      omega
    have hcount := (h.low (t * intLimit fs + e) (by omega)).count
    rw [if_pos hlast, lowCount_of_last hlt.1 hg, if_pos hmoved, lowAddr_eq (by omega)] at hcount
    have hpos := hlow.2.1
    rw [show (midSlots fs hs nb t e).2 = midAddr nb (intLimit fs) t + e + 1 from rfl,
      hcount] at hpos
    omega

end Ends

/-! ### One level -/

section OneLevel

variable {out : OutDir} {st : TreeState} {j : ℕ}

/-- The slots of the root of an index of one level. -/
def oneSlots (hs : ℕ → ℕ) (s : ℕ) : ℕ × ℕ := (hs (1 + s), 1 + s)

/-- **The index of one level** with `j` leaf blocks. -/
structure OneLevel (fs : DirFs) (out : OutDir) (j : ℕ) (st : TreeState) : Prop where
  out_eq : ∃ b, st.out = out.put 0 b
  root : DxNode (st.out.buf 0) 32 (oneSlots out.hashes) j (rootLimit fs) 0
  levels : getLe (st.out.buf 0) 30 1 = 0
  c1 : st.c1 = rootLimit fs - j
  dxEnt : st.dxEnt.gen = out.gen ∧ st.dxEnt.pos = 32 + 8 * j

/-- A round. -/
theorem OneLevel.rootRound (h : OneLevel fs out j st) (hfs : fs.Ok) (hj : j < rootLimit fs)
    (hhash : out.hashes (1 + j) < 2 ^ 32) : OneLevel fs out (j + 1) (rootRound fs st (1 + j)) := by
  have hroot := rootLimit_spec hfs
  obtain ⟨b, hb⟩ := h.out_eq
  have hgen : st.out.gen = out.gen := by rw [hb, put_gen]
  have hhs : st.out.hashes = out.hashes := by rw [hb, put_hashes]
  have hp : PointsTo fs st.out st.dxEnt 0 (32 + 8 * j) :=
    ⟨h.dxEnt.1.trans hgen.symm, by rw [h.dxEnt.2, Nat.zero_mul, Nat.zero_add], by omega⟩
  have hp' : PointsTo fs (st.out.put 0 (putLe (st.out.buf 0) (32 + 8 * j + 4) 4 (1 + j))) st.dxEnt 0
    (32 + 8 * j) := hp
  obtain ⟨c, hc⟩ : ∃ c, c =
    (if 1 + j ≠ 1 then putSlot (st.out.buf 0) (32 + 8 * j) (out.hashes (1 + j)) (1 + j)
      else putSlotBlock (st.out.buf 0) (32 + 8 * j) (1 + j)) := ⟨_, rfl⟩
  have hround : E2fsprogs.rootRound fs st (1 + j) = { st with
      out := st.out.put 0 c, dxEnt := { st.dxEnt with pos := st.dxEnt.pos + 8 },
      c1 := st.c1 - 1 } := by
    rw [E2fsprogs.rootRound, store_of_pointsTo hp, store_of_pointsTo hp', put_put, put_buf_self,
      put_hashes, hhs, hc]
    split <;> rfl
  -- the first leaf has no hash in the root, every other one has
  have hcnode : DxNode c 32 (oneSlots out.hashes) (j + 1) (rootLimit fs) 0 := by
    rw [hc]
    split
    · exact h.root.put (by omega) hhash (show 1 + j < 2 ^ 32 by omega)
    · obtain rfl : j = 0 := by omega
      exact h.root.putFirst (show 1 + 0 < 2 ^ 32 by omega)
  have hclevels : getLe c 30 1 = 0 := by
    refine Eq.trans ?_ h.levels
    rw [hc]
    split
    · rw [putSlot, putSlotBlock, getLe_putLe_of_disjoint (by omega),
        getLe_putLe_of_disjoint (by omega)]
    · rw [putSlotBlock, getLe_putLe_of_disjoint (by omega)]
  rw [hround]
  refine ⟨⟨c, by rw [hb, put_put]⟩, ?_, ?_, ?_, h.dxEnt.1, ?_⟩
  · show DxNode ((st.out.put 0 c).buf 0) _ _ _ _ _
    rw [put_buf_self]
    exact hcnode
  · show getLe ((st.out.put 0 c).buf 0) 30 1 = 0
    rw [put_buf_self, hclevels]
  · show st.c1 - 1 = _
    rw [h.c1]
    omega
  · show st.dxEnt.pos + 8 = _
    rw [h.dxEnt.2]
    omega

/-- All rounds. -/
theorem OneLevel.run (h : OneLevel fs out 0 st) (hfs : fs.Ok)
    (hhash : ∀ k < out.num, out.hashes k < 2 ^ 32) :
    ∀ j, j < out.num → j ≤ rootLimit fs →
    OneLevel fs out j ((List.range' 1 j).foldl (E2fsprogs.rootRound fs) st) := by
  intro j
  induction j with
  | zero => exact fun _ _ => h
  | succ j ih =>
    intro hj hle
    rw [List.range'_1_concat, List.foldl_append]
    exact (ih (by omega) (by omega)).rootRound hfs (by omega) (hhash _ (by omega))

/-- The end of an index of one level. -/
theorem OneLevel.done (h : OneLevel fs out j st) (hfs : fs.Ok) (hj0 : 0 < j)
    (hj : j ≤ rootLimit fs) :
    IndexOk fs (closeRoot fs st.out st.c1).buf (fun i => out.hashes (1 + i)) j ∧
      ∀ k, 0 < k → (closeRoot fs st.out st.c1).buf k = out.buf k := by
  obtain ⟨b, hb⟩ := h.out_eq
  obtain ⟨b', hclose, hroot, hlevels⟩ := closeRoot_eq hfs h.root hj h.c1
  rw [hclose]
  refine ⟨⟨?_, ?_, ?_⟩, fun k hk => ?_⟩
  · rw [put_buf_self]
    exact hroot.wordsOk hj0 hj
  · rw [put_buf_self, hlevels, h.levels]
    exact fun _ _ => trivial
  · rw [put_buf_self, hlevels, h.levels, hroot.dxSlots, List.flatMap_map, List.map_eq_flatMap]
    rfl
  · rw [put_buf_of_ne (by omega), hb, put_buf_of_ne (by omega)]

end OneLevel

/-! ### All levels -/

section Levels

variable {info : RootInfo} {out : OutDir} {m lvl : ℕ} {f : ℕ → ℕ × ℕ}

/-- **When `calculate_tree` makes a valid index** of the `nb - 1` leaf blocks with the hashes `hs`,
if the buffer was allocated for `m` blocks. With three levels, the nodes of the middle level must
have offsets below 2^31; the buffer must not be reallocated for any of them but the first; and for
those that are full, but the first, the lower half of the hash must happen to be the limit. -/
def TreeOk (fs : DirFs) (hs : ℕ → ℕ) (m nb : ℕ) : Prop :=
  nb - 1 ≤ rootLimit fs * intLimit fs ∨ ∀ t, t * intLimit fs * intLimit fs < nb - 1 →
    midAddr nb (intLimit fs) t * fs.blocksize + 8 < 2 ^ 31 ∧
    (0 < t → ¬Moved m nb (intLimit fs) t) ∧
    (0 < t → (t + 1) * intLimit fs * intLimit fs < nb - 1 →
      hs (1 + t * intLimit fs * intLimit fs) % 65536 = intLimit fs)

/-- The root as the rounds begin. -/
theorem rootStart (hfs : fs.Ok) (hlvl : lvl < 256) :
    store fs (out.put 0 (setRootNode fs info)) ⟨out.gen, 0⟩ 30 1 lvl =
      out.put 0 (putLe (setRootNode fs info) 30 1 lvl) ∧
      DxNode (putLe (setRootNode fs info) 30 1 lvl) 32 f 0 (rootLimit fs) 0 ∧
      getLe (putLe (setRootNode fs info) 30 1 lvl) 30 1 = lvl := by
  have hmin := hfs.min_le
  have hp : PointsTo fs (out.put 0 (setRootNode fs info)) ⟨out.gen, 0⟩ 0 0 :=
    ⟨rfl, (by rw [Nat.zero_mul] : 0 = 0 * fs.blocksize + 0), by omega⟩
  have hroot := (dxNode_setRootNode (f := f) hfs info).1
  refine ⟨?_, ⟨fun s hs => absurd hs (Nat.not_lt_zero s), ?_, ?_⟩, getLe_putLe _ _ (by omega)⟩
  · rw [store_of_pointsTo hp, put_put, put_buf_self]
  · rw [getLe_putLe_of_disjoint (by omega), hroot.limit]
  · rw [getLe_putLe_of_disjoint (by omega), hroot.count]

/-- The result of `calculate_tree` is a valid index, and the leaf blocks are the same. -/
def TreeMade (fs : DirFs) (info : RootInfo) (out : OutDir) : Prop :=
  ∃ out', calculateTree fs info out = some out' ∧
    IndexOk fs out'.buf (fun j => out.hashes (1 + j)) (out.num - 1) ∧
    ∀ k, 0 < k → k < out.num → out'.buf k = out.buf k

/-- The state before the first round, with this root. -/
def treeStart (fs : DirFs) (out : OutDir) (b : Block) : TreeState where
  out := out.put 0 b
  c1 := rootLimit fs
  c2 := 0
  c3 := 0
  rootOffset := 32
  intOffset := 0
  limit := none
  intLimit := none
  dxEnt := ⟨out.gen, 32⟩

/-- `calculate_tree` by the number of levels. -/
theorem calculateTree_eq (hfs : fs.Ok) (hnum : out.num < 2 ^ 31) : calculateTree fs info out =
    if out.num - 1 ≤ rootLimit fs then
      let st :=
  (List.range' 1 (out.num - 1)).foldl (rootRound fs) (treeStart fs out (setRootNode fs info))
      some (closeRoot fs st.out st.c1)
    else if out.num - 1 ≤ rootLimit fs * intLimit fs then
      ((List.range' 1 (out.num - 1)).foldlM (intRound fs)
        (treeStart fs out (putLe (setRootNode fs info) 30 1 1))).bind fun st => match st.limit with
        | none => none
        | some p => some (closeRoot fs (closeNode fs st.out p p st.c2) st.c1)
    else
      ((List.range' 1 (out.num - 1)).foldlM (dxRound fs)
        (treeStart fs out (putLe (setRootNode fs info) 30 1 2))).bind fun st => match st.limit,
        st.intLimit with
        | some p, some q =>
          some (closeRoot fs (closeNode fs (closeNode fs st.out q p st.c2) p p st.c3) st.c1)
        | _, _ => none := by
  have hmin := hfs.min_le
  have hp : PointsTo fs (out.put 0 (setRootNode fs info)) ⟨out.gen, 32⟩ 0 32 :=
    ⟨rfl, (by rw [Nat.zero_mul] : 32 = 0 * fs.blocksize + 32), by omega⟩
  have hload : load fs (out.put 0 (setRootNode fs info)) ⟨out.gen, 32⟩ 0 2 = rootLimit fs := by
    rw [load_of_pointsTo hp, put_buf_self]
    exact (dxNode_setRootNode (f := fun _ => (0, 0)) hfs info).1.limit
  have h1 := (@rootStart fs info out 1 (fun _ => (0, 0)) hfs (by omega)).1
  have h2 := (@rootStart fs info out 2 (fun _ => (0, 0)) hfs (by omega)).1
  unfold treeStart
  rw [← h1, ← h2, ← hload, calculateTree, if_neg (by omega)]
  rfl

theorem calculateTree_one (hfs : fs.Ok) (hnum : 2 ≤ out.num) (hle : out.num - 1 ≤ rootLimit fs)
    (hhash : ∀ k < out.num, out.hashes k < 2 ^ 32) : TreeMade fs info out := by
  have hroot := rootLimit_spec hfs
  obtain ⟨hnode, hlevels⟩ := dxNode_setRootNode (f := oneSlots out.hashes) hfs info
  have hstart : OneLevel fs out 0 (treeStart fs out (setRootNode fs info)) := by
    refine ⟨⟨_, rfl⟩, ?_, ?_, rfl, rfl, rfl⟩
    · rw [treeStart, put_buf_self]
      exact hnode
    · rw [treeStart, put_buf_self]
      exact hlevels
  obtain ⟨hindex, hsame⟩ :=
    (hstart.run hfs hhash (out.num - 1) (by omega) hle).done hfs (by omega) hle
  refine ⟨_, ?_, hindex, fun k hk _ => hsame k hk⟩
  rw [calculateTree_eq hfs (by omega), if_pos hle]

theorem calculateTree_two (hfs : fs.Ok) (hgt : rootLimit fs < out.num - 1)
    (hle : out.num - 1 ≤ rootLimit fs * intLimit fs)
    (hhash : ∀ k < out.num, out.hashes k < 2 ^ 32) :
    TreeMade fs info out := by
  have hroot := rootLimit_spec hfs
  have hlt := intLimit_spec hfs
  have hsmall : rootLimit fs * intLimit fs ≤ 8192 * 8192 := Nat.mul_le_mul (by omega) (by omega)
  obtain ⟨-, hnode, hlevels⟩ :=
    @rootStart fs info out 1 (rootSlots fs out.hashes out.num) hfs (by omega)
  have hstart : TwoLevels fs out.hashes out.buf out.num 0 (intLimit fs)
      (treeStart fs out (putLe (setRootNode fs info) 30 1 1)) := by
    refine ⟨rfl, rfl, ⟨fun g hg => absurd hg (by omega), fun g hg => absurd hg (by omega),
      fun g hg => absurd hg (by omega), fun g hg => absurd hg (by omega), fun _ => rfl⟩,
        ?_, ?_, ?_, rfl,
      (Nat.sub_self _).symm, rfl⟩
    · rw [treeStart, put_buf_self]
      exact hnode
    · rw [treeStart, put_buf_self]
      exact hlevels
    · intro k hk _
      exact put_buf_of_ne (by omega) _ _
  obtain ⟨D, r, st, hrun, hst, hr0, hr, hD0, hsum⟩ :=
    hstart.run hfs (by omega) (by omega) hhash (out.num - 1)
    (by omega) hle
  have hD := nodes_le hsum hr0 hle
  obtain ⟨D, rfl⟩ : ∃ D', D = D' + 1 := by
    refine ⟨D - 1, ?_⟩
    rcases Nat.eq_zero_or_pos D with rfl | h
    · have := hD0 rfl
      omega
    · omega
  obtain ⟨p, hp, -⟩ := hst.low.limit D rfl
  obtain ⟨hindex, hsame⟩ := hst.done hfs (by omega) hr0 hr hD hp
  rw [Nat.succ_mul] at hsum
  rw [show D * intLimit fs + r = out.num - 1 by omega] at hindex
  refine ⟨_, ?_, hindex, hsame⟩
  rw [calculateTree_eq hfs (by omega), if_neg (by omega), if_pos hle, hrun]
  simp only [Option.bind_some, hp]

/-- The number of nodes is determined. -/
theorem nodes_unique {L G A r s : ℕ} (h : G * L + r = A * L + s) (hr0 : 0 < r)
    (hr : r ≤ L) (hs0 : 0 < s) (hs : s ≤ L) : G = A ∧ r = s := by
  rcases Nat.lt_trichotomy G A with hlt | rfl | hgt
  · have := Nat.mul_le_mul_right L (Nat.succ_le_of_lt hlt)
    rw [Nat.succ_mul] at this
    omega
  · exact ⟨rfl, by omega⟩
  · have := Nat.mul_le_mul_right L (Nat.succ_le_of_lt hgt)
    rw [Nat.succ_mul] at this
    omega

/-- Which nodes of the middle level some leaf blocks need. -/
theorem mid_lt_iff {L T G d r n : ℕ} (hnodes : G + L = T * L + d) (hsum : G * L + r = n + L)
    (hr0 : 0 < r) (hr : r ≤ L) (hd0 : 0 < d) (hd : d ≤ L) (t : ℕ) : t < T ↔ t * L * L < n := by
  constructor
  · intro ht
    have h1 := Nat.mul_le_mul_right L (Nat.succ_le_of_lt ht)
    rw [Nat.succ_mul] at h1
    have h2 := Nat.mul_le_mul_right L (show t * L + 1 ≤ G by omega)
    rw [Nat.succ_mul] at h2
    omega
  · intro ht
    by_contra hcon
    have h1 := Nat.mul_le_mul_right L (Nat.le_of_not_lt hcon)
    have h2 := Nat.mul_le_mul_right L (show G ≤ t * L by omega)
    omega

/-- The rounds of an index of three levels start. -/
theorem threeStart (hfs : fs.Ok) (info : RootInfo) (hmax : out.max = bufMax m out.num) :
    ThreeLevels fs out.hashes out.buf m out.num 0 (intLimit fs) (intLimit fs) 0
      (treeStart fs out (putLe (setRootNode fs info) 30 1 2)) := by
  obtain ⟨-, hnode, hlevels⟩ :=
    @rootStart fs info out 2 (topSlots fs out.hashes out.num) hfs (by omega)
  refine ⟨⟨rfl, fun t ht => absurd ht (by omega), ?_, ?_, ?_⟩, ?_, rfl, hmax,
    ⟨fun g hg => absurd hg (by omega), fun g hg => absurd hg (by omega),
      fun g hg => absurd hg (by omega), fun g hg => absurd hg (by omega), fun _ => rfl⟩,
    fun t ht => absurd ht (by omega), rfl, (Nat.sub_self _).symm, (Nat.sub_self _).symm, rfl,
    fun t ht => absurd ht (by omega), fun t ht => absurd ht (by omega), fun _ => rfl⟩
  · rw [treeStart, put_buf_self]
    exact hnode
  · rw [treeStart, put_buf_self]
    exact hlevels
  · intro k hk _
    exact put_buf_of_ne (by omega) _ _
  · rw [Nat.zero_mul]

/-- An offset that is not an `int`. -/
theorem calculateTree_three_none (hfs : fs.Ok) (hgt : rootLimit fs * intLimit fs < out.num - 1)
    (hle : out.num - 1 ≤ rootLimit fs * intLimit fs * intLimit fs)
    (hmax : out.max = bufMax m out.num) (hhash : ∀ k < out.num, out.hashes k < 2 ^ 32) {t : ℕ}
    (ht : t * intLimit fs * intLimit fs < out.num - 1)
    (hpos : 2 ^ 31 ≤ midAddr out.num (intLimit fs) t * fs.blocksize + 8) :
    calculateTree fs info out = none := by
  have hlt := intLimit_spec hfs
  have hroot := rootLimit_spec hfs
  rcases Nat.lt_or_ge out.num (2 ^ 31) with hnum | hnum
  swap
  · rw [calculateTree, if_pos hnum]
  -- the first node with such an offset
  classical
  have hex : ∃ t, t * intLimit fs * intLimit fs < out.num - 1 ∧
      2 ^ 31 ≤ midAddr out.num (intLimit fs) t * fs.blocksize + 8 := ⟨t, ht, hpos⟩
  obtain ⟨hlast, hbig⟩ := Nat.find_spec hex
  have hmin : ∀ t' < Nat.find hex,
      midAddr out.num (intLimit fs) t' * fs.blocksize + 8 < 2 ^ 31 := by
    intro t' ht'
    have := Nat.find_min hex ht'
    have hle' : t' * intLimit fs * intLimit fs ≤ Nat.find hex * intLimit fs * intLimit fs :=
      Nat.mul_le_mul_right _ (Nat.mul_le_mul_right _ ht'.le)
    by_contra hcon
    exact this ⟨by omega, by omega⟩
  generalize Nat.find hex = t0 at hlast hbig hmin
  obtain ⟨T, d, r, G, st, hrun, hst, hr0, hr, hd0, hd, -, hsum⟩ :=
    (threeStart hfs info hmax).run hfs (by omega) hnum hhash (t0 * intLimit fs * intLimit fs)
      (by omega) (by omega) fun t' ht' =>
      hmin t' (Nat.lt_of_mul_lt_mul_right (Nat.lt_of_mul_lt_mul_right ht'))
  obtain ⟨rfl, rfl⟩ := nodes_unique hsum hr0 hr (by omega) le_rfl
  have hnodes := hst.nodes
  obtain ⟨rfl, rfl⟩ := nodes_unique hnodes.symm hd0 hd (by omega) le_rfl
  have hT : T < rootLimit fs := Nat.lt_of_mul_lt_mul_right (Nat.lt_of_mul_lt_mul_right
    (show T * intLimit fs * intLimit fs < rootLimit fs * intLimit fs * intLimit fs by omega))
  obtain ⟨k, hk⟩ : ∃ k, out.num - 1 = T * intLimit fs * intLimit fs + (k + 1) :=
    ⟨out.num - 1 - T * intLimit fs * intLimit fs - 1, by omega⟩
  have hR : rootLimit fs ≤ rootLimit fs * intLimit fs := Nat.le_mul_of_pos_right _ hlt.1
  rw [calculateTree_eq hfs hnum, if_neg (by omega), if_neg (by omega), hk, ← List.range'_append_1,
    List.foldlM_append, hrun, List.range'_succ]
  simp only [List.foldlM_cons, Option.bind_eq_bind, Option.bind_some,
    hst.dxRound_none hfs (by omega) hT hbig, Option.bind_none]

/-- **An index of three levels.** -/
theorem calculateTree_three (hfs : fs.Ok) (hgt : rootLimit fs * intLimit fs < out.num - 1)
    (hle : out.num - 1 ≤ rootLimit fs * intLimit fs * intLimit fs)
    (hmax : out.max = bufMax m out.num) (hhash : ∀ k < out.num, out.hashes k < 2 ^ 32) :
    (TreeOk fs out.hashes m out.num → TreeMade fs info out) ∧ ∀ out' keys n,
      calculateTree fs info out = some out' → IndexOk fs out'.buf keys n →
      TreeOk fs out.hashes m out.num := by
  have hlt := intLimit_spec hfs
  have hroot := rootLimit_spec hfs
  have hmin := hfs.min_le
  have hok : TreeOk fs out.hashes m out.num ↔ _ := or_iff_right (by omega)
  rw [hok]
  by_cases hpos : ∀ t, t * intLimit fs * intLimit fs < out.num - 1 →
      midAddr out.num (intLimit fs) t * fs.blocksize + 8 < 2 ^ 31
  swap
  · -- an offset does not fit
    obtain ⟨t, hcon⟩ := not_forall.mp hpos
    obtain ⟨ht, hbig⟩ := Classical.not_imp.mp hcon
    refine ⟨fun h => absurd (h t ht).1 hbig, fun out' keys n hmade => ?_⟩
    rw [calculateTree_three_none hfs hgt hle hmax hhash ht (by omega)] at hmade
    exact absurd hmade (by simp)
  have hnum : out.num < 2 ^ 31 := by
    have h0 := hpos 0 (by omega)
    have :=
      Nat.le_mul_of_pos_right (midAddr out.num (intLimit fs) 0) (show 0 < fs.blocksize by omega)
    rw [midAddr] at this h0
    omega
  obtain ⟨T, d, r, G, st, hrun, hst, hr0, hr, hd0, hd, hT0, hsum⟩ :=
    (threeStart hfs info hmax).run hfs (by omega)
    hnum hhash (out.num - 1) (by omega) hle hpos
  have hnodes := hst.nodes
  have hmid := mid_lt_iff hnodes hsum hr0 hr hd0 hd
  have hT1 : 0 < T := (hmid 0).mpr (by omega)
  have hTR : T ≤ rootLimit fs := Nat.le_of_not_lt fun h => by
    have := (hmid _).mp h
    omega
  obtain ⟨g, rfl⟩ : ∃ g, G = g + 1 := by
    refine ⟨G - 1, ?_⟩
    rcases Nat.eq_zero_or_pos G with rfl | h
    · omega
    · omega
  rw [Nat.succ_mul] at hsum
  obtain ⟨p, q, hp, hq, hdone, hsame⟩ := hst.done hfs (by omega) hr hd hT1 hTR
  have htree : calculateTree fs info out =
      some (closeRoot fs (closeNode fs (closeNode fs st.out q p st.c2) p p st.c3) st.c1) := by
    have hR : rootLimit fs ≤ rootLimit fs * intLimit fs := Nat.le_mul_of_pos_right _ hlt.1
    rw [calculateTree_eq hfs hnum, if_neg (by omega), if_neg (by omega), hrun]
    simp only [Option.bind_some, hp, hq]
  have hmidOk : MidOk fs out.hashes m out.num T ↔ ∀ t, t * intLimit fs * intLimit fs < out.num - 1 →
      midAddr out.num (intLimit fs) t * fs.blocksize + 8 < 2 ^ 31 ∧
      (0 < t → ¬Moved m out.num (intLimit fs) t) ∧
      (0 < t → (t + 1) * intLimit fs * intLimit fs < out.num - 1 →
        out.hashes (1 + t * intLimit fs * intLimit fs) % 65536 = intLimit fs) := by
    refine ⟨fun h t ht => ⟨hpos t ht, fun h0 => h.2 t h0 ((hmid t).mpr ht), fun h0 ht' =>
      h.1 t h0 ((hmid (t + 1)).mpr ht')⟩, fun h => ⟨fun t h0 ht => ?_, fun t h0 ht => ?_⟩⟩
    · exact (h t ((hmid t).mp (by omega))).2.2 h0 ((hmid (t + 1)).mp ht)
    · exact (h t ((hmid t).mp ht)).2.1 h0
  rw [← hmidOk]
  refine ⟨fun h => ?_, fun out' keys n hmade hindex => ?_⟩
  swap
  · obtain rfl := Option.some.inj (htree.symm.trans hmade)
    exact hdone.midOk hfs hnodes hd0 hindex
  · have hindex := hdone.indexOk hfs hnodes hr0 hr hd0 hd hT1 hTR h
    rw [show g * intLimit fs + r = out.num - 1 by omega] at hindex
    exact ⟨_, htree, hindex, hsame⟩

/-- **`calculate_tree` makes a valid index** under exactly this condition. -/
theorem calculateTree_indexOk (hfs : fs.Ok) (hnum : 2 ≤ out.num)
    (hle : out.num - 1 ≤ rootLimit fs * intLimit fs * intLimit fs)
    (hmax : out.max = bufMax m out.num) (hhash : ∀ k < out.num, out.hashes k < 2 ^ 32) :
    (TreeOk fs out.hashes m out.num → TreeMade fs info out) ∧ ∀ out' keys n,
      calculateTree fs info out = some out' → IndexOk fs out'.buf keys n →
      TreeOk fs out.hashes m out.num := by
  rcases Nat.lt_or_ge (rootLimit fs * intLimit fs) (out.num - 1) with hthree | htwo
  · exact calculateTree_three hfs hthree hle hmax hhash
  · refine ⟨fun _ => ?_, fun _ _ _ _ _ => Or.inl htwo⟩
    rcases Nat.lt_or_ge (rootLimit fs) (out.num - 1) with hgt | hone
    · exact calculateTree_two hfs hgt htwo hhash
    · exact calculateTree_one hfs hnum hone hhash

end Levels

end E2fsprogs
