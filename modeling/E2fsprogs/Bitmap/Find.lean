import E2fsprogs.Bitmap.Reports

/-!
# The first clear bit and the first set bit

`find_first_zero` and `find_first_set` of both back ends, and the generic functions over them. The
array of bits is scanned in four phases: bits up to a byte border, bytes up to an aligned address,
words, and the bytes and bits that are left. Each phase passes over what is not wanted, so the four
together return the first bit of the range that is (`E2fsprogs.firstIn`). The tree of extents is
searched for the first bit of the range, and the answer is read off the runs around it; the empty
tree is answered with `ENOENT`, which is wrong when a clear bit is wanted.
-/

namespace E2fsprogs

/-- `ENOENT` and `EINVAL`. -/
inductive FindErr
  | enoent
  | einval
  deriving DecidableEq

/-! ### The array of bits -/

/-- The scan for a byte boundary: the bit that was found, or where the next phase begins and how
many bits are left. -/
def baFindLead (want : Bool) (b : Block) : ℕ → ℕ → ℕ ⊕ ℕ × ℕ
  | 0, bitpos => .inr (bitpos, 0)
  | count + 1, bitpos =>
    if bitpos % 8 = 0 then .inr (bitpos, count + 1)
    else if bitAt b bitpos = want then .inl bitpos
    else baFindLead want b count (bitpos + 1)

/-- The scan of bytes for an aligned address, for an array at `base`: whether a byte was found
(`byte_found`), where, and how many bits are left. -/
def baFindAlign (base : ℕ) (skip : UInt8) (b : Block) (bitpos count : ℕ) : Bool × ℕ × ℕ :=
  if 8 ≤ count ∧ (base + bitpos / 8) % 8 ≠ 0 then
    if b (bitpos / 8) ≠ skip then (true, bitpos, count)
    else baFindAlign base skip b (bitpos + 8) (count - 8)
  else (false, bitpos, count)
termination_by count

/-- The scan of words of `width` bytes: how many are left. -/
def baSkip (width : ℕ) (skip : UInt8) (b : Block) : ℕ → ℕ → ℕ
  | 0, _ => 0
  | i + 1, pos => if (List.range width).all (fun k => b (pos + k) = skip) then
    baSkip width skip b i (pos + width) else i + 1

/-- The scan of 64-bit words, and then of the bytes that are left. -/
def baFindWords (skip : UInt8) (b : Block) (bitpos count : ℕ) : ℕ × ℕ :=
  let maxLoopCount := count / 64
  let i := baSkip 8 skip b maxLoopCount (bitpos / 8)
  let count := count - 64 * (maxLoopCount - i)
  let bitpos := bitpos + 64 * (maxLoopCount - i)
  let maxLoopCount := count / 8
  let i := baSkip 1 skip b maxLoopCount (bitpos / 8)
  (bitpos + 8 * (maxLoopCount - i), count - 8 * (maxLoopCount - i))

/-- The scan of the bits that are left. -/
def baFindTail (want : Bool) (b : Block) : ℕ → ℕ → Except FindErr ℕ
  | 0, _ => .error .enoent
  | count + 1, bitpos => if bitAt b bitpos = want then .ok bitpos
    else baFindTail want b count (bitpos + 1)

/-- The four phases. -/
def baFindBit (want : Bool) (base : ℕ) (b : Block) (bitpos count : ℕ) : Except FindErr ℕ :=
  match baFindLead want b count bitpos with
  | .inl bitpos => .ok bitpos
  | .inr (bitpos, count) =>
    if count = 0 then .error .enoent
    else
      let skip := if want then 0 else 255
      let r := baFindAlign base skip b bitpos count
      let w := if r.1 then r.2 else baFindWords skip b r.2.1 r.2.2
      baFindTail want b w.2 w.1

/-- `ba_find_first_zero`, for a bitmap from `bmapStart` on. -/
def baFindFirstZero (bmapStart base : ℕ) (b : Block) (start stop : ℕ) : Except FindErr ℕ :=
  (baFindBit false base b (start - bmapStart) (stop - start + 1)).map fun bitpos =>
    bitpos + bmapStart

/-- `ba_find_first_set`. -/
def baFindFirstSet (bmapStart base : ℕ) (b : Block) (start stop : ℕ) : Except FindErr ℕ :=
  (baFindBit true base b (start - bmapStart) (stop - start + 1)).map fun bitpos =>
    bitpos + bmapStart

/-! ### The tree of extents -/

/-- `rb_find_first_zero`. -/
def rbFindFirstZero (bmapStart : ℕ) (bp : RbPrivate) (start stop : ℕ) : Except FindErr ℕ :=
  let start := start - bmapStart
  let stop := stop - bmapStart
  if stop < start then .error .einval
  else if bp.nodes = [] then .error .enoent
  else match (bp.tree.find (cmpWithin start) none).1 with
    | some ext => if ext.stop ≤ stop then .ok (ext.stop + bmapStart) else .error .enoent
    | none => .ok (start + bmapStart)

/-- The run at the end of a search, if it is not before the bit, and else the next one. -/
def rbFindNode (bp : RbPrivate) (start : ℕ) (ext : RbExtent) : Option RbExtent :=
  if ext.start < start then (bp.behind ext.id).head? else some ext

/-- `rb_find_first_set`. -/
def rbFindFirstSet (bmapStart : ℕ) (bp : RbPrivate) (start stop : ℕ) : Except FindErr ℕ :=
  let start := start - bmapStart
  let stop := stop - bmapStart
  if stop < start then .error .einval
  else if bp.nodes = [] then .error .enoent
  else match bp.tree.find (cmpWithin start) none with
    | (some _, _) => .ok (start + bmapStart)
    | (none, parent) =>
      match parent.bind (rbFindNode bp start) with
      | none => .error .enoent
      | some ext => if ext.start ≤ stop then .ok (ext.start + bmapStart) else .error .enoent

/-! ### The generic functions -/

/-- `ext2fs_find_first_zero_generic_bmap` and `ext2fs_find_first_set_generic_bmap`, over the
function of a back end. Clusters are counted by the back end, blocks by the caller. -/
def findFirstGeneric (clusterBits bmapStart bmapEnd : ℕ) (find : ℕ → ℕ → Except FindErr ℕ)
    (start stop : ℕ) :
    Except FindErr ℕ :=
  let cstart := start >>> clusterBits
  let cend := stop >>> clusterBits
  if cstart < bmapStart ∨ bmapEnd < cend ∨ stop < start then .error .einval
  else (find cstart cend).map fun cout => if start ≤ cout <<< clusterBits then cout <<< clusterBits
    else start

/-! ### What is to be found -/

/-- The least number of a range that has a property, or `ENOENT` if there is none. -/
def FindsBit (P : ℕ → Prop) (lo hi : ℕ) : Except FindErr ℕ → Prop
  | .ok n => IsLeast {k | lo ≤ k ∧ k ≤ hi ∧ P k} n
  | .error e => e = .enoent ∧ ∀ k, lo ≤ k → k ≤ hi → ¬P k

/-- The same for blocks: the first one of the least cluster, but not before the range. -/
def FindsBlock (P : ℕ → Prop) (clusterBits start stop : ℕ) : Except FindErr ℕ → Prop
  | .ok n => ∃ k, IsLeast {k | start >>> clusterBits ≤ k ∧ k ≤ stop >>> clusterBits ∧ P k} k ∧
      n = max start (k <<< clusterBits)
  | .error e => e = .enoent ∧ ∀ k, start >>> clusterBits ≤ k → k ≤ stop >>> clusterBits → ¬P k

/-- The functions of a back end, and the generic ones over them, are exact on a range of blocks, for
a back end that answers tests so. -/
structure FindExact (clusterBits bmapStart bmapEnd start stop : ℕ) (test : ℕ → Bool)
    (findFirstZero findFirstSet : ℕ → ℕ → Except FindErr ℕ) : Prop where
  zero : FindsBit (fun k => test k = false) (start >>> clusterBits) (stop >>> clusterBits)
    (findFirstZero (start >>> clusterBits) (stop >>> clusterBits))
  set : FindsBit (fun k => test k = true) (start >>> clusterBits) (stop >>> clusterBits)
    (findFirstSet (start >>> clusterBits) (stop >>> clusterBits))
  genericZero : FindsBlock (fun k => test k = false) clusterBits start stop
    (findFirstGeneric clusterBits bmapStart bmapEnd findFirstZero start stop)
  genericSet : FindsBlock (fun k => test k = true) clusterBits start stop
    (findFirstGeneric clusterBits bmapStart bmapEnd findFirstSet start stop)

section Find

variable {P Q : ℕ → Prop} {lo hi start stop bitpos count base bmapStart bmapEnd clusterBits : ℕ}
    {want : Bool}
  {skip : UInt8} {b : Block} {bp : RbPrivate} {r r' : Except FindErr ℕ}

/-- There is one answer. -/
theorem FindsBit.unique (h : FindsBit P lo hi r) (h' : FindsBit P lo hi r') : r = r' := by
  cases r with
  | ok n =>
    cases r' with
    | ok n' => rw [h.unique h']
    | error e' => exact absurd h.1.2.2 (h'.2 n h.1.1 h.1.2.1)
  | error e =>
    cases r' with
    | ok n' => exact absurd h'.1.2.2 (h.2 n' h'.1.1 h'.1.2.1)
    | error e' => rw [h.1, h'.1]

theorem FindsBit.congr (hPQ : ∀ k, lo ≤ k → k ≤ hi → (P k ↔ Q k)) (h : FindsBit P lo hi r) :
    FindsBit Q lo hi r := by
  cases r with
  | ok n =>
    obtain ⟨⟨hlo, hhi, hn⟩, hleast⟩ := h
    exact ⟨⟨hlo, hhi, (hPQ n hlo hhi).mp hn⟩,
      fun m hm => hleast ⟨hm.1, hm.2.1, (hPQ m hm.1 hm.2.1).mpr hm.2.2⟩⟩
  | error e => exact ⟨h.1, fun k hlo hhi hk => h.2 k hlo hhi ((hPQ k hlo hhi).mpr hk)⟩

/-- **The generic function** is right over a back end that is. -/
theorem findsBlock_iff {find : ℕ → ℕ → Except FindErr ℕ} (hle : start ≤ stop)
    (hstart : bmapStart ≤ start >>> clusterBits) (hstop : stop >>> clusterBits ≤ bmapEnd)
    (h : FindsBit P (start >>> clusterBits) (stop >>> clusterBits)
      (find (start >>> clusterBits) (stop >>> clusterBits))) :
    FindsBlock P clusterBits start stop
      (findFirstGeneric clusterBits bmapStart bmapEnd find start stop) := by
  rw [findFirstGeneric]
  rw [if_neg (by omega)]
  cases hfind : find (start >>> clusterBits) (stop >>> clusterBits) with
  | error e =>
    rw [hfind] at h
    exact h
  | ok k =>
    rw [hfind] at h
    refine ⟨k, h, ?_⟩
    show (if start ≤ k <<< clusterBits then k <<< clusterBits else start) = _
    rw [max_def]

/-! ### The phases of the scan -/

/-- The bits of a byte that is passed over are not wanted. -/
theorem bitAt_of_skip {m : ℕ} (h : b (m / 8) = if want then 0 else 255) : bitAt b m = !want := by
  rw [bitAt, h]
  cases want with
  | true => exact Nat.zero_testBit _
  | false => exact testBit_255 (Nat.mod_lt m (by norm_num))

/-- A bit is wanted. -/
def wanted (want : Bool) (b : Block) (m : ℕ) : Bool := decide (bitAt b m = want)

theorem wanted_of_skip {m : ℕ} (h : b (m / 8) = if want then 0 else 255) :
    wanted want b m = false := by
  rw [wanted, bitAt_of_skip h]
  cases want <;> rfl

theorem baFindLead_spec :
    match baFindLead want b count bitpos with
    | .inl n => firstIn (wanted want b) bitpos count = some n
    | .inr p => firstIn (wanted want b) bitpos count = firstIn (wanted want b) p.1 p.2 ∧
        (p.2 = 0 ∨ p.1 % 8 = 0) := by
  induction count generalizing bitpos with
  | zero => exact ⟨rfl, Or.inl rfl⟩
  | succ count ih =>
    rw [baFindLead]
    split_ifs with hbyte hwant
    · exact ⟨rfl, Or.inr hbyte⟩
    · show firstIn _ _ _ = _
      rw [firstIn_succ, if_pos (by rw [wanted, hwant, decide_eq_true rfl])]
    · rw [firstIn_succ, if_neg (by rw [wanted, decide_eq_false hwant]; exact Bool.noConfusion)]
      exact ih

theorem baFindAlign_spec (hskip : skip = if want then 0 else 255) (hbyte : bitpos % 8 = 0) :
    firstIn (wanted want b) bitpos count =
        firstIn (wanted want b) (baFindAlign base skip b bitpos count).2.1
          (baFindAlign base skip b bitpos count).2.2 ∧
      (baFindAlign base skip b bitpos count).2.1 % 8 = 0 := by
  induction count using Nat.strong_induction_on generalizing bitpos with
  | _ count ih =>
    rw [baFindAlign]
    split_ifs with hmore hfound
    · exact ⟨rfl, hbyte⟩
    · rw [not_not] at hfound
      rw [firstIn_skip hmore.1 fun m hlo hhi => ?_]
      · exact ih (count - 8) (by omega) (by omega)
      · refine wanted_of_skip ?_
        rw [show m / 8 = bitpos / 8 by omega, hfound, hskip]
    · exact ⟨rfl, hbyte⟩

theorem baSkip_spec (width : ℕ) (i pos : ℕ) :
    baSkip width skip b i pos ≤ i ∧ ∀ k, k < width * (i - baSkip width skip b i pos) →
    b (pos + k) = skip := by
  induction i generalizing pos with
  | zero => exact ⟨le_rfl, fun k hk => by simp at hk⟩
  | succ i ih =>
    rw [baSkip]
    split_ifs with hall
    · obtain ⟨hle, hbytes⟩ := ih (pos + width)
      refine ⟨by omega, fun k hk => ?_⟩
      rcases Nat.lt_or_ge k width with hin | hout
      · exact of_decide_eq_true (List.all_eq_true.mp hall k (List.mem_range.mpr hin))
      · have hk' := hbytes (k - width) (by rw [Nat.succ_sub hle, Nat.mul_succ] at hk; omega)
        rwa [show pos + width + (k - width) = pos + k by omega] at hk'
    · exact ⟨le_rfl, fun k hk => by simp at hk⟩

/-- Passing over words, in bits. -/
theorem firstIn_baSkip {width i : ℕ} (hskip : skip = if want then 0 else 255)
    (hbyte : bitpos % 8 = 0) (hi : 8 * width * i ≤ count) :
    firstIn (wanted want b) bitpos count =
      firstIn (wanted want b) (bitpos + 8 * width * (i - baSkip width skip b i (bitpos / 8)))
        (count - 8 * width * (i - baSkip width skip b i (bitpos / 8))) := by
  obtain ⟨hle, hbytes⟩ := @baSkip_spec skip b width i (bitpos / 8)
  refine firstIn_skip ((Nat.mul_le_mul_left _ (Nat.sub_le _ _)).trans hi) fun m hlo hhi =>
    wanted_of_skip ?_
  have hm := hbytes (m / 8 - bitpos / 8) (by rw [Nat.mul_assoc] at hhi; omega)
  rw [show bitpos / 8 + (m / 8 - bitpos / 8) = m / 8 by omega] at hm
  rw [hm, hskip]

theorem baFindWords_spec (hskip : skip = if want then 0 else 255) (hbyte : bitpos % 8 = 0) :
    firstIn (wanted want b) bitpos count =
      firstIn (wanted want b) (baFindWords skip b bitpos count).1
        (baFindWords skip b bitpos count).2 := by
  rw [baFindWords]
  dsimp only
  rw [@firstIn_baSkip bitpos count want skip b 8 (count / 64) hskip hbyte (by omega)]
  exact @firstIn_baSkip _ _ want skip b 1 _ hskip (by omega) (by omega)

theorem baFindTail_spec : baFindTail want b count bitpos =
    (firstIn (wanted want b) bitpos count).elim (.error .enoent) .ok := by
  induction count generalizing bitpos with
  | zero => rfl
  | succ count ih =>
    rw [baFindTail, firstIn_succ, wanted]
    split_ifs with hwant hw hw
    · rfl
    · exact absurd (decide_eq_true hwant) hw
    · exact absurd (of_decide_eq_true hw) hwant
    · exact ih

/-- **The four phases** find the first bit of the range that is wanted. -/
theorem baFindBit_spec : baFindBit want base b bitpos count =
    (firstIn (wanted want b) bitpos count).elim (.error .enoent) .ok := by
  have hlead := @baFindLead_spec bitpos count want b
  rw [baFindBit]
  cases h : baFindLead want b count bitpos with
  | inl n =>
    rw [h] at hlead
    dsimp only at hlead ⊢
    rw [hlead]
    rfl
  | inr p =>
    obtain ⟨bitpos', count'⟩ := p
    rw [h] at hlead
    obtain ⟨hfirst, hbyte⟩ := hlead
    dsimp only at hfirst hbyte ⊢
    rw [hfirst]
    by_cases hzero : count' = 0
    · rw [if_pos hzero, hzero]
      rfl
    obtain ⟨skip, hskip⟩ : ∃ skip : UInt8, skip = if want then 0 else 255 := ⟨_, rfl⟩
    obtain ⟨halign, hbyte'⟩ :=
      @baFindAlign_spec bitpos' count' base want skip b hskip (hbyte.resolve_left hzero)
    rw [if_neg hzero, ← hskip, halign]
    split_ifs with hfound
    · exact baFindTail_spec
    · rw [baFindTail_spec, ← baFindWords_spec hskip hbyte']

/-- What a scan finds, as the caller counts bits. -/
theorem finds_of_firstIn {p : ℕ → Bool} (hstart : bmapStart ≤ start) (hle : start ≤ stop)
    (hp : ∀ m, p m = true ↔ P (m + bmapStart))
    (hr : r = ((firstIn p (start - bmapStart) (stop - start + 1)).elim
      (.error .enoent) .ok : Except FindErr ℕ).map fun bitpos => bitpos + bmapStart) :
      FindsBit P start stop r := by
  cases hfirst : firstIn p (start - bmapStart) (stop - start + 1) with
  | none =>
    rw [hr, hfirst]
    refine ⟨rfl, fun k hlo hhi hk => ?_⟩
    have hnot := firstIn_eq_none.mp hfirst (k - bmapStart) (by omega) (by omega)
    have hset := (hp (k - bmapStart)).mpr (by rwa [Nat.sub_add_cancel (hstart.trans hlo)])
    rw [hset] at hnot
    cases hnot
  | some n =>
    rw [hr, hfirst]
    obtain ⟨⟨hlo, hhi, hn⟩, hleast⟩ := firstIn_eq_some hfirst
    show IsLeast _ (n + bmapStart)
    refine ⟨⟨by omega, by omega, (hp n).mp hn⟩, fun k ⟨hlo', hhi', hk⟩ => ?_⟩
    have := hleast ⟨(by omega : start - bmapStart ≤ k - bmapStart), by omega,
      (hp (k - bmapStart)).mpr (by rwa [Nat.sub_add_cancel (hstart.trans hlo')])⟩
    omega

/-- **`ba_find_first_zero`** is exact. -/
theorem baFindFirstZero_spec (hstart : bmapStart ≤ start) (hle : start ≤ stop) :
    FindsBit (fun k => bitAt b (k - bmapStart) = false) start stop
      (baFindFirstZero bmapStart base b start stop) := by
  refine @finds_of_firstIn _ _ _ _ _ (wanted false b) hstart hle (fun m => ?_) ?_
  · rw [Nat.add_sub_cancel, wanted, decide_eq_true_iff]
  · rw [baFindFirstZero, baFindBit_spec]

/-- **`ba_find_first_set`** is exact. -/
theorem baFindFirstSet_spec (hstart : bmapStart ≤ start) (hle : start ≤ stop) :
    FindsBit (fun k => bitAt b (k - bmapStart) = true) start stop
      (baFindFirstSet bmapStart base b start stop) := by
  refine @finds_of_firstIn _ _ _ _ _ (wanted true b) hstart hle (fun m => ?_) ?_
  · rw [Nat.add_sub_cancel, wanted, decide_eq_true_iff]
  · rw [baFindFirstSet, baFindBit_spec]

/-! ### The tree -/

/-- The bit at the end of a run is not set. -/
theorem Apart.not_marked_stop {l : List RbExtent} {x : RbExtent} (h : Apart l) (hx : x ∈ l) :
    ¬Marked l x.stop := by
  obtain ⟨a, b, rfl⟩ := exists_middle hx
  obtain ⟨-, -, hpos, hax, hxb, -⟩ := Apart.middle_iff.mp h
  have hx' := RbExtent.start_lt_stop hpos
  rw [marked_middle, not_or, not_or]
  refine ⟨not_marked_of_gt fun y hy => ?_, fun hin => absurd hin.2 (lt_irrefl _),
    not_marked_of_lt hxb⟩
  have := hax y hy
  omega

/-- **`rb_find_first_zero`** is exact on a tree that is not empty. -/
theorem rbFindFirstZero_spec (h : bp.Ok) (hstart : bmapStart ≤ start) (hle : start ≤ stop)
    (hne : bp.nodes ≠ []) :
    FindsBit (fun k => ¬Marked bp.nodes (k - bmapStart)) start stop
      (rbFindFirstZero bmapStart bp start stop) := by
  rw [rbFindFirstZero]
  rw [if_neg (by omega), if_neg hne]
  rcases find_within h.apart none with ⟨ext, hext, hfind, hin⟩ | ⟨hfind, hnot⟩
  · -- the first bit is in a run, which may end in the range
    rw [hfind]
    dsimp only
    have hinside : ∀ k, start ≤ k → k - bmapStart < ext.stop → Marked bp.nodes (k - bmapStart) :=
      fun k hlo hk => ⟨ext, hext, by omega, hk⟩
    split_ifs with hstop
    · refine ⟨⟨by omega, by omega, ?_⟩, fun k ⟨hlo, _, hk⟩ => ?_⟩
      · dsimp only
        rw [Nat.add_sub_cancel]
        exact h.apart.not_marked_stop hext
      · by_contra hlt
        exact hk (hinside k hlo (by omega))
    · exact ⟨rfl, fun k hlo hhi hk => hk (hinside k hlo (by omega))⟩
  · rw [hfind]
    refine ⟨⟨by omega, by omega, ?_⟩, fun k hk => by have := hk.1; omega⟩
    dsimp only
    rwa [Nat.sub_add_cancel hstart]

/-- On the empty tree `rb_find_first_zero` is never right. -/
theorem not_finds_of_empty (hle : start ≤ stop) (hstart : bmapStart ≤ start)
    (hempty : bp.nodes = []) :
    ¬FindsBit (fun k => ¬Marked bp.nodes (k - bmapStart)) start stop
      (rbFindFirstZero bmapStart bp start stop) := by
  rw [rbFindFirstZero, if_neg (by omega), if_pos hempty]
  intro hfinds
  refine hfinds.2 start le_rfl hle ?_
  rw [hempty]
  exact marked_nil

/-- The node that `rb_find_first_set` looks at is the first run behind the bit. -/
theorem rbFindNode_spec {q : RbExtent} {a c : List RbExtent} (h : bp.Ok)
    (hnodes : bp.nodes = a ++ q :: c)
    (hq : cmpWithin bitpos q ≠ .eq) (ha : ∀ x ∈ a, cmpWithin bitpos x = .gt)
    (hc : ∀ x ∈ c, cmpWithin bitpos x = .lt) :
    ∃ before rest, bp.nodes = before ++ rest ∧ (∀ x ∈ before, x.stop ≤ bitpos) ∧
    (∀ x ∈ rest, bitpos < x.start) ∧
      rbFindNode bp bitpos q = rest.head? := by
  have hapart := h.apart
  have hbefore : ∀ x ∈ a, x.stop ≤ bitpos := fun x hx =>
    (cmpWithin_gt (hapart.pos x (hnodes ▸ List.mem_append_left _ hx))).mp (ha x hx)
  have hbehind : ∀ x ∈ c, bitpos < x.start := fun x hx => cmpWithin_lt.mp (hc x hx)
  rw [ne_eq, cmpWithin_eq] at hq
  rw [rbFindNode, h.addresses.behind_eq hnodes]
  split_ifs with hlt
  · -- the search ended to the left of the bit
    refine ⟨a ++ [q], c, by rw [hnodes, List.append_assoc, List.singleton_append],
      fun x hx => ?_, hbehind, rfl⟩
    rcases List.mem_append.mp hx with hx | hx
    · exact hbefore x hx
    · rw [List.mem_singleton.mp hx]
      omega
  · have hpos :=
      RbExtent.start_lt_stop (hapart.pos q
        (hnodes ▸ List.mem_append_right _ (List.mem_cons_self ..)))
    refine ⟨a, q :: c, hnodes, hbefore, fun x hx => ?_, rfl⟩
    rcases List.mem_cons.mp hx with rfl | hx
    · omega
    · exact hbehind x hx

/-- **`rb_find_first_set`** is exact. -/
theorem rbFindFirstSet_spec (h : bp.Ok) (hstart : bmapStart ≤ start) (hle : start ≤ stop) :
    FindsBit (fun k => Marked bp.nodes (k - bmapStart)) start stop
      (rbFindFirstSet bmapStart bp start stop) := by
  rw [rbFindFirstSet]
  rw [if_neg (by omega)]
  split_ifs with hempty
  · rw [hempty]
    exact ⟨rfl, fun _ _ _ => marked_nil⟩
  rcases hfind : bp.tree.find (cmpWithin (start - bmapStart)) none with ⟨found, parent⟩
  cases found with
  | some x =>
    have hsome : (bp.tree.find (cmpWithin (start - bmapStart)) none).1 = some x := by rw [hfind]
    obtain ⟨hx, hc⟩ := SearchTree.find_found hsome
    refine ⟨⟨by omega, by omega, ?_⟩, fun k hk => by have := hk.1; omega⟩
    rw [Nat.sub_add_cancel hstart]
    exact ⟨x, hx, cmpWithin_eq.mp hc⟩
  | none =>
    have hnone : (bp.tree.find (cmpWithin (start - bmapStart)) none).1 = none := by rw [hfind]
    have hpar : (bp.tree.find (cmpWithin (start - bmapStart)) none).2 = parent := by rw [hfind]
    rcases SearchTree.find_gap (h.apart.sorted_within _) hnone with ⟨hnil, -⟩ |
      ⟨q, a, c, hq, hin, hne, ha, hc⟩
    · exact absurd hnil hempty
    obtain ⟨before, rest, hnodes, hbefore, hrest, hnode⟩ := rbFindNode_spec h hin hne ha hc
    -- the bits from the start of the range on are those of the runs behind it
    have hmarked : ∀ k, start ≤ k →
        (Marked bp.nodes (k - bmapStart) ↔ Marked rest (k - bmapStart)) := by
      intro k hk
      rw [hnodes, marked_append, or_iff_right]
      exact not_marked_of_gt fun x hx => by have := hbefore x hx; omega
    dsimp only
    rw [← hpar, hq, Option.bind_some, hnode]
    cases rest with
    | nil => exact ⟨rfl, fun k hlo _ hk => absurd ((hmarked k hlo).mp hk) marked_nil⟩
    | cons ext rest =>
      have hext := hrest ext (List.mem_cons_self ..)
      have hsplit := h.apart
      rw [hnodes, Apart.append_iff, Apart.cons_iff] at hsplit
      obtain ⟨-, ⟨hpos, hbehind, -⟩, -⟩ := hsplit
      have hstop := RbExtent.start_lt_stop hpos
      have hfirst : ∀ k, start ≤ k → Marked bp.nodes (k - bmapStart) →
          ext.start ≤ k - bmapStart := by
        intro k hk hm
        rcases marked_cons.mp ((hmarked k hk).mp hm) with hin | ⟨x, hx, hin⟩
        · exact hin.1
        · have := hbehind x hx
          omega
      show FindsBit _ _ _ (if ext.start ≤ stop - bmapStart then .ok (ext.start + bmapStart)
        else .error .enoent)
      split_ifs with hlast
      · refine ⟨⟨by omega, by omega, ?_⟩, fun k ⟨hlo, _, hk⟩ => ?_⟩
        · refine (hmarked _ (by omega)).mpr (marked_cons.mpr (Or.inl ?_))
          rw [Nat.add_sub_cancel]
          exact ⟨le_rfl, hstop⟩
        · have := hfirst k hlo hk
          omega
      · refine ⟨rfl, fun k hlo hhi hk => ?_⟩
        have := hfirst k hlo hk
        omega

/-! ### Both back ends -/

/-- A test, as the caller counts bits. -/
def rbTest (bmapStart : ℕ) (bp : RbPrivate) (k : ℕ) : Bool := (rbTestBit (k - bmapStart) bp).1

theorem rbTest_eq_false (h : bp.Ok) {k : ℕ} :
    rbTest bmapStart bp k = false ↔ ¬Marked bp.nodes (k - bmapStart) := by
  rw [← Bool.not_eq_true, rbTest, (rbTestBit_spec h).answer]

theorem FindExact.of_backend {test : ℕ → Bool}
    {findFirstZero findFirstSet : ℕ → ℕ → Except FindErr ℕ}
    (hle : start ≤ stop) (hstart : bmapStart ≤ start >>> clusterBits)
    (hstop : stop >>> clusterBits ≤ bmapEnd)
    (hzero : FindsBit (fun k => test k = false) (start >>> clusterBits) (stop >>> clusterBits)
      (findFirstZero (start >>> clusterBits) (stop >>> clusterBits)))
    (hset : FindsBit (fun k => test k = true) (start >>> clusterBits) (stop >>> clusterBits)
      (findFirstSet (start >>> clusterBits) (stop >>> clusterBits))) :
    FindExact clusterBits bmapStart bmapEnd start stop test findFirstZero findFirstSet :=
  ⟨hzero, hset, findsBlock_iff hle hstart hstop hzero, findsBlock_iff hle hstart hstop hset⟩

/-- **Finding is exact in both back ends, and alike on equal bits, exactly if the tree is not
empty.** -/
theorem findExact_iff {bal : SearchTree RbExtent → List RbExtent → SearchTree RbExtent}
    (hbal : ∀ t l, (bal t l).inorder = l) (h : RbReachable bal bp) (base : ℕ) (b : Block)
    (hle : start ≤ stop)
    (hstart : bmapStart ≤ start >>> clusterBits) (hstop : stop >>> clusterBits ≤ bmapEnd) :
    (FindExact clusterBits bmapStart bmapEnd start stop (rbTest bmapStart bp)
      (rbFindFirstZero bmapStart bp)
        (rbFindFirstSet bmapStart bp) ∧
      FindExact clusterBits bmapStart bmapEnd start stop (fun k => bitAt b (k - bmapStart))
        (baFindFirstZero bmapStart base b) (baFindFirstSet bmapStart base b) ∧
      ((∀ k, bmapStart ≤ k → k ≤ bmapEnd → rbTest bmapStart bp k = bitAt b (k - bmapStart)) →
        rbFindFirstZero bmapStart bp (start >>> clusterBits) (stop >>> clusterBits) =
            baFindFirstZero bmapStart base b (start >>> clusterBits) (stop >>> clusterBits) ∧
          rbFindFirstSet bmapStart bp (start >>> clusterBits) (stop >>> clusterBits) =
            baFindFirstSet bmapStart base b (start >>> clusterBits) (stop >>> clusterBits))) ↔
      bp.nodes ≠ [] := by
  have hok := h.ok hbal
  have hcle : start >>> clusterBits ≤ stop >>> clusterBits := by
    rw [Nat.shiftRight_eq_div_pow, Nat.shiftRight_eq_div_pow]
    exact Nat.div_le_div_right hle
  constructor
  · rintro ⟨hrb, -, -⟩ hempty
    exact not_finds_of_empty hcle hstart hempty (hrb.zero.congr fun k _ _ => rbTest_eq_false hok)
  · intro hne
    have hrbZero := (rbFindFirstZero_spec hok hstart hcle hne).congr fun k _ _ =>
      (@rbTest_eq_false bmapStart bp hok k).symm
    have hrbSet := (rbFindFirstSet_spec hok hstart hcle).congr fun k _ _ =>
      (@rbTestBit_spec bp (k - bmapStart) hok).answer.symm
    have hbaZero := @baFindFirstZero_spec _ _ base _ b hstart hcle
    have hbaSet := @baFindFirstSet_spec _ _ base _ b hstart hcle
    refine ⟨.of_backend hle hstart hstop hrbZero hrbSet,
      .of_backend hle hstart hstop hbaZero hbaSet, fun hsame => ⟨?_, ?_⟩⟩
    · exact hrbZero.unique (hbaZero.congr
        fun k hlo hhi => by rw [hsame k (hstart.trans hlo) (hhi.trans hstop)])
    · refine hrbSet.unique (hbaSet.congr fun k hlo hhi => ?_)
      rw [← hsame k (hstart.trans hlo) (hhi.trans hstop)]
      rfl

/-- A new bitmap, in which every bit is clear. -/
theorem not_findExact_new : RbReachable (fun _ l => .ofList l) RbPrivate.empty ∧
    ¬FindExact 0 0 15 2 9 (rbTest 0 RbPrivate.empty) (rbFindFirstZero 0 RbPrivate.empty)
      (rbFindFirstSet 0 RbPrivate.empty) :=
  ⟨.new, fun h => h.zero.2 2 (by decide) (by decide) (by decide)⟩

theorem findExact_markedAtFive :
    FindExact 1 0 7 3 11 (rbTest 0 markedAtFive) (rbFindFirstZero 0 markedAtFive)
    (rbFindFirstSet 0 markedAtFive) :=
  ((findExact_iff (fun _ l => SearchTree.inorder_ofList l) (.insert 5 1 .new) 0
    (fun _ => 0) (by decide)
    (by decide) (by decide)).mpr (by decide)).1

end Find

end E2fsprogs
