import E2fsprogs.Journal.RevokeTable

/-!
# The hash chains of the revoke table

`E2fsprogs.findRevokeRecord` searches one list. The table of `revoke.c` is an array
of chains, and a record is looked for in the chain that `hash_64` picks for its block
number. This file has the table as it is (`E2fsprogs.RevokeHash`) and shows that the
chains do not matter: the table answers as the one list would
(`E2fsprogs.Answers`), so what is known of the list is known of the table.

The hash is the upper `hash_shift` bits of a 64-bit product, `… >> (64 - bits)`. In a
table of one chain `hash_shift` is zero and the shift is by the whole width of the
word, which is undefined; `E2fsprogs.hash64` is an option for that reason. A table of
one chain passes `J_ASSERT(is_power_of_2(hash_size))`.
-/

namespace E2fsprogs

/-! ### The table -/

/-- `struct jbd2_revoke_table_s`. -/
structure RevokeHash where
  hashSize : ℕ
  hashShift : ℕ
  hashTable : List (List RevokeRecord)
  deriving DecidableEq, Repr

/-- `is_power_of_2`, for a positive `int`. -/
def isPowerOf2 (x : ℕ) : Prop := x ≠ 0 ∧ x &&& (x - 1) = 0

instance (x : ℕ) : Decidable (isPowerOf2 x) := inferInstanceAs (Decidable (_ ∧ _))

/-- `while ((tmp >>= 1UL) != 0UL) shift++`, for an `int`. -/
def shiftFrom : ℕ → ℕ → ℕ → ℕ
  | 0, _, shift => shift
  | fuel + 1, tmp, shift => if tmp / 2 ≠ 0 then shiftFrom fuel (tmp / 2) (shift + 1) else shift

/-- `jbd2_journal_init_revoke_table`, when both allocations succeed. -/
def jbd2JournalInitRevokeTable (hashSize : ℕ) : RevokeHash where
  hashSize := hashSize
  hashShift := shiftFrom 31 hashSize 0
  hashTable := List.replicate hashSize []

/-- `GOLDEN_RATIO_64`. -/
def goldenRatio64 : ℕ := 0x61C8864680B583EB

/-- `hash_64`, on a machine whose `long` has 64 bits. There is no value where the
shift is by the width of the word. -/
def hash64 (val bits : ℕ) : Option ℕ :=
  if bits = 0 then none
  else some ((val * goldenRatio64 % 2 ^ 64) >>> (64 - bits) % 2 ^ 32)

/-- The chain a block belongs to: `&hash_table[hash(journal, blocknr)]`. There is
none where the hash is undefined or lies outside the array. -/
def RevokeHash.chain (tbl : RevokeHash) (blocknr : ℕ) : Option (List RevokeRecord) := do
  tbl.hashTable[← hash64 blocknr tbl.hashShift]?

/-- The table with another list for the chain of a block. -/
def RevokeHash.setChain (tbl : RevokeHash) (blocknr : ℕ) (c : List RevokeRecord) : RevokeHash :=
  match hash64 blocknr tbl.hashShift with
  | none => tbl
  | some h => { tbl with hashTable := tbl.hashTable.set h c }

/-- `jbd2_journal_set_revoke` on the chains. `alloc` says whether the allocation of a
new record succeeds; the answer is whether `0` is returned, and the table. -/
def RevokeHash.setRevoke (tbl : RevokeHash) (blocknr sequence : ℕ) (alloc : Bool) :
    Option (Bool × RevokeHash) := do
  let c ← tbl.chain blocknr
  match findRevokeRecord c blocknr with
  | some _ => some (true, tbl.setChain blocknr (jbd2JournalSetRevoke c blocknr sequence))
  | none =>
    if alloc then some (true, tbl.setChain blocknr ({ sequence, blocknr } :: c))
    else some (false, tbl)

/-- `jbd2_journal_test_revoke` on the chains. -/
def RevokeHash.testRevoke (tbl : RevokeHash) (blocknr sequence : ℕ) : Option Bool := do
  let c ← tbl.chain blocknr
  match findRevokeRecord c blocknr with
  | none => some false
  | some r => some (!tidGt sequence r.sequence)

/-- `while (!list_empty(hash_list))`, which takes the first record each time. -/
def emptyChain : List RevokeRecord → List RevokeRecord
  | [] => []
  | _ :: rest => emptyChain rest

/-- `jbd2_journal_clear_revoke`. -/
def RevokeHash.clearRevoke (tbl : RevokeHash) : RevokeHash :=
  { tbl with
    hashTable := (List.range tbl.hashSize).foldl (fun t i => t.modify i emptyChain)
      tbl.hashTable }

/-! ### Runs -/

/-- A call of `jbd2_journal_set_revoke`, with the fortune of its allocation. -/
structure SetCall where
  blocknr : ℕ
  sequence : ℕ
  alloc : Bool
  deriving DecidableEq, Repr

/-- The calls one after another: the table they leave, and the revocations they
recorded, which are those of the calls that returned `0`, the last first. -/
def RevokeHash.setRevokes : List SetCall → RevokeHash → List (ℕ × ℕ) →
    Option (RevokeHash × List (ℕ × ℕ))
  | [], tbl, rs => some (tbl, rs)
  | c :: calls, tbl, rs => do
    let (ok, tbl') ← tbl.setRevoke c.blocknr c.sequence c.alloc
    setRevokes calls tbl' (if ok then (c.blocknr, c.sequence) :: rs else rs)

/-- The revocations that the calls have to record, the last first: all but those of a block
that has none yet, when there is no memory for its record. -/
def recordedCalls : List SetCall → List (ℕ × ℕ) → List (ℕ × ℕ)
  | [], rs => rs
  | c :: calls, rs =>
    recordedCalls calls
      (if c.alloc = true ∨ c.blocknr ∈ rs.map Prod.fst then (c.blocknr, c.sequence) :: rs else rs)

/-- The ids of the window that starts at `base`: no two of them are `2 ^ 31` apart. -/
def InWindow (base t : ℕ) : Prop := ∃ k, k < 2 ^ 31 ∧ t = tidAt base k

/-- The order of the ids modulo `2 ^ 32`: `s` is reached from `t` by counting up
fewer than `2 ^ 31` times. -/
def AtOrAfter (s t : ℕ) : Prop := ∃ d, d < 2 ^ 31 ∧ s = tidAt t d

/-- The calls that return `0` are those that have to record something. After them the table
says of every block and every id of the window whether the block was revoked then or later,
and clearing it leaves no record in it. -/
def RecordsLatest (base hashSize : ℕ) (calls : List SetCall) : Prop :=
  ∃ tbl, RevokeHash.setRevokes calls (jbd2JournalInitRevokeTable hashSize) [] =
      some (tbl, recordedCalls calls []) ∧
    (∀ blk t, InWindow base t → ∃ r, tbl.testRevoke blk t = some r ∧
      (r = true ↔ ∃ s, (blk, s) ∈ recordedCalls calls [] ∧ AtOrAfter s t)) ∧
    ∀ c ∈ tbl.clearRevoke.hashTable, c = []

/-! ### The chain of a block -/

/-- The shape of a table of more than one chain. -/
structure RevokeHash.Shape (tbl : RevokeHash) : Prop where
  shift_pos : 0 < tbl.hashShift
  shift_lt : tbl.hashShift < 32
  size : tbl.hashSize = 2 ^ tbl.hashShift
  length : tbl.hashTable.length = 2 ^ tbl.hashShift

theorem shiftFrom_two_pow : ∀ (fuel k shift : ℕ), k ≤ fuel →
    shiftFrom fuel (2 ^ k) shift = shift + k := by
  intro fuel
  induction fuel with
  | zero =>
    intro k shift hk
    rw [Nat.le_zero.mp hk]
    rfl
  | succ fuel ih =>
    intro k shift hk
    cases k with
    | zero => rfl
    | succ k =>
      have hhalf : 2 ^ (k + 1) / 2 = 2 ^ k := by rw [pow_succ, Nat.mul_div_cancel _ two_pos]
      have hpos : 2 ^ k ≠ 0 := (Nat.two_pow_pos k).ne'
      rw [shiftFrom, hhalf, if_pos hpos, ih k (shift + 1) (by omega)]
      omega

theorem exists_pow_of_isPowerOf2 {x : ℕ} (h : isPowerOf2 x) : ∃ k, x = 2 ^ k :=
  Nat.ne_zero_and_sub_one_eq_zero_iff_isPowerOfTwo.mp h

theorem shape_init {k : ℕ} (hk : 0 < k) (hlt : k < 32) :
    (jbd2JournalInitRevokeTable (2 ^ k)).Shape := by
  have hshift : shiftFrom 31 (2 ^ k) 0 = k := by
    rw [shiftFrom_two_pow 31 k 0 (by omega), Nat.zero_add]
  exact ⟨by simpa [jbd2JournalInitRevokeTable, hshift] using hk,
    by simpa [jbd2JournalInitRevokeTable, hshift] using hlt,
    by simp [jbd2JournalInitRevokeTable, hshift], by simp [jbd2JournalInitRevokeTable, hshift]⟩

/-- The hash is the upper bits of a 64-bit product. -/
theorem hash64_eq {k : ℕ} (hk : 0 < k) (hlt : k < 32) (val : ℕ) :
    ∃ h, hash64 val k = some h ∧ h < 2 ^ k := by
  refine ⟨_, if_neg hk.ne', (Nat.mod_le _ _).trans_lt ?_⟩
  rw [Nat.shiftRight_eq_div_pow]
  apply Nat.div_lt_of_lt_mul
  rw [← pow_add, Nat.sub_add_cancel (by omega)]
  exact Nat.mod_lt _ (Nat.two_pow_pos 64)

variable {tbl : RevokeHash}

theorem RevokeHash.Shape.hash (h : tbl.Shape) (blk : ℕ) :
    ∃ i, hash64 blk tbl.hashShift = some i ∧ i < tbl.hashTable.length := by
  rw [h.length]
  exact hash64_eq h.shift_pos h.shift_lt blk

theorem RevokeHash.Shape.setChain (h : tbl.Shape) (blk : ℕ) (c : List RevokeRecord) :
    (tbl.setChain blk c).Shape := by
  obtain ⟨i, hi, -⟩ := h.hash blk
  unfold RevokeHash.setChain
  rw [hi]
  exact ⟨h.shift_pos, h.shift_lt, h.size, by simpa using h.length⟩

/-- Replacing the chain of a block replaces it for the blocks of the same hash. -/
theorem RevokeHash.Shape.chain_setChain (h : tbl.Shape) (blk blk' : ℕ) (c : List RevokeRecord) :
    (tbl.setChain blk c).chain blk' =
      if hash64 blk' tbl.hashShift = hash64 blk tbl.hashShift then some c
      else tbl.chain blk' := by
  obtain ⟨i, hi, hlt⟩ := h.hash blk
  obtain ⟨i', hi', hlt'⟩ := h.hash blk'
  simp only [RevokeHash.setChain, RevokeHash.chain, hi, hi', Option.bind_eq_bind,
    Option.bind_some, Option.some.injEq]
  rcases eq_or_ne i' i with rfl | hne
  · rw [if_pos rfl, List.getElem?_set_self hlt]
  · rw [if_neg hne, List.getElem?_set_ne hne.symm]

/-! ### The table answers as one list -/

/-- In the chain of a block one finds what one finds in the list. -/
def RevokeHash.Answers (tbl : RevokeHash) (flat : List RevokeRecord) : Prop :=
  ∀ blk, ∃ c, tbl.chain blk = some c ∧ findRevokeRecord c blk = findRevokeRecord flat blk

theorem answers_init {k : ℕ} (hk : 0 < k) (hlt : k < 32) :
    (jbd2JournalInitRevokeTable (2 ^ k)).Answers [] := by
  intro blk
  obtain ⟨i, hi, hilt⟩ := (shape_init hk hlt).hash blk
  refine ⟨[], ?_, rfl⟩
  rw [RevokeHash.chain, hi]
  have hlen : i < 2 ^ k := by simpa [jbd2JournalInitRevokeTable] using hilt
  simp [jbd2JournalInitRevokeTable, hlen]

variable {flat : List RevokeRecord}

/-- Telling the chain of a block of a revocation is telling the list. -/
theorem RevokeHash.Answers.setChain (hs : tbl.Shape) (h : tbl.Answers flat) {blk : ℕ}
    {c : List RevokeRecord} (hc : tbl.chain blk = some c) (seq : ℕ) :
    (tbl.setChain blk (jbd2JournalSetRevoke c blk seq)).Answers
      (jbd2JournalSetRevoke flat blk seq) := by
  intro blk'
  obtain ⟨c', hc', hfind⟩ := h blk'
  rw [hs.chain_setChain]
  by_cases hsame : hash64 blk' tbl.hashShift = hash64 blk tbl.hashShift
  · have hcc : c = c' := by
      rw [RevokeHash.chain, hsame] at hc'
      exact Option.some.inj (hc.symm.trans hc')
    subst hcc
    refine ⟨_, if_pos hsame, ?_⟩
    rw [findRevokeRecord_setRevoke, findRevokeRecord_setRevoke]
    rcases eq_or_ne blk' blk with rfl | hne
    · rw [hfind]
    · rw [if_neg hne, if_neg hne, hfind]
  · refine ⟨c', by rw [if_neg hsame, hc'], ?_⟩
    have hne : blk' ≠ blk := fun heq => hsame (by rw [heq])
    rw [findRevokeRecord_setRevoke, if_neg hne, hfind]

/-- **One call**: it returns `0` except where a new record cannot be had, and then
leaves the table alone. -/
theorem RevokeHash.Answers.setRevoke (hs : tbl.Shape) (h : tbl.Answers flat)
    (blk seq : ℕ) (alloc : Bool) :
    ∃ tbl', tbl.setRevoke blk seq alloc =
        some (alloc || (findRevokeRecord flat blk).isSome, tbl') ∧ tbl'.Shape ∧
      tbl'.Answers (if alloc || (findRevokeRecord flat blk).isSome then
        jbd2JournalSetRevoke flat blk seq else flat) := by
  obtain ⟨c, hc, hfind⟩ := h blk
  have hset := h.setChain hs hc seq
  unfold RevokeHash.setRevoke
  rw [hc, Option.bind_eq_bind, Option.bind_some, ← hfind]
  cases hf : findRevokeRecord c blk with
  | some r =>
    rw [Option.isSome_some, Bool.or_true]
    exact ⟨_, rfl, hs.setChain _ _, hset⟩
  | none =>
    have hnew : jbd2JournalSetRevoke c blk seq = ⟨seq, blk⟩ :: c := by
      rw [jbd2JournalSetRevoke, hf]
    rw [hnew] at hset
    cases alloc with
    | true => exact ⟨_, rfl, hs.setChain _ _, hset⟩
    | false => exact ⟨tbl, rfl, hs, h⟩

/-- The chain of a block is searched as the list would be. -/
theorem RevokeHash.Answers.testRevoke (h : tbl.Answers flat) (blk t : ℕ) :
    tbl.testRevoke blk t = some (jbd2JournalTestRevoke flat blk t) := by
  obtain ⟨c, hc, hfind⟩ := h blk
  rw [RevokeHash.testRevoke, hc, Option.bind_eq_bind, Option.bind_some, hfind,
    jbd2JournalTestRevoke]
  cases findRevokeRecord flat blk <;> rfl

/-! ### Clearing -/

theorem emptyChain_eq : ∀ c : List RevokeRecord, emptyChain c = []
  | [] => rfl
  | _ :: rest => emptyChain_eq rest

/-- The chains of index below `n` are emptied, the others stay. -/
theorem getElem?_clear (table : List (List RevokeRecord)) (n j : ℕ) :
    ((List.range n).foldl (fun t i => t.modify i emptyChain) table)[j]? =
      if j < n then table[j]?.map emptyChain else table[j]? := by
  induction n with
  | zero => rfl
  | succ n ih =>
    rw [List.range_succ, List.foldl_append, List.foldl_cons, List.foldl_nil, List.getElem?_modify,
      ih]
    rcases lt_trichotomy j n with hlt | rfl | hgt
    · simp [hlt, hlt.ne', Nat.lt_succ_of_lt hlt]
    · simp
    · simp [hgt.ne, Nat.not_lt.mpr hgt.le, Nat.not_lt.mpr (Nat.succ_le_of_lt hgt)]

/-- **Clearing leaves no record.** -/
theorem RevokeHash.Shape.clearRevoke (h : tbl.Shape) :
    ∀ c ∈ tbl.clearRevoke.hashTable, c = [] := by
  intro c hc
  obtain ⟨j, hj⟩ := List.mem_iff_getElem?.mp hc
  rw [RevokeHash.clearRevoke, getElem?_clear] at hj
  by_cases hlt : j < tbl.hashSize
  · rw [if_pos hlt] at hj
    obtain ⟨c', -, rfl⟩ := Option.map_eq_some_iff.mp hj
    exact emptyChain_eq c'
  · rw [if_neg hlt] at hj
    obtain ⟨hlen, -⟩ := List.getElem?_eq_some_iff.mp hj
    rw [h.length, ← h.size] at hlen
    exact absurd hlen hlt

/-! ### Runs -/

variable {base : ℕ}

/-- In one window the order modulo `2 ^ 32` is the order of the indices. -/
theorem atOrAfter_tidAt {i k : ℕ} (hi : i < 2 ^ 31) (hk : k < 2 ^ 31) :
    AtOrAfter (tidAt base k) (tidAt base i) ↔ i ≤ k := by
  constructor
  · rintro ⟨d, hd, heq⟩
    simp only [tidAt] at heq
    omega
  · intro hle
    refine ⟨k - i, by omega, ?_⟩
    simp only [tidAt]
    omega

/-- The revocations of the transactions of given indices, with their ids. -/
def withIds (base : ℕ) (rs : List (ℕ × ℕ)) : List (ℕ × ℕ) :=
  rs.map fun x => (x.1, tidAt base x.2)

theorem mem_withIds {rs : List (ℕ × ℕ)} {blk s : ℕ} :
    (blk, s) ∈ withIds base rs ↔ ∃ k, (blk, k) ∈ rs ∧ s = tidAt base k := by
  simp only [withIds, List.mem_map, Prod.mk.injEq, Prod.exists]
  constructor
  · rintro ⟨b, k, hmem, rfl, rfl⟩
    exact ⟨k, hmem, rfl⟩
  · rintro ⟨k, hmem, rfl⟩
    exact ⟨blk, k, hmem, rfl, rfl⟩

/-- The table knows the blocks that were revoked. -/
theorem isSome_find_iff {rs : List (ℕ × ℕ)} (hok : TableOk base flat rs) (blk : ℕ) :
    (findRevokeRecord flat blk).isSome = true ↔ blk ∈ (withIds base rs).map Prod.fst := by
  simp only [withIds, List.map_map, List.mem_map, Function.comp_apply, Prod.exists,
    exists_and_right, exists_eq_right]
  cases hf : findRevokeRecord flat blk with
  | none =>
    exact ⟨fun h => absurd h Bool.false_ne_true, fun ⟨k, hk⟩ => absurd hk (hok.of_none hf k)⟩
  | some r =>
    obtain ⟨k, hk, -⟩ := hok.of_some hf
    exact ⟨fun _ => ⟨k, hk⟩, fun _ => rfl⟩

/-- The table holds the latest of the revocations `rs`, given by their indices. -/
structure RevokeHash.Holds (base : ℕ) (tbl : RevokeHash) (rs : List (ℕ × ℕ)) : Prop where
  shape : tbl.Shape
  window : ∀ x ∈ rs, x.2 < 2 ^ 31
  latest : ∃ flat, tbl.Answers flat ∧ TableOk base flat rs

/-- **A run of calls** keeps the latest of what it has to record. -/
theorem RevokeHash.Holds.setRevokes : ∀ (calls : List SetCall) {tbl : RevokeHash}
    {rs : List (ℕ × ℕ)}, tbl.Holds base rs → (∀ c ∈ calls, InWindow base c.sequence) →
    ∃ tbl' rs', RevokeHash.setRevokes calls tbl (withIds base rs) = some (tbl', withIds base rs') ∧
      recordedCalls calls (withIds base rs) = withIds base rs' ∧ tbl'.Holds base rs' := by
  intro calls
  induction calls with
  | nil => exact fun h _ => ⟨_, _, rfl, rfl, h⟩
  | cons c calls ih =>
    intro tbl rs h hwin
    obtain ⟨k, hk, hseq⟩ := hwin c (by simp)
    obtain ⟨flat, hans, hok⟩ := h.latest
    obtain ⟨tbl₁, hset, hs₁, hans₁⟩ := hans.setRevoke h.shape c.blocknr c.sequence c.alloc
    have hdone : (c.alloc || (findRevokeRecord flat c.blocknr).isSome) = true ↔
        c.alloc = true ∨ c.blocknr ∈ (withIds base rs).map Prod.fst := by
      rw [Bool.or_eq_true, isSome_find_iff hok]
    rw [RevokeHash.setRevokes, recordedCalls, hset, Option.bind_eq_bind, Option.bind_some]
    have hrest : ∀ x ∈ calls, InWindow base x.sequence := fun x hx => hwin x (by simp [hx])
    cases hb : c.alloc || (findRevokeRecord flat c.blocknr).isSome with
    | false =>
      rw [hb] at hdone hans₁
      rw [if_neg (fun hrec => Bool.false_ne_true (hdone.mpr hrec))]
      exact ih ⟨hs₁, h.window, flat, hans₁, hok⟩ hrest
    | true =>
      rw [hb] at hdone hans₁
      have hcons : (c.blocknr, c.sequence) :: withIds base rs =
          withIds base ((c.blocknr, k) :: rs) := by rw [hseq]; rfl
      rw [if_pos (hdone.mp rfl)]
      simp only [if_true, hcons]
      refine ih ⟨hs₁, ?_, _, hans₁, ?_⟩ hrest
      · intro x hx
        rcases List.mem_cons.mp hx with rfl | hmem
        · exact hk
        · exact h.window x hmem
      · rw [if_pos rfl, hseq]
        exact hok.setRevoke hk h.window c.blocknr

/-- What the table answers. -/
theorem RevokeHash.Holds.testRevoke {rs : List (ℕ × ℕ)} (h : tbl.Holds base rs) (blk : ℕ)
    {t : ℕ} (ht : InWindow base t) : ∃ r, tbl.testRevoke blk t = some r ∧
      (r = true ↔ ∃ s, (blk, s) ∈ withIds base rs ∧ AtOrAfter s t) := by
  obtain ⟨flat, hans, hok⟩ := h.latest
  obtain ⟨i, hi, rfl⟩ := ht
  refine ⟨_, hans.testRevoke blk _, (testRevoke_iff hok hi h.window blk).trans ⟨?_, ?_⟩⟩
  · rintro ⟨k, hik, hk⟩
    exact ⟨_, mem_withIds.mpr ⟨k, hk, rfl⟩, (atOrAfter_tidAt hi (h.window _ hk)).mpr hik⟩
  · rintro ⟨s, hmem, hafter⟩
    obtain ⟨k, hk, rfl⟩ := mem_withIds.mp hmem
    exact ⟨k, (atOrAfter_tidAt hi (h.window _ hk)).mp hafter, hk⟩

/-- A table of one chain has no chain for any block. -/
theorem chain_of_one (h : tbl.hashShift = 0) (blk : ℕ) : tbl.chain blk = none := by
  rw [RevokeHash.chain, h]
  rfl

/-- In a table of one chain nothing can be looked up, whatever was called before. -/
theorem not_recordsLatest_one (base : ℕ) (calls : List SetCall) :
    ¬RecordsLatest base 1 calls := by
  rintro ⟨tbl, hrun, htest, -⟩
  cases calls with
  | nil =>
    obtain ⟨rfl, -⟩ := Prod.mk.inj (Option.some.inj hrun)
    obtain ⟨r, hr, -⟩ := htest 0 (tidAt base 0) ⟨0, by norm_num, rfl⟩
    rw [RevokeHash.testRevoke, chain_of_one rfl] at hr
    cases hr
  | cons c calls =>
    rw [RevokeHash.setRevokes, RevokeHash.setRevoke, chain_of_one rfl] at hrun
    cases hrun

/-- **The revoke table records the latest revoking transaction of each block** – in
every table of more than one chain. -/
theorem recordsLatest_iff (hashSize : ℕ) (hpow : isPowerOf2 hashSize) (hint : hashSize < 2 ^ 31)
    (base : ℕ) (calls : List SetCall) (hwin : ∀ c ∈ calls, InWindow base c.sequence) :
    RecordsLatest base hashSize calls ↔ hashSize ≠ 1 := by
  obtain ⟨k, rfl⟩ := exists_pow_of_isPowerOf2 hpow
  have hlt : k < 32 := by
    have := (Nat.pow_lt_pow_iff_right one_lt_two).mp hint
    omega
  constructor
  · intro h heq
    rw [heq] at h
    exact not_recordsLatest_one base calls h
  · intro hne
    have hk : 0 < k := Nat.pos_of_ne_zero fun h0 => hne (by rw [h0, pow_zero])
    have hinit : (jbd2JournalInitRevokeTable (2 ^ k)).Holds base [] :=
      ⟨shape_init hk hlt, by simp, [], answers_init hk hlt, tableOk_nil⟩
    obtain ⟨tbl, rs, hrun, hrec, hholds⟩ := hinit.setRevokes calls hwin
    have hrec' : recordedCalls calls [] = withIds base rs := hrec
    refine ⟨tbl, hrec'.symm ▸ hrun, fun blk t ht => ?_, hholds.shape.clearRevoke⟩
    rw [hrec']
    exact hholds.testRevoke blk ht

/-- Two blocks in the table of the program, one revoked twice, the earlier revocation
last. -/
theorem recordsLatest_iff_two_blocks :
    RecordsLatest 7 1024 [⟨5, 9, true⟩, ⟨5, 8, true⟩, ⟨6, 7, true⟩] ↔ 1024 ≠ 1 :=
  recordsLatest_iff 1024 (by decide) (by norm_num) 7 _ (by
    intro c hc
    simp only [List.mem_cons, List.not_mem_nil, or_false] at hc
    rcases hc with rfl | rfl | rfl
    · exact ⟨2, by norm_num, rfl⟩
    · exact ⟨1, by norm_num, rfl⟩
    · exact ⟨0, by norm_num, rfl⟩)

/-- A table of one chain passes the assertion, and the first revocation told to it is
hashed with a shift by the width of the word. -/
theorem not_recordsLatest_one_chain :
    isPowerOf2 1 ∧ InWindow 7 7 ∧ ¬RecordsLatest 7 1 [⟨5, 7, true⟩] :=
  ⟨by decide, ⟨0, by norm_num, rfl⟩, not_recordsLatest_one 7 _⟩

end E2fsprogs
