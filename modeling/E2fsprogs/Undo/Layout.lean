import E2fsprogs.Undo.Replay

/-!
# Reading an undo file back

Key blocks decode to the keys they were written with, and a file that is laid out as the undo
I/O manager lays it out (`E2fsprogs.ChunksAt`) is loaded key by key, with the data of each key
where it was written.
-/

namespace E2fsprogs

/-! ### Key blocks -/

section KeyBlock

variable {b : Block} {i j : ℕ} {key : UndoKey}

/-- The fields of a key have room in the key block. -/
structure UndoKey.Fits (key : UndoKey) : Prop where
  fsblk : key.fsblk < 2 ^ 64
  blkCrc : key.blkCrc < 2 ^ 32
  size : key.size < 2 ^ 32

theorem putKey_of_outside {p : ℕ} (h : p < 16 + 16 * j ∨ 32 + 16 * j ≤ p) :
    putKey b j key p = b p := by
  rw [putKey, putLe_of_outside (by omega), putLe_of_outside (by omega), putLe_of_outside (by omega)]

theorem getKey_putKey (h : key.Fits) : getKey (putKey b j key) j = key := by
  have h1 : getLe (putKey b j key) (16 + 16 * j) 8 = key.fsblk := by
    rw [putKey, getLe_putLe_of_disjoint (by omega), getLe_putLe_of_disjoint (by omega)]
    exact getLe_putLe b _ h.fsblk
  have h2 : getLe (putKey b j key) (24 + 16 * j) 4 = key.blkCrc := by
    rw [putKey, getLe_putLe_of_disjoint (by omega)]
    exact getLe_putLe _ _ h.blkCrc
  have h3 : getLe (putKey b j key) (28 + 16 * j) 4 = key.size := getLe_putLe _ _ h.size
  rw [getKey, h1, h2, h3]

theorem getKey_congr {c : Block} (h : ∀ p, 16 + 16 * j ≤ p → p < 32 + 16 * j → b p = c p) :
    getKey b j = getKey c j := by
  rw [getKey, getKey, getLe_congr fun p h1 h2 => h p (by omega) (by omega),
    getLe_congr fun p h1 h2 => h p (by omega) (by omega),
    getLe_congr fun p h1 h2 => h p (by omega) (by omega)]

theorem putKeys_of_before (keys : List UndoKey) : ∀ {b : Block} {i p : ℕ}, p < 16 + 16 * i →
    putKeys b i keys p = b p := by
  induction keys with
  | nil => exact fun _ => rfl
  | cons key keys ih =>
    intro b i p h
    rw [putKeys, ih (by omega), putKey_of_outside (by omega)]

/-- **The keys of a key block read back.** -/
theorem getKey_putKeys (keys : List UndoKey) : ∀ {b : Block} {i j : ℕ} {key : UndoKey},
    (∀ key ∈ keys, key.Fits) → keys[j]? = some key → getKey (putKeys b i keys) (i + j) = key := by
  induction keys with
  | nil => exact fun _ h => by simp at h
  | cons head keys ih =>
    intro b i j key hfits hj
    rw [putKeys]
    rcases j with _ | j
    · rw [List.getElem?_cons_zero, Option.some.injEq] at hj
      subst hj
      rw [Nat.add_zero]
      have hframe := @getKey_congr (putKeys (putKey b i head) (i + 1) keys) i (putKey b i head)
        fun p _ h => putKeys_of_before keys (by omega)
      exact hframe.trans (getKey_putKey (hfits head List.mem_cons_self))
    · rw [List.getElem?_cons_succ] at hj
      rw [show i + (j + 1) = i + 1 + j by omega]
      exact ih (fun key hkey => hfits key (List.mem_cons_of_mem _ hkey)) hj

theorem keyBlockBody_of_header (keys : List UndoKey) {p : ℕ} (h : p < 16) :
    keyBlockBody keys p = putLe zeroBlock 0 4 keyblockMagic p := putKeys_of_before keys (by omega)

theorem getKey_encodeKeyBlock {blockSize : ℕ} {keys : List UndoKey} (hfits : ∀ key ∈ keys, key.Fits)
    (hj : keys[j]? = some key) : getKey (encodeKeyBlock blockSize keys) j = key := by
  have h := @getKey_putKeys keys (putLe zeroBlock 0 4 keyblockMagic) 0 j key hfits hj
  rw [Nat.zero_add] at h
  refine (getKey_congr fun p h1 _ => ?_).trans h
  exact putLe_of_outside (by omega)

theorem magic_encodeKeyBlock (blockSize : ℕ) (keys : List UndoKey) :
    getLe (encodeKeyBlock blockSize keys) 0 4 = keyblockMagic := by
  have h : getLe (keyBlockBody keys) 0 4 = getLe (putLe zeroBlock 0 4 keyblockMagic) 0 4 :=
    getLe_congr fun p _ h => keyBlockBody_of_header keys (by omega)
  rw [encodeKeyBlock, getLe_putLe_of_disjoint (by omega), h]
  exact getLe_putLe _ _ (by decide)

theorem blockCrc_lt (b : Block) (n : ℕ) : blockCrc b n < 2 ^ 32 := ext2fsCrc32cLe_lt (by decide) _

theorem blockCrc_congr {b c : Block} {n : ℕ} (h : ∀ i < n, b i = c i) :
    blockCrc b n = blockCrc c n :=
  congrArg _ (bytesOf_congr h)

theorem crc_encodeKeyBlock (blockSize : ℕ) (keys : List UndoKey) :
    getLe (encodeKeyBlock blockSize keys) 4 4 = blockCrc (keyBlockBody keys) blockSize :=
  getLe_putLe _ _ (blockCrc_lt _ _)

/-- With the checksum cleared a key block is what the checksum was computed of. -/
theorem clearCrc_encodeKeyBlock (blockSize : ℕ) (keys : List UndoKey) :
    putLe (encodeKeyBlock blockSize keys) 4 4 0 = keyBlockBody keys := by
  funext p
  by_cases hp : 4 ≤ p ∧ p < 4 + 4
  · rw [putLe, if_pos hp, keyBlockBody_of_header keys (by omega), putLe_of_outside (by omega),
      Nat.zero_div]
    rfl
  · rw [putLe_of_outside (by omega), encodeKeyBlock, putLe_of_outside (by omega)]

end KeyBlock

/-! ### Where the data of keys is -/

section Layout

variable (dev₀ : Block) (T B O : ℕ)

/-- How many blocks of the undo file the data of a key takes. -/
def span (key : UndoKey) : ℕ := (key.size + T - 1) / T

/-- How many blocks the data of several keys takes. -/
def spanAll (keys : List UndoKey) : ℕ := (keys.map (span T)).sum

variable (bytes : Block)

/-- The data of a key is that of the device `dev₀`, and it is in the undo file from block `lblk`
on. -/
structure KeyAt (lblk : ℕ) (key : UndoKey) : Prop where
  fits : key.Fits
  size_le : key.size ≤ e2undoMaxExtentBlocks * T
  crc : blockCrc (fromPos bytes (lblk * T)) key.size = key.blkCrc
  data : ∀ q < key.size, bytes (lblk * T + q) = dev₀ (key.fsblk * B + O + q)

/-- The data of several keys, from block `lblk` on. -/
def KeysAt : List UndoKey → ℕ → Prop
  | [], _ => True
  | key :: keys, lblk => KeyAt dev₀ T B O bytes lblk key ∧ KeysAt keys (lblk + span T key)

/-- A key block with these keys is block `lblk` of the undo file. -/
def KeyBlockAt (keys : List UndoKey) (lblk : ℕ) : Prop :=
  ∀ q < T, bytes (lblk * T + q) = encodeKeyBlock T keys q

/-- Full key blocks, each followed by the data of its keys, from block `lblk` on. -/
def ChunksAt : List (List UndoKey) → ℕ → Prop
  | [], _ => True
  | keys :: chunks, lblk => keys.length = keysPerBlock T ∧ KeyBlockAt T bytes keys lblk ∧
      KeysAt dev₀ T B O bytes keys (lblk + 1) ∧ ChunksAt chunks (lblk + 1 + spanAll T keys)

/-- The block after some key blocks with their data. -/
def chunksEnd (chunks : List (List UndoKey)) (lblk : ℕ) : ℕ :=
  lblk + (chunks.map fun keys => 1 + spanAll T keys).sum

end Layout

section Layout

variable {dev₀ : Block} {T B O : ℕ} {bytes bytes' : Block}

@[simp] theorem spanAll_nil : spanAll T [] = 0 := rfl

@[simp] theorem spanAll_cons (key : UndoKey) (keys : List UndoKey) :
    spanAll T (key :: keys) = span T key + spanAll T keys := by simp [spanAll]

@[simp] theorem spanAll_append (keys keys' : List UndoKey) :
    spanAll T (keys ++ keys') = spanAll T keys + spanAll T keys' := by simp [spanAll]

@[simp] theorem chunksEnd_nil (lblk : ℕ) : chunksEnd T [] lblk = lblk := rfl

theorem chunksEnd_cons (keys : List UndoKey) (chunks : List (List UndoKey)) (lblk : ℕ) :
    chunksEnd T (keys :: chunks) lblk = chunksEnd T chunks (lblk + 1 + spanAll T keys) := by
  simp only [chunksEnd, List.map_cons, List.sum_cons]
  omega

theorem chunksEnd_append (keys : List UndoKey) (chunks : List (List UndoKey)) (lblk : ℕ) :
    chunksEnd T (chunks ++ [keys]) lblk = chunksEnd T chunks lblk + 1 + spanAll T keys := by
  simp only [chunksEnd, List.map_append, List.map_cons, List.map_nil, List.sum_append,
    List.sum_cons, List.sum_nil]
  omega

theorem le_chunksEnd (chunks : List (List UndoKey)) (lblk : ℕ) : lblk ≤ chunksEnd T chunks lblk :=
  Nat.le_add_right _ _

/-- The data of a key is in the blocks it spans. -/
theorem size_le_span (hT : 0 < T) (key : UndoKey) : key.size ≤ span T key * T := by
  have h := Nat.div_add_mod (key.size + T - 1) T
  have h' := Nat.mod_lt (key.size + T - 1) hT
  rw [span, Nat.mul_comm]
  omega

/-! ### Frames -/

theorem KeyAt.congr {lblk : ℕ} {key : UndoKey} (hT : 0 < T) (h : KeyAt dev₀ T B O bytes lblk key)
    (hframe : ∀ p, lblk * T ≤ p → p < (lblk + span T key) * T → bytes' p = bytes p) :
    KeyAt dev₀ T B O bytes' lblk key := by
  have hspan := size_le_span hT key
  have hsame : ∀ q < key.size, bytes' (lblk * T + q) = bytes (lblk * T + q) := by
    intro q hq
    refine hframe _ (by omega) ?_
    rw [Nat.add_mul]
    omega
  refine ⟨h.fits, h.size_le, ?_, fun q hq => (hsame q hq).trans (h.data q hq)⟩
  rw [← h.crc]
  exact blockCrc_congr hsame

theorem KeysAt.congr (hT : 0 < T) : ∀ {keys : List UndoKey} {lblk : ℕ},
    KeysAt dev₀ T B O bytes keys lblk →
    (∀ p, lblk * T ≤ p → p < (lblk + spanAll T keys) * T → bytes' p = bytes p) →
    KeysAt dev₀ T B O bytes' keys lblk
  | [], _, _, _ => trivial
  | key :: keys, lblk, h, hframe => by
    rw [spanAll_cons] at hframe
    refine ⟨h.1.congr hT fun p h1 h2 => hframe p h1 (h2.trans_le ?_), h.2.congr hT fun p h1 h2 =>
      hframe p (le_trans ?_ h1) (h2.trans_le ?_)⟩
    all_goals exact Nat.mul_le_mul_right T (by omega)

theorem KeyBlockAt.congr {keys : List UndoKey} {lblk : ℕ} (h : KeyBlockAt T bytes keys lblk)
    (hframe : ∀ p, lblk * T ≤ p → p < (lblk + 1) * T → bytes' p = bytes p) :
    KeyBlockAt T bytes' keys lblk := by
  intro q hq
  rw [hframe _ (by omega) (by rw [Nat.add_mul]; omega)]
  exact h q hq

theorem ChunksAt.congr (hT : 0 < T) : ∀ {chunks : List (List UndoKey)} {lblk : ℕ},
    ChunksAt dev₀ T B O bytes chunks lblk →
    (∀ p, lblk * T ≤ p → p < chunksEnd T chunks lblk * T → bytes' p = bytes p) →
    ChunksAt dev₀ T B O bytes' chunks lblk
  | [], _, _, _ => trivial
  | keys :: chunks, lblk, h, hframe => by
    rw [chunksEnd_cons] at hframe
    have hend := @le_chunksEnd T chunks (lblk + 1 + spanAll T keys)
    refine ⟨h.1, h.2.1.congr fun p h1 h2 => hframe p h1 (h2.trans_le ?_),
      h.2.2.1.congr hT fun p h1 h2 => hframe p (le_trans ?_ h1) (h2.trans_le ?_),
      h.2.2.2.congr hT fun p h1 h2 => hframe p (le_trans ?_ h1) h2⟩
    all_goals exact Nat.mul_le_mul_right T (by omega)

theorem keysAt_append_singleton {key : UndoKey} : ∀ {keys : List UndoKey} {lblk : ℕ},
    KeysAt dev₀ T B O bytes (keys ++ [key]) lblk ↔
      KeysAt dev₀ T B O bytes keys lblk ∧ KeyAt dev₀ T B O bytes (lblk + spanAll T keys) key
  | [], _ => by simp [KeysAt]
  | head :: keys, lblk => by
    rw [List.cons_append, KeysAt, KeysAt, keysAt_append_singleton, spanAll_cons, and_assoc,
      Nat.add_assoc]

theorem chunksAt_append_singleton {keys : List UndoKey} :
    ∀ {chunks : List (List UndoKey)} {lblk : ℕ},
    ChunksAt dev₀ T B O bytes (chunks ++ [keys]) lblk ↔
      ChunksAt dev₀ T B O bytes chunks lblk ∧ keys.length = keysPerBlock T ∧
        KeyBlockAt T bytes keys (chunksEnd T chunks lblk) ∧
        KeysAt dev₀ T B O bytes keys (chunksEnd T chunks lblk + 1)
  | [], _ => by simp [ChunksAt]
  | head :: chunks, lblk => by
    rw [List.cons_append, ChunksAt, ChunksAt, chunksAt_append_singleton, chunksEnd_cons]
    simp only [and_assoc]

/-! ### Loading -/

/-- What a loaded key is to be written back with is what `dev₀` has there. -/
def UndoKeyInfo.Restores (dev₀ : Block) (T B O : ℕ) (bytes : Block) (info : UndoKeyInfo) : Prop :=
  ∀ q < info.size, bytes (info.fileblk * T + q) = dev₀ (info.fsblk * B + O + q)

/-- The loaded keys restore what `dev₀` has, and all the keys are there. -/
structure LoadedKeys (dev₀ : Block) (T B O : ℕ) (bytes : Block) (keys : List UndoKey)
    (infos : List UndoKeyInfo) : Prop where
  restores : ∀ info ∈ infos, info.Restores dev₀ T B O bytes
  complete : ∀ key ∈ keys, ∃ info ∈ infos, info.fsblk = key.fsblk ∧ info.size = key.size

theorem LoadedKeys.append {keys keys' : List UndoKey} {infos infos' : List UndoKeyInfo}
    (h : LoadedKeys dev₀ T B O bytes keys infos) (h' : LoadedKeys dev₀ T B O bytes keys' infos') :
    LoadedKeys dev₀ T B O bytes (keys ++ keys') (infos ++ infos') where
  restores info hinfo := (List.mem_append.mp hinfo).elim (h.restores info) (h'.restores info)
  complete key hkey := by
    rcases List.mem_append.mp hkey with hkey | hkey
    · obtain ⟨info, hinfo, hsame⟩ := h.complete key hkey
      exact ⟨info, List.mem_append_left _ hinfo, hsame⟩
    · obtain ⟨info, hinfo, hsame⟩ := h'.complete key hkey
      exact ⟨info, List.mem_append_right _ hinfo, hsame⟩

theorem loadKeyBlock_of_keysAt : ∀ {keys : List UndoKey} {lblk : ℕ},
    KeysAt dev₀ T B O bytes keys lblk → ∃ infos,
      loadKeyBlock bytes T keys lblk = some (infos, lblk + spanAll T keys) ∧
        LoadedKeys dev₀ T B O bytes keys infos
  | [], _, _ => ⟨[], rfl, by simp, by simp⟩
  | key :: keys, lblk, h => by
    obtain ⟨infos, hload, hinfos⟩ := loadKeyBlock_of_keysAt h.2
    have hkey : LoadedKeys dev₀ T B O bytes [key] [⟨key.fsblk, lblk, key.blkCrc, key.size⟩] :=
      ⟨by simpa [UndoKeyInfo.Restores] using h.1.data, by simp⟩
    refine ⟨_, ?_, hkey.append hinfos⟩
    rw [loadKeyBlock, if_neg (Nat.not_lt.mpr h.1.size_le), if_neg (fun hne => hne h.1.crc)]
    change Option.map _ (loadKeyBlock bytes T keys (lblk + span T key)) = _
    rw [hload, spanAll_cons, Nat.add_assoc]
    rfl

theorem loadKeys_zero {lblk : ℕ} : ∀ fuel, loadKeys bytes T fuel 0 lblk = some []
  | 0 => rfl
  | _ + 1 => if_pos rfl

/-- A round of the loop: a key block is accepted, and its keys are those it was written with. -/
theorem loadKeys_succ {keys : List UndoKey} {lblk fuel left n : ℕ} {infos rest : List UndoKeyInfo}
    (hfits : ∀ key ∈ keys, key.Fits) (hroom : 16 + 16 * keys.length ≤ T)
    (hblock : KeyBlockAt T bytes keys lblk) (hleft : left ≠ 0)
    (hn : min left (keysPerBlock T) = keys.length)
    (hload : loadKeyBlock bytes T keys (lblk + 1) = some (infos, n))
    (hrest : loadKeys bytes T fuel (left - keys.length) n = some rest) :
    loadKeys bytes T (fuel + 1) left lblk = some (infos ++ rest) := by
  have hsame : ∀ q < T, memcpy zeroBlock 0 (fromPos bytes (lblk * T)) T q =
      encodeKeyBlock T keys q := by
    intro q hq
    rw [memcpy_of_inside (Nat.zero_le q) (by omega)]
    exact hblock q hq
  generalize hkeyb : memcpy zeroBlock 0 (fromPos bytes (lblk * T)) T = keyb at hsame
  have hmagic : getLe keyb 0 4 = keyblockMagic := by
    rw [← magic_encodeKeyBlock T keys]
    exact getLe_congr fun p _ h => hsame p (by omega)
  have hcrc : getLe keyb 4 4 = blockCrc (keyBlockBody keys) T := by
    rw [← crc_encodeKeyBlock T keys]
    exact getLe_congr fun p _ h => hsame p (by omega)
  have hbody : blockCrc (putLe keyb 4 4 0) T = blockCrc (keyBlockBody keys) T := by
    rw [← clearCrc_encodeKeyBlock T keys]
    refine blockCrc_congr fun p hp => ?_
    by_cases h4 : 4 ≤ p ∧ p < 4 + 4
    · rw [putLe, putLe, if_pos h4, if_pos h4]
    · rw [putLe_of_outside (by omega), putLe_of_outside (by omega), hsame p hp]
  have hkeys : (List.range keys.length).map (getKey keyb) = keys := by
    refine List.ext_getElem (by simp) fun j h1 h2 => ?_
    rw [List.getElem_map, List.getElem_range]
    rw [← @getKey_encodeKeyBlock j keys[j] T keys hfits (List.getElem?_eq_getElem h2)]
    exact getKey_congr fun p _ h => hsame p (by omega)
  rw [loadKeys, if_neg hleft]
  simp only [hkeyb]
  rw [if_neg (fun hne => hne hmagic), if_neg (fun hne => hne (hbody.trans hcrc.symm)),
    hn, hkeys, hload]
  change Option.map _ (loadKeys bytes T fuel (left - keys.length) n) = _
  rw [hrest]
  rfl

/-- All the keys that are in the undo file: those of the full key blocks and of the last one. -/
def allKeys (chunks : List (List UndoKey)) (keyb : List UndoKey) : List UndoKey :=
  chunks.flatten ++ keyb

theorem KeysAt.fits : ∀ {keys : List UndoKey} {lblk : ℕ}, KeysAt dev₀ T B O bytes keys lblk →
    ∀ key ∈ keys, key.Fits
  | [], _, _, _, hkey => by simp at hkey
  | head :: keys, _, h, key, hkey => by
    rcases List.mem_cons.mp hkey with rfl | hkey
    · exact h.1.fits
    · exact h.2.fits key hkey

theorem keysPerBlock_room (hT : 1024 ≤ T) : 16 + 16 * keysPerBlock T ≤ T := by
  rw [keysPerBlock]
  omega

/-- **An undo file is loaded key by key.** -/
theorem loadKeys_of_chunksAt (hT : 1024 ≤ T) {keyb : List UndoKey}
    (hlen : keyb.length < keysPerBlock T) :
    ∀ {chunks : List (List UndoKey)} {lblk : ℕ} (fuel : ℕ), ChunksAt dev₀ T B O bytes chunks lblk →
      (keyb ≠ [] → KeyBlockAt T bytes keyb (chunksEnd T chunks lblk)) →
      KeysAt dev₀ T B O bytes keyb (chunksEnd T chunks lblk + 1) →
      chunks.length + keyb.length ≤ fuel →
      ∃ infos, loadKeys bytes T fuel (chunks.length * keysPerBlock T + keyb.length) lblk =
        some infos ∧
        LoadedKeys dev₀ T B O bytes (allKeys chunks keyb) infos
  | [], lblk, fuel, _, hblock, hkeys, hfuel => by
    rw [List.length_nil, Nat.zero_mul, Nat.zero_add]
    rcases eq_or_ne keyb [] with rfl | hne
    · exact ⟨[], loadKeys_zero fuel, by simp, by simp [allKeys]⟩
    · obtain ⟨infos, hload, hinfos⟩ := loadKeyBlock_of_keysAt hkeys
      have hpos : keyb.length ≠ 0 := by simpa using hne
      obtain ⟨fuel, rfl⟩ : ∃ f, fuel = f + 1 := ⟨fuel - 1, by simp at hfuel; omega⟩
      have hroom := keysPerBlock_room hT
      refine ⟨infos ++ [], ?_, by simpa [allKeys] using hinfos⟩
      refine loadKeys_succ hkeys.fits (by omega) (hblock hne) hpos (by omega) hload ?_
      rw [Nat.sub_self]
      exact loadKeys_zero fuel
  | keys :: chunks, lblk, fuel, h, hblock, hkeys, hfuel => by
    obtain ⟨fuel, rfl⟩ : ∃ f, fuel = f + 1 := ⟨fuel - 1, by simp at hfuel; omega⟩
    rw [chunksEnd_cons] at hblock hkeys
    rw [List.length_cons] at hfuel
    obtain ⟨rest, hrest, hall⟩ := loadKeys_of_chunksAt hT hlen fuel h.2.2.2 hblock hkeys (by omega)
    obtain ⟨infos, hload, hinfos⟩ := loadKeyBlock_of_keysAt h.2.2.1
    have hroom := keysPerBlock_room hT
    have hmul : (chunks.length + 1) * keysPerBlock T =
        chunks.length * keysPerBlock T + keysPerBlock T :=
      Nat.succ_mul _ _
    refine ⟨infos ++ rest, ?_, ?_⟩
    · rw [List.length_cons, hmul]
      refine loadKeys_succ h.2.2.1.fits (by rw [h.1]; omega) h.2.1 (by omega) (by rw [h.1]; omega)
        hload ?_
      rw [h.1, ← hrest]
      congr 1
      omega
    · have happend := hinfos.append hall
      rwa [allKeys, List.flatten_cons, List.append_assoc]

end Layout

end E2fsprogs
