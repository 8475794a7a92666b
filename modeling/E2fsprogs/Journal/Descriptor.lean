import E2fsprogs.Journal.Write
import E2fsprogs.Journal.Layout

/-!
# The blocks a writer fills, as a reader sees them

Descriptor, revoke and commit blocks one at a time. The writer fills the tags of a
descriptor block one after the other, and each store leaves the earlier tags
alone; so at any time the block says what it has been told
(`E2fsprogs.DescriptorIs`), whatever an earlier use of the buffer has left in the
rest of it.

The reader finds the same tags, because both go by the same positions
(`E2fsprogs.tagPos`) and stop for the same reason: the next tag would not fit, or
the last one is marked (`E2fsprogs.DescriptorIs.tagOffsets_eq`).
-/

namespace E2fsprogs

/-! ### Positions of tags -/

/-- The offset of the `i`-th tag of a descriptor block: a uuid of 16 bytes follows the
first. -/
def tagPos (f : Features) (i : ℕ) : ℕ :=
  if i = 0 then journalHeaderSize else journalHeaderSize + 16 + i * journalTagBytes f

/-- The bytes of a descriptor or revoke block that are not its checksum. -/
def usableSize (j : Journal) : ℕ := j.jBlocksize - descrCsumSize j.features

/-- How many tags a descriptor block holds. -/
def tagsPerBlock (j : Journal) : ℕ :=
  (usableSize j - (journalHeaderSize + 16)) / journalTagBytes j.features

theorem tagPos_succ (f : Features) (i : ℕ) :
    tagPos f (i + 1) =
      tagPos f i + journalTagBytes f + if tagPos f i = journalHeaderSize then 16 else 0 := by
  rcases Nat.eq_zero_or_pos i with rfl | hi
  · simp only [tagPos, Nat.zero_add, one_ne_zero, if_false, if_true, one_mul]
    omega
  · have h1 : tagPos f i = journalHeaderSize + 16 + i * journalTagBytes f := if_neg (by omega)
    have h2 : tagPos f i ≠ journalHeaderSize := by
      rw [h1]
      omega
    rw [if_neg h2, h1, tagPos, if_neg (by omega), Nat.add_mul]
    omega

theorem tagPos_eq_header (f : Features) (i : ℕ) : tagPos f i = journalHeaderSize ↔ i = 0 := by
  rw [tagPos]
  split <;> omega

theorem header_le_tagPos (f : Features) (i : ℕ) : journalHeaderSize ≤ tagPos f i := by
  rw [tagPos]
  split <;> omega

/-- Tags do not overlap. -/
theorem tagPos_add_le (f : Features) {i k : ℕ} (h : i < k) :
    tagPos f i + journalTagBytes f ≤ tagPos f k := by
  obtain ⟨m, rfl⟩ : ∃ m, k = i + 1 + m := ⟨k - (i + 1), by omega⟩
  induction m with
  | zero =>
    have := tagPos_succ f i
    rw [Nat.add_zero, this]
    omega
  | succ m ih =>
    have h1 := ih (by omega)
    have h2 := tagPos_succ f (i + 1 + m)
    rw [← Nat.add_assoc, h2]
    omega

/-- **A tag fits exactly below the capacity.** -/
theorem tagPos_fits {j : Journal} (hbs : 1024 ≤ j.jBlocksize) (i : ℕ) :
    tagPos j.features i + journalTagBytes j.features ≤ usableSize j ↔ i < tagsPerBlock j := by
  have h1 := journalTagBytes_pos j.features
  have h2 := journalTagBytes_le j.features
  have h3 := descrCsumSize_le j.features
  have hsize : 1020 ≤ usableSize j := by
    rw [usableSize]
    omega
  have hcap : i < tagsPerBlock j ↔ (i + 1) * journalTagBytes j.features ≤
      usableSize j - (journalHeaderSize + 16) := by
    rw [tagsPerBlock, Nat.lt_iff_add_one_le, Nat.le_div_iff_mul_le (by omega)]
  have hheader : journalHeaderSize = 12 := rfl
  rw [hcap, Nat.add_mul, tagPos]
  split
  · next h =>
    subst h
    omega
  · omega

theorem tagsPerBlock_pos {j : Journal} (hbs : 1024 ≤ j.jBlocksize) : 0 < tagsPerBlock j := by
  have h1 := journalTagBytes_le j.features
  have h2 := descrCsumSize_le j.features
  have hheader : journalHeaderSize = 12 := rfl
  rw [← tagPos_fits hbs 0, tagPos, if_pos rfl, usableSize]
  omega

/-! ### Flags and escapes -/

theorem hasFlag_last (first last : Bool) (data : Block) :
    hasFlag (tagFlags first last data) jbd2FlagLastTag = last := by
  rw [tagFlags]
  cases isEscaped data <;> cases first <;> cases last <;> decide

theorem hasFlag_sameUuid (first last : Bool) (data : Block) :
    hasFlag (tagFlags first last data) jbd2FlagSameUuid = !first := by
  rw [tagFlags]
  cases isEscaped data <;> cases first <;> cases last <;> decide

theorem hasFlag_escape (first last : Bool) (data : Block) :
    hasFlag (tagFlags first last data) jbd2FlagEscape = isEscaped data := by
  rw [tagFlags]
  cases isEscaped data <;> cases first <;> cases last <;> decide

theorem tagFlags_lt (first last : Bool) (data : Block) : tagFlags first last data < 256 ^ 2 := by
  rw [tagFlags]
  cases isEscaped data <;> cases first <;> cases last <;> decide

/-- **What was escaped is restored.** -/
theorem unescape_escape (first last : Bool) (data : Block) :
    unescape (tagFlags first last data) (escape data) = data := by
  rw [unescape, hasFlag_escape, escape]
  cases h : isEscaped data with
  | false => rfl
  | true =>
    have hmagic : getBe data 0 4 = jbd2MagicNumber := by simpa [isEscaped] using h
    rw [if_pos rfl, if_pos rfl, ← hmagic, putBe_putBe, putBe_getBe_self]

/-! ### One tag -/

/-- The number a tag of the given block number reads back as. -/
def readNumber (f : Features) (blocknr : ℕ) : ℕ := if f.bit64 then blocknr else blocknr % 2 ^ 32

/-- The tag at offset `o` is the one for the block `x.1` with the data `x.2`. -/
structure TagIs (j : Journal) (tid : ℕ) (b : Block) (o : ℕ) (first last : Bool)
    (x : ℕ × Block) : Prop where
  blocknr : readTagBlock j.features b o = readNumber j.features x.1
  flags : tFlags b o = tagFlags first last x.2
  csum : jbd2BlockTagCsumVerify j b o (escape x.2) tid = true

theorem bit64_tagBytes {f : Features} (h : f.bit64 = true) : 12 ≤ journalTagBytes f := by
  rcases f with ⟨a, b, c, d, e, g⟩
  cases d <;> cases e <;> simp_all [journalTagBytes]

theorem csum3_tagBytes {f : Features} (h : f.csum3 = true) : journalTagBytes f = 16 := by
  simp [journalTagBytes, h]

/-- A tag only depends on its own bytes. -/
theorem TagIs.congr {j : Journal} {tid o : ℕ} {b c : Block} {first last : Bool} {x : ℕ × Block}
    (h : TagIs j tid b o first last x)
    (hbc : ∀ i, o ≤ i → i < o + journalTagBytes j.features → c i = b i) :
    TagIs j tid c o first last x := by
  have h8 := journalTagBytes_pos j.features
  have hfield : ∀ p n, o ≤ p → p + n ≤ o + journalTagBytes j.features →
      getBe c p n = getBe b p n := fun p n h1 h2 =>
    getBe_congr fun i h3 h4 => hbc i (by omega) (by omega)
  constructor
  · rw [← h.blocknr, readTagBlock, readTagBlock, hfield o 4 (by omega) (by omega)]
    split
    · next h64 =>
      have := bit64_tagBytes h64
      rw [hfield (o + 8) 4 (by omega) (by omega)]
    · rfl
  · rw [← h.flags, tFlags, tFlags, hfield (o + 6) 2 (by omega) (by omega)]
  · have hc := h.csum
    rw [jbd2BlockTagCsumVerify] at hc ⊢
    split at hc
    · next hv => rw [if_pos hv]
    · next hv =>
      rw [if_neg hv]
      split at hc
      · next h3 =>
        have := csum3_tagBytes h3
        rw [if_pos h3, hfield (o + 12) 4 (by omega) (by omega)]
        exact hc
      · next h3 =>
        rw [if_neg h3, hfield (o + 4) 2 (by omega) (by omega)]
        exact hc

theorem blockTagCsum_lt {j : Journal} (hseed : j.jCsumSeed < 2 ^ 32) (data : Block)
    (sequence : ℕ) : blockTagCsum j data sequence < 256 ^ 4 := by
  have := ext2fsCrc32cLe_lt (ext2fsCrc32cLe_lt hseed (be32Bytes sequence))
    (bytesOf data j.jBlocksize)
  rw [blockTagCsum, jbd2Chksum, jbd2Chksum]
  omega

/-- A tag checksum is stored in the bytes 4, 5 or 12 to 15 of the tag. -/
theorem getBe_blockTagCsumSet {j : Journal} {b data : Block} {o sequence p n : ℕ}
    (h1 : p + n ≤ o + 4 ∨ o + 6 ≤ p) (h2 : p + n ≤ o + 12 ∨ o + 16 ≤ p) :
    getBe (jbd2BlockTagCsumSet j b o data sequence) p n = getBe b p n := by
  rw [jbd2BlockTagCsumSet]
  split
  · rfl
  · split
    · exact getBe_putBe_of_disjoint (by omega)
    · exact getBe_putBe_of_disjoint (by omega)

/-- A tag checksum that was set verifies. -/
theorem blockTagCsumVerify_set {j : Journal} (hseed : j.jCsumSeed < 2 ^ 32) (b data : Block)
    (o sequence : ℕ) :
    jbd2BlockTagCsumVerify j (jbd2BlockTagCsumSet j b o data sequence) o data sequence = true := by
  rw [jbd2BlockTagCsumVerify, jbd2BlockTagCsumSet]
  split
  · rfl
  · split
    · rw [getBe_putBe _ _ (blockTagCsum_lt hseed _ _), beq_self_eq_true]
    · rw [getBe_putBe_mod]
      simp

/-- **A tag that was filled out reads back.** -/
theorem tagIs_putTag {w : Writer} (hseed : w.journal.jCsumSeed < 2 ^ 32) (tid : ℕ) (jdb : Block)
    (o : ℕ) {blocknr : ℕ} (hnr : blocknr < 2 ^ 64) (last : Bool) (data : Block) :
    TagIs w.journal tid (putTag w tid jdb o blocknr last data) o
      (decide (o = journalHeaderSize)) last (blocknr, data) := by
  have h8 := journalTagBytes_pos w.journal.features
  -- the uuid goes far behind the tag
  have huuid : ∀ (b : Block) p n, p + n ≤ o + 12 →
      getBe (if decide (o = journalHeaderSize) = true then
        putBytes b (o + 12 * journalTagBytes w.journal.features) w.sUuid else b) p n =
      getBe b p n := by
    intro b p n h
    split
    · exact getBe_putBytes_of_disjoint (by omega)
    · rfl
  have hhigh : ∀ (b : Block) v p n, p + n ≤ o + 8 →
      getBe (if w.journal.features.bit64 = true then putBe b (o + 8) 4 v else b) p n =
      getBe b p n := by
    intro b v p n h
    split
    · exact getBe_putBe_of_disjoint (by omega)
    · rfl
  constructor
  · rw [readTagBlock, readNumber, putTag, getBe_blockTagCsumSet (by omega) (by omega),
      hhigh _ _ _ _ (by omega), getBe_putBe_of_disjoint (by omega), huuid _ _ _ (by omega),
      getBe_putBe _ _ (by omega), getBe_blockTagCsumSet (by omega) (by omega)]
    split
    · rw [getBe_putBe_mod]
      omega
    · rfl
  · rw [tFlags, putTag, getBe_blockTagCsumSet (by omega) (by omega), hhigh _ _ _ _ (by omega),
      getBe_putBe _ _ (tagFlags_lt _ _ _)]
  · exact blockTagCsumVerify_set hseed _ _ _ _

/-- Filling out a tag leaves everything before it alone. -/
theorem putTag_of_lt {w : Writer} {tid o blocknr i : ℕ} {jdb data : Block} {last : Bool}
    (h : i < o) : putTag w tid jdb o blocknr last data i = jdb i := by
  have hset : ∀ b : Block, jbd2BlockTagCsumSet w.journal b o (escape data) tid i = b i := by
    intro b
    rw [jbd2BlockTagCsumSet]
    split
    · rfl
    · split
      · exact putBe_of_outside (by omega)
      · exact putBe_of_outside (by omega)
  have hhigh : ∀ b : Block, (if w.journal.features.bit64 = true then
      putBe b (o + 8) 4 (blocknr / 2 ^ 32) else b) i = b i := by
    intro b
    split
    · exact putBe_of_outside (by omega)
    · rfl
  have huuid : ∀ b : Block, (if decide (o = journalHeaderSize) = true then
      putBytes b (o + 12 * journalTagBytes w.journal.features) w.sUuid else b) i = b i := by
    intro b
    split
    · rw [putBytes, if_neg (by omega)]
    · rfl
  rw [putTag, hset, hhigh, putBe_of_outside (by omega), huuid, putBe_of_outside (by omega)]

/-! ### Headers and checksum tails -/

theorem headerIs_putHeader (b : Block) {blocktype tid : ℕ} (h1 : blocktype < 256 ^ 4)
    (h2 : tid < 2 ^ 32) : HeaderIs (putHeader b blocktype tid) blocktype tid := by
  refine ⟨?_, ?_, ?_⟩
  · rw [hMagic, putHeader, getBe_putBe_of_disjoint (by omega), getBe_putBe_of_disjoint (by omega),
      getBe_putBe _ _ (by decide)]
  · rw [hBlocktype, putHeader, getBe_putBe_of_disjoint (by omega), getBe_putBe _ _ h1]
  · rw [hSequence, putHeader, getBe_putBe _ _ (by omega)]

/-- A header only depends on the first twelve bytes. -/
theorem HeaderIs.congr {b c : Block} {blocktype tid : ℕ} (h : HeaderIs b blocktype tid)
    (hbc : ∀ i < journalHeaderSize, c i = b i) : HeaderIs c blocktype tid := by
  have hfield : ∀ p n, p + n ≤ 12 → getBe c p n = getBe b p n := fun p n hp =>
    getBe_congr fun i _ _ => hbc i (by rw [journalHeaderSize]; omega)
  rw [HeaderIs, hMagic, hBlocktype, hSequence, hfield 0 4 (by omega), hfield 4 4 (by omega),
    hfield 8 4 (by omega)]
  exact h

/-- Setting the checksum of a block only changes its last bytes. -/
theorem descrBlockCsumSet_of_lt {j : Journal} {b : Block} {i : ℕ} (h : i < usableSize j) :
    jbd2DescrBlockCsumSet j b i = b i := by
  rw [usableSize, descrCsumSize] at h
  rw [jbd2DescrBlockCsumSet]
  cases hv : j.features.csumV2or3 with
  | false => rfl
  | true =>
    rw [hv, if_pos rfl] at h
    simp only [Bool.not_true, Bool.false_eq_true, if_false]
    rw [putBe_of_outside (by omega), putBe_of_outside (by omega)]

/-- A block whose checksum was set verifies. -/
theorem descriptorBlockCsumVerify_set {j : Journal} (hseed : j.jCsumSeed < 2 ^ 32) (b : Block) :
    jbd2DescriptorBlockCsumVerify j (jbd2DescrBlockCsumSet j b) = true := by
  rw [jbd2DescriptorBlockCsumVerify, jbd2DescrBlockCsumSet]
  cases j.features.csumV2or3 with
  | false => rfl
  | true =>
    have hlt := ext2fsCrc32cLe_lt hseed (bytesOf (putBe b (j.jBlocksize - 4) 4 0) j.jBlocksize)
    simp only [Bool.not_true, Bool.false_eq_true, if_false, jbd2Chksum, putBe_putBe]
    rw [getBe_putBe _ _ (by omega), beq_self_eq_true]

/-! ### A descriptor block -/

/-- The descriptor block `b` has the tags of the blocks `xs`; with `last` the last of
them is marked. -/
structure DescriptorIs (j : Journal) (tid : ℕ) (b : Block) (xs : List (ℕ × Block))
    (last : Bool) : Prop where
  header : HeaderIs b jbd2DescriptorBlock tid
  tags : ∀ i x, xs[i]? = some x → TagIs j tid b (tagPos j.features i) (decide (i = 0))
    (last && decide (i + 1 = xs.length)) x

theorem descriptorIs_nil {j : Journal} {tid : ℕ} {b : Block}
    (h : HeaderIs b jbd2DescriptorBlock tid) (last : Bool) : DescriptorIs j tid b [] last :=
  ⟨h, by simp⟩

namespace DescriptorIs

variable {j : Journal} {tid : ℕ} {b : Block} {xs : List (ℕ × Block)} {last : Bool}

/-- The next tag. -/
theorem put {w : Writer} (h : DescriptorIs w.journal tid b xs false)
    (hseed : w.journal.jCsumSeed < 2 ^ 32) {x : ℕ × Block} (hx : x.1 < 2 ^ 64) (last : Bool) :
    DescriptorIs w.journal tid
      (putTag w tid b (tagPos w.journal.features xs.length) x.1 last x.2) (xs ++ [x]) last := by
  constructor
  · refine h.header.congr fun i hi => putTag_of_lt ?_
    exact hi.trans_le (header_le_tagPos _ _)
  · intro i y hy
    rcases Nat.lt_or_ge i xs.length with hi | hi
    · rw [List.getElem?_append_left hi] at hy
      have hold := h.tags i y hy
      have hflag : (last && decide (i + 1 = (xs ++ [x]).length)) = false := by
        simp only [List.length_append, List.length_singleton, Bool.and_eq_false_imp,
          decide_eq_false_iff_not]
        omega
      rw [hflag]
      refine hold.congr fun k _ hk => putTag_of_lt ?_
      exact hk.trans_le (tagPos_add_le _ hi)
    · obtain rfl : i = xs.length := by
        have := (List.getElem?_eq_some_iff.mp hy).1
        simp only [List.length_append, List.length_singleton] at this
        omega
      obtain rfl : x = y := by simpa using hy
      have hnew := tagIs_putTag hseed tid b (tagPos w.journal.features xs.length) hx last x.2
      simpa [tagPos_eq_header] using hnew

variable (hbs : 1024 ≤ j.jBlocksize)

include hbs

/-- Setting the checksum leaves the tags alone. -/
theorem csumSet (h : DescriptorIs j tid b xs last) (hcap : xs.length ≤ tagsPerBlock j) :
    DescriptorIs j tid (jbd2DescrBlockCsumSet j b) xs last := by
  have hsize : journalHeaderSize < usableSize j := by
    have := descrCsumSize_le j.features
    rw [usableSize, journalHeaderSize]
    omega
  constructor
  · exact h.header.congr fun i hi => descrBlockCsumSet_of_lt (hi.trans hsize)
  · intro i x hx
    have hi := (List.getElem?_eq_some_iff.mp hx).1
    refine (h.tags i x hx).congr fun k _ hk => descrBlockCsumSet_of_lt ?_
    exact hk.trans_le ((tagPos_fits hbs i).mpr (by omega))

/-- The reader's tags from the `i`-th on: induction on how many are left. -/
theorem tagOffsetsFrom_eq (h : DescriptorIs j tid b xs last) (hcap : xs.length ≤ tagsPerBlock j)
    (hend : last = true ∨ xs.length = tagsPerBlock j) :
    ∀ m i fuel, i + m = xs.length → (last = true → 0 < m) → m < fuel →
      tagOffsetsFrom j.features (usableSize j) b fuel (tagPos j.features i) =
        (List.range' i m).map (tagPos j.features) := by
  intro m
  induction m with
  | zero =>
    intro i fuel hi hlast hfuel
    obtain ⟨fuel, rfl⟩ : ∃ n, fuel = n + 1 := ⟨fuel - 1, by omega⟩
    have hi : i = tagsPerBlock j := by
      rcases hend with hl | hl
      · have := hlast hl
        omega
      · omega
    rw [tagOffsetsFrom, if_neg (by rw [tagPos_fits hbs]; omega)]
    rfl
  | succ m ih =>
    intro i fuel hi _ hfuel
    obtain ⟨fuel, rfl⟩ : ∃ n, fuel = n + 1 := ⟨fuel - 1, by omega⟩
    obtain ⟨x, hx⟩ : ∃ x, xs[i]? = some x := ⟨xs[i], List.getElem?_eq_getElem (by omega)⟩
    have htag := h.tags i x hx
    rw [tagOffsetsFrom, if_pos ((tagPos_fits hbs i).mpr (by omega)), htag.flags, hasFlag_last,
      List.range'_succ, List.map_cons]
    by_cases hl : (last && decide (i + 1 = xs.length)) = true
    · rw [if_pos hl]
      have hm : m = 0 := by
        simp only [Bool.and_eq_true, decide_eq_true_eq] at hl
        omega
      subst hm
      rfl
    · rw [if_neg hl]
      have hnext : nextTagp j.features b (tagPos j.features i) = tagPos j.features (i + 1) := by
        rw [nextTagp, htag.flags, hasFlag_sameUuid, tagPos_succ]
        by_cases h0 : i = 0
        · simp [h0, tagPos]
        · simp [h0, tagPos_eq_header]
      rw [hnext, ih (i + 1) fuel (by omega) ?_ (by omega)]
      intro hlast
      simp only [hlast, Bool.true_and, decide_eq_true_eq] at hl
      omega

/-- **The reader finds the tags the writer has written.** -/
theorem tagOffsets_eq (h : DescriptorIs j tid b xs last) (hcap : xs.length ≤ tagsPerBlock j)
    (hend : last = true ∨ xs.length = tagsPerBlock j) (hne : 0 < xs.length) :
    tagOffsets j b = (List.range xs.length).map (tagPos j.features) := by
  have h8 := journalTagBytes_pos j.features
  have hfuel : xs.length < j.jBlocksize := by
    have h1 := (tagPos_fits hbs (xs.length - 1)).mpr (by omega)
    have h2 : xs.length - 1 ≤ (xs.length - 1) * journalTagBytes j.features :=
      Nat.le_mul_of_pos_right _ (by omega)
    rw [tagPos, usableSize, journalHeaderSize] at h1
    split at h1 <;> omega
  rw [List.range_eq_range', tagOffsets]
  exact h.tagOffsetsFrom_eq hbs hcap hend xs.length 0 j.jBlocksize (by omega) (fun _ => hne) hfuel

omit hbs in
theorem zip_tags (xs : List (ℕ × Block)) (f : Features) :
    ((List.range xs.length).map (tagPos f)).zip (xs.map fun x => escape x.2) =
      (List.range xs.length).zipWith (fun i x => (tagPos f i, escape x.2)) xs := by
  rw [List.zip_map, List.zip, List.map_zipWith]
  rfl

/-- **The piece of the log that a descriptor block and its data are.** -/
theorem ok (h : DescriptorIs j tid b xs last) (hcap : xs.length ≤ tagsPerBlock j)
    (hend : last = true ∨ xs.length = tagsPerBlock j) (hne : 0 < xs.length)
    (hcsum : jbd2DescriptorBlockCsumVerify j b = true) :
    (LogPiece.descriptor b (xs.map fun x => escape x.2)).Ok j tid := by
  have hoff := h.tagOffsets_eq hbs hcap hend hne
  refine ⟨h.header, hcsum, by rw [hoff]; simp, ?_⟩
  rw [hoff, zip_tags]
  intro y hy
  obtain ⟨i, hi, rfl⟩ := List.mem_iff_getElem.mp hy
  rw [List.getElem_zipWith, List.getElem_range]
  simp only [List.length_zipWith, List.length_range, min_self] at hi
  exact (h.tags i xs[i] (List.getElem?_eq_getElem hi)).csum

theorem writes_eq (h : DescriptorIs j tid b xs last) (hcap : xs.length ≤ tagsPerBlock j)
    (hend : last = true ∨ xs.length = tagsPerBlock j) (hne : 0 < xs.length) :
    (LogPiece.descriptor b (xs.map fun x => escape x.2)).writes j =
      xs.map fun x => (readNumber j.features x.1, x.2) := by
  rw [LogPiece.writes, h.tagOffsets_eq hbs hcap hend hne, zip_tags, List.map_zipWith]
  refine List.ext_getElem (by simp) fun i h1 h2 => ?_
  simp only [List.length_map] at h2
  have htag := h.tags i xs[i] (List.getElem?_eq_getElem h2)
  rw [List.getElem_zipWith, List.getElem_range, List.getElem_map]
  simp only [htag.blocknr, htag.flags, unescape_escape]

end DescriptorIs

/-! ### A revoke block -/

/-- How many records a revoke block holds. -/
def recordsPerBlock (j : Journal) : ℕ :=
  (usableSize j - revokeHeaderSize) / recordLen j.features

theorem recordLen_pos (f : Features) : 0 < recordLen f := by
  rw [recordLen]
  split <;> omega

theorem recordLen_le (f : Features) : recordLen f ≤ 8 := by
  rw [recordLen]
  split <;> omega

/-- **A record fits exactly below the capacity.** -/
theorem record_fits {j : Journal} (hbs : 1024 ≤ j.jBlocksize) (i : ℕ) :
    revokeHeaderSize + i * recordLen j.features + recordLen j.features ≤ usableSize j ↔
      i < recordsPerBlock j := by
  have h1 := recordLen_pos j.features
  have h2 := descrCsumSize_le j.features
  have hheader : revokeHeaderSize = 16 := rfl
  have hsize : 1020 ≤ usableSize j := by
    rw [usableSize]
    omega
  rw [recordsPerBlock, Nat.lt_iff_add_one_le, Nat.le_div_iff_mul_le h1, Nat.add_mul]
  omega

theorem recordsPerBlock_pos {j : Journal} (hbs : 1024 ≤ j.jBlocksize) :
    0 < recordsPerBlock j := by
  have h1 := recordLen_le j.features
  have h2 := descrCsumSize_le j.features
  have hheader : revokeHeaderSize = 16 := rfl
  rw [← record_fits hbs 0, usableSize]
  omega

/-- The revoke block `b` has the records of the blocks `rs`. -/
structure RevokeIs (j : Journal) (tid : ℕ) (b : Block) (rs : List ℕ) : Prop where
  header : HeaderIs b jbd2RevokeBlock tid
  records : ∀ i x, rs[i]? = some x →
    getBe b (revokeHeaderSize + i * recordLen j.features) (recordLen j.features) =
      readNumber j.features x

theorem revokeIs_nil {j : Journal} {tid : ℕ} {b : Block} (h : HeaderIs b jbd2RevokeBlock tid) :
    RevokeIs j tid b [] :=
  ⟨h, by simp⟩

namespace RevokeIs

variable {j : Journal} {tid : ℕ} {b : Block} {rs : List ℕ}

/-- The next record. -/
theorem put (h : RevokeIs j tid b rs) {x : ℕ} (hx : x < 2 ^ 64) :
    RevokeIs j tid
      (putBe b (revokeHeaderSize + rs.length * recordLen j.features) (recordLen j.features) x)
      (rs ++ [x]) := by
  have hheader : revokeHeaderSize = 16 := rfl
  constructor
  · refine h.header.congr fun i hi => putBe_of_outside ?_
    rw [journalHeaderSize] at hi
    omega
  · intro i y hy
    rcases Nat.lt_or_ge i rs.length with hi | hi
    · rw [List.getElem?_append_left hi] at hy
      have hle : (i + 1) * recordLen j.features ≤ rs.length * recordLen j.features :=
        Nat.mul_le_mul_right _ (by omega)
      rw [Nat.add_mul, one_mul] at hle
      rw [getBe_putBe_of_disjoint (by omega)]
      exact h.records i y hy
    · obtain rfl : i = rs.length := by
        have := (List.getElem?_eq_some_iff.mp hy).1
        simp only [List.length_append, List.length_singleton] at this
        omega
      obtain rfl : x = y := by simpa using hy
      rw [getBe_putBe_mod, readNumber, recordLen]
      cases j.features.bit64 with
      | false => rfl
      | true =>
        rw [if_pos rfl, if_pos rfl]
        exact Nat.mod_eq_of_lt (by omega)

/-- Writing the block out – its byte count and its checksum – leaves the records
alone. -/
theorem close (hbs : 1024 ≤ j.jBlocksize) (h : RevokeIs j tid b rs)
    (hcap : rs.length ≤ recordsPerBlock j) (count : ℕ) :
    RevokeIs j tid (jbd2DescrBlockCsumSet j (putBe b 12 4 count)) rs := by
  have hheader : revokeHeaderSize = 16 := rfl
  have hsize : 1020 ≤ usableSize j := by
    have := descrCsumSize_le j.features
    rw [usableSize]
    omega
  constructor
  · refine h.header.congr fun i hi => ?_
    rw [journalHeaderSize] at hi
    rw [descrBlockCsumSet_of_lt (by omega), putBe_of_outside (by omega)]
  · intro i x hx
    have hi := (List.getElem?_eq_some_iff.mp hx).1
    have hfit := (record_fits hbs i).mpr (by omega)
    rw [← h.records i x hx]
    refine getBe_congr fun k _ _ => ?_
    rw [descrBlockCsumSet_of_lt (by omega), putBe_of_outside (by omega)]

theorem rCount_close (hbs : 1024 ≤ j.jBlocksize) {count : ℕ} (hc : count < 2 ^ 32) :
    rCount (jbd2DescrBlockCsumSet j (putBe b 12 4 count)) = count := by
  have hsize : 1020 ≤ usableSize j := by
    have := descrCsumSize_le j.features
    rw [usableSize]
    omega
  calc rCount (jbd2DescrBlockCsumSet j (putBe b 12 4 count))
      = getBe (putBe b 12 4 count) 12 4 :=
        getBe_congr fun i _ _ => descrBlockCsumSet_of_lt (by omega)
    _ = count := getBe_putBe _ _ (by omega)

/-- **The reader finds the records the writer has written.** -/
theorem revokeRecords_eq (h : RevokeIs j tid b rs)
    (hc : rCount b = revokeHeaderSize + rs.length * recordLen j.features) :
    revokeRecords j.features b (rCount b) = rs.map (readNumber j.features) := by
  have hn : (rCount b - revokeHeaderSize) / recordLen j.features = rs.length := by
    rw [hc, Nat.add_sub_cancel_left, Nat.mul_div_cancel _ (recordLen_pos _)]
  rw [revokeRecords, hn]
  refine List.ext_getElem (by simp) fun i h1 h2 => ?_
  simp only [List.length_map] at h2
  rw [List.getElem_map, List.getElem_map, List.getElem_range]
  exact h.records i rs[i] (List.getElem?_eq_getElem h2)

end RevokeIs

/-! ### A commit block -/

section Commit

variable {j : Journal} {tid tvSec tvNsec : ℕ} {csumV1 : Option ℕ}

theorem commitBlock_header (htid : tid < 2 ^ 32) :
    HeaderIs (commitBlock j tid csumV1 tvSec tvNsec) jbd2CommitBlock tid := by
  refine (headerIs_putHeader zeroBlock (by decide) htid).congr fun i hi => ?_
  rw [journalHeaderSize] at hi
  have hset : ∀ b : Block, jbd2CommitBlockCsumSet j b i = b i := by
    intro b
    rw [jbd2CommitBlockCsumSet]
    split
    · rfl
    · simp only [putBe_of_outside (Or.inl (by omega : i < 16)),
        putBe_of_outside (Or.inl (by omega : i < 13)),
        putBe_of_outside (Or.inl (by omega : i < 12))]
  unfold commitBlock
  rw [hset, putBe_of_outside (by omega), putBe_of_outside (by omega),
    putBe_of_outside (by omega)]
  cases csumV1 <;> dsimp only <;>
    rw [putBe_of_outside (by omega), putBe_of_outside (by omega), putBe_of_outside (by omega)]

/-- A commit block verifies. -/
theorem commitBlock_csum (hseed : j.jCsumSeed < 2 ^ 32) :
    jbd2CommitBlockCsumVerify j (commitBlock j tid csumV1 tvSec tvNsec) = true := by
  unfold commitBlock
  rw [jbd2CommitBlockCsumVerify, jbd2CommitBlockCsumSet]
  cases j.features.csumV2or3 with
  | false => rfl
  | true =>
    simp only [Bool.not_true, Bool.false_eq_true, if_false, jbd2Chksum, hChksum, putBe_putBe]
    rw [getBe_putBe _ _ (lt_of_lt_of_le (ext2fsCrc32cLe_lt hseed _) (by norm_num)),
      beq_self_eq_true]

/-- **The whole-transaction checksum of a commit block is the one it was given.** -/
theorem commitBlock_mismatch (hv : j.features.csumV2or3 = false) {crc crc' : ℕ}
    (hc : crc < 2 ^ 32) :
    chksumMismatch crc' (commitBlock j tid (some crc) tvSec tvNsec) = decide (crc' ≠ crc) := by
  have hb : commitBlock j tid (some crc) tvSec tvNsec = putBe (putBe (putBe (putBe (putBe (putBe
      (putHeader zeroBlock jbd2CommitBlock tid) 12 1 jbd2Crc32Chksum) 13 1 jbd2Crc32ChksumSize)
      16 4 crc) 48 4 tvSec) 52 4 0) 56 4 tvNsec := by
    rw [commitBlock, jbd2CommitBlockCsumSet, hv]
    rfl
  have hfield : ∀ p n, p + n ≤ 48 → getBe (commitBlock j tid (some crc) tvSec tvNsec) p n =
      getBe (putBe (putBe (putBe (putHeader zeroBlock jbd2CommitBlock tid) 12 1 jbd2Crc32Chksum)
        13 1 jbd2Crc32ChksumSize) 16 4 crc) p n := by
    intro p n h
    rw [hb, getBe_putBe_of_disjoint (by omega), getBe_putBe_of_disjoint (by omega),
      getBe_putBe_of_disjoint (by omega)]
  have hsum : hChksum (commitBlock j tid (some crc) tvSec tvNsec) = crc := by
    rw [hChksum, hfield 16 4 (by omega), getBe_putBe _ _ (by omega)]
  have htype : hChksumType (commitBlock j tid (some crc) tvSec tvNsec) = jbd2Crc32Chksum := by
    rw [hChksumType, hfield 12 1 (by omega), getBe_putBe_of_disjoint (by omega),
      getBe_putBe_of_disjoint (by omega), getBe_putBe _ _ (by decide)]
  have hsize : hChksumSize (commitBlock j tid (some crc) tvSec tvNsec) = jbd2Crc32ChksumSize := by
    rw [hChksumSize, hfield 13 1 (by omega), getBe_putBe_of_disjoint (by omega),
      getBe_putBe _ _ (by decide)]
  rw [chksumMismatch, hsum, htype, hsize]
  by_cases h : crc' = crc <;> simp [h, jbd2Crc32Chksum, jbd2Crc32ChksumSize]

end Commit

end E2fsprogs
