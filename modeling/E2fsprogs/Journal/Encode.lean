import E2fsprogs.Journal.Descriptor
import E2fsprogs.Lib.Except

/-!
# What `journal_write` puts into the log

The writing loops, one round at a time, and what they come to: a successful call
lays a complete transaction into the log, block after block from its start
(`E2fsprogs.Emitted`), with the tags, records and checksums a reader will look for.

The two loops are alike. Each keeps a buffer that it writes out when it is full, so
at any time there are the pieces already in the log and the one in the buffer
(`E2fsprogs.AddInv`, `E2fsprogs.RevokeInv`). A piece that was written out because it
was full holds exactly as many entries as fit, which is what makes the number of
blocks a function of the lengths of the lists.
-/

namespace E2fsprogs

/-! ### The log of a writer -/

/-- A writer with another log. -/
def Writer.withLog (w : Writer) (dev : ℕ → Option Block) (logWrites : List ℕ) : Writer :=
  { w with journal := { w.journal with jDev := dev }, logWrites := logWrites }

theorem Writer.write_eq_ok {w w' : Writer} {blk : ℕ} {b : Block} (h : w.write blk b = .ok w') :
    w' = w.withLog (Function.update w.journal.jDev blk (some b)) (blk :: w.logWrites) := by
  rw [Writer.write] at h
  split at h
  · cases h
    rfl
  · cases h

/-- The blocks `bs` lie one after the other from the index `start` on. -/
def Laid (dev : ℕ → Option Block) (start : ℕ) (bs : List Block) : Prop :=
  ∀ k b, bs[k]? = some b → dev (start + k) = some b

section Laid

variable {dev dev' : ℕ → Option Block} {start : ℕ} {bs cs : List Block}

theorem laid_nil : Laid dev start [] := by
  intro k b h
  simp at h

theorem laid_cons {b : Block} :
    Laid dev start (b :: bs) ↔ dev start = some b ∧ Laid dev (start + 1) bs := by
  constructor
  · intro h
    refine ⟨h 0 b rfl, fun k c hk => ?_⟩
    have := h (k + 1) c (by simpa using hk)
    rwa [Nat.add_comm k 1, ← Nat.add_assoc] at this
  · rintro ⟨h0, h⟩ k c hk
    cases k with
    | zero =>
      obtain rfl : b = c := by simpa using hk
      exact h0
    | succ k =>
      have := h k c (by simpa using hk)
      rwa [Nat.add_assoc, Nat.add_comm 1 k] at this

theorem laid_append : Laid dev start (bs ++ cs) ↔
    Laid dev start bs ∧ Laid dev (start + bs.length) cs := by
  induction bs generalizing start with
  | nil => simp [laid_nil]
  | cons b bs ih =>
    rw [List.cons_append, laid_cons, laid_cons, ih, List.length_cons, and_assoc, Nat.add_assoc,
      Nat.add_comm 1]

/-- What is not written over stays. -/
theorem Laid.congr (h : Laid dev start bs)
    (hd : ∀ i, start ≤ i → i < start + bs.length → dev' i = dev i) : Laid dev' start bs := by
  intro k b hk
  have hlt := (List.getElem?_eq_some_iff.mp hk).1
  rw [hd (start + k) (by omega) (by omega)]
  exact h k b hk

end Laid

/-- A writer that went from `w` to `w'` by laying `bs` into the log from `start` on and
touching nothing else. -/
structure Emitted (w w' : Writer) (start : ℕ) (bs : List Block) : Prop where
  same : w' = w.withLog w'.journal.jDev w'.logWrites
  laid : Laid w'.journal.jDev start bs
  frame : ∀ i, i < start ∨ start + bs.length ≤ i → w'.journal.jDev i = w.journal.jDev i
  writes : ∃ new, w'.logWrites = new ++ w.logWrites ∧
    ∀ i ∈ new, start ≤ i ∧ i < start + bs.length

theorem emitted_nil (w : Writer) (start : ℕ) : Emitted w w start [] where
  same := rfl
  laid := laid_nil
  frame := fun _ _ => rfl
  writes := ⟨[], rfl, by simp⟩

theorem Emitted.append {w w₁ w₂ : Writer} {start : ℕ} {bs cs : List Block}
    (h₁ : Emitted w w₁ start bs) (h₂ : Emitted w₁ w₂ (start + bs.length) cs) :
    Emitted w w₂ start (bs ++ cs) where
  same := by
    rw [h₂.same, h₁.same]
    rfl
  laid := by
    refine laid_append.mpr ⟨h₁.laid.congr fun i _ hi => h₂.frame i (Or.inl hi), h₂.laid⟩
  frame := by
    intro i hi
    rw [List.length_append] at hi
    rw [h₂.frame i (by omega), h₁.frame i (by omega)]
  writes := by
    obtain ⟨new₁, hn₁, hr₁⟩ := h₁.writes
    obtain ⟨new₂, hn₂, hr₂⟩ := h₂.writes
    refine ⟨new₂ ++ new₁, by rw [hn₂, hn₁, List.append_assoc], fun i hi => ?_⟩
    rw [List.length_append]
    rcases List.mem_append.mp hi with h | h
    · have := hr₂ i h
      omega
    · have := hr₁ i h
      omega

/-- Writing one block at the end. -/
theorem Emitted.write {w w₁ w₂ : Writer} {start blk : ℕ} {bs : List Block} {b : Block}
    (h : Emitted w w₁ start bs) (hblk : blk = start + bs.length) (hw : w₁.write blk b = .ok w₂) :
    Emitted w w₂ start (bs ++ [b]) := by
  have he := Writer.write_eq_ok hw
  refine h.append ⟨?_, ?_, ?_, ?_⟩
  · rw [he]
    rfl
  · rw [← hblk, laid_cons, he]
    exact ⟨Function.update_self _ _ _, laid_nil⟩
  · intro i hi
    rw [he]
    refine Function.update_of_ne ?_ _ _
    rw [List.length_singleton] at hi
    omega
  · refine ⟨[blk], by rw [he]; rfl, fun i hi => ?_⟩
    obtain rfl := List.mem_singleton.mp hi
    rw [List.length_singleton]
    omega

/-! ### Descriptor blocks -/

/-- The blocks of a list of pieces, in order. -/
def pieceBlocks (ps : List LogPiece) : List Block := ps.flatMap LogPiece.blocks

/-- How a reader sees what the writer was asked to write. -/
def readBack (f : Features) (x : ℕ × Block) : ℕ × Block := (readNumber f x.1, x.2)

/-- The descriptor block and the data for the blocks `xs`. -/
def descriptorPiece (b : Block) (xs : List (ℕ × Block)) : LogPiece :=
  .descriptor b (xs.map fun x => escape x.2)

/-- What a journal needs for its blocks to be filled in as meant. -/
structure Writable (j : Journal) : Prop where
  blocksize : 1024 ≤ j.jBlocksize
  blocksize_le : j.jBlocksize ≤ 65536
  seed : j.jCsumSeed < 2 ^ 32

/-- The state of the loop over the block list: the pieces `done` are in the log, the
data blocks of `cur` are too, the descriptor block for them is in the buffer. -/
structure AddInv (w₀ : Writer) (tid start : ℕ) (done : List LogPiece) (cur : List (ℕ × Block))
    (last : Bool) (all : List (ℕ × Block)) (s : AddBlocks) : Prop where
  same : s.w = w₀.withLog s.w.journal.jDev s.w.logWrites
  jdbBlk : s.jdbBlk = start + (pieceBlocks done).length
  currBlk : s.currBlk = s.jdbBlk + 1 + cur.length
  jdbt : s.jdbt = tagPos w₀.journal.features cur.length
  cap : cur.length ≤ tagsPerBlock w₀.journal
  laid : Laid s.w.journal.jDev start (pieceBlocks done)
  data : Laid s.w.journal.jDev (s.jdbBlk + 1) (cur.map fun x => escape x.2)
  jdb : DescriptorIs w₀.journal tid s.jdb cur last
  frame : ∀ i, i < start ∨ s.currBlk ≤ i → s.w.journal.jDev i = w₀.journal.jDev i
  writes : ∃ new, s.w.logWrites = new ++ w₀.logWrites ∧ ∀ i ∈ new, start ≤ i ∧ i < s.currBlk
  ok : ∀ p ∈ done, p.Ok w₀.journal tid
  full : (pieceBlocks done).length = done.length * (tagsPerBlock w₀.journal + 1)
  count : all.length = done.length * tagsPerBlock w₀.journal + cur.length
  read : done.flatMap (LogPiece.writes w₀.journal) ++ cur.map (readBack w₀.journal.features) =
    all.map (readBack w₀.journal.features)
  descriptors : ∀ p ∈ done, ∃ b xs, p = descriptorPiece b xs
  bound : ∀ x ∈ all, x.1 < w₀.blocksCount

theorem addInv_start (w : Writer) {tid : ℕ} (htid : tid < 2 ^ 32) (start : ℕ) :
    AddInv w tid start [] [] false []
      { w := w
        currBlk := start + 1
        jdbBlk := start
        jdbt := journalHeaderSize
        jdb := putHeader zeroBlock jbd2DescriptorBlock tid } where
  same := rfl
  jdbBlk := rfl
  currBlk := rfl
  jdbt := rfl
  cap := Nat.zero_le _
  laid := laid_nil
  data := laid_nil
  jdb := descriptorIs_nil (headerIs_putHeader zeroBlock (by decide) htid) false
  frame := fun _ _ => rfl
  writes := ⟨[], rfl, by simp⟩
  ok := by simp
  full := by simp [pieceBlocks]
  count := by simp
  read := rfl
  descriptors := by simp
  bound := by simp

/-- **The descriptor and data blocks for a list of blocks**, as a function of the list:
the tags so far are in `jdb`, the next goes to `jdbt`, and `data` are the data blocks
that go with them. -/
def descriptorBlocks (w : Writer) (tid : ℕ) : List (ℕ × Block) → ℕ → Block → List Block →
    List Block
  | [], _, jdb, data => jbd2DescrBlockCsumSet w.journal jdb :: data
  | x :: rest, jdbt, jdb, data =>
      if usableSize w.journal < jdbt + journalTagBytes w.journal.features then
        let jdb := jbd2DescrBlockCsumSet w.journal jdb
        (jdb :: data) ++ descriptorBlocks w tid rest
          (journalHeaderSize + journalTagBytes w.journal.features + 16)
          (putTag w tid jdb journalHeaderSize x.1 rest.isEmpty x.2) [escape x.2]
      else
        descriptorBlocks w tid rest
          (jdbt + journalTagBytes w.journal.features + if jdbt = journalHeaderSize then 16 else 0)
          (putTag w tid jdb jdbt x.1 rest.isEmpty x.2) (data ++ [escape x.2])

/-- What will be in the log once the blocks `rest` have been added. -/
def blocksToCome (w₀ : Writer) (tid : ℕ) (done : List LogPiece) (cur : List (ℕ × Block))
    (s : AddBlocks) (rest : List (ℕ × Block)) : List Block :=
  pieceBlocks done ++ descriptorBlocks w₀ tid rest s.jdbt s.jdb (cur.map fun x => escape x.2)

namespace AddInv

variable {w₀ : Writer} {tid start : ℕ} {done : List LogPiece} {cur all : List (ℕ × Block)}
  {last : Bool} {s s' : AddBlocks}

/-- Writing the descriptor block out completes a piece. -/
theorem flush (hj : Writable w₀.journal) (h : AddInv w₀ tid start done cur last all s)
    (hne : 0 < cur.length) (hend : last = true ∨ cur.length = tagsPerBlock w₀.journal)
    (hs : flushDescriptor s = .ok s') :
    s'.currBlk = s.currBlk ∧ s'.jdb = jbd2DescrBlockCsumSet w₀.journal s.jdb ∧
      HeaderIs s'.jdb jbd2DescriptorBlock tid ∧
      Emitted w₀ s'.w start (pieceBlocks (done ++ [descriptorPiece s'.jdb cur])) ∧
      (descriptorPiece s'.jdb cur).Ok w₀.journal tid ∧
      (descriptorPiece s'.jdb cur).writes w₀.journal = cur.map (readBack w₀.journal.features) := by
  obtain ⟨w, hw, hs⟩ := bind_eq_ok.mp hs
  obtain rfl := pure_eq_ok.mp hs
  have he := Writer.write_eq_ok hw
  have hjdb : jbd2DescrBlockCsumSet s.w.journal s.jdb = jbd2DescrBlockCsumSet w₀.journal s.jdb := by
    rw [h.same]
    rfl
  have hdesc := h.jdb.csumSet hj.blocksize h.cap
  have hcsum := descriptorBlockCsumVerify_set hj.seed s.jdb
  have hlen :
    (pieceBlocks (done ++ [descriptorPiece (jbd2DescrBlockCsumSet w₀.journal s.jdb) cur])).length
      = (pieceBlocks done).length + (cur.length + 1) := by
    simp [pieceBlocks, descriptorPiece, LogPiece.blocks]
  have hcurr := h.currBlk
  have hjdbBlk := h.jdbBlk
  simp only [hjdb] at hw he ⊢
  refine ⟨trivial, trivial, hdesc.header, ⟨?_, ?_, ?_, ?_⟩, ?_, ?_⟩
  · rw [he, h.same]
    rfl
  -- only the descriptor's own block is written
  · have hold : ∀ i, i ≠ s.jdbBlk → w.journal.jDev i = s.w.journal.jDev i := by
      intro i hi
      rw [he]
      exact Function.update_of_ne hi _ _
    have hnew : w.journal.jDev s.jdbBlk = some (jbd2DescrBlockCsumSet w₀.journal s.jdb) := by
      rw [he]
      exact Function.update_self _ _ _
    have hb : pieceBlocks (done ++ [descriptorPiece (jbd2DescrBlockCsumSet w₀.journal s.jdb) cur]) =
        pieceBlocks done ++ jbd2DescrBlockCsumSet w₀.journal s.jdb ::
          cur.map fun x => escape x.2 := by
      simp [pieceBlocks, descriptorPiece, LogPiece.blocks]
    rw [hb, laid_append, laid_cons, ← hjdbBlk]
    refine ⟨h.laid.congr fun i _ hi => hold i (by omega), hnew,
      h.data.congr fun i hi _ => hold i (by omega)⟩
  · intro i hi
    rw [hlen] at hi
    rw [he]
    refine (Function.update_of_ne (by omega) _ _).trans (h.frame i (by omega))
  · obtain ⟨new, hn, hr⟩ := h.writes
    refine ⟨s.jdbBlk :: new, ?_, fun i hi => ?_⟩
    · rw [he]
      exact congrArg _ hn
    · rw [hlen]
      rcases List.mem_cons.mp hi with rfl | hi
      · omega
      · have := hr i hi
        omega
  · exact hdesc.ok hj.blocksize h.cap hend hne hcsum
  · exact hdesc.writes_eq hj.blocksize h.cap hend hne

/-- Making room for a tag. -/
theorem makeRoom (hj : Writable w₀.journal) (h : AddInv w₀ tid start done cur false all s)
    (hs : E2fsprogs.makeRoom s = .ok s') :
    ∃ done' cur', AddInv w₀ tid start done' cur' false all s' ∧
      cur'.length < tagsPerBlock w₀.journal ∧
      (s' = s ∧ done' = done ∧ cur' = cur ∨
        cur.length = tagsPerBlock w₀.journal ∧ s'.jdbt = journalHeaderSize ∧
        s'.jdb = jbd2DescrBlockCsumSet w₀.journal s.jdb ∧
        done' = done ++ [descriptorPiece s'.jdb cur] ∧ cur' = []) := by
  have hpos := tagsPerBlock_pos hj.blocksize
  have hfit := tagPos_fits (j := w₀.journal) hj.blocksize cur.length
  -- the test on the bytes is a count of the tags already in the block
  have hguard : (s.w.journal.jBlocksize - descrCsumSize s.w.journal.features <
      s.jdbt + journalTagBytes s.w.journal.features) ↔
      ¬cur.length < tagsPerBlock w₀.journal := by
    rw [h.same, h.jdbt, ← hfit]
    exact Nat.not_le.symm
  rw [E2fsprogs.makeRoom] at hs
  split at hs
  · next hfull =>
    have hcap := h.cap
    have hlen : cur.length = tagsPerBlock w₀.journal := by
      have := hguard.mp hfull
      omega
    obtain ⟨s₁, hs₁, hs⟩ := bind_eq_ok.mp hs
    obtain rfl := pure_eq_ok.mp hs
    obtain ⟨h1, h2, hhead, hem, hok, hwr⟩ := h.flush hj (by omega) (Or.inr hlen) hs₁
    have hblocks : (pieceBlocks (done ++ [descriptorPiece s₁.jdb cur])).length =
        (pieceBlocks done).length + (cur.length + 1) := by
      simp [pieceBlocks, descriptorPiece, LogPiece.blocks]
    refine ⟨done ++ [descriptorPiece s₁.jdb cur], [], ?_, hpos,
      Or.inr ⟨hlen, rfl, h2, rfl, rfl⟩⟩
    have hcurr := h.currBlk
    have hjdb := h.jdbBlk
    have hcount := h.count
    have hfull := h.full
    exact
      { same := hem.same
        jdbBlk := by
          rw [hblocks]
          simp only
          omega
        currBlk := rfl
        jdbt := rfl
        cap := Nat.zero_le _
        laid := hem.laid
        data := laid_nil
        jdb := descriptorIs_nil hhead false
        frame := by
          intro i hi
          simp only at hi
          exact hem.frame i (by omega)
        writes := by
          obtain ⟨new, hn, hr⟩ := hem.writes
          refine ⟨new, hn, fun i hi => ?_⟩
          have := hr i hi
          simp only
          omega
        ok := by
          intro p hp
          rcases List.mem_append.mp hp with hp | hp
          · exact h.ok p hp
          · obtain rfl := List.mem_singleton.mp hp
            exact hok
        full := by
          rw [hblocks, hfull, List.length_append, List.length_singleton, hlen]
          ring
        count := by
          rw [hcount, List.length_append, List.length_singleton, hlen]
          simp only [List.length_nil]
          ring
        read := by
          rw [← h.read, List.flatMap_append, List.flatMap_singleton, hwr]
          simp
        descriptors := by
          intro p hp
          rcases List.mem_append.mp hp with hp | hp
          · exact h.descriptors p hp
          · exact ⟨_, _, List.mem_singleton.mp hp⟩
        bound := h.bound }
  · next hroom =>
    cases hs
    exact ⟨done, cur, h, by have := mt hguard.mpr hroom; omega, Or.inl ⟨rfl, rfl, rfl⟩⟩

/-- One round of the loop. -/
theorem addBlock (hj : Writable w₀.journal) (h : AddInv w₀ tid start done cur false all s)
    {blocknr : ℕ} {d : Block} (last : Bool)
    (hs : E2fsprogs.addBlock tid last blocknr d s = .ok s') :
    ∃ done' cur', AddInv w₀ tid start done' cur' last (all ++ [(blocknr, d)]) s' ∧
      0 < cur'.length ∧ ∀ rest : List (ℕ × Block), rest.isEmpty = last →
        blocksToCome w₀ tid done cur s ((blocknr, d) :: rest) =
          blocksToCome w₀ tid done' cur' s' rest := by
  obtain ⟨s₁, hs₁, hs⟩ := bind_eq_ok.mp hs
  obtain ⟨done', cur', h₁, hroom, hcase⟩ := h.makeRoom hj hs₁
  obtain ⟨hnr, hs⟩ := ite_error_eq_ok.mp hs
  obtain ⟨w, hw, hs⟩ := bind_eq_ok.mp hs
  obtain rfl := pure_eq_ok.mp hs
  have he := Writer.write_eq_ok hw
  have hnr : blocknr < w₀.blocksCount := by
    have : s₁.w.blocksCount = w₀.blocksCount := by rw [h₁.same]; rfl
    omega
  have hput : putTag s₁.w tid s₁.jdb s₁.jdbt blocknr last d =
      putTag w₀ tid s₁.jdb (tagPos w₀.journal.features cur'.length) blocknr last d := by
    rw [h₁.same, h₁.jdbt]
    rfl
  have htag : journalTagBytes s₁.w.journal.features = journalTagBytes w₀.journal.features := by
    rw [h₁.same]
    rfl
  have hcurr := h₁.currBlk
  have hjdb := h₁.jdbBlk
  have hcount := h₁.count
  -- only the data block is written; the tag goes into the buffer
  have hold : ∀ i, i ≠ s₁.currBlk → w.journal.jDev i = s₁.w.journal.jDev i := by
    intro i hi
    rw [he]
    exact Function.update_of_ne hi _ _
  have hnew : w.journal.jDev s₁.currBlk = some (escape d) := by
    rw [he]
    exact Function.update_self _ _ _
  have hfit := tagPos_fits (j := w₀.journal) hj.blocksize
  refine ⟨done', cur' ++ [(blocknr, d)], ?_, by simp, ?_⟩
  swap
  · rintro rest rfl
    simp only [blocksToCome, hput, htag]
    rcases hcase with ⟨rfl, rfl, rfl⟩ | ⟨hlen, hjdbt, hbuf, rfl, rfl⟩
    · rw [descriptorBlocks, if_neg (by rw [h₁.jdbt, Nat.not_lt, hfit]; exact hroom), ← h₁.jdbt,
        List.map_append]
      rfl
    · rw [descriptorBlocks, if_pos (by rw [h.jdbt, ← Nat.not_le, hfit]; omega), hjdbt, hbuf,
        if_pos rfl]
      simp [pieceBlocks, descriptorPiece, LogPiece.blocks, tagPos]
  exact
    { same := by
        rw [he, h₁.same]
        rfl
      jdbBlk := hjdb
      currBlk := by
        rw [List.length_append, List.length_singleton]
        simp only
        omega
      jdbt := by
        rw [List.length_append, List.length_singleton, tagPos_succ, ← h₁.jdbt, ← htag]
      cap := by
        rw [List.length_append, List.length_singleton]
        exact hroom
      laid := h₁.laid.congr fun i _ hi => hold i (by omega)
      data := by
        rw [List.map_append, laid_append, List.length_map]
        refine ⟨h₁.data.congr fun i _ hi => hold i ?_, ?_⟩
        · rw [List.length_map] at hi
          omega
        · rw [List.map_singleton, laid_cons, ← hcurr]
          exact ⟨hnew, laid_nil⟩
      jdb := by
        rw [hput]
        exact h₁.jdb.put (x := (blocknr, d)) hj.seed (hnr.trans w₀.blocksCount_lt) last
      frame := by
        intro i hi
        simp only at hi
        rw [hold i (by omega), h₁.frame i (by omega)]
      writes := by
        obtain ⟨new, hn, hr⟩ := h₁.writes
        refine ⟨s₁.currBlk :: new, ?_, fun i hi => ?_⟩
        · rw [he]
          exact congrArg _ hn
        · simp only
          rcases List.mem_cons.mp hi with rfl | hi
          · omega
          · have := hr i hi
            omega
      ok := h₁.ok
      full := h₁.full
      count := by
        rw [List.length_append, List.length_append, hcount, Nat.add_assoc]
      read := by
        rw [List.map_append, List.map_append, ← List.append_assoc, h₁.read]
      descriptors := h₁.descriptors
      bound := by
        intro x hx
        rcases List.mem_append.mp hx with hx | hx
        · exact h₁.bound x hx
        · obtain rfl := List.mem_singleton.mp hx
          exact hnr }

/-- The whole loop: induction on the block list. Only its last round marks its tag. -/
theorem loop {errno : ℕ} (hj : Writable w₀.journal) : ∀ (blockList : List ℕ)
    (fp : List Block) {done : List LogPiece} {cur all : List (ℕ × Block)} {s s' : AddBlocks}
    {ended : Bool}, AddInv w₀ tid start done cur false all s → blockList ≠ [] →
    blockList.length ≤ fp.length →
    addBlocksLoop tid errno blockList fp s = .ok (s', ended) → ended = true ∧
    ∃ done' cur', AddInv w₀ tid start done' cur' true (all ++ blockList.zip fp) s' ∧
      0 < cur'.length ∧ blocksToCome w₀ tid done cur s (blockList.zip fp) =
        blocksToCome w₀ tid done' cur' s' [] := by
  intro blockList
  induction blockList with
  | nil => intro fp done cur all s s' ended _ hne; exact absurd rfl hne
  | cons blocknr blockList ih =>
    intro fp done cur all s s' ended h _ hlen hs
    cases fp with
    | nil => simp at hlen
    | cons d fp =>
      have hlen : blockList.length ≤ fp.length := by simpa using hlen
      rw [addBlocksLoop] at hs
      obtain ⟨s₁, hs₁, hs⟩ := bind_eq_ok.mp hs
      obtain ⟨done', cur', h₁, hpos, hcome⟩ := h.addBlock hj _ hs₁
      cases blockList with
      | nil =>
        cases hs
        exact ⟨rfl, done', cur', h₁, hpos, hcome [] rfl⟩
      | cons n ns =>
        obtain ⟨hended, done₂, cur₂, h₂, hpos₂, hcome₂⟩ := ih fp h₁ (by simp) hlen hs
        refine ⟨hended, done₂, cur₂, by simpa using h₂, hpos₂, ?_⟩
        rw [List.zip_cons_cons, hcome _ ?_, hcome₂]
        cases fp with
        | nil => simp at hlen
        | cons e fp => rfl

end AddInv

/-- The part of a transaction that `journal_add_blocks_to_trans` writes. -/
def dataPart (w : Writer) (tid : ℕ) (xs : List (ℕ × Block)) : List Block :=
  if xs = [] then []
  else descriptorBlocks w tid xs journalHeaderSize (putHeader zeroBlock jbd2DescriptorBlock tid) []

/-- How many descriptor blocks `n` data blocks need. -/
def descriptorCount (j : Journal) (n : ℕ) : ℕ := (n + tagsPerBlock j - 1) / tagsPerBlock j

theorem div_count {k m c : ℕ} (hc : 0 < c) (hcm : c ≤ m) : (k * m + c + m - 1) / m = k + 1 := by
  have h : k * m + c + m - 1 = (c - 1) + (k + 1) * m := by
    rw [Nat.add_mul, one_mul]
    omega
  rw [h, Nat.add_mul_div_right _ _ (by omega), Nat.div_eq_of_lt (by omega), Nat.zero_add]

/-- **What `journal_add_blocks_to_trans` does**, with a block of the file for each
number. -/
theorem journalAddBlocksToTrans_spec {w w' : Writer} {trans trans' : Trans} {blockList : List ℕ}
    {fp : List Block} {errno : ℕ} (hj : Writable w.journal) (htid : trans.tid < 2 ^ 32)
    (hlen : blockList.length ≤ fp.length)
    (h : journalAddBlocksToTrans w trans blockList fp errno = .ok (w', trans')) :
    (∀ n ∈ blockList, n < w.blocksCount) ∧
    ∃ pieces, Emitted w w' trans.block (pieceBlocks pieces) ∧
      pieceBlocks pieces = dataPart w trans.tid (blockList.zip fp) ∧
      (∀ p ∈ pieces, p.Ok w.journal trans.tid) ∧
      pieces.flatMap (LogPiece.writes w.journal) =
        (blockList.zip fp).map (readBack w.journal.features) ∧
      (∀ p ∈ pieces, ∃ b xs, p = descriptorPiece b xs) ∧
      (pieceBlocks pieces).length =
        descriptorCount w.journal blockList.length + blockList.length ∧
      trans' = { trans with block := trans.block + (pieceBlocks pieces).length } := by
  rw [journalAddBlocksToTrans] at h
  obtain ⟨-, h⟩ := ite_error_eq_ok.mp h
  split at h
  -- an empty list writes nothing
  · next hnil =>
    cases h
    subst hnil
    refine ⟨by simp, [], emitted_nil w _, rfl, by simp, by simp, by simp, ?_,
      rfl⟩
    have hpos := tagsPerBlock_pos hj.blocksize
    simp only [pieceBlocks, List.flatMap_nil, List.length_nil, descriptorCount]
    rw [Nat.div_eq_of_lt (by omega)]
  · next hne =>
    obtain ⟨⟨s, ended⟩, hs, h⟩ := bind_eq_ok.mp h
    obtain ⟨rfl, done, cur, hinv, hpos, hcome⟩ := AddInv.loop hj blockList fp
      (addInv_start w htid trans.block) hne hlen hs
    -- the loop leaves at least one tag in the buffer, so the last descriptor is written
    have hjdbt : s.jdbt ≠ journalHeaderSize := by
      rw [hinv.jdbt, ne_eq, tagPos_eq_header]
      omega
    dsimp only at h
    rw [if_pos ⟨rfl, hjdbt⟩] at h
    obtain ⟨s', hs', h⟩ := bind_eq_ok.mp h
    obtain ⟨rfl, rfl⟩ := Prod.mk.inj (pure_eq_ok.mp h)
    obtain ⟨h1, h2, -, hem, hok, hwr⟩ := hinv.flush hj hpos (Or.inl rfl) hs'
    have hblocks : (pieceBlocks (done ++ [descriptorPiece s'.jdb cur])).length =
        (pieceBlocks done).length + (cur.length + 1) := by
      simp [pieceBlocks, descriptorPiece, LogPiece.blocks]
    have hzip : ([] ++ blockList.zip fp).length = blockList.length := by
      rw [List.nil_append, List.length_zip]
      omega
    refine ⟨?_, done ++ [descriptorPiece s'.jdb cur], hem, ?_, ?_, ?_, ?_, ?_, ?_⟩
    · intro n hn
      obtain ⟨i, hi, rfl⟩ := List.mem_iff_getElem.mp hn
      refine hinv.bound (blockList[i], fp[i]) ?_
      rw [List.nil_append, List.mem_iff_getElem]
      exact ⟨i, by rw [List.length_zip]; omega, List.getElem_zip⟩
    · have hzne : blockList.zip fp ≠ [] := by
        intro h0
        rw [h0] at hzip
        exact hne (List.length_eq_zero_iff.mp hzip.symm)
      rw [dataPart, if_neg hzne]
      refine Eq.trans ?_ hcome.symm
      rw [blocksToCome, descriptorBlocks, ← h2]
      simp [pieceBlocks, descriptorPiece, LogPiece.blocks]
    · intro p hp
      rcases List.mem_append.mp hp with hp | hp
      · exact hinv.ok p hp
      · obtain rfl := List.mem_singleton.mp hp
        exact hok
    · rw [List.flatMap_append, List.flatMap_singleton, hwr, hinv.read, List.nil_append]
    · intro p hp
      rcases List.mem_append.mp hp with hp | hp
      · exact hinv.descriptors p hp
      · exact ⟨_, _, List.mem_singleton.mp hp⟩
    · have hcount := hinv.count
      rw [hzip] at hcount
      rw [hblocks, hinv.full, descriptorCount, hcount, div_count hpos hinv.cap]
      ring
    · have hcurr := hinv.currBlk
      have hjdb := hinv.jdbBlk
      rw [hblocks, h1]
      congr 1
      omega

/-! ### Revoke blocks -/

/-- The state of the loop over the revoke list: the pieces `done` are in the log, the
block for `cur` is in the buffer. -/
structure RevokeInv (w₀ : Writer) (tid start : ℕ) (done : List LogPiece) (cur all : List ℕ)
    (s : AddRevoke) : Prop where
  emitted : Emitted w₀ s.w start (pieceBlocks done)
  currBlk : s.currBlk = start + (pieceBlocks done).length
  offset : s.offset = revokeHeaderSize + cur.length * recordLen w₀.journal.features
  cap : cur.length ≤ recordsPerBlock w₀.journal
  jrb : RevokeIs w₀.journal tid s.jrb cur
  ok : ∀ p ∈ done, p.Ok w₀.journal tid
  revokes : ∀ p ∈ done, ∃ b, p = .revoke b
  count : all.length = done.length * recordsPerBlock w₀.journal + cur.length
  read : done.flatMap (LogPiece.revokes w₀.journal) ++ cur.map (readNumber w₀.journal.features) =
    all.map (readNumber w₀.journal.features)
  bound : ∀ x ∈ all, x < w₀.blocksCount

theorem revokeInv_start (w : Writer) {tid : ℕ} (htid : tid < 2 ^ 32) (start : ℕ) :
    RevokeInv w tid start [] [] []
      { w := w
        currBlk := start
        offset := revokeHeaderSize
        jrb := putHeader zeroBlock jbd2RevokeBlock tid } where
  emitted := emitted_nil w _
  currBlk := rfl
  offset := by simp
  cap := Nat.zero_le _
  jrb := revokeIs_nil (headerIs_putHeader zeroBlock (by decide) htid)
  ok := by simp
  revokes := by simp
  count := by simp
  read := rfl
  bound := by simp

/-- A revoke block as it is written out. -/
def closedRevoke (j : Journal) (jrb : Block) (offset : ℕ) : Block :=
  jbd2DescrBlockCsumSet j (putBe jrb 12 4 offset)

/-- **The revoke blocks for a list of blocks**, as a function of the list: the records
so far are in `jrb`, the next goes to `offset`. -/
def revokeBlocks (j : Journal) : List ℕ → ℕ → Block → List Block
  | [], offset, jrb => [closedRevoke j jrb offset]
  | n :: rest, offset, jrb =>
      let sz := recordLen j.features
      if usableSize j < offset + sz then
        let jrb := closedRevoke j jrb offset
        jrb :: revokeBlocks j rest (revokeHeaderSize + sz) (putBe jrb revokeHeaderSize sz n)
      else revokeBlocks j rest (offset + sz) (putBe jrb offset sz n)

/-- What will be in the log once the blocks `rest` have been revoked. -/
def revokesToCome (w₀ : Writer) (done : List LogPiece) (s : AddRevoke) (rest : List ℕ) :
    List Block :=
  pieceBlocks done ++ revokeBlocks w₀.journal rest s.offset s.jrb

theorem pieceBlocks_length_of_revokes {ps : List LogPiece} (h : ∀ p ∈ ps, ∃ b, p = .revoke b) :
    (pieceBlocks ps).length = ps.length := by
  induction ps with
  | nil => rfl
  | cons p ps ih =>
    obtain ⟨b, rfl⟩ := h p (by simp)
    have := ih fun q hq => h q (List.mem_cons_of_mem _ hq)
    rw [pieceBlocks] at this
    rw [pieceBlocks, List.flatMap_cons, List.length_append, this, List.length_cons, Nat.add_comm]
    rfl

namespace RevokeInv

variable {w₀ : Writer} {tid start : ℕ} {done : List LogPiece} {cur all : List ℕ}
  {s s' : AddRevoke}

/-- Writing the revoke block out completes a piece. -/
theorem flush (hj : Writable w₀.journal) (h : RevokeInv w₀ tid start done cur all s)
    (hs : flushRevoke s = .ok s') :
    s'.currBlk = s.currBlk + 1 ∧ s'.jrb = closedRevoke w₀.journal s.jrb s.offset ∧
      HeaderIs s'.jrb jbd2RevokeBlock tid ∧
      Emitted w₀ s'.w start (pieceBlocks (done ++ [.revoke s'.jrb])) ∧
      (LogPiece.revoke s'.jrb).Ok w₀.journal tid ∧
      (LogPiece.revoke s'.jrb).revokes w₀.journal = cur.map (readNumber w₀.journal.features) := by
  obtain ⟨w, hw, hs⟩ := bind_eq_ok.mp hs
  obtain rfl := pure_eq_ok.mp hs
  have hjrb : jbd2DescrBlockCsumSet s.w.journal (putBe s.jrb 12 4 s.offset) =
      jbd2DescrBlockCsumSet w₀.journal (putBe s.jrb 12 4 s.offset) := by
    rw [h.emitted.same]
    rfl
  simp only [hjrb] at hw ⊢
  have hclose := h.jrb.close hj.blocksize h.cap s.offset
  have hoff : s.offset ≤ usableSize w₀.journal := by
    rw [h.offset]
    rcases Nat.eq_zero_or_pos cur.length with h0 | hpos
    · have := descrCsumSize_le w₀.journal.features
      have := hj.blocksize
      rw [h0, usableSize, revokeHeaderSize]
      omega
    · have hcap := h.cap
      have := (record_fits hj.blocksize (cur.length - 1)).mpr (by omega)
      rwa [Nat.add_assoc, ← Nat.succ_mul, Nat.succ_eq_add_one, Nat.sub_add_cancel hpos] at this
  have hsize : usableSize w₀.journal ≤ 65536 := (Nat.sub_le _ _).trans hj.blocksize_le
  have hcount : rCount (jbd2DescrBlockCsumSet w₀.journal (putBe s.jrb 12 4 s.offset)) = s.offset :=
    RevokeIs.rCount_close hj.blocksize (by omega)
  refine ⟨trivial, rfl, hclose.header, ?_, ⟨hclose.header, ?_, ?_⟩, ?_⟩
  · rw [pieceBlocks, List.flatMap_append]
    exact h.emitted.write h.currBlk hw
  · exact descriptorBlockCsumVerify_set hj.seed _
  · rw [hcount]
    exact hoff
  · exact hclose.revokeRecords_eq (hcount.trans h.offset)

/-- One round of the loop. -/
theorem addRevoke (hj : Writable w₀.journal) (h : RevokeInv w₀ tid start done cur all s)
    {blocknr : ℕ} (hs : E2fsprogs.addRevoke blocknr s = .ok s') :
    ∃ done' cur', RevokeInv w₀ tid start done' cur' (all ++ [blocknr]) s' ∧ 0 < cur'.length ∧
      ∀ rest, revokesToCome w₀ done s (blocknr :: rest) = revokesToCome w₀ done' s' rest := by
  have hpos := recordsPerBlock_pos hj.blocksize
  have hlen : recordLen s.w.journal.features = recordLen w₀.journal.features := by
    rw [h.emitted.same]
    rfl
  have hsize : s.w.journal.jBlocksize - descrCsumSize s.w.journal.features =
      usableSize w₀.journal := by
    rw [h.emitted.same]
    rfl
  -- the record itself, once there is room for it
  have hput : ∀ {done₁ cur₁} {s₁ : AddRevoke}, RevokeInv w₀ tid start done₁ cur₁ all s₁ →
      cur₁.length < recordsPerBlock w₀.journal →
      (if s₁.w.blocksCount ≤ blocknr then Except.error WriteError.badBlockNum
        else pure { s₁ with
          jrb := putBe s₁.jrb s₁.offset (recordLen w₀.journal.features) blocknr
          offset := s₁.offset + recordLen w₀.journal.features }) = .ok s' →
      ∃ cur', RevokeInv w₀ tid start done₁ cur' (all ++ [blocknr]) s' ∧ 0 < cur'.length ∧
        ∀ rest, pieceBlocks done₁ ++ revokeBlocks w₀.journal rest
          (s₁.offset + recordLen w₀.journal.features)
          (putBe s₁.jrb s₁.offset (recordLen w₀.journal.features) blocknr) =
          revokesToCome w₀ done₁ s' rest := by
    intro done₁ cur₁ s₁ h₁ hroom hs
    obtain ⟨hnr, hs⟩ := ite_error_eq_ok.mp hs
    obtain rfl := pure_eq_ok.mp hs
    have hnr : blocknr < w₀.blocksCount := by
      have : s₁.w.blocksCount = w₀.blocksCount := by rw [h₁.emitted.same]; rfl
      omega
    refine ⟨cur₁ ++ [blocknr], ?_, by simp, fun rest => rfl⟩
    exact
      { emitted := h₁.emitted
        currBlk := h₁.currBlk
        offset := by
          simp only [h₁.offset, List.length_append, List.length_singleton, Nat.add_mul, one_mul]
          omega
        cap := by
          rw [List.length_append, List.length_singleton]
          exact hroom
        jrb := by
          simp only [h₁.offset]
          exact h₁.jrb.put (hnr.trans w₀.blocksCount_lt)
        ok := h₁.ok
        revokes := h₁.revokes
        count := by
          rw [List.length_append, List.length_append, h₁.count, Nat.add_assoc]
        read := by
          rw [List.map_append, List.map_append, ← List.append_assoc, h₁.read]
        bound := by
          intro x hx
          rcases List.mem_append.mp hx with hx | hx
          · exact h₁.bound x hx
          · obtain rfl := List.mem_singleton.mp hx
            exact hnr }
  have hguard : usableSize w₀.journal < s.offset + recordLen w₀.journal.features ↔
      ¬cur.length < recordsPerBlock w₀.journal := by
    rw [h.offset, ← record_fits hj.blocksize]
    exact Nat.not_le.symm
  unfold E2fsprogs.addRevoke at hs
  simp only [hlen, hsize] at hs
  split at hs
  · next hfull =>
    have hcap := h.cap
    have hcur : cur.length = recordsPerBlock w₀.journal := by
      have := hguard.mp hfull
      omega
    obtain ⟨s₁, hs₁, hs⟩ := bind_eq_ok.mp hs
    obtain ⟨h1, hjrb, hhead, hem, hok, hrev⟩ := h.flush hj hs₁
    have hblocks : (pieceBlocks (done ++ [.revoke s₁.jrb])).length =
        (pieceBlocks done).length + 1 := by
      simp [pieceBlocks, LogPiece.blocks]
    have hcurr := h.currBlk
    have h₁ : RevokeInv w₀ tid start (done ++ [.revoke s₁.jrb]) [] all
        { s₁ with offset := revokeHeaderSize } :=
      { emitted := hem
        currBlk := by
          rw [hblocks]
          simp only
          omega
        offset := by simp
        cap := Nat.zero_le _
        jrb := revokeIs_nil hhead
        ok := by
          intro p hp
          rcases List.mem_append.mp hp with hp | hp
          · exact h.ok p hp
          · obtain rfl := List.mem_singleton.mp hp
            exact hok
        revokes := by
          intro p hp
          rcases List.mem_append.mp hp with hp | hp
          · exact h.revokes p hp
          · exact ⟨_, List.mem_singleton.mp hp⟩
        count := by
          rw [h.count, hcur, List.length_append, List.length_singleton, Nat.add_mul, one_mul]
          rfl
        read := by
          rw [← h.read, List.flatMap_append, List.flatMap_singleton, hrev]
          simp
        bound := h.bound }
    obtain ⟨cur', h', hpos', hcome⟩ := hput h₁ hpos hs
    refine ⟨_, cur', h', hpos', fun rest => ?_⟩
    rw [← hcome rest, revokesToCome, revokeBlocks]
    simp only [if_pos hfull, hjrb]
    simp [pieceBlocks, LogPiece.blocks]
  · next hroom =>
    obtain ⟨cur', h', hpos', hcome⟩ := hput h (by have := mt hguard.mpr hroom; omega) hs
    refine ⟨done, cur', h', hpos', fun rest => ?_⟩
    rw [← hcome rest, revokesToCome, revokeBlocks]
    simp only [if_neg hroom]

/-- The whole loop: induction on the revoke list. -/
theorem loop (hj : Writable w₀.journal) : ∀ (revokeList : List ℕ) {done : List LogPiece}
    {cur all : List ℕ} {s s' : AddRevoke}, RevokeInv w₀ tid start done cur all s →
    addRevokeLoop revokeList s = .ok s' →
    ∃ done' cur', RevokeInv w₀ tid start done' cur' (all ++ revokeList) s' ∧
      (revokeList ≠ [] → 0 < cur'.length) ∧
      revokesToCome w₀ done s revokeList = revokesToCome w₀ done' s' [] := by
  intro revokeList
  induction revokeList with
  | nil =>
    intro done cur all s s' h hs
    cases hs
    exact ⟨done, cur, by simpa using h, fun h => absurd rfl h, rfl⟩
  | cons blocknr revokeList ih =>
    intro done cur all s s' h hs
    rw [addRevokeLoop] at hs
    obtain ⟨s₁, hs₁, hs⟩ := bind_eq_ok.mp hs
    obtain ⟨done₁, cur₁, h₁, hpos, hcome₁⟩ := h.addRevoke hj hs₁
    cases revokeList with
    | nil =>
      cases hs
      exact ⟨done₁, cur₁, h₁, fun _ => hpos, hcome₁ []⟩
    | cons n ns =>
      obtain ⟨done₂, cur₂, h₂, hpos₂, hcome₂⟩ := ih h₁ hs
      exact ⟨done₂, cur₂, by simpa using h₂, fun _ => hpos₂ (by simp), (hcome₁ _).trans hcome₂⟩

end RevokeInv

/-- The part of a transaction that `journal_add_revoke_to_trans` writes. -/
def revokePart (j : Journal) (tid : ℕ) (revokeList : List ℕ) : List Block :=
  if revokeList = [] then []
  else revokeBlocks j revokeList revokeHeaderSize (putHeader zeroBlock jbd2RevokeBlock tid)

/-- How many revoke blocks `n` records need. -/
def revokeCount (j : Journal) (n : ℕ) : ℕ := (n + recordsPerBlock j - 1) / recordsPerBlock j

/-- **What `journal_add_revoke_to_trans` does.** -/
theorem journalAddRevokeToTrans_spec {w w' : Writer} {trans trans' : Trans}
    {revokeList : List ℕ} (hj : Writable w.journal) (htid : trans.tid < 2 ^ 32)
    (h : journalAddRevokeToTrans w trans revokeList = .ok (w', trans')) :
    (∀ n ∈ revokeList, n < w.blocksCount) ∧
    ∃ pieces, Emitted w w' trans.block (pieceBlocks pieces) ∧
      pieceBlocks pieces = revokePart w.journal trans.tid revokeList ∧
      (∀ p ∈ pieces, p.Ok w.journal trans.tid) ∧
      (∀ p ∈ pieces, ∃ b, p = .revoke b) ∧
      pieces.flatMap (LogPiece.revokes w.journal) =
        revokeList.map (readNumber w.journal.features) ∧
      pieces.length = revokeCount w.journal revokeList.length ∧
      trans' = { trans with block := trans.block + (pieceBlocks pieces).length } := by
  rw [journalAddRevokeToTrans] at h
  obtain ⟨-, h⟩ := ite_error_eq_ok.mp h
  split at h
  -- an empty list writes nothing
  · next hnil =>
    cases h
    subst hnil
    refine ⟨by simp, [], emitted_nil w _, rfl, by simp, by simp, rfl, ?_, rfl⟩
    have hpos := recordsPerBlock_pos hj.blocksize
    rw [revokeCount, List.length_nil, List.length_nil, Nat.div_eq_of_lt (by omega)]
  · next hne =>
    obtain ⟨s, hs, h⟩ := bind_eq_ok.mp h
    obtain ⟨s', hs', h⟩ := bind_eq_ok.mp h
    obtain ⟨rfl, rfl⟩ := Prod.mk.inj (pure_eq_ok.mp h)
    obtain ⟨done, cur, hinv, hpos, hcome⟩ := RevokeInv.loop hj revokeList
      (revokeInv_start w htid trans.block) hs
    rw [List.nil_append] at hinv
    obtain ⟨h1, hjrb, -, hem, hok, hrev⟩ := hinv.flush hj hs'
    have hblocks : (pieceBlocks (done ++ [.revoke s'.jrb])).length =
        (pieceBlocks done).length + 1 := by
      simp [pieceBlocks, LogPiece.blocks]
    refine ⟨hinv.bound, done ++ [.revoke s'.jrb], hem, ?_, ?_, ?_, ?_, ?_, ?_⟩
    · rw [revokePart, if_neg hne]
      refine Eq.trans ?_ hcome.symm
      rw [revokesToCome, revokeBlocks, ← hjrb]
      simp [pieceBlocks, LogPiece.blocks]
    · intro p hp
      rcases List.mem_append.mp hp with hp | hp
      · exact hinv.ok p hp
      · obtain rfl := List.mem_singleton.mp hp
        exact hok
    · intro p hp
      rcases List.mem_append.mp hp with hp | hp
      · exact hinv.revokes p hp
      · exact ⟨_, List.mem_singleton.mp hp⟩
    · rw [List.flatMap_append, List.flatMap_singleton, hrev, hinv.read]
    · rw [revokeCount, hinv.count, div_count (hpos hne) hinv.cap, List.length_append,
        List.length_singleton]
    · have hcurr := hinv.currBlk
      rw [hblocks, h1, hcurr, Nat.add_assoc]

end E2fsprogs
