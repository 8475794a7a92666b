import E2fsprogs.Journal.RoundTrip

/-!
# Where the next transaction goes

A transaction written by debugfs should start right after the commit block of the one
before it. What `journal_close_trans` makes the head of the log is another thing: the
estimate of `journal_guess_blocks`, made before anything was written, and one block more.

The two agree when the estimate is one less than the blocks a call really takes
(`E2fsprogs.Call.Fits`); then a successful call stays below `j_last` if there is room for
that one block too. In **a run of such calls** (`E2fsprogs.WriteRun`) the transactions lie
one after the other in the log, disjoint and without a gap, and recovery finds them all. A
call with one data block and one revocation is not such a call: its estimate misses a
block.
-/

namespace E2fsprogs

/-! ### One call -/

/-- A call of `journal_write` that succeeds. -/
structure Call where
  before : Writer
  args : WriteArgs
  after : Writer
  ok : journalWrite before args = .ok after

namespace Call

/-- The number of blocks the transaction takes. -/
def needed (c : Call) : ℕ := c.args.blocksNeeded c.before.journal

/-- The estimate made for it. -/
def guess (c : Call) : ℕ := c.args.guess c.before.journal

/-- The log blocks the call writes. -/
def written (c : Call) : List ℕ :=
  c.after.logWrites.take (c.after.logWrites.length - c.before.logWrites.length)

/-- Where the transaction has its last block, the commit block. -/
def commitAt (c : Call) : ℕ := c.before.nextStart + c.needed - 1

/-- There is a block of the file for each number, the estimate is one less than the blocks
needed, and there is room for them. -/
structure Fits (c : Call) : Prop where
  contents : c.args.blockList.length ≤ c.args.fp.length
  estimate : c.needed = c.guess + 1
  room : c.before.nextStart + c.guess < c.before.journal.jLast

theorem needed_pos (c : Call) : 0 < c.needed := Nat.succ_pos _

/-- A call that fits takes two blocks at least. -/
theorem Fits.two_le {c : Call} (h : c.Fits) : 2 ≤ c.needed := by
  have h1 : ∀ a b c, 2 ≤ 1 + a + b + c + 1 := by omega
  rw [h.estimate]
  exact h1 _ _ _

theorem commitAt_succ (c : Call) : c.commitAt + 1 = c.before.nextStart + c.needed := by
  have := c.needed_pos
  rw [commitAt]
  omega

end Call

/-- What a call does to the log, its transaction being `t`. -/
structure CallDoes (c : Call) (t : LogTransaction) : Prop where
  encodes : Encodes c.before c.args t
  journal : c.after.journal = c.before.journal.withLog c.after.journal.jDev
    (if c.before.journal.jTail = 0 then c.before.nextStart else c.before.journal.jTail)
    (if c.before.journal.jTail = 0 then c.before.nextTid else c.before.journal.jTailSequence)
  laid : Laid c.after.journal.jDev c.before.nextStart t.blocks
  frame : ∀ i, i < c.before.nextStart ∨ c.before.nextStart + c.needed ≤ i →
    c.after.journal.jDev i = c.before.journal.jDev i
  jHead : c.after.jHead = c.before.nextStart + c.guess + 1
  jTransactionSequence : c.after.jTransactionSequence = tidSucc c.before.nextTid
  written : ∀ i ∈ c.written, c.before.nextStart ≤ i ∧ i < c.before.nextStart + c.needed

/-- **What a call does.** -/
theorem Call.does (c : Call) (hl : Loaded c.before.journal) (htid : c.before.nextTid < 2 ^ 32)
    (hfp : c.args.blockList.length ≤ c.args.fp.length) : ∃ t, CallDoes c t := by
  obtain ⟨-, -, -, t, w₁, henc, hem, hafter⟩ := journalWrite_spec
    ⟨hl.blocksize_ge, hl.blocksize_le, hl.seed_lt⟩ htid hfp c.ok
  have hclose : c.after = { w₁ with
      journal := if w₁.journal.jTail = 0 then
          { w₁.journal with
            jTailSequence := c.before.nextTid, jTail := c.before.nextStart }
        else w₁.journal
      jHead := c.before.nextStart + c.guess + 1
      jTransactionSequence := tidSucc c.before.nextTid } := by
    rw [hafter, journalCloseTrans, if_neg (by simp [closedTrans])]
    rfl
  have htail : w₁.journal.jTail = c.before.journal.jTail := by
    rw [hem.same]
    rfl
  have hdev : c.after.journal.jDev = w₁.journal.jDev := by
    rw [hclose]
    dsimp only
    split <;> rfl
  have hlen : t.blocks.length = c.needed := henc.length
  refine ⟨t, henc, ?_, ?_, ?_, ?_, ?_, ?_⟩
  · rw [hdev, hclose]
    dsimp only
    rw [htail]
    split
    · rw [hem.same]
      rfl
    · rw [hem.same]
      rfl
  · rw [hdev]
    exact hem.laid
  · intro i hi
    rw [hdev]
    exact hem.frame i (hlen ▸ hi)
  · rw [hclose]
  · rw [hclose]
  -- the writes of the call are those the log had not seen before
  · obtain ⟨new, hnew, hrange⟩ := hem.writes
    have hwrites : c.after.logWrites = new ++ c.before.logWrites := by
      rw [hclose]
      exact hnew
    intro i hi
    rw [Call.written, hwrites, List.length_append, Nat.add_sub_cancel, List.take_left] at hi
    rw [← hlen]
    exact hrange i hi

/-! ### Runs -/

/-- A run of successful calls from `w₀` to `w`, each starting from the state the one before
it has left. -/
inductive WriteRun (w₀ : Writer) : List Call → Writer → Prop
  | nil : WriteRun w₀ [] w₀
  | call {cs : List Call} {c : Call} (h : WriteRun w₀ cs c.before) :
      WriteRun w₀ (cs ++ [c]) c.after

/-- A transaction in the log of `j`, but for its whole-transaction checksum. -/
structure Encoded (j : Journal) (tid : ℕ) (t : LogTransaction) : Prop where
  pieces : ∀ p ∈ t.pieces, p.Ok j tid
  commit : HeaderIs t.commit jbd2CommitBlock tid
  csum : jbd2CommitBlockCsumVerify j t.commit = true

/-- What a run of calls has made of the log: the transactions `ts`, one after the other
from `j_first` on, and nothing else. -/
structure LogIs (w₀ : Writer) (ts : List LogTransaction) (w : Writer) : Prop where
  journal : w.journal = w₀.journal.withLog w.journal.jDev w.journal.jTail w.journal.jTailSequence
  tail : w.journal.jTail = if ts = [] then 0 else w₀.journal.jFirst
  seq : w.journal.jTailSequence = w₀.journal.jTailSequence
  start : w.nextStart = w₀.journal.jFirst + (logBlocks ts).length
  tid : w.nextTid = tidAt w₀.journal.jTailSequence ts.length
  laid : Laid w.journal.jDev w₀.journal.jFirst (logBlocks ts)
  encoded : ∀ (i : ℕ) (t : LogTransaction), ts[i]? = some t →
    Encoded w₀.journal (tidAt w₀.journal.jTailSequence i) t

theorem logIs_nil {w : Writer} (hl : Loaded w.journal) (hclean : w.journal.jTail = 0) :
    LogIs w [] w where
  journal := rfl
  tail := hclean
  seq := rfl
  start := if_pos hclean
  tid := by
    rw [List.length_nil, tidAt_zero hl.seq_lt]
    exact if_pos hclean
  laid := laid_nil
  encoded := by simp

theorem LogIs.loaded {w₀ w : Writer} {ts : List LogTransaction} (h : LogIs w₀ ts w)
    (hl : Loaded w₀.journal) : Loaded w.journal := by
  have htail : w.journal.jTail < 2 ^ 32 := by
    rw [h.tail]
    split
    · norm_num
    · exact hl.first_lt
  have hseq := h.seq ▸ hl.seq_lt
  rw [h.journal]
  exact ⟨hl.blocksize_ge, hl.blocksize_le, hl.first_lt, hl.total_lt, htail, hseq, hl.seed_lt,
    hl.csum_excl, hl.v1_excl, hl.last_eq, hl.fcLast_eq⟩

theorem encoded_withLog {j : Journal} {dev : ℕ → Option Block} {tail sequence tid : ℕ}
    {t : LogTransaction} (h : Encoded (j.withLog dev tail sequence) tid t) : Encoded j tid t :=
  ⟨fun p hp => LogPiece.ok_withLog.mp (h.pieces p hp), h.commit, h.csum⟩

/-- **One call more**, when it fits. -/
theorem LogIs.call {w₀ : Writer} {ts : List LogTransaction} {c : Call} {t : LogTransaction}
    (h : LogIs w₀ ts c.before) (hfirst : 0 < w₀.journal.jFirst) (hfits : c.Fits)
    (hd : CallDoes c t) : LogIs w₀ (ts ++ [t]) c.after := by
  have hblocks : logBlocks (ts ++ [t]) = logBlocks ts ++ t.blocks := by
    simp [logBlocks]
  have hlen : t.blocks.length = c.needed := hd.encodes.length
  -- the tail is still unset exactly if nothing has been written
  have hempty : c.before.journal.jTail = 0 ↔ ts = [] := by
    rw [h.tail]
    split
    · next hts => exact iff_of_true rfl hts
    · next hts => exact iff_of_false (by omega) hts
  have htail : c.after.journal.jTail = w₀.journal.jFirst := by
    rw [hd.journal]
    change (if c.before.journal.jTail = 0 then _ else _) = _
    split
    · next h0 => rw [h.start, hempty.mp h0]; rfl
    · next h0 => rw [h.tail, if_neg fun hts => h0 (hempty.mpr hts)]
  have hne : c.after.journal.jTail ≠ 0 := by omega
  have hbefore : c.before.journal = w₀.journal.withLog c.before.journal.jDev
      c.before.journal.jTail c.before.journal.jTailSequence := h.journal
  refine ⟨?_, ?_, ?_, ?_, ?_, ?_, ?_⟩
  · have := hd.journal
    rw [hbefore] at this
    generalize hj : c.after.journal = j at this ⊢
    rw [this]
    rfl
  · rw [htail, if_neg (by simp)]
  · rw [hd.journal]
    change (if c.before.journal.jTail = 0 then _ else _) = _
    split
    · next h0 => rw [Writer.nextTid, if_pos h0, h.seq]
    · exact h.seq
  · rw [Writer.nextStart, if_neg hne, hd.jHead, h.start, hblocks, List.length_append, hlen,
      hfits.estimate]
    omega
  · rw [Writer.nextTid, if_neg hne, hd.jTransactionSequence, h.tid, tidSucc_tidAt,
      List.length_append, List.length_singleton]
  · rw [hblocks, laid_append, ← h.start]
    refine ⟨h.laid.congr fun i _ hi => hd.frame i (Or.inl ?_), hd.laid⟩
    rw [h.start]
    exact hi
  -- the transactions before it are untouched, and the new one is the last
  · intro i u hu
    rcases Nat.lt_or_ge i ts.length with hi | hi
    · rw [List.getElem?_append_left hi] at hu
      exact h.encoded i u hu
    · rw [List.getElem?_append_right hi] at hu
      obtain ⟨h0, rfl⟩ := List.getElem?_eq_some_iff.mp hu
      obtain rfl : i = ts.length := by
        rw [List.length_singleton] at h0
        omega
      have henc : Encoded c.before.journal c.before.nextTid t :=
        ⟨hd.encodes.pieces, hd.encodes.commit, hd.encodes.csum⟩
      rw [hbefore, h.tid] at henc
      simpa using encoded_withLog henc

/-- Where the transactions of a run lie: below the head, one after the other. -/
structure Abut (w₀ : Writer) (cs : List Call) (w : Writer) : Prop where
  same : ∀ c ∈ cs, c.before.journal = w₀.journal.withLog c.before.journal.jDev
    c.before.journal.jTail c.before.journal.jTailSequence
  first_le : w₀.journal.jFirst + 2 * cs.length ≤ w.nextStart
  inside : ∀ c ∈ cs, w₀.journal.jFirst ≤ c.before.nextStart ∧
    c.before.nextStart + c.needed ≤ w.nextStart ∧
    c.before.nextStart + c.needed ≤ w₀.journal.jLast
  apart : cs.Pairwise fun c d => c.before.nextStart + c.needed ≤ d.before.nextStart
  chain : cs.IsChain fun c d => d.before.nextStart = c.before.nextStart + c.needed
  last : ∀ c ∈ cs.getLast?, w.nextStart = c.before.nextStart + c.needed

/-- **One call more** keeps the transactions in their places. -/
theorem Abut.call {w₀ : Writer} {cs : List Call} {c : Call} (h : Abut w₀ cs c.before)
    (hsame : c.before.journal = w₀.journal.withLog c.before.journal.jDev
      c.before.journal.jTail c.before.journal.jTailSequence) (hfits : c.Fits)
    (hnext : c.after.nextStart = c.before.nextStart + c.needed) :
    Abut w₀ (cs ++ [c]) c.after := by
  have hpos := hfits.two_le
  obtain ⟨-, hneeded, hroom⟩ := hfits
  have hfirst := h.first_le
  have hlast : c.before.journal.jLast = w₀.journal.jLast := by
    rw [hsame]
    rfl
  refine ⟨?_, ?_, ?_, ?_, ?_, ?_⟩
  · intro d hd
    rcases List.mem_append.mp hd with hd | hd
    · exact h.same d hd
    · obtain rfl := List.mem_singleton.mp hd
      exact hsame
  · rw [List.length_append, List.length_singleton]
    omega
  · intro d hd
    rcases List.mem_append.mp hd with hd | hd
    · obtain ⟨h1, h2, h3⟩ := h.inside d hd
      exact ⟨h1, by omega, h3⟩
    · obtain rfl := List.mem_singleton.mp hd
      exact ⟨by omega, by omega, by omega⟩
  · refine List.pairwise_append.mpr ⟨h.apart, List.pairwise_singleton _ _, fun d hd e he => ?_⟩
    obtain rfl := List.mem_singleton.mp he
    exact (h.inside d hd).2.1
  · refine h.chain.append (List.isChain_singleton _) fun d hd e he => ?_
    obtain rfl : c = e := by simpa using he
    exact h.last d hd
  · intro d hd
    obtain rfl : c = d := by simpa using hd
    exact hnext

/-- **What a run of fitting calls does.** -/
theorem WriteRun.does {w₀ w : Writer} {cs : List Call} (hl : Loaded w₀.journal)
    (hclean : w₀.journal.jTail = 0) (hfirst : 0 < w₀.journal.jFirst) (hrun : WriteRun w₀ cs w)
    (hfits : ∀ c ∈ cs, c.Fits) :
    ∃ ts, LogIs w₀ ts w ∧ List.Forall₂ CallDoes cs ts ∧ Abut w₀ cs w := by
  induction hrun with
  | nil =>
    refine ⟨[], logIs_nil hl hclean, List.Forall₂.nil, by simp, ?_, by simp, by simp, by simp,
      by simp⟩
    exact (if_pos hclean).ge
  | @call cs c _ ih =>
    obtain ⟨ts, hlog, hdoes, habut⟩ := ih fun d hd => hfits d (List.mem_append_left _ hd)
    have hc : c.Fits := hfits c (by simp)
    obtain ⟨t, ht⟩ := c.does (hlog.loaded hl) (hlog.tid ▸ tidAt_lt _ _) hc.contents
    have hlog' := hlog.call hfirst hc ht
    refine ⟨ts ++ [t], hlog', List.rel_append hdoes (List.Forall₂.cons ht .nil), ?_⟩
    refine habut.call hlog.journal hc ?_
    have hlen : t.blocks.length = c.needed := ht.encodes.length
    rw [hlog'.start, hlog.start, ← hlen]
    simp [logBlocks, Nat.add_assoc]

/-- What the reader makes of the whole-transaction checksum of a call. -/
theorem CallDoes.match_of_sumAgrees {c : Call} {t : LogTransaction} (hd : CallDoes c t)
    (hsum : SumAgrees c.before c.args) (hv : c.before.journal.features.checksum = true)
    (hv2 : c.before.journal.features.csumV2or3 = false) :
    chksumMismatch (t.crc c.before.journal) t.commit = false := by
  rw [hd.encodes.mismatch hv hv2, decide_eq_false_iff_not, not_not, hd.encodes.crc,
    crcBlocks_append]
  exact (hsum hv).symm

/-- **The log after a run of fitting calls is well formed**, if its checksums agree and the
block after it does not go on. -/
theorem LogIs.wellFormedLog {w₀ w : Writer} {cs : List Call} {ts : List LogTransaction}
    (h : LogIs w₀ ts w) (hl : Loaded w₀.journal) (hdoes : List.Forall₂ CallDoes cs ts)
    (habut : Abut w₀ cs w) (hne : cs ≠ []) (hfc : w₀.journal.features.fastCommit = false)
    (hsums : ∀ c ∈ cs, SumAgrees c.before c.args)
    (hstop : ∃ b, jread w.journal (wrap w.journal w.nextStart) = .ok b ∧
      ¬Continues b w.nextTid) : WellFormedLog w.journal ts := by
  have hlen : cs.length = ts.length := hdoes.length_eq
  have hts : ts ≠ [] := fun h0 => hne (List.length_eq_zero_iff.mp (by rw [hlen, h0]; rfl))
  have hwl := h.loaded hl
  have hfirst : w.journal.jFirst = w₀.journal.jFirst := by
    rw [h.journal]
    rfl
  have htail : w.journal.jTail = w.journal.jFirst := by rw [h.tail, if_neg hts, hfirst]
  have hlast : w.journal.jLast = w₀.journal.jLast := by
    rw [h.journal]
    rfl
  have hfc' : w.journal.features.fastCommit = false := by
    rw [h.journal]
    exact hfc
  have hbelow : w.nextStart ≤ w.journal.jLast ∧ w.journal.jFirst < w.nextStart := by
    obtain ⟨c, hc⟩ := Option.ne_none_iff_exists'.mp (mt List.getLast?_eq_none_iff.mp hne)
    have hin := habut.inside c (List.mem_of_getLast? hc)
    have hend := habut.last c hc
    have hpos := c.needed_pos
    omega
  have hsize : (logBlocks ts).length ≤ w.journal.jLast - w.journal.jFirst := by
    have := h.start
    omega
  -- every call writes at least one block, so there are fewer calls than blocks
  have hcount : cs.length < 2 ^ 31 := by
    have hle := habut.first_le
    have htotal := (hwl.last_eq hfc').le.trans_lt hwl.total_lt
    omega
  have harea : LogArea w.journal :=
    ⟨hfc', htail.ge, by omega, (hwl.last_eq hfc').le, hwl.total_lt⟩
  have hpos : ∀ k, k < w.journal.jLast - w.journal.jFirst →
      logPos w.journal k = w₀.journal.jFirst + k := by
    intro k hk
    rw [logPos, ringPos, htail, Nat.sub_self, Nat.zero_add, Nat.mod_eq_of_lt hk, hfirst]
  refine ⟨hfc', harea.first_le, harea.tail_lt, harea.last_le, harea.total_lt, hwl.seq_lt,
    by omega, hsize, ?_, ?_, ?_⟩
  · intro k b hb
    have hk := (List.getElem?_eq_some_iff.mp hb).1
    rw [hpos k (by omega)]
    exact h.laid k b hb
  · intro i t hi
    have hEnc := h.encoded i t hi
    obtain ⟨hit, hget⟩ := List.getElem?_eq_some_iff.mp hi
    have hcall : CallDoes (cs.get ⟨i, by omega⟩) t :=
      hget ▸ (List.forall₂_iff_get.mp hdoes).2 i (by omega) hit
    have hmem : cs.get ⟨i, by omega⟩ ∈ cs := List.get_mem _ _
    have hsame := habut.same _ hmem
    have hfeat : (cs.get ⟨i, by omega⟩).before.journal.features = w₀.journal.features := by
      rw [hsame]
      rfl
    have hcrc : t.crc w.journal = t.crc (cs.get ⟨i, by omega⟩).before.journal := by
      rw [hsame, h.journal, LogTransaction.crc, LogTransaction.crc, LogPiece.crc_withLog,
        LogPiece.crc_withLog]
    rw [h.seq]
    refine ⟨fun p hp => ?_, hEnc.commit, ?_, fun hv => ?_⟩
    · rw [h.journal]
      exact LogPiece.ok_withLog.mpr (hEnc.pieces p hp)
    · rw [h.journal]
      exact hEnc.csum
    · have hv₀ : w₀.journal.features.checksum = true := by
        rw [h.journal] at hv
        exact hv
      rw [hcrc]
      refine hcall.match_of_sumAgrees (hsums _ hmem) (hfeat ▸ hv₀) ?_
      rw [hfeat, ← Bool.not_eq_true]
      exact fun h2 => hl.v1_excl ⟨h2, hv₀⟩
  -- the block behind the last transaction is read where the next call would start
  · obtain ⟨b, hb, hnot⟩ := hstop
    have hwrap := harea.wrap_logPos 0 hsize
    rw [harea.logPos_zero, htail, hfirst, ← h.start, Nat.zero_add] at hwrap
    rw [hwrap] at hb
    refine ⟨b, ?_, ?_⟩
    · have hlt : logPos w.journal (logBlocks ts).length <
          w.journal.jFirst + (w.journal.jLast - w.journal.jFirst) := ringPos_lt (by omega) _
      have htotal := (hwl.last_eq hfc').le.trans_lt hwl.total_lt
      have hdev := (jread_ok hb).2
      rwa [Nat.mod_eq_of_lt (by omega)] at hdev
    · rw [h.seq, ← h.tid]
      exact hnot

/-- **Successive transactions abut.** In every run of calls that fit, from a clean journal:
each call writes inside the log area, and no block that an earlier call has written; its
last block is the commit block, and the next call starts at the block after it; and, if
the whole-transaction checksums agree and the block after the last transaction does not go
on, `PASS_SCAN` comes to the end of all of them. -/
theorem writeRun_abut {w₀ w : Writer} {cs : List Call} (hl : Loaded w₀.journal)
    (hclean : w₀.journal.jTail = 0) (hfirst : 0 < w₀.journal.jFirst) (hrun : WriteRun w₀ cs w)
    (hfits : ∀ c ∈ cs, c.Fits) :
    (∀ c ∈ cs, ∀ i ∈ c.written, w₀.journal.jFirst ≤ i ∧ i < w₀.journal.jLast) ∧
    cs.Pairwise (fun c d => ∀ i ∈ c.written, i ∉ d.written) ∧
    (∀ c ∈ cs, ∃ b, c.after.journal.jDev c.commitAt = some b ∧
      HeaderIs b jbd2CommitBlock c.before.nextTid) ∧
    cs.IsChain (fun c d => d.before.nextStart = c.commitAt + 1) ∧
    (cs ≠ [] → w₀.journal.features.fastCommit = false →
      (∀ c ∈ cs, SumAgrees c.before c.args) →
      (∃ b, jread w.journal (wrap w.journal w.nextStart) = .ok b ∧ ¬Continues b w.nextTid) →
      ∀ fc fsDev, ∃ s, (∃ fuel,
        doOnePass w.journal fc fuel .scan (recoverStart fsDev) = some (none, s)) ∧
        s.info.endTransaction = tidAt w₀.journal.jTailSequence cs.length) := by
  obtain ⟨ts, hlog, hdoes, habut⟩ := hrun.does hl hclean hfirst hfits
  have hcall : ∀ c ∈ cs, ∃ t, CallDoes c t := by
    intro c hc
    obtain ⟨i, hi, rfl⟩ := List.mem_iff_getElem.mp hc
    exact ⟨_, (List.forall₂_iff_get.mp hdoes).2 i hi (hdoes.length_eq ▸ hi)⟩
  refine ⟨?_, ?_, ?_, ?_, ?_⟩
  · intro c hc i hi
    obtain ⟨t, ht⟩ := hcall c hc
    have hin := habut.inside c hc
    have hi := ht.written i hi
    omega
  · refine habut.apart.imp_of_mem fun {c d} hc hd hcd i hi hi' => ?_
    obtain ⟨t, ht⟩ := hcall c hc
    obtain ⟨u, hu⟩ := hcall d hd
    have h1 := ht.written i hi
    have h2 := hu.written i hi'
    omega
  · intro c hc
    obtain ⟨t, ht⟩ := hcall c hc
    refine ⟨t.commit, ?_, ht.encodes.commit⟩
    have hlen : t.blocks.length = c.needed := ht.encodes.length
    have hlaid := ht.laid (t.blocks.length - 1) t.commit (by simp [LogTransaction.blocks])
    have hpos := c.needed_pos
    rwa [hlen, ← Nat.add_sub_assoc hpos] at hlaid
  · refine habut.chain.imp fun c d hcd => ?_
    rw [hcd, c.commitAt_succ]
  -- the run is a well-formed log, so the scan is the one over such a log
  · intro hne hfc hsums hstop fc fsDev
    have hw := hlog.wellFormedLog hl hdoes habut hne hfc hsums hstop
    obtain ⟨e, s, hleaves, hend, hs⟩ := hw.scan fc fsDev
    obtain ⟨N, hN⟩ := doOnePass_of_leaves hleaves hend
    refine ⟨s, ⟨N, hN N le_rfl⟩, ?_⟩
    rw [hs.endTransaction, hlog.seq, hdoes.length_eq]

/-! ### A run that fits, and one that does not -/

/-- The writer after a call that succeeds. -/
def afterWrite (w : Writer) (a : WriteArgs) : Writer :=
  match journalWrite w a with
  | .ok w' => w'
  | .error _ => w

theorem journalWrite_eq_afterWrite {w : Writer} {a : WriteArgs}
    (h : (journalWrite w a).isOk = true) : journalWrite w a = .ok (afterWrite w a) := by
  rw [afterWrite]
  cases hw : journalWrite w a with
  | error err =>
    rw [hw] at h
    cases h
  | ok w' => rfl

theorem writeRun_abut_sample : ∃ c d : Call, c.args = sampleWrite ∧ d.args = sampleWrite ∧
    WriteRun (sampleWriter 1) [c, d] d.after ∧ d.before.nextStart = c.commitAt + 1 ∧
    (∀ i ∈ c.written, i ∉ d.written) ∧
    ∃ s, (∃ fuel, doOnePass d.after.journal none fuel .scan (recoverStart fun _ => zeroBlock) =
      some (none, s)) ∧ s.info.endTransaction = 3 := by
  let c : Call := ⟨sampleWriter 1, sampleWrite, _, journalWrite_eq_afterWrite (by decide)⟩
  let d : Call := ⟨c.after, sampleWrite, _, journalWrite_eq_afterWrite (by decide)⟩
  have hrun : WriteRun (sampleWriter 1) [c, d] d.after :=
    @WriteRun.call _ [c] d (@WriteRun.call _ [] c .nil)
  have hfits : ∀ e ∈ [c, d], e.Fits := by
    intro e he
    rcases List.mem_cons.mp he with rfl | he
    · exact ⟨by decide, by decide, by decide⟩
    · obtain rfl := List.mem_singleton.mp he
      exact ⟨by decide, by decide, by decide⟩
  have hsums : ∀ e ∈ [c, d], SumAgrees e.before e.args := by
    intro e he _
    rcases List.mem_cons.mp he with rfl | he
    · exact List.foldl_nil
    · obtain rfl := List.mem_singleton.mp he
      exact List.foldl_nil
  obtain ⟨-, hapart, -, hchain, hfound⟩ := writeRun_abut
    (loaded_of_load (load_sampleWriter (by norm_num))) rfl (by decide) hrun hfits
  have hstop : ∃ b, jread d.after.journal (wrap d.after.journal d.after.nextStart) = .ok b ∧
      ¬Continues b d.after.nextTid := by
    have hat : wrap d.after.journal d.after.nextStart = 7 := by decide
    have hmagic : (d.after.journal.jDev 7).map hMagic = some 0 := by decide
    obtain ⟨b, hb, h0⟩ := Option.map_eq_some_iff.mp hmagic
    refine ⟨b, ?_, ?_⟩
    · rw [hat, jread_of_lt (by norm_num), if_neg (by decide), hb]
    · rintro (h | h | h) <;> exact absurd (h0.symm.trans h.1) (by decide)
  have hnext : d.before.nextStart = c.commitAt + 1 := (List.isChain_cons_cons.mp hchain).1
  exact ⟨c, d, rfl, rfl, hrun, hnext,
    (List.pairwise_cons.mp hapart).1 d (List.mem_singleton_self d),
    hfound (by simp) (by decide) hsums hstop none _⟩

/-- Write block 7 and revoke block 5. -/
def sampleBoth : WriteArgs := ⟨[7], [zeroBlock], 0, [5], 0, 0⟩

/-- **A run that does not fit.** Two transactions, each with a data block and a
revocation: the second overwrites the commit block of the first. -/
theorem writeRun_overlap : ∃ ctx sb, e2fsckJournalLoad ctx sb = .ok (sampleWriter 0).journal ∧
    (sampleWriter 0).journal.jTail = 0 ∧
    ∃ c d : Call, c.args = sampleBoth ∧ d.args = sampleBoth ∧
      WriteRun (sampleWriter 0) [c, d] d.after ∧ d.before.nextStart ≠ c.commitAt + 1 ∧
      c.commitAt ∈ c.written ∧ c.commitAt ∈ d.written := by
  let c : Call := ⟨sampleWriter 0, sampleBoth, _, journalWrite_eq_afterWrite (by decide)⟩
  let d : Call := ⟨c.after, sampleBoth, _, journalWrite_eq_afterWrite (by decide)⟩
  exact ⟨_, _, load_sampleWriter (by norm_num), rfl, c, d, rfl, rfl,
    @WriteRun.call _ [c] d (@WriteRun.call _ [] c .nil), by decide, by decide, by decide⟩

end E2fsprogs
