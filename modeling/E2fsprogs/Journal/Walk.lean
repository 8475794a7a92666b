import E2fsprogs.Journal.Layout

/-!
# Walking a well-formed log

What the three passes have in common on a well-formed log: where they are, and
what they read there. Positions are counted in blocks from `s_start`
(`E2fsprogs.logPos`), so that wrapping disappears from sight
(`E2fsprogs.LogArea.wrap_logPos`), and reading the header of a piece is one lemma
per kind of block (`E2fsprogs.LogArea.passStep_descriptor` and its two siblings).

The inductions are done once. In `E2fsprogs.LogTransaction.walk` a pass brings an
invariant that it keeps over one piece, and gets it at the commit block; in
`E2fsprogs.WellFormedLog.walk` it keeps it over commit blocks too, and gets it at the
end of the log.
-/

namespace E2fsprogs

theorem sub64_of_le {a b : ℕ} (hb : b ≤ a) (ha : a < 2 ^ 64) : sub64 a b = a - b := by
  rw [sub64]
  omega

/-- The blocks `bs` lie in the log from the position `k` on. -/
def Placed (j : Journal) (k : ℕ) (bs : List Block) : Prop :=
  ∀ i b, bs[i]? = some b → j.jDev (logPos j (k + i)) = some b

theorem placed_append {j : Journal} {k : ℕ} {as bs : List Block} (h : Placed j k (as ++ bs)) :
    Placed j k as ∧ Placed j (k + as.length) bs := by
  refine ⟨fun i b hi => h i b ?_, fun i b hi => ?_⟩
  · rw [List.getElem?_append_left (List.getElem?_eq_some_iff.mp hi).1]
    exact hi
  · have := h (as.length + i) b (by rw [List.getElem?_append_right (by omega)]; simpa using hi)
    rwa [← Nat.add_assoc] at this

theorem placed_cons {j : Journal} {k : ℕ} {b : Block} {bs : List Block}
    (h : Placed j k (b :: bs)) : j.jDev (logPos j k) = some b ∧ Placed j (k + 1) bs := by
  have := placed_append (show Placed j k ([b] ++ bs) from h)
  exact ⟨by simpa using this.1 0 b rfl, this.2⟩

/-- The state of a pass that has just read the block at position `k`. -/
def PassState.headerRead (s : PassState) (j : Journal) (k : ℕ) : PassState :=
  { s with nextLogBlock := logPos j (k + 1), reads := logPos j k % 2 ^ 32 :: s.reads }

/-- A log area without fast commits that lies inside the journal, and a tail in
it. -/
structure LogArea (j : Journal) : Prop where
  fastCommit : j.features.fastCommit = false
  first_le : j.jFirst ≤ j.jTail
  tail_lt : j.jTail < j.jLast
  last_le : j.jLast ≤ j.jTotalLen
  total_lt : j.jTotalLen < 2 ^ 32

namespace LogArea

variable {j : Journal} (ha : LogArea j)

include ha

/-- **Wrapping is invisible in positions counted from the tail.** -/
theorem wrap_logPos (k : ℕ) {m : ℕ} (hm : m ≤ j.jLast - j.jFirst) :
    wrap j (logPos j k + m) = logPos j (k + m) := by
  have h1 := ha.first_le
  have h2 := ha.tail_lt
  have h3 := ha.last_le
  have h4 := ha.total_lt
  have hlen : 0 < j.jLast - j.jFirst := by omega
  have hlast : wrapLast j = j.jLast := by
    rw [wrapLast, ha.fastCommit]
    rfl
  have hlt : logPos j k < j.jFirst + (j.jLast - j.jFirst) := ringPos_lt hlen k
  have hge : j.jFirst ≤ logPos j k := first_le_ringPos k
  have hstep : logPos j (k + m) = _ := ringPos_add hlen k hm
  rw [hstep, wrap, hlast]
  change (if j.jLast ≤ logPos j k + m then _ else _) =
    if j.jFirst + (j.jLast - j.jFirst) ≤ logPos j k + m then logPos j k + m - (j.jLast - j.jFirst)
    else logPos j k + m
  rw [Nat.add_sub_cancel' (by omega : j.jFirst ≤ j.jLast)]
  split
  · rw [sub64_of_le (by omega : j.jFirst ≤ j.jLast) (by omega), sub64_of_le (by omega) (by omega)]
  · rfl

theorem wrap_logPos_succ (k : ℕ) : wrap j (logPos j k + 1) = logPos j (k + 1) := by
  have h1 := ha.first_le
  have h2 := ha.tail_lt
  exact ha.wrap_logPos k (by omega)

theorem logPos_zero : logPos j 0 = j.jTail := by
  have h1 := ha.first_le
  have h2 := ha.tail_lt
  exact ringPos_zero h1 (by omega)

/-- A block of the log can be read. -/
theorem jread_logPos {k : ℕ} {b : Block} (h : j.jDev (logPos j k) = some b) :
    jread j (logPos j k) = .ok b := by
  have h1 := ha.first_le
  have h2 := ha.tail_lt
  have h3 := ha.last_le
  have hlt : logPos j k < j.jFirst + (j.jLast - j.jFirst) := ringPos_lt (by omega) k
  have h4 := ha.total_lt
  rw [jread_of_lt (by omega), if_neg (by omega), h]

/-! ### Reading a header -/

section Header

variable {pass : PassType} {s : PassState} {k : ℕ} {b : Block}

/-- What a round of the loop comes to once it has read a readable block. -/
theorem passStep_eq (hgo : GoesOn pass s)
    (hblk : s.nextLogBlock = logPos j k) (hb : j.jDev (logPos j k) = some b) :
    passStep j pass s =
      if hMagic b ≠ jbd2MagicNumber then .finish (s.headerRead j k)
      else if hSequence b ≠ s.nextCommitID then .finish (s.headerRead j k)
      else if hBlocktype b = jbd2DescriptorBlock then descriptorStep j pass b (s.headerRead j k)
      else if hBlocktype b = jbd2CommitBlock then commitStep j pass b (s.headerRead j k)
      else if hBlocktype b = jbd2RevokeBlock then revokeStep j pass b (s.headerRead j k)
      else .finish (s.headerRead j k) := by
  have hread : jread j s.nextLogBlock = .ok b := by
    rw [hblk]
    exact ha.jread_logPos hb
  have hafter : s.afterRead j = s.headerRead j k := by
    rw [PassState.afterRead, PassState.headerRead, hblk, ha.wrap_logPos_succ]
  rw [passStep_of_read hgo hread, hafter]

variable (hgo : GoesOn pass s)
  (hblk : s.nextLogBlock = logPos j k) (hb : j.jDev (logPos j k) = some b)

include hgo hblk hb

theorem passStep_descriptor (h : HeaderIs b jbd2DescriptorBlock s.nextCommitID) :
    passStep j pass s = descriptorStep j pass b (s.headerRead j k) := by
  obtain ⟨h1, h2, h3⟩ := h
  rw [ha.passStep_eq hgo hblk hb, if_neg (by simp [h1]), if_neg (by simp [h3]), if_pos h2]

theorem passStep_commit (h : HeaderIs b jbd2CommitBlock s.nextCommitID) :
    passStep j pass s = commitStep j pass b (s.headerRead j k) := by
  obtain ⟨h1, h2, h3⟩ := h
  rw [ha.passStep_eq hgo hblk hb, if_neg (by simp [h1]), if_neg (by simp [h3]),
    if_neg (by rw [h2]; decide), if_pos h2]

theorem passStep_revoke (h : HeaderIs b jbd2RevokeBlock s.nextCommitID) :
    passStep j pass s = revokeStep j pass b (s.headerRead j k) := by
  obtain ⟨h1, h2, h3⟩ := h
  rw [ha.passStep_eq hgo hblk hb, if_neg (by simp [h1]), if_neg (by simp [h3]),
    if_neg (by rw [h2]; decide), if_neg (by rw [h2]; decide), if_pos h2]

theorem passStep_stop (h : ¬Continues b s.nextCommitID) :
    passStep j pass s = .finish (s.headerRead j k) := by
  rw [ha.passStep_eq hgo hblk hb]
  by_cases h1 : hMagic b = jbd2MagicNumber
  · by_cases h3 : hSequence b = s.nextCommitID
    · rw [if_neg (by simp [h1]), if_neg (by simp [h3])]
      rw [if_neg fun h2 => h (Or.inl ⟨h1, h2, h3⟩),
        if_neg fun h2 => h (Or.inr (Or.inl ⟨h1, h2, h3⟩)),
        if_neg fun h2 => h (Or.inr (Or.inr ⟨h1, h2, h3⟩))]
    · rw [if_neg (by simp [h1]), if_pos h3]
  · rw [if_pos h1]

end Header

end LogArea

/-! ### Along a transaction -/

namespace LogTransaction

variable {j : Journal} {t : LogTransaction}

theorem placed_piece {k : ℕ} (h : Placed j k t.blocks) {ps qs : List LogPiece} {p : LogPiece}
    (hps : t.pieces = ps ++ p :: qs) :
    Placed j (k + (ps.flatMap LogPiece.blocks).length) p.blocks := by
  rw [LogTransaction.blocks, hps, List.flatMap_append, List.flatMap_cons] at h
  exact (placed_append (placed_append (placed_append h).1).2).1

theorem piece_length_le {ps qs : List LogPiece} {p : LogPiece}
    (hps : t.pieces = ps ++ p :: qs) : p.blocks.length ≤ t.blocks.length := by
  rw [LogTransaction.blocks, hps, List.flatMap_append, List.flatMap_cons]
  simp only [List.length_append]
  omega

theorem placed_commit {k : ℕ} (h : Placed j k t.blocks) :
    j.jDev (logPos j (k + (t.pieces.flatMap LogPiece.blocks).length)) = some t.commit :=
  (placed_cons (placed_append h).2).1

/-- **The walk along a transaction.** An invariant `P ps qs`, at the piece `qs` begins
with, that a pass keeps over each piece leads to the commit block. -/
theorem walk {pass : PassType} {P : List LogPiece → List LogPiece → PassState → Prop}
    (hpiece : ∀ ps p qs s, t.pieces = ps ++ p :: qs → P ps (p :: qs) s →
      ∃ s', Loop.Reach (passStep j pass) s s' ∧ P (ps ++ [p]) qs s')
    {s : PassState} (hs : P [] t.pieces s) :
    ∃ s', Loop.Reach (passStep j pass) s s' ∧ P t.pieces [] s' := by
  -- induction on the pieces still to come
  have hrest : ∀ qs ps s, t.pieces = ps ++ qs → P ps qs s →
      ∃ s', Loop.Reach (passStep j pass) s s' ∧ P t.pieces [] s' := by
    intro qs
    induction qs with
    | nil =>
      intro ps s hps hP
      obtain rfl : t.pieces = ps := by simpa using hps
      exact ⟨s, Relation.ReflTransGen.refl, hP⟩
    | cons p qs ih =>
      intro ps s hps hP
      obtain ⟨s₁, h1, hP1⟩ := hpiece ps p qs s hps hP
      obtain ⟨s₂, h2, hP2⟩ := ih (ps ++ [p]) s₁ (by simp [hps]) hP1
      exact ⟨s₂, h1.trans h2, hP2⟩
  exact hrest t.pieces [] s rfl hs

end LogTransaction

/-! ### Along the log -/

namespace WellFormedLog

variable {j : Journal} {log : List LogTransaction} (hw : WellFormedLog j log)

include hw

theorem logArea : LogArea j where
  fastCommit := hw.fastCommit
  first_le := hw.first_le
  tail_lt := hw.tail_lt
  last_le := hw.last_le
  total_lt := hw.total_lt

/-- The transaction after `pre` carries the id of its index. -/
theorem trans_ok {pre rest : List LogTransaction} {t : LogTransaction}
    (hlog : log = pre ++ t :: rest) : t.Ok j (tidAt j.jTailSequence pre.length) :=
  hw.trans pre.length t (by simp [hlog])

/-- The blocks of the transaction after `pre` lie where the blocks of `pre` end. -/
theorem placed_trans {pre rest : List LogTransaction} {t : LogTransaction}
    (hlog : log = pre ++ t :: rest) : Placed j (logBlocks pre).length t.blocks := by
  have h0 : Placed j 0 (logBlocks log) := fun i b hi => by simpa using hw.placed i b hi
  rw [hlog, logBlocks, List.flatMap_append, List.flatMap_cons] at h0
  have h1 := (placed_append h0).2
  rw [Nat.zero_add] at h1
  exact (placed_append h1).1

theorem blocks_le {pre rest : List LogTransaction} {t : LogTransaction}
    (hlog : log = pre ++ t :: rest) : t.blocks.length ≤ j.jLast - j.jFirst := by
  have h := hw.fits
  rw [hlog, logBlocks, List.flatMap_append, List.flatMap_cons, List.length_append,
    List.length_append] at h
  omega

theorem placed_piece {pre rest : List LogTransaction} {t : LogTransaction}
    (hlog : log = pre ++ t :: rest) {ps qs : List LogPiece} {p : LogPiece}
    (hps : t.pieces = ps ++ p :: qs) :
    Placed j ((logBlocks pre).length + (ps.flatMap LogPiece.blocks).length) p.blocks ∧
      p.blocks.length ≤ j.jLast - j.jFirst := by
  exact ⟨LogTransaction.placed_piece (hw.placed_trans hlog) hps,
    (LogTransaction.piece_length_le hps).trans (hw.blocks_le hlog)⟩

theorem placed_commit {pre rest : List LogTransaction} {t : LogTransaction}
    (hlog : log = pre ++ t :: rest) :
    j.jDev (logPos j ((logBlocks pre).length + (t.pieces.flatMap LogPiece.blocks).length)) =
      some t.commit :=
  LogTransaction.placed_commit (hw.placed_trans hlog)

variable (log) in
omit hw in
/-- **The walk along the log.** An invariant `B` between transactions and `P` inside
them – `P pre t ps qs rest` at the piece `qs` begins with – that a pass keeps over
each piece and over each commit block leads from the start of the log to its
end. -/
theorem walk (pass : PassType)
    {B : List LogTransaction → List LogTransaction → PassState → Prop}
    {P : List LogTransaction → LogTransaction → List LogPiece → List LogPiece →
      List LogTransaction → PassState → Prop}
    (henter : ∀ pre t rest s, log = pre ++ t :: rest → B pre (t :: rest) s →
      P pre t [] t.pieces rest s)
    (hpiece : ∀ pre t ps p qs rest s, log = pre ++ t :: rest → t.pieces = ps ++ p :: qs →
      P pre t ps (p :: qs) rest s →
      ∃ s', Loop.Reach (passStep j pass) s s' ∧ P pre t (ps ++ [p]) qs rest s')
    (hcommit : ∀ pre t rest s, log = pre ++ t :: rest → P pre t t.pieces [] rest s →
      ∃ s', Loop.Reach (passStep j pass) s s' ∧ B (pre ++ [t]) rest s')
    {s : PassState} (hs : B [] log s) :
    ∃ s', Loop.Reach (passStep j pass) s s' ∧ B log [] s' := by
  -- the log: induction on the transactions still to come
  have hlogs : ∀ rest pre s, log = pre ++ rest → B pre rest s →
      ∃ s', Loop.Reach (passStep j pass) s s' ∧ B log [] s' := by
    intro rest
    induction rest with
    | nil =>
      intro pre s hlog hB
      obtain rfl : log = pre := by simpa using hlog
      exact ⟨s, Relation.ReflTransGen.refl, hB⟩
    | cons t rest ih =>
      intro pre s hlog hB
      obtain ⟨s₁, h1, hP1⟩ := LogTransaction.walk (P := fun ps qs => P pre t ps qs rest)
        (fun ps p qs s => hpiece pre t ps p qs rest s hlog) (henter pre t rest s hlog hB)
      obtain ⟨s₂, h2, hB1⟩ := hcommit pre t rest s₁ hlog hP1
      obtain ⟨s₃, h3, hB2⟩ := ih (pre ++ [t]) s₂ (by simp [hlog]) hB1
      exact ⟨s₃, (h1.trans h2).trans h3, hB2⟩
  exact hlogs log [] s (by simp) hs

end WellFormedLog

end E2fsprogs
