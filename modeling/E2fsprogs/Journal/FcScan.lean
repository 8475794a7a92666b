import E2fsprogs.Journal.FastCommit

/-!
# What the scan pass admits

A walk over the fast-commit area comes to its tags one after the other; `E2fsprogs.fcArea`
lists them, block by block. A tag is admitted (`E2fsprogs.FcTagAt.admits`) when the scan goes
on after it: it is of a known kind, a head must be for the expected transaction, and a tail
must also carry the checksum of the tags since the tail before it. The tags up to the last
admitted tail are the **validated** ones (`E2fsprogs.validated`).

The result of the module is `E2fsprogs.fcPass_scan`: the scan pass ends at the first tag it
does not admit, and leaves the number of validated tags behind – as an `int`.
-/

namespace E2fsprogs

/-! ### The tags of the area -/

/-- The tags a loop over a block comes to, from offset `cur` on. -/
def fcTags (size : ℕ) (bh : Block) (off : ℕ) : ℕ → ℕ → List FcTagAt
  | 0, _ => []
  | fuel + 1, cur =>
      if cur < size - 1 then
        ⟨bh, off, cur⟩ :: fcTags size bh off fuel (FcTagAt.next ⟨bh, off, cur⟩)
      else []

/-- The tags of the readable blocks from `nextFcBlock` on, up to the first one that cannot
be read and to `n` blocks at most. -/
def fcAreaFrom (j : Journal) : ℕ → ℕ → List FcTagAt
  | 0, _ => []
  | n + 1, nextFcBlock =>
      match jread j nextFcBlock with
      | .error _ => []
      | .ok bh => fcTags j.jBlocksize bh (nextFcBlock - j.jFcFirst) j.jBlocksize 0 ++
          fcAreaFrom j n (nextFcBlock + 1)

/-- The tags of the fast-commit area. -/
def fcArea (j : Journal) : List FcTagAt := fcAreaFrom j (j.jFcLast + 1 - j.jFcFirst) j.jFcFirst

/-- The loop over tags as one over a list of them. -/
def runTags {γ : Type} (body : FcTagAt → γ → FcRet × γ) : List FcTagAt → γ → FcRet × γ
  | [], c => (.continue, c)
  | t :: ts, c =>
      match body t c with
      | (.continue, c) => runTags body ts c
      | r => r

theorem fcTagLoop_eq_runTags {γ : Type} {size : ℕ} {bh : Block} {off : ℕ}
    {body : FcTagAt → γ → FcRet × γ} (fuel : ℕ) : ∀ (cur : ℕ) (c : γ),
    fcTagLoop size bh off body fuel cur c = runTags body (fcTags size bh off fuel cur) c := by
  induction fuel with
  | zero => intro cur c; rfl
  | succ fuel ih =>
    intro cur c
    rw [fcTagLoop, fcTags]
    by_cases h : cur < size - 1
    · rw [if_pos h, if_pos h, runTags]
      rcases body ⟨bh, off, cur⟩ c with ⟨r, c'⟩
      cases r with
      | «continue» => exact ih _ _
      | stop => rfl
      | error e => rfl
    · rw [if_neg h, if_neg h]
      rfl

/-! ### Admitted tags -/

namespace FcTagAt

/-- The scan goes on after the tag, with `crc` the checksum of the tags since the last
tail. -/
def admits (tid crc : ℕ) (t : FcTagAt) : Bool :=
  match t.tag with
  | .tail => t.word 0 == tid && t.word 4 == jbd2Chksum crc (t.bytes 8)
  | .head => t.word 0 == 0 && t.word 4 == tid
  | .other => false
  | _ => true

/-- The checksum after a tag: a tail starts a new one. -/
def crcAfter (crc : ℕ) (t : FcTagAt) : ℕ :=
  if t.tag = .tail then 0 else jbd2Chksum crc (t.bytes (4 + t.len))

end FcTagAt

/-- The tags up to the first one that is not admitted. -/
def admitted (tid : ℕ) : ℕ → List FcTagAt → List FcTagAt
  | _, [] => []
  | crc, t :: ts => if t.admits tid crc then t :: admitted tid (t.crcAfter crc) ts else []

/-- **The validated tags** of an area: those up to and including the last admitted tail, if
the area starts with a head. -/
def validated (tid : ℕ) (area : List FcTagAt) : List FcTagAt :=
  if (area.head?.map FcTagAt.tag) = some .head then
    (admitted tid 0 area).rdropWhile fun t => t.tag != .tail
  else []

section Admitted

variable {tid crc : ℕ} {t : FcTagAt} {l rest : List FcTagAt}

theorem admitted_isPrefixOf (ts : List FcTagAt) : ∀ crc, admitted tid crc ts <+: ts := by
  induction ts with
  | nil => intro crc; exact List.prefix_rfl
  | cons t ts ih =>
    intro crc
    rw [admitted]
    split
    · exact (List.prefix_cons_inj t).mpr (ih _)
    · exact List.nil_prefix

theorem validated_isPrefixOf (tid : ℕ) (area : List FcTagAt) : validated tid area <+: area := by
  rw [validated]
  split
  · exact (List.rdropWhile_prefix _ _).trans (admitted_isPrefixOf area 0)
  · exact List.nil_prefix

theorem admitted_append (h : admitted tid crc l = l) :
    admitted tid crc (l ++ rest) = l ++ admitted tid (l.foldl FcTagAt.crcAfter crc) rest := by
  induction l generalizing crc with
  | nil => rfl
  | cons t l ih =>
    rw [admitted] at h
    split at h
    · next ht =>
      rw [List.cons_append, admitted, if_pos ht, ih (List.cons.inj h).2]
      rfl
    · cases h

theorem admitted_append_cons_of_not (h : admitted tid crc l = l)
    (ht : t.admits tid (l.foldl FcTagAt.crcAfter crc) = false) :
    admitted tid crc (l ++ t :: rest) = l := by
  rw [admitted_append h, admitted, if_neg (by simp [ht]), List.append_nil]

theorem admitted_concat (h : admitted tid crc l = l)
    (ht : t.admits tid (l.foldl FcTagAt.crcAfter crc) = true) :
    admitted tid crc (l ++ [t]) = l ++ [t] := by
  rw [admitted_append h, admitted, if_pos ht, admitted]

end Admitted

/-! ### Counting -/

/-- `fc_replay_num_tags` and `fc_cur_tag` after a tag. -/
def countTag (k : ℕ × ℕ) (t : FcTagAt) : ℕ × ℕ :=
  (if t.tag = .tail then intIncr k.2 else k.1, intIncr k.2)

/-- `fc_replay_num_tags` is the number of tags up to the last tail, as an `int`. -/
theorem foldl_countTag (l : List FcTagAt) :
    l.foldl countTag (0, 0) =
      ((l.rdropWhile fun t => t.tag != .tail).length % 2 ^ 32, l.length % 2 ^ 32) := by
  induction l using List.reverseRecOn with
  | nil => rfl
  | append_singleton l t ih =>
    have hcur : intIncr (l.length % 2 ^ 32) = (l ++ [t]).length % 2 ^ 32 := by
      rw [intIncr, List.length_append, List.length_singleton]
      omega
    rw [List.foldl_append, ih, List.foldl_cons, List.foldl_nil, countTag]
    by_cases ht : t.tag = .tail
    · rw [if_pos ht, hcur, List.rdropWhile_concat_neg _ _ _ (by simp [ht])]
    · rw [if_neg ht, hcur, List.rdropWhile_concat_pos _ _ _ (by simp [ht])]

/-- `fc_replay_num_tags` after some tags. -/
def numTagsAfter (l : List FcTagAt) : ℕ := (l.foldl countTag (0, 0)).1

/-! ### The scan of a list of tags -/

/-- What the scan reads of a tag lies in the block: the header, the structure copied, and
what goes into the checksum. -/
def ScanFits (size tid : ℕ) (t : FcTagAt) : Prop :=
  t.cur + 4 ≤ size ∧
    match t.tag with
    | .addRange => t.val + 16 ≤ size ∧ t.val + t.len ≤ size
    | .tail => t.val + 8 ≤ size
    | .head => t.val + 8 ≤ size ∧ (t.word 0 = 0 ∧ t.word 4 = tid → t.val + t.len ≤ size)
    | .other => True
    | _ => t.val + t.len ≤ size

/-- All bytes read so far are in their block, and all names have a length. -/
def FcCtx.InBlock {σ : Type} (size : ℕ) (c : FcCtx σ) : Prop :=
  (∀ r ∈ c.reads, r.start + r.size ≤ size) ∧ ∀ n ∈ c.dnameLens, 0 ≤ n

section Scan

variable {σ : Type} {size tid : ℕ} {c c' : FcCtx σ} {t : FcTagAt}

theorem FcCtx.inBlock_read {off start n : ℕ} :
    (c.read off start n).InBlock size ↔ c.InBlock size ∧ start + n ≤ size := by
  simp only [FcCtx.InBlock, FcCtx.read, List.forall_mem_cons]
  tauto

theorem FcCtx.inBlock_congr (hr : c'.reads = c.reads) (hd : c'.dnameLens = c.dnameLens) :
    c'.InBlock size ↔ c.InBlock size := by
  rw [FcCtx.InBlock, FcCtx.InBlock, hr, hd]

theorem FcCtx.inBlock_count {n : ℕ} :
    (c.count t n).InBlock size ↔ c.InBlock size ∧ t.cur + n ≤ size :=
  (FcCtx.inBlock_congr rfl rfl).trans FcCtx.inBlock_read

/-- The parts of a context that the scan leaves alone. -/
structure FcCtx.ScanFrame (c c' : FcCtx σ) : Prop where
  sState : c'.sState = c.sState
  fs : c'.fs = c.fs
  dispatched : c'.dispatched = c.dispatched
  finished : c'.finished = c.finished
  pass : c'.state.currentPass = c.state.currentPass
  expectedOff : c'.state.expectedOff = c.state.expectedOff

theorem fcScanTag_frame : c.ScanFrame (fcScanTag tid t c).2 := by
  rw [fcScanTag]
  dsimp only
  cases t.tag with
  | tail =>
    dsimp only
    split
    · exact ⟨rfl, rfl, rfl, rfl, rfl, rfl⟩
    · exact ⟨rfl, rfl, rfl, rfl, rfl, rfl⟩
  | head =>
    dsimp only
    split
    · exact ⟨rfl, rfl, rfl, rfl, rfl, rfl⟩
    · split
      · exact ⟨rfl, rfl, rfl, rfl, rfl, rfl⟩
      · exact ⟨rfl, rfl, rfl, rfl, rfl, rfl⟩
  | _ => exact ⟨rfl, rfl, rfl, rfl, rfl, rfl⟩

/-- What a round of the scan has read. -/
theorem fcScanTag_inBlock : (fcScanTag tid t c).2.InBlock size ↔
    c.InBlock size ∧ ScanFits size tid t := by
  have hval : t.val = t.cur + 4 := rfl
  rw [fcScanTag, ScanFits]
  dsimp only
  -- a TAIL, a HEAD and an ADD_RANGE read their values, the other tags only their heads
  cases t.tag with
  | tail =>
    dsimp only
    have hset : ∀ c' : FcCtx σ,
      c'.reads = (((c.read t.off t.cur 4).read t.off t.val 8).count t 8).reads →
        c'.dnameLens = c.dnameLens →
        (c'.InBlock size ↔ c.InBlock size ∧ t.cur + 4 ≤ size ∧ t.val + 8 ≤ size) := by
      intro c' hr hd
      rw [FcCtx.inBlock_congr (c := ((c.read t.off t.cur 4).read t.off t.val 8).count t 8) hr hd,
        FcCtx.inBlock_count, FcCtx.inBlock_read, FcCtx.inBlock_read]
      exact ⟨fun h => ⟨h.1.1.1, h.1.1.2, h.1.2⟩, fun h => ⟨⟨⟨h.1, h.2.1⟩, h.2.2⟩, by omega⟩⟩
    split
    · exact hset _ rfl rfl
    · exact hset _ rfl rfl
  | head =>
    dsimp only
    split
    · next h0 =>
      rw [FcCtx.inBlock_read, FcCtx.inBlock_read]
      exact ⟨fun h => ⟨h.1.1, h.1.2, h.2, fun h' => absurd h'.1 h0⟩,
        fun h => ⟨⟨h.1, h.2.1⟩, h.2.2.1⟩⟩
    · next h0 =>
      split
      · next h4 =>
        rw [FcCtx.inBlock_read, FcCtx.inBlock_read]
        exact ⟨fun h => ⟨h.1.1, h.1.2, h.2, fun h' => absurd h'.2 h4⟩,
          fun h => ⟨⟨h.1, h.2.1⟩, h.2.2.1⟩⟩
      · next h4 =>
        rw [FcCtx.inBlock_count, FcCtx.inBlock_read, FcCtx.inBlock_read]
        rw [not_not] at h0 h4
        exact ⟨fun h => ⟨h.1.1.1, h.1.1.2, h.1.2, fun _ => by omega⟩,
          fun h => ⟨⟨⟨h.1, h.2.1⟩, h.2.2.1⟩, by have := h.2.2.2 ⟨h0, h4⟩; omega⟩⟩
  | addRange =>
    rw [FcCtx.inBlock_count, FcCtx.inBlock_read, FcCtx.inBlock_read]
    exact ⟨fun h => ⟨h.1.1.1, h.1.1.2, h.1.2, by omega⟩,
      fun h => ⟨⟨⟨h.1, h.2.1⟩, h.2.2.1⟩, by omega⟩⟩
  | other =>
    rw [FcCtx.inBlock_read]
    exact ⟨fun h => ⟨h.1, h.2, trivial⟩, fun h => ⟨h.1, h.2.1⟩⟩
  | _ =>
    rw [FcCtx.inBlock_count, FcCtx.inBlock_read]
    exact ⟨fun h => ⟨h.1.1, h.1.2, by omega⟩, fun h => ⟨⟨h.1, h.2.1⟩, by omega⟩⟩

/-- **An admitted tag** is counted and the scan goes on. -/
theorem fcScanTag_of_admits (h : t.admits tid c.state.crc = true) :
    (fcScanTag tid t c).1 = .continue ∧
    ((fcScanTag tid t c).2.state.numTags, (fcScanTag tid t c).2.state.curTag) =
      countTag (c.state.numTags, c.state.curTag) t ∧
    (fcScanTag tid t c).2.state.crc = t.crcAfter c.state.crc := by
  rw [FcTagAt.admits] at h
  rw [fcScanTag, countTag, FcTagAt.crcAfter]
  dsimp only
  cases ht : t.tag with
  | tail =>
    rw [ht] at h
    simp only [Bool.and_eq_true, beq_iff_eq] at h
    dsimp only
    rw [if_pos ⟨h.1, h.2⟩, if_pos rfl, if_pos rfl]
    exact ⟨rfl, rfl, rfl⟩
  | head =>
    rw [ht] at h
    simp only [Bool.and_eq_true, beq_iff_eq] at h
    dsimp only
    rw [if_neg (not_not_intro h.1), if_neg (not_not_intro h.2), if_neg (by simp), if_neg (by simp)]
    exact ⟨rfl, rfl, rfl⟩
  | other =>
    rw [ht] at h
    cases h
  | _ =>
    dsimp only
    rw [if_neg (by simp), if_neg (by simp)]
    exact ⟨rfl, rfl, rfl⟩

/-- What the scan returns at a tag it does not admit. -/
def rejectRet (numTags : ℕ) (t : FcTagAt) : FcRet :=
  match t.tag with
  | .head => .error (if t.word 0 ≠ 0 then eOpnotsupp else eInval)
  | .tail => fcStopOr numTags eFsbadcrc
  | _ => fcStopOr numTags eCanceled

/-- **A tag that is not admitted** ends the scan and is not counted. -/
theorem fcScanTag_of_not_admits (h : t.admits tid c.state.crc = false) :
    (fcScanTag tid t c).1 = rejectRet c.state.numTags t ∧
    (fcScanTag tid t c).2.state.numTags = c.state.numTags := by
  rw [FcTagAt.admits] at h
  rw [fcScanTag, rejectRet]
  dsimp only
  cases ht : t.tag with
  | tail =>
    rw [ht] at h
    simp only [Bool.and_eq_false_iff, beq_eq_false_iff_ne] at h
    dsimp only
    rw [if_neg fun h' => h.elim (fun h => h h'.1) fun h => h h'.2]
    exact ⟨rfl, rfl⟩
  | head =>
    rw [ht] at h
    simp only [Bool.and_eq_false_iff, beq_eq_false_iff_ne] at h
    dsimp only
    by_cases h0 : t.word 0 = 0
    · rw [if_neg (not_not_intro h0), if_pos (h.resolve_left (not_not_intro h0)),
        if_neg (not_not_intro h0)]
      exact ⟨rfl, rfl⟩
    · rw [if_pos h0, if_pos h0]
      exact ⟨rfl, rfl⟩
  | other => exact ⟨rfl, rfl⟩
  | _ => rw [ht] at h; cases h

theorem rejectRet_ne_continue (numTags : ℕ) (t : FcTagAt) : rejectRet numTags t ≠ .continue := by
  have h : ∀ e, fcStopOr numTags e ≠ .continue := by
    intro e
    rw [fcStopOr]
    split <;> simp
  rw [rejectRet]
  split
  · simp
  · exact h _
  · exact h _

theorem rejectRet_eq_stop {numTags : ℕ} {t : FcTagAt} :
    rejectRet numTags t = .stop ↔ t.tag ≠ .head ∧ numTags ≠ 0 := by
  have h : ∀ e, fcStopOr numTags e = .stop ↔ numTags ≠ 0 := by
    intro e
    rw [fcStopOr]
    split <;> simp_all
  rw [rejectRet]
  split
  · next ht => simp [ht]
  · next ht => simp [ht, h]
  · next ht _ => exact (h _).trans ⟨fun hn => ⟨ht, hn⟩, And.right⟩

/-- Where the scan is after the tags `l`, all of them admitted. `c₀` is the context it
started from. -/
structure FcScanned (size tid : ℕ) (c₀ : FcCtx σ) (l : List FcTagAt) (c : FcCtx σ) : Prop where
  admitted_eq : admitted tid 0 l = l
  count : (c.state.numTags, c.state.curTag) = l.foldl countTag (0, 0)
  crc : c.state.crc = l.foldl FcTagAt.crcAfter 0
  inBlock : c.InBlock size ↔ ∀ t ∈ l, ScanFits size tid t
  sState : c.sState = c₀.sState
  fs : c.fs = c₀.fs
  dispatched : c.dispatched = c₀.dispatched
  finished : c.finished = c₀.finished
  pass : c.state.currentPass = .scan

/-- Where the scan has stopped: after the tags `l`, at a tag `t` that is not admitted. -/
structure FcRejected (size tid : ℕ) (c₀ : FcCtx σ) (l : List FcTagAt) (t : FcTagAt) (c : FcCtx σ) :
    Prop where
  admitted_eq : admitted tid 0 l = l
  not_admits : t.admits tid (l.foldl FcTagAt.crcAfter 0) = false
  numTags : c.state.numTags = numTagsAfter l
  inBlock : c.InBlock size ↔ ∀ t' ∈ l ++ [t], ScanFits size tid t'
  sState : c.sState = c₀.sState
  fs : c.fs = c₀.fs
  dispatched : c.dispatched = c₀.dispatched
  finished : c.finished = c₀.finished
  pass : c.state.currentPass = .scan

variable {c₀ : FcCtx σ} {l : List FcTagAt}

theorem FcScanned.numTags (h : FcScanned size tid c₀ l c) : c.state.numTags = numTagsAfter l :=
  congrArg Prod.fst h.count

/-- One round of the scan. -/
theorem FcScanned.step (h : FcScanned size tid c₀ l c) :
    ((fcScanTag tid t c).1 = .continue ∧
      FcScanned size tid c₀ (l ++ [t]) (fcScanTag tid t c).2) ∨
    ((fcScanTag tid t c).1 = rejectRet (numTagsAfter l) t ∧
      FcRejected size tid c₀ l t (fcScanTag tid t c).2) := by
  have hf := @fcScanTag_frame σ tid c t
  have hin : (fcScanTag tid t c).2.InBlock size ↔ ∀ t' ∈ l ++ [t], ScanFits size tid t' := by
    rw [fcScanTag_inBlock, h.inBlock, List.forall_mem_append, List.forall_mem_singleton]
  cases ht : t.admits tid c.state.crc with
  | true =>
    obtain ⟨h1, h2, h3⟩ := fcScanTag_of_admits ht
    refine Or.inl ⟨h1, ⟨?_, ?_, ?_, hin, hf.sState.trans h.sState, hf.fs.trans h.fs,
      hf.dispatched.trans h.dispatched, hf.finished.trans h.finished, hf.pass.trans h.pass⟩⟩
    · exact admitted_concat h.admitted_eq (h.crc ▸ ht)
    · rw [h2, h.count, List.foldl_append, List.foldl_cons, List.foldl_nil]
    · rw [h3, h.crc, List.foldl_append, List.foldl_cons, List.foldl_nil]
  | false =>
    obtain ⟨h1, h2⟩ := fcScanTag_of_not_admits ht
    exact Or.inr ⟨h.numTags ▸ h1, ⟨h.admitted_eq, h.crc ▸ ht, h2.trans h.numTags, hin,
      hf.sState.trans h.sState, hf.fs.trans h.fs, hf.dispatched.trans h.dispatched,
      hf.finished.trans h.finished, hf.pass.trans h.pass⟩⟩

/-- The scan of a list of tags. -/
theorem FcScanned.run (ts : List FcTagAt) : ∀ {l : List FcTagAt} {c : FcCtx σ},
    FcScanned size tid c₀ l c →
    ((runTags (fcScanTag tid) ts c).1 = .continue ∧
      (runTags (fcScanTag tid) ts c).2.state.expectedOff = c.state.expectedOff ∧
      FcScanned size tid c₀ (l ++ ts) (runTags (fcScanTag tid) ts c).2) ∨
    ∃ l' t rest, l ++ ts = l' ++ t :: rest ∧
      (runTags (fcScanTag tid) ts c).1 = rejectRet (numTagsAfter l') t ∧
      FcRejected size tid c₀ l' t (runTags (fcScanTag tid) ts c).2 := by
  induction ts with
  | nil => intro l c h; exact Or.inl ⟨rfl, rfl, by rwa [List.append_nil]⟩
  | cons t ts ih =>
    intro l c h
    rcases h.step (t := t) with ⟨h1, h2⟩ | ⟨h1, h2⟩
    · have hrun : runTags (fcScanTag tid) (t :: ts) c =
          runTags (fcScanTag tid) ts (fcScanTag tid t c).2 := by
        rw [runTags, ← Prod.mk.eta (p := fcScanTag tid t c), h1]
      have hoff : (fcScanTag tid t c).2.state.expectedOff = c.state.expectedOff :=
        fcScanTag_frame.expectedOff
      rw [hrun, ← hoff, ← List.singleton_append, ← List.append_assoc]
      exact ih h2
    · have hrun : runTags (fcScanTag tid) (t :: ts) c = fcScanTag tid t c := by
        rw [runTags]
        split
        · next c' hc =>
          rw [hc] at h1
          exact absurd h1.symm (rejectRet_ne_continue _ _)
        · rfl
      rw [hrun]
      exact Or.inr ⟨l, t, ts, rfl, h1, h2⟩

end Scan

/-! ### The scan pass -/

section Pass

variable {σ : Type} {j : Journal} {tid : ℕ} {c₀ c : FcCtx σ} {l : List FcTagAt}

/-- Reading the first tag number of the first block stays in the block. -/
theorem FcScanned.zero_read (h : FcScanned j.jBlocksize tid c₀ [] c) (hsize : 2 ≤ j.jBlocksize)
    (off : ℕ) :
    FcScanned j.jBlocksize tid c₀ [] { c.read off 0 2 with state := .zero } :=
  have hin : (c.read off 0 2).InBlock j.jBlocksize ↔ ∀ t ∈ [], ScanFits j.jBlocksize tid t := by
    rw [FcCtx.inBlock_read, h.inBlock]
    exact and_iff_left (by omega)
  ⟨rfl, rfl, rfl, (FcCtx.inBlock_congr rfl rfl).trans hin, h.sState, h.fs, h.dispatched,
    h.finished, rfl⟩

/-- Whether the first tag of a block is a head. -/
def startsWithHead (bh : Block) : Prop := fcTagOf (getLe bh 0 2) = .head

/-- The scan of a block. -/
theorem FcScanned.block {bh : Block} {off : ℕ} (h : FcScanned j.jBlocksize tid c₀ l c)
    (hsize : 2 ≤ j.jBlocksize) (hoff : c.state.expectedOff = off)
    (hfirst : off = 0 → l = [] ∧ c.state = .zero ∧ startsWithHead bh) :
    let r := ext4FcReplayScan j bh off tid c
    (r.1 = .continue ∧ r.2.state.expectedOff = off + 1 ∧
      FcScanned j.jBlocksize tid c₀ (l ++ fcTags j.jBlocksize bh off j.jBlocksize 0) r.2) ∨
    ∃ l' t rest, l ++ fcTags j.jBlocksize bh off j.jBlocksize 0 = l' ++ t :: rest ∧
      r.1 = rejectRet (numTagsAfter l') t ∧ FcRejected j.jBlocksize tid c₀ l' t r.2 := by
  obtain ⟨c', hc', hoff', hscan⟩ : ∃ c', FcScanned j.jBlocksize tid c₀ l c' ∧
      c'.state.expectedOff = off + 1 ∧ ext4FcReplayScan j bh off tid c =
        fcTagLoop j.jBlocksize bh off (fcScanTag tid) j.jBlocksize 0 c' := by
    rw [ext4FcReplayScan]
    dsimp only
    by_cases h0 : off = 0
    · obtain ⟨rfl, -, hhead⟩ := hfirst h0
      have hr := h.zero_read hsize off
      rw [hoff, if_pos h0, if_neg fun hn => hn.2 hhead]
      dsimp only
      rw [if_neg (show ¬off ≠ FcReplayState.zero.expectedOff from not_not_intro h0)]
      refine ⟨_, ?_, ?_, rfl⟩
      · exact ⟨hr.1, hr.2, hr.3, hr.4, hr.5, hr.6, hr.7, hr.8, hr.9⟩
      · rw [h0]
        rfl
    · rw [hoff, if_neg h0, if_neg fun hn => h0 hn.1, hoff, if_neg (not_not_intro rfl)]
      refine ⟨_, ?_, ?_, rfl⟩
      · exact ⟨h.1, h.2, h.3, h.4, h.5, h.6, h.7, h.8, h.9⟩
      · rfl
  dsimp only
  rw [hscan, fcTagLoop_eq_runTags, ← hoff']
  exact FcScanned.run _ hc'

/-- The fast-commit area ends with the journal, whose blocks have numbers of 32 bits. -/
structure FcAreaEnds (j : Journal) : Prop where
  total_le : j.jTotalLen ≤ j.jFcLast
  last_lt : j.jFcLast < 2 ^ 32

/-- No block is read behind the end of the journal. -/
theorem jread_behind {blk : ℕ} (hend : j.jTotalLen ≤ blk) (hlt : blk < 2 ^ 32) :
    jread j blk = .error .efscorrupted := by
  rw [jread_of_lt hlt, if_pos hend]

/-- The scan of the blocks from `blk` on, the last of which is behind the end of the
journal. -/
theorem FcScanned.blocks (ops : FcOps σ) (hsize : 2 ≤ j.jBlocksize) (n : ℕ) : ∀ {blk : ℕ}
    {l : List FcTagAt} {c : FcCtx σ}, FcScanned j.jBlocksize tid c₀ l c → j.jFcFirst ≤ blk →
    j.jTotalLen ≤ blk + n → blk + n < 2 ^ 32 → c.state.expectedOff = blk - j.jFcFirst →
    (blk = j.jFcFirst → l = [] ∧ c.state = .zero ∧
      ∀ bh, jread j blk = .ok bh → startsWithHead bh) →
    let r := fcPassLoop j (ext4FcReplay j ops .scan tid) (n + 1) blk c
    (r.1 ≠ none ∧ FcScanned j.jBlocksize tid c₀ (l ++ fcAreaFrom j (n + 1) blk) r.2) ∨
    ∃ l' t rest, l ++ fcAreaFrom j (n + 1) blk = l' ++ t :: rest ∧
      (r.1 = none ↔ rejectRet (numTagsAfter l') t = .stop) ∧
      FcRejected j.jBlocksize tid c₀ l' t r.2 := by
  induction n with
  | zero =>
    intro blk l c h hblk hend hlt hoff hfirst
    have hread : jread j blk = .error .efscorrupted := jread_behind hend hlt
    rw [fcPassLoop, fcAreaFrom, hread]
    exact Or.inl ⟨by simp, by rwa [List.append_nil]⟩
  | succ n ih =>
    intro blk l c h hblk hend hlt hoff hfirst
    dsimp only
    rw [fcPassLoop, fcAreaFrom]
    cases hread : jread j blk with
    | error err => exact Or.inl ⟨by simp, by rwa [List.append_nil]⟩
    | ok bh =>
      have hcb : ext4FcReplay j ops .scan tid bh (blk - j.jFcFirst) c =
          ext4FcReplayScan j bh (blk - j.jFcFirst) tid c := by
        rw [ext4FcReplay, if_pos rfl, ← h.pass]
      have hb := h.block hsize hoff fun h0 => by
        obtain ⟨h1, h2, h3⟩ := hfirst (by omega)
        exact ⟨h1, h2, h3 bh hread⟩
      dsimp only at hb ⊢
      rw [hcb, ← List.append_assoc]
      rcases hb with ⟨h1, h2, h3⟩ | ⟨l', t, rest, h1, h2, h3⟩
      · rw [← Prod.mk.eta (p := ext4FcReplayScan j bh (blk - j.jFcFirst) tid c), h1]
        exact ih h3 (by omega) (by omega) (by omega) (by rw [h2]; omega) fun hb => by omega
      · refine Or.inr ⟨l', t, rest ++ fcAreaFrom j (n + 1) (blk + 1), by rw [h1]; simp, ?_⟩
        rw [← Prod.mk.eta (p := ext4FcReplayScan j bh (blk - j.jFcFirst) tid c), h2]
        cases hr : rejectRet (numTagsAfter l') t with
        | «continue» => exact absurd hr (rejectRet_ne_continue _ _)
        | stop => exact ⟨by simp, h3⟩
        | error e => exact ⟨by simp, h3⟩

variable (tid) in
theorem FcScanned.fresh (size : ℕ) (sState : ℕ) (fs : σ) :
    FcScanned size tid (.fresh sState fs) [] (.fresh sState fs) :=
  ⟨rfl, rfl, rfl, by simp [FcCtx.InBlock, FcCtx.fresh], rfl, rfl, rfl, rfl, rfl⟩

/-- The area starts with a head. -/
def AreaHead (j : Journal) : Prop := (fcArea j).head?.map FcTagAt.tag = some .head

/-- The first tag of the area is the one at the start of its first block. -/
theorem areaHead_iff {bh : Block} (hsize : 2 ≤ j.jBlocksize) (hle : j.jFcFirst ≤ j.jFcLast)
    (hread : jread j j.jFcFirst = .ok bh) : AreaHead j ↔ startsWithHead bh := by
  obtain ⟨n, hn⟩ : ∃ n, j.jFcLast + 1 - j.jFcFirst = n + 1 := ⟨j.jFcLast - j.jFcFirst, by omega⟩
  obtain ⟨m, hm⟩ : ∃ m, j.jBlocksize = m + 1 := ⟨j.jBlocksize - 1, by omega⟩
  have htags : ∃ ts, fcTags j.jBlocksize bh (j.jFcFirst - j.jFcFirst) j.jBlocksize 0 =
      ⟨bh, j.jFcFirst - j.jFcFirst, 0⟩ :: ts := by
    refine ⟨fcTags j.jBlocksize bh (j.jFcFirst - j.jFcFirst) m
      (FcTagAt.next ⟨bh, j.jFcFirst - j.jFcFirst, 0⟩), ?_⟩
    rw [show fcTags j.jBlocksize bh (j.jFcFirst - j.jFcFirst) j.jBlocksize 0 =
      fcTags j.jBlocksize bh (j.jFcFirst - j.jFcFirst) (m + 1) 0 by rw [← hm], fcTags,
      if_pos (by omega)]
  obtain ⟨ts, hts⟩ := htags
  rw [AreaHead, fcArea, hn, fcAreaFrom, hread, startsWithHead]
  dsimp only
  rw [hts, List.cons_append, List.head?_cons, Option.map_some, Option.some_inj]
  rfl

variable (tid) in
/-- **The scan pass** over an area that starts with a head: it goes through the admitted
tags, and the tag after them decides what it returns. -/
theorem fcPass_scan_of_head (ops : FcOps σ) (sState : ℕ) (fs : σ) (hsize : 2 ≤ j.jBlocksize)
    (hlast : FcAreaEnds j) (hhead : AreaHead j) :
    let r := fcPass j ops .scan tid (.fresh sState fs)
    (r.1 ≠ none ∧ FcScanned j.jBlocksize tid (.fresh sState fs) (fcArea j) r.2) ∨
    ∃ t rest, fcArea j = admitted tid 0 (fcArea j) ++ t :: rest ∧
      (r.1 = none ↔ t.tag ≠ .head ∧ numTagsAfter (admitted tid 0 (fcArea j)) ≠ 0) ∧
      FcRejected j.jBlocksize tid (.fresh sState fs) (admitted tid 0 (fcArea j)) t r.2 := by
  have hle : j.jFcFirst ≤ j.jFcLast := by
    by_contra hlt
    rw [AreaHead, fcArea, show j.jFcLast + 1 - j.jFcFirst = 0 by omega] at hhead
    cases hhead
  obtain ⟨n, hn⟩ : ∃ n, j.jFcLast + 1 - j.jFcFirst = n + 1 := ⟨j.jFcLast - j.jFcFirst, by omega⟩
  have hb := (FcScanned.fresh tid j.jBlocksize sState fs).blocks ops hsize n le_rfl
    (by have := hlast.total_le; omega) (by have := hlast.last_lt; omega) (by rw [Nat.sub_self]; rfl)
    fun _ => ⟨rfl, rfl, fun bh hread => (areaHead_iff hsize hle hread).mp hhead⟩
  dsimp only at hb ⊢
  rw [List.nil_append, ← hn] at hb
  rw [fcPass]
  refine hb.imp_right ?_
  rintro ⟨l, t, rest, harea, hret, hrej⟩
  have hl : admitted tid 0 (fcArea j) = l := by
    rw [fcArea, harea]
    exact admitted_append_cons_of_not hrej.admitted_eq hrej.not_admits
  rw [hl]
  exact ⟨t, rest, harea, hret.trans rejectRet_eq_stop, hrej⟩

variable (tid) in
/-- The scan pass over an area that does not start with a head ends at once. -/
theorem fcPass_scan_of_not_head (ops : FcOps σ) (sState : ℕ) (fs : σ) (hsize : 2 ≤ j.jBlocksize)
    (hhead : ¬AreaHead j) :
    FcScanned j.jBlocksize tid (.fresh sState fs)
    [] (fcPass j ops .scan tid (.fresh sState fs)).2 := by
  have h := FcScanned.fresh tid j.jBlocksize sState fs
  rw [fcPass]
  rcases Nat.lt_or_ge j.jFcLast j.jFcFirst with hlt | hle
  · rw [show j.jFcLast + 1 - j.jFcFirst = 0 by omega]
    exact h
  · obtain ⟨n, hn⟩ : ∃ n, j.jFcLast + 1 - j.jFcFirst = n + 1 := ⟨j.jFcLast - j.jFcFirst, by omega⟩
    rw [hn, fcPassLoop]
    cases hread : jread j j.jFcFirst with
    | error err => exact h
    | ok bh =>
      have hnot : ¬startsWithHead bh := fun hs => hhead ((areaHead_iff hsize hle hread).mpr hs)
      have hcb : ext4FcReplay j ops .scan tid bh (j.jFcFirst - j.jFcFirst) (.fresh sState fs) =
          (.stop, { (FcCtx.fresh sState fs).read (j.jFcFirst - j.jFcFirst) 0 2 with
            state := .zero }) := by
        rw [ext4FcReplay, if_pos rfl, ext4FcReplayScan]
        dsimp only
        exact if_pos ⟨rfl, hnot⟩
      dsimp only
      rw [hcb]
      exact h.zero_read hsize _

end Pass

/-- `fc_replay_num_tags` after the scan is the number of validated tags, as an `int`. -/
theorem numTagsAfter_admitted {tid : ℕ} {area : List FcTagAt}
    (h : area.head?.map FcTagAt.tag = some .head) :
    numTagsAfter (admitted tid 0 area) = (validated tid area).length % 2 ^ 32 := by
  rw [numTagsAfter, foldl_countTag, validated, if_pos h]

end E2fsprogs
