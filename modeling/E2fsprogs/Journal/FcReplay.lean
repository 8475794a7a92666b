import E2fsprogs.Journal.FcScan

/-!
# Replaying the validated tags

The replay pass counts `fc_replay_num_tags` down, one for each tag it hands to a handler,
and looks at the counter at the head of the next tag and of the next block. Whatever the
handlers do, the tags they are given are the first ones of the area, as many as the counter
says, up to a handler that fails; and when the pass succeeds the replay has been finished
(`E2fsprogs.fcPass_replay`).

It succeeds only if it comes to a tag or a block after the last one it replays.
-/

namespace E2fsprogs

/-! ### What a handler does -/

/-- What the handler of a tag reads lies in the block, and a name has a length. -/
def ReplayFits (size inodeSize : ℕ) (t : FcTagAt) : Prop :=
  match t.tag with
  | .creat | .link | .unlink => 8 ≤ t.len ∧ t.val + t.len ≤ size
  | .addRange => t.val + 16 ≤ size
  | .delRange => t.val + 12 ≤ size
  | .inode =>
      (128 < inodeSize → t.val + 134 ≤ size) ∧ t.val + 4 + fcInodeLen inodeSize t ≤ size
  | _ => True

section Dispatch

variable {σ : Type} {ops : FcOps σ} {t : FcTagAt} {c c' : FcCtx σ} {size : ℕ}

/-- The parts of a context that no handler changes. -/
structure FcCtx.HandlerFrame (c c' : FcCtx σ) : Prop where
  state : c'.state = c.state
  sState : c'.sState = c.sState
  dispatched : c'.dispatched = c.dispatched
  finished : c'.finished = c.finished

theorem tlToDarg_frame : c.HandlerFrame (tlToDarg ops t c).2 := by
  rw [tlToDarg]
  dsimp only
  split
  · exact ⟨rfl, rfl, rfl, rfl⟩
  · exact ⟨rfl, rfl, rfl, rfl⟩

theorem fcHandleRange_frame {n : ℕ} {modify : σ → ℤ × σ} :
    c.HandlerFrame (fcHandleRange ops n modify t c).2 := by
  rw [fcHandleRange]
  dsimp only
  split
  · exact ⟨rfl, rfl, rfl, rfl⟩
  · exact ⟨rfl, rfl, rfl, rfl⟩

theorem ext4FcHandleUnlink_frame : c.HandlerFrame (ext4FcHandleUnlink ops t c).2 := by
  have h := @tlToDarg_frame σ ops t c
  rw [ext4FcHandleUnlink]
  split
  · next hd =>
    rw [hd] at h
    exact h
  · next hd =>
    rw [hd] at h
    exact ⟨h.1, h.2, h.3, h.4⟩

theorem ext4FcHandleLinkAndCreate_frame :
    c.HandlerFrame (ext4FcHandleLinkAndCreate ops t c).2 := by
  have h := @tlToDarg_frame σ ops t c
  rw [ext4FcHandleLinkAndCreate]
  split
  · next hd =>
    rw [hd] at h
    exact h
  · next hd =>
    rw [hd] at h
    dsimp only
    split
    · exact ⟨h.1, h.2, h.3, h.4⟩
    · split
      · exact ⟨h.1, h.2, h.3, h.4⟩
      · exact ⟨h.1, h.2, h.3, h.4⟩
      · exact ⟨h.1, h.2, h.3, h.4⟩

theorem ext4FcHandleInode_frame : c.HandlerFrame (ext4FcHandleInode ops t c).2 := by
  have h : c.HandlerFrame (c.readInodeHead ops.inodeSize t) := by
    rw [FcCtx.readInodeHead]
    split
    · exact ⟨rfl, rfl, rfl, rfl⟩
    · exact ⟨rfl, rfl, rfl, rfl⟩
  rw [ext4FcHandleInode]
  dsimp only
  split
  · exact h
  · split
    · exact ⟨h.1, h.2, h.3, h.4⟩
    · exact ⟨h.1, h.2, h.3, h.4⟩

/-- **A handler works on the file system only.** -/
theorem fcDispatch_frame : c.HandlerFrame (fcDispatch ops t c).2 := by
  rw [fcDispatch]
  cases t.tag with
  | creat => exact ext4FcHandleLinkAndCreate_frame
  | link => exact ext4FcHandleLinkAndCreate_frame
  | unlink => exact ext4FcHandleUnlink_frame
  | addRange => exact fcHandleRange_frame
  | delRange => exact fcHandleRange_frame
  | inode => exact ext4FcHandleInode_frame
  | _ => exact ⟨rfl, rfl, rfl, rfl⟩

theorem sizeT_of_nonneg {n : ℕ} (h : n < 2 ^ 64) : sizeT n = n := by
  rw [sizeT]
  omega

theorem FcTagAt.len_lt (t : FcTagAt) : t.len < 65536 := by
  have h : ∀ i, (t.bh i).toNat < 256 := fun i => (t.bh i).toNat_lt
  have h0 := h (t.cur + 2)
  have h1 := h (t.cur + 2 + 1)
  rw [FcTagAt.len]
  simp only [getLe]
  omega

theorem FcCtx.inBlock_readInodeHead {inodeSize : ℕ} :
    (c.readInodeHead inodeSize t).InBlock size ↔
      c.InBlock size ∧ t.val + 4 ≤ size ∧ (128 < inodeSize → t.val + 134 ≤ size) := by
  rw [FcCtx.readInodeHead]
  split
  · next h =>
    rw [FcCtx.inBlock_read, FcCtx.inBlock_read]
    exact ⟨fun h' => ⟨h'.1.1, h'.1.2, fun _ => h'.2⟩, fun h' => ⟨⟨h'.1, h'.2.1⟩, h'.2.2 h⟩⟩
  · next h =>
    rw [FcCtx.inBlock_read]
    exact ⟨fun h' => ⟨h'.1, h'.2, fun hn => absurd hn h⟩, fun h' => ⟨h'.1, h'.2.1⟩⟩

variable (ops) in
/-- What `tl_to_darg` reads of a name with a length. -/
theorem tlToDarg_inBlock (h : c.InBlock size) (hlen : 8 ≤ t.len) (hval : t.val + t.len ≤ size) :
    (tlToDarg ops t c).2.InBlock size := by
  have hsize : sizeT ((t.len : ℤ) - 8) = t.len - 8 := by
    have := sizeT_of_nonneg (show t.len - 8 < 2 ^ 64 by have := t.len_lt; omega)
    rwa [Nat.cast_sub hlen] at this
  have hname : ({ c.read t.off t.val 8 with
      dnameLens := (t.len - 8 : ℤ) :: c.dnameLens } : FcCtx σ).InBlock size := by
    refine ⟨?_, ?_⟩
    · exact (FcCtx.inBlock_read.mpr ⟨h, by omega⟩).1
    · intro n hn
      rcases List.mem_cons.mp hn with rfl | hn
      · omega
      · exact h.2 n hn
  rw [tlToDarg]
  dsimp only
  split
  · refine FcCtx.inBlock_read.mpr ⟨hname, ?_⟩
    rw [hsize]
    omega
  · exact hname

/-- **A handler stays in the block** when what it may read fits. -/
theorem fcDispatch_inBlock (h : c.InBlock size) (hfits : ReplayFits size ops.inodeSize t) :
    (fcDispatch ops t c).2.InBlock size := by
  have hrange : ∀ {n : ℕ} {modify : σ → ℤ × σ}, t.val + n ≤ size →
      (fcHandleRange ops n modify t c).2.InBlock size := by
    intro n modify hn
    have hread : (c.read t.off t.val n).InBlock size := FcCtx.inBlock_read.mpr ⟨h, hn⟩
    rw [fcHandleRange]
    dsimp only
    split
    · exact hread
    · exact hread
  have hlink : 8 ≤ t.len ∧ t.val + t.len ≤ size →
      (ext4FcHandleLinkAndCreate ops t c).2.InBlock size := by
    rintro ⟨h1, h2⟩
    have hd := tlToDarg_inBlock ops h h1 h2
    rw [ext4FcHandleLinkAndCreate]
    split
    · next he => rwa [he] at hd
    · next he =>
      rw [he] at hd
      dsimp only
      split
      · exact hd
      · split
        · exact hd
        · exact hd
        · exact hd
  rw [ReplayFits] at hfits
  rw [fcDispatch]
  -- one case for each handler; PAD, HEAD and TAIL replay nothing
  cases ht : t.tag with
  | creat => rw [ht] at hfits; exact hlink hfits
  | link => rw [ht] at hfits; exact hlink hfits
  | unlink =>
    rw [ht] at hfits
    have hd := tlToDarg_inBlock ops h hfits.1 hfits.2
    show (ext4FcHandleUnlink ops t c).2.InBlock size
    rw [ext4FcHandleUnlink]
    split
    · next he => rwa [he] at hd
    · next he => rw [he] at hd; exact hd
  | addRange => rw [ht] at hfits; exact hrange hfits
  | delRange => rw [ht] at hfits; exact hrange hfits
  | inode =>
    rw [ht] at hfits
    have hhead : (c.readInodeHead ops.inodeSize t).InBlock size :=
      FcCtx.inBlock_readInodeHead.mpr ⟨h, by have := hfits.2; omega, hfits.1⟩
    show (ext4FcHandleInode ops t c).2.InBlock size
    rw [ext4FcHandleInode]
    dsimp only
    split
    · exact hhead
    · split
      · exact hhead
      · exact FcCtx.inBlock_read.mpr ⟨hhead, hfits.2⟩
  | _ => exact h

end Dispatch

/-! ### The replay of a list of tags -/

/-- Nothing goes wrong in a handler that is given a tag it knows. -/
structure FcOps.Succeed {σ : Type} (ops : FcOps σ) : Prop where
  readBitmaps : ∀ fs, (ops.readBitmaps fs).1 = 0
  dispatch : ∀ t c, t.tag ≠ .other → 0 ≤ (fcDispatch ops t c).1

/-- The handlers read all that they may read. -/
structure FcOps.ReadsAll {σ : Type} (ops : FcOps σ) (size : ℕ) : Prop where
  mono : ∀ t c, (fcDispatch ops t c).2.InBlock size → c.InBlock size
  fits : ∀ t c, (fcDispatch ops t c).2.InBlock size → ReplayFits size ops.inodeSize t

/-- What the replay reads of the tags `l` lies in their blocks. -/
def ReplayInBlock (size inodeSize : ℕ) (l : List FcTagAt) : Prop :=
  ∀ t ∈ l, t.cur + 4 ≤ size ∧ ReplayFits size inodeSize t

section Replay

variable {σ : Type} {ops : FcOps σ} {size m : ℕ} {c₁ c : FcCtx σ} {l : List FcTagAt} {t : FcTagAt}

/-- Where the replay of `m` tags is after the tags `l`. `c₁` is the context the pass started
from. -/
structure FcReplayed (ops : FcOps σ) (size m : ℕ) (c₁ : FcCtx σ) (l : List FcTagAt) (c : FcCtx σ) :
    Prop where
  le : l.length ≤ m
  numTags : c.state.numTags = m - l.length
  dispatched : c.dispatched = c₁.dispatched ++ l
  finished : c.finished = c₁.finished
  pass : c.state.currentPass = .replay
  superState : c.state.superState = c₁.sState
  inBlock : c₁.InBlock size → ReplayInBlock size ops.inodeSize l → c.InBlock size
  fits : ops.ReadsAll size → c.InBlock size →
    c₁.InBlock size ∧ ∀ t ∈ l, ReplayFits size ops.inodeSize t

/-- Where the replay of `m` tags has been finished, after the tags `l` and in front of
`rest`. -/
structure FcFinished (ops : FcOps σ) (size m : ℕ) (c₁ : FcCtx σ) (l rest : List FcTagAt)
    (c : FcCtx σ) : Prop where
  length : l.length = m
  dispatched : c.dispatched = c₁.dispatched ++ l
  finished : c.finished = c₁.finished + 1
  sState : c.sState = c₁.sState
  inBlock : c₁.InBlock size → ReplayInBlock size ops.inodeSize l →
    (∀ t, rest.head? = some t → t.cur + 4 ≤ size) → c.InBlock size
  fits : ops.ReadsAll size → c.InBlock size →
    c₁.InBlock size ∧ ∀ t ∈ l, ReplayFits size ops.inodeSize t

/-- Where the replay of `m` tags has failed, the last of the tags `l` being the one whose
handler returned an error. -/
structure FcFailed (ops : FcOps σ) (size m : ℕ) (c₁ : FcCtx σ) (l : List FcTagAt) (c : FcCtx σ) :
    Prop where
  le : l.length ≤ m
  dispatched : c.dispatched = c₁.dispatched ++ l
  inBlock : c₁.InBlock size → ReplayInBlock size ops.inodeSize l → c.InBlock size
  other : ops.Succeed → ∃ t ∈ l, t.tag = .other

/-- How a part of the replay over the tags `area` ends. -/
def ReplayOutcome (ops : FcOps σ) (size m : ℕ) (c₁ : FcCtx σ) (area : List FcTagAt)
    (r : FcRet × FcCtx σ) : Prop :=
  (r.1 = .continue ∧ FcReplayed ops size m c₁ area r.2) ∨
  (r.1 = .stop ∧ ∃ l rest, area = l ++ rest ∧ FcFinished ops size m c₁ l rest r.2) ∨
  ∃ e, r.1 = .error e ∧ ∃ l, l <+: area ∧ FcFailed ops size m c₁ l r.2

/-- The code at `replay_done`. -/
theorem FcReplayed.done (h : FcReplayed ops size m c₁ l c) (hm : l.length = m)
    (rest : List FcTagAt) :
    (fcReplayDone ops c).1 = .stop ∧ FcFinished ops size m c₁ l rest (fcReplayDone ops c).2 := by
  rw [fcReplayDone, if_neg (not_not_intro h.pass)]
  exact ⟨rfl, hm, h.dispatched, congrArg (· + 1) h.finished, h.superState,
    fun h1 h2 _ => h.inBlock h1 h2, h.fits⟩

theorem FcCtx.inBlock_take : (c.take t).InBlock size ↔ c.InBlock size :=
  FcCtx.inBlock_congr rfl rfl

/-- One round of the replay. -/
theorem FcReplayed.step (h : FcReplayed ops size m c₁ l c) (rest : List FcTagAt) :
    ((fcReplayTag ops t c).1 = .continue ∧
      FcReplayed ops size m c₁ (l ++ [t]) (fcReplayTag ops t c).2) ∨
    ((fcReplayTag ops t c).1 = .stop ∧
      FcFinished ops size m c₁ l (t :: rest) (fcReplayTag ops t c).2) ∨
    ∃ e, (fcReplayTag ops t c).1 = .error e ∧
      FcFailed ops size m c₁ (l ++ [t]) (fcReplayTag ops t c).2 := by
  have hle := h.le
  have hnum := h.numTags
  rw [fcReplayTag]
  dsimp only
  by_cases h0 : c.state.numTags = 0
  · -- the counter has run out: the header of the tag has been read, and nothing else
    rw [if_pos (show (c.read t.off t.cur 4).state.numTags = 0 from h0)]
    refine Or.inr (Or.inl ?_)
    have hpass : ¬(c.read t.off t.cur 4).state.currentPass ≠ .replay := not_not_intro h.pass
    rw [fcReplayDone, if_neg hpass]
    refine ⟨rfl, by omega, h.dispatched, congrArg (· + 1) h.finished, h.superState, ?_, ?_⟩
    · intro h1 h2 h3
      exact FcCtx.inBlock_read.mpr ⟨h.inBlock h1 h2, h3 t rfl⟩
    · intro hall hin
      exact h.fits hall (FcCtx.inBlock_read.mp hin).1
  · rw [if_neg (show ¬(c.read t.off t.cur 4).state.numTags = 0 from h0)]
    obtain ⟨c', hc'⟩ : ∃ c', c' = (c.read t.off t.cur 4).take t := ⟨_, rfl⟩
    have hin' : c'.InBlock size ↔ c.InBlock size ∧ t.cur + 4 ≤ size := by
      rw [hc', FcCtx.inBlock_take, FcCtx.inBlock_read]
    rw [← hc']
    have hf := @fcDispatch_frame σ ops t c'
    have hdisp : (fcDispatch ops t c').2.dispatched = c₁.dispatched ++ (l ++ [t]) := by
      rw [hf.dispatched, ← List.append_assoc, ← h.dispatched, hc']
      rfl
    have hlen : (l ++ [t]).length = l.length + 1 := List.length_append
    have hinBlock : c₁.InBlock size → ReplayInBlock size ops.inodeSize (l ++ [t]) →
        (fcDispatch ops t c').2.InBlock size := by
      intro h1 h2
      rw [ReplayInBlock, List.forall_mem_append, List.forall_mem_singleton] at h2
      exact fcDispatch_inBlock (hin'.mpr ⟨h.inBlock h1 h2.1, h2.2.1⟩) h2.2.2
    by_cases hret : (fcDispatch ops t c').1 < 0
    · refine Or.inr (Or.inr ⟨(fcDispatch ops t c').1.natAbs, ?_⟩)
      rw [if_pos hret]
      refine ⟨rfl, by omega, hdisp, hinBlock, fun hs => ⟨t, by simp, ?_⟩⟩
      by_contra ht
      have := hs.dispatch t c' ht
      omega
    · refine Or.inl ?_
      rw [if_neg hret]
      refine ⟨rfl, by omega, ?_, hdisp, ?_, ?_, ?_, hinBlock, ?_⟩
      · rw [hf.state, hlen, hc']
        show intDecr c.state.numTags = m - (l.length + 1)
        rw [intDecr, if_neg h0]
        omega
      · rw [hf.finished, hc']
        exact h.finished
      · rw [hf.state, hc']
        exact h.pass
      · rw [hf.state, hc']
        exact h.superState
      · intro hall hin
        obtain ⟨h1, h2⟩ := h.fits hall (hin'.mp (hall.mono t c' hin)).1
        rw [List.forall_mem_append, List.forall_mem_singleton]
        exact ⟨h1, h2, hall.fits t c' hin⟩

/-- The replay of a list of tags. -/
theorem FcReplayed.run (ts : List FcTagAt) : ∀ {l : List FcTagAt} {c : FcCtx σ},
    FcReplayed ops size m c₁ l c →
    ReplayOutcome ops size m c₁ (l ++ ts) (runTags (fcReplayTag ops) ts c) := by
  induction ts with
  | nil =>
    intro l c h
    rw [List.append_nil]
    exact Or.inl ⟨rfl, h⟩
  | cons t ts ih =>
    intro l c h
    rw [runTags]
    rcases h.step (t := t) ts with ⟨h1, h2⟩ | ⟨h1, h2⟩ | ⟨e, h1, h2⟩
    · rw [← Prod.mk.eta (p := fcReplayTag ops t c), h1, ← List.singleton_append,
        ← List.append_assoc]
      exact ih h2
    · rw [← Prod.mk.eta (p := fcReplayTag ops t c), h1]
      exact Or.inr (Or.inl ⟨rfl, l, t :: ts, rfl, h2⟩)
    · rw [← Prod.mk.eta (p := fcReplayTag ops t c), h1]
      exact Or.inr (Or.inr ⟨e, rfl, l ++ [t], by simp, h2⟩)

theorem FcFinished.append {rest : List FcTagAt} (h : FcFinished ops size m c₁ l rest c)
    (more : List FcTagAt) : FcFinished ops size m c₁ l (rest ++ more) c := by
  refine ⟨h.length, h.dispatched, h.finished, h.sState, fun h1 h2 h3 => h.inBlock h1 h2 ?_, h.fits⟩
  intro t ht
  refine h3 t ?_
  rw [List.head?_append, ht]
  rfl

end Replay

/-! ### The replay pass -/

section Pass

variable {σ : Type} {ops : FcOps σ} {j : Journal} {tid m : ℕ} {c₁ c : FcCtx σ} {l : List FcTagAt}

variable (ops j) in
/-- The start of the replay: either the bitmaps cannot be read, or the counter is where the
scan left it and `s_state` is saved. -/
theorem fcReplayStart_spec (hpass : c₁.state.currentPass = .scan) (hm : c₁.state.numTags = m) :
    ((fcReplayStart ops c₁).1 = none ∧
      FcReplayed ops j.jBlocksize m c₁ [] (fcReplayStart ops c₁).2) ∨
    ∃ e, (fcReplayStart ops c₁).1 = some e ∧
      FcFailed ops j.jBlocksize m c₁ [] (fcReplayStart ops c₁).2 := by
  rw [fcReplayStart, if_neg (by rw [hpass]; simp)]
  dsimp only
  by_cases herr : (ops.readBitmaps c₁.fs).1 = 0
  · rw [if_neg (not_not_intro herr)]
    exact Or.inl ⟨rfl, Nat.zero_le _, hm, (List.append_nil _).symm, rfl, rfl, rfl,
      fun h _ => h, fun _ h => ⟨h, fun t ht => absurd ht List.not_mem_nil⟩⟩
  · rw [if_pos herr]
    exact Or.inr ⟨_, rfl, Nat.zero_le _, (List.append_nil _).symm, fun h _ => h,
      fun hs => absurd (hs.readBitmaps _) herr⟩

/-- The replay of a block, when it is not the first one. -/
theorem FcReplayed.block (h : FcReplayed ops j.jBlocksize m c₁ l c) (bh : Block) (off : ℕ) :
    ReplayOutcome ops j.jBlocksize m c₁ (l ++ fcTags j.jBlocksize bh off j.jBlocksize 0)
      (ext4FcReplayBlock j ops bh off c) := by
  rw [ext4FcReplayBlock]
  by_cases h0 : c.state.numTags = 0
  · rw [if_pos h0]
    have hle := h.le
    have hnum := h.numTags
    obtain ⟨h1, h2⟩ := h.done (by omega) (fcTags j.jBlocksize bh off j.jBlocksize 0)
    exact Or.inr (Or.inl ⟨h1, l, _, rfl, h2⟩)
  · rw [if_neg h0, fcReplayStart, if_pos h.pass]
    dsimp only
    rw [fcTagLoop_eq_runTags]
    exact h.run _

variable (ops) in
/-- The replay of the first block. -/
theorem ext4FcReplayBlock_first (hpass : c₁.state.currentPass = .scan)
    (hm : c₁.state.numTags = m) (h0 : m ≠ 0) (bh : Block) (off : ℕ) :
    ReplayOutcome ops j.jBlocksize m c₁ (fcTags j.jBlocksize bh off j.jBlocksize 0)
      (ext4FcReplayBlock j ops bh off c₁) := by
  rw [ext4FcReplayBlock, if_neg (by rw [hm]; exact h0)]
  rcases fcReplayStart_spec ops j hpass hm with ⟨h1, h2⟩ | ⟨e, h1, h2⟩
  · rw [← Prod.mk.eta (p := fcReplayStart ops c₁), h1]
    dsimp only
    rw [fcTagLoop_eq_runTags]
    exact h2.run _
  · rw [← Prod.mk.eta (p := fcReplayStart ops c₁), h1]
    exact Or.inr (Or.inr ⟨e, rfl, [], List.nil_prefix, h2⟩)

/-- How the replay pass ends. -/
def PassOutcome (ops : FcOps σ) (size m : ℕ) (c₁ : FcCtx σ) (area : List FcTagAt)
    (r : Option FcErr × FcCtx σ) : Prop :=
  (r.1 = none ∧ ∃ l rest, area = l ++ rest ∧ FcFinished ops size m c₁ l rest r.2) ∨
  (r.1 ≠ none ∧ ∃ l, l <+: area ∧ l.length ≤ m ∧ r.2.dispatched = c₁.dispatched ++ l ∧
    (c₁.InBlock size → ReplayInBlock size ops.inodeSize l → r.2.InBlock size) ∧
    (ops.Succeed → area.length ≤ m ∨ ∃ t ∈ l, t.tag = .other))

variable (tid) in
/-- One block of the pass and the blocks after it. -/
theorem passOutcome_block {n blk : ℕ} {bh : Block} (hread : jread j blk = .ok bh)
    (hblock : ReplayOutcome ops j.jBlocksize m c₁
      (l ++ fcTags j.jBlocksize bh (blk - j.jFcFirst) j.jBlocksize 0)
      (ext4FcReplayBlock j ops bh (blk - j.jFcFirst) c))
    (hrest : ∀ {c'}, FcReplayed ops j.jBlocksize m c₁
      (l ++ fcTags j.jBlocksize bh (blk - j.jFcFirst) j.jBlocksize 0) c' →
      PassOutcome ops j.jBlocksize m c₁
        (l ++ fcTags j.jBlocksize bh (blk - j.jFcFirst) j.jBlocksize 0 ++ fcAreaFrom j n (blk + 1))
        (fcPassLoop j (ext4FcReplay j ops .replay tid) n (blk + 1) c')) :
    PassOutcome ops j.jBlocksize m c₁ (l ++ fcAreaFrom j (n + 1) blk)
      (fcPassLoop j (ext4FcReplay j ops .replay tid) (n + 1) blk c) := by
  have hcb : ext4FcReplay j ops .replay tid bh (blk - j.jFcFirst) c =
      ext4FcReplayBlock j ops bh (blk - j.jFcFirst) c := if_neg (by simp)
  rw [fcPassLoop, fcAreaFrom, hread]
  dsimp only
  rw [hcb, ← List.append_assoc]
  generalize ext4FcReplayBlock j ops bh (blk - j.jFcFirst) c = r at hblock
  obtain ⟨ret, c'⟩ := r
  rcases hblock with ⟨h1, h2⟩ | ⟨h1, l', rest, h2, h3⟩ | ⟨e, h1, l', h2, h3⟩
  · obtain rfl : ret = .continue := h1
    exact hrest h2
  · obtain rfl : ret = .stop := h1
    exact Or.inl ⟨rfl, l', rest ++ fcAreaFrom j n (blk + 1), by rw [h2, List.append_assoc],
      h3.append _⟩
  · obtain rfl : ret = .error e := h1
    exact Or.inr ⟨by simp, l', h2.trans (List.prefix_append _ _), h3.le, h3.dispatched, h3.inBlock,
      fun hs => Or.inr (h3.other hs)⟩

/-- The replay of the blocks after the first one. -/
theorem FcReplayed.blocks (n : ℕ) : ∀ {blk : ℕ} {l : List FcTagAt} {c : FcCtx σ},
    FcReplayed ops j.jBlocksize m c₁ l c → j.jTotalLen ≤ blk + n → blk + n < 2 ^ 32 →
    PassOutcome ops j.jBlocksize m c₁ (l ++ fcAreaFrom j (n + 1) blk)
      (fcPassLoop j (ext4FcReplay j ops .replay tid) (n + 1) blk c) := by
  have herr : ∀ {n blk : ℕ} {l : List FcTagAt} {c : FcCtx σ} {err : Errno},
      FcReplayed ops j.jBlocksize m c₁ l c → jread j blk = .error err →
      PassOutcome ops j.jBlocksize m c₁ (l ++ fcAreaFrom j (n + 1) blk)
        (fcPassLoop j (ext4FcReplay j ops .replay tid) (n + 1) blk c) := by
    intro n blk l c err h hread
    rw [fcPassLoop, fcAreaFrom, hread, List.append_nil]
    exact Or.inr ⟨by simp, l, List.prefix_rfl, h.le, h.dispatched, h.inBlock,
      fun _ => Or.inl h.le⟩
  induction n with
  | zero =>
    intro blk l c h hend hlt
    exact herr h (jread_behind hend hlt)
  | succ n ih =>
    intro blk l c h hend hlt
    cases hread : jread j blk with
    | error err => exact herr h hread
    | ok bh =>
      exact passOutcome_block tid hread (h.block bh _) fun h' =>
        ih h' (by omega) (by omega)

/-- **The replay pass.** Started with `m` tags to replay, it hands the first `m` tags of the
area to their handlers, up to one that fails, and succeeds only when it has finished the
replay. -/
theorem fcPass_replay (hpass : c₁.state.currentPass = .scan) (hm : c₁.state.numTags = m)
    (h0 : m ≠ 0) (hle : j.jFcFirst ≤ j.jFcLast) (hlast : FcAreaEnds j) :
    PassOutcome ops j.jBlocksize m c₁ (fcArea j) (fcPass j ops .replay tid c₁) := by
  obtain ⟨n, hn⟩ : ∃ n, j.jFcLast + 1 - j.jFcFirst = n + 1 := ⟨j.jFcLast - j.jFcFirst, by omega⟩
  obtain ⟨htotal, hlt⟩ := hlast
  rw [fcPass, fcArea, hn]
  cases hread : jread j j.jFcFirst with
  | error err =>
    rw [fcPassLoop, fcAreaFrom, hread]
    exact Or.inr ⟨by simp, [], List.prefix_rfl, Nat.zero_le _, (List.append_nil _).symm,
      fun h _ => h, fun _ => Or.inl (Nat.zero_le _)⟩
  | ok bh =>
    have hblock := passOutcome_block tid (l := []) (n := n) hread
      (ext4FcReplayBlock_first ops hpass hm h0 bh (j.jFcFirst - j.jFcFirst)) fun h' => ?_
    · exact hblock
    · cases n with
      | zero =>
        rw [jread_behind (by omega) (by omega)] at hread
        cases hread
      | succ n => exact h'.blocks n (by omega) (by omega)

/-- Without tags to replay the pass does nothing. -/
theorem fcPass_replay_zero (hpass : c₁.state.currentPass = .scan) (hm : c₁.state.numTags = 0) :
    (fcPass j ops .replay tid c₁).2 = c₁ := by
  rw [fcPass]
  generalize j.jFcLast + 1 - j.jFcFirst = n
  cases n with
  | zero => rfl
  | succ n =>
    rw [fcPassLoop]
    cases hread : jread j j.jFcFirst with
    | error err => rfl
    | ok bh =>
      have hcb : ext4FcReplay j ops .replay tid bh (j.jFcFirst - j.jFcFirst) c₁ = (.stop, c₁) := by
        rw [ext4FcReplay, if_neg (by simp), ext4FcReplayBlock, if_pos hm, fcReplayDone,
          if_pos (by rw [hpass]; simp)]
      dsimp only
      rw [hcb]

end Pass

end E2fsprogs
