import E2fsprogs.UnixIo.Runs

/-!
# Writes that are not lost

A device may fail any raw write. Those of `flush_cached_blocks` and of the caller's data are
reported by the call during which they fail; those of `reuse_cache` are not, and the block they
were to write is gone. So nothing is lost without a report as long as no write of `reuse_cache`
fails (`E2fsprogs.EvictsWell`).
-/

namespace E2fsprogs

/-- The channel after a run of calls. -/
def runCalls (env : UnixEnv) : List UnixOp → UnixChannel → UnixChannel
  | [], ch => ch
  | op :: ops, ch => runCalls env ops (op.call env ch).2

/-- The array after a run of calls. -/
def arrayRun (env : UnixEnv) : List UnixOp → UnixChannel → Block → Block
  | [], _, A => A
  | op :: ops, ch, A => arrayRun env ops (op.call env ch).2 (op.arrayAfter env ch A)

/-- No call of the run reports an error. -/
def AllOk (env : UnixEnv) : List UnixOp → UnixChannel → Prop
  | [], _ => True
  | op :: ops, ch => (op.call env ch).1 = .ok () ∧ AllOk env ops (op.call env ch).2

instance decidableAllOk (env : UnixEnv) : ∀ ops ch, Decidable (AllOk env ops ch)
  | [], _ => isTrue trivial
  | op :: ops, ch =>
    have := decidableAllOk env ops (op.call env ch).2
    inferInstanceAs (Decidable ((op.call env ch).1 = .ok () ∧ AllOk env ops (op.call env ch).2))

/-- A call of the run that reports no error has had no raw write fail. -/
def ReportsErrors (env : UnixEnv) : List UnixOp → UnixChannel → Prop
  | [], _ => True
  | op :: ops, ch =>
    ((op.call env ch).1 = .ok () → (op.call env ch).2.writeErrors = ch.writeErrors) ∧
      ReportsErrors env ops (op.call env ch).2

/-! ### Failures that are reported -/

section Errors

variable {env : UnixEnv} {ch ch' : UnixChannel}

theorem writeErrors_rawReadBlk {block pos : ℕ} {count : ℤ} {buf : Block} :
    (rawReadBlk env ch block count buf pos).2.writeErrors = ch.writeErrors := by
  simp only [rawReadBlk]
  split_ifs <;> rfl

theorem writeErrors_rawRead {block : ℕ} {count : ℤ} {buf : Block} :
    (rawRead env ch block count buf).2.writeErrors = ch.writeErrors := by
  have h := @writeErrors_rawReadBlk env ch block 0 count buf
  rw [rawRead]
  rcases hr : rawReadBlk env ch block count buf 0 with ⟨_ | _, ch₁⟩ <;> rwa [hr] at h

theorem writeErrors_findCachedBlock (block : ℕ) :
    (findCachedBlock ch block).2.writeErrors = ch.writeErrors := by
  rw [findCachedBlock]
  rcases findEntry ch.cache block (List.finRange cacheSize) none none with i | i <;> rfl

theorem writeErrors_reuseCache (henv : EvictsWell env) (i : Fin cacheSize) (block : ℕ) :
    (reuseCache env ch i block).writeErrors = ch.writeErrors :=
  (sameCache_evicted henv i).writeErrors

theorem writeErrors_fillBlock (henv : EvictsWell env) (wt : Bool) (block : ℕ) (buf : Block) :
    (fillBlock env wt ch block buf).writeErrors = ch.writeErrors := by
  have h := @writeErrors_findCachedBlock ch block
  rw [fillBlock]
  rcases hf : findCachedBlock ch block with ⟨i | i, ch₁⟩ <;> rw [hf] at h
  · exact h
  · exact (writeErrors_reuseCache henv i block).trans h

theorem writeErrors_fillCache (henv : EvictsWell env) (wt : Bool) (count : ℕ) :
    ∀ (block : ℕ) (buf : Block) (ch : UnixChannel),
      (fillCache env wt count block buf ch).writeErrors = ch.writeErrors := by
  induction count with
  | zero => exact fun _ _ _ => rfl
  | succ count ih =>
    intro block buf ch
    exact (ih _ _ _).trans (writeErrors_fillBlock henv wt block buf)

theorem writeErrors_saveBlocks (henv : EvictsWell env) {buf : Block} (n : ℕ) :
    ∀ (block pos : ℕ) (ch : UnixChannel),
      (saveBlocks env buf n block pos ch).writeErrors = ch.writeErrors := by
  induction n with
  | zero => exact fun _ _ _ => rfl
  | succ n ih =>
    intro block pos ch
    have h := @writeErrors_findCachedBlock ch block
    rw [saveBlocks]
    rcases hf : findCachedBlock ch block with ⟨i | i, ch₁⟩ <;> rw [hf] at h
    · exact (ih _ _ _).trans h
    · exact (ih _ _ _).trans ((writeErrors_reuseCache henv i block).trans h)

theorem writeErrors_readBlocks (henv : EvictsWell env) (fuel : ℕ) :
    ∀ (block count pos : ℕ) (buf : Block) (ch : UnixChannel),
      (readBlocks env fuel block count pos buf ch).2.writeErrors = ch.writeErrors := by
  induction fuel with
  | zero => exact fun _ _ _ _ _ => rfl
  | succ fuel ih =>
    intro block count pos buf ch
    have h := @writeErrors_findCachedBlock ch block
    rw [readBlocks]
    split_ifs
    · rfl
    · rcases hf : findCachedBlock ch block with ⟨i | i, ch₁⟩ <;> rw [hf] at h
      · exact (ih _ _ _ _ _).trans h
      · have hrun := (@uncachedRun_spec block (count - 1) 1 ch₁).1.writeErrors
        have hraw := @writeErrors_rawReadBlk env (uncachedRun block (count - 1) 1 ch₁).2 block pos
          (uncachedRun block (count - 1) 1 ch₁).1 buf
        rcases hr : rawReadBlk env (uncachedRun block (count - 1) 1 ch₁).2 block
          (uncachedRun block (count - 1) 1 ch₁).1 buf pos with ⟨_ | buf₁, ch₂⟩
        all_goals
          rw [hr] at hraw
          simp only [hr]
        · exact hraw.trans (hrun.trans h)
        · exact (ih _ _ _ _ _).trans ((writeErrors_saveBlocks henv _ _ _ _).trans
            (hraw.trans (hrun.trans h)))

theorem writeErrors_flushEntry {invalidate : Bool} {i : Fin cacheSize}
    (h : (flushEntry env invalidate ch i).1 = true) :
    (flushEntry env invalidate ch i).2.writeErrors = ch.writeErrors := by
  have hdrop : (if invalidate = true then ch.setEntry i { ch.cache i with inUse := false }
      else ch).writeErrors = ch.writeErrors := by
    split_ifs <;> rfl
  rw [flushEntry] at h ⊢
  by_cases huse : (!(ch.cache i).inUse) = true
  · rw [if_pos huse]
  · rw [if_neg huse] at h ⊢
    generalize (if invalidate = true then ch.setEntry i { ch.cache i with inUse := false }
      else ch) = ch₁ at h hdrop ⊢
    by_cases hdirty : (!(ch₁.cache i).dirty) = true
    · rw [if_pos hdirty]
      exact hdrop
    · rw [if_neg hdirty] at h ⊢
      rcases hw : rawWriteBlk env .flush ch₁ (ch₁.cache i).block 1
        (ch₁.cache i).buf with ⟨_ | _, ch₂⟩
      · rw [hw] at h
        cases h
      · exact (rawWriteBlk_true hw).1.writeErrors.trans hdrop

theorem writeErrors_flushEntries {invalidate : Bool} (is : List (Fin cacheSize)) :
    ∀ {ch : UnixChannel}, (flushEntries env invalidate is ch).1 = true →
      (flushEntries env invalidate is ch).2.writeErrors = ch.writeErrors := by
  induction is with
  | nil => exact fun _ => rfl
  | cons i is ih =>
    intro ch h
    rw [flushEntries, Bool.and_eq_true] at h
    exact (ih h.2).trans (writeErrors_flushEntry h.1)

theorem writeErrors_flush {invalidate : Bool}
    (h : flushCachedBlocks env invalidate ch = (true, ch')) : ch'.writeErrors = ch.writeErrors := by
  have := @writeErrors_flushEntries env invalidate (List.finRange cacheSize) ch
  rw [flushCachedBlocks] at h
  rw [h] at this
  exact this rfl

/-- **A call that reports no error has had no raw write fail**, when the writes of `reuse_cache`
succeed. -/
theorem UnixOp.call_writeErrors (henv : EvictsWell env) {op : UnixOp} {u : Unit}
    (hcall : op.call env ch = (.ok u, ch')) : ch'.writeErrors = ch.writeErrors := by
  -- every raw write of a call is checked, but for those of `reuse_cache`
  cases op with
  | read block count buf =>
    obtain ⟨buf', hread⟩ := UnixOp.call_read hcall
    rw [unixReadBlk64] at hread
    split_ifs at hread
    · exact (congrArg (fun r => r.2.writeErrors) hread).symm.trans writeErrors_rawRead
    · rcases hf : flushCachedBlocks env false ch with ⟨_ | _, ch₁⟩ <;> rw [hf] at hread
      · cases hread
      · exact (congrArg (fun r => r.2.writeErrors) hread).symm.trans
          (writeErrors_rawRead.trans (writeErrors_flush hf))
    · exact (congrArg (fun r => r.2.writeErrors) hread).symm.trans
        (writeErrors_readBlocks henv _ _ _ _ _ _)
  | write wt block count buf =>
    have hwrite : unixWriteBlk64 env wt ch block count buf = (.ok u, ch') := hcall
    rw [unixWriteBlk64] at hwrite
    split_ifs at hwrite with hno hlarge hwt
    · exact (rawWrite_ok hwrite).1.writeErrors
    · rcases hf : flushCachedBlocks env true ch with ⟨_ | _, ch₁⟩ <;> rw [hf] at hwrite
      · cases hwrite
      · exact (rawWrite_ok hwrite).1.writeErrors.trans (writeErrors_flush hf)
    · rw [Prod.mk.injEq] at hwrite
      rw [← hwrite.2]
      exact (writeErrors_fillCache henv _ _ _ _ _).trans
        (rawWrite_ok (Prod.ext hwrite.1 rfl)).1.writeErrors
    · rw [Prod.mk.injEq] at hwrite
      rw [← hwrite.2]
      exact writeErrors_fillCache henv _ _ _ _ _
  | writeByte offset size buf =>
    have hwrite : unixWriteByte env ch offset size buf = (.ok u, ch') := hcall
    rw [unixWriteByte] at hwrite
    split_ifs at hwrite
    · cases hwrite
    · rcases hf : flushCachedBlocks env true ch with ⟨_ | _, ch₁⟩ <;> rw [hf] at hwrite
      · cases hwrite
      · dsimp only at hwrite
        split_ifs at hwrite
        · cases hwrite
        · cases hwrite
          have herr : ch₁.writeErrors = ch.writeErrors := writeErrors_flush hf
          exact herr
  | setBlksize blksize =>
    have hset : unixSetBlksize env ch blksize = (.ok u, ch') := hcall
    rw [unixSetBlksize] at hset
    split_ifs at hset
    · cases hset
      rfl
    · rcases hf : flushCachedBlocks env false ch with ⟨_ | _, ch₁⟩ <;> rw [hf] at hset
      · cases hset
      · cases hset
        have herr : ch₁.writeErrors = ch.writeErrors := writeErrors_flush hf
        exact herr
  | flush =>
    have hflush : unixFlush env ch = (.ok u, ch') := hcall
    rw [unixFlush] at hflush
    rcases hf : flushCachedBlocks env false ch with ⟨_ | _, ch₁⟩ <;> rw [hf] at hflush
    · cases hflush
    · rw [Prod.mk.injEq] at hflush
      rw [← hflush.2]
      have herr : ch₁.writeErrors = ch.writeErrors := writeErrors_flush hf
      exact herr

end Errors

/-! ### Whole runs -/

section Run

variable {env : UnixEnv}

theorem reportsErrors (henv : EvictsWell env) (ops : List UnixOp) :
    ∀ ch : UnixChannel, ReportsErrors env ops ch := by
  induction ops with
  | nil => exact fun _ => trivial
  | cons op ops ih =>
    intro ch
    exact ⟨fun hok => UnixOp.call_writeErrors henv (Prod.ext hok rfl), ih _⟩

/-- After a run without errors the device holds the array once it is flushed. -/
theorem dev_runCalls (henv : EvictsWell env) (ops : List UnixOp) : ∀ {ch : UnixChannel} {A : Block},
    Stands ch A → ch.Quiet → RunFillsSafely env ops ch → AllOk env (ops ++ [UnixOp.flush]) ch →
    (runCalls env (ops ++ [UnixOp.flush]) ch).dev = arrayRun env ops ch A := by
  induction ops with
  | nil => exact fun h _ _ hok => (unixFlush_ok h (Prod.ext hok.1 rfl)).2.2
  | cons op ops ih =>
    rintro ch A h hquiet ⟨hsafe, hrest⟩ ⟨hok, hoks⟩
    have hcall : op.call env ch = (.ok (), (op.call env ch).2) := Prod.ext hok rfl
    obtain ⟨h', hno⟩ := UnixOp.call_ok henv h hquiet hsafe hcall
    rw [arrayRun, UnixOp.arrayAfter, hok]
    refine ih h' (fun hn => ?_) hrest hoks
    exact UnixOp.call_quiet h hquiet hcall (hno ▸ hn)

/-- **No accepted write is lost** when the writes of `reuse_cache` do not fail: if no call of a run
and the flush after it reports an error, the device holds what the writes of the run made of it;
and a call that reports no error has had no raw write fail. -/
theorem unixRun_losesNothing (henv : EvictsWell env) {ch : UnixChannel}
    (hopen : ∀ i, (ch.cache i).inUse = false) (ops : List UnixOp)
    (hsafe : RunFillsSafely env ops ch) :
    (AllOk env (ops ++ [UnixOp.flush]) ch →
      (runCalls env (ops ++ [UnixOp.flush]) ch).dev = arrayRun env ops ch ch.dev) ∧
      ReportsErrors env (ops ++ [UnixOp.flush]) ch :=
  ⟨dev_runCalls henv ops (stands_opened hopen) (fun _ => hopen) hsafe, reportsErrors henv _ ch⟩

/-- A device on which the first write of `flush_cached_blocks` fails. -/
def failingFlush : UnixEnv :=
  { calmUnix with writeFails := fun site n => site == .flush && n == 0 }

theorem unixRun_losesNothing_failingFlush :
    (AllOk failingFlush ([UnixOp.write false 3 1 (filledBlock 1)] ++ [UnixOp.flush]) openedChannel →
      (runCalls failingFlush ([UnixOp.write false 3 1 (filledBlock 1)] ++ [UnixOp.flush])
        openedChannel).dev =
        arrayRun failingFlush [UnixOp.write false 3 1 (filledBlock 1)] openedChannel
          openedChannel.dev) ∧
      ReportsErrors failingFlush ([UnixOp.write false 3 1 (filledBlock 1)] ++ [UnixOp.flush])
        openedChannel :=
  unixRun_losesNothing (fun _ => rfl) (fun _ => rfl) _ ⟨Bool.noConfusion, trivial⟩

/-- A device on which the writes of `reuse_cache` fail. -/
def failingReuse : UnixEnv := { calmUnix with writeFails := fun site _ => site == .reuse }

/-- Nine blocks written one after the other: the ninth evicts the first. -/
def nineWrites : List UnixOp :=
  (List.range' 1 9).map fun b => .write false b 1 (filledBlock 1)

/-- No call reports an error, and the first block is lost. -/
theorem nineWrites_lost : AllOk failingReuse (nineWrites ++ [UnixOp.flush]) openedChannel ∧
    (runCalls failingReuse (nineWrites ++ [UnixOp.flush]) openedChannel).dev ≠
      arrayRun failingReuse nineWrites openedChannel openedChannel.dev := by
  constructor
  · decide +kernel
  · intro h
    exact absurd (congrFun h 1024) (by decide +kernel)

end Run

end E2fsprogs
