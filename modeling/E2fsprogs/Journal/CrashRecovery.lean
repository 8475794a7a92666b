import E2fsprogs.Journal.RoundTrip

/-!
# Recovery after a recovery that was cut short

A crash may stop a recovery anywhere in `PASS_REPLAY`, with any of the blocks it has written so far
on the device and the others not yet. The journal still says that recovery is needed, so the next
one starts afresh, and may be cut short as well.

Nothing is lost by this (`E2fsprogs.recover_afterCrashes`): however often recovery has been cut
short, the one that ends leaves what a single recovery of the first device would have left.
-/

namespace E2fsprogs

variable {j : Journal} {fc : Option FcCallback} {log : List LogTransaction}
    {fsDev dev dev' : ℕ → Block} {s : PassState}

/-- A state that a recovery of the device goes through in `PASS_REPLAY`. -/
def Replaying (j : Journal) (fc : Option FcCallback) (dev : ℕ → Block) (s : PassState) : Prop :=
  ∃ fuel s₁ s₂, doOnePass j fc fuel .scan (recoverStart dev) = some (none, s₁) ∧
    doOnePass j fc fuel .revoke s₁ = some (none, s₂) ∧
      Loop.Reach (passStep j .replay) (startPass j .replay s₂) s

/-- **A crash in `PASS_REPLAY`**: each block holds what it held before or what one of the writes has
put there. -/
def CutShort (j : Journal) (fc : Option FcCallback) (dev dev' : ℕ → Block) : Prop :=
  ∃ s, Replaying j fc dev s ∧ ∀ b, dev' b = dev b ∨ (b, dev' b) ∈ s.written

/-! ### What has been written stays written -/

theorem suffix_replayTag (b : Block) (tagp : ℕ) (s : PassState) :
    s.fsWrites <:+ (replayTag j b tagp s).fsWrites := by
  unfold replayTag
  dsimp only
  split
  · exact List.suffix_rfl
  · split
    · exact List.suffix_rfl
    · split
      · exact List.suffix_rfl
      · exact List.suffix_cons ..

theorem suffix_replayTags (b : Block) (fuel tagp : ℕ) (s : PassState) :
    s.fsWrites <:+ (replayTagsFrom j b fuel tagp s).fsWrites := by
  induction fuel generalizing tagp s with
  | zero => exact List.suffix_rfl
  | succ fuel ih =>
    have hone := @suffix_replayTag j b tagp s
    rw [replayTagsFrom]
    split
    · dsimp only
      split
      · exact hone
      · exact hone.trans (ih ..)
    · exact List.suffix_rfl

/-- A round writes nothing more, or the loop goes round again. -/
theorem passStep_writes (s : PassState) :
    (PassStep.state (passStep j .replay s)).fsWrites = s.fsWrites ∨
    ∃ s', passStep j .replay s = .again s' ∧ s.fsWrites <:+ s'.fsWrites := by
  by_cases hgo : GoesOn .replay s
  · cases hb : jread j s.nextLogBlock with
    | error err =>
      rw [passStep_of_error hgo hb]
      exact .inl rfl
    | ok b =>
      rcases passStep_cases hgo hb with ⟨-, he⟩ | ⟨-, he⟩ | ⟨-, he⟩ | ⟨-, he⟩ <;> rw [he]
      · rw [descriptorStep_replay]
        split
        · exact .inr ⟨_, rfl, suffix_replayTags b _ _ (s.afterRead j)⟩
        · exact .inl rfl
      · exact .inl commitStep_fsWrites
      · rw [revokeStep_replay]
        exact .inl rfl
      · exact .inl rfl
  · rw [passStep_of_guard hgo]
    exact .inl rfl

/-- The three passes over a well-formed log. -/
theorem WellFormedLog.passes (hw : WellFormedLog j log) (fc : Option FcCallback) (dev : ℕ → Block) :
    ∃ N s₁ s₂ s₃, (∀ fuel, N ≤ fuel →
      doOnePass j fc fuel .scan (recoverStart dev) = some (none, s₁) ∧
      doOnePass j fc fuel .revoke s₁ = some (none, s₂) ∧
      doOnePass j fc fuel .replay s₂ = some (none, s₃)) ∧
      s₃.written = liveWrites j log ∧ s₃.jFsDev = applyWrites dev (liveWrites j log) := by
  obtain ⟨e₁, s₁, hl₁, he₁, h₁⟩ := hw.scan fc dev
  obtain ⟨e₂, s₂, hl₂, he₂, h₂⟩ := hw.revokePass fc h₁
  obtain ⟨e₃, s₃, hl₃, he₃, hwritten, hdev⟩ := hw.replayPass fc h₂
  obtain ⟨N₁, hN₁⟩ := doOnePass_of_leaves hl₁ he₁
  obtain ⟨N₂, hN₂⟩ := doOnePass_of_leaves hl₂ he₂
  obtain ⟨N₃, hN₃⟩ := doOnePass_of_leaves hl₃ he₃
  exact ⟨max N₁ (max N₂ N₃), s₁, s₂, s₃,
    fun fuel hf => ⟨hN₁ fuel (by omega), hN₂ fuel (by omega), hN₃ fuel (by omega)⟩, hwritten, hdev⟩

/-- **No recovery writes anything but the writes that count**, whatever the device holds and
wherever it is stopped. -/
theorem WellFormedLog.written_subset (hw : WellFormedLog j log) (h : Replaying j fc dev s) :
    s.written ⊆ liveWrites j log := by
  obtain ⟨fuel, t₁, t₂, hrun₁, hrun₂, hreach⟩ := h
  obtain ⟨N, s₁, s₂, s₃, hpasses, hwritten, -⟩ := hw.passes fc dev
  obtain ⟨h₁, h₂, h₃⟩ := hpasses N le_rfl
  obtain rfl : t₁ = s₁ := congrArg Prod.snd (doOnePass_unique ⟨_, hrun₁⟩ ⟨_, h₁⟩)
  obtain rfl : t₂ = s₂ := congrArg Prod.snd (doOnePass_unique ⟨_, hrun₂⟩ ⟨_, h₂⟩)
  obtain ⟨e, hrun, he⟩ := Option.map_eq_some_iff.mp h₃
  have hsuffix := state_of_leaves (P := fun u => s.fsWrites <:+ u.fsWrites) (fun u hu => ?_)
    (Loop.leaves_of_reach_start hreach ⟨N, hrun⟩) List.suffix_rfl
  · rw [← (@endPass_frame j fc .replay e).1, he] at hsuffix
    rw [← hwritten]
    exact List.reverse_subset.mpr (List.subset_reverse.mpr (List.map_subset _ hsuffix.subset))
  · rcases passStep_writes (j := j) u with hsame | ⟨u', hnext, hmore⟩
    · rwa [hsame]
    · rw [hnext]
      exact hu.trans hmore

/-- A crash may come when all has been written. -/
theorem WellFormedLog.cutShort_last (hw : WellFormedLog j log) (fc : Option FcCallback)
    (dev : ℕ → Block) :
    CutShort j fc dev (applyWrites dev (liveWrites j log)) := by
  obtain ⟨N, s₁, s₂, s₃, hpasses, hwritten, -⟩ := hw.passes fc dev
  obtain ⟨h₁, h₂, h₃⟩ := hpasses N le_rfl
  obtain ⟨e, hrun, he⟩ := Option.map_eq_some_iff.mp h₃
  obtain ⟨s, hreach, hlast⟩ := Loop.exists_last_of_leaves ⟨N, hrun⟩
  have hsame : s.fsWrites = s₃.fsWrites := by
    have hend := (@endPass_frame j fc .replay e).1
    rcases passStep_writes (j := j) s with hsame | ⟨u, hnext, -⟩
    · rw [hlast] at hsame
      rw [← hsame, ← hend, he]
    · rw [hlast] at hnext
      cases hnext
  refine ⟨s, ⟨N, s₁, s₂, h₁, h₂, hreach⟩, fun b => ?_⟩
  rw [show s.written = liveWrites j log by rw [← hwritten, PassState.written, hsame]; rfl,
    applyWrites_apply]
  cases hfind : ((liveWrites j log).filter fun w => w.1 = b).getLast? with
  | none => exact .inl rfl
  | some w =>
    obtain ⟨hmem, hb⟩ := List.mem_filter.mp (List.mem_of_getLast? hfind)
    exact .inr (of_decide_eq_true hb ▸ hmem)

/-! ### Crashes -/

/-- However often recovery has been cut short, each block holds what it held or what a write that
counts has put there. -/
theorem WellFormedLog.cutShorts (hw : WellFormedLog j log)
    (h : Relation.ReflTransGen (CutShort j fc) fsDev dev) (b : ℕ) :
    dev b = fsDev b ∨ (b, dev b) ∈ liveWrites j log := by
  induction h with
  | refl => exact .inl rfl
  | tail _ hcut ih =>
    obtain ⟨s, hs, hdev⟩ := hcut
    rcases hdev b with hold | hnew
    · rw [hold]
      exact ih
    · exact .inr (hw.written_subset hs hnew)

/-- **Recovery can be cut short any number of times.** The recovery of a well-formed log that ends
succeeds, and each block then holds what it should after a recovery of the device as it was before
the first. -/
theorem recover_afterCrashes (hw : WellFormedLog j log) (hstart : j.jTail ≠ 0)
    (fc : Option FcCallback) (hcrash : Relation.ReflTransGen (CutShort j fc) fsDev dev) :
    ∃ N, ∀ fuel, N ≤ fuel → ∃ id s, jbd2JournalRecover j fc fuel dev = some (none, id, s) ∧
      ∀ b, s.jFsDev b = replayedContent j log fsDev b := by
  obtain ⟨N, s₁, s₂, s₃, hpasses, -, hdev⟩ := hw.passes fc dev
  refine ⟨N, fun fuel hf => ⟨tidSucc s₃.info.endTransaction,
    { s₃ with
      info := { s₃.info with endTransaction := tidSucc s₃.info.endTransaction }, jRevoke := [] },
    ?_, fun b => ?_⟩⟩
  · obtain ⟨h₁, h₂, h₃⟩ := hpasses fuel hf
    rw [jbd2JournalRecover, if_neg hstart,
      show recoverPasses j fc fuel (recoverStart dev) = some (none, s₃) by
      simp [recoverPasses, h₁, h₂, h₃]]
    rfl
  · -- a block without a write has been left alone by all recoveries
    refine (congrFun hdev b).trans ?_
    rw [← replayedContent_eq, replayedContent, replayedContent]
    cases hlast : ((liveWrites j log).filter fun w => w.1 = b).getLast? with
    | some w => rfl
    | none =>
      refine (hw.cutShorts hcrash b).resolve_right fun hmem => ?_
      rw [List.getLast?_eq_none_iff] at hlast
      exact List.not_mem_nil (hlast ▸ List.mem_filter.mpr ⟨hmem, decide_eq_true rfl⟩)

/-- A recovery of the sample log that is cut short when it has written everything. -/
theorem recover_afterCrashes_sample :
    ∃ dev, (∃ N, ∀ fuel, N ≤ fuel →
      ∃ id s, jbd2JournalRecover sampleJournal none fuel dev = some (none, id, s) ∧
      ∀ b, s.jFsDev b = replayedContent sampleJournal [sampleTransaction] (fun _ => zeroBlock) b) ∧
      CutShort sampleJournal none (fun _ => zeroBlock) dev := by
  have hcut := sampleJournal_wellFormed.cutShort_last none
  exact ⟨_, recover_afterCrashes sampleJournal_wellFormed (by decide) none (.single (hcut _)),
    hcut _⟩

end E2fsprogs
