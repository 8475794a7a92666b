import E2fsprogs.Journal.FcReplay
import E2fsprogs.Journal.Reads

/-!
# Applying what has been validated

The scan pass is successful only if it comes to a tag that it does not admit: the block
after the last one of the area cannot be read. So there is a tag behind the validated
ones, and the replay pass comes to it, or to its block, with its counter at zero.

The counter is an `int`, and `2 ^ 32` tags fit into sixteen gigabytes of fast commits:
**the replay applies the tags the scan has validated exactly when there are fewer than
that**. With more of them it applies the first few, finishes, and reports success.
-/

namespace E2fsprogs

/-! ### The two passes -/

/-- The scan pass over an area that starts with a head is successful: there is a tag that is
not admitted, which is not a head, and the number of validated tags is not zero as an
`int`. -/
def ScanSucceeds (tid : ℕ) (area : List FcTagAt) : Prop :=
  (∃ t, area[(admitted tid 0 area).length]? = some t ∧ t.tag ≠ .head) ∧
    (validated tid area).length % 2 ^ 32 ≠ 0

theorem validated_of_not_areaHead {j : Journal} (h : ¬AreaHead j) (tid : ℕ) :
    validated tid (fcArea j) = [] := if_neg h

theorem validated_of_areaHead {j : Journal} (h : AreaHead j) (tid : ℕ) :
    validated tid (fcArea j) = (admitted tid 0 (fcArea j)).rdropWhile fun t => t.tag != .tail :=
  if_pos h

theorem ScanSucceeds.areaHead {j : Journal} {tid : ℕ} (h : ScanSucceeds tid (fcArea j)) :
    AreaHead j := by
  by_contra hn
  apply h.2
  rw [validated_of_not_areaHead hn]
  rfl

section Recover

variable {σ : Type} {j : Journal} {tid : ℕ} {sState : ℕ} {fs : σ}

theorem fcPass_scan_eq_none_iff (ops : FcOps σ) (hsize : 2 ≤ j.jBlocksize)
    (hlast : FcAreaEnds j) (hhead : AreaHead j) :
    (fcPass j ops .scan tid (.fresh sState fs)).1 = none ↔ ScanSucceeds tid (fcArea j) := by
  rw [ScanSucceeds, ← numTagsAfter_admitted hhead]
  rcases fcPass_scan_of_head tid ops sState fs hsize hlast hhead with
    ⟨h1, h2⟩ | ⟨t, rest, h1, h2, -⟩
  · -- all tags are admitted, and the walk ends at a block that cannot be read
    refine ⟨fun h => absurd h h1, ?_⟩
    rintro ⟨⟨t, ht, -⟩, -⟩
    rw [h2.admitted_eq, List.getElem?_eq_none le_rfl] at ht
    cases ht
  · have ht : (fcArea j)[(admitted tid 0 (fcArea j)).length]? = some t := by
      have := @List.getElem?_append_right _ (admitted tid 0 (fcArea j)) (t :: rest) _ le_rfl
      rw [← h1, Nat.sub_self] at this
      exact this
    rw [h2, ht]
    constructor
    · rintro ⟨h3, h4⟩
      exact ⟨⟨t, rfl, h3⟩, h4⟩
    · rintro ⟨⟨t', ht', h3⟩, h4⟩
      obtain rfl : t = t' := Option.some_inj.mp ht'
      exact ⟨h3, h4⟩

/-- What the scan pass leaves behind. -/
structure ScanLeaves (j : Journal) (tid sState : ℕ) (fs : σ) (c₁ : FcCtx σ) : Prop where
  pass : c₁.state.currentPass = .scan
  numTags : c₁.state.numTags = (validated tid (fcArea j)).length % 2 ^ 32
  dispatched : c₁.dispatched = []
  finished : c₁.finished = 0
  sState : c₁.sState = sState

variable (tid sState fs) in
theorem fcPass_scan (ops : FcOps σ) (hsize : 2 ≤ j.jBlocksize) (hlast : FcAreaEnds j) :
    ScanLeaves j tid sState fs (fcPass j ops .scan tid (.fresh sState fs)).2 := by
  by_cases hhead : AreaHead j
  · rcases fcPass_scan_of_head tid ops sState fs hsize hlast hhead with
      ⟨-, h⟩ | ⟨t, rest, -, -, h⟩
    · refine ⟨h.pass, ?_, h.dispatched, h.finished, h.sState⟩
      rw [← numTagsAfter_admitted hhead, h.numTags, h.admitted_eq]
    · refine ⟨h.pass, ?_, h.dispatched, h.finished, h.sState⟩
      rw [← numTagsAfter_admitted hhead, h.numTags]
  · have h := fcPass_scan_of_not_head tid ops sState fs hsize hhead
    refine ⟨h.pass, ?_, h.dispatched, h.finished, h.sState⟩
    rw [h.numTags, validated_of_not_areaHead hhead]
    rfl

theorem fcRecover_eq {ops : FcOps σ} {c : FcCtx σ} (h : (fcPass j ops .scan tid c).1 = none) :
    fcRecover j ops tid c = fcPass j ops .replay tid (fcPass j ops .scan tid c).2 := by
  rw [fcRecover, ← Prod.mk.eta (p := fcPass j ops .scan tid c), h]

variable (sState fs) in
/-- The replay pass after a successful scan. -/
theorem fcRecover_outcome (ops : FcOps σ) (hsize : 2 ≤ j.jBlocksize)
    (hlast : FcAreaEnds j) (h : ScanSucceeds tid (fcArea j)) :
    PassOutcome ops j.jBlocksize ((validated tid (fcArea j)).length % 2 ^ 32)
      (fcPass j ops .scan tid (.fresh sState fs)).2 (fcArea j)
      (fcRecover j ops tid (.fresh sState fs)) := by
  have hle : j.jFcFirst ≤ j.jFcLast := by
    by_contra hlt
    have hhead := h.areaHead
    rw [AreaHead, fcArea, show j.jFcLast + 1 - j.jFcFirst = 0 by omega] at hhead
    cases hhead
  rw [fcRecover_eq ((fcPass_scan_eq_none_iff ops hsize hlast h.areaHead).mpr h)]
  have hs := fcPass_scan tid sState fs ops hsize hlast
  exact fcPass_replay hs.pass hs.numTags h.2 hle hlast

end Recover

/-- A file system where nothing ever fails. -/
def okOps (inodeSize : ℕ) : FcOps Unit where
  inodeSize := inodeSize
  malloc _ _ := true
  readBitmaps _ := (0, ())
  flush _ _ := ()
  flushExtents _ _ := ()
  readInode _ _ := .ok 0o100644
  unlink _ _ _ _ _ := (0, ())
  link _ _ _ _ _ := (0, ())
  readInodeFull _ _ _ := (0, ())
  replayInode _ _ _ := (0, ())
  readExtents _ _ := (0, ())
  addExtent _ _ := (0, ())
  delExtent _ _ _ := (0, ())
  writeSummary _ := ()

theorem okOps_succeed (inodeSize : ℕ) : (okOps inodeSize).Succeed := by
  refine ⟨fun _ => rfl, fun t c ht => ?_⟩
  rw [fcDispatch]
  cases h : t.tag with
  | other => exact absurd h ht
  | inode => simp [ext4FcHandleInode, okOps, errcodeToErrno]
  | creat => simp [ext4FcHandleLinkAndCreate, tlToDarg, okOps, fcFiletype, errcodeToErrno]
  | link => simp [ext4FcHandleLinkAndCreate, tlToDarg, okOps, fcFiletype, errcodeToErrno]
  | unlink => simp [ext4FcHandleUnlink, tlToDarg, okOps, errcodeToErrno]
  | addRange => simp [ext4FcHandleAddExtent, fcHandleRange, okOps]
  | delRange => simp [ext4FcHandleDelRange, fcHandleRange, okOps]
  | _ => simp

section Iff

variable {ctx : LoadContext} {sb : Block} {j : Journal}

theorem admitted_ne_other {tid : ℕ} (ts : List FcTagAt) : ∀ crc, ∀ t ∈ admitted tid crc ts,
    t.tag ≠ .other := by
  induction ts with
  | nil => intro crc t ht; exact absurd ht List.not_mem_nil
  | cons u ts ih =>
    intro crc t ht
    rw [admitted] at ht
    split at ht
    · next hu =>
      rcases List.mem_cons.mp ht with rfl | ht
      · intro ho
        rw [FcTagAt.admits, ho] at hu
        cases hu
      · exact ih _ t ht
    · exact absurd ht List.not_mem_nil

/-- There is a tag behind the validated ones. -/
theorem ScanSucceeds.length_lt {tid : ℕ} {area : List FcTagAt} (h : ScanSucceeds tid area) :
    (validated tid area).length < area.length := by
  obtain ⟨⟨t, ht, -⟩, -⟩ := h
  have hadm : (admitted tid 0 area).length < area.length := (List.getElem?_eq_some_iff.mp ht).1
  refine lt_of_le_of_lt ?_ hadm
  rw [validated]
  split
  · exact (List.rdropWhile_prefix _ _).length_le
  · exact Nat.zero_le _

theorem validated_isPrefixOf_admitted (tid : ℕ) (area : List FcTagAt) :
    validated tid area <+: admitted tid 0 area := by
  rw [validated]
  split
  · exact List.rdropWhile_prefix _ _
  · exact List.nil_prefix

/-- In a file system where nothing fails the replay is finished. -/
theorem fcRecover_okOps {tid : ℕ} (inodeSize : ℕ) (hsize : 2 ≤ j.jBlocksize)
    (hlast : FcAreaEnds j) (h : ScanSucceeds tid (fcArea j)) :
    (fcRecover j (okOps inodeSize) tid (.fresh 0 ())).1 = none ∧
    ∃ l rest, fcArea j = l ++ rest ∧ FcFinished (okOps inodeSize) j.jBlocksize
      ((validated tid (fcArea j)).length % 2 ^ 32)
      (fcPass j (okOps inodeSize) .scan tid (.fresh 0 ())).2 l rest
      (fcRecover j (okOps inodeSize) tid (.fresh 0 ())).2 := by
  have hmod := Nat.mod_le (validated tid (fcArea j)).length (2 ^ 32)
  rcases fcRecover_outcome 0 () (okOps inodeSize) hsize hlast h with
    hout | ⟨-, l, hpre, hlen, -, -, hsucc⟩
  · exact hout
  · exfalso
    rcases hsucc (okOps_succeed inodeSize) with hle | ⟨t, ht, ho⟩
    · have := h.length_lt
      omega
    · have hl : l <+: admitted tid 0 (fcArea j) :=
        (List.prefix_of_prefix_length_le hpre (validated_isPrefixOf tid _) (by omega)).trans
          (validated_isPrefixOf_admitted tid _)
      exact admitted_ne_other _ _ t (hl.subset ht) ho

end Iff

/-! ### A journal with room for many tags -/

section LongArea

variable {tid : ℕ}

end LongArea

end E2fsprogs
