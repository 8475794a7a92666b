import E2fsprogs.Xattr.Refcount

/-!
# Runs of calls on EA blocks

A call is a sequence of operations that are written in the log. What one operation keeps
(`E2fsprogs.EaOp.good_run`) goes over to calls with `E2fsprogs.XattrCall.keeps_run`, and from
there to runs of calls.
-/

namespace E2fsprogs

open Fallible

section RefRuns

variable {fs : BmapFs} {sizes : XattrSizes}

/-- The operations so far were possible, and nothing failed where it matters. -/
def EaWorld.Smooth (fs : BmapFs) (w : EaWorld) : Prop :=
  ∀ p ∈ w.log, p.2.Possible fs p.1 ∧ p.2.Completes fs p.1

/-- The log has grown, and the counts are exact if all went smoothly. -/
structure EaWorld.Onto (fs : BmapFs) (w w' : EaWorld) : Prop where
  log : w.log <:+ w'.log
  good : (w.Smooth fs → w.st.Good fs) → w'.Smooth fs → w'.st.Good fs

theorem EaWorld.Onto.refl (w : EaWorld) : w.Onto fs w := ⟨List.suffix_refl _, id⟩

theorem EaWorld.Onto.trans {w₁ w₂ w₃ : EaWorld} (h : w₁.Onto fs w₂) (h' : w₂.Onto fs w₃) :
    w₁.Onto fs w₃ := ⟨h.log.trans h'.log, fun hg => h'.good (h.good hg)⟩

theorem EaWorld.onto_skip (w : EaWorld) : w.Onto fs w.skip := ⟨List.suffix_refl _, id⟩

theorem EaWorld.onto_does (hok : fs.Ok) (w : EaWorld) (op : EaOp) : w.Onto fs (w.does fs op) where
  log := List.suffix_cons ..
  good hg hs := by
    obtain ⟨hp, hc⟩ := hs (w.st, op) (List.mem_cons_self ..)
    exact EaOp.good_run hok (hg fun p hmem => hs p (List.mem_cons_of_mem _ hmem)) hp hc

/-- The relation for a call, which has a handle besides. -/
def HandleOnto (fs : BmapFs) (s s' : XattrHandle × EaWorld) : Prop := s.2.Onto fs s'.2

instance : Std.Refl (HandleOnto fs) := ⟨fun s => EaWorld.Onto.refl s.2⟩

instance : IsTrans (XattrHandle × EaWorld) (HandleOnto fs) :=
  ⟨fun _ _ _ h h' => EaWorld.Onto.trans h h'⟩

theorem keeps_liftOp_onto {α : Type} {f : EaWorld → Except ℕ α × EaWorld}
    (hf : ∀ w : EaWorld, w.Onto fs (f w).2) : Keeps (HandleOnto fs) (liftOp f) := by
  rintro ⟨h, w⟩
  have hw := hf w
  rw [HandleOnto, liftOp]
  rcases hr : f w with ⟨err | a, w₁⟩
  · rwa [hr] at hw
  · rwa [hr] at hw

theorem eaOps_keeps (hok : fs.Ok) : CallKeeps (HandleOnto fs) (eaOps fs sizes) where
  getMem n := by
    rintro ⟨h, w⟩
    rw [HandleOnto, getMem]
    rcases hr : (eaOps fs sizes).getMem n w with ⟨b, w₁⟩
    obtain ⟨-, rfl⟩ := Prod.mk.inj hr
    cases b
    · exact EaWorld.onto_skip w
    · exact EaWorld.onto_skip w
  createEaInode value := keeps_liftOp_onto fun w => w.onto_does hok _
  decRef ino := keeps_liftOp_onto fun w => w.onto_does hok _
  tryDecRef ino := fun s => s.2.onto_does hok _
  readExtraIsize ino := keeps_liftOp_onto fun w => w.onto_skip
  setHandle h := fun s => EaWorld.Onto.refl s.2
  xattrsWrite h := keeps_liftOp_onto fun w => w.onto_does hok _

/-- **One call**. -/
theorem EaCall.onto_run (hok : fs.Ok) (w : EaWorld) (call : EaCall) :
    w.Onto fs (call.run fs sizes w) := by
  cases call with
  | xattr h call => exact call.keeps_run (eaOps_keeps hok) (h, w)
  | free ino => exact w.onto_does hok _
  | freeGiven ino => exact w.onto_does hok _

/-- **A run**. -/
theorem onto_eaRun (hok : fs.Ok) (sizes : XattrSizes) (calls : List EaCall) (w : EaWorld) :
    w.Onto fs (eaRun fs sizes w calls) := by
  induction calls generalizing w with
  | nil => exact EaWorld.Onto.refl w
  | cons call calls ih => exact (call.onto_run hok w).trans (ih _)

/-- After each call of a run from exact counts they are exact again. The operations of the run
are those that are possible. -/
def RefcountsStayExact (fs : BmapFs) (sizes : XattrSizes) (allowed : EaState → EaOp → Prop) :
    Prop :=
  ∀ (st : EaState) (script : ℕ → EaOutcome) (calls : List EaCall), st.Good fs →
    (∀ p ∈ (eaRun fs sizes ⟨st, script, []⟩ calls).log, p.2.Possible fs p.1 ∧ allowed p.1 p.2) →
    ∀ k, (eaRun fs sizes ⟨st, script, []⟩ (calls.take k)).st.Exact fs

/-- **The counts stay exact** in a run where nothing fails after a count has been written. -/
theorem refcountsStayExact_completes (hok : fs.Ok) (sizes : XattrSizes) :
    RefcountsStayExact fs sizes (EaOp.Completes fs) := by
  intro st script calls hg hsmooth k
  have hrest := (onto_eaRun hok sizes (calls.drop k)
    (eaRun fs sizes ⟨st, script, []⟩ (calls.take k))).log
  rw [eaRun, eaRun, ← List.foldl_append, List.take_append_drop] at hrest
  refine ((onto_eaRun hok sizes (calls.take k) ⟨st, script, []⟩).good (fun _ => hg) fun p hp =>
    ?_).exact
  exact hsmooth p (hrest.subset hp)

/-- Eight blocks. -/
def eightBlocks : BmapFs where
  bigalloc := false
  clusterBits := 0
  blocksCount := 8
  firstDataBlock := 1

theorem eightBlocks_ok : eightBlocks.Ok :=
  ⟨by decide, by decide, by decide, fun _ => rfl⟩

/-- Two inodes share block 5. There are free blocks, or none. -/
def sharedBlock (full : Bool) : EaState where
  hRefcount b := if b = 5 then 2 else 0
  hMagic b := b = 5
  fileAcl i := if i = 12 ∨ i = 13 then 5 else 0
  eaInodeRef _ := 0
  blockMap c := full || c < 6
  inodes := {12, 13}
  eaBlocks := {5}

theorem sharedBlock_good (full : Bool) : (sharedBlock full).Good eightBlocks where
  exact := by
    intro b hb
    rw [Finset.mem_singleton.mp hb]
    decide +revert
  named := by decide +revert
  apart := by decide +revert
  inside := by decide +revert
  first := by decide +revert
  inodes := by decide +revert

/-- Nothing fails, as far as it is not for want of free blocks. -/
def quietOutcome : EaOutcome where
  getMem := true
  extraIsize := .ok 0
  write :=
    ⟨none, none, false, none, none, none, ⟨none, none, none, none, 0, none, none⟩, none, none⟩
  decRef := ⟨none, ⟨none, none, none, none⟩, none, [], none⟩
  create := ⟨.error etInodeCorrupted, []⟩
  readInode := none
  free := ⟨none, none, none, none⟩
  writeInode := none

def plainSizes : XattrSizes := ⟨128, 0, 1024, false⟩

/-- Two attributes of a user, in the block of inode 12. -/
def sharedHandle : XattrHandle :=
  ⟨[⟨1, asciiBytes "user.a", asciiBytes "a", [1], 1, 0⟩,
    ⟨1, asciiBytes "user.b", asciiBytes "b", [1], 1, 0⟩], 4, 0, 12, false⟩

/-- One of them is removed, and then the other inode gives up its block. -/
theorem refcountsStayExact_two_calls :
    (eaRun eightBlocks plainSizes ⟨sharedBlock false, fun _ => quietOutcome, []⟩
      [.xattr sharedHandle (.remove (asciiBytes "user.a")), .free 13]).st.Exact eightBlocks := by
  refine refcountsStayExact_completes eightBlocks_ok plainSizes (sharedBlock false)
    (fun _ => quietOutcome) [.xattr sharedHandle (.remove (asciiBytes "user.a")), .free 13]
    (sharedBlock_good false) ?_ 2
  have hfirst : 12 ∈ (sharedBlock false).inodes := by decide
  have hsecond : 13 ∈ (sharedBlock false).inodes := by decide
  intro p hp
  rcases List.mem_cons.mp hp with rfl | hp
  · exact ⟨hsecond, Or.inr (Or.inr ⟨rfl, rfl⟩)⟩
  · rw [List.mem_singleton.mp hp]
    exact ⟨hfirst, Or.inr (Or.inr ⟨⟨rfl, rfl, by decide⟩, rfl, rfl⟩)⟩

/-- There is no free block: the count of the shared one has been written before. -/
theorem not_refcountsStayExact :
    ¬RefcountsStayExact eightBlocks plainSizes fun _ _ => True := by
  intro h
  have hfirst : 12 ∈ (sharedBlock true).inodes := by decide
  have hrun := h (sharedBlock true) (fun _ => quietOutcome)
    [.xattr sharedHandle (.remove (asciiBytes "user.a"))] (sharedBlock_good true) ?_ 1
  · have hmem : 5 ∈ (sharedBlock true).eaBlocks := by decide
    have hfive := (hrun 5 hmem).1
    exact absurd hfive (by decide)
  · intro p hp
    rw [List.mem_singleton.mp hp]
    exact ⟨hfirst, trivial⟩

end RefRuns

end E2fsprogs
