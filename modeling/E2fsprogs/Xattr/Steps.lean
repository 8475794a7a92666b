import E2fsprogs.Lib.Fallible
import E2fsprogs.Xattr.Handle

/-!
# The steps of setting an attribute

A relation between the states before and after that every operation outside keeps
(`E2fsprogs.OpsKeep`) is kept by the steps of `ext2fs_xattr_set` that do not change the array.
-/

namespace E2fsprogs

open Fallible

section Steps

variable {W : Type} {ops : XattrOps W} {R : XattrHandle × W → XattrHandle × W → Prop} [Std.Refl R]

/-- The operations outside keep the relation. -/
structure OpsKeep (R : XattrHandle × W → XattrHandle × W → Prop) (ops : XattrOps W) : Prop where
  getMem : ∀ n, Keeps R (getMem ops n)
  createEaInode : ∀ value, Keeps R (liftOp (ops.createEaInode value))
  decRef : ∀ ino, Keeps R (liftOp (ops.inodeDecRef ino))
  tryDecRef : ∀ ino, Keeps R (tryDecRef ops ino)
  readExtraIsize : ∀ ino, Keeps R (liftOp (ops.readExtraIsize ino))

theorem keeps_onlyIf {p : Prop} [Decidable p] {f : XattrM W Unit} (hf : Keeps R f) :
    Keeps R (onlyIf p f) := keeps_ite hf (keeps_pure _)

theorem keeps_getHandle : Keeps R (getHandle : XattrM W XattrHandle) := fun s => Std.Refl.refl s

variable [IsTrans (XattrHandle × W) R]

theorem keeps_dropEaInode (ho : OpsKeep R ops) (old new : ℕ) :
    Keeps R (dropEaInode ops old new) := by
  refine keeps_ite (keeps_pure _) ((ho.decRef _).catch fun err => ?_)
  exact (keeps_onlyIf (ho.tryDecRef new)).bind fun _ => keeps_throw err

theorem keeps_xattrUpdateEntry (ho : OpsKeep R ops) (x : Option Xattr) (name value : List UInt8)
    (inInode : Bool) : Keeps R (xattrUpdateEntry ops x name value inInode) := by
  unfold xattrUpdateEntry
  refine Keeps.bind (keeps_onlyIf (ho.getMem _)) fun _ => (ho.getMem _).bind fun _ => ?_
  refine Keeps.bind (keeps_ite (ho.createEaInode _) (keeps_pure _)) fun _ => ?_
  exact (keeps_dropEaInode ho _ _).bind fun _ => keeps_pure _

theorem keeps_ibodyRoom (ho : OpsKeep R ops) (h : XattrHandle) : Keeps R (ibodyRoom ops h) :=
  (ho.readExtraIsize _).bind fun _ => keeps_pure _

/-! ### Whole calls -/

/-- The relation does not depend on the handle, and writing the attributes keeps it. -/
structure CallKeeps (R : XattrHandle × W → XattrHandle × W → Prop) (ops : XattrOps W) : Prop
    extends OpsKeep R ops where
  setHandle : ∀ h, Keeps R (setHandle h)
  xattrsWrite : ∀ h, Keeps R (liftOp (ops.xattrsWrite h))

theorem keeps_expandArray (hc : CallKeeps R ops) : Keeps R (expandArray ops) :=
  keeps_getHandle.bind fun _ => keeps_onlyIf ((hc.getMem _).bind fun _ => hc.setHandle _)

theorem keeps_updateAt (hc : CallKeeps R ops) (x : Option Xattr) (name value : List UInt8)
    (inInode : Bool) (place : XattrHandle → Xattr → XattrHandle) :
    Keeps R (updateAt ops x name value inInode place) :=
  (keeps_xattrUpdateEntry hc.toOpsKeep _ _ _ _).bind fun _ => keeps_getHandle.bind fun _ =>
    hc.setHandle _

theorem keeps_addNew (hc : CallKeeps R ops) (name value : List UInt8) (inInode : Bool)
    (place : XattrHandle → Xattr → XattrHandle) : Keeps R (addNew ops name value inInode place) :=
  (keeps_expandArray hc).bind fun _ => keeps_updateAt hc _ _ _ _ _

theorem keeps_xattrArrayUpdate (hc : CallKeeps R ops) (name value : List UInt8)
    (ibodyFree blockFree : ℤ) (old : Option (ℕ × Xattr)) (inInode : Bool) :
    Keeps R (xattrArrayUpdate ops name value ibodyFree blockFree old inInode) := by
  refine keeps_getHandle.bind fun h => ?_
  cases old with
  | none =>
    exact keeps_ite (keeps_addNew hc _ _ _ _) (keeps_ite (keeps_throw _) (keeps_addNew hc _ _ _ _))
  | some p =>
    exact keeps_ite (keeps_updateAt hc _ _ _ _ _)
      (keeps_ite (keeps_throw _) (keeps_updateAt hc _ _ _ _ _))

theorem keeps_xattrStore (hc : CallKeeps R ops) (h : XattrHandle) (name value : List UInt8) :
    Keeps R (xattrStore ops h name value) := by
  unfold xattrStore
  refine (hc.getMem _).bind fun _ => Keeps.bind (keeps_ibodyRoom hc.toOpsKeep h) fun ibodyFree => ?_
  refine Keeps.bind (keeps_ite ?_ ?_) fun _ => keeps_getHandle.bind fun _ => hc.xattrsWrite _
  · exact Keeps.bind (keeps_onlyIf (keeps_throw _)) fun _ => keeps_xattrArrayUpdate hc _ _ _ _ _ _
  · exact (keeps_xattrArrayUpdate hc _ _ _ _ _ _).catch fun err =>
      keeps_ite (keeps_xattrArrayUpdate hc _ _ _ _ _ _) (keeps_throw err)

/-- **A call** keeps what the operations outside keep. -/
theorem XattrCall.keeps_run (hc : CallKeeps R ops) (call : XattrCall) : Keeps R (call.run ops) := by
  cases call with
  | set name value =>
    refine keeps_getHandle.bind fun h => (hc.getMem _).bind fun _ => ?_
    refine Keeps.bind (fun s => Std.Refl.refl s) fun value => ?_
    exact keeps_ite (keeps_pure _) (keeps_xattrStore hc _ _ _)
  | remove key =>
    refine keeps_getHandle.bind fun h => ?_
    rcases findAttr h.attrs (cstr key) with _ | ⟨i, x⟩
    · exact keeps_pure _
    · exact Keeps.bind (keeps_onlyIf (hc.tryDecRef _)) fun _ =>
        (hc.setHandle _).bind fun _ => hc.xattrsWrite _

end Steps

end E2fsprogs
