import E2fsprogs.Lib.Loop

/-!
# Connecting directories to the root

`check_directory` of `e2fsck/pass3.c`, called for every directory as `e2fsck_pass3` does. It follows
the parents of a directory upwards, marking each directory as done, until it reaches one that is
done already or one without a parent, which is linked into `lost+found`. After 2048 steps the walk
is to start again with a second bitmap that notices loops.

The directory the second walk starts with has been marked by the first, so that the second walk ends
at once; and a loop is left by the first walk as soon as it is back at a directory it has marked.
**No loop is ever noticed**.
-/

namespace E2fsprogs

/-- The state of pass 3: the directory information, the two bitmaps, and the directories that have
been linked into `lost+found`. -/
structure ConnectState where
  parent : ℕ → ℕ
  dotdot : ℕ → ℕ
  inodeDoneMap : ℕ → Bool
  inodeLoopDetect : ℕ → Bool
  linked : List ℕ

/-- The directories of the table in their order, and the inode of `lost+found`. -/
structure DirInfoTable where
  inodes : List ℕ
  lostAndFound : ℕ

/-- `EXT2_ROOT_INO`. -/
def rootIno : ℕ := 2

variable (t : DirInfoTable)

/-- `fix_dotdot`. The parent in the table becomes `lost+found` whatever the new parent is. -/
def fixDotdot (st : ConnectState) (ino parent : ℕ) : ConnectState :=
  if ino ∈ t.inodes then
    { st with
      dotdot := Function.update st.dotdot ino parent
      parent := Function.update st.parent ino t.lostAndFound }
  else st

/-- The locals of `check_directory`. -/
structure WalkState where
  st : ConnectState
  ino : ℕ
  loopPass : Bool
  parentCount : ℕ

/-- How the loop of `check_directory` is left. -/
inductive WalkEnd where
  | broken (st : ConnectState)
  | returned (st : ConnectState)

/-- A round of the loop of `check_directory`, all questions answered yes. -/
def walkStep (dir : ℕ) (w : WalkState) : WalkState ⊕ WalkEnd :=
  if w.st.inodeDoneMap w.ino then .inr (.broken w.st)
  else
    let st := { w.st with inodeDoneMap := Function.update w.st.inodeDoneMap w.ino true }
    if w.ino ∈ t.inodes then
      let parent := st.parent w.ino
      if parent = 0 ∨ (w.loopPass = true ∧ st.inodeLoopDetect parent = true) then
        .inr (.broken (fixDotdot t { st with linked := w.ino :: st.linked } w.ino t.lostAndFound))
      else if w.loopPass then
        .inl { w with
          st := { st with inodeLoopDetect := Function.update st.inodeLoopDetect parent true },
          ino := parent }
      else if 2048 < w.parentCount then
        -- the second walk, from the directory that was asked for
        .inl {
          st := { st with inodeLoopDetect := fun _ => false }
          ino := dir, loopPass := true, parentCount := w.parentCount + 1 }
      else .inl { w with st := st, ino := parent, parentCount := w.parentCount + 1 }
    else .inr (.returned st)

/-- `check_directory`, with a loop of at most `n` rounds. -/
def checkDirectory (n : ℕ) (st : ConnectState) (dir : ℕ) : Option ConnectState :=
  (Loop.run (walkStep t dir) n { st := st, ino := dir, loopPass := false, parentCount := 0 }).map
    fun
    | .returned st => st
    | .broken st =>
      if dir ∈ t.inodes then
        if st.dotdot dir ≠ st.parent dir then fixDotdot t st dir (st.parent dir) else st
      else st

/-- The loop of `e2fsck_pass3` over the directories. -/
def checkDirectories (n : ℕ) (st : ConnectState) : Option ConnectState :=
  t.inodes.foldlM (checkDirectory t n)
    { st with inodeDoneMap := Function.update (fun _ => false) rootIno true, linked := [] }

/-! ### What a walk keeps -/

section Walk

variable {t} {p : ℕ → ℕ} {st : ConnectState} {w : WalkState} {dir ino parent : ℕ}

/-- The table that pass 3 starts with: the parent of a directory is another directory or there is
none, the root is its own parent, and `lost+found` is there. -/
structure TableOk3 (t : DirInfoTable) (p : ℕ → ℕ) : Prop where
  zero : 0 ∉ t.inodes
  parent : ∀ d ∈ t.inodes, p d = 0 ∨ p d ∈ t.inodes
  root : rootIno ∈ t.inodes ∧ p rootIno = rootIno
  lost : t.lostAndFound ∈ t.inodes

/-- **The invariant of pass 3**, where `p` are the parents it started with. A directory that is done
and has no parent has been linked; one that is not done has its parent still. -/
structure Checked (t : DirInfoTable) (p : ℕ → ℕ) (st : ConnectState) : Prop where
  root : st.inodeDoneMap rootIno = true
  linked : ∀ d ∈ t.inodes, st.inodeDoneMap d = true → p d = 0 → d ∈ st.linked
  orphan : ∀ d ∈ st.linked, p d = 0
  parent : ∀ d, st.inodeDoneMap d = false → st.parent d = p d

/-- How many directories are not done. -/
def undone (t : DirInfoTable) (st : ConnectState) : ℕ := t.inodes.countP fun d => !st.inodeDoneMap d

/-- A change of the parent of a directory that is done. -/
theorem Checked.fixDotdot (h : Checked t p st) (hdone : st.inodeDoneMap ino = true) :
    Checked t p (fixDotdot t st ino parent) ∧
    (fixDotdot t st ino parent).inodeDoneMap = st.inodeDoneMap := by
  rw [E2fsprogs.fixDotdot]
  split
  · refine ⟨⟨h.root, h.linked, h.orphan, fun d hd => ?_⟩, rfl⟩
    have hne : d ≠ ino := by
      rintro rfl
      exact absurd hdone (by rw [show st.inodeDoneMap d = false from hd]; decide)
    exact (Function.update_of_ne hne _ _).trans (h.parent d hd)
  · exact ⟨h, rfl⟩

/-- A directory with a parent is marked. -/
theorem Checked.mark (h : Checked t p st) (hparent : p ino ≠ 0) (detect : ℕ → Bool) :
    Checked t p { st with
      inodeDoneMap := Function.update st.inodeDoneMap ino true, inodeLoopDetect := detect } := by
  refine ⟨?_, fun d hd hdone hp => ?_, h.orphan, fun d hd => ?_⟩
  · show Function.update st.inodeDoneMap ino true rootIno = true
    by_cases hroot : rootIno = ino
    · rw [hroot, Function.update_self]
    · rw [Function.update_of_ne hroot, h.root]
  · have hne : d ≠ ino := by
      rintro rfl
      exact hparent hp
    exact h.linked d hd ((Function.update_of_ne hne _ _).symm.trans hdone) hp
  · have hne : d ≠ ino := by
      rintro rfl
      exact absurd ((Function.update_self _ _ _).symm.trans hd) (by decide)
    exact h.parent d ((Function.update_of_ne hne _ _).symm.trans hd)

/-- A directory without a parent is marked and linked. -/
theorem Checked.link (h : Checked t p st) (hparent : p ino = 0) :
    Checked t p { st with
      inodeDoneMap := Function.update st.inodeDoneMap ino true, linked := ino :: st.linked } := by
  refine ⟨?_, fun d hd hdone hp => ?_, fun d hd => ?_, fun d hd => ?_⟩
  · show Function.update st.inodeDoneMap ino true rootIno = true
    by_cases hroot : rootIno = ino
    · rw [hroot, Function.update_self]
    · rw [Function.update_of_ne hroot, h.root]
  · by_cases hne : d = ino
    · exact List.mem_cons.mpr (Or.inl hne)
    · exact List.mem_cons_of_mem _
        (h.linked d hd ((Function.update_of_ne hne _ _).symm.trans hdone) hp)
  · rcases List.mem_cons.mp hd with rfl | hd
    · exact hparent
    · exact h.orphan d hd
  · have hne : d ≠ ino := by
      rintro rfl
      exact absurd ((Function.update_self _ _ _).symm.trans hd) (by decide)
    exact h.parent d ((Function.update_of_ne hne _ _).symm.trans hd)

/-- Marking a directory of the table leaves fewer to do. -/
theorem undone_mark (hino : ino ∈ t.inodes) (hdone : st.inodeDoneMap ino = false)
    (detect : ℕ → Bool) :
    undone t { st with
      inodeDoneMap := Function.update st.inodeDoneMap ino true,
      inodeLoopDetect := detect } < undone t st := by
  obtain ⟨l, l', hl⟩ := List.append_of_mem hino
  have hle : ∀ l : List ℕ, (l.countP fun d => !Function.update st.inodeDoneMap ino true d) ≤
      l.countP fun d => !st.inodeDoneMap d := by
    refine fun l => List.countP_mono_left fun d _ h => ?_
    by_cases hne : d = ino
    · rw [hne] at h
      simp at h
    · simpa [Function.update_of_ne hne] using h
  have h1 := hle l
  have h2 := hle l'
  rw [undone, undone, hl, List.countP_append, List.countP_append, List.countP_cons,
    List.countP_cons]
  simp only [Function.update_self, hdone, Bool.not_true, Bool.not_false, if_pos]
  simp only [Bool.false_eq_true, if_false]
  omega

/-- A walk is on its way: the directory it started from is done, or it is about to be. -/
structure Walking (t : DirInfoTable) (p : ℕ → ℕ) (dir : ℕ) (w : WalkState) : Prop where
  checked : Checked t p w.st
  dir_mem : dir ∈ t.inodes
  ino : w.ino ∈ t.inodes
  start : w.st.inodeDoneMap dir = true ∨ w.ino = dir
  again : w.loopPass = true → w.st.inodeDoneMap w.ino = true

/-- How a walk is left. -/
def WalkLeft (t : DirInfoTable) (p : ℕ → ℕ) (dir : ℕ) : WalkEnd → Prop
  | .broken st => Checked t p st ∧ st.inodeDoneMap dir = true
  | .returned _ => False

/-- **A round of a walk.** It is left, or one more directory has been marked. -/
theorem Walking.step (ht : TableOk3 t p) (h : Walking t p dir w) :
    (∃ e, walkStep t dir w = .inr e ∧ WalkLeft t p dir e ∧ ∀ st, e = .broken st →
        ∀ d, w.st.inodeDoneMap d = true → st.inodeDoneMap d = true) ∨
      ∃ w', walkStep t dir w = .inl w' ∧ Walking t p dir w' ∧ undone t w'.st < undone t w.st ∧
        ∀ d, w.st.inodeDoneMap d = true → w'.st.inodeDoneMap d = true := by
  have hmono : ∀ d, w.st.inodeDoneMap d = true →
      Function.update w.st.inodeDoneMap w.ino true d = true := by
    intro d hd
    by_cases hne : d = w.ino
    · rw [hne, Function.update_self]
    · rw [Function.update_of_ne hne, hd]
  rw [walkStep]
  by_cases hdone : w.st.inodeDoneMap w.ino = true
  · rw [if_pos hdone]
    refine Or.inl ⟨_, rfl, ⟨h.checked, ?_⟩, ?_⟩
    · rcases h.start with hstart | hstart
      · exact hstart
      · rw [← hstart, hdone]
    · rintro st he d hd
      cases he
      exact hd
  -- the second walk does not get here
  have hpass : w.loopPass = false := by
    by_contra hcon
    exact hdone (h.again (by simpa using hcon))
  have hfalse : w.st.inodeDoneMap w.ino = false := by simpa using hdone
  have hparent := h.checked.parent w.ino hfalse
  have hstart : Function.update w.st.inodeDoneMap w.ino true dir = true := by
    rcases h.start with hstart | hstart
    · exact hmono dir hstart
    · rw [hstart, Function.update_self]
  rw [if_neg hdone, if_pos h.ino]
  dsimp only
  rw [hparent, hpass]
  by_cases hzero : p w.ino = 0
  · rw [if_pos (Or.inl hzero)]
    have hlink :=
      @Checked.fixDotdot t p _ w.ino t.lostAndFound (h.checked.link hzero) (Function.update_self ..)
    refine Or.inl ⟨_, rfl, ⟨hlink.1, ?_⟩, ?_⟩
    · rw [hlink.2]
      exact hstart
    · rintro st he d hd
      cases he
      rw [hlink.2]
      exact hmono d hd
  · rw [if_neg (by simp [hzero]), if_neg Bool.false_ne_true]
    have hmem := (ht.parent w.ino h.ino).resolve_left hzero
    refine Or.inr ?_
    split
    · refine ⟨_, rfl, ⟨h.checked.mark hzero _, h.dir_mem, h.dir_mem, Or.inl hstart,
        fun _ => hstart⟩, undone_mark h.ino hfalse _, hmono⟩
    · exact ⟨_, rfl, ⟨h.checked.mark hzero _, h.dir_mem, hmem, Or.inl hstart,
        fun hcon => absurd hcon Bool.false_ne_true⟩, undone_mark h.ino hfalse _, hmono⟩

/-- **A walk ends.** The induction is on the rounds that are left; each marks a directory. -/
theorem Walking.run (ht : TableOk3 t p) {n : ℕ} (h : Walking t p dir w) (hn : undone t w.st < n) :
    ∃ st, Loop.run (walkStep t dir) n w = some (.broken st) ∧ Checked t p st ∧
    st.inodeDoneMap dir = true ∧
      ∀ d, w.st.inodeDoneMap d = true → st.inodeDoneMap d = true := by
  induction n generalizing w with
  | zero => exact absurd hn (Nat.not_lt_zero _)
  | succ n ih =>
    rw [Loop.run]
    rcases h.step ht with ⟨e, he, hleft, hmono⟩ | ⟨w', hw', hwalk, hless, hmono⟩
    · rw [he]
      cases e with
      | broken st => exact ⟨st, rfl, hleft.1, hleft.2, hmono st rfl⟩
      | returned st => exact hleft.elim
    · rw [hw']
      obtain ⟨st, hst, hchecked, hdone, hmono'⟩ := ih hwalk (by omega)
      exact ⟨st, hst, hchecked, hdone, fun d hd => hmono' d (hmono d hd)⟩

/-- **`check_directory` returns.** -/
theorem Checked.checkDirectory (ht : TableOk3 t p) (h : Checked t p st) (hdir : dir ∈ t.inodes) :
    ∃ st', checkDirectory t (t.inodes.length + 1) st dir = some st' ∧ Checked t p st' ∧
      st'.inodeDoneMap dir = true ∧ ∀ d, st.inodeDoneMap d = true → st'.inodeDoneMap d = true := by
  have hwalk : Walking t p dir { st := st, ino := dir, loopPass := false, parentCount := 0 } :=
    ⟨h, hdir, hdir, Or.inr rfl, fun hcon => absurd hcon Bool.false_ne_true⟩
  have hless : undone t st < t.inodes.length + 1 := Nat.lt_succ_of_le List.countP_le_length
  obtain ⟨mid, hrun, hchecked, hdone, hmono⟩ := hwalk.run ht hless
  rw [E2fsprogs.checkDirectory, hrun]
  by_cases hdot : mid.dotdot dir ≠ mid.parent dir
  · obtain ⟨hfix, hsame⟩ := @Checked.fixDotdot t p mid dir (mid.parent dir) hchecked hdone
    refine ⟨E2fsprogs.fixDotdot t mid dir (mid.parent dir), ?_, hfix, ?_, fun d hd => ?_⟩
    · exact congrArg some ((if_pos hdir).trans (if_pos hdot))
    · rw [hsame, hdone]
    · rw [hsame]
      exact hmono d hd
  · refine ⟨mid, ?_, hchecked, hdone, hmono⟩
    exact congrArg some ((if_pos hdir).trans (if_neg hdot))

/-- **All directories are done in the end.** The induction is on the directories. -/
theorem Checked.foldlM (ht : TableOk3 t p) {dirs : List ℕ} (h : Checked t p st)
    (hdirs : ∀ d ∈ dirs, d ∈ t.inodes) :
    ∃ st', dirs.foldlM (E2fsprogs.checkDirectory t (t.inodes.length + 1)) st = some st' ∧
    Checked t p st' ∧
      (∀ d ∈ dirs, st'.inodeDoneMap d = true) ∧ ∀ d, st.inodeDoneMap d = true →
      st'.inodeDoneMap d = true := by
  induction dirs generalizing st with
  | nil => exact ⟨st, rfl, h, fun d hd => absurd hd List.not_mem_nil, fun d hd => hd⟩
  | cons dir dirs ih =>
    obtain ⟨mid, hmid, hchecked, hdone, hmono⟩ := h.checkDirectory ht (hdirs dir List.mem_cons_self)
    obtain ⟨st', hst', hchecked', hdone', hmono'⟩ :=
      ih hchecked fun d hd => hdirs d (List.mem_cons_of_mem _ hd)
    refine ⟨st', ?_, hchecked', fun d hd => ?_, fun d hd => hmono' d (hmono d hd)⟩
    · rw [List.foldlM_cons, hmid]
      exact hst'
    · rcases List.mem_cons.mp hd with rfl | hd
      · exact hmono' d hdone
      · exact hdone' d hd

end Walk

/-! ### Loops -/

section Loops

variable {t} {p : ℕ → ℕ} {a b d : ℕ}

/-- `b` is the parent of the directory `a`. -/
def ParentIs (t : DirInfoTable) (p : ℕ → ℕ) (a b : ℕ) : Prop := a ∈ t.inodes ∧ p a = b ∧ b ≠ 0

/-- `b` is reached from `a` by following parents. -/
def Above (t : DirInfoTable) (p : ℕ → ℕ) : ℕ → ℕ → Prop := Relation.ReflTransGen (ParentIs t p)

/-- Each directory reaches the root, or it or a directory above it has been linked into
`lost+found`. -/
def Connected3 (t : DirInfoTable) (p : ℕ → ℕ) (linked : List ℕ) : Prop :=
  ∀ d ∈ t.inodes, Above t p d rootIno ∨ ∃ e, Above t p d e ∧ e ∈ linked

/-- No directory but the root is above itself. -/
def Acyclic3 (t : DirInfoTable) (p : ℕ → ℕ) : Prop :=
  ∀ d ∈ t.inodes, d ≠ rootIno → ¬Relation.TransGen (ParentIs t p) d d

/-- Everything above a directory in a loop is in the loop. -/
theorem above_of_loop (hloop : Relation.TransGen (ParentIs t p) a a) (h : Above t p a b) :
    Above t p b a := by
  induction h with
  | refl => exact Relation.ReflTransGen.refl
  | tail h hstep ih =>
    rename_i b c
    -- the loop goes on from `b` to its parent
    have hb : Relation.TransGen (ParentIs t p) b b := by
      rcases Relation.ReflTransGen.cases_head ih with rfl | ⟨x, hx, hxa⟩
      · exact hloop
      · exact Relation.TransGen.head' hx (hxa.trans h)
    obtain ⟨x, hx, hxb⟩ := Relation.TransGen.head'_iff.mp hb
    obtain rfl : x = c := hx.2.1.symm.trans hstep.2.1
    exact hxb.trans ih

/-- Nothing but the root is above the root. -/
theorem above_root (ht : TableOk3 t p) (h : Above t p rootIno b) : b = rootIno := by
  induction h with
  | refl => rfl
  | tail _ hstep ih =>
    rw [ih] at hstep
    exact hstep.2.1.symm.trans ht.root.2

/-- Without loops, every directory reaches the root or one without a parent. -/
theorem Acyclic3.connected (ht : TableOk3 t p) (h : Acyclic3 t p) {linked : List ℕ}
    (hlinked : ∀ d ∈ t.inodes, p d = 0 → d ∈ linked) : Connected3 t p linked := by
  have hwf : WellFounded fun b a => ParentIs t p a b ∧ a ≠ rootIno := by
    refine Loop.wf_of_acyclic (List.finite_toSet t.inodes) (fun a b hab => hab.1.1) fun a hcycle =>
      ?_
    obtain ⟨x, hx, -⟩ := Relation.TransGen.head'_iff.mp hcycle
    have hle : (fun a b => ParentIs t p a b ∧ a ≠ rootIno) ≤ ParentIs t p := fun _ _ hab => hab.1
    exact h a hx.1.1 hx.2 (Relation.TransGen.mono hle a a hcycle)
  intro d
  induction d using hwf.induction with
  | _ d ih =>
    intro hd
    by_cases hroot : d = rootIno
    · exact Or.inl (hroot ▸ Relation.ReflTransGen.refl)
    by_cases hzero : p d = 0
    · exact Or.inr ⟨d, Relation.ReflTransGen.refl, hlinked d hd hzero⟩
    · have hstep : ParentIs t p d (p d) := ⟨hd, rfl, hzero⟩
      rcases ih (p d) ⟨hstep, hroot⟩ ((ht.parent d hd).resolve_left hzero) with hr | ⟨e, he, hmem⟩
      · exact Or.inl (Relation.ReflTransGen.head hstep hr)
      · exact Or.inr ⟨e, Relation.ReflTransGen.head hstep he, hmem⟩

/-- A directory in a loop stays unconnected. -/
theorem Connected3.acyclic (ht : TableOk3 t p) {linked : List ℕ} (h : Connected3 t p linked)
    (horphan : ∀ d ∈ linked, p d = 0) : Acyclic3 t p := by
  intro d hd hne hloop
  rcases h d hd with hroot | ⟨e, he, hmem⟩
  · exact hne (above_root ht (above_of_loop hloop hroot))
  · -- a directory without a parent is in no loop
    have hback := above_of_loop hloop he
    have hzero := horphan e hmem
    rcases Relation.ReflTransGen.cases_head hback with rfl | ⟨x, hx, -⟩
    · obtain ⟨x, hx, -⟩ := Relation.TransGen.head'_iff.mp hloop
      exact hx.2.2 (hx.2.1.symm.trans hzero)
    · exact hx.2.2 (hx.2.1.symm.trans hzero)

end Loops

/-! ### Pass 3 -/

/-- **Pass 3 ends, and it connects every directory exactly if there is no loop.** -/
theorem connected_iff_acyclic (t : DirInfoTable) (st : ConnectState) (ht : TableOk3 t st.parent) :
    ∃ st', checkDirectories t (t.inodes.length + 1) st = some st' ∧
      (Connected3 t st.parent st'.linked ↔ Acyclic3 t st.parent) := by
  have hstart : Checked t st.parent
      { st with inodeDoneMap := Function.update (fun _ => false) rootIno true, linked := [] } := by
    refine ⟨by simp, fun d hd hdone hzero => ?_, fun d hd => absurd hd List.not_mem_nil,
      fun _ _ => rfl⟩
    -- only the root is done, and it has a parent
    have hroot : d = rootIno := by
      by_contra hne
      simp [Function.update_of_ne hne] at hdone
    rw [hroot, ht.root.2] at hzero
    exact absurd hzero (by decide)
  obtain ⟨st', hst', hchecked, hdone, -⟩ := hstart.foldlM ht fun d hd => hd
  refine ⟨st', hst', fun h => h.acyclic ht hchecked.orphan,
    fun h => h.connected ht fun d hd hzero => ?_⟩
  exact hchecked.linked d hd (hdone d hd) hzero

/-- A table with the root, `lost+found` and a loop of two directories. -/
def loopTable : DirInfoTable := ⟨[2, 11, 12, 13], 11⟩

/-- Its parents, where the two others are `a` and `b`. -/
def loopState (a b : ℕ) : ConnectState where
  parent := fun d => if d = 12 then a else if d = 13 then b else 2
  dotdot := fun d => if d = 12 then a else if d = 13 then b else 2
  inodeDoneMap := fun _ => false
  inodeLoopDetect := fun _ => false
  linked := []

/-- A chain below a directory without a parent is connected. -/
theorem connected_iff_acyclic_chain :
    ∃ st', checkDirectories loopTable 5 (loopState 13 0) = some st' ∧
    (Connected3 loopTable (loopState 13 0).parent st'.linked ↔
      Acyclic3 loopTable (loopState 13 0).parent) :=
  connected_iff_acyclic loopTable (loopState 13 0) ⟨by decide, by decide, by decide, by decide⟩

/-- **Two directories that are each other's parent are left as they are.** -/
theorem loop_not_connected : ∃ st', checkDirectories loopTable 5 (loopState 13 12) = some st' ∧
    TableOk3 loopTable (loopState 13 12).parent ∧
    ¬Connected3 loopTable (loopState 13 12).parent st'.linked := by
  have hstep : ParentIs loopTable (loopState 13 12).parent 12 13 :=
    ⟨by decide, by decide, by decide⟩
  have hback : ParentIs loopTable (loopState 13 12).parent 13 12 :=
    ⟨by decide, by decide, by decide⟩
  have ht : TableOk3 loopTable (loopState 13 12).parent :=
    ⟨by decide, by decide, by decide, by decide⟩
  have hlinked : (checkDirectories loopTable 5 (loopState 13 12)).map ConnectState.linked =
    some [] := by decide
  obtain ⟨st', hst', hnil⟩ := Option.map_eq_some_iff.mp hlinked
  refine ⟨st', hst', ht, fun h => ?_⟩
  rw [hnil] at h
  exact h.acyclic ht (fun d hd => absurd hd List.not_mem_nil) 12 (by decide) (by decide)
    (Relation.TransGen.tail (Relation.TransGen.single hstep) hback)

end E2fsprogs
