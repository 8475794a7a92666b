import E2fsprogs.Extent.Goto

/-!
# The lookup is exact

The loop of `ext2fs_extent_goto2` keeps that all the extents before its path end by the block, and
that all the extents behind the nodes above begin after it (`E2fsprogs.Searching`). A node is
entered with its first key not behind the block, unless nothing lies before it at all, so that a
search which ends at the first extent of a leaf ends at the first extent of the tree.
-/

namespace E2fsprogs

section GotoExact

variable {fs : ExtentFs} {h : ExtentHandle} {l blk : ℕ} {iBlock : Block}

/-! ### What the loop keeps -/

/-- **The search has come to a level.** -/
structure Searching (fs : ExtentFs) (iBlock : Block) (blk : ℕ) (h : ExtentHandle) (l : ℕ) : Prop
    extends OnPath fs iBlock h l where
  keys : ∃ lo hi, KeysOk fs (h.maxDepth - l) (h.path l).buf lo hi ∧
    ExtentsOk fs (h.maxDepth - l) (h.path l).buf hi
  gone : ∀ j ≤ l, ∀ x ∈ leavesBefore fs (h.maxDepth - j) (h.path j), x.lblk + x.len ≤ blk
  come : ∀ j < l, ∀ x ∈ leavesBehind fs (h.maxDepth - j) (h.path j), blk < x.lblk
  begun : (∀ j ≤ l, (h.path j).index = 0) ∨
    eiBlock (h.path l).buf (entryAt (h.path l).index) ≤ blk ∨
    (l = h.maxDepth ∧ 0 < (h.path l).index)

/-- The extent that was read is the one of the current entry. -/
structure Reads (h : ExtentHandle) (x : Extent) : Prop where
  lblk : x.lblk = eiBlock h.here.buf (entryAt h.here.index)
  len : h.level = h.maxDepth → x.len = (leafAt h.here.buf h.here.index).len

theorem reads_at (h : ExtentHandle) (l : ℕ) (p : ExtentPath) :
    Reads (h.at l p) ((h.at l p).extent (entryAt p.index)) where
  lblk := by rw [extent_lblk, at_here]
  len hl := by
    have hl : l = h.maxDepth := hl
    rw [extent_len hl, at_here]

theorem OnPath.here {l : ℕ} (ho : OnPath fs iBlock h l) :
    h.here = h.path l := by rw [ExtentHandle.here, ho.level]

/-- To another entry of the node. -/
theorem OnPath.sib (ho : OnPath fs iBlock h l) {p : ExtentPath} (hp : PathOk fs (h.maxDepth - l) p)
    (hbuf : p.buf = (h.path l).buf) : OnPath fs iBlock (h.at l p) l where
  level := rfl
  depth := ho.depth
  le := ho.le
  path j hj := by
    rcases eq_or_ne j l with rfl | hne
    · rw [at_path_self]
      exact hp
    · rw [at_path_of_ne hne]
      exact ho.path j hj
  root := by
    rcases eq_or_ne 0 l with rfl | hne
    · rw [at_path_self, hbuf, ho.root]
    · rw [at_path_of_ne hne, ho.root]
  below j hj := by
    rw [at_path_of_ne (Nat.ne_of_lt hj)]
    rcases eq_or_ne (j + 1) l with rfl | hne
    · rw [at_path_self, hbuf, ho.below j hj]
    · rw [at_path_of_ne hne, ho.below j hj]

/-- To the node below. -/
theorem OnPath.down (ho : OnPath fs iBlock h l) (hl : l < h.maxDepth) {p : ExtentPath}
    (hp : PathOk fs (h.maxDepth - (l + 1)) p)
    (hbuf : p.buf = childAt fs (h.path l).buf (h.path l).index) :
    OnPath fs iBlock (h.at (l + 1) p) (l + 1) where
  level := rfl
  depth := ho.depth
  le := hl
  path j hj := by
    rcases eq_or_ne j (l + 1) with rfl | hne
    · rw [at_path_self]
      exact hp
    · rw [at_path_of_ne hne]
      exact ho.path j (by omega)
  root := by rw [at_path_of_ne (Nat.succ_ne_zero l).symm, ho.root]
  below j hj := by
    rw [at_path_of_ne (Nat.ne_of_lt hj)]
    rcases eq_or_ne j l with rfl | hne
    · rw [at_path_self, hbuf]
    · rw [at_path_of_ne (by omega), ho.below j (by omega)]

/-- The search goes on at another entry of the node. -/
theorem Searching.sib (hs : Searching fs iBlock blk h l) {p : ExtentPath}
    (hp : PathOk fs (h.maxDepth - l) p) (hbuf : p.buf = (h.path l).buf)
    (hgone : ∀ x ∈ leavesBefore fs (h.maxDepth - l) p, x.lblk + x.len ≤ blk)
    (hbegun : p.index = (h.path l).index ∨ eiBlock p.buf (entryAt p.index) ≤ blk ∨
      (l = h.maxDepth ∧ 0 < p.index)) :
    Searching fs iBlock blk (h.at l p) l where
  toOnPath := hs.toOnPath.sib hp hbuf
  keys := by
    rw [at_path_self, at_maxDepth, hbuf]
    exact hs.keys
  gone j hj := by
    rcases eq_or_ne j l with rfl | hne
    · rw [at_path_self]
      exact hgone
    · rw [at_path_of_ne hne]
      exact hs.gone j hj
  come j hj := by
    rw [at_path_of_ne (Nat.ne_of_lt hj)]
    exact hs.come j hj
  begun := by
    rw [at_path_self, at_maxDepth]
    rcases hbegun with hsame | hbegun
    · rw [hsame, hbuf]
      refine hs.begun.imp_left fun hzero j hj => ?_
      rcases eq_or_ne j l with rfl | hne
      · rw [at_path_self, hsame]
        exact hzero j hj
      · rw [at_path_of_ne hne]
        exact hzero j hj
    · exact Or.inr hbegun

/-- The search goes on in the node below. -/
theorem Searching.down (hs : Searching fs iBlock blk h l) (hl : l < h.maxDepth) {p : ExtentPath}
    (hp : PathOk fs (h.maxDepth - (l + 1)) p)
    (hbuf : p.buf = childAt fs (h.path l).buf (h.path l).index)
    (hidx : p.index = 0) (hnext : 0 < (h.path l).left →
      blk < eiBlock (h.path l).buf (entryAt ((h.path l).index + 1))) :
    Searching fs iBlock blk (h.at (l + 1) p) (l + 1) := by
  obtain ⟨lo, hi, hkeys, hextents⟩ := hs.keys
  have hpath := hs.path l (le_refl l)
  have hbehind := hkeys.lt_behind hpath hnext
  have hindex : (h.path l).index < ehEntries (h.path l).buf := by
    have := hpath.left
    rw [← hpath.entries, ExtentPath.index]
    omega
  rw [show h.maxDepth - l = h.maxDepth - (l + 1) + 1 by omega] at hkeys hextents
  obtain ⟨hkey, hchild⟩ := hextents _ hindex
  refine ⟨hs.toOnPath.down hl hp hbuf, ?_, fun j hj => ?_, fun j hj => ?_, ?_⟩
  · rw [at_path_self, at_maxDepth, hbuf]
    exact ⟨_, _, (hkeys _ hindex).2.2.2, hchild⟩
  · rcases eq_or_ne j (l + 1) with rfl | hne
    · rw [at_path_self, leavesBefore_nil hidx]
      exact fun x hx => absurd hx List.not_mem_nil
    · rw [at_path_of_ne hne]
      exact hs.gone j (by omega)
  · rw [at_path_of_ne (Nat.ne_of_lt hj)]
    rcases eq_or_ne j l with rfl | hne
    · exact hbehind
    · exact hs.come j (by omega)
  · rw [at_path_self, hidx, hbuf, hkey]
    rcases hs.begun with hzero | hle | ⟨rfl, -⟩
    · refine Or.inl fun j hj => ?_
      rcases eq_or_ne j (l + 1) with rfl | hne
      · rw [at_path_self, hidx]
      · rw [at_path_of_ne hne]
        exact hzero j (by omega)
    · exact Or.inr (Or.inl hle)
    · exact absurd hl (lt_irrefl _)

/-! ### The rounds -/

/-- What lies before the next entry. -/
theorem leavesBefore_next {d : ℕ} {p p' : ExtentPath} (hp : PathOk fs d p) (hp' : PathOk fs d p')
    (hbuf : p'.buf = p.buf) (hleft : p'.left + 1 = p.left) :
    p'.index = p.index + 1 ∧ leavesBefore fs d p' =
      leavesBefore fs d p ++ entryLeaves fs d p.buf p.index := by
  have hidx : p'.index = p.index + 1 := by
    have h1 := hp.left
    have h2 := hp.entries
    have h3 := hp'.entries
    rw [hbuf] at h3
    rw [ExtentPath.index, ExtentPath.index]
    omega
  exact ⟨hidx, leavesBefore_concat hp' hp hbuf.symm hleft.symm⟩

/-- From `go_down` on. -/
theorem gotoDown_searching (hs : Searching fs iBlock blk h l) (hl : l < h.maxDepth)
    (hnext : 0 < (h.path l).left → blk < eiBlock (h.path l).buf (entryAt ((h.path l).index + 1))) :
    ∃ h' x, gotoDown fs h = .inl (h', x) ∧ h'.maxDepth = h.maxDepth ∧
    Searching fs iBlock blk h' (l + 1) ∧ Reads h' x := by
  have hpath : PathOk fs (h.maxDepth - (l + 1) + 1) h.here := by
    rw [hs.here, show h.maxDepth - (l + 1) + 1 = h.maxDepth - l by omega]
    exact hs.path l (le_refl l)
  obtain ⟨p, hmove, hp, hbuf, hidx⟩ := extentMove_down (by rw [hs.level]; exact hl) hpath
  rw [hs.here] at hbuf
  rw [hs.level] at hmove
  refine ⟨h.at (l + 1) p, _, ?_, rfl, hs.down hl hp hbuf hidx hnext, reads_at h (l + 1) p⟩
  rw [gotoDown, hmove]

/-- **The scan of a node that is no leaf** ends in the node below. -/
theorem scan_searching (hs : Searching fs iBlock blk h l) (hl : l < h.maxDepth) (x : Extent) :
    ∃ h' x', Loop.Reach (gotoStep fs 0 blk) (h, x) (h', x') ∧ h'.maxDepth = h.maxDepth ∧
      Searching fs iBlock blk h' (l + 1) ∧ Reads h' x' := by
  -- the induction is on the number of entries left in the node
  induction hn : (h.path l).left generalizing h x with
  | zero =>
    obtain ⟨h', x', hdown, hmax, hs', hr⟩ := gotoDown_searching hs hl fun hpos => absurd hn hpos.ne'
    refine ⟨h', x', Relation.ReflTransGen.single ?_, hmax, hs', hr⟩
    rw [Loop.Round, gotoStep, if_neg (by rw [hs.level]; omega),
      extentMove_nextSib_last (by rw [hs.here, hn])]
    exact hdown
  | succ n ih =>
    have hpath : PathOk fs (h.maxDepth - l) h.here := hs.here ▸ hs.path l (le_refl l)
    obtain ⟨p, hmove, hp, hbuf, hleft⟩ := extentMove_nextSib hpath (by rw [hs.here]; omega)
    rw [hs.level] at hmove
    rw [hs.here] at hbuf hleft hpath
    obtain ⟨hidx, hbefore⟩ := leavesBefore_next hpath hp hbuf hleft
    obtain ⟨lo, hi, hkeys, hextents⟩ := hs.keys
    have hlt := hp.left
    have hentries := hp.entries
    have hpidx : p.index = p.entries - 1 - p.left := rfl
    have hkey : eiBlock p.buf (entryAt p.index) = entryEnd (h.path l).buf hi (h.path l).index := by
      rw [entryEnd, if_pos (by rw [← hbuf, ← hentries, ← hidx, hpidx]; omega), hbuf, hidx]
    have hstep : gotoStep fs 0 blk (h, x) =
        if blk = eiBlock p.buf (entryAt p.index) then gotoDown fs (h.at l p)
        else if eiBlock p.buf (entryAt p.index) < blk then
          .inl (h.at l p, (h.at l p).extent (entryAt p.index))
        else gotoBack fs (h.at l p) := by
      rw [gotoStep, if_neg (by rw [hs.level]; omega), hmove]
      dsimp only
      rw [extent_lblk]
    -- when the next entry does not begin behind the block, all of the current one lies before the
    -- block
    have hforward : eiBlock p.buf (entryAt p.index) ≤ blk →
        Searching fs iBlock blk (h.at l p) l := by
      intro hle
      refine hs.sib hp hbuf (fun y hy => ?_) (Or.inr (Or.inl hle))
      rw [hbefore] at hy
      rcases List.mem_append.mp hy with hy | hy
      · exact hs.gone l (le_refl l) y hy
      · have hindex : (h.path l).index < ehEntries (h.path l).buf := by
          rw [← hbuf, ← hentries]
          omega
        exact (hextents.end_le hkeys _ hindex y hy).trans (hkey ▸ hle)
    rcases lt_trichotomy blk (eiBlock p.buf (entryAt p.index)) with hblk | hblk | hblk
    · -- one entry too far
      rw [if_neg hblk.ne, if_neg (by omega)] at hstep
      obtain ⟨p', hback, hp', hbuf', hleft'⟩ :=
        extentMove_prevSib (h := h.at l p) (by rw [at_here]; exact hp)
        (by rw [at_here]; omega)
      rw [at_here] at hbuf' hleft'
      rw [at_level, at_at] at hback
      have hidx' : p'.index = (h.path l).index := by
        have h1 := hp'.entries
        have h2 := hpath.entries
        rw [hbuf', hbuf] at h1
        rw [ExtentPath.index, ExtentPath.index]
        omega
      have hs' : Searching fs iBlock blk (h.at l p') l := by
        refine hs.sib hp' (hbuf'.trans hbuf) (fun y hy => hs.gone l (le_refl l) y ?_) (Or.inl hidx')
        rwa [leavesBefore, hidx', hbuf', hbuf] at hy
      obtain ⟨h', x', hdown, hmax, hdeep, hr⟩ := gotoDown_searching hs' hl fun _ => by
        rw [at_path_self, hidx', ← hidx, hbuf']
        exact hblk
      refine ⟨h', x', Relation.ReflTransGen.single ?_, hmax, hdeep, hr⟩
      rw [Loop.Round, hstep, gotoBack, hback]
      exact hdown
    · -- the block is a key: what is behind the next entry begins behind the block
      rw [if_pos hblk] at hstep
      obtain ⟨h', x', hdown, hmax, hdeep, hr⟩ :=
        gotoDown_searching (hforward hblk.ge) hl fun hpos => by
        rw [at_path_self] at hpos ⊢
        have hmore : p.index + 1 < ehEntries p.buf := by omega
        have :=
          (hbuf ▸ hkeys : KeysOk fs (h.maxDepth - l) p.buf lo hi).entry (Nat.lt_of_succ_lt hmore)
        rw [entryEnd, if_pos hmore] at this
        exact hblk.symm ▸ this.2.1
      exact ⟨h', x', Relation.ReflTransGen.single (hstep.trans hdown), hmax, hdeep, hr⟩
    · rw [if_neg hblk.ne', if_pos hblk] at hstep
      obtain ⟨h', x', hreach, hmax, hdeep, hr⟩ :=
        ih (hforward hblk.le) hl ((h.at l p).extent (entryAt p.index))
        (by rw [at_path_self]; omega)
      exact ⟨h', x', Relation.ReflTransGen.head hstep hreach, hmax, hdeep, hr⟩

/-! ### In a leaf -/

/-- **Where a search stops**: on the extent with the block; or, when there is none, on the last
extent before the block or else on the first of all. -/
def StopsAt (fs : ExtentFs) (iBlock : Block) (blk : ℕ) (r : Except GotoErr Unit)
    (h : ExtentHandle) : Prop :=
  ∃ before x after, CursorAt fs iBlock h before x after ∧
    ((r = .ok () ∧ x.lblk ≤ blk ∧ blk < x.lblk + x.len) ∨
      (r = .error .notFound ∧ (∀ y ∈ after, blk < y.lblk) ∧
        (((∀ y ∈ before, y.lblk + y.len ≤ blk) ∧ x.lblk + x.len ≤ blk) ∨
          (before = [] ∧ blk < x.lblk))))

theorem Searching.gone_le (hs : Searching fs iBlock blk h l) :
    ∀ y ∈ leavesGone fs h l, y.lblk + y.len ≤ blk := by
  intro y hy
  obtain ⟨j, hj, hyj⟩ := mem_leavesGone.mp hy
  exact hs.gone j hj y hyj

/-- What is behind the cursor, once the extents behind it in the leaf begin after the block. -/
theorem Searching.lt_come (hs : Searching fs iBlock blk h l)
    (hbehind : ∀ y ∈ leavesBehind fs (h.maxDepth - l) (h.path l), blk < y.lblk) :
    ∀ y ∈ leavesToCome fs h l, blk < y.lblk := by
  intro y hy
  obtain ⟨j, hj, hyj⟩ := mem_leavesToCome.mp hy
  rcases hj.lt_or_eq with hlt | rfl
  · exact hs.come j hlt y hyj
  · exact hbehind y hyj

theorem Searching.cursorAt (hs : Searching fs iBlock blk h h.maxDepth) :
    CursorAt fs iBlock h (leavesGone fs h h.maxDepth)
      (leafAt (h.path h.maxDepth).buf (h.path h.maxDepth).index)
      (leavesToCome fs h h.maxDepth) := ⟨hs.toOnPath, rfl, rfl, rfl⟩

/-- The block lies before the extent: one step back. -/
theorem stops_before (hs : Searching fs iBlock blk h h.maxDepth)
    (hlt : blk < eiBlock (h.path h.maxDepth).buf (entryAt (h.path h.maxDepth).index)) :
    StopsAt fs iBlock blk (.error .notFound) (extentMove fs .prevSib h).2 := by
  obtain ⟨lo, hi, hkeys, -⟩ := hs.keys
  have hpath : PathOk fs (h.maxDepth - h.maxDepth) h.here :=
    hs.here ▸ hs.path h.maxDepth (le_refl _)
  by_cases hfirst : h.here.entries ≤ h.here.left + 1
  · -- nothing before it in the leaf, and so nothing before it at all
    rw [extentMove_prevSib_first hpath hfirst]
    have hidx : (h.path h.maxDepth).index = 0 := by
      rw [← hs.here, ExtentPath.index]
      omega
    have hzero : ∀ j ≤ h.maxDepth, (h.path j).index = 0 := by
      rcases hs.begun with hzero | hle | ⟨-, hpos⟩
      · exact hzero
      · omega
      · omega
    have hempty : leavesGone fs h h.maxDepth = [] :=
      List.eq_nil_iff_forall_not_mem.mpr fun y hy => by
      obtain ⟨j, hj, hyj⟩ := mem_leavesGone.mp hy
      rw [leavesBefore_nil (hzero j hj)] at hyj
      exact List.not_mem_nil hyj
    refine ⟨_, _, _, hs.cursorAt,
      Or.inr ⟨rfl, hs.lt_come (hkeys.lt_behind (hs.path _ (le_refl _)) fun hpos => ?_),
        Or.inr ⟨hempty, hlt⟩⟩⟩
    have hnode := hs.path h.maxDepth (le_refl _)
    have hleft := hnode.left
    refine hlt.trans_le (hkeys.key_le (Nat.le_succ _) ?_)
    rw [← hnode.entries, ExtentPath.index]
    omega
  · obtain ⟨p, hmove, hp, hbuf, hleft⟩ := extentMove_prevSib hpath (Nat.lt_of_not_le hfirst)
    rw [hs.level] at hmove
    rw [hs.here] at hbuf hleft hpath
    obtain ⟨hidx, hbefore⟩ := leavesBefore_next hp hpath hbuf.symm hleft.symm
    rw [hmove]
    -- the extent before it is one of those that end by the block
    have hend : (leafAt p.buf p.index).lblk + (leafAt p.buf p.index).len ≤ blk := by
      refine hs.gone h.maxDepth (le_refl _) _ ?_
      rw [hbefore, Nat.sub_self]
      exact List.mem_append_right _ (List.mem_singleton.mpr rfl)
    have hs' : Searching fs iBlock blk (h.at h.maxDepth p) h.maxDepth := by
      refine hs.sib hp hbuf (fun y hy => hs.gone h.maxDepth (le_refl _) y ?_) (Or.inr (Or.inl ?_))
      · rw [hbefore]
        exact List.mem_append_left _ hy
      · exact (Nat.le_add_right _ _).trans hend
    have hbehind : ∀ y ∈ leavesBehind fs (h.maxDepth - h.maxDepth) p, blk < y.lblk :=
      (hbuf.symm ▸ hkeys : KeysOk fs _ p.buf lo hi).lt_behind hp fun _ => by
        rw [hbuf, ← hidx]
        exact hlt
    refine ⟨_, _, _, hs'.cursorAt,
      Or.inr ⟨rfl, hs'.lt_come (by rwa [at_path_self]), Or.inl ⟨hs'.gone_le, ?_⟩⟩⟩
    rw [at_maxDepth, at_path_self]
    exact hend

/-- **The scan of a leaf** stops where it should. -/
theorem leaf_stops (hs : Searching fs iBlock blk h h.maxDepth) {x : Extent} (hx : Reads h x) :
    ∃ r h', Loop.Leaves (gotoStep fs 0 blk) (h, x) (r, h') ∧ StopsAt fs iBlock blk r h' := by
  -- on the entries left in the leaf; everything before the current one lies below `blk`
  induction hn : (h.path h.maxDepth).left using Nat.strong_induction_on generalizing h x with
  | _ n ih =>
    have hlblk : x.lblk = (leafAt (h.path h.maxDepth).buf (h.path h.maxDepth).index).lblk := by
      rw [hx.lblk, hs.here]
      rfl
    have hlen : x.len = (leafAt (h.path h.maxDepth).buf (h.path h.maxDepth).index).len := by
      rw [hx.len hs.level, hs.here]
    have hpath : PathOk fs (h.maxDepth - h.maxDepth) h.here :=
      hs.here ▸ hs.path h.maxDepth (le_refl _)
    have hstep : gotoStep fs 0 blk (h, x) =
        if x.lblk ≤ blk ∧ blk < x.lblk + x.len then .inr (.ok (), h)
        else if blk < x.lblk then .inr (.error .notFound, (extentMove fs .prevSib h).2)
        else gotoNext fs h := by
      rw [gotoStep, if_pos (by rw [hs.level, Nat.add_zero])]
    -- found, past it, or still in front
    by_cases hhas : x.lblk ≤ blk ∧ blk < x.lblk + x.len
    · rw [if_pos hhas] at hstep
      refine ⟨_, _, Loop.leaves_of_inr hstep, _, _, _, hs.cursorAt, Or.inl ⟨rfl, ?_⟩⟩
      rwa [← hlblk, ← hlen]
    by_cases hlt : blk < x.lblk
    · rw [if_neg hhas, if_pos hlt] at hstep
      exact ⟨_, _, Loop.leaves_of_inr hstep, stops_before hs (hlt.trans_eq hlblk)⟩
    rw [if_neg hhas, if_neg hlt] at hstep
    have hend : x.lblk + x.len ≤ blk := by omega
    -- the last entry of the leaf ends the search, any other moves on to its right
    by_cases hleft : (h.path h.maxDepth).left = 0
    · rw [gotoNext, extentMove_nextSib_last (by rw [hs.here, hleft])] at hstep
      refine ⟨_, _, Loop.leaves_of_inr hstep, _, _, _, hs.cursorAt,
        Or.inr ⟨rfl, hs.lt_come ?_, Or.inl ⟨hs.gone_le, ?_⟩⟩⟩
      · rw [leavesBehind_nil hleft]
        exact fun y hy => absurd hy List.not_mem_nil
      · rwa [← hlblk, ← hlen]
    · obtain ⟨p, hmove, hp, hbuf, hleft'⟩ := extentMove_nextSib hpath (by rw [hs.here]; omega)
      rw [hs.level] at hmove
      rw [hs.here] at hbuf hleft' hpath
      obtain ⟨hidx, hbefore⟩ := leavesBefore_next hpath hp hbuf hleft'
      rw [gotoNext, hmove] at hstep
      have hs' : Searching fs iBlock blk (h.at h.maxDepth p) h.maxDepth := by
        refine hs.sib hp hbuf (fun y hy => ?_) (Or.inr (Or.inr ⟨rfl, by omega⟩))
        rw [hbefore, Nat.sub_self] at hy
        rcases List.mem_append.mp hy with hy | hy
        · rw [← Nat.sub_self h.maxDepth] at hy
          exact hs.gone h.maxDepth (le_refl _) y hy
        · rw [List.mem_singleton.mp hy, ← hlblk, ← hlen]
          exact hend
      obtain ⟨r, h', hleaves, hstops⟩ := ih p.left (by omega) hs' (reads_at h _ p)
        (by rw [at_maxDepth, at_path_self])
      exact ⟨r, h', Loop.leaves_of_round hstep hleaves, hstops⟩

/-! ### From the root -/

/-- The search goes down to a leaf, and stops there. -/
theorem searching_stops (hs : Searching fs iBlock blk h l) {x : Extent} (hx : Reads h x) :
    ∃ r h', Loop.Leaves (gotoStep fs 0 blk) (h, x) (r, h') ∧ StopsAt fs iBlock blk r h' := by
  -- the induction is on the number of levels below
  induction hn : h.maxDepth - l generalizing h l x with
  | zero =>
    obtain rfl : l = h.maxDepth := le_antisymm hs.le (Nat.le_of_sub_eq_zero hn)
    exact leaf_stops hs hx
  | succ n ih =>
    obtain ⟨h', x', hreach, hmax, hs', hx'⟩ := scan_searching hs (by omega) x
    obtain ⟨r, h'', hleaves, hstops⟩ := ih hs' hx' (by omega)
    exact ⟨r, h'', Loop.leaves_of_reach hreach hleaves, hstops⟩

/-- **A handle of an inode**, wherever its cursor is: the root is the one of the inode. -/
structure RootOf (iBlock : Block) (h : ExtentHandle) : Prop where
  depth : h.maxDepth = ehDepth iBlock
  buf : (h.path 0).buf = iBlock
  entries : (h.path 0).entries = ehEntries iBlock

theorem rootOf_open {endBlk : ℕ} (ho : extentOpen iBlock endBlk = some h) : RootOf iBlock h := by
  rw [extentOpen] at ho
  split at ho
  · cases ho
  · rw [← Option.some.inj ho]
    exact ⟨rfl, rfl, rfl⟩

/-- A level of the path is changed, but not the node of the root. -/
theorem RootOf.update (hr : RootOf iBlock h) {p : ExtentPath}
    (hbuf : l = 0 → p.buf = (h.path 0).buf)
    (hentries : l = 0 → p.entries = (h.path 0).entries) (l' : ℕ) :
    RootOf iBlock { h with level := l', path := Function.update h.path l p } := by
  have hroot : (Function.update h.path l p 0).buf = (h.path 0).buf ∧
      (Function.update h.path l p 0).entries = (h.path 0).entries := by
    rw [Function.update_apply]
    split
    next heq => exact ⟨hbuf heq.symm, hentries heq.symm⟩
    next => exact ⟨rfl, rfl⟩
  exact ⟨hr.depth, hroot.1.trans hr.buf, hroot.2.trans hr.entries⟩

theorem RootOf.setPath (hr : RootOf iBlock h) {p : ExtentPath} (hbuf : p.buf = h.here.buf)
    (hentries : p.entries = h.here.entries) : RootOf iBlock (h.setPath p) := by
  refine hr.update (fun hl => ?_) (fun hl => ?_) h.level
  · rw [hbuf, ExtentHandle.here, hl]
  · rw [hentries, ExtentHandle.here, hl]

theorem RootOf.level (hr : RootOf iBlock h) (l : ℕ) : RootOf iBlock { h with level := l } :=
  ⟨hr.depth, hr.buf, hr.entries⟩

theorem RootOf.chooseOp {op op' : ExtentOp} {h' : ExtentHandle} (hr : RootOf iBlock h)
    (hc : E2fsprogs.chooseOp op h = .ok (op', h')) : RootOf iBlock h' := by
  rw [E2fsprogs.chooseOp] at hc
  have hvisit : RootOf iBlock (h.setPath { h.here with visitNum := h.here.visitNum + 1 }) :=
    hr.setPath rfl rfl
  split at hc
  · split at hc
    · cases hc
      exact hvisit
    · split at hc
      · cases hc
        exact hr
      · split at hc
        · cases hc
          exact hr
        · cases hc
  · split at hc
    · split at hc
      · cases hc
        exact hr
      · split at hc
        · cases hc
          exact hr
        · split at hc
          · cases hc
            exact hr
          · cases hc
    · split at hc
      · split at hc <;> cases hc <;> exact hr
      · cases hc
        exact hr

theorem RootOf.moveNextSib (hr : RootOf iBlock h) : RootOf iBlock (moveNextSib h).handle := by
  rw [E2fsprogs.moveNextSib]
  split
  · exact hr
  · exact hr.setPath rfl rfl

theorem RootOf.movePrevSib (hr : RootOf iBlock h) : RootOf iBlock (movePrevSib h).handle := by
  rw [E2fsprogs.movePrevSib]
  split
  · exact hr
  · split
    · exact hr
    · exact hr.setPath rfl rfl

theorem RootOf.moveUp (hr : RootOf iBlock h) (op : ExtentOp) :
    RootOf iBlock (moveUp op h).handle := by
  rw [E2fsprogs.moveUp]
  split
  · exact hr
  · refine (hr.level (h.level - 1)).setPath ?_ ?_
    · split <;> rfl
    · split <;> rfl

theorem RootOf.moveDown (hr : RootOf iBlock h) (last : Bool) :
    RootOf iBlock (moveDown fs last h).handle := by
  have hdown : ∀ (l : ℕ) (p : ExtentPath),
      RootOf iBlock { h with level := l, path := Function.update h.path (h.level + 1) p } :=
    fun l p => hr.update (fun h0 => absurd h0 (Nat.succ_ne_zero _))
      (fun h0 => absurd h0 (Nat.succ_ne_zero _)) l
  rw [E2fsprogs.moveDown]
  split
  · exact hr
  · split
    · exact hr
    · dsimp only
      split
      · exact hdown h.level _
      · split
        · exact hdown (h.level + 1) _
        · split
          · exact hdown (h.level + 1) _
          · exact hdown (h.level + 1) _

theorem RootOf.moveExtent (hr : RootOf iBlock h) (origOp op : ExtentOp) :
    RootOf iBlock (moveExtent fs origOp op h).handle := by
  cases op with
  | root =>
    refine RootOf.moveNextSib ((hr.level 0).setPath ?_ ?_)
    · rfl
    · rfl
  | firstSib =>
    refine RootOf.moveNextSib (hr.setPath ?_ ?_)
    · rfl
    · rfl
  | lastSib => exact hr.setPath rfl rfl
  | nextSib => exact hr.moveNextSib
  | prevSib => exact hr.movePrevSib
  | up => exact hr.moveUp origOp
  | down => exact hr.moveDown false
  | downAndLast => exact hr.moveDown true
  | current | lastLeaf | nextLeaf | prevLeaf | next | prev | other => exact hr

/-- One round. -/
theorem RootOf.getStep {op : ExtentOp} {failed : Bool} (hr : RootOf iBlock h) :
    Sum.elim (fun s => RootOf iBlock s.1) (fun r => RootOf iBlock r.2)
      (getStep fs op (h, failed)) := by
  rw [E2fsprogs.getStep]
  dsimp only
  cases hc : E2fsprogs.chooseOp op h with
  | error e => exact hr
  | ok c =>
    obtain ⟨op', h'⟩ := c
    have hmoved := @RootOf.moveExtent fs _ _ (hr.chooseOp hc) op op'
    dsimp only
    rcases hm : E2fsprogs.moveExtent fs op op' h' with ⟨h'', e | ⟨_ | ix, f⟩⟩ <;> rw [hm] at hmoved
    · exact hmoved
    · exact hmoved
    · dsimp only
      split
      · exact hmoved
      · split
        · exact hmoved
        · split <;> exact hmoved

/-- **Every call of `ext2fs_extent_get` keeps the root.** -/
theorem RootOf.get {n : ℕ} {op : ExtentOp} {r : Except ExtentErr Extent} {h' : ExtentHandle}
    (hr : RootOf iBlock h) (hg : extentGet fs n op h = some (r, h')) : RootOf iBlock h' := by
  obtain ⟨s, hreach, hlast⟩ := Loop.exists_last_of_leaves ⟨n, hg⟩
  have hs : RootOf iBlock s.1 := by
    refine Loop.invariant (P := fun s : ExtentHandle × Bool => RootOf iBlock s.1)
      (fun a b ha hab => ?_) hreach hr
    have hround := @RootOf.getStep fs a.1 iBlock op a.2 ha
    rwa [show E2fsprogs.getStep fs op (a.1, a.2) = .inl b from hab] at hround
  have hround := @RootOf.getStep fs s.1 iBlock op s.2 hs
  rwa [show E2fsprogs.getStep fs op (s.1, s.2) = .inr (r, h') from hlast] at hround

/-- A move of one round keeps the root. -/
theorem RootOf.move (hr : RootOf iBlock h) (op : ExtentOp) :
    RootOf iBlock (extentMove fs op h).2 := by
  have hround := @RootOf.getStep fs h iBlock op false hr
  rw [extentMove]
  cases hs : E2fsprogs.getStep fs op (h, false) with
  | inl s =>
    rw [hs] at hround
    exact hround
  | inr r =>
    rw [hs] at hround
    exact hround

theorem RootOf.gotoDown (hr : RootOf iBlock h) :
    Sum.elim (fun s => RootOf iBlock s.1) (fun r => RootOf iBlock r.2) (gotoDown fs h) := by
  have hmove := @RootOf.move fs h iBlock hr .down
  rw [E2fsprogs.gotoDown]
  rcases hm : extentMove fs .down h with ⟨e | x, h'⟩ <;> (rw [hm] at hmove; exact hmove)

theorem RootOf.gotoBack (hr : RootOf iBlock h) :
    Sum.elim (fun s => RootOf iBlock s.1) (fun r => RootOf iBlock r.2) (gotoBack fs h) := by
  have hmove := @RootOf.move fs h iBlock hr .prevSib
  rw [E2fsprogs.gotoBack]
  rcases hm : extentMove fs .prevSib h with ⟨e | x, h'⟩
  · rw [hm] at hmove
    exact hmove
  · rw [hm] at hmove
    exact RootOf.gotoDown hmove

/-- A round of a search. -/
theorem RootOf.gotoStep (hr : RootOf iBlock h) (leafLevel : ℕ) (x : Extent) :
    Sum.elim (fun s => RootOf iBlock s.1) (fun r => RootOf iBlock r.2)
      (gotoStep fs leafLevel blk (h, x)) := by
  have hnext := @RootOf.move fs h iBlock hr .nextSib
  rw [E2fsprogs.gotoStep]
  split
  · split
    · exact hr
    · split
      · exact hr.move .prevSib
      · rw [gotoNext]
        rcases hm : extentMove fs .nextSib h with ⟨e | y, h'⟩
        · rw [hm] at hnext
          cases e <;> exact hnext
        · rw [hm] at hnext
          exact hnext
  · rcases hm : extentMove fs .nextSib h with ⟨e | y, h'⟩
    · rw [hm] at hnext
      cases e
      case noNext => exact RootOf.gotoDown hnext
      all_goals exact hnext
    · rw [hm] at hnext
      dsimp only
      split
      · exact RootOf.gotoDown hnext
      · split
        · exact hnext
        · exact RootOf.gotoBack hnext

/-- **A search keeps the root.** -/
theorem RootOf.goto {n leafLevel : ℕ} {r : Except GotoErr Unit} {h' : ExtentHandle}
    (hr : RootOf iBlock h)
    (hg : extentGoto2 fs n leafLevel blk h = some (r, h')) : RootOf iBlock h' := by
  have hroot := @RootOf.move fs h iBlock hr .root
  rw [extentGoto2] at hg
  rcases hm : extentMove fs .root h with ⟨e | x, h₁⟩
  · rw [hm] at hg hroot
    cases e <;> (cases hg; exact hroot)
  · rw [hm] at hg hroot
    dsimp only at hg
    split at hg
    · cases hg
      exact hroot
    · obtain ⟨s, hreach, hlast⟩ := Loop.exists_last_of_leaves ⟨n, hg⟩
      have hs : RootOf iBlock s.1 := by
        refine Loop.invariant (P := fun s : ExtentHandle × Extent => RootOf iBlock s.1)
          (fun a b ha hab => ?_) hreach hroot
        have hround := @RootOf.gotoStep fs a.1 blk iBlock ha leafLevel a.2
        rwa [show E2fsprogs.gotoStep fs leafLevel blk (a.1, a.2) = .inl b from hab] at hround
      have hround := @RootOf.gotoStep fs s.1 blk iBlock hs leafLevel s.2
      rwa [show E2fsprogs.gotoStep fs leafLevel blk (s.1, s.2) = .inr (r, h') from hlast] at hround

/-! ### The lookup -/

/-- **The lookup of a block is right**: it finds the block exactly when an extent has it, with the
cursor on that extent. Otherwise the cursor is on the last extent that ends by the block, or on the
first one when the block precedes them all. -/
structure LooksUp (fs : ExtentFs) (iBlock : Block) (blk : ℕ) (r : Except GotoErr Unit)
    (h : ExtentHandle) : Prop where
  found : r = .ok () ↔ ∃ x ∈ leavesOf fs (ehDepth iBlock) iBlock, x.lblk ≤ blk ∧
    blk < x.lblk + x.len
  onExtent : r = .ok () →
    ∃ before x after, CursorAt fs iBlock h before x after ∧ x.lblk ≤ blk ∧ blk < x.lblk + x.len
  notFound : r ≠ .ok () → r = .error .notFound
  lastBefore : r ≠ .ok () → (∃ y ∈ leavesOf fs (ehDepth iBlock) iBlock, y.lblk + y.len ≤ blk) →
    ∃ before x after, CursorAt fs iBlock h before x after ∧ x.lblk + x.len ≤ blk ∧ ∀ y ∈ after,
      blk < y.lblk + y.len
  onFirst : r ≠ .ok () → leavesOf fs (ehDepth iBlock) iBlock ≠ [] →
    (∀ y ∈ leavesOf fs (ehDepth iBlock) iBlock, blk < y.lblk) →
    ∃ x after, CursorAt fs iBlock h [] x after

theorem notFound_ne_ok : (.error .notFound : Except GotoErr Unit) ≠ .ok () := by
  intro heq
  cases heq

/-- Where a search stops, it is right. -/
theorem looksUp_of_stops {r : Except GotoErr Unit} (hs : StopsAt fs iBlock blk r h) :
    LooksUp fs iBlock blk r h := by
  obtain ⟨before, x, after, hc, ⟨rfl, hle, hlt⟩ | ⟨rfl, hafter, hwhere⟩⟩ := hs
  · have hmem : x ∈ leavesOf fs (ehDepth iBlock) iBlock := by
      rw [hc.leaves]
      exact List.mem_append_right _ List.mem_cons_self
    exact ⟨⟨fun _ => ⟨x, hmem, hle, hlt⟩, fun _ => rfl⟩, fun _ => ⟨before, x, after, hc, hle, hlt⟩,
      fun hne => absurd rfl hne, fun hne => absurd rfl hne, fun hne => absurd rfl hne⟩
  · have hnone : ¬∃ y ∈ leavesOf fs (ehDepth iBlock) iBlock, y.lblk ≤ blk ∧
        blk < y.lblk + y.len := by
      rintro ⟨y, hy, hyle, hylt⟩
      rw [hc.leaves] at hy
      rcases List.mem_append.mp hy with hy | hy
      · rcases hwhere with ⟨hbefore, -⟩ | ⟨rfl, -⟩
        · exact absurd (hbefore y hy) (by omega)
        · exact List.not_mem_nil hy
      · rcases List.mem_cons.mp hy with rfl | hy
        · rcases hwhere with ⟨-, hend⟩ | ⟨-, hlt⟩
          · omega
          · omega
        · exact absurd (hafter y hy) (by omega)
    refine ⟨⟨fun hr => absurd hr notFound_ne_ok, fun hsome => absurd hsome hnone⟩,
      fun hr => absurd hr notFound_ne_ok, fun _ => rfl, fun _ hsome => ?_, fun _ _ hall => ?_⟩
    · obtain ⟨y, hy, hyend⟩ := hsome
      rcases hwhere with ⟨-, hend⟩ | ⟨rfl, hlt⟩
      · exact ⟨before, x, after, hc, hend,
          fun z hz => (hafter z hz).trans_le (Nat.le_add_right _ _)⟩
      · rw [hc.leaves, List.nil_append] at hy
        rcases List.mem_cons.mp hy with rfl | hy
        · omega
        · exact absurd (hafter y hy) (by omega)
    · rcases hwhere with ⟨-, hend⟩ | ⟨rfl, -⟩
      · have hlt := hall x (by rw [hc.leaves]; exact List.mem_append_right _ List.mem_cons_self)
        omega
      · exact ⟨x, after, hc⟩

/-- In a tree without extents nothing is found. -/
theorem looksUp_of_empty (hempty : leavesOf fs (ehDepth iBlock) iBlock = []) :
    LooksUp fs iBlock blk (.error .notFound) h := by
  refine ⟨⟨fun hr => absurd hr notFound_ne_ok, fun hsome => ?_⟩,
    fun hr => absurd hr notFound_ne_ok, fun _ => rfl, fun _ hsome => ?_, fun _ hne =>
      absurd hempty hne⟩
  · obtain ⟨x, hx, -⟩ := hsome
    rw [hempty] at hx
    exact absurd hx List.not_mem_nil
  · obtain ⟨y, hy, -⟩ := hsome
    rw [hempty] at hy
    exact absurd hy List.not_mem_nil

/-- The search from the root. -/
theorem extentGoto2_stops (hnode : NodeOk fs (ehDepth iBlock) iBlock)
    (hkeys : KeysOk fs (ehDepth iBlock) iBlock 0 (2 ^ 32))
    (hextents : ExtentsOk fs (ehDepth iBlock) iBlock (2 ^ 32)) (hr : RootOf iBlock h) (blk : ℕ) :
    ∃ r h', (∃ N, ∀ n, N ≤ n → extentGoto2 fs n 0 blk h = some (r, h')) ∧
    StopsAt fs iBlock blk r h' := by
  obtain ⟨p, hmove, hp, hbuf, hidx⟩ :=
    @extentMove_root fs h (ehDepth iBlock) (by rw [hr.buf]; exact hnode)
    (by rw [hr.buf]; exact hr.entries)
  have hbuf' : p.buf = iBlock := hbuf.trans hr.buf
  have hzero : ∀ j ≤ 0, j = 0 := fun j hj => Nat.le_zero.mp hj
  have hs : Searching fs iBlock blk (h.at 0 p) 0 := by
    refine ⟨⟨rfl, hr.depth, Nat.zero_le _, fun j hj => ?_, ?_,
      fun j hj => absurd hj (Nat.not_lt_zero j)⟩, ?_, fun j hj => ?_, fun j hj =>
        absurd hj (Nat.not_lt_zero j), Or.inl fun j hj => ?_⟩
    · rw [hzero j hj, at_path_self, at_maxDepth, hr.depth]
      exact hp
    · rw [at_path_self, hbuf']
    · rw [at_path_self, at_maxDepth, hr.depth, hbuf']
      exact ⟨0, 2 ^ 32, hkeys, hextents⟩
    · rw [hzero j hj, at_path_self, leavesBefore_nil hidx]
      exact fun x hx => absurd hx List.not_mem_nil
    · rw [hzero j hj, at_path_self, hidx]
  obtain ⟨r, h', ⟨N, hN⟩, hstops⟩ := searching_stops hs (reads_at h 0 p)
  refine ⟨r, h', ⟨N, fun n hn => ?_⟩, hstops⟩
  rw [extentGoto2, hmove]
  exact Loop.run_mono hn hN

/-- The search from the root, in any tree. -/
theorem extentGoto2_looksUp (ht : ExtentTreeExact fs iBlock) (hr : RootOf iBlock h) (blk : ℕ) :
    ∃ r h', (∃ N, ∀ n, N ≤ n → extentGoto2 fs n 0 blk h = some (r, h')) ∧
    LooksUp fs iBlock blk r h' ∧
      RootOf iBlock h' := by
  rcases ht.node with hnode | ⟨hdepth, hzero⟩
  · obtain ⟨r, h', ⟨N, hN⟩, hstops⟩ := extentGoto2_stops hnode ht.keys ht.extents hr blk
    exact ⟨r, h', ⟨N, hN⟩, looksUp_of_stops hstops, hr.goto (hN N (le_refl N))⟩
  · have hroot := @extentMove_root_empty fs h (by rw [hr.entries, hzero])
    rcases hmove : extentMove fs .root h with ⟨r, h'⟩
    rw [hmove] at hroot
    have hgoto : ∀ n, 0 ≤ n → extentGoto2 fs n 0 blk h = some (.error .notFound, h') :=
      fun n _ => by
      rw [extentGoto2, hmove, show r = .error .noNext from hroot]
    refine ⟨.error .notFound, h', ⟨0, hgoto⟩, looksUp_of_empty ?_, hr.goto (hgoto 0 (le_refl 0))⟩
    rw [leavesOf_eq, hzero, List.range_zero, List.flatMap_nil]

/-- **`ext2fs_extent_goto2` is exact**, from every position of the cursor. -/
theorem goto_exact (ht : ExtentTreeExact fs iBlock) (hr : RootOf iBlock h) (blk : ℕ) :
    ∃ r h', (∃ N, ∀ n, N ≤ n → extentGoto2 fs n 0 blk h = some (r, h')) ∧
    LooksUp fs iBlock blk r h' := by
  obtain ⟨r, h', hgoto, hlooks, -⟩ := extentGoto2_looksUp ht hr blk
  exact ⟨r, h', hgoto, hlooks⟩

theorem extentTreeExact_twoExtents : ExtentTreeExact twoExtentsFs twoExtentsRoot where
  toExtentTreeOk := extentTreeOk_twoExtents
  extents := by
    have hdepth : ehDepth twoExtentsRoot = 1 := by decide
    have hchild : ehEntries (childAt twoExtentsFs twoExtentsRoot 0) = 2 := by decide
    rw [hdepth]
    intro k hk
    have hk' : k < 1 := hk
    obtain rfl : k = 0 := by omega
    refine ⟨by decide, fun j hj => ?_⟩
    rcases (by omega : j = 0 ∨ j = 1) with rfl | rfl
    · exact ⟨by decide, by decide⟩
    · exact ⟨by decide, by decide⟩

/-- A handle that has been moved to the last extent is asked for a block of the hole before it. -/
theorem goto_exact_two_extents :
    ∃ h₀ h₁ x, extentOpen twoExtentsRoot 6 = some h₀ ∧
    extentGet twoExtentsFs 4 .lastLeaf h₀ = some (.ok x, h₁) ∧
      x.lblk = 5 ∧ ∃ r h', (∃ N, ∀ n, N ≤ n → extentGoto2 twoExtentsFs n 0 3 h₁ = some (r, h')) ∧
        LooksUp twoExtentsFs twoExtentsRoot 3 r h' := by
  obtain ⟨h₀, hopen⟩ : ∃ h₀, extentOpen twoExtentsRoot 6 = some h₀ := ⟨_, rfl⟩
  obtain ⟨x, h₁, hget, hx⟩ : ∃ x h₁, extentGet twoExtentsFs 4 .lastLeaf h₀ = some (.ok x, h₁) ∧
      x.lblk = 5 := by
    rw [← Option.some.inj hopen]
    exact ⟨_, _, rfl, by decide⟩
  exact ⟨h₀, h₁, x, hopen, hget, hx,
    goto_exact extentTreeExact_twoExtents ((rootOf_open hopen).get hget) 3⟩

end GotoExact

end E2fsprogs
