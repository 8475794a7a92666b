import E2fsprogs.Bitmap.RbNodes

/-!
# Marking in a tree of extents

`rb_insert_extent` lengthens the run that the new one touches, or links a new node, and then takes
in the runs to the right that it reaches. The bits of the range are set and no others are changed,
and the value that is returned says whether the first of them was set before.
-/

namespace E2fsprogs

section Marking

variable {bal : SearchTree RbExtent → List RbExtent → SearchTree RbExtent} {bp : RbPrivate}
  {a b : List RbExtent} {x : RbExtent} {start count : ℕ}

/-- What is left after merging: the run reaches no further node, and no bit is lost or added. -/
structure Merged (start count : ℕ) (a b : List RbExtent) (r : ℕ × RbPrivate)
    (rest : List RbExtent) : Prop where
  nodes : r.2.nodes = a ++ rest
  suffix : rest <:+ b
  le : count ≤ r.1
  apart : ∀ y ∈ rest, start + r.1 < y.start
  marked : ∀ bit, ((start ≤ bit ∧ bit < start + count) ∨ Marked b bit) ↔
    ((start ≤ bit ∧ bit < start + r.1) ∨ Marked rest bit)
  addresses : Addresses r.2

/-- **Merging to the right.** -/
theorem rbMerge_spec (hbal : ∀ t l, (bal t l).inorder = l) (h : Addresses bp)
    (hnodes : bp.nodes = a ++ b) (hb : Apart b) (hstart : ∀ y ∈ b, start < y.start) :
    ∃ rest, Merged start count a b (rbMerge bal start b count bp) rest := by
  induction b generalizing count bp with
  | nil => exact ⟨[], ⟨hnodes, List.suffix_refl _, le_refl _, nofun, fun bit => Iff.rfl, h⟩⟩
  | cons x b ih =>
    obtain ⟨hx, hxb, hb'⟩ := Apart.cons_iff.mp hb
    have hxstart := hstart x (List.mem_cons_self ..)
    have hxstop := RbExtent.start_lt_stop hx
    have hmarked : ∀ bit, Marked (x :: b) bit ↔ (x.start ≤ bit ∧ bit < x.stop) ∨ Marked b bit :=
      fun bit => marked_cons
    rw [rbMerge, if_neg (by omega)]
    split_ifs with hfar hin
    · -- the run does not reach this node
      refine ⟨x :: b, ⟨hnodes, List.suffix_refl _, le_refl _, fun y hy => ?_,
        fun bit => Iff.rfl, h⟩⟩
      rcases List.mem_cons.mp hy with rfl | hy
      · exact hfar
      · have := hxb y hy
        show start + count < y.start
        omega
    · -- the node lies inside the run
      have herase := h.erase hbal hnodes
      obtain ⟨rest, hm⟩ := ih herase (nodes_erase hbal h hnodes) hb' fun y hy =>
        hstart y (List.mem_cons_of_mem _ hy)
      refine ⟨rest, hm.nodes, hm.suffix.trans (List.suffix_cons x b), hm.le, hm.apart,
        fun bit => ?_, hm.addresses⟩
      rw [← hm.marked bit, hmarked]
      constructor
      · rintro (hbit | hbit | hbit)
        · exact Or.inl hbit
        · exact Or.inl ⟨by omega, by omega⟩
        · exact Or.inr hbit
      · rintro (hbit | hbit)
        · exact Or.inl hbit
        · exact Or.inr (Or.inr hbit)
    · -- the node begins inside the run and ends behind it
      refine ⟨b, nodes_erase hbal h hnodes, List.suffix_cons x b, Nat.le_add_right _ _,
        fun y hy => ?_, fun bit => ?_, h.erase hbal hnodes⟩
      · have := hxb y hy
        show start + (count + (x.stop - (start + count))) < y.start
        omega
      · rw [hmarked]
        constructor
        · rintro (hbit | hbit | hbit)
          · exact Or.inl ⟨hbit.1, by dsimp only; omega⟩
          · exact Or.inl ⟨by omega, by dsimp only; omega⟩
          · exact Or.inr hbit
        · rintro (hbit | hbit)
          · dsimp only at hbit
            by_cases hlt : bit < start + count
            · exact Or.inl ⟨hbit.1, hlt⟩
            · exact Or.inr (Or.inl ⟨by omega, by omega⟩)
          · exact Or.inr (Or.inr hbit)

/-- What marking a range is to do. -/
structure Marks (start count : ℕ) (bp : RbPrivate) (r : Bool × RbPrivate) : Prop where
  ok : r.2.Ok
  marked : ∀ bit, Marked r.2.nodes bit ↔ Marked bp.nodes bit ∨ (start ≤ bit ∧ bit < start + count)
  was : 0 < count → (r.1 = true ↔ Marked bp.nodes start)

/-- A run takes in what it reaches to its right. -/
theorem ok_of_merged {r : ℕ × RbPrivate} {rest : List RbExtent} {y : RbExtent}
    (hm : Merged x.start count (a ++ [y]) b r rest)
    (hid : y.id = x.id) (hpos : 0 < count) (ha : Apart a) (hb : Apart b)
    (hax : ∀ z ∈ a, z.stop < x.start) (hab : ∀ z ∈ a, ∀ w ∈ b, z.stop < w.start) :
    (r.2.setExtent x.id x.start r.1).nodes = a ++ ⟨x.id, x.start, r.1⟩ :: rest ∧
    (r.2.setExtent x.id x.start r.1).Ok := by
  have hnodes : r.2.nodes = a ++ y :: rest := by
    rw [hm.nodes, List.append_assoc]
    rfl
  have hset := nodes_setExtent hm.addresses hnodes x.start r.1
  have haddr := hm.addresses.setExtent hnodes x.start r.1
  rw [hid] at hset haddr
  have hrest : Apart rest := by
    obtain ⟨pre, hpre⟩ := hm.suffix
    rw [← hpre] at hb
    exact (Apart.append_iff.mp hb).2.1
  refine ⟨hset, ⟨?_, haddr⟩⟩
  rw [hset, Apart.middle_iff]
  exact ⟨ha, hrest, lt_of_lt_of_le hpos hm.le, hax, hm.apart,
    fun z hz w hw => hab z hz w (hm.suffix.subset hw)⟩

/-- **The run that is touched grows.** -/
theorem rbGrow_spec (hbal : ∀ t l, (bal t l).inorder = l) (h : bp.Ok) (hx : x ∈ bp.nodes)
    (hpos : 0 < count) (hlo : x.start ≤ start) (hhi : start ≤ x.stop) :
    Marks start count bp (rbGrow bal start count x bp) := by
  obtain ⟨a, b, hnodes⟩ := exists_middle hx
  have hapart := h.apart
  rw [hnodes] at hapart
  obtain ⟨ha, hb, hxpos, hax, hxb, hab⟩ := Apart.middle_iff.mp hapart
  have hxstop := RbExtent.start_lt_stop hxpos
  have hbefore : ∀ bit, Marked bp.nodes bit ↔ Marked a bit ∨ (x.start ≤ bit ∧ bit < x.stop) ∨
      Marked b bit :=
    fun bit => by rw [hnodes, marked_middle]
  have hwas : Marked bp.nodes start ↔ start < x.stop := by
    rw [hbefore]
    constructor
    · rintro (hbit | hbit | hbit)
      · exact absurd hbit (not_marked_of_gt fun y hy => by have := hax y hy; omega)
      · exact hbit.2
      · exact absurd hbit (not_marked_of_lt fun y hy => by have := hxb y hy; omega)
    · exact fun hlt => Or.inr (Or.inl ⟨hlo, hlt⟩)
  rw [rbGrow]
  -- the range is inside the run, or it reaches past its end and takes in what it meets
  split_ifs with hin
  · refine ⟨h, fun bit => ?_, fun _ => ?_⟩
    · rw [hbefore]
      constructor
      · exact Or.inl
      · rintro (hbit | hbit)
        · exact hbit
        · exact Or.inr (Or.inl ⟨by omega, by omega⟩)
    · rw [hwas]
      exact ⟨fun _ => by omega, fun _ => rfl⟩
  · rw [h.addresses.behind_eq hnodes]
    have hnodes' : bp.nodes = (a ++ [x]) ++ b := by rw [hnodes, List.append_assoc]; rfl
    obtain ⟨rest, hm⟩ :=
      @rbMerge_spec bal bp _ b x.start (count + (start - x.start)) hbal h.addresses hnodes' hb
      fun y hy => by have := hxb y hy; omega
    obtain ⟨hset, hok⟩ := ok_of_merged hm rfl (by omega) ha hb hax hab
    refine ⟨hok, fun bit => ?_, fun _ => ?_⟩
    · show Marked (RbPrivate.setExtent _ _ _ _).nodes bit ↔ _
      rw [hset, hbefore, marked_middle]
      have hbit := hm.marked bit
      show _ ∨ (x.start ≤ bit ∧ bit < x.start + _) ∨ _ ↔ _
      rw [← hbit]
      constructor
      · rintro (hm | ⟨h1, h2⟩ | hm)
        · exact Or.inl (Or.inl hm)
        · by_cases hlt : bit < x.stop
          · exact Or.inl (Or.inr (Or.inl ⟨h1, hlt⟩))
          · exact Or.inr ⟨by omega, by omega⟩
        · exact Or.inl (Or.inr (Or.inr hm))
      · rintro ((hm | ⟨h1, h2⟩ | hm) | ⟨h1, h2⟩)
        · exact Or.inl hm
        · exact Or.inr (Or.inl ⟨h1, by omega⟩)
        · exact Or.inr (Or.inr hm)
        · exact Or.inr (Or.inl ⟨by omega, by omega⟩)
    · rw [hwas]
      show decide (x.stop ≠ start) = true ↔ _
      rw [decide_eq_true_iff]
      omega

/-- **A new run.** -/
theorem rbAdd_spec (hbal : ∀ t l, (bal t l).inorder = l) (h : bp.Ok) (hnext : bp.rcursorNext = none)
    (hpos : 0 < count) (hfar : ∀ x ∈ bp.nodes, ¬(x.start ≤ start ∧ start ≤ x.stop)) :
    (rbAdd bal start count bp).Ok ∧ ∀ bit, Marked (rbAdd bal start count bp).nodes bit ↔
      Marked bp.nodes bit ∨ (start ≤ bit ∧ bit < start + count) := by
  obtain ⟨new, hnew⟩ : ∃ new : RbExtent, new = ⟨bp.fresh, start, count⟩ := ⟨_, rfl⟩
  obtain ⟨a, b, hin, hlink, ha', hb'⟩ := SearchTree.link_gap (h.apart.sorted_touch start)
    (fun x hx hc => hfar x hx (cmpTouch_eq.mp hc)) new
  have hapart := h.apart
  have hnodes : bp.nodes = a ++ b := hin
  rw [hnodes] at hapart
  obtain ⟨ha, hb, hab⟩ := Apart.append_iff.mp hapart
  have hax : ∀ x ∈ a, x.stop < start := fun x hx => (cmpTouch_gt.mp (ha' x hx)).2
  have hxb : ∀ x ∈ b, start < x.start := fun x hx => cmpTouch_lt.mp (hb' x hx)
  -- the state with the new node in its place
  obtain ⟨bp₁, hbp₁⟩ : ∃ bp₁ : RbPrivate, bp₁ = { bp with
    tree := bal bp.tree (bp.tree.link (cmpTouch start) new).inorder,
    wcursor := some bp.fresh, fresh := bp.fresh + 1 } :=
    ⟨_, rfl⟩
  have hnodes₁ : bp₁.nodes = a ++ new :: b := by
    rw [hbp₁]
    show (bal _ _).inorder = _
    rw [hbal, hlink]
  have hold : ∀ y ∈ bp.nodes, y.id ≠ new.id := fun y hy => by
    have := h.addresses.fresh y hy
    rw [hnew]
    dsimp only
    omega
  have hids : ∀ i, i ∈ bp.nodes.map RbExtent.id → i ∈ bp₁.nodes.map RbExtent.id := by
    intro i hi
    rw [hnodes, List.map_append] at hi
    rw [hnodes₁, List.map_append, List.map_cons]
    rcases List.mem_append.mp hi with hi | hi
    · exact List.mem_append_left _ hi
    · exact List.mem_append_right _ (List.mem_cons_of_mem _ hi)
  have haddr₁ : Addresses bp₁ := by
    refine ⟨?_, fun y hy => ?_,
      ⟨fun i hi => ?_, fun i hi => hids i (h.addresses.cursors.read i (by rwa [hbp₁] at hi)),
        fun i j _ hj => ?_⟩⟩
    · rw [hnodes₁, List.map_append, List.map_cons, List.nodup_middle, List.nodup_cons,
        ← List.map_append, ← hnodes]
      refine ⟨fun hmem => ?_, h.addresses.nodup⟩
      obtain ⟨y, hy, hyid⟩ := List.mem_map.mp hmem
      exact hold y hy hyid
    · rw [hnodes₁] at hy
      have hfresh : bp₁.fresh = bp.fresh + 1 := by rw [hbp₁]
      rw [hfresh]
      rcases List.mem_append.mp hy with hy | hy
      · have := h.addresses.fresh y (by rw [hnodes]; exact List.mem_append_left _ hy)
        omega
      · rcases List.mem_cons.mp hy with rfl | hy
        · rw [hnew]
          exact Nat.lt_succ_self _
        · have := h.addresses.fresh y (by rw [hnodes]; exact List.mem_append_right _ hy)
          omega
    · have hi' : i = new.id := by
        rw [hbp₁] at hi
        rw [hnew]
        exact (Option.some.inj hi).symm
      rw [hi', hnodes₁, List.map_append, List.map_cons]
      exact List.mem_append_right _ (List.mem_cons_self ..)
    · rw [hbp₁] at hj
      rw [hnext] at hj
      cases hj
  have hid : new.id = bp.fresh := by rw [hnew]
  -- the node before is too far away to be merged
  have hleft : rbMergeLeft bal new.id start count bp₁ = (start, count, bp₁) := by
    rw [rbMergeLeft, haddr₁.prev_eq hnodes₁]
    cases hlast : a.getLast? with
    | none => rfl
    | some ext =>
      have := hax ext (List.mem_of_getLast? hlast)
      dsimp only
      rw [if_neg (by omega)]
  have hadd : rbAdd bal start count bp = (rbMerge bal start b count bp₁).2.setExtent new.id start
      (rbMerge bal start b count bp₁).1 := by
    rw [rbAdd, ← hnew, ← hbp₁, ← hid, hleft]
    dsimp only
    rw [haddr₁.behind_eq hnodes₁]
  have hnodes₁' : bp₁.nodes = (a ++ [new]) ++ b := by rw [hnodes₁, List.append_assoc]; rfl
  have hstart : new.start = start := by rw [hnew]
  obtain ⟨rest, hm⟩ := @rbMerge_spec bal bp₁ _ b start count hbal haddr₁ hnodes₁' hb hxb
  rw [← hstart] at hm
  obtain ⟨hset, hok⟩ := ok_of_merged hm rfl hpos ha hb (by rw [hstart]; exact hax) hab
  rw [hstart] at hset hok hm
  rw [hadd]
  refine ⟨hok, fun bit => ?_⟩
  have hbit := hm.marked bit
  rw [hset, hnodes, marked_append, marked_append, marked_cons]
  show _ ∨ (start ≤ bit ∧ bit < start + _) ∨ _ ↔ _
  rw [← hbit]
  tauto

/-- **`rb_insert_extent`** sets the bits of the range. -/
theorem rbInsertExtent_spec (hbal : ∀ t l, (bal t l).inorder = l) (h : bp.Ok) :
    Marks start count bp (rbInsertExtent bal start count bp) := by
  rw [rbInsertExtent]
  split_ifs with hzero
  · refine ⟨h, fun bit => ?_, fun hpos => absurd hzero (by omega)⟩
    constructor
    · exact Or.inl
    · rintro (hbit | hbit)
      · exact hbit
      · omega
  · obtain ⟨bp₁, hbp₁⟩ : ∃ bp₁ : RbPrivate, bp₁ = { bp with rcursorNext := none } := ⟨_, rfl⟩
    have hnodes₁ : bp₁.nodes = bp.nodes := by rw [hbp₁]; rfl
    have hnext₁ : bp₁.rcursorNext = none := by rw [hbp₁]
    have h₁ : bp₁.Ok := by
      refine ⟨hnodes₁ ▸ h.apart, ⟨hnodes₁ ▸ h.addresses.nodup, fun x hx => ?_, ?_⟩⟩
      · have hx' := h.addresses.fresh x (hnodes₁ ▸ hx)
        rw [hbp₁]
        exact hx'
      · rw [hnodes₁, hnext₁]
        refine ⟨?_, ?_, fun i j _ hj => by cases hj⟩
        · rw [hbp₁]
          exact h.addresses.cursors.write
        · rw [hbp₁]
          exact h.addresses.cursors.read
    have hback : ∀ r, Marks start count bp₁ r → Marks start count bp r := fun r hr =>
      ⟨hr.ok, hnodes₁ ▸ hr.marked, hnodes₁ ▸ hr.was⟩
    have hpos : 0 < count := Nat.pos_of_ne_zero hzero
    rw [← hbp₁]
    refine hback _ ?_
    dsimp only
    cases hhit : rbWriteHit start bp₁ with
    | some ext =>
      -- the run is added to the node of the write cursor
      obtain ⟨hbind, hin⟩ := Option.filter_eq_some_iff.mp hhit
      obtain ⟨i, -, hi⟩ := Option.bind_eq_some_iff.mp hbind
      have hin' : ext.start ≤ start ∧ start ≤ ext.stop := by simpa using hin
      exact rbGrow_spec hbal h₁ (node_some hi).1 hpos hin'.1 hin'.2
    | none =>
      cases hfind : (bp₁.tree.find (cmpTouch start) none).1 with
      | some ext =>
        obtain ⟨hext, hc⟩ := SearchTree.find_found hfind
        have hin := cmpTouch_eq.mp hc
        exact rbGrow_spec hbal h₁ hext hpos hin.1 hin.2
      | none =>
        have hfar : ∀ x ∈ bp₁.nodes, ¬(x.start ≤ start ∧ start ≤ x.stop) := by
          intro x hx hin
          rw [SearchTree.find_of_mem (h₁.apart.sorted_touch start) hx (cmpTouch_eq.mpr hin)]
            at hfind
          cases hfind
        obtain ⟨hok, hmarked⟩ := rbAdd_spec hbal h₁ hnext₁ hpos hfar
        refine ⟨hok, hmarked, fun _ => ⟨nofun, fun hwas => ?_⟩⟩
        obtain ⟨x, hx, hbit⟩ := hwas
        exact absurd ⟨hbit.1, hbit.2.le⟩ (hfar x hx)

end Marking

end E2fsprogs
