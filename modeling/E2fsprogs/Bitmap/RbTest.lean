import E2fsprogs.Bitmap.RbUnmark

/-!
# Testing, clearing and copying a tree of extents

`rb_test_bit` answers from the cursors where it can: from the run it has found last, from the gap
behind that run, or from the run that was written last. It changes nothing but cursors.
-/

namespace E2fsprogs

section Testing

variable {bal : SearchTree RbExtent → List RbExtent → SearchTree RbExtent} {bp : RbPrivate}
    {bit start len : ℕ}

/-- A test answers and keeps the nodes. -/
structure Tests (bit : ℕ) (bp : RbPrivate) (r : Bool × RbPrivate) : Prop where
  ok : r.2.Ok
  nodes : r.2.nodes = bp.nodes
  answer : r.1 = true ↔ Marked bp.nodes bit

/-- Only the cursors are changed. -/
theorem RbPrivate.Ok.cursors (h : bp.Ok) {w r n : Option ℕ}
    (hc : CursorsOk (bp.nodes.map RbExtent.id) w r n) :
    RbPrivate.Ok { bp with wcursor := w, rcursor := r, rcursorNext := n } :=
  ⟨h.apart, ⟨h.addresses.nodup, h.addresses.fresh, hc⟩⟩

theorem rbSearch_spec (h : bp.Ok) : Tests bit bp (rbSearch bit bp) := by
  rw [rbSearch]
  rcases @find_within bit _ h.apart none with ⟨x, hx, hfind, hbit⟩ | ⟨hfind, hnot⟩
  · rw [hfind]
    refine ⟨h.cursors ⟨h.addresses.cursors.write, fun i hi => ?_, fun i j _ hj => by cases hj⟩, rfl,
      fun _ => ⟨x, hx, hbit⟩, fun _ => rfl⟩
    rw [← Option.some.inj hi]
    exact List.mem_map_of_mem hx
  · rw [hfind]
    exact ⟨h, rfl, nofun, fun hm => absurd hm hnot⟩

/-- Two addresses in a row are those of two nodes in a row. -/
theorem exists_pair {l : List RbExtent} {i j : ℕ} (h : [i, j] <:+: l.map RbExtent.id) :
    ∃ a x y b, l = a ++ x :: y :: b ∧ x.id = i ∧ y.id = j := by
  obtain ⟨s, t, hst⟩ := h
  rw [List.append_assoc] at hst
  obtain ⟨a, rest, rfl, -, hrest⟩ := List.map_eq_append_iff.mp hst.symm
  obtain ⟨x, rest', rfl, hx, hrest'⟩ := List.map_eq_cons_iff.mp hrest
  obtain ⟨y, b, rfl, hy, -⟩ := List.map_eq_cons_iff.mp hrest'
  exact ⟨a, x, y, b, rfl, hx, hy⟩

/-- **The second read cursor**, where it is set, is what `ext2fs_rb_next` gives. -/
theorem readNext_eq (h : bp.Ok) {x : RbExtent} {i : ℕ} (hr : bp.rcursor = some i)
    (hx : bp.node i = some x) :
    rbReadNext bp x = (bp.behind x.id).head? := by
  rw [rbReadNext]
  cases hn : bp.rcursorNext with
  | none => rfl
  | some j =>
    obtain ⟨a, x', y, b, hnodes, hxi, hyj⟩ := exists_pair (h.addresses.cursors.next i j hr hn)
    have hnodes' : bp.nodes = (a ++ [x']) ++ y :: b := by rw [hnodes, List.append_assoc]; rfl
    have hxx : x = x' := by
      have := h.addresses.node_eq hnodes
      rw [hxi, hx] at this
      exact Option.some.inj this
    rw [Option.bind_some, ← hyj, h.addresses.node_eq hnodes', hxx, h.addresses.behind_eq hnodes]
    rfl

theorem rbTestWrite_spec (h : bp.Ok) : Tests bit bp (rbTestWrite bit bp) := by
  rw [rbTestWrite]
  cases hwrite : bp.wcursor.bind bp.node with
  | none => exact rbSearch_spec h
  | some w =>
    obtain ⟨j, -, hw⟩ := Option.bind_eq_some_iff.mp hwrite
    dsimp only
    split_ifs with hwin
    · exact ⟨h, rfl, fun _ => ⟨w, (node_some hw).1, hwin⟩, fun _ => rfl⟩
    · exact rbSearch_spec h

/-- **`rb_test_bit`** answers for the bit. -/
theorem rbTestBit_spec (h : bp.Ok) : Tests bit bp (rbTestBit bit bp) := by
  rw [rbTestBit]
  cases hread : bp.rcursor.bind bp.node with
  | none => exact rbSearch_spec h
  | some x =>
    obtain ⟨i, hr, hnode⟩ := Option.bind_eq_some_iff.mp hread
    obtain ⟨hx, hxi⟩ := node_some hnode
    dsimp only
    split_ifs with hin hgap
    · exact ⟨h, rfl, fun _ => ⟨x, hx, hin⟩, fun _ => rfl⟩
    · -- the bit lies between the run and the next one
      obtain ⟨a, b, hnodes⟩ := exists_middle hx
      have hapart := h.apart
      rw [hnodes] at hapart
      obtain ⟨-, -, -, hax, -, -⟩ := Apart.middle_iff.mp hapart
      rw [readNext_eq h hr hnode, h.addresses.behind_eq hnodes] at hgap ⊢
      cases b with
      | nil => simp at hgap
      | cons y b =>
        have hgap' : x.stop ≤ bit ∧ bit < y.start := by simpa using hgap
        have hyb := (Apart.cons_iff.mp (Apart.middle_iff.mp hapart).2.1).2.1
        have hypos := (Apart.cons_iff.mp (Apart.middle_iff.mp hapart).2.1).1
        have hystop := RbExtent.start_lt_stop hypos
        have hxpos := (Apart.middle_iff.mp hapart).2.2.1
        have hxstop := RbExtent.start_lt_stop hxpos
        refine ⟨h.cursors ⟨h.addresses.cursors.write, h.addresses.cursors.read,
          fun i' j hi' hj => ?_⟩, rfl, nofun, fun hm => ?_⟩
        · rw [hr] at hi'
          rw [← Option.some.inj hi', ← Option.some.inj hj, ← hxi, hnodes]
          exact ⟨a.map RbExtent.id, b.map RbExtent.id, by simp⟩
        · rw [hnodes, marked_middle, marked_cons] at hm
          rcases hm with hm | hm | hm | hm
          · exact absurd hm (not_marked_of_gt fun z hz => by have := hax z hz; omega)
          · omega
          · omega
          · exact absurd hm (not_marked_of_lt fun z hz => by have := hyb z hz; omega)
    · -- the cursor is no help
      have h₂ : RbPrivate.Ok { bp with rcursor := none, rcursorNext := none } :=
        h.cursors ⟨h.addresses.cursors.write, nofun, nofun⟩
      have htest := @rbTestWrite_spec _ bit h₂
      exact ⟨htest.ok, htest.nodes, htest.answer⟩

/-! ### Ranges -/

/-- The loop over the nodes from the end of the search on. -/
theorem rbClearFrom_spec {l : List RbExtent} (hl : Apart l) (hnot : ¬Marked l start) :
    rbClearFrom start len l = true ↔ ∀ bit, start ≤ bit → bit < start + len → ¬Marked l bit := by
  induction l with
  | nil => exact ⟨fun _ _ _ _ => marked_nil, fun _ => rfl⟩
  | cons x l ih =>
    obtain ⟨hx, hxl, hl'⟩ := Apart.cons_iff.mp hl
    have hxstop := RbExtent.start_lt_stop hx
    rw [marked_cons, not_or] at hnot
    rw [rbClearFrom]
    split_ifs with hbefore
    · rw [ih hl' hnot.2]
      refine forall_congr' fun bit => imp_congr_right fun hle => imp_congr_right fun _ => ?_
      rw [marked_cons, not_or]
      exact ⟨fun h => ⟨by omega, h⟩, And.right⟩
    · rw [decide_eq_true_iff]
      constructor
      · rintro hfar bit - hlt hm
        rcases marked_cons.mp hm with hm | hm
        · omega
        · exact absurd hm (not_marked_of_lt fun y hy => by have := hxl y hy; omega)
      · intro hall
        by_contra hlt
        exact hall x.start (by omega) (by omega) (marked_cons.mpr (Or.inl ⟨le_refl _, hxstop⟩))

/-- **`rb_test_clear_bmap_extent`** tells whether no bit of the range is set. -/
theorem rbTestClear_spec (h : bp.Ok) :
    rbTestClear start len bp = true ↔ ∀ bit, start ≤ bit → bit < start + len →
    ¬Marked bp.nodes bit := by
  rw [rbTestClear]
  split_ifs with hlen
  · exact ⟨fun _ bit h1 h2 => by omega, fun _ => rfl⟩
  · rcases hfind : bp.tree.find (cmpWithin start) none with ⟨found, parent⟩
    cases found with
    | some x =>
      have hsome : (bp.tree.find (cmpWithin start) none).1 = some x := by rw [hfind]
      obtain ⟨hx, hc⟩ := SearchTree.find_found hsome
      refine ⟨nofun, fun hall => absurd ⟨x, hx, cmpWithin_eq.mp hc⟩
        (hall start (le_refl _) (by omega))⟩
    | none =>
      have hnone : (bp.tree.find (cmpWithin start) none).1 = none := by rw [hfind]
      have hpar : (bp.tree.find (cmpWithin start) none).2 = parent := by rw [hfind]
      have hnot : ¬Marked bp.nodes start := by
        rintro ⟨x, hx, hbit⟩
        rw [SearchTree.find_of_mem (h.apart.sorted_within start) hx (cmpWithin_eq.mpr hbit)]
          at hnone
        cases hnone
      rcases SearchTree.find_gap (h.apart.sorted_within start) hnone with ⟨hnil, hq⟩ |
        ⟨q, a, b, hq, hin, -, ha, -⟩
      · have hnodes : bp.nodes = [] := hnil
        rw [← hpar, hq, hnodes]
        exact ⟨fun _ _ _ _ => marked_nil, fun _ => rfl⟩
      · have hnodes : bp.nodes = a ++ q :: b := hin
        have hapart := h.apart
        rw [hnodes] at hapart hnot
        obtain ⟨haa, hqb, -⟩ := Apart.append_iff.mp hapart
        rw [← hpar, hq]
        dsimp only
        rw [h.addresses.onward_eq hnodes,
          rbClearFrom_spec hqb fun hm => hnot (marked_append.mpr (Or.inr hm)), hnodes]
        refine forall_congr' fun bit => imp_congr_right fun hle => imp_congr_right fun _ => ?_
        rw [marked_append, not_or, and_iff_right]
        exact not_marked_of_gt fun y hy => ((cmpWithin_gt (haa.pos y hy)).mp (ha y hy)).trans hle

/-! ### Clearing and copying -/

theorem rbClear_spec : (rbClear bp).Ok ∧ ∀ bit, ¬Marked (rbClear bp).nodes bit :=
  ⟨⟨apart_nil, ⟨List.nodup_nil, nofun, ⟨nofun, nofun, nofun⟩⟩⟩, fun _ => marked_nil⟩

/-- The runs of a list of nodes. -/
def runsOf (l : List RbExtent) : List (ℕ × ℕ) := l.map fun x => (x.start, x.count)

/-- Whether the runs lie apart, and which bits they hold, does not depend on the addresses. -/
theorem Apart.of_runs {l l' : List RbExtent} (h : Apart l) (hruns : runsOf l' = runsOf l) :
    Apart l' := by
  have hsep : (runsOf l).Pairwise fun x y => x.1 + x.2 < y.1 := List.pairwise_map.mpr h.sep
  refine ⟨fun x hx => ?_, ?_⟩
  · have : (x.start, x.count) ∈ runsOf l := hruns ▸ List.mem_map_of_mem hx
    obtain ⟨y, hy, heq⟩ := List.mem_map.mp this
    rw [← (Prod.mk.inj heq).2]
    exact h.pos y hy
  · rw [← hruns] at hsep
    exact List.pairwise_map.mp hsep

theorem marked_of_runs {l l' : List RbExtent} (hruns : runsOf l' = runsOf l) :
    Marked l' bit ↔ Marked l bit := by
  have key : ∀ m : List RbExtent, Marked m bit ↔ ∃ r ∈ runsOf m, r.1 ≤ bit ∧ bit < r.1 + r.2 := by
    intro m
    constructor
    · rintro ⟨x, hx, hbit⟩
      exact ⟨_, List.mem_map_of_mem hx, hbit⟩
    · rintro ⟨r, hr, hbit⟩
      obtain ⟨x, hx, rfl⟩ := List.mem_map.mp hr
      exact ⟨x, hx, hbit⟩
  rw [key, key, hruns]

/-- The loop that copies the nodes. -/
theorem rbCopyNodes_spec (hbal : ∀ t l, (bal t l).inorder = l) {l : List RbExtent}
    (h : Addresses bp) (hw : bp.wcursor = none) (hr : bp.rcursor = none) :
    Addresses (rbCopyNodes bal l bp) ∧
    runsOf (rbCopyNodes bal l bp).nodes = runsOf bp.nodes ++ runsOf l := by
  induction l generalizing bp with
  | nil => exact ⟨h, (List.append_nil _).symm⟩
  | cons x l ih =>
    obtain ⟨bp₁, hbp₁⟩ : ∃ bp₁ : RbPrivate, bp₁ = { bp with
      tree := bal bp.tree (bp.nodes ++ [⟨bp.fresh, x.start, x.count⟩]), fresh := bp.fresh + 1 } :=
        ⟨_, rfl⟩
    have hnodes : bp₁.nodes = bp.nodes ++ [⟨bp.fresh, x.start, x.count⟩] := by
      rw [hbp₁]
      exact hbal _ _
    have h₁ : Addresses bp₁ := by
      refine ⟨?_, fun y hy => ?_, ⟨?_, ?_, fun i j hi => ?_⟩⟩
      · rw [hnodes, List.map_append, List.nodup_append]
        refine ⟨h.nodup, List.nodup_singleton _, fun i hi j hj => ?_⟩
        obtain ⟨y, hy, rfl⟩ := List.mem_map.mp hi
        have hlt := h.fresh y hy
        have hj' : j = bp.fresh := by simpa using hj
        omega
      · rw [hnodes] at hy
        have hfresh : bp₁.fresh = bp.fresh + 1 := by rw [hbp₁]
        rcases List.mem_append.mp hy with hy | hy
        · have := h.fresh y hy
          omega
        · rw [List.mem_singleton.mp hy, hfresh]
          exact Nat.lt_succ_self _
      · rw [hbp₁]
        exact fun i hi => by rw [hw] at hi; cases hi
      · rw [hbp₁]
        exact fun i hi => by rw [hr] at hi; cases hi
      · rw [hbp₁] at hi
        rw [hr] at hi
        cases hi
    rw [rbCopyNodes, ← hbp₁]
    obtain ⟨hok, hruns⟩ := ih h₁ (by rw [hbp₁]; exact hw) (by rw [hbp₁]; exact hr)
    refine ⟨hok, ?_⟩
    rw [hruns, hnodes, runsOf, runsOf, runsOf, runsOf, List.map_append, List.append_assoc]
    rfl

/-- **`rb_copy_bmap`**: the source and the copy hold the bits of the source. -/
theorem rbCopy_spec (hbal : ∀ t l, (bal t l).inorder = l) (h : bp.Ok) :
    ((rbCopy bal bp).1.Ok ∧ (rbCopy bal bp).1.nodes = bp.nodes) ∧ (rbCopy bal bp).2.Ok ∧
      ∀ bit, Marked (rbCopy bal bp).2.nodes bit ↔ Marked bp.nodes bit := by
  refine ⟨⟨h.cursors ⟨h.addresses.cursors.write, nofun, nofun⟩, rfl⟩, ?_⟩
  obtain ⟨haddr, hruns⟩ :=
    @rbCopyNodes_spec bal RbPrivate.empty hbal bp.nodes RbPrivate.empty_ok.addresses rfl rfl
  have hruns' : runsOf (rbCopy bal bp).2.nodes = runsOf bp.nodes := hruns
  exact ⟨⟨h.apart.of_runs hruns', haddr⟩, fun bit => marked_of_runs hruns'⟩

end Testing

end E2fsprogs
