import E2fsprogs.Bitmap.RbMark

/-!
# Unmarking in a tree of extents

`rb_remove_extent` clears the bits of the range and no others. What it returns is more than whether
one of them was set: a run that begins right behind the range counts, because the loop over the
nodes to the right only stops at a node that begins further on, and then takes nothing away from
this one.
-/

namespace E2fsprogs

section Unmarking

variable {bal : SearchTree RbExtent → List RbExtent → SearchTree RbExtent} {bp : RbPrivate}
  {a b : List RbExtent} {x : RbExtent} {start count : ℕ}

/-- A run reaches into the range, or begins right behind it. -/
def Touched (start count : ℕ) (l : List RbExtent) : Prop :=
  ∃ x ∈ l, start < x.stop ∧ x.start ≤ start + count

theorem touched_cons : Touched start count (x :: b) ↔
    (start < x.stop ∧ x.start ≤ start + count) ∨ Touched start count b := by
  rw [Touched, List.exists_mem_cons_iff]
  rfl

/-- What cutting leaves of the nodes from one on. -/
structure CutTo (start count : ℕ) (retval : Bool) (a b : List RbExtent) (r : Bool × RbPrivate)
    (rest : List RbExtent) :
    Prop where
  nodes : r.2.nodes = a ++ rest
  apart : Apart rest
  behind : ∀ lo, (∀ y ∈ b, lo < y.start) → ∀ y ∈ rest, lo < y.start
  marked : ∀ bit, Marked rest bit ↔ Marked b bit ∧ ¬(start ≤ bit ∧ bit < start + count)
  was : r.1 = true ↔ retval = true ∨ Touched start count b
  addresses : Addresses r.2

/-- **Cutting to the right.** -/
theorem rbCut_spec {retval : Bool} (hbal : ∀ t l, (bal t l).inorder = l) (h : Addresses bp)
    (hnodes : bp.nodes = a ++ b)
    (hb : Apart b) (hstart : ∀ y ∈ b, y.stop ≤ start ∨ start ≤ y.start) :
    ∃ rest, CutTo start count retval a b (rbCut bal start count b retval bp) rest := by
  induction b generalizing a retval bp with
  | nil =>
    refine ⟨[], hnodes, apart_nil, fun _ _ => nofun, fun bit => ?_, ?_, h⟩
    · exact ⟨fun hm => absurd hm marked_nil, fun hm => absurd hm.1 marked_nil⟩
    · exact ⟨Or.inl, fun hr => hr.resolve_right fun ⟨_, hx, _⟩ => List.not_mem_nil hx⟩
  | cons x b ih =>
    obtain ⟨hx, hxb, hb'⟩ := Apart.cons_iff.mp hb
    have hxstop := RbExtent.start_lt_stop hx
    have hstart' : ∀ y ∈ b, y.stop ≤ start ∨ start ≤ y.start :=
      fun y hy => hstart y (List.mem_cons_of_mem _ hy)
    have hmarked : ∀ bit, Marked (x :: b) bit ↔ (x.start ≤ bit ∧ bit < x.stop) ∨ Marked b bit :=
      fun bit => marked_cons
    rw [rbCut]
    split_ifs with hbefore hfar hin
    · -- the node ends before the range
      have hnodes' : bp.nodes = (a ++ [x]) ++ b := by rw [hnodes, List.append_assoc]; rfl
      obtain ⟨rest, hc⟩ := @ih bp (a ++ [x]) retval h hnodes' hb' hstart'
      have hlo := hc.behind x.stop hxb
      refine ⟨x :: rest, ?_, Apart.cons_iff.mpr ⟨hx, hlo, hc.apart⟩, fun lo hall y hy => ?_,
        fun bit => ?_, ?_, hc.addresses⟩
      · rw [hc.nodes, List.append_assoc]
        rfl
      · rcases List.mem_cons.mp hy with rfl | hy
        · exact hall y (List.mem_cons_self ..)
        · exact hc.behind lo (fun z hz => hall z (List.mem_cons_of_mem _ hz)) y hy
      · rw [marked_cons, hmarked, hc.marked]
        constructor
        · rintro (hbit | hbit)
          · exact ⟨Or.inl hbit, by omega⟩
          · exact ⟨Or.inr hbit.1, hbit.2⟩
        · rintro ⟨hbit | hbit, hout⟩
          · exact Or.inl hbit
          · exact Or.inr ⟨hbit, hout⟩
      · rw [hc.was, touched_cons]
        constructor
        · exact fun hr => hr.imp_right Or.inr
        · exact fun hr => hr.imp_right fun ht => ht.resolve_left fun hbad => by omega
    · -- the node begins behind the range, and further on
      refine ⟨x :: b, hnodes, hb, fun _ => id, fun bit => ?_, ?_, h⟩
      · refine ⟨fun hm => ⟨hm, fun hbit => ?_⟩, And.left⟩
        refine absurd hm (not_marked_of_lt fun y hy => ?_)
        rcases List.mem_cons.mp hy with rfl | hy
        · omega
        · have := hxb y hy
          omega
      · refine ⟨Or.inl, fun hr => hr.resolve_right fun ⟨y, hy, hbad⟩ => ?_⟩
        rcases List.mem_cons.mp hy with rfl | hy
        · omega
        · have := hxb y hy
          omega
    · -- the node lies inside the range
      obtain ⟨rest, hc⟩ :=
        @ih _ a true (h.erase hbal hnodes) (nodes_erase hbal h hnodes) hb' hstart'
      refine ⟨rest, hc.nodes, hc.apart, fun lo hall => hc.behind lo fun y hy =>
        hall y (List.mem_cons_of_mem _ hy), fun bit => ?_, ?_, hc.addresses⟩
      · rw [hc.marked, hmarked]
        constructor
        · exact fun hbit => ⟨Or.inr hbit.1, hbit.2⟩
        · rintro ⟨hbit | hbit, hout⟩
          · have := (hstart x (List.mem_cons_self ..)).resolve_left hbefore
            omega
          · exact ⟨hbit, hout⟩
      · rw [hc.was, touched_cons]
        exact ⟨fun _ => Or.inr (Or.inl ⟨by omega, by omega⟩), fun _ => Or.inl rfl⟩
    · -- the node begins inside the range, or right behind it
      have hle := (hstart x (List.mem_cons_self ..)).resolve_left hbefore
      have hset := nodes_setExtent h hnodes (start + count) (x.count - (start + count - x.start))
      have hstop : (start + count) + (x.count - (start + count - x.start)) = x.stop := by
        rw [RbExtent.stop] at hin ⊢
        omega
      refine ⟨⟨x.id, start + count, x.count - (start + count - x.start)⟩ :: b, hset, ?_,
        fun lo hall y hy => ?_, fun bit => ?_, ?_, h.setExtent hnodes _ _⟩
      · refine Apart.cons_iff.mpr ⟨?_, fun y hy => ?_, hb'⟩
        · dsimp only
          omega
        · show _ + _ < _
          dsimp only
          rw [hstop]
          exact hxb y hy
      · rcases List.mem_cons.mp hy with rfl | hy
        · have := hall x (List.mem_cons_self ..)
          dsimp only
          omega
        · exact hall y (List.mem_cons_of_mem _ hy)
      · rw [marked_cons, hmarked]
        show (start + count ≤ bit ∧ bit < (start + count) + _) ∨ _ ↔ _
        rw [hstop]
        have hb'' : Marked b bit → ¬(start ≤ bit ∧ bit < start + count) := fun hm hbit =>
          absurd hm (not_marked_of_lt fun y hy => by have := hxb y hy; omega)
        constructor
        · rintro (hbit | hbit)
          · exact ⟨Or.inl ⟨by omega, hbit.2⟩, by omega⟩
          · exact ⟨Or.inr hbit, hb'' hbit⟩
        · rintro ⟨hbit | hbit, hout⟩
          · exact Or.inl ⟨by omega, hbit.2⟩
          · exact Or.inr hbit
      · rw [touched_cons]
        exact ⟨fun _ => Or.inr (Or.inl ⟨by omega, by omega⟩), fun _ => rfl⟩

/-- What unmarking a range is to do, and what it returns. -/
structure Unmarks (start count : ℕ) (bp : RbPrivate) (r : Bool × RbPrivate) : Prop where
  ok : r.2.Ok
  marked : ∀ bit, Marked r.2.nodes bit ↔ Marked bp.nodes bit ∧ ¬(start ≤ bit ∧ bit < start + count)
  was : r.1 = true ↔ Touched start count bp.nodes

/-- The nodes before a part that is cut stay apart from it. -/
theorem CutTo.ok {retval : Bool} {r : Bool × RbPrivate} {rest : List RbExtent}
    (hc : CutTo start count retval a b r rest) (hab : Apart (a ++ b)) : r.2.Ok := by
  obtain ⟨ha, -, hsep⟩ := Apart.append_iff.mp hab
  refine ⟨?_, hc.addresses⟩
  rw [hc.nodes, Apart.append_iff]
  exact ⟨ha, hc.apart, fun y hy => hc.behind y.stop (hsep y hy)⟩

/-- **After a search that finds nothing.** -/
theorem rbCutFrom_spec {retval : Bool} (hbal : ∀ t l, (bal t l).inorder = l) (h : bp.Ok)
    (hfind : (bp.tree.find (cmpWithin start) none).1 = none) :
    (rbCutFrom bal start count (bp.tree.find (cmpWithin start) none).2 retval bp).2.Ok ∧
      (∀ bit, Marked (rbCutFrom bal start count
        (bp.tree.find (cmpWithin start) none).2 retval bp).2.nodes bit ↔
        Marked bp.nodes bit ∧ ¬(start ≤ bit ∧ bit < start + count)) ∧
      ((rbCutFrom bal start count (bp.tree.find (cmpWithin start) none).2 retval bp).1 = true ↔
        retval = true ∨ Touched start count bp.nodes) := by
  rcases SearchTree.find_gap (h.apart.sorted_within start) hfind with ⟨hnil, hpar⟩ |
    ⟨q, a, b, hq, hin, hne, ha, hb⟩
  -- an empty tree: nothing to cut
  · have hnodes : bp.nodes = [] := hnil
    rw [hpar]
    refine ⟨h, fun bit => ?_, ?_⟩
    · show Marked bp.nodes bit ↔ _
      rw [hnodes]
      exact ⟨fun hm => absurd hm marked_nil, fun hm => absurd hm.1 marked_nil⟩
    · rw [hnodes]
      exact ⟨Or.inl, fun hr => hr.resolve_right fun ⟨_, hx, _⟩ => List.not_mem_nil hx⟩
  · have hnodes : bp.nodes = a ++ q :: b := hin
    have hapart := h.apart
    rw [hnodes] at hapart
    have hgt : ∀ y ∈ a, y.stop ≤ start := fun y hy =>
      (cmpWithin_gt ((Apart.append_iff.mp hapart).1.pos y hy)).mp (ha y hy)
    have hqb : Apart (q :: b) := (Apart.append_iff.mp hapart).2.1
    -- the search ended without a hit, so no extent covers `start` itself
    have hnot : ∀ y ∈ q :: b, y.stop ≤ start ∨ start ≤ y.start := by
      intro y hy
      have hy' : ¬(y.start ≤ start ∧ start < y.stop) := by
        intro hbit
        rcases List.mem_cons.mp hy with rfl | hy
        · exact hne (cmpWithin_eq.mpr hbit)
        · have := cmpWithin_lt.mp (hb y hy)
          omega
      omega
    obtain ⟨rest, hc⟩ :=
      @rbCut_spec bal bp a (q :: b) start count retval hbal h.addresses hnodes hqb hnot
    rw [hq, rbCutFrom]
    rw [h.addresses.onward_eq hnodes]
    refine ⟨hc.ok hapart, fun bit => ?_, ?_⟩
    · rw [hc.nodes, hnodes, marked_append, marked_append, hc.marked]
      have ha' : Marked a bit → ¬(start ≤ bit ∧ bit < start + count) := fun hm hbit =>
        absurd hm (not_marked_of_gt fun y hy => (hgt y hy).trans hbit.1)
      tauto
    · rw [hc.was, hnodes]
      refine or_congr_right ⟨fun ⟨y, hy, ht⟩ => ⟨y, List.mem_append_right _ hy, ht⟩,
        fun ⟨y, hy, ht⟩ => ?_⟩
      rcases List.mem_append.mp hy with hy | hy
      · have := hgt y hy
        omega
      · exact ⟨y, hy, ht⟩

/-- **`rb_remove_extent`** clears the bits of the range. -/
theorem rbRemoveExtent_spec (hbal : ∀ t l, (bal t l).inorder = l) (h : bp.Ok) :
    Unmarks start count bp (rbRemoveExtent bal start count bp) := by
  rw [rbRemoveExtent]
  rcases hfind : bp.tree.find (cmpWithin start) none with ⟨found, parent⟩
  cases found with
  | none =>
    have hnone : (bp.tree.find (cmpWithin start) none).1 = none := by rw [hfind]
    obtain ⟨hok, hmarked, hwas⟩ := @rbCutFrom_spec bal bp start count false hbal h hnone
    rw [hfind] at hok hmarked hwas
    exact ⟨hok, hmarked, hwas.trans (or_iff_right Bool.false_ne_true)⟩
  | some ext =>
    have hsome : (bp.tree.find (cmpWithin start) none).1 = some ext := by rw [hfind]
    obtain ⟨hext, hc⟩ := SearchTree.find_found hsome
    obtain ⟨hlo, hhi⟩ := cmpWithin_eq.mp hc
    obtain ⟨a, b, hnodes⟩ := exists_middle (show ext ∈ bp.nodes from hext)
    have hapart := h.apart
    rw [hnodes] at hapart
    obtain ⟨ha, hb, hpos, hax, hxb, hab⟩ := Apart.middle_iff.mp hapart
    have htouched : Touched start count bp.nodes := ⟨ext, hext, hhi, by omega⟩
    have hmarked : ∀ bit, Marked bp.nodes bit ↔ Marked a bit ∨ (ext.start ≤ bit ∧ bit < ext.stop) ∨
        Marked b bit :=
      fun bit => by rw [hnodes, marked_middle]
    have hbefore : ∀ bit, Marked a bit → bit < start := by
      rintro bit ⟨y, hy, hbit⟩
      have := hax y hy
      omega
    have hbehind : ∀ bit, Marked b bit → ext.stop < bit := by
      rintro bit ⟨y, hy, hbit⟩
      have := hxb y hy
      omega
    have hcount : ext.stop = ext.start + ext.count := rfl
    -- the part of the run before the range
    have hset := nodes_setExtent h.addresses hnodes ext.start (start - ext.start)
    have haddr := h.addresses.setExtent hnodes ext.start (start - ext.start)
    have hstop : ext.start + (start - ext.start) = start := by omega
    dsimp only
    split_ifs with hinside hlast hfirst
    · -- the run is split in two
      have hok₁ : (bp.setExtent ext.id ext.start (start - ext.start)).Ok := by
        refine ⟨?_, haddr⟩
        rw [hset, Apart.middle_iff]
        refine ⟨ha, hb, by dsimp only; omega, hax, fun y hy => ?_, hab⟩
        have := hxb y hy
        show ext.start + (start - ext.start) < y.start
        omega
      have hins := @rbInsertExtent_spec bal _ (start + count) (ext.stop - (start + count)) hbal hok₁
      refine ⟨hins.ok, fun bit => ?_, fun _ => htouched, fun _ => rfl⟩
      rw [hins.marked, hset, hmarked, marked_middle]
      show (_ ∨ (ext.start ≤ bit ∧ bit < ext.start + (start - ext.start)) ∨ _) ∨ _ ↔ _
      rw [hstop]
      have h1 := hbefore bit
      have h2 := hbehind bit
      constructor
      · rintro ((hm | hm | hm) | hm)
        · exact ⟨Or.inl hm, by have := h1 hm; omega⟩
        · exact ⟨Or.inr (Or.inl (by omega)), by omega⟩
        · exact ⟨Or.inr (Or.inr hm), by have := h2 hm; omega⟩
        · exact ⟨Or.inr (Or.inl (by omega)), by omega⟩
      · rintro ⟨hm | hm | hm, hout⟩
        · exact Or.inl (Or.inl hm)
        · by_cases hlt : bit < start
          · exact Or.inl (Or.inr (Or.inl ⟨hm.1, hlt⟩))
          · exact Or.inr ⟨by omega, by omega⟩
        · exact Or.inl (Or.inr (Or.inr hm))
    · -- the whole run goes
      have herase := nodes_erase hbal haddr hset
      have haddr' := haddr.erase hbal hset
      dsimp only at herase haddr'
      rw [h.addresses.behind_eq hnodes]
      obtain ⟨rest, hcut⟩ :=
        @rbCut_spec bal _ a b start count true hbal haddr' herase hb fun y hy => by
        have := hxb y hy
        omega
      have hab' : Apart (a ++ b) := Apart.append_iff.mpr ⟨ha, hb, hab⟩
      refine ⟨hcut.ok hab', fun bit => ?_, fun _ => htouched, fun _ => hcut.was.mpr (Or.inl rfl)⟩
      rw [hcut.nodes, marked_append, hcut.marked, hmarked]
      have h1 := hbefore bit
      constructor
      · rintro (hm | hm)
        · exact ⟨Or.inl hm, by have := h1 hm; omega⟩
        · exact ⟨Or.inr (Or.inr hm.1), hm.2⟩
      · rintro ⟨hm | hm | hm, hout⟩
        · exact Or.inl hm
        · omega
        · exact Or.inr ⟨hm, hout⟩
    · -- the end of the run goes
      have hok₁ : (bp.setExtent ext.id ext.start (start - ext.start)).Ok := by
        refine ⟨?_, haddr⟩
        rw [hset, Apart.middle_iff]
        refine ⟨ha, hb, by dsimp only; omega, hax, fun y hy => ?_, hab⟩
        have := hxb y hy
        show ext.start + (start - ext.start) < y.start
        omega
      have hmarked₁ : ∀ bit, Marked (bp.setExtent ext.id ext.start (start - ext.start)).nodes bit ↔
          Marked a bit ∨ (ext.start ≤ bit ∧ bit < start) ∨ Marked b bit := by
        intro bit
        rw [hset, marked_middle]
        show _ ∨ (ext.start ≤ bit ∧ bit < ext.start + (start - ext.start)) ∨ _ ↔ _
        rw [hstop]
      have hnone : ((bp.setExtent ext.id ext.start (start - ext.start)).tree.find
          (cmpWithin start) none).1 = none := by
        rcases @find_within start _ hok₁.apart none with ⟨y, hy, -, hbit⟩ | ⟨hn, -⟩
        · have hm := (hmarked₁ start).mp ⟨y, hy, hbit⟩
          rcases hm with hm | hm | hm
          · exact absurd (hbefore _ hm) (lt_irrefl _)
          · exact absurd hm.2 (lt_irrefl _)
          · have := hbehind _ hm
            omega
        · exact hn
      obtain ⟨hok₂, hmarked₂, hwas₂⟩ := @rbCutFrom_spec bal _ start count true hbal hok₁ hnone
      refine ⟨hok₂, fun bit => ?_, fun _ => htouched, fun _ => hwas₂.mpr (Or.inl rfl)⟩
      rw [hmarked₂, hmarked₁, hmarked]
      constructor
      · rintro ⟨hm | hm | hm, hout⟩
        · exact ⟨Or.inl hm, hout⟩
        · exact ⟨Or.inr (Or.inl ⟨hm.1, by omega⟩), hout⟩
        · exact ⟨Or.inr (Or.inr hm), hout⟩
      · rintro ⟨hm | hm | hm, hout⟩
        · exact ⟨Or.inl hm, hout⟩
        · exact ⟨Or.inr (Or.inl ⟨hm.1, by omega⟩), hout⟩
        · exact ⟨Or.inr (Or.inr hm), hout⟩
    · -- the beginning of the run goes
      have hset' := nodes_setExtent h.addresses hnodes (ext.start + count) (ext.count - count)
      have hstop' : ext.start + count + (ext.count - count) = ext.stop := by omega
      refine ⟨⟨?_, h.addresses.setExtent hnodes _ _⟩, fun bit => ?_,
        fun _ => htouched, fun _ => rfl⟩
      · rw [hset', Apart.middle_iff]
        refine ⟨ha, hb, by dsimp only; omega, fun y hy => ?_, fun y hy => ?_, hab⟩
        · have := hax y hy
          dsimp only
          omega
        · show ext.start + count + (ext.count - count) < y.start
          rw [hstop']
          exact hxb y hy
      · rw [hset', hmarked, marked_middle]
        show _ ∨ (ext.start + count ≤ bit ∧ bit < ext.start + count + (ext.count - count)) ∨ _ ↔ _
        rw [hstop']
        have h1 := hbefore bit
        have h2 := hbehind bit
        constructor
        · rintro (hm | hm | hm)
          · exact ⟨Or.inl hm, by have := h1 hm; omega⟩
          · exact ⟨Or.inr (Or.inl (by omega)), by omega⟩
          · exact ⟨Or.inr (Or.inr hm), by have := h2 hm; omega⟩
        · rintro ⟨hm | hm | hm, hout⟩
          · exact Or.inl hm
          · exact Or.inr (Or.inl (by omega))
          · exact Or.inr (Or.inr hm)

end Unmarking

end E2fsprogs
