import E2fsprogs.Bitmap.RbTree

/-!
# The nodes of a tree of extents

What the operations on single nodes do to the sequence of nodes and to the cursors. The invariant of
a bitmap is that its runs lie apart (`E2fsprogs.Apart`), that addresses are used once, and that the
cursors point to nodes (`E2fsprogs.Addresses`).
-/

namespace E2fsprogs

/-! ### Runs -/

/-- The runs are not empty, and each ends before the next begins. -/
structure Apart (l : List RbExtent) : Prop where
  pos : ∀ x ∈ l, 0 < x.count
  sep : l.Pairwise fun x y => x.stop < y.start

/-- A bit is in one of the runs. -/
def Marked (l : List RbExtent) (bit : ℕ) : Prop := ∃ x ∈ l, x.start ≤ bit ∧ bit < x.stop

section Runs

variable {l a b : List RbExtent} {x y : RbExtent} {bit : ℕ}

theorem apart_nil : Apart [] := ⟨nofun, List.Pairwise.nil⟩

theorem Apart.cons_iff : Apart (x :: l) ↔ 0 < x.count ∧ (∀ y ∈ l, x.stop < y.start) ∧ Apart l := by
  constructor
  · rintro ⟨hpos, hsep⟩
    obtain ⟨hx, hl⟩ := List.pairwise_cons.mp hsep
    exact ⟨hpos x (List.mem_cons_self ..), hx, fun y hy => hpos y (List.mem_cons_of_mem _ hy), hl⟩
  · rintro ⟨hx, hsep, hl⟩
    exact ⟨List.forall_mem_cons.mpr ⟨hx, hl.pos⟩, List.pairwise_cons.mpr ⟨hsep, hl.sep⟩⟩

theorem Apart.append_iff :
    Apart (a ++ b) ↔ Apart a ∧ Apart b ∧ ∀ x ∈ a, ∀ y ∈ b, x.stop < y.start := by
  constructor
  · rintro ⟨hpos, hsep⟩
    obtain ⟨ha, hb, hab⟩ := List.pairwise_append.mp hsep
    exact ⟨⟨fun x hx => hpos x (List.mem_append_left _ hx), ha⟩,
      ⟨fun x hx => hpos x (List.mem_append_right _ hx), hb⟩, hab⟩
  · rintro ⟨ha, hb, hab⟩
    refine ⟨fun x hx => ?_, List.pairwise_append.mpr ⟨ha.sep, hb.sep, hab⟩⟩
    rcases List.mem_append.mp hx with hx | hx
    · exact ha.pos x hx
    · exact hb.pos x hx

/-- Around one run. -/
theorem Apart.middle_iff :
    Apart (a ++ x :: b) ↔ Apart a ∧ Apart b ∧ 0 < x.count ∧ (∀ y ∈ a, y.stop < x.start) ∧
    (∀ y ∈ b, x.stop < y.start) ∧ ∀ y ∈ a, ∀ z ∈ b, y.stop < z.start := by
  rw [Apart.append_iff, Apart.cons_iff]
  constructor
  · rintro ⟨ha, ⟨hx, hxb, hb⟩, hab⟩
    exact ⟨ha, hb, hx, fun y hy => hab y hy x (List.mem_cons_self ..), hxb,
      fun y hy z hz => hab y hy z (List.mem_cons_of_mem _ hz)⟩
  · rintro ⟨ha, hb, hx, hax, hxb, hab⟩
    exact ⟨ha, ⟨hx, hxb, hb⟩,
      fun y hy z hz => (List.mem_cons.mp hz).elim (fun h => h ▸ hax y hy) (hab y hy z)⟩

@[simp] theorem marked_nil : ¬Marked [] bit := fun ⟨_, hx, _⟩ => List.not_mem_nil hx

theorem marked_cons : Marked (x :: l) bit ↔ (x.start ≤ bit ∧ bit < x.stop) ∨ Marked l bit := by
  rw [Marked, List.exists_mem_cons_iff]
  rfl

theorem marked_append : Marked (a ++ b) bit ↔ Marked a bit ∨ Marked b bit := by
  constructor
  · rintro ⟨x, hx, hbit⟩
    exact (List.mem_append.mp hx).imp (fun h => ⟨x, h, hbit⟩) fun h => ⟨x, h, hbit⟩
  · rintro (⟨x, hx, hbit⟩ | ⟨x, hx, hbit⟩)
    · exact ⟨x, List.mem_append_left _ hx, hbit⟩
    · exact ⟨x, List.mem_append_right _ hx, hbit⟩

theorem marked_middle : Marked (a ++ x :: b) bit ↔
    Marked a bit ∨ (x.start ≤ bit ∧ bit < x.stop) ∨ Marked b bit := by
  rw [marked_append, marked_cons]

/-- A run that is before a bit does not hold it. -/
theorem not_marked_of_gt (h : ∀ x ∈ l, x.stop ≤ bit) : ¬Marked l bit := fun ⟨x, hx, hbit⟩ =>
  absurd hbit.2 (Nat.not_lt.mpr (h x hx))

/-- A run that is behind a bit does not hold it. -/
theorem not_marked_of_lt (h : ∀ x ∈ l, bit < x.start) : ¬Marked l bit := fun ⟨x, hx, hbit⟩ =>
  absurd hbit.1 (Nat.not_le.mpr (h x hx))

theorem RbExtent.start_lt_stop (h : 0 < x.count) : x.start < x.stop := by
  rw [RbExtent.stop]
  omega

/-- A search for a bit goes the right way. -/
theorem Apart.sorted_within (h : Apart l) (bit : ℕ) : SearchTree.Sorted (cmpWithin bit) l := by
  refine h.sep.imp_of_mem fun {x y} hx hy hxy => ?_
  have hx' := RbExtent.start_lt_stop (h.pos x hx)
  rw [cmpWithin, cmpWithin]
  by_cases hlt : bit < y.start
  · exact Or.inl (if_pos hlt)
  · rw [if_neg (by omega : ¬bit < x.start), if_pos (by omega : x.stop ≤ bit)]
    exact Or.inr rfl

theorem Apart.sorted_touch (h : Apart l) (bit : ℕ) : SearchTree.Sorted (cmpTouch bit) l := by
  refine h.sep.imp_of_mem fun {x y} hx hy hxy => ?_
  have hx' := RbExtent.start_lt_stop (h.pos x hx)
  rw [cmpTouch, cmpTouch]
  by_cases hlt : bit < y.start
  · exact Or.inl (if_pos hlt)
  · rw [if_neg (by omega : ¬bit < x.start), if_pos (by omega : x.stop < bit)]
    exact Or.inr rfl

theorem cmpWithin_eq : cmpWithin bit x = .eq ↔ x.start ≤ bit ∧ bit < x.stop := by
  rw [cmpWithin]
  split_ifs with h1 h2
  · exact ⟨nofun, fun h => absurd h.1 (by omega)⟩
  · exact ⟨nofun, fun h => absurd h.2 (by omega)⟩
  · exact ⟨fun _ => by omega, fun _ => rfl⟩

theorem cmpWithin_lt : cmpWithin bit x = .lt ↔ bit < x.start := by
  rw [cmpWithin]
  split_ifs with h1 h2
  · exact ⟨fun _ => h1, fun _ => rfl⟩
  · exact ⟨nofun, fun h => absurd h h1⟩
  · exact ⟨nofun, fun h => absurd h h1⟩

theorem cmpWithin_gt (h : 0 < x.count) : cmpWithin bit x = .gt ↔ x.stop ≤ bit := by
  have hx := RbExtent.start_lt_stop h
  rw [cmpWithin]
  split_ifs with h1 h2
  · exact ⟨nofun, fun h => absurd h (by omega)⟩
  · exact ⟨fun _ => h2, fun _ => rfl⟩
  · exact ⟨nofun, fun h => absurd h h2⟩

theorem cmpTouch_eq : cmpTouch bit x = .eq ↔ x.start ≤ bit ∧ bit ≤ x.stop := by
  rw [cmpTouch]
  split_ifs with h1 h2
  · exact ⟨nofun, fun h => absurd h.1 (by omega)⟩
  · exact ⟨nofun, fun h => absurd h.2 (by omega)⟩
  · exact ⟨fun _ => by omega, fun _ => rfl⟩

theorem cmpTouch_lt : cmpTouch bit x = .lt ↔ bit < x.start := by
  rw [cmpTouch]
  split_ifs with h1 h2
  · exact ⟨fun _ => h1, fun _ => rfl⟩
  · exact ⟨nofun, fun h => absurd h h1⟩
  · exact ⟨nofun, fun h => absurd h h1⟩

theorem cmpTouch_gt : cmpTouch bit x = .gt ↔ ¬bit < x.start ∧ x.stop < bit := by
  rw [cmpTouch]
  split_ifs with h1 h2
  · exact ⟨nofun, fun h => absurd h1 h.1⟩
  · exact ⟨fun _ => ⟨h1, h2⟩, fun _ => rfl⟩
  · exact ⟨nofun, fun h => absurd h.2 h2⟩

/-- **A search for a bit** finds the run that holds it. -/
theorem find_within {t : SearchTree RbExtent} (h : Apart t.inorder) (parent : Option RbExtent) :
    (∃ x ∈ t.inorder, (t.find (cmpWithin bit) parent).1 = some x ∧ x.start ≤ bit ∧ bit < x.stop) ∨
      ((t.find (cmpWithin bit) parent).1 = none ∧ ¬Marked t.inorder bit) := by
  cases hf : (t.find (cmpWithin bit) parent).1 with
  | some x =>
    obtain ⟨hx, hc⟩ := SearchTree.find_found hf
    exact Or.inl ⟨x, hx, rfl, cmpWithin_eq.mp hc⟩
  | none =>
    refine Or.inr ⟨rfl, fun ⟨x, hx, hbit⟩ => ?_⟩
    rw [SearchTree.find_of_mem (h.sorted_within bit) hx (cmpWithin_eq.mpr hbit)] at hf
    cases hf

end Runs

/-! ### Addresses -/

/-- The cursors point to nodes, and the second read cursor to the node behind the first. -/
structure CursorsOk (ids : List ℕ) (wcursor rcursor rcursorNext : Option ℕ) : Prop where
  write : ∀ i, wcursor = some i → i ∈ ids
  read : ∀ i, rcursor = some i → i ∈ ids
  next : ∀ i j, rcursor = some i → rcursorNext = some j → [i, j] <:+: ids

/-- Addresses are used once, and the cursors are sound. -/
structure Addresses (bp : RbPrivate) : Prop where
  nodup : (bp.nodes.map RbExtent.id).Nodup
  fresh : ∀ x ∈ bp.nodes, x.id < bp.fresh
  cursors : CursorsOk (bp.nodes.map RbExtent.id) bp.wcursor bp.rcursor bp.rcursorNext

/-- **The invariant** of a tree of extents. -/
structure RbPrivate.Ok (bp : RbPrivate) : Prop where
  apart : Apart bp.nodes
  addresses : Addresses bp

theorem RbPrivate.empty_ok : RbPrivate.empty.Ok where
  apart := apart_nil
  addresses := ⟨List.nodup_nil, nofun, ⟨nofun, nofun, nofun⟩⟩

section Nodes

variable {bp : RbPrivate} {a b : List RbExtent} {x : RbExtent}

/-- The other nodes have other addresses. -/
theorem Addresses.ne (h : Addresses bp) (hnodes : bp.nodes = a ++ x :: b) :
    (∀ y ∈ a, y.id ≠ x.id) ∧ ∀ y ∈ b, y.id ≠ x.id := by
  have hnodup := h.nodup
  rw [hnodes, List.map_append, List.map_cons, List.nodup_append, List.nodup_cons] at hnodup
  obtain ⟨-, ⟨hx, -⟩, hdis⟩ := hnodup
  refine ⟨fun y hy => hdis _ (List.mem_map_of_mem hy) _ (List.mem_cons_self ..),
    fun y hy heq => hx ?_⟩
  rw [← heq]
  exact List.mem_map_of_mem hy

theorem nodes_setExtent (h : Addresses bp) (hnodes : bp.nodes = a ++ x :: b) (start count : ℕ) :
    (bp.setExtent x.id start count).nodes = a ++ ⟨x.id, start, count⟩ :: b := by
  obtain ⟨ha, hb⟩ := h.ne hnodes
  rw [RbPrivate.nodes] at hnodes ⊢
  rw [RbPrivate.setExtent, SearchTree.inorder_map, hnodes, List.map_append,
    List.map_cons, if_pos rfl]
  congr 1
  · exact (List.map_congr_left fun y hy => if_neg (ha y hy)).trans (List.map_id' a)
  · congr 1
    exact (List.map_congr_left fun y hy => if_neg (hb y hy)).trans (List.map_id' b)

theorem Addresses.onward_eq (h : Addresses bp) (hnodes : bp.nodes = a ++ x :: b) :
    bp.onward x.id = x :: b := by
  obtain ⟨ha, -⟩ := h.ne hnodes
  rw [RbPrivate.onward, hnodes, List.dropWhile_append_of_pos (fun y hy => by simpa using ha y hy),
    List.dropWhile_cons_of_neg (by simp)]

theorem Addresses.behind_eq (h : Addresses bp) (hnodes : bp.nodes = a ++ x :: b) :
    bp.behind x.id = b := by
  rw [RbPrivate.behind, h.onward_eq hnodes, List.tail_cons]

theorem Addresses.prev_eq (h : Addresses bp) (hnodes : bp.nodes = a ++ x :: b) :
    bp.prev x.id = a.getLast? := by
  obtain ⟨ha, -⟩ := h.ne hnodes
  rw [RbPrivate.prev, hnodes, List.takeWhile_append_of_pos (fun y hy => by simpa using ha y hy),
    List.takeWhile_cons_of_neg (by simp), List.append_nil]

theorem Addresses.node_eq (h : Addresses bp) (hnodes : bp.nodes = a ++ x :: b) :
    bp.node x.id = some x := by
  obtain ⟨ha, -⟩ := h.ne hnodes
  rw [RbPrivate.node, hnodes, List.find?_append,
    List.find?_eq_none.mpr (fun y hy => by simpa using ha y hy), Option.none_or,
    List.find?_cons_of_pos (by simp)]

/-- A node is somewhere in the sequence. -/
theorem exists_middle {l : List RbExtent} (hx : x ∈ l) : ∃ a b, l = a ++ x :: b :=
  List.append_of_mem hx

/-- What a cursor points to. -/
theorem node_some {i : ℕ} (hx : bp.node i = some x) : x ∈ bp.nodes ∧ x.id = i := by
  have := List.find?_some hx
  exact ⟨List.mem_of_find?_eq_some hx, by simpa using this⟩

/-- Writing the fields of a node keeps the addresses. -/
theorem Addresses.setExtent (h : Addresses bp) (hnodes : bp.nodes = a ++ x :: b) (start count : ℕ) :
    Addresses (bp.setExtent x.id start count) := by
  have hset := nodes_setExtent h hnodes start count
  have hids : (bp.setExtent x.id start count).nodes.map RbExtent.id = bp.nodes.map RbExtent.id := by
    rw [hset, hnodes, List.map_append, List.map_append, List.map_cons, List.map_cons]
  refine ⟨hids ▸ h.nodup, fun y hy => ?_, hids ▸ h.cursors⟩
  have hy' : y.id ∈ bp.nodes.map RbExtent.id := hids ▸ List.mem_map_of_mem hy
  obtain ⟨z, hz, hzy⟩ := List.mem_map.mp hy'
  rw [← hzy]
  exact h.fresh z hz

variable {bal : SearchTree RbExtent → List RbExtent → SearchTree RbExtent}
    (hbal : ∀ t l, (bal t l).inorder = l)

include hbal

theorem nodes_erase (h : Addresses bp) (hnodes : bp.nodes = a ++ x :: b) :
    (bp.erase bal x.id).nodes = a ++ b := by
  obtain ⟨ha, hb⟩ := h.ne hnodes
  show (bal _ _).inorder = _
  rw [hbal, hnodes, List.filter_append, List.filter_cons_of_neg (by simp),
    List.filter_eq_self.mpr (fun y hy => by simpa using ha y hy),
    List.filter_eq_self.mpr (fun y hy => by simpa using hb y hy)]

omit hbal in
/-- No address of the list is filtered out. -/
theorem filter_ids {l : List RbExtent} {i : ℕ} (h : ∀ y ∈ l, y.id ≠ i) :
    (l.map RbExtent.id).filter (fun k => decide (k ≠ i)) = l.map RbExtent.id := by
  rw [List.filter_eq_self]
  intro k hk
  obtain ⟨y, hy, rfl⟩ := List.mem_map.mp hk
  simpa using h y hy

/-- Erasing a node keeps the addresses. -/
theorem Addresses.erase (h : Addresses bp) (hnodes : bp.nodes = a ++ x :: b) :
    Addresses (bp.erase bal x.id) := by
  have herase := nodes_erase hbal h hnodes
  obtain ⟨ha, hb⟩ := h.ne hnodes
  have hsub : (a ++ b).Sublist bp.nodes := by
    rw [hnodes]
    exact (List.Sublist.refl a).append (List.sublist_cons_self x b)
  have hmem : ∀ i, i ∈ bp.nodes.map RbExtent.id → i ≠ x.id → i ∈ (a ++ b).map RbExtent.id := by
    intro i hi hne
    rw [hnodes, List.map_append, List.map_cons] at hi
    rw [List.map_append]
    rcases List.mem_append.mp hi with hi | hi
    · exact List.mem_append_left _ hi
    · rcases List.mem_cons.mp hi with rfl | hi
      · exact absurd rfl hne
      · exact List.mem_append_right _ hi
  refine ⟨?_, fun y hy => ?_, ⟨fun i hi => ?_, fun i hi => ?_, fun i j hi hj => ?_⟩⟩
  -- the two cursors are cleared where they sit on the erased node, so what is left is a node of its
  -- own
  · rw [herase]
    exact h.nodup.sublist (hsub.map _)
  · rw [herase] at hy
    exact h.fresh y (hsub.subset hy)
  · rw [herase]
    change (if bp.wcursor = some x.id then none else bp.wcursor) = some i at hi
    split_ifs at hi with hc
    exact hmem i (h.cursors.write i hi) fun heq => hc (heq ▸ hi)
  · rw [herase]
    change (if bp.rcursor = some x.id then none else bp.rcursor) = some i at hi
    split_ifs at hi with hc
    exact hmem i (h.cursors.read i hi) fun heq => hc (heq ▸ hi)
  · rw [herase]
    change (if bp.rcursor = some x.id then none else bp.rcursor) = some i at hi
    change (if bp.rcursorNext = some x.id then none else bp.rcursorNext) = some j at hj
    split_ifs at hi with hci
    split_ifs at hj with hcj
    have hi' : i ≠ x.id := fun heq => hci (heq ▸ hi)
    have hj' : j ≠ x.id := fun heq => hcj (heq ▸ hj)
    -- neither of the two neighbours is the erased node, so filtering it out keeps them next to each
    -- other
    have hpair : [i, j].filter (fun k => decide (k ≠ x.id)) = [i, j] := by
      rw [List.filter_eq_self]
      intro k hk
      rcases List.mem_pair.mp hk with rfl | rfl
      · simpa using hi'
      · simpa using hj'
    have hinfix := (h.cursors.next i j hi hj).filter fun k => decide (k ≠ x.id)
    rw [hpair, hnodes, List.map_append, List.map_cons, List.filter_append,
      List.filter_cons_of_neg (by simp), filter_ids ha, filter_ids hb] at hinfix
    rw [List.map_append]
    exact hinfix

end Nodes

end E2fsprogs
