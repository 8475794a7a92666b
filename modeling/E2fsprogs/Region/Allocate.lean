import E2fsprogs.Lib.LinkedList
import E2fsprogs.Lib.Loop

/-!
# Allocations within a region

`e2fsck` checks the places of extended attributes in an inode or a block for overlaps: it
allocates each of them in a region. A region has a list of the pieces that are taken, in
ascending order and with gaps between them, and a pointer to the last of them, so that
allocations in ascending order need not go through the list.

What the list is for is the set of all that has been allocated
(`E2fsprogs.regionRun_exact`): an allocation succeeds exactly if it is inside the region and
has nothing in common with the ones before.
-/

namespace E2fsprogs

open LinkedList

/-! ### The allocator -/

/-- `struct region_el`, without the pointer to the next one. -/
structure RegionEl where
  start : ℕ
  end_ : ℕ
  deriving DecidableEq, Repr

/-- `struct region_struct`, and the memory for its pieces: `brk` is the next address that is
allocated. -/
structure Region where
  min : ℕ
  max : ℕ
  allocated : Option ℕ
  last : Option ℕ
  mem : Memory RegionEl
  brk : ℕ

/-- `region_create`. -/
def regionCreate (min max : ℕ) : Region := ⟨min, max, none, none, fun _ => none, 0⟩

namespace Region

/-- A piece is written. -/
def write (region : Region) (a : ℕ) (r : Node RegionEl) : Region :=
  { region with mem := Function.update region.mem a (some r) }

/-- `ext2fs_free_mem`. -/
def free (region : Region) (a : ℕ) : Region :=
  { region with mem := Function.update region.mem a none }

end Region

/-- What the search through the list comes to: a result, or where a piece is to be put in. -/
inductive RegionFound
  | ret (code : ℤ) (region : Region)
  | append (prev r : Option ℕ)

section Allocate

variable (region : Region) (start end_ : ℕ)

/-- A piece that ends where the allocation starts is grown, and may come to touch the next. -/
def growEnd (a : ℕ) (el : RegionEl) : Option ℕ → Option RegionFound
  | none => some (.ret 0 (region.write a ⟨{ el with end_ := end_ }, none⟩))
  | some b =>
    (region.mem b).map fun next =>
      if next.val.start < end_ then .ret 1 region
      else if end_ = next.val.start then
        let region := (region.write a ⟨{ el with end_ := next.val.end_ }, next.next⟩).free b
        .ret 0 { region with last := if next.next = none then some a else region.last }
      else .ret 0 (region.write a ⟨{ el with end_ := end_ }, some b⟩)

/-- The body of the loop of `region_allocate`, with `prev` and `r`. A pointer to freed memory
is not followed: there is no result then. -/
def regionSearch : Option ℕ × Option ℕ → (Option ℕ × Option ℕ) ⊕ Option RegionFound
  | (prev, none) => .inr (some (.append prev none))
  | (prev, some a) =>
    match region.mem a with
    | none => .inr none
    | some ⟨el, next⟩ =>
      if (el.start ≤ start ∧ start < el.end_) ∨ (el.start < end_ ∧ end_ ≤ el.end_) ∨
          (start ≤ el.start ∧ el.end_ ≤ end_) then .inr (some (.ret 1 region))
      else if end_ = el.start then
        .inr (some (.ret 0 (region.write a ⟨{ el with start := start }, next⟩)))
      else if start = el.end_ then .inr (growEnd region end_ a el next)
      else if start < el.start then .inr (some (.append prev (some a)))
      else .inl (some a, next)

/-- `append_to_list`: a new piece is put in between `prev` and `r`. Memory does not run out. -/
def appendToList (prev r : Option ℕ) : Option (ℤ × Region) :=
  let new := region.brk
  let region := { region.write new ⟨⟨start, end_⟩, r⟩ with
    brk := new + 1
    last := if r = none then some new else region.last }
  match prev with
  | none => some (0, { region with allocated := some new })
  | some a => (region.mem a).map fun p => (0, region.write a { p with next := some new })

/-- The search through the list, and what follows it. -/
def searchRegion : Option (ℤ × Region) :=
  match Loop.run (regionSearch region start end_) (region.brk + 1) (none, region.allocated) with
  | some (some (.ret code region)) => some (code, region)
  | some (some (.append prev r)) => appendToList region start end_ prev r
  | _ => none

/-- `start + n` of type `region_addr_t`. -/
def regionEnd (start : ℕ) (n : ℤ) : ℕ := (((start : ℤ) + n) % 2 ^ 64).toNat

/-- `region_allocate`, past its checks. The last piece is looked at first. -/
def allocateInside : Option (ℤ × Region) :=
  match region.last with
  | none => searchRegion region start end_
  | some a =>
    (region.mem a).bind fun last =>
      if last.val.end_ = start ∧ last.next = none then
        some (0, region.write a { last with val := { last.val with end_ := end_ } })
      else if last.val.end_ < start ∧ last.next = none then
        appendToList region start end_ (some a) none
      else searchRegion region start end_

/-- `region_allocate`. -/
def regionAllocate (n : ℤ) : Option (ℤ × Region) :=
  let end_ := regionEnd start n
  if start < region.min ∨ region.max < end_ then some (-1, region)
  else if n = 0 then some (1, region)
  else allocateInside region start end_

end Allocate

/-- One call after the other, with what they return. -/
def regionRun : List (ℕ × ℤ) → Region → Option (List ℤ × Region)
  | [], region => some ([], region)
  | c :: cs, region =>
    (regionAllocate region c.1 c.2).bind fun r =>
      (regionRun cs r.2).map fun rs => (r.1 :: rs.1, rs.2)

/-! ### The pieces -/

/-- The pieces are not empty, and ascend with gaps between them. -/
structure Pieces (l : List (ℕ × RegionEl)) : Prop where
  gaps : l.Pairwise fun c d => c.2.end_ < d.2.start
  pos : ∀ c ∈ l, c.2.start < c.2.end_

/-- The number is in one of the pieces. -/
def Taken (l : List (ℕ × RegionEl)) (x : ℕ) : Prop := ∃ c ∈ l, c.2.start ≤ x ∧ x < c.2.end_

/-- **A region with these pieces.** -/
structure Region.Holds (region : Region) (l : List (ℕ × RegionEl)) : Prop where
  list : Segment region.mem region.allocated l none
  placed : LinkedList.Placed region.brk l
  last : region.last = lastAddr l
  pieces : Pieces l

/-- None of the pieces has anything in common with the allocation. -/
def Clear (l : List (ℕ × RegionEl)) (start end_ : ℕ) : Prop :=
  ∀ c ∈ l, c.2.end_ ≤ start ∨ end_ ≤ c.2.start

section Lists

variable {l l₁ l₂ : List (ℕ × RegionEl)} {c d : ℕ × RegionEl} {start end_ x : ℕ}

theorem taken_append : Taken (l₁ ++ l₂) x ↔ Taken l₁ x ∨ Taken l₂ x := by
  simp only [Taken, List.mem_append, or_and_right, exists_or]

theorem taken_cons : Taken (c :: l) x ↔ (c.2.start ≤ x ∧ x < c.2.end_) ∨ Taken l x := by
  simp only [Taken, List.mem_cons, or_and_right, exists_or, exists_eq_left]

/-- A piece between others. -/
theorem pieces_mid : Pieces (l₁ ++ c :: l₂) ↔ Pieces l₁ ∧ Pieces l₂ ∧ c.2.start < c.2.end_ ∧
    (∀ d ∈ l₁, d.2.end_ < c.2.start) ∧ ∀ d ∈ l₂, c.2.end_ < d.2.start := by
  constructor
  · rintro ⟨hgaps, hpos⟩
    obtain ⟨h1, h2, hcross⟩ := List.pairwise_append.mp hgaps
    obtain ⟨hc, h2⟩ := List.pairwise_cons.mp h2
    refine ⟨⟨h1, fun d hd => hpos d (by simp [hd])⟩, ⟨h2, fun d hd => hpos d (by simp [hd])⟩,
      hpos c (by simp), fun d hd => hcross d hd c (by simp), hc⟩
  · rintro ⟨h1, h2, hc, hbefore, hafter⟩
    refine ⟨List.pairwise_append.mpr ⟨h1.gaps, List.pairwise_cons.mpr ⟨hafter, h2.gaps⟩, ?_⟩, ?_⟩
    · intro d hd e he
      rcases List.mem_cons.mp he with rfl | he
      · exact hbefore d hd
      · exact (hbefore d hd).trans (hc.trans (hafter e he))
    · intro d hd
      rw [List.mem_append, List.mem_cons] at hd
      rcases hd with hd | rfl | hd
      · exact h1.pos d hd
      · exact hc
      · exact h2.pos d hd

/-- The allocation lies between the pieces of `l₁` and those of `l₂`. -/
structure Between (l₁ l₂ : List (ℕ × RegionEl)) (start end_ : ℕ) : Prop where
  before : ∀ d ∈ l₁, d.2.end_ < start
  after : ∀ d ∈ l₂, end_ < d.2.start

theorem Between.clear (h : Between l₁ l₂ start end_) : Clear (l₁ ++ l₂) start end_ := by
  intro d hd
  rcases List.mem_append.mp hd with hd | hd
  · exact Or.inl (h.before d hd).le
  · exact Or.inr (h.after d hd).le

/-- One of the pieces is in the way, or the allocation has something in common with it. -/
theorem clear_mid (h1 : ∀ d ∈ l₁, d.2.end_ < start) (hl : Pieces (l₁ ++ c :: l₂))
    (hc : c.2.end_ ≤ start ∨ end_ ≤ c.2.start) (h2 : ∀ d ∈ l₂, end_ ≤ d.2.start) :
    Clear (l₁ ++ c :: l₂) start end_ := by
  intro d hd
  rw [List.mem_append, List.mem_cons] at hd
  rcases hd with hd | rfl | hd
  · exact Or.inl (h1 d hd).le
  · exact hc
  · exact Or.inr (h2 d hd)

end Lists

/-! ### Changes of the list -/

/-- **An allocation that succeeds**: it was clear of the pieces, and is taken now, with them. -/
structure Accepts (region : Region) (l : List (ℕ × RegionEl)) (start end_ : ℕ) (region' : Region) :
    Prop where
  clear : Clear l start end_
  min : region'.min = region.min
  max : region'.max = region.max
  holds : ∃ l', region'.Holds l' ∧ ∀ x, Taken l' x ↔ Taken l x ∨ (start ≤ x ∧ x < end_)

section Changes

variable {region : Region} {l l₁ l₂ : List (ℕ × RegionEl)} {start end_ a b : ℕ} {el el' : RegionEl}
  {next prev r : Option ℕ}

/-- A piece in the list. -/
theorem Region.Holds.piece (h : region.Holds (l₁ ++ (a, el) :: l₂)) :
    ∃ next, region.mem a = some ⟨el, next⟩ ∧ Segment region.mem next l₂ none := by
  obtain ⟨s, -, rfl, next, hmem, hnext⟩ := segment_append.mp h.list
  exact ⟨next, hmem, hnext⟩

theorem taken_mid {c : ℕ × RegionEl} {x : ℕ} :
    Taken (l₁ ++ c :: l₂) x ↔ Taken l₁ x ∨ (c.2.start ≤ x ∧ x < c.2.end_) ∨ Taken l₂ x := by
  rw [taken_append, taken_cons]

/-- **A piece is grown** to take in the allocation as well. -/
theorem Region.Holds.grow (h : region.Holds (l₁ ++ (a, el) :: l₂))
    (hmem : region.mem a = some ⟨el, next⟩) (hb : Between l₁ l₂ el'.start el'.end_)
    (hclear : Clear (l₁ ++ (a, el) :: l₂) start end_)
    (hnew : ∀ x, (el'.start ≤ x ∧ x < el'.end_) ↔
      (el.start ≤ x ∧ x < el.end_) ∨ (start ≤ x ∧ x < end_)) :
    Accepts region (l₁ ++ (a, el) :: l₂) start end_ (region.write a ⟨el', next⟩) := by
  obtain ⟨next', hmem', hnext⟩ := h.piece
  obtain rfl : next' = next := by
    rw [hmem] at hmem'
    exact (congrArg Node.next (Option.some.inj hmem')).symm
  obtain ⟨h1, h2, hpos, -⟩ := pieces_mid.mp h.pieces
  have hpos' : el'.start < el'.end_ := by
    obtain ⟨hlo, hhi⟩ := (hnew el.start).mpr (Or.inl ⟨le_rfl, hpos⟩)
    exact lt_of_le_of_lt hlo hhi
  refine ⟨hclear, rfl, rfl, l₁ ++ (a, el') :: l₂, ⟨?_, ?_, ?_, ?_⟩, fun x => ?_⟩
  · exact h.list.write h.placed h.placed.mid.2 hnext
  · exact h.placed.of_sublist (by simp)
  · rw [Region.write, h.last]
    simp [lastAddr]
  · exact pieces_mid.mpr ⟨h1, h2, hpos', hb.before, hb.after⟩
  · rw [taken_mid, taken_mid, hnew]
    tauto

/-- **Two pieces are made one**, where the allocation fills the gap between them. -/
theorem Region.Holds.bridge {el₂ : RegionEl} (h : region.Holds (l₁ ++ (a, el) :: (b, el₂) :: l₂))
    (hmem : region.mem b = some ⟨el₂, next⟩) (hstart : start = el.end_) (hend : end_ = el₂.start)
    (hlt : start < end_) :
    Accepts region (l₁ ++ (a, el) :: (b, el₂) :: l₂) start end_
      { (region.write a ⟨{ el with end_ := el₂.end_ }, next⟩).free b with
        last := if next = none then some a else region.last } := by
  subst hstart hend
  have hassoc : l₁ ++ (a, el) :: (b, el₂) :: l₂ = (l₁ ++ [(a, el)]) ++ (b, el₂) :: l₂ := by simp
  obtain ⟨next', hmem', hnext⟩ := (hassoc ▸ h).piece
  obtain rfl : next' = next := by
    rw [hmem] at hmem'
    exact (congrArg Node.next (Option.some.inj hmem')).symm
  have hpb := (hassoc ▸ h.placed).mid
  obtain ⟨h1, h2, hpos, hbefore, hafter⟩ := pieces_mid.mp h.pieces
  dsimp only at hpos
  obtain ⟨hafter₂, h2'⟩ := List.pairwise_cons.mp h2.gaps
  have hpos₂ : el₂.start < el₂.end_ := h2.pos (b, el₂) (List.mem_cons_self ..)
  have hpa : Avoids a l₂ := fun d hd => h.placed.mid.2 d (List.mem_cons_of_mem _ hd)
  refine ⟨?_, rfl, rfl, l₁ ++ (a, { el with end_ := el₂.end_ }) :: l₂,
    ⟨?_, h.placed.of_sublist (by simp), ?_, ?_⟩, fun x => ?_⟩
  · intro d hd
    rw [List.mem_append, List.mem_cons, List.mem_cons] at hd
    rcases hd with hd | rfl | rfl | hd
    · have := hbefore d hd
      dsimp only at this
      omega
    · exact Or.inl le_rfl
    · exact Or.inr le_rfl
    · have := hafter₂ d hd
      dsimp only at this
      omega
  · refine (h.list.write (y := { el with end_ := el₂.end_ }) h.placed hpa hnext).frame (a := b)
      (fun d hd => ?_) none
    rw [List.mem_append, List.mem_cons] at hd
    rcases hd with hd | rfl | hd
    · exact hpb.1 d (by simp [hd])
    · exact hpb.1 (a, el) (by simp)
    · exact hpb.2 d hd
  -- if the piece that is freed was the last, the grown one is the last now
  · by_cases hn : next' = none
    · subst hn
      obtain rfl := segment_none.mp hnext
      simp
    · have hne : l₂ ≠ [] := fun hnil => hn (by rw [hnil] at hnext; exact hnext)
      rw [if_neg hn, lastAddr_append (List.cons_ne_nil _ _), lastAddr_cons hne, h.last,
        lastAddr_append (List.cons_ne_nil _ _), lastAddr_cons (List.cons_ne_nil _ _),
        lastAddr_cons hne]
  · refine pieces_mid.mpr ⟨h1, ⟨h2', fun d hd => h2.pos d (List.mem_cons_of_mem _ hd)⟩, ?_,
      hbefore, hafter₂⟩
    dsimp only
    omega
  · rw [taken_mid, taken_mid, taken_cons]
    have hnew : (el.start ≤ x ∧ x < el₂.end_) ↔ (el.start ≤ x ∧ x < el.end_) ∨
        (el.end_ ≤ x ∧ x < el₂.start) ∨ (el₂.start ≤ x ∧ x < el₂.end_) := by omega
    dsimp only
    rw [hnew]
    simp only [or_left_comm, or_comm]

/-- **A new piece is put in.** -/
theorem Region.Holds.appendToList (h : region.Holds (l₁ ++ l₂)) (hlt : start < end_)
    (hb : Between l₁ l₂ start end_) (hl₁ : Segment region.mem region.allocated l₁ r)
    (hl₂ : Segment region.mem r l₂ none) (hprev : prev = lastAddr l₁) :
    ∃ region', appendToList region start end_ prev r = some (0, region') ∧
      Accepts region (l₁ ++ l₂) start end_ region' := by
  have hp := h.placed.avoids_brk
  have hpieces : Pieces (l₁ ++ (region.brk, ⟨start, end_⟩) :: l₂) := by
    obtain ⟨hgaps, -, -⟩ := List.pairwise_append.mp h.pieces.gaps
    obtain ⟨-, hgaps₂, -⟩ := List.pairwise_append.mp h.pieces.gaps
    exact pieces_mid.mpr ⟨⟨hgaps, fun d hd => h.pieces.pos d (List.mem_append_left _ hd)⟩,
      ⟨hgaps₂, fun d hd => h.pieces.pos d (List.mem_append_right _ hd)⟩, hlt, hb.before, hb.after⟩
  have htaken : ∀ x, Taken (l₁ ++ (region.brk, ⟨start, end_⟩) :: l₂) x ↔
      Taken (l₁ ++ l₂) x ∨ (start ≤ x ∧ x < end_) := by
    intro x
    rw [taken_mid, taken_append]
    tauto
  have hplaced := h.placed.insert (x := ⟨start, end_⟩)
  have hnew : Segment (Function.update region.mem region.brk (some ⟨⟨start, end_⟩, r⟩))
      (some region.brk) ((region.brk, ⟨start, end_⟩) :: l₂) none :=
    ⟨rfl, r, Function.update_self .., hl₂.frame (fun d hd => hp d (List.mem_append_right _ hd)) _⟩
  have hlast : (if r = none then some region.brk else region.last) =
      lastAddr (l₁ ++ (region.brk, (⟨start, end_⟩ : RegionEl)) :: l₂) := by
    rw [lastAddr_append (List.cons_ne_nil _ _)]
    by_cases hr : r = none
    · subst hr
      obtain rfl := segment_none.mp hl₂
      rw [if_pos rfl]
      rfl
    · have hne : l₂ ≠ [] := fun hnil => hr (by rw [hnil] at hl₂; exact hl₂)
      rw [if_neg hr, h.last, lastAddr_append hne, lastAddr_cons hne]
  rcases List.eq_nil_or_concat l₁ with rfl | ⟨l₁, ⟨a, el⟩, rfl⟩
  · obtain rfl : prev = none := hprev
    exact ⟨_, rfl, hb.clear, rfl, rfl, _, ⟨hnew, hplaced, hlast, hpieces⟩, htaken⟩
  · rw [List.concat_eq_append] at *
    rw [lastAddr_concat] at hprev
    subst hprev
    obtain ⟨hl₁, hmem⟩ := segment_concat.mp hl₁
    have ha : a ≠ region.brk := hp (a, el) (by simp)
    have hassoc : ∀ l', (l₁ ++ [(a, el)]) ++ l' = l₁ ++ (a, el) :: l' := fun l' => by simp
    have hseg := h.list.frame hp (some ⟨⟨start, end_⟩, r⟩)
    have hmid : Avoids a ((region.brk, (⟨start, end_⟩ : RegionEl)) :: l₂) :=
      (hassoc _ ▸ hplaced).mid.2
    rw [hassoc] at hseg
    -- the pointer from the piece before is written when the new piece is in memory
    have hmem' : Function.update region.mem region.brk (some ⟨⟨start, end_⟩, r⟩) a =
        some ⟨el, r⟩ := by rw [Function.update_of_ne ha, hmem]
    have hwrite := hseg.write (y := el) (hassoc l₂ ▸ h.placed) hmid hnew
    rw [← hassoc] at hwrite
    refine ⟨⟨region.min, region.max, region.allocated,
      if r = none then some region.brk else region.last, _, region.brk + 1⟩, ?_, hb.clear, rfl, rfl,
      _, ⟨hwrite, hplaced, hlast, hpieces⟩, htaken⟩
    show Option.map _ (Function.update region.mem region.brk (some ⟨⟨start, end_⟩, r⟩) a) = _
    rw [hmem']
    rfl

end Changes

/-! ### The search -/

/-- What an allocation inside the region comes to. -/
def Answers (region : Region) (l : List (ℕ × RegionEl)) (start end_ : ℕ) (r : ℤ × Region) : Prop :=
  (r.1 = 1 ∧ r.2 = region ∧ ¬Clear l start end_) ∨ (r.1 = 0 ∧ Accepts region l start end_ r.2)

/-- What the search comes to: an answer, or the gap that the allocation is put in. -/
def RegionFound.Right (region : Region) (l : List (ℕ × RegionEl)) (start end_ : ℕ) :
    RegionFound → Prop
  | ret code region' => Answers region l start end_ (code, region')
  | append prev r => ∃ l₁ l₂, l = l₁ ++ l₂ ∧ prev = lastAddr l₁ ∧
      Segment region.mem region.allocated l₁ r ∧ Segment region.mem r l₂ none ∧
      Between l₁ l₂ start end_

section Search

variable {region : Region} {l l₁ l₂ : List (ℕ × RegionEl)} {start end_ a : ℕ} {el : RegionEl}
  {next prev r : Option ℕ}

theorem growEnd_spec (h : region.Holds (l₁ ++ (a, el) :: l₂))
    (hmem : region.mem a = some ⟨el, next⟩)
    (hnext : Segment region.mem next l₂ none) (hstart : start = el.end_) (hlt : start < end_) :
    ∃ f, growEnd region end_ a el next = some f ∧
      f.Right region (l₁ ++ (a, el) :: l₂) start end_ := by
  subst hstart
  obtain ⟨h1, h2, hpos, hbefore, hafter⟩ := pieces_mid.mp h.pieces
  dsimp only at hpos hbefore hafter
  have hgrow : (∀ d ∈ l₂, end_ < d.2.start) → Accepts region (l₁ ++ (a, el) :: l₂) el.end_ end_
      (region.write a ⟨{ el with end_ := end_ }, next⟩) := by
    intro hbehind
    refine h.grow hmem ⟨hbefore, hbehind⟩ (clear_mid (fun d hd => ?_) h.pieces (Or.inl le_rfl)
      fun d hd => (hbehind d hd).le) fun x => ?_
    · exact (hbefore d hd).trans hpos
    · dsimp only
      omega
  rcases l₂ with _ | ⟨⟨b, el₂⟩, l₂⟩
  · obtain rfl : next = none := hnext
    exact ⟨_, rfl, Or.inr ⟨rfl, hgrow (by simp)⟩⟩
  · obtain ⟨rfl, next₂, hmem₂, hnext₂⟩ := hnext
    rw [growEnd, hmem₂, Option.map_some]
    refine ⟨_, rfl, ?_⟩
    dsimp only
    rcases Nat.lt_trichotomy el₂.start end_ with hlt₂ | heq | hgt
    · rw [if_pos hlt₂]
      refine Or.inl ⟨rfl, rfl, fun hclear => ?_⟩
      have hin := hafter (b, el₂) (List.mem_cons_self ..)
      have hpos₂ := h2.pos (b, el₂) (List.mem_cons_self ..)
      rcases hclear (b, el₂) (by simp) with hle | hle
      · dsimp only at hle hin hpos₂
        omega
      · dsimp only at hle
        omega
    · rw [if_neg (by omega), if_pos heq.symm]
      exact Or.inr ⟨rfl, h.bridge hmem₂ rfl heq.symm hlt⟩
    · rw [if_neg (by omega), if_neg (by omega)]
      refine Or.inr ⟨rfl, hgrow fun d hd => ?_⟩
      rcases List.mem_cons.mp hd with rfl | hd
      · exact hgt
      · exact hgt.trans ((h2.pos (b, el₂) (List.mem_cons_self ..)).trans
          ((List.pairwise_cons.mp h2.gaps).1 d hd))

/-- **The search**, from a piece on: the pieces before end before the allocation. -/
theorem regionSearch_spec (hlt : start < end_) : ∀ (l₂ l₁ : List (ℕ × RegionEl)) (r : Option ℕ),
    region.Holds (l₁ ++ l₂) → Segment region.mem region.allocated l₁ r →
    Segment region.mem r l₂ none → (∀ d ∈ l₁, d.2.end_ < start) →
    ∃ f, Loop.run (regionSearch region start end_) (l₂.length + 1) (lastAddr l₁, r) =
      some (some f) ∧ f.Right region (l₁ ++ l₂) start end_ := by
  intro l₂
  induction l₂ with
  | nil =>
    intro l₁ r h hl₁ hl₂ hbefore
    obtain rfl : r = none := hl₂
    exact ⟨_, Loop.run_of_inr _ rfl, l₁, [], rfl, rfl, hl₁, rfl, hbefore, by simp⟩
  | cons c l₂ ih =>
    obtain ⟨a, el⟩ := c
    intro l₁ r h hl₁ hl₂ hbefore
    obtain ⟨rfl, next, hmem, hnext⟩ := hl₂
    dsimp only at hmem
    obtain ⟨-, h2, hpos, hgap, hafter⟩ := pieces_mid.mp h.pieces
    dsimp only at hpos hgap hafter
    obtain ⟨t, ht⟩ : ∃ t, regionSearch region start end_ (lastAddr l₁, some a) = t := ⟨_, rfl⟩
    have hstep := ht
    simp only [regionSearch, hmem] at ht
    by_cases hover : (el.start ≤ start ∧ start < el.end_) ∨ (el.start < end_ ∧ end_ ≤ el.end_) ∨
        (start ≤ el.start ∧ el.end_ ≤ end_)
    · rw [if_pos hover] at ht
      subst ht
      refine ⟨_, Loop.run_of_inr _ hstep, Or.inl ⟨rfl, rfl, fun hclear => ?_⟩⟩
      have := hclear (a, el) (by simp)
      dsimp only at this
      omega
    rw [if_neg hover] at ht
    by_cases hend : end_ = el.start
    · rw [if_pos hend] at ht
      subst ht
      refine ⟨_, Loop.run_of_inr _ hstep,
        Or.inr ⟨rfl, h.grow hmem ⟨hbefore, hafter⟩ ?_ fun x => ?_⟩⟩
      · refine clear_mid hbefore h.pieces (Or.inr hend.le) fun d hd => ?_
        have := hafter d hd
        omega
      · dsimp only
        omega
    rw [if_neg hend] at ht
    by_cases hstart : start = el.end_
    · rw [if_pos hstart] at ht
      obtain ⟨f, hf, hright⟩ := growEnd_spec h hmem hnext hstart hlt
      rw [hf] at ht
      subst ht
      exact ⟨f, Loop.run_of_inr _ hstep, hright⟩
    rw [if_neg hstart] at ht
    by_cases hless : start < el.start
    · -- the pieces from here on are behind the allocation
      rw [if_pos hless] at ht
      subst ht
      refine ⟨_, Loop.run_of_inr _ hstep, l₁, (a, el) :: l₂, rfl, rfl, hl₁,
        ⟨rfl, next, hmem, hnext⟩, hbefore, fun d hd => ?_⟩
      rcases List.mem_cons.mp hd with rfl | hd
      · dsimp only
        omega
      · have := hafter d hd
        omega
    · rw [if_neg hless] at ht
      subst ht
      have hassoc : (l₁ ++ [(a, el)]) ++ l₂ = l₁ ++ (a, el) :: l₂ := by simp
      obtain ⟨f, hf, hright⟩ := ih (l₁ ++ [(a, el)]) next (hassoc ▸ h)
        (segment_concat.mpr ⟨hl₁, hmem⟩) hnext fun d hd => by
          rcases List.mem_append.mp hd with hd | hd
          · exact hbefore d hd
          · rw [List.mem_singleton.mp hd]
            dsimp only
            omega
      rw [lastAddr_concat] at hf
      rw [hassoc] at hright
      exact ⟨f, Loop.run_of_round hstep hf, hright⟩

/-- **The search through the list, and what follows it.** -/
theorem searchRegion_spec (h : region.Holds l) (hlt : start < end_) :
    ∃ r, searchRegion region start end_ = some r ∧ Answers region l start end_ r := by
  obtain ⟨f, hf, hright⟩ := regionSearch_spec hlt l [] region.allocated h rfl h.list (by simp)
  have hrun := Loop.run_mono (Nat.succ_le_succ h.placed.length_le) hf
  rw [searchRegion, show (none : Option ℕ) = lastAddr ([] : List (ℕ × RegionEl)) from rfl, hrun]
  cases f with
  | ret code region' => exact ⟨_, rfl, hright⟩
  | append prev r =>
    obtain ⟨l₁, l₂, rfl, hprev, hl₁, hl₂, hb⟩ := hright
    obtain ⟨region', happend, haccepts⟩ := h.appendToList hlt hb hl₁ hl₂ hprev
    exact ⟨_, happend, Or.inr ⟨rfl, haccepts⟩⟩

/-- **An allocation inside the region.** -/
theorem allocateInside_spec (h : region.Holds l) (hlt : start < end_) :
    ∃ r, allocateInside region start end_ = some r ∧ Answers region l start end_ r := by
  rw [allocateInside]
  rcases List.eq_nil_or_concat l with rfl | ⟨l₁, ⟨a, el⟩, rfl⟩
  · rw [h.last]
    exact searchRegion_spec h hlt
  · rw [List.concat_eq_append] at *
    obtain ⟨hl₁, hmem⟩ := segment_concat.mp h.list
    rw [h.last, lastAddr_concat]
    dsimp only
    rw [hmem, Option.bind_some]
    obtain ⟨-, -, hpos, hgap, -⟩ := pieces_mid.mp h.pieces
    dsimp only at hpos hgap
    by_cases hlast : el.end_ = start
    · -- the last piece is grown
      rw [if_pos ⟨hlast, rfl⟩]
      refine ⟨_, rfl, Or.inr ⟨rfl, h.grow hmem ⟨hgap, by simp⟩ ?_ fun x => ?_⟩⟩
      · refine clear_mid (fun d hd => ?_) h.pieces (Or.inl hlast.le) (by simp)
        have := hgap d hd
        omega
      · dsimp only
        omega
    · rw [if_neg fun hc => hlast hc.1]
      by_cases hless : el.end_ < start
      · -- a new piece is put in behind the last one
        rw [if_pos ⟨hless, rfl⟩]
        have hnil : l₁ ++ [(a, el)] = (l₁ ++ [(a, el)]) ++ [] := (List.append_nil _).symm
        have hb : Between (l₁ ++ [(a, el)]) [] start end_ := by
          refine ⟨fun d hd => ?_, by simp⟩
          rcases List.mem_append.mp hd with hd | hd
          · have := hgap d hd
            omega
          · rw [List.mem_singleton.mp hd]
            exact hless
        obtain ⟨region', happend, haccepts⟩ := (hnil ▸ h).appendToList hlt hb h.list rfl
          lastAddr_concat.symm
        rw [← hnil] at haccepts
        exact ⟨_, happend, Or.inr ⟨rfl, haccepts⟩⟩
      · rw [if_neg fun hc => hless hc.1]
        exact searchRegion_spec h hlt

/-- **`region_allocate`.** -/
theorem regionAllocate_spec (h : region.Holds l) {n : ℤ} (hn : 1 ≤ n)
    (hwrap : (start : ℤ) + n < 2 ^ 64) :
    ∃ r, regionAllocate region start n = some r ∧
      (region.min ≤ start ∧ start + n.toNat ≤ region.max →
        Answers region l start (start + n.toNat) r) ∧
      (¬(region.min ≤ start ∧ start + n.toNat ≤ region.max) → r = (-1, region)) := by
  have hend : regionEnd start n = start + n.toNat := by
    rw [regionEnd, Int.emod_eq_of_lt (by omega) hwrap]
    omega
  have hlt : start < start + n.toNat := by omega
  rw [regionAllocate, hend]
  by_cases hin : region.min ≤ start ∧ start + n.toNat ≤ region.max
  · rw [if_neg (by omega), if_neg (by omega)]
    obtain ⟨r, hr, hanswers⟩ := allocateInside_spec h hlt
    exact ⟨r, hr, fun _ => hanswers, fun hno => absurd hin hno⟩
  · rw [if_pos (by omega)]
    exact ⟨_, rfl, fun hyes => absurd hyes hin, fun _ => rfl⟩

end Search

/-! ### Runs -/

/-- What an allocation is to return, when these intervals have been accepted. -/
def regionVerdict (min max : ℕ) (accepted : List (ℕ × ℕ)) (start end_ : ℕ) : ℤ :=
  if min ≤ start ∧ end_ ≤ max then
    if ∀ p ∈ accepted, Disjoint (Finset.Ico p.1 p.2) (Finset.Ico start end_) then 0 else 1
  else -1

/-- What the calls are to return one after the other, and the intervals accepted in the end. -/
def regionVerdicts (min max : ℕ) : List (ℕ × ℕ) → List (ℕ × ℤ) → List ℤ × List (ℕ × ℕ)
  | accepted, [] => ([], accepted)
  | accepted, c :: cs =>
    let verdict := regionVerdict min max accepted c.1 (c.1 + c.2.toNat)
    let r := regionVerdicts min max
      (if verdict = 0 then (c.1, c.1 + c.2.toNat) :: accepted else accepted) cs
    (verdict :: r.1, r.2)

section Runs

variable {region : Region} {l : List (ℕ × RegionEl)} {accepted : List (ℕ × ℕ)} {start end_ : ℕ}

/-- The pieces are what has been accepted. -/
structure Region.HoldsAll (region : Region) (l : List (ℕ × RegionEl)) (accepted : List (ℕ × ℕ)) :
    Prop extends region.Holds l where
  taken : ∀ x, Taken l x ↔ ∃ p ∈ accepted, p.1 ≤ x ∧ x < p.2

theorem clear_iff (hl : Pieces l) (hlt : start < end_) :
    Clear l start end_ ↔ ∀ x, start ≤ x → x < end_ → ¬Taken l x := by
  constructor
  · rintro hclear x h1 h2 ⟨c, hc, h3, h4⟩
    have := hclear c hc
    omega
  · intro h c hc
    by_contra hno
    have hpos := hl.pos c hc
    exact h (max start c.2.start) (le_max_left _ _) (by omega) ⟨c, hc, by omega⟩

theorem Region.HoldsAll.clear_iff_disjoint (h : region.HoldsAll l accepted) (hlt : start < end_) :
    Clear l start end_ ↔ ∀ p ∈ accepted, Disjoint (Finset.Ico p.1 p.2) (Finset.Ico start end_) := by
  rw [clear_iff h.pieces hlt]
  simp only [h.taken, Finset.disjoint_left, Finset.mem_Ico]
  constructor
  · rintro hno p hp x hx ⟨h1, h2⟩
    exact hno x h1 h2 ⟨p, hp, hx⟩
  · rintro hno x h1 h2 ⟨p, hp, hx⟩
    exact hno p hp hx ⟨h1, h2⟩

/-- **One call**: it returns what it is to return, and the pieces are what has been accepted. -/
theorem Region.HoldsAll.step (h : region.HoldsAll l accepted) {n : ℤ} (hn : 1 ≤ n)
    (hwrap : (start : ℤ) + n < 2 ^ 64) :
    ∃ code region' l', regionAllocate region start n = some (code, region') ∧
      code = regionVerdict region.min region.max accepted start (start + n.toNat) ∧
      region'.min = region.min ∧ region'.max = region.max ∧
      region'.HoldsAll l' (if code = 0 then (start, start + n.toNat) :: accepted
        else accepted) := by
  obtain ⟨⟨code, region'⟩, hr, hinside, houtside⟩ := regionAllocate_spec h.toHolds hn hwrap
  have hlt : start < start + n.toNat := by omega
  by_cases hin : region.min ≤ start ∧ start + n.toNat ≤ region.max
  · rw [regionVerdict, if_pos hin]
    rcases hinside hin with ⟨rfl, rfl, hclear⟩ | ⟨rfl, hclear, hmin, hmax, l', hl', htaken⟩
    · rw [h.clear_iff_disjoint hlt] at hclear
      exact ⟨_, _, l, hr, (if_neg hclear).symm, rfl, rfl, h⟩
    · rw [h.clear_iff_disjoint hlt] at hclear
      refine ⟨_, _, l', hr, (if_pos hclear).symm, hmin, hmax, hl', fun x => ?_⟩
      rw [htaken, h.taken]
      simp only [if_true, List.mem_cons, or_and_right, exists_or, exists_eq_left]
      exact or_comm
  · obtain ⟨rfl, rfl⟩ := Prod.mk.inj (houtside hin)
    rw [regionVerdict, if_neg hin]
    exact ⟨_, _, l, hr, rfl, rfl, rfl, h⟩

/-- A run, from a region that holds what has been accepted. -/
theorem Region.HoldsAll.run (calls : List (ℕ × ℤ)) (h : region.HoldsAll l accepted)
    (hcalls : ∀ c ∈ calls, 1 ≤ c.2 ∧ (c.1 : ℤ) + c.2 < 2 ^ 64) :
    ∃ region' l', regionRun calls region =
        some ((regionVerdicts region.min region.max accepted calls).1, region') ∧
      region'.HoldsAll l' (regionVerdicts region.min region.max accepted calls).2 := by
  induction calls generalizing region l accepted with
  | nil => exact ⟨region, l, rfl, h⟩
  | cons c cs ih =>
    obtain ⟨hn, hwrap⟩ := hcalls c (List.mem_cons_self ..)
    obtain ⟨code, region', l', hr, rfl, hmin, hmax, h'⟩ := h.step hn hwrap
    obtain ⟨region'', l'', hrun, h''⟩ := ih h' fun d hd => hcalls d (List.mem_cons_of_mem _ hd)
    rw [hmin, hmax] at hrun h''
    refine ⟨region'', l'', ?_, h''⟩
    rw [regionRun, hr, Option.bind_some, hrun]
    rfl

theorem regionCreate_holdsAll (min max : ℕ) : (regionCreate min max).HoldsAll [] [] where
  list := rfl
  placed := ⟨List.nodup_nil, by simp⟩
  last := rfl
  pieces := ⟨List.Pairwise.nil, by simp⟩
  taken := by simp [Taken]

end Runs

/-- **The region allocator detects exactly the overlaps**: every call returns what it is to
return, and the list has the union of what has been accepted, in ascending pieces with gaps
between them, with its last piece at hand. -/
theorem regionRun_exact (min max : ℕ) (calls : List (ℕ × ℤ))
    (hcalls : ∀ c ∈ calls, 1 ≤ c.2 ∧ (c.1 : ℤ) + c.2 < 2 ^ 64) :
    ∃ region l, regionRun calls (regionCreate min max) =
        some ((regionVerdicts min max [] calls).1, region) ∧
      region.HoldsAll l (regionVerdicts min max [] calls).2 :=
  (regionCreate_holdsAll min max).run calls hcalls

/-- Three pieces, of which the last fills the gap between the others. -/
theorem regionRun_exact_bridge : ∃ region l,
    regionRun [(10, 10), (30, 10), (1, 15), (20, 10)] (regionCreate 1 1001) =
      some ([0, 0, 1, 0], region) ∧ region.HoldsAll l [(20, 30), (30, 40), (10, 20)] :=
  regionRun_exact 1 1001 [(10, 10), (30, 10), (1, 15), (20, 10)] (by decide)

end E2fsprogs
