import E2fsprogs.Bitmap.Single

/-!
# The bits of a bitmap

A bitmap of any kind seen as its shape and its bits, counted from its first number: what the
operations do to them. `ext2fs_set_generic_bmap_range` and `ext2fs_get_generic_bmap_range` are here;
marking a number or a range only adds bits (`E2fsprogs.Adds`), and which ones depends on the shape
alone.
-/

namespace E2fsprogs

/-- What a transfer of a range is refused with. -/
inductive RangeError
  | einval
  | invalidArgument
  /-- The buffer has been overrun, which is no error code. -/
  | overrun
  deriving DecidableEq

inductive BitmapKind
  | tree
  | array
  | old (realEnd : ℕ)
  deriving DecidableEq

structure BitShape where
  kind : BitmapKind
  clusterBits : ℕ
  first : ℕ
  last : ℕ

namespace BlockBitmap

/-- The checks of a range in the 32-bit kind. `start` is cut to 32 bits between them. -/
def oldRangeCheck (bmapStart realEnd start num : ℕ) : Except RangeError Unit :=
  if 2 ^ 32 ≤ (start + num + (2 ^ 64 - 1)) % 2 ^ 64 then .error .einval
  else if start % 2 ^ 32 < bmapStart ∨ realEnd < (start % 2 ^ 32 + num + (2 ^ 32 - 1)) % 2 ^ 32 then
    .error .invalidArgument
  else .ok ()

/-- `ext2fs_set_generic_bmap_range`. -/
def setRange (bal : SearchTree RbExtent → List RbExtent → SearchTree RbExtent) (start num : ℕ)
    (inp : Block) :
    BlockBitmap → Except RangeError BlockBitmap
  | rb clusterBits bmapStart bmapEnd bp =>
    .ok (rb clusterBits bmapStart bmapEnd (rbSetRange bal bmapStart start num inp bp))
  | ba clusterBits bmapStart bmapEnd b =>
    .ok (ba clusterBits bmapStart bmapEnd (baSetRange start num inp b))
  | legacy bmapStart bmapEnd realEnd b =>
    (oldRangeCheck bmapStart realEnd start num).map fun _ =>
      legacy bmapStart bmapEnd realEnd (memcpy b ((start - bmapStart) / 8) inp ((num + 7) / 8))

/-- `ext2fs_get_generic_bmap_range`, into the buffer `out`. -/
def getRange (start num : ℕ) (out : Block) : BlockBitmap → Except RangeError Block
  | rb _ bmapStart _ bp => match rbGetRange bmapStart start num bp out with
    | some out => .ok out
    | none => .error .overrun
  | ba _ _ _ b => .ok (baGetRange start num b out)
  | legacy bmapStart _ realEnd b =>
    (oldRangeCheck bmapStart realEnd start num).map fun _ =>
      memcpy out 0 (fromPos b ((start - bmapStart) / 8)) ((num + 7) / 8)

def shape : BlockBitmap → BitShape
  | rb clusterBits start bmapEnd _ => ⟨.tree, clusterBits, start, bmapEnd⟩
  | ba clusterBits start bmapEnd _ => ⟨.array, clusterBits, start, bmapEnd⟩
  | legacy start bmapEnd realEnd _ => ⟨.old realEnd, 0, start, bmapEnd⟩

/-- The bits, from that of the first number on. -/
def bits : BlockBitmap → ℕ → Bool
  | rb _ start _ bp => fun n => rbTest start bp (start + n)
  | ba _ _ _ b => bitAt b
  | legacy _ _ _ b => bitAt b

/-- A tree is one that the operations lead to. -/
def TreeReachable (bal : SearchTree RbExtent → List RbExtent → SearchTree RbExtent) :
    BlockBitmap → Prop
  | rb _ _ _ bp => RbReachable bal bp
  | ba _ _ _ _ => True
  | legacy _ _ _ _ => True

end BlockBitmap

namespace BitShape

variable (sh : BitShape)

/-- The bit that marking `arg` sets. -/
structure Single (arg n : ℕ) : Prop where
  low : sh.first ≤ arg >>> sh.clusterBits
  high : arg >>> sh.clusterBits ≤ sh.last
  old : ∀ r, sh.kind = .old r → arg < 2 ^ 32
  eq : n = arg >>> sh.clusterBits - sh.first

/-- The clusters that a range of blocks is turned into, and whether it is refused. -/
def rangeOf (block num : ℕ) : ℕ × ℕ :=
  match sh.kind with
  | .old _ => (block, num)
  | _ => rangeClusters sh.clusterBits block num

def RangeRefused (block num : ℕ) : Prop :=
  rangeBad sh.first sh.last (sh.rangeOf block num).1 (sh.rangeOf block num).2 ∨
    (∃ r, sh.kind = .old r) ∧ (rangeTooFar block num ∨ 2 ^ 31 ≤ num)

/-- The bits that marking a range sets. -/
def Span (block num n : ℕ) : Prop :=
  ¬sh.RangeRefused block num ∧ (sh.rangeOf block num).1 - sh.first ≤ n ∧
    n < (sh.rangeOf block num).1 - sh.first + (sh.rangeOf block num).2

/-- Where a range of bits is put. -/
def place (start : ℕ) : ℕ :=
  match sh.kind with
  | .tree => start - sh.first
  | .array => 8 * (start / 8)
  | .old _ => 8 * ((start - sh.first) / 8)

/-- How many bits are put there. -/
def width (num : ℕ) : ℕ := if sh.kind = .tree then num else 8 * ((num + 7) / 8)

/-- A transfer of the range is refused. -/
def Refuses (start num : ℕ) : Prop :=
  ∃ r, sh.kind = .old r ∧ BlockBitmap.oldRangeCheck sh.first r start num ≠ .ok ()

/-- The bits when a range is set: a tree keeps those it has. -/
def imported (start num : ℕ) (inp : Block) (f : ℕ → Bool) (n : ℕ) : Bool :=
  if sh.place start ≤ n ∧ n < sh.place start + sh.width num then
    decide (sh.kind = .tree) && f n || bitAt inp (n - sh.place start)
  else f n

end BitShape

/-- What an operation only adds bits to, of bitmaps of a shape. -/
def Adds (bal : SearchTree RbExtent → List RbExtent → SearchTree RbExtent) (sh : BitShape)
    (f : BlockBitmap → BlockBitmap) (S : ℕ → Prop) : Prop :=
  ∀ bm, bm.TreeReachable bal → bm.shape = sh →
    (f bm).TreeReachable bal ∧ (f bm).shape = sh ∧ ∀ n, (f bm).bits n = true ↔
      bm.bits n = true ∨ S n

section Picture

variable {bal : SearchTree RbExtent → List RbExtent → SearchTree RbExtent} {bm : BlockBitmap}
    {sh : BitShape}
  {f g : BlockBitmap → BlockBitmap} {S T : ℕ → Prop} {arg block num start n k : ℕ} {inp out : Block}

theorem shape_first : bm.shape.first = bm.first := by cases bm <;> rfl

theorem bits_eq_bit : bm.bits n = bm.bit (bm.first + n) := by
  cases bm with
  | rb c start bmapEnd bp => rfl
  | ba c start bmapEnd b => exact congrArg (bitAt b) (Nat.add_sub_cancel_left start n).symm
  | legacy start bmapEnd realEnd b =>
    exact congrArg (bitAt b) (Nat.add_sub_cancel_left start n).symm

/-! ### Adding bits -/

theorem adds_id : Adds bal sh id fun _ => False :=
  fun _ hreach hsh => ⟨hreach, hsh, fun _ => (or_iff_left not_false).symm⟩

theorem Adds.comp (hf : Adds bal sh f S) (hg : Adds bal sh g T) :
    Adds bal sh (g ∘ f) fun n => S n ∨ T n :=
  fun bm hreach hsh => by
    obtain ⟨hr, hs, hb⟩ := hf bm hreach hsh
    obtain ⟨hr', hs', hb'⟩ := hg (f bm) hr hs
    exact ⟨hr', hs', fun n => (hb' n).trans ((or_congr_left (hb n)).trans or_assoc)⟩

theorem Adds.congr (hf : Adds bal sh f S) (h : ∀ n, S n ↔ T n) : Adds bal sh f T :=
  fun bm hreach hsh => by
  obtain ⟨hr, hs, hb⟩ := hf bm hreach hsh
  exact ⟨hr, hs, fun n => (hb n).trans (or_congr_right (h n))⟩

theorem Adds.ite {p : Prop} [Decidable p] (hf : Adds bal sh f S) :
    Adds bal sh (fun bm => if p then f bm else bm) fun n => p ∧ S n := by
  by_cases hp : p
  · simp only [true_and, hp]
    exact hf
  · simp only [false_and, hp]
    exact adds_id

/-- A loop whose rounds add bits. -/
theorem adds_foldl {α : Type} {step : α → BlockBitmap → BlockBitmap} {S : α → ℕ → Prop} (l : List α)
    (h : ∀ a ∈ l, Adds bal sh (step a) (S a)) :
    Adds bal sh (fun bm => l.foldl (fun bm a => step a bm) bm) fun n => ∃ a ∈ l, S a n := by
  induction l with
  | nil => exact adds_id.congr fun n => by simp
  | cons a l ih =>
    refine ((h a (List.mem_cons_self ..)).comp
      (ih fun b hb => h b (List.mem_cons_of_mem a hb))).congr fun n => ?_
    rw [List.exists_mem_cons_iff]

/-- In a 64-bit bitmap. -/
theorem single_new {c first last : ℕ} {kind : BitmapKind} (h : ∀ r, kind ≠ .old r) :
    (BitShape.mk kind c first last).Single arg n ↔
      (first ≤ arg >>> c ∧ arg >>> c ≤ last) ∧ n = arg >>> c - first :=
  ⟨fun hs => ⟨⟨hs.low, hs.high⟩, hs.eq⟩,
    fun hs => ⟨hs.1.1, hs.1.2, fun r hr => absurd hr (h r), hs.2⟩⟩

theorem single_old {first last r : ℕ} :
    (BitShape.mk (.old r) 0 first last).Single arg n ↔
      arg < 2 ^ 32 ∧ (first ≤ arg ∧ arg ≤ last) ∧ n = arg - first :=
  ⟨fun hs => ⟨hs.old r rfl, ⟨hs.low, hs.high⟩, hs.eq⟩,
    fun hs => ⟨hs.2.1.1, hs.2.1.2, fun _ _ => hs.1, hs.2.2⟩⟩

/-- **Marking a number** adds its bit. -/
theorem mark_adds (hbal : ∀ t l, (bal t l).inorder = l) :
    Adds bal sh (fun bm => bm.mark bal arg) (sh.Single arg) := by
  rintro bm hreach rfl
  cases bm with
  | rb c start bmapEnd bp =>
    have hok := RbReachable.ok hbal hreach
    have hspec := @rbInsertExtent_spec bal bp (arg >>> c - start) 1 hbal hok
    have hsingle : ∀ n, (BlockBitmap.rb c start bmapEnd bp).shape.Single arg n ↔ _ := fun n =>
      single_new fun _ => BitmapKind.noConfusion
    simp only [BlockBitmap.mark, hsingle]
    split_ifs with hout
    · exact ⟨hreach, rfl, fun n => (or_iff_left fun h => by omega).symm⟩
    · refine ⟨RbReachable.insert _ _ hreach, rfl, fun n => ?_⟩
      show rbTest start _ (start + n) = true ↔ rbTest start bp (start + n) = true ∨ _
      rw [rbTest_iff hspec.ok, rbTest_iff hok, Nat.add_sub_cancel_left, hspec.marked]
      refine or_congr_right ?_
      omega
  | ba c start bmapEnd b =>
    have hsingle : ∀ n, (BlockBitmap.ba c start bmapEnd b).shape.Single arg n ↔ _ := fun n =>
      single_new fun _ => BitmapKind.noConfusion
    simp only [BlockBitmap.mark, hsingle]
    split_ifs with hout
    · exact ⟨hreach, rfl, fun n => (or_iff_left fun h => by omega).symm⟩
    · refine ⟨trivial, rfl, fun n => bitAt_baMark.trans (or_congr_right ?_)⟩
      omega
  | legacy start bmapEnd realEnd b =>
    have hsingle : ∀ n, (BlockBitmap.legacy start bmapEnd realEnd b).shape.Single arg n ↔ _ :=
      fun n => single_old
    simp only [BlockBitmap.mark, hsingle]
    split_ifs with hfar hout
    · exact ⟨trivial, rfl, fun n => (or_iff_left fun h => by omega).symm⟩
    · exact ⟨trivial, rfl, fun n => (or_iff_left fun h => by omega).symm⟩
    · refine ⟨trivial, rfl, fun n => bitAt_baMark.trans (or_congr_right ?_)⟩
      omega

/-- **Marking a range** adds its bits. -/
theorem markRange_adds (hbal : ∀ t l, (bal t l).inorder = l) :
    Adds bal sh (fun bm => bm.markRange bal block num) (sh.Span block num) := by
  rintro bm hreach rfl
  cases bm with
  | rb c start bmapEnd bp =>
    obtain ⟨r, hr⟩ : ∃ r, r = rangeClusters c block num := ⟨_, rfl⟩
    have hrefused : (BlockBitmap.rb c start bmapEnd bp).shape.RangeRefused block num ↔
        rangeBad start bmapEnd r.1 r.2 := by
      rw [hr]
      exact or_iff_left fun h => by
        obtain ⟨⟨x, hx⟩, -⟩ := h
        cases hx
    dsimp only
    rw [BlockBitmap.markRange, ← hr]
    by_cases hbad : rangeBad start bmapEnd r.1 r.2
    · rw [if_pos hbad]
      exact ⟨hreach, rfl, fun n => (or_iff_left fun h => h.1 (hrefused.mpr hbad)).symm⟩
    · rw [if_neg hbad]
      have hok := RbReachable.ok hbal hreach
      have hspec := @rbInsertExtent_spec bal bp (r.1 - start) r.2 hbal hok
      refine ⟨RbReachable.insert _ _ hreach, rfl, fun n => ?_⟩
      show rbTest start _ (start + n) = true ↔ rbTest start bp (start + n) = true ∨ _
      rw [rbTest_iff hspec.ok, rbTest_iff hok, Nat.add_sub_cancel_left, hspec.marked,
        BitShape.Span, hrefused]
      exact or_congr_right ((and_iff_right hbad).trans (by rw [hr]; rfl)).symm
  | ba c start bmapEnd b =>
    obtain ⟨r, hr⟩ : ∃ r, r = rangeClusters c block num := ⟨_, rfl⟩
    have hrefused : (BlockBitmap.ba c start bmapEnd b).shape.RangeRefused block num ↔
        rangeBad start bmapEnd r.1 r.2 := by
      rw [hr]
      exact or_iff_left fun h => by
        obtain ⟨⟨x, hx⟩, -⟩ := h
        cases hx
    dsimp only
    rw [BlockBitmap.markRange, ← hr]
    by_cases hbad : rangeBad start bmapEnd r.1 r.2
    · rw [if_pos hbad]
      exact ⟨hreach, rfl, fun n => (or_iff_left fun h => h.1 (hrefused.mpr hbad)).symm⟩
    · rw [if_neg hbad]
      refine ⟨trivial, rfl, fun n => ?_⟩
      show bitAt (baMarkExtent _ _ b) n = true ↔ bitAt b n = true ∨ _
      rw [bitAt_baMarkExtent, BitShape.Span, hrefused]
      exact or_congr_right ((and_iff_right hbad).trans (by rw [hr]; rfl)).symm
  | legacy start bmapEnd realEnd b =>
    have hrefused : (BlockBitmap.legacy start bmapEnd realEnd b).shape.RangeRefused block num ↔
        rangeBad start bmapEnd block num ∨ rangeTooFar block num ∨ 2 ^ 31 ≤ num :=
      or_congr_right (and_iff_right ⟨realEnd, rfl⟩)
    dsimp only
    rw [BlockBitmap.markRange]
    -- the three checks of the 32-bit interface, in the order the source makes them
    by_cases hbad : rangeBad start bmapEnd block num ∨ rangeTooFar block num ∨ 2 ^ 31 ≤ num
    · have hsame : (if rangeTooFar block num then BlockBitmap.legacy start bmapEnd realEnd b
          else if rangeBad start bmapEnd block num then .legacy start bmapEnd realEnd b
          else if num < 2 ^ 31 then
            .legacy start bmapEnd realEnd (baMarkExtent (block - start) num b)
          else .legacy start bmapEnd realEnd b) = .legacy start bmapEnd realEnd b := by
        by_cases hfar : rangeTooFar block num
        · rw [if_pos hfar]
        · rw [if_neg hfar]
          by_cases hb : rangeBad start bmapEnd block num
          · rw [if_pos hb]
          · rw [if_neg hb, if_neg (not_lt.mpr ((hbad.resolve_left hb).resolve_left hfar))]
      rw [hsame]
      exact ⟨hreach, rfl, fun n => (or_iff_left fun h => h.1 (hrefused.mpr hbad)).symm⟩
    · have hgood := hbad
      push Not at hgood
      rw [if_neg hgood.2.1, if_neg hgood.1, if_pos hgood.2.2]
      refine ⟨hreach, rfl, fun n => ?_⟩
      show bitAt (baMarkExtent _ _ b) n = true ↔ bitAt b n = true ∨ _
      rw [bitAt_baMarkExtent, BitShape.Span, hrefused]
      exact or_congr_right (and_iff_right hbad).symm

/-! ### Setting a range -/

theorem RbReachable.setRun {bp : RbPrivate} {firstSet : ℤ} {bmapStart i : ℕ}
    (h : RbReachable bal bp) :
    RbReachable bal (rbSetRun bal bmapStart start firstSet i bp) := RbReachable.insert _ _ h

theorem RbReachable.setLoop {bp : RbPrivate} {firstSet : ℤ} {bmapStart i : ℕ}
    (h : RbReachable bal bp) :
    RbReachable bal (rbSetLoop bal bmapStart start num inp i firstSet bp).2 := by
  fun_induction rbSetLoop bal bmapStart start num inp i firstSet bp with
  | case1 _ _ _ _ _ ih => exact ih h
  | case2 _ _ _ _ _ _ ih => exact ih h
  | case3 _ _ _ _ _ _ _ ih => exact ih h
  | case4 _ _ _ _ _ _ ih => exact ih h
  | case5 _ _ _ _ _ _ _ _ ih => exact ih h.setRun
  | case6 => exact h

theorem RbReachable.setRange {bp : RbPrivate} {bmapStart : ℕ} (h : RbReachable bal bp) :
    RbReachable bal (rbSetRange bal bmapStart start num inp bp) := by
  rw [rbSetRange, rbSetLast]
  split
  · exact h.setLoop.setRun
  · exact h.setLoop

/-- The bits of an array when bytes are copied into it. -/
theorem bitAt_copied {b : Block} {p : ℕ} :
    bitAt (memcpy b p inp ((num + 7) / 8)) n =
      if 8 * p ≤ n ∧ n < 8 * p + 8 * ((num + 7) / 8) then bitAt inp (n - 8 * p) else bitAt b n :=
  bitAt_memcpy

/-- **Setting a range**, when it is not refused. -/
theorem setRange_ok (hbal : ∀ t l, (bal t l).inorder = l) (hreach : bm.TreeReachable bal)
    (hsh : bm.shape = sh)
    (hfirst : sh.first ≤ start) (hfit : start - sh.first + num ≤ 2 ^ 64) (hsmall : num ≤ 2 ^ 31)
    (hgood : ¬sh.Refuses start num) :
    ∃ bm', bm.setRange bal start num inp = .ok bm' ∧ bm'.TreeReachable bal ∧ bm'.shape = sh ∧
      ∀ n, bm'.bits n = sh.imported start num inp bm.bits n := by
  subst hsh
  cases bm with
  | rb c bmapStart bmapEnd bp =>
    have hok := RbReachable.ok hbal hreach
    have hspec := @rbSetRange_spec bal bp inp bmapStart start num hbal hok hfirst hfit hsmall
    refine ⟨_, rfl, RbReachable.setRange hreach, rfl, fun n => ?_⟩
    rw [Bool.eq_iff_iff]
    show rbTest bmapStart _ (bmapStart + n) = true ↔
      (if start - bmapStart ≤ n ∧ n < start - bmapStart + num then
        rbTest bmapStart bp (bmapStart + n) || bitAt inp (n - (start - bmapStart))
      else rbTest bmapStart bp (bmapStart + n)) = true
    rw [rbTest_iff hspec.ok, Nat.add_sub_cancel_left, hspec.marked]
    have hold : rbTest bmapStart bp (bmapStart + n) = true ↔ Marked bp.nodes n := by
      rw [rbTest_iff hok, Nat.add_sub_cancel_left]
    split_ifs with hin
    · rw [Bool.or_eq_true, hold]
      refine or_congr_right ⟨?_,
        fun hbit => ⟨n - (start - bmapStart), by omega, by omega, hbit, by omega⟩⟩
      rintro ⟨j, -, -, hbit, rfl⟩
      rwa [Nat.add_sub_cancel_left]
    · rw [hold]
      refine or_iff_left ?_
      rintro ⟨j, -, hj, -, rfl⟩
      omega
  | ba c bmapStart bmapEnd b => exact ⟨_, rfl, trivial, rfl, fun n => bitAt_copied⟩
  | legacy bmapStart bmapEnd realEnd b =>
    have hcheck : BlockBitmap.oldRangeCheck bmapStart realEnd start num = .ok () :=
      not_not.mp fun hne => hgood ⟨realEnd, rfl, hne⟩
    refine ⟨.legacy bmapStart bmapEnd realEnd
      (memcpy b ((start - bmapStart) / 8) inp ((num + 7) / 8)), ?_, hreach, rfl, fun n =>
        bitAt_copied⟩
    rw [BlockBitmap.setRange, hcheck]
    rfl

theorem setRange_refused (h : bm.shape.Refuses start num) :
    ∃ e, bm.setRange bal start num inp = .error e := by
  obtain ⟨r, hr, hne⟩ := h
  cases bm with
  | rb c bmapStart bmapEnd bp => cases hr
  | ba c bmapStart bmapEnd b => cases hr
  | legacy bmapStart bmapEnd realEnd b =>
    obtain rfl : realEnd = r := BitmapKind.old.inj hr
    change BlockBitmap.oldRangeCheck bmapStart realEnd start num ≠ .ok () at hne
    rw [BlockBitmap.setRange]
    cases hcheck : BlockBitmap.oldRangeCheck bmapStart realEnd start num with
    | error e => exact ⟨e, rfl⟩
    | ok u => exact absurd hcheck hne

/-- Ranges that are put at different places can be set in either order. -/
theorem imported_comm {start' num' : ℕ} {inp' : Block} (f : ℕ → Bool)
    (h : sh.place start + sh.width num ≤ sh.place start' ∨
      sh.place start' + sh.width num' ≤ sh.place start) :
    sh.imported start' num' inp' (sh.imported start num inp f) =
      sh.imported start num inp (sh.imported start' num' inp' f) := by
  funext n
  rw [BitShape.imported, BitShape.imported, BitShape.imported, BitShape.imported]
  split_ifs <;> first | rfl | omega

/-! ### Getting a range -/

/-- What a buffer holds once a range has been got. -/
structure Exported (bm : BlockBitmap) (sh : BitShape) (start num : ℕ) (out out' : Block) :
    Prop where
  bits : ¬bm.Empty → ∀ j, j < num → bitAt out' j = bm.bits (sh.place start + j)
  empty : bm.Empty → out' = out
  behind : ∀ j, 8 * ((num + 7) / 8) ≤ j → bitAt out' j = bitAt out j

/-- **Getting a range**, when it is not refused. -/
theorem getRange_ok (hbal : ∀ t l, (bal t l).inorder = l) (hreach : bm.TreeReachable bal)
    (hsh : bm.shape = sh) (hsmall : num < 2 ^ 31) (hgood : ¬sh.Refuses start num) :
    ∃ out', bm.getRange start num out = .ok out' ∧ Exported bm sh start num out out' := by
  subst hsh
  cases bm with
  | rb c bmapStart bmapEnd bp =>
    have hok := RbReachable.ok hbal hreach
    rw [BlockBitmap.getRange]
    by_cases hempty : bp.nodes = []
    · rw [rbGetRange_of_empty hempty]
      exact ⟨out, rfl, fun hne => absurd hempty hne, fun _ => rfl, fun _ _ => rfl⟩
    obtain ⟨out', hout, hbits, hbehind⟩ :=
      @rbGetRange_spec bp out bmapStart start num hok hempty hsmall
    rw [hout]
    refine ⟨out', rfl, fun _ j hj => ?_, fun h => absurd h hempty, hbehind⟩
    rw [Bool.eq_iff_iff, hbits j hj]
    show _ ↔ rbTest bmapStart bp (bmapStart + (start - bmapStart + j)) = true
    rw [rbTest_iff hok, Nat.add_sub_cancel_left]
  | ba c bmapStart bmapEnd b =>
    refine ⟨_, rfl, fun _ j hj => bitAt_baGetRange hj, fun hempty => hempty.elim, fun j hj => ?_⟩
    rw [baGetRange, bitAt_memcpy, if_neg (by omega)]
  | legacy bmapStart bmapEnd realEnd b =>
    have hcheck : BlockBitmap.oldRangeCheck bmapStart realEnd start num = .ok () :=
      not_not.mp fun hne => hgood ⟨realEnd, rfl, hne⟩
    refine ⟨memcpy out 0 (fromPos b ((start - bmapStart) / 8)) ((num + 7) / 8), ?_,
      fun _ j hj => ?_, fun hempty => hempty.elim, fun j hj => ?_⟩
    · rw [BlockBitmap.getRange, hcheck]
      rfl
    · rw [bitAt_memcpy, if_pos (by omega), bitAt, fromPos]
      show _ = bitAt b (8 * ((start - bmapStart) / 8) + j)
      rw [bitAt, show (j - 8 * 0) / 8 = j / 8 by omega, show (j - 8 * 0) % 8 = j % 8 by omega,
        show (8 * ((start - bmapStart) / 8) + j) / 8 = (start - bmapStart) / 8 + j / 8 by omega,
        show (8 * ((start - bmapStart) / 8) + j) % 8 = j % 8 by omega]
    · rw [bitAt_memcpy, if_neg (by omega)]

end Picture

end E2fsprogs
