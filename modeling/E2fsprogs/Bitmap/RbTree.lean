import E2fsprogs.Lib.SearchTree

/-!
# The bitmap that is a tree of extents

`lib/ext2fs/blkmap64_rb.c`. The runs of set bits are the nodes of a red-black tree, and three
cursors remember nodes between calls: `wcursor` the one that was inserted last, `rcursor` the one in
which the last test found its bit, and `rcursor_next` the one behind that.

A node is known by its address (`E2fsprogs.RbExtent.id`). What `ext2fs_rb_insert_color` and
`ext2fs_rb_erase` make of the shape of a tree is not part of the model: it is a function of the old
tree and of the sequence of nodes that is wanted (`bal`), and a search follows whatever shape comes
out. Bits are counted from the start of the bitmap. They stay below the real end, and so does where
a run ends, so that the arithmetic is that of natural numbers.
-/

namespace E2fsprogs

/-- `struct bmap_rb_extent`, with its address. -/
structure RbExtent where
  id : ℕ
  start : ℕ
  count : ℕ
  deriving DecidableEq

/-- `ext->start + ext->count`. -/
def RbExtent.stop (x : RbExtent) : ℕ := x.start + x.count

/-- `struct ext2fs_rb_private`. New nodes get the address `fresh`. -/
structure RbPrivate where
  tree : SearchTree RbExtent
  wcursor : Option ℕ
  rcursor : Option ℕ
  rcursorNext : Option ℕ
  fresh : ℕ

/-- `rb_new_bmap`. -/
def RbPrivate.empty : RbPrivate := ⟨.leaf, none, none, none, 0⟩

namespace RbPrivate

/-- The nodes in order. -/
def nodes (bp : RbPrivate) : List RbExtent := bp.tree.inorder

/-- The node at an address. -/
def node (bp : RbPrivate) (id : ℕ) : Option RbExtent := bp.nodes.find? fun x => x.id = id

/-- A node and those that `ext2fs_rb_next` leads to from it. -/
def onward (bp : RbPrivate) (id : ℕ) : List RbExtent := bp.nodes.dropWhile fun x => x.id ≠ id

/-- The nodes that `ext2fs_rb_next` leads to from a node. -/
def behind (bp : RbPrivate) (id : ℕ) : List RbExtent := (bp.onward id).tail

/-- `ext2fs_rb_prev`. -/
def prev (bp : RbPrivate) (id : ℕ) : Option RbExtent :=
  (bp.nodes.takeWhile fun x => x.id ≠ id).getLast?

/-- The fields of a node are written. -/
def setExtent (bp : RbPrivate) (id start count : ℕ) : RbPrivate :=
  { bp with tree := bp.tree.map fun x => if x.id = id then ⟨id, start, count⟩ else x }

/-- `rb_free_extent`. -/
def freeExtent (bp : RbPrivate) (id : ℕ) : RbPrivate :=
  { bp with
    wcursor := if bp.wcursor = some id then none else bp.wcursor
    rcursor := if bp.rcursor = some id then none else bp.rcursor
    rcursorNext := if bp.rcursorNext = some id then none else bp.rcursorNext }

end RbPrivate

/-- Where a bit is, seen from a run. -/
def cmpWithin (bit : ℕ) (x : RbExtent) : Ordering :=
  if bit < x.start then .lt else if x.stop ≤ bit then .gt else .eq

/-- The same, when a run may be lengthened. -/
def cmpTouch (bit : ℕ) (x : RbExtent) : Ordering :=
  if bit < x.start then .lt else if x.stop < bit then .gt else .eq

section Operations

-- how a tree is balanced
variable (bal : SearchTree RbExtent → List RbExtent → SearchTree RbExtent)

/-- `ext2fs_rb_erase`, and then `rb_free_extent`. -/
def RbPrivate.erase (bp : RbPrivate) (id : ℕ) : RbPrivate :=
  { bp with tree := bal bp.tree (bp.nodes.filter fun x => x.id ≠ id) }.freeExtent id

/-! ### Marking -/

/-- Merge with the nodes to the right: the loop at `skip_insert`. The result is the new count. -/
def rbMerge (start : ℕ) : List RbExtent → ℕ → RbPrivate → ℕ × RbPrivate
  | [], count, bp => (count, bp)
  | ext :: nodes, count, bp =>
    if ext.stop ≤ start then rbMerge start nodes count bp
    else if start + count < ext.start then (count, bp)
    else if ext.stop ≤ start + count then rbMerge start nodes count (bp.erase bal ext.id)
    else (count + (ext.stop - (start + count)), bp.erase bal ext.id)

/-- From `got_extent` on. -/
def rbGrow (start count : ℕ) (ext : RbExtent) (bp : RbPrivate) : Bool × RbPrivate :=
  if start + count ≤ ext.stop then (true, bp)
  else
    let r := rbMerge bal ext.start (bp.behind ext.id) (count + (start - ext.start)) bp
    (decide (ext.stop ≠ start), r.2.setExtent ext.id ext.start r.1)

/-- Merge a new node with the node to the left. -/
def rbMergeLeft (id start count : ℕ) (bp : RbPrivate) : ℕ × ℕ × RbPrivate :=
  match bp.prev id with
  | some ext => if ext.stop = start then (ext.start, count + ext.count, bp.erase bal ext.id)
    else (start, count, bp)
  | none => (start, count, bp)

/-- A new node is linked. -/
def rbAdd (start count : ℕ) (bp : RbPrivate) : RbPrivate :=
  let id := bp.fresh
  let bp : RbPrivate := { bp with
    tree := bal bp.tree (bp.tree.link (cmpTouch start) ⟨id, start, count⟩).inorder
    wcursor := some id
    fresh := id + 1 }
  let l := rbMergeLeft bal id start count bp
  let r := rbMerge bal l.1 (l.2.2.behind id) l.2.1 l.2.2
  r.2.setExtent id l.1 r.1

/-- The node of `wcursor`, if the run can be added to it. -/
def rbWriteHit (start : ℕ) (bp : RbPrivate) : Option RbExtent :=
  (bp.wcursor.bind bp.node).filter fun ext => ext.start ≤ start ∧ start ≤ ext.stop

/-- `rb_insert_extent`. -/
def rbInsertExtent (start count : ℕ) (bp : RbPrivate) : Bool × RbPrivate :=
  if count = 0 then (false, bp)
  else
    let bp := { bp with rcursorNext := none }
    match rbWriteHit start bp with
    | some ext => rbGrow bal start count ext bp
    | none =>
      match (bp.tree.find (cmpTouch start) none).1 with
      | some ext => rbGrow bal start count ext bp
      | none => (false, rbAdd bal start count bp)

/-! ### Unmarking -/

/-- Delete or truncate the nodes to the right: the loop at the end of `rb_remove_extent`. -/
def rbCut (start count : ℕ) : List RbExtent → Bool → RbPrivate → Bool × RbPrivate
  | [], retval, bp => (retval, bp)
  | ext :: nodes, retval, bp =>
    if ext.stop ≤ start then rbCut start count nodes retval bp
    else if start + count < ext.start then (retval, bp)
    else if ext.stop ≤ start + count then rbCut start count nodes true (bp.erase bal ext.id)
    else (true, bp.setExtent ext.id (start + count) (ext.count - (start + count - ext.start)))

/-- The loop at the end of `rb_remove_extent`, from the last node of a search on. -/
def rbCutFrom (start count : ℕ) (parent : Option RbExtent) (retval : Bool) (bp : RbPrivate) :
    Bool × RbPrivate :=
  match parent with
  | none => (retval, bp)
  | some x => rbCut bal start count (bp.onward x.id) retval bp

/-- `rb_remove_extent`. -/
def rbRemoveExtent (start count : ℕ) (bp : RbPrivate) : Bool × RbPrivate :=
  match bp.tree.find (cmpWithin start) none with
  | (none, parent) => rbCutFrom bal start count parent false bp
  | (some ext, _) =>
    if ext.start < start ∧ start + count < ext.stop then
      let bp := bp.setExtent ext.id ext.start (start - ext.start)
      (true, (rbInsertExtent bal (start + count) (ext.stop - (start + count)) bp).2)
    else if ext.stop ≤ start + count then
      let behind := bp.behind ext.id
      let bp := bp.setExtent ext.id ext.start (start - ext.start)
      if start - ext.start = 0 then rbCut bal start count behind true (bp.erase bal ext.id)
      else
        -- the search goes on from this node, which a search from the root comes back to
        rbCutFrom bal start count (bp.tree.find (cmpWithin start) none).2 true bp
    else (true, bp.setExtent ext.id (ext.start + count) (ext.count - count))

/-! ### Testing -/

/-- From `search_tree` on. -/
def rbSearch (bit : ℕ) (bp : RbPrivate) : Bool × RbPrivate :=
  match (bp.tree.find (cmpWithin bit) none).1 with
  | some ext => (true, { bp with rcursor := some ext.id, rcursorNext := none })
  | none => (false, bp)

/-- The node behind the one of `rcursor`, which `rcursor_next` may remember. -/
def rbReadNext (bp : RbPrivate) (rcursor : RbExtent) : Option RbExtent :=
  match bp.rcursorNext.bind bp.node with
  | some x => some x
  | none => (bp.behind rcursor.id).head?

/-- From the place on where the read cursors are dropped. -/
def rbTestWrite (bit : ℕ) (bp : RbPrivate) : Bool × RbPrivate :=
  match bp.wcursor.bind bp.node with
  | none => rbSearch bit bp
  | some wcursor => if wcursor.start ≤ bit ∧ bit < wcursor.stop then (true, bp) else rbSearch bit bp

/-- `rb_test_bit`. -/
def rbTestBit (bit : ℕ) (bp : RbPrivate) : Bool × RbPrivate :=
  match bp.rcursor.bind bp.node with
  | none => rbSearch bit bp
  | some rcursor =>
    if rcursor.start ≤ bit ∧ bit < rcursor.stop then (true, bp)
    else
      let next := rbReadNext bp rcursor
      if (next.any fun x => rcursor.stop ≤ bit ∧ bit < x.start) = true then
        (false, { bp with rcursorNext := next.map RbExtent.id })
      else rbTestWrite bit { bp with rcursor := none, rcursorNext := none }

/-- The loop at the end of `rb_test_clear_bmap_extent`. -/
def rbClearFrom (start len : ℕ) : List RbExtent → Bool
  | [] => true
  | ext :: nodes =>
    if ext.stop ≤ start then rbClearFrom start len nodes
    else decide (start + len ≤ ext.start)

/-- `rb_test_clear_bmap_extent`. -/
def rbTestClear (start len : ℕ) (bp : RbPrivate) : Bool :=
  if len = 0 then true
  else match bp.tree.find (cmpWithin start) none with
    | (some _, _) => false
    | (none, none) => true
    | (none, some parent) => rbClearFrom start len (bp.onward parent.id)

/-! ### Copying and cutting off -/

/-- `rb_clear_bmap`. -/
def rbClear (bp : RbPrivate) : RbPrivate :=
  { bp with tree := .leaf, wcursor := none, rcursor := none, rcursorNext := none }

/-- The nodes of a copy, one after the other behind the last. -/
def rbCopyNodes : List RbExtent → RbPrivate → RbPrivate
  | [], bp => bp
  | x :: nodes, bp =>
    rbCopyNodes nodes { bp with
      tree := bal bp.tree (bp.nodes ++ [⟨bp.fresh, x.start, x.count⟩])
      fresh := bp.fresh + 1 }

/-- `rb_copy_bmap`: the source, which loses its cursor, and the copy. -/
def rbCopy (bp : RbPrivate) : RbPrivate × RbPrivate :=
  ({ bp with rcursor := none }, rbCopyNodes bal bp.nodes RbPrivate.empty)

/-! ### Resizing -/

/-- `ext2fs_rb_erase`, after which the memory is freed. -/
def RbPrivate.unlink (bp : RbPrivate) (id : ℕ) : RbPrivate :=
  { bp with tree := bal bp.tree (bp.nodes.filter fun x => x.id ≠ id) }

/-- The loop of `rb_truncate`, over the nodes from the last one back. -/
def rbTruncateNodes (newMax : ℕ) : List RbExtent → RbPrivate → RbPrivate
  | [], bp => bp
  | ext :: nodes, bp =>
    if ext.stop - 1 ≤ newMax then bp
    else if newMax < ext.start then rbTruncateNodes newMax nodes (bp.unlink bal ext.id)
    else bp.setExtent ext.id ext.start (newMax - ext.start + 1)

/-- `rb_truncate`. -/
def rbTruncate (newMax : ℕ) (bp : RbPrivate) : RbPrivate :=
  rbTruncateNodes bal newMax bp.nodes.reverse bp

/-- `rb_resize_bmap`, for a bitmap from `start` to `oldEnd`. The padding up to the real end is
set. -/
def rbResize (start oldEnd newEnd newRealEnd : ℕ) (bp : RbPrivate) : RbPrivate :=
  let bp := { bp with rcursor := none, wcursor := none }
  let bp := rbTruncate bal ((if newEnd < oldEnd then newEnd else oldEnd) - start) bp
  if newEnd < newRealEnd then (rbInsertExtent bal (newEnd + 1 - start) (newRealEnd - newEnd) bp).2
  else bp

end Operations

end E2fsprogs
