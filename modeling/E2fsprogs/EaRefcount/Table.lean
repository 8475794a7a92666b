import E2fsprogs.Icount.Map

/-!
# The reference counts of extended attributes

`e2fsck/ea_refcount.c`. A table of counts, sorted by key, with a cursor that remembers where
the last lookup ended. An entry whose count has dropped to zero stays until the table is full;
then all of them are thrown out, which may make room where the table would have to grow.

As for the inode counts, the list is `list[0 .. count)`, a pointer to an entry is its position,
and `int` positions are integers: an access outside the list and an overflow of an `int` are
`E2fsprogs.IcErr.undefined`.
-/

namespace E2fsprogs

open SortedList

/-- `struct ea_refcount_el`. -/
structure EaRefcountEl where
  eaKey : ℕ
  eaValue : ℕ
  deriving DecidableEq, Repr

/-- `struct ea_refcount`. -/
structure EaRefcount where
  size : ℕ
  cursor : ℕ
  list : List EaRefcountEl
  deriving DecidableEq, Repr

/-- `ea_refcount_create`. -/
def eaRefcountCreate (size : ℕ) : EaRefcount := ⟨if size = 0 then 500 else size, 0, []⟩

/-! ### The sorted list -/

/-- `refcount_collapse`. -/
def refcountCollapse (refcount : EaRefcount) : EaRefcount :=
  { refcount with list := refcount.list.filter fun el => el.eaValue ≠ 0 }

/-- `insert_refcount_el`. `mem` is whether `ext2fs_resize_mem` has that many bytes. -/
def insertRefcountEl (mem : ℕ → Bool) (refcount : EaRefcount) (eaKey : ℕ) (pos : ℤ) :
    ElPtr × EaRefcount :=
  let newSize := refcount.size + 100
  if refcount.size ≤ refcount.list.length ∧ mem (newSize * 16) = false then (.null, refcount)
  else
    let refcount :=
      if refcount.size ≤ refcount.list.length then { refcount with size := newSize } else refcount
    if toInt refcount.list.length - pos < -2 ^ 31 then (.undef, refcount)
    else if toInt refcount.list.length < pos then (.null, refcount)
    else if pos < 0 then (.undef, refcount)
    else (.el pos.toNat, { refcount with
      list := insertAt refcount.list pos.toNat ⟨eaKey, 0⟩ })

/-- The entry at an `int` position. -/
def refcountElAt (l : List EaRefcountEl) (pos : ℤ) : Option EaRefcountEl :=
  if 0 ≤ pos then l[pos.toNat]? else none

/-- The loop of `get_refcount_el`. Here the sum of the positions is an `int`. -/
def searchRefcountEl (l : List EaRefcountEl) (eaKey : ℕ) : ℕ → ℤ → ℤ → Option ElSearch
  | 0, _, _ => none
  | fuel + 1, low, high =>
    if low ≤ high then
      if low + high < 2 ^ 31 then
        let mid := (low + high).tdiv 2
        match refcountElAt l mid with
        | none => none
        | some el =>
          if eaKey = el.eaKey then some (.found mid)
          else if eaKey < el.eaKey then searchRefcountEl l eaKey fuel low (mid - 1)
          else searchRefcountEl l eaKey fuel (mid + 1) high
      else none
    else some (.missing low)

/-- An entry is put behind the last one. -/
def appendRefcountEl (mem : ℕ → Bool) (refcount : EaRefcount) (eaKey : ℕ) : ElPtr × EaRefcount :=
  let refcount :=
    if refcount.size ≤ refcount.list.length then refcountCollapse refcount else refcount
  insertRefcountEl mem refcount eaKey (toInt refcount.list.length)

/-- The part of `get_refcount_el` that looks the key up: at the cursor, and in the list. -/
def lookupRefcountEl (refcount : EaRefcount) (eaKey : ℕ) (high : ℤ) :
    Option ElSearch × EaRefcount :=
  let refcount :=
    if refcount.list.length ≤ refcount.cursor then { refcount with cursor := 0 } else refcount
  if (refcount.list[refcount.cursor]?).map EaRefcountEl.eaKey = some eaKey then
    (some (.found refcount.cursor), { refcount with cursor := refcount.cursor + 1 })
  else
    match searchRefcountEl refcount.list eaKey (refcount.list.length + 1) 0 high with
    | some (.found mid) => (some (.found mid), { refcount with cursor := mid.toNat + 1 })
    | r => (r, refcount)

/-- `get_refcount_el`. It is retried once at most, when the table has been collapsed. -/
def getRefcountEl (mem : ℕ → Bool) (eaKey : ℕ) (create : Bool) : ℕ → EaRefcount → ElPtr × EaRefcount
  | 0, refcount => (.undef, refcount)
  | tries + 1, refcount =>
    let high := toInt refcount.list.length - 1
    if high < -2 ^ 31 then (.undef, refcount)
    else if create ∧ refcount.list ≠ [] ∧ refcountElAt refcount.list high = none then
      (.undef, refcount)
    else if create ∧ ∀ last ∈ refcountElAt refcount.list high, last.eaKey < eaKey then
      appendRefcountEl mem refcount eaKey
    else if refcount.list = [] then (.null, refcount)
    else
      match lookupRefcountEl refcount eaKey high with
      | (none, refcount) => (.undef, refcount)
      | (some (.found mid), refcount) => (.el mid.toNat, refcount)
      | (some (.missing low), refcount) =>
        if create = false then (.null, refcount)
        else if refcount.size ≤ refcount.list.length then
          let refcount := refcountCollapse refcount
          if refcount.list.length < refcount.size then getRefcountEl mem eaKey create tries refcount
          else insertRefcountEl mem refcount eaKey low
        else insertRefcountEl mem refcount eaKey low

/-! ### The operations -/

/-- A call of the interface. -/
inductive RcOp
  | fetch (eaKey : ℕ)
  | increment (eaKey : ℕ)
  | decrement (eaKey : ℕ)
  | store (eaKey eaValue : ℕ)

/-- The value of an entry is read, and changed by `f`. -/
def EaRefcount.modify (refcount : EaRefcount) (i : ℕ) (f : ℕ → ℕ) : EaRefcount :=
  { refcount with list := refcount.list.modify i fun el => { el with eaValue := f el.eaValue } }

/-- The value of the entry at a position. -/
def EaRefcount.valueAt (refcount : EaRefcount) (i : ℕ) : ℕ :=
  (refcount.list[i]?.map EaRefcountEl.eaValue).getD 0

/-- `ea_refcount_fetch`. -/
def eaRefcountFetch (mem : ℕ → Bool) (refcount : EaRefcount) (eaKey : ℕ) :
    Except IcErr ℕ × EaRefcount :=
  match getRefcountEl mem eaKey false 2 refcount with
  | (.undef, refcount) => (.error .undefined, refcount)
  | (.null, refcount) => (.ok 0, refcount)
  | (.el i, refcount) => (.ok (refcount.valueAt i), refcount)

/-- `ea_refcount_increment`. -/
def eaRefcountIncrement (mem : ℕ → Bool) (refcount : EaRefcount) (eaKey : ℕ) :
    Except IcErr ℕ × EaRefcount :=
  match getRefcountEl mem eaKey true 2 refcount with
  | (.undef, refcount) => (.error .undefined, refcount)
  | (.null, refcount) => (.error .noMemory, refcount)
  | (.el i, refcount) =>
    (.ok ((refcount.valueAt i + 1) % 2 ^ 64), refcount.modify i fun v => (v + 1) % 2 ^ 64)

/-- `ea_refcount_decrement`. -/
def eaRefcountDecrement (mem : ℕ → Bool) (refcount : EaRefcount) (eaKey : ℕ) :
    Except IcErr ℕ × EaRefcount :=
  match getRefcountEl mem eaKey false 2 refcount with
  | (.undef, refcount) => (.error .undefined, refcount)
  | (.null, refcount) => (.error .invalidArgument, refcount)
  | (.el i, refcount) =>
    if refcount.valueAt i = 0 then (.error .invalidArgument, refcount)
    else (.ok (refcount.valueAt i - 1), refcount.modify i fun v => v - 1)

/-- `ea_refcount_store`. -/
def eaRefcountStore (mem : ℕ → Bool) (refcount : EaRefcount) (eaKey eaValue : ℕ) :
    Except IcErr ℕ × EaRefcount :=
  match getRefcountEl mem eaKey (eaValue ≠ 0) 2 refcount with
  | (.undef, refcount) => (.error .undefined, refcount)
  | (.null, refcount) => (if eaValue ≠ 0 then .error .noMemory else .ok 0, refcount)
  | (.el i, refcount) => (.ok 0, refcount.modify i fun _ => eaValue)

/-- A call. -/
def EaRefcount.step (refcount : EaRefcount) (mem : ℕ → Bool) : RcOp → Except IcErr ℕ × EaRefcount
  | .fetch eaKey => eaRefcountFetch mem refcount eaKey
  | .increment eaKey => eaRefcountIncrement mem refcount eaKey
  | .decrement eaKey => eaRefcountDecrement mem refcount eaKey
  | .store eaKey eaValue => eaRefcountStore mem refcount eaKey eaValue

/-- `ea_refcount_intr_begin`. -/
def eaRefcountIntrBegin (refcount : EaRefcount) : EaRefcount := { refcount with cursor := 0 }

/-- The loop of `ea_refcount_intr_next`: the key, zero at the end, and what is stored in
`*ret`, if anything. The fuel is the number of entries from the cursor on. -/
def intrLoop : ℕ → EaRefcount → (ℕ × Option ℕ) × EaRefcount
  | 0, refcount => ((0, none), refcount)
  | n + 1, refcount =>
    match refcount.list[refcount.cursor]? with
    | none => ((0, none), refcount)
    | some el =>
      let next := { refcount with cursor := refcount.cursor + 1 }
      if el.eaValue ≠ 0 then ((el.eaKey, some el.eaValue), next) else intrLoop n next

/-- `ea_refcount_intr_next`. -/
def eaRefcountIntrNext (refcount : EaRefcount) : (ℕ × Option ℕ) × EaRefcount :=
  intrLoop (refcount.list.length - refcount.cursor) refcount

/-- What so many calls of `ea_refcount_intr_next` return. -/
def intrCalls : ℕ → EaRefcount → List (ℕ × Option ℕ)
  | 0, _ => []
  | n + 1, refcount =>
    (eaRefcountIntrNext refcount).1 :: intrCalls n (eaRefcountIntrNext refcount).2

end E2fsprogs
