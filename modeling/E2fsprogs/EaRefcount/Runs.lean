import E2fsprogs.EaRefcount.Map

/-!
# Runs of the table of reference counts

A run of calls on a new table answers as a plain map does, and the keys with a count can be
gone through in ascending order after each call (`E2fsprogs.RcAnswersAs`), as long as the table
has at most `2 ^ 30` entries before each call. In a longer one the search for the last key
comes to two positions whose sum is not an `int` (`E2fsprogs.fetch_last_undefined`).
-/

namespace E2fsprogs

open SortedList

/-- A call, and the memory there is for it. -/
structure RcCall where
  mem : ℕ → Bool
  op : RcOp

/-- The map after a call: a call that had no memory leaves it. -/
def rcMapAfter (m : ℕ → ℕ) (op : RcOp) (r : Except IcErr ℕ) : ℕ → ℕ :=
  if r = .error .noMemory then m else (rcMapStep m op).2

/-- The table has at most `2 ^ 30` entries before each call. -/
def TableStays (refcount : EaRefcount) : List RcCall → Prop
  | [] => True
  | c :: cs => refcount.list.length ≤ 2 ^ 30 ∧ TableStays (refcount.step c.mem c.op).2 cs

/-- **Iterating** returns the keys with a count in ascending order, with their counts, and
then zero. -/
def Iterates (refcount : EaRefcount) (m : ℕ → ℕ) : Prop :=
  ∃ keys : List ℕ, keys.Pairwise (· < ·) ∧ (∀ k, k ∈ keys ↔ m k ≠ 0) ∧
    ∀ n, intrCalls n (eaRefcountIntrBegin refcount) =
      ((keys.map fun k => (k, some (m k))) ++ List.replicate n (0, none)).take n

/-- **The table answers as the map does.** Each call returns what it returns on the map, or
`EXT2_ET_NO_MEMORY` where memory is refused, and leaves the list strictly sorted by key. -/
def RcAnswersAs (refcount : EaRefcount) (m : ℕ → ℕ) : List RcCall → Prop
  | [] => True
  | c :: cs =>
    let r := refcount.step c.mem c.op
    (r.1 = (rcMapStep m c.op).1 ∨ r.1 = .error .noMemory ∧ Denies c.mem) ∧
      r.2.list.Pairwise (fun a b => a.eaKey < b.eaKey) ∧ Iterates r.2 (rcMapAfter m c.op r.1) ∧
      RcAnswersAs r.2 (rcMapAfter m c.op r.1) cs

section Run

variable {refcount : EaRefcount}

theorem eaRefcountCreate_ok (size : ℕ) : (eaRefcountCreate size).Ok :=
  ⟨List.Pairwise.nil, Nat.zero_le _⟩

theorem eaRefcountCreate_value (size : ℕ) : (eaRefcountCreate size).value = fun _ => 0 := rfl

theorem EaRefcount.Ok.iterates (h : refcount.Ok) : Iterates refcount refcount.value := by
  obtain ⟨l, hl⟩ : ∃ l, l = intrLeft (eaRefcountIntrBegin refcount) := ⟨_, rfl⟩
  have hsub : l.Sublist refcount.list := hl ▸ List.filter_sublist
  have hval : ∀ el ∈ l, el.eaValue = refcount.value el.eaKey := by
    intro el hel
    obtain ⟨i, hi⟩ := List.mem_iff_getElem?.mp (hsub.subset hel)
    exact (valueIn_eq h.sorted hi).symm
  refine ⟨l.map EaRefcountEl.eaKey, List.pairwise_map.mpr (h.sorted.sublist hsub), fun k => ?_,
    fun n => ?_⟩
  · rw [List.mem_map]
    constructor
    · rintro ⟨el, hel, rfl⟩
      rw [← hval el hel]
      rw [hl, intrLeft] at hel
      simpa using (List.mem_filter.mp hel).2
    · intro hk
      rcases hf : lookup EaRefcountEl.eaKey refcount.list k with _ | el
      · refine absurd ?_ hk
        rw [EaRefcount.value, valueIn, hf]
        rfl
      · have hkey : el.eaKey = k := by simpa using List.find?_some hf
        have hne : el.eaValue ≠ 0 := by
          rw [EaRefcount.value, valueIn, hf] at hk
          exact hk
        refine ⟨el, ?_, hkey⟩
        rw [hl, intrLeft]
        exact List.mem_filter.mpr ⟨List.mem_of_find?_eq_some hf, by simpa using hne⟩
  · rw [intrCalls_spec, ← hl, List.map_map]
    congr 2
    refine List.map_congr_left fun el hel => ?_
    rw [Function.comp_apply, hval el hel]

theorem rcMapStep_ne_noMemory (m : ℕ → ℕ) (op : RcOp) : (rcMapStep m op).1 ≠ .error .noMemory := by
  cases op with
  | fetch eaKey => simp [rcMapStep]
  | increment eaKey => simp [rcMapStep]
  | decrement eaKey =>
    rw [rcMapStep]
    split
    · simp
    · simp
  | store eaKey eaValue => simp [rcMapStep]

theorem rcAnswersAs_of_ok (cs : List RcCall) : ∀ {refcount : EaRefcount}, refcount.Ok →
    TableStays refcount cs → RcAnswersAs refcount refcount.value cs := by
  induction cs with
  | nil => exact fun _ _ => trivial
  | cons c cs ih =>
    intro refcount hok ⟨hlen, hstays⟩
    have h := EaRefcount.step_spec c.mem c.op hok hlen
    have hvalue : (refcount.step c.mem c.op).2.value =
        rcMapAfter refcount.value c.op (refcount.step c.mem c.op).1 := by
      rw [rcMapAfter]
      rcases h.result with ⟨h1, -, h2⟩ | ⟨h1, h2⟩
      · rw [if_pos h1, h2]
      · rw [if_neg (h1 ▸ rcMapStep_ne_noMemory _ _), h2]
    refine ⟨?_, h.ok.sorted, ?_, ?_⟩
    · rcases h.result with ⟨h1, h2, -⟩ | ⟨h1, -⟩
      · exact Or.inr ⟨h1, h2⟩
      · exact Or.inl h1
    · rw [← hvalue]
      exact h.ok.iterates
    · rw [← hvalue]
      exact ih h.ok hstays

end Run

/-- **The table of reference counts is a map** with ordered iteration. -/
theorem eaRefcount_answersAs (size : ℕ) {cs : List RcCall}
    (hstays : TableStays (eaRefcountCreate size) cs) :
    RcAnswersAs (eaRefcountCreate size) (fun _ => 0) cs := by
  rw [← eaRefcountCreate_value size]
  exact rcAnswersAs_of_ok cs (eaRefcountCreate_ok size) hstays

/-- A table with room for two entries, of which one is thrown out when a third is stored. -/
theorem eaRefcount_answersAs_collapse : RcAnswersAs (eaRefcountCreate 2) (fun _ => 0)
    ([.store 3 3, .increment 7, .decrement 7, .decrement 7, .store 5 1, .fetch 3].map
      (⟨fun _ => true, ·⟩)) :=
  eaRefcount_answersAs 2 ⟨by decide, by decide, by decide, by decide, by decide, by decide, trivial⟩

/-! ### More entries than an `int` adds up -/

section Many

variable {refcount : EaRefcount} {l : List EaRefcountEl} {el : EaRefcountEl} {n : ℕ}

/-- The search for the last key goes to the right, until the sum is not an `int`. -/
theorem searchRefcountEl_last (hs : Sorted EaRefcountEl.eaKey l) (hn : l.length = n + 1)
    (hel : l[n]? = some el) (hlarge : 2 ^ 30 ≤ n) (fuel : ℕ) :
    ∀ low : ℕ, low ≤ n → searchRefcountEl l el.eaKey fuel low n = none := by
  induction fuel with
  | zero => exact fun _ _ => rfl
  | succ fuel ih =>
    intro low hlow
    rw [searchRefcountEl, if_pos (by omega)]
    split
    · next hsum =>
      have hmid : ((low : ℤ) + (n : ℕ)).tdiv 2 = ((low + n) / 2 : ℕ) := by
        rw [Int.tdiv_eq_ediv_of_nonneg (by omega)]
        omega
      rw [hmid]
      dsimp only
      rw [refcountElAt_natCast]
      have hget : l[(low + n) / 2]? = some (l.get ⟨(low + n) / 2, by omega⟩) :=
        List.getElem?_eq_getElem _
      have hlt : (l.get ⟨(low + n) / 2, by omega⟩).eaKey < el.eaKey := by
        obtain ⟨hnl, rfl⟩ := List.getElem?_eq_some_iff.mp hel
        exact List.pairwise_iff_getElem.mp hs _ _ _ hnl (by omega)
      generalize l.get ⟨(low + n) / 2, _⟩ = mid at hget hlt
      rw [hget]
      simp only
      rw [if_neg hlt.ne', if_neg (by omega)]
      exact ih ((low + n) / 2 + 1) (by omega)
    · rfl

/-- **In a table of more than `2 ^ 30` entries** the last key is found at the cursor only. -/
theorem fetch_last_undefined (mem : ℕ → Bool) (hs : Sorted EaRefcountEl.eaKey refcount.list)
    (hn : refcount.list.length = n + 1) (hel : refcount.list[n]? = some el) (hlarge : 2 ^ 30 ≤ n)
    (hint : n < 2 ^ 31 - 1) (hcursor : refcount.cursor < n) :
    (refcount.step mem (.fetch el.eaKey)).1 = .error .undefined := by
  have hne : refcount.list ≠ [] := by
    rintro hnil
    rw [hnil] at hn
    cases hn
  have hhigh : toInt refcount.list.length - 1 = (n : ℕ) := by
    rw [toInt_of_lt (by omega)]
    omega
  have hat : ¬(refcount.list[refcount.cursor]?).map EaRefcountEl.eaKey = some el.eaKey := by
    obtain ⟨hnl, rfl⟩ := List.getElem?_eq_some_iff.mp hel
    rw [List.getElem?_eq_getElem (by omega), Option.map_some, Option.some.injEq]
    exact (List.pairwise_iff_getElem.mp hs _ _ _ hnl hcursor).ne
  have hlookup : lookupRefcountEl refcount el.eaKey n = (none, refcount) := by
    have hsearch :=
      searchRefcountEl_last hs hn hel hlarge (refcount.list.length + 1) 0 (Nat.zero_le _)
    rw [Nat.cast_zero] at hsearch
    have hin : ¬refcount.list.length ≤ refcount.cursor := by omega
    rw [lookupRefcountEl, if_neg hin, if_neg hat]
    generalize searchRefcountEl refcount.list el.eaKey (refcount.list.length + 1) 0 n =
      r at hsearch ⊢
    subst hsearch
    rfl
  rw [EaRefcount.step, eaRefcountFetch, getRefcountEl]
  dsimp only
  rw [hhigh, if_neg (by omega), if_neg (fun hc => by cases hc.1), if_neg (fun hc => by cases hc.1),
    if_neg hne, hlookup]

/-- A table with the keys up to `n`, each with a count of one. -/
structure CountsTo (n : ℕ) (refcount : EaRefcount) : Prop where
  list : refcount.list = (List.range' 1 n).map fun k => ⟨k, 1⟩
  cursor : refcount.cursor = 0

theorem CountsTo.length (h : CountsTo n refcount) : refcount.list.length = n := by
  rw [h.list, List.length_map, List.length_range']

theorem CountsTo.sorted (h : CountsTo n refcount) : Sorted EaRefcountEl.eaKey refcount.list := by
  rw [h.list, Sorted, List.pairwise_map]
  exact List.pairwise_lt_range'

theorem CountsTo.le (h : CountsTo n refcount) (hel : el ∈ refcount.list) : el.eaKey ≤ n := by
  rw [h.list, List.mem_map] at hel
  obtain ⟨k, hk, rfl⟩ := hel
  have := List.mem_range'_1.mp hk
  dsimp only
  omega

/-- None of the entries is thrown out. -/
theorem CountsTo.collapse (h : CountsTo n refcount) :
    (if refcount.size ≤ refcount.list.length then refcountCollapse refcount else refcount) =
      refcount := by
  have hkeep : refcount.list.filter (fun el => el.eaValue ≠ 0) = refcount.list := by
    rw [List.filter_eq_self, h.list]
    intro el hel
    obtain ⟨k, -, rfl⟩ := List.mem_map.mp hel
    rfl
  rw [refcountCollapse, hkeep]
  exact ite_self _

/-- Storing the next key. -/
theorem CountsTo.step (h : CountsTo n refcount) (hn : n < 2 ^ 31) :
    CountsTo (n + 1) (refcount.step (fun _ => true) (.store (n + 1) 1)).2 := by
  have hlen := h.length
  have hhigh : toInt refcount.list.length - 1 = (n : ℤ) - 1 := by rw [hlen, toInt_of_lt hn]
  have hlast : ∀ last ∈ refcountElAt refcount.list ((n : ℤ) - 1), last.eaKey < n + 1 := by
    intro last hmem
    rw [refcountElAt] at hmem
    split at hmem
    · exact Nat.lt_succ_of_le (h.le (List.mem_of_getElem? hmem))
    · cases hmem
  have hsome : refcount.list ≠ [] → refcountElAt refcount.list ((n : ℤ) - 1) ≠ none := by
    intro hne hnone
    have hpos := List.length_pos_iff.mpr hne
    rw [refcountElAt, if_pos (by omega), List.getElem?_eq_none_iff] at hnone
    omega
  have hget : ∃ size, getRefcountEl (fun _ => true) (n + 1) true 2 refcount =
      (.el n, ⟨size, refcount.cursor, insertAt refcount.list n ⟨n + 1, 0⟩⟩) := by
    have hgrow : ∃ size, (if refcount.size ≤ refcount.list.length then
        { refcount with size := refcount.size + 100 } else refcount) =
        { refcount with size := size } := by
      split
      · exact ⟨_, rfl⟩
      · exact ⟨refcount.size, rfl⟩
    obtain ⟨size, hgrow⟩ := hgrow
    refine ⟨size, ?_⟩
    rw [getRefcountEl]
    dsimp only
    rw [hhigh, if_neg (by omega), if_neg (fun hc => hsome hc.2.1 hc.2.2), if_pos ⟨rfl, hlast⟩,
      appendRefcountEl, h.collapse, hlen, toInt_of_lt hn, insertRefcountEl, if_neg (by simp), hgrow]
    dsimp only
    rw [hlen, toInt_of_lt hn, if_neg (by omega), if_neg (by omega), if_neg (by omega),
      Int.toNat_natCast]
  obtain ⟨size, hget⟩ := hget
  rw [EaRefcount.step, eaRefcountStore, show decide ((1 : ℕ) ≠ 0) = true from rfl, hget]
  refine ⟨?_, h.cursor⟩
  have hinsert : insertAt refcount.list n ⟨n + 1, 0⟩ = refcount.list ++ [⟨n + 1, 0⟩] := by
    rw [insertAt, List.take_of_length_le hlen.le, List.drop_of_length_le hlen.le]
  show (insertAt refcount.list n ⟨n + 1, 0⟩).modify n _ = _
  rw [List.modify_eq_set_getElem?, getElem?_insertAt hlen.ge, hinsert]
  show (refcount.list ++ [(⟨n + 1, 0⟩ : EaRefcountEl)]).set n ⟨n + 1, 1⟩ = _
  rw [List.set_append_right _ _ hlen.le, hlen, Nat.sub_self, h.list, List.range'_1_concat,
    List.map_append, Nat.add_comm 1 n]
  rfl

/-- Counts of one for `n` keys from `k` on, and then a fetch of the last of them. -/
def storesThenFetch (k n : ℕ) : List RcCall :=
  (List.range' k n).map (fun k => ⟨fun _ => true, .store k 1⟩) ++ [⟨fun _ => true,
    .fetch (2 ^ 30 + 1)⟩]

theorem not_answersAs_storesThenFetch (d : ℕ) : ∀ {n : ℕ} {refcount : EaRefcount} (m : ℕ → ℕ),
    n + d = 2 ^ 30 + 1 → CountsTo n refcount →
    ¬RcAnswersAs refcount m (storesThenFetch (n + 1) d) := by
  induction d with
  | zero =>
    intro n refcount m hn h hans
    obtain ⟨hr, -⟩ := hans
    have hel : refcount.list[2 ^ 30]? = some ⟨2 ^ 30 + 1, 1⟩ := by
      rw [h.list, List.getElem?_map, List.getElem?_range' (by omega), Option.map_some]
      congr 2
    have hundef := fetch_last_undefined (fun _ => true) h.sorted (h.length.trans hn) hel le_rfl
      (by norm_num) (by rw [h.cursor]; norm_num)
    rw [hundef] at hr
    rcases hr with hr | ⟨hr, -⟩
    · cases hr
    · cases hr
  | succ d ih =>
    intro n refcount m hn h hans
    obtain ⟨-, -, -, hrest⟩ := hans
    exact ih _ (by omega) (h.step (by omega)) hrest

end Many

/-- Storing counts for `2 ^ 30 + 1` keys, and fetching the last of them. -/
theorem manyKeys_not_answersAs :
    ¬RcAnswersAs (eaRefcountCreate 500) (fun _ => 0) (storesThenFetch 1 (2 ^ 30 + 1)) :=
  not_answersAs_storesThenFetch (2 ^ 30 + 1) _ (Nat.zero_add _) ⟨rfl, rfl⟩

end E2fsprogs
