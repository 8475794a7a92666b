import E2fsprogs.DirInfo.Table

/-!
# Runs of the directory information table

The table answers as a map from inode numbers to entries does (`E2fsprogs.dirInfoSet`), as
long as no more than `2 ^ 31 + 1` different directories are added. With one more the sum of the
two positions of the bisection is taken modulo `2 ^ 32`, and a lookup between the last two
entries goes round for ever (`E2fsprogs.not_returns_between_last`).
-/

namespace E2fsprogs

open SortedList

/-! ### The map -/

/-- A call that changes the table, or the pointer it remembers. -/
inductive DirInfoOp
  | add (moved : Bool) (ino parent : ℕ)
  | setParent (ino parent : ℕ)
  | setDotdot (ino dotdot : ℕ)
  | iter (i : ℕ)

/-- What a call does to the map. -/
def DirInfoOp.onMap (m : ℕ → Option DirInfo) : DirInfoOp → ℕ → Option DirInfo
  | .add _ ino parent => Function.update m ino (some ⟨ino, parent, parent⟩)
  | .setParent ino parent =>
    Function.update m ino ((m ino).map fun d => { d with parent := parent })
  | .setDotdot ino dotdot =>
    Function.update m ino ((m ino).map fun d => { d with dotdot := dotdot })
  | .iter _ => m

/-- What has last been set for each inode. -/
def dirInfoSet (ops : List DirInfoOp) : ℕ → Option DirInfo :=
  ops.foldl DirInfoOp.onMap fun _ => none

/-- The inode a call adds. -/
def DirInfoOp.added : DirInfoOp → Option ℕ
  | .add _ ino _ => some ino
  | .setParent _ _ => none
  | .setDotdot _ _ => none
  | .iter _ => none

/-- The inodes that are added. -/
def addedInodes (ops : List DirInfoOp) : Finset ℕ := (ops.filterMap DirInfoOp.added).toFinset

/-! ### Runs -/

/-- A call on the table. -/
def DirInfoStep (numDirs : ℕ) (ctx : Option DirInfoDb) : DirInfoOp → Option DirInfoDb → Prop
  | .add moved ino parent, ctx' =>
    ∃ db, e2fsckAddDirInfo numDirs moved ctx ino parent = some db ∧ ctx' = some db
  | .setParent ino parent, ctx' =>
    ∃ fuel r, e2fsckDirInfoSetParent ctx ino parent fuel = some (r, ctx')
  | .setDotdot ino dotdot, ctx' =>
    ∃ fuel r, e2fsckDirInfoSetDotdot ctx ino dotdot fuel = some (r, ctx')
  | .iter i, ctx' => (e2fsckDirInfoIter ctx i).2.1 = ctx'

/-- What calls in sequence lead to, from no table at all. -/
inductive DirInfoRun (numDirs : ℕ) : List DirInfoOp → Option DirInfoDb → Prop
  | start : DirInfoRun numDirs [] none
  | step {ops op ctx ctx'} : DirInfoRun numDirs ops ctx → DirInfoStep numDirs ctx op ctx' →
      DirInfoRun numDirs (ops ++ [op]) ctx'

/-- The loops of a call end, and it returns `a`. -/
def ComesTo {α : Type} (f : ℕ → Option α) (a : α) : Prop :=
  (∃ fuel, f fuel = some a) ∧ ∀ fuel b, f fuel = some b → b = a

/-- What a call that sets a field returns: `1` where there is no entry. -/
def setResult (m : ℕ → Option DirInfo) (ino : ℕ) : ℕ := if (m ino).isNone then 1 else 0

/-- **The table is the map**: it is sorted, each getter returns what has last been set, each setter
fails just where there is no entry, and an iteration hands out each entry once, in order. -/
structure AnswersAsMap (m : ℕ → Option DirInfo) (ctx : Option DirInfoDb) : Prop where
  sorted : ∀ db ∈ ctx, Sorted DirInfo.ino db.array
  parent : ∀ ino, ComesTo (e2fsckDirInfoGetParent ctx ino) ((m ino).map DirInfo.parent)
  dotdot : ∀ ino, ComesTo (e2fsckDirInfoGetDotdot ctx ino) ((m ino).map DirInfo.dotdot)
  setParent : ∀ ino parent, ∃ ctx',
    ComesTo (e2fsckDirInfoSetParent ctx ino parent) (setResult m ino, ctx')
  setDotdot : ∀ ino dotdot, ∃ ctx',
    ComesTo (e2fsckDirInfoSetDotdot ctx ino dotdot) (setResult m ino, ctx')
  iterates : ∃ l : List DirInfo, Sorted DirInfo.ino l ∧ (∀ d, d ∈ l ↔ m d.ino = some d) ∧
    ∀ n, dirInfoIterCalls n ctx 0 = (l.map some ++ List.replicate n none).take n

/-! ### The place of an entry -/

variable {array : List DirInfo} {dir : DirInfo} {ino : ℕ}

theorem dirInfoPlace_le (array : List DirInfo) (ino n : ℕ) : dirInfoPlace array ino n ≤ n := by
  induction n with
  | zero => rfl
  | succ n ih =>
    rw [dirInfoPlace]
    split_ifs
    · exact le_rfl
    · exact Nat.le_succ_of_le ih

/-- The entries in front of the place are below, the ones from it on are not. -/
theorem dirInfoPlace_spec (hs : Sorted DirInfo.ino array) : ∀ {n : ℕ},
    (∀ d ∈ array[n]?, ino ≤ d.ino) → Below DirInfo.ino array ino (dirInfoPlace array ino n) ∧
      ∀ d ∈ array[dirInfoPlace array ino n]?, ino ≤ d.ino
  | 0, hlast => ⟨below_zero, hlast⟩
  | n + 1, hlast => by
    rw [dirInfoPlace]
    split_ifs with h
    · obtain ⟨d, hd, hlt⟩ := h
      exact ⟨hs.below hd hlt, hlast⟩
    · refine dirInfoPlace_spec hs fun d hd => ?_
      exact not_lt.mp fun hlt => h ⟨d, hd, hlt⟩

/-- `array'` is the array with `dir` stored. -/
structure DirInfoStored (array : List DirInfo) (dir : DirInfo) (array' : List DirInfo) : Prop where
  sorted : Sorted DirInfo.ino array'
  lookup : ∀ ino, lookup DirInfo.ino array' ino =
    Function.update (lookup DirInfo.ino array) dir.ino (some dir) ino
  length : array'.length ≤ array.length + 1
  ne_nil : array' ≠ []

/-- An entry is put in between those below it and those above it. -/
theorem dirInfoStored_insertAt {i : ℕ} (hs : Sorted DirInfo.ino array)
    (hb : Below DirInfo.ino array dir.ino i) (ha : Above DirInfo.ino array dir.ino i)
    (hi : i ≤ array.length) : DirInfoStored array dir (insertAt array i dir) := by
  have hsorted := hs.insertAt hb ha
  refine ⟨hsorted, fun ino => ?_, (length_insertAt hi).le, ?_⟩
  · by_cases hino : ino = dir.ino
    · rw [hino, Function.update_self]
      exact hsorted.lookup_eq (getElem?_insertAt hi)
    · rw [Function.update_of_ne hino, lookup_insertAt_of_ne (Ne.symm hino)]
  · exact List.ne_nil_of_length_pos (by rw [length_insertAt hi]; exact Nat.succ_pos _)

/-- An entry takes the place of the one with its inode. -/
theorem dirInfoStored_set {i : ℕ} {d : DirInfo} (hs : Sorted DirInfo.ino array)
    (hd : array[i]? = some d) (hkey : dir.ino = d.ino) :
    DirInfoStored array dir (array.set i dir) := by
  obtain ⟨hi, -⟩ := List.getElem?_eq_some_iff.mp hd
  have hsorted := hs.set hd hkey
  refine ⟨hsorted, fun ino => ?_, by rw [List.length_set]; exact Nat.le_succ _, ?_⟩
  · by_cases hino : ino = dir.ino
    · rw [hino, Function.update_self]
      exact hsorted.lookup_eq (List.getElem?_set_self hi)
    · rw [Function.update_of_ne hino,
        lookup_set_of_ne hd (fun h => hino (hkey ▸ h.symm)) (Ne.symm hino)]
  · exact List.ne_nil_of_length_pos (by rw [List.length_set]; exact Nat.zero_lt_of_lt hi)

theorem append_eq_insertAt (array : List DirInfo) (dir : DirInfo) :
    array ++ [dir] = insertAt array array.length dir := by
  rw [insertAt, List.take_length, List.drop_length]

/-- **Storing an entry** keeps the array sorted, and changes the lookup at its inode only. -/
theorem placeDirInfo_stored (hs : Sorted DirInfo.ino array) (dir : DirInfo) :
    DirInfoStored array dir (placeDirInfo array dir) := by
  rw [placeDirInfo]
  split_ifs with hlast
  · obtain ⟨last, hmem, hle⟩ := hlast
    have hlen : array.length - 1 < array.length := by
      have := List.length_pos_iff.mpr (List.ne_nil_of_mem (List.mem_of_getLast? hmem))
      omega
    have hfrom : ∀ d ∈ array[array.length - 1]?, dir.ino ≤ d.ino := by
      intro d hd
      rw [← List.getLast?_eq_getElem?, hmem] at hd
      exact Option.some.inj hd ▸ hle
    have hspec := dirInfoPlace_spec hs hfrom
    have hpos := dirInfoPlace_le array dir.ino (array.length - 1)
    obtain ⟨i, hi⟩ : ∃ i, i = dirInfoPlace array dir.ino (array.length - 1) := ⟨_, rfl⟩
    rw [← hi] at hspec hpos
    dsimp only
    rw [← hi]
    obtain ⟨d, hd⟩ : ∃ d, array[i]? = some d := ⟨_, List.getElem?_eq_getElem (by omega)⟩
    rw [hd, Option.map_some]
    split_ifs with heq
    · exact dirInfoStored_set hs hd (Option.some.inj heq).symm
    · have hlt : dir.ino < d.ino :=
        lt_of_le_of_ne (hspec.2 d hd) fun h => heq (congrArg some h.symm)
      exact dirInfoStored_insertAt hs hspec.1 (hs.above hd hlt) (by omega)
  · rw [append_eq_insertAt]
    refine dirInfoStored_insertAt hs (hs.below_length fun a ha => ?_) above_length le_rfl
    exact not_le.mp fun hle => hlast ⟨a, ha, hle⟩

/-! ### The invariant -/

/-- The table holds the map. -/
structure DirInfoDb.Holds (m : ℕ → Option DirInfo) (db : DirInfoDb) : Prop where
  sorted : Sorted DirInfo.ino db.array
  lookup : ∀ ino, SortedList.lookup DirInfo.ino db.array ino = m ino
  le_size : db.array.length ≤ db.size
  ne_nil : db.array ≠ []

/-- The same, when there may be no table yet. -/
structure DirInfoHolds (m : ℕ → Option DirInfo) (ctx : Option DirInfoDb) : Prop where
  empty : ctx = none → m = fun _ => none
  holds : ∀ db ∈ ctx, db.Holds m

/-- The array has few enough entries for the sum of two positions. -/
def FewDirs (ctx : Option DirInfoDb) : Prop := ∀ db ∈ ctx, db.array.length ≤ 2 ^ 31 + 1

variable {m : ℕ → Option DirInfo} {db : DirInfoDb} {ctx : Option DirInfoDb} {p : Option ℕ}

theorem DirInfoHolds.of_some (h : db.Holds m) : DirInfoHolds m (some db) :=
  ⟨nofun, fun _ he => Option.some.inj he ▸ h⟩

theorem DirInfoDb.Holds.mem_iff (h : db.Holds m) (d : DirInfo) :
    d ∈ db.array ↔ m d.ino = some d := by
  rw [← h.lookup]
  constructor
  · intro hd
    obtain ⟨i, hi⟩ := List.mem_iff_getElem?.mp hd
    exact h.sorted.lookup_eq hi
  · exact fun hd => List.mem_of_find?_eq_some hd

theorem DirInfoDb.Holds.ino_eq (h : db.Holds m) {d : DirInfo} (hd : m ino = some d) :
    d.ino = ino := by
  rw [← h.lookup] at hd
  simpa using List.find?_some hd

/-! ### Results of loops -/

theorem comesTo_const {α : Type} (a : α) : ComesTo (fun _ => some a) a :=
  ⟨⟨0, rfl⟩, fun _ _ h => (Option.some.inj h).symm⟩

theorem ComesTo.map {α β : Type} {f : ℕ → Option α} {a : α} (h : ComesTo f a) (g : α → β) :
    ComesTo (fun fuel => (f fuel).map g) (g a) := by
  refine ⟨h.1.imp fun fuel hf => congrArg (Option.map g) hf, fun fuel b hb => ?_⟩
  obtain ⟨a', ha, rfl⟩ := Option.map_eq_some_iff.mp hb
  rw [h.2 fuel a' ha]

theorem comesTo_run {σ α : Type} {step : σ → σ ⊕ Option α} {s : σ} {a : α}
    (h : Loop.Leaves step s (some a)) : ComesTo (fun fuel => (Loop.run step fuel s).join) a := by
  refine ⟨h.imp fun fuel hf => congrArg Option.join hf, fun fuel b hb => ?_⟩
  exact (Option.some.inj (Loop.leaves_unique h ⟨fuel, Option.join_eq_some_iff.mp hb⟩)).symm

/-! ### Looking up -/

/-- **A lookup ends, with the right pointer.** -/
theorem DirInfoHolds.get (h : DirInfoHolds m ctx) (hfew : FewDirs ctx) (ino : ℕ) :
    ∃ p, ComesTo (e2fsckGetDirInfo ctx ino) p ∧ p.bind (DirInfoDb.at ctx) = m ino ∧
      ∀ i ∈ p, ∃ d, DirInfoDb.at ctx i = some d ∧ d.ino = ino := by
  cases ctx with
  | none => exact ⟨none, comesTo_const none, by rw [h.empty rfl]; rfl, nofun⟩
  | some db =>
    have hdb := h.holds db rfl
    -- what the pointer leads to is what the map has
    have hright : ∀ p, DirInfoAt db.array ino p →
        p.bind (DirInfoDb.at (some db)) = m ino ∧
          ∀ i ∈ p, ∃ d, DirInfoDb.at (some db) i = some d ∧ d.ino = ino := by
      intro p hp
      cases p with
      | none => exact ⟨((hdb.lookup ino).symm.trans hp).symm, nofun⟩
      | some i =>
        obtain ⟨d, hd, rfl⟩ := hp
        refine ⟨?_, fun j hj => Option.some.inj hj ▸ ⟨d, hd, rfl⟩⟩
        rw [← hdb.lookup, hdb.sorted.lookup_eq hd]
        exact hd
    suffices hs : ∃ p, ComesTo (e2fsckGetDirInfo (some db) ino) p ∧ DirInfoAt db.array ino p from
      hs.imp fun p hp => ⟨hp.1, hright p hp.2⟩
    have hlen := List.length_pos_iff.mpr hdb.ne_nil
    obtain ⟨first, hfirst⟩ : ∃ d, db.array[0]? = some d := ⟨_, List.getElem?_eq_getElem hlen⟩
    obtain ⟨last, hlast⟩ : ∃ d, db.array[db.array.length - 1]? = some d :=
      ⟨_, List.getElem?_eq_getElem (by omega)⟩
    unfold e2fsckGetDirInfo
    dsimp only
    rcases hremembered : db.lastLookup.filter fun i =>
      (db.array[i]?).map DirInfo.ino = some ino with _ | i
    · rw [hfirst, hlast]
      dsimp only
      split_ifs with h1 h2
      · exact ⟨some 0, comesTo_const _, first, hfirst, h1.symm⟩
      · exact ⟨some _, comesTo_const _, last, hlast, h2.symm⟩
      · have hbisect : Bisecting db.array ino 0 (db.array.length - 1) := by
          refine ⟨Nat.zero_le _, by omega, fun d hd => ?_, fun d hd => ?_⟩
          · rw [List.take_one, List.head?_eq_getElem?, hfirst] at hd
            rcases List.mem_singleton.mp hd with rfl
            exact Ne.symm h1
          · rw [List.drop_length_sub_one hdb.ne_nil] at hd
            rw [← List.getLast?_eq_getElem?, List.getLast?_eq_some_getLast hdb.ne_nil] at hlast
            rw [List.mem_singleton.mp hd, Option.some.inj hlast]
            exact Ne.symm h2
        obtain ⟨p, hp, hpoints⟩ := hbisect.leaves hdb.sorted (hfew db rfl)
        exact ⟨p, comesTo_run hp, hpoints⟩
    · obtain ⟨-, hi⟩ := Option.filter_eq_some_iff.mp hremembered
      obtain ⟨d, hd, hino⟩ := Option.map_eq_some_iff.mp (of_decide_eq_true hi)
      exact ⟨some i, comesTo_const _, d, hd, hino⟩

/-! ### The calls -/

theorem setupDirInfoDb_array (numDirs : ℕ) : (setupDirInfoDb numDirs).array = [] := rfl

theorem growDirInfo_array (moved : Bool) (db : DirInfoDb) :
    (growDirInfo moved db).array = db.array := by
  rw [growDirInfo]
  split_ifs <;> rfl

/-- There is room for one more entry in the array that has grown. -/
theorem lt_growDirInfo_size (moved : Bool) {db : DirInfoDb} (hle : db.array.length ≤ db.size)
    (hfew : db.array.length ≤ 2 ^ 31 + 1) :
    db.array.length < (growDirInfo moved db).size := by
  by_cases hfull : db.size ≤ db.array.length
  · rw [growDirInfo, if_pos hfull]
    dsimp only
    omega
  · rw [growDirInfo, if_neg hfull]
    exact not_le.mp hfull

/-- **Adding a directory** puts its entry into the map. -/
theorem DirInfoHolds.add (h : DirInfoHolds m ctx) (hfew : FewDirs ctx) (numDirs : ℕ)
    (moved : Bool) (ino parent : ℕ) :
    ∃ db, e2fsckAddDirInfo numDirs moved ctx ino parent = some db ∧
      db.array = placeDirInfo (ctx.getD (setupDirInfoDb numDirs)).array ⟨ino, parent, parent⟩ ∧
      db.Holds (Function.update m ino (some ⟨ino, parent, parent⟩)) := by
  obtain ⟨db₀, hdb₀⟩ : ∃ db₀, db₀ = ctx.getD (setupDirInfoDb numDirs) := ⟨_, rfl⟩
  -- a new table holds nothing
  have hold : Sorted DirInfo.ino db₀.array ∧
      (∀ ino, SortedList.lookup DirInfo.ino db₀.array ino = m ino) ∧
      db₀.array.length ≤ db₀.size ∧ db₀.array.length ≤ 2 ^ 31 + 1 := by
    cases ctx with
    | none =>
      rw [hdb₀, Option.getD_none, setupDirInfoDb_array, h.empty rfl]
      exact ⟨List.Pairwise.nil, fun _ => rfl, Nat.zero_le _, Nat.zero_le _⟩
    | some db =>
      have hdb := h.holds db rfl
      exact hdb₀ ▸ ⟨hdb.sorted, hdb.lookup, hdb.le_size, hfew db rfl⟩
  obtain ⟨hs, hlookup, hle, hsmall⟩ := hold
  have hroom := lt_growDirInfo_size moved hle hsmall
  have hstored := placeDirInfo_stored hs ⟨ino, parent, parent⟩
  refine ⟨{ growDirInfo moved db₀ with array := placeDirInfo db₀.array ⟨ino, parent, parent⟩ },
    ?_, hdb₀ ▸ rfl, hstored.sorted, fun k => ?_, ?_, hstored.ne_nil⟩
  · rw [e2fsckAddDirInfo, ← hdb₀]
    dsimp only
    rw [growDirInfo_array, if_pos hroom]
  · rw [hstored.lookup, funext hlookup]
  · exact hstored.length.trans hroom

theorem DirInfoDb.modify_result {p : Option ℕ} (hval : p.bind (DirInfoDb.at ctx) = m ino)
    (hp : ∀ i ∈ p, ∃ d, DirInfoDb.at ctx i = some d ∧ d.ino = ino) (f : DirInfo → DirInfo) :
    (DirInfoDb.modify ctx p f).1 = setResult m ino := by
  rw [setResult, ← hval]
  cases p with
  | none => rfl
  | some i =>
    obtain ⟨d, hd, -⟩ := hp i rfl
    rw [Option.bind_some, hd]
    rfl

/-- **Changing an entry** through the pointer to it changes the map there. -/
theorem DirInfoHolds.modify (h : DirInfoHolds m ctx) {f : DirInfo → DirInfo}
    (hf : ∀ d, (f d).ino = d.ino) (hval : p.bind (DirInfoDb.at ctx) = m ino)
    (hp : ∀ i ∈ p, ∃ d, DirInfoDb.at ctx i = some d ∧ d.ino = ino) :
    DirInfoHolds (Function.update m ino ((m ino).map f)) (DirInfoDb.modify ctx p f).2 := by
  cases p with
  | none =>
    have hnone : m ino = none := hval.symm
    rw [hnone, Option.map_none, ← hnone, Function.update_eq_self]
    exact h
  | some i =>
    obtain ⟨d, hd, rfl⟩ := hp i rfl
    obtain ⟨db, rfl, hi⟩ := Option.bind_eq_some_iff.mp hd
    have hdb := h.holds db rfl
    have hm : m d.ino = some d := hval.symm.trans hd
    have hset : db.array.modify i f = db.array.set i (f d) := by
      rw [List.modify_eq_set_getElem?, hi]
      rfl
    have hstored := dirInfoStored_set hdb.sorted hi (hf d)
    rw [← hset] at hstored
    refine .of_some ⟨hstored.sorted, fun k => ?_, ?_, hstored.ne_nil⟩
    · change SortedList.lookup DirInfo.ino (db.array.modify i f) k = _
      rw [hstored.lookup, hf, funext hdb.lookup, hm, Option.map_some]
    · change (db.array.modify i f).length ≤ _
      rw [List.length_modify]
      exact hdb.le_size

/-- A call that sets a field returns as the map has it, and does what it does on the map. -/
theorem DirInfoHolds.set (h : DirInfoHolds m ctx) (hfew : FewDirs ctx) {f : DirInfo → DirInfo}
    (hf : ∀ d, (f d).ino = d.ino) (ino : ℕ) :
    ∃ ctx', ComesTo (fun fuel => (e2fsckGetDirInfo ctx ino fuel).map fun p =>
        DirInfoDb.modify ctx p f) (setResult m ino, ctx') ∧
      DirInfoHolds (Function.update m ino ((m ino).map f)) ctx' := by
  obtain ⟨p, hret, hval, hp⟩ := h.get hfew ino
  refine ⟨_, ?_, h.modify hf hval hp⟩
  rw [← DirInfoDb.modify_result hval hp f]
  exact hret.map fun p => DirInfoDb.modify ctx p f

theorem DirInfoHolds.setParent (h : DirInfoHolds m ctx) (hfew : FewDirs ctx) (ino parent : ℕ) :
    ∃ ctx', ComesTo (e2fsckDirInfoSetParent ctx ino parent) (setResult m ino, ctx') ∧
      DirInfoHolds ((DirInfoOp.setParent ino parent).onMap m) ctx' :=
  h.set hfew (f := fun d => { d with parent := parent }) (fun _ => rfl) ino

theorem DirInfoHolds.setDotdot (h : DirInfoHolds m ctx) (hfew : FewDirs ctx) (ino dotdot : ℕ) :
    ∃ ctx', ComesTo (e2fsckDirInfoSetDotdot ctx ino dotdot) (setResult m ino, ctx') ∧
      DirInfoHolds ((DirInfoOp.setDotdot ino dotdot).onMap m) ctx' :=
  h.set hfew (f := fun d => { d with dotdot := dotdot }) (fun _ => rfl) ino

theorem DirInfoHolds.iter (h : DirInfoHolds m ctx) (i : ℕ) :
    DirInfoHolds m (e2fsckDirInfoIter ctx i).2.1 := by
  cases ctx with
  | none => exact h
  | some db =>
    rw [e2fsckDirInfoIter]
    split_ifs
    · have hdb := h.holds db rfl
      exact .of_some ⟨hdb.sorted, hdb.lookup, hdb.le_size, hdb.ne_nil⟩
    · exact h

/-- **Every call has a result.** -/
theorem DirInfoHolds.exists_step (h : DirInfoHolds m ctx) (hfew : FewDirs ctx) (numDirs : ℕ)
    (op : DirInfoOp) : ∃ ctx', DirInfoStep numDirs ctx op ctx' := by
  cases op with
  | add moved ino parent =>
    obtain ⟨db, hadd, -, -⟩ := h.add hfew numDirs moved ino parent
    exact ⟨some db, db, hadd, rfl⟩
  | setParent ino parent =>
    obtain ⟨ctx', ⟨⟨fuel, hret⟩, -⟩, -⟩ := h.setParent hfew ino parent
    exact ⟨ctx', fuel, _, hret⟩
  | setDotdot ino dotdot =>
    obtain ⟨ctx', ⟨⟨fuel, hret⟩, -⟩, -⟩ := h.setDotdot hfew ino dotdot
    exact ⟨ctx', fuel, _, hret⟩
  | iter i => exact ⟨_, rfl⟩

/-- **What a call does to the table it does to the map.** -/
theorem DirInfoHolds.step {numDirs : ℕ} {op : DirInfoOp} {ctx' : Option DirInfoDb}
    (h : DirInfoHolds m ctx) (hfew : FewDirs ctx) (hstep : DirInfoStep numDirs ctx op ctx') :
    DirInfoHolds (op.onMap m) ctx' := by
  cases op with
  | add moved ino parent =>
    obtain ⟨db, hadd, rfl⟩ := hstep
    obtain ⟨db', hadd', -, hdb⟩ := h.add hfew numDirs moved ino parent
    rw [hadd] at hadd'
    rcases Option.some.inj hadd' with rfl
    exact .of_some hdb
  | setParent ino parent =>
    obtain ⟨fuel, r, hfuel⟩ := hstep
    obtain ⟨ctx'', hret, hctx⟩ := h.setParent hfew ino parent
    obtain rfl : ctx' = ctx'' := congrArg Prod.snd (hret.2 fuel _ hfuel)
    exact hctx
  | setDotdot ino dotdot =>
    obtain ⟨fuel, r, hfuel⟩ := hstep
    obtain ⟨ctx'', hret, hctx⟩ := h.setDotdot hfew ino dotdot
    obtain rfl : ctx' = ctx'' := congrArg Prod.snd (hret.2 fuel _ hfuel)
    exact hctx
  | iter i => exact hstep ▸ h.iter i

/-! ### Iterating -/

theorem dirInfoIterCalls_eq (n : ℕ) : ∀ (db : DirInfoDb) (i : ℕ),
    dirInfoIterCalls n (some db) i =
      ((db.array.drop i).map some ++ List.replicate n none).take n := by
  induction n with
  | zero => exact fun _ _ => rfl
  | succ n ih =>
    intro db i
    rw [dirInfoIterCalls, e2fsckDirInfoIter]
    split_ifs with hi
    · have htake (l : List (Option DirInfo)) : (l ++ List.replicate (n + 1) none).take n =
          (l ++ List.replicate n none).take n := by
        rw [List.replicate_succ', ← List.append_assoc, List.take_append_of_le_length (by simp)]
      dsimp only
      rw [ih, List.drop_eq_getElem_cons hi, List.getElem?_eq_getElem hi, List.map_cons,
        List.cons_append, List.take_succ_cons, htake]
    · dsimp only
      rw [ih, List.drop_eq_nil_of_le (not_lt.mp hi), List.map_nil, List.nil_append,
        List.nil_append, List.replicate_succ, List.take_succ_cons]

theorem dirInfoIterCalls_none (n i : ℕ) :
    dirInfoIterCalls n none i = List.replicate n none := by
  induction n with
  | zero => rfl
  | succ n ih =>
    rw [dirInfoIterCalls, List.replicate_succ]
    exact congrArg _ ih

theorem DirInfoHolds.answersAsMap (h : DirInfoHolds m ctx) (hfew : FewDirs ctx) :
    AnswersAsMap m ctx where
  sorted db hdb := (h.holds db hdb).sorted
  parent ino := by
    obtain ⟨p, hret, hval, -⟩ := h.get hfew ino
    exact hval ▸ hret.map fun p => (p.bind (DirInfoDb.at ctx)).map DirInfo.parent
  dotdot ino := by
    obtain ⟨p, hret, hval, -⟩ := h.get hfew ino
    exact hval ▸ hret.map fun p => (p.bind (DirInfoDb.at ctx)).map DirInfo.dotdot
  setParent ino parent := by
    obtain ⟨ctx', hret, -⟩ := h.setParent hfew ino parent
    exact ⟨ctx', hret⟩
  setDotdot ino dotdot := by
    obtain ⟨ctx', hret, -⟩ := h.setDotdot hfew ino dotdot
    exact ⟨ctx', hret⟩
  iterates := by
    cases ctx with
    | none =>
      refine ⟨[], List.Pairwise.nil, fun d => ?_, fun n => ?_⟩
      · rw [h.empty rfl]
        exact ⟨nofun, nofun⟩
      · rw [dirInfoIterCalls_none, List.map_nil, List.nil_append, List.take_replicate,
          Nat.min_self]
    | some db =>
      have hdb := h.holds db rfl
      exact ⟨db.array, hdb.sorted, hdb.mem_iff, fun n => dirInfoIterCalls_eq n db 0⟩

/-! ### Runs -/

theorem dirInfoSet_append (ops : List DirInfoOp) (op : DirInfoOp) :
    dirInfoSet (ops ++ [op]) = op.onMap (dirInfoSet ops) := by
  rw [dirInfoSet, List.foldl_append]
  rfl

theorem mem_addedInodes_append (ops : List DirInfoOp) (op : DirInfoOp) (ino : ℕ) :
    ino ∈ addedInodes (ops ++ [op]) ↔ ino ∈ addedInodes ops ∨ op.added = some ino := by
  rw [addedInodes, addedInodes, List.filterMap_append, List.toFinset_append, Finset.mem_union]
  refine or_congr Iff.rfl ?_
  cases h : op.added with
  | none => simp [h]
  | some k =>
    simp only [List.filterMap_cons_some h, List.filterMap_nil, List.mem_toFinset,
      List.mem_singleton, Option.some.injEq]
    exact eq_comm

theorem addedInodes_subset_append (ops : List DirInfoOp) (op : DirInfoOp) :
    addedInodes ops ⊆ addedInodes (ops ++ [op]) := fun ino hino =>
  (mem_addedInodes_append ops op ino).mpr (Or.inl hino)

/-- The map has an entry for the inodes that were added. -/
theorem dirInfoSet_ne_none (ops : List DirInfoOp) (ino : ℕ) :
    dirInfoSet ops ino ≠ none ↔ ino ∈ addedInodes ops := by
  induction ops using List.reverseRecOn with
  | nil => exact ⟨fun h => absurd rfl h, nofun⟩
  | append_singleton ops op ih =>
    rw [dirInfoSet_append, mem_addedInodes_append, ← ih]
    -- a field is set where there is an entry already
    have hset : ∀ k (f : DirInfo → DirInfo),
        Function.update (dirInfoSet ops) k ((dirInfoSet ops k).map f) ino ≠ none ↔
          dirInfoSet ops ino ≠ none ∨ none = some ino := by
      intro k f
      by_cases hino : ino = k
      · rw [hino, Function.update_self, Ne, Option.map_eq_none_iff]
        exact ⟨Or.inl, fun h => h.resolve_right nofun⟩
      · rw [Function.update_of_ne hino]
        exact ⟨Or.inl, fun h => h.resolve_right nofun⟩
    cases op with
    | add moved k parent =>
      rw [DirInfoOp.onMap, DirInfoOp.added, Option.some.injEq]
      by_cases hino : ino = k
      · rw [hino, Function.update_self]
        exact ⟨fun _ => Or.inr rfl, fun _ => nofun⟩
      · rw [Function.update_of_ne hino]
        exact ⟨Or.inl, fun h => h.resolve_right (Ne.symm hino)⟩
    | setParent k parent => exact hset k _
    | setDotdot k dotdot => exact hset k _
    | iter i => exact ⟨Or.inl, fun h => h.resolve_right nofun⟩

/-- There is an entry for each directory that was added, and for no other. -/
theorem DirInfoDb.Holds.mem_inodes {ops : List DirInfoOp} (h : db.Holds (dirInfoSet ops))
    (ino : ℕ) :
    ino ∈ db.array.map DirInfo.ino ↔ ino ∈ addedInodes ops := by
  rw [← dirInfoSet_ne_none, List.mem_map]
  constructor
  · rintro ⟨d, hd, rfl⟩
    rw [(h.mem_iff d).mp hd]
    exact nofun
  · intro hino
    obtain ⟨d, hd⟩ := Option.ne_none_iff_exists'.mp hino
    have hdi := h.ino_eq hd
    exact ⟨d, (h.mem_iff d).mpr (hdi.symm ▸ hd), hdi⟩

theorem DirInfoDb.Holds.length_eq {ops : List DirInfoOp} (h : db.Holds (dirInfoSet ops)) :
    db.array.length = (addedInodes ops).card := by
  have hnodup : (db.array.map DirInfo.ino).Nodup :=
    List.Pairwise.imp (fun h => h.ne) (List.pairwise_map.mpr h.sorted)
  have hinodes : (db.array.map DirInfo.ino).toFinset = addedInodes ops := by
    ext ino
    rw [List.mem_toFinset, h.mem_inodes]
  rw [← hinodes, List.toFinset_card_of_nodup hnodup, List.length_map]

theorem DirInfoHolds.few {ops : List DirInfoOp} (h : DirInfoHolds (dirInfoSet ops) ctx)
    (hcount : (addedInodes ops).card ≤ 2 ^ 31 + 1) : FewDirs ctx := fun db hdb =>
  (h.holds db hdb).length_eq.le.trans hcount

theorem DirInfoRun.holds {numDirs : ℕ} {ops : List DirInfoOp} (h : DirInfoRun numDirs ops ctx)
    (hcount : (addedInodes ops).card ≤ 2 ^ 31 + 1) : DirInfoHolds (dirInfoSet ops) ctx := by
  induction h with
  | start => exact ⟨fun _ => rfl, nofun⟩
  | @step ops op ctx ctx' _ hstep ih =>
    have hbefore := (Finset.card_le_card (addedInodes_subset_append ops op)).trans hcount
    rw [dirInfoSet_append]
    exact (ih hbefore).step ((ih hbefore).few hbefore) hstep

/-- **After every run that adds at most `2 ^ 31 + 1` directories the table is the map**, and
every further call has a result. -/
theorem dirInfo_answersAsMap {numDirs : ℕ} {ops : List DirInfoOp}
    (h : DirInfoRun numDirs ops ctx) (hcount : (addedInodes ops).card ≤ 2 ^ 31 + 1) :
    AnswersAsMap (dirInfoSet ops) ctx ∧ ∀ op, ∃ ctx', DirInfoStep numDirs ctx op ctx' :=
  have hholds := h.holds hcount
  have hfew := hholds.few hcount
  ⟨hholds.answersAsMap hfew, hholds.exists_step hfew numDirs⟩

/-- Directory 12 is found under directory 2, where it was connected. -/
theorem dirInfo_answersAsMap_connected :
    AnswersAsMap (dirInfoSet [.add false 2 2, .add true 12 0, .setParent 12 2])
      (some ⟨13, [⟨2, 2, 2⟩, ⟨12, 0, 2⟩], none⟩) ∧
    ∀ op, ∃ ctx', DirInfoStep 3 (some ⟨13, [⟨2, 2, 2⟩, ⟨12, 0, 2⟩], none⟩) op ctx' :=
  have hroot : DirInfoRun 3 ([] ++ [.add false 2 2]) (some ⟨13, [⟨2, 2, 2⟩], none⟩) :=
    .step .start ⟨_, rfl, rfl⟩
  have hlost : DirInfoRun 3 ([.add false 2 2] ++ [.add true 12 0])
      (some ⟨13, [⟨2, 2, 2⟩, ⟨12, 0, 0⟩], none⟩) := .step hroot ⟨_, rfl, rfl⟩
  have hconnected : DirInfoRun 3 ([.add false 2 2, .add true 12 0] ++ [.setParent 12 2])
      (some ⟨13, [⟨2, 2, 2⟩, ⟨12, 0, 2⟩], none⟩) := .step hlost ⟨0, 0, rfl⟩
  dirInfo_answersAsMap hconnected (by decide)

/-! ### One directory more -/

/-- The directories `1 .. n`, added in order. -/
def dirsUpTo (n : ℕ) : List DirInfoOp := (List.range n).map fun i => .add false (i + 1) 2

theorem dirsUpTo_succ (n : ℕ) : dirsUpTo (n + 1) = dirsUpTo n ++ [.add false (n + 1) 2] := by
  rw [dirsUpTo, List.range_succ, List.map_append]
  rfl

theorem addedInodes_dirsUpTo (n : ℕ) : addedInodes (dirsUpTo n) = Finset.Icc 1 n := by
  induction n with
  | zero => rfl
  | succ n ih =>
    ext ino
    rw [dirsUpTo_succ, mem_addedInodes_append, ih, Finset.mem_Icc, Finset.mem_Icc,
      DirInfoOp.added, Option.some.injEq]
    omega

theorem card_dirsUpTo (n : ℕ) : (addedInodes (dirsUpTo n)).card = n := by
  rw [addedInodes_dirsUpTo, Nat.card_Icc, Nat.add_sub_cancel]

/-- The table of the first `n` directories, when the positions are small enough. -/
theorem exists_run_dirsUpTo {n : ℕ} (hn : n ≤ 2 ^ 31 + 1) :
    ∃ ctx, DirInfoRun 0 (dirsUpTo n) ctx := by
  induction n with
  | zero => exact ⟨none, .start⟩
  | succ n ih =>
    obtain ⟨ctx, hctx⟩ := ih (by omega)
    have hcount : (addedInodes (dirsUpTo n)).card ≤ 2 ^ 31 + 1 := by
      rw [card_dirsUpTo]
      omega
    have hholds := hctx.holds hcount
    obtain ⟨ctx', hstep⟩ := hholds.exists_step (hholds.few hcount) 0 (.add false (n + 1) 2)
    exact ⟨ctx', dirsUpTo_succ n ▸ hctx.step hstep⟩

/-- With `2 ^ 31 + 2` entries, the search for an inode between the last two never ends: when
only they are left, the sum of their positions is `2 ^ 32 + 1`, and the position in the middle
is the first one. -/
theorem not_ends_between_last {n : ℕ} (hn : n = 2 ^ 31 + 1) (hlen : array.length = n + 1)
    (hbelow : ∀ i : ℕ, i < n → ∃ d, array[i]? = some d ∧ d.ino < ino) :
    ¬Loop.Ends (bisectDirInfo array ino) (0, n) := by
  refine Loop.not_ends_of_closed (P := fun s => s.1 < n ∧ s.2 = n) ?_ ⟨by omega, rfl⟩
  rintro ⟨low, high⟩ ⟨hlow, rfl⟩
  dsimp only at hlow
  obtain ⟨mid, hmid⟩ : ∃ mid, mid = (low + high) % 2 ^ 32 / 2 := ⟨_, rfl⟩
  have hwrap : mid ≠ low ∧ mid < high := by
    rcases Nat.lt_or_ge (low + high) (2 ^ 32) with hsmall | hlarge
    · rw [Nat.mod_eq_of_lt hsmall] at hmid
      omega
    · have hmod : (low + high) % 2 ^ 32 = low + high - 2 ^ 32 := by omega
      rw [hmod] at hmid
      omega
  obtain ⟨d, hd, hlt⟩ := hbelow mid hwrap.2
  refine ⟨(mid, high), ?_, hwrap.2, rfl⟩
  rw [Loop.Round, bisectDirInfo, if_pos hlow]
  dsimp only
  rw [← hmid, if_neg (not_or.mpr ⟨hwrap.1, hwrap.2.ne⟩), hd]
  dsimp only
  rw [if_neg hlt.ne', if_neg (not_lt.mpr hlt.le)]

/-- Nor does the lookup. -/
theorem not_returns_between_last {n : ℕ} (hn : n = 2 ^ 31 + 1) {db : DirInfoDb} {last : DirInfo}
    (hlen : db.array.length = n + 1) (hlast : db.array[n]? = some last) (hne : last.ino ≠ ino)
    (hbelow : ∀ i : ℕ, i < n → ∃ d, db.array[i]? = some d ∧ d.ino < ino) (fuel : ℕ) :
    e2fsckGetDirInfo (some db) ino fuel = none := by
  have hnot : ∀ i : ℕ, (db.array[i]?).map DirInfo.ino ≠ some ino := by
    intro i hi
    obtain ⟨d, hd, hino⟩ := Option.map_eq_some_iff.mp hi
    obtain ⟨hil, -⟩ := List.getElem?_eq_some_iff.mp hd
    rcases Nat.lt_or_ge i n with hin | hin
    · obtain ⟨e, he, hlt⟩ := hbelow i hin
      rw [hd] at he
      rw [← Option.some.inj he, hino] at hlt
      exact lt_irrefl _ hlt
    · have hieq : i = n := by omega
      rw [hieq, hlast] at hd
      exact hne (Option.some.inj hd ▸ hino)
  obtain ⟨first, hfirst, hltfirst⟩ := hbelow 0 (by omega)
  have hremembered : (db.lastLookup.filter fun i =>
      (db.array[i]?).map DirInfo.ino = some ino) = none := by
    rw [Option.filter_eq_none_iff]
    exact fun i _ => by simpa using hnot i
  rw [e2fsckGetDirInfo]
  rw [hremembered, hlen, Nat.add_sub_cancel, hfirst, hlast]
  dsimp only
  rw [if_neg hltfirst.ne', if_neg (Ne.symm hne)]
  cases hrun : Loop.run (bisectDirInfo db.array ino) fuel (0, n) with
  | none => rfl
  | some r => exact absurd ⟨r, fuel, hrun⟩ (not_ends_between_last hn hlen hbelow)

/-- The directories `1 .. 2 ^ 31 + 1` and one more, and the lookup of the inode between. -/
theorem not_answersAsMap_between_last :
    ∃ ctx, DirInfoRun 0 (dirsUpTo (2 ^ 31 + 1) ++ [.add false (2 ^ 31 + 3) 2]) ctx ∧
      ¬AnswersAsMap (dirInfoSet (dirsUpTo (2 ^ 31 + 1) ++ [.add false (2 ^ 31 + 3) 2])) ctx := by
  obtain ⟨n, hn⟩ : ∃ n, n = 2 ^ 31 + 1 := ⟨_, rfl⟩
  have hplus : 2 ^ 31 + 3 = n + 2 := by omega
  rw [← hn, hplus]
  obtain ⟨ctx, hctx⟩ := exists_run_dirsUpTo hn.le
  have hcount : (addedInodes (dirsUpTo n)).card ≤ 2 ^ 31 + 1 := by
    rw [card_dirsUpTo]
    exact hn.le
  have hholds := hctx.holds hcount
  obtain ⟨db, hadd, harray, -⟩ := hholds.add (hholds.few hcount) 0 false (n + 2) 2
  refine ⟨some db, hctx.step ⟨db, hadd, rfl⟩, fun hanswers => ?_⟩
  obtain ⟨db₀, rfl⟩ : ∃ db₀, ctx = some db₀ := by
    refine Option.ne_none_iff_exists'.mp fun hnone => ?_
    have hone : 1 ∈ addedInodes (dirsUpTo n) := by
      rw [addedInodes_dirsUpTo, Finset.mem_Icc]
      omega
    rw [← dirInfoSet_ne_none, hholds.empty hnone] at hone
    exact hone rfl
  have hdb₀ := hholds.holds db₀ rfl
  have hlen : db₀.array.length = n := hdb₀.length_eq.trans (card_dirsUpTo n)
  have hle : ∀ d ∈ db₀.array, d.ino ≤ n := by
    intro d hd
    have hadded := (hdb₀.mem_inodes d.ino).mp (List.mem_map_of_mem hd)
    rw [addedInodes_dirsUpTo, Finset.mem_Icc] at hadded
    exact hadded.2
  -- the last directory is put behind the others
  have happ : db.array = db₀.array ++ [⟨n + 2, 2, 2⟩] := by
    rw [harray, Option.getD_some, placeDirInfo, if_neg]
    rintro ⟨last, hlast, hge⟩
    have := hle last (List.mem_of_getLast? hlast)
    dsimp only at hge
    omega
  obtain ⟨⟨fuel, hfuel⟩, -⟩ := hanswers.parent (n + 1)
  rw [e2fsckDirInfoGetParent, not_returns_between_last hn (by
      rw [happ, List.length_append, hlen, List.length_singleton]) (by
      rw [happ, ← hlen, List.getElem?_concat_length]) (by
      dsimp only
      omega) (fun i hi => ?_) fuel] at hfuel
  · exact absurd hfuel nofun
  · have hi₀ : i < db₀.array.length := hlen.symm ▸ hi
    refine ⟨db₀.array[i], ?_, Nat.lt_succ_of_le (hle _ (List.getElem_mem hi₀))⟩
    rw [happ, List.getElem?_append_left hi₀, List.getElem?_eq_getElem hi₀]

end E2fsprogs
