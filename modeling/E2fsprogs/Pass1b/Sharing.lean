import E2fsprogs.Pass1b.Dupes

/-!
# The inodes that share a cluster

The part of `pass1d` of `e2fsck/pass1b.c` that finds out with which inodes an inode shares blocks:
it merges the lists of the clusters of the inode into an array without repetitions, which has been
allocated for as many inodes as there are records.

The array has exactly the other inodes that share a cluster, once each, and it is never overrun
(`E2fsprogs.pass1d_shared`).
-/

namespace E2fsprogs

section Passes

variable {ι : Type}

/-- `dict_count`. -/
def IntDict.count {δ : Type} (dict : IntDict δ) : ℕ := dict.keys.length

/-- What pass 1d finds out about an inode. -/
structure SharedInodes where
  fileOk : Bool
  metaData : Bool
  shared : List ℕ

/-- A round of the loop over `q->inode_list`. -/
def addShared (ino : ℕ) (shared : List ℕ) (r : ℕ) : List ℕ :=
  if r = ino ∨ r ∈ shared then shared else shared ++ [r]

/-- A round of the loop over `p->cluster_list`, where `fsCluster` is `check_if_fs_cluster`. -/
def shareCluster (clstrDict : IntDict DupCluster) (fsCluster : ℕ → Bool) (ino : ℕ)
    (st : SharedInodes) (s : ℕ) :
    SharedInodes :=
  match clstrDict.get s with
  | none => st
  | some q =>
    ⟨st.fileOk && !(1 < q.numBad) && !fsCluster s, st.metaData || fsCluster s,
      q.inodeList.foldl (addShared ino) st.shared⟩

/-- A round of `pass1d`, up to the report. `meta_data` is what the rounds before have left. -/
def pass1dShared (clstrDict : IntDict DupCluster) (fsCluster : ℕ → Bool) (metaData : Bool) (ino : ℕ)
    (p : DupInode ι) :
    SharedInodes :=
  p.clusterList.foldl (shareCluster clstrDict fsCluster ino) ⟨true, metaData, []⟩

/-- `decrement_badcount` of the record of a cluster, which is all that dealing with an inode changes
in it. -/
def decrementBadcount (clstrDict : IntDict DupCluster) (cluster : ℕ) : IntDict DupCluster :=
  match clstrDict.get cluster with
  | none => clstrDict
  | some p => clstrDict.put cluster { p with numBad := p.numBad - 1 }

theorem addShared_spec (ino : ℕ) {shared : List ℕ} (hnodup : shared.Nodup) (x : ℕ) :
    (addShared ino shared x).Nodup ∧ ∀ r, r ∈ addShared ino shared x ↔ r ∈ shared ∨
    r ≠ ino ∧ r = x := by
  rw [addShared]
  split_ifs with hx
  · refine ⟨hnodup, fun r => (or_iff_left_of_imp ?_).symm⟩
    rintro ⟨hne, rfl⟩
    exact hx.resolve_left hne
  · obtain ⟨hne, hnew⟩ := not_or.mp hx
    refine ⟨List.concat_eq_append ▸ hnodup.concat hnew, fun r => ?_⟩
    rw [List.mem_append, List.mem_singleton]
    exact or_congr_right ⟨fun h => ⟨h ▸ hne, h⟩, And.right⟩

theorem foldl_addShared (ino : ℕ) (l : List ℕ) {shared : List ℕ} (hnodup : shared.Nodup) :
    (l.foldl (addShared ino) shared).Nodup ∧
      ∀ r, r ∈ l.foldl (addShared ino) shared ↔ r ∈ shared ∨ r ≠ ino ∧ r ∈ l := by
  induction l generalizing shared with
  | nil => exact ⟨hnodup, fun r => (or_iff_left fun h => nomatch h.2).symm⟩
  | cons x l ih =>
    obtain ⟨hx, hmem⟩ := addShared_spec ino hnodup x
    refine ⟨(ih hx).1, fun r => ?_⟩
    rw [List.foldl_cons, (ih hx).2, hmem, or_assoc, ← and_or_left, List.mem_cons]

/-- What the loop has found after some clusters. -/
theorem foldl_shareCluster (clstrDict : IntDict DupCluster) (fsCluster : ℕ → Bool)
    (ino : ℕ) (l : List ℕ) (st : SharedInodes) (hnodup : st.shared.Nodup)
    (hget : ∀ c ∈ l, (clstrDict.get c).isSome = true) :
    let st' := l.foldl (shareCluster clstrDict fsCluster ino) st
    st'.shared.Nodup ∧
      (∀ r, r ∈ st'.shared ↔
        r ∈ st.shared ∨ r ≠ ino ∧ ∃ c ∈ l,
        r ∈ ((clstrDict.get c).map DupCluster.inodeList).getD []) ∧
      (st'.fileOk = true ↔ st.fileOk = true ∧ ∀ c ∈ l, ∀ q, clstrDict.get c = some q →
        q.numBad ≤ 1 ∧ fsCluster c = false) := by
  induction l generalizing st with
  | nil => simp [hnodup]
  | cons c l ih =>
    obtain ⟨q, hq⟩ := Option.isSome_iff_exists.mp (hget c List.mem_cons_self)
    obtain ⟨hn, hmem⟩ := foldl_addShared ino q.inodeList hnodup
    have hround : shareCluster clstrDict fsCluster ino st c =
      ⟨st.fileOk && !(1 < q.numBad) && !fsCluster c,
        st.metaData || fsCluster c, q.inodeList.foldl (addShared ino) st.shared⟩ := by
      rw [shareCluster, hq]
    obtain ⟨h1, h2, h3⟩ := ih (shareCluster clstrDict fsCluster ino st c) (by rwa [hround])
      fun c' hc' => hget c' (List.mem_cons_of_mem c hc')
    rw [List.foldl_cons]
    refine ⟨h1, fun r => ?_, ?_⟩
    · rw [h2, hround, hmem, or_assoc, ← and_or_left]
      simp only [List.mem_cons, exists_eq_or_imp, hq, Option.map_some, Option.getD_some]
    · rw [h3, hround]
      simp only [Bool.and_eq_true, Bool.not_eq_true', decide_eq_false_iff_not, Int.not_lt,
        List.forall_mem_cons, hq, Option.some.injEq, forall_eq', and_assoc]

/-- The dictionary has the lists that another one has. The counts may have gone down. -/
def SameInodes (clstrDict clstrDict' : IntDict DupCluster) : Prop :=
  ∀ c, c < 2 ^ 31 → (clstrDict'.get c).map DupCluster.inodeList =
    (clstrDict.get c).map DupCluster.inodeList

theorem SameInodes.decrementBadcount {clstrDict clstrDict' : IntDict DupCluster}
    (h : SameInodes clstrDict clstrDict') {cluster : ℕ} (hcluster : cluster < 2 ^ 31) :
    SameInodes clstrDict (decrementBadcount clstrDict' cluster) := by
  intro c hc
  rw [E2fsprogs.decrementBadcount]
  cases hget : clstrDict'.get cluster with
  | none => exact h c hc
  | some p =>
    rw [← h c hc, IntDict.get_put _ hcluster hc]
    split_ifs with heq
    · rw [← heq, hget]
      rfl
    · rfl

/-- **What pass 1d finds out about an inode**, which claims some clusters. -/
structure SharesRight (fs : Pass1bFs) (inodes : List (DupeScanned ι)) (i : ℕ)
    (clstrDict : IntDict DupCluster)
    (fsCluster : ℕ → Bool) (room : ℕ) (r : SharedInodes) : Prop where
  nodup : r.shared.Nodup
  mem : ∀ j, j ∈ r.shared ↔ j ≠ i ∧ ∃ s ∈ inodes, ∃ t ∈ inodes, s.Examined ∧ t.Examined ∧
    s.ino = i ∧ t.ino = j ∧
    ∃ c, s.Claims fs c ∧ t.Claims fs c
  room : r.shared.length < room
  fileOk : r.fileOk = true ↔ ∀ s ∈ inodes, s.Examined → s.ino = i → ∀ c, s.Claims fs c →
    fsCluster c = false ∧ ∀ q, clstrDict.get c = some q → q.numBad ≤ 1

variable {fs : Pass1bFs} {inodes : List (DupeScanned ι)} {d : Dupes ι}

theorem Dupes.Exact.mem_inodesOf (h : d.Exact fs inodes) (hino : ∀ s ∈ inodes, s.ino < 2 ^ 31)
    {c : ℕ} (hc : c < 2 ^ 31)
    (i : ℕ) : i ∈ d.inodesOf c ↔ ∃ s ∈ inodes, s.Examined ∧ s.ino = i ∧ s.Claims fs c := by
  by_cases hi : i < 2 ^ 31
  · rw [← List.count_pos_iff, ← h.agree.transposed i c hi hc, List.count_pos_iff, h.claims i c hi]
  · refine ⟨fun hmem => absurd ?_ hi, fun ⟨s, hs, _, heq, _⟩ => absurd (heq ▸ hino s hs) hi⟩
    rw [Dupes.inodesOf] at hmem
    cases hget : d.clstrDict.get c with
    | none =>
      rw [hget] at hmem
      cases hmem
    | some db =>
      rw [hget] at hmem
      exact (h.agree.clstr c db hc hget).2.2 i hmem

/-- An inode with clusters is a key. -/
theorem mem_keys_of_clustersOf {i : ℕ} (hi : i < 2 ^ 31) (hne : d.clustersOf i ≠ []) :
    i ∈ d.inoDict.keys := by
  rw [Dupes.clustersOf, IntDict.get, Nat.mod_eq_of_lt (by omega)] at hne
  rw [← AList.mem_keys, ← AList.lookup_isSome]
  cases hget : d.inoDict.lookup i with
  | none =>
    rw [hget] at hne
    exact absurd rfl hne
  | some di => rfl

/-- **What pass 1d finds out about any inode** after pass 1b, however many of the claims have been
dealt with: the array has the other inodes that share a cluster with it, once each, it has room for
them, and the file is left alone exactly if nothing else has a claim to its clusters any more. -/
theorem pass1d_shared (fs : Pass1bFs) (inodes : List (DupeScanned ι))
    (hino : ∀ s ∈ inodes, s.ino < 2 ^ 31)
    (hmap : ∀ c, fs.blockDupMap c = true → c < 2 ^ 31) (clstrDict : IntDict DupCluster)
    (fsCluster : ℕ → Bool) (metaData : Bool) (i : ℕ) (p : DupInode ι)
    (hsame : SameInodes (pass1b fs inodes).clstrDict clstrDict)
    (hi : i < 2 ^ 31) (hp : ((pass1b fs inodes).inoDict.get i).map DupInode.clusterList =
      some p.clusterList) :
    SharesRight fs inodes i clstrDict fsCluster (pass1b fs inodes).inoDict.count
      (pass1dShared clstrDict fsCluster metaData i p) := by
  have h : (pass1b fs inodes).Exact fs inodes := exact_init.run inodes hino hmap
  set d := pass1b fs inodes
  have hclaims := fun c => h.claims i c hi
  rw [show d.clustersOf i = p.clusterList by rw [Dupes.clustersOf, hp]; rfl] at hclaims
  have hlt : ∀ c ∈ p.clusterList, c < 2 ^ 31 := by
    intro c hc
    obtain ⟨s, -, -, -, blockNr, hb, rfl⟩ := (hclaims c).mp hc
    exact hmap _ (of_decide_eq_true (List.mem_filter.mp hb).2).2
  have hinodes : ∀ c ∈ p.clusterList, ((clstrDict.get c).map DupCluster.inodeList).getD [] =
      d.inodesOf c := fun c hc => by
    rw [hsame c (hlt c hc)]
    rfl
  have hget : ∀ c ∈ p.clusterList, (clstrDict.get c).isSome = true := by
    intro c hc
    obtain hself := (h.mem_inodesOf hino (hlt c hc) i).mpr ((hclaims c).mp hc)
    rw [← hinodes c hc] at hself
    cases hq : clstrDict.get c with
    | none =>
      rw [hq] at hself
      cases hself
    | some q => rfl
  obtain ⟨hn, hmem, hok⟩ :=
    foldl_shareCluster clstrDict fsCluster i p.clusterList ⟨true, metaData, []⟩ List.nodup_nil hget
  rw [← pass1dShared] at hn hmem hok
  generalize pass1dShared clstrDict fsCluster metaData i p = r at hn hmem hok ⊢
  have hmem' : ∀ j, j ∈ r.shared ↔ j ≠ i ∧ ∃ c ∈ p.clusterList, j ∈ d.inodesOf c := by
    intro j
    rw [hmem j, or_iff_right List.not_mem_nil]
    exact and_congr_right fun _ => exists_congr fun c => and_congr_right fun hc => by
      rw [hinodes c hc]
  refine ⟨hn, fun j => ?_, ?_, ?_⟩
  · rw [hmem' j]
    refine and_congr_right fun _ => ⟨?_, ?_⟩
    · rintro ⟨c, hc, hj⟩
      obtain ⟨s, hs, hex, hsi, hclaim⟩ := (hclaims c).mp hc
      obtain ⟨t, ht, hext, htj, hclaimt⟩ := (h.mem_inodesOf hino (hlt c hc) j).mp hj
      exact ⟨s, hs, t, ht, hex, hext, hsi, htj, c, hclaim, hclaimt⟩
    · rintro ⟨s, hs, t, ht, hex, hext, hsi, htj, c, hclaim, hclaimt⟩
      have hc := (hclaims c).mpr ⟨s, hs, hex, hsi, hclaim⟩
      exact ⟨c, hc, (h.mem_inodesOf hino (hlt c hc) j).mpr ⟨t, ht, hext, htj, hclaimt⟩⟩
  · -- the array and the inode itself are keys without repetitions
    have hnodup : (i :: r.shared).Nodup :=
      List.nodup_cons.mpr ⟨fun hin => ((hmem' i).mp hin).1 rfl, hn⟩
    have hne : p.clusterList ≠ [] := by
      obtain ⟨di, hdi, heq⟩ := Option.map_eq_some_iff.mp hp
      exact heq ▸ (h.agree.ino i di hi hdi).2.1
    have hsub : i :: r.shared ⊆ d.inoDict.keys := by
      intro j hj
      rcases List.mem_cons.mp hj with rfl | hj
      · exact mem_keys_of_clustersOf hi (by rwa [Dupes.clustersOf, hp])
      · obtain ⟨-, c, hc, hjc⟩ := (hmem' j).mp hj
        obtain ⟨t, ht, hext, rfl, hclaimt⟩ := (h.mem_inodesOf hino (hlt c hc) j).mp hjc
        exact mem_keys_of_clustersOf (hino t ht)
          (List.ne_nil_of_mem ((h.claims _ c (hino t ht)).mpr ⟨t, ht, hext, rfl, hclaimt⟩))
    exact (List.subperm_of_subset hnodup hsub).length_le
  · rw [hok]
    refine ⟨fun h' s hs hex hsi c hclaim => ?_, fun h' => ⟨rfl, fun c hc q hq => ?_⟩⟩
    · have hc := (hclaims c).mpr ⟨s, hs, hex, hsi, hclaim⟩
      obtain ⟨q, hq⟩ := Option.isSome_iff_exists.mp (hget c hc)
      exact ⟨(h'.2 c hc q hq).2, fun q hq => (h'.2 c hc q hq).1⟩
    · obtain ⟨s, hs, hex, hsi, hclaim⟩ := (hclaims c).mp hc
      obtain ⟨hfree, hbad⟩ := h' s hs hex hsi c hclaim
      exact ⟨hbad q hq, hfree⟩

/-- An inode that shares one of its two clusters, one claim of which has been dealt with. -/
theorem pass1d_shared_two :
    let fs : Pass1bFs := ⟨0, false, 11, fun c => c == 20 || c == 30⟩
    let inodes : List (DupeScanned Unit) :=
      [⟨12, (), true, true, [⟨0, 20⟩, ⟨1, 30⟩], 0⟩, ⟨13, (), true, true, [⟨0, 20⟩], 0⟩]
    let clstrDict := decrementBadcount (pass1b fs inodes).clstrDict 20
    let p : DupInode Unit := ⟨2, 2, (), [30, 20]⟩
    SharesRight fs inodes 12 clstrDict (fun _ => false) (pass1b fs inodes).inoDict.count
        (pass1dShared clstrDict (fun _ => false) false 12 p) ∧
      (pass1dShared clstrDict (fun _ => false) false 12 p).shared = [13] := by
  refine ⟨pass1d_shared _ _ (by decide) (fun c hc => ?_) _ _ _ 12 _
    (SameInodes.decrementBadcount (fun _ _ => rfl) (by decide)) (by decide) (by decide), by decide⟩
  rcases Bool.or_eq_true_iff.mp hc with hc | hc <;> rw [eq_of_beq hc] <;> decide

end Passes

end E2fsprogs
