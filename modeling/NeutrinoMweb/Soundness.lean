import NeutrinoMweb.AcceptedBatch

/-!
# Soundness of the utxo check

A header commits to the output ids of its `N` leaves through the root of the MMR over them:
`treeDigest` is a subtree's digest, `mmrRoot` bags the peaks' digests as the code does.
Against a root made so, and with the two digest constructions collision-free, every utxo of
an accepted batch carries the committed output id of the leaf it names.

The argument runs down the second pass. Its utxos are the leaves it attempts
(`treePasses_matches`). A descent that gets no digest attempts nothing
(`attempts_eq_nil_of_visit_none`). A descent whose digest is the committed one took the
committed id at each leaf it attempted (`visit_carriesIds`), since a digest splits uniquely
into its children's. The bagging splits the same way into the digests the walk collects
(`mmrBag_inj`), and an honest walk's digests bag to the root (`mmrBag_walkDigests`).
-/

namespace NeutrinoMweb

variable {δ : Type} (H : Hashing δ)

open VerifyMwebUtxosVars

/-! ## The committed tree -/

/-- The digest of the subtree at `⟨a, h⟩` over the output ids `D`: `nodeIdx.hash` of the id at
a leaf, `nodeIdx.parentHash` of the children's digests at an inner node. -/
def treeDigest (D : Nat → δ) : Nat → Nat → δ
  | 0, a => H.hash (MmrNode.pos ⟨a, 0⟩) (D a)
  | h + 1, a => H.parentHash (MmrNode.pos ⟨a, h + 1⟩) (treeDigest D h a)
      (treeDigest D h (a + 2 ^ h))

/-- The digests of the peaks `peaks`. -/
def peakDigests (D : Nat → δ) (peaks : List MmrNode) : List δ :=
  peaks.map fun P => treeDigest H D P.height P.leaf

/-- The root of the MMR over the output ids `D` of `N` leaves: the peaks' digests bagged from
the right at `nodeIdx(N)`, and `chainhash.Hash{}` when there is no leaf. -/
def mmrRoot (D : Nat → δ) (N : Nat) : δ :=
  match peakDigests H D (mmrPeaks N) with
  | [] => H.zero
  | d :: ds => mmrBag H (LeafIdx.nodeIdx N) d ds

/-- The digests an honest walk collects: the peaks' up to the one holding the last leaf
`last`, then the bag of the peaks after it. -/
def walkDigests (D : Nat → δ) (nn last : Nat) : List MmrNode → List δ
  | [] => []
  | P :: rest => treeDigest H D P.height P.leaf ::
    if LeafIdx.nodeIdx last ≤ P.pos then
      match peakDigests H D rest with
      | [] => []
      | d :: ds => [mmrBag H nn d ds]
    else walkDigests D nn last rest

variable {H}

/-- An honest walk bags to the bag of all the peaks. -/
theorem mmrBag_walkDigests (D : Nat → δ) (nn last : Nat) :
    ∀ (P : MmrNode) (rest : List MmrNode),
      mmrBag H nn (treeDigest H D P.height P.leaf) (walkDigests H D nn last (P :: rest)).tail =
        mmrBag H nn (treeDigest H D P.height P.leaf) (peakDigests H D rest)
  | P, [] => by simp [walkDigests, peakDigests]
  | P, Q :: rest => by
    rw [walkDigests, List.tail_cons]
    split_ifs
    · rfl
    · exact congrArg (H.parentHash nn _) (mmrBag_walkDigests D nn last Q rest)

/-- With collision-free digests, a bag of equally many digests determines them. -/
theorem mmrBag_inj (hH : H.CollisionFree) {p : Nat} :
    ∀ {d e : δ} {ds es : List δ}, ds.length = es.length →
      mmrBag H p d ds = mmrBag H p e es → d = e ∧ ds = es
  | _, _, [], [], _, h => ⟨h, rfl⟩
  | _, _, [], _ :: _, hl, _ => absurd hl (by simp)
  | _, _, _ :: _, [], hl, _ => absurd hl (by simp)
  | _, _, _ :: _, _ :: _, hl, h => by
    obtain ⟨-, rfl, h'⟩ := hH.parentHash_inj h
    obtain ⟨rfl, rfl⟩ := mmrBag_inj hH (Nat.succ.inj hl) h'
    exact ⟨rfl, rfl⟩

/-! ## Utxos carrying the committed ids -/

/-- The next `n` utxos from the cursor carry the output ids `D` of their leaves. -/
def CarriesIds (D : Nat → δ) (v : VerifyMwebUtxosVars δ) (n : Nat) : Prop :=
  ∀ u ∈ (v.mwebUtxos.utxos.drop v.leavesUsed).take n, u.outputId = D u.leafIndex.toNat

section Carries

variable {D : Nat → δ}

theorem carriesIds_zero (v : VerifyMwebUtxosVars δ) : CarriesIds D v 0 := by
  simp [CarriesIds]

theorem carriesIds_one (v : VerifyMwebUtxosVars δ) :
    CarriesIds D v 1 ↔ ∀ u, v.mwebUtxos.utxos[v.leavesUsed]? = some u →
      u.outputId = D u.leafIndex.toNat := by
  rw [CarriesIds, ← List.head?_drop]
  rcases v.mwebUtxos.utxos.drop v.leavesUsed with _ | ⟨u, us⟩ <;> simp

theorem carriesIds_append {v w : VerifyMwebUtxosVars δ} (hu : w.mwebUtxos = v.mwebUtxos)
    {m n : Nat} (hw : w.leavesUsed = min (v.leavesUsed + m) v.mwebUtxos.utxos.length) :
    CarriesIds D v (m + n) ↔ CarriesIds D v m ∧ CarriesIds D w n := by
  unfold CarriesIds
  rw [drop_leavesUsed_eq hu hw, List.take_add]
  simp only [List.mem_append, or_imp, forall_and]

end Carries

/-! ## One descent -/

/-- A join that returns a digest combined its children's, or proof hashes in their place. -/
theorem joinChildren_some {v : VerifyMwebUtxosVars δ} {p pl pr : Nat} {l r : Option δ} {d : δ}
    (hr : (joinChildren H v p pl pr l r).2 = some d) :
    ∃ dl dr, d = H.parentHash p dl dr ∧ (∀ x, l = some x → x = dl) ∧
      ∀ x, r = some x → x = dr := by
  rcases l with _ | l <;> rcases r with _ | r
  · simp [joinChildren] at hr
  · simp only [joinChildren] at hr
    rcases hN : v.nextHash pl with ⟨w, _ | e⟩ <;> rw [hN] at hr
    · simp at hr
    · exact ⟨e, r, (Option.some.inj hr).symm, by simp, by simp⟩
  · simp only [joinChildren] at hr
    rcases hN : v.nextHash pr with ⟨w, _ | e⟩ <;> rw [hN] at hr
    · simp at hr
    · exact ⟨l, e, (Option.some.inj hr).symm, by simp, by simp⟩
  · exact ⟨l, r, (Option.some.inj hr).symm, by simp, by simp⟩

section Descent

variable {M : List Nat} {a : Nat} {v : VerifyMwebUtxosVars δ}

/-- **A supplied descent that gets no digest attempts no leaf**, when the utxos carry the
leaves it attempts: an attempted leaf gets its digest, and so does every node above one. -/
theorem attempts_eq_nil_of_visit_none {h : Nat} (hn : (⟨a, h⟩ : MmrNode).InMmr (2 ^ 64))
    (hm : Matches v (attempts M v.leafset v.firstLeafIdx v.lastLeafIdx h a))
    (hs : Supplied (visit H M h a v)) (hr : (visit H M h a v).2 = none) :
    attempts M v.leafset v.firstLeafIdx v.lastLeafIdx h a = [] := by
  induction h generalizing a v with
  | zero =>
    by_cases hc : MmrNode.pos ⟨a, 0⟩ < LeafIdx.nodeIdx v.firstLeafIdx ∨ MmrNode.pos ⟨a, 0⟩ ∈ M
    · exact attempts_pulled hc
    rw [attempts, if_neg hc] at hm ⊢
    split_ifs at hm ⊢ with hl
    · have := (visit_zero_spec (H := H) hc).2.2.2 ⟨hl, hm⟩
      rw [hr] at this
      cases this
    · rfl
  | succ h ih =>
    by_cases hc : MmrNode.pos ⟨a, h + 1⟩ < LeafIdx.nodeIdx v.firstLeafIdx ∨
      MmrNode.pos ⟨a, h + 1⟩ ∈ M
    · exact attempts_pulled hc
    obtain ⟨hsl, hsr⟩ := visit_supplied_children hn hc hs
    rw [visit_succ hc] at hs hr
    obtain ⟨hl, hrr⟩ := joinChildren_none hs hr
    have hL := (visit_marks (H := H) M hn.leftChild v).1
    rw [attempts, if_neg hc,
      matches_append hL.mwebUtxos_eq (visit_leavesUsed M hn.leftChild v)] at hm
    rw [attempts, if_neg hc, ih hn.leftChild hm.1 hsl hl, List.nil_append]
    by_cases hcut : LeafIdx.nodeIdx v.lastLeafIdx ≤ MmrNode.pos ⟨a, h⟩
    · rw [if_pos hcut]
    rw [rightChild, hL.lastLeafIdx_eq, if_neg hcut] at hsr hrr
    have hm2 := hm.2
    rw [if_neg hcut, ← hL.leafset_eq, ← hL.firstLeafIdx_eq, ← hL.lastLeafIdx_eq] at hm2 ⊢
    exact ih hn.rightChild hm2 hsr hrr

/-- **A descent whose digest is the committed one took the committed output id at every leaf
it attempted**, when the utxos carry those leaves. -/
theorem visit_carriesIds (hH : H.CollisionFree) {D : Nat → δ} {h : Nat}
    (hn : (⟨a, h⟩ : MmrNode).InMmr (2 ^ 64))
    (hm : Matches v (attempts M v.leafset v.firstLeafIdx v.lastLeafIdx h a))
    (hr : (visit H M h a v).2 = some (treeDigest H D h a)) :
    CarriesIds D v (attempts M v.leafset v.firstLeafIdx v.lastLeafIdx h a).length := by
  induction h generalizing a v with
  | zero =>
    by_cases hc : MmrNode.pos ⟨a, 0⟩ < LeafIdx.nodeIdx v.firstLeafIdx ∨ MmrNode.pos ⟨a, 0⟩ ∈ M
    · rw [attempts_pulled hc]
      exact carriesIds_zero v
    rw [attempts, if_neg hc]
    rw [visit_zero hc] at hr
    split_ifs at hr ⊢
    · rw [List.length_singleton, carriesIds_one]
      intro u hu
      rw [hu] at hr
      simp only at hr
      split_ifs at hr with ha
      rw [← ha]
      exact (hH.hash_inj (Option.some.inj hr)).2
  | succ h ih =>
    by_cases hc : MmrNode.pos ⟨a, h + 1⟩ < LeafIdx.nodeIdx v.firstLeafIdx ∨
      MmrNode.pos ⟨a, h + 1⟩ ∈ M
    · rw [attempts_pulled hc]
      exact carriesIds_zero v
    obtain ⟨hsl, hsr⟩ := visit_supplied_children hn hc (Or.inl (by rw [hr]; rfl))
    have hL := (visit_marks (H := H) M hn.leftChild v).1
    have hlu := visit_leavesUsed (H := H) M hn.leftChild v
    rw [attempts, if_neg hc, matches_append hL.mwebUtxos_eq hlu] at hm
    rw [attempts, if_neg hc, List.length_append, carriesIds_append hL.mwebUtxos_eq hlu]
    rw [visit_succ hc] at hr
    obtain ⟨dl, dr, hd, hdl, hdr⟩ := joinChildren_some hr
    obtain ⟨-, rfl, rfl⟩ := hH.parentHash_inj hd
    constructor
    · -- the left child: its digest is the committed one, or it attempted nothing
      rcases hl : (visit H M h a v).2 with _ | x
      · rw [attempts_eq_nil_of_visit_none hn.leftChild hm.1 hsl hl]
        exact carriesIds_zero v
      · exact ih hn.leftChild hm.1 (by rw [hl, hdl x hl])
    · -- the right child: pulled, or as the left one
      by_cases hcut : LeafIdx.nodeIdx v.lastLeafIdx ≤ MmrNode.pos ⟨a, h⟩
      · rw [if_pos hcut]
        exact carriesIds_zero _
      rw [rightChild, hL.lastLeafIdx_eq, if_neg hcut] at hsr hdr
      have hm2 := hm.2
      rw [if_neg hcut, ← hL.leafset_eq, ← hL.firstLeafIdx_eq, ← hL.lastLeafIdx_eq] at hm2 ⊢
      rcases hrr : (visit H M h (a + 2 ^ h) (visit H M h a v).1).2 with _ | x
      · rw [attempts_eq_nil_of_visit_none hn.rightChild hm2 hsr hrr]
        exact carriesIds_zero _
      · exact ih hn.rightChild hm2 (by rw [hrr, hdr x hrr])

/-- A kept peak digest that is the committed one: the descent took the committed output id at
every leaf it attempted. -/
theorem peakDigest_carriesIds (hH : H.CollisionFree) {D : Nat → δ} {P : MmrNode}
    (hP : P.InMmr (2 ^ 64)) {x : VerifyMwebUtxosVars δ}
    (h : peakDigest H M P v = (x, some (treeDigest H D P.height P.leaf)))
    (hm : Matches v (attempts M v.leafset v.firstLeafIdx v.lastLeafIdx P.height P.leaf)) :
    CarriesIds D v (attempts M v.leafset v.firstLeafIdx v.lastLeafIdx P.height P.leaf).length := by
  have hs := (peakDigest_some hP h).1
  rcases hV : visit H M P.height P.leaf v with ⟨y, _ | e⟩ <;> simp only [peakDigest, hV] at h
  · rw [attempts_eq_nil_of_visit_none hP hm hs (by rw [hV])]
    exact carriesIds_zero v
  · obtain rfl := Option.some.inj (Prod.mk.inj h).2
    exact visit_carriesIds hH hP hm (by rw [hV])

end Descent

/-! ## The walk -/

/-- The end of the walk collects one digest more when peaks remain. -/
theorem breakTree_digests {nn : Nat} {rest : List MmrNode} {x w : VerifyMwebUtxosVars δ}
    {ds es : List δ} (h : breakTree nn rest x ds = some (w, es)) :
    ∃ bs, es = ds ++ bs ∧ bs.length = min rest.length 1 := by
  unfold breakTree at h
  split at h
  · rename_i hr
    obtain ⟨-, rfl⟩ := Prod.mk.inj (Option.some.inj h)
    exact ⟨[], by simp, by simp [hr]⟩
  · rename_i hr
    rcases hN : x.nextHash nn with ⟨y, _ | b⟩ <;> rw [hN] at h
    · simp at h
    · obtain ⟨-, rfl⟩ := Prod.mk.inj (Option.some.inj h)
      refine ⟨[b], rfl, ?_⟩
      cases rest
      · exact absurd rfl hr
      · simp

/-- **A walk that collects the committed digests took the committed output id at every leaf
it attempted**; whatever it collects, it collects as many digests as an honest walk. -/
theorem walkPeaks_carriesIds (hH : H.CollisionFree) {D : Nat → δ} {M : List Nat} {nn : Nat}
    {rest : List MmrNode} (hw : PeaksWF rest) {v w : VerifyMwebUtxosVars δ} {ds es : List δ}
    (h : walkPeaks H M nn rest v ds = some (w, es))
    (hm : Matches v (walkAttempts M v.leafset v.firstLeafIdx v.lastLeafIdx rest)) :
    ∃ fs, es = ds ++ fs ∧ fs.length = (walkDigests H D nn v.lastLeafIdx rest).length ∧
      (fs = walkDigests H D nn v.lastLeafIdx rest →
        CarriesIds D v (walkAttempts M v.leafset v.firstLeafIdx v.lastLeafIdx rest).length) := by
  induction rest generalizing v ds with
  | nil =>
    obtain ⟨-, rfl⟩ := Prod.mk.inj (Option.some.inj h)
    exact ⟨[], by simp, rfl, fun _ => carriesIds_zero v⟩
  | cons P rest ih =>
    have hP := hw.inMmr P (List.mem_cons_self _ _)
    simp only [walkPeaks] at h
    rcases hD : peakDigest H M P v with ⟨x, _ | d⟩ <;> rw [hD] at h
    · simp at h
    obtain ⟨-, -, hlu, hl, -⟩ := peakDigest_some hP hD
    have hx := (visit_marks (H := H) M hP v).1.trans hl
    have hxlu := hlu.trans (visit_leavesUsed M hP v)
    simp only [walkAttempts] at hm ⊢
    rw [matches_append hx.mwebUtxos_eq hxlu] at hm
    simp only at h
    split at h
    · -- the walk ends at this peak
      rename_i hcut
      rw [hx.lastLeafIdx_eq] at hcut
      obtain ⟨bs, rfl, hbs⟩ := breakTree_digests h
      refine ⟨d :: bs, by simp, ?_, fun hfs => ?_⟩
      · cases rest <;> simp [walkDigests, peakDigests, if_pos hcut, hbs]
      · rw [walkDigests, if_pos hcut] at hfs
        obtain ⟨rfl, -⟩ := List.cons.inj hfs
        rw [if_pos hcut, List.append_nil]
        exact peakDigest_carriesIds hH hP hD hm.1
    · -- the walk goes on to the next peak
      rename_i hcut
      rw [hx.lastLeafIdx_eq] at hcut
      have hm2 := hm.2
      rw [if_neg hcut, ← hx.leafset_eq, ← hx.firstLeafIdx_eq, ← hx.lastLeafIdx_eq] at hm2
      obtain ⟨fs, rfl, hlen, hfs⟩ := ih (hw.suffix (List.suffix_cons P rest)) h hm2
      rw [hx.lastLeafIdx_eq] at hlen hfs
      refine ⟨d :: fs, by simp, by simp [walkDigests, if_neg hcut, hlen], fun hfs' => ?_⟩
      rw [walkDigests, if_neg hcut] at hfs'
      obtain ⟨rfl, hrest⟩ := List.cons.inj hfs'
      rw [if_neg hcut, List.length_append, carriesIds_append hx.mwebUtxos_eq hxlu]
      refine ⟨peakDigest_carriesIds hH hP hD hm.1, ?_⟩
      rw [← hx.leafset_eq, ← hx.firstLeafIdx_eq]
      exact hfs hrest

/-- **Two accepted passes whose digests bag to the committed root took the committed output id
at every utxo.** -/
theorem treePasses_carriesIds (hH : H.CollisionFree) {D : Nat → δ} {nn : Nat} {P : MmrNode}
    {rest : List MmrNode} (hw : PeaksWF (P :: rest)) (hnn : ∀ Q ∈ P :: rest, Q.pos < nn)
    {v w₁ w₂ : VerifyMwebUtxosVars δ} {ds₁ : List δ} {d : δ} {ds : List δ}
    (hv : v.isProofHash = []) (h₁ : treePass H nn (P :: rest) v = some (w₁, ds₁))
    (h₂ : treePass H nn (P :: rest) w₁ = some (w₂, d :: ds))
    (hroot : mmrBag H nn d ds =
      mmrBag H nn (treeDigest H D P.height P.leaf) (peakDigests H D rest)) :
    ∀ u ∈ v.mwebUtxos.utxos, u.outputId = D u.leafIndex.toNat := by
  have hm := treePasses_matches hw hnn hv h₁ h₂
  obtain ⟨hw₁, -, -⟩ := treePass_some h₁
  obtain ⟨hw₂, hl₂, -⟩ := treePass_some h₂
  rw [hv] at hw₁
  have hu₁ : w₁.mwebUtxos = v.mwebUtxos := by simpa using (walkPeaks_later hw hw₁).1.mwebUtxos_eq
  have hu₂ : w₂.mwebUtxos = w₁.mwebUtxos := by simpa using (walkPeaks_later hw hw₂).1.mwebUtxos_eq
  have hlu := walkPeaks_leavesUsed hw hw₂
  obtain ⟨fs, hfs, hlen, hcarry⟩ := walkPeaks_carriesIds (D := D) hH hw hw₂ hm
  rw [List.nil_append] at hfs
  subst hfs
  -- the collected digests are the honest walk's, by the injectivity of the bagging
  have hcons : walkDigests H D nn w₁.resetCursors.lastLeafIdx (P :: rest) =
      treeDigest H D P.height P.leaf ::
        (walkDigests H D nn w₁.resetCursors.lastLeafIdx (P :: rest)).tail := rfl
  rw [hcons] at hlen hcarry
  obtain ⟨rfl, rfl⟩ := mmrBag_inj hH (Nat.succ.inj hlen)
    (hroot.trans (mmrBag_walkDigests D nn _ P rest).symm)
  have hall := hcarry rfl
  -- and the second pass attempts as many leaves as there are utxos
  simp only [resetCursors_leavesUsed, resetCursors_mwebUtxos, Nat.zero_add, hu₂] at hlu hl₂
  unfold CarriesIds at hall
  simp only [resetCursors_leavesUsed, resetCursors_mwebUtxos, List.drop_zero] at hall
  rw [List.take_of_length_le (by omega), hu₁] at hall
  exact hall

/-! ## Accepted batches -/

/-- **An accepted batch carries the committed output ids**: against a header whose root is the
MMR root over the output ids `D` of its `N < 2^63` leaves, with collision-free digests, every
utxo of an accepted batch names a leaf below `N` and carries that leaf's id. -/
theorem verifyMwebUtxos_sound [DecidableEq δ] (H : Hashing δ) (hH : H.CollisionFree)
    (D : Nat → δ) (mwebHeader : MwebHeader δ) (mwebLeafset : Leafset)
    (mwebUtxos : MsgMwebUtxos δ) (hN : 1 ≤ mwebHeader.outputMMRSize.toNat)
    (hN63 : mwebHeader.outputMMRSize.toNat < 2 ^ 63)
    (hroot : mwebHeader.outputRoot = mmrRoot H D mwebHeader.outputMMRSize.toNat)
    (hacc : verifyMwebUtxos H mwebHeader mwebLeafset mwebUtxos = .ok true) :
    ∀ u ∈ mwebUtxos.utxos, u.leafIndex.toNat < mwebHeader.outputMMRSize.toNat ∧
      u.outputId = D u.leafIndex.toNat := by
  have hN64 : mwebHeader.outputMMRSize.toNat < 2 ^ 64 := by omega
  have hsz := mmrSize_lt_of_le (N := mwebHeader.outputMMRSize.toNat) (by omega)
  have hnn := nodeIdx_eq_of_le (N := mwebHeader.outputMMRSize.toNat) (by omega)
  rw [verifyMwebUtxos_eq mwebHeader mwebLeafset mwebUtxos hN64 (Nat.le_of_eq hnn.symm)
    (by rw [hnn]; exact calcPeaks_mmrSize hsz hN64)] at hacc
  have hne : mwebHeader.outputMMRSize ≠ 0 := fun h => by rw [h] at hN; simp at hN
  obtain ⟨last, w₁, ds₁, w₂, d, ds, -, h₁, h₂, hbag⟩ := verifyTree_true hne (Except.ok.inj hacc)
  have hw := wellFormed_mmrPeaks hN64 hsz
  have hpos : ∀ P ∈ mmrPeaks mwebHeader.outputMMRSize.toNat,
      P.pos < LeafIdx.nodeIdx mwebHeader.outputMMRSize.toNat :=
    fun P hP => hnn ▸ pos_lt_mmrSize hN64 (mem_mmrPeaks hN64 hP).1
  have hutxo := treePasses_utxos hw hpos rfl h₁ h₂
  intro u hu
  refine ⟨lt_of_mem_walkAttempts_mmrPeaks hN64 (hutxo ▸ List.mem_map_of_mem _ hu), ?_⟩
  rcases hpk : mmrPeaks mwebHeader.outputMMRSize.toNat with _ | ⟨P, rest⟩ <;>
    rw [hpk] at hw hpos h₁ h₂
  · have := (treePass_some h₂).1
    simp [walkPeaks] at this
  · refine treePasses_carriesIds hH hw hpos rfl h₁ h₂ ?_ u hu
    rw [hbag, hroot]
    unfold mmrRoot
    rw [peakDigests, hpk]
    rfl

theorem verifyMwebUtxos_sound_five_leaves :
    freeHashing.CollisionFree ∧ 1 ≤ (5 : UInt64).toNat ∧ (5 : UInt64).toNat < 2 ^ 63 ∧
      fiveLeafRoot = mmrRoot freeHashing freeIds 5 ∧
      verifyMwebUtxos freeHashing ⟨fiveLeafRoot, 5, .outputId 0⟩ [0xD8] fiveLeafBatch = .ok true ∧
      ∀ u ∈ fiveLeafBatch.utxos, u.leafIndex.toNat < 5 ∧ u.outputId = freeIds u.leafIndex.toNat :=
  ⟨freeHashing_collisionFree, by decide, by decide, rfl, verifyMwebUtxos_fiveLeafBatch,
    verifyMwebUtxos_sound freeHashing freeHashing_collisionFree freeIds
      ⟨fiveLeafRoot, 5, .outputId 0⟩ [0xD8] fiveLeafBatch (by decide) (by decide) rfl
      verifyMwebUtxos_fiveLeafBatch⟩

end NeutrinoMweb
