import NeutrinoMweb.SecondPass

/-!
# The shape of an accepted batch

What `verifyMwebUtxos` accepting a batch says about the batch alone. The leaf walk fixes the
indices: the first is `StartIndex`, each next one is `nextUnspent` of the one before, and
every one is set in the leafset. The passes fix where they lie: by `treePasses_utxos` the
indices are the leaves the second pass reaches, and those are set leaves of the peaks, from
left to right. So the indices ascend, skip no set leaf, and stay below the header's leaf
count, although the code compares no index with that count.
-/

namespace NeutrinoMweb

variable {δ : Type}

/-! ## The leaves a pass reaches -/

section Attempts

variable {M : List Nat} {L : Leafset} {first last : Nat}

theorem mem_attempts : ∀ {h a ℓ : Nat}, ℓ ∈ attempts M L first last h a →
    L.contains ℓ ∧ a ≤ ℓ ∧ ℓ < a + 2 ^ h
  | 0, a, ℓ, hℓ => by
    simp only [attempts] at hℓ
    split_ifs at hℓ with h1 h2
    · simp at hℓ
    · rw [List.mem_singleton] at hℓ
      subst hℓ
      exact ⟨h2, le_rfl, by simp⟩
    · simp at hℓ
  | h + 1, a, ℓ, hℓ => by
    have hpow : 2 ^ (h + 1) = 2 ^ h + 2 ^ h := by rw [Nat.pow_succ]; omega
    simp only [attempts] at hℓ
    split_ifs at hℓ
    · simp at hℓ
    · rw [List.append_nil] at hℓ
      obtain ⟨hc, h1, h2⟩ := mem_attempts hℓ
      exact ⟨hc, h1, by omega⟩
    · rcases List.mem_append.1 hℓ with hℓ | hℓ
      · obtain ⟨hc, h1, h2⟩ := mem_attempts hℓ
        exact ⟨hc, h1, by omega⟩
      · obtain ⟨hc, h1, h2⟩ := mem_attempts hℓ
        exact ⟨hc, by omega, by omega⟩

theorem attempts_sorted : ∀ {h a : Nat}, (attempts M L first last h a).Pairwise (· < ·)
  | 0, a => by
    simp only [attempts]
    split_ifs <;> simp
  | h + 1, a => by
    simp only [attempts]
    split_ifs
    · simp
    · simpa using attempts_sorted
    · refine List.pairwise_append.2 ⟨attempts_sorted, attempts_sorted, fun x hx y hy => ?_⟩
      have := (mem_attempts hx).2.2
      have := (mem_attempts hy).2.1
      omega

theorem mem_walkAttempts : ∀ {peaks : List MmrNode} {ℓ : Nat},
    ℓ ∈ walkAttempts M L first last peaks →
      L.contains ℓ ∧ ∃ P ∈ peaks, P.leaf ≤ ℓ ∧ ℓ < P.leaf + 2 ^ P.height
  | [], ℓ, hℓ => by simp [walkAttempts] at hℓ
  | P :: rest, ℓ, hℓ => by
    simp only [walkAttempts, List.mem_append] at hℓ
    rcases hℓ with hℓ | hℓ
    · obtain ⟨hc, h1, h2⟩ := mem_attempts hℓ
      exact ⟨hc, P, List.mem_cons_self _ _, h1, h2⟩
    · split_ifs at hℓ
      · simp at hℓ
      · obtain ⟨hc, Q, hQ, hQℓ⟩ := mem_walkAttempts hℓ
        exact ⟨hc, Q, List.mem_cons_of_mem _ hQ, hQℓ⟩

theorem walkAttempts_sorted : ∀ {peaks : List MmrNode},
    peaks.Pairwise (fun P Q => P.leaf + 2 ^ P.height ≤ Q.leaf) →
      (walkAttempts M L first last peaks).Pairwise (· < ·)
  | [], _ => by simp [walkAttempts]
  | P :: rest, hord => by
    simp only [walkAttempts]
    refine List.pairwise_append.2 ⟨attempts_sorted, ?_, fun x hx y hy => ?_⟩
    · split_ifs
      · simp
      · exact walkAttempts_sorted hord.of_cons
    · split_ifs at hy
      · simp at hy
      obtain ⟨-, Q, hQ, hQy, -⟩ := mem_walkAttempts hy
      have := (mem_attempts hx).2.2
      have := List.rel_of_pairwise_cons hord hQ
      omega

theorem lt_of_mem_walkAttempts_mmrPeaks {N ℓ : Nat} (hN : N < 2 ^ 64)
    (h : ℓ ∈ walkAttempts M L first last (mmrPeaks N)) : ℓ < N := by
  obtain ⟨-, P, hP, -, hlt⟩ := mem_walkAttempts h
  have := (mem_mmrPeaks hN hP).1.2
  omega

end Attempts

/-! ## The leaf walk -/

/-- A leaf walk that succeeds read the utxos at `StartIndex` and its `nextUnspent`
successors, all set, and ended at the last utxo's index. -/
theorem leafWalk_some {l : Leafset} : ∀ {i : Nat} {utxos : List (MwebNetUtxo δ)} {last : Nat},
    leafWalk l i utxos = some last →
      (utxos.map fun u => u.leafIndex.toNat).head? = some i ∧
      (utxos.map fun u => u.leafIndex.toNat).Chain' (fun i j => j = l.nextUnspent i) ∧
      (∀ u ∈ utxos, l.contains u.leafIndex.toNat) ∧
      (utxos.map fun u => u.leafIndex.toNat).getLast? = some last
  | i, [], last, h => by simp [leafWalk] at h
  | i, u :: rest, last, h => by
    simp only [leafWalk] at h
    split_ifs at h with h1 h2 h3
    · rw [List.length_eq_zero] at h3
      subst h3
      simp only [Option.some.injEq] at h
      subst h
      simp only [Bool.not_eq_true', Bool.not_eq_false] at h1
      simp only [ne_eq, Decidable.not_not] at h2
      exact ⟨by simp [h2], List.Chain.nil, by simp [h1, h2], by simp [h2]⟩
    · obtain ⟨hh, hc, hs, hl⟩ := leafWalk_some h
      simp only [Bool.not_eq_true', Bool.not_eq_false] at h1
      simp only [ne_eq, Decidable.not_not] at h2
      obtain ⟨v, vs, hv⟩ := List.exists_cons_of_ne_nil (List.ne_nil_of_length_pos (by omega) :
        rest ≠ [])
      subst hv
      simp only [List.map_cons, List.head?_cons, Option.some.injEq] at hh
      refine ⟨by simp [h2], ?_, ?_, ?_⟩
      · simp only [List.map_cons] at hc ⊢
        exact List.Chain.cons (by rw [hh, h2]) hc
      · rintro w (_ | ⟨_, hw⟩)
        · rw [h2]; exact h1
        · exact hs w hw
      · simpa using hl

/-- A chain of `nextUnspent` steps that ascends skips no set index. -/
theorem mem_of_chain_nextUnspent {l : Leafset} : ∀ {xs : List Nat},
    xs.Chain' (fun i j => j = l.nextUnspent i) → xs.Pairwise (· < ·) → (∀ y ∈ xs, y < 2 ^ 64) →
      ∀ {x j : Nat}, xs.head? = some x → l.contains j → x ≤ j → (∃ y ∈ xs, j ≤ y) → j ∈ xs
  | [], _, _, _, _, _, hx, _, _, _ => by simp at hx
  | [x'], _, _, _, x, j, hx, _, hxj, ⟨y, hy, hjy⟩ => by
    simp only [List.head?_cons, Option.some.injEq, List.mem_singleton] at hx hy ⊢
    omega
  | x' :: y' :: ys, hc, hs, hb, x, j, hx, hj, hxj, ⟨y, hy, hjy⟩ => by
    simp only [List.head?_cons, Option.some.injEq] at hx
    subst hx
    rcases Nat.eq_or_lt_of_le hxj with rfl | hxj
    · exact List.mem_cons_self _ _
    obtain ⟨hy', hc'⟩ : y' = l.nextUnspent x' ∧ (y' :: ys).Chain' _ := by
      cases hc with
      | cons h1 h2 => exact ⟨h1, h2⟩
    have hlt : x' < y' := List.rel_of_pairwise_cons hs (List.mem_cons_self _ _)
    rcases Nat.lt_or_ge j y' with hjy' | hjy'
    · have := Leafset.nextUnspent_gap (hb x' (List.mem_cons_self _ _)) hxj (hy' ▸ hjy')
      rw [hj] at this
      cases this
    refine List.mem_cons_of_mem _ (mem_of_chain_nextUnspent hc' hs.of_cons
      (fun z hz => hb z (List.mem_cons_of_mem _ hz)) rfl hj hjy' ⟨y, ?_, hjy⟩)
    rcases List.mem_cons.1 hy with rfl | hy
    · omega
    · exact hy

/-! ## The peaks the code walks -/

theorem nodeIdx_le_mmrSize {N : Nat} (hN : N < 2 ^ 64) : LeafIdx.nodeIdx N ≤ mmrSize N := by
  rw [mmrSize_eq hN, LeafIdx.nodeIdx, wrap64]
  exact Nat.mod_le _ _

theorem le_of_mmrSize_le_nodeIdx {N N' : Nat} (hN : N < 2 ^ 64) (hN' : N' < 2 ^ 64)
    (hsz : mmrSize N' ≤ LeafIdx.nodeIdx N) : N' ≤ N := by
  by_contra hlt
  have := mmrSize_strictMono (Nat.lt_of_not_le hlt) hN'
  have := nodeIdx_le_mmrSize hN
  omega

/-- An accepted verification on the tree: the leaf walk and both passes succeeded, and the
bagged peaks are the header's root. -/
theorem verifyTree_true [DecidableEq δ] {H : Hashing δ} {mwebHeader : MwebHeader δ}
    {mwebLeafset : Leafset} {mwebUtxos : MsgMwebUtxos δ} {peaks : List MmrNode}
    (hN : mwebHeader.outputMMRSize ≠ 0)
    (h : verifyTree H mwebHeader mwebLeafset mwebUtxos peaks = true) :
    ∃ last w₁ ds₁ w₂ d ds,
      leafWalk mwebLeafset mwebUtxos.startIndex.toNat mwebUtxos.utxos = some last ∧
      treePass H (LeafIdx.nodeIdx mwebHeader.outputMMRSize.toNat) peaks
        (VerifyMwebUtxosVars.start mwebUtxos mwebLeafset last) = some (w₁, ds₁) ∧
      treePass H (LeafIdx.nodeIdx mwebHeader.outputMMRSize.toNat) peaks w₁ =
        some (w₂, d :: ds) ∧
      mmrBag H (LeafIdx.nodeIdx mwebHeader.outputMMRSize.toNat) d ds = mwebHeader.outputRoot := by
  unfold verifyTree at h
  split_ifs at h with g1 g2
  · exact absurd g1.2.2.2.2 hN
  rcases hW : leafWalk mwebLeafset mwebUtxos.startIndex.toNat mwebUtxos.utxos with _ | last <;>
    rw [hW] at h
  · simp at h
  simp only at h
  rcases hT : treePasses H (LeafIdx.nodeIdx mwebHeader.outputMMRSize.toNat) peaks
    (VerifyMwebUtxosVars.start mwebUtxos mwebLeafset last) with _ | ⟨w, _ | ⟨d, ds⟩⟩ <;>
    simp only [hT] at h
  · simp at h
  · simp at h
  simp only [decide_eq_true_eq] at h
  simp only [treePasses, Option.bind_eq_some] at hT
  obtain ⟨⟨w₁, ds₁⟩, h₁, h₂⟩ := hT
  exact ⟨last, w₁, ds₁, w, d, ds, rfl, h₁, h₂, h⟩

/-! ## Accepted batches -/

/-- An accepted batch is not empty unless the header has no leaf. -/
theorem outputMMRSize_pos_of_accepted [DecidableEq δ] {H : Hashing δ}
    {mwebHeader : MwebHeader δ} {mwebLeafset : Leafset} {mwebUtxos : MsgMwebUtxos δ}
    (hne : mwebUtxos.utxos ≠ [])
    (hacc : verifyMwebUtxos H mwebHeader mwebLeafset mwebUtxos = .ok true) :
    1 ≤ mwebHeader.outputMMRSize.toNat := by
  unfold verifyMwebUtxos at hacc
  split_ifs at hacc with h1 h2
  · exact absurd (List.length_eq_zero.1 h1.2.1) hne
  · cases hacc
  · exact Nat.one_le_iff_ne_zero.2 fun h0 =>
      h2 (.inr (UInt64.eq_of_val_eq (Fin.ext (by simpa using h0))))

/-- The indices of an accepted batch: the leaf walk from `StartIndex` read them, and, being
the leaves the second pass reaches, they ascend and stay below the header's leaf count. -/
theorem accepted_leafIndices [DecidableEq δ] {H : Hashing δ} {mwebHeader : MwebHeader δ}
    {mwebLeafset : Leafset} {mwebUtxos : MsgMwebUtxos δ} (hN : 1 ≤ mwebHeader.outputMMRSize.toNat)
    (hacc : verifyMwebUtxos H mwebHeader mwebLeafset mwebUtxos = .ok true) :
    (∃ last, leafWalk mwebLeafset mwebUtxos.startIndex.toNat mwebUtxos.utxos = some last) ∧
      (mwebUtxos.utxos.map fun u => u.leafIndex.toNat).Pairwise (· < ·) ∧
      ∀ u ∈ mwebUtxos.utxos, u.leafIndex.toNat < mwebHeader.outputMMRSize.toNat := by
  have hN64 : mwebHeader.outputMMRSize.toNat < 2 ^ 64 := mwebHeader.outputMMRSize.val.isLt
  have hnn : LeafIdx.nodeIdx mwebHeader.outputMMRSize.toNat < 2 ^ 64 :=
    Nat.mod_lt _ (Nat.two_pow_pos 64)
  obtain ⟨N, hN', hsz, hpk⟩ := calcPeaks_exists hnn
  rw [verifyMwebUtxos_eq mwebHeader mwebLeafset mwebUtxos hN' hsz hpk] at hacc
  have hne : mwebHeader.outputMMRSize ≠ 0 := fun h => by rw [h] at hN; simp at hN
  obtain ⟨last, w₁, ds₁, w₂, d, ds, hW, h₁, h₂, -⟩ := verifyTree_true hne (Except.ok.inj hacc)
  have hutxo : mwebUtxos.utxos.map (fun u => u.leafIndex.toNat) =
      walkAttempts w₁.isProofHash mwebLeafset mwebUtxos.startIndex.toNat last (mmrPeaks N) :=
    treePasses_utxos (wellFormed_mmrPeaks hN' (by omega))
      (fun P hP => lt_of_lt_of_le (pos_lt_mmrSize hN' (mem_mmrPeaks hN' hP).1) hsz) rfl h₁ h₂
  have hNle := le_of_mmrSize_le_nodeIdx hN64 hN' hsz
  refine ⟨⟨last, hW⟩, hutxo ▸ walkAttempts_sorted (pairwise_mmrPeaks N), fun u hu => ?_⟩
  have := lt_of_mem_walkAttempts_mmrPeaks hN' (hutxo ▸ List.mem_map_of_mem _ hu)
  omega

/-- The shape of a batch over a leafset and a leaf count `N`: its indices start at
`StartIndex`, each is `nextUnspent` of the one before, they ascend, each is set and below `N`,
and every set index from `StartIndex` up to one of them is one of them. -/
structure BatchShape (mwebLeafset : Leafset) (N : Nat) (mwebUtxos : MsgMwebUtxos δ) : Prop where
  head : (mwebUtxos.utxos.map fun u => u.leafIndex.toNat).head? = some mwebUtxos.startIndex.toNat
  chain : (mwebUtxos.utxos.map fun u => u.leafIndex.toNat).Chain'
    fun i j => j = mwebLeafset.nextUnspent i
  ascending : (mwebUtxos.utxos.map fun u => u.leafIndex.toNat).Pairwise (· < ·)
  set_below : ∀ u ∈ mwebUtxos.utxos, mwebLeafset.contains u.leafIndex.toNat ∧
    u.leafIndex.toNat < N
  gapless : ∀ j, mwebLeafset.contains j → mwebUtxos.startIndex.toNat ≤ j →
    (∃ u ∈ mwebUtxos.utxos, j ≤ u.leafIndex.toNat) → ∃ u ∈ mwebUtxos.utxos, u.leafIndex.toNat = j

/-- **An accepted batch has the shape of a leafset range below the header's leaf count.** -/
theorem verifyMwebUtxos_accepted_shape [DecidableEq δ] (H : Hashing δ)
    (mwebHeader : MwebHeader δ) (mwebLeafset : Leafset) (mwebUtxos : MsgMwebUtxos δ)
    (hN : 1 ≤ mwebHeader.outputMMRSize.toNat)
    (hacc : verifyMwebUtxos H mwebHeader mwebLeafset mwebUtxos = .ok true) :
    BatchShape mwebLeafset mwebHeader.outputMMRSize.toNat mwebUtxos := by
  obtain ⟨⟨last, hW⟩, hsorted, hbelow⟩ := accepted_leafIndices hN hacc
  obtain ⟨hhead, hchain, hset, -⟩ := leafWalk_some hW
  refine ⟨hhead, hchain, hsorted, fun u hu => ⟨hset u hu, hbelow u hu⟩,
    fun j hj hsj ⟨u, hu, hju⟩ => ?_⟩
  obtain ⟨u', hu', rfl⟩ := List.mem_map.1 (mem_of_chain_nextUnspent hchain hsorted
    (fun y hy => by
      obtain ⟨w, hw, rfl⟩ := List.mem_map.1 hy
      exact lt_trans (hbelow w hw) mwebHeader.outputMMRSize.val.isLt)
    hhead hj hsj ⟨u.leafIndex.toNat, List.mem_map_of_mem _ hu, hju⟩)
  exact ⟨u', hu', rfl⟩

/-- The root of the MMR of five leaves over `freeIds`: the peak of leaves `0`–`3` at position
`6`, bagged with leaf `4`'s at `nodeIdx(5) = 8`. -/
def fiveLeafRoot : FreeDigest :=
  .node 8 (.node 6 (.node 2 (.leaf 0 (freeIds 0)) (.leaf 1 (freeIds 1)))
    (.node 5 (.leaf 3 (freeIds 2)) (.leaf 4 (freeIds 3)))) (.leaf 7 (freeIds 4))

/-- A batch over the leafset `[0xD8]` (leaves `0`, `1`, `3`, `4`) from leaf `1` to leaf `3`,
skipping the spent leaf `2`: the proof hashes are leaf `0`'s, the spent leaf's and the bagged
peak of leaf `4`. -/
def fiveLeafBatch : MsgMwebUtxos FreeDigest :=
  ⟨.outputId 0, 1, 0, [⟨1, freeIds 1⟩, ⟨3, freeIds 3⟩],
    [.leaf 0 (freeIds 0), .leaf 3 (freeIds 2), .leaf 7 (freeIds 4)]⟩

theorem verifyMwebUtxos_fiveLeafBatch :
    verifyMwebUtxos freeHashing ⟨fiveLeafRoot, 5, .outputId 0⟩ [0xD8] fiveLeafBatch = .ok true := by
  rfl

theorem verifyMwebUtxos_accepted_shape_five_leaves :
    1 ≤ (5 : UInt64).toNat ∧
      verifyMwebUtxos freeHashing ⟨fiveLeafRoot, 5, .outputId 0⟩ [0xD8] fiveLeafBatch = .ok true ∧
      BatchShape [0xD8] 5 fiveLeafBatch :=
  ⟨by decide, verifyMwebUtxos_fiveLeafBatch, verifyMwebUtxos_accepted_shape freeHashing
    ⟨fiveLeafRoot, 5, .outputId 0⟩ [0xD8] fiveLeafBatch (by decide) verifyMwebUtxos_fiveLeafBatch⟩

end NeutrinoMweb
