import NeutrinoMweb.Accounting
import NeutrinoMweb.TreeVerifier

/-!
# The second pass pays for every miss

The first pass of the verifier runs against no marks and records each node it pulls a proof
hash for; the second runs against those marks, and both must use every proof hash. At a node
of a peak the second pass pulls where the first pulled, at the same cost, and descends only
where the first returned a digest. Where it descends it finds a digest again, unless a leaf it
reaches does not get the utxo carrying that leaf, and such a miss costs it a proof hash the
first pass did not pay (`visit_second_pass`). Summed over the peaks, a miss would make the
second pass need more proof hashes than the first used; so in an accepted batch there is none,
and the utxos are, in order, the leaves the second pass reaches (`treePasses_utxos`).
-/

namespace NeutrinoMweb

variable {δ : Type} {H : Hashing δ}

open VerifyMwebUtxosVars

/-- The second pass's run `r₂` from `v₂` costs at least what the first pass's run `r₁` from
`v₁` cost, and more unless the utxos from `v₂` on carry the attempted leaves `ls`; it misses
its digest only when they do not. -/
structure PaysMore (v₁ : VerifyMwebUtxosVars δ) (r₁ : VerifyMwebUtxosVars δ × Option δ)
    (v₂ : VerifyMwebUtxosVars δ) (r₂ : VerifyMwebUtxosVars δ × Option δ) (ls : List Nat) :
    Prop where
  le : cost v₁ r₁ ≤ cost v₂ r₂
  lt : ¬Matches v₂ ls → cost v₁ r₁ < cost v₂ r₂
  miss : r₂.2 = none → ¬Matches v₂ ls

variable (H) in
/-- `v₁` and `v₂` are the states in which the first and the second pass reach the node
`⟨a, h⟩`: the inputs are the same, the first pass has marked nothing in the node's interval
yet, and the second pass's marks there are those the first pass's descent made, with the node
itself when that descent returned no digest. -/
structure SecondPassAt (K : List Nat) (h a : Nat) (v₁ v₂ : VerifyMwebUtxosVars δ) : Prop where
  inputs : v₂.inputs = v₁.inputs
  fresh : ∀ q, mmrSize a ≤ q → q ≤ MmrNode.pos ⟨a, h⟩ → q ∉ v₁.isProofHash
  marks : ∀ q, mmrSize a ≤ q → q ≤ MmrNode.pos ⟨a, h⟩ →
    (q ∈ K ↔ q ∈ (visit H [] h a v₁).1.isProofHash ∨
      (q = MmrNode.pos ⟨a, h⟩ ∧ (visit H [] h a v₁).2 = none))

namespace SecondPassAt

variable {K : List Nat} {h a : Nat} {v₁ v₂ : VerifyMwebUtxosVars δ}
  (hp : SecondPassAt H K h a v₁ v₂) (hn : (⟨a, h⟩ : MmrNode).InMmr (2 ^ 64))
include hp

theorem firstLeafIdx_eq : v₂.firstLeafIdx = v₁.firstLeafIdx :=
  congrArg (fun x => x.2.2.1) hp.inputs

theorem leafset_eq : v₂.leafset = v₁.leafset := congrArg (fun x => x.2.1) hp.inputs

theorem lastLeafIdx_eq : v₂.lastLeafIdx = v₁.lastLeafIdx :=
  congrArg (fun x => x.2.2.2) hp.inputs

include hn in
/-- Where the second pass pulls, the first paid at most one proof hash: it pulled there too,
or it returned no digest and was pulled by its caller. -/
theorem cost_le_one_of_pulled (hs₁ : Supplied (visit H [] h a v₁))
    (hc₂ : MmrNode.pos ⟨a, h⟩ < LeafIdx.nodeIdx v₂.firstLeafIdx ∨ MmrNode.pos ⟨a, h⟩ ∈ K) :
    cost v₁ (visit H [] h a v₁) ≤ 1 := by
  have hself := mmrSize_le_pos a h
  by_cases hc₁ : MmrNode.pos ⟨a, h⟩ < LeafIdx.nodeIdx v₁.firstLeafIdx ∨
      MmrNode.pos ⟨a, h⟩ ∈ ([] : List Nat)
  · rw [visit_pulled hc₁, nextHash_cost]
  rcases hc₂ with hlt | hK
  · exact absurd (.inl (hp.firstLeafIdx_eq ▸ hlt)) hc₁
  rcases (hp.marks _ hself le_rfl).1 hK with hm | ⟨-, hr⟩
  · obtain ⟨A, hA, hq⟩ := visit_marks_lt (H := H) (v := v₁) hn hc₁
    rw [hA, List.mem_append] at hm
    rcases hm with hm | hm
    · exact absurd (hq _ hm) (lt_irrefl _)
    · exact absurd hm (hp.fresh _ hself le_rfl)
  · have := (visit_none [] hn v₁ hs₁ hr).1
    simp [cost, this, hr]

include hn in
theorem paysMore_of_pulled (hs₁ : Supplied (visit H [] h a v₁))
    (hs₂ : Supplied (visit H K h a v₂))
    (hc₂ : MmrNode.pos ⟨a, h⟩ < LeafIdx.nodeIdx v₂.firstLeafIdx ∨ MmrNode.pos ⟨a, h⟩ ∈ K) :
    PaysMore v₁ (visit H [] h a v₁) v₂ (visit H K h a v₂)
      (attempts K v₂.leafset v₂.firstLeafIdx v₂.lastLeafIdx h a) := by
  have h1 := hp.cost_le_one_of_pulled hn hs₁ hc₂
  rw [attempts_pulled hc₂]
  rw [visit_pulled hc₂] at hs₂ ⊢
  have hsome := nextHash_isSome_of_supplied _ _ hs₂
  refine ⟨by rw [nextHash_cost]; exact h1, fun h => absurd (matches_nil v₂) h, fun h => ?_⟩
  rw [h] at hsome
  exact absurd hsome Bool.false_ne_true

/-- Where the second pass descends, so did the first, and it returned a digest. -/
theorem first_of_not_pulled
    (hc₂ : ¬(MmrNode.pos ⟨a, h⟩ < LeafIdx.nodeIdx v₂.firstLeafIdx ∨ MmrNode.pos ⟨a, h⟩ ∈ K)) :
    (visit H [] h a v₁).2.isSome ∧
      ¬(MmrNode.pos ⟨a, h⟩ < LeafIdx.nodeIdx v₁.firstLeafIdx ∨
        MmrNode.pos ⟨a, h⟩ ∈ ([] : List Nat)) := by
  have hpK : MmrNode.pos ⟨a, h⟩ ∉ K := fun h' => hc₂ (.inr h')
  rw [hp.marks _ (mmrSize_le_pos a h) le_rfl] at hpK
  refine ⟨Option.isSome_iff_ne_none.2 fun hr => hpK (.inr ⟨rfl, hr⟩), ?_⟩
  rintro (h' | h')
  · exact hc₂ (.inl (hp.firstLeafIdx_eq ▸ h'))
  · exact absurd h' (List.not_mem_nil _)

end SecondPassAt

namespace SecondPassAt

variable {K : List Nat} {h a : Nat} {v₁ v₂ : VerifyMwebUtxosVars δ}
  (hp : SecondPassAt H K (h + 1) a v₁ v₂) (hn : (⟨a, h + 1⟩ : MmrNode).InMmr (2 ^ 64))
  (hc₁ : ¬(MmrNode.pos ⟨a, h + 1⟩ < LeafIdx.nodeIdx v₁.firstLeafIdx ∨
    MmrNode.pos ⟨a, h + 1⟩ ∈ ([] : List Nat)))
  (hr₁ : (visit H [] (h + 1) a v₁).2.isSome)
include hp hn hc₁ hr₁

theorem left : SecondPassAt H K h a v₁ v₂ where
  inputs := hp.inputs
  fresh q h1 h2 := hp.fresh q h1 (by have := pos_left_lt a h; omega)
  marks q h1 h2 := by
    have := pos_left_lt a h
    rw [hp.marks q h1 (by omega), visit_succ_marks_left hn hc₁ hr₁ h2]
    have hne : q ≠ MmrNode.pos ⟨a, h + 1⟩ := by omega
    simp only [hne, false_and, or_false]

/-- The two passes at the right child, when the last leaf does not cut it off. -/
theorem right (hcut : ¬LeafIdx.nodeIdx v₁.lastLeafIdx ≤ MmrNode.pos ⟨a, h⟩) :
    SecondPassAt H K h (a + 2 ^ h) (visit H [] h a v₁).1 (visit H K h a v₂).1 where
  inputs := by
    rw [(visit_marks (H := H) K hn.leftChild v₂).1.inputs,
      (visit_marks (H := H) [] hn.leftChild v₁).1.inputs, hp.inputs]
  fresh q h1 h2 := by
    obtain ⟨hI1, hI2⟩ := child_intervals hn
    obtain ⟨-, A, hA, hq⟩ := visit_marks (H := H) [] hn.leftChild v₁
    have := mmrSize_le_pos a h
    rw [hA, List.mem_append]
    rintro (hm | hm)
    · have := hq q hm; omega
    · exact hp.fresh q (by omega) (by omega) hm
  marks q h1 h2 := by
    obtain ⟨hI1, hI2⟩ := child_intervals hn
    have := mmrSize_le_pos a h
    have hR : rightChild (visit H [] h) h a (visit H [] h a v₁).1 =
        visit H [] h (a + 2 ^ h) (visit H [] h a v₁).1 := by
      rw [rightChild, if_neg (by
        rw [(visit_marks (H := H) [] hn.leftChild v₁).1.lastLeafIdx_eq]; exact hcut)]
    rw [hp.marks q (by omega) (by omega), visit_succ_marks_right hn hc₁ hr₁ h1, hR]
    have hne : q ≠ MmrNode.pos ⟨a, h + 1⟩ := by omega
    simp only [hne, false_and, or_false]

end SecondPassAt

/-- **The second pass pays for every miss.** At a node of the MMR, the second pass's descent
costs at least what the first pass's cost, and strictly more unless the utxos from its cursor
on carry exactly the leaves it attempts; it returns no digest only when they do not. Both
descents are supplied, as in every accepted pass. -/
theorem visit_second_pass {K : List Nat} {h a : Nat} (hn : (⟨a, h⟩ : MmrNode).InMmr (2 ^ 64))
    {v₁ v₂ : VerifyMwebUtxosVars δ} (hp : SecondPassAt H K h a v₁ v₂)
    (hs₁ : Supplied (visit H [] h a v₁)) (hs₂ : Supplied (visit H K h a v₂)) :
    PaysMore v₁ (visit H [] h a v₁) v₂ (visit H K h a v₂)
      (attempts K v₂.leafset v₂.firstLeafIdx v₂.lastLeafIdx h a) := by
  induction h generalizing a v₁ v₂ with
  | zero =>
    by_cases hc₂ : MmrNode.pos ⟨a, 0⟩ < LeafIdx.nodeIdx v₂.firstLeafIdx ∨
        MmrNode.pos ⟨a, 0⟩ ∈ K
    · exact hp.paysMore_of_pulled hn hs₁ hs₂ hc₂
    obtain ⟨hr₁, hc₁⟩ := hp.first_of_not_pulled hc₂
    obtain ⟨hu₁, -, hd₁⟩ := visit_zero_spec (H := H) hc₁
    obtain ⟨hu₂, -, hd₂⟩ := visit_zero_spec (H := H) hc₂
    have hset : v₂.leafset.contains a := hp.leafset_eq ▸ (hd₁.1 hr₁).1
    rw [attempts, if_neg hc₂, if_pos hset]
    have hc₁0 : cost v₁ (visit H [] 0 a v₁) = 0 := by
      unfold cost
      rw [hu₁, if_pos hr₁, Nat.sub_self]
    refine ⟨by omega, fun hm => ?_, fun hnone hm => ?_⟩
    · have : (visit H K 0 a v₂).2.isSome = false := by simpa [hset, hm] using hd₂
      rw [hc₁0, cost, this]
      simp
    · have := hd₂.2 ⟨hset, hm⟩
      rw [hnone] at this
      exact absurd this Bool.false_ne_true
  | succ h ih =>
    by_cases hc₂ : MmrNode.pos ⟨a, h + 1⟩ < LeafIdx.nodeIdx v₂.firstLeafIdx ∨
        MmrNode.pos ⟨a, h + 1⟩ ∈ K
    · exact hp.paysMore_of_pulled hn hs₁ hs₂ hc₂
    obtain ⟨hr₁, hc₁⟩ := hp.first_of_not_pulled hc₂
    obtain ⟨hsL₁, hsR₁⟩ := visit_supplied_children hn hc₁ hs₁
    obtain ⟨hsL₂, hsR₂⟩ := visit_supplied_children hn hc₂ hs₂
    have hL := ih hn.leftChild (hp.left hn hc₁ hr₁) hsL₁ hsL₂
    have hl₁ := (visit_marks (H := H) [] hn.leftChild v₁).1
    have hl₂ := (visit_marks (H := H) K hn.leftChild v₂).1
    have hR : PaysMore (visit H [] h a v₁).1 (rightChild (visit H [] h) h a (visit H [] h a v₁).1)
        (visit H K h a v₂).1 (rightChild (visit H K h) h a (visit H K h a v₂).1)
        (if LeafIdx.nodeIdx v₂.lastLeafIdx ≤ MmrNode.pos ⟨a, h⟩ then []
          else attempts K v₂.leafset v₂.firstLeafIdx v₂.lastLeafIdx h (a + 2 ^ h)) := by
      simp only [rightChild, hl₁.lastLeafIdx_eq, hl₂.lastLeafIdx_eq, hp.lastLeafIdx_eq]
        at hsR₁ hsR₂ ⊢
      split_ifs at hsR₁ hsR₂ ⊢ with hcut
      · have hsome := nextHash_isSome_of_supplied _ _ hsR₂
        refine ⟨by rw [nextHash_cost, nextHash_cost], fun h => absurd (matches_nil _) h,
          fun h => ?_⟩
        rw [h] at hsome
        exact absurd hsome Bool.false_ne_true
      · simpa only [hl₂.leafset_eq, hl₂.firstLeafIdx_eq, hl₂.lastLeafIdx_eq, hp.lastLeafIdx_eq]
          using ih hn.rightChild (hp.right hn hc₁ hr₁ hcut) hsR₁ hsR₂
    have hm := matches_append (t := if LeafIdx.nodeIdx v₂.lastLeafIdx ≤ MmrNode.pos ⟨a, h⟩
      then [] else attempts K v₂.leafset v₂.firstLeafIdx v₂.lastLeafIdx h (a + 2 ^ h))
      hl₂.mwebUtxos_eq (visit_leavesUsed K hn.leftChild v₂)
    have e₁ := visit_succ_cost (H := H) hn hc₁
    have e₂ := visit_succ_cost (H := H) hn hc₂
    have hnone : (visit H K (h + 1) a v₂).2 = none → (visit H K h a v₂).2 = none ∧
        (rightChild (visit H K h) h a (visit H K h a v₂).1).2 = none := by
      rw [visit_succ hc₂] at hs₂ ⊢
      exact joinChildren_none hs₂
    rw [attempts, if_neg hc₂]
    by_cases hb : (visit H K h a v₂).2 = none ∧
        (rightChild (visit H K h) h a (visit H K h a v₂).1).2 = none
    · rw [if_pos (by simp [hb.1, hb.2])] at e₂
      have := hL.lt (hL.miss hb.1)
      have := hR.lt (hR.miss hb.2)
      have hlt : cost v₁ (visit H [] (h + 1) a v₁) < cost v₂ (visit H K (h + 1) a v₂) := by
        omega
      exact ⟨Nat.le_of_lt hlt, fun _ => hlt, fun _ hG => hL.miss hb.1 (hm.1 hG).1⟩
    · rw [if_neg (by simpa [Option.isNone_iff_eq_none] using hb)] at e₂
      refine ⟨by have := hL.le; have := hR.le; omega, fun hG => ?_,
        fun hJ => absurd (hnone hJ) hb⟩
      rw [hm] at hG
      by_cases hGL : Matches v₂ (attempts K v₂.leafset v₂.firstLeafIdx v₂.lastLeafIdx h a)
      · have := hR.lt fun hGR => hG ⟨hGL, hGR⟩
        have := hL.le
        omega
      · have := hL.lt hGL
        have := hR.le
        omega

/-! ## Over the peaks -/

/-- The leaves a pass's walk over the peaks `rest` asks for utxos at, in order. -/
def walkAttempts (M : List Nat) (L : Leafset) (first last : Nat) : List MmrNode → List Nat
  | [] => []
  | P :: rest => attempts M L first last P.height P.leaf ++
      if LeafIdx.nodeIdx last ≤ P.pos then [] else walkAttempts M L first last rest

/-- A peak digest the walk keeps: the descent was supplied, the walk paid its cost, and it
marked the descent's marks and the peak itself when the descent had no digest. -/
theorem peakDigest_some {M : List Nat} {P : MmrNode} (hP : P.InMmr (2 ^ 64))
    {v w : VerifyMwebUtxosVars δ} {d : δ} (h : peakDigest H M P v = (w, some d)) :
    Supplied (visit H M P.height P.leaf v) ∧
      w.hashesUsed = v.hashesUsed + cost v (visit H M P.height P.leaf v) ∧
      w.leavesUsed = (visit H M P.height P.leaf v).1.leavesUsed ∧
      Later (visit H M P.height P.leaf v).1 w ∧
      ∀ q, q ∈ w.isProofHash ↔ q ∈ (visit H M P.height P.leaf v).1.isProofHash ∨
        (q = P.pos ∧ (visit H M P.height P.leaf v).2 = none) := by
  have hv := (visit_marks (H := H) M hP v).1
  rcases hV : visit H M P.height P.leaf v with ⟨x, _ | e⟩ <;>
    simp only [peakDigest, hV] at h hv ⊢
  · have hs := nextHash_isSome x P.pos
    have hu := nextHash_hashesUsed x P.pos
    have hm := nextHash_isProofHash x P.pos
    have hl := nextHash_later x P.pos
    have hlu := nextHash_leavesUsed x P.pos
    rw [h] at hs hu hm hl hlu
    dsimp only at hu hm hl hlu
    simp only [Option.isSome_some, true_iff] at hs
    refine ⟨Or.inr hs, ?_, hlu, hl, fun q => ?_⟩
    · simp only [cost, hu, Option.isSome_none, Bool.false_eq_true, if_false]
      have := hv.hashesUsed
      omega
    · simp [hm, hs, or_comm]
  · simp only [Prod.mk.injEq] at h
    obtain ⟨rfl, -⟩ := h
    refine ⟨Or.inl rfl, ?_, rfl, Later.refl _, fun q => by simp⟩
    simp only [cost, Option.isSome_some, if_true]
    have := hv.hashesUsed
    omega

/-- The end of the walk: the bagged digest of the peaks after this one is pulled when there
are any. -/
theorem breakTree_some {nn : Nat} {rest : List MmrNode} {x w : VerifyMwebUtxosVars δ}
    {ds es : List δ} (h : breakTree nn rest x ds = some (w, es)) :
    Later x w ∧ w.leavesUsed = x.leavesUsed ∧
      w.hashesUsed = x.hashesUsed + (if rest.length = 0 then 0 else 1) ∧
      ∀ q ∈ w.isProofHash, q ∈ x.isProofHash ∨ q = nn := by
  unfold breakTree at h
  split at h
  · simp only [Option.some.injEq, Prod.mk.injEq] at h
    obtain ⟨rfl, -⟩ := h
    rename_i hr
    exact ⟨Later.refl _, rfl, by simp [hr], fun q hq => .inl hq⟩
  · rename_i hr
    have hs := nextHash_isSome x nn
    have hu := nextHash_hashesUsed x nn
    have hm := nextHash_isProofHash x nn
    have hl := nextHash_later x nn
    have hlu := nextHash_leavesUsed x nn
    rcases hN : x.nextHash nn with ⟨y, _ | b⟩ <;> rw [hN] at h hs hu hm hl hlu
    · simp at h
    simp only [Option.some.injEq, Prod.mk.injEq] at h
    obtain ⟨rfl, -⟩ := h
    dsimp only at hu hm hl hlu
    simp only [Option.isSome_some, true_iff] at hs
    refine ⟨hl, hlu, by simp [hu, List.length_eq_zero, hr]; omega, fun q hq => ?_⟩
    simp only [hm, if_pos hs, List.mem_cons] at hq
    exact Or.symm hq

/-- A walk marks only nodes of its peaks' subtrees, and the bagging index. -/
theorem walkPeaks_marks {M : List Nat} {nn : Nat} {rest : List MmrNode} (hw : PeaksWF rest)
    {v w : VerifyMwebUtxosVars δ} {ds es : List δ} (h : walkPeaks H M nn rest v ds = some (w, es)) :
    ∀ q ∈ w.isProofHash, q ∈ v.isProofHash ∨ q = nn ∨
      ∃ P ∈ rest, mmrSize P.leaf ≤ q ∧ q ≤ P.pos := by
  induction rest generalizing v ds with
  | nil =>
    simp only [walkPeaks, Option.some.injEq, Prod.mk.injEq] at h
    obtain ⟨rfl, -⟩ := h
    exact fun q hq => .inl hq
  | cons P rest ih =>
    have hP := hw.inMmr P (List.mem_cons_self _ _)
    simp only [walkPeaks] at h
    rcases hD : peakDigest H M P v with ⟨x, _ | d⟩ <;> rw [hD] at h
    · simp at h
    obtain ⟨-, -, -, -, hm⟩ := peakDigest_some hP hD
    obtain ⟨-, A, hA, hqA⟩ := visit_marks (H := H) M hP v
    have hx : ∀ q ∈ x.isProofHash, q ∈ v.isProofHash ∨ q = nn ∨
        ∃ Q ∈ P :: rest, mmrSize Q.leaf ≤ q ∧ q ≤ Q.pos := by
      intro q hq
      rcases (hm q).1 hq with hq | ⟨rfl, -⟩
      · rw [hA, List.mem_append] at hq
        rcases hq with hq | hq
        · exact .inr (.inr ⟨P, List.mem_cons_self _ _, hqA q hq⟩)
        · exact .inl hq
      · exact .inr (.inr ⟨P, List.mem_cons_self _ _, mmrSize_le_pos _ _, le_rfl⟩)
    simp only at h
    split at h
    · intro q hq
      rcases (breakTree_some h).2.2.2 q hq with hq | rfl
      · exact hx q hq
      · exact .inr (.inl rfl)
    · intro q hq
      rcases ih (hw.suffix (List.suffix_cons P rest)) h q hq with hq | hq | ⟨Q, hQ, hQq⟩
      · exact hx q hq
      · exact .inr (.inl hq)
      · exact .inr (.inr ⟨Q, List.mem_cons_of_mem P hQ, hQq⟩)

/-- **A walk moves the leaf cursor past its attempts**, as far as the utxos go. -/
theorem walkPeaks_leavesUsed {M : List Nat} {nn : Nat} {rest : List MmrNode}
    (hw : PeaksWF rest) {v w : VerifyMwebUtxosVars δ} {ds es : List δ}
    (h : walkPeaks H M nn rest v ds = some (w, es)) :
    w.leavesUsed = min (v.leavesUsed +
      (walkAttempts M v.leafset v.firstLeafIdx v.lastLeafIdx rest).length)
      v.mwebUtxos.utxos.length := by
  have hle := v.leavesUsed_le
  induction rest generalizing v ds with
  | nil =>
    simp only [walkPeaks, Option.some.injEq, Prod.mk.injEq] at h
    obtain ⟨rfl, -⟩ := h
    simp [walkAttempts]; omega
  | cons P rest ih =>
    have hP := hw.inMmr P (List.mem_cons_self _ _)
    simp only [walkPeaks] at h
    rcases hD : peakDigest H M P v with ⟨x, _ | d⟩ <;> rw [hD] at h
    · simp at h
    obtain ⟨-, -, hlu, hl, -⟩ := peakDigest_some hP hD
    have hv := (visit_marks (H := H) M hP v).1
    have hx := visit_leavesUsed (H := H) M hP v
    simp only at h
    have hlast : x.lastLeafIdx = v.lastLeafIdx := hl.lastLeafIdx_eq.trans hv.lastLeafIdx_eq
    simp only [walkAttempts, List.length_append]
    split at h
    · rename_i hcut
      rw [hlast] at hcut
      rw [if_pos hcut, (breakTree_some h).2.1, hlu, hx]
      simp
    · rename_i hcut
      rw [hlast] at hcut
      rw [if_neg hcut, ih (hw.suffix (List.suffix_cons P rest)) h x.leavesUsed_le, hlu, hx,
        hl.leafset_eq, hl.firstLeafIdx_eq, hl.lastLeafIdx_eq, hl.mwebUtxos_eq, hv.leafset_eq,
        hv.firstLeafIdx_eq, hv.lastLeafIdx_eq, hv.mwebUtxos_eq]
      omega

/-- **Two walks at a peak.** Where the first pass's walk goes on from `x₁` to `w₁` and the
second pass reads the marks `w₁` holds in the peak's interval, the two passes stand at the peak
as `SecondPassAt` asks, and the first pass's marks stay left of the later peaks. -/
theorem secondPassAt_peak {nn : Nat} {K : List Nat} {P : MmrNode} {rest : List MmrNode}
    (hw : PeaksWF (P :: rest)) (hnn : ∀ Q ∈ P :: rest, Q.pos < nn)
    {v₁ v₂ x₁ w₁ : VerifyMwebUtxosVars δ} {d₁ : δ} {ds es : List δ} {c : Prop} [Decidable c]
    (hin : v₂.inputs = v₁.inputs)
    (hv₁ : ∀ q ∈ v₁.isProofHash, ∀ Q ∈ P :: rest, q < mmrSize Q.leaf)
    (hK : ∀ q, mmrSize P.leaf ≤ q → q ≤ P.pos → (q ∈ K ↔ q ∈ w₁.isProofHash))
    (hD₁ : peakDigest H [] P v₁ = (x₁, some d₁))
    (h₁ : (if c then breakTree nn rest x₁ ds else walkPeaks H [] nn rest x₁ ds) = some (w₁, es)) :
    SecondPassAt H K P.height P.leaf v₁ v₂ ∧ ∀ q ∈ x₁.isProofHash, ∀ Q ∈ rest, q < mmrSize Q.leaf := by
  have hP := hw.inMmr P (List.mem_cons_self _ _)
  have hnnP := hnn P (List.mem_cons_self _ _)
  have hord : ∀ Q ∈ rest, P.leaf + 2 ^ P.height ≤ Q.leaf := fun Q hQ =>
    List.rel_of_pairwise_cons hw.ordered hQ
  have hw' := hw.suffix (List.suffix_cons P rest)
  obtain ⟨-, -, -, -, hm₁⟩ := peakDigest_some hP hD₁
  obtain ⟨-, A, hA, hqA⟩ := visit_marks (H := H) [] hP v₁
  -- the rest of the first walk marks nothing in this peak's interval
  have htail : ∀ q, mmrSize P.leaf ≤ q → q ≤ P.pos →
      (q ∈ w₁.isProofHash ↔ q ∈ x₁.isProofHash) := by
    intro q h1 h2
    have hlater : Later x₁ w₁ := by
      split at h₁
      · exact (breakTree_some h₁).1
      · exact (walkPeaks_later hw' h₁).1
    refine ⟨fun hq => ?_, fun hq => ?_⟩
    · split at h₁
      · rcases (breakTree_some h₁).2.2.2 q hq with hq | rfl
        · exact hq
        · omega
      · rcases walkPeaks_marks hw' h₁ q hq with hq | rfl | ⟨Q, hQ, hQ1, -⟩
        · exact hq
        · omega
        · have := pos_lt_mmrSize_of_le hP (hw.inMmr Q (List.mem_cons_of_mem P hQ))
            (hord Q hQ)
          omega
    · obtain ⟨A, hA⟩ := hlater.marks
      rw [hA]
      exact List.mem_append_right _ hq
  refine ⟨⟨hin, fun q h1 _ hq => by have := hv₁ q hq P (List.mem_cons_self _ _); omega,
    fun q h1 h2 => by rw [hK q h1 h2, htail q h1 h2, hm₁ q]⟩, fun q hq Q hQ => ?_⟩
  have hPQ := pos_lt_mmrSize_of_le hP (hw.inMmr Q (List.mem_cons_of_mem P hQ)) (hord Q hQ)
  rcases (hm₁ q).1 hq with hq | ⟨rfl, -⟩
  · rw [hA, List.mem_append] at hq
    rcases hq with hq | hq
    · exact lt_of_le_of_lt (hqA q hq).2 hPQ
    · exact hv₁ q hq Q (List.mem_cons_of_mem P hQ)
  · exact hPQ

/-- **Over a walk, the second pass pays for every miss**: it uses at least as many proof
hashes as the first, and more unless the utxos from its cursor on carry exactly the leaves it
attempts. -/
theorem walkPeaks_second_pass {nn : Nat} {K : List Nat} {rest : List MmrNode}
    (hw : PeaksWF rest) (hnn : ∀ P ∈ rest, P.pos < nn)
    {v₁ v₂ w₁ w₂ : VerifyMwebUtxosVars δ} {ds₁ ds₂ es₁ es₂ : List δ}
    (hin : v₂.inputs = v₁.inputs) (hv₁ : ∀ q ∈ v₁.isProofHash, ∀ P ∈ rest, q < mmrSize P.leaf)
    (hK : ∀ P ∈ rest, ∀ q, mmrSize P.leaf ≤ q → q ≤ P.pos → (q ∈ K ↔ q ∈ w₁.isProofHash))
    (h₁ : walkPeaks H [] nn rest v₁ ds₁ = some (w₁, es₁))
    (h₂ : walkPeaks H K nn rest v₂ ds₂ = some (w₂, es₂)) :
    w₁.hashesUsed - v₁.hashesUsed ≤ w₂.hashesUsed - v₂.hashesUsed ∧
      (¬Matches v₂ (walkAttempts K v₂.leafset v₂.firstLeafIdx v₂.lastLeafIdx rest) →
        w₁.hashesUsed - v₁.hashesUsed < w₂.hashesUsed - v₂.hashesUsed) := by
  induction rest generalizing v₁ v₂ ds₁ ds₂ with
  | nil =>
    simp only [walkPeaks, Option.some.injEq, Prod.mk.injEq] at h₁ h₂
    obtain ⟨rfl, -⟩ := h₁
    obtain ⟨rfl, -⟩ := h₂
    exact ⟨by simp, fun h => absurd (matches_nil _) h⟩
  | cons P rest ih =>
    have hP := hw.inMmr P (List.mem_cons_self _ _)
    have hw' := hw.suffix (List.suffix_cons P rest)
    simp only [walkPeaks] at h₁ h₂
    rcases hD₁ : peakDigest H [] P v₁ with ⟨x₁, _ | d₁⟩ <;> rw [hD₁] at h₁
    · simp at h₁
    rcases hD₂ : peakDigest H K P v₂ with ⟨x₂, _ | d₂⟩ <;> rw [hD₂] at h₂
    · simp at h₂
    simp only at h₁ h₂
    obtain ⟨hs₁, hu₁, -, hl₁, -⟩ := peakDigest_some hP hD₁
    obtain ⟨hs₂, hu₂, hlu₂, hl₂, -⟩ := peakDigest_some hP hD₂
    have hv₁' := (visit_marks (H := H) [] hP v₁).1
    have hv₂' := (visit_marks (H := H) K hP v₂).1
    have hlast : v₂.lastLeafIdx = v₁.lastLeafIdx := congrArg (fun x => x.2.2.2) hin
    rw [hl₁.lastLeafIdx_eq, hv₁'.lastLeafIdx_eq] at h₁
    rw [hl₂.lastLeafIdx_eq, hv₂'.lastLeafIdx_eq, hlast] at h₂
    obtain ⟨hpa, hx₁⟩ := secondPassAt_peak hw hnn hin hv₁ (hK P (List.mem_cons_self _ _)) hD₁ h₁
    have hpm := visit_second_pass hP hpa hs₁ hs₂
    rw [hlast] at hpm
    simp only [walkAttempts]
    rw [hlast]
    by_cases hcut : LeafIdx.nodeIdx v₁.lastLeafIdx ≤ P.pos
    · rw [if_pos hcut] at h₁ h₂ ⊢
      rw [List.append_nil]
      have hb₁ := (breakTree_some h₁).2.2.1
      have hb₂ := (breakTree_some h₂).2.2.1
      exact ⟨by have := hpm.le; omega, fun hm => by have := hpm.lt hm; omega⟩
    · rw [if_neg hcut] at h₁ h₂ ⊢
      have hin' : x₂.inputs = x₁.inputs :=
        hl₂.inputs.trans (hv₂'.inputs.trans (hin.trans (hv₁'.inputs.symm.trans hl₁.inputs.symm)))
      obtain ⟨ihle, ihlt⟩ := ih hw' (fun Q hQ => hnn Q (List.mem_cons_of_mem P hQ)) hin' hx₁
        (fun Q hQ => hK Q (List.mem_cons_of_mem P hQ)) h₁ h₂
      have hx₂ := hv₂'.trans hl₂
      rw [hx₂.leafset_eq, hx₂.firstLeafIdx_eq, hx₂.lastLeafIdx_eq, hlast] at ihlt
      have hm := matches_append (s := attempts K v₂.leafset v₂.firstLeafIdx v₁.lastLeafIdx
        P.height P.leaf) (t := walkAttempts K v₂.leafset v₂.firstLeafIdx v₁.lastLeafIdx rest)
        hx₂.mwebUtxos_eq (by rw [hlu₂, visit_leavesUsed K hP v₂, hlast])
      have hwx₁ := (walkPeaks_later hw' h₁).1.hashesUsed
      have hwx₂ := (walkPeaks_later hw' h₂).1.hashesUsed
      refine ⟨by have := hpm.le; omega, fun hG => ?_⟩
      rw [hm] at hG
      by_cases hGP : Matches v₂ (attempts K v₂.leafset v₂.firstLeafIdx v₁.lastLeafIdx
          P.height P.leaf)
      · have := ihlt fun hGR => hG ⟨hGP, hGR⟩
        have := hpm.le
        omega
      · have := hpm.lt hGP
        omega

/-- A pass that succeeds is a walk that succeeds from the reset cursors and uses every utxo
and every proof hash. -/
theorem treePass_some {nn : Nat} {peaks : List MmrNode} {v w : VerifyMwebUtxosVars δ}
    {ds : List δ} (h : treePass H nn peaks v = some (w, ds)) :
    walkPeaks H v.isProofHash nn peaks v.resetCursors [] = some (w, ds) ∧
      w.leavesUsed = w.mwebUtxos.utxos.length ∧
      w.hashesUsed = w.mwebUtxos.proofHashes.length := by
  unfold treePass at h
  rcases hW : walkPeaks H v.isProofHash nn peaks v.resetCursors [] with _ | ⟨w', ds'⟩ <;>
    rw [hW] at h
  · simp at h
  simp only at h
  split at h
  · simp at h
  rename_i hc
  push_neg at hc
  simp only [Option.some.injEq, Prod.mk.injEq] at h
  obtain ⟨rfl, rfl⟩ := h
  exact ⟨rfl, hc⟩

/-- **In two accepted passes the second pass misses nothing**: the utxos from its cursor on
carry exactly the leaves it attempts. -/
theorem treePasses_matches {nn : Nat} {peaks : List MmrNode} (hw : PeaksWF peaks)
    (hnn : ∀ P ∈ peaks, P.pos < nn) {v w₁ w₂ : VerifyMwebUtxosVars δ} {ds₁ ds₂ : List δ}
    (hv : v.isProofHash = []) (h₁ : treePass H nn peaks v = some (w₁, ds₁))
    (h₂ : treePass H nn peaks w₁ = some (w₂, ds₂)) :
    Matches w₁.resetCursors
      (walkAttempts w₁.isProofHash w₁.leafset w₁.firstLeafIdx w₁.lastLeafIdx peaks) := by
  obtain ⟨hw₁, -, hc₁⟩ := treePass_some h₁
  obtain ⟨hw₂, -, hc₂⟩ := treePass_some h₂
  rw [hv] at hw₁
  have hL₁ := (walkPeaks_later hw hw₁).1
  have hu₂ := (walkPeaks_later hw hw₂).1.mwebUtxos_eq
  have hin : w₁.resetCursors.inputs = v.resetCursors.inputs := by simp [hL₁.inputs]
  obtain ⟨-, hlt⟩ := walkPeaks_second_pass hw hnn hin (by simp [hv])
    (fun _ _ _ _ _ => Iff.rfl) hw₁ hw₂
  simp only [resetCursors_mwebUtxos, resetCursors_hashesUsed] at hlt hu₂
  rw [hu₂] at hc₂
  exact not_not.1 fun hm => by have := hlt hm; omega

/-- **In two accepted passes the utxos are the leaves the second pass reaches**, in order:
the second pass takes each utxo at the leaf it carries. -/
theorem treePasses_utxos {nn : Nat} {peaks : List MmrNode} (hw : PeaksWF peaks)
    (hnn : ∀ P ∈ peaks, P.pos < nn) {v w₁ w₂ : VerifyMwebUtxosVars δ} {ds₁ ds₂ : List δ}
    (hv : v.isProofHash = []) (h₁ : treePass H nn peaks v = some (w₁, ds₁))
    (h₂ : treePass H nn peaks w₁ = some (w₂, ds₂)) :
    v.mwebUtxos.utxos.map (fun u => u.leafIndex.toNat) =
      walkAttempts w₁.isProofHash v.leafset v.firstLeafIdx v.lastLeafIdx peaks := by
  have hm := treePasses_matches hw hnn hv h₁ h₂
  obtain ⟨hw₁, -, -⟩ := treePass_some h₁
  obtain ⟨hw₂, hl₂, -⟩ := treePass_some h₂
  rw [hv] at hw₁
  have hL₁ := (walkPeaks_later hw hw₁).1
  have hu₂ := (walkPeaks_later hw hw₂).1.mwebUtxos_eq
  have hlu := walkPeaks_leavesUsed hw hw₂
  simp only [resetCursors_mwebUtxos] at hu₂
  simp only [resetCursors_leavesUsed, resetCursors_mwebUtxos, resetCursors_leafset,
    resetCursors_firstLeafIdx, resetCursors_lastLeafIdx, Nat.zero_add] at hlu
  unfold Matches at hm
  simp only [resetCursors_leavesUsed, resetCursors_mwebUtxos, List.drop_zero] at hm
  rw [hL₁.leafset_eq, hL₁.firstLeafIdx_eq, hL₁.lastLeafIdx_eq, hL₁.mwebUtxos_eq] at hm hlu
  simp only [resetCursors_leafset, resetCursors_firstLeafIdx, resetCursors_lastLeafIdx,
    resetCursors_mwebUtxos] at hm hlu
  rw [← hm, List.take_of_length_le]
  simp only [List.length_map]
  rw [hu₂, hL₁.mwebUtxos_eq] at hl₂
  simp only [resetCursors_mwebUtxos] at hl₂
  omega

end NeutrinoMweb
