import NeutrinoMweb.Traversal

/-!
# The verifier on the tree

The passes, the leaf walk and the bagging, restated over the MMR's nodes: the peaks are
`mmrPeaks N` for the leaf count `N` whose peaks `calcPeaks` finds, each peak is a `visit`
against the marks held when its pass starts, and every digest the walk collects is present.
`verifyMwebUtxos_eq` shows that the code computes `verifyTree` on every input, without a
panic; the totality of the code follows.
-/

namespace NeutrinoMweb

variable {δ : Type} (H : Hashing δ)

open VerifyMwebUtxosVars

/-! ## Peaks and passes -/

/-- A peak's digest as the walk takes it: the descent, or a proof hash when it is missing. -/
def peakDigest (M : List Nat) (P : MmrNode) (v : VerifyMwebUtxosVars δ) :
    VerifyMwebUtxosVars δ × Option δ :=
  match visit H M P.height P.leaf v with
  | (v, none) => v.nextHash P.pos
  | r => r

/-- The end of the walk at the peak holding the last leaf: with peaks `rest` after it, the
bagged digest of those is pulled. -/
def breakTree (nextNodeIdx : Nat) (rest : List MmrNode) (v : VerifyMwebUtxosVars δ)
    (ds : List δ) : Option (VerifyMwebUtxosVars δ × List δ) :=
  if rest = [] then some (v, ds)
  else
    match v.nextHash nextNodeIdx with
    | (v, some b) => some (v, ds ++ [b])
    | (_, none) => none

/-- One pass's walk over the peaks `rest` not yet visited, against the marks `M`. -/
def walkPeaks (M : List Nat) (nextNodeIdx : Nat) :
    List MmrNode → VerifyMwebUtxosVars δ → List δ → Option (VerifyMwebUtxosVars δ × List δ)
  | [], v, ds => some (v, ds)
  | P :: rest, v, ds =>
    match peakDigest H M P v with
    | (_, none) => none
    | (v, some d) =>
      if LeafIdx.nodeIdx v.lastLeafIdx ≤ P.pos then breakTree nextNodeIdx rest v (ds ++ [d])
      else walkPeaks M nextNodeIdx rest v (ds ++ [d])

/-- A pass on the tree: the walk against the marks held at its start, then both counts. -/
def treePass (nextNodeIdx : Nat) (peaks : List MmrNode) (v : VerifyMwebUtxosVars δ) :
    Option (VerifyMwebUtxosVars δ × List δ) :=
  match walkPeaks H v.isProofHash nextNodeIdx peaks v.resetCursors [] with
  | none => none
  | some (v, ds) =>
    if v.leavesUsed ≠ v.mwebUtxos.utxos.length ∨
        v.hashesUsed ≠ v.mwebUtxos.proofHashes.length then none
    else some (v, ds)

/-- The two passes; the second reads the marks the first left. -/
def treePasses (nextNodeIdx : Nat) (peaks : List MmrNode) (v : VerifyMwebUtxosVars δ) :
    Option (VerifyMwebUtxosVars δ × List δ) :=
  (treePass H nextNodeIdx peaks v).bind fun r => treePass H nextNodeIdx peaks r.1

/-! ## The leaf walk and the bagging -/

/-- The leaf walk with its one panic, an empty batch, answered by `none`. -/
def leafWalk (l : Leafset) : Nat → List (MwebNetUtxo δ) → Option Nat
  | _, [] => none
  | lastLeafIdx, utxo :: rest =>
    if !l.contains lastLeafIdx then none
    else if utxo.leafIndex.toNat ≠ lastLeafIdx then none
    else if rest.length = 0 then some lastLeafIdx
    else leafWalk l (l.nextUnspent lastLeafIdx) rest

/-- The bagging of the digests `d :: ds` from the right, at the node index `p`. -/
def mmrBag (p : Nat) : δ → List δ → δ
  | d, [] => d
  | d, e :: es => H.parentHash p d (mmrBag p e es)

/-- `verifyMwebUtxos` on the tree, given the peaks as nodes. -/
def verifyTree [DecidableEq δ] (mwebHeader : MwebHeader δ) (mwebLeafset : Leafset)
    (mwebUtxos : MsgMwebUtxos δ) (peaks : List MmrNode) : Bool :=
  if mwebUtxos.startIndex = 0 ∧ mwebUtxos.utxos.length = 0 ∧
      mwebUtxos.proofHashes.length = 0 ∧ mwebHeader.outputRoot = H.zero ∧
      mwebHeader.outputMMRSize = 0 then true
  else if mwebUtxos.utxos.length = 0 ∨ mwebHeader.outputMMRSize = 0 then false
  else
    match leafWalk mwebLeafset mwebUtxos.startIndex.toNat mwebUtxos.utxos with
    | none => false
    | some lastLeafIdx =>
      let nextNodeIdx := LeafIdx.nodeIdx mwebHeader.outputMMRSize.toNat
      match treePasses H nextNodeIdx peaks
          (VerifyMwebUtxosVars.start mwebUtxos mwebLeafset lastLeafIdx) with
      | some (_, d :: ds) => decide (mmrBag H nextNodeIdx d ds = mwebHeader.outputRoot)
      | _ => false

/-! ## Peak lists -/

/-- What the walk needs of its peak list: nodes of the MMR below the last position, from left
to right. `mmrPeaks N` is one (`wellFormed_mmrPeaks`). -/
structure PeaksWF (peaks : List MmrNode) : Prop where
  inMmr : ∀ P ∈ peaks, P.InMmr (2 ^ 64)
  pos_lt : ∀ P ∈ peaks, P.pos < 2 ^ 64 - 1
  ordered : peaks.Pairwise fun P Q => P.leaf + 2 ^ P.height ≤ Q.leaf

theorem PeaksWF.suffix {peaks rest : List MmrNode} (hw : PeaksWF peaks) (hs : rest <:+ peaks) :
    PeaksWF rest :=
  ⟨fun P hP => hw.inMmr P (hs.subset hP), fun P hP => hw.pos_lt P (hs.subset hP),
    hw.ordered.sublist hs.sublist⟩

theorem wellFormed_mmrPeaks {N : Nat} (hN : N < 2 ^ 64) (hsz : mmrSize N < 2 ^ 64) :
    PeaksWF (mmrPeaks N) where
  inMmr P hP := by
    obtain ⟨⟨ha, hin⟩, -⟩ := mem_mmrPeaks hN hP
    exact ⟨ha, by omega⟩
  pos_lt P hP := by
    have := pos_lt_mmrSize hN (mem_mmrPeaks hN hP).1
    omega
  ordered := pairwise_mmrPeaks N

theorem pos_lt_mmrSize_of_le {P Q : MmrNode} (hP : P.InMmr (2 ^ 64))
    (hQ : Q.InMmr (2 ^ 64)) (hPQ : P.leaf + 2 ^ P.height ≤ Q.leaf) : P.pos < mmrSize Q.leaf := by
  have := hQ.2
  have := Nat.one_le_two_pow (n := Q.height)
  exact (pos_lt_mmrSize_iff hP.1 (by omega) hP.2).2 hPQ

/-! ## The code computes the tree's passes -/

variable {H}

theorem calcPeakHash_eq {P : MmrNode} (hP : P.InMmr (2 ^ 64)) (hp : P.pos < 2 ^ 64 - 1)
    (v : VerifyMwebUtxosVars δ) :
    calcPeakHash H v P.pos = pure (peakDigest H v.isProofHash P v) := by
  obtain ⟨a, h⟩ := P
  rw [calcPeakHash, height_pos hP.1 hP.2 (by omega), calcNodeHash_pos hP hp, pure_bind,
    peakDigest]
  rcases visit H v.isProofHash h a v with ⟨w, _ | d⟩ <;> rfl

theorem breakAtPeak_eq {peaks rest : List MmrNode} {P : MmrNode} (hw : PeaksWF peaks)
    (hs : P :: rest <:+ peaks) (nn : Nat) (v : VerifyMwebUtxosVars δ) (ds : List δ) :
    breakAtPeak nn (peaks.map MmrNode.pos) P.pos v (ds.map some) =
      pure ((breakTree nn rest v ds).map fun r => (r.1, r.2.map some)) := by
  obtain ⟨pre, rfl⟩ := hs
  have hgo : ∀ (xs : List MmrNode) (Q : MmrNode),
      goIndex ((xs ++ [Q]).map MmrNode.pos) (((xs ++ [Q]).map MmrNode.pos).length - 1) =
        pure Q.pos := by
    intro xs Q
    simp [goIndex, List.getElem?_append_right]
    rfl
  rcases List.eq_nil_or_concat rest with rfl | ⟨R, b, rfl⟩
  · rw [breakAtPeak, hgo, pure_bind]
    simp [breakTree]
  · simp only [List.concat_eq_append] at hw ⊢
    have hb : P.pos ≠ b.pos := by
      have hPb := List.rel_of_pairwise_cons (hw.ordered.sublist (List.sublist_append_right pre _))
        (by simp : b ∈ R ++ [b])
      have hP := hw.inMmr P (by simp)
      have hB := hw.inMmr b (by simp)
      have := pos_lt_mmrSize_of_le hP hB hPb
      have : mmrSize b.leaf ≤ b.pos := mmrSize_le_pos b.leaf b.height
      exact Nat.ne_of_lt (by omega)
    rw [show pre ++ P :: (R ++ [b]) = (pre ++ P :: R) ++ [b] by simp, breakAtPeak, hgo, pure_bind]
    simp only [breakTree, if_pos hb, List.append_eq_nil, List.cons_ne_nil, and_false, if_false]
    rcases v.nextHash nn with ⟨w, _ | c⟩ <;> simp

theorem peakDigest_marks (M : List Nat) {P : MmrNode} (hP : P.InMmr (2 ^ 64))
    (v : VerifyMwebUtxosVars δ) :
    Later v (peakDigest H M P v).1 ∧ ∃ B, (peakDigest H M P v).1.isProofHash = B ++ v.isProofHash ∧
      ∀ q ∈ B, q ≤ P.pos := by
  obtain ⟨a, h⟩ := P
  obtain ⟨hv, B, hB, hq⟩ := visit_marks (H := H) M hP v
  unfold peakDigest
  rcases hV : visit H M h a v with ⟨w, _ | d⟩ <;> rw [hV] at hv hB
  · obtain ⟨C, hC, hqC⟩ := nextHash_marks w (MmrNode.pos ⟨a, h⟩)
    refine ⟨hv.trans (nextHash_later w _), C ++ B, by rw [hC, hB, List.append_assoc],
      fun q hq' => ?_⟩
    rcases List.mem_append.1 hq' with hq' | hq'
    · exact le_of_eq (hqC q hq')
    · exact (hq q hq').2
  · exact ⟨hv, B, hB, fun q hq' => (hq q hq').2⟩

/-- **The code's peak walk is the tree's**, when every mark the pass has added so far lies
before the peaks still to come. -/
theorem peakWalk_eq {peaks : List MmrNode} (hw : PeaksWF peaks) (nn : Nat) (M : List Nat)
    (rest : List MmrNode) (hs : rest <:+ peaks) (v : VerifyMwebUtxosVars δ) (ds : List δ)
    (hM : ∃ A, v.isProofHash = A ++ M ∧ ∀ q ∈ A, ∀ P ∈ rest, q < mmrSize P.leaf) :
    peakWalk H nn (peaks.map MmrNode.pos) (rest.map MmrNode.pos) v (ds.map some) =
      pure ((walkPeaks H M nn rest v ds).map fun r => (r.1, r.2.map some)) := by
  induction rest generalizing v ds with
  | nil => rfl
  | cons P rest ih =>
    obtain ⟨A, hA, hAr⟩ := hM
    have hP := hw.inMmr P (hs.subset (List.mem_cons_self P rest))
    have hpP := hw.pos_lt P (hs.subset (List.mem_cons_self P rest))
    have hcongr : peakDigest H v.isProofHash P v = peakDigest H M P v := by
      have hAP : ∀ q ∈ A, q < mmrSize P.leaf := fun q hq => hAr q hq P (List.mem_cons_self _ _)
      obtain ⟨a, h⟩ := P
      dsimp only at hAP
      have hM : ∀ q : Nat, mmrSize a ≤ q → q ≤ MmrNode.pos ⟨a, h⟩ →
          (q ∈ v.isProofHash ↔ q ∈ M) := by
        intro q h1 _
        rw [hA, List.mem_append, or_iff_right_iff_imp]
        intro hq
        have := hAP q hq
        omega
      unfold peakDigest
      rw [visit_congr hP hM]
    obtain ⟨-, B, hB, hqB⟩ := peakDigest_marks (H := H) M hP v
    rw [List.map_cons, peakWalk, calcPeakHash_eq hP hpP, pure_bind, hcongr]
    rcases hD : peakDigest H M P v with ⟨w, _ | d⟩
    · simp [walkPeaks, hD]
    · rw [hD] at hB
      simp only [walkPeaks, hD, ← List.map_cons, ← List.map_append]
      split
      · simpa using breakAtPeak_eq hw hs nn w (ds ++ [d])
      · rw [← List.map_singleton some d, ← List.map_append]
        refine ih ((List.suffix_cons P rest).trans hs) w (ds ++ [d]) ⟨B ++ A, by
          rw [hB, hA, List.append_assoc], fun q hq Q hQ => ?_⟩
        have hPQ := pos_lt_mmrSize_of_le hP
          (hw.inMmr Q (hs.subset (List.mem_cons_of_mem P hQ)))
          (List.rel_of_pairwise_cons (hw.ordered.sublist hs.sublist) hQ)
        rcases List.mem_append.1 hq with hq | hq
        · have := hqB q hq; omega
        · exact hAr q hq Q (List.mem_cons_of_mem P hQ)

/-- A walk that succeeds has moved the state forward, and has collected a digest unless it
had no peak to visit. -/
theorem walkPeaks_later {M : List Nat} {nn : Nat} {rest : List MmrNode} (hw : PeaksWF rest)
    {v v' : VerifyMwebUtxosVars δ} {ds ds' : List δ}
    (h : walkPeaks H M nn rest v ds = some (v', ds')) :
    Later v v' ∧ (v' = v ∧ ds' = ds ∨ ds.length < ds'.length) := by
  induction rest generalizing v ds with
  | nil =>
    simp only [walkPeaks, Option.some.injEq, Prod.mk.injEq] at h
    obtain ⟨rfl, rfl⟩ := h
    exact ⟨Later.refl v, .inl ⟨rfl, rfl⟩⟩
  | cons P rest ih =>
    have hv := (peakDigest_marks (H := H) M (hw.inMmr P (List.mem_cons_self _ _)) v).1
    simp only [walkPeaks] at h
    rcases hD : peakDigest H M P v with ⟨w, _ | d⟩ <;> rw [hD] at h hv
    · simp at h
    simp only at h
    split at h
    · unfold breakTree at h
      split at h
      · simp only [Option.some.injEq, Prod.mk.injEq] at h
        obtain ⟨rfl, rfl⟩ := h
        exact ⟨hv, .inr (by simp)⟩
      · have hb := nextHash_later w nn
        rcases hN : w.nextHash nn with ⟨w', _ | b⟩ <;> rw [hN] at h hb <;> simp at h
        obtain ⟨rfl, rfl⟩ := h
        exact ⟨hv.trans hb, .inr (by simp)⟩
    · obtain ⟨hl, hlen⟩ := ih (hw.suffix (List.suffix_cons P rest)) h
      refine ⟨hv.trans hl, .inr ?_⟩
      rcases hlen with ⟨-, rfl⟩ | hlen
      · simp
      · simp at hlen; omega

theorem verifyPass_eq {peaks : List MmrNode} (hw : PeaksWF peaks) (nn : Nat)
    (v : VerifyMwebUtxosVars δ) :
    verifyPass H nn (peaks.map MmrNode.pos) v =
      pure ((treePass H nn peaks v).map fun r => (r.1, r.2.map some)) := by
  have hwalk := peakWalk_eq (H := H) hw nn v.isProofHash peaks (List.suffix_refl _)
    v.resetCursors [] ⟨[], rfl, by simp⟩
  rw [verifyPass, show ([] : List (Option δ)) = ([] : List δ).map some from rfl, hwalk, pure_bind,
    treePass]
  rcases walkPeaks H v.isProofHash nn peaks v.resetCursors [] with _ | ⟨w, ds⟩
  · rfl
  · simp only [Option.map_some']
    split <;> rfl

theorem verifyPasses_eq {peaks : List MmrNode} (hw : PeaksWF peaks) (nn : Nat)
    (v : VerifyMwebUtxosVars δ) :
    verifyPasses H nn (peaks.map MmrNode.pos) 2 v [] =
      pure ((treePasses H nn peaks v).map fun r => (r.1, r.2.map some)) := by
  simp only [verifyPasses, verifyPass_eq hw, pure_bind, treePasses]
  rcases treePass H nn peaks v with _ | ⟨w, ds⟩
  · rfl
  · simp only [Option.map_some', Option.some_bind, verifyPass_eq hw, pure_bind]
    rcases treePass H nn peaks w with _ | ⟨w', ds'⟩ <;> rfl

theorem walkLeaves_eq (l : Leafset) (i : Nat) {utxos : List (MwebNetUtxo δ)}
    (hne : utxos ≠ []) : walkLeaves l i utxos = pure (leafWalk l i utxos) := by
  induction utxos generalizing i with
  | nil => exact absurd rfl hne
  | cons u rest ih =>
    simp only [walkLeaves, leafWalk]
    split
    · rfl
    split
    · rfl
    split
    · rfl
    · exact ih _ (by rintro rfl; simp_all)

theorem bagPeaks_eq (nn : Nat) (d : δ) (ds : List δ) :
    bagPeaks H nn ((d :: ds).map some) = pure (some (mmrBag H nn d ds)) := by
  have hfold : ∀ d ds, (((d :: ds).map some).dropLast).foldrM (fun peakHash baggedPeak => do
      let l ← goDeref peakHash
      let r ← goDeref baggedPeak
      pure (some (H.parentHash nn l r))) (some ((d :: ds).getLast (List.cons_ne_nil _ _))) =
        (pure (some (mmrBag H nn d ds)) : Except GoPanic (Option δ)) := by
    intro d ds
    induction ds generalizing d with
    | nil => rfl
    | cons e es ih =>
      rw [List.map_cons, List.map_cons, List.dropLast_cons₂, List.foldrM_cons, List.getLast_cons,
        ← List.map_cons, ih]
      rfl
  have hidx : goIndex ((d :: ds).map some) (((d :: ds).map some).length - 1) =
      pure (some ((d :: ds).getLast (List.cons_ne_nil _ _))) := by
    rw [goIndex, List.length_map, List.getElem?_map, List.getLast_eq_getElem,
      List.getElem?_eq_getElem (by simp)]
    rfl
  rw [bagPeaks, hidx, pure_bind, hfold]

/-- A pass that succeeds keeps the inputs, has used every utxo and every proof hash, and
has collected a digest unless the batch is empty. -/
theorem treePass_spec {peaks : List MmrNode} (hw : PeaksWF peaks) {nn : Nat}
    {v v' : VerifyMwebUtxosVars δ} {ds : List δ} (h : treePass H nn peaks v = some (v', ds)) :
    Later v.resetCursors v' ∧ v'.leavesUsed = v'.mwebUtxos.utxos.length ∧
      v'.hashesUsed = v'.mwebUtxos.proofHashes.length ∧
      (ds = [] → v.mwebUtxos.utxos.length = 0) := by
  unfold treePass at h
  rcases hW : walkPeaks H v.isProofHash nn peaks v.resetCursors [] with _ | ⟨w, ds'⟩ <;>
    rw [hW] at h
  · simp at h
  simp only at h
  split at h
  · simp at h
  simp only [Option.some.injEq, Prod.mk.injEq] at h
  obtain ⟨rfl, rfl⟩ := h
  rename_i hc
  push_neg at hc
  obtain ⟨hl, hlen⟩ := walkPeaks_later hw hW
  refine ⟨hl, hc.1, hc.2, fun hds => ?_⟩
  rcases hlen with ⟨rfl, -⟩ | hlen
  · have := hc.1
    simpa using this.symm
  · simp [hds] at hlen

/-- **The code's verifier is the tree's, without a panic,** whenever `calcPeaks` finds the
peaks of a leaf count `N`; `calcPeaks_exists` provides one for every header. -/
theorem verifyMwebUtxos_eq [DecidableEq δ] (mwebHeader : MwebHeader δ) (mwebLeafset : Leafset)
    (mwebUtxos : MsgMwebUtxos δ) {N : Nat} (hN : N < 2 ^ 64)
    (hsz : mmrSize N ≤ LeafIdx.nodeIdx mwebHeader.outputMMRSize.toNat)
    (hpk : calcPeaks (LeafIdx.nodeIdx mwebHeader.outputMMRSize.toNat) =
      (mmrPeaks N).map MmrNode.pos) :
    verifyMwebUtxos H mwebHeader mwebLeafset mwebUtxos =
      pure (verifyTree H mwebHeader mwebLeafset mwebUtxos (mmrPeaks N)) := by
  have hnn : LeafIdx.nodeIdx mwebHeader.outputMMRSize.toNat < 2 ^ 64 :=
    Nat.mod_lt _ (Nat.two_pow_pos 64)
  have hw := wellFormed_mmrPeaks hN (by omega)
  unfold verifyMwebUtxos verifyTree
  split
  · rfl
  split
  · rfl
  rename_i hne
  have hne' : mwebUtxos.utxos ≠ [] := fun h => hne (.inl (by simp [h]))
  rw [walkLeaves_eq _ _ hne', pure_bind]
  rcases leafWalk mwebLeafset mwebUtxos.startIndex.toNat mwebUtxos.utxos with _ | last
  · rfl
  simp only
  rw [hpk, verifyPasses_eq hw, pure_bind]
  rcases hT : treePasses H (LeafIdx.nodeIdx mwebHeader.outputMMRSize.toNat) (mmrPeaks N)
    (VerifyMwebUtxosVars.start mwebUtxos mwebLeafset last) with _ | ⟨v, _ | ⟨d, ds⟩⟩
  · rfl
  · exfalso
    simp only [treePasses, Option.bind_eq_some] at hT
    obtain ⟨⟨v1, ds1⟩, h1, h2⟩ := hT
    have hin := (treePass_spec hw h1).1.inputs
    have := (treePass_spec hw h2).2.2.2 rfl
    simp only [resetCursors_inputs, VerifyMwebUtxosVars.inputs, Prod.mk.injEq] at hin
    rw [hin.1] at this
    exact hne (.inl this)
  · simp only [Option.map_some']
    rw [bagPeaks_eq, pure_bind]
    simp only [Option.some.injEq]

/-- **`verifyMwebUtxos` is total**: on every header, leafset and message it returns a
boolean without a panic, and `calcNodeHash` starts at most 63 levels above the leaves. -/
theorem verifyMwebUtxos_total [DecidableEq δ] (H : Hashing δ) (mwebHeader : MwebHeader δ)
    (mwebLeafset : Leafset) (mwebUtxos : MsgMwebUtxos δ) :
    (∃ accepted, verifyMwebUtxos H mwebHeader mwebLeafset mwebUtxos = .ok accepted) ∧
      ∀ p ∈ calcPeaks (LeafIdx.nodeIdx mwebHeader.outputMMRSize.toNat), NodeIdx.height p ≤ 63 := by
  have hnn : LeafIdx.nodeIdx mwebHeader.outputMMRSize.toNat < 2 ^ 64 :=
    Nat.mod_lt _ (Nat.two_pow_pos 64)
  obtain ⟨N, hN, hsz, hpk⟩ := calcPeaks_exists hnn
  refine ⟨⟨_, verifyMwebUtxos_eq mwebHeader mwebLeafset mwebUtxos hN hsz hpk⟩, fun p hp => ?_⟩
  rw [hpk] at hp
  obtain ⟨P, hP, rfl⟩ := List.mem_map.1 hp
  have hw := wellFormed_mmrPeaks hN (by omega)
  have hP64 := hw.inMmr P hP
  rw [height_pos hP64.1 hP64.2 (by have := hw.pos_lt P hP; omega)]
  have := (mem_mmrPeaks hN hP).2
  omega

end NeutrinoMweb
