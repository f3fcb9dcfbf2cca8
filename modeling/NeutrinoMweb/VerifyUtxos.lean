import NeutrinoMweb.Wire
import NeutrinoMweb.Subtrees

/-!
# `verifyMwebUtxos` — the code's verifier

A batch of utxos comes with the hashes of the subtrees it does not cover. The verifier walks
the leafset from `StartIndex` to fix the last leaf of the batch, then rebuilds each MMR peak
by `calcNodeHash`, consuming utxos at the leaves it reaches and proof hashes where it cannot
descend, and finally bags the peaks and compares with `OutputRoot`. The peak walk runs twice
over one map `isProofHash`: the first pass records every node it pulled a proof hash for,
and the second pass pulls at those nodes without descending.

This file transcribes the code with its state record `verifyMwebUtxosVars`. Everything that
can panic in Go returns `Except GoPanic`; the last theorem shows that nothing does.
-/

namespace NeutrinoMweb

variable {δ : Type}

/-! ## State -/

/-- `verifyMwebUtxosVars`. The map `isProofHash` is only ever set to `true`, so it is the list
of its keys; the two cursors never pass the ends of the slices they index. -/
structure VerifyMwebUtxosVars (δ : Type) where
  mwebUtxos : MsgMwebUtxos δ
  leafset : Leafset
  firstLeafIdx : Nat
  lastLeafIdx : Nat
  leavesUsed : Nat
  hashesUsed : Nat
  isProofHash : List Nat
  leavesUsed_le : leavesUsed ≤ mwebUtxos.utxos.length
  hashesUsed_le : hashesUsed ≤ mwebUtxos.proofHashes.length

namespace VerifyMwebUtxosVars

/-- `nextLeaf`: the next utxo's leaf index and output id, or `(0, nil)` when all are used. -/
def nextLeaf (v : VerifyMwebUtxosVars δ) : VerifyMwebUtxosVars δ × Nat × Option δ :=
  if h : v.leavesUsed = v.mwebUtxos.utxos.length then (v, 0, none)
  else
    have hlt : v.leavesUsed < v.mwebUtxos.utxos.length := by
      have := v.leavesUsed_le; omega
    let utxo := v.mwebUtxos.utxos[v.leavesUsed]
    ({ v with leavesUsed := v.leavesUsed + 1, leavesUsed_le := hlt },
      utxo.leafIndex.toNat, some utxo.outputId)

/-- `nextHash`: the next proof hash, recording `nodeIdx` in `isProofHash`, or `nil` when all
are used. -/
def nextHash (v : VerifyMwebUtxosVars δ) (nodeIdx : Nat) :
    VerifyMwebUtxosVars δ × Option δ :=
  if h : v.hashesUsed = v.mwebUtxos.proofHashes.length then (v, none)
  else
    have hlt : v.hashesUsed < v.mwebUtxos.proofHashes.length := by
      have := v.hashesUsed_le; omega
    ({ v with
        hashesUsed := v.hashesUsed + 1
        isProofHash := nodeIdx :: v.isProofHash
        hashesUsed_le := hlt }, some v.mwebUtxos.proofHashes[v.hashesUsed])

/-- The cursor reset at the start of each pass: `v.leavesUsed = 0; v.hashesUsed = 0`. -/
def resetCursors (v : VerifyMwebUtxosVars δ) : VerifyMwebUtxosVars δ :=
  { v with
    leavesUsed := 0
    hashesUsed := 0
    leavesUsed_le := Nat.zero_le _
    hashesUsed_le := Nat.zero_le _ }

/-- The state the passes start from, `&verifyMwebUtxosVars{...}` with `lastLeafIdx` as the
leaf walk leaves it. -/
def start (mwebUtxos : MsgMwebUtxos δ) (leafset : Leafset) (lastLeafIdx : Nat) :
    VerifyMwebUtxosVars δ where
  mwebUtxos := mwebUtxos
  leafset := leafset
  firstLeafIdx := mwebUtxos.startIndex.toNat
  lastLeafIdx := lastLeafIdx
  leavesUsed := 0
  hashesUsed := 0
  isProofHash := []
  leavesUsed_le := Nat.zero_le _
  hashesUsed_le := Nat.zero_le _

/-- What the passes read and never write. -/
def inputs (v : VerifyMwebUtxosVars δ) : MsgMwebUtxos δ × Leafset × Nat × Nat :=
  (v.mwebUtxos, v.leafset, v.firstLeafIdx, v.lastLeafIdx)

variable (v : VerifyMwebUtxosVars δ) (q : Nat)

@[simp] theorem nextLeaf_inputs : v.nextLeaf.1.inputs = v.inputs := by
  unfold nextLeaf; split <;> rfl

@[simp] theorem nextLeaf_mwebUtxos : v.nextLeaf.1.mwebUtxos = v.mwebUtxos := by
  unfold nextLeaf; split <;> rfl

@[simp] theorem nextLeaf_leavesUsed :
    v.nextLeaf.1.leavesUsed = min (v.leavesUsed + 1) v.mwebUtxos.utxos.length := by
  have := v.leavesUsed_le
  unfold nextLeaf; split <;> simp only <;> omega

@[simp] theorem nextLeaf_hashesUsed : v.nextLeaf.1.hashesUsed = v.hashesUsed := by
  unfold nextLeaf; split <;> rfl

@[simp] theorem nextLeaf_isProofHash : v.nextLeaf.1.isProofHash = v.isProofHash := by
  unfold nextLeaf; split <;> rfl

theorem nextLeaf_snd : v.nextLeaf.2 =
    match v.mwebUtxos.utxos[v.leavesUsed]? with
    | some u => (u.leafIndex.toNat, some u.outputId)
    | none => (0, none) := by
  have := v.leavesUsed_le
  unfold nextLeaf
  split
  · rw [List.getElem?_eq_none (by omega)]
  · rw [List.getElem?_eq_getElem (by omega)]

@[simp] theorem nextHash_inputs : (v.nextHash q).1.inputs = v.inputs := by
  unfold nextHash; split <;> rfl

@[simp] theorem nextHash_mwebUtxos : (v.nextHash q).1.mwebUtxos = v.mwebUtxos := by
  unfold nextHash; split <;> rfl

@[simp] theorem nextHash_leavesUsed : (v.nextHash q).1.leavesUsed = v.leavesUsed := by
  unfold nextHash; split <;> rfl

@[simp] theorem nextHash_hashesUsed :
    (v.nextHash q).1.hashesUsed = min (v.hashesUsed + 1) v.mwebUtxos.proofHashes.length := by
  have := v.hashesUsed_le
  unfold nextHash; split <;> simp only <;> omega

theorem nextHash_isProofHash : (v.nextHash q).1.isProofHash =
    if v.hashesUsed < v.mwebUtxos.proofHashes.length then q :: v.isProofHash
    else v.isProofHash := by
  have := v.hashesUsed_le
  unfold nextHash; split <;> simp only <;> split <;> first | rfl | omega

/-- `nextHash` answers with the proof hash under the cursor. -/
@[simp] theorem nextHash_snd : (v.nextHash q).2 = v.mwebUtxos.proofHashes[v.hashesUsed]? := by
  have := v.hashesUsed_le
  unfold nextHash
  split
  · rw [List.getElem?_eq_none (by omega)]
  · rw [List.getElem?_eq_getElem (by omega)]

@[simp] theorem resetCursors_inputs : v.resetCursors.inputs = v.inputs := rfl

@[simp] theorem resetCursors_mwebUtxos : v.resetCursors.mwebUtxos = v.mwebUtxos := rfl

@[simp] theorem resetCursors_leafset : v.resetCursors.leafset = v.leafset := rfl

@[simp] theorem resetCursors_firstLeafIdx : v.resetCursors.firstLeafIdx = v.firstLeafIdx := rfl

@[simp] theorem resetCursors_lastLeafIdx : v.resetCursors.lastLeafIdx = v.lastLeafIdx := rfl

@[simp] theorem resetCursors_leavesUsed : v.resetCursors.leavesUsed = 0 := rfl

@[simp] theorem resetCursors_hashesUsed : v.resetCursors.hashesUsed = 0 := rfl

@[simp] theorem resetCursors_isProofHash : v.resetCursors.isProofHash = v.isProofHash := rfl

end VerifyMwebUtxosVars

open VerifyMwebUtxosVars

/-! ## `calcNodeHash` -/

/-- The `return nodeIdx.parentHash(left[:], right[:])` of `calcNodeHash`. -/
def parentHashOf (H : Hashing δ) (v : VerifyMwebUtxosVars δ) (nodeIdx : Nat)
    (left right : Option δ) : Except GoPanic (VerifyMwebUtxosVars δ × Option δ) := do
  let l ← goDeref left
  let r ← goDeref right
  pure (v, some (H.parentHash nodeIdx l r))

/-- The `switch` closing `calcNodeHash` on an inner node: a missing child is pulled from the
proof hashes, and two missing children make the node missing. -/
def switchChildren (H : Hashing δ) (v : VerifyMwebUtxosVars δ) (nodeIdx : Nat)
    (height : Nat) (left right : Option δ) :
    Except GoPanic (VerifyMwebUtxosVars δ × Option δ) :=
  match left, right with
  | none, none => pure (v, none)
  | none, some _ =>
    match v.nextHash (NodeIdx.left nodeIdx height) with
    | (v, none) => pure (v, none)
    | (v, left) => parentHashOf H v nodeIdx left right
  | some _, none =>
    match v.nextHash (NodeIdx.right nodeIdx) with
    | (v, none) => pure (v, none)
    | (v, right) => parentHashOf H v nodeIdx left right
  | some _, some _ => parentHashOf H v nodeIdx left right

/-- The `switch` without its dereferences, with the children at positions `pl` and `pr`:
every digest it combines is present, so it cannot fail. -/
def joinChildren (H : Hashing δ) (v : VerifyMwebUtxosVars δ) (nodeIdx pl pr : Nat) :
    Option δ → Option δ → VerifyMwebUtxosVars δ × Option δ
  | none, none => (v, none)
  | none, some r =>
    match v.nextHash pl with
    | (v, some l) => (v, some (H.parentHash nodeIdx l r))
    | (v, none) => (v, none)
  | some l, none =>
    match v.nextHash pr with
    | (v, some r) => (v, some (H.parentHash nodeIdx l r))
    | (v, none) => (v, none)
  | some l, some r => (v, some (H.parentHash nodeIdx l r))

/-- **The `switch` never dereferences `nil`.** -/
theorem switchChildren_eq (H : Hashing δ) (v : VerifyMwebUtxosVars δ) (nodeIdx : Nat)
    (height : Nat) (left right : Option δ) :
    switchChildren H v nodeIdx height left right =
      pure (joinChildren H v nodeIdx (NodeIdx.left nodeIdx height) (NodeIdx.right nodeIdx)
        left right) := by
  rcases left with _ | l <;> rcases right with _ | r
  · rfl
  · simp only [switchChildren, joinChildren]
    rcases v.nextHash (NodeIdx.left nodeIdx height) with ⟨v', _ | l⟩ <;> rfl
  · simp only [switchChildren, joinChildren]
    rcases v.nextHash (NodeIdx.right nodeIdx) with ⟨v', _ | r⟩ <;> rfl
  · rfl

/-- `calcNodeHash(nodeIdx, height)`: the digest of the subtree at `nodeIdx`, or `nil`.
A node left of the first leaf, or recorded in `isProofHash`, is pulled from the proof hashes.
The recursion is on `height`; the inner node's children are visited at `height - 1`. -/
def calcNodeHash (H : Hashing δ) : Nat → VerifyMwebUtxosVars δ → Nat →
    Except GoPanic (VerifyMwebUtxosVars δ × Option δ)
  | 0, v, nodeIdx =>
    if nodeIdx < LeafIdx.nodeIdx v.firstLeafIdx ∨ nodeIdx ∈ v.isProofHash then
      pure (v.nextHash nodeIdx)
    else
      let leafIdx := NodeIdx.leafIdx nodeIdx
      if !v.leafset.contains leafIdx then pure (v, none)
      else
        match v.nextLeaf with
        | (v, leafIdx2, outputId) =>
          if leafIdx ≠ leafIdx2 ∨ outputId.isNone then pure (v, none)
          else do
            let o ← goDeref outputId
            pure (v, some (H.hash nodeIdx o))
  | h + 1, v, nodeIdx =>
    if nodeIdx < LeafIdx.nodeIdx v.firstLeafIdx ∨ nodeIdx ∈ v.isProofHash then
      pure (v.nextHash nodeIdx)
    else do
      let (v, left) ← calcNodeHash H h v (NodeIdx.left nodeIdx (h + 1))
      let (v, right) ←
        if LeafIdx.nodeIdx v.lastLeafIdx ≤ NodeIdx.left nodeIdx (h + 1) then
          pure (v.nextHash (NodeIdx.right nodeIdx))
        else calcNodeHash H h v (NodeIdx.right nodeIdx)
      switchChildren H v nodeIdx (h + 1) left right

/-! ## The passes -/

/-- A peak's digest: `calcNodeHash(peakNodeIdx, peakNodeIdx.height())`, pulled from the proof
hashes when it is `nil`. -/
def calcPeakHash (H : Hashing δ) (v : VerifyMwebUtxosVars δ) (peakNodeIdx : Nat) :
    Except GoPanic (VerifyMwebUtxosVars δ × Option δ) := do
  let (v, peakHash) ← calcNodeHash H (NodeIdx.height peakNodeIdx) v peakNodeIdx
  match peakHash with
  | none => pure (v.nextHash peakNodeIdx)
  | some d => pure (v, some d)

/-- The block ending the walk at the peak that holds the last leaf: unless it is the last
peak, the bagged digest of the peaks after it is pulled (`break`). -/
def breakAtPeak (nextNodeIdx : Nat) (peaks : List Nat) (peakNodeIdx : Nat)
    (v : VerifyMwebUtxosVars δ) (peakHashes : List (Option δ)) :
    Except GoPanic (Option (VerifyMwebUtxosVars δ × List (Option δ))) := do
  let lastPeak ← goIndex peaks (peaks.length - 1)
  if peakNodeIdx ≠ lastPeak then
    match v.nextHash nextNodeIdx with
    | (_, none) => pure none
    | (v, baggedPeak) => pure (some (v, peakHashes ++ [baggedPeak]))
  else pure (some (v, peakHashes))

/-- The loop `for _, peakNodeIdx := range peaks` of one pass, over the peaks not yet visited;
`none` is `return false`. -/
def peakWalk (H : Hashing δ) (nextNodeIdx : Nat) (peaks : List Nat) :
    List Nat → VerifyMwebUtxosVars δ → List (Option δ) →
      Except GoPanic (Option (VerifyMwebUtxosVars δ × List (Option δ)))
  | [], v, peakHashes => pure (some (v, peakHashes))
  | peakNodeIdx :: rest, v, peakHashes => do
    match ← calcPeakHash H v peakNodeIdx with
    | (_, none) => pure none
    | (v, some d) =>
      let peakHashes := peakHashes ++ [some d]
      if LeafIdx.nodeIdx v.lastLeafIdx ≤ peakNodeIdx then
        breakAtPeak nextNodeIdx peaks peakNodeIdx v peakHashes
      else peakWalk H nextNodeIdx peaks rest v peakHashes

/-- The body of `for i := 0; i < 2; i++`: reset the cursors, walk the peaks, and require
that every utxo and every proof hash was used. -/
def verifyPass (H : Hashing δ) (nextNodeIdx : Nat) (peaks : List Nat)
    (v : VerifyMwebUtxosVars δ) :
    Except GoPanic (Option (VerifyMwebUtxosVars δ × List (Option δ))) := do
  let v := v.resetCursors
  match ← peakWalk H nextNodeIdx peaks peaks v [] with
  | none => pure none
  | some (v, peakHashes) =>
    if v.leavesUsed ≠ v.mwebUtxos.utxos.length ∨
        v.hashesUsed ≠ v.mwebUtxos.proofHashes.length then pure none
    else pure (some (v, peakHashes))

/-- The loop `for i := 0; i < 2; i++` with `passes` iterations to go; the result carries the
last pass's `peakHashes`. -/
def verifyPasses (H : Hashing δ) (nextNodeIdx : Nat) (peaks : List Nat) :
    Nat → VerifyMwebUtxosVars δ → List (Option δ) →
      Except GoPanic (Option (VerifyMwebUtxosVars δ × List (Option δ)))
  | 0, v, peakHashes => pure (some (v, peakHashes))
  | passes + 1, v, _ => do
    match ← verifyPass H nextNodeIdx peaks v with
    | none => pure none
    | some (v, peakHashes) => verifyPasses H nextNodeIdx peaks passes v peakHashes

/-! ## The leaf walk and the bagging -/

/-- The loop `for i := 0; ; i++` fixing `lastLeafIdx`: iteration `i` reads the head of
`Utxos[i:]`, which must sit at the current leaf; `nextUnspent` moves to the next one. -/
def walkLeaves (l : Leafset) : Nat → List (MwebNetUtxo δ) → Except GoPanic (Option Nat)
  | lastLeafIdx, [] =>
    if !l.contains lastLeafIdx then pure none else .error .indexOutOfRange
  | lastLeafIdx, utxo :: rest =>
    if !l.contains lastLeafIdx then pure none
    else if utxo.leafIndex.toNat ≠ lastLeafIdx then pure none
    else if rest.length = 0 then pure (some lastLeafIdx)
    else walkLeaves l (l.nextUnspent lastLeafIdx) rest

/-- The bagging: `baggedPeak := peakHashes[len-1]`, then
`baggedPeak = nextNodeIdx.parentHash(peakHashes[i][:], baggedPeak[:])` for `i` from `len-2`
down to `0`. -/
def bagPeaks (H : Hashing δ) (nextNodeIdx : Nat) (peakHashes : List (Option δ)) :
    Except GoPanic (Option δ) := do
  let baggedPeak ← goIndex peakHashes (peakHashes.length - 1)
  peakHashes.dropLast.foldrM (fun peakHash baggedPeak => do
      let l ← goDeref peakHash
      let r ← goDeref baggedPeak
      pure (some (H.parentHash nextNodeIdx l r)))
    baggedPeak

/-- `verifyMwebUtxos`. -/
def verifyMwebUtxos [DecidableEq δ] (H : Hashing δ) (mwebHeader : MwebHeader δ)
    (mwebLeafset : Leafset) (mwebUtxos : MsgMwebUtxos δ) : Except GoPanic Bool :=
  if mwebUtxos.startIndex = 0 ∧ mwebUtxos.utxos.length = 0 ∧
      mwebUtxos.proofHashes.length = 0 ∧ mwebHeader.outputRoot = H.zero ∧
      mwebHeader.outputMMRSize = 0 then pure true
  else if mwebUtxos.utxos.length = 0 ∨ mwebHeader.outputMMRSize = 0 then pure false
  else do
    match ← walkLeaves mwebLeafset mwebUtxos.startIndex.toNat mwebUtxos.utxos with
    | none => pure false
    | some lastLeafIdx =>
      let v := VerifyMwebUtxosVars.start mwebUtxos mwebLeafset lastLeafIdx
      let nextNodeIdx := LeafIdx.nodeIdx mwebHeader.outputMMRSize.toNat
      let peaks := calcPeaks nextNodeIdx
      match ← verifyPasses H nextNodeIdx peaks 2 v [] with
      | none => pure false
      | some (_, peakHashes) =>
        let baggedPeak ← bagPeaks H nextNodeIdx peakHashes
        pure (decide (baggedPeak = some mwebHeader.outputRoot))

end NeutrinoMweb
