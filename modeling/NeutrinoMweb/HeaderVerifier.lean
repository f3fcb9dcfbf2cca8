import NeutrinoMweb.Wire

/-!
# The header verifier

`verifyMwebHeader` checks an MWEB header message against the block it belongs to: the merkle
block's header must hash to the block, the merkle block's extracted root must be the header's
merkle root, the HogEx transaction must be the last transaction the merkle block matches,
its first output must commit to the MWEB header, and the leafset must hash to the header's
leafset root.

The extraction `bloom.VerifyMerkleBlock` lives in a library outside the repository; it is
modelled from the spec as the standard partial merkle tree traversal (`verifyMerkleBlock`).
That traversal can accept a merkle block that matches no transaction, and the verifier then
reads the last matched transaction of an empty list (`verifyMwebHeader_empty_match`).
-/

namespace NeutrinoMweb

variable {δ : Type}

/-! ## Messages -/

/-- `wire.BlockHeader`. -/
structure BlockHeader (δ : Type) where
  version : UInt32
  prevBlock : δ
  merkleRoot : δ
  timestamp : Nat
  bits : UInt32
  nonce : UInt32

/-- `wire.MsgMerkleBlock`. -/
structure MsgMerkleBlock (δ : Type) where
  header : BlockHeader δ
  transactions : UInt32
  hashes : List δ
  flags : List UInt8

/-- `wire.TxOut`, the field the verifier reads. -/
structure TxOut where
  pkScript : List UInt8

/-- `wire.MsgTx`, the fields the verifier reads besides its hash. -/
structure MsgTx where
  isHogEx : Bool
  txOut : List TxOut

/-- `wire.MsgMwebHeader`. -/
structure MsgMwebHeader (δ : Type) where
  merkle : MsgMerkleBlock δ
  hogex : MsgTx
  mwebHeader : MwebHeader δ

/-- `wire.MsgMwebLeafset`, the field the verifier reads. -/
structure MsgMwebLeafset where
  leafset : List UInt8

/-- The digests the header verifier compares, as functions of what they hash: a block
header's `BlockHash()`, a transaction's `TxHash()`, the MWEB header's `Hash()`, blake3 of the
leafset bytes, the merkle tree's node hash of two children, and the bytes of a digest. -/
structure HeaderHashing (δ : Type) where
  blockHash : BlockHeader δ → δ
  txHash : MsgTx → δ
  mwebHeaderHash : MwebHeader δ → δ
  leafsetRoot : List UInt8 → δ
  merkleParent : δ → δ → δ
  toBytes : δ → List UInt8

/-! ## The merkle block extraction -/

/-- `CalcTreeWidth(height)`: the number of nodes `height` levels above `numTx`
transactions. -/
def calcTreeWidth (numTx height : Nat) : Nat := (numTx + 2 ^ height - 1) / 2 ^ height

/-- The loop `while CalcTreeWidth(height) > 1 { height++ }`, with `fuel` rounds left. -/
def treeHeightLoop (numTx : Nat) : Nat → Nat → Nat
  | 0, height => height
  | fuel + 1, height =>
    if calcTreeWidth numTx height > 1 then treeHeightLoop numTx fuel (height + 1) else height

/-- The flag bits of a merkle block, least significant bit of each byte first. -/
def flagBits (flags : List UInt8) : List Bool :=
  flags.flatMap fun b => (List.range 8).map fun i => (b >>> i.toUInt8) &&& 1 = 1

/-- The traversal's counters and results: bits and hashes used, the matched hashes and their
positions. -/
structure ExtractVars (δ : Type) where
  bitsUsed : Nat
  hashUsed : Nat
  matched : List δ
  index : List Nat

/-- Modelled from the spec: `TraverseAndExtract` of the standard partial merkle tree, at the
node `pos` of `height`. A missing bit or hash, or a right child equal to its left sibling,
makes the tree bad (`none`). -/
def traverseAndExtract [DecidableEq δ] (parent : δ → δ → δ) (numTx : Nat) (bits : List Bool)
    (hashes : List δ) : Nat → Nat → ExtractVars δ → Option (ExtractVars δ × δ)
  | 0, pos, s => do
    let parentOfMatch ← bits[s.bitsUsed]?
    let hash ← hashes[s.hashUsed]?
    let s := { s with bitsUsed := s.bitsUsed + 1, hashUsed := s.hashUsed + 1 }
    if parentOfMatch then
      some ({ s with matched := s.matched ++ [hash], index := s.index ++ [pos] }, hash)
    else some (s, hash)
  | height + 1, pos, s => do
    let parentOfMatch ← bits[s.bitsUsed]?
    let s := { s with bitsUsed := s.bitsUsed + 1 }
    if !parentOfMatch then
      let hash ← hashes[s.hashUsed]?
      some ({ s with hashUsed := s.hashUsed + 1 }, hash)
    else
      let (s, left) ← traverseAndExtract parent numTx bits hashes height (2 * pos) s
      if 2 * pos + 1 < calcTreeWidth numTx height then
        let (s, right) ← traverseAndExtract parent numTx bits hashes height (2 * pos + 1) s
        if right = left then none else some (s, parent left right)
      else some (s, parent left left)

/-- Modelled from the spec: `bloom.VerifyMerkleBlock`, the standard extraction of a partial
merkle tree. It rejects a block without transactions, more hashes than transactions, fewer
bits than hashes, a bad tree, and bits or hashes left unused; otherwise it gives the root,
the matched transaction hashes and their positions. Core's `ExtractMatches` also rejects a
block of more than `MAX_BLOCK_WEIGHT / MIN_TRANSACTION_WEIGHT` transactions; that cap is left
out, so the model accepts transaction counts up to `2^32 - 1` that the standard extraction
rejects. -/
def verifyMerkleBlock [DecidableEq δ] (parent : δ → δ → δ) (mb : MsgMerkleBlock δ) :
    Option (δ × List δ × List Nat) :=
  let numTx := mb.transactions.toNat
  let bits := flagBits mb.flags
  if numTx = 0 ∨ numTx < mb.hashes.length ∨ bits.length < mb.hashes.length then none
  else
    match traverseAndExtract parent numTx bits mb.hashes (treeHeightLoop numTx 32 0) 0
        ⟨0, 0, [], []⟩ with
    | none => none
    | some (s, root) =>
      if (s.bitsUsed + 7) / 8 ≠ (bits.length + 7) / 8 ∨ s.hashUsed ≠ mb.hashes.length then none
      else some (root, s.matched, s.index)

/-! ## `verifyMwebHeader` -/

/-- `verifyMwebHeader(mwebHeader, mwebLeafset, lastHeight, lastHash)`; `lastHeight` is only
logged. A failed extraction has no root, which the merkle root never equals. -/
def verifyMwebHeader [DecidableEq δ] (C : HeaderHashing δ) (mwebHeader : Option (MsgMwebHeader δ))
    (mwebLeafset : Option MsgMwebLeafset) (lastHash : δ) : Except GoPanic Bool :=
  match mwebHeader, mwebLeafset with
  | some mwebHeader, some mwebLeafset => do
    if C.blockHash mwebHeader.merkle.header ≠ lastHash then return false
    let extractResult := verifyMerkleBlock C.merkleParent mwebHeader.merkle
    if extractResult.map (·.1) ≠ some mwebHeader.merkle.header.merkleRoot then return false
    if !mwebHeader.hogex.isHogEx then return false
    let finalTx ← goLast ((extractResult.map (·.2.1)).getD [])
    if C.txHash mwebHeader.hogex ≠ finalTx then return false
    let finalTxPos ← goLast ((extractResult.map (·.2.2)).getD [])
    if finalTxPos ≠ (mwebHeader.merkle.transactions - 1).toNat then return false
    let script := [0x58, 0x20] ++ C.toBytes (C.mwebHeaderHash mwebHeader.mwebHeader)
    let txOut ← goIndex mwebHeader.hogex.txOut 0
    if txOut.pkScript ≠ script then return false
    if C.leafsetRoot mwebLeafset.leafset ≠ mwebHeader.mwebHeader.leafsetRoot then return false
    return true
  | _, _ => return false

/-! ## Where the verifier panics -/

/-- **A merkle block that matches nothing makes the verifier panic.** For any block header, the
merkle block of one transaction whose only hash is the header's merkle root, with no flag set,
extracts to that root with no match; with a HogEx transaction, `verifyMwebHeader` then reads
`extractResult.Match[len-1]` of an empty slice. -/
theorem verifyMwebHeader_empty_match [DecidableEq δ] (C : HeaderHashing δ)
    (header : BlockHeader δ) (txOut : List TxOut) (mwebHeader : MwebHeader δ)
    (mwebLeafset : MsgMwebLeafset) :
    verifyMwebHeader C (some ⟨⟨header, 1, [header.merkleRoot], [0x00]⟩, ⟨true, txOut⟩, mwebHeader⟩)
      (some mwebLeafset) (C.blockHash header) = .error .indexOutOfRange := by
  have hbits : flagBits [0x00] = List.replicate 8 false := by decide
  have hheight : treeHeightLoop 1 32 0 = 0 := by decide
  have hx : verifyMerkleBlock C.merkleParent ⟨header, 1, [header.merkleRoot], [0x00]⟩ =
      some (header.merkleRoot, [], []) := by
    simp [verifyMerkleBlock, hbits, hheight, traverseAndExtract]
  simp only [verifyMwebHeader, hx, ne_eq, not_true_eq_false, if_false, Option.map_some',
    Option.getD_some, Bool.not_true, Bool.false_eq_true, bind_pure_comp, pure_bind]
  rfl

end NeutrinoMweb
