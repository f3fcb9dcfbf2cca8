import NeutrinoMweb.Index

/-!
# Leafsets, wire records and Go's runtime failures

The data `mweb.go` reads. A `leafset` is a byte slice read as a bitmap, most significant bit
first; `contains` and `nextUnspent` are transcribed with their `uint64` counter. Messages keep
the fields the core reads (`MsgMwebUtxos`, `MwebHeader`, `MwebNetUtxo`); hashes are values of
an abstract digest type `δ`, and the two blake3 constructions of the MMR are the fields of a
`Hashing δ` record, so that collision-freeness can be stated as a hypothesis on it.

A Go panic is a value of `GoPanic`: a computation that can panic returns `Except GoPanic`,
and slice indexing and pointer dereference go through `goIndex` and `goDeref`.
-/

namespace NeutrinoMweb

/-! ## Go runtime -/

/-- The runtime panics the core can reach. -/
inductive GoPanic where
  | indexOutOfRange
  | nilDereference
deriving DecidableEq, Repr

/-- Go slice indexing `xs[i]`. -/
def goIndex {α : Type} (xs : List α) (i : Nat) : Except GoPanic α :=
  match xs[i]? with
  | some x => .ok x
  | none => .error .indexOutOfRange

/-- Dereferencing a `*chainhash.Hash` (`h[:]`, `*h`): `nil` panics. -/
def goDeref {α : Type} : Option α → Except GoPanic α
  | some x => .ok x
  | none => .error .nilDereference

/-- Go's `xs[len(xs)-1]`: the last element, a panic on an empty slice. -/
def goLast {α : Type} (xs : List α) : Except GoPanic α :=
  match xs.getLast? with
  | some x => .ok x
  | none => .error .indexOutOfRange

/-! ## Leafsets -/

/-- `leafset`: bit `i` is `bytes[i/8] & (0x80 >> (i%8))`. -/
abbrev Leafset := List UInt8

/-- `leafset.contains`: an index past the end is not contained. -/
def Leafset.contains (l : Leafset) (i : Nat) : Bool :=
  match l[i / 8]? with
  | some b => (b &&& ((0x80 : UInt8) >>> (i % 8).toUInt8)) > 0
  | none => false

/-- The loop of `leafset.nextUnspent` with at most `fuel` more increments of its `uint64`
counter. -/
def Leafset.nextUnspentLoop (l : Leafset) : Nat → Nat → Nat
  | 0, i => i
  | fuel + 1, i =>
    let i := wrap64 (i + 1)
    if l.contains i || l.length ≤ i / 8 then i else l.nextUnspentLoop fuel i

/-- `leafset.nextUnspent`: the first index after `i` that is set or past the end. The Go
loop is unbounded; after `2^64` increments its counter has taken every `uint64` value, so a
loop still running then never stops. The core calls it only from a set index. -/
def Leafset.nextUnspent (l : Leafset) (i : Nat) : Nat := l.nextUnspentLoop (2 ^ 64) i

theorem Leafset.contains_eq_of_getElem?_eq {l₁ l₂ : Leafset} {i : Nat}
    (h : l₁[i / 8]? = l₂[i / 8]?) : l₁.contains i = l₂.contains i := by
  simp only [Leafset.contains, h]

theorem Leafset.lt_length_of_contains {l : Leafset} {i : Nat} (h : l.contains i = true) :
    i / 8 < l.length := by
  by_contra hle
  simp [Leafset.contains, List.getElem?_eq_none (Nat.not_lt.mp hle)] at h

/-- From below a set index with nothing set in between, the loop stops at that index. -/
theorem Leafset.nextUnspentLoop_eq {l : Leafset} {i j : Nat} (fuel : Nat)
    (hij : i < j) (hfuel : j - i ≤ fuel) (hj : j < 2 ^ 64) (hset : l.contains j = true)
    (hgap : ∀ k, i < k → k < j → l.contains k = false) : l.nextUnspentLoop fuel i = j := by
  induction fuel generalizing i with
  | zero => omega
  | succ fuel ih =>
    have hw : wrap64 (i + 1) = i + 1 := Nat.mod_eq_of_lt (by omega)
    have hlen := Leafset.lt_length_of_contains hset
    rw [Leafset.nextUnspentLoop, hw]
    rcases Nat.lt_or_ge (i + 1) j with hlt | hge
    · rw [hgap (i + 1) (by omega) hlt, if_neg (by
        simp only [Bool.false_or, decide_eq_true_eq, Nat.not_le]
        exact lt_of_le_of_lt (Nat.div_le_div_right (le_of_lt hlt)) hlen)]
      exact ih hlt (by omega) (fun k hk hkj => hgap k (by omega) hkj)
    · obtain rfl : j = i + 1 := by omega
      simp [hset]

/-- **`nextUnspent` finds the next set index.** -/
theorem Leafset.nextUnspent_eq {l : Leafset} {i j : Nat} (hij : i < j) (hj : j < 2 ^ 64)
    (hset : l.contains j = true) (hgap : ∀ k, i < k → k < j → l.contains k = false) :
    l.nextUnspent i = j :=
  Leafset.nextUnspentLoop_eq _ hij (by omega) hj hset hgap

theorem Leafset.nextUnspentLoop_lt (l : Leafset) :
    ∀ (fuel : Nat) {i : Nat}, i < 2 ^ 64 → l.nextUnspentLoop fuel i < 2 ^ 64
  | 0, _, hi => hi
  | fuel + 1, i, _ => by
    have hw : wrap64 (i + 1) < 2 ^ 64 := Nat.mod_lt _ (Nat.two_pow_pos 64)
    simp only [Leafset.nextUnspentLoop]
    split
    · exact hw
    · exact Leafset.nextUnspentLoop_lt l fuel hw

/-- Between an index and a larger result of the loop from it, no index is set. -/
theorem Leafset.nextUnspentLoop_gap {l : Leafset} :
    ∀ {fuel i k : Nat}, i < 2 ^ 64 → i < k → k < l.nextUnspentLoop fuel i → l.contains k = false
  | 0, i, k, _, hik, hk => by simp only [Leafset.nextUnspentLoop] at hk; omega
  | fuel + 1, i, k, hi, hik, hk => by
    have hb := l.nextUnspentLoop_lt (fuel + 1) hi
    by_cases hw' : 2 ^ 64 ≤ i + 1
    · omega
    have hw : i + 1 < 2 ^ 64 := by omega
    simp only [Leafset.nextUnspentLoop, show wrap64 (i + 1) = i + 1 from Nat.mod_eq_of_lt hw]
      at hk
    split at hk
    · omega
    · rename_i hc
      simp only [Bool.or_eq_true, decide_eq_true_eq, not_or, Bool.not_eq_true] at hc
      rcases Nat.lt_or_ge k (i + 1 + 1) with hk1 | hk1
      · obtain rfl : k = i + 1 := by omega
        exact hc.1
      · exact Leafset.nextUnspentLoop_gap hw (by omega) hk

/-- **`nextUnspent` skips no set index**: below a larger result, nothing after `i` is set. -/
theorem Leafset.nextUnspent_gap {l : Leafset} {i k : Nat} (hi : i < 2 ^ 64) (hik : i < k)
    (hk : k < l.nextUnspent i) : l.contains k = false :=
  Leafset.nextUnspentLoop_gap hi hik hk

/-! ## Hashing and messages -/

/-- The MMR's two digests, as functions of the node index: `nodeIdx.hash` of a leaf's
output id (blake3 of the 8-byte little-endian index and the length-prefixed id) and
`nodeIdx.parentHash` (blake3 of the index and both child digests); `zero` is
`chainhash.Hash{}`. -/
structure Hashing (δ : Type) where
  hash : Nat → δ → δ
  parentHash : Nat → δ → δ → δ
  zero : δ

/-- The digests of the MMR are collision-free: each construction is injective, and no leaf
digest equals a node digest (their blake3 inputs have 41 and 72 bytes). -/
structure Hashing.CollisionFree {δ : Type} (H : Hashing δ) : Prop where
  hash_inj : ∀ {p p' d d'}, H.hash p d = H.hash p' d' → p = p' ∧ d = d'
  parentHash_inj : ∀ {p p' l l' r r'},
    H.parentHash p l r = H.parentHash p' l' r' → p = p' ∧ l = l' ∧ r = r'
  hash_ne_parentHash : ∀ {p p' d l r}, H.hash p d ≠ H.parentHash p' l r

/-- Digests as terms over output ids: two digests are equal only when they are built alike,
the idealised blake3 under which the MMR's soundness is stated. -/
inductive FreeDigest where
  | outputId (n : Nat)
  | leaf (p : Nat) (d : FreeDigest)
  | node (p : Nat) (l r : FreeDigest)
deriving DecidableEq, Repr

/-- The MMR's digests built as terms. -/
def freeHashing : Hashing FreeDigest where
  hash := .leaf
  parentHash := .node
  zero := .outputId 0

theorem freeHashing_collisionFree : freeHashing.CollisionFree where
  hash_inj h := by cases h; exact ⟨rfl, rfl⟩
  parentHash_inj h := by cases h; exact ⟨rfl, rfl, rfl⟩
  hash_ne_parentHash h := by cases h

/-- The output ids of the concrete runs: `outputId (i + 10)` at leaf `i`, apart from the
`outputId 0` they use as block hash and leafset root. -/
def freeIds (i : Nat) : FreeDigest := .outputId (i + 10)

/-- `wire.MwebNetUtxo`, the fields verification reads. -/
structure MwebNetUtxo (δ : Type) where
  leafIndex : UInt64
  outputId : δ

/-- `wire.MsgMwebUtxos`. -/
structure MsgMwebUtxos (δ : Type) where
  blockHash : δ
  startIndex : UInt64
  outputFormat : UInt8
  utxos : List (MwebNetUtxo δ)
  proofHashes : List δ

/-- `wire.MwebHeader`, the fields the MMR checks read. -/
structure MwebHeader (δ : Type) where
  outputRoot : δ
  outputMMRSize : UInt64
  leafsetRoot : δ

end NeutrinoMweb
