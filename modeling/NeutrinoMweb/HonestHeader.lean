import Mathlib.Data.List.Nodup
import NeutrinoMweb.MerkleBlock

/-!
# An honest header message is accepted

A full node proves where the HogEx transaction stands in its block with the standard partial
merkle tree of the block's transaction hashes that matches the last position (`partialTree`),
its flag bits packed eight to a byte, the first bit least significant (`packFlags`). The
traversal reads such a tree back exactly: from any node it takes the node's bits and hashes,
gives the node's hash and matches the one position below it (`traverseAndExtract_partialTree`).
The extraction of an honest merkle block therefore gives the block's merkle root and the matched
transaction alone (`verifyMerkleBlock_partialMerkleBlock`), and `verifyMwebHeader` accepts the
honest header message of every block whose transaction hashes are distinct
(`verifyMwebHeader_honest`).
-/

namespace NeutrinoMweb

variable {δ : Type}

/-! ## Flag bytes -/

/-- Flag bits packed into a byte, the first bit least significant. -/
def flagByte (bs : List Bool) : UInt8 := (bs.foldr Nat.bit 0).toUInt8

/-- Flag bits packed eight to a byte, the last byte padded with clear bits. -/
def packFlags : List Bool → List UInt8
  | [] => []
  | b :: bs => flagByte ((b :: bs).take 8) :: packFlags (bs.drop 7)
termination_by bs => bs.length
decreasing_by
  simp only [List.length_drop, List.length_cons]
  omega

theorem testBit_foldr_bit : ∀ (bs : List Bool) (i : Nat),
    (bs.foldr Nat.bit 0).testBit i = bs.getD i false
  | [], i => Nat.zero_testBit i
  | b :: _, 0 => Nat.testBit_bit_zero b _
  | b :: bs, i + 1 => by
    rw [List.foldr_cons, Nat.testBit_bit_succ, testBit_foldr_bit bs i, List.getD_cons_succ]

theorem toNat_shiftRight_toUInt8 (y : UInt8) {i : Nat} (hi : i < 8) :
    (y >>> i.toUInt8).toNat = y.toNat >>> i := by
  show (y.toBitVec >>> (UInt8.mod i.toUInt8 8).toBitVec).toNat = y.toBitVec.toNat >>> i
  have hm : (UInt8.mod i.toUInt8 8).toBitVec.toNat = i := by
    show i % 256 % 8 = i
    omega
  rw [BitVec.ushiftRight_eq', BitVec.toNat_ushiftRight, hm]

/-- **A flag byte reads back its bits.** -/
theorem flagBit_flagByte (bs : List Bool) {i : Nat} (hi : i < 8) :
    decide ((flagByte bs >>> i.toUInt8) &&& 1 = 1) = bs.getD i false := by
  have hbyte : (flagByte bs).toNat = bs.foldr Nat.bit 0 % 2 ^ 8 := rfl
  have hone : (1 : UInt8).toNat = 1 := rfl
  have hbit : ((flagByte bs >>> i.toUInt8) &&& 1 = 1) ↔
      (bs.foldr Nat.bit 0 % 2 ^ 8) / 2 ^ i % 2 = 1 := by
    rw [show ((flagByte bs >>> i.toUInt8) &&& 1 = 1) ↔
        ((flagByte bs >>> i.toUInt8) &&& 1).toNat = (1 : UInt8).toNat from
          ⟨congrArg _, UInt8.toNat.inj⟩, UInt8.and_toNat, hone, toNat_shiftRight_toUInt8 _ hi,
      hbyte, Nat.and_one_is_mod, Nat.shiftRight_eq_div_pow]
  rw [decide_eq_decide.2 hbit, ← Nat.testBit_to_div_mod, Nat.testBit_mod_two_pow,
    testBit_foldr_bit, decide_eq_true hi, Bool.true_and]

theorem map_range_getD (d : Bool) :
    ∀ (n : Nat) (l : List Bool), (List.range n).map (l.getD · d) =
      l.take n ++ List.replicate (n - l.length) d
  | 0, _ => by simp
  | n + 1, [] => by simp [List.range_succ, List.replicate_succ']
  | n + 1, b :: l => by
    rw [List.range_succ_eq_map, List.map_cons, List.map_map]
    simp only [Function.comp_def, List.getD_cons_succ, List.getD_cons_zero, map_range_getD d n l,
      List.take_succ_cons, List.length_cons, Nat.add_sub_add_right, List.cons_append]

theorem flagBits_flagByte (bs : List Bool) :
    flagBits [flagByte bs] = bs.take 8 ++ List.replicate (8 - bs.length) false := by
  rw [← map_range_getD, flagBits, List.flatMap_cons, List.flatMap_nil, List.append_nil]
  exact List.map_congr_left fun i hi => flagBit_flagByte _ (List.mem_range.1 hi)

theorem flagBits_cons (b : UInt8) (bs : List UInt8) :
    flagBits (b :: bs) = flagBits [b] ++ flagBits bs := by
  simp only [flagBits, List.flatMap_cons, List.flatMap_nil, List.append_nil]

/-- **The flag bytes read back the bits, then clear padding to a whole byte.** -/
theorem flagBits_packFlags : ∀ bits : List Bool,
    ∃ pad, flagBits (packFlags bits) = bits ++ List.replicate pad false ∧
      bits.length + pad = 8 * ((bits.length + 7) / 8)
  | [] => ⟨0, by rw [packFlags]; rfl, rfl⟩
  | b :: bs => by
    rw [packFlags, flagBits_cons, flagBits_flagByte, List.take_take, Nat.min_self,
      List.length_take, List.length_cons]
    rcases Nat.lt_or_ge bs.length 7 with hs | hs
    · -- the last byte
      rw [List.drop_eq_nil_of_le (by omega), packFlags,
        List.take_of_length_le (show (b :: bs).length ≤ 8 by simp only [List.length_cons]; omega),
        Nat.min_eq_right (by omega)]
      refine ⟨8 - (bs.length + 1), ?_, by omega⟩
      rw [flagBits, List.flatMap_nil, List.append_nil]
    · -- a full byte
      obtain ⟨pad, hpad, hlen⟩ := flagBits_packFlags (bs.drop 7)
      refine ⟨pad, ?_, ?_⟩
      · rw [hpad, Nat.min_eq_left (by omega), Nat.sub_self, List.replicate_zero, List.append_nil,
          ← List.append_assoc, show bs.drop 7 = (b :: bs).drop 8 from rfl, List.take_append_drop]
      · simp only [List.length_drop, List.length_cons] at hlen ⊢
        omega
termination_by bits => bits.length
decreasing_by
  simp only [List.length_drop, List.length_cons]
  omega

/-! ## The partial merkle tree of one position -/

theorem two_mul_mul_two_pow (pos h : Nat) : 2 * pos * 2 ^ h = pos * 2 ^ (h + 1) := by
  rw [Nat.pow_succ, Nat.mul_comm 2 pos, Nat.mul_assoc, Nat.mul_comm 2]

theorem lt_calcTreeWidth_iff {n h pos : Nat} : pos < calcTreeWidth n h ↔ pos * 2 ^ h < n := by
  have hp := Nat.two_pow_pos h
  rw [calcTreeWidth, Nat.lt_iff_add_one_le, Nat.le_div_iff_mul_le hp, Nat.add_mul, Nat.one_mul]
  omega

/-- The standard partial merkle tree of the transaction hashes `txs` that matches the one
position `t`: the flag bits and hashes of the subtree at `height` and `pos`, depth first. A node
above `t` is expanded; every other node gives its hash. -/
def partialTree (parent : δ → δ → δ) (txs : List δ) (t : Nat) : Nat → Nat → List Bool × List δ
  | 0, pos => ([decide (pos = t)], txs[pos]?.toList)
  | h + 1, pos =>
    if t / 2 ^ (h + 1) = pos then
      let l := partialTree parent txs t h (2 * pos)
      let r := if 2 * pos + 1 < calcTreeWidth txs.length h then
        partialTree parent txs t h (2 * pos + 1) else ([], [])
      (true :: (l.1 ++ r.1), l.2 ++ r.2)
    else ([false], (merkleLevel parent txs (h + 1))[pos]?.toList)

/-- The merkle block a full node sends for the block of header `header` and transaction hashes
`txs`, matching the position `t`. -/
def partialMerkleBlock (parent : δ → δ → δ) (header : BlockHeader δ) (txs : List δ) (t : Nat) :
    MsgMerkleBlock δ :=
  let tree := partialTree parent txs t (treeHeightLoop txs.length 32 0) 0
  ⟨header, txs.length.toUInt32, tree.2, packFlags tree.1⟩

section Tree

variable (parent : δ → δ → δ) (txs : List δ) (t : Nat)

/-- Every hash of the tree comes with a flag bit. -/
theorem length_hashes_le_bits : ∀ h pos,
    (partialTree parent txs t h pos).2.length ≤ (partialTree parent txs t h pos).1.length
  | 0, pos => by
    rw [partialTree]
    cases txs[pos]? <;> simp
  | h + 1, pos => by
    have hl := length_hashes_le_bits h (2 * pos)
    have hr := length_hashes_le_bits h (2 * pos + 1)
    rw [partialTree]
    dsimp only
    split_ifs <;> simp only [List.length_cons, List.length_append, List.length_nil,
      List.length_singleton] <;>
      first | omega | (cases (merkleLevel parent txs (h + 1))[pos]? <;> simp)

/-- **A subtree gives no more hashes than it has leaves**: no more than `2^h`, and no more than
the transactions from its first one on. -/
theorem length_hashes_le_leaves : ∀ h pos, pos * 2 ^ h < txs.length →
    (partialTree parent txs t h pos).2.length ≤ 2 ^ h ∧
      (partialTree parent txs t h pos).2.length ≤ txs.length - pos * 2 ^ h
  | 0, pos, hpos => by
    rw [partialTree]
    cases txs[pos]? <;> simp only [Option.toList_none, Option.toList_some, List.length_nil,
      List.length_singleton, pow_zero, Nat.mul_one] at hpos ⊢ <;> omega
  | h + 1, pos, hpos => by
    have hK := Nat.two_pow_pos h
    have f₁ := two_mul_mul_two_pow pos h
    have f₂ : (2 * pos + 1) * 2 ^ h = 2 * pos * 2 ^ h + 2 ^ h := Nat.succ_mul _ _
    have f₃ : 2 ^ (h + 1) = 2 ^ h * 2 := Nat.pow_succ _ _
    have hl := length_hashes_le_leaves h (2 * pos) (by omega)
    rw [partialTree]
    dsimp only
    split_ifs with hp hr
    · have hr' := length_hashes_le_leaves h (2 * pos + 1) (lt_calcTreeWidth_iff.1 hr)
      simp only [List.length_cons, List.length_append] at hl hr' ⊢
      omega
    · simp only [List.length_cons, List.length_append, List.length_nil] at hl ⊢
      omega
    · cases (merkleLevel parent txs (h + 1))[pos]? <;> simp only [Option.toList_none,
        Option.toList_some, List.length_nil, List.length_singleton] <;> omega

end Tree

/-! ## The traversal reads the tree back -/

/-- The list `xs` holds `ys` from the index `i` on. -/
def HoldsFrom {α : Type} (xs ys : List α) (i : Nat) : Prop :=
  ∀ k, k < ys.length → xs[i + k]? = ys[k]?

theorem holdsFrom_cons {α : Type} {xs ys : List α} {a : α} {i : Nat} :
    HoldsFrom xs (a :: ys) i ↔ xs[i]? = some a ∧ HoldsFrom xs ys (i + 1) := by
  constructor
  · intro h
    refine ⟨by simpa using h 0 (Nat.succ_pos _), fun k hk => ?_⟩
    have := h (k + 1) (by simp only [List.length_cons]; omega)
    rwa [List.getElem?_cons_succ, show i + (k + 1) = i + 1 + k by omega] at this
  · rintro ⟨h0, h⟩ (_ | k) hk
    · simpa using h0
    · rw [List.getElem?_cons_succ, show i + (k + 1) = i + 1 + k by omega]
      exact h k (by simp only [List.length_cons] at hk; omega)

theorem holdsFrom_append {α : Type} {xs ys zs : List α} {i : Nat} :
    HoldsFrom xs (ys ++ zs) i ↔ HoldsFrom xs ys i ∧ HoldsFrom xs zs (i + ys.length) := by
  constructor
  · intro h
    refine ⟨fun k hk => ?_, fun k hk => ?_⟩
    · rw [h k (by simp only [List.length_append]; omega), List.getElem?_append_left hk]
    · rw [Nat.add_assoc, h _ (by simp only [List.length_append]; omega),
        List.getElem?_append_right (by omega), Nat.add_sub_cancel_left]
  · rintro ⟨h₁, h₂⟩ k hk
    rcases Nat.lt_or_ge k ys.length with hk' | hk'
    · rw [h₁ k hk', List.getElem?_append_left hk']
    · obtain ⟨j, rfl⟩ := Nat.exists_eq_add_of_le hk'
      rw [← Nat.add_assoc, h₂ j (by simp only [List.length_append] at hk; omega),
        List.getElem?_append_right (by omega), Nat.add_sub_cancel_left]

theorem holdsFrom_append_left {α : Type} (ys zs : List α) : HoldsFrom (ys ++ zs) ys 0 :=
  fun k hk => by rw [Nat.zero_add, List.getElem?_append_left hk]

theorem holdsFrom_self {α : Type} (ys : List α) : HoldsFrom ys ys 0 :=
  fun k _ => by rw [Nat.zero_add]

/-- The traversal's counters and results once it has read the bits `bits` and the hashes
`hashes` and matched `ms` at the positions `is`. -/
def ExtractVars.advance (s : ExtractVars δ) (bits : List Bool) (hashes : List δ) (ms : List δ)
    (is : List Nat) : ExtractVars δ :=
  ⟨s.bitsUsed + bits.length, s.hashUsed + hashes.length, s.matched ++ ms, s.index ++ is⟩

theorem div_two_pow_succ (t h : Nat) : t / 2 ^ (h + 1) = t / 2 ^ h / 2 := by
  rw [Nat.div_div_eq_div_mul, Nat.pow_succ]

section Extract

variable {C : HeaderHashing δ} {txs : List δ}

/-- With distinct transaction hashes and a collision-free merkle parent, two nodes of one level
with the same hash are one node: their leftmost leaves are one transaction. -/
theorem merkleLevel_inj (hC : C.MerkleCollisionFree) (hnd : txs.Nodup) :
    ∀ {h p q : Nat} {a : δ}, (merkleLevel C.merkleParent txs h)[p]? = some a →
      (merkleLevel C.merkleParent txs h)[q]? = some a → p = q
  | 0, p, q, a, hp, hq => by
    obtain ⟨hpl, hpa⟩ := List.getElem?_eq_some_iff.1 hp
    obtain ⟨hql, hqa⟩ := List.getElem?_eq_some_iff.1 hq
    exact (hnd.getElem_inj_iff).1 (hpa.trans hqa.symm)
  | h + 1, p, q, a, hp, hq => by
    rw [merkleLevel, getElem?_merkleLevelUp, Option.map_eq_some'] at hp hq
    obtain ⟨x, hx, rfl⟩ := hp
    obtain ⟨y, hy, hxy⟩ := hq
    obtain ⟨rfl, -⟩ := hC.merkleParent_inj hxy
    have := merkleLevel_inj hC hnd hx hy
    omega

variable [DecidableEq δ] {bits : List Bool} {hashes : List δ}

/-- **The traversal reads an honest subtree back.** From the node at `h` and `pos`, on bits and
hashes that hold the node's subtree at the traversal's counters, the traversal takes exactly the
subtree's bits and hashes, gives the node's hash, and matches `t` if `t` lies below the node. -/
theorem traverseAndExtract_partialTree (hC : C.MerkleCollisionFree) (hnd : txs.Nodup) {t : Nat}
    (ht : t < txs.length) :
    ∀ (h pos : Nat), pos * 2 ^ h < txs.length → ∀ s : ExtractVars δ,
      HoldsFrom bits (partialTree C.merkleParent txs t h pos).1 s.bitsUsed →
      HoldsFrom hashes (partialTree C.merkleParent txs t h pos).2 s.hashUsed →
      ∃ d, (merkleLevel C.merkleParent txs h)[pos]? = some d ∧
        traverseAndExtract C.merkleParent txs.length bits hashes h pos s =
          some (s.advance (partialTree C.merkleParent txs t h pos).1
            (partialTree C.merkleParent txs t h pos).2
            (if t / 2 ^ h = pos then [txs[t]] else []) (if t / 2 ^ h = pos then [t] else []), d)
  | 0, pos, hpos, s, hb, hh => by
    simp only [pow_zero, Nat.mul_one, Nat.div_one] at hpos ⊢
    simp only [partialTree, List.getElem?_eq_getElem hpos, Option.toList_some] at hb hh ⊢
    refine ⟨txs[pos], List.getElem?_eq_getElem hpos, ?_⟩
    simp only [traverseAndExtract, (holdsFrom_cons.1 hb).1, (holdsFrom_cons.1 hh).1,
      Option.bind_eq_bind, Option.some_bind, ExtractVars.advance, List.length_singleton]
    by_cases hpt : pos = t
    · subst hpt
      simp
    · simp [hpt, Ne.symm hpt]
  | h + 1, pos, hpos, s, hb, hh => by
    have hK := Nat.two_pow_pos h
    have e₁ := two_mul_mul_two_pow pos h
    have hlen := length_merkleLevel C.merkleParent txs h
    by_cases hp : t / 2 ^ (h + 1) = pos
    · -- on the path to `t`: the node is expanded
      rw [partialTree, if_pos hp] at hb hh ⊢
      dsimp only at hb hh ⊢
      obtain ⟨hb0, hb⟩ := holdsFrom_cons.1 hb
      rw [holdsFrom_append] at hb hh
      obtain ⟨dl, hdl, hL⟩ := traverseAndExtract_partialTree hC hnd ht h (2 * pos) (by omega)
        ⟨s.bitsUsed + 1, s.hashUsed, s.matched, s.index⟩ hb.1 hh.1
      have hq : t / 2 ^ h = 2 * pos ∨ t / 2 ^ h = 2 * pos + 1 := by
        rw [div_two_pow_succ] at hp
        omega
      by_cases hr : 2 * pos + 1 < calcTreeWidth txs.length h
      · rw [if_pos hr] at hb hh ⊢
        obtain ⟨dr, hdr, hR⟩ := traverseAndExtract_partialTree hC hnd ht h (2 * pos + 1)
          (lt_calcTreeWidth_iff.1 hr)
          (ExtractVars.advance ⟨s.bitsUsed + 1, s.hashUsed, s.matched, s.index⟩
            (partialTree C.merkleParent txs t h (2 * pos)).1
            (partialTree C.merkleParent txs t h (2 * pos)).2
            (if t / 2 ^ h = 2 * pos then [txs[t]] else [])
            (if t / 2 ^ h = 2 * pos then [t] else []))
          hb.2 hh.2
        have hne : dr ≠ dl := fun he => by
          have := merkleLevel_inj hC hnd hdl (he ▸ hdr)
          omega
        refine ⟨C.merkleParent dl dr, ?_, ?_⟩
        · rw [merkleLevel, getElem?_merkleLevelUp, hdl, hdr]
          rfl
        · rw [traverseAndExtract]
          simp only [hb0, hL, hR, hr, hne, Option.bind_eq_bind, Option.some_bind, Bool.not_true,
            Bool.false_eq_true, if_false, if_true]
          rcases hq with hq | hq <;> simp [ExtractVars.advance, hp, hq] <;> omega
      · -- no right child: `t` lies below the left one, which is paired with itself
        rw [if_neg hr] at hb hh ⊢
        have hq' : t / 2 ^ h = 2 * pos := by
          refine hq.resolve_right fun hq => ?_
          have := Nat.div_mul_le_self t (2 ^ h)
          rw [hq] at this
          exact hr (lt_calcTreeWidth_iff.2 (by omega))
        refine ⟨C.merkleParent dl dl, ?_, ?_⟩
        · rw [merkleLevel, getElem?_merkleLevelUp, hdl, List.getElem?_eq_none (by omega)]
          rfl
        · rw [traverseAndExtract]
          simp only [hb0, hL, hr, Option.bind_eq_bind, Option.some_bind, Bool.not_true,
            Bool.false_eq_true, if_false]
          simp [ExtractVars.advance, hp, hq']
          omega
    · -- off the path to `t`: the node's hash is given
      obtain ⟨d, hd⟩ : ∃ d, (merkleLevel C.merkleParent txs (h + 1))[pos]? = some d :=
        ⟨_, List.getElem?_eq_getElem
          (by rw [length_merkleLevel]; exact lt_calcTreeWidth_iff.2 hpos)⟩
      rw [partialTree, if_neg hp, hd, Option.toList_some] at hb hh ⊢
      dsimp only at hb hh ⊢
      refine ⟨d, rfl, ?_⟩
      rw [traverseAndExtract]
      simp only [(holdsFrom_cons.1 hb).1, (holdsFrom_cons.1 hh).1, Option.bind_eq_bind,
        Option.some_bind, Bool.not_false, if_true]
      simp [ExtractVars.advance, hp]

/-- **The extraction reads an honest merkle block back.** For distinct transaction hashes, fewer
than `2^32` of them, and a collision-free merkle parent, the merkle block matching the position
`t` extracts to the block's merkle root, the transaction at `t` and `t`. -/
theorem verifyMerkleBlock_partialMerkleBlock (hC : C.MerkleCollisionFree) (hnd : txs.Nodup)
    (h32 : txs.length < 2 ^ 32) {t : Nat} (ht : t < txs.length) (header : BlockHeader δ) :
    ∃ root, blockMerkleRoot C.merkleParent txs = some root ∧
      verifyMerkleBlock C.merkleParent (partialMerkleBlock C.merkleParent header txs t) =
        some (root, [txs[t]], [t]) := by
  have hne : txs ≠ [] := List.ne_nil_of_length_pos (by omega)
  have hw := calcTreeWidth_thirtyTwo h32
  have hwH := calcTreeWidth_treeHeightLoop txs.length 32 0 hw
  have hK := Nat.two_pow_pos (treeHeightLoop txs.length 32 0)
  have hleaves : txs.length ≤ 2 ^ treeHeightLoop txs.length 32 0 := by
    have h1 : ¬1 < calcTreeWidth txs.length (treeHeightLoop txs.length 32 0) := by omega
    rw [lt_calcTreeWidth_iff] at h1
    omega
  have hnum : txs.length.toUInt32.toNat = txs.length := UInt32.toNat_ofNat_of_lt h32
  obtain ⟨pad, hflags, hpad⟩ :=
    flagBits_packFlags (partialTree C.merkleParent txs t (treeHeightLoop txs.length 32 0) 0).1
  obtain ⟨d, hd, htr⟩ := traverseAndExtract_partialTree hC hnd ht _ 0 (by omega) ⟨0, 0, [], []⟩
    (hflags ▸ holdsFrom_append_left _ _ : HoldsFrom (flagBits (packFlags
      (partialTree C.merkleParent txs t (treeHeightLoop txs.length 32 0) 0).1)) _ 0)
    (holdsFrom_self _)
  have hbits := length_hashes_le_bits C.merkleParent txs t (treeHeightLoop txs.length 32 0) 0
  have hhashes := length_hashes_le_leaves C.merkleParent txs t (treeHeightLoop txs.length 32 0) 0
    (by omega)
  refine ⟨d, ?_, ?_⟩
  · rw [show txs = merkleLevel C.merkleParent txs 0 from rfl,
      blockMerkleRoot_eq_treeHeightLoop C.merkleParent hne 32 0 hw, hd]
  · unfold verifyMerkleBlock partialMerkleBlock
    simp only [hnum, hflags, List.length_append, List.length_replicate, Nat.zero_mul, Nat.zero_add,
      Nat.one_mul] at htr hhashes ⊢
    rw [if_neg (by omega), htr]
    simp only [ExtractVars.advance, Nat.zero_add, List.nil_append, Nat.div_eq_of_lt
      (show t < 2 ^ treeHeightLoop txs.length 32 0 by omega), if_true]
    rw [if_neg (by omega)]

end Extract

/-- The header message an honest full node sends for the block of header `header`, transaction
hashes `txs` and HogEx transaction `hogex`: the merkle block of the last position. -/
def honestMwebHeader (C : HeaderHashing δ) (header : BlockHeader δ) (txs : List δ) (hogex : MsgTx)
    (mwebHeader : MwebHeader δ) : MsgMwebHeader δ :=
  ⟨partialMerkleBlock C.merkleParent header txs (txs.length - 1), hogex, mwebHeader⟩

/-- **`verifyMwebHeader` accepts an honest header message.** For a block of distinct
transaction hashes, fewer than `2^32`, whose merkle root is its header's and whose last
transaction is a HogEx paying to `OP_8 0x20` and the MWEB header's hash, with a leafset that
hashes to the MWEB header's leafset root and a collision-free merkle parent, the header message
an honest full node sends is accepted against the block's hash. The bound `2^32` is the
model's, whose extraction leaves out Core's cap on the transaction count (`verifyMerkleBlock`);
a block within consensus limits is well below it. -/
theorem verifyMwebHeader_honest [DecidableEq δ] (C : HeaderHashing δ) (hC : C.MerkleCollisionFree)
    {txs : List δ} (hnd : txs.Nodup) (h32 : txs.length < 2 ^ 32) {hogex : MsgTx}
    (hlast : txs.getLast? = some (C.txHash hogex)) (hhog : hogex.isHogEx = true)
    {mwebHeader : MwebHeader δ} {rest : List TxOut}
    (hout : hogex.txOut = ⟨[0x58, 0x20] ++ C.toBytes (C.mwebHeaderHash mwebHeader)⟩ :: rest)
    {header : BlockHeader δ} (hroot : blockMerkleRoot C.merkleParent txs = some header.merkleRoot)
    (l : MsgMwebLeafset) (hleaf : C.leafsetRoot l.leafset = mwebHeader.leafsetRoot) :
    verifyMwebHeader C (some (honestMwebHeader C header txs hogex mwebHeader)) (some l)
      (C.blockHash header) = .ok true := by
  have hn : 0 < txs.length := List.length_pos.2 fun h => by simp [h] at hlast
  obtain ⟨root, hr, hv⟩ := verifyMerkleBlock_partialMerkleBlock hC hnd h32 (t := txs.length - 1)
    (by omega) header
  obtain rfl : header.merkleRoot = root := Option.some.inj (hroot.symm.trans hr)
  have hx : txs[txs.length - 1] = C.txHash hogex := by
    rw [List.getLast?_eq_getElem?, List.getElem?_eq_getElem (by omega)] at hlast
    exact Option.some.inj hlast
  have hpos : (txs.length.toUInt32 - 1).toNat = txs.length - 1 := by
    have hnum : txs.length.toUInt32.toNat = txs.length := UInt32.toNat_ofNat_of_lt h32
    rw [UInt32.toNat_sub_of_le _ _ (by
      rw [UInt32.le_def, BitVec.le_def]
      show 1 ≤ txs.length.toUInt32.toNat
      omega), hnum]
    rfl
  have hmb : (partialMerkleBlock C.merkleParent header txs (txs.length - 1)).header = header ∧
      (partialMerkleBlock C.merkleParent header txs (txs.length - 1)).transactions =
        txs.length.toUInt32 := ⟨rfl, rfl⟩
  simp [verifyMwebHeader, honestMwebHeader, hv, hmb, hx, hhog, hout, hleaf, hpos, goLast, goIndex,
    bind, Except.bind]
  rfl

/-- An honest full node's header message for the two-transaction block of `hogexSecondOfTwo` is
accepted. -/
theorem verifyMwebHeader_honest_two_tx :
    freeHeaderHashing.MerkleCollisionFree ∧ [FreeDigest.outputId 7, .outputId 2].Nodup ∧
      [FreeDigest.outputId 7, .outputId 2].length < 2 ^ 32 ∧
      [FreeDigest.outputId 7, .outputId 2].getLast? =
        some (freeHeaderHashing.txHash hogexSecondOfTwo.hogex) ∧
      hogexSecondOfTwo.hogex.isHogEx = true ∧
      hogexSecondOfTwo.hogex.txOut = [⟨[0x58, 0x20] ++ freeHeaderHashing.toBytes
        (freeHeaderHashing.mwebHeaderHash hogexSecondOfTwo.mwebHeader)⟩] ∧
      blockMerkleRoot freeHeaderHashing.merkleParent [.outputId 7, .outputId 2] =
        some hogexSecondOfTwo.merkle.header.merkleRoot ∧
      freeHeaderHashing.leafsetRoot [] = hogexSecondOfTwo.mwebHeader.leafsetRoot ∧
      verifyMwebHeader freeHeaderHashing (some (honestMwebHeader freeHeaderHashing
          hogexSecondOfTwo.merkle.header [.outputId 7, .outputId 2] hogexSecondOfTwo.hogex
          hogexSecondOfTwo.mwebHeader)) (some ⟨[]⟩)
        (freeHeaderHashing.blockHash hogexSecondOfTwo.merkle.header) = .ok true := by
  refine ⟨freeHeaderHashing_merkleCollisionFree, ?nd, ?len, rfl, rfl, rfl, ?root, rfl,
    verifyMwebHeader_honest freeHeaderHashing freeHeaderHashing_merkleCollisionFree ?nd ?len rfl rfl
      rfl ?root ⟨[]⟩ rfl⟩
  case nd => decide
  case len => decide
  case root =>
    rw [blockMerkleRoot_of_two_le _ (by decide)]
    exact blockMerkleRoot_singleton _ _

end NeutrinoMweb
