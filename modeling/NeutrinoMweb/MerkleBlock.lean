import Mathlib.Data.List.Forall2
import NeutrinoMweb.HeaderVerifier

/-!
# The block's merkle tree and what an accepted header proves

A block commits to its transactions by the merkle root of their hashes: the hashes are paired
level by level, the last hash of an odd level with itself, until one is left
(`blockMerkleRoot`). The partial merkle tree of a merkle block names the nodes of that tree by
height and position: the node at height `h` and position `pos` is the `pos`-th hash of the
`h`-th level (`merkleLevel`), a level of `CalcTreeWidth(h)` hashes (`length_merkleLevel`), and
the height the extraction starts from is the one whose level is the root alone
(`blockMerkleRoot_eq_treeHeightLoop`).

With a collision-free merkle parent, every hash the extraction matches is the transaction of
the block at the position it records (`verifyMerkleBlock_sound`). A header the verifier
accepts therefore proves that the HogEx transaction is the last transaction of the block, of
the count the merkle block gives, under the header's merkle root (`verifyMwebHeader_sound`).
-/

namespace NeutrinoMweb

variable {δ : Type}

/-! ## The block's merkle tree -/

/-- One level up the merkle tree: the parent of each pair of hashes, the last hash of an odd
level paired with itself. -/
def merkleLevelUp (parent : δ → δ → δ) : List δ → List δ
  | [] => []
  | [a] => [parent a a]
  | a :: b :: rest => parent a b :: merkleLevelUp parent rest
termination_by structural l => l

/-- The `h`-th level of the merkle tree over the transaction hashes `txs`. -/
def merkleLevel (parent : δ → δ → δ) (txs : List δ) : Nat → List δ
  | 0 => txs
  | h + 1 => merkleLevelUp parent (merkleLevel parent txs h)

theorem length_merkleLevelUp (parent : δ → δ → δ) :
    ∀ l : List δ, (merkleLevelUp parent l).length = (l.length + 1) / 2
  | [] | [_] => by simp [merkleLevelUp]
  | _ :: _ :: rest => by
    simp only [merkleLevelUp, List.length_cons, length_merkleLevelUp parent rest]
    omega

/-- The merkle root of a block's transaction hashes: levels up until one hash is left. A
block without transactions has none. -/
def blockMerkleRoot (parent : δ → δ → δ) : List δ → Option δ
  | [] => none
  | [a] => some a
  | a :: b :: rest => blockMerkleRoot parent (merkleLevelUp parent (a :: b :: rest))
termination_by l => l.length
decreasing_by
  simp only [length_merkleLevelUp, List.length_cons]
  omega

/-- A node of a level above is the parent of its two children, the left one twice where the
level has no right one. -/
theorem getElem?_merkleLevelUp (parent : δ → δ → δ) : ∀ (l : List δ) (pos : Nat),
    (merkleLevelUp parent l)[pos]? = l[2 * pos]?.map fun a => parent a (l[2 * pos + 1]?.getD a)
  | [], _ => rfl
  | [_], 0 => rfl
  | [_], pos + 1 => by
    rw [show 2 * (pos + 1) = 2 * pos + 1 + 1 by omega]
    simp [merkleLevelUp]
  | _ :: _ :: _, 0 => by simp [merkleLevelUp]
  | _ :: _ :: rest, pos + 1 => by
    rw [show 2 * (pos + 1) = 2 * pos + 1 + 1 by omega]
    simp only [merkleLevelUp, List.getElem?_cons_succ, getElem?_merkleLevelUp parent rest pos]

theorem calcTreeWidth_zero (n : Nat) : calcTreeWidth n 0 = n := by
  simp [calcTreeWidth]

theorem calcTreeWidth_succ (n h : Nat) : calcTreeWidth n (h + 1) = (calcTreeWidth n h + 1) / 2 := by
  have hp : 0 < 2 ^ h := Nat.two_pow_pos h
  rw [calcTreeWidth, calcTreeWidth, ← Nat.add_div_right _ hp, Nat.div_div_eq_div_mul, ← pow_succ]
  congr 1
  rw [pow_succ]
  omega

theorem calcTreeWidth_pos {n : Nat} (hn : 0 < n) (h : Nat) : 0 < calcTreeWidth n h :=
  Nat.div_pos (by omega) (Nat.two_pow_pos h)

/-- **A level has `CalcTreeWidth` hashes.** -/
theorem length_merkleLevel (parent : δ → δ → δ) (txs : List δ) :
    ∀ h, (merkleLevel parent txs h).length = calcTreeWidth txs.length h
  | 0 => (calcTreeWidth_zero _).symm
  | h + 1 => by
    rw [merkleLevel, length_merkleLevelUp, length_merkleLevel parent txs h, calcTreeWidth_succ]

theorem blockMerkleRoot_singleton (parent : δ → δ → δ) (a : δ) :
    blockMerkleRoot parent [a] = some a := by
  rw [blockMerkleRoot]

theorem blockMerkleRoot_of_two_le (parent : δ → δ → δ) {l : List δ} (hl : 2 ≤ l.length) :
    blockMerkleRoot parent l = blockMerkleRoot parent (merkleLevelUp parent l) := by
  match l, hl with
  | _ :: _ :: _, _ => rw [blockMerkleRoot]

/-- A level of width one is the root alone. -/
theorem blockMerkleRoot_merkleLevel_of_width (parent : δ → δ → δ) {txs : List δ} {h : Nat}
    (hne : txs ≠ []) (hw : calcTreeWidth txs.length h ≤ 1) :
    blockMerkleRoot parent (merkleLevel parent txs h) = (merkleLevel parent txs h)[0]? := by
  have hpos := calcTreeWidth_pos (List.length_pos.2 hne) h
  have hlen := length_merkleLevel parent txs h
  rcases hl : merkleLevel parent txs h with _ | ⟨a, _ | ⟨b, rest⟩⟩ <;>
    rw [hl] at hlen <;> simp only [List.length_nil, List.length_cons] at hlen
  · omega
  · exact blockMerkleRoot_singleton parent a
  · omega

/-- **The extraction's height is the root's.** `while CalcTreeWidth(height) > 1 { height++ }`,
run from a height whose merkle root is the block's and with fuel enough to reach width one,
stops at the level that is the root alone. -/
theorem blockMerkleRoot_eq_treeHeightLoop (parent : δ → δ → δ) {txs : List δ} (hne : txs ≠ []) :
    ∀ fuel height, calcTreeWidth txs.length (height + fuel) ≤ 1 →
      blockMerkleRoot parent (merkleLevel parent txs height) =
        (merkleLevel parent txs (treeHeightLoop txs.length fuel height))[0]?
  | 0, height, hw => blockMerkleRoot_merkleLevel_of_width parent hne hw
  | fuel + 1, height, hw => by
    rw [treeHeightLoop]
    split_ifs with hgt
    · have h2 : 2 ≤ (merkleLevel parent txs height).length := by
        rw [length_merkleLevel]
        omega
      rw [blockMerkleRoot_of_two_le parent h2]
      exact blockMerkleRoot_eq_treeHeightLoop parent hne fuel (height + 1)
        (by rwa [Nat.add_right_comm, Nat.add_assoc])
    · exact blockMerkleRoot_merkleLevel_of_width parent hne (by omega)

/-- The loop stops at a height of width one, given fuel enough to reach one. -/
theorem calcTreeWidth_treeHeightLoop (n : Nat) : ∀ fuel height,
    calcTreeWidth n (height + fuel) ≤ 1 → calcTreeWidth n (treeHeightLoop n fuel height) ≤ 1
  | 0, _, hw => hw
  | fuel + 1, height, hw => by
    rw [treeHeightLoop]
    split_ifs with hgt
    · exact calcTreeWidth_treeHeightLoop n fuel (height + 1)
        (by rwa [Nat.add_right_comm, Nat.add_assoc])
    · omega

theorem calcTreeWidth_thirtyTwo {n : Nat} (hn : n < 2 ^ 32) : calcTreeWidth n (0 + 32) ≤ 1 := by
  refine Nat.lt_succ_iff.mp (Nat.div_lt_of_lt_mul ?_)
  rw [Nat.zero_add]
  omega

/-! ## The extraction is sound -/

/-- The merkle parent is collision-free: a parent hash determines its two children. -/
structure HeaderHashing.MerkleCollisionFree (C : HeaderHashing δ) : Prop where
  merkleParent_inj : ∀ {l l' r r'}, C.merkleParent l r = C.merkleParent l' r' → l = l' ∧ r = r'

section Extract

variable [DecidableEq δ] {C : HeaderHashing δ} {bits : List Bool} {hashes : List δ}
  {txs : List δ}

/-- **Every match below a node of the block's tree is the block's transaction at its
position.** A traversal from the node at `height` and `pos` that yields the node's true hash
records matches `ms` at positions `is`, and the transaction at each is its match. -/
theorem traverseAndExtract_sound (hC : C.MerkleCollisionFree) :
    ∀ {height pos : Nat} {s s' : ExtractVars δ} {d : δ},
      traverseAndExtract C.merkleParent txs.length bits hashes height pos s = some (s', d) →
      (merkleLevel C.merkleParent txs height)[pos]? = some d →
      ∃ ms is, s'.matched = s.matched ++ ms ∧ s'.index = s.index ++ is ∧
        List.Forall₂ (fun m i => txs[i]? = some m) ms is
  | 0, pos, s, s', d, h, hd => by
    rcases hb : bits[s.bitsUsed]? with _ | b <;> rcases he : hashes[s.hashUsed]? with _ | e <;>
      simp only [traverseAndExtract, hb, he, Option.bind_eq_bind, Option.none_bind,
        Option.some_bind, reduceCtorEq] at h
    cases b <;> simp only [Bool.false_eq_true, if_false, if_true, Option.some.injEq,
      Prod.mk.injEq] at h <;> obtain ⟨rfl, rfl⟩ := h
    · exact ⟨[], [], (List.append_nil _).symm, (List.append_nil _).symm, .nil⟩
    · exact ⟨[_], [pos], rfl, rfl, .cons hd .nil⟩
  | height + 1, pos, s, s', d, h, hd => by
    rcases hb : bits[s.bitsUsed]? with _ | b <;>
      simp only [traverseAndExtract, hb, Option.bind_eq_bind, Option.none_bind,
        Option.some_bind, reduceCtorEq] at h
    cases b
    case false =>
      -- a pruned node: its hash is given, nothing below it is matched
      rcases he : hashes[s.hashUsed]? with _ | e <;>
        simp only [he, Bool.not_false, if_true, Option.none_bind, Option.some_bind,
          Option.some.injEq, Prod.mk.injEq, reduceCtorEq] at h
      obtain ⟨rfl, rfl⟩ := h
      exact ⟨[], [], (List.append_nil _).symm, (List.append_nil _).symm, .nil⟩
    case true =>
      simp only [Bool.not_true, Bool.false_eq_true, if_false] at h
      rw [merkleLevel, getElem?_merkleLevelUp, Option.map_eq_some'] at hd
      obtain ⟨a, ha, hd⟩ := hd
      have hw := length_merkleLevel C.merkleParent txs height
      rcases h₁ : traverseAndExtract C.merkleParent txs.length bits hashes height (2 * pos)
          ⟨s.bitsUsed + 1, s.hashUsed, s.matched, s.index⟩ with _ | ⟨s₁, l⟩ <;>
        simp only [h₁, Option.none_bind, Option.some_bind, reduceCtorEq] at h
      split_ifs at h with hr
      · -- a right child: both children are the true ones
        rcases h₂ : traverseAndExtract C.merkleParent txs.length bits hashes height (2 * pos + 1)
            s₁ with _ | ⟨s₂, r⟩ <;> simp only [h₂, Option.none_bind, Option.some_bind,
              reduceCtorEq] at h
        split_ifs at h
        simp only [Option.some.injEq, Prod.mk.injEq] at h
        obtain ⟨rfl, rfl⟩ := h
        obtain ⟨b, hb'⟩ : ∃ b, (merkleLevel C.merkleParent txs height)[2 * pos + 1]? = some b :=
          ⟨_, List.getElem?_eq_getElem (by omega)⟩
        rw [hb', Option.getD_some] at hd
        obtain ⟨rfl, rfl⟩ := hC.merkleParent_inj hd
        obtain ⟨ms₁, is₁, hm₁, hi₁, hf₁⟩ := traverseAndExtract_sound hC h₁ ha
        obtain ⟨ms₂, is₂, hm₂, hi₂, hf₂⟩ := traverseAndExtract_sound hC h₂ hb'
        exact ⟨ms₁ ++ ms₂, is₁ ++ is₂, by rw [hm₂, hm₁, List.append_assoc],
          by rw [hi₂, hi₁, List.append_assoc], List.rel_append hf₁ hf₂⟩
      · -- no right child: the left one is paired with itself
        simp only [Option.some.injEq, Prod.mk.injEq] at h
        obtain ⟨rfl, rfl⟩ := h
        rw [List.getElem?_eq_none (by omega), Option.getD_none] at hd
        obtain ⟨rfl, -⟩ := hC.merkleParent_inj hd
        obtain ⟨ms, is, hm, hi, hf⟩ := traverseAndExtract_sound hC h₁ ha
        exact ⟨ms, is, hm, hi, hf⟩

/-- **The extraction is sound.** With a collision-free merkle parent, for every list of
transaction hashes of the merkle block's count whose merkle root is the extracted root, each
matched hash is the transaction at the position recorded with it. -/
theorem verifyMerkleBlock_sound (hC : C.MerkleCollisionFree) {mb : MsgMerkleBlock δ} {r : δ}
    {ms : List δ} {is : List Nat} (h : verifyMerkleBlock C.merkleParent mb = some (r, ms, is))
    (hlen : txs.length = mb.transactions.toNat)
    (hroot : blockMerkleRoot C.merkleParent txs = some r) :
    List.Forall₂ (fun m i => txs[i]? = some m) ms is := by
  unfold verifyMerkleBlock at h
  dsimp only at h
  split_ifs at h with h0
  split at h
  · cases h
  rename_i s root hT
  split_ifs at h
  simp only [Option.some.injEq, Prod.mk.injEq] at h
  obtain ⟨rfl, rfl, rfl⟩ := h
  have hne : txs ≠ [] := List.ne_nil_of_length_pos (by omega)
  have hw : calcTreeWidth txs.length (0 + 32) ≤ 1 :=
    calcTreeWidth_thirtyTwo (hlen ▸ mb.transactions.toNat_lt_size)
  rw [← hlen] at hT
  rw [show txs = merkleLevel C.merkleParent txs 0 from rfl,
    blockMerkleRoot_eq_treeHeightLoop C.merkleParent hne 32 0 hw] at hroot
  obtain ⟨ms, is, rfl, rfl, hf⟩ := traverseAndExtract_sound hC hT hroot
  exact hf

end Extract

/-! ## What an accepted header proves -/

theorem bind_eq_ok {α β : Type} {x : Except GoPanic α} {f : α → Except GoPanic β} {b : β}
    (h : x >>= f = .ok b) : ∃ a, x = .ok a ∧ f a = .ok b := by
  cases x with
  | error e => cases h
  | ok a => exact ⟨a, rfl, h⟩

theorem ite_eq_ok_true {c : Prop} [Decidable c] {y : Except GoPanic Bool}
    (h : (if c then pure false else y) = .ok true) : ¬c ∧ y = .ok true := by
  split_ifs at h with hc
  · cases h
  · exact ⟨hc, h⟩

theorem goLast_eq_ok {α : Type} {xs : List α} {a : α} (h : goLast xs = .ok a) :
    xs.getLast? = some a := by
  unfold goLast at h
  split at h <;> cases h
  assumption

theorem goIndex_eq_ok {α : Type} {xs : List α} {i : Nat} {a : α} (h : goIndex xs i = .ok a) :
    xs[i]? = some a := by
  unfold goIndex at h
  split at h <;> cases h
  assumption

/-- Related lists relate their last elements. -/
theorem forall₂_getLast? {α β : Type} {R : α → β → Prop} {l₁ : List α} {l₂ : List β}
    (h : List.Forall₂ R l₁ l₂) {a : α} {b : β} (ha : l₁.getLast? = some a)
    (hb : l₂.getLast? = some b) : R a b := by
  rw [← List.head?_reverse] at ha hb
  have hr := List.forall₂_reverse_iff.2 h
  generalize l₁.reverse = r₁ at hr ha
  generalize l₂.reverse = r₂ at hr hb
  cases hr with
  | nil => cases ha
  | cons hr _ =>
    cases ha
    cases hb
    exact hr

/-- **An accepted header proves the HogEx transaction is the block's last.** If
`verifyMwebHeader` accepts, then with a collision-free merkle parent: the merkle block's header
hashes to `lastHash`, the transaction is a HogEx whose first output pays to `OP_8 0x20` and the
MWEB header's hash, the leafset hashes to the header's leafset root, and in every list of
transaction hashes of the merkle block's count whose merkle root is that header's merkle root,
the HogEx transaction's hash is the last. -/
theorem verifyMwebHeader_sound [DecidableEq δ] (C : HeaderHashing δ)
    (hC : C.MerkleCollisionFree) (m : MsgMwebHeader δ) (l : MsgMwebLeafset) (lastHash : δ)
    (h : verifyMwebHeader C (some m) (some l) lastHash = .ok true) (txs : List δ)
    (hlen : txs.length = m.merkle.transactions.toNat)
    (hroot : blockMerkleRoot C.merkleParent txs = some m.merkle.header.merkleRoot) :
    C.blockHash m.merkle.header = lastHash ∧ m.hogex.isHogEx = true ∧
      txs.getLast? = some (C.txHash m.hogex) ∧
      (m.hogex.txOut.head?.map (·.pkScript)) =
        some ([0x58, 0x20] ++ C.toBytes (C.mwebHeaderHash m.mwebHeader)) ∧
      C.leafsetRoot l.leafset = m.mwebHeader.leafsetRoot := by
  simp only [verifyMwebHeader, ne_eq, pure_bind] at h
  obtain ⟨hblock, h⟩ := ite_eq_ok_true h
  obtain ⟨hx, h⟩ := ite_eq_ok_true h
  obtain ⟨hhogex, h⟩ := ite_eq_ok_true h
  obtain ⟨⟨r, ms, is⟩, hv, hr⟩ := Option.map_eq_some'.1 (not_not.1 hx)
  simp only at hr
  subst hr
  rw [hv] at h
  simp only [Option.map_some', Option.getD_some] at h
  obtain ⟨finalTx, hf, h⟩ := bind_eq_ok h
  obtain ⟨htx, h⟩ := ite_eq_ok_true h
  obtain ⟨finalTxPos, hp, h⟩ := bind_eq_ok h
  obtain ⟨hpos, h⟩ := ite_eq_ok_true h
  obtain ⟨txOut, ho, h⟩ := bind_eq_ok h
  obtain ⟨hscript, h⟩ := ite_eq_ok_true h
  obtain ⟨hleafset, -⟩ := ite_eq_ok_true h
  -- the last match is the transaction at the last position
  have hlast := forall₂_getLast? (verifyMerkleBlock_sound hC hv hlen hroot) (goLast_eq_ok hf)
    (goLast_eq_ok hp)
  have hn : 0 < txs.length := by
    rcases Nat.eq_zero_or_pos txs.length with h0 | h0
    · rw [List.length_eq_zero.1 h0] at hlast
      cases hlast
    · exact h0
  have hone : (1 : UInt32) ≤ m.merkle.transactions := by
    have hpos : 0 < m.merkle.transactions.toNat := hlen ▸ hn
    rw [UInt32.le_def, BitVec.le_def]
    exact hpos
  rw [not_not, UInt32.toNat_sub_of_le _ _ hone] at hpos
  change finalTxPos = m.merkle.transactions.toNat - 1 at hpos
  rw [← hlen] at hpos
  rw [hpos, ← List.getLast?_eq_getElem?, ← not_not.1 htx] at hlast
  refine ⟨not_not.1 hblock, by simpa using hhogex, hlast, ?_, not_not.1 hleafset⟩
  rw [List.head?_eq_getElem?, goIndex_eq_ok ho, Option.map_some', not_not.1 hscript]

/-- Header digests as terms: a merkle parent is a node of the free digests; every other digest
is a fixed id. -/
def freeHeaderHashing : HeaderHashing FreeDigest where
  blockHash _ := .outputId 1
  txHash _ := .outputId 2
  mwebHeaderHash _ := .outputId 3
  leafsetRoot _ := .outputId 4
  merkleParent := .node 0
  toBytes _ := []

theorem freeHeaderHashing_merkleCollisionFree : freeHeaderHashing.MerkleCollisionFree where
  merkleParent_inj h := by cases h; exact ⟨rfl, rfl⟩

/-- A header message for a block of two transactions: the merkle block proves the second,
a HogEx transaction whose output commits to the MWEB header. -/
def hogexSecondOfTwo : MsgMwebHeader FreeDigest :=
  ⟨⟨⟨0, .outputId 0, .node 0 (.outputId 7) (.outputId 2), 0, 0, 0⟩, 2,
    [.outputId 7, .outputId 2], [0x05]⟩, ⟨true, [⟨[0x58, 0x20]⟩]⟩, ⟨.outputId 0, 0, .outputId 4⟩⟩

/-- The verifier accepts `hogexSecondOfTwo`, and the block's last transaction is the HogEx. -/
theorem verifyMwebHeader_sound_hogex_second :
    freeHeaderHashing.MerkleCollisionFree ∧
      verifyMwebHeader freeHeaderHashing (some hogexSecondOfTwo) (some ⟨[]⟩) (.outputId 1) =
        .ok true ∧
      [FreeDigest.outputId 7, .outputId 2].length = hogexSecondOfTwo.merkle.transactions.toNat ∧
      blockMerkleRoot freeHeaderHashing.merkleParent [.outputId 7, .outputId 2] =
        some hogexSecondOfTwo.merkle.header.merkleRoot ∧
      (freeHeaderHashing.blockHash hogexSecondOfTwo.merkle.header = .outputId 1 ∧
        hogexSecondOfTwo.hogex.isHogEx = true ∧
        [FreeDigest.outputId 7, .outputId 2].getLast? =
          some (freeHeaderHashing.txHash hogexSecondOfTwo.hogex) ∧
        hogexSecondOfTwo.hogex.txOut.head?.map (·.pkScript) =
          some ([0x58, 0x20] ++ freeHeaderHashing.toBytes
            (freeHeaderHashing.mwebHeaderHash hogexSecondOfTwo.mwebHeader)) ∧
        freeHeaderHashing.leafsetRoot [] = hogexSecondOfTwo.mwebHeader.leafsetRoot) := by
  refine ⟨freeHeaderHashing_merkleCollisionFree, ?acc, rfl, ?root,
    verifyMwebHeader_sound freeHeaderHashing freeHeaderHashing_merkleCollisionFree
      hogexSecondOfTwo ⟨[]⟩ (.outputId 1) ?acc [.outputId 7, .outputId 2] rfl ?root⟩
  case acc => rfl
  case root =>
    rw [blockMerkleRoot_of_two_le _ (by decide)]
    exact blockMerkleRoot_singleton _ _

end NeutrinoMweb
