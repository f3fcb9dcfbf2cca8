import NeutrinoMweb.Correspondence

/-!
# Subtrees and peaks of the layout

Every `uint64` position holds a node of the post-order layout, and the index arithmetic of
`mweb.go` reads the tree there (`nodeAt_layout`): `nodeIdx.height` is the node's height,
`left` and `right` are its children, and the slice of the layout from the node's first
position to the node itself is its subtree, the left child's subtree first, then the right
child's, then the node. The calls `calcNodeHash` makes from a node (`Reaches`) stay inside
that slice.

`calcPeaks(nodeIdx(N))` cuts the layout of `N` leaves into the subtrees of its peaks
(`calcPeaks_partition`): one per set bit of `N`, from the highest bit down, each slice
starting right after the one before.
-/

namespace NeutrinoMweb

open MmrNode

/-! ## Children -/

theorem MmrNode.InMmr.leftChild {a h N : Nat} (hn : (⟨a, h + 1⟩ : MmrNode).InMmr N) :
    (⟨a, h⟩ : MmrNode).InMmr N := by
  obtain ⟨ha, hN⟩ := hn
  simp only [MmrNode.Aligned] at ha hN
  have := Nat.pow_le_pow_right (n := 2) (by decide) (Nat.le_succ h)
  exact ⟨mod_two_pow_of_mod_succ ha, by show a + 2 ^ h ≤ N; omega⟩

theorem MmrNode.InMmr.rightChild {a h N : Nat} (hn : (⟨a, h + 1⟩ : MmrNode).InMmr N) :
    (⟨a + 2 ^ h, h⟩ : MmrNode).InMmr N := by
  obtain ⟨ha, hN⟩ := hn
  simp only [MmrNode.Aligned] at ha hN
  have : 2 ^ (h + 1) = 2 ^ h + 2 ^ h := by rw [Nat.pow_succ]; omega
  exact ⟨add_two_pow_mod ha, by show a + 2 ^ h + 2 ^ h ≤ N; omega⟩

theorem pos_left_add (a h : Nat) :
    MmrNode.pos ⟨a, h⟩ + 2 ^ (h + 1) = MmrNode.pos ⟨a, h + 1⟩ := by
  have h1 := Nat.one_le_two_pow (n := h + 1)
  rw [pos_mk, pos_mk, Nat.pow_succ 2 (h + 1)]
  omega

theorem pos_left_lt (a h : Nat) : MmrNode.pos ⟨a, h⟩ < MmrNode.pos ⟨a, h + 1⟩ := by
  have := pos_left_add a h
  have := Nat.one_le_two_pow (n := h + 1)
  omega

theorem mmrSize_le_pos (a h : Nat) : mmrSize a ≤ MmrNode.pos ⟨a, h⟩ := by
  have := Nat.one_le_two_pow (n := h)
  rw [pos_mk, Nat.pow_succ]
  omega

theorem child_intervals {a h : Nat} (hn : (⟨a, h + 1⟩ : MmrNode).InMmr (2 ^ 64)) :
    MmrNode.pos ⟨a, h⟩ + 1 = mmrSize (a + 2 ^ h) ∧
      MmrNode.pos ⟨a + 2 ^ h, h⟩ + 1 = MmrNode.pos ⟨a, h + 1⟩ :=
  ⟨(mmrSize_add_two_pow hn.1 hn.2).symm, pos_right_succ hn.1 hn.2⟩

/-! ## The nodes of a perfect tree -/

/-- **The nodes of the perfect tree over the leaves from `a`** are the aligned blocks inside
its `2^H` leaves. -/
theorem mem_perfectTree {a H : Nat} {m : MmrNode} (hH : H ≤ 64) :
    m ∈ perfectTree a H ↔
      ∃ j, m.leaf = a + j ∧ j % 2 ^ m.height = 0 ∧ j + 2 ^ m.height ≤ 2 ^ H := by
  constructor
  · intro hm
    induction H generalizing a with
    | zero =>
      rw [perfectTree, List.mem_singleton] at hm
      subst hm
      exact ⟨0, rfl, Nat.zero_mod _, le_rfl⟩
    | succ H ih =>
      have hp : 2 ^ (H + 1) = 2 ^ H + 2 ^ H := by rw [Nat.pow_succ]; omega
      simp only [perfectTree, List.mem_append, List.mem_singleton] at hm
      rcases hm with (hm | hm) | rfl
      · obtain ⟨j, h1, h2, h3⟩ := ih (by omega) hm
        exact ⟨j, h1, h2, by omega⟩
      · obtain ⟨j, h1, h2, h3⟩ := ih (by omega) hm
        have hg : m.height ≤ H := (Nat.pow_le_pow_iff_right Nat.one_lt_two).1 (by omega)
        refine ⟨2 ^ H + j, by omega, ?_, by omega⟩
        exact Nat.mod_eq_zero_of_dvd (Nat.dvd_add (Nat.pow_dvd_pow 2 hg)
          (Nat.dvd_of_mod_eq_zero h2))
      · exact ⟨0, by simp, Nat.zero_mod _, by simp⟩
  · rintro ⟨j, hj, hal, hin⟩
    obtain ⟨b, g⟩ := m
    simp only at hj hal hin
    subst hj
    exact List.mem_iff_getElem?.2 ⟨_, getElem?_perfectTree a hH hal hin⟩

theorem children_mem_perfectTree {a H b h : Nat} (hH : H ≤ 64)
    (hm : (⟨b, h + 1⟩ : MmrNode) ∈ perfectTree a H) :
    (⟨b, h⟩ : MmrNode) ∈ perfectTree a H ∧ (⟨b + 2 ^ h, h⟩ : MmrNode) ∈ perfectTree a H := by
  obtain ⟨j, rfl, hal, hin⟩ := (mem_perfectTree hH).1 hm
  simp only at hal hin
  have hp : 2 ^ (h + 1) = 2 ^ h + 2 ^ h := by rw [Nat.pow_succ]; omega
  exact ⟨(mem_perfectTree hH).2 ⟨j, rfl, mod_two_pow_of_mod_succ hal, by simp only; omega⟩,
    (mem_perfectTree hH).2 ⟨j + 2 ^ h, by simp only; omega, add_two_pow_mod hal,
      by simp only; omega⟩⟩

theorem pos_add {a j g H : Nat} (ha : a % 2 ^ H = 0) (hj : j + 2 ^ g ≤ 2 ^ H)
    (h64 : a + 2 ^ H ≤ 2 ^ 64) :
    (⟨a + j, g⟩ : MmrNode).pos = mmrSize a + (⟨j, g⟩ : MmrNode).pos := by
  have := Nat.one_le_two_pow (n := g)
  have h2 : 2 ≤ 2 ^ (g + 1) := by rw [Nat.pow_succ]; omega
  rw [pos_mk, pos_mk, mmrSize_add ha (by omega) (by omega)]
  omega

section Node

variable {N : Nat} {n : MmrNode}

theorem height_lt_of_inMmr (hN : N < 2 ^ 64) (hn : n.InMmr N) : n.height < 64 := by
  by_contra hH
  have := Nat.pow_le_pow_right (n := 2) (by decide) (Nat.not_lt.1 hH)
  have := hn.2
  omega

/-- A node of a node's subtree is a node of the MMR, between the subtree's first position
and the node. -/
theorem inMmr_of_mem_perfectTree (hN : N < 2 ^ 64) (hn : n.InMmr N) {m : MmrNode}
    (hm : m ∈ perfectTree n.leaf n.height) :
    m.InMmr N ∧ n.start ≤ m.pos ∧ m.pos ≤ n.pos := by
  have hH := height_lt_of_inMmr hN hn
  rcases n with ⟨a, H⟩
  rcases m with ⟨b, g⟩
  simp only [MmrNode.InMmr, MmrNode.Aligned, start, pos_mk] at hn hm hH ⊢
  obtain ⟨hal, hin⟩ := hn
  obtain ⟨j, rfl, hj, hjH⟩ := (mem_perfectTree (by omega)).1 hm
  simp only at hj hjH
  have hgH : g ≤ H := (Nat.pow_le_pow_iff_right Nat.one_lt_two).1 (by omega)
  have hp := pos_add hal hjH (by omega)
  have hlt := (List.getElem?_eq_some_iff.1 (getElem?_perfectTree 0 (by omega) hj hjH)).1
  rw [length_perfectTree] at hlt
  simp only [pos_mk] at hp
  refine ⟨⟨Nat.mod_eq_zero_of_dvd (Nat.dvd_add (Nat.dvd_trans (Nat.pow_dvd_pow 2 hgH)
    (Nat.dvd_of_mod_eq_zero hal)) (Nat.dvd_of_mod_eq_zero hj)), by omega⟩, by omega, by omega⟩

/-- **A node's subtree is a slice of the layout**: the `2^(h+1) - 1` positions from the
node's first one hold the post-order of the perfect tree under it. -/
theorem subtree_mmrLayout (hN : N < 2 ^ 64) (hn : n.InMmr N) :
    ((mmrLayout N).drop n.start).take (2 ^ (n.height + 1) - 1) =
      perfectTree n.leaf n.height := by
  have hH := height_lt_of_inMmr hN hn
  apply List.ext_getElem?
  intro q
  rw [List.getElem?_take, List.getElem?_drop]
  split_ifs with hq
  · obtain ⟨⟨j, g⟩, hj, hjH, rfl⟩ := exists_pos_eq (by omega : n.height ≤ 64) hq
    have hm := getElem?_perfectTree n.leaf (by omega) hj hjH
    have hp := pos_add hn.1 hjH (by have := hn.2; omega)
    rw [← pos_mk] at hm
    rw [hm, start, ← hp]
    exact getElem?_mmrLayout hN (inMmr_of_mem_perfectTree hN hn
      (List.mem_iff_getElem?.2 ⟨_, hm⟩)).1
  · exact (List.getElem?_eq_none (by rw [length_perfectTree]; omega)).symm

end Node

/-! ## The node at a position -/

theorem exists_node_pos {p : Nat} (hp : p < 2 ^ 64) :
    ∃ n : MmrNode, n.Aligned ∧ n.leaf + 2 ^ n.height ≤ 2 ^ 64 ∧ n.pos = p := by
  rcases Nat.lt_or_ge p (2 ^ 64 - 1) with hlt | hge
  · obtain ⟨n, hal, hin, hpos⟩ := exists_pos_eq (m := 63) (by decide) hlt
    exact ⟨n, hal, le_trans hin (by decide), hpos⟩
  · refine ⟨⟨2 ^ 63, 0⟩, Nat.mod_one _, by decide, ?_⟩
    rw [pos_mk, mmrSize_two_pow (by decide)]
    omega

/-- The calls `calcNodeHash(nodeIdx, height)` that a call at `p` with `p.height()` leads to:
from a call at height `h + 1`, the calls at `nodeIdx.left(h + 1)` and at `nodeIdx.right()`,
both at height `h`. -/
inductive Reaches (p : Nat) : Nat → Nat → Prop where
  | self : Reaches p p (NodeIdx.height p)
  | left {q h : Nat} : Reaches p q (h + 1) → Reaches p (NodeIdx.left q (h + 1)) h
  | right {q h : Nat} : Reaches p q (h + 1) → Reaches p (NodeIdx.right q) h

/-- What the index arithmetic reads at position `p` of the layout of `N` leaves, where the
node `n` sits: `nodeIdx.height` is its height; the slice from its first position to `p` is
its subtree; an inner node's children are at `left` and `right`, one height lower, the left
child's slice starting with the node's and the right child's right after it; and every call
`calcNodeHash` makes from `p` is at a node of the subtree, at that node's height. -/
structure NodeAt (N p : Nat) (n : MmrNode) : Prop where
  node : (mmrLayout N)[p]? = some n
  height : NodeIdx.height p = n.height
  subtree : ((mmrLayout N).drop n.start).take (p + 1 - n.start) = perfectTree n.leaf n.height
  left : ∀ h, n.height = h + 1 →
    NodeIdx.left p (h + 1) = p - 2 ^ (h + 1) ∧
      (mmrLayout N)[p - 2 ^ (h + 1)]? = some ⟨n.leaf, h⟩ ∧
      NodeIdx.height (p - 2 ^ (h + 1)) = h ∧ MmrNode.start ⟨n.leaf, h⟩ = n.start
  right : ∀ h, n.height = h + 1 →
    NodeIdx.right p = p - 1 ∧ (mmrLayout N)[p - 1]? = some ⟨n.leaf + 2 ^ h, h⟩ ∧
      NodeIdx.height (p - 1) = h ∧ MmrNode.start ⟨n.leaf + 2 ^ h, h⟩ = p - 2 ^ (h + 1) + 1
  descent : ∀ q h, Reaches p q h →
    ∃ m ∈ perfectTree n.leaf n.height, m.pos = q ∧ m.height = h

section NodeAt

variable {N : Nat} {n : MmrNode}

/-- The calls from a node of the MMR are at the nodes of its subtree. -/
theorem reaches_mem_perfectTree (hN : N < 2 ^ 64) (hn : n.InMmr N) (hp : n.pos < 2 ^ 64)
    {q h : Nat} (hr : Reaches n.pos q h) :
    ∃ m ∈ perfectTree n.leaf n.height, m.pos = q ∧ m.height = h := by
  have hH : n.height ≤ 64 := Nat.le_of_lt (two_pow_lt_of_pos_lt hp)
  have hnode : ∀ {m : MmrNode}, m ∈ perfectTree n.leaf n.height → m.InMmr N ∧ m.pos < 2 ^ 64 :=
    fun hm => have := inMmr_of_mem_perfectTree hN hn hm; ⟨this.1, by omega⟩
  induction hr with
  | self =>
    refine ⟨n, (mem_perfectTree hH).2 ⟨0, by simp, Nat.zero_mod _, by simp⟩, rfl, ?_⟩
    exact (height_pos hn.1 (by have := hn.2; omega) hp).symm
  | left _ ih =>
    obtain ⟨⟨b, g⟩, hm, rfl, rfl⟩ := ih
    exact ⟨_, (children_mem_perfectTree hH hm).1, (left_pos (hnode hm).2).symm, rfl⟩
  | right _ ih =>
    obtain ⟨⟨b, g⟩, hm, rfl, rfl⟩ := ih
    obtain ⟨⟨hal, hin⟩, hp'⟩ := hnode hm
    exact ⟨_, (children_mem_perfectTree hH hm).2,
      (right_pos hal (by simp only at hin ⊢; omega) hp').symm, rfl⟩

/-- The facts of `NodeAt` at the position of a node of the MMR. -/
theorem nodeAt_pos (hN : N < 2 ^ 64) (hn : n.InMmr N) (hp : n.pos < 2 ^ 64) :
    NodeAt N n.pos n := by
  have h64 : n.leaf + 2 ^ n.height ≤ 2 ^ 64 := by have := hn.2; omega
  have hsub : n.pos + 1 - n.start = 2 ^ (n.height + 1) - 1 := by
    have := Nat.one_le_two_pow (n := n.height + 1)
    rw [pos, start]; omega
  refine ⟨getElem?_mmrLayout hN hn, height_pos hn.1 h64 hp, hsub ▸ subtree_mmrLayout hN hn,
    fun h hh => ?_, fun h hh => ?_, fun q h hr => reaches_mem_perfectTree hN hn hp hr⟩ <;>
  obtain ⟨a, H⟩ := n <;> simp only at hh h64 <;> subst hh <;>
  have hP := pos_left_add a h <;> have h1 := Nat.one_le_two_pow (n := h)
  · -- the left child, `2^(h+1)` positions back
    have hl := MmrNode.InMmr.leftChild hn
    have hq : (⟨a, h + 1⟩ : MmrNode).pos - 2 ^ (h + 1) = (⟨a, h⟩ : MmrNode).pos := by omega
    rw [hq]
    exact ⟨left_pos hp, getElem?_mmrLayout hN hl, height_pos hl.1 (by simp only; omega)
      (by omega), rfl⟩
  · -- the right child, one position back
    have hr := MmrNode.InMmr.rightChild hn
    have hR := pos_right_succ (a := a) (h := h) hn.1 h64
    have hq : (⟨a, h + 1⟩ : MmrNode).pos - 1 = (⟨a + 2 ^ h, h⟩ : MmrNode).pos := by omega
    rw [hq]
    refine ⟨right_pos hn.1 h64 hp, getElem?_mmrLayout hN hr,
      height_pos hr.1 (by simp only; omega) (by omega), ?_⟩
    rw [start, mmrSize_add_two_pow (a := a) (h := h) hn.1 h64]
    omega

end NodeAt

/-- **The index arithmetic reads the layout.** Every position `p` of the layout of `N`
leaves holds a node of the MMR; `nodeIdx.height(p)` is its height, `left` and `right` are
its children one height lower, its subtree is the slice of the layout ending at `p` (the
left child's subtree, then the right child's, then `p`), and the calls `calcNodeHash` makes
from `p` never leave that subtree. -/
theorem nodeAt_layout {N p : Nat} (hN : N < 2 ^ 64) (hp : p < mmrSize N) (hp64 : p < 2 ^ 64) :
    ∃ n : MmrNode, n.InMmr N ∧ n.pos = p ∧ NodeAt N p n := by
  obtain ⟨n, hal, h64, rfl⟩ := exists_node_pos hp64
  have hn : n.InMmr N := ⟨hal, (pos_lt_mmrSize_iff hal hN h64).1 hp⟩
  exact ⟨n, hn, rfl, nodeAt_pos hN hn hp64⟩

/-- Positions 0 to 2 of the layout of three leaves hold the peak `⟨0, 1⟩` and its two
leaves. -/
theorem nodeAt_layout_three : (3 : Nat) < 2 ^ 64 ∧ 2 < mmrSize 3 ∧ 2 < 2 ^ 64 ∧
    ∃ n : MmrNode, n.InMmr 3 ∧ n.pos = 2 ∧ NodeAt 3 2 n :=
  ⟨by decide, by decide, by decide, nodeAt_layout (by decide) (by decide) (by decide)⟩

/-! ## Peaks -/

theorem length_peaksFrom (k N a : Nat) : (peaksFrom k N a).length = onesCount k N := by
  induction k generalizing a with
  | zero => rfl
  | succ k ih => by_cases hb : N.testBit k <;> simp [peaksFrom, onesCount, hb, ih]

theorem heights_peaksFrom (k N a : Nat) :
    (peaksFrom k N a).map MmrNode.height = (List.range k).reverse.filter N.testBit := by
  induction k generalizing a with
  | zero => rfl
  | succ k ih =>
    rw [List.range_succ, List.reverse_append]
    by_cases hb : N.testBit k <;> simp [peaksFrom, hb, ih]

theorem leaves_perfectTree (a h : Nat) :
    (perfectTree a h).filter (fun m => m.height == 0) =
      (List.range' a (2 ^ h)).map fun i => ⟨i, 0⟩ := by
  induction h generalizing a with
  | zero => rfl
  | succ h ih =>
    rw [perfectTree, List.filter_append, List.filter_append, ih, ih, Nat.pow_succ, Nat.mul_two,
      ← List.range'_append_1, List.map_append]
    simp

/-- Each peak's subtree starts right after the one before: the first at the forest's first
position, the one after the last at the end of the forest. -/
theorem starts_peaksFrom {k N a : Nat} (ha : a % 2 ^ k = 0) (h64 : a + 2 ^ k ≤ 2 ^ 64) :
    (peaksFrom k N a).map MmrNode.start ++ [mmrSize (a + N % 2 ^ k)] =
      mmrSize a :: (peaksFrom k N a).map fun r => r.pos + 1 := by
  induction k generalizing a with
  | zero => simp [peaksFrom, Nat.mod_one]
  | succ k ih =>
    have hm := mod_two_pow_succ N k
    have hp : 2 ^ (k + 1) = 2 ^ k + 2 ^ k := by rw [Nat.pow_succ]; omega
    by_cases hb : N.testBit k
    · simp only [hb, if_true] at hm
      have e : a + N % 2 ^ (k + 1) = a + 2 ^ k + N % 2 ^ k := by omega
      simp only [peaksFrom, hb, if_true, List.map_cons, List.cons_append, e,
        ih (add_two_pow_mod ha) (by omega), mmrSize_add_two_pow ha h64, start]
    · simp only [hb, if_false, Bool.false_eq_true, Nat.add_zero] at hm
      simp only [peaksFrom, hb, if_false, Bool.false_eq_true, hm]
      exact ih (mod_two_pow_of_mod_succ ha) (by omega)

/-- How `calcPeaks` cuts the layout of `N` leaves into the subtrees of `roots`: one position
per set bit of `N`, ascending; `roots` are the nodes at those positions, their heights the set
bits of `N` from the highest down; each root ends the slice of the layout that is its
subtree, a perfect tree over `2^height` leaves; and the slices follow each other from
position 0 to `nodeIdx(N)` with no gap. -/
structure PeakPartition (N : Nat) (peaks : List Nat) (roots : List MmrNode) : Prop where
  length_eq : peaks.length = onesCount64 N
  ascending : peaks.Pairwise (· < ·)
  pos_eq : peaks = roots.map MmrNode.pos
  heights : roots.map MmrNode.height = (List.range 64).reverse.filter N.testBit
  subtree : ∀ r ∈ roots, (mmrLayout N)[r.pos]? = some r ∧
    ((mmrLayout N).drop r.start).take (r.pos + 1 - r.start) = perfectTree r.leaf r.height ∧
    (perfectTree r.leaf r.height).filter (fun m => m.height == 0) =
      (List.range' r.leaf (2 ^ r.height)).map fun i => ⟨i, 0⟩
  gapless : roots.map MmrNode.start ++ [LeafIdx.nodeIdx N] = 0 :: peaks.map (· + 1)

/-- **`calcPeaks(nodeIdx(N))` partitions the layout into the peaks' subtrees.** -/
theorem calcPeaks_partition {N : Nat} (hN : N < 2 ^ 63) :
    PeakPartition N (calcPeaks (LeafIdx.nodeIdx N)) (mmrPeaks N) := by
  have hN64 : N < 2 ^ 64 := lt_trans hN (by decide)
  have hsz := mmrSize_lt_of_le (N := N) (by omega)
  have hpk : calcPeaks (LeafIdx.nodeIdx N) = (mmrPeaks N).map MmrNode.pos := by
    rw [nodeIdx_eq_of_le (by omega), calcPeaks_mmrSize hsz hN64]
  refine ⟨?_, ?_, hpk, heights_peaksFrom 64 N 0, fun r hr => ?_, ?_⟩
  · rw [hpk, List.length_map, mmrPeaks, length_peaksFrom]; rfl
  · rw [hpk, List.pairwise_map]
    refine (pairwise_mmrPeaks N).imp_of_mem fun {P Q} hP hQ hPQ => ?_
    have hP' := (mem_mmrPeaks hN64 hP).1
    calc P.pos < mmrSize (P.leaf + 2 ^ P.height) :=
          pos_lt_mmrSize (by have := hP'.2; omega) ⟨hP'.1, le_rfl⟩
      _ ≤ mmrSize Q.leaf := mmrSize_mono hPQ (lt_of_le_of_lt
          (le_trans (Nat.le_add_right _ _) (mem_mmrPeaks hN64 hQ).1.2) hN64)
      _ ≤ Q.pos := mmrSize_le_pos Q.leaf Q.height
  · have hr' := (mem_mmrPeaks hN64 hr).1
    have hA := nodeAt_pos hN64 hr' (lt_trans (pos_lt_mmrSize hN64 hr') hsz)
    exact ⟨hA.node, hA.subtree, leaves_perfectTree r.leaf r.height⟩
  · have := starts_peaksFrom (N := N) (Nat.zero_mod (2 ^ 64)) (by simp)
    rw [Nat.zero_add, Nat.mod_eq_of_lt hN64] at this
    rw [hpk, nodeIdx_eq_of_le (by omega), List.map_map, mmrPeaks, this]
    rfl

/-- The MMR of five leaves has the peaks `⟨0, 2⟩` and `⟨4, 0⟩`, at positions 6 and 7. -/
theorem calcPeaks_partition_five :
    (5 : Nat) < 2 ^ 63 ∧ PeakPartition 5 (calcPeaks (LeafIdx.nodeIdx 5)) (mmrPeaks 5) :=
  ⟨by decide, calcPeaks_partition (by decide)⟩

end NeutrinoMweb
