import Mathlib.Data.Nat.Bits

/-!
# MMR index arithmetic — the code's functions

The Merkle Mountain Range of the MWEB output set is addressed two ways: a *leaf index*
counts leaves in insertion order, a *node index* is the post-order position of a node among
all nodes of the range. `mweb.go` converts between them with closed-form bit arithmetic
(`leafIdx.nodeIdx`), and with three loops over the descending peak sizes `2^k - 1`
(`nodeIdx.height`, `nodeIdx.leafIdx`, `calcPeaks`).

This file transcribes those functions. Both index types are Go `uint64`; they are `Nat`
here, and the places where Go arithmetic can wrap are reduced modulo `2^64` explicitly. The
three loops share their control flow, so they are one definition, `peakSizesLoop`, applied
to what each loop does when a peak size fits.
-/

namespace NeutrinoMweb

/-! ## Go words -/

/-- Go `uint64` arithmetic: results are reduced modulo `2^64`. -/
def wrap64 (x : Nat) : Nat := x % 2 ^ 64

/-- Go `x << s` on `uint64`: a shift by 64 or more gives `0`. -/
def shl64 (x s : Nat) : Nat := if s < 64 then wrap64 (x * 2 ^ s) else 0

/-- Number of set bits of `x` below bit `k`, counted from the top bit down. -/
def onesCount : Nat → Nat → Nat
  | 0, _ => 0
  | k + 1, x => onesCount k x + if x.testBit k then 1 else 0

/-- `bits.OnesCount64`. -/
def onesCount64 (x : Nat) : Nat := onesCount 64 x

/-- Position above the highest set bit of `x` below bit `k` (`0` when there is none). -/
def bitLen : Nat → Nat → Nat
  | 0, _ => 0
  | k + 1, x => if x.testBit k then k + 1 else bitLen k x

/-- `bits.LeadingZeros64`. -/
def leadingZeros64 (x : Nat) : Nat := 64 - bitLen 64 x

/-! ## The methods of `leafIdx` and `nodeIdx`

They live in the namespaces `LeafIdx` and `NodeIdx`; both types are `Nat`. -/

/-- `leafIdx.nodeIdx`: `nodeIdx(2*i) - nodeIdx(bits.OnesCount64(i))`. Since
`popcount(i) ≤ 2*i`, the two wrapping operations are one reduction modulo `2^64`. -/
def LeafIdx.nodeIdx (i : Nat) : Nat := wrap64 (2 * i - onesCount64 i)

/-- The loop `for peakSize := uint64(1<<h - 1); peakSize > 0; peakSize >>= 1` shared by
`height`, `leafIdx` and `calcPeaks`. Halving `2^k - 1` gives `2^(k-1) - 1`, so the loop
visits `2^h - 1, …, 3, 1`; whenever the remainder reaches the size, the size is subtracted
from it and `take` updates the accumulator. -/
def peakSizesLoop {α : Type} (take : Nat → α → α) : Nat → Nat × α → Nat × α
  | 0, s => s
  | k + 1, (rem, acc) =>
      let peakSize := 2 ^ (k + 1) - 1
      peakSizesLoop take k
        (if peakSize ≤ rem then (rem - peakSize, take peakSize acc) else (rem, acc))

/-- `nodeIdx.height`: what is left of the index after the loop subtracts the peak sizes. -/
def NodeIdx.height (i : Nat) : Nat :=
  (peakSizesLoop (fun _ u => u) (64 - leadingZeros64 i) (i, ())).1

/-- `nodeIdx.leafIdx`: each subtracted peak size `2^k - 1` adds the `2^(k-1)` leaves of that
perfect tree. The sum `peakSize + 1` is a `uint64` and wraps for the size `2^64 - 1`. -/
def NodeIdx.leafIdx (i : Nat) : Nat :=
  (peakSizesLoop (fun peakSize leafIndex => leafIndex + wrap64 (peakSize + 1) / 2)
    (64 - leadingZeros64 i) (i, 0)).2

/-- `nodeIdx.left`: `i - (1 << height)`. -/
def NodeIdx.left (i : Nat) (height : Nat) : Nat := wrap64 (i + 2 ^ 64 - shl64 1 height)

/-- `nodeIdx.right`: `i - 1`. -/
def NodeIdx.right (i : Nat) : Nat := wrap64 (i + 2 ^ 64 - 1)

/-- `calcPeaks`: the last node of every peak whose size fits in the remaining node count,
from the highest peak down. -/
def calcPeaks (nodes : Nat) : List Nat :=
  (peakSizesLoop
    (fun peakSize (acc : List Nat × Nat) =>
      (acc.1 ++ [acc.2 + peakSize - 1], acc.2 + peakSize))
    (64 - leadingZeros64 nodes) (nodes, ([], 0))).2.1

/-! ## Equations -/

@[simp] theorem peakSizesLoop_zero {α : Type} (take : Nat → α → α) (s : Nat × α) :
    peakSizesLoop take 0 s = s := rfl

theorem peakSizesLoop_succ {α : Type} (take : Nat → α → α) (k rem : Nat) (acc : α) :
    peakSizesLoop take (k + 1) (rem, acc) =
      peakSizesLoop take k (if 2 ^ (k + 1) - 1 ≤ rem
        then (rem - (2 ^ (k + 1) - 1), take (2 ^ (k + 1) - 1) acc) else (rem, acc)) := rfl

theorem peakSizesLoop_take {α : Type} (take : Nat → α → α) (k rem : Nat) (acc : α)
    (h : 2 ^ (k + 1) - 1 ≤ rem) :
    peakSizesLoop take (k + 1) (rem, acc) =
      peakSizesLoop take k (rem - (2 ^ (k + 1) - 1), take (2 ^ (k + 1) - 1) acc) := by
  rw [peakSizesLoop_succ, if_pos h]

theorem peakSizesLoop_skip {α : Type} (take : Nat → α → α) (k rem : Nat) (acc : α)
    (h : rem < 2 ^ (k + 1) - 1) :
    peakSizesLoop take (k + 1) (rem, acc) = peakSizesLoop take k (rem, acc) := by
  rw [peakSizesLoop_succ, if_neg (Nat.not_le.mpr h)]

/-! ## Bits -/

theorem mod_two_pow_succ (x k : Nat) :
    x % 2 ^ (k + 1) = x % 2 ^ k + if x.testBit k then 2 ^ k else 0 := by
  rw [Nat.mod_pow_succ, Nat.testBit_to_div_mod]
  rcases Nat.mod_two_eq_zero_or_one (x / 2 ^ k) with h | h <;> simp [h]

theorem onesCount_le_mod (k x : Nat) : onesCount k x ≤ x % 2 ^ k := by
  induction k with
  | zero => simp [onesCount]
  | succ k ih =>
    rw [onesCount, mod_two_pow_succ]
    have : 1 ≤ 2 ^ k := Nat.one_le_two_pow
    split <;> omega

theorem onesCount64_le (x : Nat) : onesCount64 x ≤ x :=
  Nat.le_trans (onesCount_le_mod 64 x) (Nat.mod_le _ _)

theorem onesCount_zero_eq (k : Nat) : onesCount k 0 = 0 := by
  induction k with
  | zero => rfl
  | succ k ih => simp [onesCount, ih]

theorem onesCount_congr {k x y : Nat} (h : ∀ i < k, x.testBit i = y.testBit i) :
    onesCount k x = onesCount k y := by
  induction k with
  | zero => rfl
  | succ k ih =>
    rw [onesCount, onesCount, ih (fun i hi => h i (by omega)), h k (by omega)]

theorem testBit_add_of_mod_eq_zero {a j g : Nat} (ha : a % 2 ^ g = 0) (hj : j < 2 ^ g)
    (i : Nat) : (a + j).testBit i = (a.testBit i || j.testBit i) := by
  obtain ⟨b, rfl⟩ := Nat.dvd_of_mod_eq_zero ha
  have h0 : 2 ^ g * b = 2 ^ g * b + 0 := rfl
  rw [Nat.testBit_mul_pow_two_add _ hj, h0, Nat.testBit_mul_pow_two_add _ (Nat.two_pow_pos g)]
  by_cases hi : i < g
  · simp [hi]
  · simp [hi, Nat.testBit_lt_two_pow
      (lt_of_lt_of_le hj (Nat.pow_le_pow_right (by decide) (Nat.not_lt.mp hi)))]

theorem testBit_of_mod_eq_zero {a g i : Nat} (ha : a % 2 ^ g = 0) (hi : i < g) :
    a.testBit i = false := by
  have := Nat.testBit_mod_two_pow a g i
  rw [ha, Nat.zero_testBit] at this
  rw [this]; simp [hi]

theorem onesCount_add_of_mod_eq_zero {a j g : Nat} (ha : a % 2 ^ g = 0) (hj : j < 2 ^ g)
    (k : Nat) : onesCount k (a + j) = onesCount k a + onesCount k j := by
  induction k with
  | zero => rfl
  | succ k ih =>
    simp only [onesCount, ih, testBit_add_of_mod_eq_zero ha hj]
    by_cases hk : k < g
    · simp [testBit_of_mod_eq_zero ha hk]; omega
    · have : j.testBit k = false :=
        Nat.testBit_lt_two_pow (lt_of_lt_of_le hj (Nat.pow_le_pow_right (by decide) (by omega)))
      simp [this]; omega

theorem onesCount_two_pow {g k : Nat} (hg : g < k) : onesCount k (2 ^ g) = 1 := by
  induction k with
  | zero => omega
  | succ k ih =>
    rw [onesCount, Nat.testBit_two_pow]
    by_cases h : g = k
    · subst h
      rw [onesCount_congr (y := 0) (fun i hi => by
        rw [Nat.testBit_two_pow, Nat.zero_testBit]; simp; omega)]
      simp [onesCount_zero_eq]
    · rw [ih (by omega)]; simp [h]

theorem mod_lt_two_pow_bitLen (k x : Nat) : x % 2 ^ k < 2 ^ bitLen k x := by
  induction k with
  | zero => simp [bitLen, Nat.mod_one]
  | succ k ih =>
    rw [bitLen]
    split
    · exact Nat.mod_lt _ (Nat.two_pow_pos _)
    · rw [mod_two_pow_succ, if_neg ‹_›]; simpa using ih

theorem bitLen_le (k x : Nat) : bitLen k x ≤ k := by
  induction k with
  | zero => simp [bitLen]
  | succ k ih => rw [bitLen]; split <;> omega

theorem lt_two_pow_loopBound {x : Nat} (hx : x < 2 ^ 64) :
    64 - leadingZeros64 x ≤ 64 ∧ x < 2 ^ (64 - leadingZeros64 x) := by
  have hb := bitLen_le 64 x
  have hl : 64 - leadingZeros64 x = bitLen 64 x := by unfold leadingZeros64; omega
  rw [hl]
  have h := mod_lt_two_pow_bitLen 64 x
  rw [Nat.mod_eq_of_lt hx] at h
  exact ⟨hb, h⟩

end NeutrinoMweb
