import CryptixAtomic.Difficulty.CompactTarget
import CryptixAtomic.Foundation.Checked
import Mathlib.Algebra.Order.Floor.Semifield

/-!
# The difficulty retarget

The new target is the average target of a window without its earliest block, scaled by the
measured over the expected duration, at most the maximal target, and encoded.
-/
namespace CryptixAtomic.Difficulty

open Foundation List Option

structure DifficultyBlock (K : Type) where
  timestamp : BitVec 64
  bits : BitVec 32
  sortableBlock : K

/-- The full manager, which has no sample rate, is the one with rate 1. -/
structure DifficultyManager where
  genesisBits : BitVec 32
  maxDifficultyTarget : Uint256
  difficultyWindowSize : ℕ
  minDifficultyWindowLen : ℕ
  difficultySampleRate : ℕ
  targetTimePerBlock : ℕ
  window_len : 10 ≤ minDifficultyWindowLen ∧ minDifficultyWindowLen ≤ difficultyWindowSize
  duration_pos : 0 < targetTimePerBlock * difficultySampleRate
  duration_fits : targetTimePerBlock * difficultySampleRate * difficultyWindowSize < 2 ^ 64

namespace DifficultyManager

variable {K : Type} (m : DifficultyManager)

def target (b : DifficultyBlock K) : ℕ := (fromCompactTargetBits b.bits).toNat

variable (blocks : List (DifficultyBlock K))

def expectedDuration : ℕ :=
  m.targetTimePerBlock * m.difficultySampleRate * blocks.length

/-- The average target of `blocks`, scaled by the time span over the expected one. -/
def retarget (span : ℕ) : Option (BitVec 32) := do
  let targetsSum ← blocks.foldlM (fun sum b => checkedAdd 320 sum (target b)) 0
  let averageTarget ← checkedDiv targetsSum blocks.length
  let scaled ← checkedMul 320 averageTarget (max span 1)
  let expected ← tryNarrow 64 (m.expectedDuration blocks)
  let newTarget ← checkedDiv scaled expected
  let newTarget ← tryNarrow 256 (min newTarget m.maxDifficultyTarget.toNat)
  some (compactTargetBits (BitVec.ofNat 256 newTarget))

/-- Blocks are compared by their timestamps first. -/
def key (b : DifficultyBlock K) : ℕ ×ₗ K := toLex (b.timestamp.toNat, b.sortableBlock)

def calculateDifficultyBits [LinearOrder K] (blocks : List (DifficultyBlock K)) :
    Option (BitVec 32) :=
  if blocks.length < m.minDifficultyWindowLen then some m.genesisBits
  else do
    let (first, minTsIndex) ← blocks.zipIdx.argmin (key ∘ Prod.fst)
    let last ← blocks.argmax key
    let span ← checkedSub last.timestamp.toNat first.timestamp.toNat
    -- the last block takes the place of the removed one, which the sum does not see
    m.retarget (blocks.eraseIdx minTsIndex) span

/-- The bounds of a new target, from the exact average of the blocks. -/
def Within (span : ℕ) (bits : BitVec 32) : Prop :=
  let A : ℚ := (blocks.map target).sum / blocks.length
  let D : ℚ := (max span 1 : ℕ)
  let E : ℚ := m.expectedDuration blocks
  let t : ℚ := (fromCompactTargetBits bits).toNat
  t ≤ min (m.maxDifficultyTarget.toNat : ℚ) (A * D / E) ∧
    (1 - 2⁻¹ ^ 15) * min (m.maxDifficultyTarget.toNat : ℚ) ((A - 1) * D / E - 1) ≤ t

theorem foldlM_checkedAdd (start : ℕ) (h : start + blocks.length * (2 ^ 256 - 1) < 2 ^ 320) :
    blocks.foldlM (fun sum b => checkedAdd 320 sum (target b)) start =
      some (start + (blocks.map target).sum) := by
  induction blocks generalizing start with
  | nil => simp
  | cons b blocks ih =>
    have hb : target b < 2 ^ 256 := (fromCompactTargetBits b.bits).isLt
    rw [length_cons, Nat.succ_mul] at h
    rw [foldlM_cons, checkedAdd, if_pos (by omega)]
    simp only [bind_eq_bind, bind_some, map_cons, sum_cons]
    rw [ih _ (by omega), add_assoc]

theorem average_lt : (blocks.map target).sum / blocks.length < 2 ^ 256 := by
  have hsum := sum_le_card_nsmul (blocks.map target) (2 ^ 256 - 1) (forall_mem_map.mpr fun b _ =>
    Nat.le_pred_of_lt (fromCompactTargetBits b.bits).isLt)
  rw [length_map, smul_eq_mul] at hsum
  exact Nat.lt_succ_of_le (Nat.div_le_of_le_mul hsum)

theorem scaled_bounds (S n D E : ℕ) : ((S / n * D / E : ℕ) : ℚ) ≤ S / n * D / E ∧
    ((S : ℚ) / n - 1) * D / E - 1 ≤ (S / n * D / E : ℕ) := by
  have hA := Nat.floor_le (show (0 : ℚ) ≤ S / n by positivity)
  have hA' := (Nat.sub_one_lt_floor ((S : ℚ) / n)).le
  have hQ := Nat.floor_le (show (0 : ℚ) ≤ (S / n * D : ℕ) / E by positivity)
  have hQ' := (Nat.sub_one_lt_floor (((S / n * D : ℕ) : ℚ) / E)).le
  rw [Nat.floor_div_eq_div] at hA hA' hQ hQ'
  rw [Nat.cast_mul] at hQ hQ'
  constructor
  · exact hQ.trans (by gcongr)
  · exact le_trans (by gcongr) hQ'

theorem truncated_bounds (limit : ℕ) {q : ℕ} {upper lower : ℚ} (hupper : q ≤ upper)
    (hlower : lower ≤ q) : truncated (min q limit) ≤ min (limit : ℚ) upper ∧
      (1 - 2⁻¹ ^ 15) * min (limit : ℚ) lower ≤ truncated (min q limit) := by
  have hle := truncated_le (min q limit)
  have hge : 2 ^ 15 * min q limit ≤ (2 ^ 15 + 1) * truncated (min q limit) := by
    rcases le_total 3 (exponent (min q limit)) with h | h
    · exact (lt_truncated h).le
    · rw [truncated_eq h]
      omega
  qify at hle hge
  have hmin : min (limit : ℚ) lower ≤ min (q : ℚ) limit :=
    le_min ((min_le_right _ _).trans hlower) (min_le_left _ _)
  constructor
  · exact le_min (hle.trans (min_le_right _ _)) ((hle.trans (min_le_left _ _)).trans hupper)
  · linarith

theorem retarget_within (span : ℕ) (hpos : 0 < blocks.length)
    (hlen : blocks.length ≤ m.difficultyWindowSize) (hspan : span < 2 ^ 64) :
    ∃ bits, m.retarget blocks span = some bits ∧ m.Within blocks span bits := by
  have hfits : blocks.length < 2 ^ 64 :=
    (hlen.trans (Nat.le_mul_of_pos_left _ m.duration_pos)).trans_lt m.duration_fits
  have hS := foldlM_checkedAdd blocks 0 (by omega)
  have hE : m.expectedDuration blocks < 2 ^ 64 :=
    (Nat.mul_le_mul_left _ hlen).trans_lt m.duration_fits
  have hE' : m.expectedDuration blocks ≠ 0 := (Nat.mul_pos m.duration_pos hpos).ne'
  have hscaled : (blocks.map target).sum / blocks.length * max span 1 < 2 ^ 320 := by
    rw [show 320 = 256 + 64 by rfl, pow_add]
    exact Nat.mul_lt_mul'' (average_lt blocks) (by omega)
  obtain ⟨hupper, hlower⟩ :=
    scaled_bounds (blocks.map target).sum blocks.length (max span 1) (m.expectedDuration blocks)
  generalize hq : (blocks.map target).sum / blocks.length * max span 1 /
    m.expectedDuration blocks = q at hupper hlower
  have hlimit := (min_le_right q _).trans_lt m.maxDifficultyTarget.isLt
  refine ⟨compactTargetBits (BitVec.ofNat 256 (min q m.maxDifficultyTarget.toNat)), ?_, ?_⟩
  · simp only [retarget, hS, checkedDiv, checkedMul, tryNarrow, hpos.ne', hscaled, hE, hE', hq,
      hlimit, zero_add, if_true, if_false, bind_eq_bind, bind_some]
  · rw [Within, fromCompactTargetBits_compactTargetBits, BitVec.toNat_ofNat,
      Nat.mod_eq_of_lt hlimit]
    exact truncated_bounds m.maxDifficultyTarget.toNat hupper hlower

theorem difficulty_bits_within [LinearOrder K] (m : DifficultyManager)
    (blocks : List (DifficultyBlock K)) (hmin : m.minDifficultyWindowLen ≤ blocks.length)
    (hmax : blocks.length ≤ m.difficultyWindowSize) :
    ∃ first last rest bits, (first :: rest).Perm blocks ∧ last ∈ blocks ∧
      (∀ b ∈ blocks, key first ≤ key b ∧ b.timestamp ≤ last.timestamp) ∧
      m.calculateDifficultyBits blocks = some bits ∧
      m.Within rest (last.timestamp.toNat - first.timestamp.toNat) bits := by
  have hten := m.window_len.1
  have hne : blocks ≠ [] := ne_nil_of_length_pos (by omega)
  obtain ⟨⟨first, i⟩, hfirst⟩ := ne_none_iff_exists'.mp
    (mt (argmin_eq_none (f := key ∘ Prod.fst)).mp (mt zipIdx_eq_nil_iff.mp hne))
  obtain ⟨last, hlast⟩ := ne_none_iff_exists'.mp (mt (argmax_eq_none (f := key)).mp hne)
  have hi : blocks[i]? = some first := mem_zipIdx_iff_getElem?.mp (argmin_mem hfirst)
  obtain ⟨hlt, hget⟩ := List.getElem?_eq_some_iff.mp hi
  have hperm := hget ▸ getElem_cons_eraseIdx_perm hlt
  have hn : (blocks.eraseIdx i).length + 1 = blocks.length := hperm.length_eq
  have hlatest : ∀ b ∈ blocks, b.timestamp ≤ last.timestamp := by
    intro b hb
    exact (Prod.Lex.le_iff.mp (le_of_mem_argmax hb hlast)).elim le_of_lt fun h => h.1.le
  have hspan : first.timestamp.toNat ≤ last.timestamp.toNat := hlatest first (mem_of_getElem? hi)
  obtain ⟨bits, hbits, hwithin⟩ := m.retarget_within (blocks.eraseIdx i)
    (last.timestamp.toNat - first.timestamp.toNat) (by omega) (by omega) (by omega)
  refine ⟨first, last, _, bits, hperm, argmax_mem hlast, fun b hb => ⟨?_, hlatest b hb⟩, ?_,
    hwithin⟩
  · obtain ⟨j, hj⟩ := mem_iff_getElem?.mp hb
    exact le_of_mem_argmin (f := key ∘ Prod.fst) (mem_zipIdx_iff_getElem?.mpr hj : (b, j) ∈ _)
      hfirst
  · simp [calculateDifficultyBits, hmin.not_gt, hfirst, hlast, checkedSub, hspan, hbits]

inductive Network
  | mainnet
  | testnet
  | simnet
  | devnet

def Network.genesisBits : Network → BitVec 32
  | mainnet => 486962709
  | testnet => 0x1e7fffff
  | simnet => 0x207fffff
  | devnet => 0x1e21bc1c

def Network.bps : Network → ℕ
  | simnet => 10
  | _ => 1

/-- The two managers of a network, over the full and over the sampled window. -/
def ofNetwork (network : Network) (sampled : Bool) : DifficultyManager where
  genesisBits := network.genesisBits
  maxDifficultyTarget := BitVec.ofNat 256 (2 ^ 255 - 1)
  difficultyWindowSize := if sampled then (2641 + 4 - 1) / 4 else 2641
  minDifficultyWindowLen := 10
  difficultySampleRate := if sampled then network.bps * 4 else 1
  targetTimePerBlock := 1000 / network.bps
  window_len := by cases sampled <;> decide
  duration_pos := by cases network <;> cases sampled <;> decide
  duration_fits := by cases network <;> cases sampled <;> decide

/-- Ten blocks of the genesis difficulty, sampled every four seconds. -/
def mainnetWindow : List (DifficultyBlock ℕ) :=
  (range 10).map fun i => ⟨BitVec.ofNat 64 (4000 * i), Network.mainnet.genesisBits, i⟩

theorem mainnetWindow_retarget : ∃ first last rest bits, (first :: rest).Perm mainnetWindow ∧
    last ∈ mainnetWindow ∧
    (ofNetwork .mainnet true).calculateDifficultyBits mainnetWindow = some bits ∧
    (ofNetwork .mainnet true).Within rest (last.timestamp.toNat - first.timestamp.toNat) bits := by
  obtain ⟨first, last, rest, bits, hperm, hlast, -, hbits, hwithin⟩ :=
    difficulty_bits_within (ofNetwork .mainnet true) mainnetWindow (by decide) (by decide)
  exact ⟨first, last, rest, bits, hperm, hlast, hbits, hwithin⟩

end DifficultyManager
end CryptixAtomic.Difficulty
