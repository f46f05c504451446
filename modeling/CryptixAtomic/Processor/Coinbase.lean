import CryptixAtomic.Processor.Mergeset

/-!
# Coinbase payloads, subsidies and rewards

A coinbase payload carries the blue score and the subsidy of its block and the script of the
miner. The coinbase of a chain block pays every block of its mergeset inside the difficulty
window its subsidy and fees: a blue block through an output of its own, all red blocks through
one output to the merging miner.
-/
namespace CryptixAtomic.Processor

open Foundation

inductive CoinbaseError
  | payloadLenBelowMin (len minLen : ℕ)
  | payloadLenAboveMax (len maxLen : ℕ)
  | payloadScriptPublicKeyLenAboveMax (len maxLen : ℕ)
  | payloadCantContainScriptPublicKey (len minLen : ℕ)
  deriving DecidableEq

/-- The rules that body and UTXO validation check of a coinbase. -/
inductive CoinbaseRuleError
  | badCoinbasePayload (e : CoinbaseError)
  | badCoinbasePayloadBlueScore (given expected : ℕ)
  | wrongSubsidy (expected given : ℕ)
  | badCoinbaseTransaction
  deriving DecidableEq

structure MinerData where
  scriptPublicKey : ScriptPublicKey
  extraData : List UInt8
  deriving DecidableEq

structure CoinbaseData where
  blueScore : ℕ
  subsidy : ℕ
  minerData : MinerData
  deriving DecidableEq

/-- What the coinbase of a merging block owes one merged block. -/
structure BlockRewardData where
  subsidy : ℕ
  totalFees : ℕ
  scriptPublicKey : ScriptPublicKey
  deriving DecidableEq

def BlockRewardData.reward (r : BlockRewardData) : ℕ := r.subsidy + r.totalFees

/-- The parts of a transaction that its hash covers. -/
structure TransactionContent where
  inputs : List TransactionInput
  outputs : List TransactionOutput
  subnetworkId : Bytes 20
  payload : List UInt8
  deriving DecidableEq

def TransactionContent.of (tx : Transaction) : TransactionContent :=
  ⟨tx.inputs, tx.outputs, tx.subnetworkId, tx.payload⟩

structure CoinbaseTransactionTemplate where
  tx : TransactionContent
  hasRedReward : Bool
  deriving DecidableEq

/-- The colours of the mergeset of a block, the selected parent included, and its score. -/
structure MergesetColours where
  mergesetBlues : List Bytes32
  mergesetReds : List Bytes32
  blueScore : ℕ

/-- A blue score, a subsidy, a script version and a script length. -/
def minPayloadLength : ℕ := 8 + 8 + 2 + 1

/-- The subsidy of each month at one block per second. -/
def subsidyByMonthTable : List ℕ := [
  793700525, 749153538, 707106781, 667419927, 629960524, 594603557, 561231024, 529731547,
  500000000, 471937156, 445449359, 420448207, 396850262, 374576769, 353553390, 333709963,
  314980262, 297301778, 280615512, 264865773, 250000000, 235968578, 222724679, 210224103,
  198425131, 187288384, 176776695, 166854981, 157490131, 148650889, 140307756, 132432886,
  125000000, 117984289, 111362339, 105112051, 99212565, 93644192, 88388347, 83427490, 78745065,
  74325444, 70153878, 66216443, 62500000, 58992144, 55681169, 52556025, 49606282, 46822096,
  44194173, 41713745, 39372532, 37162722, 35076939, 33108221, 31250000, 29496072, 27840584,
  26278012, 24803141, 23411048, 22097086, 20856872, 19686266, 18581361, 17538469, 16554110,
  15625000, 14748036, 13920292, 13139006, 12401570, 11705524, 11048543, 10428436, 9843133, 9290680,
  8769234, 8277055, 7812500, 7374018, 6960146, 6569503, 6200785, 5852762, 5524271, 5214218,
  4921566, 4645340, 4384617, 4138527, 3906250, 3687009, 3480073, 3284751, 3100392, 2926381,
  2762135, 2607109, 2460783, 2322670, 2192308, 2069263, 1953125, 1843504, 1740036, 1642375,
  1550196, 1463190, 1381067, 1303554, 1230391, 1161335, 1096154, 1034631, 976562, 921752, 870018,
  821187, 775098, 731595, 690533, 651777, 615195, 580667, 548077, 517315, 488281, 460876, 435009,
  410593, 387549, 365797, 345266, 325888, 307597, 290333, 274038, 258657, 244140, 230438, 217504,
  205296, 193774, 182898, 172633, 162944, 153798, 145166, 137019, 129328, 122070, 115219, 108752,
  102648, 96887, 91449, 86316, 81472, 76899, 72583, 68509, 64664, 61035, 57609, 54376, 51324,
  48443, 45724, 43158, 40736, 38449, 36291, 34254, 32332, 30517, 28804, 27188, 25662, 24221, 22862,
  21579, 20368, 19224, 18145, 17127, 16166, 15258, 14402, 13594, 12831, 12110, 11431, 10789, 10184,
  9612, 9072, 8563, 8083, 7629, 7201, 6797, 6415, 6055, 5715, 5394, 5092, 4806, 4536, 4281, 4041,
  3814, 3600, 3398, 3207, 3027, 2857, 2697, 2546, 2403, 2268, 2140, 2020, 1907, 1800, 1699, 1603,
  1513, 1428, 1348, 1273, 1201, 1134, 1070, 1010, 953, 900, 849, 801, 756, 714, 674, 636, 600, 567,
  535, 505, 476, 450, 424, 400, 378, 357, 337, 318, 300, 283, 267, 252, 238, 225, 212, 200, 189,
  178, 168, 159, 150, 141, 133, 126, 119, 112, 106, 100, 94, 89, 84, 79, 75, 70, 66, 63, 59, 56,
  53, 50, 47, 44, 42, 39, 37, 35, 33, 31, 29, 28, 26, 25, 23, 22, 21, 19, 18, 17, 16, 15, 14, 14,
  13, 12, 11, 11, 10, 9, 9, 8, 8, 7, 7, 7, 6, 6, 5, 5, 5, 4, 4, 4, 4, 3, 3, 3, 3, 3, 2, 2, 2, 2, 2,
  2, 2, 1, 1, 1, 1, 1, 1, 1, 1, 1, 1, 1, 1, 1, 1, 1, 1, 1, 1, 1, 1, 1, 1, 1, 1, 1, 1, 1, 1, 1, 1,
  1, 1, 1, 1, 1, 1, 1, 1, 1, 1, 1, 1, 1, 1, 1, 1, 1, 1, 1, 1, 1, 1, 1, 1, 1, 1, 1, 1, 1, 1, 1, 1,
  1, 1, 1, 1, 1, 1, 1, 1, 1, 1, 1, 1, 1, 1, 1, 1, 1, 1, 1, 1, 0]

structure CoinbaseManager where
  coinbasePayloadScriptPublicKeyMaxLen : ℕ
  maxCoinbasePayloadLen : ℕ
  deflationaryPhaseDaaScore : ℕ
  preDeflationaryPhaseBaseSubsidy : ℕ
  blocksPerMonth : ℕ
  subsidyByMonth : List ℕ

namespace CoinbaseManager

variable (manager : CoinbaseManager)

def calcBlockSubsidy (daaScore : ℕ) : ℕ :=
  if daaScore < manager.deflationaryPhaseDaaScore then manager.preDeflationaryPhaseBaseSubsidy
  else
    let months := (daaScore - manager.deflationaryPhaseDaaScore) / manager.blocksPerMonth
    if months ≥ manager.subsidyByMonth.length then manager.subsidyByMonth.getLastD 0
    else manager.subsidyByMonth.getD months 0

def serializeCoinbasePayload (data : CoinbaseData) : Except CoinbaseError (List UInt8) := do
  let script := data.minerData.scriptPublicKey.script
  failIf (script.length > manager.coinbasePayloadScriptPublicKeyMaxLen)
    (.payloadScriptPublicKeyLenAboveMax script.length manager.coinbasePayloadScriptPublicKeyMaxLen)
  return toLeBytes 8 data.blueScore ++ toLeBytes 8 data.subsidy ++
    toLeBytes 2 data.minerData.scriptPublicKey.version ++ toLeBytes 1 script.length ++ script ++
    data.minerData.extraData

def deserializeCoinbasePayload (payload : List UInt8) : Except CoinbaseError CoinbaseData := do
  failIf (payload.length < minPayloadLength) (.payloadLenBelowMin payload.length minPayloadLength)
  failIf (payload.length > manager.maxCoinbasePayloadLen)
    (.payloadLenAboveMax payload.length manager.maxCoinbasePayloadLen)
  let blueScore := Reader.fromLeBytes (payload.take 8)
  let subsidy := Reader.fromLeBytes ((payload.drop 8).take 8)
  let version := Reader.fromLeBytes ((payload.drop 16).take 2)
  let scriptLen := Reader.fromLeBytes ((payload.drop 18).take 1)
  let remaining := payload.drop minPayloadLength
  failIf (scriptLen > manager.coinbasePayloadScriptPublicKeyMaxLen)
    (.payloadScriptPublicKeyLenAboveMax scriptLen manager.coinbasePayloadScriptPublicKeyMaxLen)
  failIf (remaining.length < scriptLen)
    (.payloadCantContainScriptPublicKey payload.length (minPayloadLength + scriptLen))
  return ⟨blueScore, subsidy, ⟨⟨version, remaining.take scriptLen⟩, remaining.drop scriptLen⟩⟩

/-- Body validation in context, of the first transaction of a block. -/
def checkCoinbaseBlueScoreAndSubsidy (coinbase : Transaction) (blueScore daaScore : ℕ) :
    Except CoinbaseRuleError Unit :=
  match manager.deserializeCoinbasePayload coinbase.payload with
  | .ok data => do
    failIf (data.blueScore ≠ blueScore) (.badCoinbasePayloadBlueScore data.blueScore blueScore)
    let expectedSubsidy := manager.calcBlockSubsidy daaScore
    failIf (data.subsidy ≠ expectedSubsidy) (.wrongSubsidy expectedSubsidy data.subsidy)
  | .error e => .error (.badCoinbasePayload e)

/-- The reward data of the listed blocks inside the difficulty window; none if one of them
has no data, where the source panics. -/
def rewardsOf (mergesetRewards : FMap Bytes32 BlockRewardData) (mergesetNonDaa : Finset Bytes32)
    (hashes : List Bytes32) : Option (List BlockRewardData) :=
  (hashes.filter (· ∉ mergesetNonDaa)).mapM mergesetRewards.lookup

def expectedCoinbaseTransaction (daaScore : ℕ) (minerData : MinerData) (colours : MergesetColours)
    (mergesetRewards : FMap Bytes32 BlockRewardData) (mergesetNonDaa : Finset Bytes32) :
    Option (Except CoinbaseError CoinbaseTransactionTemplate) := do
  let blues ← rewardsOf mergesetRewards mergesetNonDaa colours.mergesetBlues
  let blueOutputs := (blues.filter (·.reward > 0)).map fun r => ⟨r.reward, r.scriptPublicKey⟩
  let reds ← rewardsOf mergesetRewards mergesetNonDaa colours.mergesetReds
  let redReward := (reds.map BlockRewardData.reward).sum
  let redOutputs := if redReward > 0 then [⟨redReward, minerData.scriptPublicKey⟩] else []
  return do
    let payload ← manager.serializeCoinbasePayload
      ⟨colours.blueScore, manager.calcBlockSubsidy daaScore, minerData⟩
    return ⟨⟨[], blueOutputs ++ redOutputs, subnetworkIdCoinbase, payload⟩, redReward > 0⟩

/-- UTXO validation of the coinbase of a chain block; none where the source panics. -/
def verifyCoinbaseTransaction (hash : TransactionContent → Bytes32) (coinbase : Transaction)
    (daaScore : ℕ) (colours : MergesetColours) (mergesetRewards : FMap Bytes32 BlockRewardData)
    (mergesetNonDaa : Finset Bytes32) : Option (Except CoinbaseRuleError Unit) := do
  let data ← (manager.deserializeCoinbasePayload coinbase.payload).toOption
  let expected ← manager.expectedCoinbaseTransaction daaScore data.minerData colours
    mergesetRewards mergesetNonDaa
  let template ← expected.toOption
  return failIf (hash (.of coinbase) ≠ hash template.tx) .badCoinbaseTransaction

def blockReward (block : MergedBlock) (blockFee : ℕ) : Option BlockRewardData :=
  (manager.deserializeCoinbasePayload block.coinbase.payload).toOption.map fun data =>
    ⟨data.subsidy, blockFee, data.minerData.scriptPublicKey⟩

/-- The reward entries of a mergeset, given the fees collected from its blocks; none where
a payload cannot be read, where the source panics. -/
def mergesetRewards : List MergedBlock → List (Bytes32 × ℕ) → FMap Bytes32 BlockRewardData →
    Option (FMap Bytes32 BlockRewardData)
  | block :: blocks, (_, fee) :: fees, rewards => do
    let reward ← manager.blockReward block fee
    mergesetRewards blocks fees (rewards.insert block.ctx.sourceBlockHash reward)
  | _, _, rewards => some rewards

end CoinbaseManager

section Payloads

variable {manager : CoinbaseManager}

theorem deserialize_blueScore {payload : List UInt8} {data : CoinbaseData}
    (h : manager.deserializeCoinbasePayload payload = .ok data) :
    data.blueScore = Reader.fromLeBytes (payload.take 8) := by
  simp only [CoinbaseManager.deserializeCoinbasePayload, except_bind_eq_ok, failIf_eq_ok,
    except_pure_eq_ok] at h
  obtain ⟨-, -, -, -, -, -, -, -, rfl⟩ := h
  rfl

theorem checkCoinbase_eq_ok {coinbase : Transaction} {blueScore daaScore : ℕ} {u : Unit} :
    manager.checkCoinbaseBlueScoreAndSubsidy coinbase blueScore daaScore = .ok u ↔
      ∃ data, manager.deserializeCoinbasePayload coinbase.payload = .ok data ∧
        data.blueScore = blueScore ∧ data.subsidy = manager.calcBlockSubsidy daaScore := by
  unfold CoinbaseManager.checkCoinbaseBlueScoreAndSubsidy
  cases hdata : manager.deserializeCoinbasePayload coinbase.payload with
  | error | ok => simp

end Payloads

end CryptixAtomic.Processor
