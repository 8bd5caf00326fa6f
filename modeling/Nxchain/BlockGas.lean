import Nxchain.Block

namespace Nxchain

inductive GasLimitError where
  | gasUsedExceedsLimit (limit used : Nat)
  | invalidGasLimit (limit want delta : Nat)
deriving DecidableEq

def GasLimitError.message : GasLimitError → String
  | gasUsedExceedsLimit limit used =>
    s!"block gas used exceeds gas limit, limit = {limit}, used={used}"
  | invalidGasLimit limit want delta => s!"invalid gas limit, limit = {limit}, want {want} +- {delta}"

def blockGasTargetDivisor : Nat := 1024

def calculateGasLimit (blockGasTarget parentGasLimit : Nat) : Nat :=
  if blockGasTarget = 0 then parentGasLimit
  else if parentGasLimit = blockGasTarget then blockGasTarget
  else
    let delta := parentGasLimit * 1 % 2 ^ 64 / blockGasTargetDivisor
    if parentGasLimit < blockGasTarget then min blockGasTarget ((parentGasLimit + delta) % 2 ^ 64)
    else max blockGasTarget (max (sub64 parentGasLimit delta) 0)

def verifyGasLimit (header parentHeader : Header) : Except GasLimitError Unit :=
  if header.gasUsed > header.gasLimit then
    .error (.gasUsedExceedsLimit header.gasLimit header.gasUsed)
  else if header.number = 0 then .ok ()
  else
    let diff := asInt64 (asInt64 parentHeader.gasLimit - asInt64 header.gasLimit)
    let diff := if diff < 0 then asInt64 (diff * -1) else diff
    let limit := parentHeader.gasLimit / blockGasTargetDivisor
    -- `uint64(diff)`
    if (diff % 2 ^ 64).toNat > limit then
      .error (.invalidGasLimit header.gasLimit parentHeader.gasLimit (sub64 limit 1))
    else .ok ()

structure GasPriceAverage where
  price : Int
  count : Int
deriving DecidableEq

namespace GasPriceAverage

def new : GasPriceAverage := ⟨0, 0⟩

def calcArithmeticAverage (newValues : List Int) (sum : Int) : GasPriceAverage :=
  let newAverageCount : Int := newValues.length
  ⟨sum / newAverageCount, newAverageCount⟩

def calcRollingAverage (gpAverage : GasPriceAverage) (newValues : List Int) (sum : Int) :
    GasPriceAverage :=
  let oldCount := gpAverage.count
  let oldAverage := gpAverage.price
  let inputSetCount : Int := newValues.length
  let newAverage := oldAverage * (oldCount - inputSetCount) / oldCount
  let newAverage := newAverage + sum / oldCount
  ⟨newAverage, inputSetCount + oldCount⟩

def updateGasPriceAvg (gpAverage : GasPriceAverage) (newValues : List Int) : GasPriceAverage :=
  let sum := newValues.foldl (· + ·) 0
  if gpAverage.count.natAbs % 2 ^ 64 = 0 then calcArithmeticAverage newValues sum
  else gpAverage.calcRollingAverage newValues sum

def updateGasPriceAvgWithBlock (gpAverage : GasPriceAverage) (block : Block) : GasPriceAverage :=
  if block.transactions.length < 1 then gpAverage
  else gpAverage.updateGasPriceAvg (block.transactions.map fun transaction => (transaction.gasPrice : Int))

end GasPriceAverage

end Nxchain
