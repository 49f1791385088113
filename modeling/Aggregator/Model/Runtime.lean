import Aggregator.Model.Network
import Aggregator.Model.TradeProvider
import Mathlib.Data.List.Lex

/-! # The runtime of the node (`runtime/src/lib.rs`)

Keys are numbers, and the signature of a key is the key. The release build wraps
overflowing arithmetic. -/

namespace Aggregator

instance uint8LinearOrder : LinearOrder UInt8 := LinearOrder.lift' UInt8.toNat fun _ _ => UInt8.toNat.inj

abbrev nodeRuntime {α : Type} [AddCommGroup α] [LinearOrder α] (L : Algo.Log2 ℚ α) : Config where
  Currency := List UInt8
  amountBits := 128
  blockNumberBits := 32
  AccountId := ℕ
  Public := ℕ
  Signature := ℕ
  bestPathCalculator := FloydWarshallCalculator.calcBestPaths L
  intoAccount := id
  verify key _ signature := decide (signature = key)
  offchainTriggerDelay := 3
  maxTxPoolStayTime := 3
  unsignedPriority := 1048576
  priceChangeTolerance := 1
  build := ⟨false, true, true⟩

def btc : List UInt8 := [66, 84, 67]

def eth : List UInt8 := [69, 84, 72]

def usdt : List UInt8 := [85, 83, 68, 84]

/-- The pairs of the currencies with USDT. -/
def usdtPairs (sources : List (List UInt8)) :
    BTreeMap (ProviderPair (List UInt8) Provider) Unit :=
  sources.foldl (fun m source => m.insert ⟨⟨source, usdt⟩, .cryptoCompare⟩ ()) ∅

section Mock

variable {α : Type} [AddCommGroup α] [LinearOrder α]

/-- A worker whose provider returns the same price for every pair. -/
def mockEnvironment (L : Algo.Log2 ℚ α) (price : BitVec 128) : Environment (nodeRuntime L) where
  getPrice _ _ _ := some price
  anyAccount := some 7
  submit _ := true
  monitoredPairsOrder := .byKey _ _
  bestPathsOrder := .byKey _ _

/-- The submission of the payload that was sent last. -/
def submitNewest {L : Algo.Log2 ℚ α} (σ : Network (nodeRuntime L)) :
    List (Action (nodeRuntime L)) :=
  σ.inFlight.take 1 |>.map fun r =>
    .dispatch .none (.ocwSubmitBestPathsChanges r.payload r.payload.publicKey)

end Mock

end Aggregator
