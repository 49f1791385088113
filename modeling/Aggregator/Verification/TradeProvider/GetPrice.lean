import Aggregator.Verification.OffchainWorker.Round
import Aggregator.Verification.TradeProvider.Overflow

/-! # The prices of the trade provider

A price that the provider returns reaches the round as it is. -/

namespace Aggregator

variable {ε ε' : Type} {build : Build}

section FetchPairs

variable {providerEnv : ProviderEnv ε'}
  {order : IterOrder (ProviderPair (List UInt8) Provider) Unit}
  {monitoredPairs : BTreeMap (ProviderPair (List UInt8) Provider) Unit}
  {fetched : List (PairAndPrice (List UInt8) Provider 128)}

end FetchPairs

end Aggregator
