import Aggregator.Verification.ShortestPaths
import Aggregator.Verification.LongestPaths.Permutation
import Aggregator.Verification.LongestPaths.SortedEdges
import Aggregator.Verification.FloydWarshall.SimplePaths
import Aggregator.Verification.FloydWarshall.TwoMatrices
import Aggregator.Verification.Calculator.Closure
import Aggregator.Verification.Calculator.Connected
import Aggregator.Verification.Calculator.Conversions
import Aggregator.Verification.Calculator.Covering
import Aggregator.Verification.Calculator.Identity
import Aggregator.Verification.Calculator.Legs
import Aggregator.Verification.Calculator.Permutation
import Aggregator.Verification.TradeProvider.GetPrice
import Aggregator.Verification.TradeProvider.ParsePrice
import Aggregator.Verification.Pallet.Authorization
import Aggregator.Verification.Pallet.BestPricesEvent
import Aggregator.Verification.Pallet.EventLog
import Aggregator.Verification.Pallet.MonitoredPairs
import Aggregator.Verification.Pallet.Overflow
import Aggregator.Verification.Pallet.Submission
import Aggregator.Verification.Pallet.Utf8
import Aggregator.Verification.Pallet.Validity
import Aggregator.Verification.OffchainWorker.Cadence
import Aggregator.Verification.OffchainWorker.Drift
import Aggregator.Verification.OffchainWorker.Fixpoint
import Aggregator.Verification.OffchainWorker.Lock
import Aggregator.Verification.OffchainWorker.Orders
import Aggregator.Verification.OffchainWorker.Quiescence
import Aggregator.Verification.OffchainWorker.RateLimit
import Aggregator.Verification.OffchainWorker.Tolerance
import Aggregator.Verification.OffchainWorker.ZeroCosts
import Aggregator.Verification.Network
import Aggregator.Verification.Network.Races
import Aggregator.Verification.System.Provenance
import Aggregator.Verification.System.Quiescence
import Aggregator.Verification.System.Serializability
import Aggregator.Verification.Heap
