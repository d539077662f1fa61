import Amaru.Ledger.Governance.Rounds
import Amaru.Ledger.ReadThrough.Committee
import Amaru.Ledger.ReadThrough.Composition
import Amaru.Ledger.State.Rejection
import Amaru.Ledger.State.Dormancy
import Amaru.Ledger.Summary.Payment
import Amaru.Ledger.EpochTransition.PoolLifecycle
import Amaru.Ledger.Store.PoolRows
import Amaru.Consensus.Crash
import Amaru.Consensus.ForkChoice
import Amaru.Consensus.OrderedHandover
import Amaru.Consensus.FetchPermission
import Amaru.Uplc.Discharge
import Amaru.Uplc.ModularPower
import Amaru.Consensus.RequestCredits
import Amaru.Ledger.State.Observers
import Amaru.Consensus.BestChainIndex
import Amaru.Mempool.Forging
import Amaru.Connection.LocalUse
import Amaru.Ledger.Rules.ReferenceScripts
import Amaru.Ledger.Rules.Fees
import Amaru.Consensus.Praos
import Amaru.Consensus.ForkPoints
