import SlpGraphSearch.Sha2
import SlpGraphSearch.TransactionCodec
import SlpGraphSearch.SlpRules
import SlpGraphSearch.TransactionEncoder
import SlpGraphSearch.Conservation
import SlpGraphSearch.TokenGenesis
import SlpGraphSearch.UtxoIndex
import SlpGraphSearch.Searchable
import SlpGraphSearch.ConfirmedVerdicts
import SlpGraphSearch.Balances
import SlpGraphSearch.ClientValidation
import SlpGraphSearch.Library.Run
import SlpGraphSearch.Block
import SlpGraphSearch.MempoolDetours
import SlpGraphSearch.Rollback
import SlpGraphSearch.SpentOutputs
import SlpGraphSearch.BlockSync
import SlpGraphSearch.CacheReplay
import SlpGraphSearch.EngineAgreement
import SlpGraphSearch.GraphSearch
import SlpGraphSearch.Library.Line
import SlpGraphSearch.MintChain
import SlpGraphSearch.SyncPaths
import SlpGraphSearch.WireFormat
import SlpGraphSearch.CacheLoops
import SlpGraphSearch.Restarts
import SlpGraphSearch.MempoolReplies
import SlpGraphSearch.OutputOracle
import SlpGraphSearch.RpcRetries
import SlpGraphSearch.StartUp
import SlpGraphSearch.QueryAgreement
import SlpGraphSearch.DoubleSpends
import SlpGraphSearch.Redelivery
import SlpGraphSearch.TokenQueries
import SlpGraphSearch.TokenOrder
import SlpGraphSearch.BlockOrder
import SlpGraphSearch.TokenOutputs
import SlpGraphSearch.MintVerdicts
import SlpGraphSearch.GroupIds
import SlpGraphSearch.StoredOutputs
import SlpGraphSearch.LiveBatons
import SlpGraphSearch.MempoolLeaks
import SlpGraphSearch.ClientAddresses
import SlpGraphSearch.LimitedQueries
import SlpGraphSearch.TxidStrings
import SlpGraphSearch.BalanceSums
import SlpGraphSearch.Publisher
import SlpGraphSearch.VerdictHistory
import SlpGraphSearch.Listener
import SlpGraphSearch.ListenerFailures
import SlpGraphSearch.Sha2Context
import SlpGraphSearch.GraphAnswers
import SlpGraphSearch.CashaddrStrings
import SlpGraphSearch.TokenScript
import SlpGraphSearch.BlockFormat
import SlpGraphSearch.OracleStatements
import SlpGraphSearch.RpcClient
