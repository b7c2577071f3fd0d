import MyJQL.BTreeHandlers
import MyJQL.BTreeRejections
import MyJQL.BTreeSearchCost
import MyJQL.BinarySearch
import MyJQL.BlockRefinement
import MyJQL.BufferPoolCompetition
import MyJQL.BufferPoolFailures
import MyJQL.BufferPoolRecency
import MyJQL.ConnectionEnd
import MyJQL.DatabaseOwnership
import MyJQL.FetchTraces
import MyJQL.HashMapBackLinks
import MyJQL.HashMapFileSize
import MyJQL.IndexFileSize
import MyJQL.LengthChecks
import MyJQL.Linearization
import MyJQL.PoolOwners
import MyJQL.RequestDecoding
import MyJQL.SearchTreeHeights
import MyJQL.ServerLifetimes
import MyJQL.ServerResources
import MyJQL.ServerRoundTrip
import MyJQL.ShellService
import MyJQL.Shutdown
import MyJQL.ShutdownProgress
import MyJQL.StringPieces
import MyJQL.TableFileSize
