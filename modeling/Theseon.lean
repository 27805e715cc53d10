import Theseon.DB.BatchReads
import Theseon.DB.FlushOnly
import Theseon.DB.KeysAfterCrash
import Theseon.Cluster.Agreement
import Theseon.AntiEntropy.Leaves
import Theseon.Cluster.Axes
import Theseon.Cluster.LastWriterWins
import Theseon.Cluster.ReadRepair
import Theseon.Cluster.RingFollows
import Theseon.Cluster.VectorRepair
import Theseon.HLC.Causality
import Theseon.Hashring.Placement
import Theseon.Vector.Restart
import Theseon.DB.Backpressure
import Theseon.DB.RunCompaction
import Theseon.DB.ScanOrder
import Theseon.DB.ScanPrefix
import Theseon.DB.TransactionRange
import Theseon.Hnsw.Exhaustive
import Theseon.Hnsw.Connected
import Theseon.Manifest.Replay
import Theseon.Vector.Exact
import Theseon.AntiEntropy.SharedStore
import Theseon.Server.Namespaces
import Theseon.WAL.Safety
