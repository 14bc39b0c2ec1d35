import Nezha.Core.GoMap
import Nezha.Core.Loop
import Nezha.Core.Bytes
import Nezha.Core.Digraph
import Nezha.Models.RWSet
import Nezha.Models.ConflictQueue.Graph
import Nezha.Models.ClassicalGraph.AlGraph
import Nezha.Models.ClassicalGraph.BasicSort
import Nezha.Models.ClassicalGraph.AdvancedSort
import Nezha.Models.ClassicalGraph.ConflictGraph
import Nezha.Models.ConflictQueue.QueuesSort
import Nezha.Models.ConflictQueue.SortInQueue
import Nezha.Models.ConflictQueue.SortFrame
import Nezha.Models.ConflictQueue.Aborts
import Nezha.Models.ConflictQueue.DeSS
import Nezha.Models.ConflictQueue.Unbounded
import Nezha.Models.ConflictQueue.Batch
import Nezha.Models.ConflictQueue.GraphShape
import Nezha.Models.ConflictQueue.RankDivision
import Nezha.Models.ConflictQueue.CommitOrder
import Nezha.Models.ConflictQueue.AbortCause
import Nezha.Models.ConflictQueue.Numbering
import Nezha.Models.ConflictQueue.SequenceRange
import Nezha.Models.ConflictQueue.Completeness
import Nezha.Models.Graph.JohnsonCE
import Nezha.Models.ConflictQueue.LocalOrder
import Nezha.Models.ConflictQueue.Int32
import Nezha.Models.ConflictQueue.Wrap
import Nezha.Models.Eth.Rlp
import Nezha.Models.Eth.EthTransaction
import Nezha.Models.ClassicalGraph.Cycles
import Nezha.Models.Eth.Replay
import Nezha.Models.Transaction
import Nezha.Models.Eth.Analysis
import Nezha.Models.Eth.Interpreter
import Nezha.Models.Eth.Boundaries
import Nezha.Core.Reach
import Nezha.Models.Graph.TarjanCorrect
import Nezha.Models.Graph.Tarjan
import Nezha.Models.Graph.ConnectionsCorrect
import Nezha.Core.Cycle
import Nezha.Models.Graph.JohnsonUnblock
import Nezha.Models.Graph.JohnsonBlocking
import Nezha.Models.Graph.JohnsonSearch
import Nezha.Models.Graph.JohnsonBreak
import Nezha.Models.Graph.JohnsonCorrect
import Nezha.Core.BigEndian
import Nezha.Models.Eth.RlpRaw
import Nezha.Core.UndoLog
import Nezha.Models.Eth.StateObject
import Nezha.Core.MerkleTree
import Nezha.Models.Merkle.Tree
import Nezha.Models.Merkle.Proof
