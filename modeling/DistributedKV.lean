import DistributedKV.Store.Command
import DistributedKV.Store.Codec
import DistributedKV.Store.PersistentMetadata
import DistributedKV.Store.PersistentLog
import DistributedKV.Foundations.ByteCodec
import DistributedKV.Foundations.ShiftRegister
import DistributedKV.Store.Checksum
import DistributedKV.Store.Decode
import DistributedKV.Store.LogFile
import DistributedKV.Foundations.FaultyFile
import DistributedKV.Store.LogFaults
import DistributedKV.Foundations.Replacement
import DistributedKV.Store.MetadataCodec
import DistributedKV.Store.MetadataFaults
import DistributedKV.Store.KvStateMachine
import DistributedKV.Store.Executed
import DistributedKV.Foundations.Linearizability
import DistributedKV.Store.KvObject
import DistributedKV.Foundations.Checked
import DistributedKV.Store.MachineDecode
import DistributedKV.Raft.Vote
import DistributedKV.Raft.Append
import DistributedKV.Raft.Merge
import DistributedKV.Raft.Apply
import DistributedKV.Foundations.OrderedMap
import DistributedKV.Raft.Election
import DistributedKV.Raft.Leader
import DistributedKV.Raft.Node
import DistributedKV.Foundations.Quorum
import DistributedKV.Foundations.Replication.State
import DistributedKV.Foundations.Replication.Growth
import DistributedKV.Foundations.Replication.Invariant
import DistributedKV.Foundations.Replication.Preservation
import DistributedKV.Foundations.Replication.Safety
import DistributedKV.Raft.NodeInvariant
import DistributedKV.Raft.Requests
import DistributedKV.Raft.Repair
import DistributedKV.Raft.NodeCall
import DistributedKV.Raft.NodeRun
import DistributedKV.Raft.NodeReads
import DistributedKV.Raft.NodeBatches
import DistributedKV.Raft.NodeMessages
import DistributedKV.Raft.NodeElection
import DistributedKV.Raft.NodeRounds
import DistributedKV.Raft.NodeEntries
import DistributedKV.Raft.NodeHints
import DistributedKV.Raft.NodeReach
import DistributedKV.Raft.NodeTerms
import DistributedKV.Raft.NodeWrites
import DistributedKV.Raft.NodeCreates
import DistributedKV.Foundations.Settling
import DistributedKV.Raft.NodeRank
import DistributedKV.Raft.NodeTracking
import DistributedKV.Foundations.Run
import DistributedKV.Cluster.World
import DistributedKV.Cluster.Abstract
import DistributedKV.Cluster.Refinement
import DistributedKV.Cluster.Elections
import DistributedKV.Cluster.Leading
import DistributedKV.Cluster.Committing
import DistributedKV.Cluster.Following
import DistributedKV.Cluster.Simulation
import DistributedKV.Cluster.Safety
import DistributedKV.Cluster.Completeness
import DistributedKV.Cluster.Hints
import DistributedKV.Cluster.Sources
import DistributedKV.Cluster.Origins
import DistributedKV.Cluster.Settling
import DistributedKV.Cluster.Tracking
import DistributedKV.Cluster.Rejection
import DistributedKV.Cluster.Reading
import DistributedKV.Wire.RaftWire
import DistributedKV.Wire.ClientWire
import DistributedKV.Wire.MachineWire
import DistributedKV.Foundations.ByteStream
import DistributedKV.Wire.Transport
import DistributedKV.Raft.MachineRaft
import DistributedKV.Raft.MachineNode
import DistributedKV.Raft.MachineRun
import DistributedKV.Cluster.Frames
import DistributedKV.Cluster.Words
import DistributedKV.Cluster.Files
import DistributedKV.Cluster.Recovery
import DistributedKV.Server.Server
import DistributedKV.Server.Echo
import DistributedKV.Server.Corruption
import DistributedKV.Server.Pending
import DistributedKV.Server.Steps
import DistributedKV.Server.Sending
import DistributedKV.Server.Answering
import DistributedKV.Server.Session
import DistributedKV.Server.Service
import DistributedKV.Server.WriteAnswers
import DistributedKV.Server.Agreement
import DistributedKV.Server.Refusals
import DistributedKV.Server.Acknowledgements
import DistributedKV.Server.ReadAnswers
import DistributedKV.Server.Accounts
import DistributedKV.Server.History
import DistributedKV.Server.Linearizability
import DistributedKV.Server.Encoding
import DistributedKV.Server.Delivery
import DistributedKV.Client.Arguments
import DistributedKV.Client.Client
import DistributedKV.Client.Replies
import DistributedKV.Client.Deployment
