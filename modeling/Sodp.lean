import Sodp.OrderedMap
import Sodp.JsonValue
import Sodp.Delta
import Sodp.ScriptNumber
import Sodp.ScriptValue
import Sodp.DeltaApply
import Sodp.DeltaEffect
import Sodp.DeltaSoundness
import Sodp.SegmentedLog
import Sodp.StateStore
import Sodp.StoreRecovery
import Sodp.StoreVersions
import Sodp.DeltaHistory
import Sodp.Replay
import Sodp.ApplyInterleaving
import Sodp.JsonEdit
import Sodp.EditInterleaving
import Sodp.Fanout
import Sodp.Server
import Sodp.ConnectionTasks
import Sodp.DeliveryOrder
import Sodp.Replica
import Sodp.PendingDeltas
import Sodp.WatchWindow
import Sodp.Linked
import Sodp.Network
import Sodp.HandlerSteps
import Sodp.Convergence
import Sodp.CompactionInterleaving
import Sodp.RecordFile
import Sodp.SegmentFiles
import Sodp.CompactionCrash
import Sodp.HandlerEffects
import Sodp.SequentialStore
import Sodp.SessionRuns
import Sodp.Authorization
import Sodp.Schema
import Sodp.WatchTable
import Sodp.FanoutHistory
import Sodp.StageCount
import Sodp.WritePool
import Sodp.ClusterSync
import Sodp.PresenceCleanup
import Sodp.ResumeReplay
import Sodp.SyncRace
import Sodp.ConnectionSteps
import Sodp.DeltaRouting
import Sodp.CallCorrelation
import Sodp.AccessRules
import Sodp.ScriptAccessRules
import Sodp.GoEdit
import Sodp.ScriptPointer
import Sodp.PatchAgreement
import Sodp.SetInAgreement
import Sodp.ClientWalk
import Sodp.ApplierAgreement
import Sodp.DiffAgreement
import Sodp.ReplicaAgreement
import Sodp.GoValue
import Sodp.GoDelta
import Sodp.GoWire
import Sodp.GoStore
import Sodp.GoStoreVersions
import Sodp.GoFanout
import Sodp.GoHandlers
import Sodp.GoServerSteps
import Sodp.GoAuthorization
import Sodp.GoStreams
import Sodp.GoDeliveryOrder
import Sodp.GoResume
import Sodp.ByteReader
import Sodp.GoWal
import Sodp.GoApply
import Sodp.GoCluster
import Sodp.GoReplica
import Sodp.GoReconnect
import Sodp.GoRecovery
import Sodp.GoReplayOrder
import Sodp.GoCompaction
import Sodp.GoWritePool
import Sodp.GoKeyLimit
import Sodp.ScriptConvergence
import Sodp.ScriptDiff
import Sodp.ScriptStore
import Sodp.ScriptStoreVersions
import Sodp.ScriptSession
import Sodp.ScriptTeardown
import Sodp.DiffShape
import Sodp.LogAppend
import Sodp.FileHistory
import Sodp.ScriptCopies
import Sodp.JavaRouting
import Sodp.PythonSender
import Sodp.ScriptCalls
import Sodp.WatchedKeys
import Sodp.ScriptAuthorization
import Sodp.CallAnswers
import Sodp.RateLimiter
