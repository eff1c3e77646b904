import OsAssignments.BlockAccounting
import OsAssignments.BuildAgreement
import OsAssignments.ByteRanges
import OsAssignments.CloneNames
import OsAssignments.ConcurrentCache
import OsAssignments.ConcurrentCreates
import OsAssignments.ConcurrentStats
import OsAssignments.ConcurrentWrites
import OsAssignments.Crashes
import OsAssignments.FileSystem
import OsAssignments.FirstFit
import OsAssignments.Fairness
import OsAssignments.FlatMemory
import OsAssignments.FrameRecycling
import OsAssignments.Handles
import OsAssignments.Holes
import OsAssignments.KeyUniqueness
import OsAssignments.KeyValue
import OsAssignments.LastWrite
import OsAssignments.LongKeys
import OsAssignments.OutOfSpace
import OsAssignments.PageFaults
import OsAssignments.Preemption
import OsAssignments.Remount
import OsAssignments.Rewriting
import OsAssignments.RunningContext
import OsAssignments.SegmentLimits
import OsAssignments.Shrinking
import OsAssignments.Shutdown
import OsAssignments.SignalNumbers
import OsAssignments.SizeLimit
import OsAssignments.SpaceCleanup
import OsAssignments.Starvation
import OsAssignments.TableSize
import OsAssignments.TransferErrors
import OsAssignments.WriteCall
import OsAssignments.TesterRuns
