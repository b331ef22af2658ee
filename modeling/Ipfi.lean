import Ipfi.Lib.FinMap
import Ipfi.Lib.Supply
import Ipfi.Lib.Outcome
import Ipfi.Lib.LittleEndian
import Ipfi.Lib.Reach
import Ipfi.Lib.Cut
import Ipfi.Lib.Input
import Ipfi.Basic
import Ipfi.RoiQueue
import Ipfi.Integer
import Ipfi.WireUtils
import Ipfi.Interface
import Ipfi.InterfaceFrames
import Ipfi.MessageStore
import Ipfi.Waiting
import Ipfi.Wire
import Ipfi.Framing
import Ipfi.Frames
import Ipfi.CallBranch
import Ipfi.Executions
import Ipfi.ResponseBranch
import Ipfi.ChunkStream
import Ipfi.ModuleStyle
import Ipfi.Serving
import Ipfi.Slots
import Ipfi.Custody
import Ipfi.Confinement
import Ipfi.Calls
import Ipfi.World
import Ipfi.Actions
import Ipfi.WorldCustody
import Ipfi.WireIds
import Ipfi.Isolation
import Ipfi.EachWire
import Ipfi.Gathering
import Ipfi.Truncation
import Ipfi.Leftovers
import Ipfi.Accounts
import Ipfi.FreeSlots
import Ipfi.Format
import Ipfi.Boundaries
import Ipfi.Lib.Transit
import Ipfi.Link
import Ipfi.Views
import Ipfi.Lib.Threads
import Ipfi.QueueSteps
import Ipfi.BufferLookups
import Ipfi.CallSteps
import Ipfi.CallIndices
import Ipfi.CallTermination
import Ipfi.Answers
import Ipfi.CallResponse
import Ipfi.CallCounter
import Ipfi.CompleteLock
import Ipfi.MessageSteps
import Ipfi.MessageMethods
import Ipfi.CreationLocks
import Ipfi.MessageLookups
import Ipfi.Lib.Triple
import Ipfi.Soundness
import Ipfi.Completed
import Ipfi.Allocation
import Ipfi.Bytewise
import Ipfi.StreamedMessage
import Ipfi.LateResponses
import Ipfi.CallErrors
import Ipfi.ArgumentBuffers
import Ipfi.Flushing
import Ipfi.Capacity
import Ipfi.ProcedureArgs
import Ipfi.ArgumentPieces
import Ipfi.ArgumentCalls
import Ipfi.Handles
import Ipfi.Replies
import Ipfi.Relays
import Ipfi.Asking
import Ipfi.Exchanges
import Ipfi.Cleanup
import Ipfi.Receivers
import Ipfi.Watching
import Ipfi.Deliveries
import Ipfi.Poisoning
import Ipfi.Grammar
import Ipfi.Flushers
import Ipfi.Footprint
import Ipfi.Rounds
import Ipfi.Attending
import Ipfi.Services
import Ipfi.RemoteCalls
import Ipfi.Autonomous
import Ipfi.Handling
import Ipfi.Conveying
import Ipfi.Shutdown
import Ipfi.QueuePeak
import Ipfi.Admission
import Ipfi.Polling
import Ipfi.EndReceived
