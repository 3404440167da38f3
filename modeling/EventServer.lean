import EventServer.Lib.Wp
import EventServer.Lib.Heap
import EventServer.Lib.Runs
import EventServer.Lib.Locks
import EventServer.Lib.Linearizability
import EventServer.Lib.Objects
import EventServer.Lib.Progress
import EventServer.Lib.Races
import EventServer.Lib.Allotment
import EventServer.Lib.LittleEndian
import EventServer.Lib.Ring
import EventServer.Lib.Lines
import EventServer.Common.Io
import EventServer.Common.Transfers
import EventServer.Common.Output
import EventServer.Common.Scan
import EventServer.Common.Numerals
import EventServer.Common.Paths
import EventServer.Common.Strings
import EventServer.Server.EventList
import EventServer.Server.Operations
import EventServer.Server.Representation
import EventServer.Server.Seats
import EventServer.Server.Replies
import EventServer.Server.Threads
import EventServer.Server.Reservation
import EventServer.Server.Creation
import EventServer.Server.Ledger
import EventServer.Server.Linearizable
import EventServer.Server.Numbers
import EventServer.Server.Store
import EventServer.Server.Renaming
import EventServer.Server.Commute
import EventServer.Server.Dump
import EventServer.Server.Bounds
import EventServer.Server.Locking
import EventServer.Server.Races
import EventServer.Server.LifeCycle
import EventServer.Server.Delay
import EventServer.Server.Session
import EventServer.Server.Received
import EventServer.Server.Truncation
import EventServer.Server.Coordinates
import EventServer.Server.Requests
import EventServer.Client.Api
import EventServer.Client.Display
import EventServer.Client.Calls
import EventServer.Client.Lockstep
import EventServer.Client.Setup
import EventServer.Client.Responses
import EventServer.Client.ResponsePipe
import EventServer.Client.Renderings
import EventServer.Client.Outputs
import EventServer.Client.Leftovers
import EventServer.Client.Success
import EventServer.Client.Readback
import EventServer.Server.Signals
import EventServer.Server.Starts
import EventServer.Server.Queue
import EventServer.Server.Handover
import EventServer.Server.Reception
import EventServer.Server.Main
import EventServer.Server.Pool
import EventServer.Server.Descriptors
import EventServer.Server.Wakeups
import EventServer.Client.Parser
import EventServer.Client.Commands
import EventServer.Client.Lines
import EventServer.Client.FinalNewline
import EventServer.Client.Grammar
import EventServer.Client.Maximum
import EventServer.Client.Termination
import EventServer.Client.Scripts
import EventServer.Client.Main
import EventServer.Client.Steps
import EventServer.Client.Cleanup
import EventServer.Client.Handshake
import EventServer.Client.Issued
import EventServer.Client.Turns
import EventServer.Office.Spec
import EventServer.Office.Refinement
import EventServer.Office.Texts
import EventServer.Office.Runs
import EventServer.Office.Reads
import EventServer.Office.Reasons
import EventServer.Office.Apart
import EventServer.Sessions.Echo
import EventServer.Sessions.Moves
import EventServer.Sessions.Turns
import EventServer.Sessions.Outputs
import EventServer.Sessions.Apart
import EventServer.Sessions.Progress
