import JiajiaNetwork.Lib.Machine
import JiajiaNetwork.Lib.CArray
import JiajiaNetwork.Lib.Flags
import JiajiaNetwork.Lib.History
import JiajiaNetwork.Lib.Lifetime
import JiajiaNetwork.Lib.CompactTable
import JiajiaNetwork.Lib.Interest
import JiajiaNetwork.Lib.Channel
import JiajiaNetwork.Lib.Ownership
import JiajiaNetwork.Lib.Edge
import JiajiaNetwork.Lib.Slice
import JiajiaNetwork.Lib.Threads
import JiajiaNetwork.Lib.Printf
import JiajiaNetwork.Lib.Lines
import JiajiaNetwork.Lib.Isolation
import JiajiaNetwork.Lib.Refresh
import JiajiaNetwork.Lib.Cursor
import JiajiaNetwork.Lib.Descriptors
import JiajiaNetwork.Lib.Semaphore
import JiajiaNetwork.Lib.Room
import JiajiaNetwork.Lib.WaitStatus
import JiajiaNetwork.Lib.Ledger
import JiajiaNetwork.Lib.Sessions
import JiajiaNetwork.Lib.Backlog
import JiajiaNetwork.PollChat.Server
import JiajiaNetwork.PollChat.Turn
import JiajiaNetwork.PollChat.SlotTable
import JiajiaNetwork.PollChat.Clients
import JiajiaNetwork.PollChat.Pending
import JiajiaNetwork.PollChat.Departure
import JiajiaNetwork.PollChat.Delivery
import JiajiaNetwork.PollChat.Coverage
import JiajiaNetwork.PollChat.Masks
import JiajiaNetwork.PollChat.Network
import JiajiaNetwork.PollChat.Pass
import JiajiaNetwork.PollChat.Room
import JiajiaNetwork.PollChat.Silence
import JiajiaNetwork.PollChat.Jam
import JiajiaNetwork.PollChat.Flush
import JiajiaNetwork.Reactor.Loop
import JiajiaNetwork.Reactor.Callback
import JiajiaNetwork.Reactor.Table
import JiajiaNetwork.Reactor.Registration
import JiajiaNetwork.Reactor.Dialogue
import JiajiaNetwork.Reactor.Dispatch
import JiajiaNetwork.Reactor.Sweep
import JiajiaNetwork.Reactor.Buffer
import JiajiaNetwork.Reactor.Echo
import JiajiaNetwork.Reactor.Accounting
import JiajiaNetwork.Reactor.Sessions
import JiajiaNetwork.ChatClient.Client
import JiajiaNetwork.ChatClient.Closing
import JiajiaNetwork.ChatClient.Pipe
import JiajiaNetwork.ChatRoom.Closing
import JiajiaNetwork.ChatRoom.EndToEnd
import JiajiaNetwork.OneShot.Kernel
import JiajiaNetwork.OneShot.Server
import JiajiaNetwork.OneShot.Ownership
import JiajiaNetwork.OneShot.Handover
import JiajiaNetwork.OneShot.Worker
import JiajiaNetwork.OneShot.Reading
import JiajiaNetwork.TcpUdp.Server
import JiajiaNetwork.TcpUdp.Echo
import JiajiaNetwork.TcpUdp.Edges
import JiajiaNetwork.TcpUdp.Batch
import JiajiaNetwork.TcpUdp.Backlog
import JiajiaNetwork.TestEpoll.Server
import JiajiaNetwork.TestEpoll.Edges
import JiajiaNetwork.TestEpoll.Stranded
import JiajiaNetwork.TestEpoll.Connections
import JiajiaNetwork.TestEpoll.Agreement
import JiajiaNetwork.TestEpoll.Closing
import JiajiaNetwork.TestEpoll.Backlog
import JiajiaNetwork.TestEpoll.Prompt
import JiajiaNetwork.Signal.Server
import JiajiaNetwork.Signal.Stopping
import JiajiaNetwork.Signal.Delivery
import JiajiaNetwork.Relay.Child
import JiajiaNetwork.Relay.Segments
import JiajiaNetwork.Relay.Forwarding
import JiajiaNetwork.Relay.Contents
import JiajiaNetwork.LineEcho.Server
import JiajiaNetwork.LineEcho.Replies
import JiajiaNetwork.LineEcho.Connections
import JiajiaNetwork.FileServer.Server
import JiajiaNetwork.FileServer.Freshness
import JiajiaNetwork.FileServer.Versions
import JiajiaNetwork.TimedConnect.Client
import JiajiaNetwork.TimedConnect.Sockets
import JiajiaNetwork.TimedConnect.Attempts
import JiajiaNetwork.WritevServer.Server
import JiajiaNetwork.WritevServer.Response
import JiajiaNetwork.Sequential.Server
import JiajiaNetwork.Sequential.InTurn
import JiajiaNetwork.Sequential.Retry
import JiajiaNetwork.PthreadMutex.Program
import JiajiaNetwork.PthreadMutex.Outcome
import JiajiaNetwork.PthreadMutex.Deadlock
import JiajiaNetwork.TestSemaphore.Processes
import JiajiaNetwork.TestSemaphore.Exclusion
import JiajiaNetwork.TestSemaphore.Ending
import JiajiaNetwork.TestWait.Parent
