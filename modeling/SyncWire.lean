import SyncWire.Lib.Prog
import SyncWire.Lib.Duplex
import SyncWire.Lib.Session
import SyncWire.Lib.Network
import SyncWire.Lib.FileSystem
import SyncWire.Lib.Calls
import SyncWire.Lib.Bytes
import SyncWire.Lib.Checked
import SyncWire.Lib.Format
import SyncWire.Lib.Pipe
import SyncWire.Lib.ShiftRegister
import SyncWire.Protocol
import SyncWire.FrameParser
import SyncWire.Crc32
import SyncWire.Checksum
import SyncWire.TransferCodec
import SyncWire.SyncCodec
import SyncWire.FrameIo
import SyncWire.SocketIo
import SyncWire.Termination
import SyncWire.Calm
import SyncWire.Authentication
import SyncWire.Bounds
import SyncWire.PingPong
import SyncWire.FileTransfer
import SyncWire.DirectoryManifest
import SyncWire.DirectorySync
import SyncWire.ClientSession
import SyncWire.Agreement
import SyncWire.Receive.Guarantee
import SyncWire.Receive.Destination
import SyncWire.Receive.Budget
import SyncWire.Receive.Prepare
import SyncWire.Receive.Stages
import SyncWire.Receive.Account
import SyncWire.Receive.Leaving
import SyncWire.Receive.Transfer
import SyncWire.Receive.Runs
import SyncWire.Receive.Offsets
import SyncWire.Receive.Fate
import SyncWire.Receive.Calm
import SyncWire.Sync.Plan
import SyncWire.Sync.Scan
import SyncWire.Sync.Walk
import SyncWire.Server.Guarantee
import SyncWire.Sync.Guarantee
import SyncWire.Sync.Runs
import SyncWire.ConcurrentServer
import SyncWire.Session.Turns
import SyncWire.Session.Upload
import SyncWire.Session.Rejection
import SyncWire.Session.Sync
import SyncWire.Session.Retry
import SyncWire.Receive.Part
import SyncWire.Send.Source
import SyncWire.Send.Calm
import SyncWire.Send.Discipline
import SyncWire.Send.Honest
import SyncWire.Resume
import SyncWire.Recovery
import SyncWire.Sync.Verify
import SyncWire.Sync.Again
import SyncWire.Sync.Client
import SyncWire.Mirror
import SyncWire.Lib.Extend
import SyncWire.Lib.Mutex
import SyncWire.Lib.Liveness
import SyncWire.Server.Sessions
import SyncWire.Server.Destination
import SyncWire.Server.Wakeups
import SyncWire.Server.Lifecycle
import SyncWire.Lib.Decimal
import SyncWire.TcpSocket
import SyncWire.Client.Arguments
import SyncWire.Client.Attempt
import SyncWire.Session.Requests
import SyncWire.Session.Mute
import SyncWire.Session.Silence
import SyncWire.Client.Main
import SyncWire.EndToEnd
import SyncWire.Lib.Carrier
import SyncWire.Session.Success
import SyncWire.Transport
