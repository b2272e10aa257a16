import SyncWire.Authentication
import SyncWire.PingPong
import SyncWire.DirectorySync

/-!
# A connection, seen from both ends (`client_session.cpp`, `syncwire-client/main.cpp`)

`serveClientSession` is what a worker of the server does with a connection: authenticate
the client, then serve the one request its first frame starts.  `runOnce` is one attempt of
the client's `main`: authenticate, then ping, upload or synchronize; it says whether
`main` may try again.

The mutex of the destination is not represented: it is held by one session at a time, and
this is one session.
-/

namespace SyncWire

open Wire Effect Posix Authentication PingPong FileTransfer DirectorySync

/-! ## The server -/

inductive SessionOperation
  | unknown | ping | upload | directorySync
deriving DecidableEq

inductive SessionStatus
  | success | authenticationError | frameIoError | pingError | fileTransferError | directorySyncError
  | unsupportedMessage
deriving DecidableEq

structure ClientSessionResult where
  status : SessionStatus := .success
  operation : SessionOperation := .unknown
  requestId : UInt64 := 0
  authentication : AuthenticationResult := {}
  frameIo : FrameIoResult := {}
  ping : PingPongResult := {}
  transfer : FileTransferResult := {}
  sync : DirectorySyncResult := {}
deriving DecidableEq

def ClientSessionResult.ok (r : ClientSessionResult) : Bool := r.status == .success

/-- The request the first frame starts. -/
def serveRequest (destinationRoot : Path) (firstFrame : Frame) : Sys ClientSessionResult :=
  let requestId := firstFrame.header.requestId
  match firstFrame.header.messageType with
  | .ping => do
    let ping ← servePingFrame firstFrame
    pure { operation := .ping, requestId, ping, status := if ping.ok then .success else .pingError }
  | .uploadRequest => do
    let transfer ← receiveFile firstFrame destinationRoot {}
    pure { operation := .upload, requestId, transfer,
           status := if transfer.ok then .success else .fileTransferError }
  | .syncManifest => do
    let sync ← receiveDirectorySync firstFrame destinationRoot {}
    pure { operation := .directorySync, requestId, sync,
           status := if sync.ok then .success else .directorySyncError }
  | _ => pure { requestId, status := .unsupportedMessage }

def serveClientSession (destinationRoot : Path) (authenticationSecret : List UInt8) : Sys ClientSessionResult := do
  let authentication ← authenticateServer authenticationSecret
  if authentication.ok then
    match ← receiveFrame with
    | .error error => pure { status := .frameIoError, frameIo := error }
    | .ok firstFrame => serveRequest destinationRoot firstFrame
  else pure { status := .authenticationError, authentication }

/-! ## The client -/

/-- What the command line asks for. -/
inductive Command
  | ping
  | upload (sourcePath : Path) (remoteName : List UInt8)
  | sync (sourceDirectory : Path)

def transportFailure (io : FrameIoResult) : Bool :=
  decide (io.status = .peerClosed) || decide (io.status = .systemError)

def AuthenticationResult.retryable (r : AuthenticationResult) : Bool :=
  decide (r.status = .frameIoError) && transportFailure r.frameIo

def PingPongResult.retryable (r : PingPongResult) : Bool :=
  decide (r.status = .frameIoError) && transportFailure r.frameIo

def FileTransferResult.retryable (r : FileTransferResult) : Bool :=
  decide (r.status = .frameIoError) && transportFailure r.frameIo

def DirectorySyncResult.retryable (r : DirectorySyncResult) : Bool :=
  (decide (r.status = .frameIoError) && transportFailure r.frameIo) ||
    (decide (r.status = .fileTransferError) && decide (r.fileTransfer.status = .frameIoError) &&
      transportFailure r.fileTransfer.frameIo)

/-- The exit code of an attempt, and whether another one may follow. -/
structure Attempt where
  code : Nat := 0
  retryable : Bool := false
deriving DecidableEq

/-- `run_once` on a connection that is established. -/
def runOnce (command : Command) (secret : List UInt8) (requestId : UInt64) : Sys Attempt := do
  let authentication ← authenticateClient secret
  if authentication.ok then
    match command with
    | .ping =>
      let exchange ← performPing requestId
      if exchange.ok then pure {} else pure { code := 1, retryable := exchange.retryable }
    | .upload sourcePath remoteName =>
      let transfer ← sendFile sourcePath remoteName requestId {}
      if transfer.ok then pure {} else pure { code := 1, retryable := transfer.retryable }
    | .sync sourceDirectory =>
      let sync ← syncDirectory sourceDirectory requestId {}
      if sync.ok then pure {} else pure { code := 1, retryable := sync.retryable }
  else pure { code := 1, retryable := authentication.retryable }

end SyncWire
