import SyncWire.FrameIo
import SyncWire.TransferCodec
import SyncWire.Crc32

/-!
# Uploading one file (`file_transfer.cpp`)

`sendFile` is the client's side, `receiveFile` the server's.  Both are written in the
order of the source, one definition per stage; a stage that may return early gives
`Except FileTransferResult`.  The lambdas of `receive_file` (`reject_before_ready`,
`cleanup`, `interrupted`, `reject_transfer`) are definitions of their own, over the
`Transfer` they capture.

The descriptors that destructors close on return are not closed here; nothing looks at
them afterwards.
-/

namespace SyncWire

open Wire Effect Posix Posix.Fs

structure TransferLimits where
  maxFileSize : UInt64 := kDefaultMaxFileSize
  chunkSize : Nat := kDefaultChunkSize
  maxPartialFiles : Nat := 64
  maxPartialBytes : UInt64 := 4 * kDefaultMaxFileSize

inductive FileTransferStatus
  | success | frameIoError | invalidRequest | invalidPath | fileTooLarge | fileOpenError | fileReadError
  | fileWriteError | fileCommitError | unexpectedMessageType | unexpectedFrame | invalidRequestId
  | invalidTransferId | mismatchedRequestId | invalidPayload | unexpectedOffset | sizeMismatch
  | checksumMismatch | remoteRejected
deriving DecidableEq

structure FileTransferResult where
  status : FileTransferStatus := .success
  frameIo : FrameIoResult := {}
  codecError : Option TransferCodecError := none
  remoteCode : Option TransferResultCode := none
  transferred : UInt64 := 0
  expectedChecksum : UInt32 := 0
  actualChecksum : UInt32 := 0
  expectedId : UInt64 := 0
  actualId : UInt64 := 0
  systemError : Nat := 0
  /-- bytes reused from an earlier connection -/
  resumedFrom : UInt64 := 0
deriving DecidableEq

def FileTransferResult.ok (r : FileTransferResult) : Bool := r.status == .success

namespace FileTransfer

def frameError (result : FrameIoResult) : FileTransferResult :=
  { status := .frameIoError, frameIo := result }

def receiveExpectedFrame (type : MessageType) (requestId transferId : UInt64) :
    Sys (Except FileTransferResult Frame) := do
  match ← receiveFrame with
  | .error error => pure (.error (frameError error))
  | .ok output =>
    if output.header.requestId ≠ requestId then
      pure (.error
        { status := .mismatchedRequestId, expectedId := requestId, actualId := output.header.requestId })
    else if output.header.transferId ≠ transferId then
      pure (.error
        { status := .invalidTransferId, expectedId := transferId, actualId := output.header.transferId })
    else if output.header.messageType ≠ type then pure (.error { status := .unexpectedMessageType })
    else pure (.ok output)

def decodeRemoteResult (frame : Frame) : FileTransferResult :=
  match decodeTransferResult (.of frame.payload) with
  | .error error => { status := .invalidPayload, codecError := some error }
  | .ok code => if code = .success then {} else { status := .remoteRejected, remoteCode := some code }

/-- Read a stream to its end, `kDefaultChunkSize` bytes at a time. -/
def checksumStream (fd : Fd) : Sys (Except Nat Crc32) :=
  Prog.iter (fun checksum : Crc32 => do
    match ← sys (.readStream fd kDefaultChunkSize) with
    | .error errno => pure (.inr (.error errno))
    | .ok data =>
      let checksum := checksum.update data
      -- a short read is the end of the file
      if data.length < kDefaultChunkSize then pure (.inr (.ok checksum)) else pure (.inl checksum)) {}

/-- Size and checksum of the source. -/
def readSourceMetadata (sourcePath : Path) (limits : TransferLimits) :
    Sys (Except FileTransferResult (UInt64 × UInt32)) := do
  match ← sys (.fileSize sourcePath) with
  | .error errno => pure (.error { status := .fileOpenError, systemError := errno })
  | .ok rawSize =>
    if rawSize > limits.maxFileSize.toNat then pure (.error { status := .fileTooLarge })
    else
      match ← sys (.openStream sourcePath) with
      | .error errno => pure (.error { status := .fileOpenError, systemError := errno })
      | .ok input =>
        match ← checksumStream input with
        | .error errno => pure (.error { status := .fileReadError, systemError := errno })
        | .ok checksum => pure (.ok (UInt64.ofNat rawSize, checksum.value))

def validLimits (limits : TransferLimits) : Bool :=
  decide (limits.chunkSize > 0) && decide (limits.chunkSize ≤ kDefaultMaxPayload.toNat - kChunkOffsetSize)

def writeAll (fd : Fd) (data : List UInt8) : Sys (Except FileTransferResult Unit) :=
  Prog.iter (fun written : Nat =>
    if written < data.length then do
      match ← sys (.write fd (data.drop written)) with
      | .ok result =>
        if result > 0 then pure (.inl (written + result))
        else pure (.inr (.error { status := .fileWriteError, systemError := EIO }))
      | .error errno =>
        if errno = EINTR then pure (.inl written)
        else pure (.inr (.error { status := .fileWriteError, systemError := errno }))
    else pure (.inr (.ok ()))) 0

def sendResult (requestId transferId : UInt64) (code : TransferResultCode) : Sys FrameIoResult :=
  sendFrame (makeFrame .transferResult requestId transferId (encodeTransferResult code))

def resultCodeForStatus : FileTransferStatus → TransferResultCode
  | .invalidPath => .invalidPath
  | .fileTooLarge => .fileTooLarge
  | .unexpectedOffset => .unexpectedOffset
  | .sizeMismatch => .sizeMismatch
  | .checksumMismatch => .checksumMismatch
  | .fileOpenError | .fileReadError | .fileWriteError | .fileCommitError => .fileIoError
  | .unexpectedMessageType | .invalidTransferId | .mismatchedRequestId | .unexpectedFrame => .unexpectedFrame
  | .invalidRequest | .invalidRequestId | .invalidPayload => .invalidRequest
  | .success | .frameIoError | .remoteRejected => .invalidRequest

theorem resultCodeForStatus_ne_success (status : FileTransferStatus) :
    resultCodeForStatus status ≠ .success := by
  cases status <;> simp [resultCodeForStatus]

/-! ## The destination -/

/-- A `PreparedDestination` that is `ok()`. -/
structure PreparedDestination where
  finalPath : Path
  stateRoot : Path
  partName : Name
  directory : Fd

def PreparedDestination.partPath (p : PreparedDestination) : Path := p.stateRoot ++ [p.partName]

/-- A `PreparedDestination` that is not. -/
structure PrepareFailure where
  systemError : Nat := 0
  invalidPath : Bool := false

/-- `std::filesystem::create_directories`: each directory on the way that is missing. -/
def createDirectories : (done rest : Path) → Sys (Except Nat Unit)
  | _, [] => pure (.ok ())
  | done, n :: rest => do
    match ← sys (.createDirectory (done ++ [n])) with
    | .error errno => pure (.error errno)
    | .ok _ => createDirectories (done ++ [n]) rest

/-- The loop over `relative.parent_path()`. -/
def makeParents : (parent rest : Path) → Sys (Except PrepareFailure Path)
  | parent, [] => pure (.ok parent)
  | parent, component :: rest => do
    let parent := parent ++ [component]
    match ← sys (.lstat parent) with
    | .error errno => pure (.error { systemError := errno })
    | .ok status =>
      if status ≠ .notFound then
        if status = .symlink ∨ status ≠ .directory then pure (.error { invalidPath := true })
        else makeParents parent rest
      else
        match ← sys (.createDirectory parent) with
        | .error errno => pure (.error { systemError := errno })
        | .ok _ => makeParents parent rest

def makeRoot (root : Path) : Sys (Except PrepareFailure Unit) := do
  match ← sys (.lstat root) with
  | .error errno => pure (.error { systemError := errno })
  | .ok status =>
    if status ≠ .notFound then
      if status = .symlink ∨ status ≠ .directory then pure (.error { invalidPath := true })
      else pure (.ok ())
    else
      match ← createDirectories [] root with
      | .error errno => pure (.error { systemError := errno })
      | .ok () => pure (.ok ())

def hexDigit (n : UInt8) : UInt8 := (bytesOf "0123456789abcdef").getD n.toNat 0

/-- The name of the part file of a digest. -/
def partNameOf (digest : List UInt8) : Name :=
  digest.flatMap (fun byte : UInt8 => [hexDigit (byte >>> 4), hexDigit (byte &&& 0x0F)]) ++ bytesOf ".part"

/-- The state directory, created if missing and opened. -/
def openStateRoot (stateRoot : Path) : Sys (Except PrepareFailure Fd) := do
  match ← sys (.mkdir stateRoot) with
  | .error errno => pure (.error { systemError := errno })
  | .ok _ =>
    match ← sys (.openDir stateRoot) with
    | .error errno => pure (.error { systemError := errno })
    | .ok directory => pure (.ok directory)

def prepareDestination (root : Path) (metadata : UploadMetadata) :
    Sys (Except PrepareFailure PreparedDestination) := do
  match ← makeRoot root with
  | .error failure => pure (.error failure)
  | .ok () =>
    let relative := components metadata.filename
    match ← makeParents root relative.dropLast with
    | .error failure => pure (.error failure)
    | .ok parent =>
      let finalPath := parent ++ [relative.getLastD []]
      match ← sys (.digest (encodeUploadMetadata metadata)) with
      | .error _ => pure (.error { systemError := EIO })
      | .ok digest =>
        let stateRoot := root ++ [kPartialDirectory]
        match ← openStateRoot stateRoot with
        | .error failure => pure (.error failure)
        | .ok directory => pure (.ok { finalPath, stateRoot, partName := partNameOf digest, directory })

/-- The loop of `within_partial_budget` over the entries still to come. -/
def countPartials (prepared : PreparedDestination) (limits : TransferLimits) :
    List Name → (bytes : UInt64) → (count : Nat) → Sys Bool
  | [], _, count => pure (decide (count ≤ limits.maxPartialFiles))
  | name :: names, bytes, count => do
    if name ≠ prepared.partName then
      match ← sys (.lstat (prepared.stateRoot ++ [name])) with
      | .error _ => pure false
      | .ok status =>
        if status ≠ .regular then pure false
        else
          match ← sys (.fileSize (prepared.stateRoot ++ [name])) with
          | .error _ => pure false
          | .ok size =>
            if size > (limits.maxPartialBytes - bytes).toNat then pure false
            else if count + 1 > limits.maxPartialFiles then pure false
            else
              match ← sys (.nextEntry prepared.stateRoot) with
              | .error _ => pure false
              | .ok () => countPartials prepared limits names (bytes + UInt64.ofNat size) (count + 1)
    else
      match ← sys (.nextEntry prepared.stateRoot) with
      | .error _ => pure false
      | .ok () => countPartials prepared limits names bytes count

/-- This upload's declared size is reserved; the other files count as they are. -/
def withinPartialBudget (prepared : PreparedDestination) (metadata : UploadMetadata)
    (limits : TransferLimits) : Sys Bool :=
  if metadata.fileSize > limits.maxPartialBytes then pure false
  else do
    match ← sys (.listDir prepared.stateRoot) with
    | .error _ => pure false
    | .ok names => countPartials prepared limits names metadata.fileSize 1

/-- The checksum of the first `size` bytes from the descriptor's position on. -/
def readPartialPrefix (fd : Fd) (size : UInt64) : Sys (Option Crc32) :=
  Prog.iter (fun (s : UInt64 × Crc32) =>
    let (remaining, checksum) := s
    if remaining ≠ 0 then do
      let requested := min remaining.toNat kDefaultChunkSize
      match ← sys (.read fd requested) with
      | .error errno => if errno = EINTR then pure (.inl (remaining, checksum)) else pure (.inr none)
      | .ok data =>
        if data.length = 0 then pure (.inr none)
        else pure (.inl (remaining - UInt64.ofNat data.length, checksum.update data))
    else pure (.inr (some checksum))) (size, {})

/-! ## The client -/

/-- Read the first `size` bytes of the source. -/
def readSourcePrefix (input : Fd) (size : UInt64) (bufferSize : Nat) :
    Sys (Except FileTransferResult Crc32) :=
  Prog.iter (fun (s : UInt64 × Crc32) =>
    let (prefixRead, checksum) := s
    if prefixRead < size then do
      let requested := min (size - prefixRead).toNat bufferSize
      match ← sys (.readStream input requested) with
      | .error _ => pure (.inr (.error { status := .fileReadError }))
      | .ok data =>
        if data.length ≠ requested then pure (.inr (.error { status := .fileReadError }))
        else pure (.inl (prefixRead + UInt64.ofNat requested, checksum.update data))
    else pure (.inr (.ok checksum))) (0, {})

/-- Send one chunk and wait for its acknowledgment; the offset behind it. -/
def sendChunk (requestId transferId offset : UInt64) (data : List UInt8) :
    Sys (Except FileTransferResult UInt64) := do
  let sentChunk ← sendFrame (makeFrame .fileChunk requestId transferId (encodeFileChunk offset data))
  if sentChunk.ok then
    let offset := offset + UInt64.ofNat data.length
    match ← receiveExpectedFrame .acknowledgment requestId transferId with
    | .error result => pure (.error result)
    | .ok acknowledgment =>
      match decodeOffset (.of acknowledgment.payload) with
      | .error error =>
        pure (.error { status := .invalidPayload, codecError := some error, transferred := offset })
      | .ok acknowledged =>
        if acknowledged ≠ offset then
          pure (.error
            { status := .unexpectedOffset, transferred := offset, expectedId := offset,
              actualId := acknowledged })
        else pure (.ok offset)
  else pure (.error (frameError sentChunk))

/-- The loop that sends the file from `offset` on. -/
def sendChunks (requestId transferId fileSize : UInt64) (input : Fd) (bufferSize : Nat) (offset : UInt64) :
    Sys (Except FileTransferResult UInt64) :=
  Prog.iter (fun offset : UInt64 =>
    if offset < fileSize then do
      let requested := min (fileSize - offset).toNat bufferSize
      match ← sys (.readStream input requested) with
      | .error errno =>
        pure (.inr (.error { status := .fileReadError, transferred := offset, systemError := errno }))
      | .ok data =>
        if data.length = 0 ∨ data.length ≠ requested then
          pure (.inr (.error { status := .fileReadError, transferred := offset }))
        else
          match ← sendChunk requestId transferId offset data with
          | .error result => pure (.inr (.error result))
          | .ok offset => pure (.inl offset)
    else pure (.inr (.ok offset))) offset

/-- From the open source to the final answer. -/
def sendFrom (requestId transferId : UInt64) (metadata : UploadMetadata) (limits : TransferLimits)
    (input : Fd) (resumedFrom : UInt64) : Sys FileTransferResult := do
  match ← sendChunks requestId transferId metadata.fileSize input limits.chunkSize resumedFrom with
  | .error result => pure result
  | .ok offset =>
    let sentComplete ← sendFrame (makeFrame .transferComplete requestId transferId [])
    if sentComplete.ok then
      match ← receiveExpectedFrame .transferResult requestId transferId with
      | .error result => pure result
      | .ok finalResponse =>
        pure { decodeRemoteResult finalResponse with
          transferred := offset, expectedChecksum := metadata.checksum, resumedFrom }
    else pure (frameError sentComplete)

/-- Check the prefix the server holds, and resume behind it or start again. -/
def resumeTransfer (sourcePath : Path) (requestId transferId : UInt64) (metadata : UploadMetadata)
    (limits : TransferLimits) (checkpoint : TransferReady) : Sys FileTransferResult := do
  match ← sys (.openStream sourcePath) with
  | .error errno => pure { status := .fileOpenError, systemError := errno }
  | .ok input =>
    match ← readSourcePrefix input checkpoint.offset limits.chunkSize with
    | .error result => pure result
    | .ok prefixChecksum =>
      let resumedFrom := if prefixChecksum.value = checkpoint.prefixChecksum then checkpoint.offset else 0
      if resumedFrom = 0 then
        match ← sys (.seekStream input) with
        | .error _ => pure { status := .fileReadError }
        | .ok () => sendFrom requestId transferId metadata limits input resumedFrom
      else sendFrom requestId transferId metadata limits input resumedFrom

/-- The server's first answer. -/
def onReady (sourcePath : Path) (requestId : UInt64) (metadata : UploadMetadata) (limits : TransferLimits)
    (ready : Frame) : Sys FileTransferResult :=
  if ready.header.requestId ≠ requestId then
    pure { status := .mismatchedRequestId, expectedId := requestId, actualId := ready.header.requestId }
  else if ready.header.messageType = .transferResult then
    if ready.header.transferId ≠ 0 then
      pure { status := .invalidTransferId, actualId := ready.header.transferId }
    else
      let rejection := decodeRemoteResult ready
      if rejection.ok then pure { rejection with status := .unexpectedFrame } else pure rejection
  else if ready.header.messageType ≠ .transferReady then pure { status := .unexpectedMessageType }
  else
    match decodeTransferReady (.of ready.payload) with
    | .error _ => pure { status := .invalidPayload }
    | .ok checkpoint =>
      if checkpoint.offset > metadata.fileSize ∨
          (checkpoint.offset = 0 ∧ checkpoint.prefixChecksum ≠ 0) then
        pure { status := .unexpectedOffset }
      else if ready.header.transferId = 0 then pure { status := .invalidTransferId }
      else resumeTransfer sourcePath requestId ready.header.transferId metadata limits checkpoint

/-- With the arguments accepted. -/
def sendUpload (sourcePath : Path) (remoteFilename : List UInt8) (requestId : UInt64)
    (limits : TransferLimits) : Sys FileTransferResult := do
  match ← readSourceMetadata sourcePath limits with
  | .error result => pure result
  | .ok (fileSize, checksum) =>
    let metadata : UploadMetadata := { filename := remoteFilename, fileSize, checksum }
    let sentRequest ← sendFrame (makeFrame .uploadRequest requestId 0 (encodeUploadMetadata metadata))
    if sentRequest.ok then
      match ← receiveFrame with
      | .error error => pure (frameError error)
      | .ok ready => onReady sourcePath requestId metadata limits ready
    else pure (frameError sentRequest)

def sendFile (sourcePath : Path) (remoteFilename : List UInt8) (requestId : UInt64)
    (limits : TransferLimits) : Sys FileTransferResult :=
  if requestId = 0 then pure { status := .invalidRequestId }
  else if isSafeRemotePath remoteFilename = false then pure { status := .invalidPath }
  else if validLimits limits = false then pure { status := .invalidRequest }
  else sendUpload sourcePath remoteFilename requestId limits

/-! ## The server -/

/-- What the lambdas of `receive_file` capture. -/
structure Transfer where
  requestId : UInt64
  metadata : UploadMetadata
  limits : TransferLimits
  prepared : PreparedDestination
  partFile : Fd

def Transfer.transferId (t : Transfer) : UInt64 := t.requestId

def rejectBeforeReady (requestId : UInt64) (result : FileTransferResult) : Sys FileTransferResult := do
  let sent ← sendResult requestId 0 (resultCodeForStatus result.status)
  if sent.ok then pure result else pure (frameError sent)

def cleanup (t : Transfer) (committed : Bool) : Sys Unit := do
  let _ ← sys (.close t.partFile)
  if committed = false then
    let _ ← sys (.unlinkat t.prepared.directory t.prepared.partName)
    pure ()
  else pure ()

def interrupted (t : Transfer) (offset resumedFrom : UInt64) (io : FrameIoResult) :
    Sys FileTransferResult :=
  let result := { frameError io with transferred := offset, resumedFrom }
  if io.status = .peerClosed ∨ io.status = .systemError then do
    match ← sys (.fsync t.partFile) with
    | .error savedError =>
      cleanup t false
      pure { status := .fileWriteError, systemError := savedError }
    | .ok () => pure result
  else do
    cleanup t false
    pure result

def rejectTransfer (t : Transfer) (committed : Bool) (result : FileTransferResult) :
    Sys FileTransferResult := do
  cleanup t committed
  let sent ← sendResult t.requestId t.transferId (resultCodeForStatus result.status)
  if sent.ok then pure result else pure (frameError sent)

/-- The variables of the receiving loop. -/
structure Progress where
  checksum : Crc32
  offset : UInt64
  resumedFrom : UInt64
  firstChunk : Bool

/-- A client whose check of the prefix failed starts again at offset 0. -/
def restart (t : Transfer) (p : Progress) (chunk : FileChunk) : Sys (Except FileTransferResult Progress) :=
  if p.firstChunk = true ∧ p.offset ≠ 0 ∧ chunk.offset = 0 then do
    match ← sys (.ftruncate t.partFile) with
    | .error errno => pure (.error { status := .fileWriteError, systemError := errno })
    | .ok () =>
      match ← sys (.lseek t.partFile) with
      | .error errno => pure (.error { status := .fileWriteError, systemError := errno })
      | .ok () => pure (.ok { checksum := {}, offset := 0, resumedFrom := 0, firstChunk := false })
  else pure (.ok { p with firstChunk := false })

/-- Write a chunk that fits, make it durable, acknowledge it. -/
def storeChunk (t : Transfer) (p : Progress) (chunk : FileChunk) :
    Sys (Progress ⊕ Except FileTransferResult Progress) := do
  match ← writeAll t.partFile chunk.data with
  | .error result => return .inr (.error (← rejectTransfer t false result))
  | .ok () =>
    let p := { p with
      checksum := p.checksum.update chunk.data, offset := p.offset + UInt64.ofNat chunk.data.length }
    match ← sys (.fsync t.partFile) with
    | .error errno =>
      return .inr (.error (← rejectTransfer t false { status := .fileWriteError, systemError := errno }))
    | .ok () =>
      match ← sys (.fsync t.prepared.directory) with
      | .error errno =>
        return .inr (.error (← rejectTransfer t false { status := .fileWriteError, systemError := errno }))
      | .ok () =>
        let sentAck ← sendFrame (makeFrame .acknowledgment t.requestId t.transferId (encodeOffset p.offset))
        if sentAck.ok then return .inl p
        else return .inr (.error (← interrupted t p.offset p.resumedFrom sentAck))

/-- Store a chunk that is the next one and fits. -/
def placeChunk (t : Transfer) (p : Progress) (chunk : FileChunk) :
    Sys (Progress ⊕ Except FileTransferResult Progress) := do
  if chunk.offset ≠ p.offset then
    return .inr (.error (← rejectTransfer t false
      { status := .unexpectedOffset, transferred := p.offset, expectedId := p.offset,
        actualId := chunk.offset }))
  else if chunk.data.length > t.limits.chunkSize ∨ p.offset > t.metadata.fileSize ∨
      chunk.data.length > (t.metadata.fileSize - p.offset).toNat then
    return .inr (.error (← rejectTransfer t false { status := .sizeMismatch, transferred := p.offset }))
  else storeChunk t p chunk

def onChunk (t : Transfer) (p : Progress) (chunk : FileChunk) :
    Sys (Progress ⊕ Except FileTransferResult Progress) := do
  match ← restart t p chunk with
  | .error result => return .inr (.error (← rejectTransfer t false result))
  | .ok p => placeChunk t p chunk

/-- One frame of the receiving loop; `.inr (.ok p)` is its `break`. -/
def onFrame (t : Transfer) (p : Progress) (frame : Frame) :
    Sys (Progress ⊕ Except FileTransferResult Progress) := do
  if frame.header.requestId ≠ t.requestId ∨ frame.header.transferId ≠ t.transferId then
    return .inr (.error (← rejectTransfer t false
      { status := .unexpectedFrame, expectedId := t.requestId, actualId := frame.header.requestId }))
  else if frame.header.messageType = .transferComplete then
    if frame.payload ≠ [] then
      return .inr (.error (← rejectTransfer t false { status := .invalidPayload }))
    else return .inr (.ok p)
  else if frame.header.messageType ≠ .fileChunk then
    return .inr (.error (← rejectTransfer t false { status := .unexpectedMessageType }))
  else
    match decodeFileChunk (.of frame.payload) with
    | .error error =>
      return .inr (.error (← rejectTransfer t false { status := .invalidPayload, codecError := some error }))
    | .ok chunk => onChunk t p chunk

def receiveStep (t : Transfer) (p : Progress) : Sys (Progress ⊕ Except FileTransferResult Progress) := do
  match ← receiveFrame with
  | .error error => return .inr (.error (← interrupted t p.offset p.resumedFrom error))
  | .ok frame => onFrame t p frame

def receiveChunks (t : Transfer) (p : Progress) : Sys (Except FileTransferResult Progress) :=
  Prog.iter (receiveStep t) p

/-- Make the two directories durable after the rename. -/
def syncDirectories (t : Transfer) : Sys (Except Nat Unit) := do
  match ← sys (.openDir t.prepared.finalPath.dropLast) with
  | .error errno => pure (.error errno)
  | .ok finalDirectory =>
    match ← sys (.fsync finalDirectory) with
    | .error errno => pure (.error errno)
    | .ok () =>
      match ← sys (.fsync t.prepared.directory) with
      | .error errno => pure (.error errno)
      | .ok () => pure (.ok ())

/-- After the rename. -/
def finish (t : Transfer) (p : Progress) : Sys FileTransferResult := do
  match ← syncDirectories t with
  | .error errno => rejectTransfer t true { status := .fileCommitError, systemError := errno }
  | .ok () =>
    let sentResult ← sendResult t.requestId t.transferId .success
    if sentResult.ok then
      pure
        { transferred := p.offset, expectedChecksum := t.metadata.checksum,
          actualChecksum := p.checksum.value, resumedFrom := p.resumedFrom }
    else pure (frameError sentResult)

/-- The rename. -/
def publish (t : Transfer) (p : Progress) : Sys FileTransferResult := do
  match ← sys (.fsync t.partFile) with
  | .error errno =>
    rejectTransfer t false { status := .fileCommitError, transferred := p.offset, systemError := errno }
  | .ok () =>
    match ← sys (.rename t.prepared.partPath t.prepared.finalPath) with
    | .error errno =>
      rejectTransfer t false { status := .fileCommitError, transferred := p.offset, systemError := errno }
    | .ok () => finish t p

/-- The checks on the complete file, and the rename. -/
def commit (t : Transfer) (p : Progress) : Sys FileTransferResult :=
  if p.offset ≠ t.metadata.fileSize then
    rejectTransfer t false { status := .sizeMismatch, transferred := p.offset }
  else if p.checksum.value ≠ t.metadata.checksum then
    rejectTransfer t false
      { status := .checksumMismatch, transferred := p.offset, expectedChecksum := t.metadata.checksum,
        actualChecksum := p.checksum.value }
  else publish t p

/-- From the ready message on. -/
def receiveBody (t : Transfer) (checksum : Crc32) (offset : UInt64) : Sys FileTransferResult := do
  let sentReady ← sendFrame (makeFrame .transferReady t.requestId t.transferId
    (encodeTransferReady ⟨offset, checksum.value⟩))
  if sentReady.ok then
    match ← receiveChunks t { checksum, offset, resumedFrom := offset, firstChunk := true } with
    | .error result => pure result
    | .ok p => commit t p
  else interrupted t offset offset sentReady

/-- The part file is ours alone: regular, one link, our own, and locked.  Its size if so. -/
def checkPart (partFile : Fd) : Sys (Except Unit Nat) := do
  match ← sys (.fstat partFile) with
  | .error _ => pure (.error ())
  | .ok status =>
    if status.regular = false ∨ status.nlink ≠ 1 then pure (.error ())
    else
      match ← sys .geteuid with
      | .error _ => pure (.error ())
      | .ok euid =>
        if status.uid ≠ euid then pure (.error ())
        else
          match ← sys (.flock partFile) with
          | .error _ => pure (.error ())
          | .ok () => pure (.ok status.size)

/-- Discard a part file longer than the upload; the size that is left. -/
def trimPart (partFile : Fd) (size : Nat) (fileSize : UInt64) : Sys (Except Nat UInt64) :=
  if size > fileSize.toNat then do
    match ← sys (.ftruncate partFile) with
    | .error errno => pure (.error errno)
    | .ok () => pure (.ok 0)
  else pure (.ok (UInt64.ofNat size))

/-- With the part file open. -/
def receivePart (t : Transfer) : Sys FileTransferResult := do
  match ← checkPart t.partFile with
  | .error () => rejectBeforeReady t.requestId { status := .fileOpenError, systemError := EACCES }
  | .ok size =>
    match ← trimPart t.partFile size t.metadata.fileSize with
    | .error errno => rejectBeforeReady t.requestId { status := .fileWriteError, systemError := errno }
    | .ok offset =>
      match ← readPartialPrefix t.partFile offset with
      | none => rejectBeforeReady t.requestId { status := .fileReadError }
      | some checksum => receiveBody t checksum offset

/-- With the metadata accepted. -/
def receiveUpload (requestId : UInt64) (metadata : UploadMetadata) (root : Path) (limits : TransferLimits) :
    Sys FileTransferResult := do
  match ← prepareDestination root metadata with
  | .error failure =>
    rejectBeforeReady requestId
      { status := if failure.invalidPath then .invalidPath else .fileOpenError,
        systemError := failure.systemError }
  | .ok prepared =>
    if ← withinPartialBudget prepared metadata limits then
      match ← sys (.openat prepared.directory prepared.partName) with
      | .error errno => rejectBeforeReady requestId { status := .fileOpenError, systemError := errno }
      | .ok partFile => receivePart { requestId, metadata, limits, prepared, partFile }
    else rejectBeforeReady requestId { status := .fileOpenError, systemError := ENOSPC }

def statusOfMetadataError (error : TransferCodecError) : FileTransferStatus :=
  if error = .unsafeFilename ∨ error = .emptyFilename ∨ error = .filenameTooLong then .invalidPath
  else .invalidPayload

def receiveFile (uploadRequest : Frame) (destinationRoot : Path) (limits : TransferLimits) :
    Sys FileTransferResult :=
  let requestId := uploadRequest.header.requestId
  if uploadRequest.header.messageType ≠ .uploadRequest ∨ uploadRequest.header.transferId ≠ 0 ∨
      requestId = 0 ∨ validLimits limits = false then
    rejectBeforeReady requestId { status := .invalidRequest }
  else
    match decodeUploadMetadata (.of uploadRequest.payload) with
    | .error error =>
      rejectBeforeReady requestId { status := statusOfMetadataError error, codecError := some error }
    | .ok metadata =>
      if metadata.fileSize > limits.maxFileSize then rejectBeforeReady requestId { status := .fileTooLarge }
      else receiveUpload requestId metadata destinationRoot limits

/-! ## What the checks come to

One lemma for each function that checks what it is given: either it fails at once, or the checks have passed and
the next stage runs. -/

/-- A failure that is none of the connection. -/
structure Declined (r : FileTransferResult) : Prop where
  failed : r.ok = false
  notIo : r.status ≠ .frameIoError
  frameIo : r.frameIo = {}

theorem decodeRemoteResult_frameIo (f : Frame) : (decodeRemoteResult f).frameIo = {} := by
  unfold decodeRemoteResult
  split
  · rfl
  · split <;> rfl

theorem decodeRemoteResult_notIo (f : Frame) : (decodeRemoteResult f).status ≠ .frameIoError := by
  unfold decodeRemoteResult
  split
  · simp
  · split <;> simp

theorem sendFile_cases (sourcePath : Path) (remoteFilename : List UInt8) (requestId : UInt64)
    (limits : TransferLimits) :
    (∃ r, Declined r ∧ sendFile sourcePath remoteFilename requestId limits = pure r) ∨
      (requestId ≠ 0 ∧ isSafeRemotePath remoteFilename = true ∧ validLimits limits = true) ∧
        sendFile sourcePath remoteFilename requestId limits =
          sendUpload sourcePath remoteFilename requestId limits := by
  unfold sendFile
  split
  · exact .inl ⟨_, ⟨rfl, by simp, rfl⟩, rfl⟩
  · next hid =>
    split
    · exact .inl ⟨_, ⟨rfl, by simp, rfl⟩, rfl⟩
    · next hsafe =>
      split
      · exact .inl ⟨_, ⟨rfl, by simp, rfl⟩, rfl⟩
      · next hlimits => exact .inr ⟨⟨hid, by simpa using hsafe, by simpa using hlimits⟩, rfl⟩

/-- The server is ready to go on from this checkpoint. -/
structure Offered (requestId : UInt64) (metadata : UploadMetadata) (ready : Frame) (checkpoint : TransferReady) :
    Prop where
  request : ready.header.requestId = requestId
  type : ready.header.messageType = .transferReady
  transfer : ready.header.transferId ≠ 0
  payload : decodeTransferReady (.of ready.payload) = .ok checkpoint
  offset : checkpoint.offset ≤ metadata.fileSize
  start : checkpoint.offset = 0 → checkpoint.prefixChecksum = 0

theorem onReady_cases (sourcePath : Path) (requestId : UInt64) (metadata : UploadMetadata)
    (limits : TransferLimits) (ready : Frame) :
    (∃ r, Declined r ∧ onReady sourcePath requestId metadata limits ready = pure r) ∨
      ∃ checkpoint, Offered requestId metadata ready checkpoint ∧
        onReady sourcePath requestId metadata limits ready =
          resumeTransfer sourcePath requestId ready.header.transferId metadata limits checkpoint := by
  unfold onReady
  split
  · exact .inl ⟨_, ⟨rfl, by simp, rfl⟩, rfl⟩
  · next hid =>
    split
    · split
      · exact .inl ⟨_, ⟨rfl, by simp, rfl⟩, rfl⟩
      · dsimp only
        split
        · refine .inl ⟨_, ⟨rfl, by simp, ?_⟩, rfl⟩
          exact decodeRemoteResult_frameIo ready
        · next hok =>
          exact .inl ⟨_, ⟨by simpa using hok, decodeRemoteResult_notIo ready,
            decodeRemoteResult_frameIo ready⟩, rfl⟩
    · split
      · exact .inl ⟨_, ⟨rfl, by simp, rfl⟩, rfl⟩
      · next htype =>
        split
        · exact .inl ⟨_, ⟨rfl, by simp, rfl⟩, rfl⟩
        · next checkpoint hdecode =>
          split
          · exact .inl ⟨_, ⟨rfl, by simp, rfl⟩, rfl⟩
          · next hbad =>
            split
            · exact .inl ⟨_, ⟨rfl, by simp, rfl⟩, rfl⟩
            · next htransfer =>
              rw [not_or, not_and_not_right] at hbad
              exact .inr ⟨checkpoint, ⟨not_not.mp hid, not_not.mp htype, htransfer, hdecode,
                UInt64.not_lt.mp hbad.1, hbad.2⟩, rfl⟩

theorem receiveFile_cases (request : Frame) (root : Path) (limits : TransferLimits) :
    (∃ r, r.ok = false ∧ receiveFile request root limits = rejectBeforeReady request.header.requestId r) ∨
      ∃ metadata, decodeUploadMetadata (.of request.payload) = .ok metadata ∧
        receiveFile request root limits = receiveUpload request.header.requestId metadata root limits := by
  unfold receiveFile
  dsimp only
  split
  · exact .inl ⟨_, rfl, rfl⟩
  · split
    · refine .inl ⟨_, ?_, rfl⟩
      simp only [FileTransferResult.ok, statusOfMetadataError]
      split <;> rfl
    · next metadata hdecode =>
      split
      · exact .inl ⟨_, rfl, rfl⟩
      · exact .inr ⟨metadata, hdecode, rfl⟩

/-- The frame carries this chunk of the transfer. -/
def Transfer.Carries (t : Transfer) (frame : Frame) (chunk : FileChunk) : Prop :=
  frame.header.requestId = t.requestId ∧ frame.header.transferId = t.transferId ∧
    frame.header.messageType = .fileChunk ∧ decodeFileChunk (.of frame.payload) = .ok chunk

theorem onFrame_cases (t : Transfer) (p : Progress) (frame : Frame) :
    (∃ r, r.ok = false ∧ onFrame t p frame = do return .inr (.error (← rejectTransfer t false r))) ∨
      (frame.header.messageType = .transferComplete ∧ onFrame t p frame = pure (.inr (.ok p))) ∨
      ∃ chunk, t.Carries frame chunk ∧ onFrame t p frame = onChunk t p chunk := by
  unfold onFrame
  split
  · exact .inl ⟨_, rfl, rfl⟩
  · next hids =>
    rw [not_or, not_not, not_not] at hids
    split
    · next htype =>
      split
      · exact .inl ⟨_, rfl, rfl⟩
      · exact .inr (.inl ⟨htype, rfl⟩)
    · split
      · exact .inl ⟨_, rfl, rfl⟩
      · next htype =>
        split
        · exact .inl ⟨_, rfl, rfl⟩
        · next chunk hdecode => exact .inr (.inr ⟨chunk, ⟨hids.1, hids.2, not_not.mp htype, hdecode⟩, rfl⟩)

/-- The chunk is the next one and fits. -/
structure Transfer.Fits (t : Transfer) (p : Progress) (chunk : FileChunk) : Prop where
  offset : chunk.offset = p.offset
  size : chunk.data.length ≤ t.limits.chunkSize
  inside : p.offset ≤ t.metadata.fileSize
  room : chunk.data.length ≤ (t.metadata.fileSize - p.offset).toNat

theorem placeChunk_cases (t : Transfer) (p : Progress) (chunk : FileChunk) :
    (∃ r, r.ok = false ∧ placeChunk t p chunk = do return .inr (.error (← rejectTransfer t false r))) ∨
      t.Fits p chunk ∧ placeChunk t p chunk = storeChunk t p chunk := by
  unfold placeChunk
  split
  · exact .inl ⟨_, rfl, rfl⟩
  · next hoff =>
    split
    · exact .inl ⟨_, rfl, rfl⟩
    · next hfit =>
      simp only [not_or, Nat.not_lt, UInt64.not_lt] at hfit
      exact .inr ⟨⟨not_not.mp hoff, hfit.1, hfit.2.1, hfit.2.2⟩, rfl⟩

theorem commit_cases (t : Transfer) (p : Progress) :
    (∃ r, r.ok = false ∧ commit t p = rejectTransfer t false r) ∨
      (p.offset = t.metadata.fileSize ∧ p.checksum.value = t.metadata.checksum) ∧ commit t p = publish t p := by
  unfold commit
  split
  · exact .inl ⟨_, rfl, rfl⟩
  · next hoff =>
    split
    · exact .inl ⟨_, rfl, rfl⟩
    · next hsum => exact .inr ⟨⟨not_not.mp hoff, not_not.mp hsum⟩, rfl⟩

end FileTransfer

end SyncWire
