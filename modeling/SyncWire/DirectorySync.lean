import SyncWire.DirectoryManifest

/-!
# Synchronizing a directory (`directory_sync.cpp`)

`syncDirectory` is the client, `receiveDirectorySync` the server.  The client sends its
manifest, the server answers with a plan, the planned files are uploaded one after the
other on the same connection, and the server scans its tree once more before it says
that all is well.
-/

namespace SyncWire

open Wire Effect Posix Posix.Fs FileTransfer

structure DirectorySyncLimits where
  scan : DirectoryScanLimits := {}
  transfer : TransferLimits := {}

inductive DirectorySyncStatus
  | success | frameIoError | scanError | codecError | fileTransferError | invalidRequest | invalidRequestId
  | mismatchedRequestId | unexpectedMessageType | unexpectedTransferId | planMismatch | verificationFailed
  | fileIoError
deriving DecidableEq

structure DirectorySyncResult where
  status : DirectorySyncStatus := .success
  frameIo : FrameIoResult := {}
  fileTransfer : FileTransferResult := {}
  scanError : Option DirectoryScanError := none
  codecError : Option SyncCodecError := none
  plannedUploads : Nat := 0
  completedUploads : Nat := 0
  unchangedFiles : Nat := 0
  serverOnlyFiles : Nat := 0
  expectedId : UInt64 := 0
  actualId : UInt64 := 0
  systemError : Nat := 0
deriving DecidableEq

def DirectorySyncResult.ok (r : DirectorySyncResult) : Bool := r.status == .success

namespace DirectorySync

def frameError (error : FrameIoResult) : DirectorySyncResult := { status := .frameIoError, frameIo := error }

def scanError (scan : ScanFailure) : DirectorySyncResult :=
  { status := .scanError, scanError := some scan.error, systemError := scan.systemError }

/-- Control frames have no transfer id. -/
def makeFrame (type : MessageType) (requestId : UInt64) (payload : List UInt8) : Frame :=
  SyncWire.makeFrame type requestId 0 payload

def receiveControlFrame (expectedType : MessageType) (requestId : UInt64) :
    Sys (Except DirectorySyncResult Frame) := do
  match ← receiveFrame with
  | .error error => pure (.error (frameError error))
  | .ok output =>
    if output.header.requestId ≠ requestId then
      pure (.error
        { status := .mismatchedRequestId, expectedId := requestId, actualId := output.header.requestId })
    else if output.header.transferId ≠ 0 then
      pure (.error { status := .unexpectedTransferId, actualId := output.header.transferId })
    else if output.header.messageType ≠ expectedType then pure (.error { status := .unexpectedMessageType })
    else pure (.ok output)

/-- The path of the record at an index, empty behind the end. -/
def pathAt (files : List FileRecord) (i : Nat) : List UInt8 := (files.map (·.path)).getD i []

/-- The loop of `std::ranges::lower_bound` on `len` records from `first` on; `len` turns are enough. -/
def lowerBound (files : List FileRecord) (path : List UInt8) : (turns first len : Nat) → Nat
  | 0, first, _ => first
  | turns + 1, first, len =>
    if len > 0 then
      let half := len / 2
      let middle := first + half
      if pathAt files middle < path then lowerBound files path turns (middle + 1) (len - half - 1)
      else lowerBound files path turns first half
    else first

def findFile (files : List FileRecord) (path : List UInt8) : Option FileRecord :=
  match files[lowerBound files path files.length 0 files.length]? with
  | none => none
  | some found => if found.path ≠ path then none else some found

def sendTransferRejection (requestId : UInt64) : Sys FrameIoResult :=
  sendFrame (SyncWire.makeFrame .transferResult requestId 0 (encodeTransferResult .unexpectedFrame))

/-- The id of the upload with this index. -/
def fileRequestId (requestId : UInt64) (index : Nat) : UInt64 := requestId + UInt64.ofNat index + 1

/-! ## The client -/

/-- The loop over the planned paths. -/
def uploadFiles (sourceRoot : Path) (requestId : UInt64) (limits : DirectorySyncLimits) (source : FileManifest) :
    (index : Nat) → (paths : List (List UInt8)) → (result : DirectorySyncResult) →
      Sys (Except DirectorySyncResult DirectorySyncResult)
  | _, [], result => pure (.ok result)
  | index, path :: paths, result =>
    match findFile source path with
    | none => pure (.error { status := .planMismatch })
    | some _ => do
      let transfer ←
        sendFile (sourceRoot ++ components path) path (fileRequestId requestId index) limits.transfer
      if transfer.ok then
        uploadFiles sourceRoot requestId limits source (index + 1) paths
          { result with completedUploads := result.completedUploads + 1 }
      else pure (.error { result with status := .fileTransferError, fileTransfer := transfer })

/-- After the uploads. -/
def completeSync (requestId : UInt64) (result : DirectorySyncResult) : Sys DirectorySyncResult := do
  let sentComplete ← sendFrame (makeFrame .syncComplete requestId [])
  if sentComplete.ok then
    match ← receiveControlFrame .syncResult requestId with
    | .error error => pure error
    | .ok finalFrame =>
      match decodeSyncResult (.of finalFrame.payload) with
      | .error error => pure { status := .codecError, codecError := some error }
      | .ok code => if code ≠ .success then pure { result with status := .verificationFailed } else pure result
  else pure (frameError sentComplete)

/-- The counts of a plan. -/
def planResult (plan : SyncPlan) : DirectorySyncResult :=
  { plannedUploads := plan.uploadPaths.length, unchangedFiles := plan.unchangedCount.toNat,
    serverOnlyFiles := plan.serverOnlyCount.toNat }

def followPlan (sourceRoot : Path) (requestId : UInt64) (limits : DirectorySyncLimits) (source : FileManifest)
    (planFrame : Frame) : Sys DirectorySyncResult :=
  match decodeSyncPlan (.of planFrame.payload) limits.scan.maxEntries with
  | .error error => pure { status := .codecError, codecError := some error }
  | .ok plan =>
    if plan.uploadPaths.length + plan.unchangedCount.toNat ≠ source.length then
      pure { status := .planMismatch }
    else if plan.uploadPaths.length > (0xFFFFFFFFFFFFFFFF - requestId).toNat then
      pure { status := .invalidRequestId }
    else do
      match ← uploadFiles sourceRoot requestId limits source 0 plan.uploadPaths (planResult plan) with
      | .error result => pure result
      | .ok result => completeSync requestId result

def syncDirectory (sourceRoot : Path) (requestId : UInt64) (limits : DirectorySyncLimits) :
    Sys DirectorySyncResult :=
  if requestId = 0 then pure { status := .invalidRequestId }
  else do
    match ← scanDirectory sourceRoot limits.scan with
    | .error failure => pure (scanError failure)
    | .ok source =>
      let manifestPayload := encodeManifest source.files
      if manifestPayload = [] ∨ manifestPayload.length > kDefaultMaxPayload.toNat then
        pure { status := .codecError, codecError := some .payloadSizeMismatch }
      else
        let sentManifest ← sendFrame (makeFrame .syncManifest requestId manifestPayload)
        if sentManifest.ok then
          match ← receiveControlFrame .syncPlan requestId with
          | .error result => pure result
          | .ok planFrame => followPlan sourceRoot requestId limits source.files planFrame
        else pure (frameError sentManifest)

/-! ## The server -/

/-- The request is the one the plan has at this index. -/
def expectedUpload (requestId : UInt64) (index : Nat) (path : List UInt8) (request : Frame) : Bool :=
  match decodeUploadMetadata (.of request.payload) with
  | .error _ => false
  | .ok metadata =>
    decide (request.header.messageType = .uploadRequest) &&
      decide (request.header.requestId = fileRequestId requestId index) &&
      decide (request.header.transferId = 0) && decide (metadata.filename = path)

/-- The loop over the planned paths. -/
def receiveFiles (destinationRoot : Path) (requestId : UInt64) (limits : DirectorySyncLimits) :
    (index : Nat) → (paths : List (List UInt8)) → (result : DirectorySyncResult) →
      Sys (Except DirectorySyncResult DirectorySyncResult)
  | _, [], result => pure (.ok result)
  | index, path :: paths, result => do
    match ← receiveFrame with
    | .error error => pure (.error (frameError error))
    | .ok request =>
      if expectedUpload requestId index path request then
        let transfer ← receiveFile request destinationRoot limits.transfer
        if transfer.ok then
          receiveFiles destinationRoot requestId limits (index + 1) paths
            { result with completedUploads := result.completedUploads + 1 }
        else pure (.error { result with status := .fileTransferError, fileTransfer := transfer })
      else
        let rejected ← sendTransferRejection request.header.requestId
        if rejected.ok then pure (.error { status := .planMismatch }) else pure (.error (frameError rejected))

/-- The final scan, and what it says. -/
def verify (destinationRoot : Path) (requestId : UInt64) (limits : DirectorySyncLimits) (source : FileManifest)
    (result : DirectorySyncResult) : Sys DirectorySyncResult := do
  match ← scanDirectory destinationRoot limits.scan with
  | .error failure => pure (scanError failure)
  | .ok verifiedDestination =>
    let verification := buildSyncPlan source verifiedDestination.files
    let resultCode : SyncResultCode :=
      if verification.uploadPaths.isEmpty then .success else .destinationChanged
    let sentResult ← sendFrame (makeFrame .syncResult requestId (encodeSyncResult resultCode))
    if sentResult.ok then
      if resultCode ≠ .success then pure { result with status := .verificationFailed } else pure result
    else pure (frameError sentResult)

/-- From the plan on. -/
def executePlan (destinationRoot : Path) (requestId : UInt64) (limits : DirectorySyncLimits)
    (source : FileManifest) (plan : SyncPlan) : Sys DirectorySyncResult :=
  if plan.uploadPaths.length > (0xFFFFFFFFFFFFFFFF - requestId).toNat then
    pure { status := .invalidRequestId }
  else
    let planPayload := encodeSyncPlan plan
    if planPayload = [] ∨ planPayload.length > kDefaultMaxPayload.toNat then
      pure { status := .codecError, codecError := some .payloadSizeMismatch }
    else do
      let sentPlan ← sendFrame (makeFrame .syncPlan requestId planPayload)
      if sentPlan.ok then
        match ← receiveFiles destinationRoot requestId limits 0 plan.uploadPaths (planResult plan) with
        | .error result => pure result
        | .ok result =>
          match ← receiveControlFrame .syncComplete requestId with
          | .error error => pure error
          | .ok completeFrame =>
            if completeFrame.payload ≠ [] then pure { status := .invalidRequest }
            else verify destinationRoot requestId limits source result
      else pure (frameError sentPlan)

/-- From the decoded manifest on. -/
def receiveManifest (destinationRoot : Path) (requestId : UInt64) (limits : DirectorySyncLimits)
    (source : FileManifest) : Sys DirectorySyncResult := do
  match ← createDirectories [] destinationRoot with
  | .error errno => pure { status := .fileIoError, systemError := errno }
  | .ok () =>
    match ← scanDirectory destinationRoot limits.scan with
    | .error failure => pure (scanError failure)
    | .ok destination =>
      executePlan destinationRoot requestId limits source (buildSyncPlan source destination.files)

def receiveDirectorySync (manifestFrame : Frame) (destinationRoot : Path) (limits : DirectorySyncLimits) :
    Sys DirectorySyncResult :=
  let requestId := manifestFrame.header.requestId
  if manifestFrame.header.messageType ≠ .syncManifest ∨ requestId = 0 ∨
      manifestFrame.header.transferId ≠ 0 then
    pure { status := .invalidRequest }
  else
    match decodeManifest (.of manifestFrame.payload) limits.scan.maxEntries with
    | .error error => pure { status := .codecError, codecError := some error }
    | .ok source =>
      if source.any fun file => decide (file.size > limits.scan.maxFileSize) then
        pure { status := .invalidRequest }
      else receiveManifest destinationRoot requestId limits source

end DirectorySync

end SyncWire
