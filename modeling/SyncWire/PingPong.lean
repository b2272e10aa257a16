import SyncWire.FrameIo

/-!
# Ping and pong (`ping_pong.cpp`)
-/

namespace SyncWire

open Wire Effect Posix

inductive PingPongStatus
  | success | frameIoError | unexpectedMessageType | unexpectedPayload | invalidRequestId | unexpectedTransferId
  | mismatchedRequestId
deriving DecidableEq

structure PingPongResult where
  status : PingPongStatus := .success
  frameIo : FrameIoResult := {}
  expectedRequestId : UInt64 := 0
  actualRequestId : UInt64 := 0
deriving DecidableEq

def PingPongResult.ok (r : PingPongResult) : Bool := r.status == .success

namespace PingPong

def validateCommon (frame : Frame) (expectedType : MessageType) : PingPongResult :=
  if frame.header.messageType ≠ expectedType then { status := .unexpectedMessageType }
  else if frame.payload ≠ [] then { status := .unexpectedPayload }
  else if frame.header.requestId = 0 then { status := .invalidRequestId }
  else if frame.header.transferId ≠ 0 then { status := .unexpectedTransferId }
  else {}

def frameError (result : FrameIoResult) : PingPongResult := { status := .frameIoError, frameIo := result }

def servePingFrame (ping : Frame) : Sys PingPongResult :=
  let validation := validateCommon ping .ping
  if validation.ok then do
    let sent ← sendFrame (makeFrame .pong ping.header.requestId 0 [])
    if sent.ok then pure {} else pure (frameError sent)
  else pure validation

def performPing (requestId : UInt64) : Sys PingPongResult :=
  if requestId = 0 then pure { status := .invalidRequestId }
  else do
    let sent ← sendFrame (makeFrame .ping requestId 0 [])
    if sent.ok then
      match ← receiveFrame with
      | .error error => pure (frameError error)
      | .ok pong =>
        let validation := validateCommon pong .pong
        if validation.ok then
          if pong.header.requestId ≠ requestId then
            pure { status := .mismatchedRequestId, expectedRequestId := requestId,
                   actualRequestId := pong.header.requestId }
          else pure {}
        else pure validation
    else pure (frameError sent)

end PingPong

end SyncWire
