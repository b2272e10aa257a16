import SyncWire.Termination
import SyncWire.TransferCodec

/-!
# Authentication with a shared secret (`authentication.cpp`)

The server sends a nonce; the client answers with a nonce of its own and a MAC over both;
the server says whether it accepts and, if so, proves in turn that it has the secret.
-/

namespace SyncWire

open Wire Effect Posix

def kAuthenticationNonceSize : Nat := 32
def kAuthenticationProofSize : Nat := 32
def kMinimumAuthenticationSecretSize : Nat := 16
def kMaximumAuthenticationSecretSize : Nat := 1024

inductive AuthenticationStatus
  | success | invalidSecret | randomGenerationError | cryptoError | frameIoError | invalidChallenge | invalidProof
  | invalidResult | invalidServerProof | rejected
deriving DecidableEq

structure AuthenticationResult where
  status : AuthenticationStatus := .success
  frameIo : FrameIoResult := {}
deriving DecidableEq

def AuthenticationResult.ok (r : AuthenticationResult) : Bool := r.status == .success

namespace Authentication

def kClientProofDomain : List UInt8 := bytesOf "SyncWire-v2-client-proof"
def kServerProofDomain : List UInt8 := bytesOf "SyncWire-v2-server-proof"
def kAuthenticationAccepted : UInt8 := 0x00
def kAuthenticationRejected : UInt8 := 0x01

def frameError (error : FrameIoResult) : AuthenticationResult := { status := .frameIoError, frameIo := error }

def isAuthFrame (frame : Frame) (expectedType : MessageType) (expectedPayloadSize : Nat) : Bool :=
  decide (frame.header.messageType = expectedType) && decide (frame.header.requestId = 0) &&
    decide (frame.header.transferId = 0) && decide (frame.payload.length = expectedPayloadSize)

theorem length_of_isAuthFrame {frame : Frame} {type : MessageType} {size : Nat}
    (h : ¬ isAuthFrame frame type size = false) : frame.payload.length = size := by
  simp only [isAuthFrame, Bool.not_eq_false, Bool.and_eq_true, decide_eq_true_eq] at h
  exact h.2

/-- HMAC-SHA256 of the parts, one after the other; `none` where a call of the library fails. -/
def calculateProof (secret domain serverNonce clientNonce binding : List UInt8) : Sys (Option (List UInt8)) := do
  match ← sys (.mac secret (domain ++ serverNonce ++ clientNonce ++ binding)) with
  | .error _ => pure none
  | .ok proof => if proof.length = kAuthenticationProofSize then pure (some proof) else pure none

theorem calculateProof_issues (secret domain serverNonce clientNonce binding : List UInt8) :
    Issues ReadCall (calculateProof secret domain serverNonce clientNonce binding) := by
  refine does_sys rfl fun r => ?_
  cases r with
  | error e => exact issues_pure _
  | ok proof => simp only; split <;> exact issues_pure _

def makeAuthFrame (type : MessageType) (payload : List UInt8) : Frame := makeFrame type 0 0 payload

def sendAuthResult (accepted : Bool) (serverProof : List UInt8) : Sys FrameIoResult :=
  sendFrame (makeAuthFrame .authResult
    ((if accepted then kAuthenticationAccepted else kAuthenticationRejected) :: serverProof))

def isValidAuthenticationSecret (secret : List UInt8) : Bool :=
  decide (secret.length ≥ kMinimumAuthenticationSecretSize) &&
    decide (secret.length ≤ kMaximumAuthenticationSecretSize)

/-! ## The client -/

/-- The server's verdict, and its proof. -/
def checkResult (secret serverNonce clientNonce clientProof : List UInt8) (result : Frame) :
    Sys AuthenticationResult :=
  if result.header.messageType ≠ .authResult ∨ result.header.requestId ≠ 0 ∨ result.header.transferId ≠ 0 ∨
      result.payload = [] then pure { status := .invalidResult }
  else if result.payload.head? = some kAuthenticationRejected then
    if result.payload.length ≠ 1 then pure { status := .invalidResult } else pure { status := .rejected }
  else if result.payload.head? ≠ some kAuthenticationAccepted ∨
      result.payload.length ≠ 1 + kAuthenticationProofSize then pure { status := .invalidResult }
  else do
    match ← calculateProof secret kServerProofDomain serverNonce clientNonce clientProof with
    | none => pure { status := .cryptoError }
    | some expectedServerProof =>
      if expectedServerProof = result.payload.drop 1 then pure {} else pure { status := .invalidServerProof }

/-- From the server's nonce on. -/
def answerChallenge (secret serverNonce : List UInt8) : Sys AuthenticationResult := do
  match ← sys (.randBytes kAuthenticationNonceSize) with
  | .error _ => pure { status := .randomGenerationError }
  | .ok clientNonce =>
    match ← calculateProof secret kClientProofDomain serverNonce clientNonce [] with
    | none => pure { status := .cryptoError }
    | some clientProof =>
      let proofSent ← sendFrame (makeAuthFrame .authProof (clientNonce ++ clientProof))
      if proofSent.ok then
        match ← receiveFrame with
        | .error error => pure (frameError error)
        | .ok result => checkResult secret serverNonce clientNonce clientProof result
      else pure (frameError proofSent)

def authenticateClient (secret : List UInt8) : Sys AuthenticationResult :=
  if isValidAuthenticationSecret secret = false then pure { status := .invalidSecret }
  else do
    match ← receiveFrame with
    | .error error => pure (frameError error)
    | .ok challenge =>
      if isAuthFrame challenge .authChallenge kAuthenticationNonceSize = false then
        pure { status := .invalidChallenge }
      else answerChallenge secret challenge.payload

/-! ## The server -/

/-- Tell the client, and return the verdict. -/
def announce (accepted : Bool) (serverProof : List UInt8) : Sys AuthenticationResult := do
  let resultSent ← sendAuthResult accepted serverProof
  if resultSent.ok then
    if accepted then pure {} else pure { status := .rejected }
  else pure (frameError resultSent)

/-- The client's answer to the nonce. -/
def checkProof (secret serverNonce : List UInt8) (proofFrame : Frame) : Sys AuthenticationResult :=
  if isAuthFrame proofFrame .authProof (kAuthenticationNonceSize + kAuthenticationProofSize) = false then do
    let rejected ← sendAuthResult false []
    if rejected.ok then pure { status := .invalidProof } else pure (frameError rejected)
  else do
    let clientNonce := proofFrame.payload.take kAuthenticationNonceSize
    let receivedClientProof := proofFrame.payload.drop kAuthenticationNonceSize
    match ← calculateProof secret kClientProofDomain serverNonce clientNonce [] with
    | none => pure { status := .cryptoError }
    | some expected =>
      if expected = receivedClientProof then
        match ← calculateProof secret kServerProofDomain serverNonce clientNonce receivedClientProof with
        | none => pure { status := .cryptoError }
        | some serverProof => announce true serverProof
      else announce false []

def authenticateServer (secret : List UInt8) : Sys AuthenticationResult :=
  if isValidAuthenticationSecret secret = false then pure { status := .invalidSecret }
  else do
    match ← sys (.randBytes kAuthenticationNonceSize) with
    | .error _ => pure { status := .randomGenerationError }
    | .ok serverNonce =>
      let challengeSent ← sendFrame (makeAuthFrame .authChallenge serverNonce)
      if challengeSent.ok then
        match ← receiveFrame with
        | .error error => pure (frameError error)
        | .ok proofFrame => checkProof secret serverNonce proofFrame
      else pure (frameError challengeSent)

end Authentication

end SyncWire
