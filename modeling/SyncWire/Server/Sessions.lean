import SyncWire.Lib.Liveness
import SyncWire.Agreement
import SyncWire.Sync.Runs
import SyncWire.Session.Retry

/-!
# Concurrent sessions (`client_session.cpp`)

All workers of the server pass the same mutex to `serve_client_session`.  Here the
sessions of any number of connections run side by side on one host, in any order, each
against its own client.

* `sessions_serialised`: they have the effect, and give the answers, of sessions served
  one after the other.
* `sessions_end`: they all return if every `recv` does, and the mutex is free.
* `ServerRuns.invariant`: what the steps of a session keep of the destination, all of them
  together keep.
-/

namespace SyncWire

open Wire Effect Posix Posix.Fs Authentication PingPong FileTransfer DirectorySync

namespace Locked

/-- A program of a worker: system calls, frames, and the mutex of the destination. -/
abbrev Worker := Prog (locked net.sig)

/-- `false`: the pointer is null. -/
def withDestinationLock {α : Type} (destinationMutex : Bool) (operation : Sys α) : Worker α :=
  if destinationMutex then operation.lift.withLock else operation.lift

def serveRequest (destinationRoot : Path) (destinationMutex : Bool) (firstFrame : Frame) :
    Worker ClientSessionResult :=
  let requestId := firstFrame.header.requestId
  match firstFrame.header.messageType with
  | .ping => do
    let ping ← (servePingFrame firstFrame).lift
    pure { operation := .ping, requestId, ping, status := if ping.ok then .success else .pingError }
  | .uploadRequest => do
    let transfer ← withDestinationLock destinationMutex (receiveFile firstFrame destinationRoot {})
    pure { operation := .upload, requestId, transfer,
           status := if transfer.ok then .success else .fileTransferError }
  | .syncManifest => do
    let sync ← withDestinationLock destinationMutex (receiveDirectorySync firstFrame destinationRoot {})
    pure { operation := .directorySync, requestId, sync,
           status := if sync.ok then .success else .directorySyncError }
  | _ => pure { requestId, status := .unsupportedMessage }

def serveClientSession (destinationRoot : Path) (authenticationSecret : List UInt8) (destinationMutex : Bool) :
    Worker ClientSessionResult := do
  let authentication ← (authenticateServer authenticationSecret).lift
  if authentication.ok then
    match ← receiveFrame.lift with
    | .error error => pure { status := .frameIoError, frameIo := error }
    | .ok firstFrame => serveRequest destinationRoot destinationMutex firstFrame
  else pure { status := .authenticationError, authentication }

theorem unlocked_withDestinationLock {α β : Type} (mutex : Bool) (operation : Sys α) (f : α → Worker β) :
    (withDestinationLock mutex operation >>= f).unlocked = operation >>= fun a => (f a).unlocked := by
  refine (Prog.unlocked_bind _ _).trans ?_
  unfold withDestinationLock
  split
  · rw [Prog.unlocked_withLock, Prog.unlocked_lift]
    rfl
  · rw [Prog.unlocked_lift]
    rfl

/-- Without the mutex this is `serve_client_session` as one session sees it. -/
theorem unlocked_serveClientSession (root : Path) (secret : List UInt8) (mutex : Bool) :
    (serveClientSession root secret mutex).unlocked = SyncWire.serveClientSession root secret := by
  have hlift : ∀ {α β : Type} (p : Sys α) (f : α → Worker β),
      (p.lift >>= f).unlocked = p >>= fun a => (f a).unlocked := fun p f => by
    refine (Prog.unlocked_bind _ _).trans ?_
    rw [Prog.unlocked_lift]
    rfl
  refine (hlift _ _).trans (congrArg _ (funext fun authentication => ?_))
  split
  · refine (hlift _ _).trans (congrArg _ (funext fun r => ?_))
    cases r with
    | error error => rfl
    | ok firstFrame =>
      simp only [serveRequest, SyncWire.serveRequest]
      cases firstFrame.header.messageType with
      | ping => exact hlift _ _
      | uploadRequest => exact unlocked_withDestinationLock _ _ _
      | syncManifest => exact unlocked_withDestinationLock _ _ _
      | _ => rfl
  · rfl

theorem uses_servePingFrame (ping : Frame) : Uses Introduces (servePingFrame ping) := by
  unfold servePingFrame
  simp only
  split
  · refine uses_sendFrame (introduces_makeFrame (by decide) _ _ _) fun sent => ?_
    split <;> exact uses_pure _
  · exact uses_pure _

theorem uses_receiveWire : Uses Authenticates receiveFrame := by
  rw [← bind_pure receiveFrame]
  exact uses_receiveFrame trivial fun r => uses_pure r

/-- Before it has the mutex a session exchanges frames, and calculates nonces and MACs. -/
theorem disciplined_serveClientSession (root : Path) (secret : List UInt8) :
    Disciplined Authenticates (serveClientSession root secret true) false := by
  refine disciplined_lift (authenticateServer_uses secret) fun authentication => ?_
  split
  · refine disciplined_lift uses_receiveWire fun r => ?_
    cases r with
    | error error => exact disciplined_pure _
    | ok firstFrame =>
      simp only [serveRequest]
      split
      · exact disciplined_lift ((uses_servePingFrame firstFrame).mono fun _ h => h.1) fun ping =>
          disciplined_pure _
      · exact disciplined_withLock _ _
      · exact disciplined_withLock _ _
      · exact disciplined_pure _
  · exact disciplined_pure _

theorem private_authenticates (cr : Crypto) {ι : Type} (rely : ι → net.Rely) :
    Pool.Private (exec cr) rely Authenticates := by
  rintro i o w r w' ho ⟨hrely, hp⟩
  cases o with
  | send f =>
    cases hp
    exact ⟨rfl, fun h => ⟨hrely, rfl⟩⟩
  | recv =>
    cases hp
    exact ⟨rfl, fun h => ⟨hrely, rfl⟩⟩
  | call c =>
    obtain ⟨h', he, rfl⟩ := Option.map_eq_some_iff.mp hp
    cases c with
    | randBytes n =>
      obtain rfl := exec_looks rfl he
      refine ⟨rfl, fun h => ⟨hrely, ?_⟩⟩
      cases r with
      | error e => rfl
      | ok b =>
        simp only [exec, succeed, Option.ite_none_right_eq_some] at he
        simp [perform, exec, succeed, he.1]
    | mac key msg =>
      obtain rfl := exec_looks rfl he
      refine ⟨rfl, fun h => ⟨hrely, ?_⟩⟩
      cases r with
      | error e => rfl
      | ok d =>
        simp only [exec, succeed, Option.ite_none_right_eq_some] at he
        simp [perform, exec, succeed, he.1]
    | _ => cases ho

end Locked

/-! ## One session -/

section
variable {cr : Crypto} {root : Path} {secret : List UInt8} {w : World}

theorem safe_private {α : Type} {p : Sys α} (root : Path) (limits : TransferLimits) (hp : Uses Introduces p) :
    Safe (solo (exec cr) anyAnswer) (Served cr root limits) p w fun _ w' => w'.host = w.host := by
  have hpriv := Locked.private_authenticates cr fun _ : Unit => anyAnswer
  have hkeep : Along (solo (exec cr) anyAnswer) (fun o _ w' => Introduces o ∧ w'.host = w.host) p w
      fun _ w' => True ∧ w'.host = w.host :=
    Gives.keeps (I := fun w' : World => w'.host = w.host) hp
      (fun o v r v' ho hv hs => (hpriv () o v r v' ho.1 hs).1.trans hv) rfl
  refine safe_iff_along.mpr (hkeep.mono (fun o k v hv r v' hs => ?_) fun _ _ h => h.2)
  refine ⟨_, perform_log hs.2, .same (by rw [(hpriv () o v r v' hv.1.1 hs).1]), ?_⟩
  rintro f r' type he hf
  cases he
  obtain ⟨hupload, hsync⟩ := hv.1.2 f rfl
  cases hf with
  | upload ht _ => exact absurd ht hupload
  | sync ht _ => exact absurd ht hsync

theorem serveClientSession_served (hroot : w.host.fs.Plain root) :
    Safe (solo (exec cr) anyAnswer) (Served cr root {}) (serveClientSession root secret) w fun _ _ => True := by
  refine safe_bind (safe_mono (safe_private root {} (authenticateServer_introduces secret))
    fun authentication w1 hw1 => ?_)
  split
  · refine safe_receiveFrame fun r _ => ⟨served_recv _, ?_, ?_⟩
    · rintro error rfl
      exact safe_pure trivial
    · rintro firstFrame rfl
      have hroot1 : (w1.push ⟨.recv, .ok firstFrame⟩).host.fs.Plain root := by
        rw [NetSig.Local.push_host, hw1]
        exact hroot
      simp only [serveRequest]
      split
      · exact safe_bind (safe_mono (safe_private root {} (Locked.uses_servePingFrame _))
          fun _ _ _ => safe_pure trivial)
      · next ht =>
        exact safe_bind (safe_mono (receiveFile_served hroot1 (mem_received_concat _ _) ht)
          fun _ _ _ => safe_pure trivial)
      · next ht =>
        exact safe_bind (safe_mono (receiveDirectorySync_served hroot1 (mem_received_concat _ _) ht)
          fun _ _ _ => safe_pure trivial)
      · exact safe_pure trivial
  · exact safe_pure trivial

end

/-! ## All sessions -/

/-- The sessions of a server: one for each connection, with what its client and its environment may answer. -/
def serverStart (root : Path) (secret : List UInt8) (ι : Type) (host : Host) :
    Pool ι net Host ClientSessionResult :=
  Pool.start host fun _ => Locked.serveClientSession root secret true

/-- The server comes from `host` to the state `s`: sessions of the connections `ι` in any order, stopped
anywhere. -/
def ServerRuns (cr : Crypto) (root : Path) (secret : List UInt8) {ι : Type} [DecidableEq ι] (host : Host)
    (s : Pool ι net Host ClientSessionResult) : Prop :=
  Pool.Runs (exec cr) (fun _ => anyAnswer) (serverStart root secret ι host) s

section
variable {cr : Crypto} {root : Path} {secret : List UInt8} {ι : Type} [DecidableEq ι] {host : Host}
  {s : Pool ι net Host ClientSessionResult}

theorem ServerRuns.ordered (hr : ServerRuns cr root secret host s) :
    s.Ordered (exec cr) (fun _ => anyAnswer) Authenticates host fun _ => serveClientSession root secret := by
  have h := Pool.ordered_runs (Locked.private_authenticates cr _)
    (fun _ => Locked.disciplined_serveClientSession root secret) hr
  simpa only [Locked.unlocked_serveClientSession] using h

/-- **Serialisability.**  Whatever the clients, the failures and the order of the steps: the sessions that have
been through the mutex did what they would have done if they had been served alone, one after the other, each
from its first step to its result, with the same frames and the same answers; the one that holds the mutex is
served alone on what they left; and all others have not depended on the host at all. -/
theorem sessions_serialised (hr : ServerRuns cr root secret host s) :
    ∃ l h, Pool.Serial (exec cr) (fun _ : ι => anyAnswer) (fun _ => serveClientSession root secret) host l h ∧
      Pool.Serialised (exec cr) (fun _ => anyAnswer) (fun _ => serveClientSession root secret) l h s :=
  hr.ordered.serial

/-! Two authenticated clients upload the same three bytes at the same time. -/

theorem sampleProof_valid : (makeAuthFrame .authProof (List.replicate 64 0)).Valid :=
  makeFrame_valid (by decide) (by decide)

theorem sampleRequest_valid : sampleRequest.Valid := makeFrame_valid (by decide) (by decide)

def sampleConnection : List WireFrame :=
  ⟨makeAuthFrame .authProof (List.replicate 64 0), sampleProof_valid⟩ :: ⟨sampleRequest, sampleRequest_valid⟩ ::
    sampleFrames

/-- The server after `n` rounds: in each of them both sessions take a step if they can. -/
def samplePool (n : Nat) : Pool Nat net Host ClientSessionResult :=
  (serverStart sampleRoot sampleAuthKey Nat sampleHost).play (fun _ => drive sampleCrypto sampleConnection)
    (exec sampleCrypto) (List.replicate n [0, 1]).flatten

theorem samplePool_runs (n : Nat) : ServerRuns sampleCrypto sampleRoot sampleAuthKey sampleHost (samplePool n) :=
  Pool.runs_play (fun _ _ _ _ => trivial) _ _

/-- The second session waits for the first; then it is through the mutex, too. -/
theorem samplePool_serialised :
    (samplePool 25).holder = some 0 ∧ (samplePool 50).holder = some 1 ∧ (samplePool 80).holder = none ∧
    (∀ i < 2, (((samplePool 80).prog i).result?.map fun r => r.ok) = some true) ∧ ∃ l h,
    Pool.Serial (exec sampleCrypto) (fun _ : Nat => anyAnswer)
      (fun _ => serveClientSession sampleRoot sampleAuthKey)
      sampleHost l h ∧
    Pool.Serialised (exec sampleCrypto) (fun _ => anyAnswer)
      (fun _ => serveClientSession sampleRoot sampleAuthKey) l h (samplePool 80) :=
  ⟨by decide +kernel, by decide +kernel, by decide +kernel, by decide +kernel,
    sessions_serialised (samplePool_runs 80)⟩

/-- **Sessions end**, provided every blocking call is answered: here `recv` always has some answer, where the
server, which sets no timeout, waits for as long as its client stays silent.  Finitely many sessions take finitely
many steps, whatever their clients send, whatever fails and in whatever order they take them.  As long as one of
them has not returned some step can be taken, by a session that holds the mutex or needs none; in the end all have
returned and the mutex is free. -/
theorem sessions_end [Fintype ι] (cr : Crypto) (root : Path) (secret : List UInt8) (host : Host) :
    Ends (Pool.Step (exec cr) fun _ => anyAnswer)
      (fun s => s.holder = none ∧ ∀ i, ∃ result, s.prog i = .pure result) (serverStart root secret ι host) := by
  have halone : ∀ (_ : ι) h, Total (solo (exec cr) anyAnswer) (Locked.serveClientSession root secret true).unlocked
      ⟨h, []⟩ fun _ _ => True := by
    intro _ h
    rw [Locked.unlocked_serveClientSession]
    exact Session.serveClientSession_returns root secret cr ⟨h, []⟩
  exact Pool.ends (Locked.private_authenticates cr _) (fun _ => Locked.disciplined_serveClientSession root secret)
    (fun _ => able_onHost cr) halone

/-- What the steps of a session keep of the destination, all sessions together keep. -/
theorem ServerRuns.invariant {I : Host → (ι → List net.Event) → Prop} (hr : ServerRuns cr root secret host s)
    (hroot : host.fs.Plain root)
    (hstep : ∀ i log w w', w.log = log i → Served cr root {} w w' → I w.host log →
      I w'.host (Function.update log i w'.log))
    (hlog : ∀ i h log e, I h log → I h (Function.update log i (log i ++ [e]))) (hi : I host fun _ => []) :
    I s.host s.log := by
  refine Pool.invariant (J := fun h => h.fs.Plain root) (G := fun _ => Served cr root {})
    (Locked.private_authenticates cr _) (fun _ => Locked.disciplined_serveClientSession root secret)
    (fun i h hh => ?_) (fun i w w' hw hg => ?_) (fun i log w w' _ => hstep i log w w') hlog hroot hi hr
  · rw [Locked.unlocked_serveClientSession]
    exact serveClientSession_served hh
  · obtain ⟨e, -, hm, -⟩ := hg
    exact hm.grows.plain hw

end

end SyncWire
