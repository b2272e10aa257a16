import SyncWire.Lib.Carrier
import SyncWire.SocketIo
import SyncWire.Session.Retry
import SyncWire.Server.Destination
import SyncWire.Client.Attempt

/-!
# Client and server over byte streams (`frame_io.cpp`, `socket_io.cpp`)

Elsewhere in this development a frame is sent or received in one step.  Here the two
processes run over sockets: `send_frame` and `receive_frame` loop over `send` and `recv`,
which take and give any part of the bytes, are interrupted, fail or find the stream closed
at any time, while the peer goes on.

* `sockets`: `send_frame` and `receive_frame` carry frames (`Carrier`), and their callers
  get what they returned (`sendFrame_gives`, `Reads.answered`).
* `channel_abandoned`: after a failure the connection is left alone.
* `any_stream_parsed`: whatever bytes the peer sends, either side acts on the frames that
  a parser finds at the front of the stream, and on nothing else.
* `session_over_bytes`: a client's attempt and a session of the server do over bytes what
  they can do over frames.
* `stored_over_bytes`: so exit code 0 means the same there.
-/

namespace SyncWire

open Wire Effect Effect.Carrier Stream Posix Posix.Fs

namespace Socket

/-! ## The answers of the two functions -/

/-- What `send_frame` returned, as the answer to a send. -/
def sendAnswer (r : FrameIoResult) : Except IoFailure Unit :=
  match r.status with
  | .complete => .ok ()
  | .systemError => .error (.systemError r.transferred r.systemError)
  | _ => .error (.peerClosed r.transferred)

/-- What `receive_frame` returned, as the answer to a receive. -/
def receiveAnswer : Except FrameIoResult Frame → Except ReceiveFailure WireFrame
  | .ok f => if hv : f.Valid then .ok ⟨f, hv⟩ else .error (.io (.peerClosed 0))
  | .error r =>
    match r.status, r.codecError with
    | .invalidHeader, some e => .error (.invalidHeader e)
    | .systemError, _ => .error (.io (.systemError r.transferred r.systemError))
    | _, _ => .error (.io (.peerClosed r.transferred))

/-- `systemError` is set for system errors only. -/
def CleanClose (r : IoResult) : Prop := r.status = .peerClosed → r.systemError = 0

theorem exists_failure {r : IoResult} (hp : CleanClose r) (hok : ¬ r.ok = true) (before : Nat) :
    ∃ failure : IoFailure, fromIoResult r before = failure.result := by
  obtain ⟨status, transferred, systemError⟩ := r
  cases status with
  | complete => exact absurd rfl hok
  | peerClosed =>
    obtain rfl : systemError = 0 := hp rfl
    exact ⟨.peerClosed (before + transferred), rfl⟩
  | systemError => exact ⟨.systemError (before + transferred) systemError, rfl⟩

/-! ## Sending -/

theorem sendAll_gives (bytes : List UInt8) : Gives IsSend (sendAll bytes) CleanClose := by
  refine gives_iter (fun sent => ?_) _
  split
  · refine gives_bind (R := fun _ => True) (gives_op trivial fun _ => gives_pure trivial) fun r _ => ?_
    cases r with
    | ok n =>
      dsimp only
      split
      · exact gives_pure fun b hb => by cases hb
      · exact gives_pure fun b hb => by cases hb; exact fun _ => rfl
    | error e =>
      dsimp only
      split
      · exact gives_pure fun b hb => by cases hb
      · exact gives_pure fun b hb => by cases hb; exact fun h => by cases h
  · exact gives_pure fun b hb => by cases hb; exact fun _ => rfl

/-- The callers get the result that `send_frame` returned. -/
theorem sendFrame_gives {f : Frame} (hv : f.Valid) :
    Gives IsSend (sendFrame f) fun r => sendOutcome f (sendAnswer r) = r := by
  have hfails : ∀ failure : IoFailure, sendOutcome f (sendAnswer failure.result) = failure.result := by
    intro failure
    cases failure <;> rfl
  rw [sendFrame, if_neg (not_not.mpr hv.1)]
  simp only [decodeHeader_encodeHeader_ok hv.2]
  refine gives_bind (sendAll_gives _) fun r hr => ?_
  split
  · refine gives_bind (sendAll_gives _) fun r' hr' => ?_
    split
    · exact gives_pure rfl
    · next hok =>
      obtain ⟨failure, he⟩ := exists_failure hr' hok kWireHeaderSize
      rw [he]
      exact gives_pure (hfails failure)
  · next hok =>
    obtain ⟨failure, he⟩ := exists_failure hr hok 0
    rw [he]
    exact gives_pure (hfails failure)

/-- `send_frame`, answering as a send. -/
def sendWire (f : WireFrame) : Io (Except IoFailure Unit) := do
  let r ← sendFrame f.1
  pure (sendAnswer r)

theorem sendAnswer_ok (r : FrameIoResult) : sendAnswer r = .ok () ↔ r.ok = true := by
  obtain ⟨status, transferred, systemError, codecError⟩ := r
  cases status <;> simp [sendAnswer, FrameIoResult.ok]

theorem sendWire_total (f : WireFrame) (w : Writer UInt8) :
    Total sendSem (sendWire f) w fun r w' => ∃ n, n ≤ f.1.bytes.length ∧ w'.stream = w.stream ++ f.1.bytes.take n ∧
      (r = .ok () ↔ n = f.1.bytes.length) := by
  refine total_bind (sendFrame_total f.2 fun r n signals hn _ hok _ => total_pure ⟨n, hn, rfl, ?_⟩)
  rw [sendAnswer_ok, hok]

theorem sendWire_sends {S : List UInt8} {f : WireFrame} {v v' : Port UInt8} {q : Io (Except IoFailure Unit)}
    (hr : Reach (lossy S) (sendWire f, v) (q, v')) : v'.taken = v.taken ∧
      ∃ n, n ≤ f.1.bytes.length ∧ v'.out = v.out ++ f.1.bytes.take n ∧
        ∀ r, q = .pure r → (r = .ok () ↔ n = f.1.bytes.length) := by
  have huses : Uses IsSend (sendWire f) :=
    uses_bind ((sendFrame_gives f.2).mono (fun _ _ _ ho => ho) fun _ _ _ => trivial) fun _ => uses_pure _
  obtain ⟨htaken, hrun⟩ := reach_sendSem huses hr
  obtain ⟨n, hrun⟩ := hrun 0
  refine ⟨htaken, ?_⟩
  have htotal := sendWire_total f ⟨v.out, n⟩
  -- what is on the stream now is the beginning of what is there in the end
  obtain ⟨z, hz, a, -, k, hk, hstream, -⟩ := Ends.exists_stop (Ends.reach htotal hrun)
  obtain ⟨t, ht⟩ := stream_isPrefix_of_reach hrun
  obtain ⟨t', ht'⟩ := stream_isPrefix_of_reach hz
  change v.out ++ t = v'.out at ht
  rw [hstream, ← show v.out ++ t = v'.out from ht, List.append_assoc] at ht'
  have htake : t <+: f.1.bytes := by
    refine List.IsPrefix.trans ⟨t', ?_⟩ (List.take_prefix k f.1.bytes)
    exact List.append_cancel_left ht'
  refine ⟨t.length, htake.length_le, ?_, ?_⟩
  · rw [← List.prefix_iff_eq_take.mp htake, ht]
  · rintro r rfl
    obtain ⟨n', hn', hout, hok⟩ := htotal.result hrun
    rw [hok]
    have hlen := congrArg List.length (ht.trans hout)
    simp only [List.length_append, List.length_take] at hlen
    omega

theorem sendWire_acts (f : WireFrame) (r : Except IoFailure Unit) : sendWire f ≠ .pure r := by
  have he : ∃ (body : Nat → Io (Nat ⊕ IoResult)) (s : Nat) (k : IoResult → Io (Except IoFailure Unit)),
      sendWire f = .loop body s k := by
    unfold sendWire sendFrame
    rw [if_neg (not_not.mpr f.2.1)]
    simp only [decodeHeader_encodeHeader_ok f.2.2]
    exact ⟨_, _, _, rfl⟩
  obtain ⟨body, s, k, he⟩ := he
  rw [he]
  intro h
  cases h

/-! ## Receiving -/

section Receiving
variable {S : List UInt8} {v : Port UInt8}

/-- The bytes that were filled in stand at the front of the stream, and are all there if the result is good. -/
def Filled (S : List UInt8) (size : Nat) (v : Port UInt8) (x : List UInt8 × IoResult) (u : Port UInt8) : Prop :=
  u.taken = v.taken + x.1.length ∧ x.1 <+: S.drop v.taken ∧ (x.2.ok = true → x.1.length = size) ∧ CleanClose x.2

theorem recvExact_filled (size : Nat) :
    Safe (lossy S) (fun u u' => u'.out = u.out) (recvExact size) v (Filled S size v) := by
  refine safe_iter (fun bytes u => u.taken = v.taken + bytes.length ∧ bytes <+: S.drop v.taken ∧
    bytes.length ≤ size)
    ?_ ⟨rfl, List.nil_prefix, Nat.zero_le _⟩
  rintro bytes u ⟨htaken, hpre, hle⟩
  split
  · next hlt =>
    refine safe_recv (fun d hd hlen => ?_) fun e => ?_
    · dsimp only
      split
      · refine safe_pure ⟨?_, ?_, ?_⟩
        · rw [htaken, List.length_append, Nat.add_assoc]
        · obtain ⟨t, ht⟩ := hpre
          rw [htaken, ← List.drop_drop, ← ht, List.drop_left] at hd
          rw [← ht]
          exact (List.prefix_append_right_inj bytes).mpr hd
        · rw [List.length_append]
          omega
      · next hd0 =>
        obtain rfl : d = [] := List.length_eq_zero_iff.mp (by omega)
        exact safe_pure ⟨htaken, hpre, fun h => (by cases h), fun _ => rfl⟩
    · dsimp only
      split
      · exact safe_pure ⟨htaken, hpre, hle⟩
      · exact safe_pure ⟨htaken, hpre, fun h => (by cases h), fun h => (by cases h)⟩
  · next hge => exact safe_pure ⟨htaken, hpre, fun _ => Nat.le_antisymm hle (Nat.not_lt.mp hge), fun _ => rfl⟩

/-- What `receive_frame` returns: the frame at the front of the stream, or that there is none, or a failure. -/
inductive Reads (S : List UInt8) (v : Port UInt8) : Except FrameIoResult Frame → Port UInt8 → Prop
  | frame {f : Frame} {n : Nat} {u : Port UInt8} (h : frameFront kDefaultMaxPayload (S.drop v.taken) = .item f n)
      (htaken : u.taken = v.taken + n) : Reads S v (.ok f) u
  | bad {e : CodecError} {u : Port UInt8} (h : frameFront kDefaultMaxPayload (S.drop v.taken) = .bad e) :
      Reads S v (.error { status := .invalidHeader, transferred := kWireHeaderSize, codecError := some e }) u
  | failed {failure : IoFailure} {u : Port UInt8} : Reads S v (.error failure.result) u

theorem reads_failed {r : IoResult} (hp : CleanClose r) (hok : ¬ r.ok = true) (before : Nat) (u : Port UInt8) :
    Reads S v (.error (fromIoResult r before)) u := by
  obtain ⟨failure, he⟩ := exists_failure hp hok before
  rw [he]
  exact .failed

/-- A header and its payload, one after the other at the front of a stream. -/
theorem frameFront_pieces {s payload : List UInt8} {header : FrameHeader}
    (hd : decodeHeader (.of (s.take kWireHeaderSize)) kDefaultMaxPayload = .ok header)
    (hle : kWireHeaderSize ≤ s.length) (hpre : payload <+: s.drop kWireHeaderSize)
    (hlen : payload.length = header.payloadLength.toNat) :
    frameFront kDefaultMaxPayload s = .item ⟨header, payload⟩ (kWireHeaderSize + header.payloadLength.toNat) := by
  have hsize : kWireHeaderSize + header.payloadLength.toNat ≤ s.length := by
    have := hpre.length_le
    rw [List.length_drop] at this
    omega
  rw [frameFront_whole hd hsize, List.drop_take, Nat.add_sub_cancel_left, ← hlen,
    ← List.prefix_iff_eq_take.mp hpre]

theorem receiveFrame_reads :
    Safe (lossy S) (fun u u' => u'.out = u.out) (receiveFrame kDefaultMaxPayload) v (Reads S v) := by
  refine safe_bind (safe_mono (recvExact_filled kWireHeaderSize) ?_)
  rintro ⟨headerBytes, headerResult⟩ u ⟨htaken, hpre, hall, hplain⟩
  dsimp only
  split
  · next hok =>
    have hlen := hall hok
    dsimp only at hlen htaken hpre
    have hhead : (S.drop v.taken).take kWireHeaderSize = headerBytes := by
      rw [← hlen]
      exact (List.prefix_iff_eq_take.mp hpre).symm
    have hle : kWireHeaderSize ≤ (S.drop v.taken).length := hlen ▸ hpre.length_le
    split
    · next e hd => exact safe_pure (.bad (frameFront_bad hle (by rw [hhead]; exact hd)))
    · next header hd =>
      refine safe_bind (safe_mono (recvExact_filled header.payloadLength.toNat) ?_)
      rintro ⟨payload, payloadResult⟩ u' ⟨htaken', hpre', hall', hplain'⟩
      dsimp only
      split
      · next hok' =>
        have hlen' := hall' hok'
        dsimp only at hlen' htaken' hpre'
        rw [htaken, hlen, ← List.drop_drop] at hpre'
        refine safe_pure (.frame (frameFront_pieces (by rw [hhead]; exact hd) hle hpre' hlen') ?_)
        omega
      · next hok' => exact safe_pure (reads_failed hplain' hok' kWireHeaderSize u')
  · next hok => exact safe_pure (reads_failed hplain hok 0 u)

/-- The callers get the result that `receive_frame` returned. -/
theorem Reads.answered {r : Except FrameIoResult Frame} {u : Port UInt8} (h : Reads S v r u) :
    receiveOutcome (receiveAnswer r) = r := by
  cases h with
  | frame h htaken =>
    have hv : Frame.Valid _ := (frameFront_bytes h).1
    simp only [receiveAnswer, dif_pos hv, receiveOutcome]
  | bad h => rfl
  | @failed failure u => cases failure <;> rfl

/-- `receive_frame`, answering as a receive. -/
def receiveWire : Io (Except ReceiveFailure WireFrame) := do
  let r ← receiveFrame kDefaultMaxPayload
  pure (receiveAnswer r)

/-- `receive_frame` found an invalid header at the front of the stream. -/
def Invalid (e : ReceiveFailure) (s : List UInt8) : Prop :=
  ∃ error, e = .invalidHeader error ∧ frameFront kDefaultMaxPayload s = .bad error

/-- A stream that holds frames, or a piece of one, does not have an invalid header at its front. -/
theorem not_readable_of_invalid {e : ReceiveFailure} {s : List UInt8} (h : Invalid e s) :
    ¬ Readable (fun f : WireFrame => f.1.bytes) s := by
  obtain ⟨error, -, hbad⟩ := h
  intro h
  rcases h with rfl | ⟨f, ⟨t, rfl⟩ | ⟨t, ht⟩⟩
  · cases hbad
  · have := encodes_of_valid f.2 t
    rw [front_frameFormat, hbad] at this
    cases this
  · have := encodes_of_valid f.2 []
    rw [List.append_nil, ← show s ++ t = f.1.bytes from ht, front_frameFormat,
      frameFront_append t (by rw [hbad]; simp), hbad] at this
    cases this

theorem receiveWire_receives {v' : Port UInt8} {q : Io (Except ReceiveFailure WireFrame)}
    (hr : Reach (lossy S) (receiveWire, v) (q, v')) : v'.out = v.out ∧
      (∀ f : WireFrame, q = .pure (.ok f) → f.1.bytes <+: S.drop v.taken ∧ v'.taken = v.taken + f.1.bytes.length) ∧
      ∀ e, q = .pure (.error e) → closed e ∨ Invalid e (S.drop v.taken) := by
  have hsafe : Safe (lossy S) (fun u u' => u'.out = u.out) receiveWire v fun r u =>
      ∃ r', Reads S v r' u ∧ r = receiveAnswer r' :=
    safe_bind (safe_mono receiveFrame_reads fun r u hreads => safe_pure ⟨r, hreads, rfl⟩)
  refine ⟨hsafe.reach (fun u => u.out = v.out) rfl (fun u u' hu hs => hs.trans hu) hr, ?_, ?_⟩
  · rintro f rfl
    obtain ⟨r, hreads, hans⟩ := hsafe.result hr
    cases hreads with
    | @frame f' n _ hfront htaken =>
      obtain ⟨hv, hbytes⟩ := frameFront_bytes hfront
      have hv' : Frame.Valid f' := hv
      rw [receiveAnswer, dif_pos hv'] at hans
      cases hans
      have hn := (frameFront_item hfront).2
      refine ⟨hbytes ▸ List.take_prefix _ _, ?_⟩
      rw [htaken, ← hbytes, List.length_take, Nat.min_eq_left hn]
    | bad hfront => cases hans
    | @failed failure u => cases failure <;> cases hans
  · rintro e rfl
    obtain ⟨r, hreads, hans⟩ := hsafe.result hr
    cases hreads with
    | frame hfront htaken =>
      have hv' : Frame.Valid _ := (frameFront_bytes hfront).1
      rw [receiveAnswer, dif_pos hv'] at hans
      cases hans
    | bad hfront =>
      cases hans
      exact .inr ⟨_, rfl, hfront⟩
    | @failed failure u =>
      cases failure with
      | peerClosed n => cases hans; exact .inl ⟨_, rfl⟩
      | systemError n e => cases hans; exact .inl ⟨_, rfl⟩

end Receiving

theorem bytes_free {f g : WireFrame} {s t : List UInt8} (h : f.1.bytes ++ s = g.1.bytes ++ t) : f = g := by
  have hf := encodes_of_valid f.2 s
  rw [h, encodes_of_valid g.2 t] at hf
  rw [Front.item.injEq] at hf
  exact Subtype.ext hf.1.symm

theorem bytes_ne (f : WireFrame) : f.1.bytes ≠ [] := by
  intro h
  have := congrArg List.length h
  rw [f.1.length_bytes, List.length_nil, kWireHeaderSize] at this
  omega

theorem receiveWire_acts (r : Except ReceiveFailure WireFrame) : receiveWire ≠ .pure r := by
  intro h
  cases h

/-- **Frames over a socket.** -/
def sockets : Carrier net UInt8 where
  code f := f.1.bytes
  sendMsg := sendWire
  recvMsg := receiveWire
  lost := closed
  bad := Invalid
  bad_unreadable := fun h => not_readable_of_invalid h
  code_ne := bytes_ne
  code_free := bytes_free
  send_acts := sendWire_acts
  recv_acts := receiveWire_acts
  sends := sendWire_sends
  receives := receiveWire_receives

end Socket

open Socket Authentication

/-! ## A connection that has failed -/

/-- **The connection is abandoned.**  Whatever the peer sends and whatever fails: once a client or any session of
the server could not send or receive a frame, or found a header invalid, it sends and receives nothing more on that
connection. -/
theorem channel_abandoned (cr : Crypto) (command : Command) (secret : List UInt8) (requestId : UInt64)
    (root : Path) (host : Host) :
    (∀ x, Reach (solo (exec cr) anyAnswer) (runOnce command secret requestId, ⟨host, []⟩) x → Abandoned x.2.log) ∧
      ∀ (ι : Type) [DecidableEq ι] (s : Pool ι net Host ClientSessionResult), ServerRuns cr root secret host s →
        ∀ i, Abandoned (s.log i) := by
  refine ⟨fun x hr => abandoned_reach (Session.runOnce_polite command secret requestId).along hr,
    fun ι _ s hr i => ?_⟩
  obtain ⟨h, p, w, halone, hlog⟩ := hr.ordered.alone i
  rw [← hlog]
  exact abandoned_reach (Session.serveClientSession_polite root secret).along halone

/-- The session of a client that is gone after its chunk. -/
def sampleDropped : Pool Nat net Host ClientSessionResult :=
  (serverStart sampleRoot sampleAuthKey Nat sampleHost).play
    (fun _ => drive sampleCrypto (sampleConnection.take 3)) (exec sampleCrypto) (List.replicate 60 0)

theorem sampleDropped_runs : ServerRuns sampleCrypto sampleRoot sampleAuthKey sampleHost sampleDropped :=
  Pool.runs_play (fun _ _ _ _ => trivial) _ _

/-- The server still makes the part file durable.  The client here hears nothing from its server. -/
theorem sampleDropped_abandoned :
    (∃ e ∈ sampleDropped.log 0, e.failed = true) ∧
      ((sampleDropped.log 0).getLast?.map fun e => e.isNet) = some false ∧ Abandoned (sampleDropped.log 0) ∧
      Abandoned (runAgainst sampleCrypto [] 9 (runOnce .ping sampleAuthKey 7) ⟨sampleHost, []⟩).2.log := by
  have habandoned := channel_abandoned sampleCrypto .ping sampleAuthKey 7 sampleRoot sampleHost
  exact ⟨by decide +kernel, by decide +kernel, habandoned.2 Nat sampleDropped sampleDropped_runs 0,
    habandoned.1 _ (reach_runAgainst _ _ _ _ _)⟩

/-! ## Any stream -/

/-- What a process over bytes has in common with one over frames: the host, the result, and on its stream the
frames that were sent, with perhaps a piece of another. -/
structure Shows {α : Type} (x : Side net Host α) (X : Prog (Bytes net UInt8) α × Station Host UInt8) : Prop where
  host : X.2.host = x.2.host
  returned : ∀ a, X.1 = .pure a → x.1 = .pure a
  stream : ∃ part, X.2.port.out = (delivered x.2.log).flatMap (fun f => f.1.bytes) ++ part ∧
    (part = [] ∨ ∃ f : WireFrame, part <+: f.1.bytes ∧ part ≠ f.1.bytes)

theorem shows_of_follows {α : Type} {S : List UInt8} {x : Side net Host α}
    {X : Prog (Bytes net UInt8) α × Station Host UInt8} (h : sockets.Follows S x X) : Shows x X :=
  ⟨h.host, fun _ ha => h.returned ha, h.leaves⟩

/-- What was received of the stream `S` is what there is to parse: the frames at its front, in their order, and
where a header was found invalid is where, and why, the parsing of `S` ends. -/
structure Parses (S : List UInt8) (log : List net.Event) : Prop where
  frames : (received log).map (·.1) <+: ((frameFormat kDefaultMaxPayload).parse S).items
  invalid : ∀ error, ⟨.recv, .error (.invalidHeader error)⟩ ∈ log →
    ((frameFormat kDefaultMaxPayload).parse S).items = (received log).map (·.1) ∧
      ((frameFormat kDefaultMaxPayload).parse S).error = some error

theorem parses_of_blames {S : List UInt8} {log : List net.Event}
    (hfront : (received log).flatMap sockets.code <+: S) (hblames : sockets.Blames S log) : Parses S log := by
  obtain ⟨t, rfl⟩ := hfront
  have hbytes : (received log).flatMap sockets.code = ((received log).map (·.1)).flatMap Frame.bytes := by
    rw [List.flatMap_map]
    rfl
  have hencodes : ∀ f ∈ (received log).map (·.1), (frameFormat kDefaultMaxPayload).Encodes f f.bytes := by
    intro f hf
    obtain ⟨m, -, rfl⟩ := List.mem_map.mp hf
    exact encodes_of_valid m.2
  have hparse := Format.parse_flatMap _ hencodes t
  refine ⟨?_, fun error he => ?_⟩
  · rw [hbytes, hparse]
    exact List.prefix_append _ _
  · rcases hblames _ he with ⟨failure, hc⟩ | ⟨error', hc, hbad⟩
    · cases hc
    · cases hc
      rw [List.drop_left] at hbad
      rw [hbytes, hparse, Format.parse_bad hbad]
      exact ⟨List.append_nil _, rfl⟩

theorem parsed_of_polite {α : Type} {first : Bool} {p : Sys α} {Q : α → List net.Event → Prop}
    (hp : Along chat (Polite first) p [] Q) {cr : Crypto} {host : Host} {S : List UInt8}
    {X : Prog (Bytes net UInt8) α × Station Host UInt8}
    (hr : Reach (wired (exec cr) S) (sockets.carried p, ⟨host, {}⟩) X) :
    ∃ x, Reach (solo (exec cr) anyAnswer) (p, ⟨host, []⟩) x ∧ Shows x X ∧ Parses S x.2.log := by
  obtain ⟨x, hrun, hF, hfront, hblames⟩ := carried_reads hp hr
  have hany : ∀ log o r, sockets.reads S log o r → anyAnswer log o r := fun _ _ _ _ => trivial
  exact ⟨x, reach_mono hany hrun, shows_of_follows hF, parses_of_blames hfront hblames⟩

/-- **Any stream.**  Whatever bytes come in, in whatever pieces: what a client or a session of the server does is
what it can do when it receives the frames at the front of the stream, one by one; an invalid header is found where
they end.  No other bytes have any effect. -/
theorem any_stream_parsed (cr : Crypto) (command : Command) (secret : List UInt8) (requestId : UInt64)
    (root : Path) (host : Host) (S : List UInt8) :
    (∀ X, Reach (wired (exec cr) S) (sockets.carried (runOnce command secret requestId), ⟨host, {}⟩) X →
      ∃ x, Reach (solo (exec cr) anyAnswer) (runOnce command secret requestId, ⟨host, []⟩) x ∧ Shows x X ∧
        Parses S x.2.log) ∧
    ∀ Y, Reach (wired (exec cr) S) (sockets.carried (serveClientSession root secret), ⟨host, {}⟩) Y →
      ∃ y, Reach (solo (exec cr) anyAnswer) (serveClientSession root secret, ⟨host, []⟩) y ∧ Shows y Y ∧
        Parses S y.2.log :=
  ⟨fun _ hr => parsed_of_polite (Session.runOnce_polite command secret requestId).along hr,
    fun _ hr => parsed_of_polite (Session.serveClientSession_polite root secret).along hr⟩

/-- A client that proves who it is, and then sends zeros. -/
def sampleNoise : List UInt8 := (makeAuthFrame .authProof (List.replicate 64 0)).bytes ++ List.replicate 40 0

/-- A process on that stream, seven bytes at a time. -/
def sampleNoisy {α : Type} (n : Nat) (p : Sys α) : Prog (Bytes net UInt8) α × Station Host UInt8 :=
  wireRun (exec sampleCrypto) (answer sampleCrypto) 7 sampleNoise n (sockets.carried p, ⟨sampleHost, {}⟩)

/-- The server, and a client that takes the proof for a challenge. -/
theorem sampleNoisy_parsed :
    ((sampleNoisy 200 (serveClientSession sampleRoot sampleAuthKey)).1.result?.map fun r =>
      (r.status, r.frameIo.status)) = some (.frameIoError, .invalidHeader) ∧
    (∃ x, Reach (solo (exec sampleCrypto) anyAnswer) (runOnce .ping sampleAuthKey 7, ⟨sampleHost, []⟩) x ∧
      Shows x (sampleNoisy 200 (runOnce .ping sampleAuthKey 7)) ∧ Parses sampleNoise x.2.log) ∧
    ∃ y, Reach (solo (exec sampleCrypto) anyAnswer)
      (serveClientSession sampleRoot sampleAuthKey, ⟨sampleHost, []⟩) y ∧
      Shows y (sampleNoisy 200 (serveClientSession sampleRoot sampleAuthKey)) ∧ Parses sampleNoise y.2.log := by
  have hany := any_stream_parsed sampleCrypto .ping sampleAuthKey 7 sampleRoot sampleHost sampleNoise
  exact ⟨by decide +kernel, hany.1 _ (reach_wireRun _ _ _ _ _), hany.2 _ (reach_wireRun _ _ _ _ _)⟩

/-! ## Both sides -/

section
variable {cr : Crypto} {command : Command} {clientSecret serverSecret : List UInt8} {requestId : UInt64}
  {root : Path} {client server : Host}

/-- One attempt of a client over a socket, connected to one session of a server. -/
abbrev OverBytes (cr : Crypto) (command : Command) (clientSecret : List UInt8) (requestId : UInt64) (root : Path)
    (serverSecret : List UInt8) (client server : Host) (X : Prog (Bytes net UInt8) Attempt × Station Host UInt8)
    (Y : Prog (Bytes net UInt8) ClientSessionResult × Station Host UInt8) : Prop :=
  WReach (exec cr) ((sockets.carried (runOnce command clientSecret requestId), ⟨client, {}⟩),
    (sockets.carried (serveClientSession root serverSecret), ⟨server, {}⟩)) (X, Y)

/-- What the two processes do over bytes they can do over frames. -/
theorem OverBytes.joined {X : Prog (Bytes net UInt8) Attempt × Station Host UInt8}
    {Y : Prog (Bytes net UInt8) ClientSessionResult × Station Host UInt8}
    (hr : OverBytes cr command clientSecret requestId root serverSecret client server X Y) :
    ∃ x y, JReach (exec cr) (ending closed) (ending closed)
        ((runOnce command clientSecret requestId, ⟨client, []⟩),
          (serveClientSession root serverSecret, ⟨server, []⟩))
        (x, y) ∧ sockets.Joined x y X Y :=
  carried_refines (Session.runOnce_polite command clientSecret requestId).along
    (Session.serveClientSession_polite root serverSecret).along hr

variable {X : Prog (Bytes net UInt8) Attempt × Station Host UInt8}
  {Y : Prog (Bytes net UInt8) ClientSessionResult × Station Host UInt8}

/-- **Frames over bytes.**  Whatever a client's attempt and a session of the server do over sockets, however their
sends and receives are split, interrupted and cut off, they can do when frames are sent and received in one step:
with the same disks, the same results and these frames on the streams.  No header is ever found invalid. -/
theorem session_over_bytes (hr : OverBytes cr command clientSecret requestId root serverSecret client server X Y) :
    ∃ x y, JReach (exec cr) (ending closed) (ending closed)
        ((runOnce command clientSecret requestId, ⟨client, []⟩),
          (serveClientSession root serverSecret, ⟨server, []⟩))
        (x, y) ∧ Shows x X ∧ Shows y Y := by
  obtain ⟨x, y, hrun, J⟩ := OverBytes.joined hr
  exact ⟨x, y, hrun, shows_of_follows J.left, shows_of_follows J.right⟩

/-- The bytes of the frame are on the stream, in one piece. -/
def OnStream (out : List UInt8) (f : WireFrame) : Prop := ∃ before after, out = before ++ f.1.bytes ++ after

theorem onStream_of_delivered {α : Type} {x : Side net Host α} {X : Prog (Bytes net UInt8) α × Station Host UInt8}
    (h : Shows x X) {f : WireFrame} (hf : f ∈ delivered x.2.log) : OnStream X.2.port.out f := by
  obtain ⟨part, hout, -⟩ := h.stream
  obtain ⟨l, l', he⟩ := List.append_of_mem hf
  rw [he, List.flatMap_append, List.flatMap_cons] at hout
  exact ⟨l.flatMap fun f => f.1.bytes, (l'.flatMap fun f => f.1.bytes) ++ part, by rw [hout]; simp⟩

/-- **Exit code 0 over bytes.**  An attempt of a client that was to bring these files has ended with exit code 0,
over a socket that may have done anything to its bytes but change them.  Then each file is on the server's disk
with its size and checksum, or a complete one that the client's stream declared for its place.  The server's root
is spelled without symbolic links above it (`Plain`). -/
theorem stored_over_bytes {records : List FileRecord} (hroot : server.fs.Plain root)
    (hwants : command.Wants client records)
    (hr : OverBytes cr command clientSecret requestId root serverSecret client server X Y) {a : Attempt}
    (ha : X.1 = .pure a) (hcode : a.code = 0) :
    ∀ record ∈ records, Kept root (OnStream X.2.port.out) Y.2.host.fs record := by
  obtain ⟨x, y, hrun, J⟩ := OverBytes.joined hr
  have hshows := shows_of_follows J.left
  obtain ⟨px, w⟩ := x
  obtain rfl : px = .pure a := hshows.returned a ha
  have hany : ∀ log o r, ending closed log o r → anyAnswer log o r := fun _ _ _ _ => trivial
  have hclient := reach_mono hany hrun.left
  have hserver := reach_mono hany hrun.right
  rcases (runOnce_confirms hwants).result hclient hcode with rfl | ⟨f, hf, type, hreport, honly⟩
  · exact fun record hrecord => absurd hrecord List.not_mem_nil
  · have hframes : ∀ f ∈ received y.2.log, OnStream X.2.port.out f := fun f hf =>
      onStream_of_delivered hshows (J.heardRight.subset hf)
    have htrue := truthful_alone hroot hserver hframes
    obtain ⟨request, hrequest, ht, -, asked, hasked, hkept⟩ :=
      htrue f (J.kemptRight.isPrefix.subset (J.heardLeft.subset hf)) type hreport
    rw [honly request (J.kemptLeft.isPrefix.subset (J.heardRight.subset hrequest)) ht asked hasked] at hkept
    rw [J.right.host]
    exact hkept

end

/-! The three bytes of the samples, uploaded 24 bytes at a time.  The client returns while the server's
`send_frame` is still to find out that it has sent everything. -/

section

/-- The client and the server there. -/
def sampleBytes (n : Nat) : (Prog (Bytes net UInt8) Attempt × Station Host UInt8) ×
    (Prog (Bytes net UInt8) ClientSessionResult × Station Host UInt8) :=
  wires (exec sampleCrypto) (answer sampleCrypto) 24 n
    ((sockets.carried (runOnce (.upload [bytesOf "s"] (bytesOf "a")) sampleAuthKey 7), ⟨sampleSourceHost, {}⟩),
      (sockets.carried (serveClientSession sampleRoot sampleAuthKey), ⟨sampleHost, {}⟩))

theorem sampleBytes_runs (n : Nat) : OverBytes sampleCrypto (.upload [bytesOf "s"] (bytesOf "a")) sampleAuthKey 7
    sampleRoot sampleAuthKey sampleSourceHost sampleHost (sampleBytes n).1 (sampleBytes n).2 :=
  wreach_wires _ _ _ _ _

theorem sampleBytes_result : (sampleBytes 194).1.1.result? = some {} := by decide +kernel

theorem sampleBytes_refined : (sampleBytes 194).1.1 = .pure {} ∧ (sampleBytes 194).2.1.result? = none ∧
    ∃ x y, JReach (exec sampleCrypto) (ending closed) (ending closed)
      ((runOnce (.upload [bytesOf "s"] (bytesOf "a")) sampleAuthKey 7, ⟨sampleSourceHost, []⟩),
        (serveClientSession sampleRoot sampleAuthKey, ⟨sampleHost, []⟩)) (x, y) ∧
      Shows x (sampleBytes 194).1 ∧ Shows y (sampleBytes 194).2 :=
  ⟨Prog.eq_pure_of_result? sampleBytes_result, by decide +kernel, session_over_bytes (sampleBytes_runs 194)⟩

theorem sampleBytes_stored : Kept sampleRoot (OnStream (sampleBytes 194).1.2.port.out)
    (sampleBytes 194).2.2.host.fs
    ⟨bytesOf "a", 3, 891568578⟩ := by
  have hwants : (Command.upload [bytesOf "s"] (bytesOf "a")).Wants sampleSourceHost
    [⟨bytesOf "a", 3, 891568578⟩] :=
    ⟨_, source_sampleSourceHost, by decide +kernel⟩
  exact stored_over_bytes sampleRoot_plain hwants (sampleBytes_runs 194)
    (Prog.eq_pure_of_result? sampleBytes_result)
    rfl _ (List.mem_singleton_self _)

end

end SyncWire
