import SyncWire.Lib.Pipe
import SyncWire.FrameIo
import SyncWire.FrameParser

/-!
# Frames as bytes (`socket_io.cpp`, `frame_io.cpp`)

`sendAll` and `recvExact` loop over partial transfers; `Socket.sendFrame` and
`Socket.receiveFrame` are built on them.  `receiveFrames` calls `receiveFrame` until it
fails; `sendFrames` sends one frame after the other until one fails in transit.

* `receiveFrame_total`: `receiveFrame` reads what stands at the front of the stream.
* `receiveFrames_total`: so successive calls read what the reference parser reads.
* `sendFrames_total`: what is on the stream after any sending (`Sends`).

The rest of the development uses frames as messages (`FrameIo`); `frames_transported` is
what that rests on.
-/

namespace SyncWire

open Wire Effect Stream Posix.Fs

namespace Socket

/-! ## `socket_io.cpp` -/

inductive IoStatus
  | complete | peerClosed | systemError
deriving DecidableEq

structure IoResult where
  status : IoStatus := .complete
  transferred : Nat := 0
  systemError : Nat := 0
deriving DecidableEq

def IoResult.ok (r : IoResult) : Bool := r.status == .complete

/-- A program over the two socket calls. -/
abbrev Io := Prog (pipe UInt8)

def send (data : List UInt8) : Io (Except Nat Nat) := Prog.call (S := pipe UInt8) (.send data)

def recv (n : Nat) : Io (Except Nat (List UInt8)) := Prog.call (S := pipe UInt8) (.recv n)

def sendAll (bytes : List UInt8) : Io IoResult :=
  Prog.iter (fun sent : Nat =>
    if sent < bytes.length then do
      match ← send (bytes.drop sent) with
      | .ok result =>
        if result > 0 then pure (.inl (sent + result))
        else pure (.inr { status := .peerClosed, transferred := sent })
      | .error errno =>
        if errno = EINTR then pure (.inl sent)
        else pure (.inr { status := .systemError, transferred := sent, systemError := errno })
    else pure (.inr { status := .complete, transferred := sent })) 0

/-- The bytes that were filled in, and the result. -/
def recvExact (size : Nat) : Io (List UInt8 × IoResult) :=
  Prog.iter (fun bytes : List UInt8 =>
    if bytes.length < size then do
      match ← recv (size - bytes.length) with
      | .ok data =>
        if data.length > 0 then pure (.inl (bytes ++ data))
        else pure (.inr (bytes, { status := .peerClosed, transferred := bytes.length }))
      | .error errno =>
        if errno = EINTR then pure (.inl bytes)
        else pure (.inr (bytes, { status := .systemError, transferred := bytes.length, systemError := errno }))
    else pure (.inr (bytes, { status := .complete, transferred := bytes.length }))) []

/-! ## `frame_io.cpp` -/

def fromIoResult (result : IoResult) (before : Nat) : FrameIoResult where
  status :=
    match result.status with
    | .peerClosed => .peerClosed
    | .systemError => .systemError
    | .complete => .complete
  transferred := before + result.transferred
  systemError := result.systemError

def sendFrame (frame : Frame) : Io FrameIoResult :=
  if frame.payload.length ≠ frame.header.payloadLength.toNat then pure { status := .invalidFrame }
  else
    let encodedHeader := encodeHeader frame.header
    match decodeHeader (.of encodedHeader) kDefaultMaxPayload with
    | .error error => pure { status := .invalidFrame, codecError := some error }
    | .ok _ => do
      let headerResult ← sendAll encodedHeader
      if headerResult.ok then
        let payloadResult ← sendAll frame.payload
        if payloadResult.ok then
          pure { status := .complete, transferred := kWireHeaderSize + frame.payload.length }
        else pure (fromIoResult payloadResult kWireHeaderSize)
      else pure (fromIoResult headerResult 0)

def receiveFrame (maxPayload : UInt32) : Io (Except FrameIoResult Frame) := do
  let (headerBytes, headerResult) ← recvExact kWireHeaderSize
  if headerResult.ok then
    match decodeHeader (.of headerBytes) maxPayload with
    | .error error =>
      pure (.error { status := .invalidHeader, transferred := kWireHeaderSize, codecError := some error })
    | .ok header =>
      let (payload, payloadResult) ← recvExact header.payloadLength.toNat
      if payloadResult.ok then pure (.ok { header, payload })
      else pure (.error (fromIoResult payloadResult kWireHeaderSize))
  else pure (.error (fromIoResult headerResult 0))

/-! ## Successive calls -/

/-- `receive_frame` until it fails: the frames, and the failure. -/
def receiveFrames (maxPayload : UInt32) : Io (List Frame × FrameIoResult) :=
  Prog.iter (fun frames : List Frame => do
    match ← receiveFrame maxPayload with
    | .ok frame => pure (.inl (frames ++ [frame]))
    | .error failure => pure (.inr (frames, failure))) []

/-- `send_frame` for one frame after the other; a failure other than `InvalidFrame` ends it. -/
def sendFrames : List Frame → Io (List (Frame × FrameIoResult))
  | [] => pure []
  | frame :: frames => do
    let result ← sendFrame frame
    if result.ok ∨ result.status = .invalidFrame then
      let results ← sendFrames frames
      pure ((frame, result) :: results)
    else pure [(frame, result)]

/-- At most `calls` calls of `receive_frame`; a failure ends it. -/
def receiveUpTo (maxPayload : UInt32) : (calls : Nat) → Io (List Frame)
  | 0 => pure []
  | calls + 1 => do
    match ← receiveFrame maxPayload with
    | .error _ => pure []
    | .ok frame =>
      let frames ← receiveUpTo maxPayload calls
      pure (frame :: frames)

/-! ## Receiving -/

section Receiving
variable {S : List UInt8} {v : Reader} {maxPayload : UInt32}

theorem recvExact_total (size : Nat) {Q : List UInt8 × IoResult → Reader → Prop}
    (hok : size ≤ (S.drop v.taken).length → ∀ signals,
      Q ((S.drop v.taken).take size, { transferred := size }) ⟨v.taken + size, signals⟩)
    (hend : (S.drop v.taken).length < size → ∀ v', Q (S.drop v.taken,
      { status := .peerClosed, transferred := (S.drop v.taken).length }) v') :
    Total (recvSem S True) (recvExact size) v Q := by
  -- what is there so far is the front of the stream; a turn takes more of it or a signal
  refine total_iter (fun bytes v' => bytes <+: S.drop v.taken ∧ bytes.length ≤ size ∧
    v'.taken = v.taken + bytes.length) (fun bytes v' => size - bytes.length + v'.signals) ?_
    ⟨List.nil_prefix, Nat.zero_le _, rfl⟩
  rintro bytes ⟨taken, signals⟩ ⟨hpre, hle, htaken⟩
  obtain rfl : taken = v.taken + bytes.length := htaken
  obtain ⟨rest, hrest⟩ := hpre
  have hdrop : S.drop (v.taken + bytes.length) = rest := by
    rw [← List.drop_drop, ← hrest, List.drop_left]
  split
  · next hlt =>
    refine total_recv (by omega) (fun d hne hd hlen => ?_) (fun hge => ?_) fun hpos => ?_
    · rw [hdrop] at hd
      have hpos := List.length_pos_iff.mpr hne
      obtain ⟨t, rfl⟩ := hd
      simp only [gt_iff_lt, if_pos hpos]
      refine total_pure ⟨⟨⟨t, by rw [← hrest, List.append_assoc]⟩, ?_, ?_⟩, ?_⟩ <;>
        simp only [List.length_append] <;> omega
    · have hnil : rest = [] := by
        rw [← hdrop]
        exact List.drop_eq_nil_of_le hge
      rw [hnil, List.append_nil] at hrest
      simp only [List.length_nil, gt_iff_lt, Nat.lt_irrefl, if_false]
      refine total_pure ?_
      have := hend (by rw [← hrest]; exact hlt) ⟨v.taken + bytes.length, signals⟩
      rwa [← hrest] at this
    · simp only [if_true]
      refine total_pure ⟨⟨⟨rest, hrest⟩, hle, rfl⟩, ?_⟩
      simp only
      exact Nat.add_lt_add_left (Nat.sub_lt hpos Nat.one_pos) _
  · next hge =>
    refine total_pure ?_
    obtain rfl : size = bytes.length := by omega
    have := hok (by rw [← hrest, List.length_append]; omega) signals
    rwa [← hrest, List.take_left] at this

/-- **Receiving a frame** reads what stands at the front of the stream. -/
theorem receiveFrame_total {Q : Except FrameIoResult Frame → Reader → Prop}
    (hitem : ∀ f n signals, frameFront maxPayload (S.drop v.taken) = .item f n →
      Q (.ok f) ⟨v.taken + n, signals⟩)
    (hbad : ∀ e v', frameFront maxPayload (S.drop v.taken) = .bad e →
      Q (.error { status := .invalidHeader, transferred := kWireHeaderSize, codecError := some e }) v')
    (hmore : ∀ v', frameFront maxPayload (S.drop v.taken) = .more →
      Q (.error { status := .peerClosed, transferred := (S.drop v.taken).length }) v') :
    Total (recvSem S True) (receiveFrame maxPayload) v Q := by
  refine total_bind (recvExact_total kWireHeaderSize (fun hle signals => ?_) fun hlt v' => ?_)
  · simp only [IoResult.ok, beq_self_eq_true, if_true]
    cases hd : decodeHeader (.of ((S.drop v.taken).take kWireHeaderSize)) maxPayload with
    | error e => exact total_pure (hbad e _ (frameFront_bad hle hd))
    | ok header =>
      have hdd : (S.drop v.taken).drop kWireHeaderSize = S.drop (v.taken + kWireHeaderSize) :=
        List.drop_drop
      refine total_bind (recvExact_total _ (fun hle' signals' => ?_) fun hlt' v' => ?_)
      · rw [← hdd, List.length_drop] at hle'
        have := hitem _ _ signals' (frameFront_whole hd (by omega))
        rw [List.drop_take, Nat.add_sub_cancel_left] at this
        rw [← hdd, Nat.add_assoc]
        exact total_pure this
      · rw [← hdd, List.length_drop] at hlt'
        have := hmore v' (frameFront_cut hle hd (by omega))
        refine total_pure ?_
        rw [← hdd, List.length_drop]
        have hsum : kWireHeaderSize + ((S.drop v.taken).length - kWireHeaderSize) = (S.drop v.taken).length := by
          omega
        simpa only [fromIoResult, hsum] using this
  · refine total_pure ?_
    have := hmore v' (frameFront_short hlt)
    simpa only [fromIoResult, Nat.zero_add] using this

/-- What stopped the reading of a stream, as `receive_frame` reports it. -/
def failureOf (r : Parsed UInt8 Frame CodecError) : FrameIoResult :=
  match r.error with
  | some e => { status := .invalidHeader, transferred := kWireHeaderSize, codecError := some e }
  | none => { status := .peerClosed, transferred := r.rest.length }

/-- **Successive calls** read what the reference parser reads. -/
theorem receiveFrames_total (maxPayload : UInt32) (S : List UInt8) (signals : Nat) :
    Total (recvSem S True) (receiveFrames maxPayload) ⟨0, signals⟩ fun r _ =>
      r = (((frameFormat maxPayload).parse S).items, failureOf ((frameFormat maxPayload).parse S)) := by
  refine total_iter (fun frames v => v.taken ≤ S.length ∧ (frameFormat maxPayload).parse S =
    ⟨frames ++ ((frameFormat maxPayload).parse (S.drop v.taken)).items,
      ((frameFormat maxPayload).parse (S.drop v.taken)).error,
      ((frameFormat maxPayload).parse (S.drop v.taken)).rest⟩)
    (fun _ v => S.length - v.taken) ?_ ⟨Nat.zero_le _, rfl⟩
  rintro frames v ⟨hv, hparse⟩
  refine total_bind (receiveFrame_total (fun f n s h => ?_) (fun e v' h => ?_) fun v' h => ?_)
  · have h1 := (frameFront_item h).2
    have h2 := (frameFormat maxPayload).item_pos h
    rw [Format.parse_item (s := S.drop v.taken) h, List.drop_drop] at hparse
    rw [List.length_drop] at h1
    refine total_pure ⟨⟨?_, ?_⟩, ?_⟩
    · simp only; omega
    · rw [hparse]; simp
    · simp only; omega
  · rw [Format.parse_bad (s := S.drop v.taken) h] at hparse
    refine total_pure ?_
    rw [hparse]
    simp [failureOf]
  · rw [Format.parse_more (s := S.drop v.taken) h] at hparse
    refine total_pure ?_
    rw [hparse]
    simp [failureOf]

/-- The first frames of the stream. -/
theorem receiveUpTo_total (maxPayload : UInt32) (calls : Nat) (S : List UInt8) (v : Reader) :
    Total (recvSem S True) (receiveUpTo maxPayload calls) v fun frames _ =>
      frames <+: ((frameFormat maxPayload).parse (S.drop v.taken)).items := by
  induction calls generalizing v with
  | zero => exact total_pure List.nil_prefix
  | succ calls ih =>
    refine total_bind (receiveFrame_total (fun f n s h => ?_) (fun e v' _ => total_pure List.nil_prefix)
      fun v' _ => total_pure List.nil_prefix)
    refine total_bind (total_mono (ih _) fun frames _ hpre => total_pure ?_)
    rw [Format.parse_item (s := S.drop v.taken) h, List.drop_drop]
    exact List.cons_prefix_cons.mpr ⟨rfl, hpre⟩

end Receiving

/-! ## Sending -/

section Sending
variable {w : Writer UInt8}

/-- Some of the bytes are put on the stream, from the front; all of them exactly if it succeeds. -/
theorem sendAll_total (bytes : List UInt8) {Q : IoResult → Writer UInt8 → Prop}
    (hQ : ∀ r k signals, k ≤ bytes.length → r.transferred = k → (r.ok = true ↔ k = bytes.length) →
      Q r ⟨w.stream ++ bytes.take k, signals⟩) : Total sendSem (sendAll bytes) w Q := by
  refine total_iter (fun sent w' => sent ≤ bytes.length ∧ w'.stream = w.stream ++ bytes.take sent)
    (fun sent w' => bytes.length - sent + w'.signals) ?_ ⟨Nat.zero_le _, by simp⟩
  rintro sent ⟨stream, signals⟩ ⟨hle, hstream⟩
  obtain rfl : stream = w.stream ++ bytes.take sent := hstream
  split
  · next hlt =>
    refine total_send (fun n hn => ?_) (fun hpos => ?_) fun errno hne => ?_
    · rw [List.length_drop] at hn
      by_cases hpos : n > 0
      · simp only [if_pos hpos]
        refine total_pure ⟨⟨by omega, ?_⟩, ?_⟩
        · rw [List.append_assoc, List.take_add]
        · simp only; omega
      · obtain rfl : n = 0 := by omega
        simp only [gt_iff_lt, Nat.lt_irrefl, if_false, List.take_zero, List.append_nil]
        exact total_pure (hQ _ sent signals hle rfl (by simp [IoResult.ok]; omega))
    · simp only [if_true]
      refine total_pure ⟨⟨hle, rfl⟩, ?_⟩
      simp only
      exact Nat.add_lt_add_left (Nat.sub_lt hpos Nat.one_pos) _
    · simp only [if_neg hne]
      exact total_pure (hQ _ sent signals hle rfl (by simp [IoResult.ok]; omega))
  · next hge => exact total_pure (hQ _ sent signals hle rfl (by simp [IoResult.ok]; omega))

/-- A failure of the header or the payload is not a complete frame. -/
theorem ok_fromIoResult (r : IoResult) (before : Nat) : (fromIoResult r before).ok = r.ok := by
  obtain ⟨status, transferred, systemError⟩ := r
  cases status <;> rfl

theorem fromIoResult_valid (r : IoResult) (before : Nat) : (fromIoResult r before).status ≠ .invalidFrame := by
  obtain ⟨status, transferred, systemError⟩ := r
  cases status <;> simp [fromIoResult]

/-- **Sending a valid frame.**  The result counts the bytes that were put on the stream. -/
theorem sendFrame_total {f : Frame} (hv : f.Valid) {Q : FrameIoResult → Writer UInt8 → Prop}
    (hQ : ∀ r k signals, k ≤ f.bytes.length → r.transferred = k → (r.ok = true ↔ k = f.bytes.length) →
      r.status ≠ .invalidFrame → Q r ⟨w.stream ++ f.bytes.take k, signals⟩) :
    Total sendSem (sendFrame f) w Q := by
  have hlen := f.length_bytes
  have hhead : (encodeHeader f.header).length = kWireHeaderSize := length_encodeHeader _
  rw [sendFrame, if_neg (not_not.mpr hv.1)]
  simp only [decodeHeader_encodeHeader_ok hv.2]
  refine total_bind (sendAll_total _ fun r k signals hk ht hok => ?_)
  rw [hhead] at hk hok
  by_cases hr : r.ok = true
  · rw [if_pos hr]
    obtain rfl : k = kWireHeaderSize := hok.mp hr
    rw [List.take_of_length_le (Nat.le_of_eq hhead)]
    refine total_bind (sendAll_total _ fun r' k' signals' hk' ht' hok' => ?_)
    have htake : f.bytes.take (kWireHeaderSize + k') = encodeHeader f.header ++ f.payload.take k' := by
      rw [Frame.bytes, ← hhead, List.take_length_add_append]
    have hnext : ∀ res : FrameIoResult, res.transferred = kWireHeaderSize + k' →
        (res.ok = true ↔ k' = f.payload.length) → res.status ≠ .invalidFrame →
        Q res ⟨w.stream ++ encodeHeader f.header ++ f.payload.take k', signals'⟩ := fun res h1 h2 h3 => by
      have := hQ res (kWireHeaderSize + k') signals' (by omega) h1 (by rw [h2]; omega) h3
      rwa [htake, ← List.append_assoc] at this
    by_cases hr' : r'.ok = true
    · rw [if_pos hr']
      have hk'' := hok'.mp hr'
      exact total_pure (hnext _ (by rw [hk'']) (by simpa [FrameIoResult.ok] using hk'') (by simp))
    · rw [if_neg hr']
      refine total_pure (hnext _ (by rw [fromIoResult, ht']) ?_ (fromIoResult_valid _ _))
      rw [ok_fromIoResult, hok']
  · rw [if_neg hr]
    have hlt : k < kWireHeaderSize := Nat.lt_of_le_of_ne hk fun he => hr (hok.mpr he)
    have htake : f.bytes.take k = (encodeHeader f.header).take k := by
      rw [Frame.bytes, List.take_append_of_le_length (by omega)]
    have := hQ (fromIoResult r 0) k signals (by omega) (by rw [fromIoResult, ht, Nat.zero_add])
      (by rw [ok_fromIoResult, hok]; omega) (fromIoResult_valid _ _)
    rw [htake] at this
    exact total_pure this

/-- A frame that is not valid is refused before a byte is sent. -/
theorem sendFrame_refused {f : Frame} (hv : ¬ f.Valid) {Q : FrameIoResult → Writer UInt8 → Prop}
    (hQ : ∀ r, r.status = .invalidFrame → Q r w) : Total sendSem (sendFrame f) w Q := by
  unfold sendFrame
  split
  · exact total_pure (hQ _ rfl)
  · next hp =>
    simp only
    split
    · exact total_pure (hQ _ rfl)
    · next hd => exact absurd ⟨not_not.mp hp, accepted_of_decodeHeader hd⟩ hv

/-- What `sendFrames` reports for the frames, and the bytes it puts on the stream. -/
inductive Sends : List Frame → List (Frame × FrameIoResult) → List UInt8 → Prop
  | nil : Sends [] [] []
  | complete {f : Frame} {r : FrameIoResult} {frames : List Frame} {results : List (Frame × FrameIoResult)}
      {bytes : List UInt8} (hv : f.Valid) (hr : r.ok = true) (ht : r.transferred = f.bytes.length)
      (h : Sends frames results bytes) : Sends (f :: frames) ((f, r) :: results) (f.bytes ++ bytes)
  /-- no byte of it is sent -/
  | refused {f : Frame} {r : FrameIoResult} {frames : List Frame} {results : List (Frame × FrameIoResult)}
      {bytes : List UInt8} (hv : ¬ f.Valid) (hr : r.status = .invalidFrame)
      (h : Sends frames results bytes) : Sends (f :: frames) ((f, r) :: results) bytes
  /-- the frames behind it are not sent -/
  | failed {f : Frame} {r : FrameIoResult} {frames : List Frame} (hv : f.Valid) (hr : r.ok = false)
      (hn : r.status ≠ .invalidFrame) (ht : r.transferred < f.bytes.length) :
      Sends (f :: frames) [(f, r)] (f.bytes.take r.transferred)

/-- **Sending frames**, whatever happens on the way. -/
theorem sendFrames_total (frames : List Frame) (w : Writer UInt8) :
    Total sendSem (sendFrames frames) w fun results w' =>
      ∃ bytes, Sends frames results bytes ∧ w'.stream = w.stream ++ bytes := by
  induction frames generalizing w with
  | nil => exact total_pure ⟨[], .nil, by simp⟩
  | cons f frames ih =>
    by_cases hv : f.Valid
    · refine total_bind (sendFrame_total hv fun r k signals hk ht hok hn => ?_)
      by_cases hr : r.ok = true
      · rw [if_pos (.inl hr), hok.mp hr, List.take_length]
        refine total_bind (total_mono (ih _) fun results w' ⟨bytes, hs, hw⟩ => ?_)
        exact total_pure ⟨f.bytes ++ bytes, .complete hv hr (ht.trans (hok.mp hr)) hs, by
          rw [hw, List.append_assoc]⟩
      · rw [if_neg (by simpa [hn] using hr)]
        subst ht
        refine total_pure ⟨_, .failed hv (by simpa using hr) hn ?_, rfl⟩
        exact Nat.lt_of_le_of_ne hk fun he => hr (hok.mpr he)
    · refine total_bind (sendFrame_refused hv fun r hr => ?_)
      rw [if_pos (.inr hr)]
      refine total_bind (total_mono (ih _) fun results w' ⟨bytes, hs, hw⟩ => ?_)
      exact total_pure ⟨bytes, .refused hv hr hs, hw⟩

/-- The frames whose sending completed. -/
def completed (results : List (Frame × FrameIoResult)) : List Frame :=
  (results.filter fun x => x.2.ok).map (·.1)

theorem completed_ok {f : Frame} {r : FrameIoResult} (h : r.ok = true) (results : List (Frame × FrameIoResult)) :
    completed ((f, r) :: results) = f :: completed results := by
  rw [completed, List.filter_cons_of_pos (by exact h)]
  rfl

theorem completed_not_ok {f : Frame} {r : FrameIoResult} (h : r.ok = false)
    (results : List (Frame × FrameIoResult)) : completed ((f, r) :: results) = completed results := by
  rw [completed, List.filter_cons_of_neg (by simp [h])]
  rfl

/-- Valid frames are what the receiver accepts. -/
theorem encodes_of_valid {f : Frame} (hv : f.Valid) : (frameFormat kDefaultMaxPayload).Encodes f f.bytes :=
  encodes_bytes hv

/-- The bytes of a sending are parsed into the frames that completed. -/
theorem sends_parse {frames : List Frame} {results : List (Frame × FrameIoResult)} {bytes : List UInt8}
    (h : Sends frames results bytes) :
    ((frameFormat kDefaultMaxPayload).parse bytes).items = completed results ∧
      ((frameFormat kDefaultMaxPayload).parse bytes).error = none := by
  induction h with
  | nil => rw [Format.parse_more (s := []) rfl]; exact ⟨rfl, rfl⟩
  | @complete f r frames results bytes hv hr ht h ih =>
    rw [Format.parse_encoded (encodes_of_valid hv), completed_ok hr, ih.1]
    exact ⟨rfl, ih.2⟩
  | @refused f r frames results bytes hv hr h ih =>
    rwa [completed_not_ok (by rw [FrameIoResult.ok, hr]; rfl)]
  | @failed f r frames hv hr hn ht =>
    rw [Format.parse_cut (encodes_of_valid hv) (List.take_prefix _ _) (by rw [List.length_take]; omega),
      completed_not_ok hr]
    exact ⟨rfl, rfl⟩

/-- Frames complete in their order. -/
theorem completed_isPrefix {frames : List Frame} {results : List (Frame × FrameIoResult)} {bytes : List UInt8}
    (h : Sends frames results bytes) : completed results <+: frames.filter fun f => decide f.Valid := by
  induction h with
  | nil => exact List.nil_prefix
  | complete hv hr ht h ih =>
    rw [completed_ok hr, List.filter_cons_of_pos (by simpa using hv)]
    exact List.cons_prefix_cons.mpr ⟨rfl, ih⟩
  | refused hv hr h ih =>
    rwa [completed_not_ok (by rw [FrameIoResult.ok, hr]; rfl), List.filter_cons_of_neg (by simpa using hv)]
  | failed hv hr hn ht => rw [completed_not_ok hr]; exact List.nil_prefix

/-- More bytes do not take frames away. -/
theorem items_isPrefix {s t : List UInt8} (h : s <+: t) :
    ((frameFormat kDefaultMaxPayload).parse s).items <+: ((frameFormat kDefaultMaxPayload).parse t).items := by
  obtain ⟨u, rfl⟩ := h
  rw [Format.parse_append, Parsed.extend]
  split
  · exact List.prefix_refl _
  · exact List.prefix_append _ _

/-- **At any time** the stream so far holds the first valid frames and not more than is sent. -/
theorem items_of_reach {frames : List Frame} {w : Writer UInt8} (hw : w.stream = [])
    {x : Io (List (Frame × FrameIoResult)) × Writer UInt8} (h : Reach sendSem (sendFrames frames, w) x) :
    ((frameFormat kDefaultMaxPayload).parse x.2.stream).items <+: frames.filter fun f => decide f.Valid := by
  -- carry the sending to its end; what is on the stream now is the beginning of what is there then
  obtain ⟨y, hy, results, -, bytes, hs, hst⟩ := Ends.exists_stop (Ends.reach (sendFrames_total frames w) h)
  have hpre : x.2.stream <+: y.2.stream := by
    clear hst
    induction hy with
    | refl => exact List.prefix_refl _
    | tail _ hstep ih => exact ih.trans (stream_isPrefix hstep)
  rw [hst, hw, List.nil_append] at hpre
  refine (items_isPrefix hpre).trans ?_
  rw [(sends_parse hs).1]
  exact completed_isPrefix hs

end Sending

/-! ## Sender and receiver -/

/-- **The two readers agree.**  `receive_frame` until it fails and the incremental parser give the same
frames of a stream, and the same account of what follows them. -/
theorem receiveFrames_parsed (stream : List UInt8) (maxPayload : UInt32) (signals maxBuffer : Nat)
    (hmax : kWireHeaderSize ≤ maxBuffer) (chunks : List (List UInt8)) (hc : chunks.flatten = stream)
    (hu : FrameParser.Unlimited ((FrameParser.fresh maxPayload maxBuffer hmax).feed chunks).2) :
    Total (recvSem stream True) (receiveFrames maxPayload) ⟨0, signals⟩ fun r _ =>
      let p := (FrameParser.fresh maxPayload maxBuffer hmax).feed chunks
      r.1 = FrameParser.emitted p.2 ∧
        (∀ e, (r.2.status = .invalidHeader ∧ r.2.codecError = some e) ↔ p.1.terminalError = some e) ∧
        (p.1.terminalError = none → r.2.status = .peerClosed ∧ r.2.transferred = p.1.bufferedBytes) := by
  obtain ⟨h1, h2, h3⟩ := FrameParser.feed_fresh hu
  rw [hc] at h1 h2 h3
  refine total_mono (receiveFrames_total maxPayload stream signals) ?_
  rintro _ _ rfl
  refine ⟨h1.symm, fun e => ?_, fun hn => ?_⟩
  · rw [h2, failureOf]
    split
    · next e' he => simp [he]
    · next he => simp [he]
  · rw [h2] at hn
    rw [← FrameParser.length_pending, h3 hn, failureOf, hn]
    exact ⟨rfl, rfl⟩

/-- A frame and a piece of the next. -/
theorem receiveFrames_parsed_sample :
    let f : Frame := ⟨{ payloadLength := 3 }, [1, 2, 3]⟩
    let p := (FrameParser.fresh 16 70 (by decide)).feed [f.bytes.take 7, f.bytes.drop 7 ++ f.bytes.take 33]
    Total (recvSem (f.bytes ++ f.bytes.take 33) True) (receiveFrames 16) ⟨0, 2⟩ fun r _ =>
      r.1 = FrameParser.emitted p.2 ∧
        (∀ e, (r.2.status = .invalidHeader ∧ r.2.codecError = some e) ↔ p.1.terminalError = some e) ∧
        (p.1.terminalError = none → r.2.status = .peerClosed ∧ r.2.transferred = p.1.bufferedBytes) :=
  receiveFrames_parsed _ 16 2 70 (by decide) _ (by decide) (by decide +kernel)

/-- **Frames over partial transfers.**  However sends and receives are split and interrupted, the run
ends, the bytes on the stream are accounted for (`Sends`), and exactly the frames whose sending
completed are received.  At no time has a frame been received that is not wholly on the stream. -/
theorem frames_transported (frames : List Frame) (m n : Nat) :
    Ends PipeStep
        (fun c => ∃ results received failure, c.1.1 = .pure results ∧ c.2.1 = .pure (received, failure) ∧
          Sends frames results c.1.2.stream ∧ received = completed results ∧ failure.status = .peerClosed)
        ((sendFrames frames, ⟨[], m⟩), (receiveFrames kDefaultMaxPayload, ⟨0, n⟩)) ∧
      ∀ calls c received,
        PipeReach ((sendFrames frames, ⟨[], m⟩), (receiveUpTo kDefaultMaxPayload calls, ⟨0, n⟩)) c →
        c.2.1 = .pure received →
        received <+: frames.filter (fun f => decide f.Valid) ∧ received.flatMap Frame.bytes <+: c.1.2.stream := by
  constructor
  · refine (pipe_ends (sendFrames_total frames ⟨[], m⟩) fun S =>
      receiveFrames_total kDefaultMaxPayload S n).mono ?_
    rintro c ⟨results, r, hs, hr, ⟨bytes, hsends, hstream⟩, rfl⟩
    rw [List.nil_append] at hstream
    obtain ⟨hitems, herror⟩ := sends_parse hsends
    rw [← hstream] at hitems herror hsends
    exact ⟨results, _, _, hs, hr, hsends, hitems, by rw [failureOf, herror]⟩
  · rintro calls ⟨x, y⟩ received hreach hret
    have hr := reach_recv_mono (List.prefix_refl _) (fun _ => ⟨True.intro, rfl⟩) hreach.receiver
    obtain ⟨q, v⟩ := y
    obtain rfl : q = .pure received := hret
    have hpre := (receiveUpTo_total kDefaultMaxPayload calls x.2.stream ⟨0, n⟩).result hr
    rw [List.drop_zero] at hpre
    refine ⟨hpre.trans (items_of_reach rfl hreach.sender), ?_⟩
    obtain ⟨more, hmore⟩ := hpre
    rw [← flatMap_parse kDefaultMaxPayload x.2.stream, ← hmore, List.flatMap_append, List.append_assoc]
    exact List.prefix_append _ _

end Socket

end SyncWire
