import SyncWire.Lib.Format
import SyncWire.Protocol

/-!
# The incremental parser (`frame_parser.cpp`)

`FrameParser` is fed chunks of a stream and gives the frames that are complete.  It
keeps the bytes it has not used behind `readOffset` in its buffer and erases the used
ones only now and then (`compact`).

The reference is `(frameFormat maxPayload).parse`: one header and payload after the
other from the front of the whole stream.

* `consume_eq`: one call of `consume` parses what was left over and the chunk.
* `feed_eq`: so does a sequence of calls with the whole stream, however it was cut.
* `Bounded.feed`: what is kept between two calls is bounded, and so is the buffer behind it.
-/

namespace SyncWire

open Wire Stream

/-! ## One frame at the front of a stream -/

/-- Decode one header, then its payload. -/
def frameFront (maxPayload : UInt32) (s : List UInt8) : Front Frame CodecError :=
  if s.length < kWireHeaderSize then .more
  else
    match decodeHeader (.of (s.take kWireHeaderSize)) maxPayload with
    | .error e => .bad e
    | .ok header =>
      let frameSize := kWireHeaderSize + header.payloadLength.toNat
      if s.length < frameSize then .more
      else .item ⟨header, (s.take frameSize).drop kWireHeaderSize⟩ frameSize

section
variable {maxPayload : UInt32} {s : List UInt8} {header : FrameHeader}

theorem frameFront_short (h : s.length < kWireHeaderSize) : frameFront maxPayload s = .more := if_pos h

theorem frameFront_bad {e : CodecError} (h : kWireHeaderSize ≤ s.length)
    (hd : decodeHeader (.of (s.take kWireHeaderSize)) maxPayload = .error e) :
    frameFront maxPayload s = .bad e := by
  rw [frameFront, if_neg (Nat.not_lt.mpr h), hd]

theorem frameFront_cut (h : kWireHeaderSize ≤ s.length)
    (hd : decodeHeader (.of (s.take kWireHeaderSize)) maxPayload = .ok header)
    (hl : s.length < kWireHeaderSize + header.payloadLength.toNat) : frameFront maxPayload s = .more := by
  rw [frameFront, if_neg (Nat.not_lt.mpr h), hd]
  exact if_pos hl

theorem frameFront_whole (hd : decodeHeader (.of (s.take kWireHeaderSize)) maxPayload = .ok header)
    (hl : kWireHeaderSize + header.payloadLength.toNat ≤ s.length) :
    frameFront maxPayload s =
      .item ⟨header, (s.take (kWireHeaderSize + header.payloadLength.toNat)).drop kWireHeaderSize⟩
        (kWireHeaderSize + header.payloadLength.toNat) := by
  rw [frameFront, if_neg (by omega), hd]
  exact if_neg (Nat.not_lt.mpr hl)

/-- The four cases. -/
theorem frameFront_cases (maxPayload : UInt32) (s : List UInt8) :
    s.length < kWireHeaderSize ∨
      (kWireHeaderSize ≤ s.length ∧
        ((∃ e, decodeHeader (.of (s.take kWireHeaderSize)) maxPayload = .error e) ∨
          ∃ header, decodeHeader (.of (s.take kWireHeaderSize)) maxPayload = .ok header ∧
            (s.length < kWireHeaderSize + header.payloadLength.toNat ∨
              kWireHeaderSize + header.payloadLength.toNat ≤ s.length))) := by
  refine (Nat.lt_or_ge s.length kWireHeaderSize).imp id fun h => ⟨h, ?_⟩
  cases hd : decodeHeader (.of (s.take kWireHeaderSize)) maxPayload with
  | error e => exact .inl ⟨e, rfl⟩
  | ok header => exact .inr ⟨header, rfl, Nat.lt_or_ge _ _⟩

theorem frameFront_item {f : Frame} {n : Nat} (h : frameFront maxPayload s = .item f n) :
    kWireHeaderSize ≤ n ∧ n ≤ s.length := by
  rcases frameFront_cases maxPayload s with hs | ⟨hs, ⟨e, hd⟩ | ⟨header, hd, hl | hl⟩⟩
  · rw [frameFront_short hs] at h; cases h
  · rw [frameFront_bad hs hd] at h; cases h
  · rw [frameFront_cut hs hd hl] at h; cases h
  · rw [frameFront_whole hd hl] at h
    cases h
    exact ⟨Nat.le_add_right _ _, hl⟩

theorem frameFront_append (t : List UInt8) (h : frameFront maxPayload s ≠ .more) :
    frameFront maxPayload (s ++ t) = frameFront maxPayload s := by
  have hlen : s.length ≤ (s ++ t).length := by rw [List.length_append]; omega
  have htake : kWireHeaderSize ≤ s.length → (s ++ t).take kWireHeaderSize = s.take kWireHeaderSize :=
    List.take_append_of_le_length
  rcases frameFront_cases maxPayload s with hs | ⟨hs, ⟨e, hd⟩ | ⟨header, hd, hl | hl⟩⟩
  · exact absurd (frameFront_short hs) h
  · rw [frameFront_bad hs hd, frameFront_bad (Nat.le_trans hs hlen) (by rw [htake hs, hd])]
  · exact absurd (frameFront_cut hs hd hl) h
  · rw [frameFront_whole hd hl, frameFront_whole (by rw [htake hs, hd]) (Nat.le_trans hl hlen),
      List.take_append_of_le_length hl]

/-- Something that is not complete is shorter than the largest frame. -/
theorem length_of_more (h : frameFront maxPayload s = .more) : s.length < kWireHeaderSize + maxPayload.toNat := by
  rcases frameFront_cases maxPayload s with hs | ⟨hs, ⟨e, hd⟩ | ⟨header, hd, hl | hl⟩⟩
  · omega
  · rw [frameFront_bad hs hd] at h; cases h
  · obtain ⟨-, -, -, -, hp, -⟩ := (decodeHeader_ok hd).1
    have := UInt32.le_iff_toNat_le.mp hp
    omega
  · rw [frameFront_whole hd hl] at h; cases h

/-- What stands in a stream is never reported as a chunk that does not fit. -/
theorem frameFront_ne_limit : frameFront maxPayload s ≠ .bad .inputBufferLimitExceeded := by
  intro h
  rcases frameFront_cases maxPayload s with hs | ⟨hs, ⟨e, hd⟩ | ⟨header, hd, hl | hl⟩⟩
  · rw [frameFront_short hs] at h; cases h
  · rw [frameFront_bad hs hd] at h
    obtain rfl : e = .inputBufferLimitExceeded := by injection h
    exact decodeHeader_ne_limit hd
  · rw [frameFront_cut hs hd hl] at h; cases h
  · rw [frameFront_whole hd hl] at h; cases h

end

/-- **The stream format.** -/
def frameFormat (maxPayload : UInt32) : Format UInt8 Frame CodecError where
  front := frameFront maxPayload
  item_pos h := Nat.lt_of_lt_of_le (by decide) (frameFront_item h).1
  item_le h := (frameFront_item h).2
  stable := frameFront_append

theorem front_frameFormat (maxPayload : UInt32) (s : List UInt8) :
    (frameFormat maxPayload).front s = frameFront maxPayload s := rfl

/-- The bytes of a frame. -/
def Frame.bytes (f : Frame) : List UInt8 := encodeHeader f.header ++ f.payload

/-- Header accepted by `decode_header`, payload as long as it says. -/
def Frame.Fits (f : Frame) (maxPayload : UInt32) : Prop :=
  f.payload.length = f.header.payloadLength.toNat ∧ f.header.Accepted maxPayload

instance (f : Frame) (maxPayload : UInt32) : Decidable (f.Fits maxPayload) := by
  unfold Frame.Fits
  infer_instance

theorem Frame.length_bytes (f : Frame) : f.bytes.length = kWireHeaderSize + f.payload.length := by
  rw [Frame.bytes, List.length_append, length_encodeHeader]

theorem encodes_bytes {f : Frame} {maxPayload : UInt32} (h : f.Fits maxPayload) :
    (frameFormat maxPayload).Encodes f f.bytes := by
  intro t
  have htake : (f.bytes ++ t).take kWireHeaderSize = encodeHeader f.header := by
    rw [Frame.bytes, List.append_assoc, List.take_left' (length_encodeHeader _)]
  have hl : f.bytes.length = kWireHeaderSize + f.header.payloadLength.toNat := by
    rw [f.length_bytes, h.1]
  have hdec : decodeHeader (.of ((f.bytes ++ t).take kWireHeaderSize)) maxPayload = .ok f.header := by
    rw [htake, decodeHeader_encodeHeader_ok h.2]
  rw [front_frameFormat, frameFront_whole hdec (by rw [List.length_append]; omega), ← hl,
    List.take_left, Frame.bytes, List.drop_left' (length_encodeHeader _)]

/-- A frame that was read is valid, and was read from its own bytes. -/
theorem frameFront_bytes {maxPayload : UInt32} {s : List UInt8} {f : Frame} {n : Nat}
    (h : frameFront maxPayload s = .item f n) : f.Fits maxPayload ∧ s.take n = f.bytes := by
  rcases frameFront_cases maxPayload s with hs | ⟨hs, ⟨e, hd⟩ | ⟨header, hd, hl | hl⟩⟩
  · rw [frameFront_short hs] at h; cases h
  · rw [frameFront_bad hs hd] at h; cases h
  · rw [frameFront_cut hs hd hl] at h; cases h
  · rw [frameFront_whole hd hl] at h
    cases h
    refine ⟨⟨?_, (decodeHeader_ok hd).1⟩, ?_⟩
    · simp only [List.length_drop, List.length_take]
      omega
    · rw [Frame.bytes, encodeHeader_decodeHeader (by rw [List.length_take]; omega) hd, List.drop_take,
        Nat.add_sub_cancel_left, List.take_add]

/-- Nothing of a stream is lost: it is the frames' bytes and what is left. -/
theorem flatMap_parse (maxPayload : UInt32) (s : List UInt8) :
    ((frameFormat maxPayload).parse s).items.flatMap Frame.bytes ++ ((frameFormat maxPayload).parse s).rest =
      s := by
  induction s using Format.parse_induction (F := frameFormat maxPayload) with
  | hmore s h => rw [Format.parse_more h]; rfl
  | hbad s e h => rw [Format.parse_bad h]; rfl
  | hitem s f n h ih =>
    rw [Format.parse_item h, List.flatMap_cons, List.append_assoc, ih, ← (frameFront_bytes h).2,
      List.take_append_drop]

/-! ## The parser -/

structure ParseBatch where
  frames : List Frame
  error : Option CodecError
deriving DecidableEq

structure FrameParser where
  maxPayload : UInt32
  maxBuffer : Nat
  buffer : List UInt8
  readOffset : Nat
  terminalError : Option CodecError
  /-- the constructor throws otherwise -/
  header_fits : kWireHeaderSize ≤ maxBuffer
  offset_le : readOffset ≤ buffer.length
  /-- so that `max_buffer_ - buffered_bytes()` does not wrap -/
  buffered_le : buffer.length - readOffset ≤ maxBuffer

namespace FrameParser

def fresh (maxPayload : UInt32) (maxBuffer : Nat) (h : kWireHeaderSize ≤ maxBuffer) : FrameParser :=
  ⟨maxPayload, maxBuffer, [], 0, none, h, Nat.le_refl _, Nat.zero_le _⟩

variable (p : FrameParser)

def bufferedBytes : Nat := p.buffer.length - p.readOffset

def compact : FrameParser :=
  if p.readOffset = 0 then p
  else if p.readOffset = p.buffer.length then
    { p with buffer := [], readOffset := 0, offset_le := Nat.le_refl _, buffered_le := Nat.zero_le _ }
  else if p.readOffset ≥ p.buffer.length / 2 then
    { p with
      buffer := p.buffer.drop p.readOffset
      readOffset := 0
      offset_le := Nat.zero_le _
      buffered_le := by rw [List.length_drop]; exact p.buffered_le }
  else p

def fail (error : CodecError) (completed : List Frame) : FrameParser × ParseBatch :=
  ({ p with terminalError := some error }, ⟨completed, some error⟩)

/-- `buffer_.insert(buffer_.end(), ...)` -/
def insert (bytes : List UInt8) (h : ¬ bytes.length > p.maxBuffer - p.bufferedBytes) : FrameParser :=
  { p with
    buffer := p.buffer ++ bytes
    offset_le := by have := p.offset_le; rw [List.length_append]; omega
    buffered_le := by
      have h1 := p.buffered_le
      have h2 := p.offset_le
      unfold bufferedBytes at h
      rw [List.length_append]
      omega }

/-- The loop of `consume` over a buffer: where it stops, the frames, the error.  Each turn moves the
offset on, so `buffer.length` turns are enough (`parseFrames_eq`). -/
def parseFrames (maxPayload : UInt32) (buffer : List UInt8) :
    (turns readOffset : Nat) → (completed : List Frame) → Nat × ParseBatch
  | 0, readOffset, completed => (readOffset, ⟨completed, none⟩)
  | turns + 1, readOffset, completed =>
    if buffer.length - readOffset ≥ kWireHeaderSize then
      let available := buffer.drop readOffset
      match decodeHeader (.of (available.take kWireHeaderSize)) maxPayload with
      | .error error => (readOffset, ⟨completed, some error⟩)
      | .ok header =>
        let frameSize := kWireHeaderSize + header.payloadLength.toNat
        if available.length < frameSize then (readOffset, ⟨completed, none⟩)
        else
          parseFrames maxPayload buffer turns (readOffset + frameSize)
            (completed ++ [⟨header, (available.take frameSize).drop kWireHeaderSize⟩])
    else (readOffset, ⟨completed, none⟩)

theorem parseFrames_bounds (maxPayload : UInt32) (buffer : List UInt8) (turns readOffset : Nat)
    (completed : List Frame) (h : readOffset ≤ buffer.length) :
    readOffset ≤ (parseFrames maxPayload buffer turns readOffset completed).1 ∧
      (parseFrames maxPayload buffer turns readOffset completed).1 ≤ buffer.length := by
  induction turns generalizing readOffset completed with
  | zero => exact ⟨Nat.le_refl _, h⟩
  | succ turns ih =>
    rw [parseFrames]
    split
    · simp only
      split
      · exact ⟨Nat.le_refl _, h⟩
      · next header hd =>
        split
        · exact ⟨Nat.le_refl _, h⟩
        · next hlen =>
          rw [List.length_drop] at hlen
          obtain ⟨h1, h2⟩ := ih (readOffset + (kWireHeaderSize + header.payloadLength.toNat)) _ (by omega)
          exact ⟨by omega, h2⟩
    · exact ⟨Nat.le_refl _, h⟩

/-- The state where the loop stopped. -/
def advanced : FrameParser :=
  let stop := (parseFrames p.maxPayload p.buffer p.buffer.length p.readOffset []).1
  { p with
    readOffset := stop
    offset_le := (parseFrames_bounds _ _ _ _ _ p.offset_le).2
    buffered_le := by
      have h1 := p.buffered_le
      have h2 := (parseFrames_bounds p.maxPayload p.buffer p.buffer.length p.readOffset [] p.offset_le).1
      simp only [stop]
      omega }

def consume (bytes : List UInt8) : FrameParser × ParseBatch :=
  match p.terminalError with
  | some error => (p, ⟨[], some error⟩)
  | none =>
    let p := p.compact
    if h : bytes.length > p.maxBuffer - p.bufferedBytes then p.fail .inputBufferLimitExceeded []
    else
      let p := p.insert bytes h
      let batch := (parseFrames p.maxPayload p.buffer p.buffer.length p.readOffset []).2
      match batch.error with
      | some error => p.advanced.fail error batch.frames
      | none => (p.advanced.compact, batch)

/-- Successive calls of `consume`. -/
def feed : FrameParser → List (List UInt8) → FrameParser × List ParseBatch
  | p, [] => (p, [])
  | p, bytes :: chunks =>
    let (p, batch) := p.consume bytes
    let (p, batches) := p.feed chunks
    (p, batch :: batches)

theorem feed_cons (bytes : List UInt8) (chunks : List (List UInt8)) :
    p.feed (bytes :: chunks) = (((p.consume bytes).1.feed chunks).1,
      (p.consume bytes).2 :: ((p.consume bytes).1.feed chunks).2) := rfl

/-! ## Against the reference -/

/-- The bytes that were not used. -/
def pending : List UInt8 := p.buffer.drop p.readOffset

theorem length_pending : p.pending.length = p.bufferedBytes := List.length_drop

@[simp] theorem compact_pending : p.compact.pending = p.pending := by
  unfold compact
  split
  · rfl
  · split
    · next h => simp [pending, h]
    · split
      · simp [pending]
      · rfl

@[simp] theorem compact_maxPayload : p.compact.maxPayload = p.maxPayload := by
  unfold compact
  split_ifs <;> rfl

@[simp] theorem compact_maxBuffer : p.compact.maxBuffer = p.maxBuffer := by
  unfold compact
  split_ifs <;> rfl

@[simp] theorem compact_terminalError : p.compact.terminalError = p.terminalError := by
  unfold compact
  split_ifs <;> rfl

@[simp] theorem compact_bufferedBytes : p.compact.bufferedBytes = p.bufferedBytes := by
  rw [← length_pending, ← length_pending, compact_pending]

theorem insert_pending (bytes : List UInt8) (h : ¬ bytes.length > p.maxBuffer - p.bufferedBytes) :
    (p.insert bytes h).pending = p.pending ++ bytes :=
  List.drop_append_of_le_length p.offset_le

variable {p}

/-- The loop is the reference on what stands behind the offset. -/
theorem parseFrames_eq (maxPayload : UInt32) (buffer : List UInt8) (turns readOffset : Nat)
    (completed : List Frame) (ht : buffer.length ≤ readOffset + turns) :
    (parseFrames maxPayload buffer turns readOffset completed).2 =
        ⟨completed ++ ((frameFormat maxPayload).parse (buffer.drop readOffset)).items,
          ((frameFormat maxPayload).parse (buffer.drop readOffset)).error⟩ ∧
      buffer.drop (parseFrames maxPayload buffer turns readOffset completed).1 =
        ((frameFormat maxPayload).parse (buffer.drop readOffset)).rest := by
  induction turns generalizing readOffset completed with
  | zero =>
    have hnil : buffer.drop readOffset = [] := List.drop_eq_nil_of_le (by omega)
    simp [parseFrames, hnil, Format.parse_more (F := frameFormat maxPayload) (s := []) rfl]
  | succ turns ih =>
    have hlen : (buffer.drop readOffset).length = buffer.length - readOffset := List.length_drop
    rw [parseFrames]
    rcases frameFront_cases maxPayload (buffer.drop readOffset) with
      hs | ⟨hs, ⟨e, hd⟩ | ⟨header, hd, hl | hl⟩⟩
    · rw [if_neg (by omega), Format.parse_more (frameFront_short hs)]
      simp
    · rw [if_pos (by omega), Format.parse_bad (frameFront_bad hs hd)]
      simp [hd]
    · rw [if_pos (by omega), Format.parse_more (frameFront_cut hs hd hl)]
      simp only [hd, if_pos hl]
      simp
    · have hpos : 0 < kWireHeaderSize := by decide
      obtain ⟨h1, h2⟩ := ih (readOffset + (kWireHeaderSize + header.payloadLength.toNat)) (completed ++
        [⟨header, ((buffer.drop readOffset).take (kWireHeaderSize + header.payloadLength.toNat)).drop
          kWireHeaderSize⟩]) (by omega)
      rw [if_pos (by omega), Format.parse_item (frameFront_whole hd hl), List.drop_drop]
      simp only [hd, if_neg (Nat.not_lt.mpr hl), h1, h2]
      simp

/-- A failed parser stays as it is. -/
theorem consume_failed {error : CodecError} (h : p.terminalError = some error) (bytes : List UInt8) :
    p.consume bytes = (p, ⟨[], some error⟩) := by
  rw [consume, h]

/-- A chunk that does not fit. -/
theorem consume_limit (h : p.terminalError = none) {bytes : List UInt8}
    (hl : bytes.length > p.maxBuffer - p.bufferedBytes) :
    (p.consume bytes).2 = ⟨[], some .inputBufferLimitExceeded⟩ := by
  rw [consume, h]
  simp only [compact_maxBuffer, compact_bufferedBytes]
  rw [dif_pos hl]
  rfl

/-- The parser has then failed. -/
theorem consume_limited (h : p.terminalError = none) {bytes : List UInt8}
    (hl : bytes.length > p.maxBuffer - p.bufferedBytes) :
    (p.consume bytes).1.terminalError = some .inputBufferLimitExceeded := by
  rw [consume, h]
  simp only [compact_maxBuffer, compact_bufferedBytes]
  rw [dif_pos hl]
  rfl

/-- The state and the batch after the loop. -/
theorem advanced_eq (p : FrameParser) :
    (parseFrames p.maxPayload p.buffer p.buffer.length p.readOffset []).2 =
        ⟨((frameFormat p.maxPayload).parse p.pending).items, ((frameFormat p.maxPayload).parse p.pending).error⟩ ∧
      p.advanced.pending = ((frameFormat p.maxPayload).parse p.pending).rest :=
  parseFrames_eq p.maxPayload p.buffer p.buffer.length p.readOffset [] (Nat.le_add_left _ _)

/-- **One call.**  What was left over and the chunk are parsed. -/
theorem consume_eq (h : p.terminalError = none) {bytes : List UInt8}
    (hl : ¬ bytes.length > p.maxBuffer - p.bufferedBytes) :
    let r := (frameFormat p.maxPayload).parse (p.pending ++ bytes)
    (p.consume bytes).2 = ⟨r.items, r.error⟩ ∧ (p.consume bytes).1.terminalError = r.error ∧
      (p.consume bytes).1.pending = r.rest ∧ (p.consume bytes).1.maxPayload = p.maxPayload := by
  have hl' : ¬ bytes.length > p.compact.maxBuffer - p.compact.bufferedBytes := by
    rwa [compact_maxBuffer, compact_bufferedBytes]
  obtain ⟨h1, h2⟩ := advanced_eq (p.compact.insert bytes hl')
  have hmax : (p.compact.insert bytes hl').maxPayload = p.maxPayload := p.compact_maxPayload
  have hterm : (p.compact.insert bytes hl').advanced.terminalError = none := h ▸ p.compact_terminalError
  rw [insert_pending, compact_pending] at h1 h2
  rw [hmax] at h1 h2
  rw [consume, h]
  simp only [dif_neg hl', h1, hmax]
  split
  · next error he => exact ⟨by rw [fail, he], by rw [fail, he], h2, hmax⟩
  · next he => exact ⟨rfl, by rw [compact_terminalError, hterm, he], by rw [compact_pending, h2], by
      rw [compact_maxPayload]; exact hmax⟩

/-- The frames of all batches. -/
def emitted (batches : List ParseBatch) : List Frame := batches.flatMap (·.frames)

/-- No call reported that a chunk did not fit. -/
def Unlimited (batches : List ParseBatch) : Prop := ∀ b ∈ batches, b.error ≠ some .inputBufferLimitExceeded

instance (batches : List ParseBatch) : Decidable (Unlimited batches) := by
  unfold Unlimited
  infer_instance

theorem feed_failed {error : CodecError} (h : p.terminalError = some error) (chunks : List (List UInt8)) :
    (p.feed chunks).1 = p ∧ emitted (p.feed chunks).2 = [] := by
  induction chunks with
  | nil => exact ⟨rfl, rfl⟩
  | cons bytes chunks ih =>
    rw [feed_cons, consume_failed h]
    exact ih

/-- **Any cutting.**  A parser that has nothing complete left over parses the stream it is fed. -/
theorem feed_eq (chunks : List (List UInt8)) (p : FrameParser) (h : p.terminalError = none)
    (hmore : (frameFormat p.maxPayload).front p.pending = .more) (hu : Unlimited (p.feed chunks).2) :
    let r := (frameFormat p.maxPayload).parse (p.pending ++ chunks.flatten)
    emitted (p.feed chunks).2 = r.items ∧ (p.feed chunks).1.terminalError = r.error ∧
      (r.error = none → (p.feed chunks).1.pending = r.rest) := by
  induction chunks generalizing p with
  | nil =>
    rw [List.flatten_nil, List.append_nil, Format.parse_more hmore]
    exact ⟨rfl, h, fun _ => rfl⟩
  | cons bytes chunks ih =>
    rw [feed_cons] at hu ⊢
    obtain ⟨hfirst, hrest⟩ := List.forall_mem_cons.mp hu
    by_cases hl : bytes.length > p.maxBuffer - p.bufferedBytes
    · rw [consume_limit h hl] at hfirst
      exact absurd rfl hfirst
    · obtain ⟨h1, h2, h3, h4⟩ := consume_eq h hl
      have hparse := Format.parse_append (F := frameFormat p.maxPayload) (p.pending ++ bytes) chunks.flatten
      rw [List.append_assoc] at hparse
      rw [List.flatten_cons, hparse]
      simp only [emitted, List.flatMap_cons, h1]
      unfold Parsed.extend
      split
      · next error he =>
        -- the chunk held something bad: the parser has failed for good
        obtain ⟨hp, hnone⟩ := feed_failed (h2.trans he) chunks
        rw [emitted] at hnone
        rw [hp, hnone, List.append_nil, h2, he]
        exact ⟨rfl, rfl, fun hn => by cases hn⟩
      · next he =>
        have := ih (p.consume bytes).1 (h2.trans he) (by rw [h3, h4]; exact Format.front_rest _ he) hrest
        rw [h3, h4] at this
        rw [emitted] at this
        exact ⟨by rw [this.1], this.2⟩

/-- The fresh parser. -/
theorem feed_fresh {maxPayload : UInt32} {maxBuffer : Nat} {hmax : kWireHeaderSize ≤ maxBuffer}
    {chunks : List (List UInt8)} (hu : Unlimited ((fresh maxPayload maxBuffer hmax).feed chunks).2) :
    let r := (frameFormat maxPayload).parse chunks.flatten
    emitted ((fresh maxPayload maxBuffer hmax).feed chunks).2 = r.items ∧
      ((fresh maxPayload maxBuffer hmax).feed chunks).1.terminalError = r.error ∧
      (r.error = none → ((fresh maxPayload maxBuffer hmax).feed chunks).1.pending = r.rest) :=
  feed_eq chunks (fresh maxPayload maxBuffer hmax) rfl rfl hu

end FrameParser

open FrameParser

/-- **Incremental parsing.**  It does not depend on how the stream is cut; a failed parser stays
failed; encoded frames come out again. -/
theorem frameParser_any_cut (maxPayload : UInt32) (maxBuffer : Nat) (hmax : kWireHeaderSize ≤ maxBuffer) :
    (∀ chunks, Unlimited ((fresh maxPayload maxBuffer hmax).feed chunks).2 →
      let r := (frameFormat maxPayload).parse chunks.flatten
      emitted ((fresh maxPayload maxBuffer hmax).feed chunks).2 = r.items ∧
        ((fresh maxPayload maxBuffer hmax).feed chunks).1.terminalError = r.error ∧
        (r.error = none → ((fresh maxPayload maxBuffer hmax).feed chunks).1.pending = r.rest)) ∧
    (∀ chunks chunks', chunks.flatten = chunks'.flatten →
      Unlimited ((fresh maxPayload maxBuffer hmax).feed chunks).2 →
      Unlimited ((fresh maxPayload maxBuffer hmax).feed chunks').2 →
      let p := (fresh maxPayload maxBuffer hmax).feed chunks
      let p' := (fresh maxPayload maxBuffer hmax).feed chunks'
      emitted p.2 = emitted p'.2 ∧ p.1.terminalError = p'.1.terminalError ∧
        (p.1.terminalError = none → p.1.pending = p'.1.pending)) ∧
    (∀ (p : FrameParser) error bytes, p.terminalError = some error →
      p.consume bytes = (p, ⟨[], some error⟩)) ∧
    (∀ (frames : List Frame) chunks, (∀ f ∈ frames, f.Fits maxPayload) →
      chunks.flatten = frames.flatMap Frame.bytes →
      Unlimited ((fresh maxPayload maxBuffer hmax).feed chunks).2 →
      let p := (fresh maxPayload maxBuffer hmax).feed chunks
      emitted p.2 = frames ∧ p.1.terminalError = none ∧ p.1.bufferedBytes = 0) := by
  refine ⟨fun chunks => feed_fresh, fun chunks chunks' he hu hu' => ?_,
    fun p error bytes h => consume_failed h bytes, fun frames chunks hf hc hu => ?_⟩
  · obtain ⟨h1, h2, h3⟩ := feed_fresh hu
    obtain ⟨h1', h2', h3'⟩ := feed_fresh hu'
    rw [← he] at h1' h2' h3'
    refine ⟨h1.trans h1'.symm, h2.trans h2'.symm, fun hn => ?_⟩
    rw [h2] at hn
    rw [h3 hn, h3' hn]
  · have hparse := Format.parse_flatMap (F := frameFormat maxPayload) frames
      (fun f hm => encodes_bytes (hf f hm)) []
    rw [List.append_nil, Format.parse_more (s := []) rfl, List.append_nil] at hparse
    obtain ⟨h1, h2, h3⟩ := feed_fresh hu
    rw [hc, hparse] at h1 h2 h3
    exact ⟨h1, h2, by rw [← length_pending, h3 rfl]; rfl⟩

/-- Two frames in three chunks, cut inside a header and inside a payload. -/
theorem frameParser_any_cut_sample :
    let f : Frame := ⟨{ payloadLength := 3 }, [1, 2, 3]⟩
    let p := (fresh 16 70 (by decide)).feed [f.bytes.take 7, f.bytes.drop 7 ++ f.bytes.take 33, f.bytes.drop 33]
    emitted p.2 = [f, f] ∧ p.1.terminalError = none ∧ p.1.bufferedBytes = 0 :=
  (frameParser_any_cut 16 70 (by decide)).2.2.2 _ _ (by decide) (by decide) (by decide +kernel)

/-! ## How much is kept -/

namespace FrameParser

variable {p : FrameParser} {bytes : List UInt8}

/-- What is used up was erased, or is less than what is left. -/
theorem compact_offset (p : FrameParser) :
    p.compact.readOffset = 0 ∨ p.compact.readOffset < p.compact.bufferedBytes := by
  unfold compact
  split
  · next h => exact .inl h
  · split
    · exact .inl rfl
    · split
      · exact .inl rfl
      · next h =>
        refine .inr ?_
        unfold bufferedBytes
        omega

theorem compact_length (p : FrameParser) : p.compact.buffer.length ≤ 2 * p.maxBuffer := by
  have h1 := p.compact_offset
  have h2 := p.compact.buffered_le
  rw [compact_maxBuffer] at h2
  unfold bufferedBytes at h1
  omega

/-- A chunk that fits does not double the buffer: at most half of the limit is used up. -/
theorem insert_length (h : ¬ bytes.length > p.compact.maxBuffer - p.compact.bufferedBytes) :
    (p.compact.insert bytes h).buffer.length ≤ 2 * p.maxBuffer := by
  have h1 := p.compact_offset
  have h2 := p.compact.buffered_le
  have h3 : (p.compact.insert bytes h).buffer.length = p.compact.buffer.length + bytes.length :=
    List.length_append
  unfold bufferedBytes at h1 h
  rw [compact_maxBuffer] at h2 h
  omega

@[simp] theorem consume_maxBuffer (p : FrameParser) (bytes : List UInt8) :
    (p.consume bytes).1.maxBuffer = p.maxBuffer := by
  unfold consume
  split
  · rfl
  · simp only
    split
    · exact p.compact_maxBuffer
    · split
      · exact p.compact_maxBuffer
      · rw [compact_maxBuffer]
        exact p.compact_maxBuffer

@[simp] theorem consume_maxPayload (p : FrameParser) (bytes : List UInt8) :
    (p.consume bytes).1.maxPayload = p.maxPayload := by
  unfold consume
  split
  · rfl
  · simp only
    split
    · exact p.compact_maxPayload
    · split
      · exact p.compact_maxPayload
      · rw [compact_maxPayload]
        exact p.compact_maxPayload

/-- What holds between two calls, beside the fields of the structure. -/
structure Bounded (p : FrameParser) : Prop where
  length_le : p.buffer.length ≤ 2 * p.maxBuffer
  buffered_lt : p.terminalError = none → p.bufferedBytes < kWireHeaderSize + p.maxPayload.toNat

theorem bounded_fresh (maxPayload : UInt32) (maxBuffer : Nat) (h : kWireHeaderSize ≤ maxBuffer) :
    (fresh maxPayload maxBuffer h).Bounded :=
  ⟨Nat.zero_le _, fun _ => Nat.lt_of_lt_of_le (show 0 < kWireHeaderSize by decide) (Nat.le_add_right _ _)⟩

theorem consume_length (hb : p.Bounded) (bytes : List UInt8) :
    (p.consume bytes).1.buffer.length ≤ 2 * p.maxBuffer := by
  unfold consume
  split
  · exact hb.length_le
  · simp only
    split
    · exact p.compact_length
    · next h =>
      split
      · exact insert_length h
      · refine Nat.le_trans (compact_length _) (Nat.le_of_eq ?_)
        exact congrArg (2 * ·) p.compact_maxBuffer

/-- **One call** keeps the bounds. -/
theorem Bounded.consume (hb : p.Bounded) (bytes : List UInt8) : (p.consume bytes).1.Bounded := by
  refine ⟨by rw [consume_maxBuffer]; exact consume_length hb bytes, fun hn => ?_⟩
  rw [consume_maxPayload]
  cases ht : p.terminalError with
  | some error =>
    rw [consume_failed ht, ht] at hn
    cases hn
  | none =>
    by_cases hl : bytes.length > p.maxBuffer - p.bufferedBytes
    · rw [consume_limited ht hl] at hn
      cases hn
    · obtain ⟨-, h2, h3, -⟩ := consume_eq ht hl
      rw [← length_pending, h3]
      exact length_of_more (Format.front_rest _ (h2.symm.trans hn))

/-- **A whole run** keeps the bounds and the limits of the parser. -/
theorem Bounded.feed (hb : p.Bounded) (chunks : List (List UInt8)) :
    (p.feed chunks).1.Bounded ∧ (p.feed chunks).1.maxBuffer = p.maxBuffer ∧
      (p.feed chunks).1.maxPayload = p.maxPayload := by
  induction chunks generalizing p with
  | nil => exact ⟨hb, rfl, rfl⟩
  | cons bytes chunks ih =>
    rw [feed_cons]
    obtain ⟨h1, h2, h3⟩ := ih (hb.consume bytes)
    exact ⟨h1, h2.trans (consume_maxBuffer p bytes), h3.trans (consume_maxPayload p bytes)⟩

section
variable {c : Nat}

/-- With room for `c` more bytes than an incomplete frame has, a chunk of `c` bytes fits. -/
theorem Bounded.fits (hb : p.Bounded) (hn : p.terminalError = none)
    (hc : 31 + p.maxPayload.toNat + c ≤ p.maxBuffer) (hl : bytes.length ≤ c) :
    ¬ bytes.length > p.maxBuffer - p.bufferedBytes := by
  have := hb.buffered_lt hn
  unfold kWireHeaderSize at this
  omega

theorem Bounded.consume_ne_limit (hb : p.Bounded) (hc : 31 + p.maxPayload.toNat + c ≤ p.maxBuffer)
    (hl : bytes.length ≤ c) (hn : p.terminalError ≠ some .inputBufferLimitExceeded) :
    (p.consume bytes).2.error ≠ some .inputBufferLimitExceeded ∧
      (p.consume bytes).1.terminalError ≠ some .inputBufferLimitExceeded := by
  cases ht : p.terminalError with
  | some error =>
    rw [consume_failed ht]
    exact ⟨ht ▸ hn, hn⟩
  | none =>
    obtain ⟨h1, h2, -, -⟩ := consume_eq ht (hb.fits ht hc hl)
    have hne : ((frameFormat p.maxPayload).parse (p.pending ++ bytes)).error ≠
        some .inputBufferLimitExceeded := fun he => frameFront_ne_limit (Format.front_of_error _ he)
    exact ⟨by rw [h1]; exact hne, by rw [h2]; exact hne⟩

theorem Bounded.unlimited (hb : p.Bounded) (hc : 31 + p.maxPayload.toNat + c ≤ p.maxBuffer)
    (hn : p.terminalError ≠ some .inputBufferLimitExceeded) (chunks : List (List UInt8))
    (hl : ∀ bytes ∈ chunks, bytes.length ≤ c) : Unlimited (p.feed chunks).2 := by
  induction chunks generalizing p with
  | nil => exact fun b hm => absurd hm List.not_mem_nil
  | cons bytes chunks ih =>
    rw [List.forall_mem_cons] at hl
    obtain ⟨h1, h2⟩ := hb.consume_ne_limit hc hl.1 hn
    rw [feed_cons]
    refine List.forall_mem_cons.mpr ⟨h1, ih (hb.consume bytes) ?_ h2 hl.2⟩
    rwa [consume_maxPayload, consume_maxBuffer]

end

end FrameParser

/-- **The buffer.**  After any calls on a fresh parser the offset is inside of the buffer, the bytes that
are not used are at most `maxBuffer` and the buffer is at most twice that.  A parser that has not failed
keeps less than the largest frame, so chunks of `c` bytes always fit a buffer with room for them. -/
theorem frameParser_bounded (maxPayload : UInt32) (maxBuffer : Nat) (hmax : kWireHeaderSize ≤ maxBuffer)
    (chunks : List (List UInt8)) :
    let p := ((fresh maxPayload maxBuffer hmax).feed chunks).1
    p.maxBuffer = maxBuffer ∧ p.maxPayload = maxPayload ∧
    p.readOffset ≤ p.buffer.length ∧ p.bufferedBytes ≤ maxBuffer ∧ p.buffer.length ≤ 2 * maxBuffer ∧
    (p.terminalError = none → p.bufferedBytes < 32 + maxPayload.toNat) ∧
    ∀ c, 31 + maxPayload.toNat + c ≤ maxBuffer →
      (∀ bytes, p.terminalError = none → bytes.length ≤ c →
        (p.consume bytes).2.error ≠ some .inputBufferLimitExceeded) ∧
      ((∀ bytes ∈ chunks, bytes.length ≤ c) →
        Unlimited ((fresh maxPayload maxBuffer hmax).feed chunks).2) := by
  intro p
  have hfresh := bounded_fresh maxPayload maxBuffer hmax
  obtain ⟨hb, hbuf, hpay⟩ := hfresh.feed chunks
  have hbuf' : p.maxBuffer = maxBuffer := hbuf
  have hpay' : p.maxPayload = maxPayload := hpay
  have hle := p.buffered_le
  have hlen := hb.length_le
  have hlt := hb.buffered_lt
  rw [hbuf] at hlen
  rw [hpay] at hlt
  rw [hbuf'] at hle
  refine ⟨hbuf', hpay', p.offset_le, hle, hlen, hlt, fun c hc => ⟨fun bytes hn hl => ?_, fun hl => ?_⟩⟩
  · have hroom : 31 + p.maxPayload.toNat + c ≤ p.maxBuffer := by rwa [hpay', hbuf']
    exact (hb.consume_ne_limit hroom hl (by rw [hn]; simp)).1
  · exact hfresh.unlimited hc (by simp [fresh]) chunks hl

/-- A whole frame and a piece of the next, in two chunks, into the smallest buffer that has room for them. -/
theorem frameParser_bounded_sample :
    let f : Frame := ⟨{ payloadLength := 3 }, [1, 2, 3]⟩
    let chunks := [f.bytes.take 20, f.bytes.drop 20 ++ f.bytes.take 5]
    let p := (fresh 4 55 (by decide)).feed chunks
    p.2.map ParseBatch.frames = [[], [f]] ∧ p.1.bufferedBytes = 5 ∧ p.1.bufferedBytes < 36 ∧ Unlimited p.2 := by
  intro f chunks
  have h := frameParser_bounded 4 55 (by decide) chunks
  exact ⟨by decide +kernel, by decide +kernel, h.2.2.2.2.2.1 (by decide +kernel),
    (h.2.2.2.2.2.2 20 (by decide)).2 (by decide)⟩

end SyncWire
