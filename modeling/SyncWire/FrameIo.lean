import SyncWire.Lib.Duplex
import SyncWire.Lib.Calls
import SyncWire.Protocol

/-!
# The processes and their frames (`frame_io.cpp`)

A client or server is a program over system calls, sending frames and receiving
frames.  Only valid frames travel: `sendFrame` refuses others before a byte is sent,
`receiveFrame` returns nothing else, so `WireFrame` carries the proof.  The bytes
below a frame are not represented; a failure says how many got through.
-/

namespace SyncWire

open Wire Effect

/-- Header accepted by `decode_header`, payload as long as it says. -/
def Frame.Valid (f : Frame) : Prop :=
  f.payload.length = f.header.payloadLength.toNat ∧ f.header.Accepted kDefaultMaxPayload

instance (f : Frame) : Decidable f.Valid := by
  unfold Frame.Valid FrameHeader.Accepted
  infer_instance

abbrev WireFrame := { f : Frame // f.Valid }

/-- A `net::IoResult` that is not `Complete`. -/
inductive IoFailure
  | peerClosed (transferred : Nat)
  | systemError (transferred errno : Nat)
deriving DecidableEq

inductive ReceiveFailure
  | io (failure : IoFailure)
  | invalidHeader (error : CodecError)
deriving DecidableEq

inductive FrameIoStatus
  | complete | peerClosed | systemError | invalidHeader | invalidFrame
deriving DecidableEq

structure FrameIoResult where
  status : FrameIoStatus := .complete
  transferred : Nat := 0
  systemError : Nat := 0
  codecError : Option CodecError := none
deriving DecidableEq

def FrameIoResult.ok (r : FrameIoResult) : Bool := r.status == .complete

/-- `from_io_result` -/
def IoFailure.result : IoFailure → FrameIoResult
  | .peerClosed transferred => { status := .peerClosed, transferred }
  | .systemError transferred errno => { status := .systemError, transferred, systemError := errno }

def ReceiveFailure.result : ReceiveFailure → FrameIoResult
  | .io failure => failure.result
  | .invalidHeader error =>
    { status := .invalidHeader, transferred := kWireHeaderSize, codecError := some error }

/-- System calls, frames, and their failures. -/
abbrev net : NetSig where
  Call := Posix.Call
  Val := Posix.Val
  Msg := WireFrame
  SendErr := IoFailure
  RecvErr := ReceiveFailure
  Errno := Nat

/-- A program of a client or server process. -/
abbrev Sys := Prog net.sig

/-- The state of a process: its host and what it did so far. -/
abbrev World := net.Local Posix.Host

/-- A system call. -/
def sys (c : Posix.Call) : Sys (Except Nat (Posix.Val c)) := Prog.call (S := net.sig) (.call c)

def sendWire (f : WireFrame) : Sys (Except IoFailure Unit) := Prog.call (S := net.sig) (.send f)

def receiveWire : Sys (Except ReceiveFailure WireFrame) := Prog.call (S := net.sig) .recv

/-- An environment that may answer anything: any peer, any failure. -/
def anyAnswer : net.Rely := fun _ _ _ => True

/-- An environment without failures that delivers `incoming` and then closes. -/
def drive (cr : Posix.Crypto) (incoming : List WireFrame) : (o : net.sig.Op) → World → net.sig.Res o
  | .call c, w => Posix.answer cr c w.host
  | .send _, _ => .ok ()
  | .recv, w =>
    match incoming[(received w.log).length]? with
    | some frame => .ok frame
    | none => .error (.io (.peerClosed 0))

/-- `n` steps of a program in that environment. -/
def runAgainst (cr : Posix.Crypto) (incoming : List WireFrame) {α : Type} (n : Nat) (p : Sys α) (w : World) :
    Sys α × World := runWith (perform (Posix.exec cr)) (drive cr incoming) n (p, w)

theorem reach_runAgainst (cr : Posix.Crypto) (incoming : List WireFrame) {α : Type} (n : Nat) (p : Sys α)
    (w : World) : Reach (solo (Posix.exec cr) anyAnswer) (p, w) (runAgainst cr incoming n p w) :=
  reach_runWith _ _ (fun _ _ _ he => ⟨trivial, he⟩) n _

/-- A run that has come to its end. -/
theorem reach_of_result? {cr : Posix.Crypto} {incoming : List WireFrame} {α : Type} {n : Nat}
    {p : Sys α} {w : World} {a : α} (h : (runAgainst cr incoming n p w).1.result? = some a) :
    Reach (solo (Posix.exec cr) anyAnswer) (p, w) (.pure a, (runAgainst cr incoming n p w).2) := by
  have hr := reach_runAgainst cr incoming n p w
  rwa [← Prod.mk.eta (p := runAgainst cr incoming n p w), Prog.eq_pure_of_result? h] at hr

theorem step_runAgainst (cr : Posix.Crypto) (incoming : List WireFrame) {α : Type} (n : Nat) (p : Sys α)
    (w : World) (h : (runAgainst cr incoming (n + 1) p w).2.log.length ≠
      (runAgainst cr incoming n p w).2.log.length) :
    Step (solo (Posix.exec cr) anyAnswer) (runAgainst cr incoming n p w) (runAgainst cr incoming (n + 1) p w) :=
  (step_runWith _ _ (fun _ _ _ he => ⟨trivial, he⟩) n _).resolve_left fun he => h (by
    unfold runAgainst
    rw [he])

theorem accepted_of_decodeHeader {h h' : FrameHeader} {maxPayload : UInt32}
    (hd : decodeHeader (.of (encodeHeader h)) maxPayload = .ok h') : h.Accepted maxPayload := by
  rw [decodeHeader_encodeHeader] at hd
  split at hd
  · cases hd
  · next h1 =>
    split at hd
    · cases hd
    · next h2 =>
      split at hd
      · cases hd
      · next h3 =>
        split at hd
        · cases hd
        · next h4 =>
          split at hd
          · cases hd
          · next h5 =>
            split at hd
            · cases hd
            · next h6 =>
              exact ⟨not_not.mp h1, not_not.mp h2, by simpa using h3, not_not.mp h4,
                UInt32.not_lt.mp h5, not_not.mp h6⟩

def sendFrame (frame : Frame) : Sys FrameIoResult :=
  if hp : frame.payload.length ≠ frame.header.payloadLength.toNat then pure { status := .invalidFrame }
  else
    match hd : decodeHeader (.of (encodeHeader frame.header)) kDefaultMaxPayload with
    | .error e => pure { status := .invalidFrame, codecError := some e }
    | .ok _ => do
      match ← sendWire ⟨frame, not_not.mp hp, accepted_of_decodeHeader hd⟩ with
      | .error failure => pure failure.result
      | .ok () => pure { transferred := kWireHeaderSize + frame.payload.length }

def receiveFrame : Sys (Except FrameIoResult Frame) := do
  match ← receiveWire with
  | .error failure => pure (.error failure.result)
  | .ok frame => pure (.ok frame.1)

def makeFrame (type : MessageType) (requestId transferId : UInt64) (payload : List UInt8) : Frame where
  header :=
    { messageType := type, payloadLength := UInt32.ofNat payload.length, requestId, transferId }
  payload

theorem makeFrame_valid {type : MessageType} {requestId transferId : UInt64} {payload : List UInt8}
    (ht : isKnownMessageType type.raw = true) (hl : payload.length ≤ 1024 * 1024) :
    (makeFrame type requestId transferId payload).Valid := by
  have h : (UInt32.ofNat payload.length).toNat = payload.length := by
    rw [UInt32.toNat_ofNat']; omega
  refine ⟨h.symm, rfl, rfl, ht, rfl, ?_, rfl⟩
  rw [UInt32.le_iff_toNat_le]
  change (UInt32.ofNat payload.length).toNat ≤ _
  rw [h]
  exact hl

/-- A valid frame is made of its type, its ids and its payload. -/
theorem eq_makeFrame {f : Frame} (hv : f.Valid) :
    f = makeFrame f.header.messageType f.header.requestId f.header.transferId f.payload := by
  obtain ⟨⟨magic, version, messageType, headerSize, payloadLength, flags, requestId, transferId⟩, payload⟩ := f
  obtain ⟨hl, h1, h2, -, h4, -, h6⟩ := hv
  simp only at hl h1 h2 h4 h6
  subst h1 h2 h4 h6
  simp only [makeFrame, Frame.mk.injEq, FrameHeader.mk.injEq, true_and, and_true]
  rw [hl, UInt32.ofNat_toNat]

/-- What `sendFrame` makes of the answer to a send. -/
def sendOutcome (frame : Frame) : Except IoFailure Unit → FrameIoResult
  | .error failure => failure.result
  | .ok () => { transferred := kWireHeaderSize + frame.payload.length }

theorem sendOutcome_error_ok (frame : Frame) (failure : IoFailure) :
    (sendOutcome frame (.error failure)).ok = false := by
  cases failure <;> rfl

/-- What `receiveFrame` makes of the answer to a receive. -/
def receiveOutcome : Except ReceiveFailure WireFrame → Except FrameIoResult Frame
  | .error failure => .error failure.result
  | .ok frame => .ok frame.1

/-- Sending a valid frame is one send. -/
theorem sendFrame_bind {α : Type} {frame : Frame} (hv : frame.Valid) (k : FrameIoResult → Sys α) :
    sendFrame frame >>= k = .op (S := net.sig) (.send ⟨frame, hv⟩) fun r => k (sendOutcome frame r) := by
  have hd := decodeHeader_encodeHeader_ok hv.2
  unfold sendFrame
  rw [dif_neg (not_not.mpr hv.1)]
  split
  · next e he => rw [hd] at he; cases he
  · refine congrArg (Prog.op (S := net.sig) (.send ⟨frame, hv⟩)) (funext fun r => ?_)
    cases r <;> rfl

/-- A frame that is not valid is refused before anything is sent. -/
theorem sendFrame_invalid {frame : Frame} (hv : ¬ frame.Valid) :
    ∃ res : FrameIoResult, sendFrame frame = pure res ∧ res.status = .invalidFrame := by
  unfold sendFrame
  split
  · exact ⟨_, rfl, rfl⟩
  · next hp =>
    split
    · exact ⟨_, rfl, rfl⟩
    · next hd => exact absurd ⟨not_not.mp hp, accepted_of_decodeHeader hd⟩ hv

theorem receiveFrame_bind {α : Type} (k : Except FrameIoResult Frame → Sys α) :
    receiveFrame >>= k = .op (S := net.sig) .recv fun r => k (receiveOutcome r) := by
  refine congrArg (Prog.op (S := net.sig) .recv) (funext fun r => ?_)
  cases r <;> rfl

/-! ## Rules for single operations -/

section Rules
variable {cr : Posix.Crypto} {rely : net.Rely} {G : World → World → Prop} {α : Type} {w : World}
  {Q : α → World → Prop}

theorem uses_sys {A : net.sig.Op → Prop} {c : Posix.Call} {k : Except Nat (Posix.Val c) → Sys α} (hc : A (.call c))
    (hk : ∀ r, Uses A (k r)) : Uses A (sys c >>= k) := uses_op hc hk

theorem uses_sendFrame {A : net.sig.Op → Prop} {f : Frame} {k : FrameIoResult → Sys α}
    (hf : ∀ hv, A (.send ⟨f, hv⟩)) (hk : ∀ res, Uses A (k res)) : Uses A (sendFrame f >>= k) := by
  by_cases hv : f.Valid
  · rw [sendFrame_bind hv]
    exact uses_op (hf hv) fun r => hk _
  · obtain ⟨res, he, -⟩ := sendFrame_invalid hv
    rw [he]
    exact hk res

theorem uses_receiveFrame {A : net.sig.Op → Prop} {k : Except FrameIoResult Frame → Sys α} (hr : A .recv)
    (hk : ∀ r, Uses A (k r)) : Uses A (receiveFrame >>= k) := by
  rw [receiveFrame_bind]
  exact uses_op hr fun r => hk _

theorem gives_sys {A : net.sig.Op → Prop} {R : α → Prop} {c : Posix.Call} {k : Except Nat (Posix.Val c) → Sys α}
    (hc : A (.call c)) (hk : ∀ r, Gives A (k r) R) : Gives A (sys c >>= k) R := gives_op hc hk

theorem along_sys {V : Watch net.sig World α} {c : Posix.Call} {k : Except Nat (Posix.Val c) → Sys α}
    (hv : V (.call c) k w)
    (h : ∀ r h', Posix.exec cr c w.host r = some h' →
      Along (solo (Posix.exec cr) rely) V (k r) ⟨h', w.log ++ [⟨.call c, r⟩]⟩ Q) :
    Along (solo (Posix.exec cr) rely) V (sys c >>= k) w Q := by
  refine along_op hv fun r w' hs => ?_
  obtain ⟨h', he, rfl⟩ := Option.map_eq_some_iff.mp hs.2
  exact h r h' he

theorem along_sendValid {V : Watch net.sig World α} {f : Frame} {k : FrameIoResult → Sys α} (hf : f.Valid)
    (hv : V (.send ⟨f, hf⟩) (fun r => k (sendOutcome f r)) w)
    (h : ∀ r, Along (solo (Posix.exec cr) rely) V (k (sendOutcome f r)) (w.push ⟨.send ⟨f, hf⟩, r⟩) Q) :
    Along (solo (Posix.exec cr) rely) V (sendFrame f >>= k) w Q := by
  rw [sendFrame_bind hf]
  refine along_op hv fun r w' hs => ?_
  obtain rfl : w.push ⟨.send ⟨f, hf⟩, r⟩ = w' := Option.some.inj hs.2
  exact h r

theorem along_receiveFrame {V : Watch net.sig World α} {k : Except FrameIoResult Frame → Sys α}
    (hv : V .recv (fun r => k (receiveOutcome r)) w)
    (h : ∀ r, rely w.log .recv r → Along (solo (Posix.exec cr) rely) V (k (receiveOutcome r))
      (w.push ⟨.recv, r⟩) Q) :
    Along (solo (Posix.exec cr) rely) V (receiveFrame >>= k) w Q := by
  rw [receiveFrame_bind]
  refine along_op hv fun r w' hs => ?_
  obtain rfl : w.push ⟨.recv, r⟩ = w' := Option.some.inj hs.2
  exact h r hs.1

theorem safe_sys {c : Posix.Call} {k : Except Nat (Posix.Val c) → Sys α}
    (h : ∀ r h', Posix.exec cr c w.host r = some h' → G w ⟨h', w.log ++ [⟨.call c, r⟩]⟩ ∧
      Safe (solo (Posix.exec cr) rely) G (k r) ⟨h', w.log ++ [⟨.call c, r⟩]⟩ Q) :
    Safe (solo (Posix.exec cr) rely) G (sys c >>= k) w Q := by
  refine safe_bind (safe_call fun r w' hs => ?_)
  obtain ⟨h', he, rfl⟩ := Option.map_eq_some_iff.mp hs.2
  exact h r h' he

/-- A call that only looks. -/
theorem safe_look {c : Posix.Call} {k : Except Nat (Posix.Val c) → Sys α} (hc : c.looks = true)
    (hg : ∀ r, G w (w.push ⟨.call c, r⟩))
    (h : ∀ r, Posix.exec cr c w.host r = some w.host →
      Safe (solo (Posix.exec cr) rely) G (k r) (w.push ⟨.call c, r⟩) Q) :
    Safe (solo (Posix.exec cr) rely) G (sys c >>= k) w Q := by
  refine safe_sys fun r h' he => ?_
  obtain rfl := Posix.exec_looks hc he
  exact ⟨hg r, h r he⟩

/-- Sending a frame: refused, or one send. -/
theorem safe_sendFrame {f : Frame} {k : FrameIoResult → Sys α}
    (h0 : ∀ res, res.ok = false → Safe (solo (Posix.exec cr) rely) G (k res) w Q)
    (h1 : ∀ hv r, G w (w.push ⟨.send ⟨f, hv⟩, r⟩) ∧
      ∀ res, Safe (solo (Posix.exec cr) rely) G (k res) (w.push ⟨.send ⟨f, hv⟩, r⟩) Q) :
    Safe (solo (Posix.exec cr) rely) G (sendFrame f >>= k) w Q := by
  by_cases hv : f.Valid
  · rw [sendFrame_bind hv]
    refine safe_op fun r w' hs => ?_
    obtain rfl : w.push ⟨.send ⟨f, hv⟩, r⟩ = w' := Option.some.inj hs.2
    exact ⟨(h1 hv r).1, (h1 hv r).2 _⟩
  · obtain ⟨res, he, hres⟩ := sendFrame_invalid hv
    rw [he]
    exact h0 res (by rw [FrameIoResult.ok, hres]; rfl)

/-- Sending a frame that is valid. -/
theorem safe_sendValid {f : Frame} {k : FrameIoResult → Sys α} (hv : f.Valid)
    (h : ∀ r, G w (w.push ⟨.send ⟨f, hv⟩, r⟩) ∧
      Safe (solo (Posix.exec cr) rely) G (k (sendOutcome f r)) (w.push ⟨.send ⟨f, hv⟩, r⟩) Q) :
    Safe (solo (Posix.exec cr) rely) G (sendFrame f >>= k) w Q := by
  rw [sendFrame_bind hv]
  refine safe_op fun r w' hs => ?_
  obtain rfl : w.push ⟨.send ⟨f, hv⟩, r⟩ = w' := Option.some.inj hs.2
  exact h r

theorem safe_receiveFrame {k : Except FrameIoResult Frame → Sys α}
    (h : ∀ r, rely w.log .recv r → G w (w.push ⟨.recv, r⟩) ∧
      (∀ error, r = .error error → Safe (solo (Posix.exec cr) rely) G (k (.error error.result))
        (w.push ⟨.recv, r⟩) Q) ∧
      ∀ f, r = .ok f → Safe (solo (Posix.exec cr) rely) G (k (.ok f.1)) (w.push ⟨.recv, r⟩) Q) :
    Safe (solo (Posix.exec cr) rely) G (receiveFrame >>= k) w Q := by
  rw [receiveFrame_bind]
  refine safe_op fun r w' hs => ?_
  obtain rfl : w.push ⟨.recv, r⟩ = w' := Option.some.inj hs.2
  obtain ⟨hg, he, hk⟩ := h r hs.1
  refine ⟨hg, ?_⟩
  cases r with
  | error error => exact he error rfl
  | ok f => exact hk f rfl

/-- Calls that only read are admitted by the guarantee, and keep what is known of the log. -/
structure Admits (I : List net.Event → Prop) (G : World → World → Prop) : Prop where
  keeps : ∀ {log : List net.Event} {c : Posix.Call} {r : Except Nat (Posix.Val c)}, c.reads = true → I log →
    I (log ++ [⟨.call c, r⟩])
  step : ∀ {w : World} {h' : Posix.Host} {c : Posix.Call} {r : Except Nat (Posix.Val c)}, c.reads = true →
    I w.log → h'.fs = w.host.fs → G w ⟨h', w.log ++ [⟨.call c, r⟩]⟩

theorem safe_read {I : List net.Event → Prop} (hA : Admits I G) {c : Posix.Call}
    {k : Except Nat (Posix.Val c) → Sys α} (hc : c.reads = true) (hI : I w.log)
    (h : ∀ r h', Posix.exec cr c w.host r = some h' → h'.fs = w.host.fs → I (w.log ++ [⟨.call c, r⟩]) →
      Safe (solo (Posix.exec cr) rely) G (k r) ⟨h', w.log ++ [⟨.call c, r⟩]⟩ Q) :
    Safe (solo (Posix.exec cr) rely) G (sys c >>= k) w Q :=
  safe_sys fun r h' he =>
    have hfs := Posix.exec_reads hc he
    ⟨hA.step hc hI hfs, h r h' he hfs (hA.keeps hc hI)⟩

/-- Calls that only read. -/
def ReadCall : net.sig.Op → Prop
  | .call c => c.reads = true
  | _ => False

/-- A program that makes no other calls keeps what they keep; all else can be shown of it with any answers. -/
theorem safe_reading {I : List net.Event → Prop} {p : Sys α} (hp : Uses ReadCall p) (hA : Admits I G)
    (hI : I w.log) (h : ∀ a w', Reach (solo (Posix.exec cr) anyAnswer) (p, w) (.pure a, w') →
      w'.host.fs = w.host.fs → I w'.log →
      Q a w') :
    Safe (solo (Posix.exec cr) rely) G p w Q := by
  have hkeeps := Gives.keeps (R := fun _ => True) hp (I := fun v => v.host.fs = w.host.fs ∧ I v.log)
    (fun o v r v' ho hv (hs : solo (Posix.exec cr) rely o v r v') => ?_) ⟨rfl, hI⟩
  · have hreach := safe_iff_along.mp (safe_self (solo (Posix.exec cr) rely) p w)
    refine safe_iff_along.mpr ((hkeeps.and hreach).mono (fun o k v hv r v' hs => ?_) fun a v hv => ?_)
    · obtain ⟨⟨ho, hv⟩, -⟩ := hv
      cases o with
      | send m => exact absurd ho id
      | recv => exact absurd ho id
      | call c =>
        obtain ⟨h', he, rfl⟩ := Option.map_eq_some_iff.mp hs.2
        exact hA.step ho hv.2 (Posix.exec_reads ho he)
    · exact h a v (reach_mono (fun _ _ _ _ => trivial) hv.2) hv.1.2.1 hv.1.2.2
  · cases o with
    | send m => exact absurd ho id
    | recv => exact absurd ho id
    | call c =>
      obtain ⟨h', he, rfl⟩ := Option.map_eq_some_iff.mp hs.2
      exact ⟨(Posix.exec_reads ho he).trans hv.1, hA.keeps ho hv.2⟩

/-- For programs that end with the first call that fails: `I` is known until then, and `F` after it.  Calls that
read may succeed. -/
structure Permits (rely : net.Rely) (I F : List net.Event → Prop) : Prop where
  grants : ∀ {log : List net.Event} {c : Posix.Call} {x : Posix.Val c}, c.reads = true → rely log (.call c) (.ok x)
  keeps : ∀ {log : List net.Event} {c : Posix.Call} {x : Posix.Val c}, c.reads = true → I log →
    I (log ++ [⟨.call c, .ok x⟩])
  fails : ∀ {log : List net.Event} {c : Posix.Call} {errno : Nat}, c.reads = true →
    rely log (.call c) (.error errno) → I log → F (log ++ [⟨.call c, .error errno⟩])

/-- Nothing is known of the log. -/
theorem permits_anyAnswer : Permits anyAnswer (fun _ => True) fun _ => True :=
  ⟨fun _ => trivial, fun _ _ => trivial, fun _ _ _ => trivial⟩

/-- A call that can be answered. -/
theorem total_answered {I F : List net.Event → Prop} (hP : Permits rely I F) {c : Posix.Call}
    {k : Except Nat (Posix.Val c) → Sys α} (hc : c.reads = true) (hI : I w.log)
    (hcan : ∃ r h₀, rely w.log (.call c) r ∧ Posix.exec cr c w.host r = some h₀)
    (herror : ∀ errno h', h'.fs = w.host.fs → F (w.log ++ [⟨.call c, .error errno⟩]) →
      Total (solo (Posix.exec cr) rely) (k (.error errno)) ⟨h', w.log ++ [⟨.call c, .error errno⟩]⟩ Q)
    (hok : ∀ x h', Posix.exec cr c w.host (.ok x) = some h' → h'.fs = w.host.fs →
      I (w.log ++ [⟨.call c, .ok x⟩]) →
      Total (solo (Posix.exec cr) rely) (k (.ok x)) ⟨h', w.log ++ [⟨.call c, .ok x⟩]⟩ Q) :
    Total (solo (Posix.exec cr) rely) (sys c >>= k) w Q := by
  obtain ⟨r, h₀, hrely, he⟩ := hcan
  have hex : perform (Posix.exec cr) (.call c) w r = some ⟨h₀, w.log ++ [⟨.call c, r⟩]⟩ := by
    simp [perform, he]
  refine total_bind (total_call ⟨r, _, hrely, hex⟩ fun r w' hs => ?_)
  obtain ⟨h', he, rfl⟩ := Option.map_eq_some_iff.mp hs.2
  have hfs := Posix.exec_reads hc he
  cases r with
  | error errno => exact herror errno h' hfs (hP.fails hc hs.1 hI)
  | ok x => exact hok x h' he hfs (hP.keeps hc hI)

/-- A call that can succeed. -/
theorem total_permitted {I F : List net.Event → Prop} (hP : Permits rely I F) {c : Posix.Call}
    {k : Except Nat (Posix.Val c) → Sys α} (hc : c.reads = true) (hI : I w.log) {x : Posix.Val c} {h₀ : Posix.Host}
    (hcan : Posix.exec cr c w.host (.ok x) = some h₀)
    (herror : ∀ errno h', h'.fs = w.host.fs → F (w.log ++ [⟨.call c, .error errno⟩]) →
      Total (solo (Posix.exec cr) rely) (k (.error errno)) ⟨h', w.log ++ [⟨.call c, .error errno⟩]⟩ Q)
    (hok : ∀ x h', Posix.exec cr c w.host (.ok x) = some h' → h'.fs = w.host.fs →
      I (w.log ++ [⟨.call c, .ok x⟩]) →
      Total (solo (Posix.exec cr) rely) (k (.ok x)) ⟨h', w.log ++ [⟨.call c, .ok x⟩]⟩ Q) :
    Total (solo (Posix.exec cr) rely) (sys c >>= k) w Q :=
  total_answered hP hc hI ⟨.ok x, h₀, hP.grants hc, hcan⟩ herror hok

/-- A call that only looks, and can succeed. -/
theorem total_look {I F : List net.Event → Prop} (hP : Permits rely I F) {c : Posix.Call}
    {k : Except Nat (Posix.Val c) → Sys α} (hc : c.looks = true) (hI : I w.log) {x : Posix.Val c} {h₀ : Posix.Host}
    (hcan : Posix.exec cr c w.host (.ok x) = some h₀)
    (herror : ∀ errno, F (w.log ++ [⟨.call c, .error errno⟩]) →
      Total (solo (Posix.exec cr) rely) (k (.error errno)) (w.push ⟨.call c, .error errno⟩) Q)
    (hok : ∀ x, Posix.exec cr c w.host (.ok x) = some w.host → I (w.log ++ [⟨.call c, .ok x⟩]) →
      Total (solo (Posix.exec cr) rely) (k (.ok x)) (w.push ⟨.call c, .ok x⟩) Q) :
    Total (solo (Posix.exec cr) rely) (sys c >>= k) w Q := by
  have hreads := Posix.reads_of_looks hc
  have hex : perform (Posix.exec cr) (.call c) w (.ok x) = some ⟨h₀, w.log ++ [⟨.call c, .ok x⟩]⟩ := by
    simp [perform, hcan]
  refine total_bind (total_call ⟨.ok x, _, hP.grants hreads, hex⟩ fun r w' hs => ?_)
  obtain ⟨h', he, rfl⟩ := Option.map_eq_some_iff.mp hs.2
  obtain rfl := Posix.exec_looks hc he
  cases r with
  | error errno => exact herror errno (hP.fails hreads hs.1 hI)
  | ok x => exact hok x he (hP.keeps hreads hI)

end Rules

end SyncWire
