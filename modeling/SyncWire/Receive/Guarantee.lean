import Mathlib.Algebra.BigOperators.Group.Finset.Basic
import SyncWire.FileTransfer

/-!
# What one step of `receive_file` can do

Says once, for an upload, every change a step may make to the destination
(`Upload.Change`, and `Upload.Committed` for the rename) and under which
circumstances a result is sent.  `Upload.Guarantee` is the whole of it, as a relation
between the states before and after a step; what holds of whole runs is derived from
it later, by induction on steps.
-/

namespace SyncWire

open Wire Effect Posix Posix.Fs FileTransfer

/-- An upload to a destination. -/
structure Upload where
  cr : Crypto
  root : Path
  requestId : UInt64
  metadata : UploadMetadata
  limits : TransferLimits

namespace Upload

variable (u : Upload)

def stateRoot : Path := u.root ++ [kPartialDirectory]

def finalPath : Path := u.root ++ components u.metadata.filename

def partName : Name := partNameOf (u.cr.sha256 (encodeUploadMetadata u.metadata))

def partPath : Path := u.stateRoot ++ [u.partName]

/-- The transfer with its two descriptors. -/
def transfer (directory partFile : Fd) : Transfer where
  requestId := u.requestId
  metadata := u.metadata
  limits := u.limits
  prepared := { finalPath := u.finalPath, stateRoot := u.stateRoot, partName := u.partName, directory }
  partFile

/-- The part files of other uploads. -/
def others (fs : Fs) : Finset Name := (fs.names u.stateRoot).erase u.partName

/-- With this upload's declared size reserved, the state directory is within the limits. -/
def Budget (fs : Fs) : Prop :=
  (u.others fs).card + 1 ≤ u.limits.maxPartialFiles ∧
    u.metadata.fileSize.toNat + ∑ n ∈ u.others fs, fs.sizeAt (u.stateRoot ++ [n]) ≤
      u.limits.maxPartialBytes.toNat

/-- `i` is the part file's inode, and has no other name. -/
def OnlyName (fs : Fs) (i : Nat) : Prop := ∀ q, fs.node q = some (.file i) ↔ q = u.partPath

/-- `x` continues the content `d` as a chunk that was received for this upload says. -/
def Continues (log : List net.Event) (d x : Bytes) : Prop :=
  ∃ f ∈ received log, f.1.header.requestId = u.requestId ∧ f.1.header.transferId = u.requestId ∧
    f.1.header.messageType = .fileChunk ∧ ∃ chunk, decodeFileChunk (.of f.1.payload) = .ok chunk ∧
      ∃ j, d.length = chunk.offset.toNat + j ∧ x <+: chunk.data.drop j

/-- Directories that may have to be made: above the final path, and the state directory. -/
def OnTheWay (p : Path) : Prop := (∃ s, s ≠ [] ∧ p ++ s = u.finalPath) ∨ p = u.stateRoot

/-- What a step other than the rename may do to the file system. -/
inductive Change (log : List net.Event) (fs fs' : Fs) : Prop
  | same (h : fs' = fs)
  | makeDir (p : Path) (hp : u.OnTheWay p) (h : MadeDir p fs fs')
  | createPart (i uid : Nat) (hb : u.Budget fs) (h : Created u.partPath i uid fs fs')
  | clearPart (i : Nat) (hi : u.OnlyName fs i) (h : fs' = fs.setData i [])
  | extendPart (i : Nat) (x : Bytes) (hb : u.Budget fs) (hi : u.OnlyName fs i)
      (hlen : ((fs.inode i).data ++ x).length ≤ u.metadata.fileSize.toNat)
      (hx : u.Continues log (fs.inode i).data x) (h : fs' = fs.setData i ((fs.inode i).data ++ x))
  | dropPart (h : Removed u.partPath fs fs')

/-- The rename: the part file, complete and with the declared checksum, takes the final path. -/
def Committed (fs fs' : Fs) : Prop :=
  ∃ i, u.OnlyName fs i ∧ (fs.inode i).data.length = u.metadata.fileSize.toNat ∧
    crc32 (fs.inode i).data = u.metadata.checksum ∧ fs.node u.finalPath ≠ some .dir ∧
    fs'.node = Function.update (Function.update fs.node u.partPath none) u.finalPath (some (.file i)) ∧
    fs'.inode = fs.inode

/-! ## History -/

def renameDone : net.Event := ⟨.call (.rename u.partPath u.finalPath), .ok ()⟩

/-- The rename succeeded after `start`. -/
def Renamed (start log : List net.Event) : Prop := ∃ l, log = start ++ l ∧ u.renameDone ∈ l

/-- The event sends a `TransferResult` with this code. -/
def IsResult (e : net.Event) (code : TransferResultCode) : Prop :=
  ∃ f r, e = ⟨.send f, r⟩ ∧ f.1.header.messageType = .transferResult ∧
    f.1.payload = encodeTransferResult code

/-- The frames that `receive_file` sends, with the id of the request. -/
def ServerFrame (e : net.Event) : Prop :=
  ∀ f r, e = ⟨.send f, r⟩ → f.1.header.requestId = u.requestId ∧
    (f.1.header.messageType = .transferReady ∨ f.1.header.messageType = .acknowledgment ∨
      f.1.header.messageType = .transferResult)

/-- After the rename, opening or syncing a directory failed. -/
def DirectorySyncFailed (start : List net.Event) (w : World) : Prop :=
  ∃ l l', w.log = start ++ l ++ u.renameDone :: l' ∧ ∃ e ∈ l', ∃ errno,
    e = ⟨.call (.openDir u.finalPath.dropLast), .error errno⟩ ∨
      ∃ fd p, w.host.files fd = some (.directory p) ∧ e = ⟨.call (.fsync fd), .error errno⟩

/-- What every step of `receive_file`, entered with the log `start`, satisfies. -/
def Guarantee (start : List net.Event) (w w' : World) : Prop :=
  ∃ e, w'.log = w.log ++ [e] ∧
    (u.Renamed start w.log → w'.host.fs = w.host.fs ∧ e ≠ u.renameDone) ∧
    (¬ u.Renamed start w.log → e = u.renameDone → u.Committed w.host.fs w'.host.fs) ∧
    (¬ u.Renamed start w.log → e ≠ u.renameDone → u.Change w.log w.host.fs w'.host.fs) ∧
    u.ServerFrame e ∧
    ∀ code, IsResult e code →
      (code = .success → u.Renamed start w.log) ∧
      (code ≠ .success → u.Renamed start w.log → u.DirectorySyncFailed start w)

/-- A result is a success only after the rename. -/
def Done (start : List net.Event) (r : FileTransferResult) (w : World) : Prop :=
  r.ok = true → u.Renamed start w.log

/-- Entered with `start`, and not renamed yet. -/
def Open (start log : List net.Event) : Prop := ∃ l, log = start ++ l ∧ u.renameDone ∉ l

variable {u} {start log : List net.Event} {w w' : World}

theorem Open.not_renamed (h : u.Open start log) : ¬ u.Renamed start log := by
  obtain ⟨l, hl, hn⟩ := h
  rintro ⟨l', hl', hm⟩
  rw [hl] at hl'
  exact hn (List.append_cancel_left hl' ▸ hm)

theorem Renamed.push (h : u.Renamed start log) (e : net.Event) : u.Renamed start (log ++ [e]) := by
  obtain ⟨l, rfl, hm⟩ := h
  exact ⟨l ++ [e], by simp, List.mem_append_left _ hm⟩

theorem done_of_not_ok {r : FileTransferResult} (h : r.ok = false) : u.Done start r w := fun hr => by
  rw [h] at hr
  cases hr

theorem open_start (u : Upload) (log : List net.Event) : u.Open log log := ⟨[], by simp, by simp⟩

theorem Open.push (h : u.Open start log) {e : net.Event} (he : e ≠ u.renameDone) :
    u.Open start (log ++ [e]) := by
  obtain ⟨l, hl, hn⟩ := h
  exact ⟨l ++ [e], by rw [hl, List.append_assoc], by simpa using ⟨hn, Ne.symm he⟩⟩

/-- Neither a result nor a frame of another kind is sent. -/
def Quiet (u : Upload) (e : net.Event) : Prop :=
  ∀ f r, e = ⟨.send f, r⟩ → f.1.header.requestId = u.requestId ∧
    (f.1.header.messageType = .transferReady ∨ f.1.header.messageType = .acknowledgment)

theorem Quiet.serverFrame {e : net.Event} (h : u.Quiet e) : u.ServerFrame e :=
  fun f r he => (h f r he).imp id fun ht => ht.imp id .inl

theorem Quiet.not_isResult {e : net.Event} (h : u.Quiet e) {code : TransferResultCode} : ¬ IsResult e code := by
  rintro ⟨f, r, he, ht, -⟩
  rcases (h f r he).2 with h | h <;>
    · rw [ht] at h
      cases h

theorem quiet_call {c : Posix.Call} {r : Except Nat (Posix.Val c)} : u.Quiet (⟨.call c, r⟩ : net.Event) := by
  intro f r' h
  cases h

theorem quiet_recv {r : Except ReceiveFailure WireFrame} : u.Quiet (⟨.recv, r⟩ : net.Event) := by
  intro f r' h
  cases h

theorem quiet_send {f : WireFrame} {r : Except IoFailure Unit} (hid : f.1.header.requestId = u.requestId)
    (hf : f.1.header.messageType = .transferReady ∨ f.1.header.messageType = .acknowledgment) :
    u.Quiet (⟨.send f, r⟩ : net.Event) := by
  intro f' r' h
  cases h
  exact ⟨hid, hf⟩

/-- A step that leaves the file system alone and is neither the rename nor a result. -/
theorem guarantee_quiet {e : net.Event} (hl : w'.log = w.log ++ [e]) (hfs : w'.host.fs = w.host.fs)
    (he : e ≠ u.renameDone) (hq : u.Quiet e) : u.Guarantee start w w' :=
  ⟨e, hl, fun _ => ⟨hfs, he⟩, fun _ h => absurd h he, fun _ _ => .same hfs, hq.serverFrame,
    fun _ hc => absurd hc hq.not_isResult⟩

theorem call_ne_renameDone {c : Posix.Call} {r : Except Nat (Posix.Val c)}
    (hc : c ≠ .rename u.partPath u.finalPath) : (⟨.call c, r⟩ : net.Event) ≠ u.renameDone := by
  intro h
  have := congrArg NetSig.Event.op h
  simp only [renameDone, NetOp.call.injEq] at this
  exact hc this

theorem send_ne_renameDone {f : WireFrame} {r : Except IoFailure Unit} :
    (⟨.send f, r⟩ : net.Event) ≠ u.renameDone := fun h => by
  have := congrArg NetSig.Event.op h
  cases this

theorem recv_ne_renameDone {r : Except ReceiveFailure WireFrame} :
    (⟨.recv, r⟩ : net.Event) ≠ u.renameDone := fun h => by
  have := congrArg NetSig.Event.op h
  cases this

theorem Open.call (h : u.Open start log) {c : Posix.Call} {r : Except Nat (Posix.Val c)}
    (hc : c ≠ .rename u.partPath u.finalPath) : u.Open start (log ++ [⟨.call c, r⟩]) :=
  h.push (call_ne_renameDone hc)

theorem Open.look (h : u.Open start log) {c : Posix.Call} {r : Except Nat (Posix.Val c)}
    (hc : c.looks = true) : u.Open start (log ++ [⟨.call c, r⟩]) :=
  h.call (by rintro rfl; cases hc)

theorem Open.send (h : u.Open start log) {f : WireFrame} {r : Except IoFailure Unit} :
    u.Open start (log ++ [⟨.send f, r⟩]) := h.push send_ne_renameDone

theorem Open.recv (h : u.Open start log) {r : Except ReceiveFailure WireFrame} :
    u.Open start (log ++ [⟨.recv, r⟩]) := h.push recv_ne_renameDone

/-- Before the rename, a call that makes one of the listed changes. -/
theorem guarantee_change {c : Posix.Call} {r : Except Nat (Posix.Val c)} (ho : u.Open start w.log)
    (hl : w'.log = w.log ++ [⟨.call c, r⟩]) (hc : c ≠ .rename u.partPath u.finalPath)
    (h : u.Change w.log w.host.fs w'.host.fs) : u.Guarantee start w w' :=
  ⟨_, hl, fun hr => absurd hr ho.not_renamed, fun _ he => absurd he (call_ne_renameDone hc), fun _ _ => h,
    quiet_call.serverFrame, fun _ hr => absurd hr (quiet_call (u := u)).not_isResult⟩

end Upload

end SyncWire
