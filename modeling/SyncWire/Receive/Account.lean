import Mathlib.Data.List.Forall2
import SyncWire.Receive.Stages

/-!
# What is asked of a run of `receive_file`

`content` says what the part file must hold after a run of chunks: what was retained
of the old part file, and the chunks' data.  Content, write position, offset and
running checksum are kept in step with it (`Held`); `Exact` asks this of every ready
message and every acknowledgment at the moment it is sent, and of every `write` that it
writes the last chunk received, in its place.  `Outcome` says what is known when the run
is over, of the result and of the part file (`Fate`).

`Abides` asks for all of it at once: the guarantee of every step, exact reports and writes,
and a postcondition.  A stage that neither reports nor writes has to be walked for its
guarantee only (`abides_idle_bind`, `abides_local_bind`).
-/

namespace SyncWire

open Wire Effect Posix Posix.Fs FileTransfer

/-- What `receive_file` still does once a ready message or an acknowledgment was sent. -/
def continueTransfer (t : Transfer) (p : Progress) : Sys FileTransferResult := do
  match ← receiveChunks t p with
  | .error result => pure result
  | .ok p => commit t p

/-- Every event but a failed `unlinkat`. -/
def unlinked (e : net.Event) : Bool :=
  match e with
  | ⟨.call (.unlinkat _ _), .error _⟩ => false
  | _ => true

namespace Upload

/-- A frame of this upload that carries the chunk. -/
def IsChunk (u : Upload) (f : WireFrame) (chunk : FileChunk) : Prop :=
  f.1.header.requestId = u.requestId ∧ f.1.header.transferId = u.requestId ∧
    f.1.header.messageType = .fileChunk ∧ decodeFileChunk (.of f.1.payload) = .ok chunk

/-- What is kept of the old part file `P`: nothing if it is too long or the first chunk starts again. -/
def retained (u : Upload) (P : Bytes) : List FileChunk → Bytes
  | [] => if u.metadata.fileSize.toNat < P.length then [] else P
  | chunk :: _ => if u.metadata.fileSize.toNat < P.length ∨ chunk.offset = 0 then [] else P

/-- The part file after these chunks. -/
def content (u : Upload) (P : Bytes) (chunks : List FileChunk) : Bytes :=
  u.retained P chunks ++ chunks.flatMap (·.data)

/-- The part file before the last chunk. -/
def before (u : Upload) (P : Bytes) (chunks : List FileChunk) (chunk : FileChunk) : Bytes :=
  u.retained P (chunks ++ [chunk]) ++ chunks.flatMap (·.data)

/-- The part file is open at `pos` and holds `D`. -/
def PartAt (u : Upload) (f : Fd) (pos : Nat) (D : Bytes) (h : Host) : Prop :=
  ∃ i, h.files f = some (.regular i pos) ∧ h.fs.node u.partPath = some (.file i) ∧ (h.fs.inode i).data = D

/-- The part file holds `D`, and the write position is at its end. -/
abbrev AtEnd (u : Upload) (f : Fd) (D : Bytes) (h : Host) : Prop := u.PartAt f D.length D h

/-- Content, position, offset and running checksum are in step. -/
structure Held (u : Upload) (f : Fd) (p : Progress) (D : Bytes) (h : Host) : Prop where
  file : u.AtEnd f D h
  offset : p.offset.toNat = D.length
  fits : D.length ≤ u.metadata.fileSize.toNat
  sum : p.checksum = ({} : Crc32).update D

/-- The chunks received since `start`, all of them accepted. -/
def Accepted (u : Upload) (start log : List net.Event) (chunks : List FileChunk) : Prop :=
  ∃ fs, received log = received start ++ fs ∧ List.Forall₂ u.IsChunk fs chunks

/-- `x` is what is still to be written of the last chunk received, which fits where the file ends. -/
def Writes (u : Upload) (start : List net.Event) (P : Bytes) (fd : Fd) (x : Bytes) (w : World) : Prop :=
  ∃ chunks chunk j, u.Accepted start w.log (chunks ++ [chunk]) ∧
    chunk.offset.toNat = (u.before P chunks chunk).length ∧ chunk.data.length ≤ u.limits.chunkSize ∧
    (u.before P chunks chunk).length + chunk.data.length ≤ u.metadata.fileSize.toNat ∧
    u.AtEnd fd (u.before P chunks chunk ++ chunk.data.take j) w.host ∧ x = chunk.data.drop j

/-- A ready message or an acknowledgment. -/
def Reports (m : WireFrame) : Prop :=
  m.1.header.messageType = .transferReady ∨ m.1.header.messageType = .acknowledgment

/-- `m` reports the offset that goes with these chunks. -/
def Report (u : Upload) (P : Bytes) (chunks : List FileChunk) (offset : UInt64) (m : WireFrame) : Prop :=
  m.1.header.messageType = .transferReady ∧ chunks = [] ∧
      m.1.payload = encodeTransferReady ⟨offset, crc32 (u.content P chunks)⟩ ∨
    m.1.header.messageType = .acknowledgment ∧ chunks ≠ [] ∧ m.1.payload = encodeOffset offset

/-- What is asked of an operation; after a report the program goes on as `R` says. -/
def Exact {α : Type} (u : Upload) (start : List net.Event) (P : Bytes) (R : Fd → Progress → Sys α → Prop) :
    Watch net.sig World α
  | .send m, k, w => Reports m → ∃ f p chunks, R f p (k (.ok ())) ∧ u.Accepted start w.log chunks ∧
      u.Held f p (u.content P chunks) w.host ∧ u.Report P chunks p.offset m
  | .call (.write fd x), _, w => u.Writes start P fd x w
  | _, _, _ => True

/-- Neither reports nor writes. -/
def Idle : net.sig.Op → Prop
  | .send m => ¬ Reports m
  | .call (.write _ _) => False
  | _ => True

/-! ## The end of a run -/

/-- The connection was lost while a frame was received, or while a report was sent. -/
def Lost (e : net.Event) : Prop :=
  ∃ failure, e = ⟨.recv, .error (.io failure)⟩ ∨ ∃ m, Reports m ∧ e = ⟨.send m, .error failure⟩

/-- The last thing that happened is that the connection was lost, and the sync after that succeeded. -/
def Interrupted (log : List net.Event) : Prop :=
  ∃ l e fd, log = l ++ [e, ⟨.call (.fsync fd), .ok ()⟩] ∧ Lost e

/-- There is no part file, and the transfer was not interrupted. -/
def Gone (u : Upload) (w : World) : Prop := w.host.fs.node u.partPath = none ∧ ¬ Interrupted w.log

/-- The part file was left for another attempt: what was retained of `P`, and every chunk received. -/
def Saved (u : Upload) (start : List net.Event) (P : Bytes) (result : FileTransferResult) (w : World) : Prop :=
  Interrupted w.log ∧ ∃ chunks, u.Accepted start w.log chunks ∧
    w.host.fs.fileAt u.partPath = some (u.content P chunks) ∧
    result.transferred.toNat = (u.content P chunks).length

/-- How the part file is left. -/
def Fate (u : Upload) (start : List net.Event) (P : Bytes) (result : FileTransferResult) (w : World) : Prop :=
  u.Gone w ∨ u.Saved start P result w

/-- A ready message has been sent since, or it was tried. -/
def Readied (start log : List net.Event) : Prop :=
  ∃ l, log = start ++ l ∧ ∃ m ∈ sent l, m.1.header.messageType = .transferReady

/-- No ready message has been sent yet. -/
def Unready (start log : List net.Event) : Prop :=
  ∃ l, log = start ++ l ∧ ∀ m ∈ sent l, m.1.header.messageType ≠ .transferReady

/-- `unlinkat` has not failed since. -/
def Clean (start log : List net.Event) : Prop := ∃ l, log = start ++ l ∧ ∀ e ∈ l, unlinked e = true

/-- What is known when the run is over: the result is a success only after the rename; and the part file has
one of its fates, if a ready message was sent and `unlinkat` did not fail. -/
structure Outcome (u : Upload) (start : List net.Event) (P : Bytes) (result : FileTransferResult) (w : World) :
    Prop where
  done : u.Done start result w
  fate : Clean start w.log → Readied start w.log → u.Fate start P result w

variable {u : Upload} {start log : List net.Event} {P : Bytes} {w : World} {d f : Fd} {α β γ : Type}
  {R : Fd → Progress → Sys α → Prop} {Q : α → World → Prop} {chunks : List FileChunk} {chunk : FileChunk}

/-! ## What is kept, chunk by chunk -/

theorem content_concat : u.content P (chunks ++ [chunk]) = u.before P chunks chunk ++ chunk.data := by
  simp [content, before]

/-- Unless the first chunk starts again behind an old part, nothing is dropped. -/
theorem before_eq_content (h : chunks = [] → u.content P [] = [] ∨ chunk.offset ≠ 0) :
    u.before P chunks chunk = u.content P chunks := by
  cases chunks with
  | cons c cs => rfl
  | nil =>
    rcases h rfl with h | h
    · simp only [content, List.flatMap_nil, List.append_nil, retained] at h
      simp only [before, content, List.nil_append, List.flatMap_nil, List.append_nil, retained]
      split at h <;> simp_all
    · simp [before, content, retained, h]

theorem accepted_start (u : Upload) (start : List net.Event) : u.Accepted start start [] := ⟨[], by simp, .nil⟩

theorem Accepted.congr {log' : List net.Event} (h : u.Accepted start log chunks)
    (he : received log' = received log) : u.Accepted start log' chunks := by
  obtain ⟨fs, hl, hf⟩ := h
  exact ⟨fs, he.trans hl, hf⟩

theorem Accepted.call (h : u.Accepted start log chunks) {c : Posix.Call} {r : Except Nat (Posix.Val c)} :
    u.Accepted start (log ++ [⟨.call c, r⟩]) chunks :=
  h.congr (by rw [received_append, received_call, List.append_nil])

theorem Accepted.send (h : u.Accepted start log chunks) {m : WireFrame} {r : Except IoFailure Unit} :
    u.Accepted start (log ++ [⟨.send m, r⟩]) chunks :=
  h.congr (by rw [received_append, received_send, List.append_nil])

theorem Accepted.recv {m : WireFrame} (h : u.Accepted start log chunks) (hm : u.IsChunk m chunk) :
    u.Accepted start (log ++ [⟨.recv, .ok m⟩]) (chunks ++ [chunk]) := by
  obtain ⟨fs, hl, hf⟩ := h
  exact ⟨fs ++ [m], by rw [received_append, received_ok, hl, List.append_assoc],
    List.rel_append hf (.cons hm .nil)⟩

/-- What is written of the last chunk continues the file. -/
theorem Accepted.continues (h : u.Accepted start log (chunks ++ [chunk])) {D x : Bytes} {j : Nat}
    (hj : D.length = chunk.offset.toNat + j) (hx : x <+: chunk.data.drop j) : u.Continues log D x := by
  obtain ⟨fs, hl, hf⟩ := h
  obtain ⟨m, _, ⟨h1, h2, h3, hc⟩, -, hlast⟩ := List.forall₂_cons_right_iff.mp
    (List.forall₂_drop_append fs chunks [chunk] hf)
  have hm : m ∈ fs := List.mem_of_mem_drop (by rw [hlast]; exact List.mem_cons_self ..)
  exact ⟨m, by rw [hl]; exact List.mem_append_right _ hm, h1, h2, h3, chunk, hc, j, hj, hx⟩

/-! ## Histories -/

theorem unready_start (start : List net.Event) : Unready start start := ⟨[], by simp, by simp [sent]⟩

theorem Unready.not_readied (h : Unready start log) : ¬ Readied start log := by
  obtain ⟨l, rfl, hl⟩ := h
  rintro ⟨l', he, m, hm, htype⟩
  rw [List.append_cancel_left he] at hl
  exact hl m hm htype

theorem Unready.push (h : Unready start log) {o : net.sig.Op} (ho : Idle o) {r : net.sig.Res o} :
    Unready start (log ++ [⟨o, r⟩]) := by
  obtain ⟨l, rfl, hl⟩ := h
  refine ⟨l ++ [⟨o, r⟩], List.append_assoc .., fun m hm htype => ?_⟩
  rw [sent_append] at hm
  rcases List.mem_append.mp hm with hm | hm
  · exact hl m hm htype
  · cases o with
    | send m' =>
      cases List.mem_singleton.mp hm
      exact ho (.inl htype)
    | recv => cases hm
    | call c => cases hm

/-- What is clean was so one event ago, and that event is no failed `unlinkat`. -/
theorem Clean.pop {e : net.Event} (h : Clean start (log ++ [e])) (ho : u.Open start log) :
    Clean start log ∧ unlinked e = true := by
  obtain ⟨l, rfl, -⟩ := ho
  obtain ⟨l', hl, hun⟩ := h
  rw [List.append_assoc] at hl
  obtain rfl := List.append_cancel_left hl
  exact ⟨⟨l, rfl, fun e he => hun e (List.mem_append_left _ he)⟩, hun e (by simp)⟩

theorem not_interrupted {e : net.Event} (h : ∀ fd, e ≠ ⟨.call (.fsync fd), .ok ()⟩) :
    ¬ Interrupted (log ++ [e]) := by
  rintro ⟨l', e', fd, hl, -⟩
  rw [List.append_cons l' e' [_]] at hl
  exact h fd (List.append_inj_right' hl rfl |> List.singleton_inj.mp)

theorem Gone.send {m : WireFrame} {r : Except IoFailure Unit} (h : w.host.fs.node u.partPath = none) :
    u.Gone (w.push ⟨.send m, r⟩) := ⟨h, not_interrupted fun fd he => by cases he⟩

variable {result : FileTransferResult}

theorem outcome_unready (hres : result.ok = false) (h : Unready start w.log) : u.Outcome start P result w :=
  ⟨done_of_not_ok hres, fun _ hr => absurd hr h.not_readied⟩

theorem outcome_gone (hd : u.Done start result w) (h : Clean start w.log → u.Gone w) :
    u.Outcome start P result w :=
  ⟨hd, fun hc _ => .inl (h hc)⟩

/-! ## Stages that neither report nor write -/

theorem idle_of_local (o : net.sig.Op) (h : Local o) : Idle o := by
  cases o with
  | send m => exact absurd h id
  | recv => trivial
  | call c => cases c <;> trivial

theorem Idle.exact {o : net.sig.Op} (h : Idle o) (k : net.sig.Res o → Sys α) : u.Exact start P R o k w := by
  cases o with
  | send m => exact fun hm => absurd hm h
  | recv => trivial
  | call c =>
    cases c with
    | write fd x => exact absurd h id
    | _ => trivial

theorem idle_sendResult (requestId transferId : UInt64) (code : TransferResultCode) {k : FrameIoResult → Sys α}
    (hk : ∀ res, Uses Idle (k res)) : Uses Idle (sendResult requestId transferId code >>= k) :=
  uses_sendFrame (fun _ => by rintro (h | h) <;> cases h) hk

theorem idle_rejectBeforeReady (requestId : UInt64) (result : FileTransferResult) :
    Uses Idle (rejectBeforeReady requestId result) :=
  idle_sendResult _ _ _ fun res => by split <;> exact uses_pure _

theorem idle_rejectTransfer (t : Transfer) (committed : Bool) (result : FileTransferResult) :
    Uses Idle (rejectTransfer t committed result) :=
  uses_bind ((local_cleanup t committed).uses.mono idle_of_local) fun _ => idle_sendResult _ _ _ fun res => by
    split <;> exact uses_pure _

theorem idle_interrupted (t : Transfer) (offset resumedFrom : UInt64) (io : FrameIoResult) :
    Uses Idle (interrupted t offset resumedFrom io) := by
  unfold interrupted
  simp only
  split
  · refine uses_sys trivial fun r => ?_
    cases r with
    | error e => exact uses_bind ((local_cleanup t false).uses.mono idle_of_local) fun _ => uses_pure _
    | ok _ => exact uses_pure _
  · exact uses_bind ((local_cleanup t false).uses.mono idle_of_local) fun _ => uses_pure _

theorem idle_commit (t : Transfer) (p : Progress) : Uses Idle (commit t p) := by
  rcases commit_cases t p with ⟨r, -, he⟩ | ⟨-, he⟩
  · rw [he]
    exact idle_rejectTransfer _ _ _
  · rw [he]
    refine uses_sys trivial fun r => ?_
    cases r with
    | error e => exact idle_rejectTransfer _ _ _
    | ok _ =>
      refine uses_sys trivial fun r => ?_
      cases r with
      | error e => exact idle_rejectTransfer _ _ _
      | ok _ =>
        refine uses_bind ((local_syncDirectories t).uses.mono idle_of_local) fun r => ?_
        cases r with
        | error e => exact idle_rejectTransfer _ _ _
        | ok _ => exact idle_sendResult _ _ _ fun res => by split <;> exact uses_pure _

/-- Programs that do not report send no ready message. -/
theorem along_unready {cr : Crypto} {rely : net.Rely} {p : Sys α} (hp : Uses Idle p) (h : Unready start w.log) :
    Along (solo (exec cr) rely) (fun _ _ _ => True) p w fun _ w' => Unready start w'.log := by
  have hstep : Safe (solo (exec cr) rely) (fun w w' => Unready start w.log → Unready start w'.log) p w
      fun _ _ => True := by
    refine safe_iff_along.mpr ((hp.along w).mono (fun o _ w' ho r w'' hs hu => ?_) fun _ _ h => h)
    rw [perform_log hs.2]
    exact hu.push ho
  have hkeep := hstep.keeps (fun w' => Unready start w'.log) h fun _ _ hu hg => hg hu
  exact (safe_iff_along.mp hkeep).mono (fun _ _ _ _ => trivial) fun _ _ hq => hq.2

/-! ## The guarantee, exact reports and a postcondition -/

/-- What is asked of an operation in all: the guarantee, and to be exact. -/
def Duty (u : Upload) (start : List net.Event) (P : Bytes) (R : Fd → Progress → Sys α → Prop) :
    Watch net.sig World α := fun o k w =>
  (∀ r w', solo (exec u.cr) anyAnswer o w r w' → u.Guarantee start w w') ∧ u.Exact start P R o k w

/-- Every step of `p` keeps the guarantee, and every report and every `write` is exact. -/
abbrev Abides (u : Upload) (start : List net.Event) (P : Bytes) (R : Fd → Progress → Sys α → Prop) (p : Sys α)
    (w : World) (Q : α → World → Prop) : Prop := Along (solo (exec u.cr) anyAnswer) (u.Duty start P R) p w Q

theorem Abides.safely {p : Sys α} (h : u.Abides start P R p w Q) : u.Safely start p w Q :=
  safe_iff_along.mpr (h.mono (fun _ _ _ hd => hd.1) fun _ _ hq => hq)

theorem Abides.exact {p : Sys α} (h : u.Abides start P R p w Q) :
    Along (solo (exec u.cr) anyAnswer) (u.Exact start P R) p w Q := h.mono (fun _ _ _ hd => hd.2) fun _ _ hq => hq

/-- In a longer program. -/
theorem Exact.bind {R' : Fd → Progress → Sys β → Prop} {g : α → Sys β}
    (hR : ∀ f p q, R f p q → R' f p (q.bind g)) {o : net.sig.Op} {k : net.sig.Res o → Sys α}
    (h : u.Exact start P R o k w) : u.Exact start P R' o (fun r => (k r).bind g) w := by
  cases o with
  | send m =>
    intro hm
    obtain ⟨f, p, chunks, hr, hrest⟩ := h hm
    exact ⟨f, p, chunks, hR f p _ hr, hrest⟩
  | recv => trivial
  | call c =>
    cases c with
    | write fd x => exact h
    | _ => trivial

theorem abides_bind {R' : Fd → Progress → Sys β → Prop} {p : Sys α} {g : α → Sys β} {Q : β → World → Prop}
    (hR : ∀ f p q, R f p q → R' f p (q.bind g))
    (h : u.Abides start P R p w fun a w' => u.Abides start P R' (g a) w' Q) :
    u.Abides start P R' (p >>= g) w Q :=
  along_bind (h.mono (fun _ _ _ hd => ⟨hd.1, hd.2.bind hR⟩) fun _ _ hg => hg)

theorem abides_iter {σ : Type} {R : Fd → Progress → Sys (σ ⊕ α) → Prop} {R' : Fd → Progress → Sys α → Prop}
    {body : σ → Sys (σ ⊕ α)} (J : σ → World → Prop)
    (hR : ∀ f p q, R f p q → R' f p (q.bind (Prog.next body .pure)))
    (h : ∀ s w, J s w → u.Abides start P R (body s) w fun x w' => x.elim (fun s' => J s' w') fun a => Q a w')
    {s : σ} (hJ : J s w) : u.Abides start P R' (Prog.iter body s) w Q :=
  along_iter J (fun s w hJ => (h s w hJ).mono (fun _ _ _ hd => ⟨hd.1, hd.2.bind hR⟩) fun _ _ hx => hx) hJ

/-- A stage that does not report, and what comes after it. -/
theorem abides_stage_bind {p : Sys γ} {g : γ → Sys α}
    (h : u.Abides start P (fun _ _ _ => False) p w fun a w' => u.Abides start P R (g a) w' Q) :
    u.Abides start P R (p >>= g) w Q :=
  abides_bind (fun _ _ _ hr => hr.elim) h

theorem Safely.abides {p : Sys α} (h : u.Safely start p w Q) (hp : Uses Idle p) : u.Abides start P R p w Q :=
  ((safe_iff_along.mp h).and (hp.along w)).mono (fun _ k _ hv => ⟨hv.1, hv.2.exact k⟩) fun _ _ hq => hq.1

/-- A stage that neither reports nor writes, and what comes after it. -/
theorem abides_idle_bind {p : Sys γ} {g : γ → Sys α} (hp : Uses Idle p)
    (h : u.Safely start p w fun a w' => u.Abides start P R (g a) w' Q) : u.Abides start P R (p >>= g) w Q :=
  abides_stage_bind (h.abides hp)

/-- Between the two, system calls only. -/
def Calls (log log' : List net.Event) : Prop := ∃ l, log' = log ++ l ∧ received l = [] ∧ sent l = []

theorem Accepted.calls {log' : List net.Event} (h : u.Accepted start log chunks) (hc : Calls log log') :
    u.Accepted start log' chunks := by
  obtain ⟨l, rfl, hl, -⟩ := hc
  exact h.congr (by rw [received_append, hl, List.append_nil])

theorem Unready.calls {log' : List net.Event} (h : Unready start log) (hc : Calls log log') :
    Unready start log' := by
  obtain ⟨l, rfl, -, hl⟩ := hc
  obtain ⟨l', rfl, hun⟩ := h
  exact ⟨l' ++ l, List.append_assoc .., by rwa [sent_append, hl, List.append_nil]⟩

theorem Calls.push {log' : List net.Event} (h : Calls log log') {c : Posix.Call} {r : Except Nat (Posix.Val c)} :
    Calls log (log' ++ [⟨.call c, r⟩]) := by
  obtain ⟨l, rfl, hr, hs⟩ := h
  refine ⟨l ++ [⟨.call c, r⟩], List.append_assoc .., ?_, ?_⟩
  · rw [received_append, hr, received_call, List.append_nil]
  · rw [sent_append, hs]
    rfl

/-- A stage that makes other system calls than `write`, and what comes after it. -/
theorem abides_local_bind {p : Sys γ} {g : γ → Sys α} (hp : Uses Local p)
    (h : u.Safely start p w fun a w' => Calls w.log w'.log → u.Abides start P R (g a) w' Q) :
    u.Abides start P R (p >>= g) w Q := by
  have hstep : Safe (solo (exec u.cr) anyAnswer)
      (fun v v' => Calls w.log v.log → Calls w.log v'.log) p w fun _ _ => True := by
    refine safe_iff_along.mpr ((hp.along w).mono (fun o _ v ho r v' hs hc => ?_) fun _ _ h => h)
    rw [perform_log hs.2]
    cases o with
    | send m => exact absurd ho id
    | recv => exact absurd ho id
    | call c => exact hc.push
  have hcalls := hstep.keeps (fun v => Calls w.log v.log) ⟨[], by simp, rfl, rfl⟩ fun _ _ hc hg => hg hc
  refine abides_idle_bind (hp.mono idle_of_local) (safe_mono (h.and_along (safe_iff_along.mp hcalls)) ?_)
  exact fun _ _ ⟨hg, _, hc⟩ => hg hc

/-! ## Rules for single operations -/

theorem abides_sys {c : Posix.Call} {k : Except Nat (Posix.Val c) → Sys α}
    (hx : u.Exact start P R (.call c) k w)
    (h : ∀ r h', exec u.cr c w.host r = some h' → u.Guarantee start w ⟨h', w.log ++ [⟨.call c, r⟩]⟩ ∧
      u.Abides start P R (k r) ⟨h', w.log ++ [⟨.call c, r⟩]⟩ Q) :
    u.Abides start P R (sys c >>= k) w Q := by
  refine along_sys ⟨fun r w' hs => ?_, hx⟩ fun r h' he => (h r h' he).2
  obtain ⟨h', he, rfl⟩ := Option.map_eq_some_iff.mp hs.2
  exact (h r h' he).1

theorem abides_look {c : Posix.Call} {k : Except Nat (Posix.Val c) → Sys α} (hc : c.looks = true)
    (h : ∀ r, u.Abides start P R (k r) (w.push ⟨.call c, r⟩) Q) : u.Abides start P R (sys c >>= k) w Q := by
  have hidle : Idle (.call c) := by
    cases c with
    | write fd x => cases hc
    | _ => trivial
  refine abides_sys (hidle.exact k) fun r h' he => ?_
  obtain rfl := exec_looks hc he
  exact ⟨guarantee_quiet rfl rfl (call_ne_renameDone (by rintro rfl; cases hc)) quiet_call, h r⟩

/-- A report. -/
theorem abides_report {m : Frame} {k : FrameIoResult → Sys α} (hv : m.Valid)
    (hid : m.header.requestId = u.requestId)
    (hm : m.header.messageType = .transferReady ∨ m.header.messageType = .acknowledgment)
    (hx : u.Exact start P R (.send ⟨m, hv⟩) (fun r => k (sendOutcome m r)) w)
    (h : ∀ r, u.Abides start P R (k (sendOutcome m r)) (w.push ⟨.send ⟨m, hv⟩, r⟩) Q) :
    u.Abides start P R (sendFrame m >>= k) w Q := by
  refine along_sendValid hv ⟨fun r w' hs => ?_, hx⟩ h
  obtain rfl : w.push ⟨.send ⟨m, hv⟩, r⟩ = w' := Option.some.inj hs.2
  exact guarantee_quiet rfl rfl send_ne_renameDone (quiet_send hid hm)

theorem abides_receiveFrame {k : Except FrameIoResult Frame → Sys α}
    (h : ∀ r, u.Abides start P R (k (receiveOutcome r)) (w.push ⟨.recv, r⟩) Q) :
    u.Abides start P R (receiveFrame >>= k) w Q := by
  refine along_receiveFrame ⟨fun r w' hs => ?_, trivial⟩ fun r _ => h r
  obtain rfl : w.push ⟨.recv, r⟩ = w' := Option.some.inj hs.2
  exact guarantee_quiet rfl rfl recv_ne_renameDone quiet_recv

end Upload

end SyncWire
