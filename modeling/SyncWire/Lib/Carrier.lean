import SyncWire.Lib.Extend
import SyncWire.Lib.Pipe
import SyncWire.Lib.Session

/-!
# Messages carried over byte streams

A process that sends and receives messages is run over two byte streams, one in each
direction: its operations on the channel become programs of partial sends and receives
(`Carrier`), its calls stay what they are.  The streams are as bad as they can be.  A
send takes any part of its data or fails; a receive gives any part of what is there, or
fails, or finds the end of the stream, at any time.

* `Prog.handle`: a program whose operations are carried out by programs.
* `Carrier`: what is asked of the programs for one message.
* `Abandoned`: nothing is sent or received after a failure.  A process that takes turns
  leaves its channel alone from then on, `abandoned_reach`.
* `Follows`: a process over bytes does what it does over messages.  A message counts as
  sent when its last byte is on the stream, which may be before the sender knows.
* `carried_reads`: on any stream at all, a process that takes turns receives the
  messages at its front.
* `carried_refines`: if both processes take turns, every run over bytes is matched by one
  over messages.
-/

namespace Effect

open Posix.Fs

/-! ## Operations carried out by programs -/

namespace Prog

variable {S T : Sig} {α β σ : Type}

def handle (h : (o : S.Op) → Prog T (S.Res o)) {α : Type} : Prog S α → Prog T α
  | .pure a => .pure a
  | .op o k => (h o).bind fun r => (k r).handle h
  | .loop body s k => .loop (fun s => (body s).handle h) s fun b => (k b).handle h

theorem handle_bind (h : (o : S.Op) → Prog T (S.Res o)) (p : Prog S α) (f : α → Prog S β) :
    (p.bind f).handle h = (p.handle h).bind fun a => (f a).handle h := by
  induction p with
  | pure a => rfl
  | op o k ih => simp only [bind, handle, ih, bind_assoc]
  | loop body s k _ ih => simp only [bind, handle, ih]

theorem handle_unroll (h : (o : S.Op) → Prog T (S.Res o)) (body : σ → Prog S (σ ⊕ β)) (s : σ)
    (k : β → Prog S α) :
    (unroll body s k).handle h = unroll (fun s => (body s).handle h) s fun b => (k b).handle h := by
  simp only [unroll, handle_bind]
  congr 1
  funext x
  cases x <;> rfl

end Prog

/-! ## The streams -/

/-- One end of a connection: what was put on the stream to the peer, and how much was taken from the peer's. -/
structure Port (B : Type) where
  out : List B := []
  taken : Nat := 0

section
variable {B : Type}

/-- The two socket calls, when the peer has put `S` on its stream. -/
def lossy (S : List B) : Sem (pipe B) (Port B) := fun o v r v' =>
  match o, r with
  | .send data, .ok n => n ≤ data.length ∧ v' = { v with out := v.out ++ data.take n }
  | .send _, .error _ => v' = v
  | .recv n, .ok data => data <+: S.drop v.taken ∧ data.length ≤ n ∧ v' = { v with taken := v.taken + data.length }
  | .recv _, .error _ => v' = v

variable {γ : Type} {S S' : List B}

theorem lossy_mono (hS : S <+: S') {c d : Prog (pipe B) γ × Port B} (h : Step (lossy S) c d) :
    Step (lossy S') c d := by
  cases h with
  | loop => exact .loop
  | @op o k v v' r hs =>
    refine .op ?_
    cases o with
    | send data => cases r <;> exact hs
    | recv n =>
      cases r with
      | error e => exact hs
      | ok data =>
        obtain ⟨hd, hn, rfl⟩ := hs
        obtain ⟨t, rfl⟩ := hS
        exact ⟨hd.trans (by rw [List.drop_append]; exact List.prefix_append _ _), hn, rfl⟩

theorem reach_lossy_mono (hS : S <+: S') {c d : Prog (pipe B) γ × Port B} (h : Reach (lossy S) c d) :
    Reach (lossy S') c d := by
  induction h with
  | refl => exact .refl
  | tail _ hs ih => exact ih.tail (lossy_mono hS hs)

theorem out_isPrefix {c d : Prog (pipe B) γ × Port B} (h : Step (lossy S) c d) : c.2.out <+: d.2.out := by
  cases h with
  | loop => exact List.prefix_refl _
  | @op o k v v' r hs =>
    cases o with
    | send data =>
      cases r with
      | ok n => obtain ⟨-, rfl⟩ := hs; exact List.prefix_append _ _
      | error e => obtain rfl : v' = v := hs; exact List.prefix_refl _
    | recv n =>
      cases r with
      | ok data => obtain ⟨-, -, rfl⟩ := hs; exact List.prefix_refl _
      | error e => obtain rfl : v' = v := hs; exact List.prefix_refl _

/-- Sending, not receiving. -/
def IsSend : PipeOp B → Prop
  | .send _ => True
  | .recv _ => False

/-- A run of a program that only sends is one in which enough signals come. -/
theorem reach_sendSem {p : Prog (pipe B) γ} (hp : Uses IsSend p) {v : Port B} {c : Prog (pipe B) γ × Port B}
    (h : Reach (lossy S) (p, v) c) :
    c.2.taken = v.taken ∧ ∀ m, ∃ n, Reach sendSem (p, ⟨v.out, n⟩) (c.1, ⟨c.2.out, m⟩) := by
  induction h with
  | refl => exact ⟨rfl, fun m => ⟨m, .refl⟩⟩
  | @tail b c hb hs ih =>
    obtain ⟨htaken, hrun⟩ := ih
    have hsend := hp.along v _ _ hb
    cases hs with
    | loop => exact ⟨htaken, fun m => (hrun m).imp fun n hn => hn.tail .loop⟩
    | @op o k u u' r hs =>
      cases o with
      | recv n => exact absurd hsend id
      | send data =>
        cases r with
        | ok n =>
          obtain ⟨hn, rfl⟩ := hs
          exact ⟨htaken, fun m => (hrun m).imp fun _ hrun => hrun.tail (.op ⟨hn, rfl⟩)⟩
        | error e =>
          obtain rfl : u' = u := hs
          refine ⟨htaken, fun m => ?_⟩
          by_cases he : e = EINTR
          · obtain ⟨n, hrun⟩ := hrun (m + 1)
            refine ⟨n, hrun.tail (.op ?_)⟩
            simp only [sendSem, if_pos he]
            exact ⟨Nat.succ_pos m, rfl⟩
          · obtain ⟨n, hrun⟩ := hrun m
            refine ⟨n, hrun.tail (.op ?_)⟩
            simp only [sendSem, if_neg he]

theorem safe_recv {n : Nat} {k : Except Nat (List B) → Prog (pipe B) γ} {v : Port B} {Q : γ → Port B → Prop}
    (hok : ∀ d, d <+: S.drop v.taken → d.length ≤ n →
      Safe (lossy S) (fun u u' => u'.out = u.out) (k (.ok d)) { v with taken := v.taken + d.length } Q)
    (herr : ∀ e, Safe (lossy S) (fun u u' => u'.out = u.out) (k (.error e)) v Q) :
    Safe (lossy S) (fun u u' => u'.out = u.out) (Prog.call (S := pipe B) (.recv n) >>= k) v Q := by
  refine safe_bind (safe_call fun r v' hs => ?_)
  cases r with
  | ok d => obtain ⟨hd, hlen, rfl⟩ := hs; exact ⟨rfl, hok d hd hlen⟩
  | error e => obtain rfl : v' = v := hs; exact ⟨rfl, herr e⟩

end

/-! ## Carriers -/

/-- The calls of a process, without its channel. -/
abbrev NetSig.calls (N : NetSig) : Sig := ⟨N.Call, fun c => Except N.Errno (N.Val c)⟩

/-- Nothing, or the beginning of the code of a message, or all of it and more. -/
def Readable {M B : Type} (code : M → List B) (s : List B) : Prop := s = [] ∨ ∃ m, code m <+: s ∨ s <+: code m

/-- How the messages of `N` travel over a stream. -/
structure Carrier (N : NetSig) (B : Type) where
  code : N.Msg → List B
  sendMsg : N.Msg → Prog (pipe B) (Except N.SendErr Unit)
  recvMsg : Prog (pipe B) (Except N.RecvErr N.Msg)
  /-- failures to receive that can happen on any stream -/
  lost : N.RecvErr → Prop
  /-- failures because of what is on the stream -/
  bad : N.RecvErr → List B → Prop
  bad_unreadable : ∀ {e s}, bad e s → ¬ Readable code s
  code_ne : ∀ m, code m ≠ []
  code_free : ∀ {m m' s t}, code m ++ s = code m' ++ t → m = m'
  send_acts : ∀ m r, sendMsg m ≠ .pure r
  recv_acts : ∀ r, recvMsg ≠ .pure r
  /-- the message is put on the stream from the front, all of it if and only if sending succeeds -/
  sends : ∀ {S m v q v'}, Reach (lossy S) (sendMsg m, v) (q, v') → v'.taken = v.taken ∧
    ∃ n, n ≤ (code m).length ∧ v'.out = v.out ++ (code m).take n ∧
      ∀ r, q = .pure r → (r = .ok () ↔ n = (code m).length)
  /-- a message that is received stands at the front of the stream, where another failure says that there is
  none -/
  receives : ∀ {S v q v'}, Reach (lossy S) (recvMsg, v) (q, v') → v'.out = v.out ∧
    (∀ m, q = .pure (.ok m) → code m <+: S.drop v.taken ∧ v'.taken = v.taken + (code m).length) ∧
    ∀ e, q = .pure (.error e) → lost e ∨ bad e (S.drop v.taken)

/-- The messages that were sent for certain. -/
def delivered {N : NetSig} (log : List N.Event) : List N.Msg :=
  log.filterMap fun
    | ⟨.send m, .ok _⟩ => some m
    | _ => none

section
variable {N : NetSig}

@[simp] theorem delivered_append (l l' : List N.Event) : delivered (l ++ l') = delivered l ++ delivered l' :=
  List.filterMap_append

@[simp] theorem delivered_ok (m : N.Msg) (u : Unit) : delivered [(⟨.send m, .ok u⟩ : N.Event)] = [m] := rfl
@[simp] theorem delivered_error (m : N.Msg) (e : N.SendErr) : delivered [(⟨.send m, .error e⟩ : N.Event)] = [] :=
  rfl
@[simp] theorem delivered_recv (r : N.Res .recv) : delivered [(⟨.recv, r⟩ : N.Event)] = [] := rfl
@[simp] theorem delivered_call (c : N.Call) (r : N.Res (.call c)) : delivered [(⟨.call c, r⟩ : N.Event)] = [] :=
  rfl

/-! ### Up or down -/

/-- A failure of the channel. -/
def NetSig.Event.failed : N.Event → Bool
  | ⟨.send _, .error _⟩ => true
  | ⟨.recv, .error _⟩ => true
  | _ => false

/-- The channel is operated on while it is up. -/
def Minds : NetOp N.Call N.Msg → Bool → Prop
  | .call _, _ => True
  | _, up => up = true

/-- The channel has not failed. -/
def intact (log : List N.Event) : Bool := !log.any (·.failed)

theorem intact_concat (log : List N.Event) (e : N.Event) : intact (log ++ [e]) = (intact log && !e.failed) := by
  simp [intact]

theorem not_failed {log : List N.Event} (h : intact log = true) {e : N.Event} (he : e ∈ log) :
    e.failed = false := by
  simp only [intact, Bool.not_eq_true', List.any_eq_false] at h
  simpa using h e he

/-- A failure is the last thing that happened on the channel. -/
def Abandoned (log : List N.Event) : Prop := log.Pairwise fun e e' => e.failed = true → e'.isNet = false

theorem Abandoned.push {log : List N.Event} (h : Abandoned log) {o : NetOp N.Call N.Msg} (r : N.Res o)
    (ho : Minds o (intact log)) : Abandoned (log ++ [⟨o, r⟩]) := by
  refine List.pairwise_append.mpr ⟨h, List.pairwise_singleton _ _, fun e he e' he' hf => ?_⟩
  obtain rfl := List.mem_singleton.mp he'
  have hdown : intact log = true → False := fun hup => by
    rw [not_failed hup he] at hf
    cases hf
  cases o with
  | call c => rfl
  | send m => exact (hdown ho).elim
  | recv => exact (hdown ho).elim

/-- Whoever takes turns leaves a channel alone that has failed. -/
theorem TakesTurns.minds {first : Bool} {o : NetOp N.Call N.Msg} {h : List N.Event} (ht : TakesTurns first o h) :
    Minds o (!broken h) := by
  cases o with
  | call c => trivial
  | recv => exact congrArg Bool.not ht.2
  | send m =>
    have hw : waits first h = false := ht
    change (!broken h) = true
    unfold waits at hw
    unfold broken
    split at hw
    · next hn => rw [hn]; rfl
    · next m hm => rw [hm]; rfl
    · cases hw

section
variable {H α : Type} {first : Bool} {p : Prog N.sig α} {Q : α → List N.Event → Prop} {exec : N.Exec H}
  {rely : N.Rely} {h : H} {x : Side N H α}

theorem turn_reach (hp : Along chat (Polite first) p [] Q) (hr : Reach (solo exec rely) (p, ⟨h, []⟩) x)
    (o : NetOp N.Call N.Msg) (k : N.Res o → Prog N.sig α) (ho : x.1 = .op o k) :
    TakesTurns first o (history x.2.log) := by
  have hmeets := hp _ _ (reach_chat hr)
  rwa [ho] at hmeets

/-- A failure is behind a process that takes turns if it is the last event. -/
theorem intact_reach (hp : Along chat (Polite first) p [] Q) (hr : Reach (solo exec rely) (p, ⟨h, []⟩) x) :
    intact x.2.log = !broken (history x.2.log) := by
  induction hr with
  | refl => rfl
  | tail hb hs ih =>
    have hminds := fun o k ho => (turn_reach hp hb o k ho).minds
    cases hs with
    | loop => exact ih
    | @op o k w w' r hs =>
      have hup := hminds o k rfl
      rw [perform_log hs.2, intact_concat, history_append]
      cases o with
      | call c => simpa [NetSig.Event.failed] using ih
      | send m =>
        rw [show intact w.log = true from ih.trans hup]
        cases r with
        | ok u => rw [history_send, broken_concat_sent]; rfl
        | error e => rw [history_send, broken_concat_unsent]; rfl
      | recv =>
        rw [show intact w.log = true from ih.trans hup]
        cases r with
        | ok m => rw [history_recv, broken_concat_ok]; rfl
        | error e => rw [history_recv, broken_concat_error]; rfl

theorem minds_reach (hp : Along chat (Polite first) p [] Q) (hr : Reach (solo exec rely) (p, ⟨h, []⟩) x)
    (o : NetOp N.Call N.Msg) (k : N.Res o → Prog N.sig α) (ho : x.1 = .op o k) : Minds o (intact x.2.log) := by
  rw [intact_reach hp hr]
  exact (turn_reach hp hr o k ho).minds

theorem abandoned_reach (hp : Along chat (Polite first) p [] Q) (hr : Reach (solo exec rely) (p, ⟨h, []⟩) x) :
    Abandoned x.2.log := by
  induction hr with
  | refl => exact List.Pairwise.nil
  | tail hb hs ih =>
    cases hs with
    | loop => exact ih
    | op hs =>
      rw [perform_log hs.2]
      exact ih.push _ (minds_reach hp hb _ _ rfl)

end

/-- Everything that was sent was delivered, but for the last message if that failed. -/
structure Kempt (log : List N.Event) : Prop where
  isPrefix : delivered log <+: sent log
  all : intact log = true → delivered log = sent log

theorem kempt_nil : Kempt ([] : List N.Event) := ⟨List.prefix_refl _, fun _ => rfl⟩

theorem Kempt.push {log : List N.Event} (h : Kempt log) {o : NetOp N.Call N.Msg} (r : N.Res o)
    (ho : Minds o (intact log)) : Kempt (log ++ [⟨o, r⟩]) := by
  cases o with
  | call c =>
    refine ⟨by simpa using h.isPrefix, fun hup => ?_⟩
    rw [intact_concat, Bool.and_eq_true] at hup
    simpa using h.all hup.1
  | recv =>
    have hall := h.all ho
    exact ⟨by simpa using h.isPrefix, fun _ => by simpa using hall⟩
  | send m =>
    have hall := h.all ho
    cases r with
    | ok u => exact ⟨by simp [hall], fun _ => by simp [hall]⟩
    | error e =>
      refine ⟨by simp [hall], fun hup => ?_⟩
      rw [intact_concat, Bool.and_eq_true] at hup
      cases hup.2

theorem Kempt.step {H α : Type} {exec : N.Exec H} {rely : N.Rely} {x x' : Side N H α} (h : Kempt x.2.log)
    (hturn : ∀ o k, x.1 = .op o k → Minds o (intact x.2.log)) (hs : Step (solo exec rely) x x') :
    Kempt x'.2.log := by
  cases hs with
  | loop => exact h
  | op hs =>
    rw [perform_log hs.2]
    exact h.push _ (hturn _ _ rfl)

end

/-! ## One side -/

namespace Carrier

variable {N : NetSig} {B H α : Type} (C : Carrier N B)

/-- A process over bytes: the calls, and the two socket calls. -/
abbrev Bytes (N : NetSig) (B : Type) : Sig := extend (pipe B) N.calls

def carry : (o : NetOp N.Call N.Msg) → Prog (Bytes N B) (N.Res o)
  | .send m => (C.sendMsg m).lift
  | .recv => C.recvMsg.lift
  | .call c => Prog.call (S := Bytes N B) (.also c)

/-- The process, over bytes. -/
abbrev carried (p : Prog N.sig α) : Prog (Bytes N B) α := p.handle C.carry

/-- Where the port of a process stands that has done this, and whose channel has not failed. -/
def port (log : List N.Event) : Port B :=
  ⟨(delivered log).flatMap C.code, ((received log).flatMap C.code).length⟩

/-- A piece of a message that is not all of it. -/
def Cut (part : List B) : Prop := part = [] ∨ ∃ m, part <+: C.code m ∧ part ≠ C.code m

/-- What was delivered is on the stream, and no other whole message. -/
def Leaves (log : List N.Event) (out : List B) : Prop :=
  ∃ part, out = (delivered log).flatMap C.code ++ part ∧ C.Cut part

/-- A host and its end of the connection. -/
structure Station (H B : Type) where
  host : H
  port : Port B := {}

/-- A process over bytes whose peer has put `S` on its stream. -/
def wired (exec : N.Exec H) (S : List B) : Sem (Bytes N B) (Station H B)
  | .act o, v, r, v' => lossy S o v.port r v'.port ∧ v'.host = v.host
  | .also c, v, r, v' => exec c v.host r = some v'.host ∧ v'.port = v.port

/-- What the process over bytes is doing, in terms of messages. -/
inductive Follows (S : List B) : Side N H α → Prog (Bytes N B) α × Station H B → Prop
  | idle {p : Prog N.sig α} {w : N.Local H} {v : Station H B} (hhost : v.host = w.host)
      (hport : intact w.log = true → v.port = C.port w.log) (hout : C.Leaves w.log v.port.out) :
      Follows S (p, w) (C.carried p, v)
  | sending {m : N.Msg} {k : N.Res (.send m) → Prog N.sig α} {w : N.Local H}
      {q : Prog (pipe B) (Except N.SendErr Unit)} {v : Station H B} (hhost : v.host = w.host)
      (hup : intact w.log = true) (hq : ∀ r, q ≠ .pure r)
      (hr : Reach (lossy S) (C.sendMsg m, C.port w.log) (q, v.port))
      (hpart : v.port.out ≠ (C.port w.log).out ++ C.code m) :
      Follows S (.op (.send m) k, w) (q.lift.bind fun r => C.carried (k r), v)
  /-- the last byte is on the stream, the sender is still to return -/
  | sent {m : N.Msg} {k : N.Res (.send m) → Prog N.sig α} {w : N.Local H}
      {q : Prog (pipe B) (Except N.SendErr Unit)} {v : Station H B} (hhost : v.host = w.host)
      (hq : ∀ r, q ≠ .pure r) (hr : Reach (lossy S) (C.sendMsg m, C.port w.log) (q, v.port))
      (hall : v.port.out = (C.port w.log).out ++ C.code m) :
      Follows S (k (.ok ()), w.push ⟨.send m, .ok ()⟩) (q.lift.bind fun r => C.carried (k r), v)
  | receiving {k : N.Res .recv → Prog N.sig α} {w : N.Local H} {q : Prog (pipe B) (Except N.RecvErr N.Msg)}
      {v : Station H B} (hhost : v.host = w.host) (hup : intact w.log = true) (hq : ∀ r, q ≠ .pure r)
      (hr : Reach (lossy S) (C.recvMsg, C.port w.log) (q, v.port)) :
      Follows S (.op .recv k, w) (q.lift.bind fun r => C.carried (k r), v)

variable {C}

theorem Follows.mono {S S' : List B} (hS : S <+: S') {x : Side N H α} {X : Prog (Bytes N B) α × Station H B}
    (h : C.Follows S x X) : C.Follows S' x X := by
  cases h with
  | idle hhost hport hout => exact .idle hhost hport hout
  | sending hhost hup hq hr hpart => exact .sending hhost hup hq (reach_lossy_mono hS hr) hpart
  | sent hhost hq hr hall => exact .sent hhost hq (reach_lossy_mono hS hr) hall
  | receiving hhost hup hq hr => exact .receiving hhost hup hq (reach_lossy_mono hS hr)

theorem leaves_port (log : List N.Event) : C.Leaves log (C.port log).out :=
  ⟨[], (List.append_nil _).symm, .inl rfl⟩

theorem port_send (log : List N.Event) (m : N.Msg) :
    C.port (log ++ [⟨.send m, .ok ()⟩]) = ⟨(C.port log).out ++ C.code m, (C.port log).taken⟩ := by
  simp [port]

theorem port_recv (log : List N.Event) (m : N.Msg) :
    C.port (log ++ [⟨.recv, .ok m⟩]) = ⟨(C.port log).out, (C.port log).taken + (C.code m).length⟩ := by
  simp [port]

theorem Follows.host {S : List B} {x : Side N H α} {X : Prog (Bytes N B) α × Station H B} (h : C.Follows S x X) :
    X.2.host = x.2.host := by
  cases h with
  | idle hhost _ _ => exact hhost
  | sending hhost _ _ _ _ => exact hhost
  | sent hhost _ _ _ => exact hhost
  | receiving hhost _ _ _ => exact hhost

/-- At any time the stream holds what was delivered, and perhaps a piece of the next message. -/
theorem Follows.leaves {S : List B} {x : Side N H α} {X : Prog (Bytes N B) α × Station H B} (h : C.Follows S x X) :
    C.Leaves x.2.log X.2.port.out := by
  cases h with
  | idle _ _ hout => exact hout
  | @sending m k w q v _ _ _ hr hpart =>
    obtain ⟨-, n, hn, hout, -⟩ := C.sends hr
    refine ⟨(C.code m).take n, hout, .inr ⟨m, List.take_prefix _ _, fun he => hpart ?_⟩⟩
    rw [hout, he]
  | @sent m k w q v _ _ hr hall =>
    have := C.leaves_port (w.log ++ [⟨.send m, .ok ()⟩])
    rwa [port_send, ← hall] at this
  | receiving _ _ _ hr =>
    rw [(C.receives hr).1]
    exact leaves_port _

theorem lift_bind_ne_pure {T : Sig} {γ : Type} {S : Sig} {q : Prog S γ} {f : γ → Prog (extend S T) α}
    (hq : ∀ r, q ≠ .pure r) (a : α) : (q.lift.bind f) ≠ .pure a := by
  cases q with
  | pure r => exact absurd rfl (hq r)
  | op o k => intro h; cases h
  | loop body s k => intro h; cases h

/-- A process that has returned over bytes has returned. -/
theorem Follows.returned {S : List B} {x : Side N H α} {X : Prog (Bytes N B) α × Station H B} {a : α}
    (h : C.Follows S x X) (ha : X.1 = .pure a) : x.1 = .pure a := by
  cases h with
  | @idle p w v _ _ _ =>
    cases p with
    | pure b => cases ha; rfl
    | loop body s k => cases ha
    | op o k =>
      cases o with
      | call c => cases ha
      | send m => exact absurd ha (lift_bind_ne_pure (C.send_acts m) a)
      | recv => exact absurd ha (lift_bind_ne_pure C.recv_acts a)
  | sending _ _ hq _ _ => exact absurd ha (lift_bind_ne_pure hq a)
  | sent _ hq _ _ => exact absurd ha (lift_bind_ne_pure hq a)
  | receiving _ _ hq _ => exact absurd ha (lift_bind_ne_pure hq a)

section Step
variable {exec : N.Exec H} {S : List B}

/-- A step inside the program for one message. -/
theorem step_carried {γ : Type} {q : Prog (pipe B) γ} {f : γ → Prog (Bytes N B) α} {v : Station H B}
    {X : Prog (Bytes N B) α × Station H B} (hq : ∀ r, q ≠ .pure r)
    (hs : Step (wired exec S) (q.lift.bind f, v) X) :
    ∃ q', X.1 = q'.lift.bind f ∧ Step (lossy S) (q, v.port) (q', X.2.port) ∧ X.2.host = v.host := by
  cases q with
  | pure r => exact absurd rfl (hq r)
  | op o k =>
    cases hs with
    | op hs => exact ⟨_, rfl, .op hs.1, hs.2⟩
  | loop body s k =>
    cases hs with
    | loop =>
      refine ⟨_, ?_, .loop, rfl⟩
      rw [Prog.lift_unroll, Prog.bind_unroll]

/-- What a process may receive from the stream `S`: the message after those it has received, or a failure. -/
def reads (C : Carrier N B) (S : List B) : N.Rely := fun log o r =>
  match o, r with
  | .recv, .ok m => C.code m <+: S.drop ((received log).flatMap C.code).length
  | .recv, .error e => C.lost e ∨ C.bad e (S.drop ((received log).flatMap C.code).length)
  | _, _ => True

/-- A message that is on the stream to its last byte has been sent, whether the sender has returned or not. -/
theorem follows_sent {m : N.Msg} {k : N.Res (.send m) → Prog N.sig α} {w : N.Local H}
    {q : Prog (pipe B) (Except N.SendErr Unit)} {v : Station H B} (hhost : v.host = w.host)
    (hr : Reach (lossy S) (C.sendMsg m, C.port w.log) (q, v.port))
    (hall : v.port.out = (C.port w.log).out ++ C.code m) :
    C.Follows S (k (.ok ()), w.push ⟨.send m, .ok ()⟩) (q.lift.bind fun r => C.carried (k r), v) := by
  obtain ⟨htaken, n, hn, hout, hres⟩ := C.sends hr
  have hlen : n = (C.code m).length := by
    have := congrArg List.length (hout.symm.trans hall)
    rw [List.length_append, List.length_append, List.length_take] at this
    omega
  by_cases hq : ∃ r, q = .pure r
  · obtain ⟨r, rfl⟩ := hq
    obtain rfl := (hres r rfl).mpr hlen
    have hport : v.port = C.port (w.log ++ [⟨.send m, .ok ()⟩]) := by
      rw [port_send, ← hall, ← htaken]
    exact .idle hhost (fun _ => hport) (hport ▸ leaves_port _)
  · exact .sent hhost (fun r hqr => hq ⟨r, hqr⟩) hr hall

/-- Nothing is put on the stream after the last byte. -/
theorem out_full {m : N.Msg} {q q' : Prog (pipe B) (Except N.SendErr Unit)} {u v v' : Port B}
    (hr : Reach (lossy S) (C.sendMsg m, u) (q, v)) (hs : Step (lossy S) (q, v) (q', v'))
    (hall : v.out = u.out ++ C.code m) : v'.out = u.out ++ C.code m := by
  obtain ⟨-, n, hn, hout, -⟩ := C.sends (hr.tail hs)
  have hle : v.out.length ≤ v'.out.length := (out_isPrefix hs).length_le
  rw [hall, hout, List.length_append, List.length_append, List.length_take] at hle
  have hlen : n = (C.code m).length := by omega
  rw [hout, hlen, List.take_length]

/-- **Sending.**  After a step of the program for `m`: over messages nothing happened, or `m` was sent, or
failed. -/
theorem follows_send {m : N.Msg} {k : N.Res (.send m) → Prog N.sig α} {w : N.Local H}
    {q : Prog (pipe B) (Except N.SendErr Unit)} {v : Station H B} (hhost : v.host = w.host)
    (hup : intact w.log = true) (hr : Reach (lossy S) (C.sendMsg m, C.port w.log) (q, v.port)) :
    ∃ x', (x' = (.op (.send m) k, w) ∨ Step (solo exec (C.reads S)) (.op (.send m) k, w) x') ∧
      C.Follows S x' (q.lift.bind fun r => C.carried (k r), v) := by
  obtain ⟨-, n, hn, hout, hres⟩ := C.sends hr
  by_cases hall : v.port.out = (C.port w.log).out ++ C.code m
  · exact ⟨(k (.ok ()), w.push ⟨.send m, .ok ()⟩), .inr (.op ⟨trivial, rfl⟩), follows_sent hhost hr hall⟩
  · by_cases hq : ∃ r, q = .pure r
    · obtain ⟨r, rfl⟩ := hq
      cases r with
      | ok u =>
        refine absurd ?_ hall
        rw [hout, (hres _ rfl).mp rfl, List.take_length]
      | error e =>
        have hcut : C.Cut ((C.code m).take n) := .inr ⟨m, List.take_prefix _ _, fun he => hall (by rw [hout, he])⟩
        refine ⟨(k (.error e), w.push ⟨.send m, .error e⟩), .inr (.op ⟨trivial, rfl⟩), ?_⟩
        refine .idle hhost (fun hb => ?_) ⟨(C.code m).take n, ?_, hcut⟩
        · rw [NetSig.Local.push_log, intact_concat, Bool.and_eq_true] at hb
          cases hb.2
        · simpa [port] using hout
    · exact ⟨_, .inl rfl, .sending hhost hup (fun r hqr => hq ⟨r, hqr⟩) hr hall⟩

/-- **Receiving.**  After a step of the program: nothing happened, or the next message was received, or that
failed. -/
theorem follows_recv {k : N.Res .recv → Prog N.sig α} {w : N.Local H}
    {q : Prog (pipe B) (Except N.RecvErr N.Msg)} {v : Station H B} (hhost : v.host = w.host)
    (hup : intact w.log = true)
    (hr : Reach (lossy S) (C.recvMsg, C.port w.log) (q, v.port)) :
    ∃ x', (x' = (.op .recv k, w) ∨ Step (solo exec (C.reads S)) (.op .recv k, w) x') ∧
      C.Follows S x' (q.lift.bind fun r => C.carried (k r), v) := by
  obtain ⟨hout, hmsg, herr⟩ := C.receives hr
  by_cases hq : ∃ r, q = .pure r
  · obtain ⟨r, rfl⟩ := hq
    cases r with
    | ok m =>
      obtain ⟨hfront, htaken⟩ := hmsg m rfl
      refine ⟨(k (.ok m), w.push ⟨.recv, .ok m⟩), .inr (.op ⟨hfront, rfl⟩), ?_⟩
      have hport : v.port = C.port (w.log ++ [⟨.recv, .ok m⟩]) := by
        rw [port_recv, ← hout, ← htaken]
      exact .idle hhost (fun _ => hport) (hport ▸ leaves_port _)
    | error e =>
      refine ⟨(k (.error e), w.push ⟨.recv, .error e⟩), .inr (.op ⟨herr e rfl, rfl⟩), ?_⟩
      refine .idle hhost (fun hb => ?_) ?_
      · rw [NetSig.Local.push_log, intact_concat, Bool.and_eq_true] at hb
        cases hb.2
      · have := C.leaves_port w.log
        rw [← hout] at this
        simpa [Leaves] using this
  · exact ⟨_, .inl rfl, .receiving hhost hup (fun r hqr => hq ⟨r, hqr⟩) hr⟩

/-- A call is the same over bytes. -/
theorem follows_call {c : N.Call} {k : N.Res (.call c) → Prog N.sig α} {w : N.Local H} {v v' : Station H B}
    {r : N.Res (.call c)} (hport : intact w.log = true → v.port = C.port w.log) (hout : C.Leaves w.log v.port.out)
    (hexec : exec c w.host r = some v'.host) (hv : v'.port = v.port) :
    ∃ x', (x' = (.op (.call c) k, w) ∨ Step (solo exec (C.reads S)) (.op (.call c) k, w) x') ∧
      C.Follows S x' (C.carried (k r), v') := by
  refine ⟨(k r, ⟨v'.host, w.log ++ [⟨.call c, r⟩]⟩), .inr (.op ⟨trivial, ?_⟩), .idle rfl ?_ ?_⟩
  · exact Option.map_eq_some_iff.mpr ⟨v'.host, hexec, rfl⟩
  · intro hup
    rw [intact_concat, Bool.and_eq_true] at hup
    rw [hv]
    simpa [port] using hport hup.1
  · rw [hv]
    simpa [Leaves] using hout

/-- **One step over bytes** is one step over messages, or none. -/
theorem Follows.step {x : Side N H α} {X X' : Prog (Bytes N B) α × Station H B} (h : C.Follows S x X)
    (hturn : ∀ o k, x.1 = .op o k → Minds o (intact x.2.log)) (hs : Step (wired exec S) X X') :
    ∃ x', (x' = x ∨ Step (solo exec (C.reads S)) x x') ∧ C.Follows S x' X' := by
  obtain ⟨P', v'⟩ := X'
  cases h with
  | @idle p w v hhost hport hout =>
    cases p with
    | pure a => cases hs
    | loop body s k =>
      cases hs with
      | loop =>
        refine ⟨(.unroll body s k, w), .inr .loop, ?_⟩
        rw [← Prog.handle_unroll]
        exact .idle hhost hport hout
    | op o k =>
      cases o with
      | call c =>
        cases hs with
        | op hs => exact follows_call hport hout (hhost ▸ hs.1) hs.2
      | send m =>
        have hup : intact w.log = true := hturn _ _ rfl
        obtain ⟨q, hq, hstep, hh⟩ := step_carried (C.send_acts m) hs
        obtain rfl : P' = _ := hq
        rw [hport hup] at hstep
        exact follows_send (hh.trans hhost) hup (.single hstep)
      | recv =>
        have hup : intact w.log = true := hturn _ _ rfl
        obtain ⟨q, hq, hstep, hh⟩ := step_carried C.recv_acts hs
        obtain rfl : P' = _ := hq
        rw [hport hup] at hstep
        exact follows_recv (hh.trans hhost) hup (.single hstep)
  | sending hhost hup hq hr hpart =>
    obtain ⟨q, he, hstep, hh⟩ := step_carried hq hs
    obtain rfl : P' = _ := he
    exact follows_send (hh.trans hhost) hup (hr.tail hstep)
  | sent hhost hq hr hall =>
    obtain ⟨q', he, hstep, hh⟩ := step_carried hq hs
    obtain rfl : P' = _ := he
    exact ⟨_, .inl rfl, follows_sent (hh.trans hhost) (hr.tail hstep) (out_full hr hstep hall)⟩
  | receiving hhost hup hq hr =>
    obtain ⟨q, he, hstep, hh⟩ := step_carried hq hs
    obtain rfl : P' = _ := he
    exact follows_recv (hh.trans hhost) hup (hr.tail hstep)

end Step

/-! ## Against any stream -/

section Alone
variable {exec : N.Exec H} {S : List B}

/-- What was received stands at the front of the stream. -/
theorem reads_step {x x' : Side N H α} (h : Step (solo exec (C.reads S)) x x')
    (hl : (received x.2.log).flatMap C.code <+: S) : (received x'.2.log).flatMap C.code <+: S := by
  cases h with
  | loop => exact hl
  | @op o k w w' r hs =>
    have hreads := hs.1
    rw [perform_log hs.2, received_append, List.flatMap_append]
    cases o with
    | send m => simpa using hl
    | call c => simpa using hl
    | recv =>
      cases r with
      | error e => simpa using hl
      | ok m =>
        obtain ⟨t, ht⟩ := hl
        have hm : C.code m <+: S.drop ((received w.log).flatMap C.code).length := hreads
        rw [← ht, List.drop_left] at hm
        rw [← ht]
        simpa using hm

/-- Where receiving failed because of the stream, it is bad behind what was received. -/
def Blames (C : Carrier N B) (S : List B) (log : List N.Event) : Prop :=
  ∀ e, ⟨.recv, .error e⟩ ∈ log → C.lost e ∨ C.bad e (S.drop ((received log).flatMap C.code).length)

theorem blames_step {x x' : Side N H α} (hturn : ∀ o k, x.1 = .op o k → Minds o (intact x.2.log))
    (h : Step (solo exec (C.reads S)) x x') (hl : C.Blames S x.2.log) : C.Blames S x'.2.log := by
  cases h with
  | loop => exact hl
  | @op o k w w' r hs =>
    have hreads := hs.1
    intro e he
    rw [perform_log hs.2] at he ⊢
    rw [received_append]
    cases o with
    | send m => simpa using hl e (by simpa using he)
    | call c => simpa using hl e (by simpa using he)
    | recv =>
      -- nothing failed before
      have hup : intact w.log = true := hturn _ _ rfl
      rcases List.mem_append.mp he with he | he
      · cases not_failed hup he
      · cases List.mem_singleton.mp he
        rw [received_error, List.append_nil]
        exact hreads

/-- **Any stream.**  Whatever bytes come in, a process that takes turns does what it can do when it receives the
messages at the front of the stream and fails where they end. -/
theorem carried_reads {first : Bool} {p : Prog N.sig α} {Q : α → List N.Event → Prop}
    (hp : Along chat (Polite first) p [] Q) {h : H}
    {X : Prog (Bytes N B) α × Station H B} (hr : Reach (wired exec S) (C.carried p, ⟨h, {}⟩) X) :
    ∃ x, Reach (solo exec (C.reads S)) (p, ⟨h, []⟩) x ∧ C.Follows S x X ∧
      (received x.2.log).flatMap C.code <+: S ∧ C.Blames S x.2.log := by
  induction hr with
  | refl => exact ⟨_, .refl, .idle rfl (fun _ => rfl) (leaves_port []), List.nil_prefix, fun e he => by cases he⟩
  | tail _ hs ih =>
    obtain ⟨x, hrun, hF, hl, hb⟩ := ih
    have hturn := minds_reach hp hrun
    obtain ⟨x', hx, hF'⟩ := hF.step hturn hs
    rcases hx with rfl | hx
    · exact ⟨_, hrun, hF', hl, hb⟩
    · exact ⟨x', hrun.tail hx, hF', reads_step hx hl, blames_step hturn hx hb⟩

end Alone

/-! ## Both sides -/

section Joint
variable (exec : N.Exec H) {β : Type}

/-- A step of either process. -/
inductive WStep : (Prog (Bytes N B) α × Station H B) × (Prog (Bytes N B) β × Station H B) →
    (Prog (Bytes N B) α × Station H B) × (Prog (Bytes N B) β × Station H B) → Prop
  | left {X X' : Prog (Bytes N B) α × Station H B} {Y : Prog (Bytes N B) β × Station H B}
      (h : Step (wired exec Y.2.port.out) X X') : WStep (X, Y) (X', Y)
  | right {X : Prog (Bytes N B) α × Station H B} {Y Y' : Prog (Bytes N B) β × Station H B}
      (h : Step (wired exec X.2.port.out) Y Y') : WStep (X, Y) (X, Y')

abbrev WReach : (Prog (Bytes N B) α × Station H B) × (Prog (Bytes N B) β × Station H B) →
    (Prog (Bytes N B) α × Station H B) × (Prog (Bytes N B) β × Station H B) → Prop :=
  Relation.ReflTransGen (WStep exec)

variable {exec}

theorem station_out {S : List B} {X X' : Prog (Bytes N B) α × Station H B} (h : Step (wired exec S) X X') :
    X.2.port.out <+: X'.2.port.out := by
  cases h with
  | loop => exact List.prefix_refl _
  | @op o k v v' r hs =>
    cases o with
    | act o => exact out_isPrefix (.op (k := .pure) hs.1)
    | also c => exact hs.2 ▸ List.prefix_refl _

/-- How two processes over bytes stand to the same two over messages. -/
structure Joined (C : Carrier N B) (x : Side N H α) (y : Side N H β) (X : Prog (Bytes N B) α × Station H B)
    (Y : Prog (Bytes N B) β × Station H B) : Prop where
  left : C.Follows Y.2.port.out x X
  right : C.Follows X.2.port.out y Y
  heardLeft : received x.2.log <+: delivered y.2.log
  heardRight : received y.2.log <+: delivered x.2.log
  kemptLeft : Kempt x.2.log
  kemptRight : Kempt y.2.log

variable {x : Side N H α} {y : Side N H β} {X X' : Prog (Bytes N B) α × Station H B}
  {Y : Prog (Bytes N B) β × Station H B}

theorem Joined.symm (J : C.Joined x y X Y) : C.Joined y x Y X :=
  ⟨J.right, J.left, J.heardRight, J.heardLeft, J.kemptRight, J.kemptLeft⟩

section Heard
variable {S : List B} {D : List N.Msg} {part : List B}

/-- What stands on the stream of a peer behind what was received is the next message, or a piece of one. -/
theorem drop_stream {l : List N.Msg} (hl : l <+: D) :
    (D.flatMap C.code ++ part).drop (l.flatMap C.code).length = (D.drop l.length).flatMap C.code ++ part := by
  obtain ⟨t, rfl⟩ := hl
  rw [List.flatMap_append, List.append_assoc, List.drop_left, List.drop_left]

/-- A message at the front of the stream is the next one the peer delivered. -/
theorem next_delivered (hcut : C.Cut part) {l : List N.Msg} (hl : l <+: D) {m : N.Msg}
    (hm : C.code m <+: (D.flatMap C.code ++ part).drop (l.flatMap C.code).length) : D[l.length]? = some m := by
  rw [drop_stream hl] at hm
  obtain ⟨s, hs⟩ := hm
  cases hd : D.drop l.length with
  | cons m' rest =>
    rw [hd, List.flatMap_cons, List.append_assoc] at hs
    obtain rfl := C.code_free hs
    rw [← List.head?_drop, hd]
    rfl
  | nil =>
    -- all of it would be a piece of another
    rw [hd, List.flatMap_nil, List.nil_append] at hs
    rcases hcut with rfl | ⟨m', ⟨t, ht⟩, hne⟩
    · exact absurd (List.append_eq_nil_iff.mp hs).1 (C.code_ne m)
    · rw [← hs, List.append_assoc] at ht
      have hmm : m = m' := C.code_free (s := s ++ t) (t := []) (by rw [List.append_nil]; exact ht)
      subst hmm
      have hst : s ++ t = [] := List.append_cancel_left (ht.trans (List.append_nil _).symm)
      rw [(List.append_eq_nil_iff.mp hst).1, List.append_nil] at hs
      exact absurd hs.symm hne

/-- A peer that keeps to the code leaves nothing on the stream that is not of it. -/
theorem stream_readable (hcut : C.Cut part) {l : List N.Msg} (hl : l <+: D) :
    Readable C.code ((D.flatMap C.code ++ part).drop (l.flatMap C.code).length) := by
  rw [drop_stream hl]
  cases hd : D.drop l.length with
  | cons m' rest =>
    rw [List.flatMap_cons, List.append_assoc]
    exact .inr ⟨m', .inl (List.prefix_append _ _)⟩
  | nil =>
    rw [List.flatMap_nil, List.nil_append]
    rcases hcut with rfl | ⟨m', hp, -⟩
    · exact .inl rfl
    · exact .inr ⟨m', .inr hp⟩

/-- A step on the stream of a peer that has delivered `D`: a message that is received is the next one of these. -/
theorem heard_step (hS : S = D.flatMap C.code ++ part) (hcut : C.Cut part) {x x' : Side N H α}
    (hl : received x.2.log <+: D) {peer : List N.Event} (hD : D <+: sent peer)
    (hs : Step (solo exec (C.reads S)) x x') :
    Step (solo exec (fromPeer (ending C.lost) peer)) x x' ∧ received x'.2.log <+: D ∧
      delivered x.2.log <+: delivered x'.2.log := by
  cases hs with
  | loop => exact ⟨.loop, hl, List.prefix_refl _⟩
  | @op o k w w' r hs =>
    obtain ⟨hreads, hperf⟩ := hs
    rw [perform_log hperf, received_append, delivered_append]
    cases o with
    | send m => exact ⟨.op ⟨⟨trivial, trivial⟩, hperf⟩, by simpa using hl, List.prefix_append _ _⟩
    | call c => exact ⟨.op ⟨⟨trivial, trivial⟩, hperf⟩, by simpa using hl, List.prefix_append _ _⟩
    | recv =>
      cases r with
      | error e =>
        have hlost : C.lost e := hreads.resolve_right fun hbad =>
          C.bad_unreadable hbad (by rw [hS]; exact stream_readable hcut hl)
        exact ⟨.op ⟨⟨hlost, trivial⟩, hperf⟩, by simpa using hl, List.prefix_append _ _⟩
      | ok m =>
        have hm : C.code m <+: S.drop ((received w.log).flatMap C.code).length := hreads
        rw [hS] at hm
        have hnext := next_delivered hcut hl hm
        exact ⟨.op ⟨⟨trivial, getElem?_of_isPrefix hD hnext⟩, hperf⟩, prefix_concat_of_getElem? hl hnext,
          List.prefix_append _ _⟩

end Heard

theorem Joined.step_left (J : C.Joined x y X Y) (hturn : ∀ o k, x.1 = .op o k → Minds o (intact x.2.log))
    (hs : Step (wired exec Y.2.port.out) X X') :
    ∃ x', (x' = x ∨ Step (solo exec (fromPeer (ending C.lost) y.2.log)) x x') ∧ C.Joined x' y X' Y := by
  obtain ⟨part, hpart, hcut⟩ := J.right.leaves
  obtain ⟨x', hx, hF⟩ := J.left.step hturn hs
  have hright := J.right.mono (station_out hs)
  rcases hx with rfl | hx
  · exact ⟨_, .inl rfl, hF, hright, J.heardLeft, J.heardRight, J.kemptLeft, J.kemptRight⟩
  · obtain ⟨hpeer, hheard, hgrows⟩ := heard_step hpart hcut J.heardLeft J.kemptRight.isPrefix hx
    exact ⟨x', .inr hpeer, hF, hright, hheard, J.heardRight.trans hgrows, J.kemptLeft.step hturn hx, J.kemptRight⟩

/-- **Refinement.**  Whatever two processes that take turns do over bytes, they can do over messages. -/
theorem carried_refines {p : Prog N.sig α} {q : Prog N.sig β} {first second : Bool}
    {Q : α → List N.Event → Prop} {Q' : β → List N.Event → Prop} (hp : Along chat (Polite first) p [] Q)
    (hq : Along chat (Polite second) q [] Q') {h h' : H}
    (hr : WReach exec ((C.carried p, ⟨h, {}⟩), (C.carried q, ⟨h', {}⟩)) (X, Y)) :
    ∃ x y, JReach exec (ending C.lost) (ending C.lost) ((p, ⟨h, []⟩), (q, ⟨h', []⟩)) (x, y) ∧
      C.Joined x y X Y := by
  have key : ∀ c, WReach exec ((C.carried p, ⟨h, {}⟩), (C.carried q, ⟨h', {}⟩)) c → ∃ x y,
      JReach exec (ending C.lost) (ending C.lost) ((p, ⟨h, []⟩), (q, ⟨h', []⟩)) (x, y) ∧ C.Joined x y c.1 c.2 := by
    intro c hc
    induction hc with
    | refl =>
      refine ⟨_, _, .refl, .idle rfl (fun _ => rfl) (leaves_port []), .idle rfl (fun _ => rfl) (leaves_port []),
        List.prefix_refl _, List.prefix_refl _, kempt_nil, kempt_nil⟩
    | tail _ hs ih =>
      obtain ⟨x, y, hrun, J⟩ := ih
      cases hs with
      | left hs =>
        obtain ⟨x', hx, J'⟩ := J.step_left (minds_reach hp hrun.left) hs
        rcases hx with rfl | hx
        · exact ⟨_, y, hrun, J'⟩
        · exact ⟨x', y, hrun.tail (.left hx), J'⟩
      | right hs =>
        obtain ⟨y', hy, J'⟩ := J.symm.step_left (minds_reach hq hrun.right) hs
        rcases hy with rfl | hy
        · exact ⟨x, _, hrun, J'.symm⟩
        · exact ⟨x, y', hrun.tail (.right hy), J'.symm⟩
  exact key (X, Y) hr

/-! ### Schedules -/

/-- The next step of a process, if it can take one: `chunk` bytes at a time, and the end of the stream when it is
`closed`. -/
def wireTurn [DecidableEq B] (exec : N.Exec H) (answer : (c : N.Call) → H → Except N.Errno (N.Val c)) (chunk : Nat)
    (S : List B) (closed : Bool) : Prog (Bytes N B) α × Station H B → Option (Prog (Bytes N B) α × Station H B)
  | (.pure _, _) => none
  | (.loop body s k, v) => some (.unroll body s k, v)
  | (.op (.act (.send data)) k, v) =>
    some (k (.ok (min chunk data.length)),
      { v with port := { v.port with out := v.port.out ++ data.take (min chunk data.length) } })
  | (.op (.act (.recv n)) k, v) =>
    let data := (S.drop v.port.taken).take (min chunk n)
    if data = [] ∧ closed = false then none
    else some (k (.ok data), { v with port := { v.port with taken := v.port.taken + data.length } })
  | (.op (.also c) k, v) =>
    (exec c v.host (answer c v.host)).map fun h => (k (answer c v.host), { v with host := h })

theorem step_of_wireTurn [DecidableEq B] {answer : (c : N.Call) → H → Except N.Errno (N.Val c)} {chunk : Nat}
    {S : List B} {closed : Bool} (h : wireTurn exec answer chunk S closed X = some X') :
    Step (wired exec S) X X' := by
  obtain ⟨p, v⟩ := X
  cases p with
  | pure a => cases h
  | loop body s k => cases h; exact .loop
  | op o k =>
    cases o with
    | also c =>
      obtain ⟨h', he, rfl⟩ := Option.map_eq_some_iff.mp h
      exact .op ⟨he, rfl⟩
    | act o =>
      cases o with
      | send data =>
        cases h
        exact .op ⟨⟨Nat.min_le_right _ _, rfl⟩, rfl⟩
      | recv n =>
        simp only [wireTurn] at h
        split at h
        · cases h
        · cases h
          refine .op ⟨⟨List.take_prefix _ _, ?_, rfl⟩, rfl⟩
          exact (List.length_take_le _ _).trans (Nat.min_le_right _ _)

/-- `n` steps of a process on a stream that ends. -/
def wireRun [DecidableEq B] (exec : N.Exec H) (answer : (c : N.Call) → H → Except N.Errno (N.Val c)) (chunk : Nat)
    (S : List B) : Nat → Prog (Bytes N B) α × Station H B → Prog (Bytes N B) α × Station H B
  | 0, X => X
  | n + 1, X =>
    match wireTurn exec answer chunk S true X with
    | some X' => wireRun exec answer chunk S n X'
    | none => X

theorem reach_wireRun [DecidableEq B] (answer : (c : N.Call) → H → Except N.Errno (N.Val c)) (chunk n : Nat)
    (S : List B) (X : Prog (Bytes N B) α × Station H B) :
    Reach (wired exec S) X (wireRun exec answer chunk S n X) := by
  induction n generalizing X with
  | zero => exact .refl
  | succ n ih =>
    unfold wireRun
    split
    · next X' h => exact .head (step_of_wireTurn h) (ih X')
    · exact .refl

/-- `n` steps: the left side as long as it can, then the right one. -/
def wires [DecidableEq B] (exec : N.Exec H) (answer : (c : N.Call) → H → Except N.Errno (N.Val c)) (chunk : Nat) :
    Nat → (Prog (Bytes N B) α × Station H B) × (Prog (Bytes N B) β × Station H B) →
      (Prog (Bytes N B) α × Station H B) × (Prog (Bytes N B) β × Station H B)
  | 0, c => c
  | n + 1, (X, Y) =>
    match wireTurn exec answer chunk Y.2.port.out Y.1.result?.isSome X with
    | some X' => wires exec answer chunk n (X', Y)
    | none =>
      match wireTurn exec answer chunk X.2.port.out X.1.result?.isSome Y with
      | some Y' => wires exec answer chunk n (X, Y')
      | none => (X, Y)

theorem wreach_wires [DecidableEq B] (answer : (c : N.Call) → H → Except N.Errno (N.Val c)) (chunk n : Nat)
    (X : Prog (Bytes N B) α × Station H B) (Y : Prog (Bytes N B) β × Station H B) :
    WReach exec (X, Y) (wires exec answer chunk n (X, Y)) := by
  induction n generalizing X Y with
  | zero => exact .refl
  | succ n ih =>
    unfold wires
    split
    · next X' h => exact .head (.left (step_of_wireTurn h)) (ih X' Y)
    · split
      · next Y' h => exact .head (.right (step_of_wireTurn h)) (ih X Y')
      · exact .refl

end Joint

end Carrier

end Effect
