import SyncWire.Lib.Session
import SyncWire.Authentication
import SyncWire.SyncCodec
import SyncWire.Receive.Stages
import SyncWire.Send.Source

/-!
# Frames sent and received in turn

What the two sides of a session say and hear, and that they return: `Converses`.  Calls leave
no trace in the history; `heeds_ask` is a client's request with the reply to it.
-/

namespace SyncWire

open Wire Effect Posix FileTransfer

/-- Receiving failed below the frames: the peer closed the connection, or the socket has an error. -/
def closed (e : ReceiveFailure) : Prop := ∃ failure, e = .io failure

/-- A frame that says no. -/
def Refuses (m : WireFrame) : Prop :=
  match m.1.header.messageType with
  | .transferResult => decodeTransferResult (.of m.1.payload) ≠ .ok .success
  | .syncResult => decodeSyncResult (.of m.1.payload) ≠ .ok .success
  | .authResult => m.1.payload.head? ≠ some Authentication.kAuthenticationAccepted
  | _ => False

/-- Calls that leave the file system alone, and frames. -/
def Reading : net.sig.Op → Prop
  | .call c => c.reads = true
  | _ => True

theorem reach_reading {α : Type} {cr : Crypto} {rely : net.Rely} {p : Sys α} {w : World} (hp : Uses Reading p)
    {x : Side net Host α} (hr : Reach (solo (exec cr) rely) (p, w) x) : x.2.host.fs = w.host.fs := by
  have hsafe : Safe (solo (exec cr) rely) (fun w w' => w'.host.fs = w.host.fs) p w fun _ _ => True := by
    refine safe_iff_along.mpr ((hp.along w).mono (fun o k v ho r v' hs => ?_) fun _ _ _ => trivial)
    cases o with
    | send m => cases hs.2; rfl
    | recv => cases hs.2; rfl
    | call c =>
      obtain ⟨h', he, rfl⟩ := Option.map_eq_some_iff.mp hs.2
      exact exec_reads ho he
  exact hsafe.reach (fun w' => w'.host.fs = w.host.fs) rfl (fun _ _ h h' => h'.trans h) hr

theorem isCall_of_read (o : net.sig.Op) (h : ReadCall o) : IsCall o := by
  cases o with
  | send m => exact absurd h id
  | recv => exact absurd h id
  | call c => trivial

/-- A side of a session: what it says and hears keeps to `V`, and it returns. -/
abbrev Converses {α : Type} (V : Watch net.sig (List net.Event) α) (p : Sys α) (h : List net.Event)
    (Q : α → List net.Event → Prop) : Prop := Concludes onHost chat V p h Q

section Rules
variable {α β : Type} {V : Watch net.sig (List net.Event) β} {Q : β → List net.Event → Prop} {h : List net.Event}

theorem converses_pure {b : β} (hq : Q b h) : Converses V (pure b) h Q := concludes_pure hq

/-- Calls leave no trace. -/
theorem converses_does {A : net.sig.Op → Prop} {p : Sys α} {f : α → Sys β} {R : α → Prop} (hp : Does A p R)
    (hA : ∀ o, A o → IsCall o) (hV : ∀ c k, A (.call c) → V (.call c) k h)
    (hf : ∀ a, R a → Converses V (f a) h Q) : Converses V (p >>= f) h Q := by
  have hkeeps : Along chat (fun o _ l => A o ∧ l = h) p h fun a l => R a ∧ l = h := by
    refine Gives.keeps hp.along (fun o l r l' ho hl hs => ?_) rfl
    have hcall := hA o ho
    cases o with
    | send m => exact absurd hcall id
    | recv => exact absurd hcall id
    | call c => rw [show l' = _ from hs, history_call, List.append_nil, hl]
  refine concludes_bind unrestricted_chat ⟨hkeeps, hp.returns⟩ ?_ ?_
  · rintro o k l ⟨ho, rfl⟩
    have hcall := hA o ho
    cases o with
    | send m => exact absurd hcall id
    | recv => exact absurd hcall id
    | call c => exact hV c _ ho
  · rintro a l ⟨ha, rfl⟩
    exact hf a ha

/-- A frame that is known to be valid. -/
theorem converses_sendValid {f : Frame} {k : FrameIoResult → Sys β} (hf : f.Valid)
    (hv : V (.send ⟨f, hf⟩) (fun r => k (sendOutcome f r)) h)
    (h1 : ∀ r, Converses V (k (sendOutcome f r)) (h ++ [⟨.send ⟨f, hf⟩, r⟩]) Q) :
    Converses V (sendFrame f >>= k) h Q := by
  rw [sendFrame_bind hf]
  refine concludes_op unrestricted_chat (fun cr w => able_onHost cr _ w) hv fun r l hs => ?_
  obtain rfl : l = _ := hs
  exact h1 r

theorem converses_send {f : Frame} {k : FrameIoResult → Sys β}
    (h0 : ∀ res, res.status = .invalidFrame → Converses V (k res) h Q)
    (hv : ∀ hf, V (.send ⟨f, hf⟩) (fun r => k (sendOutcome f r)) h)
    (h1 : ∀ hf r, Converses V (k (sendOutcome f r)) (h ++ [⟨.send ⟨f, hf⟩, r⟩]) Q) :
    Converses V (sendFrame f >>= k) h Q := by
  by_cases hf : f.Valid
  · exact converses_sendValid hf (hv hf) (h1 hf)
  · obtain ⟨res, he, hres⟩ := sendFrame_invalid hf
    rw [he]
    exact h0 res hres

theorem converses_receive {k : Except FrameIoResult Frame → Sys β}
    (hv : V .recv (fun r => k (receiveOutcome r)) h)
    (hlost : ∀ e : ReceiveFailure, Converses V (k (.error e.result)) (h ++ [⟨.recv, .error e⟩]) Q)
    (hok : ∀ m : WireFrame, Converses V (k (.ok m.1)) (h ++ [⟨.recv, .ok m⟩]) Q) :
    Converses V (receiveFrame >>= k) h Q := by
  rw [receiveFrame_bind]
  refine concludes_op unrestricted_chat (fun cr w => able_onHost cr _ w) hv fun r l hs => ?_
  obtain rfl : l = _ := hs
  cases r with
  | ok m => exact hok m
  | error e => exact hlost e

end Rules

/-! ## The server -/

section Polite
variable {α β : Type} {first : Bool} {Q : β → List net.Event → Prop} {h : List net.Event}

theorem polite_bind {p : Sys α} {f : α → Sys β} {R : α → List net.Event → Prop}
    (hp : Converses (Polite first) p h R) (hf : ∀ a l, R a l → Converses (Polite first) (f a) l Q) :
    Converses (Polite first) (p >>= f) h Q :=
  concludes_bind unrestricted_chat hp (fun _ _ _ hv => hv) hf

theorem polite_does {p : Sys α} {f : α → Sys β} {R : α → Prop} (hp : Does IsCall p R)
    (hf : ∀ a, R a → Converses (Polite first) (f a) h Q) : Converses (Polite first) (p >>= f) h Q :=
  converses_does hp (fun _ ho => ho) (fun _ _ _ => trivial) hf

theorem polite_sys {c : Posix.Call} {k : Except Nat (Posix.Val c) → Sys β}
    (hk : ∀ r, Converses (Polite first) (k r) h Q) : Converses (Polite first) (sys c >>= k) h Q :=
  polite_does (does_op trivial) fun r _ => hk r

end Polite

/-! ## The client -/

section Ask
variable {α : Type} {first : Bool} {Told : List net.Event → WireFrame → α → Prop} {Lost : α → Prop}
  {Q : α → List net.Event → Prop} {h : List net.Event}

/-- A client of the frames above, which only reads its files. -/
abbrev Heeds (first : Bool) (Told : List net.Event → WireFrame → α → Prop) (Lost : α → Prop) :
    Watch net.sig (List net.Event) α := fun o k h => Listens closed first Refuses Told Lost o k h ∧ Reading o

theorem heeds_bind {β : Type} {Told' : List net.Event → WireFrame → β → Prop} {Lost' : β → Prop} {p : Sys α}
    {f : α → Sys β} {R : β → List net.Event → Prop} (hp : Converses (Heeds first Told Lost) p h Q)
    (htold : ∀ h m a, Told h m a → ∃ b, f a = .pure b ∧ Told' h m b)
    (hlost : ∀ a, Lost a → ∃ b, f a = .pure b ∧ Lost' b)
    (hf : ∀ a l, Q a l → Converses (Heeds first Told' Lost') (f a) l R) :
    Converses (Heeds first Told' Lost') (p >>= f) h R :=
  concludes_bind unrestricted_chat hp (fun _ _ _ hl => ⟨hl.1.bind htold hlost, hl.2⟩) hf

/-- A loop that leaves at once when its body was told or lost. -/
theorem heeds_iter {σ : Type} {body : σ → Sys (σ ⊕ α)} {s : σ} (J : σ → List net.Event → Prop) (m : σ → Nat)
    (hbody : ∀ s h, J s h → Converses
      (Heeds first (fun h m x => ∃ a, x = .inr a ∧ Told h m a) fun x => ∃ a, x = .inr a ∧ Lost a)
      (body s) h fun x h' => x.elim (fun s' => J s' h' ∧ m s' < m s) fun a => Q a h') (hJ : J s h) :
    Converses (Heeds first Told Lost) (Prog.iter body s) h Q := by
  refine concludes_iter unrestricted_chat J m
    (fun s h hJ => (hbody s h hJ).mono (fun _ _ _ hl => ⟨hl.1.bind ?_ ?_, hl.2⟩) fun _ _ hq => hq) hJ
  · rintro h m x ⟨a, rfl, ha⟩
    exact ⟨a, rfl, ha⟩
  · rintro x ⟨a, rfl, ha⟩
    exact ⟨a, rfl, ha⟩

theorem heeds_does {β : Type} {p : Sys β} {f : β → Sys α} {R : β → Prop} (hp : Does ReadCall p R)
    (hf : ∀ b, R b → Converses (Heeds first Told Lost) (f b) h Q) :
    Converses (Heeds first Told Lost) (p >>= f) h Q :=
  converses_does hp isCall_of_read (fun _ _ hc => ⟨trivial, hc⟩) hf

theorem heeds_sys {c : Posix.Call} {k : Except Nat (Posix.Val c) → Sys α} (hc : c.reads = true)
    (hk : ∀ r, Converses (Heeds first Told Lost) (k r) h Q) :
    Converses (Heeds first Told Lost) (sys c >>= k) h Q :=
  heeds_does (does_op hc) fun r _ => hk r

/-- A reply that is awaited. -/
theorem heeds_await {k : Except FrameIoResult Frame → Sys α} (hturn : waits first h = true)
    (hb : broken h = false)
    (hlost : ∀ e : ReceiveFailure, ∃ a, k (.error e.result) = .pure a ∧ (closed e → Lost a) ∧
      ∀ l, broken l = true → Q a l)
    (htold : ∀ m, Refuses m → ∃ a, k (.ok m.1) = .pure a ∧ Told h m a)
    (hnext : ∀ m : WireFrame, Converses (Heeds first Told Lost) (k (.ok m.1))
      (h ++ [⟨.recv, .ok m⟩]) Q) :
    Converses (Heeds first Told Lost) (receiveFrame >>= k) h Q := by
  refine converses_receive ⟨⟨⟨hturn, hb⟩, htold, fun e he => ?_⟩, trivial⟩ (fun e => ?_) hnext
  · obtain ⟨a, ha, hl, -⟩ := hlost e
    exact ⟨a, ha, hl he⟩
  · obtain ⟨a, ha, -, hq⟩ := hlost e
    rw [ha]
    exact converses_pure (hq _ broken_concat_error)

/-- A request and the reply to it. -/
theorem heeds_ask {f : Frame} {p : FrameIoResult → Sys α} {k : Except FrameIoResult Frame → Sys α}
    (hturn : waits first h = false)
    (hinvalid : ∀ res, res.status = .invalidFrame → Converses (Heeds first Told Lost) (p res) h Q)
    (hsent : ∀ n, p { transferred := n } = receiveFrame >>= k)
    (hfail : ∀ failure : IoFailure, ∃ a, p failure.result = .pure a ∧ Lost a ∧ ∀ l, broken l = true → Q a l)
    (hlost : ∀ e : ReceiveFailure, ∃ a, k (.error e.result) = .pure a ∧ (closed e → Lost a) ∧
      ∀ l, broken l = true → Q a l)
    (htold : ∀ hf m, Refuses m → ∃ a, k (.ok m.1) = .pure a ∧ Told (h ++ [⟨.send ⟨f, hf⟩, .ok ()⟩]) m a)
    (hnext : ∀ hf (m : WireFrame), Converses (Heeds first Told Lost) (k (.ok m.1))
      (h ++ [⟨.send ⟨f, hf⟩, .ok ()⟩] ++ [⟨.recv, .ok m⟩]) Q) :
    Converses (Heeds first Told Lost) (sendFrame f >>= p) h Q := by
  have hwait : ∀ r, ∃ k', p (sendOutcome f (.ok r)) = .op .recv k' := fun r =>
    ⟨_, (hsent _).trans (receiveFrame_bind k)⟩
  refine converses_send hinvalid (fun hf => ⟨⟨hturn, hwait (), fun e => ?_⟩, trivial⟩) fun hf r => ?_
  · obtain ⟨a, ha, hl, -⟩ := hfail e
    exact ⟨a, ha, hl⟩
  · cases r with
    | error e =>
      obtain ⟨a, ha, -, hq⟩ := hfail e
      rw [show p (sendOutcome f (.error e)) = .pure a from ha]
      exact converses_pure (hq _ broken_concat_unsent)
    | ok _ =>
      rw [show p (sendOutcome f (.ok ())) = _ from hsent _]
      exact heeds_await waits_concat_send broken_concat_sent hlost (htold hf) (hnext hf)

/-- A request whose reply is the end, whatever it says. -/
theorem heeds_ask_last {f : Frame} {p : FrameIoResult → Sys α} {k : Except FrameIoResult Frame → Sys α}
    (hturn : waits first h = false)
    (hinvalid : ∀ res, res.status = .invalidFrame → Converses (Heeds first Told Lost) (p res) h Q)
    (hsent : ∀ n, p { transferred := n } = receiveFrame >>= k)
    (hfail : ∀ failure : IoFailure, ∃ a, p failure.result = .pure a ∧ Lost a ∧ ∀ l, broken l = true → Q a l)
    (hlost : ∀ e : ReceiveFailure, ∃ a, k (.error e.result) = .pure a ∧ (closed e → Lost a) ∧
      ∀ l, broken l = true → Q a l)
    (hlast : ∀ m : WireFrame, ∃ a, k (.ok m.1) = .pure a ∧ (∀ l, Told l m a) ∧ ∀ l, Q a (l ++ [⟨.recv, .ok m⟩])) :
    Converses (Heeds first Told Lost) (sendFrame f >>= p) h Q := by
  refine heeds_ask hturn hinvalid hsent hfail hlost (fun hf m _ => ?_) fun hf m => ?_
  · obtain ⟨a, ha, ht, -⟩ := hlast m
    exact ⟨a, ha, ht _⟩
  · obtain ⟨a, ha, -, hq⟩ := hlast m
    rw [ha]
    exact converses_pure (hq _)

/-- On the channel. -/
theorem heeds_listens {p : Sys α} (hp : Converses (Heeds first Told Lost) p h Q) :
    Along chat (Listens closed first Refuses Told Lost) p h Q :=
  hp.along.mono (fun _ _ _ hl => hl.1) fun _ _ hq => hq

/-- On its host. -/
theorem heeds_reads {p : Sys α} (hp : Converses (Heeds first Told Lost) p h Q) : Uses Reading p :=
  hp.along.uses unrestricted_chat fun _ _ _ hl => hl.2

end Ask

end SyncWire
