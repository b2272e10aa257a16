import SyncWire.FrameIo

/-!
# Everything returns

Whatever calls fail and whatever the peer sends: a client's attempt returns, and so does a
session of the server (`runOnce_returns`, `serveClientSession_returns`).  That every call is
answered is assumed: neither side sets a timeout, so a silent peer is waited for.

That a function returns is shown together with what it does, by one walk through its body:
`Does` is for the functions that only make calls, `Converses` for those that send and receive.
Only loops need an argument:

* the loops over `write` and `read` shorten what is left to transfer, or use up a signal;
* a stream, a source file and a directory tree have an end;
* a chunk that is stored is not empty and fits, and only the first one can go back to offset 0.
-/

namespace Posix

open Fs

variable {cr : Crypto} {h h' : Host}

theorem exec_write_ok {fd : Fd} {data : Bytes} {k : Nat} (he : exec cr (.write fd data) h (.ok k) = some h') :
    k ≤ data.length ∧ h'.signals = h.signals := by
  simp only [exec, succeed] at he
  split at he
  · split at he
    · next hk =>
      obtain rfl := Option.some.inj he
      exact ⟨hk, rfl⟩
    · cases he
  · cases he

theorem exec_read_ok {fd : Fd} {n : Nat} {data : Bytes} (he : exec cr (.read fd n) h (.ok data) = some h') :
    data.length ≤ n ∧ h'.signals = h.signals := by
  simp only [exec, succeed] at he
  split at he
  · split at he
    · next hdata =>
      obtain rfl := Option.some.inj he
      exact ⟨hdata.2.1, rfl⟩
    · cases he
  · cases he

/-- An interrupted call uses up a signal. -/
theorem exec_interrupted {c : Call} (hc : c.steady = false) (he : exec cr c h (.error EINTR) = some h') :
    h'.signals < h.signals := by
  obtain ⟨hs, rfl⟩ := fail_interrupted hc he
  exact Nat.sub_lt hs Nat.one_pos

end Posix

namespace SyncWire

open Wire Effect Posix

/-- The offset behind `k` more bytes that fit. -/
theorem toNat_advance {offset size : UInt64} {k : Nat} (hk : offset.toNat + k ≤ size.toNat) :
    (offset + UInt64.ofNat k).toNat = offset.toNat + k := by
  have hlt := size.toNat_lt
  rw [UInt64.toNat_add, UInt64.toNat_ofNat']
  omega

/-- A host with this library, and a peer that may send anything. -/
abbrev onHost (cr : Crypto) : Sem net.sig World := solo (exec cr) anyAnswer

/-- Every operation can be answered. -/
theorem able_onHost (cr : Crypto) (o : net.sig.Op) (w : World) : ∃ r w', onHost cr o w r w' := by
  cases o with
  | send f => exact ⟨.ok (), _, trivial, rfl⟩
  | recv => exact ⟨.error (.io (.peerClosed 0)), _, trivial, rfl⟩
  | call c =>
    obtain ⟨h', he⟩ := Option.isSome_iff_exists.mp (exec_answer cr c w.host)
    exact ⟨answer cr c w.host, ⟨h', w.log ++ [⟨.call c, answer cr c w.host⟩]⟩, trivial, by
      simp [perform, he]⟩

section
variable {α β : Type} {A B : net.sig.Op → Prop}

theorem total_sys {cr : Crypto} {c : Posix.Call} {k : Except Nat (Posix.Val c) → Sys α} {w : World}
    {Q : α → World → Prop}
    (h : ∀ r h', exec cr c w.host r = some h' → Total (onHost cr) (k r) ⟨h', w.log ++ [⟨.call c, r⟩]⟩ Q) :
    Total (onHost cr) (sys c >>= k) w Q := by
  refine total_op (able_onHost cr (.call c) w) fun r w' hs => ?_
  obtain ⟨h', he, rfl⟩ := Option.map_eq_some_iff.mp hs.2
  exact h r h' he

/-- The program issues operations of the kind `A` only, returns, and returns values in `R` only. -/
abbrev Does (A : net.sig.Op → Prop) (p : Sys α) (R : α → Prop) : Prop :=
  Concludes onHost anything (fun o _ _ => A o) p () fun a _ => R a

/-- The program issues operations of the kind `A` only, and returns. -/
abbrev Issues (A : net.sig.Op → Prop) (p : Sys α) : Prop := Does A p fun _ => True

theorem does_pure {R : α → Prop} {a : α} (h : R a) : Does A (pure a) R := concludes_pure h

theorem issues_pure (a : α) : Issues A (pure a) := does_pure trivial

theorem does_bind {p : Sys α} {f : α → Sys β} {R : α → Prop} {R' : β → Prop} (hp : Does A p R)
    (hf : ∀ a, R a → Does A (f a) R') : Does A (p >>= f) R' :=
  concludes_bind unrestricted_anything hp (fun _ _ _ ho => ho) fun a _ ha => hf a ha

theorem issues_bind {p : Sys α} {f : α → Sys β} {R : β → Prop} (hp : Issues A p) (hf : ∀ a, Does A (f a) R) :
    Does A (p >>= f) R := does_bind hp fun a _ => hf a

theorem does_op {o : net.sig.Op} (ho : A o) : Issues A (Prog.call o) :=
  concludes_op unrestricted_anything (fun cr w => able_onHost cr o w) ho fun _ _ _ => issues_pure _

theorem does_sys {R : α → Prop} {c : Posix.Call} {k : Except Nat (Posix.Val c) → Sys α} (hc : A (.call c))
    (hk : ∀ r, Does A (k r) R) : Does A (sys c >>= k) R :=
  issues_bind (does_op hc) hk

/-- Of a larger kind. -/
theorem Does.widen {p : Sys α} {R : α → Prop} (h : Does A p R) (hAB : ∀ o, A o → B o) : Does B p R :=
  h.mono (fun o _ _ => hAB o) fun _ _ ha => ha

theorem Does.uses {p : Sys α} {R : α → Prop} (h : Does A p R) : Uses A p := Gives.uses h.along

end

end SyncWire
