import SyncWire.Lib.FileSystem
import SyncWire.Lib.Prog

/-!
# A sender and a receiver on a byte stream

`send` puts any part of its data on the stream, from the front, or fails; `recv` takes
any part of what is there, at the end of a closed stream nothing.  A signal may
interrupt either (`EINTR`), finitely often.

* `sendSem`, `recvSem S closed`: one process at its end of the stream.
* `PipeStep`: the two side by side.  The receiver sees what has been sent so far, and
  the end of the stream once the sender has returned.
* `pipe_ends`: if the sender alone ends well, and the receiver alone does on every
  stream, then so does every interleaving of the two.
-/

namespace Effect

open Posix.Fs

inductive PipeOp (B : Type)
  | send (data : List B)
  | recv (n : Nat)

/-- How many were taken; which were received. -/
@[reducible] def PipeRes {B : Type} : PipeOp B → Type
  | .send _ => Except Nat Nat
  | .recv _ => Except Nat (List B)

abbrev pipe (B : Type) : Sig := ⟨PipeOp B, PipeRes⟩

/-- What was put on the stream so far, and how many signals will come. -/
structure Writer (B : Type) where
  stream : List B
  signals : Nat

/-- How much was taken so far, and how many signals will come. -/
structure Reader where
  taken : Nat
  signals : Nat

section
variable {B : Type}

/-- The sending end; any failure may happen. -/
def sendSem : Sem (pipe B) (Writer B) := fun o w r w' =>
  match o, r with
  | .send data, .ok k => k ≤ data.length ∧ w' = { w with stream := w.stream ++ data.take k }
  | .send _, .error errno =>
    if errno = EINTR then 0 < w.signals ∧ w' = { w with signals := w.signals - 1 } else w' = w
  | .recv _, _ => False

/-- The receiving end of the stream `S`. -/
def recvSem (S : List B) (closed : Prop) : Sem (pipe B) Reader := fun o v r v' =>
  match o, r with
  | .recv n, .ok data =>
    data <+: S.drop v.taken ∧ data.length ≤ n ∧ (data = [] → closed ∧ S.length ≤ v.taken) ∧
      v' = { v with taken := v.taken + data.length }
  | .recv _, .error errno => errno = EINTR ∧ 0 < v.signals ∧ v' = { v with signals := v.signals - 1 }
  | .send _, _ => False

variable {α β : Type}

/-- The two side by side. -/
inductive PipeStep : (Prog (pipe B) α × Writer B) × (Prog (pipe B) β × Reader) →
    (Prog (pipe B) α × Writer B) × (Prog (pipe B) β × Reader) → Prop
  | send {x x' : Prog (pipe B) α × Writer B} {y : Prog (pipe B) β × Reader} (h : Step sendSem x x') :
      PipeStep (x, y) (x', y)
  | recv {x : Prog (pipe B) α × Writer B} {y y' : Prog (pipe B) β × Reader}
      (h : Step (recvSem x.2.stream (∃ a, x.1 = .pure a)) y y') : PipeStep (x, y) (x, y')

abbrev PipeReach : (Prog (pipe B) α × Writer B) × (Prog (pipe B) β × Reader) →
    (Prog (pipe B) α × Writer B) × (Prog (pipe B) β × Reader) → Prop := Relation.ReflTransGen PipeStep

theorem stream_isPrefix {x x' : Prog (pipe B) α × Writer B} (h : Step sendSem x x') :
    x.2.stream <+: x'.2.stream := by
  cases h with
  | loop => exact List.prefix_refl _
  | @op o k w w' r hs =>
    cases o with
    | recv n => exact hs.elim
    | send data =>
      cases r with
      | ok k => obtain ⟨-, rfl⟩ := hs; exact List.prefix_append _ _
      | error errno =>
        simp only [sendSem] at hs
        split at hs
        · obtain ⟨-, rfl⟩ := hs; exact List.prefix_refl _
        · subst hs; exact List.prefix_refl _

theorem stream_isPrefix_of_reach {x x' : Prog (pipe B) α × Writer B} (h : Reach sendSem x x') :
    x.2.stream <+: x'.2.stream := by
  induction h with
  | refl => exact List.prefix_refl _
  | tail _ hs ih => exact ih.trans (stream_isPrefix hs)

/-- What can be received stays receivable while the stream grows. -/
theorem recv_mono {S S' : List B} {closed closed' : Prop} (hS : S <+: S') (hc : closed → closed' ∧ S' = S)
    {y y' : Prog (pipe B) β × Reader} (h : Step (recvSem S closed) y y') : Step (recvSem S' closed') y y' := by
  cases h with
  | loop => exact .loop
  | @op o k v v' r hs =>
    refine .op ?_
    cases o with
    | send data => exact hs.elim
    | recv n =>
      cases r with
      | error errno => exact hs
      | ok data =>
        obtain ⟨h1, h2, h3, h4⟩ := hs
        refine ⟨?_, h2, fun he => ?_, h4⟩
        · obtain ⟨t, rfl⟩ := hS
          exact h1.trans (by rw [List.drop_append]; exact List.prefix_append _ _)
        · obtain ⟨hcl, hlen⟩ := h3 he
          obtain ⟨hcl', rfl⟩ := hc hcl
          exact ⟨hcl', hlen⟩

theorem reach_recv_mono {S S' : List B} {closed closed' : Prop} (hS : S <+: S')
    (hc : closed → closed' ∧ S' = S) {y y' : Prog (pipe B) β × Reader} (h : Reach (recvSem S closed) y y') :
    Reach (recvSem S' closed') y y' := by
  induction h with
  | refl => exact .refl
  | tail _ hs ih => exact ih.tail (recv_mono hS hc hs)

/-- A sender that takes a step has not closed the stream. -/
theorem open_of_step {x x' : Prog (pipe B) α × Writer B} (h : Step sendSem x x') : ¬ ∃ a, x.1 = .pure a := by
  rintro ⟨a, ha⟩
  obtain ⟨p, w⟩ := x
  obtain rfl : p = .pure a := ha
  cases h

/-- The receiver's run so far is one on the stream as it is now. -/
theorem PipeReach.receiver {c d : (Prog (pipe B) α × Writer B) × (Prog (pipe B) β × Reader)}
    (h : PipeReach c d) : Reach (recvSem d.1.2.stream (∃ a, d.1.1 = .pure a)) c.2 d.2 := by
  induction h with
  | refl => exact .refl
  | tail _ hs ih =>
    cases hs with
    | recv hs => exact ih.tail hs
    | send hs =>
      exact reach_recv_mono (stream_isPrefix hs) (fun hc => absurd hc (open_of_step hs)) ih

theorem PipeReach.sender {c d : (Prog (pipe B) α × Writer B) × (Prog (pipe B) β × Reader)}
    (h : PipeReach c d) : Reach sendSem c.1 d.1 := by
  induction h with
  | refl => exact .refl
  | tail _ hs ih =>
    cases hs with
    | recv _ => exact ih
    | send hs => exact ih.tail hs

/-! ## One operation -/

theorem total_send {data : List B} {k : Except Nat Nat → Prog (pipe B) α} {w : Writer B}
    {Q : α → Writer B → Prop}
    (hok : ∀ n, n ≤ data.length → Total sendSem (k (.ok n)) { w with stream := w.stream ++ data.take n } Q)
    (hint : 0 < w.signals → Total sendSem (k (.error EINTR)) { w with signals := w.signals - 1 } Q)
    (herr : ∀ errno, errno ≠ EINTR → Total sendSem (k (.error errno)) w Q) :
    Total sendSem (Prog.call (S := pipe B) (.send data) >>= k) w Q := by
  refine total_bind (total_call ⟨.ok 0, w, Nat.zero_le _, by simp⟩ fun r w' hs => ?_)
  cases r with
  | ok n => obtain ⟨hn, rfl⟩ := hs; exact hok n hn
  | error errno =>
    simp only [sendSem] at hs
    split at hs
    · next he => obtain ⟨hpos, rfl⟩ := hs; exact he ▸ hint hpos
    · next he => exact hs ▸ herr errno he

theorem total_recv {n : Nat} (hn : 0 < n) {k : Except Nat (List B) → Prog (pipe B) α} {S : List B} {v : Reader}
    {Q : α → Reader → Prop}
    (hdata : ∀ d, d ≠ [] → d <+: S.drop v.taken → d.length ≤ n →
      Total (recvSem S True) (k (.ok d)) { v with taken := v.taken + d.length } Q)
    (hend : S.length ≤ v.taken → Total (recvSem S True) (k (.ok [])) v Q)
    (hint : 0 < v.signals → Total (recvSem S True) (k (.error EINTR)) { v with signals := v.signals - 1 } Q) :
    Total (recvSem S True) (Prog.call (S := pipe B) (.recv n) >>= k) v Q := by
  refine total_bind (total_call ?_ fun r v' hs => ?_)
  · -- one byte, or the end of the stream
    refine ⟨.ok ((S.drop v.taken).take 1), { v with taken := v.taken + ((S.drop v.taken).take 1).length },
      List.take_prefix _ _, ?_, fun he => ⟨trivial, ?_⟩, rfl⟩
    · exact Nat.le_trans (List.length_take_le _ _) hn
    · by_contra hlt
      have := congrArg List.length he
      rw [List.length_take, List.length_drop, List.length_nil] at this
      omega
  · cases r with
    | error errno => obtain ⟨rfl, hpos, rfl⟩ := hs; exact hint hpos
    | ok d =>
      obtain ⟨hd, hlen, hnil, rfl⟩ := hs
      by_cases he : d = []
      · subst he; exact hend (hnil rfl).2
      · exact hdata d he hd hlen

/-! ## Both processes -/

/-- **Every interleaving ends**, in what the two processes achieve alone: the receiver on the stream
that the sender leaves. -/
theorem pipe_ends {p : Prog (pipe B) α} {w : Writer B} {q : Prog (pipe B) β} {v : Reader}
    {P : α → Writer B → Prop} {R : List B → β → Reader → Prop} (hs : Total sendSem p w P)
    (hr : ∀ S, Total (recvSem S True) q v (R S)) :
    Ends PipeStep (fun c => ∃ a b, c.1.1 = .pure a ∧ c.2.1 = .pure b ∧ P a c.1.2 ∧
      R c.1.2.stream b c.2.2) ((p, w), (q, v)) := by
  -- induction on the sender's steps, and inside on the receiver's on the stream as it is
  have key : ∀ x, Ends (Step sendSem) (fun c => ∃ a, c.1 = .pure a ∧ P a c.2) x → ∀ y,
      Reach (recvSem x.2.stream (∃ a, x.1 = .pure a)) (q, v) y →
      Ends PipeStep (fun c => ∃ a b, c.1.1 = .pure a ∧ c.2.1 = .pure b ∧ P a c.1.2 ∧
        R c.1.2.stream b c.2.2) (x, y) := by
    intro x hx
    induction hx with
    | @intro x stop next ih =>
      intro y hy
      have hend := Ends.reach (hr x.2.stream)
        (reach_recv_mono (List.prefix_refl _) (fun _ => ⟨trivial, rfl⟩) hy)
      induction hend with
      | @intro y stopY nextY ihY =>
        refine .intro (fun hn => ?_) fun c hc => ?_
        · obtain ⟨a, ha, hP⟩ := stop fun x' hx' => hn _ (.send hx')
          obtain ⟨b, hb, hR⟩ := stopY fun y' hy' => hn _ (.recv
            (recv_mono (List.prefix_refl _) (fun _ => ⟨⟨a, ha⟩, rfl⟩) hy'))
          exact ⟨a, b, ha, hb, hP, hR⟩
        · cases hc with
          | recv hc => exact ihY _ (recv_mono (List.prefix_refl _) (fun _ => ⟨trivial, rfl⟩) hc) (hy.tail hc)
          | send hc =>
            exact ih _ hc _ (reach_recv_mono (stream_isPrefix hc) (fun h => absurd h (open_of_step hc)) hy)
  exact key (p, w) hs (q, v) .refl

end

end Effect
