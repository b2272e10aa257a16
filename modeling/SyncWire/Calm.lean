import SyncWire.FrameIo

/-!
# Runs in which nothing fails

In a `calm` environment calls succeed where they can (a signal may interrupt a read or a
write, which is then tried again), and frames arrive.  `Calmly` is total correctness of a
stretch of calls there; `jends_toServer` and `jends_toClient` hand a frame over between
two processes.
-/

namespace SyncWire

open Wire Effect Posix

/-- An environment without failures. -/
def calm : net.Rely := fun _ o r =>
  match o, r with
  | .call c, r => Calm c r
  | .send _, .ok _ => True
  | .recv, .ok _ => True
  | _, _ => False

theorem calm_patient : Patient calm := fun _ _ h => h

/-- No call that reads fails. -/
theorem permits_calm : Permits (still calm) (fun _ => True) fun _ => False :=
  ⟨fun hc => ⟨calm_ok (steady_of_reads hc) _, _, rfl⟩, fun _ _ => trivial,
    fun hc hr _ => not_calm_error (steady_of_reads hc) _ hr.1⟩

section
variable {cr : Crypto} {α β : Type} {w v : World}

/-- Every run of `p` there ends, in `Q`, and is made of calls. -/
abbrev Calmly (cr : Crypto) (p : Sys α) (w : World) (Q : α → World → Prop) : Prop :=
  Total (solo (exec cr) (still calm)) p w Q

theorem calmly_sys {c : Posix.Call} {k : Except Nat (Posix.Val c) → Sys α} {Q : α → World → Prop}
    (hex : ∃ r h', Calm c r ∧ exec cr c w.host r = some h')
    (h : ∀ r h', Calm c r → exec cr c w.host r = some h' →
      Calmly cr (k r) ⟨h', w.log ++ [⟨.call c, r⟩]⟩ Q) : Calmly cr (sys c >>= k) w Q := by
  obtain ⟨r, h', hr, he⟩ := hex
  refine total_bind (total_call ⟨r, ⟨h', w.log ++ [⟨.call c, r⟩]⟩, ⟨hr, c, rfl⟩, ?_⟩ fun r' w' hs => ?_)
  · simp [perform, he]
  · obtain ⟨h'', he', rfl⟩ := Option.map_eq_some_iff.mp hs.2
    exact h r' h'' hs.1.1 he'

/-- A call that can succeed does. -/
theorem calmly_ok {c : Posix.Call} {k : Except Nat (Posix.Val c) → Sys α} {Q : α → World → Prop}
    (hc : c.steady = true) {x : Posix.Val c} {h₀ : Host} (hex : exec cr c w.host (.ok x) = some h₀)
    (h : ∀ x h', exec cr c w.host (.ok x) = some h' →
      Calmly cr (k (.ok x)) ⟨h', w.log ++ [⟨.call c, .ok x⟩]⟩ Q) : Calmly cr (sys c >>= k) w Q := by
  refine calmly_sys ⟨.ok x, h₀, calm_ok hc x, hex⟩ fun r h' hr he => ?_
  cases r with
  | error e => exact absurd hr (not_calm_error hc e)
  | ok x => exact h x h' he

/-- A call that only looks, and can succeed. -/
theorem calmly_look {c : Posix.Call} {k : Except Nat (Posix.Val c) → Sys α} {Q : α → World → Prop}
    (hc : c.looks = true) {x : Posix.Val c} {h₀ : Host} (hex : exec cr c w.host (.ok x) = some h₀)
    (h : ∀ x, exec cr c w.host (.ok x) = some w.host →
      Calmly cr (k (.ok x)) (w.push ⟨.call c, .ok x⟩) Q) : Calmly cr (sys c >>= k) w Q := by
  refine calmly_ok (steady_of_looks hc) hex fun x h' he => ?_
  obtain rfl := exec_looks hc he
  exact h x he

/-! ## Handing over a frame -/

variable {Q : α → World → β → World → Prop}

/-- Every interleaving of the two processes ends, in `Q`. -/
abbrev Together (cr : Crypto) (x : Sys α × World) (y : Sys β × World) (Q : α → World → β → World → Prop) : Prop :=
  JEnds (exec cr) calm calm x y Q

theorem jends_toServer {f : Frame} (hv : f.Valid) {k : FrameIoResult → Sys α}
    {k' : Except FrameIoResult Frame → Sys β} (hl : Linked w v)
    (h : ∀ res w' v', res.ok = true → w'.host = w.host → v'.host = v.host → Linked w' v' →
      Together cr (k res, w') (k' (.ok f), v') Q) :
    Together cr (sendFrame f >>= k, w) (receiveFrame >>= k', v) Q := by
  rw [sendFrame_bind hv, receiveFrame_bind]
  exact jends_deliver calm_patient calm_patient (m := ⟨f, hv⟩) (fun _ => trivial) (fun _ _ => id)
    (fun _ => trivial) hl fun hl' => h _ _ _ rfl rfl rfl hl'

theorem jends_toClient {f : Frame} (hv : f.Valid) {k : FrameIoResult → Sys β}
    {k' : Except FrameIoResult Frame → Sys α} (hl : Linked w v)
    (h : ∀ res w' v', res.ok = true → w'.host = w.host → v'.host = v.host → Linked w' v' →
      Together cr (k' (.ok f), w') (k res, v') Q) :
    Together cr (receiveFrame >>= k', w) (sendFrame f >>= k, v) Q :=
  jends_swap (jends_toServer hv hl.symm fun res v' w' hr hv' hw' hl' =>
    jends_swap (h res w' v' hr hw' hv' hl'.symm))

end

end SyncWire
