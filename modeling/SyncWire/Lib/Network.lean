import Mathlib.Data.List.Basic
import Mathlib.Logic.Function.Basic
import SyncWire.Lib.Duplex

/-!
# Any number of processes on a network nobody controls

The processes take their steps in any order, and what they receive is what the
environment makes of it.  The trace records who did what, in that order; the log of a
process is its part of the trace.

* `Network.reach`, `Network.log`: each process does what it can do alone, and its log is its part.
* `split_of_own`: what a process did is somewhere in the trace, with its own past before it.
* `network_follow`: a schedule, carried out, is such a run.
-/

namespace Effect

section
variable {N : NetSig} {H ι α : Type}

/-- Who did what. -/
abbrev Trace (N : NetSig) (ι : Type) : Type := List (ι × N.Event)

/-- Everything that happened. -/
def Trace.events (t : Trace N ι) : List N.Event := t.map Prod.snd

variable [DecidableEq ι]

/-- What process `i` did. -/
def Trace.own (i : ι) (t : Trace N ι) : List N.Event :=
  t.filterMap fun x => if x.1 = i then some x.2 else none

open Trace

@[simp] theorem own_nil (i : ι) : own i ([] : Trace N ι) = [] := rfl

@[simp] theorem own_append (i : ι) (t t' : Trace N ι) : own i (t ++ t') = own i t ++ own i t' :=
  List.filterMap_append

@[simp] theorem own_self (i : ι) (e : N.Event) : own i [(i, e)] = [e] := by simp [own]

theorem own_other {i j : ι} (h : j ≠ i) (e : N.Event) : own i [(j, e)] = [] := by simp [own, h]

theorem mem_own {i : ι} {e : N.Event} {t : Trace N ι} : e ∈ own i t ↔ (i, e) ∈ t := by
  simp only [own, List.mem_filterMap, Option.ite_none_right_eq_some, Option.some.injEq, Prod.exists]
  constructor
  · rintro ⟨j, e', hm, rfl, rfl⟩
    exact hm
  · exact fun hm => ⟨i, e, hm, rfl, rfl⟩

theorem mem_events {e : N.Event} {t : Trace N ι} : e ∈ events t ↔ ∃ i, e ∈ own i t := by
  simp only [events, List.mem_map, Prod.exists, exists_eq_right, mem_own]

/-- If values do not repeat, equal ones are of one element. -/
theorem eq_of_nodup_filterMap {β γ : Type} {f : β → Option γ} {l : List β} (h : (l.filterMap f).Nodup) {x y : β}
    {c : γ} (hx : x ∈ l) (hy : y ∈ l) (hfx : f x = some c) (hfy : f y = some c) : x = y := by
  rw [List.Nodup, List.pairwise_filterMap] at h
  induction h with
  | nil => cases hx
  | cons hd _ ih =>
    rcases List.mem_cons.mp hx with rfl | hx' <;> rcases List.mem_cons.mp hy with rfl | hy'
    · rfl
    · exact absurd rfl (hd y hy' c hfx c hfy)
    · exact absurd rfl (hd x hx' c hfy c hfx)
    · exact ih hx' hy'

/-- Where a process did something, its own past is what comes before. -/
theorem split_of_own {i : ι} {e : N.Event} {t : Trace N ι} {l l' : List N.Event} (h : own i t = l ++ e :: l') :
    ∃ t1 t2, t = t1 ++ (i, e) :: t2 ∧ own i t1 = l ∧ own i t2 = l' := by
  obtain ⟨t1, t2, rfl, h1, h2⟩ := List.filterMap_eq_append_iff.mp h
  obtain ⟨t3, x, t4, rfl, h3, hx, h4⟩ := List.filterMap_eq_cons_iff.mp h2
  obtain ⟨j, e'⟩ := x
  simp only [Option.ite_none_right_eq_some, Option.some.injEq] at hx
  obtain ⟨rfl, rfl⟩ := hx
  refine ⟨t1 ++ t3, t4, by simp, ?_, h4⟩
  rw [own_append, own, h1, own, List.filterMap_eq_nil_iff.mpr h3, List.append_nil]

/-- The processes, started as `start` has them, have done `t` and are now as the last argument has them. -/
inductive Network (exec : N.Exec H) (rely : N.Rely) (start : ι → Side N H α) :
    Trace N ι → (ι → Side N H α) → Prop
  | start : Network exec rely start [] start
  | op {t : Trace N ι} {g : ι → Side N H α} (h : Network exec rely start t g) (i : ι)
      {o : NetOp N.Call N.Msg} {k : N.Res o → Prog N.sig α} {w w' : N.Local H} {r : N.Res o}
      (hi : g i = (.op o k, w)) (hs : solo exec rely o w r w') :
      Network exec rely start (t ++ [(i, ⟨o, r⟩)]) (Function.update g i (k r, w'))
  | loop {t : Trace N ι} {g : ι → Side N H α} (h : Network exec rely start t g) (i : ι) {σ β : Type}
      {body : σ → Prog N.sig (σ ⊕ β)} {s : σ} {k : β → Prog N.sig α} {w : N.Local H}
      (hi : g i = (.loop body s k, w)) :
      Network exec rely start t (Function.update g i (.unroll body s k, w))

variable {exec : N.Exec H} {rely : N.Rely} {start g : ι → Side N H α} {t : Trace N ι}

/-- Each process does what it can do alone. -/
theorem Network.reach (h : Network exec rely start t g) (i : ι) : Reach (solo exec rely) (start i) (g i) := by
  induction h with
  | start => exact .refl
  | @op t g h j o k w w' r hj hs ih =>
    by_cases hij : i = j
    · subst hij
      rw [hj] at ih
      rw [Function.update_self]
      exact ih.tail (.op hs)
    · rw [Function.update_of_ne hij]
      exact ih
  | @loop t g h j σ β body s k w hj ih =>
    by_cases hij : i = j
    · subst hij
      rw [hj] at ih
      rw [Function.update_self]
      exact ih.tail .loop
    · rw [Function.update_of_ne hij]
      exact ih

theorem Network.log (h : Network exec rely start t g) (i : ι) : (g i).2.log = (start i).2.log ++ own i t := by
  induction h with
  | start => simp
  | @op t g h j o k w w' r hj hs ih =>
    rw [own_append, ← List.append_assoc, ← ih]
    by_cases hij : i = j
    · subst hij
      rw [Function.update_self, hj, own_self]
      exact perform_log hs.2
    · rw [Function.update_of_ne hij, own_other (Ne.symm hij), List.append_nil]
  | @loop t g h j σ β body s k w hj ih =>
    rw [← ih]
    by_cases hij : i = j
    · subst hij
      rw [Function.update_self, hj]
    · rw [Function.update_of_ne hij]

/-! ## Carrying out a schedule -/

/-- Give process `i` a turn; `answer` says what it is answered. -/
def turn (exec : N.Exec H) (answer : (ι → Side N H α) → (i : ι) → (o : NetOp N.Call N.Msg) → N.Res o)
    (c : Trace N ι × (ι → Side N H α)) (i : ι) : Trace N ι × (ι → Side N H α) :=
  match c.2 i with
  | (.pure _, _) => c
  | (.op o k, w) =>
    match perform exec o w (answer c.2 i o) with
    | some w' => (c.1 ++ [(i, ⟨o, answer c.2 i o⟩)], Function.update c.2 i (k (answer c.2 i o), w'))
    | none => c
  | (.loop body s k, w) => (c.1, Function.update c.2 i (.unroll body s k, w))

def follow (exec : N.Exec H) (answer : (ι → Side N H α) → (i : ι) → (o : NetOp N.Call N.Msg) → N.Res o)
    (start : ι → Side N H α) (schedule : List ι) : Trace N ι × (ι → Side N H α) :=
  schedule.foldl (turn exec answer) ([], start)

theorem network_follow {answer : (ι → Side N H α) → (i : ι) → (o : NetOp N.Call N.Msg) → N.Res o}
    (hrely : ∀ log o r, rely log o r) (schedule : List ι) :
    Network exec rely start (follow exec answer start schedule).1 (follow exec answer start schedule).2 := by
  have hturn : ∀ c i, Network exec rely start c.1 c.2 →
      Network exec rely start (turn exec answer c i).1 (turn exec answer c i).2 := by
    intro c i h
    unfold turn
    split
    · exact h
    · next o k w hi =>
      split
      · next w' hw => exact h.op i hi ⟨hrely _ _ _, hw⟩
      · exact h
    · next σ β body s k w hi => exact h.loop i hi
  have hfold : ∀ c, Network exec rely start c.1 c.2 →
      Network exec rely start (schedule.foldl (turn exec answer) c).1 (schedule.foldl (turn exec answer) c).2 := by
    induction schedule with
    | nil => exact fun c h => h
    | cons i schedule ih => exact fun c h => ih _ (hturn c i h)
  exact hfold ([], start) .start

end

end Effect
