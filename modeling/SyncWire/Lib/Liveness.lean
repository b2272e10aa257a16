import Mathlib.Logic.Hydra
import Mathlib.Data.Fintype.Basic
import SyncWire.Lib.Mutex

/-!
# Threads that all end

If every thread of a pool ends when it runs alone, on any host, then every interleaving of
finitely many disciplined threads ends, and all threads have returned (`Pool.ends`).

The states of the threads form a multiset; a step replaces one of them by one that is
nearer to its end (`Below`).
-/

namespace Effect

namespace Pool

open Relation

variable {ι : Type} [DecidableEq ι] {N : NetSig} {H α : Type}

/-- Where a thread is: without the mutex it does not know the host. -/
inductive Phase (N : NetSig) (H α : Type)
  | waiting (p : Prog (locked N.sig) α) (log : List N.Event)
  | inside (p : Prog (locked N.sig) α) (w : N.Local H)

/-- `Below y x`: thread `i` may go from `x` to `y`. -/
inductive Below (exec : N.Exec H) (rely : ι → N.Rely) : ι × Phase N H α → ι × Phase N H α → Prop
  | wait {i : ι} {o : N.sig.Op} {k : N.Res o → Prog (locked N.sig) α} {r : N.Res o} {l l' : List N.Event}
      (h : ∀ h, solo exec (rely i) o ⟨h, l⟩ r ⟨h, l'⟩) :
      Below exec rely (i, .waiting (k r) l') (i, .waiting (.op (S := locked N.sig) (.act o) k) l)
  | waitLoop {i : ι} {σ β : Type} {body : σ → Prog (locked N.sig) (σ ⊕ β)} {x : σ} {k : β → Prog (locked N.sig) α}
      {l : List N.Event} : Below exec rely (i, .waiting (.unroll body x k) l) (i, .waiting (.loop body x k) l)
  | enter {i : ι} {k : Unit → Prog (locked N.sig) α} {l : List N.Event} (h : H) :
      Below exec rely (i, .inside (k ()) ⟨h, l⟩) (i, .waiting (.op (S := locked N.sig) (.also .acquire) k) l)
  | act {i : ι} {o : N.sig.Op} {k : N.Res o → Prog (locked N.sig) α} {r : N.Res o} {w w' : N.Local H}
      (h : solo exec (rely i) o w r w') :
      Below exec rely (i, .inside (k r) w') (i, .inside (.op (S := locked N.sig) (.act o) k) w)
  | loop {i : ι} {σ β : Type} {body : σ → Prog (locked N.sig) (σ ⊕ β)} {x : σ} {k : β → Prog (locked N.sig) α}
      {w : N.Local H} : Below exec rely (i, .inside (.unroll body x k) w) (i, .inside (.loop body x k) w)
  | leave {i : ι} {k : Unit → Prog (locked N.sig) α} {w : N.Local H} :
      Below exec rely (i, .waiting (k ()) w.log) (i, .inside (.op (S := locked N.sig) (.also .release) k) w)

variable {exec : N.Exec H} {rely : ι → N.Rely} {A : N.sig.Op → Prop} {host : H}
  {task : ι → Prog (locked N.sig) α} {s s' : Pool ι N H α} {Q : Prog N.sig α × N.Local H → Prop}

omit [DecidableEq ι] in
theorem acc_returned (i : ι) (a : α) (l : List N.Event) : Acc (Below exec rely) (i, .waiting (.pure a) l) :=
  .intro _ fun y hy => by cases hy

omit [DecidableEq ι] in
/-- Under the mutex, by induction on the steps the thread can take alone. -/
theorem acc_inside {i : ι} {p : Prog (locked N.sig) α} {w : N.Local H} (hp : Disciplined A p true)
    (he : Ends (Effect.Step (solo exec (rely i))) Q (p.unlocked, w)) : Acc (Below exec rely) (i, .inside p w) := by
  generalize hc : (p.unlocked, w) = c at he
  induction he generalizing p w with
  | intro _ next ih =>
    subst hc
    refine .intro _ fun y hy => ?_
    cases hy with
    | act h => exact ih _ (.op h) (hp.act _) rfl
    | loop => exact ih _ .loop (hp.step .loop) (by rw [Prog.unlocked_unroll])
    | leave =>
      obtain ⟨a, ha⟩ := hp.release
      rw [ha]
      exact acc_returned i a _

omit [DecidableEq ι] in
theorem acc_waiting {i : ι} {p : Prog (locked N.sig) α} {l : List N.Event} (host : H) (hp : Disciplined A p false)
    (he : ∀ h, Ends (Effect.Step (solo exec (rely i))) Q (p.unlocked, ⟨h, l⟩)) :
    Acc (Below exec rely) (i, .waiting p l) := by
  have h0 := he host
  generalize hc : (p.unlocked, (⟨host, l⟩ : N.Local H)) = c at h0
  induction h0 generalizing p l with
  | intro _ next ih =>
    subst hc
    refine .intro _ fun y hy => ?_
    cases hy with
    | wait h =>
      refine ih _ (.op (h host)) (hp.act _) (fun h' => ?_) rfl
      cases he h' with
      | intro _ next => exact next _ (.op (h h'))
    | waitLoop =>
      refine ih _ .loop (hp.step .loop) (fun h' => ?_) (by rw [Prog.unlocked_unroll])
      cases he h' with
      | intro _ next => exact Prog.unlocked_unroll _ _ _ ▸ next _ .loop
    | enter h' => exact acc_inside hp.acquire (he h')

/-- Steps of threads that have an end before them. -/
def Nearer (exec : N.Exec H) (rely : ι → N.Rely) (y x : ι × Phase N H α) : Prop :=
  Below exec rely y x ∧ Acc (Below exec rely) x

omit [DecidableEq ι] in
theorem wellFounded_nearer (exec : N.Exec H) (rely : ι → N.Rely) : WellFounded (Nearer (α := α) exec rely) := by
  have hacc : ∀ x : ι × Phase N H α, Acc (Below exec rely) x → Acc (Nearer exec rely) x := by
    intro x hx
    induction hx with
    | intro x _ ih => exact .intro _ fun y hy => ih y hy.1
  exact ⟨fun x => .intro _ fun y hy => hacc y (hy.2.inv hy.1)⟩

def phase (s : Pool ι N H α) (i : ι) : ι × Phase N H α :=
  (i, if s.holder = some i then .inside (s.prog i) (s.world i) else .waiting (s.prog i) (s.log i))

/-- The states of all threads. -/
def phases [Fintype ι] (s : Pool ι N H α) : Multiset (ι × Phase N H α) := Finset.univ.val.map s.phase

theorem cutExpand_phases [Fintype ι] {i : ι} (h : Nearer exec rely (s'.phase i) (s.phase i))
    (ho : ∀ j, j ≠ i → s'.phase j = s.phase j) : CutExpand (Nearer exec rely) s'.phases s.phases := by
  have hsplit : ∀ t : Pool ι N H α, t.phases = t.phase i ::ₘ (Finset.univ.erase i).val.map t.phase := fun t => by
    rw [phases, ← Multiset.map_cons, ← Finset.insert_val_of_notMem (Finset.notMem_erase i _),
      Finset.insert_erase (Finset.mem_univ i)]
  have hrest : (Finset.univ.erase i).val.map s'.phase = (Finset.univ.erase i).val.map s.phase :=
    Multiset.map_congr rfl fun j hj => ho j (Finset.ne_of_mem_erase hj)
  rw [hsplit s', hsplit s, hrest, ← Multiset.singleton_add, ← Multiset.singleton_add]
  exact (cutExpand_add_right _).mpr (cutExpand_singleton_singleton h)

theorem phase_set_ne {i j : ι} {p : Prog (locked N.sig) α} {w : N.Local H} (hij : j ≠ i)
    (hw : s.holder ≠ some i → w.host = s.host) : (s.set i p w).phase j = s.phase j := by
  by_cases hj : s.holder = some j
  · have hi : s.holder ≠ some i := fun he => hij (Option.some.inj (hj.symm.trans he))
    simp only [phase, set_holder, hj, if_true, set_prog_ne _ _ _ hij, world, set_log_ne _ _ _ hij, set_host, hw hi]
  · simp only [phase, set_holder, hj, if_false, set_prog_ne _ _ _ hij, set_log_ne _ _ _ hij]

/-- A step of the pool is one of its threads. -/
theorem step_below (hA : Private exec rely A) (hobeys : ∀ i, Disciplined A (s.prog i) (decide (s.holder = some i)))
    (h : Step exec rely s s') :
    ∃ i, Below exec rely (s'.phase i) (s.phase i) ∧ ∀ j, j ≠ i → s'.phase j = s.phase j := by
  cases h with
  | @act i o k r w hi hsolo =>
    have ho := hobeys i
    rw [hi] at ho
    -- without the mutex the operation is private
    have hany : s.holder ≠ some i → w.host = s.host ∧ ∀ h,
      solo exec (rely i) o ⟨h, s.log i⟩ r ⟨h, w.log⟩ := fun hh =>
      hA i o _ r w (ho _ _ .refl (decide_eq_false hh)) hsolo
    refine ⟨i, ?_, fun j hij => phase_set_ne hij fun hh => (hany hh).1⟩
    by_cases hh : s.holder = some i
    · simp only [phase, set_holder, hh, if_true, set_prog_self, world_set_self, hi]
      exact .act hsolo
    · simp only [phase, set_holder, hh, if_false, set_prog_self, set_log_self, hi]
      exact .wait (hany hh).2
  | @acquire i k hi hfree =>
    refine ⟨i, ?_, fun j hij => ?_⟩
    · simp only [phase, hfree, hi, set, world, Function.update_self, if_true, reduceCtorEq, if_false]
      exact .enter _
    · simp only [phase, hfree, set, world, Function.update_of_ne hij, reduceCtorEq, if_false, Option.some.injEq,
        Ne.symm hij]
  | @release i k hi hheld =>
    refine ⟨i, ?_, fun j hij => ?_⟩
    · simp only [phase, hheld, hi, set, world, Function.update_self, if_true, reduceCtorEq, if_false]
      exact .leave (w := s.world i)
    · simp only [phase, hheld, set, world, Function.update_of_ne hij, reduceCtorEq, if_false, Option.some.injEq,
        Ne.symm hij]
  | @loop i σ β body x k hi =>
    refine ⟨i, ?_, fun j hij => phase_set_ne hij fun _ => rfl⟩
    by_cases hh : s.holder = some i
    · simp only [phase, set_holder, hh, if_true, set_prog_self, world_set_self, hi]
      exact .loop
    · simp only [phase, set_holder, hh, if_false, set_prog_self, set_log_self, hi]
      exact .waitLoop

/-- Every thread of a pool has an end before it. -/
theorem Ordered.acc (hs : s.Ordered exec rely A host fun i => (task i).unlocked)
    (hend : ∀ i h, Ends (Effect.Step (solo exec (rely i))) Q ((task i).unlocked, ⟨h, []⟩)) (i : ι) :
    Acc (Below exec rely) (s.phase i) := by
  obtain ⟨hobeys, l, h, -, hser⟩ := hs
  have ho := hobeys i
  by_cases hh : s.holder = some i
  · rw [decide_eq_true hh] at ho
    simp only [phase, hh, if_true]
    exact acc_inside ho ((hend i h).reach (hser.held i hh).2)
  · rw [decide_eq_false hh] at ho
    simp only [phase, hh, if_false]
    by_cases hl : ∃ x ∈ l, x.1 = i
    · obtain ⟨x, hx, rfl⟩ := hl
      rw [(hser.done x hx).1]
      exact acc_returned _ _ _
    · exact acc_waiting host ho fun h' => (hend i h').reach (hser.waiting i hh (fun x hx he => hl ⟨x, hx, he⟩) h')

/-- **All threads end.**  Every interleaving of finitely many disciplined threads, each of which ends when it runs
alone, is finite; where it stops the mutex is free and all threads have returned. -/
theorem ends [Fintype ι] (hA : Private exec rely A) (ht : ∀ i, Disciplined A (task i) false)
    (hable : ∀ i o w, ∃ r w', solo exec (rely i) o w r w')
    (hend : ∀ i h, Ends (Effect.Step (solo exec (rely i))) Q ((task i).unlocked, ⟨h, []⟩)) :
    Ends (Step exec rely) (fun s => s.holder = none ∧ ∀ i, ∃ a, s.prog i = .pure a) (start host task) := by
  have key : ∀ m s, s.phases = m → Runs exec rely (start host task) s →
      Ends (Step exec rely) (fun s => s.holder = none ∧ ∀ i, ∃ a, s.prog i = .pure a) s := by
    intro m
    induction m using (wellFounded_nearer exec rely).cutExpand.induction with
    | _ m ih =>
      rintro s rfl hr
      have hord := ordered_runs hA ht hr
      refine .intro (fun hstuck => ?_) fun s' hs => ?_
      · have hall : ∀ i, ∃ a, s.prog i = .pure a := fun i => by
          by_contra hn
          obtain ⟨s', hs'⟩ := progress hA ht hable hr (i := i) fun a ha => hn ⟨a, ha⟩
          exact hstuck s' hs'
        refine ⟨?_, hall⟩
        by_contra hh
        obtain ⟨i, hi⟩ := Option.ne_none_iff_exists'.mp hh
        obtain ⟨a, ha⟩ := hall i
        have ho := hord.obeys i
        rw [ha, hi] at ho
        exact absurd (ho _ _ .refl) (by simp [Meets])
      · obtain ⟨i, hbelow, hother⟩ := step_below hA hord.obeys hs
        exact ih _ (cutExpand_phases ⟨hbelow, hord.acc hend i⟩ hother) s' rfl (hr.tail hs)
  exact key _ _ rfl .refl

end Pool

end Effect
