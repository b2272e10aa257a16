import SyncWire.Lib.Duplex
import SyncWire.Lib.Extend

/-!
# Threads that share a host and a mutex

The threads of one process: each has its own program and its own connection (and so its
own log), the host is common to all.  A program may acquire and release one mutex
besides its other operations (`locked`).  In a `Pool` any thread may take the next
step.

A thread is `Disciplined` if what it does before it acquires the mutex is private (of a
kind `A` that neither changes nor looks at the host), and it returns when it has released
it.  For such threads:

* `ordered_runs`: the threads that have released the mutex ran one after the other, each from
  its first step to its last, and got the results and logs they have; whoever holds it runs
  alone from the host they left.
* `Pool.invariant`: what the steps of single threads keep, the pool keeps.
* `Pool.progress`: some thread can take a step as long as one has not returned.
-/

namespace Effect

inductive MutexOp
  | acquire
  | release

@[reducible] def mutex : Sig := ⟨MutexOp, fun _ => Unit⟩

/-- The operations of `S`, and those of a mutex. -/
abbrev locked (S : Sig) : Sig := extend S mutex

section
variable {S : Sig} {α β : Type}

namespace Prog

/-- `std::scoped_lock` around a program. -/
def withLock (p : Prog (locked S) α) : Prog (locked S) α :=
  .op (S := locked S) (.also .acquire) fun _ => p.bind fun a =>
    .op (S := locked S) (.also .release) fun _ => .pure a

/-- The program without the mutex. -/
def unlocked {α : Type} : Prog (locked S) α → Prog S α
  | .pure a => .pure a
  | .op (.act o) k => .op o fun r => (k r).unlocked
  | .op (.also .acquire) k => (k ()).unlocked
  | .op (.also .release) k => (k ()).unlocked
  | .loop body s k => .loop (fun s => (body s).unlocked) s fun b => (k b).unlocked

theorem unlocked_lift (p : Prog S α) : p.lift.unlocked = p := by
  induction p with
  | pure a => rfl
  | op o k ih => simp only [lift, unlocked, ih]
  | loop body s k ihb ih => simp only [lift, unlocked, ihb, ih]

theorem unlocked_bind (p : Prog (locked S) α) (f : α → Prog (locked S) β) :
    (p.bind f).unlocked = p.unlocked.bind fun a => (f a).unlocked := by
  induction p with
  | pure a => rfl
  | op o k ih => rcases o with o | ⟨_ | _⟩ <;> simp only [bind, unlocked, ih]
  | loop body s k _ ih => simp only [bind, unlocked, ih]

theorem unlocked_unroll {σ : Type} (body : σ → Prog (locked S) (σ ⊕ β)) (x : σ) (k : β → Prog (locked S) α) :
    (unroll body x k).unlocked = unroll (fun x => (body x).unlocked) x fun b => (k b).unlocked := by
  simp only [unroll, unlocked_bind]
  congr 1
  funext y
  cases y <;> rfl

theorem unlocked_withLock (p : Prog (locked S) α) : p.withLock.unlocked = p.unlocked := by
  simp only [withLock, unlocked, unlocked_bind, bind_pure]

end Prog

end

/-! ## The pool -/

/-- Threads with their programs and logs, the host they share, and who holds the mutex. -/
structure Pool (ι : Type) (N : NetSig) (H α : Type) where
  host : H
  holder : Option ι
  prog : ι → Prog (locked N.sig) α
  log : ι → List N.Event

namespace Pool

variable {ι : Type} [DecidableEq ι] {N : NetSig} {H α : Type}

/-- Thread `i` goes on with the program `p` and the world `w`. -/
def set (s : Pool ι N H α) (i : ι) (p : Prog (locked N.sig) α) (w : N.Local H) : Pool ι N H α :=
  { s with host := w.host, prog := Function.update s.prog i p, log := Function.update s.log i w.log }

/-- The world as thread `i` sees it. -/
def world (s : Pool ι N H α) (i : ι) : N.Local H := ⟨s.host, s.log i⟩

/-- One step of one thread. -/
inductive Step (exec : N.Exec H) (rely : ι → N.Rely) : Pool ι N H α → Pool ι N H α → Prop
  | act {s : Pool ι N H α} (i : ι) {o : N.sig.Op} {k : N.Res o → Prog (locked N.sig) α} {r : N.Res o}
      {w : N.Local H} (hi : s.prog i = .op (S := locked N.sig) (.act o) k)
      (h : solo exec (rely i) o (s.world i) r w) :
      Step exec rely s (s.set i (k r) w)
  | acquire {s : Pool ι N H α} (i : ι) {k : Unit → Prog (locked N.sig) α}
      (hi : s.prog i = .op (S := locked N.sig) (.also .acquire) k) (h : s.holder = none) :
      Step exec rely s { s.set i (k ()) (s.world i) with holder := some i }
  | release {s : Pool ι N H α} (i : ι) {k : Unit → Prog (locked N.sig) α}
      (hi : s.prog i = .op (S := locked N.sig) (.also .release) k) (h : s.holder = some i) :
      Step exec rely s { s.set i (k ()) (s.world i) with holder := none }
  | loop {s : Pool ι N H α} (i : ι) {σ β : Type} {body : σ → Prog (locked N.sig) (σ ⊕ β)} {x : σ}
      {k : β → Prog (locked N.sig) α} (hi : s.prog i = .loop body x k) :
      Step exec rely s (s.set i (.unroll body x k) (s.world i))

abbrev Runs (exec : N.Exec H) (rely : ι → N.Rely) : Pool ι N H α → Pool ι N H α → Prop :=
  Relation.ReflTransGen (Step exec rely)

section
variable (s : Pool ι N H α) (i : ι) (p : Prog (locked N.sig) α) (w : N.Local H)

@[simp] theorem set_host : (s.set i p w).host = w.host := rfl
@[simp] theorem set_holder : (s.set i p w).holder = s.holder := rfl
@[simp] theorem set_prog_self : (s.set i p w).prog i = p := Function.update_self ..
@[simp] theorem set_log_self : (s.set i p w).log i = w.log := Function.update_self ..
@[simp] theorem world_set_self : (s.set i p w).world i = w := by simp [world]

variable {i} {j : ι}

theorem set_prog_ne (h : j ≠ i) : (s.set i p w).prog j = s.prog j := Function.update_of_ne h ..
theorem set_log_ne (h : j ≠ i) : (s.set i p w).log j = s.log j := Function.update_of_ne h ..

end

/-- Before any thread has done anything. -/
def start (host : H) (task : ι → Prog (locked N.sig) α) : Pool ι N H α := ⟨host, none, task, fun _ => []⟩

end Pool

/-! ## Discipline -/

section
variable {S : Sig} {α β : Type}

/-- A thread in any surroundings: all that is known is whether it holds the mutex. -/
def anywhere (S : Sig) : Sem (locked S) Bool
  | .act _, held, _, held' => held' = held
  | .also .acquire, _, _, held' => held' = true
  | .also .release, _, _, held' => held' = false

/-- Outside of the mutex operations of the kind `A` only; the release is the last thing. -/
def Obeys (A : S.Op → Prop) : Watch (locked S) Bool α
  | .act o, _, held => held = false → A o
  | .also .acquire, _, held => held = false
  | .also .release, k, held => held = true ∧ ∃ a, k () = .pure a

/-- The program obeys from here on, and returns without the mutex. -/
def Disciplined (A : S.Op → Prop) (p : Prog (locked S) α) (held : Bool) : Prop :=
  Along (anywhere S) (Obeys A) p held fun _ held' => held' = false

variable {A : S.Op → Prop}

theorem disciplined_pure (a : α) : Disciplined A (Pure.pure a : Prog (locked S) α) false := along_pure rfl

/-- First something private. -/
theorem disciplined_lift {p : Prog S α} {f : α → Prog (locked S) β} (hp : Uses A p)
    (hf : ∀ a, Disciplined A (f a) false) : Disciplined A (p.lift >>= f) false := by
  refine along_bind (along_lift ?_)
  have hkeep : Along (S := S) (fun o => anywhere S (.act o)) (fun o _ held => A o ∧ held = false) p false
      fun _ held => True ∧ held = false :=
    Gives.keeps (I := fun held => held = false) hp (fun _ _ _ _ _ hv hs => hs.trans hv) rfl
  refine hkeep.mono (fun o k held h _ => h.1) fun a held h => ?_
  obtain rfl := h.2
  exact hf a

/-- At last something under the mutex. -/
theorem disciplined_withLock (p : Prog S α) (f : α → β) :
    Disciplined A (p.lift.withLock >>= fun a => Pure.pure (f a)) false := by
  refine along_bind (along_op rfl fun _ held hs => ?_)
  obtain rfl : held = true := hs
  refine along_bind (along_lift ?_)
  have hkeep : Along (S := S) (fun o => anywhere S (.act o)) (fun o _ held => True ∧ held = true) p true
      fun _ held => True ∧ held = true :=
    Gives.keeps (I := fun held => held = true) (A := fun _ => True)
      (fun q w hr => by cases q <;> trivial) (fun _ _ _ _ _ hv hs => hs.trans hv) rfl
  refine hkeep.mono (fun o k held h hn => ?_) fun a held h => ?_
  · rw [h.2] at hn
    cases hn
  · obtain rfl := h.2
    refine along_op ⟨rfl, f a, rfl⟩ fun _ held hs => ?_
    obtain rfl : held = false := hs
    exact along_pure (disciplined_pure (f a))

theorem Disciplined.step {p : Prog (locked S) α} {held : Bool} {c : Prog (locked S) α × Bool}
    (h : Disciplined A p held) (hs : Step (anywhere S) (p, held) c) : Disciplined A c.1 c.2 :=
  fun p' w' hr => h p' w' (.head hs hr)

theorem Disciplined.act {o : S.Op} {k : S.Res o → Prog (locked S) α} {held : Bool}
    (h : Disciplined A (.op (S := locked S) (.act o) k) held) (r : S.Res o) : Disciplined A (k r) held :=
  h.step (c := (k r, held)) (.op (S := locked S) (o := .act o) rfl)

theorem Disciplined.acquire {k : Unit → Prog (locked S) α} {held : Bool}
    (h : Disciplined A (.op (S := locked S) (.also .acquire) k) held) : Disciplined A (k ()) true :=
  h.step (c := (k (), true)) (.op (S := locked S) (o := .also .acquire) rfl)

theorem Disciplined.release {k : Unit → Prog (locked S) α} {held : Bool}
    (h : Disciplined A (.op (S := locked S) (.also .release) k) held) : ∃ a, k () = .pure a := (h _ _ .refl).2

end

/-! ## One thread after the other -/

namespace Pool

variable {ι : Type} [DecidableEq ι] {N : NetSig} {H α : Type} {exec : N.Exec H} {rely : ι → N.Rely}
  {A : N.sig.Op → Prop} {host : H} {task : ι → Prog (locked N.sig) α} {s s' : Pool ι N H α}

/-- Operations of the kind `A` are private: they can be answered like that on any host, and leave it alone. -/
def Private (exec : N.Exec H) (rely : ι → N.Rely) (A : N.sig.Op → Prop) : Prop :=
  ∀ i o w r w', A o → solo exec (rely i) o w r w' →
    w'.host = w.host ∧ ∀ h, solo exec (rely i) o ⟨h, w.log⟩ r ⟨h, w'.log⟩

/-- Thread `i` alone, from the host `h` to the world `w` and the rest `p` of its program. -/
def Alone (exec : N.Exec H) (rely : ι → N.Rely) (body : ι → Prog N.sig α) (i : ι) (h : H) (p : Prog N.sig α)
    (w : N.Local H) : Prop := Reach (solo exec (rely i)) (body i, ⟨h, []⟩) (p, w)

/-- The threads `l` one after the other, each from its first step to its result: they take `host` to `h`. -/
inductive Serial (exec : N.Exec H) (rely : ι → N.Rely) (body : ι → Prog N.sig α) (host : H) :
    List (ι × α × List N.Event) → H → Prop
  | nil : Serial exec rely body host [] host
  | snoc {l : List (ι × α × List N.Event)} {h : H} {i : ι} {a : α} {w : N.Local H}
      (hl : Serial exec rely body host l h) (hi : ∀ x ∈ l, x.1 ≠ i) (hr : Alone exec rely body i h (.pure a) w) :
      Serial exec rely body host (l ++ [(i, a, w.log)]) w.host

/-- After the threads `l` left the host `h`: they have returned, whoever holds the mutex runs alone from `h`, and
the others have done only what they might have done on any host. -/
structure Serialised (exec : N.Exec H) (rely : ι → N.Rely) (body : ι → Prog N.sig α)
    (l : List (ι × α × List N.Event)) (h : H) (s : Pool ι N H α) : Prop where
  done : ∀ x ∈ l, s.prog x.1 = .pure x.2.1 ∧ s.log x.1 = x.2.2
  free : s.holder = none → s.host = h
  held : ∀ i, s.holder = some i → (∀ x ∈ l, x.1 ≠ i) ∧ Alone exec rely body i h (s.prog i).unlocked (s.world i)
  waiting : ∀ i, s.holder ≠ some i → (∀ x ∈ l, x.1 ≠ i) →
    ∀ h, Alone exec rely body i h (s.prog i).unlocked ⟨h, s.log i⟩

variable {l : List (ι × α × List N.Event)} {h : H} {body : ι → Prog N.sig α}

/-- Thread `i`, which is not through, takes a step of its own. -/
theorem Serialised.move {i : ι} {p : Prog (locked N.sig) α} {w : N.Local H}
    (hs : Serialised exec rely body l h s) (hrun : ∀ a, s.prog i ≠ .pure a)
    (hin : s.holder = some i → Effect.Step (solo exec (rely i)) ((s.prog i).unlocked, s.world i) (p.unlocked, w))
    (hout : s.holder ≠ some i → w.host = s.host ∧
      ∀ h, Effect.Step (solo exec (rely i)) ((s.prog i).unlocked, ⟨h, s.log i⟩) (p.unlocked, ⟨h, w.log⟩)) :
    Serialised exec rely body l h (s.set i p w) := by
  have hne : ∀ x ∈ l, x.1 ≠ i := fun x hx he => hrun x.2.1 (he ▸ (hs.done x hx).1)
  refine ⟨fun x hx => ?_, fun hfree => ?_, fun j hj => ?_, fun j hj hl h' => ?_⟩
  · rw [set_prog_ne _ _ _ (hne x hx), set_log_ne _ _ _ (hne x hx)]
    exact hs.done x hx
  · have hi : s.holder ≠ some i := by
      rw [show s.holder = none from hfree]
      exact (Option.some_ne_none i).symm
    exact (hout hi).1.trans (hs.free hfree)
  · obtain ⟨hl, hr⟩ := hs.held j hj
    refine ⟨hl, ?_⟩
    by_cases hij : j = i
    · subst hij
      rw [set_prog_self, world_set_self]
      exact hr.tail (hin hj)
    · have hw : (s.set i p w).world j = s.world j := by
        rw [world, set_log_ne _ _ _ hij, set_host,
          (hout fun he => hij (Option.some.inj (hj.symm.trans he))).1]
        rfl
      rwa [set_prog_ne _ _ _ hij, hw]
  · by_cases hij : j = i
    · subst hij
      rw [set_prog_self, set_log_self]
      exact (hs.waiting j hj hl h').tail ((hout hj).2 h')
    · rw [set_prog_ne _ _ _ hij, set_log_ne _ _ _ hij]
      exact hs.waiting j hj hl h'

/-- What every step of the pool keeps. -/
structure Ordered (exec : N.Exec H) (rely : ι → N.Rely) (A : N.sig.Op → Prop) (host : H)
    (body : ι → Prog N.sig α) (s : Pool ι N H α) : Prop where
  obeys : ∀ i, Disciplined A (s.prog i) (decide (s.holder = some i))
  serial : ∃ l h, Serial exec rely body host l h ∧ Serialised exec rely body l h s

theorem Ordered.act {i : ι} {o : N.sig.Op} {k : N.Res o → Prog (locked N.sig) α} {r : N.Res o} {w : N.Local H}
    (hA : Private exec rely A) (hs : s.Ordered exec rely A host body)
    (hi : s.prog i = .op (S := locked N.sig) (.act o) k) (hsolo : solo exec (rely i) o (s.world i) r w) :
    (s.set i (k r) w).Ordered exec rely A host body := by
  have hobeys := hs.obeys i
  rw [hi] at hobeys
  refine ⟨fun j => ?_, ?_⟩
  · by_cases hij : j = i
    · subst hij
      rw [set_prog_self]
      exact hobeys.act r
    · rw [set_prog_ne _ _ _ hij]
      exact hs.obeys j
  · obtain ⟨l, h, hl, hser⟩ := hs.serial
    refine ⟨l, h, hl, hser.move (fun a ha => ?_) (fun _ => ?_) fun hn => ?_⟩
    · rw [hi] at ha
      cases ha
    · rw [hi]
      exact .op hsolo
    · -- without the mutex the operation is private
      obtain ⟨hhost, hany⟩ := hA i o _ r w (hobeys _ _ .refl (decide_eq_false hn)) hsolo
      refine ⟨hhost, fun h' => ?_⟩
      rw [hi]
      exact .op (hany h')

theorem Ordered.loop {i : ι} {σ β : Type} {turn : σ → Prog (locked N.sig) (σ ⊕ β)} {x : σ}
    {k : β → Prog (locked N.sig) α} (hs : s.Ordered exec rely A host body) (hi : s.prog i = .loop turn x k) :
    (s.set i (.unroll turn x k) (s.world i)).Ordered exec rely A host body := by
  have hobeys := hs.obeys i
  rw [hi] at hobeys
  refine ⟨fun j => ?_, ?_⟩
  · by_cases hij : j = i
    · subst hij
      rw [set_prog_self]
      exact hobeys.step .loop
    · rw [set_prog_ne _ _ _ hij]
      exact hs.obeys j
  · obtain ⟨l, h, hl, hser⟩ := hs.serial
    have hstep : ∀ w : N.Local H, Effect.Step (solo exec (rely i)) ((s.prog i).unlocked, w)
        ((Prog.unroll turn x k).unlocked, w) := fun w => by
      rw [hi, Prog.unlocked_unroll]
      exact .loop
    refine ⟨l, h, hl, hser.move (fun a ha => ?_) (fun _ => hstep _) fun _ => ⟨rfl, fun h' => hstep _⟩⟩
    rw [hi] at ha
    cases ha

theorem Ordered.acquire {i : ι} {k : Unit → Prog (locked N.sig) α} (hs : s.Ordered exec rely A host body)
    (hi : s.prog i = .op (S := locked N.sig) (.also .acquire) k) (hfree : s.holder = none) :
    ({ s.set i (k ()) (s.world i) with holder := some i } : Pool ι N H α).Ordered exec rely A host body := by
  have hobeys := hs.obeys i
  rw [hi] at hobeys
  refine ⟨fun j => ?_, ?_⟩
  · by_cases hij : j = i
    · subst hij
      simpa [set] using hobeys.acquire
    · have hj := hs.obeys j
      rw [hfree] at hj
      simpa [set, Function.update_of_ne hij, Ne.symm hij] using hj
  · obtain ⟨l, h, hl, hser⟩ := hs.serial
    have hne : ∀ x ∈ l, x.1 ≠ i := fun x hx he => by
      have := (hser.done x hx).1
      rw [he, hi] at this
      cases this
    refine ⟨l, h, hl, fun x hx => ?_, fun hn => (by cases hn), fun j hj => ?_, fun j hj hjl h' => ?_⟩
    · simpa [set, Function.update_of_ne (hne x hx)] using hser.done x hx
    · obtain rfl : i = j := Option.some.inj hj
      refine ⟨hne, ?_⟩
      -- what it did so far it could have done on the host it finds now
      have hw := hser.waiting i (by rw [hfree]; exact (Option.some_ne_none i).symm) hne h
      rw [Alone, hi, Prog.unlocked] at hw
      simpa [Alone, set, world, hser.free hfree] using hw
    · have hij : j ≠ i := fun he => hj (he ▸ rfl)
      have hw := hser.waiting j (by rw [hfree]; exact (Option.some_ne_none j).symm) hjl h'
      simpa [set, Function.update_of_ne hij] using hw

theorem Ordered.release {i : ι} {k : Unit → Prog (locked N.sig) α} (hs : s.Ordered exec rely A host body)
    (hi : s.prog i = .op (S := locked N.sig) (.also .release) k) (hheld : s.holder = some i) :
    ({ s.set i (k ()) (s.world i) with holder := none } : Pool ι N H α).Ordered exec rely A host body := by
  have hobeys := hs.obeys i
  rw [hi] at hobeys
  obtain ⟨a, ha⟩ := hobeys.release
  refine ⟨fun j => ?_, ?_⟩
  · by_cases hij : j = i
    · subst hij
      simp only [set, ha, Function.update_self]
      exact disciplined_pure a
    · have hj := hs.obeys j
      rw [hheld] at hj
      simpa [set, Function.update_of_ne hij, Ne.symm hij] using hj
  · obtain ⟨l, h, hl, hser⟩ := hs.serial
    obtain ⟨hne, hr⟩ := hser.held i hheld
    have hr' : Alone exec rely body i h (.pure a) (s.world i) := by
      rwa [hi, Prog.unlocked, ha, Prog.unlocked] at hr
    refine ⟨_, _, hl.snoc hne hr', fun x hx => ?_, fun _ => rfl, fun j hj => (by cases hj), fun j _ hjl h' => ?_⟩
    · rcases List.mem_append.mp hx with hx | hx
      · simpa [set, Function.update_of_ne (hne x hx)] using hser.done x hx
      · obtain rfl := List.mem_singleton.mp hx
        simp [set, ha]
    · have hij : j ≠ i := fun he => hjl _ (List.mem_append_right _ (List.mem_singleton_self _)) he.symm
      have hw := hser.waiting j (by rw [hheld]; exact fun he => hij (Option.some.inj he).symm)
        (fun x hx => hjl x (List.mem_append_left _ hx)) h'
      simpa [set, Function.update_of_ne hij] using hw

theorem Ordered.step (hA : Private exec rely A) (hs : s.Ordered exec rely A host body) (h : Step exec rely s s') :
    s'.Ordered exec rely A host body := by
  cases h with
  | act i hi hsolo => exact hs.act hA hi hsolo
  | acquire i hi hfree => exact hs.acquire hi hfree
  | release i hi hheld => exact hs.release hi hheld
  | loop i hi => exact hs.loop hi

theorem ordered_start (ht : ∀ i, Disciplined A (task i) false) :
    (start host task).Ordered exec rely A host fun i => (task i).unlocked :=
  ⟨ht, [], host, .nil, fun x hx => (by cases hx), fun _ => rfl, fun i hi => (by cases hi), fun _ _ _ _ => .refl⟩

/-- **Serialisation.**  In every interleaving. -/
theorem ordered_runs (hA : Private exec rely A) (ht : ∀ i, Disciplined A (task i) false)
    (hr : Runs exec rely (start host task) s) : s.Ordered exec rely A host fun i => (task i).unlocked := by
  induction hr with
  | refl => exact ordered_start ht
  | tail _ hs ih => exact ih.step hA hs

omit [DecidableEq ι] in
theorem Serial.alone (hl : Serial exec rely body host l h) {x : ι × α × List N.Event} (hx : x ∈ l) :
    ∃ h p w, Alone exec rely body x.1 h p w ∧ w.log = x.2.2 := by
  induction hl with
  | nil => cases hx
  | @snoc l h i a w _ _ hr ih =>
    rcases List.mem_append.mp hx with hx | hx
    · exact ih hx
    · obtain rfl := List.mem_singleton.mp hx
      exact ⟨h, .pure a, w, hr, rfl⟩

/-- In every interleaving each thread does what it can do alone, on some host. -/
theorem Ordered.alone (hs : s.Ordered exec rely A host body) (i : ι) :
    ∃ h p w, Alone exec rely body i h p w ∧ w.log = s.log i := by
  obtain ⟨l, h, hl, hser⟩ := hs.serial
  by_cases hi : ∃ x ∈ l, x.1 = i
  · obtain ⟨x, hx, rfl⟩ := hi
    rw [(hser.done x hx).2]
    exact hl.alone hx
  · have hi' : ∀ x ∈ l, x.1 ≠ i := fun x hx he => hi ⟨x, hx, he⟩
    by_cases hh : s.holder = some i
    · exact ⟨h, _, _, (hser.held i hh).2, rfl⟩
    · exact ⟨h, _, _, hser.waiting i hh hi' h, rfl⟩

omit [DecidableEq ι] in
/-- What every thread alone keeps, the threads one after the other keep. -/
theorem Serial.keeps {J : H → Prop} {G : ι → N.Local H → N.Local H → Prop}
    (hsafe : ∀ i h, J h → Safe (solo exec (rely i)) (G i) (body i) ⟨h, []⟩ fun _ _ => True)
    (hJ : ∀ i w w', J w.host → G i w w' → J w'.host) (hj : J host)
    (hl : Serial exec rely body host l h) : J h := by
  induction hl with
  | nil => exact hj
  | snoc _ _ hr ih => exact (hsafe _ _ ih).reach (fun w => J w.host) ih (fun _ _ => hJ _ _ _) hr

/-- **Invariants.**  The steps of each thread alone keep `G` from hosts in `J`, and `J` itself; what such steps
keep, and what a longer log keeps, holds at every point of every interleaving. -/
theorem invariant {J : H → Prop} {G : ι → N.Local H → N.Local H → Prop} {I : H → (ι → List N.Event) → Prop}
    (hA : Private exec rely A) (ht : ∀ i, Disciplined A (task i) false)
    (hsafe : ∀ i h, J h → Safe (solo exec (rely i)) (G i) (task i).unlocked ⟨h, []⟩ fun _ _ => True)
    (hJ : ∀ i w w', J w.host → G i w w' → J w'.host)
    (hstep : ∀ i log w w', J w.host → w.log = log i → G i w w' → I w.host log →
      I w'.host (Function.update log i w'.log))
    (hlog : ∀ i h log e, I h log → I h (Function.update log i (log i ++ [e])))
    (hj : J host) (hi : I host fun _ => []) (hr : Runs exec rely (start host task) s) : I s.host s.log := by
  induction hr with
  | refl => exact hi
  | @tail b c hr hs ih =>
    obtain ⟨hobeys, l, h, hl, hser⟩ := ordered_runs hA ht hr
    cases hs with
    | @act i o k r w hprog hsolo =>
      have hlog' : w.log = b.log i ++ [⟨o, r⟩] := perform_log hsolo.2
      by_cases hh : b.holder = some i
      · have hrun := (hser.held i hh).2
        rw [Alone, hprog] at hrun
        have hjh := hl.keeps hsafe hJ hj
        have hsi := hsafe i h hjh
        exact hstep i b.log (b.world i) w (hsi.reach (fun w => J w.host) hjh (fun _ _ => hJ i _ _) hrun) rfl
          (hsi _ _ hrun r w hsolo) ih
      · have ho := hobeys i
        rw [hprog] at ho
        have hhost := (hA i o _ r w (ho _ _ .refl (decide_eq_false hh)) hsolo).1
        change I w.host (Function.update b.log i w.log)
        rw [hhost, hlog']
        exact hlog i _ _ _ ih
    | acquire i hprog hfree => simpa [set, world] using ih
    | release i hprog hheld => simpa [set, world] using ih
    | loop i hprog => simpa [set, world] using ih

/-- **No deadlock.**  As long as a thread has not returned, some thread can take a step. -/
theorem progress (hA : Private exec rely A) (ht : ∀ i, Disciplined A (task i) false)
    (hable : ∀ i o w, ∃ r w', solo exec (rely i) o w r w') (hr : Runs exec rely (start host task) s)
    {i : ι} (hi : ∀ a, s.prog i ≠ .pure a) : ∃ s', Step exec rely s s' := by
  have hobeys := (ordered_runs hA ht hr).obeys
  -- the holder goes on, or whoever has not returned if there is none
  obtain ⟨j, hj, hh⟩ : ∃ j, (∀ a, s.prog j ≠ .pure a) ∧ (s.holder = none ∨ s.holder = some j) := by
    cases hh : s.holder with
    | none => exact ⟨i, hi, .inl rfl⟩
    | some j =>
      refine ⟨j, fun a ha => ?_, .inr rfl⟩
      have := hobeys j
      rw [ha, hh] at this
      exact absurd (this _ _ .refl) (by simp [Meets])
  have ho := hobeys j
  cases hp : s.prog j with
  | pure a => exact absurd hp (hj a)
  | loop body x k => exact ⟨_, .loop j hp⟩
  | op o k =>
    rw [hp] at ho
    cases o with
    | act o =>
      obtain ⟨r, w', hs⟩ := hable j o (s.world j)
      exact ⟨_, .act j hp hs⟩
    | also m =>
      cases m with
      | acquire =>
        refine ⟨_, .acquire j hp (hh.resolve_right fun hh => ?_)⟩
        exact absurd (ho _ _ .refl) (by simp [Meets, Obeys, hh])
      | release =>
        refine ⟨_, .release j hp (hh.resolve_left fun hh => ?_)⟩
        exact absurd (ho _ _ .refl).1 (by simp [hh])

/-! ## Runs that are computed -/

section
variable (drive : ι → (o : N.sig.Op) → N.Local H → N.sig.Res o)

/-- Thread `i` takes its next step, with the answers of `drive`; a thread that cannot go on stays where it is. -/
def advance (exec : N.Exec H) (s : Pool ι N H α) (i : ι) : Pool ι N H α :=
  match s.prog i with
  | .pure _ => s
  | .op (.act o) k =>
    ((perform exec o (s.world i) (drive i o (s.world i))).map (s.set i (k (drive i o (s.world i))))).getD s
  | .op (.also .acquire) k => if s.holder = none then { s.set i (k ()) (s.world i) with holder := some i } else s
  | .op (.also .release) k => if s.holder = some i then { s.set i (k ()) (s.world i) with holder := none } else s
  | .loop body x k => s.set i (.unroll body x k) (s.world i)

/-- The threads take their turns in the given order. -/
def play (exec : N.Exec H) (turns : List ι) (s : Pool ι N H α) : Pool ι N H α := turns.foldl (advance drive exec) s

variable {drive}

theorem runs_advance (h : ∀ i log o r, rely i log o r) (s : Pool ι N H α) (i : ι) :
    Runs exec rely s (s.advance drive exec i) := by
  unfold advance
  split
  · exact .refl
  · next o k hp =>
    cases he : perform exec o (s.world i) (drive i o (s.world i)) with
    | none => exact .refl
    | some w => exact .single (.act i hp ⟨h i _ o _, he⟩)
  · next k hp =>
    split
    · next hfree => exact .single (.acquire i hp hfree)
    · exact .refl
  · next k hp =>
    split
    · next hheld => exact .single (.release i hp hheld)
    · exact .refl
  · next body x k hp => exact .single (.loop i hp)

theorem runs_play (h : ∀ i log o r, rely i log o r) (turns : List ι) (s : Pool ι N H α) :
    Runs exec rely s (s.play drive exec turns) := by
  induction turns generalizing s with
  | nil => exact .refl
  | cons i turns ih => exact (runs_advance h s i).trans (ih _)

end

end Pool

end Effect
