import Mathlib.Logic.Relation

/-!
# Programs with effects, their runs, and program logics for them

A `Prog S α` is a program that issues operations of a signature `S` and returns
an `α`.  Loops are a constructor, so a `while` that may run forever is written as
it stands.  A semantics `Sem S W` says which response an operation may get in a
world and which world it leaves; the environment chooses.

* `Along sem V p w Q`: every operation of every run of `p` from `w` satisfies `V`
  when it is issued, and a run that returns does so in `Q`.
* `Safe sem G p w Q`: the same for a guarantee `G` between the worlds before and
  after each step.
* `Total sem p w Q`: every run of `p` from `w` is finite, never stuck, and ends
  in `Q`.
* `Concludes host sem V p w Q`: `Along`, and every run on a host is finite.

Each has one rule per constructor (`along_op`, `safe_op`, `total_op`, ...).
-/

namespace Effect

/-- Operations and the type of their responses. -/
structure Sig where
  Op : Type
  Res : Op → Type

inductive Prog (S : Sig) : Type → Type 1
  | pure {α : Type} (a : α) : Prog S α
  | op {α : Type} (o : S.Op) (k : S.Res o → Prog S α) : Prog S α
  | loop {σ β α : Type} (body : σ → Prog S (σ ⊕ β)) (s : σ) (k : β → Prog S α) : Prog S α

namespace Prog

variable {S : Sig} {α β γ σ : Type}

def bind {α β : Type} : Prog S α → (α → Prog S β) → Prog S β
  | .pure a, f => f a
  | .op o k, f => .op o fun r => (k r).bind f
  | .loop body s k, f => .loop body s fun b => (k b).bind f

instance : Monad (Prog S) where
  pure := Prog.pure
  bind := Prog.bind

/-- One operation. -/
def call (o : S.Op) : Prog S (S.Res o) := .op o .pure

/-- `while`: `.inl` goes round again, `.inr` leaves the loop. -/
def iter (body : σ → Prog S (σ ⊕ β)) (s : σ) : Prog S β := .loop body s .pure

/-- One turn of a loop. -/
def unroll (body : σ → Prog S (σ ⊕ β)) (s : σ) (k : β → Prog S α) : Prog S α :=
  (body s).bind (Sum.elim (fun s' => .loop body s' k) k)

def result? : Prog S α → Option α
  | .pure a => some a
  | _ => none

theorem eq_pure_of_result? {p : Prog S α} {a : α} (h : p.result? = some a) : p = .pure a := by
  cases p with
  | pure b => exact congrArg Prog.pure (Option.some.inj h)
  | op o k => cases h
  | loop body s k => cases h

theorem bind_assoc (p : Prog S α) (f : α → Prog S β) (g : β → Prog S γ) :
    (p.bind f).bind g = p.bind fun a => (f a).bind g := by
  induction p with
  | pure a => rfl
  | op o k ih => simp only [bind, ih]
  | loop body s k _ ih => simp only [bind, ih]

theorem bind_pure (p : Prog S α) : p.bind .pure = p := by
  induction p with
  | pure a => rfl
  | op o k ih => simp only [bind, ih]
  | loop body s k _ ih => simp only [bind, ih]

instance : LawfulMonad (Prog S) := LawfulMonad.mk' _ bind_pure (fun _ _ => rfl) bind_assoc

theorem bind_unroll (body : σ → Prog S (σ ⊕ β)) (s : σ) (k : β → Prog S α) (f : α → Prog S γ) :
    (unroll body s k).bind f = unroll body s fun b => (k b).bind f := by
  simp only [unroll, bind_assoc]
  congr 1
  funext x
  cases x <;> rfl

end Prog

/-- `sem o w r w'`: in world `w` the operation `o` may answer `r` and leave `w'`. -/
abbrev Sem (S : Sig) (W : Type) := (o : S.Op) → W → S.Res o → W → Prop

section
variable {S : Sig} {W : Type} (sem : Sem S W) {α β σ : Type}

inductive Step : Prog S α × W → Prog S α × W → Prop
  | op {o : S.Op} {k : S.Res o → Prog S α} {w w' : W} {r : S.Res o} (h : sem o w r w') :
      Step (.op o k, w) (k r, w')
  | loop {σ β : Type} {body : σ → Prog S (σ ⊕ β)} {s : σ} {k : β → Prog S α} {w : W} :
      Step (.loop body s k, w) (.unroll body s k, w)

abbrev Reach : Prog S α × W → Prog S α × W → Prop := Relation.ReflTransGen (Step sem)

/-- What may be asked of an operation that is about to be issued, with the rest of the program. -/
abbrev Watch (S : Sig) (W α : Type) := (o : S.Op) → (S.Res o → Prog S α) → W → Prop

/-- A returned value is in `Q`, the next operation in `V`. -/
def Meets (V : Watch S W α) (Q : α → W → Prop) : Prog S α → W → Prop
  | .pure a, w => Q a w
  | .op o k, w => V o k w
  | .loop _ _ _, _ => True

/-- Every operation of every run satisfies `V` when it is issued; a run that returns does so in `Q`. -/
def Along (V : Watch S W α) (p : Prog S α) (w : W) (Q : α → W → Prop) : Prop :=
  ∀ p' w', Reach sem (p, w) (p', w') → Meets V Q p' w'

/-- What a configuration owes: a returned value is in `Q`, the next operation keeps `G`. -/
def Owes (G : W → W → Prop) (Q : α → W → Prop) : Prog S α → W → Prop
  | .pure a, w => Q a w
  | .op o _, w => ∀ r w', sem o w r w' → G w w'
  | .loop _ _ _, _ => True

/-- Every step taken from here on satisfies `G`; a run that returns does so in `Q`. -/
def Safe (G : W → W → Prop) (p : Prog S α) (w : W) (Q : α → W → Prop) : Prop :=
  ∀ p' w', Reach sem (p, w) (p', w') → Owes sem G Q p' w'

end

/-! ## Watching the operations -/

section Along
variable {S : Sig} {W W' : Type} {sem : Sem S W} {α β σ : Type} {w : W}

theorem eq_of_reach_pure {a : α} {c : Prog S α × W} (hr : Reach sem (.pure a, w) c) : c = (.pure a, w) := by
  rcases hr.cases_head with he | ⟨d, hd, -⟩
  · exact he.symm
  · cases hd

theorem along_pure {V : Watch S W α} {a : α} {Q : α → W → Prop} (h : Q a w) :
    Along sem V (Pure.pure a) w Q := by
  intro p' w' hr
  rcases hr.cases_head with he | ⟨c, hc, -⟩
  · cases he
    exact h
  · cases hc

theorem along_op {V : Watch S W α} {o : S.Op} {k : S.Res o → Prog S α} {Q : α → W → Prop} (hv : V o k w)
    (h : ∀ r w', sem o w r w' → Along sem V (k r) w' Q) : Along sem V (.op o k) w Q := by
  intro p' w' hr
  rcases hr.cases_head with he | ⟨c, hc, hr'⟩
  · cases he
    exact hv
  · cases hc with
    | op hs => exact h _ _ hs p' w' hr'

theorem Along.mono {V V' : Watch S W α} {p : Prog S α} {Q Q' : α → W → Prop} (h : Along sem V p w Q)
    (hv : ∀ o k w', V o k w' → V' o k w') (hq : ∀ a w', Q a w' → Q' a w') : Along sem V' p w Q' := by
  intro p' w' hr
  have hm := h p' w' hr
  cases p' with
  | pure a => exact hq a w' hm
  | op o k => exact hv o k w' hm
  | loop body s k => trivial

theorem Along.and {V V' : Watch S W α} {p : Prog S α} {Q Q' : α → W → Prop} (h : Along sem V p w Q)
    (h' : Along sem V' p w Q') :
    Along sem (fun o k w => V o k w ∧ V' o k w) p w fun a w => Q a w ∧ Q' a w := by
  intro p' w' hr
  have hm := h p' w' hr
  have hm' := h' p' w' hr
  cases p' with
  | pure a => exact ⟨hm, hm'⟩
  | op o k => exact ⟨hm, hm'⟩
  | loop body s k => trivial

/-- A run of `p.bind f` is still inside `p`, or `p` returned and the rest is a run of `f`. -/
theorem reach_bind {p : Prog S α} {f : α → Prog S β} {c : Prog S β × W}
    (h : Reach sem (p.bind f, w) c) :
    (∃ p', Reach sem (p, w) (p', c.2) ∧ c.1 = p'.bind f) ∨
      ∃ a w', Reach sem (p, w) (.pure a, w') ∧ Reach sem (f a, w') c := by
  induction h with
  | refl => exact .inl ⟨p, .refl, rfl⟩
  | @tail b c hb hs ih =>
    rcases ih with ⟨p', hr, he⟩ | ⟨a, w', hr, hr'⟩
    · obtain ⟨b1, b2⟩ := b
      obtain rfl : b1 = p'.bind f := he
      cases p' with
      | pure a => exact .inr ⟨a, b2, hr, .single hs⟩
      | op o k =>
        cases hs with
        | op hs => exact .inl ⟨_, hr.tail (.op hs), rfl⟩
      | loop body s k =>
        cases hs with
        | loop => exact .inl ⟨_, hr.tail .loop, (Prog.bind_unroll body s k f).symm⟩
    · exact .inr ⟨a, w', hr, hr'.tail hs⟩

theorem along_bind {V : Watch S W β} {p : Prog S α} {f : α → Prog S β} {Q : β → W → Prop}
    (h : Along sem (fun o k w => V o (fun r => (k r).bind f) w) p w fun a w' => Along sem V (f a) w' Q) :
    Along sem V (p >>= f) w Q := by
  intro q w' hr
  rcases reach_bind hr with ⟨p', hp, he⟩ | ⟨a, w1, hp, hf⟩
  · obtain rfl : q = p'.bind f := he
    have hq := h _ _ hp
    cases p' with
    | pure a => exact hq _ _ .refl
    | op o k => exact hq
    | loop body s k => trivial
  · exact h _ _ hp q w' hf

/-- How a loop goes on after a turn. -/
abbrev Prog.next (body : σ → Prog S (σ ⊕ β)) (k : β → Prog S α) : σ ⊕ β → Prog S α :=
  Sum.elim (fun s' => .loop body s' k) k

/-- A loop whose body, started in the invariant `J`, leaves it in `J` or exits. -/
theorem along_loop {V : Watch S W α} {body : σ → Prog S (σ ⊕ β)} {k : β → Prog S α} {Q : α → W → Prop}
    (J : σ → W → Prop)
    (h : ∀ s w, J s w → Along sem (fun o k' w => V o (fun r => (k' r).bind (Prog.next body k)) w) (body s) w
      fun x w' => x.elim (fun s' => J s' w') fun b => Along sem V (k b) w' Q)
    {s : σ} (hJ : J s w) : Along sem V (.loop body s k) w Q := by
  -- `In c`: the run stands at the head of the loop in `J`, or inside a turn
  let In : Prog S α × W → Prop := fun c =>
    (∃ s, c.1 = .loop body s k ∧ J s c.2) ∨
      ∃ p', c.1 = p'.bind (Prog.next body k) ∧
        Along sem (fun o k' w => V o (fun r => (k' r).bind (Prog.next body k)) w) p' c.2
          fun x w' => x.elim (fun s' => J s' w') fun b => Along sem V (k b) w' Q
  have key : ∀ c d, Reach sem c d → In c → Meets V Q d.1 d.2 := by
    intro c d hr
    induction hr using Relation.ReflTransGen.head_induction_on with
    | refl =>
      rintro (⟨s, he, hJ⟩ | ⟨p', he, hp⟩)
      · rw [he]; trivial
      · rw [he]
        have hq := hp _ _ .refl
        cases p' with
        | pure x =>
          cases x with
          | inl s' => trivial
          | inr b => exact hq _ _ .refl
        | op o k' => exact hq
        | loop b' s' k' => trivial
    | @head c c' hs hr ih =>
      obtain ⟨c1, c2⟩ := c
      rintro (⟨s, he, hJ⟩ | ⟨p', he, hp⟩)
      · obtain rfl : c1 = _ := he
        cases hs with
        | loop => exact ih (.inr ⟨body s, rfl, h s c2 hJ⟩)
      · obtain rfl : c1 = _ := he
        have hq := hp _ _ .refl
        cases p' with
        | pure x =>
          cases x with
          | inl s' =>
            cases hs with
            | loop => exact ih (.inr ⟨body s', rfl, h s' c2 hq⟩)
          | inr b => exact hq d.1 d.2 (.head hs hr)
        | op o k' =>
          cases hs with
          | op hs => exact ih (.inr ⟨_, rfl, fun q w'' hq' => hp q w'' (.head (.op hs) hq')⟩)
        | loop b' s' k' =>
          cases hs with
          | loop =>
            exact ih (.inr ⟨_, (Prog.bind_unroll b' s' k' _).symm,
              fun q w'' hq' => hp q w'' (.head .loop hq')⟩)
  exact fun p' w' hr => key _ (p', w') hr (.inl ⟨s, rfl, hJ⟩)

theorem along_iter {V : Watch S W β} {body : σ → Prog S (σ ⊕ β)} {Q : β → W → Prop} (J : σ → W → Prop)
    (h : ∀ s w, J s w → Along sem (fun o k w => V o (fun r => (k r).bind (Prog.next body .pure)) w) (body s) w
      fun x w' => x.elim (fun s' => J s' w') fun b => Q b w')
    {s : σ} (hJ : J s w) : Along sem V (Prog.iter body s) w Q := by
  refine along_loop J (fun s w hJ => (h s w hJ).mono (fun _ _ _ hv => hv) fun x w' hx => ?_) hJ
  cases x with
  | inl s' => exact hx
  | inr b => exact along_pure hx

/-- **Abstraction.**  What holds of the runs of a coarser semantics holds of the runs it covers. -/
theorem Along.map {sem' : Sem S W'} (φ : W → W')
    (hφ : ∀ o w r w', sem o w r w' → sem' o (φ w) r (φ w')) {V : Watch S W' α} {p : Prog S α}
    {Q : α → W' → Prop} (h : Along sem' V p (φ w) Q) :
    Along sem (fun o k w => V o k (φ w)) p w fun a w => Q a (φ w) := by
  intro p' w' hr
  have hr' : Reach sem' (p, φ w) (p', φ w') := by
    refine hr.lift (fun c => (c.1, φ c.2)) fun c d hs => ?_
    cases hs with
    | op hs => exact .op (hφ _ _ _ _ hs)
    | loop => exact .loop
  have hm := h p' (φ w') hr'
  cases p' with
  | pure a => exact hm
  | op o k => exact hm
  | loop body s k => trivial

/-- Every operation may get every answer. -/
def anything : Sem S Unit := fun _ _ _ _ => True

/-- The program issues operations of the kind `A` only. -/
def Uses (A : S.Op → Prop) (p : Prog S α) : Prop := Along anything (fun o _ _ => A o) p () fun _ _ => True

theorem uses_pure {A : S.Op → Prop} (a : α) : Uses A (Pure.pure a : Prog S α) := along_pure trivial

theorem uses_op {A : S.Op → Prop} {o : S.Op} {k : S.Res o → Prog S α} (ho : A o) (hk : ∀ r, Uses A (k r)) :
    Uses A (.op o k) := along_op ho fun r _ _ => hk r

theorem uses_bind {A : S.Op → Prop} {p : Prog S α} {f : α → Prog S β} (hp : Uses A p) (hf : ∀ a, Uses A (f a)) :
    Uses A (p >>= f) := along_bind (hp.mono (fun _ _ _ ho => ho) fun a _ _ => hf a)

theorem uses_iter {A : S.Op → Prop} {body : σ → Prog S (σ ⊕ β)} (h : ∀ s, Uses A (body s)) (s : σ) :
    Uses A (Prog.iter body s) :=
  along_iter (fun _ _ => True) (fun s _ _ => (h s).mono (fun _ _ _ ho => ho) fun x _ _ => by
    cases x <;> trivial) trivial

theorem Uses.mono {A B : S.Op → Prop} {p : Prog S α} (h : Uses A p) (hAB : ∀ o, A o → B o) : Uses B p :=
  Along.mono h (fun o _ _ => hAB o) fun _ _ hq => hq

theorem Uses.along {A : S.Op → Prop} {p : Prog S α} (h : Uses A p) (w : W) :
    Along sem (fun o _ _ => A o) p w fun _ _ => True :=
  Along.map (fun _ => ()) (fun _ _ _ _ _ => trivial) h

/-- The program issues operations of the kind `A` only, and returns values in `R` only. -/
def Gives (A : S.Op → Prop) (p : Prog S α) (R : α → Prop) : Prop :=
  Along anything (fun o _ _ => A o) p () fun a _ => R a

theorem gives_pure {A : S.Op → Prop} {R : α → Prop} {a : α} (h : R a) : Gives A (Pure.pure a : Prog S α) R :=
  along_pure h

theorem gives_op {A : S.Op → Prop} {R : α → Prop} {o : S.Op} {k : S.Res o → Prog S α} (ho : A o)
    (hk : ∀ r, Gives A (k r) R) : Gives A (.op o k) R := along_op ho fun r _ _ => hk r

theorem gives_bind {A : S.Op → Prop} {p : Prog S α} {f : α → Prog S β} {R : α → Prop} {R' : β → Prop}
    (hp : Gives A p R) (hf : ∀ a, R a → Gives A (f a) R') : Gives A (p >>= f) R' :=
  along_bind (Along.mono hp (fun _ _ _ ho => ho) fun a _ ha => hf a ha)

theorem gives_iter {A : S.Op → Prop} {body : σ → Prog S (σ ⊕ β)} {R : β → Prop}
    (h : ∀ s, Gives A (body s) fun x => ∀ b, x = .inr b → R b) (s : σ) : Gives A (Prog.iter body s) R :=
  along_iter (fun _ _ => True) (fun s _ _ => Along.mono (h s) (fun _ _ _ ho => ho) fun x _ hx => by
    cases x with
    | inl s' => trivial
    | inr b => exact hx b rfl) trivial

theorem Gives.uses {A : S.Op → Prop} {p : Prog S α} {R : α → Prop} (h : Gives A p R) : Uses A p :=
  h.mono (fun _ _ _ ho => ho) fun _ _ _ => trivial

/-- Of a larger kind. -/
theorem Gives.widen {A B : S.Op → Prop} {p : Prog S α} {R : α → Prop} (h : Gives A p R) (hAB : ∀ o, A o → B o) :
    Gives B p R :=
  h.mono (fun _ _ _ ho => hAB _ ho) fun _ _ ha => ha

/-- What operations of the kind `A` keep, the program keeps. -/
theorem Gives.keeps {A : S.Op → Prop} {p : Prog S α} {R : α → Prop} (h : Gives A p R) {I : W → Prop}
    (hI : ∀ o w r w', A o → I w → sem o w r w' → I w') (hw : I w) :
    Along sem (fun o _ w => A o ∧ I w) p w fun a w => R a ∧ I w := by
  have halong : Along sem (fun o _ _ => A o) p w fun a _ => R a :=
    Along.map (fun _ => ()) (fun _ _ _ _ _ => trivial) h
  intro p' w' hr
  have hI' : I w' := by
    have key : ∀ c, Reach sem (p, w) c → I c.2 := by
      intro c hc
      induction hc with
      | refl => exact hw
      | @tail b c hb hs ih =>
        cases hs with
        | loop => exact ih
        | op hs => exact hI _ _ _ _ (halong _ _ hb) ih hs
    exact key _ hr
  have hm := halong p' w' hr
  cases p' with
  | pure a => exact ⟨hm, hI'⟩
  | op o k => exact ⟨hm, hI'⟩
  | loop body s k => trivial

end Along

/-! ## The guarantee of every step -/

section Safe
variable {S : Sig} {W : Type} {sem : Sem S W} {α β σ : Type} {G : W → W → Prop}

/-- A guarantee is watched at the operations. -/
theorem safe_iff_along {p : Prog S α} {w : W} {Q : α → W → Prop} :
    Safe sem G p w Q ↔ Along sem (fun o _ w => ∀ r w', sem o w r w' → G w w') p w Q := by
  refine forall_congr' fun p' => forall_congr' fun w' => imp_congr_right fun _ => ?_
  cases p' <;> rfl

theorem safe_pure {a : α} {w : W} {Q : α → W → Prop} (h : Q a w) :
    Safe sem G (Pure.pure a) w Q := safe_iff_along.mpr (along_pure h)

theorem safe_op {o : S.Op} {k : S.Res o → Prog S α} {w : W} {Q : α → W → Prop}
    (h : ∀ r w', sem o w r w' → G w w' ∧ Safe sem G (k r) w' Q) : Safe sem G (.op o k) w Q :=
  safe_iff_along.mpr (along_op (fun r w' hs => (h r w' hs).1) fun r w' hs => safe_iff_along.mp (h r w' hs).2)

theorem safe_call {o : S.Op} {w : W} {Q : S.Res o → W → Prop}
    (h : ∀ r w', sem o w r w' → G w w' ∧ Q r w') : Safe sem G (Prog.call o) w Q :=
  safe_op fun r w' hs => ⟨(h r w' hs).1, safe_pure (h r w' hs).2⟩

theorem safe_mono {p : Prog S α} {w : W} {Q Q' : α → W → Prop} (h : Safe sem G p w Q)
    (hq : ∀ a w', Q a w' → Q' a w') : Safe sem G p w Q' :=
  safe_iff_along.mpr ((safe_iff_along.mp h).mono (fun _ _ _ hv => hv) hq)

/-- A weaker guarantee. -/
theorem safe_weaken {G' : W → W → Prop} {p : Prog S α} {w : W} {Q : α → W → Prop}
    (h : Safe sem G p w Q) (hg : ∀ w w', G w w' → G' w w') : Safe sem G' p w Q :=
  safe_iff_along.mpr ((safe_iff_along.mp h).mono
    (fun _ _ _ hv r w' hs => hg _ _ (hv r w' hs)) fun _ _ hq => hq)

/-- Safety, and what is known of the result otherwise. -/
theorem Safe.and_along {V : Watch S W α} {p : Prog S α} {w : W} {Q Q' : α → W → Prop} (h : Safe sem G p w Q)
    (h' : Along sem V p w Q') : Safe sem G p w fun a w' => Q a w' ∧ Q' a w' :=
  safe_iff_along.mpr (((safe_iff_along.mp h).and h').mono (fun _ _ _ hv => hv.1) fun _ _ hq => hq)

/-- Every program is safe if nothing is asked of it. -/
theorem safe_trivial (p : Prog S α) (w : W) : Safe sem (fun _ _ => True) p w fun _ _ => True := by
  intro p' w' _
  cases p' with
  | pure a => trivial
  | op o k => exact fun _ _ _ => trivial
  | loop body s k => trivial

theorem safe_bind {p : Prog S α} {f : α → Prog S β} {w : W} {Q : β → W → Prop}
    (h : Safe sem G p w fun a w' => Safe sem G (f a) w' Q) : Safe sem G (p >>= f) w Q :=
  safe_iff_along.mpr (along_bind ((safe_iff_along.mp h).mono (fun _ _ _ hv => hv)
    fun _ _ hf => safe_iff_along.mp hf))

/-- A loop is safe if its body, started in the invariant `J`, leaves it in `J` or exits safely. -/
theorem safe_loop {body : σ → Prog S (σ ⊕ β)} {k : β → Prog S α} {Q : α → W → Prop}
    (J : σ → W → Prop)
    (h : ∀ s w, J s w → Safe sem G (body s) w
      fun x w' => x.elim (fun s' => J s' w') fun b => Safe sem G (k b) w' Q)
    {s : σ} {w : W} (hJ : J s w) : Safe sem G (.loop body s k) w Q := by
  refine safe_iff_along.mpr (along_loop J (fun s w hJ => ?_) hJ)
  refine (safe_iff_along.mp (h s w hJ)).mono (fun _ _ _ hv => hv) fun x w' hx => ?_
  cases x with
  | inl s' => exact hx
  | inr b => exact safe_iff_along.mp hx

theorem safe_iter {body : σ → Prog S (σ ⊕ β)} {Q : β → W → Prop} (J : σ → W → Prop)
    (h : ∀ s w, J s w → Safe sem G (body s) w fun x w' => x.elim (fun s' => J s' w') fun b => Q b w')
    {s : σ} {w : W} (hJ : J s w) : Safe sem G (Prog.iter body s) w Q := by
  refine safe_loop J (fun s w hJ => safe_mono (h s w hJ) fun x w' hx => ?_) hJ
  cases x with
  | inl s' => exact hx
  | inr b => exact safe_pure hx

/-- What every step that keeps `G` preserves holds in every world a safe run reaches. -/
theorem Safe.reach_step {p : Prog S α} {w : W} {Q : α → W → Prop} (h : Safe sem G p w Q)
    (I : W → Prop) (hI : I w) (step : ∀ o w r w', sem o w r w' → G w w' → I w → I w') {c : Prog S α × W}
    (hr : Reach sem (p, w) c) : I c.2 := by
  induction hr with
  | refl => exact hI
  | @tail b c hb hs ih =>
    cases hs with
    | op hs => exact step _ _ _ _ hs (h _ _ hb _ _ hs) ih
    | loop => exact ih

/-- What `G` preserves holds in every world a safe run reaches. -/
theorem Safe.reach {p : Prog S α} {w : W} {Q : α → W → Prop} (h : Safe sem G p w Q)
    (I : W → Prop) (hI : I w) (step : ∀ w w', I w → G w w' → I w') {c : Prog S α × W}
    (hr : Reach sem (p, w) c) : I c.2 :=
  h.reach_step I hI (fun _ _ _ _ _ hg hi => step _ _ hi hg) hr

/-- What `G` preserves may be used in every step, and holds where a safe run returns. -/
theorem Safe.keeps {p : Prog S α} {w : W} {Q : α → W → Prop} (h : Safe sem G p w Q) (I : W → Prop)
    (hI : I w) (step : ∀ w w', I w → G w w' → I w') :
    Safe sem (fun w w' => I w ∧ G w w') p w fun a w' => Q a w' ∧ I w' := by
  intro p' w' hr
  have ho := h p' w' hr
  have hi := h.reach I hI step hr
  cases p' with
  | pure a => exact ⟨ho, hi⟩
  | op o k => exact fun r w'' hs => ⟨hi, ho r w'' hs⟩
  | loop body s k => trivial

/-- A step taken in a safe run keeps the guarantee, or enters a loop. -/
theorem Safe.step {p : Prog S α} {w : W} {Q : α → W → Prop} (h : Safe sem G p w Q)
    {c d : Prog S α × W} (hr : Reach sem (p, w) c) (hs : Step sem c d) : G c.2 d.2 ∨ d.2 = c.2 := by
  cases hs with
  | op hs => exact .inl (h _ _ hr _ _ hs)
  | loop => exact .inr rfl

theorem Safe.result {p : Prog S α} {w w' : W} {Q : α → W → Prop} (h : Safe sem G p w Q) {a : α}
    (hr : Reach sem (p, w) (.pure a, w')) : Q a w' :=
  h _ _ hr

/-- One turn of a loop that goes round again. -/
def Turn (sem : Sem S W) (body : σ → Prog S (σ ⊕ β)) (c d : σ × W) : Prop :=
  Reach sem (body c.1, c.2) (.pure (.inl d.1), d.2)

/-- What holds wherever a run comes. -/
theorem safe_of_reach {p : Prog S α} {w : W} {I : W → Prop} (h : ∀ c, Reach sem (p, w) c → I c.2) :
    Safe sem (fun _ w' => I w') p w fun a w' => Reach sem (p, w) (.pure a, w') := by
  intro p' w' hr
  cases p' with
  | pure a => exact hr
  | op o k => exact fun r w'' hs => h _ (hr.tail (.op hs))
  | loop body s k => trivial

/-- A result is one that is reached. -/
theorem safe_self (sem : Sem S W) (p : Prog S α) (w : W) :
    Safe sem (fun _ _ => True) p w fun a w' => Reach sem (p, w) (.pure a, w') := safe_of_reach fun _ _ => trivial

/-- A loop that is left comes to its last turn by turns that go round. -/
theorem safe_turns (sem : Sem S W) (body : σ → Prog S (σ ⊕ β)) (s : σ) (w : W) :
    Safe sem (fun _ _ => True) (Prog.iter body s) w fun b w' => ∃ c : σ × W,
      Relation.ReflTransGen (Turn sem body) (s, w) c ∧ Reach sem (body c.1, c.2) (.pure (.inr b), w') := by
  refine safe_iter (fun s' v => Relation.ReflTransGen (Turn sem body) (s, w) (s', v)) ?_ .refl
  refine fun s' v hturns => safe_mono (safe_self sem (body s') v) fun x v' hr => ?_
  cases x with
  | inl s'' => exact hturns.tail hr
  | inr b => exact ⟨(s', v), hturns, hr⟩

end Safe

/-! ## Total correctness -/

/-- Every run of the relation `R` from here is finite, and where it stops `Q` holds. -/
inductive Ends {X : Type*} (R : X → X → Prop) (Q : X → Prop) : X → Prop
  | intro {x : X} (stop : (∀ y, ¬ R x y) → Q x) (next : ∀ y, R x y → Ends R Q y) : Ends R Q x

theorem Ends.mono {X : Type*} {R : X → X → Prop} {Q Q' : X → Prop} {x : X} (h : Ends R Q x)
    (hq : ∀ y, Q y → Q' y) : Ends R Q' x := by
  induction h with
  | intro stop _ ih => exact .intro (fun hn => hq _ (stop hn)) ih

/-- A run that stops does so in `Q`. -/
theorem Ends.stopped {X : Type*} {R : X → X → Prop} {Q : X → Prop} {x y : X} (h : Ends R Q x)
    (hr : Relation.ReflTransGen R x y) (hn : ∀ z, ¬ R y z) : Q y := by
  induction hr using Relation.ReflTransGen.head_induction_on with
  | refl => cases h with | intro stop _ => exact stop hn
  | head hs _ ih => cases h with | intro _ next => exact ih (next _ hs)

/-- A run that ends well does so from wherever it has got to. -/
theorem Ends.reach {X : Type*} {R : X → X → Prop} {Q : X → Prop} {x y : X} (h : Ends R Q x)
    (hr : Relation.ReflTransGen R x y) : Ends R Q y := by
  induction hr with
  | refl => exact h
  | tail _ hs ih => cases ih with | intro _ next => exact next _ hs

/-- Such a run can be carried to its end. -/
theorem Ends.exists_stop {X : Type*} {R : X → X → Prop} {Q : X → Prop} {x : X} (h : Ends R Q x) :
    ∃ y, Relation.ReflTransGen R x y ∧ Q y := by
  induction h with
  | @intro x stop _ ih =>
    by_cases hn : ∃ y, R x y
    · obtain ⟨y, hy⟩ := hn
      obtain ⟨z, hz, hq⟩ := ih y hy
      exact ⟨z, .head hy hz, hq⟩
    · exact ⟨x, .refl, stop fun y hy => hn ⟨y, hy⟩⟩

section Total
variable {S : Sig} {W : Type} (sem : Sem S W) {α β σ : Type}

/-- Every run of `p` from `w` is finite and ends by returning in `Q`. -/
def Total (p : Prog S α) (w : W) (Q : α → W → Prop) : Prop :=
  Ends (Step sem) (fun c => ∃ a, c.1 = .pure a ∧ Q a c.2) (p, w)

variable {sem}

theorem total_pure {a : α} {w : W} {Q : α → W → Prop} (h : Q a w) :
    Total sem (Pure.pure a) w Q :=
  .intro (fun _ => ⟨a, rfl, h⟩) fun y hy => by cases hy

theorem total_op {o : S.Op} {k : S.Res o → Prog S α} {w : W} {Q : α → W → Prop}
    (hex : ∃ r w', sem o w r w') (h : ∀ r w', sem o w r w' → Total sem (k r) w' Q) :
    Total sem (.op o k) w Q := by
  obtain ⟨r, w', hs⟩ := hex
  refine .intro (fun hn => absurd (Step.op hs) (hn _)) fun y hy => ?_
  cases hy with
  | op hs' => exact h _ _ hs'

theorem total_call {o : S.Op} {w : W} {Q : S.Res o → W → Prop}
    (hex : ∃ r w', sem o w r w') (h : ∀ r w', sem o w r w' → Q r w') :
    Total sem (Prog.call o) w Q :=
  total_op hex fun r w' hs => total_pure (h r w' hs)

/-- What a total program returns. -/
theorem Total.result {p : Prog S α} {w w' : W} {Q : α → W → Prop} (h : Total sem p w Q) {a : α}
    (hr : Reach sem (p, w) (.pure a, w')) : Q a w' := by
  obtain ⟨b, hb, hq⟩ := Ends.stopped h hr fun z hz => by cases hz
  cases hb
  exact hq

theorem total_mono {p : Prog S α} {w : W} {Q Q' : α → W → Prop} (h : Total sem p w Q)
    (hq : ∀ a w', Q a w' → Q' a w') : Total sem p w Q' :=
  Ends.mono h fun _ ⟨a, he, ha⟩ => ⟨a, he, hq a _ ha⟩

/-- A total program returns in whatever it returns in safely. -/
theorem Total.and_safe {p : Prog S α} {w : W} {Q Q' : α → W → Prop} {G : W → W → Prop} (h : Total sem p w Q)
    (h' : Safe sem G p w Q') : Total sem p w fun a w' => Q a w' ∧ Q' a w' := by
  have key : ∀ c, Ends (Step sem) (fun c => ∃ a, c.1 = .pure a ∧ Q a c.2) c → Reach sem (p, w) c →
      Ends (Step sem) (fun c => ∃ a, c.1 = .pure a ∧ Q a c.2 ∧ Q' a c.2) c := by
    intro c hc
    induction hc with
    | @intro c stop next ih =>
      intro hr
      refine .intro (fun hn => ?_) fun y hy => ih y hy (hr.tail hy)
      obtain ⟨a, ha, hq⟩ := stop hn
      refine ⟨a, ha, hq, h'.result ?_⟩
      rw [← ha]
      exact hr
  exact key _ h .refl

theorem total_bind {p : Prog S α} {f : α → Prog S β} {w : W} {Q : β → W → Prop}
    (h : Total sem p w fun a w' => Total sem (f a) w' Q) : Total sem (p >>= f) w Q := by
  -- induction on the finitely many steps `p` can take
  have key : ∀ c : Prog S α × W,
      Ends (Step sem) (fun c => ∃ a, c.1 = .pure a ∧ Total sem (f a) c.2 Q) c →
        Total sem (c.1.bind f) c.2 Q := by
    intro c hc
    induction hc with
    | @intro c stop next ih =>
      obtain ⟨p, w⟩ := c
      cases p with
      | pure a =>
        obtain ⟨b, he, hb⟩ := stop fun y hy => by cases hy
        cases he
        exact hb
      | op o k =>
        refine .intro (fun hn => ?_) fun y hy => ?_
        · obtain ⟨b, he, -⟩ := stop fun y hy => by
            cases hy with
            | op hs => exact hn _ (Step.op hs)
          cases he
        · cases hy with
          | op hs => exact ih _ (Step.op hs)
      | loop body s k =>
        refine .intro (fun hn => absurd Step.loop (hn _)) fun y hy => ?_
        cases hy with
        | loop =>
          have := ih (.unroll body s k, w) .loop
          rwa [Prog.bind_unroll] at this
  exact key (p, w) h

/-- A loop ends if each turn, started in `J`, exits or comes back to `J` with a smaller measure. -/
theorem total_loop {body : σ → Prog S (σ ⊕ β)} {k : β → Prog S α} {Q : α → W → Prop}
    (J : σ → W → Prop) (m : σ → W → Nat)
    (h : ∀ s w, J s w → Total sem (body s) w
      fun x w' => x.elim (fun s' => J s' w' ∧ m s' w' < m s w) fun b => Total sem (k b) w' Q)
    {s : σ} {w : W} (hJ : J s w) : Total sem (.loop body s k) w Q := by
  induction hm : m s w using Nat.strongRecOn generalizing s w with
  | _ n ih =>
    refine .intro (fun hn => absurd Step.loop (hn _)) fun y hy => ?_
    cases hy with
    | loop =>
      refine total_bind (total_mono (h s w hJ) fun x w' hx => ?_)
      cases x with
      | inl s' => exact ih _ (hm ▸ hx.2) hx.1 rfl
      | inr b => exact hx

theorem total_iter {body : σ → Prog S (σ ⊕ β)} {Q : β → W → Prop}
    (J : σ → W → Prop) (m : σ → W → Nat)
    (h : ∀ s w, J s w → Total sem (body s) w
      fun x w' => x.elim (fun s' => J s' w' ∧ m s' w' < m s w) fun b => Q b w')
    {s : σ} {w : W} (hJ : J s w) : Total sem (Prog.iter body s) w Q := by
  refine total_loop J m (fun s w hJ => total_mono (h s w hJ) fun x w' hx => ?_) hJ
  cases x with
  | inl s' => exact hx
  | inr b => exact total_pure hx

end Total

/-! ## One walk for what a program does and that it ends -/

section Concludes
variable {S : Sig} {W W' ι : Type} {host : ι → Sem S W'} {sem : Sem S W} {α β σ : Type} {w : W}

/-- Every run of the program ends, on every host. -/
def Returns (host : ι → Sem S W') (p : Prog S α) : Prop := ∀ i w, Total (host i) p w fun _ _ => True

/-- Every answer is possible. -/
def Unrestricted (sem : Sem S W) : Prop := ∀ o w r, ∃ w', sem o w r w'

theorem unrestricted_anything : Unrestricted (anything : Sem S Unit) := fun _ _ _ => ⟨(), trivial⟩

/-- What happens under some semantics can happen if every answer is possible. -/
theorem Unrestricted.reach (hs : Unrestricted sem) {sem' : Sem S W'} {c d : Prog S α × W'} (hr : Reach sem' c d)
    (w : W) : ∃ w', Reach sem (c.1, w) (d.1, w') := by
  induction hr with
  | refl => exact ⟨w, .refl⟩
  | tail _ hstep ih =>
    obtain ⟨v, hv⟩ := ih
    cases hstep with
    | loop => exact ⟨v, hv.tail .loop⟩
    | @op o k u u' r _ =>
      obtain ⟨v', hv'⟩ := hs o v r
      exact ⟨v', hv.tail (.op hv')⟩

/-- Which operations a program issues does not depend on the semantics it is watched in. -/
theorem Along.uses (hs : Unrestricted sem) {V : Watch S W α} {p : Prog S α} {Q : α → W → Prop}
    (h : Along sem V p w Q) {A : S.Op → Prop} (hA : ∀ o k w', V o k w' → A o) : Uses A p := by
  intro p' u hr
  obtain ⟨w', hr'⟩ := hs.reach hr w
  have hm := h p' w' hr'
  cases p' with
  | pure a => trivial
  | op o k => exact hA o k w' hm
  | loop body s k => trivial

/-- The program keeps to `V` under `sem`, and every run of it ends. -/
structure Concludes (host : ι → Sem S W') (sem : Sem S W) (V : Watch S W α) (p : Prog S α) (w : W)
    (Q : α → W → Prop) : Prop where
  along : Along sem V p w Q
  returns : Returns host p

theorem concludes_pure {V : Watch S W α} {a : α} {Q : α → W → Prop} (h : Q a w) :
    Concludes host sem V (Pure.pure a) w Q := ⟨along_pure h, fun _ _ => total_pure trivial⟩

theorem Concludes.mono {V V' : Watch S W α} {p : Prog S α} {Q Q' : α → W → Prop} (h : Concludes host sem V p w Q)
    (hv : ∀ o k w', V o k w' → V' o k w') (hq : ∀ a w', Q a w' → Q' a w') : Concludes host sem V' p w Q' :=
  ⟨h.along.mono hv hq, h.returns⟩

/-- What the program returns on a host. -/
theorem Concludes.total (hs : Unrestricted sem) {V : Watch S W α} {p : Prog S α} {Q : α → W → Prop}
    (h : Concludes host sem V p w Q) (i : ι) (u : W') : Total (host i) p u fun a _ => ∃ w', Q a w' := by
  have hsafe : Safe (host i) (fun _ _ => True) p u fun a _ => ∃ w', Q a w' := by
    intro p' u' hr
    obtain ⟨w', hr'⟩ := hs.reach hr w
    cases p' with
    | pure a => exact ⟨w', h.along _ _ hr'⟩
    | op o k => exact fun _ _ _ => trivial
    | loop body s k => trivial
  exact total_mono ((h.returns i u).and_safe hsafe) fun _ _ hq => hq.2

theorem concludes_op (hs : Unrestricted sem) {V : Watch S W α} {o : S.Op} {k : S.Res o → Prog S α}
    {Q : α → W → Prop} (hex : ∀ i u, ∃ r u', host i o u r u') (hv : V o k w)
    (h : ∀ r w', sem o w r w' → Concludes host sem V (k r) w' Q) : Concludes host sem V (.op o k) w Q := by
  refine ⟨along_op hv fun r w' hw => (h r w' hw).along, fun i u => total_op (hex i u) fun r u' _ => ?_⟩
  obtain ⟨w', hw⟩ := hs o w r
  exact (h r w' hw).returns i u'

theorem concludes_bind (hs : Unrestricted sem) {V : Watch S W α} {V' : Watch S W β} {p : Prog S α}
    {f : α → Prog S β} {R : α → W → Prop} {Q : β → W → Prop} (hp : Concludes host sem V p w R)
    (hv : ∀ o k w', V o k w' → V' o (fun r => (k r).bind f) w')
    (hf : ∀ a w', R a w' → Concludes host sem V' (f a) w' Q) : Concludes host sem V' (p >>= f) w Q := by
  refine ⟨along_bind (hp.along.mono hv fun a w' ha => (hf a w' ha).along), fun i u => ?_⟩
  refine total_bind (total_mono (hp.total hs i u) ?_)
  rintro a u' ⟨w', ha⟩
  exact (hf a w' ha).returns i u'

/-- A loop each turn of which exits, or comes back to `J` with a smaller measure. -/
theorem concludes_iter (hs : Unrestricted sem) {V : Watch S W β} {body : σ → Prog S (σ ⊕ β)} {Q : β → W → Prop}
    (J : σ → W → Prop) (m : σ → Nat)
    (h : ∀ s w, J s w → Concludes host sem (fun o k w => V o (fun r => (k r).bind (Prog.next body .pure)) w)
      (body s) w fun x w' => x.elim (fun s' => J s' w' ∧ m s' < m s) fun b => Q b w')
    {s : σ} (hJ : J s w) : Concludes host sem V (Prog.iter body s) w Q := by
  refine ⟨along_iter J (fun s w hJ => (h s w hJ).along.mono (fun _ _ _ hv => hv) fun x w' hx => ?_) hJ,
    fun i u => total_iter (fun s _ => ∃ w, J s w) (fun s _ => m s) ?_ ⟨w, hJ⟩⟩
  · cases x with
    | inl s' => exact hx.1
    | inr b => exact hx
  · rintro s u ⟨w, hJ⟩
    refine total_mono ((h s w hJ).total hs i u) ?_
    rintro x u' ⟨w', hx⟩
    cases x with
    | inl s' => exact ⟨⟨w', hx.1⟩, hx.2⟩
    | inr b => trivial

end Concludes

/-! ## Running a program against a fixed environment -/

section Drive
variable {S : Sig} {W : Type} {α : Type}

/-- At most `n` steps against the environment that answers `drive o w`, which `exec` carries out
(`none`: the answer is not possible, the run stops). -/
def runWith (exec : (o : S.Op) → W → S.Res o → Option W) (drive : (o : S.Op) → W → S.Res o) :
    Nat → Prog S α × W → Prog S α × W
  | 0, c => c
  | _ + 1, (.pure a, w) => (.pure a, w)
  | n + 1, (.op o k, w) =>
    match exec o w (drive o w) with
    | some w' => runWith exec drive n (k (drive o w), w')
    | none => (.op o k, w)
  | n + 1, (.loop body s k, w) => runWith exec drive n (.unroll body s k, w)

theorem reach_runWith {sem : Sem S W} (exec : (o : S.Op) → W → S.Res o → Option W)
    (drive : (o : S.Op) → W → S.Res o)
    (hex : ∀ o w w', exec o w (drive o w) = some w' → sem o w (drive o w) w') :
    ∀ n (c : Prog S α × W), Reach sem c (runWith exec drive n c) := by
  intro n
  induction n with
  | zero => intro c; exact .refl
  | succ n ih =>
    rintro ⟨p, w⟩
    cases p with
    | pure a => exact .refl
    | op o k =>
      simp only [runWith]
      split
      · next w' he => exact .head (.op (hex o w w' he)) (ih _)
      · exact .refl
    | loop body s k => exact .head .loop (ih _)

/-- One step more. -/
theorem step_runWith {sem : Sem S W} (exec : (o : S.Op) → W → S.Res o → Option W)
    (drive : (o : S.Op) → W → S.Res o)
    (hex : ∀ o w w', exec o w (drive o w) = some w' → sem o w (drive o w) w') :
    ∀ n (c : Prog S α × W), runWith exec drive (n + 1) c = runWith exec drive n c ∨
      Step sem (runWith exec drive n c) (runWith exec drive (n + 1) c) := by
  intro n
  induction n with
  | zero =>
    rintro ⟨p, w⟩
    cases p with
    | pure a => exact .inl rfl
    | op o k =>
      simp only [runWith]
      split
      · next w' he => exact .inr (.op (hex o w w' he))
      · exact .inl rfl
    | loop body s k => exact .inr .loop
  | succ n ih =>
    rintro ⟨p, w⟩
    cases p with
    | pure a => exact .inl rfl
    | op o k =>
      rw [runWith, runWith]
      split
      · exact ih _
      · exact .inl rfl
    | loop body s k => exact ih _

end Drive

end Effect
