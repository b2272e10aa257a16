import SyncWire.Lib.Prog

/-!
# Programs with more operations

`extend S T` has the operations of `S` and those of `T`.  A program over `S` is one over
both (`Prog.lift`); its runs are those it had before (`reach_lift`), so what is known of
them carries over: `along_lift`, `total_lift`.

Their world may be part of a larger one.  As long as the two `Agree` on the answers, a
program that ends well in the small one does so in the large one (`Agree.total`).
-/

namespace Effect

inductive ExtOp (O E : Type)
  | act (o : O)
  | also (e : E)

@[reducible] def ExtRes (S T : Sig) : ExtOp S.Op T.Op → Type
  | .act o => S.Res o
  | .also e => T.Res e

/-- The operations of `S`, and those of `T`. -/
abbrev extend (S T : Sig) : Sig := ⟨ExtOp S.Op T.Op, ExtRes S T⟩

section
variable {S T : Sig} {W α β : Type}

namespace Prog

/-- A program that uses the operations of `S` only. -/
def lift {α : Type} : Prog S α → Prog (extend S T) α
  | .pure a => .pure a
  | .op o k => .op (S := extend S T) (.act o) fun r => (k r).lift
  | .loop body s k => .loop (fun s => (body s).lift) s fun b => (k b).lift

theorem lift_bind (p : Prog S α) (f : α → Prog S β) :
    ((p.bind f).lift : Prog (extend S T) β) = p.lift.bind fun a => (f a).lift := by
  induction p with
  | pure a => rfl
  | op o k ih => simp only [bind, lift, ih]
  | loop body s k _ ih => simp only [bind, lift, ih]

theorem lift_unroll {σ : Type} (body : σ → Prog S (σ ⊕ β)) (s : σ) (k : β → Prog S α) :
    ((unroll body s k).lift : Prog (extend S T) α) = unroll (fun s => (body s).lift) s fun b => (k b).lift := by
  simp only [unroll, lift_bind]
  congr 1
  funext x
  cases x <;> rfl

end Prog

variable {sem : Sem (extend S T) W} {p : Prog S α} {w : W} {Q : α → W → Prop}

/-- What `sem` says of the operations of `S`. -/
abbrev inner (sem : Sem (extend S T) W) : Sem S W := fun o => sem (.act o)

theorem step_lift {c : Prog (extend S T) α × W} (h : Step sem (p.lift, w) c) :
    ∃ p', c.1 = p'.lift ∧ Step (inner sem) (p, w) (p', c.2) := by
  cases p with
  | pure a => cases h
  | op o k =>
    cases h with
    | op hs => exact ⟨_, rfl, .op hs⟩
  | loop body s k =>
    cases h with
    | loop => exact ⟨_, (Prog.lift_unroll body s k).symm, .loop⟩

/-- A run of a lifted program is a run of the program. -/
theorem reach_lift {c : Prog (extend S T) α × W} (h : Reach sem (p.lift, w) c) :
    ∃ p', c.1 = p'.lift ∧ Reach (inner sem) (p, w) (p', c.2) := by
  induction h with
  | refl => exact ⟨p, rfl, .refl⟩
  | @tail b c _ hs ih =>
    obtain ⟨p', he, hr⟩ := ih
    obtain ⟨b1, b2⟩ := b
    obtain rfl : b1 = p'.lift := he
    obtain ⟨p'', he', hs'⟩ := step_lift hs
    exact ⟨p'', he', hr.tail hs'⟩

/-- What every run of a program satisfies, its lifted version satisfies. -/
theorem along_lift {V : Watch (extend S T) W α}
    (h : Along (inner sem) (fun o k w => V (.act o) (fun r => (k r).lift) w) p w Q) : Along sem V p.lift w Q := by
  intro q w' hr
  obtain ⟨p', he, hr'⟩ := reach_lift hr
  have hm := h p' w' hr'
  obtain rfl : q = p'.lift := he
  cases p' with
  | pure a => exact hm
  | op o k => exact hm
  | loop body s k => trivial

theorem total_lift (h : Total (inner sem) p w Q) : Total sem p.lift w Q := by
  -- induction on the finitely many steps `p` can take
  have key : ∀ c : Prog S α × W, Ends (Step (inner sem)) (fun c => ∃ a, c.1 = .pure a ∧ Q a c.2) c →
      Ends (Step sem) (fun c => ∃ a, c.1 = .pure a ∧ Q a c.2) (c.1.lift, c.2) := by
    intro c hc
    induction hc with
    | @intro c stop next ih =>
      obtain ⟨q, v⟩ := c
      refine .intro (fun hn => ?_) fun y hy => ?_
      · cases q with
        | pure a =>
          obtain ⟨b, hb, hq⟩ := stop fun z hz => by cases hz
          cases hb
          exact ⟨a, rfl, hq⟩
        | op o k =>
          obtain ⟨b, hb, -⟩ := stop fun z hz => by
            cases hz with
            | op hs => exact hn _ (.op (S := extend S T) (o := .act o) hs)
          cases hb
        | loop body s k => exact absurd .loop (hn _)
      · obtain ⟨y1, y2⟩ := y
        obtain ⟨p', he, hs⟩ := step_lift hy
        obtain rfl : y1 = p'.lift := he
        exact ih _ hs
  exact key (p, w) h

end

/-! ## In a larger world -/

section
variable {S : Sig} {W V α : Type} {sem : Sem S W} {sem' : Sem S V}

/-- Worlds related by `R` answer alike, and stay related. -/
structure Agree (sem : Sem S W) (sem' : Sem S V) (R : W → V → Prop) : Prop where
  fwd : ∀ o w v r w', R w v → sem o w r w' → ∃ v', sem' o v r v' ∧ R w' v'
  bwd : ∀ o w v r v', R w v → sem' o v r v' → ∃ w', sem o w r w'

theorem Agree.step {R : W → V → Prop} (h : Agree sem sem' R) {p : Prog S α} {w : W} {v : V} (hR : R w v)
    {c : Prog S α × W} (hs : Step sem (p, w) c) : ∃ v', Step sem' (p, v) (c.1, v') ∧ R c.2 v' := by
  cases hs with
  | op hs =>
    obtain ⟨v', hs', hR'⟩ := h.fwd _ _ _ _ _ hR hs
    exact ⟨v', .op hs', hR'⟩
  | loop => exact ⟨v, .loop, hR⟩

/-- What a program does in one world it does in a related one. -/
theorem Agree.total {R : W → V → Prop} (h : Agree sem sem' R) {p : Prog S α} {w : W} {v : V} {Q : α → V → Prop}
    (ht : Total sem' p v Q) (hR : R w v) : Total sem p w fun a w' => ∃ v', R w' v' ∧ Q a v' := by
  have key : ∀ d : Prog S α × V, Ends (Step sem') (fun d => ∃ a, d.1 = .pure a ∧ Q a d.2) d →
      ∀ w, R w d.2 → Total sem d.1 w fun a w' => ∃ v', R w' v' ∧ Q a v' := by
    intro d hd
    induction hd with
    | @intro d stop next ih =>
      intro w hR
      obtain ⟨q, v⟩ := d
      refine .intro (fun hn => ?_) fun c hc => ?_
      · cases q with
        | pure a =>
          obtain ⟨b, hb, hq⟩ := stop fun z hz => by cases hz
          cases hb
          exact ⟨a, rfl, v, hR, hq⟩
        | op o k =>
          obtain ⟨b, hb, -⟩ := stop fun z hz => by
            cases hz with
            | op hs =>
              obtain ⟨w', hs'⟩ := h.bwd _ _ _ _ _ hR hs
              exact hn _ (.op hs')
          cases hb
        | loop body s k => exact absurd .loop (hn _)
      · obtain ⟨v', hs, hR'⟩ := h.step hR hc
        exact ih _ hs _ hR'
  exact key (p, v) ht w hR

end

end Effect
