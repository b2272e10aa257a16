import SyncWire.Receive.Prepare

/-!
# Which operations the stages of `receive_file` issue

Most stages make system calls and nothing else, and only `write_all` writes.  All of
them return, whatever is answered.
-/

namespace SyncWire

open Wire Effect Posix Posix.Fs FileTransfer

/-- A system call other than `write`. -/
def Local : net.sig.Op → Prop
  | .call (.write _ _) => False
  | .call _ => True
  | _ => False

theorem local_of_read (o : net.sig.Op) (h : ReadCall o) : Local o := by
  cases o with
  | send m => exact absurd h id
  | recv => exact absurd h id
  | call c =>
    cases c with
    | write fd x => cases h
    | _ => trivial

theorem local_of_prepares {input : List UInt8} (o : net.sig.Op) (h : Prepares input o) : Local o := by
  cases o with
  | send m => exact absurd h id
  | recv => exact absurd h id
  | call c => cases c <;> trivial

theorem local_cleanup (t : Transfer) (committed : Bool) : Issues Local (cleanup t committed) := by
  refine does_sys trivial fun _ => ?_
  split
  · exact does_sys trivial fun _ => issues_pure _
  · exact issues_pure _

theorem local_syncDirectories (t : Transfer) : Issues Local (syncDirectories t) := by
  refine does_sys trivial fun r => ?_
  cases r with
  | error e => exact issues_pure _
  | ok fd =>
    refine does_sys trivial fun r => ?_
    cases r with
    | error e => exact issues_pure _
    | ok _ =>
      refine does_sys trivial fun r => ?_
      cases r <;> exact issues_pure _

theorem checkPart_issues (partFile : Fd) : Issues ReadCall (checkPart partFile) := by
  refine does_sys rfl fun r => ?_
  cases r with
  | error e => exact issues_pure _
  | ok status =>
    simp only
    split
    · exact issues_pure _
    · refine does_sys rfl fun r => ?_
      cases r with
      | error e => exact issues_pure _
      | ok euid =>
        simp only
        split
        · exact issues_pure _
        · refine does_sys rfl fun r => ?_
          cases r <;> exact issues_pure _

theorem local_trimPart (partFile : Fd) (size : Nat) (fileSize : UInt64) :
    Issues Local (trimPart partFile size fileSize) := by
  unfold trimPart
  split
  · refine does_sys trivial fun r => ?_
    cases r <;> exact issues_pure _
  · exact issues_pure _

theorem readPartialPrefix_returns (fd : Fd) (size : UInt64) : Returns onHost (readPartialPrefix fd size) := by
  intro cr w
  refine total_iter (fun _ _ => True) (fun s w => s.1.toNat + w.host.signals) ?_ trivial
  rintro ⟨remaining, checksum⟩ w _
  dsimp only
  split
  · next hne =>
    refine total_sys fun r h' he => ?_
    cases r with
    | ok data =>
      obtain ⟨hle, hsig⟩ := exec_read_ok he
      dsimp only
      split
      · exact total_pure trivial
      · next hdata =>
        refine total_pure ⟨trivial, ?_⟩
        have hlt := remaining.toNat_lt
        have hof : (UInt64.ofNat data.length).toNat = data.length := by
          rw [UInt64.toNat_ofNat']
          omega
        have hsub : (remaining - UInt64.ofNat data.length).toNat = remaining.toNat - data.length := by
          rw [UInt64.toNat_sub_of_le _ _ (by rw [UInt64.le_iff_toNat_le, hof]; omega), hof]
        dsimp only
        omega
    | error errno =>
      dsimp only
      split
      · next heintr =>
        subst heintr
        have hsig := exec_interrupted rfl he
        refine total_pure ⟨trivial, ?_⟩
        dsimp only
        omega
      · exact total_pure trivial
  · exact total_pure trivial

theorem local_readPartialPrefix (fd : Fd) (size : UInt64) : Issues Local (readPartialPrefix fd size) := by
  refine ⟨uses_iter (fun s => ?_) _, readPartialPrefix_returns fd size⟩
  simp only
  split
  · refine uses_sys trivial fun r => ?_
    cases r with
    | error e => simp only; split <;> exact uses_pure _
    | ok data => simp only; split <;> exact uses_pure _
  · exact uses_pure _

/-- A stage whose errors are failures. -/
def Fails {γ : Type} (x : Except FileTransferResult γ) : Prop := ∀ r, x = .error r → r.ok = false

theorem fails_ok {γ : Type} (a : γ) : Fails (.ok a) := fun _ h => nomatch h

theorem fails_error {γ : Type} {r : FileTransferResult} (h : r.ok = false) :
    Fails (.error r : Except FileTransferResult γ) :=
  fun _ he => Except.error.inj he ▸ h

/-- After `restart` no chunk is the first one, and only the first one goes back. -/
structure Restarted (p : Progress) (x : Except FileTransferResult Progress) : Prop where
  fails : Fails x
  goesOn : ∀ p', x = .ok p' → p'.firstChunk = false ∧ (p.firstChunk = false → p'.offset = p.offset)

theorem restarted_error {p : Progress} {r : FileTransferResult} (h : r.ok = false) : Restarted p (.error r) :=
  ⟨fails_error h, fun _ he => nomatch he⟩

theorem local_restart (t : Transfer) (p : Progress) (chunk : FileChunk) :
    Does Local (restart t p chunk) (Restarted p) := by
  unfold restart
  split
  · next hc =>
    refine does_sys trivial fun r => ?_
    cases r with
    | error e => exact does_pure (restarted_error rfl)
    | ok _ =>
      refine does_sys trivial fun r => ?_
      cases r with
      | error e => exact does_pure (restarted_error rfl)
      | ok _ =>
        refine does_pure ⟨fails_ok _, fun p' h => ?_⟩
        obtain rfl := Except.ok.inj h
        exact ⟨rfl, fun hf => absurd (hc.1.symm.trans hf) (by decide)⟩
  · refine does_pure ⟨fails_ok _, fun p' h => ?_⟩
    obtain rfl := Except.ok.inj h
    exact ⟨rfl, fun _ => rfl⟩

/-! ## Writing -/

/-- A system call. -/
def IsCall : net.sig.Op → Prop
  | .call _ => True
  | _ => False

theorem isCall_of_local (o : net.sig.Op) (h : Local o) : IsCall o := by
  cases o with
  | send m => exact absurd h id
  | recv => exact absurd h id
  | call c => trivial

theorem writeAll_returns (fd : Fd) (data : List UInt8) : Returns onHost (writeAll fd data) := by
  intro cr w
  refine total_iter (fun _ _ => True) (fun written w => data.length - written + w.host.signals) ?_ trivial
  intro written w _
  split
  · next hlt =>
    refine total_sys fun r h' he => ?_
    cases r with
    | ok result =>
      obtain ⟨hle, hsig⟩ := exec_write_ok he
      rw [List.length_drop] at hle
      dsimp only
      split
      · next hpos =>
        have hpos' : @LT.lt Nat _ 0 result := hpos
        refine total_pure ⟨trivial, ?_⟩
        dsimp only
        omega
      · exact total_pure trivial
    | error errno =>
      dsimp only
      split
      · next heintr =>
        subst heintr
        have hsig := exec_interrupted rfl he
        refine total_pure ⟨trivial, ?_⟩
        dsimp only
        omega
      · exact total_pure trivial
  · exact total_pure trivial

theorem isCall_writeAll (fd : Fd) (data : List UInt8) : Does IsCall (writeAll fd data) Fails := by
  refine ⟨gives_iter (fun written => ?_) _, writeAll_returns fd data⟩
  split
  · refine gives_sys trivial fun r => ?_
    cases r with
    | error e =>
      simp only
      split
      · exact gives_pure fun b hb => nomatch hb
      · refine gives_pure fun b hb => ?_
        cases hb
        exact fails_error rfl
    | ok n =>
      simp only
      split
      · exact gives_pure fun b hb => nomatch hb
      · refine gives_pure fun b hb => ?_
        cases hb
        exact fails_error rfl
  · refine gives_pure fun b hb => ?_
    cases hb
    exact fails_ok _

end SyncWire
