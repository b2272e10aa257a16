import SyncWire.Lib.Network
import SyncWire.ClientSession

/-!
# Who talked to whom

Any number of clients and servers authenticate with one secret, on a network that drops,
repeats, diverts and invents frames.  The MAC is ideal in the run: equal values come from equal
keys and inputs, and a value that a run checks was computed by one of the runs before the frame
that carries it came in.  Nonces do not repeat.

What a run did is read off its own part of the trace (`ServerLog`, `ClientLog`); then the
MACs lead from one run to the other.

* `authentication_agreement`: the runs agree, and a session that was not authenticated does not touch
  the destination.
-/

namespace SyncWire

open Wire Effect Posix Authentication

/-! ## MACs and nonces of a log -/

structure MacUse where
  key : List UInt8
  input : List UInt8
  value : List UInt8
deriving DecidableEq

/-- The MACs that were computed. -/
def macs (log : List net.Event) : List MacUse :=
  log.filterMap fun
    | ⟨.call (.mac key input), .ok value⟩ => some ⟨key, input, value⟩
    | _ => none

/-- The nonces that were generated. -/
def nonces (log : List net.Event) : List (List UInt8) :=
  log.filterMap fun
    | ⟨.call (.randBytes _), .ok nonce⟩ => some nonce
    | _ => none

theorem macs_append (l l' : List net.Event) : macs (l ++ l') = macs l ++ macs l' := List.filterMap_append

theorem nonces_append (l l' : List net.Event) : nonces (l ++ l') = nonces l ++ nonces l' :=
  List.filterMap_append

/-! ## What a run did -/

def clientInput (serverNonce clientNonce : List UInt8) : List UInt8 :=
  kClientProofDomain ++ serverNonce ++ clientNonce

def serverInput (serverNonce clientNonce clientProof : List UInt8) : List UInt8 :=
  kServerProofDomain ++ serverNonce ++ clientNonce ++ clientProof

/-- A server with the nonce `sn` received `cn` and the proof `p`, expected the proof `v`, and if that is `p`
went on to its own proof `q`. -/
structure ServerChecked (secret : List UInt8) (log : List net.Event) (sn cn p v : List UInt8)
    (q : Option (List UInt8)) : Prop where
  nonce : nonces log = [sn]
  sn_length : sn.length = kAuthenticationNonceSize
  cn_length : cn.length = kAuthenticationNonceSize
  received : ∃ before f after, log = before ++ ⟨.recv, .ok f⟩ :: after ∧ f.1.payload = cn ++ p ∧
    macs before = [] ∧
    macs after = ⟨secret, clientInput sn cn, v⟩ :: (q.map (MacUse.mk secret (serverInput sn cn p))).toList
  accepts : q ≠ none → v = p

/-- Nothing is computed or generated by what comes after. -/
theorem ServerChecked.concat {secret : List UInt8} {log l : List net.Event} {sn cn p v : List UInt8}
    {q : Option (List UInt8)} (h : ServerChecked secret log sn cn p v q) (hm : macs l = []) (hn : nonces l = []) :
    ServerChecked secret (log ++ l) sn cn p v q := by
  obtain ⟨before, f, after, hl, hf, hb, ha⟩ := h.received
  refine ⟨?_, h.sn_length, h.cn_length, ⟨before, f, after ++ l, ?_, hf, hb, ?_⟩, h.accepts⟩
  · rw [nonces_append, h.nonce, hn, List.append_nil]
  · rw [hl, List.append_assoc, List.cons_append]
  · rw [macs_append, ha, hm, List.append_nil]

/-- The server's own proof comes next. -/
theorem ServerChecked.accept {secret : List UInt8} {log : List net.Event} {sn cn p : List UInt8}
    (h : ServerChecked secret log sn cn p p none) (q : List UInt8) :
    ServerChecked secret (log ++ [⟨.call (.mac secret (serverInput sn cn p)), .ok q⟩]) sn cn p p (some q) := by
  obtain ⟨before, f, after, hl, hf, hb, ha⟩ := h.received
  refine ⟨?_, h.sn_length, h.cn_length,
    ⟨before, f, after ++ [⟨.call (.mac secret (serverInput sn cn p)), .ok q⟩], ?_, hf, hb, ?_⟩, fun _ => rfl⟩
  · rw [nonces_append, h.nonce]
    rfl
  · rw [hl, List.append_assoc, List.cons_append]
  · rw [macs_append, ha]
    rfl

theorem ServerChecked.macs_eq {secret : List UInt8} {log : List net.Event} {sn cn p v : List UInt8}
    {q : Option (List UInt8)} (h : ServerChecked secret log sn cn p v q) :
    macs log = ⟨secret, clientInput sn cn, v⟩ :: (q.map (MacUse.mk secret (serverInput sn cn p))).toList := by
  obtain ⟨before, f, after, hl, -, hb, ha⟩ := h.received
  rw [hl, macs_append, hb, ← ha]
  rfl

/-- What a server run has computed, at any time. -/
inductive ServerLog (secret : List UInt8) (log : List net.Event) : Prop
  | quiet (h : macs log = [])
  | checked (sn cn p v : List UInt8) (q : Option (List UInt8)) (h : ServerChecked secret log sn cn p v q)

/-- A client challenged with `sn` generated `cn`, proved with `p`, and if it was answered expected the proof
`q`. -/
structure ClientProved (secret : List UInt8) (log : List net.Event) (sn cn p : List UInt8)
    (q : Option (List UInt8)) : Prop where
  nonce : nonces log = [cn]
  sn_length : sn.length = kAuthenticationNonceSize
  cn_length : cn.length = kAuthenticationNonceSize
  challenged : ∃ f ∈ received log, f.1.payload = sn
  proof : macs log = ⟨secret, clientInput sn cn, p⟩ :: (q.map (MacUse.mk secret (serverInput sn cn p))).toList

/-- What a client run has computed, at any time. -/
inductive ClientLog (secret : List UInt8) (log : List net.Event) : Prop
  | quiet (h : macs log = [])
  | proved (sn cn p : List UInt8) (q : Option (List UInt8)) (h : ClientProved secret log sn cn p q)

variable {cr : Crypto} {secret : List UInt8} {w : World}

/-- A MAC is computed, or that fails. -/
theorem safe_calculateProof {α : Type} {G : World → World → Prop} {domain sn cn binding : List UInt8}
    {k : Option (List UInt8) → Sys α} {Q : α → World → Prop}
    (herr : ∀ e, G w (w.push ⟨.call (.mac secret (domain ++ sn ++ cn ++ binding)), .error e⟩) ∧
      Safe (solo (exec cr) anyAnswer) G (k none)
        (w.push ⟨.call (.mac secret (domain ++ sn ++ cn ++ binding)), .error e⟩) Q)
    (hok : ∀ v, v.length = kAuthenticationProofSize →
      G w (w.push ⟨.call (.mac secret (domain ++ sn ++ cn ++ binding)), .ok v⟩) ∧
      Safe (solo (exec cr) anyAnswer) G (k (some v))
        (w.push ⟨.call (.mac secret (domain ++ sn ++ cn ++ binding)), .ok v⟩) Q) :
    Safe (solo (exec cr) anyAnswer) G (calculateProof secret domain sn cn binding >>= k) w Q := by
  refine safe_bind (safe_sys fun r h' he => ?_)
  obtain rfl := exec_looks rfl he
  cases r with
  | error e => exact ⟨(herr e).1, safe_pure (herr e).2⟩
  | ok v =>
    have hv : v.length = kAuthenticationProofSize := by
      rw [exec_mac he]
      exact cr.hmac_length ..
    simp only [hv, if_true]
    exact ⟨(hok v hv).1, safe_pure (hok v hv).2⟩

/-! ### The server -/

theorem ServerLog.send {log : List net.Event} (h : ServerLog secret log) (m : WireFrame) (r : net.Res (.send m)) :
    ServerLog secret (log ++ [⟨.send m, r⟩]) := by
  cases h with
  | quiet h => exact .quiet (by rw [macs_append, h]; rfl)
  | checked sn cn p v q h => exact .checked sn cn p v q (h.concat rfl rfl)

theorem sendAuthResult_log {accepted : Bool} {proof : List UInt8} {k : FrameIoResult → Sys AuthenticationResult}
    {G : World → World → Prop} {Q : AuthenticationResult → World → Prop}
    (hp : proof.length ≤ kAuthenticationProofSize)
    (h : ∀ m r res, G w (w.push ⟨.send m, r⟩) ∧
      Safe (solo (exec cr) anyAnswer) G (k res) (w.push ⟨.send m, r⟩) Q) :
    Safe (solo (exec cr) anyAnswer) G (sendAuthResult accepted proof >>= k) w Q :=
  safe_sendValid (makeFrame_valid rfl (by
    have : kAuthenticationProofSize = 32 := rfl
    rw [List.length_cons]
    omega)) fun r => h _ r _

/-- What is known of a server's run when it returns. -/
def ServerReturns (secret : List UInt8) (result : AuthenticationResult) (w : World) : Prop :=
  result.ok = true → ∃ sn cn p q, ServerChecked secret w.log sn cn p p (some q)

theorem announce_log {accepted : Bool} {proof : List UInt8} (hp : proof.length ≤ kAuthenticationProofSize)
    (hlog : ServerLog secret w.log)
    (h : accepted = true → ∃ sn cn p q, ServerChecked secret w.log sn cn p p (some q)) :
    Safe (solo (exec cr) anyAnswer) (fun _ w' => ServerLog secret w'.log) (announce accepted proof) w
      (ServerReturns secret) := by
  refine sendAuthResult_log hp fun m r res => ⟨hlog.send m r, ?_⟩
  split
  · split
    · next hacc =>
      obtain ⟨sn, cn, p, q, hc⟩ := h hacc
      exact safe_pure fun _ => ⟨sn, cn, p, q, hc.concat rfl rfl⟩
    · exact safe_pure fun h => by cases h
  · exact safe_pure fun h => by cases h

theorem checkProof_log {before : List net.Event} {f : WireFrame} {sn : List UInt8}
    (hw : w.log = before ++ [⟨.recv, .ok f⟩]) (hm : macs before = []) (hn : nonces before = [sn])
    (hsn : sn.length = kAuthenticationNonceSize) :
    Safe (solo (exec cr) anyAnswer) (fun _ w' => ServerLog secret w'.log) (checkProof secret sn f.1) w
      (ServerReturns secret) := by
  have hquiet : ∀ e : net.Event, macs [e] = [] → ServerLog secret (w.log ++ [e]) := by
    intro e he
    rw [hw]
    exact .quiet (by rw [macs_append, macs_append, hm, he]; rfl)
  unfold checkProof
  split
  · refine sendAuthResult_log (Nat.zero_le _) fun m r res => ⟨hquiet _ rfl, ?_⟩
    split <;> exact safe_pure fun h => by cases h
  · next hauth =>
    have hlen := length_of_isAuthFrame hauth
    have hcn : (f.1.payload.take kAuthenticationNonceSize).length = kAuthenticationNonceSize := by
      rw [List.length_take, hlen]
      omega
    -- what the server knows once it has the expected proof
    have hchecked : ∀ v, ServerChecked secret (w.log ++ [⟨.call (.mac secret (kClientProofDomain ++ sn ++
        f.1.payload.take kAuthenticationNonceSize ++ [])), .ok v⟩]) sn (f.1.payload.take kAuthenticationNonceSize)
        (f.1.payload.drop kAuthenticationNonceSize) v none := by
      intro v
      refine ⟨?_, hsn, hcn, ⟨before, f, _, by rw [hw, List.append_assoc]; rfl, ?_, hm, ?_⟩, fun h => absurd rfl h⟩
      · rw [hw, nonces_append, nonces_append, hn]
        rfl
      · rw [List.take_append_drop]
      · rw [List.append_nil]
        rfl
    refine safe_calculateProof (fun e => ⟨hquiet _ rfl, safe_pure fun h => by cases h⟩) fun v hv => ?_
    refine ⟨.checked _ _ _ v none (hchecked v), ?_⟩
    simp only
    split
    · next heq =>
      subst heq
      -- the proof is the expected one, so the server's own is computed from it
      have hdone := fun q => (hchecked _).accept q
      refine safe_calculateProof (fun e => ⟨.checked _ _ _ _ none ((hchecked _).concat rfl rfl),
        safe_pure fun h => by cases h⟩) fun q hq => ⟨.checked _ _ _ _ (some q) (hdone q), ?_⟩
      exact announce_log (Nat.le_of_eq hq) (.checked _ _ _ _ (some q) (hdone q)) fun _ => ⟨_, _, _, q, hdone q⟩
    · exact announce_log (Nat.zero_le _) (.checked _ _ _ v none (hchecked v)) fun h => by cases h

theorem authenticateServer_log (hw : w.log = []) :
    Safe (solo (exec cr) anyAnswer) (fun _ w' => ServerLog secret w'.log) (authenticateServer secret) w
      (ServerReturns secret) := by
  unfold authenticateServer
  split
  · exact safe_pure fun h => by cases h
  · refine safe_look rfl (fun r => .quiet (by rw [NetSig.Local.push_log, hw]; rfl)) fun r he => ?_
    cases r with
    | error e => exact safe_pure fun h => by cases h
    | ok sn =>
      have hsn : sn.length = kAuthenticationNonceSize := exec_randBytes he
      refine safe_sendValid (makeFrame_valid rfl (by rw [hsn]; decide)) fun r => ?_
      refine ⟨.quiet (by simp only [NetSig.Local.push_log, hw]; rfl), ?_⟩
      split
      · refine safe_receiveFrame fun r _ => ⟨.quiet (by simp only [NetSig.Local.push_log, hw]; rfl), ?_, ?_⟩
        · rintro e rfl
          exact safe_pure fun h => by cases h
        · rintro f rfl
          refine checkProof_log rfl ?_ ?_ hsn
          · simp only [NetSig.Local.push_log, hw]
            rfl
          · simp only [NetSig.Local.push_log, hw]
            rfl
      · exact safe_pure fun h => by cases h

/-! ### The client -/

theorem ClientProved.concat {log l : List net.Event} {sn cn p : List UInt8} {q : Option (List UInt8)}
    (h : ClientProved secret log sn cn p q) (hm : macs l = []) (hn : nonces l = []) :
    ClientProved secret (log ++ l) sn cn p q := by
  obtain ⟨f, hf, hpay⟩ := h.challenged
  refine ⟨?_, h.sn_length, h.cn_length, ⟨f, ?_, hpay⟩, ?_⟩
  · rw [nonces_append, h.nonce, hn, List.append_nil]
  · rw [received_append]
    exact List.mem_append_left _ hf
  · rw [macs_append, h.proof, hm, List.append_nil]

/-- The server's proof is computed next, to be compared. -/
theorem ClientProved.answer {log l : List net.Event} {sn cn p q : List UInt8}
    (h : ClientProved secret log sn cn p none) (hm : macs l = [⟨secret, serverInput sn cn p, q⟩])
    (hn : nonces l = []) : ClientProved secret (log ++ l) sn cn p (some q) := by
  obtain ⟨f, hf, hpay⟩ := h.challenged
  refine ⟨?_, h.sn_length, h.cn_length, ⟨f, ?_, hpay⟩, ?_⟩
  · rw [nonces_append, h.nonce, hn]
    rfl
  · rw [received_append]
    exact List.mem_append_left _ hf
  · rw [macs_append, h.proof, hm]
    rfl

/-- What is known of a client's run when it returns: a success was answered with the expected proof, which was
computed after that. -/
def ClientReturns (secret : List UInt8) (result : AuthenticationResult) (w : World) : Prop :=
  result.ok = true → ∃ before f after sn cn p q, w.log = before ++ ⟨.recv, .ok f⟩ :: after ∧
    f.1.payload = kAuthenticationAccepted :: q ∧ ClientProved secret before sn cn p none ∧
    macs after = [⟨secret, serverInput sn cn p, q⟩] ∧ nonces after = []

theorem checkResult_log {before : List net.Event} {f : WireFrame} {sn cn p : List UInt8}
    (hw : w.log = before ++ [⟨.recv, .ok f⟩]) (h : ClientProved secret before sn cn p none) :
    Safe (solo (exec cr) anyAnswer) (fun _ w' => ClientLog secret w'.log) (checkResult secret sn cn p f.1) w
      (ClientReturns secret) := by
  unfold checkResult
  split
  · exact safe_pure fun h => by cases h
  · split
    · split <;> exact safe_pure fun h => by cases h
    · split
      · exact safe_pure fun h => by cases h
      · next hacc =>
        simp only [not_or, not_not] at hacc
        have hpay : f.1.payload = kAuthenticationAccepted :: f.1.payload.drop 1 := by
          obtain ⟨tail, ht⟩ := List.head?_eq_some_iff.mp hacc.1
          rw [ht]
          rfl
        refine safe_calculateProof (fun e => ⟨?_, safe_pure fun h => by cases h⟩) fun q hq => ⟨?_, ?_⟩
        · rw [NetSig.Local.push_log, hw]
          exact .proved sn cn p none ((h.concat rfl rfl).concat rfl rfl)
        · rw [NetSig.Local.push_log, hw]
          exact .proved sn cn p (some q) ((h.concat rfl rfl).answer rfl rfl)
        · simp only
          split
          · next heq =>
            refine safe_pure fun _ => ⟨before, f, [⟨.call (.mac secret (serverInput sn cn p)), .ok q⟩],
              sn, cn, p, q,
              ?_, by rw [heq]; exact hpay, h, rfl, rfl⟩
            rw [NetSig.Local.push_log, hw, List.append_assoc]
            rfl
          · exact safe_pure fun h => by cases h

theorem answerChallenge_log {f : WireFrame} {sn : List UInt8} (hw : w.log = [⟨.recv, .ok f⟩])
    (hf : f.1.payload = sn) (hsn : sn.length = kAuthenticationNonceSize) :
    Safe (solo (exec cr) anyAnswer) (fun _ w' => ClientLog secret w'.log) (answerChallenge secret sn) w
      (ClientReturns secret) := by
  refine safe_look rfl (fun r => .quiet (by rw [NetSig.Local.push_log, hw]; rfl)) fun r he => ?_
  cases r with
  | error e => exact safe_pure fun h => by cases h
  | ok cn =>
    have hcn : cn.length = kAuthenticationNonceSize := exec_randBytes he
    refine safe_calculateProof (fun e => ⟨.quiet ?_, safe_pure fun h => by cases h⟩) fun p hp => ?_
    · simp only [NetSig.Local.push_log, hw]
      rfl
    · have hproved : ClientProved secret ((w.log ++ [⟨.call (.randBytes kAuthenticationNonceSize), .ok cn⟩]) ++
          [⟨.call (.mac secret (kClientProofDomain ++ sn ++ cn ++ [])), .ok p⟩]) sn cn p none := by
        rw [List.append_nil, hw]
        exact ⟨rfl, hsn, hcn, ⟨f, List.mem_singleton_self f, hf⟩, rfl⟩
      refine ⟨.proved sn cn p none hproved, ?_⟩
      refine safe_sendValid (makeFrame_valid rfl (by rw [List.length_append, hcn, hp]; decide)) fun r => ?_
      refine ⟨.proved sn cn p none (hproved.concat rfl rfl), ?_⟩
      split
      · refine safe_receiveFrame fun r _ =>
          ⟨.proved sn cn p none ((hproved.concat rfl rfl).concat rfl rfl), ?_, ?_⟩
        · rintro e rfl
          exact safe_pure fun h => by cases h
        · rintro f rfl
          exact checkResult_log rfl (hproved.concat rfl rfl)
      · exact safe_pure fun h => by cases h

theorem authenticateClient_log (hw : w.log = []) :
    Safe (solo (exec cr) anyAnswer) (fun _ w' => ClientLog secret w'.log) (authenticateClient secret) w
      (ClientReturns secret) := by
  unfold authenticateClient
  split
  · exact safe_pure fun h => by cases h
  · refine safe_receiveFrame fun r _ => ⟨.quiet (by rw [NetSig.Local.push_log, hw]; rfl), ?_, ?_⟩
    · rintro e rfl
      exact safe_pure fun h => by cases h
    · rintro f rfl
      simp only
      split
      · exact safe_pure fun h => by cases h
      · next hauth =>
        exact answerChallenge_log (f := f) (by rw [NetSig.Local.push_log, hw]; rfl) rfl
          (length_of_isAuthFrame hauth)

/-! ## Inputs are not ambiguous -/

theorem clientInput_ne_serverInput {sn cn sn' cn' p : List UInt8} : clientInput sn cn ≠ serverInput sn' cn' p := by
  intro h
  rw [clientInput, serverInput, List.append_assoc, List.append_assoc, List.append_assoc] at h
  exact absurd (List.append_inj_left h (by decide)) (by decide)

theorem clientInput_inj {sn cn sn' cn' : List UInt8} (hl : sn.length = sn'.length)
    (h : clientInput sn cn = clientInput sn' cn') : sn = sn' ∧ cn = cn' := by
  rw [clientInput, clientInput, List.append_assoc, List.append_assoc] at h
  exact List.append_inj (List.append_cancel_left h) hl

theorem serverInput_inj {sn cn p sn' cn' p' : List UInt8} (hs : sn.length = sn'.length)
    (hc : cn.length = cn'.length) (h : serverInput sn cn p = serverInput sn' cn' p') :
    sn = sn' ∧ cn = cn' ∧ p = p' := by
  rw [serverInput, serverInput, List.append_assoc, List.append_assoc, List.append_assoc, List.append_assoc] at h
  obtain ⟨h1, h2⟩ := List.append_inj (List.append_cancel_left h) hs
  exact ⟨h1, List.append_inj h2 hc⟩

theorem clientProof_of_mem {sn cn v sn' cn' v' p : List UInt8} {q : Option (List UInt8)}
    (hl : sn.length = sn'.length) (h : ⟨secret, clientInput sn cn, v⟩ ∈
      (⟨secret, clientInput sn' cn', v'⟩ : MacUse) :: (q.map (MacUse.mk secret (serverInput sn' cn' p))).toList) :
    sn = sn' ∧ cn = cn' ∧ v = v' := by
  rcases List.mem_cons.mp h with h | h
  · obtain ⟨h1, h2⟩ := clientInput_inj hl (congrArg MacUse.input h)
    exact ⟨h1, h2, congrArg MacUse.value h⟩
  · rw [Option.mem_toList, Option.map_eq_some_iff] at h
    obtain ⟨q', -, h⟩ := h
    exact absurd (congrArg MacUse.input h).symm clientInput_ne_serverInput

theorem serverProof_of_mem {sn cn p sn' cn' p' v q : List UInt8} {q' : Option (List UInt8)}
    (hs : sn.length = sn'.length) (hc : cn.length = cn'.length) (h : ⟨secret, serverInput sn cn p, q⟩ ∈
      (⟨secret, clientInput sn' cn', v⟩ : MacUse) :: (q'.map (MacUse.mk secret (serverInput sn' cn' p'))).toList) :
    sn = sn' ∧ cn = cn' ∧ p = p' ∧ q' = some q := by
  rcases List.mem_cons.mp h with h | h
  · exact absurd (congrArg MacUse.input h).symm clientInput_ne_serverInput
  · rw [Option.mem_toList, Option.map_eq_some_iff] at h
    obtain ⟨q'', rfl, heq⟩ := h
    obtain ⟨h1, h2, h3⟩ := serverInput_inj hs hc (congrArg MacUse.input heq).symm
    exact ⟨h1, h2, h3, congrArg some (congrArg MacUse.value heq)⟩

/-! ## Any number of runs -/

inductive Role
  | client | server
deriving DecidableEq

def Role.run (secret : List UInt8) : Role → Sys AuthenticationResult
  | .client => authenticateClient secret
  | .server => authenticateServer secret

section
variable {ι : Type} [DecidableEq ι]

open Trace

/-- The MAC is ideal and the nonces are fresh, in this run. -/
structure Ideal (t : Trace net ι) : Prop where
  collisionFree : ∀ a ∈ macs (events t), ∀ b ∈ macs (events t), a.value = b.value → a = b
  /-- if a run computes the value in which a frame that it received ends, one of the runs had computed it before -/
  unforged : ∀ t1 t2 i f, t = t1 ++ (i, ⟨.recv, .ok f⟩) :: t2 → ∀ a ∈ macs (own i t2),
    a.value <:+ f.1.payload → ∃ b ∈ macs (events t1), b.value = a.value
  fresh : (nonces (events t)).Nodup

/-- A run in this role has ended with success. -/
def Succeeded (role : ι → Role) (g : ι → Side net Host AuthenticationResult) (r : Role) (i : ι) : Prop :=
  role i = r ∧ ∃ result, (g i).1 = .pure result ∧ result.ok = true

theorem mem_macs_events {a : MacUse} {t : Trace net ι} : a ∈ macs (events t) ↔ ∃ i, a ∈ macs (own i t) := by
  simp only [macs, List.mem_filterMap, mem_events]
  constructor
  · rintro ⟨e, ⟨i, hi⟩, he⟩
    exact ⟨i, e, hi, he⟩
  · rintro ⟨i, e, hi, he⟩
    exact ⟨e, ⟨i, hi⟩, he⟩

/-- A nonce belongs to one run. -/
theorem Ideal.unique {t : Trace net ι} (h : Ideal t) {i j : ι} {n : List UInt8} (hi : n ∈ nonces (own i t))
    (hj : n ∈ nonces (own j t)) : i = j := by
  obtain ⟨e, he, hen⟩ := List.mem_filterMap.mp hi
  obtain ⟨e', he', hen'⟩ := List.mem_filterMap.mp hj
  have hfresh := h.fresh
  rw [nonces, events, List.filterMap_map] at hfresh
  exact congrArg Prod.fst (eq_of_nodup_filterMap hfresh (mem_own.mp he) (mem_own.mp he') hen hen')

variable {role : ι → Role} {start : ι → World} {t : Trace net ι} {g : ι → Side net Host AuthenticationResult}

/-- The runs, in their roles. -/
abbrev Authenticating (cr : Crypto) (secret : List UInt8) (role : ι → Role) (start : ι → World) (t : Trace net ι)
    (g : ι → Side net Host AuthenticationResult) : Prop :=
  Network (exec cr) anyAnswer (fun i => ((role i).run secret, start i)) t g

section
variable (hstart : ∀ i, (start i).log = []) (hrun : Authenticating cr secret role start t g)
include hstart hrun

theorem own_eq_log (i : ι) : own i t = (g i).2.log := by
  rw [hrun.log i, hstart i, List.nil_append]

theorem server_log {i : ι} (hi : role i = .server) : ServerLog secret (own i t) := by
  have hr := hrun.reach i
  rw [hi] at hr
  rw [own_eq_log hstart hrun i]
  exact (authenticateServer_log (hstart i)).reach_step (fun w => ServerLog secret w.log)
    (.quiet (by rw [hstart i]; rfl)) (fun _ _ _ _ _ hg _ => hg) hr

theorem client_log {i : ι} (hi : role i = .client) : ClientLog secret (own i t) := by
  have hr := hrun.reach i
  rw [hi] at hr
  rw [own_eq_log hstart hrun i]
  exact (authenticateClient_log (hstart i)).reach_step (fun w => ClientLog secret w.log)
    (.quiet (by rw [hstart i]; rfl)) (fun _ _ _ _ _ hg _ => hg) hr

theorem server_success {i : ι} (h : Succeeded role g .server i) :
    ∃ sn cn p q, ServerChecked secret (own i t) sn cn p p (some q) := by
  obtain ⟨hi, result, hres, hok⟩ := h
  have hr := hrun.reach i
  rw [hi, ← Prod.mk.eta (p := g i), hres] at hr
  rw [own_eq_log hstart hrun i]
  exact (authenticateServer_log (hstart i)).result hr hok

theorem client_success {i : ι} (h : Succeeded role g .client i) :
    ∃ before f after sn cn p q, own i t = before ++ ⟨.recv, .ok f⟩ :: after ∧
      f.1.payload = kAuthenticationAccepted :: q ∧ ClientProved secret before sn cn p none ∧
      macs after = [⟨secret, serverInput sn cn p, q⟩] ∧ nonces after = [] := by
  obtain ⟨hi, result, hres, hok⟩ := h
  have hr := hrun.reach i
  rw [hi, ← Prod.mk.eta (p := g i), hres] at hr
  rw [own_eq_log hstart hrun i]
  exact (authenticateClient_log (hstart i)).result hr hok

/-- Who computes a client's proof: the client, or the server that checks it. -/
theorem clientProof_cases {i : ι} {sn cn v : List UInt8} (hsn : sn.length = kAuthenticationNonceSize)
    (h : ⟨secret, clientInput sn cn, v⟩ ∈ macs (own i t)) :
    (role i = .client ∧ ∃ q, ClientProved secret (own i t) sn cn v q) ∨
      (role i = .server ∧ ∃ p q, ServerChecked secret (own i t) sn cn p v q) := by
  cases hi : role i with
  | client =>
    refine .inl ⟨rfl, ?_⟩
    cases client_log hstart hrun hi with
    | quiet hq => rw [hq] at h; cases h
    | proved sn' cn' p q hp =>
      rw [hp.proof] at h
      obtain ⟨rfl, rfl, rfl⟩ := clientProof_of_mem (hsn.trans hp.sn_length.symm) h
      exact ⟨q, hp⟩
  | server =>
    refine .inr ⟨rfl, ?_⟩
    cases server_log hstart hrun hi with
    | quiet hq => rw [hq] at h; cases h
    | checked sn' cn' p v' q hc =>
      rw [hc.macs_eq] at h
      obtain ⟨rfl, rfl, rfl⟩ := clientProof_of_mem (hsn.trans hc.sn_length.symm) h
      exact ⟨p, q, hc⟩

/-- Who computes a server's proof: a client that checks it, or the server that has accepted. -/
theorem serverProof_cases {i : ι} {sn cn p q : List UInt8} (hsn : sn.length = kAuthenticationNonceSize)
    (hcn : cn.length = kAuthenticationNonceSize) (h : ⟨secret, serverInput sn cn p, q⟩ ∈ macs (own i t)) :
    (role i = .client ∧ ClientProved secret (own i t) sn cn p (some q)) ∨
      (role i = .server ∧ ServerChecked secret (own i t) sn cn p p (some q)) := by
  cases hi : role i with
  | client =>
    refine .inl ⟨rfl, ?_⟩
    cases client_log hstart hrun hi with
    | quiet hq => rw [hq] at h; cases h
    | proved sn' cn' p' q' hp =>
      rw [hp.proof] at h
      obtain ⟨rfl, rfl, rfl, rfl⟩ := serverProof_of_mem (hsn.trans hp.sn_length.symm)
        (hcn.trans hp.cn_length.symm) h
      exact hp
  | server =>
    refine .inr ⟨rfl, ?_⟩
    cases server_log hstart hrun hi with
    | quiet hq => rw [hq] at h; cases h
    | checked sn' cn' p' v q' hc =>
      rw [hc.macs_eq] at h
      obtain ⟨rfl, rfl, rfl, rfl⟩ := serverProof_of_mem (hsn.trans hc.sn_length.symm)
        (hcn.trans hc.cn_length.symm) h
      obtain rfl := hc.accepts (by simp)
      exact hc

variable (hideal : Ideal t)
include hideal

/-- **From the server to the client.**  The proof a server accepts was computed by a client, for the same
nonces. -/
theorem client_of_accepted {i : ι} {sn cn p : List UInt8} {q : Option (List UInt8)}
    (h : ServerChecked secret (own i t) sn cn p p q) :
    ∃ j, role j = .client ∧ ∃ q', ClientProved secret (own j t) sn cn p q' := by
  obtain ⟨before, f, after, hl, hf, hb, ha⟩ := h.received
  obtain ⟨t1, t2, rfl, h1, h2⟩ := split_of_own hl
  obtain ⟨b, hb1, hbv⟩ := hideal.unforged t1 t2 i f rfl ⟨secret, clientInput sn cn, p⟩
    (by rw [h2, ha]; exact List.mem_cons_self) (by rw [hf]; exact List.suffix_append _ _)
  obtain ⟨j, hj⟩ := mem_macs_events.mp hb1
  have hjt : b ∈ macs (own j (t1 ++ (i, ⟨.recv, .ok f⟩) :: t2)) := by
    rw [own_append, macs_append]
    exact List.mem_append_left _ hj
  obtain rfl := hideal.collisionFree b (mem_macs_events.mpr ⟨j, hjt⟩) ⟨secret, clientInput sn cn, p⟩
    (mem_macs_events.mpr ⟨i, by rw [h.macs_eq]; exact List.mem_cons_self⟩) hbv
  rcases clientProof_cases hstart hrun h.sn_length hjt with ⟨hrole, q', hp⟩ | ⟨-, p', q', hc⟩
  · exact ⟨j, hrole, q', hp⟩
  · -- only the server itself has the nonce, and it had computed nothing before
    obtain rfl : j = i := hideal.unique (by rw [hc.nonce]; exact List.mem_singleton_self sn)
      (by rw [h.nonce]; exact List.mem_singleton_self sn)
    rw [h1, hb] at hj
    cases hj

/-- **From the client to the server.**  The proof a client accepts was computed by a server that had accepted the
client's, for the same nonces. -/
theorem server_of_answered {j : ι} {before after : List net.Event} {f : WireFrame} {sn cn p q : List UInt8}
    (hl : own j t = before ++ ⟨.recv, .ok f⟩ :: after) (hf : q <:+ f.1.payload)
    (hb : ClientProved secret before sn cn p none) (ha : macs after = [⟨secret, serverInput sn cn p, q⟩]) :
    ∃ i, role i = .server ∧ ServerChecked secret (own i t) sn cn p p (some q) := by
  obtain ⟨t1, t2, rfl, h1, h2⟩ := split_of_own hl
  obtain ⟨b, hb1, hbv⟩ := hideal.unforged t1 t2 j f rfl ⟨secret, serverInput sn cn p, q⟩
    (by rw [h2, ha]; exact List.mem_cons_self) hf
  obtain ⟨i, hi⟩ := mem_macs_events.mp hb1
  have hit : b ∈ macs (own i (t1 ++ (j, ⟨.recv, .ok f⟩) :: t2)) := by
    rw [own_append, macs_append]
    exact List.mem_append_left _ hi
  have hjt : ⟨secret, serverInput sn cn p, q⟩ ∈ macs (own j (t1 ++ (j, ⟨.recv, .ok f⟩) :: t2)) := by
    rw [hl, macs_append]
    refine List.mem_append_right _ ?_
    change _ ∈ macs after
    rw [ha]
    exact List.mem_cons_self
  obtain rfl := hideal.collisionFree b (mem_macs_events.mpr ⟨i, hit⟩) _ (mem_macs_events.mpr ⟨j, hjt⟩) hbv
  rcases serverProof_cases hstart hrun hb.sn_length hb.cn_length hit with ⟨-, hp⟩ | ⟨hrole, hc⟩
  · -- only the client itself has the nonce, and it had not computed this before
    obtain rfl : i = j := by
      refine hideal.unique (n := cn) (by rw [hp.nonce]; exact List.mem_singleton_self cn) ?_
      rw [hl, nonces_append, hb.nonce]
      exact List.mem_cons_self
    rw [h1, hb.proof, Option.map_none, Option.toList_none] at hi
    have heq := congrArg MacUse.input (List.mem_singleton.mp hi)
    exact absurd heq.symm clientInput_ne_serverInput
  · exact ⟨i, hrole, hc⟩

end

end

/-! ## Before the destination is touched -/

/-- What `authenticate_server` does: frames, nonces and MACs. -/
def Authenticates : net.sig.Op → Prop
  | .call (.randBytes _) | .call (.mac _ _) | .send _ | .recv => True
  | _ => False

/-- Of these, frames that are no result. -/
def Introduces (o : net.sig.Op) : Prop :=
  Authenticates o ∧ ∀ f, o = .send f → f.1.header.messageType ≠ .transferResult ∧
    f.1.header.messageType ≠ .syncResult

theorem introduces_call {c : Posix.Call} (h : Authenticates (.call c)) : Introduces (.call c) :=
  ⟨h, fun f hf => by cases hf⟩

theorem introduces_recv : Introduces .recv := ⟨trivial, fun f hf => by cases hf⟩

theorem introduces_makeFrame {type : MessageType} (h : type ≠ .transferResult ∧ type ≠ .syncResult)
    (requestId transferId : UInt64) (payload : List UInt8)
    (hv : (makeFrame type requestId transferId payload).Valid) :
    Introduces (.send ⟨makeFrame type requestId transferId payload, hv⟩) := by
  refine ⟨trivial, fun f hf => ?_⟩
  cases hf
  exact h

theorem calculateProof_uses {α : Type} {domain sn cn binding : List UInt8} {k : Option (List UInt8) → Sys α}
    (hk : ∀ r, Uses Introduces (k r)) :
    Uses Introduces (calculateProof secret domain sn cn binding >>= k) := by
  refine uses_bind (uses_sys (introduces_call trivial) fun r => ?_) hk
  cases r with
  | error e => exact uses_pure _
  | ok v => simp only; split <;> exact uses_pure _

theorem announce_uses (accepted : Bool) (proof : List UInt8) : Uses Introduces (announce accepted proof) := by
  refine uses_sendFrame (introduces_makeFrame (by decide) _ _ _) fun res => ?_
  split
  · split <;> exact uses_pure _
  · exact uses_pure _

theorem authenticateServer_introduces (secret : List UInt8) : Uses Introduces (authenticateServer secret) := by
  unfold authenticateServer
  split
  · exact uses_pure _
  · refine uses_sys (introduces_call trivial) fun r => ?_
    cases r with
    | error e => exact uses_pure _
    | ok sn =>
      refine uses_sendFrame (introduces_makeFrame (by decide) _ _ _) fun res => ?_
      split
      · refine uses_receiveFrame introduces_recv fun r => ?_
        cases r with
        | error e => exact uses_pure _
        | ok f =>
          simp only [checkProof]
          split
          · refine uses_sendFrame (introduces_makeFrame (by decide) _ _ _) fun res => ?_
            split <;> exact uses_pure _
          · refine calculateProof_uses fun r => ?_
            cases r with
            | none => exact uses_pure _
            | some expected =>
              simp only
              split
              · refine calculateProof_uses fun r => ?_
                cases r with
                | none => exact uses_pure _
                | some q => exact announce_uses _ _
              · exact announce_uses _ _
      · exact uses_pure _

theorem authenticateServer_uses (secret : List UInt8) : Uses Authenticates (authenticateServer secret) :=
  (authenticateServer_introduces secret).mono fun _ h => h.1

/-- The file system has changed, or a call is about to be made that `authenticate_server` does not make. -/
def Touches {α : Type} (w : World) (c : Side net Host α) : Prop :=
  c.2.host.fs ≠ w.host.fs ∨ ∃ call k, c.1 = .op (.call call) k ∧ ¬ Authenticates (.call call)

/-- While a client is being authenticated the destination is left alone. -/
theorem authenticateServer_untouched {c : Side net Host AuthenticationResult}
    (hr : Reach (solo (exec cr) anyAnswer) (authenticateServer secret, w) c) : c.2.host.fs = w.host.fs := by
  have hsafe : Safe (solo (exec cr) anyAnswer) (fun w w' => w'.host.fs = w.host.fs) (authenticateServer secret) w
      fun _ _ => True := by
    refine safe_iff_along.mpr (((authenticateServer_uses secret).along w).mono (fun o _ w' ho r w'' hs => ?_)
      fun _ _ h => h)
    cases o with
    | send m => cases hs.2; rfl
    | recv => cases hs.2; rfl
    | call c =>
      obtain ⟨h', he, rfl⟩ := Option.map_eq_some_iff.mp hs.2
      cases c with
      | randBytes n => rw [exec_looks rfl he]
      | mac k x => rw [exec_looks rfl he]
      | _ => exact absurd ho id
  exact hsafe.reach (fun w' => w'.host.fs = w.host.fs) rfl (fun _ _ h hg => hg.trans h) hr

/-- A program that returns at once unless the client was authenticated. -/
theorem authenticated_of_touches {α : Type} {f : AuthenticationResult → Sys α}
    (hf : ∀ result, ¬ result.ok = true → ∃ a, f result = .pure a) {c : Side net Host α}
    (hr : Reach (solo (exec cr) anyAnswer) (authenticateServer secret >>= f, w) c) (ht : Touches w c) :
    ∃ result w1, Reach (solo (exec cr) anyAnswer) (authenticateServer secret, w) (.pure result, w1) ∧
      result.ok = true ∧ w1.log <+: c.2.log := by
  -- once `authenticate_server` has returned
  have hafter : ∀ result w1, Reach (solo (exec cr) anyAnswer) (authenticateServer secret, w) (.pure result, w1) →
      Reach (solo (exec cr) anyAnswer) (f result, w1) c → result.ok = true := by
    intro result w1 hr1 hr2
    by_contra hok
    obtain ⟨a, ha⟩ := hf result hok
    rw [ha] at hr2
    cases eq_of_reach_pure hr2
    rcases ht with ht | ⟨call, k, hk, -⟩
    · exact ht (authenticateServer_untouched hr1)
    · cases hk
  rcases reach_bind hr with ⟨p', hr', hc⟩ | ⟨result, w1, hr1, hr2⟩
  · cases p' with
    | pure result =>
      refine ⟨result, c.2, hr', hafter result c.2 hr' ?_, List.prefix_refl _⟩
      rw [← Prod.mk.eta (p := c), hc]
      exact .refl
    | op o k' =>
      rcases ht with ht | ⟨call, k, hk, hcall⟩
      · exact absurd (authenticateServer_untouched hr') ht
      · rw [hc] at hk
        cases hk
        exact absurd ((authenticateServer_uses secret).along w _ _ hr') hcall
    | loop body s k' =>
      rcases ht with ht | ⟨call, k, hk, -⟩
      · exact absurd (authenticateServer_untouched hr') ht
      · rw [hc] at hk
        cases hk
  · exact ⟨result, w1, hr1, hafter result w1 hr1 hr2, reach_log hr2⟩

/-- **Agreement.**  Any number of runs of `authenticate_client` and `authenticate_server` with one secret, and
a network that delivers what it likes; the MAC is ideal and nonces do not repeat.

* Every server that ended with success has a client of its own, which computed the proof that the server
  accepted for the server's nonce and the nonce the server received.
* For every client that ended with success, the server that generated the nonce it was challenged with
  accepted its nonce and its proof.
* What is accepted as a client's proof is no server's proof, and conversely.
* A session that touches the destination has authenticated its client. -/
theorem authentication_agreement (cr : Crypto) (secret : List UInt8) {ι : Type} [DecidableEq ι] {role : ι → Role}
    {start : ι → World} {t : Trace net ι} {g : ι → Side net Host AuthenticationResult}
    (hstart : ∀ i, (start i).log = []) (hrun : Authenticating cr secret role start t g) (hideal : Ideal t) :
    (∃ partner : ι → ι,
      (∀ i, Succeeded role g .server i → ∃ sn cn p q q', ServerChecked secret (t.own i) sn cn p p (some q) ∧
        role (partner i) = .client ∧ ClientProved secret (t.own (partner i)) sn cn p q') ∧
      ∀ i i', Succeeded role g .server i → Succeeded role g .server i' → partner i = partner i' → i = i') ∧
    (∀ j, Succeeded role g .client j → ∃ sn cn p q, ClientProved secret (t.own j) sn cn p (some q) ∧
      ∃ i, role i = .server ∧ ServerChecked secret (t.own i) sn cn p p (some q) ∧
        ∀ i', sn ∈ nonces (t.own i') → i' = i) ∧
    (∀ i sn cn p q, ServerChecked secret (t.own i) sn cn p p q → ∀ b ∈ macs t.events, ∀ sn' cn' p',
      b.input = serverInput sn' cn' p' → b.value ≠ p) ∧
    (∀ j sn cn p q, Succeeded role g .client j → ClientProved secret (t.own j) sn cn p (some q) →
      ∀ b ∈ macs t.events, ∀ sn' cn', b.input = clientInput sn' cn' → b.value ≠ q) ∧
    ∀ root w c, Reach (solo (exec cr) anyAnswer) (serveClientSession root secret, w) c → Touches w c →
      ∃ result w1, Reach (solo (exec cr) anyAnswer) (authenticateServer secret, w) (.pure result, w1) ∧
        result.ok = true ∧ w1.log <+: c.2.log := by
  refine ⟨?_, ?_, ?_, ?_, ?_⟩
  · classical
    have hpartner : ∀ i, ∃ j, Succeeded role g .server i → ∃ sn cn p q q',
        ServerChecked secret (t.own i) sn cn p p (some q) ∧ role j = .client ∧
          ClientProved secret (t.own j) sn cn p q' := by
      intro i
      by_cases hi : Succeeded role g .server i
      · obtain ⟨sn, cn, p, q, hc⟩ := server_success hstart hrun hi
        obtain ⟨j, hj, q', hp⟩ := client_of_accepted hstart hrun hideal hc
        exact ⟨j, fun _ => ⟨sn, cn, p, q, q', hc, hj, hp⟩⟩
      · exact ⟨i, fun h => absurd h hi⟩
    choose partner hpartner using hpartner
    refine ⟨partner, hpartner, fun i i' hi hi' heq => ?_⟩
    obtain ⟨sn, cn, p, q, q', hc, -, hp⟩ := hpartner i hi
    obtain ⟨sn2, cn2, p2, q2, q2', hc2, -, hp2⟩ := hpartner i' hi'
    rw [← heq] at hp2
    have hmacs := hp.proof.symm.trans hp2.proof
    have hinput := congrArg MacUse.input (List.head_eq_of_cons_eq hmacs)
    obtain ⟨rfl, -⟩ := clientInput_inj (hp.sn_length.trans hp2.sn_length.symm) hinput
    exact hideal.unique (n := sn) (by rw [hc.nonce]; exact List.mem_singleton_self sn)
      (by rw [hc2.nonce]; exact List.mem_singleton_self sn)
  · intro j hj
    obtain ⟨before, f, after, sn, cn, p, q, hl, hf, hb, ha, hn⟩ := client_success hstart hrun hj
    obtain ⟨i, hi, hc⟩ := server_of_answered hstart hrun hideal hl (by rw [hf]; exact List.suffix_cons _ _) hb ha
    refine ⟨sn, cn, p, q, ?_, i, hi, hc, fun i' hi' => ?_⟩
    · rw [hl]
      exact hb.answer (l := ⟨.recv, .ok f⟩ :: after) ha hn
    · exact hideal.unique hi' (by rw [hc.nonce]; exact List.mem_singleton_self sn)
  · rintro i sn cn p q hc b hb sn' cn' p' hinput rfl
    have ha : (⟨secret, clientInput sn cn, b.value⟩ : MacUse) ∈ macs t.events :=
      mem_macs_events.mpr ⟨i, by rw [hc.macs_eq]; exact List.mem_cons_self⟩
    have heq := hideal.collisionFree _ ha b hb rfl
    exact clientInput_ne_serverInput ((congrArg MacUse.input heq).trans hinput)
  · rintro j sn cn p q - hp b hb sn' cn' hinput rfl
    have ha : (⟨secret, serverInput sn cn p, b.value⟩ : MacUse) ∈ macs t.events :=
      mem_macs_events.mpr ⟨j, by rw [hp.proof]; simp⟩
    have heq := hideal.collisionFree _ ha b hb rfl
    exact clientInput_ne_serverInput (hinput.symm.trans (congrArg MacUse.input heq).symm)
  · intro root w c hr ht
    exact authenticated_of_touches (fun result hok => ⟨_, if_neg hok⟩) hr ht

/-! A client and a server whose frames are delivered. -/

/-- MACs that tell the two kinds of proof apart. -/
def sampleMac : Crypto where
  sha256 _ := List.replicate 32 0
  hmac _ x := List.replicate 32 (if kClientProofDomain <+: x then 3 else 4)
  sha256_length _ := rfl
  hmac_length _ _ := List.length_replicate ..

def sampleAuthKey : List UInt8 := bytesOf "sixteen bytes ok"

def sampleAuthRole : Bool → Role
  | true => .server
  | false => .client

def sampleAuthStart : Bool → World := fun _ => ⟨⟨.empty, fun _ => none, 3, 1000, 0⟩, []⟩

/-- Each one receives what the other has sent, and has nonces of its own. -/
def relay (g : Bool → Side net Host AuthenticationResult) (i : Bool) : (o : net.sig.Op) → net.sig.Res o
  | .send _ => .ok ()
  | .recv =>
    match (sent (g !i).2.log)[(received (g i).2.log).length]? with
    | some frame => .ok frame
    | none => .error (.io (.peerClosed 0))
  | .call (.randBytes n) => .ok (List.replicate n (if i then 1 else 2))
  | .call c => answer sampleMac c (g i).2.host

def sampleAuthentication : Trace net Bool × (Bool → Side net Host AuthenticationResult) :=
  follow (exec sampleMac) relay (fun i => ((sampleAuthRole i).run sampleAuthKey, sampleAuthStart i))
    [true, true, false, false, false, false, true, true, true, true, false, false]

/-- Frame by frame. -/
theorem unforged_of_checks {ι : Type} [DecidableEq ι] {t : Trace net ι}
    (h : ∀ n < t.length, ∀ x ∈ t[n]?, ∀ f ∈ received [x.2], ∀ a ∈ macs (Trace.own x.1 (t.drop (n + 1))),
      a.value <:+ f.1.payload → ∃ b ∈ macs (Trace.events (t.take n)), b.value = a.value)
    (t1 t2 : Trace net ι) (i : ι) (f : WireFrame) (ht : t = t1 ++ (i, ⟨.recv, .ok f⟩) :: t2) :
    ∀ a ∈ macs (t2.own i), a.value <:+ f.1.payload → ∃ b ∈ macs t1.events, b.value = a.value := by
  subst ht
  have hn := h t1.length (by simp) (i, ⟨.recv, .ok f⟩) (by simp) f (List.mem_singleton_self f)
  rwa [List.drop_append, List.drop_eq_nil_of_le (by omega), Nat.add_sub_cancel_left, List.nil_append,
    List.drop_succ_cons, List.drop_zero, List.take_left' rfl] at hn

theorem sampleAuthentication_ideal : Ideal sampleAuthentication.1 := by
  refine ⟨by decide +kernel, unforged_of_checks (by decide +kernel), by decide +kernel⟩

theorem authentication_agreement_sample :
    Succeeded sampleAuthRole sampleAuthentication.2 .server true ∧
      Succeeded sampleAuthRole sampleAuthentication.2 .client false ∧
      ∃ sn cn p q q', ServerChecked sampleAuthKey (sampleAuthentication.1.own true) sn cn p p (some q) ∧
        ClientProved sampleAuthKey (sampleAuthentication.1.own false) sn cn p q' := by
  have hserver : Succeeded sampleAuthRole sampleAuthentication.2 .server true :=
    ⟨rfl, {}, Prog.eq_pure_of_result? (by decide +kernel), rfl⟩
  have hclient : Succeeded sampleAuthRole sampleAuthentication.2 .client false :=
    ⟨rfl, {}, Prog.eq_pure_of_result? (by decide +kernel), rfl⟩
  have hrun : Authenticating sampleMac sampleAuthKey sampleAuthRole sampleAuthStart sampleAuthentication.1
      sampleAuthentication.2 := network_follow (fun _ _ _ => trivial) _
  obtain ⟨⟨partner, hpartner, -⟩, -⟩ := authentication_agreement sampleMac sampleAuthKey (fun _ => rfl) hrun
    sampleAuthentication_ideal
  obtain ⟨sn, cn, p, q, q', hc, hrole, hp⟩ := hpartner true hserver
  cases hj : partner true with
  | true =>
    rw [hj] at hrole
    cases hrole
  | false =>
    rw [hj] at hp
    exact ⟨hserver, hclient, sn, cn, p, q, q', hc, hp⟩

end SyncWire
