import SyncWire.FileTransfer

/-!
# `prepare_destination` on any file system

Links may stand anywhere, above the root as well as below it.  The root and everything on the way to
the final path is looked at with `lstat` before it is used, so when `prepare_destination` succeeds
there is one directory `base`, where the root really is, and below it there are real directories only
(`Ready`).  On the way it makes directories and nothing else, each where its path leads
(`prepareDestination_safe`).

The lemmas are stated for any guarantee `G` and invariant `I` of a caller that admit those steps
(`MayMake`).
-/

namespace SyncWire

open Wire Effect Posix Posix.Fs FileTransfer

/-- The calls of `prepare_destination`. -/
def prepares : Posix.Call → Bool
  | .lstat _ | .createDirectory _ | .mkdir _ | .openDir _ | .digest _ => true
  | _ => false

/-- `p`, on the way to `root` or below it, leads to `q`. -/
def At (fs : Fs) (root p q : Path) : Prop :=
  fs.resolve p = .ok q ∧ (p <+: root ∨ ∃ base s, fs.resolve root = .ok base ∧ p = root ++ s ∧ q = base ++ s)

theorem At.eq_of_plain {fs : Fs} {root p q : Path} (hp : fs.Plain root) (h : At fs root p q) : q = p := by
  obtain ⟨hr, hpre | ⟨base, s, hbase, rfl, rfl⟩⟩ := h
  · exact (resolve_plain ( plain_of_isPrefix hp hpre) hr).1
  · rw [(resolve_plain hp hbase).1]

/-- `G` and `I` admit to look around, and to make the directories `A` where they belong. -/
structure MayMake (root : Path) (A : Path → Prop) (I : World → Prop) (G : World → World → Prop) : Prop where
  quiet : ∀ {w : World} {h' : Host} (c : Posix.Call) (r : Except Nat (Posix.Val c)), I w → prepares c = true →
    h'.fs = w.host.fs → G w ⟨h', w.log ++ [⟨.call c, r⟩]⟩ ∧ I ⟨h', w.log ++ [⟨.call c, r⟩]⟩
  make : ∀ {w : World} {h' : Host} {p q : Path} (c : Posix.Call) (r : Except Nat (Posix.Val c)), I w →
    prepares c = true → A p → At w.host.fs root p q → MadeDir q w.host.fs h'.fs →
    G w ⟨h', w.log ++ [⟨.call c, r⟩]⟩ ∧ I ⟨h', w.log ++ [⟨.call c, r⟩]⟩

/-- The directories `prepare_destination` may have to make: above the final path, and the state directory. -/
def OnTheWay (root : Path) (filename : Bytes) (p : Path) : Prop :=
  (∃ s, s ≠ [] ∧ p ++ s = root ++ components filename) ∨ p = root ++ [kPartialDirectory]

theorem onTheWay_above {root p : Path} {filename : Bytes} (h : p <+: root) : OnTheWay root filename p := by
  obtain ⟨t, rfl⟩ := h
  exact .inl ⟨t ++ components filename, by simp [components_ne_nil], by simp⟩

/-- `root` is a real directory, at `base`. -/
def RootAt (fs : Fs) (root base : Path) : Prop := fs.resolve root = .ok base ∧ fs.node base = some .dir

theorem RootAt.added {fs fs' : Fs} {root base : Path} (h : RootAt fs root base) (ha : Added fs fs') :
    RootAt fs' root base := ⟨ha.resolve h.1, ha.node_eq h.2⟩

/-- What `prepare_destination` leaves behind when it succeeds. -/
structure Ready (cr : Crypto) (root : Path) (m : UploadMetadata) (prepared : PreparedDestination) (base : Path)
    (h : Host) : Prop where
  finalPath : prepared.finalPath = root ++ components m.filename
  stateRoot : prepared.stateRoot = root ++ [kPartialDirectory]
  partName : prepared.partName = partNameOf (cr.sha256 (encodeUploadMetadata m))
  root : RootAt h.fs root base
  parent : h.fs.node (base ++ (components m.filename).dropLast) = some .dir
  state : h.fs.node (base ++ [kPartialDirectory]) = some .dir
  opened : h.files prepared.directory = some (.directory (base ++ [kPartialDirectory]))
  lt : prepared.directory < h.nextFd

/-- All of the way down to a directory is directories. -/
theorem node_dropLast {fs : Fs} {base s : Path} (hb : fs.node base = some .dir)
    (hs : fs.node (base ++ s) = some .dir) : fs.node (base ++ s.dropLast) = some .dir := by
  rcases List.eq_nil_or_concat s with rfl | ⟨t, a, rfl⟩
  · simpa using hb
  · rw [List.concat_eq_append, ← List.append_assoc] at hs
    rw [List.concat_eq_append, List.dropLast_concat]
    exact fs.node_parent hs

/-- Below a real directory, with real directories in between, a path is where it says. -/
theorem RootAt.resolve {fs : Fs} {root base : Path} (h : RootAt fs root base) (s : Path)
    (hs : fs.node (base ++ s.dropLast) = some .dir) : fs.resolve (root ++ s) = .ok (base ++ s) := by
  induction s using List.reverseRecOn with
  | nil => simpa using h.1
  | append_singleton s n ih =>
    rw [List.dropLast_concat] at hs
    rw [← List.append_assoc, ← List.append_assoc]
    exact resolve_child (ih (node_dropLast h.2 hs)) hs n

/-- The root and everything below it on the way to the final path is a real directory. -/
theorem Ready.typeAt {cr : Crypto} {root base p : Path} {m : UploadMetadata} {prepared : PreparedDestination}
    {h : Host} (R : Ready cr root m prepared base h) (hroot : root <+: p) (hp : p <+: prepared.finalPath)
    (hne : p ≠ prepared.finalPath) : h.fs.typeAt p = .ok .directory := by
  obtain ⟨s, rfl⟩ := hroot
  obtain ⟨t, ht⟩ := hp
  rw [R.finalPath, List.append_assoc] at ht
  have hst := List.append_cancel_left ht
  have htne : t ≠ [] := by
    rintro rfl
    exact hne (by rw [R.finalPath, ← hst, List.append_nil])
  have hdir : h.fs.node (base ++ s) = some .dir := by
    have hpar := R.parent
    rw [← hst, List.dropLast_append_of_ne_nil htne, ← List.append_assoc] at hpar
    by_cases hnil : t.dropLast = []
    · simpa [hnil] using hpar
    · exact h.fs.node_of_append _ _ hnil hpar
  rw [typeAt_of_resolve (R.root.resolve s (node_dropLast R.root.2 hdir)), hdir]
  rfl

theorem validName_partNameOf (digest : List UInt8) : ValidName (partNameOf digest) := by
  have hhex : ∀ b : UInt8, hexDigit b ≠ 47 := by
    intro b
    unfold hexDigit
    by_cases hb : b.toNat < 16
    · have : ∀ k < 16, (bytesOf "0123456789abcdef").getD k 0 ≠ 47 := by decide
      exact this _ hb
    · rw [List.getD_eq_getElem?_getD, List.getElem?_eq_none (Nat.not_lt.mp hb)]
      decide
  refine ⟨by simp [partNameOf, bytesOf], ?_⟩
  rw [partNameOf, List.mem_append, List.mem_flatMap, not_or]
  refine ⟨?_, by decide⟩
  rintro ⟨b, -, hb⟩
  rcases List.mem_cons.mp hb with h | h
  · exact hhex _ h.symm
  · exact hhex _ (List.mem_singleton.mp h).symm

section
variable {cr : Crypto} {rely : net.Rely} {I : World → Prop} {G : World → World → Prop} {A : Path → Prop}
  {root : Path} {w : World}

/-- Each directory on the way is there or is made; in the end `root` leads to a directory. -/
theorem createDirectories_safe (hM : MayMake root A I G) (hA : ∀ p, p <+: root → A p) (rest done : Path)
    (hroot : root = done ++ rest) (hd : ∃ q, w.host.fs.target done = some (q, .dir)) (hI : I w)
    {Q : Except Nat Unit → World → Prop}
    (hQ : ∀ r w', I w' → Added w.host.fs w'.host.fs →
      (r = .ok () → ∃ q, w'.host.fs.target root = some (q, .dir)) → Q r w') :
    Safe (solo (exec cr) rely) G (createDirectories done rest) w Q := by
  induction rest generalizing done w with
  | nil =>
    rw [List.append_nil] at hroot
    exact safe_pure (hQ _ _ hI (.refl _) fun _ => hroot ▸ hd)
  | cons n rest ih =>
    have hroot' : root = (done ++ [n]) ++ rest := by rw [hroot]; simp
    have hpre : done ++ [n] <+: root := ⟨rest, hroot'.symm⟩
    refine safe_sys fun r h' he => ?_
    rcases exec_createDirectory_at he with ⟨rfl, q, hq, hm, -⟩ | ⟨rfl, hr⟩
    · obtain ⟨hg, hI'⟩ := hM.make (.createDirectory (done ++ [n])) (.ok true) hI rfl (hA _ hpre) ⟨hq, .inl hpre⟩ hm
      have htarget := target_of_resolve (hm.added.resolve hq) (by rw [hm.2.1, Function.update_self])
      exact ⟨hg, ih (done ++ [n]) hroot' ⟨q, htarget⟩ hI' fun r w' hI'' ha hok =>
        hQ r w' hI'' (hm.added.trans ha) hok⟩
    · obtain ⟨hg, hI'⟩ := hM.quiet (.createDirectory (done ++ [n])) r hI rfl rfl
      refine ⟨hg, ?_⟩
      cases r with
      | error e => exact safe_pure (hQ _ _ hI' (.refl _) fun h => by cases h)
      | ok b =>
        rcases hr with ⟨e, hr⟩ | hr
        · cases hr
        · exact ih (done ++ [n]) hroot' hr hI' hQ

theorem makeRoot_safe (hM : MayMake root A I G) (hA : ∀ p, p <+: root → A p) (hI : I w)
    {Q : Except PrepareFailure Unit → World → Prop}
    (hQ : ∀ r w', I w' → Added w.host.fs w'.host.fs →
      (r = .ok () → ∃ base, RootAt w'.host.fs root base) → Q r w') :
    Safe (solo (exec cr) rely) G (makeRoot root) w Q := by
  refine safe_sys fun r h' he => ?_
  obtain rfl := exec_looks rfl he
  obtain ⟨hg, hI'⟩ := hM.quiet (.lstat root) r hI rfl rfl
  refine ⟨hg, ?_⟩
  cases r with
  | error errno => exact safe_pure (hQ _ _ hI' (.refl _) fun h => by cases h)
  | ok status =>
    have ht := exec_lstat he
    simp only
    split
    · next hne =>
      split
      · exact safe_pure (hQ _ _ hI' (.refl _) fun h => by cases h)
      · next hd =>
        simp only [not_or, not_not] at hd
        obtain ⟨base, hbase, hdir⟩ := resolve_of_typeAt ht hne
        exact safe_pure (hQ _ _ hI' (.refl _) fun _ => ⟨base, hbase, node_of_typeOf.1 (hdir.trans hd.2)⟩)
    · next hne =>
      rw [not_not.mp hne] at ht
      refine safe_bind (createDirectories_safe hM hA root [] rfl
        ⟨[], target_of_resolve (resolve_of_node (node_nil _)) (node_nil _)⟩ hI' fun r' w' hI'' ha hok => ?_)
      cases r' with
      | error e => exact safe_pure (hQ _ _ hI'' ha fun h => by cases h)
      | ok _ =>
        obtain ⟨q, hq⟩ := hok rfl
        exact safe_pure (hQ _ _ hI'' ha fun _ => ⟨q, resolve_of_target ha ht hq⟩)

/-- From a directory that is really at `base ++ s` on down. -/
theorem makeParents_safe {base : Path} (hM : MayMake root A I G) (rest s : Path)
    (hA : ∀ t, t <+: rest → t ≠ [] → A (root ++ s ++ t)) (hroot : RootAt w.host.fs root base)
    (hs : RootAt w.host.fs (root ++ s) (base ++ s)) (hI : I w) {Q : Except PrepareFailure Path → World → Prop}
    (hQ : ∀ r w', I w' → Added w.host.fs w'.host.fs →
      (∀ p, r = .ok p → p = root ++ s ++ rest ∧ RootAt w'.host.fs p (base ++ s ++ rest)) → Q r w') :
    Safe (solo (exec cr) rely) G (makeParents (root ++ s) rest) w Q := by
  induction rest generalizing s w with
  | nil => exact safe_pure (hQ _ _ hI (.refl _) fun p h => by cases h; simpa using hs)
  | cons n rest ih =>
    have hchild := resolve_child hs.1 hs.2 n
    have hA' : ∀ t, t <+: rest → t ≠ [] → A (root ++ (s ++ [n]) ++ t) := fun t ht _ => by
      simpa using hA (n :: t) (List.cons_prefix_cons.mpr ⟨rfl, ht⟩) (by simp)
    -- one level down, in a world where the directory is there
    have down : ∀ {w1 : World}, I w1 → Added w.host.fs w1.host.fs →
        w1.host.fs.node (base ++ s ++ [n]) = some .dir →
        Safe (solo (exec cr) rely) G (makeParents (root ++ s ++ [n]) rest) w1 Q := by
      intro w1 hI1 ha hdir
      have hs1 : RootAt w1.host.fs (root ++ (s ++ [n])) (base ++ (s ++ [n])) := by
        rw [← List.append_assoc, ← List.append_assoc]
        exact ⟨ha.resolve hchild, hdir⟩
      rw [List.append_assoc]
      exact ih (s ++ [n]) hA' (hroot.added ha) hs1 hI1 fun r w' hI' ha' hok =>
        hQ r w' hI' (ha.trans ha') fun p hp => by simpa using hok p hp
    refine safe_sys fun r h' he => ?_
    obtain rfl := exec_looks rfl he
    obtain ⟨hg, hI1⟩ := hM.quiet (.lstat (root ++ s ++ [n])) r hI rfl rfl
    refine ⟨hg, ?_⟩
    cases r with
    | error errno => exact safe_pure (hQ _ _ hI1 (.refl _) fun p h => by cases h)
    | ok status =>
      have ht : typeOf (w.host.fs.node (base ++ s ++ [n])) = status :=
        Except.ok.inj ((typeAt_of_resolve hchild).symm.trans (exec_lstat he))
      simp only
      split
      · split
        · exact safe_pure (hQ _ _ hI1 (.refl _) fun p h => by cases h)
        · next hdir =>
          simp only [not_or, not_not] at hdir
          exact down hI1 (.refl _) (node_of_typeOf.1 (ht.trans hdir.2))
      · next hne =>
        refine safe_sys fun r' h' he' => ?_
        rcases exec_createDirectory_at he' with ⟨rfl, q, hq, hm, -⟩ | ⟨rfl, hr⟩
        · obtain rfl : q = base ++ s ++ [n] := Except.ok.inj (hq.symm.trans hchild)
          obtain ⟨hg, hI2⟩ := hM.make (.createDirectory (root ++ s ++ [n])) (.ok true) hI1 rfl
            (hA [n] (List.cons_prefix_cons.mpr ⟨rfl, List.nil_prefix⟩) (by simp))
            ⟨hq, .inr ⟨base, s ++ [n], hroot.1, by simp, by simp⟩⟩ hm
          exact ⟨hg, down hI2 hm.added (by rw [hm.2.1, Function.update_self])⟩
        · obtain ⟨hg, hI2⟩ := hM.quiet (.createDirectory (root ++ s ++ [n])) r' hI1 rfl rfl
          refine ⟨hg, ?_⟩
          cases r' with
          | error e => exact safe_pure (hQ _ _ hI2 (.refl _) fun p h => by cases h)
          | ok b =>
            rcases hr with ⟨e, hr⟩ | ⟨q, hq⟩
            · cases hr
            · -- nothing was there a moment ago
              have htype : w.host.fs.typeAt (root ++ s ++ [n]) = .ok .notFound := by
                rw [typeAt_of_resolve hchild, ht, not_not.mp hne]
              have hdir := resolve_of_target (.refl _) htype hq
              obtain rfl : q = base ++ s ++ [n] := Except.ok.inj (hdir.1.symm.trans hchild)
              exact down hI2 (.refl _) hdir.2

theorem openStateRoot_safe {base : Path} (hM : MayMake root A I G) (hA : A (root ++ [kPartialDirectory]))
    (hroot : RootAt w.host.fs root base) (hI : I w) {Q : Except PrepareFailure Fd → World → Prop}
    (hQ : ∀ r w', I w' → Added w.host.fs w'.host.fs →
      (∀ fd, r = .ok fd → w'.host.fs.node (base ++ [kPartialDirectory]) = some .dir ∧
        w'.host.files fd = some (.directory (base ++ [kPartialDirectory])) ∧ fd < w'.host.nextFd) → Q r w') :
    Safe (solo (exec cr) rely) G (openStateRoot (root ++ [kPartialDirectory])) w Q := by
  have hchild := resolve_child hroot.1 hroot.2 kPartialDirectory
  refine safe_sys fun r h' he => ?_
  let w1 : World := ⟨h', w.log ++ [⟨.call (.mkdir (root ++ [kPartialDirectory])), r⟩]⟩
  have hmade : (G w w1 ∧ I w1) ∧ Added w.host.fs h'.fs := by
    rcases exec_mkdir_at he with ⟨rfl, q, hq, hm, -⟩ | rfl
    · obtain rfl : q = base ++ [kPartialDirectory] := Except.ok.inj (hq.symm.trans hchild)
      exact ⟨hM.make _ _ hI rfl hA ⟨hq, .inr ⟨base, _, hroot.1, rfl, rfl⟩⟩ hm, hm.added⟩
    · exact ⟨hM.quiet _ _ hI rfl rfl, .refl _⟩
  obtain ⟨⟨hg, hI1⟩, ha⟩ := hmade
  refine ⟨hg, ?_⟩
  cases r with
  | error e => exact safe_pure (hQ _ _ hI1 ha fun fd h => by cases h)
  | ok b =>
    refine safe_sys fun r' h'' he' => ?_
    cases r' with
    | error e =>
      have hfs := (exec_error he').1
      obtain ⟨hg, hI2⟩ := hM.quiet (.openDir (root ++ [kPartialDirectory])) (.error e) hI1 rfl hfs
      exact ⟨hg, safe_pure (hQ _ _ hI2 (by rw [hfs]; exact ha) fun fd h => by cases h)⟩
    | ok fd =>
      obtain ⟨q, hq, hdir, rfl, rfl⟩ := exec_openDir_at he'
      obtain rfl : q = base ++ [kPartialDirectory] := Except.ok.inj (hq.symm.trans (ha.resolve hchild))
      obtain ⟨hg, hI2⟩ := hM.quiet (.openDir (root ++ [kPartialDirectory])) (.ok h'.nextFd) hI1 rfl
        (Host.opened_fs h' _)
      refine ⟨hg, safe_pure (hQ _ _ hI2 ha fun fd h => ?_)⟩
      cases h
      exact ⟨hdir, by simp, Nat.lt_succ_self _⟩

theorem exec_digest {cr : Crypto} {h h' : Host} {b d : Bytes}
    (he : exec cr (.digest b) h (.ok d) = some h') : d = cr.sha256 b := by
  simp only [exec, succeed] at he
  split at he
  · next hd => exact hd
  · cases he

/-- **Preparation.**  Only directories on the way are made; a success leaves the destination ready. -/
theorem prepareDestination_safe {m : UploadMetadata} (hM : MayMake root (OnTheWay root m.filename) I G) (hI : I w)
    {Q : Except PrepareFailure PreparedDestination → World → Prop}
    (hQ : ∀ r w', I w' → (∀ prepared, r = .ok prepared → ∃ base, Ready cr root m prepared base w'.host) → Q r w') :
    Safe (solo (exec cr) rely) G (prepareDestination root m) w Q := by
  have hne := components_ne_nil m.filename
  have hcomponents : (components m.filename).dropLast ++ [(components m.filename).getLastD []] =
      components m.filename := by
    rw [List.getLastD_eq_getLast?, List.getLast?_eq_some_getLast hne, Option.getD_some,
      List.dropLast_append_getLast hne]
  refine safe_bind (makeRoot_safe hM (fun p => onTheWay_above) hI fun r w1 hI1 _ hroot => ?_)
  cases r with
  | error f => exact safe_pure (hQ _ _ hI1 fun p h => by cases h)
  | ok _ =>
    obtain ⟨base, hbase⟩ := hroot rfl
    have hbase' : RootAt w1.host.fs (root ++ []) (base ++ []) := by simpa using hbase
    have hway : ∀ t, t <+: (components m.filename).dropLast → t ≠ [] →
      OnTheWay root m.filename (root ++ [] ++ t) := by
      rintro t ⟨s, hs⟩ -
      refine .inl ⟨s ++ [(components m.filename).getLastD []], by simp, ?_⟩
      rw [← hcomponents, ← hs]
      simp
    have hparents : Safe (solo (exec cr) rely) G (makeParents (root ++ []) (components m.filename).dropLast) w1
        fun r w' => I w' ∧ RootAt w'.host.fs root base ∧ ∀ p, r = .ok p →
          p = root ++ (components m.filename).dropLast ∧
            w'.host.fs.node (base ++ (components m.filename).dropLast) = some .dir :=
      makeParents_safe hM _ [] hway hbase hbase' hI1 fun r w' hI' ha hok => ⟨hI', hbase.added ha, fun p hp => by
        obtain ⟨h1, h2⟩ := hok p hp
        rw [List.append_nil] at h1 h2
        exact ⟨h1, h2.2⟩⟩
    rw [List.append_nil] at hparents
    refine safe_bind (safe_mono hparents fun r w2 ⟨hI2, hbase2, hpar⟩ => ?_)
    cases r with
    | error f => exact safe_pure (hQ _ _ hI2 fun p h => by cases h)
    | ok parent =>
      obtain ⟨rfl, hdir⟩ := hpar parent rfl
      refine safe_sys fun r h' he => ?_
      obtain rfl := exec_looks rfl he
      obtain ⟨hg, hI3⟩ := hM.quiet (.digest (encodeUploadMetadata m)) r hI2 rfl rfl
      refine ⟨hg, ?_⟩
      cases r with
      | error e => exact safe_pure (hQ _ _ hI3 fun p h => by cases h)
      | ok digest =>
        obtain rfl := exec_digest he
        refine safe_bind (openStateRoot_safe (w := w2.push ⟨.call (.digest _), .ok _⟩) hM (.inr rfl) hbase2 hI3
          fun r w3 hI4 ha hst => ?_)
        cases r with
        | error f => exact safe_pure (hQ _ _ hI4 fun p h => by cases h)
        | ok fd =>
          obtain ⟨h1, h2, h3⟩ := hst fd rfl
          refine safe_pure (hQ _ _ hI4 fun p h => ⟨base, ?_⟩)
          cases h
          exact {
            finalPath := by rw [List.append_assoc, hcomponents]
            stateRoot := rfl
            partName := rfl
            root := hbase2.added ha
            parent := ha.node_eq hdir
            state := h1
            opened := h2
            lt := h3 }

end

end SyncWire
