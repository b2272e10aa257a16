import SyncWire.Calm
import SyncWire.Receive.Runs

/-!
# `receive_file` where nothing fails

A destination that is `Fit` for an upload lets every call before the ready message
succeed: the directories on the way are there or can be made, the budget holds, the part
file is ours.  Each stage ends, and is told exactly what it leaves behind; while the part
file is open that is `Storing`.
-/

namespace SyncWire

open Wire Effect Posix Posix.Fs FileTransfer

/-- Every name on the way of `create_directories` is a directory or missing: it succeeds.  `I` is
whatever holds of the host and survives making such a directory. -/
theorem createDirectories_calmly {cr : Crypto} {root : Path} {I : Host → Prop}
    (hI : ∀ h fs' p, I h → p <+: root → MadeDir p h.fs fs' → I { h with fs := fs' })
    (hway : ∀ h p, I h → p <+: root → h.fs.node p = some .dir ∨ h.fs.node p = none)
    (hnames : ∀ n ∈ root, ValidName n) (rest done : Path) (w : World) (hroot : root = done ++ rest)
    (hd : w.host.fs.node done = some .dir) (hw : I w.host) :
    Calmly cr (createDirectories done rest) w fun r w' =>
      r = .ok () ∧ I w'.host ∧ w'.host.fs.node root = some .dir := by
  induction rest generalizing done w with
  | nil =>
    rw [List.append_nil] at hroot
    exact total_pure ⟨rfl, hw, hroot ▸ hd⟩
  | cons n rest ih =>
    have hpre : done ++ [n] <+: root := ⟨rest, by rw [hroot]; simp⟩
    have hroot' : root = (done ++ [n]) ++ rest := by rw [hroot]; simp
    have hn := hway _ _ hw hpre
    obtain ⟨b, h₀, hcan⟩ := @createDirectory_can cr _ _ _ hd hn (hnames n (by rw [hroot]; simp))
    refine calmly_ok rfl hcan fun b h' he => ?_
    have hl : ∀ t, w.host.fs.node (done ++ [n]) ≠ some (.symlink t) := by
      intro t ht
      rw [ht] at hn
      simp at hn
    rcases exec_createDirectory_ok hd hl he with ⟨rfl, hdir⟩ | ⟨fs', hm, rfl⟩
    · exact ih (done ++ [n]) _ hroot' hdir hw
    · exact ih (done ++ [n]) _ hroot' (by rw [hm.2.1, Function.update_self]) (hI _ _ _ hw hpre hm)

namespace Upload

variable {u : Upload} {w : World} {d f : Fd} {i : Nat} {P D : Bytes}

/-- A destination that accepts the upload; the part file holds `P` (nothing, if there is none). -/
structure Fit (u : Upload) (h : Host) (P : Bytes) : Prop where
  names : ∀ n ∈ u.root, ValidName n
  way : ∀ p s, s ≠ [] → p ++ s = u.finalPath → h.fs.node p = some .dir ∨ h.fs.node p = none
  state : h.fs.node u.stateRoot = some .dir ∨ h.fs.node u.stateRoot = none
  final : h.fs.node u.finalPath ≠ some .dir
  others : ∀ n ∈ u.others h.fs, ∃ i, h.fs.node (u.stateRoot ++ [n]) = some (.file i)
  budget : u.Budget h.fs
  part : (h.fs.node u.partPath = none ∧ P = []) ∨
    ∃ i, u.OnlyName h.fs i ∧ (h.fs.inode i).uid = h.euid ∧ (h.fs.inode i).data = P

theorem Fit.aboveRoot {h : Host} (F : u.Fit h P) {p : Path} (hp : p <+: u.root) :
    h.fs.node p = some .dir ∨ h.fs.node p = none := by
  obtain ⟨t, ht⟩ := hp
  refine F.way p (t ++ components u.metadata.filename) (by simp [components_ne_nil]) ?_
  rw [← List.append_assoc, ht, finalPath]

/-- Making a directory on the way keeps it fit. -/
theorem Fit.makeDir {h : Host} {fs' : Fs} {p : Path} (hsafe : isSafeRemotePath u.metadata.filename = true)
    (F : u.Fit h P) (hp : u.OnTheWay p) (hm : MadeDir p h.fs fs') : u.Fit { h with fs := fs' } P := by
  have hnode : ∀ q, fs'.node q = some .dir ∨ fs'.node q = h.fs.node q := by
    intro q
    rw [hm.2.1, Function.update_apply]
    split
    · exact .inl rfl
    · exact .inr rfl
  have hstate : ∀ n, fs'.node (u.stateRoot ++ [n]) = h.fs.node (u.stateRoot ++ [n]) := fun n => by
    rw [hm.2.1, Function.update_of_ne (onTheWay_ne_state hsafe hp n)]
  have hothers : u.others fs' = u.others h.fs := by
    ext n
    simp only [Upload.others, Finset.mem_erase, mem_names, hstate]
  refine ⟨F.names, fun q s hs he => ?_, ?_, ?_, ?_, ?_, ?_⟩
  · rcases hnode q with hq | hq
    · exact .inl hq
    · exact hq ▸ F.way q s hs he
  · rcases hnode u.stateRoot with hq | hq
    · exact .inl hq
    · exact hq ▸ F.state
  · rw [hm.2.1, Function.update_of_ne (by rintro rfl; exact not_onTheWay_final hsafe hp)]
    exact F.final
  · intro n hn
    rw [hothers] at hn
    obtain ⟨i, hi⟩ := F.others n hn
    exact ⟨i, (hstate n).trans hi⟩
  · exact F.budget.congr (fun n _ => hstate n) fun n _ => hm.fileAt_eq _
  · refine F.part.imp (fun h => ⟨(hstate _).trans h.1, h.2⟩) ?_
    rintro ⟨i, honly, huid, hdata⟩
    refine ⟨i, fun q => ?_, by rw [hm.2.2]; exact ⟨huid, hdata⟩⟩
    by_cases hq : q = p
    · subst hq
      refine ⟨fun h => ?_, fun h => absurd h.symm (onTheWay_ne_state hsafe hp _)⟩
      rw [hm.2.1, Function.update_self] at h
      cases h
    · rw [← honly q, hm.2.1, Function.update_of_ne hq]

/-! ## `prepare_destination` -/

theorem typeAt_way {fs : Fs} {p : Path}
    (h : ∀ q s, s ≠ [] → q ++ s = p → fs.node q = some .dir ∨ fs.node q = none) :
    fs.typeAt p = .ok (typeOf (fs.node p)) := by
  unfold Fs.typeAt
  rcases resolve_way h with hr | ⟨hr, hn⟩
  · rw [hr]
  · rw [hr, hn]
    rfl

theorem makeRoot_calmly (hsafe : isSafeRemotePath u.metadata.filename = true) (F : u.Fit w.host P) :
    Calmly u.cr (makeRoot u.root) w fun r w' =>
      r = .ok () ∧ u.Fit w'.host P ∧ w'.host.fs.node u.root = some .dir := by
  have ht : w.host.fs.typeAt u.root = .ok (typeOf (w.host.fs.node u.root)) :=
    typeAt_way fun q s _ he => F.aboveRoot ⟨s, he⟩
  refine calmly_look rfl (lstat_can ht) fun t he => ?_
  obtain rfl := Except.ok.inj (ht.symm.trans (exec_lstat he))
  rcases F.aboveRoot (List.prefix_refl _) with hroot | hroot
  · rw [hroot]
    exact total_pure ⟨rfl, F, hroot⟩
  · rw [hroot]
    refine total_bind (total_mono (createDirectories_calmly (I := fun h => u.Fit h P)
      (fun h fs' p F hp hm => F.makeDir hsafe (onTheWay_aboveRoot hp) hm) (fun h p F hp => F.aboveRoot hp)
      F.names u.root [] (w.push ⟨.call (.lstat u.root), _⟩) rfl w.host.fs.node_nil F) ?_)
    rintro r w' ⟨rfl, F', hdir⟩
    exact total_pure ⟨rfl, F', hdir⟩

theorem makeParents_calmly (hsafe : isSafeRemotePath u.metadata.filename = true) (rest parent s : Path)
    (hs : s ≠ []) (hfinal : parent ++ rest ++ s = u.finalPath) (hnames : ∀ n ∈ rest, ValidName n)
    (F : u.Fit w.host P) (hd : w.host.fs.node parent = some .dir) :
    Calmly u.cr (makeParents parent rest) w fun r w' => r = .ok (parent ++ rest) ∧ u.Fit w'.host P ∧
      w'.host.fs.node (parent ++ rest) = some .dir ∧ Grows w.host.fs w'.host.fs := by
  induction rest generalizing parent w with
  | nil => exact total_pure ⟨by simp, F, by simpa using hd, .refl _⟩
  | cons n rest ih =>
    have hfinal' : (parent ++ [n]) ++ rest ++ s = u.finalPath := by rw [← hfinal]; simp
    have hway : u.OnTheWay (parent ++ [n]) := .inl ⟨rest ++ s, by simp [hs], by rw [← hfinal]; simp⟩
    have hnames' : ∀ m ∈ rest, ValidName m := fun m hm => hnames m (List.mem_cons_of_mem _ hm)
    have hnode := F.way (parent ++ [n]) (rest ++ s) (by simp [hs]) (by rw [← hfinal]; simp)
    have ht : w.host.fs.typeAt (parent ++ [n]) = .ok (typeOf (w.host.fs.node (parent ++ [n]))) := by
      rw [Fs.typeAt, resolve_eq (by rwa [List.dropLast_concat])]
    refine calmly_look rfl (lstat_can ht) fun t he => ?_
    obtain rfl := Except.ok.inj (ht.symm.trans (exec_lstat he))
    rw [List.append_cons parent n rest]
    rcases hnode with hn | hn
    · rw [hn]
      exact ih (w := w.push _) _ hfinal' hnames' F hn
    · rw [hn]
      obtain ⟨b, h₀, hcan⟩ := @createDirectory_can u.cr _ _ _ hd (.inr hn) (hnames n (List.mem_cons_self ..))
      refine calmly_ok rfl hcan fun b h' he => ?_
      rcases exec_createDirectory_ok hd (fun t ht => by simp [hn] at ht) he with ⟨rfl, hdir⟩ | ⟨fs', hm, rfl⟩
      · exact absurd (hn.symm.trans hdir) (by simp)
      · refine total_mono (ih _ hfinal' hnames' (F.makeDir hsafe hway hm) ?_) ?_
        · rw [hm.2.1, Function.update_self]
        · rintro r w' ⟨hr, F', hdir, hg⟩
          exact ⟨hr, F', hdir, hm.grows.trans hg⟩

theorem validName_partial : ValidName kPartialDirectory := by decide

theorem openStateRoot_calmly (hsafe : isSafeRemotePath u.metadata.filename = true) (F : u.Fit w.host P)
    (hd : w.host.fs.node u.root = some .dir) :
    Calmly u.cr (openStateRoot u.stateRoot) w fun r w' => ∃ fd, r = .ok fd ∧ u.Fit w'.host P ∧
      w'.host.fs.node u.stateRoot = some .dir ∧ w'.host.files fd = some (.directory u.stateRoot) ∧
      fd < w'.host.nextFd ∧ Grows w.host.fs w'.host.fs := by
  have hcan : ∃ b h', exec u.cr (.mkdir u.stateRoot) w.host (.ok b) = some h' := by
    rcases F.state with hn | hn
    · exact ⟨false, w.host, by simp [exec, succeed, typeAt_of_node hn, typeOf]⟩
    · obtain ⟨fs', hfs⟩ := mkdir_can hd hn validName_partial
      exact ⟨true, { w.host with fs := fs' }, by simp [exec, succeed, stateRoot, hfs]⟩
  obtain ⟨b, h₀, hcan⟩ := hcan
  refine calmly_ok rfl hcan fun b h' he => ?_
  have hmade : u.Fit h' P ∧ h'.fs.node u.stateRoot = some .dir ∧ Grows w.host.fs h'.fs := by
    cases b with
    | true =>
      simp only [exec, succeed, Option.map_eq_some_iff] at he
      obtain ⟨fs', hfs, rfl⟩ := he
      have hm := mkdir_made (plain_child kPartialDirectory hd) hfs
      refine ⟨F.makeDir hsafe (.inr rfl) hm, ?_, hm.grows⟩
      change fs'.node (u.root ++ [kPartialDirectory]) = some .dir
      rw [hm.2.1, Function.update_self]
    | false =>
      rcases F.state with hn | hn
      · simp only [exec, succeed, typeAt_of_node hn, typeOf, reduceCtorEq, if_false, Option.some.injEq] at he
        subst he
        exact ⟨F, hn, .refl _⟩
      · have ht : w.host.fs.typeAt u.stateRoot = .ok .notFound := by
          rw [Fs.typeAt, stateRoot, resolve_eq (by rwa [List.dropLast_concat])]
          change Except.ok (typeOf (w.host.fs.node u.stateRoot)) = _
          rw [hn]
          rfl
        simp [exec, succeed, ht] at he
  obtain ⟨F', hdir, hg⟩ := hmade
  refine calmly_ok rfl (openDir_can hdir) fun fd h'' he' => ?_
  obtain ⟨-, rfl, rfl⟩ := exec_openDir (plain_child kPartialDirectory (hg.1 _ hd)) he'
  refine total_pure ⟨_, rfl, ?_, hdir, by simp [stateRoot], Nat.lt_succ_self _, hg⟩
  exact ⟨F'.names, F'.way, F'.state, F'.final, F'.others, F'.budget, F'.part⟩

theorem validName_component {path : List UInt8} (h : isSafeRemotePath path = true) :
    ∀ n ∈ components path, ValidName n := by
  intro n hn
  refine ⟨?_, slash_notMem_component path n hn⟩
  rintro rfl
  exact absurd (((isSafeRemotePath_iff _).mp h).2.2 _ hn) (by decide)

theorem prepareDestination_calmly (hsafe : isSafeRemotePath u.metadata.filename = true)
    (F : u.Fit w.host P) :
    Calmly u.cr (prepareDestination u.root u.metadata) w fun r w' =>
      ∃ fd, r = .ok (u.transfer fd 0).prepared ∧ u.Prepared w'.host fd ∧ u.Fit w'.host P := by
  refine total_bind (total_mono (makeRoot_calmly hsafe F) ?_)
  rintro r w1 ⟨rfl, F1, hroot⟩
  refine total_bind (total_mono (makeParents_calmly hsafe _ _ [(components u.metadata.filename).getLastD []]
    (by simp) (finalPath_eq u) (fun n hn => validName_component hsafe n (List.dropLast_subset _ hn)) F1 hroot) ?_)
  rintro r w2 ⟨rfl, F2, hdir, hg⟩
  have hcan : exec u.cr (.digest (encodeUploadMetadata u.metadata)) w2.host
      (.ok (u.cr.sha256 (encodeUploadMetadata u.metadata))) = some w2.host := by simp [exec, succeed]
  refine calmly_look rfl hcan fun digest he => ?_
  obtain rfl := exec_digest he
  refine total_bind (total_mono (openStateRoot_calmly (w := w2.push _) hsafe F2 (hg.1 _ hroot)) ?_)
  rintro r w3 ⟨fd, rfl, F3, hstate, hfd, hlt, hg3⟩
  refine total_pure ⟨fd, ?_, ⟨hstate, hfd, hlt, ?_⟩, F3⟩
  · simp only [transfer, Except.ok.injEq, PreparedDestination.mk.injEq, and_true]
    exact ⟨finalPath_eq u, rfl, rfl⟩
  · rw [dropLast_finalPath]
    exact hg3.1 _ hdir

/-! ## `within_partial_budget` -/

theorem withinPartialBudget_calmly {fd : Fd} (F : u.Fit w.host P)
    (hst : w.host.fs.node u.stateRoot = some .dir) :
    Calmly u.cr (withinPartialBudget (u.transfer fd 0).prepared u.metadata u.limits) w fun r w' =>
      r = true ∧ w'.host = w.host := by
  have hdir : RootAt w.host.fs (u.transfer fd 0).prepared.stateRoot u.stateRoot := ⟨resolve_of_node hst, hst⟩
  refine total_mono (withinPartialBudget_decides hdir) ?_
  rintro r w' ⟨hh, hiff⟩
  refine ⟨hiff.mpr ⟨F.others, F.budget.2, ?_⟩, hh⟩
  rw [Nat.add_comm]
  exact F.budget.1

end Upload

end SyncWire
