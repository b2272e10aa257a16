import SyncWire.Receive.Runs
import SyncWire.Send.Calm
import SyncWire.Sync.Scan

/-!
# A scan is a function of the tree

Every scan returns (`scanDirectory_returns`).  One in which nothing fails succeeds
exactly on a scannable tree (`scanDirectory_calmly`); what it returns does not depend on the order in which the
iterator finds the entries (`scan_of_tree`).  The size it keeps count of is that of the
encoded manifest (`scan_accounts_manifest`).
-/

namespace SyncWire

open Wire Effect Posix Posix.Fs FileTransfer

/-! ## Scans end -/

section
variable {cr : Crypto} {fs : Fs} {root p : Path} {limits : DirectoryScanLimits}

theorem scanDirectory_ends {w : World} (hroot : w.host.fs.node root = some .dir) :
    Calmly cr (scanDirectory root limits) w (ScanEnd (fun _ => True) (fun _ => False) limits w.host.fs root) := by
  have ht : w.host.fs.typeAt root = .ok .directory := by rw [typeAt_of_node hroot, typeOf]
  exact scanDirectory_spec permits_calm trivial (plain_of_isPrefix (plain_child [] hroot) (List.prefix_append _ _))
    ⟨.ok .directory, _, permits_calm.grants rfl, lstat_can ht⟩

/-- **Scans end.**  A scan in which nothing fails succeeds exactly on a scannable tree. -/
theorem scanDirectory_calmly {w : World} (hroot : w.host.fs.node root = some .dir) :
    Calmly cr (scanDirectory root limits) w fun r w' => w'.host.fs = w.host.fs ∧
      ((∃ s, r = .ok s ∧ s.files = listing w.host.fs root) ∧ Scannable limits w.host.fs root ∨
        (∃ failure, r = .error failure) ∧ ¬ Scannable limits w.host.fs root) := by
  refine total_mono (scanDirectory_ends hroot) ?_
  rintro (failure | s) w' ⟨hfs, hpost⟩
  · exact ⟨hfs, .inr ⟨⟨failure, rfl⟩, (hpost.resolve_left id).2⟩⟩
  · obtain ⟨-, hscan, rfl⟩ := hpost
    exact ⟨hfs, .inl ⟨⟨_, rfl, rfl⟩, hscan⟩⟩

theorem admits_anything : Admits (fun _ => True) fun _ _ => True := ⟨fun _ _ => trivial, fun _ _ _ => trivial⟩

end

/-! With any answers, and a root that may be a path through links: the walk ends because every turn takes a node
off the ones that are left. -/

/-- A path that leads to something. -/
def Leads (fs : Fs) (p : Path) : Prop := ∃ q, fs.resolve p = .ok q ∧ fs.node q ≠ none

/-- Where paths lead. -/
def places (fs : Fs) (pending : List Path) : List Path := pending.filterMap fun p => (fs.resolve p).toOption

section
variable {fs : Fs} {p q : Path}

theorem places_cons (hq : fs.resolve p = .ok q) (rest : List Path) :
    places fs (p :: rest) = q :: places fs rest := by
  simp [places, hq, Except.toOption]

theorem places_children (hq : fs.resolve p = .ok q) (hd : fs.node q = some .dir) (names : List Name)
    (rest : List Path) :
    places fs (names.map (fun n => p ++ [n]) ++ rest) = names.map (fun n => q ++ [n]) ++ places fs rest := by
  induction names with
  | nil => rfl
  | cons n names ih =>
    rw [List.map_cons, List.cons_append, places_cons (resolve_child hq hd n), ih, List.map_cons, List.cons_append]

/-- The entries of a directory lead to something. -/
theorem leads_children (hq : fs.resolve p = .ok q) (hd : fs.node q = some .dir) {names : List Name}
    (hn : names.Perm (fs.children q)) : ∀ x ∈ names.map (fun n => p ++ [n]), Leads fs x := by
  intro x hx
  obtain ⟨n, hmem, rfl⟩ := List.mem_map.mp hx
  exact ⟨q ++ [n], resolve_child hq hd n, mem_children.mp (hn.mem_iff.mp hmem)⟩

/-- What `lstat` calls a directory is one. -/
theorem resolve_of_directory (ht : fs.typeAt p = .ok .directory) :
    ∃ q, fs.resolve p = .ok q ∧ fs.node q = some .dir := by
  obtain ⟨q, hq, hn⟩ := resolve_of_typeAt ht (by decide)
  refine ⟨q, hq, ?_⟩
  cases h : fs.node q with
  | none => rw [h] at hn; cases hn
  | some x => cases x <;> rw [h] at hn <;> first | rfl | cases hn

end

section
variable {cr : Crypto} {root : Path} {limits : DirectoryScanLimits}

/-- What only reads leaves the files as they are. -/
theorem Does.reading {α : Type} {p : Sys α} {R : α → Prop} (h : Does ReadCall p R) (cr : Crypto) (w : World) :
    Total (onHost cr) p w fun a w' => R a ∧ w'.host.fs = w.host.fs := by
  refine total_mono ((h.total unrestricted_anything cr w).and_safe
    (safe_reading (Q := fun _ w' => w'.host.fs = w.host.fs) h.uses admits_anything trivial
      fun _ _ _ hfs _ => hfs)) ?_
  rintro a w' ⟨⟨-, ha⟩, hfs⟩
  exact ⟨ha, hfs⟩

/-- What is to be visited leads to something. -/
structure Walking (fs : Fs) (s : ScanState) (w : World) : Prop where
  same : w.host.fs = fs
  leads : ∀ p ∈ s.pending, Leads fs p

/-- A turn of the scan takes a node off the ones that are left. -/
theorem scanStep_total {fs : Fs} {s : ScanState} {w : World} (H : Walking fs s w) :
    Total (onHost cr) (scanStep root limits s) w fun x w' =>
      x.elim (fun s' => Walking fs s' w' ∧
        nodesLeft fs (places fs s'.pending) < nodesLeft fs (places fs s.pending)) fun _ => True := by
  obtain ⟨pending, result, encodedSize⟩ := s
  obtain ⟨rfl, hp⟩ := H
  cases pending with
  | nil => exact total_pure trivial
  | cons entry rest =>
    obtain ⟨q, hq, hne⟩ := hp entry List.mem_cons_self
    have hrest : ∀ p ∈ rest, Leads w.host.fs p := fun p hmem => hp p (List.mem_cons_of_mem _ hmem)
    -- a turn that leaves the rest
    have past : ∀ {p : Sys (ScanState ⊕ Except ScanFailure DirectoryScan)} {v : World}, v.host.fs = w.host.fs →
        Does ReadCall p (Past rest) → Total (onHost cr) p v fun x w' =>
          x.elim (fun s' => Walking w.host.fs s' w' ∧ nodesLeft w.host.fs (places w.host.fs s'.pending) <
            nodesLeft w.host.fs (places w.host.fs (entry :: rest))) fun _ => True := by
      intro p v hv hpast
      refine total_mono (hpast.reading cr v) ?_
      rintro (s' | _) w' ⟨hs', hfs⟩
      · refine ⟨⟨hfs.trans hv, ?_⟩, ?_⟩
        · rw [show s'.pending = rest from hs']
          exact hrest
        · rw [show s'.pending = rest from hs', places_cons hq]
          exact nodesLeft_skip hne _
      · trivial
    have hskip : ∀ result encodedSize, Does ReadCall (increment entry false rest result encodedSize) (Past rest) :=
      fun _ _ => (increment_does _ false _ _ _).mono (fun _ _ _ ho => ho) fun _ _ hx => hx rfl
    unfold scanStep
    dsimp only
    split
    · exact past rfl (hskip _ _)
    · refine total_sys fun r h' he => ?_
      obtain rfl := exec_looks rfl he
      cases r with
      | error errno => exact total_pure trivial
      | ok type =>
        cases type with
        | notFound => exact total_pure trivial
        | symlink => exact past rfl (hskip _ _)
        | other => exact past rfl (hskip _ _)
        | regular => exact past rfl (recordFile_does _ _ _ _ _ _)
        | directory =>
          obtain ⟨q', hq', hdir⟩ := resolve_of_directory (exec_lstat he)
          obtain rfl : q = q' := Except.ok.inj (hq.symm.trans hq')
          refine total_sys fun r h' he' => ?_
          obtain rfl := exec_looks rfl he'
          cases r with
          | error errno => exact total_pure trivial
          | ok names =>
            have hn := exec_listDir_target (target_of_resolve hq hdir) he'
            refine total_pure ⟨⟨rfl, fun p hmem => ?_⟩, ?_⟩
            · rcases List.mem_append.mp hmem with hmem | hmem
              · exact leads_children hq hdir hn p hmem
              · exact hrest p hmem
            · rw [places_children hq hdir, places_cons hq]
              exact nodesLeft_descend hne hn _

theorem scanDirectory_returns (root : Path) (limits : DirectoryScanLimits) :
    Returns onHost (scanDirectory root limits) := by
  intro cr w
  refine total_sys fun r h' he => ?_
  obtain rfl := exec_looks rfl he
  cases r with
  | error errno => exact total_pure trivial
  | ok rootStatus =>
    dsimp only
    split
    · exact total_pure trivial
    · next hstatus =>
      obtain rfl : rootStatus = .directory := not_not.mp hstatus
      obtain ⟨q, hq, hdir⟩ := resolve_of_directory (exec_lstat he)
      refine total_sys fun r h' he' => ?_
      obtain rfl := exec_looks rfl he'
      cases r with
      | error errno => exact total_pure trivial
      | ok names =>
        have hn := exec_listDir_target (target_of_resolve hq hdir) he'
        refine total_bind ?_
        refine total_iter (Walking w.host.fs) (fun s _ => nodesLeft w.host.fs (places w.host.fs s.pending)) ?_
          ⟨rfl, leads_children hq hdir hn⟩
        intro s w' H
        refine total_mono (scanStep_total H) fun x w'' hx => ?_
        cases x with
        | inl s' => exact hx
        | inr r => cases r <;> exact total_pure (Q := fun _ _ => True) trivial

theorem scanDirectory_issues (root : Path) (limits : DirectoryScanLimits) :
    Issues ReadCall (scanDirectory root limits) :=
  ⟨uses_scanDirectory root limits, scanDirectory_returns root limits⟩

end

/-! ## The tree alone -/

/-- The trees below `root` differ only in what is called `kPartialDirectory` or is below such a thing. -/
def SameBeside (root : Path) (fs fs' : Fs) : Prop :=
  ∀ rel, kPartialDirectory ∉ rel →
    typeOf (fs'.node (root ++ rel)) = typeOf (fs.node (root ++ rel)) ∧
      fs'.fileAt (root ++ rel) = fs.fileAt (root ++ rel)

section
variable {fs fs' : Fs} {root : Path} {limits : DirectoryScanLimits}

theorem SameBeside.treeFiles_perm (h : SameBeside root fs fs') :
    (treeFiles fs' root).Perm (treeFiles fs root) := by
  refine (List.perm_ext_iff_of_nodup (nodup_below _ _ _) (nodup_below _ _ _)).mpr fun k => ?_
  rw [← treeFiles, ← treeFiles, mem_treeFiles, mem_treeFiles]
  refine exists_congr fun rel => and_congr_right fun hk => and_congr_right fun hrel => ?_
  rw [← fileAt_isSome, ← fileAt_isSome, hk, (h rel hrel).2]

theorem SameBeside.treeLinks_perm (h : SameBeside root fs fs') :
    (treeLinks fs' root).Perm (treeLinks fs root) := by
  refine (List.perm_ext_iff_of_nodup (nodup_below _ _ _) (nodup_below _ _ _)).mpr fun k => ?_
  rw [← treeLinks, ← treeLinks, mem_treeLinks, mem_treeLinks]
  refine exists_congr fun rel => and_congr_right fun hk => and_congr_right fun hrel => ?_
  rw [hk, (h rel hrel).1]

theorem SameBeside.fileAt_eq (h : SameBeside root fs fs') {k : Path} (hk : k ∈ treeFiles fs root) :
    fs'.fileAt k = fs.fileAt k := by
  obtain ⟨rel, rfl, hrel, -⟩ := mem_treeFiles.mp hk
  exact (h rel hrel).2

theorem SameBeside.symm (h : SameBeside root fs fs') : SameBeside root fs' fs :=
  fun rel hrel => ⟨(h rel hrel).1.symm, (h rel hrel).2.symm⟩

theorem SameBeside.records_perm (h : SameBeside root fs fs') :
    ((treeFiles fs' root).map (recordOf fs' root)).Perm ((treeFiles fs root).map (recordOf fs root)) := by
  refine (h.treeFiles_perm.map _).trans (List.Perm.of_eq (List.map_congr_left fun k hk => ?_))
  exact recordOf_congr (h.fileAt_eq hk)

theorem SameBeside.listing_eq (h : SameBeside root fs fs') (hroot : fs.node root = some .dir)
    (hroot' : fs'.node root = some .dir) : listing fs' root = listing fs root :=
  sorted_unique (listing_sorted hroot') (listing_sorted hroot)
    ((sortFiles_perm _).trans (h.records_perm.trans (sortFiles_perm _).symm))

theorem SameBeside.scannable (h : SameBeside root fs fs') (hroot' : fs'.node root = some .dir)
    (hs : Scannable limits fs root) : Scannable limits fs' root := by
  have hperm := h.treeFiles_perm
  refine ⟨hroot', hperm.length_eq ▸ hs.count, fun k hk => hs.safe k (hperm.mem_iff.mp hk), fun k hk => ?_,
    fun hne => ?_⟩
  · have hk' := hperm.mem_iff.mp hk
    rw [sizeAt_congr (h.fileAt_eq hk')]
    exact hs.small k hk'
  · have hne' : treeFiles fs root ≠ [] := fun hn => hne (by rw [hn] at hperm; exact hperm.eq_nil)
    rw [Scanning.manifestSize_perm h.records_perm]
    exact hs.encoded hne'

/-- The records of a listing are those of the files. -/
theorem mem_listing_files {r : FileRecord} : r ∈ listing fs root ↔ ∃ rel data, kPartialDirectory ∉ rel ∧
    fs.fileAt (root ++ rel) = some data ∧ r = ⟨genericString rel, UInt64.ofNat data.length, crc32 data⟩ := by
  rw [mem_listing]
  constructor
  · rintro ⟨k, hk, rfl⟩
    obtain ⟨rel, rfl, hrel, i, hi⟩ := mem_treeFiles.mp hk
    have hfile : fs.fileAt (root ++ rel) = some (fs.inode i).data := fileAt_eq_some.mpr ⟨i, hi, rfl⟩
    refine ⟨rel, (fs.inode i).data, hrel, hfile, ?_⟩
    rw [recordOf, List.drop_left, sizeAt, hfile]
    rfl
  · rintro ⟨rel, data, hrel, hfile, rfl⟩
    obtain ⟨i, hi, -⟩ := fileAt_eq_some.mp hfile
    refine ⟨root ++ rel, mem_treeFiles.mpr ⟨rel, rfl, hrel, i, hi⟩, ?_⟩
    rw [recordOf, List.drop_left, sizeAt, hfile]
    rfl

/-- **The scan is a function of the tree.**  In whatever order the entries are found, a scan in which
nothing fails ends and succeeds if and only if the tree is within the limits; it then returns the
increasing list of the records of the tree's files, and the number of the symbolic links it passed.
Neither depends on what is called `kPartialDirectory` or is below such a thing. -/
theorem scan_of_tree (cr : Crypto) {root : Path} {limits : DirectoryScanLimits} {w : World}
    (hroot : w.host.fs.node root = some .dir) :
    let fs := w.host.fs
    Calmly cr (scanDirectory root limits) w (fun r w' => w'.host.fs = fs ∧
      ((∃ s, r = .ok s) ↔ Scannable limits fs root) ∧
      ∀ s, r = .ok s → s = { files := listing fs root, skippedSymlinks := (treeLinks fs root).length }) ∧
    SortedRecords (listing fs root) ∧
    (∀ r, r ∈ listing fs root ↔ ∃ rel data, kPartialDirectory ∉ rel ∧ fs.fileAt (root ++ rel) = some data ∧
      r = ⟨genericString rel, UInt64.ofNat data.length, crc32 data⟩) ∧
    ∀ fs', fs'.node root = some .dir → SameBeside root fs fs' →
      (Scannable limits fs' root ↔ Scannable limits fs root) ∧ listing fs' root = listing fs root ∧
        (treeLinks fs' root).length = (treeLinks fs root).length := by
  intro fs
  refine ⟨?_, listing_sorted hroot, fun r => mem_listing_files, fun fs' hroot' h => ?_⟩
  · refine total_mono (scanDirectory_ends hroot) ?_
    rintro (failure | s) w' ⟨hfs, hpost⟩
    · obtain ⟨-, hscan⟩ := hpost.resolve_left id
      exact ⟨hfs, ⟨fun ⟨s, hs⟩ => (nomatch hs), fun h => absurd h hscan⟩, fun _ hs => nomatch hs⟩
    · obtain ⟨-, hscan, rfl⟩ := hpost
      exact ⟨hfs, ⟨fun _ => hscan, fun _ => ⟨_, rfl⟩⟩, fun _ hs => (Except.ok.inj hs).symm⟩
  · exact ⟨⟨h.symm.scannable hroot, h.scannable hroot'⟩, h.listing_eq hroot hroot', h.treeLinks_perm.length_eq⟩

end

/-! A tree with a file, a directory with a file, a symbolic link to the first file and a part file. -/

def sampleDirectories : Fs :=
  (sampleMade.insert [kPartialDirectory] .dir (by decide) dir_not_file).insert [bytesOf "l"]
    (.symlink [bytesOf "a"]) (by decide) (by simp)

theorem free_sampleFile : sampleDirectories.Free [bytesOf "a"] := by decide +kernel

def sampleFile : Fs := (sampleDirectories.create [bytesOf "a"] 1000 free_sampleFile).setData 0 (bytesOf "abc")

theorem free_sampleInner : sampleFile.Free [bytesOf "d", bytesOf "b"] := by decide +kernel

def sampleInner : Fs :=
  (sampleFile.create [bytesOf "d", bytesOf "b"] 1000 free_sampleInner).setData 1 (bytesOf "b")

theorem free_sampleScanned : sampleInner.Free [kPartialDirectory, bytesOf "p"] := by decide +kernel

def sampleScanned : Host :=
  { sampleHost with fs := sampleInner.create [kPartialDirectory, bytesOf "p"] 1000 free_sampleScanned }

def sampleRecords : FileManifest := [⟨bytesOf "a", 3, 891568578⟩, ⟨bytesOf "d/b", 1, 1908338681⟩]

theorem scan_of_tree_sample :
    Calmly sampleCrypto (scanDirectory [] {}) ⟨sampleScanned, []⟩ fun r _ => ∀ s, r = .ok s →
      s = { files := sampleRecords, skippedSymlinks := 1 } := by
  have hlisting : listing sampleScanned.fs [] = sampleRecords := by decide +kernel
  have hlinks : (treeLinks sampleScanned.fs []).length = 1 := by decide +kernel
  refine total_mono (scan_of_tree sampleCrypto (w := ⟨sampleScanned, []⟩) (Fs.node_nil _)).1 ?_
  rintro r w' ⟨-, -, h⟩ s hs
  rw [h s hs]
  change ({ files := listing sampleScanned.fs [], skippedSymlinks := (treeLinks sampleScanned.fs []).length } :
    DirectoryScan) = _
  rw [hlisting, hlinks]

/-! ## The size of the manifest -/

section
variable {cr : Crypto} {root : Path} {limits : DirectoryScanLimits} {w : World}

/-- The states the loop of a scan comes by, whatever fails. -/
def ScanLoop (cr : Crypto) (root : Path) (limits : DirectoryScanLimits) (w : World) (s : ScanState) : Prop :=
  ∃ (names : List Name) (v₀ v : World), names.Perm (w.host.fs.children root) ∧ v₀.host.fs = w.host.fs ∧
    Relation.ReflTransGen (Turn (solo (exec cr) anyAnswer) (scanStep root limits))
      ({ pending := names.map fun n => root ++ [n] }, v₀) (s, v)

theorem scanTurns_scanning (hroot : w.host.fs.node root = some .dir) {names : List Name} {v₀ : World}
    (hn : names.Perm (w.host.fs.children root)) (hfs : v₀.host.fs = w.host.fs) {c : ScanState × World}
    (hc : Relation.ReflTransGen (Turn (solo (exec cr) anyAnswer) (scanStep root limits))
      ({ pending := names.map fun n => root ++ [n] }, v₀) c) :
    c.2.host.fs = w.host.fs ∧ ∃ done, Scanning limits w.host.fs root done c.1.pending c.1.result
      c.1.encodedSize := by
  induction hc with
  | refl => exact ⟨hfs, [], Scanning.start hroot hn⟩
  | tail _ hturn ih =>
    obtain ⟨hfs', done, hscan⟩ := ih
    obtain ⟨hfs'', -, hnext, -⟩ := (scanStep_spec permits_anyAnswer trivial hfs' hscan).result hturn
    exact ⟨hfs'', hnext⟩

theorem ScanLoop.scanning (hroot : w.host.fs.node root = some .dir) {s : ScanState}
    (h : ScanLoop cr root limits w s) :
    ∃ done, Scanning limits w.host.fs root done s.pending s.result s.encodedSize := by
  obtain ⟨names, v₀, v, hn, hfs, hturns⟩ := h
  exact (scanTurns_scanning hroot hn hfs hturns).2

/-- A scan that succeeds returns what the loop had when nothing was pending. -/
theorem scanDirectory_last (hp : w.host.fs.Plain root) {result : DirectoryScan} {w' : World}
    (hr : Reach (solo (exec cr) anyAnswer) (scanDirectory root limits, w) (.pure (.ok result), w')) :
    w.host.fs.node root = some .dir ∧ ∃ s, ScanLoop cr root limits w s ∧ s.pending = [] ∧
      result = { s.result with files := sortFiles s.result.files } := by
  have hsafe : Safe (solo (exec cr) anyAnswer) (fun _ _ => True) (scanDirectory root limits) w fun r _ =>
      ∀ result, r = .ok result → w.host.fs.node root = some .dir ∧ ∃ s, ScanLoop cr root limits w s ∧
        s.pending = [] ∧ result = { s.result with files := sortFiles s.result.files } := by
    refine safe_read admits_anything rfl trivial fun r h1 he hfs1 _ => ?_
    cases r with
    | error e => exact safe_pure fun _ h => by cases h
    | ok status =>
      dsimp only
      split
      · exact safe_pure fun _ h => by cases h
      · next hdir =>
        have hstatus := not_not.mp hdir
        have hroot : w.host.fs.node root = some .dir :=
          node_of_typeOf.1 ((typeAt_found hp (exec_lstat he) (by rw [hstatus]; simp)).trans hstatus)
        refine safe_read admits_anything rfl trivial fun r h2 he hfs2 _ => ?_
        cases r with
        | error e => exact safe_pure fun _ h => by cases h
        | ok names =>
          have hn := exec_listDir (by rw [hfs1]; exact hroot) he
          rw [hfs1] at hn
          refine safe_bind (safe_mono (safe_turns _ _ _ _) ?_)
          rintro b v ⟨⟨s, v'⟩, hturns, hlast⟩
          cases b with
          | error failure => exact safe_pure fun _ h => by cases h
          | ok r =>
            obtain ⟨hfs', done, hscan⟩ := scanTurns_scanning hroot hn (hfs2.trans hfs1) hturns
            obtain ⟨-, -, hpending, rfl⟩ := (scanStep_spec permits_anyAnswer trivial hfs' hscan).result hlast
            refine safe_pure fun result h => ⟨hroot, s, ⟨names, _, v', hn, hfs2.trans hfs1, hturns⟩, hpending, ?_⟩
            cases h
            rfl
  exact hsafe.result hr result rfl

/-- A loop that has nothing left has kept count of the size of the manifest. -/
theorem ScanLoop.accounts (hroot : w.host.fs.node root = some .dir) {s : ScanState}
    (h : ScanLoop cr root limits w s) (hpending : s.pending = []) (hmin : 4 ≤ limits.maxEncodedSize)
    (hmax : limits.maxEncodedSize ≤ kDefaultMaxPayload.toNat) :
    encodeManifest (sortFiles s.result.files) ≠ [] ∧
      (encodeManifest (sortFiles s.result.files)).length = s.encodedSize ∧ s.encodedSize ≤ limits.maxEncodedSize ∧
      (sortFiles s.result.files).length ≤ limits.maxEntries := by
  obtain ⟨done, hscan⟩ := h.scanning hroot
  rw [hpending] at hscan
  have hscannable := hscan.scannable hroot
  have hle : s.encodedSize ≤ limits.maxEncodedSize := by
    by_cases hdone : done = []
    · have hsize := hscan.size
      rw [hscan.files_eq, hdone] at hsize
      rw [hsize]
      exact hmin
    · exact hscan.encoded hdone
  have hperm := sortFiles_perm s.result.files
  have hsize : manifestSize (sortFiles s.result.files) = s.encodedSize := by
    rw [Scanning.manifestSize_perm hperm, hscan.size]
  have hlen : (sortFiles s.result.files).length ≤ limits.maxEntries := by
    rw [hperm.length_eq, hscan.files_eq, List.length_map]
    exact hscan.count
  have hcount : (sortFiles s.result.files).length ≤ manifestSize (sortFiles s.result.files) := by
    rw [manifestSize]
    have := List.length_le_sum_of_one_le ((sortFiles s.result.files).map fun f => 14 + f.path.length)
      fun n hn => by
      obtain ⟨f, -, rfl⟩ := List.mem_map.mp hn
      omega
    rw [List.length_map] at this
    omega
  have hpayload : kDefaultMaxPayload.toNat < 2 ^ 32 := kDefaultMaxPayload.toNat_lt
  have hsafe : ∀ f ∈ sortFiles s.result.files, isSafeRemotePath f.path = true := by
    intro f hf
    rw [hperm.mem_iff, hscan.files_eq] at hf
    obtain ⟨k, hk, rfl⟩ := List.mem_map.mp hf
    exact hscan.safe k hk
  have hsorted : SortedRecords (sortFiles s.result.files) := by
    rw [hscan.sorted hroot]
    exact listing_sorted hroot
  rcases encodeManifest_cases (sortFiles s.result.files) with ⟨-, hn⟩ | ⟨r, -, -, hl, -⟩
  · exact absurd ⟨by omega, hsafe, hsorted⟩ hn
  · refine ⟨(encodeManifest_ne_nil_iff (by omega)).mpr ⟨hsorted, hsafe⟩, hl.trans hsize, hle, hlen⟩

end

/-- What a scan that returned `files` says of the manifest: the loop ended with its size, it can be
encoded and sent, and it is decoded under the same limit. -/
structure Accounted (cr : Crypto) (root : Path) (limits : DirectoryScanLimits) (w : World) (files : FileManifest) :
    Prop where
  counted : ∃ s, ScanLoop cr root limits w s ∧ s.pending = [] ∧ files = sortFiles s.result.files ∧
    (encodeManifest files).length = s.encodedSize ∧ s.encodedSize ≤ limits.maxEncodedSize
  nonempty : encodeManifest files ≠ []
  fits : (encodeManifest files).length ≤ kDefaultMaxPayload.toNat
  sendable : ∀ requestId, (DirectorySync.makeFrame .syncManifest requestId (encodeManifest files)).Valid
  decodable : decodeManifest (.of (encodeManifest files)) limits.maxEntries = .ok files

section
variable {cr : Crypto} {root : Path} {w : World}

theorem accounted_of_reach {limits : DirectoryScanLimits} (hp : w.host.fs.Plain root)
    (hmin : 4 ≤ limits.maxEncodedSize) (hmax : limits.maxEncodedSize ≤ kDefaultMaxPayload.toNat)
    {result : DirectoryScan} {w' : World}
    (hr : Reach (solo (exec cr) anyAnswer) (scanDirectory root limits, w) (.pure (.ok result), w')) :
    Accounted cr root limits w result.files := by
  obtain ⟨hroot, s, hloop, hpending, rfl⟩ := scanDirectory_last hp hr
  obtain ⟨hne, hlen, hle, hcount⟩ := hloop.accounts hroot hpending hmin hmax
  have hpayload : (encodeManifest (sortFiles s.result.files)).length ≤ kDefaultMaxPayload.toNat := by omega
  exact ⟨⟨s, hloop, hpending, rfl, hlen, hle⟩, hne, hpayload,
    fun requestId => makeFrame_valid (by decide) hpayload, decodeManifest_encode hne hcount⟩

/-- A client that reports a codec error has sent its manifest. -/
theorem syncDirectory_sends {limits : DirectorySyncLimits} (hp : w.host.fs.Plain root)
    (hmin : 4 ≤ limits.scan.maxEncodedSize) (hmax : limits.scan.maxEncodedSize ≤ kDefaultMaxPayload.toNat)
    (requestId : UInt64) :
    Safe (solo (exec cr) anyAnswer) (fun _ _ => True) (DirectorySync.syncDirectory root requestId limits) w
      fun r w' => r.status = .codecError → sent w.log ≠ sent w'.log := by
  unfold DirectorySync.syncDirectory
  split
  · exact safe_pure fun h => by cases h
  · refine safe_bind (safe_mono (safe_self _ _ w) fun scan v hv => ?_)
    cases scan with
    | error failure => exact safe_pure fun h => by cases h
    | ok result =>
      have hacc := accounted_of_reach hp hmin hmax hv
      have hvalid := hacc.sendable requestId
      dsimp only
      rw [if_neg (not_or.mpr ⟨hacc.nonempty, Nat.not_lt.mpr hacc.fits⟩), sendFrame_bind hvalid]
      refine safe_op fun r v' hs => ⟨trivial, ?_⟩
      obtain rfl : v.push ⟨.send ⟨_, hvalid⟩, r⟩ = v' := Option.some.inj hs.2
      refine safe_mono (safe_log _ _) fun r' w' hlog _ hsent => ?_
      obtain ⟨l, hl⟩ := hlog
      obtain ⟨l', hl'⟩ := reach_log hv
      have hone : (sent [(⟨.send ⟨_, hvalid⟩, r⟩ : net.Event)]).length = 1 := rfl
      have hcount := congrArg List.length hsent
      rw [← hl, NetSig.Local.push_log, ← hl'] at hcount
      simp only [sent_append, List.length_append] at hcount
      omega

end

/-- **The scan keeps count of the manifest.**  After a scan that succeeded the manifest's encoding has the
size that the scan counted, within the limit; so the client can encode and send it, and a server with
the same limit decodes it.  A client that reports a codec error has sent its manifest.  The root is spelled without
symbolic links above it (`Plain`). -/
theorem scan_accounts_manifest (cr : Crypto) {root : Path} {limits : DirectorySyncLimits} {w : World}
    (hp : w.host.fs.Plain root) (hmin : 4 ≤ limits.scan.maxEncodedSize)
    (hmax : limits.scan.maxEncodedSize ≤ kDefaultMaxPayload.toNat) :
    (∀ result w', Reach (solo (exec cr) anyAnswer) (scanDirectory root limits.scan, w) (.pure (.ok result), w') →
      Accounted cr root limits.scan w result.files) ∧
    ∀ requestId r w', Reach (solo (exec cr) anyAnswer) (DirectorySync.syncDirectory root requestId limits, w)
      (.pure r, w') → r.status = .codecError → sent w.log ≠ sent w'.log :=
  ⟨fun _ _ hr => accounted_of_reach hp hmin hmax hr, fun requestId _ _ hr =>
    (syncDirectory_sends hp hmin hmax requestId).result hr⟩

theorem scan_accounts_manifest_sample :
    ∃ result w', Reach (solo (exec sampleCrypto) anyAnswer) (scanDirectory [] {}, ⟨sampleScanned, []⟩)
        (.pure (.ok result), w') ∧
      result = { files := sampleRecords, skippedSymlinks := 1 } ∧
      Accounted sampleCrypto [] {} ⟨sampleScanned, []⟩ result.files := by
  have hr : Reach (solo (exec sampleCrypto) anyAnswer) (scanDirectory [] {}, ⟨sampleScanned, []⟩)
      (.pure (.ok { files := sampleRecords, skippedSymlinks := 1 }), _) :=
    @reach_of_result? sampleCrypto [] _ 40 _ _ _ (by decide +kernel)
  exact ⟨_, _, hr, rfl, (@scan_accounts_manifest sampleCrypto [] {} ⟨sampleScanned, []⟩
    (plain_of_dir (p := []) (node_nil _)) (by decide) (by decide)).1 _ _ hr⟩

end SyncWire
