import SyncWire.DirectorySync
import SyncWire.Send.Source

/-!
# What a scan sees

`listing fs root` is the sorted list of the records of the regular files below `root`,
`Scannable` says that they keep the limits.  The iterator visits every such file exactly
once, so a scan that succeeds returns the listing of a scannable tree
(`scanDirectory_safe`), whatever fails meanwhile.
-/

namespace SyncWire

open Wire Effect Posix Posix.Fs

/-! ## The files of a tree -/

/-- A regular file that is not at or below something called `kPartialDirectory`. -/
def visited (fs : Fs) (root k : Path) : Bool :=
  decide (kPartialDirectory ∉ k.drop root.length) && (fs.fileAt k).isSome

def treeFiles (fs : Fs) (root : Path) : List Path := fs.below (visited fs root) root

/-- The record of the file `k`. -/
def recordOf (fs : Fs) (root k : Path) : FileRecord where
  path := genericString (k.drop root.length)
  size := UInt64.ofNat (fs.sizeAt k)
  checksum := crc32 ((fs.fileAt k).getD [])

def listing (fs : Fs) (root : Path) : FileManifest := sortFiles ((treeFiles fs root).map (recordOf fs root))

/-- A tree whose scan is within the limits. -/
structure Scannable (limits : DirectoryScanLimits) (fs : Fs) (root : Path) : Prop where
  isDir : fs.node root = some .dir
  count : (treeFiles fs root).length ≤ limits.maxEntries
  safe : ∀ k ∈ treeFiles fs root, isSafeRemotePath (genericString (k.drop root.length)) = true
  small : ∀ k ∈ treeFiles fs root, fs.sizeAt k ≤ limits.maxFileSize.toNat
  encoded : treeFiles fs root ≠ [] →
    manifestSize ((treeFiles fs root).map (recordOf fs root)) ≤ limits.maxEncodedSize

section
variable {fs : Fs} {root k : Path}

theorem fileAt_isSome : (fs.fileAt k).isSome = true ↔ ∃ i, fs.node k = some (.file i) := by
  unfold fileAt
  split
  · next i hi => simp [hi]
  · next h => simpa using fun i hi => h i hi

theorem mem_treeFiles : k ∈ treeFiles fs root ↔
    ∃ rel, k = root ++ rel ∧ kPartialDirectory ∉ rel ∧ ∃ i, fs.node k = some (.file i) := by
  rw [treeFiles, mem_below, visited, Bool.and_eq_true, decide_eq_true_eq, fileAt_isSome]
  constructor
  · rintro ⟨-, ⟨hk, hf⟩, rel, rfl⟩
    exact ⟨rel, rfl, by simpa using hk, hf⟩
  · rintro ⟨rel, rfl, hrel, i, hi⟩
    exact ⟨by rw [hi]; exact Option.some_ne_none _, ⟨by simpa using hrel, i, hi⟩, List.prefix_append _ _⟩

theorem genericString_components (path : List UInt8) : genericString (components path) = path :=
  List.intercalate_splitOn slash

theorem components_genericString {rel : Path} (hne : rel ≠ []) (hv : ∀ n ∈ rel, ValidName n) :
    components (genericString rel) = rel :=
  List.splitOn_intercalate slash (fun n hn => (hv n hn).2) hne

/-- A file of the tree is where its record's path says. -/
theorem components_recordOf (hroot : fs.node root = some .dir) (hk : k ∈ treeFiles fs root) :
    root ++ components (recordOf fs root k).path = k := by
  obtain ⟨rel, rfl, -, i, hi⟩ := mem_treeFiles.mp hk
  have hne : rel ≠ [] := by
    rintro rfl
    rw [List.append_nil, hroot] at hi
    cases hi
  have hv : ∀ n ∈ rel, ValidName n := fun n hn =>
    valid_of_node (by rw [hi]; exact Option.some_ne_none _) n (List.mem_append_right _ hn)
  simp only [recordOf, List.drop_left]
  rw [components_genericString hne hv]

theorem recordOf_path_injective (hroot : fs.node root = some .dir) {k' : Path} (hk : k ∈ treeFiles fs root)
    (hk' : k' ∈ treeFiles fs root) (h : (recordOf fs root k).path = (recordOf fs root k').path) : k = k' := by
  rw [← components_recordOf hroot hk, ← components_recordOf hroot hk', h]

end

/-! ## Sorting -/

theorem sortFiles_perm (files : FileManifest) : (sortFiles files).Perm files := List.perm_insertionSort _ _

theorem sortFiles_sorted {files : FileManifest} (h : (files.map (·.path)).Nodup) :
    SortedRecords (sortFiles files) := by
  let le : FileRecord → FileRecord → Prop := fun a b => a.path ≤ b.path
  have htotal : Std.Total le := ⟨fun a b => List.le_total a.path b.path⟩
  have htrans : IsTrans FileRecord le := ⟨fun a b c hab hbc => List.le_trans hab hbc⟩
  have hle : (sortFiles files).Pairwise le := List.pairwise_insertionSort le files
  have hne : (sortFiles files).Pairwise fun a b => a.path ≠ b.path :=
    List.pairwise_map.mp (((sortFiles_perm files).map _).nodup_iff.mpr h)
  refine (hle.and hne).imp ?_
  rintro a b ⟨hab, hne⟩
  by_contra hn
  exact hne (List.le_antisymm hab hn)

/-- Sorted lists with the same records are equal. -/
theorem sorted_unique {files files' : FileManifest} (h : SortedRecords files) (h' : SortedRecords files')
    (hp : files.Perm files') : files = files' :=
  List.Perm.eq_of_pairwise (fun _ _ _ _ hab hba => absurd (path_trans hab hba) (path_irrefl _)) h h' hp

section
variable {fs : Fs} {root : Path}

theorem nodup_paths (hroot : fs.node root = some .dir) {ks : List Path} (h : ks.Perm (treeFiles fs root)) :
    ((ks.map (recordOf fs root)).map (·.path)).Nodup := by
  rw [List.map_map]
  refine List.Nodup.map_on ?_ (h.nodup_iff.mpr (nodup_below _ _ _))
  intro a ha b hb he
  exact recordOf_path_injective hroot (h.mem_iff.mp ha) (h.mem_iff.mp hb) he

theorem listing_sorted (hroot : fs.node root = some .dir) : SortedRecords (listing fs root) :=
  sortFiles_sorted (nodup_paths hroot (List.Perm.refl _))

theorem sortFiles_eq_listing (hroot : fs.node root = some .dir) {ks : List Path}
    (h : ks.Perm (treeFiles fs root)) : sortFiles (ks.map (recordOf fs root)) = listing fs root := by
  refine sorted_unique (sortFiles_sorted (nodup_paths hroot h)) (listing_sorted hroot) ?_
  exact (sortFiles_perm _).trans ((h.map _).trans (sortFiles_perm _).symm)

theorem recordOf_congr {fs' : Fs} {k : Path} (h : fs'.fileAt k = fs.fileAt k) :
    recordOf fs' root k = recordOf fs root k := by
  simp only [recordOf, sizeAt, h]

/-- What is listed depends on the regular files only. -/
theorem listing_congr {fs' : Fs} (hroot : fs'.node root = some .dir) (h : ∀ k, fs'.fileAt k = fs.fileAt k) :
    listing fs' root = listing fs root := by
  have hperm : (treeFiles fs root).Perm (treeFiles fs' root) := by
    refine (List.perm_ext_iff_of_nodup (nodup_below _ _ _) (nodup_below _ _ _)).mpr fun k => ?_
    change k ∈ treeFiles fs root ↔ k ∈ treeFiles fs' root
    simp only [mem_treeFiles, ← fileAt_isSome, h]
  rw [← sortFiles_eq_listing hroot hperm, listing]
  congr 1
  exact List.map_congr_left fun k _ => recordOf_congr (h k)

theorem length_listing : (listing fs root).length = (treeFiles fs root).length := by
  rw [listing, (sortFiles_perm _).length_eq, List.length_map]

theorem mem_listing {r : FileRecord} : r ∈ listing fs root ↔ ∃ k ∈ treeFiles fs root, recordOf fs root k = r := by
  rw [listing, (sortFiles_perm _).mem_iff, List.mem_map]

/-- The record is in the destination as a regular file of its size and checksum. -/
def Present (fs : Fs) (root : Path) (r : FileRecord) : Prop :=
  ∃ d, fs.fileAt (root ++ components r.path) = some d ∧ d.length = r.size.toNat ∧ crc32 d = r.checksum

theorem recordOf_present {r : FileRecord} (h : Present fs root r) :
    recordOf fs root (root ++ components r.path) = r := by
  obtain ⟨d, hd, hlen, hsum⟩ := h
  simp [recordOf, sizeAt, hd, hlen, hsum, genericString_components]

theorem mem_listing_of_present {r : FileRecord} (hsafe : isSafeRemotePath r.path = true) (h : Present fs root r) :
    r ∈ listing fs root := by
  refine mem_listing.mpr ⟨root ++ components r.path, mem_treeFiles.mpr ⟨_, rfl, ?_, ?_⟩, recordOf_present h⟩
  · intro hm
    exact absurd (((isSafeRemotePath_iff _).mp hsafe).2.2 _ hm) (by decide)
  · obtain ⟨d, hd, -⟩ := h
    obtain ⟨i, hi, -⟩ := fileAt_eq_some.mp hd
    exact ⟨i, hi⟩

/-- **Listed is present.** -/
theorem mem_listing_iff {limits : DirectoryScanLimits} (hs : Scannable limits fs root) {r : FileRecord}
    (hsafe : isSafeRemotePath r.path = true) : r ∈ listing fs root ↔ Present fs root r := by
  refine ⟨fun hr => ?_, mem_listing_of_present hsafe⟩
  obtain ⟨k, hk, rfl⟩ := mem_listing.mp hr
  rw [Present, components_recordOf hs.isDir hk]
  obtain ⟨-, -, -, i, hi⟩ := mem_treeFiles.mp hk
  have hd : fs.fileAt k = some (fs.inode i).data := fileAt_eq_some.mpr ⟨i, hi, rfl⟩
  refine ⟨_, hd, ?_, by simp [recordOf, hd]⟩
  have hsmall := hs.small k hk
  have hlt := limits.maxFileSize.toNat_lt
  simp only [recordOf, sizeAt, hd, Option.map_some, Option.getD_some] at hsmall ⊢
  rw [UInt64.toNat_ofNat']
  omega

end

/-! ## The walk -/

/-- A symbolic link that is not at or below something called `kPartialDirectory`. -/
def linked (fs : Fs) (root k : Path) : Bool :=
  decide (kPartialDirectory ∉ k.drop root.length) && decide (typeOf (fs.node k) = .symlink)

def treeLinks (fs : Fs) (root : Path) : List Path := fs.below (linked fs root) root

/-- The nodes the iterator may still visit. -/
def nodesLeft (fs : Fs) (pending : List Path) : Nat := (pending.flatMap (fs.below fun _ => true)).length

/-- An entry of a directory that the iterator has entered. -/
def Entry (fs : Fs) (root p : Path) : Prop :=
  fs.node p ≠ none ∧ ∃ rel n, p = root ++ rel ++ [n] ∧ kPartialDirectory ∉ rel

/-- **The walk.**  The files in `done` are recorded, the others are below what is pending, and so are the links
that were not counted. -/
structure Scanning (limits : DirectoryScanLimits) (fs : Fs) (root : Path) (done pending : List Path)
    (result : DirectoryScan) (encodedSize : Nat) : Prop where
  files_eq : result.files = done.map (recordOf fs root)
  split : (done ++ pending.flatMap (fs.below (visited fs root))).Perm (treeFiles fs root)
  links : result.skippedSymlinks + (pending.flatMap (fs.below (linked fs root))).length =
    (treeLinks fs root).length
  entries : ∀ p ∈ pending, Entry fs root p
  count : done.length ≤ limits.maxEntries
  safe : ∀ k ∈ done, isSafeRemotePath (genericString (k.drop root.length)) = true
  small : ∀ k ∈ done, fs.sizeAt k ≤ limits.maxFileSize.toNat
  size : encodedSize = manifestSize result.files
  encoded : done ≠ [] → encodedSize ≤ limits.maxEncodedSize

section
variable {fs : Fs} {root p : Path} {limits : DirectoryScanLimits}

theorem mem_treeLinks {k : Path} : k ∈ treeLinks fs root ↔
    ∃ rel, k = root ++ rel ∧ kPartialDirectory ∉ rel ∧ typeOf (fs.node k) = .symlink := by
  rw [treeLinks, mem_below, linked, Bool.and_eq_true, decide_eq_true_eq, decide_eq_true_eq]
  constructor
  · rintro ⟨-, ⟨hk, hl⟩, rel, rfl⟩
    exact ⟨rel, rfl, by simpa using hk, hl⟩
  · rintro ⟨rel, rfl, hrel, hl⟩
    refine ⟨fun hn => ?_, ⟨by simpa using hrel, hl⟩, List.prefix_append _ _⟩
    rw [hn] at hl
    cases hl

theorem nodesLeft_skip (hp : fs.node p ≠ none) (rest : List Path) :
    nodesLeft fs rest < nodesLeft fs (p :: rest) := by
  have hperm := (@below_perm fs (fun _ => true) p hp).length_eq
  simp only [nodesLeft, List.flatMap_cons, List.length_append]
  simp only [if_true, List.length_append, List.length_cons] at hperm
  omega

theorem nodesLeft_descend (hp : fs.node p ≠ none) {names : List Name} (hn : names.Perm (fs.children p))
    (rest : List Path) : nodesLeft fs (names.map (fun n => p ++ [n]) ++ rest) < nodesLeft fs (p :: rest) := by
  have hperm := (@below_perm fs (fun _ => true) p hp).length_eq
  have hchildren := (hn.flatMap_right fun n => fs.below (fun _ => true) (p ++ [n])).length_eq
  simp only [nodesLeft, List.flatMap_cons, List.flatMap_append, List.flatMap_map, List.length_append]
  simp only [if_true, List.length_append, List.length_cons] at hperm
  omega

theorem getLastD_concat_ne {rel : Path} {n : Name} : (root ++ rel ++ [n]).getLastD [] = n :=
  List.getLastD_concat ..

theorem entry_child (h : Entry fs root p) (hp : p.getLastD [] ≠ kPartialDirectory) {n : Name}
    (hn : fs.node (p ++ [n]) ≠ none) : Entry fs root (p ++ [n]) := by
  obtain ⟨-, rel, m, rfl, hrel⟩ := h
  rw [getLastD_concat_ne] at hp
  refine ⟨hn, rel ++ [m], n, by simp, ?_⟩
  simp [hrel, hp.symm]

/-- Below an entry called `kPartialDirectory` nothing is of interest. -/
theorem below_state {v : Path → Bool} (hv : ∀ k, v k = true → kPartialDirectory ∉ k.drop root.length)
    (h : Entry fs root p) (hp : p.getLastD [] = kPartialDirectory) : fs.below v p = [] := by
  obtain ⟨-, rel, n, rfl, -⟩ := h
  rw [getLastD_concat_ne] at hp
  rw [List.eq_nil_iff_forall_not_mem]
  intro k hk
  obtain ⟨-, hk, s, rfl⟩ := mem_below.mp hk
  exact hv _ hk (by simp [hp])

theorem not_mem_of_visited {k : Path} (h : visited fs root k = true) : kPartialDirectory ∉ k.drop root.length := by
  rw [visited, Bool.and_eq_true, decide_eq_true_eq] at h
  exact h.1

theorem not_mem_of_linked {k : Path} (h : linked fs root k = true) : kPartialDirectory ∉ k.drop root.length := by
  rw [linked, Bool.and_eq_true, decide_eq_true_eq] at h
  exact h.1

/-- Of a directory itself nothing is of interest. -/
theorem below_dir {v : Path → Bool} (hd : fs.node p = some .dir) (hv : v p = false) : (fs.below v p).Perm
    ((fs.children p).flatMap fun n => fs.below v (p ++ [n])) := by
  have hperm := @below_perm fs v p (by rw [hd]; exact Option.some_ne_none _)
  rwa [hv] at hperm

theorem below_visited_dir (hd : fs.node p = some .dir) : (fs.below (visited fs root) p).Perm
    ((fs.children p).flatMap fun n => fs.below (visited fs root) (p ++ [n])) :=
  below_dir hd (by simp [visited, fileAt, hd])

theorem below_linked_dir (hd : fs.node p = some .dir) : (fs.below (linked fs root) p).Perm
    ((fs.children p).flatMap fun n => fs.below (linked fs root) (p ++ [n])) :=
  below_dir hd (by simp [linked, hd, typeOf])

/-- What is not a directory has nothing below it. -/
theorem below_leaf {v : Path → Bool} {x : Node} (hx : fs.node p = some x) (hd : x ≠ .dir) :
    fs.below v p = if v p = true then [p] else [] := by
  have hperm := @below_perm fs v p (by rw [hx]; exact Option.some_ne_none _)
  rw [children_eq_nil (by rw [hx]; simpa using hd), List.flatMap_nil, List.append_nil] at hperm
  split at hperm
  · next hv => rw [if_pos hv, List.perm_singleton.mp hperm]
  · next hv => rw [if_neg hv, hperm.eq_nil]

theorem drop_entry (h : Entry fs root p) (hp : p.getLastD [] ≠ kPartialDirectory) :
    kPartialDirectory ∉ p.drop root.length := by
  obtain ⟨-, rel, n, rfl, hrel⟩ := h
  rw [getLastD_concat_ne] at hp
  rw [List.append_assoc, List.drop_left]
  simp [hrel, hp.symm]

theorem below_other {x : Node} (hx : fs.node p = some x) (hd : x ≠ .dir) (hf : ∀ i, x ≠ .file i) :
    fs.below (visited fs root) p = [] := by
  rw [below_leaf hx hd, if_neg]
  intro hv
  rw [visited, Bool.and_eq_true] at hv
  obtain ⟨i, hi⟩ := fileAt_isSome.mp hv.2
  rw [hx] at hi
  exact hf i (Option.some.inj hi)

theorem below_file {i : Nat} (h : Entry fs root p) (hp : p.getLastD [] ≠ kPartialDirectory)
    (hi : fs.node p = some (.file i)) : fs.below (visited fs root) p = [p] := by
  rw [below_leaf hi (by simp), if_pos]
  rw [visited, Bool.and_eq_true, decide_eq_true_eq]
  exact ⟨drop_entry h hp, fileAt_isSome.mpr ⟨i, hi⟩⟩

theorem below_linked {x : Node} (h : Entry fs root p) (hp : p.getLastD [] ≠ kPartialDirectory)
    (hx : fs.node p = some x) (hd : x ≠ .dir) :
    (fs.below (linked fs root) p).length = if typeOf (some x) = .symlink then 1 else 0 := by
  have hv : linked fs root p = decide (typeOf (some x) = .symlink) := by
    rw [linked, hx, decide_eq_true (drop_entry h hp), Bool.true_and]
  rw [below_leaf hx hd, hv]
  by_cases hl : typeOf (some x) = .symlink <;> simp [hl]

namespace Scanning

variable {done pending rest : List Path} {result : DirectoryScan} {encodedSize i : Nat}

theorem start (hroot : fs.node root = some .dir) {names : List Name} (hn : names.Perm (fs.children root)) :
    Scanning limits fs root [] (names.map fun n => root ++ [n]) {} 4 := by
  refine ⟨rfl, ?_, ?_, ?_, Nat.zero_le _, by simp, by simp, rfl, by simp⟩
  · rw [List.nil_append, List.flatMap_map]
    exact (hn.flatMap_right _).trans (below_visited_dir hroot).symm
  · rw [Nat.zero_add, List.flatMap_map]
    exact ((hn.flatMap_right _).trans (below_linked_dir hroot).symm).length_eq
  · intro p hp
    obtain ⟨n, hmem, rfl⟩ := List.mem_map.mp hp
    exact ⟨mem_children.mp (hn.mem_iff.mp hmem), [], n, by simp, by simp⟩

/-- The links that are left behind an entry. -/
theorem links_skip (h : Scanning limits fs root done (p :: rest) result encodedSize) {links : Nat}
    (hl : (fs.below (linked fs root) p).length = links) :
    result.skippedSymlinks + links + (rest.flatMap (fs.below (linked fs root))).length =
      (treeLinks fs root).length := by
  have := h.links
  rw [List.flatMap_cons, List.length_append] at this
  omega

/-- Past an entry without files, of which the links are counted. -/
theorem skip (h : Scanning limits fs root done (p :: rest) result encodedSize)
    (hp : fs.below (visited fs root) p = []) {links : Nat} (hl : (fs.below (linked fs root) p).length = links) :
    Scanning limits fs root done rest { result with skippedSymlinks := result.skippedSymlinks + links }
      encodedSize := by
  refine { h with
    split := ?_, links := h.links_skip hl, entries := fun q hq => h.entries q (List.mem_cons_of_mem _ hq) }
  have := h.split
  rwa [List.flatMap_cons, hp, List.nil_append] at this

/-- Past an entry with nothing to visit. -/
theorem pass (h : Scanning limits fs root done (p :: rest) result encodedSize)
    (hp : fs.below (visited fs root) p = []) (hl : (fs.below (linked fs root) p).length = 0) :
    Scanning limits fs root done rest result encodedSize := h.skip hp hl

/-- Past the state directory. -/
theorem pass_state (h : Scanning limits fs root done (p :: rest) result encodedSize)
    (hp : p.getLastD [] = kPartialDirectory) : Scanning limits fs root done rest result encodedSize := by
  have hentry := h.entries p (List.mem_cons_self ..)
  refine h.pass (below_state (fun _ => not_mem_of_visited) hentry hp) ?_
  rw [below_state (fun _ => not_mem_of_linked) hentry hp]
  rfl

/-- Into a directory. -/
theorem descend (h : Scanning limits fs root done (p :: rest) result encodedSize)
    (hp : p.getLastD [] ≠ kPartialDirectory) (hd : fs.node p = some .dir) {names : List Name}
    (hn : names.Perm (fs.children p)) :
    Scanning limits fs root done (names.map (fun n => p ++ [n]) ++ rest) result encodedSize := by
  refine { h with split := ?_, links := ?_, entries := ?_ }
  · refine List.Perm.trans ?_ h.split
    rw [List.flatMap_append, List.flatMap_map, List.flatMap_cons]
    exact ((((hn.flatMap_right _).trans (below_visited_dir hd).symm).append_right _)).append_left _
  · have hsub := ((hn.flatMap_right fun n => fs.below (linked fs root) (p ++ [n])).trans
      (below_linked_dir hd).symm).length_eq
    have := h.links
    rw [List.flatMap_cons, List.length_append] at this
    rw [List.flatMap_append, List.flatMap_map, List.length_append]
    omega
  · intro q hq
    rcases List.mem_append.mp hq with hq | hq
    · obtain ⟨n, hmem, rfl⟩ := List.mem_map.mp hq
      exact entry_child (h.entries p (List.mem_cons_self ..)) hp (mem_children.mp (hn.mem_iff.mp hmem))
    · exact h.entries q (List.mem_cons_of_mem _ hq)

/-- A regular file is one of the tree that is not yet recorded. -/
theorem head_file (h : Scanning limits fs root done (p :: rest) result encodedSize)
    (hp : p.getLastD [] ≠ kPartialDirectory) (hi : fs.node p = some (.file i)) :
    (done ++ p :: rest.flatMap (fs.below (visited fs root))).Perm (treeFiles fs root) := by
  have hsplit := h.split
  rwa [List.flatMap_cons, below_file (h.entries p (List.mem_cons_self ..)) hp hi] at hsplit

theorem mem_files (h : Scanning limits fs root done (p :: rest) result encodedSize)
    (hp : p.getLastD [] ≠ kPartialDirectory) (hi : fs.node p = some (.file i)) : p ∈ treeFiles fs root :=
  (h.head_file hp hi).mem_iff.mp (by simp)

/-- Record a file that keeps the limits. -/
theorem record (h : Scanning limits fs root done (p :: rest) result encodedSize)
    (hp : p.getLastD [] ≠ kPartialDirectory) (hi : fs.node p = some (.file i))
    (hcount : result.files.length < limits.maxEntries)
    (hsafe : isSafeRemotePath (genericString (p.drop root.length)) = true)
    (hsmall : fs.sizeAt p ≤ limits.maxFileSize.toNat)
    (henc : encodedSize + (14 + (genericString (p.drop root.length)).length) ≤ limits.maxEncodedSize) :
    Scanning limits fs root (done ++ [p]) rest { result with files := result.files ++ [recordOf fs root p] }
      (encodedSize + (14 + (genericString (p.drop root.length)).length)) := by
  have hperm := h.head_file hp hi
  have hlinks := below_linked (h.entries p (List.mem_cons_self ..)) hp hi (by simp)
  refine ⟨by simp [h.files_eq], ?_, h.links_skip hlinks, fun q hq =>
    h.entries q (List.mem_cons_of_mem _ hq), ?_, ?_,
    ?_, ?_, fun _ => henc⟩
  · rwa [List.append_cons] at hperm
  · have := congrArg List.length h.files_eq
    rw [List.length_map] at this
    rw [List.length_append, List.length_singleton]
    omega
  · intro k hk
    rcases List.mem_append.mp hk with hk | hk
    · exact h.safe k hk
    · rwa [List.mem_singleton.mp hk]
  · intro k hk
    rcases List.mem_append.mp hk with hk | hk
    · exact h.small k hk
    · rwa [List.mem_singleton.mp hk]
  · rw [h.size]
    simp only [manifestSize, List.map_append, List.sum_append, List.map_cons, List.map_nil, List.sum_singleton,
      recordOf]
    omega

theorem manifestSize_perm {a b : FileManifest} (h : a.Perm b) : manifestSize a = manifestSize b := by
  unfold manifestSize
  rw [(h.map _).sum_nat]

/-- One file too many. -/
theorem full (h : Scanning limits fs root done (p :: rest) result encodedSize)
    (hp : p.getLastD [] ≠ kPartialDirectory) (hi : fs.node p = some (.file i))
    (hcount : limits.maxEntries ≤ result.files.length) : ¬ Scannable limits fs root := by
  intro hs
  have hlen := (h.head_file hp hi).length_eq
  have hfiles := congrArg List.length h.files_eq
  have hmax := hs.count
  simp only [List.length_append, List.length_cons, List.length_map] at hlen hfiles
  omega

/-- A file whose record does not fit. -/
theorem overfull (h : Scanning limits fs root done (p :: rest) result encodedSize)
    (hp : p.getLastD [] ≠ kPartialDirectory) (hi : fs.node p = some (.file i))
    (henc : limits.maxEncodedSize < encodedSize + (14 + (genericString (p.drop root.length)).length)) :
    ¬ Scannable limits fs root := by
  intro hs
  have hperm := h.head_file hp hi
  have hne : treeFiles fs root ≠ [] := by
    intro hn
    rw [hn] at hperm
    exact absurd hperm.eq_nil (by simp)
  have hmax := hs.encoded hne
  rw [← manifestSize_perm (hperm.map (recordOf fs root))] at hmax
  rw [h.size, h.files_eq] at henc
  simp only [manifestSize, List.map_append, List.map_cons, List.sum_append, List.sum_cons, recordOf] at hmax henc
  omega

/-- Nothing left: the tree keeps the limits. -/
theorem scannable (hroot : fs.node root = some .dir)
    (h : Scanning limits fs root done [] result encodedSize) : Scannable limits fs root := by
  have hperm : done.Perm (treeFiles fs root) := by simpa using h.split
  refine ⟨hroot, by rw [← hperm.length_eq]; exact h.count, fun k hk => h.safe k (hperm.mem_iff.mpr hk),
    fun k hk => h.small k (hperm.mem_iff.mpr hk), fun hne => ?_⟩
  have hne' : done ≠ [] := by
    rintro rfl
    exact hne hperm.nil_eq.symm
  have := h.encoded hne'
  rwa [h.size, h.files_eq, manifestSize_perm (hperm.map _)] at this

theorem sorted (hroot : fs.node root = some .dir)
    (h : Scanning limits fs root done [] result encodedSize) : sortFiles result.files = listing fs root := by
  rw [h.files_eq]
  exact sortFiles_eq_listing hroot (by simpa using h.split)

/-- What a scan returns that has nothing left. -/
theorem scan_eq (hroot : fs.node root = some .dir) (h : Scanning limits fs root done [] result encodedSize) :
    { result with files := sortFiles result.files } =
      ({ files := listing fs root, skippedSymlinks := (treeLinks fs root).length } : DirectoryScan) := by
  rw [h.sorted hroot, ← h.links]
  rfl

end Scanning

end

/-! ## Scans -/

/-- A turn that goes on leaves `rest` to visit. -/
def Past (rest : List Path) (x : ScanState ⊕ Except ScanFailure DirectoryScan) : Prop :=
  x.elim (fun s => s.pending = rest) fun _ => True

theorem increment_does (entry : Path) (descend : Bool) (rest : List Path) (result : DirectoryScan)
    (encodedSize : Nat) :
    Does ReadCall (increment entry descend rest result encodedSize) fun x => descend = false → Past rest x := by
  unfold increment
  split
  · next hd =>
    refine does_sys rfl fun r => ?_
    cases r <;> exact does_pure fun hn => by rw [hd] at hn; cases hn
  · refine does_sys rfl fun r => ?_
    cases r with
    | error e => exact does_pure fun _ => trivial
    | ok _ => exact does_pure fun _ => rfl

theorem checksumFile_issues (path : Path) : Issues ReadCall (checksumFile path) := by
  refine does_sys rfl fun r => ?_
  cases r with
  | error e => exact issues_pure _
  | ok fd =>
    refine issues_bind (checksumStream_issues fd) fun r => ?_
    cases r <;> exact issues_pure _

theorem recordFile_does (root : Path) (limits : DirectoryScanLimits) (entry : Path) (rest : List Path)
    (result : DirectoryScan) (encodedSize : Nat) :
    Does ReadCall (recordFile root limits entry rest result encodedSize) (Past rest) := by
  unfold recordFile
  split
  · exact does_pure trivial
  · refine does_sys rfl fun r => ?_
    cases r with
    | error e => exact does_pure trivial
    | ok relative =>
      simp only
      split
      · exact does_pure trivial
      · refine does_sys rfl fun r => ?_
        cases r with
        | error e => exact does_pure trivial
        | ok size =>
          simp only
          split
          · exact does_pure trivial
          · split
            · exact does_pure trivial
            · refine issues_bind (checksumFile_issues entry) fun r => ?_
              cases r with
              | error e => exact does_pure trivial
              | ok checksum =>
                exact (increment_does _ false _ _ _).mono (fun _ _ _ ho => ho) fun _ _ hx => hx rfl

theorem uses_scanStep (root : Path) (limits : DirectoryScanLimits) (s : ScanState) :
    Uses ReadCall (scanStep root limits s) := by
  unfold scanStep
  split
  · exact uses_pure _
  · split
    · exact (increment_does _ _ _ _ _).uses
    · refine uses_sys rfl fun r => ?_
      cases r with
      | error e => exact uses_pure _
      | ok status =>
        cases status with
        | notFound => exact uses_pure _
        | symlink => exact (increment_does _ _ _ _ _).uses
        | regular => exact (recordFile_does _ _ _ _ _ _).uses
        | directory => exact (increment_does _ _ _ _ _).uses
        | other => exact (increment_does _ _ _ _ _).uses

theorem uses_scanDirectory (root : Path) (limits : DirectoryScanLimits) :
    Uses ReadCall (scanDirectory root limits) := by
  refine uses_sys rfl fun r => ?_
  cases r with
  | error e => exact uses_pure _
  | ok status =>
    simp only
    split
    · exact uses_pure _
    · refine uses_sys rfl fun r => ?_
      cases r with
      | error e => exact uses_pure _
      | ok names =>
        refine uses_bind (uses_iter (uses_scanStep root limits) _) fun r => ?_
        cases r <;> exact uses_pure _

section
variable {cr : Crypto} {rely : net.Rely} {I F : List net.Event → Prop} {fs : Fs} {root p : Path}
  {limits : DirectoryScanLimits}

theorem checksumFile_spec (hP : Permits rely I F) {w : World} {i : Nat} (hI : I w.log)
    (hi : w.host.fs.node p = some (.file i)) :
    Total (solo (exec cr) rely) (checksumFile p) w fun r w' => w'.host.fs = w.host.fs ∧
      match r with
      | .error _ => F w'.log
      | .ok crc => I w'.log ∧ crc = crc32 (w.host.fs.inode i).data := by
  refine total_openStream hP hI ⟨p, i, target_eq hi (by simp), rfl⟩ (fun errno w' hfs hF => total_pure ⟨hfs, hF⟩)
    fun fd w' hfs hI1 hs => ?_
  refine total_bind (total_mono (checksumStream_spec hP hI1 hs) ?_)
  rintro (errno | crc) w'' ⟨hfs', hpost⟩
  · exact total_pure ⟨hfs'.trans hfs, hpost⟩
  · obtain ⟨hI2, rfl⟩ := hpost
    exact total_pure ⟨hfs'.trans hfs, hI2, rfl⟩

/-- What a turn of the loop leaves: the walk goes on, fails, or is done.  It fails only if a call did, or if the
tree is not scannable. -/
def ScanPost (I F : List net.Event → Prop) (limits : DirectoryScanLimits) (fs : Fs) (root : Path) (s : ScanState)
    (x : ScanState ⊕ Except ScanFailure DirectoryScan) (w : World) : Prop :=
  w.host.fs = fs ∧
    match x with
    | .inl s' => I w.log ∧ (∃ done, Scanning limits fs root done s'.pending s'.result s'.encodedSize) ∧
        nodesLeft fs s'.pending < nodesLeft fs s.pending
    | .inr (.error _) => F w.log ∨ I w.log ∧ ¬ Scannable limits fs root
    | .inr (.ok r) => I w.log ∧ s.pending = [] ∧ r = s.result

section
variable {w : World} {s : ScanState} {rest done : List Path} {result : DirectoryScan} {encodedSize : Nat}
  (hP : Permits rely I F) (hI : I w.log) (hfs : w.host.fs = fs) (hpending : s.pending = p :: rest)
include hP hI hfs hpending

theorem increment_past (hne : fs.node p ≠ none) (h : Scanning limits fs root done rest result encodedSize) :
    Total (solo (exec cr) rely) (increment p false rest result encodedSize) w (ScanPost I F limits fs root s) := by
  have hcan : exec cr (.nextEntry p) w.host (.ok ()) = some w.host := by simp [exec, succeed]
  refine total_permitted hP rfl hI hcan (fun errno h' hfs' hF => total_pure ⟨hfs'.trans hfs, .inl hF⟩)
    fun _ h' _ hfs' hI1 => total_pure ⟨hfs'.trans hfs, hI1, ⟨done, h⟩, ?_⟩
  rw [hpending]
  exact nodesLeft_skip hne rest

theorem increment_into (hd : fs.node p = some .dir) (h : ∀ names : List Name, names.Perm (fs.children p) →
      Scanning limits fs root done (names.map (fun n => p ++ [n]) ++ rest) result encodedSize) :
    Total (solo (exec cr) rely) (increment p true rest result encodedSize) w (ScanPost I F limits fs root s) := by
  refine total_permitted hP rfl hI (listDir_can (hfs ▸ hd))
    (fun errno h' hfs' hF => total_pure ⟨hfs'.trans hfs, .inl hF⟩) fun names h' he hfs' hI1 => ?_
  have hn := exec_listDir (hfs ▸ hd) he
  rw [hfs] at hn
  refine total_pure ⟨hfs'.trans hfs, hI1, ⟨done, h names hn⟩, ?_⟩
  rw [hpending]
  exact nodesLeft_descend (by rw [hd]; simp) hn rest

theorem recordFile_spec {i : Nat} (h : Scanning limits fs root done (p :: rest) result encodedSize)
    (hp : p.getLastD [] ≠ kPartialDirectory) (hi : fs.node p = some (.file i)) :
    Total (solo (exec cr) rely) (recordFile root limits p rest result encodedSize) w
      (ScanPost I F limits fs root s) := by
  have hmem := h.mem_files hp hi
  obtain ⟨rel, hrel, -⟩ := mem_treeFiles.mp hmem
  unfold recordFile
  split
  · next hcount => exact total_pure ⟨hfs, .inr ⟨hI, h.full hp hi hcount⟩⟩
  · next hcount =>
    have hcan : exec cr (.relative p root) w.host (.ok rel) = some w.host := by simp [exec, succeed, hrel]
    refine total_permitted hP rfl hI hcan (fun errno h1 hfs1 hF => total_pure ⟨hfs1.trans hfs, .inl hF⟩)
      fun rel h1 he hfs1 hI1 => ?_
    obtain rfl : rel = p.drop root.length := by rw [exec_relative he, List.drop_left]
    have hi1 : h1.fs.node p = some (.file i) := by rw [hfs1, hfs]; exact hi
    simp only
    split
    · next hunsafe =>
      refine total_pure ⟨hfs1.trans hfs, .inr ⟨hI1, fun hs => ?_⟩⟩
      rw [hs.safe p hmem] at hunsafe
      cases hunsafe
    · next hsafe =>
      refine total_permitted hP rfl hI1 (fileSize_can (target_eq hi1 (by simp)))
        (fun errno h2 hfs2 hF => total_pure ⟨hfs2.trans (hfs1.trans hfs), .inl hF⟩)
        fun rawSize h2 he hfs2 hI2 => ?_
      have hfs2' : h2.fs = fs := hfs2.trans (hfs1.trans hfs)
      have hsize := exec_fileSize hi1 he
      rw [hfs1, hfs] at hsize
      subst hsize
      simp only
      split
      · next hbig =>
        exact total_pure ⟨hfs2', .inr ⟨hI2, fun hs => absurd (hs.small p hmem) (Nat.not_le.mpr hbig)⟩⟩
      · next hsmall =>
        split
        · next henc =>
          refine total_pure ⟨hfs2', .inr ⟨hI2, h.overfull hp hi ?_⟩⟩
          have h4 := h.size
          simp only [manifestSize] at h4
          omega
        · next henc =>
          refine total_bind (total_mono (checksumFile_spec hP hI2 (by rw [hfs2']; exact hi)) ?_)
          rintro (errno | crc) w' ⟨hw', hpost⟩
          · exact total_pure ⟨hw'.trans hfs2', .inl hpost⟩
          obtain ⟨hI', rfl⟩ := hpost
          have hrec : (⟨genericString (p.drop root.length), UInt64.ofNat (fs.sizeAt p),
            crc32 (h2.fs.inode i).data⟩ :
              FileRecord) = recordOf fs root p := by
            rw [hfs2', recordOf, fileAt_eq_some.mpr ⟨i, hi, rfl⟩, Option.getD_some]
          simp only [hrec]
          simp only [not_or, Nat.not_lt] at henc
          have hnext := h.record hp hi (by omega) (by simpa using hsafe) (Nat.not_lt.mp hsmall) (by omega)
          exact increment_past hP hI' (hw'.trans hfs2') hpending (by rw [hi]; simp) (by simpa using hnext)

end

/-- **A turn of the loop.** -/
theorem scanStep_spec (hP : Permits rely I F) {w : World} {s : ScanState} {done : List Path} (hI : I w.log)
    (hfs : w.host.fs = fs) (h : Scanning limits fs root done s.pending s.result s.encodedSize) :
    Total (solo (exec cr) rely) (scanStep root limits s) w (ScanPost I F limits fs root s) := by
  unfold scanStep
  split
  · next hpending => exact total_pure ⟨hfs, hI, hpending, rfl⟩
  · next entry rest hpending =>
    rw [hpending] at h
    have hentry := h.entries entry (List.mem_cons_self ..)
    obtain ⟨x, hx⟩ := Option.ne_none_iff_exists'.mp hentry.1
    split
    · next hpart => exact increment_past hP hI hfs hpending hentry.1 (h.pass_state hpart)
    · next hpart =>
      have ht : w.host.fs.typeAt entry = .ok (typeOf (some x)) := by rw [hfs, typeAt_of_node hx]
      refine total_permitted hP rfl hI (lstat_can ht)
        (fun errno h1 hfs1 hF => total_pure ⟨hfs1.trans hfs, .inl hF⟩)
        fun status h1 he hfs1 hI1 => ?_
      have hfs1' : h1.fs = fs := hfs1.trans hfs
      obtain rfl := Except.ok.inj (ht.symm.trans (exec_lstat he))
      cases x with
      | dir => exact increment_into hP hI1 hfs1' hpending hx fun names hn => h.descend hpart hx hn
      | file i => exact recordFile_spec hP hI1 hfs1' hpending h hpart hx
      | symlink t =>
        exact increment_past hP hI1 hfs1' hpending hentry.1
          (h.skip (below_other hx (by simp) (by simp)) (below_linked hentry hpart hx (by simp)))
      | special =>
        exact increment_past hP hI1 hfs1' hpending hentry.1
          (h.pass (below_other hx (by simp) (by simp)) (below_linked hentry hpart hx (by simp)))

/-- How a scan ends: with what it is for, or because a call failed, or because the tree does not keep the
limits. -/
def ScanEnd (I F : List net.Event → Prop) (limits : DirectoryScanLimits) (fs : Fs) (root : Path)
    (r : Except ScanFailure DirectoryScan) (w : World) : Prop :=
  w.host.fs = fs ∧
    match r with
    | .error _ => F w.log ∨ I w.log ∧ ¬ Scannable limits fs root
    | .ok scan => I w.log ∧ Scannable limits fs root ∧
        scan = { files := listing fs root, skippedSymlinks := (treeLinks fs root).length }

/-- **Scans.**  A scan ends and changes nothing.  If it succeeds no call has failed, the tree keeps the limits and
the result is its listing; if it does not, then a call has failed or the tree does not keep the limits. -/
theorem scanDirectory_spec (hP : Permits rely I F) {w : World} (hI : I w.log) (hp : w.host.fs.Plain root)
    (hcan : ∃ r h₀, rely w.log (.call (.lstat root)) r ∧ exec cr (.lstat root) w.host r = some h₀) :
    Total (solo (exec cr) rely) (scanDirectory root limits) w (ScanEnd I F limits w.host.fs root) := by
  refine total_answered hP rfl hI hcan (fun errno h1 hfs1 hF => total_pure ⟨hfs1, .inl hF⟩)
    fun status h1 he hfs1 hI1 => ?_
  simp only
  split
  · next hdir =>
    refine total_pure ⟨hfs1, .inr ⟨hI1, fun hs => hdir ?_⟩⟩
    have := exec_lstat he
    rw [typeAt_of_node hs.isDir] at this
    exact (Except.ok.inj this).symm
  · next hdir =>
    have hstatus := not_not.mp hdir
    have hroot : w.host.fs.node root = some .dir :=
      node_of_typeOf.1 ((typeAt_found hp (exec_lstat he) (by rw [hstatus]; simp)).trans hstatus)
    have hroot1 : h1.fs.node root = some .dir := by rw [hfs1]; exact hroot
    refine total_permitted hP rfl hI1 (listDir_can hroot1)
      (fun errno h2 hfs2 hF => total_pure ⟨hfs2.trans hfs1, .inl hF⟩) fun names h2 he hfs2 hI2 => ?_
    have hn := exec_listDir hroot1 he
    rw [hfs1] at hn
    let J : ScanState → World → Prop := fun s w' => w'.host.fs = w.host.fs ∧ I w'.log ∧
      ∃ done, Scanning limits w.host.fs root done s.pending s.result s.encodedSize
    refine total_bind (total_iter J (fun s _ => nodesLeft w.host.fs s.pending) ?_
      ⟨hfs2.trans hfs1, hI2, [], Scanning.start hroot hn⟩)
    rintro s w' ⟨hfs', hI', done, hscan⟩
    refine total_mono (scanStep_spec hP hI' hfs' hscan) ?_
    rintro (s' | (failure | result)) w'' ⟨hfs'', hpost⟩
    · exact ⟨⟨hfs'', hpost.1, hpost.2.1⟩, hpost.2.2⟩
    · exact total_pure ⟨hfs'', hpost⟩
    · obtain ⟨hI'', hpending, rfl⟩ := hpost
      rw [hpending] at hscan
      exact total_pure ⟨hfs'', hI'', hscan.scannable hroot, hscan.scan_eq hroot⟩

/-- With any answers. -/
theorem scanDirectory_any {w : World} (hp : w.host.fs.Plain root) :
    Total (solo (exec cr) anyAnswer) (scanDirectory root limits) w
      (ScanEnd (fun _ => True) (fun _ => True) limits w.host.fs root) :=
  scanDirectory_spec permits_anyAnswer trivial hp ⟨.error 0, _, trivial, rfl⟩

/-- For what is known whether calls fail or not. -/
theorem scanDirectory_safe {G : World → World → Prop} (hA : Admits I G) {w : World} (hI : I w.log)
    (hp : w.host.fs.Plain root) {Q : Except ScanFailure DirectoryScan → World → Prop}
    (hQ : ∀ r w', w'.host.fs = w.host.fs → I w'.log →
      (∀ s, r = .ok s → s.files = listing w.host.fs root ∧ Scannable limits w.host.fs root) → Q r w') :
    Safe (solo (exec cr) rely) G (scanDirectory root limits) w Q := by
  refine safe_reading (uses_scanDirectory root limits) hA hI fun r w' hr hfs hI' => hQ r w' hfs hI' ?_
  rintro s rfl
  obtain ⟨-, -, hscannable, rfl⟩ := (scanDirectory_any hp).result hr
  exact ⟨rfl, hscannable⟩

end

end SyncWire
