import UrReplay.Files.Tree.Access
import UrReplay.Proofs.Discovery.Captures
/-!
# UrReplay.Proofs.Discovery.Answer

What discovery answers for a path that leads to a directory or to nothing (`discover_exact`).

`Answers` says it by the files that lie in the directory, and not by a listing. A `Listing` of a directory has
these files in any order and each of them once, so it has the names that a pattern accepts in the one order in
which they ascend (`Listing.matchingNames_eq_iff`). Hence there is one answer, and it is the same for every
listing of the directory (`Listing.answers_iff`).
-/

namespace UrReplay.Discovery

variable {tree : FileTree} {patterns : Patterns} {pattern : Pattern} {root : Path} {place : Location}
  {listing other : List Listed} {names : List Text} {answer : Except Error (List Path)}

/-- A file lies in a place itself. Directories and links are no files, and what is in a directory lies there. -/
def IsFileIn (tree : FileTree) (place : Location) (name : Text) : Prop :=
  ∃ content, tree.get? (name :: place) = some (.file content)

/-- A file lies in a place itself, and a pattern accepts its name. -/
def IsMatch (tree : FileTree) (place : Location) (pattern : Pattern) (name : Text) : Prop :=
  IsFileIn tree place name ∧ pattern.accepts name = true

/-- There is nothing at a path. -/
def IsMissing (tree : FileTree) (path : Path) : Prop :=
  tree.resolve path = .error .notFound ∨ ∃ location, tree.resolve path = .ok (.vacant location)

/-- The names with a property, ascending. So no name comes twice. -/
structure Ascending (p : Text → Prop) (names : List Text) : Prop where
  ascending : names.Pairwise (· < ·)
  mem_iff : ∀ name, name ∈ names ↔ p name

/-- The answer for a path that leads to a directory or to nothing. -/
inductive Answers (tree : FileTree) (patterns : Patterns) (root : Path) : Except Error (List Path) → Prop
  | primary {place : Location} {names : List Text} : tree.resolve root = .ok (.directory place) →
      Ascending (IsMatch tree place patterns.primary) names → names ≠ [] →
      Answers tree patterns root (.ok (names.map root.join))
  | legacy {place : Location} {names : List Text} : tree.resolve root = .ok (.directory place) →
      (∀ name, ¬IsMatch tree place patterns.primary name) →
      Ascending (IsMatch tree place patterns.legacy) names → names ≠ [] →
      Answers tree patterns root (.ok (names.map root.join))
  | none {place : Location} : tree.resolve root = .ok (.directory place) →
      (∀ name, ¬IsMatch tree place patterns.primary name) →
      (∀ name, ¬IsMatch tree place patterns.legacy name) →
      Answers tree patterns root (.error (.noTestFiles root))
  | missing : IsMissing tree root → Answers tree patterns root (.error (.noTestFiles root))

/-! ### Ascending names -/

theorem Ascending.unique {p : Text → Prop} {names' : List Text} (h : Ascending p names)
    (h' : Ascending p names') : names = names' := by
  have hperm : names.Perm names' := by
    rw [List.perm_ext_iff_of_nodup (h.ascending.imp ne_of_lt) (h'.ascending.imp ne_of_lt)]
    exact fun name => (h.mem_iff name).trans (h'.mem_iff name).symm
  exact hperm.eq_of_pairwise (fun _ _ _ _ hlt hgt => absurd hlt (lt_asymm hgt)) h.ascending h'.ascending

theorem Ascending.eq_nil_iff {p : Text → Prop} (h : Ascending p names) : names = [] ↔ ∀ name, ¬p name := by
  rw [List.eq_nil_iff_forall_not_mem]
  exact forall_congr' fun name => not_congr (h.mem_iff name)

/-! ### Listings -/

/-- A listing of a place has its files, and every name once. -/
structure Listing (tree : FileTree) (place : Location) (listing : List Listed) : Prop where
  nodup : (listing.map (·.name)).Nodup
  mem_iff : ∀ name, (⟨name, true⟩ : Listed) ∈ listing ↔ IsFileIn tree place name

namespace Listing

theorem perm (h : Listing tree place listing) (hperm : other.Perm listing) : Listing tree place other where
  nodup := (hperm.map _).nodup_iff.2 h.nodup
  mem_iff name := hperm.mem_iff.trans (h.mem_iff name)

theorem exists_of_directory (h : tree.resolve root = .ok (.directory place)) :
    ∃ listing, tree.list root = .ok listing ∧ Listing tree place listing :=
  ⟨tree.children place, by rw [FileTree.list, h], FileTree.nodup_map_name_children tree place,
    fun _ => FileTree.file_mem_children_iff⟩

theorem ascending (h : Listing tree place listing) (pattern : Pattern) :
    Ascending (IsMatch tree place pattern) (matchingNames pattern listing) where
  ascending := by
    refine (pairwise_matchingNames pattern listing).imp₂ (fun _ _ => Text.lt_of_le_of_ne) ?_
    exact nodup_matchingNames h.nodup
  mem_iff name := by
    rw [mem_matchingNames, h.mem_iff, and_comm, IsMatch]

/-- There is one answer for a directory: the one that any listing of it gives. -/
theorem answers_iff (h : Listing tree place listing) (hroot : tree.resolve root = .ok (.directory place)) :
    Answers tree patterns root answer ↔ answer = captures patterns root (.ok listing) := by
  have hprimary := h.ascending patterns.primary
  have hlegacy := h.ascending patterns.legacy
  have hplace {place' : Location} (hroot' : tree.resolve root = .ok (.directory place')) : place = place' :=
    FileTree.Arrival.directory.inj (Except.ok.inj (hroot.symm.trans hroot'))
  rw [captures_ok, captureNames_eq]
  constructor
  · intro hanswer
    cases hanswer with
    | primary hroot' hnames hne =>
      obtain rfl := hplace hroot'
      obtain rfl := hnames.unique hprimary
      rw [if_neg hne, if_neg hne]
    | legacy hroot' hnone hnames hne =>
      obtain rfl := hplace hroot'
      obtain rfl := hnames.unique hlegacy
      rw [if_pos (hprimary.eq_nil_iff.2 hnone), if_neg hne]
    | none hroot' hnone hnone' =>
      obtain rfl := hplace hroot'
      rw [if_pos (hprimary.eq_nil_iff.2 hnone), if_pos (hlegacy.eq_nil_iff.2 hnone')]
    | missing hmissing =>
      rcases hmissing with hnothing | ⟨location, hvacant⟩
      · exact absurd (hroot.symm.trans hnothing) nofun
      · exact absurd (hroot.symm.trans hvacant) nofun
  · rintro rfl
    by_cases hfirst : matchingNames patterns.primary listing = []
    · have hnone := hprimary.eq_nil_iff.1 hfirst
      rw [if_pos hfirst]
      by_cases hsecond : matchingNames patterns.legacy listing = []
      · rw [if_pos hsecond]
        exact .none hroot hnone (hlegacy.eq_nil_iff.1 hsecond)
      · rw [if_neg hsecond]
        exact .legacy hroot hnone hlegacy hsecond
    · rw [if_neg hfirst, if_neg hfirst]
      exact .primary hroot hprimary hfirst

/-- Every listing of a directory gives the same answer. -/
theorem captures_eq (h : Listing tree place listing) (h' : Listing tree place other)
    (hroot : tree.resolve root = .ok (.directory place)) :
    captures patterns root (.ok listing) = captures patterns root (.ok other) :=
  (h'.answers_iff hroot).1 ((h.answers_iff hroot).2 rfl)

end Listing

theorem IsMissing.list (h : IsMissing tree root) : tree.list root = .error .notFound := by
  rw [FileTree.list]
  rcases h with hnothing | ⟨location, hvacant⟩
  · rw [hnothing]
  · rw [hvacant]

theorem IsMissing.answers_iff (h : IsMissing tree root) :
    Answers tree patterns root answer ↔ answer = .error (.noTestFiles root) := by
  have hno {place : Location} (hroot : tree.resolve root = .ok (.directory place)) : False := by
    rcases h with hnothing | ⟨location, hvacant⟩
    · exact absurd (hroot.symm.trans hnothing) nofun
    · exact absurd (hroot.symm.trans hvacant) nofun
  constructor
  · intro hanswer
    cases hanswer with
    | primary hroot _ _ => exact (hno hroot).elim
    | legacy hroot _ _ _ => exact (hno hroot).elim
    | none hroot _ _ => exact (hno hroot).elim
    | missing _ => rfl
  · rintro rfl
    exact .missing h

/-! ### Discovery -/

/-- Access to the files of a tree that lists directories in another order. -/
@[reducible] def accessInOrder (order : List Listed → List Listed) : MonadFiles (StateM FileTree) where
  readFile := MonadFiles.readFile
  writeFile := MonadFiles.writeFile
  listDirectory path := return ((← get).list path).map order

/-- Where no name has a slash in it, no file is found twice. -/
theorem Answers.nodup {files : List Path} (h : Answers tree patterns root (.ok files))
    (hslash : ∀ location name entry, tree.get? (name :: location) = some entry → '/' ∉ name) :
    files.Nodup := by
  have hplain {place : Location} {pattern : Pattern} {name : Text} (hmatch : IsMatch tree place pattern name) :
      '/' ∉ name := by
    obtain ⟨⟨content, hget⟩, -⟩ := hmatch
    exact hslash place name _ hget
  have hmap {place : Location} {pattern : Pattern} {names : List Text}
      (hnames : Ascending (IsMatch tree place pattern) names) : (names.map root.join).Nodup := by
    refine List.Nodup.map_on ?_ (hnames.ascending.imp ne_of_lt)
    intro name hname name' hname'
    exact Path.join_injective (hplain ((hnames.mem_iff name).1 hname)) (hplain ((hnames.mem_iff name').1 hname'))
  cases h with
  | primary _ hnames _ => exact hmap hnames
  | legacy _ _ hnames _ => exact hmap hnames

/-- For a path that leads to a directory or to nothing, discovery gives the one answer: the files directly in the
directory whose names match the primary pattern, ascending; if there is none, those that match the legacy pattern;
and if there is none, or nothing at the path, that there are no test files at it. The tree stays as it is. The
answer is the same in whichever order the directory is listed, and no file is in it twice. -/
theorem discover_exact
    (h : (∃ place, tree.resolve root = .ok (.directory place)) ∨ IsMissing tree root) :
    ∃ answer, (discover patterns root : StateM FileTree _).run tree = (answer, tree) ∧
      (∀ other, Answers tree patterns root other ↔ other = answer) ∧
      (∀ order, (∀ listing, (order listing).Perm listing) →
        (@discover (StateM FileTree) _ (accessInOrder order) patterns root).run tree = (answer, tree)) ∧
      ((∀ location name entry, tree.get? (name :: location) = some entry → '/' ∉ name) →
        ∀ files, answer = .ok files → files.Nodup) := by
  have hrun : (discover patterns root : StateM FileTree _).run tree =
      (captures patterns root (tree.list root), tree) := rfl
  have horder (order : List Listed → List Listed) :
      (@discover (StateM FileTree) _ (accessInOrder order) patterns root).run tree =
        (captures patterns root ((tree.list root).map order), tree) := rfl
  have hanswers : (∀ other, Answers tree patterns root other ↔
        other = captures patterns root (tree.list root)) ∧
      (∀ order, (∀ listing, (order listing).Perm listing) →
        captures patterns root ((tree.list root).map order) = captures patterns root (tree.list root)) := by
    rcases h with ⟨place, hroot⟩ | hmissing
    · obtain ⟨listing, hlist, hlisting⟩ := Listing.exists_of_directory hroot
      rw [hlist]
      exact ⟨fun other => hlisting.answers_iff hroot,
        fun order hperm => (hlisting.perm (hperm listing)).captures_eq hlisting hroot⟩
    · rw [hmissing.list]
      exact ⟨fun other => hmissing.answers_iff, fun order _ => rfl⟩
  refine ⟨_, hrun, hanswers.1, fun order hperm => ?_, fun hslash files hfiles => ?_⟩
  · rw [horder, hanswers.2 order hperm]
  · exact ((hanswers.1 (.ok files)).2 hfiles.symm).nodup hslash

/-- A directory in which a link, a directory and a file below it have names of the primary pattern. The
working directory is beside it. -/
def legacyCases : FileTree where
  home := ["work".toList]
  entries :=
    let cases := "cases".toList
    [ (["work".toList], .directory),
      ([cases], .directory),
      (["fragments_2.txt".toList, cases], .file []),
      (["a.UR_fragments.txt".toList, cases], .link ⟨"fragments_2.txt".toList⟩),
      (["b.UR_fragments.txt".toList, cases], .directory),
      (["c.UR_fragments.txt".toList, "b.UR_fragments.txt".toList, cases], .file []),
      (["fragments_1.txt".toList, cases], .file []) ]
  nodup := by decide
  way := by decide

theorem matchingNames_legacyCases :
    matchingNames Patterns.standard.legacy (legacyCases.children ["cases".toList]) =
      ["fragments_1.txt".toList, "fragments_2.txt".toList] :=
  ((List.mergeSort_perm _ _).trans (by decide)).eq_of_pairwise (fun _ _ _ _ => Text.le_antisymm)
    (pairwise_matchingNames _ _) (by decide)

/-- Only the files of the legacy pattern are found, in order. -/
theorem discover_exact_legacy :
    (∃ place, legacyCases.resolve ⟨"/cases".toList⟩ = .ok (.directory place)) ∧
      Answers legacyCases .standard ⟨"/cases".toList⟩
        (.ok [⟨"/cases/fragments_1.txt".toList⟩, ⟨"/cases/fragments_2.txt".toList⟩]) := by
  have hresolve : legacyCases.resolve ⟨"/cases".toList⟩ = .ok (.directory ["cases".toList]) := by decide
  have hnone : matchingNames Patterns.standard.primary (legacyCases.children ["cases".toList]) = [] :=
    ((List.mergeSort_perm _ _).trans (by decide)).eq_nil
  have hnames : captureNames .standard (legacyCases.children ["cases".toList]) =
      ["fragments_1.txt".toList, "fragments_2.txt".toList] := by
    rw [captureNames_eq, if_pos hnone, matchingNames_legacyCases]
  have hcaptures := captures_of_directory hresolve (hnames ▸ List.cons_ne_nil _ _)
  rw [hnames] at hcaptures
  obtain ⟨answer, hrun, hanswers, -, -⟩ := @discover_exact legacyCases .standard _ (.inl ⟨_, hresolve⟩)
  refine ⟨⟨_, hresolve⟩, (hanswers _).2 ?_⟩
  exact hcaptures.symm.trans (congrArg Prod.fst hrun)

end UrReplay.Discovery
