import UrReplay.Proofs.Golden.Content
import UrReplay.Proofs.Session.Delivery
import UrReplay.Proofs.Suite.Site
import UrReplay.Proofs.Suite.Verify
/-!
# UrReplay.Proofs.Suite.Generation

Golden files that are written and then compared with.

Writing the golden file for one capture changes neither what the others hold nor where their golden files
go. So all captures are reported on as in the tree at the beginning, whatever the order, and the golden
files are those of the tree at the beginning, too (`Site.run_verifyAll`). Comparing with them afterwards
agrees with having written them (`Site.checkedIn_eq_generatedIn`).
-/

namespace UrReplay.Suite

open Discovery (captureNames)
open FileTree (Overlay run_bind)
open Golden (Naming)
open Resource (Decoder)

section

variable (σ : Type) {ε : Type} [FragmentDecoder σ ε] [Inhabited σ] {settings : Settings}
  {naming : Naming} {tree t : FileTree} {directory path : Path} {location place : Location}
  {names : List Text} {name : Text} {content : Bytes} {order : List Path}

/-! ### One capture -/

theorem goldenOf_eq_some (h : goldenOf σ naming tree path = some (place, content)) :
    tree.destination? (naming.goldenPath path) = some place ∧
      ∃ payload, (outcomeIn σ tree path).payload = some payload ∧
        content = Utf8.encode (Golden.render payload) := by
  simp only [goldenOf, Option.bind_eq_bind, Option.bind_eq_some_iff, Option.pure_def, Option.some.injEq,
    Prod.mk.injEq] at h
  obtain ⟨payload, hpayload, _, hplace, rfl, rfl⟩ := h
  exact ⟨hplace, payload, hpayload, rfl⟩

namespace Site

section

variable (site : Site naming tree directory location names)
  (hoverlay : Overlay tree t (goldenPlaces naming location names))

include site hoverlay

theorem outcomeIn_overlay (hname : name ∈ names) :
    outcomeIn σ t (directory.join name) = outcomeIn σ tree (directory.join name) := by
  rw [outcomeIn, outcomeIn,
    hoverlay.read site.directoryAt (site.nameIn_join hname) (site.not_mem_goldenPlaces hname)]

theorem destination?_overlay (hname : name ∈ names) :
    t.destination? (naming.goldenPath (directory.join name)) =
      tree.destination? (naming.goldenPath (directory.join name)) :=
  hoverlay.destination? site.directoryAt (site.nameIn_goldenPath hname)

theorem goldenOf_overlay (hname : name ∈ names) :
    goldenOf σ naming t (directory.join name) = goldenOf σ naming tree (directory.join name) := by
  rw [goldenOf, goldenOf, site.outcomeIn_overlay σ hoverlay hname,
    site.destination?_overlay hoverlay hname]

theorem generatedIn_overlay (hname : name ∈ names) :
    generatedIn σ naming t (directory.join name) =
      generatedIn σ naming tree (directory.join name) := by
  rw [generatedIn, generatedIn, site.outcomeIn_overlay σ hoverlay hname,
    site.destination?_overlay hoverlay hname]

/-- The golden file for a capture leaves the others and their golden files to be found as before. -/
theorem overlay_insertFiles (hname : name ∈ names) :
    Overlay tree (t.insertFiles (goldenOf σ naming tree (directory.join name)).toList)
      (goldenPlaces naming location names) := by
  cases hgolden : goldenOf σ naming tree (directory.join name) with
  | none => exact hoverlay
  | some file =>
    obtain ⟨place, content⟩ := file
    obtain ⟨hplace, -⟩ := goldenOf_eq_some σ hgolden
    have hfree := (site.directoryAt.of_destination? (site.nameIn_goldenPath hname) hplace).2.1
    exact hoverlay.insert (site.mem_goldenPlaces_of_destination? hname hplace) hfree content

end

/-! ### All captures -/

/-- A run that writes golden files reports on every capture as if it were the first, and writes the golden
files that it would write then. -/
theorem run_verifyAll (site : Site naming tree directory location names)
    (h : settings.generateGolden = true) (hnaming : settings.naming = naming)
    (horder : order ⊆ names.map directory.join)
    (hoverlay : Overlay tree t (goldenPlaces naming location names)) :
    (verifyAll σ settings order : StateM FileTree _).run t =
        (order.map (generatedIn σ naming tree),
          t.insertFiles (order.filterMap (goldenOf σ naming tree))) ∧
      Overlay tree (t.insertFiles (order.filterMap (goldenOf σ naming tree)))
        (goldenPlaces naming location names) := by
  induction order generalizing t with
  | nil => exact ⟨rfl, hoverlay⟩
  | cons path order ih =>
    obtain ⟨hpath, hrest⟩ := List.cons_subset.1 horder
    obtain ⟨name, hname, rfl⟩ := List.mem_map.1 hpath
    -- With the golden file for the first capture the tree is an overlay again, so the others are reported
    -- on as in `tree`.
    obtain ⟨hrun, hoverlay'⟩ := ih hrest (site.overlay_insertFiles σ hoverlay hname)
    have hfiles : (t.insertFiles (goldenOf σ naming tree (directory.join name)).toList).insertFiles
          (order.filterMap (goldenOf σ naming tree)) =
        t.insertFiles ((directory.join name :: order).filterMap (goldenOf σ naming tree)) := by
      rw [List.filterMap_cons]
      cases goldenOf σ naming tree (directory.join name) <;> rfl
    rw [← hfiles]
    refine ⟨?_, hoverlay'⟩
    rw [verifyAll, run_bind, run_verify_of_generating σ t _ h, hnaming, run_bind,
      site.goldenOf_overlay σ hoverlay hname, site.generatedIn_overlay σ hoverlay hname, hrun]
    rfl

/-- Different captures have their golden files at different locations, none of which has to stay a
directory. -/
theorem nodup_goldenOf (site : Site naming tree directory location names) :
    (((names.map directory.join).filterMap (goldenOf σ naming tree)).map Prod.fst).Nodup ∧
      tree.Movable ((names.map directory.join).filterMap (goldenOf σ naming tree)) := by
  have hplace {name : Text} (hname : name ∈ names) {file : Location × Bytes}
      (hfile : goldenOf σ naming tree (directory.join name) = some file) :
      file.1 = naming.goldenName name :: location ∧ tree.get? file.1 ≠ some .directory ∧ _ :=
    site.directoryAt.of_destination? (site.nameIn_goldenPath hname) (goldenOf_eq_some σ hfile).1
  rw [List.filterMap_map]
  constructor
  · refine List.pairwise_map.2 (site.apart.pairwise_goldenName.filterMap _ ?_)
    intro name other ⟨hname, hother, hne⟩ file hfile file' hfile' heq
    rw [(hplace hname hfile).1, (hplace hother hfile').1] at heq
    exact hne (List.cons.inj heq).1
  · intro place hmem
    obtain ⟨file, hfile, rfl⟩ := List.mem_map.1 hmem
    obtain ⟨name, hname, hgolden⟩ := List.mem_filterMap.1 hfile
    exact mt FileTree.IsFixed.get?_eq (hplace hname hgolden).2.1

/-! ### Where golden files go -/

theorem locate?_join (site : Site naming tree directory location names) (hname : name ∈ names) :
    tree.locate? (directory.join name) = some (name :: location) :=
  site.directoryAt.locate? (site.nameIn_join hname)

theorem locate?_goldenPath (site : Site naming tree directory location names) (hname : name ∈ names) :
    tree.locate? (naming.goldenPath (directory.join name)) = some (naming.goldenName name :: location) :=
  site.directoryAt.locate? (site.nameIn_goldenPath hname)

/-- The golden files for captures are different ones. -/
theorem nodup_locate? (site : Site naming tree directory location names) :
    ((names.map directory.join).map fun path => tree.locate? (naming.goldenPath path)).Nodup := by
  rw [List.map_map]
  refine List.pairwise_map.2 (site.apart.pairwise_goldenName.imp ?_)
  intro name other ⟨hname, hother, hne⟩ heq
  have heq := (site.locate?_goldenPath hname).symm.trans (heq.trans (site.locate?_goldenPath hother))
  exact hne (List.cons.inj (Option.some.inj heq)).1

/-- None of the golden files is a capture. -/
theorem locate?_ne (site : Site naming tree directory location names)
    (hpath : path ∈ names.map directory.join) {capture : Path}
    (hcapture : capture ∈ names.map directory.join) :
    tree.locate? (naming.goldenPath path) ≠ tree.locate? capture := by
  obtain ⟨name, hname, rfl⟩ := List.mem_map.1 hpath
  obtain ⟨other, hother, rfl⟩ := List.mem_map.1 hcapture
  rw [site.locate?_goldenPath hname, site.locate?_join hother]
  intro heq
  exact site.apart.goldenName_not_mem name hname ((List.cons.inj (Option.some.inj heq)).1 ▸ hother)

/-- What differs after golden files have been written is one of them. -/
theorem exists_of_get?_insertFiles_ne (site : Site naming tree directory location names)
    (hplace : tree.get? place ≠
      (tree.insertFiles ((names.map directory.join).filterMap (goldenOf σ naming tree))).get? place) :
    ∃ path ∈ names.map directory.join, (outcomeIn σ tree path).succeeded = true ∧
      tree.locate? (naming.goldenPath path) = some place := by
  have hwritten :
      place ∈ ((names.map directory.join).filterMap (goldenOf σ naming tree)).map Prod.fst := by
    by_contra hnot
    exact hplace (FileTree.get?_insertFiles_of_not_mem (site.nodup_goldenOf σ).2 hnot).symm
  obtain ⟨⟨_, content⟩, hfile, rfl⟩ := List.mem_map.1 hwritten
  obtain ⟨path, hpath, hgolden⟩ := List.mem_filterMap.1 hfile
  obtain ⟨hdestination, payload, hpayload, -⟩ := goldenOf_eq_some σ hgolden
  obtain ⟨name, hname, rfl⟩ := List.mem_map.1 hpath
  obtain ⟨rfl, -, -⟩ := site.directoryAt.of_destination? (site.nameIn_goldenPath hname) hdestination
  exact ⟨_, hpath, congrArg Option.isSome hpayload, site.locate?_goldenPath hname⟩

/-! ### Comparing -/

/-- Once the golden file that `goldenOf` gives is there, comparing agrees with having written it. -/
theorem checkedIn_eq_generatedIn (site : Site naming tree directory location names)
    (h : settings.compareGolden = true) (hnaming : settings.naming = naming)
    (hoverlay : Overlay tree t (goldenPlaces naming location names)) (hname : name ∈ names)
    (hthere : ∀ file, goldenOf σ naming tree (directory.join name) = some file →
      t.get? file.1 = some (.file file.2))
    (hpayload : ∀ payload, (outcomeIn σ tree (directory.join name)).payload = some payload →
      payload ≠ []) :
    let generated := generatedIn σ naming tree (directory.join name)
    let checked := checkedIn σ settings t (directory.join name)
    checked.outcome = generated.outcome ∧
      (generated.written.isSome = true → checked.golden = .matched) ∧
      checked.passed = generated.passed := by
  subst hnaming
  have hgolden := site.nameIn_goldenPath hname
  have hdirectory := hoverlay.directoryAt site.directoryAt
  have hsame := site.destination?_overlay hoverlay hname
  rw [goldenOf] at hthere
  rw [checkedIn, generatedIn, h, site.outcomeIn_overlay σ hoverlay hname]
  cases houtcome : (outcomeIn σ tree (directory.join name)).payload with
  | none => exact ⟨rfl, fun hwritten => absurd hwritten Bool.false_ne_true, rfl⟩
  | some payload =>
    cases hplace : tree.destination? (settings.naming.goldenPath (directory.join name)) with
    | none =>
      -- Where nothing can be written nothing can be read: the check fails as the writing did. Were the
      -- file missing instead, the check would pass.
      rw [hplace] at hsame
      refine ⟨rfl, fun hwritten => absurd hwritten Bool.false_ne_true, ?_⟩
      simp only [hdirectory.read_of_destination?_eq_none hgolden hsame, FileReport.passed,
        Golden.isFailure_ofFile_inaccessible, Bool.not_true, Bool.and_false, Bool.false_and,
        Option.isNone_some]
    | some place =>
      rw [hplace] at hsame
      have hfile := hthere _ (by rw [houtcome, hplace]; rfl)
      have hspells := Golden.spells_render (hpayload payload houtcome)
      dsimp only
      rw [hdirectory.read_of_file hgolden hsame hfile, Golden.ofFile_of_spells hspells]
      exact ⟨rfl, fun _ => rfl, rfl⟩

end Site

end

/-! ### Runs over the captures that are found -/

variable {settings : Settings} {tree t : FileTree} {location : Location} {files order : List Path}

/-- A run over capture files that writes golden files. -/
def generate (settings : Settings) (files : List Path) (tree : FileTree) : List FileReport × FileTree :=
  (verifyAll Decoder { settings with generateGolden := true } files : StateM FileTree _).run tree

/-- A run over capture files that compares with golden files. -/
def compare (settings : Settings) (files : List Path) (tree : FileTree) : List FileReport × FileTree :=
  (verifyAll Decoder { settings with generateGolden := false, compareGolden := true } files :
    StateM FileTree _).run tree

theorem site_of_found (hplain : tree.Plain) (hpatterns : settings.patterns = .standard)
    (h : found settings tree = .ok files) :
    ∃ location, Site .standard tree settings.casesDirectory location
        (captureNames .standard (tree.children location)) ∧
      captureNames .standard (tree.children location) ≠ [] ∧
      files = (captureNames .standard (tree.children location)).map settings.casesDirectory.join := by
  rw [found_eq, hpatterns] at h
  obtain ⟨location, hresolve, hsome, rfl⟩ := Discovery.captures_eq_ok h
  exact ⟨location, ⟨apart_children hplain location, ⟨hplain.linkFree, hresolve⟩⟩, hsome, rfl⟩

/-- The captures that are found are the same after golden files have been written. -/
theorem found_overlay (hpatterns : settings.patterns = .standard)
    (site : Site .standard tree settings.casesDirectory location
      (captureNames .standard (tree.children location)))
    (hsome : captureNames .standard (tree.children location) ≠ [])
    (hoverlay : Overlay tree t
      (goldenPlaces .standard location (captureNames .standard (tree.children location)))) :
    found settings t =
      .ok ((captureNames .standard (tree.children location)).map settings.casesDirectory.join) := by
  have hsame := captureNames_overlay hoverlay
  have hresolve := (hoverlay.directoryAt site.directoryAt).resolve_eq
  rw [← hsame] at hsome ⊢
  rw [found_eq, hpatterns, Discovery.captures_of_directory hresolve hsome]

theorem compare_eq (settings : Settings) (files : List Path) (tree : FileTree) :
    compare settings files tree =
      (files.map (checkedIn Decoder { settings with generateGolden := false, compareGolden := true } tree),
        tree) :=
  run_verifyAll_of_not_generating Decoder tree rfl files

namespace Site

variable {directory : Path} {names : List Text}

/-- A run that writes golden files, in the tree as it was or with some of them. -/
theorem generate_eq (site : Site .standard tree directory location names)
    (hnaming : settings.naming = .standard) (horder : order ⊆ names.map directory.join)
    (hoverlay : Overlay tree t (goldenPlaces .standard location names)) :
    generate settings order t = (order.map (generatedIn Decoder .standard tree),
        t.insertFiles (order.filterMap (goldenOf Decoder .standard tree))) ∧
      Overlay tree (t.insertFiles (order.filterMap (goldenOf Decoder .standard tree)))
        (goldenPlaces .standard location names) :=
  site.run_verifyAll Decoder rfl hnaming horder hoverlay

theorem generate_start (site : Site .standard tree directory location names)
    (hnaming : settings.naming = .standard) (horder : order ⊆ names.map directory.join) :
    generate settings order tree = (order.map (generatedIn Decoder .standard tree),
        tree.insertFiles (order.filterMap (goldenOf Decoder .standard tree))) ∧
      Overlay tree (tree.insertFiles (order.filterMap (goldenOf Decoder .standard tree)))
        (goldenPlaces .standard location names) :=
  site.generate_eq hnaming horder (.refl site.directoryAt.linkFree _)

/-- A run reports on each capture by itself, and says so if there is a payload but no golden file. -/
theorem mem_generate (site : Site .standard tree directory location names)
    (hnaming : settings.naming = .standard) {report : FileReport}
    (h : report ∈ (generate settings (names.map directory.join) tree).1) :
    ∃ path ∈ names.map directory.join, report.outcome = outcomeIn Decoder tree path ∧
      (report.outcome.succeeded = true →
        report.written = some (Naming.standard.goldenPath path) ∨ report.writeError.isSome = true) := by
  rw [(site.generate_start hnaming (List.Subset.refl _)).1] at h
  obtain ⟨path, hpath, rfl⟩ := List.mem_map.1 h
  have houtcome := outcome_generatedIn Decoder .standard tree path
  refine ⟨path, hpath, houtcome, fun hsucceeded => ?_⟩
  exact written_generatedIn Decoder .standard tree path (houtcome ▸ hsucceeded)

/-- What a run changes are golden files for captures with a payload. -/
theorem exists_of_changed (site : Site .standard tree directory location names)
    (hnaming : settings.naming = .standard) {place : Location}
    (h : (generate settings (names.map directory.join) tree).2.get? place ≠ tree.get? place) :
    ∃ report ∈ (generate settings (names.map directory.join) tree).1, report.outcome.succeeded = true ∧
      tree.locate? (Naming.standard.goldenPath report.outcome.path) = some place := by
  rw [(site.generate_start hnaming (List.Subset.refl _)).1] at h ⊢
  obtain ⟨path, hpath, hsucceeded, hlocate⟩ := site.exists_of_get?_insertFiles_ne Decoder h.symm
  have houtcome := outcome_generatedIn Decoder .standard tree path
  exact ⟨_, List.mem_map_of_mem hpath, houtcome ▸ hsucceeded, houtcome ▸ hlocate⟩

/-- Whatever the order of the captures, the report on each is as if it were the only one, and the tree is
the same in the end. -/
theorem generate_perm (site : Site .standard tree directory location names)
    (hnaming : settings.naming = .standard) (horder : order.Perm (names.map directory.join)) :
    (generate settings order tree).1 = order.flatMap (fun file => (generate settings [file] tree).1) ∧
      (generate settings order tree).2.get? =
        (generate settings (names.map directory.join) tree).2.get? := by
  have halone {path : Path} (hpath : path ∈ order) :
      (generate settings [path] tree).1 = [generatedIn Decoder .standard tree path] := by
    have hone := List.cons_subset.2 ⟨horder.subset hpath, List.nil_subset _⟩
    rw [(site.generate_start hnaming hone).1]
    rfl
  obtain ⟨hnodup, hmovable⟩ := site.nodup_goldenOf Decoder
  rw [(site.generate_start hnaming horder.subset).1,
    (site.generate_start hnaming (List.Subset.refl _)).1]
  constructor
  · rw [List.map_eq_flatMap]
    exact (List.flatMap_congr fun path hpath => halone hpath).symm
  · funext place
    exact FileTree.get?_insertFiles_congr (fun _ => rfl) rfl hmovable hnodup (horder.filterMap _)

/-- A second run does what the first one did, and so changes nothing more. -/
theorem generate_again (site : Site .standard tree directory location names)
    (hnaming : settings.naming = .standard) :
    let after := (generate settings (names.map directory.join) tree).2
    (generate settings (names.map directory.join) after).1 =
        (generate settings (names.map directory.join) tree).1 ∧
      (generate settings (names.map directory.join) after).2.get? = after.get? := by
  have hall := List.Subset.refl (names.map directory.join)
  obtain ⟨hnodup, hmovable⟩ := site.nodup_goldenOf Decoder
  obtain ⟨hgenerate, hoverlay⟩ := site.generate_start hnaming hall
  rw [hgenerate]
  intro after
  -- The second run writes the golden files of the first one once more.
  rw [(site.generate_eq hnaming hall hoverlay).1]
  refine ⟨rfl, ?_⟩
  funext place
  exact FileTree.get?_insertFiles_congr (FileTree.get?_insertFiles_of_not_mem hmovable)
    (tree.home_insertFiles _) hmovable hnodup (.refl _)

/-- The report of a run that compares after one that writes. -/
theorem checkedIn_generated (site : Site .standard tree directory location names)
    (hnaming : settings.naming = .standard) {path : Path} (hpath : path ∈ names.map directory.join) :
    let after := (generate settings (names.map directory.join) tree).2
    let generated := generatedIn Decoder .standard tree path
    let checked := checkedIn Decoder { settings with generateGolden := false, compareGolden := true }
      after path
    checked.outcome = generated.outcome ∧
      (generated.written.isSome = true → checked.golden = .matched) ∧
      checked.passed = generated.passed := by
  obtain ⟨hnodup, hmovable⟩ := site.nodup_goldenOf Decoder
  obtain ⟨hgenerate, hoverlay⟩ := site.generate_start hnaming (List.Subset.refl (names.map directory.join))
  obtain ⟨name, hname, rfl⟩ := List.mem_map.1 hpath
  rw [hgenerate]
  refine site.checkedIn_eq_generatedIn Decoder rfl hnaming hoverlay hname (fun file hfile => ?_)
    fun payload => Session.payload_ne_nil
  exact FileTree.get?_insertFiles_of_mem hmovable hnodup (List.mem_filterMap.2 ⟨_, hpath, hfile⟩)

/-- A run that compares after one that writes agrees with it. -/
theorem compare_generated (site : Site .standard tree directory location names)
    (hnaming : settings.naming = .standard) :
    let reports := (generate settings (names.map directory.join) tree).1
    let after := (generate settings (names.map directory.join) tree).2
    let compared := (compare settings (names.map directory.join) after).1
    compared.map (·.outcome) = reports.map (·.outcome) ∧
      List.Forall₂ (fun report check => report.written.isSome = true → check.golden = .matched)
        reports compared ∧
      Summary.ofReports compared = Summary.ofReports reports := by
  intro reports after compared
  have hreports : reports = (names.map directory.join).map (generatedIn Decoder .standard tree) :=
    congrArg Prod.fst (site.generate_start hnaming (List.Subset.refl _)).1
  have hcompared : compared = (names.map directory.join).map
      (checkedIn Decoder { settings with generateGolden := false, compareGolden := true } after) :=
    congrArg Prod.fst (compare_eq settings _ after)
  have hfile {path : Path} (hpath : path ∈ names.map directory.join) :=
    site.checkedIn_generated hnaming hpath
  rw [hreports, hcompared]
  refine ⟨?_, ?_, ofReports_map_congr fun path hpath => (hfile hpath).2.2⟩
  · refine List.map_map.trans (Eq.trans ?_ List.map_map.symm)
    exact List.map_congr_left fun path hpath => (hfile hpath).1
  · refine List.forall₂_map_left_iff.2 (List.forall₂_map_right_iff.2 (List.forall₂_same.2 ?_))
    exact fun path hpath => (hfile hpath).2.1

end Site

/-- Golden files that are written and then compared with agree. With the usual names and captures that are
found in a tree without links:
* what a run that writes golden files changes are golden files for captures with a payload; those for
  different captures are different, none is a capture, and one that is not written shows in the report;
* the report on each capture is as if it were the only one, and neither the reports nor the tree depend on
  the order of the captures;
* the same captures are found afterwards;
* running again gives the same reports and leaves the tree as it is;
* comparing afterwards gives the same outcomes and the same tally, and every golden file that was written
  matches. -/
theorem generate_consistent (hplain : tree.Plain) (hpatterns : settings.patterns = .standard)
    (hnaming : settings.naming = .standard) (hfound : found settings tree = .ok files) :
    let golden := settings.naming.goldenPath
    let reports := (generate settings files tree).1
    let after := (generate settings files tree).2
    let compared := (compare settings files after).1
    (∀ location, after.get? location ≠ tree.get? location →
        ∃ report ∈ reports, report.outcome.succeeded = true ∧
          tree.locate? (golden report.outcome.path) = some location) ∧
      ((files.map fun file => tree.locate? (golden file)).Nodup ∧
        (∀ file ∈ files, ∀ other ∈ files, tree.locate? (golden file) ≠ tree.locate? other) ∧
        ∀ report ∈ reports, report.outcome.succeeded = true →
          report.written = some (golden report.outcome.path) ∨ report.writeError.isSome = true) ∧
      (∀ order, order.Perm files →
        (generate settings order tree).1 = order.flatMap (fun file => (generate settings [file] tree).1) ∧
          (generate settings order tree).2.get? = after.get?) ∧
      found settings after = .ok files ∧
      ((generate settings files after).1 = reports ∧ (generate settings files after).2.get? = after.get?) ∧
      (compare settings files after).2 = after ∧
      compared.map (·.outcome) = reports.map (·.outcome) ∧
      List.Forall₂ (fun report check => report.written.isSome = true → check.golden = .matched)
        reports compared ∧
      Summary.ofReports compared = Summary.ofReports reports := by
  obtain ⟨location, site, hsome, rfl⟩ := site_of_found hplain hpatterns hfound
  obtain ⟨hgenerate, hoverlay⟩ := site.generate_start hnaming (List.Subset.refl _)
  have hagain := found_overlay hpatterns site hsome hoverlay
  rw [hnaming]
  intro golden reports after compared
  refine ⟨fun _ => site.exists_of_changed hnaming, ⟨site.nodup_locate?,
    fun file hfile other => site.locate?_ne hfile, fun report hreport hsucceeded => ?_⟩,
    fun order => site.generate_perm hnaming, ?_, site.generate_again hnaming, ?_,
    site.compare_generated hnaming⟩
  · obtain ⟨path, -, houtcome, hwritten⟩ := site.mem_generate hnaming hreport
    rw [houtcome]
    exact hwritten hsucceeded
  · show found settings (generate settings _ tree).2 = _
    rw [hgenerate]
    exact hagain
  · rw [compare_eq]

/-- Two captures of one byte. Where the golden file for the second one would go there is a directory. All this is
beside the working directory. -/
def blockedCases : FileTree where
  home := ["work".toList]
  entries :=
    let capture := Entry.file (Utf8.encode "ur:bytes/drasrhdshp\n".toList)
    let cases := "test_cases".toList
    [ (["work".toList], .directory),
      ([cases], .directory),
      (["b.UR_fragments.txt".toList, cases], capture),
      (["a.UR_fragments.txt".toList, cases], capture),
      (["b.UR_object.txt".toList, cases], .directory) ]
  nodup := by decide
  way := by decide

theorem matchingNames_blockedCases :
    Discovery.matchingNames Discovery.Patterns.standard.primary
        (blockedCases.children ["test_cases".toList]) =
      ["a.UR_fragments.txt".toList, "b.UR_fragments.txt".toList] :=
  ((List.mergeSort_perm _ _).trans (by decide)).eq_of_pairwise (fun _ _ _ _ => Text.le_antisymm)
    (Discovery.pairwise_matchingNames _ _) (by decide)

/-- Only the first of the two golden files is written and matches, and only the first capture passes,
before and after. -/
theorem generate_consistent_blocked :
    let settings : Settings := { casesDirectory := ⟨"../test_cases".toList⟩ }
    let files : List Path :=
      [⟨"../test_cases/a.UR_fragments.txt".toList⟩, ⟨"../test_cases/b.UR_fragments.txt".toList⟩]
    let after := (generate settings files blockedCases).2
    blockedCases.Plain ∧ settings.patterns = .standard ∧ settings.naming = .standard ∧
      found settings blockedCases = .ok files ∧ found settings after = .ok files ∧
      (compare settings files after).1.map (·.golden) =
        [.matched, .unreadable "failed to read golden file ../test_cases/b.UR_object.txt"] ∧
      Summary.ofReports (compare settings files after).1 = ⟨1, 2⟩ := by
  intro settings files after
  have hplain : blockedCases.Plain := ⟨by decide, by decide⟩
  have hnames : captureNames .standard (blockedCases.children ["test_cases".toList]) =
      ["a.UR_fragments.txt".toList, "b.UR_fragments.txt".toList] := by
    rw [Discovery.captureNames_eq, matchingNames_blockedCases]
    rfl
  have hresolve : blockedCases.resolve settings.casesDirectory =
      .ok (.directory ["test_cases".toList]) := by decide
  have hfound : found settings blockedCases = .ok files := by
    have hcaptures := Discovery.captures_of_directory hresolve (hnames ▸ List.cons_ne_nil _ _)
    rw [hnames] at hcaptures
    exact hcaptures
  obtain ⟨-, -, -, hagain, -, -, -, -, htally⟩ := generate_consistent hplain rfl rfl hfound
  refine ⟨hplain, rfl, rfl, hfound, hagain, by decide +kernel, htally.trans ?_⟩
  decide +kernel

end UrReplay.Suite
