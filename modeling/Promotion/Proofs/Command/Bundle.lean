import Promotion.Command.Bundle
import Promotion.Proofs.Bundle.Beside
import Promotion.Proofs.Command.Sync

/-!
# `Promotion.Proofs.Command.Bundle`: a dry run announces what the real run does

Both runs begin by planning the build, which only looks at the file system
(`looks_plan`). What they come to is told by the plan that the file system leads to
(`planned`): without one both fail in the same way, and with one the dry run prints
it and the real run carries it out.

* `dry_run_announces`: the two runs side by side. A real run that succeeds has made
  the archives that were announced, with these names and paths in this order.
* `not_forall_run_isFile`: not all of them need to be files afterwards. An extension
  may have a separator in it, and then one archive can take the place of a link that
  the path of another one goes through.
-/

set_option autoImplicit false

namespace Promotion

namespace Config

/-- The configuration of a workspace is only looked at. -/
theorem looks_load (workspace : Path) :
    Action.Looks (load workspace) fun t => contentOf t workspace := by
  rw [load]
  simp only [contentOf]
  generalize workspace.join (.ofString fileName) = path
  -- Whether or not the file is there, loading looks at the files only.
  have habsent := (Action.looks_tell (.debug target "No configuration file, using defaults"
    [("path", path.display)])).bind fun _ => Action.looks_pure ({} : Config)
  have hread : Action.Looks (Action.reading (·.readText path) (.configReadFailed path)) _ :=
    Action.looks_reading _
  have hpresent := hread.bind fun text => (Action.looks_ofExcept (ofYaml text path)).bind
    fun config => (Action.looks_tell (.debug target "Loaded configuration"
      [("path", path.display)])).bind fun _ => Action.looks_pure config
  refine (Action.looks_tree.bind fun t => Action.Looks.ite (c := (!t.isFile path) = true)
    habsent hpresent).congr fun t => ?_
  simp only [bind, Except.bind]
  -- What both ways answer is what the file says.
  cases t.isFile path with
  | false => rfl
  | true =>
    cases t.readText path with
    | error fault => rfl
    | ok text => cases hyaml : ofYaml text path <;> simp [Except.mapError, hyaml]

end Config

namespace BuildPlan

/-- The names and paths of the archives that a plan asks for, in order. -/
def archives (plan : BuildPlan) : List (String × Path) :=
  plan.bundles.map fun b => (b.name, b.archivePath plan.output plan.extension)

/-- None of the archives of a plan takes the place of a link. -/
def SparesLinks (plan : BuildPlan) (t : FileTree) : Prop :=
  ∀ loc target, Bundle.ArchivePlace plan.bundles t plan.output plan.extension loc →
    (t.makeDirectories plan.output).tree.get? loc ≠ some (.link target)

end BuildPlan

namespace BundleArguments

variable {a : BundleArguments} {workspace : Path}

/-- The plan that a file system leads to: the configuration of the workspace is
read, then bundles are searched, and there must be some. -/
def planned (a : BundleArguments) (workspace : Path) (t : FileTree) :
    Except Failure BuildPlan := do
  let config ← Config.contentOf t workspace
  let found ← a.search (.ofTree t) (a.searchRoot workspace) (a.layout config.bundle)
  if found.bundles.isEmpty then throw (.noBundlesFound (a.searchRoot workspace))
  return ⟨found.bundles, a.outputDirectory workspace config.bundle,
    a.extension.getD config.bundle.extension⟩

/-- Planning only looks. -/
theorem looks_plan (a : BundleArguments) (workspace : Path) :
    Action.Looks (a.plan workspace) (a.planned workspace) := by
  have hplan (config : Config) (found : Discovery) :=
    (Action.looks_tell (.info target "Discovered bundles"
      [("root", (a.searchRoot workspace).display), ("count", toString found.bundles.length)])).bind
        fun _ => Action.looks_pure (BuildPlan.mk found.bundles
          (a.outputDirectory workspace config.bundle) (a.extension.getD config.bundle.extension))
  -- The plan stands behind both branches, though the first one never gets to it.
  have hfound (config : Config) (found : Discovery) := Action.Looks.ite
    (c := found.bundles.isEmpty = true) ((Action.looks_throw
      (.noBundlesFound (a.searchRoot workspace))).bind fun _ : PUnit => hplan config found)
    (hplan config found)
  have hsearch (config : Config) (t : FileTree) := (Action.looks_ofExcept
    (a.search (.ofTree t) (a.searchRoot workspace) (a.layout config.bundle))).bind fun found =>
      (Action.looks_tellAll found.events).bind fun _ => hfound config found
  exact ((Config.looks_load workspace).bind fun config =>
    Action.looks_tree.bind (hsearch config)).congr fun t => rfl

/-- The archives of what a search finds are beside each other. -/
theorem alongside_of_search {listing : Listing} {root output : Path} {layout : Layout}
    {extension : String} {d : Discovery} (hextension : '/' ∉ extension.toList)
    (h : a.search listing root layout = .ok d) :
    Bundle.Alongside output extension d.bundles := by
  have hnothing (reason : String) : Bundle.Alongside output extension
      (Discovery.nothing reason root).bundles := Bundle.alongside_of_length_le (Nat.zero_le 1)
  have hnested {place : Path} (h : (Discovery.nested listing place a.name layout).map
      (Discovery.orSingle root a.name layout) = .ok d) :
      Bundle.Alongside output extension d.bundles := by
    obtain ⟨d', hd', rfl⟩ := map_eq_ok_iff.mp h
    exact Bundle.alongside_orSingle (Bundle.alongside_nested hextension hd')
  unfold search discover discoverProject at h
  dsimp only at h
  -- One case for each way the search can go: a scan, one bundle, or nothing.
  split_ifs at h
  · exact hnested h
  · cases h
    exact hnothing _
  · exact hnested h
  · cases h
    exact Bundle.alongside_of_length_le (Nat.le_refl 1)
  · cases h
    exact hnothing _

/-- A plan has bundles, and their archives are beside each other. -/
theorem of_planned {t : FileTree} {plan : BuildPlan} (h : a.planned workspace t = .ok plan) :
    plan.bundles ≠ [] ∧ ('/' ∉ plan.extension.toList →
      Bundle.Alongside plan.output plan.extension plan.bundles) := by
  obtain ⟨config, -, h⟩ := bind_eq_ok_iff.mp h
  obtain ⟨found, hfound, h⟩ := bind_eq_ok_iff.mp h
  split at h
  · cases h
  next hsome =>
    cases h
    exact ⟨fun hnil => hsome (List.isEmpty_iff.mpr hnil),
      fun hextension => alongside_of_search hextension hfound⟩

/-- What a run does once the build is planned. -/
theorem run_of_planned {s : Session} {plan : BuildPlan}
    (h : a.planned workspace s.tree = .ok plan) :
    ∃ events, (a.run workspace).run s
      = (if a.dryRun then plan.announcements.forM Action.printLine
        else plan.build >>= fun o => o.report.forM Action.printLine : Action Unit).run
          { s with events := s.events ++ events } := by
  obtain ⟨events, hplan⟩ := looks_plan a workspace s
  rw [h] at hplan
  exact ⟨events, Action.run_bind_of_ok hplan⟩

/-- A run whose plan fails ends with that error and changes nothing. -/
theorem run_of_planned_error {s : Session} {e : Failure}
    (h : a.planned workspace s.tree = .error e) :
    ∃ events, (a.run workspace).run s = .error e { s with events := s.events ++ events } := by
  obtain ⟨events, hplan⟩ := looks_plan a workspace s
  rw [h] at hplan
  exact ⟨events, Action.bind_eq_error_iff.mpr (.inl hplan)⟩

/-- A dry run announces what the run without it does, for every file system and all
arguments.

* Both fail, with the same failure and nothing changed, exactly when there is no plan:
  when the configuration cannot be read, the search fails or it finds nothing.
* Otherwise the dry run prints the plan and changes nothing, and the real run comes to
  what building the plan comes to.
* When the real run succeeds, its artifacts, companions first, have the announced names
  and paths in the announced order. They are files then, if the extension has no
  separator in it, if there is only one, or if none took the place of a link. -/
theorem dry_run_announces (a : BundleArguments) (workspace : Path) (s : Session) :
    (∀ e, a.planned workspace s.tree = .error e → ∀ dryRun : Bool, ∃ events,
      ({ a with dryRun }.run workspace).run s
        = .error e { s with events := s.events ++ events }) ∧
    ∀ plan, a.planned workspace s.tree = .ok plan →
      plan.bundles ≠ [] ∧
      (∃ events, ({ a with dryRun := true }.run workspace).run s
        = .ok () { s with
            events := s.events ++ events
            printed := s.printed ++ String.join (plan.announcements.map (· ++ "\n")) }) ∧
      (∀ e s', ({ a with dryRun := false }.run workspace).run s = .error e s' →
        plan.build.outcome s.tree = (.error e, s'.tree)) ∧
      ∀ s', ({ a with dryRun := false }.run workspace).run s = .ok () s' →
        ∃ (o : BuildOutput) (before : String),
          plan.build.outcome s.tree = (.ok o, s'.tree) ∧
          s'.printed = before ++ String.join (o.report.map (· ++ "\n")) ∧
          o.artifacts.map (fun artifact => (artifact.name, artifact.path)) = plan.archives ∧
          ('/' ∉ plan.extension.toList ∨ plan.bundles.length = 1 ∨ plan.SparesLinks s.tree →
            ∀ artifact ∈ o.artifacts, s'.tree.isFile artifact.path = true) := by
  constructor
  · intro e h dryRun
    exact run_of_planned_error (a := { a with dryRun }) h
  intro plan h
  obtain ⟨hbundles, halongside⟩ := of_planned h
  obtain ⟨events, hdry⟩ := run_of_planned (a := { a with dryRun := true }) h
  obtain ⟨events', hreal⟩ := run_of_planned (a := { a with dryRun := false }) h
  rw [if_pos rfl, Action.run_printLines] at hdry
  rw [if_neg Bool.false_ne_true] at hreal
  have houtcome := (Bundle.quiet_build plan.bundles plan.output plan.extension).outcome_eq
    { s with events := s.events ++ events' }
  refine ⟨hbundles, ⟨events, hdry⟩, fun e s' hrun => ?_, fun s' hrun => ?_⟩
  · rw [hreal] at hrun
    -- Printing never fails, so the build did.
    rcases Action.bind_eq_error_iff.mp hrun with hfailed | ⟨o, s₁, -, hreport⟩
    · rw [BuildPlan.build] at hfailed
      rw [Action.result_of_error hfailed, Action.after_of_error hfailed] at houtcome
      exact houtcome
    · rw [Action.run_printLines] at hreport
      cases hreport
  · rw [hreal] at hrun
    obtain ⟨o, s₁, hbuilt, hreport⟩ := Action.bind_eq_ok_iff.mp hrun
    rw [BuildPlan.build] at hbuilt
    rw [Action.result_of_ok hbuilt, Action.after_of_ok hbuilt] at houtcome
    rw [Action.run_printLines] at hreport
    cases hreport
    obtain ⟨-, hpacked⟩ := Bundle.outcome_build_eq_ok_iff.mp houtcome
    refine ⟨o, s₁.printed, houtcome, rfl, Bundle.map_of_packedInTurn hpacked, fun hfound =>
      Bundle.isFile_of_packedInTurn hpacked ?_⟩
    -- Each of the three conditions keeps a later archive from the path of an earlier one.
    rcases hfound with hextension | hone | hlinks
    · exact .inl (halongside hextension)
    · exact .inl (Bundle.alongside_of_length_le (Nat.le_of_eq hone))
    · exact .inr hlinks

/-- Where the build succeeds, so does the run. -/
theorem exists_run {s : Session} {plan : BuildPlan} {o : BuildOutput} {after : FileTree}
    (h : a.planned workspace s.tree = .ok plan)
    (hbuild : plan.build.outcome s.tree = (.ok o, after)) :
    ∃ s', ({ a with dryRun := false }.run workspace).run s = .ok () s' ∧ s'.tree = after := by
  obtain ⟨events, hreal⟩ := run_of_planned (a := { a with dryRun := false }) h
  have houtcome := (Bundle.quiet_build plan.bundles plan.output plan.extension).outcome_eq
    { s with events := s.events ++ events }
  rw [BuildPlan.build] at hbuild
  rw [hreal, if_neg Bool.false_ne_true]
  -- The build ends in the same way after the messages of the plan.
  cases hrun : plan.build.run { s with events := s.events ++ events } with
  | error e s₁ =>
    rw [BuildPlan.build] at hrun
    rw [Action.result_of_error hrun] at houtcome
    cases hbuild.symm.trans houtcome
  | ok o' s₁ =>
    rw [Action.run_bind_of_ok hrun, Action.run_printLines]
    rw [BuildPlan.build] at hrun
    rw [Action.result_of_ok hrun, Action.after_of_ok hrun] at houtcome
    cases hbuild.symm.trans houtcome
    exact ⟨_, rfl, rfl⟩

/-- The arguments for a project `p` and an output directory `out`. -/
def standardArguments : BundleArguments where
  name := "demo"
  root := some (.ofString "p")
  output := some Bundle.projectOutput
  descriptor := none
  payload := none
  extension := none
  direct := false
  dryRun := false

/-- The plan of a search that found something. -/
theorem planned_eq_ok {t : FileTree} {config : Config} {found : Discovery}
    (hconfig : Config.contentOf t workspace = .ok config)
    (hfound : a.search (.ofTree t) (a.searchRoot workspace) (a.layout config.bundle) = .ok found)
    (hsome : found.bundles ≠ []) :
    a.planned workspace t = .ok ⟨found.bundles, a.outputDirectory workspace config.bundle,
      a.extension.getD config.bundle.extension⟩ := by
  rw [planned, hconfig]
  refine bind_eq_ok_iff.mpr ⟨config, rfl, bind_eq_ok_iff.mpr ⟨found, hfound, ?_⟩⟩
  rw [if_neg (by simpa using hsome)]
  rfl

/-- The plan for the project is its one bundle. -/
theorem planned_project : standardArguments.planned (.ofString "") Bundle.projectTree
    = .ok ⟨[Bundle.projectBundle], Bundle.projectOutput, "tgz"⟩ := by
  have hlist : (Listing.ofTree Bundle.projectTree).subdirectories (.ofString "p/dist")
      = .ok [.ofString "p/dist/b", .ofString "p/dist/l"] := by
    cbv
  -- Neither of the two directories has a descriptor.
  have hselected : Discovery.selected (.ofTree Bundle.projectTree) {}
      [.ofString "p/dist/b", .ofString "p/dist/l"] = [] := by
    have hkept : (Path.sorted [.ofString "p/dist/b", .ofString "p/dist/l"]).filter
        (Discovery.qualifies (.ofTree Bundle.projectTree) {}) = [] := by
      cbv
    rw [Discovery.selected, hkept, List.filterMap_nil]
  obtain ⟨d, hnested, hbundles⟩ := Discovery.nested_eq_ok "demo" {} hlist
  rw [hselected, List.map_nil] at hbundles
  have hsearch : standardArguments.search (.ofTree Bundle.projectTree) (.ofString "p") {}
      = .ok (Discovery.orSingle (.ofString "p") "demo" {} d) := by
    have hproject : (Listing.ofTree Bundle.projectTree).isDirectory (.ofString "p") = true := by
      cbv
    have hpayload : (Listing.ofTree Bundle.projectTree).isDirectory
        ((Path.ofString "p").join (.ofString "dist")) = true := by
      cbv
    have hjoin : (Path.ofString "p").join (.ofString "dist") = .ofString "p/dist" := by decide
    show discoverProject _ _ "demo" {} = _
    rw [discoverProject, if_pos hproject]
    dsimp only
    rw [if_pos hpayload, hjoin, hnested]
    rfl
  have hfound : (Discovery.orSingle (.ofString "p") "demo" {} d).bundles
      = [Bundle.projectBundle] := by
    rw [Discovery.orSingle, if_pos (by simp [hbundles])]
    rfl
  have hconfig : Config.contentOf Bundle.projectTree (.ofString "") = .ok {} :=
    Config.contentOf_of_isFile (by cbv)
  have hplanned := planned_eq_ok hconfig hsearch
    (by rw [hfound]; exact List.cons_ne_nil _ _)
  rw [hfound] at hplanned
  exact hplanned

/-- The plan for the crossed tree is its two bundles. -/
theorem planned_crossed : { standardArguments with extension := some "/x", direct := true }.planned
    (.ofString "") Bundle.crossedTree
      = .ok ⟨[Bundle.crossedBundle "a", Bundle.crossedBundle "b"], Bundle.projectOutput, "/x"⟩ := by
  have hlist : (Listing.ofTree Bundle.crossedTree).subdirectories (.ofString "p")
      = .ok [.ofString "p/a", .ofString "p/b"] := by
    cbv
  have hselected : Discovery.selected (.ofTree Bundle.crossedTree) {}
      [.ofString "p/a", .ofString "p/b"] = [(.ofString "p/a", "a"), (.ofString "p/b", "b")] := by
    -- Both directories have a descriptor and a payload.
    have hkept : (Path.sorted [.ofString "p/a", .ofString "p/b"]).filter
        (Discovery.qualifies (.ofTree Bundle.crossedTree) {})
          = [.ofString "p/a", .ofString "p/b"] := by
      cbv
    have ha : Discovery.named? (.ofString "p/a") = some (.ofString "p/a", "a") :=
      Discovery.named?_eq_some_iff.mpr ⟨rfl, by decide⟩
    have hb : Discovery.named? (.ofString "p/b") = some (.ofString "p/b", "b") :=
      Discovery.named?_eq_some_iff.mpr ⟨rfl, by decide⟩
    rw [Discovery.selected, hkept, List.filterMap_cons_some ha, List.filterMap_cons_some hb,
      List.filterMap_nil]
  obtain ⟨d, hnested, hbundles⟩ := Discovery.nested_eq_ok "demo" {} hlist
  rw [hselected] at hbundles
  have hsome : d.bundles ≠ [] := by simp [hbundles]
  have hsearch : { standardArguments with extension := some "/x", direct := true }.search
      (.ofTree Bundle.crossedTree) (.ofString "p") {} = .ok d := by
    have hproject : (Listing.ofTree Bundle.crossedTree).isDirectory (.ofString "p") = true := by
      cbv
    show discover _ _ "demo" {} = _
    rw [discover, if_pos hproject, hnested]
    show Except.ok (Discovery.orSingle _ _ _ d) = _
    rw [Discovery.orSingle, if_neg (by simpa using hsome)]
  have hconfig : Config.contentOf Bundle.crossedTree (.ofString "") = .ok {} :=
    Config.contentOf_of_isFile (by cbv)
  have hplanned := planned_eq_ok hconfig hsearch
    hsome
  rw [hbundles] at hplanned
  exact hplanned

/-- A dry run on the project announces its only archive, and the run without it
makes that archive. -/
theorem dry_run_announces_project :
    standardArguments.planned (.ofString "") Bundle.projectTree
      = .ok ⟨[Bundle.projectBundle], Bundle.projectOutput, "tgz"⟩ ∧
    (∃ events, ({ standardArguments with dryRun := true }.run (.ofString "")).run
        Bundle.projectSession = .ok () { Bundle.projectSession with
          events := events
          printed := "Bundles (1):\n  demo p\n    -> out/demo.tgz\n" }) ∧
    ∃ (s' : Session) (o : BuildOutput),
      (standardArguments.run (.ofString "")).run Bundle.projectSession = .ok () s' ∧
      o.artifacts.map (fun artifact => (artifact.name, artifact.path))
        = [("demo", .ofString "out/demo.tgz")] ∧
      ∀ artifact ∈ o.artifacts, s'.tree.isFile artifact.path = true := by
  obtain ⟨a, s₁, hpacked⟩ := Bundle.exists_assemble_project
  have hbuild : (Bundle.build [Bundle.projectBundle] Bundle.projectOutput "tgz").outcome
      Bundle.projectTree = (.ok ⟨[], a⟩, s₁.tree) :=
    Bundle.outcome_build_eq_ok_iff.mpr ⟨List.cons_ne_nil _ _,
      .cons (Action.outcome_eq_ok_iff.mpr ⟨s₁, hpacked, rfl⟩) (.nil _)⟩
  obtain ⟨s', hrun, -⟩ := exists_run (s := Bundle.projectSession) planned_project hbuild
  obtain ⟨-, ⟨events, hdry⟩, -, hreal⟩ :=
    (dry_run_announces standardArguments (.ofString "") Bundle.projectSession).2 _ planned_project
  obtain ⟨o, _, -, -, harchives, hfiles⟩ := hreal s' hrun
  refine ⟨planned_project, ⟨events, ?_⟩, s', o, hrun, ?_, hfiles (.inl (by decide))⟩
  · -- The lines are evaluated; the rest follows from the theorem.
    have hlines : String.join ((BuildPlan.announcements ⟨[Bundle.projectBundle],
        Bundle.projectOutput, "tgz"⟩).map (· ++ "\n"))
          = "Bundles (1):\n  demo p\n    -> out/demo.tgz\n" := by
      decide +kernel
    rw [hdry, hlines]
    rfl
  · rw [harchives]
    decide +kernel

/-- Not every archive that a run made is a file afterwards. -/
theorem not_forall_run_isFile : ¬ ∀ (a : BundleArguments) (workspace : Path) (s s' : Session)
    (plan : BuildPlan), s.tree.WellFormed → a.planned workspace s.tree = .ok plan →
    ({ a with dryRun := false }.run workspace).run s = .ok () s' →
    ∀ archive ∈ plan.archives, s'.tree.isFile archive.2 = true := by
  intro hall
  obtain ⟨o, after, hbuild, hlost⟩ := Bundle.exists_build_crossed
  obtain ⟨s', hrun, rfl⟩ := exists_run (s := { tree := Bundle.crossedTree }) planned_crossed hbuild
  have hkept := hall _ _ _ s' _ Bundle.crossedTree_wellFormed planned_crossed hrun _
    List.mem_cons_self
  rw [hlost] at hkept
  cases hkept

end BundleArguments

end Promotion
