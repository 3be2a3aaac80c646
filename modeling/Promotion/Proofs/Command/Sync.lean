import Mathlib.Data.List.Permutation
import Promotion.Command.Sync
import Promotion.Proofs.Config.Store
import Promotion.Proofs.FileTree.Edit
import Promotion.Proofs.Manifest.Store
import Promotion.Proofs.Review

/-!
# `Promotion.Proofs.Command.Sync`: what `sync` delivers

Until the cleared packages are handed out, `sync` only reads; what it reads is
what was there before it began. It then writes one file, and reading that file
afterwards gives the packages that were cleared. A special file keeps nothing of
what it is given, so there the packages can be lost.

* `SyncArguments.Clears`: what a run is to deliver, by the files before it.
* `SyncArguments.run_delivers`: it delivers that, and no failure before the writing
  changes anything.
* `SyncArguments.not_forall_run_delivers`: the null device takes the packages and
  brings back none.
-/

set_option autoImplicit false

namespace Promotion

namespace SyncArguments

variable {s s' : Session} {e : Failure} {strategy : Strategy}
  {source destination cleared : List Package}

/-! ### Reviewing and handing out -/

/-- Packages that are cleared are what the strategy clears, and no file changes. -/
theorem clear_eq_ok (h : (clear strategy source destination).run s = .ok cleared s') :
    strategy.clear source destination = .ok cleared ∧ s'.tree = s.tree := by
  rw [clear, Action.run_tellAll_bind] at h
  rw [Strategy.clear]
  split at h
  · exact absurd h (Action.throw_ne_ok _)
  next cleared' hcleared =>
    rw [Action.run_tell_bind] at h
    obtain ⟨rfl, rfl⟩ := Action.pure_eq_ok_iff.mp h
    exact ⟨hcleared, rfl⟩

/-- What the strategy clears is cleared. -/
theorem exists_clear (h : strategy.clear source destination = .ok cleared) :
    ∃ s', (clear strategy source destination).run s = .ok cleared s' ∧ s'.tree = s.tree := by
  rw [clear, Action.run_tellAll_bind]
  rw [Strategy.clear] at h
  rw [h]
  exact ⟨_, rfl, rfl⟩

/-- When the strategy refuses, no file changes. -/
theorem clear_eq_error (h : (clear strategy source destination).run s = .error e s') :
    s'.tree = s.tree := by
  rw [clear, Action.run_tellAll_bind] at h
  split at h
  · obtain ⟨-, rfl⟩ := Action.throw_eq_error_iff.mp h
    rfl
  · cases h

/-- Printing lines succeeds and leaves the file system alone. -/
theorem run_printLines (lines : List String) (s : Session) :
    ∃ s', (lines.forM Action.printLine).run s = .ok () s' ∧ s'.tree = s.tree :=
  ⟨_, Action.run_printLines lines s, rfl⟩

variable {a : SyncArguments} {workspace path : Path} {total : Nat}

/-- What is delivered to a file that is not special is its content afterwards. -/
theorem deliver_eq_ok (houtput : a.output = some path)
    (hversions : ∀ p ∈ cleared, p.version.Obtained)
    (h : (a.deliver strategy total cleared).run s = .ok () s')
    (hspecial : s'.tree.isSpecial path = false) :
    Manifest.contentOf s'.tree path = .ok cleared := by
  rw [deliver, houtput] at h
  obtain ⟨_, s₁, hsave, hprint⟩ := Action.bind_eq_ok_iff.mp h
  obtain ⟨s₂, hrun, htree⟩ := run_printLines (summary strategy cleared total path) s₁
  cases hrun.symm.trans hprint
  rw [htree] at hspecial ⊢
  exact Manifest.save_eq_ok hversions hsave hspecial

/-- Only writing can fail when packages are delivered. -/
theorem deliver_eq_error (houtput : a.output = some path)
    (h : (a.deliver strategy total cleared).run s = .error e s') :
    ∃ place reason, e = .fileWriteFailed place reason := by
  rw [deliver, houtput] at h
  rcases Action.bind_eq_error_iff.mp h with hsave | ⟨_, s₁, -, hprint⟩
  · exact Manifest.save_eq_error hsave
  · obtain ⟨s₂, hrun, -⟩ := run_printLines (summary strategy cleared total path) s₁
    cases hrun.symm.trans hprint

/-! ### The whole command -/

/-- The versions of what is cleared are those of the source. -/
theorem obtained_of_clear (hsource : ∀ p ∈ source, p.version.Obtained)
    (h : strategy.clear source destination = .ok cleared) : ∀ p ∈ cleared, p.version.Obtained := by
  rw [Strategy.eq_filter_of_clear h]
  exact fun p hp => hsource p (List.mem_of_mem_filter hp)

/-- `cleared` is what the review lets through of the two manifests that the file
system holds. The strategy is the one that was asked for, else the one that the
workspace settles. -/
inductive Clears (a : SyncArguments) (workspace : Path) (t : FileTree) : List Package → Prop
  | intro {config : Config} {source destination cleared : List Package}
    (hconfig : Config.contentOf t workspace = .ok config)
    (hsettles : Config.Settles t workspace config.strategy)
    (hsource : Manifest.contentOf t a.source = .ok source)
    (hdestination : Manifest.contentOf t a.destination = .ok destination)
    (hcleared : (a.strategy.getD config.strategy).clear source destination = .ok cleared) :
    Clears a workspace t cleared

/-- The packages are determined by the file system. -/
theorem Clears.unique {t : FileTree} {cleared' : List Package} (h : a.Clears workspace t cleared)
    (h' : a.Clears workspace t cleared') : cleared = cleared' := by
  obtain ⟨hconfig, -, hsource, hdestination, hcleared⟩ := h
  obtain ⟨hconfig', -, hsource', hdestination', hcleared'⟩ := h'
  cases hconfig.symm.trans hconfig'
  cases hsource.symm.trans hsource'
  cases hdestination.symm.trans hdestination'
  exact Except.ok.inj (hcleared.symm.trans hcleared')

/-- `sync` that writes a file delivers what the review clears. When it succeeds, the
file holds exactly the packages that are cleared of the manifests as they were, unless
the path leads to a special file. When it fails other than in writing, the file system
is as it was. -/
theorem run_delivers (a : SyncArguments) (workspace path : Path) (s : Session)
    (houtput : a.output = some path) :
    (∀ s', (a.run workspace).run s = .ok () s' → ∃ cleared,
      a.Clears workspace s.tree cleared ∧
      (s'.tree.isSpecial path = false → (Manifest.load path).result s' = .ok cleared)) ∧
    ∀ e s', (a.run workspace).run s = .error e s' →
      (∀ place reason, e ≠ .fileWriteFailed place reason) → s'.tree = s.tree := by
  constructor
  · intro s' h
    obtain ⟨config, s₁, hconfig, h₁⟩ := Action.bind_eq_ok_iff.mp h
    obtain ⟨hconfig, htree₁⟩ := Config.load_eq_ok hconfig
    obtain ⟨source, s₂, hsource, h₂⟩ := Action.bind_eq_ok_iff.mp h₁
    obtain ⟨hsource, htree₂⟩ := Manifest.load_eq_ok hsource
    obtain ⟨destination, s₃, hdestination, h₃⟩ := Action.bind_eq_ok_iff.mp h₂
    obtain ⟨hdestination, -⟩ := Manifest.load_eq_ok hdestination
    rw [Action.run_tell_bind] at h₃
    obtain ⟨cleared, s₄, hclear, h₄⟩ := Action.bind_eq_ok_iff.mp h₃
    obtain ⟨hclear, -⟩ := clear_eq_ok hclear
    -- All that was read is what was there before the run.
    rw [htree₁] at hsource htree₂
    rw [htree₂] at hdestination
    refine ⟨cleared, ⟨hconfig, Config.settles_of_contentOf hconfig, hsource, hdestination, hclear⟩,
      fun hspecial => ?_⟩
    rw [Manifest.result_load]
    exact deliver_eq_ok houtput
      (obtained_of_clear (Manifest.obtained_of_contentOf hsource) hclear) h₄ hspecial
  · intro e s' h hwrite
    rcases Action.bind_eq_error_iff.mp h with h | ⟨config, s₁, hconfig, h₁⟩
    · exact (Config.load_eq_error h).2
    rw [← (Config.load_eq_ok hconfig).2]
    rcases Action.bind_eq_error_iff.mp h₁ with h | ⟨source, s₂, hsource, h₂⟩
    · exact (Manifest.load_eq_error h).2
    rw [← (Manifest.load_eq_ok hsource).2]
    rcases Action.bind_eq_error_iff.mp h₂ with h | ⟨destination, s₃, hdestination, h₃⟩
    · exact (Manifest.load_eq_error h).2
    rw [← (Manifest.load_eq_ok hdestination).2]
    rw [Action.run_tell_bind] at h₃
    rcases Action.bind_eq_error_iff.mp h₃ with h | ⟨cleared, s₄, -, h₄⟩
    · have htree := clear_eq_error h
      exact htree
    · obtain ⟨place, reason, rfl⟩ := deliver_eq_error houtput h₄
      exact absurd rfl (hwrite place reason)

/-- The command succeeds when everything can be read, nothing stops the review, and
what is cleared can be written in a directory that is there. -/
theorem exists_run {t : FileTree} (houtput : a.output = some path)
    (hclears : a.Clears workspace s.tree cleared)
    (hparent : ∀ parent, path.parent? = some parent →
      s.tree.makeDirectories parent = ⟨s.tree, none⟩)
    (hwrite : s.tree.write path (Text.bytesOf (Manifest.print (Manifest.formatOf path) cleared))
      = .ok t) : ∃ s', (a.run workspace).run s = .ok () s' ∧ s'.tree = t := by
  -- Each step of the run leaves the files alone until the manifest is written.
  obtain @⟨config, source, destination, _, hconfig, -, hsource, hdestination, hclear⟩ := hclears
  obtain ⟨s₁, hload₁, htree₁⟩ := Config.exists_load hconfig
  rw [← htree₁] at hsource
  obtain ⟨s₂, hload₂, htree₂⟩ := Manifest.exists_load hsource
  rw [← htree₁, ← htree₂] at hdestination
  obtain ⟨s₃, hload₃, htree₃⟩ := Manifest.exists_load hdestination
  rw [← htree₁, ← htree₂, ← htree₃] at hwrite hparent
  obtain ⟨s₄, hload₄, htree₄⟩ := exists_clear (s := { s₃ with
    events := s₃.events ++ [announcement (a.strategy.getD config.strategy) source destination] })
    hclear
  rw [← htree₄] at hwrite hparent
  obtain ⟨s₅, hload₅, htree₅⟩ := Manifest.exists_save hparent hwrite
  obtain ⟨s₆, hload₆, htree₆⟩ := run_printLines
    (summary (a.strategy.getD config.strategy) cleared source.length path) s₅
  refine ⟨s₆, Action.bind_eq_ok_iff.mpr ⟨config, s₁, hload₁, Action.bind_eq_ok_iff.mpr
    ⟨source, s₂, hload₂, Action.bind_eq_ok_iff.mpr ⟨destination, s₃, hload₃, ?_⟩⟩⟩,
    htree₆.trans htree₅⟩
  rw [Action.run_tell_bind]
  refine Action.bind_eq_ok_iff.mpr ⟨cleared, s₄, hload₄, ?_⟩
  rw [deliver, houtput]
  exact Action.bind_eq_ok_iff.mpr ⟨(), s₅, hload₅, hload₆⟩

/-- The bytes of a text are read as the text. -/
theorem readText_of_read {t : FileTree} {text : String}
    (h : t.read path = .ok (Text.bytesOf text)) : t.readText path = .ok text := by
  rw [FileTree.readText, h]
  simp only [Text.stringOf?_bytesOf]

/-- A file that was made with a text has it. -/
theorem readText_of_place {t : FileTree} {loc : Location} {text : String} {executable : Bool}
    (h : t.place true path = .ok (.entry loc (.file (Text.bytesOf text) executable))) :
    t.readText path = .ok text :=
  readText_of_read (FileTree.read_of_entryAt (FileTree.entryAt_eq_ok_iff.mpr ⟨loc, h⟩))

/-- A package that is new, and one that the destination has as well. -/
def devText : String := "[[\"a\",2],[\"b\",\"1\"]]"

/-- The manifest of the destination. -/
def prodText : String := "[[\"b\",1]]"

/-- A workspace with the two manifests, and the null device. -/
def twoManifests : Session where
  tree :=
    { current := []
      entries := [([Text.bytesOf "dev.json"], .file (Text.bytesOf devText) false),
        ([Text.bytesOf "prod.json"], .file (Text.bytesOf prodText) false),
        ([Text.bytesOf "dev"], .directory), (FileTree.nullLocation, .special)]
      devices := [(FileTree.nullLocation, .null)] }

/-- The packages that the destination does not have are delivered under a path. -/
def deliverTo (output : String) : SyncArguments where
  source := .ofString "dev.json"
  destination := .ofString "prod.json"
  strategy := none
  output := some (.ofString output)
  format := .yaml

/-- The path of the source manifest leads to its file. -/
theorem place_dev : twoManifests.tree.place true (.ofString "dev.json")
    = .ok (.entry [Text.bytesOf "dev.json"] (.file (Text.bytesOf devText) false)) := by
  cbv

/-- The path of the destination manifest leads to its file. -/
theorem place_prod : twoManifests.tree.place true (.ofString "prod.json")
    = .ok (.entry [Text.bytesOf "prod.json"] (.file (Text.bytesOf prodText) false)) := by
  cbv

/-- The path of the null device leads to a special file. -/
theorem place_null : twoManifests.tree.place true (.ofString "/dev/null")
    = .ok (.entry FileTree.nullLocation .special) := by
  cbv

/-- The source manifest can be written in place. -/
theorem write_dev (content : Text.Bytes) : twoManifests.tree.write (.ofString "dev.json") content
    = .ok (twoManifests.tree.insert [Text.bytesOf "dev.json"] (.file content false)) := by
  have hslash : (Path.ofString "dev.json").endsInSlash = false := by
    decide +kernel
  simp [FileTree.write, place_dev, hslash]

/-- The session has the null device in its place. -/
theorem device_null : twoManifests.tree.device FileTree.nullLocation = .null := by
  cbv

/-- The null device takes what is written. -/
theorem write_null (content : Text.Bytes) :
    twoManifests.tree.write (.ofString "/dev/null") content = .ok twoManifests.tree := by
  have hslash : (Path.ofString "/dev/null").endsInSlash = false := by
    decide +kernel
  simp [FileTree.write, place_null, hslash, device_null, Device.null]

/-- It brings the empty text, which is a manifest without packages. -/
theorem contentOf_null : Manifest.contentOf twoManifests.tree (.ofString "/dev/null") = .ok [] := by
  have hformat : Manifest.formatOf (.ofString "/dev/null") = .yaml := by decide +kernel
  have hread : twoManifests.tree.read (.ofString "/dev/null") = .ok (Text.bytesOf "") := by
    simp only [FileTree.read, place_null, FileTree.contentAt, device_null, Device.null]
    rfl
  rw [Manifest.contentOf, readText_of_read hread, hformat]
  rfl

/-- Of the two packages only the new one is cleared. -/
theorem clears_twoManifests (output : String) :
    (deliverTo output).Clears (.ofString "") twoManifests.tree [⟨"a", .ofNat 2, false⟩] := by
  -- There is no configuration, so the strategy is the standard one.
  have hfile : twoManifests.tree.isFile ((Path.ofString "").join (.ofString Config.fileName))
      = false := by
    cbv
  have hdev : Manifest.formatOf (.ofString "dev.json") = .json := by decide +kernel
  have hprod : Manifest.formatOf (.ofString "prod.json") = .json := by decide +kernel
  have hsource : Manifest.contentOf twoManifests.tree (.ofString "dev.json")
      = .ok [⟨"a", .ofNat 2, false⟩, ⟨"b", .ofNat 1, false⟩] := by
    rw [Manifest.contentOf, readText_of_place place_dev, hdev]
    rfl
  have hdestination : Manifest.contentOf twoManifests.tree (.ofString "prod.json")
      = .ok [⟨"b", .ofNat 1, false⟩] := by
    rw [Manifest.contentOf, readText_of_place place_prod, hprod]
    rfl
  have hcleared : Strategy.skipOldVersions.clear [⟨"a", .ofNat 2, false⟩, ⟨"b", .ofNat 1, false⟩]
      [⟨"b", .ofNat 1, false⟩] = .ok [⟨"a", .ofNat 2, false⟩] := by
    cbv
  exact ⟨Config.contentOf_of_isFile hfile, .absent hfile, hsource, hdestination, hcleared⟩

/-- The source manifest, written over, holds what was cleared of it. -/
theorem run_delivers_in_place : (deliverTo "dev.json").output = some (.ofString "dev.json") ∧
    ∃ s', ((deliverTo "dev.json").run (.ofString "")).run twoManifests = .ok () s' ∧
      (Manifest.load (.ofString "dev.json")).result s' = .ok [⟨"a", .ofNat 2, false⟩] := by
  have hparent : ∀ parent, (Path.ofString "dev.json").parent? = some parent →
      twoManifests.tree.makeDirectories parent = ⟨twoManifests.tree, none⟩ := by
    rintro _ ⟨⟩
    exact FileTree.makeDirectoriesFrom_of_isEmpty _ _ rfl
  have hclears := clears_twoManifests "dev.json"
  obtain ⟨s', hrun, htree⟩ := exists_run rfl hclears hparent (write_dev _)
  obtain ⟨cleared, hcleared, hload⟩ :=
    (run_delivers (deliverTo "dev.json") _ _ twoManifests rfl).1 s' hrun
  -- What is cleared is unique, so it is the one package that is new.
  obtain rfl := hcleared.unique hclears
  refine ⟨rfl, s', hrun, hload ?_⟩
  rw [htree, FileTree.isSpecial, FileTree.entryAt_of_write place_dev rfl]

/-- Without the exception for special files the packages need not be there: written to
the null device, they are gone. -/
theorem not_forall_run_delivers :
    ¬ ∀ (a : SyncArguments) (workspace path : Path) (s : Session), a.output = some path →
      (∀ s', (a.run workspace).run s = .ok () s' → ∃ cleared,
        a.Clears workspace s.tree cleared ∧ (Manifest.load path).result s' = .ok cleared) ∧
      ∀ e s', (a.run workspace).run s = .error e s' →
        (∀ place reason, e ≠ .fileWriteFailed place reason) → s'.tree = s.tree := by
  intro hdelivers
  have hdirectory : twoManifests.tree.isDirectory (.ofString "/dev") = true := by
    cbv
  have hpath : (Path.ofString "/dev/null").parent? = some (.ofString "/dev") := by
    decide +kernel
  have hparent : ∀ parent, (Path.ofString "/dev/null").parent? = some parent →
      twoManifests.tree.makeDirectories parent = ⟨twoManifests.tree, none⟩ := by
    intro parent h
    cases hpath.symm.trans h
    exact FileTree.makeDirectories_of_isDirectory hdirectory
  have hclears := clears_twoManifests "/dev/null"
  -- Writing to the device succeeds, and what is read from it lists no packages.
  obtain ⟨s', hrun, htree⟩ := exists_run rfl hclears hparent (write_null _)
  obtain ⟨cleared, hcleared, hload⟩ :=
    (hdelivers (deliverTo "/dev/null") _ _ twoManifests rfl).1 s' hrun
  obtain rfl := hcleared.unique hclears
  rw [Manifest.result_load, htree, contentOf_null] at hload
  cases hload

end SyncArguments

end Promotion
