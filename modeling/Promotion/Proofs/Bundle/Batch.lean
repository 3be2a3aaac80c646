import Promotion.Proofs.Bundle.Build
import Promotion.Proofs.Session.Outcome

/-!
# `Promotion.Proofs.Bundle.Batch`: a build goes from bundle to bundle

A build packs its bundles in order, each into the file system that the one before
has left, and stops at the first one that cannot be packed. What is finished then
stays, and what was to come has not been touched:

* `outcome_build_eq_ok_iff`, `outcome_build_eq_error_iff`: a build in terms of
  the outcomes of its bundles.
* `Advances`: what one bundle more does, seen from the file system that the build
  started with.
* `get?_of_packedInTurn`: a row of bundles leaves everything as it was but the
  places of its archives.
* `build_in_order`: the artifacts of a build, and what a failure leaves behind.
* `not_forall_build_error_keeps`: the exception at the end of this text occurs.

Two archives are kept apart by where they go (`Apart`), not by their paths: two
paths may lead to one place. That an archive is still found by its path needs
more than that it is still there, for an archive can take the place of a link
that the path of an earlier one goes through (`Findable`). A failure disturbs the
place of its own archive in one case, when a link stood there and the archive
could not be read by its path after it had replaced that link (`Remains`).
-/

set_option autoImplicit false

namespace Promotion.Bundle

open Promotion.Action (Quiet InTurn)
open Promotion.Text (Bytes)

variable {b c : Bundle} {bundles front back : List Bundle} {output : Path}
  {extension : String} {e : Failure} {a : Artifact} {artifacts : List Artifact} {o : BuildOutput}
  {t t₁ t₂ now after : FileTree} {content : Bytes} {loc : Location}

/-! ### The outcome of a build -/

/-- Packing depends on the files only. -/
theorem quiet_pack (b : Bundle) : Quiet b.pack := by
  refine Action.quiet_tree.bind fun t => (Action.quiet_tellAll _).bind fun _ => ?_
  cases contents t b (t.walk b.payload) with
  | error reason => exact Action.quiet_throw _
  | ok records => exact Action.quiet_pure _

/-- Work with a staging file depends on the files only, when the work itself does. -/
theorem Quiet.whileStaging {α : Type} {work : Location → Action α} (b : Bundle) (output : Path)
    (hwork : ∀ place, Quiet (work place)) : Quiet (b.whileStaging output work) := by
  refine (Action.quiet_reading _).bind fun place => Action.quiet_tree.bind fun t =>
    (Action.quiet_setTree _).bind fun _ => (hwork place).tryCatch fun failure => ?_
  exact Action.quiet_tree.bind fun t => (Action.quiet_setTree _).bind fun _ =>
    Action.quiet_throw failure

/-- Packing looks at nothing but the file system. -/
theorem quiet_assemble (b : Bundle) (output : Path) (extension : String) :
    Quiet (b.assemble output extension) := by
  have hdigest : Quiet (Digest.ofFile (b.archivePath output extension)) :=
    (Action.quiet_reading _).bind fun _ => Action.quiet_pure _
  exact Action.quiet_tree.bind fun _ => (Action.quiet_ofExcept _).bind fun _ =>
    (Action.quiet_makeDirectories _).bind fun _ => (Action.quiet_tell _).bind fun _ =>
    (Quiet.whileStaging b output fun _ => (quiet_pack b).bind fun _ =>
      (Action.quiet_writing _).bind fun _ => Action.quiet_pure _).bind fun _ =>
    hdigest.bind fun _ => (Action.quiet_tell _).bind fun _ => Action.quiet_pure _

/-- The assembly of one bundle of a batch depends on the files only. -/
theorem quiet_assembleAs (role : String) (output : Path) (extension : String) (b : Bundle) :
    Quiet (assembleAs role output extension b) :=
  (Action.quiet_tell _).bind fun _ => quiet_assemble b output extension

/-- The role of a bundle makes no difference to what becomes of it. -/
theorem outcome_assembleAs (role : String) (output : Path) (extension : String) (b : Bundle) :
    (assembleAs role output extension b).outcome = (b.assemble output extension).outcome := by
  funext t
  obtain ⟨s₀, htree, hrun⟩ := run_assembleAs output extension role b { tree := t }
  have hquiet := (quiet_assemble b output extension).outcome_eq s₀
  rw [Action.result, Action.after, ← hrun, htree] at hquiet
  rw [hquiet]
  rfl

/-- Bundles that are all packed, each into what the one before has left. -/
def PackedInTurn (output : Path) (extension : String) (t : FileTree) (bundles : List Bundle)
    (artifacts : List Artifact) (after : FileTree) : Prop :=
  InTurn (fun b => (b.assemble output extension).outcome) t bundles artifacts after

/-- A build of some bundles and a last one, without the roles. -/
theorem build_concat (front : List Bundle) (last : Bundle) (output : Path) (extension : String) :
    build (front ++ [last]) output extension = (do
      let companions ← front.mapM (assembleAs "companion" output extension)
      let primary ← assembleAs "primary" output extension last
      return ⟨companions, primary⟩) := by
  rw [build, List.getLast?_concat]
  dsimp only
  rw [List.dropLast_concat]

/-- A batch depends on the files only. -/
theorem quiet_build (bundles : List Bundle) (output : Path) (extension : String) :
    Quiet (build bundles output extension) := by
  rcases List.eq_nil_or_concat bundles with rfl | ⟨front, last, rfl⟩
  · exact Action.quiet_throw _
  · rw [List.concat_eq_append, build_concat]
    exact (Quiet.mapM (quiet_assembleAs _ _ _) _).bind fun _ =>
      (quiet_assembleAs _ _ _ _).bind fun _ => Action.quiet_pure _

/-- A build succeeds when there is something to build and every bundle is packed
in its turn. -/
theorem outcome_build_eq_ok_iff : (build bundles output extension).outcome t = (.ok o, after) ↔
    bundles ≠ [] ∧ PackedInTurn output extension t bundles o.artifacts after := by
  -- The last bundle is the primary one, so the batch is taken apart at its end.
  rcases List.eq_nil_or_concat bundles with rfl | ⟨front, last, rfl⟩
  · exact iff_of_false nofun fun h => h.1 rfl
  rw [List.concat_eq_append, build_concat, PackedInTurn, Action.inTurn_snoc_iff,
    Action.outcome_bind_eq_ok_iff fun _ => (quiet_assembleAs _ _ _ _).bind fun _ =>
      Action.quiet_pure _]
  simp only [Action.outcome_mapM_eq_ok_iff (quiet_assembleAs _ _ _),
    Action.outcome_bind_eq_ok_iff fun _ => Action.quiet_pure _, outcome_assembleAs]
  constructor
  · rintro ⟨companions, t₁, hcompanions, primary, t₂, hprimary, hend⟩
    cases hend
    exact ⟨by simp, companions, primary, t₁, rfl, hcompanions, hprimary⟩
  · rintro ⟨-, companions, primary, t₁, heq, hcompanions, hprimary⟩
    obtain ⟨companions', primary'⟩ := o
    obtain ⟨rfl, hlast⟩ := List.append_inj' heq rfl
    cases hlast
    exact ⟨companions', t₁, hcompanions, primary', after, hprimary, rfl⟩

/-- A build fails when there is nothing to build, or with the failure of the first
bundle that cannot be packed. -/
theorem outcome_build_eq_error_iff :
    (build bundles output extension).outcome t = (.error e, after) ↔
      bundles = [] ∧ e = .noBundlesFound output ∧ after = t ∨
      ∃ front b back artifacts t₁, bundles = front ++ b :: back ∧
        PackedInTurn output extension t front artifacts t₁ ∧
        (b.assemble output extension).outcome t₁ = (.error e, after) := by
  rcases List.eq_nil_or_concat bundles with rfl | ⟨init, last, rfl⟩
  · have hnil : (build [] output extension).outcome t = (.error (.noBundlesFound output), t) := rfl
    rw [hnil, Prod.mk.injEq, Except.error.injEq]
    constructor
    · rintro ⟨rfl, rfl⟩
      exact .inl ⟨rfl, rfl, rfl⟩
    · rintro (⟨-, rfl, rfl⟩ | ⟨front, b, back, _, _, heq, -⟩)
      · exact ⟨rfl, rfl⟩
      · simp at heq
  rw [List.concat_eq_append, build_concat, Action.outcome_bind_eq_error_iff fun _ =>
    (quiet_assembleAs _ _ _ _).bind fun _ => Action.quiet_pure _]
  simp only [Action.outcome_mapM_eq_ok_iff (quiet_assembleAs _ _ _),
    Action.outcome_mapM_eq_error_iff (quiet_assembleAs _ _ _),
    Action.outcome_bind_eq_error_iff fun _ => Action.quiet_pure _, outcome_assembleAs]
  constructor
  · rintro (⟨front, b, back, artifacts, t₁, rfl, hfront, hb⟩ |
      ⟨companions, t₁, hcompanions, hprimary | ⟨primary, t₂, -, hend⟩⟩)
    · exact .inr ⟨front, b, back ++ [last], artifacts, t₁, by simp, hfront, hb⟩
    · exact .inr ⟨init, last, [], companions, t₁, rfl, hcompanions, hprimary⟩
    · cases hend
  · rintro (⟨hnil, -⟩ | ⟨front, b, back, artifacts, t₁, heq, hfront, hb⟩)
    · simp at hnil
    -- The bundle is the last one, or one of those before it.
    rcases List.eq_nil_or_concat back with rfl | ⟨back, last', rfl⟩
    · obtain ⟨rfl, hlast⟩ := List.append_inj' heq rfl
      cases hlast
      exact .inr ⟨artifacts, t₁, hfront, .inl hb⟩
    · rw [List.concat_eq_append, ← List.cons_append, ← List.append_assoc] at heq
      obtain ⟨rfl, -⟩ := List.append_inj' heq rfl
      exact .inl ⟨front, b, back, artifacts, t₁, rfl, hfront, hb⟩

/-! ### One bundle more -/

/-- Where the archive of a bundle goes in a build that starts with `t`, once the
output directory has been made. -/
def Goes (t : FileTree) (output : Path) (extension : String) (b : Bundle) (loc : Location) : Prop :=
  (t.makeDirectories output).tree.targetLocation (b.archivePath output extension) .busy = .ok loc

/-- No two archives go to the same place. -/
def Apart (t : FileTree) (output : Path) (extension : String) (bundles : List Bundle) : Prop :=
  bundles.Pairwise fun b c => ∀ loc, Goes t output extension b loc → ¬ Goes t output extension c loc

/-- One of the bundles has been packed in a build that started with `t`. -/
structure Advances (bundles : List Bundle) (t : FileTree) (output : Path) (extension : String)
    (b : Bundle) (a : Artifact) (content : Bytes) (loc : Location) (now after : FileTree) :
    Prop where
  goes : Goes t output extension b loc
  delivers : (now.makeDirectories output).tree.Delivers (b.archivePath output extension) content loc
    after
  read : after.read (b.archivePath output extension) = .ok content
  name : a.name = b.name
  path : a.path = b.archivePath output extension
  digest : a.digest = Digest.digestOf content
  output_ne_nil : output.bytes ≠ []
  settled : (after.makeDirectories output).tree = after
  progress : Progress bundles t output extension after

/-- An assembly that succeeds advances the batch: its archive is where it goes, and the
rest is as before. -/
theorem Progress.advances (h : Progress bundles t output extension now) (hb : b ∈ bundles)
    (hrun : (b.assemble output extension).outcome now = (.ok a, after)) :
    ∃ content loc, Advances bundles t output extension b a content loc now after := by
  obtain ⟨s', hassemble, hafter⟩ := Action.outcome_eq_ok_iff.mp hrun
  obtain ⟨place, records, hpacked⟩ := assemble_eq_ok_iff.mp ⟨s', hassemble, hafter⟩
  obtain ⟨loc, hdelivers, hread⟩ := hpacked.delivers
  obtain ⟨content, hcontent, rfl⟩ := hpacked.read
  obtain rfl : Archive.encode records = content := Except.ok.inj (hread.symm.trans hcontent)
  -- The staging file had a place, so the output is not the empty path.
  obtain ⟨dir, _, hlocate, -, -⟩ := stagingPlace_eq_ok hpacked.staged
  have hmade := h.made hpacked.made
  have hfills := h.deliver hb hpacked.made hdelivers
  refine ⟨_, loc, {
    goes := h.fills.targetLocation hdelivers.target
    delivers := hdelivers
    read := hread
    name := rfl
    path := rfl
    digest := rfl
    output_ne_nil := ?_
    settled := makeDirectories_of_fills hmade hfills
    progress := .inr ⟨hmade, hfills⟩ }⟩
  obtain ⟨entry, hplace⟩ := FileTree.locate_eq_ok_iff.mp hlocate
  exact ((Path.check_eq_ok_iff output).mp (FileTree.place_eq_entry_iff.mp hplace).1).2.2

/-- Everywhere else the file system is as it was. -/
theorem Advances.get?_eq {other : Location}
    (h : Advances bundles t output extension b a content loc now after)
    (hother : ¬ Goes t output extension b other) :
    after.get? other = (now.makeDirectories output).tree.get? other := by
  refine h.delivers.get?_of_ne ?_
  rintro rfl
  exact hother h.goes

/-! ### A row of bundles -/

/-- A row of bundles leaves everything as it was but the places of its archives. -/
theorem get?_of_packedInTurn {row : List Bundle}
    (h : PackedInTurn output extension now row artifacts after)
    (hnow : Progress bundles t output extension now) (hrow : row ⊆ bundles) :
    Progress bundles t output extension after ∧
      (row ≠ [] → (after.makeDirectories output).tree = after) ∧
      ∀ loc, (∀ b ∈ row, ¬ Goes t output extension b loc) →
        (after.makeDirectories output).tree.get? loc
          = (now.makeDirectories output).tree.get? loc := by
  unfold PackedInTurn at h
  induction h with
  | nil now => exact ⟨hnow, fun hne => absurd rfl hne, fun loc _ => rfl⟩
  | @cons now t₁ after b row a artifacts first rest ih =>
    rw [List.cons_subset] at hrow
    obtain ⟨content, new, hadvances⟩ := hnow.advances hrow.1 first
    obtain ⟨hprogress, hsettled, hget⟩ := ih hadvances.progress hrow.2
    refine ⟨hprogress, fun _ => ?_, fun loc hloc => ?_⟩
    · -- One archive is enough for the output directory to be there from now on.
      cases rest with
      | nil => exact hadvances.settled
      | cons => exact hsettled (List.cons_ne_nil _ _)
    · rw [List.forall_mem_cons] at hloc
      rw [hget loc hloc.2, hadvances.settled, hadvances.get?_eq hloc.1]

/-! ### Finished archives -/

/-- The archive of an artifact is at its place, and the digest is of what it
holds. -/
structure Placed (t : FileTree) (output : Path) (extension : String) (b : Bundle) (a : Artifact)
    (content : Bytes) (loc : Location) (now : FileTree) : Prop where
  name : a.name = b.name
  path : a.path = b.archivePath output extension
  goes : Goes t output extension b loc
  endsInSlash : (b.archivePath output extension).endsInSlash = false
  file : now.get? loc = some (.file content false)
  digest : a.digest = Digest.digestOf content

/-- The path of an archive that is at its place leads there: no archive of the
build has taken the place of a link, or the name of this one is proper and the
output directory is found by its path. -/
def Findable (bundles : List Bundle) (t now : FileTree) (output : Path) (extension : String)
    (b : Bundle) : Prop :=
  (∀ loc target, ArchivePlace bundles t output extension loc →
    (t.makeDirectories output).tree.get? loc ≠ some (.link target)) ∨
  ProperName (Text.bytesOf (b.archiveName extension)) ∧ now.isDirectory output = true

/-- An artifact is what it was when it was made. -/
def Stands (bundles : List Bundle) (t now : FileTree) (output : Path) (extension : String)
    (b : Bundle) (a : Artifact) : Prop :=
  ∃ content loc, Placed t output extension b a content loc now ∧
    (Findable bundles t now output extension b → now.read a.path = .ok content)

/-- What was placed stays in place as long as nothing comes over it. -/
theorem Placed.mono (h : Placed t output extension b a content loc now)
    (hget : after.get? loc = now.get? loc) : Placed t output extension b a content loc after where
  name := h.name
  path := h.path
  goes := h.goes
  endsInSlash := h.endsInSlash
  file := hget.trans h.file
  digest := h.digest

/-- The archives of a row of bundles are at their places after the row. -/
theorem placed_of_packedInTurn {row : List Bundle}
    (h : PackedInTurn output extension now row artifacts after)
    (hnow : Progress bundles t output extension now) (hrow : row ⊆ bundles)
    (hapart : Apart t output extension row) :
    List.Forall₂ (fun b a => ∃ content loc, Placed t output extension b a content loc after)
      row artifacts := by
  unfold PackedInTurn at h
  induction h with
  | nil now => exact .nil
  | @cons now t₁ after b row a artifacts first rest ih =>
    rw [List.cons_subset] at hrow
    rw [Apart, List.pairwise_cons] at hapart
    obtain ⟨content, loc, hadvances⟩ := hnow.advances hrow.1 first
    refine .cons ⟨content, loc, ?_⟩ (ih hadvances.progress hrow.2 hapart.2)
    -- The archives that come after go elsewhere.
    obtain ⟨-, hsettled, hget⟩ := get?_of_packedInTurn rest hadvances.progress hrow.2
    have hkept := hget loc fun c hc hgoes => hapart.1 c hc loc hadvances.goes hgoes
    have hafter : (after.makeDirectories output).tree = after := by
      cases rest with
      | nil => exact hadvances.settled
      | cons => exact hsettled (List.cons_ne_nil _ _)
    rw [hafter, hadvances.settled] at hkept
    exact {
      name := hadvances.name
      path := hadvances.path
      goes := hadvances.goes
      endsInSlash := hadvances.delivers.endsInSlash
      file := hkept.trans hadvances.delivers.get?_self
      digest := hadvances.digest }

/-- An archive that can be found is read by its path. -/
theorem Placed.read (h : Placed t output extension b a content loc now)
    (hfills : (t.makeDirectories output).tree.Fills now (ArchivePlace bundles t output extension))
    (hfindable : Findable bundles t now output extension b) : now.read a.path = .ok content := by
  have hplace : now.place true (b.archivePath output extension)
      = .ok (.entry loc (.file content false)) := by
    rcases hfindable with hlinks | ⟨hname, hdirectory⟩
    · exact hfills.place_of_target hlinks h.goes h.endsInSlash h.file
    · obtain ⟨out, hout⟩ := FileTree.isDirectory_iff.mp hdirectory
      obtain ⟨hcheck, hreaches⟩ := FileTree.place_eq_entry_iff.mp hout
      -- The output directory is still the one that the archives were put into.
      rw [hfills.current] at hreaches
      have hready : (t.makeDirectories output).tree.place true output
          = .ok (.entry out .directory) :=
        FileTree.place_eq_entry_iff.mpr ⟨hcheck, hfills.reaches_directory hreaches⟩
      have hloc := eq_of_targetLocation hready hname h.goes
      obtain ⟨dir, last, htarget, -, -⟩ := FileTree.targetLocation_eq_ok_iff.mp h.goes
      obtain ⟨hchecked, -⟩ := FileTree.target_eq_ok_iff.mp htarget
      have hfile := h.file
      rw [hloc] at hfile
      rw [hloc]
      exact FileTree.place_child hout hname hchecked hfile nofun
  rw [h.path]
  exact FileTree.read_of_entryAt (FileTree.entryAt_eq_ok_iff.mpr ⟨loc, hplace⟩)

/-- Where an archive with a proper name is read, the output directory is found. -/
theorem Advances.isDirectory (h : Advances bundles t output extension b a content loc now after)
    (hname : ProperName (Text.bytesOf (b.archiveName extension))) :
    after.isDirectory output = true := by
  obtain ⟨_, _, hplace, -⟩ := FileTree.read_eq_ok_iff.mp h.read
  have hdescend : b.archivePath output extension
      = output.descend [Text.bytesOf (b.archiveName extension)] := rfl
  rw [hdescend] at hplace
  obtain ⟨dir, hdir⟩ := FileTree.exists_directory_of_place_descend h.output_ne_nil
    (List.cons_ne_nil _ _) (List.forall_mem_singleton.mpr hname) hplace
  exact FileTree.isDirectory_iff.mpr ⟨dir, hdir⟩

/-- Artifacts are what they were as long as their places are. -/
theorem stands_of_placed {row : List Bundle}
    (hplaced : List.Forall₂ (fun b a => ∃ content loc, Placed t output extension b a content loc now)
      row artifacts)
    (hkept : ∀ b ∈ row, ∀ loc, Goes t output extension b loc → after.get? loc = now.get? loc)
    (hfills : row ≠ [] →
      (t.makeDirectories output).tree.Fills after (ArchivePlace bundles t output extension)) :
    List.Forall₂ (Stands bundles t after output extension) row artifacts := by
  -- That a bundle is one of the row is carried along, for nothing is known of others.
  have hmem := (List.forall₂_and_left row artifacts).mpr ⟨fun b hb => hb, hplaced⟩
  refine hmem.imp ?_
  rintro b a ⟨hb, content, loc, hplaced⟩
  have hafter := hplaced.mono (hkept b hb loc hplaced.goes)
  exact ⟨content, loc, hafter, hafter.read (hfills (List.ne_nil_of_mem hb))⟩

/-- Past its first bundle a build has done nothing but put files in place. -/
theorem fills_of_packedInTurn {row : List Bundle}
    (h : PackedInTurn output extension t row artifacts after) (hrow : row ⊆ bundles)
    (hne : row ≠ []) :
    (t.makeDirectories output).tree.Fills after (ArchivePlace bundles t output extension) := by
  obtain ⟨hprogress, hsettled, -⟩ := get?_of_packedInTurn h (.inl rfl) hrow
  have hfills := hprogress.fills
  rwa [hsettled hne] at hfills

/-! ### Failures -/

/-- What is at the place of an archive that was not finished when a build has
failed with the bundle `b`. -/
inductive Remains (t now : FileTree) (output : Path) (extension : String) (b : Bundle)
    (e : Failure) (loc : Location) : Prop
  /-- What was there before. -/
  | same (h : now.get? loc = t.get? loc)
  /-- A directory on the way to the output directory, where nothing was. -/
  | made (out : Location) (hout : t.Awaits output out) (hway : loc <+: out)
      (hvacant : t.get? loc = none) (hnow : now.get? loc = some .directory)
  /-- The archive of `b` in place of a link, for want of which it could not be
  read by its path. -/
  | replaced (target : Path) (content : Bytes) (reason : String)
      (hgoes : Goes t output extension b loc) (hlink : t.get? loc = some (.link target))
      (hnow : now.get? loc = some (.file content false))
      (hreason : e = .fileReadFailed (b.archivePath output extension) reason)

/-- What a bundle that cannot be packed leaves behind. -/
theorem effect_of_outcome (h : (b.assemble output extension).outcome now = (.error e, after)) :
    after = now ∨ check now b output = .ok () ∧
      (after = (now.makeDirectories output).tree ∨
      (now.makeDirectories output).fault = none ∧ ∃ content loc target reason,
        (now.makeDirectories output).tree.Delivers (b.archivePath output extension) content loc
          after ∧
        (now.makeDirectories output).tree.get? loc = some (.link target) ∧
        e = .fileReadFailed (b.archivePath output extension) reason) := by
  obtain ⟨s', hassemble, rfl⟩ := Action.outcome_eq_error_iff.mp h
  rcases (fails_of_assemble hassemble).effect with ⟨-, hsame⟩ | hchanged
  · exact .inl hsame
  · exact .inr hchanged

/-- Where one bundle has been accepted, the directories of the output path are
known. -/
theorem prepares_of_packedInTurn {row : List Bundle} (ht : t.WellFormed)
    (h : PackedInTurn output extension t row artifacts t₁)
    (hchecked : row ≠ [] ∨ check t₁ b output = .ok ()) :
    ∃ out, t.Prepares output out (t.makeDirectories output).tree ∧
      ((t.makeDirectories output).fault = none →
        (t.makeDirectories output).tree.place true output = .ok (.entry out .directory)) := by
  cases h with
  | nil => exact prepares_of_check (s := { tree := t }) ht (hchecked.resolve_left fun h => h rfl)
  | cons first rest =>
    -- The first one was accepted before anything was made.
    obtain ⟨s', hassemble, hafter⟩ := Action.outcome_eq_ok_iff.mp first
    obtain ⟨place, records, hpacked⟩ := assemble_eq_ok_iff.mp ⟨s', hassemble, hafter⟩
    exact prepares_of_check (s := { tree := t }) ht hpacked.checked

/-- A place that is as it was once the output directory had been made. -/
theorem remains_of_prepares {out : Location}
    (hprepares : t.Prepares output out (t.makeDirectories output).tree)
    (hget : now.get? loc = (t.makeDirectories output).tree.get? loc) :
    Remains t now output extension b e loc := by
  -- What was there is as before; what was not is still not there, or is a directory that was
  -- made.
  cases hvacant : t.get? loc with
  | some entry => exact .same (by rw [hget, hvacant, hprepares.paves.get?_eq loc entry hvacant])
  | none =>
    cases hready : (t.makeDirectories output).tree.get? loc with
    | none => exact .same (by rw [hget, hvacant, hready])
    | some entry =>
      have hsome : (t.makeDirectories output).tree.get? loc ≠ none := by simp [hready]
      rcases hprepares.paves.new loc entry hready with hold | rfl
      · simp [hvacant] at hold
      · exact .made out hprepares.awaits (hprepares.paves.way loc hvacant hsome) hvacant
          (hget.trans hready)

/-- A failure after a row of bundles leaves the places of the archives that were
not finished as they were, or as directories that were made or a link that was
replaced have them. -/
theorem remains_of_failure {row : List Bundle} (ht : t.WellFormed)
    (hrow : PackedInTurn output extension t row artifacts t₁)
    (hfailed : (b.assemble output extension).outcome t₁ = (.error e, after))
    (hloc : ∀ c ∈ row, ¬ Goes t output extension c loc) :
    Remains t after output extension b e loc := by
  obtain ⟨hprogress, hsettled, hget⟩ :=
    get?_of_packedInTurn hrow (.inl rfl) (List.Subset.refl row)
  rcases effect_of_outcome hfailed with rfl | ⟨hchecked, rfl | ⟨hmade, content, new, target, reason,
    hdelivers, hlink, hreason⟩⟩
  · -- Nothing was done for this bundle.
    by_cases hnil : row = []
    · subst hnil
      cases hrow
      exact .same rfl
    · obtain ⟨out, hprepares, -⟩ := prepares_of_packedInTurn (b := b) ht hrow (.inl hnil)
      exact remains_of_prepares hprepares (by rw [← hget loc hloc, hsettled hnil])
  · obtain ⟨out, hprepares, -⟩ := prepares_of_packedInTurn ht hrow (.inr hchecked)
    exact remains_of_prepares hprepares (hget loc hloc)
  · obtain ⟨out, hprepares, -⟩ := prepares_of_packedInTurn ht hrow (.inr hchecked)
    have hgoes : Goes t output extension b new := hprogress.fills.targetLocation hdelivers.target
    by_cases hnew : loc = new
    · subst hnew
      -- The link is older than the build: it is no archive and no directory.
      rw [hget loc hloc] at hlink
      have hold := (hprepares.paves.new loc _ hlink).resolve_right nofun
      exact .replaced target content reason hgoes hold hdelivers.get?_self hreason
    · exact remains_of_prepares hprepares ((hdelivers.get?_of_ne hnew).trans (hget loc hloc))

/-- A bundle that cannot be packed after others leaves their archives alone. -/
theorem kept_of_failure {row : List Bundle}
    (hrow : PackedInTurn output extension t row artifacts t₁) (hsub : row ⊆ bundles)
    (hb : b ∈ bundles) (hne : row ≠ [])
    (hfailed : (b.assemble output extension).outcome t₁ = (.error e, after)) :
    (∀ loc, ¬ Goes t output extension b loc → after.get? loc = t₁.get? loc) ∧
      (t.makeDirectories output).tree.Fills after (ArchivePlace bundles t output extension) := by
  obtain ⟨hprogress, hsettled, -⟩ := get?_of_packedInTurn hrow (.inl rfl) hsub
  have hfills := fills_of_packedInTurn hrow hsub hne
  -- The bundle that failed left everything alone, made the directories, or delivered its archive
  -- before it failed.
  rcases effect_of_outcome hfailed with rfl | ⟨-, rfl | ⟨hmade, content, new, _, _, hdelivers, -⟩⟩
  · exact ⟨fun _ _ => rfl, hfills⟩
  · rw [hsettled hne]
    exact ⟨fun _ _ => rfl, hfills⟩
  · refine ⟨fun loc hloc => ?_, hprogress.deliver hb hmade hdelivers⟩
    have hne' : loc ≠ new := by
      rintro rfl
      exact hloc (hprogress.fills.targetLocation hdelivers.target)
    rw [hdelivers.get?_of_ne hne', hsettled hne]

/-- No directory is made at the place of an archive with a proper name, which is in
the output directory and not on the way to it. -/
theorem Remains.get?_eq (h : Remains t now output extension b e loc) (ht : t.WellFormed)
    (hmade : (t.makeDirectories output).fault = none)
    (hname : ProperName (Text.bytesOf (c.archiveName extension)))
    (hgoes : Goes t output extension c loc) (hlink : ∀ target, t.get? loc ≠ some (.link target)) :
    now.get? loc = t.get? loc := by
  cases h with
  | same h => exact h
  | made out hout hway hvacant hnow =>
    have hplace := (FileTree.fulfils_makeDirectories ht hout).place hmade
    have hloc := eq_of_targetLocation hplace hname hgoes
    -- An archive lies below the output directory, so it is none of the directories on the way
    -- there.
    have hlength := hway.length_le
    rw [hloc, List.length_append, List.length_singleton] at hlength
    omega
  | replaced target _ _ _ hold => exact absurd hold (hlink target)

/-! ### A build in order -/

/-- After a build the output directory is found by its path, if the last archive
has a proper name. -/
theorem isDirectory_of_packedInTurn (h : PackedInTurn output extension t bundles artifacts after)
    (hne : bundles ≠ [])
    (hnames : ∀ b ∈ bundles, ProperName (Text.bytesOf (b.archiveName extension))) :
    after.isDirectory output = true := by
  rcases List.eq_nil_or_concat bundles with rfl | ⟨row, last, rfl⟩
  · exact absurd rfl hne
  rw [List.concat_eq_append] at h hnames
  obtain ⟨artifacts', a, t₁, -, hrow, hlast⟩ := Action.inTurn_snoc_iff.mp h
  obtain ⟨hprogress, -⟩ := get?_of_packedInTurn hrow (.inl rfl) (List.subset_append_left row [last])
  obtain ⟨content, loc, hadvances⟩ := hprogress.advances (by simp) hlast
  exact hadvances.isDirectory (hnames last (by simp))

/-- A build packs its bundles in order and keeps what it has finished.

* What it comes to depends on the file system only.
* It succeeds exactly when there are bundles and each of them is packed in its
  turn, and gives their artifacts in order.
* It fails with nothing changed when there are none, and else with the failure of
  the first one that cannot be packed, on what those before it have left.
* After a success every artifact is what it was when it was made, and the output
  directory is found by its path if the archives have proper names.
* After a failure the same holds of the artifacts that were finished, and the
  places of the others are as they were but for directories on the way to the
  output directory and for a link that was replaced. -/
theorem build_in_order (ht : t.WellFormed) (hapart : Apart t output extension bundles) :
    (∀ s : Session, s.tree = t → (build bundles output extension).outcome t
      = ((build bundles output extension).result s,
        ((build bundles output extension).after s).tree)) ∧
    (∀ o after, (build bundles output extension).outcome t = (.ok o, after) ↔
      bundles ≠ [] ∧ PackedInTurn output extension t bundles o.artifacts after) ∧
    (∀ e after, (build bundles output extension).outcome t = (.error e, after) ↔
      bundles = [] ∧ e = .noBundlesFound output ∧ after = t ∨
      ∃ front b back artifacts t₁, bundles = front ++ b :: back ∧
        PackedInTurn output extension t front artifacts t₁ ∧
        (b.assemble output extension).outcome t₁ = (.error e, after)) ∧
    (∀ o after, (build bundles output extension).outcome t = (.ok o, after) →
      List.Forall₂ (Stands bundles t after output extension) bundles o.artifacts ∧
      ((∀ b ∈ bundles, ProperName (Text.bytesOf (b.archiveName extension))) →
        after.isDirectory output = true)) ∧
    ∀ e after front b back artifacts t₁, bundles = front ++ b :: back →
      PackedInTurn output extension t front artifacts t₁ →
      (b.assemble output extension).outcome t₁ = (.error e, after) →
      List.Forall₂ (Stands bundles t after output extension) front artifacts ∧
      ∀ c ∈ b :: back, ∀ loc, Goes t output extension c loc →
        Remains t after output extension b e loc ∧
        ((t.makeDirectories output).fault = none →
          ProperName (Text.bytesOf (c.archiveName extension)) →
          (∀ target, t.get? loc ≠ some (.link target)) → after.get? loc = t.get? loc) := by
  refine ⟨?quiet, fun o after => outcome_build_eq_ok_iff, fun e after =>
    outcome_build_eq_error_iff, ?success, ?failure⟩
  case quiet =>
    rintro s rfl
    exact (quiet_build bundles output extension).outcome_eq s
  -- Later archives go elsewhere, so each archive stands at the end as it was delivered.
  case success =>
    intro o after h
    obtain ⟨hne, hpacked⟩ := outcome_build_eq_ok_iff.mp h
    have hplaced := placed_of_packedInTurn hpacked (.inl rfl) (List.Subset.refl bundles) hapart
    exact ⟨stands_of_placed hplaced (fun _ _ _ _ => rfl) fun _ =>
        fills_of_packedInTurn hpacked (List.Subset.refl bundles) hne,
      isDirectory_of_packedInTurn hpacked hne⟩
  case failure =>
    intro e after front b back artifacts t₁ hbundles hfront hfailed
    have hsub : front ⊆ bundles := by
      rw [hbundles]
      exact List.subset_append_left _ _
    have hmem : b ∈ bundles := by simp [hbundles]
    -- The bundles before the failure are apart from each other and from those that were not
    -- built.
    have hparts := hapart
    rw [Apart, hbundles, List.pairwise_append] at hparts
    obtain ⟨hrow, -, hothers⟩ := hparts
    refine ⟨?_, fun c hc loc hgoes => ?_⟩
    · have hplaced := placed_of_packedInTurn hfront (.inl rfl) hsub hrow
      refine stands_of_placed hplaced (fun c hc loc hgoes => ?_) fun hne =>
        (kept_of_failure hfront hsub hmem hne hfailed).2
      exact (kept_of_failure hfront hsub hmem (List.ne_nil_of_mem hc) hfailed).1 loc
        (hothers c hc b List.mem_cons_self loc hgoes)
    · have hremains := remains_of_failure ht hfront hfailed fun d hd hgoes' =>
        hothers d hd c hc loc hgoes' hgoes
      exact ⟨hremains, fun hmade hname hlink => hremains.get?_eq ht hmade hname hgoes hlink⟩

/-- One bundle is apart from all others. -/
theorem apart_singleton : Apart t output extension [b] := List.pairwise_singleton _ _

/-- The archives of two projects go to two places. -/
theorem apart_pair : Apart pairTree projectOutput "tgz" [firstBundle, secondBundle] := by
  have hfirst : Goes pairTree projectOutput "tgz" firstBundle (locationOf ["out", "demo_a.tgz"]) := by
    cbv
  have hsecond : Goes pairTree projectOutput "tgz" secondBundle
      (locationOf ["out", "demo_b.tgz"]) := by
    cbv
  refine List.pairwise_pair.mpr fun loc hloc hloc' => ?_
  rw [Goes, hfirst] at hloc
  rw [Goes, hsecond] at hloc'
  exact absurd ((Except.ok.inj hloc).trans (Except.ok.inj hloc').symm) (by decide)

/-- The archives of two projects are apart, so what is known of a build holds of
them; one project alone is packed, and its archive is found. -/
theorem build_in_order_project :
    pairTree.WellFormed ∧ Apart pairTree projectOutput "tgz" [firstBundle, secondBundle] ∧
    (∀ o after, (build [firstBundle, secondBundle] projectOutput "tgz").outcome pairTree
        = (.ok o, after) →
      List.Forall₂ (Stands [firstBundle, secondBundle] pairTree after projectOutput "tgz")
        [firstBundle, secondBundle] o.artifacts) ∧
    projectTree.WellFormed ∧ Apart projectTree projectOutput "tgz" [projectBundle] ∧
    ∃ o after, (build [projectBundle] projectOutput "tgz").outcome projectTree = (.ok o, after) ∧
      List.Forall₂ (Stands [projectBundle] projectTree after projectOutput "tgz") [projectBundle]
        o.artifacts ∧
      after.isDirectory projectOutput = true := by
  refine ⟨pairTree_wellFormed, apart_pair, fun o after h =>
    ((build_in_order pairTree_wellFormed apart_pair).2.2.2.1 o after h).1,
    projectTree_wellFormed, apart_singleton, ?_⟩
  obtain ⟨a, s', hrun⟩ := exists_assemble_project
  have hpacked : PackedInTurn projectOutput "tgz" projectTree [projectBundle] [a] s'.tree :=
    .cons (Action.outcome_eq_ok_iff.mpr ⟨s', hrun, rfl⟩) (.nil _)
  have happart : Apart projectTree projectOutput "tgz" [projectBundle] := apart_singleton
  have hbuild := build_in_order projectTree_wellFormed happart
  have hname : ProperName (Text.bytesOf (projectBundle.archiveName "tgz")) := by decide
  have houtcome : (build [projectBundle] projectOutput "tgz").outcome projectTree
      = (.ok ⟨[], a⟩, s'.tree) :=
    (hbuild.2.1 ⟨[], a⟩ s'.tree).mpr ⟨List.cons_ne_nil _ _, hpacked⟩
  obtain ⟨hstands, hdirectory⟩ := hbuild.2.2.2.1 _ _ houtcome
  exact ⟨_, _, houtcome, hstands, hdirectory (List.forall_mem_singleton.mpr hname)⟩

/-- Not every failure leaves the places of the archives that were not finished as
they were. -/
theorem not_forall_build_error_keeps : ¬ ∀ (t after : FileTree) (bundles : List Bundle)
    (output : Path) (extension : String) (e : Failure), t.WellFormed →
    Apart t output extension bundles →
    (build bundles output extension).outcome t = (.error e, after) →
    ∀ front b back artifacts t₁, bundles = front ++ b :: back →
    PackedInTurn output extension t front artifacts t₁ →
    (b.assemble output extension).outcome t₁ = (.error e, after) →
    ∀ c ∈ b :: back, ∀ loc, Goes t output extension c loc → after.get? loc = t.get? loc := by
  intro hall
  obtain ⟨content, e, s', hrun, htree⟩ := exists_assemble_error_loop
  have hfailed : (projectBundle.assemble loopOutput "tgz").outcome loopTree
      = (.error e, loopTreeWith content) := Action.outcome_eq_error_iff.mpr ⟨s', hrun, htree⟩
  have hbuild : (build [projectBundle] loopOutput "tgz").outcome loopTree
      = (.error e, loopTreeWith content) :=
    outcome_build_eq_error_iff.mpr
      (.inr ⟨[], projectBundle, [], [], loopTree, rfl, .nil _, hfailed⟩)
  have hgoes : Goes loopTree loopOutput "tgz" projectBundle (locationOf ["demo.tgz"]) := by
    cbv
  have hkept := hall loopTree _ _ loopOutput "tgz" e loopTree_wellFormed apart_singleton hbuild
    [] projectBundle [] [] loopTree rfl (.nil _) hfailed _ List.mem_cons_self _ hgoes
  -- A link stood under the final name, and the archive took its place before the build failed.
  have hlink : loopTree.get? (locationOf ["demo.tgz"]) = some (.link (.ofString ".")) := by
    cbv
  rw [loopTreeWith, FileTree.get?_insert_self (by decide), hlink] at hkept
  cases hkept

end Promotion.Bundle
