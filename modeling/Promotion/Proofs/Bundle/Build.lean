import Promotion.Bundle.Build
import Promotion.Proofs.Bundle.Effect

/-!
# `Promotion.Proofs.Bundle.Build`: what a build does to its inputs

A build packs its bundles one after the other, each into the file system that
the one before has left. The output directory is made once; after that a build
only puts files in place, so what it changes can be told from the file system
that it started with.

* `Bundle.Progress`: how far a build has come; each bundle brings it on.
* `build_fills`: what a build changes, whether it succeeds or fails.
* `build_keeps`: the payload and the descriptor of a bundle are the same after a
  build if the output directory was not in that payload to begin with.
* `not_forall_build_keeps`: if it was, an earlier bundle may change them.

`build_keeps` asks for more than that each bundle is accepted in its turn. A
bundle is looked at only when those before it have been packed, so the output
directory must be acceptable for it at the start. An archive's name is joined to
the output directory as it is, so a name with a separator in it could lead
anywhere; and the guard compares the output directory with the payload only, so
the archive of one bundle could take the place of another's descriptor.
-/

set_option autoImplicit false

namespace Promotion.Bundle

open Promotion.Text (Bytes)

variable {s s' : Session} {b : Bundle} {bundles : List Bundle} {output : Path}
  {extension : String} {e : Failure} {t ready : FileTree} {loc : Location}

/-! ### One bundle after another -/

/-- An archive of one of the bundles may be put at a location, once the output
directory has been made. -/
def ArchivePlace (bundles : List Bundle) (t : FileTree) (output : Path) (extension : String)
    (loc : Location) : Prop :=
  (t.makeDirectories output).fault = none ∧ ∃ b ∈ bundles,
    (t.makeDirectories output).tree.targetLocation (b.archivePath output extension) .busy = .ok loc

/-- Directories that have been made are not made again. -/
theorem makeDirectories_of_fills {t' : FileTree} {places : Location → Prop}
    (hmade : (t.makeDirectories output).fault = none)
    (h : (t.makeDirectories output).tree.Fills t' places) :
    (t'.makeDirectories output).tree = t' := by
  rcases (FileTree.makes_makeDirectories t output).isDirectory hmade with hempty | hdirectory
  · rw [FileTree.makeDirectories, FileTree.makeDirectoriesFrom_of_isEmpty _ t' hempty]
  · obtain ⟨loc, hplace⟩ := FileTree.isDirectory_iff.mp hdirectory
    exact h.makeDirectories hplace

/-- How far a build has come that has not failed: to no bundle yet, or past the
first one. -/
def Progress (bundles : List Bundle) (t : FileTree) (output : Path) (extension : String)
    (t' : FileTree) : Prop :=
  t' = t ∨ (t.makeDirectories output).fault = none ∧
    (t.makeDirectories output).tree.Fills t' (ArchivePlace bundles t output extension)

/-- The next bundle finds the output directory made, or makes it. -/
theorem Progress.fills {t' : FileTree} (h : Progress bundles t output extension t') :
    (t.makeDirectories output).tree.Fills (t'.makeDirectories output).tree
      (ArchivePlace bundles t output extension) := by
  rcases h with rfl | ⟨hmade, hfills⟩
  · exact .refl _ _
  · rw [makeDirectories_of_fills hmade hfills]
    exact hfills

/-- It can be made when it could be made at first. -/
theorem Progress.made {t' : FileTree} (h : Progress bundles t output extension t')
    (hmade : (t'.makeDirectories output).fault = none) :
    (t.makeDirectories output).fault = none := by
  rcases h with rfl | ⟨hmade', -⟩
  · exact hmade
  · exact hmade'

/-- One more archive in its place. -/
theorem Progress.deliver {t' after : FileTree} {content : Bytes} {new : Location}
    (h : Progress bundles t output extension t') (hb : b ∈ bundles)
    (hmade : (t'.makeDirectories output).fault = none)
    (hdelivers : (t'.makeDirectories output).tree.Delivers (b.archivePath output extension) content
      new after) :
    (t.makeDirectories output).tree.Fills after (ArchivePlace bundles t output extension) := by
  have hplace : ArchivePlace bundles t output extension new :=
    ⟨h.made hmade, b, hb, h.fills.targetLocation hdelivers.target⟩
  rw [hdelivers.eq_insert]
  exact h.fills.insert hplace hdelivers.free

/-- A bundle that is packed brings a build on. -/
theorem Progress.of_ok {a : Artifact} (h : Progress bundles t output extension s.tree)
    (hb : b ∈ bundles) (hrun : (b.assemble output extension).run s = .ok a s') :
    Progress bundles t output extension s'.tree := by
  obtain ⟨place, records, hpacked⟩ := assemble_eq_ok_iff.mp ⟨s', hrun, rfl⟩
  obtain ⟨new, hdelivers, -⟩ := hpacked.delivers
  exact .inr ⟨h.made hpacked.made, h.deliver hb hpacked.made hdelivers⟩

/-- A bundle that cannot be packed changes no more than one that can. -/
theorem Progress.of_error (h : Progress bundles t output extension s.tree) (hb : b ∈ bundles)
    (hrun : (b.assemble output extension).run s = .error e s') :
    s'.tree = t ∨
      (t.makeDirectories output).tree.Fills s'.tree (ArchivePlace bundles t output extension) := by
  rw [← Action.after_of_error hrun]
  -- The assembly was refused, made the directories, or delivered its archive.
  rcases assemble_leaves s b output extension with ⟨-, htree⟩ |
    ⟨-, htree | ⟨hmade, content, new, hdelivers⟩⟩
  · rw [htree]
    exact h.imp_right And.right
  · rw [htree]
    exact .inr h.fills
  · exact .inr (h.deliver hb hmade hdelivers)

/-! ### A build -/

/-- To tell the role of a bundle leaves the file system as it is. -/
theorem run_assembleAs (output : Path) (extension role : String) (b : Bundle) (s : Session) :
    ∃ s₀ : Session, s₀.tree = s.tree ∧
      (assembleAs role output extension b).run s = (b.assemble output extension).run s₀ := by
  rw [assembleAs, Action.run_tell_bind]
  refine ⟨_, ?_, rfl⟩
  rfl

/-- The assembly of one bundle of a batch leaves what the assembly of the bundle leaves.
-/
theorem after_assembleAs (output : Path) (extension role : String) (b : Bundle) (s : Session) :
    ∃ s₀ : Session, s₀.tree = s.tree ∧
      (assembleAs role output extension b).after s = (b.assemble output extension).after s₀ := by
  obtain ⟨s₀, htree, hrun⟩ := run_assembleAs output extension role b s
  exact ⟨s₀, htree, by rw [Action.after, hrun, Action.after]⟩

/-- A build that succeeds assembled the companions first, and the last bundle after
them. -/
theorem build_eq_ok {o : BuildOutput} (h : (build bundles output extension).run s = .ok o s') :
    ∃ last s₁ companions primary, last ∈ bundles ∧
      (bundles.dropLast.mapM (assembleAs "companion" output extension)).run s
        = .ok companions s₁ ∧
      (assembleAs "primary" output extension last).run s₁ = .ok primary s' := by
  unfold build at h
  split at h
  · cases h
  next last hlast =>
    obtain ⟨companions, s₁, hcompanions, h⟩ := Action.bind_eq_ok_iff.mp h
    obtain ⟨primary, s₂, hprimary, h⟩ := Action.bind_eq_ok_iff.mp h
    obtain ⟨-, rfl⟩ := Action.pure_eq_ok_iff.mp h
    exact ⟨last, s₁, companions, primary, List.mem_of_getLast? hlast, hcompanions, hprimary⟩

/-- A build fails without bundles, at a companion, or at the last bundle. -/
theorem build_eq_error (h : (build bundles output extension).run s = .error e s') :
    bundles = [] ∧ s' = s ∨
      (bundles.dropLast.mapM (assembleAs "companion" output extension)).run s = .error e s' ∨
      ∃ last s₁ companions, last ∈ bundles ∧
        (bundles.dropLast.mapM (assembleAs "companion" output extension)).run s
          = .ok companions s₁ ∧
        (assembleAs "primary" output extension last).run s₁ = .error e s' := by
  unfold build at h
  split at h
  next hnone =>
    exact .inl ⟨List.getLast?_eq_none_iff.mp hnone, (Action.throw_eq_error_iff.mp h).2⟩
  next last hlast =>
    rw [Action.bind_eq_error_iff] at h
    rcases h with hcompanions | ⟨companions, s₁, hcompanions, h⟩
    · exact .inr (.inl hcompanions)
    rw [Action.bind_eq_error_iff] at h
    rcases h with hprimary | ⟨primary, s₂, -, h⟩
    · exact .inr (.inr ⟨last, s₁, companions, List.mem_of_getLast? hlast, hcompanions, hprimary⟩)
    · cases h

/-- What each bundle keeps, a build keeps: `P` as long as it goes on, and `E`
also when it fails. -/
theorem build_induct {P E : FileTree → Prop} (hPE : ∀ t, P t → E t)
    (hok : ∀ b ∈ bundles, ∀ (s : Session) a s', P s.tree →
      (b.assemble output extension).run s = .ok a s' → P s'.tree)
    (herror : ∀ b ∈ bundles, ∀ (s : Session) e s', P s.tree →
      (b.assemble output extension).run s = .error e s' → E s'.tree)
    (hs : P s.tree) : E ((build bundles output extension).after s).tree := by
  -- The same for the actions that tell the role of a bundle first.
  have hroleOk (role : String) : ∀ b ∈ bundles, ∀ (s : Session) a s', P s.tree →
      (assembleAs role output extension b).run s = .ok a s' → P s'.tree := by
    intro b hb s a s' hP h
    obtain ⟨s₀, htree, hrun⟩ := run_assembleAs output extension role b s
    exact hok b hb s₀ a s' (htree ▸ hP) (hrun ▸ h)
  have hroleError (role : String) : ∀ b ∈ bundles, ∀ (s : Session) e s', P s.tree →
      (assembleAs role output extension b).run s = .error e s' → E s'.tree := by
    intro b hb s e s' hP h
    obtain ⟨s₀, htree, hrun⟩ := run_assembleAs output extension role b s
    exact herror b hb s₀ e s' (htree ▸ hP) (hrun ▸ h)
  have hstep : ∀ b ∈ bundles.dropLast, ∀ (s : Session) a s', P s.tree →
      (assembleAs "companion" output extension b).run s = .ok a s' → P s'.tree :=
    fun b hb => hroleOk "companion" b (List.mem_of_mem_dropLast hb)
  refine Action.after_induct (P := fun s => E s.tree) (fun o s' h => ?_) fun e s' h => ?_
  · obtain ⟨last, s₁, companions, primary, hlast, hcompanions, hprimary⟩ := build_eq_ok h
    have hP := Action.mapM_ok_induct (P := fun s => P s.tree) hstep hs hcompanions
    exact hPE _ (hroleOk "primary" last hlast s₁ primary s' hP hprimary)
  · rcases build_eq_error h with ⟨-, rfl⟩ | hcompanions | ⟨last, s₁, companions, hlast, hcompanions,
      hprimary⟩
    · exact hPE _ hs
    · obtain ⟨b, hb, s₁, hP, hfailed⟩ :=
        Action.mapM_error_induct (P := fun s => P s.tree) hstep hs hcompanions
      exact hroleError "companion" b (List.mem_of_mem_dropLast hb) s₁ e s' hP hfailed
    · have hP := Action.mapM_ok_induct (P := fun s => P s.tree) hstep hs hcompanions
      exact hroleError "primary" last hlast s₁ e s' hP hprimary

/-- What holds after the companions and is kept by each bundle holds after the
build. -/
theorem build_after_companions {P : FileTree → Prop} (hne : bundles ≠ [])
    (hcompanions : P ((bundles.dropLast.mapM (assembleAs "companion" output extension)).after
      s).tree)
    (hkeeps : ∀ b ∈ bundles, ∀ s : Session, P s.tree →
      P ((b.assemble output extension).after s).tree) :
    P ((build bundles output extension).after s).tree := by
  -- What every assembly keeps, the one of the primary bundle keeps.
  have hprimary (last : Bundle) (hlast : last ∈ bundles) (s₁ : Session) (h : P s₁.tree) :
      P ((assembleAs "primary" output extension last).after s₁).tree := by
    obtain ⟨s₀, htree, hafter⟩ := after_assembleAs output extension "primary" last s₁
    rw [hafter]
    exact hkeeps last hlast s₀ (htree ▸ h)
  refine Action.after_induct (P := fun s => P s.tree) (fun o s' h => ?_) fun e s' h => ?_
  · obtain ⟨last, s₁, _, _, hlast, hran, hrun⟩ := build_eq_ok h
    rw [Action.after_of_ok hran] at hcompanions
    rw [← Action.after_of_ok hrun]
    exact hprimary last hlast s₁ hcompanions
  · rcases build_eq_error h with ⟨hnil, -⟩ | hfailed | ⟨last, s₁, _, hlast, hran, hrun⟩
    · exact absurd hnil hne
    · rwa [Action.after_of_error hfailed] at hcompanions
    · rw [Action.after_of_ok hran] at hcompanions
      rw [← Action.after_of_error hrun]
      exact hprimary last hlast s₁ hcompanions

/-- A build changes nothing, or makes the output directory and puts archives in
place. -/
theorem build_fills (s : Session) (bundles : List Bundle) (output : Path) (extension : String) :
    ((build bundles output extension).after s).tree = s.tree ∨
      (s.tree.makeDirectories output).tree.Fills ((build bundles output extension).after s).tree
        (ArchivePlace bundles s.tree output extension) :=
  build_induct (P := Progress bundles s.tree output extension)
    (E := fun t' => t' = s.tree ∨ (s.tree.makeDirectories output).tree.Fills t'
      (ArchivePlace bundles s.tree output extension))
    (fun _ h => h.imp_right And.right) (fun _ hb _ _ _ h hrun => h.of_ok hb hrun)
    (fun _ hb _ _ _ h hrun => h.of_error hb hrun) (.inl rfl)

/-! ### The inputs of a build -/

/-- The payload at the location `home` and the descriptor at the location `file`
are in `t'` what they are in `t`. -/
structure KeepsInputs (t t' : FileTree) (home file : Location) : Prop where
  payload : ∀ below, t'.get? (home ++ below) = t.get? (home ++ below)
  descriptor : t'.get? file = t.get? file

/-- An archive with a proper name goes into the output directory itself. -/
theorem eq_of_targetLocation {out : Location}
    (hout : t.place true output = .ok (.entry out .directory))
    (hname : ProperName (Text.bytesOf (b.archiveName extension)))
    (h : t.targetLocation (b.archivePath output extension) .busy = .ok loc) :
    loc = out ++ [Text.bytesOf (b.archiveName extension)] := by
  have hpath : b.archivePath output extension
      = output.child (Text.bytesOf (b.archiveName extension)) := rfl
  obtain ⟨dir, name, htarget, -, rfl⟩ := FileTree.targetLocation_eq_ok_iff.mp h
  obtain ⟨-, front, hfront, hreaches⟩ := FileTree.target_eq_ok_iff.mp htarget
  -- The name is the last step, so the steps before it are those of the output path.
  rw [hpath, Path.bareSteps_child hname] at hfront
  obtain ⟨hfront, hlast⟩ := List.append_inj' hfront rfl
  rw [hpath, Path.origin_child hname, ← hfront] at hreaches
  obtain rfl := (hreaches.unique (FileTree.place_eq_directory_iff.mp hout).2).1
  obtain rfl : Text.bytesOf (b.archiveName extension) = name := by simpa using hlast
  rfl

/-- A build leaves the payload and the descriptor of a bundle, whether that is
one of its own or not, as they were when it began, if the output directory was
acceptable for the bundle then, archives go into the output directory itself
and none of them takes the place of the descriptor. The paths of payload and
descriptor still lead to them if no archive has taken the place of a link. -/
theorem build_keeps {home file : Location} {entry : Entry} (hs : s.tree.WellFormed)
    (haccepted : checkOutput s.tree b output = .ok ())
    (hpayload : s.tree.place true b.payload = .ok (.entry home .directory))
    (hdescriptor : s.tree.place true b.descriptor = .ok (.entry file entry))
    (hnames : ∀ c ∈ bundles, ProperName (Text.bytesOf (c.archiveName extension)))
    (hfree : ¬ ArchivePlace bundles s.tree output extension file) :
    KeepsInputs s.tree ((build bundles output extension).after s).tree home file ∧
    ((∀ loc target, ArchivePlace bundles s.tree output extension loc →
        (s.tree.makeDirectories output).tree.get? loc ≠ some (.link target)) →
      ((build bundles output extension).after s).tree.place true b.payload
          = .ok (.entry home .directory) ∧
      ((build bundles output extension).after s).tree.place true b.descriptor
          = .ok (.entry file entry)) := by
  rcases build_fills s bundles output extension with hsame | hfills
  · -- Nothing at all has changed.
    rw [hsame]
    exact ⟨⟨fun _ => rfl, rfl⟩, fun _ => ⟨hpayload, hdescriptor⟩⟩
  obtain ⟨_, q, -, hpending, -⟩ := checkOutput_eq_ok_iff.mp haccepted
  obtain ⟨out, hprepares, hout⟩ := FileTree.prepares_makeDirectories hs hpending
  have houtside : ¬ home <+: out :=
    notPrefix_of_checkOutput hs haccepted (FileTree.locate_eq_ok_iff.mpr ⟨_, hpayload⟩)
      hprepares.pending hprepares.awaits
  have hhome := hprepares.paves.place hpayload
  have hfile := hprepares.paves.place hdescriptor
  have hready := (FileTree.makes_makeDirectories s.tree output).wellFormed hs
  -- No archive comes into the payload.
  have hkept (below : Location) : ((build bundles output extension).after s).tree.get?
      (home ++ below) = (s.tree.makeDirectories output).tree.get? (home ++ below) := by
    rcases hfills.get?_eq (home ++ below) with heq | ⟨⟨hmade, c, hc, htarget⟩, hdirectory, -⟩
    · exact heq
    · have hplace := eq_of_targetLocation (hout hmade) (hnames c hc) htarget
      -- It would be the payload directory itself, or the output directory would be in it.
      rcases List.prefix_concat_iff.mp (hplace ▸ List.prefix_append home below) with hwhole | habove
      · rw [hplace, ← hwhole] at hdirectory
        exact absurd (FileTree.get?_of_place hready.toRooted hhome) hdirectory
      · exact absurd habove houtside
  have hkept' : ((build bundles output extension).after s).tree.get? file
      = (s.tree.makeDirectories output).tree.get? file :=
    (hfills.get?_eq file).resolve_right fun harchive => hfree harchive.1
  refine ⟨⟨fun below => ?_, ?_⟩, fun hlinks => ⟨?_, ?_⟩⟩
  · rw [hkept below]
    exact hprepares.paves.get?_eq_of_not_prefix fun habove =>
      houtside ((List.prefix_append home below).trans habove)
  · have hget := FileTree.get?_of_place hs.toRooted hdescriptor
    rw [hkept', hget, hprepares.paves.get?_eq file entry hget]
  · have hkept := hkept []
    rw [List.append_nil] at hkept
    exact hfills.place hlinks hhome hkept
  · exact hfills.place hlinks hfile hkept'

/-! ### Two projects -/

/-- Two projects beside each other. -/
def pairTree : FileTree where
  current := []
  entries := [
    (locationOf ["a"], .directory),
    (locationOf ["a", "package.json"], .file (Text.bytesOf "\x7b\x7d") false),
    (locationOf ["a", "dist"], .directory),
    (locationOf ["a", "dist", "index.js"], .file (Text.bytesOf "a") false),
    (locationOf ["b"], .directory),
    (locationOf ["b", "package.json"], .file (Text.bytesOf "\x7b\x7d") false),
    (locationOf ["b", "dist"], .directory),
    (locationOf ["b", "dist", "index.js"], .file (Text.bytesOf "b") false)]

/-- A session with the files of the two projects. -/
def pairSession : Session := { tree := pairTree }

/-- The bundle of the first project. -/
def firstBundle : Bundle := .ofRoot (.ofString "a") "demo_a" {}

/-- The bundle of the second project. -/
def secondBundle : Bundle := .ofRoot (.ofString "b") "demo_b" {}

/-- The two projects make up a tree. -/
theorem pairTree_wellFormed : pairTree.WellFormed :=
  FileTree.wellFormed_of_entries rfl (by decide)

/-- The payload of the second bundle is where its path says. -/
theorem pairTree_payload : pairTree.place true secondBundle.payload
    = .ok (.entry (locationOf ["b", "dist"]) .directory) := by
  cbv

/-- Both are packed into a directory beside them, and the second one stays as
it is. -/
theorem build_keeps_pair : pairTree.WellFormed ∧
    checkOutput pairTree secondBundle projectOutput = .ok () ∧
    pairTree.place true secondBundle.descriptor = .ok (.entry (locationOf ["b", "package.json"])
      (.file (Text.bytesOf "\x7b\x7d") false)) ∧
    (∀ c ∈ [firstBundle, secondBundle], ProperName (Text.bytesOf (c.archiveName "tgz"))) ∧
    ¬ ArchivePlace [firstBundle, secondBundle] pairTree projectOutput "tgz"
      (locationOf ["b", "package.json"]) ∧
    KeepsInputs pairTree
      ((build [firstBundle, secondBundle] projectOutput "tgz").after pairSession).tree
      (locationOf ["b", "dist"]) (locationOf ["b", "package.json"]) := by
  have haccepted : checkOutput pairTree secondBundle projectOutput = .ok () := by
    cbv
  have hdescriptor : pairTree.place true secondBundle.descriptor
      = .ok (.entry (locationOf ["b", "package.json"])
        (.file (Text.bytesOf "\x7b\x7d") false)) := by
    cbv
  have hnames : ∀ c ∈ [firstBundle, secondBundle],
      ProperName (Text.bytesOf (c.archiveName "tgz")) := by
    decide
  -- Both archives go into the output directory, and the descriptor is not there.
  have hfree : ¬ ArchivePlace [firstBundle, secondBundle] pairTree projectOutput "tgz"
      (locationOf ["b", "package.json"]) := by
    rintro ⟨-, c, hc, htarget⟩
    have hfirst : (pairTree.makeDirectories projectOutput).tree.targetLocation
        (firstBundle.archivePath projectOutput "tgz") .busy
          = .ok (locationOf ["out", "demo_a.tgz"]) := by
      cbv
    have hsecond : (pairTree.makeDirectories projectOutput).tree.targetLocation
        (secondBundle.archivePath projectOutput "tgz") .busy
          = .ok (locationOf ["out", "demo_b.tgz"]) := by
      cbv
    rcases List.mem_pair.mp hc with rfl | rfl
    · rw [hfirst] at htarget
      exact absurd (Except.ok.inj htarget) (by decide)
    · rw [hsecond] at htarget
      exact absurd (Except.ok.inj htarget) (by decide)
  exact ⟨pairTree_wellFormed, haccepted, hdescriptor, hnames, hfree,
    (build_keeps (s := pairSession) pairTree_wellFormed haccepted pairTree_payload hdescriptor
      hnames hfree).1⟩

/-- An output directory in the payload of the second project. -/
def innerOutput : Path := .ofString "b/dist/x"

/-- An accepted bundle leaves the output directory behind. -/
theorem get?_assemble_of_checked (hchecked : check s.tree b output = .ok ())
    (h : (s.tree.makeDirectories output).tree.get? loc = some .directory) :
    ((b.assemble output extension).after s).tree.get? loc = some .directory := by
  rcases assemble_leaves s b output extension with ⟨⟨e, hrefused⟩, -⟩ |
    ⟨-, htree | ⟨-, content, new, hdelivers⟩⟩
  · cases hchecked.symm.trans hrefused
  · rw [htree, h]
  · exact hdelivers.fills.get?_eq_directory_iff.mpr h

/-- No bundle loses a directory. -/
theorem get?_assemble_of_directory (h : s.tree.get? loc = some .directory) :
    ((b.assemble output extension).after s).tree.get? loc = some .directory := by
  rcases assemble_leaves s b output extension with ⟨-, htree⟩ | ⟨hchecked, -⟩
  · rw [htree, h]
  · exact get?_assemble_of_checked hchecked
      ((FileTree.makes_makeDirectories s.tree output).grows.get?_eq loc _ h)

/-- The first bundle is accepted and makes the output directory, before the
second one is refused for it. -/
theorem get?_build_pair :
    ((build [firstBundle, secondBundle] innerOutput "tgz").after pairSession).tree.get?
      (locationOf ["b", "dist", "x"]) = some .directory := by
  have hchecked : check pairTree firstBundle innerOutput = .ok () := by
    cbv
  have hmade : (pairTree.makeDirectories innerOutput).tree.get? (locationOf ["b", "dist", "x"])
      = some .directory := by
    cbv
  refine build_after_companions
    (P := fun t => t.get? (locationOf ["b", "dist", "x"]) = some .directory) (by simp) ?_
    fun last _ s h => get?_assemble_of_directory h
  -- Companions are all bundles but the last, so only the first one here.
  obtain ⟨s₀, htree, hafter⟩ := after_assembleAs innerOutput "tgz" "companion" firstBundle
    pairSession
  have hdrop : [firstBundle, secondBundle].dropLast = [firstBundle] := rfl
  rw [hdrop, Action.after_mapM_singleton, hafter]
  rw [show pairTree = s₀.tree from htree.symm] at hchecked hmade
  exact get?_assemble_of_checked hchecked hmade

/-- Not every build leaves the payloads of its bundles as they were. -/
theorem not_forall_build_keeps : ¬ ∀ (s : Session) (bundles : List Bundle) (output : Path)
    (extension : String) (b : Bundle) (home : Location), s.tree.WellFormed → b ∈ bundles →
    s.tree.place true b.payload = .ok (.entry home .directory) →
    ∀ below, ((build bundles output extension).after s).tree.get? (home ++ below)
      = s.tree.get? (home ++ below) := by
  intro hall
  have hkept := hall pairSession [firstBundle, secondBundle] innerOutput "tgz" secondBundle _
    pairTree_wellFormed (by simp) pairTree_payload (locationOf ["x"])
  -- The archive of the first bundle made a directory inside the payload of the second one.
  have hmade := get?_build_pair
  have hbefore : pairTree.get? (locationOf ["b", "dist"] ++ locationOf ["x"]) = none := by
    cbv
  rw [show locationOf ["b", "dist", "x"] = locationOf ["b", "dist"] ++ locationOf ["x"] from rfl,
    hkept] at hmade
  rw [show pairSession.tree = pairTree from rfl, hbefore] at hmade
  cases hmade

end Promotion.Bundle
