import Promotion.Proofs.Bundle.Failure
import Promotion.Proofs.FileTree.Pending

/-!
# `Promotion.Proofs.Bundle.Guard`: the output directory and the payload

A bundle is refused when its output directory lies in its payload. The
directory may still be missing, so the guard goes by the path that it will
have.

* `checkOutput_eq_ok_iff`, `exists_prepares`: what is accepted, and that what
  is made then is the directory that was looked at (`FileTree.Prepares`).
* `notPrefix_of_checkOutput`: an accepted output directory is not in the payload.
* `guard_judges`: the guard refuses exactly the output directories in the
  payload, and refuses them before anything is changed.
-/

set_option autoImplicit false

namespace Promotion

namespace FileTree

/-- The directories of a path have been made, as far as they could be: there is
nothing new but directories on the way to where the path was to lead. -/
structure Prepares (t : FileTree) (p : Path) (out : Location) (ready : FileTree) : Prop where
  awaits : t.Awaits p out
  pending : t.pending p = .ok (pathOf out)
  paves : t.Paves ready out

/-- A path that can be judged has one location that is prepared for it, and
leads there when its directories can be made. -/
theorem prepares_makeDirectories {t : FileTree} {p q : Path} (ht : t.WellFormed)
    (h : t.pending p = .ok q) : ∃ out, t.Prepares p out (t.makeDirectories p).tree ∧
      ((t.makeDirectories p).fault = none →
        (t.makeDirectories p).tree.place true p = .ok (.entry out .directory)) := by
  obtain ⟨out, hawaits, rfl⟩ := exists_awaits_of_pending ht h
  have hfulfils := fulfils_makeDirectories ht hawaits
  exact ⟨out, ⟨hawaits, h, hfulfils.paves⟩, hfulfils.place⟩

end FileTree

namespace Bundle

open FileTree (pathOf)

variable {s s' : Session} {b : Bundle} {output q : Path} {extension : String} {e : Failure}
  {t : FileTree} {out : Location}

/-! ### What is refused -/

/-- The parts are there when the descriptor is a file and the payload a directory. -/
theorem checkParts_eq_ok_iff :
    checkParts t b = .ok () ↔ t.isFile b.descriptor = true ∧ t.isDirectory b.payload = true := by
  unfold checkParts
  cases t.isFile b.descriptor <;> cases t.isDirectory b.payload <;> simp

/-- Where the descriptor and the payload are there, only the output directory
counts. -/
theorem check_eq_checkOutput (hdescriptor : t.isFile b.descriptor = true)
    (hpayload : t.isDirectory b.payload = true) : check t b output = checkOutput t b output := by
  unfold check
  rw [checkParts_eq_ok_iff.mpr ⟨hdescriptor, hpayload⟩]
  rfl

/-- What passes the check passes the guard of the output. -/
theorem checkOutput_of_check (h : check t b output = .ok ()) : checkOutput t b output = .ok () := by
  obtain ⟨hdescriptor, hpayload⟩ := check_eq_ok t h
  rwa [check_eq_checkOutput hdescriptor hpayload] at h

/-- The output directory is judged by components. -/
theorem checkOutput_eq {payload : Path} (hpayload : t.canonical b.payload = .ok payload)
    (hpending : t.pending output = .ok q) [Decidable (payload.components <+: q.components)] :
    checkOutput t b output = if payload.components <+: q.components
      then .error (.outputInsidePayload b.name output b.payload) else .ok () := by
  simp only [checkOutput, hpayload, hpending, Path.startsWith, List.isPrefixOf_iff_prefix]

/-- The guard lets an output pass that will not lie inside the payload. -/
theorem checkOutput_eq_ok_iff : checkOutput t b output = .ok () ↔ ∃ payload q,
    t.canonical b.payload = .ok payload ∧ t.pending output = .ok q ∧
      ¬ payload.components <+: q.components := by
  classical
  constructor
  · intro h
    -- Neither path may fail to be resolved.
    cases hpayload : t.canonical b.payload with
    | error fault => simp [checkOutput, hpayload] at h
    | ok payload =>
      cases hpending : t.pending output with
      | error fault => simp [checkOutput, hpayload, hpending] at h
      | ok q =>
        rw [checkOutput_eq hpayload hpending] at h
        refine ⟨payload, q, rfl, rfl, fun hinside => ?_⟩
        rw [if_pos hinside] at h
        cases h
  · rintro ⟨payload, q, hpayload, hpending, houtside⟩
    rw [checkOutput_eq hpayload hpending, if_neg houtside]

/-- An accepted output directory does not lie in the payload, and will not. -/
theorem notPrefix_of_checkOutput {home : Location} (ht : t.WellFormed)
    (h : checkOutput t b output = .ok ()) (hhome : t.locate b.payload = .ok home)
    (hout : t.pending output = .ok (pathOf out)) (hawaits : t.Awaits output out) :
    ¬ home <+: out := by
  obtain ⟨payload, q, hpayload, hq, houtside⟩ := checkOutput_eq_ok_iff.mp h
  obtain ⟨home', hhome', rfl⟩ := FileTree.canonical_eq_ok_iff.mp hpayload
  obtain rfl := Except.ok.inj (hhome.symm.trans hhome')
  obtain rfl := Except.ok.inj (hout.symm.trans hq)
  obtain ⟨entry, hget⟩ := FileTree.exists_get?_of_locate ht.toRooted hhome
  have hplain : ∀ n ∈ home, Path.PlainName n := fun n hn => (ht.proper_of_get? hget n hn).plain
  rwa [Path.components_pathOf_prefix_iff hplain (hawaits.plain ht)] at houtside

/-! ### The guard -/

/-- A bundle that is refused leaves the session as it was. -/
theorem run_assemble_of_refused (h : check s.tree b output = .error e) :
    (b.assemble output extension).run s = .error e s := by
  rw [assemble, Action.run_tree_bind, Action.bind_eq_error_iff]
  exact .inl (Action.ofExcept_eq_error_iff.mpr ⟨h, rfl⟩)

/-- Only the guard says that an output directory lies in a payload. -/
theorem checkOutput_of_outputInsidePayload {name : String} {directory payload : Path}
    (h : (b.assemble output extension).run s
      = .error (.outputInsidePayload name directory payload) s') :
    check s.tree b output = .error (.outputInsidePayload name directory payload) := by
  have hfails := fails_of_assemble h
  generalize s'.tree = after at hfails
  cases hfails with
  | refused h => exact h

/-- What the guard makes of an output directory that will be at the path `q`,
when the payload is at the path `payload`. -/
structure Judges (b : Bundle) (s : Session) (output : Path) (extension : String)
    (payload q : Path) : Prop where
  /-- An output directory in the payload is refused before anything is changed. -/
  refuses : payload.components <+: q.components →
    (b.assemble output extension).run s
      = .error (.outputInsidePayload b.name output b.payload) s
  /-- No other output directory is said to be in the payload. -/
  only : ∀ name directory inner s', (b.assemble output extension).run s
    = .error (.outputInsidePayload name directory inner) s' → payload.components <+: q.components
  /-- The directory that is made is the one that was looked at. -/
  settles : (s.tree.makeDirectories output).fault = none →
    (s.tree.makeDirectories output).tree.canonical output = .ok q
  /-- An accepted one lies outside the payload. -/
  outside : (s.tree.makeDirectories output).fault = none → ¬ payload.components <+: q.components →
    ∃ home dir, (s.tree.makeDirectories output).tree.locate b.payload = .ok home ∧
      (s.tree.makeDirectories output).tree.locate output = .ok dir ∧ ¬ home <+: dir

/-- The guard goes by the directory that will be used: where the output path can
be resolved, by the path that it will have once its directories are made, and
where it cannot, packing fails before anything is changed. -/
theorem guard_judges (output : Path) (extension : String) (hs : s.tree.WellFormed)
    (hdescriptor : s.tree.isFile b.descriptor = true)
    (hpayload : s.tree.isDirectory b.payload = true) :
    ∃ payload, s.tree.canonical b.payload = .ok payload ∧
      (∀ q, s.tree.pending output = .ok q → b.Judges s output extension payload q) ∧
      ∀ fault, s.tree.pending output = .error fault →
        (b.assemble output extension).run s = .error (.assemblyFailed b.name
          s!"could not resolve output directory {output.display}: {fault.message}") s := by
  classical
  obtain ⟨home, hhome⟩ := FileTree.isDirectory_iff.mp hpayload
  have hlocate : s.tree.locate b.payload = .ok home := FileTree.locate_eq_ok_iff.mpr ⟨_, hhome⟩
  have hcanonical : s.tree.canonical b.payload = .ok (pathOf home) :=
    FileTree.canonical_eq_ok_iff.mpr ⟨home, hlocate, rfl⟩
  -- With both parts in place, the check is the guard of the output.
  have hcheck : check s.tree b output = checkOutput s.tree b output :=
    check_eq_checkOutput hdescriptor hpayload
  refine ⟨pathOf home, hcanonical, fun q hq => ?_, fun fault hfault => ?_⟩
  · rw [checkOutput_eq hcanonical hq] at hcheck
    obtain ⟨out, hprepares, hplace⟩ := FileTree.prepares_makeDirectories hs hq
    -- The path that was predicted is the one the directories are made at.
    obtain rfl := Except.ok.inj (hq.symm.trans hprepares.pending)
    constructor
    case refuses =>
      intro hinside
      rw [if_pos hinside] at hcheck
      exact run_assemble_of_refused hcheck
    case only =>
      intro name directory inner s' h
      by_contra houtside
      rw [if_neg houtside] at hcheck
      cases hcheck.symm.trans (checkOutput_of_outputInsidePayload h)
    case settles =>
      intro hmade
      have hdir := FileTree.locate_eq_ok_iff.mpr ⟨_, hplace hmade⟩
      exact FileTree.canonical_eq_ok_iff.mpr ⟨out, hdir, rfl⟩
    case outside =>
      intro hmade houtside
      have hdir := FileTree.locate_eq_ok_iff.mpr ⟨_, hplace hmade⟩
      have hhome' := FileTree.locate_eq_ok_iff.mpr ⟨_, hprepares.paves.place hhome⟩
      refine ⟨home, out, hhome', hdir, ?_⟩
      rw [if_neg houtside, check_eq_checkOutput hdescriptor hpayload] at hcheck
      exact notPrefix_of_checkOutput hs hcheck hlocate hprepares.pending hprepares.awaits
  · refine run_assemble_of_refused (hcheck.trans ?_)
    simp [checkOutput, hcanonical, hfault]

/-- The guard lets the project be packed into the directory beside its payload. -/
theorem guard_judges_project : projectTree.WellFormed ∧
    projectTree.isFile projectBundle.descriptor = true ∧
    projectTree.isDirectory projectBundle.payload = true ∧
    projectBundle.Judges projectSession projectOutput "tgz" (pathOf (locationOf ["p", "dist"]))
      (pathOf (locationOf ["out"])) := by
  have hdescriptor : projectTree.isFile projectBundle.descriptor = true := by
    cbv
  have hpayload : projectTree.isDirectory projectBundle.payload = true := by
    cbv
  have hcanonical : projectTree.canonical projectBundle.payload
      = .ok (pathOf (locationOf ["p", "dist"])) := by
    cbv
  -- The output directory is there, so its path is predicted as it is.
  have hpending : projectTree.pending projectOutput = .ok (pathOf (locationOf ["out"])) := by
    cbv
  obtain ⟨payload, hpayload', hjudges, -⟩ :=
    guard_judges (s := projectSession) projectOutput "tgz" projectTree_wellFormed hdescriptor
      hpayload
  obtain rfl := Except.ok.inj (hcanonical.symm.trans hpayload')
  exact ⟨projectTree_wellFormed, hdescriptor, hpayload, hjudges _ hpending⟩

end Bundle

end Promotion
