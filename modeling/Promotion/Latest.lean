import Promotion.Package

/-!
# `Promotion.Latest`: the latest package of each name

An environment is reduced to one package per name: the one with the
highest version number, a release before a snapshot of the same number,
and the first seen among the rest.
-/

set_option autoImplicit false

namespace Promotion

/-- Whether `candidate` takes the place of `current` as the latest package. -/
def Package.supersedes (candidate current : Package) : Bool :=
  match candidate.compareVersion current with
  | .gt => true
  | .lt => false
  | .eq => current.snapshot && !candidate.snapshot

namespace Latest

/-- Enters a package into a list that holds one package per name. -/
def enter (package : Package) : List Package → List Package
  | [] => [package]
  | current :: rest =>
    if current.name = package.name then
      (if package.supersedes current then package else current) :: rest
    else current :: enter package rest

/-- The package kept under a name. -/
def find? (latest : List Package) (name : String) : Option Package :=
  latest.find? fun p => p.name = name

end Latest

/-- The latest package of each name, names in the order they are first seen. -/
def latestPerName (environment : List Package) : List Package :=
  environment.foldl (fun latest package => Latest.enter package latest) []

/-- The latest packages in the order of their names. -/
def latestByName (environment : List Package) : List Package :=
  (latestPerName environment).mergeSort fun p q => !(q.name < p.name)

end Promotion
