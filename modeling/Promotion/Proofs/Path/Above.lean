import Promotion.FileTree.Pending
import Promotion.Proofs.Path.Leading

/-!
# `Promotion.Proofs.Path.Above`: the directory above a path

The path of the directory above is the text up to the component before the last
one. It leads one step less far.

* `Path.moves`: the steps of a path that lead on, a `.` left out.
* `moves_eq_components`: they are the components that lead on.
* `parent?_of_fileName?`: the parent of a path that ends in a name has all
  components but that name.
* `isAbove_of_above?`: a path leads one name further than the path above it.
* `moves_pathOf`, `components_pathOf`, `pathOf_concat`: the absolute path of a
  location goes down by its names.
* `components_pathOf_prefix_iff`: it is above another one exactly when its
  location is.
-/

set_option autoImplicit false

namespace Promotion

open Promotion.Text (Bytes)

namespace Path

variable {p parent : Path} {name : Name}

/-! ### Moves -/

/-- The steps of a path that lead on; a `.` stays where it is. -/
def moves (p : Path) : List Step := p.bareSteps.filter (· ≠ .here)

/-- The step of a component. -/
def moveOf : Component → Step
  | .root => .here
  | .here => .here
  | .up => .up
  | .name name => .name name

/-- Pieces have the same moves as their components. -/
theorem filter_stepOf? (ps : List (Bytes × Nat)) :
    (ps.filterMap fun piece => stepOf? piece.1).filter (· ≠ .here)
      = (ps.filterMap placed?).map fun c => moveOf c.1 := by
  rw [List.filter_filterMap, List.map_filterMap]
  refine List.filterMap_congr fun piece _ => ?_
  unfold stepOf? placed? componentOf?
  split
  · rfl
  split
  · rfl
  split <;> rfl

/-! ### Components -/

/-- Pieces have the moves of their components. -/
theorem moves_eq (p : Path) :
    p.moves = ((pieces 0 [] p.bytes).filterMap placed?).map fun c => moveOf c.1 := by
  rw [moves, bareSteps, filter_stepOf?]

/-- Moves are the components that lead on. -/
theorem moves_eq_components (p : Path) :
    p.moves = (p.components.map moveOf).filter (· ≠ .here) := by
  have hself : p.moves.filter (· ≠ .here) = p.moves := by
    rw [moves, List.filter_filter]
    simp
  -- What stands in front of the components, the root or a dot, is no move.
  have hlead : ((placedLead p.isAbsolute (pieces 0 [] p.bytes).head?).map
      fun c => moveOf c.1).filter (· ≠ .here) = [] := by
    rcases placedLead_cases p.isAbsolute (pieces 0 [] p.bytes).head? with
      ⟨-, h⟩ | ⟨-, ending, -, h⟩ | h <;> simp [h, moveOf]
  have hcomponents : p.components.map moveOf
      = (placedLead p.isAbsolute (pieces 0 [] p.bytes).head?).map (fun c => moveOf c.1)
        ++ p.moves := by
    rw [moves_eq, components, placedComponents_eq, List.map_map, ← List.map_append]
    rfl
  rw [hcomponents, List.filter_append, hlead, hself, List.nil_append]

/-- A file name is the last component, in its place. -/
theorem exists_last_of_fileName? (h : p.fileName? = some name) :
    ∃ init ending, p.placedComponents = init ++ [(.name name, ending)] := by
  rw [fileName?_eq_some_iff, components, List.getLast?_map, Option.map_eq_some_iff] at h
  obtain ⟨⟨c, ending⟩, hlast, rfl⟩ := h
  obtain ⟨init, hinit⟩ := List.getLast?_eq_some_iff.mp hlast
  exact ⟨init, ending, hinit⟩

/-- A name alone has a parent without text. -/
theorem parent?_of_singleton {ending : Nat} (h : p.placedComponents = [(.name name, ending)]) :
    p.parent? = some ⟨[]⟩ := by
  rw [parent?, h]
  rfl

/-- The parent of a path that ends in a name is the text up to the end of the
component before the name. -/
theorem parent?_of_concat {init : List (Component × Nat)} {c : Component} {position ending : Nat}
    (h : p.placedComponents = init ++ [(c, position)] ++ [(.name name, ending)]) :
    p.parent? = some ⟨p.bytes.take position⟩ := by
  rw [parent?, h]
  simp

/-- Where the last component is a name, the parent is a front part of the text and
has all components but that one. -/
theorem parent?_of_fileName? (h : p.fileName? = some name) :
    ∃ k, p.parent? = some ⟨p.bytes.take k⟩ ∧
      p.components = components ⟨p.bytes.take k⟩ ++ [.name name] := by
  obtain ⟨init, ending, hplaced⟩ := exists_last_of_fileName? h
  have hcomponents : p.components = init.map (·.1) ++ [.name name] := by
    rw [components, hplaced]
    simp
  -- With one component the parent is empty; with more it ends where the last but one does.
  rcases List.eq_nil_or_concat init with rfl | ⟨init, ⟨c, position⟩, hinit⟩
  · exact ⟨0, parent?_of_singleton hplaced, by rw [hcomponents, List.take_zero]; rfl⟩
  · rw [hinit, List.concat_eq_append] at hplaced hcomponents
    refine ⟨position, parent?_of_concat hplaced, ?_⟩
    rw [List.append_assoc] at hplaced
    rw [hcomponents, components, placedComponents_take hplaced]

/-- The path `p` leads on from the path `parent`, by a name. -/
structure IsAbove (parent p : Path) (name : Name) : Prop where
  moves : p.moves = parent.moves ++ [.name name]
  absolute : parent.isAbsolute = p.isAbsolute
  check : p.check = .ok () → parent.check = .ok ()

/-- A front part of a text that is not empty is above what it has one move less
than. -/
theorem isAbove_take {k : Nat} (htake : p.bytes.take k ≠ [])
    (hmoves : p.moves = moves ⟨p.bytes.take k⟩ ++ [.name name]) :
    IsAbove (if isEmpty ⟨p.bytes.take k⟩ then ⟨[dot]⟩ else ⟨p.bytes.take k⟩) p name := by
  have hempty : isEmpty ⟨p.bytes.take k⟩ = false := by simpa [isEmpty] using htake
  rw [hempty, if_neg Bool.false_ne_true]
  constructor
  case moves => exact hmoves
  case absolute => exact isAbsolute_take htake
  -- A front part of a path that the system takes is taken as well.
  case check =>
    intro h
    rw [check_eq_ok_iff] at h ⊢
    refine ⟨fun hzero => h.1 (List.mem_of_mem_take hzero), ?_, htake⟩
    exact Nat.lt_of_le_of_lt (List.length_take_le' _ _) h.2.1

/-- The path above is the parent, or the current directory when that has no text. -/
theorem above?_eq_some_iff : p.above? = some (parent, name) ↔ ∃ q, p.parent? = some q ∧
    p.fileName? = some name ∧ parent = if q.isEmpty then ⟨[dot]⟩ else q := by
  unfold above?
  split
  next q name' hq hname =>
    simp only [hq, hname, Option.some.injEq, Prod.mk.injEq, ↓existsAndEq, true_and]
    rw [and_comm, @eq_comm _ parent]
  next hnone =>
    simp only [reduceCtorEq, false_iff]
    rintro ⟨q, hq, hname, -⟩
    exact hnone q name hq hname

/-- What is looked at above a path is above it. -/
theorem isAbove_of_above? (h : p.above? = some (parent, name)) : IsAbove parent p name := by
  obtain ⟨q, hq, hname, rfl⟩ := above?_eq_some_iff.mp h
  obtain ⟨k, hparent, hcomponents⟩ := parent?_of_fileName? hname
  obtain rfl : ⟨p.bytes.take k⟩ = q := Option.some.inj (hparent.symm.trans hq)
  have hmoves : p.moves = moves ⟨p.bytes.take k⟩ ++ [.name name] := by
    rw [moves_eq_components, hcomponents, List.map_append, List.filter_append,
      ← moves_eq_components]
    rfl
  by_cases htake : p.bytes.take k = []
  · -- A name alone is in the current directory.
    rw [htake] at hmoves hcomponents ⊢
    have habsolute : p.isAbsolute = false := by
      cases habsolute : p.isAbsolute with
      | false => rfl
      | true =>
        rw [components_eq, habsolute] at hcomponents
        cases hcomponents
    exact ⟨hmoves, habsolute.symm, fun _ => rfl⟩
  · exact isAbove_take htake hmoves

/-! ### Paths of locations -/

open FileTree (pathOf)

variable {loc : Location}

/-- The name by which a path leads on is plain. -/
theorem IsAbove.plain (h : IsAbove parent p name) : PlainName name := by
  have hmem : .name name ∈ p.moves := by rw [h.moves]; simp
  obtain ⟨hnil, hhere, hup, -, hseparator⟩ := of_mem_bareSteps (List.mem_filter.mp hmem).1
  exact ⟨hnil, hhere, hup, hseparator⟩

/-- A plain name is one step. -/
theorem bareSteps_plain (h : PlainName name) : bareSteps ⟨name⟩ = [.name name] := by
  rw [bareSteps_eq, map_fst_pieces_of_notMem 0 [] name h.separator_notMem]
  simp [stepOf?, h.ne_nil, h.ne_here, h.ne_up]

/-- Each further name behind a slash is one step more. -/
theorem bareSteps_append_flatMap (front : Bytes) (h : ∀ n ∈ loc, PlainName n) :
    bareSteps ⟨front ++ loc.flatMap fun name => separator :: name⟩
      = bareSteps ⟨front⟩ ++ loc.map .name := by
  induction loc generalizing front with
  | nil => simp
  | cons name loc ih =>
    rw [List.forall_mem_cons] at h
    rw [List.flatMap_cons, List.cons_append, bareSteps_append_separator, ih name h.2,
      bareSteps_plain h.1]
    simp

/-- The absolute path of a location leads down by its names. -/
theorem bareSteps_pathOf (h : ∀ n ∈ loc, PlainName n) :
    (pathOf loc).bareSteps = loc.map .name := by
  unfold pathOf
  split
  next hnil => rw [hnil]; rfl
  · exact bareSteps_append_flatMap [] h

/-- The path of a location is absolute. -/
theorem isAbsolute_pathOf (loc : Location) : (pathOf loc).isAbsolute = true := by
  cases loc <;> rfl

/-- The moves of the path of a location are its names. -/
theorem moves_pathOf (h : ∀ n ∈ loc, PlainName n) : (pathOf loc).moves = loc.map .name := by
  rw [moves, bareSteps_pathOf h, List.filter_eq_self]
  simp

/-- The move of a component is a name when the component is. -/
theorem moveOf_eq_name_iff {c : Component} : moveOf c = .name name ↔ c = .name name := by
  cases c <;> simp [moveOf]

/-- Where the moves are names, the components are the same names. -/
theorem eq_map_name_of_map_moveOf {cs : List Component} (h : cs.map moveOf = loc.map .name) :
    cs = loc.map .name := by
  induction loc generalizing cs with
  | nil => simpa using h
  | cons name loc ih =>
    obtain ⟨c, cs, rfl, hc, hcs⟩ := List.map_eq_cons_iff.mp h
    rw [List.map_cons, moveOf_eq_name_iff.mp hc, ih hcs]

/-- The components of the path of a location are the root and its names. -/
theorem components_pathOf (h : ∀ n ∈ loc, PlainName n) :
    (pathOf loc).components = .root :: loc.map .name := by
  rw [components, placedComponents, if_pos (isAbsolute_pathOf loc), List.map_cons]
  refine congrArg _ (eq_map_name_of_map_moveOf ?_)
  rw [List.map_map, ← moves_pathOf h, moves_eq]
  rfl

/-- Above the path of a location are the paths of the locations above it. -/
theorem components_pathOf_prefix_iff {dir : Location} (hdir : ∀ n ∈ dir, PlainName n)
    (hloc : ∀ n ∈ loc, PlainName n) :
    (pathOf dir).components <+: (pathOf loc).components ↔ dir <+: loc := by
  have hinj : Function.Injective Component.name := fun _ _ => Component.name.inj
  rw [components_pathOf hdir, components_pathOf hloc, List.cons_prefix_cons,
    List.prefix_map_iff_of_injective hinj]
  exact and_iff_right rfl

/-- The path of an entry is that of a child of its directory. -/
theorem pathOf_concat (hloc : ∀ n ∈ loc, PlainName n) (hname : PlainName name) :
    pathOf (loc ++ [name]) = (pathOf loc).child name := by
  have hne : loc ++ [name] ≠ [] := by simp
  rw [child, join, isAbsolute_name hname.separator_notMem, if_neg Bool.false_ne_true, pathOf,
    if_neg hne, List.flatMap_append, List.flatMap_singleton]
  rcases List.eq_nil_or_concat loc with rfl | ⟨init, last, rfl⟩
  · rfl
  · -- The text so far ends in the last byte of a name.
    rw [List.concat_eq_append, List.forall_mem_append, List.forall_mem_singleton] at hloc
    obtain ⟨front, b, hlast⟩ : ∃ front b, last = front ++ [b] :=
      ⟨_, _, (List.dropLast_concat_getLast hloc.2.ne_nil).symm⟩
    have hb : b ≠ separator := by
      rintro rfl
      exact hloc.2.separator_notMem (by simp [hlast])
    have hend : (pathOf (init.concat last)).bytes
        = (init.flatMap (fun name => separator :: name) ++ separator :: front) ++ [b] := by
      simp [pathOf, hlast]
    rw [hend, List.getLast?_concat]
    dsimp only
    rw [if_neg hb, ← hend]
    simp [pathOf]

end Path
end Promotion
