import Mathlib.Data.List.Basic
import Promotion.Path.Basic
import Promotion.Proofs.Path

/-!
# `Promotion.Proofs.Path.Components`: what paths are compared by

Two paths are the same path when their components are. The components are read
off the pieces between separators, which tells what each part of the text
contributes to them.

* `placedComponents_eq`, `components_eq`: a root or a `.` in front, then what the
  pieces stand for, with the positions where they end or without.
* `components_child_piece`: what a text without separators adds to a path, a `.`
  or a `..` included.
* `components_child`: an entry of a directory has one component more than the
  directory.
* `exists_components_around`: a stretch of text without separators is in one
  component, and the text on both sides of it contributes the same whatever
  that stretch is.
* `exists_join_around`: the same for a path that is looked at from another one.
-/

set_option autoImplicit false

namespace Promotion

open Promotion.Text (Bytes)

namespace Path

/-! ### Pieces of a text in three parts -/

/-- A byte that is no separator is in one piece with what follows it. -/
theorem exists_pieces_front (front : Bytes) {b : UInt8} (hb : b ≠ separator) :
    ∃ before inside, ∀ rest, (pieces 0 [] (front ++ b :: rest)).map (·.1)
      = before ++ (pieces 0 (b :: inside) rest).map (·.1) := by
  -- What is collected of the piece at the byte is the `inside`.
  suffices h : ∀ position current, ∃ before inside, ∀ rest,
      (pieces position current (front ++ b :: rest)).map (·.1)
        = before ++ (pieces 0 (b :: inside) rest).map (·.1) from h 0 []
  induction front with
  | nil =>
    intro position current
    refine ⟨[], current, fun rest => ?_⟩
    show (pieces position current (b :: rest)).map (·.1) = _
    rw [pieces, if_neg hb, map_fst_pieces (position + 1) 0]
    rfl
  | cons first front ih =>
    intro position current
    by_cases hfirst : first = separator
    · obtain ⟨before, inside, h⟩ := ih (position + 1) []
      refine ⟨current.reverse :: before, inside, fun rest => ?_⟩
      rw [List.cons_append, pieces, if_pos hfirst, List.map_cons, h]
      rfl
    · obtain ⟨before, inside, h⟩ := ih (position + 1) (first :: current)
      refine ⟨before, inside, fun rest => ?_⟩
      rw [List.cons_append, pieces, if_neg hfirst, h]

/-- A text adds to the piece that was begun, and has the same pieces after it
whatever was begun. -/
theorem exists_pieces_back (back : Bytes) :
    ∃ inside after, ∀ position current, (pieces position current back).map (·.1)
      = (current.reverse ++ inside) :: after := by
  -- By induction on the bytes: each one ends a piece, or belongs to the one before it.
  induction back with
  | nil => exact ⟨[], [], fun position current => by simp [pieces]⟩
  | cons b rest ih =>
    obtain ⟨inside, after, h⟩ := ih
    by_cases hb : b = separator
    · refine ⟨[], inside :: after, fun position current => ?_⟩
      rw [pieces, if_pos hb, List.map_cons, h]
      simp
    · refine ⟨b :: inside, after, fun position current => ?_⟩
      rw [pieces, if_neg hb, h]
      simp

/-- A text without separators is added to the piece that was begun. -/
theorem map_fst_pieces_append_of_notMem (position : Nat) (current bytes back : Bytes)
    (h : separator ∉ bytes) :
    (pieces position current (bytes ++ back)).map (·.1)
      = (pieces position (bytes.reverse ++ current) back).map (·.1) := by
  induction bytes generalizing position current with
  | nil => rfl
  | cons b rest ih =>
    rw [List.mem_cons, not_or] at h
    rw [List.cons_append, pieces, if_neg (Ne.symm h.1), ih _ _ h.2,
      map_fst_pieces (position + 1) position]
    simp

/-! ### Components of pieces -/

/-- What stands in front of the components of the pieces: the root, or the `.`
that a relative path starts with. -/
def leading (absolute : Bool) (ps : List Bytes) : List Component :=
  if absolute then [.root] else if ps.head? = some [dot] then [.here] else []

/-- The component of a piece that is not the first one, with the position
where it ends. -/
def placed? (piece : Bytes × Nat) : Option (Component × Nat) :=
  (componentOf? false piece.1).map fun c => (c, piece.2)

/-- The components of the pieces, without their positions. -/
theorem map_fst_placed (ps : List (Bytes × Nat)) :
    (ps.filterMap placed?).map (·.1) = (ps.map (·.1)).filterMap (componentOf? false) := by
  rw [List.map_filterMap, List.filterMap_map]
  refine List.filterMap_congr fun piece _ => ?_
  show ((componentOf? false piece.1).map _).map _ = componentOf? false piece.1
  rw [Option.map_map]
  exact Option.map_id_fun' ▸ rfl

/-- What stands in front of the components of pieces, with its position: the root
of an absolute path, or the `.` that a relative path starts with. -/
def placedLead (absolute : Bool) (first : Option (Bytes × Nat)) : List (Component × Nat) :=
  if absolute then [(.root, 1)]
  else match first with
    | some (piece, ending) => if piece = [dot] then [(.here, ending)] else []
    | none => []

/-- The components with their positions: what leads, and those of the pieces. -/
theorem placedComponents_eq (p : Path) :
    p.placedComponents = placedLead p.isAbsolute (pieces 0 [] p.bytes).head?
      ++ (pieces 0 [] p.bytes).filterMap placed? := by
  unfold placedComponents
  cases habsolute : p.isAbsolute with
  | true => rfl
  | false =>
    dsimp only
    rw [if_neg Bool.false_ne_true]
    cases hpieces : pieces 0 [] p.bytes with
    | nil => rfl
    | cons piece rest =>
      obtain ⟨piece, ending⟩ := piece
      by_cases hdot : piece = [dot]
      · -- Only here does it matter that the piece is the first one.
        subst hdot
        rfl
      · have hfirst : componentOf? true piece = componentOf? false piece := by
          simp [componentOf?, hdot]
        rw [List.filterMap_cons]
        dsimp only
        rw [hfirst]
        cases h : componentOf? false piece <;> simp [placedLead, placed?, hdot, h] <;> rfl

/-- What stands in front is one component, or nothing. -/
theorem placedLead_cases (absolute : Bool) (first : Option (Bytes × Nat)) :
    absolute = true ∧ placedLead absolute first = [(.root, 1)] ∨
      absolute = false ∧ (∃ ending, first = some ([dot], ending) ∧
        placedLead absolute first = [(.here, ending)]) ∨
      placedLead absolute first = [] := by
  unfold placedLead
  -- An absolute path starts with the root, a relative one may start with a dot.
  cases absolute with
  | true => exact .inl ⟨rfl, rfl⟩
  | false =>
    rcases first with _ | ⟨piece, ending⟩
    · exact .inr (.inr rfl)
    · by_cases hdot : piece = [dot]
      · subst hdot
        exact .inr (.inl ⟨rfl, ending, rfl, rfl⟩)
      · exact .inr (.inr (by simp [hdot]))

/-- At most one component leads. -/
theorem placedLead_length_le (absolute : Bool) (first : Option (Bytes × Nat)) :
    (placedLead absolute first).length ≤ 1 := by
  rcases placedLead_cases absolute first with ⟨-, h⟩ | ⟨-, ending, -, h⟩ | h <;> simp [h]

/-- Without the positions. -/
theorem map_fst_placedLead (absolute : Bool) (ps : List (Bytes × Nat)) :
    (placedLead absolute ps.head?).map (·.1) = leading absolute (ps.map (·.1)) := by
  cases absolute with
  | true => rfl
  | false =>
    rcases ps with _ | ⟨⟨piece, ending⟩, rest⟩
    · rfl
    · by_cases hdot : piece = [dot] <;> simp [placedLead, leading, hdot]

/-- The components come from the pieces, whatever their positions. -/
theorem components_eq (p : Path) :
    p.components = leading p.isAbsolute ((pieces 0 [] p.bytes).map (·.1))
      ++ ((pieces 0 [] p.bytes).map (·.1)).filterMap (componentOf? false) := by
  rw [components, placedComponents_eq, List.map_append, map_fst_placedLead, map_fst_placed]

/-- A file name is the last component. -/
theorem fileName?_eq_some_iff {p : Path} {name : Name} :
    p.fileName? = some name ↔ p.components.getLast? = some (.name name) := by
  unfold fileName?
  split
  next hlast => simp [hlast]
  next hother =>
    simp only [reduceCtorEq, false_iff]
    exact hother name

/-- The name of a file is its last component. -/
theorem fileName?_of_components {p : Path} {name : Name} {cs : List Component}
    (h : p.components = cs ++ [.name name]) : p.fileName? = some name := by
  rw [fileName?_eq_some_iff, h, List.getLast?_concat]

/-- A piece that is read as a name leads to that name. -/
theorem stepOf?_of_componentOf? {piece : Bytes} {name : Name}
    (h : componentOf? false piece = some (.name name)) : stepOf? piece = some (.name name) := by
  -- A component that is a name is neither empty nor one of the dots.
  unfold componentOf? at h
  split at h
  · cases h
  next hnil =>
  split at h
  · cases h
  next hhere =>
  split at h
  · cases h
  next hup =>
  cases h
  rw [stepOf?, if_neg hnil, if_neg hhere, if_neg hup]

/-- A path steps to its file name. -/
theorem name_mem_bareSteps_of_fileName? {p : Path} {name : Name} (h : p.fileName? = some name) :
    .name name ∈ p.bareSteps := by
  have hmem : .name name ∈ p.components := List.mem_of_getLast? (fileName?_eq_some_iff.mp h)
  -- What leads is no name, so the name comes from a piece.
  have hleading : .name name ∉ leading p.isAbsolute ((pieces 0 [] p.bytes).map (·.1)) := by
    unfold leading
    split
    · simp
    split <;> simp
  rw [components_eq, List.mem_append] at hmem
  obtain ⟨piece, hpiece, hcomponent⟩ := List.mem_filterMap.mp (hmem.resolve_left hleading)
  rw [bareSteps_eq]
  exact List.mem_filterMap.mpr ⟨piece, hpiece, stepOf?_of_componentOf? hcomponent⟩

/-- A piece that holds a byte that is no full stop is something else than the two
names that every directory has. -/
theorem ne_dots_of_mem {piece : Bytes} {b : UInt8} (hmem : b ∈ piece) (hb : b ≠ dot) :
    piece ≠ [] ∧ piece ≠ [dot] ∧ piece ≠ [dot, dot] := by
  refine ⟨List.ne_nil_of_mem hmem, ?_, ?_⟩
  · rintro rfl
    exact hb (List.mem_singleton.mp hmem)
  · rintro rfl
    simp [hb] at hmem

/-- It is a name. -/
theorem componentOf?_of_mem {first : Bool} {piece : Bytes} {b : UInt8} (hmem : b ∈ piece)
    (hb : b ≠ dot) : componentOf? first piece = some (.name piece) := by
  obtain ⟨hnil, hhere, hup⟩ := ne_dots_of_mem hmem hb
  simp [componentOf?, hnil, hhere, hup]

/-- A plain name is a component of its own. -/
theorem componentOf?_plain {name : Name} (h : PlainName name) (first : Bool) :
    componentOf? first name = some (.name name) := by
  simp [componentOf?, h.ne_nil, h.ne_here, h.ne_up]

/-! ### Going down -/

/-- A text without separators has the one component of its only piece, if any. -/
theorem components_piece {piece : Bytes} (h : separator ∉ piece) :
    components ⟨piece⟩ = (componentOf? true piece).toList := by
  rw [components_eq, isAbsolute_name h]
  dsimp only
  rw [map_fst_pieces_of_notMem 0 [] piece h]
  -- A dot counts as a component at the start only.
  by_cases hdot : piece = [dot]
  · subst hdot
    rfl
  · have hfirst : componentOf? true piece = componentOf? false piece := by
      simp [componentOf?, hdot]
    rw [hfirst]
    cases hcomponent : componentOf? false piece <;> simp [leading, hdot, hcomponent]

/-- A piece behind a separator adds its component. -/
theorem components_append_piece (front : Bytes) {piece : Bytes} (h : separator ∉ piece) :
    components ⟨front ++ separator :: piece⟩
      = components ⟨front ++ [separator]⟩ ++ (componentOf? false piece).toList := by
  obtain ⟨inside, after, hfront⟩ := exists_pieces_back front
  have hpieces (back : Bytes) :
      (pieces 0 [] (front ++ separator :: back)).map (·.1)
        = inside :: (after ++ (pieces 0 [] back).map (·.1)) := by
    rw [map_fst_pieces_append, hfront]
    rfl
  -- Whether the path starts at the top or with a `.` is told by the text in front.
  have habsolute :
      isAbsolute ⟨front ++ separator :: piece⟩ = isAbsolute ⟨front ++ [separator]⟩ := by
    cases front <;> rfl
  have hpiece : ((pieces 0 [] piece).map (·.1)).filterMap (componentOf? false)
      = (componentOf? false piece).toList := by
    rw [map_fst_pieces_of_notMem 0 [] piece h]
    cases hcomponent : componentOf? false piece <;> simp [hcomponent]
  rw [components_eq, components_eq, habsolute]
  dsimp only
  rw [hpieces, hpieces]
  simp only [leading, List.head?_cons, List.filterMap_cons, List.filterMap_append, hpiece]
  cases componentOf? false inside <;> simp [pieces, componentOf?]

/-- A separator at the end of a path is not part of its meaning. -/
theorem components_append_separator (p : Path) (hp : p.bytes ≠ []) :
    components ⟨p.bytes ++ [separator]⟩ = p.components := by
  obtain ⟨b, rest, hbytes⟩ := List.exists_cons_of_ne_nil hp
  obtain ⟨inside, after, hpieces⟩ := exists_pieces_back p.bytes
  have habsolute : isAbsolute ⟨p.bytes ++ [separator]⟩ = p.isAbsolute := by
    simp [isAbsolute, hbytes]
  rw [components_eq, components_eq, habsolute]
  dsimp only
  rw [map_fst_pieces_append, hpieces, List.filterMap_append]
  simp [leading, pieces, componentOf?]

/-- One piece further down: it adds its component to those of the path, and is
the first piece if the path is empty. -/
theorem components_child_piece {p : Path} {piece : Bytes} (h : separator ∉ piece) :
    (p.child piece).components
      = if p.isEmpty then (componentOf? true piece).toList
        else p.components ++ (componentOf? false piece).toList := by
  have hempty : p.isEmpty = true ↔ p.bytes = [] := by simp [isEmpty]
  rcases bytes_child (p := p) h with ⟨hp, hchild⟩ | ⟨front, hp, hchild⟩ | ⟨hp, hchild⟩
  · rw [hchild, if_pos (hempty.mpr hp), components_piece h]
  · rw [if_neg (by simp [isEmpty, hp]), hchild, components_append_piece front h, ← hp]
  · rw [if_neg (hempty.not.mpr hp), hchild, components_append_piece _ h,
      components_append_separator p hp]

/-- An entry of a directory has one component more than the directory. -/
theorem components_child {p : Path} {name : Name} (h : PlainName name) :
    (p.child name).components = p.components ++ [.name name] := by
  rw [components_child_piece h.separator_notMem, componentOf?_plain h, componentOf?_plain h]
  split
  next hempty =>
    obtain ⟨bytes⟩ := p
    obtain rfl : bytes = [] := List.isEmpty_iff.mp hempty
    rfl
  · rfl

/-- Entries of one directory are told apart by their names. -/
theorem same_child_iff {p : Path} {name other : Name} (hname : PlainName name)
    (hother : PlainName other) : (p.child name).same (p.child other) = true ↔ name = other := by
  rw [same, beq_iff_eq, components_child hname, components_child hother, List.append_cancel_left_eq]
  simp

/-! ### A stretch of text in a path -/

/-- A stretch of text without separators, behind a byte that is neither a
separator nor a full stop, is in one component, which is a name. The text on
both sides contributes the same whatever the stretch is. -/
theorem exists_components_around (front back : Bytes) {b : UInt8} (hseparator : b ≠ separator)
    (hdot : b ≠ dot) :
    ∃ above inside inside' below, ∀ name, separator ∉ name →
      components ⟨front ++ b :: (name ++ back)⟩
        = above ++ .name (inside ++ b :: (name ++ inside')) :: below := by
  obtain ⟨before, inside, hfront⟩ := exists_pieces_front front hseparator
  obtain ⟨inside', after, hback⟩ := exists_pieces_back back
  have hpieces (name : Bytes) (hname : separator ∉ name) :
      (pieces 0 [] (front ++ b :: (name ++ back))).map (·.1)
        = before ++ (inside.reverse ++ b :: (name ++ inside')) :: after := by
    rw [hfront, map_fst_pieces_append_of_notMem 0 _ name back hname, hback]
    simp
  have habsolute (rest : Bytes) :
      isAbsolute ⟨front ++ b :: rest⟩ = isAbsolute ⟨front ++ [b]⟩ := by
    cases front <;> rfl
  refine ⟨leading (isAbsolute ⟨front ++ [b]⟩) (before ++ [[b]])
    ++ before.filterMap (componentOf? false), inside.reverse, inside',
    after.filterMap (componentOf? false), fun name hname => ?_⟩
  have hmem : b ∈ inside.reverse ++ b :: (name ++ inside') := by simp
  -- The piece that the stretch is in is no `.`, should it be the first one.
  have hleading (absolute : Bool) :
      leading absolute (before ++ (inside.reverse ++ b :: (name ++ inside')) :: after)
        = leading absolute (before ++ [[b]]) := by
    have hhere : inside.reverse ++ b :: (name ++ inside') ≠ [dot] := by
      intro h
      rw [h] at hmem
      exact hdot (List.mem_singleton.mp hmem)
    cases before with
    | nil => simp [leading, hhere, hdot]
    | cons first before => rfl
  rw [components_eq, habsolute]
  dsimp only
  rw [hpieces name hname, hleading, List.filterMap_append, List.filterMap_cons,
    componentOf?_of_mem hmem hdot, List.append_assoc]

/-- So the steps of the path end in one name, where no separator follows either. -/
theorem exists_bareSteps_around (front : Bytes) {b : UInt8} (hseparator : b ≠ separator)
    (hdot : b ≠ dot) :
    ∃ before inside, ∀ rest, separator ∉ rest →
      bareSteps ⟨front ++ b :: rest⟩ = before ++ [.name (inside ++ b :: rest)] := by
  obtain ⟨before, inside, hfront⟩ := exists_pieces_front front hseparator
  refine ⟨before.filterMap stepOf?, inside.reverse, fun rest hrest => ?_⟩
  -- A byte that is neither a slash nor a dot makes its piece a name.
  have hmem : b ∈ inside.reverse ++ b :: rest := by simp
  obtain ⟨hnil, hhere, hup⟩ := ne_dots_of_mem hmem hdot
  have hstep : stepOf? (inside.reverse ++ b :: rest)
      = some (.name (inside.reverse ++ b :: rest)) := by
    simp only [stepOf?, if_neg hnil, if_neg hhere, if_neg hup]
  rw [bareSteps_eq, hfront, map_fst_pieces_of_notMem 0 _ rest hrest]
  simp [hstep]

/-- A path is looked at from another one by putting text in front of it, and
that text is told by how the path begins. -/
theorem exists_join_around (p : Path) (front : Bytes) (b : UInt8) :
    ∃ front', ∀ rest, p.join ⟨front ++ b :: rest⟩ = ⟨front' ++ b :: rest⟩ := by
  have habsolute (rest : Bytes) :
      isAbsolute ⟨front ++ b :: rest⟩ = isAbsolute ⟨front ++ [b]⟩ := by
    cases front <;> rfl
  -- An absolute path replaces the first one; a relative one is appended, after a slash where one
  -- is needed.
  cases hroot : isAbsolute ⟨front ++ [b]⟩ with
  | true => exact ⟨front, fun rest => by rw [join, habsolute, hroot, if_pos rfl]⟩
  | false =>
    cases hlast : p.bytes.getLast? with
    | none => exact ⟨front, fun rest => by simp [join, habsolute, hroot, hlast]⟩
    | some last =>
      by_cases hslash : last = separator
      · exact ⟨p.bytes ++ front, fun rest => by simp [join, habsolute, hroot, hlast, hslash]⟩
      · exact ⟨p.bytes ++ separator :: front, fun rest => by
          simp [join, habsolute, hroot, hlast, hslash]⟩

end Path

end Promotion
