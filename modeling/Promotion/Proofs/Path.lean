import Promotion.FileTree.Resolve

/-!
# `Promotion.Proofs.Path`: paths of entries below a directory

A path is cut at its separators into pieces, and the pieces give its steps.
Going down by a proper name (`ProperName`) appends one step and nothing else:

* `bareSteps_append_separator`: the steps of two texts joined by a separator
  are the steps of the one and then those of the other.
* `bareSteps_child`, `steps_child`: the steps of a path one name further down.
* `bareSteps_descend`, `steps_descend`, `origin_descend`: the same for a row of
  names.
* `check_of_check_descend`: a path is acceptable when one below it is.
-/

set_option autoImplicit false

namespace Promotion

open Promotion.Text (Bytes)

/-- A name that stands for itself in a path, whether an entry can have it or
not. -/
structure Path.PlainName (name : Name) : Prop where
  ne_nil : name ≠ []
  ne_here : name ≠ [Path.dot]
  ne_up : name ≠ [Path.dot, Path.dot]
  separator_notMem : Path.separator ∉ name

/-- A name that an entry of a directory can have. -/
structure ProperName (name : Name) : Prop where
  ne_nil : name ≠ []
  ne_here : name ≠ [Path.dot]
  ne_up : name ≠ [Path.dot, Path.dot]
  separator_notMem : Path.separator ∉ name
  zero_notMem : 0 ∉ name
  length_le : name.length ≤ Path.nameLimit

instance : DecidablePred ProperName := fun name =>
  decidable_of_iff
    (name ≠ [] ∧ name ≠ [Path.dot] ∧ name ≠ [Path.dot, Path.dot] ∧ Path.separator ∉ name ∧
      0 ∉ name ∧ name.length ≤ Path.nameLimit)
    ⟨fun ⟨h₁, h₂, h₃, h₄, h₅, h₆⟩ => ⟨h₁, h₂, h₃, h₄, h₅, h₆⟩,
      fun ⟨h₁, h₂, h₃, h₄, h₅, h₆⟩ => ⟨h₁, h₂, h₃, h₄, h₅, h₆⟩⟩

/-- A proper name is a plain one: it is short enough besides. -/
theorem ProperName.plain {name : Name} (h : ProperName name) : Path.PlainName name :=
  ⟨h.ne_nil, h.ne_here, h.ne_up, h.separator_notMem⟩

namespace Path

/-- The path of what lies below a path under a row of names. -/
def descend (p : Path) (names : List Name) : Path := names.foldl child p

/-- Without names a path goes nowhere. -/
@[simp] theorem descend_nil (p : Path) : p.descend [] = p := rfl

/-- A path goes through the first name to a child. -/
@[simp] theorem descend_cons (p : Path) (name : Name) (names : List Name) :
    p.descend (name :: names) = (p.child name).descend names := rfl

/-- A path goes through two rows of names one after the other. -/
theorem descend_append (p : Path) (names later : List Name) :
    p.descend (names ++ later) = (p.descend names).descend later := List.foldl_append

/-! ### Pieces -/

/-- Where a piece ends is not part of what it says. -/
theorem map_fst_pieces (position position' : Nat) (current bytes : Bytes) :
    (pieces position current bytes).map (·.1) = (pieces position' current bytes).map (·.1) := by
  induction bytes generalizing position position' current with
  | nil => rfl
  | cons b rest ih =>
    by_cases hb : b = separator
    · simp [pieces, hb, ih (position + 1) (position' + 1)]
    · simp [pieces, hb, ih (position + 1) (position' + 1)]

/-- Texts joined by a separator have the pieces of the one, then those of the
other. -/
theorem map_fst_pieces_append (position : Nat) (current front back : Bytes) :
    (pieces position current (front ++ separator :: back)).map (·.1)
      = (pieces position current front).map (·.1) ++ (pieces 0 [] back).map (·.1) := by
  induction front generalizing position current with
  | nil => simp [pieces, map_fst_pieces (position + 1) 0 [] back]
  | cons b rest ih =>
    by_cases hb : b = separator
    · simp [pieces, hb, ih]
    · simp [pieces, hb, ih]

/-- A text without a separator is one piece. -/
theorem map_fst_pieces_of_notMem (position : Nat) (current bytes : Bytes)
    (h : separator ∉ bytes) :
    (pieces position current bytes).map (·.1) = [current.reverse ++ bytes] := by
  induction bytes generalizing position current with
  | nil => simp [pieces]
  | cons b rest ih =>
    rw [List.mem_cons, not_or] at h
    simp [pieces, Ne.symm h.1, ih _ _ h.2]

/-- A piece is a part of the text, and no separator is in it. -/
theorem of_mem_pieces {position : Nat} {current bytes piece : Bytes}
    (hcurrent : separator ∉ current)
    (h : piece ∈ (pieces position current bytes).map (·.1)) :
    piece <:+: current.reverse ++ bytes ∧ separator ∉ piece := by
  induction bytes generalizing position current with
  | nil =>
    obtain rfl : piece = current.reverse := by simpa [pieces] using h
    exact ⟨by simp, by simpa using hcurrent⟩
  | cons b rest ih =>
    by_cases hb : b = separator
    · -- The piece that the separator ends, or a piece behind it.
      rw [pieces, if_pos hb, List.map_cons, List.mem_cons] at h
      rcases h with rfl | h
      · exact ⟨List.IsPrefix.isInfix (List.prefix_append _ _), by simpa using hcurrent⟩
      · obtain ⟨hpart, hpiece⟩ := ih (by simp) h
        exact ⟨hpart.trans ⟨current.reverse ++ [b], [], by simp⟩, hpiece⟩
    · rw [pieces, if_neg hb] at h
      obtain ⟨hpart, hpiece⟩ := ih (by simp [Ne.symm hb, hcurrent]) h
      exact ⟨by simpa using hpart, hpiece⟩

/-- The same, for all of a path. -/
theorem of_mem_pieces_bytes {p : Path} {piece : Bytes}
    (h : piece ∈ (pieces 0 [] p.bytes).map (·.1)) :
    piece <:+: p.bytes ∧ separator ∉ piece := by
  simpa using of_mem_pieces (by simp) h

/-! ### Steps -/

/-- The steps of a path come from its pieces, whatever their positions. -/
theorem bareSteps_eq (p : Path) :
    p.bareSteps = ((pieces 0 [] p.bytes).map (·.1)).filterMap stepOf? := by
  rw [bareSteps, List.filterMap_map]
  rfl

/-- An empty path has no steps. -/
@[simp] theorem bareSteps_nil : bareSteps ⟨[]⟩ = [] := rfl

/-- A path that is cut at a slash has the steps of both parts. -/
theorem bareSteps_append_separator (front back : Bytes) :
    bareSteps ⟨front ++ separator :: back⟩ = bareSteps ⟨front⟩ ++ bareSteps ⟨back⟩ := by
  simp only [bareSteps_eq, map_fst_pieces_append, List.filterMap_append]

/-- A proper name is one step. -/
theorem bareSteps_name {name : Name} (h : ProperName name) : bareSteps ⟨name⟩ = [.name name] := by
  rw [bareSteps_eq, map_fst_pieces_of_notMem 0 [] name h.separator_notMem]
  simp [stepOf?, h.ne_nil, h.ne_here, h.ne_up]

/-- A name without separators does not start at the top. -/
theorem isAbsolute_name {name : Name} (h : separator ∉ name) : isAbsolute ⟨name⟩ = false := by
  have hhead : name.head? ≠ some separator := fun hhead => h (List.mem_of_mem_head? hhead)
  simpa [isAbsolute] using hhead

/-- The bytes of a child: a separator goes in front of the name unless the path
is empty or has one at its end already. -/
theorem bytes_child {p : Path} {name : Name} (h : separator ∉ name) :
    p.bytes = [] ∧ p.child name = ⟨name⟩ ∨
      (∃ front, p.bytes = front ++ [separator] ∧ p.child name = ⟨front ++ separator :: name⟩) ∨
      p.bytes ≠ [] ∧ p.child name = ⟨p.bytes ++ separator :: name⟩ := by
  rw [child, join, isAbsolute_name h, if_neg Bool.false_ne_true]
  -- A slash goes between the two, unless the path is empty or ends in one.
  cases hlast : p.bytes.getLast? with
  | none => exact .inl ⟨List.getLast?_eq_none_iff.mp hlast, rfl⟩
  | some b =>
    obtain ⟨front, hfront⟩ := List.getLast?_eq_some_iff.mp hlast
    by_cases hb : b = separator
    · subst hb
      exact .inr (.inl ⟨front, hfront, by simp [hfront]⟩)
    · exact .inr (.inr ⟨by simp [hfront], by simp [hb]⟩)

/-- The path of a child is not empty. -/
theorem bytes_child_ne_nil {p : Path} {name : Name} (h : ProperName name) :
    (p.child name).bytes ≠ [] := by
  rcases bytes_child (p := p) h.separator_notMem with ⟨-, hchild⟩ | ⟨front, -, hchild⟩ | ⟨-, hchild⟩
  · simp [hchild, h.ne_nil]
  · simp [hchild]
  · simp [hchild]

/-- A path further down is not empty. -/
theorem bytes_descend_ne_nil {p : Path} {names : List Name} (hp : p.bytes ≠ [])
    (h : ∀ n ∈ names, ProperName n) : (p.descend names).bytes ≠ [] := by
  induction names generalizing p with
  | nil => exact hp
  | cons name names ih =>
    rw [List.forall_mem_cons] at h
    exact ih (bytes_child_ne_nil h.1) h.2

/-- The path of a child has one step more. -/
theorem bareSteps_child {p : Path} {name : Name} (h : ProperName name) :
    (p.child name).bareSteps = p.bareSteps ++ [.name name] := by
  -- In each of the three forms of the path, the name is cut off at a slash.
  obtain ⟨bytes⟩ := p
  rcases bytes_child (p := ⟨bytes⟩) h.separator_notMem with
    ⟨hp, hchild⟩ | ⟨front, hp, hchild⟩ | ⟨-, hchild⟩
  · obtain rfl : bytes = [] := hp
    rw [hchild, bareSteps_name h]
    rfl
  · obtain rfl : bytes = front ++ [separator] := hp
    rw [hchild, bareSteps_append_separator, bareSteps_append_separator, bareSteps_name h]
    simp
  · rw [hchild, bareSteps_append_separator, bareSteps_name h]

/-- The path of a child does not end in a separator. -/
theorem endsInSlash_child {p : Path} {name : Name} (h : ProperName name) :
    (p.child name).endsInSlash = false := by
  obtain ⟨init, b, hname⟩ : ∃ init b, name = init ++ [b] :=
    ⟨_, _, (List.dropLast_concat_getLast h.ne_nil).symm⟩
  -- Whatever stands in front of the name, the last byte of the path is that of the name.
  have hb : b ≠ separator := by
    rintro rfl
    exact h.separator_notMem (by simp [hname])
  have hlast : ∃ front, (p.child name).bytes = front ++ [b] := by
    rcases bytes_child (p := p) h.separator_notMem with
      ⟨-, hchild⟩ | ⟨front, -, hchild⟩ | ⟨-, hchild⟩
    · exact ⟨init, by rw [hchild, hname]⟩
    · exact ⟨front ++ separator :: init, by rw [hchild, hname]; simp⟩
    · exact ⟨p.bytes ++ separator :: init, by rw [hchild, hname]; simp⟩
  obtain ⟨front, hlast⟩ := hlast
  simp [endsInSlash, hlast, hb]

/-- Nothing stands behind the name of a child. -/
theorem steps_child {p : Path} {name : Name} (h : ProperName name) :
    (p.child name).steps = p.bareSteps ++ [.name name] := by
  rw [steps, bareSteps_child h, endsInSlash_child h]
  simp

/-- A child starts where its directory starts. -/
theorem origin_child {p : Path} {name : Name} (h : ProperName name) (current : Location) :
    (p.child name).origin current = p.origin current := by
  -- The first byte stays the same, and a name alone does not start with a slash.
  have habsolute : (p.child name).isAbsolute = p.isAbsolute := by
    rcases bytes_child (p := p) h.separator_notMem with
      ⟨hp, hchild⟩ | ⟨front, hp, hchild⟩ | ⟨hp, hchild⟩
    · rw [hchild, isAbsolute_name h.separator_notMem]
      simp [isAbsolute, hp]
    · rw [hchild]
      cases front <;> simp [isAbsolute, hp]
    · rw [hchild]
      cases hbytes : p.bytes with
      | nil => exact absurd hbytes hp
      | cons b rest => simp [isAbsolute, hbytes]
  rw [origin, origin, habsolute]

/-- A path further down has one step more for each name. -/
theorem bareSteps_descend {p : Path} {names : List Name} (h : ∀ n ∈ names, ProperName n) :
    (p.descend names).bareSteps = p.bareSteps ++ names.map .name := by
  induction names generalizing p with
  | nil => simp
  | cons name names ih =>
    rw [List.forall_mem_cons] at h
    rw [descend_cons, ih h.2, bareSteps_child h.1]
    simp

/-- The steps of a path below another one; a separator at the end of that one
has no step any more. -/
theorem steps_descend {p : Path} {names : List Name} (hne : names ≠ [])
    (h : ∀ n ∈ names, ProperName n) :
    (p.descend names).steps = p.bareSteps ++ names.map .name := by
  obtain ⟨init, name, rfl⟩ : ∃ init name, names = init ++ [name] :=
    ⟨_, _, (List.dropLast_concat_getLast hne).symm⟩
  rw [List.forall_mem_append, List.forall_mem_singleton] at h
  -- Only the last name ends the path, so only there the end matters.
  rw [descend_append, descend_cons, descend_nil, steps_child h.2, bareSteps_descend h.1]
  simp

/-- A path further down starts where the path starts. -/
theorem origin_descend {p : Path} {names : List Name} (h : ∀ n ∈ names, ProperName n)
    (current : Location) : (p.descend names).origin current = p.origin current := by
  induction names generalizing p with
  | nil => rfl
  | cons name names ih =>
    rw [List.forall_mem_cons] at h
    rw [descend_cons, ih h.2, origin_child h.1]

/-- Below a path that does not end in a separator, each name stands behind one. -/
theorem bytes_descend {p : Path} {names : List Name} (hp : p.bytes ≠ [])
    (hslash : p.endsInSlash = false) (h : ∀ n ∈ names, ProperName n) :
    (p.descend names).bytes = p.bytes ++ names.flatMap (separator :: ·) := by
  -- By induction on the names; the path of a child is not empty and does not end in a slash.
  induction names generalizing p with
  | nil => simp
  | cons name names ih =>
    rw [List.forall_mem_cons] at h
    have hchild : (p.child name).bytes = p.bytes ++ separator :: name := by
      rcases bytes_child (p := p) h.1.separator_notMem with
        ⟨hnil, -⟩ | ⟨front, hfront, -⟩ | ⟨-, hchild⟩
      · exact absurd hnil hp
      · simp [endsInSlash, hfront] at hslash
      · rw [hchild]
    rw [descend_cons, ih (bytes_child_ne_nil h.1) (endsInSlash_child h.1) h.2, hchild]
    simp

/-- A row of names as the text of a relative path. -/
theorem intercalate_cons (name : Name) (names : List Name) :
    [separator].intercalate (name :: names) = name ++ names.flatMap (separator :: ·) := by
  induction names generalizing name with
  | nil => simp
  | cons next names ih => rw [List.intercalate_cons_cons, ih]; simp

/-- The text of a row of names is the path that goes down by them from nowhere. -/
theorem descend_empty {names : List Name} (hne : names ≠ []) (h : ∀ n ∈ names, ProperName n) :
    (⟨[]⟩ : Path).descend names = ⟨[separator].intercalate names⟩ := by
  obtain ⟨name, below, rfl⟩ := List.exists_cons_of_ne_nil hne
  rw [List.forall_mem_cons] at h
  -- The first name has no separator in front of it, the others have.
  have hchild : (⟨[]⟩ : Path).child name = ⟨name⟩ := by
    rw [child, join, isAbsolute_name h.1.separator_notMem]
    rfl
  have hslash : endsInSlash ⟨name⟩ = false := hchild ▸ endsInSlash_child h.1
  have hbytes := bytes_descend (p := ⟨name⟩) h.1.ne_nil hslash h.2
  rw [descend_cons, hchild, intercalate_cons, ← hbytes]

/-- The path of an entry ends in the names that lead to it from the directory. -/
theorem length_intercalate_le {p : Path} {names : List Name} (h : ∀ n ∈ names, ProperName n) :
    ([separator].intercalate names).length ≤ (p.descend names).bytes.length := by
  cases names with
  | nil => simp
  | cons name names =>
    rw [List.forall_mem_cons] at h
    -- The first name is part of the path of the child; the others follow with their slashes.
    have hchild : name.length ≤ (p.child name).bytes.length := by
      rcases bytes_child (p := p) h.1.separator_notMem with
        ⟨-, hchild⟩ | ⟨front, -, hchild⟩ | ⟨-, hchild⟩
      · exact Nat.le_of_eq (by rw [hchild])
      · rw [hchild]
        simp only [List.length_append, List.length_cons]
        omega
      · rw [hchild]
        simp only [List.length_append, List.length_cons]
        omega
    rw [descend_cons, bytes_descend (bytes_child_ne_nil h.1) (endsInSlash_child h.1) h.2,
      intercalate_cons, List.length_append, List.length_append]
    omega

/-- Proper names have no zero byte, and the slashes between them are none. -/
theorem zero_notMem_intercalate {names : List Name} (h : ∀ n ∈ names, ProperName n) :
    0 ∉ [separator].intercalate names := by
  cases names with
  | nil => simp
  | cons name names =>
    rw [List.forall_mem_cons] at h
    have hseparator : (0 : UInt8) ≠ separator := by decide
    have hnames : ∀ n ∈ names, 0 ∉ n := fun n hn => (h.2 n hn).zero_notMem
    simpa [intercalate_cons, h.1.zero_notMem, hseparator] using hnames

/-- A name that a path steps to is a part of its text, without separators. -/
theorem of_mem_bareSteps {p : Path} {name : Name} (h : .name name ∈ p.bareSteps) :
    name ≠ [] ∧ name ≠ [dot] ∧ name ≠ [dot, dot] ∧ name <:+: p.bytes ∧ separator ∉ name := by
  rw [bareSteps_eq, List.mem_filterMap] at h
  obtain ⟨piece, hpiece, hstep⟩ := h
  -- A piece is a name when it is not empty and neither of the two dots.
  unfold stepOf? at hstep
  split at hstep
  · cases hstep
  split at hstep
  · cases hstep
  split at hstep
  · cases hstep
  · cases hstep
    exact ⟨by assumption, by assumption, by assumption, of_mem_pieces_bytes hpiece⟩

/-! ### Acceptable paths -/

/-- A path that the system takes has no zero byte, is short enough and not empty. -/
theorem check_eq_ok_iff (p : Path) :
    p.check = .ok () ↔ 0 ∉ p.bytes ∧ p.bytes.length < lengthLimit ∧ p.bytes ≠ [] := by
  rw [check, List.contains_eq_mem, isEmpty]
  by_cases hzero : 0 ∈ p.bytes
  · simp [hzero]
  by_cases hlength : lengthLimit ≤ p.bytes.length
  · simp [hzero, hlength, Nat.not_lt.mpr hlength]
  by_cases hempty : p.bytes = []
  · simp [hempty, lengthLimit]
  · simp [hzero, hlength, hempty, Nat.lt_of_not_le hlength]

/-- A directory has an acceptable path when an entry in it has one. -/
theorem check_of_check_child {p : Path} {name : Name} (h : ProperName name)
    (hp : p.bytes ≠ []) (hcheck : (p.child name).check = .ok ()) : p.check = .ok () := by
  rw [check_eq_ok_iff] at hcheck ⊢
  obtain ⟨hzero, hlength, -⟩ := hcheck
  -- The path is a part of that of its child.
  rcases bytes_child (p := p) h.separator_notMem with
    ⟨hnil, -⟩ | ⟨front, hfront, hchild⟩ | ⟨-, hchild⟩
  · exact absurd hnil hp
  · rw [hchild] at hzero hlength
    simp only [List.mem_append, List.mem_cons, List.length_append, List.length_cons, not_or]
      at hzero hlength
    refine ⟨by simp [hfront, hzero.1, hzero.2.1], ?_, hp⟩
    simp only [hfront, List.length_append, List.length_singleton]
    omega
  · rw [hchild] at hzero hlength
    simp only [List.mem_append, List.mem_cons, List.length_append, List.length_cons, not_or]
      at hzero hlength
    exact ⟨hzero.1, by omega, hp⟩

/-- A path that is not empty is acceptable when one below it is. -/
theorem check_of_check_descend {p : Path} {names : List Name} (h : ∀ n ∈ names, ProperName n)
    (hp : p.bytes ≠ []) (hcheck : (p.descend names).check = .ok ()) : p.check = .ok () := by
  induction names generalizing p with
  | nil => exact hcheck
  | cons name names ih =>
    rw [List.forall_mem_cons] at h
    exact check_of_check_child h.1 hp (ih h.2 (bytes_child_ne_nil h.1) hcheck)

/-- A name that an acceptable path steps to is proper unless it is too long. -/
theorem proper_of_mem_bareSteps {p : Path} {name : Name} (hcheck : p.check = .ok ())
    (h : .name name ∈ p.bareSteps) (hlength : name.length ≤ nameLimit) : ProperName name := by
  obtain ⟨hnil, hhere, hup, hpart, hseparator⟩ := of_mem_bareSteps h
  have hzero : 0 ∉ name := fun hmem => ((check_eq_ok_iff p).mp hcheck).1 (hpart.subset hmem)
  exact ⟨hnil, hhere, hup, hseparator, hzero, hlength⟩

end Path

end Promotion
