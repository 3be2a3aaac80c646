import Mathlib.Data.List.Basic
import Mathlib.Data.List.Infix
import Promotion.Proofs.Path.Components

/-!
# `Promotion.Proofs.Path.Leading`: the leading parts of a path

A leading part of a path is a front part of its text. Where to cut is told by
the positions at which components end, so these are followed back to the pieces
between separators.

* `placedComponents_take`: the text up to the end of a component has the
  components up to that one.
* `Path.leadingPart`: the leading part that has a given number of components.
* `placedComponents_leadingPart`, `take_leadingPart`: its components and its text
  are those of the path.
-/

set_option autoImplicit false

namespace Promotion

open Promotion.Text (Bytes)

namespace Path

variable {p : Path} {c : Component} {ending position n : Nat}
  {init later : List (Component × Nat)}

/-! ### Pieces up to a position -/

/-- The text up to the end of a piece has the pieces up to that one. -/
theorem pieces_take {position ending : Nat} {current bytes piece : Bytes}
    {front back : List (Bytes × Nat)}
    (h : pieces position current bytes = front ++ (piece, ending) :: back) :
    position ≤ ending ∧
      pieces position current (bytes.take (ending - position)) = front ++ [(piece, ending)] := by
  induction bytes generalizing position current front with
  | nil =>
    -- There is one piece only.
    rw [pieces] at h
    obtain ⟨rfl, hlast⟩ | ⟨-, hnil⟩ := List.append_eq_singleton_iff.mp h.symm
    · cases hlast
      simp [pieces]
    · cases hnil
  | cons b rest ih =>
    by_cases hb : b = separator
    · rw [pieces, if_pos hb] at h
      cases front with
      | nil =>
        -- The piece that the separator ends.
        cases h
        simp [pieces]
      | cons first front =>
        obtain ⟨rfl, hrest⟩ := List.cons.inj h
        obtain ⟨hle, htake⟩ := ih hrest
        have hpos : ending - position = (ending - (position + 1)) + 1 := by omega
        refine ⟨by omega, ?_⟩
        rw [hpos, List.take_succ_cons, pieces, if_pos hb, htake]
        rfl
    · rw [pieces, if_neg hb] at h
      obtain ⟨hle, htake⟩ := ih h
      have hpos : ending - position = (ending - (position + 1)) + 1 := by omega
      refine ⟨by omega, ?_⟩
      rw [hpos, List.take_succ_cons, pieces, if_neg hb, htake]

/-- A piece that is not empty leaves some text in front of its end. -/
theorem take_ne_nil {bytes piece : Bytes} {ending : Nat} {front back : List (Bytes × Nat)}
    (h : pieces 0 [] bytes = front ++ (piece, ending) :: back) (hpiece : piece ≠ []) :
    bytes.take ending ≠ [] := by
  intro hnil
  have htake := (pieces_take h).2
  rw [Nat.sub_zero, hnil, pieces] at htake
  obtain ⟨-, hlast⟩ | ⟨-, hlast⟩ := List.append_eq_singleton_iff.mp htake.symm
  · cases hlast
    exact hpiece rfl
  · cases hlast

/-- A component comes from a piece that is not empty. -/
theorem exists_piece_of_placed {ps : List (Bytes × Nat)} {init later : List (Component × Nat)}
    {c : Component} {ending : Nat} (h : ps.filterMap placed? = init ++ (c, ending) :: later) :
    ∃ front piece back, ps = front ++ (piece, ending) :: back ∧ piece ≠ [] ∧
      (front ++ [(piece, ending)]).filterMap placed? = init ++ [(c, ending)] := by
  obtain ⟨front, rest, rfl, hfront, hrest⟩ := List.filterMap_eq_append_iff.mp h
  obtain ⟨gap, ⟨piece, ending'⟩, back, rfl, hgap, hpiece, -⟩ := List.filterMap_eq_cons_iff.mp hrest
  have hgap : gap.filterMap placed? = [] := List.filterMap_eq_nil_iff.mpr hgap
  -- A piece is put down with its own position, and an empty one is not put down at all.
  obtain ⟨c', hc, hplaced⟩ := Option.map_eq_some_iff.mp hpiece
  cases hplaced
  refine ⟨front ++ gap, piece, back, by simp, ?_, ?_⟩
  · rintro rfl
    simp [componentOf?] at hc
  · simp [List.filterMap_append, hfront, hgap, hpiece]

/-- No piece ends behind the text. -/
theorem le_of_mem_pieces {start : Nat} {current bytes : Bytes} {piece : Bytes × Nat}
    (h : piece ∈ pieces start current bytes) : piece.2 ≤ start + bytes.length := by
  -- By induction on the bytes, with the start and the piece so far generalized.
  induction bytes generalizing start current with
  | nil =>
    rw [pieces, List.mem_singleton] at h
    rw [h]
    exact Nat.le_add_right _ _
  | cons b rest ih =>
    have hrest {current : Bytes} (h : piece ∈ pieces (start + 1) current rest) :
        piece.2 ≤ start + (b :: rest).length := by
      rw [List.length_cons, Nat.add_comm rest.length, ← Nat.add_assoc]
      exact ih h
    by_cases hb : b = separator
    · rw [pieces, if_pos hb] at h
      rcases List.mem_cons.mp h with rfl | h
      · exact Nat.le_add_right _ _
      · exact hrest h
    · rw [pieces, if_neg hb] at h
      exact hrest h

/-! ### Components up to a position -/

/-- The front parts of a text that are not empty start where the text starts. -/
theorem isAbsolute_take {k : Nat} (htake : p.bytes.take k ≠ []) :
    isAbsolute ⟨p.bytes.take k⟩ = p.isAbsolute := by
  cases k with
  | zero => simp at htake
  | succ k => cases hbytes : p.bytes <;> simp [isAbsolute, hbytes]

/-- The text up to the end of a piece starts with the same piece. -/
theorem placedComponents_take_of_piece {piece : Bytes} {front back : List (Bytes × Nat)}
    (h : pieces 0 [] p.bytes = front ++ (piece, ending) :: back) (hpiece : piece ≠ []) :
    placedComponents ⟨p.bytes.take ending⟩
      = placedLead p.isAbsolute (pieces 0 [] p.bytes).head?
        ++ (front ++ [(piece, ending)]).filterMap placed? := by
  have htake := (pieces_take h).2
  rw [Nat.sub_zero] at htake
  -- The first piece is still the first one, so the same component leads.
  have hhead : (front ++ [(piece, ending)]).head? = (front ++ (piece, ending) :: back).head? := by
    cases front <;> rfl
  rw [placedComponents_eq, isAbsolute_take (take_ne_nil h hpiece)]
  dsimp only
  rw [htake, hhead, ← h]

/-- The same for a component of a piece. -/
theorem placedComponents_take_of_placed {before : List (Component × Nat)}
    (h : (pieces 0 [] p.bytes).filterMap placed? = before ++ (c, ending) :: later) :
    placedComponents ⟨p.bytes.take ending⟩
      = placedLead p.isAbsolute (pieces 0 [] p.bytes).head? ++ (before ++ [(c, ending)]) := by
  obtain ⟨front, piece, back, hpieces, hpiece, hfront⟩ := exists_piece_of_placed h
  rw [placedComponents_take_of_piece hpieces hpiece, hfront]

/-- The same for what stands in front. -/
theorem placedComponents_take_of_lead
    (h : placedLead p.isAbsolute (pieces 0 [] p.bytes).head? = [(c, ending)]) :
    placedComponents ⟨p.bytes.take ending⟩ = [(c, ending)] := by
  -- The root is the slash; a dot is the first piece of the path.
  rcases placedLead_cases p.isAbsolute (pieces 0 [] p.bytes).head? with
    ⟨habsolute, hroot⟩ | ⟨-, first, hfirst, hhere⟩ | hnil
  · cases h.symm.trans hroot
    obtain ⟨rest, hbytes⟩ : ∃ rest, p.bytes = separator :: rest := by
      cases hbytes : p.bytes <;> simp_all [isAbsolute]
    rw [hbytes]
    rfl
  · cases h.symm.trans hhere
    obtain ⟨back, hpieces⟩ := List.head?_eq_some_iff.mp hfirst
    have hpieces : pieces 0 [] p.bytes = [] ++ ([dot], ending) :: back := hpieces
    rw [placedComponents_take_of_piece hpieces (by simp), hhere]
    rfl
  · cases h.symm.trans hnil

/-- The text up to the end of a component has the components up to that one. -/
theorem placedComponents_take (h : p.placedComponents = init ++ (c, ending) :: later) :
    placedComponents ⟨p.bytes.take ending⟩ = init ++ [(c, ending)] := by
  have hsplit := (placedComponents_eq p).symm.trans h
  rcases List.append_eq_append_iff.mp hsplit with
    ⟨before, hinit, hplaced⟩ | ⟨_ | ⟨first, rest⟩, hlead, hplaced⟩
  · rw [placedComponents_take_of_placed hplaced, hinit, List.append_assoc]
  · rw [List.append_nil] at hlead
    have hplaced : (pieces 0 [] p.bytes).filterMap placed? = [] ++ (c, ending) :: later :=
      hplaced.symm
    have htake := placedComponents_take_of_placed hplaced
    rwa [hlead] at htake
  · -- Nothing else stands in front.
    obtain rfl : (c, ending) = first := (List.cons.inj hplaced).1
    have hlength := placedLead_length_le p.isAbsolute (pieces 0 [] p.bytes).head?
    rw [hlead, List.length_append, List.length_cons] at hlength
    obtain rfl : init = [] := List.eq_nil_of_length_eq_zero (by omega)
    obtain rfl : rest = [] := List.eq_nil_of_length_eq_zero (by omega)
    exact placedComponents_take_of_lead hlead

/-- A component ends inside the path. -/
theorem ending_le_length (h : (c, ending) ∈ p.placedComponents) : ending ≤ p.bytes.length := by
  have hpieces {piece : Bytes} (hpiece : (piece, ending) ∈ pieces 0 [] p.bytes) :
      ending ≤ p.bytes.length := by
    simpa using le_of_mem_pieces hpiece
  rw [placedComponents_eq, List.mem_append] at h
  -- The component leads, or it comes from a piece.
  rcases h with h | h
  · rcases placedLead_cases p.isAbsolute (pieces 0 [] p.bytes).head? with
      ⟨habsolute, hroot⟩ | ⟨-, first, hfirst, hhere⟩ | hnil
    · rw [hroot] at h
      cases List.mem_singleton.mp h
      cases hbytes : p.bytes with
      | nil => simp [isAbsolute, hbytes] at habsolute
      | cons b rest => simp
    · rw [hhere] at h
      cases List.mem_singleton.mp h
      exact hpieces (List.mem_of_mem_head? hfirst)
    · rw [hnil] at h
      cases h
  · obtain ⟨⟨piece, position⟩, hpiece, hplaced⟩ := List.mem_filterMap.mp h
    obtain ⟨c', -, hc⟩ := Option.map_eq_some_iff.mp hplaced
    cases hc
    exact hpieces hpiece

/-! ### Leading parts -/

/-- The positions do not change the number of components. -/
theorem length_placedComponents (p : Path) : p.placedComponents.length = p.components.length := by
  rw [components, List.length_map]

/-- The leading part of a path that has its first `n` components: the path itself
when it has no more, the current directory when there is none, else the text up
to the end of the last one. -/
def leadingPart (p : Path) (n : Nat) : Path :=
  if p.components.length ≤ n then p
  else match (p.placedComponents.take n).getLast? with
    | some (_, ending) => ⟨p.bytes.take ending⟩
    | none => ⟨[dot]⟩

/-- All components together are the path. -/
theorem leadingPart_length (p : Path) : p.leadingPart p.components.length = p := by
  rw [leadingPart, if_pos (Nat.le_refl _)]

/-- Short of all components of a path, the part without any is the dot. -/
theorem leadingPart_zero (h : 0 < p.components.length) : p.leadingPart 0 = ⟨[dot]⟩ := by
  rw [leadingPart, if_neg (Nat.not_le_of_lt h), List.take_zero, List.getLast?_nil]

/-- Short of the whole path, the text ends where the last component ends. -/
theorem leadingPart_of_lt (hn : n < p.components.length)
    (h : p.placedComponents.take n = init ++ [(c, ending)]) :
    p.leadingPart n = ⟨p.bytes.take ending⟩ := by
  rw [leadingPart, if_neg (Nat.not_le_of_lt hn), h, List.getLast?_concat]

/-- The components of a leading part end where they end in the whole path. -/
theorem placedComponents_leadingPart (hn : n ≤ p.components.length)
    (h : p.placedComponents.take n = init ++ [(c, ending)]) :
    (p.leadingPart n).placedComponents = init ++ [(c, ending)] := by
  rcases Nat.lt_or_eq_of_le hn with hlt | rfl
  · rw [leadingPart_of_lt hlt h]
    have hsplit : p.placedComponents = init ++ (c, ending) :: p.placedComponents.drop n := by
      rw [List.append_cons, ← h, List.take_append_drop]
    exact placedComponents_take hsplit
  · rw [leadingPart_length, ← h, ← length_placedComponents, List.take_length]

/-- Some components have a last one. -/
theorem exists_take_eq_concat (hpos : 0 < n) (hn : n ≤ p.components.length) :
    ∃ init c ending, p.placedComponents.take n = init ++ [(c, ending)] := by
  rcases List.eq_nil_or_concat (p.placedComponents.take n) with hnil | ⟨init, ⟨c, ending⟩, hinit⟩
  · have hlength := congrArg List.length hnil
    rw [List.length_take, length_placedComponents, List.length_nil] at hlength
    omega
  · exact ⟨init, c, ending, hinit.trans List.concat_eq_append⟩

/-- A leading part has the first components of the path. -/
theorem components_leadingPart (hpos : 0 < n) (hn : n ≤ p.components.length) :
    (p.leadingPart n).components = p.components.take n := by
  obtain ⟨init, c, ending, htake⟩ := exists_take_eq_concat hpos hn
  rw [components, placedComponents_leadingPart hn htake, ← htake, List.map_take]
  rfl

/-- A leading part is not empty. -/
theorem isEmpty_leadingPart (hpos : 0 < n) (hn : n ≤ p.components.length) :
    (p.leadingPart n).isEmpty = false := by
  cases hempty : (p.leadingPart n).isEmpty with
  | false => rfl
  | true =>
    have hnil : p.leadingPart n = ⟨[]⟩ := congrArg Path.mk (List.isEmpty_iff.mp hempty)
    have hlength := congrArg List.length (components_leadingPart hpos hn)
    rw [hnil, List.length_take, Nat.min_eq_left hn] at hlength
    exact absurd hlength (Nat.ne_of_lt hpos)

/-- Up to the end of one of its components a leading part has the text of the path. -/
theorem take_leadingPart (hn : n ≤ p.components.length)
    (h : p.placedComponents.take n = init ++ [(c, ending)]) {c' : Component}
    (hmem : (c', position) ∈ init ++ [(c, ending)]) :
    (p.leadingPart n).bytes.take position = p.bytes.take position := by
  rw [← placedComponents_leadingPart hn h] at hmem
  have hle := ending_le_length hmem
  rcases Nat.lt_or_eq_of_le hn with hlt | rfl
  · rw [leadingPart_of_lt hlt h] at hle ⊢
    rw [List.take_take, Nat.min_eq_left (hle.trans (List.length_take_le _ _))]
  · rw [leadingPart_length]

end Path

end Promotion
