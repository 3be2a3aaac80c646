import Promotion.Proofs.Yaml.Cursor
import Promotion.Yaml.Folding

/-!
# `Promotion.Proofs.Yaml.Folding`: the white space of what was written

In what is written, white space is a row of spaces within a line, or a row of
line breaks with the indentation of the next line.

* `read_spaces`: spaces within a line are kept.
* `read_breaks`: line breaks are noted, and the indentation is passed over.
-/

set_option autoImplicit false

namespace Promotion.Yaml.Folding

open Printer (isPrintable)

/-- Whether white space ends here. -/
def Ends (rest : List Char) : Prop := ∀ c ∈ rest.head?, isBlank c = false ∧ isBreak c = false

/-- A fold ends with the text. -/
theorem ends_nil : Ends [] := nofun

/-- A fold ends before a character that is neither a blank nor a break. -/
theorem ends_cons {c : Char} {rest : List Char} (hblank : isBlank c = false)
    (hbreak : isBreak c = false) : Ends (c :: rest) := by
  intro d hd
  obtain rfl := Option.some.inj hd
  exact ⟨hblank, hbreak⟩

variable {indent fuel : Nat} {f : Folding} {b : Char} {spaces breaks rest : List Char} {m : Mark}

/-- Where it ends, nothing more is read. -/
theorem read_end (hrest : Ends rest) : read indent fuel f ⟨rest, m⟩ = .ok (f, ⟨rest, m⟩) := by
  cases fuel with
  | zero => rfl
  | succ fuel =>
    cases rest with
    | nil => rfl
    | cons c rest => simp [read, hrest c rfl]

section Spaces

variable (indent fuel) (hspaces : ∀ c ∈ spaces, c = ' ') (hrest : Ends rest)

include hspaces hrest

/-- Spaces on the line itself are collected. -/
theorem read_spaces (hbroken : f.broken = false) (hfuel : spaces.length ≤ fuel) :
    read indent fuel f ⟨spaces ++ rest, m⟩
      = .ok ({ f with blanks := f.blanks ++ spaces }, ⟨rest, m.advance spaces.length⟩) := by
  -- By induction on the spaces, with what was collected generalized.
  induction spaces generalizing f fuel m with
  | nil => simp [read_end hrest]
  | cons c spaces ih =>
    obtain ⟨rfl, htail⟩ := List.forall_mem_cons.mp hspaces
    rw [List.length_cons] at hfuel
    obtain ⟨fuel, rfl⟩ := Nat.exists_eq_add_of_le' (Nat.le_trans (Nat.le_add_left 1 _) hfuel)
    have hstep : read indent (fuel + 1) f ⟨' ' :: spaces ++ rest, m⟩
        = read indent fuel { f with blanks := f.blanks ++ [' '] }
          ⟨spaces ++ rest, m.advance 1⟩ := by
      simp [read, isBlank, hbroken]
    rw [hstep, ih fuel (f := { f with blanks := f.blanks ++ [' '] }) htail hbroken
      (Nat.le_of_succ_le_succ hfuel)]
    simp [Nat.add_comm]

/-- The indentation of a line is passed over. -/
theorem read_indentation (hbroken : f.broken = true) (hfuel : spaces.length ≤ fuel) :
    read indent fuel f ⟨spaces ++ rest, m⟩ = .ok (f, ⟨rest, m.advance spaces.length⟩) := by
  -- By induction on the spaces, which are dropped after a break.
  induction spaces generalizing fuel m with
  | nil => simp [read_end hrest]
  | cons c spaces ih =>
    obtain ⟨rfl, htail⟩ := List.forall_mem_cons.mp hspaces
    rw [List.length_cons] at hfuel
    obtain ⟨fuel, rfl⟩ := Nat.exists_eq_add_of_le' (Nat.le_trans (Nat.le_add_left 1 _) hfuel)
    have hstep : read indent (fuel + 1) f ⟨' ' :: spaces ++ rest, m⟩
        = read indent fuel f ⟨spaces ++ rest, m.advance 1⟩ := by
      simp [read, isBlank, hbroken]
    rw [hstep, ih fuel htail (Nat.le_of_succ_le_succ hfuel)]
    simp [Nat.add_comm]

variable (breaks) (hbreaks : ∀ c ∈ breaks, isPrintable c = true ∧ isBreak c = true)

include hbreaks

/-- Line breaks after the first are noted one after the other. -/
theorem read_moreBreaks (hbroken : f.broken = true) (hcolumn : m.column = 0)
    (hfuel : (breaks ++ spaces).length ≤ fuel) :
    ∃ m', m'.column = spaces.length ∧
      read indent fuel f ⟨breaks ++ (spaces ++ rest), m⟩
        = .ok ({ f with moreBreaks := f.moreBreaks ++ breaks }, ⟨rest, m'⟩) := by
  -- By induction on the breaks, each of which starts a line.
  induction breaks generalizing f fuel m with
  | nil =>
    refine ⟨m.advance spaces.length, by simp [hcolumn], ?_⟩
    simp [read_indentation indent fuel hspaces hrest hbroken hfuel]
  | cons c breaks ih =>
    obtain ⟨⟨hprintable, hbreak⟩, hbreaks⟩ := List.forall_mem_cons.mp hbreaks
    rw [List.cons_append, List.length_cons] at hfuel
    obtain ⟨fuel, rfl⟩ := Nat.exists_eq_add_of_le' (Nat.le_trans (Nat.le_add_left 1 _) hfuel)
    have hblank : isBlank c = false := isBlank_of_isBreak hbreak
    have hstep : read indent (fuel + 1) f ⟨c :: breaks ++ (spaces ++ rest), m⟩
        = read indent fuel { f with moreBreaks := f.moreBreaks ++ [c] }
          ⟨breaks ++ (spaces ++ rest), m.nextLine 1⟩ := by
      simp [read, hblank, hbreak, hbroken, breakText_of_isPrintable hprintable hbreak,
        skipBreak_of_isPrintable hprintable hbreak]
    obtain ⟨m', hm', hread⟩ := ih fuel (f := { f with moreBreaks := f.moreBreaks ++ [c] }) hbreaks
      hbroken (Mark.nextLine_column m 1) (Nat.le_of_succ_le_succ hfuel)
    exact ⟨m', hm', by rw [hstep, hread]; simp⟩

/-- Line breaks are noted, and the indentation of the line after them is passed
over. -/
theorem read_breaks (hprintable : isPrintable b = true) (hbreak : isBreak b = true)
    (hfuel : (b :: breaks ++ spaces).length ≤ fuel) :
    ∃ m', m'.column = spaces.length ∧
      read indent fuel {} ⟨b :: breaks ++ (spaces ++ rest), m⟩
        = .ok (⟨[], [b], breaks, true⟩, ⟨rest, m'⟩) := by
  rw [List.cons_append, List.length_cons] at hfuel
  obtain ⟨fuel, rfl⟩ := Nat.exists_eq_add_of_le' (Nat.le_trans (Nat.le_add_left 1 _) hfuel)
  have hblank : isBlank b = false := isBlank_of_isBreak hbreak
  -- The first break is kept apart from those after it.
  have hstep : read indent (fuel + 1) {} ⟨b :: breaks ++ (spaces ++ rest), m⟩
      = read indent fuel ⟨[], [b], [], true⟩ ⟨breaks ++ (spaces ++ rest), m.nextLine 1⟩ := by
    simp [read, hblank, hbreak, breakText_of_isPrintable hprintable hbreak,
      skipBreak_of_isPrintable hprintable hbreak]
  rw [hstep]
  exact read_moreBreaks indent fuel breaks hspaces hrest hbreaks rfl (Mark.nextLine_column m 1)
    (Nat.le_of_succ_le_succ hfuel)

end Spaces

end Promotion.Yaml.Folding
