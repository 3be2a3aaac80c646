import Promotion.Proofs.Version.Grammar
import Promotion.Proofs.Yaml.Whole

/-!
# `Promotion.Proofs.Version.Marked`: texts of numbers that are no versions

A version begins with a digit, and only digits, full stops and a hyphen come behind
it up to the qualifier. A number with a sign or in another base than ten begins
with something else, so the text of it is no version.

* `Spells.exists_numbers`: how a version begins.
* `exists_parse_eq_error_of_marked`: a text with a sign or the mark of a base in front
  is refused.
-/

set_option autoImplicit false

namespace Promotion

namespace Text

/-- Every character of a text is in one of its fields or separates them. -/
theorem eq_or_mem_fieldsOf (sep : Char) {c : Char} {s : List Char} (h : c ∈ s) :
    c = sep ∨ ∃ field ∈ fieldsOf sep s, c ∈ field := by
  -- By induction on the text, of which a separator ends the first field.
  induction s with
  | nil => cases h
  | cons first rest ih =>
    obtain ⟨field, fields, hfields⟩ := List.exists_cons_of_ne_nil (fieldsOf_ne_nil sep rest)
    rw [hfields] at ih
    rw [fieldsOf, hfields]
    by_cases hfirst : first = sep
    · rw [if_pos hfirst]
      rcases List.mem_cons.mp h with rfl | h
      · exact .inl hfirst
      · obtain hsep | ⟨f, hf, hc⟩ := ih h
        · exact .inl hsep
        · exact .inr ⟨f, List.mem_cons_of_mem _ hf, hc⟩
    · rw [if_neg hfirst]
      rcases List.mem_cons.mp h with rfl | h
      · exact .inr ⟨c :: field, List.mem_cons_self, List.mem_cons_self⟩
      · obtain hsep | ⟨f, hf, hc⟩ := ih h
        · exact .inl hsep
        · rcases List.mem_cons.mp hf with rfl | hf
          · exact .inr ⟨first :: f, List.mem_cons_self, List.mem_cons_of_mem _ hc⟩
          · exact .inr ⟨f, List.mem_cons_of_mem _ hf, hc⟩

end Text

namespace Version

open Yaml (Marked)

/-- A text that spells a version begins with digits and full stops, and a hyphen is
what may follow them. -/
theorem Spells.exists_numbers {t : List Char} {v : Version} (h : Spells t v) :
    ∃ numbers back, t = numbers ++ back ∧ numbers ≠ [] ∧
      (∀ c ∈ numbers, c.isDigit = true ∨ c = '.') ∧ ∀ c ∈ back.head?, c = '-' := by
  cases h with
  | @intro numbers _ _ hdivides _ hnumbers =>
    have hnonempty : numbers ≠ [] := by
      rintro rfl
      exact (hnumbers [] (by simp)).ne_nil rfl
    -- The numbers are digits with dots between them.
    have hchars : ∀ c ∈ numbers, c.isDigit = true ∨ c = '.' := by
      intro c hc
      rcases Text.eq_or_mem_fieldsOf '.' hc with hstop | ⟨piece, hpiece, hc⟩
      · exact .inr hstop
      · rw [Text.fieldsOf_eq_splitOn] at hpiece
        exact .inl ((hnumbers piece hpiece).digits c hc)
    cases hdivides with
    | plain _ => exact ⟨t, [], (List.append_nil t).symm, hnonempty, hchars, nofun⟩
    | hyphen qualifier _ =>
      refine ⟨numbers, '-' :: qualifier, rfl, hnonempty, hchars, fun c hc => ?_⟩
      exact (Option.some.inj hc).symm

/-- No version starts with a sign or with the mark of a base. -/
theorem exists_parse_eq_error_of_marked {t : String} (h : Marked t.toList) :
    ∃ e, parse t = .error e := by
  cases hparse : parse t with
  | error e => exact ⟨e, rfl⟩
  | ok v =>
    obtain ⟨numbers, back, htrim, hne, hnumbers, hback⟩ :=
      (ofTrimmed_eq_ok_iff.mp hparse).exists_numbers
    obtain ⟨⟨front, blanks, hsplit, hfront, hblanks⟩, -, -⟩ := Text.isTrimmed_trim t.toList
    rw [htrim] at hsplit
    obtain ⟨c, rest, rfl⟩ := List.exists_cons_of_ne_nil hne
    rw [List.forall_mem_cons] at hnumbers
    obtain ⟨hc, hrest⟩ := hnumbers
    generalize t.toList = s at h hsplit
    cases h with
    | @sign m _ hm =>
      -- The sign is no white space, so it is the first character of the version.
      cases front with
      | nil =>
        cases hsplit
        rcases hm with rfl | rfl <;> exact absurd hc (by decide)
      | cons b front =>
        obtain ⟨rfl, -⟩ := List.cons.inj hsplit
        have hblank := hfront m List.mem_cons_self
        rcases hm with rfl | rfl <;> exact absurd hblank (by decide)
    | @base m _ hm =>
      have hmark : m.isDigit = false ∧ m ≠ '.' ∧ m ≠ '-' ∧ Text.isBlank m = false := by
        simp only [List.mem_cons, List.not_mem_nil, or_false] at hm
        rcases hm with rfl | rfl | rfl <;> decide
      obtain ⟨hdigit, hstop, hhyphen, hblank⟩ := hmark
      cases front with
      | cons b front =>
        obtain ⟨rfl, -⟩ := List.cons.inj hsplit
        exact absurd (hfront '0' List.mem_cons_self) (by decide)
      | nil =>
        -- The mark follows the zero: among the numbers, behind them or behind the version.
        cases rest with
        | cons d rest =>
          cases hsplit
          rcases hrest m List.mem_cons_self with hd | hd
          · rw [hdigit] at hd
            cases hd
          · exact absurd hd hstop
        | nil =>
          cases back with
          | cons d back =>
            cases hsplit
            exact absurd (hback m rfl) hhyphen
          | nil =>
            cases blanks with
            | nil => cases hsplit
            | cons d blanks =>
              cases hsplit
              have hd := hblanks m List.mem_cons_self
              rw [hblank] at hd
              cases hd

end Version

end Promotion
