import Promotion.Proofs.Manifest.Entries
import Promotion.Proofs.Version.Text
import Promotion.Proofs.Yaml.Requoted

/-!
# `Promotion.Proofs.Manifest.Digits`: numbers and their digits in manifests

A version may be a whole number or the text of its digits. Nothing else in a manifest
is read from a number, so its digits may stand as a text wherever the number does:
the packages are the same.

* `ofValue_of_spelt`: a version is read from the digits of a number as from it.
* `readEntries_of_spelt`, `packageOf_of_spelt`: so are entries.
* `packagesOf_of_spelt`: so are manifests.
-/

set_option autoImplicit false

namespace Promotion.Manifest

open Value (Spelt)

variable {v v' : Value} {entries entries' : List (Value × Value)} {items items' : List Value}

/-! ### What is read from a value -/

/-- YAML reads values without their tags. -/
theorem plain_yaml (v : Value) : plain .yaml v = v.untagged := rfl

/-- A text is read from a text, with or without tags. -/
theorem text_eq_ok_iff_untagged {expected s : String} :
    text .yaml v expected = .ok s ↔ v.untagged = .text s := by
  rw [text, plain_yaml]
  cases v.untagged <;> simp

/-- A flag is null, or a truth value with or without tags. -/
theorem flag_eq_ok_iff_untagged {b? : Option Bool} :
    flag .yaml v = .ok b? ↔
      v = .null ∧ b? = none ∨ ∃ b, v.untagged = .bool b ∧ b? = some b := by
  cases v with
  | null => simp [flag, Value.untagged, eq_comm]
  | tagged tag w =>
    simp only [flag, plain_yaml, Value.untagged]
    cases w.untagged <;> simp [eq_comm]
  | _ => simp [flag, plain_yaml, Value.untagged, eq_comm]

/-- A package is a mapping whose entries make up a draft that is complete. -/
theorem packageOf_yaml_eq_ok_iff {p : Package} :
    packageOf .yaml v = .ok p ↔
      ∃ entries, v.untagged = .map entries ∧
        ∃ d, readEntries .yaml {} entries = .ok d ∧ d.package = .ok p := by
  unfold packageOf
  rw [plain_yaml]
  cases v.untagged <;> simp [Draft.package, bind_eq_ok_iff]

/-- The packages are those of a list, or there are none where null is listed. -/
theorem packagesOf_yaml_eq_ok_iff {packages : List Package} :
    packagesOf .yaml v = .ok packages ↔
      (∃ items, (entriesOf .yaml v).untagged = .list items ∧
        List.Forall₂ (fun v p => packageOf .yaml v = .ok p) items packages) ∨
      (entriesOf .yaml v).untagged = .null ∧ packages = [] := by
  unfold packagesOf
  rw [plain_yaml]
  cases (entriesOf .yaml v).untagged with
  | list items => simp [packagesOfList_eq_ok_iff]
  | null => simp [eq_comm]
  | _ => simp

/-! ### Digits instead of a number -/

variable {n? : Option Nat} (hn? : ∀ n ∈ n?, n < Version.segmentLimit)

/-- A text is read as it was before. -/
theorem text_of_spelt {expected s : String} (hspelt : v.Spelt n? v')
    (h : text .yaml v expected = .ok s) : text .yaml v' expected = .ok s := by
  rw [text_eq_ok_iff_untagged] at h ⊢
  exact (h ▸ hspelt.untagged).eq_text

/-- A flag is read as it was before. -/
theorem flag_of_spelt {b? : Option Bool} (hspelt : v.Spelt n? v') (h : flag .yaml v = .ok b?) :
    flag .yaml v' = .ok b? := by
  rw [flag_eq_ok_iff_untagged] at h ⊢
  rcases h with ⟨rfl, hb⟩ | ⟨b, hb, rfl⟩
  · exact .inl ⟨hspelt.eq_null, hb⟩
  · exact .inr ⟨b, (hb ▸ hspelt.untagged).eq_bool, rfl⟩

include hn? in
/-- A version is read from the digits of a number as from the number. -/
theorem ofValue_of_spelt {w : Version} (hspelt : v.Spelt n? v')
    (h : Version.ofValue .yaml v = .ok w) : Version.ofValue .yaml v' = .ok w := by
  -- Only a number and its digits differ, and they are the same version.
  cases hspelt with
  | refl => exact h
  | @digits n hn =>
    have hlt := hn? n hn
    obtain ⟨hint, htext⟩ := Version.ofValue_digits .yaml hlt
    rw [hint] at h
    rw [htext, h]
  | list => cases h
  | map => cases h
  | tagged => cases h

include hn? in
/-- An entry is read as it was before. -/
theorem readEntry_of_spelt {d d' : Draft} {key : String} (hspelt : v.Spelt n? v')
    (h : readEntry .yaml d key v = .ok d') : readEntry .yaml d key v' = .ok d' := by
  -- Which field is read depends on the key only, and whether it was read before on the draft
  -- only.
  unfold readEntry at h ⊢
  split at h
  next hname =>
    rw [if_pos hname]
    split at h
    · cases h
    next hnew =>
      rw [if_neg hnew]
      obtain ⟨s, hs, rfl⟩ := map_eq_ok_iff.mp h
      rw [text_of_spelt hspelt hs, Except.map]
  next hname =>
  rw [if_neg hname]
  split at h
  next hversion =>
    rw [if_pos hversion]
    split at h
    · cases h
    next hnew =>
      rw [if_neg hnew]
      obtain ⟨w, hw, rfl⟩ := map_eq_ok_iff.mp h
      rw [ofValue_of_spelt hn? hspelt hw, Except.map]
  next hversion =>
  rw [if_neg hversion]
  split at h
  next hsnapshot =>
    rw [if_pos hsnapshot]
    split at h
    · cases h
    next hnew =>
      rw [if_neg hnew]
      obtain ⟨b, hb, rfl⟩ := map_eq_ok_iff.mp h
      rw [flag_of_spelt hspelt hb, Except.map]
  next hsnapshot =>
    rw [if_neg hsnapshot]
    exact h

/-- Entries with the same keys and values, but for the digits of a number. -/
abbrev EntriesSpelt (n? : Option Nat) : List (Value × Value) → List (Value × Value) → Prop :=
  List.Forall₂ fun e e' => e.1.Spelt n? e'.1 ∧ e.2.Spelt n? e'.2

include hn? in
/-- All entries of a mapping are read as they were before. -/
theorem readEntries_of_spelt {d d' : Draft} (hspelt : EntriesSpelt n? entries entries')
    (h : readEntries .yaml d entries = .ok d') : readEntries .yaml d entries' = .ok d' := by
  -- By induction on the entries, with the draft generalized.
  induction hspelt generalizing d with
  | nil => exact h
  | @cons e e' _ _ he _ ih =>
    obtain ⟨k, v⟩ := e
    obtain ⟨k', v'⟩ := e'
    rw [readEntries] at h ⊢
    split at h
    · cases h
    next key hkey =>
      rw [text_of_spelt he.1 hkey]
      dsimp only
      split at h
      · cases h
      next draft hread =>
        rw [readEntry_of_spelt hn? he.2 hread]
        exact ih h

include hn? in
/-- A package is read as it was before. -/
theorem packageOf_of_spelt {p : Package} (hspelt : v.Spelt n? v')
    (h : packageOf .yaml v = .ok p) : packageOf .yaml v' = .ok p := by
  rw [packageOf_yaml_eq_ok_iff] at h ⊢
  obtain ⟨entries, hmap, d, hread, hp⟩ := h
  obtain ⟨entries', hmap', hentries⟩ := (hmap ▸ hspelt.untagged).exists_map
  exact ⟨entries', hmap', d, readEntries_of_spelt hn? hentries hread, hp⟩

/-- The value of a key that comes first. -/
theorem get?_cons_self (key : String) (v : Value) (rest : List (Value × Value)) :
    Value.get? ((.text key, v) :: rest) key = some v := by
  simp [Value.get?]

/-- An entry with another key is passed over. -/
theorem get?_cons_of_ne {k : Value} {key : String} (hk : k ≠ .text key) (v : Value)
    (rest : List (Value × Value)) : Value.get? ((k, v) :: rest) key = Value.get? rest key := by
  rw [Value.get?, Value.get?, List.find?_cons_of_neg]
  cases k with
  | text s => simpa using fun heq : s = key => hk (heq ▸ rfl)
  | _ => simp

/-- What is under a key is found under it as long as the key is no row of digits. -/
theorem rel_get?_of_spelt {key : String} (hkey : ∀ n, String.ofList (Nat.toDigits 10 n) ≠ key)
    (hspelt : EntriesSpelt n? entries entries') :
    Option.Rel (Value.Spelt n?) (Value.get? entries key) (Value.get? entries' key) := by
  -- By induction on the entries. The key itself is in no other spelling, as it is not a number.
  induction hspelt with
  | nil => exact .none
  | @cons e e' _ _ he _ ih =>
    obtain ⟨k, v⟩ := e
    obtain ⟨k', v'⟩ := e'
    obtain ⟨hk, hv⟩ : k.Spelt n? k' ∧ v.Spelt n? v' := he
    by_cases hself : k = .text key
    · subst hself
      obtain rfl := hk.eq_text
      rw [get?_cons_self, get?_cons_self]
      exact .some hv
    · have hother : k' ≠ .text key := by
        rintro rfl
        cases hk with
        | refl => exact hself rfl
        | @digits n _ => exact hkey n rfl
      rw [get?_cons_of_ne hself, get?_cons_of_ne hother]
      exact ih

/-- What the manifest lists is spelt in the other way as well. -/
theorem entriesOf_of_spelt (hspelt : v.Spelt n? v') :
    (entriesOf .yaml v).Spelt n? (entriesOf .yaml v') := by
  -- The key of the entries is not a row of digits.
  have hdigits (n : Nat) : String.ofList (Nat.toDigits 10 n) ≠ "packages" := by
    intro heq
    have hmem : 'p' ∈ Nat.toDigits 10 n := by
      rw [String.ofList_injective (heq.trans String.ofList_toList.symm)]
      decide
    exact absurd (Nat.isDigit_of_mem_toDigits (by decide) (by decide) hmem) (by decide)
  have huntagged := hspelt.untagged
  rw [entriesOf, entriesOf, plain_yaml, plain_yaml]
  generalize v.untagged = u at huntagged ⊢
  generalize v'.untagged = u' at huntagged ⊢
  cases u with
  | map entries =>
    obtain ⟨entries', rfl, hentries⟩ := huntagged.exists_map
    dsimp only
    have hget := rel_get?_of_spelt hdigits hentries
    generalize Value.get? entries "packages" = o at hget ⊢
    generalize Value.get? entries' "packages" = o' at hget ⊢
    cases hget with
    | some h => exact h
    | none => exact hspelt
  | _ => cases huntagged <;> exact hspelt

include hn? in
/-- The digits of a number may stand in a manifest as a text: its packages are the
same. -/
theorem packagesOf_of_spelt {packages : List Package} (hspelt : v.Spelt n? v')
    (h : packagesOf .yaml v = .ok packages) : packagesOf .yaml v' = .ok packages := by
  rw [packagesOf_yaml_eq_ok_iff] at h ⊢
  have huntagged := (entriesOf_of_spelt hspelt).untagged
  -- A list of as many items, or nothing in both.
  rcases h with ⟨items, hitems, hpackages⟩ | ⟨hnull, rfl⟩
  · obtain ⟨items', hitems', hspelt'⟩ := (hitems ▸ huntagged).exists_list
    refine .inl ⟨items', hitems', ?_⟩
    clear hitems hitems'
    induction hspelt' generalizing packages with
    | nil => exact hpackages
    | cons hv _ ih =>
      cases hpackages with
      | cons hp hps => exact .cons (packageOf_of_spelt hn? hv hp) (ih hps)
  · exact .inr ⟨(hnull ▸ huntagged).eq_null, rfl⟩

end Promotion.Manifest
