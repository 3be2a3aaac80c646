import Mathlib.Data.List.Perm.Subperm
import Promotion.Proofs.Manifest.Document

/-!
# `Promotion.Proofs.Manifest.Entries`: what the entries of a manifest must hold

An entry is read key by key into a draft, in the order in which its keys stand.
Here that comes down to what stands under the keys: an entry is read exactly when
it describes a package, and as that package.

* `Value.Common`: the values that both formats can express.
* `Describes`: what an entry must hold, and the package it holds then.
* `drafts_concat_iff`: one more key changes the field of that key only.
* `readEntries_eq_ok_iff`: so reading all keys gives each field what stands under
  its key.
* `packageOf_map_eq_ok_iff`: a mapping is read as the package that it describes.
* `Lists`, `lists_entriesOf`: the value that should be the list of entries.

That the keys of a mapping differ is not checked where an entry is read.
It is what reading a document leaves behind (`Value.Loaded`), and
`Lists.unique` and `drafts_concat_iff` rest on it.
-/

set_option autoImplicit false

namespace Promotion

namespace Value

/-- A value that can stand in documents of both formats: there are no tags in it,
and the keys of its mappings are texts. -/
inductive Common : Value → Prop
  | null : Common .null
  | bool (b : Bool) : Common (.bool b)
  | int (n : Int) : Common (.int n)
  | float (x : Decimal.Binary64) : Common (.float x)
  | text (s : String) : Common (.text s)
  | list {items : List Value} (h : ∀ v ∈ items, Common v) : Common (.list items)
  | map {entries : List (Value × Value)} (hkeys : ∀ e ∈ entries, ∃ key, e.1 = .text key)
      (h : ∀ e ∈ entries, Common e.2) : Common (.map entries)

variable {entries : List (Value × Value)} {items : List Value} {v w : Value} {key : String}

/-- Texts are the same when they are equal. -/
theorem same_text (s s' : String) : (Value.text s).same (.text s') = (s == s') := by
  rw [same]

/-- The items of a list that both formats have. -/
theorem Common.of_mem_list (h : Common (.list items)) (hv : v ∈ items) : v.Common := by
  cases h with
  | list h => exact h v hv

/-- The values of a mapping that both formats have. -/
theorem Common.of_mem_map (h : Common (.map entries)) (hv : (.text key, v) ∈ entries) :
    v.Common := by
  cases h with
  | map _ h => exact h _ hv

/-- The keys of such a mapping are texts. -/
theorem Common.key_of_mem (h : Common (.map entries)) : ∀ e ∈ entries, ∃ key, e.1 = .text key := by
  cases h with
  | map hkeys _ => exact hkeys

/-- There is one value under a key. -/
theorem KeysDiffer.eq_of_mem (h : KeysDiffer entries) (hv : (.text key, v) ∈ entries)
    (hw : (.text key, w) ∈ entries) : v = w := by
  induction entries with
  | nil => cases hv
  | cons e entries ih =>
    obtain ⟨hfirst, hrest⟩ := List.pairwise_cons.mp h
    -- With the key behind it, the first entry has another key.
    have hother {x : Value} (hx : (.text key, x) ∈ entries) : e.1 ≠ .text key := by
      intro heq
      have hdiffer := hfirst _ hx
      rw [heq, same_text, beq_self_eq_true] at hdiffer
      cases hdiffer
    rcases List.mem_cons.mp hv with hfirstv | hrestv
    · rcases List.mem_cons.mp hw with hfirstw | hrestw
      · exact (Prod.mk.inj (hfirstv.trans hfirstw.symm)).2
      · exact absurd (congrArg Prod.fst hfirstv.symm) (hother hrestw)
    · rcases List.mem_cons.mp hw with hfirstw | hrestw
      · exact absurd (congrArg Prod.fst hfirstw.symm) (hother hrestv)
      · exact ih hrest hrestv hrestw

end Value

namespace Manifest

open Value (Common Loaded KeysDiffer)

/-! ### What is asked of an entry -/

/-- The version that a value stands for: a text that is read as one, or a whole
number that is not negative and that 64 bits can hold. -/
inductive Denotes : Value → Version → Prop
  | text {s : String} {version : Version} (h : Version.parse s = .ok version) :
    Denotes (.text s) version
  | number {n : Nat} (h : n < Nat.pow 2 64) : Denotes (.int n) (.ofNat n)

/-- The snapshot flag that entries of a mapping state: none, or a truth value. -/
inductive States (entries : List (Value × Value)) : Option Bool → Prop
  | absent (h : ∀ v, (.text "snapshot", v) ∉ entries) : States entries none
  | null (h : (.text "snapshot", .null) ∈ entries) : States entries none
  | bool {b : Bool} (h : (.text "snapshot", .bool b) ∈ entries) : States entries (some b)

/-- An entry describes a package: it has its name, its version, and its snapshot
flag unless that follows the qualifier of the version. -/
inductive Describes : Value → Package → Prop
  | intro {entries : List (Value × Value)} {name : String} {v : Value} {version : Version}
    {flag : Option Bool} (hname : (.text "name", .text name) ∈ entries)
    (hv : (.text "version", v) ∈ entries) (hversion : Denotes v version)
    (hflag : States entries flag) :
    Describes (.map entries) ⟨name, version, flag.getD version.isSnapshot⟩

/-- The value that should be the list of entries: the one under `packages`, or the
value itself where there is none. -/
inductive Lists : Value → Value → Prop
  | under {entries : List (Value × Value)} {list : Value}
    (h : (.text "packages", list) ∈ entries) : Lists (.map entries) list
  | itself {v : Value} (h : ∀ entries list, v = .map entries →
    (.text "packages", list) ∉ entries) : Lists v v

/-! ### Fields -/

variable {α : Type} {format : Format} {entries : List (Value × Value)} {key : String}

/-- What is read under a key of a mapping, if the key is there. -/
inductive Field (read : Value → Except Misfit α) (key : String) (entries : List (Value × Value)) :
    Option α → Prop
  | absent (h : ∀ v, (.text key, v) ∉ entries) : Field read key entries none
  | present {v : Value} {a : α} (h : (.text key, v) ∈ entries) (hread : read v = .ok a) :
    Field read key entries (some a)

namespace Field

variable {read : Value → Except Misfit α} {a? : Option α}

/-- A field without an entry is not there. -/
theorem eq_none_iff (h : ∀ v, (.text key, v) ∉ entries) : Field read key entries a? ↔ a? = none := by
  constructor
  · rintro (_ | ⟨hv, _⟩)
    · rfl
    · exact absurd hv (h _)
  · rintro rfl
    exact .absent h

/-- A field is what one of its entries is read as. -/
theorem eq_some_iff {a : α} :
    Field read key entries (some a) ↔ ∃ v, (.text key, v) ∈ entries ∧ read v = .ok a := by
  constructor
  · rintro (_ | ⟨hv, hread⟩)
    exact ⟨_, hv, hread⟩
  · rintro ⟨v, hv, hread⟩
    exact .present hv hread

/-- An entry with another key is no part of a field. -/
theorem concat_of_ne {k : String} (hk : k ≠ key) (v : Value) :
    Field read key (entries ++ [(.text k, v)]) a? ↔ Field read key entries a? := by
  have hmem (w : Value) : (.text key, w) ∈ entries ++ [(.text k, v)] ↔ (.text key, w) ∈ entries := by
    simp [Ne.symm hk]
  constructor
  · rintro (h | ⟨h, hread⟩)
    · exact .absent fun w hw => h w ((hmem w).mpr hw)
    · exact .present ((hmem _).mp h) hread
  · rintro (h | ⟨h, hread⟩)
    · exact .absent fun w hw => h w ((hmem w).mp hw)
    · exact .present ((hmem _).mpr h) hread

/-- The only entry with the key gives the field. -/
theorem concat_self (h : ∀ v, (.text key, v) ∉ entries) (v : Value) :
    Field read key (entries ++ [(.text key, v)]) a? ↔ ∃ a, read v = .ok a ∧ a? = some a := by
  constructor
  · rintro (habsent | ⟨hw, hread⟩)
    · exact absurd (by simp) (habsent v)
    · rcases List.mem_append.mp hw with hw | hw
      · exact absurd hw (h _)
      · cases List.mem_singleton.mp hw
        exact ⟨_, hread, rfl⟩
  · rintro ⟨a, hread, rfl⟩
    exact .present (by simp) hread

end Field

/-- A draft holds what is read under the three keys of an entry. -/
structure Drafts (format : Format) (entries : List (Value × Value)) (d : Draft) : Prop where
  name : Field (text format · "a string") "name" entries d.name
  version : Field (Version.ofValue format) "version" entries d.version
  snapshot : Field (flag format) "snapshot" entries d.snapshot

/-- The entries are read one after the other. -/
theorem readEntries_append (format : Format) (d : Draft) (front back : List (Value × Value)) :
    readEntries format d (front ++ back)
      = readEntries format d front >>= fun d => readEntries format d back := by
  -- By induction on the entries in front, with the draft generalized.
  induction front generalizing d with
  | nil => rfl
  | cons e front ih =>
    obtain ⟨k, v⟩ := e
    rw [List.cons_append, readEntries, readEntries]
    cases text format k "field identifier" with
    | error e => rfl
    | ok key =>
      dsimp only
      cases readEntry format d key v with
      | error e => rfl
      | ok d => exact ih d

/-- One entry is read by itself. -/
theorem readEntries_single (format : Format) (d : Draft) (v : Value) :
    readEntries format d [(.text key, v)] = readEntry format d key v := by
  simp only [readEntries, text_text]
  cases readEntry format d key v <;> rfl

section Concat

variable {d' : Draft} {v : Value}

/-- With a name at the end, the draft before had none. -/
theorem drafts_concat_name (hnew : ∀ w, (.text "name", w) ∉ entries) :
    Drafts format (entries ++ [(.text "name", v)]) d' ↔
      ∃ d, Drafts format entries d ∧ readEntry format d "name" v = .ok d' := by
  constructor
  · intro h
    obtain ⟨s, hs, heq⟩ := (Field.concat_self hnew v).mp h.name
    -- Before its entry the draft had no name: the key is new.
    refine ⟨{ d' with name := none }, ⟨.absent hnew, (Field.concat_of_ne (by decide) v).mp h.version,
      (Field.concat_of_ne (by decide) v).mp h.snapshot⟩, ?_⟩
    simp [readEntry, hs, Except.map, ← heq]
  · rintro ⟨d, hd, hread⟩
    have hnone : d.name = none := (Field.eq_none_iff hnew).mp hd.name
    simp only [readEntry, hnone, if_true, Option.isSome_none, Bool.false_eq_true, if_false] at hread
    obtain ⟨s, hs, rfl⟩ := map_eq_ok_iff.mp hread
    exact ⟨(Field.concat_self hnew v).mpr ⟨s, hs, rfl⟩,
      (Field.concat_of_ne (by decide) v).mpr hd.version,
      (Field.concat_of_ne (by decide) v).mpr hd.snapshot⟩

/-- With a version at the end, the draft before had none. -/
theorem drafts_concat_version (hnew : ∀ w, (.text "version", w) ∉ entries) :
    Drafts format (entries ++ [(.text "version", v)]) d' ↔
      ∃ d, Drafts format entries d ∧ readEntry format d "version" v = .ok d' := by
  have hname : "version" ≠ "name" := by decide
  constructor
  · intro h
    obtain ⟨w, hw, heq⟩ := (Field.concat_self hnew v).mp h.version
    -- Before its entry the draft had no version.
    refine ⟨{ d' with version := none }, ⟨(Field.concat_of_ne hname v).mp h.name, .absent hnew,
      (Field.concat_of_ne (by decide) v).mp h.snapshot⟩, ?_⟩
    simp [readEntry, hw, Except.map, ← heq]
  · rintro ⟨d, hd, hread⟩
    have hnone : d.version = none := (Field.eq_none_iff hnew).mp hd.version
    simp only [readEntry, hname, hnone, if_true, Option.isSome_none, Bool.false_eq_true,
      if_false] at hread
    obtain ⟨w, hw, rfl⟩ := map_eq_ok_iff.mp hread
    exact ⟨(Field.concat_of_ne hname v).mpr hd.name,
      (Field.concat_self hnew v).mpr ⟨w, hw, rfl⟩,
      (Field.concat_of_ne (by decide) v).mpr hd.snapshot⟩

/-- With a snapshot flag at the end, the draft before had none. -/
theorem drafts_concat_snapshot (hnew : ∀ w, (.text "snapshot", w) ∉ entries) :
    Drafts format (entries ++ [(.text "snapshot", v)]) d' ↔
      ∃ d, Drafts format entries d ∧ readEntry format d "snapshot" v = .ok d' := by
  have hname : "snapshot" ≠ "name" := by decide
  have hversion : "snapshot" ≠ "version" := by decide
  constructor
  · intro h
    obtain ⟨b, hb, heq⟩ := (Field.concat_self hnew v).mp h.snapshot
    -- Before its entry the draft had no flag.
    refine ⟨{ d' with snapshot := none }, ⟨(Field.concat_of_ne hname v).mp h.name,
      (Field.concat_of_ne hversion v).mp h.version, .absent hnew⟩, ?_⟩
    simp [readEntry, hb, Except.map, ← heq]
  · rintro ⟨d, hd, hread⟩
    have hnone : d.snapshot = none := (Field.eq_none_iff hnew).mp hd.snapshot
    simp only [readEntry, hname, hversion, hnone, if_true, Option.isSome_none, Bool.false_eq_true,
      if_false] at hread
    obtain ⟨b, hb, rfl⟩ := map_eq_ok_iff.mp hread
    exact ⟨(Field.concat_of_ne hname v).mpr hd.name,
      (Field.concat_of_ne hversion v).mpr hd.version,
      (Field.concat_self hnew v).mpr ⟨b, hb, rfl⟩⟩

/-- An entry with any other key is passed over. -/
theorem drafts_concat_other (hname : key ≠ "name") (hversion : key ≠ "version")
    (hsnapshot : key ≠ "snapshot") :
    Drafts format (entries ++ [(.text key, v)]) d' ↔
      ∃ d, Drafts format entries d ∧ readEntry format d key v = .ok d' := by
  -- Any other entry is passed over.
  have hread (d : Draft) : readEntry format d key v = .ok d := by
    simp [readEntry, hname, hversion, hsnapshot]
  constructor
  · intro h
    exact ⟨d', ⟨(Field.concat_of_ne hname v).mp h.name,
      (Field.concat_of_ne hversion v).mp h.version,
      (Field.concat_of_ne hsnapshot v).mp h.snapshot⟩, hread d'⟩
  · rintro ⟨d, hd, heq⟩
    obtain rfl : d = d' := Except.ok.inj ((hread d).symm.trans heq)
    exact ⟨(Field.concat_of_ne hname v).mpr hd.name,
      (Field.concat_of_ne hversion v).mpr hd.version,
      (Field.concat_of_ne hsnapshot v).mpr hd.snapshot⟩

/-- One more entry, whose key is new, changes the field of its key only. -/
theorem drafts_concat_iff (hnew : ∀ w, (.text key, w) ∉ entries) :
    Drafts format (entries ++ [(.text key, v)]) d' ↔
      ∃ d, Drafts format entries d ∧ readEntry format d key v = .ok d' := by
  -- The three fields that are read, and all others.
  by_cases hname : key = "name"
  · subst hname
    exact drafts_concat_name hnew
  by_cases hversion : key = "version"
  · subst hversion
    exact drafts_concat_version hnew
  by_cases hsnapshot : key = "snapshot"
  · subst hsnapshot
    exact drafts_concat_snapshot hnew
  · exact drafts_concat_other hname hversion hsnapshot

end Concat

/-- The entries of a mapping are read into the fields that stand under its keys. -/
theorem readEntries_eq_ok_iff {d : Draft} (hkeys : ∀ e ∈ entries, ∃ key, e.1 = .text key)
    (hdiffer : KeysDiffer entries) :
    readEntries format {} entries = .ok d ↔ Drafts format entries d := by
  -- The last entry is read into the draft of those in front of it, and its key is new.
  induction entries using List.reverseRecOn generalizing d with
  | nil =>
    constructor
    · rintro ⟨⟩
      exact ⟨.absent nofun, .absent nofun, .absent nofun⟩
    · rintro ⟨hname, hversion, hsnapshot⟩
      have hnone {α : Type} {read : Value → Except Misfit α} {k : String} {a? : Option α}
          (h : Field read k [] a?) : a? = none :=
        (Field.eq_none_iff fun _ => List.not_mem_nil).mp h
      obtain ⟨name, version, snapshot⟩ := d
      obtain rfl : name = none := hnone hname
      obtain rfl : version = none := hnone hversion
      obtain rfl : snapshot = none := hnone hsnapshot
      rfl
  | append_singleton entries e ih =>
    obtain ⟨k, v⟩ := e
    rw [List.forall_mem_append, List.forall_mem_singleton] at hkeys
    obtain ⟨hkeys, key, hk⟩ := hkeys
    obtain rfl : k = .text key := hk
    obtain ⟨hdiffer, -, hlast⟩ := List.pairwise_append.mp hdiffer
    have hnew : ∀ w, (.text key, w) ∉ entries := by
      intro w hw
      have hsame := hlast _ hw _ (List.mem_singleton_self _)
      rw [Value.same_text, beq_self_eq_true] at hsame
      cases hsame
    rw [readEntries_append, bind_eq_ok_iff, drafts_concat_iff hnew]
    simp only [ih hkeys hdiffer, readEntries_single]

/-! ### Entries -/

variable {v : Value} {p : Package}

/-- Of the values that both formats have, only texts are read as texts. -/
theorem text_eq_ok_iff {s expected : String} (hv : v.Common) :
    text format v expected = .ok s ↔ v = .text s := by
  cases hv with
  | text s' => simp
  | _ => cases format <;> simp [text, plain, Value.untagged]

/-- A flag is null or a truth value. -/
theorem flag_eq_ok_iff {b : Option Bool} (hv : v.Common) :
    flag format v = .ok b ↔ v = .null ∧ b = none ∨ ∃ c, v = .bool c ∧ b = some c := by
  cases hv with
  | null => simp [flag, eq_comm]
  | bool c => simp [eq_comm]
  | _ => cases format <;> simp [flag, plain, Value.untagged]

/-- A value is read as the version it denotes. -/
theorem ofValue_eq_ok_iff {version : Version} (hloaded : v.Loaded) :
    Version.ofValue format v = .ok version ↔ Denotes v version := by
  constructor
  · intro h
    -- Texts and whole numbers are all that a version is read from.
    cases hloaded with
    | text s =>
      simp only [Version.ofValue] at h
      split at h
      next hparse =>
        cases h
        exact .text hparse
      · cases h
    | @int n hn =>
      simp only [Version.ofValue] at h
      split at h
      · cases h
      next hpositive =>
        cases h
        obtain ⟨m, rfl⟩ := Int.eq_ofNat_of_zero_le (Int.not_lt.mp hpositive)
        exact .number (Int.ofNat_lt.mp hn)
    | _ => cases h
  · intro h
    cases h with
    | text hparse => simp [Version.ofValue, hparse]
    | @number n hn =>
      have hpositive : ¬ (n : Int) < 0 := by omega
      simp [Version.ofValue, hpositive]

/-- A draft is complete with a name and a version. -/
theorem package_eq_ok_iff {d : Draft} : d.package = .ok p ↔
    ∃ name version, d.name = some name ∧ d.version = some version ∧
      p = .ofEntry name version (d.snapshot.getD none) := by
  unfold Draft.package
  split
  next hname => simp [hname]
  next hname hversion => simp [hname, hversion]
  next hname hversion => simp [hname, hversion, eq_comm]

/-- The snapshot flag is stated as it is read. -/
theorem states_iff (format : Format) (hcommon : Common (.map entries)) {b : Option Bool} :
    States entries b ↔ ∃ b?, Field (flag format) "snapshot" entries b? ∧ b = b?.getD none := by
  constructor
  · -- No entry and an entry of null state the same.
    rintro (h | h | h)
    · exact ⟨none, .absent h, rfl⟩
    · exact ⟨some none, .present h ((flag_eq_ok_iff .null).mpr (.inl ⟨rfl, rfl⟩)), rfl⟩
    · exact ⟨some (some _), .present h (flag_bool _), rfl⟩
  · rintro ⟨b?, h | ⟨h, hread⟩, rfl⟩
    · exact .absent h
    · obtain ⟨rfl, rfl⟩ | ⟨c, rfl, rfl⟩ := (flag_eq_ok_iff (hcommon.of_mem_map h)).mp hread
      · exact .null h
      · exact .bool h

/-- A mapping is read as the package that it describes. -/
theorem packageOf_map_eq_ok_iff (hcommon : Common (.map entries)) (hloaded : Loaded (.map entries)) :
    packageOf format (.map entries) = .ok p ↔ Describes (.map entries) p := by
  have hread : packageOf format (.map entries)
      = readEntries format {} entries >>= Draft.package := by
    simp [packageOf]
  rw [hread, bind_eq_ok_iff]
  simp only [readEntries_eq_ok_iff hcommon.key_of_mem hloaded.keysDiffer, package_eq_ok_iff]
  constructor
  · -- A draft becomes a package when it has a name and a version; the flag may be missing.
    rintro ⟨d, hd, name, version, hname, hversion, rfl⟩
    obtain ⟨v, hv, htext⟩ := Field.eq_some_iff.mp (hname ▸ hd.name)
    obtain rfl := (text_eq_ok_iff (hcommon.of_mem_map hv)).mp htext
    obtain ⟨w, hw, hdenotes⟩ := Field.eq_some_iff.mp (hversion ▸ hd.version)
    exact .intro hv hw ((ofValue_eq_ok_iff (hloaded.of_mem_map hw)).mp hdenotes)
      ((states_iff format hcommon).mpr ⟨d.snapshot, hd.snapshot, rfl⟩)
  · rintro ⟨hname, hv, hversion, hflag⟩
    obtain ⟨b?, hb, rfl⟩ := (states_iff format hcommon).mp hflag
    exact ⟨⟨some _, some _, b?⟩, ⟨.present hname (text_text _ _),
      .present hv ((ofValue_eq_ok_iff (hloaded.of_mem_map hv)).mpr hversion), hb⟩,
      _, _, rfl, rfl, rfl⟩

/-- Nothing but a mapping is read as a package, unless it is a list of fields in
JSON. -/
theorem eq_map_or_list_of_packageOf (hv : v.Common) (h : packageOf format v = .ok p) :
    (∃ entries, v = .map entries) ∨ format = .json ∧ ∃ fields, v = .list fields := by
  cases hv with
  | @map entries => exact .inl ⟨entries, rfl⟩
  | @list items =>
    cases format with
    | yaml => cases h
    | json => exact .inr ⟨rfl, items, rfl⟩
  | _ => cases format <;> cases h

/-! ### The list of entries -/

variable {list : Value}

/-- A document lists one value only. -/
theorem Lists.unique {list' : Value} (hv : v.Loaded) (h : Lists v list) (h' : Lists v list') :
    list = list' := by
  -- A mapping has the key once at most, and what has it is not listed itself.
  cases h with
  | under h =>
    cases h' with
    | under h' => exact hv.keysDiffer.eq_of_mem h h'
    | itself h' => exact absurd h (h' _ _ rfl)
  | itself h =>
    cases h' with
    | under h' => exact absurd h' (h _ _ rfl)
    | itself _ => rfl

/-- The entries of a manifest are what its document lists. -/
theorem lists_entriesOf (format : Format) (hv : v.Common) : Lists v (entriesOf format v) := by
  cases hv with
  | @map entries =>
    simp only [entriesOf, plain_map]
    cases hget : Value.get? entries "packages" with
    | none =>
      -- What is not found under the key is nowhere in the mapping.
      refine .itself fun entries' list heq hmem => ?_
      cases heq
      rw [Value.get?, Option.map_eq_none_iff, List.find?_eq_none] at hget
      simpa using hget _ hmem
    | some list =>
      obtain ⟨⟨k, list⟩, hfind, rfl⟩ := Option.map_eq_some_iff.mp hget
      have hkey := List.find?_some hfind
      have hmem := List.mem_of_find?_eq_some hfind
      cases k with
      | text s =>
        obtain rfl : s = "packages" := beq_iff_eq.mp hkey
        exact .under hmem
      | _ => cases hkey
  | _ => cases format <;> exact .itself fun _ _ heq => by cases heq

/-- What a document of both formats lists is a value of both. -/
theorem Lists.common (h : Lists v list) (hv : v.Common) : list.Common := by
  cases h with
  | under h => exact hv.of_mem_map h
  | itself _ => exact hv

/-- What is listed is part of the document. -/
theorem Lists.loaded (h : Lists v list) (hv : v.Loaded) : list.Loaded := by
  cases h with
  | under h => exact hv.of_mem_map h
  | itself _ => exact hv

end Manifest

end Promotion
