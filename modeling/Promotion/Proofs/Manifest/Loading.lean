import Promotion.Proofs.Manifest.Entries

/-!
# `Promotion.Proofs.Manifest.Loading`: manifests are loaded as a whole

A manifest whose entries are mappings is loaded when each of them describes a
package, and then it holds those packages in the order of the entries. One entry
that describes none is enough to refuse it. The two formats agree: a manifest
that is the same value in both, whatever the order of its keys, holds the same
packages in both.

* `Value.Agree`: the same value, as it came out of two documents.
* `Describes.of_agree`, `Lists.of_agree`: such values have the same entries, and
  these describe the same packages.
* `LoadsAllOrNone`, `loadsAllOrNone`: what loading comes to, by the value that
  should be the list of entries.
* `manifests_load_all_or_none`: both halves, for every document.

A mapping may list its keys in any order, and reading is not meant to depend on
it. So nothing here follows the order of the entries of a mapping:
`packageOf_map_eq_ok_iff` has already turned reading into `Describes`, which only
asks what stands under a key.
-/

set_option autoImplicit false

namespace Promotion

namespace Value

/-! ### The same value, written in another way -/

variable {entries entries' : List (Value × Value)} {items items' : List Value} {v v' : Value}
  {key : String}

/-- Lists are the same item by item. -/
theorem sameItems_iff :
    sameItems items items' = true ↔ List.Forall₂ (fun v v' => v.same v' = true) items items' := by
  -- By induction on the first list, in the cases of the second one.
  induction items generalizing items' with
  | nil => cases items' <;> simp [sameItems]
  | cons v items ih => cases items' <;> simp [sameItems, ih]

/-- An entry is the same as one of several. -/
theorem sameEntry_iff {k : Value} :
    sameEntry k v entries = true ↔ ∃ e ∈ entries, k.same e.1 = true ∧ v.same e.2 = true := by
  induction entries with
  | nil => simp [sameEntry]
  | cons e entries ih =>
    obtain ⟨l, w⟩ := e
    rw [sameEntry, Bool.or_eq_true, Bool.and_eq_true, ih, List.exists_mem_cons_iff]

/-- Entries are the same as others when each of them is the same as one of those. -/
theorem sameEntries_iff :
    sameEntries entries entries' = true ↔
      ∀ e ∈ entries, ∃ e' ∈ entries', e.1.same e'.1 = true ∧ e.2.same e'.2 = true := by
  induction entries with
  | nil => simp [sameEntries]
  | cons e entries ih =>
    obtain ⟨k, v⟩ := e
    rw [sameEntries, Bool.and_eq_true, ih, sameEntry_iff, List.forall_mem_cons]

/-- Only a text is the same as a text. -/
theorem eq_text_of_same {s : String} (h : (Value.text s).same v = true) : v = .text s := by
  cases v with
  | text s' =>
    rw [same_text, beq_iff_eq] at h
    rw [h]
  | _ => simp [same] at h

/-- The keys of a mapping differ as values. -/
theorem nodup_keys (hcommon : Common (.map entries)) (hdiffer : KeysDiffer entries) :
    (entries.map Prod.fst).Nodup := by
  refine List.pairwise_map.mpr (hdiffer.imp_of_mem fun {e e'} he _ hsame heq => ?_)
  obtain ⟨k, hk⟩ := hcommon.key_of_mem e he
  rw [← heq, hk, same_text, beq_self_eq_true] at hsame
  cases hsame

/-- Two values that came out of documents, can stand in both formats and are the
same. -/
structure Agree (v v' : Value) : Prop where
  common : v.Common
  common' : v'.Common
  loaded : v.Loaded
  loaded' : v'.Loaded
  same : v.same v' = true

namespace Agree

/-- What agrees with a text is that text. -/
theorem eq_text {s : String} (h : Agree (.text s) v') : v' = .text s :=
  eq_text_of_same h.same

/-- What agrees with null is null. -/
theorem eq_null (h : Agree .null v') : v' = .null := by
  have hsame := h.same
  cases v' with
  | null => rfl
  | _ => simp [Value.same] at hsame

/-- What agrees with a truth value is that truth value. -/
theorem eq_bool {b : Bool} (h : Agree (.bool b) v') : v' = .bool b := by
  have hsame := h.same
  cases v' with
  | bool b' => rw [Value.same, beq_iff_eq] at hsame; rw [hsame]
  | _ => simp [Value.same] at hsame

/-- What agrees with a whole number is that number. -/
theorem eq_int {n : Int} (h : Agree (.int n) v') : v' = .int n := by
  have hsame := h.same
  cases v' with
  | int n' => rw [Value.same, beq_iff_eq] at hsame; rw [hsame]
  | _ => simp [Value.same] at hsame

/-- What agrees with a mapping is a mapping. -/
theorem exists_map (h : Agree (.map entries) v') : ∃ entries', v' = .map entries' := by
  have hsame := h.same
  cases v' with
  | map entries' => exact ⟨entries', rfl⟩
  | _ => simp [Value.same] at hsame

/-- What agrees with a list is a list. -/
theorem exists_list (h : Agree (.list items) v') : ∃ items', v' = .list items' := by
  have hsame := h.same
  cases v' with
  | list items' => exact ⟨items', rfl⟩
  | _ => simp [Value.same] at hsame

/-- Lists that agree do so item by item. -/
theorem forall₂ (h : Agree (.list items) (.list items')) : List.Forall₂ Agree items items' := by
  have hsame := h.same
  rw [Value.same, sameItems_iff, List.forall₂_iff_get] at hsame
  refine List.forall₂_iff_get.mpr ⟨hsame.1, fun i hi hi' => ?_⟩
  have hv := List.get_mem items ⟨i, hi⟩
  have hv' := List.get_mem items' ⟨i, hi'⟩
  exact ⟨h.common.of_mem_list hv, h.common'.of_mem_list hv', h.loaded.of_mem_list hv,
    h.loaded'.of_mem_list hv', hsame.2 i hi hi'⟩

/-- A key of the first of two mappings that agree has a value in the second one. -/
theorem exists_right (h : Agree (.map entries) (.map entries')) (hv : (.text key, v) ∈ entries) :
    ∃ v', (.text key, v') ∈ entries' ∧ Agree v v' := by
  have hsame := h.same
  rw [Value.same, Bool.and_eq_true, sameEntries_iff] at hsame
  obtain ⟨⟨k, v'⟩, hv', hk, hsame⟩ := hsame.2 _ hv
  obtain rfl : k = .text key := eq_text_of_same hk
  exact ⟨v', hv', h.common.of_mem_map hv, h.common'.of_mem_map hv', h.loaded.of_mem_map hv,
    h.loaded'.of_mem_map hv', hsame⟩

/-- A key of the second of two mappings that agree has a value in the first one. -/
theorem exists_left (h : Agree (.map entries) (.map entries')) (hv' : (.text key, v') ∈ entries') :
    ∃ v, (.text key, v) ∈ entries ∧ Agree v v' := by
  have hsubset : entries.map Prod.fst ⊆ entries'.map Prod.fst := by
    intro k hk
    obtain ⟨⟨k, v⟩, he, rfl⟩ := List.mem_map.mp hk
    obtain ⟨key, hkey⟩ := h.common.key_of_mem _ he
    obtain rfl : k = .text key := hkey
    obtain ⟨v', hv', -⟩ := h.exists_right he
    exact List.mem_map.mpr ⟨_, hv', rfl⟩
  -- Both mappings are equally long and no key comes twice, so the keys are the same.
  have hlength : (entries'.map Prod.fst).length ≤ (entries.map Prod.fst).length := by
    have hsame := h.same
    rw [Value.same, Bool.and_eq_true, beq_iff_eq] at hsame
    rw [List.length_map, List.length_map, hsame.1]
  have hperm := (List.subperm_of_subset (nodup_keys h.common h.loaded.keysDiffer)
    hsubset).perm_of_length_le hlength
  obtain ⟨⟨k, v⟩, hv, hk⟩ := List.mem_map.mp (hperm.mem_iff.mpr (List.mem_map.mpr ⟨_, hv', rfl⟩))
  obtain rfl : k = .text key := hk
  -- What the other mapping has under the key is the value we started from.
  obtain ⟨v'', hv'', hagree⟩ := h.exists_right hv
  rw [h.loaded'.keysDiffer.eq_of_mem hv'' hv'] at hagree
  exact ⟨v, hv, hagree⟩

end Agree

/-- Being the same value goes both ways. The induction is on the values of a
mapping or a list; the keys of a mapping are settled by counting them. -/
theorem same_symm (hcommon : v.Common) : ∀ {v'}, Agree v v' → v'.same v = true := by
  -- By induction on the first value; being the same is computed from its first argument, so the
  -- symmetry has to be proved kind by kind.
  induction hcommon with
  | null =>
    intro v' h
    rw [h.eq_null]
    exact h.eq_null ▸ h.same
  | bool b =>
    intro v' h
    rw [h.eq_bool, same, beq_self_eq_true]
  | int n =>
    intro v' h
    rw [h.eq_int, same, beq_self_eq_true]
  | float x =>
    intro v' h
    have hsame := h.same
    cases v' with
    | float y =>
      rw [same, Decimal.Binary64.sameValue, Bool.or_eq_true, Bool.and_eq_true, beq_iff_eq] at hsame ⊢
      exact hsame.imp Eq.symm And.symm
    | _ => simp [same] at hsame
  | text s =>
    intro v' h
    rw [h.eq_text, same_text, beq_self_eq_true]
  | @list items _ ih =>
    intro v' h
    obtain ⟨items', rfl⟩ := h.exists_list
    have hagree := List.forall₂_iff_get.mp h.forall₂
    rw [same, sameItems_iff]
    refine List.forall₂_iff_get.mpr ⟨hagree.1.symm, fun i hi' hi => ?_⟩
    exact ih _ (List.get_mem items ⟨i, hi⟩) (hagree.2 i hi hi')
  | @map entries hkeys _ ih =>
    intro v' h
    obtain ⟨entries', rfl⟩ := h.exists_map
    have hsame := h.same
    rw [same, Bool.and_eq_true, beq_iff_eq] at hsame
    rw [same, Bool.and_eq_true, beq_iff_eq, sameEntries_iff]
    -- The mappings have as many entries, and their keys differ; so every entry of the second one
    -- has its partner in the first.
    refine ⟨hsame.1.symm, fun e' hv' => ?_⟩
    obtain ⟨k, v'⟩ := e'
    obtain ⟨key, hkey⟩ := h.common'.key_of_mem _ hv'
    obtain rfl : k = .text key := hkey
    obtain ⟨v, hv, hagree⟩ := h.exists_left hv'
    exact ⟨_, hv, by rw [same_text, beq_self_eq_true], ih _ hv hagree⟩

/-- Agreeing goes in both directions. -/
theorem Agree.symm (h : Agree v v') : Agree v' v :=
  ⟨h.common', h.common, h.loaded', h.loaded, same_symm h.common h⟩

end Value

namespace Manifest

open Value (Common Loaded Agree)

variable {format format' : Format} {text text' : String} {v v' list list' : Value} {p : Package}
  {packages : List Package} {entries entries' : List (Value × Value)} {items items' : List Value}

/-! ### The same entries -/

/-- Values that agree denote the same version. -/
theorem Denotes.of_agree {version : Version} (h : Agree v v') (hv : Denotes v version) :
    Denotes v' version := by
  cases hv with
  | text hparse =>
    rw [h.eq_text]
    exact .text hparse
  | number hn =>
    rw [h.eq_int]
    exact .number hn

/-- Entries that agree state the same flag. -/
theorem States.of_agree {flag : Option Bool} (h : Agree (.map entries) (.map entries'))
    (hflag : States entries flag) : States entries' flag := by
  -- The flag is not there, is null, or is a truth value; each is seen in the other mapping.
  cases hflag with
  | absent habsent =>
    refine .absent fun v' hv' => ?_
    obtain ⟨v, hv, -⟩ := h.exists_left hv'
    exact habsent v hv
  | null hnull =>
    obtain ⟨v', hv', hagree⟩ := h.exists_right hnull
    exact .null (hagree.eq_null ▸ hv')
  | bool hbool =>
    obtain ⟨v', hv', hagree⟩ := h.exists_right hbool
    exact .bool (hagree.eq_bool ▸ hv')

/-- Entries that are the same value describe the same package. -/
theorem Describes.of_agree (h : Agree v v') (hp : Describes v p) : Describes v' p := by
  cases hp with
  | intro hname hversion hdenotes hflag =>
    obtain ⟨entries', rfl⟩ := h.exists_map
    -- The name and the version are found under the same keys in the other mapping.
    obtain ⟨name', hname', hname⟩ := h.exists_right hname
    obtain ⟨version', hversion', hversion⟩ := h.exists_right hversion
    exact .intro (hname.eq_text ▸ hname') hversion' (hdenotes.of_agree hversion) (hflag.of_agree h)

/-- Manifests that are the same value have the same list of entries. -/
theorem Lists.of_agree (h : Agree v v') (hlists : Lists v list) :
    ∃ list', Lists v' list' ∧ Agree list list' := by
  cases hlists with
  | under hlist =>
    obtain ⟨entries', rfl⟩ := h.exists_map
    obtain ⟨list', hlist', hagree⟩ := h.exists_right hlist
    exact ⟨list', .under hlist', hagree⟩
  | itself hnone =>
    refine ⟨v', .itself fun entries' list' heq hlist' => ?_, h⟩
    -- A list of entries in the other mapping would have one in this mapping beside it.
    subst heq
    obtain ⟨entries, rfl⟩ := h.symm.exists_map
    obtain ⟨list, hlist, -⟩ := h.exists_left hlist'
    exact hnone entries list rfl hlist

/-! ### Lists of entries -/

/-- An entry may list its fields in JSON. There are no such entries, as in every
list of mappings. -/
def NoFields (format : Format) (items : List Value) : Prop :=
  format = .json → ∀ e ∈ items, ∀ fields, e ≠ .list fields

/-- An entry that does not list its fields is read as the package it describes. -/
theorem packageOf_eq_ok_iff (hcommon : v.Common) (hloaded : v.Loaded)
    (hfields : format = .json → ∀ fields, v ≠ .list fields) :
    packageOf format v = .ok p ↔ Describes v p := by
  constructor
  · -- A list of fields would be read as a package in JSON only, and is excluded.
    intro h
    rcases eq_map_or_list_of_packageOf hcommon h with ⟨entries, rfl⟩ | ⟨hjson, fields, rfl⟩
    · exact (packageOf_map_eq_ok_iff hcommon hloaded).mp h
    · exact absurd rfl (hfields hjson fields)
  · intro h
    cases h with
    | intro hname hversion hdenotes hflag =>
      exact (packageOf_map_eq_ok_iff hcommon hloaded).mpr (.intro hname hversion hdenotes hflag)

/-- A list is read as packages when each of its items describes one. -/
theorem packagesOfList_eq_ok_iff_describes (hcommon : Common (.list items))
    (hloaded : Loaded (.list items)) (hfields : NoFields format items) :
    packagesOfList format items = .ok packages ↔ List.Forall₂ Describes items packages := by
  have hread (e : Value) (he : e ∈ items) (p : Package) :
      packageOf format e = .ok p ↔ Describes e p :=
    packageOf_eq_ok_iff (hcommon.of_mem_list he) (hloaded.of_mem_list he)
      fun hjson => hfields hjson e he
  rw [packagesOfList_eq_ok_iff, List.forall₂_iff_get, List.forall₂_iff_get]
  simp only [hread _ (List.get_mem items _)]

/-- Each of the entries describes a package when together they describe some. -/
theorem exists_forall₂_iff {α β : Type} {R : α → β → Prop} {as : List α} :
    (∃ bs, List.Forall₂ R as bs) ↔ ∀ a ∈ as, ∃ b, R a b := by
  induction as with
  | nil => exact ⟨fun _ => nofun, fun _ => ⟨[], .nil⟩⟩
  | cons a as ih =>
    rw [List.forall_mem_cons, ← ih]
    constructor
    · rintro ⟨bs, _ | ⟨hb, hbs⟩⟩
      exact ⟨⟨_, hb⟩, _, hbs⟩
    · rintro ⟨⟨b, hb⟩, bs, hbs⟩
      exact ⟨b :: bs, .cons hb hbs⟩

/-! ### Whole manifests -/

/-- A manifest whose list of entries is a list is read entry by entry. -/
theorem packagesOf_list_eq (hcommon : v.Common) (hloaded : v.Loaded)
    (hlists : Lists v (.list items)) : packagesOf format v = packagesOfList format items := by
  unfold packagesOf
  rw [(lists_entriesOf format hcommon).unique hloaded hlists]
  simp

/-- A manifest whose list of entries is nothing holds no packages in YAML, and is
refused in JSON. -/
theorem packagesOf_null_eq_ok_iff (hcommon : v.Common) (hloaded : v.Loaded)
    (hlists : Lists v .null) :
    packagesOf format v = .ok packages ↔ format = .yaml ∧ packages = [] := by
  unfold packagesOf
  rw [(lists_entriesOf format hcommon).unique hloaded hlists]
  cases format <;> simp [plain, Value.untagged, eq_comm]

/-- Any other value instead of a list of entries is refused. -/
theorem packagesOf_ne_ok (hcommon : v.Common) (hloaded : v.Loaded) (hlists : Lists v list)
    (hlist : ∀ items, list ≠ .list items) (hnull : list ≠ .null) :
    packagesOf format v ≠ .ok packages := by
  unfold packagesOf
  rw [(lists_entriesOf format hcommon).unique hloaded hlists]
  cases hlists.common hcommon with
  | null => exact absurd rfl hnull
  | list _ => exact absurd rfl (hlist _)
  | _ => cases format <;> nofun

/-- A document that is no manifest is refused with a reason. -/
theorem exists_read_eq_unfit (h : valueOfText format text = .ok v)
    (hnone : ∀ packages, packagesOf format v ≠ .ok packages) :
    ∃ reason, read format text = .error (.unfit reason) := by
  cases hpackages : packagesOf format v with
  | ok packages => exact absurd hpackages (hnone packages)
  | error e => exact ⟨e.message, by simp only [read, h, hpackages, Except.mapError]⟩

/-- A manifest is read as packages when each of the entries it lists describes one. -/
theorem read_eq_ok_iff_describes (h : valueOfText format text = .ok v) (hcommon : v.Common)
    (hlists : Lists v (.list items)) (hfields : NoFields format items) :
    read format text = .ok packages ↔ List.Forall₂ Describes items packages := by
  have hloaded := loaded_of_valueOfText h
  rw [read_eq_ok_iff h, packagesOf_list_eq hcommon hloaded hlists,
    packagesOfList_eq_ok_iff_describes (hlists.common hcommon) (hlists.loaded hloaded) hfields]

/-- What loading a manifest comes to whose list of entries is `list`: all of its
packages, or none of them. -/
structure LoadsAllOrNone (format : Format) (text : String) (list : Value) : Prop where
  /-- The packages are those that the entries describe, in the order of the entries. -/
  packages_iff : ∀ items, list = .list items → NoFields format items →
    ∀ packages, read format text = .ok packages ↔ List.Forall₂ Describes items packages
  /-- There are packages as soon as each of the entries describes one. -/
  succeeds_iff : ∀ items, list = .list items → NoFields format items →
    ((∃ packages, read format text = .ok packages) ↔ ∀ e ∈ items, ∃ p, Describes e p)
  /-- One bad entry is enough to refuse the manifest. -/
  bad_entry : ∀ items, list = .list items → ∀ e ∈ items, (∀ p, ¬ Describes e p) →
    (format = .json → ∀ fields, e ≠ .list fields) →
    ∃ reason, read format text = .error (.unfit reason)
  /-- A list of entries that is no list is not passed over. -/
  no_list : (∀ items, list ≠ .list items) → list ≠ .null →
    ∃ reason, read format text = .error (.unfit reason)
  /-- Nothing instead of a list of entries is the empty list in YAML only. -/
  nothing : list = .null → ∀ packages,
    read format text = .ok packages ↔ format = .yaml ∧ packages = []

/-- A manifest that lists entries loads all of them or none. -/
theorem loadsAllOrNone (h : valueOfText format text = .ok v) (hcommon : v.Common)
    (hlists : Lists v list) : LoadsAllOrNone format text list := by
  have hloaded := loaded_of_valueOfText h
  constructor
  case packages_iff =>
    rintro items rfl hfields packages
    exact read_eq_ok_iff_describes h hcommon hlists hfields
  case succeeds_iff =>
    rintro items rfl hfields
    simp only [read_eq_ok_iff_describes h hcommon hlists hfields]
    exact exists_forall₂_iff
  case bad_entry =>
    rintro items rfl e he hbad hfields
    -- Were the manifest read, the bad entry would have been read as some package.
    refine exists_read_eq_unfit h fun packages hpackages => ?_
    rw [packagesOf_list_eq hcommon hloaded hlists, packagesOfList_eq_ok_iff] at hpackages
    obtain ⟨p, hp⟩ := exists_forall₂_iff.mp ⟨packages, hpackages⟩ e he
    have hlist := hlists.common hcommon
    exact hbad p ((packageOf_eq_ok_iff (hlist.of_mem_list he)
      ((hlists.loaded hloaded).of_mem_list he) hfields).mp hp)
  case no_list =>
    intro hlist hnull
    exact exists_read_eq_unfit h fun packages =>
      packagesOf_ne_ok hcommon hloaded hlists hlist hnull
  case nothing =>
    rintro rfl packages
    rw [read_eq_ok_iff h, packagesOf_null_eq_ok_iff hcommon hloaded hlists]

/-! ### Both formats -/

/-- A list of entries that the formats do not differ about: it is not nothing, and
no entry of it lists its fields. -/
structure Neutral (list : Value) : Prop where
  not_null : list ≠ .null
  no_fields : ∀ items, list = .list items → ∀ e ∈ items, ∀ fields, e ≠ .list fields

/-- What agrees with a list that reads alike in both formats reads alike as well. -/
theorem Neutral.of_agree (h : Agree list list') (hneutral : Neutral list) : Neutral list' := by
  constructor
  case not_null =>
    rintro rfl
    exact hneutral.not_null h.symm.eq_null
  case no_fields =>
    rintro items' rfl
    obtain ⟨items, rfl⟩ := h.symm.exists_list
    have hfields := hneutral.no_fields items rfl
    -- Item by item: what agrees with a list is a list.
    have hitems := h.forall₂
    clear h hneutral
    induction hitems with
    | nil => exact hfields
    | cons hagree _ ih =>
      rw [List.forall_mem_cons] at hfields ⊢
      refine ⟨fun fields heq => ?_, ih hfields.2⟩
      obtain ⟨fields', heq'⟩ := (heq ▸ hagree.symm).exists_list
      exact hfields.1 fields' heq'

/-- Items that agree describe the same packages. -/
theorem forall₂_describes_of_agree (h : List.Forall₂ Agree items items')
    (hpackages : List.Forall₂ Describes items packages) :
    List.Forall₂ Describes items' packages := by
  induction h generalizing packages with
  | nil => exact hpackages
  | cons hagree _ ih =>
    cases hpackages with
    | cons hp hps => exact .cons (hp.of_agree hagree) (ih hps)

/-- What is loaded from one document is loaded from any other one that holds the
same value. -/
theorem read_eq_ok_of_agree (h : valueOfText format text = .ok v)
    (h' : valueOfText format' text' = .ok v') (hagree : Agree v v') (hlists : Lists v list)
    (hneutral : Neutral list) (hread : read format text = .ok packages) :
    read format' text' = .ok packages := by
  -- Only a list has been read, so the other document has a list as well.
  obtain ⟨items, rfl⟩ : ∃ items, list = .list items := by
    by_contra hlist
    refine packagesOf_ne_ok hagree.common hagree.loaded hlists (fun items heq => ?_)
      hneutral.not_null ((read_eq_ok_iff h).mp hread)
    exact hlist ⟨items, heq⟩
  obtain ⟨list', hlists', hlist⟩ := hlists.of_agree hagree
  obtain ⟨items', rfl⟩ := hlist.exists_list
  have hneutral' := hneutral.of_agree hlist
  rw [read_eq_ok_iff_describes h hagree.common hlists fun _ => hneutral.no_fields items rfl] at hread
  rw [read_eq_ok_iff_describes h' hagree.common' hlists' fun _ => hneutral'.no_fields items' rfl]
  exact forall₂_describes_of_agree hlist.forall₂ hread

/-- Manifests are loaded as a whole. Every document that both formats can express
has one value that should be its list of entries, and `LoadsAllOrNone` says what
loading it comes to. Two documents that hold the same value, in whichever format
and with the keys in whichever order, come to the same packages or are both
refused, unless that value is nothing or has entries that list their fields. The
YAML document that is nothing holds no packages. -/
theorem manifests_load_all_or_none :
    (∀ (format : Format) (text : String) (v : Value), valueOfText format text = .ok v → v.Common →
      (∃! list, Lists v list) ∧ ∀ list, Lists v list → LoadsAllOrNone format text list) ∧
    (∀ (format format' : Format) (text text' : String) (v v' list : Value),
      valueOfText format text = .ok v → valueOfText format' text' = .ok v' →
      v.Common → v'.Common → v.same v' = true → Lists v list → Neutral list →
      ∀ packages, read format text = .ok packages ↔ read format' text' = .ok packages) ∧
    ∀ text : String, valueOfText .yaml text = .ok .null → read .yaml text = .ok [] := by
  -- The list is there and unique, the formats agree in both directions, and null lists no
  -- packages.
  refine ⟨fun format text v h hcommon => ⟨?_, fun list => loadsAllOrNone h hcommon⟩, ?_, ?_⟩
  · have hlists := lists_entriesOf format hcommon
    exact ⟨_, hlists, fun list hlist => hlist.unique (loaded_of_valueOfText h) hlists⟩
  · intro format format' text text' v v' list h h' hcommon hcommon' hsame hlists hneutral packages
    have hagree : Agree v v' :=
      ⟨hcommon, hcommon', loaded_of_valueOfText h, loaded_of_valueOfText h', hsame⟩
    obtain ⟨list', hlists', hlist⟩ := hlists.of_agree hagree
    exact ⟨read_eq_ok_of_agree h h' hagree hlists hneutral,
      read_eq_ok_of_agree h' h hagree.symm hlists' (hneutral.of_agree hlist)⟩
  · intro text h
    have hnothing := (loadsAllOrNone h .null (.itself nofun)).nothing rfl
    exact (hnothing []).mpr ⟨rfl, rfl⟩

/-! ### The two packages, in both formats -/

/-- An entry that is written is a value of both formats. -/
theorem common_entryOf (p : Package) : (entryOf p).Common := by
  refine .map ?_ ?_
  · simp [fieldsOf]
  · simp [fieldsOf, Common.text, Common.bool]

/-- An entry is a value of both formats with its fields in order, too. -/
theorem common_sortedEntryOf (p : Package) : (sortedEntryOf p).Common := by
  refine .map ?_ ?_
  · simp
  · simp [Common.text, Common.bool]

/-- A list of entries is a value of both formats. -/
theorem common_list_map {entry : Package → Value} (h : ∀ p, (entry p).Common)
    (packages : List Package) : (Value.list (packages.map entry)).Common := by
  refine .list fun v hv => ?_
  obtain ⟨p, -, rfl⟩ := List.mem_map.mp hv
  exact h p

/-- The order of the fields does not matter. -/
theorem same_oddPackages :
    (valueOf oddPackages).same (.list (oddPackages.map sortedEntryOf)) = true := by
  simp [valueOf, oddPackages, entryOf, sortedEntryOf, fieldsOf, Value.same, Value.sameItems,
    Value.sameEntries, Value.sameEntry]

/-- The entries that are written are mappings. -/
theorem neutral_valueOf (packages : List Package) : Neutral (valueOf packages) := by
  refine ⟨nofun, fun items heq e he fields hfields => ?_⟩
  cases heq
  obtain ⟨p, -, rfl⟩ := List.mem_map.mp he
  cases hfields

/-- Only null leaves a flag open. -/
theorem eq_null_of_flag (h : flag format v = .ok none) : v = .null := by
  unfold flag at h
  split at h
  · rfl
  · split at h <;> cases h

/-- The text `null` has the value null. -/
theorem valueOfText_yaml_null : valueOfText .yaml "null" = .ok .null := by
  -- A value is nothing when nothing is the snapshot flag that is read from it.
  have hflag : (valueOfText .yaml "null" >>= fun v => (flag .yaml v).mapError
      fun e => .unfit e.message) = .ok none := eq_ok_of_toOption (by decide +kernel)
  obtain ⟨v, hvalue, hflag⟩ := bind_eq_ok_iff.mp hflag
  cases hread : flag .yaml v with
  | error e =>
    rw [hread] at hflag
    cases hflag
  | ok b =>
    rw [hread] at hflag
    cases hflag
    rw [hvalue, eq_null_of_flag hread]

/-- The manifests that are written for the two packages have their keys in
different orders, and are loaded alike. -/
theorem manifests_load_all_or_none_odd :
    valueOfText .yaml (print .yaml oddPackages) = .ok (valueOf oddPackages) ∧
    valueOfText .json (print .json oddPackages) = .ok (.list (oddPackages.map sortedEntryOf)) ∧
    LoadsAllOrNone .yaml (print .yaml oddPackages) (valueOf oddPackages) ∧
    (∀ packages, read .yaml (print .yaml oddPackages) = .ok packages ↔
      read .json (print .json oddPackages) = .ok packages) ∧
    read .yaml "null" = .ok [] := by
  have hyaml := valueOfText_print_yaml oddPackages
  have hjson := valueOfText_print_json oddPackages
  have hcommon := common_list_map common_entryOf oddPackages
  have hlists : Lists (valueOf oddPackages) (valueOf oddPackages) := .itself nofun
  refine ⟨hyaml, hjson, ?_, ?_, ?_⟩
  · exact (manifests_load_all_or_none.1 .yaml _ _ hyaml hcommon).2 _ hlists
  · exact manifests_load_all_or_none.2.1 .yaml .json _ _ _ _ _ hyaml hjson hcommon
      (common_list_map common_sortedEntryOf oddPackages) same_oddPackages hlists
      (neutral_valueOf oddPackages)
  · exact manifests_load_all_or_none.2.2 "null" valueOfText_yaml_null

end Manifest

end Promotion
