import Promotion.Proofs.Manifest.Digits

/-!
# `Promotion.Proofs.Manifest.Nodes`: where versions stand in a document

The entries of a manifest are the nodes of a sequence, and the version of an entry is
the node under its key `version`. Any of them may be reached through aliases.

* `EntryNodes`: the nodes of the entries.
* `WrittenPlainly`: the version of an entry is written as a plain scalar.
* `WrittenPlainly.exists_version`: the version of its package is read from the value
  of that scalar.
-/

set_option autoImplicit false

namespace Promotion.Manifest

open Yaml (Document Info Node documentOf)
open Yaml.Load (scalarValue Stands)

variable {d : Document} {i : Nat} {info : Info} {t : String} {v : Value} {packages : List Package}

/-- The node is a scalar with the value, or an alias of one. -/
def IsScalar (d : Document) (n : Node) (v : Value) : Prop :=
  ∃ info text style, d.target? n = some (.scalar info text style) ∧
    scalarValue info text style = some v

/-- The nodes of the entries of a manifest: the items of the document, or those under
`packages`. -/
inductive EntryNodes (d : Document) : List Node → Prop
  | items {root : Node} {info : Info} {items : List Node} (hroot : d.root = some root)
    (htarget : d.target? root = some (.sequence info items)) : EntryNodes d items
  | under {root key list : Node} {info info' : Info} {entries : List (Node × Node)}
    {items : List Node} (hroot : d.root = some root)
    (htarget : d.target? root = some (.mapping info entries)) (hmem : (key, list) ∈ entries)
    (hkey : IsScalar d key (.text "packages"))
    (hlist : d.target? list = some (.sequence info' items)) : EntryNodes d items

/-- The version of the entry with the index `i` is written as the plain scalar `t`. -/
inductive WrittenPlainly (d : Document) (i : Nat) (info : Info) (t : String) : Prop
  | intro {items : List Node} {entry key version : Node} {info' : Info}
    {fields : List (Node × Node)} {name : Value} (hitems : EntryNodes d items)
    (hentry : items[i]? = some entry) (hfields : d.target? entry = some (.mapping info' fields))
    (hmem : (key, version) ∈ fields) (hkey : IsScalar d key name)
    (hname : name.untagged = .text "version")
    (hversion : d.target? version = some (.scalar info t .plain))

/-- A scalar stands for one value. -/
theorem IsScalar.eq_of_stands {n : Node} {w : Value} (h : IsScalar d n v) (hw : Stands d n w) :
    w = v := by
  obtain ⟨info, text, style, htarget, hv⟩ := h
  exact Option.some.inj ((hw.of_scalar htarget).symm.trans hv)

/-- A tag around a value is taken off again. -/
theorem untagged_withTag (info : Info) (v : Value) :
    (Yaml.Load.withTag info v).untagged = v.untagged := by
  unfold Yaml.Load.withTag
  split <;> rfl

/-- An item of one of two related lists has its partner at the same place. -/
theorem exists_getElem?_of_forall₂ {α β : Type} {R : α → β → Prop} {as : List α} {bs : List β}
    {a : α} (h : List.Forall₂ R as bs) (ha : as[i]? = some a) : ∃ b, bs[i]? = some b ∧ R a b := by
  obtain ⟨hi, rfl⟩ := List.getElem?_eq_some_iff.mp ha
  have hi' : i < bs.length := h.length_eq ▸ hi
  exact ⟨bs[i], List.getElem?_eq_getElem hi', h.get hi hi'⟩

/-- A member of one of two related lists has a partner in the other. -/
theorem exists_mem_of_forall₂ {α β : Type} {R : α → β → Prop} {as : List α} {bs : List β} {a : α}
    (h : List.Forall₂ R as bs) (ha : a ∈ as) : ∃ b ∈ bs, R a b := by
  obtain ⟨i, hi⟩ := List.mem_iff_getElem?.mp ha
  obtain ⟨b, hb, hab⟩ := exists_getElem?_of_forall₂ h hi
  exact ⟨b, List.mem_of_getElem? hb, hab⟩

/-- A mapping without a key twice gives for a key the value of its entry. -/
theorem get?_eq_some_of_mem {entries : List (Value × Value)} {key : String}
    (hdiffer : Value.KeysDiffer entries) (hmem : (.text key, v) ∈ entries) :
    Value.get? entries key = some v := by
  -- By induction on the entries: the first one with the key is the only one.
  induction entries with
  | nil => cases hmem
  | cons e entries ih =>
    obtain ⟨k, w⟩ := e
    by_cases hk : k = .text key
    · subst hk
      rw [get?_cons_self, hdiffer.eq_of_mem List.mem_cons_self hmem]
    · rw [get?_cons_of_ne hk]
      rcases List.mem_cons.mp hmem with heq | hmem
      · exact absurd (Prod.mk.inj heq).1.symm hk
      · exact ih (List.pairwise_cons.mp hdiffer).2 hmem

/-- The value of a document is that of its first node. -/
theorem exists_stands_root (hv : d.value? = some v) {root : Node} (hroot : d.root = some root) :
    Stands d root v := by
  rw [Document.value?, hroot, Option.map_eq_some_iff] at hv
  obtain ⟨⟨w, k⟩, hload, rfl⟩ := hv
  exact ⟨_, _, _, hload⟩

/-- What a node stands for may stand in a document. -/
theorem loaded_of_stands {n : Node} (h : Stands d n v) : v.Loaded := by
  obtain ⟨depth, k, k', hload⟩ := h
  exact Yaml.Load.yields_load depth k v k' hload

/-- The entries of a manifest are what the nodes of its entries stand for. -/
theorem EntryNodes.exists_items {items : List Node} (h : EntryNodes d items)
    (hv : d.value? = some v) :
    ∃ vs, (entriesOf .yaml v).untagged = .list vs ∧ List.Forall₂ (Stands d) items vs := by
  cases h with
  | @items root info items hroot htarget =>
    obtain ⟨vs, rfl, hvs⟩ := (exists_stands_root hv hroot).of_sequence htarget
    have huntagged := untagged_withTag info (.list vs)
    refine ⟨vs, ?_, hvs⟩
    rw [entriesOf, plain_yaml, huntagged]
    exact huntagged
  | @under root key list info info' entries items hroot htarget hmem hkey hlist =>
    have hstands := exists_stands_root hv hroot
    obtain ⟨es, rfl, hes⟩ := hstands.of_mapping htarget
    have huntagged : (Yaml.Load.withTag info (.map es)).untagged = .map es :=
      untagged_withTag info (.map es)
    have hdiffer : Value.KeysDiffer es := by
      have hloaded := loaded_untagged (loaded_of_stands hstands)
      rw [huntagged] at hloaded
      exact hloaded.keysDiffer
    -- What is found under `packages` is what the node there stands for.
    obtain ⟨⟨k, l⟩, hmem', hk, hl⟩ := exists_mem_of_forall₂ hes hmem
    obtain rfl : k = .text "packages" := hkey.eq_of_stands hk
    obtain ⟨vs, rfl, hvs⟩ := Stands.of_sequence hl hlist
    refine ⟨vs, ?_, hvs⟩
    rw [entriesOf, plain_yaml, huntagged]
    dsimp only
    rw [get?_eq_some_of_mem hdiffer hmem']
    exact untagged_withTag info' (.list vs)

/-! ### The version of an entry -/

/-- Another entry leaves a version that was read. -/
theorem readEntry_keeps_version {format : Format} {draft draft' : Draft} {key : String}
    {version : Version} (h : readEntry format draft key v = .ok draft')
    (hversion : draft.version = some version) : draft'.version = some version := by
  -- A second version would be refused, and the other fields do not touch it.
  unfold readEntry at h
  split at h
  · split at h
    · cases h
    · obtain ⟨s, -, rfl⟩ := map_eq_ok_iff.mp h
      exact hversion
  split at h
  · rw [hversion] at h
    cases h
  split at h
  · split at h
    · cases h
    · obtain ⟨b, -, rfl⟩ := map_eq_ok_iff.mp h
      exact hversion
  · cases h
    exact hversion

/-- Further entries leave a version that was read. -/
theorem readEntries_keeps_version {format : Format} {draft draft' : Draft}
    {entries : List (Value × Value)} {version : Version}
    (h : readEntries format draft entries = .ok draft')
    (hversion : draft.version = some version) : draft'.version = some version := by
  -- By induction on the entries, with the draft generalized.
  induction entries generalizing draft with
  | nil =>
    cases h
    exact hversion
  | cons e entries ih =>
    obtain ⟨k, v⟩ := e
    rw [readEntries] at h
    split at h
    · cases h
    split at h
    · cases h
    next hread => exact ih h (readEntry_keeps_version hread hversion)

/-- An entry has the version that is read from the value under its key. -/
theorem version_of_readEntries {format : Format} {draft draft' : Draft} {k : Value}
    {entries : List (Value × Value)} (h : readEntries format draft entries = .ok draft')
    (hmem : (k, v) ∈ entries) (hk : Manifest.text format k "field identifier" = .ok "version") :
    ∃ version, Version.ofValue format v = .ok version ∧ draft'.version = some version := by
  -- By induction on the entries: the one with the version is read, and those after it leave what
  -- was read.
  induction entries generalizing draft with
  | nil => cases hmem
  | cons e entries ih =>
    obtain ⟨k', v'⟩ := e
    rw [readEntries] at h
    split at h
    · cases h
    next key hkey =>
    split at h
    · cases h
    next next hread =>
      rcases List.mem_cons.mp hmem with heq | hmem
      · cases heq
        obtain rfl : "version" = key := Except.ok.inj (hk.symm.trans hkey)
        have hname : ¬ "version" = "name" := by decide
        rw [readEntry, if_neg hname, if_pos rfl] at hread
        split at hread
        · cases hread
        · obtain ⟨version, hversion, rfl⟩ := map_eq_ok_iff.mp hread
          exact ⟨version, hversion, readEntries_keeps_version h rfl⟩
      · exact ih h hmem

/-- The version of an entry is read from the value of its scalar. -/
theorem WrittenPlainly.exists_version (h : WrittenPlainly d i info t) (hv : d.value? = some v)
    (hpackages : packagesOf .yaml v = .ok packages) :
    ∃ p w, packages[i]? = some p ∧ scalarValue info t .plain = some w ∧
      Version.ofValue .yaml w = .ok p.version := by
  cases h with
  | @intro items entry key version info' fields name hitems hentry hfields hmem hkey hname
      hversion =>
    obtain ⟨vs, hvs, hstands⟩ := hitems.exists_items hv
    obtain ⟨e, he, hentry⟩ := exists_getElem?_of_forall₂ hstands hentry
    obtain ⟨vs', hvs', hpackages⟩ | ⟨hnull, -⟩ := packagesOf_yaml_eq_ok_iff.mp hpackages
    case inr => cases hvs.symm.trans hnull
    cases hvs.symm.trans hvs'
    obtain ⟨p, hp, hread⟩ := exists_getElem?_of_forall₂ hpackages he
    -- The entry is a mapping, and the scalar stands under `version` in it.
    obtain ⟨es, rfl, hes⟩ := Stands.of_mapping hentry hfields
    obtain ⟨es', hes', draft, hdraft, hpackage⟩ := packageOf_yaml_eq_ok_iff.mp hread
    cases (untagged_withTag info' (.map es)).symm.trans hes'
    obtain ⟨⟨k, w⟩, hmem, hk, hw⟩ := exists_mem_of_forall₂ hes hmem
    obtain rfl : k = name := hkey.eq_of_stands hk
    obtain ⟨version, hversion', hsome⟩ :=
      version_of_readEntries hdraft hmem (text_eq_ok_iff_untagged.mpr hname)
    obtain ⟨_, _, -, hsome', rfl⟩ := package_eq_ok_iff.mp hpackage
    obtain rfl := Option.some.inj (hsome.symm.trans hsome')
    exact ⟨_, w, hp, Stands.of_scalar hw hversion, hversion'⟩

end Promotion.Manifest
