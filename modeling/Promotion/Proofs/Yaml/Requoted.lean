import Promotion.Proofs.Yaml.Content

/-!
# `Promotion.Proofs.Yaml.Requoted`: a document with one of its scalars in quotes

A plain scalar may be put in quotes, and whatever it stood for, it is a text then.
Where it stood for a whole number, its digits stand in the value of the document as
a text. Nothing else changes, as long as the document is one: a number that is the
key of a mapping may come to be the same key as another one.

* `Value.Spelt`: the value with the digits of a number as a text.
* `Document.Requoted`: the document with a scalar in quotes, apart from places.
* `Load.mirrors_load`: loading one follows loading the other step by step.
* `Document.value?_of_requoted`: so their values are the same up to those digits.
-/

set_option autoImplicit false

namespace Promotion

/-! ### Values -/

namespace Value

/-- The same value, in which the digits of a number may stand as a text. -/
inductive Spelt (n? : Option Nat) : Value → Value → Prop
  | refl (v : Value) : Spelt n? v v
  | digits {n : Nat} (h : n? = some n) :
    Spelt n? (.int n) (.text (String.ofList (Nat.toDigits 10 n)))
  | list {items items' : List Value} (hlength : items.length = items'.length)
    (h : ∀ p ∈ items.zip items', Spelt n? p.1 p.2) : Spelt n? (.list items) (.list items')
  | map {entries entries' : List (Value × Value)} (hlength : entries.length = entries'.length)
    (hkeys : ∀ p ∈ entries.zip entries', Spelt n? p.1.1 p.2.1)
    (h : ∀ p ∈ entries.zip entries', Spelt n? p.1.2 p.2.2) :
    Spelt n? (.map entries) (.map entries')
  | tagged {tag : String} {v v' : Value} (h : Spelt n? v v') :
    Spelt n? (.tagged tag v) (.tagged tag v')

/-- The keys of all mappings in the value are texts. -/
inductive TextKeyed : Value → Prop
  | null : TextKeyed .null
  | bool (b : Bool) : TextKeyed (.bool b)
  | int (n : Int) : TextKeyed (.int n)
  | float (x : Decimal.Binary64) : TextKeyed (.float x)
  | text (s : String) : TextKeyed (.text s)
  | list {items : List Value} (h : ∀ v ∈ items, TextKeyed v) : TextKeyed (.list items)
  | map {entries : List (Value × Value)} (hkeys : ∀ e ∈ entries, ∃ key, e.1 = .text key)
    (h : ∀ e ∈ entries, TextKeyed e.2) : TextKeyed (.map entries)
  | tagged {tag : String} {v : Value} (h : TextKeyed v) : TextKeyed (.tagged tag v)

namespace Spelt

variable {n? : Option Nat} {v v' : Value} {items items' : List Value}
  {entries entries' : List (Value × Value)}

/-- Lists whose items are spelt alike are spelt alike. -/
theorem of_forall₂_list (h : List.Forall₂ (Spelt n?) items items') :
    Spelt n? (.list items) (.list items') := by
  obtain ⟨hlength, h⟩ := List.forall₂_iff_zip.mp h
  exact .list hlength fun p hp => h hp

/-- Mappings whose keys and values are spelt alike are spelt alike. -/
theorem of_forall₂_map
    (h : List.Forall₂ (fun e e' => Spelt n? e.1 e'.1 ∧ Spelt n? e.2 e'.2) entries entries') :
    Spelt n? (.map entries) (.map entries') := by
  obtain ⟨hlength, h⟩ := List.forall₂_iff_zip.mp h
  exact .map hlength (fun p hp => (h hp).1) fun p hp => (h hp).2

/-- A text is spelt in one way only. -/
theorem eq_text {s : String} (h : Spelt n? (.text s) v') : v' = .text s := by
  cases h
  rfl

/-- Null is spelt in one way only. -/
theorem eq_null (h : Spelt n? .null v') : v' = .null := by
  cases h
  rfl

/-- A truth value is spelt in one way only. -/
theorem eq_bool {b : Bool} (h : Spelt n? (.bool b) v') : v' = .bool b := by
  cases h
  rfl

/-- A list becomes a list of the same length, item by item. -/
theorem exists_list (h : Spelt n? (.list items) v') :
    ∃ items', v' = .list items' ∧ List.Forall₂ (Spelt n?) items items' := by
  cases h with
  | refl => exact ⟨items, rfl, List.forall₂_same.mpr fun v _ => .refl v⟩
  | @list _ items' hlength h => exact ⟨items', rfl, List.forall₂_iff_zip.mpr ⟨hlength, h _⟩⟩

/-- A mapping becomes a mapping with as many entries, key by key and value by value. -/
theorem exists_map (h : Spelt n? (.map entries) v') :
    ∃ entries', v' = .map entries' ∧
      List.Forall₂ (fun e e' => Spelt n? e.1 e'.1 ∧ Spelt n? e.2 e'.2) entries entries' := by
  cases h with
  | refl => exact ⟨entries, rfl, List.forall₂_same.mpr fun e _ => ⟨.refl e.1, .refl e.2⟩⟩
  | @map _ entries' hlength hkeys h =>
    exact ⟨entries', rfl, List.forall₂_iff_zip.mpr ⟨hlength, fun hp => ⟨hkeys _ hp, h _ hp⟩⟩⟩

/-- The values inside tags are spelt alike as well. -/
theorem untagged (h : Spelt n? v v') : Spelt n? v.untagged v'.untagged := by
  induction h with
  | refl v => exact .refl _
  | digits h => exact .digits h
  | list hlength h _ => exact .list hlength h
  | map hlength hkeys h _ _ => exact .map hlength hkeys h
  | tagged _ ih => exact ih

/-- Where there is no number to write out, nothing changes. -/
theorem eq_of_none (h : Spelt none v v') : v' = v := by
  -- By induction on the spelling: only numbers with digits to spell change, and there are none.
  induction h with
  | refl v => rfl
  | digits h => cases h
  | @list items items' hlength _ ih =>
    have hsame : List.Forall₂ (· = ·) items items' :=
      List.forall₂_iff_zip.mpr ⟨hlength, fun hp => (ih _ hp).symm⟩
    rw [List.forall₂_eq_eq_eq] at hsame
    rw [hsame]
  | @map entries entries' hlength _ _ ihkeys ih =>
    have hsame : List.Forall₂ (· = ·) entries entries' :=
      List.forall₂_iff_zip.mpr ⟨hlength, fun hp => (Prod.ext (ihkeys _ hp) (ih _ hp)).symm⟩
    rw [List.forall₂_eq_eq_eq] at hsame
    rw [hsame]
  | tagged _ ih => rw [ih]

end Spelt

/-- The keys of the mappings in a value stay as they are when the digits of a number
are written out: there is no number, or they are texts. -/
def KeysStay (n? : Option Nat) (v : Value) : Prop := n? = none ∨ v.TextKeyed

namespace KeysStay

variable {n? : Option Nat} {items : List Value} {entries : List (Value × Value)}

/-- The keys stay in every item of a list in which they stay. -/
theorem of_mem_list (h : KeysStay n? (.list items)) : ∀ v ∈ items, KeysStay n? v := by
  intro v hv
  refine h.imp_right fun h => ?_
  cases h with
  | list h => exact h v hv

/-- The keys stay in every value of a mapping in which they stay. -/
theorem of_mem_map (h : KeysStay n? (.map entries)) : ∀ e ∈ entries, KeysStay n? e.2 := by
  intro e he
  refine h.imp_right fun h => ?_
  cases h with
  | map _ h => exact h e he

/-- The keys stay in a value when they stay with its tag around it. -/
theorem of_tagged {tag : String} {v : Value} (h : KeysStay n? (.tagged tag v)) : KeysStay n? v := by
  refine h.imp_right fun h => ?_
  cases h with
  | tagged h => exact h

/-- The keys themselves stay as they are, too. -/
theorem key_of_mem_map (h : KeysStay n? (.map entries)) : ∀ e ∈ entries, KeysStay n? e.1 := by
  intro e he
  refine h.imp_right fun h => ?_
  cases h with
  | map hkeys _ =>
    obtain ⟨key, hkey⟩ := hkeys e he
    rw [hkey]
    exact .text key

/-- The keys of such a mapping are texts, or nothing is spelt in another way; so they do
not change. -/
theorem key_eq (h : KeysStay n? (.map entries)) {e e' : Value × Value} (he : e ∈ entries)
    (hspelt : Spelt n? e.1 e'.1) : e'.1 = e.1 := by
  rcases h with rfl | h
  · exact hspelt.eq_of_none
  · cases h with
    | map hkeys _ =>
      obtain ⟨key, hkey⟩ := hkeys e he
      rw [hkey] at hspelt ⊢
      exact hspelt.eq_text

end KeysStay

end Value

namespace Yaml

/-! ### Documents -/

/-- The node has the same tag and anchor, wherever it stands. -/
structure Info.Alike (i i' : Info) : Prop where
  tag : i'.tag = i.tag
  anchor : i'.anchor = i.anchor

/-- The same node, apart from places, in which the plain scalar `t` with the given
info may be in quotes. -/
inductive Node.Requoted (info : Info) (t : String) : Node → Node → Prop
  | scalar {i i' : Info} {text : String} {style : Style} (hi : i.Alike i') :
    Requoted info t (.scalar i text style) (.scalar i' text style)
  | quoted {i' : Info} {style : Style} (hi : info.Alike i') (hstyle : style ≠ .plain) :
    Requoted info t (.scalar info t .plain) (.scalar i' t style)
  | sequence {i i' : Info} {items items' : List Node} (hi : i.Alike i')
    (hlength : items.length = items'.length)
    (h : ∀ p ∈ items.zip items', Requoted info t p.1 p.2) :
    Requoted info t (.sequence i items) (.sequence i' items')
  | mapping {i i' : Info} {entries entries' : List (Node × Node)} (hi : i.Alike i')
    (hlength : entries.length = entries'.length)
    (hkeys : ∀ p ∈ entries.zip entries', Requoted info t p.1.1 p.2.1)
    (h : ∀ p ∈ entries.zip entries', Requoted info t p.1.2 p.2.2) :
    Requoted info t (.mapping i entries) (.mapping i' entries')
  | reference (mark mark' : Mark) (anchor : Nat) :
    Requoted info t (.alias mark anchor) (.alias mark' anchor)

/-- The same document, apart from places, in which a plain scalar may be in quotes. -/
def Document.Requoted (info : Info) (t : String) (d d' : Document) : Prop :=
  Option.Rel (Node.Requoted info t) d.root d'.root

variable {info : Info} {t : String} {n n' : Node} {d d' : Document}

namespace Node

/-- Items of the same size are as large together. -/
theorem sizeItems_eq {items items' : List Node}
    (h : List.Forall₂ (fun n n' => n'.size = n.size) items items') :
    sizeItems items' = sizeItems items := by
  induction h with
  | nil => rfl
  | cons hn _ ih => rw [sizeItems, sizeItems, hn, ih]

/-- Entries of the same size are as large together. -/
theorem sizeEntries_eq {entries entries' : List (Node × Node)}
    (h : List.Forall₂ (fun e e' => e'.1.size = e.1.size ∧ e'.2.size = e.2.size) entries entries') :
    sizeEntries entries' = sizeEntries entries := by
  induction h with
  | nil => rfl
  | cons he _ ih => rw [sizeEntries, sizeEntries, he.1, he.2, ih]

/-- Quotes do not change the size of a node, so as many aliases may be followed. -/
theorem Requoted.size_eq (h : Requoted info t n n') : n'.size = n.size := by
  induction h with
  | scalar _ => rfl
  | quoted _ _ => rfl
  | sequence _ hlength _ ih =>
    rw [size, size, sizeItems_eq (List.forall₂_iff_zip.mpr ⟨hlength, ih _⟩)]
  | mapping _ hlength _ _ ihkeys ih =>
    rw [size, size, sizeEntries_eq (List.forall₂_iff_zip.mpr
      ⟨hlength, fun hp => ⟨ihkeys _ hp, ih _ hp⟩⟩)]
  | reference _ _ _ => rfl

/-- The nodes with anchors have the same ones in both documents. -/
abbrev Anchored (info : Info) (t : String) : List (Nat × Node) → List (Nat × Node) → Prop :=
  List.Forall₂ fun a a' => a'.1 = a.1 ∧ Requoted info t a.2 a'.2

/-- A node with an anchor answers to one with the same anchor. -/
theorem anchored_own {i i' : Info} (hi : i.Alike i') (h : Requoted info t n n') :
    Anchored info t (own i n) (own i' n') := by
  rw [own, own, hi.anchor]
  cases i.anchor with
  | none => exact .nil
  | some anchor => exact .cons ⟨rfl, h⟩ .nil

/-- What has anchors among items answers to each other when it does item by item. -/
theorem anchored_items {items items' : List Node}
    (h : List.Forall₂ (fun n n' => Anchored info t n.anchored n'.anchored) items items') :
    Anchored info t (anchoredItems items) (anchoredItems items') := by
  induction h with
  | nil => exact .nil
  | cons hn _ ih => exact List.rel_append hn ih

/-- What has anchors among entries answers to each other when it does entry by entry. -/
theorem anchored_entries {entries entries' : List (Node × Node)}
    (h : List.Forall₂ (fun e e' => Anchored info t e.1.anchored e'.1.anchored ∧
      Anchored info t e.2.anchored e'.2.anchored) entries entries') :
    Anchored info t (anchoredEntries entries) (anchoredEntries entries') := by
  induction h with
  | nil => exact .nil
  | cons he _ ih => exact List.rel_append (List.rel_append he.1 he.2) ih

/-- The nodes with anchors answer to each other, in the order of the document. -/
theorem Requoted.anchored (h : Requoted info t n n') :
    Anchored info t n.anchored n'.anchored := by
  -- By induction on the nodes, each of which comes before those inside it.
  induction h with
  | scalar hi => exact anchored_own hi (.scalar hi)
  | quoted hi hstyle => exact anchored_own hi (.quoted hi hstyle)
  | sequence hi hlength h ih =>
    exact List.rel_append (anchored_own hi (.sequence hi hlength h))
      (anchored_items (List.forall₂_iff_zip.mpr ⟨hlength, ih _⟩))
  | mapping hi hlength hkeys h ihkeys ih =>
    exact List.rel_append (anchored_own hi (.mapping hi hlength hkeys h))
      (anchored_entries (List.forall₂_iff_zip.mpr ⟨hlength, fun hp => ⟨ihkeys _ hp, ih _ hp⟩⟩))
  | reference _ _ _ => exact .nil

end Node

namespace Document

/-- Both documents have a root, or neither has one. -/
theorem Requoted.cases (h : d.Requoted info t d') :
    d.root = none ∧ d'.root = none ∨
      ∃ n n', d.root = some n ∧ d'.root = some n' ∧ n.Requoted info t n' := by
  obtain ⟨root, mark⟩ := d
  obtain ⟨root', mark'⟩ := d'
  cases h with
  | some h => exact .inr ⟨_, _, rfl, rfl, h⟩
  | none => exact .inl ⟨rfl, rfl⟩

/-- Quotes do not change the size of a document. -/
theorem Requoted.size_eq (h : d.Requoted info t d') : d'.size = d.size := by
  obtain ⟨hroot, hroot'⟩ | ⟨n, n', hroot, hroot', hn⟩ := h.cases
  · rw [size, size, hroot, hroot']
  · simp [size, hroot, hroot', hn.size_eq]

/-- The nodes with anchors of the two documents answer to each other. -/
theorem Requoted.anchored (h : d.Requoted info t d') :
    Node.Anchored info t d.anchored d'.anchored := by
  obtain ⟨hroot, hroot'⟩ | ⟨n, n', hroot, hroot', hn⟩ := h.cases
  · rw [Document.anchored, Document.anchored, hroot, hroot']
    exact .nil
  · rw [Document.anchored, Document.anchored, hroot, hroot']
    exact hn.anchored

/-- The first nodes with an anchor answer to each other, or there is none in either
document. -/
theorem rel_find?_anchored {as as' : List (Nat × Node)} (h : Node.Anchored info t as as')
    (anchor : Nat) : Option.Rel (fun a a' => a.2.Requoted info t a'.2)
      (as.find? fun a => a.1 = anchor) (as'.find? fun a => a.1 = anchor) := by
  induction h with
  | nil => exact .none
  | @cons a a' _ _ ha _ ih =>
    rw [List.find?_cons, List.find?_cons, ha.1]
    cases decide (a.1 = anchor) with
    | true => exact .some ha.2
    | false => exact ih

/-- An alias points to the same node in both documents. -/
theorem Requoted.target? (h : d.Requoted info t d') (hn : n.Requoted info t n') :
    Option.Rel (Node.Requoted info t) (d.target? n) (d'.target? n') := by
  cases hn with
  | reference _ _ anchor =>
    -- Only an alias leads elsewhere: to the last node with its anchor.
    have hfind := rel_find?_anchored (List.forall₂_reverse_iff.mpr h.anchored) anchor
    rw [Document.target?, Document.target?]
    generalize d.anchored.reverse.find? _ = a? at hfind
    generalize d'.anchored.reverse.find? _ = a'? at hfind
    cases hfind with
    | some hn => exact .some hn
    | none => exact .none
  | scalar hi => exact .some (.scalar hi)
  | quoted hi hstyle => exact .some (.quoted hi hstyle)
  | sequence hi hlength h => exact .some (.sequence hi hlength h)
  | mapping hi hlength hkeys h => exact .some (.mapping hi hlength hkeys h)

end Document

/-! ### Scalars -/

/-- With a tag of its own a scalar means the same in all styles, and without one it
means its text in all styles but the plain one. -/
theorem Scalar.read_quoted {style : Style} {v : Value} (hstyle : style ≠ .plain)
    (h : read info.tag t .plain = .value v) :
    read info.tag t style = .value v ∨ read info.tag t style = .value (.text t) := by
  cases htag : info.tag with
  | none => exact .inr (if_neg hstyle)
  | some tag =>
    have hsame : read (some tag) t style = read (some tag) t .plain := rfl
    rw [htag] at h
    exact .inl (hsame.trans h)

/-! ### Loading -/

namespace Load

variable {α β γ δ : Type} {Q : α → Prop} {R : α → β → Prop} {n? : Option Nat}

/-- Where `x` comes to something, `y` comes to something related to it, after as
many aliases, or to nothing at all; the latter is out of the question where `Q`
holds. -/
def Mirrors (Q : α → Prop) (R : α → β → Prop) (x : Loader α) (y : Loader β) : Prop :=
  ∀ k a k', x.run k = some (a, k') →
    (∀ b l, y.run k = some (b, l) → R a b ∧ l = k') ∧ (Q a → ∃ r, y.run k = some r)

/-- Related answers mirror each other. -/
theorem mirrors_pure {a : α} {b : β} (h : R a b) : Mirrors Q R (pure a) (pure b) := by
  intro k a' k' ha
  cases ha
  refine ⟨fun b' l hb => ?_, fun _ => ⟨_, rfl⟩⟩
  cases hb
  exact ⟨h, rfl⟩

/-- Results without counting mirror each other when they are related, and the second one
is there where it has to be. -/
theorem mirrors_lift {o : Option α} {o' : Option β}
    (h : ∀ a, o = some a → (∀ b, o' = some b → R a b) ∧ (Q a → ∃ b, o' = some b)) :
    Mirrors Q R (liftM o) (liftM o') := by
  intro k a k' ha
  obtain ⟨ho, rfl⟩ := run_lift_eq_some_iff.mp ha
  obtain ⟨hrelated, hsome⟩ := h a ho
  -- Nothing is counted on either side.
  constructor
  · intro b l hb
    obtain ⟨ho', rfl⟩ := run_lift_eq_some_iff.mp hb
    exact ⟨hrelated b ho', rfl⟩
  · intro hQ
    obtain ⟨b, hb⟩ := hsome hQ
    exact ⟨(b, k'), run_lift_eq_some_iff.mpr ⟨hb, rfl⟩⟩

/-- The first steps mirror each other and so do the rest. What `Q'` asks of the
result has to give what `Q` asks on the way. -/
theorem mirrors_bind {Q' : γ → Prop} {R' : γ → δ → Prop} {x : Loader α} {y : Loader β}
    {f : α → Loader γ} {g : β → Loader δ} (hxy : Mirrors Q R x y)
    (hfg : ∀ a b, R a b → Mirrors Q' R' (f a) (g b))
    (hQ : ∀ a, Yields (fun c => Q' c → Q a) (f a)) : Mirrors Q' R' (x >>= f) (y >>= g) := by
  intro k c k' hc
  obtain ⟨a, l, ha, hc⟩ := run_bind_eq_some_iff.mp hc
  obtain ⟨hrelated, hsome⟩ := hxy k a l ha
  constructor
  · -- Where both rows end, they end in related answers with the same count.
    intro d m hd
    obtain ⟨b, l', hb, hd⟩ := run_bind_eq_some_iff.mp hd
    obtain ⟨hab, rfl⟩ := hrelated b l' hb
    exact (hfg a b hab l' c k' hc).1 d m hd
  · -- What has to hold for the second row to end holds for its first part as well.
    intro hQ'
    obtain ⟨⟨b, l'⟩, hb⟩ := hsome (hQ a l c k' hc hQ')
    obtain ⟨hab, rfl⟩ := hrelated b l' hb
    obtain ⟨r, hr⟩ := (hfg a b hab l' c k' hc).2 hQ'
    exact ⟨r, run_bind_eq_some_iff.mpr ⟨b, l', hb, hr⟩⟩

/-- Two rows of loads mirror each other when they do load by load. -/
theorem mirrors_mapM {f : γ → Loader α} {g : δ → Loader β} {xs : List γ} {ys : List δ}
    (h : List.Forall₂ (fun x y => Mirrors Q R (f x) (g y)) xs ys) :
    Mirrors (∀ a ∈ ·, Q a) (List.Forall₂ R) (xs.mapM f) (ys.mapM g) := by
  -- By induction on the two rows; the conditions on the items are those on the first one and on
  -- the others.
  induction h with
  | nil => exact mirrors_pure .nil
  | cons hxy _ ih =>
    rw [List.mapM_cons, List.mapM_cons]
    refine mirrors_bind hxy (fun a b hab => mirrors_bind ih (fun as bs hrest => ?_) fun as => ?_)
      fun a => yields_bind (Q := fun _ => True) (fun _ _ _ _ => trivial) fun as _ => ?_
    · exact mirrors_pure (.cons hab hrest)
    · exact yields_pure fun hQ => (List.forall_mem_cons.mp hQ).2
    · exact yields_pure fun hQ => (List.forall_mem_cons.mp hQ).1

variable (hd : d.Requoted info t d')

include hd in
/-- What an alias leads to is requoted like the alias, and as many may be followed. -/
theorem mirrors_follow (hn : n.Requoted info t n') :
    Mirrors (fun _ => True) (Node.Requoted info t) (follow d n) (follow d' n') := by
  cases hn with
  | reference mark mark' anchor =>
    have htarget := hd.target? (.reference mark mark' anchor)
    intro k m k' hm
    rw [run_follow_alias, Option.ite_none_left_eq_some, Option.map_eq_some_iff] at hm
    obtain ⟨hfew, m, hm, heq⟩ := hm
    cases heq
    -- The limit depends on the size of the document only, so the count is allowed again.
    rw [run_follow_alias, hd.size_eq, if_neg hfew]
    rw [hm] at htarget
    generalize d'.target? (.alias mark' anchor) = o at htarget ⊢
    cases htarget with
    | some hmm' =>
      refine ⟨fun b l hb => ?_, fun _ => ⟨_, rfl⟩⟩
      cases hb
      exact ⟨hmm', rfl⟩
  | scalar hi => exact mirrors_pure (.scalar hi)
  | quoted hi hstyle => exact mirrors_pure (.quoted hi hstyle)
  | sequence hi hlength h => exact mirrors_pure (.sequence hi hlength h)
  | mapping hi hlength hkeys h => exact mirrors_pure (.mapping hi hlength hkeys h)

/-- Only the tag of a node decides how it is tagged. -/
theorem withTag_eq {i i' : Info} (hi : i.Alike i') (v : Value) : withTag i' v = withTag i v := by
  rw [withTag, withTag, hi.tag]

/-- The value of a scalar depends on its tag, not on its place. -/
theorem scalarValue_eq {i i' : Info} (hi : i.Alike i') (text : String) (style : Style) :
    scalarValue i' text style = scalarValue i text style := by
  rw [scalarValue, scalarValue, hi.tag]

/-- A tag around values that are spelt alike changes nothing. -/
theorem spelt_withTag (i : Info) {v v' : Value} (h : v.Spelt n? v') :
    (withTag i v).Spelt n? (withTag i v') := by
  unfold withTag
  split
  · exact .tagged h
  · exact h

/-- A tag has no keys of its own. -/
theorem keysStay_of_withTag {i : Info} {v : Value} (h : (withTag i v).KeysStay n?) :
    v.KeysStay n? := by
  unfold withTag at h
  split at h
  · exact h.of_tagged
  · exact h

/-- Whether keys are there twice is a matter of the keys. -/
theorem distinct_eq {entries entries' : List (Value × Value)}
    (h : List.Forall₂ (fun e e' => e'.1 = e.1) entries entries') :
    mapping?.distinct entries' = mapping?.distinct entries := by
  have hany {k : Value} {es es' : List (Value × Value)}
      (h : List.Forall₂ (fun e e' => e'.1 = e.1) es es') :
      es'.any (fun e => k.same e.1) = es.any (fun e => k.same e.1) := by
    induction h with
    | nil => rfl
    | cons he _ ih => rw [List.any_cons, List.any_cons, he, ih]
  -- Keys are compared with the keys after them, and these are the same.
  induction h with
  | nil => rfl
  | cons he hrest ih => rw [mapping?.distinct, mapping?.distinct, he, hany hrest, ih]

/-- Where the keys stay, a mapping has no key twice when the other one has none. -/
theorem mirrors_mapping? {entries entries' : List (Value × Value)}
    (h : List.Forall₂ (fun e e' => e.1.Spelt n? e'.1 ∧ e.2.Spelt n? e'.2) entries entries') :
    Mirrors (Value.KeysStay n?) (Value.Spelt n?) (liftM (mapping? entries))
      (liftM (mapping? entries')) := by
  refine mirrors_lift fun v hv => ?_
  rw [mapping?, Option.ite_none_right_eq_some] at hv
  obtain ⟨hdistinct, hv⟩ := hv
  cases hv
  constructor
  · intro v' hv'
    rw [mapping?, Option.ite_none_right_eq_some] at hv'
    cases hv'.2
    exact .of_forall₂_map h
  · intro hkeys
    -- Where the keys stay, the other mapping has the very same ones.
    have hsame : List.Forall₂ (fun e e' => e'.1 = e.1) entries entries' :=
      ((List.forall₂_and_left entries entries').mpr ⟨fun e he => he, h⟩).imp
        fun e e' he => hkeys.key_eq he.1 he.2.1
    exact ⟨_, by rw [mapping?, distinct_eq hsame, if_pos hdistinct]⟩

/-- An entry is loaded like the other one when its key and its value are. -/
theorem mirrors_loadEntry {depth : Nat} {e e' : Node × Node}
    (hkey : Mirrors (Value.KeysStay n?) (Value.Spelt n?) (load d depth e.1) (load d' depth e'.1))
    (hvalue : Mirrors (Value.KeysStay n?) (Value.Spelt n?) (load d depth e.2)
      (load d' depth e'.2)) :
    Mirrors (fun e => e.1.KeysStay n? ∧ e.2.KeysStay n?)
      (fun e e' => e.1.Spelt n? e'.1 ∧ e.2.Spelt n? e'.2) (loadEntry d depth e)
      (loadEntry d' depth e') := by
  -- The key is loaded first, then the value, and nothing is asked of the rest.
  refine mirrors_bind hkey (fun k k' hk => mirrors_bind hvalue (fun v v' hv => ?_) fun v => ?_)
    fun k => yields_bind (Q := fun _ => True) (fun _ _ _ _ => trivial) fun v _ => ?_
  · exact mirrors_pure ⟨hk, hv⟩
  · exact yields_pure And.right
  · exact yields_pure And.left

/-- The keys and values of a mapping that is loaded stay as they are if those of
the mapping do. -/
theorem yields_keysStay {i : Info} {es : List (Value × Value)} :
    Yields (fun v => v.KeysStay n? → ∀ e ∈ es, e.1.KeysStay n? ∧ e.2.KeysStay n?)
      (withTag i <$> (mapping? es : Loader Value)) := by
  rw [map_eq_pure_bind]
  refine yields_bind (Q := fun v => v = .map es) (yields_lift fun v hv => ?_) ?_
  · rw [mapping?, Option.ite_none_right_eq_some] at hv
    cases hv.2
    rfl
  · -- What holds of the keys of the whole mapping holds of each entry of it.
    rintro v rfl
    refine yields_pure fun hkeys e he => ?_
    have hmap := keysStay_of_withTag hkeys
    exact ⟨hmap.key_of_mem_map e he, hmap.of_mem_map e he⟩

/-- A plain scalar without a tag of the document keeps its value in quotes, or
becomes its text. -/
theorem scalarValue_quoted {style : Style} {v : Value} (hstyle : style ≠ .plain)
    (hv : ∀ tag w, v ≠ .tagged tag w) (h : scalarValue info t .plain = some v) :
    scalarValue info t style = some v ∨ scalarValue info t style = some (.text t) := by
  unfold scalarValue at h ⊢
  split at h
  · obtain ⟨w, -, rfl⟩ := Option.map_eq_some_iff.mp h
    exact absurd rfl (hv _ w)
  · split at h
    -- Without a tag of its own, the scalar is what it was, or its text.
    next hread =>
      cases h
      rcases Scalar.read_quoted hstyle hread with hread | hread
      · exact .inl (by rw [hread])
      · exact .inr (by rw [hread])
    next => cases h

/-- In quotes, the scalar still has a value: the same, or the digits of the number
that it was. -/
def QuotesAs (info : Info) (t : String) (n? : Option Nat) : Prop :=
  ∀ i' style v, info.Alike i' → style ≠ .plain → scalarValue info t .plain = some v →
    ∃ v', scalarValue i' t style = some v' ∧ v.Spelt n? v'

include hd in
/-- The document with the scalar in quotes is loaded as the other one is, node by
node. The induction is on the depth that is left, which both have in common. -/
theorem mirrors_load (hquotes : QuotesAs info t n?) (depth : Nat) (hn : n.Requoted info t n') :
    Mirrors (Value.KeysStay n?) (Value.Spelt n?) (load d depth n) (load d' depth n') := by
  have hscalar {i i' : Info} {text : String} {style : Style} (hi : i.Alike i') :
      Mirrors (Value.KeysStay n?) (Value.Spelt n?) (liftM (scalarValue i text style))
        (liftM (scalarValue i' text style)) := by
    rw [scalarValue_eq hi]
    refine mirrors_lift fun v hv => ⟨fun v' hv' => ?_, fun _ => ⟨v, hv⟩⟩
    cases hv.symm.trans hv'
    exact .refl v
  have hquoted {i' : Info} {style : Style} (hi : info.Alike i') (hstyle : style ≠ .plain) :
      Mirrors (Value.KeysStay n?) (Value.Spelt n?) (liftM (scalarValue info t .plain))
        (liftM (scalarValue i' t style)) := by
    refine mirrors_lift fun v hv => ?_
    obtain ⟨v', hv', hspelt⟩ := hquotes i' style v hi hstyle hv
    refine ⟨fun w hw => ?_, fun _ => ⟨v', hv'⟩⟩
    cases hv'.symm.trans hw
    exact hspelt
  -- By induction on the depth. A node is followed, and then the two are scalars, lists or
  -- mappings together; only a scalar can be in quotes.
  induction depth generalizing n n' with
  | zero =>
    rw [load_eq, load_eq]
    refine mirrors_bind (mirrors_follow hd hn) (fun m m' hm => ?_) fun _ _ _ _ _ _ => trivial
    cases hm with
    | scalar hi => exact hscalar hi
    | quoted hi hstyle => exact hquoted hi hstyle
    | _ => exact fun _ _ _ => nofun
  | succ depth ih =>
    rw [load_eq, load_eq]
    refine mirrors_bind (mirrors_follow hd hn) (fun m m' hm => ?_) fun _ _ _ _ _ _ => trivial
    cases hm with
    | scalar hi => exact hscalar hi
    | quoted hi hstyle => exact hquoted hi hstyle
    | @sequence i i' items items' hi hlength h =>
      have hitems := List.forall₂_iff_zip.mpr ⟨hlength, fun hp => ih (h _ hp)⟩
      refine mirrors_bind (mirrors_mapM hitems) (fun vs vs' hvs => ?_) fun vs => ?_
      · rw [withTag_eq hi]
        exact mirrors_pure (spelt_withTag i (.of_forall₂_list hvs))
      · exact yields_pure fun hkeys => (keysStay_of_withTag hkeys).of_mem_list
    | @mapping i i' entries entries' hi hlength hkeys h =>
      have hentries := List.forall₂_iff_zip.mpr
        ⟨hlength, fun hp => mirrors_loadEntry (ih (hkeys _ hp)) (ih (h _ hp))⟩
      refine mirrors_bind (mirrors_mapM hentries) (fun es es' hes => ?_) fun _ => yields_keysStay
      rw [map_eq_pure_bind, map_eq_pure_bind]
      refine mirrors_bind (mirrors_mapping? hes) (fun v v' hv => ?_) fun v => ?_
      · rw [withTag_eq hi]
        exact mirrors_pure (spelt_withTag i hv)
      · exact yields_pure keysStay_of_withTag
    | reference => exact fun _ _ _ => nofun

end Load

/-- The values of the two documents are the same up to the digits of a number. Only
keys that are there twice keep the document with the scalar in quotes from having
one. -/
theorem Document.value?_of_requoted {n? : Option Nat} (hd : d.Requoted info t d')
    (hquotes : Load.QuotesAs info t n?) {v : Value} (hv : d.value? = some v) :
    (∀ v', d'.value? = some v' → v.Spelt n? v') ∧
      (v.KeysStay n? → ∃ v', d'.value? = some v') := by
  obtain ⟨hroot, hroot'⟩ | ⟨n, n', hroot, hroot', hn⟩ := hd.cases
  · rw [Document.value?, hroot] at hv
    cases hv
    rw [Document.value?, hroot']
    refine ⟨fun v' hv' => ?_, fun _ => ⟨_, rfl⟩⟩
    cases hv'
    exact .refl _
  · rw [Document.value?, hroot, Option.map_eq_some_iff] at hv
    obtain ⟨⟨v, k⟩, hload, rfl⟩ := hv
    -- The two loads start with the same count, so one mirrors the other.
    obtain ⟨hrelated, hsome⟩ := Load.mirrors_load hd hquotes Load.depthLimit hn 0 v k hload
    rw [Document.value?, hroot']
    constructor
    · intro v' hv'
      obtain ⟨⟨v', l⟩, hload', rfl⟩ := Option.map_eq_some_iff.mp hv'
      exact (hrelated v' l hload').1
    · intro hkeys
      obtain ⟨⟨v', l⟩, hload'⟩ := hsome hkeys
      exact ⟨v', Option.map_eq_some_iff.mpr ⟨(v', l), hload', rfl⟩⟩

end Yaml

end Promotion
