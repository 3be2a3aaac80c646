import Promotion.Yaml.Load

/-!
# `Promotion.Proofs.Yaml.Meaning`: what the text of a scalar may mean

How a scalar is written and tagged decides which of the things that its text may
mean it does mean, if any.

* `Means`: nothing, a truth value, a number, or the text itself.
* `means_of_resolve?`, `Scalar.means_of_read`, `Load.means_of_scalarValue`: a scalar
  means nothing else.
-/

set_option autoImplicit false

namespace Promotion.Yaml

/-- What the text of a scalar may mean: nothing, a truth value, a number, or itself. -/
inductive Means (s : String) : Value → Prop
  | null : Means s .null
  | bool (b : Bool) : Means s (.bool b)
  | int {n : Int} (h : intOf? s = some (.fits n)) : Means s (.int n)
  | float (x : Decimal.Binary64) : Means s (.float x)
  | text : Means s (.text s)

/-- A word for null means null. -/
theorem means_of_nullOf? {s : String} {v : Value} (h : nullOf? s = some v) : Means s v := by
  rw [nullOf?, Option.ite_none_right_eq_some] at h
  cases h.2
  exact .null

/-- A word for a truth value means that truth value. -/
theorem means_of_boolOf? {s : String} {v : Value} (h : boolOf? s = some v) : Means s v := by
  unfold boolOf? at h
  split at h
  · cases h
    exact .bool true
  split at h
  · cases h
    exact .bool false
  · cases h

/-- What a plain scalar is resolved to is one of its meanings. -/
theorem means_of_resolve? {s : String} {v : Value} (h : resolve? s = some v) : Means s v := by
  -- The kinds are tried in turn; what is none of them is a text.
  unfold resolve? at h
  split at h
  next hnull =>
    cases h
    exact means_of_nullOf? hnull
  next hbool =>
    cases h
    exact means_of_boolOf? hbool
  next hint =>
    cases h
    exact .int hint
  next => cases h
  next =>
    split at h
    · cases h
      exact .text
    · cases h
      cases floatOf? s with
      | none => exact .text
      | some x => exact .float x

namespace Scalar

variable {t : String} {style : Style} {v : Value}

/-- A tag asks for one kind of meaning. -/
theorem means_of_ofOption {expected : String} {o : Option Value} (ho : ∀ w ∈ o, Means t w)
    (h : Reading.ofOption t expected o = .value v) : Means t v := by
  cases o with
  | none => cases h
  | some w =>
    cases h
    exact ho _ rfl

/-- What a scalar is read as is one of its meanings, with or without a tag of the
standard. -/
theorem means_of_read {tag : Option String} (h : read tag t style = .value v) : Means t v := by
  -- Without a tag the text decides; with one, the tag says which kind it has to be.
  cases tag with
  | none =>
    simp only [read, readPlain] at h
    split at h
    · split at h
      next hresolve =>
        cases h
        exact means_of_resolve? hresolve
      next => cases h
    · cases h
      exact .text
  | some tag =>
    simp only [read] at h
    split at h
    · exact means_of_ofOption (fun w => means_of_boolOf?) h
    split at h
    · split at h
      next hint =>
        cases h
        exact .int hint
      next => cases h
      next => cases h
    split at h
    · refine means_of_ofOption (fun w hw => ?_) h
      obtain ⟨x, -, rfl⟩ := Option.map_eq_some_iff.mp hw
      exact .float x
    split at h
    · refine means_of_ofOption (fun w hw => ?_) h
      split at hw
      · cases hw
      · exact means_of_nullOf? hw
    · cases h
      exact .text

end Scalar

/-- A tag of the document's own is put around what the scalar means. -/
theorem Load.means_of_scalarValue {info : Info} {t : String} {style : Style} {v : Value}
    (h : scalarValue info t style = some v) :
    Means t v ∨ ∃ tag w, v = .tagged tag w ∧ Means t w := by
  -- A tag of its own is kept around the value.
  unfold scalarValue at h
  split at h
  · obtain ⟨w, hw, rfl⟩ := Option.map_eq_some_iff.mp h
    refine .inr ⟨_, w, rfl, ?_⟩
    split at hw
    · exact means_of_resolve? hw
    · cases hw
      exact .text
  · split at h
    next hread =>
      cases h
      exact .inl (Scalar.means_of_read hread)
    next => cases h

end Promotion.Yaml
