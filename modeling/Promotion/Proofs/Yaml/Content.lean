import Promotion.Proofs.Yaml.Load

/-!
# `Promotion.Proofs.Yaml.Content`: what the nodes of a document stand for

A node is followed to the node that it means, and what is there is loaded. How deep
a collection may still be nested and how many aliases were followed before decides
whether a node loads, but not what it stands for.

* `load_eq`: loading is following, then loading the content.
* `Stands`: a node stands for a value.
* `Stands.of_scalar`, `Stands.of_sequence`, `Stands.of_mapping`: the value by what the
  node means.
-/

set_option autoImplicit false

namespace Promotion.Yaml

namespace Load

/-! ### Nodes -/

variable {α β : Type} {document : Document} {n : Node} {v : Value} {info : Info} {k k' : Nat}

/-- Two loads in a row come to something when both do. -/
theorem run_bind_eq_some_iff {x : Loader β} {f : β → Loader α} {r : α × Nat} :
    (x >>= f).run k = some r ↔ ∃ b l, x.run k = some (b, l) ∧ (f b).run l = some r := by
  rw [StateT.run_bind, Option.bind_eq_bind, Option.bind_eq_some_iff, Prod.exists]

/-- A result without counting counts nothing. -/
theorem run_lift_eq_some_iff {o : Option α} {a : α} :
    (liftM o : Loader α).run k = some (a, k') ↔ o = some a ∧ k' = k := by
  cases o with
  | none => exact ⟨nofun, nofun⟩
  | some b =>
    constructor
    · rintro ⟨⟩
      exact ⟨rfl, rfl⟩
    · rintro ⟨⟨⟩, rfl⟩
      rfl

/-- What a node that is no alias loads as. -/
def content (document : Document) : Nat → Node → Loader Value
  | _, .scalar info text style => scalarValue info text style
  | depth + 1, .sequence info items => do
    return withTag info (.list (← items.mapM (load document depth)))
  | depth + 1, .mapping info entries => do
    let loaded ← entries.mapM (loadEntry document depth)
    withTag info <$> (mapping? loaded : Loader Value)
  | _, _ => failure

/-- A node is loaded by following it and loading what it leads to. -/
theorem load_eq (depth : Nat) :
    load document depth n = follow document n >>= content document depth := by
  cases depth with
  | zero =>
    rw [load_zero]
    refine bind_congr (m := Loader) (x := follow document n) fun m => ?_
    cases m <;> rfl
  | succ depth =>
    rw [load_succ]
    refine bind_congr (m := Loader) (x := follow document n) fun m => ?_
    cases m <;> rfl

/-- Following an alias counts; where there are too many, nothing is loaded. -/
theorem run_follow_alias (mark : Mark) (anchor : Nat) :
    (follow document (.alias mark anchor)).run k =
      if document.size * 100 < k + 1 then none
      else (document.target? (.alias mark anchor)).map fun m => (m, k + 1) := by
  by_cases hmany : document.size * 100 < k + 1
  · simp only [follow, StateT.run_bind, StateT.run_get, pure_bind, hmany, if_true]
    rfl
  · simp only [follow, StateT.run_bind, StateT.run_get, pure_bind, hmany, if_false]
    cases document.target? (.alias mark anchor) <;> rfl

/-- A node is followed to its target. -/
theorem target?_of_follow {m : Node} (h : (follow document n).run k = some (m, k')) :
    document.target? n = some m := by
  match n with
  | .alias mark anchor =>
    rw [run_follow_alias, Option.ite_none_left_eq_some, Option.map_eq_some_iff] at h
    obtain ⟨-, m', htarget, heq⟩ := h
    cases heq
    exact htarget
  | .scalar _ _ _ => cases h; rfl
  | .sequence _ _ => cases h; rfl
  | .mapping _ _ => cases h; rfl

/-- What came one by one from a list. -/
theorem forall₂_of_run_mapM {f : β → Loader α} {xs : List β} {as : List α}
    (h : (xs.mapM f).run k = some (as, k')) :
    List.Forall₂ (fun x a => ∃ k k', (f x).run k = some (a, k')) xs as := by
  -- By induction on the row, with the count generalized.
  induction xs generalizing as k with
  | nil =>
    cases h
    exact .nil
  | cons x xs ih =>
    rw [List.mapM_cons, run_bind_eq_some_iff] at h
    obtain ⟨a, l, ha, h⟩ := h
    obtain ⟨as', l', has, h⟩ := run_bind_eq_some_iff.mp h
    cases h
    exact .cons ⟨_, _, ha⟩ (ih has)

/-- The node stands for the value: that is what it loads as, however deep it is
and however many aliases were followed before. -/
def Stands (document : Document) (n : Node) (v : Value) : Prop :=
  ∃ depth k k', (load document depth n).run k = some (v, k')

namespace Stands

/-- The value is that of the content of the target. -/
theorem exists_content {m : Node} (h : Stands document n v)
    (htarget : document.target? n = some m) :
    ∃ depth k k', (content document depth m).run k = some (v, k') := by
  obtain ⟨depth, k, k', hload⟩ := h
  rw [load_eq, run_bind_eq_some_iff] at hload
  obtain ⟨m', l, hfollow, hcontent⟩ := hload
  obtain rfl : m' = m := Option.some.inj ((target?_of_follow hfollow).symm.trans htarget)
  exact ⟨depth, l, k', hcontent⟩

/-- A node that leads to a scalar stands for its value. -/
theorem of_scalar {text : String} {style : Style} (h : Stands document n v)
    (htarget : document.target? n = some (.scalar info text style)) :
    scalarValue info text style = some v := by
  obtain ⟨depth, k, k', hcontent⟩ := h.exists_content htarget
  rw [content, run_lift_eq_some_iff] at hcontent
  exact hcontent.1

/-- A node that leads to a list stands for the list of what its items stand for. -/
theorem of_sequence {items : List Node} (h : Stands document n v)
    (htarget : document.target? n = some (.sequence info items)) :
    ∃ vs, v = withTag info (.list vs) ∧ List.Forall₂ (Stands document) items vs := by
  obtain ⟨depth, k, k', hcontent⟩ := h.exists_content htarget
  cases depth with
  | zero => cases hcontent
  | succ depth =>
    obtain ⟨vs, l, hvs, hv⟩ := run_bind_eq_some_iff.mp hcontent
    cases hv
    exact ⟨vs, rfl, (forall₂_of_run_mapM hvs).imp fun _ _ h => ⟨depth, h⟩⟩

/-- A node that leads to a mapping stands for what its keys and values stand for. -/
theorem of_mapping {entries : List (Node × Node)} (h : Stands document n v)
    (htarget : document.target? n = some (.mapping info entries)) :
    ∃ es, v = withTag info (.map es) ∧ List.Forall₂
      (fun e e' => Stands document e.1 e'.1 ∧ Stands document e.2 e'.2) entries es := by
  obtain ⟨depth, k, k', hcontent⟩ := h.exists_content htarget
  cases depth with
  | zero => cases hcontent
  | succ depth =>
    obtain ⟨es, l, hes, hv⟩ := run_bind_eq_some_iff.mp hcontent
    rw [map_eq_pure_bind] at hv
    obtain ⟨w, l', hw, hv⟩ := run_bind_eq_some_iff.mp hv
    cases hv
    -- A mapping with distinct keys is all its entries.
    rw [run_lift_eq_some_iff, mapping?, Option.ite_none_right_eq_some] at hw
    obtain ⟨⟨-, hw⟩, -⟩ := hw
    cases hw
    refine ⟨es, rfl, (forall₂_of_run_mapM hes).imp fun n e hn => ?_⟩
    obtain ⟨l₁, l₂, hentry⟩ := hn
    obtain ⟨key, l₃, hkey, hentry⟩ := run_bind_eq_some_iff.mp hentry
    obtain ⟨value, l₄, hvalue, hentry⟩ := run_bind_eq_some_iff.mp hentry
    cases hentry
    exact ⟨⟨depth, _, _, hkey⟩, depth, _, _, hvalue⟩

end Stands

end Load

end Promotion.Yaml
