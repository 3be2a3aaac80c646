import Mathlib.Tactic.Common
import Promotion.Proofs.Json.Reader
import Promotion.Proofs.Yaml.Meaning

/-!
# `Promotion.Proofs.Document.Loaded`: the values that documents have

Two things hold of the value of every document, whatever the document says. Its
whole numbers are below `2 ^ 64`: a number that is larger becomes a floating-point
number in JSON, and is refused in YAML. And no mapping in it has a key twice: in
JSON the last of several entries with one key counts, and YAML refuses them.

* `Json.loaded_of_read?`, `Yaml.loaded_of_read`: the values of the two formats.
* `Json.Reader.pairwise_insertEntry`: the entries of a JSON mapping are in the
  order of their keys.
-/

set_option autoImplicit false

namespace Promotion

/-- No two entries have the same key. -/
def Value.KeysDiffer (entries : List (Value × Value)) : Prop :=
  entries.Pairwise fun e e' => e.1.same e'.1 = false

/-- A value that a document can have: whole numbers are below `2 ^ 64`, and no
mapping has a key twice. -/
inductive Value.Loaded : Value → Prop
  | null : Loaded .null
  | bool (b : Bool) : Loaded (.bool b)
  | int {n : Int} (h : n < Int.pow 2 64) : Loaded (.int n)
  | float (x : Decimal.Binary64) : Loaded (.float x)
  | text (s : String) : Loaded (.text s)
  | list {items : List Value} (h : ∀ v ∈ items, Loaded v) : Loaded (.list items)
  | map {entries : List (Value × Value)} (hkeys : KeysDiffer entries)
      (h : ∀ e ∈ entries, Loaded e.2) : Loaded (.map entries)
  | tagged {tag : String} {v : Value} (h : Loaded v) : Loaded (.tagged tag v)

open Value (Loaded KeysDiffer)

namespace Value.Loaded

variable {items : List Value} {entries : List (Value × Value)}

/-- The items of a list that a document can have. -/
theorem of_mem_list (h : Loaded (.list items)) {v : Value} (hv : v ∈ items) : v.Loaded := by
  cases h with
  | list h => exact h v hv

/-- The values of a mapping that a document can have. -/
theorem of_mem_map (h : Loaded (.map entries)) {e : Value × Value} (he : e ∈ entries) :
    e.2.Loaded := by
  cases h with
  | map _ h => exact h e he

/-- The keys of a mapping that a document can have differ. -/
theorem keysDiffer (h : Loaded (.map entries)) : KeysDiffer entries := by
  cases h with
  | map hkeys _ => exact hkeys

end Value.Loaded

/-! ### JSON -/

namespace Json

namespace Number

/-- Digits are gathered as long as the number stays below the bound. -/
theorem gatherWhole_lt {n : Nat} (hn : n < bound) (digits : List Char) :
    (gatherWhole n digits).digits < bound := by
  -- By induction on the digits: a digit is taken only after the test against the bound.
  induction digits generalizing n with
  | nil => exact hn
  | cons c digits ih =>
    rw [gatherWhole]
    split
    next hlt => exact ih hlt
    next => exact hn

/-- A whole number below the bound may stand in a document, negated or not. -/
theorem loaded_whole (negative : Bool) {n : Nat} (hn : n < bound) : (whole negative n).Loaded := by
  have hlt : (n : Int) < Int.pow 2 64 := Int.ofNat_lt.mpr hn
  unfold whole
  split
  · exact .int hlt
  split
  · have hneg : -(n : Int) ≤ n := by omega
    exact .int (Int.lt_of_le_of_lt hneg hlt)
  · exact .float _

/-- A number that is too large to be whole is a floating-point number. -/
theorem loaded_of_float? {negative : Bool} {g : Gathered} {v : Value}
    (h : float? negative g = some v) : v.Loaded := by
  obtain ⟨x, -, rfl⟩ := Option.map_eq_some_iff.mp h
  exact .float _

/-- A number is whole when it has digits only and these fit, and a floating-point number
otherwise. -/
theorem loaded_of_ofParts {negative : Bool} {digits : List Char} {fraction : Option (List Char)}
    {exponent : Option (Bool × List Char)} {v : Value}
    (h : ofParts negative digits fraction exponent = some v) : v.Loaded := by
  -- The cases are those of a fraction and an exponent being there or not.
  simp only [ofParts] at h
  split at h
  · split at h
    · cases h
      exact loaded_whole negative (gatherWhole_lt (by decide) digits)
    · exact loaded_of_float? h
  · exact loaded_of_float? h
  · split at h
    · exact loaded_of_float? h
    · split at h
      · cases h
        exact .float _
      · cases h

end Number

/-- Every number of JSON may stand in a document. -/
theorem loaded_of_number? {s : List Char} {v : Value} (h : number? s = some v) : v.Loaded := by
  unfold number? at h
  split at h
  split at h
  · cases h
  · cases h
  split at h
  · cases h
  split at h
  · exact Number.loaded_of_ofParts h
  · cases h

namespace Token

/-- The values among tokens are such values. -/
def AllLoaded (tokens : List Token) : Prop := ∀ v, value v ∈ tokens → v.Loaded

/-- The words of JSON are null and the two truth values. -/
theorem loaded_of_word? {s : List Char} {v : Value} (h : word? s = some v) : v.Loaded := by
  unfold word? at h
  split at h
  · cases h
    exact .null
  split at h
  · cases h
    exact .bool true
  split at h
  · cases h
    exact .bool false
  · cases h

/-- What the end of the text completes is a word or a number. -/
theorem allLoaded_of_close {state : State} {ts : List Token} (h : close state = some ts) :
    AllLoaded ts := by
  unfold close at h
  split at h
  · cases h
    nofun
  · obtain ⟨v, hword, rfl⟩ := Option.map_eq_some_iff.mp h
    intro w hw
    cases List.mem_singleton.mp hw
    exact loaded_of_word? hword
  · obtain ⟨v, hnumber, rfl⟩ := Option.map_eq_some_iff.mp h
    intro w hw
    cases List.mem_singleton.mp hw
    exact loaded_of_number? hnumber
  · cases h

/-- No value is complete at its first character. -/
theorem allLoaded_of_start {c : Char} {next : State} {ts : List Token}
    (h : start c = some (next, ts)) : AllLoaded ts := by
  have hnone : ∀ v, value v ∉ ts := by
    intro v
    unfold start at h
    repeat' split at h
    all_goals simp only [Option.some.injEq, Prod.mk.injEq, reduceCtorEq] at h
    all_goals simp [← h.2]
  intro v hv
  exact absurd hv (hnone v)

/-- A character may end a word or number and be a token itself. -/
theorem allLoaded_of_close_start {state next : State} {c : Char} {before after : List Token}
    (hbefore : close state = some before) (hafter : start c = some (next, after)) :
    AllLoaded (before ++ after) := by
  intro v hv
  rcases List.mem_append.mp hv with hv | hv
  · exact allLoaded_of_close hbefore v hv
  · exact allLoaded_of_start hafter v hv

/-- A character completes a value that a document can have, or none. -/
theorem allLoaded_of_step {state next : State} {c : Char} {ts : List Token}
    (h : step state c = some (next, ts)) : AllLoaded ts := by
  have hnil : AllLoaded [] := nofun
  -- One case for each state. Only a string that ends here, or a word or number that ends before
  -- this character, completes a value.
  unfold step at h
  cases state with
  | between => exact allLoaded_of_start h
  | word read =>
    simp only at h
    split at h
    · cases h
      exact hnil
    split at h
    next hbefore hafter =>
      cases h
      exact allLoaded_of_close_start hbefore hafter
    next => cases h
  | number read =>
    simp only at h
    split at h
    · cases h
      exact hnil
    split at h
    next hbefore hafter =>
      cases h
      exact allLoaded_of_close_start hbefore hafter
    next => cases h
  | string read =>
    simp only at h
    split at h
    · cases h
      intro v hv
      cases List.mem_singleton.mp hv
      exact .text _
    split at h
    · cases h
      exact hnil
    split at h
    · cases h
    · cases h
      exact hnil
  | escape read =>
    simp only at h
    split at h
    · cases h
      exact hnil
    · obtain ⟨_, -, hstep⟩ := Option.map_eq_some_iff.mp h
      cases hstep
      exact hnil
  | hex read high count code =>
    simp only at h
    split at h
    · cases h
    split at h
    · obtain ⟨_, -, hstep⟩ := Option.map_eq_some_iff.mp h
      cases hstep
      exact hnil
    · cases h
      exact hnil
  | pair read high =>
    simp only [Option.ite_none_right_eq_some, Option.some.injEq, Prod.mk.injEq] at h
    exact h.2.2 ▸ hnil
  | pairEscape read high =>
    simp only [Option.ite_none_right_eq_some, Option.some.injEq, Prod.mk.injEq] at h
    exact h.2.2 ▸ hnil

/-- All values among the tokens of a text may stand in a document. -/
theorem allLoaded_of_scan {state : State} {s : List Char} {ts : List Token}
    (h : scan state s = some ts) : AllLoaded ts := by
  -- By induction on the text, with the state generalized; what one character completes comes
  -- before the rest.
  induction s generalizing state ts with
  | nil => exact allLoaded_of_close h
  | cons c s ih =>
    rw [scan] at h
    split at h
    next => cases h
    next next before hstep =>
      obtain ⟨after, hafter, rfl⟩ := Option.map_eq_some_iff.mp h
      intro v hv
      rcases List.mem_append.mp hv with hv | hv
      · exact allLoaded_of_step hstep v hv
      · exact ih hafter v hv

end Token

namespace Reader

/-- So are the values that an open list or mapping holds so far. -/
def Frame.Loaded : Frame → Prop
  | .list items => ∀ v ∈ items, v.Loaded
  | .map entries _ => ∀ e ∈ entries, e.2.Loaded

/-- So are the values that the machine holds beside the open lists and mappings. -/
def Expect.Loaded : Expect → Prop
  | .key entries => ∀ e ∈ entries, e.2.Loaded
  | .colon entries _ => ∀ e ∈ entries, e.2.Loaded
  | .done v => v.Loaded
  | _ => True

/-- So are all values that the machine holds. -/
structure State.Loaded (s : State) : Prop where
  stack : ∀ f ∈ s.stack, f.Loaded
  expect : s.expect.Loaded

/-- Entering an entry adds no other one. -/
theorem eq_or_mem_of_mem_insertEntry {key : String} {v : Value} {sorted : List (String × Value)}
    {e : String × Value} (h : e ∈ insertEntry key v sorted) : e = (key, v) ∨ e ∈ sorted := by
  -- By induction on the entries, in the cases of the insertion: before the first one, in its
  -- place, or after it.
  induction sorted with
  | nil => exact .inl (List.mem_singleton.mp h)
  | cons first sorted ih =>
    rw [insertEntry] at h
    split at h
    · exact List.mem_cons.mp h
    split at h
    · exact (List.mem_cons.mp h).imp_right (List.mem_cons_of_mem _)
    · rcases List.mem_cons.mp h with rfl | h
      · exact .inr List.mem_cons_self
      · exact (ih h).imp_right (List.mem_cons_of_mem _)

/-- Entries stay in the order of their keys when one more is entered. -/
theorem pairwise_insertEntry (key : String) (v : Value) {sorted : List (String × Value)}
    (h : sorted.Pairwise (·.1 < ·.1)) : (insertEntry key v sorted).Pairwise (·.1 < ·.1) := by
  induction sorted with
  | nil => exact List.pairwise_singleton _ _
  | cons first sorted ih =>
    obtain ⟨k, w⟩ := first
    rw [List.pairwise_cons] at h
    rw [insertEntry]
    split
    next hlt =>
      exact List.pairwise_cons.mpr ⟨List.forall_mem_cons.mpr
        ⟨hlt, fun e he => String.lt_trans hlt (h.1 e he)⟩, List.pairwise_cons.mpr h⟩
    split
    -- The key is there already: its value is replaced, and the order of the keys is as before.
    next heq =>
      subst heq
      exact List.pairwise_cons.mpr h
    next hnlt hne =>
      -- Neither smaller nor equal, so the first key stays in front of the new one.
      have hlt : k < key := by
        by_contra hnlt'
        exact hne (String.le_antisymm (String.not_lt.mp hnlt) (String.not_lt.mp hnlt')).symm
      refine List.pairwise_cons.mpr ⟨fun e he => ?_, ih h.2⟩
      rcases eq_or_mem_of_mem_insertEntry he with rfl | he
      · exact hlt
      · exact h.1 e he

/-- The entries of a mapping have different keys, whatever entries it is made of. -/
theorem loaded_mapOf {entries : List (String × Value)} (h : ∀ e ∈ entries, e.2.Loaded) :
    (mapOf entries).Loaded := by
  -- The order of the keys and the values are carried through the insertions together.
  obtain ⟨hsorted, hloaded⟩ :
      (entries.foldr (fun e sorted => insertEntry e.1 e.2 sorted) []).Pairwise (·.1 < ·.1) ∧
      ∀ e ∈ entries.foldr (fun e sorted => insertEntry e.1 e.2 sorted) [], e.2.Loaded := by
    induction entries with
    | nil => exact ⟨.nil, nofun⟩
    | cons e entries ih =>
      rw [List.forall_mem_cons] at h
      obtain ⟨hsorted, hloaded⟩ := ih h.2
      refine ⟨pairwise_insertEntry e.1 e.2 hsorted, fun e' he' => ?_⟩
      rcases eq_or_mem_of_mem_insertEntry he' with rfl | he'
      · exact h.1
      · exact hloaded e' he'
  -- Keys in strict order differ from each other.
  rw [mapOf, List.foldl_reverse]
  refine .map (List.pairwise_map.mpr (hsorted.imp fun {e e'} hlt => ?_)) fun e he => ?_
  · rw [Value.same, beq_eq_false_iff_ne]
    intro heq
    rw [heq] at hlt
    exact String.lt_irrefl _ hlt
  · obtain ⟨e', he', rfl⟩ := List.mem_map.mp he
    exact hloaded e' he'

/-- A value that is complete goes into the frame it was read for. -/
theorem loaded_complete {stack : List Frame} {v : Value} (hstack : ∀ f ∈ stack, f.Loaded)
    (hv : v.Loaded) : (complete stack v).Loaded := by
  cases stack with
  | nil => exact ⟨nofun, hv⟩
  | cons f stack =>
    rw [List.forall_mem_cons] at hstack
    cases f with
    | list items =>
      exact ⟨List.forall_mem_cons.mpr ⟨List.forall_mem_cons.mpr ⟨hv, hstack.1⟩, hstack.2⟩, trivial⟩
    | map entries key =>
      exact ⟨List.forall_mem_cons.mpr ⟨List.forall_mem_cons.mpr ⟨hv, hstack.1⟩, hstack.2⟩, trivial⟩

/-- A token that starts a value completes it, or opens a frame without any. -/
theorem loaded_of_startValue {stack : List Frame} {token : Token} {s : State}
    (h : startValue stack token = some s) (hstack : ∀ f ∈ stack, f.Loaded)
    (htoken : ∀ v, token = .value v → v.Loaded) : s.Loaded := by
  unfold startValue at h
  split at h
  · cases h
    exact loaded_complete hstack (htoken _ rfl)
  · simp only [Option.ite_none_right_eq_some, Option.some.injEq] at h
    obtain ⟨-, rfl⟩ := h
    exact ⟨List.forall_mem_cons.mpr ⟨nofun, hstack⟩, trivial⟩
  · simp only [Option.ite_none_right_eq_some, Option.some.injEq] at h
    obtain ⟨-, rfl⟩ := h
    exact ⟨List.forall_mem_cons.mpr ⟨nofun, hstack⟩, trivial⟩
  · cases h

/-- A token in the place of a key changes none of the values before it. -/
theorem loaded_of_startKey {stack : List Frame} {entries : List (String × Value)} {token : Token}
    {s : State} (h : startKey stack entries token = some s) (hstack : ∀ f ∈ stack, f.Loaded)
    (hentries : ∀ e ∈ entries, e.2.Loaded) : s.Loaded := by
  unfold startKey at h
  split at h
  · cases h
    exact ⟨hstack, hentries⟩
  · cases h

/-- A token keeps the values of the reader those of a document. -/
theorem loaded_of_step {s s' : State} {token : Token} (h : step s token = some s')
    (hs : s.Loaded) (htoken : ∀ v, token = .value v → v.Loaded) : s'.Loaded := by
  obtain ⟨hstack, hexpect⟩ := hs
  unfold step at h
  generalize s.stack = stack at h hstack
  generalize s.expect = expect at h hexpect
  split at h
  -- One case for each row of the table of the machine, in its order.
  · exact loaded_of_startValue h hstack htoken
  · rw [List.forall_mem_cons] at hstack
    -- The frame on top says what the token is taken for.
    cases h
    exact loaded_complete hstack.2 (.list nofun)
  · exact loaded_of_startValue h hstack htoken
  · rw [List.forall_mem_cons] at hstack
    cases h
    exact loaded_complete hstack.2 (loaded_mapOf nofun)
  · exact loaded_of_startKey h hstack nofun
  · exact loaded_of_startKey h hstack hexpect
  · rw [List.forall_mem_cons] at hstack
    cases h
    exact ⟨List.forall_mem_cons.mpr ⟨hexpect, hstack.2⟩, trivial⟩
  · cases h
    exact ⟨hstack, trivial⟩
  · rw [List.forall_mem_cons] at hstack
    cases h
    exact loaded_complete hstack.2 (.list fun v hv => hstack.1 v (List.mem_reverse.mp hv))
  · cases h
    exact ⟨hstack, (List.forall_mem_cons.mp hstack).1⟩
  · rw [List.forall_mem_cons] at hstack
    cases h
    exact loaded_complete hstack.2 (loaded_mapOf hstack.1)
  · cases h

/-- All tokens of a text keep the values of the reader those of a document. -/
theorem loaded_of_run {s s' : State} {ts : List Token} (h : run s ts = some s') (hs : s.Loaded)
    (hts : Token.AllLoaded ts) : s'.Loaded := by
  -- By induction on the tokens.
  induction ts generalizing s with
  | nil =>
    cases h
    exact hs
  | cons token ts ih =>
    rw [run_cons, Option.bind_eq_some_iff] at h
    obtain ⟨s₁, hstep, hrest⟩ := h
    have hs₁ := loaded_of_step hstep hs fun v hv => hts v (by simp [hv])
    exact ih hrest hs₁ fun v hv => hts v (List.mem_cons_of_mem _ hv)

end Reader

/-- The value of a JSON document. -/
theorem loaded_of_read? {s : List Char} {v : Value} (h : read? s = some v) : v.Loaded := by
  unfold read? at h
  split at h
  next hrun =>
    obtain ⟨ts, hscan, hrun⟩ := Option.bind_eq_some_iff.mp hrun
    cases h
    exact (Reader.loaded_of_run hrun ⟨nofun, trivial⟩ (Token.allLoaded_of_scan hscan)).expect
  next => cases h

end Json

/-! ### YAML -/

namespace Yaml

/-- The whole numbers of YAML that fit are below `2 ^ 64`. -/
theorem lt_of_intOf? {s : String} {n : Int} (h : intOf? s = some (.fits n)) :
    n < Int.pow 2 64 := by
  unfold intOf? at h
  split at h
  · cases h
  split at h
  next hrange =>
    cases h
    have hlt := (Bool.and_eq_true_iff.mp hrange).2
    exact of_decide_eq_true hlt
  next =>
    split at h <;> cases h

/-- Whatever a scalar may mean is such a value. -/
theorem Means.loaded {s : String} {v : Value} (h : Means s v) : v.Loaded := by
  cases h with
  | null => exact .null
  | bool b => exact .bool b
  | int hint => exact .int (lt_of_intOf? hint)
  | float x => exact .float x
  | text => exact .text s

namespace Load

variable {α β : Type}

/-- Whatever loading comes to satisfies `P`. -/
def Yields (P : α → Prop) (x : Loader α) : Prop := ∀ n a n', x.run n = some (a, n') → P a

/-- A value yields itself. -/
theorem yields_pure {P : α → Prop} {a : α} (h : P a) : Yields P (pure a) := by
  intro n b n' hrun
  cases hrun
  exact h

/-- What the second load comes to may depend on what holds of the first one. -/
theorem yields_bind {P : α → Prop} {x : Loader β} {f : β → Loader α} {Q : β → Prop}
    (hx : Yields Q x) (hf : ∀ b, Q b → Yields P (f b)) : Yields P (x >>= f) := by
  intro n a n' hrun
  rw [StateT.run_bind, Option.bind_eq_bind, Option.bind_eq_some_iff] at hrun
  obtain ⟨⟨b, n₁⟩, hb, ha⟩ := hrun
  exact hf b (hx n b n₁ hb) n₁ a n' ha

/-- A row of loads yields item by item. -/
theorem yields_mapM {P : α → Prop} {f : β → Loader α} {xs : List β} (h : ∀ x ∈ xs, Yields P (f x)) :
    Yields (∀ a ∈ ·, P a) (xs.mapM f) := by
  -- By induction on the row.
  induction xs with
  | nil => exact yields_pure nofun
  | cons x xs ih =>
    rw [List.forall_mem_cons] at h
    rw [List.mapM_cons]
    exact yields_bind h.1 fun a ha => yields_bind (ih h.2) fun as has =>
      yields_pure (List.forall_mem_cons.mpr ⟨ha, has⟩)

/-- A result without counting yields what it is. -/
theorem yields_lift {P : α → Prop} {o : Option α} (h : ∀ a, o = some a → P a) :
    Yields P (liftM o : Loader α) := by
  intro n a n' hrun
  cases o with
  | none => cases hrun
  | some b =>
    cases hrun
    exact h _ rfl

/-- A tag around a value of a document changes nothing about it. -/
theorem loaded_withTag (info : Info) {v : Value} (hv : v.Loaded) : (withTag info v).Loaded := by
  unfold withTag
  split
  · exact .tagged hv
  · exact hv

/-- Every scalar is null, a truth value, a number that fits, or a text. -/
theorem loaded_of_scalarValue {info : Info} {text : String} {style : Style} {v : Value}
    (h : scalarValue info text style = some v) : v.Loaded := by
  rcases means_of_scalarValue h with hmeans | ⟨tag, w, rfl, hmeans⟩
  · exact hmeans.loaded
  · exact .tagged hmeans.loaded

variable {document : Document} {n : Node}

/-- Without depth only a scalar is loaded. -/
theorem load_zero : load document 0 n = (do
    match ← follow document n with
    | .scalar info text style => scalarValue info text style
    | _ => failure) := by
  delta load
  refine bind_congr (m := Loader) (x := follow document n) fun m => ?_
  cases m <;> rfl

/-- With depth left, what is inside is loaded with one level less. -/
theorem load_succ (depth : Nat) : load document (depth + 1) n = (do
    match ← follow document n with
    | .scalar info text style => scalarValue info text style
    | .sequence info items => return withTag info (.list (← items.mapM (load document depth)))
    | .mapping info entries =>
      let loaded ← entries.mapM fun (k, v) => do
        return (← load document depth k, ← load document depth v)
      withTag info <$> (mapping? loaded : Loader Value)
    | _ => failure) := by
  delta load
  refine bind_congr (m := Loader) (x := follow document n) fun m => ?_
  cases m <;> rfl

/-- What fails yields nothing. -/
theorem yields_failure {P : α → Prop} : Yields P (failure : Loader α) := nofun

/-- The keys of a mapping are compared each with those after it. -/
theorem keysDiffer_of_distinct {entries : List (Value × Value)}
    (h : mapping?.distinct entries = true) : KeysDiffer entries := by
  induction entries with
  | nil => exact .nil
  | cons e entries ih =>
    rw [mapping?.distinct, Bool.and_eq_true] at h
    refine List.pairwise_cons.mpr ⟨fun e' he' => ?_, ih h.2⟩
    have hnone := h.1
    simp only [Bool.not_eq_true', List.any_eq_false] at hnone
    simpa using hnone e' he'

/-- Loading comes to such values, whatever their depth. -/
theorem yields_load (depth : Nat) : Yields Value.Loaded (load document depth n) := by
  -- Of the node an alias leads to nothing has to be known: the cases below ask what kind it is.
  have hfollow (n : Node) : Yields (fun _ => True) (follow document n) := fun _ _ _ _ => trivial
  -- By induction on the depth, which is what the recursion counts down.
  induction depth generalizing n with
  | zero =>
    rw [load_zero]
    refine yields_bind (hfollow n) fun m _ => ?_
    split
    · exact yields_lift fun v hv => loaded_of_scalarValue hv
    · exact yields_failure
  | succ depth ih =>
    rw [load_succ]
    refine yields_bind (hfollow n) fun m _ => ?_
    split
    · exact yields_lift fun v hv => loaded_of_scalarValue hv
    · refine yields_bind (yields_mapM fun n _ => ih) fun items hitems => ?_
      exact yields_pure (loaded_withTag _ (.list hitems))
    · -- Nothing is asked of the keys; that they differ is checked when the mapping is complete.
      refine yields_bind (Q := fun entries => ∀ e ∈ entries, e.2.Loaded)
        (yields_mapM fun e _ => ?_) fun entries hentries => ?_
      · exact yields_bind (Q := fun _ => True) (fun _ _ _ _ => trivial) fun _ _ =>
          yields_bind ih fun v hv => yields_pure hv
      · rw [map_eq_pure_bind]
        refine yields_bind (yields_lift fun v hv => ?_) fun v hv =>
          yields_pure (loaded_withTag _ hv)
        rw [mapping?, Option.ite_none_right_eq_some] at hv
        cases hv.2
        exact .map (keysDiffer_of_distinct hv.1) hentries
    · exact yields_failure

end Load

/-- The value of a YAML document. -/
theorem loaded_of_read {s : List Char} {v : Value} (h : read s = .ok v) : v.Loaded := by
  unfold read at h
  split at h
  next => cases h
  next d _ =>
    split at h
    next hvalue =>
      cases h
      -- An empty document has no value; any other one has that of its first node.
      unfold Document.value? at hvalue
      split at hvalue
      · cases hvalue
        exact .null
      · obtain ⟨⟨v, n⟩, hload, rfl⟩ := Option.map_eq_some_iff.mp hvalue
        exact Load.yields_load _ _ _ _ hload
    next => cases h

end Yaml

end Promotion
