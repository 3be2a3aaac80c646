import Promotion.Json.Reader
import Promotion.Proofs.Json.Token

/-!
# `Promotion.Proofs.Json.Reader`: what is written is read back

The machine that puts tokens together is run on the tokens of a value. Whatever
lists and mappings are open, it comes to the same state as if the value had
been a single token (`run_tokens`). Mappings come back in the order of their
keys (`ordered`).

* `read?_lines`: the text of a value is a document that holds the value.
-/

set_option autoImplicit false

namespace Promotion.Json

open Reader Token

mutual

/-- The value with its mappings in the order of their keys. -/
def ordered : Value → Value
  | .list items => .list (orderedItems items)
  | .map entries => mapOf (orderedEntries entries).reverse
  | v => v

/-- The items of a list, each with its mappings in order. -/
def orderedItems : List Value → List Value
  | [] => []
  | v :: rest => ordered v :: orderedItems rest

/-- The entries of a mapping, each with its mappings in order. A key is a text. -/
def orderedEntries : List (Value × Value) → List (String × Value)
  | [] => []
  | (.text key, v) :: rest => (key, ordered v) :: orderedEntries rest
  | _ :: rest => orderedEntries rest

end

namespace Reader

/-- The tokens are read one after the other. -/
theorem run_cons (s : State) (token : Token) (rest : List Token) :
    run s (token :: rest) = (step s token).bind (run · rest) :=
  List.foldlM_cons ..

/-! ### Single tokens -/

section Step

variable {stack : List Frame} {expect : Expect} (hexpect : expect = .value ∨ expect = .firstItem)
  {items : List Value} {entries : List (String × Value)} {key : String}

include hexpect in
/-- A value is complete where one is expected. -/
theorem step_value (v : Value) :
    step ⟨stack, expect⟩ (value v) = some (complete stack v) := by
  rcases hexpect with rfl | rfl <;> simp [step, startValue]

include hexpect in
/-- A list starts where a value is expected, unless it is nested too deeply. -/
theorem step_openList (hdepth : stack.length < depthLimit) :
    step ⟨stack, expect⟩ openList = some ⟨.list [] :: stack, .firstItem⟩ := by
  rcases hexpect with rfl | rfl <;> simp [step, startValue, hdepth]

include hexpect in
/-- A mapping starts where a value is expected, unless it is nested too deeply. -/
theorem step_openMap (hdepth : stack.length < depthLimit) :
    step ⟨stack, expect⟩ openMap = some ⟨.map [] "" :: stack, .firstKey⟩ := by
  rcases hexpect with rfl | rfl <;> simp [step, startValue, hdepth]

/-- A list may end at once. -/
@[simp] theorem step_list_empty :
    step ⟨.list items :: stack, .firstItem⟩ closeList = some (complete stack (.list [])) := rfl

/-- After a comma another item has to follow. -/
@[simp] theorem step_list_comma :
    step ⟨.list items :: stack, .separator⟩ comma = some ⟨.list items :: stack, .value⟩ := rfl

/-- A list ends after an item; the items were collected in reverse. -/
@[simp] theorem step_list_close :
    step ⟨.list items :: stack, .separator⟩ closeList
      = some (complete stack (.list items.reverse)) := rfl

/-- A mapping may end at once. -/
@[simp] theorem step_map_empty :
    step ⟨.map entries key :: stack, .firstKey⟩ closeMap = some (complete stack (mapOf [])) := rfl

/-- The first key of a mapping is followed by a colon. -/
@[simp] theorem step_map_firstKey (k : String) :
    step ⟨stack, .firstKey⟩ (value (.text k)) = some ⟨stack, .colon [] k⟩ := by
  simp [step, startKey]

/-- A key after a comma is followed by a colon. -/
@[simp] theorem step_map_key (k : String) :
    step ⟨stack, .key entries⟩ (value (.text k)) = some ⟨stack, .colon entries k⟩ := rfl

/-- The value follows the colon. -/
@[simp] theorem step_map_colon (before : List (String × Value)) (k : String) :
    step ⟨.map before key :: stack, .colon entries k⟩ colon
      = some ⟨.map entries k :: stack, .value⟩ := rfl

/-- After a comma another key has to follow. -/
@[simp] theorem step_map_comma :
    step ⟨.map entries key :: stack, .separator⟩ comma
      = some ⟨.map entries key :: stack, .key entries⟩ := rfl

/-- A mapping ends after an entry. -/
@[simp] theorem step_map_close :
    step ⟨.map entries key :: stack, .separator⟩ closeMap
      = some (complete stack (mapOf entries)) := rfl

/-- A value that is complete inside a list is its next item. -/
@[simp] theorem complete_list (v : Value) :
    complete (.list items :: stack) v = ⟨.list (v :: items) :: stack, .separator⟩ := rfl

/-- A value that is complete inside a mapping goes with the key before it. -/
@[simp] theorem complete_map (v : Value) :
    complete (.map entries key :: stack) v = ⟨.map ((key, v) :: entries) key :: stack, .separator⟩ :=
  rfl

end Step

/-! ### Values -/

/-- The value is read as if it were a single token. -/
def Reads (depth : Nat) (v : Value) : Prop :=
  ∀ (stack : List Frame) (expect : Expect) (rest : List Token),
    stack.length + depth ≤ depthLimit → expect = .value ∨ expect = .firstItem →
    run ⟨stack, expect⟩ (tokens v ++ rest) = run (complete stack (ordered v)) rest

section Rows

variable {depth : Nat} {stack : List Frame} (hstack : stack.length + (depth + 1) ≤ depthLimit)

include hstack

/-- The items after the first are added to the open list. -/
theorem run_itemTokens {items : List Value} (h : ∀ v ∈ items, Reads depth v)
    (read : List Value) (rest : List Token) :
    run ⟨.list read :: stack, .separator⟩ (itemTokens items ++ rest)
      = run ⟨.list ((orderedItems items).reverse ++ read) :: stack, .separator⟩ rest := by
  induction items generalizing read with
  | nil => rfl
  | cons v items ih =>
    rw [List.forall_mem_cons] at h
    have hv := h.1 (.list read :: stack) .value (itemTokens items ++ rest)
      (by simp only [List.length_cons]; omega) (.inl rfl)
    simp [itemTokens, orderedItems, run_cons, hv, ih h.2]

/-- The entries after the first are added to the open mapping. -/
theorem run_entryTokens {entries : List (Value × Value)}
    (hkeys : ∀ e ∈ entries, ∃ key, e.1 = .text key) (h : ∀ e ∈ entries, Reads depth e.2)
    (read : List (String × Value)) (key : String) (rest : List Token) :
    ∃ last, run ⟨.map read key :: stack, .separator⟩ (entryTokens entries ++ rest)
      = run ⟨.map ((orderedEntries entries).reverse ++ read) last :: stack, .separator⟩ rest := by
  -- By induction on the entries. The frame keeps the last key, of which nothing is known after
  -- them.
  induction entries generalizing read key with
  | nil => exact ⟨key, rfl⟩
  | cons e entries ih =>
    rw [List.forall_mem_cons] at h hkeys
    obtain ⟨⟨k, hk⟩, hkeys⟩ := hkeys
    obtain ⟨k', v⟩ := e
    subst hk
    have hv := h.1 (.map read k :: stack) .value (entryTokens entries ++ rest)
      (by simp only [List.length_cons]; omega) (.inl rfl)
    obtain ⟨last, hrest⟩ := ih hkeys h.2 ((k, ordered v) :: read) k
    refine ⟨last, ?_⟩
    simp [entryTokens, orderedEntries, run_cons, hv, hrest]

end Rows

/-- Where a value may stand, it is read as if it were a single token. -/
theorem run_tokens {depth : Nat} {v : Value} (hv : Writable depth v) : Reads depth v := by
  -- By induction on the value, for every stack that leaves enough levels. The first item has no
  -- comma in front of it, so it is taken apart from the others.
  induction hv with
  | null =>
    intro stack expect rest _ hexpect
    simp [tokens, ordered, run_cons, step_value hexpect]
  | bool =>
    intro stack expect rest _ hexpect
    simp [tokens, ordered, run_cons, step_value hexpect]
  | text =>
    intro stack expect rest _ hexpect
    simp [tokens, ordered, run_cons, step_value hexpect]
  | @list depth items _ ih =>
    intro stack expect rest hstack hexpect
    have hopen := step_openList hexpect (show stack.length < depthLimit by omega)
    cases items with
    | nil => simp [tokens, ordered, orderedItems, run_cons, hopen]
    | cons v items =>
      rw [List.forall_mem_cons] at ih
      have hv := fun rest => ih.1 (.list [] :: stack) .firstItem rest
        (by simp only [List.length_cons]; omega) (.inr rfl)
      have hitems := run_itemTokens hstack ih.2 [ordered v] (closeList :: rest)
      simp [tokens, ordered, orderedItems, run_cons, hopen, hv, hitems]
  | @map depth entries hkeys _ ih =>
    intro stack expect rest hstack hexpect
    have hopen := step_openMap hexpect (show stack.length < depthLimit by omega)
    cases entries with
    | nil => simp [tokens, ordered, orderedEntries, run_cons, hopen]
    | cons e entries =>
      rw [List.forall_mem_cons] at ih hkeys
      obtain ⟨⟨key, hkey⟩, hkeys⟩ := hkeys
      obtain ⟨k, v⟩ := e
      subst hkey
      have hv := fun rest => ih.1 (.map [] key :: stack) .value rest
        (by simp only [List.length_cons]; omega) (.inl rfl)
      obtain ⟨last, hentries⟩ :=
        run_entryTokens hstack hkeys ih.2 [(key, ordered v)] key (closeMap :: rest)
      simp [tokens, ordered, orderedEntries, run_cons, hopen, hv, hentries]

end Reader

/-- The text of a value is a document that holds the value. -/
theorem read?_lines {v : Value} (hv : Writable depthLimit v) :
    read? (lines 0 v ++ ['\n']) = some (ordered v) := by
  have hend : ∀ c ∈ ['\n'].head?, c.isAlpha = false := by
    intro c hc
    obtain rfl : '\n' = c := Option.some.inj hc
    decide
  -- The text is taken apart into the tokens of the value, and these are put together again.
  have hscan : ofText? (lines 0 v ++ ['\n']) = some (tokens v) := by
    rw [ofText?, scan_lines hv 0 ['\n'] hend, scan_lineFeed]
    simp [scan, close]
  have hrun : run ⟨[], .value⟩ (tokens v) = some ⟨[], .done (ordered v)⟩ := by
    have hread := run_tokens hv [] .value [] (by simp) (.inl rfl)
    rwa [List.append_nil] at hread
  simp [read?, hscan, hrun]

end Promotion.Json
