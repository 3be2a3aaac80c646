import Promotion.Proofs.Path.Above

/-!
# `Promotion.Proofs.Path.Pending`: the search for the longest leading part

`Path.pending` looks at a path and, as long as there is nothing, at the path
above. What can be resolved is asked from outside, and the answers may be
anything. Each look that fails leaves one more name missing (`Misses.higher`),
which is what ends the search.

* `above?_leadingPart`: above a leading part is the one without its last name.
* `Path.Settles`: the search, look by look, without a bound on the looks.
* `Path.Misses`: what is known while it goes on.
* `pending_settles`: it ends, and what the answer says of the path.
-/

set_option autoImplicit false

namespace Promotion.Path

variable {p : Path} {name : Name} {n : Nat}

/-! ### Above a leading part -/

/-- Above a leading part that ends in a name is the one without the name. -/
theorem above?_leadingPart (hn : n < p.components.length) (hname : p.components[n] = .name name) :
    (p.leadingPart (n + 1)).above? = some (p.leadingPart n, name) := by
  have hn' : n < p.placedComponents.length := by rwa [length_placedComponents]
  obtain ⟨ending, hlast⟩ : ∃ ending, p.placedComponents[n] = (.name name, ending) := by
    refine ⟨p.placedComponents[n].2, Prod.ext ?_ rfl⟩
    rw [← hname]
    simp [components]
  have htake : p.placedComponents.take (n + 1)
      = p.placedComponents.take n ++ [(.name name, ending)] := by
    rw [← hlast, List.take_append_getElem hn']
  have hplaced := placedComponents_leadingPart hn htake
  have hfile : (p.leadingPart (n + 1)).fileName? = some name := by
    rw [fileName?_eq_some_iff, components_leadingPart (Nat.succ_pos n) hn,
      ← List.take_append_getElem hn, List.getLast?_concat, hname]
  rcases Nat.eq_zero_or_pos n with rfl | hpos
  · -- The name stands alone, in the current directory.
    rw [above?, parent?_of_singleton hplaced, hfile, leadingPart_zero hn]
    rfl
  · obtain ⟨init, c, position, hinit⟩ := exists_take_eq_concat hpos (Nat.le_of_lt hn)
    rw [hinit] at htake hplaced
    have hbefore := leadingPart_of_lt hn hinit
    have hmem : (c, position) ∈ init ++ [(c, position)] ++ [(.name name, ending)] := by simp
    have htext := take_leadingPart hn htake hmem
    rw [above?, parent?_of_concat hplaced, hfile, htext, ← hbefore]
    dsimp only
    rw [isEmpty_leadingPart hpos (Nat.le_of_lt hn), if_neg Bool.false_ne_true]

/-- Nothing is looked at above a path without a name at its end. -/
theorem above?_eq_none_of_fileName? (h : p.fileName? = none) : p.above? = none := by
  rw [above?, h]
  split
  next heq => cases heq
  · rfl

/-- Nothing is above a leading part that ends in something else. -/
theorem above?_leadingPart_eq_none (hn : n ≤ p.components.length)
    (hname : ∀ name, (p.components.take n).getLast? ≠ some (.name name)) :
    (p.leadingPart n).above? = none := by
  rcases Nat.eq_zero_or_pos n with rfl | hpos
  · -- Nothing is above the current directory, and nothing is above a path without components.
    rcases Nat.eq_zero_or_pos p.components.length with hzero | hpos
    · have hself := leadingPart_length p
      rw [hzero] at hself
      refine above?_eq_none_of_fileName? ?_
      rw [hself, fileName?, List.eq_nil_of_length_eq_zero hzero]
      rfl
    · rw [leadingPart_zero hpos]
      rfl
  · refine above?_eq_none_of_fileName? (Option.eq_none_iff_forall_ne_some.mpr fun name hlast => ?_)
    rw [fileName?_eq_some_iff, components_leadingPart hpos hn] at hlast
    exact hname name hlast

/-- The last one of the first components. -/
theorem exists_getElem_of_getLast? {c : Component} (hn : n ≤ p.components.length)
    (h : (p.components.take n).getLast? = some c) :
    ∃ k, n = k + 1 ∧ ∃ hk : k < p.components.length, p.components[k] = c := by
  cases n with
  | zero => simp at h
  | succ k =>
    rw [← List.take_append_getElem hn, List.getLast?_concat, Option.some.injEq] at h
    exact ⟨k, rfl, hn, h⟩

/-- What is above a leading part is the leading part without the name at its end. -/
theorem above?_leadingPart_eq_some {parent : Path} (hn : n ≤ p.components.length)
    (h : (p.leadingPart n).above? = some (parent, name)) :
    ∃ k, n = k + 1 ∧ ∃ hk : k < p.components.length,
      p.components[k] = .name name ∧ parent = p.leadingPart k := by
  -- The last component has to be a name, for otherwise nothing is above.
  by_cases hname : ∀ name, (p.components.take n).getLast? ≠ some (.name name)
  · cases h.symm.trans (above?_leadingPart_eq_none hn hname)
  · simp only [not_forall, not_not] at hname
    obtain ⟨name', hlast⟩ := hname
    obtain ⟨k, rfl, hk, hget⟩ := exists_getElem_of_getLast? hn hlast
    have habove := h.symm.trans (above?_leadingPart hk hget)
    rw [Option.some.injEq, Prod.mk.injEq] at habove
    obtain ⟨rfl, rfl⟩ := habove
    exact ⟨k, rfl, hk, hget, rfl⟩

/-- A leading part that nothing is above does not end in a name. -/
theorem getLast?_ne_name_of_above? (hn : n ≤ p.components.length)
    (h : (p.leadingPart n).above? = none) (name : Name) :
    (p.components.take n).getLast? ≠ some (.name name) := by
  intro hlast
  obtain ⟨k, rfl, hk, hget⟩ := exists_getElem_of_getLast? hn hlast
  cases h.symm.trans (above?_leadingPart hk hget)

/-! ### The search -/

section Search

variable {ε : Type} {resolve : Path → Except ε Path} {part : Path} {e : ε}
  {missing : List Name} {answer : Except ε Path} {fuel looks : Nat}

/-- The search for the longest leading part that can be resolved, look by look:
it takes so many looks, at the part `part` with the names `missing` behind it and
at the parts above, until there is an answer. -/
inductive Settles (resolve : Path → Except ε Path) :
    Path → List Name → Nat → Except ε Path → Prop
  | found {part base : Path} {missing : List Name} (h : resolve part = .ok base) :
      Settles resolve part missing 1 (.ok (base.descend missing))
  | stuck {part : Path} {missing : List Name} {e : ε} (h : resolve part = .error e)
      (habove : part.above? = none) : Settles resolve part missing 1 (.error e)
  | higher {part parent : Path} {name : Name} {missing : List Name} {looks : Nat} {e : ε}
      {answer : Except ε Path} (h : resolve part = .error e)
      (habove : part.above? = some (parent, name))
      (hparent : Settles resolve parent (name :: missing) looks answer) :
      Settles resolve part missing (looks + 1) answer

/-- The names `missing` are what the path `p` has behind its first `n` components,
and no leading part with more components can be resolved. -/
structure Misses (resolve : Path → Except ε Path) (p : Path) (n : Nat) (missing : List Name) :
    Prop where
  le : n ≤ p.components.length
  behind : p.components.drop n = missing.map .name
  plain : ∀ name ∈ missing, PlainName name
  failed : ∀ m, n < m → m ≤ p.components.length → ∃ e, resolve (p.leadingPart m) = .error e

/-- At the start nothing has been looked at. -/
theorem misses_start (resolve : Path → Except ε Path) (p : Path) :
    Misses resolve p p.components.length [] where
  le := Nat.le_refl _
  behind := List.drop_length
  plain := by simp
  failed m hlt hle := absurd hlt (Nat.not_lt_of_le hle)

/-- A look that fails leaves one more name missing. -/
theorem Misses.higher (h : Misses resolve p (n + 1) missing) (hn : n < p.components.length)
    (hname : p.components[n] = .name name) (hresolve : resolve (p.leadingPart (n + 1)) = .error e) :
    Misses resolve p n (name :: missing) where
  le := Nat.le_of_lt hn
  behind := by rw [List.drop_eq_getElem_cons hn, hname, h.behind, List.map_cons]
  plain := by
    have hplain := (isAbove_of_above? (above?_leadingPart hn hname)).plain
    exact List.forall_mem_cons.mpr ⟨hplain, h.plain⟩
  -- The look at this part was the last one; all others are known.
  failed m hlt hle := by
    rcases Nat.lt_or_eq_of_le hlt with hlt | rfl
    · exact h.failed m hlt hle
    · exact ⟨e, hresolve⟩

/-- What the answer to a search says. -/
structure Answers (resolve : Path → Except ε Path) (p : Path) (answer : Except ε Path) : Prop where
  /-- The longest leading part that can be resolved, with what is missing below it. -/
  ok : ∀ q, answer = .ok q → ∃ n missing base, Misses resolve p n missing ∧
    resolve (p.leadingPart n) = .ok base ∧ q = base.descend missing ∧
      q.components = base.components ++ p.components.drop n
  /-- Nothing can be resolved as far up as names go: the last part that was looked
  at ends in a `..`, is the root or the current directory, or is empty. -/
  error : ∀ e, answer = .error e → ∃ n missing, Misses resolve p n missing ∧
    resolve (p.leadingPart n) = .error e ∧
      ∀ name, (p.components.take n).getLast? ≠ some (.name name)

/-- A path further down has one component more for each name. -/
theorem components_descend {names : List Name} (h : ∀ name ∈ names, PlainName name) :
    (p.descend names).components = p.components ++ names.map .name := by
  induction names generalizing p with
  | nil => simp
  | cons name names ih =>
    rw [List.forall_mem_cons] at h
    rw [descend_cons, ih h.2, components_child h.1]
    simp

/-- Along a search one more name is missing with each look, so there are no more
looks than components, and one. -/
theorem Settles.answers (hsettles : Settles resolve part missing looks answer)
    (hpart : part = p.leadingPart n) (h : Misses resolve p n missing) :
    looks ≤ n + 1 ∧ Answers resolve p answer := by
  -- By induction on the looks, with the number of components that are left generalized.
  induction hsettles generalizing n with
  | @found part base missing hresolve =>
    subst hpart
    refine ⟨by omega, ⟨?_, nofun⟩⟩
    rintro q ⟨⟩
    refine ⟨n, missing, base, h, hresolve, rfl, ?_⟩
    rw [components_descend h.plain, h.behind]
  | @stuck part missing e hresolve habove =>
    subst hpart
    refine ⟨by omega, ⟨nofun, ?_⟩⟩
    rintro e' ⟨⟩
    exact ⟨n, missing, h, hresolve, getLast?_ne_name_of_above? h.le habove⟩
  | higher hresolve habove _ ih =>
    subst hpart
    obtain ⟨k, rfl, hk, hname, hparent⟩ := above?_leadingPart_eq_some h.le habove
    obtain ⟨hlooks, hanswers⟩ := ih hparent (h.higher hk hname hresolve)
    exact ⟨by omega, hanswers⟩

/-- The search is not cut off while it may go up once for each component. -/
theorem exists_settles (hpart : part = p.leadingPart n) (hn : n ≤ p.components.length)
    (hfuel : n ≤ fuel) :
    ∃ looks, Settles resolve part missing looks (pendingFrom resolve fuel part missing) := by
  fun_induction pendingFrom resolve fuel part missing generalizing n with
  | case1 fuel part missing base hresolve => exact ⟨1, .found hresolve⟩
  | case2 part missing e hresolve fuel parent name habove ih =>
    subst hpart
    obtain ⟨k, rfl, hk, -, hparent⟩ := above?_leadingPart_eq_some hn habove
    obtain ⟨looks, hsettles⟩ := ih hparent (Nat.le_of_lt hk) (Nat.le_of_succ_le_succ hfuel)
    exact ⟨looks + 1, .higher hresolve habove hsettles⟩
  | case3 fuel part missing e hresolve hstop =>
    refine ⟨1, .stuck hresolve ?_⟩
    subst hpart
    -- It may still go up, so it has stopped because nothing is above.
    cases habove : (p.leadingPart n).above? with
    | none => rfl
    | some above =>
      obtain ⟨k, rfl, -⟩ := above?_leadingPart_eq_some hn habove
      cases fuel with
      | zero => exact absurd hfuel (Nat.not_succ_le_zero k)
      | succ fuel => exact (hstop fuel _ _ rfl habove).elim

/-- The search for the longest leading part that can be resolved ends, whatever can
be resolved, after at most one look more than the path has components. -/
theorem pending_settles (resolve : Path → Except ε Path) (p : Path) :
    ∃ looks, looks ≤ p.components.length + 1 ∧
      Settles resolve p [] looks (p.pending resolve) ∧ Answers resolve p (p.pending resolve) := by
  obtain ⟨looks, hsettles⟩ :=
    exists_settles (leadingPart_length p).symm (Nat.le_refl _) (Nat.le_refl _)
  obtain ⟨hlooks, hanswers⟩ :=
    hsettles.answers (leadingPart_length p).symm (misses_start resolve p)
  exact ⟨looks, hlooks, hsettles, hanswers⟩

end Search

end Promotion.Path
