import Mathlib.Tactic.Common
import Promotion.Session

/-!
# `Promotion.Proofs.Session`: how actions end

An action that is made of others succeeds exactly when they all do, one after
the other, and fails when one of them does after those before it. For each way
to make an action there is a lemma that says what success means and one that
says what failure means; a proof about a program rewrites with them from the
outside in.

* `bind_eq_ok_iff`, `bind_eq_error_iff`: the two lemmas on programs.
* `Action.after`: the session that is left behind, whatever the result.
* `mapM_ok_induct`, `mapM_error_induct`: what each of a row of actions keeps.
-/

set_option autoImplicit false

namespace Promotion.Action

variable {α β γ : Type} {s s' : Session} {a : α} {b : β} {x : Action α} {e : Failure}
  {cause : String → Failure}

/-- Two actions in a row succeed when the first one does and the second one does in the
session that the first one left. -/
theorem bind_eq_ok_iff {f : α → Action β} :
    (x >>= f).run s = .ok b s' ↔ ∃ a s₁, x.run s = .ok a s₁ ∧ (f a).run s₁ = .ok b s' := by
  -- The monad is opened in the lemmas of this module only; programs are taken apart by these.
  show EStateM.bind x f s = .ok b s' ↔ _
  unfold EStateM.bind EStateM.run
  cases x s <;> simp

/-- An action that only answers leaves the session as it is. -/
theorem pure_eq_ok_iff {a' : α} : (pure a : Action α).run s = .ok a' s' ↔ a' = a ∧ s' = s := by
  show EStateM.Result.ok a s = .ok a' s' ↔ _
  rw [EStateM.Result.ok.injEq, eq_comm, @eq_comm _ s]

/-- An action that fails at once has no answer. -/
theorem throw_ne_ok (e : Failure) : (throw e : Action α).run s ≠ .ok a s' := nofun

/-- The second action begins where the first one ends. -/
theorem run_bind_of_ok {f : α → Action β} {s₁ : Session} (h : x.run s = .ok a s₁) :
    (x >>= f).run s = (f a).run s₁ := by
  show EStateM.bind x f s = (f a).run s₁
  unfold EStateM.run at h
  unfold EStateM.bind
  rw [h]
  rfl

/-! ### Steps that always succeed -/

/-- What follows a look at the file system is told of the one there is. -/
@[simp] theorem run_tree_bind (f : FileTree → Action β) :
    (tree >>= f).run s = (f s.tree).run s := rfl

/-- What follows a change of the file system runs on the new one. -/
@[simp] theorem run_setTree_bind (t : FileTree) (f : Unit → Action β) :
    (setTree t >>= f).run s = (f ()).run { s with tree := t } := rfl

/-- An event is logged before what follows, and changes nothing else. -/
@[simp] theorem run_tell_bind (e : Event) (f : Unit → Action β) :
    (tell e >>= f).run s = (f ()).run { s with events := s.events ++ [e] } := rfl

/-- To tell an event is to log it, and cannot fail. -/
@[simp] theorem run_tell (e : Event) :
    (tell e).run s = .ok () { s with events := s.events ++ [e] } := rfl

/-- Events are logged in their order before what follows. -/
@[simp] theorem run_tellAll_bind (es : List Event) (f : Unit → Action β) :
    (tellAll es >>= f).run s = (f ()).run { s with events := s.events ++ es } := rfl

/-- Lines are printed one below the other, and nothing else changes. -/
theorem run_printLines (lines : List String) (s : Session) :
    (lines.forM printLine).run s
      = .ok () { s with printed := s.printed ++ String.join (lines.map (· ++ "\n")) } := by
  induction lines generalizing s with
  | nil => simp [String.join]
  | cons line lines ih =>
    have hrest := ih { s with printed := s.printed ++ (line ++ "\n") }
    rw [List.map_cons, String.join_cons, ← String.append_assoc]
    exact hrest

/-! ### Steps that can fail -/

/-- A result that is there already is the answer, and nothing else happens. -/
theorem ofExcept_eq_ok_iff {r : Except Failure α} :
    (ofExcept r).run s = .ok a s' ↔ r = .ok a ∧ s' = s := by
  cases r with
  | ok a' =>
    rw [Except.ok.injEq, @eq_comm _ a' a]
    exact pure_eq_ok_iff
  | error e => simp [ofExcept, throw_ne_ok]

/-- Reading succeeds when the file system answers, and leaves it as it is. -/
theorem reading_eq_ok_iff {read : FileTree → Except Fault α} :
    (reading read cause).run s = .ok a s' ↔ read s.tree = .ok a ∧ s' = s := by
  rw [reading, run_tree_bind]
  cases read s.tree with
  | ok a' =>
    rw [Except.ok.injEq, @eq_comm _ a' a]
    exact pure_eq_ok_iff
  | error fault => simp [throw_ne_ok]

/-- Writing succeeds when the file system can be changed so, and only it is changed. -/
theorem writing_eq_ok_iff {write : FileTree → Except Fault FileTree} {u : Unit} :
    (writing write cause).run s = .ok u s' ↔
      ∃ t, write s.tree = .ok t ∧ s' = { s with tree := t } := by
  rw [writing, run_tree_bind]
  cases write s.tree with
  | ok t =>
    show EStateM.Result.ok () { s with tree := t } = .ok u s' ↔ _
    simp [eq_comm]
  | error fault => simp

/-- Directories are made when no fault stopped half way; the file system is the one that
this left. -/
theorem makeDirectories_eq_ok_iff {p : Path} {u : Unit} :
    (makeDirectories p cause).run s = .ok u s' ↔ (s.tree.makeDirectories p).fault = none ∧
      s' = { s with tree := (s.tree.makeDirectories p).tree } := by
  rw [makeDirectories, run_tree_bind, run_setTree_bind]
  split
  next h =>
    rw [h, pure_eq_ok_iff]
    simp
  next h => simp [h]

/-- What is done on a failure does not count when it ends in a failure again. -/
theorem tryCatch_eq_ok_iff {handle : Failure → Action α}
    (h : ∀ e s₁, (handle e).run s₁ ≠ .ok a s') :
    (tryCatch x handle).run s = .ok a s' ↔ x.run s = .ok a s' := by
  show EStateM.tryCatch x handle s = .ok a s' ↔ x s = .ok a s'
  unfold EStateM.tryCatch
  cases x s with
  | ok => rfl
  | error e s₁ => exact iff_of_false (h e _) nofun

/-! ### Failures -/

/-- Two actions in a row fail when the first one does, or when the second one does in
the session that the first one left. -/
theorem bind_eq_error_iff {f : α → Action β} :
    (x >>= f).run s = .error e s' ↔ x.run s = .error e s' ∨
      ∃ a s₁, x.run s = .ok a s₁ ∧ (f a).run s₁ = .error e s' := by
  show EStateM.bind x f s = .error e s' ↔ _
  unfold EStateM.bind EStateM.run
  cases x s <;> simp

/-- An action that fails at once leaves the session as it is. -/
theorem throw_eq_error_iff {e' : Failure} :
    (throw e' : Action α).run s = .error e s' ↔ e = e' ∧ s' = s := by
  show EStateM.Result.error e' s = .error e s' ↔ _
  rw [EStateM.Result.error.injEq, eq_comm, @eq_comm _ s]

/-- A failure that is there already is the failure of the action. -/
theorem ofExcept_eq_error_iff {r : Except Failure α} :
    (ofExcept r).run s = .error e s' ↔ r = .error e ∧ s' = s := by
  cases r with
  | ok a => simp [ofExcept]
  | error e' =>
    rw [Except.error.injEq, @eq_comm _ e' e]
    exact throw_eq_error_iff

/-- Reading fails with the fault of the file system, put into the words of its cause. -/
theorem reading_eq_error_iff {read : FileTree → Except Fault α} :
    (reading read cause).run s = .error e s' ↔
      ∃ fault, read s.tree = .error fault ∧ e = cause fault.message ∧ s' = s := by
  rw [reading, run_tree_bind]
  cases read s.tree with
  | ok a => simp
  | error fault =>
    rw [throw_eq_error_iff]
    simp

/-- Writing fails with the fault of the file system, which stays as it is. -/
theorem writing_eq_error_iff {write : FileTree → Except Fault FileTree} :
    (writing write cause).run s = .error e s' ↔
      ∃ fault, write s.tree = .error fault ∧ e = cause fault.message ∧ s' = s := by
  rw [writing, run_tree_bind]
  cases write s.tree with
  | ok t =>
    show EStateM.Result.ok () { s with tree := t } = .error e s' ↔ _
    simp
  | error fault =>
    rw [throw_eq_error_iff]
    simp

/-- Where a fault stopped the making of directories, those that were made before it
stay. -/
theorem makeDirectories_eq_error_iff {p : Path} :
    (makeDirectories p cause).run s = .error e s' ↔
      ∃ fault, (s.tree.makeDirectories p).fault = some fault ∧ e = cause fault.message ∧
        s' = { s with tree := (s.tree.makeDirectories p).tree } := by
  rw [makeDirectories, run_tree_bind, run_setTree_bind]
  split
  next h => simp [h]
  next h =>
    rw [h, throw_eq_error_iff]
    simp

/-- What is done on a failure has the last word. -/
theorem tryCatch_eq_error_iff {handle : Failure → Action α} :
    (tryCatch x handle).run s = .error e s' ↔
      ∃ e₁ s₁, x.run s = .error e₁ s₁ ∧ (handle e₁).run s₁ = .error e s' := by
  show EStateM.tryCatch x handle s = .error e s' ↔ _
  unfold EStateM.tryCatch EStateM.run
  cases x s <;> simp [EStateM.Backtrackable.restore, EStateM.dummyRestore]

/-! ### Documents -/

section Document

variable {read : FileTree → Except Fault γ} {parse : γ → Except Failure α} {event : α → Event}

/-- A document that is read, made sense of and told about. -/
theorem document_eq_ok_iff :
    (do
      let text ← reading read cause
      let a ← ofExcept (parse text)
      tell (event a)
      return a : Action α).run s = .ok a s' ↔
      (∃ text, read s.tree = .ok text ∧ parse text = .ok a) ∧
        s' = { s with events := s.events ++ [event a] } := by
  rw [bind_eq_ok_iff]
  constructor
  · rintro ⟨text, s₁, hread, h⟩
    obtain ⟨htext, rfl⟩ := reading_eq_ok_iff.mp hread
    -- Neither the reading nor the parsing has changed the session.
    obtain ⟨a', s₂, hparse, hrest⟩ := bind_eq_ok_iff.mp h
    obtain ⟨hvalue, rfl⟩ := ofExcept_eq_ok_iff.mp hparse
    rw [run_tell_bind] at hrest
    obtain ⟨rfl, rfl⟩ := pure_eq_ok_iff.mp hrest
    exact ⟨⟨text, htext, hvalue⟩, rfl⟩
  · rintro ⟨⟨text, htext, hvalue⟩, rfl⟩
    refine ⟨text, s, reading_eq_ok_iff.mpr ⟨htext, rfl⟩, bind_eq_ok_iff.mpr ?_⟩
    exact ⟨a, s, ofExcept_eq_ok_iff.mpr ⟨hvalue, rfl⟩, rfl⟩

/-- Reading a document fails when its file cannot be read or its text is refused;
nothing is logged then. -/
theorem document_eq_error_iff :
    (do
      let text ← reading read cause
      let a ← ofExcept (parse text)
      tell (event a)
      return a : Action α).run s = .error e s' ↔
      ((∃ fault, read s.tree = .error fault ∧ e = cause fault.message) ∨
        ∃ text, read s.tree = .ok text ∧ parse text = .error e) ∧ s' = s := by
  rw [bind_eq_error_iff]
  constructor
  · rintro (h | ⟨text, s₁, hread, h⟩)
    · -- The file cannot be read.
      obtain ⟨fault, hfault, rfl, rfl⟩ := reading_eq_error_iff.mp h
      exact ⟨.inl ⟨fault, hfault, rfl⟩, rfl⟩
    obtain ⟨htext, rfl⟩ := reading_eq_ok_iff.mp hread
    -- Otherwise the text was refused: what comes after it cannot fail.
    rcases bind_eq_error_iff.mp h with h | ⟨a, s₂, -, h⟩
    · obtain ⟨hvalue, rfl⟩ := ofExcept_eq_error_iff.mp h
      exact ⟨.inr ⟨text, htext, hvalue⟩, rfl⟩
    · cases h
  · rintro ⟨⟨fault, hfault, rfl⟩ | ⟨text, htext, hvalue⟩, rfl⟩
    · exact .inl (reading_eq_error_iff.mpr ⟨fault, hfault, rfl, rfl⟩)
    · refine .inr ⟨text, s', reading_eq_ok_iff.mpr ⟨htext, rfl⟩, bind_eq_error_iff.mpr (.inl ?_)⟩
      exact ofExcept_eq_error_iff.mpr ⟨hvalue, rfl⟩

end Document

/-! ### Rows of actions -/

section Row

variable {P : Session → Prop} {f : γ → Action β} {xs : List γ}

/-- What every success in a row keeps holds after the row. -/
theorem mapM_ok_induct {bs : List β}
    (hstep : ∀ x ∈ xs, ∀ s b s', P s → (f x).run s = .ok b s' → P s') (hs : P s)
    (h : (xs.mapM f).run s = .ok bs s') : P s' := by
  -- By induction on the items, the session before them generalized; `P` is carried over each
  -- step.
  induction xs generalizing s bs with
  | nil =>
    obtain ⟨-, rfl⟩ := pure_eq_ok_iff.mp h
    exact hs
  | cons x xs ih =>
    rw [List.forall_mem_cons] at hstep
    rw [List.mapM_cons, bind_eq_ok_iff] at h
    obtain ⟨b, s₁, hfirst, h⟩ := h
    rw [bind_eq_ok_iff] at h
    obtain ⟨bs', s₂, hrest, h⟩ := h
    obtain ⟨-, rfl⟩ := pure_eq_ok_iff.mp h
    exact ih hstep.2 (hstep.1 s b s₁ hs hfirst) hrest

/-- It also holds when the one begins at which the row fails. -/
theorem mapM_error_induct
    (hstep : ∀ x ∈ xs, ∀ s b s', P s → (f x).run s = .ok b s' → P s') (hs : P s)
    (h : (xs.mapM f).run s = .error e s') :
    ∃ x ∈ xs, ∃ s₁, P s₁ ∧ (f x).run s₁ = .error e s' := by
  -- The failing item is the first one, or one of the rest, which runs in a session with `P`.
  induction xs generalizing s with
  | nil => cases h
  | cons x xs ih =>
    rw [List.forall_mem_cons] at hstep
    rw [List.mapM_cons, bind_eq_error_iff] at h
    rcases h with hfirst | ⟨b, s₁, hfirst, h⟩
    · exact ⟨x, by simp, s, hs, hfirst⟩
    rw [bind_eq_error_iff] at h
    rcases h with hrest | ⟨bs, s₂, -, h⟩
    · obtain ⟨x', hx', hfailed⟩ := ih hstep.2 (hstep.1 s b s₁ hs hfirst) hrest
      exact ⟨x', List.mem_cons_of_mem x hx', hfailed⟩
    · cases h

end Row

/-! ### What is left behind -/

/-- The session that an action leaves behind, whether it succeeds or fails. -/
def after (x : Action α) (s : Session) : Session :=
  match x.run s with
  | .ok _ s' => s'
  | .error _ s' => s'

/-- After an action that succeeded stands the session it left. -/
theorem after_of_ok (h : x.run s = .ok a s') : x.after s = s' := by
  rw [after, h]

/-- After an action that failed stands the session it left as well. -/
theorem after_of_error (h : x.run s = .error e s') : x.after s = s' := by
  rw [after, h]

/-- A row of one action leaves what the action leaves. -/
theorem after_mapM_singleton (f : γ → Action β) (x : γ) (s : Session) :
    ([x].mapM f).after s = (f x).after s := by
  rw [List.mapM_cons]
  cases h : (f x).run s with
  | ok b s' =>
    rw [after_of_ok h]
    exact after_of_ok (bind_eq_ok_iff.mpr ⟨b, s', h, rfl⟩)
  | error e s' =>
    rw [after_of_error h]
    exact after_of_error (bind_eq_error_iff.mpr (.inl h))

/-- What holds of every session that an action can leave holds after it. -/
theorem after_induct {P : Session → Prop} (hok : ∀ a s', x.run s = .ok a s' → P s')
    (herror : ∀ e s', x.run s = .error e s' → P s') : P (x.after s) := by
  unfold after
  split
  next h => exact hok _ _ h
  next h => exact herror _ _ h

/-! ### What is returned -/

/-- The value that an action returns, or the failure that it ends with. -/
def result (x : Action α) (s : Session) : Except Failure α :=
  match x.run s with
  | .ok a _ => .ok a
  | .error e _ => .error e

/-- The result of an action that succeeded is its answer. -/
theorem result_of_ok (h : x.run s = .ok a s') : x.result s = .ok a := by
  rw [result, h]

/-- The result of an action that failed is its failure. -/
theorem result_of_error (h : x.run s = .error e s') : x.result s = .error e := by
  rw [result, h]

end Promotion.Action
