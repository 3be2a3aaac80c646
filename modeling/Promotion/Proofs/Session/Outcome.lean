import Promotion.Proofs.Session

/-!
# `Promotion.Proofs.Session.Outcome`: what actions make of a file system

A session also keeps what was logged and printed. No action of a build looks at
that (`Quiet`), so what it comes to is a function of the file system alone
(`outcome`), and a row of such actions is followed from one file system to the
next (`InTurn`).

* `Quiet.bind`, `Quiet.tryCatch`: what is made of quiet actions is quiet.
* `Quiet.outcome_eq`: the outcome of a quiet action in any session.
* `Quiet.outcome_bind_eq_ok_iff`, `Quiet.outcome_bind_eq_error_iff`: one action
  after another.
* `outcome_mapM_eq_ok_iff`, `outcome_mapM_eq_error_iff`: a row of actions, all of
  which succeed, or of which the first failure ends the row.
-/

set_option autoImplicit false

namespace Promotion.Action

variable {α β γ : Type} {a : α} {b : β} {x : Action α} {e : Failure} {t t' : FileTree}
  {cause : String → Failure}

/-! ### Quiet actions -/

/-- Two ends that differ at most in what was logged and printed. -/
inductive SameEnd : EStateM.Result Failure Session α → EStateM.Result Failure Session α → Prop
  | ok (a : α) {s s₀ : Session} (h : s.tree = s₀.tree) : SameEnd (.ok a s) (.ok a s₀)
  | error (e : Failure) {s s₀ : Session} (h : s.tree = s₀.tree) :
    SameEnd (.error e s) (.error e s₀)

/-- An action that takes no notice of what was logged and printed. -/
def Quiet (x : Action α) : Prop :=
  ∀ s s₀ : Session, s.tree = s₀.tree → SameEnd (x.run s) (x.run s₀)

/-- To answer at once depends on nothing. -/
theorem quiet_pure (a : α) : Quiet (pure a : Action α) := fun _ _ h => .ok a h

/-- To fail at once depends on nothing. -/
theorem quiet_throw (e : Failure) : Quiet (throw e : Action α) := fun _ _ h => .error e h

/-- A look at the file system depends on it alone. -/
theorem quiet_tree : Quiet tree := by
  intro s s₀ h
  show SameEnd (.ok s.tree s) (.ok s₀.tree s₀)
  rw [h]
  exact .ok _ h

/-- To replace the file system depends on nothing that was there. -/
theorem quiet_setTree (t : FileTree) : Quiet (setTree t) := fun _ _ _ => .ok () rfl

/-- What is logged is not read again. -/
theorem quiet_tell (event : Event) : Quiet (tell event) := fun _ _ h => .ok () h

/-- This holds of any number of events. -/
theorem quiet_tellAll (events : List Event) : Quiet (tellAll events) := fun _ _ h => .ok () h

/-- Two quiet actions in a row are a quiet one. -/
theorem Quiet.bind {f : α → Action β} (hx : Quiet x) (hf : ∀ a, Quiet (f a)) :
    Quiet (x >>= f) := by
  intro s s₀ h
  show SameEnd (EStateM.bind x f s) (EStateM.bind x f s₀)
  have hfirst := hx s s₀ h
  unfold EStateM.run at hfirst
  unfold EStateM.bind
  generalize x s = result, x s₀ = result₀ at hfirst
  cases hfirst with
  | ok a h => exact hf a _ _ h
  | error e h => exact .error e h

/-- A quiet action stays quiet when a failure of it is handled quietly. -/
theorem Quiet.tryCatch {handle : Failure → Action α} (hx : Quiet x)
    (hhandle : ∀ e, Quiet (handle e)) : Quiet (MonadExcept.tryCatch x handle) := by
  intro s s₀ h
  show SameEnd (EStateM.tryCatch x handle s) (EStateM.tryCatch x handle s₀)
  have hfirst := hx s s₀ h
  unfold EStateM.run at hfirst
  unfold EStateM.tryCatch
  generalize x s = result, x s₀ = result₀ at hfirst
  cases hfirst with
  | ok a h => exact .ok a h
  | error e h => exact hhandle e _ _ h

/-- A result that is there already depends on nothing. -/
theorem quiet_ofExcept (r : Except Failure α) : Quiet (ofExcept r) := by
  cases r with
  | ok a => exact quiet_pure a
  | error e => exact quiet_throw e

/-- What reading brings depends on the file system alone. -/
theorem quiet_reading (read : FileTree → Except Fault α) : Quiet (reading read cause) := by
  refine quiet_tree.bind fun t => ?_
  cases read t with
  | ok a => exact quiet_pure a
  | error fault => exact quiet_throw _

/-- What writing does depends on the file system alone. -/
theorem quiet_writing (write : FileTree → Except Fault FileTree) :
    Quiet (writing write cause) := by
  refine quiet_tree.bind fun t => ?_
  cases write t with
  | ok t => exact quiet_setTree t
  | error fault => exact quiet_throw _

/-- So does the making of directories. -/
theorem quiet_makeDirectories (p : Path) : Quiet (makeDirectories p cause) := by
  refine quiet_tree.bind fun t => (quiet_setTree _).bind fun _ => ?_
  cases (t.makeDirectories p).fault with
  | none => exact quiet_pure ()
  | some fault => exact quiet_throw _

/-- A row of quiet actions is quiet. -/
theorem Quiet.mapM {f : γ → Action β} (hf : ∀ c, Quiet (f c)) (xs : List γ) :
    Quiet (xs.mapM f) := by
  induction xs with
  | nil => exact quiet_pure []
  | cons x xs ih =>
    rw [List.mapM_cons]
    exact (hf x).bind fun b => ih.bind fun bs => quiet_pure (b :: bs)

/-! ### Outcomes -/

/-- What an action comes to on a file system, and the file system that it
leaves. -/
def outcome (x : Action α) (t : FileTree) : Except Failure α × FileTree :=
  (x.result { tree := t }, (x.after { tree := t }).tree)

/-- A quiet action has the same outcome in every session. -/
theorem Quiet.outcome_eq (h : Quiet x) (s : Session) :
    x.outcome s.tree = (x.result s, (x.after s).tree) := by
  have hsame := h { tree := s.tree } s rfl
  rw [outcome, result, after, result, after]
  generalize x.run { tree := s.tree } = end₀, x.run s = end₁ at hsame
  cases hsame with
  | ok a h => rw [h]
  | error e h => rw [h]

/-- An outcome with an answer is a run that succeeds in a fresh session. -/
theorem outcome_eq_ok_iff :
    x.outcome t = (.ok a, t') ↔ ∃ s', x.run { tree := t } = .ok a s' ∧ s'.tree = t' := by
  rw [outcome, result, after, Prod.mk.injEq]
  cases x.run { tree := t } <;> simp

/-- An outcome with a failure is a run that fails in a fresh session. -/
theorem outcome_eq_error_iff :
    x.outcome t = (.error e, t') ↔ ∃ s', x.run { tree := t } = .error e s' ∧ s'.tree = t' := by
  rw [outcome, result, after, Prod.mk.injEq]
  cases x.run { tree := t } <;> simp

/-- To answer at once leaves the file system as it is. -/
theorem outcome_pure (a : α) (t : FileTree) : (pure a : Action α).outcome t = (.ok a, t) := rfl

/-- The second action finds what the first one leaves. -/
theorem outcome_bind_eq_ok_iff {f : α → Action β} (hf : ∀ a, Quiet (f a)) :
    (x >>= f).outcome t = (.ok b, t') ↔
      ∃ a t₁, x.outcome t = (.ok a, t₁) ∧ (f a).outcome t₁ = (.ok b, t') := by
  simp only [outcome_eq_ok_iff, bind_eq_ok_iff]
  constructor
  · rintro ⟨s', ⟨a, s₁, hx, hrun⟩, rfl⟩
    -- The second action is quiet, so the log that the first one left does not matter to it.
    refine ⟨a, s₁.tree, ⟨s₁, hx, rfl⟩, outcome_eq_ok_iff.mp ?_⟩
    rw [(hf a).outcome_eq, result_of_ok hrun, after_of_ok hrun]
  · rintro ⟨a, t₁, ⟨s₁, hx, rfl⟩, hrun⟩
    have hend := outcome_eq_ok_iff.mpr hrun
    rw [(hf a).outcome_eq] at hend
    -- For the same reason it runs after the first one as it does in a fresh session.
    cases hrun₁ : (f a).run s₁ with
    | ok b' s' =>
      rw [result_of_ok hrun₁, after_of_ok hrun₁] at hend
      cases hend
      exact ⟨s', ⟨a, s₁, hx, hrun₁⟩, rfl⟩
    | error e s' =>
      rw [result_of_error hrun₁] at hend
      cases hend

/-- The outcome of two actions is a failure when that of the first one is, or that of
the second one on the file system that the first one left. -/
theorem outcome_bind_eq_error_iff {f : α → Action β} (hf : ∀ a, Quiet (f a)) :
    (x >>= f).outcome t = (.error e, t') ↔ x.outcome t = (.error e, t') ∨
      ∃ a t₁, x.outcome t = (.ok a, t₁) ∧ (f a).outcome t₁ = (.error e, t') := by
  simp only [outcome_eq_ok_iff, outcome_eq_error_iff, bind_eq_error_iff]
  constructor
  · rintro ⟨s', hx | ⟨a, s₁, hx, hrun⟩, rfl⟩
    · exact .inl ⟨s', hx, rfl⟩
    · refine .inr ⟨a, s₁.tree, ⟨s₁, hx, rfl⟩, outcome_eq_error_iff.mp ?_⟩
      rw [(hf a).outcome_eq, result_of_error hrun, after_of_error hrun]
  · rintro (⟨s', hx, rfl⟩ | ⟨a, t₁, ⟨s₁, hx, rfl⟩, hrun⟩)
    · exact ⟨s', .inl hx, rfl⟩
    -- The second action fails in a fresh session, so it fails after the first one too.
    have hend := outcome_eq_error_iff.mpr hrun
    rw [(hf a).outcome_eq] at hend
    cases hrun₁ : (f a).run s₁ with
    | ok b s' =>
      rw [result_of_ok hrun₁] at hend
      cases hend
    | error e' s' =>
      rw [result_of_error hrun₁, after_of_error hrun₁] at hend
      cases hend
      exact ⟨s', .inr ⟨a, s₁, hx, hrun₁⟩, rfl⟩

/-! ### One after another -/

section InTurn

variable {step : γ → FileTree → Except Failure β × FileTree} {xs : List γ} {bs : List β}

/-- Steps that all succeed, each on the file system that the one before has
left. -/
inductive InTurn (step : γ → FileTree → Except Failure β × FileTree) :
    FileTree → List γ → List β → FileTree → Prop
  | nil (t : FileTree) : InTurn step t [] [] t
  | cons {t t₁ t' : FileTree} {x : γ} {xs : List γ} {b : β} {bs : List β}
    (first : step x t = (.ok b, t₁)) (rest : InTurn step t₁ xs bs t') :
    InTurn step t (x :: xs) (b :: bs) t'

/-- A row of steps ends in its last one. The row is built from the front, so the others
are a row as well. -/
theorem inTurn_snoc_iff {x : γ} {t : FileTree} :
    InTurn step t (xs ++ [x]) bs t' ↔ ∃ front b t₁, bs = front ++ [b] ∧
      InTurn step t xs front t₁ ∧ step x t₁ = (.ok b, t') := by
  -- By induction on the items before the last one, the file system they start from generalized.
  induction xs generalizing bs t with
  | nil =>
    constructor
    · rintro (_ | ⟨first, ⟨⟩⟩)
      exact ⟨[], _, _, rfl, .nil _, first⟩
    · rintro ⟨front, b, t₁, rfl, ⟨⟩, hlast⟩
      exact .cons hlast (.nil _)
  | cons y xs ih =>
    constructor
    · rintro (_ | ⟨first, rest⟩)
      obtain ⟨front, b, t₁, rfl, hfront, hlast⟩ := ih.mp rest
      exact ⟨_ :: front, b, t₁, rfl, .cons first hfront, hlast⟩
    · rintro ⟨front, b, t₁, rfl, hfront, hlast⟩
      cases hfront with
      | cons first rest => exact .cons first (ih.mpr ⟨_, b, t₁, rfl, rest, hlast⟩)

variable {f : γ → Action β}

/-- A row of actions succeeds when each action does in its turn, on the file system that
those before it left. -/
theorem outcome_mapM_eq_ok_iff (hf : ∀ c, Quiet (f c)) :
    (xs.mapM f).outcome t = (.ok bs, t') ↔ InTurn (fun c => (f c).outcome) t xs bs t' := by
  induction xs generalizing t bs with
  | nil =>
    rw [List.mapM_nil, outcome_pure]
    constructor
    · rintro ⟨⟩
      exact .nil _
    · rintro ⟨⟩
      rfl
  | cons x xs ih =>
    -- The first action is bound to the others and to the answer, all of them quiet.
    rw [List.mapM_cons, outcome_bind_eq_ok_iff fun b =>
      (Quiet.mapM hf xs).bind fun bs => quiet_pure (b :: bs)]
    constructor
    · rintro ⟨b, t₁, hfirst, hrest⟩
      rw [outcome_bind_eq_ok_iff fun bs => quiet_pure (b :: bs)] at hrest
      obtain ⟨bs', t₂, hrest, hend⟩ := hrest
      cases hend
      exact .cons hfirst (ih.mp hrest)
    · rintro (_ | ⟨first, rest⟩)
      refine ⟨_, _, first, ?_⟩
      rw [outcome_bind_eq_ok_iff fun bs => quiet_pure (_ :: bs)]
      exact ⟨_, _, ih.mpr rest, rfl⟩

/-- The first failure ends the row, and those before it have succeeded. -/
theorem outcome_mapM_eq_error_iff (hf : ∀ c, Quiet (f c)) :
    (xs.mapM f).outcome t = (.error e, t') ↔ ∃ front x back bs t₁, xs = front ++ x :: back ∧
      InTurn (fun c => (f c).outcome) t front bs t₁ ∧ (f x).outcome t₁ = (.error e, t') := by
  induction xs generalizing t with
  | nil =>
    rw [List.mapM_nil, outcome_pure]
    constructor
    · rintro ⟨⟩
    · rintro ⟨front, x, back, bs, t₁, heq, -⟩
      simp at heq
  | cons x xs ih =>
    rw [List.mapM_cons, outcome_bind_eq_error_iff fun b =>
      (Quiet.mapM hf xs).bind fun bs => quiet_pure (b :: bs)]
    constructor
    · rintro (hfirst | ⟨b, t₁, hfirst, hrest⟩)
      · -- The first action fails, and none came before it.
        exact ⟨[], x, xs, [], t, rfl, .nil t, hfirst⟩
      rw [outcome_bind_eq_error_iff fun bs => quiet_pure (b :: bs)] at hrest
      rcases hrest with hrest | ⟨bs, t₂, -, hend⟩
      · -- A later one fails, after the first one had its turn.
        obtain ⟨front, y, back, bs, t₂, rfl, hfront, hfailed⟩ := ih.mp hrest
        exact ⟨x :: front, y, back, b :: bs, t₂, rfl, .cons hfirst hfront, hfailed⟩
      · cases hend
    · rintro ⟨front, y, back, bs, t₁, heq, hfront, hfailed⟩
      cases hfront with
      | nil =>
        cases heq
        exact .inl hfailed
      | cons first rest =>
        cases heq
        refine .inr ⟨_, _, first, ?_⟩
        rw [outcome_bind_eq_error_iff fun bs => quiet_pure (_ :: bs)]
        exact .inl (ih.mpr ⟨_, y, back, _, t₁, rfl, rest, hfailed⟩)

end InTurn

/-! ### Actions that only look -/

/-- The end of an action that comes to a result and leaves a session. -/
def ending (r : Except Failure α) (s : Session) : EStateM.Result Failure Session α :=
  match r with
  | .ok a => .ok a s
  | .error e => .error e s

/-- An action that only looks: what it comes to can be read off the file system, and
it leaves nothing behind but events. -/
def Looks (x : Action α) (value : FileTree → Except Failure α) : Prop :=
  ∀ s : Session, ∃ events, x.run s = ending (value s.tree) { s with events := s.events ++ events }

/-- An action that does not even leave events. -/
theorem looks_of_run {value : FileTree → Except Failure α}
    (h : ∀ s, x.run s = ending (value s.tree) s) : Looks x value :=
  fun s => ⟨[], by rw [h, List.append_nil]⟩

/-- A result that is there already is found without a look. -/
theorem looks_ofExcept (r : Except Failure α) : Looks (ofExcept r) fun _ => r :=
  looks_of_run fun _ => by cases r <;> rfl

/-- An answer is found without a look. -/
theorem looks_pure (a : α) : Looks (pure a : Action α) fun _ => .ok a := looks_ofExcept (.ok a)

/-- So is a failure. -/
theorem looks_throw (e : Failure) : Looks (throw e : Action α) fun _ => .error e :=
  looks_ofExcept (.error e)

/-- Looking at the file system brings it whole. -/
theorem looks_tree : Looks tree .ok := looks_of_run fun _ => rfl

/-- Reading brings what the file system answers, its faults in the words of the cause.
-/
theorem looks_reading (read : FileTree → Except Fault α) :
    Looks (reading read cause) fun t => (read t).mapError fun fault => cause fault.message := by
  refine looks_of_run fun s => ?_
  rw [reading, run_tree_bind]
  cases read s.tree <;> rfl

/-- Logging looks at nothing. -/
theorem looks_tellAll (events : List Event) : Looks (tellAll events) fun _ => .ok () :=
  fun _ => ⟨events, rfl⟩

/-- This holds of a single event. -/
theorem looks_tell (event : Event) : Looks (tell event) fun _ => .ok () := looks_tellAll [event]

/-- One look after another. -/
theorem Looks.bind {f : α → Action β} {value : FileTree → Except Failure α}
    {next : α → FileTree → Except Failure β} (hx : Looks x value) (hf : ∀ a, Looks (f a) (next a)) :
    Looks (x >>= f) fun t => value t >>= fun a => next a t := by
  intro s
  dsimp only
  obtain ⟨events, hfirst⟩ := hx s
  cases hvalue : value s.tree with
  | error e =>
    rw [hvalue] at hfirst
    exact ⟨events, bind_eq_error_iff.mpr (.inl hfirst)⟩
  | ok a =>
    rw [hvalue] at hfirst
    obtain ⟨more, hsecond⟩ := hf a { s with events := s.events ++ events }
    -- The events of both are logged one after the other, and nothing else has changed.
    refine ⟨events ++ more, ?_⟩
    rw [← List.append_assoc, run_bind_of_ok hfirst]
    exact hsecond

/-- What is found may be said in another way. -/
theorem Looks.congr {value value' : FileTree → Except Failure α} (h : Looks x value)
    (heq : ∀ t, value t = value' t) : Looks x value' := by
  obtain rfl : value = value' := funext heq
  exact h

/-- A choice between looks that the file system decides. -/
theorem Looks.ite {y : Action α} {value value' : FileTree → Except Failure α} {c : Prop}
    [Decidable c] (hx : Looks x value) (hy : Looks y value') :
    Looks (if c then x else y) fun t => if c then value t else value' t := by
  split
  · exact hx
  · exact hy

end Promotion.Action
