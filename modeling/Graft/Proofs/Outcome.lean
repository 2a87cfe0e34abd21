/-
# How an action ends

An action gives a value or stops with an error, and hands on a state either way.
`Ends m s ok err` says which states and values it can end with when it is run
from `s`.  The rules below follow the way actions are put together: one after
the other (`Ends.bind`), over a list (`Ends.mapM`, `Ends.forM`) and over a value
that may be absent (`Ends.option_mapM`).
-/

namespace Graft

/-- Run from `s`, the action gives a value and a state of which `ok` holds, or
stops with an error and a state of which `err` holds. -/
def Ends {ε τ α : Type} (m : EStateM ε τ α) (s : τ) (ok : α → τ → Prop) (err : ε → τ → Prop) :
    Prop :=
  match m s with
  | .ok a s' => ok a s'
  | .error e s' => err e s'

/-- Run from `s`, the action hands on `s'`, whether it gives a value or stops. -/
def Leads {ε τ α : Type} (m : EStateM ε τ α) (s s' : τ) : Prop :=
  Ends m s (fun _ u => u = s') (fun _ u => u = s')

namespace Ends

variable {ε τ α β : Type} {m : EStateM ε τ α} {s : τ} {ok ok' : α → τ → Prop}
  {err err' : ε → τ → Prop}

/-- An action that is known to succeed ends as its result does. -/
theorem of_eq_ok {a : α} {s' : τ} (h : m s = .ok a s') (ha : ok a s') : Ends m s ok err := by
  rw [Ends, h]
  exact ha

/-- An action that is known to fail ends as its fault does. -/
theorem of_eq_error {e : ε} {s' : τ} (h : m s = .error e s') (he : err e s') :
    Ends m s ok err := by
  rw [Ends, h]
  exact he

/-- What holds of every success holds of this one. -/
theorem ok_of_eq {a : α} {s' : τ} (h : Ends m s ok err) (hm : m s = .ok a s') : ok a s' := by
  rw [Ends, hm] at h
  exact h

/-- What holds of every failure holds of this one. -/
theorem err_of_eq {e : ε} {s' : τ} (h : Ends m s ok err) (hm : m s = .error e s') : err e s' := by
  rw [Ends, hm] at h
  exact h

/-- What is known of an ending may be said in a weaker form. -/
theorem imp (h : Ends m s ok err) (hok : ∀ a s', ok a s' → ok' a s')
    (herr : ∀ e s', err e s' → err' e s') : Ends m s ok' err' := by
  unfold Ends at h ⊢
  split
  · rename_i a s' hm
    rw [hm] at h
    exact hok a s' h
  · rename_i e s' hm
    rw [hm] at h
    exact herr e s' h

/-- Two things that are known of an ending hold of it together. -/
theorem and (h : Ends m s ok err) (h' : Ends m s ok' err') :
    Ends m s (fun a s' => ok a s' ∧ ok' a s') (fun e s' => err e s' ∧ err' e s') := by
  unfold Ends at h h' ⊢
  split <;> rename_i hm <;> rw [hm] at h h' <;> exact ⟨h, h'⟩

/-- Every action ends somehow. -/
theorem trivial : Ends m s (fun _ _ => True) (fun _ _ => True) := by
  unfold Ends
  split <;> exact True.intro

/-- To return a value changes nothing. -/
theorem pure {a : α} (h : ok a s) : Ends (Pure.pure a) s ok err := h

/-- After an action that succeeds comes the next one. -/
theorem bind_of_ok {f : α → EStateM ε τ β} {a : α} {s' : τ} (h : m s = .ok a s') :
    (m >>= f) s = f a s' := by
  show EStateM.bind m f s = f a s'
  rw [EStateM.bind, h]

/-- After an action that fails comes nothing. -/
theorem bind_of_error {f : α → EStateM ε τ β} {e : ε} {s' : τ} (h : m s = .error e s') :
    (m >>= f) s = .error e s' := by
  show EStateM.bind m f s = .error e s'
  rw [EStateM.bind, h]

/-- Two actions that succeed together have both succeeded. -/
theorem exists_of_bind {f : α → EStateM ε τ β} {b : β} {s' : τ} (h : (m >>= f) s = .ok b s') :
    ∃ a middle, m s = .ok a middle ∧ f a middle = .ok b s' := by
  cases hm : m s with
  | ok a middle => exact ⟨a, middle, rfl, (bind_of_ok hm).symm.trans h⟩
  | error e middle =>
    rw [bind_of_error hm] at h
    cases h

/-- Over a list with a first element: the action has succeeded on it, and then on the others. -/
theorem exists_of_mapM_cons {γ : Type} {f : γ → EStateM ε τ α} {x : γ} {xs : List γ}
    {values : List α} {s' : τ} (h : (x :: xs).mapM f s = .ok values s') :
    ∃ value middle rest, f x s = .ok value middle ∧ xs.mapM f middle = .ok rest s' ∧
      values = value :: rest := by
  rw [List.mapM_cons] at h
  obtain ⟨value, middle, hvalue, h⟩ := exists_of_bind h
  obtain ⟨rest, last, hrest, hlast⟩ := exists_of_bind h
  cases hlast
  exact ⟨value, middle, rest, hvalue, hrest, rfl⟩

/-- The second action runs from where the first ends. -/
theorem bind {f : α → EStateM ε τ β} {ok : β → τ → Prop}
    (h : Ends m s (fun a s' => Ends (f a) s' ok err) err) : Ends (m >>= f) s ok err := by
  cases hm : m s with
  | ok a s' =>
    have ha := h.ok_of_eq hm
    unfold Ends at ha ⊢
    rw [bind_of_ok hm]
    exact ha
  | error e s' => exact of_eq_error (bind_of_error hm) (h.err_of_eq hm)

/-- Where only the values matter, less may be said of them. -/
theorem weaken (h : Ends m s ok fun _ _ => True) (hok : ∀ a s', ok a s' → ok' a s') :
    Ends m s ok' fun _ _ => True := h.imp hok fun _ _ _ => True.intro

/-- Where only the values matter, the second action relies on what the first one gives. -/
theorem andThen {f : α → EStateM ε τ β} {ok' : β → τ → Prop} (h : Ends m s ok fun _ _ => True)
    (hf : ∀ a s', ok a s' → Ends (f a) s' ok' fun _ _ => True) :
    Ends (m >>= f) s ok' fun _ _ => True := Ends.bind (h.weaken hf)

/-- Over a list: what holds after the elements that are done, with their values,
is carried from each element to the next. -/
theorem mapM {γ : Type} {f : γ → EStateM ε τ α} {I : List γ → List α → τ → Prop} (xs : List γ)
    (hI : I [] [] s)
    (step : ∀ done x rest, xs = done ++ x :: rest → ∀ values s, I done values s →
      Ends (f x) s (fun a s' => I (done ++ [x]) (values ++ [a]) s') err) :
    Ends (xs.mapM f) s (fun as s' => I xs as s') err := by
  -- the induction is on what is left to do
  have from_middle : ∀ (todo done : List γ) values s, xs = done ++ todo → I done values s →
      Ends (todo.mapM f) s (fun as s' => I xs (values ++ as) s') err := by
    intro todo
    induction todo with
    | nil =>
      intro done values s hxs hI
      rw [List.append_nil] at hxs
      subst hxs
      rw [List.mapM_nil]
      refine Ends.pure ?_
      rwa [List.append_nil]
    | cons x rest ih =>
      intro done values s hxs hI
      rw [List.mapM_cons]
      refine Ends.bind ((step done x rest hxs values s hI).imp (fun a s' ha => ?_)
        fun _ _ he => he)
      have hxs' : xs = (done ++ [x]) ++ rest := by rw [hxs, List.append_assoc]; rfl
      refine Ends.bind ((ih _ _ _ hxs' ha).imp (fun as s'' has => ?_) fun _ _ he => he)
      refine Ends.pure ?_
      rwa [List.append_assoc] at has
  exact from_middle xs [] [] s rfl hI

/-- Over a list for its effects only. -/
theorem forM {γ : Type} {f : γ → EStateM ε τ PUnit} {I : List γ → τ → Prop} (xs : List γ)
    (hI : I [] s)
    (step : ∀ done x rest, xs = done ++ x :: rest → ∀ s, I done s →
      Ends (f x) s (fun _ s' => I (done ++ [x]) s') err) :
    Ends (ForM.forM xs f) s (fun _ s' => I xs s') err := by
  have from_middle : ∀ (todo done : List γ) s, xs = done ++ todo → I done s →
      Ends (ForM.forM todo f) s (fun _ s' => I xs s') err := by
    intro todo
    induction todo with
    | nil =>
      intro done s hxs hI
      rw [List.append_nil] at hxs
      subst hxs
      rw [List.forM_nil]
      exact Ends.pure hI
    | cons x rest ih =>
      intro done s hxs hI
      rw [List.forM_cons]
      refine Ends.bind ((step done x rest hxs s hI).imp (fun _ s' h => ?_) fun _ _ he => he)
      exact ih (done ++ [x]) s' (by rw [hxs, List.append_assoc]; rfl) h
  exact from_middle xs [] s rfl hI

/-- A value that is absent needs no action. -/
theorem option_mapM {γ : Type} {f : γ → EStateM ε τ α} {ok : Option α → τ → Prop} {x : Option γ}
    (hnone : x = none → ok none s)
    (hsome : ∀ y, x = some y → Ends (f y) s (fun a s' => ok (some a) s') err) :
    Ends (x.mapM f) s ok err := by
  cases x with
  | none => exact hnone rfl
  | some y => exact Ends.bind ((hsome y rfl).imp (fun _ _ h => Ends.pure h) fun _ _ he => he)

/-- What holds of the state however the action ends holds of the state it hands on. -/
theorem of_leads {P : τ → Prop} {s' : τ} (h : Ends m s (fun _ => P) (fun _ => P))
    (hl : Leads m s s') : P s' := by
  cases hm : m s with
  | ok a u =>
    obtain rfl := ok_of_eq hl hm
    exact h.ok_of_eq hm
  | error e u =>
    obtain rfl := err_of_eq hl hm
    exact h.err_of_eq hm

/-- A success leads to its state. -/
theorem leads_of_ok {a : α} {s' : τ} (h : m s = .ok a s') : Leads m s s' := of_eq_ok h rfl

/-- A failure leads to its state. -/
theorem leads_of_error {e : ε} {s' : τ} (h : m s = .error e s') : Leads m s s' :=
  of_eq_error h rfl

end Ends

/-- Whether the action gives a value when it is run from `s`. -/
def Succeeds {ε τ α : Type} (m : EStateM ε τ α) (s : τ) : Bool :=
  match m s with
  | .ok _ _ => true
  | .error _ _ => false

/-- The check for success is right. -/
theorem succeeds_iff {ε τ α : Type} {m : EStateM ε τ α} {s : τ} :
    Succeeds m s = true ↔ ∃ a s', m s = .ok a s' := by
  unfold Succeeds
  cases m s with
  | ok a s' => exact iff_of_true rfl ⟨a, s', rfl⟩
  | error e s' => exact iff_of_false Bool.false_ne_true nofun

/-- Whether the action gives a value when it is run from `s`, and the value and the state that it
ends in are as asked for. -/
def Yields {ε τ α : Type} (m : EStateM ε τ α) (s : τ) (p : α → τ → Bool) : Bool :=
  match m s with
  | .ok a s' => p a s'
  | .error _ _ => false

/-- The check for a result is right. -/
theorem yields_iff {ε τ α : Type} {m : EStateM ε τ α} {s : τ} {p : α → τ → Bool} :
    Yields m s p = true ↔ ∃ a s', m s = .ok a s' ∧ p a s' = true := by
  unfold Yields
  cases m s with
  | ok a s' =>
    constructor
    · exact fun h => ⟨a, s', rfl, h⟩
    · rintro ⟨_, _, ⟨⟩, h⟩
      exact h
  | error e s' => exact iff_of_false Bool.false_ne_true nofun

end Graft
