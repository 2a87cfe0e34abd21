/-
# Two runs side by side

Two actions on different sorts of states can be run next to each other.  They run in parallel if,
from related states, they end alike: both give the same value or both stop with the same error, and
the states that they hand on are related again (`Parallel`).  The rules follow the way actions are
put together.  Where related states are equal, so are the results (`EndAlike.eq_of_eq`).
-/

namespace Graft

variable {ε τ τ' α β γ : Type} {R : τ → τ' → Prop} {P Q : α → Prop}

/-- Two results with the same value, of which `P` holds, or the same error, and with related
states. -/
inductive EndAlike (R : τ → τ' → Prop) (P : α → Prop) :
    EStateM.Result ε τ α → EStateM.Result ε τ' α → Prop
  | ok {a : α} {s : τ} {s' : τ'} (hvalue : P a) (hstate : R s s') :
      EndAlike R P (.ok a s) (.ok a s')
  | error {e : ε} {s : τ} {s' : τ'} (hstate : R s s') : EndAlike R P (.error e s) (.error e s')

/-- **Where only equal states are related, the results are the same.** -/
theorem EndAlike.eq_of_eq {R : τ → τ → Prop} {r r' : EStateM.Result ε τ α} (h : EndAlike R P r r')
    (hR : ∀ s s', R s s' → s = s') : r = r' := by
  cases h with
  | ok _ hstate => rw [hR _ _ hstate]
  | error hstate => rw [hR _ _ hstate]

/-- Run from related states, the two actions end alike, with a value of which `P` holds if they
give one. -/
def Parallel (R : τ → τ' → Prop) (m : EStateM ε τ α) (m' : EStateM ε τ' α) (P : α → Prop) : Prop :=
  ∀ s s', R s s' → EndAlike R P (m s) (m' s')

namespace Parallel

variable {m : EStateM ε τ α} {m' : EStateM ε τ' α}

/-- Less may be said of the value. -/
theorem imp (h : Parallel R m m' P) (hPQ : ∀ a, P a → Q a) : Parallel R m m' Q := by
  intro s s' hs
  have hend := h s s' hs
  revert hend
  generalize m s = r
  generalize m' s' = r'
  rintro (⟨hvalue, hstate⟩ | hstate)
  · exact .ok (hPQ _ hvalue) hstate
  · exact .error hstate

/-- To return a value runs in parallel with itself. -/
theorem pure {a : α} (h : P a) :
    Parallel R (Pure.pure a : EStateM ε τ α) (Pure.pure a : EStateM ε τ' α) P := fun _ _ hs =>
  .ok h hs

/-- To fail runs in parallel with itself. -/
theorem throw (e : ε) :
    Parallel R (MonadExcept.throw e : EStateM ε τ α) (MonadExcept.throw e : EStateM ε τ' α) P :=
  fun _ _ hs => .error hs

/-- Actions that run in parallel may follow each other. -/
theorem bind {f : α → EStateM ε τ β} {f' : α → EStateM ε τ' β} {Q : β → Prop}
    (hm : Parallel R m m' P) (hf : ∀ a, P a → Parallel R (f a) (f' a) Q) :
    Parallel R (m >>= f) (m' >>= f') Q := by
  intro s s' hs
  have hend := hm s s' hs
  show EndAlike R Q (EStateM.bind m f s) (EStateM.bind m' f' s')
  unfold EStateM.bind
  revert hend
  generalize m s = r
  generalize m' s' = r'
  rintro (⟨hvalue, hstate⟩ | hstate)
  · exact hf _ hvalue _ _ hstate
  · exact .error hstate

/-- Over a list. -/
theorem mapM {f : γ → EStateM ε τ β} {f' : γ → EStateM ε τ' β} {xs : List γ}
    (hf : ∀ x ∈ xs, Parallel R (f x) (f' x) fun _ => True) :
    Parallel R (xs.mapM f) (xs.mapM f') fun _ => True := by
  induction xs with
  | nil => exact pure trivial
  | cons x xs ih =>
    rw [List.mapM_cons, List.mapM_cons]
    exact (hf x (.head _)).bind fun _ _ =>
      (ih fun y hy => hf y (.tail _ hy)).bind fun _ _ => pure trivial

/-- Over a list for the effects only. -/
theorem forM {f : γ → EStateM ε τ PUnit} {f' : γ → EStateM ε τ' PUnit} {xs : List γ}
    (hf : ∀ x ∈ xs, Parallel R (f x) (f' x) fun _ => True) :
    Parallel R (ForM.forM xs f) (ForM.forM xs f') fun _ => True := by
  induction xs with
  | nil => exact pure trivial
  | cons x xs ih =>
    rw [List.forM_cons, List.forM_cons]
    exact (hf x (.head _)).bind fun _ _ => ih fun y hy => hf y (.tail _ hy)

/-- Over a value that may be absent. -/
theorem option_mapM {f : γ → EStateM ε τ β} {f' : γ → EStateM ε τ' β} {x : Option γ}
    (hf : ∀ y ∈ x, Parallel R (f y) (f' y) fun _ => True) :
    Parallel R (x.mapM f) (x.mapM f') fun _ => True := by
  cases x with
  | none => exact pure trivial
  | some y => exact (hf y rfl).bind fun _ _ => pure trivial

end Parallel

end Graft
