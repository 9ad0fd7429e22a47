import Trivalent.Failure

/-!
# Two computations side by side

Two computations run from two states that belong together, and it is to be shown that they keep
together: both succeed or both fail, and the states that they leave belong together again.

* `Alike` -- two outcomes of the same kind, that meet one condition if both are results and another
  one if both are failures;
* `Work.Parallel` -- two computations that come to the same result, or to failures of which the
  second says what the first says, in other words;
* `Work.Parallel.bind`, `Work.Parallel.mapM`, `Work.Parallel.forM` -- steps that keep together, one
  after another;
* `Work.Settled` -- a computation that neither reads nor changes the state. Where both sides do the
  same in this way, they keep together (`Work.Settled.parallel`).
-/

namespace Trivalent

section Alike

variable {σ τ α β : Type} {Q Q' : α → σ → β → τ → Prop} {E E' : Failure → σ → Failure → τ → Prop}
  {r : EStateM.Result Failure σ α} {r' : EStateM.Result Failure τ β}

/-- Two results that meet `Q`, or two failures that meet `E`, each with the state that is left. -/
def Alike (Q : α → σ → β → τ → Prop) (E : Failure → σ → Failure → τ → Prop) :
    EStateM.Result Failure σ α → EStateM.Result Failure τ β → Prop
  | .ok a s, .ok b t => Q a s b t
  | .error e s, .error f t => E e s f t
  | _, _ => False

/-- Beside a result there is a result. -/
theorem Alike.of_ok {a : α} {s : σ} (h : Alike Q E (.ok a s) r') :
    ∃ b t, r' = .ok b t ∧ Q a s b t := by
  cases r' with
  | ok b t => exact ⟨b, t, rfl, h⟩
  | error f t => cases h

/-- Beside a failure there is a failure. -/
theorem Alike.of_error {e : Failure} {s : σ} (h : Alike Q E (.error e s) r') :
    ∃ f t, r' = .error f t ∧ E e s f t := by
  cases r' with
  | ok b t => cases h
  | error f t => exact ⟨f, t, rfl, h⟩

/-- Outcomes that meet some conditions meet weaker ones. -/
theorem Alike.mono (h : Alike Q E r r') (hQ : ∀ a s b t, Q a s b t → Q' a s b t)
    (hE : ∀ e s f t, E e s f t → E' e s f t) : Alike Q' E' r r' := by
  cases r with
  | ok a s =>
      obtain ⟨b, t, rfl, h⟩ := h.of_ok
      exact hQ a s b t h
  | error e s =>
      obtain ⟨f, t, rfl, h⟩ := h.of_error
      exact hE e s f t h

end Alike

namespace Work

variable {σ α β : Type} {R : σ → σ → Prop} {say : Failure → Failure} {s t : σ}

/-- Started in `s` and in `t`, two computations come to the same result, which meets `P`, or both
fail, the second one with what `say` makes of the failure of the first one. Either way they leave
states that `R` relates. -/
def Parallel (R : σ → σ → Prop) (say : Failure → Failure) (s t : σ) (work other : Work σ α)
    (P : α → σ → Prop) : Prop :=
  Alike (fun a s b t => b = a ∧ R s t ∧ P a s) (fun e s f t => f = say e ∧ R s t)
    (work.run s) (other.run t)

/-- A computation that neither reads nor changes the state: it gives a result that meets `P`, or it
fails with something that `say` leaves as it is. -/
def Settled (say : Failure → Failure) (work : Work σ α) (P : α → Prop) : Prop :=
  (∃ a, P a ∧ work = Pure.pure a) ∨ ∃ e, say e = e ∧ work = MonadExcept.throw e

namespace Parallel

variable {work other : Work σ α} {next next' : α → Work σ β} {P Q : α → σ → Prop}
  {S : β → σ → Prop}

theorem pure {a : α} (hR : R s t) (h : P a s) :
    Parallel R say s t (Pure.pure a) (Pure.pure a) P := ⟨rfl, hR, h⟩

theorem throw {e f : Failure} (hR : R s t) (h : f = say e) :
    Parallel R say s t (MonadExcept.throw e : Work σ α) (MonadExcept.throw f) P := ⟨h, hR⟩

theorem mono (h : Parallel R say s t work other P) (hP : ∀ a s, P a s → Q a s) :
    Parallel R say s t work other Q :=
  Alike.mono h (fun _ _ _ _ ⟨hsame, hR, hmeets⟩ => ⟨hsame, hR, hP _ _ hmeets⟩)
    fun _ _ _ _ h => h

/-- Both sides look at their states. -/
theorem get {next next' : σ → Work σ β} (h : Parallel R say s t (next s) (next' t) S) :
    Parallel R say s t (MonadState.get >>= next) (MonadState.get >>= next') S := h

/-- What comes after two computations starts where these have ended. -/
theorem bind (h : Parallel R say s t work other P)
    (hnext : ∀ a s t, R s t → P a s → Parallel R say s t (next a) (next' a) S) :
    Parallel R say s t (work >>= next) (other >>= next') S := by
  unfold Parallel at h ⊢
  rw [EStateM.run_bind, EStateM.run_bind]
  cases hwork : work.run s with
  | ok a s' =>
      rw [hwork] at h
      obtain ⟨_, t', hother, rfl, hR, hmeets⟩ := h.of_ok
      rw [hother]
      exact hnext _ s' t' hR hmeets
  | error e s' =>
      rw [hwork] at h
      obtain ⟨f, t', hother, hfailed⟩ := h.of_error
      rw [hother]
      exact hfailed

/-- A computation for each element of a list, with a list of the results. -/
theorem mapM {f f' : β → Work σ α} (xs : List β)
    (h : ∀ x s t, R s t → Parallel R say s t (f x) (f' x) fun _ _ => True) (hR : R s t) :
    Parallel R say s t (xs.mapM f) (xs.mapM f') fun _ _ => True := by
  induction xs generalizing s t with
  | nil => exact pure hR trivial
  | cons x xs ih =>
      rw [List.mapM_cons, List.mapM_cons]
      refine (h x s t hR).bind fun a s t hR _ => ?_
      exact (ih hR).bind fun as s t hR _ => pure hR trivial

/-- A computation for each element of a list. -/
theorem forM {f f' : β → Work σ Unit} (xs : List β)
    (h : ∀ x s t, R s t → Parallel R say s t (f x) (f' x) fun _ _ => True) (hR : R s t) :
    Parallel R say s t (xs.forM f) (xs.forM f') fun _ _ => True := by
  induction xs generalizing s t with
  | nil => exact pure hR trivial
  | cons x xs ih => exact (h x s t hR).bind fun _ s t hR _ => ih hR

end Parallel

namespace Settled

variable {work : Work σ α} {next next' : α → Work σ β} {P : α → Prop} {Q : β → Prop}
  {S : β → σ → Prop}

theorem pure {a : α} (h : P a) : Settled say (Pure.pure a : Work σ α) P := .inl ⟨a, h, rfl⟩

theorem throw {e : Failure} (h : say e = e) : Settled say (MonadExcept.throw e : Work σ α) P :=
  .inr ⟨e, h, rfl⟩

theorem bind (h : Settled say work P) (hnext : ∀ a, P a → Settled say (next a) Q) :
    Settled say (work >>= next) Q := by
  rcases h with ⟨a, ha, rfl⟩ | ⟨e, he, rfl⟩
  · rw [pure_bind]
    exact hnext a ha
  · exact throw he

theorem mapM {f : β → Work σ α} (h : ∀ x, Settled say (f x) P) (xs : List β) :
    Settled say (xs.mapM f) fun as => ∀ a ∈ as, P a := by
  induction xs with
  | nil => exact pure nofun
  | cons x xs ih =>
      rw [List.mapM_cons]
      refine (h x).bind fun a ha => ih.bind fun as has => pure ?_
      exact List.forall_mem_cons.mpr ⟨ha, has⟩

/-- Both sides start with the same computation of this kind. -/
theorem parallel (h : Settled say work P) (hR : R s t)
    (hnext : ∀ a, P a → Parallel R say s t (next a) (next' a) S) :
    Parallel R say s t (work >>= next) (work >>= next') S := by
  rcases h with ⟨a, ha, rfl⟩ | ⟨e, he, rfl⟩
  · rw [pure_bind, pure_bind]
    exact hnext a ha
  · exact .throw hR he.symm

/-- Both sides are the same computation of this kind. -/
theorem both (h : Settled say work P) (hR : R s t) :
    Parallel R say s t work work fun a u => P a ∧ u = s := by
  rcases h with ⟨a, ha, rfl⟩ | ⟨e, he, rfl⟩
  · exact .pure hR ⟨ha, rfl⟩
  · exact .throw hR he.symm

end Settled

end Work

end Trivalent
