import Trivalent.Failure

/-!
# What a computation comes to

A computation ends with a result or with a failure, and in both cases it leaves a state. What is to
hold of all three is said at once, from the state that the computation starts in.

* `Work.Meets` -- a result and its state meet one condition, a failure and its state another one;
* `Work.Meets.bind`, `Work.Meets.seq` -- a computation after another one;
* `Work.Meets.forM` -- computations one after another, for as long as none fails: what each of them
  keeps, all of them keep;
* `Work.Finds` -- the same for a computation that only looks at the state, `Work.Raises` -- and for
  one of which only the failures matter;
* `Work.succeeded`, `Work.failed` -- what has come of a computation, as a value to look at.
-/

namespace Trivalent

namespace Work

variable {σ α β : Type} {s : σ}

/-- Started in `s`, a computation ends with a result and a state that meet `Q`, or with a failure
and a state that meet `E`. -/
def Meets (s : σ) (work : Work σ α) (Q : α → σ → Prop) (E : Failure → σ → Prop) : Prop :=
  match work.run s with
  | .ok a t => Q a t
  | .error e t => E e t

namespace Meets

variable {work : Work σ α} {next : α → Work σ β} {Q : α → σ → Prop} {R : β → σ → Prop}
  {E F : Failure → σ → Prop}

theorem of_ok {a : α} {t : σ} (h : Meets s work Q E) (hrun : work.run s = .ok a t) : Q a t := by
  unfold Meets at h
  rw [hrun] at h
  exact h

theorem of_error {e : Failure} {t : σ} (h : Meets s work Q E) (hrun : work.run s = .error e t) :
    E e t := by
  unfold Meets at h
  rw [hrun] at h
  exact h

theorem pure {a : α} (h : Q a s) : Meets s (Pure.pure a : Work σ α) Q E := h

theorem throw {e : Failure} (h : E e s) : Meets s (MonadExcept.throw e : Work σ α) Q E := h

/-- A weaker condition is met as well. -/
theorem mono {Q' : α → σ → Prop} (h : Meets s work Q E) (hQ : ∀ a t, Q a t → Q' a t)
    (hE : ∀ e t, E e t → F e t) : Meets s work Q' F := by
  unfold Meets at h ⊢
  cases hrun : work.run s with
  | ok a t => rw [hrun] at h; exact hQ a t h
  | error e t => rw [hrun] at h; exact hE e t h

/-- What comes after a computation starts where that one has ended. -/
theorem bind (h : Meets s work (fun a t => Meets t (next a) R F) F) :
    Meets s (work >>= next) R F := by
  unfold Meets at h
  unfold Meets
  rw [EStateM.run_bind]
  cases hrun : work.run s with
  | ok a t => rw [hrun] at h; exact h
  | error e t => rw [hrun] at h; exact h

theorem seq (h : Meets s work Q E) (hnext : ∀ a t, Q a t → Meets t (next a) R F)
    (hE : ∀ e t, E e t → F e t) : Meets s (work >>= next) R F :=
  (h.mono hnext hE).bind

/-- **What each of some computations keeps, all of them keep**, whether they get to the end or not.
`Kept` compares the state that is reached with the first one. -/
theorem forM {f : α → Work σ Unit} {Kept : σ → σ → Prop} {B : Failure → Prop} {start : σ}
    (refl : Kept start start) (trans : ∀ {s t u}, Kept s t → Kept t u → Kept s u)
    (each : ∀ x s, Kept start s →
      Meets s (f x) (fun _ t => Kept s t) (fun e t => Kept s t ∧ B e)) (xs : List α) :
    Meets start (xs.forM f) (fun _ t => Kept start t) (fun e t => Kept start t ∧ B e) := by
  suffices h : ∀ s, Kept start s →
      Meets s (xs.forM f) (fun _ t => Kept start t) (fun e t => Kept start t ∧ B e) from
    h start refl
  induction xs with
  | nil => exact fun s hs => hs
  | cons x xs ih =>
      intro s hs
      refine (each x s hs).seq (fun _ t ht => ih t (trans hs ht)) fun e t ht => ?_
      exact ⟨trans hs ht.1, ht.2⟩

end Meets

/-- A computation that changes no state: its result meets `Q`, or its failure meets `B`. -/
def Finds (work : Work σ α) (Q : α → Prop) (B : Failure → Prop) : Prop :=
  ∀ s, Meets s work (fun a t => Q a ∧ t = s) (fun e t => B e ∧ t = s)

namespace Finds

variable {work : Work σ α} {next : α → Work σ β} {Q : α → Prop} {R : β → Prop} {B : Failure → Prop}

theorem pure {a : α} (h : Q a) : Finds (Pure.pure a : Work σ α) Q B := fun _ => ⟨h, rfl⟩

theorem throw {e : Failure} (h : B e) : Finds (MonadExcept.throw e : Work σ α) Q B :=
  fun _ => ⟨h, rfl⟩

theorem seq {R : β → σ → Prop} {F : Failure → σ → Prop} (h : Finds work Q B)
    (hnext : ∀ a, Q a → Meets s (next a) R F) (hF : ∀ e, B e → F e s) :
    Meets s (work >>= next) R F := by
  refine (h s).seq (fun a t ht => ?_) fun e t ht => ?_
  · rw [ht.2]
    exact hnext a ht.1
  · rw [ht.2]
    exact hF e ht.1

theorem bind (h : Finds work Q B) (hnext : ∀ a, Q a → Finds (next a) R B) :
    Finds (work >>= next) R B :=
  fun s => h.seq (fun a ha => hnext a ha s) fun _ he => ⟨he, rfl⟩

end Finds

/-- Whatever it starts from, a computation fails with nothing but what meets `B`. -/
def Raises (work : Work σ α) (B : Failure → Prop) : Prop :=
  ∀ s, Meets s work (fun _ _ => True) (fun e _ => B e)

namespace Raises

variable {work : Work σ α} {next : α → Work σ β} {B : Failure → Prop}

theorem pure {a : α} : Raises (Pure.pure a : Work σ α) B := fun _ => trivial

theorem throw {e : Failure} (h : B e) : Raises (MonadExcept.throw e : Work σ α) B := fun _ => h

theorem bind (h : Raises work B) (hnext : ∀ a, Raises (next a) B) : Raises (work >>= next) B :=
  fun s => (h s).seq (fun a t _ => hnext a t) fun _ _ he => he

theorem forM {f : α → Work σ Unit} {xs : List α} (h : ∀ x ∈ xs, Raises (f x) B) :
    Raises (xs.forM f) B := by
  induction xs with
  | nil => exact .pure
  | cons x xs ih =>
      exact (h x (by simp)).bind fun _ => ih fun y hy => h y (List.mem_cons_of_mem x hy)

end Raises

/-- The result of a computation that has succeeded, and the state it has left. -/
def succeeded : EStateM.Result Failure σ α → Option (α × σ)
  | .ok a s => some (a, s)
  | .error _ _ => none

/-- The failure of a computation that has failed, and the state it has left. -/
def failed : EStateM.Result Failure σ α → Option (Failure × σ)
  | .ok _ _ => none
  | .error e s => some (e, s)

theorem eq_ok_of_succeeded {result : EStateM.Result Failure σ α} {a : α}
    (h : succeeded result = some (a, s)) : result = .ok a s := by
  cases result with
  | ok a' s' =>
      cases h
      rfl
  | error e s' => cases h

theorem eq_error_of_failed {result : EStateM.Result Failure σ α} {e : Failure}
    (h : failed result = some (e, s)) : result = .error e s := by
  cases result with
  | ok a s' => cases h
  | error e' s' =>
      cases h
      rfl

theorem eq_ok_of_toOption {ε : Type} {result : Except ε α} {a : α}
    (h : result.toOption = some a) : result = .ok a := by
  cases result with
  | ok a' =>
      cases h
      rfl
  | error e => cases h

end Work

end Trivalent
