/-
AuditChain/Operation.lean

Operations on a state that may raise.

Whatever an operation did to the state before it raised stays done, as with an
exception that leaves a method half-way.  The lemmas take a sequence of
operations apart one at a time, in the direction of execution.
-/

/-- An operation on a state `S`: it returns an `α` or raises an `ε`. -/
def Operation (ε S α : Type) : Type := S → Except ε α × S

namespace Operation

variable {ε S T α β : Type}

instance : Monad (Operation ε S) where
  pure a s := (.ok a, s)
  bind x f s :=
    match x s with
    | (.ok a, s') => f a s'
    | (.error e, s') => (.error e, s')

/-- Raise. -/
def raise (e : ε) : Operation ε S α := fun s => (.error e, s)

/-- The state. -/
def get : Operation ε S S := fun s => (.ok s, s)

/-- Change the state. -/
def modify (f : S → S) : Operation ε S Unit := fun s => (.ok (), f s)

/-- A computation that does not look at the state. -/
def ofExcept (x : Except ε α) : Operation ε S α := fun s => (x, s)

/-- An operation on a part of the state. -/
def zoom (proj : T → S) (put : S → T → T) (x : Operation ε S α) : Operation ε T α :=
  fun t => ((x (proj t)).1, put (x (proj t)).2 t)

/-- `async with`: `leave` is told whether the body raised, and goes before it with what it
raises itself. -/
def within (enter : Operation ε S Unit) (leave : Bool → Operation ε S Unit)
    (body : Operation ε S α) : Operation ε S α := fun s =>
  match enter s with
  | (.error e, s) => (.error e, s)
  | (.ok (), s) =>
    match body s with
    | (.ok a, s) =>
      match leave false s with
      | (.ok (), s) => (.ok a, s)
      | (.error e, s) => (.error e, s)
    | (.error e, s) =>
      match leave true s with
      | (.ok (), s) => (.error e, s)
      | (.error e', s) => (.error e', s)

@[simp] theorem pure_apply (a : α) (s : S) : (pure a : Operation ε S α) s = (.ok a, s) := rfl

@[simp] theorem raise_apply (e : ε) (s : S) : (raise e : Operation ε S α) s = (.error e, s) := rfl

@[simp] theorem get_apply (s : S) : (get : Operation ε S S) s = (.ok s, s) := rfl

@[simp] theorem modify_apply (f : S → S) (s : S) :
    (modify f : Operation ε S Unit) s = (.ok (), f s) := rfl

@[simp] theorem ofExcept_apply (x : Except ε α) (s : S) :
    (ofExcept x : Operation ε S α) s = (x, s) := rfl

@[simp] theorem zoom_apply (proj : T → S) (put : S → T → T) (x : Operation ε S α) (t : T) :
    zoom proj put x t = ((x (proj t)).1, put (x (proj t)).2 t) := rfl

/-- After an operation that returned, the next one runs. -/
theorem bind_ok {x : Operation ε S α} {f : α → Operation ε S β} {s s' : S} {a : α}
    (h : x s = (.ok a, s')) : (x >>= f) s = f a s' := by
  show (match x s with | (.ok a, s') => f a s' | (.error e, s') => (.error e, s')) = _
  rw [h]

/-- After an operation that raised, nothing runs. -/
theorem bind_error {x : Operation ε S α} {f : α → Operation ε S β} {s s' : S} {e : ε}
    (h : x s = (.error e, s')) : (x >>= f) s = (.error e, s') := by
  show (match x s with | (.ok a, s') => f a s' | (.error e, s') => (.error e, s')) = _
  rw [h]

/-- The same, for an operation whose result alone is known. -/
theorem bind_of_returns {x : Operation ε S α} {f : α → Operation ε S β} {s : S} {a : α}
    (h : (x s).1 = .ok a) : (x >>= f) s = f a (x s).2 :=
  bind_ok (Prod.ext h rfl)

theorem bind_of_raises {x : Operation ε S α} {f : α → Operation ε S β} {s : S} {e : ε}
    (h : (x s).1 = .error e) : (x >>= f) s = (.error e, (x s).2) :=
  bind_error (Prod.ext h rfl)

/-- What came before an operation that returned has returned. -/
theorem exists_of_bind_ok {x : Operation ε S α} {f : α → Operation ε S β} {s : S} {b : β}
    (h : ((x >>= f) s).1 = .ok b) : ∃ a s', x s = (.ok a, s') ∧ (f a s').1 = .ok b := by
  rcases hx : x s with ⟨e | a, s'⟩
  · rw [bind_error hx] at h
    cases h
  · rw [bind_ok hx] at h
    exact ⟨a, s', rfl, h⟩

/-- Entering and leaving go well: what remains is the body. -/
theorem within_returns {enter : Operation ε S Unit} {leave : Bool → Operation ε S Unit}
    {body : Operation ε S α} {s : S} (henter : (enter s).1 = .ok ())
    (hleave : ∀ raised s', (leave raised s').1 = .ok ()) : within enter leave body s =
      ((body (enter s).2).1,
        (leave (body (enter s).2).1.isOk.not (body (enter s).2).2).2) := by
  rw [within, show enter s = (.ok (), (enter s).2) from Prod.ext henter rfl]
  dsimp only
  rcases hbody : body (enter s).2 with ⟨_ | a, s'⟩
  · dsimp only
    rw [show leave true s' = (.ok (), (leave true s').2) from Prod.ext (hleave true s') rfl]
    rfl
  · dsimp only
    rw [show leave false s' = (.ok (), (leave false s').2) from Prod.ext (hleave false s') rfl]
    rfl

theorem within_ok {enter : Operation ε S Unit} {leave : Bool → Operation ε S Unit}
    {body : Operation ε S α} {s s₁ s₂ s₃ : S} {a : α} (henter : enter s = (.ok (), s₁))
    (hbody : body s₁ = (.ok a, s₂)) (hleave : leave false s₂ = (.ok (), s₃)) :
    within enter leave body s = (.ok a, s₃) := by
  simp only [within, henter, hbody, hleave]

theorem bind_assoc {γ : Type} (x : Operation ε S α) (f : α → Operation ε S β)
    (g : β → Operation ε S γ) (s : S) : ((x >>= f) >>= g) s = (x >>= fun a => f a >>= g) s := by
  rcases h : x s with ⟨_ | a, s'⟩
  · rw [bind_error h, bind_error (bind_error h)]
  rcases h' : f a s' with ⟨_ | b, s''⟩
  · rw [bind_error ((bind_ok h).trans h'), bind_ok h, bind_error h']
  · rw [bind_ok ((bind_ok h).trans h'), bind_ok h, bind_ok h']

theorem bind_ofExcept_ok {x : Except ε α} {a : α} (h : x = .ok a) (f : α → Operation ε S β)
    (s : S) : (ofExcept x >>= f) s = f a s :=
  bind_ok (by rw [ofExcept_apply, h])

theorem bind_ofExcept_error {x : Except ε α} {e : ε} (h : x = .error e) (f : α → Operation ε S β)
    (s : S) : (ofExcept x >>= f) s = (.error e, s) :=
  bind_error (by rw [ofExcept_apply, h])

end Operation
