/-
AuditChain/Simulation.lean

Operations that do the same on two kinds of states.

`Simulates R R' ok Q x y` says that `x` follows `y`: from states that are related by `R`
both raise the same exception or return related results, and leave states that are
related by `R'`.  Only those runs of `y` count that end in a state within `ok`.  An
operation that `Stays` within `ok` was within before when it is within afterwards; the
class finds out by itself.  One rule for each way to build an operation, and the
induction over runs:

    Simulates.bind     one operation after the other
    run_simulates      whole runs
-/
import AuditChain.Machine
import AuditChain.Operation

namespace Operation

variable {ε S T S' T' α β γ δ : Type}

/-- The same exception, or related results. -/
def SameResult (Q : α → β → Prop) : Except ε α → Except ε β → Prop
  | .ok a, .ok b => Q a b
  | .error e, .error e' => e = e'
  | .ok _, .error _ => False
  | .error _, .ok _ => False

/-- `x` follows `y`, as long as `y` ends within `ok`. -/
def Simulates (R R' : S → T → Prop) (ok : T → Prop) (Q : α → β → Prop) (x : Operation ε S α)
    (y : Operation ε T β) : Prop :=
  ∀ s t, R s t → ok (y t).2 → SameResult Q (x s).1 (y t).1 ∧ R' (x s).2 (y t).2

/-- What `y` leaves within `ok` was within `ok`. -/
class Stays (ok : T → Prop) (y : Operation ε T β) : Prop where
  back : ∀ t, ok (y t).2 → ok t

theorem SameResult.eq {x y : Except ε α} (h : SameResult (· = ·) x y) : x = y := by
  rcases x with e | a <;> rcases y with e' | b
  · exact congrArg Except.error h
  · exact h.elim
  · exact h.elim
  · exact congrArg Except.ok h

/-! ### What stays within -/

section

variable {ok : T → Prop}

instance stays_pure (b : β) : Stays ok (pure b : Operation ε T β) := ⟨fun _ h => h⟩

instance stays_raise (e : ε) : Stays ok (raise e : Operation ε T β) := ⟨fun _ h => h⟩

instance stays_get : Stays ok (get : Operation ε T T) := ⟨fun _ h => h⟩

instance stays_ofExcept (y : Except ε β) : Stays ok (ofExcept y : Operation ε T β) :=
  ⟨fun _ h => h⟩

instance stays_bind (y : Operation ε T β) (g : β → Operation ε T δ) [hy : Stays ok y]
    [hg : ∀ b, Stays ok (g b)] : Stays ok (y >>= g) := by
  constructor
  intro t h
  rcases hres : y t with ⟨e | b, t'⟩
  · rw [bind_error hres] at h
    apply hy.back
    rwa [hres]
  · rw [bind_ok hres] at h
    apply hy.back
    rw [hres]
    exact (hg b).back t' h

instance stays_ite (c : Prop) [Decidable c] (y z : Operation ε T β) [hy : Stays ok y]
    [hz : Stays ok z] : Stays ok (if c then y else z) := by
  split
  · exact hy
  · exact hz

instance stays_dite (c : Prop) [Decidable c] (y : c → Operation ε T β) (z : ¬c → Operation ε T β)
    [hy : ∀ h, Stays ok (y h)] [hz : ∀ h, Stays ok (z h)] :
    Stays ok (if h : c then y h else z h) := by
  split
  · exact hy _
  · exact hz _

end

/-! ### The rules -/

section

variable {R R' : S → T → Prop} {ok : T → Prop} {Q : α → β → Prop}

theorem simulates_pure {a : α} {b : β} (h : Q a b) :
    Simulates R R ok Q (pure a : Operation ε S α) (pure b) :=
  fun _ _ hR _ => ⟨h, hR⟩

theorem simulates_raise (e : ε) : Simulates R R ok Q (raise e) (raise e) :=
  fun _ _ hR _ => ⟨rfl, hR⟩

theorem simulates_ofExcept (x : Except ε α) :
    Simulates R R ok (· = ·) (ofExcept x) (ofExcept x) := by
  intro s t hR _
  refine ⟨?_, hR⟩
  cases x <;> exact rfl

theorem simulates_modify {f : S → S} {g : T → T} (h : ∀ s t, R s t → R' (f s) (g t)) :
    Simulates R R' ok (· = ·) (modify f : Operation ε S Unit) (modify g) :=
  fun s t hR _ => ⟨rfl, h s t hR⟩

/-- The states themselves are related. -/
theorem simulates_get : Simulates R R ok R (get : Operation ε S S) get :=
  fun _ _ hR _ => ⟨hR, hR⟩

theorem Simulates.weaken {x : Operation ε S α} {y : Operation ε T β}
    (h : Simulates R R' ok Q x y) {R'' : S → T → Prop} (hweak : ∀ s t, R' s t → R'' s t) :
    Simulates R R'' ok Q x y := by
  intro s t hR hok
  obtain ⟨hres, hR'⟩ := h s t hR hok
  exact ⟨hres, hweak _ _ hR'⟩

/-- **One operation after the other.** -/
theorem Simulates.bind {x : Operation ε S α} {y : Operation ε T β} {Q' : γ → δ → Prop}
    {f : α → Operation ε S γ} {g : β → Operation ε T δ} [k : ∀ b, Stays ok (g b)]
    (hxy : Simulates R R' ok Q x y) (hfg : ∀ a b, Q a b → Simulates R' R' ok Q' (f a) (g b)) :
    Simulates R R' ok Q' (x >>= f) (y >>= g) := by
  intro s t hR hok
  rcases hx : x s with ⟨rx, s'⟩
  rcases hy : y t with ⟨ry, t'⟩
  have hfirst : ok t' → SameResult Q rx ry ∧ R' s' t' := by
    intro ht'
    have h := hxy s t hR (by rw [hy]; exact ht')
    rwa [hx, hy] at h
  rcases ry with e | b
  · rw [bind_error hy] at hok ⊢
    obtain ⟨hres, hR'⟩ := hfirst hok
    rcases rx with e' | a
    · rw [bind_error hx]
      exact ⟨hres, hR'⟩
    · exact hres.elim
  · rw [bind_ok hy] at hok ⊢
    obtain ⟨hres, hR'⟩ := hfirst ((k b).back t' hok)
    rcases rx with e' | a
    · exact hres.elim
    · rw [bind_ok hx]
      exact hfg a b hres s' t' hR' hok

end

/-- Operations on parts of the states. -/
theorem Simulates.zoom {R R' : S → T → Prop} {ok : T → Prop} {Q : α → β → Prop}
    {x : Operation ε S α} {y : Operation ε T β} (h : Simulates R R' ok Q x y)
    {V V' : S' → T' → Prop} {ok' : T' → Prop} {proj : S' → S} {put : S → S' → S'} {proj' : T' → T}
    {put' : T → T' → T'} (hproj : ∀ s t, V s t → R (proj s) (proj' t))
    (hok : ∀ t u, ok' (put' u t) → ok u)
    (hput : ∀ s t u v, V s t → R' u v → V' (put u s) (put' v t)) :
    Simulates V V' ok' Q (Operation.zoom proj put x) (Operation.zoom proj' put' y) := by
  intro s t hV ht
  obtain ⟨hres, hnext⟩ := h _ _ (hproj s t hV) (hok t _ ht)
  exact ⟨hres, hput s t _ _ hV hnext⟩

end Operation

namespace Machine

variable {S T I O U X : Type*}

/-- **Whole runs**: if every step follows the other one, so does every run, and what they put
out looks the same. -/
theorem run_simulates {step : I → S → List O × S} {step' : I → T → List U × T} {R : S → T → Prop}
    {ok : T → Prop} (f : O → X) (g : U → X)
    (hstep : ∀ i s t, R s t → ok (step' i t).2 →
      (step i s).1.map f = (step' i t).1.map g ∧ R (step i s).2 (step' i t).2)
    (hok : ∀ i t, ok (step' i t).2 → ok t) :
    ∀ (is : List I) {s : S} {t : T}, R s t → ok (run step' is t).2 →
      (run step is s).1.map f = (run step' is t).1.map g ∧ R (run step is s).2 (run step' is t).2
  | [], _, _, hR, _ => ⟨rfl, hR⟩
  | i :: is, s, t, hR, hlast => by
    have hback : ∀ (is : List I) (t : T), ok (run step' is t).2 → ok t := by
      intro is
      induction is with
      | nil => exact fun _ h => h
      | cons i is ih => exact fun t h => hok i t (ih _ h)
    obtain ⟨hout, hnext⟩ := hstep i s t hR (hback is _ hlast)
    obtain ⟨houts, hend⟩ := run_simulates f g hstep hok is hnext hlast
    refine ⟨?_, hend⟩
    rw [run_cons, run_cons, List.map_append, List.map_append, hout, houts]

end Machine
