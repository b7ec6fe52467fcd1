/-!
# Steps one after another

Reading, writing and building are made of steps that go from one state to the next and end with a
result or a fault.

* `bind_ok`, `bind_error`: how two steps have ended.
* `bind_eq`, `bind_error_eq`: how they end, given how the first one does.
* `get_eq`, `modify_eq`: a look at the state, and a change of it.
* `mapM_cons_ok`: what has been done for each element of a list.
-/

set_option autoImplicit false

namespace BasicToC

variable {ε σ α β : Type} {f : EStateM ε σ α} {g : α → EStateM ε σ β} {a : α} {b : β} {fault : ε}
variable {s s' s'' : σ}

theorem bind_ok (h : (f >>= g) s = .ok b s'') : ∃ a s', f s = .ok a s' ∧ g a s' = .ok b s'' := by
  simp only [bind, EStateM.bind] at h
  split at h
  · rename_i a s' hf
    exact ⟨a, s', hf, h⟩
  · cases h

theorem bind_error (h : (f >>= g) s = .error fault s'') :
    f s = .error fault s'' ∨ ∃ a s', f s = .ok a s' ∧ g a s' = .error fault s'' := by
  simp only [bind, EStateM.bind] at h
  split at h
  · rename_i a s' hf
    exact .inr ⟨a, s', hf, h⟩
  · rename_i hf
    cases h
    exact .inl hf

theorem bind_eq (h : f s = .ok a s') : (f >>= g) s = g a s' := by
  simp only [bind, EStateM.bind, h]

theorem bind_error_eq (h : f s = .error fault s') : (f >>= g) s = .error fault s' := by
  simp only [bind, EStateM.bind, h]

theorem get_eq (s : σ) : (get : EStateM ε σ σ) s = .ok s s := rfl

theorem modify_eq (change : σ → σ) (s : σ) :
    (modify change : EStateM ε σ Unit) s = .ok () (change s) := rfl

theorem mapM_cons_ok {f : α → Except ε β} {x : α} {xs : List α} {ys : List β}
    (h : (x :: xs).mapM f = .ok ys) : ∃ z zs, f x = .ok z ∧ xs.mapM f = .ok zs ∧ ys = z :: zs := by
  rw [List.mapM_cons] at h
  cases hx : f x with
  | error e =>
    rw [hx] at h
    cases h
  | ok z =>
    rw [hx] at h
    cases hxs : xs.mapM f with
    | error e =>
      simp only [hxs] at h
      cases h
    | ok zs =>
      simp only [hxs] at h
      cases h
      exact ⟨z, zs, rfl, rfl, rfl⟩

end BasicToC
