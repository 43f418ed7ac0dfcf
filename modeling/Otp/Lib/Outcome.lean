import Mathlib

/-!
# Outcomes of calls that may raise

`Outcome r cond err post` describes a call completely: under `cond` it returns a
result with `post`, and otherwise it raises `err`.  The rules follow the steps of
a `do` block.
-/

namespace Otp.Lib

variable {ε α β : Type*}

/-- Under `cond` the call returns a result with `post`; otherwise it raises `err`. -/
def Outcome (r : Except ε α) (cond : Prop) (err : ε) (post : α → Prop) : Prop :=
  (cond → ∃ x, r = .ok x ∧ post x) ∧ (¬ cond → r = .error err)

namespace Outcome

variable {r : Except ε α} {cond : Prop} {err : ε} {post : α → Prop} {f : α → Except ε β}
  {post' : β → Prop} {cond' : Prop}

theorem ok {x : α} (hc : cond) (hp : post x) : Outcome (.ok x : Except ε α) cond err post :=
  ⟨fun _ => ⟨x, rfl, hp⟩, fun h => absurd hc h⟩

theorem error (hc : ¬ cond) : Outcome (.error err : Except ε α) cond err post :=
  ⟨fun h => absurd h hc, fun _ => rfl⟩

section

variable (h : Outcome r cond err post)

include h

/-- One more step, which may fail only where the call does. -/
theorem bind (hf : ∀ x, post x → ∃ y, f x = .ok y ∧ post' y) :
    Outcome (r.bind f) cond err post' := by
  refine ⟨fun hc => ?_, fun hc => by rw [h.2 hc]; rfl⟩
  obtain ⟨x, rfl, hx⟩ := h.1 hc
  exact hf x hx

/-- A second call with a condition of its own. -/
theorem seq (hf : ∀ x, post x → Outcome (f x) cond' err post') :
    Outcome (r.bind f) (cond ∧ cond') err post' := by
  by_cases hc : cond
  · obtain ⟨x, rfl, hx⟩ := h.1 hc
    exact ⟨fun h' => (hf x hx).1 h'.2, fun h' => (hf x hx).2 fun hc' => h' ⟨hc, hc'⟩⟩
  · rw [h.2 hc]
    exact .error fun h' => hc h'.1

theorem with_cond : Outcome r cond err fun x => cond ∧ post x :=
  ⟨fun hc => (h.1 hc).imp fun _ hx => ⟨hx.1, hc, hx.2⟩, h.2⟩

theorem mono {post' : α → Prop} (hp : ∀ x, post x → post' x) : Outcome r cond err post' :=
  ⟨fun hc => (h.1 hc).imp fun x hx => ⟨hx.1, hp x hx.2⟩, h.2⟩

theorem of_iff (hc : cond ↔ cond') : Outcome r cond' err post :=
  ⟨fun h' => h.1 (hc.2 h'), fun h' => h.2 (mt hc.1 h')⟩

end

end Outcome

end Otp.Lib
