import AlgoFrontEnd.Proofs.Success

/-! Outcomes of computations at other positions, be they values or faults. -/
namespace AlgoFrontEnd

/-- The same cause; the position that it names is another one. -/
def Cause.move (f : Position → Position) : Cause → Cause
  | redeclaration signature first => redeclaration signature (first.map f)
  | cause => cause

@[simp] theorem Cause.kind_move (f : Position → Position) (c : Cause) :
    (c.move f).kind = c.kind := by
  cases c <;> rfl

@[simp] theorem Cause.message_move (f : Position → Position) (c : Cause) :
    (c.move f).message = c.message := by
  cases c <;> rfl

/-- The same fault at another position. -/
def Fault.move (f : Position → Position) (x : Fault) : Fault :=
  ⟨x.cause.move f, x.position.map f⟩

/-- The outcome under a map of failures and a map of values. -/
def carry {ε ε' α β : Type} (e : ε → ε') (g : α → β) : Except ε α → Except ε' β
  | .ok a => .ok (g a)
  | .error x => .error (e x)

section
variable {ε ε' α β γ δ : Type} {e : ε → ε'} {g : α → β} {x : Except ε α}

/-- Steps that carry outcomes over do so one behind the other. -/
theorem bind_carry {x' : Except ε' β} {k : α → Except ε γ} {k' : β → Except ε' δ} {h : γ → δ}
    (hx : x' = carry e g x) (hk : ∀ a, x = .ok a → k' (g a) = carry e h (k a)) :
    x' >>= k' = carry e h (x >>= k) := by
  subst hx
  cases x with
  | ok a => exact hk a rfl
  | error x => rfl

/-- Steps that take what looks alike to what looks alike do so one behind the other. -/
theorem carry_bind_congr {x y : Except ε α} {k l : α → Except ε γ} {h : γ → δ}
    (hx : carry e g x = carry e g y)
    (hk : ∀ a b, x = .ok a → y = .ok b → g a = g b → carry e h (k a) = carry e h (l b)) :
    carry e h (x >>= k) = carry e h (y >>= l) := by
  cases x with
  | ok a =>
    cases y with
    | ok b => exact hk a b rfl rfl (Except.ok.inj hx)
    | error y => cases hx
  | error x =>
    cases y with
    | ok b => cases hx
    | error y => exact congrArg Except.error (Except.error.inj hx)

@[simp] theorem carry_id (x : Except ε α) : carry id id x = x := by
  cases x <;> rfl

theorem carry_ite {c : Prop} [Decidable c] (x y : Except ε α) :
    carry e g (if c then x else y) = if c then carry e g x else carry e g y :=
  apply_ite ..

theorem carry_eq_ok {b : β} : carry e g x = .ok b ↔ ∃ a, x = .ok a ∧ g a = b := by
  cases x <;> simp [carry]

end
end AlgoFrontEnd
