import AlgoFrontEnd.Proofs.Success

/-! Computations that check what their partial operations rely on. Such a computation halts at a
fault of the source, as the unchecked one does, or at a breach of its own assumptions. -/
namespace AlgoFrontEnd

/-- How a partial operation can be used outside its domain. -/
inductive Breach where
  | emptyStack
  | markTaken
  | pastTokens
  | unknownOperator
  | absentType
  | noProgress
  deriving DecidableEq, Repr

inductive Halt where
  | fault (f : Fault)
  | breach (b : Breach)
  deriving DecidableEq, Repr

section
variable {α β γ : Type}

def breach (b : Breach) : Except Halt α := .error (.breach b)

/-- A computation without checks among computations with checks: it breaches nothing. -/
def guarded (x : Except Fault α) : Except Halt α := x.mapError .fault

@[simp] theorem guarded_ok (a : α) : guarded (.ok a) = .ok a := rfl

@[simp] theorem guarded_pure (a : α) : guarded (pure a) = .ok a := rfl

@[simp] theorem guarded_error (f : Fault) :
    guarded (.error f : Except Fault α) = .error (.fault f) := rfl

theorem guarded_bind (x : Except Fault α) (f : α → Except Fault β) :
    guarded (x >>= f) = guarded x >>= fun a => guarded (f a) := by
  cases x <;> rfl

theorem guarded_map_bind (x : Except Fault α) (f : α → β) (k : β → Except Halt γ) :
    guarded (x.map f) >>= k = guarded x >>= fun a => k (f a) := by
  cases x <;> rfl

theorem guarded_bind_map (x : Except Fault α) (f : α → Except Fault β) (g : β → γ) :
    guarded ((x >>= f).map g) = guarded x >>= fun a => guarded ((f a).map g) := by
  cases x <;> rfl

theorem guarded_eq_ok {x : Except Fault α} {a : α} : guarded x = .ok a ↔ x = .ok a :=
  mapError_eq_ok

theorem ok_bind {ε : Type} (a : α) (f : α → Except ε β) : Except.ok a >>= f = f a := rfl

/-- Two continuations may differ where the first computation does not lead. -/
theorem bind_congr_ok {ε : Type} {x : Except ε α} {f g : α → Except ε β}
    (h : ∀ a, x = .ok a → f a = g a) : x >>= f = x >>= g := by
  cases x with
  | error e => rfl
  | ok a => exact h a rfl

end
end AlgoFrontEnd
