import AlgoFrontEnd.Proofs.Success

/-! Classes of faults that a computation can end in. -/
namespace AlgoFrontEnd

/-- Whether a fault is of a class, or of one that belongs to it. -/
def Fault.isA (k : Kind) (f : Fault) : Bool := f.cause.kind = k || f.cause.kind.wider.contains k

/-- Whether a fault is of a class and at a place. -/
def Fault.isPlaced (k : Kind) (f : Fault) : Bool := f.isA k && f.position.isSome

/-- Every failure that a computation can end in is of the sort. -/
def Fails {ε α : Type} (sort : ε → Bool) (x : Except ε α) : Prop :=
  ∀ e, x = .error e → sort e = true

namespace Fails
variable {ε α β : Type} {sort wider : ε → Bool}

theorem ok (a : α) : Fails sort (.ok a) := nofun

theorem error {e : ε} (h : sort e = true) : Fails sort (.error e : Except ε α) := by
  rintro e ⟨⟩
  exact h

theorem fault {sort : Fault → Bool} {c : Cause} {position : Position}
    (h : sort ⟨c, some position⟩ = true) : Fails sort (fault c position : Except Fault α) := error h

theorem bind {x : Except ε α} {f : α → Except ε β} (hx : Fails sort x)
    (hf : ∀ a, x = .ok a → Fails sort (f a)) : Fails sort (x >>= f) := by
  intro e h
  obtain h | ⟨a, ha, h⟩ := bind_eq_error.mp h
  · exact hx e h
  · exact hf a ha e h

theorem mono {x : Except ε α} (hx : Fails sort x) (h : ∀ e, sort e = true → wider e = true) :
    Fails wider x :=
  fun e he => h e (hx e he)

end Fails

theorem Fault.isA_of_isPlaced {k : Kind} {f : Fault} (h : f.isPlaced k = true) : f.isA k = true :=
  (Bool.and_eq_true_iff.mp h).1

end AlgoFrontEnd
