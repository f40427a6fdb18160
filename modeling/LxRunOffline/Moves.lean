import Mathlib.Order.Defs.Unbundled
import LxRunOffline.Program

/-! What the last state of a program is to the first one, however the program ends. The rules
hold for every relation that is reflexive and transitive. -/
namespace LxRunOffline.Program
variable {ε σ α β : Type}

structure Moves (R : σ → σ → Prop) (x : Program ε σ α) : Prop where
  final : ∀ s, R s (x s).2

namespace Moves
variable {R : σ → σ → Prop} [IsPreorder σ R] {x : Program ε σ α}

theorem pure (a : α) : Moves R (Pure.pure a : Program ε σ α) := ⟨fun s => Std.Refl.refl s⟩

theorem raise (e : ε) : Moves R (Program.raise e : Program ε σ α) := ⟨fun s => Std.Refl.refl s⟩

theorem bindOk {f : α → Program ε σ β} (hx : Moves R x)
    (hf : ∀ a s t, x s = (.ok a,t) → Moves R (f a)) : Moves R (x >>= f) := by
  refine ⟨fun s => ?_⟩
  have first := hx.final s
  rw [bindRun]
  cases run : x s with
  | mk outcome t =>
    rw [run] at first
    cases outcome with
    | ok a => exact IsTrans.trans _ _ _ first ((hf a s t run).final t)
    | error e => exact first

theorem bind {f : α → Program ε σ β} (hx : Moves R x) (hf : ∀ a, Moves R (f a)) : Moves R (x >>= f) :=
  hx.bindOk fun a _ _ _ => hf a

omit [IsPreorder σ R] in
theorem get {f : σ → Program ε σ α} (h : ∀ s, Moves R (f s)) : Moves R (Program.get >>= f) :=
  ⟨fun s => (h s).final s⟩

omit [IsPreorder σ R] in
theorem ite {c : Prop} [Decidable c] {y : Program ε σ α} (hx : c → Moves R x) (hy : ¬ c → Moves R y) :
    Moves R (if c then x else y) := by
  split
  · exact hx (by assumption)
  · exact hy (by assumption)

theorem when {c : Prop} [Decidable c] {x : Program ε σ Unit} (hx : c → Moves R x) :
    Moves R (Program.when c x) := ite hx fun _ => pure ()

theorem rescue {handler : ε → Program ε σ α} (hx : Moves R x) (hh : ∀ e, Moves R (handler e)) :
    Moves R (Program.rescue x handler) := by
  refine ⟨fun s => ?_⟩
  have first := hx.final s
  unfold Program.rescue
  cases run : x s with
  | mk outcome t =>
    rw [run] at first
    cases outcome with
    | ok a => exact first
    | error e => exact IsTrans.trans _ _ _ first ((hh e).final t)

end Moves
end LxRunOffline.Program
