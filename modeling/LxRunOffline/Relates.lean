import LxRunOffline.Program

/-! Two programs that run side by side, from related states to related states. They return
related values or throw the same exception; neither returns where the other throws. -/
namespace LxRunOffline
namespace Program
variable {ε σ τ α β γ δ : Type}

inductive Both (R : σ → τ → Prop) (V : α → β → Prop) : Except ε α × σ → Except ε β × τ → Prop
  | ok {a : α} {b : β} {s : σ} {t : τ} (value : V a b) (state : R s t) :
      Both R V (.ok a,s) (.ok b,t)
  | error {e : ε} {s : σ} {t : τ} (state : R s t) : Both R V (.error e,s) (.error e,t)

structure Relates (R : σ → τ → Prop) (V : α → β → Prop) (x : Program ε σ α)
    (y : Program ε τ β) : Prop where
  runs : ∀ s t, R s t → Both R V (x s) (y t)

namespace Relates
variable {R : σ → τ → Prop} {V : α → β → Prop} {W : γ → δ → Prop}
  {x : Program ε σ α} {y : Program ε τ β}

theorem pure {a : α} {b : β} (h : V a b) :
    Relates R V (Pure.pure a : Program ε σ α) (Pure.pure b) := ⟨fun _ _ => .ok h⟩

theorem raise (e : ε) : Relates R V (Program.raise e : Program ε σ α) (Program.raise e) :=
  ⟨fun _ _ => .error⟩

theorem modify {f : σ → σ} {g : τ → τ} (h : ∀ s t, R s t → R (f s) (g t)) :
    Relates R Eq (Program.modify f : Program ε σ Unit) (Program.modify g) :=
  ⟨fun s t related => .ok rfl (h s t related)⟩

theorem bind {f : α → Program ε σ γ} {g : β → Program ε τ δ} (first : Relates R V x y)
    (rest : ∀ a b, V a b → Relates R W (f a) (g b)) : Relates R W (x >>= f) (y >>= g) := by
  refine ⟨fun s t related => ?_⟩
  have both := first.runs s t related
  rw [bindRun,bindRun]
  cases hx : x s
  cases hy : y t
  rw [hx,hy] at both
  cases both with
  | ok value state => exact (rest _ _ value).runs _ _ state
  | error state => exact .error state

theorem follow {x : Program ε σ α} {y : Program ε τ α} {f : α → Program ε σ γ}
    {g : α → Program ε τ δ} (first : Relates R Eq x y) (rest : ∀ a, Relates R W (f a) (g a)) :
    Relates R W (x >>= f) (y >>= g) := first.bind fun a _ same => same ▸ rest a

theorem get {f : σ → Program ε σ γ} {g : τ → Program ε τ δ}
    (h : ∀ s t, R s t → Relates R W (f s) (g t)) :
    Relates R W (Program.get >>= f) (Program.get >>= g) :=
  ⟨fun s t related => (h s t related).runs s t related⟩

theorem ite {c : Prop} [Decidable c] {x' : Program ε σ α} {y' : Program ε τ β}
    (yes : c → Relates R V x y) (no : ¬ c → Relates R V x' y') :
    Relates R V (if c then x else x') (if c then y else y') := by
  by_cases h : c
  · rw [if_pos h,if_pos h]
    exact yes h
  · rw [if_neg h,if_neg h]
    exact no h

theorem when {c : Prop} [Decidable c] {x : Program ε σ Unit} {y : Program ε τ Unit}
    (h : c → Relates R Eq x y) : Relates R Eq (Program.when c x) (Program.when c y) :=
  ite h fun _ => pure rfl

theorem rescue {handler : ε → Program ε σ α} {handler' : ε → Program ε τ β}
    (body : Relates R V x y) (recover : ∀ e, Relates R V (handler e) (handler' e)) :
    Relates R V (Program.rescue x handler) (Program.rescue y handler') := by
  refine ⟨fun s t related => ?_⟩
  have both := body.runs s t related
  unfold Program.rescue
  cases hx : x s
  cases hy : y t
  rw [hx,hy] at both
  cases both with
  | ok value state => exact .ok value state
  | error state => exact (recover _).runs _ _ state

theorem ensuring {unwinds : ε → Bool} {cleanup : Program ε σ Unit} {cleanup' : Program ε τ Unit}
    (body : Relates R V x y) (after : Relates R Eq cleanup cleanup') :
    Relates R V (Program.ensuring unwinds x cleanup) (Program.ensuring unwinds y cleanup') := by
  refine ⟨fun s t related => ?_⟩
  have both := body.runs s t related
  unfold Program.ensuring
  cases hx : x s
  cases hy : y t
  rw [hx,hy] at both
  have cleaned {u : σ} {v : τ} (state : R u v) : R (cleanup u).2 (cleanup' v).2 := by
    have both := after.runs u v state
    cases hu : cleanup u
    cases hv : cleanup' v
    rw [hu,hv] at both
    cases both with
    | ok value state => exact state
    | error state => exact state
  cases both with
  | ok value state => exact .ok value (cleaned state)
  | error state =>
    dsimp only
    split
    · exact .error (cleaned state)
    · exact .error state

theorem told {P : α → Prop} (h : Relates R V x y) (known : ∀ s a t, x s = (.ok a,t) → P a) :
    Relates R (fun a b => V a b ∧ P a) x y := by
  refine ⟨fun s t related => ?_⟩
  have both := h.runs s t related
  cases hx : x s
  cases hy : y t
  rw [hx,hy] at both
  cases both with
  | ok value state => exact .ok ⟨value,known s _ _ hx⟩ state
  | error state => exact .error state

theorem final {x y : Program ε σ α} {R : σ → σ → Prop} (h : Relates R Eq x y) {s t : σ}
    (related : R s t) : (x s).1 = (y t).1 ∧ R (x s).2 (y t).2 := by
  have both := h.runs s t related
  cases hx : x s
  cases hy : y t
  rw [hx,hy] at both
  cases both with
  | ok value state => exact ⟨congrArg Except.ok value,state⟩
  | error state => exact ⟨rfl,state⟩

end Relates
end Program
end LxRunOffline
