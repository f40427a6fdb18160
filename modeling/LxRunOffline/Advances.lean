import LxRunOffline.Moves

/-! Programs of which only a part of the state is looked at. However such a program ends, the
part has moved along a preorder, and a value that is returned is right for what it is then. -/
namespace LxRunOffline.Program
variable {ε σ τ ρ α β : Type}

theorem Triple.source {before : σ → Prop} {good : α → σ → Prop} {bad : ε → σ → Prop} {x : Program ε σ α}
    (h : Triple before x good bad) {s t : σ} {a : α} (here : before s) (run : x s = (.ok a,t)) : good a t := by
  have ends := h s here
  rwa [run] at ends

theorem Leaves.source {view : σ → ρ} {x : Program ε σ α} (h : Leaves view x) {s t : σ} {outcome : Except ε α}
    (run : x s = (outcome,t)) : view t = view s := by
  have still := h s
  rwa [run] at still

theorem bindSource {x : Program ε σ α} {f : α → Program ε σ β} {s t : σ} {outcome : Except ε β}
    (run : (x >>= f) s = (outcome,t)) :
    (∃ e, x s = (.error e,t) ∧ outcome = .error e) ∨ ∃ a u, x s = (.ok a,u) ∧ f a u = (outcome,t) := by
  cases first : x s with
  | mk answer u =>
    cases answer with
    | error e =>
      rw [bindError first] at run
      obtain ⟨rfl,rfl⟩ := Prod.mk.inj run
      exact .inl ⟨e,rfl,rfl⟩
    | ok a =>
      rw [bindOk first] at run
      exact .inr ⟨a,u,rfl,run⟩

theorem zoomSource {part : τ → σ} {put : τ → σ → τ} {x : Program ε σ α} {s t : τ} {a : α}
    (run : Program.zoom part put x s = (.ok a,t)) : ∃ u, x (part s) = (.ok a,u) ∧ t = put s u := by
  rw [Program.zoom] at run
  cases inner : x (part s) with
  | mk outcome u =>
    rw [inner] at run
    obtain ⟨rfl,rfl⟩ := Prod.mk.inj run
    exact ⟨u,rfl,rfl⟩

theorem ensuringSource {unwinds : ε → Bool} {x : Program ε σ α} {cleanup : Program ε σ Unit} {s t : σ} {a : α}
    (run : Program.ensuring unwinds x cleanup s = (.ok a,t)) : ∃ u, x s = (.ok a,u) ∧ t = (cleanup u).2 := by
  rw [Program.ensuring] at run
  cases inner : x s with
  | mk outcome u =>
    rw [inner] at run
    cases outcome with
    | ok b =>
      obtain ⟨same,rfl⟩ := Prod.mk.inj run
      exact ⟨u,by rw [same],rfl⟩
    | error e => cases (Prod.mk.inj run).1

theorem rescueSource {x : Program ε σ α} {handler : ε → Program ε σ α} {s t : σ} {a : α}
    (run : Program.rescue x handler s = (.ok a,t)) :
    x s = (.ok a,t) ∨ ∃ e u, x s = (.error e,u) ∧ handler e u = (.ok a,t) := by
  rw [Program.rescue] at run
  cases inner : x s with
  | mk outcome u =>
    rw [inner] at run
    cases outcome with
    | ok b => exact .inl run
    | error e => exact .inr ⟨e,u,rfl,run⟩

def Advances (view : σ → ρ) (R : ρ → ρ → Prop) (r : ρ) (x : Program ε σ α) (right : α → ρ → Prop) : Prop :=
  Triple (fun s => view s = r) x (fun a t => R r (view t) ∧ right a (view t)) fun _ t => R r (view t)

namespace Advances
variable {view : σ → ρ} {R : ρ → ρ → Prop} {r : ρ} {x : Program ε σ α} {right : α → ρ → Prop}

theorem weaken {wider : α → ρ → Prop} (h : Advances view R r x right) (weaker : ∀ a r', right a r' → wider a r') :
    Advances view R r x wider :=
  Triple.weaken h (fun _ same => same) (fun a t both => ⟨both.1,weaker a (view t) both.2⟩) fun _ _ moved => moved

theorem ite {c : Prop} [Decidable c] {y : Program ε σ α} (yes : c → Advances view R r x right)
    (no : ¬ c → Advances view R r y right) : Advances view R r (if c then x else y) right := Triple.ite yes no

theorem get {f : σ → Program ε σ α} (h : ∀ s, view s = r → Advances view R r (f s) right) :
    Advances view R r (Program.get >>= f) right := fun s same => h s same s same

theorem final (h : Advances view R r x right) {s : σ} (same : view s = r) : R r (view (x s).2) := by
  have ends := h s same
  cases run : x s with
  | mk outcome t =>
    rw [run] at ends
    cases outcome with
    | ok a => exact ends.1
    | error e => exact ends

theorem zoom {part : τ → σ} {put : τ → σ → τ} (own : ∀ t s, part (put t s) = s) (h : Advances view R r x right) :
    Advances (fun t => view (part t)) R r (Program.zoom part put x) right := by
  refine Triple.zoom fun t same => ?_
  refine Triple.weaken h (fun s is => is ▸ same) (fun a s both => ?_) fun e s moved => ?_
  · dsimp only
    rwa [own]
  · dsimp only
    rwa [own]

variable [IsPreorder ρ R]

theorem pure {a : α} (h : right a r) : Advances view R r (Pure.pure a : Program ε σ α) right := by
  rintro s rfl
  exact ⟨Std.Refl.refl _,h⟩

theorem raise (e : ε) : Advances view R r (Program.raise e : Program ε σ α) right := by
  rintro s rfl
  exact Std.Refl.refl _

theorem leaves (h : Leaves view x) : Advances view R r x fun _ r' => r' = r := by
  rintro s rfl
  have still := h s
  cases run : x s with
  | mk outcome t =>
    rw [run] at still
    dsimp only at still
    cases outcome with
    | ok a => exact ⟨still ▸ Std.Refl.refl _,still⟩
    | error e => exact still ▸ Std.Refl.refl (r := R) (view t)

theorem bind {f : α → Program ε σ β} {right' : β → ρ → Prop} (hx : Advances view R r x right)
    (hf : ∀ a r', R r r' → right a r' → Advances view R r' (f a) right') : Advances view R r (x >>= f) right' := by
  refine Triple.bind hx fun a t both => ?_
  have next := hf a (view t) both.1 both.2 t rfl
  cases run : f a t with
  | mk outcome u =>
    rw [run] at next
    cases outcome with
    | ok b => exact ⟨IsTrans.trans _ _ _ both.1 next.1,next.2⟩
    | error e => exact IsTrans.trans _ _ _ both.1 next

theorem when {c : Prop} [Decidable c] {x : Program ε σ Unit} {keeps : ρ → Prop} (now : keeps r)
    (h : c → Advances view R r x fun _ => keeps) : Advances view R r (Program.when c x) fun _ => keeps :=
  ite h fun _ => pure now

theorem rescue {handler : ε → Program ε σ α} (hx : Advances view R r x right)
    (hh : ∀ e r', R r r' → Advances view R r' (handler e) right) :
    Advances view R r (Program.rescue x handler) right := by
  refine Triple.rescue hx fun e t moved => ?_
  have next := hh e (view t) moved t rfl
  cases run : handler e t with
  | mk outcome u =>
    rw [run] at next
    cases outcome with
    | ok a => exact ⟨IsTrans.trans _ _ _ moved next.1,next.2⟩
    | error e' => exact IsTrans.trans _ _ _ moved next

end Advances
end LxRunOffline.Program
