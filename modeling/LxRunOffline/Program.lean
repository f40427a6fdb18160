/-! Programs that keep the state they have reached when they throw, and the rules for
reasoning about them. Nothing here rolls a state back: a handler sees every effect that
came before the exception. The rules speak of any state and any exception type. -/
namespace LxRunOffline

def Program (ε σ α : Type) := σ → Except ε α × σ

namespace Program
variable {ε σ τ α β : Type}

instance : Monad (Program ε σ) where
  pure a s := (.ok a,s)
  bind x f s := match x s with
    | (.ok a,t) => f a t
    | (.error e,t) => (.error e,t)

def raise (e : ε) : Program ε σ α := fun s => (.error e,s)
def get : Program ε σ σ := fun s => (.ok s,s)
def modify (f : σ → σ) : Program ε σ Unit := fun s => (.ok (),f s)

/-- The handler starts in the state in which the exception was raised. -/
def rescue (x : Program ε σ α) (handler : ε → Program ε σ α) : Program ε σ α := fun s =>
  match x s with
  | (.ok a,t) => (.ok a,t)
  | (.error e,t) => handler e t

def zoom (part : τ → σ) (put : τ → σ → τ) (x : Program ε σ α) : Program ε τ α := fun t =>
  ((x (part t)).1,put t (x (part t)).2)

/-- The cleanup runs unless the program ends in a way that leaves no time for it, and its own
exceptions are swallowed. -/
def ensuring (unwinds : ε → Bool) (x : Program ε σ α) (cleanup : Program ε σ Unit) : Program ε σ α := fun s =>
  match x s with
  | (.ok a,t) => (.ok a,(cleanup t).2)
  | (.error e,t) => (.error e,if unwinds e then (cleanup t).2 else t)

def forEach (step : β → Program ε σ Unit) : List β → Program ε σ Unit
  | [] => pure ()
  | b :: rest => do
    step b
    forEach step rest

def both (x y : Program ε σ Bool) : Program ε σ Bool := do
  if ← x then y else pure false

def when (c : Prop) [Decidable c] (x : Program ε σ Unit) : Program ε σ Unit :=
  if c then x else pure ()

theorem returnedPair {a : α} {x : α × σ} (h : x.1 = a) : x = (a,x.2) := Prod.ext h rfl

@[simp] theorem pureRun (a : α) (s : σ) : (pure a : Program ε σ α) s = (.ok a,s) := rfl
@[simp] theorem raiseRun (e : ε) (s : σ) : (raise e : Program ε σ α) s = (.error e,s) := rfl
@[simp] theorem getRun (s : σ) : (get : Program ε σ σ) s = (.ok s,s) := rfl
@[simp] theorem modifyRun (f : σ → σ) (s : σ) :
    (modify f : Program ε σ Unit) s = (.ok (),f s) := rfl

theorem bindRun (x : Program ε σ α) (f : α → Program ε σ β) (s : σ) :
    (x >>= f) s = match x s with
      | (.ok a,t) => f a t
      | (.error e,t) => (.error e,t) := rfl

@[simp] theorem bindOk {x : Program ε σ α} {f : α → Program ε σ β} {s t : σ} {a : α}
    (h : x s = (.ok a,t)) : (x >>= f) s = f a t := by
  rw [bindRun,h]

@[simp] theorem bindError {x : Program ε σ α} {f : α → Program ε σ β} {s t : σ} {e : ε}
    (h : x s = (.error e,t)) : (x >>= f) s = (.error e,t) := by
  rw [bindRun,h]

theorem bindAssoc {γ : Type} (x : Program ε σ α) (f : α → Program ε σ β) (g : β → Program ε σ γ) :
    (x >>= f) >>= g = x >>= fun a => f a >>= g := by
  funext s
  rw [bindRun,bindRun,bindRun]
  cases x s with
  | mk outcome t => cases outcome <;> rfl

theorem bindOkSource {x : Program ε σ α} {f : α → Program ε σ β} {s t : σ} {b : β}
    (h : (x >>= f) s = (.ok b,t)) : ∃ a u, x s = (.ok a,u) ∧ f a u = (.ok b,t) := by
  rw [bindRun] at h
  cases hx : x s with
  | mk outcome u =>
    rw [hx] at h
    cases outcome with
    | ok a => exact ⟨a,u,rfl,h⟩
    | error e => simp at h

theorem rescueOk {x : Program ε σ α} {handler : ε → Program ε σ α} {s t : σ} {a : α}
    (h : x s = (.ok a,t)) : rescue x handler s = (.ok a,t) := by
  simp only [rescue,h]

@[simp] theorem ensuringOk {unwinds : ε → Bool} {x : Program ε σ α} {cleanup : Program ε σ Unit} {s t : σ} {a : α}
    (h : x s = (.ok a,t)) : ensuring unwinds x cleanup s = (.ok a,(cleanup t).2) := by
  simp only [ensuring,h]

theorem rescueError {x : Program ε σ α} {handler : ε → Program ε σ α} {s t : σ} {e : ε}
    (h : x s = (.error e,t)) : rescue x handler s = handler e t := by
  simp only [rescue,h]

def Ends (good : α → σ → Prop) (bad : ε → σ → Prop) : Except ε α × σ → Prop
  | (.ok a,t) => good a t
  | (.error e,t) => bad e t

def Triple (before : σ → Prop) (x : Program ε σ α) (good : α → σ → Prop)
    (bad : ε → σ → Prop) : Prop :=
  ∀ s, before s → Ends good bad (x s)

/-- The condition survives the program, whether it returns or throws. -/
def Keeps (inv : σ → Prop) (x : Program ε σ α) : Prop :=
  Triple inv x (fun _ => inv) (fun _ => inv)

section Rules
variable {before : σ → Prop} {good : α → σ → Prop} {bad : ε → σ → Prop}

theorem Triple.pure {a : α} (h : ∀ s, before s → good a s) :
    Triple before (Pure.pure a : Program ε σ α) good bad := h

theorem Triple.bind {x : Program ε σ β} {f : β → Program ε σ α} {middle : β → σ → Prop}
    (first : Triple before x middle bad) (second : ∀ b, Triple (middle b) (f b) good bad) :
    Triple before (x >>= f) good bad := by
  intro s hs
  have h := first s hs
  rw [bindRun]
  cases hx : x s with
  | mk outcome t =>
    rw [hx] at h
    cases outcome with
    | ok b => exact second b t h
    | error e => exact h

theorem Triple.get {f : σ → Program ε σ α}
    (h : ∀ s, before s → Triple (fun t => t = s) (f s) good bad) :
    Triple before (Program.get >>= f) good bad :=
  fun s hs => h s hs s rfl

theorem Triple.weaken {x : Program ε σ α} {before' : σ → Prop} {good' : α → σ → Prop}
    {bad' : ε → σ → Prop} (h : Triple before x good bad) (pre : ∀ s, before' s → before s)
    (post : ∀ a s, good a s → good' a s) (fail : ∀ e s, bad e s → bad' e s) :
    Triple before' x good' bad' := by
  intro s hs
  have hx := h s (pre s hs)
  cases hr : x s with
  | mk outcome t =>
    rw [hr] at hx
    cases outcome with
    | ok a => exact post a t hx
    | error e => exact fail e t hx

theorem Triple.rescue {x : Program ε σ α} {handler : ε → Program ε σ α} {middle : ε → σ → Prop}
    (body : Triple before x good middle) (recover : ∀ e, Triple (middle e) (handler e) good bad) :
    Triple before (Program.rescue x handler) good bad := by
  intro s hs
  have h := body s hs
  unfold Program.rescue
  cases hx : x s with
  | mk outcome t =>
    rw [hx] at h
    cases outcome with
    | ok a => exact h
    | error e => exact recover e t h

theorem Triple.ite {c : Prop} [Decidable c] {x y : Program ε σ α}
    (yes : c → Triple before x good bad) (no : ¬ c → Triple before y good bad) :
    Triple before (if c then x else y) good bad := by
  split
  · exact yes (by assumption)
  · exact no (by assumption)

theorem Triple.skip {inv : σ → Prop} {c : Prop} [Decidable c] {x : Program ε σ Unit} (no : ¬ c) :
    Triple inv (when c x) (fun _ => inv) bad := Triple.ite (fun yes => absurd yes no) fun _ _ h => h

theorem Triple.forEach {inv : σ → Prop} {step : β → Program ε σ Unit} {items : List β}
    (one : ∀ b ∈ items, Triple inv (step b) (fun _ => inv) bad) :
    Triple inv (Program.forEach step items) (fun _ => inv) bad := by
  induction items with
  | nil => exact fun _ hs => hs
  | cons b rest ih =>
    exact Triple.bind (one b (by simp)) fun _ => ih fun x hx => one x (by simp [hx])

theorem Triple.zoom {part : τ → σ} {put : τ → σ → τ} {x : Program ε σ α} {outer : τ → Prop}
    {good' : α → τ → Prop} {bad' : ε → τ → Prop}
    (h : ∀ t, outer t → Triple (fun s => s = part t) x (fun a s => good' a (put t s))
      (fun e s => bad' e (put t s))) :
    Triple outer (Program.zoom part put x) good' bad' := by
  intro t ht
  have hx := h t ht (part t) rfl
  unfold Program.zoom
  cases hr : x (part t) with
  | mk outcome s =>
    rw [hr] at hx
    cases outcome with
    | ok a => exact hx
    | error e => exact hx

theorem Triple.succeeds {x : Program ε σ α} {bad' : ε → σ → Prop} (h : Triple before x good bad)
    (returns : ∀ s, before s → ∃ a t, x s = (.ok a,t)) : Triple before x good bad' := by
  intro s hs
  have after := h s hs
  obtain ⟨a,t,run⟩ := returns s hs
  rw [run] at after ⊢
  exact after

theorem Triple.ensuring {unwinds : ε → Bool} {x : Program ε σ α} {cleanup : Program ε σ Unit} {bad : ε → Prop}
    (h : Triple before x (fun _ _ => True) fun e _ => bad e) :
    Triple before (Program.ensuring unwinds x cleanup) (fun _ _ => True) fun e _ => bad e := by
  intro s hs
  have after := h s hs
  unfold Program.ensuring
  cases hx : x s with
  | mk outcome t =>
    rw [hx] at after
    cases outcome with
    | ok a => trivial
    | error e => exact after

theorem endsBoth {post : σ → Prop} {outcome : Except ε α × σ} :
    Ends (fun _ => post) (fun _ => post) outcome ↔ post outcome.2 := by
  obtain ⟨result,t⟩ := outcome
  cases result <;> exact Iff.rfl

theorem Keeps.ofFinal {inv : σ → Prop} {x : Program ε σ α} (h : ∀ s, inv s → inv (x s).2) :
    Keeps inv x := fun s hs => endsBoth.mpr (h s hs)

theorem Keeps.final {inv : σ → Prop} {x : Program ε σ α} (h : Keeps inv x) {s : σ} (hs : inv s) :
    inv (x s).2 := endsBoth.mp (h s hs)

theorem Triple.and {x : Program ε σ α} {before' : σ → Prop} {good' : α → σ → Prop}
    {bad' : ε → σ → Prop} (h : Triple before x good bad) (h' : Triple before' x good' bad') :
    Triple (fun s => before s ∧ before' s) x (fun a s => good a s ∧ good' a s)
      (fun e s => bad e s ∧ bad' e s) := by
  rintro s ⟨hs,hs'⟩
  have one := h s hs
  have two := h' s hs'
  cases hx : x s with
  | mk outcome t =>
    rw [hx] at one two
    cases outcome with
    | ok a => exact ⟨one,two⟩
    | error e => exact ⟨one,two⟩

end Rules

def Leaves (view : σ → τ) (x : Program ε σ α) : Prop := ∀ s, view (x s).2 = view s

namespace Leaves
variable {view : σ → τ} {x : Program ε σ α}

theorem pure (a : α) : Leaves view (Pure.pure a : Program ε σ α) := fun _ => rfl

theorem raise (e : ε) : Leaves view (Program.raise e : Program ε σ α) := fun _ => rfl

theorem bind {f : α → Program ε σ β} (hx : Leaves view x) (hf : ∀ a, Leaves view (f a)) :
    Leaves view (x >>= f) := by
  intro s
  have first := hx s
  rw [bindRun]
  cases run : x s with
  | mk outcome t =>
    rw [run] at first
    cases outcome with
    | ok a => exact (hf a t).trans first
    | error e => exact first

theorem ite {c : Prop} [Decidable c] {y : Program ε σ α} (hx : Leaves view x) (hy : Leaves view y) :
    Leaves view (if c then x else y) := by
  split
  · exact hx
  · exact hy

theorem rescue {handler : ε → Program ε σ α} (hx : Leaves view x)
    (hh : ∀ e, Leaves view (handler e)) : Leaves view (Program.rescue x handler) := by
  intro s
  have first := hx s
  unfold Program.rescue
  cases run : x s with
  | mk outcome t =>
    rw [run] at first
    cases outcome with
    | ok a => exact first
    | error e => exact (hh e t).trans first

theorem forEach {step : β → Program ε σ Unit} {items : List β} (h : ∀ b, Leaves view (step b)) :
    Leaves view (Program.forEach step items) := by
  induction items with
  | nil => exact pure ()
  | cons b rest ih => exact bind (h b) fun _ => ih

theorem ensuring {unwinds : ε → Bool} {cleanup : Program ε σ Unit} (hx : Leaves view x)
    (hc : Leaves view cleanup) : Leaves view (Program.ensuring unwinds x cleanup) := by
  intro s
  have first := hx s
  unfold Program.ensuring
  cases run : x s with
  | mk outcome t =>
    rw [run] at first
    cases outcome with
    | ok a => exact (hc t).trans first
    | error e =>
      dsimp only
      split
      · exact (hc t).trans first
      · exact first

theorem leaving (h : Leaves view x) {before : σ → Prop} {good : α → σ → Prop} {bad : ε → σ → Prop}
    (triple : Triple before x good bad) (v : τ) :
    Triple (fun s => before s ∧ view s = v) x (fun a s => good a s ∧ view s = v) bad := by
  intro s hs
  have after := triple s hs.1
  have same := h s
  cases run : x s with
  | mk outcome t =>
    rw [run] at after same
    cases outcome with
    | ok a => exact ⟨after,same.trans hs.2⟩
    | error e => exact after

theorem keeps (h : Leaves view x) (inv : τ → Prop) : Keeps (fun s => inv (view s)) x :=
  Keeps.ofFinal fun s hs => by rwa [h s]

end Leaves
end Program
end LxRunOffline
