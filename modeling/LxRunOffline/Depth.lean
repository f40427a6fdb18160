import Mathlib.Logic.Relation

/-! How far the edges of a graph lead, over any type of points. Where every point has finitely
many edges and no path goes on for ever, there is a bound for the paths from each point. -/
namespace LxRunOffline
variable {α : Type} {next : α → List α} {a b : α} {n m : Nat}

def Depth (next : α → List α) : Nat → α → Prop
  | 0,a => next a = []
  | n+1,a => ∀ b ∈ next a, Depth next n b

theorem Depth.step (h : Depth next n a) (edge : b ∈ next a) : ∃ m, n = m+1 ∧ Depth next m b := by
  cases n with
  | zero =>
    rw [Depth] at h
    simp [h] at edge
  | succ m => exact ⟨m,rfl,h b edge⟩

theorem Depth.mono (h : Depth next n a) (wider : n ≤ m) : Depth next m a := by
  induction m generalizing n a with
  | zero => exact Nat.le_zero.mp wider ▸ h
  | succ m ih =>
    intro b edge
    obtain ⟨k,rfl,deep⟩ := h.step edge
    exact ih deep (Nat.le_of_succ_le_succ wider)

theorem depthOfAll {edges : List α} (bounded : ∀ b ∈ edges, ∃ n, Depth next n b) :
    ∃ n, ∀ b ∈ edges, Depth next n b := by
  induction edges with
  | nil => exact ⟨0,nofun⟩
  | cons first edges ih =>
    obtain ⟨n,here⟩ := bounded first List.mem_cons_self
    obtain ⟨m,there⟩ := ih fun b mem => bounded b (List.mem_cons_of_mem _ mem)
    refine ⟨n+m,List.forall_mem_cons.mpr ⟨here.mono (Nat.le_add_right ..),fun b mem => ?_⟩⟩
    exact (there b mem).mono (Nat.le_add_left ..)

theorem depthOfAcc (ends : Acc (fun b a => b ∈ next a) a) : ∃ n, Depth next n a := by
  -- The induction is on the paths, which all end.
  induction ends with
  | intro a _ ih =>
    obtain ⟨n,deep⟩ := depthOfAll ih
    exact ⟨n+1,deep⟩

def Leads (next : α → List α) : α → α → Prop := Relation.ReflTransGen fun a b => b ∈ next a

theorem Leads.ends {root : α} (reached : Leads next root a) (ends : Acc (fun b a => b ∈ next a) root) :
    Acc (fun b a => b ∈ next a) a := by
  induction reached with
  | refl => exact ends
  | tail _ edge ih => exact ih.inv edge

theorem noCircle {root : α} (ends : Acc (fun b a => b ∈ next a) root) (reached : Leads next root a) (edge : b ∈ next a)
    (back : Leads next b a) : False := by
  have loopless {r : α → α → Prop} {x : α} (h : Acc r x) : ¬ r x x := by
    induction h with
    | intro x _ ih => exact fun loop => ih x loop loop
  exact loopless (reached.ends ends).transGen (Relation.TransGen.tail' (Relation.reflTransGen_swap.mp back) edge)

theorem leadsEither {c : α} (one : ∀ a b c, c ∈ next a → c ∈ next b → a = b) (first : Leads next a c)
    (second : Leads next b c) : Leads next a b ∨ Leads next b a := by
  have unique : Relator.RightUnique (Function.swap fun a b => b ∈ next a) := fun c a b h h' => one a b c h h'
  have either := Relation.ReflTransGen.total_of_right_unique unique (Relation.reflTransGen_swap.mpr first)
    (Relation.reflTransGen_swap.mpr second)
  exact (either.imp Relation.reflTransGen_swap.mp Relation.reflTransGen_swap.mp).symm

end LxRunOffline
