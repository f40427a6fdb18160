import LxRunOffline.VisitTargets

/-! The order of a walk. What lies in a directory is visited right after the directory itself, in
one stretch, and nothing else lies in it. -/
namespace LxRunOffline

def Visit.place (v : Visit) : List Wstr := v.dirs ++ [v.name]

namespace Tree
variable {t : Tree} {dirs front place : List Wstr} {pre rest : List Visit} {u v : Visit} {name other : Wstr}

theorem oneEntry (h : dirs ++ [name] <+: place) (h' : dirs ++ [other] <+: place) : name = other := by
  have same := (List.prefix_of_prefix_length_le h h' (by simp)).eq_of_length (by simp)
  exact List.singleton_inj.mp (List.append_cancel_left same)

theorem longer : ¬ place ++ [name] <+: place := by
  intro h
  have short := h.length_le
  simp only [List.length_append,List.length_singleton] at short
  omega

theorem visitThrough (mem : u ∈ t.visits dirs) : ∃ name ∈ t.names, dirs ++ [name] <+: u.place := by
  induction t generalizing dirs with
  | nil => cases mem
  | file name info rest ih =>
    rcases List.mem_cons.mp mem with rfl | later
    · exact ⟨name,List.mem_cons_self,List.prefix_rfl⟩
    · obtain ⟨other,among,through⟩ := ih later
      exact ⟨other,List.mem_cons_of_mem _ among,through⟩
  | dir name info sub rest ihSub ihRest =>
    rcases List.mem_cons.mp mem with rfl | inside
    · exact ⟨name,List.mem_cons_self,List.prefix_rfl⟩
    · rcases List.mem_append.mp inside with below | later
      · obtain ⟨other,-,through⟩ := ihSub below
        exact ⟨name,List.mem_cons_self,(List.prefix_append _ _).trans through⟩
      · obtain ⟨other,among,through⟩ := ihRest later
        exact ⟨other,List.mem_cons_of_mem _ among,through⟩

theorem apartFrom (fresh : name ∉ t.names) (mem : u ∈ t.visits dirs) : ¬ dirs ++ [name] <+: u.place := by
  intro inside
  obtain ⟨other,among,through⟩ := visitThrough mem
  exact fresh (oneEntry inside through ▸ among)

structure Stretch (v : Visit) (before inner after : List Visit) : Prop where
  inside : ∀ u ∈ inner, ∃ name, v.place ++ [name] <+: u.place
  before : ∀ u ∈ before, ¬ v.place <+: u.place
  after : ∀ u ∈ after, ¬ v.place <+: u.place

theorem stretch (proper : t.Proper) (all : t.visits dirs = pre ++ v :: rest) :
    ∃ inner after, rest = inner ++ after ∧ Stretch v pre inner after := by
  induction t generalizing dirs pre rest with
  | nil => simp [visits] at all
  | file name info others ih =>
    cases pre with
    | nil =>
      obtain ⟨rfl,rfl⟩ := List.cons.inj all
      exact ⟨[],others.visits dirs,rfl,by simp,by simp,fun u mem => apartFrom proper.2.1 mem⟩
    | cons first pre =>
      obtain ⟨rfl,tail⟩ := List.cons.inj all
      obtain ⟨inner,after,rfl,apart⟩ := ih proper.2.2 tail
      refine ⟨inner,after,rfl,apart.inside,fun u mem inside => ?_,apart.after⟩
      rcases List.mem_cons.mp mem with rfl | early
      · obtain ⟨other,among,through⟩ := @visitThrough others dirs v (by simp [tail])
        have same : other = name := oneEntry (through.trans inside) List.prefix_rfl
        exact proper.2.1 (same ▸ among)
      · exact apart.before u early inside
  | dir name info sub others ihSub ihRest =>
    have through {u : Visit} (mem : u ∈ sub.visits (dirs ++ [name])) : dirs ++ [name] <+: u.place := by
      obtain ⟨own,-,inside⟩ := visitThrough mem
      exact (List.prefix_append _ _).trans inside
    cases pre with
    | nil =>
      obtain ⟨rfl,rfl⟩ := List.cons.inj all
      refine ⟨sub.visits (dirs ++ [name]),others.visits dirs,rfl,fun u mem => ?_,by simp,
        fun u mem => apartFrom proper.2.1 mem⟩
      exact (visitThrough mem).imp fun own here => here.2
    | cons first pre =>
      obtain ⟨rfl,tail⟩ := List.cons.inj all
      -- The visit lies in this directory or behind it.
      have split : (∃ rest', sub.visits (dirs ++ [name]) = pre ++ v :: rest' ∧
            rest = rest' ++ others.visits dirs) ∨
          ∃ pre', pre = sub.visits (dirs ++ [name]) ++ pre' ∧ others.visits dirs = pre' ++ v :: rest := by
        rcases List.append_eq_append_iff.mp tail with ⟨gap,same,later⟩ | ⟨gap,same,later⟩
        · exact .inr ⟨gap,same,later⟩
        · cases gap with
          | nil => exact .inr ⟨[],by simpa using same.symm,later.symm⟩
          | cons own gap =>
            obtain ⟨rfl,rfl⟩ := List.cons.inj later
            exact .inl ⟨gap,same,rfl⟩
      rcases split with ⟨rest',own,rfl⟩ | ⟨pre',rfl,own⟩
      · obtain ⟨inner,after,rfl,apart⟩ := ihSub proper.2.2.1 own
        have here := through (u := v) (by simp [own])
        refine ⟨inner,after ++ others.visits dirs,by simp,apart.inside,fun u mem inside => ?_,fun u mem => ?_⟩
        · rcases List.mem_cons.mp mem with rfl | early
          · obtain ⟨own',-,below⟩ := @visitThrough sub (dirs ++ [name]) v (by simp [own])
            exact longer (below.trans inside)
          · exact apart.before u early inside
        · rcases List.mem_append.mp mem with near | far
          · exact apart.after u near
          · exact fun inside => apartFrom proper.2.1 far (here.trans inside)
      · obtain ⟨inner,after,rfl,apart⟩ := ihRest proper.2.2.2 own
        obtain ⟨other,among,here⟩ := @visitThrough others dirs v (by simp [own])
        have away {place : List Wstr} (below : dirs ++ [name] <+: place) : ¬ v.place <+: place :=
          fun inside => proper.2.1 (oneEntry (here.trans inside) below ▸ among)
        refine ⟨inner,after,rfl,apart.inside,fun u mem => ?_,apart.after⟩
        rcases List.mem_cons.mp mem with rfl | inside
        · exact away List.prefix_rfl
        · rcases List.mem_append.mp inside with below | early
          · exact away (through below)
          · exact apart.before u early

theorem deepest (deep : dirs.length < front.length) (above : front <+: dirs ++ [name]) :
    front = dirs ++ [name] := by
  have short := above.length_le
  rw [List.length_append,List.length_singleton] at short
  exact above.eq_of_length (by rw [List.length_append,List.length_singleton]; omega)

theorem visitAbove (mem : u ∈ t.visits dirs) (deep : dirs.length < front.length)
    (above : front <+: u.place) (strict : front ≠ u.place) :
    ∃ a ∈ t.visits dirs, a.dir = true ∧ a.place = front := by
  induction t generalizing dirs with
  | nil => cases mem
  | file name info rest ih =>
    rcases List.mem_cons.mp mem with rfl | later
    · exact absurd (deepest deep above) strict
    · obtain ⟨a,visited,isDir,place⟩ := ih later deep
      exact ⟨a,List.mem_cons_of_mem _ visited,isDir,place⟩
  | dir name info sub rest ihSub ihRest =>
    rcases List.mem_cons.mp mem with rfl | inside
    · exact absurd (deepest deep above) strict
    · rcases List.mem_append.mp inside with below | later
      · obtain ⟨other,-,through⟩ := visitThrough below
        have here : dirs ++ [name] <+: u.place := (List.prefix_append _ _).trans through
        by_cases top : front.length = dirs.length+1
        · have same := (List.prefix_of_prefix_length_le above here (by simp [top])).eq_of_length (by simp [top])
          exact ⟨_,List.mem_cons_self,rfl,same.symm⟩
        · have further : (dirs ++ [name]).length < front.length := by
            rw [List.length_append,List.length_singleton]
            omega
          obtain ⟨a,visited,isDir,place⟩ := ihSub below further
          exact ⟨a,List.mem_cons_of_mem _ (List.mem_append_left _ visited),isDir,place⟩
      · obtain ⟨a,visited,isDir,place⟩ := ihRest later deep
        exact ⟨a,List.mem_cons_of_mem _ (List.mem_append_right _ visited),isDir,place⟩

end Tree
end LxRunOffline
