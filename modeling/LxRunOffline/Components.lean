/-! Texts cut into components by a separator, over any alphabet. Every text is a row of
directories, each with its separator behind it, and a last component that may be empty. -/
namespace LxRunOffline

def joinDirs {α : Type} (sep : α) (dirs : List (List α)) : List α := dirs.flatMap (· ++ [sep])

section Joining
variable {α : Type} {sep : α} {dirs more : List (List α)}

@[simp] theorem joinDirsNil : joinDirs sep [] = [] := rfl
@[simp] theorem joinDirsCons (dir : List α) : joinDirs sep (dir :: dirs) =
    dir ++ sep :: joinDirs sep dirs := by simp [joinDirs]
@[simp] theorem joinDirsAppend : joinDirs sep (dirs ++ more) =
    joinDirs sep dirs ++ joinDirs sep more := by simp [joinDirs]

theorem joinDirsSnoc (dir : List α) : joinDirs sep (dirs ++ [dir]) =
    joinDirs sep dirs ++ dir ++ [sep] := by simp

theorem memJoinDirs {dir : List α} (mem : dir ∈ dirs) {c : α} (inside : c ∈ dir) :
    c ∈ joinDirs sep dirs :=
  List.mem_flatMap.mpr ⟨dir,mem,List.mem_append_left _ inside⟩

theorem joinDirsMap {β : Type} (f : α → β) (dirs : List (List α)) :
    (joinDirs sep dirs).map f = joinDirs (f sep) (dirs.map (List.map f)) := by
  induction dirs with
  | nil => rfl
  | cons dir dirs ih => simp [ih]

theorem prefixAtSeparator {word other rest rest' : List α} (clear : sep ∉ word)
    (clear' : sep ∉ other) :
    word ++ sep :: rest <+: other ++ sep :: rest' ↔ word = other ∧ rest <+: rest' := by
  induction word generalizing other with
  | nil =>
    cases other with
    | nil => simp
    | cons d other =>
      have here : sep ≠ d := fun same => clear' (by simp [same])
      simp [here]
  | cons c word ih =>
    have here : c ≠ sep := fun same => clear (by simp [same])
    cases other with
    | nil => simp [here]
    | cons d other =>
      have tail := @ih other (fun mem => clear (by simp [mem])) (fun mem => clear' (by simp [mem]))
      simp [tail,and_assoc]

end Joining

structure Parts {α : Type} (sep : α) where
  dirs : List (List α)
  last : List α
  dirsClear : ∀ dir ∈ dirs, sep ∉ dir
  lastClear : sep ∉ last

namespace Parts
variable {α : Type} {sep : α}

def text (p : Parts sep) : List α := joinDirs sep p.dirs ++ p.last

theorem everyText [DecidableEq α] (sep : α) (t : List α) : ∃ p : Parts sep, p.text = t := by
  induction t with
  | nil => exact ⟨⟨[],[],by simp,by simp⟩,rfl⟩
  | cons c t ih =>
    obtain ⟨⟨dirs,last,dirsClear,lastClear⟩,rfl⟩ := ih
    by_cases here : c = sep
    · subst here
      exact ⟨⟨[] :: dirs,last,by simpa using dirsClear,lastClear⟩,by simp [text]⟩
    · cases dirs with
      | nil => exact ⟨⟨[],c :: last,by simp,by simp [Ne.symm here,lastClear]⟩,rfl⟩
      | cons dir dirs =>
        refine ⟨⟨(c :: dir) :: dirs,last,?_,lastClear⟩,by simp [text]⟩
        intro d hd
        rcases List.mem_cons.mp hd with rfl | hd
        · simp [Ne.symm here,dirsClear dir (by simp)]
        · exact dirsClear d (by simp [hd])

theorem splitText [DecidableEq α] (p : Parts sep) : p.text.splitOn sep = p.dirs ++ [p.last] := by
  obtain ⟨dirs,last,dirsClear,lastClear⟩ := p
  induction dirs with
  | nil => exact List.splitOn_eq_singleton lastClear
  | cons dir dirs ih =>
    have clear := dirsClear dir (by simp)
    have tail := ih fun d hd => dirsClear d (by simp [hd])
    simp only [text,joinDirsCons,List.append_assoc,List.cons_append] at tail ⊢
    rw [List.splitOn_append_cons_self_of_not_mem clear,tail]

theorem startsText {dirs : List (List α)} (clear : ∀ dir ∈ dirs, sep ∉ dir) (p : Parts sep) :
    joinDirs sep dirs <+: p.text ↔ dirs <+: p.dirs := by
  obtain ⟨own,last,ownClear,lastClear⟩ := p
  simp only [text]
  induction dirs generalizing own with
  | nil => simp
  | cons dir dirs ih =>
    have later : ∀ d ∈ dirs, sep ∉ d := fun d mem => clear d (by simp [mem])
    cases own with
    | nil =>
      have off : ¬ dir ++ sep :: joinDirs sep dirs <+: last := fun starts =>
        lastClear (starts.subset (by simp))
      simpa using off
    | cons first own =>
      have tail := ih later own fun d mem => ownClear d (by simp [mem])
      rw [joinDirsCons,joinDirsCons,List.append_assoc,List.cons_append,
        prefixAtSeparator (clear dir (by simp)) (ownClear first (by simp)),tail,
        List.cons_prefix_cons]

end Parts
end LxRunOffline
