import LxRunOffline.Components
import LxRunOffline.DiskName
import LxRunOffline.EnumDirectory

/-! The base directories of a copy as Windows names them: a volume and the components below it.
Names are the same when their case-folded units are, so of two directories the one encloses the
other exactly when its folded components start those of the other. -/
namespace LxRunOffline

/- How a system folds the case of a unit, and the texts that stand before the first component
of a full path, none of which starts another. -/
structure Naming where
  fold : WChar → WChar
  volume : Wstr → Prop
  separator : ∀ c, fold c = fold backslash → c = backslash
  apart : ∀ v v', volume v → volume v' → v.map fold <+: v'.map fold → v.length = v'.length

structure ProperName (name : Wstr) : Prop where
  nonempty : name ≠ []
  notDot : name ≠ dotName
  notDotDot : name ≠ dotDotName
  plain : ∀ c ∈ name, PlainUnit c

theorem ProperName.clear {name : Wstr} (h : ProperName name) : backslash ∉ name := by
  intro mem
  have special : WslPath.isSpecialInput backslash = true := by decide
  rw [(h.plain _ mem).2.2] at special
  contradiction

structure BaseDir (n : Naming) where
  root : Wstr
  rootVolume : n.volume root
  names : List Wstr
  proper : ∀ name ∈ names, ProperName name

namespace BaseDir
variable {n : Naming}

def text (b : BaseDir n) : Wstr := b.root ++ joinDirs backslash b.names

end BaseDir
namespace Naming
variable (n : Naming)

def Inside (dir path : Wstr) : Prop := dir.map n.fold <+: path.map n.fold

variable {n}

theorem insideBoth {dir dir' path : Wstr} (below : dir' <+: path) (inside : n.Inside dir path) :
    n.Inside dir dir' ∨ n.Inside dir' dir := by
  obtain ⟨rel,rfl⟩ := below
  rw [Inside,List.map_append] at inside
  exact List.prefix_or_prefix_of_prefix inside (List.prefix_append _ _)

theorem foldedClear {name : Wstr} (clear : backslash ∉ name) :
    n.fold backslash ∉ name.map n.fold := by
  intro mem
  obtain ⟨c,here,same⟩ := List.mem_map.mp mem
  exact clear (n.separator c same ▸ here)

theorem insideDirs {names others : List Wstr} (clear : ∀ name ∈ names, backslash ∉ name)
    (clear' : ∀ name ∈ others, backslash ∉ name) :
    n.Inside (joinDirs backslash names) (joinDirs backslash others) ↔
      names.map (List.map n.fold) <+: others.map (List.map n.fold) := by
  have folded {dirs : List Wstr} (clear : ∀ dir ∈ dirs, backslash ∉ dir) :
      ∀ dir ∈ dirs.map (List.map n.fold), n.fold backslash ∉ dir := by
    intro dir mem
    obtain ⟨name,here,rfl⟩ := List.mem_map.mp mem
    exact foldedClear (clear name here)
  let whole : Parts (n.fold backslash) :=
    ⟨others.map (List.map n.fold),[],folded clear',by simp⟩
  have starts := whole.startsText (folded clear)
  rw [Parts.text,List.append_nil] at starts
  rw [Inside,joinDirsMap,joinDirsMap,starts]

theorem enclosed {S T : BaseDir n} (encloses : n.Inside T.text S.text) :
    ∃ rest, (∀ name ∈ rest, ProperName name) ∧
      n.Inside S.text (T.text ++ joinDirs backslash rest) := by
  simp only [Inside,BaseDir.text,List.map_append] at encloses ⊢
  have roots : T.root.map n.fold = S.root.map n.fold := by
    have starting := (List.prefix_append _ _).trans encloses
    have same : T.root.length = S.root.length := by
      rcases List.prefix_or_prefix_of_prefix starting (List.prefix_append _ _) with starts | starts
      · exact n.apart _ _ T.rootVolume S.rootVolume starts
      · exact (n.apart _ _ S.rootVolume T.rootVolume starts).symm
    exact List.prefix_of_prefix_length_le starting (List.prefix_append _ _) (by simp [same])
      |>.eq_of_length (by simp [same])
  rw [roots,List.prefix_append_right_inj] at encloses
  have starts := (insideDirs (fun name mem => (T.proper name mem).clear)
    fun name mem => (S.proper name mem).clear).mp encloses
  refine ⟨S.names.drop T.names.length,fun name mem => S.proper name (List.mem_of_mem_drop mem),?_⟩
  have first : T.names.map (List.map n.fold) = (S.names.take T.names.length).map (List.map n.fold) := by
    rw [List.map_take]
    simpa using List.prefix_iff_eq_take.mp starts
  have rejoined : (joinDirs backslash T.names).map n.fold ++
      (joinDirs backslash (S.names.drop T.names.length)).map n.fold =
        (joinDirs backslash S.names).map n.fold := by
    rw [joinDirsMap,joinDirsMap,joinDirsMap,first,← joinDirsAppend,← List.map_append,
      List.take_append_drop]
  exact ⟨[],by rw [List.append_nil,roots,List.append_assoc,rejoined]⟩

end Naming
end LxRunOffline
