import LxRunOffline.Components
import LxRunOffline.PathStream

/-! The constructor of `linux_path` resolves a name against a stack of directories. Only a
component with a slash behind it is looked at; the last one is taken over as it is, so a name
that ends in a bare dot or in two of them keeps it, and every written path inherits it. -/
namespace LxRunOffline

def dot : Wstr := wstr "."
def dotDot : Wstr := wstr ".."

namespace LinuxPath

def enter (dirs : List Wstr) (comp : Wstr) : List Wstr :=
  if comp = [] ∨ comp = dot then dirs else if comp = dotDot then dirs.dropLast else dirs ++ [comp]

def resolve (p : Parts slash) : Wstr := joinDirs slash (p.dirs.foldl enter []) ++ p.last

def Proper (comp : Wstr) : Prop := comp ≠ [] ∧ comp ≠ dot ∧ comp ≠ dotDot ∧ slash ∉ comp

instance (comp) : Decidable (Proper comp) := by unfold Proper; infer_instance

theorem enterProper {dirs : List Wstr} (all : ∀ dir ∈ dirs, Proper dir) {comp : Wstr}
    (clear : slash ∉ comp) : ∀ dir ∈ enter dirs comp, Proper dir := by
  intro dir mem
  unfold enter at mem
  split at mem
  · exact all dir mem
  · rename_i kept
    split at mem
    · exact all dir (List.dropLast_subset dirs mem)
    · rename_i named
      rcases List.mem_append.mp mem with old | new
      · exact all dir old
      · cases List.mem_singleton.mp new
        exact ⟨fun h => kept (.inl h),fun h => kept (.inr h),named,clear⟩

theorem foldProper {dirs comps : List Wstr} (all : ∀ dir ∈ dirs, Proper dir)
    (clear : ∀ comp ∈ comps, slash ∉ comp) : ∀ dir ∈ comps.foldl enter dirs, Proper dir := by
  induction comps generalizing dirs with
  | nil => exact all
  | cons comp comps ih =>
    exact ih (enterProper all (clear comp (by simp))) fun c hc => clear c (by simp [hc])

theorem foldSame {dirs comps : List Wstr} (all : ∀ comp ∈ comps, Proper comp) :
    comps.foldl enter dirs = dirs ++ comps := by
  induction comps generalizing dirs with
  | nil => simp
  | cons comp comps ih =>
    obtain ⟨nonempty,noDot,noDots,_⟩ := all comp (by simp)
    rw [List.foldl_cons,ih fun c hc => all c (by simp [hc])]
    simp [enter,nonempty,noDot,noDots]

theorem rfindAbsent {data : Wstr} {pos : Nat} (clear : slash ∉ data.take (pos+1)) :
    rfind data slash pos = none := by
  simp [rfind,List.idxOf?_eq_none_iff,clear]

theorem firstSlash {before behind : Wstr} (clear : slash ∉ before) :
    (before ++ slash :: behind).idxOf? slash = some before.length := by
  induction before with
  | nil => simp [List.idxOf?_cons]
  | cons c before ih =>
    have other : c ≠ slash := fun h => clear (by simp [h])
    have tail := ih fun h => clear (by simp [h])
    simp [List.idxOf?_cons,other,tail]

theorem rfindLast {data before behind : Wstr} {pos : Nat} (clear : slash ∉ behind)
    (whole : data.take (pos+1) = before ++ slash :: behind) :
    rfind data slash pos = some before.length := by
  have found : (before ++ slash :: behind).reverse.idxOf? slash = some behind.reverse.length := by
    have backwards : (before ++ slash :: behind).reverse =
        behind.reverse ++ slash :: before.reverse := by simp
    rw [backwards,firstSlash (by simpa using clear)]
  simp only [rfind,whole,found,Option.map_some,List.length_append,List.length_cons,
    List.length_reverse]
  congr 1
  omega

theorem parentDirs {dirs : List Wstr} (all : ∀ dir ∈ dirs, dir ≠ [] ∧ slash ∉ dir) :
    parent (joinDirs slash dirs) = joinDirs slash dirs.dropLast := by
  rcases List.eq_nil_or_concat dirs with rfl | ⟨before,dir,rfl⟩
  · rfl
  · rw [List.concat_eq_append] at all ⊢
    obtain ⟨nonempty,clear⟩ := all dir (by simp)
    have size : 0 < dir.length := List.length_pos_iff.mpr nonempty
    rw [joinDirsSnoc,List.dropLast_concat,parent,if_neg (by simp)]
    have cut : (joinDirs slash before ++ dir ++ [slash]).take
        (sizeSub (joinDirs slash before ++ dir ++ [slash]).length 2+1) =
          joinDirs slash before ++ dir := by
      have enough : sizeSub (joinDirs slash before ++ dir ++ [slash]).length 2+1 =
          (joinDirs slash before ++ dir).length := by
        simp only [sizeSub,List.length_append,List.length_singleton]
        split <;> omega
      rw [enough,List.take_left]
    rcases List.eq_nil_or_concat before with rfl | ⟨before,outer,rfl⟩
    · rw [rfindAbsent (by rw [cut]; simpa using clear)]
      rfl
    · rw [List.concat_eq_append,joinDirsSnoc] at cut ⊢
      have whole := cut.trans (List.append_assoc (joinDirs slash before ++ outer) [slash] dir)
      have enough : (joinDirs slash before ++ outer).length+1 =
          (joinDirs slash before ++ outer ++ [slash]).length := by simp; omega
      simp only [rfindLast clear whole,enough]
      rw [List.append_assoc _ dir,List.take_left]

theorem scanPlain {comp : Wstr} (clear : slash ∉ comp) (data rest : Wstr) :
    scan 0 false data (comp ++ slash :: rest) = scan 0 true (data ++ comp ++ [slash]) rest := by
  induction comp generalizing data with
  | nil => simp [scan]
  | cons c comp ih =>
    have other : (c == slash) = false := beq_eq_false_iff_ne.mpr fun h => clear (by simp [h])
    have tail := ih (fun h => clear (by simp [h])) (data ++ [c])
    simp only [List.cons_append,scan,Bool.false_and,Bool.false_eq_true,if_false,other,tail]
    simp

theorem scanLast {last : Wstr} (clear : slash ∉ last) (data : Wstr) :
    scan 0 false data last = data ++ last := by
  induction last generalizing data with
  | nil => simp [scan]
  | cons c last ih =>
    have other : (c == slash) = false := beq_eq_false_iff_ne.mpr fun h => clear (by simp [h])
    have tail := ih (fun h => clear (by simp [h])) (data ++ [c])
    simp [scan,other,tail]

theorem scanStart {text : Wstr} (data : Wstr) (separator : text.head? ≠ some slash)
    (current : text.take 2 ≠ wstr "./") (up : text.take 3 ≠ wstr "../") :
    scan 0 true data text = scan 0 false data text := by
  cases text with
  | nil => rfl
  | cons c text =>
    have other : (c == slash) = false := by simpa using separator
    simp only [scan,Bool.true_and,Bool.false_and,Bool.false_eq_true,if_false,other,
      beq_eq_false_iff_ne.mpr current,beq_eq_false_iff_ne.mpr up]

theorem scanEnter {dirs : List Wstr} (all : ∀ dir ∈ dirs, Proper dir) {comp : Wstr}
    (clear : slash ∉ comp) (rest : Wstr) :
    scan 0 true (joinDirs slash dirs) (comp ++ slash :: rest) =
      scan 0 true (joinDirs slash (enter dirs comp)) rest := by
  by_cases empty : comp = []
  · simp [empty,enter,scan]
  by_cases current : comp = dot
  · subst current; rfl
  by_cases up : comp = dotDot
  · subst up
    have back : enter dirs dotDot = dirs.dropLast := rfl
    have kept : ∀ dir ∈ dirs, dir ≠ [] ∧ slash ∉ dir := fun dir mem =>
      ⟨(all dir mem).1,(all dir mem).2.2.2⟩
    rw [back,← parentDirs kept]
    rfl
  have entered : enter dirs comp = dirs ++ [comp] := by simp [enter,empty,current,up]
  rw [entered,joinDirsSnoc,← scanPlain clear]
  rcases comp with _ | ⟨c,_ | ⟨d,_ | ⟨e,comp⟩⟩⟩
  · contradiction
  all_goals
    simp only [dot,dotDot,wstr,slash,List.mem_cons,not_or] at clear current up
    refine scanStart _ ?_ ?_ ?_ <;> simp [wstr,slash] at * <;> grind

theorem scanFinal {last : Wstr} (clear : slash ∉ last) (data : Wstr) :
    scan 0 true data last = data ++ last := by
  rw [scanStart,scanLast clear]
  · exact fun h => clear (List.mem_of_mem_head? h)
  · exact fun h => clear (List.mem_of_mem_take (h ▸ by decide : slash ∈ last.take 2))
  · exact fun h => clear (List.mem_of_mem_take (h ▸ by decide : slash ∈ last.take 3))

theorem scanDirs {dirs comps : List Wstr} {last : Wstr} (all : ∀ dir ∈ dirs, Proper dir)
    (clear : ∀ comp ∈ comps, slash ∉ comp) (lastClear : slash ∉ last) :
    scan 0 true (joinDirs slash dirs) (joinDirs slash comps ++ last) =
      joinDirs slash (comps.foldl enter dirs) ++ last := by
  induction comps generalizing dirs with
  | nil => exact scanFinal lastClear _
  | cons comp comps ih =>
    have here := clear comp (by simp)
    rw [joinDirsCons,List.append_assoc,List.cons_append,scanEnter all here]
    exact ih (enterProper all here) fun c hc => clear c (by simp [hc])

theorem scanResolves (p : Parts slash) : scan 0 true [] p.text = resolve p := by
  have empty : ∀ dir ∈ ([] : List Wstr), Proper dir := by simp
  exact scanDirs empty p.dirsClear p.lastClear

def named (data : Wstr) : LinuxPath := {new with data := data, skip := data.isEmpty}

theorem ofNameResolves {path rootPath : Wstr} (p : Parts slash)
    (stripped : stripRoot path rootPath = some p.text) :
    ofName path rootPath = named (resolve p) := by
  simp only [ofName,stripped,scanResolves,named]

theorem namedStreams {data : Wstr} (some' : data ≠ []) :
    FilePath.Streams (.linux (named data)) (wstr "rootfs/" ++ data ++ [0]) :=
  FilePath.linuxStreams (by simpa [named] using some')

theorem ofNameSkip (path rootPath : Wstr) :
    (ofName path rootPath).skip = (ofName path rootPath).data.isEmpty := by
  unfold ofName
  split <;> rfl

theorem ofNameSkips {path rootPath : Wstr} (outside : stripRoot path rootPath = none) :
    ofName path rootPath = {new with skip := true} := by
  simp only [ofName,outside]

end LinuxPath
end LxRunOffline
