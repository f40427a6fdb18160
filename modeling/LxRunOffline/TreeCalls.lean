import LxRunOffline.VisitTargets
import Mathlib.Data.List.Nodup

/-! The calls that a walk of a tree should make, each with the path of its entry, and what they
are: one for every file, two for every directory with those of its entries between them. -/
namespace LxRunOffline

abbrev Call := EnumDirType × Wstr

def surrounded (path : Wstr) (inner : List Call) : List Call :=
  (.enter,path) :: (inner ++ [(.exit,path)])

/- The calls in a directory: nothing but entries right below it, and those below them. -/
inductive Nested : Wstr → List Call → Prop where
  | nil {path : Wstr} : Nested path []
  | file {path name : Wstr} {rest : List Call} (clear : backslash ∉ name) (h : Nested path rest) :
      Nested path ((.file,path ++ name) :: rest)
  | dir {path name : Wstr} {inner rest : List Call} (clear : backslash ∉ name)
      (h : Nested (path ++ name ++ [backslash]) inner) (h' : Nested path rest) :
      Nested path (surrounded (path ++ name ++ [backslash]) inner ++ rest)

namespace Tree

def calls (path : Wstr) : Tree → List Call
  | nil => []
  | file name _ rest => (.file,path ++ name) :: rest.calls path
  | dir name _ sub rest => surrounded (path ++ name ++ [backslash])
      (sub.calls (path ++ name ++ [backslash])) ++ rest.calls path

theorem callsNested {t : Tree} (proper : t.Proper) (path : Wstr) : Nested path (t.calls path) := by
  induction t generalizing path with
  | nil => exact .nil
  | file name info rest ih => exact .file proper.1.clear (ih proper.2.2 path)
  | dir name info sub rest ihSub ih => exact .dir proper.1.clear (ihSub proper.2.2.1 _) (ih proper.2.2.2 path)

def Under (path name p : Wstr) : Prop := p = path ++ name ∨ path ++ name ++ [backslash] <+: p

theorem underOne {path name other p : Wstr} (clear : backslash ∉ name) (clear' : backslash ∉ other)
    (h : Under path name p) (h' : Under path other p) : name = other := by
  have inside {word text : Wstr} (clear : backslash ∉ text) :
      ¬ path ++ word ++ [backslash] <+: path ++ text := by
    intro starts
    rw [List.append_assoc,List.prefix_append_right_inj] at starts
    exact clear (starts.subset (by simp))
  rcases h with rfl | below <;> rcases h' with same | below'
  · exact List.append_cancel_left same
  · exact absurd below' (inside clear)
  · exact absurd (same ▸ below) (inside clear')
  · have either := List.prefix_or_prefix_of_prefix below below'
    simp only [List.append_assoc,List.prefix_append_right_inj] at either
    exact either.elim (fun starts => ((prefixAtSeparator clear clear').mp starts).1)
      fun starts => ((prefixAtSeparator clear' clear).mp starts).1.symm

theorem surroundedUnder {path name : Wstr} {inner : List Call} (h : ∀ call ∈ inner,
    ∃ other, Under (path ++ name ++ [backslash]) other call.2) {call : Call}
    (mem : call ∈ surrounded (path ++ name ++ [backslash]) inner) : path ++ name ++ [backslash] <+: call.2 := by
  rcases List.mem_cons.mp mem with rfl | mem
  · exact List.prefix_rfl
  · rcases List.mem_append.mp mem with inner' | last
    · obtain ⟨other,rfl' | below⟩ := h call inner'
      · exact rfl' ▸ List.prefix_append ..
      · exact ((List.prefix_append ..).trans (List.prefix_append ..)).trans below
    · cases List.mem_singleton.mp last
      exact List.prefix_rfl

theorem callsUnder {t : Tree} {path : Wstr} {call : Call} (mem : call ∈ t.calls path) :
    ∃ name ∈ t.names, Under path name call.2 := by
  induction t generalizing path call with
  | nil => cases mem
  | file name info rest ih =>
    rcases List.mem_cons.mp mem with rfl | mem
    · exact ⟨name,List.mem_cons_self,.inl rfl⟩
    · obtain ⟨other,listed,under⟩ := ih mem
      exact ⟨other,List.mem_cons_of_mem _ listed,under⟩
  | dir name info sub rest ihSub ih =>
    rcases List.mem_append.mp mem with mem | mem
    · have inside : ∀ call ∈ sub.calls (path ++ name ++ [backslash]), ∃ other,
          Under (path ++ name ++ [backslash]) other call.2 := fun call inner =>
        (ihSub inner).imp fun _ h => h.2
      exact ⟨name,List.mem_cons_self,.inr (surroundedUnder inside mem)⟩
    · obtain ⟨other,listed,under⟩ := ih mem
      exact ⟨other,List.mem_cons_of_mem _ listed,under⟩

theorem callsDeeper {t : Tree} {path : Wstr} {call : Call} (mem : call ∈ t.calls path)
    (dir : call.1 ≠ .file) : path.length < call.2.length := by
  induction t generalizing path with
  | nil => cases mem
  | file name info rest ih =>
    rcases List.mem_cons.mp mem with rfl | mem
    · exact absurd rfl dir
    · exact ih mem
  | dir name info sub rest ihSub ih =>
    have longer : path.length < (path ++ name ++ [backslash]).length := by
      simp only [List.length_append,List.length_singleton]
      omega
    rcases List.mem_append.mp mem with mem | mem
    · rcases List.mem_cons.mp mem with rfl | mem
      · exact longer
      · rcases List.mem_append.mp mem with mem | last
        · exact Nat.lt_trans longer (ihSub mem)
        · cases List.mem_singleton.mp last
          exact longer
    · exact ih mem

theorem surroundedNodup {path : Wstr} {inner : List Call} (nodup : inner.Nodup)
    (deeper : ∀ call ∈ inner, call.1 ≠ .file → path.length < call.2.length) :
    (surrounded path inner).Nodup := by
  have apart (kind : EnumDirType) (dir : kind ≠ .file) : (kind,path) ∉ inner := fun mem =>
    absurd (deeper _ mem dir) (Nat.lt_irrefl _)
  rw [surrounded,List.nodup_cons,List.nodup_append]
  refine ⟨fun mem => ?_,nodup,by simp,fun call mem last is same => ?_⟩
  · rcases List.mem_append.mp mem with mem | last
    · exact apart .enter (by decide) mem
    · cases List.mem_singleton.mp last
  · cases List.mem_singleton.mp is
    exact apart .exit (by decide) (same ▸ mem)

theorem properClear {t : Tree} (proper : t.Proper) {name : Wstr} (mem : name ∈ t.names) :
    backslash ∉ name := by
  induction t with
  | nil => cases mem
  | file own info rest ih =>
    rcases List.mem_cons.mp mem with rfl | mem
    · exact proper.1.clear
    · exact ih proper.2.2 mem
  | dir own info sub rest _ ih =>
    rcases List.mem_cons.mp mem with rfl | mem
    · exact proper.1.clear
    · exact ih proper.2.2.2 mem

theorem callsApart {t : Tree} (proper : t.Proper) {path name : Wstr} (clear : backslash ∉ name)
    (fresh : name ∉ t.names) {call : Call} (under : Under path name call.2) : call ∉ t.calls path := by
  intro mem
  obtain ⟨other,listed,under'⟩ := callsUnder mem
  exact fresh (underOne clear (properClear proper listed) under under' ▸ listed)

theorem callsNodup {t : Tree} (proper : t.Proper) (path : Wstr) : (t.calls path).Nodup := by
  induction t generalizing path with
  | nil => exact List.nodup_nil
  | file name info rest ih =>
    obtain ⟨listable,fresh,later⟩ := proper
    exact List.nodup_cons.mpr ⟨callsApart later listable.clear fresh (.inl rfl),ih later path⟩
  | dir name info sub rest ihSub ih =>
    obtain ⟨listable,fresh,below,later⟩ := proper
    refine List.nodup_append.mpr ⟨?_,ih later path,fun call mem call' mem' same => ?_⟩
    · exact surroundedNodup (ihSub below _) fun call mem => callsDeeper mem
    · have under := surroundedUnder (fun call inner => (callsUnder inner).imp fun _ h => h.2) mem
      exact callsApart later listable.clear fresh (.inr under) (same ▸ mem')

theorem findDirListed {t : Tree} {name : Wstr} {found : NodeInfo × Tree}
    (h : t.findDir name = some found) : name ∈ t.names := by
  induction t with
  | nil => cases h
  | file own info rest ih => exact List.mem_cons_of_mem _ (ih h)
  | dir own info sub rest _ ih =>
    rw [findDir] at h
    split at h
    · rename_i same
      exact same ▸ List.mem_cons_self
    · exact List.mem_cons_of_mem _ (ih h)

def fileAt (t : Tree) (dirs : List Wstr) (name : Wstr) : Option NodeInfo :=
  (t.descend dirs).bind fun sub => sub.findFile name

section Lookups
variable {own n name : Wstr} {info : NodeInfo} {sub rest : Tree} {dirs : List Wstr}

theorem fileAtDir : (dir own info sub rest).fileAt (n :: dirs) name =
    if own = n then sub.fileAt dirs name else rest.fileAt (n :: dirs) name := by
  by_cases same : own = n <;> simp [fileAt,descend,findDir,same]

theorem descendDir : (dir own info sub rest).descend (n :: dirs) =
    if own = n then sub.descend dirs else rest.descend (n :: dirs) := by
  by_cases same : own = n <;> simp [descend,findDir,same]

theorem descendListed {t : Tree} (h : (t.descend (n :: dirs)).isSome) : n ∈ t.names := by
  rw [descend,Option.isSome_bind] at h
  cases found : t.findDir n with
  | none => simp [found] at h
  | some d => exact findDirListed found

theorem fileAtListed {t : Tree} (h : (t.fileAt (n :: dirs) name).isSome) : n ∈ t.names := by
  refine @descendListed n dirs t ?_
  rw [fileAt] at h
  cases found : t.descend (n :: dirs) with
  | none => simp [found] at h
  | some d => rfl

end Lookups

theorem fileCalled {t : Tree} (proper : t.Proper) {path p : Wstr} : (EnumDirType.file,p) ∈ t.calls path ↔
    ∃ dirs name, (t.fileAt dirs name).isSome ∧ p = path ++ joinDirs backslash dirs ++ name := by
  induction t generalizing path with
  | nil =>
    refine iff_of_false List.not_mem_nil fun h => ?_
    obtain ⟨dirs,name,there,-⟩ := h
    cases dirs <;> cases there
  | file own info rest ih =>
    rw [calls,List.mem_cons,ih proper.2.2]
    constructor
    · rintro (same | ⟨dirs,name,there,rfl⟩)
      · cases same
        exact ⟨[],own,by simp [fileAt,descend,findFile],by simp⟩
      · refine ⟨dirs,name,?_,rfl⟩
        cases dirs with
        | nil =>
          by_cases same : own = name
          · simp [fileAt,descend,findFile,same]
          · simpa [fileAt,descend,findFile,same] using there
        | cons n dirs => exact there
    · rintro ⟨dirs,name,there,rfl⟩
      cases dirs with
      | nil =>
        by_cases same : own = name
        · exact .inl (by simp [same])
        · exact .inr ⟨[],name,by simpa [fileAt,descend,findFile,same] using there,rfl⟩
      | cons n dirs => exact .inr ⟨n :: dirs,name,there,rfl⟩
  | dir own info sub rest ihSub ih =>
    obtain ⟨-,fresh,below,later⟩ := proper
    have around : (EnumDirType.file,p) ∈ surrounded (path ++ own ++ [backslash])
        (sub.calls (path ++ own ++ [backslash])) ↔
        (EnumDirType.file,p) ∈ sub.calls (path ++ own ++ [backslash]) := by simp [surrounded]
    rw [calls,List.mem_append,around,ihSub below,ih later]
    constructor
    · rintro (⟨dirs,name,there,rfl⟩ | ⟨dirs,name,there,rfl⟩)
      · exact ⟨own :: dirs,name,by rwa [fileAtDir,if_pos rfl],by simp⟩
      · refine ⟨dirs,name,?_,rfl⟩
        cases dirs with
        | nil => exact there
        | cons n dirs =>
          have other : own ≠ n := fun same => fresh (same ▸ fileAtListed there)
          rwa [fileAtDir,if_neg other]
    · rintro ⟨dirs,name,there,rfl⟩
      cases dirs with
      | nil => exact .inr ⟨[],name,there,rfl⟩
      | cons n dirs =>
        rw [fileAtDir] at there
        by_cases same : own = n
        · rw [if_pos same] at there
          exact .inl ⟨dirs,name,there,by simp [same]⟩
        · rw [if_neg same] at there
          exact .inr ⟨n :: dirs,name,there,rfl⟩

theorem dirCalled {t : Tree} (proper : t.Proper) {kind : EnumDirType} (dir : kind ≠ .file)
    {path p : Wstr} : (kind,p) ∈ t.calls path ↔
      ∃ n dirs, (t.descend (n :: dirs)).isSome ∧ p = path ++ joinDirs backslash (n :: dirs) := by
  induction t generalizing path with
  | nil =>
    refine iff_of_false List.not_mem_nil fun h => ?_
    obtain ⟨n,dirs,there,-⟩ := h
    cases there
  | file own info rest ih =>
    have other : (kind,p) ≠ (.file,path ++ own) := fun same => dir (congrArg Prod.fst same)
    rw [calls,List.mem_cons,or_iff_right other,ih proper.2.2]
    rfl
  | dir own info sub rest ihSub ih =>
    obtain ⟨-,fresh,below,later⟩ := proper
    have around : (kind,p) ∈ surrounded (path ++ own ++ [backslash])
        (sub.calls (path ++ own ++ [backslash])) ↔
        p = path ++ own ++ [backslash] ∨ (kind,p) ∈ sub.calls (path ++ own ++ [backslash]) := by
      cases kind with
      | file => exact absurd rfl dir
      | enter => simp [surrounded]
      | exit => simp [surrounded,or_comm]
    rw [calls,List.mem_append,around,ihSub below,ih later]
    constructor
    · rintro ((rfl | ⟨n,dirs,there,rfl⟩) | ⟨n,dirs,there,rfl⟩)
      · exact ⟨own,[],by simp [descend,findDir],by simp⟩
      · exact ⟨own,n :: dirs,by rwa [descendDir,if_pos rfl],by simp⟩
      · have other : own ≠ n := fun same => fresh (same ▸ descendListed there)
        exact ⟨n,dirs,by rwa [descendDir,if_neg other],rfl⟩
    · rintro ⟨n,dirs,there,rfl⟩
      rw [descendDir] at there
      by_cases same : own = n
      · rw [if_pos same] at there
        refine .inl ?_
        cases dirs with
        | nil => exact .inl (by simp [same])
        | cons m dirs => exact .inr ⟨m,dirs,there,by simp [same]⟩
      · rw [if_neg same] at there
        exact .inr ⟨n,dirs,there,rfl⟩

structure Alike (t u : Tree) : Prop where
  dirs : ∀ name, t.findDir name = u.findDir name
  files : ∀ name, t.findFile name = u.findFile name

namespace Alike
variable {t u : Tree} (h : Alike t u)
include h

theorem descends (n : Wstr) (dirs : List Wstr) : t.descend (n :: dirs) = u.descend (n :: dirs) := by
  rw [descend,descend,h.dirs]

theorem fileAt (dirs : List Wstr) (name : Wstr) : t.fileAt dirs name = u.fileAt dirs name := by
  cases dirs with
  | nil => exact h.files name
  | cons n dirs => rw [Tree.fileAt,h.descends,Tree.fileAt]

end Alike

def inFront (first : Bool) (t : Tree) : Tree :=
  if first then (t.findDir rootfsName).elim t fun found => dir rootfsName found.1 found.2 t.apart
  else t

theorem apartProper {t : Tree} (proper : t.Proper) : t.apart.Proper := by
  induction t with
  | nil => trivial
  | file own info rest ih =>
    rw [apart]
    split
    · exact ih proper.2.2
    · exact ⟨proper.1,fun mem => proper.2.1 (apartNames mem),ih proper.2.2⟩
  | dir own info sub rest _ ih =>
    rw [apart]
    split
    · exact ih proper.2.2.2
    · exact ⟨proper.1,fun mem => proper.2.1 (apartNames mem),proper.2.2.1,ih proper.2.2.2⟩

theorem apartFinds (t : Tree) {name : Wstr} (other : name ≠ rootfsName) :
    t.apart.findDir name = t.findDir name ∧ t.apart.findFile name = t.findFile name := by
  induction t with
  | nil => exact ⟨rfl,rfl⟩
  | file own info rest ih =>
    rw [apart]
    split
    · rename_i root
      exact ⟨ih.1,by rw [findFile,if_neg (root ▸ Ne.symm other),ih.2]⟩
    · exact ⟨ih.1,by rw [findFile,findFile,ih.2]⟩
  | dir own info sub rest _ ih =>
    rw [apart]
    split
    · rename_i root
      exact ⟨by rw [findDir,if_neg (root ▸ Ne.symm other),ih.1],ih.2⟩
    · exact ⟨by rw [findDir,findDir,ih.1],ih.2⟩

theorem findFileListed {t : Tree} {name : Wstr} (h : (t.findFile name).isSome) : name ∈ t.names := by
  induction t with
  | nil => cases h
  | file own info rest ih =>
    rw [findFile] at h
    split at h
    · rename_i same
      exact same ▸ List.mem_cons_self
    · exact List.mem_cons_of_mem _ (ih h)
  | dir own info sub rest _ ih => exact List.mem_cons_of_mem _ (ih h)

theorem dirNoFile {t : Tree} (proper : t.Proper) {name : Wstr} (dir : (t.findDir name).isSome) :
    t.findFile name = none := by
  induction t with
  | nil => rfl
  | file own info rest ih =>
    obtain ⟨found,is⟩ := Option.isSome_iff_exists.mp dir
    have listed : name ∈ rest.names := findDirListed is
    have other : own ≠ name := fun same => proper.2.1 (same ▸ listed)
    rw [findFile,if_neg other]
    exact ih proper.2.2 dir
  | dir own info sub rest _ ih =>
    rw [findDir] at dir
    split at dir
    · rename_i same
      refine Option.not_isSome_iff_eq_none.mp fun file => proper.2.1 ?_
      exact same ▸ findFileListed file
    · exact ih proper.2.2.2 dir

theorem inFrontAlike {t : Tree} (proper : t.Proper) (first : Bool) : Alike (t.inFront first) t := by
  cases first with
  | false => exact ⟨fun _ => rfl,fun _ => rfl⟩
  | true =>
    cases root : t.findDir rootfsName with
    | none =>
      have same : t.inFront true = t := by simp [inFront,root]
      rw [same]
      exact ⟨fun _ => rfl,fun _ => rfl⟩
    | some found =>
      have same : t.inFront true = dir rootfsName found.1 found.2 t.apart := by simp [inFront,root]
      rw [same]
      refine ⟨fun name => ?_,fun name => ?_⟩
      · by_cases own : rootfsName = name
        · rw [findDir,if_pos own,← own,root]
        · rw [findDir,if_neg own,(apartFinds t (Ne.symm own)).1]
      · by_cases own : rootfsName = name
        · have noFile : t.apart.findFile rootfsName = none :=
            Option.not_isSome_iff_eq_none.mp fun file => rootfsApart (findFileListed file)
          rw [findFile,← own,noFile,dirNoFile proper (by simp [root])]
        · rw [findFile,(apartFinds t (Ne.symm own)).2]

theorem inFrontProper {t : Tree} (proper : t.Proper) (first : Bool) : (t.inFront first).Proper := by
  cases first with
  | false => exact proper
  | true =>
    cases root : t.findDir rootfsName with
    | none => simpa [inFront,root] using proper
    | some found =>
      have same : t.inFront true = dir rootfsName found.1 found.2 t.apart := by simp [inFront,root]
      rw [same]
      exact ⟨⟨by decide,by decide,by decide⟩,rootfsApart,(findDirProper proper root).1,apartProper proper⟩

end Tree

/- What the calls of a walk should be: one with `file` for every file and two for every directory,
all at the paths of their entries and properly nested, and nothing else. The directory `rootfs` of
the base comes in front of all other entries, when it is asked for. -/
structure Exact (base : Wstr) (t : Tree) (rootfsFirst : Bool) (calls : List Call) : Prop where
  files : ∀ dirs name, (t.fileAt dirs name).isSome →
    calls.count (.file,base ++ joinDirs backslash dirs ++ name) = 1
  dirs : ∀ dirs, (t.descend dirs).isSome →
    calls.count (.enter,base ++ joinDirs backslash dirs) = 1 ∧
      calls.count (.exit,base ++ joinDirs backslash dirs) = 1
  onlyFiles : ∀ p, (.file,p) ∈ calls →
    ∃ dirs name, (t.fileAt dirs name).isSome ∧ p = base ++ joinDirs backslash dirs ++ name
  onlyDirs : ∀ kind p, kind ≠ .file → (kind,p) ∈ calls →
    ∃ dirs, (t.descend dirs).isSome ∧ p = base ++ joinDirs backslash dirs
  nested : ∃ inner, Nested base inner ∧ calls = surrounded base inner
  rootfs : rootfsFirst = true → ∃ inside rest, calls = (.enter,base) :: (inside ++ rest) ∧
    (∀ call ∈ inside, base ++ wstr "rootfs\\" <+: call.2) ∧
    ∀ call ∈ rest, ¬ base ++ wstr "rootfs\\" <+: call.2

namespace Tree

theorem surroundedMem {path p : Wstr} {inner : List Call} {kind : EnumDirType} (dir : kind ≠ .file) :
    (kind,p) ∈ surrounded path inner ↔ p = path ∨ (kind,p) ∈ inner := by
  cases kind with
  | file => exact absurd rfl dir
  | enter => simp [surrounded]
  | exit => simp [surrounded,or_comm]

theorem exactCalls {t : Tree} (proper : t.Proper) (base : Wstr) {first : Bool}
    (rooted : first = true → (t.findDir rootfsName).isSome) :
    Exact base t first (surrounded base ((t.inFront first).calls base)) := by
  have alike := inFrontAlike proper first
  have proper' := inFrontProper proper first
  have nodup : (surrounded base ((t.inFront first).calls base)).Nodup :=
    surroundedNodup (callsNodup proper' base) fun call mem => callsDeeper mem
  have fileMem (p : Wstr) : (EnumDirType.file,p) ∈ surrounded base ((t.inFront first).calls base) ↔
      ∃ dirs name, (t.fileAt dirs name).isSome ∧ p = base ++ joinDirs backslash dirs ++ name := by
    have around : (EnumDirType.file,p) ∈ surrounded base ((t.inFront first).calls base) ↔
        (EnumDirType.file,p) ∈ (t.inFront first).calls base := by simp [surrounded]
    simp only [around,fileCalled proper',alike.fileAt]
  have dirMem {kind : EnumDirType} (dir : kind ≠ .file) (p : Wstr) :
      (kind,p) ∈ surrounded base ((t.inFront first).calls base) ↔
        ∃ dirs, (t.descend dirs).isSome ∧ p = base ++ joinDirs backslash dirs := by
    rw [surroundedMem dir,dirCalled proper' dir]
    simp only [alike.descends]
    constructor
    · rintro (rfl | ⟨n,dirs,there,same⟩)
      · exact ⟨[],rfl,by simp⟩
      · exact ⟨n :: dirs,there,same⟩
    · rintro ⟨dirs,there,same⟩
      cases dirs with
      | nil => exact .inl (by simpa using same)
      | cons n dirs => exact .inr ⟨n,dirs,there,same⟩
  refine ⟨fun dirs name there => ?_,fun dirs there => ⟨?_,?_⟩,fun p mem => (fileMem p).mp mem,
    fun kind p dir mem => (dirMem dir p).mp mem,⟨_,callsNested proper' base,rfl⟩,fun is => ?_⟩
  · exact List.count_eq_one_of_mem nodup ((fileMem _).mpr ⟨dirs,name,there,rfl⟩)
  · exact List.count_eq_one_of_mem nodup ((dirMem (by decide) _).mpr ⟨dirs,there,rfl⟩)
  · exact List.count_eq_one_of_mem nodup ((dirMem (by decide) _).mpr ⟨dirs,there,rfl⟩)
  · subst is
    obtain ⟨found,root⟩ := Option.isSome_iff_exists.mp (rooted rfl)
    have same : t.inFront true = dir rootfsName found.1 found.2 t.apart := by simp [inFront,root]
    have text : base ++ wstr "rootfs\\" = base ++ rootfsName ++ [backslash] := by
      rw [List.append_assoc]
      rfl
    have clear : backslash ∉ rootfsName := by decide
    rw [same,text]
    refine ⟨surrounded (base ++ rootfsName ++ [backslash]) (found.2.calls (base ++ rootfsName ++ [backslash])),
      t.apart.calls base ++ [(.exit,base)],by simp [calls,surrounded],fun call mem => ?_,fun call mem below => ?_⟩
    · exact surroundedUnder (fun call inner => (callsUnder inner).imp fun _ h => h.2) mem
    · rcases List.mem_append.mp mem with mem | last
      · exact callsApart (apartProper proper) clear rootfsApart (.inr below) mem
      · cases List.mem_singleton.mp last
        have longer := below.length_le
        simp only [List.length_append,List.length_singleton] at longer
        omega

end Tree
end LxRunOffline
