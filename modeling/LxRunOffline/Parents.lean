import LxRunOffline.FileGroups
import LxRunOffline.ParentTargets
import LxRunOffline.ReadMode
import LxRunOffline.WalkVisits

/-! The directories of a copy come before what lies in them. The walk enters a directory before
its entries, and the legacy reader enters `rootfs` before everything else. -/
namespace LxRunOffline

def Sheltered (base : Wstr) (log : List FsEvent) (path : Wstr) : Prop :=
  parentOf path = base ∨ .accepted (parentOf path) ∈ log

/- Whatever is made had its directory before. -/
def ParentsFirst (base : Wstr) (log : List FsEvent) : Prop :=
  ∀ before e after p, log = before ++ e :: after → e.Reports p → Sheltered base before p

theorem Sheltered.later {base path : Wstr} {log more : List FsEvent} (h : Sheltered base log path) :
    Sheltered base (log ++ more) path := h.imp_right (List.mem_append_left more)

namespace ParentsFirst
variable {base : Wstr} {log more : List FsEvent} {s t : CopyState}

theorem adding (h : ParentsFirst base log)
    (fits : ∀ e ∈ more, ∀ p, e.Reports p → Sheltered base log p) : ParentsFirst base (log ++ more) := by
  intro before e after p same reports
  rcases List.append_eq_append_iff.mp same with ⟨gap,rfl,rest⟩ | ⟨gap,rfl,rest⟩
  · exact (fits e (rest ▸ List.mem_append_right _ List.mem_cons_self) p reports).later
  · cases gap with
    | nil =>
      rw [List.append_nil] at h fits
      exact fits e ((List.nil_append more ▸ rest : e :: after = more) ▸ List.mem_cons_self) p reports
    | cons first gap =>
      obtain ⟨rfl,-⟩ := List.cons.inj rest
      exact h before e gap p rfl reports

theorem making (h : ParentsFirst base s.log) (later : Making s t)
    (here : Sheltered base s.log s.path.data) : ParentsFirst base t.log := by
  obtain ⟨more,log,all⟩ := later.log
  exact log ▸ h.adding fun e mem p reports => all e mem p reports ▸ here

end ParentsFirst

namespace Tree
variable {P : NodeInfo → Prop} {t : Tree}

def EachDir (P : NodeInfo → Prop) : Tree → Prop
  | nil => True
  | file _ _ rest => rest.EachDir P
  | dir _ info sub rest => P info ∧ sub.EachDir P ∧ rest.EachDir P

namespace EachDir

theorem found (h : t.EachDir P) {name : Wstr} {info : NodeInfo} {sub : Tree}
    (there : t.findDir name = some (info,sub)) : P info ∧ sub.EachDir P := by
  induction t with
  | nil => cases there
  | file own info' rest ih => exact ih h there
  | dir own info' other rest _ ih =>
    rw [findDir] at there
    split at there
    · cases there
      exact ⟨h.1,h.2.1⟩
    · exact ih h.2.2 there

theorem descend (h : t.EachDir P) {names : List Wstr} {u : Tree} (there : t.descend names = some u) :
    u.EachDir P := by
  induction names generalizing t with
  | nil => exact Option.some.inj there ▸ h
  | cons name names ih =>
    rw [Tree.descend,Option.bind_eq_some_iff] at there
    obtain ⟨⟨info,sub⟩,first,there⟩ := there
    exact ih (h.found first).2 there

end EachDir
end Tree
namespace WslReader
open Program (Triple Same)
variable (r : WslReader) (env : FsEnv) (w : Format) (base : Wstr)

def Ready (kind : EnumDirType) (s : CopyState) : Prop :=
  kind = .exit ∨ kind = .enter ∧ s.isRoot = true ∨
    ∀ u, convertPath (r.pathAt s.data) s = (.ok true,u) → Sheltered base s.log u.path.data

/- The same run with another action. -/
def runWith (act : EnumDirType → Copy Unit) (fuel : Nat) : Copy Unit := do
  Program.modify fun s => {s with isRoot := true, idMap := []}
  (r.api env).enumDirectory act fuel (r.format = .legacy)

def DirsMarked : Prop := r.tree.EachDir fun info =>
  ∃ mode, r.modeOf info = some mode ∧ mode &&& aeIfmt = aeIfdir

def AtRoot (stack : List Frame) (t : Tree) : Prop :=
  stack = [] ∧ (t = .nil ∨ ∃ info sub rest, t = .dir rootfsName info sub rest)

def Written (texts : List Wstr) (log : List FsEvent) : Prop :=
  ∀ front, front <+: texts → front ≠ [] → ∀ rel,
    r.format.target w (joinDirs slash front) = some rel → .accepted (base ++ rel) ∈ log

structure Sheltering (stack : List Frame) (t : Tree) (s : CopyState) : Prop where
  encoded : t.Encoded r.format
  frames : ∀ frame ∈ stack, frame.2.Encoded r.format
  path : s.path.reset = w.fresh base
  written : ∃ texts, dirNames stack = texts.map r.format.code.encode ∧
    (∀ text ∈ texts, r.format.Reads text) ∧ r.Written w base texts s.log
  rootfs : r.format = .legacy → AtRoot stack t ∨ .accepted (base ++ wstr "rootfs\\") ∈ s.log
  first : ParentsFirst base s.log

variable {r} {env} {w} {base} {stack : List Frame} {t : Tree} {name text : Wstr} {texts : List Wstr}
  {s u : CopyState} {rel : Wstr} {dir : Bool}

theorem Written.later {more : List FsEvent} (h : r.Written w base texts s.log) :
    r.Written w base texts (s.log ++ more) :=
  fun front inside some' rel target => List.mem_append_left _ (h front inside some' rel target)

theorem Written.snoc {log : List FsEvent} (h : r.Written w base texts log)
    (own : ∀ rel, r.format.target w (joinDirs slash (texts ++ [text])) = some rel → .accepted (base ++ rel) ∈ log) :
    r.Written w base (texts ++ [text]) log := by
  intro front inside some'
  rcases List.prefix_concat_iff.mp inside with rfl | shorter
  · exact own
  · exact h front shorter some'

theorem rootfsTarget (wsl : w ≠ .linux) : w.lands (wstr "rootfs/") = some (wstr "rootfs\\") ∧
    Format.legacy.target w (joinDirs slash [wstr "rootfs"]) = some (wstr "rootfs\\") := by
  cases w with
  | linux => contradiction
  | _ => decide

theorem rootfsSpelled (legacy : r.format = .legacy) (own : r.format.Reads text)
    (same : rootfsName = r.format.code.encode text) : text = wstr "rootfs" := by
  have coded : r.format.code.encode (wstr "rootfs") = r.format.code.encode text := by
    rw [← same,legacy]
    decide
  rw [legacy] at coded
  refine (PrefixCode.encodeInjective _ ?_ ?_ coded).symm
  · exact fun c mem => WslV1Path.codeExact (ne_of_mem_of_not_mem mem (by decide))
  · exact fun c mem => WslV1Path.codeExact (ne_of_mem_of_not_mem mem own.entry.noNul)

theorem freshBase (wsl : w ≠ .linux) : (w.fresh base).base = base := by
  cases w <;> first | rfl | contradiction

namespace Sheltering

theorem shelters (h : r.Sheltering w base stack t s) (spelled : r.Spelled (dirNames stack) name texts text)
    (written : r.Written w base texts s.log) (ends : base.getLast? = some backslash)
    (wsl : w ≠ .linux) (begun : r.format = .legacy → ¬ AtRoot stack t)
    (target : r.format.target w (entryText texts text dir) = some rel) :
    Sheltered base s.log (base ++ rel) := by
  have entries : Entries texts := fun t mem => (spelled.reads t mem).entry
  obtain ⟨above,parent,higher⟩ := Format.targetParent ends wsl entries spelled.own.entry target
  rw [Sheltered,parent]
  rcases higher with rfl | ⟨some',there⟩ | ⟨legacy,there⟩
  · exact .inl (List.append_nil _)
  · exact .inr (written texts List.prefix_rfl some' above there)
  · rw [(rootfsTarget wsl).1] at there
    cases there
    exact .inr ((h.rootfs legacy).resolve_left (begun legacy))

theorem spells (h : r.Sheltering w base stack t s) (produced : r.format.Produces name) :
    ∃ texts text, r.Spelled (dirNames stack) name texts text ∧ r.Written w base texts s.log := by
  obtain ⟨texts,dirs,reads,written⟩ := h.written
  obtain ⟨text,entry,plain,own⟩ := Format.producedPlain produced
  exact ⟨texts,text,⟨dirs,reads,own,entry,plain⟩,written⟩

theorem ready (h : r.Sheltering w base stack t s) (spelled : r.Spelled (dirNames stack) name texts text)
    (written : r.Written w base texts s.log) (ends : base.getLast? = some backslash)
    (reader : r.format ≠ .linux) (wsl : w ≠ .linux)
    (begins : AtRoot stack t → name = rootfsName ∧ dir = true)
    (run : convertPath (r.pathAt (r.dirPath stack ++ name ++ if dir then [backslash] else [])) s = (.ok true,u)) :
    Sheltered base s.log u.path.data := by
  obtain ⟨rel,target,data⟩ := spelled.converts reader h.path dir run
  rw [data,freshBase wsl]
  by_cases begun : r.format = .legacy ∧ AtRoot stack t
  · obtain ⟨legacy,here⟩ := begun
    obtain ⟨rfl,rfl⟩ := begins here
    obtain rfl : stack = [] := here.1
    obtain rfl : texts = [] := List.map_eq_nil_iff.mp spelled.dirs.symm
    obtain rfl := rootfsSpelled legacy spelled.own spelled.name
    rw [entryTextDir,legacy,List.nil_append,(rootfsTarget wsl).2] at target
    cases target
    have under : Under [] (wstr "rootfs\\") := ⟨wstr "rootfs",[backslash],by decide,by decide,by decide,.inr rfl⟩
    exact .inl ((parentUnder under (by rwa [List.append_nil])).trans (List.append_nil _))
  · exact h.shelters spelled written ends wsl (fun legacy here => begun ⟨legacy,here⟩) target

end Sheltering

structure Kept (base : Wstr) (s t : CopyState) : Prop where
  path : t.path.reset = s.path.reset
  log : ∃ more, t.log = s.log ++ more
  first : ParentsFirst base t.log

theorem visitNodeKept {path : Wstr} (first : ParentsFirst base s.log)
    (ready : ∀ u, convertPath (r.pathAt path) s = (.ok true,u) → Sheltered base s.log u.path.data) :
    Kept base s (r.visitNode env w path dir s).2 := by
  have still : Kept base s (convertPath (r.pathAt path) s).2 :=
    ⟨FilePath.convertReset _ s.path,⟨[],(List.append_nil _).symm⟩,first⟩
  cases run : convertPath (r.pathAt path) s with
  | mk outcome u =>
    have log : u.log = s.log := by rw [← (Prod.mk.inj run).2]
    rw [run] at still
    rw [visitNode,Program.bindRun,run]
    cases outcome with
    | error e => exact still
    | ok yes =>
      cases yes with
      | false => exact still
      | true =>
        have makes : Makes (r.openNode env path dir >>= fun info =>
            if dir = true then r.visitDir env w path info else r.visitFile env w path info) :=
          Program.Moves.bind (Makes.quiet (r.openNodeEmits env path dir)) fun info => .ite
            (fun _ => r.visitDirMakes env w path info) fun _ => r.visitFileMakes env w path info
        obtain ⟨more,same,-⟩ := (makes.final u).log
        refine ⟨(congrArg FilePath.reset (makes.final u).path).trans still.path,⟨more,log ▸ same⟩,?_⟩
        exact still.first.making (makes.final u) (log ▸ ready u run)

theorem dirMarked (marked : r.DirsMarked) {path : Wstr} {info : NodeInfo} (there : r.infoAt path true = some info) :
    ∃ mode, r.modeOf info = some mode ∧ mode &&& aeIfmt = aeIfdir := by
  rw [infoAt,if_pos rfl] at there
  split at there
  · obtain ⟨parent,above,there⟩ := Option.bind_eq_some_iff.mp there
    obtain ⟨⟨info,sub⟩,own,rfl⟩ := Option.map_eq_some_iff.mp there
    obtain ⟨name,-,own⟩ := Option.bind_eq_some_iff.mp own
    exact ((Tree.EachDir.descend marked above).found own).1
  · cases there

theorem dirWritten {path : Wstr} (marked : r.DirsMarked) (wsl : w ≠ .linux)
    (converted : convertPath (r.pathAt path) s = (.ok true,u)) {t : CopyState}
    (run : r.visitNode env w path true s = (.ok (),t)) : .accepted u.path.data ∈ t.log := by
  rw [visitNode,Program.bindOk converted,if_pos rfl] at run
  obtain ⟨info,v,opened,run⟩ := Program.bindOkSource run
  rw [if_pos rfl] at run
  obtain ⟨attr,x,read,run⟩ := Program.bindOkSource run
  obtain ⟨stored,y,wrote,run⟩ := Program.bindOkSource run
  obtain rfl : y = t := (Prod.mk.inj run).2
  obtain ⟨mode,carries,isDir⟩ := dirMarked marked (r.openNodeSource env opened)
  have told := r.readAttrTold read
  rw [carries] at told
  obtain ⟨a,rfl,rfl⟩ := Option.map_eq_some_iff.mp told
  have accepts : w.accepts (some a) = true := by
    rw [Format.accepts,if_neg wsl,FsWriter.passes,FileAttr.type,isDir]
    decide
  have issued := FsWriter.acceptedIssues accepts (fun nameless => wsl nameless.1) wrote
  have same : x.path = u.path := (Issued.quiet (r.readAttrEmits env path info) read).path.trans
    (Issued.quiet (r.openNodeEmits env path true) opened).path
  have out : (u.path.data,none) ∈ emissions y.log := by
    rw [issued.log,same]
    exact List.mem_append_right _ List.mem_cons_self
  obtain ⟨e,mem,own⟩ := List.mem_filterMap.mp out
  cases e with
  | accepted path =>
    cases own
    exact mem
  | _ => cases own

namespace Sheltering
variable {info : NodeInfo} {sub rest : Tree}

theorem behindFile (h : r.Sheltering w base stack (.file name info rest) s) (kept : Kept base s u) :
    r.Sheltering w base stack rest u := by
  obtain ⟨more,log⟩ := kept.log
  refine ⟨h.encoded.2.2,h.frames,kept.path.trans h.path,?_,fun legacy => .inr ?_,kept.first⟩
  · obtain ⟨texts,dirs,reads,written⟩ := h.written
    exact ⟨texts,dirs,reads,log ▸ written.later⟩
  · have passed : ¬ AtRoot stack (.file name info rest) := by
      rintro ⟨-,none' | ⟨info,sub,rest,same⟩⟩
      · cases none'
      · cases same
    exact log ▸ List.mem_append_left _ ((h.rootfs legacy).resolve_left passed)

theorem insideDir (h : r.Sheltering w base stack (.dir name info sub rest) s) (kept : Kept base s u)
    (spelled : r.Spelled (dirNames stack) name texts text) (wsl : w ≠ .linux)
    (written : r.Written w base (texts ++ [text]) u.log) :
    r.Sheltering w base ((name,rest) :: stack) sub u := by
  obtain ⟨more,log⟩ := kept.log
  refine ⟨h.encoded.2.2.1,fun frame mem => ?_,kept.path.trans h.path,?_,fun legacy => .inr ?_,kept.first⟩
  · rcases List.mem_cons.mp mem with rfl | above
    · exact h.encoded.2.2.2
    · exact h.frames frame above
  · refine ⟨texts ++ [text],?_,fun t mem => ?_,written⟩
    · rw [dirNamesCons,spelled.dirs,spelled.name,List.map_append]
      rfl
    · exact (List.mem_append.mp mem).elim (spelled.reads t) fun own => List.mem_singleton.mp own ▸ spelled.own
  · rcases h.rootfs legacy with ⟨rfl,none' | ⟨info',sub',rest',same⟩⟩ | there
    · cases none'
    · cases same
      obtain rfl : texts = [] := List.map_eq_nil_iff.mp spelled.dirs.symm
      obtain rfl := rootfsSpelled legacy spelled.own spelled.name
      refine written [wstr "rootfs"] List.prefix_rfl (List.cons_ne_nil _ _) _ ?_
      rw [legacy,(rootfsTarget wsl).2]
    · exact log ▸ List.mem_append_left _ there

theorem left (h : r.Sheltering w base ((name,rest) :: stack) .nil s) : r.Sheltering w base stack rest s := by
  refine ⟨h.frames (name,rest) List.mem_cons_self,fun frame mem => h.frames frame (List.mem_cons_of_mem _ mem),
    h.path,?_,fun legacy => .inr ?_,h.first⟩
  · obtain ⟨texts,dirs,reads,written⟩ := h.written
    rw [dirNamesCons] at dirs
    obtain ⟨front,last,rfl,above,-⟩ := List.map_eq_append_iff.mp dirs.symm
    refine ⟨front,above.symm,fun t mem => reads t (List.mem_append_left _ mem),fun part inside => ?_⟩
    exact written part (inside.trans (List.prefix_append _ _))
  · exact (h.rootfs legacy).resolve_left fun top => absurd top.1 (List.cons_ne_nil _ _)

theorem cut (h : r.Sheltering w base stack t s) : r.Sheltering w base stack .nil s :=
  ⟨trivial,h.frames,h.path,h.written,fun legacy => (h.rootfs legacy).imp_left fun top => ⟨top.1,.inl rfl⟩,h.first⟩

end Sheltering

section
variable (ends : base.getLast? = some backslash) (reader : r.format ≠ .linux) (wsl : w ≠ .linux)
include ends reader wsl

theorem fileReady {info : NodeInfo} {rest : Tree} (h : r.Sheltering w base stack (.file name info rest) s)
    (run : convertPath (r.pathAt (r.dirPath stack ++ name)) s = (.ok true,u)) :
    Sheltered base s.log u.path.data := by
  obtain ⟨texts,text,spelled,written⟩ := h.spells h.encoded.1
  refine @Sheltering.ready r w base stack _ name text texts s u false h spelled written ends reader wsl ?_ ?_
  · rintro ⟨-,none' | ⟨info',sub',rest',same⟩⟩
    · cases none'
    · cases same
  · rwa [if_neg Bool.false_ne_true,List.append_nil]

theorem dirReady {info : NodeInfo} {sub rest : Tree} (h : r.Sheltering w base stack (.dir name info sub rest) s)
    (run : convertPath (r.pathAt (r.dirPath stack ++ name ++ [backslash])) s = (.ok true,u)) :
    Sheltered base s.log u.path.data := by
  obtain ⟨texts,text,spelled,written⟩ := h.spells h.encoded.1
  refine @Sheltering.ready r w base stack _ name text texts s u true h spelled written ends reader wsl ?_ run
  rintro ⟨-,none' | ⟨info',sub',rest',same⟩⟩
  · cases none'
  · cases same
    exact ⟨rfl,rfl⟩

theorem dirSheltering (marked : r.DirsMarked) {info : NodeInfo} {sub rest : Tree} :
    Triple (r.Sheltering w base stack (.dir name info sub rest))
      (r.visitNode env w (r.dirPath stack ++ name ++ [backslash]) true)
      (fun _ => r.Sheltering w base ((name,rest) :: stack) sub) (fun _ s => ParentsFirst base s.log) := by
  intro s h
  have kept := @visitNodeKept r env w base s true _ h.first fun u => dirReady ends reader wsl h
  obtain ⟨texts,text,spelled,written⟩ := h.spells h.encoded.1
  obtain ⟨noNul,plain⟩ := entryReads true spelled.reads spelled.own
  have named := FilePath.namedConvert reader noNul plain r.base base h.path
  rw [← spelled.path true,entryTextDir] at named
  cases run : r.visitNode env w (r.dirPath stack ++ name ++ [backslash]) true s with
  | mk outcome t =>
    rw [run] at kept
    cases outcome with
    | error e => exact kept.first
    | ok _ =>
      refine h.insideDir kept spelled wsl ?_
      obtain ⟨more,log⟩ := kept.log
      dsimp only at log
      rw [log]
      refine written.later.snoc fun rel target => log ▸ ?_
      rw [target] at named
      obtain ⟨held,out,data⟩ := named
      have converted : convertPath (r.pathAt (r.dirPath stack ++ name ++ [backslash])) s =
          (.ok true,{s with path := held}) := by
        rw [convertPath,Program.zoom]
        exact congrArg (fun x => (x.1,{s with path := x.2})) out
      have there := dirWritten marked wsl converted run
      dsimp only at there
      rwa [data,freshBase wsl] at there

theorem sheltering (marked : r.DirsMarked) :
    r.Traversal env w (r.Sheltering w base) fun _ s => ParentsFirst base s.log where
  moved _ _ _ h := ⟨h.encoded,h.frames,h.path,h.written,h.rootfs,h.first⟩
  leave h := h.left
  calls := .inr fun _ _ _ _ h => h.first
  whole := .inr fun h => h.cut
  file {stack name info rest} _ := by
    intro s h
    have kept := @visitNodeKept r env w base s false _ h.first fun u => fileReady ends reader wsl h
    cases run : r.visitNode env w (r.dirPath stack ++ name) false s with
    | mk outcome t =>
      rw [run] at kept
      cases outcome with
      | error e => exact kept.first
      | ok _ => exact h.behindFile kept
  dir _ := dirSheltering ends reader wsl marked

theorem readyAlike {act : EnumDirType → Copy Unit}
    (same : ∀ kind s, r.Ready base kind s → act kind s = r.visit env w kind s) :
    r.Alike env w (r.Sheltering w base) act where
  exit s := same .exit s (.inl rfl)
  root s root := same .enter s (.inr (.inl ⟨rfl,root⟩))
  file _ s h := same .file s (.inr (.inr fun u => by
    rw [show s.data = _ from congrArg Prod.fst h.2]
    exact fileReady ends reader wsl h.1))
  dir _ s h := same .enter s (.inr (.inr fun u => by
    rw [show s.data = _ from congrArg Prod.fst h.2]
    exact dirReady ends reader wsl h.1))

end

theorem Sheltering.new (encoded : r.tree.Encoded r.format) (root : Bool) :
    r.Sheltering w base [] r.walked {CopyState.new w base r.base with isRoot := root, idMap := []} where
  encoded := walkedEncoded encoded
  frames _ mem := absurd mem List.not_mem_nil
  path := FilePath.servedReset .fresh
  written := by
    refine ⟨[],rfl,fun text mem => absurd mem List.not_mem_nil,fun front inside some' => ?_⟩
    exact absurd (List.prefix_nil.mp inside) some'
  rootfs legacy := by
    refine .inl ⟨rfl,?_⟩
    rw [walked,if_pos legacy]
    cases r.tree.findDir rootfsName with
    | none => exact .inl rfl
    | some found => exact .inr ⟨_,_,_,rfl⟩
  first before e after p same := by simp [CopyState.new] at same

end WslReader

def homeFirst : WslReader := ⟨.legacy,sourceBase,.dir (wstr "home") (twoNames 0x41ed)
  (.file (wstr "x") threeNames .nil) (.dir rootfsName (twoNames 0x41ed)
    (.dir (wstr "etc") (twoNames 0x41ed) (.file (wstr "a") threeNames .nil) .nil) .nil)⟩

theorem legacyWord {name : Wstr} (entry : LinuxEntry name) (same : name = WslV1Path.code.encode name) :
    Format.legacy.Produces name := ⟨name,entry,same⟩

theorem homeFirstEncoded : homeFirst.tree.Encoded .legacy :=
  ⟨legacyWord ⟨by decide,by decide⟩ (by decide),by decide,
    ⟨legacyWord ⟨by decide,by decide⟩ (by decide),by decide,trivial⟩,
    legacyWord ⟨by decide,by decide⟩ (by decide),by decide,
    ⟨legacyWord ⟨by decide,by decide⟩ (by decide),by decide,
      ⟨legacyWord ⟨by decide,by decide⟩ (by decide),by decide,trivial⟩,trivial⟩,trivial⟩

theorem homeFirstMarked : homeFirst.DirsMarked := by
  have marked : ∃ mode, homeFirst.modeOf (twoNames 0x41ed) = some mode ∧ mode &&& aeIfmt = aeIfdir :=
    ⟨0x41ed,rfl,rfl⟩
  exact ⟨marked,trivial,marked,⟨marked,trivial,trivial⟩,trivial⟩

example : emissions (homeFirst.run plainFs .v1 4 (.new .v1 targetBase homeFirst.base)).2.log =
    [(targetBase ++ wstr "rootfs\\",none),(targetBase ++ wstr "rootfs\\etc\\",none),
      (targetBase ++ wstr "rootfs\\etc\\a",none),(targetBase ++ wstr "rootfs\\home\\",none),
      (targetBase ++ wstr "rootfs\\home\\x",some (targetBase ++ wstr "rootfs\\etc\\a"))] := by
  decide +kernel

end LxRunOffline
