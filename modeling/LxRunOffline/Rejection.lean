import LxRunOffline.Reconfigure
import LxRunOffline.RegErrors

/-! What an `install` or a `duplicate` leaves of the registry when the program rejects what it was
asked for. The new distribution is registered first; only then are the versions looked up, the
paths compared and the archive opened. -/
namespace LxRunOffline
open Registry
variable {upcase : WChar → WChar}

inductive Creation where
  | install (name dir : CStr) (file root confPath : Wstr) (version : UInt32) (shortcut : Bool)
  | duplicate (name newName dir : CStr) (confPath : Wstr) (version : UInt32)

def World.normal (W : World) (path : Wstr) : Except UInt32 Wstr :=
  (W.reg.fullPath 0 path).map fun full =>
    let long := if full.take 4 ≠ wstr "\\\\?\\" then wstr "\\\\?\\" ++ full else full
    if long.getLast? ≠ some backslash then long ++ [backslash] else long

namespace Creation

def run (W : World) : Creation → Command upcase Unit
  | install name dir file root confPath version shortcut =>
    Command.install W name.units dir.units file root confPath version shortcut
  | duplicate name newName dir confPath version =>
    Command.duplicate W name.units newName.units dir.units confPath version

def rejections : List ErrMsg := [.errFsVersion,.errCopySubdir,.errRootDir]

/- The errors by which the program rejects its arguments; an archive is one of them. -/
def Rejects (l : LroError) : Creation → Prop
  | install _ _ file _ _ _ _ => l.msgCode ∈ rejections ∨ l.msgCode = .errOpenFile ∧ l.msgArgs = [file]
  | duplicate .. => l.msgCode ∈ rejections

theorem rejectsListed (c : Creation) {l : LroError} (h : l.msgCode ∈ rejections) : c.Rejects l := by
  cases c with
  | install => exact .inl h
  | duplicate => exact h

def Rejected (c : Creation) (e : Stop) : Prop := ∃ l, e = .lro l ∧ c.Rejects l

def added : Creation → CStr
  | install name .. => name
  | duplicate _ newName .. => newName

def LeavesAlone (W : World) (s : Session upcase) (c : Creation) : Prop :=
  ∀ l t, c.run W s = (.error (.lro l),t) → c.Rejects l → SameDistros s.reg.reg t.reg.reg

def chosen (version old : UInt32) : UInt32 := if version ≠ 0xffffffff then version else old

def Apart (W : World) (source dir : Wstr) : Prop :=
  ∀ base target, W.normal source = .ok base → W.normal dir = .ok target →
    WslWriter.samePrefix target target.length base = false ∧ WslWriter.driveRoot target = false

/- Nothing about the arguments is wrong that the program looks for. -/
def Sound (W : World) (r : Registry upcase) : Creation → Prop
  | install _ _ file _ _ version _ =>
    Format.ofVersion version ≠ none ∧ ∀ time, W.fs.status time (.openFile file false false) = 0
  | duplicate name newName dir _ version => name.units ≠ newName.units ∧
    ∀ d ∈ r.distros, nameOf d.2 = some name.units → ∀ old,
      (d.2 vnVersion).bind RegValue.asDword = some old →
        Format.ofVersion (chosen version old) ≠ none ∧
        ∀ e ∈ r.distros, nameOf e.2 = some name.units → ∀ source,
          (e.2 vnDir).bind RegValue.asSz = some source →
            Format.ofVersion old ≠ none ∧ Apart W source dir.units

def installFile (W : World) (file confPath : Wstr) : Except LroError RegConfig :=
  let load (path : Wstr) := (RegConfig.new false).loadFile path (W.config 0 path)
  if confPath ≠ [] then load confPath
  else match load (file ++ wstr ".xml") with
    | .ok conf => .ok conf
    | .error e => if e.msgCode = .errOpenFile then .ok (.new false) else .error e

def duplicateFile (W : World) (conf : RegConfig) (confPath : Wstr) : Except LroError RegConfig :=
  if confPath ≠ [] then conf.loadFile confPath (W.config 0 confPath) else .ok conf

/- The command gets as far as to register the distribution and to store its configuration. -/
def Starts (W : World) (r : Registry upcase) : Creation → Prop
  | install name dir file _ confPath _ _ => Absent r name ∧
    (∃ full, W.reg.fullPath 0 dir.units = .ok full) ∧
    ∃ conf, installFile W file confPath = .ok conf ∧ MultiFits conf.env
  | duplicate name newName dir confPath version => Absent r newName ∧
    (∃ full, W.reg.fullPath 0 dir.units = .ok full) ∧
    ∃ d ∈ r.distros, nameOf d.2 = some name.units ∧
      (∃ old, (d.2 vnVersion).bind RegValue.asDword = some old) ∧
      ∃ conf loaded, Loaded (.new false) d.2 configAll conf ∧
        duplicateFile W conf confPath = .ok loaded ∧
        ¬ ((conf.isWsl2 || loaded.isWsl2) = true ∧ version ≠ 0xffffffff) ∧ MultiFits loaded.env

end Creation

/- Every call of the registry succeeds on a coherent registry, directories can be created, and
what is asked about a file is answered alike at any time. -/
structure World.Serves (W : World) (r : Registry upcase) : Prop where
  works : W.reg.Works
  coherent : r.Coherent
  issued : ∀ n, ∃ id, W.reg.guid n = .ok id
  config : ∀ time path, W.config time path = W.config 0 path
  created : ∀ time path, W.fs.status time (.createDirectory path) = 0 ∨
    W.fs.status time (.createDirectory path) = errorAlreadyExists
  opened : ∀ time path, W.fs.status time (.openFile path false false) =
    W.fs.status 0 (.openFile path false false)

structure World.Unreadable (W : World) (file text : Wstr) : Prop where
  sized : ∀ time, W.fs.status time (.fileSize file) = 0
  filter : ∀ time, W.fs.archive time .supportFilter = .ok
  format : ∀ time, W.fs.archive time .supportFormat = .ok
  refused : ∀ time, W.fs.archive time (.openArchive file) = .failed text

def creationErrors : List (ErrMsg × Nat) :=
  registryErrors ++ writerErrors ++ archiveErrors ++ [(.errCreateShortcut,0)]

namespace Reg
variable {env : RegEnv} {r : Registry upcase}

theorem ensureDefaultLeaves (name : Wstr) :
    Program.Leaves (fun s => s.reg.distros) (ensureDefault env name : RegProgram upcase Unit) := by
  have reads {α : Type} {x : RegProgram upcase α} (h : Reads x) :
      Program.Leaves (fun s => s.reg.distros) x := fun s => congrArg distros (h.leaves s)
  have sets : Program.Leaves (fun s => s.reg.distros)
      (setDefaultDistro env name : RegProgram upcase Unit) := by
    refine .bind (reads (getDistroIdReads name)) fun id s => ?_
    by_cases zero : env.status s.clock (.setValue (regBasePath ++ []) vnDefaultDistro) = 0
    · rw [setSz,setValueDone _ zero]
      rfl
    · simp only [setSz,setValue,Program.bindRun,askRun,if_pos zero]
      rfl
  refine .rescue (.bind (reads getDefaultDistroReads) fun _ => .pure ()) fun e => ?_
  cases e with
  | lro l =>
    refine .ite (.rescue sets fun e => ?_) (.pure ())
    cases e with
    | lro l => exact .pure ()
    | invalidArgument | badArrayLength | crash | outOfFuel => exact .raise _
  | invalidArgument | badArrayLength | crash | outOfFuel => exact .raise _

theorem createdDistros {id : Wstr} (guid : isGuid id = true) (fresh : ¬ r.subkeys.Has id) :
    (r.create id).distros = r.distros ++ [(id,fun _ => none)] := by
  simp [create,guidNonempty guid,distros,FoldedTable.insertFresh fresh,guid]

theorem editedNewest {id : Wstr} (guid : isGuid id = true) (fresh : ¬ r.subkeys.Has id)
    (f : RegValues → RegValues) :
    ((r.create id).edit id f).distros = r.distros ++ [(id,f fun _ => none)] := by
  rw [editedDistros,createdDistros guid fresh,List.map_append]
  congr 1
  · refine (List.map_congr_left fun e mem => ?_).trans (List.map_id _)
    rw [if_neg fun same => fresh ⟨e,(distroEntry mem).1,same⟩]
    rfl
  · simp

theorem fillKeyAdds {id : Wstr} (guid : isGuid id = true) (fresh : ¬ r.subkeys.Has id) (name : CStr)
    (path : Wstr) (version : UInt32) :
    Program.Triple (fun t => t.reg = r.create id) (fillKey env id name.units path version)
      (fun _ t => ∃ values, nameOf values = some name.units ∧
        t.reg.distros = r.distros ++ [(id,values)]) (fun _ _ => True) := by
  let new : Wstr × RegValues := (id,fun _ => none)
  let is (values : RegValues) : Prop := nameOf values = some name.units
  have mem : new ∈ (r.create id).distros := by
    rw [createdDistros guid fresh]
    exact List.mem_append_right _ (List.mem_singleton_self _)
  have apart : vnDir ≠ vnDistroName ∧ vnState ≠ vnDistroName ∧ vnVersion ≠ vnDistroName := by decide
  have writes (before after : RegValues → Prop) (item : Wstr) (value : RegValue)
      (step : ∀ v, before v → after (put item (some value) v)) :
      Program.Triple (Edited (r.create id) new before) (setValue env id item value)
        (fun _ => Edited (r.create id) new after) (fun _ _ => True) := by
    have set := @setKeyEdited _ env _ new mem before after True _ item value fun v now => by
      rw [putIf,if_pos trivial]
      exact step v now
    rw [Program.when,if_pos trivial] at set
    exact set.weaken (fun _ h => h) (fun _ _ h => h) fun _ _ _ => trivial
  have keeps (item : Wstr) (value : RegValue) (other : item ≠ vnDistroName) :
      Program.Triple (Edited (r.create id) new is) (setValue env id item value)
        (fun _ => Edited (r.create id) new is) (fun _ _ => True) := by
    refine writes is is item value fun v now => ?_
    change (put item (some value) v vnDistroName).bind RegValue.asSz = _
    rw [put,if_neg (Ne.symm other)]
    exact now
  have named : Program.Triple (fun t => t.reg = r.create id)
      (setSz env id vnDistroName name.units) (fun _ => Edited (r.create id) new is)
      (fun _ _ => True) := by
    refine (writes (fun _ => True) is _ _ fun v _ => ?_).weaken (fun t same => ?_) (fun _ _ h => h)
      fun _ _ h => h
    · simp [is,nameOf,put,RegValue.asSz,cstrSame]
    · exact unedited (r.create id) same trivial
  have resolved : Program.Triple (Edited (r.create id) new is) (getFullPath env path)
      (fun _ => Edited (r.create id) new is) (fun _ _ => True) :=
    ((getFullPathReads path).leaves.keeps fun reg => ∃ g, reg = (r.create id).edit id g ∧ is (g new.2)).weaken
      (fun _ h => h) (fun _ _ h => h) fun _ _ _ => trivial
  refine named.bind fun _ => resolved.bind fun full => (keeps _ _ apart.1).bind fun _ =>
    (keeps _ _ apart.2.1).bind fun _ => (keeps _ _ apart.2.2).bind fun _ t now => ?_
  have kept : Program.Keeps (fun t : RegState upcase => ∃ values, nameOf values = some name.units ∧
      t.reg.distros = r.distros ++ [(id,values)]) (ensureDefault env name.units) :=
    (ensureDefaultLeaves name.units).keeps fun listed => ∃ values, nameOf values = some name.units ∧
      listed = r.distros ++ [(id,values)]
  refine kept.weaken (fun t now => ?_) (fun _ _ h => h) (fun _ _ _ => trivial) t now
  obtain ⟨g,same,named⟩ := now
  exact ⟨g fun _ => none,named,by rw [same,editedNewest guid fresh]⟩

end Reg

def Sources (r : Registry upcase) (name : Wstr) (r' : Registry upcase) : Prop :=
  ∀ e ∈ r'.distros, nameOf e.2 = some name →
    ∃ d ∈ r.distros, nameOf d.2 = some name ∧ d.2 vnDir = e.2 vnDir

theorem sourcesAdded {r r' : Registry upcase} {name newName : Wstr} (other : name ≠ newName)
    {id : Wstr} {values : RegValues} (named : nameOf values = some newName)
    (added : r'.distros = r.distros ++ [(id,values)]) : Sources r name r' := by
  intro e mem is
  rw [added,List.mem_append,List.mem_singleton] at mem
  rcases mem with old | rfl
  · exact ⟨e,old,is,rfl⟩
  · exact absurd (Option.some.inj (is.symm.trans named)) other

theorem Sources.edit {r r' : Registry upcase} {name : Wstr} (h : Sources r name r')
    {d : Wstr × RegValues} (mem : d ∈ r'.distros) {g : RegValues → RegValues}
    (kept : nameOf (g d.2) = nameOf d.2 ∧ g d.2 vnDir = d.2 vnDir) :
    Sources r name (r'.edit d.1 g) := by
  intro e inside is
  rw [editedDistros] at inside
  obtain ⟨x,here,rfl⟩ := List.mem_map.mp inside
  by_cases key : x.1.map upcase = d.1.map upcase
  · have one := FoldedTable.sameEntry (distroEntry here).1 (distroEntry mem).1 key
    subst one
    simp only [↓reduceIte] at is ⊢
    obtain ⟨y,old,named,dir⟩ := h x here (kept.1 ▸ is)
    exact ⟨y,old,named,dir.trans kept.2.symm⟩
  · simp only [if_neg key] at is ⊢
    exact h x here is

theorem Reg.configureSources {env : RegEnv} {r : Registry upcase} {name : Wstr} (conf : RegConfig)
    (newName : Wstr) (desired : UInt32) :
    Program.Triple (fun t => Sources r name t.reg) (configureDistro env conf newName desired)
      (fun _ t => Sources r name t.reg) (fun _ _ => True) := by
  have apart : ∀ item ∈ conf.items, item.2.1 ≠ vnDistroName ∧ item.2.1 ≠ vnDir := by
    have other : vnEnv ≠ vnDistroName ∧ vnUid ≠ vnDistroName ∧ vnKernelCmd ≠ vnDistroName ∧
      vnFlags ≠ vnDistroName := by decide
    have other' : vnEnv ≠ vnDir ∧ vnUid ≠ vnDir ∧ vnKernelCmd ≠ vnDir ∧ vnFlags ≠ vnDir := by decide
    simp [RegConfig.items,other,other']
  let is (old new : RegValues) : Prop := nameOf new = nameOf old ∧ new vnDir = old vnDir
  intro s now
  refine (@configureEdited _ env s.reg conf newName desired is (fun v => ⟨rfl,rfl⟩)
    fun d mem named item listed wanted v kept => ?_).weaken (fun _ h => h) (fun _ t edited => ?_)
    (fun _ _ _ => trivial) s rfl
  · obtain ⟨notName,notDir⟩ := apart item listed
    refine ⟨?_,?_⟩
    · rw [nameOf,put,if_neg (Ne.symm notName)]
      exact kept.1
    · rw [put,if_neg (Ne.symm notDir)]
      exact kept.2
  · obtain ⟨d,mem,g,same,kept⟩ := edited
    rw [same]
    exact Sources.edit now mem kept

section Sound
variable {W : World} {r : Registry upcase} {kinds : List (ErrMsg × Nat)}

def Early (r : Registry upcase) (kinds : List (ErrMsg × Nat)) (e : Stop) (s : Session upcase) :
    Prop := s.reg.reg = r ∨ Listed kinds e

theorem Early.before {α : Type} {x : Command upcase α} {good : α → Session upcase → Prop}
    (h : Program.Triple (fun s => s.reg.reg = r) x good fun _ s => s.reg.reg = r) :
    Program.Triple (fun s => s.reg.reg = r) x good (Early r kinds) :=
  h.weaken (fun _ h => h) (fun _ _ h => h) fun _ _ h => .inl h

theorem Early.idle {α : Type} {x : Command upcase α} (h : Command.Idle x) :
    Program.Triple (fun s => s.reg.reg = r) x (fun _ s => s.reg.reg = r) (Early r kinds) :=
  Early.before (Program.Leaves.keeps h fun reg => reg = r)

namespace Command

theorem registerEarly (fresh : ∀ n id, W.reg.guid n = .ok id → isGuid id = true ∧ ¬ r.subkeys.Has id)
    (listed : ∀ k ∈ creationErrors, k ∈ kinds) (name : CStr) (path : Wstr) (version : UInt32) :
    Program.Triple (fun s => s.reg.reg = r)
      (onReg (Reg.registerDistro W.reg name.units path version))
      (fun _ s => ∃ id values, nameOf values = some name.units ∧
        s.reg.reg.distros = r.distros ++ [(id,values)]) (Early r kinds) := by
  have registered : ∀ k ∈ registryErrors, k ∈ kinds := fun k mem => listed k (by simp [creationErrors,mem])
  suffices stored : Program.Triple (fun t : RegState upcase => t.reg = r)
      (Reg.registerDistro W.reg name.units path version) (fun _ t => ∃ id values,
        nameOf values = some name.units ∧ t.reg.distros = r.distros ++ [(id,values)])
      (fun e t => t.reg = r ∨ Listed kinds e) from onRegTriple stored
  intro s same
  have key := @Reg.newDistroKeyWrites _ W.reg name.units s
  rw [Reg.registerParts]
  refine Program.Triple.bind (key.weaken (fun _ h => h) (fun _ _ h => h)
    fun _ _ h => .inl (h.trans same)) (fun id t made => ?_) s ⟨rfl,rfl⟩
  obtain ⟨guid,reg⟩ := made
  obtain ⟨isId,unused⟩ := fresh _ id guid
  have adds := (@Reg.fillKeyAdds _ W.reg r id isId unused name path version).and
    (Reg.fillKeyRaises W.reg registered id name.units path version)
  exact adds.weaken (fun _ h => ⟨h,trivial⟩) (fun _ _ h => ⟨id,h.1⟩) (fun _ _ h => .inr h.2) t
    (reg.trans (by rw [same]))

theorem normalizePathGives (paths : ∀ time path, W.reg.fullPath time path = W.reg.fullPath 0 path)
    (path : Wstr) : Program.Triple (fun _ => True) (normalizePath W path : Command upcase Wstr)
      (fun long _ => W.normal path = .ok long) (fun _ _ => True) := by
  have full : Program.Triple (fun _ => True) (onReg (Reg.getFullPath W.reg path) : Command upcase Wstr)
      (fun full _ => W.reg.fullPath 0 path = .ok full) (fun _ _ => True) := by
    refine fun s _ => (onRegFinds (getFullPathFinds W.reg path)).weaken (fun _ h => h)
      (fun full _ h => ?_) (fun _ _ _ => trivial) s (rfl : s.reg.reg = s.reg.reg)
    obtain ⟨time,is⟩ := h.2
    rwa [paths] at is
  have long : Program.Triple (fun _ => True) (longPath W path : Command upcase Wstr)
      (fun long _ => ∃ full, W.reg.fullPath 0 path = .ok full ∧
        long = if full.take 4 ≠ wstr "\\\\?\\" then wstr "\\\\?\\" ++ full else full)
      (fun _ _ => True) := by
    refine full.bind fun first => .ite (fun short => ?_) fun whole => .pure fun s is => ?_
    · intro s is
      refine full.bind (fun again => .pure fun t is' => ?_) s trivial
      cases is.symm.trans is'
      exact ⟨first,is,by rw [if_pos short]⟩
    · exact ⟨first,is,by rw [if_neg whole]⟩
  refine long.bind fun text => .pure fun s ⟨first,is,same⟩ => ?_
  rw [World.normal,is,same]
  rfl

def Ready (W : World) (dir : Wstr) (format : Format) (s : Session upcase) : Prop :=
  format ≠ .linux ∧ ∃ base, W.normal dir = .ok base ∧ s.copy.path = format.fresh base

theorem knownWsl {version : UInt32} {format : Format} (is : Format.ofVersion version = some format) :
    format ≠ .linux := by
  rintro rfl
  simp only [Format.ofVersion] at is
  split_ifs at is <;> simp at is

theorem checkPathRun {format : Format} (wsl : format ≠ .linux) {target : Wstr} {s : CopyState}
    (ready : s.path = format.fresh target) (source : Wstr) : FsWriter.checkPath format source s =
      (if WslWriter.samePrefix target target.length source = true then Fs.throwOther .errCopySubdir []
      else if WslWriter.driveRoot target = true then Fs.throwOther .errRootDir [target]
      else pure () : Copy Unit) s := by
  have data : s.path.data = target := by
    rw [ready]
    cases format <;> simp_all [Format.fresh,FilePath.data,FilePath.base,FilePath.rel,
      WslLegacyPath.new]
  have long : s.path.base = target := by
    rw [ready]
    cases format <;> simp_all [Format.fresh,FilePath.base,WslLegacyPath.new]
  rw [FsWriter.checkPath,if_neg wsl,WslWriter.checkPath,Program.bindRun,Program.getRun]
  dsimp only
  rw [data,long]

theorem selectWriterGives (paths : ∀ time path, W.reg.fullPath time path = W.reg.fullPath 0 path)
    (listed : ∀ k ∈ creationErrors, k ∈ kinds) {version : UInt32}
    (known : Format.ofVersion version ≠ none) (dir : Wstr) (inv : Registry upcase → Prop) :
    Program.Triple (fun s => inv s.reg.reg) (selectWriter W version dir)
      (fun format s => inv s.reg.reg ∧ Ready W dir format s) (fun e _ => Listed kinds e) := by
  obtain ⟨format,is⟩ := Option.ne_none_iff_exists'.mp known
  have raises : Raises kinds (selectWriter W version dir : Command upcase Format) := by
    have normal : Raises kinds (normalizePath W dir : Command upcase Wstr) :=
      normalizePathRaises W (listed _ (by simp [creationErrors,registryErrors])) dir
    simp only [selectWriter,is]
    refine .bind normal fun base => .bind normal fun _ => .bind ?_ fun _ => .bind ?_ fun _ => .pure _
    · exact createRecursiveRaises W (listed _ (by simp [creationErrors,writerErrors])) base
    · exact fun _ _ => trivial
  have ready : Program.Triple (fun _ => True) (selectWriter W version dir : Command upcase Format)
      (fun format s => Ready W dir format s) (fun _ _ => True) := by
    have any {α : Type} (x : Command upcase α) : Program.Triple (fun _ => True) x (fun _ _ => True)
        (fun _ _ => True) := fun s _ => by cases x s with | mk outcome t => cases outcome <;> trivial
    simp only [selectWriter,is]
    refine (normalizePathGives paths dir).bind fun base s normal => ?_
    refine Program.Triple.bind (any _) (fun target => .bind (any _) fun _ t _ => ?_) s trivial
    exact ⟨knownWsl is,base,normal,rfl⟩
  refine ((Program.Leaves.keeps (selectWriterIdle W version dir) inv).and (raises.and ready)).weaken
    (fun _ h => ⟨h,trivial,trivial⟩) (fun _ _ h => ⟨h.1,h.2.2⟩) fun _ _ h => h.2.1

theorem extractRaises (listed : ∀ k ∈ creationErrors, k ∈ kinds) {file : Wstr}
    (granted : ∀ time, W.fs.status time (.openFile file false false) = 0) (root : Wstr)
    (format : Format) : Raises kinds (extract W file root format : Command upcase Unit) := by
  have writes : ∀ k ∈ writerErrors, k ∈ kinds := fun k mem => listed k (by simp [creationErrors,mem])
  have archives : ∀ k ∈ archiveErrors, k ∈ kinds := fun k mem => listed k (by simp [creationErrors,mem])
  refine .bind (.ask _) fun found => .zoom ?_
  refine .bind (ArchiveReader.openArchiveRaises _ W.fs (fun k mem => .inl (archives k mem)) ?_)
    fun _ => ArchiveReader.unpackRaises _ W.fs format (fun k mem => .inl (archives k mem)) writes
  exact Fs.openFileGranted W.fs granted

theorem installEarly (paths : ∀ time path, W.reg.fullPath time path = W.reg.fullPath 0 path)
    (fresh : ∀ n id, W.reg.guid n = .ok id → isGuid id = true ∧ ¬ r.subkeys.Has id)
    {name dir : CStr} {file root confPath : Wstr} {version : UInt32} {shortcut : Bool}
    (sound : (Creation.install name dir file root confPath version shortcut).Sound W r) :
    Program.Triple (fun s => s.reg.reg = r)
      (install W name.units dir.units file root confPath version shortcut) (fun _ _ => True)
      (Early r creationErrors) := by
  have listed : ∀ k ∈ creationErrors, k ∈ creationErrors := fun _ h => h
  have registered : ∀ k ∈ registryErrors, k ∈ creationErrors := fun k mem => by simp [creationErrors,mem]
  refine (Early.idle (installConfigIdle W file confPath)).bind fun conf =>
    (registerEarly fresh listed name dir.units version).bind fun _ => ?_
  have configured : Raises creationErrors
      (onReg (Reg.configureDistro W.reg conf name.units configAll) : Command upcase Unit) :=
    .zoom (Reg.configureDistroRaises W.reg registered conf name.units configAll)
  have selected := @selectWriterGives upcase W creationErrors paths listed version sound.1 dir.units
    fun _ => True
  have unpacked (format : Format) : Raises creationErrors (withWriter W format (do
      extract W file root format
      Program.when (shortcut = true) (desktopShortcut W name.units)) : Command upcase Unit) :=
    .ensuring (.bind (extractRaises listed sound.2 root format) fun _ => .when fun _ =>
      desktopShortcutRaises W (by simp [creationErrors]) (by simp [creationErrors,registryErrors]) _)
  have rest := configured.bind fun _ => selected.bind fun format =>
    (unpacked format).weaken (fun _ _ => trivial) (fun _ _ h => h) fun _ _ h => h
  exact rest.weaken (fun _ _ => trivial) (fun _ _ h => h) fun _ _ h => .inr h

theorem runCheckedRaises (listed : ∀ k ∈ creationErrors, k ∈ kinds)
    (reads : ∀ k ∈ wslReaderErrors, k ∈ kinds) {source dir : Wstr} (apart : Creation.Apart W source dir)
    {reader : WslReader} (base : W.normal source = .ok reader.base) (format : Format) :
    Program.Triple (Ready W dir format) (runChecked W reader format : Command upcase Unit)
      (fun _ _ => True) (fun e _ => Listed kinds e) := by
  have writes : ∀ k ∈ writerErrors, k ∈ kinds := fun k mem => listed k (by simp [creationErrors,mem])
  suffices copied : ∀ s : Session upcase, Ready W dir format s → Program.Triple (fun c => c = s.copy)
      (reader.runChecked W.fs format W.fuel) (fun _ _ => True) (fun e _ => Listed kinds e) by
    rw [runChecked,onCopy]
    exact Program.Triple.zoom copied
  intro s ⟨wsl,target,normal,ready⟩
  obtain ⟨inside,root⟩ := apart reader.base target base normal
  have passes : FsWriter.checkPath format reader.base s.copy = (.ok (),s.copy) := by
    rw [checkPathRun wsl ready,inside,root]
    rfl
  have checked : Program.Triple (fun c => c = s.copy) (FsWriter.checkPath format reader.base)
      (fun _ _ => True) (fun e _ => Listed kinds e) := by
    rintro c rfl
    rw [passes]
    trivial
  exact checked.bind fun _ => WslReader.runRaises reader W.fs format (fun k mem => .inl (reads k mem)) writes W.fuel

theorem selectReaderGives (paths : ∀ time path, W.reg.fullPath time path = W.reg.fullPath 0 path)
    (listed : ∀ k ∈ creationErrors, k ∈ kinds) {version : UInt32}
    (known : Format.ofVersion version ≠ none) (source dir : Wstr) (format : Format) :
    Program.Triple (Ready W dir format) (selectReader W version source : Command upcase WslReader)
      (fun reader s => Ready W dir format s ∧ W.normal source = .ok reader.base)
      (fun e _ => Listed kinds e) := by
  obtain ⟨f,is⟩ := Option.ne_none_iff_exists'.mp known
  have raises : Raises kinds (normalizePath W source : Command upcase Wstr) :=
    normalizePathRaises W (listed _ (by simp [creationErrors,registryErrors])) source
  have path : Program.Leaves (fun s => s.copy.path) (normalizePath W source : Command upcase Wstr) := by
    have full : Program.Leaves (fun s => s.copy.path)
        (onReg (Reg.getFullPath W.reg source) : Command upcase Wstr) := fun _ => rfl
    exact .bind (.bind full fun _ => .ite (.bind full fun _ => .pure _) (.pure _)) fun _ => .pure _
  have normal : Program.Triple (Ready W dir format) (normalizePath W source)
      (fun base s => Ready W dir format s ∧ W.normal source = .ok base) (fun e _ => Listed kinds e) :=
    ((path.keeps fun p => format ≠ .linux ∧ ∃ base, W.normal dir = .ok base ∧ p = format.fresh base).and
      (raises.and (normalizePathGives paths source))).weaken (fun _ h => ⟨h,trivial,trivial⟩)
      (fun _ _ h => ⟨h.1,h.2.2⟩) fun _ _ h => h.2.1
  simp only [selectReader,is]
  exact normal.bind fun base s h => h

theorem duplicateEarly (paths : ∀ time path, W.reg.fullPath time path = W.reg.fullPath 0 path)
    (fresh : ∀ n id, W.reg.guid n = .ok id → isGuid id = true ∧ ¬ r.subkeys.Has id)
    {name newName dir : CStr} {confPath : Wstr} {version : UInt32}
    (sound : (Creation.duplicate name newName dir confPath version).Sound W r) :
    Program.Triple (fun s => s.reg.reg = r)
      (duplicate W name.units newName.units dir.units confPath version) (fun _ _ => True)
      (Early r (creationErrors ++ wslReaderErrors)) := by
  have listed : ∀ k ∈ creationErrors, k ∈ creationErrors ++ wslReaderErrors := fun k mem => by simp [mem]
  have reads : ∀ k ∈ wslReaderErrors, k ∈ creationErrors ++ wslReaderErrors := fun k mem => by simp [mem]
  have registered : ∀ k ∈ registryErrors, k ∈ creationErrors ++ wslReaderErrors :=
    fun k mem => by simp [creationErrors,mem]
  obtain ⟨apart,sound⟩ := sound
  refine (Early.idle (copiedConfigIdle W name.units confPath)).bind fun got =>
    .ite (fun _ _ same => .inl same) fun _ => ?_
  refine (Early.before (onRegFinds (getDistroVersionFinds W.reg name.units))).bind fun old s found => ?_
  obtain ⟨same,d,mem,named,stored⟩ := found
  obtain ⟨new,sources⟩ := sound d mem named old stored
  refine ((registerEarly fresh listed newName dir.units _).bind fun _ => ?_) s same
  have rest : Program.Triple (fun s => Sources r name.units s.reg.reg) (do
      onReg (Reg.configureDistro W.reg got.1 newName.units configAll)
      let format ← selectWriter W (Creation.chosen version old) dir.units
      withWriter W format (do
        let source ← onReg (Reg.getDistroDir W.reg name.units)
        let r ← selectReader W old source
        runChecked W r format)) (fun _ _ => True)
      (fun e _ => Listed (creationErrors ++ wslReaderErrors) e) := by
    have configured := onRegTriple ((@Reg.configureSources _ W.reg r name.units got.1 newName.units
      configAll).and (Reg.configureDistroRaises W.reg registered got.1 newName.units configAll))
    refine (configured.weaken (fun _ h => ⟨h,trivial⟩) (fun _ _ h => h.1) fun _ _ h => h.2).bind fun _ =>
      (selectWriterGives paths listed new dir.units (Sources r name.units)).bind fun format =>
        Program.Triple.ensuring ?_
    have found : Program.Triple (fun s => Sources r name.units s.reg.reg ∧ Ready W dir.units format s)
        (onReg (Reg.getDistroDir W.reg name.units)) (fun source s => Ready W dir.units format s ∧
          Format.ofVersion old ≠ none ∧ Creation.Apart W source dir.units)
        (fun e _ => Listed (creationErrors ++ wslReaderErrors) e) := by
      intro t ⟨sourced,ready⟩
      have keeps : Program.Keeps (Ready W dir.units format)
          (onReg (Reg.getDistroDir W.reg name.units) : Command upcase Wstr) := .ofFinal fun _ h => h
      have raises : Raises (creationErrors ++ wslReaderErrors)
          (onReg (Reg.getDistroDir W.reg name.units) : Command upcase Wstr) :=
        .zoom (Reg.getDistroDirRaises W.reg registered name.units)
      have here := (onRegFinds (@getDistroDirFinds _ t.reg.reg W.reg name.units)).and (raises.and keeps)
      refine here.weaken (fun _ h => h) (fun source u found => ?_) (fun _ _ h => h.2.1) t
        ⟨rfl,trivial,ready⟩
      obtain ⟨⟨-,e,mem,is,dir'⟩,-,ready⟩ := found
      obtain ⟨x,here,named,place⟩ := sourced e mem is
      exact ⟨ready,sources x here named source (place ▸ dir')⟩
    refine found.bind fun source t ⟨ready,known,apart⟩ => ?_
    have copied := (@selectReaderGives upcase _ _ paths listed _ known source dir.units format).bind
      fun reader u stands => runCheckedRaises listed reads apart stands.2 format u stands.1
    exact copied t ready
  refine rest.weaken (fun t added => ?_) (fun _ _ h => h) fun _ _ h => .inr h
  obtain ⟨id,values,is,distros⟩ := added
  exact sourcesAdded apart is distros

end Command
end Sound
end LxRunOffline
