import LxRunOffline.ArchiveTrip
import LxRunOffline.Creations
import LxRunOffline.MoveOrder

/-! Distributions that have been duplicated or installed, as they stand when the command comes to
its end: the key in the registry and the files on the disk. -/
namespace LxRunOffline
open Registry
variable {upcase : WChar → WChar} {α : Type}

def World.Steady (W : World) : Prop := ∀ time path, W.reg.fullPath time path = W.reg.fullPath 0 path

structure WslReader.Stands (r : WslReader) (W : World) (version : UInt32) (source : Wstr) : Prop where
  format : Format.ofVersion version = some r.format
  base : W.normal source = .ok r.base
  tree : ∃ time, r.tree = W.tree time r.base

theorem WslReader.Stands.same {r x : WslReader} {W : World} {version : UInt32} {source : Wstr}
    (h : r.Stands W version source) (known : Format.ofVersion version = some x.format)
    (normal : W.normal source = .ok x.base) (tree : ∀ time, W.tree time x.base = x.tree) : r = x := by
  obtain ⟨format,base,held⟩ := r
  obtain ⟨known',normal',time,is⟩ := h
  obtain rfl : x.format = format := Option.some.inj (known.symm.trans known')
  obtain rfl : x.base = base := Except.ok.inj (normal.symm.trans normal')
  obtain rfl : held = x.tree := is.trans (tree time)
  rfl

namespace Command
variable {W : World} {s t : Session upcase} {version : UInt32} {format : Format} {r : WslReader}

def untimed (s : Session upcase) : CopyState := {s.copy with clock := 0}

theorem normalizeSource (steady : W.Steady) {path base : Wstr} (run : normalizePath W path s = (.ok base,t)) :
    W.normal path = .ok base ∧ t.copy = s.copy ∧ t.reg.reg = s.reg.reg :=
  ⟨(normalizePathGives steady path).source trivial run,(normalizeLeaves W path).source run,
    (normalizePathIdle W path).source run⟩

theorem createRecursiveLeaves (W : World) (path : Wstr) :
    Program.Leaves (@untimed upcase) (createRecursive W path) := by
  have one (parent : Wstr) : Program.Leaves (@untimed upcase) (createParent W parent) :=
    .bind (fun _ => rfl) fun code => .ite (fun _ => rfl) (.pure _)
  exact .forEach one

theorem writerBegins (steady : W.Steady) (new : s.copy.log = []) {dir : Wstr}
    (run : selectWriter W version dir s = (.ok format,t)) : Format.ofVersion version = some format ∧
      t.reg.reg = s.reg.reg ∧ ∃ base clock, W.normal dir = .ok base ∧
        t.copy = .newAt clock [] format base s.copy.data := by
  have still := (selectWriterIdle W version dir).source run
  rw [selectWriter] at run
  cases known : Format.ofVersion version with
  | none =>
    rw [known] at run
    cases run
  | some found =>
    rw [known] at run
    dsimp only at run
    obtain ⟨base,u,first,run⟩ := Program.bindOkSource run
    obtain ⟨normal,same,-⟩ := normalizeSource steady first
    obtain ⟨target,v,second,run⟩ := Program.bindOkSource run
    obtain ⟨normal',same',-⟩ := normalizeSource steady second
    obtain rfl : base = target := Except.ok.inj (normal.symm.trans normal')
    obtain ⟨_,x,created,run⟩ := Program.bindOkSource run
    have copy : untimed x = untimed s := by
      rw [(createRecursiveLeaves W base).source created,untimed,untimed,same',same]
    have data : x.copy.data = s.copy.data := by
      change (untimed x).data = (untimed s).data
      rw [copy]
    have log : x.copy.log = [] := by
      change (untimed x).log = []
      rw [copy]
      exact new
    obtain ⟨_,y,built,run⟩ := Program.bindOkSource run
    cases run
    cases built
    refine ⟨rfl,still,base,x.copy.clock,normal,?_⟩
    change {CopyState.new format base x.copy.data with
      clock := x.copy.clock, log := x.copy.log, targetPath := format.fresh base} = _
    rw [data,log]
    rfl

theorem readerStands (steady : W.Steady) {source : Wstr} (run : selectReader W version source s = (.ok r,t)) :
    r.Stands W version source ∧ t.reg.reg = s.reg.reg ∧
      ∃ clock, t.copy = {s.copy with clock := clock, data := r.base} := by
  have still := (selectReaderIdle W version source).source run
  rw [selectReader] at run
  cases known : Format.ofVersion version with
  | none =>
    rw [known] at run
    cases run
  | some found =>
    rw [known] at run
    dsimp only at run
    obtain ⟨base,u,first,run⟩ := Program.bindOkSource run
    obtain ⟨normal,same,-⟩ := normalizeSource steady first
    obtain ⟨tree,x,asked,run⟩ := Program.bindOkSource run
    obtain ⟨_,y,begun,run⟩ := Program.bindOkSource run
    cases run
    cases begun
    cases asked
    exact ⟨⟨known,normal,_,rfl⟩,still,u.copy.clock+1,by rw [← same]; rfl⟩

theorem checkedSource {base : Wstr} {clock : Nat} {u : CopyState} (wsl : format ≠ .linux)
    (run : r.runChecked W.fs format W.fuel (.newAt clock [] format base r.base) = (.ok (),u)) :
    r.run W.fs format W.fuel (.newAt clock [] format base r.base) = (.ok (),u) := by
  obtain ⟨_,v,checked,run⟩ := Program.bindOkSource run
  have ready := checkPathRun (s := .newAt clock [] format base r.base) wsl rfl r.base
  rw [ready] at checked
  split at checked
  · cases checked
  split at checked
  · cases checked
  · cases checked
    exact run

theorem loadFileEnds (conf : RegConfig) (path : Wstr) (s : Session upcase) :
    (loadFile W conf path s).2.copy.log = s.copy.log ∧ ∃ time,
      (loadFile W conf path s).1 = (conf.loadFile path (W.config time path)).mapError .lro := by
  simp only [loadFile,Program.bindRun,Fs.ask]
  cases found : conf.loadFile path (W.config (Clocked.clock s) path) with
  | error e => exact ⟨rfl,Clocked.clock s,by rw [found]; rfl⟩
  | ok loaded => exact ⟨rfl,Clocked.clock s,by rw [found]; rfl⟩

theorem loadFileSource {conf loaded : RegConfig} {path : Wstr} (run : loadFile W conf path s = (.ok loaded,t)) :
    t.copy.log = s.copy.log ∧ ∃ time, conf.loadFile path (W.config time path) = .ok loaded := by
  obtain ⟨log,time,ends⟩ := loadFileEnds (W := W) conf path s
  rw [run] at log ends
  refine ⟨log,time,?_⟩
  cases found : conf.loadFile path (W.config time path) with
  | error e =>
    rw [found] at ends
    cases ends
  | ok conf' =>
    rw [found] at ends
    cases ends
    rfl

theorem loadFileFails {conf : RegConfig} {path : Wstr} {e : Stop} (run : loadFile W conf path s = (.error e,t)) :
    t.copy.log = s.copy.log ∧ ∃ time l, e = .lro l ∧ conf.loadFile path (W.config time path) = .error l := by
  obtain ⟨log,time,ends⟩ := loadFileEnds (W := W) conf path s
  rw [run] at log ends
  refine ⟨log,time,?_⟩
  cases found : conf.loadFile path (W.config time path) with
  | error l =>
    rw [found] at ends
    cases ends
    exact ⟨l,rfl,rfl⟩
  | ok conf' =>
    rw [found] at ends
    cases ends

theorem copiedConfigSource (honest : W.reg.Honest) {name confPath : Wstr} {conf : RegConfig} {isWsl2 : Bool}
    (run : copiedConfig W name confPath s = (.ok (conf,isWsl2),t)) :
    t.reg.reg = s.reg.reg ∧ t.copy.log = s.copy.log ∧ ∃ d ∈ s.reg.reg.distros, nameOf d.2 = some name ∧
      ∃ stored, Loaded (.new false) d.2 configAll stored ∧ ∃ time,
        (if confPath ≠ [] then stored.loadFile confPath (W.config time confPath) else .ok stored) = .ok conf := by
  have still := (copiedConfigIdle W name confPath).source run
  obtain ⟨stored,u,loaded,run⟩ := Program.bindOkSource run
  obtain ⟨-,same,d,mem,named,read⟩ := findsSource (Reg.loadDistroFinds honest (.new false) name configAll) loaded
  refine ⟨still,?_⟩
  by_cases given : confPath ≠ []
  · rw [if_pos given] at run
    obtain ⟨conf',v,filed,run⟩ := Program.bindOkSource run
    cases run
    obtain ⟨log,time,is⟩ := loadFileSource filed
    exact ⟨log.trans (congrArg CopyState.log same),d,mem,named,stored,read,time,by rwa [if_pos given]⟩
  · rw [if_neg given] at run
    cases run
    exact ⟨congrArg CopyState.log same,d,mem,named,_,read,0,by rw [if_neg given]⟩

end Command

/- A duplicate: the distribution that it is of, what is stored of it, and what it has become. The
writer is destroyed as `last`. -/
structure Duplication where
  original : Wstr × RegValues
  stored : RegConfig
  conf : RegConfig
  version : UInt32
  source : Wstr
  reader : WslReader
  format : Format
  base : Wstr
  new : Wstr × RegValues
  last : CopyState

namespace Duplication

structure Made (x : Duplication) (W : World) (name newName dir confPath : Wstr) (version : UInt32)
    (s t : Session upcase) : Prop where
  mem : x.original ∈ s.reg.reg.distros
  named : nameOf x.original.2 = some name
  stored : Loaded (.new false) x.original.2 configAll x.stored
  conf : ∃ time, (if confPath ≠ [] then x.stored.loadFile confPath (W.config time confPath) else .ok x.stored) =
    .ok x.conf
  versioned : (x.original.2 vnVersion).bind RegValue.asDword = some x.version
  placed : (x.original.2 vnDir).bind RegValue.asSz = some x.source
  reader : x.reader.Stands W x.version x.source
  format : Format.ofVersion (Creation.chosen version x.version) = some x.format
  base : W.normal dir = .ok x.base
  added : Reg.Newcomer W.reg newName dir (Creation.chosen version x.version) (x.conf.store configAll) s.reg.reg
    t.reg.reg x.new
  copied : ∃ clock, x.reader.run W.fs x.format W.fuel (.newAt clock [] x.format x.base x.reader.base) = (.ok (),x.last)
  copy : t.copy = (FsWriter.destroy W.fs x.format x.last).2

end Duplication
namespace Command
variable {W : World} {s t : Session upcase}

theorem duplicateSource (honest : W.reg.Honest) (all : W.reg.ListsAll) (steady : W.Steady)
    (unissued : W.reg.Unissued s.reg.reg) (distinct : s.reg.reg.Distinct) (new : s.copy.log = [])
    {name newName dir confPath : Wstr} {version : UInt32} (noNul : 0 ∉ newName)
    (run : duplicate W name newName dir confPath version s = (.ok (),t)) :
    ∃ x : Duplication, x.Made W name newName dir confPath version s t := by
  obtain ⟨⟨conf,isWsl2⟩,s1,first,run⟩ := Program.bindOkSource run
  obtain ⟨reg1,log1,d,mem,named,stored,read,file⟩ := copiedConfigSource honest first
  dsimp only at run
  split at run
  · cases run
  obtain ⟨old,s2,second,run⟩ := Program.bindOkSource run
  obtain ⟨reg2,copy2,d',mem',named',versioned⟩ := findsSource (getDistroVersionFinds W.reg name) second
  rw [reg1] at mem'
  obtain rfl := distinct d mem d' mem' name named named'
  have same : s2.reg.reg = s.reg.reg := reg2.trans reg1
  obtain ⟨s3,newest,added,copy3,run⟩ := newcomerSource all (same ▸ unissued) noNul run
  rw [same] at added
  obtain ⟨format,s4,fourth,run⟩ := Program.bindOkSource run
  have log3 : s3.copy.log = [] := by rw [copy3,copy2,log1,new]
  obtain ⟨known,reg4,base,clock,normal,begun⟩ := writerBegins steady log3 fourth
  obtain ⟨s5,body,rfl⟩ := Program.ensuringSource run
  obtain ⟨source,s6,sixth,body⟩ := Program.bindOkSource body
  obtain ⟨reg6,copy6,e,there,called,place⟩ := findsSource (getDistroDirFinds W.reg name) sixth
  rw [reg4,added.distros] at there
  obtain rfl : d = e := by
    rcases List.mem_append.mp there with before | last
    · exact distinct d mem e before name named called
    · obtain rfl := List.mem_singleton.mp last
      obtain rfl := Option.some.inj (called.symm.trans (added.named noNul))
      exact absurd named (added.absent d mem)
  obtain ⟨r,s7,seventh,body⟩ := Program.bindOkSource body
  obtain ⟨stands,reg7,clock',copy7⟩ := readerStands steady seventh
  obtain ⟨u,copied,rfl⟩ := onCopySource body
  have start : s7.copy = .newAt clock' [] format base r.base := by rw [copy7,copy6,begun]; rfl
  rw [start] at copied
  refine ⟨⟨d,stored,conf,old,source,r,format,base,newest,u⟩,mem,named,read,file,versioned,place,stands,known,normal,?_,
    ⟨clock',checkedSource (knownWsl known) copied⟩,rfl⟩
  have last : s7.reg.reg = s3.reg.reg := reg7.trans (reg6.trans reg4)
  exact ⟨added.absent,added.guid,added.fresh,added.full,(congrArg distros last).trans added.distros⟩

theorem newcomerReturns (serves : W.Serves s.reg.reg) (steady : W.Steady) (unissued : W.reg.Unissued s.reg.reg)
    {name dir : CStr} (absent : Absent s.reg.reg name) {full : Wstr} (is : W.reg.fullPath 0 dir.units = .ok full)
    (version : UInt32) {conf : RegConfig} (fits : MultiFits conf.env) :
    ∃ u, Joined s.reg.reg name u.reg.reg ∧ u.copy = s.copy ∧ ∀ rest : Command upcase Unit, (do
      onReg (Reg.registerDistro W.reg name.units dir.units version)
      onReg (Reg.configureDistro W.reg conf name.units configAll)
      rest : Command upcase Unit) s = rest u := by
  obtain ⟨id,issued⟩ := serves.issued s.reg.issued
  obtain ⟨guid,unused⟩ := unissued _ id issued
  obtain ⟨t,registered,joined⟩ := Reg.registerJoins serves.works serves.coherent ⟨id,issued,guid,unused⟩ version absent
    fun time => ⟨full,by rw [steady,is]⟩
  obtain ⟨u,configured,joined⟩ := Reg.configureJoined serves.works joined fits configAll
  have first := @onRegRun upcase _ _ s _ _ registered
  have second := @onRegRun upcase _ _ {s with reg := t} _ _ configured
  refine ⟨{s with reg := u},joined,rfl,fun rest => ?_⟩
  rw [Program.bindOk first,Program.bindOk second]

theorem normalSource {path base : Wstr} (is : W.normal path = .ok base) : ∃ full, W.reg.fullPath 0 path = .ok full := by
  rw [World.normal] at is
  cases answer : W.reg.fullPath 0 path with
  | error code => simp [answer,Except.map] at is
  | ok full => exact ⟨full,rfl⟩

end Command

structure Duplication.Possible (x : Duplication) (W : World) (name newName dir : CStr) (confPath : Wstr)
    (version : UInt32) (s : Session upcase) : Prop where
  serves : W.Serves s.reg.reg
  steady : W.Steady
  unissued : W.reg.Unissued s.reg.reg
  absent : Absent s.reg.reg newName
  mem : x.original ∈ s.reg.reg.distros
  named : nameOf x.original.2 = some name.units
  stored : Loaded (.new false) x.original.2 configAll x.stored
  conf : Creation.duplicateFile W x.stored confPath = .ok x.conf
  fits : MultiFits x.conf.env
  allowed : ¬ ((x.stored.isWsl2 || x.conf.isWsl2) = true ∧ version ≠ 0xffffffff)
  versioned : (x.original.2 vnVersion).bind RegValue.asDword = some x.version
  placed : (x.original.2 vnDir).bind RegValue.asSz = some x.source
  known : Format.ofVersion x.version = some x.reader.format
  source : W.normal x.source = .ok x.reader.base
  tree : ∀ time, W.tree time x.reader.base = x.reader.tree
  format : Format.ofVersion (Creation.chosen version x.version) = some x.format
  base : W.normal dir.units = .ok x.base
  apart : WslWriter.samePrefix x.base x.base.length x.reader.base = false
  inner : WslWriter.driveRoot x.base = false
  copyable : x.reader.Copyable W.fs x.format x.base
  copies : x.reader.Copies W.fs x.format x.base W.fuel

namespace Command
variable {W : World} {s t : Session upcase}

theorem duplicateReturns {x : Duplication} {name newName dir : CStr} {confPath : Wstr} {version : UInt32}
    (possible : x.Possible W name newName dir confPath version s) (new : s.copy.log = []) (fresh : W.fs.Fresh) :
    ∃ t, duplicate W name.units newName.units dir.units confPath version s = (.ok (),t) := by
  have serves := possible.serves
  obtain ⟨s1,copied⟩ := copiedConfigReturns serves possible.mem possible.named possible.stored possible.conf rfl
  have reg1 : s1.reg.reg = s.reg.reg := (copiedConfigIdle W name.units confPath).source copied
  have log1 : s1.copy.log = [] := by
    obtain ⟨-,log,-⟩ := copiedConfigSource serves.works.honest copied
    exact log.trans new
  obtain ⟨s2,versioned,reg2⟩ := versionReturns (s := s1) serves.works (reg1 ▸ serves.coherent) (reg1 ▸ possible.mem)
    possible.named possible.versioned
  have same : s2.reg = s.reg.reg := reg2.trans reg1
  obtain ⟨full,resolved⟩ := normalSource possible.base
  rw [duplicate,Program.bindOk copied]
  dsimp only
  have chosen : (if version ≠ 0xffffffff then version else x.version) = Creation.chosen version x.version := rfl
  rw [if_neg possible.allowed,Program.bindOk versioned,chosen]
  obtain ⟨s3,joined,copy3,step⟩ := newcomerReturns (s := {s1 with reg := s2}) (same ▸ serves) possible.steady
    (same ▸ possible.unissued) (same ▸ possible.absent) resolved (Creation.chosen version x.version) possible.fits
  dsimp only at joined
  rw [same] at joined
  rw [step]
  obtain ⟨format,s4,fourth⟩ := selectWriterReturns serves possible.steady
    (by rw [possible.format]; exact Option.some_ne_none _) resolved s3
  obtain ⟨known,reg4,base,clock,normal,begun⟩ := writerBegins possible.steady (copy3 ▸ log1) fourth
  obtain rfl : x.format = format := Option.some.inj (possible.format.symm.trans known)
  obtain rfl : x.base = base := Except.ok.inj (possible.base.symm.trans normal)
  have there : x.original ∈ s4.reg.reg.distros := by
    rw [reg4]
    refine (joined.others x.original fun called => ?_).mpr possible.mem
    exact possible.absent x.original possible.mem called
  obtain ⟨s5,placed,-⟩ := dirReturns (s := s4) serves.works (reg4 ▸ joined.coherent) there possible.named
    possible.placed
  obtain ⟨r,s6,sixth⟩ := selectReaderReturns possible.steady
    (by rw [possible.known]; exact Option.some_ne_none _) possible.source {s4 with reg := s5}
  obtain ⟨stands,-,clock',copy6⟩ := readerStands possible.steady sixth
  obtain rfl : r = x.reader := stands.same possible.known possible.source possible.tree
  have start : s6.copy = .newAt clock' [] x.format x.base x.reader.base := by
    rw [copy6]
    exact begun ▸ rfl
  have wsl := knownWsl possible.format
  obtain ⟨u,run,-⟩ := (WslReader.imageRun possible.copyable wsl fresh clock' W.fuel).2 possible.copies
  have checked := checkPathRun (s := s6.copy) wsl (by rw [start]; rfl) x.reader.base
  rw [possible.apart,possible.inner] at checked
  have whole : x.reader.runChecked W.fs x.format W.fuel s6.copy = (.ok (),u) := by
    rw [WslReader.runChecked,Program.bindOk checked,start,run]
  rw [Program.bindOk fourth,withWriter,Program.ensuring,Program.bindOk placed,Program.bindOk sixth,runChecked,onCopy,
    Program.zoom,whole]
  exact ⟨_,rfl⟩

/- A duplicate that has come to its end, whatever the system has answered: there is one more
distribution, which is configured like the first one unless a file says something else, and its
files are those of the first one. Where everything goes well there is such an end. -/
theorem duplicateShown (honest : W.reg.Honest) (all : W.reg.ListsAll) (steady : W.Steady)
    (unissued : W.reg.Unissued s.reg.reg) (distinct : s.reg.reg.Distinct) (new : s.copy.log = []) (fresh : W.fs.Fresh)
    (name newName dir : CStr) (confPath : Wstr) (version : UInt32) :
    (∀ t, duplicate W name.units newName.units dir.units confPath version s = (.ok (),t) → ∃ x : Duplication,
      x.Made W name.units newName.units dir.units confPath version s t ∧
      (confPath = [] → ∀ conf, Loaded (.new false) x.original.2 configAll conf →
        Loaded (.new false) x.new.2 configAll conf) ∧
      (x.reader.Copyable W.fs x.format x.base → WslReader.Emptied W.fs x.last → ∃ disk,
        Disk.image t.copy.log = some disk ∧
          (x.reader.original x.format x.base).Shows x.format x.reader.visits disk)) ∧
    (∀ x : Duplication, x.Possible W name newName dir confPath version s →
      ∃ t, duplicate W name.units newName.units dir.units confPath version s = (.ok (),t)) := by
  refine ⟨fun t run => ?_,fun x possible => duplicateReturns possible new fresh⟩
  obtain ⟨x,made⟩ := duplicateSource honest all steady unissued distinct new newName.noNul run
  refine ⟨x,made,fun none' conf loaded => ?_,fun copyable emptied => ?_⟩
  · obtain ⟨time,is⟩ := made.conf
    rw [if_neg (not_not.mpr none')] at is
    obtain ⟨_,full,-,values⟩ := made.added.full
    rw [values,← Except.ok.inj is,loadedUnique made.stored loaded]
    exact RegConfig.storedClear (RegConfig.loadedClear loaded) _ _
  · obtain ⟨clock,copied⟩ := made.copied
    rw [made.copy]
    exact (WslReader.imageRun copyable (knownWsl made.format) fresh clock W.fuel).1 x.last copied emptied

end Command

def placedUbuntu : Session asciiUpcase := {oneWsl2 with
  reg := ⟨0,0,⟨fun _ => none,FoldedTable.empty.insert oneId (newValues ubuntu.units (wstr "C:\\s") 2 fun _ => none)⟩⟩}
def otherIdWorld : World := {rootfsWorld with
  reg := {plainEnv with guid := fun _ => .ok (wstr "\x7b00000000-0000-0000-0000-000000000001\x7d")}}

def debianName : CStr := ⟨debian,by decide⟩
def debianDir : CStr := ⟨wstr "D:\\t",by decide⟩
def copiedUbuntu : Session asciiUpcase :=
  (Command.duplicate otherIdWorld ubuntu.units debianName.units debianDir.units [] 0xffffffff placedUbuntu).2

theorem ubuntuCopied : Command.duplicate otherIdWorld ubuntu.units debianName.units debianDir.units [] 0xffffffff
    placedUbuntu = (.ok (),copiedUbuntu) := by
  rw [copiedUbuntu]
  exact Program.returnedPair (by decide +kernel)

theorem placedDistinct : placedUbuntu.reg.reg.Distinct := by
  intro d mem e mem' _ _ _
  have one : placedUbuntu.reg.reg.distros = [(oneId,newValues ubuntu.units (wstr "C:\\s") 2 fun _ => none)] := rfl
  rw [one,List.mem_singleton] at mem mem'
  exact mem.trans mem'.symm

theorem otherIdUnissued : otherIdWorld.reg.Unissued placedUbuntu.reg.reg := by
  intro n id issued
  obtain rfl := Except.ok.inj issued
  exact ⟨by decide,by decide +kernel⟩

theorem duplicateShownUbuntu : ∃ x : Duplication, x.Made otherIdWorld ubuntu.units debianName.units debianDir.units []
    0xffffffff placedUbuntu copiedUbuntu := by
  have works : otherIdWorld.reg.Works := fun _ _ => rfl
  obtain ⟨x,made,-⟩ := (Command.duplicateShown works.honest works.listsAll (fun _ _ => rfl) otherIdUnissued
    placedDistinct rfl plainFresh ubuntu debianName debianDir [] 0xffffffff).1 copiedUbuntu ubuntuCopied
  exact ⟨x,made⟩

end LxRunOffline
