import LxRunOffline.InstallImage

/-! A distribution that is exported and installed again from what has been exported, in another
process and perhaps on another machine: it has the configuration of the first one and its files. -/
namespace LxRunOffline
open Registry
open Member (membersOf)
open ArchiveReader (rootAttr)
variable {upcase : WChar → WChar}

structure Exportation where
  original : Wstr × RegValues
  conf : RegConfig
  version : UInt32
  source : Wstr
  reader : WslReader
  saved : ConfigElement
  last : CopyState

structure Exportation.Made (x : Exportation) (W : World) (name file : Wstr) (s t : Session upcase) : Prop where
  mem : x.original ∈ s.reg.reg.distros
  named : nameOf x.original.2 = some name
  stored : Loaded (.new false) x.original.2 configAll x.conf
  wsl1 : x.conf.isWsl2 = false
  versioned : (x.original.2 vnVersion).bind RegValue.asDword = some x.version
  placed : (x.original.2 vnDir).bind RegValue.asSz = some x.source
  reader : x.reader.Stands W x.version x.source
  exported : ∃ clock answers, x.reader.run W.fs .linux W.fuel (.newAt clock answers .linux [] x.reader.base) =
    (.ok (),x.last)
  log : t.copy.log = x.last.log
  saves : x.conf.saveFile W.reread (file ++ wstr ".xml") 0 none = .ok x.saved
  registry : t.reg.reg = s.reg.reg

def unanswered (s : CopyState) : CopyState := {s with clock := 0, answers := []}

theorem openArchiveLeaves (env : FsEnv) (path : Wstr) :
    Program.Leaves unanswered (ArchiveWriter.openArchive env path) := by
  have asked (c : FsCall) : Program.Leaves unanswered (FsWriter.askLibrary env c) := fun _ => rfl
  have checked (stat : ArchiveStatus) : Program.Leaves unanswered (Fs.checkArchive stat : Copy Bool) := by
    intro s
    cases stat <;> rfl
  exact .bind (asked _) fun _ => .bind (checked _) fun _ => .bind (asked _) fun _ => .bind (checked _) fun _ =>
    .bind (asked _) fun _ => .bind (checked _) fun _ => .pure _

namespace RegConfig
variable {reread : Bytes → Option Bytes} {conf : RegConfig} {path : Wstr} {root : ConfigElement}

theorem saveFileSource {opened : UInt32} {saved : Option Wstr}
    (run : conf.saveFile reread path opened saved = .ok root) :
    opened = 0 ∧ saved = none ∧ ∃ envs cmd, setTexts reread conf.env = .ok envs ∧
      setText reread conf.kernelCmd = .ok cmd ∧
        root = ⟨some envs,some (.ok conf.uid),some cmd,some (.ok conf.flags)⟩ := by
  rw [saveFile] at run
  by_cases opens : opened ≠ 0
  · rw [if_pos opens] at run
    cases run
  rw [if_neg opens] at run
  cases envs : setTexts reread conf.env with
  | error e => simp [envs,bind,Except.bind] at run
  | ok texts =>
    cases cmd : setText reread conf.kernelCmd with
    | error e => simp [envs,cmd,bind,Except.bind] at run
    | ok text =>
      cases saved with
      | some name => simp [envs,cmd,bind,Except.bind] at run
      | none =>
        simp only [envs,cmd,bind,Except.bind,Except.ok.injEq] at run
        exact ⟨not_not.mp opens,rfl,texts,text,rfl,rfl,run.symm⟩

theorem savedLoads (xml : XmlKeeps reread)
    (storable : ∀ text ∈ conf.kernelCmd :: conf.env, Storable text ∧ Importable text)
    (run : conf.saveFile reread path 0 none = .ok root) (old : RegConfig) (path' : Wstr) :
    old.loadFile path' (.config root) = .ok conf := by
  obtain ⟨-,-,envs,cmd,setAll,set,rfl⟩ := saveFileSource run
  have own := (textRead xml (storable _ List.mem_cons_self).1).mpr (storable _ List.mem_cons_self).2
  have all := (textsRead xml fun text mem => (storable text (List.mem_cons_of_mem _ mem)).1).mpr
    fun text mem => (storable text (List.mem_cons_of_mem _ mem)).2
  rw [set] at own
  rw [setAll] at all
  have cmdRead : cmd.read = .ok conf.kernelCmd := own
  have envRead : XmlText.readAll envs = .ok conf.env := all
  obtain ⟨_,_,_,_⟩ := conf
  simp only [loadFile,loadElement,loadEnvs,loadNumber,loadKernelCmd,bind,Except.bind,cmdRead,envRead]

end RegConfig
namespace Command
variable {W : World} {s t : Session upcase}

theorem saveFileSource {conf : RegConfig} {path : Wstr} {root : ConfigElement}
    (run : saveFile W conf path s = (.ok root,t)) :
    conf.saveFile W.reread path 0 none = .ok root ∧ untimed t = untimed s ∧ t.reg = s.reg := by
  obtain ⟨opened,u,first,run⟩ := Program.bindOkSource run
  obtain ⟨saved,v,second,run⟩ := Program.bindOkSource run
  cases first
  cases second
  cases stored : conf.saveFile W.reread path (W.opened (Clocked.clock s) path)
      (W.saved (Clocked.clock (Clocked.tick s)) path) with
  | error e =>
    rw [stored] at run
    cases run
  | ok root' =>
    rw [stored] at run
    cases run
    obtain ⟨opens,saves,-⟩ := RegConfig.saveFileSource stored
    rw [opens,saves] at stored
    exact ⟨stored,rfl,rfl⟩

theorem exportSource (honest : W.reg.Honest) (steady : W.Steady) (distinct : s.reg.reg.Distinct)
    (new : s.copy.log = []) {name file : Wstr} (run : exportDistro W name file s = (.ok (),t)) :
    ∃ x : Exportation, x.Made W name file s t := by
  obtain ⟨conf,s1,first,run⟩ := Program.bindOkSource run
  obtain ⟨reg1,copy1,d,mem,named,stored⟩ := findsSource (Reg.loadDistroFinds honest (.new false) name configAll) first
  split at run
  · cases run
  rename_i wsl1
  obtain ⟨_,s2,second,run⟩ := Program.bindOkSource run
  cases second
  obtain ⟨s3,body,rfl⟩ := Program.ensuringSource run
  obtain ⟨_,s4,opened,body⟩ := Program.bindOkSource body
  obtain ⟨u,began,rfl⟩ := onCopySource opened
  have begun := (openArchiveLeaves W.fs file).source began
  obtain ⟨version,s5,fifth,body⟩ := Program.bindOkSource body
  obtain ⟨reg5,copy5,e,there,called,versioned⟩ := findsSource (getDistroVersionFinds W.reg name) fifth
  obtain rfl : d = e := distinct d mem e (reg1 ▸ there) name named called
  obtain ⟨source,s6,sixth,body⟩ := Program.bindOkSource body
  obtain ⟨reg6,copy6,e,there,called,placed⟩ := findsSource (getDistroDirFinds W.reg name) sixth
  obtain rfl : d = e := distinct d mem e (reg1 ▸ reg5 ▸ there) name named called
  obtain ⟨r,s7,seventh,body⟩ := Program.bindOkSource body
  obtain ⟨stands,reg7,clock,copy7⟩ := readerStands steady seventh
  obtain ⟨_,s8,eighth,body⟩ := Program.bindOkSource body
  obtain ⟨last,exported,rfl⟩ := onCopySource eighth
  obtain ⟨root,s9,ninth,body⟩ := Program.bindOkSource body
  obtain ⟨saves,same,reg9⟩ := saveFileSource ninth
  cases body
  have start : s7.copy = .newAt clock u.answers .linux [] r.base := by
    have fields : u = {unanswered u with clock := u.clock, answers := u.answers} := rfl
    rw [copy7,copy6,copy5]
    dsimp only
    rw [fields,begun]
    simp only [unanswered,Program.modify,copy1,new]
    rfl
  rw [start] at exported
  refine ⟨⟨d,conf,version,source,r,root,last⟩,mem,named,stored,Bool.eq_false_iff.mpr wsl1,versioned,placed,stands,
    ⟨_,_,exported⟩,?_,saves,?_⟩
  · change (untimed s3).log = _
    rw [same]
    rfl
  · exact (congrArg RegState.reg reg9).trans (reg7.trans (reg6.trans (reg5.trans reg1)))

end Command

/- What the export has made is there under another name: the library delivers every member, and the
file beside the archive is the one that has been saved. -/
structure Exportation.Carried (x : Exportation) (W : World) (file : Wstr) : Prop where
  members : ∀ time, List.Forall₂ Delivers (membersOf x.last.log) (W.archive time file).1
  ending : ∀ time, (W.archive time file).2 = .eof
  saved : ∀ time, W.config time (file ++ wstr ".xml") = .config x.saved

theorem Exportation.Carried.configured {x : Exportation} {y : Installation} {W W' : World} {name file file' : Wstr}
    {s t : Session upcase} (carried : x.Carried W' file') (made : x.Made W name file s t) (xml : XmlKeeps W.reread)
    (storable : ∀ text ∈ x.conf.kernelCmd :: x.conf.env, Storable text ∧ Importable text)
    (configured : y.Configured W' file' []) : y.conf = x.conf := by
  rw [Installation.Configured,if_neg (by simp)] at configured
  obtain ⟨time,is⟩ := configured
  rw [carried.saved,RegConfig.savedLoads xml storable made.saves] at is
  exact is

/- A distribution that is exported and installed again: the new one is configured like the old one if
the texts of that can be stored and imported, and its disk shows every entry below the root of the
old one. -/
theorem Command.distroTrip {W : World} {s t : Session upcase} (honest : W.reg.Honest) (steady : W.Steady)
    (distinct : s.reg.reg.Distinct) (new : s.copy.log = []) (xml : XmlKeeps W.reread) {name file : Wstr}
    (run : exportDistro W name file s = (.ok (),t)) :
    ∃ x : Exportation, x.Made W name file s t ∧
      ∀ {W' : World} {s' t' : Session upcase} (newName dir : CStr) (file' : Wstr) (version : UInt32) (shortcut : Bool),
        W'.reg.ListsAll → W'.Steady → W'.reg.Unissued s'.reg.reg → s'.copy.log = [] → x.Carried W' file' →
        install W' newName.units dir.units file' [] [] version shortcut s' = (.ok (),t') → ∃ y : Installation,
          y.Made W' newName.units dir.units file' [] [] version s' t' ∧
          ((∀ text ∈ x.conf.kernelCmd :: x.conf.env, Storable text ∧ Importable text) →
            y.conf = x.conf ∧ Loaded (.new false) y.new.2 configAll x.conf) ∧
          (x.reader.Copyable W.fs .linux [] → x.reader.Unmistaken y.format → x.reader.TakenWhole W.fs →
            x.reader.SizesTrue → W'.fs.Fresh → WslReader.Emptied W'.fs y.last →
            ∃ disk, Disk.image t'.copy.log = some disk ∧ (x.reader.unpacked y.format y.base).Shows y.format
              (none :: (x.reader.visits.filter x.reader.Listed).map some) disk) := by
  obtain ⟨x,made⟩ := exportSource honest steady distinct new run
  refine ⟨x,made,fun newName dir file' version shortcut all steady' unissued new' carried installed => ?_⟩
  obtain ⟨y,got⟩ := installSource all steady' unissued new' newName.noNul installed
  refine ⟨y,got,fun storable => ?_,fun copyable unmistaken whole sizes fresh emptied => ?_⟩
  · have same := carried.configured made xml storable got.conf
    obtain ⟨_,full,-,values⟩ := got.added.full
    refine ⟨same,?_⟩
    rw [values,same]
    exact RegConfig.storedClear (RegConfig.loadedClear made.stored) _ _
  · obtain ⟨clock,answers,exported⟩ := made.exported
    obtain ⟨time,reader⟩ := got.reader
    have root : y.reader.rootPath = [] := by rw [reader]
    have kept : List.Forall₂ Delivers (membersOf x.last.log) y.reader.entries := by
      rw [reader]
      exact carried.members time
    have ending : y.reader.ending = .eof := by
      rw [reader]
      exact carried.ending time
    have wsl := knownWsl got.format
    obtain ⟨members,orderly,reads,shown⟩ :=
      WslReader.tripRead y.base clock answers copyable unmistaken wsl whole sizes exported root kept
    obtain ⟨clock',source,extracted⟩ := got.extracted
    have depicted := ArchiveReader.unpackedDepicted clock' source wsl fresh orderly reads ending extracted
    obtain ⟨later,last⟩ := got.later
    have still := depicted.silent (t := y.last) (by rw [last]) (by rw [last])
    rw [got.copy]
    obtain ⟨disk,image,shows⟩ := still.destroyed (orderly.sound fun _ mem => mem) wsl emptied
    exact ⟨disk,image,shown disk shows⟩

instance : DecidablePred Importable := fun _ => inferInstanceAs (Decidable (_ ∧ _))

def rootedUbuntu : RegValues := newValues ubuntu.units (wstr "C:\\s") 1 fun _ => none
def rootedSession : Session asciiUpcase :=
  {oneWsl2 with reg := ⟨0,0,⟨fun _ => none,FoldedTable.empty.insert oneId rootedUbuntu⟩⟩}
def rootedWorld : World := {plainWorld bareConfig with tree := fun _ _ => rootedTwice.tree, fuel := 4}
def rootedStored : Session asciiUpcase :=
  (Command.exportDistro rootedWorld ubuntu.units (wstr "u.tar") rootedSession).2

def carriedWorld (saved : ConfigElement) : World := {oneIdWorld with
  config := fun _ _ => .config saved
  archive := fun _ _ => (rootedArchive.entries,.eof)}
def rootedSaved : ConfigElement where
  envs := (RegConfig.setTexts plainXml (RegConfig.new false).env).toOption
  uid := some (.ok 0)
  kernelCmd := (RegConfig.setText plainXml (RegConfig.new false).kernelCmd).toOption
  flags := some (.ok 7)
def rootedInstalled : Session asciiUpcase :=
  (Command.install (carriedWorld rootedSaved) ubuntu.units debianDir.units (wstr "a.tar") [] [] 2 false emptySession).2

theorem rootedExports :
    Command.exportDistro rootedWorld ubuntu.units (wstr "u.tar") rootedSession = (.ok (),rootedStored) := by
  rw [rootedStored]
  exact Program.returnedPair (by decide +kernel)

theorem rootedInstall :
    Command.install (carriedWorld rootedSaved) ubuntu.units debianDir.units (wstr "a.tar") [] [] 2 false emptySession =
      (.ok (),rootedInstalled) := by
  rw [rootedInstalled]
  exact Program.returnedPair (by decide +kernel)

theorem rootedDistinct : rootedSession.reg.reg.Distinct := by
  intro d mem e mem' _ _ _
  have one : rootedSession.reg.reg.distros = [(oneId,rootedUbuntu)] := rfl
  rw [one,List.mem_singleton] at mem mem'
  exact mem.trans mem'.symm

section Rooted
variable {x : Exportation} (made : x.Made rootedWorld ubuntu.units (wstr "u.tar") rootedSession rootedStored)
include made

theorem rootedOriginal : x.original = (oneId,rootedUbuntu) := by
  have mem : x.original ∈ [(oneId,rootedUbuntu)] := made.mem
  exact List.mem_singleton.mp mem

theorem rootedConf : x.conf = .new false := by
  have unset : Loaded (.new false) x.original.2 configAll (.new false) := by
    rw [rootedOriginal made]
    exact ⟨.inl ⟨rfl,rfl⟩,.inl ⟨rfl,rfl⟩,.inl ⟨rfl,rfl⟩,.inl ⟨rfl,rfl⟩⟩
  exact loadedUnique made.stored unset

theorem rootedReader : x.reader = rootedTwice := by
  have versioned := made.versioned
  have placed := made.placed
  rw [rootedOriginal made] at versioned placed
  have stands := made.reader
  rw [← Option.some.inj versioned,← Option.some.inj placed] at stands
  exact stands.same rfl (by decide +kernel) fun _ => rfl

theorem rootedCarried : x.Carried (carriedWorld rootedSaved) (wstr "a.tar") := by
  have saved : x.saved = rootedSaved := by
    obtain ⟨-,-,envs,cmd,texts,text,is⟩ := RegConfig.saveFileSource (rootedConf made ▸ made.saves)
    have known : RegConfig.setTexts plainXml (RegConfig.new false).env = .ok envs := texts
    have known' : RegConfig.setText plainXml (RegConfig.new false).kernelCmd = .ok cmd := text
    rw [is,rootedSaved,known,known']
    rfl
  have members : membersOf x.last.log =
      [.file (wstr "f") {rootAttr with mode := 0x81a4} [],.link (wstr "g") (wstr "f")] := by
    rw [← made.log]
    decide +kernel
  exact ⟨fun _ => members ▸ rootedDelivers,fun _ => rfl,fun _ => by rw [saved]; rfl⟩

end Rooted

theorem distroTripRooted : ∃ y : Installation,
    y.Made (carriedWorld rootedSaved) ubuntu.units debianDir.units (wstr "a.tar") [] [] 2 emptySession rootedInstalled ∧
      y.conf = .new false ∧ ∃ disk, Disk.image rootedInstalled.copy.log = some disk ∧
        (rootedTwice.unpacked .v2 y.base).Shows .v2 (none :: (rootedTwice.visits.filter rootedTwice.Listed).map some)
          disk := by
  have works : rootedWorld.reg.Works := fun _ _ => rfl
  have works' : (carriedWorld rootedSaved).reg.Works := fun _ _ => rfl
  have unissued : (carriedWorld rootedSaved).reg.Unissued emptySession.reg.reg := by
    intro n id issued
    obtain rfl := Except.ok.inj issued
    exact ⟨by decide,by decide⟩
  obtain ⟨x,made,trip⟩ := Command.distroTrip works.honest (fun _ _ => rfl) rootedDistinct rfl plainXmlKeeps rootedExports
  obtain ⟨y,got,configured,shows⟩ := trip ubuntu debianDir (wstr "a.tar") 2 false works'.listsAll (fun _ _ => rfl)
    unissued rfl (rootedCarried made) rootedInstall
  have format : y.format = .v2 := (Option.some.inj got.format).symm
  have conf := rootedConf made
  rw [rootedReader made,format] at shows
  have disk := shows rootedCopyable rootedUnmistaken (fun _ _ _ _ => plainTakes _) rootedSizes plainFresh
    (WslReader.emptiedWorks plainWorks y.last)
  exact ⟨y,got,(configured (by rw [conf]; decide +kernel)).1.trans conf,disk⟩

end LxRunOffline
