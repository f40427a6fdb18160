import LxRunOffline.CreationImages

/-! Distributions that have been installed from an archive, as they stand when the command comes to
its end. The archive is unpacked behind the registration, and a shortcut is made behind both. -/
namespace LxRunOffline
open Registry
open ArchiveReader (Orderly Reads)
variable {upcase : WChar → WChar}

structure Installation where
  conf : RegConfig
  format : Format
  base : Wstr
  reader : ArchiveReader
  new : Wstr × RegValues
  unpacked : CopyState
  last : CopyState

namespace Installation

def Configured (x : Installation) (W : World) (file confPath : Wstr) : Prop :=
  if confPath ≠ [] then ∃ time, (RegConfig.new false).loadFile confPath (W.config time confPath) = .ok x.conf
  else ∃ time, match (RegConfig.new false).loadFile (file ++ wstr ".xml") (W.config time (file ++ wstr ".xml")) with
    | .ok conf => x.conf = conf
    | .error e => e.msgCode = .errOpenFile ∧ x.conf = .new false

structure Made (x : Installation) (W : World) (name dir file root confPath : Wstr) (version : UInt32)
    (s t : Session upcase) : Prop where
  conf : x.Configured W file confPath
  format : Format.ofVersion version = some x.format
  base : W.normal dir = .ok x.base
  added : Reg.Newcomer W.reg name dir version (x.conf.store configAll) s.reg.reg t.reg.reg x.new
  reader : ∃ time, x.reader = ⟨file,root,(W.archive time file).1,(W.archive time file).2⟩
  extracted : ∃ clock source, x.reader.run W.fs x.format (.newAt clock [] x.format x.base source) = (.ok (),x.unpacked)
  later : ∃ clock, x.last = {x.unpacked with clock := clock}
  copy : t.copy = (FsWriter.destroy W.fs x.format x.last).2

end Installation
namespace Command
variable {W : World} {s t : Session upcase}

theorem installConfigSource {file confPath : Wstr} {conf : RegConfig}
    (run : installConfig W file confPath s = (.ok conf,t)) : t.copy.log = s.copy.log ∧
      ∀ x : Installation, x.conf = conf → x.Configured W file confPath := by
  rw [installConfig] at run
  by_cases given : confPath ≠ []
  · rw [if_pos given] at run
    obtain ⟨log,loaded⟩ := loadFileSource run
    refine ⟨log,fun x same => ?_⟩
    rw [Installation.Configured,if_pos given,same]
    exact loaded
  · rw [if_neg given] at run
    have beside (x : Installation) (time : Nat) (is : match
        (RegConfig.new false).loadFile (file ++ wstr ".xml") (W.config time (file ++ wstr ".xml")) with
        | .ok conf => x.conf = conf
        | .error e => e.msgCode = .errOpenFile ∧ x.conf = .new false) : x.Configured W file confPath := by
      rw [Installation.Configured,if_neg given]
      exact ⟨time,is⟩
    rcases Program.rescueSource run with loaded | ⟨e,u,failed,handled⟩
    · obtain ⟨log,time,is⟩ := loadFileSource loaded
      exact ⟨log,fun x same => beside x time (by rw [is]; exact same)⟩
    · obtain ⟨log,time,l,rfl,is⟩ := loadFileFails failed
      dsimp only at handled
      split at handled
      · rename_i missing
        cases handled
        exact ⟨log,fun x same => beside x time (by rw [is]; exact ⟨missing,same⟩)⟩
      · cases handled

theorem desktopShortcutLeaves (W : World) (name : Wstr) :
    Program.Leaves (@untimed upcase) (desktopShortcut W name) := by
  have called : Program.Leaves (@untimed upcase) (shellCall W) :=
    .bind (fun _ => rfl) fun _ => .ite (.raise _) (.pure _)
  have asked (path : Wstr) : Program.Leaves (@untimed upcase) (onReg (Reg.getFullPath W.reg path)) :=
    fun _ => rfl
  refine .bind called fun _ => .bind called fun _ => .bind called fun _ => .bind (fun _ => rfl) fun code => ?_
  refine .ite (fun _ => rfl) (.bind (.ite (.bind (asked _) fun _ => .pure _) (.pure _)) fun _ => ?_)
  exact .bind called fun _ => .bind (asked _) fun _ => called

theorem installSource (all : W.reg.ListsAll) (steady : W.Steady) (unissued : W.reg.Unissued s.reg.reg)
    (new : s.copy.log = []) {name dir file root confPath : Wstr} {version : UInt32} {shortcut : Bool} (noNul : 0 ∉ name)
    (run : install W name dir file root confPath version shortcut s = (.ok (),t)) :
    ∃ x : Installation, x.Made W name dir file root confPath version s t := by
  obtain ⟨conf,s1,first,run⟩ := Program.bindOkSource run
  obtain ⟨log1,configured⟩ := installConfigSource first
  have reg1 := (installConfigIdle W file confPath).source first
  obtain ⟨s2,newest,added,copy2,run⟩ := newcomerSource all (reg1 ▸ unissued) noNul run
  obtain ⟨format,s3,third,run⟩ := Program.bindOkSource run
  have log2 : s2.copy.log = [] := by rw [copy2,log1,new]
  obtain ⟨known,reg3,base,clock,normal,begun⟩ := writerBegins steady log2 third
  obtain ⟨s4,body,rfl⟩ := Program.ensuringSource run
  obtain ⟨_,s5,fifth,body⟩ := Program.bindOkSource body
  obtain ⟨found,s6,asked,fifth⟩ := Program.bindOkSource fifth
  cases asked
  obtain ⟨u,extracted,rfl⟩ := onCopySource fifth
  have linked : Program.Leaves (@untimed upcase) (Program.when (shortcut = true) (desktopShortcut W name)) :=
    .ite (desktopShortcutLeaves W name) (.pure _)
  have shell : Idle (Program.when (shortcut = true) (desktopShortcut W name) : Command upcase Unit) :=
    .when (.bind shellCallIdle fun _ => createShortcutIdle _ _)
  have same := linked.source body
  have reg4 := shell.source body
  have start : (Clocked.tick s3).copy = .newAt (clock+1) [] format base s2.copy.data := by
    change {s3.copy with clock := s3.copy.clock+1} = _
    rw [begun]
    rfl
  rw [start] at extracted
  refine ⟨⟨conf,format,base,_,newest,u,s4.copy⟩,configured _ rfl,known,normal,?_,⟨_,rfl⟩,⟨_,_,extracted⟩,
    ⟨s4.copy.clock,?_⟩,rfl⟩
  · have last : s4.reg.reg = s2.reg.reg := reg4.trans reg3
    rw [reg1] at added
    exact ⟨added.absent,added.guid,added.fresh,added.full,(congrArg distros last).trans added.distros⟩
  · exact congrArg (fun c : CopyState => {c with clock := s4.copy.clock}) same

structure Links (W : World) (name : Wstr) : Prop where
  shell : ∀ time, W.shortcut time = 0
  path : ∃ full, W.reg.fullPath 0 (W.desktop ++ [backslash] ++ name ++ wstr ".lnk") = .ok full

theorem shellCallRun (works : ∀ time, W.shortcut time = 0) (s : Session upcase) :
    shellCall W s = (.ok (),Clocked.tick s) := by
  simp only [shellCall,Program.bindRun,Fs.ask,works]
  rfl

theorem desktopShortcutReturns (steady : W.Steady) {name : Wstr} (links : Links W name) (s : Session upcase) :
    ∃ t, desktopShortcut W name s = (.ok (),t) := by
  obtain ⟨full,is⟩ := links.path
  have called := fun s : Session upcase => shellCallRun links.shell s
  have asked (s : Session upcase) : Fs.ask W.shortcut s = (.ok 0,Clocked.tick s) :=
    congrArg (fun code => (Except.ok code,Clocked.tick s)) (links.shell _)
  have stored (s : Session upcase) :
      ∃ t, onReg (Reg.getFullPath W.reg (W.desktop ++ [backslash] ++ name ++ wstr ".lnk")) s = (.ok full,t) :=
    ⟨_,onRegRun (Reg.getFullPathDone (by rw [steady,is]))⟩
  obtain ⟨u,resolved⟩ := stored (Clocked.tick (Clocked.tick (Clocked.tick (Clocked.tick (Clocked.tick s)))))
  refine ⟨Clocked.tick u,?_⟩
  have unnamed : Program.when (([] : Wstr) ≠ []) (do
      let _ ← onReg (Reg.getFullPath W.reg [])
      pure () : Command upcase Unit) = pure () := if_neg (by simp)
  rw [desktopShortcut,Program.bindOk (called _),createShortcut,Program.bindOk (called _),Program.bindOk (called _),
    Program.bindOk (asked _),if_neg (by simp),unnamed]
  change (do
    shellCall W
    let _ ← onReg (Reg.getFullPath W.reg (W.desktop ++ [backslash] ++ name ++ wstr ".lnk"))
    shellCall W : Command upcase Unit) _ = _
  rw [Program.bindOk (called _),Program.bindOk resolved,called]

end Command

structure Installation.Possible (x : Installation) (W : World) (members : List Member) (name dir : CStr)
    (file root confPath : Wstr) (version : UInt32) (shortcut : Bool) (s : Session upcase) : Prop where
  serves : W.Serves s.reg.reg
  steady : W.Steady
  unissued : W.reg.Unissued s.reg.reg
  absent : Absent s.reg.reg name
  conf : Creation.installFile W file confPath = .ok x.conf
  fits : MultiFits x.conf.env
  format : Format.ofVersion version = some x.format
  base : W.normal dir.units = .ok x.base
  works : W.fs.Works
  reader : ∀ time, x.reader = ⟨file,root,(W.archive time file).1,(W.archive time file).2⟩
  orderly : Orderly x.reader.rootPath x.format x.base members
  reads : List.Forall₂ Reads members x.reader.entries
  ending : x.reader.ending = .eof
  links : shortcut = true → Command.Links W name.units

namespace Command
variable {W : World} {s t : Session upcase}

theorem installReturns {x : Installation} {members : List Member} {name dir : CStr} {file root confPath : Wstr}
    {version : UInt32} {shortcut : Bool}
    (possible : x.Possible W members name dir file root confPath version shortcut s) (new : s.copy.log = []) :
    ∃ t, install W name.units dir.units file root confPath version shortcut s = (.ok (),t) := by
  have serves := possible.serves
  have found : (installConfig W file confPath s).1 = .ok x.conf := by
    rw [installConfigOutcome serves,possible.conf]
    rfl
  obtain ⟨s1,configured⟩ : ∃ s1, installConfig W file confPath s = (.ok x.conf,s1) := ⟨_,Prod.ext found rfl⟩
  have reg1 := (installConfigIdle W file confPath).source configured
  have log1 : s1.copy.log = [] := (installConfigSource configured).1.trans new
  obtain ⟨full,resolved⟩ := normalSource possible.base
  obtain ⟨s2,-,copy2,step⟩ := newcomerReturns (s := s1) (reg1 ▸ serves) possible.steady (reg1 ▸ possible.unissued)
    (reg1 ▸ possible.absent) resolved version possible.fits
  obtain ⟨format,s3,third⟩ := selectWriterReturns serves possible.steady
    (by rw [possible.format]; exact Option.some_ne_none _) resolved s2
  obtain ⟨known,-,base,clock,normal,begun⟩ := writerBegins possible.steady (copy2 ▸ log1) third
  obtain rfl : x.format = format := Option.some.inj (possible.format.symm.trans known)
  obtain rfl : x.base = base := Except.ok.inj (possible.base.symm.trans normal)
  obtain ⟨u,unpacked,-⟩ := ArchiveReader.runWorks possible.works (clock+1) s2.copy.data (knownWsl known) possible.ending
    possible.reads possible.orderly.types
  have start : (Clocked.tick s3).copy = .newAt (clock+1) [] x.format x.base s2.copy.data := by
    change {s3.copy with clock := s3.copy.clock+1} = _
    rw [begun]
    rfl
  have extracted : ∃ s4, extract W file root x.format s3 = (.ok (),s4) := by
    have asked : (Fs.ask fun time => W.archive time file : Command upcase _) s3 = (.ok _,Clocked.tick s3) := rfl
    rw [extract,Program.bindOk asked,onCopy,Program.zoom,start,← possible.reader,unpacked]
    exact ⟨_,rfl⟩
  obtain ⟨s4,extracted⟩ := extracted
  have linked : ∃ s5, Program.when (shortcut = true) (desktopShortcut W name.units) s4 = (.ok (),s5) := by
    by_cases wanted : shortcut = true
    · rw [Program.when,if_pos wanted]
      exact desktopShortcutReturns possible.steady (possible.links wanted) s4
    · rw [Program.when,if_neg wanted]
      exact ⟨s4,rfl⟩
  obtain ⟨s5,linked⟩ := linked
  rw [install,Program.bindOk configured,step,Program.bindOk third,withWriter,Program.ensuring,Program.bindOk extracted,
    linked]
  exact ⟨_,rfl⟩

/- An installation that has come to its end, whatever the system has answered: there is one more
distribution, with the configuration of the file, and the members of the archive are its files.
Where everything goes well there is such an end. -/
theorem installShown (all : W.reg.ListsAll) (steady : W.Steady) (unissued : W.reg.Unissued s.reg.reg)
    (new : s.copy.log = []) (fresh : W.fs.Fresh) (name dir : CStr) (file root confPath : Wstr) (version : UInt32)
    (shortcut : Bool) :
    (∀ t, install W name.units dir.units file root confPath version shortcut s = (.ok (),t) → ∃ x : Installation,
      x.Made W name.units dir.units file root confPath version s t ∧
      (x.conf.Clear → Loaded (.new false) x.new.2 configAll x.conf) ∧
      (∀ members, Orderly root x.format x.base members → List.Forall₂ Reads members x.reader.entries →
        x.reader.ending = .eof → WslReader.Emptied W.fs x.last → ∃ disk, Disk.image t.copy.log = some disk ∧
          (ArchiveReader.original root x.format x.base members).Shows x.format (none :: members.map some) disk)) ∧
    (∀ (x : Installation) (members : List Member),
      x.Possible W members name dir file root confPath version shortcut s →
        ∃ t, install W name.units dir.units file root confPath version shortcut s = (.ok (),t)) := by
  refine ⟨fun t run => ?_,fun x members possible => installReturns possible new⟩
  obtain ⟨x,made⟩ := installSource all steady unissued new name.noNul run
  refine ⟨x,made,fun clear => ?_,fun members orderly reads ending emptied => ?_⟩
  · obtain ⟨_,full,-,values⟩ := made.added.full
    exact values ▸ RegConfig.storedClear clear _ _
  · obtain ⟨time,reader⟩ := made.reader
    obtain rfl : x.reader.rootPath = root := by rw [reader]
    obtain ⟨clock,source,extracted⟩ := made.extracted
    have depicted := ArchiveReader.unpackedDepicted clock source (knownWsl made.format) fresh orderly reads ending
      extracted
    obtain ⟨later,last⟩ := made.later
    have still := depicted.silent (t := x.last) (by rw [last]) (by rw [last])
    rw [made.copy]
    exact still.destroyed (orderly.sound fun _ mem => mem) (knownWsl made.format) emptied

end Command

def packedWorld : World := {oneIdWorld with archive := fun _ _ => (packedArchive.entries,.eof)}
def packedInstalled : Session asciiUpcase :=
  (Command.install packedWorld ubuntu.units debianDir.units (wstr "a.tar") [] [] 2 true emptySession).2

theorem packedInstall : Command.install packedWorld ubuntu.units debianDir.units (wstr "a.tar") [] [] 2 true
    emptySession = (.ok (),packedInstalled) := by
  rw [packedInstalled]
  exact Program.returnedPair (by decide +kernel)

theorem installShownPacked : ∃ x : Installation,
    x.Made packedWorld ubuntu.units debianDir.units (wstr "a.tar") [] [] 2 emptySession packedInstalled := by
  have works : packedWorld.reg.Works := fun _ _ => rfl
  have unissued : packedWorld.reg.Unissued emptySession.reg.reg := by
    intro n id issued
    obtain rfl := Except.ok.inj issued
    exact ⟨by decide,by decide⟩
  obtain ⟨x,made,-⟩ := (Command.installShown works.listsAll (fun _ _ => rfl) unissued rfl plainFresh ubuntu debianDir
    (wstr "a.tar") [] [] 2 true).1 packedInstalled packedInstall
  exact ⟨x,made⟩

end LxRunOffline
