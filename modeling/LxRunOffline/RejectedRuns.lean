import LxRunOffline.DistroMap
import LxRunOffline.Rejection

/-! Installations and duplications where no call of the registry fails: how each step of theirs
ends, and with it which of them are rejected with a distribution left behind. -/
namespace LxRunOffline
open Registry
variable {upcase : WChar → WChar} {α : Type}

structure Joined (r : Registry upcase) (name : CStr) (r' : Registry upcase) : Prop where
  coherent : r'.Coherent
  there : ∃ d ∈ r'.distros, nameOf d.2 = some name.units
  others : ∀ d, nameOf d.2 ≠ some name.units → (d ∈ r'.distros ↔ d ∈ r.distros)

theorem loadedUnique {conf a b : RegConfig} {values : RegValues} {desired : UInt32}
    (ha : Loaded conf values desired a) (hb : Loaded conf values desired b) : a = b := by
  have one {β : Type} {pick : RegValue → Option β} {value x y : β} {item : Option RegValue}
      {c : Prop} [Decidable c] (hx : if c then Reg.Stored pick value item x else x = value)
      (hy : if c then Reg.Stored pick value item y else y = value) : x = y := by
    split at hx
    · rw [if_pos (by assumption)] at hy
      rcases hx with ⟨none',rfl⟩ | ⟨v,is,fits⟩ <;> rcases hy with ⟨none'',rfl⟩ | ⟨v',is',fits'⟩
      · rfl
      · simp [none'] at is'
      · simp [none''] at is
      · rw [is] at is'
        cases Option.some.inj is'
        exact Option.some.inj (fits.symm.trans fits')
    · rw [if_neg (by assumption)] at hy
      exact hx.trans hy.symm
  have env := one ha.env hb.env
  have uid := one ha.uid hb.uid
  have kernelCmd := one ha.kernelCmd hb.kernelCmd
  have flags := one ha.flags hb.flags
  obtain ⟨env₁,cmd₁,uid₁,flags₁⟩ := a
  obtain ⟨env₂,cmd₂,uid₂,flags₂⟩ := b
  exact RegConfig.mk.injEq .. ▸ ⟨env,kernelCmd,uid,flags⟩

namespace Reg
variable {env : RegEnv} {r : Registry upcase}

theorem getItemReturns (works : env.Works) {s : RegState upcase} (coherent : s.reg.Coherent)
    {d : Wstr × RegValues} (mem : d ∈ s.reg.distros) {name : Wstr} (named : nameOf d.2 = some name)
    {pick : RegValue → Option α} {item : Wstr} {a : α} (stored : (d.2 item).bind pick = some a) :
    ∃ t, (getDistroId env name >>= fun id => getValue env pick id item) s = (.ok a,t) := by
  obtain ⟨calls,⟨e,here,named',run⟩ | ⟨absent,-⟩⟩ := @getDistroIdRun _ env s works coherent.named name
  · have one := List.inj_on_of_nodup_map coherent.distinct here mem (named'.trans named.symm)
    subst one
    obtain ⟨v,is,fits⟩ := Option.bind_eq_some_iff.mp stored
    have read : (s.after calls).reg.read e.1 item = some v := (readDistro here rfl item).trans is
    exact ⟨_,by rw [Program.bindOk run,getValueRun works read fits]⟩
  · exact absurd named (absent d mem)

theorem registerJoins (works : env.Works) {s : RegState upcase} (coherent : s.reg.Coherent)
    (fresh : Fresh env s) {name path : CStr} (version : UInt32) (absent : Absent s.reg name)
    (resolves : ∀ time, ∃ full, env.fullPath time path.units = .ok full) :
    ∃ t, registerDistro env name.units path.units version s = (.ok (),t) ∧ Joined s.reg name t.reg := by
  have step := registerDistroStep works coherent fresh name path version resolves
  have after := stepCoherent step coherent
  have others := stepKeeps step
  unfold Stepped at step
  cases run : registerDistro env name.units path.units version s with
  | mk outcome t =>
    obtain ⟨clock,issued,r'⟩ := t
    rw [run] at step after others
    dsimp only at step after others
    cases step with
    | notFound searches => exact searches.elim
    | exists' mem named => exact absurd named (absent _ mem)
    | registerFirst full guid unused | registerMore full guid unused =>
      exact ⟨_,rfl,after,⟨_,(addedMember guid unused).mpr (.inr rfl),
        newValuesName name full version fun _ => none⟩,others⟩

theorem configureJoined (works : env.Works) {s : RegState upcase} {name : CStr}
    (joined : Joined r name s.reg) {conf : RegConfig} (fits : MultiFits conf.env) (desired : UInt32) :
    ∃ t, configureDistro env conf name.units desired s = (.ok (),t) ∧ Joined r name t.reg := by
  have step := configureDistroStep works joined.coherent.named conf name desired
  have after := stepCoherent step joined.coherent
  have others := stepKeeps step
  unfold Stepped at step
  cases run : configureDistro env conf name.units desired s with
  | mk outcome t =>
    obtain ⟨clock,issued,r'⟩ := t
    rw [run] at step after others
    dsimp only at step after others
    obtain ⟨d,mem,named⟩ := joined.there
    cases step with
    | notFound _ absent => exact absurd named (absent d mem)
    | configureTooLong _ _ _ long => exact absurd fits long
    | @configure e here _ _ _ is =>
      refine ⟨_,rfl,after,⟨(e.1,conf.store desired e.2),?_,by rw [storeName,is]⟩,
        fun x other => (others x other).trans (joined.others x other)⟩
      rw [editedDistros]
      exact List.mem_map.mpr ⟨e,here,by simp⟩

end Reg

namespace Command
variable {W : World} {r : Registry upcase} {x : Command upcase α}

theorem loadFileOutcome (serves : W.Serves r) (conf : RegConfig) (path : Wstr) (s : Session upcase) :
    (loadFile W conf path s).1 = (conf.loadFile path (W.config 0 path)).mapError .lro := by
  simp only [loadFile,Program.bindRun,Fs.ask,serves.config]
  cases conf.loadFile path (W.config 0 path) <;> rfl

theorem installConfigOutcome (serves : W.Serves r) (file confPath : Wstr) (s : Session upcase) :
    (installConfig W file confPath s).1 = (Creation.installFile W file confPath).mapError .lro := by
  rw [installConfig,Creation.installFile]
  by_cases given : confPath ≠ []
  · rw [if_pos given,if_pos given,loadFileOutcome serves]
  · rw [if_neg given,if_neg given]
    have loaded := loadFileOutcome serves (.new false) (file ++ wstr ".xml") s
    cases ran : loadFile W (.new false) (file ++ wstr ".xml") s with
    | mk outcome t =>
      rw [ran] at loaded
      dsimp only at loaded ⊢
      cases found : (RegConfig.new false).loadFile (file ++ wstr ".xml")
        (W.config 0 (file ++ wstr ".xml")) with
      | ok conf =>
        rw [found] at loaded
        subst loaded
        rw [catchLro,Program.rescueOk ran]
        rfl
      | error e =>
        rw [found] at loaded
        subst loaded
        rw [catchLro,Program.rescueError ran]
        by_cases missing : e.msgCode = .errOpenFile
        · simp only [if_pos missing]
          rfl
        · simp only [if_neg missing]
          rfl

theorem onRegRun {y : RegProgram upcase α} {s : Session upcase} {outcome : Except Stop α}
    {t : RegState upcase} (run : y s.reg = (outcome,t)) : onReg y s = (outcome,{s with reg := t}) := by
  rw [onReg,Program.zoom,run]

section Stored
variable {s : Session upcase} {d : Wstr × RegValues} {name : Wstr}

theorem versionReturns (works : W.reg.Works) (coherent : s.reg.reg.Coherent)
    (mem : d ∈ s.reg.reg.distros) (named : nameOf d.2 = some name) {version : UInt32}
    (stored : (d.2 vnVersion).bind RegValue.asDword = some version) :
    ∃ t, onReg (Reg.getDistroVersion W.reg name) s = (.ok version,{s with reg := t}) ∧
      t.reg = s.reg.reg := by
  obtain ⟨t,run⟩ := Reg.getItemReturns works coherent mem named stored
  have run : Reg.getDistroVersion W.reg name s.reg = (.ok version,t) := run
  have kept := (@Reg.getDistroVersionReads _ W.reg name).leaves s.reg
  rw [run] at kept
  exact ⟨t,onRegRun run,kept⟩

theorem dirReturns (works : W.reg.Works) (coherent : s.reg.reg.Coherent)
    (mem : d ∈ s.reg.reg.distros) (named : nameOf d.2 = some name) {dir : Wstr}
    (stored : (d.2 vnDir).bind RegValue.asSz = some dir) :
    ∃ t, onReg (Reg.getDistroDir W.reg name) s = (.ok dir,{s with reg := t}) ∧
      t.reg = s.reg.reg := by
  obtain ⟨t,run⟩ := Reg.getItemReturns works coherent mem named stored
  have run : Reg.getDistroDir W.reg name s.reg = (.ok dir,t) := run
  have kept := (@Reg.getDistroDirReads _ W.reg name).leaves s.reg
  rw [run] at kept
  exact ⟨t,onRegRun run,kept⟩

end Stored

theorem normalizePathReturns (paths : ∀ time path, W.reg.fullPath time path = W.reg.fullPath 0 path)
    {path full : Wstr} (is : W.reg.fullPath 0 path = .ok full) (s : Session upcase) :
    ∃ long t, normalizePath W path s = (.ok long,t) := by
  have asked (s : Session upcase) : ∃ t, onReg (Reg.getFullPath W.reg path) s = (.ok full,t) :=
    ⟨_,onRegRun (Reg.getFullPathDone (by rw [paths,is]))⟩
  obtain ⟨t,first⟩ := asked s
  obtain ⟨u,again⟩ := asked t
  by_cases short : full.take 4 ≠ wstr "\\\\?\\"
  · have run : longPath W path s = (.ok (wstr "\\\\?\\" ++ full),u) := by
      rw [longPath,Program.bindOk first,if_pos short,Program.bindOk again]
      rfl
    exact ⟨_,u,by rw [normalizePath,Program.bindOk run]; rfl⟩
  · have run : longPath W path s = (.ok full,t) := by
      rw [longPath,Program.bindOk first,if_neg short]
      rfl
    exact ⟨_,t,by rw [normalizePath,Program.bindOk run]; rfl⟩

theorem createRecursiveReturns (serves : W.Serves r) (path : Wstr) (s : Session upcase) :
    ∃ t, createRecursive W path s = (.ok (),t) := by
  rw [createRecursive]
  induction parents path generalizing s with
  | nil => exact ⟨s,rfl⟩
  | cons parent rest ih =>
    have made : createParent W parent s = (.ok (),Clocked.tick s) := by
      simp only [createParent,Program.bindRun,Fs.call,Fs.ask]
      rw [if_neg fun failed => (serves.created _ parent).elim failed.1 failed.2]
      rfl
    obtain ⟨t,run⟩ := ih (Clocked.tick s)
    exact ⟨t,by rw [Program.forEach,Program.bindOk made,run]⟩

theorem selectWriterReturns (serves : W.Serves r)
    (paths : ∀ time path, W.reg.fullPath time path = W.reg.fullPath 0 path) {version : UInt32}
    (known : Format.ofVersion version ≠ none) {dir full : Wstr} (is : W.reg.fullPath 0 dir = .ok full)
    (s : Session upcase) : ∃ format t, selectWriter W version dir s = (.ok format,t) := by
  obtain ⟨format,knows⟩ := Option.ne_none_iff_exists'.mp known
  obtain ⟨base,t,first⟩ := normalizePathReturns paths is s
  obtain ⟨target,u,second⟩ := normalizePathReturns paths is t
  obtain ⟨v,made⟩ := createRecursiveReturns serves base u
  have run : ∃ t, selectWriter W version dir s = (.ok format,t) := by
    simp only [selectWriter,knows]
    rw [Program.bindOk first,Program.bindOk second,Program.bindOk made]
    exact ⟨_,rfl⟩
  exact ⟨format,run⟩

theorem withWriterFails {before : Session upcase → Prop} {fails : Stop → Prop}
    {inv : Registry upcase → Prop} {x : Command upcase Unit}
    (h : Program.Triple before x (fun _ _ => False) fun e s => fails e ∧ inv s.reg.reg) (format : Format) :
    Program.Triple before (withWriter W format x) (fun _ _ => False)
      fun e s => fails e ∧ inv s.reg.reg := by
  intro s hs
  have after := h s hs
  unfold withWriter Program.ensuring
  cases run : x s with
  | mk outcome t =>
    rw [run] at after
    cases outcome with
    | ok a => exact after
    | error e =>
      dsimp only
      split <;> exact after

theorem joinsRegistry (serves : W.Serves r)
    (paths : ∀ time path, W.reg.fullPath time path = W.reg.fullPath 0 path)
    (fresh : ∀ n id, W.reg.guid n = .ok id → isGuid id = true ∧ ¬ r.subkeys.Has id) {name dir : CStr}
    (absent : Absent r name) {full : Wstr} (is : W.reg.fullPath 0 dir.units = .ok full)
    (version : UInt32) {conf : RegConfig} (fits : MultiFits conf.env) {β : Type}
    {rest : Command upcase β} {good : β → Session upcase → Prop}
    {bad : Stop → Session upcase → Prop}
    (next : Program.Triple (fun s => Joined r name s.reg.reg) rest good bad) :
    Program.Triple (fun s => s.reg.reg = r) (do
      onReg (Reg.registerDistro W.reg name.units dir.units version)
      onReg (Reg.configureDistro W.reg conf name.units configAll)
      rest) good bad := by
  intro s same
  subst same
  obtain ⟨id,issued⟩ := serves.issued s.reg.issued
  obtain ⟨guid,unused⟩ := fresh _ id issued
  obtain ⟨t,registered,joined⟩ := Reg.registerJoins serves.works serves.coherent
    ⟨id,issued,guid,unused⟩ version absent fun time => ⟨full,by rw [paths,is]⟩
  obtain ⟨u,configured,joined⟩ := Reg.configureJoined serves.works joined fits configAll
  have first := @onRegRun upcase _ _ s _ _ registered
  have second := @onRegRun upcase _ _ {s with reg := t} _ _ configured
  rw [Program.bindOk first,Program.bindOk second]
  exact next _ joined

theorem selectFails (c : Creation) {version : UInt32} (unknown : Format.ofVersion version = none)
    (dir : Wstr) {rest : Format → Command upcase Unit} {inv : Registry upcase → Prop} :
    Program.Triple (fun s => inv s.reg.reg) (selectWriter W version dir >>= rest) (fun _ _ => False)
      fun e s => c.Rejected e ∧ inv s.reg.reg := by
  intro s hs
  have thrown : selectWriter W version dir s = (throwVersion version : Command upcase Format) s := by
    simp only [selectWriter,unknown]
  rw [Program.bindError thrown]
  exact ⟨⟨_,rfl,c.rejectsListed (List.mem_cons_self ..)⟩,hs⟩

theorem extractFails {file root : Wstr} {fails : Stop → Prop}
    (refuses : ∀ (entries : List ArchiveEntry) (ending : ArchiveStatus) (t : CopyState), ∃ e u,
      (ArchiveReader.mk file root entries ending).openArchive W.fs t = (.error e,u) ∧ fails e) (format : Format)
    {rest : Command upcase Unit} {inv : Registry upcase → Prop} : Program.Triple (fun s => inv s.reg.reg) (do
      extract W file root format
      rest) (fun _ _ => False) fun e s => fails e ∧ inv s.reg.reg := by
  intro s hs
  let found := W.archive (Clocked.clock s) file
  obtain ⟨e,u,opened,failed⟩ := refuses found.1 found.2 (Clocked.tick s).copy
  have run : (ArchiveReader.mk file root found.1 found.2).run W.fs format (Clocked.tick s).copy = (.error e,u) := by
    rw [ArchiveReader.run,Program.bindError opened]
  have thrown : extract W file root format s = (.error e,{s with copy := u}) := by
    have asked : (Fs.ask fun time => W.archive time file : Command upcase _) s =
        (.ok found,Clocked.tick s) := rfl
    rw [extract,Program.bindOk asked,onCopy]
    exact congrArg (fun end' => (end'.1,{(Clocked.tick s) with copy := end'.2})) run
  rw [Program.bindError thrown]
  exact ⟨failed,hs⟩

theorem closedRefuses (serves : W.Serves r) {file : Wstr} {time : Nat}
    (refused : W.fs.status time (.openFile file false false) ≠ 0) (root : Wstr) (entries : List ArchiveEntry)
    (ending : ArchiveStatus) (t : CopyState) : ∃ e u,
      (ArchiveReader.mk file root entries ending).openArchive W.fs t = (.error e,u) ∧
        ∃ code, e = .lro (.fromWin32 .errOpenFile [file] code) := by
  have opened : Fs.openFile W.fs file false false t = (.error (.lro (.fromWin32 .errOpenFile [file]
      (W.fs.status 0 (.openFile file false false)))),Clocked.tick t) := by
    rw [serves.opened] at refused
    simp only [Fs.openFile,Program.bindRun,Fs.call,Fs.ask,serves.opened _ file,if_pos refused]
    rfl
  refine ⟨.lro (.fromWin32 .errOpenFile [file] (W.fs.status 0 (.openFile file false false))),Clocked.tick t,?_,_,rfl⟩
  rw [ArchiveReader.openArchive,Program.bindError opened]

theorem unreadableRefuses {file text : Wstr} (unreadable : W.Unreadable file text)
    (there : ∀ time, W.fs.status time (.openFile file false false) = 0) (root : Wstr) (entries : List ArchiveEntry)
    (ending : ArchiveStatus) (t : CopyState) : ∃ e u,
      (ArchiveReader.mk file root entries ending).openArchive W.fs t = (.error e,u) ∧
        e = .lro (.fromOther .errArchive [text]) := by
  let r : ArchiveReader := ⟨file,root,entries,ending⟩
  refine ⟨.lro (.fromOther .errArchive [text]),(r.openArchive W.fs t).2,Prod.ext ?_ rfl,rfl⟩
  simp only [ArchiveReader.openArchive,Fs.openFile,Fs.getFileSize,Fs.checkArchive,Program.bindRun,Fs.call,Fs.ask,there,
    unreadable.sized,unreadable.filter,unreadable.format,unreadable.refused]
  rfl

theorem installJoins (serves : W.Serves r)
    (paths : ∀ time path, W.reg.fullPath time path = W.reg.fullPath 0 path)
    (fresh : ∀ n id, W.reg.guid n = .ok id → isGuid id = true ∧ ¬ r.subkeys.Has id)
    {name dir : CStr} {file root confPath : Wstr} {version : UInt32} {shortcut : Bool}
    (starts : (Creation.install name dir file root confPath version shortcut).Starts W r)
    {good : Unit → Session upcase → Prop} {bad : Stop → Session upcase → Prop}
    (next : Program.Triple (fun s => Joined r name s.reg.reg) (do
      let format ← selectWriter W version dir.units
      withWriter W format (do
        extract W file root format
        Program.when (shortcut = true) (desktopShortcut W name.units))) good bad) :
    Program.Triple (fun s => s.reg.reg = r)
      (install W name.units dir.units file root confPath version shortcut) good bad := by
  obtain ⟨absent,⟨full,is⟩,conf,loads,fits⟩ := starts
  have outcome (s : Session upcase) : (installConfig W file confPath s).1 = .ok conf := by
    rw [installConfigOutcome serves,loads]
    rfl
  intro s same
  have still : (installConfig W file confPath s).2.reg.reg = s.reg.reg := installConfigIdle W file confPath s
  rw [install,Program.bindOk (Prod.ext (outcome s) rfl)]
  exact joinsRegistry serves paths fresh absent is version fits next _ (still.trans same)

theorem installRefused (serves : W.Serves r)
    (paths : ∀ time path, W.reg.fullPath time path = W.reg.fullPath 0 path)
    (fresh : ∀ n id, W.reg.guid n = .ok id → isGuid id = true ∧ ¬ r.subkeys.Has id)
    {name dir : CStr} {file root confPath : Wstr} {version : UInt32} {shortcut : Bool}
    (starts : (Creation.install name dir file root confPath version shortcut).Starts W r)
    (known : Format.ofVersion version ≠ none) {fails : Stop → Prop}
    (refuses : ∀ (entries : List ArchiveEntry) (ending : ArchiveStatus) (t : CopyState), ∃ e u,
      (ArchiveReader.mk file root entries ending).openArchive W.fs t = (.error e,u) ∧ fails e) :
    Program.Triple (fun s => s.reg.reg = r)
      (install W name.units dir.units file root confPath version shortcut) (fun _ _ => False)
      fun e s => fails e ∧ Joined r name s.reg.reg := by
  obtain ⟨full,is⟩ := starts.2.1
  refine installJoins serves paths fresh starts (Program.Triple.bind ((Program.Leaves.keeps
    (selectWriterIdle W version dir.units) (Joined r name)).succeeds fun s _ =>
      selectWriterReturns serves paths known is s) fun format => ?_)
  exact withWriterFails (extractFails refuses format) format

theorem installFails (serves : W.Serves r)
    (paths : ∀ time path, W.reg.fullPath time path = W.reg.fullPath 0 path)
    (fresh : ∀ n id, W.reg.guid n = .ok id → isGuid id = true ∧ ¬ r.subkeys.Has id)
    {name dir : CStr} {file root confPath : Wstr} {version : UInt32} {shortcut : Bool}
    (starts : (Creation.install name dir file root confPath version shortcut).Starts W r)
    (unsound : ¬ (Creation.install name dir file root confPath version shortcut).Sound W r) :
    Program.Triple (fun s => s.reg.reg = r)
      (install W name.units dir.units file root confPath version shortcut) (fun _ _ => False)
      fun e s => (Creation.install name dir file root confPath version shortcut).Rejected e ∧
        Joined r name s.reg.reg := by
  by_cases known : Format.ofVersion version = none
  · exact installJoins serves paths fresh starts (selectFails _ known dir.units)
  · have refused : ∃ time, W.fs.status time (.openFile file false false) ≠ 0 := by
      by_contra all
      push Not at all
      exact unsound ⟨known,all⟩
    obtain ⟨time,refused⟩ := refused
    refine (installRefused serves paths fresh starts known (closedRefuses serves refused root)).weaken
      (fun _ h => h) (fun _ _ h => h) fun e s h => ⟨?_,h.2⟩
    obtain ⟨code,rfl⟩ := h.1
    exact ⟨_,rfl,.inr ⟨rfl,rfl⟩⟩

theorem copiedConfigGives (serves : W.Serves r) (name confPath : Wstr) :
    Program.Triple (fun s => s.reg.reg = r) (copiedConfig W name confPath) (fun got s => s.reg.reg = r ∧
      ∃ d ∈ r.distros, nameOf d.2 = some name ∧ ∃ conf loaded, Loaded (.new false) d.2 configAll conf ∧
        Creation.duplicateFile W conf confPath = .ok loaded ∧
        got = (loaded,conf.isWsl2 || loaded.isWsl2)) (fun _ s => s.reg.reg = r) := by
  refine (onRegFinds (Reg.loadDistroFinds serves.works.honest (.new false) name configAll)).bind
    fun conf => ?_
  rintro s ⟨same,d,mem,named,read⟩
  have ends (loaded : RegConfig) (file : Creation.duplicateFile W conf confPath = .ok loaded) :
      ∃ d ∈ r.distros, nameOf d.2 = some name ∧ ∃ conf' loaded', Loaded (.new false) d.2 configAll conf' ∧
        Creation.duplicateFile W conf' confPath = .ok loaded' ∧
        (loaded,conf.isWsl2 || loaded.isWsl2) = (loaded',conf'.isWsl2 || loaded'.isWsl2) :=
    ⟨d,mem,named,conf,loaded,read,file,rfl⟩
  by_cases given : confPath ≠ []
  · dsimp only
    rw [if_pos given]
    have outcome := loadFileOutcome serves conf confPath s
    have still : (loadFile W conf confPath s).2.reg.reg = s.reg.reg := loadFileIdle W conf confPath s
    cases run : loadFile W conf confPath s with
    | mk result t =>
      rw [run] at outcome still
      cases file : conf.loadFile confPath (W.config 0 confPath) with
      | ok loaded =>
        rw [file] at outcome
        obtain rfl : result = .ok loaded := outcome
        rw [Program.bindOk run]
        exact ⟨still.trans same,ends loaded (by rw [Creation.duplicateFile,if_pos given,file])⟩
      | error e =>
        rw [file] at outcome
        obtain rfl : result = .error (.lro e) := outcome
        rw [Program.bindError run]
        exact still.trans same
  · dsimp only
    rw [if_neg given]
    exact ⟨same,ends conf (by rw [Creation.duplicateFile,if_neg given])⟩

theorem copiedConfigReturns (serves : W.Serves r) {name confPath : Wstr} {d : Wstr × RegValues}
    (mem : d ∈ r.distros) (named : nameOf d.2 = some name) {conf loaded : RegConfig}
    (read : Loaded (.new false) d.2 configAll conf)
    (file : Creation.duplicateFile W conf confPath = .ok loaded) {s : Session upcase}
    (same : s.reg.reg = r) :
    ∃ t, copiedConfig W name confPath s = (.ok (loaded,conf.isWsl2 || loaded.isWsl2),t) := by
  subst same
  have one (e : Wstr × RegValues) (here : e ∈ s.reg.reg.distros) (is : nameOf e.2 = some name) : e = d :=
    List.inj_on_of_nodup_map serves.coherent.distinct here mem (is.trans named.symm)
  obtain ⟨got,calls,run⟩ := Reg.loadDistroReturns serves.works serves.coherent.named (.new false) mem
    named fun e here is => one e here is ▸ loadedTyped read
  obtain ⟨-,e,here,is,read'⟩ := (Reg.loadDistroFinds serves.works.honest (.new false) name configAll).source
    rfl run
  rw [one e here is] at read'
  rw [loadedUnique read' read] at run
  have first := @onRegRun upcase _ _ s _ _ run
  rw [Creation.duplicateFile] at file
  rw [copiedConfig,Program.bindOk first]
  by_cases given : confPath ≠ []
  · rw [if_pos given] at file ⊢
    have outcome := loadFileOutcome serves conf confPath {s with reg := s.reg.after calls}
    rw [file] at outcome
    exact ⟨_,by rw [Program.bindOk (Prod.ext outcome rfl)]; rfl⟩
  · rw [if_neg given] at file ⊢
    cases Except.ok.inj file
    exact ⟨_,rfl⟩

theorem runCheckedFails (c : Creation) {dir source : Wstr} {reader : WslReader}
    (here : W.normal source = .ok reader.base) (near : ¬ Creation.Apart W source dir) (format : Format)
    {inv : Registry upcase → Prop} :
    Program.Triple (fun s => inv s.reg.reg ∧ Ready W dir format s)
      (runChecked W reader format : Command upcase Unit) (fun _ _ => False)
      fun e s => c.Rejected e ∧ inv s.reg.reg := by
  rintro s ⟨hs,wsl,target,normal,ready⟩
  have checked := checkPathRun wsl ready reader.base
  have thrown : ∃ l : LroError, l.msgCode ∈ Creation.rejections ∧
      FsWriter.checkPath format reader.base s.copy = (.error (.lro l),s.copy) := by
    by_cases inside : WslWriter.samePrefix target target.length reader.base = true
    · rw [if_pos inside] at checked
      exact ⟨_,by simp [Creation.rejections,LroError.fromOther,LroError.fromHresult],checked⟩
    · by_cases root : WslWriter.driveRoot target = true
      · rw [if_neg inside,if_pos root] at checked
        exact ⟨_,by simp [Creation.rejections,LroError.fromOther,LroError.fromHresult],checked⟩
      · refine absurd (fun base target' is is' => ?_) near
        cases here.symm.trans is
        cases normal.symm.trans is'
        exact ⟨Bool.eq_false_iff.mpr inside,Bool.eq_false_iff.mpr root⟩
  obtain ⟨l,listed,thrown⟩ := thrown
  have run : runChecked W reader format s = (.error (.lro l),s) := by
    rw [runChecked,onCopy,Program.zoom,WslReader.runChecked,Program.bindError thrown]
  rw [run]
  exact ⟨⟨l,rfl,c.rejectsListed listed⟩,hs⟩

theorem selectReaderReturns (paths : ∀ time path, W.reg.fullPath time path = W.reg.fullPath 0 path)
    {version : UInt32} (known : Format.ofVersion version ≠ none) {source base : Wstr}
    (is : W.normal source = .ok base) (s : Session upcase) :
    ∃ reader t, selectReader W version source s = (.ok reader,t) := by
  obtain ⟨format,knows⟩ := Option.ne_none_iff_exists'.mp known
  have resolved : ∃ full, W.reg.fullPath 0 source = .ok full := by
    rw [World.normal] at is
    cases answer : W.reg.fullPath 0 source with
    | error code => simp [answer,Except.map] at is
    | ok full => exact ⟨full,rfl⟩
  obtain ⟨full,resolved⟩ := resolved
  obtain ⟨long,t,first⟩ := normalizePathReturns paths resolved s
  have run : ∃ reader t, selectReader W version source s = (.ok reader,t) := by
    simp only [selectReader,knows]
    rw [Program.bindOk first]
    exact ⟨_,_,rfl⟩
  exact run

theorem copyFails (serves : W.Serves r)
    (paths : ∀ time path, W.reg.fullPath time path = W.reg.fullPath 0 path) (c : Creation)
    {name newName : CStr} (other : name.units ≠ newName.units) {d : Wstr × RegValues}
    (mem : d ∈ r.distros) (named : nameOf d.2 = some name.units) {source : Wstr}
    (stored : (d.2 vnDir).bind RegValue.asSz = some source) {old : UInt32} {dir : Wstr}
    (wrong : Format.ofVersion old = none ∨ ¬ Creation.Apart W source dir) (format : Format) :
    Program.Triple (fun s => Joined r newName s.reg.reg ∧ Ready W dir format s) (do
        let source ← onReg (Reg.getDistroDir W.reg name.units)
        let reader ← selectReader W old source
        runChecked W reader format : Command upcase Unit) (fun _ _ => False)
      fun e s => c.Rejected e ∧ Joined r newName s.reg.reg := by
  rintro s ⟨joined,ready⟩
  have there : d ∈ s.reg.reg.distros := by
    refine (joined.others d fun same => other ?_).mpr mem
    exact Option.some.inj (named.symm.trans same)
  obtain ⟨t,found,kept⟩ := dirReturns serves.works joined.coherent there named stored
  rw [Program.bindOk found]
  have joined : Joined r newName t.reg := kept ▸ joined
  by_cases known : Format.ofVersion old = none
  · have thrown : selectReader W old source {s with reg := t} =
        (throwVersion old : Command upcase WslReader) {s with reg := t} := by
      simp only [selectReader,known]
    rw [Program.bindError thrown]
    exact ⟨⟨_,rfl,c.rejectsListed (List.mem_cons_self ..)⟩,joined⟩
  · have near := wrong.resolve_left known
    have resolved : ∃ base, W.normal source = .ok base := by
      by_contra none'
      exact near fun base _ is => absurd ⟨base,is⟩ none'
    obtain ⟨base,resolved⟩ := resolved
    have selected := ((Program.Leaves.keeps (selectReaderIdle W old source) (Joined r newName)).and
      (@selectReaderGives upcase _ _ paths (fun _ h => h) _ known source dir format)).weaken
      (fun _ h => h) (fun _ _ h => h) fun _ _ _ => trivial
    have next : Program.Triple (fun s => Joined r newName s.reg.reg ∧ Ready W dir format s) (do
        let reader ← selectReader W old source
        runChecked W reader format) (fun _ _ => False)
        fun e s => c.Rejected e ∧ Joined r newName s.reg.reg := by
      refine Program.Triple.bind (selected.succeeds fun s _ =>
        selectReaderReturns paths known resolved s) fun reader u stands => ?_
      exact runCheckedFails c stands.2.2 near format u ⟨stands.1,stands.2.1⟩
    exact next _ ⟨joined,ready⟩

theorem duplicateFails (serves : W.Serves r)
    (paths : ∀ time path, W.reg.fullPath time path = W.reg.fullPath 0 path)
    (fresh : ∀ n id, W.reg.guid n = .ok id → isGuid id = true ∧ ¬ r.subkeys.Has id)
    {name newName dir : CStr} {confPath : Wstr} {version : UInt32}
    (starts : (Creation.duplicate name newName dir confPath version).Starts W r)
    (unsound : ¬ (Creation.duplicate name newName dir confPath version).Sound W r) :
    Program.Triple (fun s => s.reg.reg = r)
      (duplicate W name.units newName.units dir.units confPath version) (fun _ _ => False)
      fun e s => (Creation.duplicate name newName dir confPath version).Rejected e ∧
        Joined r newName s.reg.reg := by
  obtain ⟨absent,⟨full,is⟩,d,mem,named,⟨old,stored⟩,conf,loaded,read,file,fits,block⟩ := starts
  intro s same
  obtain ⟨t,copied⟩ := copiedConfigReturns serves mem named read file same
  have still : t.reg.reg = r := by
    have idle : (copiedConfig W name.units confPath s).2.reg.reg = s.reg.reg :=
      copiedConfigIdle W name.units confPath s
    rw [copied] at idle
    exact idle.trans same
  subst still
  obtain ⟨u,found,idle⟩ := versionReturns serves.works serves.coherent mem named stored
  rw [duplicate,Program.bindOk copied]
  dsimp only
  rw [if_neg fits,Program.bindOk found]
  have other : name.units ≠ newName.units := fun same => absent d mem (same ▸ named)
  have one (e : Wstr × RegValues) (here : e ∈ t.reg.reg.distros) (is : nameOf e.2 = some name.units) :
      e = d := List.inj_on_of_nodup_map serves.coherent.distinct here mem (is.trans named.symm)
  refine joinsRegistry serves paths fresh absent is (Creation.chosen version old) block ?_ _ idle
  by_cases known : Format.ofVersion (Creation.chosen version old) = none
  · exact selectFails _ known dir.units
  · have wrong : ∃ source, (d.2 vnDir).bind RegValue.asSz = some source ∧
        (Format.ofVersion old = none ∨ ¬ Creation.Apart W source dir.units) := by
      by_contra fine
      refine unsound ⟨other,fun e here is old' stored' => ?_⟩
      cases one e here is
      cases stored.symm.trans stored'
      refine ⟨known,fun e' here' is' source place => ?_⟩
      cases one e' here' is'
      by_contra wrong
      exact fine ⟨source,place,not_and_or.mp wrong |>.imp not_not.mp id⟩
    obtain ⟨source,place,wrong⟩ := wrong
    refine Program.Triple.bind ((@selectWriterGives upcase W _ paths (fun _ h => h) _ known dir.units
      (Joined t.reg.reg newName)).succeeds fun s _ => selectWriterReturns serves paths known is s)
      fun format => ?_
    exact withWriterFails (copyFails serves paths _ other mem named place wrong format) format

theorem registerStarts {kinds : List (ErrMsg × Nat)} (serves : W.Serves r)
    (paths : ∀ time path, W.reg.fullPath time path = W.reg.fullPath 0 path)
    (fresh : ∀ n id, W.reg.guid n = .ok id → isGuid id = true ∧ ¬ r.subkeys.Has id)
    (listed : ∀ k ∈ creationErrors, k ∈ kinds) (name : CStr) (dir : Wstr) (version : UInt32) :
    Program.Triple (fun s => s.reg.reg = r) (onReg (Reg.registerDistro W.reg name.units dir version))
      (fun _ _ => Absent r name ∧ ∃ full, W.reg.fullPath 0 dir = .ok full) (Early r kinds) := by
  have facts : Program.Triple (fun s : RegState upcase => s.reg = r)
      (Reg.registerDistro W.reg name.units dir version)
      (fun _ _ => Absent r name ∧ ∃ full, W.reg.fullPath 0 dir = .ok full) (fun _ _ => True) := by
    rintro s rfl
    obtain ⟨id,issued⟩ := serves.issued s.issued
    rw [Reg.registerParts]
    obtain ⟨calls,⟨-,-,-,run⟩ | ⟨absent,run⟩⟩ :=
      Reg.newDistroKeyRun serves.works serves.coherent.named issued name
    · rw [Program.bindError run]
      trivial
    · rw [Program.bindOk run]
      cases filled : Reg.fillKey W.reg id name.units dir version
        {(s.after calls) with issued := s.issued+1, reg := s.reg.create id} with
      | mk outcome t =>
        cases outcome with
        | error e => trivial
        | ok a =>
          obtain ⟨full,resolved⟩ := (Reg.fillKeyReturns.mp ⟨t,filled⟩).full
          exact ⟨absent,full,by rwa [paths] at resolved⟩
  exact ((registerEarly fresh listed name dir version).and (onRegTriple facts)).weaken
    (fun _ h => ⟨h,h⟩) (fun _ _ h => h.2) fun _ _ h => h.1

theorem afterStart {kinds : List (ErrMsg × Nat)} {c : Creation} {x : Command upcase Unit}
    (starts : c.Starts W r) (s : Session upcase) :
    Program.Ends (fun _ _ => True) (fun e t => Early r kinds e t ∨ c.Starts W r) (x s) := by
  cases x s with
  | mk outcome t =>
    cases outcome with
    | ok a => trivial
    | error e => exact .inr starts

theorem storesStart {kinds : List (ErrMsg × Nat)} (c : Creation) (serves : W.Serves r)
    (paths : ∀ time path, W.reg.fullPath time path = W.reg.fullPath 0 path)
    (fresh : ∀ n id, W.reg.guid n = .ok id → isGuid id = true ∧ ¬ r.subkeys.Has id)
    (listed : ∀ k ∈ creationErrors, k ∈ kinds) (name : CStr) (dir : Wstr) (version : UInt32)
    (conf : RegConfig) (rest : Command upcase Unit)
    (starts : Absent r name → (∃ full, W.reg.fullPath 0 dir = .ok full) → MultiFits conf.env →
      c.Starts W r) :
    Program.Triple (fun s => s.reg.reg = r) (do
      onReg (Reg.registerDistro W.reg name.units dir version)
      onReg (Reg.configureDistro W.reg conf name.units configAll)
      rest) (fun _ _ => True) fun e s => Early r kinds e s ∨ c.Starts W r := by
  refine Program.Triple.bind ((registerStarts serves paths fresh listed name dir version).weaken
    (fun _ h => h) (fun _ _ h => h) fun _ _ h => .inl h) fun _ s ⟨absent,resolved⟩ => ?_
  by_cases fits : MultiFits conf.env
  · exact afterStart (starts absent resolved fits) s
  · have registered : ∀ k ∈ registryErrors, k ∈ kinds := fun k mem => listed k (by simp [creationErrors,mem])
    have long : Program.Triple (fun _ => True)
        (onReg (Reg.configureDistro W.reg conf name.units configAll) : Command upcase Unit)
        (fun _ _ => False) fun e _ => Listed kinds e := by
      have ends := @Reg.configureLong upcase W.reg kinds registered conf fits name.units
      exact onRegTriple ends
    exact Program.Triple.bind (long.weaken (fun _ h => h) (fun _ _ h => h)
      fun _ _ h => .inl (.inr h)) (fun _ _ h => h.elim) s trivial

theorem installStarts {kinds : List (ErrMsg × Nat)} (serves : W.Serves r)
    (paths : ∀ time path, W.reg.fullPath time path = W.reg.fullPath 0 path)
    (fresh : ∀ n id, W.reg.guid n = .ok id → isGuid id = true ∧ ¬ r.subkeys.Has id)
    (listed : ∀ k ∈ creationErrors, k ∈ kinds) (name dir : CStr) (file root confPath : Wstr)
    (version : UInt32) (shortcut : Bool) : Program.Triple (fun s => s.reg.reg = r)
      (install W name.units dir.units file root confPath version shortcut) (fun _ _ => True)
      fun e s => Early r kinds e s ∨
        (Creation.install name dir file root confPath version shortcut).Starts W r := by
  intro s same
  have outcome := installConfigOutcome serves file confPath s
  have still : (installConfig W file confPath s).2.reg.reg = s.reg.reg := installConfigIdle W file confPath s
  cases run : installConfig W file confPath s with
  | mk result t =>
    rw [run] at outcome still
    cases loads : Creation.installFile W file confPath with
    | error e =>
      rw [loads] at outcome
      obtain rfl : result = .error (.lro e) := outcome
      rw [install,Program.bindError run]
      exact .inl (.inl (still.trans same))
    | ok conf =>
      rw [loads] at outcome
      obtain rfl : result = .ok conf := outcome
      rw [install,Program.bindOk run]
      exact storesStart (.install name dir file root confPath version shortcut) serves paths fresh
        listed name dir.units version conf _
        (fun absent resolved fits => ⟨absent,resolved,conf,loads,fits⟩) t (still.trans same)

theorem duplicateStarts {kinds : List (ErrMsg × Nat)} (serves : W.Serves r)
    (paths : ∀ time path, W.reg.fullPath time path = W.reg.fullPath 0 path)
    (fresh : ∀ n id, W.reg.guid n = .ok id → isGuid id = true ∧ ¬ r.subkeys.Has id)
    (listed : ∀ k ∈ creationErrors, k ∈ kinds) (name newName dir : CStr) (confPath : Wstr)
    (version : UInt32) : Program.Triple (fun s => s.reg.reg = r)
      (duplicate W name.units newName.units dir.units confPath version) (fun _ _ => True)
      fun e s => Early r kinds e s ∨ (Creation.duplicate name newName dir confPath version).Starts W r := by
  refine Program.Triple.bind ((copiedConfigGives serves name.units confPath).weaken (fun _ h => h)
    (fun _ _ h => h) fun _ _ same => .inl (.inl same)) fun got s found => ?_
  obtain ⟨same,d,mem,named,conf,loaded,read,file,rfl⟩ := found
  by_cases fits : (conf.isWsl2 || loaded.isWsl2) = true ∧ version ≠ 0xffffffff
  · dsimp only
    rw [if_pos fits]
    exact .inl (.inl same)
  · dsimp only
    rw [if_neg fits]
    have rest := (onRegFinds (@getDistroVersionFinds _ r W.reg name.units)).weaken (fun _ h => h)
      (fun _ _ h => h) fun (e : Stop) (t : Session upcase) same => (show Early r kinds e t ∨
        (Creation.duplicate name newName dir confPath version).Starts W r from .inl (.inl same))
    refine rest.bind (fun old t ⟨same,e,here,is,stored⟩ => ?_) s same
    have one : e = d := List.inj_on_of_nodup_map serves.coherent.distinct here mem (is.trans named.symm)
    exact storesStart (.duplicate name newName dir confPath version) serves paths fresh listed
      newName dir.units _ loaded _
      (fun absent resolved block =>
        ⟨absent,resolved,d,mem,named,⟨old,one ▸ stored⟩,conf,loaded,read,file,fits,block⟩) t same

end Command
namespace Creation
variable {W : World}

theorem lateAccepted (c : Creation) {kinds : List (ErrMsg × Nat)}
    (harmless : ∀ k ∈ kinds, ∀ l : LroError, l.msgCode = k.1 → ¬ c.Rejects l) {s : Session upcase}
    (early : Program.Triple (fun t => t.reg.reg = s.reg.reg) (c.run W) (fun _ _ => True)
      (Early s.reg.reg kinds)) : c.LeavesAlone W s := by
  intro l t run rejects
  have after := early s rfl
  rw [run] at after
  rcases after with same | listed
  · rw [same]
    exact ⟨fun _ => Iff.rfl,rfl⟩
  · exact absurd rejects (harmless _ (listed l rfl) l rfl)

theorem installHarmless (name dir : CStr) (file root confPath : Wstr) (version : UInt32)
    (shortcut : Bool) : ∀ k ∈ creationErrors, ∀ l : LroError, l.msgCode = k.1 →
      ¬ (install name dir file root confPath version shortcut).Rejects l := by
  have apart : ∀ k ∈ creationErrors, k.1 ∉ rejections ∧ k.1 ≠ .errOpenFile := by decide
  rintro k mem l is (listed | ⟨opens,-⟩)
  · exact (apart k mem).1 (is ▸ listed)
  · exact (apart k mem).2 (is.symm.trans opens)

theorem duplicateHarmless (name newName dir : CStr) (confPath : Wstr) (version : UInt32) :
    ∀ k ∈ creationErrors ++ wslReaderErrors, ∀ l : LroError, l.msgCode = k.1 →
      ¬ (duplicate name newName dir confPath version).Rejects l := by
  have apart : ∀ k ∈ creationErrors ++ wslReaderErrors, k.1 ∉ rejections := by decide
  intro k mem l is listed
  exact apart k mem (is ▸ listed)

theorem startsAbsent {r : Registry upcase} {c : Creation} (starts : c.Starts W r) : Absent r c.added := by
  cases c with
  | install => exact starts.1
  | duplicate => exact starts.1

section Outcomes
variable {s : Session upcase} (paths : ∀ time path, W.reg.fullPath time path = W.reg.fullPath 0 path)
  (fresh : ∀ n id, W.reg.guid n = .ok id → isGuid id = true ∧ ¬ s.reg.reg.subkeys.Has id)
include paths fresh

theorem soundLeavesAlone {c : Creation} (sound : c.Sound W s.reg.reg) : c.LeavesAlone W s := by
  cases c with
  | install name dir file root confPath version shortcut =>
    exact lateAccepted _ (installHarmless _ _ _ _ _ _ _) (Command.installEarly paths fresh sound)
  | duplicate name newName dir confPath version =>
    exact lateAccepted _ (duplicateHarmless _ _ _ _ _) (Command.duplicateEarly paths fresh sound)

theorem unsoundStays (serves : W.Serves s.reg.reg) {c : Creation} (starts : c.Starts W s.reg.reg)
    (unsound : ¬ c.Sound W s.reg.reg) : ¬ c.LeavesAlone W s := by
  intro alone
  have fails : Program.Triple (fun t => t.reg.reg = s.reg.reg) (c.run W) (fun _ _ => False)
      fun e t => c.Rejected e ∧ Joined s.reg.reg c.added t.reg.reg := by
    cases c with
    | install => exact Command.installFails serves paths fresh starts unsound
    | duplicate => exact Command.duplicateFails serves paths fresh starts unsound
  have after := fails s rfl
  cases run : c.run W s with
  | mk outcome t =>
    rw [run] at after
    cases outcome with
    | ok a => exact after
    | error e =>
      obtain ⟨⟨l,rfl,rejects⟩,joined⟩ := after
      obtain ⟨d,mem,named⟩ := joined.there
      exact startsAbsent starts d (((alone l t run rejects).1 d).mp mem) named

theorem unstartedLeavesAlone (serves : W.Serves s.reg.reg) {c : Creation} (starts : ¬ c.Starts W s.reg.reg) :
    c.LeavesAlone W s := by
  have listed : ∀ k ∈ creationErrors, k ∈ creationErrors ++ wslReaderErrors := fun k mem => by simp [mem]
  -- Behind the registration nothing is thrown, for it is never reached.
  have early {kinds : List (ErrMsg × Nat)} (h : Program.Triple (fun t => t.reg.reg = s.reg.reg)
      (c.run W) (fun _ _ => True) fun e t => Early s.reg.reg kinds e t ∨ c.Starts W s.reg.reg) :
      Program.Triple (fun t => t.reg.reg = s.reg.reg) (c.run W) (fun _ _ => True)
        (Early s.reg.reg kinds) :=
    h.weaken (fun _ h => h) (fun _ _ h => h) fun _ _ h => h.resolve_right starts
  cases c with
  | install name dir file root confPath version shortcut =>
    exact lateAccepted _ (installHarmless _ _ _ _ _ _ _)
      (early (Command.installStarts serves paths fresh (fun _ h => h) _ _ _ _ _ _ _))
  | duplicate name newName dir confPath version =>
    exact lateAccepted _ (duplicateHarmless _ _ _ _ _)
      (early (Command.duplicateStarts serves paths fresh listed _ _ _ _ _))

theorem unreadableStays (serves : W.Serves s.reg.reg) {name dir : CStr} {file root confPath text : Wstr}
    {version : UInt32} {shortcut : Bool}
    (starts : (install name dir file root confPath version shortcut).Starts W s.reg.reg)
    (sound : (install name dir file root confPath version shortcut).Sound W s.reg.reg)
    (unreadable : W.Unreadable file text) :
    ∃ t, (install name dir file root confPath version shortcut).run W s =
        (.error (.lro (.fromOther .errArchive [text])),t) ∧ ¬ SameDistros s.reg.reg t.reg.reg := by
  have after := Command.installRefused serves paths fresh starts sound.1
    (Command.unreadableRefuses unreadable sound.2 root) s rfl
  rw [run]
  cases ran : Command.install W name.units dir.units file root confPath version shortcut s with
  | mk outcome t =>
    rw [ran] at after
    cases outcome with
    | ok a => exact after.elim
    | error e =>
      obtain ⟨rfl,joined⟩ := after
      obtain ⟨d,mem,named⟩ := joined.there
      exact ⟨t,rfl,fun same => starts.1 d ((same.1 d).mp mem) named⟩

end Outcomes
end Creation

/- A sound creation is never rejected with a distribution left behind, and where no call of the
registry fails, a rejected one that gets as far as to register a distribution always leaves it. So
does one whose archive the library cannot read. -/
theorem rejectionLeavesAlone {W : World} {s : Session upcase}
    (paths : ∀ time path, W.reg.fullPath time path = W.reg.fullPath 0 path)
    (fresh : ∀ n id, W.reg.guid n = .ok id → isGuid id = true ∧ ¬ s.reg.reg.subkeys.Has id)
    (c : Creation) : (c.Sound W s.reg.reg → c.LeavesAlone W s) ∧
      (W.Serves s.reg.reg → (c.LeavesAlone W s ↔ (c.Starts W s.reg.reg → c.Sound W s.reg.reg))) ∧
      (W.Serves s.reg.reg → c.Starts W s.reg.reg → c.Sound W s.reg.reg → ∀ name dir file root confPath version shortcut,
        c = .install name dir file root confPath version shortcut → ∀ text, W.Unreadable file text →
          ∃ t, c.run W s = (.error (.lro (.fromOther .errArchive [text])),t) ∧
            ¬ SameDistros s.reg.reg t.reg.reg) := by
  refine ⟨Creation.soundLeavesAlone paths fresh,fun serves => ⟨fun alone starts => ?_,fun fine => ?_⟩,?_⟩
  · by_contra unsound
    exact Creation.unsoundStays paths fresh serves starts unsound alone
  · by_cases starts : c.Starts W s.reg.reg
    · exact Creation.soundLeavesAlone paths fresh (fine starts)
    · exact Creation.unstartedLeavesAlone paths fresh serves starts
  · rintro serves starts sound name dir file root confPath version shortcut rfl text unreadable
    exact Creation.unreadableStays paths fresh serves starts sound unreadable

def oneId : Wstr := wstr "\x7b00000000-0000-0000-0000-000000000000\x7d"

def oneIdWorld : World := {plainWorld bareConfig with reg := {plainEnv with guid := fun _ => .ok oneId}}

def emptySession : Session asciiUpcase := ⟨noDistro,.new .v2 [] [],[]⟩

def installUbuntu (version : UInt32) : Creation :=
  .install ubuntu ⟨wstr "D:\\u",by decide⟩ (wstr "u.tar") [] (wstr "u.xml") version false

theorem rejectionLeavesAloneUbuntu :
    ((installUbuntu 2).Sound oneIdWorld emptySession.reg.reg →
      (installUbuntu 2).LeavesAlone oneIdWorld emptySession) ∧
    (oneIdWorld.Serves emptySession.reg.reg →
      ((installUbuntu 2).LeavesAlone oneIdWorld emptySession ↔
        ((installUbuntu 2).Starts oneIdWorld emptySession.reg.reg →
          (installUbuntu 2).Sound oneIdWorld emptySession.reg.reg))) := by
  have fresh (n : Nat) (id : Wstr) (issued : oneIdWorld.reg.guid n = .ok id) :
      isGuid id = true ∧ ¬ emptySession.reg.reg.subkeys.Has id := by
    obtain rfl : oneId = id := Except.ok.inj issued
    exact ⟨by decide,by decide⟩
  obtain ⟨sound,exact',-⟩ := rejectionLeavesAlone (fun _ _ => rfl) fresh (installUbuntu 2)
  exact ⟨sound,exact'⟩

theorem oneIdServes : oneIdWorld.Serves emptySession.reg.reg where
  works _ _ := rfl
  coherent := emptyCoherent asciiUpcase
  issued _ := ⟨oneId,rfl⟩
  config _ _ := rfl
  created _ _ := .inl rfl
  opened _ _ := rfl

/- The third version is unknown, which is found out when the distribution is registered. -/
theorem unknownVersionLeavesDistro : ¬ ∀ (W : World) (s : Session asciiUpcase) (c : Creation),
    W.Serves s.reg.reg → c.LeavesAlone W s := by
  intro always
  have rejected : ((installUbuntu 3).run oneIdWorld emptySession).1 =
      .error (.lro (.fromOther .errFsVersion [wstr "3"])) := by decide +kernel
  have left : ((installUbuntu 3).run oneIdWorld emptySession).2.reg.reg.distros.map Prod.fst =
      [oneId] := by decide +kernel
  have none' : emptySession.reg.reg.distros = [] := by decide
  cases run : (installUbuntu 3).run oneIdWorld emptySession with
  | mk outcome t =>
    rw [run] at rejected left
    rw [show outcome = _ from rejected] at run
    have kept := always oneIdWorld emptySession (installUbuntu 3) oneIdServes _ t run
      ((installUbuntu 3).rejectsListed (List.mem_cons_self ..))
    obtain ⟨d,mem,-⟩ := List.mem_map.mp (left ▸ List.mem_singleton_self oneId)
    have old := (kept.1 d).mp mem
    simp [none'] at old

end LxRunOffline
