import LxRunOffline.OwnRuns

/-! Command lines, one process after the other. A distribution is changed by those command lines
only that have its name, the default only by those that are about it or about what is registered,
and no name is ever taken twice, even where calls fail and leave their work half done. -/
namespace LxRunOffline
open Registry
open Program (Advances)
variable {upcase : WChar → WChar} {α β : Type}

namespace Action

def writes : Action → List Wstr
  | .install name _ _ _ _ _ _ => [name]
  | .uninstall name => [name]
  | .register name _ _ => [name]
  | .unregister name => [name]
  | .move name _ => [name]
  | .duplicate _ newName _ _ _ => [newName]
  | .setEnv name _ => [name]
  | .addEnv name _ _ => [name]
  | .removeEnv name _ => [name]
  | .setUid name _ => [name]
  | .setKernelCmd name _ => [name]
  | .setFlags name _ => [name]
  | .importConfig name _ => [name]
  | _ => []

def adds : Action → List Wstr
  | .install name _ _ _ _ _ _ => [name]
  | .register name _ _ => [name]
  | .duplicate _ newName _ _ _ => [newName]
  | _ => []

def redirects : Action → Bool
  | .setDefault _ => true
  | .install _ _ _ _ _ _ _ => true
  | .uninstall _ => true
  | .register _ _ _ => true
  | .unregister _ => true
  | .duplicate _ _ _ _ _ => true
  | _ => false

def grant (a : Action) (W : World) : Grant := ⟨fun n => n ∈ a.writes,a.redirects = true,W.reg.ListsAll⟩

end Action
namespace Command
variable {g : Grant} {r : Registry upcase} {W : World}

abbrev Goes (g : Grant) (r : Registry upcase) (x : Command upcase α) (right : α → Registry upcase → Prop) : Prop :=
  Advances (fun s => s.reg.reg) (Steps g) r x right

theorem onRegGoes {x : RegProgram upcase α} {right : α → Registry upcase → Prop} (h : Reg.Goes g r x right) :
    Goes g r (onReg x) right := .zoom (fun _ _ => rfl) h

theorem Idle.goes {x : Command upcase α} (h : Idle x) : Goes g r x fun _ r' => r' = r := .leaves h

theorem Idle.ends {x : Command upcase α} (h : Idle x) : Goes g r x fun _ _ => True := h.goes.weaken fun _ _ _ => trivial

theorem Idle.before {x : Command upcase α} (h : Idle x) {f : α → Command upcase β}
    {right : β → Registry upcase → Prop} (next : ∀ a, Goes g r (f a) right) : Goes g r (x >>= f) right :=
  .bind h.goes fun a _ _ same => same ▸ next a

theorem Idle.print {x : Command upcase α} (h : Idle x) : Idle (print x) := .bind h fun _ => .pure ()

theorem Idle.when {c : Prop} [Decidable c] {x : Command upcase Unit} (h : Idle x) : Idle (Program.when c x) :=
  .ite h (.pure ())

theorem configIdle (name : Wstr) (desired : UInt32) : Idle (getConfig W name desired : Command upcase RegConfig) :=
  .reads (Reg.loadDistroReads ..)

theorem saveFileIdle (conf : RegConfig) (path : Wstr) : Idle (saveFile W conf path : Command upcase ConfigElement) := by
  refine .bind (.ask _) fun _ => .bind (.ask _) fun _ => ?_
  split
  · exact .raise _
  · exact .pure _

theorem buildIdle : Idle (Fs.getWinBuild W.fs : Command upcase UInt32) :=
  .bind (.ask _) fun _ => .ite (.raise _) (.pure _)

theorem openFileIdle (path : Wstr) (isDir create : Bool) :
    Idle (Fs.openFile W.fs path isDir create : Command upcase Unit) :=
  .bind (.ask _) fun _ => .ite (.raise _) (.pure _)

theorem detectWsl2Idle (path : Wstr) : Idle (detectWsl2 W path : Command upcase Bool) :=
  .bind (normalizePathIdle W path) fun _ => .catchLro (.bind (openFileIdle _ _ _) fun _ => .pure _)
    fun _ => .ite (.pure _) (.raise _)

theorem hasEaIdle (disk : Wstr → EaName → Option EaValue) (path : Wstr) (name : EaName) (pick : EaValue → Option α)
    (ignoreError : Bool) : Idle (Fs.hasEa W.fs disk path name pick ignoreError : Command upcase Bool) := by
  have got : Idle (Fs.getEa W.fs path (disk path) name pick : Command upcase α) := by
    refine .bind (.ask _) fun _ => .ite (.raise _) ?_
    split
    · exact .raise _
    · exact .pure _
  exact .catchLro (.bind (openFileIdle _ _ _) fun _ => .bind got fun _ => .pure _) fun _ => .ite (.pure _) (.raise _)

theorem detectVersionIdle (path : Wstr) : Idle (detectVersion W path : Command upcase UInt32) :=
  .bind (normalizePathIdle W path) fun _ => .bind (normalizePathIdle W path) fun _ => .bind (.ask _) fun _ =>
    .bind (hasEaIdle _ _ _ _ _) fun _ => .ite (.pure _) (.bind (hasEaIdle _ _ _ _ _) fun _ => .ite (.pure _)
      (.bind (hasEaIdle _ _ _ _ _) fun _ => .ite (.pure _) (.raise _)))

theorem shellCallIdle : Idle (shellCall W : Command upcase Unit) :=
  .bind (.ask _) fun _ => .ite (.raise _) (.pure _)

theorem createShortcutIdle (filePath iconPath : Wstr) :
    Idle (createShortcut W filePath iconPath : Command upcase Unit) := by
  have full (path : Wstr) : Idle (onReg (Reg.getFullPath W.reg path) : Command upcase Wstr) :=
    .reads (Reg.getFullPathReads path)
  exact .bind shellCallIdle fun _ => .bind shellCallIdle fun _ => .bind (.ask _) fun _ => .ite (.raise _)
    (.bind (.when (.bind (full _) fun _ => .pure ())) fun _ => .bind shellCallIdle fun _ =>
      .bind (full _) fun _ => shellCallIdle)

theorem extractIdle (file root : Wstr) (format : Format) : Idle (extract W file root format : Command upcase Unit) :=
  .bind (.ask _) fun _ => .onCopy _

theorem exportIdle (name file : Wstr) : Idle (exportDistro W name file : Command upcase Unit) :=
  .bind (configIdle name _) fun conf => .ite (.raise _) (.bind (.onCopy _) fun _ => withWriterIdle W .linux
    (.bind (.onCopy _) fun _ => .bind (.reads (Reg.getDistroVersionReads name)) fun version =>
      .bind (.reads (Reg.getDistroDirReads name)) fun source => .bind (selectReaderIdle W version source) fun _ =>
        .bind (.onCopy _) fun _ => .bind (saveFileIdle conf _) fun _ => .pure ()))

theorem runIdle (name : Wstr) : Idle (runDistro W name : Command upcase Unit) :=
  .bind (.ask _) fun _ => .ite (.raise _) (.bind (.ask _) fun _ => .ite (.raise _) (.pure _))

section Own
variable {name newName : Wstr} (own : g.own name) (unissued : W.reg.Unissued r) (all : g.sees → W.reg.ListsAll)
include own

theorem configureGoes (conf : RegConfig) (desired : UInt32) :
    Goes g r (onReg (Reg.configureDistro W.reg conf name desired)) fun _ _ => True :=
  onRegGoes (Reg.configureGoes conf own desired)

theorem addEnvGoes (env : Wstr) (force : Bool) : Goes g r (addEnv W name env force) fun _ _ => True := by
  rw [addEnv]
  split
  · exact .raise _
  · refine Idle.before (configIdle name configEnv) fun conf => ?_
    dsimp only
    split
    · exact configureGoes own _ _
    · exact .ite (fun _ => configureGoes own _ _) fun _ => .raise _

theorem removeEnvGoes (envName : Wstr) : Goes g r (removeEnv W name envName) fun _ _ => True :=
  Idle.before (configIdle name configEnv) fun _ => .ite (fun _ => configureGoes own _ _) fun _ => .raise _

theorem setFlagsGoes (flags : UInt32) : Goes g r (setFlags W name flags) fun _ _ => True := by
  refine Idle.before (configIdle name configFlags) fun conf => ?_
  split
  · exact .raise _
  · exact configureGoes own _ _

theorem moveGoes (dir : Wstr) : Goes g r (move W name dir) fun _ _ => True := by
  have last {r : Registry upcase} : Goes g r (onReg (Reg.setDistroDir W.reg name dir)) fun _ _ => True :=
    onRegGoes (Reg.setDirGoes own dir)
  refine Idle.before (checkRunningIdle W name) fun _ => Idle.before (.reads (Reg.getDistroDirReads name)) fun source =>
    Idle.before (.ask _) fun moved => .ite (fun _ => last) fun _ => ?_
  exact Idle.before (.reads (Reg.getDistroVersionReads name)) fun version =>
    Idle.before (moveByCopyIdle W version source dir) fun _ => last

variable (redirects : g.redirects)
include redirects

theorem unregisterGoes : Goes g r (onReg (Reg.unregisterDistro W.reg name)) fun _ _ => True :=
  onRegGoes (Reg.unregisterGoes own redirects)

theorem uninstallGoes : Goes g r (uninstall W name) fun _ _ => True :=
  Idle.before (checkRunningIdle W name) fun _ => Idle.before (.reads (Reg.getDistroDirReads name)) fun dir =>
    .bind (unregisterGoes own redirects) fun _ _ _ _ => (deleteDirectoryIdle W dir).ends

variable (noNul : 0 ∉ name)
include unissued all noNul

theorem addGoes (conf : RegConfig) (path : Wstr) (version : UInt32) {x : Command upcase Unit} (rest : Idle x) :
    Goes g r (do
      onReg (Reg.registerDistro W.reg name path version)
      onReg (Reg.configureDistro W.reg conf name configAll)
      x) fun _ _ => True :=
  .bind (onRegGoes (Reg.registerGoes unissued all own noNul redirects path version)) fun _ _ _ _ =>
    .bind (configureGoes own conf configAll) fun _ _ _ _ => rest.ends

theorem registerGoes (dir confPath : Wstr) : Goes g r (register W name dir confPath) fun _ _ => True := by
  refine Idle.before (detectWsl2Idle dir) fun isWsl2 => ?_
  have last (conf : RegConfig) (version : UInt32) : Goes g r (do
      onReg (Reg.registerDistro W.reg name dir version)
      onReg (Reg.configureDistro W.reg conf name configAll)) fun _ _ => True :=
    .bind (onRegGoes (Reg.registerGoes unissued all own noNul redirects dir version)) fun _ _ _ _ =>
      configureGoes own conf configAll
  have versioned (conf : RegConfig) : Goes g r (do
      let version ← if isWsl2 then pure 2 else detectVersion W dir
      onReg (Reg.registerDistro W.reg name dir version)
      onReg (Reg.configureDistro W.reg conf name configAll)) fun _ _ => True :=
    .ite (fun _ => Idle.before (.pure _) (last conf)) fun _ => Idle.before (detectVersionIdle dir) (last conf)
  exact .ite (fun _ => Idle.before (loadFileIdle W _ _) versioned) fun _ => Idle.before (.pure _) versioned

theorem installGoes (dir file root confPath : Wstr) (version : Option UInt32) (shortcut : Bool) :
    Goes g r (installLatest W name dir file root confPath version shortcut) fun _ _ => True := by
  refine Idle.before buildIdle fun build => Idle.before (installConfigIdle W file confPath) fun conf => ?_
  refine addGoes own unissued all redirects noNul conf dir _ (.bind (selectWriterIdle W _ dir) fun format => ?_)
  exact withWriterIdle W format (.bind (extractIdle file root format) fun _ =>
    .when (.bind shellCallIdle fun _ => createShortcutIdle _ _))

theorem duplicateGoes (source dir confPath : Wstr) (version : UInt32) :
    Goes g r (duplicate W source name dir confPath version) fun _ _ => True := by
  refine Idle.before (copiedConfigIdle W source confPath) fun both => .ite (fun _ => .raise _) fun _ =>
    Idle.before (.reads (Reg.getDistroVersionReads source)) fun old => ?_
  refine addGoes own unissued all redirects noNul both.1 dir _ (.bind (selectWriterIdle W _ dir) fun format => ?_)
  exact withWriterIdle W format (.bind (.reads (Reg.getDistroDirReads source)) fun from' =>
    .bind (selectReaderIdle W old from') fun _ => .onCopy _)

end Own

theorem performGoes (a : Action) (unissued : W.reg.Unissued r) (noNul : ∀ n ∈ a.adds, 0 ∉ n) :
    Goes (a.grant W) r (perform W a) fun _ _ => True := by
  cases a with
  | none => exact .raise _
  | invalid action => exact .raise _
  | unparsed installing => exact (Idle.when buildIdle.print).ends
  | version => exact .pure trivial
  | list => exact (Idle.reads Reg.listDistrosReads).print.ends
  | getDefault => exact (Idle.reads Reg.getDefaultDistroReads).print.ends
  | setDefault name => exact onRegGoes (Reg.setDefaultGoes rfl name)
  | install name dir file root confPath version shortcut =>
    exact installGoes List.mem_cons_self unissued id rfl (noNul name List.mem_cons_self) dir file root confPath version
      shortcut
  | uninstall name => exact uninstallGoes List.mem_cons_self rfl
  | register name dir confPath =>
    exact registerGoes List.mem_cons_self unissued id rfl (noNul name List.mem_cons_self) dir confPath
  | unregister name => exact unregisterGoes List.mem_cons_self rfl
  | move name dir => exact moveGoes List.mem_cons_self dir
  | duplicate name newName dir confPath version =>
    exact duplicateGoes List.mem_cons_self unissued id rfl (noNul newName List.mem_cons_self) name dir confPath version
  | exportDistro name file => exact (exportIdle name file).ends
  | run name => exact (runIdle name).ends
  | getDir name => exact (Idle.reads (Reg.getDistroDirReads name)).print.ends
  | getVersion name => exact (Idle.reads (Reg.getDistroVersionReads name)).print.ends
  | getEnv name => exact (configIdle name _).print.ends
  | setEnv name env => exact configureGoes List.mem_cons_self _ _
  | addEnv name env force => exact addEnvGoes List.mem_cons_self env force
  | removeEnv name envName => exact removeEnvGoes List.mem_cons_self envName
  | getUid name => exact (configIdle name _).print.ends
  | setUid name uid => exact configureGoes List.mem_cons_self _ _
  | getKernelCmd name => exact (configIdle name _).print.ends
  | setKernelCmd name cmd => exact configureGoes List.mem_cons_self _ _
  | getFlags name => exact (configIdle name _).print.ends
  | setFlags name flags => exact setFlagsGoes List.mem_cons_self flags
  | shortcut filePath iconPath => exact (createShortcutIdle filePath iconPath).ends
  | exportConfig name file =>
    exact (Idle.bind (configIdle name configAll) fun conf => (saveFileIdle conf file).print).ends
  | importConfig name file =>
    exact Idle.before (loadFileIdle W _ file) fun conf => configureGoes List.mem_cons_self conf configAll
  | summary name =>
    exact (Idle.bind (configIdle name configAll) fun _ => .bind (Idle.reads (Reg.getDistroVersionReads name)).print
      fun _ => (Idle.reads (Reg.getDistroDirReads name)).print).ends

theorem wmainSteps (a : Action) {s : Session upcase} (unissued : W.reg.Unissued s.reg.reg)
    (noNul : ∀ n ∈ a.adds, 0 ∉ n) : Steps (a.grant W) s.reg.reg (wmain W a s).2.reg.reg := by
  have goes : Goes (a.grant W) s.reg.reg (wmain W a) fun _ _ => True :=
    Idle.before buildIdle fun build => .ite (fun _ => .raise _) fun _ => performGoes a unissued noNul
  exact goes.final rfl

end Command

inductive Lines : Session upcase → List (World × Action) → Session upcase → Prop
  | nil (s : Session upcase) : Lines s [] s
  | cons {W : World} {a : Action} {s t : Session upcase} {lines : List (World × Action)}
      (unissued : W.reg.Unissued s.reg.reg) (rest : Lines (Command.wmain W a s).2 lines t) :
      Lines s ((W,a) :: lines) t

section Lines
variable {s t : Session upcase} {lines : List (World × Action)}

/- A distribution whose name no command line has is at the end what it was, whatever has failed;
and the default is what it was unless one of them is about it or about what is registered. -/
theorem othersKept (run : Lines s lines t) (noNul : ∀ line ∈ lines, ∀ n ∈ line.2.adds, 0 ∉ n) :
    (∀ d ∈ s.reg.reg.distros, ∀ n, nameOf d.2 = some n → (∀ line ∈ lines, n ∉ line.2.writes) →
      d ∈ t.reg.reg.distros) ∧
    ((∀ line ∈ lines, line.2.redirects = false) → t.reg.reg.values = s.reg.reg.values) := by
  induction run with
  | nil => exact ⟨fun d mem n _ _ => mem,fun _ => rfl⟩
  | @cons W a s t lines unissued rest ih =>
    have first := Command.wmainSteps a unissued (noNul _ List.mem_cons_self)
    obtain ⟨others,root⟩ := ih fun line mem => noNul line (List.mem_cons_of_mem _ mem)
    refine ⟨fun d mem n named foreign => ?_,fun still => ?_⟩
    · have kept := stepsOther first mem named (foreign _ List.mem_cons_self)
      exact others d kept n named fun line mem => foreign line (List.mem_cons_of_mem _ mem)
    · have same := stepsRoot first (by simpa [Action.grant] using still _ List.mem_cons_self)
      exact (root fun line mem => still line (List.mem_cons_of_mem _ mem)).trans same

def idWorld (id : Wstr) : World := {plainWorld bareConfig with reg := {plainEnv with guid := fun _ => .ok id}}
def debian : Wstr := wstr "Debian"
def debianLines : List (World × Action) :=
  [(idWorld (wstr "\x7b00000000-0000-0000-0000-000000000001\x7d"),.register debian (wstr "C:\\d") []),
    (idWorld (wstr "\x7b00000000-0000-0000-0000-000000000002\x7d"),.setUid debian 1000)]
def oneDebian : Session asciiUpcase := debianLines.foldl (fun s line => (Command.wmain line.1 line.2 s).2) oneWsl2

theorem debianRun : Lines oneWsl2 debianLines oneDebian := by
  refine .cons (fun n id issued => ?_) (.cons (fun n id issued => ?_) (.nil _))
  · obtain rfl := Except.ok.inj issued
    exact ⟨by decide,by decide⟩
  · obtain rfl := Except.ok.inj issued
    exact ⟨by decide,by decide +kernel⟩

theorem debianNoNul : ∀ line ∈ debianLines, ∀ n ∈ line.2.adds, 0 ∉ n := by decide

theorem othersKeptUbuntu :
    (wstr "\x7b00000000-0000-0000-0000-000000000000\x7d",wsl2Ubuntu) ∈ oneDebian.reg.reg.distros :=
  (othersKept debianRun debianNoNul).1 _ (by simp [oneWsl2Distros]) ubuntu.units rfl (by decide)

/- No two distributions ever have one name, as long as the listings that are made are complete. -/
theorem namesDistinct (run : Lines s lines t) (noNul : ∀ line ∈ lines, ∀ n ∈ line.2.adds, 0 ∉ n)
    (all : ∀ line ∈ lines, line.1.reg.ListsAll) (distinct : s.reg.reg.Distinct) : t.reg.reg.Distinct := by
  induction run with
  | nil => exact distinct
  | @cons W a s t lines unissued rest ih =>
    have first := Command.wmainSteps a unissued (noNul _ List.mem_cons_self)
    exact ih (fun line mem => noNul line (List.mem_cons_of_mem _ mem))
      (fun line mem => all line (List.mem_cons_of_mem _ mem))
      (stepsDistinct first (all _ List.mem_cons_self) distinct)

theorem namesDistinctUbuntu : oneDebian.reg.reg.Distinct := by
  refine namesDistinct debianRun debianNoNul (fun line mem => ?_) fun d mem e mem' _ _ _ => ?_
  · rcases List.mem_pair.mp mem with rfl | rfl <;> exact RegEnv.Works.listsAll fun _ _ => rfl
  · rw [oneWsl2Distros,List.mem_singleton] at mem mem'
    exact mem.trans mem'.symm

example : oneDebian.reg.reg.distros.map (fun d => nameOf d.2) = [some ubuntu.units,some debian] := by decide +kernel

end Lines
end LxRunOffline
