import LxRunOffline.Commands
import LxRunOffline.DistroRead

/-! The parts of the commands that write nothing to the registry, whatever comes of them. -/
namespace LxRunOffline
variable {upcase : WChar → WChar}

namespace Reg
variable {env : RegEnv}

theorem getDistroDirReads (name : Wstr) : Reads (getDistroDir env name : RegProgram upcase Wstr) :=
  .bind (getDistroIdReads name) fun _ => getValueReads ..

theorem getDistroVersionReads (name : Wstr) :
    Reads (getDistroVersion env name : RegProgram upcase UInt32) :=
  .bind (getDistroIdReads name) fun _ => getValueReads ..

theorem loadDistroReads (conf : RegConfig) (name : Wstr) (desired : UInt32) :
    Reads (loadDistro env conf name desired : RegProgram upcase RegConfig) := by
  have item {α : Type} (wanted : Prop) [Decidable wanted] (pick : RegValue → Option α)
      (sub name : Wstr) (value : α) :
      Reads (loadItem env wanted pick sub name value : RegProgram upcase α) :=
    .ite (.catchLro (getValueReads ..) fun _ => .ite (.raise _) (.pure _)) (.pure _)
  exact .bind (getDistroIdReads name) fun id => .bind (item ..) fun _ => .bind (item ..) fun _ =>
    .bind (item ..) fun _ => .bind (item ..) fun _ => .pure _

end Reg
namespace Command
variable {α β : Type} {r : Registry upcase} {x : Command upcase α}

def Idle (x : Command upcase α) : Prop := Program.Leaves (fun s => s.reg.reg) x

namespace Idle
variable {f : α → Command upcase β}

theorem bind (hx : Idle x) (hf : ∀ a, Idle (f a)) : Idle (x >>= f) := Program.Leaves.bind hx hf

theorem pure (a : α) : Idle (Pure.pure a : Command upcase α) := fun _ => rfl

theorem raise (e : Stop) : Idle (Program.raise e : Command upcase α) := fun _ => rfl

theorem ite {c : Prop} [Decidable c] {y : Command upcase α} (hx : Idle x) (hy : Idle y) :
    Idle (if c then x else y) := Program.Leaves.ite hx hy

theorem forEach {step : β → Command upcase Unit} {items : List β} (h : ∀ b, Idle (step b)) :
    Idle (Program.forEach step items) := Program.Leaves.forEach h

theorem ensuring {unwinds : Stop → Bool} {cleanup : Command upcase Unit} (hx : Idle x) (hc : Idle cleanup) :
    Idle (Program.ensuring unwinds x cleanup) := Program.Leaves.ensuring hx hc

theorem ask (answer : Nat → α) : Idle (Fs.ask answer : Command upcase α) := fun _ => rfl

theorem catchLro {handler : LroError → Command upcase α} (hx : Idle x)
    (hh : ∀ e, Idle (handler e)) : Idle (LxRunOffline.catchLro x handler) :=
  Program.Leaves.rescue hx fun e => match e with
    | .lro l => hh l
    | .invalidArgument => fun _ => rfl
    | .badArrayLength => fun _ => rfl
    | .crash => fun _ => rfl
    | .outOfFuel => fun _ => rfl

theorem onCopy (y : Copy α) : Idle (Command.onCopy y : Command upcase α) := fun _ => rfl

theorem reads {y : RegProgram upcase α} (h : Reg.Reads y) : Idle (Command.onReg y) :=
  fun s => h.leaves s.reg

end Idle

theorem onRegTriple {y : RegProgram upcase α} {before : RegState upcase → Prop}
    {good : α → RegState upcase → Prop} {bad : Stop → RegState upcase → Prop}
    (h : Program.Triple before y good bad) : Program.Triple (fun s => before s.reg) (onReg y)
      (fun a s => good a s.reg) (fun e s => bad e s.reg) :=
  Program.Triple.zoom fun _ hs => h.weaken (fun _ is => is ▸ hs) (fun _ _ h => h) fun _ _ h => h

theorem onRegFinds {y : RegProgram upcase α} {right : α → Prop} (h : Reg.Finds r y right) :
    Program.Triple (fun s => s.reg.reg = r) (onReg y) (fun a s => s.reg.reg = r ∧ right a)
      (fun _ s => s.reg.reg = r) := onRegTriple h

theorem getDistroDirFinds (env : RegEnv) (name : Wstr) : Reg.Finds r (Reg.getDistroDir env name)
    fun dir => ∃ d ∈ r.distros, Registry.nameOf d.2 = some name ∧
      (d.2 vnDir).bind RegValue.asSz = some dir :=
  .bind (Reg.getDistroIdFinds name) fun id ⟨d,mem,is,named⟩ =>
    (Reg.getValueFinds RegValue.asSz id vnDir).mono fun dir ⟨v,found,fits⟩ =>
      ⟨d,mem,named,by rw [Registry.readDistro mem (congrArg _ is.symm)] at found; rw [found]; exact fits⟩

theorem getDistroVersionFinds (env : RegEnv) (name : Wstr) :
    Reg.Finds r (Reg.getDistroVersion env name) fun version => ∃ d ∈ r.distros,
      Registry.nameOf d.2 = some name ∧ (d.2 vnVersion).bind RegValue.asDword = some version :=
  .bind (Reg.getDistroIdFinds name) fun id ⟨d,mem,is,named⟩ =>
    (Reg.getValueFinds RegValue.asDword id vnVersion).mono fun version ⟨v,found,fits⟩ =>
      ⟨d,mem,named,by rw [Registry.readDistro mem (congrArg _ is.symm)] at found; rw [found]; exact fits⟩

theorem getFullPathFinds (env : RegEnv) (path : Wstr) : Reg.Finds r (Reg.getFullPath env path)
    fun full => ∃ time, env.fullPath time path = .ok full := by
  have answered : Reg.Finds r (Reg.ask fun time => env.fullPath time path) fun answer =>
      ∃ time, env.fullPath time path = answer := .ask _ fun time => ⟨time,rfl⟩
  refine .bind answered fun answer asked => ?_
  cases answer with
  | error code => exact .raise _
  | ok full => exact .pure asked

variable (W : World)

theorem loadFileIdle (conf : RegConfig) (path : Wstr) :
    Idle (loadFile W conf path : Command upcase RegConfig) := by
  refine .bind (.ask _) fun file => ?_
  split
  · exact .raise _
  · exact .pure _

theorem installConfigIdle (file confPath : Wstr) :
    Idle (installConfig W file confPath : Command upcase RegConfig) :=
  .ite (loadFileIdle W _ _) (.catchLro (loadFileIdle W _ _) fun _ => .ite (.pure _) (.raise _))

theorem copiedConfigIdle (name confPath : Wstr) :
    Idle (copiedConfig W name confPath : Command upcase (RegConfig × Bool)) :=
  .bind (.reads (Reg.loadDistroReads _ _ _)) fun conf =>
    .ite (.bind (loadFileIdle W conf confPath) fun _ => .pure _) (.bind (.pure conf) fun _ => .pure _)

theorem normalizePathIdle (path : Wstr) : Idle (normalizePath W path : Command upcase Wstr) := by
  have full : Idle (onReg (Reg.getFullPath W.reg path) : Command upcase Wstr) :=
    .reads (Reg.getFullPathReads path)
  refine .bind (.bind full fun long => .ite ?_ (.pure _)) fun _ => .pure _
  exact .bind full fun _ => .pure _

theorem createRecursiveIdle (path : Wstr) : Idle (createRecursive W path : Command upcase Unit) :=
  .forEach fun _ => .bind (.ask _) fun _ => .ite (.raise _) (.pure _)

theorem selectWriterIdle (version : UInt32) (path : Wstr) :
    Idle (selectWriter W version path : Command upcase Format) := by
  rw [selectWriter]
  split
  · exact .raise _
  · exact .bind (normalizePathIdle W path) fun base => .bind (normalizePathIdle W path) fun _ =>
      .bind (createRecursiveIdle W base) fun _ => .bind (.onCopy _) fun _ => .pure _

theorem selectReaderIdle (version : UInt32) (path : Wstr) :
    Idle (selectReader W version path : Command upcase WslReader) := by
  rw [selectReader]
  split
  · exact .raise _
  · exact .bind (normalizePathIdle W path) fun base => .bind (.ask _) fun tree =>
      .bind (.onCopy _) fun _ => .pure _

theorem withWriterIdle (format : Format) (h : Idle x) : Idle (withWriter W format x) :=
  .ensuring h (.onCopy _)

theorem deleteDirectoryIdle (path : Wstr) : Idle (deleteDirectory W path : Command upcase Unit) :=
  .bind (normalizePathIdle W path) fun _ => .bind (.ask _) fun _ => fun _ => rfl

theorem checkInUseIdle (path : Wstr) : Idle (checkInUse W path : Command upcase Bool) :=
  .catchLro (.bind (.bind (.ask _) fun _ => .ite (.raise _) (.pure _)) fun _ => .pure _)
    fun _ => .pure _

theorem checkRunningIdle (name : Wstr) : Idle (checkRunning W name : Command upcase Unit) :=
  .bind (.reads (Reg.getDistroDirReads name)) fun _ => .bind (checkInUseIdle W _) fun _ =>
    .ite (.raise _) (.bind (checkInUseIdle W _) fun _ => .ite (.raise _) (.pure _))

theorem moveByCopyIdle (version : UInt32) (source dir : Wstr) :
    Idle (moveByCopy W version source dir : Command upcase Unit) :=
  .bind (selectWriterIdle W version dir) fun format => withWriterIdle W format
    (.bind (selectReaderIdle W version source) fun _ => .bind (.onCopy _) fun _ =>
      deleteDirectoryIdle W source)

end Command
end LxRunOffline
