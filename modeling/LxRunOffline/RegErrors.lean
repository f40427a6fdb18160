import LxRunOffline.CopyErrors
import LxRunOffline.CommandReads

/-! The errors of the registry operations, and of the small parts of the commands. -/
namespace LxRunOffline
variable {upcase : WChar → WChar}

def registryErrors : List (ErrMsg × Nat) :=
  [(.errOpenKey,1),(.errEnumKey,1),(.errGetKeyValue,2),(.errSetKeyValue,2),(.errTransformPath,1),
    (.errDistroNotFound,1)]

namespace Reg
variable {α : Type} (env : RegEnv) {kinds : List (ErrMsg × Nat)}

theorem getFullPathRaises (resolved : (.errTransformPath,1) ∈ kinds) (path : Wstr) :
    Raises kinds (getFullPath env path : RegProgram upcase Wstr) := by
  have answered : Raises kinds (ask fun time => env.fullPath time path :
      RegProgram upcase (Except UInt32 Wstr)) := fun _ _ => trivial
  refine .bind answered fun full => ?_
  cases full with
  | error code => exact .lro _ resolved
  | ok full => exact .pure full

variable (registered : ∀ k ∈ registryErrors, k ∈ kinds)
include registered

theorem getValueRaises (pick : RegValue → Option α) (sub name : Wstr) :
    Raises kinds (getValue env pick sub name : RegProgram upcase α) := by
  have failed (code : UInt32) : Raises kinds
      (throwWin32 .errGetKeyValue [regBasePath ++ sub,name] code : RegProgram upcase α) :=
    .lro _ (registered _ (by simp [LroError.fromWin32,LroError.fromHresult,registryErrors]))
  refine .bind (fun _ _ => trivial) fun code => .get fun s => .ite (fun _ => failed code) fun _ => ?_
  split
  · exact failed _
  · split
    · exact failed _
    · exact .pure _

theorem setValueRaises (sub name : Wstr) (value : RegValue) :
    Raises kinds (setValue env sub name value : RegProgram upcase Unit) := by
  refine .bind (fun _ _ => trivial) fun code => .ite (fun _ => ?_) fun _ => .modify _
  exact .lro _ (registered _ (by simp [LroError.fromWin32,LroError.fromHresult,registryErrors]))

theorem enumFromRaises (names : List Wstr) :
    Raises kinds (enumFrom env names : RegProgram upcase (List Wstr)) := by
  have failed (code : UInt32) : Raises kinds
      (throwWin32 .errEnumKey [regBasePath] code : RegProgram upcase (List Wstr)) :=
    .lro _ (registered _ (by simp [LroError.fromWin32,LroError.fromHresult,registryErrors]))
  induction names with
  | nil => exact .bind (fun _ _ => trivial) fun code => .ite (fun _ => .pure _) fun _ => failed code
  | cons name rest ih =>
    exact .bind (fun _ _ => trivial) fun status => .ite (fun _ => .pure _) fun _ =>
      .ite (fun _ => ih) fun _ => .ite (fun _ => failed _) fun _ => .bind ih fun _ => .pure _

theorem createKeyRaises (sub : Wstr) : Raises kinds (createKey env sub : RegProgram upcase Unit) := by
  refine .bind (fun _ _ => trivial) fun code => .ite (fun _ => ?_) fun _ => .modify _
  exact .lro _ (registered _ (by simp [LroError.fromWin32,LroError.fromHresult,registryErrors]))

theorem listDistroIdRaises :
    Raises kinds (listDistroId env : RegProgram upcase (List Wstr)) :=
  .bind (createKeyRaises env registered []) fun _ => .get fun _ =>
    .bind (fun _ _ => trivial) (enumFromRaises env registered)

theorem getDistroIdRaises (name : Wstr) :
    Raises kinds (getDistroId env name : RegProgram upcase Wstr) := by
  have found (ids : List Wstr) :
      Raises kinds (findDistro env name ids : RegProgram upcase Wstr) := by
    induction ids with
    | nil =>
      exact .lro _ (registered _ (by simp [LroError.fromOther,LroError.fromHresult,registryErrors]))
    | cons id rest ih =>
      exact .bind (getValueRaises env registered _ _ _) fun _ => .ite (fun _ => .pure _) fun _ => ih
  exact .bind (listDistroIdRaises env registered) found

theorem getDistroDirRaises (name : Wstr) :
    Raises kinds (getDistroDir env name : RegProgram upcase Wstr) :=
  .bind (getDistroIdRaises env registered name) fun _ => getValueRaises env registered _ _ _

theorem configureDistroRaises (conf : RegConfig) (name : Wstr) (desired : UInt32) :
    Raises kinds (configureDistro env conf name desired : RegProgram upcase Unit) := by
  have stores (c : Prop) [Decidable c] (sub item : Wstr) (value : RegValue) :
      Raises kinds (Program.when c (setValue env sub item value) : RegProgram upcase Unit) :=
    .when fun _ => setValueRaises env registered sub item value
  have envs (c : Prop) [Decidable c] (sub item : Wstr) (value : List Wstr) :
      Raises kinds (Program.when c (setMultiSz env sub item value) : RegProgram upcase Unit) :=
    .when fun _ => .ite (fun _ => setValueRaises env registered sub item _) fun _ => .badArrayLength
  exact .bind (getDistroIdRaises env registered name) fun id => .bind (envs _ id _ _) fun _ =>
    .bind (stores _ id _ _) fun _ => .bind (stores _ id _ _) fun _ => stores _ id _ _

theorem configureLong {conf : RegConfig} (long : ¬ MultiFits conf.env) (name : Wstr) :
    Program.Triple (fun _ => True) (configureDistro env conf name configAll : RegProgram upcase Unit)
      (fun _ _ => False) (fun e _ => Listed kinds e) := by
  have wanted : configAll &&& configEnv ≠ 0 := by decide
  have stops (id : Wstr) : (Program.when (configAll &&& configEnv ≠ 0)
      (setMultiSz env id vnEnv conf.env) : RegProgram upcase Unit) = Program.raise .badArrayLength := by
    rw [Program.when,if_pos wanted,setMultiSz,if_neg long]
  refine Program.Triple.bind (getDistroIdRaises env registered name) fun id => ?_
  rw [stops]
  exact Program.Triple.bind (fun _ _ e same => by cases same) fun _ _ h => h

theorem fillKeyRaises (id name path : Wstr) (version : UInt32) :
    Raises kinds (fillKey env id name path version : RegProgram upcase Unit) := by
  refine .bind (setValueRaises env registered _ _ _) fun _ =>
    .bind (getFullPathRaises env (registered _ (by simp [registryErrors])) path) fun _ =>
      .bind (setValueRaises env registered _ _ _) fun _ =>
        .bind (setValueRaises env registered _ _ _) fun _ =>
          .bind (setValueRaises env registered _ _ _) fun _ => ?_
  exact (ensureDefaultReturns name).weaken (fun _ _ => trivial) (fun _ _ _ => trivial)
    fun _ _ h => h.elim

end Reg
namespace Command
variable (W : World) {kinds : List (ErrMsg × Nat)}

theorem normalizePathRaises (resolved : (.errTransformPath,1) ∈ kinds) (path : Wstr) :
    Raises kinds (normalizePath W path : Command upcase Wstr) := by
  have full : Raises kinds (onReg (Reg.getFullPath W.reg path) : Command upcase Wstr) :=
    .zoom (Reg.getFullPathRaises W.reg resolved path)
  refine .bind (.bind full fun long => .ite (fun _ => ?_) fun _ => .pure _) fun _ => .pure _
  exact .bind full fun _ => .pure _

theorem createRecursiveRaises (created : (.errCreateDir,1) ∈ kinds) (path : Wstr) :
    Raises kinds (createRecursive W path : Command upcase Unit) :=
  .forEach fun _ => .status fun code => .ite (fun _ => .win32 created code) fun _ => .pure ()

theorem shellCallRaises (listed : (.errCreateShortcut,0) ∈ kinds) :
    Raises kinds (shellCall W : Command upcase Unit) :=
  .bind (.ask _) fun _ => .ite (fun _ => .lro _ listed) fun _ => .pure ()

theorem createShortcutRaises (listed : (.errCreateShortcut,0) ∈ kinds)
    (resolved : (.errTransformPath,1) ∈ kinds) (filePath iconPath : Wstr) :
    Raises kinds (createShortcut W filePath iconPath : Command upcase Unit) := by
  have call : Raises kinds (shellCall W : Command upcase Unit) := shellCallRaises W listed
  have full (path : Wstr) : Raises kinds (onReg (Reg.getFullPath W.reg path) : Command upcase Wstr) :=
    .zoom (Reg.getFullPathRaises W.reg resolved path)
  refine .bind call fun _ => .bind call fun _ => .bind (.ask _) fun code =>
    .ite (fun _ => .win32 listed code) fun _ => .bind (.when fun _ => .bind (full _) fun _ => .pure _)
      fun _ => ?_
  exact .bind call fun _ => .bind (full _) fun _ => call

theorem desktopShortcutRaises (listed : (.errCreateShortcut,0) ∈ kinds)
    (resolved : (.errTransformPath,1) ∈ kinds) (name : Wstr) :
    Raises kinds (desktopShortcut W name : Command upcase Unit) :=
  .bind (shellCallRaises W listed) fun _ => createShortcutRaises W listed resolved _ _

end Command
end LxRunOffline
