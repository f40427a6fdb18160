import LxRunOffline.CreationImages
import LxRunOffline.DeleteReturns

/-! The end of `uninstall`, at whichever step it comes. The registration goes first: as long as the
distribution is registered, none of its files has been taken out. -/
namespace LxRunOffline
open Registry
variable {upcase : WChar → WChar} {α : Type}

namespace Reg
variable {env : RegEnv} {r : Registry upcase}

theorem setDefaultLeaves (value : RegValue) : Program.Leaves (fun s => s.reg.distros)
    (setValue env [] vnDefaultDistro value : RegProgram upcase Unit) := by
  intro s
  by_cases zero : env.status s.clock (.setValue (regBasePath ++ []) vnDefaultDistro) = 0
  · rw [setValueDone _ zero]
    rfl
  · simp only [setValue,Program.bindRun,askRun,if_pos zero]
    rfl

theorem replaceDefaultLeaves :
    Program.Leaves (fun s => s.reg.distros) (replaceDefault env : RegProgram upcase Unit) := by
  have listed : Program.Leaves (fun s => s.reg.distros) (listDistroId env : RegProgram upcase (List Wstr)) :=
    fun s => congrArg distros (listDistroIdReads.leaves s)
  refine .rescue (.bind listed fun ids => ?_) fun e => ?_
  · cases ids with
    | nil =>
      intro s
      simp only [deleteValue,Program.bindRun,askRun,Program.getRun]
      split <;> split <;> rfl
    | cons id ids => exact setDefaultLeaves _
  · cases e with
    | lro l => exact .pure ()
    | invalidArgument | badArrayLength | crash | outOfFuel => exact .raise _

def Unregistered (r : Registry upcase) (name : Wstr) (r' : Registry upcase) : Prop :=
  ∃ d ∈ r.distros, nameOf d.2 = some name ∧ r'.distros = (r.remove d.1).distros

theorem deleteTreeEnds (id : Wstr) : Program.Triple (fun s => s.reg = r) (deleteTree env id : RegProgram upcase Unit)
    (fun _ t => t.reg = r.remove id) fun _ t => t.reg = r := by
  rintro s rfl
  simp only [deleteTree,Program.bindRun,askRun,Program.getRun]
  split <;> split <;> rfl

theorem unregisterEnds (name : Wstr) : Program.Triple (fun s => s.reg = r) (unregisterDistro env name)
    (fun _ t => Unregistered r name t.reg) fun _ t => t.reg = r ∨ Unregistered r name t.reg := by
  have first : Program.Triple (fun s => s.reg = r) (getDefaultDistro env) (fun _ s => s.reg = r)
      fun _ t => t.reg = r ∨ Unregistered r name t.reg :=
    (getDefaultDistroReads.leaves.keeps (· = r)).weaken (fun _ h => h) (fun _ _ h => h) fun _ _ h => .inl h
  refine .bind first fun current => .bind ((getDistroIdFinds name).weaken (fun _ h => h) (fun _ _ h => h)
    fun _ _ h => .inl h) fun id s here => ?_
  obtain ⟨same,d,mem,rfl,named⟩ := here
  have gone : Program.Triple (fun s => s.reg = r) (deleteTree env d.1) (fun _ t => Unregistered r name t.reg)
      fun _ t => t.reg = r ∨ Unregistered r name t.reg :=
    (deleteTreeEnds d.1).weaken (fun _ h => h) (fun _ _ h => ⟨d,mem,named,congrArg distros h⟩) fun _ _ h => .inl h
  have kept : Program.Keeps (fun s => Unregistered r name s.reg)
      (Program.when (current = name) (replaceDefault env) : RegProgram upcase Unit) := by
    have leaves : Program.Leaves (fun s => s.reg.distros)
        (Program.when (current = name) (replaceDefault env) : RegProgram upcase Unit) :=
      .ite replaceDefaultLeaves (.pure _)
    exact leaves.keeps fun listed => ∃ d ∈ r.distros, nameOf d.2 = some name ∧ listed = (r.remove d.1).distros
  exact Program.Triple.bind gone (fun _ => kept.weaken (fun _ h => h) (fun _ _ h => h) fun _ _ h => .inr h) s same

end Reg

structure Removal where
  root : DeleteRoot
  volume : Volume
  gone : List Removed

/- However the deletion of the directory has ended, it has gone through the deletion of its base. -/
structure Removal.Made (x : Removal) (W : World) (dir : Wstr) (outcome : Except Stop Unit) (s t : Session upcase) :
    Prop where
  base : W.normal dir = .ok x.root.base
  volume : ∃ time, W.volume time x.root.base = (x.root.root,x.volume)
  ended : ∃ clock u, x.root.deleteDirectory W.fs W.fuel {x.root.begins x.volume with clock := clock} = (outcome,u) ∧
    u.removed = x.gone
  removed : t.removed = s.removed ++ x.gone

namespace Removal
variable {x : Removal} {W : World} {dir : Wstr} {outcome : Except Stop Unit} {s t : Session upcase}

theorem Made.whole (made : x.Made W dir (.ok ()) s t) : x.root.Whole x.volume x.gone := by
  obtain ⟨clock,u,run,gone⟩ := made.ended
  exact gone ▸ DeleteRoot.deletedWhole run

end Removal
namespace Command
variable {W : World} {s t : Session upcase} {outcome : Except Stop Unit}

def Spares (x : Command upcase α) : Prop := Program.Leaves (fun s => (untimed s,s.removed)) x

namespace Spares
variable {x : Command upcase α}

theorem bind {β : Type} {f : α → Command upcase β} (hx : Spares x) (hf : ∀ a, Spares (f a)) : Spares (x >>= f) :=
  Program.Leaves.bind hx hf

theorem pure (a : α) : Spares (Pure.pure a : Command upcase α) := fun _ => rfl

theorem raise (e : Stop) : Spares (Program.raise e : Command upcase α) := fun _ => rfl

theorem ite {c : Prop} [Decidable c] {y : Command upcase α} (hx : Spares x) (hy : Spares y) :
    Spares (if c then x else y) := Program.Leaves.ite hx hy

theorem ask (answer : Nat → α) : Spares (Fs.ask answer : Command upcase α) := fun _ => rfl

theorem onReg (y : RegProgram upcase α) : Spares (Command.onReg y) := fun _ => rfl

theorem catchLro {handler : LroError → Command upcase α} (hx : Spares x) (hh : ∀ e, Spares (handler e)) :
    Spares (LxRunOffline.catchLro x handler) := by
  refine Program.Leaves.rescue hx fun e => ?_
  cases e with
  | lro l => exact hh l
  | invalidArgument | badArrayLength | crash | outOfFuel => exact raise _

theorem source {result : Except Stop α} (h : Spares x) (run : x s = (result,t)) :
    untimed t = untimed s ∧ t.removed = s.removed := Prod.mk.inj (Program.Leaves.source h run)

end Spares

theorem normalizeSpares (path : Wstr) : Spares (normalizePath W path : Command upcase Wstr) :=
  .bind (.bind (.onReg _) fun _ => .ite (.bind (.onReg _) fun _ => .pure _) (.pure _)) fun _ => .pure _

theorem checkRunningSpares (name : Wstr) : Spares (checkRunning W name : Command upcase Unit) := by
  have inUse (path : Wstr) : Spares (checkInUse W path : Command upcase Bool) :=
    .catchLro (.bind (.bind (.ask _) fun _ => .ite (.raise _) (.pure _)) fun _ => .pure _) fun _ => .pure _
  exact .bind (.onReg _) fun _ => .bind (inUse _) fun _ => .ite (.raise _)
    (.bind (inUse _) fun _ => .ite (.raise _) (.pure _))

theorem deleteDirectorySource (steady : W.Steady) {path : Wstr} (run : deleteDirectory W path s = (outcome,t)) :
    t.reg.reg = s.reg.reg ∧ untimed t = untimed s ∧
      ((t.removed = s.removed ∧ outcome ≠ .ok ()) ∨ ∃ x : Removal, x.Made W path outcome s t) := by
  refine ⟨(deleteDirectoryIdle W path).source run,?_⟩
  rcases Program.bindSource run with ⟨e,failed,rfl⟩ | ⟨base,u,first,run⟩
  · obtain ⟨same,removed⟩ := (normalizeSpares path).source failed
    exact ⟨same,.inl ⟨removed,nofun⟩⟩
  · obtain ⟨same,removed⟩ := (normalizeSpares path).source first
    have normal := (normalizePathGives steady path).source trivial first
    have asked : Fs.ask (fun time => W.volume time base) u = (.ok (W.volume u.copy.clock base),Clocked.tick u) := rfl
    rw [Program.bindOk asked] at run
    obtain ⟨ended,rfl⟩ := Prod.mk.inj run
    exact ⟨same,.inr ⟨⟨⟨base,(W.volume u.copy.clock base).1⟩,(W.volume u.copy.clock base).2,_⟩,normal,
      ⟨u.copy.clock,rfl⟩,
      ⟨u.copy.clock+1,_,Prod.ext ended rfl,rfl⟩,congrArg (· ++ _) removed⟩⟩

def idleDir (W : World) (name : Wstr) : Command upcase Wstr := do
  checkRunning W name
  onReg (Reg.getDistroDir W.reg name)

theorem idleDirSource {name : Wstr} {result : Except Stop Wstr} (run : idleDir W name s = (result,t)) :
    t.reg.reg = s.reg.reg ∧ untimed t = untimed s ∧ t.removed = s.removed ∧
      ∀ dir, result = .ok dir → ∃ d ∈ s.reg.reg.distros, nameOf d.2 = some name ∧
        (d.2 vnDir).bind RegValue.asSz = some dir := by
  have idle : Idle (idleDir W name : Command upcase Wstr) :=
    .bind (checkRunningIdle W name) fun _ => .reads (Reg.getDistroDirReads name)
  have spares : Spares (idleDir W name : Command upcase Wstr) := .bind (checkRunningSpares name) fun _ => .onReg _
  refine ⟨idle.source run,(spares.source run).1,(spares.source run).2,fun dir is => ?_⟩
  subst is
  obtain ⟨_,u,first,run⟩ := Program.bindOkSource run
  exact (checkRunningIdle W name).source first ▸ (findsSource (getDistroDirFinds W.reg name) run).2.2

theorem uninstallParts (name : Wstr) : (uninstall W name : Command upcase Unit) = idleDir W name >>= fun dir =>
    onReg (Reg.unregisterDistro W.reg name) >>= fun _ => deleteDirectory W dir := (Program.bindAssoc _ _ _).symm

theorem onRegEnds {y : RegProgram upcase α} {result : Except Stop α} (run : onReg y s = (result,t)) :
    y s.reg = (result,t.reg) := by
  obtain ⟨rfl,rfl⟩ := Prod.mk.inj run
  rfl

inductive Uninstalls (W : World) (name : Wstr) (outcome : Except Stop Unit) (s t : Session upcase) : Prop
  | early (reg : t.reg.reg = s.reg.reg) (removed : t.removed = s.removed) (fails : outcome ≠ .ok ())
  | unregistered (reg : Reg.Unregistered s.reg.reg name t.reg.reg) (removed : t.removed = s.removed)
      (fails : outcome ≠ .ok ())
  | deleted (reg : Reg.Unregistered s.reg.reg name t.reg.reg) (x : Removal) (d : Wstr × RegValues) (dir : Wstr)
      (mem : d ∈ s.reg.reg.distros) (named : nameOf d.2 = some name)
      (placed : (d.2 vnDir).bind RegValue.asSz = some dir) (made : x.Made W dir outcome s t)

theorem uninstallSource (steady : W.Steady) {name : Wstr} (run : uninstall W name s = (outcome,t)) :
    untimed t = untimed s ∧ Uninstalls W name outcome s t := by
  rw [uninstallParts] at run
  rcases Program.bindSource run with ⟨e,failed,rfl⟩ | ⟨dir,u,first,run⟩
  · obtain ⟨reg,same,removed,-⟩ := idleDirSource failed
    exact ⟨same,.early reg removed nofun⟩
  obtain ⟨reg1,same1,removed1,known⟩ := idleDirSource first
  obtain ⟨d,mem,named,placed⟩ := known dir rfl
  have ends := @Reg.unregisterEnds upcase W.reg s.reg.reg name u.reg reg1
  rcases Program.bindSource run with ⟨e,failed,rfl⟩ | ⟨_,v,second,run⟩
  · obtain ⟨same,removed⟩ := (Spares.onReg _).source failed
    refine ⟨same.trans same1,?_⟩
    rw [onRegEnds failed] at ends
    rcases ends with reg | gone
    · exact .early reg (removed.trans removed1) nofun
    · exact .unregistered gone (removed.trans removed1) nofun
  · obtain ⟨same2,removed2⟩ := (Spares.onReg _).source second
    rw [onRegEnds second] at ends
    obtain ⟨reg3,same3,removal⟩ := deleteDirectorySource steady run
    have gone : Reg.Unregistered s.reg.reg name t.reg.reg := reg3 ▸ ends
    refine ⟨same3.trans (same2.trans same1),?_⟩
    rcases removal with ⟨removed,fails⟩ | ⟨x,made⟩
    · exact .unregistered gone (removed.trans (removed2.trans removed1)) fails
    · exact .deleted gone x d dir mem named placed
        ⟨made.base,made.volume,made.ended,made.removed.trans (by rw [removed2,removed1])⟩

def Busy (W : World) (dir : Wstr) : Prop := ∃ file ∈ [wstr "\\rootfs\\init",wstr "\\ext4.vhdx"],
  ∀ time, W.fs.status time (.openFile (dir ++ file) false false) = errorSharingViolation

theorem openedRun (path : Wstr) (v : Session upcase) : Fs.openFile W.fs path false false v =
    (if W.fs.status v.copy.clock (.openFile path false false) = 0 then .ok () else .error (.lro (.fromWin32 .errOpenFile
      [path] (W.fs.status v.copy.clock (.openFile path false false)))),Clocked.tick v) := by
  have asked : Fs.call W.fs (.openFile path false false) v =
      (.ok (W.fs.status v.copy.clock (.openFile path false false)),Clocked.tick v) := rfl
  rw [Fs.openFile,Program.bindOk asked]
  by_cases zero : W.fs.status v.copy.clock (.openFile path false false) = 0
  · rw [if_neg (not_not.mpr zero),if_pos zero]
    rfl
  · rw [if_pos zero,if_neg zero]
    rfl

theorem checkInUseRun (path : Wstr) (v : Session upcase) : ∃ b, checkInUse W path v = (.ok b,Clocked.tick v) := by
  rw [checkInUse,catchLro]
  by_cases zero : W.fs.status v.copy.clock (.openFile path false false) = 0
  · exact ⟨_,Program.rescueOk (Program.bindOk ((openedRun path v).trans (by rw [if_pos zero])))⟩
  · exact ⟨_,Program.rescueError (Program.bindError ((openedRun path v).trans (by rw [if_neg zero])))⟩

theorem inUseRun {path : Wstr} {v : Session upcase}
    (violated : W.fs.status v.copy.clock (.openFile path false false) = errorSharingViolation) :
    checkInUse W path v = (.ok true,Clocked.tick v) := by
  have opened := openedRun (W := W) path v
  rw [violated,if_neg (by decide)] at opened
  rw [checkInUse,catchLro,Program.rescueError (Program.bindError opened)]
  rfl

theorem busyStops (distinct : s.reg.reg.Distinct) {d : Wstr × RegValues} {name dir dir' : Wstr}
    (mem : d ∈ s.reg.reg.distros) (named : nameOf d.2 = some name) (placed : (d.2 vnDir).bind RegValue.asSz = some dir)
    (busy : Busy W dir) : idleDir W name s ≠ (.ok dir',t) := by
  intro run
  obtain ⟨_,u,first,-⟩ := Program.bindOkSource run
  obtain ⟨p,v,got,first⟩ := Program.bindOkSource first
  obtain ⟨-,-,e,mem',named',placed'⟩ := findsSource (getDistroDirFinds W.reg name) got
  obtain rfl := distinct d mem e mem' name named named'
  obtain rfl : dir = p := Option.some.inj (placed.symm.trans placed')
  obtain ⟨file,which,busy⟩ := busy
  rcases List.mem_pair.mp which with rfl | rfl
  · rw [Program.bindOk (inUseRun (busy _))] at first
    cases first
  · -- The second file is looked at only where the first one is not in use.
    obtain ⟨b,looked⟩ := checkInUseRun (W := W) (dir ++ wstr "\\rootfs\\init") v
    rw [Program.bindOk looked] at first
    cases b with
    | true => cases first
    | false =>
      rw [if_neg Bool.false_ne_true,Program.bindOk (inUseRun (busy _))] at first
      cases first

theorem idleDirReturns (works : W.reg.Works) (coherent : s.reg.reg.Coherent) (free : W.fs.Works)
    {d : Wstr × RegValues} {name dir : Wstr} (mem : d ∈ s.reg.reg.distros) (named : nameOf d.2 = some name)
    (placed : (d.2 vnDir).bind RegValue.asSz = some dir) : ∃ t, idleDir W name s = (.ok dir,t) := by
  have unused (path : Wstr) (u : Session upcase) : checkInUse W path u = (.ok false,Clocked.tick u) :=
    Program.rescueOk (Program.bindOk ((openedRun path u).trans (by rw [free.status,if_pos rfl])))
  obtain ⟨t,first,same⟩ := dirReturns works coherent mem named placed
  have checked : checkRunning W name s = (.ok (),Clocked.tick (Clocked.tick {s with reg := t})) := by
    rw [checkRunning,Program.bindOk first,Program.bindOk (unused _ _),if_neg (by simp),Program.bindOk (unused _ _)]
    rfl
  rw [idleDir,Program.bindOk checked]
  have still : (Clocked.tick (Clocked.tick {s with reg := t})).reg.reg = s.reg.reg := same
  obtain ⟨u,second,-⟩ := dirReturns (s := Clocked.tick (Clocked.tick {s with reg := t})) works (still ▸ coherent)
    (still ▸ mem) named placed
  exact ⟨_,second⟩

end Command

theorem Reg.unregisterReturns {env : RegEnv} {s : RegState upcase} (works : env.Works) (coherent : s.reg.Coherent)
    {d : Wstr × RegValues} {name : CStr} (mem : d ∈ s.reg.distros) (named : nameOf d.2 = some name.units) :
    ∃ t, unregisterDistro env name.units s = (.ok (),t) := by
  have stepped := unregisterDistroStep works coherent name
  cases run : unregisterDistro env name.units s with
  | mk outcome t =>
    rw [run] at stepped
    have step : DistroStep s.reg (.unregister name) outcome t.reg := stepped
    generalize t.reg = left at step
    cases step with
    | notFound searches absent => exact absurd named (absent d mem)
    | noDefault unset =>
      rcases coherent.default with ⟨-,empty⟩ | ⟨e,-,default⟩
      · simp [empty] at mem
      · exact absurd unset (isDefaultSets default)
    | unregisterOther | unregisterLast | unregisterNext => exact ⟨t,rfl⟩

theorem Command.uninstallReturns {W : World} {s : Session upcase} (steady : W.Steady) (works : W.reg.Works)
    (coherent : s.reg.reg.Coherent) (free : W.fs.Works) {d : Wstr × RegValues} {name : CStr} {dir : Wstr}
    (mem : d ∈ s.reg.reg.distros) (named : nameOf d.2 = some name.units)
    (placed : (d.2 vnDir).bind RegValue.asSz = some dir) {root : DeleteRoot} {v : Volume}
    (normal : W.normal dir = .ok root.base) (volume : ∀ time, W.volume time root.base = (root.root,v))
    (plain : v.Plain root.root) :
    ∃ enough, ∀ fuel, enough ≤ fuel → ∃ t, uninstall {W with fuel := fuel} name.units s = (.ok (),t) := by
  obtain ⟨enough,returns⟩ := @DeleteRoot.deleteReturns root W.fs v free plain
  refine ⟨enough,fun fuel more => ?_⟩
  let W' : World := {W with fuel := fuel}
  obtain ⟨t1,first⟩ := @idleDirReturns upcase W' s works coherent free d name.units dir mem named placed
  obtain ⟨reg1,-,-,-⟩ := idleDirSource first
  obtain ⟨u,second⟩ := Reg.unregisterReturns (s := t1.reg) works (reg1 ▸ coherent) (reg1 ▸ mem) named
  obtain ⟨full,resolved⟩ := normalSource normal
  obtain ⟨long,t3,third⟩ := @normalizePathReturns upcase W' steady dir full resolved {t1 with reg := u}
  obtain rfl : long = root.base :=
    (Except.ok.inj (normal.symm.trans ((@normalizePathGives upcase W' steady dir).source trivial third))).symm
  obtain ⟨left,ended⟩ := returns fuel (t3.copy.clock+1) more
  have asked : Fs.ask (fun time => W'.volume time root.base) t3 = (.ok (root.root,v),Clocked.tick t3) :=
    Prod.ext (congrArg Except.ok (volume _)) rfl
  have removes : (uninstall W' name.units s).1 = .ok () := by
    rw [uninstallParts,Program.bindOk first,Program.bindOk (onRegRun second),deleteDirectory,Program.bindOk third,
      Program.bindOk asked]
    exact congrArg Prod.fst ended
  exact ⟨_,Prod.ext removes rfl⟩

def filledValues : RegValues := newValues ubuntu.units (wstr "C:\\s") 2 fun _ => none
def filledUbuntu : Session asciiUpcase := {oneWsl2 with
  reg := ⟨0,0,⟨put vnDefaultDistro (some (.sz oneId)) fun _ => none,FoldedTable.empty.insert oneId filledValues⟩⟩}
def filledWorld : World := {plainWorld bareConfig with volume := fun _ _ => (0,filledVolume)}

theorem filledDistros : filledUbuntu.reg.reg.distros = [(oneId,filledValues)] := rfl

theorem filledCoherent : filledUbuntu.reg.reg.Coherent where
  named d mem := by
    rw [filledDistros,List.mem_singleton] at mem
    exact ⟨ubuntu.units,mem ▸ rfl⟩
  distinct := by simp [filledDistros]
  default := .inr ⟨_,List.mem_singleton.mpr rfl,rfl⟩

theorem filledDistinct : filledUbuntu.reg.reg.Distinct := by
  intro d mem e mem' _ _ _
  rw [filledDistros,List.mem_singleton] at mem mem'
  exact mem.trans mem'.symm

end LxRunOffline
