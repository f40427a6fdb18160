import LxRunOffline.OwnCommands
import LxRunOffline.StoredConfig

/-! What a command that makes a distribution has done to the registry when it comes to its end: one
key more, with the values of the registration and those of the configuration. -/
namespace LxRunOffline
open Registry
variable {upcase : WChar → WChar} {α : Type}

theorem multiStringsClear {units current : Wstr} (clear : 0 ∉ current) :
    ∀ text ∈ multiStrings current units, text ≠ [] ∧ 0 ∉ text := by
  induction units generalizing current with
  | nil =>
    intro text mem
    rw [multiStrings] at mem
    split at mem
    · cases mem
    · obtain rfl := List.mem_singleton.mp mem
      exact ⟨by assumption,clear⟩
  | cons c units ih =>
    intro text mem
    rw [multiStrings] at mem
    split at mem
    · rename_i other
      exact ih (by simp [clear,Ne.symm other]) text mem
    split at mem
    · cases mem
    · rcases List.mem_cons.mp mem with rfl | later
      · exact ⟨by assumption,clear⟩
      · exact ih (by simp) text later

namespace RegConfig
variable {conf : RegConfig} {values : RegValues}

structure Clear (conf : RegConfig) : Prop where
  env : ∀ text ∈ conf.env, text ≠ [] ∧ 0 ∉ text
  kernelCmd : 0 ∉ conf.kernelCmd

theorem newClear (isWsl2 : Bool) : (new isWsl2).Clear where
  env := by cases isWsl2 <;> decide +kernel
  kernelCmd := by cases isWsl2 <;> decide +kernel

theorem loadedClear (loaded : Loaded (.new false) values configAll conf) : conf.Clear where
  env := by
    have stored : Reg.Stored RegValue.asMultiSz (new false).env (values vnEnv) conf.env := loaded.env
    rcases stored with ⟨-,same⟩ | ⟨v,-,fits⟩
    · exact same ▸ (newClear false).env
    · cases v with
      | multiSz units => exact Option.some.inj fits ▸ multiStringsClear (by simp)
      | sz _ | dword _ | other => cases fits
  kernelCmd := by
    have stored : Reg.Stored RegValue.asSz (new false).kernelCmd (values vnKernelCmd) conf.kernelCmd := loaded.kernelCmd
    rcases stored with ⟨-,same⟩ | ⟨v,-,fits⟩
    · exact same ▸ (newClear false).kernelCmd
    · cases v with
      | sz units =>
        have is : cstr units = conf.kernelCmd := Option.some.inj fits
        refine fun mem => ?_
        have kept := List.mem_takeWhile_imp (is ▸ mem)
        exact of_decide_eq_true kept rfl
      | multiSz _ | dword _ | other => cases fits

theorem storedClear (clear : conf.Clear) (old : RegConfig) (values : RegValues) :
    Loaded old (conf.store configAll values) configAll conf := by
  have told : conf.told = conf := by
    have whole := (multiStringsWhole fun text mem => (clear.env text mem).2).mpr fun mem => (clear.env [] mem).1 rfl
    rw [RegConfig.told,whole]
  have loaded := @storeLoaded conf old configAll values clear.kernelCmd
  rwa [told] at loaded

end RegConfig
namespace Registry
variable {r : Registry upcase} {id : Wstr}

theorem createdWrite (guid : isGuid id = true) (fresh : ¬ r.subkeys.Has id) (f : RegValues → RegValues) (key : Wstr)
    (value : RegValue) :
    ((r.create id).edit id f).write id key value = (r.create id).edit id fun v => put key (some value) (f v) := by
  have mem : (id,fun _ => none) ∈ (r.create id).distros := by simp [Reg.createdDistros guid fresh]
  have there : ((r.create id).edit id f).subkeys.Has id := FoldedTable.hasAlter.mpr ⟨_,(distroEntry mem).1,rfl⟩
  rw [write,if_neg (guidNonempty guid),FoldedTable.insertThere there]
  simp only [edit,FoldedTable.alterAlter]

theorem newestEdited {old : List (Wstr × RegValues)} {new : Wstr × RegValues} (all : r.distros = old ++ [new])
    {name : Wstr} (named : nameOf new.2 = some name) (absent : ∀ d ∈ old, nameOf d.2 ≠ some name)
    (f : RegValues → RegValues) : (r.edit new.1 f).distros = old ++ [(new.1,f new.2)] := by
  have there : new ∈ r.distros := by simp [all]
  rw [editedDistros,all,List.map_append]
  congr 1
  · refine (List.map_congr_left fun d mem => ?_).trans (List.map_id _)
    rw [if_neg fun key => ?_]
    · rfl
    · obtain rfl := sameKey there (by simp [all,mem]) key
      exact absent d mem named
  · simp

end Registry
namespace Reg
variable {env : RegEnv} {s t : RegState upcase}

structure Newcomer (env : RegEnv) (name path : Wstr) (version : UInt32) (configure : RegValues → RegValues)
    (r r' : Registry upcase) (new : Wstr × RegValues) : Prop where
  absent : ∀ d ∈ r.distros, nameOf d.2 ≠ some name
  guid : isGuid new.1 = true
  fresh : ¬ r.subkeys.Has new.1
  full : ∃ time full, env.fullPath time path = .ok full ∧ new.2 = configure (newValues name full version fun _ => none)
  distros : r'.distros = r.distros ++ [new]

theorem Newcomer.named {name path : Wstr} {version : UInt32} {conf : RegConfig} {r r' : Registry upcase}
    {new : Wstr × RegValues} (h : Newcomer env name path version (conf.store configAll) r r' new) (noNul : 0 ∉ name) :
    nameOf new.2 = some name := by
  obtain ⟨time,full,-,is⟩ := h.full
  rw [is,storeName]
  exact newValuesName ⟨name,noNul⟩ full version _

theorem newKeySource (all : env.ListsAll) {name id : Wstr} (run : newDistroKey env name s = (.ok id,t)) :
    (∀ d ∈ s.reg.distros, nameOf d.2 ≠ some name) ∧ env.guid s.issued = .ok id ∧ t.reg = s.reg.create id := by
  have made := @newDistroKeyWrites upcase env name s s ⟨rfl,rfl⟩
  rw [run] at made
  refine ⟨fun d mem named => ?_,made⟩
  obtain ⟨names,u,listed,run⟩ := Program.bindOkSource run
  obtain ⟨-,known⟩ := (listDistrosAll all).source rfl listed
  rw [if_pos (known d mem name named)] at run
  cases run

theorem registerSource (all : env.ListsAll) (unissued : env.Unissued s.reg) {name path : Wstr} {version : UInt32}
    (run : registerDistro env name path version s = (.ok (),t)) :
    ∃ new, Newcomer env name path version (fun v => v) s.reg t.reg new := by
  rw [registerParts] at run
  obtain ⟨id,u,made,run⟩ := Program.bindOkSource run
  obtain ⟨absent,issued,created⟩ := newKeySource all made
  obtain ⟨guid,fresh⟩ := unissued _ id issued
  obtain ⟨_,_,first,run⟩ := Program.bindOkSource run
  obtain ⟨-,rfl⟩ := setValueSource first
  obtain ⟨full,_,resolved,run⟩ := Program.bindOkSource run
  obtain ⟨is,rfl⟩ := getFullPathSource resolved
  obtain ⟨_,_,second,run⟩ := Program.bindOkSource run
  obtain ⟨-,rfl⟩ := setValueSource second
  obtain ⟨_,_,third,run⟩ := Program.bindOkSource run
  obtain ⟨-,rfl⟩ := setValueSource third
  obtain ⟨_,v,fourth,last⟩ := Program.bindOkSource run
  obtain ⟨-,rfl⟩ := setValueSource fourth
  refine ⟨⟨id,_⟩,absent,guid,fresh,⟨_,full,is,rfl⟩,?_⟩
  refine ((ensureDefaultLeaves name).source last).trans ?_
  have plain : s.reg.create id = (s.reg.create id).edit id fun v => v := by rw [edit,FoldedTable.alterId]
  simp only [RegState.after,created]
  rw [plain,createdWrite guid fresh,createdWrite guid fresh,createdWrite guid fresh,createdWrite guid fresh]
  exact editedNewest guid fresh _

end Reg

namespace Command
variable {W : World} {s t : Session upcase} {x : Command upcase α} {outcome : Except Stop α}

theorem onRegSource {y : RegProgram upcase α} {a : α} (run : onReg y s = (.ok a,t)) :
    ∃ u, y s.reg = (.ok a,u) ∧ t = {s with reg := u} := Program.zoomSource run

theorem onCopySource {y : Copy α} {a : α} (run : onCopy y s = (.ok a,t)) :
    ∃ u, y s.copy = (.ok a,u) ∧ t = {s with copy := u} := Program.zoomSource run

theorem Idle.source (h : Idle x) (run : x s = (outcome,t)) : t.reg.reg = s.reg.reg := Program.Leaves.source h run

theorem findsSource {y : RegProgram upcase α} {right : α → Prop} {a : α} (finds : Reg.Finds s.reg.reg y right)
    (run : onReg y s = (.ok a,t)) : t.reg.reg = s.reg.reg ∧ t.copy = s.copy ∧ right a := by
  obtain ⟨u,read,rfl⟩ := onRegSource run
  obtain ⟨same,known⟩ := finds.source rfl read
  exact ⟨same,rfl,known⟩

theorem newcomerSource (all : W.reg.ListsAll) (unissued : W.reg.Unissued s.reg.reg) {name dir : Wstr} (noNul : 0 ∉ name)
    {version : UInt32} {conf : RegConfig} {rest : Command upcase α} {a : α} (run : (do
      onReg (Reg.registerDistro W.reg name dir version)
      onReg (Reg.configureDistro W.reg conf name configAll)
      rest : Command upcase α) s = (.ok a,t)) :
    ∃ u new, Reg.Newcomer W.reg name dir version (conf.store configAll) s.reg.reg u.reg.reg new ∧
      u.copy = s.copy ∧ rest u = (.ok a,t) := by
  obtain ⟨_,_,first,run⟩ := Program.bindOkSource run
  obtain ⟨u,registered,rfl⟩ := onRegSource first
  obtain ⟨⟨id,values⟩,added⟩ := Reg.registerSource all unissued registered
  obtain ⟨time,full,is,rfl⟩ := added.full
  obtain ⟨_,_,second,run⟩ := Program.bindOkSource run
  obtain ⟨v,configured,rfl⟩ := onRegSource second
  obtain ⟨d,mem,named,stored⟩ := Reg.configureStored configured
  have newest := Reg.newValuesName ⟨name,noNul⟩ full version fun _ => none
  obtain rfl : d = (id,newValues name full version fun _ => none) := by
    rw [added.distros] at mem
    rcases List.mem_append.mp mem with old | new
    · exact absurd named (added.absent d old)
    · exact List.mem_singleton.mp new
  refine ⟨_,⟨id,conf.store configAll (newValues name full version fun _ => none)⟩,⟨added.absent,added.guid,added.fresh,
    ⟨time,full,is,rfl⟩,?_⟩,?_,run⟩
  · rw [stored]
    exact newestEdited added.distros newest added.absent _
  · rfl

end Command
end LxRunOffline
