import LxRunOffline.RejectedRuns
import Mathlib.Data.List.TakeWhile

/-! What `load_distro` reads after `configure_distro` has stored a configuration. The strings of
the environment stand behind each other in one block, and an empty one ends it for the reader. -/
namespace LxRunOffline
open Registry
variable {upcase : WChar → WChar}

theorem multiStringsText {text : Wstr} (noNul : 0 ∉ text) {current : Wstr}
    (some' : current ++ text ≠ []) (rest : Wstr) :
    multiStrings current (text ++ 0 :: rest) = (current ++ text) :: multiStrings [] rest := by
  induction text generalizing current with
  | nil =>
    rw [List.append_nil] at some'
    simp [multiStrings,some']
  | cons c text ih =>
    rw [List.mem_cons,not_or] at noNul
    have next := @ih noNul.2 (current ++ [c]) (by simp)
    rw [List.append_assoc,List.singleton_append] at next
    rw [List.cons_append,multiStrings,if_pos (Ne.symm noNul.1),next]

theorem multiStringsBlock {value : List Wstr} (noNul : ∀ text ∈ value, 0 ∉ text) :
    multiStrings [] (multiBlock value) = value.takeWhile (· ≠ []) := by
  induction value with
  | nil => rfl
  | cons text rest ih =>
    have block : multiBlock (text :: rest) = text ++ 0 :: multiBlock rest := by
      simp [multiBlock]
    rw [block]
    by_cases empty : text = []
    · simp [empty,multiStrings]
    · rw [multiStringsText (noNul text (by simp)) (by simpa using empty),
        ih fun text mem => noNul text (by simp [mem])]
      simp [empty]

theorem takesWhole {value : List Wstr} : value.takeWhile (· ≠ []) = value ↔ [] ∉ value := by
  constructor
  · intro whole mem
    have kept := List.mem_takeWhile_imp (whole.symm ▸ mem)
    simp at kept
  · intro absent
    refine List.takeWhile_eq_self_iff.mpr fun text mem => ?_
    have some' : text ≠ [] := fun empty => absent (empty ▸ mem)
    simpa using some'

theorem multiStringsWhole {value : List Wstr} (noNul : ∀ text ∈ value, 0 ∉ text) :
    multiStrings [] (multiBlock value) = value ↔ [] ∉ value := by
  rw [multiStringsBlock noNul,takesWhole]

namespace RegConfig

def select (conf old : RegConfig) (desired : UInt32) : RegConfig where
  env := if desired &&& configEnv ≠ 0 then conf.env else old.env
  kernelCmd := if desired &&& configKernelCmd ≠ 0 then conf.kernelCmd else old.kernelCmd
  uid := if desired &&& configUid ≠ 0 then conf.uid else old.uid
  flags := if desired &&& configFlags ≠ 0 then conf.flags else old.flags

def told (conf : RegConfig) : RegConfig :=
  {conf with env := multiStrings [] (multiBlock conf.env)}

variable {conf old : RegConfig} {desired : UInt32} {values : RegValues}

theorem putIfRead (c : Prop) [Decidable c] (name other : Wstr) (value : RegValue) (v : RegValues) :
    putIf c name value v other = if name = other ∧ c then some value else v other := by
  by_cases h : c
  · rw [putIf,if_pos h,put]
    exact if_congr ⟨fun same => ⟨same.symm,h⟩,fun both => both.1.symm⟩ rfl rfl
  · rw [putIf,if_neg h,if_neg fun both => h both.2]

theorem storeReads (conf : RegConfig) (desired : UInt32) (values : RegValues) :
    conf.store desired values vnEnv =
      (if desired &&& configEnv ≠ 0 then some (.multiSz (multiBlock conf.env)) else values vnEnv) ∧
    conf.store desired values vnUid =
      (if desired &&& configUid ≠ 0 then some (.dword conf.uid) else values vnUid) ∧
    conf.store desired values vnKernelCmd =
      (if desired &&& configKernelCmd ≠ 0 then some (.sz conf.kernelCmd) else values vnKernelCmd) ∧
    conf.store desired values vnFlags =
      (if desired &&& configFlags ≠ 0 then some (.dword conf.flags) else values vnFlags) := by
  have apart : vnEnv ≠ vnUid ∧ vnEnv ≠ vnKernelCmd ∧ vnEnv ≠ vnFlags ∧ vnUid ≠ vnKernelCmd ∧
    vnUid ≠ vnFlags ∧ vnKernelCmd ≠ vnFlags := by decide
  obtain ⟨a,b,c,d,e,f⟩ := apart
  simp only [store,putIfRead,a,b,c,d,e,f,a.symm,b.symm,c.symm,d.symm,e.symm,f.symm,true_and,
    false_and,if_false,and_self]

theorem storeOthers {name : Wstr}
    (outside : ∀ item ∈ conf.items, item.2.1 = name → desired &&& item.1 = 0) :
    conf.store desired values name = values name := by
  have skipped (item : UInt32 × Wstr × RegValue) (mem : item ∈ conf.items) :
      ¬ (item.2.1 = name ∧ desired &&& item.1 ≠ 0) := fun h => h.2 (outside item mem h.1)
  simp only [items,List.forall_mem_cons] at skipped
  obtain ⟨env,uid,cmd,flags,-⟩ := skipped
  rw [store,putIfRead,if_neg flags,putIfRead,if_neg cmd,putIfRead,if_neg uid,putIfRead,if_neg env]

theorem storeLoaded (noNul : 0 ∉ conf.kernelCmd) :
    Loaded old (conf.store desired values) desired (conf.told.select old desired) := by
  obtain ⟨env,uid,cmd,flags⟩ := storeReads conf desired values
  have whole : cstr conf.kernelCmd = conf.kernelCmd := cstrSame ⟨_,noNul⟩
  have item {α : Type} (pick : RegValue → Option α) {stored : RegValue} {read value : α}
      {held : Option RegValue} (fits : pick stored = some read) (c : Prop) [Decidable c] :
      (if c then Reg.Stored pick value (if c then some stored else held) (if c then read else value)
        else (if c then read else value) = value) := by
    by_cases h : c
    · rw [if_pos h,if_pos h,if_pos h]
      exact .inr ⟨stored,rfl,fits⟩
    · rw [if_neg h,if_neg h]
  have cmdFits : RegValue.asSz (.sz conf.kernelCmd) = some conf.kernelCmd := by rw [RegValue.asSz,whole]
  exact ⟨env ▸ item RegValue.asMultiSz rfl _,uid ▸ item RegValue.asDword rfl _,
    cmd ▸ item RegValue.asSz cmdFits _,flags ▸ item RegValue.asDword rfl _⟩

end RegConfig
namespace Reg
variable {env : RegEnv} {r : Registry upcase}

theorem whenSet {c : Prop} [Decidable c] {id name : Wstr} {value : RegValue} {s t : RegState upcase}
    (guid : isGuid id = true) (there : s.reg.subkeys.Has id)
    (run : Program.when c (setValue env id name value) s = (.ok (),t)) :
    t.reg = s.reg.edit id (putIf c name value) := by
  by_cases h : c
  · rw [Program.when,if_pos h] at run
    have written : putIf c name value = put name (some value) := by
      funext v
      rw [putIf,if_pos h]
    by_cases zero : env.status s.clock (.setValue (regBasePath ++ id) name) = 0
    · rw [setValueDone value zero,Prod.mk.injEq] at run
      rw [← run.2,written]
      change s.reg.write id name value = _
      rw [write,if_neg (guidNonempty guid),FoldedTable.insertThere there]
      rfl
    · simp only [setValue,Program.bindRun,askRun,if_pos zero] at run
      cases run
  · rw [Program.when,if_neg h] at run
    cases run
    have same : putIf c name value = fun v => v := by
      funext v
      rw [putIf,if_neg h]
    rw [same,edit,FoldedTable.alterId]

theorem editHas {id id' : Wstr} {f : RegValues → RegValues} (there : r.subkeys.Has id') :
    (r.edit id f).subkeys.Has id' := FoldedTable.hasAlter.mpr there

theorem configureStored {conf : RegConfig} {name : Wstr} {desired : UInt32} {s t : RegState upcase}
    (run : configureDistro env conf name desired s = (.ok (),t)) :
    ∃ d ∈ s.reg.distros, nameOf d.2 = some name ∧
      t.reg = s.reg.edit d.1 (conf.store desired) := by
  obtain ⟨id,s1,found,run⟩ := Program.bindOkSource run
  obtain ⟨same,d,mem,rfl,named⟩ := (getDistroIdFinds name).source rfl found
  obtain ⟨entry,guid⟩ := distroEntry mem
  have there : s1.reg.subkeys.Has d.1 := same ▸ ⟨d,entry,rfl⟩
  obtain ⟨_,s2,envs,run⟩ := Program.bindOkSource run
  obtain ⟨_,s3,uid,run⟩ := Program.bindOkSource run
  obtain ⟨_,s4,cmd,flags⟩ := Program.bindOkSource run
  have fits : desired &&& configEnv ≠ 0 → MultiFits conf.env := by
    intro wanted
    by_contra long
    rw [Program.when,if_pos wanted,setMultiSz,if_neg long] at envs
    cases envs
  rw [setMultiSzWhen fits] at envs
  have first := whenSet guid there envs
  have second := whenSet guid (first ▸ editHas there) uid
  have third := whenSet guid (second ▸ editHas (first ▸ editHas there)) cmd
  have fourth := whenSet guid (third ▸ editHas (second ▸ editHas (first ▸ editHas there))) flags
  refine ⟨d,mem,named,?_⟩
  rw [fourth,third,second,first,same]
  simp only [edit,FoldedTable.alterAlter]
  rfl

end Reg
namespace Registry
variable {r : Registry upcase}

theorem editRead {id sub name : Wstr} {f : RegValues → RegValues}
    (kept : sub.map upcase = id.map upcase → ∀ values, f values name = values name) :
    (r.edit id f).read sub name = r.read sub name := by
  by_cases root : sub = []
  · rw [read,read,if_pos root,if_pos root,edit]
  · rw [read,read,if_neg root,if_neg root,edit,FoldedTable.findAlter]
    cases r.subkeys.find sub with
    | none => rfl
    | some values =>
      by_cases here : sub.map upcase = id.map upcase
      · simp [here,kept here]
      · simp [here]

end Registry

def ReadsBack (name : Wstr) (desired : UInt32) (old : RegConfig) (r : Registry upcase)
    (is : RegConfig) : Prop :=
  ∀ (env : RegEnv) (s : RegState upcase), s.reg = r →
    (env.Honest → ∀ got t, Reg.loadDistro env old name desired s = (.ok got,t) → got = is) ∧
    (env.Works → ∃ t, Reg.loadDistro env old name desired s = (.ok is,t))

structure StoresOnly (conf : RegConfig) (name : Wstr) (desired : UInt32) (r r' : Registry upcase) :
    Prop where
  keys : r'.subkeys.keys = r.subkeys.keys
  others : ∃ d ∈ r.distros, nameOf d.2 = some name ∧ ∀ sub value,
    r'.read sub value ≠ r.read sub value → sub.map upcase = d.1.map upcase ∧
      ∃ item ∈ conf.items, item.2.1 = value ∧ desired &&& item.1 ≠ 0

section Stored
variable {r r' : Registry upcase} {conf : RegConfig} {name : Wstr} {desired : UInt32}
  {d : Wstr × RegValues}

theorem editStoresOnly (mem : d ∈ r.distros) (named : nameOf d.2 = some name) :
    StoresOnly conf name desired r (r.edit d.1 (conf.store desired)) := by
  refine ⟨FoldedTable.keysAlter,d,mem,named,fun sub value changed => ?_⟩
  by_contra outside
  refine changed (editRead fun here values => RegConfig.storeOthers fun item listed same => ?_)
  by_contra wanted
  exact outside ⟨here,item,listed,same,wanted⟩

theorem editNamed (distinct : (r.distros.map fun d => nameOf d.2).Nodup) (mem : d ∈ r.distros)
    (named : nameOf d.2 = some name) {e : Wstr × RegValues}
    (here : e ∈ (r.edit d.1 (conf.store desired)).distros) (is : nameOf e.2 = some name) :
    e.2 = conf.store desired d.2 := by
  rw [editedDistros] at here
  obtain ⟨x,inside,rfl⟩ := List.mem_map.mp here
  have same : x = d := by
    refine List.inj_on_of_nodup_map distinct inside mem ?_
    split at is
    · exact (storeName conf desired x.2).symm.trans (is.trans named.symm)
    · exact is.trans named.symm
  subst same
  exact if_pos rfl

theorem toldReadsBack (allNamed : r.Named) (distinct : (r.distros.map fun d => nameOf d.2).Nodup)
    (mem : d ∈ r.distros) (named : nameOf d.2 = some name) (noNul : 0 ∉ conf.kernelCmd)
    (old : RegConfig) :
    ReadsBack name desired old (r.edit d.1 (conf.store desired)) (conf.told.select old desired) := by
  intro env s same
  have right (honest : env.Honest) (got : RegConfig) (t : RegState upcase)
      (run : Reg.loadDistro env old name desired s = (.ok got,t)) : got = conf.told.select old desired := by
    obtain ⟨-,e,here,is,loaded⟩ := (Reg.loadDistroFinds honest old name desired).source same run
    rw [editNamed distinct mem named here is] at loaded
    exact loadedUnique loaded (RegConfig.storeLoaded noNul)
  refine ⟨right,fun works => ?_⟩
  have there : (d.1,conf.store desired d.2) ∈ s.reg.distros := by
    rw [same,editedDistros]
    exact List.mem_map.mpr ⟨d,mem,by simp⟩
  have still : s.reg.Named := by
    intro e here
    have listed : nameOf e.2 ∈ s.reg.distros.map fun d => nameOf d.2 := List.mem_map_of_mem here
    rw [same,editedNames (storeName conf desired)] at listed
    obtain ⟨x,inside,equal⟩ := List.mem_map.mp listed
    exact equal ▸ allNamed x inside
  obtain ⟨got,calls,run⟩ := Reg.loadDistroReturns works still old there
    ((storeName conf desired d.2).trans named) fun e here is => by
      rw [same] at here
      rw [editNamed distinct mem named here is]
      exact loadedTyped (@RegConfig.storeLoaded conf old desired d.2 noNul)
  exact ⟨_,by rw [run,right works.honest got _ run]⟩

theorem toldWhole (noNul : ∀ text ∈ conf.env, 0 ∉ text) (old : RegConfig) :
    conf.told.select old desired = conf.select old desired ↔
      desired &&& configEnv = 0 ∨ [] ∉ conf.env := by
  have envs : conf.told.select old desired = conf.select old desired ↔
      (if desired &&& configEnv ≠ 0 then multiStrings [] (multiBlock conf.env) else old.env) =
        if desired &&& configEnv ≠ 0 then conf.env else old.env := by
    simp [RegConfig.select,RegConfig.told]
  rw [envs]
  by_cases wanted : desired &&& configEnv = 0
  · simp [wanted]
  · rw [if_pos wanted,if_pos wanted,multiStringsWhole noNul]
    exact (or_iff_right wanted).symm

end Stored

/- What is stored is read back, and nothing else is changed, unless the environment is stored and
one of its strings is empty. -/
theorem configKept {env : RegEnv} {s t : RegState upcase} (allNamed : s.reg.Named)
    (distinct : (s.reg.distros.map fun d => nameOf d.2).Nodup) {conf : RegConfig}
    (noNul : ∀ text ∈ conf.env, 0 ∉ text) (cmdNoNul : 0 ∉ conf.kernelCmd) {name : Wstr}
    {desired : UInt32} (stored : Reg.configureDistro env conf name desired s = (.ok (),t))
    (old : RegConfig) :
    StoresOnly conf name desired s.reg t.reg ∧
      (ReadsBack name desired old t.reg (conf.select old desired) ↔
        desired &&& configEnv = 0 ∨ [] ∉ conf.env) := by
  obtain ⟨d,mem,named,edited⟩ := Reg.configureStored stored
  have told := @toldReadsBack _ _ conf _ desired _ allNamed distinct mem named cmdNoNul old
  rw [edited]
  refine ⟨editStoresOnly mem named,?_⟩
  rw [← toldWhole noNul old]
  constructor
  · intro whole
    let u : RegState upcase := {t with reg := s.reg.edit d.1 (conf.store desired)}
    obtain ⟨v,run⟩ := (whole plainEnv u rfl).2 fun _ _ => rfl
    obtain ⟨v',run'⟩ := (told plainEnv u rfl).2 fun _ _ => rfl
    rw [run,Prod.mk.injEq] at run'
    exact (Except.ok.inj run'.1).symm
  · intro same
    exact same ▸ told

def gapConfig : RegConfig := ⟨[wstr "A=1",[],wstr "B=2"],[],0,7⟩

def freshStored : RegState asciiUpcase :=
  (Reg.configureDistro plainEnv (.new false) ubuntu.units configAll oneWsl2.reg).2

theorem configKeptUse :
    StoresOnly (.new false) ubuntu.units configAll oneWsl2.reg.reg freshStored.reg ∧
      (ReadsBack ubuntu.units configAll gapConfig freshStored.reg
          ((RegConfig.new false).select gapConfig configAll) ↔
        configAll &&& configEnv = 0 ∨ [] ∉ (RegConfig.new false).env) := by
  have stored : (Reg.configureDistro plainEnv (.new false) ubuntu.units configAll oneWsl2.reg).1 =
      .ok () := by decide +kernel
  have run : Reg.configureDistro plainEnv (.new false) ubuntu.units configAll oneWsl2.reg =
      (.ok (),freshStored) := by
    rw [freshStored,← stored]
  have noNul : ∀ text ∈ (RegConfig.new false).env, 0 ∉ text := by decide +kernel
  have cmdNoNul : 0 ∉ (RegConfig.new false).kernelCmd := by decide +kernel
  exact configKept oneWsl2Named (by simp [oneWsl2Distros]) noNul cmdNoNul run gapConfig

/- The string behind the empty one is lost, although every call succeeds. -/
theorem stringLost : ¬ ∀ (conf old : RegConfig) (t : RegState asciiUpcase),
    (∀ text ∈ conf.env, 0 ∉ text) → 0 ∉ conf.kernelCmd →
    Reg.configureDistro plainEnv conf ubuntu.units configAll oneWsl2.reg = (.ok (),t) →
    ReadsBack ubuntu.units configAll old t.reg (conf.select old configAll) := by
  intro always
  let t := (Reg.configureDistro plainEnv gapConfig ubuntu.units configAll oneWsl2.reg).2
  have stored : (Reg.configureDistro plainEnv gapConfig ubuntu.units configAll oneWsl2.reg).1 =
      .ok () := by decide +kernel
  obtain ⟨u,run⟩ := (always gapConfig gapConfig t (by decide) (by decide) (Prod.ext stored rfl)
    plainEnv t rfl).2 fun _ _ => rfl
  have envs : ((Reg.loadDistro plainEnv gapConfig ubuntu.units configAll t).1.toOption.map
      RegConfig.env) = some [wstr "A=1"] := by decide +kernel
  rw [run] at envs
  have one : (gapConfig.select gapConfig configAll).env = [wstr "A=1"] := Option.some.inj envs
  exact absurd one (by decide)

end LxRunOffline
