import LxRunOffline.DistroSpec

/-! One operation on a coherent registry, said once as a relation: which outcomes it has, under
which conditions, and what it leaves behind. Every invariant is read off this relation. -/
namespace LxRunOffline
open Registry

inductive DistroOp where
  | register (name path : CStr) (version : UInt32)
  | unregister (name : CStr)
  | setDefault (name : CStr)
  | setDir (name path : CStr)
  | configure (conf : RegConfig) (name : CStr) (desired : UInt32)

namespace DistroOp
variable {upcase : WChar → WChar}

def name : DistroOp → CStr
  | register name _ _ => name
  | unregister name => name
  | setDefault name => name
  | setDir name _ => name
  | configure _ name _ => name

def paths : DistroOp → List Wstr
  | register _ path _ => [path.units]
  | setDir _ path => [path.units]
  | _ => []

def Searches (set : Prop) : DistroOp → Prop
  | register _ _ _ => False
  | unregister _ => set
  | _ => True

def run (env : RegEnv) : DistroOp → RegProgram upcase Unit
  | register name path version => Reg.registerDistro env name.units path.units version
  | unregister name => Reg.unregisterDistro env name.units
  | setDefault name => Reg.setDefaultDistro env name.units
  | setDir name path => Reg.setDistroDir env name.units path.units
  | configure conf name desired => Reg.configureDistro env conf name.units desired

end DistroOp

namespace Registry
variable {upcase : WChar → WChar}

def defaultId (r : Registry upcase) : Option Wstr :=
  (r.values vnDefaultDistro).bind RegValue.asSz

def isDefault (r : Registry upcase) (d : Wstr × RegValues) : Prop :=
  r.defaultId.map (List.map upcase) = some (d.1.map upcase)

/- Every distribution has a name of its own, and one of them is the default if there are any. -/
structure Coherent (r : Registry upcase) : Prop where
  named : r.Named
  distinct : (r.distros.map fun d => nameOf d.2).Nodup
  default : r.values vnDefaultDistro = none ∧ r.distros = [] ∨ ∃ d ∈ r.distros, r.isDefault d

theorem isDefaultSets {r : Registry upcase} {d : Wstr × RegValues} (default : r.isDefault d) :
    r.values vnDefaultDistro ≠ none := by
  intro unset
  simp [isDefault,defaultId,unset] at default

theorem Coherent.unsetEmpty {r : Registry upcase} (h : r.Coherent)
    (unset : r.values vnDefaultDistro = none) : r.distros = [] := by
  rcases h.default with ⟨_,empty⟩ | ⟨d,_,default⟩
  · exact empty
  · exact absurd unset (isDefaultSets default)

theorem Coherent.setListed {r : Registry upcase} (h : r.Coherent)
    (set : r.values vnDefaultDistro ≠ none) : ∃ d ∈ r.distros, r.isDefault d :=
  h.default.resolve_left fun unset => set unset.1

def edit (r : Registry upcase) (id : Wstr) (f : RegValues → RegValues) : Registry upcase :=
  {r with subkeys := r.subkeys.alter id f}

def setDefault (r : Registry upcase) (id : Option Wstr) : Registry upcase :=
  {r with values := put vnDefaultDistro (id.map .sz) r.values}

def remove (r : Registry upcase) (id : Wstr) : Registry upcase :=
  {r with subkeys := r.subkeys.erase id}

def newValues (name full : Wstr) (version : UInt32) (values : RegValues) : RegValues :=
  put vnVersion (some (.dword version)) (put vnState (some (.dword 1))
    (put vnDir (some (.sz full)) (put vnDistroName (some (.sz name)) values)))

def add (r : Registry upcase) (id name full : Wstr) (version : UInt32) : Registry upcase :=
  {r with subkeys := r.subkeys.insert id (newValues name full version fun _ => none)}

end Registry

def Registry.putIf (c : Prop) [Decidable c] (name : Wstr) (value : RegValue) (values : RegValues) :
    RegValues := if c then put name (some value) values else values

def RegConfig.store (conf : RegConfig) (desired : UInt32) (values : RegValues) : RegValues :=
  putIf (desired &&& configFlags ≠ 0) vnFlags (.dword conf.flags)
    (putIf (desired &&& configKernelCmd ≠ 0) vnKernelCmd (.sz conf.kernelCmd)
      (putIf (desired &&& configUid ≠ 0) vnUid (.dword conf.uid)
        (putIf (desired &&& configEnv ≠ 0) vnEnv
          (.multiSz (multiBlock conf.env)) values)))

def Absent {upcase : WChar → WChar} (r : Registry upcase) (name : CStr) : Prop :=
  ∀ d ∈ r.distros, nameOf d.2 ≠ some name.units

inductive DistroStep {upcase : WChar → WChar} (r : Registry upcase) :
    DistroOp → Except Stop Unit → Registry upcase → Prop
  | notFound {op : DistroOp} (searches : op.Searches (r.values vnDefaultDistro ≠ none))
      (absent : Absent r op.name) :
    DistroStep r op (.error (.lro (.fromOther .errDistroNotFound [op.name.units]))) r
  | noDefault {name : CStr} (unset : r.values vnDefaultDistro = none) :
    DistroStep r (.unregister name) (.error (.lro (.fromOther .errNoDefaultDistro []))) r
  | exists' {d : Wstr × RegValues} (mem : d ∈ r.distros) {name path : CStr} {version : UInt32}
      (named : nameOf d.2 = some name.units) : DistroStep r (.register name path version)
        (.error (.lro (.fromOther .errDistroExists [name.units]))) r
  | setDefault {d : Wstr × RegValues} (mem : d ∈ r.distros) {name : CStr}
      (named : nameOf d.2 = some name.units) :
      DistroStep r (.setDefault name) (.ok ()) (r.setDefault (some d.1))
  | setDir {d : Wstr × RegValues} (mem : d ∈ r.distros) {name path : CStr} (full : Wstr)
      (named : nameOf d.2 = some name.units) :
      DistroStep r (.setDir name path) (.ok ()) (r.edit d.1 (put vnDir (some (.sz full))))
  | configure {d : Wstr × RegValues} (mem : d ∈ r.distros) {conf : RegConfig} {name : CStr}
      {desired : UInt32} (named : nameOf d.2 = some name.units) :
      DistroStep r (.configure conf name desired) (.ok ()) (r.edit d.1 (conf.store desired))
  | configureTooLong {d : Wstr × RegValues} (mem : d ∈ r.distros) {conf : RegConfig} {name : CStr}
      {desired : UInt32} (named : nameOf d.2 = some name.units) (wanted : desired &&& configEnv ≠ 0)
      (long : ¬ MultiFits conf.env) :
      DistroStep r (.configure conf name desired) (.error .badArrayLength) r
  | registerFirst {name path : CStr} {version : UInt32} {id : Wstr} (full : Wstr)
      (guid : isGuid id = true) (fresh : ¬ r.subkeys.Has id) (absent : Absent r name)
      (unset : r.values vnDefaultDistro = none) :
      DistroStep r (.register name path version) (.ok ())
        ((r.add id name.units full version).setDefault (some id))
  | registerMore {name path : CStr} {version : UInt32} {id : Wstr} (full : Wstr)
      (guid : isGuid id = true) (fresh : ¬ r.subkeys.Has id) (absent : Absent r name)
      (set : r.values vnDefaultDistro ≠ none) :
      DistroStep r (.register name path version) (.ok ()) (r.add id name.units full version)
  | unregisterOther {d e : Wstr × RegValues} (mem : d ∈ r.distros) {name : CStr}
      (named : nameOf d.2 = some name.units) (here : e ∈ r.distros) (default : r.isDefault e)
      (other : nameOf e.2 ≠ some name.units) :
      DistroStep r (.unregister name) (.ok ()) (r.remove d.1)
  | unregisterLast {d : Wstr × RegValues} (mem : d ∈ r.distros) {name : CStr}
      (named : nameOf d.2 = some name.units) (default : r.isDefault d)
      (last : (r.remove d.1).distros = []) :
      DistroStep r (.unregister name) (.ok ()) ((r.remove d.1).setDefault none)
  | unregisterNext {d e : Wstr × RegValues} (mem : d ∈ r.distros) {name : CStr}
      (named : nameOf d.2 = some name.units) (default : r.isDefault d)
      (next : e ∈ (r.remove d.1).distros) :
      DistroStep r (.unregister name) (.ok ()) ((r.remove d.1).setDefault (some e.1))

namespace Reg
variable {upcase : WChar → WChar} {env : RegEnv} {s : RegState upcase}

theorem getDefaultDistroMissing (works : env.Works)
    (unset : s.reg.values vnDefaultDistro = none) :
    getDefaultDistro env s = (.error (.lro (.fromOther .errNoDefaultDistro [])),s.after 1) := by
  have missing : s.reg.read [] vnDefaultDistro = none := unset
  have failed : getSz env [] vnDefaultDistro s = _ := getValueMissing works missing
  rw [getDefaultDistro,catchLro,Program.rescueError (Program.bindError failed)]
  rfl

theorem getDefaultDistroRun (works : env.Works) {d : Wstr × RegValues} (mem : d ∈ s.reg.distros)
    (default : s.reg.isDefault d) {name : Wstr} (named : nameOf d.2 = some name) :
    getDefaultDistro env s = (.ok name,s.after 2) := by
  obtain ⟨id,idIs,same⟩ := Option.map_eq_some_iff.mp default
  obtain ⟨v,found,fits⟩ := Option.bind_eq_some_iff.mp idIs
  have first : getSz env [] vnDefaultDistro s = (.ok id,s.after 1) :=
    getValueRun works found fits
  have second : distroName env id (s.after 1) = (.ok name,(s.after 1).after 1) :=
    @distroNameRun _ env (s.after 1) works d mem id same name named
  rw [getDefaultDistro,catchLro]
  refine Program.rescueOk ?_
  rw [Program.bindOk first,second,afterAfter]

def Edits (id : Wstr) (f : RegValues → RegValues) (x : RegProgram upcase Unit) : Prop :=
  ∀ s : RegState upcase, s.reg.subkeys.Has id → ∃ calls,
    x s = (.ok (),{(s.after calls) with reg := s.reg.edit id f})

theorem Edits.bind {id : Wstr} {f g : RegValues → RegValues} {x y : RegProgram upcase Unit}
    (first : Edits id f x) (second : Edits id g y) :
    Edits id (fun v => g (f v)) (x >>= fun _ => y) := by
  intro s there
  obtain ⟨m,hx⟩ := first s there
  obtain ⟨n,hy⟩ := second {(s.after m) with reg := s.reg.edit id f} (FoldedTable.hasAlter.mpr there)
  refine ⟨m+n,?_⟩
  rw [Program.bindOk hx,hy]
  simp [RegState.after,edit,FoldedTable.alterAlter,Nat.add_assoc]

theorem setKeyValue (works : env.Works) {id : Wstr} (guid : isGuid id = true) (name : Wstr)
    (value : RegValue) : @Edits upcase id (put name (some value))
      (setValue env id name value) := by
  intro s there
  refine ⟨1,?_⟩
  rw [setValueRun works,write,if_neg (guidNonempty guid),FoldedTable.insertThere there]
  rfl

theorem setKeyValueWhen (works : env.Works) {id : Wstr} (guid : isGuid id = true) (c : Prop)
    [Decidable c] (name : Wstr) (value : RegValue) : @Edits upcase id
      (putIf c name value) (Program.when c (setValue env id name value)) := by
  by_cases h : c
  · have written : putIf c name value = put name (some value) := by funext v; simp [putIf,h]
    rw [Program.when,if_pos h,written]
    exact setKeyValue works guid name value
  · have same : putIf c name value = fun v => v := by funext v; simp [putIf,h]
    intro s there
    refine ⟨0,?_⟩
    rw [Program.when,if_neg h,same,edit,FoldedTable.alterId]
    rfl

theorem setDefaultRun (works : env.Works) (id : Wstr) : setSz env [] vnDefaultDistro id s =
    (.ok (),{(s.after 1) with reg := s.reg.setDefault (some id)}) := setValueRun works ..

end Reg

def Stepped {upcase : WChar → WChar} (op : DistroOp) (s : RegState upcase)
    (result : Except Stop Unit × RegState upcase) : Prop :=
  DistroStep s.reg op result.1 result.2.reg

def Fresh {upcase : WChar → WChar} (env : RegEnv) (s : RegState upcase) : Prop :=
  ∃ id, env.guid s.issued = .ok id ∧ isGuid id = true ∧ ¬ s.reg.subkeys.Has id

namespace Reg
variable {upcase : WChar → WChar} {env : RegEnv} {s : RegState upcase}

theorem setDefaultDistroStep (works : env.Works) (named : s.reg.Named) (name : CStr) :
    Stepped (.setDefault name) s (setDefaultDistro env name.units s) := by
  obtain ⟨calls,⟨d,mem,nameIs,run⟩ | ⟨absent,run⟩⟩ := @getDistroIdRun _ env s works named name.units
  · rw [setDefaultDistro,Program.bindOk run,setDefaultRun works]
    exact .setDefault mem nameIs
  · rw [setDefaultDistro,Program.bindError run]
    exact .notFound trivial absent

theorem setDistroDirStep (works : env.Works) (named : s.reg.Named) (name path : CStr)
    (resolves : ∀ time, ∃ full, env.fullPath time path.units = .ok full) :
    Stepped (.setDir name path) s (setDistroDir env name.units path.units s) := by
  obtain ⟨calls,⟨d,mem,nameIs,run⟩ | ⟨absent,run⟩⟩ := @getDistroIdRun _ env s works named name.units
  · obtain ⟨full,fullIs⟩ := resolves (s.clock+calls)
    have path : getFullPath env path.units (s.after calls) = (.ok full,(s.after calls).after 1) := by
      simp [getFullPath,ask,Program.bindRun,RegState.after,fullIs]
    obtain ⟨entry,guid⟩ := distroEntry mem
    have there : ((s.after calls).after 1).reg.subkeys.Has d.1 := ⟨d,entry,rfl⟩
    obtain ⟨more,written⟩ := setKeyValue works guid vnDir (.sz full) _ there
    rw [setDistroDir,Program.bindOk run,Program.bindOk path,setSz,written]
    exact .setDir mem full nameIs
  · rw [setDistroDir,Program.bindError run]
    exact .notFound trivial absent

theorem setMultiSzWhen {c : Prop} [Decidable c] {id name : Wstr} {value : List Wstr}
    (fits : c → MultiFits value) :
    (Program.when c (setMultiSz env id name value) : RegProgram upcase Unit) =
      Program.when c (setValue env id name (.multiSz (multiBlock value))) := by
  by_cases h : c
  · rw [Program.when,Program.when,if_pos h,if_pos h,setMultiSz,if_pos (fits h)]
  · rw [Program.when,Program.when,if_neg h,if_neg h]

theorem configureDistroStep (works : env.Works) (named : s.reg.Named) (conf : RegConfig)
    (name : CStr) (desired : UInt32) :
    Stepped (.configure conf name desired) s (configureDistro env conf name.units desired s) := by
  obtain ⟨calls,⟨d,mem,nameIs,run⟩ | ⟨absent,run⟩⟩ := @getDistroIdRun _ env s works named name.units
  · obtain ⟨entry,guid⟩ := distroEntry mem
    have there : (s.after calls).reg.subkeys.Has d.1 := ⟨d,entry,rfl⟩
    by_cases fits : desired &&& configEnv ≠ 0 → MultiFits conf.env
    · have envs := @setKeyValueWhen upcase env works d.1 guid (desired &&& configEnv ≠ 0) _ vnEnv
        (.multiSz (multiBlock conf.env))
      rw [← setMultiSzWhen fits] at envs
      have uid := @setKeyValueWhen upcase env works d.1 guid (desired &&& configUid ≠ 0) _ vnUid
        (.dword conf.uid)
      have cmd := @setKeyValueWhen upcase env works d.1 guid (desired &&& configKernelCmd ≠ 0) _
        vnKernelCmd (.sz conf.kernelCmd)
      have flags := @setKeyValueWhen upcase env works d.1 guid (desired &&& configFlags ≠ 0) _
        vnFlags (.dword conf.flags)
      have writes := envs.bind (uid.bind (cmd.bind flags))
      obtain ⟨more,written⟩ := writes _ there
      rw [configureDistro,Program.bindOk run]
      refine Eq.mpr (congrArg (Stepped _ s) written) ?_
      exact .configure mem nameIs
    · obtain ⟨wanted,long⟩ := Classical.not_imp.mp fits
      rw [configureDistro,Program.bindOk run,Program.when,if_pos wanted,setMultiSz,if_neg long]
      exact .configureTooLong mem nameIs wanted long
  · rw [configureDistro,Program.bindError run]
    exact .notFound trivial absent

theorem removedDistros (r : Registry upcase) (id : Wstr) :
    (r.remove id).distros = r.distros.filter fun e => e.1.map upcase ≠ id.map upcase := by
  simp only [distros,remove,FoldedTable.erase,List.filter_filter]
  exact List.filter_congr fun e _ => Bool.and_comm _ _

theorem replaceDefaultStep (works : env.Works) (set : s.reg.values vnDefaultDistro ≠ none) :
    ∃ calls, (s.reg.distros = [] ∧ replaceDefault env s =
        (.ok (),{(s.after calls) with reg := s.reg.setDefault none})) ∨
      (∃ e ∈ s.reg.distros, replaceDefault env s =
        (.ok (),{(s.after calls) with reg := s.reg.setDefault (some e.1)})) := by
  obtain ⟨ids,calls,run,perm⟩ := @listDistroIdRun _ env s works
  cases ids with
  | nil =>
    have empty : s.reg.distros = [] := by simpa using perm
    have cleared := @deleteValueRun _ env (s.after calls) works vnDefaultDistro set
    refine ⟨calls+1,.inl ⟨empty,?_⟩⟩
    rw [replaceDefault,catchLro]
    refine Program.rescueOk ?_
    rw [Program.bindOk run]
    exact cleared
  | cons id ids =>
    obtain ⟨e,mem,rfl⟩ := List.mem_map.mp (perm.mem_iff.mp (List.mem_cons_self))
    refine ⟨calls+1,.inr ⟨e,mem,?_⟩⟩
    rw [replaceDefault,catchLro]
    refine Program.rescueOk ?_
    rw [Program.bindOk run]
    exact setDefaultRun works e.1

theorem unregisterDistroStep (works : env.Works) (coherent : s.reg.Coherent) (name : CStr) :
    Stepped (.unregister name) s (unregisterDistro env name.units s) := by
  by_cases set : s.reg.values vnDefaultDistro = none
  · rw [unregisterDistro,Program.bindError (getDefaultDistroMissing works set)]
    exact .noDefault set
  obtain ⟨e,here,default⟩ := coherent.setListed set
  obtain ⟨current,currentIs⟩ := coherent.named e here
  have first := getDefaultDistroRun works here default currentIs
  obtain ⟨calls,⟨d,mem,nameIs,run⟩ | ⟨absent,run⟩⟩ :=
    @getDistroIdRun _ env (s.after 2) works coherent.named name.units
  · obtain ⟨entry,_⟩ := distroEntry mem
    have there : ((s.after 2).after calls).reg.subkeys.Has d.1 := ⟨d,entry,rfl⟩
    rw [unregisterDistro,Program.bindOk first,Program.bindOk run,
      Program.bindOk (deleteTreeRun works there)]
    by_cases same : current = name.units
    · have one : e = d := List.inj_on_of_nodup_map coherent.distinct here mem
        (currentIs.trans (same ▸ nameIs.symm))
      subst one
      rw [Program.when,if_pos same]
      obtain ⟨more,⟨empty,last⟩ | ⟨e',next,last⟩⟩ := @replaceDefaultStep _ env
        {(((s.after 2).after calls).after 1) with reg := s.reg.remove e.1} works set
      · refine Eq.mpr (congrArg (Stepped _ s) last) ?_
        exact .unregisterLast mem nameIs default empty
      · refine Eq.mpr (congrArg (Stepped _ s) last) ?_
        exact .unregisterNext mem nameIs default next
    · rw [Program.when,if_neg same]
      refine .unregisterOther mem nameIs here default ?_
      rw [currentIs]
      exact fun h => same (Option.some.inj h)
  · rw [unregisterDistro,Program.bindOk first,Program.bindError run]
    exact .notFound set absent

theorem addedDistros {r : Registry upcase} {id : Wstr} (guid : isGuid id = true)
    (fresh : ¬ r.subkeys.Has id) (name full : Wstr) (version : UInt32) :
    (r.add id name full version).distros =
      r.distros ++ [(id,newValues name full version fun _ => none)] := by
  simp [distros,add,FoldedTable.insertFresh fresh,guid]

theorem newValuesName (name : CStr) (full : Wstr) (version : UInt32) (values : RegValues) :
    nameOf (newValues name.units full version values) = some name.units := by
  have apart : vnDistroName ≠ vnVersion ∧ vnDistroName ≠ vnState ∧ vnDistroName ≠ vnDir := by decide
  simp [nameOf,newValues,put,apart,RegValue.asSz,cstrSame]

theorem addedMember {r : Registry upcase} {id : Wstr} (guid : isGuid id = true)
    (fresh : ¬ r.subkeys.Has id) {name full : Wstr} {version : UInt32} {d : Wstr × RegValues} :
    d ∈ (r.add id name full version).distros ↔
      d ∈ r.distros ∨ d = (id,newValues name full version fun _ => none) := by
  rw [addedDistros guid fresh,List.mem_append,List.mem_singleton]

theorem addedNamed {r : Registry upcase} (h : r.Named) {id : Wstr} (guid : isGuid id = true)
    (fresh : ¬ r.subkeys.Has id) (name : CStr) (full : Wstr) (version : UInt32) :
    (r.add id name.units full version).Named := by
  intro d mem
  rcases (addedMember guid fresh).mp mem with old | rfl
  · exact h d old
  · exact ⟨_,newValuesName name full version _⟩

theorem editedNew {r : Registry upcase} {id : Wstr} (fresh : ¬ r.subkeys.Has id) (some' : id ≠ [])
    (f : RegValues → RegValues) :
    (r.create id).edit id f = {r with subkeys := r.subkeys.insert id (f fun _ => none)} := by
  have entries : ((r.subkeys.insert id fun _ => none).alter id f).entries =
      (r.subkeys.insert id (f fun _ => none)).entries := by
    rw [FoldedTable.alterInsertFresh fresh,FoldedTable.insertFresh fresh]
  rw [create,if_neg some',edit,FoldedTable.ext entries]

theorem ensureDefaultFirst (works : env.Works) (unset : s.reg.values vnDefaultDistro = none)
    (named : s.reg.Named) {d : Wstr × RegValues} (only : s.reg.distros = [d]) {name : CStr}
    (nameIs : nameOf d.2 = some name.units) : ∃ calls, ensureDefault env name.units s =
      (.ok (),{(s.after calls) with reg := s.reg.setDefault (some d.1)}) := by
  have missing := getDefaultDistroMissing works unset
  obtain ⟨calls,⟨e,mem,_,run⟩ | ⟨absent,_⟩⟩ :=
    @getDistroIdRun _ env (s.after 1) works named name.units
  · have one : e = d := by
      have mem : e ∈ s.reg.distros := mem
      simpa [only] using mem
    subst one
    refine ⟨1+calls+1,?_⟩
    rw [ensureDefault,catchLro,Program.rescueError (Program.bindError missing)]
    simp only [LroError.fromOther,LroError.fromHresult]
    rw [catchLro]
    refine Program.rescueOk ?_
    rw [setDefaultDistro,Program.bindOk run,setDefaultRun works]
    simp [RegState.after,Nat.add_assoc]
  · exact absurd nameIs (absent d (by show d ∈ s.reg.distros; simp [only]))

theorem ensureDefaultMore (works : env.Works) {d : Wstr × RegValues} (mem : d ∈ s.reg.distros)
    (default : s.reg.isDefault d) {current : Wstr} (named : nameOf d.2 = some current)
    (name : Wstr) : ensureDefault env name s = (.ok (),s.after 2) := by
  have found := getDefaultDistroRun works mem default named
  rw [ensureDefault,catchLro]
  refine Program.rescueOk ?_
  rw [Program.bindOk found]
  rfl

theorem newDistroKeyRun (works : env.Works) (named : s.reg.Named) {id : Wstr}
    (idIs : env.guid s.issued = .ok id) (name : CStr) : ∃ calls,
    (∃ d ∈ s.reg.distros, nameOf d.2 = some name.units ∧ newDistroKey env name.units s =
      (.error (.lro (.fromOther .errDistroExists [name.units])),s.after calls)) ∨
    (Absent s.reg name ∧ newDistroKey env name.units s =
      (.ok id,{(s.after calls) with issued := s.issued+1, reg := s.reg.create id})) := by
  obtain ⟨names,calls,run,perm⟩ := @listDistrosRun _ env s works named
  have listed : name.units ∈ names ↔ ∃ d ∈ s.reg.distros, nameOf d.2 = some name.units := by
    have one : name.units ∈ names ↔ some name.units ∈ names.map some := by simp
    rw [one,perm.mem_iff,List.mem_map]
  by_cases mem : name.units ∈ names
  · obtain ⟨d,here,nameIs⟩ := listed.mp mem
    refine ⟨calls,.inl ⟨d,here,nameIs,?_⟩⟩
    rw [newDistroKey,Program.bindOk run]
    simp [mem]
  · have asked : newGuid env (s.after calls) =
        (.ok id,{(s.after calls) with issued := s.issued+1}) := by
      simp [newGuid,Program.bindRun,RegState.after,idIs]
    refine ⟨calls+1,.inr ⟨fun d here nameIs => mem (listed.mpr ⟨d,here,nameIs⟩),?_⟩⟩
    rw [newDistroKey,Program.bindOk run,if_neg mem,Program.bindOk asked,
      Program.bindOk (createKeyRun works id)]
    rfl

theorem fillKeyRun (works : env.Works) {id : Wstr} (guid : isGuid id = true)
    (there : s.reg.subkeys.Has id) (name path : Wstr) (version : UInt32)
    (resolves : ∀ time, ∃ full, env.fullPath time path = .ok full)
    (rest : RegProgram upcase Unit) : ∃ calls full,
    (do
      setSz env id vnDistroName name
      let full ← getFullPath env path
      setSz env id vnDir full
      setDword env id vnState 1
      setDword env id vnVersion version
      rest : RegProgram upcase Unit) s =
    rest {(s.after calls) with reg := s.reg.edit id (newValues name full version)} := by
  obtain ⟨n1,run1⟩ := setKeyValue works guid vnDistroName (.sz name) s there
  let s1 : RegState upcase :=
    {(s.after n1) with reg := s.reg.edit id (put vnDistroName (some (.sz name)))}
  obtain ⟨full,fullIs⟩ := resolves s1.clock
  have path : getFullPath env path s1 = (.ok full,s1.after 1) := by
    simp [getFullPath,ask,Program.bindRun,RegState.after,fullIs]
  have there1 : (s1.after 1).reg.subkeys.Has id := FoldedTable.hasAlter.mpr there
  obtain ⟨n2,run2⟩ := setKeyValue works guid vnDir (.sz full) _ there1
  let s2 : RegState upcase :=
    {((s1.after 1).after n2) with reg := s1.reg.edit id (put vnDir (some (.sz full)))}
  have there2 : s2.reg.subkeys.Has id := FoldedTable.hasAlter.mpr there1
  obtain ⟨n3,run3⟩ := setKeyValue works guid vnState (.dword 1) s2 there2
  let s3 : RegState upcase :=
    {(s2.after n3) with reg := s2.reg.edit id (put vnState (some (.dword 1)))}
  have there3 : s3.reg.subkeys.Has id := FoldedTable.hasAlter.mpr there2
  obtain ⟨n4,run4⟩ := setKeyValue works guid vnVersion (.dword version) s3 there3
  refine ⟨n1+1+n2+n3+n4,full,?_⟩
  refine (Program.bindOk run1).trans ((Program.bindOk path).trans ((Program.bindOk run2).trans
    ((Program.bindOk run3).trans ((Program.bindOk run4).trans ?_))))
  simp only [s3,s2,s1,RegState.after,edit,FoldedTable.alterAlter,Nat.add_assoc]
  rfl

theorem registerDistroStep (works : env.Works) (coherent : s.reg.Coherent) (fresh : Fresh env s)
    (name path : CStr) (version : UInt32)
    (resolves : ∀ time, ∃ full, env.fullPath time path.units = .ok full) :
    Stepped (.register name path version) s
      (registerDistro env name.units path.units version s) := by
  obtain ⟨id,idIs,guid,unused⟩ := fresh
  obtain ⟨calls,⟨d,mem,nameIs,run⟩ | ⟨absent,run⟩⟩ :=
    newDistroKeyRun works coherent.named idIs name
  · rw [registerDistro,Program.bindError run]
    exact .exists' mem nameIs
  have some' := guidNonempty guid
  let s1 : RegState upcase :=
    {(s.after calls) with issued := s.issued+1, reg := s.reg.create id}
  have there : s1.reg.subkeys.Has id := by
    refine ⟨(id,fun _ => none),?_,rfl⟩
    simp [s1,create,some',FoldedTable.insertFresh unused]
  obtain ⟨more,full,filled⟩ := fillKeyRun works guid there name.units path.units version resolves
    (ensureDefault env name.units)
  let added := s.reg.add id name.units full version
  have reached : s1.reg.edit id (newValues name.units full version) = added :=
    editedNew unused some' _
  rw [reached] at filled
  rw [registerDistro,Program.bindOk run]
  refine Eq.mpr (congrArg (Stepped _ s) filled) ?_
  by_cases set : s.reg.values vnDefaultDistro = none
  · have distros := addedDistros guid unused name.units full version
    rw [coherent.unsetEmpty set] at distros
    obtain ⟨last,done⟩ := @ensureDefaultFirst _ env {(s1.after more) with reg := added}
      works set (addedNamed coherent.named guid unused name full version) _ distros name
      (newValuesName name full version _)
    rw [done]
    exact .registerFirst full guid unused absent set
  · obtain ⟨e,here,default⟩ := coherent.setListed set
    obtain ⟨current,currentIs⟩ := coherent.named e here
    have still : e ∈ added.distros := (addedMember guid unused).mpr (.inl here)
    have done := @ensureDefaultMore _ env {(s1.after more) with reg := added} works e still default
      current currentIs name.units
    rw [done]
    exact .registerMore full guid unused absent set

structure Granted (env : RegEnv) (op : DistroOp) (s : RegState upcase) : Prop where
  fresh : ∀ name path version, op = .register name path version → Fresh env s
  resolves : ∀ path ∈ op.paths, ∀ time, ∃ full, env.fullPath time path = .ok full

theorem opStep (works : env.Works) (coherent : s.reg.Coherent) {op : DistroOp}
    (granted : Granted env op s) : Stepped op s (op.run env s) := by
  cases op with
  | register name path version =>
    exact registerDistroStep works coherent (granted.fresh _ _ _ rfl) name path version
      (granted.resolves _ (by simp [DistroOp.paths]))
  | unregister name => exact unregisterDistroStep works coherent name
  | setDefault name => exact setDefaultDistroStep works coherent.named name
  | setDir name path =>
    exact setDistroDirStep works coherent.named name path
      (granted.resolves _ (by simp [DistroOp.paths]))
  | configure conf name desired => exact configureDistroStep works coherent.named conf name desired

end Reg
end LxRunOffline
