import LxRunOffline.Distro

/-! What the operations do when no call of the system fails. Each lookup scans all keys in an
order of the system's choice, so the specifications speak of members and permutations only. -/
namespace LxRunOffline

def RegEnv.Works (env : RegEnv) : Prop := ∀ time call, env.status time call = 0

/- Some calls later, with nothing written. -/
def RegState.after {upcase : WChar → WChar} (s : RegState upcase) (calls : Nat) :
    RegState upcase := {s with clock := s.clock+calls}

theorem guidLength {id : Wstr} (h : isGuid id = true) : id.length = guidLen := by
  simp only [isGuid,Bool.and_eq_true,beq_iff_eq] at h
  exact h.1.trans (by decide)

theorem guidNonempty {id : Wstr} (h : isGuid id = true) : id ≠ [] := by
  intro none
  have size := guidLength h
  rw [none] at size
  contradiction

namespace Registry
variable {upcase : WChar → WChar}

def distros (r : Registry upcase) : List (Wstr × RegValues) :=
  r.subkeys.entries.filter fun d => isGuid d.1

def nameOf (values : RegValues) : Option Wstr := (values vnDistroName).bind RegValue.asSz

def Named (r : Registry upcase) : Prop := ∀ d ∈ r.distros, ∃ name, nameOf d.2 = some name

theorem distroEntry {r : Registry upcase} {d : Wstr × RegValues} (mem : d ∈ r.distros) :
    d ∈ r.subkeys.entries ∧ isGuid d.1 = true := by
  simpa [distros] using mem

theorem readDistro {r : Registry upcase} {d : Wstr × RegValues} (mem : d ∈ r.distros) {id : Wstr}
    (same : id.map upcase = d.1.map upcase) (name : Wstr) : r.read id name = d.2 name := by
  obtain ⟨entry,guid⟩ := distroEntry mem
  have some' : id ≠ [] := by
    rintro rfl
    exact guidNonempty guid (List.map_eq_nil_iff.mp same.symm)
  rw [read,if_neg some',FoldedTable.findMem entry same.symm,Option.bind_some]

end Registry

namespace Reg
open Registry
variable {upcase : WChar → WChar} {env : RegEnv} {s : RegState upcase} {α : Type}

theorem getValueRun (works : env.Works) {pick : RegValue → Option α} {sub name : Wstr}
    {v : RegValue} {a : α} (found : s.reg.read sub name = some v) (fits : pick v = some a) :
    getValue env pick sub name s = (.ok a,s.after 1) := by
  simp [getValue,ask,Program.bindRun,works _,found,fits,RegState.after]

theorem getValueMissing (works : env.Works) {pick : RegValue → Option α} {sub name : Wstr}
    (missing : s.reg.read sub name = none) : getValue env pick sub name s =
      (.error (.lro (.fromWin32 .errGetKeyValue [regBasePath ++ sub,name] errorFileNotFound)),
        s.after 1) := by
  simp [getValue,ask,Program.bindRun,works _,missing,throwWin32,RegState.after]

theorem setValueRun (works : env.Works) (sub name : Wstr) (value : RegValue) :
    setValue env sub name value s =
      (.ok (),{(s.after 1) with reg := s.reg.write sub name value}) := by
  simp [setValue,ask,change,Program.bindRun,works _,RegState.after]

theorem createKeyRun (works : env.Works) (sub : Wstr) :
    createKey env sub s = (.ok (),{(s.after 1) with reg := s.reg.create sub}) := by
  simp [createKey,ask,change,Program.bindRun,works _,RegState.after]

theorem deleteTreeRun (works : env.Works) {sub : Wstr} (there : s.reg.subkeys.Has sub) :
    deleteTree env sub s =
      (.ok (),{(s.after 1) with reg := {s.reg with subkeys := s.reg.subkeys.erase sub}}) := by
  simp [deleteTree,ask,change,Program.bindRun,works _,there,RegState.after]

theorem deleteValueRun (works : env.Works) {name : Wstr} (there : s.reg.values name ≠ none) :
    deleteValue env name s =
      (.ok (),{(s.after 1) with reg := {s.reg with values := put name none s.reg.values}}) := by
  simp [deleteValue,ask,change,Program.bindRun,works _,there,RegState.after]

theorem afterAfter (s : RegState upcase) (m n : Nat) : (s.after m).after n = s.after (m+n) := by
  simp [RegState.after,Nat.add_assoc]

theorem askRun (answer : Nat → α) :
    (ask answer : RegProgram upcase α) s = (.ok (answer s.clock),s.after 1) := rfl

theorem enumFromRun (works : env.Works) (names : List Wstr) : ∃ calls,
    enumFrom env names s = (.ok (names.filter isGuid),s.after calls) := by
  induction names generalizing s with
  | nil => exact ⟨1,by simp [enumFrom,Program.bindRun,askRun,works _]⟩
  | cons name names ih =>
    obtain ⟨calls,run⟩ := @ih (s.after 1)
    rw [afterAfter] at run
    refine ⟨1+calls,?_⟩
    have skips : errorMoreData ≠ errorNoMoreItems := by decide
    have goesOn : (0 : UInt32) ≠ errorNoMoreItems ∧ (0 : UInt32) ≠ errorMoreData := by decide
    simp only [enumFrom,Program.bindRun,askRun,works _,true_and]
    by_cases long : guidLen < name.length
    · have notGuid : isGuid name = false := by
        rw [Bool.eq_false_iff]
        exact fun h => absurd (guidLength h) (by omega)
      simp [long,skips,notGuid,run]
    · simp [long,goesOn,Program.bindRun,run,List.filter_cons]

theorem listDistroIdRun (works : env.Works) : ∃ ids calls,
    listDistroId env s = (.ok ids,s.after calls) ∧ ids.Perm (s.reg.distros.map Prod.fst) := by
  let listed := env.order (s.clock+1) (s.reg.subkeys.entries.map Prod.fst)
  obtain ⟨calls,run⟩ := @enumFromRun _ env ((s.after 1).after 1) works listed
  rw [afterAfter,afterAfter] at run
  refine ⟨listed.filter isGuid,1+1+calls,?_,?_⟩
  · have opened : createKey env [] s = (.ok (),s.after 1) := createKeyRun works []
    rw [listDistroId,Program.bindOk opened,Program.bindRun,Program.getRun]
    exact run
  · have perm := (env.orderPerm (s.clock+1) (s.reg.subkeys.entries.map Prod.fst)).filter isGuid
    rwa [List.filter_map] at perm

theorem distroNameRun (works : env.Works) {d : Wstr × RegValues} (mem : d ∈ s.reg.distros)
    {id : Wstr} (same : id.map upcase = d.1.map upcase) {name : Wstr}
    (named : nameOf d.2 = some name) : distroName env id s = (.ok name,s.after 1) := by
  obtain ⟨v,found,fits⟩ := Option.bind_eq_some_iff.mp named
  exact getValueRun works ((readDistro mem same _).trans found) fits

theorem distroNamesRun (works : env.Works) (named : s.reg.Named) {ids : List Wstr}
    (known : ∀ id ∈ ids, id ∈ s.reg.distros.map Prod.fst) : ∃ names calls,
    distroNames env ids s = (.ok names,s.after calls) ∧
      names.map some = ids.map fun id => (s.reg.read id vnDistroName).bind RegValue.asSz := by
  induction ids generalizing s with
  | nil => exact ⟨[],0,rfl,rfl⟩
  | cons id ids ih =>
    obtain ⟨d,mem,rfl⟩ := List.mem_map.mp (known id (by simp))
    obtain ⟨name,nameIs⟩ := named d mem
    obtain ⟨names,calls,run,all⟩ := @ih (s.after 1) named fun id h => known id (by simp [h])
    refine ⟨name :: names,1+calls,?_,?_⟩
    · rw [distroNames,Program.bindOk (distroNameRun works mem rfl nameIs),Program.bindOk run,
        afterAfter]
      rfl
    · rw [List.map_cons,List.map_cons,all,readDistro mem rfl,← nameIs]
      rfl

theorem listDistrosRun (works : env.Works) (named : s.reg.Named) : ∃ names calls,
    listDistros env s = (.ok names,s.after calls) ∧
      (names.map some).Perm (s.reg.distros.map fun d => nameOf d.2) := by
  obtain ⟨ids,calls,run,perm⟩ := @listDistroIdRun _ env s works
  have known : ∀ id ∈ ids, id ∈ (s.after calls).reg.distros.map Prod.fst :=
    fun id h => perm.mem_iff.mp h
  obtain ⟨names,more,runNames,all⟩ := @distroNamesRun _ env (s.after calls) works named ids known
  refine ⟨names,calls+more,?_,?_⟩
  · rw [listDistros,Program.bindOk run,runNames,afterAfter]
  · rw [all]
    refine (perm.map _).trans ?_
    rw [List.map_map]
    refine List.Perm.of_eq (List.map_congr_left fun d mem => ?_)
    rw [Function.comp_apply,nameOf]
    exact congrArg (·.bind RegValue.asSz) (readDistro mem rfl vnDistroName)

theorem findDistroRun (works : env.Works) (named : s.reg.Named) (name : Wstr) {ids : List Wstr}
    (known : ∀ id ∈ ids, id ∈ s.reg.distros.map Prod.fst) : ∃ calls,
    (∃ d ∈ s.reg.distros, d.1 ∈ ids ∧ nameOf d.2 = some name ∧
      findDistro env name ids s = (.ok d.1,s.after calls)) ∨
    ((∀ d ∈ s.reg.distros, d.1 ∈ ids → nameOf d.2 ≠ some name) ∧
      findDistro env name ids s =
        (.error (.lro (.fromOther .errDistroNotFound [name])),s.after calls)) := by
  induction ids generalizing s with
  | nil => exact ⟨0,.inr ⟨by simp,rfl⟩⟩
  | cons id ids ih =>
    obtain ⟨d,mem,rfl⟩ := List.mem_map.mp (known id (by simp))
    obtain ⟨current,nameIs⟩ := named d mem
    have head := distroNameRun works mem rfl nameIs
    by_cases same : name = current
    · subst same
      refine ⟨1,.inl ⟨d,mem,by simp,nameIs,?_⟩⟩
      rw [findDistro,Program.bindOk head,if_pos rfl]
      rfl
    · obtain ⟨calls,rest⟩ := @ih (s.after 1) named fun id h => known id (by simp [h])
      refine ⟨1+calls,rest.imp ?_ ?_⟩
      · rintro ⟨d',mem',inside,nameIs',run⟩
        refine ⟨d',mem',by simp [inside],nameIs',?_⟩
        rw [findDistro,Program.bindOk head,if_neg same,run,afterAfter]
      · rintro ⟨none,run⟩
        refine ⟨fun d' mem' inside => ?_,?_⟩
        · rcases List.mem_cons.mp inside with keys | later
          · have one : d' = d := FoldedTable.sameEntry (distroEntry mem').1 (distroEntry mem).1
              (congrArg _ keys)
            rw [one,nameIs]
            exact fun h => same (Option.some.inj h).symm
          · exact none d' mem' later
        · rw [findDistro,Program.bindOk head,if_neg same,run,afterAfter]

theorem getDistroIdRun (works : env.Works) (named : s.reg.Named) (name : Wstr) : ∃ calls,
    (∃ d ∈ s.reg.distros, nameOf d.2 = some name ∧
      getDistroId env name s = (.ok d.1,s.after calls)) ∨
    ((∀ d ∈ s.reg.distros, nameOf d.2 ≠ some name) ∧ getDistroId env name s =
      (.error (.lro (.fromOther .errDistroNotFound [name])),s.after calls)) := by
  obtain ⟨ids,calls,run,perm⟩ := @listDistroIdRun _ env s works
  have known : ∀ id ∈ ids, id ∈ (s.after calls).reg.distros.map Prod.fst :=
    fun id h => perm.mem_iff.mp h
  have listed : ∀ d ∈ s.reg.distros, d.1 ∈ ids :=
    fun d mem => perm.mem_iff.mpr (List.mem_map_of_mem mem)
  obtain ⟨more,found⟩ := @findDistroRun _ env (s.after calls) works named name ids known
  rw [afterAfter] at found
  refine ⟨calls+more,found.imp ?_ ?_⟩
  · rintro ⟨d,mem,_,nameIs,found⟩
    exact ⟨d,mem,nameIs,by rw [getDistroId,Program.bindOk run,found]⟩
  · rintro ⟨none,failed⟩
    exact ⟨fun d mem => none d mem (listed d mem),by rw [getDistroId,Program.bindOk run,failed]⟩

end Reg
end LxRunOffline
