import LxRunOffline.DistroStep

/-! The invariant of the registry store over whole runs. Coherence is preserved by every step,
so it holds after any sequence of operations on an empty key, and in a coherent registry a
distribution can be unregistered exactly when it is registered. -/
namespace LxRunOffline
open Registry

theorem shapeNoNul {shape : List (WChar → Bool)} (nonzero : shape.all fun p => !p 0) {str : Wstr}
    (size : str.length = shape.length) (all : (List.zipWith (fun p c => p c) shape str).all id) :
    0 ∉ str := by
  induction shape generalizing str with
  | nil => simp [List.eq_nil_of_length_eq_zero size]
  | cons p shape ih =>
    cases str with
    | nil => simp
    | cons c str =>
      simp only [List.zipWith_cons_cons,List.all_cons,Bool.and_eq_true,id_eq] at all nonzero
      have tail := ih nonzero.2 (by simpa using size) all.2
      rw [List.mem_cons,not_or]
      refine ⟨?_,tail⟩
      rintro rfl
      simp [all.1] at nonzero

theorem guidText {id : Wstr} (h : isGuid id = true) : cstr id = id := by
  simp only [isGuid,Bool.and_eq_true,beq_iff_eq] at h
  exact cstrSame ⟨id,shapeNoNul (by decide) h.1 h.2⟩

namespace Registry
variable {upcase : WChar → WChar} {r : Registry upcase}

theorem isDefaultSet {d : Wstr × RegValues} (guid : isGuid d.1 = true) (s : Registry upcase) :
    (s.setDefault (some d.1)).isDefault d := by
  simp [isDefault,defaultId,Registry.setDefault,put,RegValue.asSz,guidText guid]

theorem editedDistros (id : Wstr) (f : RegValues → RegValues) : (r.edit id f).distros =
    r.distros.map fun e => (e.1,if e.1.map upcase = id.map upcase then f e.2 else e.2) := by
  simp only [distros,edit,FoldedTable.alter,List.filter_map]
  rfl

theorem editedNames {id : Wstr} {f : RegValues → RegValues}
    (keeps : ∀ values, nameOf (f values) = nameOf values) :
    ((r.edit id f).distros.map fun d => nameOf d.2) = r.distros.map fun d => nameOf d.2 := by
  rw [editedDistros,List.map_map]
  refine List.map_congr_left fun e _ => ?_
  by_cases same : e.1.map upcase = id.map upcase <;> simp [same,keeps]

theorem Coherent.edit (h : r.Coherent) {id : Wstr} {f : RegValues → RegValues}
    (keeps : ∀ values, nameOf (f values) = nameOf values) : (r.edit id f).Coherent where
  named := by
    intro d mem
    have name : nameOf d.2 ∈ (r.edit id f).distros.map fun d => nameOf d.2 :=
      List.mem_map_of_mem mem
    rw [editedNames keeps] at name
    obtain ⟨e,here,same⟩ := List.mem_map.mp name
    rw [← same]
    exact h.named e here
  distinct := by rw [editedNames keeps]; exact h.distinct
  default := by
    rw [editedDistros]
    refine h.default.imp (fun ⟨unset,empty⟩ => ⟨unset,by simp [empty]⟩) ?_
    rintro ⟨e,here,default⟩
    exact ⟨_,List.mem_map_of_mem here,default⟩

theorem Coherent.setDefault (h : r.Coherent) {d : Wstr × RegValues} (mem : d ∈ r.distros) :
    (r.setDefault (some d.1)).Coherent :=
  ⟨h.named,h.distinct,.inr ⟨d,mem,isDefaultSet (distroEntry mem).2 r⟩⟩

theorem remainingDistro {d e : Wstr × RegValues} (here : e ∈ r.distros) (mem : d ∈ r.distros)
    (other : e ≠ d) : e ∈ (r.remove d.1).distros := by
  rw [Reg.removedDistros]
  refine List.mem_filter.mpr ⟨here,?_⟩
  have apart : e.1.map upcase ≠ d.1.map upcase := fun same =>
    other (FoldedTable.sameEntry (distroEntry here).1 (distroEntry mem).1 same)
  simpa using apart

theorem removedSublist (id : Wstr) : (r.remove id).distros.Sublist r.distros := by
  rw [Reg.removedDistros]
  exact List.filter_sublist

theorem removedNamed (h : r.Coherent) (id : Wstr) : (r.remove id).Named :=
  fun e mem => h.named e ((removedSublist id).subset mem)

theorem removedDistinct (h : r.Coherent) (id : Wstr) :
    ((r.remove id).distros.map fun d => nameOf d.2).Nodup :=
  h.distinct.sublist ((removedSublist id).map _)

theorem addedDistinct (h : r.Coherent) {id : Wstr} (guid : isGuid id = true)
    (fresh : ¬ r.subkeys.Has id) {name : CStr} (absent : Absent r name) (full : Wstr)
    (version : UInt32) :
    ((r.add id name.units full version).distros.map fun d => nameOf d.2).Nodup := by
  rw [Reg.addedDistros guid fresh,List.map_append,List.map_singleton,← List.concat_eq_append]
  refine h.distinct.concat fun mem => ?_
  obtain ⟨d,here,same⟩ := List.mem_map.mp mem
  exact absent d here (same.trans (Reg.newValuesName name full version _))

end Registry

theorem storeName (conf : RegConfig) (desired : UInt32) (values : RegValues) :
    nameOf (conf.store desired values) = nameOf values := by
  have apart : vnDistroName ≠ vnFlags ∧ vnDistroName ≠ vnKernelCmd ∧ vnDistroName ≠ vnUid ∧
    vnDistroName ≠ vnEnv := by decide
  have keeps (c : Prop) [Decidable c] (name : Wstr) (other : vnDistroName ≠ name)
      (value : RegValue) (v : RegValues) : putIf c name value v vnDistroName = v vnDistroName := by
    by_cases h : c <;> simp [putIf,put,h,other]
  simp only [nameOf,RegConfig.store,keeps _ _ apart.1,keeps _ _ apart.2.1,keeps _ _ apart.2.2.1,
    keeps _ _ apart.2.2.2]

theorem dirName (full : Wstr) (values : RegValues) :
    nameOf (put vnDir (some (.sz full)) values) = nameOf values := by
  have apart : vnDistroName ≠ vnDir := by decide
  simp [nameOf,put,apart]

theorem stepCoherent {upcase : WChar → WChar} {r r' : Registry upcase}
    {op : DistroOp} {outcome : Except Stop Unit} (step : DistroStep r op outcome r')
    (h : r.Coherent) : r'.Coherent := by
  cases step with
  | notFound | noDefault | exists' | configureTooLong => exact h
  | setDefault mem => exact h.setDefault mem
  | setDir mem full => exact h.edit (dirName full)
  | @configure d mem conf name desired => exact h.edit (storeName conf desired)
  | @registerFirst name path version id full guid fresh absent unset =>
    let new := (id,newValues name.units full version fun _ => none)
    have there : new ∈ (r.add id name.units full version).distros :=
      (Reg.addedMember guid fresh).mpr (.inr rfl)
    exact ⟨Reg.addedNamed h.named guid fresh name full version,
      addedDistinct h guid fresh absent full version,.inr ⟨new,there,@isDefaultSet _ new guid _⟩⟩
  | @registerMore name path version id full guid fresh absent set =>
    obtain ⟨e,here,default⟩ := h.setListed set
    exact ⟨Reg.addedNamed h.named guid fresh name full version,
      addedDistinct h guid fresh absent full version,
      .inr ⟨e,(Reg.addedMember guid fresh).mpr (.inl here),default⟩⟩
  | @unregisterOther d e mem name named here default other =>
    have apart : e ≠ d := fun same => other (same ▸ named)
    exact ⟨removedNamed h d.1,removedDistinct h d.1,
      .inr ⟨e,remainingDistro here mem apart,default⟩⟩
  | @unregisterLast d mem name named default last =>
    exact ⟨removedNamed h d.1,removedDistinct h d.1,.inl ⟨rfl,last⟩⟩
  | @unregisterNext d e mem name named default next =>
    exact ⟨removedNamed h d.1,removedDistinct h d.1,
      .inr ⟨e,next,isDefaultSet (distroEntry next).2 _⟩⟩

def DefaultExact {upcase : WChar → WChar} (r : Registry upcase) : Prop :=
  ∀ v, r.values vnDefaultDistro = some v → ∃ d ∈ r.distros, v = .sz d.1

theorem stepDefaultExact {upcase : WChar → WChar} {r r' : Registry upcase}
    {op : DistroOp} {outcome : Except Stop Unit} (step : DistroStep r op outcome r')
    (exact' : DefaultExact r) : DefaultExact r' := by
  have edited (id : Wstr) (f : RegValues → RegValues) : DefaultExact (r.edit id f) := by
    intro v is
    obtain ⟨d,mem,same⟩ := exact' v is
    rw [editedDistros]
    exact ⟨_,List.mem_map_of_mem mem,same⟩
  have pointed (s : Registry upcase) (d : Wstr × RegValues) (mem : d ∈ s.distros) :
      DefaultExact (s.setDefault (some d.1)) := fun v is =>
    ⟨d,mem,by simpa [Registry.setDefault,put,eq_comm] using is⟩
  cases step with
  | notFound | noDefault | exists' | configureTooLong => exact exact'
  | @setDefault d mem => exact pointed r d mem
  | setDir | configure => exact edited _ _
  | @registerFirst name path version id full guid fresh absent unset =>
    exact pointed _ (id,_) ((Reg.addedMember guid fresh).mpr (.inr rfl))
  | @registerMore name path version id full guid fresh absent set =>
    intro v is
    obtain ⟨d,mem,same⟩ := exact' v is
    exact ⟨d,(Reg.addedMember guid fresh).mpr (.inl mem),same⟩
  | @unregisterOther d e mem name named here default other =>
    intro v is
    obtain ⟨d',mem',rfl⟩ := exact' v is
    refine ⟨d',remainingDistro mem' mem fun same => other ?_,rfl⟩
    have text := guidText (distroEntry mem').2
    have keys : d'.1.map upcase = e.1.map upcase := by
      have is : r.values vnDefaultDistro = some (.sz d'.1) := is
      simpa [isDefault,defaultId,is,RegValue.asSz,text] using default
    have one := FoldedTable.sameEntry (distroEntry mem').1 (distroEntry here).1 keys
    rw [← one,same]
    exact named
  | unregisterLast => exact fun v is => by simp [Registry.setDefault,put] at is
  | @unregisterNext d e mem name named default next => exact pointed _ e next

inductive Runs {upcase : WChar → WChar} (env : RegEnv) :
    RegState upcase → List DistroOp → RegState upcase → Prop
  | nil (s) : Runs env s [] s
  | cons {s t : RegState upcase} {op : DistroOp} {ops : List DistroOp}
      (granted : Reg.Granted env op s) (rest : Runs env (op.run env s).2 ops t) :
      Runs env s (op :: ops) t

theorem runInvariant {upcase : WChar → WChar} {env : RegEnv} (works : env.Works)
    {s t : RegState upcase} {ops : List DistroOp} (run : Runs env s ops t)
    (coherent : s.reg.Coherent) (exact' : DefaultExact s.reg) :
    t.reg.Coherent ∧ DefaultExact t.reg := by
  induction run with
  | nil => exact ⟨coherent,exact'⟩
  | cons granted rest ih =>
    have step := Reg.opStep works coherent granted
    exact ih (stepCoherent step coherent) (stepDefaultExact step exact')

def emptyRegistry (upcase : WChar → WChar) : Registry upcase := ⟨fun _ => none,FoldedTable.empty⟩

theorem emptyCoherent (upcase : WChar → WChar) : (emptyRegistry upcase).Coherent :=
  ⟨by simp [Named,distros,emptyRegistry,FoldedTable.empty],
    by simp [distros,emptyRegistry,FoldedTable.empty],
    .inl ⟨rfl,by simp [distros,emptyRegistry,FoldedTable.empty]⟩⟩

/- A name is taken at most once, the default names a distribution whenever there is one, and so
no distribution is ever out of reach of `unregister_distro`. -/
theorem storeInvariant {upcase : WChar → WChar} {env : RegEnv} (works : env.Works)
    {start s : RegState upcase} (empty : start.reg = emptyRegistry upcase) {ops : List DistroOp}
    (run : Runs env start ops s) :
    (∀ d ∈ s.reg.distros, ∃ name, nameOf d.2 = some name) ∧
    (s.reg.distros.map fun d => nameOf d.2).Nodup ∧
    (s.reg.values vnDefaultDistro ≠ none ↔ s.reg.distros ≠ []) ∧
    (∀ v, s.reg.values vnDefaultDistro = some v → ∃ d ∈ s.reg.distros, v = .sz d.1) ∧
    ∀ name : CStr, (Reg.unregisterDistro env name.units s).1 = .ok () ↔
      ∃ d ∈ s.reg.distros, nameOf d.2 = some name.units := by
  obtain ⟨coherent,exact'⟩ := runInvariant works run (empty ▸ emptyCoherent upcase)
    (by rw [empty]; intro v is; contradiction)
  refine ⟨coherent.named,coherent.distinct,?_,exact',fun name => ?_⟩
  · rcases coherent.default with ⟨unset,empty⟩ | ⟨d,mem,default⟩
    · simp [unset,empty]
    · exact iff_of_true (isDefaultSets default) (List.ne_nil_of_mem mem)
  · have step := Reg.unregisterDistroStep works coherent name
    unfold Stepped at step
    generalize (Reg.unregisterDistro env name.units s).2.reg = r' at step
    generalize (Reg.unregisterDistro env name.units s).1 = outcome at step ⊢
    cases step with
    | notFound _ absent =>
      refine iff_of_false (by simp) fun there => ?_
      obtain ⟨d,mem,named⟩ := there
      exact absent d mem named
    | noDefault unset => simp [coherent.unsetEmpty unset]
    | unregisterOther mem named => exact iff_of_true rfl ⟨_,mem,named⟩
    | unregisterLast mem named => exact iff_of_true rfl ⟨_,mem,named⟩
    | unregisterNext mem named => exact iff_of_true rfl ⟨_,mem,named⟩

def plainEnv : RegEnv where
  status _ _ := 0
  order _ names := names
  orderPerm _ _ := .refl _
  guid n := .ok (wstr "\x7b00000000-0000-0000-0000-00000000000" ++ [(48+n%10).toUInt16] ++ wstr "\x7d")
  fullPath _ path := .ok path

def asciiUpcase (c : WChar) : WChar := if 97 ≤ c ∧ c ≤ 122 then c-32 else c

def noDistro : RegState asciiUpcase := ⟨0,0,emptyRegistry asciiUpcase⟩

def ubuntu : CStr := ⟨wstr "Ubuntu",by decide⟩
def registerUbuntu : DistroOp := .register ubuntu ⟨wstr "C:\\u",by decide⟩ 2

theorem plainGranted : Reg.Granted plainEnv registerUbuntu noDistro := by
  refine ⟨fun _ _ _ _ => ⟨wstr "\x7b00000000-0000-0000-0000-000000000000\x7d",rfl,by decide,?_⟩,
    fun path _ _ => ⟨path,rfl⟩⟩
  rintro ⟨e,mem,_⟩
  simp [noDistro,emptyRegistry,FoldedTable.empty] at mem

theorem storeInvariantUbuntu :
    let s := (registerUbuntu.run plainEnv noDistro).2
    (∀ d ∈ s.reg.distros, ∃ name, nameOf d.2 = some name) ∧
    (s.reg.distros.map fun d => nameOf d.2).Nodup ∧
    (s.reg.values vnDefaultDistro ≠ none ↔ s.reg.distros ≠ []) ∧
    (∀ v, s.reg.values vnDefaultDistro = some v → ∃ d ∈ s.reg.distros, v = .sz d.1) ∧
    ∀ name : CStr, (Reg.unregisterDistro plainEnv name.units s).1 = .ok () ↔
      ∃ d ∈ s.reg.distros, nameOf d.2 = some name.units :=
  storeInvariant (fun _ _ => rfl) rfl (.cons plainGranted (.nil _))

end LxRunOffline
