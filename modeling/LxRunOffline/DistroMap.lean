import LxRunOffline.DistroInvariant

/-! The registry as a map from names to the values stored for them, with one name marked as the
default. Every operation on a coherent registry is an operation on this map. -/
namespace LxRunOffline
open Registry

structure Catalog where
  distro : Wstr → Option RegValues
  default : Option Wstr

namespace Catalog

def put (c : Catalog) (name : Wstr) (values : Option RegValues) : Catalog :=
  {c with distro := Function.update c.distro name values}

/- What the five operations mean for the map. The system chooses the full form of a path, and
which distribution becomes the default when the default is unregistered. -/
inductive Step (c : Catalog) : DistroOp → Except Stop Unit → Catalog → Prop
  | notFound {op : DistroOp} (searches : op.Searches (c.default ≠ none))
      (absent : c.distro op.name.units = none) :
    Step c op (.error (.lro (.fromOther .errDistroNotFound [op.name.units]))) c
  | noDefault {name : CStr} (unset : c.default = none) :
    Step c (.unregister name) (.error (.lro (.fromOther .errNoDefaultDistro []))) c
  | exists' {name path : CStr} {version : UInt32} {values : RegValues}
      (there : c.distro name.units = some values) : Step c (.register name path version)
        (.error (.lro (.fromOther .errDistroExists [name.units]))) c
  | setDefault {name : CStr} {values : RegValues} (there : c.distro name.units = some values) :
    Step c (.setDefault name) (.ok ()) {c with default := some name.units}
  | setDir {name path : CStr} {values : RegValues} (full : Wstr)
      (there : c.distro name.units = some values) : Step c (.setDir name path) (.ok ())
        (c.put name.units (some (Registry.put vnDir (some (.sz full)) values)))
  | configure {conf : RegConfig} {name : CStr} {desired : UInt32} {values : RegValues}
      (there : c.distro name.units = some values) : Step c (.configure conf name desired) (.ok ())
        (c.put name.units (some (conf.store desired values)))
  | configureTooLong {conf : RegConfig} {name : CStr} {desired : UInt32} {values : RegValues}
      (there : c.distro name.units = some values) (wanted : desired &&& configEnv ≠ 0)
      (long : ¬ MultiFits conf.env) :
      Step c (.configure conf name desired) (.error .badArrayLength) c
  | register {name path : CStr} {version : UInt32} (full : Wstr)
      (absent : c.distro name.units = none) : Step c (.register name path version) (.ok ())
        {c.put name.units (some (newValues name.units full version fun _ => none)) with
          default := c.default.or (some name.units)}
  | unregisterOther {name : CStr} {values : RegValues} (there : c.distro name.units = some values)
      (other : c.default ≠ some name.units) :
      Step c (.unregister name) (.ok ()) (c.put name.units none)
  | unregisterDefault {name : CStr} {values : RegValues} {next : Option Wstr}
      (there : c.distro name.units = some values) (default : c.default = some name.units)
      (last : next = none → ∀ m, (c.put name.units none).distro m = none)
      (chosen : ∀ m, next = some m → (c.put name.units none).distro m ≠ none) :
      Step c (.unregister name) (.ok ()) {c.put name.units none with default := next}

end Catalog

namespace Registry
variable {upcase : WChar → WChar} {r : Registry upcase}

instance (r : Registry upcase) (d) : Decidable (r.isDefault d) := by
  unfold isDefault; infer_instance

def catalog (r : Registry upcase) : Catalog where
  distro name := (r.distros.find? fun d => nameOf d.2 = some name).map Prod.snd
  default := (r.distros.find? fun d => r.isDefault d).bind fun d => nameOf d.2

theorem catalogDistro (distinct : (r.distros.map fun d => nameOf d.2).Nodup) {name : Wstr}
    {values : RegValues} :
    r.catalog.distro name = some values ↔
      ∃ d ∈ r.distros, nameOf d.2 = some name ∧ d.2 = values := by
  refine ⟨fun found => ?_,?_⟩
  · obtain ⟨d,hit,same⟩ := Option.map_eq_some_iff.mp found
    exact ⟨d,List.mem_of_find?_eq_some hit,by simpa using List.find?_some hit,same⟩
  · rintro ⟨d,mem,named,rfl⟩
    cases hit : r.distros.find? fun d => nameOf d.2 = some name with
    | none => exact absurd named (by simpa using List.find?_eq_none.mp hit d mem)
    | some e =>
      have named' : nameOf e.2 = some name := by simpa using List.find?_some hit
      have one := List.inj_on_of_nodup_map distinct (List.mem_of_find?_eq_some hit) mem
        (named'.trans named.symm)
      simp [catalog,hit,one]

theorem catalogAbsent {name : CStr} : r.catalog.distro name.units = none ↔ Absent r name := by
  simp [catalog,Absent]

theorem isDefaultUnique {d e : Wstr × RegValues} (here : d ∈ r.distros) (mem : e ∈ r.distros)
    (hd : r.isDefault d) (he : r.isDefault e) : d = e :=
  FoldedTable.sameEntry (distroEntry here).1 (distroEntry mem).1
    (Option.some.inj (hd.symm.trans he))

theorem catalogDefault {name : Wstr} : r.catalog.default = some name ↔
    ∃ d ∈ r.distros, r.isDefault d ∧ nameOf d.2 = some name := by
  refine ⟨fun found => ?_,?_⟩
  · obtain ⟨d,hit,named⟩ := Option.bind_eq_some_iff.mp found
    exact ⟨d,List.mem_of_find?_eq_some hit,by simpa using List.find?_some hit,named⟩
  · rintro ⟨d,mem,default,named⟩
    cases hit : r.distros.find? fun d => r.isDefault d with
    | none => exact absurd default (by simpa using List.find?_eq_none.mp hit d mem)
    | some e =>
      have default' : r.isDefault e := by simpa using List.find?_some hit
      have one := isDefaultUnique (List.mem_of_find?_eq_some hit) mem default' default
      simp [catalog,hit,one,named]

theorem catalogUnset (unset : r.values vnDefaultDistro = none) : r.catalog.default = none := by
  refine Option.eq_none_iff_forall_ne_some.mpr fun m is => ?_
  obtain ⟨d,_,default,_⟩ := catalogDefault.mp is
  exact isDefaultSets default unset

theorem catalogSet (h : r.Coherent) (set : r.values vnDefaultDistro ≠ none) :
    ∃ m, r.catalog.default = some m := by
  obtain ⟨e,here,default⟩ := h.setListed set
  obtain ⟨m,nameIs⟩ := h.named e here
  exact ⟨m,catalogDefault.mpr ⟨e,here,default,nameIs⟩⟩

theorem editedCatalog (h : r.Coherent) {d : Wstr × RegValues} (mem : d ∈ r.distros) {name : Wstr}
    (named : nameOf d.2 = some name) {f : RegValues → RegValues}
    (keeps : ∀ values, nameOf (f values) = nameOf values) :
    (r.edit d.1 f).catalog = r.catalog.put name (some (f d.2)) := by
  have distro : ∀ m, (r.edit d.1 f).catalog.distro m =
      Function.update r.catalog.distro name (some (f d.2)) m := by
    intro m
    by_cases same : m = name
    · subst same
      rw [Function.update_self,catalogDistro (h.edit keeps).distinct,editedDistros]
      exact ⟨_,List.mem_map_of_mem mem,by simp [keeps,named],by simp⟩
    · rw [Function.update_of_ne same]
      refine Option.ext fun v => ?_
      rw [catalogDistro (h.edit keeps).distinct,catalogDistro h.distinct,editedDistros]
      simp only [List.mem_map,exists_exists_and_eq_and]
      refine exists_congr fun e => and_congr_right fun here => ?_
      by_cases key : e.1.map upcase = d.1.map upcase
      · have one := FoldedTable.sameEntry (distroEntry here).1 (distroEntry mem).1 key
        subst one
        simp [keeps,named,Ne.symm same]
      · simp [key]
  have default : (r.edit d.1 f).catalog.default = r.catalog.default := by
    refine Option.ext fun m => ?_
    rw [catalogDefault,catalogDefault,editedDistros]
    simp only [List.mem_map,exists_exists_and_eq_and]
    refine exists_congr fun e => and_congr_right fun here => and_congr_right fun _ => ?_
    by_cases key : e.1.map upcase = d.1.map upcase <;> simp [key,keeps]
  rw [Catalog.put,← default,← funext distro]

theorem pointedCatalog {d : Wstr × RegValues} (mem : d ∈ r.distros) {name : Wstr}
    (named : nameOf d.2 = some name) : (r.setDefault (some d.1)).catalog =
      {r.catalog with default := some name} := by
  have default : (r.setDefault (some d.1)).catalog.default = some name :=
    catalogDefault.mpr ⟨d,mem,isDefaultSet (distroEntry mem).2 r,named⟩
  rw [← default]
  rfl

theorem unpointedCatalog : (r.setDefault none).catalog = {r.catalog with default := none} := by
  have default : (r.setDefault none).catalog.default = none :=
    catalogUnset (by simp [setDefault,Registry.put])
  exact congrArg (Catalog.mk r.catalog.distro) default

theorem addedDefault (h : r.Coherent) {id : Wstr} (guid : isGuid id = true)
    (fresh : ¬ r.subkeys.Has id) (name full : Wstr) (version : UInt32) :
    (r.add id name full version).catalog.default = r.catalog.default := by
  refine Option.ext fun m => ?_
  rw [catalogDefault,catalogDefault]
  refine ⟨?_,fun ⟨d,mem,is⟩ => ⟨d,(Reg.addedMember guid fresh).mpr (.inl mem),is⟩⟩
  rintro ⟨d,mem,is,nameIs⟩
  rcases (Reg.addedMember guid fresh).mp mem with old | rfl
  · exact ⟨d,old,is,nameIs⟩
  · obtain ⟨e,here,default⟩ := h.setListed (isDefaultSets is)
    exact absurd ⟨e,(distroEntry here).1,Option.some.inj (default.symm.trans is)⟩ fresh

theorem addedCatalog (h : r.Coherent) {id : Wstr} (guid : isGuid id = true)
    (fresh : ¬ r.subkeys.Has id) {name : CStr} (absent : Absent r name) (full : Wstr)
    (version : UInt32) : (r.add id name.units full version).catalog =
      r.catalog.put name.units (some (newValues name.units full version fun _ => none)) := by
  have listed := Reg.addedDistros guid fresh name.units full version
  have named := Reg.newValuesName name full version fun _ => none
  have distro : ∀ m, (r.add id name.units full version).catalog.distro m = Function.update
      r.catalog.distro name.units (some (newValues name.units full version fun _ => none)) m := by
    intro m
    simp only [catalog,listed,List.find?_append]
    by_cases same : m = name.units
    · subst same
      have none' : r.distros.find? (fun d => nameOf d.2 = some name.units) = none :=
        List.find?_eq_none.mpr fun d mem => by simpa using absent d mem
      simp [none',named]
    · have apart : ¬ name.units = m := Ne.symm same
      simp [same,named,apart]
  rw [Catalog.put,← addedDefault h guid fresh name.units full version,← funext distro]

theorem removedCatalog (h : r.Coherent) {d : Wstr × RegValues} (mem : d ∈ r.distros) {name : Wstr}
    (named : nameOf d.2 = some name) :
    (r.remove d.1).catalog.distro = (r.catalog.put name none).distro := by
  funext m
  rw [Catalog.put]
  have still : ∀ e, e ∈ (r.remove d.1).distros ↔ e ∈ r.distros ∧ e ≠ d := by
    refine fun e => ⟨fun inside => ⟨(removedSublist d.1).subset inside,?_⟩,
      fun ⟨here,other⟩ => remainingDistro here mem other⟩
    rintro rfl
    rw [Reg.removedDistros] at inside
    simp at inside
  refine Option.ext fun v => ?_
  rw [catalogDistro (removedDistinct h d.1)]
  by_cases same : m = name
  · subst same
    refine iff_of_false ?_ (by simp)
    rintro ⟨e,inside,nameIs,_⟩
    obtain ⟨here,other⟩ := (still e).mp inside
    exact other (List.inj_on_of_nodup_map h.distinct here mem (nameIs.trans named.symm))
  · simp only [Function.update_of_ne same,catalogDistro h.distinct,still]
    refine exists_congr fun e => ⟨fun ⟨⟨here,_⟩,rest⟩ => ⟨here,rest⟩,
      fun ⟨here,rest⟩ => ⟨⟨here,?_⟩,rest⟩⟩
    rintro rfl
    exact same (Option.some.inj (rest.1.symm.trans named))

theorem removedDefault {d : Wstr × RegValues} {e : Wstr × RegValues} (here : e ∈ r.distros)
    (mem : d ∈ r.distros) (default : r.isDefault e) (other : e ≠ d) :
    (r.remove d.1).catalog.default = r.catalog.default := by
  refine Option.ext fun m => ?_
  rw [catalogDefault,catalogDefault]
  refine exists_congr fun x => ⟨fun ⟨inside,rest⟩ => ⟨(removedSublist d.1).subset inside,rest⟩,
    fun ⟨inside,is,rest⟩ => ⟨?_,is,rest⟩⟩
  rw [isDefaultUnique inside here is default]
  exact remainingDistro here mem other

end Registry

theorem stepRefines {upcase : WChar → WChar} {r r' : Registry upcase} {op : DistroOp}
    {outcome : Except Stop Unit} (h : r.Coherent) (step : DistroStep r op outcome r') :
    Catalog.Step r.catalog op outcome r'.catalog := by
  have found {d : Wstr × RegValues} (mem : d ∈ r.distros) {name : Wstr}
      (named : nameOf d.2 = some name) : r.catalog.distro name = some d.2 :=
    (catalogDistro h.distinct).mpr ⟨d,mem,named,rfl⟩
  cases step with
  | notFound searches absent =>
    refine .notFound ?_ (catalogAbsent.mpr absent)
    cases op with
    | register => exact searches
    | setDefault | setDir | configure => trivial
    | unregister =>
      obtain ⟨m,is⟩ := catalogSet h searches
      exact fun none' => by simp [is] at none'
  | noDefault unset => exact .noDefault (catalogUnset unset)
  | exists' mem named => exact .exists' (found mem named)
  | setDefault mem named =>
    rw [pointedCatalog mem named]
    exact .setDefault (found mem named)
  | setDir mem full named =>
    rw [editedCatalog h mem named (dirName full)]
    exact .setDir full (found mem named)
  | @configure d mem conf name desired named =>
    rw [editedCatalog h mem named (storeName conf desired)]
    exact .configure (found mem named)
  | configureTooLong mem named wanted long => exact .configureTooLong (found mem named) wanted long
  | @registerFirst name path version id full guid fresh absent unset =>
    have there : (id,newValues name.units full version fun _ => none) ∈
        (r.add id name.units full version).distros := (Reg.addedMember guid fresh).mpr (.inr rfl)
    have step : Catalog.Step r.catalog (.register name path version) (.ok ()) _ :=
      .register full (catalogAbsent.mpr absent)
    rw [catalogUnset unset,Option.none_or] at step
    have pointed := pointedCatalog there (Reg.newValuesName name full version _)
    rw [addedCatalog h guid fresh absent] at pointed
    rw [pointed]
    exact step
  | @registerMore name path version id full guid fresh absent set =>
    have some' : r.catalog.default.or (some name.units) = r.catalog.default := by
      obtain ⟨m,is⟩ := catalogSet h set
      rw [is,Option.some_or]
    have step : Catalog.Step r.catalog (.register name path version) (.ok ()) _ :=
      .register full (catalogAbsent.mpr absent)
    rw [some'] at step
    rw [addedCatalog h guid fresh absent]
    exact step
  | @unregisterOther d e mem name named here default other =>
    have apart : e ≠ d := fun same => other (same ▸ named)
    have kept := removedDefault here mem default apart
    have whole : (r.remove d.1).catalog = r.catalog.put name.units none :=
      congrArg₂ Catalog.mk (removedCatalog h mem named) kept
    rw [whole]
    refine .unregisterOther (found mem named) fun is => ?_
    obtain ⟨x,inside,isX,nameIs⟩ := catalogDefault.mp is
    exact other (isDefaultUnique inside here isX default ▸ nameIs)
  | @unregisterLast d mem name named default last =>
    have whole : ((r.remove d.1).setDefault none).catalog =
        {r.catalog.put name.units none with default := none} :=
      unpointedCatalog.trans (congrArg (Catalog.mk · none) (removedCatalog h mem named))
    rw [whole]
    refine .unregisterDefault (found mem named) (catalogDefault.mpr ⟨d,mem,default,named⟩)
      (fun _ m => ?_) (by simp)
    rw [← removedCatalog h mem named]
    simp [catalog,last]
  | @unregisterNext d e mem name named default next =>
    obtain ⟨m,nameIs⟩ := removedNamed h d.1 e next
    have whole : ((r.remove d.1).setDefault (some e.1)).catalog =
        {r.catalog.put name.units none with default := some m} :=
      (pointedCatalog next nameIs).trans
        (congrArg (Catalog.mk · (some m)) (removedCatalog h mem named))
    rw [whole]
    refine .unregisterDefault (found mem named) (catalogDefault.mpr ⟨d,mem,default,named⟩)
      (by simp) fun m' is => ?_
    obtain rfl := Option.some.inj is
    rw [← removedCatalog h mem named,
      (catalogDistro (removedDistinct h d.1)).mpr ⟨e,next,nameIs,rfl⟩]
    simp

namespace Registry
variable {upcase : WChar → WChar} {r : Registry upcase} {d e : Wstr × RegValues} {name : Wstr}

theorem editedOthers (mem : e ∈ r.distros) (named : nameOf e.2 = some name)
    (other : nameOf d.2 ≠ some name) {f : RegValues → RegValues}
    (keeps : ∀ values, nameOf (f values) = nameOf values) :
    d ∈ (r.edit e.1 f).distros ↔ d ∈ r.distros := by
  rw [editedDistros]
  constructor
  · intro inside
    obtain ⟨x,here,rfl⟩ := List.mem_map.mp inside
    by_cases key : x.1.map upcase = e.1.map upcase
    · have one := FoldedTable.sameEntry (distroEntry here).1 (distroEntry mem).1 key
      subst one
      simp [keeps,named] at other
    · simpa [key] using here
  · intro inside
    refine List.mem_map.mpr ⟨d,inside,?_⟩
    have key : d.1.map upcase ≠ e.1.map upcase := fun same => other (by
      rw [FoldedTable.sameEntry (distroEntry inside).1 (distroEntry mem).1 same,named])
    rw [if_neg key]

theorem removedOthers (mem : e ∈ r.distros) (named : nameOf e.2 = some name)
    (other : nameOf d.2 ≠ some name) : d ∈ (r.remove e.1).distros ↔ d ∈ r.distros :=
  ⟨fun inside => (removedSublist e.1).subset inside,
    fun inside => remainingDistro inside mem fun same => other (same ▸ named)⟩

theorem addedOthers {name : CStr} (other : nameOf d.2 ≠ some name.units) {id : Wstr}
    (guid : isGuid id = true) (fresh : ¬ r.subkeys.Has id) (full : Wstr) (version : UInt32) :
    d ∈ (r.add id name.units full version).distros ↔ d ∈ r.distros := by
  rw [Reg.addedMember guid fresh]
  refine or_iff_left ?_
  rintro rfl
  exact other (Reg.newValuesName name full version _)

end Registry

theorem stepKeeps {upcase : WChar → WChar} {r r' : Registry upcase} {op : DistroOp}
    {outcome : Except Stop Unit} (step : DistroStep r op outcome r') (d : Wstr × RegValues)
    (other : nameOf d.2 ≠ some op.name.units) : d ∈ r'.distros ↔ d ∈ r.distros := by
  cases step with
  | notFound | noDefault | exists' | setDefault | configureTooLong => exact Iff.rfl
  | setDir mem full named => exact editedOthers mem named other (dirName full)
  | @configure e mem conf name desired named =>
    exact editedOthers mem named other (storeName conf desired)
  | registerFirst full guid fresh | registerMore full guid fresh =>
    exact addedOthers other guid fresh full _
  | unregisterOther mem named | unregisterLast mem named | unregisterNext mem named =>
    exact removedOthers mem named other

theorem stepKeepsDefault {upcase : WChar → WChar} {r r' : Registry upcase} {name : CStr}
    {outcome : Except Stop Unit} (step : DistroStep r (.unregister name) outcome r')
    (other : ∀ d ∈ r.distros, r.isDefault d → nameOf d.2 ≠ some name.units) :
    r'.values vnDefaultDistro = r.values vnDefaultDistro := by
  cases step with
  | notFound | noDefault | unregisterOther => rfl
  | unregisterLast mem named default | unregisterNext mem named default =>
    exact absurd named (other _ mem default)

theorem listedOnce {upcase : WChar → WChar} {env : RegEnv} (works : env.Works)
    {s : RegState upcase} (h : s.reg.Coherent) {d : Wstr × RegValues} (mem : d ∈ s.reg.distros)
    {name : Wstr} (named : nameOf d.2 = some name) :
    ∃ names, (Reg.listDistros env s).1 = .ok names ∧ names.count name = 1 := by
  obtain ⟨names,calls,run,perm⟩ := @Reg.listDistrosRun _ env s works h.named
  refine ⟨names,by rw [run],?_⟩
  have distinct : names.Nodup := (perm.nodup_iff.mpr h.distinct).of_map _
  have inside : name ∈ names := by
    have there := perm.mem_iff.mpr (List.mem_map_of_mem mem)
    rw [named] at there
    simpa using there
  exact List.count_eq_one_of_mem distinct inside

theorem removeAdded {upcase : WChar → WChar} {r : Registry upcase} {id : Wstr}
    (fresh : ¬ r.subkeys.Has id) (name full : Wstr) (version : UInt32) :
    (r.add id name full version).remove id = r := by
  rw [Registry.remove,add,FoldedTable.eraseInsertFresh fresh]

section Undone
variable {upcase : WChar → WChar} {r r' : Registry upcase} {id full : Wstr} {name : CStr}
    {version : UInt32} {outcome : Except Stop Unit}

theorem newestKey (guid : isGuid id = true) (fresh : ¬ r.subkeys.Has id) (absent : Absent r name)
    {d : Wstr × RegValues} (mem : d ∈ (r.add id name.units full version).distros)
    (named : nameOf d.2 = some name.units) : d.1 = id := by
  rcases (Reg.addedMember guid fresh).mp mem with old | rfl
  · exact absurd named (absent d old)
  · rfl

theorem addedPresent (guid : isGuid id = true) (fresh : ¬ r.subkeys.Has id) :
    ¬ Absent (r.add id name.units full version) name := fun absent =>
  absent _ ((Reg.addedMember guid fresh).mpr (.inr rfl)) (Reg.newValuesName name full version _)

theorem firstUndone (h : r.Coherent) (guid : isGuid id = true) (fresh : ¬ r.subkeys.Has id)
    (absent : Absent r name) (unset : r.values vnDefaultDistro = none)
    (second : DistroStep ((r.add id name.units full version).setDefault (some id))
      (.unregister name) outcome r') : outcome = .ok () ∧ r' = r := by
  have empty := h.unsetEmpty unset
  cases second with
  | notFound _ none' => exact absurd none' (addedPresent guid fresh)
  | noDefault unset' => simp [Registry.setDefault,put] at unset'
  | @unregisterOther d e mem _ named here default other =>
    have here : e ∈ (r.add id name.units full version).distros := here
    rcases (Reg.addedMember guid fresh).mp here with old | rfl
    · simp [empty] at old
    · exact absurd (Reg.newValuesName name full version _) other
  | @unregisterLast d mem _ named default last =>
    rw [newestKey guid fresh absent mem named]
    have cleared : put vnDefaultDistro none (put vnDefaultDistro (some (.sz id)) r.values) =
        r.values := by
      funext n
      by_cases same : n = vnDefaultDistro <;> simp [put,same,unset]
    have back := removeAdded fresh name.units full version
    have keys : ((r.add id name.units full version).remove id).subkeys = r.subkeys := by rw [back]
    exact ⟨rfl,congrArg₂ Registry.mk cleared keys⟩
  | @unregisterNext d e mem _ named default next =>
    rw [newestKey guid fresh absent mem named] at next
    have next : e ∈ ((r.add id name.units full version).remove id).distros := next
    rw [removeAdded fresh,empty] at next
    simp at next

theorem moreUndone (h : r.Coherent) (guid : isGuid id = true) (fresh : ¬ r.subkeys.Has id)
    (absent : Absent r name) (set : r.values vnDefaultDistro ≠ none)
    (second : DistroStep (r.add id name.units full version) (.unregister name) outcome r') :
    outcome = .ok () ∧ r' = r := by
  have elsewhere {d : Wstr × RegValues} (mem : d ∈ (r.add id name.units full version).distros)
      (named : nameOf d.2 = some name.units)
      (default : (r.add id name.units full version).isDefault d) : False := by
    obtain ⟨e,here,default'⟩ := h.setListed set
    have key := newestKey guid fresh absent mem named
    refine fresh ⟨e,(distroEntry here).1,?_⟩
    rw [← key]
    exact Option.some.inj (default'.symm.trans default)
  cases second with
  | notFound _ none' => exact absurd none' (addedPresent guid fresh)
  | noDefault unset => exact absurd unset set
  | @unregisterOther d e mem _ named =>
    rw [newestKey guid fresh absent mem named]
    exact ⟨rfl,removeAdded fresh _ _ _⟩
  | unregisterLast mem named default | unregisterNext mem named default =>
    exact (elsewhere mem named default).elim

theorem registerUnregister {r'' : Registry upcase} (h : r.Coherent) {path : CStr}
    {registered : Except Stop Unit} (new : Absent r name)
    (first : DistroStep r (.register name path version) registered r')
    (second : DistroStep r' (.unregister name) outcome r'') :
    registered = .ok () ∧ outcome = .ok () ∧ r'' = r := by
  cases first with
  | notFound searches => exact searches.elim
  | exists' mem named => exact absurd named (new _ mem)
  | registerFirst full guid fresh absent unset =>
    exact ⟨rfl,firstUndone h guid fresh absent unset second⟩
  | registerMore full guid fresh absent set =>
    exact ⟨rfl,moreUndone h guid fresh absent set second⟩

end Undone

namespace Reg
variable {upcase : WChar → WChar} {env : RegEnv} {s : RegState upcase}

/- Every operation is one of the map; it leaves the other distributions and their place in the
list alone, and a default that names another; and registration can be taken back. -/
theorem operationsRefineMap (works : env.Works) (coherent : s.reg.Coherent) :
    (∀ op, Granted env op s →
      Catalog.Step s.reg.catalog op (op.run env s).1 (op.run env s).2.reg.catalog ∧
      (∀ d, nameOf d.2 ≠ some op.name.units →
        (d ∈ (op.run env s).2.reg.distros ↔ d ∈ s.reg.distros)) ∧
      (∀ d ∈ s.reg.distros, ∀ name, nameOf d.2 = some name → name ≠ op.name.units →
        ∃ names, (listDistros env (op.run env s).2).1 = .ok names ∧ names.count name = 1)) ∧
    (∀ name : CStr, (∀ d ∈ s.reg.distros, s.reg.isDefault d → nameOf d.2 ≠ some name.units) →
      (unregisterDistro env name.units s).2.reg.values vnDefaultDistro =
        s.reg.values vnDefaultDistro) ∧
    ∀ name path version, Granted env (.register name path version) s →
      Absent s.reg name → ∃ t, registerDistro env name.units path.units version s = (.ok (),t) ∧
        ∃ u, unregisterDistro env name.units t = (.ok (),u) ∧ u.reg = s.reg := by
  refine ⟨fun op granted => ?_,fun name other => ?_,fun name path version granted absent => ?_⟩
  · have step := opStep works coherent granted
    have after := stepCoherent step coherent
    refine ⟨stepRefines coherent step,stepKeeps step,fun d mem name named other => ?_⟩
    have still : d ∈ (op.run env s).2.reg.distros :=
      (stepKeeps step d (by rw [named]; exact fun h => other (Option.some.inj h))).mpr mem
    exact listedOnce works after still named
  · exact stepKeepsDefault (unregisterDistroStep works coherent name) other
  · have first := opStep works coherent granted
    have after := stepCoherent first coherent
    have second := unregisterDistroStep works after name
    obtain ⟨done,ok,back⟩ := registerUnregister coherent absent first second
    exact ⟨_,Prod.ext done rfl,_,Prod.ext ok rfl,back⟩

theorem registerUbuntuUndone : ∃ t,
    registerDistro plainEnv ubuntu.units (wstr "C:\\u") 2 noDistro = (.ok (),t) ∧
      ∃ u, unregisterDistro plainEnv ubuntu.units t = (.ok (),u) ∧
        u.reg = emptyRegistry asciiUpcase :=
  (operationsRefineMap (fun _ _ => rfl) (emptyCoherent asciiUpcase)).2.2 ubuntu
    ⟨wstr "C:\\u",by decide⟩ 2 plainGranted (by simp [Absent,distros,noDistro,emptyRegistry,
      FoldedTable.empty])

end Reg
end LxRunOffline
