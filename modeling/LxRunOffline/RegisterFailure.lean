import LxRunOffline.DistroInvariant

/-! What `register_distro` leaves behind when it throws. Nothing takes the new key back, so it
leaves the registry alone exactly when the key was never created or nothing failed behind it. -/
namespace LxRunOffline
open Registry

namespace Reg
variable {upcase : WChar → WChar} (env : RegEnv) {α β : Type}

def Same (s t : RegState upcase) : Prop := t.reg = s.reg ∧ t.issued = s.issued

structure Reads (x : RegProgram upcase α) : Prop where
  keeps : ∀ s : RegState upcase, Program.Triple (Same s) x (fun _ => Same s)
    (fun e t => Same s t ∧ ∃ l, e = .lro l)

variable {env}

theorem Reads.bind {x : RegProgram upcase α} {f : α → RegProgram upcase β} (hx : Reads x)
    (hf : ∀ a, Reads (f a)) : Reads (x >>= f) :=
  ⟨fun r => Program.Triple.bind (hx.keeps r) fun a => (hf a).keeps r⟩

theorem Reads.pure (a : α) : Reads (Pure.pure a : RegProgram upcase α) := ⟨fun _ _ h => h⟩

theorem Reads.ask (answer : Nat → α) : Reads (Reg.ask answer : RegProgram upcase α) :=
  ⟨fun _ _ h => h⟩

theorem Reads.get {f : RegState upcase → RegProgram upcase α} (h : ∀ s, Reads (f s)) :
    Reads (Program.get >>= f) := ⟨fun r s hs => (h s).keeps r s hs⟩

theorem Reads.throwWin32 (msg : ErrMsg) (args : List Wstr) (code : UInt32) :
    Reads (Reg.throwWin32 msg args code : RegProgram upcase α) := ⟨fun _ _ h => ⟨h,_,rfl⟩⟩

theorem Reads.raise (l : LroError) :
    Reads (Program.raise (.lro l) : RegProgram upcase α) := ⟨fun _ _ h => ⟨h,l,rfl⟩⟩

theorem Reads.ite {c : Prop} [Decidable c] {x y : RegProgram upcase α} (hx : Reads x)
    (hy : Reads y) : Reads (if c then x else y) := by
  split <;> assumption

theorem Reads.catchLro {x : RegProgram upcase α} {handler : LroError → RegProgram upcase α}
    (hx : Reads x) (hh : ∀ e, Reads (handler e)) : Reads (LxRunOffline.catchLro x handler) := by
  refine ⟨fun r => Program.Triple.rescue (hx.keeps r) fun e => ?_⟩
  rintro s ⟨h,l,rfl⟩
  exact (hh l).keeps r s h

theorem getValueReads (pick : RegValue → Option α) (sub name : Wstr) :
    Reads (getValue env pick sub name : RegProgram upcase α) := by
  refine .bind (.ask _) fun code => .get fun s => .ite (.throwWin32 ..) ?_
  split
  · exact .throwWin32 ..
  · split
    · exact .throwWin32 ..
    · exact .pure _

theorem enumFromReads (names : List Wstr) :
    Reads (enumFrom env names : RegProgram upcase (List Wstr)) := by
  induction names with
  | nil => exact .bind (.ask _) fun code => .ite (.pure _) (.throwWin32 ..)
  | cons name names ih =>
    exact .bind (.ask _) fun code => .ite (.pure _) (.ite ih (.ite (.throwWin32 ..)
      (.bind ih fun ids => .pure _)))

theorem listDistroIdReads : Reads (listDistroId env : RegProgram upcase (List Wstr)) := by
  have opened : Reads (createKey env [] : RegProgram upcase Unit) :=
    .bind (.ask _) fun code => .ite (.throwWin32 ..) ⟨fun _ _ h => h⟩
  exact .bind opened fun _ => .get fun s => .bind (.ask _) fun names => enumFromReads names

theorem distroNamesReads (ids : List Wstr) :
    Reads (distroNames env ids : RegProgram upcase (List Wstr)) := by
  induction ids with
  | nil => exact .pure _
  | cons id ids ih => exact .bind (getValueReads ..) fun name => .bind ih fun names => .pure _

theorem findDistroReads (name : Wstr) (ids : List Wstr) :
    Reads (findDistro env name ids : RegProgram upcase Wstr) := by
  induction ids with
  | nil => exact .raise _
  | cons id ids ih => exact .bind (getValueReads ..) fun current => .ite (.pure _) ih

theorem getDistroIdReads (name : Wstr) : Reads (getDistroId env name : RegProgram upcase Wstr) :=
  .bind listDistroIdReads fun ids => findDistroReads name ids

theorem getFullPathReads (path : Wstr) : Reads (getFullPath env path : RegProgram upcase Wstr) := by
  refine .bind (.ask _) fun full => ?_
  cases full with
  | error code => exact .throwWin32 ..
  | ok full => exact .pure full

theorem getDefaultDistroReads : Reads (getDefaultDistro env : RegProgram upcase Wstr) :=
  .catchLro (.bind (getValueReads ..) fun _ => getValueReads ..)
    fun _ => .ite (.raise _) (.raise _)

def throwsLro (x : RegProgram upcase α) : Prop :=
  Program.Triple (fun _ => True) x (fun _ _ => True) (fun e _ => ∃ l, e = .lro l)

def returns (x : RegProgram upcase α) : Prop :=
  Program.Triple (fun _ => True) x (fun _ _ => True) (fun _ _ => False)

theorem Reads.throwsLro {x : RegProgram upcase α} (h : Reads x) : throwsLro x := by
  intro s _
  have here := h.keeps s s ⟨rfl,rfl⟩
  cases hx : x s with
  | mk outcome t =>
    rw [hx] at here
    cases outcome with
    | ok a => trivial
    | error e => exact here.2

theorem Reads.leaves {x : RegProgram upcase α} (h : Reads x) :
    Program.Leaves (fun s => s.reg) x := by
  intro s
  have kept := h.keeps s s ⟨rfl,rfl⟩
  cases run : x s with
  | mk outcome t =>
    rw [run] at kept
    cases outcome with
    | ok a => exact kept.1
    | error e => exact kept.1.1

theorem catchReturns {x : RegProgram upcase α} {handler : LroError → RegProgram upcase α}
    (hx : throwsLro x) (hh : ∀ e, returns (handler e)) : returns (catchLro x handler) := by
  refine Program.Triple.rescue hx fun e => ?_
  rintro s ⟨l,rfl⟩
  exact hh l s trivial

theorem returns.run {x : RegProgram upcase α} (h : returns x) (s : RegState upcase) :
    ∃ a t, x s = (.ok a,t) := by
  have here := h s trivial
  cases hx : x s with
  | mk outcome t =>
    rw [hx] at here
    cases outcome with
    | ok a => exact ⟨a,t,rfl⟩
    | error e => exact here.elim

theorem ensureDefaultReturns (name : Wstr) :
    returns (ensureDefault env name : RegProgram upcase Unit) := by
  have writes : throwsLro (setDefaultDistro env name : RegProgram upcase Unit) := by
    refine Program.Triple.bind (getDistroIdReads name).throwsLro fun id => ?_
    refine Program.Triple.bind (Reads.ask _).throwsLro fun code => ?_
    exact Program.Triple.ite (fun _ _ _ => ⟨_,rfl⟩) (fun _ _ _ => trivial)
  refine catchReturns (Reads.bind getDefaultDistroReads fun _ => .pure ()).throwsLro fun e => ?_
  refine Program.Triple.ite (fun _ => ?_) (fun _ _ _ => trivial)
  exact catchReturns writes fun _ _ _ => trivial

theorem listDistrosReads : Reads (listDistros env : RegProgram upcase (List Wstr)) :=
  .bind listDistroIdReads fun ids => distroNamesReads ids

theorem newDistroKeyWrites (name : Wstr) (s : RegState upcase) :
    Program.Triple (Same s) (newDistroKey env name)
      (fun id t => env.guid s.issued = .ok id ∧ t.reg = s.reg.create id)
      (fun _ t => t.reg = s.reg) := by
  have listed := (@listDistrosReads upcase env).keeps s
  refine Program.Triple.bind (listed.weaken (fun _ h => h) (fun _ _ h => h) (fun _ _ h => h.1.1))
    fun names => Program.Triple.ite (fun _ _ h => h.1) (fun _ => ?_)
  have asked : Program.Triple (Same s) (newGuid env)
      (fun id t => env.guid s.issued = .ok id ∧ t.reg = s.reg) (fun _ t => t.reg = s.reg) := by
    rintro t ⟨reg,issued⟩
    cases guid : env.guid s.issued with
    | ok id =>
      have run : newGuid env t = (.ok id,{t with issued := t.issued+1}) := by
        simp [newGuid,Program.bindRun,issued,guid]
      rw [run]
      exact ⟨rfl,reg⟩
    | error hr =>
      have run : newGuid env t = (.error (.lro (.fromHresult .errCreateGuid [] hr)),
          {t with issued := t.issued+1}) := by
        simp [newGuid,Program.bindRun,issued,guid]
      rw [run]
      exact reg
  refine asked.bind fun id => ?_
  have created : Program.Triple (fun t => env.guid s.issued = .ok id ∧ t.reg = s.reg)
      (createKey env id) (fun _ t => env.guid s.issued = .ok id ∧ t.reg = s.reg.create id)
      (fun _ t => t.reg = s.reg) := by
    rintro t ⟨guid,reg⟩
    by_cases zero : env.status t.clock (.createKey (regBasePath ++ id)) = 0
    · simpa [createKey,askRun,change,Program.bindRun,zero,Program.Ends,RegState.after,reg] using guid
    · simpa [createKey,askRun,Program.bindRun,zero,Program.Ends,RegState.after,throwWin32] using reg
  exact created.bind fun _ => Program.Triple.pure fun t h => h

structure Completes (env : RegEnv) (id path : Wstr) (time : Nat) : Prop where
  name : env.status time (.setValue (regBasePath ++ id) vnDistroName) = 0
  full : ∃ full, env.fullPath (time+1) path = .ok full
  dir : env.status (time+2) (.setValue (regBasePath ++ id) vnDir) = 0
  state : env.status (time+3) (.setValue (regBasePath ++ id) vnState) = 0
  version : env.status (time+4) (.setValue (regBasePath ++ id) vnVersion) = 0

def fillKey (env : RegEnv) (id name path : Wstr) (version : UInt32) : RegProgram upcase Unit := do
  setSz env id vnDistroName name
  let full ← getFullPath env path
  setSz env id vnDir full
  setDword env id vnState 1
  setDword env id vnVersion version
  ensureDefault env name

theorem registerParts (name path : Wstr) (version : UInt32) :
    (registerDistro env name path version : RegProgram upcase Unit) =
      (newDistroKey env name >>= fun id => fillKey env id name path version) := rfl

theorem setValueSource {sub name : Wstr} {value : RegValue} {s t : RegState upcase} {a : Unit}
    (h : setValue env sub name value s = (.ok a,t)) :
    env.status s.clock (.setValue (regBasePath ++ sub) name) = 0 ∧
      t = {(s.after 1) with reg := s.reg.write sub name value} := by
  by_cases zero : env.status s.clock (.setValue (regBasePath ++ sub) name) = 0
  · refine ⟨zero,?_⟩
    simpa [setValue,askRun,change,Program.bindRun,zero,eq_comm,RegState.after] using h
  · simp [setValue,askRun,throwWin32,Program.bindRun,zero] at h

theorem setValueDone {sub name : Wstr} (value : RegValue) {s : RegState upcase}
    (zero : env.status s.clock (.setValue (regBasePath ++ sub) name) = 0) :
    setValue env sub name value s =
      (.ok (),{(s.after 1) with reg := s.reg.write sub name value}) := by
  simp [setValue,askRun,change,Program.bindRun,zero,RegState.after]

theorem getFullPathSource {path full : Wstr} {s t : RegState upcase}
    (h : getFullPath env path s = (.ok full,t)) :
    env.fullPath s.clock path = .ok full ∧ t = s.after 1 := by
  cases resolved : env.fullPath s.clock path with
  | error code => simp [getFullPath,askRun,throwWin32,Program.bindRun,resolved] at h
  | ok full' =>
    have run : getFullPath env path s = (.ok full',s.after 1) := by
      simp [getFullPath,askRun,Program.bindRun,resolved]
    rw [run] at h
    simpa [eq_comm] using h

theorem getFullPathDone {path full : Wstr} {s : RegState upcase}
    (resolved : env.fullPath s.clock path = .ok full) :
    getFullPath env path s = (.ok full,s.after 1) := by
  simp [getFullPath,askRun,Program.bindRun,resolved]

theorem fillKeyReturns {id name path : Wstr} {version : UInt32} {s : RegState upcase} :
    (∃ t, fillKey env id name path version s = (.ok (),t)) ↔ Completes env id path s.clock := by
  constructor
  · rintro ⟨t,h⟩
    obtain ⟨_,_,h1,h⟩ := Program.bindOkSource h
    obtain ⟨name',rfl⟩ := setValueSource h1
    obtain ⟨full,_,h2,h⟩ := Program.bindOkSource h
    obtain ⟨full',rfl⟩ := getFullPathSource h2
    obtain ⟨_,_,h3,h⟩ := Program.bindOkSource h
    obtain ⟨dir,rfl⟩ := setValueSource h3
    obtain ⟨_,_,h4,h⟩ := Program.bindOkSource h
    obtain ⟨state,rfl⟩ := setValueSource h4
    obtain ⟨_,_,h5,_⟩ := Program.bindOkSource h
    obtain ⟨version',_⟩ := setValueSource h5
    exact ⟨name',⟨full,full'⟩,dir,state,version'⟩
  · rintro ⟨name',⟨full,full'⟩,dir,state,version'⟩
    let reg1 := s.reg.write id vnDistroName (.sz name)
    let reg3 := reg1.write id vnDir (.sz full)
    let reg4 := reg3.write id vnState (.dword 1)
    have h1 : setSz env id vnDistroName name s = (.ok (),{(s.after 1) with reg := reg1}) :=
      setValueDone _ name'
    have h2 : getFullPath env path {(s.after 1) with reg := reg1} =
        (.ok full,{(s.after 2) with reg := reg1}) := getFullPathDone full'
    have h3 : setSz env id vnDir full {(s.after 2) with reg := reg1} =
        (.ok (),{(s.after 3) with reg := reg3}) := setValueDone _ dir
    have h4 : setDword env id vnState 1 {(s.after 3) with reg := reg3} =
        (.ok (),{(s.after 4) with reg := reg4}) := setValueDone _ state
    have h5 : setDword env id vnVersion version {(s.after 4) with reg := reg4} =
        (.ok (),{(s.after 5) with reg := reg4.write id vnVersion (.dword version)}) :=
      setValueDone _ version'
    rw [fillKey,Program.bindOk h1,Program.bindOk h2,Program.bindOk h3,Program.bindOk h4]
    rw [Program.bindOk h5]
    obtain ⟨_,t,run⟩ := (ensureDefaultReturns name).run
      {(s.after 5) with reg := reg4.write id vnVersion (.dword version)}
    exact ⟨t,run⟩

def Holds (id : Wstr) (s : RegState upcase) : Prop := id ∈ s.reg.subkeys.keys

theorem holdsWrite {s : RegState upcase} {id sub name : Wstr} {value : RegValue}
    (there : Holds id s) : id ∈ (s.reg.write sub name value).subkeys.keys := by
  unfold Registry.write
  split
  · exact there
  · rw [FoldedTable.keysAlter]
    exact FoldedTable.keysInsert there

theorem askHolds {id : Wstr} {bad : Stop → RegState upcase → Prop} (answer : Nat → α) :
    Program.Triple (Holds id) (ask answer) (fun _ => Holds id) bad := fun _ h => h

theorem fillKeyKeeps {id name path : Wstr} {version : UInt32} :
    Program.Triple (Holds id : RegState upcase → Prop) (fillKey env id name path version)
      (fun _ _ => True) (fun _ => Holds id) := by
  have writes (name value) : Program.Triple (Holds id : RegState upcase → Prop)
      (setValue env id name value) (fun _ => Holds id) (fun _ => Holds id) := by
    refine Program.Triple.bind (askHolds _) fun code => ?_
    exact Program.Triple.ite (fun _ _ h => h) fun _ _ h => holdsWrite h
  have resolves : Program.Triple (Holds id : RegState upcase → Prop) (getFullPath env path)
      (fun _ => Holds id) (fun _ => Holds id) := by
    refine Program.Triple.bind (askHolds _) fun full => ?_
    split <;> exact fun _ h => h
  refine Program.Triple.bind (writes _ _) fun _ => Program.Triple.bind resolves fun full =>
    Program.Triple.bind (writes _ _) fun _ => Program.Triple.bind (writes _ _) fun _ =>
    Program.Triple.bind (writes _ _) fun _ => ?_
  exact (ensureDefaultReturns name).weaken (fun _ _ => trivial) (fun _ _ _ => trivial)
    (fun _ _ h => h.elim)

end Reg

def SameDistros {upcase : WChar → WChar} (r r' : Registry upcase) : Prop :=
  (∀ d, d ∈ r'.distros ↔ d ∈ r.distros) ∧ r'.values vnDefaultDistro = r.values vnDefaultDistro

/- A failed registration has changed nothing exactly when the key was not created, or nothing
can fail behind it. -/
theorem registerAllOrNothing {upcase : WChar → WChar} {env : RegEnv} {s : RegState upcase}
    (fresh : ∀ id, env.guid s.issued = .ok id → isGuid id = true ∧ ¬ s.reg.subkeys.Has id)
    (name path : Wstr) (version : UInt32) :
    (∀ e t, Reg.registerDistro env name path version s = (.error e,t) → SameDistros s.reg t.reg) ↔
      ∀ id u, Reg.newDistroKey env name s = (.ok id,u) → Reg.Completes env id path u.clock := by
  have key := @Reg.newDistroKeyWrites _ env name s s ⟨rfl,rfl⟩
  rw [Reg.registerParts]
  constructor
  · intro unchanged id u created
    rw [created] at key
    obtain ⟨guid,reg⟩ := key
    obtain ⟨isId,unused⟩ := fresh id guid
    have there : Reg.Holds id u := by
      rw [Reg.Holds,reg,create,if_neg (guidNonempty isId)]
      simp [FoldedTable.keys,FoldedTable.insertFresh unused]
    have left := @Reg.fillKeyKeeps _ env id name path version u there
    rw [Program.bindOk created] at unchanged
    cases filled : Reg.fillKey env id name path version u with
    | mk outcome t =>
      cases outcome with
      | ok _ => exact Reg.fillKeyReturns.mp ⟨t,filled⟩
      | error e =>
        rw [filled] at left
        obtain ⟨d,entry,rfl⟩ := List.mem_map.mp (show id ∈ t.reg.subkeys.entries.map Prod.fst from left)
        have new : d ∈ t.reg.distros := List.mem_filter.mpr ⟨entry,isId⟩
        have old := distroEntry (((unchanged e t filled).1 d).mp new)
        exact absurd ⟨d,old.1,rfl⟩ unused
  · intro completes e t thrown
    cases created : Reg.newDistroKey env name s with
    | mk outcome u =>
      cases outcome with
      | error e =>
        rw [created] at key
        rw [Program.bindError created] at thrown
        obtain ⟨-,rfl⟩ := Prod.mk.inj thrown
        rw [show u.reg = s.reg from key]
        exact ⟨fun _ => Iff.rfl,rfl⟩
      | ok id =>
        obtain ⟨t',filled⟩ := (@Reg.fillKeyReturns _ env id name path version u).mpr
          (completes id u created)
        rw [Program.bindOk created,filled] at thrown
        simp at thrown

def pathEnv : RegEnv :=
  {plainEnv with fullPath := fun _ path => if path = [] then .error 87 else .ok path}

theorem registerAllOrNothingUbuntu :
    (∀ e t, Reg.registerDistro pathEnv ubuntu.units (wstr "C:\\u") 2 noDistro = (.error e,t) →
      SameDistros noDistro.reg t.reg) ↔
    ∀ id u, Reg.newDistroKey pathEnv ubuntu.units noDistro = (.ok id,u) →
      Reg.Completes pathEnv id (wstr "C:\\u") u.clock := by
  refine registerAllOrNothing (fun id issued => ?_) _ _ _
  obtain rfl : wstr "\x7b00000000-0000-0000-0000-000000000000\x7d" = id := Except.ok.inj issued
  exact ⟨by decide,by decide⟩

/- The half-written key stays and is listed as a distribution. -/
theorem emptyPathLeavesKey :
    let t := (Reg.registerDistro pathEnv ubuntu.units [] 2 noDistro).2
    (Reg.registerDistro pathEnv ubuntu.units [] 2 noDistro).1 =
      .error (.lro (.fromWin32 .errTransformPath [[]] 87)) ∧
    ¬ SameDistros noDistro.reg t.reg ∧
    (Reg.listDistros pathEnv t).1 = .ok [ubuntu.units] := by
  refine ⟨rfl,fun same => ?_,by decide +kernel⟩
  have one : (Reg.registerDistro pathEnv ubuntu.units [] 2 noDistro).2.reg.distros.map Prod.fst =
      [wstr "\x7b00000000-0000-0000-0000-000000000000\x7d"] := by decide
  have none' : noDistro.reg.distros = [] := by decide
  obtain ⟨d,mem,_⟩ := List.mem_map.mp (one ▸ List.mem_singleton_self _)
  have old := (same.1 d).mp mem
  simp [none'] at old

end LxRunOffline
