import LxRunOffline.Config
import LxRunOffline.RegisterFailure

/-! What the reading operations deliver when any call of the system may fail: they leave the
registry as it is, and what they return is what is stored in it. -/
namespace LxRunOffline
open Registry
variable {upcase : WChar → WChar}

/- A value that is there is never reported as missing. -/
def RegEnv.Honest (env : RegEnv) : Prop := ∀ time path name,
  hresultFromWin32 (env.status time (.getValue path name)) ≠ hresultFromWin32 errorFileNotFound

theorem RegEnv.Works.honest {env : RegEnv} (works : env.Works) : env.Honest := by
  intro time path name
  rw [works]
  decide

namespace Reg
variable {α β : Type} {env : RegEnv} {r : Registry upcase}

/- In the registry `r` the program returns only what is right, and writes nothing. -/
def Finds (r : Registry upcase) (x : RegProgram upcase α) (right : α → Prop) : Prop :=
  Program.Triple (fun s => s.reg = r) x (fun a t => t.reg = r ∧ right a) (fun _ t => t.reg = r)

namespace Finds
variable {x : RegProgram upcase α} {f : α → RegProgram upcase β} {right : α → Prop} {right' : β → Prop}

theorem bind (hx : Finds r x right) (hf : ∀ a, right a → Finds r (f a) right') :
    Finds r (x >>= f) right' :=
  Program.Triple.bind hx fun a s hs => hf a hs.2 s hs.1

theorem pure {a : α} (h : right a) : Finds r (Pure.pure a : RegProgram upcase α) right :=
  fun _ same => ⟨same,h⟩

theorem raise (e : Stop) : Finds r (Program.raise e : RegProgram upcase α) right := fun _ same => same

theorem ask (answer : Nat → α) (h : ∀ time, right (answer time)) :
    Finds r (Reg.ask answer : RegProgram upcase α) right := fun _ same => ⟨same,h _⟩

theorem asked (answer : Nat → α) : Finds r (Reg.ask answer) fun _ => True :=
  ask answer fun _ => trivial

theorem get {f : RegState upcase → RegProgram upcase α}
    (h : ∀ s, s.reg = r → Finds r (f s) right) : Finds r (Program.get >>= f) right :=
  fun s same => h s same s same

theorem ite {c : Prop} [Decidable c] {y : RegProgram upcase α} (yes : c → Finds r x right)
    (no : ¬ c → Finds r y right) : Finds r (if c then x else y) right := Program.Triple.ite yes no

theorem mono {wider : α → Prop} (h : Finds r x right) (weaker : ∀ a, right a → wider a) :
    Finds r x wider :=
  Program.Triple.weaken h (fun _ h => h) (fun a _ h => ⟨h.1,weaker a h.2⟩) fun _ _ h => h

theorem source (h : Finds r x right) {s t : RegState upcase} {a : α} (same : s.reg = r)
    (run : x s = (.ok a,t)) : t.reg = r ∧ right a := by
  have after := h s same
  rwa [run] at after

end Finds

theorem getValueFinds (pick : RegValue → Option α) (sub name : Wstr) :
    Finds r (getValue env pick sub name) fun a => ∃ v, r.read sub name = some v ∧ pick v = some a := by
  refine .bind (.asked _) fun code _ => .get fun s same => ?_
  refine .ite (fun _ => .raise _) fun _ => ?_
  rw [same]
  cases found : r.read sub name with
  | none => exact .raise _
  | some v => cases fits : pick v with
    | none =>
      dsimp only
      rw [fits]
      exact .raise _
    | some a =>
      dsimp only
      rw [fits]
      exact .pure ⟨v,rfl,fits⟩

theorem enumFromFinds (names : List Wstr) :
    Finds r (enumFrom env names) fun ids => ∀ id ∈ ids, id ∈ names ∧ isGuid id = true := by
  have none' (names : List Wstr) :
      Finds r (Pure.pure []) fun ids => ∀ id ∈ ids, id ∈ names ∧ isGuid id = true := .pure (by simp)
  induction names with
  | nil => exact .bind (.asked _) fun _ _ => .ite (fun _ => none' _) fun _ => .raise _
  | cons name names ih =>
    have rest : Finds r (enumFrom env names) fun ids => ∀ id ∈ ids,
        id ∈ name :: names ∧ isGuid id = true :=
      ih.mono fun ids h id mem => ⟨List.mem_cons_of_mem _ (h id mem).1,(h id mem).2⟩
    refine .bind (.asked _) fun _ _ => .ite (fun _ => none' _) fun _ => .ite (fun _ => rest) fun _ => ?_
    refine .ite (fun _ => .raise _) fun _ => .bind rest fun ids known => .pure ?_
    split
    · rename_i guid
      intro id mem
      rcases List.mem_cons.mp mem with rfl | inside
      · exact ⟨List.mem_cons_self,guid⟩
      · exact known id inside
    · exact known

theorem listDistroIdFinds :
    Finds r (listDistroId env) fun ids => ∀ id ∈ ids, id ∈ r.distros.map Prod.fst := by
  have opened : Finds r (createKey env []) fun _ => True :=
    .bind (.asked _) fun _ _ => .ite (fun _ => .raise _) fun _ _ same => ⟨same,trivial⟩
  refine .bind opened fun _ _ => .get fun s same => ?_
  let keys := s.reg.subkeys.entries.map Prod.fst
  have ordered : Finds r (ask fun time => env.order time keys) fun names => names.Perm keys :=
    .ask _ fun time => env.orderPerm time keys
  refine .bind ordered fun names perm => ?_
  refine (enumFromFinds names).mono fun ids known id mem => ?_
  obtain ⟨listed,guid⟩ := known id mem
  rw [show keys = r.subkeys.entries.map Prod.fst from same ▸ rfl] at perm
  obtain ⟨d,here,rfl⟩ := List.mem_map.mp (perm.mem_iff.mp listed)
  exact List.mem_map_of_mem (List.mem_filter.mpr ⟨here,guid⟩)

theorem findDistroFinds (name : Wstr) {ids : List Wstr}
    (known : ∀ id ∈ ids, id ∈ r.distros.map Prod.fst) :
    Finds r (findDistro env name ids) fun id =>
      ∃ d ∈ r.distros, d.1 = id ∧ nameOf d.2 = some name := by
  induction ids with
  | nil => exact .raise _
  | cons id ids ih =>
    obtain ⟨d,mem,rfl⟩ := List.mem_map.mp (known id (by simp))
    refine .bind (getValueFinds _ _ _) fun current ⟨v,found,fits⟩ => .ite (fun same => .pure ?_) fun _ => ?_
    · rw [readDistro mem rfl] at found
      exact ⟨d,mem,rfl,by rw [nameOf,found,Option.bind_some,fits,same]⟩
    · exact ih fun id mem => known id (by simp [mem])

theorem getDistroIdFinds (name : Wstr) :
    Finds r (getDistroId env name) fun id => ∃ d ∈ r.distros, d.1 = id ∧ nameOf d.2 = some name :=
  .bind listDistroIdFinds fun _ known => findDistroFinds name known

def Stored (pick : RegValue → Option α) (value : α) (item : Option RegValue) (a : α) : Prop :=
  item = none ∧ a = value ∨ ∃ v, item = some v ∧ pick v = some a

theorem getValueMissed (honest : env.Honest) {pick : RegValue → Option α} {sub name : Wstr}
    {s t : RegState upcase} {l : LroError}
    (thrown : getValue env pick sub name s = (.error (.lro l),t))
    (missing : l.errCode = hresultFromWin32 errorFileNotFound) : s.reg.read sub name = none := by
  have unsupported : hresultFromWin32 errorUnsupportedType ≠ hresultFromWin32 errorFileNotFound := by
    decide
  simp only [getValue,Program.bindRun,askRun,Program.getRun] at thrown
  split at thrown
  · simp only [throwWin32,Program.raiseRun,Prod.mk.injEq,Except.error.injEq,Stop.lro.injEq] at thrown
    rw [← thrown.1] at missing
    exact absurd missing (honest _ _ _)
  · cases found : s.reg.read sub name with
    | none => rfl
    | some v =>
      rw [show (s.after 1).reg = s.reg from rfl] at thrown
      cases fits : pick v with
      | none =>
        simp only [found,fits,throwWin32,Program.raiseRun,Prod.mk.injEq,Except.error.injEq,
          Stop.lro.injEq] at thrown
        rw [← thrown.1] at missing
        exact absurd missing unsupported
      | some a => simp [found,fits] at thrown

theorem tryGetValueFinds (honest : env.Honest) (pick : RegValue → Option α) (sub name : Wstr)
    (value : α) : Finds r (tryGetValue env pick sub name value) (Stored pick value (r.read sub name)) := by
  intro s same
  cases run : getValue env pick sub name s with
  | mk outcome t =>
    have after := @getValueFinds _ _ env r pick sub name s same
    rw [run] at after
    cases outcome with
    | ok a =>
      rw [tryGetValue,catchLro,Program.rescueOk run]
      exact ⟨after.1,.inr after.2⟩
    | error e =>
      rw [tryGetValue,catchLro,Program.rescueError run]
      cases e with
      | lro l =>
        dsimp only
        split
        · exact after
        · rename_i caught
          rw [not_or,not_not,not_not] at caught
          exact ⟨after,.inl ⟨same ▸ getValueMissed honest run caught.2,rfl⟩⟩
      | invalidArgument => exact after
      | badArrayLength => exact after
      | crash => exact after
      | outOfFuel => exact after

theorem loadItemFinds (honest : env.Honest) (wanted : Prop) [Decidable wanted]
    (pick : RegValue → Option α) (sub name : Wstr) (value : α) :
    Finds r (loadItem env wanted pick sub name value) fun a =>
      if wanted then Stored pick value (r.read sub name) a else a = value := by
  refine .ite (fun yes => ?_) fun no => .pure (by simp [no])
  exact (tryGetValueFinds honest pick sub name value).mono fun a h => by simpa [yes] using h

end Reg

structure Loaded (conf : RegConfig) (values : RegValues) (desired : UInt32) (got : RegConfig) :
    Prop where
  env : if desired &&& configEnv ≠ 0 then
    Reg.Stored RegValue.asMultiSz conf.env (values vnEnv) got.env else got.env = conf.env
  uid : if desired &&& configUid ≠ 0 then
    Reg.Stored RegValue.asDword conf.uid (values vnUid) got.uid else got.uid = conf.uid
  kernelCmd : if desired &&& configKernelCmd ≠ 0 then
    Reg.Stored RegValue.asSz conf.kernelCmd (values vnKernelCmd) got.kernelCmd
    else got.kernelCmd = conf.kernelCmd
  flags : if desired &&& configFlags ≠ 0 then
    Reg.Stored RegValue.asDword conf.flags (values vnFlags) got.flags else got.flags = conf.flags

namespace Reg
variable {env : RegEnv} {r : Registry upcase}

theorem loadDistroFinds (honest : env.Honest) (conf : RegConfig) (name : Wstr) (desired : UInt32) :
    Finds r (loadDistro env conf name desired) fun got =>
      ∃ d ∈ r.distros, nameOf d.2 = some name ∧ Loaded conf d.2 desired got := by
  refine .bind (getDistroIdFinds name) fun id ⟨d,mem,is,named⟩ => ?_
  refine .bind (loadItemFinds honest _ _ _ _ _) fun envs hEnv => ?_
  refine .bind (loadItemFinds honest _ _ _ _ _) fun uid hUid => ?_
  refine .bind (loadItemFinds honest _ _ _ _ _) fun cmd hCmd => ?_
  refine .bind (loadItemFinds honest _ _ _ _ _) fun flags hFlags => .pure ?_
  subst is
  rw [readDistro mem rfl] at hEnv hUid hCmd hFlags
  exact ⟨d,mem,named,hEnv,hUid,hCmd,hFlags⟩

end Reg
end LxRunOffline
