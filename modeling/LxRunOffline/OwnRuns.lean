import LxRunOffline.Advances
import LxRunOffline.OwnSteps
import LxRunOffline.Wmain

/-! Every command, whatever fails while it runs, advances by steps of its own; and so do command
lines one after the other, each of them a process with a world of its own. -/
namespace LxRunOffline
open Registry
open Program (Advances)
variable {upcase : WChar → WChar} {α : Type}

def RegEnv.ListsAll (env : RegEnv) : Prop := ∀ time,
  env.status time (.enumKey regBasePath) ≠ errorNoMoreItems ∧ env.status time (.enumKey regBasePath) ≠ errorMoreData

theorem RegEnv.Works.listsAll {env : RegEnv} (works : env.Works) : env.ListsAll := by
  intro time
  rw [works]
  decide

def RegEnv.Unissued (env : RegEnv) (r : Registry upcase) : Prop :=
  ∀ n id, env.guid n = .ok id → isGuid id = true ∧ ¬ r.subkeys.Has id

namespace Registry
variable {g : Grant} {r : Registry upcase} {d : Wstr × RegValues}

def Owned (g : Grant) (id : Wstr) (r : Registry upcase) : Prop :=
  ∃ d ∈ r.distros, d.1 = id ∧ ∃ n, nameOf d.2 = some n ∧ g.own n

theorem writeEdits (mem : d ∈ r.distros) (key : Wstr) (value : RegValue) :
    r.write d.1 key value = r.edit d.1 (put key (some value)) := by
  obtain ⟨entry,guid⟩ := distroEntry mem
  rw [write,if_neg (guidNonempty guid),FoldedTable.insertThere ⟨d,entry,rfl⟩]
  rfl

end Registry
namespace Reg
variable {g : Grant} {r : Registry upcase} {env : RegEnv}

abbrev Goes (g : Grant) (r : Registry upcase) (x : RegProgram upcase α) (right : α → Registry upcase → Prop) : Prop :=
  Advances (fun s => s.reg) (Steps g) r x right

theorem Finds.goes {x : RegProgram upcase α} {right : α → Prop} (h : Finds r x right) :
    Goes g r x fun a r' => r' = r ∧ right a :=
  Program.Triple.weaken h (fun _ same => same) (fun _ _ both => ⟨both.1 ▸ .refl,both⟩) fun _ _ same => same ▸ .refl

theorem Reads.goes {x : RegProgram upcase α} (h : Reads x) : Goes g r x fun _ r' => r' = r := .leaves h.leaves

theorem askGoes (answer : Nat → α) : Goes g r (ask answer) fun _ r' => r' = r := .leaves fun _ => rfl

theorem changeGoes {code : UInt32} {msg : ErrMsg} {args : List Wstr} {f : Registry upcase → Registry upcase}
    (step : Step g r (f r)) :
    Goes g r (if code ≠ 0 then throwWin32 msg args code else change f) fun _ r' => r' = f r := by
  refine .ite (fun _ => .raise _) fun _ => ?_
  rintro s rfl
  exact ⟨.single step,rfl⟩

theorem setValueGoes {sub key : Wstr} {value : RegValue} (step : Step g r (r.write sub key value)) :
    Goes g r (setValue env sub key value) fun _ r' => r' = r.write sub key value := by
  refine .bind (askGoes _) fun _ r' _ same => ?_
  subst same
  exact changeGoes step

theorem setKeyGoes {id key : Wstr} (owned : Owned g id r) (other : key ≠ vnDistroName) (value : RegValue) :
    Goes g r (setValue env id key value) fun _ => Owned g id := by
  obtain ⟨d,mem,rfl,n,named,own⟩ := owned
  have edits := writeEdits mem key value
  refine (setValueGoes (edits ▸ .edited value mem named own other)).weaken fun _ r' same => ?_
  rw [same,edits]
  exact ⟨_,(editedMem mem).mpr (.inr rfl),rfl,n,(namedOther other _ _).trans named,own⟩

theorem defaultGoes (redirects : g.redirects) {d : Wstr × RegValues} (mem : d ∈ r.distros) :
    Goes g r (setSz env [] vnDefaultDistro d.1) fun _ _ => True :=
  (setValueGoes (.defaulted mem redirects)).weaken fun _ _ _ => trivial

theorem getDistroIdGoes (name : Wstr) : Goes g r (getDistroId env name) fun id r' =>
    ∃ d ∈ r'.distros, d.1 = id ∧ nameOf d.2 = some name :=
  (getDistroIdFinds name).goes.weaken fun _ _ both => both.1 ▸ both.2

theorem configureGoes (conf : RegConfig) {name : Wstr} (own : g.own name) (desired : UInt32) :
    Goes g r (configureDistro env conf name desired) fun _ _ => True := by
  refine .bind (getDistroIdGoes name) fun id r1 _ ⟨d,mem,is,named⟩ => ?_
  have owned : Owned g id r1 := ⟨d,mem,is,name,named,own⟩
  have multi {r : Registry upcase} (owned : Owned g id r) : Goes g r (setMultiSz env id vnEnv conf.env)
      fun _ => Owned g id := by
    rw [setMultiSz]
    exact .ite (fun _ => setKeyGoes owned (by decide) _) fun _ => .raise _
  exact .bind (.when owned fun _ => multi owned) fun _ _ _ owned =>
    .bind (.when owned fun _ => setKeyGoes owned (by decide) _) fun _ _ _ owned =>
    .bind (.when owned fun _ => setKeyGoes owned (by decide) _) fun _ _ _ owned =>
    (Advances.when owned fun _ => setKeyGoes owned (by decide) _).weaken fun _ _ _ => trivial

theorem setDirGoes {name : Wstr} (own : g.own name) (path : Wstr) :
    Goes g r (setDistroDir env name path) fun _ _ => True :=
  .bind (getDistroIdGoes name) fun _ _ _ ⟨d,mem,is,named⟩ => .bind (getFullPathReads path).goes fun _ _ _ same =>
    (setKeyGoes (same ▸ ⟨d,mem,is,name,named,own⟩) (by decide) _).weaken fun _ _ _ => trivial

theorem setDefaultGoes (redirects : g.redirects) (name : Wstr) :
    Goes g r (setDefaultDistro env name) fun _ _ => True :=
  .bind (getDistroIdGoes name) fun _ _ _ ⟨_,mem,is,_⟩ => is ▸ defaultGoes redirects mem

theorem catchGoes {x : RegProgram upcase α} {handler : LroError → RegProgram upcase α}
    {right : α → Registry upcase → Prop} (hx : Goes g r x right) (hh : ∀ e r', Goes g r' (handler e) right) :
    Goes g r (catchLro x handler) right :=
  .rescue hx fun e r' _ => match e with
    | .lro l => hh l r'
    | .invalidArgument => .raise _
    | .badArrayLength => .raise _
    | .crash => .raise _
    | .outOfFuel => .raise _

theorem enumFromAll (all : env.ListsAll) (names : List Wstr) :
    Finds r (enumFrom env names) fun ids => ∀ id ∈ names, isGuid id = true → id ∈ ids := by
  induction names with
  | nil => exact .bind (.asked _) fun _ _ => .ite (fun _ => .pure (by simp)) fun _ => .raise _
  | cons name names ih =>
    have asked : Finds r (ask fun time => env.status time (.enumKey regBasePath)) fun code =>
        code ≠ errorNoMoreItems ∧ code ≠ errorMoreData := .ask _ all
    refine .bind asked fun status other => ?_
    by_cases long : status = 0 ∧ guidLen < name.length
    · have skips : errorMoreData ≠ errorNoMoreItems := by decide
      simp only [long,and_self,if_true,skips,if_false]
      refine ih.mono fun ids h id mem guid => ?_
      rcases List.mem_cons.mp mem with rfl | inside
      · exact absurd (guidLength guid) (by omega)
      · exact h id inside guid
    · simp only [long,if_false,other.1,other.2]
      refine .ite (fun _ => .raise _) fun _ => .bind ih fun ids h => .pure fun id mem guid => ?_
      rcases List.mem_cons.mp mem with rfl | inside
      · rw [if_pos guid]
        exact List.mem_cons_self
      · split
        · exact List.mem_cons_of_mem _ (h id inside guid)
        · exact h id inside guid

theorem listDistroIdAll (all : env.ListsAll) :
    Finds r (listDistroId env) fun ids => ∀ d ∈ r.distros, d.1 ∈ ids := by
  have opened : Finds r (createKey env []) fun _ => True :=
    .bind (.asked _) fun _ _ => .ite (fun _ => .raise _) fun _ _ same => ⟨same,trivial⟩
  refine .bind opened fun _ _ => .get fun s same => ?_
  have ordered : Finds r (ask fun time => env.order time (s.reg.subkeys.entries.map Prod.fst)) fun names =>
      names.Perm (s.reg.subkeys.entries.map Prod.fst) := .ask _ fun time => env.orderPerm time _
  refine .bind ordered fun names perm => (enumFromAll all names).mono fun ids known d mem => ?_
  obtain ⟨entry,guid⟩ := distroEntry mem
  exact known d.1 (perm.mem_iff.mpr (List.mem_map.mpr ⟨d,same ▸ entry,rfl⟩)) guid

theorem distroNamesAll {ids : List Wstr} : Finds r (distroNames env ids) fun names =>
    ∀ d ∈ r.distros, d.1 ∈ ids → ∀ n, nameOf d.2 = some n → n ∈ names := by
  induction ids with
  | nil => exact .pure (by simp)
  | cons id ids ih =>
    refine .bind (getValueFinds _ _ _) fun name ⟨v,found,fits⟩ => .bind ih fun names known => .pure ?_
    intro d mem listed n is
    rcases List.mem_cons.mp listed with rfl | later
    · rw [readDistro mem rfl] at found
      rw [nameOf,found,Option.bind_some,fits] at is
      exact Option.some.inj is ▸ List.mem_cons_self
    · exact List.mem_cons_of_mem _ (known d mem later n is)

theorem listDistrosAll (all : env.ListsAll) : Finds r (listDistros env) fun names =>
    ∀ d ∈ r.distros, ∀ n, nameOf d.2 = some n → n ∈ names :=
  .bind (listDistroIdAll all) fun _ known => distroNamesAll.mono fun _ h d mem => h d mem (known d mem)

def Begun (g : Grant) (name id : Wstr) (r : Registry upcase) : Prop :=
  (id,fun _ => none) ∈ r.distros ∧ (g.sees → ∀ e ∈ r.distros, nameOf e.2 ≠ some name)

theorem newKeyGoes (unissued : env.Unissued r) (all : g.sees → env.ListsAll) (name : Wstr) :
    Goes g r (newDistroKey env name) fun id r' => Begun g name id r' := by
  have listed : Goes g r (listDistros env) fun names r' => r' = r ∧
      (g.sees → ∀ d ∈ r.distros, ∀ n, nameOf d.2 = some n → n ∈ names) := by
    by_cases sees : g.sees
    · exact (listDistrosAll (all sees)).goes.weaken fun names r' both => ⟨both.1,fun _ => both.2⟩
    · exact listDistrosReads.goes.weaken fun names r' same => ⟨same,fun yes => absurd yes sees⟩
  refine .bind listed fun names r' _ both => .ite (fun _ => .raise _) fun unused => ?_
  obtain ⟨same,known⟩ := both
  subst same
  have asked : Goes g r' (newGuid env) fun id r => r = r' ∧ isGuid id = true ∧ ¬ r'.subkeys.Has id := by
    rintro s rfl
    cases guid : env.guid s.issued with
    | ok id =>
      simp only [newGuid,Program.bindRun,Program.getRun,Program.modifyRun,guid]
      exact ⟨.refl,rfl,unissued _ id guid⟩
    | error hr =>
      simp only [newGuid,Program.bindRun,Program.getRun,Program.modifyRun,guid]
      exact .refl
  refine .bind asked fun id r'' _ all => ?_
  obtain ⟨same,guid,fresh⟩ := all
  subst same
  have made : Goes g r'' (createKey env id) fun _ r => r = r''.create id := by
    refine .bind (askGoes _) fun _ r' _ same => ?_
    subst same
    exact changeGoes (.created guid fresh)
  refine .bind made fun _ r _ same => .pure ?_
  rw [Begun,same,createdDistros guid fresh]
  refine ⟨by simp,fun sees e mem is => ?_⟩
  rcases List.mem_append.mp mem with old | new
  · exact unused (known sees e old name is)
  · rw [List.mem_singleton.mp new] at is
    cases is

theorem ensureDefaultGoes (redirects : g.redirects) (name : Wstr) :
    Goes g r (ensureDefault env name) fun _ _ => True := by
  refine catchGoes ?_ fun e r' => .ite (fun _ => ?_) fun _ => .pure trivial
  · exact .bind getDefaultDistroReads.goes fun _ _ _ _ => .pure trivial
  · exact catchGoes (setDefaultGoes redirects name) fun _ _ => .pure trivial

theorem registerGoes (unissued : env.Unissued r) (all : g.sees → env.ListsAll) {name : Wstr} (own : g.own name)
    (noNul : 0 ∉ name) (redirects : g.redirects) (path : Wstr) (version : UInt32) :
    Goes g r (registerDistro env name path version) fun _ _ => True := by
  refine .bind (newKeyGoes unissued all name) fun id r1 _ ⟨mem,unused⟩ => ?_
  have edits := writeEdits mem vnDistroName (.sz name)
  have names : Goes g r1 (setSz env id vnDistroName name) fun _ => Owned g id := by
    refine (setValueGoes (edits ▸ .named mem rfl noNul own unused)).weaken fun _ r' same => ?_
    rw [same,edits]
    exact ⟨_,(editedMem mem).mpr (.inr rfl),rfl,name,namedPut noNul _,own⟩
  refine .bind names fun _ r2 _ owned => .bind (getFullPathReads path).goes fun full r3 _ same => ?_
  subst same
  exact .bind (setKeyGoes owned (by decide) _) fun _ _ _ owned =>
    .bind (setKeyGoes owned (by decide) _) fun _ _ _ owned =>
    .bind (setKeyGoes owned (by decide) _) fun _ _ _ _ => ensureDefaultGoes redirects name

theorem unregisterGoes {name : Wstr} (own : g.own name) (redirects : g.redirects) :
    Goes g r (unregisterDistro env name) fun _ _ => True := by
  refine .bind getDefaultDistroReads.goes fun current r1 _ _ =>
    .bind (getDistroIdGoes name) fun id r2 _ ⟨d,mem,is,named⟩ => ?_
  subst is
  have gone : Goes g r2 (deleteTree env d.1) fun _ _ => True :=
    .bind (askGoes _) fun _ _ _ same => .get fun _ _ => same ▸
      (changeGoes (.removed mem named own)).weaken fun _ _ _ => trivial
  refine .bind gone fun _ r3 _ _ => .when trivial fun _ => catchGoes ?_ fun _ _ => .pure trivial
  refine .bind listDistroIdFinds.goes fun ids r4 _ ⟨same,known⟩ => ?_
  subst same
  cases ids with
  | nil =>
    exact .bind (askGoes _) fun _ _ _ same => .get fun _ _ => same ▸
      (changeGoes (.undefaulted redirects)).weaken fun _ _ _ => trivial
  | cons id ids =>
    obtain ⟨e,here,is⟩ := List.mem_map.mp (known id (by simp))
    exact is ▸ defaultGoes redirects here

end Reg
end LxRunOffline
