import LxRunOffline.Components
import LxRunOffline.StoredConfig
import Mathlib.Data.List.Flatten

/-! The commands that edit the environment of a distribution. Both look for the first entry of a
name and erase that one; an entry of the same name behind it stays. They never see what stands
behind an empty entry, for the list that is read ends there. -/
namespace LxRunOffline
open Registry
variable {upcase : WChar → WChar}

section FirstMatch
variable {α : Type} {p : α → Bool}

theorem eraseOthers (l : List α) : (l.eraseP p).filter (fun a => !p a) = l.filter fun a => !p a := by
  induction l with
  | nil => rfl
  | cons a l ih => by_cases h : p a = true <;> simp [h,ih]

theorem eraseNamed (l : List α) : (l.eraseP p).filter p = (l.filter p).tail := by
  induction l with
  | nil => rfl
  | cons a l ih => by_cases h : p a = true <;> simp [h,ih]

theorem eraseNone (l : List α) : (l.eraseP p).filter p = [] ↔ l.countP p ≤ 1 := by
  rw [eraseNamed,List.countP_eq_length_filter]
  cases l.filter p with
  | nil => simp
  | cons a rest => simp

theorem eraseAll {l : List α} (one : l.countP p ≤ 1) : l.eraseP p = l.filter fun a => !p a := by
  rw [← eraseOthers,eq_comm,List.filter_eq_self]
  intro a mem
  have absent := List.filter_eq_nil_iff.mp ((eraseNone l).mpr one) a mem
  simpa using absent

end FirstMatch

theorem multiBlockInjective {a b : List Wstr} (ha : ∀ text ∈ a, 0 ∉ text) (hb : ∀ text ∈ b, 0 ∉ text)
    (same : multiBlock a = multiBlock b) : a = b := by
  let parts (l : List Wstr) (h : ∀ text ∈ l, 0 ∉ text) : Parts (0 : WChar) :=
    ⟨l ++ [[]],[],by simpa [or_imp,forall_and] using h,by simp⟩
  have text (l : List Wstr) (h : ∀ text ∈ l, 0 ∉ text) : (parts l h).text = multiBlock l := by
    simp [parts,Parts.text,joinDirs,multiBlock]
  have split := congrArg (List.splitOn 0) same
  rw [← text a ha,← text b hb,Parts.splitText,Parts.splitText] at split
  simpa [parts] using split

theorem MultiFits.sublist {a b : List Wstr} (h : a.Sublist b) (fits : MultiFits b) : MultiFits a := by
  rw [multiFits] at fits ⊢
  have shorter := (h.flatMap fun text => text ++ [0]).length_le
  simp only [multiBlock,List.length_append] at fits ⊢
  omega

structure HoldsEnv (r : Registry upcase) (name : Wstr) (envs : List Wstr) : Prop where
  noNul : ∀ text ∈ envs, 0 ∉ text
  fits : MultiFits envs
  stored : ∃ d ∈ r.distros, nameOf d.2 = some name ∧ d.2 vnEnv = some (.multiSz (multiBlock envs))

theorem HoldsEnv.unique {r : Registry upcase} (distinct : (r.distros.map fun d => nameOf d.2).Nodup)
    {name : Wstr} {a b : List Wstr} (ha : HoldsEnv r name a) (hb : HoldsEnv r name b) : a = b := by
  obtain ⟨d,mem,named,stored⟩ := ha.stored
  obtain ⟨d',mem',named',stored'⟩ := hb.stored
  obtain rfl := List.inj_on_of_nodup_map distinct mem mem' (named.trans named'.symm)
  have same := stored.symm.trans stored'
  simp only [Option.some.injEq,RegValue.multiSz.injEq] at same
  exact multiBlockInjective ha.noNul hb.noNul same

def begins (key text : Wstr) : Bool := (key ++ wstr "=").isPrefixOf text

def Refused (refusal : ErrMsg) (outcome : Except Stop Unit) : Prop :=
  ∃ l, outcome = .error (.lro l) ∧ l.msgCode = refusal

/- A command is refused where it should be, and succeeds otherwise: then the entries of the name are
the given ones. The others are kept in any case. -/
structure EditsEnv (name key : Wstr) (envs : List Wstr) (refusal : ErrMsg) (refuses : Prop)
    (entries : List Wstr) (outcome : Except Stop Unit) (r : Registry upcase) : Prop where
  ends : outcome = .ok () ∨ Refused refusal outcome
  refused : Refused refusal outcome ↔ refuses
  unchanged : Refused refusal outcome → HoldsEnv r name envs
  named : outcome = .ok () → ∃ after, HoldsEnv r name after ∧ after.filter (begins key) = entries
  others : ∃ after, HoldsEnv r name after ∧
    (after.filter fun e => !begins key e) = envs.filter fun e => !begins key e

namespace EditsEnv
variable {name key : Wstr} {envs entries : List Wstr} {refusal : ErrMsg} {refuses : Prop}
  {r : Registry upcase}

theorem ofRefusal {l : LroError} (code : l.msgCode = refusal) (holds : HoldsEnv r name envs) :
    EditsEnv name key envs refusal refuses entries (.error (.lro l)) r ↔ refuses := by
  have refused : Refused refusal (.error (.lro l)) := ⟨l,rfl,code⟩
  refine ⟨fun h => h.refused.mp refused,fun right => ?_⟩
  exact ⟨.inr refused,⟨fun _ => right,fun _ => refused⟩,fun _ => holds,fun no => (by cases no),envs,holds,rfl⟩

theorem ofStored (distinct : (r.distros.map fun d => nameOf d.2).Nodup) {new : List Wstr}
    (holds : HoldsEnv r name new) : EditsEnv name key envs refusal refuses entries (.ok ()) r ↔
      ¬ refuses ∧ new.filter (begins key) = entries ∧
        (new.filter fun e => !begins key e) = envs.filter fun e => !begins key e := by
  have accepted : ¬ Refused refusal (.ok ()) := fun ⟨l,no,_⟩ => by cases no
  constructor
  · intro h
    obtain ⟨after,held,named⟩ := h.named rfl
    obtain ⟨after',held',others⟩ := h.others
    rw [holds.unique distinct held] at *
    rw [held.unique distinct held'] at *
    exact ⟨fun right => accepted (h.refused.mpr right),named,others⟩
  · rintro ⟨right,named,others⟩
    exact ⟨.inl rfl,iff_of_false accepted right,fun no => absurd no accepted,fun _ => ⟨new,holds,named⟩,
      new,holds,others⟩

theorem ofFailure : ¬ EditsEnv name key envs refusal refuses entries (.error .badArrayLength) r := by
  intro h
  rcases h.ends with no | ⟨l,no,_⟩ <;> cases no

end EditsEnv
namespace Reg
variable {env : RegEnv} {s : RegState upcase}

theorem loadEnv (works : env.Works) (allNamed : s.reg.Named)
    (distinct : (s.reg.distros.map fun d => nameOf d.2).Nodup) {name : Wstr} {envs : List Wstr}
    (holds : HoldsEnv s.reg name envs) : ∃ conf t, loadDistro env (.new false) name configEnv s = (.ok conf,t) ∧
      t.reg = s.reg ∧ conf.env = envs.takeWhile (· ≠ []) := by
  obtain ⟨d,mem,named,stored⟩ := holds.stored
  have only {e : Wstr × RegValues} (here : e ∈ s.reg.distros) (is : nameOf e.2 = some name) : e = d :=
    List.inj_on_of_nodup_map distinct here mem (is.trans named.symm)
  have typed : Typed configEnv d.2 := by
    intro item listed wanted v found
    simp only [configItems,List.mem_cons,List.not_mem_nil,or_false] at listed
    rcases listed with rfl | rfl | rfl | rfl
    · rw [stored] at found
      cases Option.some.inj found
      rfl
    all_goals exact absurd rfl wanted
  obtain ⟨conf,calls,run⟩ := loadDistroReturns works allNamed (.new false) mem named
    fun e here is => only here is ▸ typed
  refine ⟨conf,s.after calls,run,rfl,?_⟩
  obtain ⟨-,e,here,is,loaded⟩ := (loadDistroFinds works.honest (.new false) name configEnv).source rfl run
  obtain rfl := only here is
  have read := loaded.env
  rw [if_pos (by decide),stored] at read
  obtain ⟨absent,-⟩ | ⟨v,is,fits⟩ := read
  · cases absent
  · cases Option.some.inj is
    exact (Option.some.inj fits).symm.trans (multiStringsBlock holds.noNul)

theorem storeEnv (works : env.Works) (allNamed : s.reg.Named)
    (distinct : (s.reg.distros.map fun d => nameOf d.2).Nodup) {name : CStr} {envs : List Wstr}
    (holds : HoldsEnv s.reg name.units envs) {conf : RegConfig} (noNul : ∀ text ∈ conf.env, 0 ∉ text) :
    ∃ outcome t, configureDistro env conf name.units configEnv s = (outcome,t) ∧
      (MultiFits conf.env ∧ outcome = .ok () ∧ HoldsEnv t.reg name.units conf.env ∧
          (t.reg.distros.map fun d => nameOf d.2).Nodup ∨
        ¬ MultiFits conf.env ∧ outcome = .error .badArrayLength) := by
  obtain ⟨d,mem,named,-⟩ := holds.stored
  by_cases fits : MultiFits conf.env
  · have step := configureDistroStep works allNamed conf name configEnv
    cases run : configureDistro env conf name.units configEnv s with
    | mk outcome t =>
      rw [run,Stepped] at step
      obtain ⟨r,after⟩ : ∃ r, t.reg = r := ⟨_,rfl⟩
      refine ⟨outcome,t,rfl,?_⟩
      dsimp only at step
      rw [after] at step ⊢
      cases step with
      | notFound _ absent => exact absurd named (absent d mem)
      | configureTooLong _ _ _ long => exact absurd fits long
      | @configure e here _ _ _ is =>
        obtain rfl := List.inj_on_of_nodup_map distinct here mem (is.trans named.symm)
        refine .inl ⟨fits,rfl,⟨noNul,fits,(e.1,conf.store configEnv e.2),?_,?_,?_⟩,?_⟩
        · rw [editedDistros]
          exact List.mem_map.mpr ⟨e,mem,by simp⟩
        · exact (storeName conf configEnv e.2).trans named
        · exact (RegConfig.storeReads conf configEnv e.2).1
        · rw [editedNames (storeName conf configEnv)]
          exact distinct
  · obtain ⟨calls,⟨e,here,is,found⟩ | ⟨absent,-⟩⟩ := @getDistroIdRun _ env s works allNamed name.units
    · refine ⟨_,s.after calls,?_,.inr ⟨fits,rfl⟩⟩
      rw [configureDistro,Program.bindOk found,Program.when,if_pos (by decide),setMultiSz,if_neg fits]
      rfl
    · exact absurd named (absent d mem)

end Reg

theorem readWhole {p : Wstr → Bool} (empty : p [] = false) (envs : List Wstr) :
    ((envs.takeWhile (· ≠ [])).filter fun e => !p e) = (envs.filter fun e => !p e) ↔ [] ∉ envs := by
  constructor
  · intro same mem
    have kept : [] ∈ envs.filter fun e => !p e := List.mem_filter.mpr ⟨mem,by simp [empty]⟩
    rw [← same] at kept
    have read := List.mem_takeWhile_imp (List.mem_filter.mp kept).1
    simp at read
  · intro absent
    rw [takesWhole.mpr absent]

theorem beginsEmpty (key : Wstr) : begins key [] = false := by
  cases key <;> rfl

theorem beginsOwn (key value : Wstr) : begins key (key ++ wstr "=" ++ value) = true := by
  rw [begins,List.isPrefixOf_iff_prefix]
  exact List.prefix_append ..

theorem comparesBegins (key text : Wstr) :
    decide (text.take (key ++ wstr "=").length = key ++ wstr "=") = begins key text := by
  rw [Bool.eq_iff_iff,decide_eq_true_iff,begins,List.isPrefixOf_iff_prefix,List.prefix_iff_eq_take]
  exact eq_comm

namespace Command
variable {W : World}

theorem envNameOf {key : Wstr} (plain : 0x3d ∉ key) (value : Wstr) :
    envName (key ++ wstr "=" ++ value) = some (key ++ wstr "=") := by
  have split : key ++ wstr "=" ++ value = key ++ 0x3d :: value := by simp [wstr]
  have sign : (key ++ 0x3d :: value).idxOf? 0x3d = some key.length := by
    rw [List.idxOf?_eq_some_iff]
    refine ⟨by simp,by simp,fun j before same => ?_⟩
    rw [List.getElem_append_left before] at same
    exact plain (same ▸ List.getElem_mem before)
  have length : key.length+1 = (key ++ wstr "=").length := by simp [wstr]
  rw [envName,split,sign,← split,Option.map_some,length,List.take_left' rfl]

section Edits
variable {s : Session upcase} {name : CStr} {envs : List Wstr} {key : Wstr} {refusal : ErrMsg}
  {refuses : Prop}

theorem storesEdited (works : W.reg.Works) (allNamed : s.reg.reg.Named)
    (distinct : (s.reg.reg.distros.map fun d => nameOf d.2).Nodup)
    (holds : HoldsEnv s.reg.reg name.units envs) {conf : RegConfig}
    (read : conf.env = envs.takeWhile (· ≠ [])) {added : List Wstr}
    (fresh : ∀ text ∈ added, 0 ∉ text ∧ begins key text = true) :
    EditsEnv name.units key envs refusal refuses added
        (onReg (Reg.configureDistro W.reg {conf with env := conf.env.eraseP (begins key) ++ added}
          name.units configEnv) s).1
        (onReg (Reg.configureDistro W.reg {conf with env := conf.env.eraseP (begins key) ++ added}
          name.units configEnv) s).2.reg.reg ↔
      ¬ refuses ∧ [] ∉ envs ∧ envs.countP (begins key) ≤ 1 ∧
        MultiFits ((envs.filter fun e => !begins key e) ++ added) := by
  have noNul : ∀ text ∈ conf.env.eraseP (begins key) ++ added, 0 ∉ text := by
    intro text mem
    rcases List.mem_append.mp mem with mem | mem
    · have here := List.mem_of_mem_eraseP mem
      rw [read] at here
      exact holds.noNul text ((List.takeWhile_sublist _).subset here)
    · exact (fresh text mem).1
  have addedNamed : added.filter (begins key) = added :=
    List.filter_eq_self.mpr fun text mem => (fresh text mem).2
  have addedOthers : (added.filter fun e => !begins key e) = [] :=
    List.filter_eq_nil_iff.mpr fun text mem => by simp [(fresh text mem).2]
  have named : (conf.env.eraseP (begins key) ++ added).filter (begins key) = added ↔
      conf.env.countP (begins key) ≤ 1 := by
    rw [List.filter_append,addedNamed,List.append_left_eq_self,eraseNone]
  have others : ((conf.env.eraseP (begins key) ++ added).filter fun e => !begins key e) =
      (envs.filter fun e => !begins key e) ↔ [] ∉ envs := by
    rw [List.filter_append,addedOthers,List.append_nil,eraseOthers,read,readWhole (beginsEmpty key)]
  have whole (absent : [] ∉ envs) : conf.env = envs := read.trans (takesWhole.mpr absent)
  -- The list is stored as a whole, or it is too long and nothing is.
  obtain ⟨outcome,t,run,⟨fits,rfl,held,apart⟩ | ⟨long,rfl⟩⟩ := @Reg.storeEnv _ _ _ works allNamed
    distinct _ _ holds {conf with env := conf.env.eraseP (begins key) ++ added} noNul
  · rw [onRegRun run,EditsEnv.ofStored apart held,named,others]
    constructor
    · rintro ⟨right,one,absent⟩
      rw [whole absent] at one fits
      rw [eraseAll one] at fits
      exact ⟨right,absent,one,fits⟩
    · rintro ⟨right,absent,one,-⟩
      exact ⟨right,whole absent ▸ one,absent⟩
  · rw [onRegRun run]
    refine iff_of_false EditsEnv.ofFailure fun h => long ?_
    rw [whole h.2.1,eraseAll h.2.2.1]
    exact h.2.2.2

theorem addEdits (works : W.reg.Works) (allNamed : s.reg.reg.Named)
    (distinct : (s.reg.reg.distros.map fun d => nameOf d.2).Nodup)
    (holds : HoldsEnv s.reg.reg name.units envs) {value : Wstr} (plain : 0x3d ∉ key)
    (noNul : 0 ∉ key ++ wstr "=" ++ value) (force : Bool) :
    EditsEnv name.units key envs .errEnvExists (force = false ∧ ∃ e ∈ envs, begins key e = true)
        [key ++ wstr "=" ++ value]
        (addEnv W name.units (key ++ wstr "=" ++ value) force s).1
        (addEnv W name.units (key ++ wstr "=" ++ value) force s).2.reg.reg ↔
      (force = false ∧ ∃ e ∈ envs.takeWhile (· ≠ []), begins key e = true) ∨
        [] ∉ envs ∧ envs.countP (begins key) ≤ 1 ∧
          MultiFits ((envs.filter fun e => !begins key e) ++ [key ++ wstr "=" ++ value]) := by
  obtain ⟨conf,t,run,kept,read⟩ := Reg.loadEnv works allNamed distinct holds
  have stored := @storesEdited _ W {s with reg := t} name envs key .errEnvExists
    (force = false ∧ ∃ e ∈ envs, begins key e = true) works (kept ▸ allNamed) (kept ▸ distinct)
    (kept ▸ holds) conf read [key ++ wstr "=" ++ value] fun text mem =>
      List.mem_singleton.mp mem ▸ ⟨noNul,beginsOwn key value⟩
  simp only [addEnv,envNameOf plain,comparesBegins]
  rw [Program.bindOk (onRegRun run)]
  cases found : conf.env.find? (begins key) with
  | none =>
    have absent : ∀ e ∈ conf.env, ¬ begins key e = true := List.find?_eq_none.mp found
    rw [List.eraseP_of_forall_not absent] at stored
    refine Iff.trans stored ?_
    rw [read] at absent
    constructor
    · exact fun h => .inr h.2
    · rintro (⟨-,e,mem,is⟩ | h)
      · exact absurd is (absent e mem)
      · refine ⟨fun right => ?_,h⟩
        obtain ⟨-,e,mem,is⟩ := right
        rw [takesWhole.mpr h.1] at absent
        exact absent e mem is
  | some e =>
    have mem : e ∈ envs.takeWhile (· ≠ []) := read ▸ List.mem_of_find?_eq_some found
    have is := List.find?_some found
    cases force with
    | true =>
      refine Iff.trans stored ?_
      simp
    | false =>
      have there : ∃ e ∈ envs, begins key e = true := ⟨e,(List.takeWhile_sublist _).subset mem,is⟩
      have refused := @EditsEnv.ofRefusal upcase name.units key envs [key ++ wstr "=" ++ value]
        .errEnvExists (false = false ∧ ∃ e ∈ envs, begins key e = true) t.reg
        (.fromOther .errEnvExists [e]) rfl (kept ▸ holds)
      exact refused.trans (iff_of_true ⟨rfl,there⟩ (.inl ⟨rfl,e,mem,is⟩))

theorem removeEdits (works : W.reg.Works) (allNamed : s.reg.reg.Named)
    (distinct : (s.reg.reg.distros.map fun d => nameOf d.2).Nodup)
    (holds : HoldsEnv s.reg.reg name.units envs) :
    EditsEnv name.units key envs .errEnvNotFound (∀ e ∈ envs, begins key e = false) []
        (removeEnv W name.units key s).1 (removeEnv W name.units key s).2.reg.reg ↔
      (∀ e ∈ envs, begins key e = false) ∨ [] ∉ envs ∧ envs.countP (begins key) ≤ 1 := by
  obtain ⟨conf,t,run,kept,read⟩ := Reg.loadEnv works allNamed distinct holds
  have length : key.length+1 = (key ++ wstr "=").length := by simp [wstr]
  simp only [removeEnv,length,comparesBegins]
  rw [Program.bindOk (onRegRun run)]
  by_cases found : conf.env.any (begins key) = true
  · obtain ⟨e,mem,is⟩ := List.any_eq_true.mp found
    have there : ¬ ∀ e ∈ envs, begins key e = false := by
      rw [read] at mem
      exact fun none' => by simp [none' e ((List.takeWhile_sublist _).subset mem)] at is
    have stored := @storesEdited _ W {s with reg := t} name envs key .errEnvNotFound
      (∀ e ∈ envs, begins key e = false) works (kept ▸ allNamed) (kept ▸ distinct) (kept ▸ holds) conf
      read [] (fun text mem => by cases mem)
    simp only [List.append_nil] at stored
    rw [if_pos found,stored,or_iff_right there]
    refine ⟨fun h => ⟨h.2.1,h.2.2.1⟩,fun h => ⟨there,h.1,h.2,?_⟩⟩
    exact MultiFits.sublist List.filter_sublist holds.fits
  · rw [if_neg found]
    have refused := @EditsEnv.ofRefusal upcase name.units key envs [] .errEnvNotFound
      (∀ e ∈ envs, begins key e = false) t.reg (.fromOther .errEnvNotFound [key]) rfl (kept ▸ holds)
    refine refused.trans ⟨fun h => .inl h,?_⟩
    rintro (h | ⟨absent,-⟩)
    · exact h
    · rw [read,takesWhole.mpr absent] at found
      simpa using found

end Edits
end Command

/- Both commands do what they say when no entry of the name stands behind the first one and no
empty entry is stored, or when they are refused. -/
theorem environmentEdited {W : World} (works : W.reg.Works) {s : Session upcase}
    (allNamed : s.reg.reg.Named) (distinct : (s.reg.reg.distros.map fun d => nameOf d.2).Nodup)
    {name key value : CStr} {envs : List Wstr} (holds : HoldsEnv s.reg.reg name.units envs)
    (plain : 0x3d ∉ key.units) :
    (∀ force, EditsEnv name.units key.units envs .errEnvExists
        (force = false ∧ ∃ e ∈ envs, begins key.units e = true)
        [key.units ++ wstr "=" ++ value.units]
        (Command.addEnv W name.units (key.units ++ wstr "=" ++ value.units) force s).1
        (Command.addEnv W name.units (key.units ++ wstr "=" ++ value.units) force s).2.reg.reg ↔
      (force = false ∧ ∃ e ∈ envs.takeWhile (· ≠ []), begins key.units e = true) ∨
        [] ∉ envs ∧ envs.countP (begins key.units) ≤ 1 ∧ MultiFits
          ((envs.filter fun e => !begins key.units e) ++ [key.units ++ wstr "=" ++ value.units])) ∧
    (EditsEnv name.units key.units envs .errEnvNotFound (∀ e ∈ envs, begins key.units e = false) []
        (Command.removeEnv W name.units key.units s).1
        (Command.removeEnv W name.units key.units s).2.reg.reg ↔
      (∀ e ∈ envs, begins key.units e = false) ∨
        [] ∉ envs ∧ envs.countP (begins key.units) ≤ 1) := by
  have noNul : 0 ∉ key.units ++ wstr "=" ++ value.units := by
    simp [key.noNul,value.noNul,wstr]
  exact ⟨Command.addEdits works allNamed distinct holds plain noNul,
    Command.removeEdits works allNamed distinct holds⟩

def ubuntuEnv (envs : List Wstr) : Session asciiUpcase where
  reg := ⟨0,0,⟨fun _ => none,FoldedTable.empty.insert
    (wstr "\x7b00000000-0000-0000-0000-000000000000\x7d")
    (put vnEnv (some (.multiSz (multiBlock envs))) wsl2Ubuntu)⟩⟩
  copy := .new .v2 [] []
  removed := []

theorem ubuntuEnvDistros (envs : List Wstr) : (ubuntuEnv envs).reg.reg.distros =
    [(wstr "\x7b00000000-0000-0000-0000-000000000000\x7d",
      put vnEnv (some (.multiSz (multiBlock envs))) wsl2Ubuntu)] := rfl

theorem ubuntuEnvNamed (envs : List Wstr) : (ubuntuEnv envs).reg.reg.Named := by
  intro d mem
  rw [ubuntuEnvDistros,List.mem_singleton] at mem
  exact ⟨ubuntu.units,mem ▸ rfl⟩

theorem ubuntuEnvHolds {envs : List Wstr} (noNul : ∀ text ∈ envs, 0 ∉ text) (fits : MultiFits envs) :
    HoldsEnv (ubuntuEnv envs).reg.reg ubuntu.units envs := by
  have mem := List.mem_singleton_self (wstr "\x7b00000000-0000-0000-0000-000000000000\x7d",
    put vnEnv (some (.multiSz (multiBlock envs))) wsl2Ubuntu)
  rw [← ubuntuEnvDistros] at mem
  exact ⟨noNul,fits,_,mem,rfl,rfl⟩

def variableX : CStr := ⟨wstr "X",by decide⟩

def alikeX : List Wstr := [wstr "XY=1",wstr "X=1",wstr "X"]

theorem environmentEditedX : let W := plainWorld bareConfig
    EditsEnv ubuntu.units variableX.units alikeX .errEnvExists
        (true = false ∧ ∃ e ∈ alikeX, begins variableX.units e = true) [wstr "X=2"]
        (Command.addEnv W ubuntu.units (wstr "X=2") true (ubuntuEnv alikeX)).1
        (Command.addEnv W ubuntu.units (wstr "X=2") true (ubuntuEnv alikeX)).2.reg.reg ∧
      EditsEnv ubuntu.units variableX.units alikeX .errEnvNotFound
        (∀ e ∈ alikeX, begins variableX.units e = false) []
        (Command.removeEnv W ubuntu.units variableX.units (ubuntuEnv alikeX)).1
        (Command.removeEnv W ubuntu.units variableX.units (ubuntuEnv alikeX)).2.reg.reg := by
  intro W
  have works : W.reg.Works := fun _ _ => rfl
  have edited := @environmentEdited _ W works (ubuntuEnv alikeX) (ubuntuEnvNamed _)
    (by simp [ubuntuEnvDistros]) ubuntu variableX ⟨wstr "2",by decide⟩ alikeX
    (ubuntuEnvHolds (by decide) (by decide)) (by decide)
  exact ⟨(edited.1 true).mpr (.inr (by decide)),edited.2.mpr (.inr (by decide))⟩

/- An entry of the same name stays behind the one that is removed. -/
theorem repeatedNameStays : ¬ ∀ (s : Session asciiUpcase) (name key : CStr) (envs : List Wstr),
    s.reg.reg.Named → (s.reg.reg.distros.map fun d => nameOf d.2).Nodup →
    HoldsEnv s.reg.reg name.units envs → 0x3d ∉ key.units →
    EditsEnv name.units key.units envs .errEnvNotFound (∀ e ∈ envs, begins key.units e = false) []
      (Command.removeEnv (plainWorld bareConfig) name.units key.units s).1
      (Command.removeEnv (plainWorld bareConfig) name.units key.units s).2.reg.reg := by
  intro always
  have works : (plainWorld bareConfig).reg.Works := fun _ _ => rfl
  have holds := @ubuntuEnvHolds [wstr "X=1",wstr "X=2"] (by decide) (by decide)
  have named := ubuntuEnvNamed [wstr "X=1",wstr "X=2"]
  have distinct : ((ubuntuEnv [wstr "X=1",wstr "X=2"]).reg.reg.distros.map
      fun d => nameOf d.2).Nodup := by simp [ubuntuEnvDistros]
  have edits := (Command.removeEdits works named distinct holds).mp
    (always _ ubuntu variableX _ named distinct holds (by decide))
  revert edits
  decide

end LxRunOffline
