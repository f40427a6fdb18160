import LxRunOffline.DirAttr

/-! A `wsl_v2_writer` from its construction to its destruction. -/
namespace LxRunOffline

structure WriterCall where
  rel : Wstr
  attr : Option FileAttr

namespace WslV2Writer
open FsWriter WslWriter

def offer (env : FsEnv) (call : WriterCall) : Copy Unit := do
  Program.modify fun s => {s with path := s.path.withRel call.rel}
  let _ ← FsWriter.writeNewFile env .v2 call.attr
  pure ()

def live (env : FsEnv) (calls : List WriterCall) : Copy Unit := do
  Program.forEach (offer env) calls
  FsWriter.destroy env .v2

def offered (base : Wstr) (call : WriterCall) : List (Postponed.Gift Wstr FileAttr) :=
  if passes call.attr true true then gifts (base ++ call.rel) call.attr else []

def given (base : Wstr) (calls : List WriterCall) : List (Postponed.Gift Wstr FileAttr) :=
  calls.flatMap (offered base)

def lastGiven (base : Wstr) (calls : List WriterCall) (dir : Wstr) : Option FileAttr :=
  Postponed.lastGift dir (given base calls)

def attrOf (path : Wstr) : FsEvent → Bool
  | .ea p _ _ => p = path
  | .reparse p _ => p = path
  | .times p _ _ _ => p = path
  | _ => false

def LastApplied (path : Wstr) (attr : FileAttr) (log : List FsEvent) : Prop :=
  stores path attr <:+ log.filter (attrOf path)

/- If the last call for the directory finds attributes of an earlier one waiting on the stack,
the oldest of them are stored as its own would be. They wait since the last directory whose path
does not start with this one. -/
def Undisturbed (base : Wstr) (calls : List WriterCall) (dir : Wstr) : Prop :=
  ∀ before last after, given base calls = before ++ last :: after → last.key = dir →
    (∀ g ∈ after, g.key ≠ dir) →
    ∀ attr, Postponed.oldest liesIn dir before = some attr → stores dir attr = stores dir last.value

theorem storesAttrOf (path other : Wstr) (attr : FileAttr) :
    (stores other attr).filter (attrOf path) = if other = path then stores path attr else [] := by
  have mine (e : FsEvent) (mem : e ∈ stores other attr) : attrOf path e = decide (other = path) := by
    simp only [stores,List.mem_append,List.mem_cons,List.not_mem_nil,or_false,List.mem_map,
      List.mem_ite_nil_right] at mem
    rcases mem with (((rfl | rfl | rfl) | ⟨-,rfl⟩) | ⟨data,-,rfl⟩ | rfl) <;> rfl
  by_cases same : other = path
  · subst same
    rw [if_pos rfl,List.filter_eq_self]
    exact fun e mem => by rw [mine e mem,decide_eq_true rfl]
  · rw [if_neg same,List.filter_eq_nil_iff]
    exact fun e mem => by rw [mine e mem,decide_eq_false same]; exact Bool.false_ne_true

def valuesOf (path : Wstr) (entries : List (Wstr × FileAttr)) : List FileAttr :=
  entries.filterMap fun e => if e.1 = path then some e.2 else none

theorem storesAllAttrOf (path : Wstr) (entries : List (Wstr × FileAttr)) :
    (storesAll entries).filter (attrOf path) = (valuesOf path entries).flatMap (stores path) := by
  induction entries with
  | nil => rfl
  | cons e rest ih =>
    have split : storesAll (e :: rest) = stores e.1 e.2 ++ storesAll rest := rfl
    rw [split,List.filter_append,storesAttrOf,ih]
    by_cases same : e.1 = path <;> simp [valuesOf,same]

theorem storesSuffix {path : Wstr} {a b : FileAttr} {front : List FsEvent}
    (same : front ++ stores path a = stores path b) : front = [] := by
  cases front with
  | nil => rfl
  | cons e front =>
    have rest : front ++ stores path a = (stores path b).tail := congrArg List.tail same
    have uid : FsEvent.ea path .lxuid (.dword a.uid) ∈ front ++ stores path a := by simp [stores]
    rw [rest] at uid
    simp [stores] at uid

theorem lastAppliedIff {path : Wstr} {a b : FileAttr} {values : List FileAttr}
    (last : values.getLast? = some b) :
    stores path a <:+ values.flatMap (stores path) ↔ stores path b = stores path a := by
  obtain ⟨front,rfl⟩ := List.getLast?_eq_some_iff.mp last
  rw [List.flatMap_append,List.flatMap_singleton]
  constructor
  · intro suffix
    rcases List.suffix_or_suffix_of_suffix suffix (List.suffix_append _ _) with shorter | longer
    · obtain ⟨more,same⟩ := shorter
      rw [storesSuffix same] at same
      exact same.symm
    · obtain ⟨more,same⟩ := longer
      rw [storesSuffix same] at same
      exact same
  · intro same
    rw [same]
    exact List.suffix_append _ _

theorem createdAttrOf (path : Wstr) {made : List FsEvent} {other : Wstr} {isDir : Bool}
    (fits : CreatedAs other isDir made) : made.filter (attrOf path) = [] := by
  cases isDir with
  | true =>
    rcases fits with rfl | rfl
    · rfl
    · rfl
  | false =>
    obtain rfl : made = [.createdFile other] := fits
    rfl

structure Later (path : Wstr) (gifts : List (Postponed.Gift Wstr FileAttr)) (s t : CopyState) :
    Prop where
  base : t.path.base = s.path.base
  stack : t.dirAttr = (Postponed.giveAll liesIn ⟨s.dirAttr,[]⟩ gifts).waiting
  attrs : t.log.filter (attrOf path) = s.log.filter (attrOf path) ++
    (storesAll (Postponed.giveAll liesIn ⟨s.dirAttr,[]⟩ gifts).delivered).filter (attrOf path)

theorem Later.refl (path : Wstr) (s : CopyState) : Later path [] s s :=
  ⟨rfl,rfl,by simp [Postponed.giveAll,storesAll]⟩

theorem Later.trans {path : Wstr} {gifts more : List (Postponed.Gift Wstr FileAttr)}
    {s t u : CopyState} (h : Later path gifts s t) (h' : Later path more t u) :
    Later path (gifts ++ more) s u := by
  have split : Postponed.giveAll liesIn ⟨s.dirAttr,[]⟩ (gifts ++ more) =
      ⟨(Postponed.giveAll liesIn ⟨t.dirAttr,[]⟩ more).waiting,
        (Postponed.giveAll liesIn ⟨s.dirAttr,[]⟩ gifts).delivered ++
          (Postponed.giveAll liesIn ⟨t.dirAttr,[]⟩ more).delivered⟩ := by
    rw [Postponed.giveAllAppend,Postponed.giveAllFrom,← h.stack]
  refine ⟨h'.base.trans h.base,by rw [split,h'.stack],?_⟩
  rw [split,h'.attrs,h.attrs]
  simp [storesAll]

section
variable {env : FsEnv} (tolerated : env.Tolerated)
include tolerated

theorem offerRun (path : Wstr) {call : WriterCall} (whole : ∀ a ∈ call.attr, a.Whole) (s : CopyState) :
    ∃ t, offer env call s = (.ok (),t) ∧ Later path (offered s.path.base call) s t := by
  let named : CopyState := {s with path := s.path.withRel call.rel}
  have base : named.path.base = s.path.base := by cases h : s.path <;> simp [named,h,FilePath.withRel,FilePath.base]
  have data : named.path.data = s.path.base ++ call.rel := by
    cases h : s.path <;> simp [named,h,FilePath.withRel,FilePath.base,FilePath.rel,FilePath.data]
  rw [offer,Program.bindRun,Program.modifyRun]
  dsimp only
  change ∃ t, (FsWriter.writeNewFile env .v2 call.attr >>= fun _ => pure ()) named = _ ∧ _
  by_cases fine : passes call.attr true true = true
  · obtain ⟨made,clock,hf,fits,run⟩ := writeFileTells tolerated whole named
    rw [Program.bindOk ((wslAccepts env (by decide) fine named).trans run)]
    refine ⟨_,rfl,base,?_,?_⟩
    · rw [offered,if_pos fine,← data]
    · rw [offered,if_pos fine,← data]
      have quiet : [FsEvent.accepted named.path.data].filter (attrOf path) = [] := rfl
      simp only [List.filter_append,createdAttrOf path fits,quiet,List.append_nil]
      rfl
  · rw [Program.bindOk (wslRefuses env (by decide) fine named)]
    refine ⟨_,rfl,base,?_,?_⟩
    · rw [offered,if_neg fine]
      rfl
    · rw [offered,if_neg fine]
      simp [Postponed.giveAll,storesAll,named]

theorem offersRun (path : Wstr) {calls : List WriterCall} (whole : ∀ call ∈ calls, ∀ a ∈ call.attr, a.Whole)
    (s : CopyState) :
    ∃ t, Program.forEach (offer env) calls s = (.ok (),t) ∧
      Later path (given s.path.base calls) s t := by
  induction calls generalizing s with
  | nil => exact ⟨s,rfl,.refl path s⟩
  | cons call rest ih =>
    obtain ⟨t,first,later⟩ := offerRun tolerated path (whole call List.mem_cons_self) s
    obtain ⟨u,others,later'⟩ := ih (fun c mem => whole c (List.mem_cons_of_mem _ mem)) t
    rw [later.base] at later'
    exact ⟨u,by rw [Program.forEach,Program.bindOk first,others],later.trans later'⟩

theorem liveRun (path base source : Wstr) {calls : List WriterCall}
    (whole : ∀ call ∈ calls, ∀ a ∈ call.attr, a.Whole) :
    ∃ t, live env calls (CopyState.new .v2 base source) = (.ok (),t) ∧
      t.log.filter (attrOf path) =
        (valuesOf path (Postponed.everything liesIn (given base calls))).flatMap (stores path) := by
  obtain ⟨t,run,later⟩ := offersRun tolerated path whole (CopyState.new .v2 base source)
  obtain ⟨clock,destroyed⟩ := destroyTells tolerated t
  refine ⟨_,by rw [live,Program.bindOk run,FsWriter.destroy,if_pos rfl,destroyed],?_⟩
  rw [← storesAllAttrOf,Postponed.everything]
  dsimp only
  rw [List.filter_append,later.attrs,later.stack]
  simp only [storesAll,List.flatMap_append,List.filter_append]
  rfl

/- The attributes given last for a path are the last stored for it, if and only if no older ones
for it are still waiting that would be stored otherwise. -/
theorem lastAttributesWin (base source : Wstr) {calls : List WriterCall}
    (whole : ∀ call ∈ calls, ∀ a ∈ call.attr, a.Whole) (dir : Wstr) :
    ∃ t, live env calls (CopyState.new .v2 base source) = (.ok (),t) ∧
      ((∀ attr, lastGiven base calls dir = some attr → LastApplied dir attr t.log) ↔
        Undisturbed base calls dir) := by
  obtain ⟨t,run,attrs⟩ := liveRun tolerated dir base source whole
  refine ⟨t,run,?_⟩
  have applied {before after : List (Postponed.Gift Wstr FileAttr)}
      {last : Postponed.Gift Wstr FileAttr} (split : given base calls = before ++ last :: after)
      (names : last.key = dir) (silent : ∀ g ∈ after, g.key ≠ dir) (attr : FileAttr) :
      LastApplied dir attr t.log ↔
        stores dir ((Postponed.oldest liesIn dir before).getD last.value) = stores dir attr := by
    rw [LastApplied,attrs]
    refine lastAppliedIff ?_
    rw [split]
    exact Postponed.lastEverything liesInTrans liesInSelf names silent
  constructor
  · intro wins before last after split names silent attr waits
    have lastIs : lastGiven base calls dir = some last.value := by
      rw [lastGiven,split,Postponed.lastGiftAfter names silent]
    have stored := (applied split names silent last.value).mp (wins last.value lastIs)
    rwa [waits] at stored
  · intro undisturbed attr lastIs
    obtain ⟨before,last,after,split,names,rfl,silent⟩ := Postponed.lastGiftSplit lastIs
    refine (applied split names silent last.value).mpr ?_
    cases waits : Postponed.oldest liesIn dir before with
    | none => rfl
    | some older => exact undisturbed before last after split names silent older waits

end
def madeOnce : FsEnv := {plainFs with status := fun time call => match call with
  | .createDirectory _ => if time = 0 then 0 else errorAlreadyExists
  | _ => 0}

theorem madeOnceTolerated : madeOnce.Tolerated := by
  refine ⟨fun time call => ?_⟩
  cases call with
  | createDirectory path =>
    by_cases first : time = 0
    · exact .inl (if_pos first)
    · exact .inr ⟨⟨path,rfl⟩,if_neg first⟩
  | _ => exact .inl rfl

def ownedBase : Wstr := wstr "C:\\t\\"
def ownedDir : Wstr := wstr "C:\\t\\d"
def ownedBy (uid : UInt32) : FileAttr := {zeroAttr with mode := 0x41ed, uid := uid}
def twiceOwned : List WriterCall := [⟨wstr "d",some (ownedBy 0)⟩,⟨wstr "d",some (ownedBy 1000)⟩]

theorem twiceWhole : ∀ call ∈ twiceOwned, ∀ a ∈ call.attr, a.Whole := by decide

theorem lastAttributesWinTwice : ∃ t,
    live madeOnce twiceOwned (CopyState.new .v2 ownedBase []) = (.ok (),t) ∧
      ((∀ attr, lastGiven ownedBase twiceOwned ownedDir = some attr →
        LastApplied ownedDir attr t.log) ↔
        Undisturbed ownedBase twiceOwned ownedDir) :=
  lastAttributesWin madeOnceTolerated ownedBase [] twiceWhole ownedDir

theorem olderAttributesWin : ¬ ∀ (env : FsEnv) (base source : Wstr) (calls : List WriterCall)
    (dir : Wstr) (attr : FileAttr), env.Tolerated → lastGiven base calls dir = some attr →
    LastApplied dir attr (live env calls (CopyState.new .v2 base source)).2.log := by
  intro wins
  have last := wins madeOnce ownedBase [] twiceOwned ownedDir (ownedBy 1000)
    madeOnceTolerated (by decide +kernel)
  revert last
  unfold LastApplied
  decide +kernel

end WslV2Writer
end LxRunOffline
