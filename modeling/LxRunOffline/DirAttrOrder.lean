import LxRunOffline.FileGroups
import LxRunOffline.Immediate
import LxRunOffline.PostponedOrder
import LxRunOffline.TargetOrder

/-! When a v2 writer stores the attributes of a directory. All that a copy makes is given in
chunks, those of directories late; so the attributes of a directory come after its contents. -/
namespace LxRunOffline
open WslV2Writer (attrOf stores storesAll liesIn)

abbrev Chunk := Postponed.Gift Wstr (List FsEvent)

def waiting (s : CopyState) : List (Wstr × List FsEvent) := s.dirAttr.map fun e => (e.1,stores e.1 e.2)

def poured (entries : List (Wstr × List FsEvent)) : List FsEvent := entries.flatMap Prod.snd

theorem pouredAppend (first rest : List (Wstr × List FsEvent)) :
    poured (first ++ rest) = poured first ++ poured rest := List.flatMap_append

theorem pouredStores (dirs : List (Wstr × FileAttr)) :
    poured (dirs.map fun e => (e.1,stores e.1 e.2)) = storesAll dirs := by
  rw [poured,storesAll,List.flatMap_map]

structure Grown (chunks : List Chunk) (s t : CopyState) : Prop where
  path : t.path.reset = s.path.reset
  stack : waiting t = (Postponed.giveAll liesIn ⟨waiting s,[]⟩ chunks).waiting
  log : t.log = s.log ++ poured (Postponed.giveAll liesIn ⟨waiting s,[]⟩ chunks).delivered

namespace Grown
variable {chunks more : List Chunk} {s t u : CopyState}

theorem refl (s : CopyState) : Grown [] s s := ⟨rfl,rfl,(List.append_nil _).symm⟩

theorem trans (h : Grown chunks s t) (h' : Grown more t u) : Grown (chunks ++ more) s u := by
  have split : Postponed.giveAll liesIn ⟨waiting s,[]⟩ (chunks ++ more) =
      ⟨(Postponed.giveAll liesIn ⟨waiting t,[]⟩ more).waiting,
        (Postponed.giveAll liesIn ⟨waiting s,[]⟩ chunks).delivered ++
          (Postponed.giveAll liesIn ⟨waiting t,[]⟩ more).delivered⟩ := by
    rw [Postponed.giveAllAppend,Postponed.giveAllFrom,← h.stack]
  refine ⟨h'.path.trans h.path,by rw [split,h'.stack],?_⟩
  rw [split,h'.log,h.log,pouredAppend,List.append_assoc]

theorem prompt {path : Wstr} {events : List FsEvent} (reset : t.path.reset = s.path.reset)
    (stack : t.dirAttr = s.dirAttr) (log : t.log = s.log ++ events) : Grown [⟨path,events,false⟩] s t := by
  refine ⟨reset,?_,?_⟩
  · rw [waiting,stack]
    rfl
  · simp [log,Postponed.giveAll,Postponed.give,poured]

theorem late {path : Wstr} {attr : FileAttr} (reset : t.path.reset = s.path.reset)
    (stack : t.dirAttr = (path,attr) :: Postponed.holders liesIn path s.dirAttr)
    (log : t.log = s.log ++ storesAll (Postponed.outsiders liesIn path s.dirAttr)) :
    Grown [⟨path,stores path attr,true⟩] s t := by
  have held : Postponed.holders liesIn path (waiting s) =
      (Postponed.holders liesIn path s.dirAttr).map fun e => (e.1,stores e.1 e.2) := by
    rw [waiting,Postponed.holders,List.dropWhile_map]
    rfl
  have left : Postponed.outsiders liesIn path (waiting s) =
      (Postponed.outsiders liesIn path s.dirAttr).map fun e => (e.1,stores e.1 e.2) := by
    rw [waiting,Postponed.outsiders,List.takeWhile_map]
    rfl
  refine ⟨reset,?_,?_⟩
  · rw [waiting,stack]
    simp [Postponed.giveAll,Postponed.give,held]
  · rw [log]
    simp [Postponed.giveAll,Postponed.give,left,pouredStores]

end Grown

theorem creationsMore (log more : List FsEvent) : creations (log ++ more) = creations log ++ creations more :=
  List.filterMap_append

theorem storesCreateNothing (dirs : List (Wstr × FileAttr)) : creations (storesAll dirs) = [] := by
  refine List.filterMap_eq_nil_iff.mpr fun e mem => ?_
  obtain ⟨entry,-,mem⟩ := List.mem_flatMap.mp mem
  simp only [stores,List.mem_append,List.mem_cons,List.not_mem_nil,or_false,List.mem_map,
    List.mem_ite_nil_right] at mem
  rcases mem with (((rfl | rfl | rfl) | ⟨-,rfl⟩) | ⟨data,-,rfl⟩ | rfl) <;> rfl

namespace WslV2Writer

def dirChunks (path : Wstr) (attr : FileAttr) : List Chunk :=
  [⟨path,[.createdDirectory path],false⟩,⟨path,stores path attr,true⟩,⟨path,[.accepted path],false⟩]

theorem writeDirGrows {env : FsEnv} (works : env.Works) {attr : FileAttr} (dir : attr.type = aeIfdir)
    {s t : CopyState} {stored : Bool} (run : FsWriter.writeNewFile env .v2 (some attr) s = (.ok stored,t)) :
    Grown (dirChunks s.path.data attr) s t := by
  have isDir : typeOf (some attr) = aeIfdir := dir
  have accepts : FsWriter.passes (some attr) true true = true := by
    simp [FsWriter.passes,FsWriter.supported,dir]
  have whole : ∀ a ∈ some attr, a.Whole := by
    rintro _ ⟨⟩ link
    exact absurd (dir.symm.trans link) (by decide)
  obtain ⟨made,clock,hf,fits,told⟩ := WslWriter.writeFileTells works.tolerated whole s
  rw [FsWriter.wslAccepts env (by decide) accepts,told] at run
  have given : Postponed.giveAll liesIn ⟨s.dirAttr,[]⟩ (WslWriter.gifts s.path.data (some attr)) =
      ⟨(s.path.data,attr) :: Postponed.holders liesIn s.path.data s.dirAttr,
        Postponed.outsiders liesIn s.path.data s.dirAttr⟩ := by
    simp [WslWriter.gifts,Postponed.giveAll,Postponed.give,gift,dir]
  have creates := WslWriter.writeFileCreates .v2 works (some attr) s
  rw [told,isDir] at creates
  rw [isDir] at fits
  have once : made = [.createdDirectory s.path.data] := by
    refine fits.resolve_right fun none' => ?_
    subst none'
    have quiet : creations [FsEvent.accepted s.path.data] = [] := rfl
    simp only [creationsMore,storesCreateNothing,quiet,List.append_nil] at creates
    exact List.cons_ne_nil _ _ (List.append_right_eq_self.mp creates.symm)
  subst once
  rw [given] at run
  cases run
  let fresh : CopyState := {s with log := s.log ++ [.createdDirectory s.path.data]}
  let pushed : CopyState := {fresh with
    log := fresh.log ++ storesAll (Postponed.outsiders liesIn s.path.data s.dirAttr)
    dirAttr := (s.path.data,attr) :: Postponed.holders liesIn s.path.data s.dirAttr}
  have first : Grown [⟨s.path.data,[.createdDirectory s.path.data],false⟩] s fresh := .prompt rfl rfl rfl
  have second : Grown [⟨s.path.data,stores s.path.data attr,true⟩] fresh pushed := .late rfl rfl rfl
  exact (first.trans second).trans (.prompt rfl rfl rfl)

end WslV2Writer
namespace WslReader
variable (r : WslReader) (env : FsEnv) (base : Wstr)

def KindsAgree : Prop := ∀ v ∈ r.visits, ∃ mode, r.modeOf v.info = some mode ∧
  (mode &&& aeIfmt = aeIfdir ↔ v.dir = true)

def Carries (v : Visit) (attr : FileAttr) : Prop :=
  ∃ s t, r.readAttr env (r.base ++ v.path) v.info s = (.ok (some attr),t)

inductive Handed (v : Visit) : List Chunk → Prop
  | file {path : Wstr} {events : List FsEvent} (file : v.dir = false)
      (landed : r.lands .v2 base v = some path)
      (own : ∀ e ∈ events, ∀ q, e.Reports q ∨ attrOf q e = true → q = path) : Handed v [⟨path,events,false⟩]
  | dir {path : Wstr} {attr : FileAttr} (dir : v.dir = true) (landed : r.lands .v2 base v = some path)
      (carries : r.Carries env v attr) : Handed v (WslV2Writer.dirChunks path attr)

variable {r} {env} {base} {v : Visit} {done rest : List Visit} {chunks : List Chunk} {g : Chunk} {e : FsEvent}
  {q : Wstr}

theorem storesOwn {path : Wstr} {attr : FileAttr} (mem : e ∈ stores path attr) :
    e.made = none ∧ (attrOf q e = true → q = path) ∧ attrOf path e = true := by
  simp only [stores,List.mem_append,List.mem_cons,List.not_mem_nil,or_false,List.mem_map,
    List.mem_ite_nil_right] at mem
  rcases mem with (((rfl | rfl | rfl) | ⟨-,rfl⟩) | ⟨data,-,rfl⟩ | rfl) <;>
    exact ⟨rfl,Filing.noted,decide_eq_true rfl⟩

namespace Handed

theorem landed (h : r.Handed env base v chunks) (mem : g ∈ chunks) : r.lands .v2 base v = some g.key := by
  cases h with
  | file file landed own => exact List.mem_singleton.mp mem ▸ landed
  | dir dir landed carries =>
    simp only [WslV2Writer.dirChunks,List.mem_cons,List.not_mem_nil,or_false] at mem
    rcases mem with rfl | rfl | rfl <;> exact landed

theorem concerns (h : r.Handed env base v chunks) (mem : g ∈ chunks) (inside : e ∈ g.value)
    (own : e.made = some q ∨ attrOf q e = true) : q = g.key := by
  cases h with
  | file file landed only =>
    obtain rfl := List.mem_singleton.mp mem
    exact only e inside q (own.imp_left .inl)
  | dir dir landed carries =>
    simp only [WslV2Writer.dirChunks,List.mem_cons,List.not_mem_nil,or_false] at mem
    rcases mem with rfl | rfl | rfl
    · obtain rfl := List.mem_singleton.mp inside
      rcases own with made | attr
      · exact (Option.some.inj made).symm
      · cases attr
    · obtain ⟨none',attrs,-⟩ := @storesOwn e q _ _ inside
      rcases own with made | attr
      · rw [none'] at made
        cases made
      · exact attrs attr
    · obtain rfl := List.mem_singleton.mp inside
      rcases own with made | attr
      · cases made
      · cases attr

end Handed

/- What holds between the visits: all that is in the log or waits has been given in chunks. -/
structure Pouring (r : WslReader) (env : FsEnv) (base : Wstr) (done : List Visit) (s : CopyState) : Prop where
  parts : ∃ parts : List (Visit × List Chunk), parts.map Prod.fst = done ∧
    (∀ x ∈ parts, r.Handed env base x.1 x.2) ∧ Grown (parts.flatMap Prod.snd) (.new .v2 base r.base) s

namespace Pouring
variable {s t : CopyState} (works : env.Works) (encoded : r.tree.Encoded r.format)
  (reader : r.format ≠ .linux) (modern : r.format ≠ .legacy) (kinds : r.KindsAgree)
include works encoded reader modern kinds

theorem given (fresh : s.path.reset = Format.v2.fresh base) (visited : v ∈ r.visits)
    (there : r.infoAt (r.base ++ v.path) v.dir = some v.info)
    (run : r.visitNode env .v2 (r.base ++ v.path) v.dir s = (.ok (),t)) :
    ∃ chunks, r.Handed env base v chunks ∧ Grown chunks s t := by
  obtain ⟨texts,text,spelled⟩ := spelledVisit encoded visited
  have landed := @Spelled.v2Lands r base v texts text spelled reader modern
  obtain ⟨held,converted,reset,data⟩ := visitConverts encoded visited reader fresh
  obtain ⟨path,is⟩ := Option.isSome_iff_exists.mp (Option.isSome_of_eq_some landed)
  have own := data path is
  rw [visitNode,Program.bindOk converted,is] at run
  obtain ⟨info,u,opened,run⟩ := Program.bindOkSource run
  obtain rfl : v.info = info := Option.some.inj (there.symm.trans (r.openNodeSource env opened))
  obtain ⟨clock,rfl⟩ : ∃ clock, u = {s with path := held, clock := clock} := by
    obtain ⟨clock,same⟩ := (r.openNodeTicked env _ v.dir).final {s with path := held}
    rw [opened] at same
    exact ⟨clock,same⟩
  obtain ⟨mode,carries,agrees⟩ := kinds v visited
  split at run
  · rename_i dir
    obtain ⟨attr,x,read,run⟩ := Program.bindOkSource run
    obtain ⟨stored,y,wrote,run⟩ := Program.bindOkSource run
    obtain rfl : y = t := (Prod.mk.inj run).2
    have told := r.readAttrTold read
    rw [carries] at told
    obtain ⟨a,rfl,rfl⟩ := Option.map_eq_some_iff.mp told
    obtain ⟨clock',same⟩ := (r.readAttrTicked env (r.base ++ v.path) v.info).final {s with path := held, clock := clock}
    rw [read] at same
    dsimp only at same
    subst same
    have grown := WslV2Writer.writeDirGrows works (agrees.mpr dir) wrote
    dsimp only at grown
    rw [own] at grown
    exact ⟨_,.dir dir is ⟨_,_,read⟩,⟨grown.path.trans (reset.trans fresh.symm),grown.stack,grown.log⟩⟩
  · rename_i file
    have notDir : v.dir = false := Bool.eq_false_iff.mpr file
    -- Nothing is put off for a file, as its mode is not that of a directory.
    have prompt : Prompt .v2 (r.modeOf v.info) := by
      intro _ m same isDir
      rw [carries] at same
      cases same
      exact file (agrees.mp isDir)
    have filed := (@visitFileFiled r env .v2 v.info (by decide) (r.base ++ v.path) prompt).final
      {s with path := held, clock := clock}
    have making := (r.visitFileMakes env .v2 (r.base ++ v.path) v.info).final {s with path := held, clock := clock}
    rw [run] at filed making
    obtain ⟨more,log,attrs⟩ := filed.log
    obtain ⟨more',log',made⟩ := making.log
    obtain rfl : more = more' := List.append_cancel_left (log.symm.trans log')
    refine ⟨_,.file notDir is fun e mem q => ?_,.prompt ?_ filed.stack log⟩
    · rintro (reports | attr)
      · exact (made e mem q reports).trans own
      · exact (attrs e mem q attr).trans own
    · exact (congrArg FilePath.reset filed.path).trans (reset.trans fresh.symm)

theorem sequence : r.Sequence env .v2 (r.Pouring env base) fun _ _ => True where
  moved _ _ _ h := by
    obtain ⟨parts,own,handed,grown⟩ := h.parts
    exact ⟨parts,own,handed,grown.path,grown.stack,grown.log⟩
  calls := .inl works
  lists := works.lists
  visit {done v rest} all there := by
    intro s h
    cases run : r.visitNode env .v2 (r.base ++ v.path) v.dir s with
    | mk outcome t =>
      cases outcome with
      | error e => trivial
      | ok _ =>
        obtain ⟨parts,rfl,handed,grown⟩ := h.parts
        have fresh : s.path.reset = Format.v2.fresh base := grown.path.trans (FilePath.servedReset .fresh)
        obtain ⟨chunks,hands,more⟩ := given works encoded reader modern kinds fresh
          (by simp [all]) there run
        refine ⟨parts ++ [(v,chunks)],by simp,fun x mem => ?_,by simpa using grown.trans more⟩
        rcases List.mem_append.mp mem with before | last
        · exact handed x before
        · exact List.mem_singleton.mp last ▸ hands

end Pouring

theorem pouredAll (works : env.Works) (encoded : r.tree.Encoded r.format) (reader : r.format ≠ .linux)
    (modern : r.format ≠ .legacy) (kinds : r.KindsAgree) {fuel : Nat} {t u : CopyState}
    (run : r.run env .v2 fuel (.new .v2 base r.base) = (.ok (),t))
    (destroyed : FsWriter.destroy env .v2 t = (.ok (),u)) : ∃ parts : List (Visit × List Chunk),
      parts.map Prod.fst = r.visits ∧ (∀ x ∈ parts, r.Handed env base x.1 x.2) ∧
      u.log = poured (Postponed.everything liesIn (parts.flatMap Prod.snd)) := by
  have sequence := @Pouring.sequence r env base works encoded reader modern kinds
  have after := @Sequence.runs r env .v2 _ _ sequence encoded.proper fuel (.inr fun _ _ _ _ => trivial)
    (fun legacy => absurd legacy modern) (.new .v2 base r.base)
    ⟨rfl,[],rfl,by simp,.refl (.new .v2 base r.base)⟩
  rw [run] at after
  obtain ⟨parts,own,handed,grown⟩ := after.parts
  obtain ⟨clock,last⟩ := WslV2Writer.destroyTells works.tolerated t
  rw [FsWriter.destroy,if_pos rfl,last] at destroyed
  cases destroyed
  refine ⟨parts,own,handed,?_⟩
  have stack : storesAll t.dirAttr = poured (waiting t) := (pouredStores _).symm
  dsimp only
  rw [stack,grown.stack,grown.log,Postponed.everything,pouredAppend]
  rfl
end WslReader
end LxRunOffline
