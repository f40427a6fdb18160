import LxRunOffline.DirAttrOrder

/-! The attributes of a directory are stored once, when all that lies in it has been made, and before
those of the directories that it lies in. -/
namespace LxRunOffline
open WslV2Writer (attrOf stores liesIn dirChunks)

def DirsOnce (log : List FsEvent) : Prop := ∀ path, (creations log).count (path,true) ≤ 1

structure AppliedBetween (r : WslReader) (base path : Wstr) (before after : List FsEvent) : Prop where
  once : ∀ e ∈ before ++ after, attrOf path e = false
  contents : ∀ e ∈ after, ∀ q, e.made = some q → ¬ path <+: q
  ancestors : ∀ a ∈ r.visits, a.dir = true → ∀ q, r.lands .v2 base a = some q → q <+: path →
    ∀ e ∈ before, attrOf q e = false

theorem creationsPerm {entries entries' : List (Wstr × List FsEvent)} (perm : entries.Perm entries') :
    (creations (poured entries)).Perm (creations (poured entries')) :=
  (perm.flatMap_right Prod.snd).filterMap creation

namespace WslReader
variable {r : WslReader} {env : FsEnv} {base p q : Wstr} {v a : Visit} {attr : FileAttr}
  {parts front back : List (Visit × List Chunk)} {chunks : List Chunk}

theorem Handed.creates (h : r.Handed env base v chunks) (dir : v.dir = true)
    (landed : r.lands .v2 base v = some p) : (p,true) ∈ creations (poured (chunks.map Postponed.Gift.pair)) := by
  cases h with
  | file file =>
    rw [dir] at file
    cases file
  | dir _ there =>
    obtain rfl := Option.some.inj (landed.symm.trans there)
    exact List.mem_cons_self

structure Delivered (r : WslReader) (env : FsEnv) (base : Wstr) (parts : List (Visit × List Chunk)) : Prop where
  visits : parts.map Prod.fst = r.visits
  handed : ∀ x ∈ parts, r.Handed env base x.1 x.2
  once : DirsOnce (poured (Postponed.everything liesIn (parts.flatMap Prod.snd)))

namespace Delivered

theorem visited (h : r.Delivered env base parts) {x : Visit × List Chunk} (mem : x ∈ parts) : x.1 ∈ r.visits :=
  h.visits ▸ List.mem_map_of_mem mem

theorem others (h : r.Delivered env base (front ++ (v,chunks) :: back)) (dir : v.dir = true)
    (landed : r.lands .v2 base v = some p) {x : Visit × List Chunk} (mem : x ∈ front ++ back)
    (dir' : x.1.dir = true) : r.lands .v2 base x.1 ≠ some p := by
  intro landed'
  obtain ⟨first,rest,split⟩ := List.append_of_mem mem
  have perm : (front ++ (v,chunks) :: back).Perm ((v,chunks) :: x :: (first ++ rest)) := by
    refine List.perm_middle.trans (.cons _ ?_)
    rw [split]
    exact List.perm_middle
  have gifts := (Postponed.givePerm liesIn ⟨[],[]⟩ _).trans
    ((perm.flatMap_right Prod.snd).map Postponed.Gift.pair)
  have count := (creationsPerm gifts).count_eq (p,true)
  have made : (p,true) ∈ creations (poured (chunks.map Postponed.Gift.pair)) :=
    (h.handed (v,chunks) (by simp)).creates dir landed
  have own := List.count_pos_iff.mpr made
  have other := List.count_pos_iff.mpr ((h.handed x (perm.symm.subset (by simp))).creates dir' landed')
  have once := h.once p
  rw [Postponed.everythingLine,count] at once
  simp only [List.flatMap_cons,List.map_append,pouredAppend,creationsMore,List.count_append] at once
  omega

theorem unique (h : r.Delivered env base parts) (visited : v ∈ r.visits) (dir : v.dir = true)
    (landed : r.lands .v2 base v = some p) (visited' : a ∈ r.visits) (dir' : a.dir = true)
    (landed' : r.lands .v2 base a = some p) : a = v := by
  obtain ⟨⟨_,chunks⟩,mem,rfl⟩ := List.mem_map.mp (h.visits.symm ▸ visited)
  obtain ⟨front,back,rfl⟩ := List.append_of_mem mem
  obtain ⟨x,mem',rfl⟩ := List.mem_map.mp (h.visits.symm ▸ visited')
  rcases List.mem_append.mp mem' with early | later
  · exact absurd landed' (h.others dir landed (List.mem_append_left _ early) dir')
  · rcases List.mem_cons.mp later with rfl | late
    · rfl
    · exact absurd landed' (h.others dir landed (List.mem_append_right _ late) dir')

theorem concerns (h : r.Delivered env base parts) {y : Wstr × List FsEvent}
    (mem : y ∈ Postponed.everything liesIn (parts.flatMap Prod.snd)) {e : FsEvent} (inside : e ∈ y.2)
    (own : e.made = some q ∨ attrOf q e = true) : q = y.1 := by
  have given := (Postponed.givePerm liesIn ⟨[],[]⟩ _).subset mem
  obtain ⟨g,among,rfl⟩ := List.mem_map.mp given
  obtain ⟨x,part,here⟩ := List.mem_flatMap.mp among
  exact (h.handed x part).concerns here inside own

structure Stands (parts : List (Visit × List Chunk)) (path : Wstr) (attr : FileAttr)
    (front back : List (Wstr × List FsEvent)) : Prop where
  line : Postponed.everything liesIn (parts.flatMap Prod.snd) = front ++ (path,stores path attr) :: back
  once : ∀ y ∈ front ++ back, ∀ e ∈ y.2, attrOf path e = false
  behind : ∀ y ∈ back, ¬ path <+: y.1

variable (encoded : r.tree.Encoded r.format) (reader : r.format ≠ .linux) (modern : r.format ≠ .legacy)
include encoded reader modern

theorem notBelow (h : r.Delivered env base parts) (visited : v ∈ r.visits) (dir : v.dir = true)
    (landed : r.lands .v2 base v = some p) {u : Visit} (visited' : u ∈ r.visits) (apart : ¬ v.place <+: u.place)
    (landed' : r.lands .v2 base u = some q) : ¬ p <+: q := by
  intro below
  obtain ⟨texts,text,spelled⟩ := spelledVisit encoded visited
  have is := @Spelled.v2Dir r base v texts text spelled reader modern dir
  obtain rfl := Option.some.inj (landed.symm.trans is)
  have reads : ∀ t ∈ texts ++ [text], r.format.Reads t := fun t mem =>
    (List.mem_append.mp mem).elim (spelled.reads t) fun own => List.mem_singleton.mp own ▸ spelled.own
  obtain ⟨a,visited'',dir',above,same⟩ := landsAbove reader modern encoded visited' (by simp) reads landed' below
  exact apart (h.unique visited dir landed visited'' dir' same ▸ above)

omit reader modern in
theorem around (h : r.Delivered env base parts) (visited : v ∈ r.visits) (dir : v.dir = true) :
    ∃ path attr front inner back, parts = front ++ (v,dirChunks path attr) :: (inner ++ back) ∧
      r.lands .v2 base v = some path ∧ r.Carries env v attr ∧
      (∀ x ∈ inner, ∃ name, v.place ++ [name] <+: x.1.place) ∧
      (∀ x ∈ front ++ back, ¬ v.place <+: x.1.place) := by
  obtain ⟨pre,rest,split⟩ := List.append_of_mem visited
  obtain ⟨inner,after,rfl,stretch⟩ := Tree.stretch (walkedEncoded encoded).proper split
  obtain ⟨parts₁,parts',rfl,own₁,own'⟩ := List.map_eq_append_iff.mp (h.visits.trans split)
  obtain ⟨⟨own,chunks⟩,parts₂₃,rfl,same,own₂₃⟩ := List.map_eq_cons_iff.mp own'
  obtain ⟨parts₂,parts₃,rfl,own₂,own₃⟩ := List.map_eq_append_iff.mp own₂₃
  obtain rfl : own = v := same
  have handed : r.Handed env base own chunks := h.handed (own,chunks) (by simp)
  cases handed with
  | file file =>
    rw [dir] at file
    cases file
  | @dir path attr _ landed carries =>
    refine ⟨path,attr,parts₁,parts₂,parts₃,by simp [dirChunks],landed,carries,fun x mem => ?_,fun x mem => ?_⟩
    · exact stretch.inside x.1 (own₂ ▸ List.mem_map_of_mem mem)
    · rcases List.mem_append.mp mem with early | late
      · exact stretch.before x.1 (own₁ ▸ List.mem_map_of_mem early)
      · exact stretch.after x.1 (own₃ ▸ List.mem_map_of_mem late)

theorem stands (h : r.Delivered env base parts) (visited : v ∈ r.visits) (dir : v.dir = true) :
    ∃ path attr front back, r.lands .v2 base v = some path ∧ r.Carries env v attr ∧
      Stands parts path attr front back := by
  obtain ⟨path,attr,parts₁,parts₂,parts₃,rfl,landed,carries,inside,apart⟩ := h.around encoded visited dir
  let made : Chunk := ⟨path,[.createdDirectory path],false⟩
  let late : Chunk := ⟨path,stores path attr,true⟩
  let kept : Chunk := ⟨path,[.accepted path],false⟩
  let before : List Chunk := parts₁.flatMap Prod.snd ++ [made]
  let inner : List Chunk := kept :: parts₂.flatMap Prod.snd
  let after : List Chunk := parts₃.flatMap Prod.snd
  have gifts : (parts₁ ++ (v,dirChunks path attr) :: (parts₂ ++ parts₃)).flatMap Prod.snd =
      before ++ late :: inner ++ after := by
    simp [before,inner,after,late,made,kept,dirChunks]
  have among (x : Visit × List Chunk) (mem : x ∈ parts₁ ++ (parts₂ ++ parts₃)) :
      x ∈ parts₁ ++ (v,dirChunks path attr) :: (parts₂ ++ parts₃) :=
    (List.mem_append.mp mem).elim (List.mem_append_left _) fun late =>
      List.mem_append_right _ (List.mem_cons_of_mem _ late)
  have landsAs (x : Visit × List Chunk) (mem : x ∈ parts₁ ++ (parts₂ ++ parts₃)) (g : Chunk) (here : g ∈ x.2) :
      x.1 ∈ r.visits ∧ r.lands .v2 base x.1 = some g.key :=
    ⟨h.visited (among x mem),(h.handed x (among x mem)).landed here⟩
  -- What waits on top of these attributes lies in the directory, so it leaves before them.
  have below : ∀ g ∈ inner, g.late = true → liesIn g.key path := by
    intro g mem waits
    rcases List.mem_cons.mp mem with rfl | lower
    · cases waits
    · obtain ⟨x,part,here⟩ := List.mem_flatMap.mp lower
      obtain ⟨visited',landed'⟩ := landsAs x (by simp [part]) g here
      obtain ⟨name,deeper⟩ := inside x part
      exact landsInside reader modern encoded visited' dir deeper landed landed'
  obtain ⟨front,back,line,behind⟩ := @Postponed.heldUntil _ _ liesIn _ before inner after late rfl below
  -- The parts of all other entries lie outside of the directory.
  have away (x : Visit × List Chunk) (mem : x ∈ parts₁ ++ parts₃) (g : Chunk) (here : g ∈ x.2) :
      ¬ path <+: g.key := by
    obtain ⟨visited',landed'⟩ := landsAs x (by simp only [List.mem_append] at mem ⊢; tauto) g here
    exact h.notBelow encoded reader modern visited dir landed visited' (apart x mem) landed'
  refine ⟨path,attr,front,back,landed,carries,gifts ▸ line,fun y mem e here => ?_,fun y mem => ?_⟩
  · rw [List.append_assoc,List.cons_append] at line
    obtain ⟨g,given,rfl⟩ := List.mem_map.mp ((Postponed.aroundPerm liesIn line).subset mem)
    have which : g = made ∨ g = kept ∨ ∃ x ∈ parts₁ ++ (parts₂ ++ parts₃), g ∈ x.2 := by
      simp only [before,inner,after,List.mem_append,List.mem_cons,List.mem_flatMap,List.not_mem_nil] at given ⊢
      grind
    rcases which with rfl | rfl | ⟨x,part,inside⟩
    · cases List.mem_singleton.mp here
      rfl
    · cases List.mem_singleton.mp here
      rfl
    · by_contra noted
      obtain ⟨visited',landed'⟩ := landsAs x part g inside
      have own := (h.handed x (among x part)).concerns inside here (.inr (Bool.not_eq_false _ ▸ noted))
      rw [← own] at landed'
      cases dir' : x.1.dir with
      | true => exact h.others dir landed part dir' landed'
      | false => exact landsApart encoded reader visited dir visited' dir' landed landed'
  · rcases behind y mem with ⟨g,given,waits,rfl⟩ | ⟨g,given,rfl⟩
    · rcases List.mem_append.mp given with early | own
      · obtain ⟨x,part,here⟩ := List.mem_flatMap.mp early
        exact away x (List.mem_append_left _ part) g here
      · cases List.mem_singleton.mp own
        cases waits
    · obtain ⟨x,part,here⟩ := List.mem_flatMap.mp given
      exact away x (List.mem_append_right _ part) g here

omit encoded reader modern in
theorem Stands.above {attr' : FileAttr} {front back front' back' : List (Wstr × List FsEvent)}
    (own : Stands parts p attr front back) (above : Stands parts q attr' front' back') (lower : q <+: p) :
    ∀ y ∈ front, ∀ e ∈ y.2, attrOf q e = false := by
  intro y mem
  refine above.once y ?_
  rcases List.append_eq_append_iff.mp (own.line.symm.trans above.line) with ⟨gap,rfl,-⟩ | ⟨gap,rfl,rest⟩
  · simp [mem]
  · cases gap with
    | nil => simpa using Or.inl mem
    | cons first gap =>
      obtain ⟨-,rfl⟩ := List.cons.inj rest
      exact absurd lower (above.behind (p,stores p attr) (by simp))

theorem applied (h : r.Delivered env base parts) {log : List FsEvent}
    (all : log = poured (Postponed.everything liesIn (parts.flatMap Prod.snd)))
    (visited : v ∈ r.visits) (dir : v.dir = true) :
    ∃ path attr before after, r.lands .v2 base v = some path ∧ r.Carries env v attr ∧
      log = before ++ stores path attr ++ after ∧ AppliedBetween r base path before after := by
  obtain ⟨path,attr,front,back,landed,carries,stands⟩ := h.stands encoded reader modern visited dir
  refine ⟨path,attr,poured front,poured back,landed,carries,?_,?_,?_,?_⟩
  · rw [all,stands.line,pouredAppend,List.append_assoc]
    rfl
  · rw [← pouredAppend]
    intro e mem
    obtain ⟨y,among,inside⟩ := List.mem_flatMap.mp mem
    exact stands.once y among e inside
  · intro e mem q made
    obtain ⟨y,among,inside⟩ := List.mem_flatMap.mp mem
    have there : y ∈ Postponed.everything liesIn (parts.flatMap Prod.snd) := by
      rw [stands.line]
      exact List.mem_append_right _ (List.mem_cons_of_mem _ among)
    rw [h.concerns there inside (.inl made)]
    exact stands.behind y among
  · intro a visited' dir' q landed' lower e mem
    obtain ⟨y,among,inside⟩ := List.mem_flatMap.mp mem
    obtain ⟨path',attr',front',back',there,-,above⟩ := h.stands encoded reader modern visited' dir'
    obtain rfl := Option.some.inj (there.symm.trans landed')
    exact stands.above above lower y among e inside

end Delivered

/- Over the life of the writer the attributes of every directory are stored once, after everything
in the directory has been made, and before those of the directories that it lies in. -/
theorem attributesLast (works : env.Works) (encoded : r.tree.Encoded r.format) (reader : r.format ≠ .linux)
    (modern : r.format ≠ .legacy) (kinds : r.KindsAgree) {fuel : Nat} {t u : CopyState}
    (run : r.run env .v2 fuel (.new .v2 base r.base) = (.ok (),t))
    (destroyed : FsWriter.destroy env .v2 t = (.ok (),u)) (once : DirsOnce u.log) :
    ∀ v ∈ r.visits, v.dir = true → ∃ path attr before after, r.lands .v2 base v = some path ∧
      r.Carries env v attr ∧ u.log = before ++ stores path attr ++ after ∧
        AppliedBetween r base path before after := by
  intro v visited dir
  obtain ⟨parts,visits,handed,all⟩ := pouredAll works encoded reader modern kinds run destroyed
  have delivered : r.Delivered env base parts := ⟨visits,handed,all ▸ once⟩
  exact delivered.applied encoded reader modern all visited dir

end WslReader
def nestedDirs : WslReader := ⟨.v1,sourceBase,.dir (wstr "home") (twoNames 0x41ed)
  (.dir (wstr "user") (twoNames 0x41ed) (.file (wstr "x") threeNames .nil) .nil)
  (.file (wstr "a") threeNames (.dir (wstr "etc") (twoNames 0x41ed) .nil .nil))⟩

theorem nestedDirsEncoded : nestedDirs.tree.Encoded .v1 :=
  ⟨producedWord ⟨by decide,by decide⟩ (by decide),by decide,
    ⟨producedWord ⟨by decide,by decide⟩ (by decide),by decide,
      ⟨producedWord ⟨by decide,by decide⟩ (by decide),by decide,trivial⟩,trivial⟩,
    producedWord ⟨by decide,by decide⟩ (by decide),by decide,
    producedWord ⟨by decide,by decide⟩ (by decide),by decide,trivial,trivial⟩

theorem nestedDirsAgree : nestedDirs.KindsAgree := by
  intro v visited
  have all : nestedDirs.visits = [⟨[],wstr "home",true,twoNames 0x41ed⟩,
    ⟨[wstr "home"],wstr "user",true,twoNames 0x41ed⟩,⟨[wstr "home",wstr "user"],wstr "x",false,threeNames⟩,
    ⟨[],wstr "a",false,threeNames⟩,⟨[],wstr "etc",true,twoNames 0x41ed⟩] := rfl
  rw [all] at visited
  simp only [List.mem_cons,List.not_mem_nil,or_false] at visited
  rcases visited with rfl | rfl | rfl | rfl | rfl
  · exact ⟨0x41ed,rfl,by decide⟩
  · exact ⟨0x41ed,rfl,by decide⟩
  · exact ⟨0x81a4,rfl,by decide⟩
  · exact ⟨0x81a4,rfl,by decide⟩
  · exact ⟨0x41ed,rfl,by decide⟩

def nestedCopied : CopyState := (nestedDirs.run plainFs .v2 4 (.new .v2 targetBase nestedDirs.base)).2

def nestedStored : CopyState := (FsWriter.destroy plainFs .v2 nestedCopied).2

theorem nestedOnce : DirsOnce nestedStored.log := by
  have made : (creations nestedStored.log).Nodup := by decide +kernel
  exact fun path => List.nodup_iff_count.mp made (path,true)

theorem nestedRun : nestedDirs.run plainFs .v2 4 (.new .v2 targetBase nestedDirs.base) = (.ok (),nestedCopied) := by
  rw [nestedCopied]
  exact Program.returnedPair (by decide +kernel)

theorem nestedDestroyed : FsWriter.destroy plainFs .v2 nestedCopied = (.ok (),nestedStored) := by
  rw [nestedStored]
  exact Program.returnedPair (by decide +kernel)

def nestedHome : Visit := ⟨[],wstr "home",true,twoNames 0x41ed⟩

theorem attributesLastNested : ∃ path attr before after,
    nestedDirs.lands .v2 targetBase nestedHome = some path ∧ nestedDirs.Carries plainFs nestedHome attr ∧
      nestedStored.log = before ++ stores path attr ++ after ∧
        AppliedBetween nestedDirs targetBase path before after :=
  WslReader.attributesLast plainWorks nestedDirsEncoded (by decide) (by decide) nestedDirsAgree
    nestedRun nestedDestroyed nestedOnce nestedHome List.mem_cons_self rfl

end LxRunOffline
