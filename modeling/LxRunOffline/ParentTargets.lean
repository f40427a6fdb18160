import Mathlib.Data.List.DropRight
import LxRunOffline.EntryTexts

/-! The directory of a converted path. It is the base, or what the directory of the entry becomes,
or `rootfs` where a legacy source keeps one of the root file system's directories beside it. -/
namespace LxRunOffline
open PrefixMatcher (Hits)

def parentOf (path : Wstr) : Wstr :=
  (if path.getLast? = some backslash then path.dropLast else path).rdropWhile (· ≠ backslash)

def Under (above rel : Wstr) : Prop :=
  ∃ last tail, rel = above ++ last ++ tail ∧ last ≠ [] ∧ backslash ∉ last ∧ (tail = [] ∨ tail = [backslash])

theorem dropsComponent {above last : Wstr} (ends : above.getLast? = some backslash)
    (clear : backslash ∉ last) : (above ++ last).rdropWhile (· ≠ backslash) = above := by
  obtain ⟨front,rfl⟩ := List.getLast?_eq_some_iff.mp ends
  have all : ∀ c ∈ last.reverse, decide (c ≠ backslash) = true := fun c mem =>
    decide_eq_true (ne_of_mem_of_not_mem (List.mem_reverse.mp mem) clear)
  rw [List.rdropWhile,List.reverse_append,List.dropWhile_append_of_pos all,List.reverse_append]
  simp

theorem parentUnder {base above rel : Wstr} (under : Under above rel)
    (ends : (base ++ above).getLast? = some backslash) : parentOf (base ++ rel) = base ++ above := by
  obtain ⟨last,tail,rfl,some',clear,closed⟩ := under
  have regroup : base ++ (above ++ last ++ tail) = base ++ above ++ last ++ tail := by simp
  have cut := dropsComponent ends clear
  rw [regroup,parentOf]
  rcases closed with rfl | rfl
  · have open' : (base ++ above ++ last).getLast? ≠ some backslash := by
      rw [List.getLast?_append,List.getLast?_eq_some_getLast some',Option.some_or]
      exact fun same => clear (Option.some.inj same ▸ List.getLast_mem some')
    rw [List.append_nil,if_neg open',cut]
  · rw [if_pos (by simp),List.dropLast_concat,cut]

namespace WslLegacyPath
variable {dirs : List Wstr} {name : Wstr} {dir : Bool}

theorem pattern2Split {q : Wstr} (mem : q ∈ patterns2) : ∃ own, q = joinDirs slash [wstr "rootfs",own] ∧
    slash ∉ own := by
  have all : ∀ q ∈ patterns2, q = joinDirs slash [wstr "rootfs",(q.drop 7).dropLast] ∧
      slash ∉ (q.drop 7).dropLast := by decide
  exact ⟨_,all q mem⟩

theorem hitsAbove (clear : ∀ d ∈ dirs, slash ∉ d) (own : slash ∉ name)
    (hits : Hits patterns2 (entryText dirs name dir)) :
    Hits patterns2 (joinDirs slash dirs) ∨ dir = true ∧ dirs = [wstr "rootfs"] := by
  obtain ⟨q,mem,starts⟩ := hits
  obtain ⟨moved,rfl,other⟩ := pattern2Split mem
  have pattern : ∀ d ∈ [wstr "rootfs",moved], slash ∉ d := by
    intro d mem
    rcases List.mem_cons.mp mem with rfl | mem
    · decide
    · exact List.mem_singleton.mp mem ▸ other
  have inDirs (h : [wstr "rootfs",moved] <+: dirs) : Hits patterns2 (joinDirs slash dirs) := by
    obtain ⟨rest,rfl⟩ := h
    exact ⟨_,mem,by rw [joinDirsAppend]; exact List.prefix_append _ _⟩
  cases dir with
  | false =>
    have text : entryText dirs name false = Parts.text ⟨dirs,name,clear,own⟩ := by
      simp [entryText,Parts.text]
    rw [text] at starts
    exact .inl (inDirs ((Parts.startsText pattern _).mp starts))
  | true =>
    have clear' : ∀ d ∈ dirs ++ [name], slash ∉ d := fun d mem =>
      (List.mem_append.mp mem).elim (clear d) fun last => List.mem_singleton.mp last ▸ own
    have text : entryText dirs name true = Parts.text ⟨dirs ++ [name],[],clear',by simp⟩ := by
      simp [entryText,Parts.text]
    rw [text] at starts
    have components : [wstr "rootfs",moved] <+: dirs ++ [name] := (Parts.startsText pattern _).mp starts
    rcases List.prefix_concat_iff.mp components with same | inside
    · have halves : [wstr "rootfs"] ++ [moved] = dirs ++ [name] := same
      exact .inr ⟨rfl,(List.append_inj' halves rfl).1.symm⟩
    · exact .inl (inDirs inside)

theorem freeAbove (some' : dirs ≠ []) (free : ¬ Hits patterns1 (entryText dirs name dir ++ [0])) :
    ¬ Hits patterns1 (joinDirs slash dirs ++ [0]) := by
  rintro ⟨q,mem,starts⟩
  rcases List.prefix_concat_iff.mp starts with same | inside
  · have all : ∀ q ∈ patterns1, q.dropLast.getLast? ≠ some slash := by decide
    refine all q mem ?_
    rw [same,List.dropLast_concat]
    exact joinedEnds some'
  · refine free ⟨q,mem,inside.trans ?_⟩
    simp only [entryText,List.append_assoc]
    exact List.prefix_append _ _

theorem landsDirs (free : ¬ Hits patterns1 (joinDirs slash dirs ++ [0])) :
    Format.legacy.lands (joinDirs slash dirs) = some (if Hits patterns2 (joinDirs slash dirs)
      then (WslV1Path.code.encode (joinDirs slash dirs)).drop 7
      else WslV1Path.code.encode (joinDirs slash dirs)) := by
  rw [Format.lands,if_neg free,relAfter,encodedEnd]
  simp only [hitsEnded]

end WslLegacyPath
namespace Format
variable {source w : Format} {dirs : List Wstr} {name rel u : Wstr} {dir : Bool}

theorem encodedUnder {k : PrefixCode WChar WChar} (e : Escapes k) (own : LinuxEntry name) :
    Under (k.encode (joinDirs slash dirs)) (k.encode (entryText dirs name dir)) := by
  refine ⟨k.encode name,k.encode (if dir then [slash] else []),by simp [entryText],?_,?_,?_⟩
  · exact fun none' => own.proper.1 ((e.nonempty own.noNul own.proper.2.2.2).mp none')
  · exact e.clear own.noNul own.proper.2.2.2
  · cases dir with
    | false => exact .inl rfl
    | true => exact .inr (by simp [e.separator])

theorem legacyLandsParent (entries : Entries dirs) (own : LinuxEntry name)
    (landed : Format.legacy.lands (entryText dirs name dir) = some rel) : ∃ above, Under above rel ∧
      (above = [] ∨ dirs ≠ [] ∧ Format.legacy.lands (joinDirs slash dirs) = some above) := by
  have clear : ∀ d ∈ dirs, slash ∉ d := fun d mem => (entries d mem).proper.2.2.2
  have inside : joinDirs slash dirs <+: entryText dirs name dir := by
    rw [entryText,List.append_assoc]
    exact List.prefix_append _ _
  rw [lands] at landed
  split at landed
  · cases landed
  rename_i free
  rw [WslLegacyPath.relAfter,WslLegacyPath.encodedEnd] at landed
  simp only [WslLegacyPath.hitsEnded] at landed
  have under := @encodedUnder dirs name dir _ WslV1Path.escapes own
  have above (h : dirs ≠ []) := WslLegacyPath.landsDirs (WslLegacyPath.freeAbove h free)
  split at landed
  · rename_i hits
    cases landed
    rcases WslLegacyPath.hitsAbove clear own.proper.2.2.2 hits with higher | ⟨rfl,rfl⟩
    · have some' : dirs ≠ [] := by
        rintro rfl
        revert higher
        decide
      refine ⟨_,?_,.inr ⟨some',(above some').trans (by rw [if_pos higher])⟩⟩
      obtain ⟨last,tail,whole,rest⟩ := under
      refine ⟨last,tail,?_,rest⟩
      rw [whole,List.append_assoc,List.drop_append_of_le_length (WslLegacyPath.longEncoding higher)]
      simp only [List.append_assoc]
    · obtain ⟨last,tail,whole,rest⟩ := under
      refine ⟨[],⟨last,tail,?_,rest⟩,.inl rfl⟩
      rw [whole,List.append_assoc,List.drop_left' (by decide)]
      rfl
  · rename_i off
    cases landed
    refine ⟨_,under,?_⟩
    by_cases some' : dirs = []
    · subst some'
      exact .inl rfl
    · have low : ¬ Hits WslLegacyPath.patterns2 (joinDirs slash dirs) := by
        rintro ⟨q,mem,starts⟩
        exact off ⟨q,mem,starts.trans inside⟩
      exact .inr ⟨some',(above some').trans (by rw [if_neg low])⟩

theorem landsParent (wsl : w ≠ .linux) (entries : Entries dirs) (own : LinuxEntry name)
    (landed : w.lands (entryText dirs name dir) = some rel) : ∃ above, Under above rel ∧
      (above = [] ∨ dirs ≠ [] ∧ w.lands (joinDirs slash dirs) = some above) := by
  have plain (k : PrefixCode WChar WChar) (e : Escapes k) :
      ∃ above, Under above (k.encode (entryText dirs name dir)) ∧
        (above = [] ∨ dirs ≠ [] ∧ some (k.encode (joinDirs slash dirs)) = some above) := by
    refine ⟨_,encodedUnder e own,?_⟩
    cases dirs with
    | nil => exact .inl rfl
    | cons => exact .inr ⟨List.cons_ne_nil _ _,rfl⟩
  cases w with
  | linux => contradiction
  | v1 =>
    cases landed
    exact plain _ WslV1Path.escapes
  | v2 =>
    cases landed
    exact plain _ WslV2Path.escapes
  | legacy => exact legacyLandsParent entries own landed

theorem legacyStreamsParent (entries : Entries dirs) (own : LinuxEntry name)
    (streamed : Format.legacy.streams (entryText dirs name dir) = some u) :
    ∃ dirs', Entries dirs' ∧ u = entryText dirs' name dir ∧ (dirs' = [] ∨ dirs' = [wstr "rootfs"] ∨
      dirs ≠ [] ∧ Format.legacy.streams (joinDirs slash dirs) = some (joinDirs slash dirs')) := by
  have separator : (0 : WChar) ≠ slash := by decide
  have noNul : 0 ∉ entryText dirs name dir := by
    cases dir <;> simp [entryText,entries.noNul,own.noNul,separator]
  have clear : ∀ d ∈ dirs, slash ∉ d := fun d mem => (entries d mem).proper.2.2.2
  have inside : joinDirs slash dirs <+: entryText dirs name dir := by
    rw [entryText,List.append_assoc]
    exact List.prefix_append _ _
  rw [streams] at streamed
  split at streamed
  · cases streamed
  rename_i shown
  rw [Bool.not_eq_true,Bool.eq_false_iff,ne_eq,WslLegacyPath.shadowedEncoding noNul] at shown
  -- A directory that is not read would hide all that lies in it.
  have shownAbove (some' : dirs ≠ []) : ¬ WslLegacyPath.shadowed (WslV1Path.code.encode
      (joinDirs slash dirs)) = true := by
    rw [WslLegacyPath.shadowedEncoding entries.noNul]
    have ends := joinedEnds some'
    rintro (⟨q,mem,starts⟩ | same | same | same)
    · exact shown (.inl ⟨q,mem,starts.trans inside⟩)
    all_goals
      rw [same] at ends
      revert ends
      decide
  have rootfs : LinuxEntry (wstr "rootfs") := ⟨by decide,by decide⟩
  split at streamed
  · rename_i moved
    cases streamed
    rw [WslLegacyPath.relocatedEncoding noNul] at moved
    have longer : wstr "rootfs/" ++ entryText dirs name dir = entryText (wstr "rootfs" :: dirs) name dir := by
      have split : wstr "rootfs/" = wstr "rootfs" ++ [slash] := by decide
      simp [entryText,split]
    refine ⟨wstr "rootfs" :: dirs,fun d mem => ?_,longer,?_⟩
    · exact (List.mem_cons.mp mem).elim (fun same => same ▸ rootfs) (entries d)
    · rw [longer] at moved
      have clear' : ∀ d ∈ wstr "rootfs" :: dirs, slash ∉ d := fun d mem =>
        (List.mem_cons.mp mem).elim (fun same => same ▸ by decide) (clear d)
      cases dirs with
      | nil => exact .inr (.inl rfl)
      | cons first others =>
        have some' : first :: others ≠ [] := List.cons_ne_nil _ _
        rcases WslLegacyPath.hitsAbove clear' own.proper.2.2.2 moved with higher | ⟨-,same⟩
        · have split : joinDirs slash (wstr "rootfs" :: first :: others) =
              wstr "rootfs/" ++ joinDirs slash (first :: others) := by
            have split : wstr "rootfs/" = wstr "rootfs" ++ [slash] := by decide
            simp [split]
          rw [split,← WslLegacyPath.relocatedEncoding entries.noNul] at higher
          exact .inr (.inr ⟨some',by rw [streams,if_neg (shownAbove some'),if_pos higher,split]⟩)
        · cases same
  · rename_i stays
    cases streamed
    refine ⟨dirs,entries,rfl,?_⟩
    cases dirs with
    | nil => exact .inl rfl
    | cons first others =>
      have some' : first :: others ≠ [] := List.cons_ne_nil _ _
      have low : ¬ WslLegacyPath.relocated (WslV1Path.code.encode (joinDirs slash (first :: others))) = true := by
        rw [WslLegacyPath.relocatedEncoding entries.noNul]
        rintro ⟨q,mem,starts⟩
        refine stays ((WslLegacyPath.relocatedEncoding noNul).mpr ⟨q,mem,starts.trans ?_⟩)
        exact (List.prefix_append_right_inj _).mpr inside
      exact .inr (.inr ⟨some',by rw [streams,if_neg (shownAbove some'),if_neg low]⟩)

theorem streamsParent (entries : Entries dirs) (own : LinuxEntry name)
    (streamed : source.streams (entryText dirs name dir) = some u) :
    ∃ dirs', Entries dirs' ∧ u = entryText dirs' name dir ∧
      (dirs' = [] ∨ source = .legacy ∧ dirs' = [wstr "rootfs"] ∨
        dirs ≠ [] ∧ source.streams (joinDirs slash dirs) = some (joinDirs slash dirs')) := by
  have plain : ∃ dirs', Entries dirs' ∧ entryText dirs name dir = entryText dirs' name dir ∧
      (dirs' = [] ∨ source = .legacy ∧ dirs' = [wstr "rootfs"] ∨
        dirs ≠ [] ∧ some (joinDirs slash dirs) = some (joinDirs slash dirs')) := by
    refine ⟨dirs,entries,rfl,?_⟩
    cases dirs with
    | nil => exact .inl rfl
    | cons => exact .inr (.inr ⟨List.cons_ne_nil _ _,rfl⟩)
  cases source with
  | legacy =>
    obtain ⟨dirs',entries',same,above⟩ := legacyStreamsParent entries own streamed
    exact ⟨dirs',entries',same,above.imp id (Or.imp (fun rootfs => ⟨rfl,rootfs⟩) id)⟩
  | linux =>
    cases streamed
    exact plain
  | v1 =>
    cases streamed
    exact plain
  | v2 =>
    cases streamed
    exact plain

theorem targetEnds (wsl : w ≠ .linux) (entries : Entries dirs) (some' : dirs ≠ [])
    (target : source.target w (joinDirs slash dirs) = some rel) : rel.getLast? = some backslash := by
  have behind : w.separator = backslash := by cases w <;> first | rfl | contradiction
  obtain ⟨front,same⟩ := List.getLast?_eq_some_iff.mp (joinedEnds some')
  rw [same] at target
  have closes := targetCloses (same ▸ entries.noNul) target
  rw [Closes,if_pos rfl,behind] at closes
  exact closes.resolve_right fun nameless => wsl nameless.1

theorem targetParent {base : Wstr} (ends : base.getLast? = some backslash) (wsl : w ≠ .linux)
    (entries : Entries dirs) (own : LinuxEntry name)
    (target : source.target w (entryText dirs name dir) = some rel) : ∃ above,
      parentOf (base ++ rel) = base ++ above ∧ (above = [] ∨
        dirs ≠ [] ∧ source.target w (joinDirs slash dirs) = some above ∨
        source = .legacy ∧ w.lands (wstr "rootfs/") = some above) := by
  obtain ⟨u,streamed,landed⟩ := Option.bind_eq_some_iff.mp target
  obtain ⟨dirs',entries',rfl,higher⟩ := streamsParent entries own streamed
  obtain ⟨above,under,top⟩ := landsParent wsl entries' own landed
  have closed : above = [] ∨ above.getLast? = some backslash :=
    top.imp id fun ⟨some',there⟩ => @targetEnds .v1 w dirs' above wsl entries' some' there
  refine ⟨above,parentUnder under ?_,?_⟩
  · rcases closed with rfl | last
    · rwa [List.append_nil]
    · rw [List.getLast?_append,last,Option.some_or]
  · rcases top with none' | ⟨some',there⟩
    · exact .inl none'
    · rcases higher with rfl | ⟨legacy,rfl⟩ | ⟨own',streams⟩
      · contradiction
      · exact .inr (.inr ⟨legacy,there⟩)
      · exact .inr (.inl ⟨own',by rw [Format.target,streams]; exact there⟩)

end Format
end LxRunOffline
