import LxRunOffline.LegacyLayout
import LxRunOffline.SourceNames

/-! Where the path of an entry lands in another format, as a text of its components. -/
namespace LxRunOffline
open PrefixMatcher (Hits Leaves)

namespace Format

def streams : Format → Wstr → Option Wstr
  | .legacy,s =>
    if WslLegacyPath.shadowed (WslV1Path.code.encode s) then none
    else if WslLegacyPath.relocated (WslV1Path.code.encode s) then some (wstr "rootfs/" ++ s)
    else some s
  | _,s => some s

def lands : Format → Wstr → Option Wstr
  | .linux,u => if Leaves LinuxPath.patterns (u ++ [0]) then none
    else some (LinuxPath.dataAfter (u ++ [0]))
  | .v1,u => some (WslV1Path.code.encode u)
  | .v2,u => some (WslV2Path.code.encode u)
  | .legacy,u => if Hits WslLegacyPath.patterns1 (u ++ [0]) then none
    else some (WslLegacyPath.relAfter (u ++ [0]))

def target (source w : Format) (s : Wstr) : Option Wstr := (source.streams s).bind w.lands

def separator : Format → WChar
  | .linux => slash
  | _ => backslash

def named (source : Format) (base s : Wstr) : FilePath :=
  (source.fresh base).withRel (source.code.encode s)

end Format
namespace FilePath

theorem feedText (w : Format) (base u : Wstr) :
    match w.lands u with
    | none => ((w.fresh base).appendText (u ++ [0])).1 = false
    | some rel => ∃ held, (w.fresh base).appendText (u ++ [0]) = (true,held) ∧
        held.data = (w.fresh base).base ++ rel := by
  cases w with
  | linux =>
    have fed := LinuxPath.feedAfter LinuxPath.newAfter (u ++ [0])
    rw [List.nil_append] at fed
    simp only [Format.lands]
    split at fed
    · rename_i leaves
      rw [if_pos leaves]
      exact fed
    · rename_i stays
      obtain ⟨q,run,after⟩ := fed
      rw [if_neg stays]
      exact ⟨_,run,after.data⟩
  | v1 => exact ⟨_,WslPath.feedV1 _ _,by rw [WslLegacyPath.encodedEnd]; rfl⟩
  | v2 =>
    have ended : WslV2Path.code.encode (u ++ [0]) = WslV2Path.code.encode u :=
      (WslV2Path.code.encodeAppend _ _).trans (List.append_nil _)
    exact ⟨_,WslPath.feedV2 _ _,by rw [ended]; rfl⟩
  | legacy =>
    have fed := WslLegacyPath.feedAfter (WslLegacyPath.newAfter base) (u ++ [0])
    rw [List.nil_append] at fed
    simp only [Format.lands]
    split at fed
    · rename_i hits
      rw [if_pos hits]
      exact fed
    · rename_i free
      obtain ⟨q,run,after⟩ := fed
      rw [if_neg free]
      exact ⟨_,run,congr (congrArg _ after.base) after.rel⟩

theorem legacyText {s : Wstr} (noNul : 0 ∉ s) (base : Wstr) (out : FilePath) :
    (Format.legacy.named base s).convert out = match Format.legacy.streams s with
      | none => (.ok false,out)
      | some u => putText (u ++ [0]) out.reset := by
  have rel : (Format.legacy.named base s).convert = legacyConvert (WslV1Path.code.encode s) := rfl
  rw [rel,legacyConvert,Format.streams]
  cases shown : WslLegacyPath.shadowed (WslV1Path.code.encode s) with
  | true => rfl
  | false =>
    simp only [Bool.false_eq_true,if_false,WslLegacyPath.readsBack noNul,Program.bindRun,
      Program.modifyRun]
    cases moved : WslLegacyPath.relocated (WslV1Path.code.encode s) with
    | true => simp only [if_true,putTextAppend,List.append_assoc]
    | false => simp only [Bool.false_eq_true,if_false]

theorem namedText {source : Format} (reader : source ≠ .linux) {s : Wstr} (noNul : 0 ∉ s)
    (plain : source.Plain s) (base : Wstr) (out : FilePath) :
    (source.named base s).convert out = match source.streams s with
      | none => (.ok false,out)
      | some u => putText (u ++ [0]) out.reset := by
  cases source with
  | linux => contradiction
  | v1 => exact v1Streams noNul rfl out
  | v2 => exact v2Streams noNul (plain rfl) rfl out
  | legacy => exact legacyText noNul base out

theorem namedConvert {source w : Format} (reader : source ≠ .linux) {s : Wstr} (noNul : 0 ∉ s)
    (plain : source.Plain s) (base base' : Wstr) {out : FilePath} (fresh : out.reset = w.fresh base') :
    match source.target w s with
    | none => ((source.named base s).convert out).1 = .ok false
    | some rel => ∃ held, (source.named base s).convert out = (.ok true,held) ∧
        held.data = (w.fresh base').base ++ rel := by
  have text := namedText reader noNul plain base out
  rw [Format.target]
  cases streamed : source.streams s with
  | none =>
    rw [streamed] at text
    exact congrArg Prod.fst text
  | some u =>
    rw [streamed,fresh] at text
    have fed := feedText w base' u
    rw [text,Option.bind_some]
    cases landed : w.lands u with
    | none =>
      rw [landed] at fed
      exact congrArg Except.ok fed
    | some rel =>
      rw [landed] at fed
      obtain ⟨held,run,data⟩ := fed
      exact ⟨held,congrArg (fun r => (Except.ok r.1,r.2)) run,data⟩

end FilePath
namespace Format
variable {source w : Format} {u rel : Wstr} {c : WChar}

def Closes (w : Format) (c : WChar) (rel : Wstr) : Prop :=
  if c = slash then rel.getLast? = some w.separator ∨ w = .linux ∧ rel = []
  else rel ≠ [] ∧ rel.getLast? ≠ some w.separator

theorem encodedCloses {k : PrefixCode WChar WChar} (e : Escapes k) (wsl : w ≠ .linux)
    (nonzero : c ≠ 0) (u : Wstr) : w.Closes c (k.encode (u ++ [c])) := by
  have behind : w.separator = backslash := by cases w <;> first | rfl | contradiction
  have whole : k.encode (u ++ [c]) = k.encode u ++ k.code c := by simp
  rw [Closes,behind,whole]
  split
  · rename_i same
    subst same
    simp [e.separator]
  · rename_i other
    obtain ⟨some',clear,-⟩ := e.other c nonzero other
    refine ⟨by simp [some'],fun last => clear ?_⟩
    rw [List.getLast?_append,List.getLast?_eq_some_getLast some',Option.some_or] at last
    exact Option.some.inj last ▸ List.getLast_mem some'

theorem linuxCloses (noNul : 0 ∉ u ++ [c]) (landed : Format.linux.lands (u ++ [c]) = some rel) :
    Format.linux.Closes c rel := by
  rw [lands] at landed
  split at landed
  · cases landed
  · rename_i stays
    cases landed
    have root : wstr "rootfs/" <+: u ++ [c] := by
      by_contra off
      refine stays fun q mem => ?_
      obtain rfl : q = wstr "rootfs/" := by simpa [LinuxPath.patterns] using mem
      have noEnd : (0 : WChar) ∉ wstr "rootfs/" := by decide
      refine ⟨fun starts => ?_,fun starts => noEnd (starts.subset (by simp))⟩
      rcases List.prefix_concat_iff.mp starts with same | under
      · exact noEnd (by simp [same])
      · exact off under
    obtain ⟨v,same⟩ := root
    have clear : 0 ∉ v := fun mem => noNul (same ▸ List.mem_append_right _ mem)
    have data : LinuxPath.dataAfter (u ++ [c] ++ [0]) = v := by
      have hits : PrefixMatcher.Hits LinuxPath.patterns (u ++ [c] ++ [0]) := by
        rw [LinuxPath.hitsOnly,← same,List.append_assoc]
        exact List.prefix_append _ _
      have kept : v.filter (· != 0) = v :=
        List.filter_eq_self.mpr fun c mem => by simpa using ne_of_mem_of_not_mem mem clear
      rw [LinuxPath.dataAfter,if_pos hits,← same,List.append_assoc,List.drop_left' (by decide),
        List.filter_append,kept]
      exact List.append_nil _
    rw [data,Closes]
    rcases List.eq_nil_or_concat v with rfl | ⟨front,last,rfl⟩
    · have ended : c = slash := by
        have both := congrArg List.getLast? same
        simpa [wstr,slash] using both.symm
      rw [if_pos ended]
      exact .inr ⟨rfl,rfl⟩
    · have ended : last = c := by
        have both := congrArg List.getLast? same
        simpa using both
      subst ended
      split
      · rename_i same
        simp [separator,same]
      · rename_i other
        simp [separator,other]

theorem landsCloses (noNul : 0 ∉ u ++ [c]) (landed : w.lands (u ++ [c]) = some rel) :
    w.Closes c rel := by
  have nonzero : c ≠ 0 := fun same => noNul (by simp [same])
  cases w with
  | linux => exact linuxCloses noNul landed
  | v1 =>
    cases landed
    exact encodedCloses WslV1Path.escapes (by decide) nonzero u
  | v2 =>
    cases landed
    exact encodedCloses WslV2Path.escapes (by decide) nonzero u
  | legacy =>
    rw [lands] at landed
    split at landed
    · cases landed
    · cases landed
      rcases WslLegacyPath.landing noNul with ⟨v,same,hits,rel⟩ | rel
      · rcases List.eq_nil_or_concat v with rfl | ⟨front,last,rfl⟩
        · exact absurd hits (by decide)
        · have ended : last = c := by
            have both := congrArg List.getLast? same
            simpa using both.symm
          rw [rel,ended,List.concat_eq_append]
          exact encodedCloses WslV1Path.escapes (by decide) nonzero front
      · rw [rel]
        exact encodedCloses WslV1Path.escapes (by decide) nonzero u

theorem streamsEnding (noNul : 0 ∉ u ++ [c]) {v : Wstr} (streamed : source.streams (u ++ [c]) = some v) :
    ∃ front, v = front ++ [c] ∧ 0 ∉ front ++ [c] := by
  cases source with
  | legacy =>
    rw [streams] at streamed
    split at streamed
    · cases streamed
    · split at streamed
      · cases streamed
        exact ⟨wstr "rootfs/" ++ u,by simp,by
          rw [List.append_assoc]
          exact WslLegacyPath.rootedClear noNul⟩
      · cases streamed
        exact ⟨u,rfl,noNul⟩
  | linux =>
    cases streamed
    exact ⟨u,rfl,noNul⟩
  | v1 =>
    cases streamed
    exact ⟨u,rfl,noNul⟩
  | v2 =>
    cases streamed
    exact ⟨u,rfl,noNul⟩

theorem targetCloses (noNul : 0 ∉ u ++ [c]) (target : source.target w (u ++ [c]) = some rel) :
    w.Closes c rel := by
  obtain ⟨v,streamed,landed⟩ := Option.bind_eq_some_iff.mp target
  obtain ⟨front,rfl,clear⟩ := streamsEnding noNul streamed
  exact landsCloses clear landed

end Format
end LxRunOffline
