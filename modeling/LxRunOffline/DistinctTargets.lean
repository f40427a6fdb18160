import LxRunOffline.EntryTexts
import LxRunOffline.LegacyLayout
import LxRunOffline.VisitOrder

/-! No two entries of a source land on one path. The legacy layout moves some directories and
refuses what would lie where they come from; in the v2 format a unit that looks like an escape
could be taken for the unit that it stands for. -/
namespace LxRunOffline
open PrefixMatcher (Hits Leaves)

theorem Components.textInjective {sep : WChar} {p q : Parts sep} (same : p.text = q.text) :
    p.dirs = q.dirs ∧ p.last = q.last := by
  have split := p.splitText
  rw [same,q.splitText] at split
  obtain ⟨dirs,last⟩ := List.append_inj' split rfl
  exact ⟨dirs.symm,(List.singleton_inj.mp last).symm⟩

theorem entryTextInjective {dirs dirs' : List Wstr} {name name' : Wstr} {dir dir' : Bool}
    (above : Entries dirs) (own : LinuxEntry name) (above' : Entries dirs') (own' : LinuxEntry name')
    (same : entryText dirs name dir = entryText dirs' name' dir') :
    dirs = dirs' ∧ name = name' ∧ dir = dir' := by
  have cut (dirs : List Wstr) (name : Wstr) (dir : Bool) (above : Entries dirs) (own : LinuxEntry name) :
      ∃ p : Parts slash, p.text = entryText dirs name dir ∧
        if dir then p.dirs = dirs ++ [name] ∧ p.last = [] else p.dirs = dirs ∧ p.last = name := by
    have clear : ∀ d ∈ dirs ++ [name], slash ∉ d := fun d mem => (List.mem_append.mp mem).elim
      (fun mem => (above d mem).proper.2.2.2) fun mem => List.mem_singleton.mp mem ▸ own.proper.2.2.2
    cases dir with
    | true => exact ⟨⟨dirs ++ [name],[],clear,by simp⟩,by simp [Parts.text,entryTextDir],rfl,rfl⟩
    | false =>
      refine ⟨⟨dirs,name,fun d mem => clear d (List.mem_append_left _ mem),own.proper.2.2.2⟩,?_,rfl,rfl⟩
      simp [Parts.text,entryText]
  obtain ⟨p,is,parts⟩ := cut dirs name dir above own
  obtain ⟨q,is',parts'⟩ := cut dirs' name' dir' above' own'
  obtain ⟨sameDirs,sameLast⟩ := Components.textInjective (is.trans (same.trans is'.symm))
  have named := own.proper.1
  have named' := own'.proper.1
  cases dir <;> cases dir'
  · exact ⟨parts.1.symm.trans (sameDirs.trans parts'.1),parts.2.symm.trans (sameLast.trans parts'.2),rfl⟩
  · exact absurd (parts.2.symm.trans (sameLast.trans parts'.2)) named
  · exact absurd (parts'.2.symm.trans (sameLast.symm.trans parts.2)) named'
  · obtain ⟨rfl,last⟩ := List.append_inj' (parts.1.symm.trans (sameDirs.trans parts'.1)) rfl
    exact ⟨rfl,List.singleton_inj.mp last,rfl⟩

namespace Format
variable {source w : Format} {s t u v rel : Wstr}

theorem streamsOnce (hs : 0 ∉ s) (ht : 0 ∉ t) (first : source.streams s = some u)
    (second : source.streams t = some u) : s = t := by
  cases source with
  | legacy =>
    have moved {a b : Wstr} (ha : 0 ∉ a) (hb : 0 ∉ b)
        (shown : ¬ WslLegacyPath.shadowed (WslV1Path.code.encode b) = true)
        (from' : WslLegacyPath.relocated (WslV1Path.code.encode a) = true) : wstr "rootfs/" ++ a ≠ b := by
      intro same
      have hits := (WslLegacyPath.relocatedEncoding ha).mp from'
      exact shown ((WslLegacyPath.shadowedEncoding hb).mpr (.inl (same ▸ hits)))
    rw [streams] at first second
    split at first
    · cases first
    rename_i shown
    split at second
    · cases second
    rename_i shown'
    split at first <;> split at second <;> cases first <;> have same := Option.some.inj second
    · exact (List.append_cancel_left same).symm
    · exact absurd same.symm (moved hs ht shown' (by assumption))
    · exact absurd same (moved ht hs shown (by assumption))
    · exact same.symm
  | linux => exact Option.some.inj (first.trans second.symm)
  | v1 => exact Option.some.inj (first.trans second.symm)
  | v2 => exact Option.some.inj (first.trans second.symm)

theorem streamsClear (noNul : 0 ∉ s) (plain : w.Plain s) (streamed : source.streams s = some u) :
    0 ∉ u ∧ w.Plain u := by
  have root : w.Plain (wstr "rootfs/") := fun _ => everyUnit (by decide)
  cases source with
  | legacy =>
    rw [streams] at streamed
    split at streamed
    · cases streamed
    · split at streamed
      · cases streamed
        exact ⟨WslLegacyPath.rootedClear noNul,root.append plain⟩
      · cases streamed
        exact ⟨noNul,plain⟩
  | linux => exact Option.some.inj streamed ▸ ⟨noNul,plain⟩
  | v1 => exact Option.some.inj streamed ▸ ⟨noNul,plain⟩
  | v2 => exact Option.some.inj streamed ▸ ⟨noNul,plain⟩

theorem linuxUnder (noNul : 0 ∉ u) (landed : Format.linux.lands u = some rel) : u = wstr "rootfs/" ++ rel := by
  rw [lands] at landed
  split at landed
  · cases landed
  rename_i stays
  cases landed
  have root : wstr "rootfs/" <+: u ++ [0] := by
    by_contra off
    refine stays fun q mem => ?_
    obtain rfl : q = wstr "rootfs/" := by simpa [LinuxPath.patterns] using mem
    exact ⟨off,fun starts => absurd (starts.subset (by simp)) (by decide : (0 : WChar) ∉ wstr "rootfs/")⟩
  have under : wstr "rootfs/" <+: u := by
    rcases List.prefix_concat_iff.mp root with same | under
    · exact absurd (by simp [same]) (by decide : (0 : WChar) ∉ wstr "rootfs/")
    · exact under
  obtain ⟨v,rfl⟩ := under
  have clear : 0 ∉ v := fun mem => noNul (List.mem_append_right _ mem)
  have kept : v.filter (· != 0) = v :=
    List.filter_eq_self.mpr fun c mem => by simpa using ne_of_mem_of_not_mem mem clear
  rw [LinuxPath.dataAfter,if_pos (LinuxPath.hitsOnly.mpr root),List.append_assoc,List.drop_left' (by decide),
    List.filter_append,kept]
  simp

theorem legacyOnce (hu : 0 ∉ u) (hv : 0 ∉ v) (first : Format.legacy.lands u = some rel)
    (second : Format.legacy.lands v = some rel) : u = v := by
  have clear {a b : Wstr} (h : 0 ∉ b) (is : b = wstr "rootfs/" ++ a) : 0 ∉ a :=
    fun mem => h (is ▸ List.mem_append_right _ mem)
  rw [lands] at first second
  split at first
  · cases first
  rename_i free
  split at second
  · cases second
  rename_i free'
  have same := Option.some.inj (first.trans second.symm)
  rcases WslLegacyPath.landing hu with ⟨a,isU,hits,landU⟩ | landU <;>
    rcases WslLegacyPath.landing hv with ⟨b,isV,hits',landV⟩ | landV
  · rw [landU,landV,WslLegacyPath.encodedSame (clear hu isU) (clear hv isV)] at same
    rw [isU,isV,same]
  · rw [landU,landV,WslLegacyPath.encodedSame (clear hu isU) hv] at same
    exact absurd (same ▸ hits.extend [0]) free'
  · rw [landU,landV,WslLegacyPath.encodedSame hu (clear hv isV)] at same
    exact absurd (same ▸ hits'.extend [0]) free
  · rw [landU,landV] at same
    exact (WslLegacyPath.encodedSame hu hv).mp same

theorem landsOnce (hu : 0 ∉ u ∧ w.Plain u) (hv : 0 ∉ v ∧ w.Plain v) (first : w.lands u = some rel)
    (second : w.lands v = some rel) : u = v := by
  cases w with
  | linux => rw [linuxUnder hu.1 first,linuxUnder hv.1 second]
  | v1 => exact (WslLegacyPath.encodedSame hu.1 hv.1).mp (Option.some.inj (first.trans second.symm))
  | v2 =>
    refine PrefixCode.encodeInjective WslV2Path.code ?_ ?_ (Option.some.inj (first.trans second.symm))
    · exact fun c mem => WslV2Path.codeExact (ne_of_mem_of_not_mem mem hu.1) (hu.2 rfl c mem)
    · exact fun c mem => WslV2Path.codeExact (ne_of_mem_of_not_mem mem hv.1) (hv.2 rfl c mem)
  | legacy => exact legacyOnce hu.1 hv.1 first second

theorem targetOnce (hs : 0 ∉ s ∧ w.Plain s) (ht : 0 ∉ t ∧ w.Plain t) (first : source.target w s = some rel)
    (second : source.target w t = some rel) : s = t := by
  obtain ⟨u,fed,landed⟩ := Option.bind_eq_some_iff.mp first
  obtain ⟨v,fed',landed'⟩ := Option.bind_eq_some_iff.mp second
  obtain rfl := landsOnce (streamsClear hs.1 hs.2 fed) (streamsClear ht.1 ht.2 fed') landed landed'
  exact streamsOnce hs.1 ht.1 fed fed'

end Format
namespace WslReader
variable {r : WslReader} {w : Format} {base p : Wstr} {u v : Visit}

/- No unit of a name looks like an escape of the v2 format that it is not. -/
def Unmistaken (r : WslReader) (w : Format) : Prop :=
  w = .v2 → r.format ≠ .v2 → ∀ v ∈ r.visits, ∀ c ∈ v.path, WslPath.isSpecialInput (c ^^^ 0xf000) = false

theorem farFromSpecial {c : WChar} (mistaken : WslPath.isSpecialInput (c ^^^ 0xf000) = true) :
    WslV1Path.code.code c = [c] := by
  have small := WslPath.specialSmall mistaken
  have all : ∀ n < 128, WslV1Path.code.code (n.toUInt16 ^^^ 0xf000) = [n.toUInt16 ^^^ 0xf000] := by decide
  have word := all (c ^^^ 0xf000).toNat small
  have back : ((c ^^^ 0xf000).toNat.toUInt16) ^^^ 0xf000 = c := by
    rw [show (c ^^^ 0xf000).toNat.toUInt16 = c ^^^ 0xf000 by simp,WslV2Path.xorTwice]
  rwa [back] at word

theorem visitText (encoded : r.tree.Encoded r.format) (unmistaken : r.Unmistaken w) (visited : v ∈ r.visits) :
    ∃ texts text, r.Spelled v.dirs v.name texts text ∧ 0 ∉ entryText texts text v.dir ∧
      w.Plain (entryText texts text v.dir) := by
  obtain ⟨dirs,name⟩ := (walkedEncoded encoded).visited (by simp) v visited
  obtain ⟨texts,text,spelled⟩ := spelledNames dirs name
  obtain ⟨noNul,plain⟩ := entryReads v.dir spelled.reads spelled.own
  refine ⟨texts,text,spelled,noNul,fun v2 c mem => ?_⟩
  by_cases own : r.format = .v2
  · exact plain own c mem
  · have coded : r.format.code = WslV1Path.code := by
      cases format : r.format <;> first | rfl | exact absurd format own
    by_contra mistaken
    have same : v.path = WslV1Path.code.encode (entryText texts text v.dir) := by
      rw [← coded,r.format.escapes.entry,← spelled.dirs,← spelled.name]
      rfl
    have inside : c ∈ v.path := by
      rw [same]
      refine List.mem_flatMap.mpr ⟨c,mem,?_⟩
      rw [farFromSpecial (Bool.not_eq_false _ ▸ mistaken)]
      exact List.mem_singleton_self c
    exact mistaken (unmistaken v2 own v visited c inside)

theorem landsOnce (encoded : r.tree.Encoded r.format) (reader : r.format ≠ .linux)
    (unmistaken : r.Unmistaken w) (mem : u ∈ r.visits) (mem' : v ∈ r.visits)
    (landed : r.lands w base u = some p) (landed' : r.lands w base v = some p) : u.place = v.place := by
  obtain ⟨texts,text,spelled,clear⟩ := visitText encoded unmistaken mem
  obtain ⟨texts',text',spelled',clear'⟩ := visitText encoded unmistaken mem'
  rw [spelled.lands reader] at landed
  rw [spelled'.lands reader] at landed'
  obtain ⟨rel,target,is⟩ := Option.map_eq_some_iff.mp landed
  obtain ⟨rel',target',is'⟩ := Option.map_eq_some_iff.mp landed'
  obtain rfl : rel = rel' := List.append_cancel_left (is.trans is'.symm)
  have entries {names : List Wstr} (h : ∀ t ∈ names, r.format.Reads t) : Entries names :=
    fun t mem => (h t mem).entry
  obtain ⟨rfl,rfl,-⟩ := entryTextInjective (entries spelled.reads) spelled.own.entry
    (entries spelled'.reads) spelled'.own.entry (Format.targetOnce clear clear' target target')
  rw [Visit.place,Visit.place,spelled.dirs,spelled'.dirs,spelled.name,spelled'.name]

theorem visitedOnce (proper : r.walked.Proper) {done rest : List Visit} (all : r.visits = done ++ v :: rest)
    (before : u ∈ done) : u.place ≠ v.place := by
  obtain ⟨_,_,-,apart⟩ := Tree.stretch proper all
  exact fun same => apart.before u before (same ▸ List.prefix_rfl)

end WslReader
end LxRunOffline
