import LxRunOffline.LinuxName

/-! Conversion between the formats is lossless on normal names. Whatever format such a name has
been converted to, the path streams the same units again, so every other format receives
exactly what it would have received directly. -/
namespace LxRunOffline
open PrefixMatcher (Hits Leaves)

/- A relative Linux path in normal form. -/
structure NormalName where
  comps : List Wstr
  trailing : Bool
  nonempty : comps ≠ []
  proper : ∀ comp ∈ comps, LinuxPath.Proper comp
  noNul : ∀ comp ∈ comps, 0 ∉ comp

namespace NormalName

def text (p : NormalName) : Wstr :=
  [slash].intercalate p.comps ++ if p.trailing then [slash] else []

theorem intercalateSnoc (dirs : List Wstr) (last : Wstr) :
    [slash].intercalate (dirs ++ [last]) = joinDirs slash dirs ++ last := by
  induction dirs with
  | nil => simp
  | cons dir dirs ih =>
    cases dirs with
    | nil => simp
    | cons next dirs => simpa using ih

theorem textSnoc (p : NormalName) : ∃ dirs last, p.comps = dirs ++ [last] ∧
    p.text = joinDirs slash dirs ++ last ++ if p.trailing then [slash] else [] := by
  rcases List.eq_nil_or_concat p.comps with none | ⟨dirs,last,same⟩
  · exact absurd none p.nonempty
  · rw [List.concat_eq_append] at same
    exact ⟨dirs,last,same,by rw [text,same,intercalateSnoc]⟩

theorem textNoNul (p : NormalName) : 0 ∉ p.text := by
  obtain ⟨dirs,last,comps,same⟩ := textSnoc p
  have noNul := p.noNul
  rw [comps] at noNul
  have separator : (0 : WChar) ≠ slash := by decide
  rw [same]
  simp only [joinDirs,List.mem_append,List.mem_flatMap,not_or,not_exists,not_and]
  refine ⟨⟨fun dir mem => ⟨noNul dir (by simp [mem]),by simp [separator]⟩,noNul last (by simp)⟩,?_⟩
  split <;> simp [separator]

theorem resolved (p : NormalName) : ∃ q : Parts slash, q.text = p.text ∧
    LinuxPath.resolve q = p.text := by
  obtain ⟨dirs,last,comps,same⟩ := textSnoc p
  have proper := p.proper
  rw [comps] at proper
  have dirsProper : ∀ dir ∈ dirs, LinuxPath.Proper dir := fun dir mem => proper dir (by simp [mem])
  have lastProper := proper last (by simp)
  have dirsClear : ∀ dir ∈ dirs, slash ∉ dir := fun dir mem => (dirsProper dir mem).2.2.2
  cases trailing : p.trailing with
  | false =>
    rw [trailing] at same
    refine ⟨⟨dirs,last,dirsClear,lastProper.2.2.2⟩,by simp [Parts.text,same],?_⟩
    rw [LinuxPath.resolve,LinuxPath.foldSame dirsProper,same]
    simp
  | true =>
    rw [trailing] at same
    refine ⟨⟨dirs ++ [last],[],?_,by simp⟩,by simp [Parts.text,same],?_⟩
    · exact fun dir mem => (proper dir mem).2.2.2
    · rw [LinuxPath.resolve,LinuxPath.foldSame proper,same]
      simp

theorem textNonempty (p : NormalName) : p.text ≠ [] := by
  obtain ⟨dirs,last,comps,same⟩ := textSnoc p
  have lastProper := p.proper last (by simp [comps])
  simp [same,lastProper.1]

theorem ofName (p : NormalName) :
    LinuxPath.ofName p.text [] = LinuxPath.named p.text := by
  obtain ⟨q,same,whole⟩ := resolved p
  have stripped : LinuxPath.stripRoot p.text [] = some q.text := by
    rw [same]; rfl
  rw [LinuxPath.ofNameResolves q stripped,whole]

def word (p : NormalName) : Wstr := wstr "rootfs/" ++ p.text ++ [0]

theorem ofNameStreams (p : NormalName) :
    FilePath.Streams (.linux (LinuxPath.ofName p.text [])) p.word := by
  rw [ofName p]
  exact LinuxPath.namedStreams (textNonempty p)

end NormalName

namespace WslLegacyPath

theorem encodedPrefix {q s : Wstr} (hq : 0 ∉ q) (hs : 0 ∉ s) :
    WslV1Path.code.encode q <+: WslV1Path.code.encode s ↔ q <+: s := by
  refine ⟨PrefixCode.prefixOfEncode _ ?_ ?_,?_⟩
  · exact fun c mem => WslV1Path.codeExact (ne_of_mem_of_not_mem mem hq)
  · exact fun c mem => WslV1Path.codeExact (ne_of_mem_of_not_mem mem hs)
  · rintro ⟨rest,rfl⟩
    rw [PrefixCode.encodeAppend]
    exact List.prefix_append _ _

theorem encodedSame {q s : Wstr} (hq : 0 ∉ q) (hs : 0 ∉ s) :
    WslV1Path.code.encode q = WslV1Path.code.encode s ↔ q = s := by
  refine ⟨PrefixCode.encodeInjective _ ?_ ?_,fun same => same ▸ rfl⟩
  · exact fun c mem => WslV1Path.codeExact (ne_of_mem_of_not_mem mem hq)
  · exact fun c mem => WslV1Path.codeExact (ne_of_mem_of_not_mem mem hs)

theorem takeIs (rel q : Wstr) : (rel.take q.length == q) = true ↔ q <+: rel := by
  rw [beq_iff_eq,List.prefix_iff_eq_take,eq_comm]

theorem startsEncoded {s q e : Wstr} {n : Nat} (noNul : 0 ∉ s) (hq : 0 ∉ q)
    (coded : WslV1Path.code.encode q = e) (size : e.length = n) :
    ((WslV1Path.code.encode s).take n == e) = true ↔ q <+: s := by
  rw [← size,takeIs,← coded,encodedPrefix hq noNul]

theorem isEncoded {s q e : Wstr} (noNul : 0 ∉ s) (hq : 0 ∉ q)
    (coded : WslV1Path.code.encode q = e) : (WslV1Path.code.encode s == e) = true ↔ s = q := by
  rw [beq_iff_eq,← coded,encodedSame noNul hq]

theorem shadowedEncoding {s : Wstr} (noNul : 0 ∉ s) :
    shadowed (WslV1Path.code.encode s) = true ↔ Hits patterns2 s ∨ s = wstr "rootfs/root" ∨
      s = wstr "rootfs/home" ∨ s = wstr "rootfs/mnt" := by
  have root := @startsEncoded s (wstr "rootfs/root/") (wstr "rootfs\\root\\") 12 noNul
    (by decide) (by decide) (by decide)
  have home := @startsEncoded s (wstr "rootfs/home/") (wstr "rootfs\\home\\") 12 noNul
    (by decide) (by decide) (by decide)
  have mnt := @startsEncoded s (wstr "rootfs/mnt/") (wstr "rootfs\\mnt\\") 11 noNul
    (by decide) (by decide) (by decide)
  have rootBare := @isEncoded s (wstr "rootfs/root") (wstr "rootfs\\root") noNul
    (by decide) (by decide)
  have homeBare := @isEncoded s (wstr "rootfs/home") (wstr "rootfs\\home") noNul
    (by decide) (by decide)
  have mntBare := @isEncoded s (wstr "rootfs/mnt") (wstr "rootfs\\mnt") noNul
    (by decide) (by decide)
  have hits : Hits patterns2 s ↔ wstr "rootfs/home/" <+: s ∨ wstr "rootfs/root/" <+: s ∨
      wstr "rootfs/mnt/" <+: s := by
    simp only [Hits,patterns2,List.mem_cons,List.not_mem_nil,or_false,exists_eq_or_imp,
      exists_eq_left]
  simp only [shadowed,Bool.or_eq_true,root,home,mnt,rootBare,homeBare,mntBare,hits]
  grind

theorem relocatedEncoding {s : Wstr} (noNul : 0 ∉ s) :
    relocated (WslV1Path.code.encode s) = true ↔ Hits patterns2 (wstr "rootfs/" ++ s) := by
  have root := @startsEncoded s (wstr "root/") (wstr "root\\") 5 noNul
    (by decide) (by decide) (by decide)
  have home := @startsEncoded s (wstr "home/") (wstr "home\\") 5 noNul
    (by decide) (by decide) (by decide)
  have mnt := @startsEncoded s (wstr "mnt/") (wstr "mnt\\") 4 noNul
    (by decide) (by decide) (by decide)
  have split : patterns2 = [wstr "rootfs/" ++ wstr "home/",wstr "rootfs/" ++ wstr "root/",
    wstr "rootfs/" ++ wstr "mnt/"] := by decide
  have hits : Hits patterns2 (wstr "rootfs/" ++ s) ↔ wstr "home/" <+: s ∨ wstr "root/" <+: s ∨
      wstr "mnt/" <+: s := by
    simp only [Hits,split,List.mem_cons,List.not_mem_nil,or_false,exists_eq_or_imp,
      exists_eq_left,List.prefix_append_right_inj]
  simp only [relocated,Bool.or_eq_true,root,home,mnt,hits]
  exact (or_congr_left or_comm).trans or_assoc

theorem notRelocatedRootfs (s : Wstr) :
    ¬ Hits patterns2 (wstr "rootfs/" ++ (wstr "rootfs/" ++ s)) := by
  rintro ⟨q,mem,starts⟩
  have all : ∀ q ∈ patterns2, q.length ≤ 14 ∧ ¬ q <+: wstr "rootfs/" ++ wstr "rootfs/" := by decide
  obtain ⟨short,apart⟩ := all q mem
  rw [← List.append_assoc] at starts
  exact apart (List.prefix_of_prefix_length_le starts (List.prefix_append _ _) short)

theorem hitsEnded {s : Wstr} : Hits patterns2 (s ++ [0]) ↔ Hits patterns2 s := by
  refine ⟨fun ⟨q,mem,starts⟩ => ?_,fun hits => hits.extend [0]⟩
  have noNul : ∀ q ∈ patterns2, (0 : WChar) ∉ q := by decide
  rcases List.prefix_concat_iff.mp starts with same | under
  · exact absurd (by simp [same]) (noNul q mem)
  · exact ⟨q,mem,under⟩

/- `bare` are the names under which the relocated directories cannot be written. -/
def bare : List Wstr := [wstr "home",wstr "root",wstr "mnt"]

theorem notShadowed {s : Wstr} (noNul : 0 ∉ s) (notBare : s ∉ bare)
    (away : ¬ Hits patterns2 (wstr "rootfs/" ++ s)) :
    shadowed (WslV1Path.code.encode (wstr "rootfs/" ++ s)) = false := by
  have clear : 0 ∉ wstr "rootfs/" ++ s := by
    rw [List.mem_append,not_or]
    exact ⟨by decide,noNul⟩
  have split : wstr "rootfs/root" = wstr "rootfs/" ++ wstr "root" ∧
    wstr "rootfs/home" = wstr "rootfs/" ++ wstr "home" ∧
    wstr "rootfs/mnt" = wstr "rootfs/" ++ wstr "mnt" := by decide
  rw [Bool.eq_false_iff,ne_eq,shadowedEncoding clear,split.1,split.2.1,split.2.2]
  simp only [List.append_cancel_left_eq]
  simp only [bare,List.mem_cons,List.not_mem_nil,or_false,not_or] at notBare
  grind

theorem notShadowedMoved {s : Wstr} (noNul : 0 ∉ s) (hits : Hits patterns2 (wstr "rootfs/" ++ s)) :
    shadowed (WslV1Path.code.encode s) = false := by
  rw [Bool.eq_false_iff,ne_eq,shadowedEncoding noNul]
  intro under
  have inside : wstr "rootfs/" <+: s := by
    have all : ∀ q ∈ patterns2, wstr "rootfs/" <+: q := by decide
    rcases under with ⟨q,mem,starts⟩ | rfl | rfl | rfl
    · exact (all q mem).trans starts
    all_goals decide
  obtain ⟨rest,rfl⟩ := inside
  exact notRelocatedRootfs rest hits

end WslLegacyPath

namespace WslLegacyPath

theorem rootedClear {s : Wstr} (noNul : 0 ∉ s) : 0 ∉ wstr "rootfs/" ++ s := by
  rw [List.mem_append,not_or]
  exact ⟨by decide,noNul⟩

theorem encodedEnd (s : Wstr) : WslV1Path.code.encode (s ++ [0]) = WslV1Path.code.encode s := by
  rw [PrefixCode.encodeAppend]
  exact List.append_nil _

theorem readsBack {s : Wstr} (noNul : 0 ∉ s) :
    FilePath.realConvertV1 (WslV1Path.code.encode s) = FilePath.putText (s ++ [0]) :=
  FilePath.encodedStreams rfl fun _ mem => WslV1Path.codeExact (ne_of_mem_of_not_mem mem noNul)

theorem rootedStreams {s : Wstr} (noNul : 0 ∉ s) {q : WslLegacyPath}
    (fed : q.rel = relAfter (wstr "rootfs/" ++ s ++ [0])) (notBare : s ∉ bare) :
    FilePath.Streams (.wslLegacy q) (wstr "rootfs/" ++ s ++ [0]) := by
  have wordClear := rootedClear noNul
  intro out
  simp only [FilePath.convert,FilePath.legacyConvert]
  by_cases hits : Hits patterns2 (wstr "rootfs/" ++ s)
  · have moved : q.rel = WslV1Path.code.encode s := by
      rw [fed,relAfter,if_pos (hitsEnded.mpr hits),encodedEnd,PrefixCode.encodeAppend]
      exact List.drop_left' (by decide)
    have shown := notShadowedMoved noNul hits
    have back := (relocatedEncoding noNul).mpr hits
    simp only [moved,shown,back,Bool.false_eq_true,if_false,if_true,readsBack noNul,
      FilePath.putTextAppend,Program.bindRun,Program.modifyRun]
    rw [List.append_assoc]
  · have kept : q.rel = WslV1Path.code.encode (wstr "rootfs/" ++ s) := by
      have off : ¬ Hits patterns2 (wstr "rootfs/" ++ s ++ [0]) := fun h => hits (hitsEnded.mp h)
      rw [fed,relAfter,if_neg off,encodedEnd]
    have shown := notShadowed noNul notBare hits
    have stays : relocated (WslV1Path.code.encode (wstr "rootfs/" ++ s)) = false := by
      rw [Bool.eq_false_iff,ne_eq,relocatedEncoding wordClear]
      exact notRelocatedRootfs s
    simp only [kept,shown,stays,Bool.false_eq_true,if_false,readsBack wordClear,Program.bindRun,
      Program.modifyRun]

end WslLegacyPath
namespace FilePath
open WslLegacyPath (bare)

theorem heldStreams {s : Wstr} (noNul : 0 ∉ s) {format : Format} (base : Wstr)
    (notBare : format = .legacy → s ∉ bare)
    (plain : format = .v2 → ∀ c ∈ s, WslPath.isSpecialInput (c ^^^ 0xf000) = false) :
    ∃ held, (format.fresh base).appendText (wstr "rootfs/" ++ s ++ [0]) = (true,held) ∧
      Streams held (wstr "rootfs/" ++ s ++ [0]) ∧ (format = .linux → held.data = s) := by
  have clear := WslLegacyPath.rootedClear noNul
  cases format with
  | linux =>
    obtain ⟨q,same,data,shown⟩ := LinuxPath.feedRooted noNul
    refine ⟨_,same,?_,fun _ => by simpa [FilePath.data,FilePath.base,FilePath.rel] using data⟩
    have streams := linuxStreams shown
    rwa [data] at streams
  | v1 =>
    refine ⟨_,WslPath.feedV1 _ _,?_,by simp⟩
    refine v1Streams clear ?_
    rw [PrefixCode.encodeAppend]
    exact List.append_nil _
  | v2 =>
    refine ⟨_,WslPath.feedV2 _ _,?_,by simp⟩
    refine v2Streams clear ?_ ?_
    · intro c mem
      have root : ∀ c ∈ wstr "rootfs/", WslPath.isSpecialInput (c ^^^ 0xf000) = false :=
        everyUnit (by decide)
      rcases List.mem_append.mp mem with inRoot | inText
      · exact root c inRoot
      · exact plain rfl c inText
    · rw [PrefixCode.encodeAppend]
      exact List.append_nil _
  | legacy =>
    obtain ⟨q,same,after⟩ := WslLegacyPath.feedRooted base s
    exact ⟨_,same,WslLegacyPath.rootedStreams noNul after.rel (notBare rfl),by simp⟩

end FilePath
namespace NormalName
open WslLegacyPath

/- Any two formats, any base directories, and outputs that have served before. -/
theorem convertLossless (p : NormalName) {F G : Format} {baseF baseG : Wstr}
    {outF outG direct : FilePath} (servedF : FilePath.Served F baseF outF)
    (servedG : FilePath.Served G baseG outG) (servedDirect : FilePath.Served G baseG direct)
    (notBare : F = .legacy ∨ G = .legacy → p.text ∉ bare)
    (plain : F = .v2 ∨ G = .v2 →
      ∀ c ∈ p.text, WslPath.isSpecialInput (c ^^^ 0xf000) = false) :
    ∃ mid last straight,
      (FilePath.linux (LinuxPath.ofName p.text [])).convert outF = (.ok true,mid) ∧
      mid.convert outG = (.ok true,last) ∧
      (FilePath.linux (LinuxPath.ofName p.text [])).convert direct = (.ok true,straight) ∧
      last.data = straight.data ∧ (G = .linux → last.data = p.text) := by
  have source := ofNameStreams p
  obtain ⟨mid,fedF,streams,_⟩ := FilePath.heldStreams (textNoNul p) baseF
    (fun h => notBare (.inl h)) (fun h => plain (.inl h))
  obtain ⟨last,fedG,_,data⟩ := FilePath.heldStreams (textNoNul p) baseG
    (fun h => notBare (.inr h)) (fun h => plain (.inr h))
  refine ⟨mid,last,last,?_,?_,?_,rfl,data⟩
  · rw [source outF,FilePath.servedReset servedF]
    simp only [FilePath.putText,word,fedF]
  · rw [streams outG,FilePath.servedReset servedG]
    simp only [FilePath.putText,fedG]
  · rw [source direct,FilePath.servedReset servedDirect]
    simp only [FilePath.putText,word,fedG]

def rootDevice : NormalName :=
  ⟨[wstr "root",wstr "a:b"],true,by decide,by decide,by decide⟩

/- The legacy output has served a failed conversion before. -/
theorem convertLosslessRoot : ∃ mid last straight,
    (FilePath.linux (LinuxPath.ofName rootDevice.text [])).convert
      ((FilePath.linux (LinuxPath.ofName (wstr "a") (wstr "b"))).convert
        (Format.legacy.fresh (wstr "C:\\l\\"))).2 = (.ok true,mid) ∧
    mid.convert (Format.v2.fresh (wstr "C:\\t\\")) = (.ok true,last) ∧
    (FilePath.linux (LinuxPath.ofName rootDevice.text [])).convert
      (Format.v2.fresh (wstr "C:\\t\\")) = (.ok true,straight) ∧
    last.data = straight.data ∧ (Format.v2 = .linux → last.data = rootDevice.text) :=
  convertLossless rootDevice (.used _ .fresh) .fresh .fresh (fun _ => by decide)
    (fun _ => everyUnit (by decide))

end NormalName
end LxRunOffline
