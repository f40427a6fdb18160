import LxRunOffline.PathRoundTrip

/-! The legacy layout keeps `home`, `root` and `mnt` beside `rootfs`. What is written into it can
be read out of it again, with three exceptions, and no two names ever come to lie on one. -/
namespace LxRunOffline

namespace FilePath

inductive Presents : FilePath → Wstr → Prop
  | linux (p : LinuxPath) (shown : p.skip = false) : Presents (.linux p) p.data
  | v1 (base text : Wstr) :
    Presents (.wslV1 ⟨base,WslV1Path.code.encode (wstr "rootfs/" ++ text)⟩) text
  | v2 (base text : Wstr) (clear : ∀ c ∈ text, WslPath.isSpecialInput (c ^^^ 0xf000) = false) :
    Presents (.wslV2 ⟨base,WslV2Path.code.encode (wstr "rootfs/" ++ text)⟩) text

theorem Presents.streams {src : FilePath} {text : Wstr} (h : Presents src text)
    (noNul : 0 ∉ text) : Streams src (wstr "rootfs/" ++ text ++ [0]) := by
  have clear := WslLegacyPath.rootedClear noNul
  cases h with
  | linux p shown => exact linuxStreams shown
  | v1 base => exact v1Streams clear rfl
  | v2 base _ plain =>
    have root : ∀ c ∈ wstr "rootfs/", WslPath.isSpecialInput (c ^^^ 0xf000) = false :=
      everyUnit (by decide)
    refine v2Streams clear (fun c mem => ?_) rfl
    exact (List.mem_append.mp mem).elim (root c) (plain c)

theorem takesRooted (format : Format) (base : Wstr) {text : Wstr} (noNul : 0 ∉ text) :
    ∃ held, (format.fresh base).appendText (wstr "rootfs/" ++ text ++ [0]) = (true,held) := by
  cases format with
  | linux =>
    obtain ⟨q,fed,_⟩ := LinuxPath.feedRooted noNul
    exact ⟨_,fed⟩
  | v1 => exact ⟨_,WslPath.feedV1 _ _⟩
  | v2 => exact ⟨_,WslPath.feedV2 _ _⟩
  | legacy =>
    obtain ⟨q,fed,_⟩ := WslLegacyPath.feedRooted base text
    exact ⟨_,fed⟩

end FilePath
namespace WslLegacyPath
open FilePath (Served Presents)
open PrefixMatcher (Hits)

theorem bareShadowed {text : Wstr} (mem : text ∈ bare) :
    shadowed (relAfter (wstr "rootfs/" ++ text ++ [0])) = true := by
  have all : ∀ text ∈ bare, shadowed (relAfter (wstr "rootfs/" ++ text ++ [0])) = true := by decide
  exact all text mem

/- What goes into a legacy path comes out of it in any other format, but for the bare names. -/
theorem acceptsAlike {src : FilePath} {text : Wstr} (presents : Presents src text)
    (noNul : 0 ∉ text) {base base' : Wstr} {out back : FilePath} {format : Format}
    (served : Served .legacy base out) (servedBack : Served format base' back) :
    (∀ held, src.convert out = (.ok true,held) → (held.convert back).1 = .ok true) ↔
      text ∉ bare := by
  have streams := presents.streams noNul out
  rw [FilePath.servedReset served] at streams
  constructor
  · intro all mem
    obtain ⟨q,fed,after⟩ := feedRooted base text
    have kept : src.convert out = (.ok true,.wslLegacy q) := by
      rw [streams]
      exact congrArg (fun r => (Except.ok r.1,r.2)) fed
    have shown : shadowed q.rel = true := after.rel ▸ bareShadowed mem
    have refused : (FilePath.wslLegacy q).convert back = (.ok false,back) := by
      simp only [FilePath.convert,FilePath.legacyConvert,shown,if_true]
      rfl
    have taken := all _ kept
    rw [refused] at taken
    cases taken
  · intro notBare held kept
    obtain ⟨same,fed,reads,_⟩ :=
      @FilePath.heldStreams _ noNul .legacy base (fun _ => notBare) fun same => by cases same
    rw [streams] at kept
    have one : held = same := by
      have both := (Prod.mk.inj kept).2
      rw [fed] at both
      exact both.symm
    obtain ⟨last,taken⟩ := FilePath.takesRooted format base' noNul
    rw [one,reads back,FilePath.servedReset servedBack]
    exact congrArg (fun r => Except.ok r.1) taken

theorem acceptsAlikeHomes :
    (∀ held, (FilePath.linux (LinuxPath.ofName (wstr "homes") [])).convert
        (Format.legacy.fresh (wstr "C:\\l\\")) = (.ok true,held) →
      (held.convert (Format.v2.fresh (wstr "C:\\t\\"))).1 = .ok true) ↔ wstr "homes" ∉ bare :=
  acceptsAlike (.linux (LinuxPath.ofName (wstr "homes") []) rfl) (by decide) .fresh .fresh

/- A file or a link `root` in the root directory is written and never read again. -/
theorem bareRootVanishes : ¬ ∀ (src : FilePath) (text base base' : Wstr) (format : Format),
    Presents src text → 0 ∉ text → ∀ held, src.convert (Format.legacy.fresh base) = (.ok true,held) →
      (held.convert (format.fresh base')).1 = .ok true := by
  intro always
  have shows : Presents (.linux (LinuxPath.ofName (wstr "root") [])) (wstr "root") :=
    .linux (LinuxPath.ofName (wstr "root") []) rfl
  have taken := always _ _ [] [] .v1 shows (by decide) _ rfl
  cases taken

theorem landing {s : Wstr} (noNul : 0 ∉ s) :
    (∃ u, s = wstr "rootfs/" ++ u ∧ Hits patterns1 u ∧
      relAfter (s ++ [0]) = WslV1Path.code.encode u) ∨
    relAfter (s ++ [0]) = WslV1Path.code.encode s := by
  by_cases hits : Hits patterns2 s
  · obtain ⟨q,mem,starts⟩ := hits
    have split : ∀ q ∈ patterns2, wstr "rootfs/" ++ q.drop 7 = q ∧ q.drop 7 ∈ patterns1 := by decide
    obtain ⟨whole,inner⟩ := split q mem
    have under : wstr "rootfs/" ++ q.drop 7 <+: s := whole ▸ starts
    obtain ⟨u,rfl⟩ := (List.prefix_append _ _).trans under
    refine .inl ⟨u,rfl,⟨_,inner,(List.prefix_append_right_inj _).mp under⟩,?_⟩
    · rw [relAfter,if_pos (hitsEnded.mpr ⟨q,mem,starts⟩),encodedEnd,PrefixCode.encodeAppend]
      exact List.drop_left' (by decide)
  · right
    rw [relAfter,if_neg fun h => hits (hitsEnded.mp h),encodedEnd]

theorem takenIn {base baseS : Wstr} {s : Wstr} (noNul : 0 ∉ s) {out held : FilePath}
    (served : Served .legacy base out)
    (taken : (FilePath.wslV1 ⟨baseS,WslV1Path.code.encode s⟩).convert out = (.ok true,held)) :
    ¬ Hits patterns1 (s ++ [0]) ∧ held.data = base ++ relAfter (s ++ [0]) := by
  rw [FilePath.v1Streams noNul rfl,FilePath.servedReset served] at taken
  have fed := feedAfter (newAfter base) (s ++ [0])
  rw [List.nil_append] at fed
  obtain ⟨ok,last⟩ := Prod.mk.inj taken
  split at fed
  · have refused : ((FilePath.wslLegacy (new base)).appendText (s ++ [0])).1 = true :=
      Except.ok.inj ok
    rw [fed] at refused
    contradiction
  · rename_i free
    obtain ⟨q,same,after⟩ := fed
    have one : held = .wslLegacy q := last.symm.trans (congrArg Prod.snd same)
    refine ⟨free,?_⟩
    rw [one,← after.rel,← after.base]
    rfl

/- Two names of a v1 installation, wherever they lie below its base, stay apart. -/
theorem staysApart {base baseS s t : Wstr} (hs : 0 ∉ s) (ht : 0 ∉ t) {out out' held held' : FilePath}
    (served : Served .legacy base out) (served' : Served .legacy base out')
    (first : (FilePath.wslV1 ⟨baseS,WslV1Path.code.encode s⟩).convert out = (.ok true,held))
    (second : (FilePath.wslV1 ⟨baseS,WslV1Path.code.encode t⟩).convert out' = (.ok true,held'))
    (apart : WslV1Path.code.encode s ≠ WslV1Path.code.encode t) : held.data ≠ held'.data := by
  obtain ⟨freeS,dataS⟩ := takenIn hs served first
  obtain ⟨freeT,dataT⟩ := takenIn ht served' second
  intro same
  rw [dataS,dataT,List.append_cancel_left_eq] at same
  have clear {u v : Wstr} (h : 0 ∉ v) (is : v = wstr "rootfs/" ++ u) : 0 ∉ u :=
    fun mem => h (is ▸ List.mem_append_right _ mem)
  rcases landing hs with ⟨u,isS,hitsU,landS⟩ | landS <;>
    rcases landing ht with ⟨v,isT,hitsV,landT⟩ | landT
  · rw [landS,landT,encodedSame (clear hs isS) (clear ht isT)] at same
    exact apart (by rw [isS,isT,same])
  · rw [landS,landT,encodedSame (clear hs isS) ht] at same
    exact freeT (same ▸ hitsU.extend [0])
  · rw [landS,landT,encodedSame hs (clear ht isT)] at same
    exact freeS (same ▸ hitsV.extend [0])
  · rw [landS,landT] at same
    exact apart same

theorem takes (base baseS : Wstr) {s : Wstr} (noNul : 0 ∉ s) (free : ¬ Hits patterns1 (s ++ [0])) :
    ∃ held, (FilePath.wslV1 ⟨baseS,WslV1Path.code.encode s⟩).convert (Format.legacy.fresh base) =
      (.ok true,held) := by
  have fed := feedAfter (newAfter base) (s ++ [0])
  rw [List.nil_append,if_neg free] at fed
  obtain ⟨q,same,_⟩ := fed
  refine ⟨.wslLegacy q,?_⟩
  rw [FilePath.v1Streams noNul rfl,FilePath.servedReset .fresh]
  exact congrArg (fun r => (Except.ok r.1,r.2)) same

theorem staysApartHome : ∃ moved kept,
    (FilePath.wslV1 ⟨[],WslV1Path.code.encode (wstr "rootfs/home/a")⟩).convert
      (Format.legacy.fresh []) = (.ok true,moved) ∧
    (FilePath.wslV1 ⟨[],WslV1Path.code.encode (wstr "homes/a")⟩).convert
      (Format.legacy.fresh []) = (.ok true,kept) ∧ moved.data ≠ kept.data := by
  have clear : 0 ∉ wstr "rootfs/home/a" ∧ 0 ∉ wstr "homes/a" := by decide
  obtain ⟨moved,first⟩ := takes [] [] clear.1 (by decide)
  obtain ⟨kept,second⟩ := takes [] [] clear.2 (by decide)
  exact ⟨moved,kept,first,second,staysApart clear.1 clear.2 .fresh .fresh first second (by decide)⟩

end WslLegacyPath
end LxRunOffline
