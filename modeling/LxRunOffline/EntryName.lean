import LxRunOffline.PathRoundTrip

/-! What the name of an archive entry can reach. The components of a written path are the
escaped components of the resolved name, and no escape makes or removes a dot, so the written
path forges a directory exactly when the name itself ends in a bare dot or two of them. -/
namespace LxRunOffline
open PrefixMatcher (Hits Leaves)

/- The escapes of a format neither produce nor swallow what separates and names directories. -/
structure Escapes (k : PrefixCode WChar WChar) : Prop where
  separator : k.code slash = [backslash]
  period : k.code 0x2e = [0x2e]
  other : ∀ c, c ≠ 0 → c ≠ slash →
    k.code c ≠ [] ∧ backslash ∉ k.code c ∧ (0x2e ∈ k.code c → c = 0x2e)

theorem codeOther {special : WChar → Bool} {appendSpecial : WChar → Wstr}
    (written : ∀ c, special c = true →
      appendSpecial c ≠ [] ∧ backslash ∉ appendSpecial c ∧ 0x2e ∉ appendSpecial c)
    (separator : special backslash = true) {c : WChar} (nonzero : c ≠ 0) (other : c ≠ slash) :
    WslPath.code special appendSpecial c ≠ [] ∧
      backslash ∉ WslPath.code special appendSpecial c ∧
      (0x2e ∈ WslPath.code special appendSpecial c → c = 0x2e) := by
  by_cases h : special c = true
  · obtain ⟨nonempty,clear,noDot⟩ := written c h
    simp only [WslPath.code,h,if_true]
    exact ⟨nonempty,clear,fun mem => absurd mem noDot⟩
  · have apart : backslash ≠ c := fun same => h (same ▸ separator)
    have one : WslPath.code special appendSpecial c = [c] := by
      simp [WslPath.code,h,other,nonzero]
    rw [one]
    exact ⟨by simp,by simp [apart],fun mem => (List.mem_singleton.mp mem).symm⟩

theorem WslV1Path.escapes : Escapes code where
  separator := by decide
  period := by decide
  other c nonzero other := by
    refine codeOther (fun c _ => ?_) (by decide) nonzero other
    have digits : ∀ n < 16, backslash ≠ hexDigit n ∧ 0x2e ≠ hexDigit n := by decide
    have mark : backslash ≠ hash ∧ (0x2e : WChar) ≠ hash := by decide
    have bound : c.toNat < 65536 := c.toNat_lt
    have a := digits (c.toNat/4096) (by omega)
    have b := digits (c.toNat/256%16) (by omega)
    have d := digits (c.toNat/16%16) (by omega)
    have e := digits (c.toNat%16) (by omega)
    simp [appendSpecial,a,b,d,e,mark]

theorem WslV2Path.escapes : Escapes code where
  separator := by decide
  period := by decide
  other c nonzero other := by
    refine codeOther (fun c special => ?_) (by decide) nonzero other
    have all : ∀ n < 128, backslash ≠ n.toUInt16 ||| 0xf000 ∧ 0x2e ≠ n.toUInt16 ||| 0xf000 := by
      decide
    have here := all c.toNat (WslPath.specialSmall special)
    simpa [appendSpecial] using here

/- What a written path must be made of behind its base directory: no component is a dot or two
of them, and none is empty but the one behind a separator that ends the path. -/
structure Safe (rel : Wstr) : Prop where
  dots : ∀ comp ∈ rel.splitOn backslash, comp ≠ dot ∧ comp ≠ dotDot
  empty : [] ∉ (rel.splitOn backslash).dropLast
  some' : rel ≠ []

namespace Escapes
variable {k : PrefixCode WChar WChar} (e : Escapes k)
include e

theorem clear {s : Wstr} (noNul : 0 ∉ s) (noSlash : slash ∉ s) : backslash ∉ k.encode s := by
  intro mem
  obtain ⟨c,here,inside⟩ := List.mem_flatMap.mp mem
  have other := e.other c (ne_of_mem_of_not_mem here noNul) (ne_of_mem_of_not_mem here noSlash)
  exact other.2.1 inside

theorem nonempty {s : Wstr} (noNul : 0 ∉ s) (noSlash : slash ∉ s) : k.encode s = [] ↔ s = [] := by
  refine ⟨fun h => ?_,fun h => by rw [h]; rfl⟩
  cases s with
  | nil => rfl
  | cons c s =>
    simp only [List.mem_cons,not_or] at noNul noSlash
    have other := e.other c (Ne.symm noNul.1) (Ne.symm noSlash.1)
    simp [other.1] at h

theorem dots {s : Wstr} (noNul : 0 ∉ s) (noSlash : slash ∉ s) (n : Nat) :
    k.encode s = List.replicate n 0x2e ↔ s = List.replicate n 0x2e := by
  induction s generalizing n with
  | nil => rfl
  | cons c s ih =>
    have whole := e.nonempty noNul noSlash
    simp only [List.mem_cons,not_or] at noNul noSlash
    obtain ⟨some',_,noDot⟩ := e.other c (Ne.symm noNul.1) (Ne.symm noSlash.1)
    cases n with
    | zero => exact whole
    | succ n =>
      by_cases same : c = 0x2e
      · subst same
        simp only [PrefixCode.encodeCons,e.period,List.replicate_succ,List.cons_append,
          List.nil_append,List.cons.injEq,true_and,ih noNul.2 noSlash.2 n]
      · refine ⟨fun h => ?_,fun h => absurd (List.cons.inj h).1 same⟩
        cases hc : k.code c with
        | nil => exact absurd hc some'
        | cons first rest =>
          rw [PrefixCode.encodeCons,hc,List.cons_append,List.replicate_succ] at h
          exact absurd (noDot (by simp [hc,(List.cons.inj h).1])) same

theorem split {dirs : List Wstr} {last : Wstr} (noNul : 0 ∉ joinDirs slash dirs ++ last)
    (clearDirs : ∀ dir ∈ dirs, slash ∉ dir) (clearLast : slash ∉ last) :
    (k.encode (joinDirs slash dirs ++ last)).splitOn backslash =
      dirs.map k.encode ++ [k.encode last] := by
  have inDirs : ∀ dir ∈ dirs, 0 ∉ dir := fun dir here zero =>
    noNul (List.mem_append_left _ (memJoinDirs here zero))
  have inLast : 0 ∉ last := fun h => noNul (List.mem_append_right _ h)
  have whole : k.encode (joinDirs slash dirs) = joinDirs backslash (dirs.map k.encode) := by
    clear noNul clearDirs inDirs
    induction dirs with
    | nil => rfl
    | cons dir dirs ih => simp [e.separator,ih]
  rw [k.encodeAppend,whole]
  refine Parts.splitText ⟨dirs.map k.encode,k.encode last,?_,e.clear inLast clearLast⟩
  intro coded mem
  obtain ⟨dir,here,rfl⟩ := List.mem_map.mp mem
  exact e.clear (inDirs dir here) (clearDirs dir here)

theorem safe {dirs : List Wstr} {last : Wstr} (noNul : 0 ∉ joinDirs slash dirs ++ last)
    (proper : ∀ dir ∈ dirs, LinuxPath.Proper dir) (clearLast : slash ∉ last)
    (some' : joinDirs slash dirs ++ last ≠ []) :
    Safe (k.encode (joinDirs slash dirs ++ last)) ↔ last ≠ dot ∧ last ≠ dotDot := by
  have inDirs : ∀ dir ∈ dirs, 0 ∉ dir := fun dir here zero =>
    noNul (List.mem_append_left _ (memJoinDirs here zero))
  have inLast : 0 ∉ last := fun h => noNul (List.mem_append_right _ h)
  have cut := e.split noNul (fun dir here => (proper dir here).2.2.2) clearLast
  have named : k.encode last ≠ dot ∧ k.encode last ≠ dotDot ↔ last ≠ dot ∧ last ≠ dotDot := by
    have one := e.dots inLast clearLast 1
    have two := e.dots inLast clearLast 2
    exact and_congr (not_congr one) (not_congr two)
  refine ⟨fun h => named.mp (h.dots _ (by rw [cut]; simp)),fun h => ⟨?_,?_,?_⟩⟩
  · rw [cut]
    intro comp mem
    rcases List.mem_append.mp mem with inDir | isLast
    · obtain ⟨dir,here,rfl⟩ := List.mem_map.mp inDir
      obtain ⟨_,noDot,noDots,clear⟩ := proper dir here
      have one := e.dots (inDirs dir here) clear 1
      have two := e.dots (inDirs dir here) clear 2
      exact ⟨fun same => noDot (one.mp same),fun same => noDots (two.mp same)⟩
    · rw [List.mem_singleton.mp isLast]
      exact named.mpr h
  · rw [cut,List.dropLast_concat]
    intro mem
    obtain ⟨dir,here,none⟩ := List.mem_map.mp mem
    obtain ⟨nonempty,_,_,clear⟩ := proper dir here
    exact nonempty ((e.nonempty (inDirs dir here) clear).mp none)
  · intro none
    rw [none,List.splitOn_nil] at cut
    cases dirs with
    | nil =>
      have noLast := (e.nonempty inLast clearLast).mp (by simpa using cut)
      exact some' noLast
    | cons dir dirs => simp at cut

end Escapes

namespace LinuxPath

def lastComponent (s : Wstr) : Wstr := (s.splitOn slash).getLastD []

theorem lastOfParts (p : Parts slash) : lastComponent p.text = p.last := by
  rw [lastComponent,Parts.splitText,List.getLastD_concat]

theorem foldMem {dirs comps : List Wstr} {dir : Wstr} (mem : dir ∈ comps.foldl enter dirs) :
    dir ∈ dirs ∨ dir ∈ comps := by
  induction comps generalizing dirs with
  | nil => exact .inl mem
  | cons comp comps ih =>
    have entered : dir ∈ enter dirs comp → dir ∈ dirs ∨ dir = comp := by
      intro h
      unfold enter at h
      split at h
      · exact .inl h
      · split at h
        · exact .inl (List.dropLast_subset dirs h)
        · simpa using h
    rcases ih mem with old | new
    · rcases entered old with old | rfl
      · exact .inl old
      · simp
    · simp [new]

theorem resolveNoNul {p : Parts slash} (noNul : 0 ∉ p.text) : 0 ∉ resolve p := by
  have separator : (0 : WChar) ≠ slash := by decide
  intro mem
  rcases List.mem_append.mp mem with inDirs | inLast
  · obtain ⟨dir,here,inside⟩ := List.mem_flatMap.mp inDirs
    rcases List.mem_append.mp inside with inDir | isSlash
    · rcases foldMem here with none | old
      · simp at none
      · exact noNul (List.mem_append_left _ (memJoinDirs old inDir))
    · exact separator (List.mem_singleton.mp isSlash)
  · exact noNul (List.mem_append_right _ inLast)

theorem stripRootSuffix {path rootPath rest : Wstr}
    (stripped : stripRoot path rootPath = some rest) : rest <:+ path := by
  unfold stripRoot at stripped
  split at stripped
  · exact Option.some.inj stripped ▸ List.suffix_refl _
  · split at stripped <;> try contradiction
    exact Option.some.inj stripped ▸ List.drop_suffix _ _

theorem ofNameNoNul {name : Wstr} (noNul : 0 ∉ name) (rootPath : Wstr) :
    0 ∉ (ofName name rootPath).data := by
  cases stripped : stripRoot name rootPath with
  | none => simp [ofNameSkips stripped,new]
  | some rest =>
    obtain ⟨p,rfl⟩ := Parts.everyText slash rest
    rw [ofNameResolves p stripped]
    exact resolveNoNul fun mem => noNul ((stripRootSuffix stripped).subset mem)

end LinuxPath

namespace EntryName
open LinuxPath

def Contained (base data : Wstr) : Prop := ∃ rel, data = base ++ rel ∧ Safe rel

theorem containedIff {base rel : Wstr} : Contained base (base ++ rel) ↔ Safe rel :=
  ⟨fun ⟨_,same,h⟩ => (List.append_cancel_left same) ▸ h,fun h => ⟨rel,rfl,h⟩⟩

theorem writtenSafe {format : Format} (wsl : format ≠ .linux) (base : Wstr) {p : Parts slash}
    (noNul : 0 ∉ resolve p) (some' : resolve p ≠ []) :
    ∃ held, (format.fresh base).appendText (wstr "rootfs/" ++ resolve p ++ [0]) = (true,held) ∧
      (Contained base held.data ↔ p.last ≠ dot ∧ p.last ≠ dotDot) := by
  have none : ∀ dir ∈ ([] : List Wstr), Proper dir := by simp
  have dirs := foldProper none p.dirsClear
  have inner (k : PrefixCode WChar WChar) (e : Escapes k) :
      Safe (k.encode (resolve p)) ↔ p.last ≠ dot ∧ p.last ≠ dotDot :=
    e.safe noNul dirs p.lastClear some'
  have regroup : wstr "rootfs/" ++ resolve p =
      joinDirs slash (wstr "rootfs" :: p.dirs.foldl enter []) ++ p.last := by
    have split : wstr "rootfs/" = wstr "rootfs" ++ [slash] := by decide
    simp [split,resolve]
  have wordNoNul : 0 ∉ wstr "rootfs/" ++ resolve p := by
    rw [List.mem_append,not_or]
    exact ⟨by decide,noNul⟩
  have outer (k : PrefixCode WChar WChar) (e : Escapes k) :
      Safe (k.encode (wstr "rootfs/" ++ resolve p)) ↔ p.last ≠ dot ∧ p.last ≠ dotDot := by
    rw [regroup] at wordNoNul ⊢
    refine e.safe wordNoNul (fun dir mem => ?_) p.lastClear (by simp)
    rcases List.mem_cons.mp mem with rfl | mem
    · decide
    · exact dirs dir mem
  have ended (k : PrefixCode WChar WChar) (nul : k.code 0 = []) :
      k.encode (wstr "rootfs/" ++ resolve p ++ [0]) = k.encode (wstr "rootfs/" ++ resolve p) := by
    simp [nul]
  cases format with
  | linux => contradiction
  | v1 =>
    refine ⟨_,WslPath.feedV1 _ _,containedIff.trans ?_⟩
    rw [ended _ (by decide)]
    exact outer _ WslV1Path.escapes
  | v2 =>
    refine ⟨_,WslPath.feedV2 _ _,containedIff.trans ?_⟩
    rw [ended _ (by decide)]
    exact outer _ WslV2Path.escapes
  -- Of what it relocates the legacy format drops the directory `rootfs`.
  | legacy =>
    obtain ⟨q,same,after⟩ := WslLegacyPath.feedRooted base (resolve p)
    refine ⟨_,same,?_⟩
    have data : (FilePath.wslLegacy q).data = base ++ q.rel := by
      rw [← after.base]; rfl
    rw [data,containedIff,after.rel,WslLegacyPath.relAfter,ended _ (by decide)]
    split
    · rw [PrefixCode.encodeAppend,List.drop_left' (by decide)]
      exact inner _ WslV1Path.escapes
    · exact outer _ WslV1Path.escapes

def EndsPlain (path rootPath : Wstr) : Prop :=
  ∀ rest, stripRoot path rootPath = some rest →
    lastComponent rest ≠ dot ∧ lastComponent rest ≠ dotDot

/- Every name a C string can hold, every root, every wsl format and every base directory. -/
theorem containedIffEndsPlain (name : CStr) (rootPath : Wstr) {format : Format}
    (wsl : format ≠ .linux) {base : Wstr} {out : FilePath}
    (served : FilePath.Served format base out) :
    (∀ written, (FilePath.linux (ofName name.units rootPath)).convert out = (.ok true,written) →
      Contained base written.data) ↔ EndsPlain name.units rootPath := by
  cases stripped : stripRoot name.units rootPath with
  | none =>
    refine iff_of_true (fun written h => ?_) (fun rest h => ?_)
    · simp [ofNameSkips stripped,FilePath.convert,FilePath.linuxConvert] at h
    · rw [stripped] at h
      contradiction
  | some rest =>
    obtain ⟨p,rfl⟩ := Parts.everyText slash rest
    have noNul : 0 ∉ resolve p :=
      resolveNoNul fun h => name.noNul ((stripRootSuffix stripped).subset h)
    have plain : EndsPlain name.units rootPath ↔ p.last ≠ dot ∧ p.last ≠ dotDot := by
      simp [EndsPlain,stripped,lastOfParts]
    rw [plain,ofNameResolves p stripped]
    by_cases some' : resolve p = []
    · have noLast : p.last = [] := (List.append_eq_nil_iff.mp some').2
      refine iff_of_true (fun written h => ?_) (by rw [noLast]; decide)
      simp [named,some',FilePath.convert,FilePath.linuxConvert] at h
    · obtain ⟨held,fed,contained⟩ := writtenSafe wsl base noNul some'
      have streams := namedStreams some' out
      rw [FilePath.servedReset served] at streams
      simp only [FilePath.putText,fed] at streams
      rw [streams,← contained]
      exact ⟨fun h => h held rfl,fun h written same => (Prod.mk.inj same).2 ▸ h⟩

theorem containedFile :
    (∀ written, (FilePath.linux (ofName (wstr "fs/a/../b") (wstr "fs"))).convert
      (Format.v2.fresh (wstr "C:\\t\\")) = (.ok true,written) →
        Contained (wstr "C:\\t\\") written.data) ↔ EndsPlain (wstr "fs/a/../b") (wstr "fs") :=
  containedIffEndsPlain ⟨wstr "fs/a/../b",by decide⟩ (wstr "fs") (by decide) .fresh

theorem dotDotEscapes : ¬ ∀ (name : CStr) (rootPath : Wstr) (format : Format), format ≠ .linux →
    ∀ (base : Wstr) (out : FilePath), FilePath.Served format base out → ∀ written,
      (FilePath.linux (ofName name.units rootPath)).convert out = (.ok true,written) →
        Contained base written.data := by
  intro all
  let base := wstr "C:\\t\\"
  let run := (FilePath.linux (ofName (wstr "..") [])).convert (Format.v1.fresh base)
  have converted : run = (.ok true,run.2) := Prod.ext rfl rfl
  have data : run.2.data = base ++ wstr "rootfs\\.." := by decide
  have contained := all ⟨wstr "..",by decide⟩ [] .v1 (by decide) base _ .fresh run.2 converted
  rw [data,containedIff] at contained
  exact (contained.dots dotDot (by decide)).2 rfl

end EntryName
end LxRunOffline
