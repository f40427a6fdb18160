import LxRunOffline.PathRoundTrip

/-! The names that lie on the disk. The v2 format reads more names than it writes, since a unit
that looks like an escape need not come from one; it still writes back what it has read. -/
namespace LxRunOffline

def PlainUnit (c : WChar) : Prop := c ≠ 0 ∧ c ≠ slash ∧ WslPath.isSpecialInput c = false

instance (c : WChar) : Decidable (PlainUnit c) := by unfold PlainUnit; infer_instance

namespace WslV2Path

def linuxUnit (c : WChar) : WChar :=
  if c = backslash then slash
  else if WslPath.isSpecialInput (c ^^^ 0xf000) then c ^^^ 0xf000
  else c

def RelUnit (c : WChar) : Prop := c = backslash ∨ PlainUnit c

theorem linuxUnitFacts {c : WChar} (h : RelUnit c) : linuxUnit c ≠ 0 ∧
    WslPath.isSpecialInput (linuxUnit c ^^^ 0xf000) = false ∧ code.code (linuxUnit c) = [c] := by
  rcases h with rfl | ⟨nonzero,notSlash,plain⟩
  · decide
  · have notBackslash : c ≠ backslash := fun same => by
      rw [same] at plain
      exact absurd plain (by decide)
    by_cases escaped : WslPath.isSpecialInput (c ^^^ 0xf000) = true
    · have unit : linuxUnit c = c ^^^ 0xf000 := by simp [linuxUnit,notBackslash,escaped]
      have some' : c ^^^ 0xf000 ≠ 0 := fun zero => by
        rw [zero] at escaped
        exact absurd escaped (by decide)
      rw [unit,xorTwice]
      refine ⟨some',plain,?_⟩
      simp only [code,WslPath.code,escaped,if_pos,appendSpecial,orIsXor (WslPath.specialSmall escaped),xorTwice]
    · have unit : linuxUnit c = c := by simp [linuxUnit,notBackslash,escaped]
      rw [unit]
      exact ⟨nonzero,by simpa using escaped,by simp [code,WslPath.code,plain,notSlash,nonzero]⟩

theorem coded {rel : Wstr} (units : ∀ c ∈ rel, RelUnit c) :
    code.encode (rel.map linuxUnit) = rel := by
  induction rel with
  | nil => rfl
  | cons c rel ih =>
    rw [List.map_cons,PrefixCode.encodeCons,(linuxUnitFacts (units c (by simp))).2.2,
      ih fun d mem => units d (by simp [mem])]
    rfl

theorem linuxNoNul {rel : Wstr} (units : ∀ c ∈ rel, RelUnit c) : 0 ∉ rel.map linuxUnit := by
  intro mem
  obtain ⟨c,here,zero⟩ := List.mem_map.mp mem
  exact (linuxUnitFacts (units c here)).1 zero

theorem linuxClear {rel : Wstr} (units : ∀ c ∈ rel, RelUnit c) :
    ∀ c ∈ rel.map linuxUnit, WslPath.isSpecialInput (c ^^^ 0xf000) = false := by
  intro c mem
  obtain ⟨d,here,rfl⟩ := List.mem_map.mp mem
  exact (linuxUnitFacts (units d here)).2.1

theorem relStreams {base rel : Wstr} (units : ∀ c ∈ rel, RelUnit c) :
    FilePath.Streams (.wslV2 ⟨base,rel⟩) (rel.map linuxUnit ++ [0]) :=
  FilePath.v2Streams (linuxNoNul units) (linuxClear units) (coded units).symm

theorem takesBack {base rel : Wstr} (units : ∀ c ∈ rel, RelUnit c) {src out : FilePath}
    (streams : FilePath.Streams src (rel.map linuxUnit ++ [0]))
    (fresh : out.reset = .wslV2 ⟨base,[]⟩) :
    src.convert out = (.ok true,.wslV2 ⟨base,rel⟩) := by
  have ended : code.encode (rel.map linuxUnit ++ [0]) = rel := by
    rw [PrefixCode.encodeAppend,coded units]
    exact List.append_nil _
  rw [streams,fresh,FilePath.putText,WslPath.feedV2,ended]
  rfl

theorem convertsSame {S T rel : Wstr} (units : ∀ c ∈ rel, RelUnit c) {out : FilePath}
    (fresh : out.reset = .wslV2 ⟨T,[]⟩) :
    (FilePath.wslV2 ⟨S,rel⟩).convert out = (.ok true,.wslV2 ⟨T,rel⟩) :=
  takesBack units (relStreams units) fresh

inductive Reaches (rel : Wstr) : Format → Prop
  | v2 : Reaches rel .v2
  | v1 : Reaches rel .v1
  | linux (rooted : wstr "rootfs\\" <+: rel) : Reaches rel .linux

theorem heldAlike {rel : Wstr} (units : ∀ c ∈ rel, RelUnit c) {format : Format}
    (reaches : Reaches rel format) (base : Wstr) :
    ∃ held, (format.fresh base).appendText (rel.map linuxUnit ++ [0]) = (true,held) ∧
      FilePath.Streams held (rel.map linuxUnit ++ [0]) := by
  cases reaches with
  | v2 =>
    refine ⟨_,WslPath.feedV2 _ _,FilePath.v2Streams (linuxNoNul units) (linuxClear units) ?_⟩
    exact (WslV2Path.code.encodeAppend _ _).trans (List.append_nil _)
  | v1 =>
    refine ⟨_,WslPath.feedV1 _ _,FilePath.v1Streams (linuxNoNul units) ?_⟩
    exact WslLegacyPath.encodedEnd _
  | linux rooted =>
    obtain ⟨rest,rfl⟩ := rooted
    have root : (wstr "rootfs\\").map linuxUnit = wstr "rootfs/" := by decide
    have inner : 0 ∉ rest.map linuxUnit := linuxNoNul fun c mem => units c (by simp [mem])
    rw [List.map_append,root]
    obtain ⟨held,fed,streams,_⟩ := @FilePath.heldStreams _ inner .linux base nofun nofun
    exact ⟨held,fed,streams⟩

/- Whatever the units of a name stand for, its way through another format leads back to it. -/
theorem keepsOnDisk {base rel : Wstr} (units : ∀ c ∈ rel, RelUnit c) {format : Format}
    (reaches : Reaches rel format) {base' : Wstr} {out back : FilePath}
    (served : FilePath.Served format base' out) (servedBack : FilePath.Served .v2 base back) :
    ∃ mid, (FilePath.wslV2 ⟨base,rel⟩).convert out = (.ok true,mid) ∧
      mid.convert back = (.ok true,.wslV2 ⟨base,rel⟩) := by
  obtain ⟨held,fed,streams⟩ := heldAlike units reaches base'
  refine ⟨held,?_,takesBack units streams (FilePath.servedReset servedBack)⟩
  rw [relStreams units,FilePath.servedReset served]
  exact congrArg (fun r => (Except.ok r.1,r.2)) fed

/- `U+F03A` stands for a colon, and `U+F102` for itself. -/
theorem keepsColon :
    let rel := wstr "rootfs\\a" ++ [0xf03a,0xf102] ++ wstr "\\#003A"
    ∃ mid, (FilePath.wslV2 ⟨wstr "C:\\s\\",rel⟩).convert (Format.linux.fresh []) = (.ok true,mid) ∧
      mid.convert (Format.v2.fresh (wstr "C:\\s\\")) = (.ok true,.wslV2 ⟨wstr "C:\\s\\",rel⟩) := by
  have all : ∀ c ∈ wstr "rootfs\\a" ++ [0xf03a,0xf102] ++ wstr "\\#003A",RelUnit c := by
    unfold RelUnit
    exact everyUnit (by decide)
  exact keepsOnDisk all (.linux (by decide)) .fresh .fresh

end WslV2Path
end LxRunOffline
