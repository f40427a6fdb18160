import LxRunOffline.EntryName
import LxRunOffline.DiskName
import LxRunOffline.Walk

/-! The names that the encoder of a format produces, and where an entry of such names lands when
its path is converted. -/
namespace LxRunOffline
open PrefixMatcher (Hits Leaves)

/- The escapes that a reader of the format undoes. -/
def Format.code : Format → PrefixCode WChar WChar
  | .v2 => WslV2Path.code
  | _ => WslV1Path.code

theorem Format.escapes (format : Format) : Escapes format.code := by
  cases format with
  | v2 => exact WslV2Path.escapes
  | _ => exact WslV1Path.escapes

theorem Escapes.joined {k : PrefixCode WChar WChar} (e : Escapes k) (dirs : List Wstr) :
    k.encode (joinDirs slash dirs) = joinDirs backslash (dirs.map k.encode) := by
  induction dirs with
  | nil => rfl
  | cons dir dirs ih => simp [e.separator,ih]

structure LinuxEntry (name : Wstr) : Prop where
  proper : LinuxPath.Proper name
  noNul : 0 ∉ name

/- What the v2 format decodes to itself: no unit looks like an escape. -/
def Format.Plain (format : Format) (text : Wstr) : Prop :=
  format = .v2 → ∀ c ∈ text, WslPath.isSpecialInput (c ^^^ 0xf000) = false

def Format.Produces (format : Format) (name : Wstr) : Prop :=
  ∃ text, LinuxEntry text ∧ name = format.code.encode text

theorem WslV2Path.producedUnits {text : Wstr} (noNul : 0 ∉ text) (noSlash : slash ∉ text) :
    ∀ c ∈ code.encode text, PlainUnit c := by
  intro c mem
  obtain ⟨d,here,inside⟩ := List.mem_flatMap.mp mem
  have nonzero := ne_of_mem_of_not_mem here noNul
  have other := ne_of_mem_of_not_mem here noSlash
  by_cases special : WslPath.isSpecialInput d = true
  · have all : ∀ n < 128, PlainUnit (n.toUInt16 ||| 0xf000) := by decide
    have plain := all d.toNat (WslPath.specialSmall special)
    have unit : c = d ||| 0xf000 := by simpa [code,WslPath.code,special,appendSpecial] using inside
    rw [unit]
    simpa using plain
  · have unit : c = d := by simpa [code,WslPath.code,special,other,nonzero] using inside
    exact unit ▸ ⟨nonzero,other,by simpa using special⟩

theorem Format.producedPlain {format : Format} {name : Wstr} (h : format.Produces name) :
    ∃ text, LinuxEntry text ∧ format.Plain text ∧ name = format.code.encode text := by
  obtain ⟨text,entry,rfl⟩ := h
  by_cases v2 : format = .v2
  · subst v2
    have units := WslV2Path.producedUnits entry.noNul entry.proper.2.2.2
    have relUnits : ∀ c ∈ WslV2Path.code.encode text, WslV2Path.RelUnit c := fun c mem => .inr (units c mem)
    have coded : WslV2Path.code.encode ((WslV2Path.code.encode text).map WslV2Path.linuxUnit) =
        WslV2Path.code.encode text := WslV2Path.coded relUnits
    have noNul := WslV2Path.linuxNoNul relUnits
    have noSlash : slash ∉ (WslV2Path.code.encode text).map WslV2Path.linuxUnit := by
      intro mem
      obtain ⟨c,here,same⟩ := List.mem_map.mp mem
      have facts := (WslV2Path.linuxUnitFacts (relUnits c here)).2.2
      have clear := WslV2Path.escapes.clear entry.noNul entry.proper.2.2.2
      rw [same,WslV2Path.escapes.separator] at facts
      exact clear ((List.cons.inj facts).1 ▸ here)
    have dots (n : Nat) : (WslV2Path.code.encode text).map WslV2Path.linuxUnit =
        List.replicate n 0x2e ↔ text = List.replicate n 0x2e := by
      rw [← WslV2Path.escapes.dots noNul noSlash n,coded,
        WslV2Path.escapes.dots entry.noNul entry.proper.2.2.2 n]
    refine ⟨_,⟨⟨?_,?_,?_,noSlash⟩,noNul⟩,fun _ => WslV2Path.linuxClear relUnits,coded.symm⟩
    · exact fun none' => entry.proper.1 ((dots 0).mp none')
    · exact fun dot => entry.proper.2.1 ((dots 1).mp dot)
    · exact fun dotDot => entry.proper.2.2.1 ((dots 2).mp dotDot)
  · exact ⟨text,entry,fun is => absurd is v2,rfl⟩

theorem Format.producedListable {format : Format} {name : Wstr} (h : format.Produces name) :
    Listable name := by
  obtain ⟨text,entry,rfl⟩ := h
  have e := format.escapes
  obtain ⟨-,dot,dotDot,noSlash⟩ := entry.proper
  refine ⟨e.clear entry.noNul noSlash,?_,?_⟩
  · exact fun same => dot ((e.dots entry.noNul noSlash 1).mp same)
  · exact fun same => dotDot ((e.dots entry.noNul noSlash 2).mp same)

def Tree.Encoded (format : Format) : Tree → Prop
  | nil => True
  | file name _ rest => format.Produces name ∧ name ∉ rest.names ∧ rest.Encoded format
  | dir name _ sub rest =>
    format.Produces name ∧ name ∉ rest.names ∧ sub.Encoded format ∧ rest.Encoded format

theorem Tree.Encoded.proper {format : Format} {t : Tree} (h : t.Encoded format) : t.Proper := by
  induction t with
  | nil => trivial
  | file name info rest ih => exact ⟨Format.producedListable h.1,h.2.1,ih h.2.2⟩
  | dir name info sub rest ih ih' =>
    exact ⟨Format.producedListable h.1,h.2.1,ih h.2.2.1,ih' h.2.2.2⟩

end LxRunOffline
