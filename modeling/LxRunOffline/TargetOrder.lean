import LxRunOffline.EntryTexts
import LxRunOffline.VisitOrder

/-! Which paths of a v2 target lie in a directory. They are those of the entries in the directory,
unless another directory of the source becomes the same one. -/
namespace LxRunOffline

def v2Path (texts : List Wstr) : Wstr := joinDirs backslash (texts.map WslV2Path.code.encode)

theorem v2PathPrefix {front texts : List Wstr} (h : front <+: texts) : v2Path front <+: v2Path texts := by
  obtain ⟨rest,rfl⟩ := h
  rw [v2Path,v2Path,List.map_append,joinDirsAppend]
  exact List.prefix_append _ _

theorem v2Clear {format : Format} {texts : List Wstr} (reads : ∀ t ∈ texts, format.Reads t) :
    ∀ d ∈ texts.map WslV2Path.code.encode, backslash ∉ d := by
  intro d mem
  obtain ⟨t,here,rfl⟩ := List.mem_map.mp mem
  have entry := (reads t here).entry
  exact WslV2Path.escapes.clear entry.noNul entry.proper.2.2.2

namespace WslReader
variable {r : WslReader} {base : Wstr} {u v : Visit} {texts : List Wstr} {text p q : Wstr}

namespace Spelled

theorem v2Lands (h : r.Spelled v.dirs v.name texts text) (reader : r.format ≠ .linux)
    (modern : r.format ≠ .legacy) : r.lands .v2 base v =
      some (base ++ (v2Path texts ++ WslV2Path.code.encode text ++ if v.dir then [backslash] else [])) := by
  have streams : r.format.streams (entryText texts text v.dir) = some (entryText texts text v.dir) := by
    cases own : r.format with
    | linux => rfl
    | v1 => rfl
    | v2 => rfl
    | legacy => contradiction
  rw [h.lands reader,Format.target,streams,v2Path,← WslV2Path.escapes.entry]
  rfl

theorem v2Dir (h : r.Spelled v.dirs v.name texts text) (reader : r.format ≠ .linux)
    (modern : r.format ≠ .legacy) (dir : v.dir = true) :
    r.lands .v2 base v = some (base ++ v2Path (texts ++ [text])) := by
  rw [h.v2Lands reader modern,if_pos dir,v2Path,v2Path,List.map_append]
  simp

end Spelled

variable (reader : r.format ≠ .linux) (modern : r.format ≠ .legacy)
include reader modern

theorem placedLands (reads : ∀ t ∈ texts, r.format.Reads t) (place : v.place = texts.map r.format.code.encode)
    (dir : v.dir = true) : r.lands .v2 base v = some (base ++ v2Path texts) := by
  obtain ⟨front,last,rfl,dirs,own⟩ := List.map_eq_append_iff.mp place.symm
  obtain ⟨text,rfl,name⟩ := List.map_eq_singleton_iff.mp own
  have spelled : r.Spelled v.dirs v.name front text :=
    ⟨dirs.symm,fun t mem => reads t (List.mem_append_left _ mem),name.symm,reads text (by simp)⟩
  exact spelled.v2Dir reader modern dir

variable (encoded : r.tree.Encoded r.format) (visited : u ∈ r.visits)
include encoded visited

omit reader modern in
theorem spelledVisit : ∃ texts text, r.Spelled u.dirs u.name texts text := by
  obtain ⟨dirs,name⟩ := (walkedEncoded encoded).visited (by simp) u visited
  exact spelledNames dirs name

theorem landsInside {name : Wstr} (dir : v.dir = true) (inside : v.place ++ [name] <+: u.place)
    (landed : r.lands .v2 base v = some p) (landed' : r.lands .v2 base u = some q) : p <+: q := by
  obtain ⟨texts,text,spelled⟩ := spelledVisit encoded visited
  have above : v.place <+: texts.map r.format.code.encode := by
    rw [← spelled.dirs]
    rcases List.prefix_concat_iff.mp inside with same | deeper
    · exact (List.append_inj' same rfl).1 ▸ List.prefix_rfl
    · exact (List.prefix_append _ _).trans deeper
  obtain ⟨front,starts,place⟩ := List.prefix_map_iff.mp above
  have reads : ∀ t ∈ front, r.format.Reads t := fun t mem => spelled.reads t (starts.subset mem)
  rw [placedLands reader modern reads place dir] at landed
  rw [spelled.v2Lands reader modern] at landed'
  cases landed
  cases landed'
  refine (List.prefix_append_right_inj _).mpr ?_
  rw [List.append_assoc]
  exact (v2PathPrefix starts).trans (List.prefix_append _ _)

theorem landsAbove {names : List Wstr} (some' : names ≠ []) (reads : ∀ t ∈ names, r.format.Reads t)
    (landed : r.lands .v2 base u = some q) (below : base ++ v2Path names <+: q) :
    ∃ a ∈ r.visits, a.dir = true ∧ a.place <+: u.place ∧ r.lands .v2 base a = some (base ++ v2Path names) := by
  obtain ⟨texts,text,spelled⟩ := spelledVisit encoded visited
  have all : ∀ t ∈ texts ++ [text], r.format.Reads t := fun t mem =>
    (List.mem_append.mp mem).elim (spelled.reads t) fun own => List.mem_singleton.mp own ▸ spelled.own
  have place : u.place = (texts ++ [text]).map r.format.code.encode := by
    rw [Visit.place,spelled.dirs,spelled.name,List.map_append]
    rfl
  -- A path ends in a separator behind a directory only, so of a file its directories are compared.
  have starts : names.map WslV2Path.code.encode <+: (texts ++ [text]).map WslV2Path.code.encode ∧
      (u.dir = false → names.map WslV2Path.code.encode <+: texts.map WslV2Path.code.encode) := by
    cases dir : u.dir with
    | true =>
      rw [spelled.v2Dir reader modern dir] at landed
      cases landed
      have within := (List.prefix_append_right_inj _).mp below
      let whole : Parts backslash := ⟨(texts ++ [text]).map WslV2Path.code.encode,[],v2Clear all,by simp⟩
      refine ⟨(whole.startsText (v2Clear reads)).mp ?_,fun no => by cases no⟩
      rwa [Parts.text,List.append_nil]
    | false =>
      rw [spelled.v2Lands reader modern,dir] at landed
      cases landed
      have within := (List.prefix_append_right_inj _).mp below
      have last : backslash ∉ WslV2Path.code.encode text :=
        @v2Clear r.format [text] (fun t mem => List.mem_singleton.mp mem ▸ spelled.own) _ (by simp)
      let whole : Parts backslash := ⟨texts.map WslV2Path.code.encode,_,v2Clear spelled.reads,last⟩
      have inside : names.map WslV2Path.code.encode <+: texts.map WslV2Path.code.encode := by
        refine (whole.startsText (v2Clear reads)).mp ?_
        rw [if_neg Bool.false_ne_true,List.append_nil] at within
        exact within
      exact ⟨inside.trans (by simp),fun _ => inside⟩
  obtain ⟨front,begins,same⟩ := List.prefix_map_iff.mp starts.1
  have became : v2Path front = v2Path names := by rw [v2Path,v2Path,same]
  have reads' : ∀ t ∈ front, r.format.Reads t := fun t mem => all t (begins.subset mem)
  have above : front.map r.format.code.encode <+: u.place := place ▸ begins.map _
  have length : front.length = names.length := by simpa using (congrArg List.length same).symm
  -- Either the entry itself has become the directory, or one that it lies in.
  by_cases own : front = texts ++ [text]
  · have dir : u.dir = true := by
      by_contra no
      have short := (starts.2 (Bool.eq_false_iff.mpr no)).length_le
      rw [own,List.length_append,List.length_singleton] at length
      simp only [List.length_map] at short
      omega
    refine ⟨u,visited,dir,List.prefix_rfl,?_⟩
    rw [placedLands reader modern all place dir,← own,became]
  · have strict : front.map r.format.code.encode ≠ u.place := by
      intro whole
      have long := congrArg List.length whole
      rw [place,List.length_map,List.length_map] at long
      exact own (begins.eq_of_length long)
    obtain ⟨a,visited',dir,at'⟩ := Tree.visitAbove visited (by simpa [length] using List.length_pos_iff.mpr some')
      above strict
    exact ⟨a,visited',dir,at' ▸ above,by rw [placedLands reader modern reads' at' dir,became]⟩

end WslReader
end LxRunOffline
