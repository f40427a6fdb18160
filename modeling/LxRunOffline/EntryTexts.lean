import LxRunOffline.VisitTargets

/-! An entry by the texts that its names stand for, and what the path of one is converted to. -/
namespace LxRunOffline

def entryText (dirs : List Wstr) (name : Wstr) (dir : Bool) : Wstr :=
  joinDirs slash dirs ++ name ++ if dir then [slash] else []

theorem entryTextDir (dirs : List Wstr) (name : Wstr) :
    entryText dirs name true = joinDirs slash (dirs ++ [name]) := by simp [entryText]

theorem joinedEnds {dirs : List Wstr} (some' : dirs ≠ []) :
    (joinDirs slash dirs).getLast? = some slash := by
  rcases List.eq_nil_or_concat dirs with rfl | ⟨front,last,rfl⟩
  · contradiction
  · rw [List.concat_eq_append,joinDirsSnoc]
    simp

theorem Escapes.entry {k : PrefixCode WChar WChar} (e : Escapes k) (dirs : List Wstr) (name : Wstr)
    (dir : Bool) : k.encode (entryText dirs name dir) =
      joinDirs backslash (dirs.map k.encode) ++ k.encode name ++ if dir then [backslash] else [] := by
  rw [entryText,← e.joined,PrefixCode.encodeAppend,PrefixCode.encodeAppend]
  cases dir with
  | true => simp [e.separator]
  | false => simp

def Entries (names : List Wstr) : Prop := ∀ name ∈ names, LinuxEntry name

theorem Entries.noNul {names : List Wstr} (h : Entries names) : 0 ∉ joinDirs slash names := by
  intro mem
  obtain ⟨name,here,inside⟩ := List.mem_flatMap.mp mem
  rcases List.mem_append.mp inside with own | separator
  · exact (h name here).noNul own
  · exact absurd (List.mem_singleton.mp separator) (by decide)

theorem entryReads {format : Format} {texts : List Wstr} {text : Wstr} (dir : Bool)
    (all : ∀ t ∈ texts, format.Reads t) (own : format.Reads text) :
    0 ∉ entryText texts text dir ∧ format.Plain (entryText texts text dir) := by
  have separator : (0 : WChar) ≠ slash := by decide
  obtain ⟨noNul,plain⟩ := Format.joinedReads all
  cases dir with
  | false =>
    refine ⟨by simp [entryText,noNul,own.entry.noNul],?_⟩
    exact (plain.append own.plain).append fun _ _ mem => absurd mem List.not_mem_nil
  | true =>
    refine ⟨by simp [entryText,noNul,own.entry.noNul,separator],?_⟩
    exact (plain.append own.plain).append Format.separatorPlain

namespace WslReader
variable (r : WslReader)

structure Spelled (dirs : List Wstr) (name : Wstr) (texts : List Wstr) (text : Wstr) : Prop where
  dirs : dirs = texts.map r.format.code.encode
  reads : ∀ t ∈ texts, r.format.Reads t
  name : name = r.format.code.encode text
  own : r.format.Reads text

variable {r} {w : Format} {base : Wstr} {dirs : List Wstr} {name text : Wstr} {texts : List Wstr} {s u : CopyState}

theorem spelledNames (produced : ∀ d ∈ dirs, r.format.Produces d) (own : r.format.Produces name) :
    ∃ texts text, r.Spelled dirs name texts text := by
  obtain ⟨texts,same,reads⟩ := Format.producedAll produced
  obtain ⟨text,entry,plain,coded⟩ := Format.producedPlain own
  exact ⟨texts,text,⟨same,reads,coded,entry,plain⟩⟩

namespace Spelled

theorem path (h : r.Spelled dirs name texts text) (dir : Bool) :
    r.pathAt (r.base ++ joinDirs backslash dirs ++ name ++ if dir then [backslash] else []) =
      r.format.named r.base (entryText texts text dir) := by
  rw [Format.named,r.format.escapes.entry,h.dirs,h.name,pathAt,List.append_assoc,List.append_assoc,
    List.drop_left,List.append_assoc]

theorem converts (h : r.Spelled dirs name texts text) (reader : r.format ≠ .linux)
    (fresh : s.path.reset = w.fresh base) (dir : Bool)
    (run : convertPath (r.pathAt (r.base ++ joinDirs backslash dirs ++ name ++
      if dir then [backslash] else [])) s = (.ok true,u)) :
    ∃ rel, r.format.target w (entryText texts text dir) = some rel ∧ u.path.data = (w.fresh base).base ++ rel := by
  obtain ⟨noNul,plain⟩ := entryReads dir h.reads h.own
  have converted := FilePath.namedConvert reader noNul plain r.base base fresh
  rw [h.path dir] at run
  have first : ((r.format.named r.base (entryText texts text dir)).convert s.path).1 = .ok true :=
    (Prod.mk.inj run).1
  cases target : r.format.target w (entryText texts text dir) with
  | none =>
    rw [target] at converted
    cases converted.symm.trans first
  | some rel =>
    rw [target] at converted
    obtain ⟨held,out,data⟩ := converted
    have same : u.path = held := by
      rw [← (Prod.mk.inj run).2]
      exact congrArg Prod.snd out
    exact ⟨rel,rfl,by rw [same,data]⟩

theorem lands {v : Visit} (h : r.Spelled v.dirs v.name texts text) (reader : r.format ≠ .linux) :
    r.lands w base v = (r.format.target w (entryText texts text v.dir)).map ((w.fresh base).base ++ ·) := by
  obtain ⟨noNul,plain⟩ := entryReads v.dir h.reads h.own
  have converted := FilePath.namedConvert reader noNul plain r.base base
    (w := w) (FilePath.servedReset .fresh)
  have path : r.pathAt (r.base ++ v.path) = r.format.named r.base (entryText texts text v.dir) := by
    rw [← h.path v.dir,Visit.path]
    simp only [List.append_assoc]
  rw [WslReader.lands,path]
  cases target : r.format.target w (entryText texts text v.dir) with
  | none =>
    rw [target] at converted
    cases run : (r.format.named r.base (entryText texts text v.dir)).convert (w.fresh base) with
    | mk outcome held =>
      rw [run] at converted
      cases converted
      rfl
  | some rel =>
    rw [target] at converted
    obtain ⟨held,run,data⟩ := converted
    rw [run,Option.map_some,← data]

end Spelled
end WslReader
end LxRunOffline
