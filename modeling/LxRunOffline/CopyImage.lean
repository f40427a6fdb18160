import LxRunOffline.DistinctTargets
import LxRunOffline.Original

/-! The disk that a copy leaves behind, name by name. Every entry of the source that has a place
in the target format lies there once, as a file or a directory like its own, with the contents,
the link target and the owner of the source, and with the same names in common. -/
namespace LxRunOffline
open Grouping (valuesOf)

def Visit.SameFile (u v : Visit) : Prop := ∃ index, u.fileIndex = some index ∧ v.fileIndex = some index

namespace Visit.SameFile
variable {u v x : Visit}

theorem symm (h : u.SameFile v) : v.SameFile u := h.imp fun _ both => ⟨both.2,both.1⟩

theorem trans (h : u.SameFile v) (h' : v.SameFile x) : u.SameFile x := by
  obtain ⟨index,own,other⟩ := h
  obtain ⟨index',other',last⟩ := h'
  obtain rfl : index = index' := Option.some.inj (other.symm.trans other')
  exact ⟨index,own,last⟩

theorem files (h : u.SameFile v) : u.dir = false ∧ v.dir = false := by
  obtain ⟨index,own,other⟩ := h
  exact ⟨(Visit.fileIndexSome own).1,(Visit.fileIndexSome other).1⟩

end Visit.SameFile

theorem cStringClear (bytes : Bytes) : 0 ∉ WslReader.cString bytes := fun mem => by
  simpa using List.mem_takeWhile_imp mem

namespace WslReader
variable (r : WslReader) (env : FsEnv) (w : Format) (base : Wstr)

def typeIn (info : NodeInfo) : UInt32 := ((r.modeOf info).map (· &&& aeIfmt)).getD aeIfreg

def original : Original Visit where
  land := r.lands w base
  same := Visit.SameFile
  dir := Visit.dir
  content v := if v.dir = false ∧ r.typeIn v.info = aeIfreg then some v.info.content else none
  target v := if v.dir = false ∧ r.typeIn v.info = aeIflnk then r.targetOf v.info else none
  owner v := r.format.ownerOf v.info.eas

/- A source whose files are what their names and their attributes say. -/
structure Copyable : Prop where
  reader : r.format ≠ .linux
  encoded : r.tree.Encoded r.format
  unmistaken : r.Unmistaken w
  shaped : ∀ v ∈ r.visits, v.dir = true ↔ ∃ mode, r.modeOf v.info = some mode ∧ mode &&& aeIfmt = aeIfdir
  oneFile : ∀ u ∈ r.visits, ∀ v ∈ r.visits, u.SameFile v → u.info = v.info
  shareable : r.Shareable env w base
  lists : env.Lists

variable {r} {env} {w} {base} {done rest : List Visit} {u v : Visit} {p q target path : Wstr}
  {attr : Option FileAttr} {info : NodeInfo} {s t x : CopyState}

theorem oneVisit (encoded : r.tree.Encoded r.format) (reader : r.format ≠ .linux) (unmistaken : r.Unmistaken w)
    (mem : u ∈ r.visits) (mem' : v ∈ r.visits) (landed : r.lands w base u = some p)
    (landed' : r.lands w base v = some p) : u = v := by
  have place := landsOnce encoded reader unmistaken mem mem' landed landed'
  obtain ⟨before,after,all⟩ := List.append_of_mem mem'
  rw [all] at mem
  rcases List.mem_append.mp mem with early | late
  · exact absurd place (visitedOnce (walkedEncoded encoded).proper all early)
  · rcases List.mem_cons.mp late with same | later
    · exact same
    · obtain ⟨between,end',rfl⟩ := List.append_of_mem later
      have all' : r.visits = (before ++ v :: between) ++ u :: end' := by simp [all]
      exact absurd place.symm (visitedOnce (walkedEncoded encoded).proper all' (by simp))

theorem Copyable.oneVisit (h : r.Copyable env w base) (mem : u ∈ r.visits) (mem' : v ∈ r.visits)
    (landed : r.lands w base u = some p) (landed' : r.lands w base v = some p) : u = v :=
  WslReader.oneVisit h.encoded h.reader h.unmistaken mem mem' landed landed'

theorem Copyable.sound (h : r.Copyable env w base) (part : ∀ v ∈ done, v ∈ r.visits) :
    (r.original w base).Sound done where
  one u mem v mem' p landed landed' := h.oneVisit (part u mem) (part v mem') landed landed'
  symm _ _ same := same.symm
  trans _ _ _ same same' := same.trans same'
  files _ _ _ _ same := same.files.1
  alike u mem v mem' same := by
    have info := h.oneFile u (part u mem) v (part v mem') same
    simp only [original,info,same.files.1,same.files.2,and_self]
  dirs v _ dir := by
    have isDir : v.dir = true := dir
    simp [original,isDir]

theorem Copyable.unused (h : r.Copyable env w base) (all : r.visits = done ++ v :: rest)
    (landed : r.lands w base v = some p) : ∀ u ∈ done, r.lands w base u ≠ some p := by
  intro u before landed'
  have same := h.oneVisit (by simp [all,before]) (by simp [all]) landed' landed
  exact visitedOnce (walkedEncoded h.encoded).proper all before (congrArg Visit.place same)

theorem Shown.type (shown : r.Shown info attr) : typeOf attr = r.typeIn info := by
  rw [typeOf,typeIn,modeOfOwner,← shown.owner]
  cases attr <;> rfl

theorem targetClear {link : Bytes} (held : r.targetOf info = some link) : 0 ∉ link := by
  rw [targetOf] at held
  split at held
  · obtain ⟨data,-,inside⟩ := Option.bind_eq_some_iff.mp held
    rw [symlinkTarget] at inside
    split at inside
    · exact Option.some.inj inside ▸ cStringClear _
    · cases inside
  · exact Option.some.inj held ▸ cStringClear _

theorem Shown.given (shown : r.Shown v.info attr) (file : v.dir = false) :
    (r.original w base).Given v attr v.info.pieces where
  file := file
  owner := shown.owner
  content bytes whole := by
    obtain ⟨regular,same⟩ := Option.ite_none_right_eq_some.mp whole
    exact ⟨shown.type.trans regular.2,Option.some.inj same⟩
  target target found := by
    obtain ⟨link,held⟩ := Option.ite_none_right_eq_some.mp found
    have isLink := shown.type.trans link.2
    obtain ⟨target',held',symlink⟩ := shown.target isLink
    obtain rfl := Option.some.inj (held.symm.trans held')
    refine ⟨isLink,symlink,?_⟩
    exact targetClear held

theorem valuesAlone (none' : valuesOf Visit.fileIndex (r.lands w base) v.info.index done = []) :
    ∀ u ∈ done, u.SameFile v → r.lands w base u = none := by
  rintro u before ⟨index,own,other⟩
  obtain ⟨-,rfl⟩ := Visit.fileIndexSome other
  by_contra there
  obtain ⟨p,landed⟩ := Option.ne_none_iff_exists'.mp there
  have mem : p ∈ valuesOf Visit.fileIndex (r.lands w base) v.info.index done :=
    (Grouping.memValuesOf _ _).mpr ⟨u,before,own,landed⟩
  rw [none'] at mem
  cases mem

theorem depictedCopy (copyable : r.Copyable env w base) (writer : w ≠ .linux) (all : r.visits = done ++ v :: rest)
    (h : (r.original w base).Depicted w done s) (file : v.dir = false) (landed : r.lands w base v = some s.path.data)
    (alone : ∀ u ∈ done, u.SameFile v → r.lands w base u = none)
    (run : r.copyFile env w (r.base ++ v.path) v.info s = (.ok (),t)) :
    (r.original w base).Depicted w (done ++ [v]) t := by
  have mem : v ∈ r.visits := by simp [all]
  have there : (r.lands w base v).isSome := by simp [landed]
  have plain (mode : UInt32) (carries : r.modeOf v.info = some mode) : mode &&& aeIfmt ≠ aeIfdir := fun dir => by
    simp [(copyable.shaped v mem).mpr ⟨mode,carries,dir⟩] at file
  obtain ⟨attr,shown,puts⟩ := copyFilePuts writer (copyable.shareable.taken v mem file there)
    (copyable.shareable.valid v mem file there) plain run
  exact h.file (copyable.sound fun u mem => by rw [all]; simp at mem ⊢; tauto) (copyable.unused all landed)
    landed alone (shown.given file) puts

theorem depictedDir (copyable : r.Copyable env w base) (writer : w ≠ .linux) (fresh : env.Fresh)
    (all : r.visits = done ++ v :: rest) (h : (r.original w base).Depicted w done s) (isDir : v.dir = true)
    (landed : r.lands w base v = some s.path.data) (run : r.visitDir env w path v.info s = (.ok (),t)) :
    (r.original w base).Depicted w (done ++ [v]) t := by
  obtain ⟨attr,x,read,run⟩ := Program.bindOkSource run
  obtain ⟨stored,y,wrote,run⟩ := Program.bindOkSource run
  obtain rfl : y = t := (Prod.mk.inj run).2
  have still := Puts.ticked (r.readAttrTicked env path v.info) read
  have told := r.readAttrTold read
  have owner := readAttrOwner read
  obtain ⟨mode,carries,isMode⟩ := (copyable.shaped v (by simp [all])).mp isDir
  obtain ⟨a,rfl,rfl⟩ := Option.map_eq_some_iff.mp (told.trans carries)
  have passes : FsWriter.passes (some a) true true = true := by
    rw [FsWriter.passes,show a.type = aeIfdir from isMode]
    decide
  rw [FsWriter.wslAccepts env writer passes] at wrote
  rw [← still.path] at landed
  exact (h.quiet still).dir (copyable.sound fun u mem => by rw [all]; simp at mem ⊢; tauto) fresh
    (copyable.unused all landed) landed isDir isMode owner.symm wrote

end WslReader
end LxRunOffline
