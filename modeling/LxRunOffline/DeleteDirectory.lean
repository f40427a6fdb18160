import LxRunOffline.Volume

/-! `delete_directory` of fs.cpp: the walk over a directory that takes every file and, on its way
back, every directory out of the volume. The walk is that of the readers, which enters whatever
has the attribute of a directory; a reparse point to a directory has it too. -/
namespace LxRunOffline

inductive Removed where
  | entry (dir : Nat) (name : Wstr)
  | given
  deriving DecidableEq, Repr

structure DeleteState where
  clock : Nat
  data : Wstr
  volume : Volume
  removed : List Removed

instance : Clocked DeleteState where
  clock s := s.clock
  tick s := {s with clock := s.clock+1}

abbrev Delete (α : Type) := Program Stop DeleteState α

def Entry.found (e : Entry) : FindData := ⟨e.name,e.node.leads.isSome⟩

/- The text of the path that is given, with a backslash at its end, and the directory it names. -/
structure DeleteRoot where
  base : Wstr
  root : Nat

namespace DeleteRoot
variable (t : DeleteRoot) (env : FsEnv)

def parts (path : Wstr) : List Wstr := (path.drop t.base.length).splitOn backslash

def dirAt (v : Volume) (path : Wstr) : Option Nat :=
  if (t.parts path).getLast? = some [] then v.resolve t.root (t.parts path).dropLast else none

/- The last name is looked up in the directory that the others lead to, and is not followed. -/
def entryAt (v : Volume) (names : List Wstr) : Option (Nat × Entry) :=
  (v.resolve t.root names.dropLast).bind fun d =>
    (names.getLast?.bind (v.find d)).map fun e => (d,e)

def openListed (path : Wstr) : Delete Unit := do
  let s ← Program.get
  if ((t.dirAt s.volume path).bind s.volume.entries).isSome then Fs.openListed env path
  else Fs.throwWin32 .errOpenDir [path] errorPathMissing

def findFirst (path : Wstr) : Delete (List FindData) := do
  let code ← Fs.call env (.findFirst path)
  if code ≠ 0 then Fs.throwWin32 .errEnumDir [path] code else do
    let s ← Program.get
    match t.dirAt s.volume path with
    | none => Fs.throwWin32 .errEnumDir [path] errorPathMissing
    | some d => pure (⟨dotName,true⟩ :: ⟨dotDotName,true⟩ :: (s.volume.listing d).map Entry.found)

def api : DirApi DeleteState where
  data s := s.data
  setData d s := {s with data := d}
  dataSet _ _ := rfl
  setSet _ _ _ := rfl
  setSame _ := rfl
  openListed := t.openListed env
  findFirst := t.findFirst env
  findNext := Fs.findNext env

def unlinkFile (v : Volume) (names : List Wstr) : Except UInt32 (Removed × Volume) :=
  match t.entryAt v names with
  | none => .error errorFileMissing
  | some (d,⟨name,.file⟩) => .ok (.entry d name,v.removeEntry d name)
  | some _ => .error errorAccessDenied

/- `RemoveDirectory`: a reparse point goes by itself, a directory only when it is empty. -/
def unlinkDirectory (v : Volume) (names : List Wstr) : Except UInt32 (Removed × Volume) :=
  if names = [] then
    if v.listing t.root = [] then .ok (.given,v.dropDirectory t.root) else .error errorDirNotEmpty
  else match t.entryAt v names with
    | none => .error errorFileMissing
    | some (d,⟨name,.reparse _⟩) => .ok (.entry d name,v.removeEntry d name)
    | some (d,⟨name,.dir id⟩) =>
      if v.listing id = [] then .ok (.entry d name,(v.removeEntry d name).dropDirectory id)
      else .error errorDirNotEmpty
    | some _ => .error errorDirectory

def unlink (v : Volume) (dir : Bool) (path : Wstr) : Except UInt32 (Removed × Volume) :=
  if dir then t.unlinkDirectory v (t.parts path).dropLast else t.unlinkFile v (t.parts path)

def remove (dir : Bool) : Delete Unit := do
  let s ← Program.get
  let code ← Fs.call env (if dir then .removeDirectory s.data else .deleteFile s.data)
  if code ≠ 0 then Fs.throwWin32 (if dir then .errDeleteDir else .errDeleteFile) [s.data] code
  else match t.unlink s.volume dir s.data with
    | .error code => Fs.throwWin32 (if dir then .errDeleteDir else .errDeleteFile) [s.data] code
    | .ok (gone,left) =>
      Program.modify fun s => {s with volume := left, removed := s.removed ++ [gone]}

def action (type : EnumDirType) : Delete Unit :=
  if type = .enter then pure () else t.remove env (type = .exit)

def deleteDirectory (fuel : Nat) : Delete Unit := (t.api env).enumDirectory (t.action env) fuel false

def begins (v : Volume) : DeleteState := ⟨0,t.base,v,[]⟩

end DeleteRoot
end LxRunOffline
