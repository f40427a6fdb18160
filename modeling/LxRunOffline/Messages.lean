import LxRunOffline.Error
import Mathlib.Data.List.DropRight

/-! The texts of error.cpp and `lro_error::format`, which fills the arguments into them. The format
throws when the arguments are not as many as the text asks for. -/
namespace LxRunOffline

def msgTable : List String := [
  "Test error message: %1%",
  "Couldn't open the file \"%1%\".",
  "Couldn't open the directory \"%1%\".",
  "Couldn't create the file \"%1%\".",
  "Couldn't create the directory \"%1%\".",
  "Couldn't delete the file \"%1%\".",
  "Couldn't delete the directory \"%1%\".",
  "Couldn't get contents of the directory \"%1%\".",
  "Couldn't get information of the file \"%1%\".",
  "Couldn't get size of the file \"%1%\".",
  "Couldn't get the extended attribute \"%1%\" of the file or directory \"%2%\".",
  "Couldn't set the extended attribute \"%1%\" of the file or directory \"%2%\".",
  "The extended attribute \"%1%\" of the file or directory \"%2%\" is invalid.",
  "Couldn't set the case sensitive attribute of the directory \"%1%\".",
  "Couldn't get time information of the file or directory \"%1%\".",
  "Couldn't set time information of the file or directory \"%1%\".",
  "Couldn't get reparse information of the file \"%1%\".",
  "Couldn't set reparse information of the file \"%1%\".",
  "The symlink file \"%1%\" has an invalid length %2%.",
  "Couldn't create the hard link from \"%1%\" to \"%2%\".",
  "Couldn't read from the file \"%1%\".",
  "Couldn't write to the file \"%1%\".",
  "Couldn't recognize the path \"%1%\".",
  "Couldn't convert the encoding of a string.",
  "Error occurred while processing the archive: %1%",
  "Couldn't get Windows version information. \"%1%\"",
  "Windows 10 v%1% (v10.0.%2%) or later is required. Please upgrade your system.",
  "Couldn't open or create the registry key \"%1%\".",
  "Couldn't delete the registry key \"%1%\".",
  "Couldn't get subkeys of the registry key \"%1%\".",
  "Couldn't get the value \"%2%\" of the registry key \"%1%\".",
  "Couldn't set the value \"%2%\" of the registry key \"%1%\".",
  "Couldn't delete the value \"%2%\" of the registry key \"%1%\".",
  "Couldn't create a GUID.",
  "Couldn't convert a GUID to a string.",
  "Couldn't find the distro \"%1%\".",
  "The distro \"%1%\" already exists.",
  "The distro \"%1%\" has running processes and can't be operated. \"wsl -t <name>\" or \"wsl --shutdown\" might help.",
  "Couldn't find a valid default distribution.",
  "No action is specified.",
  "The action \"%1%\" is not recognized.",
  "Couldn't load wslapi.dll. Please make sure that WSL has been installed.",
  "Error occurred when trying to launch the distro \"%1%\".",
  "Error occurred when creating the shortcut.",
  "The environment variable \"%1%\" is invalid.",
  "The environment variable \"%1%\" already exists.",
  "Environment variable \"%1%\" not found.",
  "Error occurred while processing the config file: %1%",
  "Filesystem version %1% is not recognized.",
  "Failed to detect filesystem version of the directory \"%1%\".",
  "Installing to the root directory \"%1%\" is known to cause issues.",
  "The configuration flags are invalid.",
  "The action/argument \"%1%\" doesn't support WSL2.",
  "Copying or moving into a subdirectory of the source directory is not allowed."]

/- The enumeration is cast to an index into the table. -/
def ErrMsg.text (msg : ErrMsg) : Wstr := wstr ((msgTable[msg.ctorIdx]?).getD "")

namespace BoostFormat

def percent : WChar := 0x25

inductive Item where
  | unit (c : WChar)
  | arg (n : Nat)
  deriving DecidableEq, Repr

/- Of the directives only the positional ones of the table, such as `%1%`; `number` is the one
being read. -/
def parse (number : Option Nat) : Wstr → List Item
  | [] => []
  | c :: rest =>
    match number with
    | none => if c = percent then parse (some 0) rest else .unit c :: parse none rest
    | some n =>
      if c = percent then .arg n :: parse none rest else parse (some (10*n+(c.toNat-48))) rest

def expectedArgs (items : List Item) : Nat :=
  items.foldr (fun item most => match item with
    | .unit _ => most
    | .arg n => max n most) 0

def Item.fill (args : List Wstr) : Item → Wstr
  | .unit c => [c]
  | .arg n => (args[n-1]?).getD []

inductive Failure where
  | tooManyArgs
  | tooFewArgs
  deriving DecidableEq, Repr

def format (text : Wstr) (args : List Wstr) : Except Failure Wstr :=
  let items := parse none text
  if expectedArgs items < args.length then .error .tooManyArgs
  else if args.length < expectedArgs items then .error .tooFewArgs
  else .ok (items.flatMap (Item.fill args))

theorem formatOk {text : Wstr} {args : List Wstr} : (∃ filled, format text args = .ok filled) ↔
    args.length = expectedArgs (parse none text) := by
  rw [format]
  split
  · simp only [reduceCtorEq,exists_false,false_iff]
    omega
  · split
    · simp only [reduceCtorEq,exists_false,false_iff]
      omega
    · exact ⟨fun _ => by omega,fun _ => ⟨_,rfl⟩⟩

end BoostFormat

def ErrMsg.placeholders (msg : ErrMsg) : Nat :=
  BoostFormat.expectedArgs (BoostFormat.parse none msg.text)

theorem ErrMsg.placeholdersOf {chars : List Char} {n : Nat}
    (counted : BoostFormat.expectedArgs
      (BoostFormat.parse none (chars.map fun c => c.toNat.toUInt16)) = n) :
    n = BoostFormat.expectedArgs (BoostFormat.parse none (wstr (String.ofList chars))) := by
  rw [wstr,String.toList_ofList,counted]

namespace LroError

def trim (space : WChar → Bool) (text : Wstr) : Wstr := (text.dropWhile space).rdropWhile space

/- What the system says of a code, and which units the locale takes for spaces, comes from outside. -/
def format (reason : UInt32 → Wstr) (space : WChar → Bool) (e : LroError) :
    Except BoostFormat.Failure Wstr := do
  let text ← BoostFormat.format e.msgCode.text e.msgArgs
  .ok (trim space (if e.errCode ≠ 0 then text ++ wstr "\nReason: " ++ reason e.errCode else text))

def Formats (e : LroError) : Prop := ∀ reason space, ∃ text, e.format reason space = .ok text

theorem formatsIff {e : LroError} : e.Formats ↔ e.msgArgs.length = e.msgCode.placeholders := by
  rw [ErrMsg.placeholders,← BoostFormat.formatOk]
  constructor
  · intro formats
    obtain ⟨text,is⟩ := formats (fun _ => []) fun _ => false
    cases first : BoostFormat.format e.msgCode.text e.msgArgs with
    | error failure =>
      rw [format,first] at is
      cases is
    | ok text => exact ⟨text,rfl⟩
  · rintro ⟨text,is⟩ reason space
    rw [format,is]
    exact ⟨_,rfl⟩

end LroError

theorem msgTableComplete (msg : ErrMsg) : msg.ctorIdx < msgTable.length := by
  cases msg <;> decide

end LxRunOffline
