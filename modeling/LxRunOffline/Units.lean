/-! Wide characters and strings of the Win32 interface. A `wchar_t` is one UTF-16 code unit;
strings are never checked for well-formed UTF-16. -/
namespace LxRunOffline

abbrev WChar := UInt16
abbrev Wstr := List WChar

def wstr (text : String) : Wstr := text.toList.map fun c => c.toNat.toUInt16

def slash : WChar := 0x2f
def backslash : WChar := 0x5c
def hash : WChar := 0x23

theorem everyUnit {p : WChar → Prop} [DecidablePred p] {s : Wstr}
    (all : s.all (fun c => p c) = true) : ∀ c ∈ s, p c := by
  simpa using all

structure CStr where
  units : Wstr
  noNul : 0 ∉ units

end LxRunOffline
