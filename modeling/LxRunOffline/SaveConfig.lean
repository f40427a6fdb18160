import LxRunOffline.Config
import LxRunOffline.FileAttr
import LxRunOffline.Utf16
import Mathlib.Data.List.TakeWhile

/-! `save_file` of reg.cpp, the conversions of utils.cpp, and what `load_file` makes of a saved
file. An empty text leaves an element without a text node, which is what the reader refuses. -/
namespace LxRunOffline

def errorInvalidParameter : UInt32 := 87
def errorNoUnicodeTranslation : UInt32 := 1113

def intRoom : Nat := 2147483647

def utf8Bytes (chars : List Char) : Bytes := chars.flatMap String.utf8EncodeChar

/- `WideCharToMultiByte` with `WC_ERR_INVALID_CHARS`, which stops at a NUL. -/
def RegConfig.toUtf8 (text : Wstr) : Except UInt32 Bytes :=
  match Utf16.decode (cstr text) with
  | none => .error errorNoUnicodeTranslation
  | some chars =>
    if (utf8Bytes chars).length < intRoom then .ok (utf8Bytes chars) else .error errorInvalidParameter

theorem cstrNoNul (units : Wstr) : 0 ∉ cstr units := fun mem => by
  simpa using List.mem_takeWhile_imp mem

/- `MultiByteToWideChar` with `MB_ERR_INVALID_CHARS`. -/
def RegConfig.fromUtf8 (bytes : Bytes) : Except UInt32 CStr :=
  match bytes.toByteArray.utf8Decode? with
  | none => .error errorNoUnicodeTranslation
  | some chars =>
    if (Utf16.encode chars.toList).length < intRoom then
      .ok ⟨cstr (Utf16.encode chars.toList),cstrNoNul _⟩
    else .error errorInvalidParameter

namespace RegConfig
variable (reread : Bytes → Option Bytes)

def setText (text : Wstr) : Except LroError XmlText :=
  match toUtf8 text with
  | .error code => .error (.fromWin32 .errConvertEncoding [] code)
  | .ok bytes => .ok ((reread bytes).map fromUtf8)

def setTexts : List Wstr → Except LroError (List XmlText)
  | [] => .ok []
  | text :: rest => do
    let first ← setText reread text
    let more ← setTexts rest
    .ok (first :: more)

def saveFile (conf : RegConfig) (path : Wstr) (opened : UInt32) (saved : Option Wstr) :
    Except LroError ConfigElement :=
  if opened ≠ 0 then .error (.fromWin32 .errCreateFile [path] opened)
  else do
    let envs ← setTexts reread conf.env
    let cmd ← setText reread conf.kernelCmd
    match saved with
    | some name => .error (errorXml name)
    | none => .ok ⟨some envs,some (.ok conf.uid),some cmd,some (.ok conf.flags)⟩

end RegConfig

/- A well-formed text without control characters that is more than blanks, or is empty. -/
structure Storable (text : Wstr) : Prop where
  formed : Utf16.decode text ≠ none
  printable : ∀ c ∈ text, 0x20 ≤ c
  visible : text = [] ∨ ∃ c ∈ text, c ≠ 0x20

instance : DecidablePred Storable := fun text => decidable_of_iff
  (Utf16.decode text ≠ none ∧ text.all (0x20 ≤ ·) = true ∧ (text = [] ∨ text.any (· != 0x20) = true))
  ⟨fun h => ⟨h.1,by simpa using h.2.1,by simpa using h.2.2⟩,
    fun h => ⟨h.formed,by simpa using h.printable,by simpa using h.visible⟩⟩

/- What the XML library does to the text of an element between `SetText` and `GetText`. -/
structure XmlKeeps (reread : Bytes → Option Bytes) : Prop where
  empty : reread [] = none
  kept : ∀ text bytes, Storable text → text ≠ [] → RegConfig.toUtf8 text = .ok bytes →
    reread bytes = some bytes

def utf8Size (text : Wstr) : Nat := ((Utf16.decode text).map fun chars => (utf8Bytes chars).length).getD 0

def Importable (text : Wstr) : Prop := text ≠ [] ∧ utf8Size text < intRoom

section Texts
variable {reread : Bytes → Option Bytes} {text : Wstr}

theorem encodeSize (chars : List Char) : (Utf16.encode chars).length ≤ (utf8Bytes chars).length := by
  induction chars with
  | nil => exact Nat.le_refl 0
  | cons c rest ih =>
    rw [Utf16.encode,List.flatMap_cons,List.length_append,← Utf16.encode,utf8Bytes,List.flatMap_cons,
      List.length_append,← utf8Bytes,String.length_utf8EncodeChar]
    exact Nat.add_le_add (Utf16.encodeCharSize c) ih

theorem Storable.noNul (h : Storable text) : 0 ∉ text := fun mem =>
  absurd (h.printable 0 mem) (by decide)

theorem toUtf8Known {chars : List Char} (noNul : 0 ∉ text)
    (decoded : Utf16.decode text = some chars) :
    RegConfig.toUtf8 text = if utf8Size text < intRoom then .ok (utf8Bytes chars)
      else .error errorInvalidParameter := by
  have whole : cstr text = text := cstrSame ⟨text,noNul⟩
  rw [RegConfig.toUtf8,whole,utf8Size,decoded]
  rfl

theorem fromUtf8Known {chars : List Char} (noNul : 0 ∉ text)
    (decoded : Utf16.decode text = some chars) (small : utf8Size text < intRoom) :
    RegConfig.fromUtf8 (utf8Bytes chars) = .ok ⟨text,noNul⟩ := by
  have back : (utf8Bytes chars).toByteArray.utf8Decode? = some chars.toArray := List.utf8Decode?_utf8Encode
  have units : Utf16.encode chars = text := Utf16.encodeDecode decoded
  have room : text.length < intRoom := by
    have known : utf8Size text = (utf8Bytes chars).length := by
      rw [utf8Size,decoded]
      rfl
    have most := encodeSize chars
    rw [units] at most
    omega
  have whole : cstr text = text := cstrSame ⟨text,noNul⟩
  rw [RegConfig.fromUtf8,back]
  simp only [units,if_pos room,whole]

theorem textRead (xml : XmlKeeps reread) (storable : Storable text) :
    (RegConfig.setText reread text >>= XmlText.read) = .ok text ↔ Importable text := by
  obtain ⟨chars,decoded⟩ := Option.ne_none_iff_exists'.mp storable.formed
  have bytes := toUtf8Known storable.noNul decoded
  rw [RegConfig.setText,bytes]
  by_cases small : utf8Size text < intRoom
  · rw [if_pos small]
    by_cases empty : text = []
    · subst empty
      have none' : reread (utf8Bytes chars) = none := by
        cases Option.some.inj decoded
        exact xml.empty
      simp only [none',Option.map_none]
      exact ⟨nofun,fun fine => absurd rfl fine.1⟩
    · rw [if_pos small] at bytes
      simp only [xml.kept text _ storable empty bytes,Option.map_some,
        fromUtf8Known storable.noNul decoded small]
      exact ⟨fun _ => ⟨empty,small⟩,fun _ => rfl⟩
  · rw [if_neg small]
    exact ⟨nofun,fun fine => absurd fine.2 small⟩

theorem textsRead (xml : XmlKeeps reread) {texts : List Wstr} (storable : ∀ text ∈ texts, Storable text) :
    (RegConfig.setTexts reread texts >>= XmlText.readAll) = .ok texts ↔
      ∀ text ∈ texts, Importable text := by
  induction texts with
  | nil => simp [RegConfig.setTexts,XmlText.readAll,bind,Except.bind]
  | cons text rest ih =>
    have apart : (RegConfig.setTexts reread (text :: rest) >>= XmlText.readAll) = .ok (text :: rest) ↔
        (RegConfig.setText reread text >>= XmlText.read) = .ok text ∧
          (RegConfig.setTexts reread rest >>= XmlText.readAll) = .ok rest := by
      rw [RegConfig.setTexts]
      cases RegConfig.setText reread text with
      | error e => simp [bind,Except.bind]
      | ok first =>
        cases RegConfig.setTexts reread rest with
        | error e => simp [bind,Except.bind]
        | ok more =>
          simp only [bind,Except.bind,XmlText.readAll]
          cases XmlText.read first with
          | error e => simp
          | ok a => cases XmlText.readAll more <;> simp
    rw [apart,textRead xml (storable text (by simp)),ih fun text mem => storable text (by simp [mem]),
      List.forall_mem_cons]

end Texts

/- A saved configuration can be loaded, into any other, where every text of it is importable. -/
theorem exportKept {reread : Bytes → Option Bytes} (xml : XmlKeeps reread) {conf : RegConfig}
    (storable : ∀ text ∈ conf.kernelCmd :: conf.env, Storable text) (old : RegConfig)
    (path path' : Wstr) :
    (∃ root, conf.saveFile reread path 0 none = .ok root ∧
      old.loadFile path' (.config root) = .ok conf) ↔
        ∀ text ∈ conf.kernelCmd :: conf.env, text ≠ [] ∧ utf8Size text < intRoom := by
  have apart : (∃ root, conf.saveFile reread path 0 none = .ok root ∧
      old.loadFile path' (.config root) = .ok conf) ↔
        (RegConfig.setText reread conf.kernelCmd >>= XmlText.read) = .ok conf.kernelCmd ∧
          (RegConfig.setTexts reread conf.env >>= XmlText.readAll) = .ok conf.env := by
    obtain ⟨env,kernelCmd,uid,flags⟩ := conf
    rw [RegConfig.saveFile,if_neg (by decide)]
    dsimp only
    cases RegConfig.setTexts reread env with
    | error e => simp [bind,Except.bind]
    | ok envs =>
      cases RegConfig.setText reread kernelCmd with
      | error e => simp [bind,Except.bind]
      | ok cmd =>
        simp only [bind,Except.bind,Except.ok.injEq,exists_eq_left',RegConfig.loadFile,
          RegConfig.loadElement,RegConfig.loadEnvs,RegConfig.loadNumber,RegConfig.loadKernelCmd]
        cases XmlText.readAll envs with
        | error e => simp
        | ok texts =>
          cases XmlText.read cmd with
          | error e => simp
          | ok text => simp [RegConfig.mk.injEq,and_comm]
  rw [apart,textRead xml (storable _ (by simp)),textsRead xml fun text mem => storable text (by simp [mem]),
    List.forall_mem_cons]
  exact Iff.rfl

def plainXml (bytes : Bytes) : Option Bytes := if bytes = [] then none else some bytes

theorem plainXmlKeeps : XmlKeeps plainXml := by
  refine ⟨rfl,fun text bytes storable some' converts => if_neg fun empty => some' ?_⟩
  obtain ⟨chars,decoded⟩ := Option.ne_none_iff_exists'.mp storable.formed
  have size : RegConfig.toUtf8 text = .ok [] := empty ▸ converts
  rw [toUtf8Known storable.noNul decoded] at size
  split at size
  · have none' : chars = [] := by
      cases chars with
      | nil => rfl
      | cons c rest => simp [utf8Bytes] at size
    rw [none'] at decoded
    exact (Utf16.encodeDecode decoded).symm
  · cases size

def shortConfig (cmd : Wstr) : RegConfig := ⟨[wstr "LANG=en_US.UTF-8"],cmd,1000,7⟩

theorem exportKeptUse : (∃ root, (shortConfig (wstr "ro")).saveFile plainXml [] 0 none = .ok root ∧
    (RegConfig.new true).loadFile [] (.config root) = .ok (shortConfig (wstr "ro"))) ↔
      ∀ text ∈ (shortConfig (wstr "ro")).kernelCmd :: (shortConfig (wstr "ro")).env,
        text ≠ [] ∧ utf8Size text < intRoom :=
  exportKept plainXmlKeeps (by decide +kernel) (.new true) [] []

/- Without a command line for the kernel the file cannot be loaded. -/
theorem bareCommandRefused : ¬ ∀ (conf old : RegConfig),
    (∀ text ∈ conf.kernelCmd :: conf.env, Storable text) →
    ∃ root, conf.saveFile plainXml [] 0 none = .ok root ∧ old.loadFile [] (.config root) = .ok conf := by
  intro always
  obtain ⟨root,saved,loaded⟩ := always ⟨[],[],0,7⟩ (.new false) (by decide +kernel)
  cases Except.ok.inj saved
  cases loaded

end LxRunOffline
