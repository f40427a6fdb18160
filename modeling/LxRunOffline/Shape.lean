import LxRunOffline.HardLinkRuns
import LxRunOffline.Works

/-! The kind of what a writer makes of an entry. The reader takes it from the enumeration, the
writer from the attributes alone, so the two part where a directory has none. -/
namespace LxRunOffline

def creation : FsEvent → Option (Wstr × Bool)
  | .createdDirectory path => some (path,true)
  | .createdFile path => some (path,false)
  | _ => none

def creations (log : List FsEvent) : List (Wstr × Bool) := log.filterMap creation

theorem Within.sameCreations {kind : FsEvent → Prop} {s t : CopyState} (h : Within kind s t)
    (quiet : ∀ e, kind e → creation e = none) : creations t.log = creations s.log := by
  obtain ⟨more,log,all⟩ := h.log
  have none' : more.filterMap creation = [] :=
    List.filterMap_eq_nil_iff.mpr fun e mem => quiet e (all e mem)
  rw [creations,log,List.filterMap_append,none',List.append_nil,creations]

theorem Emits.sameCreations {α : Type} {kind : FsEvent → Prop} {x : Copy α} (h : Emits kind x)
    (quiet : ∀ e, kind e → creation e = none) (s : CopyState) :
    creations (x s).2.log = creations s.log := (h.final s).sameCreations quiet

theorem dataCreatesNothing (e : FsEvent) (h : DataEvent e) : creation e = none := by
  cases h <;> rfl

namespace WslWriter
variable {env : FsEnv} (w : Format)

theorem createRun (works : env.Works) (path : Wstr) (isDir : Bool) (s : CopyState) : ∃ t,
    create env path isDir s = (.ok (),t) ∧ t.path = s.path ∧
      creations t.log = creations s.log ++ [(path,isDir)] := by
  let made (e : FsEvent) : CopyState := {Clocked.tick s with log := s.log ++ [e]}
  cases isDir with
  | true =>
    have directory : createDirectory env path s = (.ok (),made (.createdDirectory path)) := by
      rw [createDirectory,Program.bindOk (callWorks works _ s)]
      rfl
    refine ⟨Clocked.tick (made (.createdDirectory path)),?_,rfl,?_⟩
    · rw [create,if_pos rfl,Program.bindOk directory,openWorks works]
    · simp [creations,creation,made,Clocked.tick]
  | false =>
    refine ⟨made (.createdFile path),?_,rfl,?_⟩
    · rw [create,if_neg Bool.false_ne_true,Program.bindOk (openWorks works _ _ _ s)]
      rfl
    · simp [creations,creation,made]

theorem writeFileCreates (works : env.Works) (attr : Option FileAttr) (s : CopyState) :
    creations (writeFile env w attr s).2.log =
      creations s.log ++ [(s.path.data,decide (typeOf attr = aeIfdir))] := by
  obtain ⟨t,run,-,made⟩ := createRun works s.path.data (typeOf attr = aeIfdir) s
  have rest : Emits (fun e => creation e = none) (do
      writeAttr env w s.path.data attr
      finish env s.path.data (typeOf attr)
      FsWriter.note (.accepted s.path.data)
      pure true) := by
    refine .bind ((writeAttrEmits ..).mono ?_) fun _ => .bind (finishEmits ..) fun _ =>
      .bind (.note rfl) fun _ => .pure _
    rintro e (attr | ⟨a,-,-,bytes,rfl⟩)
    · cases attr <;> rfl
    · rfl
  have quiet := rest.sameCreations (fun _ h => h) t
  rw [writeFile,Program.bindRun,Program.getRun]
  dsimp only
  rw [Program.bindOk run,quiet,made]

theorem writeNewFileCreates (works : env.Works) (wsl : w ≠ .linux) {attr : Option FileAttr}
    (passes : FsWriter.passes attr true true = true) (s : CopyState) :
    creations (FsWriter.writeNewFile env w attr s).2.log =
      creations s.log ++ [(s.path.data,decide (typeOf attr = aeIfdir))] := by
  rw [FsWriter.wslAccepts env wsl passes]
  exact writeFileCreates w works attr s

end WslWriter
namespace WslReader
variable (r : WslReader) {env : FsEnv} {α : Type}

def isDevice (mode : UInt32) : Prop := mode &&& aeIfmt = aeIfchr ∨ mode &&& aeIfmt = aeIfblk

instance (mode : UInt32) : Decidable (isDevice mode) := by unfold isDevice; infer_instance

def modeOf (info : NodeInfo) : Option UInt32 :=
  if r.format = .v2 then do
    let _ ← (info.eas .lxuid).bind EaValue.asDword
    let _ ← (info.eas .lxgid).bind EaValue.asDword
    let mode ← (info.eas .lxmod).bind EaValue.asDword
    if isDevice mode then ((info.eas .lxdev).bind EaValue.asQword).map fun _ => mode
    else some mode
  else ((info.eas .lxattrb).bind EaValue.asRecord).map LxAttrB.mode

theorem getEaWorks (works : env.Works) (path : Wstr) {eas : EaName → Option EaValue}
    {name : EaName} {pick : EaValue → Option α} {a : α} (found : (eas name).bind pick = some a)
    (s : CopyState) : Fs.getEa env path eas name pick s = (.ok a,Clocked.tick s) := by
  rw [Fs.getEa,Program.bindOk (callWorks works _ s)]
  simp only [ne_eq,not_true_eq_false,↓reduceIte,found,Program.pureRun]

theorem getEaMissing (works : env.Works) (path : Wstr) {eas : EaName → Option EaValue}
    {name : EaName} {pick : EaValue → Option α} (missing : (eas name).bind pick = none)
    (s : CopyState) : Fs.getEa env path eas name pick s =
      (.error (.lro (.fromOther .errInvalidEa [name.text])),Clocked.tick s) := by
  rw [Fs.getEa,Program.bindOk (callWorks works _ s)]
  simp only [ne_eq,not_true_eq_false,↓reduceIte,missing,Fs.throwOther,Program.raiseRun]

def Found (mode : Option UInt32) : Except Stop (Option FileAttr) × CopyState → Prop
  | (.ok attr,_) => ∃ a, attr = some a ∧ mode = some a.mode
  | (.error e,_) => mode = none ∧ ∃ args, e = .lro (.fromOther .errInvalidEa args)

theorem foundEa (works : env.Works) (path : Wstr) (eas : EaName → Option EaValue) (name : EaName)
    (pick : EaValue → Option α) {f : α → Copy (Option FileAttr)} {mode : α → Option UInt32}
    {s : CopyState} (next : ∀ a, Found (mode a) (f a (Clocked.tick s))) :
    Found (((eas name).bind pick).bind mode) ((Fs.getEa env path eas name pick >>= f) s) := by
  cases found : (eas name).bind pick with
  | none =>
    rw [Program.bindError (getEaMissing works path found s)]
    exact ⟨rfl,_,rfl⟩
  | some a =>
    rw [Program.bindOk (getEaWorks works path found s)]
    exact next a

theorem foundSize (works : env.Works) (path : Wstr) (size : UInt64)
    {f : UInt64 → Copy (Option FileAttr)} {mode : Option UInt32} {s : CopyState}
    (next : Found mode (f size (Clocked.tick s))) :
    Found mode ((Fs.getFileSize env path size >>= f) s) := by
  have run : Fs.getFileSize env path size s = (.ok size,Clocked.tick s) := by
    rw [Fs.getFileSize,Program.bindOk (callWorks works _ s)]
    rfl
  rwa [Program.bindOk run]

theorem orNullFound {mode : Option UInt32} {path : Wstr} {x : Copy (Option FileAttr)}
    {s : CopyState} (h : Found mode (x s)) :
    ∃ attr t, orNull path x s = (.ok attr,t) ∧ attr.map FileAttr.mode = mode := by
  cases run : x s with
  | mk outcome t =>
    rw [run] at h
    cases outcome with
    | ok attr =>
      obtain ⟨a,rfl,rfl⟩ := h
      exact ⟨some a,t,Program.rescueOk run,rfl⟩
    | error e =>
      obtain ⟨rfl,args,rfl⟩ := h
      exact ⟨none,t,Program.rescueError run,rfl⟩

theorem readDevice {path : Wstr} {info : NodeInfo} {attr : FileAttr} (device : isDevice attr.mode) :
    readDev env path info attr = (Fs.getEa env path info.eas .lxdev EaValue.asQword >>= fun dev =>
      pure {attr with devMajor := dev.toUInt32, devMinor := (dev >>> 32).toUInt32}) :=
  if_pos device

theorem readPlain {path : Wstr} {info : NodeInfo} {attr : FileAttr} (plain : ¬ isDevice attr.mode) :
    readDev env path info attr = pure attr := if_neg plain

theorem readEasWorks (works : env.Works) (v2 : r.format = .v2) (path : Wstr) (info : NodeInfo)
    (s : CopyState) : ∃ attr t, readEas env path info s = (.ok attr,t) ∧
      attr.map FileAttr.mode = r.modeOf info := by
  rw [modeOf,if_pos v2]
  refine orNullFound ?_
  refine foundEa works path info.eas .lxuid _ fun uid => ?_
  refine foundEa works path info.eas .lxgid _ fun gid => ?_
  refine foundEa works path info.eas .lxmod _ fun mode => foundSize works path info.size ?_
  by_cases device : isDevice mode
  · rw [if_pos device,readDevice device,Program.bindAssoc,Option.map_eq_bind]
    exact foundEa works path info.eas .lxdev _ fun dev => ⟨_,rfl,rfl⟩
  · rw [if_neg device,readPlain device]
    exact ⟨_,rfl,rfl⟩

theorem readAttrWorks (works : env.Works) (path : Wstr) (info : NodeInfo) (s : CopyState) :
    ∃ attr t, r.readAttr env path info s = (.ok attr,t) ∧
      attr.map FileAttr.mode = r.modeOf info := by
  by_cases v2 : r.format = .v2
  · obtain ⟨attr,t,run,mode⟩ := readEasWorks r works v2 path info s
    rw [readAttr,if_pos v2,readAttrV2,Program.bindOk run]
    cases attr with
    | none => exact ⟨none,t,rfl,mode⟩
    | some bare =>
      dsimp only
      rw [readTimes,Program.bindAssoc,Program.bindOk (callWorks works _ t)]
      exact ⟨_,_,rfl,mode⟩
  · rw [readAttr,if_neg v2,modeOf,if_neg v2,Option.map_eq_bind]
    refine orNullFound ?_
    refine foundEa works path info.eas .lxattrb _ fun ea => foundSize works path info.size ?_
    exact ⟨_,rfl,rfl⟩

def LinkReadable (info : NodeInfo) : Prop :=
  if r.format = .v2 then ∃ data, info.reparse = some data ∧ data.tag = tagLxSymlink ∧ 4 ≤ data.dataLength
  else info.size ≤ 65536 ∧ info.size.toNat ≤ info.reads.flatten.length

def Unlinked (info : NodeInfo) : Prop := ∀ mode, r.modeOf info = some mode → mode &&& aeIfmt ≠ aeIflnk

theorem Unlinked.whole {r : WslReader} {info : NodeInfo} {attr : Option FileAttr} (plain : r.Unlinked info)
    (mode : attr.map FileAttr.mode = r.modeOf info) : ∀ a ∈ attr, a.Whole := by
  rintro a rfl link
  exact absurd link (plain a.mode mode.symm)

theorem readTargetWorks (works : env.Works) (path : Wstr) {size : Nat} {target : Bytes}
    {reads : List Bytes} (enough : size ≤ target.length + reads.flatten.length) (s : CopyState) :
    ∃ whole t, readTarget env path size target reads s = (.ok whole,t) := by
  induction reads generalizing target s with
  | nil => exact ⟨target,s,by rw [readTarget,if_pos (by simpa using enough)]; rfl⟩
  | cons piece rest ih =>
    by_cases done : size ≤ target.length
    · exact ⟨target,s,by rw [readTarget,if_pos done]; rfl⟩
    · rw [readTarget,if_neg done,Program.bindOk (callWorks works _ s)]
      refine ih ?_ _
      simp only [List.flatten_cons,List.length_append,List.length_take] at enough ⊢
      omega

theorem readSymlinkWorks (works : env.Works) {info : NodeInfo} (readable : r.LinkReadable info)
    (path : Wstr) (s : CopyState) :
    ∃ target t, r.readSymlinkData env path info s = (.ok (some target),t) := by
  unfold LinkReadable at readable
  unfold readSymlinkData
  split at readable
  · rename_i v2
    obtain ⟨data,there,fits⟩ := readable
    have found : info.reparse.bind symlinkTarget =
        some (cString ((data.data.drop 4).take (data.dataLength.toNat-4))) := by
      rw [there,Option.bind_some,symlinkTarget,if_pos fits]
    rw [if_pos v2,readSymlinkV2,Program.bindOk (callWorks works _ s),if_pos rfl]
    exact ⟨_,_,copyTargetFound found _⟩
  · rename_i v1
    have size : Fs.withPath path (Fs.getFileSize env path info.size) s =
        (.ok info.size,Clocked.tick s) := by
      refine Program.rescueOk ?_
      rw [Fs.getFileSize,Program.bindOk (callWorks works _ s)]
      rfl
    rw [if_neg v1,readSymlinkV1,Program.bindOk size]
    simp only [UInt64.not_lt.mpr readable.1,↓reduceIte]
    obtain ⟨whole,t,run⟩ := @readTargetWorks env works path info.size.toNat [] info.reads
      (by simpa using readable.2) (Clocked.tick s)
    exact ⟨_,_,by rw [Program.bindOk run]; rfl⟩

def Agrees (info : NodeInfo) (dir : Bool) : Prop :=
  ∀ mode, r.modeOf info = some mode →
    if dir then mode &&& aeIfmt = aeIfdir
    else FsWriter.supported (mode &&& aeIfmt) true = true ∧ mode &&& aeIfmt ≠ aeIfdir ∧
      (mode &&& aeIfmt = aeIflnk → r.LinkReadable info)

variable {r} {w : Format} {info : NodeInfo} {s : CopyState}

theorem visitDirCreates (works : env.Works) (wsl : w ≠ .linux) (agrees : r.Agrees info true)
    (path : Wstr) : creations (r.visitDir env w path info s).2.log =
      creations s.log ++ [(s.path.data,(r.modeOf info).isSome)] := by
  obtain ⟨attr,t,run,mode⟩ := r.readAttrWorks works path info s
  have quiet : Within (fun _ => False) s t := (r.readAttrEmits env path info).returned run
  have same := quiet.sameCreations fun _ => False.elim
  have passes : FsWriter.passes attr true true = true ∧
      decide (typeOf attr = aeIfdir) = (r.modeOf info).isSome := by
    cases attr with
    | none =>
      rw [← mode]
      exact ⟨rfl,by decide⟩
    | some a =>
      have dir : a.type = aeIfdir := by simpa [FileAttr.type] using agrees a.mode mode.symm
      rw [← mode]
      simp [FsWriter.passes,typeOf,dir,FsWriter.supported]
  have made := WslWriter.writeNewFileCreates w works wsl passes.1 t
  have whole : (r.visitDir env w path info s).2 = (FsWriter.writeNewFile env w attr t).2 := by
    rw [visitDir,Program.bindOk run,Program.bindRun]
    cases FsWriter.writeNewFile env w attr t with
    | mk outcome u => cases outcome <;> rfl
  rw [whole,made,same,quiet.path,passes.2]

theorem storeFileCreates (works : env.Works) (wsl : w ≠ .linux) {attr : Option FileAttr}
    (passes : FsWriter.passes attr true true = true) (plain : typeOf attr ≠ aeIfdir) (path : Wstr) :
    creations (storeFile env w path info attr s).2.log = creations s.log ++ [(s.path.data,false)] := by
  have made := WslWriter.writeNewFileCreates w works wsl passes s
  rw [decide_eq_false plain] at made
  rw [storeFile,Program.bindRun,← made]
  have copied (stored : Bool) : Emits DataEvent (if stored = true then
      Program.when (typeOf attr = aeIfreg) (copyData env w path info.reads) else pure ()) :=
    .ite (fun _ => .when fun _ => copyDataEmits ..) (fun _ => .pure ())
  split
  · rename_i stored t run
    rw [run]
    exact (copied stored).sameCreations dataCreatesNothing t
  · rename_i run
    rw [run]

theorem copyFileCreates (works : env.Works) (wsl : w ≠ .linux) (agrees : r.Agrees info false)
    (path : Wstr) : creations (r.copyFile env w path info s).2.log =
      creations s.log ++ [(s.path.data,false)] := by
  obtain ⟨attr,t,run,mode⟩ := r.readAttrWorks works path info s
  have quiet : Within (fun _ => False) s t := (r.readAttrEmits env path info).returned run
  have same := quiet.sameCreations fun _ => False.elim
  rw [copyFile,Program.bindOk run,← same,← quiet.path]
  cases attr with
  | none => exact storeFileCreates works wsl rfl (by decide) path
  | some a =>
    have fits : FsWriter.supported a.type true = true ∧ a.type ≠ aeIfdir ∧
        (a.type = aeIflnk → r.LinkReadable info) := by
      simpa [FileAttr.type] using agrees a.mode mode.symm
    have stored (target : Option Bytes) (s : CopyState) :
        creations (storeFile env w path info (some {a with symlink := target}) s).2.log =
          creations s.log ++ [(s.path.data,false)] := by
      have passes : FsWriter.passes (some {a with symlink := target}) true true = true := fits.1
      exact storeFileCreates works wsl passes fits.2.1 path
    by_cases link : typeOf (some a) = aeIflnk
    · rw [if_pos link,storeSymlink]
      obtain ⟨target,u,read⟩ := r.readSymlinkWorks works (fits.2.2 link) path t
      have still : Within (fun _ => False) t u := (r.readSymlinkDataEmits env path info).returned read
      rw [Program.bindOk read,← still.sameCreations fun _ => False.elim,← still.path]
      exact stored _ u
    · rw [if_neg link]
      exact stored a.symlink t

theorem visitFileCreates (works : env.Works) (wsl : w ≠ .linux) (agrees : r.Agrees info false)
    (first : 1 < info.links → s.idMap.lookup info.index = none) (path : Wstr) :
    creations (r.visitFile env w path info s).2.log = creations s.log ++ [(s.path.data,false)] := by
  rw [visitFile,Program.bindOk (callWorks works _ s)]
  simp only [ne_eq,not_true_eq_false,↓reduceIte]
  split
  · rename_i several
    rw [Program.bindRun,Program.getRun]
    dsimp only
    rw [show (Clocked.tick s).idMap.lookup info.index = none from first several]
    exact copyFileCreates works wsl agrees path
  · exact copyFileCreates works wsl agrees path

theorem visitNodeCreates (works : env.Works) (wsl : w ≠ .linux) {dir : Bool} {path : Wstr}
    (there : r.infoAt path dir = some info)
    (converts : ((r.pathAt path).convert s.path).1 = .ok true) (agrees : r.Agrees info dir)
    (first : dir = false → 1 < info.links → s.idMap.lookup info.index = none) :
    creations (r.visitNode env w path dir s).2.log = creations s.log ++
      [(((r.pathAt path).convert s.path).2.data,dir && (r.modeOf info).isSome)] := by
  let t : CopyState := {s with path := ((r.pathAt path).convert s.path).2}
  have converted : convertPath (r.pathAt path) s = (.ok true,t) := Prod.ext converts rfl
  have opened : r.openNode env path dir t = (.ok info,Clocked.tick t) := by
    rw [openNode,Program.bindOk (openWorks works path dir false t),there]
    rfl
  rw [visitNode,Program.bindOk converted,if_pos rfl,Program.bindOk opened]
  cases dir with
  | true => exact @visitDirCreates r env w info (Clocked.tick t) works wsl agrees path
  | false => exact @visitFileCreates r env w info (Clocked.tick t) works wsl agrees (first rfl) path

/- A visit makes what was enumerated, unless that is a directory without attributes. -/
theorem shapeKept (works : env.Works) (wsl : w ≠ .linux) {t : EnumDirType}
    (visited : t = .file ∨ t = .enter ∧ s.isRoot = false)
    (there : r.infoAt s.data (t = .enter) = some info)
    (converts : ((r.pathAt s.data).convert s.path).1 = .ok true)
    (agrees : r.Agrees info (t = .enter))
    (first : t = .file → 1 < info.links → s.idMap.lookup info.index = none) :
    creations (r.visit env w t s).2.log = creations s.log ++
        [(((r.pathAt s.data).convert s.path).2.data,decide (t = .enter))] ↔
      (t = .enter → r.modeOf info ≠ none) := by
  have stays : t ≠ .exit := by rcases visited with rfl | ⟨rfl,-⟩ <;> decide
  have inside : ¬ (t = .enter ∧ s.isRoot = true) := by
    rcases visited with rfl | ⟨rfl,inner⟩
    · simp
    · simp [inner]
  have first' : decide (t = .enter) = false → 1 < info.links →
      s.idMap.lookup info.index = none := fun file =>
    first (visited.resolve_right fun enter => by simp [enter.1] at file)
  have made := visitNodeCreates works wsl there converts agrees first'
  rw [visit,if_neg stays,Program.bindRun,Program.getRun]
  dsimp only
  rw [if_neg inside,made,List.append_cancel_left_eq]
  by_cases enter : t = .enter <;> simp [enter,Option.isSome_iff_ne_none]

end WslReader
theorem plainWorks : plainFs.Works := ⟨fun _ _ => rfl,fun _ _ => rfl,fun _ _ => ⟨_,rfl⟩⟩

def bareNode : NodeInfo := {twoNames 0 with eas := fun _ => none}

def oneDir (info : NodeInfo) : WslReader := ⟨.v1,sourceBase,.dir (wstr "d") info .nil .nil⟩
def entering : CopyState :=
  {CopyState.new .v2 targetBase (sourceBase ++ wstr "d\\") with isRoot := false}

theorem shapeKeptDirectory :
    creations ((oneDir (twoNames 0x41ed)).visit plainFs .v2 .enter entering).2.log =
      creations entering.log ++
        [((((oneDir (twoNames 0x41ed)).pathAt entering.data).convert entering.path).2.data,true)] ↔
      (EnumDirType.enter = .enter → (oneDir (twoNames 0x41ed)).modeOf (twoNames 0x41ed) ≠ none) := by
  refine WslReader.shapeKept plainWorks (by decide) (.inr ⟨rfl,rfl⟩) rfl rfl (fun mode is => ?_) nofun
  obtain rfl : 0x41ed = mode := Option.some.inj is
  rw [if_pos (by decide)]
  decide

theorem bareDirectoryBecomesFile : ¬ ∀ (r : WslReader) (env : FsEnv) (w : Format) (s : CopyState)
    (info : NodeInfo), env.Works → w ≠ .linux → s.isRoot = false →
    r.infoAt s.data true = some info → ((r.pathAt s.data).convert s.path).1 = .ok true →
    r.Agrees info true → creations (r.visit env w .enter s).2.log =
      creations s.log ++ [(((r.pathAt s.data).convert s.path).2.data,true)] := by
  intro always
  have made := always (oneDir bareNode) plainFs .v2 entering bareNode plainWorks (by decide) rfl rfl
    rfl nofun
  have other : creations ((oneDir bareNode).visit plainFs .v2 .enter entering).2.log =
      [(targetBase ++ wstr "d\\",false)] := by decide +kernel
  rw [other] at made
  revert made
  decide +kernel

end LxRunOffline
