import LxRunOffline.Matched

/-! A writer stores nothing of a record but what it uses: given two records that agree in that,
it does the same on the same system, apart from what it puts off. -/
namespace LxRunOffline
open Program (Relates)

namespace FileAttr
variable (attr : FileAttr)

theorem usedType (w : Format) : (attr.used w).type = attr.type := rfl

theorem usedNumbers {w : Format} (kept : attr.device ∨ w ≠ .v2 ∧ w ≠ .linux) :
    (attr.used w).devMajor = attr.devMajor ∧ (attr.used w).devMinor = attr.devMinor :=
  ⟨if_pos kept,if_pos kept⟩

theorem usedLink (w : Format) (link : attr.type = aeIflnk) :
    (attr.used w).symlink = attr.symlink := if_pos link

theorem strlenUsed (w : Format) : FsWriter.strlen (attr.used w) = FsWriter.strlen attr := by
  have whole : (attr.used w).Whole ↔ attr.Whole :=
    imp_congr_right fun link => by rw [attr.usedLink w link]
  by_cases is : attr.Whole
  · rw [FsWriter.strlen,FsWriter.strlen,if_pos is,if_pos (whole.mpr is)]
  · rw [FsWriter.strlen,FsWriter.strlen,if_neg is,if_neg (mt whole.mp is)]

theorem partsUsed (env : FsEnv) (path : Wstr) :
    WslV2Writer.setEas env path (attr.used .v2) = WslV2Writer.setEas env path attr ∧
    WslV2Writer.reparseOf (attr.used .v2) = WslV2Writer.reparseOf attr := by
  have eas : WslV2Writer.setEas env path (attr.used .v2) = WslV2Writer.setEas env path attr := by
    by_cases device : attr.device
    · obtain ⟨major,minor⟩ := attr.usedNumbers (w := .v2) (.inl device)
      rw [WslV2Writer.setEas,WslV2Writer.setEas,major,minor]
      rfl
    · have plain : ¬ (attr.type = aeIfchr ∨ attr.type = aeIfblk) := device
      have plain' : ¬ ((attr.used .v2).type = aeIfchr ∨ (attr.used .v2).type = aeIfblk) := device
      rw [WslV2Writer.setEas,WslV2Writer.setEas,Program.when,Program.when,if_neg plain,if_neg plain']
      rfl
  have reparse : WslV2Writer.reparseOf (attr.used .v2) = WslV2Writer.reparseOf attr := by
    by_cases link : attr.type = aeIflnk
    · rw [WslV2Writer.reparseOf,WslV2Writer.reparseOf,usedType,attr.usedLink .v2 link]
    · rw [WslV2Writer.reparseOf,WslV2Writer.reparseOf,usedType,if_neg link,if_neg link]
  exact ⟨eas,reparse⟩

theorem storeAttrUsed (env : FsEnv) (path : Wstr) :
    WslV2Writer.storeAttr env path (attr.used .v2) = WslV2Writer.storeAttr env path attr := by
  obtain ⟨eas,reparse⟩ := attr.partsUsed env path
  rw [WslV2Writer.storeAttr,WslV2Writer.storeAttr,eas,reparse]
  rfl

theorem realAttrUsed (env : FsEnv) (path : Wstr) :
    WslV2Writer.realWriteAttr env path (attr.used .v2) = WslV2Writer.realWriteAttr env path attr := by
  obtain ⟨eas,reparse⟩ := attr.partsUsed env path
  rw [WslV2Writer.realWriteAttr,WslV2Writer.realWriteAttr,eas,reparse,attr.strlenUsed]
  rfl

theorem v1AttrUsed {w : Format} (v1 : w ≠ .v2 ∧ w ≠ .linux) (env : FsEnv) (path : Wstr) :
    WslV1Writer.writeAttr env path (attr.used w) = WslV1Writer.writeAttr env path attr := by
  have record : WslV1Writer.record (attr.used w) = WslV1Writer.record attr := by
    obtain ⟨major,minor⟩ := attr.usedNumbers (.inr v1)
    rw [WslV1Writer.record,WslV1Writer.record,major,minor]
    rfl
  rw [WslV1Writer.writeAttr,WslV1Writer.writeAttr,record,attr.strlenUsed,usedType]
  by_cases link : attr.type = aeIflnk
  · rw [attr.usedLink w link]
  · rw [Program.when,Program.when,if_neg link,if_neg link]

theorem entryUsed : ArchiveWriter.entryOf (attr.used .linux) = ArchiveWriter.entryOf attr := by
  have link : (ArchiveWriter.entryOf (attr.used .linux)).symlink =
      (ArchiveWriter.entryOf attr).symlink := by
    rw [ArchiveWriter.entryOf,ArchiveWriter.entryOf,usedType]
    dsimp only
    by_cases is : attr.type = aeIflnk
    · rw [attr.usedLink .linux is]
    · rw [if_neg is,if_neg is]
  have numbers : (ArchiveWriter.entryOf (attr.used .linux)).devMajor =
        (ArchiveWriter.entryOf attr).devMajor ∧
      (ArchiveWriter.entryOf (attr.used .linux)).devMinor = (ArchiveWriter.entryOf attr).devMinor := by
    rw [ArchiveWriter.entryOf,ArchiveWriter.entryOf,usedType]
    dsimp only
    by_cases is : attr.device
    · obtain ⟨major,minor⟩ := attr.usedNumbers (w := .linux) (.inl is)
      rw [major,minor]
      exact ⟨rfl,rfl⟩
    · have plain : ¬ (attr.type = aeIfchr ∨ attr.type = aeIfblk) := is
      rw [if_neg plain,if_neg plain,if_neg plain,if_neg plain]
      exact ⟨rfl,rfl⟩
  rw [ArchiveWriter.entryOf,ArchiveWriter.entryOf,FileAttr.mk.injEq]
  exact ⟨rfl,rfl,rfl,rfl,rfl,rfl,rfl,numbers.1,numbers.2,link⟩

end FileAttr
namespace Matched

theorem popped {rest rest' : List (Wstr × FileAttr)} (held : rest.map usedEntry = rest'.map usedEntry) :
    Relates Matched Eq (Program.modify fun s => {s with dirAttr := rest} : Copy Unit)
      (Program.modify fun s => {s with dirAttr := rest'}) := by
  refine .modify fun s t matched => ?_
  obtain ⟨stack,rfl,_⟩ := matched
  exact ⟨rest',rfl,held⟩

section
variable {env env' : FsEnv} (same : SameButMemory env env')
include same

theorem setEas (path : Wstr) (attr : FileAttr) :
    Relates Matched Eq (WslV2Writer.setEas env path attr) (WslV2Writer.setEas env' path attr) :=
  .follow (setEa same ..) fun _ => .follow (setEa same ..) fun _ => .follow (setEa same ..) fun _ =>
    .when fun _ => setEa same ..

theorem setReparse (path : Wstr) (data : Option ReparseData) :
    Relates Matched Eq (WslV2Writer.setReparse env path data) (WslV2Writer.setReparse env' path data) := by
  cases data with
  | none => exact .pure rfl
  | some data => exact status same fun _ => .ite (fun _ => .raise _) fun _ => note _

theorem setTimes (path : Wstr) (attr : FileAttr) :
    Relates Matched Eq (WslV2Writer.setTimes env path attr) (WslV2Writer.setTimes env' path attr) :=
  status same fun _ => .ite (fun _ => .raise _) fun _ => note _

theorem storeAttr (path : Wstr) {a b : FileAttr} (used : a.used .v2 = b.used .v2) :
    Relates Matched Eq (WslV2Writer.storeAttr env path a) (WslV2Writer.storeAttr env' path b) := by
  rw [← a.storeAttrUsed,← b.storeAttrUsed,used]
  exact .follow (withPath path (setEas same ..)) fun _ => .follow (setReparse same ..) fun _ => setTimes same ..

theorem realWriteAttr (path : Wstr) {a b : FileAttr} (used : a.used .v2 = b.used .v2) :
    Relates Matched Eq (WslV2Writer.realWriteAttr env path a) (WslV2Writer.realWriteAttr env' path b) := by
  rw [← a.realAttrUsed,← b.realAttrUsed,used]
  exact .follow (withPath path (setEas same ..)) fun _ => .follow (strlen _) fun _ =>
    .follow (setReparse same ..) fun _ => setTimes same ..

theorem flush (path : Wstr) {stack stack' : List (Wstr × FileAttr)}
    (held : stack.map usedEntry = stack'.map usedEntry) :
    Relates Matched Eq (WslV2Writer.flush env path stack) (WslV2Writer.flush env' path stack') := by
  induction stack generalizing stack' with
  | nil =>
    cases List.map_eq_nil_iff.mp held.symm
    exact .pure rfl
  | cons top rest ih =>
    cases stack' with
    | nil => contradiction
    | cons top' rest' =>
      obtain ⟨dir,a⟩ := top
      obtain ⟨dir',b⟩ := top'
      obtain ⟨entry,below⟩ := List.cons.inj held
      obtain ⟨rfl,used⟩ := Prod.mk.inj entry
      exact .ite (fun _ => .pure rfl) fun _ => .follow (popped below) fun _ =>
        .follow (openFile same ..) fun _ => .follow (storeAttr same _ used) fun _ => ih below

theorem drain {stack stack' : List (Wstr × FileAttr)}
    (held : stack.map usedEntry = stack'.map usedEntry) :
    Relates Matched Eq (WslV2Writer.drain env stack) (WslV2Writer.drain env' stack') := by
  induction stack generalizing stack' with
  | nil =>
    cases List.map_eq_nil_iff.mp held.symm
    exact .pure rfl
  | cons top rest ih =>
    cases stack' with
    | nil => contradiction
    | cons top' rest' =>
      obtain ⟨dir,a⟩ := top
      obtain ⟨dir',b⟩ := top'
      obtain ⟨entry,below⟩ := List.cons.inj held
      obtain ⟨rfl,used⟩ := Prod.mk.inj entry
      exact .follow (popped below) fun _ => .follow (openFile same ..) fun _ =>
        .follow (storeAttr same _ used) fun _ => ih below

theorem destroy (w : Format) :
    Relates Matched Eq (FsWriter.destroy env w) (FsWriter.destroy env' w) := by
  have freed : Relates Matched Eq (ArchiveWriter.destroy env) (ArchiveWriter.destroy env') := by
    rw [ArchiveWriter.destroy,ArchiveWriter.destroy,same.flush]
    exact answer _
  refine .ite (fun _ => get fun s stack held => ?_) fun _ => .ite (fun _ => freed) fun _ => .pure rfl
  exact .rescue (drain same held) fun e => .ite (fun _ => .pure rfl) fun _ => .raise _

theorem writeAttrV2 (path : Wstr) {a b : FileAttr} (used : a.used .v2 = b.used .v2) :
    Relates Matched Eq (WslV2Writer.writeAttr env path a) (WslV2Writer.writeAttr env' path b) := by
  have type : b.type = a.type := by rw [← b.usedType .v2,← used,a.usedType]
  rw [WslV2Writer.writeAttr,WslV2Writer.writeAttr,type]
  refine .ite (fun _ => get fun s stack held => ?_) fun _ => realWriteAttr same path used
  refine .follow (flush same path held) fun _ => .modify fun s t matched => ?_
  obtain ⟨stack,rfl,held⟩ := matched
  refine ⟨(path,b) :: stack,rfl,?_⟩
  rw [List.map_cons,List.map_cons,held,usedEntry,usedEntry,used]

theorem writeAttrV1 (path : Wstr) (attr : FileAttr) :
    Relates Matched Eq (WslV1Writer.writeAttr env path attr) (WslV1Writer.writeAttr env' path attr) :=
  .follow (withPath path (setEa same ..)) fun _ => .follow (strlen attr) fun _ => .when fun _ => writeData same ..

variable {w : Format}

theorem writeAttr (wsl : w ≠ .linux) (path : Wstr) {a b : Option FileAttr}
    (used : a.map (FileAttr.used w) = b.map (FileAttr.used w)) :
    Relates Matched Eq (WslWriter.writeAttr env w path a) (WslWriter.writeAttr env' w path b) := by
  cases a with
  | none =>
    cases Option.map_eq_none_iff.mp used.symm
    exact .pure rfl
  | some a =>
    cases b with
    | none => contradiction
    | some b =>
      have used := Option.some.inj used
      refine .ite (fun v2 => ?_) fun v1 => ?_
      · rw [v2] at used
        exact writeAttrV2 same path used
      · rw [← a.v1AttrUsed ⟨v1,wsl⟩,← b.v1AttrUsed ⟨v1,wsl⟩,used]
        exact writeAttrV1 same path _

theorem create (path : Wstr) (isDir : Bool) :
    Relates Matched Eq (WslWriter.create env path isDir) (WslWriter.create env' path isDir) := by
  refine .ite (fun _ => .follow (status same fun _ => ?_) fun _ => openFile same ..) fun _ => ?_
  · exact .ite (fun _ => note _) fun _ => .ite (fun _ => .pure rfl) fun _ => .raise _
  · exact .follow (openFile same ..) fun _ => note _

theorem finish (path : Wstr) (type : UInt32) :
    Relates Matched Eq (WslWriter.finish env path type) (WslWriter.finish env' path type) :=
  .ite (fun _ => modify fun _ _ => ⟨rfl,rfl⟩) fun _ =>
    .ite (fun _ => withPath path (setCsInfo same path)) fun _ => .pure rfl

theorem writeFile (wsl : w ≠ .linux) {a b : Option FileAttr}
    (used : a.map (FileAttr.used w) = b.map (FileAttr.used w)) :
    Relates Matched Eq (WslWriter.writeFile env w a) (WslWriter.writeFile env' w b) := by
  have type : typeOf b = typeOf a := by
    have kept (c : Option FileAttr) : typeOf (c.map (FileAttr.used w)) = typeOf c := by
      cases c <;> rfl
    rw [← kept b,← used,kept a]
  refine get fun s stack _ => ?_
  rw [type]
  exact .follow (create same ..) fun _ => .follow (writeAttr same wsl _ used) fun _ =>
    .follow (finish same ..) fun _ => .follow (note _) fun _ => .pure rfl

theorem writeEntry {a b : FileAttr} (used : a.used .linux = b.used .linux) :
    Relates Matched Eq (ArchiveWriter.writeEntry env a) (ArchiveWriter.writeEntry env' b) := by
  refine get fun s stack _ => ?_
  rw [← a.entryUsed,← b.entryUsed,used]
  exact .ite (fun _ => .pure rfl) fun _ => .follow (toUtf8 same _) fun _ =>
    .follow (writeHeader same ..) fun _ => .follow (note _) fun _ => .pure rfl

theorem writeNewFile {a b : Option FileAttr} (types : a.map FileAttr.type = b.map FileAttr.type)
    (used : FsWriter.passes a (w ≠ .linux) (w ≠ .linux) = true →
      a.map (FileAttr.used w) = b.map (FileAttr.used w)) :
    Relates Matched Eq (FsWriter.writeNewFile env w a) (FsWriter.writeNewFile env' w b) := by
  have passes (allowed : Bool) : FsWriter.passes b allowed allowed = FsWriter.passes a allowed allowed := by
    cases a <;> cases b <;> simp_all [FsWriter.passes]
  have check (allowed : Bool) : Relates Matched
      (fun x y => x = y ∧ x = FsWriter.passes a allowed allowed)
      (FsWriter.checkAttr a allowed allowed) (FsWriter.checkAttr b allowed allowed) := by
    rw [FsWriter.checkAttr,FsWriter.checkAttr,passes]
    refine .ite (fun fine => .pure ⟨rfl,fine.symm⟩) fun bad => ?_
    have no : false = FsWriter.passes a allowed allowed := by simpa using bad
    exact .follow (modify fun _ _ => ⟨rfl,rfl⟩) fun _ => .pure ⟨rfl,no⟩
  refine .ite (fun archive => ?_) fun wsl => ?_
  · have none' : (decide (w ≠ .linux)) = false := by simpa using archive
    rw [none',archive] at used
    refine (check false).bind fun x y checked => ?_
    obtain ⟨rfl,known⟩ := checked
    cases x with
    | false => cases a <;> cases b <;> exact .pure rfl
    | true =>
      have agree := used known.symm
      cases a with
      | none => cases b <;> first | exact .pure rfl | contradiction
      | some a =>
        cases b with
        | none => contradiction
        | some b => exact writeEntry same (Option.some.inj agree)
  · have all : (decide (w ≠ .linux)) = true := by simpa using wsl
    rw [all] at used
    refine (check true).bind fun x y checked => ?_
    obtain ⟨rfl,known⟩ := checked
    cases x with
    | false => exact .pure rfl
    | true => exact writeFile same wsl (used known.symm)

theorem writeFileData (bytes : Bytes) :
    Relates Matched Eq (FsWriter.writeFileData env w bytes) (FsWriter.writeFileData env' w bytes) := by
  refine .ite (fun _ => .ite (fun _ => .pure rfl) fun _ => ?_) fun _ => ?_
  · refine (askData same bytes).follow fun taken => .follow (answer _) fun _ => ?_
    cases taken with
    | failed text => exact .raise _
    | took count => exact note _
  · refine .ite (fun _ => modify fun _ _ => ⟨rfl,rfl⟩) fun _ => get fun s stack _ => ?_
    exact writeData same ..

theorem writeHardLink :
    Relates Matched Eq (FsWriter.writeHardLink env w) (FsWriter.writeHardLink env' w) := by
  have check : Relates Matched Eq FsWriter.checkTargetIgnored FsWriter.checkTargetIgnored := by
    refine get fun s stack _ => .ite (fun _ => ?_) fun _ => .pure rfl
    exact .follow (modify fun _ _ => ⟨rfl,rfl⟩) fun _ => .pure rfl
  refine .ite (fun _ => check.follow fun _ => .ite (fun _ => ?_) fun _ => .pure rfl) fun _ => ?_
  · exact get fun s stack _ => .follow (toUtf8 same _) fun _ => .follow (toUtf8 same _) fun _ =>
      writeHeader same ..
  · refine check.follow fun _ => .ite (fun _ => get fun s stack _ => ?_) fun _ => .pure rfl
    exact .follow (note _) fun _ => status same fun _ => .ite (fun _ => .raise _) fun _ => .pure rfl

end
end Matched
end LxRunOffline
